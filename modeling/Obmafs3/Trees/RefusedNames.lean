import Obmafs3.Library.SearchTreeKeep
import Obmafs3.Trees.Conserved
import Obmafs3.Trees.NewNames

/-!
# A refused name changes nothing

Under its condition every callback that enters a name keeps the three trees sound, and one that
fails leaves the catalog as it was, every search in the inode table with the answer it had, and no
block marked that is not a node. `refused_callbacks` says so for every callback of a run. It is
`addInode_spec` for the new inodes, where a refused entry is followed by the removal of the record,
and `addLink_spec` for the hard links.
-/

set_option autoImplicit false

namespace Obmafs3

open Library.Search Library.SearchTree
open Function (update update_of_ne update_self)

namespace TreeVolume

variable {st st' : TreeVolume} {root root' : (tree : TreeName) → Root ℕ tree.Key tree.Record}
  {chain chain' : TreeName → List ℕ} {tree : TreeName} {inode : InodeRecord} {bound : ℕ}

/-! ### Calls that succeed -/

/-- A careful insertion is done, or it changes nothing. -/
theorem Sound.insertOn_cases (hs : st.Sound root chain) {record : tree.Record}
    (hcareful : InsertCareful st tree record) :
    (∃ fresh new st' chain', (root tree).put tree.kind.key
        (maxKeys st.vol.blockSize tree.kind.recordSize)
        (maxKeys st.vol.blockSize tree.kind.entrySize) fresh record = (new, true) ∧
      (root tree).height ≤ btreeMaxDepth ∧
      onTree tree (fun hdrLba ↦ btreeInsert tree.kind hdrLba record) st = .ok () st' ∧
      Advances st root chain st' (update root tree new) chain') ∨
    ∃ e, onTree tree (fun hdrLba ↦ btreeInsert tree.kind hdrLba record) st = .error e st := by
  rcases hs.insert_cases hcareful with ⟨fresh, new, ctx, hput, hdepth, hmoves, hrun⟩ | ⟨e, hrun⟩
  · obtain ⟨chain', hadvances⟩ := hs.advances hmoves
    exact Or.inl ⟨fresh, new, _, chain', hput, hdepth, onTree_ok hrun, hadvances⟩
  · exact Or.inr ⟨e, onTree_refused hrun⟩

theorem Sound.catalogInsert_cases (hs : st.Sound root chain) {record : CatalogRecord}
    (hcareful : InsertCareful st .catalog record) :
    (∃ new st' chain', (TreeCall.catalogInsert record).run st = .ok () st' ∧
      Advances st root chain st' (update root .catalog new) chain') ∨
    ∃ e, (TreeCall.catalogInsert record).run st = .error e st := by
  rcases hs.insertOn_cases hcareful with ⟨-, new, st', chain', -, -, hrun, hadvances⟩ | hrefused
  · exact Or.inl ⟨new, st', chain', hrun, hadvances⟩
  · exact Or.inr hrefused

/-! ### The inode table -/

/-- The inode table, with ids below a bound. -/
def InodesBelow (root : (tree : TreeName) → Root ℕ tree.Key tree.Record) (bound : ℕ) : Prop :=
  (root .inodes).Ascending InodeRecord.inodeId bound

/-- The inode table that a search answers for the inode of a record, and otherwise as before. -/
def Answers (root root' : (tree : TreeName) → Root ℕ tree.Key tree.Record) (inode : InodeRecord) :
    Prop :=
  ∀ k, (root' .inodes).lookup InodeRecord.inodeId k =
    if inode.inodeId = k then some inode else (root .inodes).lookup InodeRecord.inodeId k

theorem one_le_inodeKeys {vol : Volume} (hformatted : Formatted vol) :
    1 ≤ maxKeys vol.blockSize inodeKind.recordSize ∧
      1 ≤ maxKeys vol.blockSize inodeKind.entrySize := by
  obtain ⟨hge, hle⟩ := hformatted
  simp only [maxKeys, btreeNodeHeaderSize, inodeKind]
  omega

/-- The record of a new inode enters the table, or nothing changes. -/
theorem Sound.inodePut_new (hs : st.Sound root chain) (hformatted : Formatted st.vol)
    (hbelow : InodesBelow root inode.inodeId) (hcareful : InsertCareful st .inodes inode) :
    (∃ new st' chain', (TreeCall.inodePut inode).run st = .ok () st' ∧
      Advances st root chain st' (update root .inodes new) chain' ∧
      InodesBelow (update root .inodes new) (inode.inodeId + 1) ∧
      Answers root (update root .inodes new) inode) ∨
    ∃ e, (TreeCall.inodePut inode).run st = .error e st := by
  rcases hs.insertOn_cases hcareful with
    ⟨fresh, new, st', chain', hput, -, hrun, hadvances⟩ | hrefused
  · refine Or.inl ⟨new, st', chain', hrun, hadvances, ?_⟩
    obtain ⟨hleafMax, hindexMax⟩ := one_le_inodeKeys hformatted
    have hput' : (root .inodes).put InodeRecord.inodeId
        (maxKeys st.vol.blockSize inodeKind.recordSize)
        (maxKeys st.vol.blockSize inodeKind.entrySize) fresh inode = (new, true) := hput
    have hascending := Root.Ascending.put_new hleafMax hindexMax hbelow le_rfl
      (Nat.lt_succ_self inode.inodeId) hput'
    rw [InodesBelow, Answers, update_self]
    exact ⟨hascending, Root.Ascending.lookup_put hbelow hput' hascending.ordered⟩
  · exact Or.inr hrefused

variable {old : InodeRecord}

/-- A record is replaced in place, unless the table is too deep. -/
theorem Sound.inodePut_found (hs : st.Sound root chain) (hformatted : Formatted st.vol)
    (hbelow : InodesBelow root bound)
    (hfound : (root .inodes).lookup InodeRecord.inodeId inode.inodeId = some old) :
    ((root .inodes).height ≤ btreeMaxDepth ∧
      ∃ new st' chain', (TreeCall.inodePut inode).run st = .ok () st' ∧
        Advances st root chain st' (update root .inodes new) chain' ∧
        InodesBelow (update root .inodes new) bound ∧
        Answers root (update root .inodes new) inode ∧
        new.height = (root .inodes).height) ∨
    btreeMaxDepth < (root .inodes).height ∧
      ∃ e, (TreeCall.inodePut inode).run st = .error e st := by
  rcases Nat.lt_or_ge btreeMaxDepth (root .inodes).height with hdeep | hdepth
  · have hrefused : onTree .inodes (fun hdrLba ↦ btreeInsert inodeKind hdrLba inode) st =
        .error .inval st := onTree_refused (btreeInsert_deep inode (hs.stored .inodes) hdeep)
    exact Or.inr ⟨hdeep, .inval, hrefused⟩
  · refine Or.inl ⟨hdepth, ?_⟩
    obtain ⟨fresh, new, ctx, done, hput, -, hdone, -⟩ := Sound.insert_spec hs inode hdepth
    obtain ⟨hleafMax, hindexMax⟩ := one_le_inodeKeys hformatted
    have hput' : (root .inodes).put InodeRecord.inodeId
        (maxKeys st.vol.blockSize inodeKind.recordSize)
        (maxKeys st.vol.blockSize inodeKind.entrySize) fresh inode = (new, done) := hput
    have hascending := Root.Ascending.put_found hleafMax hindexMax hbelow hfound hput'
    obtain ⟨root', hreplaced, hheight, -, -⟩ := Root.put_replaced
      (maxKeys st.vol.blockSize inodeKind.recordSize)
      (maxKeys st.vol.blockSize inodeKind.entrySize) fresh hfound
    obtain ⟨rfl, rfl⟩ := Prod.mk.inj (hput'.symm.trans hreplaced)
    obtain ⟨hmoves, hrun⟩ := hdone rfl
    obtain ⟨chain', hadvances⟩ := hs.advances hmoves
    have hran : onTree .inodes (fun hdrLba ↦ btreeInsert inodeKind hdrLba inode) st =
        .ok () (st.set .inodes ctx) := onTree_ok hrun
    refine ⟨new, _, chain', hran, hadvances, ?_, ?_, hheight⟩
    · rw [InodesBelow, update_self]
      exact hascending
    · rw [Answers, update_self]
      exact Root.Ascending.lookup_put hbelow hput' hascending.ordered

/-! ### Taking an inode back -/

/-- Taking back a record that is in the table. -/
theorem Sound.inodeDelete_found (hs : st.Sound root chain) {inodeId : ℕ}
    (hundo : UndoCareful st inodeId)
    (hfound : (root .inodes).lookup InodeRecord.inodeId inodeId = some old)
    (hapart : ∀ lba ∈ extentBlocks old.extents,
      lba ≠ 0 ∧ (∀ tree, lba ≠ st.hdrLba tree) ∧ lba ∉ ownedAll root chain) :
    ∃ st' chain', (TreeCall.inodeDelete inodeId).run st = .ok () st' ∧
      st'.Sound (update root .inodes
        ((root .inodes).remove InodeRecord.inodeId inodeId)) chain' ∧
      st'.vol.blockSize = st.vol.blockSize ∧
      ownedAll root chain ⊆ ownedAll (update root .inodes
        ((root .inodes).remove InodeRecord.inodeId inodeId)) chain' ∧
      ∀ lba < st.vol.totalBlocks, st'.vol.bitmap lba = true →
        st.vol.bitmap lba = true ∧ lba ∉ extentBlocks old.extents := by
  have hsame {record : InodeRecord}
      (hrecord : (root .inodes).lookup InodeRecord.inodeId inodeId = some record) : record = old :=
    Option.some.inj (hrecord.symm.trans hfound)
  rcases hs.inodeDelete_spec hundo.leaf fun _ _ _ _ _ _ hrecord ↦ hsame hrecord ▸ hapart with
    ⟨e, -, hnone⟩ | ⟨record, st', chain', hrun, hrecord, hafter⟩
  · rw [hnone (hundo.shallow _ _ (hs.stored .inodes))] at hfound
    cases hfound
  · obtain rfl := hsame hrecord
    exact ⟨st', chain', hrun, hafter⟩

/-- The catalog is the same tree, and the inode table answers every search as before. -/
structure Restored (root root' : (tree : TreeName) → Root ℕ tree.Key tree.Record) : Prop where
  catalog : root' .catalog = root .catalog
  inodes : ∀ k, (root' .inodes).lookup InodeRecord.inodeId k =
    (root .inodes).lookup InodeRecord.inodeId k

/-- Taking back what was put in restores the table. -/
theorem Answers.restored_remove (hanswers : Answers root root' inode)
    (hcatalog : root' .catalog = root .catalog) (hbelow : InodesBelow root inode.inodeId)
    (hbelow' : InodesBelow root' bound) :
    Restored root (update root' .inodes
      ((root' .inodes).remove InodeRecord.inodeId inode.inodeId)) := by
  refine ⟨(update_of_ne (by simp) _ _).trans hcatalog, fun k ↦ ?_⟩
  have hremoved := Root.lookup_remove hbelow'.ordered inode.inodeId k
  rw [update_self, hremoved, hanswers k]
  split_ifs with hk
  · subst hk
    exact (hbelow.lookup_eq_none le_rfl).symm
  · rfl

end TreeVolume

namespace FuseVolume

open TreeVolume

variable {st st' : FuseVolume} {root root' : (tree : TreeName) → Root ℕ tree.Key tree.Record}
  {chain chain' : TreeName → List ℕ} {inode : InodeRecord} {key : CatalogKey}
  {directoryFlag : Bool}

/-! ### The invariant -/

/-- The trees are sound, and the inode table grows at its end, below the next id. -/
structure Sound (st : FuseVolume) (root : (tree : TreeName) → Root ℕ tree.Key tree.Record)
    (chain : TreeName → List ℕ) : Prop where
  trees : st.toTreeVolume.Sound root chain
  formatted : Formatted st.vol
  ids : InodesBelow root st.nextInodeId

theorem lookup_eq (hs : st.toTreeVolume.Sound root chain) (tree : TreeName) (k : tree.Key) :
    st.lookup tree k = .ok ((root tree).lookup tree.kind.key k) := by
  rw [lookup, btreeLookup_spec (hs.stored tree).reads]

section

variable (hsame : ∀ k, st'.catalogLookup k = st.catalogLookup k)
include hsame

theorem walkComponents_congr (components : List (List ℕ)) (currentId : ℕ) :
    st'.walkComponents currentId components = st.walkComponents currentId components := by
  induction components generalizing currentId with
  | nil => rfl
  | cons component rest ih =>
    simp only [walkComponents, hsame, ih]

/-- A path leads where the catalog says. -/
theorem lookupPath_congr (path : List ℕ) : st'.lookupPath path = st.lookupPath path := by
  have hresolve : st'.resolvePath path = st.resolvePath path := by
    simp only [resolvePath, walkComponents_congr hsame]
  simp only [lookupPath, hresolve, hsame]

end

theorem unchanged_of_restored (hs : st.toTreeVolume.Sound root chain)
    (hs' : st'.toTreeVolume.Sound root' chain') (hrestored : Restored root root')
    (hblocks : ∀ lba < st.vol.totalBlocks, st.vol.bitmap lba = false → st'.vol.bitmap lba = true →
      lba ∈ ownedAll root' chain') : Unchanged st st' := by
  have hcatalog (k : CatalogKey) : st'.catalogLookup k = st.catalogLookup k := by
    rw [catalogLookup, catalogLookup, lookup_eq hs, lookup_eq hs', hrestored.catalog]
  have hinodes (k : ℕ) : st'.inodeGet k = st.inodeGet k := by
    rw [inodeGet, inodeGet, lookup_eq hs, lookup_eq hs']
    exact congrArg Except.ok (hrestored.inodes k)
  refine ⟨fun path target h ↦ (lookupPath_congr hcatalog path).trans h,
    fun inodeId record h ↦ (hinodes inodeId).trans h, fun inodeId hhas hnot ↦ ?_,
    fun lba hlt hclear hset ↦ hs'.nodes_eq ▸ hblocks lba hlt hclear hset⟩
  simp only [HasInode, Named, hinodes, hcatalog] at hhas hnot ⊢
  exact ⟨hhas, hnot⟩

/-! ### New inodes -/

variable {trees : TreeVolume} {call : TreeCall}

theorem call_ok (st : FuseVolume) (hrun : call.run st.toTreeVolume = .ok () trees) :
    st.call call = (none, { st with toTreeVolume := trees }) := by
  rw [FuseVolume.call, hrun]

variable {oldpath newpath : List ℕ} {target : LinkTarget} {linkpath : List ℕ} {e : ErrorCode}
  {vol : Volume}

theorem call_error (st : FuseVolume) (hrun : call.run st.toTreeVolume = .error e st.toTreeVolume) :
    st.call call = (some e, st) := by
  rw [FuseVolume.call, hrun]

theorem addInode_spec (st : FuseVolume) (hs : st.toTreeVolume.Sound root chain) (hformatted : Formatted st.vol)
    (hbelow : InodesBelow root inode.inodeId) (hnext : inode.inodeId < st.nextInodeId)
    (hcareful : st.AddCareful inode key directoryFlag)
    (hapart : ∀ lba ∈ extentBlocks inode.extents, (lba < st.vol.totalBlocks ∧
      st.vol.bitmap lba = true) ∧ lba ≠ 0 ∧ (∀ tree, lba ≠ st.hdrLba tree) ∧
        lba ∉ ownedAll root chain)
    (hkept : extentBlocks inode.extents = ∅ ∨ ∀ e st', st.call (.inodePut inode) ≠ (some e, st')) :
    ∃ root' chain', (addInode inode key directoryFlag st).2.Sound root' chain' ∧
      ((addInode inode key directoryFlag st).1 ≠ none → Restored root root' ∧
        ∀ lba < st.vol.totalBlocks,
          (st.vol.bitmap lba = true → lba ∈ extentBlocks inode.extents) →
          (addInode inode key directoryFlag st).2.vol.bitmap lba = true →
            lba ∈ ownedAll root' chain') := by
  obtain ⟨hinode, hentry⟩ := hcareful
  rcases hs.inodePut_new hformatted hbelow hinode with
    ⟨new, trees, chain₁, hrun, hadvances, hbelow₁, hanswers⟩ | ⟨e, hrun⟩
  · have hcall := call_ok st hrun
    obtain ⟨hcatalog, hundo⟩ := hentry _ hcall
    have hformatted₁ := hformatted.of_eq hadvances.block_size
    rcases hadvances.sound.catalogInsert_cases hcatalog with
      ⟨new', trees', chain₂, hrun', hadvances'⟩ | ⟨e, hrun'⟩
    · have hcall' := call_ok { st with toTreeVolume := trees } hrun'
      have hadd : addInode inode key directoryFlag st =
          (none, { st with toTreeVolume := trees' }) := by
        rw [addInode, hcall]
        simp only [hcall']
      rw [hadd]
      refine ⟨_, chain₂, ⟨hadvances'.sound, hformatted₁.of_eq hadvances'.block_size, ?_⟩,
        fun h ↦ absurd rfl h⟩
      rw [InodesBelow, update_of_ne (by simp)]
      exact hbelow₁.mono hnext
    · -- The entry is refused, so the record is taken back.
      have hcall' := call_error { st with toTreeVolume := trees } hrun'
      have hfound : ((update root .inodes new) .inodes).lookup InodeRecord.inodeId
          inode.inodeId = some inode := (hanswers inode.inodeId).trans (if_pos rfl)
      obtain ⟨trees', chain₂, hrun'', hs', hsize, hkept', hbits⟩ :=
        hadvances.sound.inodeDelete_found (hundo e _ hcall') hfound fun lba hlba ↦ by
          obtain ⟨⟨hlt, hset⟩, hzero, hhdr, hnot⟩ := hapart lba hlba
          refine ⟨hzero, ?_, fun h ↦ ?_⟩
          · rw [hadvances.headers]
            exact hhdr
          · rcases hadvances.gained lba hlt h with howned | hclear
            · exact hnot howned
            · rw [hclear] at hset
              cases hset
      have hcall'' := call_ok { st with toTreeVolume := trees } hrun''
      have hadd : addInode inode key directoryFlag st =
          (some .eio, { st with toTreeVolume := trees' }) := by
        rw [addInode, hcall]
        simp only [hcall', hcall'']
      rw [hadd]
      refine ⟨_, chain₂, ⟨hs', hformatted₁.of_eq hsize, ?_⟩,
        fun _ ↦ ⟨hanswers.restored_remove (update_of_ne (by simp) _ _) hbelow hbelow₁,
          fun lba hlt hextent hset ↦ ?_⟩⟩
      · rw [InodesBelow, update_self]
        exact (hbelow₁.remove inode.inodeId).mono hnext
      · obtain ⟨hset₁, hnot⟩ := hbits lba (hadvances.total_blocks.symm ▸ hlt) hset
        have hclear : st.vol.bitmap lba = false :=
          Bool.eq_false_of_not_eq_true fun h ↦ hnot (hextent h)
        exact hkept' (hadvances.marked lba hlt hclear hset₁)
  · have hcall := call_error st hrun
    have hadd : addInode inode key directoryFlag st = (some .eio, st) := by
      rw [addInode, hcall]
    rw [hadd]
    refine ⟨root, chain, ⟨hs, hformatted, hbelow.mono hnext.le⟩, fun _ ↦ ⟨⟨rfl, fun _ ↦ rfl⟩,
      fun lba hlt hextent hset ↦ ?_⟩⟩
    rcases hkept with hnone | hgranted
    · exact absurd (hnone ▸ hextent hset) (Set.notMem_empty lba)
    · exact absurd hcall (hgranted e st)

/-! ### Targets -/

theorem writeBlocks_spec (blocks : List (List ℕ)) (vol : Volume) {lba : ℕ}
    (hend : lba + blocks.length ≤ vol.totalBlocks) :
    ∃ disk, writeBlocks lba blocks vol = ({ vol with disk := disk }, true) ∧
      ∀ x, ¬(lba ≤ x ∧ x < lba + blocks.length) → disk x = vol.disk x := by
  induction blocks generalizing lba vol with
  | nil => exact ⟨vol.disk, rfl, fun _ _ ↦ rfl⟩
  | cons data rest ih =>
    rw [List.length_cons] at hend
    obtain ⟨disk, hwrite, hsame⟩ :=
      ih { vol with disk := update vol.disk lba (.bytes data) }
        (show lba + 1 + rest.length ≤ vol.totalBlocks by omega)
    refine ⟨disk, ?_, fun x hx ↦ ?_⟩
    · rw [writeBlocks, Volume.blockWrite, if_pos (by omega)]
      exact hwrite
    · rw [List.length_cons] at hx
      rw [hsame x (by omega)]
      exact update_of_ne (by omega) _ _

/-- A target is refused, or it takes blocks that were free. -/
theorem writeTarget_spec (target : LinkTarget) (inode : InodeRecord) (vol : Volume) :
    writeTarget target inode vol = (none, vol) ∨
      ∃ start vol' inode', writeTarget target inode vol = (some inode', vol') ∧
        inode'.inodeId = inode.inodeId ∧
        inode'.extents = [⟨start, (target.blocks vol.blockSize).length,
          (target.blocks vol.blockSize).length⟩] ∧
        vol'.blockSize = vol.blockSize ∧ vol'.totalBlocks = vol.totalBlocks ∧
        vol'.btreeClumpSize = vol.btreeClumpSize ∧ vol'.dedupClumpSize = vol.dedupClumpSize ∧
        (∀ lba ∈ extentBlocks inode'.extents,
          lba < vol.totalBlocks ∧ vol.bitmap lba = false ∧ vol'.bitmap lba = true) ∧
        ∀ lba ∉ extentBlocks inode'.extents,
          vol'.disk lba = vol.disk lba ∧ vol'.bitmap lba = vol.bitmap lba := by
  have hblocks (start count lba : ℕ) : lba ∈ extentBlocks [⟨start, count, count⟩] ↔
      start ≤ lba ∧ lba < start + count := by
    simp [extentBlocks]
  rw [writeTarget]
  cases halloc : vol.allocBlocks (target.blocks vol.blockSize).length with
  | none => exact Or.inl rfl
  | some result =>
    obtain ⟨start, marked⟩ := result
    obtain ⟨hfind, hmarked⟩ := allocBlocks_eq_some halloc
    obtain ⟨hfree, hend⟩ := Volume.bitmapFindFree_some hfind
    have htotal : marked.totalBlocks = vol.totalBlocks := by rw [hmarked]; rfl
    have hdisk : marked.disk = vol.disk := by rw [hmarked]; rfl
    have hbitmap (lba : ℕ) : marked.bitmap lba =
        (vol.bitmapSet start (target.blocks vol.blockSize).length).bitmap lba := by rw [hmarked]
    obtain ⟨disk, hwrite, hsame⟩ :=
      writeBlocks_spec (target.blocks vol.blockSize) marked (hend.trans htotal.ge)
    refine Or.inr ⟨start, { marked with disk := disk },
      { inode with
        fileSize := target.bytes.length
        extents := [⟨start, (target.blocks vol.blockSize).length,
          (target.blocks vol.blockSize).length⟩] },
      by simp only [hwrite], rfl, rfl, by rw [hmarked]; rfl, htotal, by rw [hmarked]; rfl,
      by rw [hmarked]; rfl, fun lba hlba ↦ ?_, fun lba hlba ↦ ?_⟩
    · obtain ⟨hge, hlt⟩ := (hblocks _ _ _).mp hlba
      exact ⟨by omega, hfree lba hge hlt, (hbitmap lba).trans (if_pos ⟨hge, hlt, by omega⟩)⟩
    · rw [hblocks] at hlba
      exact ⟨(hsame lba hlba).trans (congrFun hdisk lba),
        (hbitmap lba).trans (if_neg fun h ↦ hlba ⟨h.1, h.2.1⟩)⟩

/-- Blocks that were free are none of the trees. -/
theorem apart_of_free (hs : trees.Sound root chain) {lba : ℕ} (hfree : trees.vol.bitmap lba = false)
    : lba ≠ 0 ∧ (∀ tree, lba ≠ trees.hdrLba tree) ∧ lba ∉ ownedAll root chain := by
  have hset (x : ℕ) (hx : trees.vol.bitmap x = true) : lba ≠ x := by
    rintro rfl
    rw [hfree] at hx
    cases hx
  refine ⟨hset 0 (hs.stored .catalog).sound.zero_mem.2.1,
    fun tree ↦ hset _ (hs.stored tree).header.2.1, fun ⟨tree, howned⟩ ↦ ?_⟩
  exact hset lba (hs.owned_set howned).2 rfl

/-! ### Links -/

theorem addLink_spec (hs : st.Sound root chain)
    (hfound : (root .inodes).lookup InodeRecord.inodeId inode.inodeId = some inode)
    (hcareful : ∀ st₁,
      st.call (.inodePut { inode with refCount := (inode.refCount + 1) % 2 ^ 32 }) = (none, st₁) →
        InsertCareful st₁.toTreeVolume .catalog (Mounted.newRecord inode.inodeId key false)) :
    ∃ root' chain', (addLink inode key st).2.Sound root' chain' ∧
      ((addLink inode key st).1 ≠ none → Restored root root' ∧
        ∀ lba < st.vol.totalBlocks, st.vol.bitmap lba = false →
          (addLink inode key st).2.vol.bitmap lba = true → lba ∈ ownedAll root' chain') := by
  obtain ⟨htrees, hformatted, hids⟩ := hs
  set raised : InodeRecord := { inode with refCount := (inode.refCount + 1) % 2 ^ 32 }
  have hfound' : (root .inodes).lookup InodeRecord.inodeId raised.inodeId = some inode := hfound
  rcases htrees.inodePut_found hformatted hids hfound' with
    ⟨hdepth, new, trees, chain₁, hrun, hadvances, hbelow₁, hanswers, hheight⟩ |
    ⟨-, e, hrun⟩
  · have hcall := call_ok st hrun
    have hformatted₁ := hformatted.of_eq hadvances.block_size
    rcases hadvances.sound.catalogInsert_cases (hcareful _ hcall) with
      ⟨new', trees', chain₂, hrun', hadvances'⟩ | ⟨e, hrun'⟩
    · have hcall' := call_ok { st with toTreeVolume := trees } hrun'
      have hadd : addLink inode key st = (none, { st with toTreeVolume := trees' }) := by
        rw [addLink, hcall]
        simp only [hcall']
      rw [hadd]
      refine ⟨_, chain₂, ⟨hadvances'.sound, hformatted₁.of_eq hadvances'.block_size, ?_⟩,
        fun h ↦ absurd rfl h⟩
      rw [InodesBelow, update_of_ne (by simp)]
      exact hbelow₁
    · -- The entry is refused, so the old record is put back.
      have hcall' := call_error { st with toTreeVolume := trees } hrun'
      have hput : ((update root .inodes new) .inodes).lookup InodeRecord.inodeId
          inode.inodeId = some raised := (hanswers inode.inodeId).trans (if_pos rfl)
      rcases hadvances.sound.inodePut_found hformatted₁ hbelow₁ hput with
        ⟨-, new', trees', chain₂, hrun'', hadvances', hbelow₂, hanswers', -⟩ | ⟨hdeep, -⟩
      · have hcall'' := call_ok { st with toTreeVolume := trees } hrun''
        have hadd : addLink inode key st = (some .eio, { st with toTreeVolume := trees' }) := by
          rw [addLink, hcall]
          simp only [hcall', hcall'']
        rw [hadd]
        refine ⟨_, chain₂, ⟨hadvances'.sound, hformatted₁.of_eq hadvances'.block_size, hbelow₂⟩,
          fun _ ↦ ⟨⟨?_, fun k ↦ ?_⟩, fun lba hlt hclear hset ↦ ?_⟩⟩
        · simp
        · rw [hanswers' k, hanswers k]
          change (if inode.inodeId = k then _ else if inode.inodeId = k then _ else _) = _
          split_ifs with hk
          · exact hk ▸ hfound.symm
          · rfl
        · have hlt' := hadvances.total_blocks.symm ▸ hlt
          cases hbit : trees.vol.bitmap lba with
          | true => exact hadvances'.kept (hadvances.marked lba hlt hclear hbit)
          | false => exact hadvances'.marked lba hlt' hbit hset
      · rw [update_self, hheight] at hdeep
        exact absurd hdepth (Nat.not_le.mpr hdeep)
  · have hcall := call_error st hrun
    have hadd : addLink inode key st = (some .eio, st) := by
      rw [addLink, hcall]
    rw [hadd]
    refine ⟨root, chain, ⟨htrees, hformatted, hids⟩, fun _ ↦ ⟨⟨rfl, fun _ ↦ rfl⟩,
      fun lba hlt hclear hset ↦ ?_⟩⟩
    rw [hclear] at hset
    cases hset

/-! ### One step -/

section

variable (hs : st.Sound root chain)
include hs

theorem Sound.unchanged_self : Unchanged st st := by
  refine unchanged_of_restored hs.trees hs.trees ⟨rfl, fun _ ↦ rfl⟩ fun lba _ hclear hset ↦ ?_
  rw [hclear] at hset
  cases hset

/-- A new inode without data. -/
theorem Sound.addInode (hids : st.IdsLeft)
    (hcareful : st.allocInodeId.AddCareful st.newInode key directoryFlag) :
    ∃ root' chain',
      (FuseVolume.addInode st.newInode key directoryFlag st.allocInodeId).2.Sound root' chain' ∧
      ((FuseVolume.addInode st.newInode key directoryFlag st.allocInodeId).1 ≠ none →
        Unchanged st (FuseVolume.addInode st.newInode key directoryFlag st.allocInodeId).2) := by
  have hnext : st.newInode.inodeId < st.allocInodeId.nextInodeId := by
    change st.nextInodeId < (st.nextInodeId + 1) % 2 ^ 64
    rw [Nat.mod_eq_of_lt hids]
    exact Nat.lt_succ_self _
  have hnone : extentBlocks st.newInode.extents = ∅ := by
    ext lba
    simp [extentBlocks, newInode]
  obtain ⟨root', chain', hs', hrefused⟩ := addInode_spec st.allocInodeId hs.trees
    hs.formatted hs.ids hnext hcareful (by simp [hnone]) (Or.inl hnone)
  refine ⟨root', chain', hs', fun herror ↦ ?_⟩
  obtain ⟨hrestored, hblocks⟩ := hrefused herror
  refine unchanged_of_restored hs.trees hs'.trees hrestored fun lba hlt hclear hset ↦
    hblocks lba hlt (fun h ↦ ?_) hset
  change st.vol.bitmap lba = true at h
  rw [hclear] at h
  cases h

/-- The target of a link takes blocks that were free, so the trees are as they were. -/
theorem Sound.written (hsize : vol.blockSize = st.vol.blockSize)
    (htotal : vol.totalBlocks = st.vol.totalBlocks)
    (hclump : vol.btreeClumpSize = st.vol.btreeClumpSize)
    (hdedup : vol.dedupClumpSize = st.vol.dedupClumpSize) {blocks : Set ℕ}
    (hfree : ∀ lba ∈ blocks, st.vol.bitmap lba = false)
    (hsame : ∀ lba ∉ blocks, vol.disk lba = st.vol.disk lba ∧ vol.bitmap lba = st.vol.bitmap lba) :
    TreeVolume.Sound { st.toTreeVolume with vol := vol } root chain := by
  refine hs.trees.elsewhere ⟨hsize, htotal, hclump, hdedup, fun lba hlba ↦ hsame lba fun hmem ↦ ?_⟩
  obtain ⟨hzero, hhdr, howned⟩ := apart_of_free hs.trees (hfree lba hmem)
  rcases hlba with h | ⟨tree, h⟩ | h
  · exact hzero h
  · exact hhdr tree h
  · exact howned h

theorem Sound.fuseSymlink (hcareful : (NewNameCall.symlink target linkpath).Careful st) :
    ∃ root' chain', (FuseVolume.fuseSymlink target linkpath st).2.Sound root' chain' ∧
      ((FuseVolume.fuseSymlink target linkpath st).1 ≠ none →
        Unchanged st (FuseVolume.fuseSymlink target linkpath st).2) := by
  rw [FuseVolume.fuseSymlink]
  cases hkey : st.freeKey linkpath with
  | error e => exact ⟨root, chain, hs, fun _ ↦ hs.unchanged_self⟩
  | ok key =>
    obtain ⟨hids, hwritten⟩ := hcareful key hkey
    have hnext : st.nextInodeId < st.allocInodeId.nextInodeId := by
      change st.nextInodeId < (st.nextInodeId + 1) % 2 ^ 64
      rw [Nat.mod_eq_of_lt hids]
      exact Nat.lt_succ_self _
    rcases writeTarget_spec target st.newInode st.vol with
      hwrite | ⟨start, vol, inode, hwrite, hid, hextents, hsize, htotal, hclump, hdedup, htaken,
        hsame⟩
    · -- The target got no block: nothing was written.
      simp only [hwrite]
      refine ⟨root, chain, ⟨hs.trees, hs.formatted, hs.ids.mono hnext.le⟩, fun _ ↦ ?_⟩
      refine unchanged_of_restored hs.trees hs.trees ⟨rfl, fun _ ↦ rfl⟩ fun lba _ hclear hset ↦ ?_
      change st.vol.bitmap lba = true at hset
      rw [hclear] at hset
      cases hset
    · simp only [hwrite]
      obtain ⟨hadd, hgranted⟩ := hwritten inode vol hwrite
      have htrees := hs.written hsize htotal hclump hdedup (fun lba hlba ↦ (htaken lba hlba).2.1)
        hsame
      have hnone : target.bytes = [] → extentBlocks inode.extents = ∅ := by
        intro hempty
        have hlength : (target.blocks st.vol.blockSize).length = 0 := by
          have hpos : 0 < st.vol.blockSize := lt_of_lt_of_le (by omega) hs.formatted.size_ge
          simp only [LinkTarget.blocks, hempty, List.length_map, List.length_range, List.length_nil]
          exact Nat.div_eq_of_lt (by omega)
        rw [hextents, hlength]
        ext lba
        simp [extentBlocks]
      obtain ⟨root', chain', hs', hrefused⟩ := addInode_spec { st.allocInodeId with vol := vol } htrees
        (hs.formatted.of_eq hsize)
        (show InodesBelow root inode.inodeId from hid ▸ hs.ids) (hid ▸ hnext) hadd
        (fun lba hlba ↦ by
          obtain ⟨hlt, hfree, hset⟩ := htaken lba hlba
          exact ⟨⟨htotal.symm ▸ hlt, hset⟩, apart_of_free hs.trees hfree⟩)
        (hgranted.imp_left hnone)
      refine ⟨root', chain', hs', fun herror ↦ ?_⟩
      obtain ⟨hrestored, hblocks⟩ := hrefused herror
      refine unchanged_of_restored hs.trees hs'.trees hrestored fun lba hlt hclear hset ↦
        hblocks lba (htotal.symm ▸ hlt) (fun h ↦ ?_) hset
      by_contra hnot
      change vol.bitmap lba = true at h
      rw [(hsame lba hnot).2, hclear] at h
      cases h

/-- A link whose target got blocks and that is refused its inode leaves the blocks marked. -/
theorem Sound.symlink_leak (hkey : st.freeKey linkpath = .ok key) (hbytes : target.bytes ≠ [])
    (hwrite : writeTarget target st.newInode st.vol = (some inode, vol))
    (hcareful : InsertCareful { st.toTreeVolume with vol := vol } .inodes inode)
    (hput : FuseVolume.call (.inodePut inode) { st.allocInodeId with vol := vol } = (some e, st')) :
    ¬Unchanged st (FuseVolume.fuseSymlink target linkpath st).2 := by
  intro hunchanged
  rcases writeTarget_spec target st.newInode st.vol with
    hnone | ⟨start, vol', inode', hsome, -, hextents, hsize, htotal, hclump, hdedup, htaken, hsame⟩
  · rw [hwrite] at hnone
    cases hnone
  rw [hwrite] at hsome
  cases hsome
  have htrees := hs.written hsize htotal hclump hdedup (fun lba hlba ↦ (htaken lba hlba).2.1) hsame
  rcases htrees.insertOn_cases hcareful with ⟨-, -, trees, -, -, -, hrun, -⟩ | ⟨e', hrun⟩
  · have hran : (TreeCall.inodePut inode).run { st.toTreeVolume with vol := vol } =
        .ok () trees := hrun
    rw [call_ok { st.allocInodeId with vol := vol } hran] at hput
    cases hput
  · have hran : (TreeCall.inodePut inode).run { st.toTreeVolume with vol := vol } =
        .error e' { st.toTreeVolume with vol := vol } := hrun
    have hcall := call_error { st.allocInodeId with vol := vol } hran
    have hlink : FuseVolume.fuseSymlink target linkpath st =
        (some .eio, { st.allocInodeId with vol := vol }) := by
      simp only [FuseVolume.fuseSymlink, hkey, hwrite, FuseVolume.addInode, hcall]
    have hpos : 0 < (target.blocks st.vol.blockSize).length := by
      have hlength := List.length_pos_iff.mpr hbytes
      have hblock : 0 < st.vol.blockSize := lt_of_lt_of_le (by omega) hs.formatted.size_ge
      simp only [LinkTarget.blocks, List.length_map, List.length_range]
      exact Nat.div_pos (by omega) hblock
    have hstart : start ∈ extentBlocks inode.extents := by
      rw [hextents]
      exact ⟨_, List.mem_singleton_self _, le_rfl, Nat.lt_add_of_pos_right hpos⟩
    obtain ⟨hlt, hfree, hset⟩ := htaken start hstart
    rw [hlink] at hunchanged
    have hmem : start ∈ ownedAll root chain :=
      htrees.nodes_eq ▸ hunchanged.blocks start hlt hfree hset
    exact (apart_of_free hs.trees hfree).2.2 hmem

end

/-- The inode that a hard link finds is the one stored under its id. -/
theorem findLink_found (hs : st.toTreeVolume.Sound root chain) {bound : ℕ}
    (hbelow : InodesBelow root bound) (hfind : st.findLink oldpath newpath = .ok (inode, key)) :
    (root .inodes).lookup InodeRecord.inodeId inode.inodeId = some inode := by
  rw [findLink] at hfind
  split at hfind
  · cases hfind
  · split_ifs at hfind
    split at hfind
    · cases hfind
    · split at hfind
      next hget =>
        obtain ⟨rfl, -⟩ := Prod.mk.inj (Except.ok.inj hfind)
        rw [inodeGet, lookup_eq hs] at hget
        have hfound : (root .inodes).lookup InodeRecord.inodeId _ = some _ := Except.ok.inj hget
        have hmatch := hfound
        rw [Root.lookup_eq hbelow.ordered] at hmatch
        have hid := List.find?_some hmatch
        rwa [← of_decide_eq_true hid] at hfound
      · cases hfind

section

variable (hs : st.Sound root chain)
include hs

theorem Sound.fuseLink (hcareful : (NewNameCall.link oldpath newpath).Careful st) :
    ∃ root' chain', (FuseVolume.fuseLink oldpath newpath st).2.Sound root' chain' ∧
      ((FuseVolume.fuseLink oldpath newpath st).1 ≠ none →
        Unchanged st (FuseVolume.fuseLink oldpath newpath st).2) := by
  rw [FuseVolume.fuseLink]
  cases hfind : st.findLink oldpath newpath with
  | error e => exact ⟨root, chain, hs, fun _ ↦ hs.unchanged_self⟩
  | ok found =>
    obtain ⟨inode, key⟩ := found
    obtain ⟨root', chain', hs', hrefused⟩ := addLink_spec hs (findLink_found hs.trees hs.ids hfind)
      fun st₁ ↦ hcareful inode key st₁ hfind
    refine ⟨root', chain', hs', fun herror ↦ ?_⟩
    obtain ⟨hrestored, hblocks⟩ := hrefused herror
    exact unchanged_of_restored hs.trees hs'.trees hrestored hblocks

/-- A careful callback keeps the invariant, and one that fails changes nothing. -/
theorem Sound.callback {call : NewNameCall} (hcareful : call.Careful st) :
    ∃ root' chain', (call.run st).2.Sound root' chain' ∧
      ((call.run st).1 ≠ none → Unchanged st (call.run st).2) := by
  cases call with
  | create path =>
    rw [NewNameCall.run, fuseCreate]
    cases hkey : st.freeKey path with
    | error e => exact ⟨root, chain, hs, fun _ ↦ hs.unchanged_self⟩
    | ok key =>
      obtain ⟨hids, hadd⟩ := hcareful key hkey
      exact hs.addInode hids hadd
  | mkdir path =>
    rw [NewNameCall.run, fuseMkdir]
    cases hkey : st.freeKey path with
    | error e => exact ⟨root, chain, hs, fun _ ↦ hs.unchanged_self⟩
    | ok key =>
      obtain ⟨hids, hadd⟩ := hcareful key hkey
      exact hs.addInode hids hadd
  | symlink target linkpath => exact hs.fuseSymlink hcareful
  | link oldpath newpath => exact hs.fuseLink hcareful

/-- A call on another tree keeps the invariant. -/
theorem Sound.of_advances {tree : TreeName} (hne : tree ≠ .inodes)
    {new : Root ℕ tree.Key tree.Record}
    (hadvances : Advances st.toTreeVolume root chain trees (update root tree new) chain') :
    ∃ root' chain', Sound { st with toTreeVolume := trees } root' chain' := by
  refine ⟨_, chain', hadvances.sound, hs.formatted.of_eq hadvances.block_size, ?_⟩
  rw [InodesBelow, update_of_ne hne.symm]
  exact hs.ids

end

theorem call_after (st : FuseVolume) (call : TreeCall) :
    (st.call call).2 = { st with toTreeVolume := call.after st.toTreeVolume } := by
  rw [FuseVolume.call, TreeCall.after]
  cases call.run st.toTreeVolume <;> rfl

/-- A careful call of the tree code keeps the invariant. -/
theorem Sound.treeCall (hs : st.Sound root chain) (hcareful : (MountStep.treeCall call).Careful st)
    : ∃ root' chain', (st.call call).2.Sound root' chain' := by
  obtain ⟨hcareful, hknown⟩ := hcareful
  rw [call_after]
  cases call with
  | catalogInsert record =>
    obtain ⟨new, chain', hadvances⟩ := hs.trees.catalogInsert_advances hcareful
    exact hs.of_advances (by decide) hadvances
  | catalogDelete key =>
    obtain ⟨new, chain', hadvances⟩ := hs.trees.catalogDelete_advances hcareful
    exact hs.of_advances (by decide) hadvances
  | inodePut inode =>
    obtain ⟨old, hget⟩ := hknown inode rfl
    rw [inodeGet, lookup_eq hs.trees] at hget
    rcases hs.trees.inodePut_found hs.formatted hs.ids (Except.ok.inj hget) with
      ⟨-, new, trees, chain', hrun, hadvances, hbelow, -⟩ | ⟨-, e, hrun⟩
    · rw [TreeCall.after_eq (Or.inl ⟨(), hrun⟩)]
      exact ⟨_, chain', hadvances.sound, hs.formatted.of_eq hadvances.block_size, hbelow⟩
    · rw [TreeCall.after_eq (Or.inr ⟨e, hrun⟩)]
      exact ⟨root, chain, hs⟩
  | inodeDelete inodeId =>
    have hapart := hs.trees.extents_apart hcareful.2
    rcases hs.trees.inodeDelete_spec hcareful.1 fun leaf path i record ctx hfind _ ↦
        hapart leaf path i record ctx hfind with
      ⟨e, hrun, -⟩ | ⟨record, trees, chain', hrun, -, htrees, hsize, -⟩
    · rw [TreeCall.after_eq (Or.inr ⟨e, hrun⟩)]
      exact ⟨root, chain, hs⟩
    · rw [TreeCall.after_eq (Or.inl ⟨(), hrun⟩)]
      refine ⟨_, chain', htrees, hs.formatted.of_eq hsize, ?_⟩
      rw [InodesBelow, update_self]
      exact hs.ids.remove inodeId
  | refcountSet lba refCount =>
    obtain ⟨new, chain', hadvances⟩ := hs.trees.refcountSet_advances hcareful
    exact hs.of_advances (by decide) hadvances
  | remount =>
    rw [TreeCall.after_eq (Or.inl ⟨(), hs.trees.remount⟩)]
    exact ⟨root, chain, hs⟩

theorem Sound.step (hs : st.Sound root chain) {step : MountStep} (hcareful : step.Careful st) :
    ∃ root' chain', (step.after st).Sound root' chain' := by
  cases step with
  | callback call =>
    obtain ⟨root', chain', hs', -⟩ := hs.callback hcareful
    exact ⟨root', chain', hs'⟩
  | treeCall call => exact hs.treeCall hcareful
  | elsewhere change =>
    have hspares : st.toTreeVolume.Spares (ownedAll root chain) (change st.vol) :=
      hs.trees.nodes_eq ▸ hcareful
    exact ⟨root, chain, hs.trees.elsewhere hspares,
      hs.formatted.of_eq hspares.block_size, hs.ids⟩

/-- The trees are sound, and the inode table grows at its end. -/
def Consistent (st : FuseVolume) : Prop :=
  ∃ root chain, st.Sound root chain

theorem Consistent.run {steps : List MountStep} (hconsistent : st.Consistent)
    (hcareful : AllStepsCareful steps st) : (afterSteps steps st).Consistent := by
  induction steps generalizing st with
  | nil => exact hconsistent
  | cons step steps ih =>
    obtain ⟨root, chain, hs⟩ := hconsistent
    exact ih (hs.step hcareful.1) hcareful.2

end FuseVolume

theorem allStepsCareful_append {before after : List MountStep} {st : FuseVolume} :
    AllStepsCareful (before ++ after) st ↔
      AllStepsCareful before st ∧ AllStepsCareful after (afterSteps before st) := by
  induction before generalizing st with
  | nil => simp [AllStepsCareful, afterSteps]
  | cons step before ih =>
    rw [List.cons_append, AllStepsCareful, AllStepsCareful, ih, and_assoc]
    rfl

/-- In a careful run of a consistent volume every callback that fails to enter a name changes
nothing. -/
theorem refused_callbacks (steps : List MountStep) {st : FuseVolume}
    (hconsistent : st.Consistent) (hcareful : AllStepsCareful steps st)
    (before after : List MountStep) (call : NewNameCall)
    (hsteps : steps = before ++ .callback call :: after)
    (hrefused : (call.run (afterSteps before st)).1 ≠ none) :
    FuseVolume.Unchanged (afterSteps before st) (call.run (afterSteps before st)).2 := by
  subst hsteps
  obtain ⟨hbefore, hcall, -⟩ := allStepsCareful_append.mp hcareful
  obtain ⟨root, chain, hs⟩ := hconsistent.run hbefore
  obtain ⟨-, -, -, hunchanged⟩ := hs.callback hcall
  exact hunchanged hrefused

/-! ### A crowded volume -/

namespace Crowded

open FuseVolume TreeVolume

def header (rootNodeLba : ℕ) : BtreeHeader := ⟨rootNodeLba, 0, 0, 1024, false⟩

def inode (inodeId : ℕ) : InodeRecord := ⟨inodeId, 0, [], 1⟩

/-- The entry of a file in the root directory under a name of one letter. -/
def entry (inodeId letter : ℕ) : CatalogRecord := ⟨inodeId, 2, false, [letter]⟩

def hdrLba : TreeName → ℕ
  | .catalog => 1
  | .inodes => 2
  | .refcounts => 3

theorem hdrLba_bounds (tree : TreeName) : 0 < hdrLba tree ∧ hdrLba tree < 4 := by
  cases tree <;> decide

/-- A volume of 16 blocks of 1024 bytes, which has room for three records in a leaf. Its inode table
is block 4, its catalog block 5, and the blocks from `free` on are free. -/
def volume (inodes : List InodeRecord) (entries : List CatalogRecord) (free : ℕ) : FuseVolume where
  vol :=
    { blockSize := 1024
      totalBytes := 16384
      btreeClumpSize := 0
      dedupClumpSize := 0
      nextFreeLba := 6
      bitmap := fun lba ↦ decide (lba < free)
      disk := fun
        | 1 => .treeHeader (header 5)
        | 2 => .treeHeader (header 4)
        | 3 => .treeHeader (header 0)
        | 4 => .inodeNode (.leaf 0 0 inodes)
        | 5 => .catalogNode (.leaf 0 0 entries)
        | _ => .bytes [] }
  hdr
    | .catalog => header 5
    | .inodes => header 4
    | .refcounts => header 0
  hdrLba := hdrLba
  nextInodeId := 5

def roots (inodes : List InodeRecord) (entries : List CatalogRecord) :
    (tree : TreeName) → Root ℕ tree.Key tree.Record
  | .catalog => .node 0 (5, entries)
  | .inodes => .node 0 (4, inodes)
  | .refcounts => .empty

variable {inodes : List InodeRecord} {entries : List CatalogRecord} {free : ℕ}

theorem mem_taken (hlow : 6 ≤ free) {lba : ℕ} (hlba : lba < 6) :
    lba ∈ (volume inodes entries free).taken [] := by
  refine ⟨?_, decide_eq_true (by omega), List.not_mem_nil⟩
  change lba < 16384 / 1024
  omega

theorem mem_owned {tree : TreeName} {lba : ℕ} : lba ∈ owned (roots inodes entries tree) [] ↔
      tree = .catalog ∧ lba = 5 ∨ tree = .inodes ∧ lba = 4 := by
  cases tree <;> simp [owned, roots, rootNodes, mem_nodesOf_leaf]

theorem sound (hlow : 6 ≤ free) :
    (volume inodes entries free).toTreeVolume.Sound (roots inodes entries) fun _ ↦ [] := by
  have hheader (tree : TreeName) : hdrLba tree ∈ (volume inodes entries free).taken [] :=
    mem_taken hlow (by have := hdrLba_bounds tree; omega)
  have hallocated (tree : TreeName) : Allocated ((volume inodes entries free).ctx tree)
      ((volume inodes entries free).taken []) := by
    refine ⟨mem_taken hlow (by decide), fun _ h ↦ h.1, fun _ h ↦ h.2.1, ?_, [], ?_, List.nodup_nil,
      by simp⟩
    · cases tree <;> exact (by decide : 1024 / 1024 ≤ 1)
    · cases tree <;> rfl
  refine ⟨fun tree ↦ ⟨⟨hallocated tree, hheader tree, fun lba hlba ↦ ?_⟩, ?_, ?_⟩, fun tree ↦ ?_,
    fun tree ↦ ?_, fun tree ↦ ?_, fun tree other hne lba hlba hother ↦ hne ?_,
    fun tree other hmem ↦ ?_, fun tree ↦ (hdrLba_bounds tree).1.ne', fun tree other hne ↦ ?_,
    ⟨Nat.two_pow_pos 32, Nat.two_pow_pos 32⟩, fun tree ↦ ?_⟩
  · rcases hlba with rfl | rfl <;> cases tree <;> rfl
  · cases tree <;> rfl
  · cases tree with
    | catalog => exact ⟨placed_leaf rfl (mem_taken hlow (by decide)), trivial⟩
    | inodes => exact ⟨placed_leaf rfl (mem_taken hlow (by decide)), trivial⟩
    | refcounts => trivial
  · cases tree <;> rfl
  · cases tree <;> rfl
  · cases tree <;> rfl
  · rw [mem_owned] at hlba hother
    grind
  · have hbounds := hdrLba_bounds tree
    rw [mem_owned] at hmem
    change _ ∧ hdrLba tree = 5 ∨ _ ∧ hdrLba tree = 4 at hmem
    omega
  · change hdrLba tree ≠ hdrLba other
    revert hne
    cases tree <;> cases other <;> decide
  · change 2 ≤ maxKeys 1024 _
    cases tree <;> decide

theorem consistent (hlow : 6 ≤ free) (hsorted : (inodes.map InodeRecord.inodeId).Pairwise (· < ·))
    (hlt : ∀ id ∈ inodes.map InodeRecord.inodeId, id < 5) : (volume inodes entries free).Consistent :=
  ⟨roots inodes entries, fun _ ↦ [], sound hlow, ⟨(by decide : 512 ≤ 1024), (by decide : 1024 ≤ 65536)⟩,
    hsorted, trivial, hlt⟩

/-- A volume without a free block, with three names for one file and room for an inode. -/
def linked : FuseVolume :=
  volume [inode 2, ⟨3, 0, [], 3⟩] [entry 3 97, entry 3 98, entry 3 99] 16

theorem linked_consistent : linked.Consistent :=
  consistent (by decide) (by decide) (by decide)

/-- The new inode gets its record, its entry is refused, and the record can be taken back. -/
theorem linked_careful : AllStepsCareful [.callback (.mkdir [47, 100])] linked := by
  refine ⟨fun key hkey ↦ ⟨(by decide : 5 + 1 < 2 ^ 64), fun used root _ ↦ Or.inl (by decide +kernel),
    fun st₁ hput ↦ ?_⟩, trivial⟩
  obtain rfl : toLex (2, [100]) = key := Except.ok.inj hkey
  obtain rfl : (FuseVolume.call (.inodePut linked.newInode) linked.allocInodeId).2 = st₁ :=
    congrArg Prod.snd hput
  refine ⟨fun used root _ ↦ Or.inl (by decide +kernel), fun e st₂ hinsert ↦ ?_⟩
  obtain rfl : (FuseVolume.call (.catalogInsert (Mounted.newRecord linked.newInode.inodeId
      (toLex (2, [100])) true))
      (FuseVolume.call (.inodePut linked.newInode) linked.allocInodeId).2).2 = st₂ :=
    congrArg Prod.snd hinsert
  refine ⟨fun used root hstored ↦ ?_, fun used height t hstored _ ↦ Or.inl ?_⟩
  · rw [hstored.eq_leaf rfl]
    exact Nat.zero_le _
  · have hroot := hstored.eq_leaf rfl
    cases hroot
    exact (by decide : dropKey InodeRecord.inodeId 5
      [inode 2, ⟨3, 0, [], 3⟩, inode 5] ≠ [])

/-- A volume with one free block, whose inode table is full. -/
def full : FuseVolume :=
  volume [inode 2, inode 3, inode 4] [entry 3 97, entry 4 98] 15

theorem full_consistent : full.Consistent :=
  consistent (by decide) (by decide) (by decide)

def target : LinkTarget := ⟨[116], by decide⟩

end Crowded

theorem refused_callbacks_linked : (NewNameCall.run (.mkdir [47, 100]) Crowded.linked).1 ≠ none ∧
      FuseVolume.Unchanged Crowded.linked (NewNameCall.run (.mkdir [47, 100]) Crowded.linked).2 :=
  have hrefused : (NewNameCall.run (.mkdir [47, 100]) Crowded.linked).1 ≠ none := by
    decide +kernel
  ⟨hrefused, refused_callbacks [.callback (.mkdir [47, 100])] Crowded.linked_consistent
    Crowded.linked_careful [] [] (.mkdir [47, 100]) rfl hrefused⟩

/-- The target of a symbolic link takes the last block, the inode is refused, and the block stays
marked. -/
theorem refused_callbacks_leak : Crowded.full.Consistent ∧
      (NewNameCall.run (.symlink Crowded.target [47, 99]) Crowded.full).1 = some .eio ∧
      ¬FuseVolume.Unchanged Crowded.full
        (NewNameCall.run (.symlink Crowded.target [47, 99]) Crowded.full).2 := by
  refine ⟨Crowded.full_consistent, by decide +kernel, ?_⟩
  obtain ⟨root, chain, hs⟩ := Crowded.full_consistent
  have hkey : Crowded.full.freeKey [47, 99] = .ok (toLex (2, [99])) := rfl
  have hwrite : writeTarget Crowded.target Crowded.full.newInode Crowded.full.vol =
      (some ⟨5, 1, [⟨15, 1, 1⟩], 1⟩,
        (writeTarget Crowded.target Crowded.full.newInode Crowded.full.vol).2) := rfl
  refine hs.symlink_leak hkey (List.cons_ne_nil _ _) hwrite
    (fun used root _ ↦ Or.inl (by decide +kernel)) rfl

end Obmafs3
