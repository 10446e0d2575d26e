import Obmafs3.Defrag.TreeRange
import Obmafs3.Defrag.TreeRename
import Obmafs3.Library.Places

/-!
# The writes of the tree phase

The tree list, the headers and the nodes are objects at places. The phase writes one after the other
to a new place. If no write goes to a block that another object has at that time, the objects are
all there in the end, with the links of the nodes renamed.
-/

set_option autoImplicit false

namespace Obmafs3.Defrag

open Library.Runs Library.Places
open Function (update update_of_ne update_self)

/-! ### Objects -/

/-- What the phase moves. -/
inductive TreeObject
  | list
  | header (name : TreeName)
  | nodes (name : TreeName)
  deriving DecidableEq

/-- The blocks of a list of nodes. -/
def NodeBlocks (blocksPerNode : ℕ) (nodes : List ℕ) (lba : ℕ) : Prop :=
  ∃ n ∈ nodes, InRun n blocksPerNode lba

/-- The blocks of the tree list, and of each named tree. -/
def TreeState.treePlace (st : TreeState) : TreeObject → ℕ → Prop
  | .list, lba => st.dedupLba ≠ 0 ∧ lba = st.dedupLba
  | .header name, lba => st.treeLba name ≠ 0 ∧ lba = st.treeLba name
  | .nodes name, lba => st.treeLba name ≠ 0 ∧
    ∃ nodes, TreeNodes st.disk (st.treeLba name) nodes ∧ NodeBlocks name.blocksPerNode nodes lba

/-- Where everything is when the evictions have ended: the objects, and as `none` all other blocks
in use. -/
def TreeState.place (st : TreeState) (evicted : CompactState) : Option TreeObject → ℕ → Prop
  | some o, lba => st.treePlace o lba
  | none, lba => lba < st.totalBlocks ∧ evicted.blockTypes lba ≠ .free ∧ ∀ o, ¬st.treePlace o lba

/-- A write of the phase: an object, and the runs that are written one behind the other. -/
structure Write where
  object : TreeObject
  sources : List ℕ
  width : ℕ
  start : ℕ

def Write.Target (w : Write) (lba : ℕ) : Prop := InRun w.start (w.sources.length * w.width) lba

/-- A write goes to blocks that no other object has, and no run stands across its start. -/
def WriteClear (totalBlocks : ℕ) (place : Option TreeObject → ℕ → Prop) (w : Write) : Prop :=
  (∀ lba, w.Target lba → lba < totalBlocks ∧ ∀ o ≠ some w.object, ¬place o lba) ∧
    ∀ n ∈ w.sources, n < w.start → n + w.width ≤ w.start

/-- Where the objects are after writes. -/
def placesAfter (writes : List Write) (place : Option TreeObject → ℕ → Prop) :
    Option TreeObject → ℕ → Prop :=
  writes.foldl (fun place w ↦ Function.update place (some w.object) w.Target) place

/-- Each write is clear when it is made. -/
def WritesClear (totalBlocks : ℕ) : List Write → (Option TreeObject → ℕ → Prop) → Prop
  | [], _ => True
  | w :: writes, place =>
    WriteClear totalBlocks place w ∧ WritesClear totalBlocks writes (placesAfter [w] place)

/-! ### The writes that are made -/

def listWrites (start dedupLba : ℕ) : List Write :=
  if dedupLba ≠ 0 ∧ dedupLba ≠ start then [⟨.list, [dedupLba], 1, start⟩] else []

def headerWrites : List TreeReloc → (cursor : ℕ) → List Write
  | [], _ => []
  | tr :: trees, cursor =>
    if tr.nodeLbas = [] then headerWrites trees cursor
    else if tr.hdrLba = cursor then headerWrites trees (cursor + 1)
    else ⟨.header tr.name, [tr.hdrLba], 1, cursor⟩ :: headerWrites trees (cursor + 1)

def nodeWrites : List TreeReloc → (cursor : ℕ) → List Write
  | [], _ => []
  | tr :: trees, cursor =>
    if tr.nodeLbas = [] then nodeWrites trees cursor
    else
      ⟨.nodes tr.name, tr.nodeLbas, tr.blocksPerNode, cursor⟩ ::
        nodeWrites trees (cursor + tr.size + compactTreeClump)

/-- The number of headers that get a place. -/
def headerCount (trees : List TreeReloc) : ℕ := (trees.filter fun tr ↦ tr.nodeLbas ≠ []).length

/-- All writes of the phase. -/
def plannedWrites (trees : List TreeReloc) (start : ℕ) (st : TreeState) : List Write :=
  listWrites start st.dedupLba ++ (headerWrites trees (start + (listWrites start st.dedupLba).length) ++
    nodeWrites trees (start + (listWrites start st.dedupLba).length + headerCount trees))

/-- A tree without the address of its header. -/
def TreeReloc.shape (tr : TreeReloc) : TreeName × List ℕ := (tr.name, tr.nodeLbas)

variable {cursor : ℕ}

theorem nodeWrites_congr {trees trees' : List TreeReloc}
    (hshape : trees'.map TreeReloc.shape = trees.map TreeReloc.shape) :
    nodeWrites trees' cursor = nodeWrites trees cursor := by
  induction trees generalizing trees' cursor with
  | nil =>
    obtain rfl := List.map_eq_nil_iff.mp hshape
    rfl
  | cons tr trees ih =>
    cases trees' with
    | nil => cases hshape
    | cons tr' trees' =>
      obtain ⟨name', hdr', nodes'⟩ := tr'
      obtain ⟨name, hdr, nodes⟩ := tr
      rw [List.map_cons, List.map_cons, List.cons.injEq, TreeReloc.shape, TreeReloc.shape,
        Prod.mk.injEq] at hshape
      obtain ⟨⟨rfl, rfl⟩, hrest⟩ := hshape
      rw [nodeWrites, nodeWrites, ih hrest, ih hrest]
      rfl

/-! ### Places after writes -/

variable {place : Option TreeObject → ℕ → Prop} {content : Option TreeObject → ℕ → DiskBlock}
  {st : TreeState} {totalBlocks : ℕ} {writes writes' : List Write}

theorem placesAfter_of_not_mem {o : Option TreeObject}
    (ho : ∀ w ∈ writes, o ≠ some w.object) : placesAfter writes place o = place o := by
  induction writes generalizing place with
  | nil => rfl
  | cons w writes ih =>
    have hrest : placesAfter (w :: writes) place o = _ :=
      ih fun w' hw' ↦ ho w' (List.mem_cons_of_mem _ hw')
    exact hrest.trans (update_of_ne (ho w List.mem_cons_self) _ _)

theorem placesAfter_self {w : Write} (place : Option TreeObject → ℕ → Prop) {lba : ℕ}
    (hlba : w.Target lba) : placesAfter [w] place (some w.object) lba := by
  have hplace : placesAfter [w] place (some w.object) = w.Target := update_self ..
  rwa [hplace]

theorem writesClear_append : WritesClear totalBlocks (writes ++ writes') place ↔
      WritesClear totalBlocks writes place ∧
        WritesClear totalBlocks writes' (placesAfter writes place) := by
  induction writes generalizing place with
  | nil => exact ⟨fun h ↦ ⟨trivial, h⟩, fun h ↦ h.2⟩
  | cons w writes ih =>
    rw [List.cons_append, WritesClear, WritesClear, ih, and_assoc]
    rfl

theorem object_of_headerWrites {trees : List TreeReloc} {w : Write}
    (hw : w ∈ headerWrites trees cursor) :
    ∃ tr ∈ trees, tr.nodeLbas ≠ [] ∧ w.object = .header tr.name := by
  induction trees generalizing cursor with
  | nil => cases hw
  | cons tr trees ih =>
    have hrest {cursor : ℕ} (hw : w ∈ headerWrites trees cursor) :
        ∃ tr' ∈ tr :: trees, tr'.nodeLbas ≠ [] ∧ w.object = .header tr'.name := by
      obtain ⟨tr', htr', hobject⟩ := ih hw
      exact ⟨tr', List.mem_cons_of_mem _ htr', hobject⟩
    rw [headerWrites] at hw
    split_ifs at hw with hnodes
    · exact hrest hw
    · exact hrest hw
    · rcases List.mem_cons.mp hw with rfl | hw
      · exact ⟨tr, List.mem_cons_self, hnodes, rfl⟩
      · exact hrest hw

/-! ### The list and the headers -/

section Headers

variable {start finish src dst : ℕ} {o : TreeObject} {block : DiskBlock}

/-- A block that is copied to a clear place. -/
theorem moveBlock_holds (hholds : Library.Places.Holds place content st.disk st.bitmap)
    (hsrc : place (some o) src) (hcontent : content (some o) = fun _ ↦ block)
    (hclear : WriteClear totalBlocks place ⟨o, [src], 1, dst⟩) (hne : src ≠ dst) :
    Library.Places.Holds (placesAfter [⟨o, [src], 1, dst⟩] place) content
      (st.moveBlock start finish src dst).disk (st.moveBlock start finish src dst).bitmap := by
  have htarget (a : ℕ) : (⟨o, [src], 1, dst⟩ : Write).Target a ↔ a = dst := by
    change dst ≤ a ∧ a < dst + 1 ↔ a = dst
    omega
  have hrun (a b : ℕ) : InRun b 1 a ↔ a = b := by
    change b ≤ a ∧ a < b + 1 ↔ a = b
    omega
  have hblock : st.disk src = block := by rw [hholds.holds _ _ hsrc, hcontent]
  have hmoved : Library.Places.Holds (placesAfter [⟨o, [src], 1, dst⟩] place)
      (update content (some o) fun _ ↦ block)
      (st.moveBlock start finish src dst).disk (st.moveBlock start finish src dst).bitmap := by
    refine hholds.move (fun o' ho' a ha ↦ (hclear.1 a ha).2 o' ho') ?_ ?_ ?_ ?_
    · intro a ha
      obtain rfl := (htarget a).mp ha
      have hcopy : copy src a 1 st.disk (a + 0) = st.disk (src + 0) := copy_in Nat.one_pos
      exact hcopy.trans hblock
    · intro a ha
      exact copy_out (mt (hrun a dst).mp (mt (htarget a).mpr ha))
    · intro a ha
      obtain rfl := (htarget a).mp ha
      unfold TreeState.moveBlock
      dsimp only
      split_ifs
      · rw [fill_out (mt (hrun a src).mp hne.symm), fill_in ((hrun a a).mpr rfl)]
      · exact fill_in ((hrun a a).mpr rfl)
    · intro a ha hplace
      have hdst : ¬InRun dst 1 a := mt (hrun a dst).mp (mt (htarget a).mpr ha)
      have hsource : ¬InRun src 1 a := by
        intro h
        rw [(hrun a src).mp h] at hplace
        exact hplace hsrc
      unfold TreeState.moveBlock
      dsimp only
      split_ifs
      · rw [fill_out hsource, fill_out hdst]
      · exact fill_out hdst
  rwa [← hcontent, Function.update_eq_self] at hmoved

/-- What the placing of the list and the headers leaves as it is. -/
structure SameNames (st st' : TreeState) : Prop where
  treeLbas : st'.treeLbas = st.treeLbas
  userIndexes : st'.userIndexes = st.userIndexes
  relocs : st'.relocs = st.relocs
  totalBlocks : st'.totalBlocks = st.totalBlocks

theorem SameNames.refl (st : TreeState) : SameNames st st := ⟨rfl, rfl, rfl, rfl⟩

theorem SameNames.trans {st' st'' : TreeState} (hfirst : SameNames st st')
    (hsecond : SameNames st' st'') : SameNames st st'' :=
  ⟨hsecond.treeLbas.trans hfirst.treeLbas, hsecond.userIndexes.trans hfirst.userIndexes,
    hsecond.relocs.trans hfirst.relocs, hsecond.totalBlocks.trans hfirst.totalBlocks⟩

/-- A clear target is not the superblock. -/
theorem WriteClear.ne_zero {w : Write} (hclear : WriteClear totalBlocks place w)
    (hzero : place none 0) {lba : ℕ} (hlba : w.Target lba) : lba ≠ 0 := by
  rintro rfl
  exact (hclear.1 0 hlba).2 none (by simp) hzero

theorem target_self (o : TreeObject) (src dst : ℕ) : (⟨o, [src], 1, dst⟩ : Write).Target dst :=
  ⟨le_rfl, Nat.lt_succ_self dst⟩

/-- The list is placed. -/
theorem placeTreeList_spec (hholds : Library.Places.Holds place content st.disk st.bitmap)
    (hlist : st.dedupLba ≠ 0 → place (some .list) st.dedupLba) (hzero : place none 0)
    (hcontent : content (some .list) = fun _ ↦ block)
    (hclear : WritesClear totalBlocks (listWrites start st.dedupLba) place) :
    (TreeState.placeTreeList start finish st).1 = start + (listWrites start st.dedupLba).length ∧
      SameNames st (TreeState.placeTreeList start finish st).2 ∧
      Library.Places.Holds (placesAfter (listWrites start st.dedupLba) place) content
        (TreeState.placeTreeList start finish st).2.disk
        (TreeState.placeTreeList start finish st).2.bitmap ∧
      ((TreeState.placeTreeList start finish st).2.dedupLba = 0 ↔ st.dedupLba = 0) ∧
      (st.dedupLba ≠ 0 → placesAfter (listWrites start st.dedupLba) place (some .list)
        (TreeState.placeTreeList start finish st).2.dedupLba) := by
  unfold listWrites at hclear ⊢
  unfold TreeState.placeTreeList
  by_cases hmove : st.dedupLba ≠ 0 ∧ st.dedupLba ≠ start
  · rw [if_pos hmove] at hclear
    rw [if_pos hmove, if_pos hmove]
    have hmoved : Library.Places.Holds _ content (st.moveBlock start finish st.dedupLba start).disk
        (st.moveBlock start finish st.dedupLba start).bitmap :=
      moveBlock_holds hholds (hlist hmove.1) hcontent hclear.1 hmove.2
    have hstart : start ≠ 0 := hclear.1.ne_zero hzero (target_self .list st.dedupLba start)
    refine ⟨rfl, ⟨rfl, rfl, rfl, rfl⟩, hmoved, iff_of_false hstart hmove.1, fun _ ↦ ?_⟩
    exact placesAfter_self place (target_self .list st.dedupLba start)
  · rw [if_neg hmove, if_neg hmove]
    exact ⟨rfl, SameNames.refl st, hholds, Iff.rfl, hlist⟩

/-- The headers are placed. Each is where the phase says, and no header goes to the old address of
one that comes later. -/
theorem placeHeaders_spec (start finish : ℕ) {trees : List TreeReloc} {cursor : ℕ}
    (hholds : Library.Places.Holds place content st.disk st.bitmap)
    (hnames : (trees.map TreeReloc.name).Nodup)
    (hheaders : ∀ tr ∈ trees, place (some (.header tr.name)) tr.hdrLba ∧
      ∃ block, content (some (.header tr.name)) = fun _ ↦ block)
    (hclear : WritesClear totalBlocks (headerWrites trees cursor) place) :
    ∃ trees' st', TreeState.placeHeaders start finish trees cursor st =
        (trees', cursor + headerCount trees, st') ∧
      SameNames st st' ∧ st'.dedupLba = st.dedupLba ∧
      Library.Places.Holds (placesAfter (headerWrites trees cursor) place) content st'.disk
        st'.bitmap ∧
      trees'.map TreeReloc.shape = trees.map TreeReloc.shape ∧
      (∀ tr ∈ trees', placesAfter (headerWrites trees cursor) place (some (.header tr.name))
        tr.hdrLba) ∧
      (∀ m ∈ (trees.map TreeReloc.hdrLba).zip trees', m.1 ≠ m.2.hdrLba → m.2.nodeLbas ≠ [] ∧
        TreeObject.header m.2.name ∈ (headerWrites trees cursor).map Write.object) ∧
      ((trees.map TreeReloc.hdrLba).zip trees').Pairwise fun m m' ↦ m.2.hdrLba ≠ m'.1 := by
  induction trees generalizing cursor st place with
  | nil =>
    exact ⟨[], st, rfl, SameNames.refl st, rfl, hholds, rfl, by simp, by simp, List.Pairwise.nil⟩
  | cons tr trees ih =>
    rw [List.map_cons, List.nodup_cons] at hnames
    obtain ⟨hfresh, hnames⟩ := hnames
    have hother (tr' : TreeReloc) (htr' : tr' ∈ trees) : tr'.name ≠ tr.name := by
      intro heq
      exact hfresh (heq ▸ List.mem_map_of_mem htr')
    have hobject (cursor : ℕ) (w : Write) (hw : w ∈ headerWrites trees cursor) :
        some (TreeObject.header tr.name) ≠ some w.object := by
      obtain ⟨tr', htr', -, hobject⟩ := object_of_headerWrites hw
      rw [hobject]
      intro heq
      rw [Option.some.injEq, TreeObject.header.injEq] at heq
      exact hother tr' htr' heq.symm
    have hheader := hheaders tr List.mem_cons_self
    have htail (tr' : TreeReloc) (htr' : tr' ∈ trees) := hheaders tr' (List.mem_cons_of_mem _ htr')
    -- What the rest of the trees gives, with this header at its new address.
    have hrest {place' : Option TreeObject → ℕ → Prop} {st₁ : TreeState} {cursor' hdrLba : ℕ}
        (hholds' : Library.Places.Holds place' content st₁.disk st₁.bitmap)
        (hnamesKept : SameNames st st₁) (hdedup : st₁.dedupLba = st.dedupLba)
        (hplace : place' (some (.header tr.name)) hdrLba)
        (hplaces : ∀ tr' ∈ trees, place' (some (.header tr'.name)) tr'.hdrLba)
        (hclear' : WritesClear totalBlocks (headerWrites trees cursor') place') :
        ∃ trees' st', TreeState.placeHeaders start finish trees cursor' st₁ =
            (trees', cursor' + headerCount trees, st') ∧
          SameNames st st' ∧ st'.dedupLba = st.dedupLba ∧
          Library.Places.Holds (placesAfter (headerWrites trees cursor') place') content st'.disk
            st'.bitmap ∧
          ({ tr with hdrLba := hdrLba } :: trees').map TreeReloc.shape =
            (tr :: trees).map TreeReloc.shape ∧
          (∀ tr' ∈ { tr with hdrLba := hdrLba } :: trees',
            placesAfter (headerWrites trees cursor') place' (some (.header tr'.name)) tr'.hdrLba) ∧
          (∀ m ∈ (trees.map TreeReloc.hdrLba).zip trees', m.1 ≠ m.2.hdrLba → m.2.nodeLbas ≠ [] ∧
            TreeObject.header m.2.name ∈ (headerWrites trees cursor').map Write.object) ∧
          (((tr :: trees).map TreeReloc.hdrLba).zip ({ tr with hdrLba := hdrLba } :: trees')).Pairwise
            fun m m' ↦ m.2.hdrLba ≠ m'.1 := by
      obtain ⟨trees', st', hrun, hnamesKept', hdedup', hholds'', hshape, hplaced, hmoved,
        hpairwise⟩ := ih hholds' hnames
          (fun tr' htr' ↦ ⟨hplaces tr' htr', (htail tr' htr').2⟩) hclear'
      refine ⟨trees', st', hrun, hnamesKept.trans hnamesKept', hdedup'.trans hdedup, hholds'', ?_, ?_,
        hmoved, ?_⟩
      · rw [List.map_cons, List.map_cons, hshape]
        rfl
      · intro tr' htr'
        rcases List.mem_cons.mp htr' with rfl | htr'
        · rw [placesAfter_of_not_mem (hobject cursor')]
          exact hplace
        · exact hplaced tr' htr'
      · rw [List.map_cons, List.zip_cons_cons, List.pairwise_cons]
        refine ⟨fun m hm heq ↦ ?_, hpairwise⟩
        obtain ⟨tr', htr', htr'Lba⟩ := List.mem_map.mp (List.of_mem_zip hm).1
        have hplace' := hplaces tr' htr'
        rw [htr'Lba, ← heq] at hplace'
        have hsame := hholds'.apart _ _ _ hplace' hplace
        rw [Option.some.injEq, TreeObject.header.injEq] at hsame
        exact hother tr' htr' hsame
    rw [headerWrites] at hclear ⊢
    rw [TreeState.placeHeaders]
    by_cases hnodes : tr.nodeLbas = []
    · rw [if_pos hnodes] at hclear
      rw [if_pos hnodes, if_pos hnodes]
      obtain ⟨trees', st', hrun, hnamesKept, hdedup, hholds', hshape, hplaced, hmoved, hpairwise⟩ :=
        hrest hholds (SameNames.refl st) rfl hheader.1 (fun tr' htr' ↦ (htail tr' htr').1) hclear
      have hcount : headerCount (tr :: trees) = headerCount trees := by simp [headerCount, hnodes]
      refine ⟨tr :: trees', st', by rw [hrun, hcount], hnamesKept, hdedup, hholds', hshape, hplaced,
        fun m hm hne ↦ ?_, hpairwise⟩
      rw [List.map_cons, List.zip_cons_cons, List.mem_cons] at hm
      rcases hm with rfl | hm
      · exact absurd rfl hne
      · exact hmoved m hm hne
    have hcount : cursor + headerCount (tr :: trees) = cursor + 1 + headerCount trees := by
      have hcons : headerCount (tr :: trees) = headerCount trees + 1 := by
        simp [headerCount, hnodes]
      omega
    rw [if_neg hnodes] at hclear
    rw [if_neg hnodes, if_neg hnodes]
    by_cases hcursor : tr.hdrLba = cursor
    · rw [if_pos hcursor] at hclear
      rw [if_pos hcursor, if_pos hcursor]
      obtain ⟨trees', st', hrun, hnamesKept, hdedup, hholds', hshape, hplaced, hmoved, hpairwise⟩ :=
        hrest hholds (SameNames.refl st) rfl hheader.1 (fun tr' htr' ↦ (htail tr' htr').1) hclear
      refine ⟨tr :: trees', st', by rw [hrun, hcount], hnamesKept, hdedup, hholds', hshape, hplaced,
        fun m hm hne ↦ ?_, hpairwise⟩
      rw [List.map_cons, List.zip_cons_cons, List.mem_cons] at hm
      rcases hm with rfl | hm
      · exact absurd rfl hne
      · exact hmoved m hm hne
    · rw [if_neg hcursor] at hclear
      rw [if_neg hcursor, if_neg hcursor]
      obtain ⟨block, hblock⟩ := hheader.2
      have hmove : Library.Places.Holds _ content (st.moveBlock start finish tr.hdrLba cursor).disk
          (st.moveBlock start finish tr.hdrLba cursor).bitmap :=
        moveBlock_holds hholds hheader.1 hblock hclear.1 hcursor
      have hplaces (tr' : TreeReloc) (htr' : tr' ∈ trees) :
          placesAfter [⟨.header tr.name, [tr.hdrLba], 1, cursor⟩] place
            (some (.header tr'.name)) tr'.hdrLba := by
        rw [placesAfter_of_not_mem]
        · exact (htail tr' htr').1
        · intro w hw heq
          rw [List.mem_singleton.mp hw, Option.some.injEq, TreeObject.header.injEq] at heq
          exact hother tr' htr' heq
      obtain ⟨trees', st', hrun, hnamesKept, hdedup, hholds', hshape, hplaced, hmoved, hpairwise⟩ :=
        hrest hmove ⟨rfl, rfl, rfl, rfl⟩ rfl
          (placesAfter_self place (target_self (.header tr.name) tr.hdrLba cursor)) hplaces hclear.2
      refine ⟨{ tr with hdrLba := cursor } :: trees', st', by rw [hrun, hcount], hnamesKept, hdedup,
        hholds', hshape, hplaced, fun m hm hne ↦ ?_, hpairwise⟩
      rw [List.map_cons, List.zip_cons_cons, List.mem_cons] at hm
      rw [List.map_cons, List.mem_cons]
      rcases hm with rfl | hm
      · exact ⟨hnodes, Or.inl rfl⟩
      · exact ⟨(hmoved m hm hne).1, Or.inr (hmoved m hm hne).2⟩

end Headers

/-! ### The nodes -/

section Nodes

variable {tr : TreeReloc} {dst : ℕ}

theorem blocksPerNode_pos (name : TreeName) : 0 < name.blocksPerNode := by
  cases name with
  | field field => cases field <;> decide
  | userIndex i => exact Nat.succ_pos 7
  | entry i => exact Nat.one_pos

theorem foldl_clear {leaves : ℕ → Bool} {width a : ℕ} (nodes : List ℕ) (bitmap : ℕ → Bool)
    (ha : ∀ n ∈ nodes, leaves n = true → ¬InRun n width a) :
    nodes.foldl (fun bitmap old ↦ if leaves old then fill old width false bitmap else bitmap) bitmap
      a = bitmap a := by
  induction nodes generalizing bitmap with
  | nil => rfl
  | cons n nodes ih =>
    rw [List.foldl_cons, ih _ fun n' hn' ↦ ha n' (List.mem_cons_of_mem _ hn')]
    split_ifs with hleaves
    · exact fill_out (ha n List.mem_cons_self hleaves)
    · rfl

/-- What the blocks of the nodes hold when they are written. -/
def renamedNodes (tr : TreeReloc) (dst : ℕ) (block : ℕ → DiskBlock) (lba : ℕ) : DiskBlock :=
  (block (tr.nodeLbas.getD ((lba - dst) / tr.blocksPerNode) 0 +
      (lba - dst) % tr.blocksPerNode)).rename (tr.mapLookup dst) ((lba - dst) % tr.blocksPerNode)

/-- The blocks that a block of the new range is read from. -/
theorem source_mem {lba : ℕ} (hlba : InRun dst tr.size lba) :
    NodeBlocks tr.blocksPerNode tr.nodeLbas (tr.nodeLbas.getD ((lba - dst) / tr.blocksPerNode) 0 +
      (lba - dst) % tr.blocksPerNode) := by
  obtain ⟨k, hk, rfl⟩ := hlba.exists_add
  rw [Nat.add_sub_cancel_left]
  have hpos : 0 < tr.blocksPerNode := blocksPerNode_pos tr.name
  have hi : k / tr.blocksPerNode < tr.nodeLbas.length :=
    Nat.div_lt_of_lt_mul (by rwa [Nat.mul_comm])
  refine ⟨_, ?_, inRun_add (Nat.mod_lt k hpos)⟩
  rw [List.getD_eq_getElem?_getD, List.getElem?_eq_getElem hi, Option.getD_some]
  exact List.getElem_mem hi

/-- The nodes of a tree are written to a clear range, and its header is updated. -/
theorem relocateTree_spec {root freeNode freeNodes : ℕ} {fields : List ℕ}
    (hholds : Library.Places.Holds place content st.disk st.bitmap)
    (hheader : place (some (.header tr.name)) tr.hdrLba)
    (hblock : (content (some (.header tr.name)) tr.hdrLba).content =
      .treeHeader root freeNode freeNodes fields)
    (hnodes : ∀ lba, NodeBlocks tr.blocksPerNode tr.nodeLbas lba → place (some (.nodes tr.name)) lba)
    (hclear : WriteClear totalBlocks place ⟨.nodes tr.name, tr.nodeLbas, tr.blocksPerNode, dst⟩)
    (hfree : tr.mapLookup dst freeNode < st.totalBlocks) :
    ∃ st', st.relocateTree tr dst = (st', true) ∧ SameNames st st' ∧ st'.dedupLba = st.dedupLba ∧
      Library.Places.Holds
        (placesAfter [⟨.nodes tr.name, tr.nodeLbas, tr.blocksPerNode, dst⟩] place)
        (update (update content (some (.nodes tr.name))
            (renamedNodes tr dst (content (some (.nodes tr.name))))) (some (.header tr.name))
          (fill tr.hdrLba 1 ⟨none, .treeHeader (tr.mapLookup dst root) (tr.mapLookup dst freeNode)
            freeNodes fields⟩ (content (some (.header tr.name))))) st'.disk st'.bitmap := by
  have hne : some (TreeObject.header tr.name) ≠ some (TreeObject.nodes tr.name) := by simp
  have hdisk (lba : ℕ) (hlba : InRun dst tr.size lba) : TreeState.writeNodes tr dst st.disk lba =
        renamedNodes tr dst (content (some (.nodes tr.name))) lba := by
    unfold TreeState.writeNodes renamedNodes
    rw [if_pos hlba]
    dsimp only
    rw [hholds.holds _ _ (hnodes _ (source_mem hlba))]
  have hmoved : Library.Places.Holds
      (placesAfter [⟨.nodes tr.name, tr.nodeLbas, tr.blocksPerNode, dst⟩] place)
      (update content (some (.nodes tr.name))
        (renamedNodes tr dst (content (some (.nodes tr.name)))))
      (TreeState.writeNodes tr dst st.disk)
      (TreeState.clearNodes tr dst (fill dst tr.size true st.bitmap)) := by
    refine hholds.move (fun o' ho' a ha ↦ (hclear.1 a ha).2 o' ho') hdisk
      (fun a ha ↦ if_neg ha) (fun a ha ↦ ?_) (fun a ha hplace ↦ ?_)
    · change InRun dst tr.size a at ha
      unfold TreeState.clearNodes
      rw [foldl_clear, fill_in ha]
      -- A node that leaves ends in front of the range, or starts behind it.
      intro n hn hleaves hin
      have hstraddle := hclear.2 n hn
      obtain ⟨hle, hlt⟩ := hin
      obtain ⟨hle', hlt'⟩ : dst ≤ a ∧ a < dst + tr.size := ha
      rcases of_decide_eq_true hleaves with hbefore | hbehind
      · have hend := hstraddle hbefore
        dsimp only at hend
        omega
      · omega
    · change ¬InRun dst tr.size a at ha
      unfold TreeState.clearNodes
      rw [foldl_clear, fill_out ha]
      exact fun n hn _ hin ↦ hplace (hnodes a ⟨n, hn, hin⟩)
  have hheaderMoved : placesAfter [⟨.nodes tr.name, tr.nodeLbas, tr.blocksPerNode, dst⟩] place
      (some (.header tr.name)) = place (some (.header tr.name)) := by
    refine placesAfter_of_not_mem fun w hw ↦ ?_
    rw [List.mem_singleton.mp hw]
    exact hne
  have hheaderBlock : (TreeState.writeNodes tr dst st.disk tr.hdrLba).content =
      .treeHeader root freeNode freeNodes fields := by
    rw [hmoved.holds (some (.header tr.name)) tr.hdrLba (by rwa [hheaderMoved]),
      update_of_ne hne, hblock]
  unfold TreeState.relocateTree
  simp only [hheaderBlock]
  refine ⟨_, rfl, ⟨rfl, rfl, rfl, rfl⟩, rfl, ?_⟩
  have hrenamed : TreeState.renamedHeader tr dst st.totalBlocks root freeNode freeNodes fields =
      .treeHeader (tr.mapLookup dst root) (tr.mapLookup dst freeNode) freeNodes fields := by
    unfold TreeState.renamedHeader
    rw [if_neg (Nat.not_le.mpr hfree)]
  dsimp only
  rw [hrenamed]
  refine hmoved.write (fun a ha ↦ ?_) (fun a ha ↦ fill_out fun hin ↦ ha ?_)
  · by_cases hin : InRun tr.hdrLba 1 a
    · rw [fill_in hin, fill_in hin]
    · rw [fill_out hin, fill_out hin, hmoved.holds _ _ ha, update_of_ne hne]
  · obtain rfl : a = tr.hdrLba := by
      obtain ⟨hle, hlt⟩ := hin
      omega
    rwa [hheaderMoved]

/-- Where a node goes. -/
theorem mapLookup_mem (dst : ℕ) {n : ℕ} (hn : n ∈ tr.nodeLbas) :
    ∃ i, ∃ hi : i < tr.nodeLbas.length, tr.nodeLbas[i] = n ∧
      tr.mapLookup dst n = dst + i * tr.blocksPerNode := by
  unfold TreeReloc.mapLookup
  cases hi : tr.nodeLbas.idxOf? n with
  | none => exact absurd hn (List.idxOf?_eq_none_iff.mp hi)
  | some i =>
    obtain ⟨hlt, heq, -⟩ := List.findIdx?_eq_some_iff_getElem.mp hi
    exact ⟨i, hlt, eq_of_beq heq, rfl⟩

theorem mapLookup_of_not_mem (dst : ℕ) {n : ℕ} (hn : n ∉ tr.nodeLbas) : tr.mapLookup dst n = n := by
  rw [TreeReloc.mapLookup, List.idxOf?_eq_none_iff.mpr hn]

/-- A block of a node goes to the new range, with the links renamed. -/
theorem renamedNodes_map {n b : ℕ} (hn : n ∈ tr.nodeLbas) (hb : b < tr.blocksPerNode)
    (block : ℕ → DiskBlock) :
    InRun dst tr.size (tr.mapLookup dst n + b) ∧
      renamedNodes tr dst block (tr.mapLookup dst n + b) =
        (block (n + b)).rename (tr.mapLookup dst) b := by
  obtain ⟨i, hi, rfl, hlookup⟩ := mapLookup_mem dst hn
  have hpos : 0 < tr.blocksPerNode := blocksPerNode_pos tr.name
  have hoffset : tr.mapLookup dst tr.nodeLbas[i] + b - dst = b + i * tr.blocksPerNode := by omega
  have hsize : (i + 1) * tr.blocksPerNode ≤ tr.size := Nat.mul_le_mul_right _ hi
  rw [Nat.add_mul, Nat.one_mul] at hsize
  refine ⟨⟨by omega, by omega⟩, ?_⟩
  rw [renamedNodes, hoffset, Nat.add_mul_div_right _ _ hpos, Nat.add_mul_mod_self_right,
    Nat.div_eq_of_lt hb, Nat.mod_eq_of_lt hb, Nat.zero_add, List.getD_eq_getElem?_getD,
    List.getElem?_eq_getElem hi, Option.getD_some]

/-- A tree that is there to be relocated: its header, and all blocks of its nodes. -/
structure Relocatable (place : Option TreeObject → ℕ → Prop)
    (content : Option TreeObject → ℕ → DiskBlock) (tr : TreeReloc)
    (root freeNode freeNodes : ℕ) (fields : List ℕ) : Prop where
  header : place (some (.header tr.name)) tr.hdrLba
  block : (content (some (.header tr.name)) tr.hdrLba).content =
    .treeHeader root freeNode freeNodes fields
  nodes : ∀ lba, NodeBlocks tr.blocksPerNode tr.nodeLbas lba → place (some (.nodes tr.name)) lba
  free : freeNode = 0 ∨ freeNode ∈ tr.nodeLbas
  ne_zero : 0 ∉ tr.nodeLbas

/-- A tree that has been relocated. -/
structure Relocated (content content' : Option TreeObject → ℕ → DiskBlock)
    (place' : Option TreeObject → ℕ → Prop) (tr : TreeReloc) (dst root freeNode freeNodes : ℕ)
    (fields : List ℕ) : Prop where
  header : place' (some (.header tr.name)) tr.hdrLba
  block : (content' (some (.header tr.name)) tr.hdrLba).content =
    .treeHeader (tr.mapLookup dst root) (tr.mapLookup dst freeNode) freeNodes fields
  nodes : ∀ n ∈ tr.nodeLbas, ∀ b < tr.blocksPerNode,
    place' (some (.nodes tr.name)) (tr.mapLookup dst n + b) ∧
      content' (some (.nodes tr.name)) (tr.mapLookup dst n + b) =
        (content (some (.nodes tr.name)) (n + b)).rename (tr.mapLookup dst) b
  ne_zero : ∀ n ∈ tr.nodeLbas, tr.mapLookup dst n ≠ 0

/-- The trees are relocated one after the other. -/
theorem relocateTrees_spec {trees : List TreeReloc} {cursor : ℕ}
    (hholds : Library.Places.Holds place content st.disk st.bitmap) (hzero : place none 0)
    (htotal : 0 < st.totalBlocks) (hnames : (trees.map TreeReloc.name).Nodup)
    (htrees : ∀ tr ∈ trees, tr.nodeLbas ≠ [] →
      ∃ root freeNode freeNodes fields, Relocatable place content tr root freeNode freeNodes fields)
    (hclear : WritesClear st.totalBlocks (nodeWrites trees cursor) place) :
    ∃ st' place' content', TreeState.relocateTrees trees cursor st = (st', true) ∧
      SameNames st st' ∧ st'.dedupLba = st.dedupLba ∧
      Library.Places.Holds place' content' st'.disk st'.bitmap ∧
      (∀ o, (∀ tr ∈ trees, tr.nodeLbas ≠ [] →
          o ≠ some (.header tr.name) ∧ o ≠ some (.nodes tr.name)) →
        place' o = place o ∧ content' o = content o) ∧
      ∀ tr ∈ trees, tr.nodeLbas ≠ [] → ∀ root freeNode freeNodes fields,
        Relocatable place content tr root freeNode freeNodes fields →
        ∃ dst, Relocated content content' place' tr dst root freeNode freeNodes fields := by
  induction trees generalizing cursor st place content with
  | nil =>
    exact ⟨st, place, content, rfl, SameNames.refl st, rfl, hholds, fun _ _ ↦ ⟨rfl, rfl⟩, by simp⟩
  | cons tr trees ih =>
    rw [List.map_cons, List.nodup_cons] at hnames
    obtain ⟨hfresh, hnames⟩ := hnames
    have hother (tr' : TreeReloc) (htr' : tr' ∈ trees) : tr'.name ≠ tr.name := by
      intro heq
      exact hfresh (heq ▸ List.mem_map_of_mem htr')
    rw [nodeWrites] at hclear
    rw [TreeState.relocateTrees]
    by_cases hnodes : tr.nodeLbas = []
    · rw [if_pos hnodes] at hclear ⊢
      obtain ⟨st', place', content', hrun, hsame, hdedup, hholds', hkept, hmoved⟩ :=
        ih hholds hzero htotal hnames (fun tr' htr' ↦ htrees tr' (List.mem_cons_of_mem _ htr'))
          hclear
      refine ⟨st', place', content', hrun, hsame, hdedup, hholds', fun o ho ↦ ?_, fun tr' htr' ↦ ?_⟩
      · exact hkept o fun tr' htr' ↦ ho tr' (List.mem_cons_of_mem _ htr')
      · rcases List.mem_cons.mp htr' with rfl | htr'
        · exact fun hne ↦ absurd hnodes hne
        · exact hmoved tr' htr'
    rw [if_neg hnodes] at hclear ⊢
    obtain ⟨root, freeNode, freeNodes, fields, htree⟩ := htrees tr List.mem_cons_self hnodes
    have htarget {n b : ℕ} (hn : n ∈ tr.nodeLbas) (hb : b < tr.blocksPerNode) :
        (⟨.nodes tr.name, tr.nodeLbas, tr.blocksPerNode, cursor⟩ : Write).Target
          (tr.mapLookup cursor n + b) :=
      (renamedNodes_map hn hb st.disk).1
    have hpos : 0 < tr.blocksPerNode := blocksPerNode_pos tr.name
    have hlookupZero : tr.mapLookup cursor 0 = 0 := mapLookup_of_not_mem cursor htree.ne_zero
    have hfree : tr.mapLookup cursor freeNode < st.totalBlocks := by
      rcases htree.free with rfl | hfree
      · rwa [hlookupZero]
      · exact (hclear.1.1 _ (htarget hfree hpos)).1
    obtain ⟨st₁, hrelocate, hsame₁, hdedup₁, hholds₁⟩ :=
      relocateTree_spec hholds htree.header htree.block htree.nodes hclear.1 hfree
    rw [hrelocate]
    dsimp only
    rw [if_pos rfl]
    generalize hcontent₁ : update (update content _ _) _ _ = content₁ at hholds₁
    have hplace₁ {o : Option TreeObject} (ho : o ≠ some (.nodes tr.name)) :
        placesAfter [⟨.nodes tr.name, tr.nodeLbas, tr.blocksPerNode, cursor⟩] place o = place o := by
      refine placesAfter_of_not_mem fun w hw ↦ ?_
      rwa [List.mem_singleton.mp hw]
    have hkept₁ {o : Option TreeObject} (hheader : o ≠ some (.header tr.name))
        (ho : o ≠ some (.nodes tr.name)) : content₁ o = content o := by
      rw [← hcontent₁, update_of_ne hheader, update_of_ne ho]
    have hobjects (tr' : TreeReloc) (htr' : tr' ∈ trees) :
        some (TreeObject.header tr'.name) ≠ some (.header tr.name) ∧
          some (TreeObject.nodes tr'.name) ≠ some (.nodes tr.name) := by
      have hne := hother tr' htr'
      simp [hne]
    have hrelocatable {tr' : TreeReloc} (htr' : tr' ∈ trees) {root freeNode freeNodes : ℕ}
        {fields : List ℕ} (htree' : Relocatable place content tr' root freeNode freeNodes fields) :
        Relocatable (placesAfter [⟨.nodes tr.name, tr.nodeLbas, tr.blocksPerNode, cursor⟩] place)
          content₁ tr' root freeNode freeNodes fields := by
      obtain ⟨hheader, hnodes'⟩ := hobjects tr' htr'
      refine ⟨?_, ?_, fun lba hlba ↦ ?_, htree'.free, htree'.ne_zero⟩
      · rw [hplace₁ (by simp)]
        exact htree'.header
      · rw [hkept₁ hheader (by simp)]
        exact htree'.block
      · rw [hplace₁ hnodes']
        exact htree'.nodes lba hlba
    have hzero₁ : placesAfter [⟨.nodes tr.name, tr.nodeLbas, tr.blocksPerNode, cursor⟩] place none
        0 := by
      rw [hplace₁ (by simp)]
      exact hzero
    obtain ⟨st', place', content', hrun, hsame, hdedup, hholds', hkept, hmoved⟩ :=
      ih hholds₁ hzero₁ (hsame₁.totalBlocks.symm ▸ htotal) hnames
        (fun tr' htr' hne ↦ by
          obtain ⟨root', freeNode', freeNodes', fields', htree'⟩ :=
            htrees tr' (List.mem_cons_of_mem _ htr') hne
          exact ⟨root', freeNode', freeNodes', fields', hrelocatable htr' htree'⟩)
        (hsame₁.totalBlocks.symm ▸ hclear.2)
    have hhead {o : Option TreeObject}
        (ho : o = some (.header tr.name) ∨ o = some (.nodes tr.name)) :
        place' o = placesAfter [⟨.nodes tr.name, tr.nodeLbas, tr.blocksPerNode, cursor⟩] place o ∧
          content' o = content₁ o := by
      refine hkept o fun tr' htr' _ ↦ ?_
      obtain ⟨hheader, hnodes'⟩ := hobjects tr' htr'
      rcases ho with rfl | rfl
      · exact ⟨hheader.symm, by simp⟩
      · exact ⟨by simp, hnodes'.symm⟩
    refine ⟨st', place', content', hrun, hsame₁.trans hsame, hdedup.trans hdedup₁, hholds',
      fun o ho ↦ ?_, fun tr' htr' ↦ ?_⟩
    · obtain ⟨hheader, hnodes'⟩ := ho tr List.mem_cons_self hnodes
      obtain ⟨hplace', hcontent'⟩ := hkept o fun tr' htr' ↦ ho tr' (List.mem_cons_of_mem _ htr')
      exact ⟨hplace'.trans (hplace₁ hnodes'), hcontent'.trans (hkept₁ hheader hnodes')⟩
    · rcases List.mem_cons.mp htr' with rfl | htr'
      · intro _ root' freeNode' freeNodes' fields' htree'
        have hblock := htree'.block
        rw [htree.block, Content.treeHeader.injEq] at hblock
        obtain ⟨rfl, rfl, rfl, rfl⟩ := hblock
        obtain ⟨hplaceHeader, hcontentHeader⟩ := hhead (Or.inl rfl)
        obtain ⟨hplaceNodes, hcontentNodes⟩ := hhead (Or.inr rfl)
        refine ⟨cursor, ?_, ?_, fun n hn b hb ↦ ?_, fun n hn ↦ ?_⟩
        · rw [hplaceHeader, hplace₁ (by simp)]
          exact htree.header
        · rw [hcontentHeader, ← hcontent₁, update_self, fill_in ⟨le_rfl, Nat.lt_succ_self _⟩]
        · rw [hplaceNodes, hcontentNodes, ← hcontent₁, update_of_ne (by simp), update_self]
          exact ⟨placesAfter_self place (htarget hn hb), (renamedNodes_map hn hb _).2⟩
        · exact hclear.1.ne_zero hzero (htarget hn hpos)
      · intro hne root' freeNode' freeNodes' fields' htree'
        obtain ⟨dst, hrelocated⟩ :=
          hmoved tr' htr' hne root' freeNode' freeNodes' fields' (hrelocatable htr' htree')
        refine ⟨dst, hrelocated.header, hrelocated.block, fun n hn b hb ↦ ?_, hrelocated.ne_zero⟩
        obtain ⟨hplace', hcontent'⟩ := hrelocated.nodes n hn b hb
        rw [hkept₁ (by simp) (hobjects tr' htr').2] at hcontent'
        exact ⟨hplace', hcontent'⟩

end Nodes

end Obmafs3.Defrag
