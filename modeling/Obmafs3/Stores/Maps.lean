import Obmafs3.Stores.Calls

/-!
# The stores are maps

Every store keeps an invariant: its tree is in order and stands for the map of what was put and not
deleted since. A careful call keeps it and answers as the map does, one store after the other here,
and `stores_are_maps` says it of whole runs.
-/

set_option autoImplicit false

namespace Obmafs3

open Library.Search Library.SearchTree
open Function (update update_of_ne update_self)

/-! ### Trees that stand for maps -/

section Trees

variable {κ ρ : Type} [LinearOrder κ] {order : ρ → κ} {tree : Root ℕ κ ρ} {m : κ → Option ρ}

theorem searchTree_of_stands (hstands : tree.Stands order m) (k : κ) :
    searchTree order k tree = present (m k) := by
  rw [searchTree, if_pos (hstands.ordered.leads k), hstands.lookup_eq]
  cases m k <;> rfl

theorem DropFits.delete {depth : ℕ} {k : κ} (hfits : DropFits order depth k tree)
    (hstands : tree.Stands order m) {m' : κ → Option ρ} (hself : m' k = none)
    (hother : ∀ x, x ≠ k → m' x = m x) :
    (tree.delete order k).1.Stands order m' ∧ (tree.delete order k).2 = (m k).isSome := by
  have hlookup := hstands.lookup_eq k
  cases hm : m k with
  | none =>
    have hsame : m' = m := by
      funext x
      by_cases hx : x = k
      · rw [hx, hself, hm]
      · exact hother x hx
    rw [hm] at hlookup
    rw [Root.delete_absent hlookup, hsame]
    exact ⟨hstands, rfl⟩
  | some r =>
    have hfound : tree.lookup order k ≠ none := by simp [hlookup, hm]
    exact ⟨hstands.delete (hfits.unstranded hfound) hself hother, Root.delete_found hfound⟩

/-- A scan for one owner lists what the owner has. -/
theorem lists_of_stands {ι : Type} [LinearOrder ι] {tree : Root ℕ (ℕ ×ₗ ι) ρ}
    {m : ℕ ×ₗ ι → Option ρ} (owner : ρ → ℕ) (rest : ρ → ι)
    (hstands : tree.Stands (fun r ↦ toLex (owner r, rest r)) m) {bottom : ι}
    (hbottom : ∀ x, bottom ≤ x) (i : ℕ) :
    ListsLive (fun k ↦ m (toLex (i, k))) ((scan (fun r ↦ owner r < i) (fun r ↦ i < owner r)
        (tree.recordsFrom (indexFind · (toLex (i, bottom))))).map rest) := by
  have hbefore : ∀ r : ρ, toLex (owner r, rest r) < toLex (i, bottom) →
      decide (owner r < i) = true := by
    intro r hlt
    rcases Prod.Lex.lt_iff.mp hlt with h | ⟨-, h⟩
    · exact decide_eq_true h
    · exact absurd h (not_lt.mpr (hbottom _))
  have hafter : ∀ r q : ρ, toLex (owner r, rest r) < toLex (owner q, rest q) →
      decide (i < owner r) = true → decide (i < owner q) = true := by
    intro r q hlt hr
    have hle : owner r ≤ owner q := Prod.Lex.monotone_fst _ _ hlt.le
    simp only [decide_eq_true_eq] at hr ⊢
    exact hr.trans_le hle
  obtain ⟨hsorted, hmem⟩ := hstands.scan hbefore hafter
  generalize scan (fun r ↦ decide (owner r < i)) (fun r ↦ decide (i < owner r))
    (tree.recordsFrom (indexFind · (toLex (i, bottom)))) = found at hsorted hmem
  have howner : ∀ r, r ∈ found ↔ m (toLex (owner r, rest r)) = some r ∧ owner r = i := by
    intro r
    rw [hmem]
    refine and_congr_right fun _ ↦ ?_
    simp only [decide_eq_false_iff_not]
    omega
  refine ⟨List.pairwise_map.mpr ?_, fun k ↦ ?_⟩
  · refine (List.pairwise_map.mp hsorted).imp_of_mem fun {r q} hr hq hlt ↦ ?_
    rcases Prod.Lex.lt_iff.mp hlt with h | ⟨-, h⟩
    · have hsame := ((howner r).mp hr).2.trans ((howner q).mp hq).2.symm
      exact absurd h (hsame ▸ lt_irrefl _)
    · exact h
  · rw [List.mem_map]
    constructor
    · rintro ⟨r, hr, rfl⟩
      obtain ⟨hm, rfl⟩ := (howner r).mp hr
      change m (toLex (owner r, rest r)) ≠ none
      rw [hm]
      exact Option.some_ne_none r
    · intro hlive
      obtain ⟨r, hr⟩ := Option.ne_none_iff_exists'.mp hlive
      have hkey : toLex (owner r, rest r) = toLex (i, k) := hstands.key_eq hr
      obtain ⟨hi, hk⟩ := Prod.mk.inj (toLex_inj.mp hkey)
      exact ⟨r, (howner r).mpr ⟨by rw [hkey]; exact hr, hi⟩, hk⟩

end Trees

namespace Contents

section Assign

variable {ι κ β : Type} [DecidableEq ι] [DecidableEq κ] (m : ι → κ → Option β) (i : ι) (k : κ)
  (x : Option β)

@[simp] theorem assign_self : assign m i k x i k = x := by simp [assign]

variable {m i k x}

theorem assign_eq_self (hx : m i k = x) : assign m i k x = m := by
  rw [assign, ← hx, Function.update_eq_self, Function.update_eq_self]

theorem assign_other {i' : ι} {k' : κ} (hne : ¬(i' = i ∧ k' = k)) :
    assign m i k x i' k' = m i' k' := by
  unfold assign
  by_cases hi : i' = i
  · subst hi
    rw [update_self, update_of_ne fun hk ↦ hne ⟨rfl, hk⟩]
  · rw [update_of_ne hi]

end Assign

end Contents

/-! ### CD hash trees -/

/-- The records of a map of parts. -/
def cdRecords (c : ℕ → Option (List UInt8)) (hash : ℕ) : Option CdHashRecord :=
  (c hash).map (CdHashRecord.mk hash)

/-- A tree of parts that stands for a map. -/
structure CdTree.Holds (t : CdTree) (c : ℕ → Option (List UInt8)) : Prop where
  lba_ne : t.lba ≠ 0
  stands : t.tree.Stands CdHashRecord.hash (cdRecords c)

section Cd

variable {t : CdTree} {c c' : ℕ → Option (List UInt8)} {hash : ℕ} {data : List UInt8}
  {blockSize recordSize : ℕ} {fresh : ℕ → Option ℕ}

theorem CdTree.Holds.get (hholds : t.Holds c) (hash : ℕ) : cdGet hash t = present (c hash) := by
  rw [cdGet, if_neg hholds.lba_ne, searchTree_of_stands hholds.stands, cdRecords]
  cases c hash <;> rfl

theorem cdRecords_other (hother : ∀ h, h ≠ hash → c' h = c h) (h : ℕ) (hne : h ≠ hash) :
    cdRecords c' h = cdRecords c h := by
  rw [cdRecords, cdRecords, hother h hne]

theorem CdTree.Holds.put (hholds : t.Holds c) (hrecord : 1 ≤ maxKeys blockSize recordSize)
    (hentry : 1 ≤ maxKeys blockSize btreeIndexEntrySize)
    (hfits : PutFits CdHashRecord.hash cdHashBtreeMaxDepth (maxKeys blockSize recordSize)
      (maxKeys blockSize btreeIndexEntrySize) fresh ⟨hash, data⟩ t.tree)
    (hself : c' hash = some data) (hother : ∀ h, h ≠ hash → c' h = c h) :
    ∃ t', cdPut blockSize recordSize fresh hash data t = (none, t') ∧ t'.Holds c' := by
  have hstands := hholds.stands
  have hdone := Root.put_granted hstands.ordered.solid hfits.granted
  have hafter : (t.tree.put CdHashRecord.hash (maxKeys blockSize recordSize)
      (maxKeys blockSize btreeIndexEntrySize) fresh ⟨hash, data⟩).1.Stands CdHashRecord.hash
        (cdRecords c') :=
    hstands.put hrecord hentry hfits.safe hdone (by rw [cdRecords, hself]; rfl)
      (cdRecords_other hother)
  rcases hput : t.tree.put CdHashRecord.hash (maxKeys blockSize recordSize)
    (maxKeys blockSize btreeIndexEntrySize) fresh ⟨hash, data⟩ with ⟨tree, done⟩
  rw [hput] at hdone hafter
  obtain rfl : done = true := hdone
  refine ⟨{ t with tree }, ?_, hholds.lba_ne, hafter⟩
  rw [cdPut, if_neg (not_or.mpr ⟨hholds.lba_ne, Nat.not_lt.mpr hfits.depth⟩),
    if_neg (by simp [hstands.ordered.leads]), hput]

theorem CdTree.Holds.delete (hholds : t.Holds c)
    (hfits : DropFits CdHashRecord.hash cdHashBtreeMaxDepth hash t.tree) (hself : c' hash = none)
    (hother : ∀ h, h ≠ hash → c' h = c h) :
    ∃ t', cdDelete hash t = (Contents.deleted (c hash), t') ∧ t'.Holds c' := by
  have hstands := hholds.stands
  obtain ⟨hafter, hfound⟩ := hfits.delete hstands (show cdRecords c' hash = none by
    rw [cdRecords, hself]; rfl) (cdRecords_other hother)
  rcases hdelete : t.tree.delete CdHashRecord.hash hash with ⟨tree, found⟩
  rw [hdelete] at hafter hfound
  obtain rfl : found = (c hash).isSome := by simpa [cdRecords] using hfound
  refine ⟨{ t with tree }, ?_, hholds.lba_ne, hafter⟩
  rw [cdDelete, if_neg hholds.lba_ne, if_neg (Nat.not_lt.mpr hfits.depth),
    if_neg (by simp [hstands.ordered.leads]), hdelete]
  cases c hash <;> rfl

end Cd

/-! ### Metadata -/

/-- The records of the values of a map. -/
def metadataRecords (c : ℕ → Text → Option Text) (k : MetaKey) : Option MetadataRecord :=
  (c (ofLex k).1 (ofLex k).2).map (MetadataRecord.mk (ofLex k).1 (ofLex k).2)

/-- Metadata that stands for a map. The reverse index is in order, so that it takes new records. -/
structure MetadataStore.Holds (s : MetadataStore) (c : ℕ → Text → Option Text) : Prop where
  size : FormattedSize s.blockSize
  midxOrdered : s.midxTree.Ordered MetadataIdxRecord.order
  stands : s.metaTree.Stands MetadataRecord.order (metadataRecords c)

section Metadata

variable {s : MetadataStore} {c c' : ℕ → Text → Option Text} {inodeId : ℕ} {key value : Text}
  {grants : PutGrants}

theorem metadataRecords_other {x : Option Text} (k : MetaKey) (hne : k ≠ toLex (inodeId, key)) :
    metadataRecords (Contents.assign c inodeId key x) k = metadataRecords c k := by
  rw [metadataRecords, metadataRecords, Contents.assign_other]
  rintro ⟨rfl, rfl⟩
  exact hne rfl

theorem MetadataStore.Holds.get (hholds : s.Holds c) (inodeId : ℕ) (key : Text) :
    metadataGet inodeId key s = present (c inodeId key) := by
  rw [metadataGet, searchTree_of_stands hholds.stands, metadataRecords, ofLex_toLex]
  cases c inodeId key <;> rfl

theorem MetadataStore.Holds.list (hholds : s.Holds c) (inodeId : ℕ) :
    metadataKeys inodeId s = .ok (metadataList inodeId s) ∧
      ListsLive (c inodeId) (metadataList inodeId s) := by
  refine ⟨if_pos (hholds.stands.ordered.leads _), ?_⟩
  obtain ⟨hsorted, hmem⟩ := lists_of_stands MetadataRecord.inodeId MetadataRecord.key hholds.stands
    (fun x ↦ not_lt.mp (List.not_lt_nil x)) inodeId
  exact ⟨hsorted, fun k ↦ (hmem k).trans (not_congr Option.map_eq_none_iff)⟩

/-- The reverse index stays in order when it loses a record, whatever becomes of the record. -/
theorem midx_ordered (hordered : s.midxTree.Ordered MetadataIdxRecord.order) {r : MetadataIdxRecord}
    (hlets : IndexLets r s) : (midxTreeDelete r s.midxTree).2.Ordered MetadataIdxRecord.order := by
  rcases Nat.lt_or_ge metadataBtreeMaxDepth s.midxTree.height with hdeep | hle
  · rwa [midxTreeDelete, IndexKind.delete, if_pos hdeep]
  · exact (IndexKind.Drops.delete ⟨hle, hlets hle⟩ hordered).1

theorem withoutOld_metaTree (inodeId : ℕ) (key : Text) (s : MetadataStore) :
    (withoutOld inodeId key s).metaTree = s.metaTree ∧
      (withoutOld inodeId key s).blockSize = s.blockSize := by
  unfold withoutOld
  cases metaTreeLookup s.metaTree inodeId key <;> exact ⟨rfl, rfl⟩

theorem withoutOld_ordered (hordered : s.midxTree.Ordered MetadataIdxRecord.order)
    (hold : ∀ old, metaTreeLookup s.metaTree inodeId key = some old → IndexLets old.idx s) :
    (withoutOld inodeId key s).midxTree.Ordered MetadataIdxRecord.order := by
  unfold withoutOld
  cases hfound : metaTreeLookup s.metaTree inodeId key with
  | none => exact hordered
  | some old => exact midx_ordered hordered (hold old hfound)

theorem MetadataStore.Holds.put (hholds : s.Holds c)
    (hargs : ¬(key = [] ∨ 255 < key.length ∨ 1024 < value.length))
    (hfits : MetadataPutFits ⟨inodeId, key, value⟩ grants s) :
    ∃ s', metadataPut inodeId key value grants s = (none, s') ∧
      s'.Holds (Contents.assign c inodeId key (some value)) := by
  obtain ⟨hsame, hsize⟩ := withoutOld_metaTree inodeId key s
  have hordered := withoutOld_ordered hholds.midxOrdered hfits.old
  obtain ⟨midx, hmidxPut, hmidx, -⟩ := hfits.entry.put midxKind_roomy hholds.size hordered
  obtain ⟨hleafMax, hindexMax⟩ := metaKind_roomy s.blockSize hholds.size
  have hdone := Root.put_granted hholds.stands.ordered.solid hfits.record.granted
  have hafter : (s.metaTree.put metaKind.order (metaKind.leafMaxKeys s.blockSize)
      (metaKind.indexMaxKeys s.blockSize) grants.forMeta ⟨inodeId, key, value⟩).1.Stands
        MetadataRecord.order (metadataRecords (Contents.assign c inodeId key (some value))) :=
    hholds.stands.put hleafMax hindexMax hfits.record.safe hdone
      (by simp [metadataRecords, MetadataRecord.order]) metadataRecords_other
  rcases hput : s.metaTree.put metaKind.order (metaKind.leafMaxKeys s.blockSize)
    (metaKind.indexMaxKeys s.blockSize) grants.forMeta ⟨inodeId, key, value⟩ with ⟨tree, done⟩
  rw [hput] at hdone hafter
  obtain rfl : done = true := hdone
  have hmetaPut : metaTreePut s.blockSize grants.forMeta ⟨inodeId, key, value⟩ s.metaTree =
      (none, tree) := by
    rw [metaTreePut, IndexKind.put, if_neg (Nat.not_lt.mpr hfits.record.depth), hput]
  have hmidxPut' : midxTreePut s.blockSize grants.forMidx (MetadataRecord.idx ⟨inodeId, key, value⟩)
      (withoutOld inodeId key s).midxTree = (none, midx) := hmidxPut
  have hrun : metadataPut inodeId key value grants s = (none,
        { withoutOld inodeId key s with
          metaTree := tree
          midxTree := midx
          numTree := (withoutOld inodeId key s).numTree.map
            (numidxNote s.blockSize grants.forNumeric ⟨key, value, inodeId⟩)
          userIndexes := onUserIndex key
            (numidxNote s.blockSize grants.forUser ⟨key, value, inodeId⟩)
            (withoutOld inodeId key s).userIndexes }) := by
    rw [metadataPut, if_neg hargs]
    cases hfound : metaTreeLookup s.metaTree inodeId key with
    | none =>
      have hwithout : withoutOld inodeId key s = s := by rw [withoutOld, hfound]
      rw [hwithout] at hmidxPut' ⊢
      simp only [hmetaPut, hmidxPut']
      rfl
    | some old =>
      have hwithout : withoutOld inodeId key s = forgetIndexed old.idx s := by
        rw [withoutOld, hfound]
      rw [hwithout] at hmidxPut' ⊢
      have hmetaPut' : metaTreePut (forgetIndexed old.idx s).blockSize grants.forMeta
          ⟨inodeId, key, value⟩ (forgetIndexed old.idx s).metaTree = (none, tree) := hmetaPut
      have hmidxPut'' : midxTreePut (forgetIndexed old.idx s).blockSize grants.forMidx
          (MetadataRecord.idx ⟨inodeId, key, value⟩) (forgetIndexed old.idx s).midxTree =
            (none, midx) := hmidxPut'
      simp only [hmetaPut', hmidxPut'']
      rfl
  exact ⟨_, hrun, hsize ▸ hholds.size, hmidx, hafter⟩

theorem MetadataStore.Holds.delete (hholds : s.Holds c) (hfits : MetadataDeleteFits inodeId key s) :
    ∃ s', metadataDelete inodeId key s = (Contents.deleted (c inodeId key), s') ∧
      s'.Holds (Contents.assign c inodeId key none) := by
  have hlookup : metaTreeLookup s.metaTree inodeId key =
      (c inodeId key).map (MetadataRecord.mk inodeId key) :=
    hholds.stands.lookup_eq (toLex (inodeId, key))
  unfold metadataDelete
  cases hc : c inodeId key with
  | none =>
    rw [hc] at hlookup
    rw [hlookup, Contents.assign_eq_self hc]
    exact ⟨s, rfl, hholds⟩
  | some value =>
    rw [hc] at hlookup
    obtain ⟨hdrops, hlets⟩ := hfits _ hlookup
    have hstatus := hdrops.found (Option.ne_none_iff_exists'.mpr ⟨_, hlookup⟩)
    have hafter : (s.metaTree.delete metaKind.order (toLex (inodeId, key))).1.Stands
        MetadataRecord.order (metadataRecords (Contents.assign c inodeId key none)) :=
      hholds.stands.delete hdrops.unstranded (by simp [metadataRecords]) metadataRecords_other
    have htree : (metaTreeDelete inodeId key s.metaTree).2 =
        (s.metaTree.delete metaKind.order (toLex (inodeId, key))).1 := by
      rw [metaTreeDelete, IndexKind.delete, if_neg (Nat.not_lt.mpr hdrops.depth)]
      rcases s.metaTree.delete metaKind.order (toLex (inodeId, key)) with ⟨tree, found⟩
      cases found <;> rfl
    rcases hrun : metaTreeDelete inodeId key s.metaTree with ⟨status, tree⟩
    obtain rfl : status = none := by
      have hrun' : (metaTreeDelete inodeId key s.metaTree).1 = none := hstatus
      rwa [hrun] at hrun'
    rw [hrun] at htree
    obtain rfl : tree = _ := htree
    simp only [hlookup, Option.map_some]
    exact ⟨_, rfl, hholds.size, midx_ordered hholds.midxOrdered hlets, hafter⟩

/-- The list of an inode has at most as many keys as the tree has records. -/
theorem length_metadataList_le (inodeId : ℕ) (s : MetadataStore) :
    (metadataList inodeId s).length ≤ s.metaTree.records.length := by
  rw [metadataList, List.length_map]
  exact ((scan_sublist _ _ _).trans (Root.recordsFrom_suffix _ _).sublist).length_le

/-- The list of the keys that are left is shorter by one at least. -/
theorem ListsLive.length_lt {κ β : Type} [LinearOrder κ] {m m' : κ → Option β} {keys keys' : List κ}
    (hlive : ListsLive m keys) (hlive' : ListsLive m' keys') {k : κ} (hk : m k ≠ none)
    (hself : m' k = none) (hother : ∀ x, x ≠ k → m' x = m x) : keys'.length < keys.length := by
  have hnot : k ∉ keys' := fun h ↦ (hlive'.2 k).mp h hself
  have hnodup : (k :: keys').Nodup := List.nodup_cons.mpr ⟨hnot, hlive'.1.imp fun h ↦ h.ne⟩
  have hsub : k :: keys' ⊆ keys := by
    refine List.cons_subset.mpr ⟨(hlive.2 k).mpr hk, fun x hx ↦ (hlive.2 x).mpr ?_⟩
    have hne : x ≠ k := fun h ↦ hnot (h ▸ hx)
    exact hother x hne ▸ (hlive'.2 x).mp hx
  exact (List.subperm_of_subset hnodup hsub).length_le

theorem MetadataStore.Holds.rounds {fuel : ℕ} (hholds : s.Holds c)
    (hfits : MetadataRoundsFit inodeId fuel s) (hfuel : (metadataList inodeId s).length < fuel) :
    ∃ s', deleteRounds inodeId fuel s = (none, s') ∧ s'.Holds (update c inodeId fun _ ↦ none) := by
  induction fuel generalizing s c with
  | zero => exact absurd hfuel (Nat.not_lt_zero _)
  | succ fuel ih =>
    obtain ⟨-, hlive⟩ := hholds.list inodeId
    rw [deleteRounds]
    rw [MetadataRoundsFit] at hfits
    cases hlist : metadataList inodeId s with
    | nil =>
      rw [hlist] at hlive
      have hnone : c inodeId = fun _ ↦ none := by
        funext k
        by_contra hk
        exact List.not_mem_nil ((hlive.2 k).mpr hk)
      rw [← hnone, Function.update_eq_self]
      exact ⟨s, rfl, hholds⟩
    | cons key keys =>
      simp only [hlist] at hfits ⊢
      have hkey : c inodeId key ≠ none := (hlive.2 key).mp (hlist ▸ List.mem_cons_self)
      obtain ⟨value, hvalue⟩ := Option.ne_none_iff_exists'.mp hkey
      obtain ⟨s₁, hrun, hholds₁⟩ := hholds.delete hfits.1
      rw [hvalue] at hrun
      have hrest := hfits.2
      rw [hrun] at hrest
      obtain ⟨-, hlive₁⟩ := hholds₁.list inodeId
      have hshorter : (metadataList inodeId s₁).length < (metadataList inodeId s).length :=
        hlive.length_lt hlive₁ hkey (Contents.assign_self ..) fun x hne ↦
          Contents.assign_other fun h ↦ hne h.2
      obtain ⟨s', hrounds, hholds'⟩ := ih hholds₁ hrest (by omega)
      simp only [hrun, Contents.deleted]
      refine ⟨s', hrounds, ?_⟩
      rwa [Contents.assign, Function.update_idem] at hholds'

theorem MetadataStore.Holds.deleteAll (hholds : s.Holds c)
    (hfits : MetadataRoundsFit inodeId (s.metaTree.records.length + 1) s) :
    ∃ s', metadataDeleteAll inodeId s = (none, s') ∧ s'.Holds (update c inodeId fun _ ↦ none) :=
  hholds.rounds hfits (Nat.lt_succ_of_le (length_metadataList_le inodeId s))

end Metadata

/-! ### Media tags -/

/-- Media tags that stand for a map: the tags hold their blocks, and every tag is found and reads as
the map has it. -/
structure MediaTags.Holds (s : MediaTags) (c : ℕ → ℕ → Option (List ℕ)) : Prop where
  size : 613 ≤ s.vol.blockSize ∧ s.vol.blockSize ≤ 65536
  sound : s.Sound
  ordered : s.tree.Ordered MediaTagRecord.order
  reads : ∀ inodeId tagType, (mediaTagTreeLookup inodeId tagType s).map (mediaTagRead s.vol) =
    (c inodeId tagType).map .ok

section Tags

variable {s : MediaTags} {c : ℕ → ℕ → Option (List ℕ)} {inodeId tagType : ℕ} {data : List ℕ}
  {fresh : ℕ → Option ℕ}

section

variable (hholds : s.Holds c)
include hholds

theorem MediaTags.Holds.stands :
    s.tree.Stands MediaTagRecord.order fun k ↦ s.tree.lookup MediaTagRecord.order k :=
  ⟨hholds.ordered, fun _ ↦ rfl⟩

theorem MediaTags.Holds.get (inodeId tagType : ℕ) :
    tagGet inodeId tagType s = present (c inodeId tagType) := by
  have hreads := hholds.reads inodeId tagType
  rw [tagGet, if_neg hholds.sound.mediaTagLba_ne, searchTree_of_stands hholds.stands]
  change (present (mediaTagTreeLookup inodeId tagType s)).bind _ = _
  cases hfound : mediaTagTreeLookup inodeId tagType s with
  | none =>
    rw [hfound, Option.map_none, eq_comm, Option.map_eq_none_iff] at hreads
    rw [hreads]
    rfl
  | some r =>
    rw [hfound, Option.map_some, eq_comm, Option.map_eq_some_iff] at hreads
    obtain ⟨data, hdata, hread⟩ := hreads
    rw [hdata]
    exact hread.symm

theorem MediaTags.Holds.live (inodeId tagType : ℕ) :
    s.tree.lookup MediaTagRecord.order (toLex (inodeId, tagType)) = none ↔
      c inodeId tagType = none := by
  have hreads := congrArg (· = none) (hholds.reads inodeId tagType)
  change mediaTagTreeLookup inodeId tagType s = none ↔ _
  simpa using hreads

theorem MediaTags.Holds.list (inodeId : ℕ) : tagTypes inodeId s = .ok (mediaTagList inodeId s) ∧
      ListsLive (c inodeId) (mediaTagList inodeId s) := by
  refine ⟨if_pos (hholds.ordered.leads _), ?_⟩
  obtain ⟨hsorted, hmem⟩ := lists_of_stands MediaTagRecord.inodeId MediaTagRecord.tagType
    hholds.stands Nat.zero_le inodeId
  rw [mediaTagList, if_neg hholds.sound.mediaTagLba_ne]
  exact ⟨hsorted, fun k ↦ (hmem k).trans (not_congr (hholds.live inodeId k))⟩

end

variable {vol : Volume}

/-- A block of one tag is of no other tag. -/
theorem AllHeld.owns_other {rs : List MediaTagRecord} (hall : AllHeld vol rs) {r q : MediaTagRecord}
    (hr : r ∈ rs) (hq : q ∈ rs) (hne : q ≠ r) {lba : ℕ} (howns : q.owns lba = true) :
    r.owns lba = false := by
  obtain ⟨before, after, rfl⟩ := List.append_of_mem hr
  have hfront : AllHeld vol (r :: (before ++ after)) := hall.subperm List.perm_middle.symm.subperm
  refine hfront.apart ?_ howns
  rcases List.mem_append.mp hq with h | h
  · exact List.mem_append_left _ h
  · exact List.mem_append_right _ ((List.mem_cons.mp h).resolve_left hne)

/-- The run of the old tag is released on the bitmap only. -/
theorem MediaTags.Sound.releasedVolume_eq (hsound : s.Sound) (inodeId tagType : ℕ) :
    ∃ bitmap, releasedVolume inodeId tagType s = { s.vol with bitmap } ∧ bitmap 0 = true := by
  unfold releasedVolume
  cases hfound : mediaTagTreeLookup inodeId tagType s with
  | none => exact ⟨s.vol.bitmap, rfl, hsound.held.superblock⟩
  | some old =>
    have hheld := hsound.held_of_found hfound
    obtain ⟨bitmap, hvol, hbitmap⟩ := mediaTagFreeExternal_eq hheld
    refine ⟨bitmap, hvol, ?_⟩
    rw [hbitmap, hsound.held.superblock, Bool.true_and, Bool.not_eq_true']
    by_contra howns
    obtain ⟨hexternal, hle, -⟩ := owns_iff.mp (by simpa using howns)
    exact (hheld.external hexternal).1 (Nat.le_zero.mp hle)

/-- A put that is granted what it asks for ends well. -/
theorem mediaTagPut_granted (hholds : s.Holds c) (hfits : TagPutFits inodeId tagType data fresh s) :
    ∃ r vol tree, mediaTagPut inodeId tagType data fresh s = (none, { s with vol, tree }) ∧
      Built (releasedVolume inodeId tagType s) inodeId tagType data r vol ∧
      s.tree.put MediaTagRecord.order (mediaTagLeafMaxKeys s.vol.blockSize)
        (mediaTagIndexMaxKeys s.vol.blockSize) fresh r = (tree, true) := by
  obtain ⟨bitmap, hvol, hsuper⟩ := hholds.sound.releasedVolume_eq inodeId tagType
  have hsize : (releasedVolume inodeId tagType s).blockSize = s.vol.blockSize := by rw [hvol]
  have hsuper' : (releasedVolume inodeId tagType s).bitmap 0 = true := by rw [hvol]; exact hsuper
  rcases mediaTagBuildRecord_spec (by rw [hsize]; exact hholds.sound.held.blockSize_pos) hsuper'
    inodeId tagType data with ⟨hlong, hfind, -⟩ | ⟨-, r, vol, hbuild, hbuilt⟩
  · rw [hsize] at hfind
    rcases hfits.run with hshort | hroom
    · exact absurd hshort (Nat.not_le.mpr hlong)
    · exact absurd hfind hroom
  · have hrecord := hfits.record r hbuilt.order_eq
    have hdone := Root.put_granted hholds.ordered.solid hrecord.granted
    rcases hput : s.tree.put MediaTagRecord.order (mediaTagLeafMaxKeys s.vol.blockSize)
      (mediaTagIndexMaxKeys s.vol.blockSize) fresh r with ⟨tree, done⟩
    rw [hput] at hdone
    obtain rfl : done = true := hdone
    refine ⟨r, vol, tree, ?_, hbuilt, hput⟩
    have htree : mediaTagTreePut s.vol.blockSize fresh r s.tree = (none, tree) := by
      simp only [mediaTagTreePut, if_neg (Nat.not_lt.mpr hrecord.depth), hput]
    rw [mediaTagPut, if_neg hholds.sound.mediaTagLba_ne]
    cases hold : mediaTagTreeLookup inodeId tagType s with
    | none =>
      rw [releasedVolume, hold] at hbuild
      simp only [hbuild, htree]
    | some old =>
      rw [releasedVolume, hold] at hbuild
      simp only [hbuild, htree]

theorem mediaTag_roomy (hsize : 613 ≤ s.vol.blockSize ∧ s.vol.blockSize ≤ 65536) :
    1 ≤ mediaTagLeafMaxKeys s.vol.blockSize ∧ 1 ≤ mediaTagIndexMaxKeys s.vol.blockSize := by
  constructor
  · refine one_le_maxKeys (by decide) ?_ (by omega)
    rw [btreeNodeHeaderSize]
    omega
  · refine one_le_maxKeys (by decide) ?_ (by omega)
    rw [btreeNodeHeaderSize]
    omega

theorem MediaTags.Holds.put (hholds : s.Holds c) (hfits : TagPutFits inodeId tagType data fresh s) :
    ∃ s', mediaTagPut inodeId tagType data fresh s = (none, s') ∧
      s'.Holds (Contents.assign c inodeId tagType (some data)) := by
  obtain ⟨r, vol, tree, hrun, hbuilt, hput⟩ := mediaTagPut_granted hholds hfits
  obtain ⟨bitmap, hreleased, -⟩ := hholds.sound.releasedVolume_eq inodeId tagType
  obtain ⟨hleafMax, hindexMax⟩ := mediaTag_roomy hholds.size
  have hrecord := hfits.record r hbuilt.order_eq
  have hsize : vol.blockSize = s.vol.blockSize := by rw [hbuilt.blockSize_eq, hreleased]
  have htotal : vol.totalBytes = s.vol.totalBytes := by rw [hbuilt.totalBytes_eq, hreleased]
  have hdisk : ∀ lba, r.owns lba = false → vol.disk lba = s.vol.disk lba := fun lba h ↦ by
    rw [hbuilt.disk_eq lba h, hreleased]
  have hsound : ({ s with vol, tree } : MediaTags).Sound := by
    have hafter : (mediaTagPut inodeId tagType data fresh s).2.Sound := by
      cases hold : mediaTagTreeLookup inodeId tagType s with
      | none => exact hholds.sound.put_absent hold
      | some old =>
        refine hholds.sound.put_found hold (Or.inr ⟨hrecord.depth, ?_⟩)
        have hvol : releasedVolume inodeId tagType s = mediaTagFreeExternal old s.vol := by
          rw [releasedVolume, hold]
        exact hvol ▸ hfits.run
    rwa [hrun] at hafter
  have hdone : (s.tree.put MediaTagRecord.order (mediaTagLeafMaxKeys s.vol.blockSize)
      (mediaTagIndexMaxKeys s.vol.blockSize) fresh r).2 = true := by rw [hput]
  have hordered := Root.put_ordered hleafMax hindexMax fresh hholds.ordered hrecord.safe
  have hlookup := Root.lookup_put hleafMax hindexMax hholds.ordered hrecord.safe hdone
  have hmem := fun q ↦ Root.mem_put (q := q) hholds.ordered hdone
  rw [hput] at hordered hlookup hmem
  refine ⟨{ s with vol, tree }, hrun, ⟨hsize ▸ hholds.size, hsound, hordered, fun i t ↦ ?_⟩⟩
  change (tree.lookup MediaTagRecord.order (toLex (i, t))).map (mediaTagRead vol) = _
  rw [hlookup, hbuilt.order_eq]
  split_ifs with hkey
  · obtain ⟨rfl, rfl⟩ := Prod.mk.inj (toLex_inj.mp hkey)
    rw [Contents.assign_self, Option.map_some, Option.map_some, hbuilt.read_eq]
  · rw [Contents.assign_other fun h ↦ hkey (by rw [h.1, h.2]), ← hholds.reads i t]
    change _ = (s.tree.lookup MediaTagRecord.order (toLex (i, t))).map _
    refine Option.map_congr fun q hq ↦ mediaTagRead_congr hsize htotal fun lba howns ↦ hdisk lba ?_
    -- The other tag is still in the tree, so that the new run is not on its blocks.
    obtain ⟨hq, hqkey⟩ := (Root.mem_lookup hholds.ordered).mp hq
    have horder : q.order ≠ r.order := by
      rw [hqkey, hbuilt.order_eq]
      exact Ne.symm hkey
    exact hsound.held.owns_other ((hmem r).mpr (Or.inl rfl)) ((hmem q).mpr (Or.inr ⟨hq, horder⟩))
      (fun h ↦ horder (congrArg _ h)) howns

theorem MediaTags.Holds.delete (hholds : s.Holds c)
    (hfits : DropFits MediaTagRecord.order mediaTagBtreeMaxDepth (toLex (inodeId, tagType)) s.tree) :
    ∃ s', mediaTagDelete inodeId tagType s = (Contents.deleted (c inodeId tagType), s') ∧
      s'.Holds (Contents.assign c inodeId tagType none) := by
  have hsound : (mediaTagDelete inodeId tagType s).2.Sound := hholds.sound.delete
  rw [mediaTagDelete, if_neg hholds.sound.mediaTagLba_ne, mediaTagTreeDelete,
    if_neg (Nat.not_lt.mpr hfits.depth)] at hsound ⊢
  have hlive := hholds.live inodeId tagType
  cases hfound : mediaTagTreeLookup inodeId tagType s with
  | none =>
    have hc := hlive.mp hfound
    rw [Contents.assign_eq_self hc, hc]
    exact ⟨s, rfl, hholds⟩
  | some r =>
    rw [hfound] at hsound
    have hne : s.tree.lookup MediaTagRecord.order (toLex (inodeId, tagType)) ≠ none :=
      Option.ne_none_iff_exists'.mpr ⟨r, hfound⟩
    obtain ⟨data, hdata⟩ := Option.ne_none_iff_exists'.mp (mt hlive.mpr hne)
    obtain ⟨bitmap, hvol, -⟩ := mediaTagFreeExternal_eq (hholds.sound.held_of_found hfound)
    have hafter : (s.tree.delete MediaTagRecord.order (toLex (inodeId, tagType))).1.Stands
        MediaTagRecord.order (update (fun k ↦ s.tree.lookup MediaTagRecord.order k)
          (toLex (inodeId, tagType)) none) :=
      hholds.stands.delete (hfits.unstranded hne) (update_self ..) fun k hk ↦
        update_of_ne hk ..
    rw [hdata]
    refine ⟨_, rfl, ⟨?_, hsound, hafter.ordered, fun i t ↦ ?_⟩⟩
    · change 613 ≤ (mediaTagFreeExternal r s.vol).blockSize ∧ _
      rw [hvol]
      exact hholds.size
    · change ((s.tree.delete MediaTagRecord.order _).1.lookup MediaTagRecord.order
        (toLex (i, t))).map (mediaTagRead (mediaTagFreeExternal r s.vol)) = _
      have hread : mediaTagRead (mediaTagFreeExternal r s.vol) = mediaTagRead s.vol := by
        rw [hvol]
        exact funext fun q ↦ mediaTagRead_congr rfl rfl fun _ _ ↦ rfl
      rw [hafter.lookup_eq, hread]
      by_cases hkey : i = inodeId ∧ t = tagType
      · rw [hkey.1, hkey.2, update_self, Contents.assign_self]
        rfl
      · have hne' : toLex (i, t) ≠ toLex (inodeId, tagType) := fun h ↦
          hkey (Prod.mk.inj (toLex_inj.mp h))
        rw [update_of_ne hne', Contents.assign_other hkey]
        exact hholds.reads i t

theorem mediaTagTreeDelete_height_le (inodeId tagType : ℕ) (s : MediaTags) :
    (mediaTagTreeDelete inodeId tagType s).2.tree.height ≤ s.tree.height := by
  unfold mediaTagTreeDelete
  split_ifs
  · exact le_rfl
  · cases mediaTagTreeLookup inodeId tagType s with
    | none => exact le_rfl
    | some r => exact Root.height_delete_le _ _

section

variable (hholds : s.Holds c) (hheight : s.tree.height ≤ mediaTagBtreeMaxDepth)
include hholds hheight

theorem MediaTags.Holds.loop {fuel : ℕ} (hclean : CleanLoop inodeId fuel s)
    (hfuel : (mediaTagList inodeId s).length < fuel) :
    ∃ s', mediaTagDeleteLoop inodeId fuel s = (none, s') ∧
      s'.Holds (update c inodeId fun _ ↦ none) := by
  induction fuel generalizing s c with
  | zero => exact absurd hfuel (Nat.not_lt_zero _)
  | succ fuel ih =>
    obtain ⟨-, hlive⟩ := hholds.list inodeId
    rw [mediaTagDeleteLoop]
    rw [CleanLoop] at hclean
    cases hlist : mediaTagList inodeId s with
    | nil =>
      rw [hlist] at hlive
      have hnone : c inodeId = fun _ ↦ none := by
        funext k
        by_contra hk
        exact List.not_mem_nil ((hlive.2 k).mpr hk)
      rw [← hnone, Function.update_eq_self]
      exact ⟨s, rfl, hholds⟩
    | cons tagType rest =>
      simp only [hlist] at hclean ⊢
      have htype : c inodeId tagType ≠ none := (hlive.2 tagType).mp (hlist ▸ List.mem_cons_self)
      obtain ⟨data, hdata⟩ := Option.ne_none_iff_exists'.mp htype
      obtain ⟨s₁, hrun, hholds₁⟩ := hholds.delete ⟨hheight, fun _ ↦ hclean.1⟩
      rw [hdata, mediaTagDelete, if_neg hholds.sound.mediaTagLba_ne] at hrun
      have hrest := hclean.2
      have hheight₁ := (mediaTagTreeDelete_height_le inodeId tagType s).trans hheight
      rw [hrun] at hrest hheight₁
      obtain ⟨-, hlive₁⟩ := hholds₁.list inodeId
      have hshorter : (mediaTagList inodeId s₁).length < (mediaTagList inodeId s).length :=
        hlive.length_lt hlive₁ htype (Contents.assign_self ..) fun x hne ↦
          Contents.assign_other fun h ↦ hne h.2
      obtain ⟨s', hloop, hholds'⟩ := ih hholds₁ hheight₁ hrest (by omega)
      simp only [hrun, Contents.deleted]
      refine ⟨s', hloop, ?_⟩
      rwa [Contents.assign, Function.update_idem] at hholds'

theorem MediaTags.Holds.deleteAll (hclean : CleanLoop inodeId (s.tree.records.length + 1) s) :
    ∃ s', mediaTagDeleteAll inodeId s = (none, s') ∧ s'.Holds (update c inodeId fun _ ↦ none) := by
  rw [mediaTagDeleteAll, if_neg hholds.sound.mediaTagLba_ne]
  refine hholds.loop hheight hclean (Nat.lt_succ_of_le ?_)
  rw [mediaTagList, if_neg hholds.sound.mediaTagLba_ne, List.length_map]
  exact ((scan_sublist _ _ _).trans (Root.recordsFrom_suffix _ _).sublist).length_le

end

/-- What else happens to the volume leaves the tags as they are. -/
theorem MediaTags.Holds.others (hholds : s.Holds c) (hleaves : LeavesTags s vol) :
    MediaTags.Holds { s with vol } c := by
  have hsound : (s.step (.others vol)).Sound := hholds.sound.step hleaves
  obtain ⟨hsize, htotal, -, hsame⟩ := hleaves
  refine ⟨by rw [hsize]; exact hholds.size, hsound, hholds.ordered, fun i t ↦ ?_⟩
  rw [← hholds.reads i t]
  change (mediaTagTreeLookup i t s).map (mediaTagRead vol) = _
  refine Option.map_congr fun r hr ↦ mediaTagRead_congr hsize htotal fun lba howns ↦ ?_
  exact (hsame r ((Root.mem_lookup hholds.ordered).mp hr).1 lba howns).2

end Tags

/-! ### All stores -/

/-- Every store stands for its map. -/
structure Stores.Holds (s : Stores) (c : Contents) : Prop where
  metadata : s.metadata.Holds c.metadata
  tags : s.tags.Holds c.tags
  cd : ∀ part, (s.cd part).Holds (c.cd part)

namespace Stores

variable {s : Stores} {c : Contents}

theorem Holds.shows (hholds : s.Holds c) : s.Shows c where
  metadata_get := hholds.metadata.get
  metadata_list inodeId := ⟨_, hholds.metadata.list inodeId⟩
  tag_get := hholds.tags.get
  tag_list inodeId := ⟨_, hholds.tags.list inodeId⟩
  cd_get part := (hholds.cd part).get

theorem Fresh.holds (hfresh : s.Fresh) : s.Holds .nothing where
  metadata :=
    { size := by
        rw [hfresh.same_size]
        exact ⟨Nat.le_trans (by decide) hfresh.size.1, hfresh.size.2⟩
      midxOrdered := by
        rw [hfresh.midxTree]
        trivial
      stands := by
        rw [hfresh.metaTree]
        exact Root.stands_empty }
  tags :=
    { size := hfresh.size
      sound :=
        { mediaTagLba_ne := hfresh.mediaTagLba
          held :=
            { blockSize_pos := Nat.lt_of_lt_of_le (by decide) hfresh.size.1
              superblock := hfresh.superblock
              sole := by simp [hfresh.tagTree, Root.records]
              held := by simp [hfresh.tagTree, Root.records] } }
      ordered := by
        rw [hfresh.tagTree]
        trivial
      reads := fun _ _ ↦ by
        rw [mediaTagTreeLookup, hfresh.tagTree]
        rfl }
  cd part := ⟨(hfresh.cd part).1, by
    rw [(hfresh.cd part).2]
    exact Root.stands_empty⟩

theorem cd_roomy (hsize : 613 ≤ s.tags.vol.blockSize ∧ s.tags.vol.blockSize ≤ 65536)
    (part : CdPart) :
    1 ≤ maxKeys s.tags.vol.blockSize part.recordSize ∧
      1 ≤ maxKeys s.tags.vol.blockSize btreeIndexEntrySize := by
  have hitem {size : ℕ} (hpos : 16 ≤ size) (hmax : size ≤ 296) :
      1 ≤ maxKeys s.tags.vol.blockSize size := by
    refine one_le_maxKeys (by omega) ?_ (by omega)
    rw [btreeNodeHeaderSize]
    omega
  refine ⟨?_, hitem (by decide) (by decide)⟩
  cases part <;> exact hitem (by decide) (by decide)

variable {status : Option ErrorCode}

section

variable (hholds : s.Holds c)
include hholds

theorem Holds.withMetadata {out : Option ErrorCode × MetadataStore}
    {contents : ℕ → Text → Option Text} (hout : ∃ m, out = (status, m) ∧ m.Holds contents) :
    (s.withMetadata out).1 = status ∧
      (s.withMetadata out).2.Holds { c with metadata := contents } := by
  obtain ⟨m, rfl, hm⟩ := hout
  exact ⟨rfl, hm, hholds.tags, hholds.cd⟩

theorem Holds.withTags {out : Option ErrorCode × MediaTags}
    {contents : ℕ → ℕ → Option (List ℕ)} (hout : ∃ t, out = (status, t) ∧ t.Holds contents) :
    (s.withTags out).1 = status ∧ (s.withTags out).2.Holds { c with tags := contents } := by
  obtain ⟨t, rfl, ht⟩ := hout
  exact ⟨rfl, hholds.metadata, ht, hholds.cd⟩

theorem Holds.withCd {part : CdPart} {out : Option ErrorCode × CdTree}
    {contents : CdPart → ℕ → Option (List UInt8)}
    (hout : ∃ t, out = (status, t) ∧ t.Holds (contents part))
    (hother : ∀ other, other ≠ part → contents other = c.cd other) :
    (s.withCd part out).1 = status ∧ (s.withCd part out).2.Holds { c with cd := contents } := by
  obtain ⟨t, rfl, ht⟩ := hout
  refine ⟨rfl, hholds.metadata, hholds.tags, fun other ↦ ?_⟩
  change (update s.cd part t other).Holds (contents other)
  by_cases hsame : other = part
  · rw [hsame, update_self]
    exact ht
  · rw [update_of_ne hsame, hother other hsame]
    exact hholds.cd other

/-- A careful call answers as the maps do, and the stores stand for the maps after it. -/
theorem Holds.call {call : StoreCall} (hcareful : call.Careful s) :
    (s.call call).1 = (c.call call).1 ∧ (s.call call).2.Holds (c.call call).2 := by
  have hassign {part other : CdPart} {hash : ℕ} {x : Option (List UInt8)} (hne : other ≠ part) :
      Contents.assign c.cd part hash x other = c.cd other := update_of_ne hne ..
  cases call with
  | metadataPut inodeId key value grants =>
    rw [Contents.call]
    split_ifs with hargs
    · have hrun : metadataPut inodeId key value grants s.metadata = (some .inval, s.metadata) :=
        if_pos hargs
      exact hholds.withMetadata ⟨_, hrun, hholds.metadata⟩
    · exact hholds.withMetadata (hholds.metadata.put hargs (hcareful hargs))
  | metadataDelete inodeId key => exact hholds.withMetadata (hholds.metadata.delete hcareful)
  | metadataDeleteAll inodeId => exact hholds.withMetadata (hholds.metadata.deleteAll hcareful)
  | tagPut inodeId tagType data fresh => exact hholds.withTags (hholds.tags.put hcareful)
  | tagDelete inodeId tagType => exact hholds.withTags (hholds.tags.delete hcareful)
  | tagDeleteAll inodeId => exact hholds.withTags (hholds.tags.deleteAll hcareful.1 hcareful.2)
  | cdPut part hash data fresh =>
    obtain ⟨hrecord, hentry⟩ := cd_roomy hholds.tags.size part
    refine hholds.withCd ((hholds.cd part).put hrecord hentry hcareful ?_ fun h hne ↦ ?_)
      fun other ↦ hassign
    · exact Contents.assign_self ..
    · exact Contents.assign_other fun hsame ↦ hne hsame.2
  | cdDelete part hash =>
    refine hholds.withCd ((hholds.cd part).delete hcareful ?_ fun h hne ↦ ?_) fun other ↦ hassign
    · exact Contents.assign_self ..
    · exact Contents.assign_other fun hsame ↦ hne hsame.2
  | others vol => exact ⟨rfl, hholds.metadata, hholds.tags.others hcareful, hholds.cd⟩

theorem Holds.run {calls : List StoreCall} (hcareful : s.CarefulRun calls) :
    (s.run calls).1 = (c.run calls).1 ∧ (s.run calls).2.Holds (c.run calls).2 := by
  induction calls generalizing s c with
  | nil => exact ⟨rfl, hholds⟩
  | cons call calls ih =>
    obtain ⟨hstatus, hafter⟩ := hholds.call hcareful.1
    obtain ⟨hstatuses, hend⟩ := ih hafter hcareful.2
    rw [run, Contents.run]
    exact ⟨by rw [hstatus, hstatuses], hend⟩

end

/-- Nothing is stored on a volume with blocks of 1024 bytes. -/
def bare : Stores where
  metadata := freshMetadata 1024
  tags :=
    { mediaTagLba := 2
      vol :=
        { blockSize := 1024
          totalBytes := 2 ^ 20
          btreeClumpSize := 64
          dedupClumpSize := 64
          nextFreeLba := 1
          bitmap := (· = 0)
          disk := fun _ ↦ .bytes [] }
      tree := .empty }
  cd _ := ⟨9, .empty⟩

theorem bare_fresh : bare.Fresh where
  size := by decide
  same_size := rfl
  metaTree := rfl
  midxTree := rfl
  superblock := rfl
  mediaTagLba := by decide
  tagTree := rfl
  cd _ := ⟨(by decide : (9 : ℕ) ≠ 0), rfl⟩

/-- A suffix is put in its tree, with other nodes for every hash. -/
def suffixPut (hash : ℕ) : StoreCall :=
  .cdPut .cdSuffix hash [] fun level ↦ some (10 + 3 * hash + level)

/-- A record in each kind of store, and one that goes again. -/
def fewCalls : List StoreCall :=
  [.metadataPut 1 [97] [53] allGranted, .tagPut 1 0 [8] some, suffixPut 5, .cdDelete .cdSuffix 5]

theorem fewCalls_careful : bare.CarefulRun fewCalls := by
  have hgranted {n : ℕ} : some n ≠ none := Option.some_ne_none n
  refine ⟨fun _ ↦ ⟨⟨by decide, trivial, fun _ _ ↦ hgranted⟩, fun old hold ↦ ?_,
    ⟨by decide, trivial, fun _ _ ↦ hgranted⟩⟩, ?_, ?_, ?_, trivial⟩
  · cases hold
  · exact ⟨Or.inl (by decide), fun r _ ↦ ⟨by decide, trivial, fun _ _ ↦ hgranted⟩⟩
  · exact ⟨by decide, trivial, fun _ _ ↦ hgranted⟩
  · exact ⟨by decide +kernel, fun _ ↦ trivial⟩

/-- The suffixes of 120 hashes are put in their tree, which makes two index nodes below the root, and
those of the first of these are deleted again. -/
def strandingCalls : List StoreCall :=
  (List.range 120).map suffixPut ++ (List.range 60).map fun hash ↦ .cdDelete .cdSuffix hash

end Stores

end Obmafs3
