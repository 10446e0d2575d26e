import Obmafs3.Refcount
import Obmafs3.Store.Leaf

/-!
# The refcount calls on a stored table

What `refcountGet` and `refcountSet` do to a refcount tree between calls. A get answers with the
count of the record that a search finds, through the cached leaf or through a descent, and leaves
the cache with a leaf of the tree. A set drops the cache and removes or inserts a record.
-/

set_option autoImplicit false

namespace Obmafs3

open Library.Search Library.SearchTree

/-- A refcount tree with LBAs for labels. -/
abbrev RefcountTree := Root ℕ ℕ RefcountRecord

/-- The count of a block: one without a record. -/
def rootCount (root : RefcountTree) (lba : ℕ) : ℕ :=
  ((root.lookup RefcountRecord.lba lba).map RefcountRecord.refCount).getD 1

/-- The cache holds a leaf of the tree, or nothing. -/
def Caches (root : RefcountTree) (cache : Option RcLeaf) : Prop :=
  ∀ leaf, cache = some leaf → ∃ a records, (a, records) ∈ root.leaves ∧
    leaf = RcLeaf.ofRecords records

/-- A refcount table between calls. -/
structure RefcountStored (used : Set ℕ) (ctx : RefcountCtx) (root : RefcountTree) : Prop where
  stored : Stored refcountKind ctx.refcountLba used ctx.toTreeCtx root
  cached : Caches root ctx.rcLeaf

/-- The block sizes of the format. -/
structure Formatted (vol : Volume) : Prop where
  size_ge : 512 ≤ vol.blockSize
  size_le : vol.blockSize ≤ 65536

theorem Formatted.of_eq {vol vol' : Volume} (hformatted : Formatted vol)
    (hsize : vol'.blockSize = vol.blockSize) : Formatted vol' :=
  ⟨hsize ▸ hformatted.size_ge, hsize ▸ hformatted.size_le⟩

theorem caches_none (root : RefcountTree) : Caches root none := fun _ h ↦ by cases h

/-! ### Lookups -/

theorem leafCount_eq (records : List RefcountRecord) (a lba : ℕ) : leafCount records lba =
      ((lookup RefcountRecord.lba lba 0 (a, records)).map RefcountRecord.refCount).getD 1 := by
  rw [leafCount, lookup]
  cases leafFind (records.map RefcountRecord.lba) lba <;> rfl

variable {ctx : RefcountCtx} {root : RefcountTree} {used : Set ℕ} {refCount : ℕ}

variable {tree : TreeCtx}

theorem onRefcountTree_ok {α : Type} {op : Op TreeCtx α} {a : α}
    (hop : op ctx.toTreeCtx = .ok a tree) :
    onRefcountTree op ctx = .ok a { ctx with toTreeCtx := tree } := by
  rw [onRefcountTree, hop]

theorem onRefcountTree_error {α : Type} {op : Op TreeCtx α} {e : ErrorCode}
    (hop : op ctx.toTreeCtx = .error e tree) :
    onRefcountTree op ctx = .error e { ctx with toTreeCtx := tree } := by
  rw [onRefcountTree, hop]

theorem readRcLeaf_spec {height : ℕ} {t : Tree ℕ ℕ RefcountRecord height}
    (hreadable : Readable refcountKind ctx.toTreeCtx height t) (lba : ℕ) :
    ∃ cache, readRcLeaf lba ctx = .ok (rootCount (.node height t) lba) { ctx with rcLeaf := cache } ∧
      Caches (.node height t) cache := by
  obtain ⟨left, right, -, hrun⟩ := hreadable.descend lba .badMagic
  refine ⟨some (RcLeaf.ofRecords (leafFor lba height t).2), ?_, ?_⟩
  · unfold readRcLeaf
    rw [get_bind, bind_ok (onRefcountTree_ok hrun), modify_bind, rootCount, Root.lookup,
      lookup_eq_leafFor lba hreadable.solid, ← leafCount_eq]
    rfl
  · rintro leaf hleaf
    cases hleaf
    exact ⟨_, _, leafFor_mem_leaves lba hreadable.solid, rfl⟩

/-- Without a cached leaf a get answers with the count of a search, whatever the order of the
tree. -/
theorem refcountGet_uncached (hreads : Reads refcountKind ctx.toTreeCtx root)
    (hnone : ctx.rcLeaf = none) (lba : ℕ) :
    ∃ cache, refcountGet lba ctx = .ok (rootCount root lba) { ctx with rcLeaf := cache } ∧
      Caches root cache := by
  unfold refcountGet
  rw [get_bind]
  cases root with
  | empty =>
    rw [if_pos (show ctx.hdr.rootNodeLba = 0 from hreads)]
    refine ⟨none, ?_, caches_none _⟩
    rw [← hnone]
    rfl
  | node height t =>
    have hnonzero : ctx.hdr.rootNodeLba ≠ 0 := by
      rw [hreads.root]
      exact hreads.nonzero
    rw [if_neg hnonzero, hnone]
    exact readRcLeaf_spec hreads lba

/-- The cached leaf gives the count of a search for every block it covers. -/
theorem leafCount_of_cached (hordered : root.Ordered RefcountRecord.lba) {leaf : RcLeaf}
    (hcached : Caches root (some leaf)) {lba : ℕ} (hmin : leaf.min ≤ lba) (hmax : lba ≤ leaf.max) :
    leafCount leaf.records lba = rootCount root lba := by
  obtain ⟨a, records, hmem, rfl⟩ := hcached leaf rfl
  cases root with
  | empty => simp [Root.leaves] at hmem
  | node height t =>
    have hsorted := Ordered.leaf_pairwise hordered hmem
    cases hrecords : records with
    | nil =>
      subst hrecords
      simp only [RcLeaf.ofRecords, List.head?_nil, List.getLast?_nil] at hmin hmax
      omega
    | cons first rest =>
      rw [← hrecords]
      have hne : records ≠ [] := by simp [hrecords]
      have hhead : records.head? = some first := by simp [hrecords]
      have hleaf : RcLeaf.ofRecords records = ⟨first.lba, (records.getLast hne).lba, records⟩ := by
        simp [RcLeaf.ofRecords, hhead, List.getLast?_eq_getLast_of_ne_nil hne]
      rw [hleaf] at hmin hmax ⊢
      have hfind := find?_leaf hordered hmem (by simp [hrecords]) (List.getLast_mem hne) hmin hmax
      rw [leafCount_eq records a, leaf_lookup_eq hsorted, rootCount,
        Root.lookup_eq hordered, Root.records, hfind]

theorem refcountGet_spec (hstored : RefcountStored used ctx root)
    (hordered : root.Ordered RefcountRecord.lba) (lba : ℕ) :
    ∃ cache, refcountGet lba ctx = .ok (rootCount root lba) { ctx with rcLeaf := cache } ∧
      Caches root cache := by
  obtain ⟨hstored, hcached⟩ := hstored
  cases hcache : ctx.rcLeaf with
  | none => exact refcountGet_uncached hstored.reads hcache lba
  | some leaf =>
    have hreads := hstored.reads
    cases root with
    | empty =>
      obtain ⟨a, records, hmem, -⟩ := hcached leaf hcache
      simp [Root.leaves] at hmem
    | node height t =>
      have hnonzero : ctx.hdr.rootNodeLba ≠ 0 := by
        rw [hreads.root]
        exact hreads.nonzero
      unfold refcountGet
      rw [get_bind, if_neg hnonzero, hcache]
      simp only
      by_cases hcover : leaf.min ≤ lba ∧ lba ≤ leaf.max
      · rw [if_pos hcover]
        rw [hcache] at hcached
        refine ⟨some leaf, ?_, hcached⟩
        rw [leafCount_of_cached hordered hcached hcover.1 hcover.2, ← hcache]
        rfl
      · rw [if_neg hcover]
        exact readRcLeaf_spec hreads lba

/-! ### Updates -/

theorem refcountSet_le_one {lba refCount : ℕ} (hcount : refCount ≤ 1) (ctx : RefcountCtx) :
    refcountSet lba refCount ctx =
      onRefcountTree (refcountRemove lba) { ctx with rcLeaf := none } := by
  unfold refcountSet
  rw [modify_bind, get_bind, if_pos hcount]

theorem refcountSet_of_lt {lba refCount : ℕ} (hcount : 1 < refCount) (ctx : RefcountCtx) :
    refcountSet lba refCount ctx =
      onRefcountTree (btreeInsert refcountKind ctx.refcountLba ⟨lba, refCount⟩)
        { ctx with rcLeaf := none } := by
  unfold refcountSet
  rw [modify_bind, get_bind, if_neg (by omega)]

/-- A removal always succeeds. -/
theorem refcountRemove_spec {hdrLba : ℕ} {ctx : TreeCtx}
    (hstored : Stored refcountKind hdrLba used ctx root) (lba : ℕ) :
    ∃ ctx', refcountRemove lba ctx = .ok () ctx' ∧
      Stored refcountKind hdrLba used ctx' (root.remove RefcountRecord.lba lba) ∧
      Frames hdrLba used used (rootNodes root) ctx ctx' ∧
      ∀ k, Spacious ctx k → Spacious ctx' k := by
  have hrefl : Frames hdrLba used used (rootNodes root) ctx ctx :=
    ⟨subset_rfl, rfl, rfl, fun _ _ _ _ ↦ rfl⟩
  unfold refcountRemove
  rw [get_bind]
  cases root with
  | empty =>
    rw [if_pos (show ctx.hdr.rootNodeLba = 0 from hstored.root_lba)]
    exact ⟨ctx, rfl, hstored, hrefl, fun _ hk ↦ hk⟩
  | node height t =>
    have hreads : Readable refcountKind ctx height t := hstored.reads
    obtain ⟨left, right, hnode, hrun⟩ := hreads.descend lba .corrupt
    have hnonzero : ctx.hdr.rootNodeLba ≠ 0 := by
      rw [hreads.root]
      exact hreads.nonzero
    rw [if_neg hnonzero, bind_ok hrun]
    simp only [Root.remove]
    cases hfind : leafFind ((leafFor lba height t).2.map RefcountRecord.lba) lba with
    | absent i =>
      have hedit : dropKey RefcountRecord.lba lba (leafFor lba height t).2 =
          (leafFor lba height t).2 := by rw [dropKey, hfind]
      refine ⟨ctx, rfl, ?_, hrefl, fun _ hk ↦ hk⟩
      rwa [editLeaf_self hreads.solid hedit]
    | found i =>
      have hedit : dropKey RefcountRecord.lba lba (leafFor lba height t).2 =
          (leafFor lba height t).2.eraseIdx i := by rw [dropKey, hfind]
      obtain ⟨hused, hstored'⟩ := hstored.writeLeaf hnode (dropKey RefcountRecord.lba lba)
      refine ⟨_, hstored.sound.writeNode hused _, ?_,
        ⟨subset_rfl, rfl, rfl, fun other _ _ hnot ↦ ?_⟩, fun _ hk ↦ hk⟩
      · rwa [hedit] at hstored'
      · have hmem : (leafFor lba height t).1 ∈ nodesOf height t :=
          ⟨0, Nat.zero_le _, leafFor_mem_row lba hreads.solid⟩
        have hne : other ≠ (leafFor lba height t).1 := by
          rintro rfl
          exact hnot hmem
        exact Function.update_of_ne hne _ _

theorem refcountSet_remove (hstored : RefcountStored used ctx root) (lba : ℕ)
    (hcount : refCount ≤ 1) :
    ∃ ctx', refcountSet lba refCount ctx = .ok () ctx' ∧
      RefcountStored used ctx' (root.remove RefcountRecord.lba lba) ∧
      ctx'.vol.blockSize = ctx.vol.blockSize ∧ ctx'.rcLeaf = none ∧
      (∀ k, Spacious ctx.toTreeCtx k → Spacious ctx'.toTreeCtx k) ∧
      ctx'.vol.totalBlocks = ctx.vol.totalBlocks := by
  obtain ⟨tree, hrun, hstored', hframes, hspacious⟩ := refcountRemove_spec hstored.stored lba
  refine ⟨{ toTreeCtx := tree, refcountLba := ctx.refcountLba, rcLeaf := none }, ?_,
    ⟨hstored', caches_none _⟩, hframes.block_size, rfl, hspacious, hframes.total_blocks⟩
  rw [refcountSet_le_one hcount]
  exact onRefcountTree_ok hrun

/-- A volume of the format has room for two records in a leaf and two entries in a node. -/
theorem Formatted.maxKeys_refcount {vol : Volume} (hformatted : Formatted vol) :
    2 ≤ maxKeys vol.blockSize refcountKind.recordSize ∧
      2 ≤ maxKeys vol.blockSize refcountKind.entrySize := by
  obtain ⟨hge, hle⟩ := hformatted
  simp only [maxKeys, btreeNodeHeaderSize, refcountKind]
  omega

variable (hstored : RefcountStored used ctx root)
include hstored

/-- What an insertion in the refcount table does: it ends well with the new record in the tree, or
a node was refused, or the tree is too deep. -/
theorem refcountSet_insert (hformatted : Formatted ctx.vol) (hdepth : root.height ≤ btreeMaxDepth)
    (lba : ℕ) (hcount : 1 < refCount) :
    ∃ (fresh : ℕ → Option ℕ) (used' : Set ℕ) (ctx' : RefcountCtx),
      ctx'.vol.blockSize = ctx.vol.blockSize ∧ ctx'.rcLeaf = none ∧
      (match root.put RefcountRecord.lba (maxKeys ctx.vol.blockSize refcountKind.recordSize)
          (maxKeys ctx.vol.blockSize refcountKind.entrySize) fresh ⟨lba, refCount⟩ with
        | (root', true) =>
          refcountSet lba refCount ctx = .ok () ctx' ∧ RefcountStored used' ctx' root'
        | (root', false) =>
          refcountSet lba refCount ctx = .error .noSpc ctx' ∧
            Reads refcountKind ctx'.toTreeCtx root') ∧
      (fresh 0 = none ↔ Exhausted ctx.toTreeCtx) ∧
      (∀ level ≤ root.height + 1, fresh level = none →
        ¬Spacious ctx.toTreeCtx (root.height + 2)) ∧
      (∀ k, Spacious ctx.toTreeCtx (k + (root.height + 2)) → Spacious ctx'.toTreeCtx k) ∧
      ctx'.vol.totalBlocks = ctx.vol.totalBlocks := by
  obtain ⟨fresh, used', tree, hframes, hends, hexhausted, hnone, hspacious, -⟩ :=
    btreeInsert_spec ⟨lba, refCount⟩ hstored.stored hdepth
      (Nat.le_of_succ_le hformatted.maxKeys_refcount.2)
  refine ⟨fresh, used', { toTreeCtx := tree, refcountLba := ctx.refcountLba, rcLeaf := none },
    hframes.block_size, rfl, ?_, hexhausted, hnone, hspacious, hframes.total_blocks⟩
  change Ends _ _ _ _ _ (root.put RefcountRecord.lba _ _ _ _) at hends
  generalize root.put RefcountRecord.lba _ _ _ _ = result at hends
  obtain ⟨root', done⟩ := result
  rw [refcountSet_of_lt hcount]
  cases done with
  | true => exact ⟨onRefcountTree_ok hends.1, hends.2, caches_none _⟩
  | false => exact ⟨onRefcountTree_error hends.1, hends.2⟩

theorem refcountSet_deep (hdepth : btreeMaxDepth < root.height) (lba : ℕ) (hcount : 1 < refCount) :
    refcountSet lba refCount ctx = .error .inval { ctx with rcLeaf := none } := by
  have hrun : btreeInsert refcountKind ctx.refcountLba ⟨lba, refCount⟩ ctx.toTreeCtx =
      .error .inval ctx.toTreeCtx := btreeInsert_deep _ hstored.stored hdepth
  rw [refcountSet_of_lt hcount, onRefcountTree, hrun]

end Obmafs3
