import Obmafs3.Btree
import Obmafs3.Library.SearchTreeDemand
import Obmafs3.Library.SearchTreeAppend

/-!
# The dedup tree

The tree that maps hashes to the places where sectors are stored. An insertion descends to the leaf
for its hash first and stops there when it finds it. Otherwise it puts the entry in, dividing full
nodes from the leaf upward. Every node that is divided needs a new node for its right half, and
the allocator may refuse it at any level.

Node reads succeed here, so a tree is the tree of its nodes, with their LBAs for labels.
-/

set_option autoImplicit false

namespace Obmafs3

open Library.Search Library.SearchTree

/-- `struct dedup_entry`. -/
structure DedupEntry where
  hash : ℕ
  blockLba : ℕ
  blockOffset : ℕ
  deriving DecidableEq, Repr

abbrev DedupTree := Root ℕ ℕ DedupEntry

def dedupLeafMaxKeys (blockSize : ℕ) : ℕ := maxKeys blockSize 24

def dedupIndexMaxKeys (blockSize : ℕ) : ℕ := maxKeys blockSize 16

/-- `DEDUP_BTREE_MAX_DEPTH`. -/
def dedupBtreeMaxDepth : ℕ := 8

/-- The tree that `obmafs3_dedup_get_tree` creates: a root leaf without entries. -/
def newDedupTree (rootLba : ℕ) : DedupTree := .node 0 (rootLba, [])

/-- `obmafs3_dedup_lookup` in the tree. It has no depth limit. -/
def dedupLookup (tree : DedupTree) (hash : ℕ) : Option DedupEntry :=
  tree.lookup DedupEntry.hash hash

/-- `dedup_upsert_find`. -/
def dedupUpsertFind (tree : DedupTree) (hash : ℕ) : Except ErrorCode (Option DedupEntry) :=
  if dedupBtreeMaxDepth < tree.height then .error .inval
  else .ok (tree.lookup DedupEntry.hash hash)

/-- `dedup_upsert_insert`. `fresh` is the node that `obmafs3_btree_alloc_node` hands out for the
division of a node of each level, if it does. -/
def dedupUpsertInsert (blockSize : ℕ) (fresh : ℕ → Option ℕ) (entry : DedupEntry)
    (tree : DedupTree) : Option ErrorCode × DedupTree :=
  match tree.put DedupEntry.hash (dedupLeafMaxKeys blockSize) (dedupIndexMaxKeys blockSize) fresh
      entry with
  | (tree, true) => (none, tree)
  | (tree, false) => (some .noSpc, tree)

/-- An insertion: the find phase and, when the hash is not there, the insert phase. -/
def dedupUpsert (blockSize : ℕ) (fresh : ℕ → Option ℕ) (entry : DedupEntry) (tree : DedupTree) :
    Option ErrorCode × DedupTree :=
  match dedupUpsertFind tree entry.hash with
  | .error e => (some e, tree)
  | .ok (some _) => (none, tree)
  | .ok none => dedupUpsertInsert blockSize fresh entry tree

/-- An insertion of a run, with what the allocator will answer. -/
structure Insertion where
  entry : DedupEntry
  fresh : ℕ → Option ℕ

/-- The tree after a run of insertions. -/
def upsertAll (blockSize : ℕ) (insertions : List Insertion) (tree : DedupTree) : DedupTree :=
  insertions.foldl (fun tree i ↦ (dedupUpsert blockSize i.fresh i.entry tree).2) tree

/-- What the run was told that the tree holds: for each hash the entry of its first insertion that
returned `OBMAFS3_OK`. -/
def accepted (blockSize : ℕ) :
    List Insertion → DedupTree → (ℕ → Option DedupEntry) → ℕ → Option DedupEntry
  | [], _, held => held
  | i :: insertions, tree, held =>
    let (status, tree) := dedupUpsert blockSize i.fresh i.entry tree
    accepted blockSize insertions tree
      (if status = none ∧ held i.entry.hash = none then
        Function.update held i.entry.hash (some i.entry)
      else held)

/-! ### Single insertions -/

/-- An insertion that does no harm: the nodes it divides hand up separators that separate, and the
allocator refuses it the first node that it asks for or none. -/
structure Harmless (blockSize : ℕ) (tree : DedupTree) (i : Insertion) : Prop where
  safe : tree.Safe DedupEntry.hash (dedupLeafMaxKeys blockSize) (dedupIndexMaxKeys blockSize) i.entry
  granted : i.fresh 0 = none ∨ ∀ level < tree.demand DedupEntry.hash (dedupLeafMaxKeys blockSize)
      (dedupIndexMaxKeys blockSize) i.entry, i.fresh level ≠ none

/-- Block sizes at which a node holds something. -/
def Roomful (blockSize : ℕ) : Prop :=
  1 ≤ dedupLeafMaxKeys blockSize ∧ 1 ≤ dedupIndexMaxKeys blockSize

variable {blockSize : ℕ}

theorem roomful (hsize : 512 ≤ blockSize ∧ blockSize ≤ 65536) : Roomful blockSize := by
  simp only [Roomful, dedupLeafMaxKeys, dedupIndexMaxKeys, maxKeys, btreeNodeHeaderSize]
  omega

section Steps

variable {blockSize : ℕ} {tree : DedupTree} {i : Insertion}

/-- What a harmless insertion does: it fails and leaves the tree alone, it finds the hash, or it
puts the entry in. -/
theorem dedupUpsert_cases (hordered : tree.Ordered DedupEntry.hash)
    (hharmless : Harmless blockSize tree i) :
    (∃ e, dedupUpsert blockSize i.fresh i.entry tree = (some e, tree)) ∨
      (∃ existing, dedupLookup tree i.entry.hash = some existing ∧
        dedupUpsert blockSize i.fresh i.entry tree = (none, tree)) ∨
      ∃ tree', dedupLookup tree i.entry.hash = none ∧
        tree.put DedupEntry.hash (dedupLeafMaxKeys blockSize) (dedupIndexMaxKeys blockSize) i.fresh
          i.entry = (tree', true) ∧
        dedupUpsert blockSize i.fresh i.entry tree = (none, tree') := by
  unfold dedupUpsert dedupUpsertFind
  by_cases hdepth : dedupBtreeMaxDepth < tree.height
  · rw [if_pos hdepth]
    exact Or.inl ⟨.inval, rfl⟩
  · rw [if_neg hdepth]
    cases hfound : tree.lookup DedupEntry.hash i.entry.hash with
    | some existing => exact Or.inr (Or.inl ⟨existing, hfound, rfl⟩)
    | none =>
      simp only [dedupUpsertInsert]
      rcases hrun : tree.put DedupEntry.hash (dedupLeafMaxKeys blockSize)
        (dedupIndexMaxKeys blockSize) i.fresh i.entry with ⟨tree', done⟩
      cases done with
      | true => exact Or.inr (Or.inr ⟨tree', hfound, rfl, rfl⟩)
      | false =>
        have hrefused : (tree.put DedupEntry.hash (dedupLeafMaxKeys blockSize)
          (dedupIndexMaxKeys blockSize) i.fresh i.entry).2 = false := congrArg Prod.snd hrun
        rcases hharmless.granted with hnone | hgranted
        · have hsame := Root.put_ungranted hnone hrefused
          rw [hrun] at hsame
          exact Or.inl ⟨.noSpc, Prod.ext rfl hsame⟩
        · rw [Root.put_granted hordered.solid hgranted] at hrefused
          cases hrefused

variable (hroom : Roomful blockSize) (hordered : tree.Ordered DedupEntry.hash)
  (hharmless : Harmless blockSize tree i)
include hroom hordered hharmless

theorem dedupUpsert_ordered :
    (dedupUpsert blockSize i.fresh i.entry tree).2.Ordered DedupEntry.hash := by
  rcases dedupUpsert_cases hordered hharmless with ⟨e, hrun⟩ | ⟨existing, -, hrun⟩ |
    ⟨tree', -, hput, hrun⟩
  · rw [hrun]
    exact hordered
  · rw [hrun]
    exact hordered
  · have hafter := Root.put_ordered hroom.1 hroom.2 i.fresh hordered hharmless.safe
    rw [hput] at hafter
    rw [hrun]
    exact hafter

/-- After an insertion that returned `OBMAFS3_OK` the hash is found, with the entry that was there
or the new one. Nothing else has changed, and nothing has after an insertion that failed. -/
theorem dedupLookup_dedupUpsert : dedupLookup (dedupUpsert blockSize i.fresh i.entry tree).2 =
      if (dedupUpsert blockSize i.fresh i.entry tree).1 = none ∧
          dedupLookup tree i.entry.hash = none then
        Function.update (dedupLookup tree) i.entry.hash (some i.entry)
      else dedupLookup tree := by
  rcases dedupUpsert_cases hordered hharmless with ⟨e, hrun⟩ | ⟨existing, hfound, hrun⟩ |
    ⟨tree', hfound, hput, hrun⟩
  · simp [hrun]
  · simp [hrun, hfound]
  · have hdone : (tree.put DedupEntry.hash (dedupLeafMaxKeys blockSize)
        (dedupIndexMaxKeys blockSize) i.fresh i.entry).2 = true := congrArg Prod.snd hput
    rw [hrun, if_pos ⟨rfl, hfound⟩]
    funext hash
    have hlookup := Root.lookup_put hroom.1 hroom.2 hordered hharmless.safe hdone hash
    rw [hput] at hlookup
    rw [Function.update_apply]
    simpa [dedupLookup, eq_comm] using hlookup

end Steps

/-! ### Runs -/

/-- Every insertion of a run is harmless in the tree that it finds. -/
def AllHarmless (blockSize : ℕ) : List Insertion → DedupTree → Prop
  | [], _ => True
  | i :: insertions, tree =>
    Harmless blockSize tree i ∧
      AllHarmless blockSize insertions (dedupUpsert blockSize i.fresh i.entry tree).2

theorem dedupLookup_upsertAll (hroom : Roomful blockSize) {insertions : List Insertion}
    {tree : DedupTree} (hordered : tree.Ordered DedupEntry.hash)
    (hharmless : AllHarmless blockSize insertions tree) :
    dedupLookup (upsertAll blockSize insertions tree) =
      accepted blockSize insertions tree (dedupLookup tree) := by
  induction insertions generalizing tree with
  | nil => rfl
  | cons i insertions ih =>
    rw [upsertAll, List.foldl_cons, ← upsertAll,
      ih (dedupUpsert_ordered hroom hordered hharmless.1) hharmless.2,
      dedupLookup_dedupUpsert hroom hordered hharmless.1, accepted]

/-- After a run of harmless insertions from an empty tree, a lookup of a hash gives the entry of its
first insertion that returned `OBMAFS3_OK`, and finds nothing when there was none. -/
theorem dedup_map {blockSize : ℕ} (hsize : 512 ≤ blockSize ∧ blockSize ≤ 65536) (rootLba : ℕ)
    {insertions : List Insertion}
    (hharmless : AllHarmless blockSize insertions (newDedupTree rootLba)) (hash : ℕ) :
    dedupLookup (upsertAll blockSize insertions (newDedupTree rootLba)) hash =
      accepted blockSize insertions (newDedupTree rootLba) (fun _ ↦ none) hash := by
  have hroom := roomful hsize
  have hempty : (newDedupTree rootLba).Ordered DedupEntry.hash := List.Pairwise.nil
  rw [dedupLookup_upsertAll hroom hempty hharmless]
  rfl

/-- Two insertions in a new tree. -/
theorem dedup_map_two :
    dedupLookup (upsertAll 4096 [⟨⟨7, 100, 0⟩, fun _ ↦ none⟩, ⟨⟨5, 100, 512⟩, fun _ ↦ none⟩]
        (newDedupTree 8)) 7 =
      accepted 4096 [⟨⟨7, 100, 0⟩, fun _ ↦ none⟩, ⟨⟨5, 100, 512⟩, fun _ ↦ none⟩] (newDedupTree 8)
        (fun _ ↦ none) 7 := by
  refine dedup_map ⟨by decide, by decide⟩ 8 ?_ 7
  exact ⟨⟨trivial, Or.inl rfl⟩, ⟨⟨trivial, Or.inl rfl⟩, trivial⟩⟩

/-! ### A full leaf -/

/-- Insertions of the hashes `1` to `39`, which fill a root leaf of 1024 bytes, and of `40` when the
allocator has one node left. -/
def fillLeaf : List Insertion := (List.range 39).map fun h ↦ ⟨⟨h + 1, 0, h⟩, fun _ ↦ none⟩

def lastInsertion : Insertion := ⟨⟨40, 0, 39⟩, fun level ↦ if level = 0 then some 9 else none⟩

/-- The leaf is divided and the new root is refused: the upper half of the leaf is lost. -/
theorem dedup_map_lost :
    accepted 1024 (fillLeaf ++ [lastInsertion]) (newDedupTree 8) (fun _ ↦ none) 39 =
        some ⟨39, 0, 38⟩ ∧
      dedupLookup (upsertAll 1024 (fillLeaf ++ [lastInsertion]) (newDedupTree 8)) 39 = none := by
  decide +kernel

end Obmafs3
