import Obmafs3.Disc.Descriptors
import Obmafs3.Namespace.Callbacks

/-!
# The cross-references of the checker

The phase of the checker that compares the inode tree with the catalog: the ids and the entries are
collected once, orphan inodes are linked again below `lost+found`, dangling entries are deleted, and
then `next_inode_id` is compared with the highest id in use. As in the callbacks on paths, the two
trees have a block at hand for every node and every node can be read.
-/

set_option autoImplicit false

namespace Obmafs3

open Library.Search Library.SearchTree

/-! ### Collecting -/

/-- The records in the order in which a stack of nodes meets them: of the children of a node the
last one first. -/
def collectBelow {α κ ρ : Type} : (height : ℕ) → Tree α κ ρ height → List ρ
  | 0, (_, rs) => rs
  | height + 1, (_, es) => es.reverse.flatMap fun e ↦ collectBelow height e.2

def collectTree {α κ ρ : Type} : Root α κ ρ → List ρ
  | .empty => []
  | .node height t => collectBelow height t

/-- The header names a root. -/
def hasRoot {α κ ρ : Type} : Root α κ ρ → Bool
  | .empty => false
  | .node _ _ => true

/-- The loop of `u64_sorted_contains` over the window from `lo` to `hi`. -/
def sortedContainsLoop (arr : List ℕ) (id : ℕ) : (fuel lo hi : ℕ) → Bool
  | 0, _, _ => false
  | fuel + 1, lo, hi =>
    if lo < hi then
      match arr[lo + (hi - lo) / 2]? with
      | none => false
      | some middle =>
        if middle < id then sortedContainsLoop arr id fuel (lo + (hi - lo) / 2 + 1) hi
        else if id < middle then sortedContainsLoop arr id fuel lo (lo + (hi - lo) / 2)
        else true
    else false

/-- `u64_sorted_contains`. -/
def u64SortedContains (arr : List ℕ) (id : ℕ) : Bool :=
  sortedContainsLoop arr id arr.length 0 arr.length

/-- The loop that takes repeated ids out of sorted ones, behind the one taken last. -/
def uniqueBehind : (last : ℕ) → List ℕ → List ℕ
  | _, [] => []
  | last, id :: ids => if id ≠ last then id :: uniqueBehind id ids else uniqueBehind last ids

/-- `cat_ids`: of an empty catalog there is no array. -/
def uniqueIds : List ℕ → Option (List ℕ)
  | [] => none
  | id :: ids => some (id :: uniqueBehind id ids)

variable {α κ ρ : Type}

theorem collectBelow_perm (height : ℕ) (t : Tree α κ ρ height) :
    (collectBelow height t).Perm (records height t) := by
  induction height with
  | zero => rfl
  | succ height ih =>
    obtain ⟨a, es⟩ := t
    have hreverse : (es.reverse.flatMap fun e ↦ collectBelow height e.2).Perm
        (es.flatMap fun e ↦ collectBelow height e.2) := (List.reverse_perm es).flatMap_right _
    exact hreverse.trans (List.Perm.flatMap_left es fun e _ ↦ ih e.2)

theorem collectTree_perm (root : Root α κ ρ) : (collectTree root).Perm root.records := by
  cases root with
  | empty => rfl
  | node height t => exact collectBelow_perm height t

/-- Outside of the window nothing is the id. -/
structure OnlyInside (arr : List ℕ) (id lo hi : ℕ) : Prop where
  bound : hi ≤ arr.length
  below : ∀ i (h : i < arr.length), i < lo → arr[i] ≠ id
  above : ∀ i (h : i < arr.length), hi ≤ i → arr[i] ≠ id

variable {arr : List ℕ}

theorem OnlyInside.absent {id lo hi : ℕ} (hwindow : OnlyInside arr id lo hi) (hle : hi ≤ lo) :
    id ∉ arr := by
  intro hmem
  obtain ⟨i, hi', heq⟩ := List.getElem_of_mem hmem
  rcases Nat.lt_or_ge i lo with h | h
  · exact hwindow.below i hi' h heq
  · exact hwindow.above i hi' (hle.trans h) heq

theorem sortedContainsLoop_iff (hsorted : arr.Pairwise (· ≤ ·)) {id : ℕ} (fuel : ℕ) {lo hi : ℕ}
    (hfuel : hi - lo ≤ fuel) (hwindow : OnlyInside arr id lo hi) :
    sortedContainsLoop arr id fuel lo hi = true ↔ id ∈ arr := by
  induction fuel generalizing lo hi with
  | zero => simpa [sortedContainsLoop] using hwindow.absent (by omega)
  | succ fuel ih =>
    rw [sortedContainsLoop]
    split_ifs with hlt
    · have hmid : lo + (hi - lo) / 2 < arr.length := by
        have := hwindow.bound
        omega
      rw [List.getElem?_eq_getElem hmid]
      have hmono (i j : ℕ) (hj : j < arr.length) (hij : i ≤ j) : arr[i] ≤ arr[j] := by
        rcases Nat.eq_or_lt_of_le hij with rfl | hij
        · exact le_rfl
        · exact List.pairwise_iff_getElem.mp hsorted i j (hij.trans hj) hj hij
      dsimp only
      split_ifs with hless hmore
      · refine ih (by omega) ⟨hwindow.bound, fun i h hlo ↦ ?_, hwindow.above⟩
        exact ((hmono i _ hmid (by omega)).trans_lt hless).ne
      · refine ih (by omega) ⟨hmid.le, hwindow.below, fun i h hge ↦ ?_⟩
        exact (hmore.trans_le (hmono _ i h hge)).ne'
      · have heq : arr[lo + (hi - lo) / 2] = id := by omega
        simpa using heq ▸ List.getElem_mem hmid
    · simpa using hwindow.absent (by omega)

theorem u64SortedContains_iff (hsorted : arr.Pairwise (· ≤ ·)) {id : ℕ} :
    u64SortedContains arr id = true ↔ id ∈ arr :=
  sortedContainsLoop_iff hsorted _ le_rfl ⟨le_rfl, fun _ _ h ↦ absurd h (Nat.not_lt_zero _),
    fun _ h h' ↦ absurd h (Nat.not_lt.mpr h')⟩

theorem mem_uniqueBehind {id last : ℕ} (ids : List ℕ) :
    id ∈ last :: uniqueBehind last ids ↔ id ∈ last :: ids := by
  induction ids generalizing last with
  | nil => rfl
  | cons x xs ih =>
    rw [uniqueBehind]
    split_ifs with hx
    · rw [List.mem_cons, ih, ← List.mem_cons]
    · obtain rfl : x = last := not_not.mp hx
      rw [ih]
      simp

theorem uniqueBehind_pairwise {last : ℕ} {ids : List ℕ} (hsorted : (last :: ids).Pairwise (· ≤ ·)) :
    (last :: uniqueBehind last ids).Pairwise (· ≤ ·) := by
  have hsub : (last :: uniqueBehind last ids).Sublist (last :: ids) := by
    refine List.Sublist.cons_cons last ?_
    clear hsorted
    induction ids generalizing last with
    | nil => exact List.Sublist.refl _
    | cons x xs ih =>
      rw [uniqueBehind]
      split_ifs with hx
      · exact ih.cons_cons x
      · exact ih.cons x
  exact hsorted.sublist hsub

/-! ### The volume -/

/-- An inode record without its id and its link count. -/
structure InodeFields where
  uid : ℕ
  gid : ℕ
  mode : ℕ
  creationTime : ℕ
  modificationTime : ℕ
  accessTime : ℕ
  fileSize : ℕ
  extents : List ExtentRun
  fileType : ℕ
  sectorCount : ℕ
  sectorMapSize : ℕ
  deriving DecidableEq, Repr

abbrev CheckedInode := InodeEntry InodeFields

def kFileTypeDirectory : ℕ := 1

/-- Eight runs that are all zero. -/
def noExtents : List ExtentRun := List.replicate 8 ⟨0, 0, 0⟩

def checkedInodeTable : NameTable ℕ CheckedInode := ⟨InodeEntry.inodeId, 265, 16⟩

/-- What the phase knows of the volume. -/
structure CheckedNames where
  blockSize : ℕ
  catalog : CatalogTree
  inodes : Root Unit ℕ CheckedInode
  nextInodeId : ℕ

/-- The questions of the phase, answered. -/
structure CrossAnswers where
  relink : Bool
  deleteDangling : Bool
  setNextInodeId : Bool

/-- What the phase found, what it repaired and how many errors it counts as not repaired. -/
structure CrossReport where
  orphans : ℕ
  relinked : ℕ
  dangling : ℕ
  deleted : ℕ
  nextTooLow : Bool
  errors : ℕ
  deriving DecidableEq, Repr

def CrossReport.clean : CrossReport := ⟨0, 0, 0, 0, false, 0⟩

/-- `lost+found`. -/
def lostFoundName : Text := [108, 111, 115, 116, 43, 102, 111, 117, 110, 100]

/-- `inode_` with the id behind it. -/
def linkName (id : ℕ) : Text := [105, 110, 111, 100, 101, 95] ++ decimal id

namespace CheckedNames

/-- `obmafs3_catalog_lookup`. -/
def catalogLookup (st : CheckedNames) (key : CatalogKey) : Option CatalogRecord :=
  st.catalog.lookup catalogKey key

/-- `obmafs3_catalog_insert`. -/
def catalogInsert (st : CheckedNames) (record : CatalogRecord) : Except ErrorCode CheckedNames :=
  (catalogTable.put st.blockSize record st.catalog).map fun tree ↦ { st with catalog := tree }

/-- `obmafs3_catalog_delete`. -/
def catalogDelete (st : CheckedNames) (key : CatalogKey) : Except ErrorCode CheckedNames :=
  (catalogTable.delete key st.catalog).map fun tree ↦ { st with catalog := tree }

/-- `obmafs3_inode_get`. -/
def inodeGet (st : CheckedNames) (inodeId : ℕ) : Option CheckedInode :=
  st.inodes.lookup InodeEntry.inodeId inodeId

/-- `obmafs3_inode_put`. -/
def inodePut (st : CheckedNames) (inode : CheckedInode) : Except ErrorCode CheckedNames :=
  (checkedInodeTable.put st.blockSize inode st.inodes).map fun tree ↦ { st with inodes := tree }

/-- `obmafs3_alloc_inode_id`. -/
def allocInodeId (st : CheckedNames) : CheckedNames :=
  { st with nextInodeId := (st.nextInodeId + 1) % 2 ^ 64 }

/-! ### Orphans and dangling entries -/

/-- `cat_refs` after the sort. -/
def catalogRefs (st : CheckedNames) : List CatalogRecord :=
  (collectTree st.catalog).insertionSort fun a b ↦ a.inodeId ≤ b.inodeId

/-- `inode_ids` after the sort. -/
def inodeIds (st : CheckedNames) : List ℕ :=
  ((collectTree st.inodes).map InodeEntry.inodeId).insertionSort (· ≤ ·)

/-- The ids that no entry names, the root apart. They are looked for when both arrays are there. -/
def orphanIds (st : CheckedNames) : List ℕ :=
  match uniqueIds (st.catalogRefs.map CatalogRecord.inodeId) with
  | none => []
  | some catIds => st.inodeIds.filter fun id ↦ id ≠ rootInodeId ∧ ¬u64SortedContains catIds id

/-- The entries that name no inode. They are looked for when both arrays are there. -/
def danglingRefs (st : CheckedNames) : List CatalogRecord :=
  if st.inodeIds = [] then []
  else st.catalogRefs.filter fun e ↦ ¬u64SortedContains st.inodeIds e.inodeId

/-- The key of the directory for orphans. -/
def lostFoundKey : CatalogKey := toLex (rootInodeId, lostFoundName)

/-- The inode record that the phase makes for it. -/
def lostFoundInode (now id : ℕ) : CheckedInode :=
  ⟨id, 1, { uid := 0, gid := 0, mode := 0o755, creationTime := now, modificationTime := now
            accessTime := now, fileSize := 0, extents := noExtents, fileType := kFileTypeDirectory
            sectorCount := 0, sectorMapSize := 0 }⟩

/-- The directory for orphans: the inode that its entry names, or a new one. -/
def findLostFound (now : ℕ) (st : CheckedNames) : Option ℕ × CheckedNames :=
  match st.catalogLookup lostFoundKey with
  | some entry => (some entry.inodeId, st)
  | none =>
    let id := st.nextInodeId
    let st := st.allocInodeId
    match st.catalogInsert ⟨id, rootInodeId, true, lostFoundName⟩ with
    | .error _ => (none, st)
    | .ok st =>
      match st.inodePut (lostFoundInode now id) with
      | .error _ => (none, st)
      | .ok st => (some id, st)

/-- The entry for an orphan. -/
def linkEntry (lfInodeId id : ℕ) (body : InodeFields) : CatalogRecord :=
  ⟨id, lfInodeId, body.fileType = kFileTypeDirectory, linkName id⟩

/-- Link one orphan, and say whether its entry is there. -/
def linkOrphan (lfInodeId id : ℕ) (st : CheckedNames) : Bool × CheckedNames :=
  match st.inodeGet id with
  | none => (false, st)
  | some inode =>
    match st.catalogInsert (linkEntry lfInodeId id inode.body) with
    | .error _ => (false, st)
    | .ok st =>
      if inode.refCount = 0 then
        match st.inodePut { inode with refCount := 1 } with
        | .error _ => (true, st)
        | .ok st => (true, st)
      else (true, st)

/-- The loop over the orphans; `fixed` counts the entries made. -/
def linkOrphans (lfInodeId : ℕ) : List ℕ → ℕ → CheckedNames → ℕ × CheckedNames
  | [], fixed, st => (fixed, st)
  | id :: ids, fixed, st =>
    match st.linkOrphan lfInodeId id with
    | (linked, st) => linkOrphans lfInodeId ids (if linked then fixed + 1 else fixed) st

/-- Delete one entry, and say whether it was there. -/
def deleteEntry (e : CatalogRecord) (st : CheckedNames) : Bool × CheckedNames :=
  match st.catalogDelete (catalogKey e) with
  | .error _ => (false, st)
  | .ok st => (true, st)

/-- The loop over the dangling entries; `fixed` counts the deletions. -/
def deleteEntries : List CatalogRecord → ℕ → CheckedNames → ℕ × CheckedNames
  | [], fixed, st => (fixed, st)
  | e :: es, fixed, st =>
    match st.deleteEntry e with
    | (deleted, st) => deleteEntries es (if deleted then fixed + 1 else fixed) st

/-- The part for orphans: with `lost+found` there, all are linked except `lost+found` itself. -/
def relinkOrphans (now : ℕ) (orphans : List ℕ) (st : CheckedNames) : ℕ × CheckedNames :=
  match st.findLostFound now with
  | (none, st) => (0, st)
  | (some lfInodeId, st) => st.linkOrphans lfInodeId (orphans.filter (· ≠ lfInodeId)) 0

/-- `cross_check_inodes_catalog`. -/
def crossCheckInodesCatalog (answers : CrossAnswers) (now : ℕ) (st : CheckedNames) :
    CrossReport × CheckedNames :=
  let orphans := st.orphanIds
  let dangling := st.danglingRefs
  let (relinked, st) :=
    if orphans ≠ [] ∧ answers.relink then st.relinkOrphans now orphans else (0, st)
  let (deleted, st) :=
    if dangling ≠ [] ∧ answers.deleteDangling then st.deleteEntries dangling 0 else (0, st)
  ({ orphans := orphans.length, relinked := relinked
     dangling := dangling.length, deleted := deleted, nextTooLow := false
     errors := (if relinked = orphans.length then 0 else 1) +
      if deleted = dangling.length then 0 else 1 }, st)

/-- The comparison of `next_inode_id` with the highest id in use. -/
def validateNextInodeId (answers : CrossAnswers) (report : CrossReport) (st : CheckedNames) :
    CrossReport × CheckedNames :=
  let ids := (collectTree st.inodes).map InodeEntry.inodeId
  let maxId := ids.foldl max 0
  if ids ≠ [] ∧ st.nextInodeId ≤ maxId then
    if answers.setNextInodeId then
      ({ report with nextTooLow := true }, { st with nextInodeId := (maxId + 1) % 2 ^ 64 })
    else ({ report with nextTooLow := true, errors := report.errors + 1 }, st)
  else (report, st)

/-- The two checks of the phase. The first one needs both trees and the second one the inodes. -/
def crossReferences (answers : CrossAnswers) (now : ℕ) (st : CheckedNames) :
    CrossReport × CheckedNames :=
  let (report, st) :=
    if hasRoot st.catalog ∧ hasRoot st.inodes then st.crossCheckInodesCatalog answers now
    else (CrossReport.clean, st)
  if hasRoot st.inodes then st.validateNextInodeId answers report else (report, st)

end CheckedNames

end Obmafs3
