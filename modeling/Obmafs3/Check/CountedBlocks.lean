import Mathlib.Data.List.TakeWhile
import Obmafs3.Check.RefcountCheck

/-!
# What the checker counts

The map of expected counts is the number of runs that cover each block, as a `uint32_t`, among the
runs that the two walks reach. The stored counts are the records of the leaves that the third
reaches. A walk that reads every node reaches every record.
-/

set_option autoImplicit false

namespace Obmafs3.Recount

open Library.SortedMap Library.SearchTree

/-! ### Maps of counts -/

/-- The count of a map for a block. -/
def countOf (map : List LbaCount) (lba : ℕ) : Option ℕ :=
  (map.find? (LbaCount.lba · = lba)).map LbaCount.count

def Sorted (map : List LbaCount) : Prop := (map.map LbaCount.lba).Pairwise (· < ·)

/-- A map has the given counts, as far as a `uint32_t` can hold them. -/
structure Counts (map : List LbaCount) (counts : ℕ → ℕ) : Prop where
  sorted : Sorted map
  counts : ∀ lba, (countOf map lba).getD 0 = counts lba % 2 ^ 32

variable {map : List LbaCount} {counts : ℕ → ℕ}

theorem Counts.add (hmap : Counts map counts) (lba : ℕ) :
    Counts (lbaMapAdd map lba) fun other ↦ counts other + [lba].count other := by
  have hspec : Sorted (lbaMapAdd map lba) ∧ ∀ other,
      (lbaMapAdd map lba).find? (LbaCount.lba · = other) =
        if other = lba then some ((map.find? (LbaCount.lba · = lba)).elim ⟨lba, 1⟩
          fun e ↦ { e with count := (e.count + 1) % 2 ^ 32 })
        else map.find? (LbaCount.lba · = other) :=
    alter_spec hmap.sorted (fun _ ↦ rfl) rfl
  refine ⟨hspec.1, fun other ↦ ?_⟩
  have hcount := hmap.counts lba
  rw [countOf, hspec.2, List.count_singleton]
  split_ifs with heq heq' heq'
  · subst heq
    rw [countOf] at hcount
    cases hfind : map.find? (LbaCount.lba · = other) with
    | none =>
      simp only [hfind, Option.map_none, Option.getD_none] at hcount
      simp only [Option.elim_none, Option.map_some, Option.getD_some]
      omega
    | some e =>
      simp only [hfind, Option.map_some, Option.getD_some] at hcount
      simp only [Option.elim_some, Option.map_some, Option.getD_some]
      omega
  · exact absurd heq.symm (by simpa using heq')
  · exact absurd (by simpa using heq') (Ne.symm heq)
  · exact hmap.counts other

theorem Counts.foldl (hmap : Counts map counts) (blocks : List ℕ) :
    Counts (blocks.foldl lbaMapAdd map) fun lba ↦ counts lba + blocks.count lba := by
  induction blocks generalizing map counts with
  | nil => exact hmap
  | cons block blocks ih =>
    have hrest := ih (hmap.add block)
    refine ⟨hrest.sorted, fun lba ↦ (hrest.counts lba).trans (congrArg (· % 2 ^ 32) ?_)⟩
    rw [Nat.add_assoc, ← List.count_append, Nat.add_comm, Nat.add_comm (counts lba)]
    rfl

/-- A run covers a block. -/
def Covers (run : ExtentRun) (lba : ℕ) : Prop :=
  run.startBlock ≠ 0 ∧ run.startBlock ≤ lba ∧ lba < run.startBlock + run.blockCount

instance (run : ExtentRun) (lba : ℕ) : Decidable (Covers run lba) :=
  inferInstanceAs (Decidable (_ ∧ _))

/-- The number of runs of some records that cover a block. -/
def covering (records : List (List ExtentRun)) (lba : ℕ) : ℕ :=
  records.flatten.countP fun run ↦ Covers run lba

theorem count_runBlocks (run : ExtentRun) (lba : ℕ) :
    (runBlocks run).count lba = if Covers run lba then 1 else 0 := by
  rw [runBlocks]
  split_ifs with hnone hcovers hcovers
  · obtain ⟨hstart, hle, hlt⟩ := hcovers
    rcases hnone with h | h
    · omega
    · exact absurd h hstart
  · rfl
  · have hnodup : ((List.range run.blockCount).map (run.startBlock + ·)).Nodup :=
      List.nodup_range.map fun _ _ h ↦ Nat.add_left_cancel h
    refine List.count_eq_one_of_mem hnodup (List.mem_map.mpr ⟨lba - run.startBlock, ?_, ?_⟩)
    · exact List.mem_range.mpr (Nat.sub_lt_left_of_lt_add hcovers.2.1 hcovers.2.2)
    · exact Nat.add_sub_cancel' hcovers.2.1
  · refine List.count_eq_zero.mpr fun hmem ↦ hcovers ?_
    obtain ⟨b, hb, rfl⟩ := List.mem_map.mp hmem
    exact ⟨fun h ↦ hnone (Or.inr h), Nat.le_add_right _ _,
      Nat.add_lt_add_left (List.mem_range.mp hb) _⟩

theorem count_flatMap_runBlocks (runs : List ExtentRun) (lba : ℕ) :
    (runs.flatMap runBlocks).count lba = runs.countP fun run ↦ Covers run lba := by
  induction runs with
  | nil => rfl
  | cons run runs ih =>
    rw [List.flatMap_cons, List.count_append, count_runBlocks, ih, List.countP_cons, Nat.add_comm]
    simp only [decide_eq_true_eq]

theorem addRecords_eq (records : List (List ExtentRun)) (map : List LbaCount) :
    addRecords records map = (records.flatten.flatMap runBlocks).foldl lbaMapAdd map := by
  rw [addRecords, List.foldl_flatMap, List.foldl_flatten]

theorem addRecords_append (records records' : List (List ExtentRun)) (map : List LbaCount) :
    addRecords (records ++ records') map = addRecords records' (addRecords records map) :=
  List.foldl_append

theorem Counts.addRecords (hmap : Counts map counts) (records : List (List ExtentRun)) :
    Counts (addRecords records map) fun lba ↦ counts lba + covering records lba := by
  have hadded := hmap.foldl (records.flatten.flatMap runBlocks)
  rw [← addRecords_eq] at hadded
  refine ⟨hadded.sorted, fun lba ↦ (hadded.counts lba).trans ?_⟩
  rw [count_flatMap_runBlocks, covering]

/-! ### Walks over the inode and the overflow tree -/

/-- A tree of the records that hold runs. -/
abbrev ExtentRoot := Root ℕ Unit (List ExtentRun)

/-- The nodes on disk spell a tree. -/
def Spells (nodes : ℕ → ExtentNode) : (height : ℕ) → Tree ℕ Unit (List ExtentRun) height → Prop
  | 0, (a, records) => nodes a = .leaf records
  | height + 1, (a, es) =>
    nodes a = .index (es.map fun e ↦ label height e.2) ∧ ∀ e ∈ es, Spells nodes height e.2

/-- The nodes in the order of the walk, from right to left. -/
def nodeLbas : (height : ℕ) → Tree ℕ Unit (List ExtentRun) height → List ℕ
  | 0, (a, _) => [a]
  | height + 1, (a, es) => a :: es.reverse.flatMap fun e ↦ nodeLbas height e.2

/-- What is reached in parts that are walked one after the other, and whether all of it is. -/
def reachedAll : List (List (List ExtentRun) × Bool) → List (List ExtentRun) × Bool
  | [] => ([], true)
  | (records, whole) :: parts =>
    if whole then (records ++ (reachedAll parts).1, (reachedAll parts).2) else (records, false)

/-- The records that a walk from right to left reaches before the first node that cannot be read,
and whether there is none. -/
def reached (readable : ℕ → Bool) :
    (height : ℕ) → Tree ℕ Unit (List ExtentRun) height → List (List ExtentRun) × Bool
  | 0, (a, records) => if readable a then (records, true) else ([], false)
  | height + 1, (a, es) =>
    if readable a then reachedAll (es.reverse.map fun e ↦ reached readable height e.2)
    else ([], false)

variable {readable : ℕ → Bool} {nodes : ℕ → ExtentNode} {height : ℕ}

variable {t : Tree ℕ Unit (List ExtentRun) height}

/-- The walk over a part of the tree on top of the stack. -/
theorem collectExtents_tree (hspells : Spells nodes height t) (fuel : ℕ) (stack : List ℕ)
    (map : List LbaCount) :
    collectExtents readable nodes ((nodeLbas height t).length + fuel) (label height t :: stack) map =
      if (reached readable height t).2 then
        collectExtents readable nodes fuel stack (addRecords (reached readable height t).1 map)
      else addRecords (reached readable height t).1 map := by
  induction height generalizing fuel stack map with
  | zero =>
    obtain ⟨a, records⟩ := t
    have hnode : nodes a = .leaf records := hspells
    rw [reached, nodeLbas, List.length_singleton, Nat.add_comm, label_leaf, collectExtents, hnode]
    split_ifs with hreadable h h <;> first | rfl | simp at h
  | succ height ih =>
    obtain ⟨a, es⟩ := t
    obtain ⟨hnode, hchildren⟩ := hspells
    -- The children come off the stack from the last to the first.
    have hall (ts : List (Unit × Tree ℕ Unit (List ExtentRun) height))
        (hts : ∀ e ∈ ts, Spells nodes height e.2) (fuel : ℕ) (map : List LbaCount) :
        collectExtents readable nodes ((ts.flatMap fun e ↦ nodeLbas height e.2).length + fuel)
            (ts.map (fun e ↦ label height e.2) ++ stack) map =
          if (reachedAll (ts.map fun e ↦ reached readable height e.2)).2 then
            collectExtents readable nodes fuel stack
              (addRecords (reachedAll (ts.map fun e ↦ reached readable height e.2)).1 map)
          else addRecords (reachedAll (ts.map fun e ↦ reached readable height e.2)).1 map := by
      induction ts generalizing fuel map with
      | nil => simp [reachedAll, addRecords]
      | cons e ts iht =>
        rw [List.flatMap_cons, List.length_append, Nat.add_assoc, List.map_cons, List.cons_append,
          ih (hts e List.mem_cons_self), List.map_cons, reachedAll]
        cases hwhole : (reached readable height e.2).2 with
        | false => rfl
        | true =>
          simp only [if_true]
          rw [iht fun e he ↦ hts e (List.mem_cons_of_mem _ he), addRecords_append]
    rw [reached, nodeLbas, List.length_cons, Nat.add_right_comm, label_index, collectExtents, hnode]
    split_ifs with hreadable h h
    · simp only [← List.map_reverse]
      rw [hall es.reverse fun e he ↦ hchildren e (List.mem_reverse.mp he), if_pos h]
    · simp only [← List.map_reverse]
      rw [hall es.reverse fun e he ↦ hchildren e (List.mem_reverse.mp he), if_neg h]
    · simp at h
    · rfl

/-- A tree on disk. -/
structure TreeStored (nodes : ℕ → ExtentNode) (totalBlocks root height : ℕ)
    (t : Tree ℕ Unit (List ExtentRun) height) : Prop where
  label_eq : label height t = root
  nonzero : root ≠ 0
  spells : Spells nodes height t
  nodup : (nodeLbas height t).Nodup
  inside : ∀ lba ∈ nodeLbas height t, lba < totalBlocks

def ExtentStored (nodes : ℕ → ExtentNode) (totalBlocks root : ℕ) : ExtentRoot → Prop
  | .empty => root = 0
  | .node height t => TreeStored nodes totalBlocks root height t

/-- The records of a tree that a walk reaches. -/
def reachedRecords (readable : ℕ → Bool) : ExtentRoot → List (List ExtentRun)
  | .empty => []
  | .node height t => (reached readable height t).1

/-- All nodes of a tree can be read. -/
def NodesRead (readable : ℕ → Bool) : ExtentRoot → Prop
  | .empty => True
  | .node height t => ∀ lba ∈ nodeLbas height t, readable lba = true

theorem TreeStored.collect {totalBlocks root : ℕ}
    (hstored : TreeStored nodes totalBlocks root height t) (map : List LbaCount) :
    collectExtents readable nodes (totalBlocks + 1) [root] map =
      addRecords (reached readable height t).1 map := by
  have hle : (nodeLbas height t).length ≤ totalBlocks := by
    have hrange : nodeLbas height t ⊆ List.range totalBlocks :=
      fun lba hlba ↦ List.mem_range.mpr (hstored.inside lba hlba)
    exact (List.subperm_of_subset hstored.nodup hrange).length_le.trans_eq List.length_range
  obtain ⟨fuel, hfuel⟩ := Nat.exists_eq_add_of_le hle
  rw [hfuel, Nat.add_assoc, ← hstored.label_eq, collectExtents_tree hstored.spells]
  split_ifs <;> rfl

/-- A walk that reads every node reaches every record. -/
theorem reached_perm (hread : ∀ lba ∈ nodeLbas height t, readable lba = true) :
    (reached readable height t).2 = true ∧ (reached readable height t).1.Perm (records height t) := by
  induction height with
  | zero =>
    obtain ⟨a, rs⟩ := t
    rw [reached, if_pos (hread a (List.mem_singleton_self a))]
    exact ⟨rfl, List.Perm.refl _⟩
  | succ height ih =>
    obtain ⟨a, es⟩ := t
    have hall (ts : List (Unit × Tree ℕ Unit (List ExtentRun) height))
        (hts : ∀ e ∈ ts, ∀ lba ∈ nodeLbas height e.2, readable lba = true) :
        (reachedAll (ts.map fun e ↦ reached readable height e.2)).2 = true ∧
          (reachedAll (ts.map fun e ↦ reached readable height e.2)).1.Perm
            (ts.flatMap fun e ↦ records height e.2) := by
      induction ts with
      | nil => exact ⟨rfl, List.Perm.refl _⟩
      | cons e ts iht =>
        obtain ⟨hwhole, hperm⟩ := ih (hts e List.mem_cons_self)
        obtain ⟨hwholes, hperms⟩ := iht fun e he ↦ hts e (List.mem_cons_of_mem _ he)
        rw [List.map_cons, reachedAll, hwhole, if_pos rfl]
        exact ⟨hwholes, hperm.append hperms⟩
    have hchildren := hall es.reverse fun e he lba hlba ↦
      hread lba (List.mem_cons_of_mem _ (List.mem_flatMap.mpr ⟨e, he, hlba⟩))
    rw [reached, if_pos (hread a List.mem_cons_self)]
    exact ⟨hchildren.1, hchildren.2.trans ((List.reverse_perm es).flatMap_right _)⟩

theorem covering_perm {rs rs' : List (List ExtentRun)} (hperm : rs.Perm rs') (lba : ℕ) :
    covering rs lba = covering rs' lba :=
  hperm.flatten.countP_eq _

theorem NodesRead.covering_eq {root : ExtentRoot} (hread : NodesRead readable root) (lba : ℕ) :
    covering (reachedRecords readable root) lba = covering root.records lba := by
  cases root with
  | empty => rfl
  | node height t => exact covering_perm (reached_perm hread).2 lba

/-! ### The walk over the refcount tree -/

/-- The nodes on the way down to the first leaf. -/
def leftSpine : (height : ℕ) → Tree ℕ ℕ RefcountRecord height → List ℕ
  | 0, (a, _) => [a]
  | _ + 1, (a, []) => [a]
  | height + 1, (a, e :: _) => a :: leftSpine height e.2

/-- The records of the leaves before the first that cannot be read: none when the way down to them
cannot be. -/
def readRecords (readable : ℕ → Bool) : RefcountTree → List RefcountRecord
  | .empty => []
  | .node height t =>
    if ∀ lba ∈ leftSpine height t, readable lba = true then
      ((leaves height t).takeWhile fun leaf ↦ readable leaf.1).flatMap Prod.snd
    else []

def LbaCount.ofRecord (r : RefcountRecord) : LbaCount := ⟨r.lba, r.refCount⟩

section Refcounts

variable {v : CountVolume}

theorem refcountNode_eq {lba : ℕ} (hlt : lba < v.refcounts.vol.totalBlocks) : refcountNode v lba =
      if v.readable lba then refcountKind.view v.refcounts.toTreeCtx lba else none := by
  rw [refcountNode, Volume.blockRead, if_pos hlt]
  rfl

theorem firstLeafLba_spec {t : Tree ℕ ℕ RefcountRecord height} {fuel : ℕ} (hfuel : height < fuel)
    (hzero : refcountKind.view v.refcounts.toTreeCtx 0 = none)
    (hholds : Holds (refcountKind.view v.refcounts.toTreeCtx) height t) (hsolid : Solid height t)
    (hlt : ∀ lba ∈ nodesOf height t, lba < v.refcounts.vol.totalBlocks) :
    firstLeafLba (refcountNode v) fuel (label height t) =
      if ∀ lba ∈ leftSpine height t, v.readable lba = true then
        (leaves height t).head?.map Prod.fst
      else none := by
  have hnonzero : label height t ≠ 0 := holds_ne_zero hzero hholds (label_mem_nodesOf height t)
  have hlabel := refcountNode_eq (hlt _ (label_mem_nodesOf height t))
  induction height generalizing fuel with
  | zero =>
    obtain ⟨a, rs⟩ := t
    obtain ⟨fuel, rfl⟩ := Nat.exists_eq_add_one_of_ne_zero (Nat.ne_zero_of_lt hfuel)
    obtain ⟨left, right, hnode⟩ := contentAt_leaf hholds
    rw [firstLeafLba, if_neg hnonzero, hlabel, label_leaf, hnode]
    by_cases hread : v.readable a = true
    · simp [leftSpine, hread]
    · simp [leftSpine, hread]
  | succ height ih =>
    obtain ⟨a, es⟩ := t
    obtain ⟨fuel, rfl⟩ := Nat.exists_eq_add_one_of_ne_zero (Nat.ne_zero_of_lt hfuel)
    obtain ⟨hroot, hchildren⟩ := hholds
    obtain ⟨e, es, rfl⟩ := List.exists_cons_of_ne_nil hsolid.1
    obtain ⟨left, right, spare, hnode⟩ := contentAt_index hroot
    have hsub : ∀ lba ∈ nodesOf height e.2, lba < v.refcounts.vol.totalBlocks :=
      fun lba hlba ↦ hlt lba (nodesOf_child_subset List.mem_cons_self hlba)
    have hrec := ih (Nat.lt_of_succ_lt_succ hfuel) (hchildren e List.mem_cons_self)
      (hsolid.2 e List.mem_cons_self) hsub
      (holds_ne_zero hzero (hchildren e List.mem_cons_self) (label_mem_nodesOf height e.2))
      (refcountNode_eq (hsub _ (label_mem_nodesOf height e.2)))
    have hleaves : (leaves (height + 1) ((a, e :: es) : Tree ℕ ℕ RefcountRecord (height + 1))).head? =
        (leaves height e.2).head? := by
      have hne : leaves height e.2 ≠ [] := leaves_ne_nil (hsolid.2 e List.mem_cons_self)
      obtain ⟨l, ls, hl⟩ := List.exists_cons_of_ne_nil hne
      rw [leaves_index, List.flatMap_cons, hl]
      rfl
    rw [firstLeafLba, if_neg hnonzero, hlabel, label_index, hnode, hleaves]
    by_cases hread : v.readable a = true
    · rw [if_pos hread]
      simp only [childLba, List.map_cons, List.getElem?_cons_zero, Option.some_or]
      rw [hrec]
      simp only [leftSpine, List.forall_mem_cons, hread, true_and]
    · rw [if_neg hread]
      simp only [leftSpine, List.forall_mem_cons, hread]
      rw [if_neg fun h ↦ absurd h.1 Bool.false_ne_true]

theorem readChain_spec {prev fuel : ℕ} {ls : List (ℕ × List RefcountRecord)}
    (hfuel : ls.length < fuel) (hzero : refcountKind.view v.refcounts.toTreeCtx 0 = none)
    (hlinked : Linked (refcountKind.view v.refcounts.toTreeCtx) prev (ls.map Prod.fst))
    (hcontent : ∀ l ∈ ls,
      contentAt (refcountKind.view v.refcounts.toTreeCtx) l.1 = some (.inl l.2))
    (hlt : ∀ l ∈ ls, l.1 < v.refcounts.vol.totalBlocks) :
    readChain (refcountNode v) fuel ((ls.map Prod.fst).headD 0) =
      ((ls.takeWhile fun leaf ↦ v.readable leaf.1).flatMap Prod.snd).map LbaCount.ofRecord := by
  induction ls generalizing prev fuel with
  | nil =>
    obtain ⟨fuel, rfl⟩ := Nat.exists_eq_add_one_of_ne_zero (Nat.ne_zero_of_lt hfuel)
    rfl
  | cons l ls ih =>
    obtain ⟨fuel, rfl⟩ := Nat.exists_eq_add_one_of_ne_zero (Nat.ne_zero_of_lt hfuel)
    obtain ⟨lba, records⟩ := l
    obtain ⟨⟨node, hnode, -, hright⟩, hrest⟩ := hlinked
    obtain ⟨left, right, hleaf⟩ := contentAt_leaf (hcontent (lba, records) List.mem_cons_self)
    obtain rfl : node = .leaf left right records := Option.some.inj (hnode.symm.trans hleaf)
    obtain rfl : right = (ls.map Prod.fst).headD 0 := hright
    have hne : lba ≠ 0 := by
      rintro rfl
      rw [hzero] at hleaf
      cases hleaf
    rw [List.map_cons, List.headD_cons, readChain, if_neg hne,
      refcountNode_eq (hlt (lba, records) List.mem_cons_self)]
    by_cases hread : v.readable lba = true
    · have htake : ((lba, records) :: ls).takeWhile (fun leaf ↦ v.readable leaf.1) =
          (lba, records) :: ls.takeWhile fun leaf ↦ v.readable leaf.1 :=
        List.takeWhile_cons_of_pos hread
      rw [if_pos hread, hleaf, htake, List.flatMap_cons, List.map_append,
        ← ih (Nat.lt_of_succ_lt_succ hfuel) hrest (fun l hl ↦ hcontent l (List.mem_cons_of_mem _ hl))
          fun l hl ↦ hlt l (List.mem_cons_of_mem _ hl)]
      rfl
    · have htake : ((lba, records) :: ls).takeWhile (fun leaf ↦ v.readable leaf.1) = [] :=
        List.takeWhile_cons_of_neg hread
      rw [if_neg hread, htake]
      rfl

variable {root : RefcountTree}

/-- Phase 2 collects the records that can be read. -/
theorem storedCounts_eq {used : Set ℕ} (hstored : RefcountStored used v.refcounts root) :
    storedCounts v = (readRecords v.readable root).map LbaCount.ofRecord := by
  have hzero := hstored.stored.toReady.zero_view
  rw [storedCounts]
  cases root with
  | empty =>
    have hroot : v.refcounts.hdr.rootNodeLba = 0 := hstored.stored.root_lba
    rw [hroot, firstLeafLba, if_pos rfl]
    rfl
  | node height t =>
    obtain ⟨hroot, -, hholds, hsolid, hlt⟩ := hstored.stored.reads
    obtain ⟨hlinked, hbound, hlength⟩ := hstored.stored.leaves_linked
    obtain ⟨l, ls, hl⟩ := List.exists_cons_of_ne_nil (leaves_ne_nil hsolid)
    have hchain := readChain_spec (Nat.lt_succ_of_le hlength) hzero hlinked
      (fun l hl ↦ (hholds.mem_leaves.mp hl).2) hbound
    rw [hroot, firstLeafLba_spec (Nat.lt_succ_of_lt (height_lt hholds hsolid hlt)) hzero hholds hsolid
      hlt, readRecords]
    split_ifs with hspine
    · rw [← hchain, hl]
      rfl
    · rfl

/-- What is read is where the records begin. -/
theorem readRecords_prefix (root : RefcountTree) : readRecords readable root <+: root.records := by
  cases root with
  | empty => exact List.prefix_refl _
  | node height t =>
    rw [readRecords]
    split_ifs
    · obtain ⟨rest, hrest⟩ := List.takeWhile_prefix (l := leaves height t) fun leaf ↦ readable leaf.1
      refine ⟨rest.flatMap Prod.snd, ?_⟩
      rw [← List.flatMap_append, hrest]
      exact leaves_records height t
    · exact List.nil_prefix

theorem leftSpine_subset (t : Tree ℕ ℕ RefcountRecord height) {lba : ℕ}
    (hlba : lba ∈ leftSpine height t) : lba ∈ nodesOf height t := by
  induction height with
  | zero =>
    obtain ⟨a, rs⟩ := t
    obtain rfl := List.mem_singleton.mp hlba
    exact label_mem_nodesOf 0 _
  | succ height ih =>
    obtain ⟨a, es⟩ := t
    cases es with
    | nil =>
      obtain rfl := List.mem_singleton.mp hlba
      exact label_mem_nodesOf (height + 1) _
    | cons e es =>
      rcases List.mem_cons.mp hlba with rfl | hlba
      · exact label_mem_nodesOf (height + 1) _
      · exact nodesOf_child_subset List.mem_cons_self (ih e.2 hlba)

/-- A walk that can read every node reads every record. -/
theorem readRecords_eq (hread : ∀ lba ∈ rootNodes root, readable lba = true) :
    readRecords readable root = root.records := by
  cases root with
  | empty => rfl
  | node height t =>
    have hleaves : (leaves height t).takeWhile (fun leaf ↦ readable leaf.1) = leaves height t := by
      refine List.takeWhile_eq_self_iff.mpr fun l hl ↦ hread l.1 ⟨0, Nat.zero_le _, ?_⟩
      rw [row_zero]
      exact List.mem_map_of_mem hl
    rw [readRecords, if_pos fun lba hlba ↦ hread lba (leftSpine_subset t hlba), hleaves]
    exact leaves_records height t

end Refcounts

end Obmafs3.Recount
