import Obmafs3.Check.CountedBlocks
import Obmafs3.Refcounts.Refused

/-!
# The checker repairs the reference counts

A mismatch is reported for a block that more than one of the reached runs cover, when it has another
count or none among the records that were read, and for a block that at most one of them covers, when
it has a record. `verifyRefcountTree_repairs` says when the updates make every count right, and, where
a node could not be read, when none of them takes a reference away that is there.
-/

set_option autoImplicit false

namespace Obmafs3.Recount

open Library.SortedMap Library.SearchTree

/-! ### The comparison -/

section Comparison

variable {expected stored : List LbaCount} {lba : ℕ}

theorem countOf_of_mem (hsorted : Sorted stored) {s : LbaCount} (hs : s ∈ stored) :
    countOf stored s.lba = some s.count := by
  obtain ⟨i, hi, rfl⟩ := List.getElem_of_mem hs
  rw [countOf, find?_eq_getElem? hsorted (List.getElem?_eq_getElem hi)]
  rfl

theorem mem_of_countOf {count : ℕ} (hcount : countOf stored lba = some count) :
    ⟨lba, count⟩ ∈ stored := by
  obtain ⟨s, hfind, rfl⟩ := Option.map_eq_some_iff.mp hcount
  obtain rfl : s.lba = lba := by simpa using List.find?_some hfind
  exact List.mem_of_find?_eq_some hfind

theorem countOf_eq_none (hsorted : Sorted stored) :
    countOf stored lba = none ↔ lbaMapFind stored lba = none :=
  Option.map_eq_none_iff.trans (findIndex_eq_none hsorted).symm

theorem countOf_found (hsorted : Sorted stored) {i : ℕ} (hfind : lbaMapFind stored lba = some i) :
    stored[i]?.map LbaCount.count = countOf stored lba :=
  congrArg (Option.map LbaCount.count) (getElem?_findIndex hsorted hfind)

theorem actualCount_eq (hsorted : Sorted expected) (lba : ℕ) :
    actualCount expected lba = (countOf expected lba).getD 0 := by
  rw [actualCount]
  cases hfind : lbaMapFind expected lba with
  | none => rw [(countOf_eq_none hsorted).mpr hfind, Option.getD_none]
  | some i => rw [← countOf_found hsorted hfind]

/-- A stored count that was looked at is zero. -/
theorem countOf_marked (hsorted : Sorted stored) {i : ℕ} (hfind : lbaMapFind stored lba = some i) :
    Sorted (stored.modify i fun s ↦ { s with count := 0 }) ∧
      ∀ other, countOf (stored.modify i fun s ↦ { s with count := 0 }) other =
        if other = lba then (countOf stored lba).map fun _ ↦ 0 else countOf stored other := by
  have hspec : (stored.modify i fun s ↦ { s with count := 0 }).map LbaCount.lba =
      stored.map LbaCount.lba ∧ ∀ other,
        (stored.modify i fun s ↦ { s with count := 0 }).find? (LbaCount.lba · = other) =
          if other = lba then (stored.find? (LbaCount.lba · = lba)).map fun s ↦ { s with count := 0 }
          else stored.find? (LbaCount.lba · = other) :=
    modify_spec hsorted hfind fun _ ↦ rfl
  refine ⟨?_, fun other ↦ ?_⟩
  · rw [Sorted, hspec.1]
    exact hsorted
  · rw [countOf, hspec.2]
    split_ifs with hother
    · rw [countOf, Option.map_map, Option.map_map]
      rfl
    · rfl

/-- What phase 3a reports, and what it leaves of the stored counts. -/
theorem checkShared_spec (hexpected : Sorted expected) (hstored : Sorted stored) :
    (∀ u, u ∈ (checkShared expected stored).1 ↔
      u ∈ expected ∧ 1 < u.count ∧ countOf stored u.lba ≠ some u.count) ∧
    Sorted (checkShared expected stored).2 ∧
    ∀ lba, (∀ e ∈ expected, 1 < e.count → e.lba ≠ lba) →
      countOf (checkShared expected stored).2 lba = countOf stored lba := by
  induction expected generalizing stored with
  | nil => exact ⟨fun u ↦ by simp [checkShared], hstored, fun _ _ ↦ rfl⟩
  | cons e expected ih =>
    obtain ⟨hfirst, hrest⟩ := List.pairwise_cons.mp hexpected
    have hne (u : LbaCount) (hu : u ∈ expected) : u.lba ≠ e.lba :=
      (hfirst _ (List.mem_map_of_mem hu)).ne'
    rw [checkShared]
    split_ifs with hcount
    · obtain ⟨hmem, hsorted, hkept⟩ := ih hrest hstored
      refine ⟨fun u ↦ ?_, hsorted, fun lba hlba ↦ hkept lba fun e he ↦
        hlba e (List.mem_cons_of_mem _ he)⟩
      rw [hmem, List.mem_cons]
      refine ⟨fun h ↦ ⟨Or.inr h.1, h.2⟩, fun ⟨hu, h⟩ ↦ ⟨hu.resolve_left ?_, h⟩⟩
      rintro rfl
      exact hcount.not_gt h.1
    · cases hfind : lbaMapFind stored e.lba with
      | none =>
        obtain ⟨hmem, hsorted, hkept⟩ := ih hrest hstored
        have hnone := (countOf_eq_none hstored).mpr hfind
        refine ⟨fun u ↦ ?_, hsorted, fun lba hlba ↦ hkept lba fun e he ↦
          hlba e (List.mem_cons_of_mem _ he)⟩
        rw [List.mem_cons, List.mem_cons, hmem]
        constructor
        · rintro (rfl | h)
          · exact ⟨Or.inl rfl, not_le.mp hcount, by rw [hnone]; simp⟩
          · exact ⟨Or.inr h.1, h.2⟩
        · rintro ⟨rfl | hu, h⟩
          · exact Or.inl rfl
          · exact Or.inr ⟨hu, h⟩
      | some i =>
        obtain ⟨hmarked, hcounts⟩ := countOf_marked hstored hfind
        obtain ⟨hmem, hsorted, hkept⟩ := ih hrest hmarked
        have hmem' (u : LbaCount) : u ∈ (checkShared expected
            (stored.modify i fun s ↦ { s with count := 0 })).1 ↔
              u ∈ expected ∧ 1 < u.count ∧ countOf stored u.lba ≠ some u.count := by
          rw [hmem]
          refine and_congr_right fun hu ↦ ?_
          rw [hcounts, if_neg (hne u hu)]
        refine ⟨fun u ↦ ?_, hsorted, fun lba hlba ↦ ?_⟩
        · simp only [countOf_found hstored hfind]
          split_ifs with hsame
          · rw [hmem', List.mem_cons]
            refine ⟨fun h ↦ ⟨Or.inr h.1, h.2⟩, fun ⟨hu, h⟩ ↦ ⟨hu.resolve_left ?_, h⟩⟩
            rintro rfl
            exact h.2 hsame
          · rw [List.mem_cons, List.mem_cons, hmem']
            constructor
            · rintro (rfl | h)
              · exact ⟨Or.inl rfl, not_le.mp hcount, hsame⟩
              · exact ⟨Or.inr h.1, h.2⟩
            · rintro ⟨rfl | hu, h⟩
              · exact Or.inl rfl
              · exact Or.inr ⟨hu, h⟩
        · have hother : lba ≠ e.lba := (hlba e List.mem_cons_self (not_le.mp hcount)).symm
          exact (hkept lba fun e he ↦ hlba e (List.mem_cons_of_mem _ he)).trans
            ((hcounts lba).trans (if_neg hother))

variable {u : LbaCount}

/-- What phase 3b reports. -/
theorem mem_checkStale (hexpected : Sorted expected) (hstored : Sorted stored) :
    u ∈ checkStale expected stored ↔ u.count = 1 ∧ (countOf expected u.lba).getD 0 ≤ 1 ∧
      ∃ count, count ≠ 0 ∧ countOf stored u.lba = some count := by
  rw [checkStale, List.mem_filterMap]
  constructor
  · rintro ⟨s, hs, hu⟩
    split_ifs at hu with hzero hactual
    obtain rfl := Option.some.inj hu
    rw [actualCount_eq hexpected] at hactual
    exact ⟨rfl, hactual, s.count, hzero, countOf_of_mem hstored hs⟩
  · rintro ⟨hcount, hactual, count, hzero, hfound⟩
    refine ⟨⟨u.lba, count⟩, mem_of_countOf hfound, ?_⟩
    rw [if_neg hzero, actualCount_eq hexpected, if_pos hactual, ← hcount]

/-- The mismatches of a volume: of the shared blocks and of those that are not. -/
theorem mem_mismatches {v : CountVolume} {counts : ℕ → ℕ} (hroot : v.inodeRoot ≠ 0)
    (hexpected : Counts (expectedCounts v) counts) (hstored : Sorted (storedCounts v)) :
    u ∈ mismatches v ↔ 1 < counts u.lba % 2 ^ 32 ∧ u.count = counts u.lba % 2 ^ 32 ∧
        countOf (storedCounts v) u.lba ≠ some (counts u.lba % 2 ^ 32) ∨
      counts u.lba % 2 ^ 32 ≤ 1 ∧ u.count = 1 ∧
        ∃ count, count ≠ 0 ∧ countOf (storedCounts v) u.lba = some count := by
  obtain ⟨hmem, hsorted, hkept⟩ := checkShared_spec hexpected.sorted hstored
  have hentry {e : LbaCount} (he : e ∈ expectedCounts v) : e.count = counts e.lba % 2 ^ 32 := by
    rw [← hexpected.counts, countOf_of_mem hexpected.sorted he, Option.getD_some]
  rw [mismatches, if_neg hroot, List.mem_append, hmem, mem_checkStale hexpected.sorted hsorted,
    hexpected.counts]
  refine or_congr ⟨fun ⟨hu, hcount, hne⟩ ↦ ?_, fun ⟨hcount, hu, hne⟩ ↦ ?_⟩ ?_
  · rw [← hentry hu]
    exact ⟨hcount, rfl, hne⟩
  · have hvalue := hexpected.counts u.lba
    rw [← hu] at hvalue hcount hne
    cases hfound : countOf (expectedCounts v) u.lba with
    | none =>
      rw [hfound, Option.getD_none] at hvalue
      omega
    | some count =>
      rw [hfound, Option.getD_some] at hvalue
      subst hvalue
      exact ⟨mem_of_countOf hfound, hcount, hne⟩
  · refine ⟨fun ⟨hu, hcount, h⟩ ↦ ⟨hcount, hu, ?_⟩, fun ⟨hcount, hu, h⟩ ↦ ⟨hu, hcount, ?_⟩⟩
    all_goals
      have hsame := hkept u.lba fun e he hlt heq ↦ by
        rw [hentry he, heq] at hlt
        omega
      first | rwa [hsame] at h | rwa [hsame]

end Comparison

/-! ### The trees of a volume -/

/-- The three trees that the check reads. -/
structure Checked (v : CountVolume) (inodes overflow : ExtentRoot) (used : Set ℕ)
    (root : RefcountTree) : Prop where
  inodes : ExtentStored v.inodeNodes v.refcounts.vol.totalBlocks v.inodeRoot inodes
  overflow : ExtentStored v.overflowNodes v.refcounts.vol.totalBlocks v.overflowRoot overflow
  stored : RefcountStored used v.refcounts root
  ordered : root.Ordered RefcountRecord.lba
  formatted : Formatted v.refcounts.vol

/-- The number of runs that cover a block. -/
def covered (inodes overflow : ExtentRoot) (lba : ℕ) : ℕ :=
  covering inodes.records lba + covering overflow.records lba

/-- The number of those that the walks reach before a node that cannot be read, as a `uint32_t`. -/
def reachedCount (readable : ℕ → Bool) (inodes overflow : ExtentRoot) (lba : ℕ) : ℕ :=
  (covering (reachedRecords readable inodes) lba +
    covering (reachedRecords readable overflow) lba) % 2 ^ 32

/-- Every node of the three trees can be read. -/
structure AllRead (readable : ℕ → Bool) (inodes overflow : ExtentRoot) (root : RefcountTree) :
    Prop where
  inodes : NodesRead readable inodes
  overflow : NodesRead readable overflow
  refcounts : ∀ lba ∈ rootNodes root, readable lba = true

variable {v : CountVolume} {inodes overflow : ExtentRoot} {used : Set ℕ} {root : RefcountTree}

theorem Checked.expected (hv : Checked v inodes overflow used root) (hroot : v.inodeRoot ≠ 0) :
    Counts (expectedCounts v) fun lba ↦ covering (reachedRecords v.readable inodes) lba +
      covering (reachedRecords v.readable overflow) lba := by
  have hempty : Counts [] fun _ ↦ 0 := ⟨List.Pairwise.nil, fun _ ↦ rfl⟩
  have hinodes := hv.inodes
  have hoverflow := hv.overflow
  rw [expectedCounts]
  cases inodes with
  | empty => exact absurd hinodes hroot
  | node height t =>
    have hinline := hempty.addRecords (reached v.readable height t).1
    simp only [Nat.zero_add] at hinline
    simp only [TreeStored.collect hinodes, reachedRecords]
    cases overflow with
    | empty =>
      have hnone : v.overflowRoot = 0 := hoverflow
      rw [if_neg (not_not.mpr hnone)]
      exact hinline
    | node height' t' =>
      rw [if_pos (TreeStored.nonzero hoverflow), TreeStored.collect hoverflow]
      exact hinline.addRecords (reached v.readable height' t').1

theorem Root.records_sorted (hordered : root.Ordered RefcountRecord.lba) :
    (root.records.map RefcountRecord.lba).Pairwise (· < ·) := by
  cases root with
  | empty => exact List.Pairwise.nil
  | node height t => exact Ordered.records_pairwise hordered

section

variable (hv : Checked v inodes overflow used root)
include hv

theorem Checked.read_sorted :
    ((readRecords v.readable root).map RefcountRecord.lba).Pairwise (· < ·) := by
  have hbegins : readRecords v.readable root <+: root.records := readRecords_prefix root
  exact (Root.records_sorted hv.ordered).sublist (hbegins.sublist.map RefcountRecord.lba)

theorem Checked.stored_sorted : Sorted (storedCounts v) := by
  rw [Sorted, storedCounts_eq hv.stored, List.map_map]
  exact hv.read_sorted

/-- The stored count of a block is that of its record, if it was read. -/
theorem Checked.countOf_stored (lba : ℕ) : countOf (storedCounts v) lba =
      if lba ∈ (readRecords v.readable root).map RefcountRecord.lba then heldCount root lba
      else none := by
  have hfind : countOf (storedCounts v) lba =
      ((readRecords v.readable root).find? (RefcountRecord.lba · = lba)).map
        RefcountRecord.refCount := by
    rw [countOf, storedCounts_eq hv.stored, List.find?_map, Option.map_map]
    rfl
  rw [hfind]
  split_ifs with hmem
  · obtain ⟨r, hr, rfl⟩ := List.mem_map.mp hmem
    have hbegins : readRecords v.readable root <+: root.records := readRecords_prefix root
    obtain ⟨i, hi⟩ := List.mem_iff_getElem?.mp hr
    obtain ⟨j, hj⟩ := List.mem_iff_getElem?.mp (hbegins.subset hr)
    rw [find?_eq_getElem? hv.read_sorted hi, heldCount, Root.lookup_eq hv.ordered,
      find?_eq_getElem? (Root.records_sorted hv.ordered) hj]
  · rw [find?_none_of_ne fun r hr h ↦ hmem (List.mem_map.mpr ⟨r, hr, h⟩)]
    rfl

end

theorem AllRead.countOf_stored (hall : AllRead v.readable inodes overflow root)
    (hv : Checked v inodes overflow used root) (lba : ℕ) :
    countOf (storedCounts v) lba = heldCount root lba := by
  rw [hv.countOf_stored, readRecords_eq hall.refcounts]
  split_ifs with hmem
  · rfl
  · rw [heldCount, Root.lookup_eq hv.ordered,
      find?_none_of_ne fun r hr h ↦ hmem (List.mem_map.mpr ⟨r, hr, h⟩)]
    rfl

theorem AllRead.reachedCount_eq (hall : AllRead v.readable inodes overflow root) (lba : ℕ) :
    reachedCount v.readable inodes overflow lba = covered inodes overflow lba % 2 ^ 32 := by
  rw [reachedCount, hall.inodes.covering_eq, hall.overflow.covering_eq, covered]

/-- The mismatches, by the runs that are reached and the records that are read. -/
theorem Checked.mem_mismatches (hv : Checked v inodes overflow used root) (hroot : v.inodeRoot ≠ 0)
    {u : LbaCount} :
    u ∈ mismatches v ↔ 1 < reachedCount v.readable inodes overflow u.lba ∧
        u.count = reachedCount v.readable inodes overflow u.lba ∧
        countOf (storedCounts v) u.lba ≠ some (reachedCount v.readable inodes overflow u.lba) ∨
      reachedCount v.readable inodes overflow u.lba ≤ 1 ∧ u.count = 1 ∧
        ∃ count, count ≠ 0 ∧ countOf (storedCounts v) u.lba = some count :=
  Recount.mem_mismatches hroot (hv.expected hroot) hv.stored_sorted

/-! ### The updates -/

theorem applyUpdates_le (updates : List LbaCount) (ctx : RefcountCtx) :
    (applyUpdates updates ctx).2 ≤ updates.length := by
  induction updates generalizing ctx with
  | nil => exact le_rfl
  | cons u updates ih =>
    rw [applyUpdates]
    cases refcountSet u.lba u.count ctx with
    | ok a ctx' => exact Nat.succ_le_succ (ih ctx')
    | error e ctx' => exact (ih ctx').trans (Nat.le_succ _)

/-- The calls of the updates. -/
def updateCalls (updates : List LbaCount) : List RefcountCall :=
  updates.map fun u ↦ .set u.lba u.count

variable {updates : List LbaCount}

theorem runCalls_of_applyUpdates {ctx : RefcountCtx}
    (hall : (applyUpdates updates ctx).2 = updates.length) :
    runCalls (updateCalls updates) ctx = .ok () (applyUpdates updates ctx).1 := by
  induction updates generalizing ctx with
  | nil => rfl
  | cons u updates ih =>
    rw [applyUpdates] at hall ⊢
    rw [updateCalls, List.map_cons, runCalls]
    cases hset : refcountSet u.lba u.count ctx with
    | ok a ctx' =>
      rw [hset] at hall
      have hrun : (RefcountCall.set u.lba u.count).run ctx = .ok () ctx' := hset
      rw [bind_ok hrun]
      exact ih (Nat.succ.inj hall)
    | error e ctx' =>
      rw [hset] at hall
      have hle := applyUpdates_le updates ctx'
      simp only [List.length_cons] at hall
      omega

variable {held : ℕ → Option ℕ} {lba count : ℕ}

theorem foldl_record_of_ne {lba : ℕ} (hne : ∀ u ∈ updates, u.lba ≠ lba) :
    (updateCalls updates).foldl RefcountCall.record held lba = held lba := by
  induction updates generalizing held with
  | nil => rfl
  | cons u updates ih =>
    have hu : lba ≠ u.lba := (hne u List.mem_cons_self).symm
    rw [updateCalls, List.map_cons, List.foldl_cons]
    exact (ih fun w hw ↦ hne w (List.mem_cons_of_mem u hw)).trans (Function.update_of_ne hu _ _)

/-- Updates that agree on a block leave its record with their count. -/
theorem foldl_record_of_mem (hagree : ∀ u ∈ updates, u.lba = lba → u.count = count)
    (hmem : ∃ u ∈ updates, u.lba = lba) :
    (updateCalls updates).foldl RefcountCall.record held lba =
      if count ≤ 1 then none else some count := by
  induction updates generalizing held with
  | nil => simp at hmem
  | cons u updates ih =>
    rw [updateCalls, List.map_cons, List.foldl_cons]
    by_cases hlater : ∃ w ∈ updates, w.lba = lba
    · exact ih (fun w hw ↦ hagree w (List.mem_cons_of_mem u hw)) hlater
    · have hu : u.lba = lba := by
        obtain ⟨w, hw, hwlba⟩ := hmem
        rcases List.mem_cons.mp hw with rfl | hw
        · exact hwlba
        · exact absurd ⟨w, hw, hwlba⟩ hlater
      refine (foldl_record_of_ne fun w hw h ↦ hlater ⟨w, hw, h⟩).trans ?_
      rw [RefcountCall.record, ← hu, Function.update_self, hagree u List.mem_cons_self hu]

/-- The records after all updates: of the shared blocks with their number of runs, and those of
count zero that were there, of which the check takes no notice. -/
theorem AllRead.held_after (hall : AllRead v.readable inodes overflow root)
    (hv : Checked v inodes overflow used root) (hroot : v.inodeRoot ≠ 0) (lba : ℕ) :
    (updateCalls (mismatches v)).foldl RefcountCall.record (heldCount root) lba =
      if 1 < covered inodes overflow lba % 2 ^ 32 then some (covered inodes overflow lba % 2 ^ 32)
      else if heldCount root lba = some 0 then some 0 else none := by
  have hmem (u : LbaCount) := hv.mem_mismatches (u := u) hroot
  simp only [hall.reachedCount_eq, hall.countOf_stored hv] at hmem
  by_cases hupdated : ∃ u ∈ mismatches v, u.lba = lba
  · obtain ⟨u, hu, rfl⟩ := hupdated
    have hagree (count : ℕ) (hcount : ∀ w ∈ mismatches v, w.lba = u.lba → w.count = count) :
        (updateCalls (mismatches v)).foldl RefcountCall.record (heldCount root) u.lba =
          if count ≤ 1 then none else some count := foldl_record_of_mem hcount ⟨u, hu, rfl⟩
    rcases (hmem u).mp hu with ⟨hshared, -, -⟩ | ⟨hle, -, count, hzero, hheld⟩
    · rw [hagree (covered inodes overflow u.lba % 2 ^ 32) fun w hw hwlba ↦ ?_, if_pos hshared,
        if_neg (not_le.mpr hshared)]
      rcases (hmem w).mp hw with h | h
      · exact hwlba ▸ h.2.1
      · exact absurd (hwlba ▸ hshared) (not_lt.mpr h.1)
    · rw [hagree 1 fun w hw hwlba ↦ ?_, if_pos le_rfl, if_neg (not_lt.mpr hle),
        if_neg fun h ↦ hzero (Option.some.inj (hheld.symm.trans h))]
      rcases (hmem w).mp hw with h | h
      · exact absurd (hwlba ▸ h.1) (not_lt.mpr hle)
      · exact h.2.1
  · rw [foldl_record_of_ne fun u hu h ↦ hupdated ⟨u, hu, h⟩]
    have hnot (count : ℕ) := (hmem ⟨lba, count⟩).not.mp fun h ↦ hupdated ⟨_, h, rfl⟩
    split_ifs with hshared hzero
    · by_contra hne
      exact hnot (covered inodes overflow lba % 2 ^ 32) (Or.inl ⟨hshared, rfl, hne⟩)
    · exact hzero
    · refine Option.eq_none_iff_forall_ne_some.mpr fun count hheld ↦ hnot 1 (Or.inr ?_)
      exact ⟨not_lt.mp hshared, rfl, count, fun h ↦ hzero (h ▸ hheld), hheld⟩

/-! ### The repair -/

/-- Every count is the number of runs that cover the block, and at least one, and a second run that
can read the table has nothing to report. -/
def Repaired (v v' : CountVolume) (inodes overflow : ExtentRoot) : Prop :=
  (∀ lba, ∃ ctx, refcountGet lba v'.refcounts = .ok (max 1 (covered inodes overflow lba)) ctx) ∧
    ∃ used root, Checked v' inodes overflow used root ∧
      (AllRead v.readable inodes overflow root → (verifyRefcountTree v').2.1 = 0)

/-- The table has no record of count zero for a block that is not shared, and no block is covered by
more runs than a `uint32_t` can count. An inode tree without a root is not checked: the counts are
right as they stand. -/
def Countable (v : CountVolume) (inodes overflow : ExtentRoot) (root : RefcountTree) : Prop :=
  if v.inodeRoot = 0 then ∀ lba, rootCount root lba = max 1 (covered inodes overflow lba)
  else ∀ lba, covered inodes overflow lba < 2 ^ 32 ∧
    (covered inodes overflow lba ≤ 1 → heldCount root lba ≠ some 0)

/-- An update takes references away that runs have. -/
def Harms (inodes overflow : ExtentRoot) (root : RefcountTree) (u : LbaCount) : Prop :=
  u.count < rootCount root u.lba ∧ u.count < covered inodes overflow u.lba

/-- A block with runs that no walk reaches has no greater count than those that are reached, or it
has at most one of these and its record is not read. -/
def Unharmed (v : CountVolume) (inodes overflow : ExtentRoot) (root : RefcountTree) : Prop :=
  v.inodeRoot ≠ 0 → ∀ lba,
    max 1 (reachedCount v.readable inodes overflow lba) < covered inodes overflow lba →
    max 1 (reachedCount v.readable inodes overflow lba) < rootCount root lba →
      reachedCount v.readable inodes overflow lba ≤ 1 ∧
        lba ∉ (readRecords v.readable root).map RefcountRecord.lba

theorem rootCount_of_held (hheld : heldCount root lba = some count) :
    rootCount root lba = count := by
  rw [rootCount, ← heldCount, hheld, Option.getD_some]

/-- A block with more than one reference has a record. -/
theorem held_of_lt_rootCount {lba : ℕ} (hcount : 1 < rootCount root lba) :
    heldCount root lba = some (rootCount root lba) := by
  cases hheld : heldCount root lba with
  | some count => rw [rootCount_of_held hheld]
  | none =>
    rw [rootCount, ← heldCount, hheld, Option.getD_none] at hcount
    exact absurd hcount (lt_irrefl 1)

section

variable (hv : Checked v inodes overflow used root)
include hv

theorem Checked.harmless_iff :
    (∀ u ∈ mismatches v, ¬Harms inodes overflow root u) ↔ Unharmed v inodes overflow root := by
  by_cases hroot : v.inodeRoot = 0
  · rw [mismatches, if_pos hroot]
    exact iff_of_true (fun u hu ↦ (List.not_mem_nil hu).elim) fun h ↦ absurd hroot h
  have hmem (u : LbaCount) := hv.mem_mismatches (u := u) hroot
  constructor
  · intro hharmless _ lba hcovered hcount
    have hheld : heldCount root lba = some (rootCount root lba) :=
      held_of_lt_rootCount ((le_max_left 1 _).trans_lt hcount)
    by_contra hnot
    by_cases hshared : 1 < reachedCount v.readable inodes overflow lba
    · rw [max_eq_right hshared.le] at hcovered hcount
      refine hharmless ⟨lba, reachedCount v.readable inodes overflow lba⟩
        ((hmem _).mpr (Or.inl ⟨hshared, rfl, fun h ↦ ?_⟩)) ⟨hcount, hcovered⟩
      rw [hv.countOf_stored] at h
      split_ifs at h
      exact hcount.ne' (Option.some.inj (hheld.symm.trans h))
    · rw [max_eq_left (not_lt.mp hshared)] at hcovered hcount
      have hread : lba ∈ (readRecords v.readable root).map RefcountRecord.lba := by
        by_contra h
        exact hnot ⟨not_lt.mp hshared, h⟩
      refine hharmless ⟨lba, 1⟩ ((hmem _).mpr (Or.inr ⟨not_lt.mp hshared, rfl, rootCount root lba,
        (Nat.zero_lt_one.trans hcount).ne', ?_⟩)) ⟨hcount, hcovered⟩
      rw [hv.countOf_stored, if_pos hread, hheld]
  · rintro hunharmed u hu ⟨hcount, hcovered⟩
    rcases (hmem u).mp hu with ⟨hshared, hset, -⟩ | ⟨hle, hset, count, -, hstored⟩
    · have hmax : max 1 (reachedCount v.readable inodes overflow u.lba) = u.count := by
        rw [hset, max_eq_right hshared.le]
      have hle := (hunharmed hroot u.lba (hmax ▸ hcovered) (hmax ▸ hcount)).1
      exact absurd hshared (not_lt.mpr hle)
    · have hmax : max 1 (reachedCount v.readable inodes overflow u.lba) = u.count := by
        rw [hset, max_eq_left hle]
      have hunread := (hunharmed hroot u.lba (hmax ▸ hcovered) (hmax ▸ hcount)).2
      rw [hv.countOf_stored, if_neg hunread] at hstored
      cases hstored

/-- After a run whose updates all succeed, none of them with a separator above a key it should bound,
the table has the records of `held_after`. -/
theorem Checked.after (hsafe : SafeRun (updateCalls (mismatches v)) v.refcounts)
    (hfixed : (verifyRefcountTree v).2.2 = (verifyRefcountTree v).2.1) :
    ∃ used' root', Checked (verifyRefcountTree v).1 inodes overflow used' root' ∧ heldCount root' =
        (updateCalls (mismatches v)).foldl RefcountCall.record (heldCount root) := by
  have hrun := runCalls_of_applyUpdates hfixed
  obtain ⟨used', root', hstored, hordered, hformatted, hblocks, hheld⟩ :=
    hv.stored.run hv.ordered hv.formatted hsafe hrun
  refine ⟨used', root', ⟨?_, ?_, hstored, hordered, hformatted⟩, hheld⟩
  · exact hblocks.symm ▸ hv.inodes
  · exact hblocks.symm ▸ hv.overflow

theorem Checked.repaired_iff (hall : AllRead v.readable inodes overflow root)
    (hsafe : SafeRun (updateCalls (mismatches v)) v.refcounts)
    (hfixed : (verifyRefcountTree v).2.2 = (verifyRefcountTree v).2.1) :
    Repaired v (verifyRefcountTree v).1 inodes overflow ↔ Countable v inodes overflow root := by
  obtain ⟨used', root', hv', hheld⟩ := hv.after hsafe hfixed
  have hget : (∀ lba, ∃ ctx, refcountGet lba (verifyRefcountTree v).1.refcounts =
        .ok (max 1 (covered inodes overflow lba)) ctx) ↔
      ∀ lba, (heldCount root' lba).getD 1 = max 1 (covered inodes overflow lba) := by
    refine forall_congr' fun lba ↦ ?_
    obtain ⟨cache, hrun, -⟩ := refcountGet_spec hv'.stored hv'.ordered lba
    rw [hrun]
    exact ⟨fun ⟨ctx, h⟩ ↦ (EStateM.Result.ok.inj h).1, fun h ↦ ⟨_, congrArg (EStateM.Result.ok · _) h⟩⟩
  by_cases hroot : v.inodeRoot = 0
  · have hnone : mismatches v = [] := by rw [mismatches, if_pos hroot]
    have hroot' : (verifyRefcountTree v).1.inodeRoot = 0 := hroot
    have hnone' : mismatches (verifyRefcountTree v).1 = [] := by rw [mismatches, if_pos hroot']
    rw [Repaired, hget, Countable, if_pos hroot, hheld, hnone]
    refine and_iff_left ⟨used', root', hv', fun _ ↦ ?_⟩
    rw [verifyRefcountTree, hnone']
    rfl
  · have hafter := hall.held_after hv hroot
    rw [Repaired, hget, Countable, if_neg hroot, hheld]
    have hsecond : ∃ used root, Checked (verifyRefcountTree v).1 inodes overflow used root ∧
        (AllRead v.readable inodes overflow root →
          (verifyRefcountTree (verifyRefcountTree v).1).2.1 = 0) := by
      refine ⟨used', root', hv', fun hread ↦ ?_⟩
      have hall' : AllRead (verifyRefcountTree v).1.readable inodes overflow root' := hread
      have hmem (u : LbaCount) := hv'.mem_mismatches (u := u) hroot
      simp only [hall'.reachedCount_eq, hall'.countOf_stored hv', hheld, hafter] at hmem
      refine List.length_eq_zero_iff.mpr (List.eq_nil_iff_forall_not_mem.mpr fun u hu ↦ ?_)
      rcases (hmem u).mp hu with ⟨hshared, -, hne⟩ | ⟨hle, -, count, hzero, hcount⟩
      · exact hne (if_pos hshared)
      · rw [if_neg (not_lt.mpr hle)] at hcount
        split_ifs at hcount
        exact hzero (Option.some.inj hcount).symm
    rw [and_iff_left hsecond]
    refine forall_congr' fun lba ↦ ?_
    rw [hafter]
    have hlarge : covered inodes overflow lba % 2 ^ 32 < 2 ^ 32 := Nat.mod_lt _ (Nat.two_pow_pos 32)
    have hsmall : covered inodes overflow lba < 2 ^ 32 →
        covered inodes overflow lba % 2 ^ 32 = covered inodes overflow lba := Nat.mod_eq_of_lt
    split_ifs with hshared hzero
    · rw [Option.getD_some]
      constructor
      · intro hcount
        exact ⟨by omega, fun hle ↦ absurd hshared (by omega)⟩
      · rintro ⟨hlt, -⟩
        rw [hsmall hlt] at hshared ⊢
        exact (max_eq_right hshared.le).symm
    · rw [Option.getD_some]
      refine iff_of_false (by omega) fun ⟨hlt, hheld'⟩ ↦ hheld' ?_ hzero
      exact hsmall hlt ▸ not_lt.mp hshared
    · rw [Option.getD_none]
      constructor
      · intro hcount
        exact ⟨by omega, fun _ ↦ hzero⟩
      · rintro ⟨hlt, -⟩
        exact (max_eq_left (hsmall hlt ▸ not_lt.mp hshared)).symm

end

/-- The repair of the reference counts. When every node is read, and the updates succeed and hand up
no separator above a key, the counts are right afterwards exactly for countable tables. When a node
cannot be read, no update does harm exactly if no block is one that the walks do harm. -/
theorem verifyRefcountTree_repairs (hv : Checked v inodes overflow used root) :
    (AllRead v.readable inodes overflow root →
      SafeRun (updateCalls (mismatches v)) v.refcounts →
      (verifyRefcountTree v).2.2 = (verifyRefcountTree v).2.1 →
      (Repaired v (verifyRefcountTree v).1 inodes overflow ↔ Countable v inodes overflow root)) ∧
    (¬AllRead v.readable inodes overflow root →
      ((∀ u ∈ mismatches v, ¬Harms inodes overflow root u) ↔ Unharmed v inodes overflow root)) :=
  ⟨fun hall hsafe hfixed ↦ hv.repaired_iff hall hsafe hfixed, fun _ ↦ hv.harmless_iff⟩

/-- A volume whose inode tree is a leaf in block 30, with the given number of records of block 100,
and whose refcount table has two references for it. -/
def oneBlock (readable : ℕ → Bool) (n : ℕ) : CountVolume where
  readable := readable
  inodeRoot := 30
  inodeNodes := fun _ ↦ .leaf (List.replicate n [⟨100, 1, 1⟩])
  overflowRoot := 0
  overflowNodes := fun _ ↦ .leaf []
  refcounts := crampedRefcounts [⟨100, 2⟩] 1024

/-- The inode tree of `oneBlock`. -/
def oneLeaf (n : ℕ) : ExtentRoot := .node 0 (30, List.replicate n [⟨100, 1, 1⟩])

theorem oneBlock_checked (readable : ℕ → Bool) (n : ℕ) :
    Checked (oneBlock readable n) (oneLeaf n) .empty {lba | lba < 21} (.node 0 (20, [⟨100, 2⟩])) where
  inodes :=
    { label_eq := rfl
      nonzero := (by decide : 30 ≠ 0)
      spells := rfl
      nodup := List.nodup_singleton 30
      inside := by
        rintro lba hlba
        obtain rfl := List.mem_singleton.mp hlba
        exact (by decide : 30 < 4096 * 1024 / 4096) }
  overflow := rfl
  stored := crampedRefcounts_stored _ _ (by decide) (by decide)
  ordered := List.pairwise_singleton _ _
  formatted := crampedRefcounts_formatted _ _

theorem oneBlock_held (lba : ℕ) :
    heldCount (.node 0 (20, [⟨100, 2⟩])) lba = if lba = 100 then some 2 else none := by
  have hordered : Root.Ordered RefcountRecord.lba (.node 0 (20, [⟨100, 2⟩]) : RefcountTree) :=
    List.pairwise_singleton _ _
  rw [heldCount, Root.lookup_eq hordered]
  by_cases hlba : lba = 100
  · subst hlba
    rfl
  · have hne : ¬100 = lba := Ne.symm hlba
    simp [Root.records, hlba, hne]

/-- A reference too many is taken away. -/
theorem verifyRefcountTree_repairs_one :
    Repaired (oneBlock (fun _ ↦ true) 1) (verifyRefcountTree (oneBlock (fun _ ↦ true) 1)).1
      (oneLeaf 1) .empty := by
  have hmismatches : mismatches (oneBlock (fun _ ↦ true) 1) = [⟨100, 1⟩] := by decide +kernel
  have hall : AllRead (oneBlock (fun _ ↦ true) 1).readable (oneLeaf 1) .empty
      (.node 0 (20, [⟨100, 2⟩])) := ⟨fun _ _ ↦ rfl, trivial, fun _ _ ↦ rfl⟩
  refine ((verifyRefcountTree_repairs (oneBlock_checked _ 1)).1 hall ?_ (by decide +kernel)).mpr ?_
  · rw [hmismatches]
    exact ⟨fun h ↦ absurd h (lt_irrefl 1), fun _ _ ↦ trivial⟩
  · rw [Countable, if_neg (by decide)]
    refine fun lba ↦ ⟨?_, fun _ ↦ ?_⟩
    · have hle : covering (oneLeaf 1).records lba ≤ 1 := List.countP_le_length
      change covering (oneLeaf 1).records lba + 0 < 2 ^ 32
      omega
    · rw [oneBlock_held]
      split_ifs <;> simp

/-- With the inode tree out of reach the references of a shared block are taken away. -/
theorem verifyRefcountTree_harms :
    Checked (oneBlock (fun lba ↦ lba ≠ 30) 2) (oneLeaf 2) .empty {lba | lba < 21}
        (.node 0 (20, [⟨100, 2⟩])) ∧
      ¬AllRead (oneBlock (fun lba ↦ lba ≠ 30) 2).readable (oneLeaf 2) .empty
        (.node 0 (20, [⟨100, 2⟩])) ∧
      ∃ u ∈ mismatches (oneBlock (fun lba ↦ lba ≠ 30) 2),
        Harms (oneLeaf 2) .empty (.node 0 (20, [⟨100, 2⟩])) u := by
  have hmismatches : mismatches (oneBlock (fun lba ↦ lba ≠ 30) 2) = [⟨100, 1⟩] := by decide +kernel
  refine ⟨oneBlock_checked _ 2, fun hall ↦ ?_, ⟨100, 1⟩, ?_, ?_, by decide⟩
  · exact absurd (hall.inodes 30 (List.mem_singleton_self 30)) (by decide)
  · rw [hmismatches]
    exact List.mem_singleton_self _
  · rw [rootCount_of_held ((oneBlock_held 100).trans (if_pos rfl))]
    decide

end Obmafs3.Recount
