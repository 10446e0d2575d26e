import Obmafs3.Library.SearchTreeAppend
import Obmafs3.Refcounts.Runs

/-!
# A count that gets lost

The first slot of an index node catches keys below its separator. Such a key gets there when the
first leaf of the node loses its least record, divides, so that the separator rises to the least
record left, and the lost record comes back. When the node itself divides, the parent takes that
separator for the node, above the key: searches for the key now follow the slot to its left.
-/

set_option autoImplicit false

namespace Obmafs3

open Library.Search Library.SearchTree

/-! ### The tree that the first sets build -/

/-- A block size of 4096 bytes gives leaves of 335 records and index nodes of 251 entries. -/
theorem maxKeys_4096 :
    maxKeys 4096 refcountKind.recordSize = 335 ∧ maxKeys 4096 refcountKind.entrySize = 251 := by
  decide

/-- Blocks in a row with two references each. -/
def shared (first n : ℕ) : List RefcountRecord := (List.range' first n).map fun lba ↦ ⟨lba, 2⟩

/-- The entry of a half-full leaf. -/
def entry (i : ℕ) : ℕ × Tree Unit ℕ RefcountRecord 0 := (1000 * i, ((), shared (1000 * i) 168))

def entries (first n : ℕ) : List (ℕ × Tree Unit ℕ RefcountRecord 0) :=
  (List.range' first n).map entry

theorem shared_append (first n m : ℕ) :
    shared first n ++ shared (first + n) m = shared first (n + m) := by
  rw [shared, shared, shared, ← List.map_append, List.range'_append_1]

theorem shared_succ (first n : ℕ) : shared first (n + 1) = shared first n ++ [⟨first + n, 2⟩] :=
  (shared_append first n 1).symm

theorem length_shared (first n : ℕ) : (shared first n).length = n := by simp [shared]

theorem mem_shared {first n : ℕ} {q : RefcountRecord} (hq : q ∈ shared first n) :
    first ≤ q.lba ∧ q.lba < first + n ∧ q.refCount = 2 := by
  obtain ⟨lba, hlba, rfl⟩ := List.mem_map.mp hq
  have hrange := List.mem_range'_1.mp hlba
  exact ⟨hrange.1, hrange.2, rfl⟩

theorem shared_sorted (first n : ℕ) :
    ((shared first n).map RefcountRecord.lba).Pairwise (· < ·) := by
  rw [shared, List.map_map]
  exact List.pairwise_map.mpr (by simpa using List.pairwise_lt_range')

theorem entries_succ (first n : ℕ) : entries first (n + 1) = entries first n ++ [entry (first + n)] := by
  rw [entries, entries, List.range'_1_concat, List.map_append]
  rfl

theorem mem_entries {first n : ℕ} {e : ℕ × Tree Unit ℕ RefcountRecord 0}
    (he : e ∈ entries first n) : ∃ i, first ≤ i ∧ i < first + n ∧ e = entry i := by
  obtain ⟨i, hi, rfl⟩ := List.mem_map.mp he
  have := List.mem_range'_1.mp hi
  exact ⟨i, by omega, by omega, rfl⟩

theorem setRecords_append (leafMax indexMax : ℕ) (root : RefcountShape)
    (rs qs : List RefcountRecord) :
    setRecords leafMax indexMax root (rs ++ qs) =
      setRecords leafMax indexMax (setRecords leafMax indexMax root rs) qs :=
  List.foldl_append

/-- Setting shared blocks inserts their records. -/
theorem setRecords_shared (leafMax indexMax : ℕ) (root : RefcountShape) (first n : ℕ) :
    setRecords leafMax indexMax root (shared first n) =
      putAll RefcountRecord.lba leafMax indexMax always (shared first n) root := by
  have hcount : ∀ q ∈ shared first n, ¬q.refCount ≤ 1 := fun q hq ↦ by
    have := (mem_shared hq).2.2
    omega
  generalize shared first n = qs at hcount
  induction qs generalizing root with
  | nil => rfl
  | cons q qs ih =>
    rw [setRecords, putAll, List.foldl_cons, List.foldl_cons, setRecord,
      if_neg (hcount q List.mem_cons_self)]
    exact ih _ fun p hp ↦ hcount p (List.mem_cons_of_mem _ hp)

/-- Sets of blocks in a row, all above the leaf they are routed to. -/
theorem setRecords_leaf (indexMax first n : ℕ) {height : ℕ}
    {t : Tree Unit ℕ RefcountRecord height} (hsolid : Solid height t)
    (hfollows : ∀ q ∈ shared first n, Follows first q.lba height t)
    (habove : ∀ p ∈ reached first height t, p.lba < first)
    (hroom : (reached first height t).length + n ≤ 335) :
    setRecords 335 indexMax (.node height t) (shared first n) =
      .node height (editLeaf (· ++ shared first n) first height t) := by
  rw [setRecords_shared]
  refine putAll_append indexMax always (shared_sorted first n) hsolid hfollows
    (fun q hq p hp ↦ (habove p hp).trans_le (mem_shared hq).1) ?_
  rwa [length_shared]

/-- The record after a full leaf of blocks divides it in two even halves. -/
theorem put_divide (indexMax first next : ℕ) (hnext : first + 168 ≤ next) :
    put RefcountRecord.lba 335 indexMax always ⟨next + 167, 2⟩ 0
        ((), shared first 168 ++ shared next 167) =
      .split ((), shared first 168) first ((), shared next 168) next := by
  have habove : ∀ p ∈ shared first 168 ++ shared next 167, p.lba < next + 167 := by
    refine List.forall_mem_append.mpr ⟨fun p hp ↦ ?_, fun p hp ↦ ?_⟩ <;>
    · have := mem_shared hp
      omega
  have hsplit : shared first 168 ++ shared next 167 ++ [⟨next + 167, 2⟩] =
      shared first 168 ++ shared next 168 := by
    rw [List.append_assoc, ← shared_succ]
  rw [put_overfull indexMax (rfl : always 0 = some ()) () habove (by simp [length_shared]), hsplit,
    List.take_left' (by simp [length_shared, half]), List.drop_left' (by simp [length_shared, half])]
  rfl

/-- Keys past the last leaf of an index node are routed to that leaf. -/
theorem slotted_entries {first n k : ℕ} (hk : 1000 * (first + n) ≤ k) :
    Slotted (entries first (n + 1)) k (entries first n) (entry (first + n)) [] := by
  rw [entries_succ]
  refine slotted_last (fun e he ↦ ?_) hk
  obtain ⟨i, -, hi, rfl⟩ := mem_entries he
  change 1000 * i ≤ k
  omega

theorem solid_entries (first n : ℕ) :
    Solid 1 (((), entries first (n + 1)) : Tree Unit ℕ RefcountRecord 1) :=
  ⟨by rw [entries_succ]; simp, fun _ _ ↦ trivial⟩

/-- A leaf's worth of new blocks past the end of an index node divides its last leaf. -/
theorem put_entries (indexMax first n : ℕ) :
    put RefcountRecord.lba 335 indexMax always ⟨1000 * (first + n + 1) + 167, 2⟩ 1
        (editLeaf (· ++ shared (1000 * (first + n + 1)) 167) (1000 * (first + n + 1)) 1
          ((), entries first (n + 1))) =
      graft indexMax (some ()) () (entries first n) (1000 * (first + n)) []
        (.split ((), shared (1000 * (first + n)) 168) (1000 * (first + n))
          ((), shared (1000 * (first + n + 1)) 168) (1000 * (first + n + 1))) := by
  have hslot : Slotted (entries first (n + 1)) (1000 * (first + n + 1)) _ _ _ :=
    slotted_entries (by omega)
  have hslot' : Slotted (entries first (n + 1)) (1000 * (first + n + 1) + 167) _ _ _ :=
    slotted_entries (by omega)
  rw [hslot.editLeaf, (hslot'.replace _).put]
  exact congrArg _ (put_divide indexMax (1000 * (first + n)) (1000 * (first + n + 1)) (by omega))

theorem follows_entries {first n k k' : ℕ} (hk : 1000 * (first + n) ≤ k)
    (hk' : 1000 * (first + n) ≤ k') :
    Follows k k' 1 (((), entries first (n + 1)) : Tree Unit ℕ RefcountRecord 1) :=
  (slotted_entries hk).follows.mpr ⟨slotted_entries hk', trivial⟩

theorem reached_entries {first n k : ℕ} (hk : 1000 * (first + n) ≤ k) :
    reached k 1 (((), entries first (n + 1)) : Tree Unit ℕ RefcountRecord 1) =
      shared (1000 * (first + n)) 168 :=
  (slotted_entries hk).reached

/-- A set after a run of sets. -/
theorem setRecords_snoc (leafMax indexMax : ℕ) (root : RefcountShape) (first n : ℕ) :
    setRecords leafMax indexMax root (shared first (n + 1)) =
      ((setRecords leafMax indexMax root (shared first n)).put RefcountRecord.lba leafMax indexMax
        always ⟨first + n, 2⟩).1 := by
  rw [shared_succ, setRecords_append]
  rfl

theorem entries_succ_succ (first n : ℕ) : entries first (n + 2) = entries first n ++
      [(1000 * (first + n), ((), shared (1000 * (first + n)) 168)),
        (1000 * (first + n + 1), ((), shared (1000 * (first + n + 1)) 168))] := by
  rw [entries_succ, entries_succ, List.append_assoc]
  rfl

theorem length_entries (first n : ℕ) : (entries first n).length = n := by simp [entries]

/-- The root of a tree of height one takes one more leaf, or divides. -/
theorem grow_one (n : ℕ) :
    setRecords 335 251 (.node 1 ((), entries 0 (n + 1))) (shared (1000 * (n + 1)) 168) =
      if n + 2 ≤ 251 then .node 1 ((), entries 0 (n + 2))
      else .node 2 ((), [(firstKey (1000 * n) ((entries 0 (n + 2)).map Prod.fst),
        ((), (entries 0 (n + 2)).take 126)),
        (firstKey (1000 * (n + 1)) (((entries 0 (n + 2)).drop 126).map Prod.fst),
          ((), (entries 0 (n + 2)).drop 126))]) := by
  have hput := put_entries 251 0 n
  have hentries := entries_succ_succ 0 n
  simp only [Nat.zero_add] at hput hentries
  have hleaf := setRecords_leaf 251 (1000 * (n + 1)) 167 (solid_entries 0 n)
    (fun q hq ↦ follows_entries (by omega) (by have := mem_shared hq; omega))
    (fun p hp ↦ by
      rw [reached_entries (by omega)] at hp
      have := mem_shared hp
      omega)
    (by rw [reached_entries (by omega), length_shared])
  rw [setRecords_snoc, hleaf, Root.put, hput, graft, ← hentries, length_entries]
  split_ifs <;> rfl

/-- The entries of a root over 126 leaves and `n` more. -/
def rootEntries (n : ℕ) : List (ℕ × Tree Unit ℕ RefcountRecord 1) :=
  [(0, ((), entries 0 126)), (126000, ((), entries 126 n))]

theorem slotted_root {n k : ℕ} (hk : 126000 ≤ k) :
    Slotted (rootEntries n) k [(0, ((), entries 0 126))] (126000, ((), entries 126 n)) [] :=
  slotted_last (List.forall_mem_singleton.mpr (Nat.zero_le k)) hk

variable {k : ℕ} {n : ℕ}

/-- The last index node of a tree of height two takes one more leaf. -/
theorem grow_two (hroom : n + 2 ≤ 251) :
    setRecords 335 251 (.node 2 ((), rootEntries (n + 1))) (shared (1000 * (126 + n + 1)) 168) =
      .node 2 ((), rootEntries (n + 2)) := by
  have hslot {k : ℕ} (hk : 1000 * (126 + n) ≤ k) : Slotted (rootEntries (n + 1)) k _ _ _ :=
    slotted_root (by omega)
  have hsolid : Solid 2 (((), rootEntries (n + 1)) : Tree Unit ℕ RefcountRecord 2) :=
    ⟨by simp [rootEntries], by simpa [rootEntries] using ⟨solid_entries 0 125, solid_entries 126 n⟩⟩
  have hleaf := setRecords_leaf 251 (1000 * (126 + n + 1)) 167 hsolid
    (fun q hq ↦ (hslot (by omega)).follows.mpr
      ⟨hslot (by have := mem_shared hq; omega),
        follows_entries (by omega) (by have := mem_shared hq; omega)⟩)
    (fun p hp ↦ by
      rw [(hslot (by omega)).reached, reached_entries (by omega)] at hp
      have := mem_shared hp
      omega)
    (by rw [(hslot (by omega)).reached, reached_entries (by omega), length_shared])
  have hslot' : Slotted (rootEntries (n + 1))
      (RefcountRecord.lba ⟨1000 * (126 + n + 1) + 167, 2⟩) _ _ _ :=
    slotted_root (show 126000 ≤ 1000 * (126 + n + 1) + 167 by omega)
  rw [setRecords_snoc, hleaf, Root.put, (hslot (by omega)).editLeaf,
    (hslot'.replace _).put, put_entries, graft, ← entries_succ_succ, length_entries,
    if_pos hroom]
  rfl

/-- The first record of a table starts a leaf, and the blocks after it join the leaf. -/
theorem setRecords_empty : setRecords 335 251 .empty (shared 0 168) =
    .node 0 ((), shared 0 168) := by
  have hleaf := @setRecords_leaf 251 1 167 0 ((), shared 0 1) trivial (fun _ _ ↦ trivial)
    (fun p hp ↦ (mem_shared hp).2.1) (by decide)
  rw [← shared_append 0 1 167, setRecords_append]
  exact hleaf

theorem setRecords_first : setRecords 335 251 (.node 0 ((), shared 0 168)) (shared 1000 168) =
    .node 1 ((), entries 0 2) := by
  have hleaf := @setRecords_leaf 251 1000 167 0 ((), shared 0 168) trivial (fun _ _ ↦ trivial)
    (fun p hp ↦ by have := mem_shared (hp : p ∈ shared 0 168); omega)
    (by rw [reached, length_shared])
  have hput := put_divide 251 0 1000 (by omega)
  rw [setRecords_snoc, hleaf, Root.put, editLeaf, hput]
  rfl

/-- The blocks of the first leaves, in ascending order. -/
def leafBlocks (n : ℕ) : List RefcountRecord :=
  (List.range n).flatMap fun i ↦ shared (1000 * i) 168

theorem leafBlocks_succ (n : ℕ) : leafBlocks (n + 1) = leafBlocks n ++ shared (1000 * n) 168 := by
  simp [leafBlocks, List.range_succ]

theorem setRecords_one (hn : n + 2 ≤ 251) :
    setRecords 335 251 .empty (leafBlocks (n + 2)) = .node 1 ((), entries 0 (n + 2)) := by
  induction n with
  | zero =>
    rw [leafBlocks_succ, setRecords_append, leafBlocks_succ, setRecords_append]
    exact (congrArg (setRecords 335 251 · (shared 1000 168)) setRecords_empty).trans
      setRecords_first
  | succ n ih =>
    rw [leafBlocks_succ, setRecords_append, ih (by omega), grow_one, if_pos (by omega)]

theorem setRecords_two (hn : n ≤ 125) :
    setRecords 335 251 .empty (leafBlocks (252 + n)) = .node 2 ((), rootEntries (126 + n)) := by
  induction n with
  | zero =>
    rw [leafBlocks_succ, setRecords_append, setRecords_one (n := 249) (by omega), grow_one,
      if_neg (by omega)]
    have hsplit : entries 0 252 = entries 0 126 ++ entries 126 126 := by
      rw [entries, entries, entries, ← List.map_append, List.range'_append_1]
    rw [hsplit, List.take_left' (length_entries 0 126), List.drop_left' (length_entries 0 126)]
    rfl
  | succ n ih =>
    have hgrow := grow_two (n := 125 + n) (by omega)
    rw [← Nat.add_assoc, leafBlocks_succ, setRecords_append, ih (by omega)]
    rw [show 126 + n = 125 + n + 1 by omega, show 252 + n = 126 + (125 + n) + 1 by omega, hgrow,
      show 125 + n + 2 = 126 + (n + 1) by omega]

/-! ### The sets that lose a block -/

/-- The entries of the root of a tree whose second index node has 250 leaves, the first of them with
the given records. -/
def withFirst (rs : List RefcountRecord) : List (ℕ × Tree Unit ℕ RefcountRecord 1) :=
  [(0, ((), entries 0 126)), (126000, ((), (126000, ((), rs)) :: entries 127 249))]

theorem slotted_withFirst (rs : List RefcountRecord) (hk : 126000 ≤ k) :
    Slotted (withFirst rs) k [(0, ((), entries 0 126))]
      (126000, ((), (126000, ((), rs)) :: entries 127 249)) [] :=
  slotted_last (List.forall_mem_singleton.mpr (Nat.zero_le k)) hk

theorem slotted_firstLeaf (rs : List RefcountRecord) (hk : k < 127000) :
    Slotted ((126000, (((), rs) : Tree Unit ℕ RefcountRecord 0)) :: entries 127 249) k []
      (126000, ((), rs)) (entries 127 249) := by
  refine slotted_first fun e he ↦ ?_
  obtain ⟨i, hi, -, rfl⟩ := mem_entries he
  change k < 1000 * i
  omega

theorem solid_withFirst (rs : List RefcountRecord) :
    Solid 2 (((), withFirst rs) : Tree Unit ℕ RefcountRecord 2) := by
  refine ⟨by simp [withFirst], ?_⟩
  have hright : Solid 1 (((), (126000, ((), rs)) :: entries 127 249) :
      Tree Unit ℕ RefcountRecord 1) := ⟨by simp, fun _ _ ↦ trivial⟩
  simpa [withFirst] using ⟨solid_entries 0 125, hright⟩

theorem editLeaf_withFirst (edit : List RefcountRecord → List RefcountRecord)
    (rs : List RefcountRecord) (hk : 126000 ≤ k) (hk' : k < 127000) :
    editLeaf edit k 2 ((), withFirst rs) = ((), withFirst (edit rs)) := by
  rw [(slotted_withFirst rs hk).editLeaf, (slotted_firstLeaf rs hk').editLeaf]
  rfl

/-- The second index node loses the least record of its first leaf. -/
theorem setRecords_drop :
    setRecords 335 251 (.node 2 ((), withFirst (shared 126000 168))) [⟨126000, 1⟩] =
      .node 2 ((), withFirst (shared 126001 167)) := by
  have hdrop : dropKey RefcountRecord.lba 126000 (shared 126000 168) = shared 126001 167 := by
    decide +kernel
  change Root.node 2 (editLeaf (dropKey RefcountRecord.lba 126000) 126000 2 _) = _
  rw [editLeaf_withFirst _ _ (by omega) (by omega), hdrop]

/-- The first leaf of the second index node fills up. -/
theorem setRecords_fill :
    setRecords 335 251 (.node 2 ((), withFirst (shared 126001 167))) (shared 126168 168) =
      .node 2 ((), withFirst (shared 126001 335)) := by
  have hslot {k : ℕ} (hk : 126000 ≤ k) := slotted_withFirst (shared 126001 167) hk
  have hslot' {k : ℕ} (hk : k < 127000) := slotted_firstLeaf (shared 126001 167) hk
  rw [setRecords_leaf 251 126168 168 (solid_withFirst _)
    (fun q hq ↦ (hslot (by omega)).follows.mpr ⟨hslot (by have := mem_shared hq; omega),
      (hslot' (by omega)).follows.mpr ⟨hslot' (by have := mem_shared hq; omega), trivial⟩⟩)
    (fun p hp ↦ by
      rw [(hslot (by omega)).reached, (hslot' (by omega)).reached] at hp
      exact (mem_shared hp).2.1)
    (by rw [(hslot (by omega)).reached, (hslot' (by omega)).reached, reached, length_shared]),
    editLeaf_withFirst _ _ (by omega) (by omega)]
  rw [shared_append 126001 167 168]

theorem slotted_lastLeaf (rs : List RefcountRecord) (hk : 375000 ≤ k) :
    Slotted ((126000, (((), rs) : Tree Unit ℕ RefcountRecord 0)) :: entries 127 249) k
      ((126000, ((), rs)) :: entries 127 248) (entry 375) [] := by
  rw [entries_succ, ← List.cons_append]
  refine slotted_last (List.forall_mem_cons.mpr ⟨?_, fun e he ↦ ?_⟩) hk
  · change 126000 ≤ k
    omega
  · obtain ⟨i, -, hi, rfl⟩ := mem_entries he
    change 1000 * i ≤ k
    omega

/-- The last leaf fills up. -/
theorem setRecords_last (rs : List RefcountRecord) :
    setRecords 335 251 (.node 2 ((), withFirst rs)) (shared 375168 167) =
      .node 2 (editLeaf (· ++ shared 375168 167) 375168 2 ((), withFirst rs)) := by
  have hslot {k : ℕ} (hk : 126000 ≤ k) := slotted_withFirst rs hk
  have hslot' {k : ℕ} (hk : 375000 ≤ k) := slotted_lastLeaf rs hk
  refine setRecords_leaf 251 375168 167 (solid_withFirst _)
    (fun q hq ↦ (hslot (by omega)).follows.mpr ⟨hslot (by have := mem_shared hq; omega),
      (hslot' (by omega)).follows.mpr ⟨hslot' (by have := mem_shared hq; omega), trivial⟩⟩)
    (fun p hp ↦ ?_) ?_
  · rw [(hslot (by omega)).reached, (hslot' (by omega)).reached] at hp
    exact (mem_shared (hp : p ∈ shared 375000 168)).2.1
  · rw [(hslot (by omega)).reached, (hslot' (by omega)).reached]
    exact (congrArg (· + 167) (length_shared 375000 168)).le

/-- Shared blocks in ascending order, up to a second index node with 250 leaves. Then its least
record goes, its first leaf and its last leaf fill up, the first one divides, the lost record comes
back with seven references, and the last leaf divides and with it the index node. -/
def lostSets : List RefcountRecord :=
  leafBlocks 376 ++ [⟨126000, 1⟩] ++ shared 126168 168 ++ shared 375168 167 ++
    [⟨126500, 2⟩, ⟨126000, 7⟩, ⟨376000, 2⟩]

theorem setRecords_lostSets : setRecords 335 251 .empty lostSets =
      setRecords 335 251 (.node 2 (editLeaf (· ++ shared 375168 167) 375168 2
        ((), withFirst (shared 126001 335)))) [⟨126500, 2⟩, ⟨126000, 7⟩, ⟨376000, 2⟩] := by
  have hbuilt : setRecords 335 251 .empty (leafBlocks 376) =
      .node 2 ((), withFirst (shared 126000 168)) := setRecords_two (n := 124) (by omega)
  rw [lostSets, setRecords_append, setRecords_append, setRecords_append, setRecords_append, hbuilt,
    setRecords_drop, setRecords_fill, setRecords_last]

/-- The tree that the sets build does not find the block that came back. -/
theorem lookup_lostSets :
    (setRecords 335 251 .empty lostSets).lookup RefcountRecord.lba 126000 = none ∧
      (setRecords 335 251 .empty lostSets).height = 2 := by
  rw [setRecords_lostSets]
  decide +kernel

/-! ### The run on a fresh volume -/

theorem countsAfter_append (calls calls' : List RefcountCall) :
    countsAfter (calls ++ calls') = calls'.foldl RefcountCall.count (countsAfter calls) :=
  List.foldl_append

/-- The last set of the block gave it seven references. -/
theorem countsAfter_lostSets : countsAfter (setCalls lostSets) 126000 = 7 := by
  rw [lostSets, setCalls, List.map_append, countsAfter_append]
  simp [RefcountCall.count]

theorem length_lostSets : lostSets.length = 63507 := by
  have hblocks (n : ℕ) : (leafBlocks n).length = 168 * n := by
    induction n with
    | zero => rfl
    | succ n ih => rw [leafBlocks_succ, List.length_append, ih, length_shared, Nat.mul_succ]
  rw [lostSets, List.length_append, List.length_append, List.length_append, List.length_append,
    hblocks, length_shared, length_shared]
  rfl

/-- After sets that all succeed, a get answers one for a block that was last set to seven. -/
theorem refcount_map_lost :
    RefcountStored {lba | lba < 16 + 2049} freshRefcounts .empty ∧ Formatted freshRefcounts.vol ∧
      ∃ ctx, runCalls (setCalls lostSets) freshRefcounts = .ok () ctx ∧
        countsAfter (setCalls lostSets) 126000 = 7 ∧
        (∃ ctx', refcountGet 126000 ctx = .ok 1 ctx') ∧
        ¬IsMap (countsAfter (setCalls lostSets)) ctx := by
  have hample : Ample {lba | lba < 16 + 2049} freshRefcounts .empty 4096
      (0 + lostSets.length * (btreeMaxDepth + 2)) :=
    freshRefcounts_ample (by rw [length_lostSets]; decide)
  obtain ⟨hmaxLeaf, hmaxIndex⟩ := maxKeys_4096
  obtain ⟨used, ctx, root, hrun, hample', hshape⟩ := hample.run lostSets 0 (by
    rw [hmaxLeaf, hmaxIndex]
    exact lookup_lostSets.2.le.trans (by decide))
  rw [hmaxLeaf, hmaxIndex] at hshape
  obtain ⟨ctx', hget⟩ := hample'.count 126000
  have hlost : (shape root).lookup RefcountRecord.lba 126000 = none := by
    rw [hshape]
    exact lookup_lostSets.1
  rw [hlost] at hget
  refine ⟨hample.stored, hample.formatted, ctx, hrun, countsAfter_lostSets, ⟨ctx', hget⟩,
    fun hmap ↦ ?_⟩
  obtain ⟨ctx'', hget'⟩ := hmap.1 126000
  rw [hget, countsAfter_lostSets] at hget'
  cases hget'

end Obmafs3
