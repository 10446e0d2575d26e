import Obmafs3.Library.SearchTreeGrow

/-!
# Search trees of ascending rows

`Rows` are ascending records in rows of half a leaf. When a leaf of two rows divides, the first row
keeps it and the second shares the new leaf with the next, so a tree of rows has a leaf for every
row but the last two. `Rows.putRun_node` is that tree while it has one index node, and
`Rows.putRun_divided` once the node has divided.
-/

set_option autoImplicit false

namespace Obmafs3.Library.SearchTree

open Search

variable {α κ ρ : Type} [LinearOrder κ]

variable {key : ρ → κ} {pick : List κ → κ → ℕ} {leafMax indexMax : ℕ} {fresh : ℕ → Option α}

/-- Ascending records in rows of half a leaf. -/
structure Rows (key : ρ → κ) (leafMax : ℕ) where
  first : ℕ → ρ
  rest : ℕ → List ρ
  length_rest : ∀ i, 2 * ((rest i).length + 1) = leafMax
  sorted : ∀ i, ((first i :: rest i).map key).Pairwise (· < ·)
  ascending : ∀ i j, i < j → ∀ q ∈ first i :: rest i, ∀ r ∈ first j :: rest j, key q < key r

namespace Rows

variable (rows : Rows key leafMax) (a : α)

def row (i : ℕ) : List ρ := rows.first i :: rows.rest i

def lead (i : ℕ) : κ := key (rows.first i)

/-- A leaf for a row. -/
def leaf (i : ℕ) : κ × Tree α κ ρ 0 := (rows.lead i, (a, rows.row i))

/-- The first `n` rows, in order. -/
def upTo (n : ℕ) : List ρ := (List.range n).flatMap rows.row

/-- Leaves for `n` rows from `lo` on, and one for the next row and what comes behind it. -/
def strip (lo n : ℕ) (behind : List ρ) : List (κ × Tree α κ ρ 0) :=
  (List.range' lo n).map (rows.leaf a) ++ [(rows.lead (lo + n), (a, rows.row (lo + n) ++ behind))]

variable {rows a}

theorem length_row (i : ℕ) : (rows.row i).length = half leafMax := by
  have hlength := rows.length_rest i
  rw [row, List.length_cons]
  unfold half
  omega

theorem two_half (rows : Rows key leafMax) : half leafMax + half leafMax = leafMax := by
  have hlength := rows.length_rest 0
  unfold half
  omega

variable {lo n : ℕ} {q : ρ}

variable {f : ℕ → ℕ → ρ} {behind : List ρ}

/-- A row of a grid. -/
theorem mem_gridRow {i m : ℕ} :
    q ∈ f i 0 :: (List.range m).map (fun j ↦ f i (j + 1)) ↔ ∃ j ≤ m, f i j = q := by
  constructor
  · intro hq
    rcases List.mem_cons.mp hq with rfl | hq
    · exact ⟨0, Nat.zero_le m, rfl⟩
    · obtain ⟨j, hj, rfl⟩ := List.mem_map.mp hq
      exact ⟨j + 1, List.mem_range.mp hj, rfl⟩
  · rintro ⟨j, hj, rfl⟩
    cases j with
    | zero => exact List.mem_cons_self
    | succ j => exact List.mem_cons_of_mem _ (List.mem_map.mpr ⟨j, List.mem_range.mpr hj, rfl⟩)

/-- Rows of a grid whose keys ascend along its rows and from row to row. -/
def ofGrid (f : ℕ → ℕ → ρ) (m : ℕ) (hlength : 2 * (m + 1) = leafMax)
    (hrow : ∀ i j j', j < j' → key (f i j) < key (f i j'))
    (hrows : ∀ i i' j j', i < i' → key (f i j) < key (f i' j')) : Rows key leafMax where
  first i := f i 0
  rest i := (List.range m).map fun j ↦ f i (j + 1)
  length_rest i := by simpa using hlength
  sorted i := by
    rw [List.map_cons, List.pairwise_cons, List.pairwise_map, List.pairwise_map]
    refine ⟨List.forall_mem_map.mpr (List.forall_mem_map.mpr fun j _ ↦ ?_),
      List.pairwise_lt_range.imp fun hlt ↦ hrow i _ _ (by omega)⟩
    exact hrow i 0 (j + 1) (Nat.succ_pos j)
  ascending i i' hlt q hq r hr := by
    obtain ⟨j, -, rfl⟩ := mem_gridRow.mp hq
    obtain ⟨j', -, rfl⟩ := mem_gridRow.mp hr
    exact hrows i i' j j' hlt

theorem mem_upTo_ofGrid {m n : ℕ} {hlength : 2 * (m + 1) = leafMax}
    {hrow : ∀ i j j', j < j' → key (f i j) < key (f i j')}
    {hrows : ∀ i i' j j', i < i' → key (f i j) < key (f i' j')} :
    q ∈ (ofGrid f m hlength hrow hrows).upTo n ↔ ∃ i < n, ∃ j ≤ m, f i j = q := by
  simp only [upTo, List.mem_flatMap, List.mem_range]
  exact exists_congr fun i ↦ and_congr_right fun _ ↦ mem_gridRow

theorem upTo_pairwise (n : ℕ) : ((rows.upTo n).map key).Pairwise (· < ·) := by
  rw [List.pairwise_map, upTo, List.pairwise_flatMap]
  exact ⟨fun i _ ↦ List.pairwise_map.mp (rows.sorted i),
    List.pairwise_lt_range.imp fun hlt ↦ rows.ascending _ _ hlt⟩

/-- The last leaf has room for the next row once it begins there. -/
theorem fits (i : ℕ) :
    (rows.row i ++ [rows.first (i + 1)]).length + (rows.rest (i + 1)).length ≤ leafMax := by
  have hlength := rows.length_rest i
  have hnext := rows.length_rest (i + 1)
  rw [row, List.length_append, List.length_cons, List.length_singleton]
  omega

/-- A leaf of two rows divides between them. -/
theorem appendRight_leaf (hfresh : fresh 0 = some a) {i : ℕ} :
    appendRight key leafMax indexMax fresh q 0 (a, rows.row i ++ rows.row (i + 1)) =
      .split (a, rows.row i) (rows.lead i) (a, rows.row (i + 1) ++ [q]) (rows.lead (i + 1)) := by
  have hlength : ¬(rows.row i ++ rows.row (i + 1) ++ [q]).length ≤ leafMax := by
    have htwo := rows.two_half
    simp only [List.length_append, length_row, List.length_singleton]
    omega
  unfold appendRight settleLeaf
  rw [if_neg hlength, hfresh, List.append_assoc]
  simp only [List.take_left' (length_row i), List.drop_left' (length_row i)]
  rfl

theorem extendRight_strip {top : α} {behind qs : List ρ} :
    extendRight qs 1 (top, rows.strip a lo n behind) = (top, rows.strip a lo n (behind ++ qs)) := by
  simp [extendRight, strip]

theorem lastLeaf_strip (top : α) :
    lastLeaf 1 ((top, rows.strip a lo n behind) : Tree α κ ρ 1) = rows.row (lo + n) ++ behind := by
  simp [lastLeaf, strip]

/-- What the record after a strip makes of its entries. -/
theorem appendRight_strip (hfresh : fresh 0 = some a) {top : α} :
    appendRight key leafMax indexMax fresh q 1
        (top, rows.strip a lo n (rows.row (lo + n + 1))) =
      graft indexMax (fresh 1) top ((List.range' lo n).map (rows.leaf a)) (rows.lead (lo + n)) []
        (.split (a, rows.row (lo + n)) (rows.lead (lo + n)) (a, rows.row (lo + n + 1) ++ [q])
          (rows.lead (lo + n + 1))) := by
  rw [strip, appendRight, List.getLast?_concat, List.dropLast_concat]
  simp only [appendRight_leaf hfresh]

/-- One more leaf than before. -/
theorem strip_succ :
    (List.range' lo n).map (rows.leaf a) ++ [(rows.lead (lo + n), (a, rows.row (lo + n))),
      (rows.lead (lo + n + 1), (a, rows.row (lo + n + 1) ++ [q]))] =
        rows.strip a lo (n + 1) [q] := by
  rw [strip, List.range'_1_concat, List.map_append, List.append_assoc]
  rfl

theorem appendRight_kept (rows : Rows key leafMax) (hfresh : fresh 0 = some a) (top : α)
    (lo n : ℕ) (q : ρ) (hroom : n + 2 ≤ indexMax) :
    appendRight key leafMax indexMax fresh q 1
        (top, rows.strip a lo n (rows.row (lo + n + 1))) =
      .kept (top, rows.strip a lo (n + 1) [q]) := by
  rw [appendRight_strip hfresh, graft_room, strip_succ]
  simpa using hroom

theorem firstKey_strip (k : κ) :
    firstKey k ((rows.strip a lo n behind).map Prod.fst) = rows.lead lo := by
  cases n with
  | zero => rfl
  | succ n =>
    rw [strip, List.range'_succ]
    rfl

/-- A full index node divides in the middle. -/
theorem appendRight_split (rows : Rows key leafMax) (hfresh : fresh 0 = some a) {b : α}
    (hindex : fresh 1 = some b) (top : α) (lo n : ℕ) (q : ρ) (hfull : n + 1 = indexMax) :
    appendRight key leafMax indexMax fresh q 1
        (top, rows.strip a lo n (rows.row (lo + n + 1))) =
      .split (top, (List.range' lo (half indexMax)).map (rows.leaf a)) (rows.lead lo)
        (b, rows.strip a (lo + half indexMax) (indexMax - half indexMax) [q])
        (rows.lead (lo + half indexMax)) := by
  have hhalf : half indexMax ≤ n + 1 := by
    unfold half
    omega
  have htake : (rows.strip a lo (n + 1) [q]).take (half indexMax) =
      (List.range' lo (half indexMax)).map (rows.leaf a) := by
    rw [strip, List.take_append_of_le_length (by simpa using hhalf), ← List.map_take,
      List.take_range'_of_length_ge hhalf]
  have hdrop : (rows.strip a lo (n + 1) [q]).drop (half indexMax) =
      rows.strip a (lo + half indexMax) (indexMax - half indexMax) [q] := by
    have hlast : lo + half indexMax + (indexMax - half indexMax) = lo + (n + 1) := by omega
    rw [strip, strip, List.drop_append_of_le_length (by simpa using hhalf), ← List.map_drop,
      List.drop_range', hlast, hfull, mul_one]
  rw [appendRight_strip hfresh, hindex, graft_full, strip_succ, htake, hdrop, firstKey_strip,
    firstKey_strip]
  simp
  omega

/-! ### A tree of rows -/

/-- An index node that has divided after its first half, and the strip that its second half is. -/
def divided (rows : Rows key leafMax) (label : ℕ → α) (indexMax n : ℕ) (behind : List ρ) :
    Tree α κ ρ 2 :=
  (label 2, [
    (rows.lead 0, (label 1, (List.range' 0 (half indexMax)).map (rows.leaf (label 0)))),
    (rows.lead (half indexMax), (label 1, rows.strip (label 0) (half indexMax) n behind))])

section Divided

variable {label : ℕ → α} {n : ℕ} {behind : List ρ}

theorem extendRight_divided {qs : List ρ} :
    extendRight qs 2 (rows.divided label indexMax n behind) =
      rows.divided label indexMax n (behind ++ qs) := by
  unfold divided
  rw [← extendRight_strip]
  rfl

theorem lastLeaf_divided : lastLeaf 2 (rows.divided label indexMax n behind) =
    rows.row (half indexMax + n) ++ behind :=
  lastLeaf_strip (label 1)

theorem appendRight_divided (hfresh : ∀ level, fresh level = some (label level)) {q : ρ}
    (hroom : n + 2 ≤ indexMax) :
    appendRight key leafMax indexMax fresh q 2
        (rows.divided label indexMax n (rows.row (half indexMax + n + 1))) =
      .kept (rows.divided label indexMax (n + 1) [q]) := by
  have happend := rows.appendRight_kept (hfresh 0) (label 1) (half indexMax) n q hroom
  unfold divided
  rw [appendRight, List.getLast?_cons_cons, List.getLast?_singleton]
  simp only [happend]
  rfl

end Divided

theorem upTo_succ (n : ℕ) : rows.upTo (n + 1) = rows.upTo n ++ rows.row n := by
  rw [upTo, List.range_succ, List.flatMap_append, List.flatMap_singleton]
  rfl

section Run

variable {label : ℕ → α} {maxHeight : ℕ} {root : Root α κ ρ} {n : ℕ}

section

variable (hrun : Root.putRun key pick leafMax indexMax fresh maxHeight (rows.upTo n) .empty = some root)
include hrun

/-- The next row is above every key of the tree of the rows before it. -/
theorem above : ∀ x ∈ root.span key, ∀ r ∈ rows.row n, x < key r := by
  intro x hx r hr
  have hx := (Root.mem_span_putRun hrun hx).resolve_left List.not_mem_nil
  obtain ⟨q, hq, rfl⟩ := List.mem_map.mp hx
  obtain ⟨i, hi, hq⟩ := List.mem_flatMap.mp hq
  exact rows.ascending i n (List.mem_range.mp hi) q hq r hr

theorem putRun_upTo_succ :
    Root.putRun key pick leafMax indexMax fresh maxHeight (rows.upTo (n + 1)) .empty =
      Root.putRun key pick leafMax indexMax fresh maxHeight (rows.row n) root := by
  rw [upTo_succ, Root.putRun_append, hrun]
  rfl

end

variable (hpick : PicksLast pick) (hfresh : ∀ level, fresh level = some (label level))
include hpick hfresh

/-- Two rows fill one leaf. -/
theorem putRun_leaf : Root.putRun key pick leafMax indexMax fresh maxHeight (rows.upTo 2) .empty =
      some (.node 0 (label 0, rows.row 0 ++ rows.row 1)) := by
  have hone : Root.putRun key pick leafMax indexMax fresh maxHeight (rows.upTo 1) .empty =
      some (.node 0 (label 0, rows.row 0)) := by
    have hsucc : rows.upTo 1 = rows.row 0 := List.flatMap_singleton _ _
    have hput : (.empty : Root α κ ρ).putBy pick key leafMax indexMax fresh (rows.first 0) =
        (.node 0 (label 0, [rows.first 0]), true) := by
      rw [Root.putBy, hfresh]
    rw [hsucc]
    refine Root.putRun_behind hpick (Nat.zero_le _) (Nat.zero_le _) hput ?_ (rows.sorted 0)
      (List.forall_mem_nil _)
    have hlength := rows.length_rest 0
    rw [lastLeaf, List.length_singleton]
    omega
  rw [putRun_upTo_succ hone]
  refine Root.putRun_room hpick (Nat.zero_le _) ?_ (rows.sorted 1) (above hone)
  rw [lastLeaf, length_row, length_row, two_half rows]

/-- While the index node has room, each row has a leaf of its own but the last two. -/
theorem putRun_node (hmax : 1 ≤ maxHeight) (hn : 1 ≤ n) (hroom : n + 1 ≤ indexMax) :
    Root.putRun key pick leafMax indexMax fresh maxHeight (rows.upTo (n + 2)) .empty =
      some (.node 1 (label 1, rows.strip (label 0) 0 n (rows.row (n + 1)))) := by
  induction n, hn using Nat.le_induction with
  | base =>
    have hleaf : Root.putRun key pick leafMax indexMax fresh maxHeight (rows.upTo 2) .empty =
      some (.node 0 (label 0, rows.row 0 ++ rows.row 1)) := putRun_leaf hpick hfresh
    rw [putRun_upTo_succ hleaf]
    refine (Root.putRun_split hpick (appendRight_leaf (hfresh 0)) (hfresh 1) hmax (fits 1)
      (rows.sorted 2) (above hleaf)).trans ?_
    simp [strip, leaf, extendRight, row]
  | succ n hn ih =>
    have hnode := ih (by omega)
    have happend := rows.appendRight_kept (hfresh 0) (label 1) 0 n (rows.first (n + 2)) hroom
    rw [zero_add] at happend
    rw [putRun_upTo_succ hnode]
    refine (Root.putRun_kept hpick happend hmax ?_ (rows.sorted (n + 2)) (above hnode)).trans ?_
    · rw [lastLeaf_strip, zero_add]
      exact fits (n + 1)
    · rw [extendRight_strip]
      rfl

/-- The tree of rows once its index node has divided. -/
theorem putRun_divided (hmax : 2 ≤ maxHeight) (hindex : 2 ≤ indexMax)
    (hlow : indexMax ≤ half indexMax + n) (hroom : n + 1 ≤ indexMax) :
    Root.putRun key pick leafMax indexMax fresh maxHeight (rows.upTo (half indexMax + n + 2))
      .empty =
        some (.node 2 (rows.divided label indexMax n (rows.row (half indexMax + n + 1)))) := by
  have hbase : indexMax - half indexMax ≤ n := by omega
  induction n, hbase using Nat.le_induction with
  | base =>
    obtain ⟨m, rfl⟩ : ∃ m, indexMax = m + 1 := ⟨indexMax - 1, by omega⟩
    have hhalf : half (m + 1) + (m + 1 - half (m + 1)) = m + 1 := by
      unfold half
      omega
    have hnode : Root.putRun key pick leafMax (m + 1) fresh maxHeight (rows.upTo (m + 2)) .empty =
        some (.node 1 (label 1, rows.strip (label 0) 0 m (rows.row (m + 1)))) :=
      putRun_node hpick hfresh (Nat.le_of_succ_le hmax) (by omega) le_rfl
    have happend := rows.appendRight_split (hfresh 0) (hfresh 1) (label 1) 0 m (rows.first (m + 2))
      rfl
    simp only [zero_add] at happend
    rw [hhalf, putRun_upTo_succ hnode]
    refine (Root.putRun_split hpick happend (hfresh 2) hmax ?_ (rows.sorted (m + 2))
      (above hnode)).trans ?_
    · rw [lastLeaf_strip, hhalf]
      exact fits (m + 1)
    · rw [extendRight_strip]
      rfl
  | succ n hn ih =>
    have hnode := ih (by omega) (by omega)
    have hcount : half indexMax + (n + 1) + 2 = half indexMax + n + 2 + 1 := rfl
    rw [hcount, putRun_upTo_succ hnode]
    refine (Root.putRun_kept hpick (appendRight_divided hfresh hroom) hmax ?_ (rows.sorted _)
      (above hnode)).trans ?_
    · rw [lastLeaf_divided]
      exact fits (half indexMax + (n + 1))
    · rw [extendRight_divided]
      rfl

end Run

end Rows

end Obmafs3.Library.SearchTree
