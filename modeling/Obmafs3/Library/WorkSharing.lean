import Mathlib.Algebra.Order.BigOperators.Group.Finset

/-!
# Work shared by threads

Indices below a total are handed out by a counter. A thread takes the counter's value and increments
it, works on the index if it is below the total, and comes back for another; at the end it reports
how many it has finished. `Sharing` is what holds of such threads at any time: no index is in two
hands, those handed out are finished or in a hand, and the reports and the hands add up to what was
handed out.
-/

set_option autoImplicit false

namespace Obmafs3.Library.WorkSharing

open Finset
open Function (update update_of_ne update_self)

/-- What a thread has: the number of indices that it finished and did not report, and perhaps an
index, on which it has begun or not. -/
@[ext]
structure Hand where
  finished : ℕ
  index : Option ℕ
  begun : Bool

namespace Hand

def empty : Hand := ⟨0, none, false⟩

/-- The indices that a thread has to report. -/
def share (h : Hand) : ℕ := h.finished + if h.index.isSome then 1 else 0

@[simp]
theorem share_none (n : ℕ) (begun : Bool) : (⟨n, none, begun⟩ : Hand).share = n := rfl

@[simp]
theorem share_some (n i : ℕ) (begun : Bool) : (⟨n, some i, begun⟩ : Hand).share = n + 1 := rfl

theorem one_le_share {h : Hand} {i : ℕ} (hindex : h.index = some i) : 1 ≤ h.share := by
  rw [share, hindex]
  exact Nat.le_add_left 1 h.finished

end Hand

variable {τ : Type} [Fintype τ] [DecidableEq τ]

structure Sharing (total next counted : ℕ) (hand : τ → Hand) (started stored : Set ℕ) : Prop where
  index_lt : ∀ t i, (hand t).index = some i → i < next ∧ i < total
  apart : ∀ t t' i, (hand t).index = some i → (hand t').index = some i → t = t'
  fresh : ∀ t i, (hand t).index = some i → (hand t).begun = false → i ∉ started
  started_lt : ∀ i ∈ started, i < next ∧ i < total
  handed : ∀ i < next, i < total → i ∈ stored ∨ ∃ t, (hand t).index = some i
  count_eq : counted + ∑ t, (hand t).share = min next total

namespace Sharing

variable {total next counted n i : ℕ} {hand : τ → Hand} {started stored : Set ℕ} {t : τ}

/-! ### One thread -/

theorem sum_share_update (hand : τ → Hand) (t : τ) (h : Hand) :
    (∑ x, (update hand t h x).share) + (hand t).share = (∑ x, (hand x).share) + h.share := by
  have hrest : ∑ x ∈ univ.erase t, (update hand t h x).share =
      ∑ x ∈ univ.erase t, (hand x).share := by
    refine sum_congr rfl fun x hx ↦ ?_
    rw [update_of_ne (ne_of_mem_erase hx)]
  rw [← add_sum_erase univ _ (mem_univ t),
    ← add_sum_erase univ (fun x ↦ (hand x).share) (mem_univ t), hrest, update_self]
  omega

omit [Fintype τ] in
theorem index_update {h : Hand} (hindex : h.index = (hand t).index) (x : τ) :
    (update hand t h x).index = (hand x).index := by
  rcases eq_or_ne x t with rfl | hne
  · rw [update_self, hindex]
  · rw [update_of_ne hne]

/-! ### The steps of a thread -/

omit [DecidableEq τ] in
/-- With empty hands the work can start. -/
theorem start (hempty : ∀ t, hand t = .empty) : Sharing total 0 0 hand ∅ stored where
  index_lt t i hi := by
    rw [hempty t] at hi
    cases hi
  apart t t' i hi _ := by
    rw [hempty t] at hi
    cases hi
  fresh _ _ _ _ := Set.notMem_empty _
  started_lt _ hi := absurd hi (Set.notMem_empty _)
  handed i hi := absurd hi (Nat.not_lt_zero i)
  count_eq := by
    rw [Nat.zero_min, Nat.zero_add]
    exact sum_eq_zero fun t _ ↦ by rw [hempty t]; rfl

section

variable (hs : Sharing total next counted hand started stored)
include hs

/-- A thread takes the counter's value. -/
theorem take (ht : hand t = ⟨n, none, false⟩) : Sharing total (next + 1) counted
      (update hand t ⟨n, if next < total then some next else none, false⟩) started
      stored := by
  have hother (x : τ) (i : ℕ) (hi : (update hand t
      ⟨n, if next < total then some next else none, false⟩ x).index = some i) :
      (x = t ∧ i = next ∧ next < total) ∨ (x ≠ t ∧ (hand x).index = some i) := by
    rcases eq_or_ne x t with rfl | hne
    · rw [update_self] at hi
      dsimp only at hi
      split_ifs at hi with hlt
      exact Or.inl ⟨rfl, (Option.some.inj hi).symm, hlt⟩
    · rw [update_of_ne hne] at hi
      exact Or.inr ⟨hne, hi⟩
  refine ⟨fun x i hi ↦ ?_, fun x y i hi hj ↦ ?_, fun x i hi hbegun ↦ ?_, fun i hi ↦ ?_,
    fun i hi htotal ↦ ?_, ?_⟩
  · rcases hother x i hi with ⟨rfl, rfl, hlt⟩ | ⟨-, hi⟩
    · exact ⟨Nat.lt_succ_self i, hlt⟩
    · exact (hs.index_lt x i hi).imp_left Nat.lt_succ_of_lt
  · rcases hother x i hi with ⟨hx, hxi, -⟩ | ⟨-, hx⟩ <;>
      rcases hother y i hj with ⟨hy, hyi, -⟩ | ⟨-, hy⟩
    · exact hx.trans hy.symm
    · exact absurd (hs.index_lt y i hy).1 (hxi ▸ Nat.lt_irrefl _)
    · exact absurd (hs.index_lt x i hx).1 (hyi ▸ Nat.lt_irrefl _)
    · exact hs.apart x y i hx hy
  · rcases hother x i hi with ⟨rfl, rfl, -⟩ | ⟨hne, hi⟩
    · exact fun hmem ↦ Nat.lt_irrefl i (hs.started_lt i hmem).1
    · rw [update_of_ne hne] at hbegun
      exact hs.fresh x i hi hbegun
  · exact (hs.started_lt i hi).imp_left Nat.lt_succ_of_lt
  · rcases Nat.lt_succ_iff_lt_or_eq.mp hi with hlt | rfl
    · rcases hs.handed i hlt htotal with hstored | ⟨x, hx⟩
      · exact Or.inl hstored
      · have hne : x ≠ t := fun h ↦ by
          rw [h, ht] at hx
          cases hx
        exact Or.inr ⟨x, by rwa [update_of_ne hne]⟩
    · exact Or.inr ⟨t, by rw [update_self, if_pos htotal]⟩
  · have hsum := sum_share_update hand t ⟨n, if next < total then some next else none, false⟩
    have hcount := hs.count_eq
    rw [ht, Hand.share_none] at hsum
    by_cases hlt : next < total
    · rw [if_pos hlt, Hand.share_some] at hsum
      rw [if_pos hlt]
      omega
    · rw [if_neg hlt, Hand.share_none] at hsum
      rw [if_neg hlt]
      omega

/-- A thread begins with its index, which nobody began before. -/
theorem begin (ht : hand t = ⟨n, some i, false⟩) :
    i ∉ started ∧ Sharing total next counted (update hand t ⟨n, some i, true⟩)
      (insert i started) stored := by
  have hmine : (hand t).index = some i := by rw [ht]
  have hindex := index_update (h := ⟨n, some i, true⟩) hmine.symm
  refine ⟨hs.fresh t i hmine (by rw [ht]), fun x j hj ↦ hs.index_lt x j (hindex x ▸ hj),
    fun x y j hx hy ↦ hs.apart x y j (hindex x ▸ hx) (hindex y ▸ hy), fun x j hj hbegun ↦ ?_,
    fun j hj ↦ ?_, fun j hj htotal ↦ ?_, ?_⟩
  · rw [hindex] at hj
    have hne : x ≠ t := fun h ↦ by
      rw [h, update_self] at hbegun
      cases hbegun
    rw [update_of_ne hne] at hbegun
    rw [Set.mem_insert_iff, not_or]
    exact ⟨fun h ↦ hne (hs.apart x t i (h ▸ hj) hmine), hs.fresh x j hj hbegun⟩
  · rcases Set.mem_insert_iff.mp hj with rfl | hj
    · exact hs.index_lt t j hmine
    · exact hs.started_lt j hj
  · simp only [hindex]
    exact hs.handed j hj htotal
  · have hsum := sum_share_update hand t ⟨n, some i, true⟩
    rw [ht, Hand.share_some, Hand.share_some] at hsum
    rw [← hs.count_eq, Nat.add_right_cancel hsum]

/-- A thread finishes its index. -/
theorem finish (ht : hand t = ⟨n, some i, true⟩) :
    Sharing total next counted (update hand t ⟨n + 1, none, false⟩) started
      (insert i stored) := by
  have hother (x : τ) (j : ℕ)
      (hj : (update hand t ⟨n + 1, none, false⟩ x).index = some j) :
      x ≠ t ∧ (hand x).index = some j := by
    rcases eq_or_ne x t with rfl | hne
    · rw [update_self] at hj
      cases hj
    · rw [update_of_ne hne] at hj
      exact ⟨hne, hj⟩
  refine ⟨fun x j hj ↦ hs.index_lt x j (hother x j hj).2,
    fun x y j hx hy ↦ hs.apart x y j (hother x j hx).2 (hother y j hy).2, fun x j hj hbegun ↦ ?_,
    hs.started_lt, fun j hj htotal ↦ ?_, ?_⟩
  · obtain ⟨hne, hj⟩ := hother x j hj
    rw [update_of_ne hne] at hbegun
    exact hs.fresh x j hj hbegun
  · rcases hs.handed j hj htotal with hstored | ⟨x, hx⟩
    · exact Or.inl (Set.mem_insert_of_mem i hstored)
    · rcases eq_or_ne x t with rfl | hne
      · rw [ht] at hx
        exact Or.inl (Set.mem_insert_iff.mpr (Or.inl (Option.some.inj hx).symm))
      · exact Or.inr ⟨x, by rwa [update_of_ne hne]⟩
  · have hsum := sum_share_update hand t ⟨n + 1, none, false⟩
    rw [ht, Hand.share_some, Hand.share_none] at hsum
    rw [← hs.count_eq, Nat.add_right_cancel hsum]

/-- A thread reports what it finished. -/
theorem report {begun : Bool} (ht : hand t = ⟨n, none, begun⟩) :
    Sharing total next (counted + n) (update hand t .empty) started stored := by
  have hmine : Hand.empty.index = (hand t).index := by rw [ht]; rfl
  have hindex (x : τ) : (update hand t .empty x).index = (hand x).index := index_update hmine x
  refine ⟨fun x j hj ↦ hs.index_lt x j (hindex x ▸ hj),
    fun x y j hx hy ↦ hs.apart x y j (hindex x ▸ hx) (hindex y ▸ hy), fun x j hj hbegun ↦ ?_,
    hs.started_lt, fun j hj htotal ↦ ?_, ?_⟩
  · rw [hindex] at hj
    have hne : x ≠ t := fun h ↦ by
      rw [h, ht] at hj
      cases hj
    rw [update_of_ne hne] at hbegun
    exact hs.fresh x j hj hbegun
  · simp only [hindex]
    exact hs.handed j hj htotal
  · have hsum := sum_share_update hand t .empty
    rw [ht, Hand.share_none, Hand.empty, Hand.share_none, Nat.add_zero] at hsum
    have hcount := hs.count_eq
    rw [Hand.empty]
    omega

end

/-! ### The end of the work -/

omit [DecidableEq τ] in
/-- What a thread has to report is a part of what was handed out. -/
theorem counted_add_share_le (hs : Sharing total next counted hand started stored) (t : τ) :
    counted + (hand t).share ≤ total := by
  have hle : (hand t).share ≤ ∑ x, (hand x).share :=
    single_le_sum (fun x _ ↦ Nat.zero_le (hand x).share) (mem_univ t)
  have hcount := hs.count_eq
  omega

omit [DecidableEq τ] in
/-- When the reports come to the total, all indices are finished and all hands are empty. -/
theorem complete (hs : Sharing total next counted hand started stored) (htotal : total ≤ counted) :
    total ≤ next ∧ (∀ i < total, i ∈ stored) ∧ ∀ t, (hand t).share = 0 := by
  have hcount := hs.count_eq
  have hnext : total ≤ next := by omega
  have hempty (t : τ) : (hand t).share = 0 := by
    have hle := hs.counted_add_share_le t
    omega
  refine ⟨hnext, fun i hi ↦ ?_, hempty⟩
  refine (hs.handed i (hi.trans_le hnext) hi).resolve_right ?_
  rintro ⟨t, ht⟩
  have hone := Hand.one_le_share ht
  rw [hempty t] at hone
  exact absurd hone (Nat.not_succ_le_zero 0)

omit [DecidableEq τ] in
/-- When all indices are handed out and the reports are below the total, a thread has to report. -/
theorem exists_share (hs : Sharing total next counted hand started stored) (hnext : total ≤ next)
    (hcounted : counted < total) : ∃ t, 0 < (hand t).share := by
  by_contra hnone
  have hsum : ∑ t, (hand t).share = 0 :=
    sum_eq_zero fun t _ ↦ Nat.eq_zero_of_not_pos fun h ↦ hnone ⟨t, h⟩
  have hcount := hs.count_eq
  omega

end Sharing

end Obmafs3.Library.WorkSharing
