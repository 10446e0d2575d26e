import Mathlib.Order.Basic

/-!
# Runs of cells

Functions on addresses that are filled or copied over a run of addresses, and the longest run of
cells with a property around or from an address.
-/

set_option autoImplicit false

namespace Obmafs3.Library.Runs

variable {α : Type} {f : ℕ → α} {start src dst count i : ℕ}

/-- The address lies in a run. -/
def InRun (start count i : ℕ) : Prop := start ≤ i ∧ i < start + count

instance (start count i : ℕ) : Decidable (InRun start count i) :=
  inferInstanceAs (Decidable (_ ∧ _))

/-- A run filled with a value. -/
def fill (start count : ℕ) (a : α) (f : ℕ → α) : ℕ → α :=
  fun i ↦ if InRun start count i then a else f i

/-- A run copied to another address, as it was before. -/
def copy (src dst count : ℕ) (f : ℕ → α) : ℕ → α :=
  fun i ↦ if InRun dst count i then f (src + (i - dst)) else f i

theorem fill_in {a : α} (hi : InRun start count i) : fill start count a f i = a := if_pos hi

theorem fill_out {a : α} (hi : ¬InRun start count i) : fill start count a f i = f i := if_neg hi

theorem copy_in {b : ℕ} (hb : b < count) : copy src dst count f (dst + b) = f (src + b) := by
  have hrun : InRun dst count (dst + b) := ⟨Nat.le_add_right dst b, Nat.add_lt_add_left hb dst⟩
  rw [copy, if_pos hrun, Nat.add_sub_cancel_left]

theorem copy_out (hi : ¬InRun dst count i) : copy src dst count f i = f i := if_neg hi

theorem inRun_add {b : ℕ} (hb : b < count) : InRun start count (start + b) :=
  ⟨Nat.le_add_right start b, Nat.add_lt_add_left hb start⟩

theorem InRun.exists_add (hi : InRun start count i) : ∃ b < count, i = start + b :=
  ⟨i - start, by have := hi.1; have := hi.2; omega, by have := hi.1; omega⟩

/-! ### Maximal runs -/

/-- The first address of the run of cells with a property that ends at an address. -/
def runStart (p : ℕ → Bool) : ℕ → ℕ
  | 0 => 0
  | i + 1 => if p i then runStart p i else i + 1

/-- The first address from another on that is without a property, up to a number of cells. -/
def runEnd (p : ℕ → Bool) : (cells i : ℕ) → ℕ
  | 0, i => i
  | cells + 1, i => if p i then runEnd p cells (i + 1) else i

theorem runStart_le (p : ℕ → Bool) (i : ℕ) : runStart p i ≤ i := by
  induction i with
  | zero => exact Nat.le_refl 0
  | succ i ih =>
    rw [runStart]
    split_ifs
    · exact Nat.le_trans ih (Nat.le_succ i)
    · exact Nat.le_refl (i + 1)

variable {p : ℕ → Bool}

/-- All cells from the start of the run up to the address have the property. -/
theorem runStart_all {i j : ℕ} (hj : runStart p i ≤ j) (hlt : j < i) : p j = true := by
  induction i with
  | zero => exact absurd hlt (Nat.not_lt_zero j)
  | succ i ih =>
    rw [runStart] at hj
    split_ifs at hj with hp
    · rcases Nat.lt_succ_iff_lt_or_eq.mp hlt with hlt | rfl
      · exact ih hj hlt
      · exact hp
    · exact absurd hlt (Nat.not_lt.mpr hj)

/-- The cell in front of a run has not the property. -/
theorem runStart_before {i j : ℕ} (hj : runStart p i = j + 1) : p j = false := by
  induction i with
  | zero => cases hj
  | succ i ih =>
    rw [runStart] at hj
    split_ifs at hj with hp
    · exact ih hj
    · obtain rfl : i = j := Nat.succ.inj hj
      simpa using hp

/-- All cells of a run have the same start. -/
theorem runStart_eq {i j : ℕ} (hj : runStart p i ≤ j) (hle : j ≤ i) :
    runStart p j = runStart p i := by
  induction i with
  | zero => rw [Nat.le_zero.mp hle]
  | succ i ih =>
    rcases Nat.lt_or_eq_of_le hle with hlt | rfl
    · rw [runStart] at hj ⊢
      split_ifs at hj ⊢
      · exact ih hj (Nat.le_of_lt_succ hlt)
      · exact absurd hj (Nat.not_le.mpr hlt)
    · rfl

theorem le_runEnd (p : ℕ → Bool) (cells i : ℕ) : i ≤ runEnd p cells i := by
  induction cells generalizing i with
  | zero => exact Nat.le_refl i
  | succ cells ih =>
    rw [runEnd]
    split_ifs
    · exact Nat.le_trans (Nat.le_succ i) (ih (i + 1))
    · exact Nat.le_refl i

theorem runEnd_all {cells i j : ℕ} (hle : i ≤ j) (hj : j < runEnd p cells i) : p j = true := by
  induction cells generalizing i with
  | zero => exact absurd hle (Nat.not_le.mpr hj)
  | succ cells ih =>
    rw [runEnd] at hj
    split_ifs at hj with hp
    · rcases Nat.lt_or_eq_of_le hle with hlt | rfl
      · exact ih hlt hj
      · exact hp
    · exact absurd hle (Nat.not_le.mpr hj)

/-- The run goes on over cells with the property. -/
theorem lt_runEnd {cells i j : ℕ} (hall : ∀ k, i ≤ k → k ≤ j → p k = true) (hle : i ≤ j)
    (hj : j < i + cells) : j < runEnd p cells i := by
  induction cells generalizing i with
  | zero => omega
  | succ cells ih =>
    rw [runEnd, if_pos (hall i (Nat.le_refl i) hle)]
    rcases Nat.lt_or_eq_of_le hle with hlt | rfl
    · exact ih (fun k hk ↦ hall k (Nat.le_trans (Nat.le_succ i) hk)) hlt (by omega)
    · exact Nat.lt_of_succ_le (le_runEnd p cells (i + 1))

/-- The run ends at the first cell without the property. -/
theorem runEnd_eq {cells i j : ℕ} (hall : ∀ k, i ≤ k → k < j → p k = true) (hle : i ≤ j)
    (hj : j < i + cells) (hp : p j = false) : runEnd p cells i = j := by
  refine Nat.le_antisymm (Nat.le_of_not_lt fun hlt ↦ ?_) ?_
  · rw [runEnd_all hle hlt] at hp
    cases hp
  · rcases Nat.eq_or_lt_of_le hle with rfl | hlt
    · exact le_runEnd p cells i
    · obtain ⟨k, rfl⟩ := Nat.exists_eq_add_of_lt hlt
      have hlast : i + k < runEnd p cells i :=
        lt_runEnd (fun l hl hlk ↦ hall l hl (by omega)) (by omega) (by omega)
      omega

/-- A run that stops in front of its bound stops at a cell without the property. -/
theorem runEnd_stop {cells i : ℕ} (hstop : runEnd p cells i < i + cells) :
    p (runEnd p cells i) = false := by
  induction cells generalizing i with
  | zero => exact absurd hstop (Nat.lt_irrefl i)
  | succ cells ih =>
    rw [runEnd] at hstop ⊢
    split_ifs at hstop ⊢ with hp
    · exact ih (by omega)
    · simpa using hp

theorem runEnd_self {cells i : ℕ} (hp : cells = 0 ∨ p i = false) : runEnd p cells i = i := by
  cases cells with
  | zero => rfl
  | succ cells =>
    rw [runEnd, if_neg (Bool.eq_false_iff.mp (hp.resolve_left (Nat.succ_ne_zero cells)))]

theorem fill_zero (start : ℕ) (a : α) (f : ℕ → α) : fill start 0 a f = f :=
  funext fun _ ↦ fill_out fun h ↦ by have := h.1; have := h.2; omega

theorem copy_zero (src dst : ℕ) (f : ℕ → α) : copy src dst 0 f = f :=
  funext fun _ ↦ copy_out fun h ↦ by have := h.1; have := h.2; omega

end Obmafs3.Library.Runs
