import Mathlib.Data.List.Basic
import Mathlib.Tactic.Linarith

/-!
# Binary searches over a sorted list of keys

Two loops over the half-open window `[lo, hi)`. `leafFind` looks for a key and returns its index,
or the index at which it would be inserted. `indexFind` returns the last index whose key is at or
below the one asked for, and index zero when every key is above it. On a strictly increasing list
`leafFind_found`, `leafFind_absent` and `indexFind_spec` say what the loops return, by the keys on
either side of the index.
-/

set_option autoImplicit false

namespace Obmafs3.Library.Search

variable {κ : Type} [LinearOrder κ]

/-- The outcome of a search for one key: its index, or the index at which it belongs. -/
inductive Position
  | found (index : ℕ)
  | absent (index : ℕ)
  deriving DecidableEq, Repr

/-- The search loop over the window `[lo, hi)`, halved at every round. -/
def bisect (keys : List κ) (key : κ) : (fuel lo hi : ℕ) → Position
  | 0, lo, _ => .absent lo
  | fuel + 1, lo, hi =>
    if lo < hi then
      match keys[lo + (hi - 1 - lo) / 2]? with
      | none => .absent lo
      | some middle =>
        if middle = key then .found (lo + (hi - 1 - lo) / 2)
        else if middle < key then bisect keys key fuel (lo + (hi - 1 - lo) / 2 + 1) hi
        else bisect keys key fuel lo (lo + (hi - 1 - lo) / 2)
    else .absent lo

/-- The index of a key, or the index at which it would be inserted. -/
def leafFind (keys : List κ) (key : κ) : Position :=
  bisect keys key keys.length 0 keys.length

/-- The routing loop: `result` is the last index seen whose key is at or below `key`. -/
def bisectLast (keys : List κ) (key : κ) : (fuel lo hi result : ℕ) → ℕ
  | 0, _, _, result => result
  | fuel + 1, lo, hi, result =>
    if lo < hi then
      match keys[lo + (hi - 1 - lo) / 2]? with
      | none => result
      | some middle =>
        if middle ≤ key then
          bisectLast keys key fuel (lo + (hi - 1 - lo) / 2 + 1) hi (lo + (hi - 1 - lo) / 2)
        else bisectLast keys key fuel lo (lo + (hi - 1 - lo) / 2) result
    else result

/-- The index of the last key at or below `key`, or zero. -/
def indexFind (keys : List κ) (key : κ) : ℕ :=
  bisectLast keys key keys.length 0 keys.length 0

variable {keys : List κ} {key : κ} {fuel lo hi index : ℕ}

theorem getElem_lt_of_pairwise (hsorted : keys.Pairwise (· < ·)) {i j : ℕ} (hij : i < j)
    (hj : j < keys.length) (hi : i < keys.length := hij.trans hj) :
    keys[i] < keys[j] :=
  List.pairwise_iff_getElem.mp hsorted i j hi hj hij

theorem getElem_le_of_pairwise (hsorted : keys.Pairwise (· ≤ ·)) {i j : ℕ} (hij : i < j)
    (hj : j < keys.length) (hi : i < keys.length := hij.trans hj) :
    keys[i] ≤ keys[j] :=
  List.pairwise_iff_getElem.mp hsorted i j hi hj hij

/-- A search that reports an index reports one that holds the key, sorted or not. -/
theorem bisect_found (hfind : bisect keys key fuel lo hi = .found index) :
    keys[index]? = some key := by
  induction fuel generalizing lo hi with
  | zero => simp [bisect] at hfind
  | succ fuel ih =>
    rw [bisect] at hfind
    split_ifs at hfind with hlohi
    generalize hmid : lo + (hi - 1 - lo) / 2 = mid at hfind
    cases hkey : keys[mid]? with
    | none => simp [hkey] at hfind
    | some middle =>
      simp only [hkey] at hfind
      split_ifs at hfind with heq hlt
      · cases hfind
        rw [hkey, heq]
      · exact ih hfind
      · exact ih hfind

theorem leafFind_found {index : ℕ} (hfind : leafFind keys key = .found index) :
    keys[index]? = some key :=
  bisect_found hfind

/-- A search that misses reports an index at which the key can be inserted, sorted or not. -/
theorem bisect_absent_le (hlohi : lo ≤ hi) (hhi : hi ≤ keys.length)
    (hfind : bisect keys key fuel lo hi = .absent index) : index ≤ keys.length := by
  induction fuel generalizing lo hi with
  | zero =>
    simp only [bisect, Position.absent.injEq] at hfind
    omega
  | succ fuel ih =>
    rw [bisect] at hfind
    split_ifs at hfind with hwindow
    · generalize hmid : lo + (hi - 1 - lo) / 2 = mid at hfind
      rw [List.getElem?_eq_getElem (show mid < keys.length by omega)] at hfind
      simp only at hfind
      split_ifs at hfind
      · exact ih (by omega) hhi hfind
      · exact ih (by omega) (by omega) hfind
    · simp only [Position.absent.injEq] at hfind
      omega

theorem leafFind_absent_le {index : ℕ} (hfind : leafFind keys key = .absent index) :
    index ≤ keys.length :=
  bisect_absent_le (Nat.zero_le _) le_rfl hfind

/-- The window invariant of the search loop: everything left of it is below the key, everything
right of it is above. -/
theorem bisect_absent (hsorted : keys.Pairwise (· < ·)) (hfuel : hi - lo ≤ fuel) (hlohi : lo ≤ hi)
    (hhi : hi ≤ keys.length) (hleft : ∀ i (h : i < keys.length), i < lo → keys[i] < key)
    (hright : ∀ i (h : i < keys.length), hi ≤ i → key < keys[i])
    (hfind : bisect keys key fuel lo hi = .absent index) :
    index ≤ keys.length ∧ (∀ i (h : i < keys.length), i < index → keys[i] < key) ∧
      ∀ i (h : i < keys.length), index ≤ i → key < keys[i] := by
  induction fuel generalizing lo hi with
  | zero =>
    simp only [bisect, Position.absent.injEq] at hfind
    subst hfind
    exact ⟨by omega, hleft, fun i h hi' ↦ hright i h (by omega)⟩
  | succ fuel ih =>
    rw [bisect] at hfind
    split_ifs at hfind with hwindow
    · generalize hmid : lo + (hi - 1 - lo) / 2 = mid at hfind
      have hmidlt : mid < keys.length := by omega
      rw [List.getElem?_eq_getElem hmidlt] at hfind
      simp only at hfind
      split_ifs at hfind with heq hlt
      · refine ih (by omega) (by omega) hhi (fun i h hi' ↦ ?_) hright hfind
        rcases Nat.lt_or_ge i mid with him | him
        · exact (getElem_lt_of_pairwise hsorted him hmidlt).trans hlt
        · obtain rfl : i = mid := by omega
          exact hlt
      · have hgt : key < keys[mid] := lt_of_le_of_ne (not_lt.mp hlt) (Ne.symm heq)
        refine ih (by omega) (by omega) (by omega) hleft (fun i h hi' ↦ ?_) hfind
        rcases Nat.lt_or_ge mid i with him | him
        · exact hgt.trans (getElem_lt_of_pairwise hsorted him h)
        · obtain rfl : i = mid := by omega
          exact hgt
    · simp only [Position.absent.injEq] at hfind
      subst hfind
      exact ⟨by omega, hleft, fun i h hi' ↦ hright i h (by omega)⟩

/-- On a strictly increasing list a search that misses splits the list: the keys before the
reported index are below the key and the keys from it on are above. -/
theorem leafFind_absent (hsorted : keys.Pairwise (· < ·)) {index : ℕ}
    (hfind : leafFind keys key = .absent index) :
    index ≤ keys.length ∧ (∀ k ∈ keys.take index, k < key) ∧ ∀ k ∈ keys.drop index, key < k := by
  obtain ⟨hle, hleft, hright⟩ := bisect_absent hsorted (le_of_eq (by omega)) (by omega) le_rfl
    (by omega) (fun i h hi ↦ absurd h (Nat.not_lt.mpr hi)) hfind
  refine ⟨hle, fun k hk ↦ ?_, fun k hk ↦ ?_⟩
  · obtain ⟨i, hi, rfl⟩ := List.mem_take_iff_getElem.mp hk
    exact hleft i (by omega) (by omega)
  · obtain ⟨i, hi, rfl⟩ := List.mem_drop_iff_getElem.mp hk
    exact hright _ _ (by omega)

/-- The routing loop reports a valid index, sorted or not. -/
theorem bisectLast_lt {fuel lo hi result : ℕ} (hhi : hi ≤ keys.length)
    (hresult : result < keys.length) : bisectLast keys key fuel lo hi result < keys.length := by
  induction fuel generalizing lo hi result with
  | zero => exact hresult
  | succ fuel ih =>
    rw [bisectLast]
    split_ifs with hwindow
    · generalize hmid : lo + (hi - 1 - lo) / 2 = mid
      have hmidlt : mid < keys.length := by omega
      rw [List.getElem?_eq_getElem hmidlt]
      simp only
      split_ifs
      · exact ih hhi hmidlt
      · exact ih (by omega) hresult
    · exact hresult

theorem indexFind_lt (hne : keys ≠ []) (key : κ) : indexFind keys key < keys.length :=
  bisectLast_lt le_rfl (List.length_pos_iff.mpr hne)

/-- The window invariant of the routing loop. -/
theorem bisectLast_spec (hsorted : keys.Pairwise (· ≤ ·)) {fuel lo hi result : ℕ}
    (hfuel : hi - lo ≤ fuel) (hlohi : lo ≤ hi) (hhi : hi ≤ keys.length)
    (hresult : result < keys.length) (hlo : lo = 0 ∧ result = 0 ∨ lo = result + 1)
    (hleft : ∀ i (h : i < keys.length), i < lo → keys[i] ≤ key)
    (hright : ∀ i (h : i < keys.length), hi ≤ i → key < keys[i]) :
    ∃ h : bisectLast keys key fuel lo hi result < keys.length,
      (bisectLast keys key fuel lo hi result ≠ 0 →
        keys[bisectLast keys key fuel lo hi result] ≤ key) ∧
      ∀ i (h : i < keys.length), bisectLast keys key fuel lo hi result < i → key < keys[i] := by
  induction fuel generalizing lo hi result with
  | zero =>
    simp only [bisectLast]
    refine ⟨hresult, fun hne ↦ ?_, fun i h hlt ↦ hright i h ?_⟩
    · exact hleft result hresult (by omega)
    · omega
  | succ fuel ih =>
    rw [bisectLast]
    split_ifs with hwindow
    · generalize hmid : lo + (hi - 1 - lo) / 2 = mid
      have hmidlt : mid < keys.length := by omega
      rw [List.getElem?_eq_getElem hmidlt]
      simp only
      split_ifs with hle
      · refine ih (by omega) (by omega) hhi hmidlt (Or.inr rfl) (fun i h hi' ↦ ?_) hright
        rcases Nat.lt_or_ge i mid with him | him
        · exact (getElem_le_of_pairwise hsorted him hmidlt).trans hle
        · obtain rfl : i = mid := by omega
          exact hle
      · refine ih (by omega) (by omega) (by omega) hresult hlo hleft (fun i h hi' ↦ ?_)
        rcases Nat.lt_or_ge mid i with him | him
        · exact (not_le.mp hle).trans_le (getElem_le_of_pairwise hsorted him h)
        · obtain rfl : i = mid := by omega
          exact not_le.mp hle
    · refine ⟨hresult, fun hne ↦ ?_, fun i h hlt ↦ hright i h (by omega)⟩
      exact hleft result hresult (by omega)

/-- Routing on a nonempty sorted list: the reported index is valid, its key is at or below the one
asked for unless it is the first, and every later key is above. -/
theorem indexFind_spec_le (hsorted : keys.Pairwise (· ≤ ·)) (hne : keys ≠ []) (key : κ) :
    ∃ h : indexFind keys key < keys.length,
      (indexFind keys key ≠ 0 → keys[indexFind keys key] ≤ key) ∧
      ∀ i (h : i < keys.length), indexFind keys key < i → key < keys[i] :=
  bisectLast_spec hsorted (by omega) (by omega) le_rfl (List.length_pos_iff.mpr hne)
    (Or.inl ⟨rfl, rfl⟩) (by omega) (fun i h hi ↦ absurd h (Nat.not_lt.mpr hi))

theorem indexFind_spec (hsorted : keys.Pairwise (· < ·)) (hne : keys ≠ []) (key : κ) :
    ∃ h : indexFind keys key < keys.length,
      (indexFind keys key ≠ 0 → keys[indexFind keys key] ≤ key) ∧
      ∀ i (h : i < keys.length), indexFind keys key < i → key < keys[i] :=
  indexFind_spec_le (hsorted.imp le_of_lt) hne key

/-! ### Keys past the end -/

theorem bisect_beyond (hbeyond : ∀ k ∈ keys, k < key) {fuel lo : ℕ}
    (hfuel : keys.length - lo ≤ fuel) (hlo : lo ≤ keys.length) :
    bisect keys key fuel lo keys.length = .absent keys.length := by
  induction fuel generalizing lo with
  | zero =>
    obtain rfl : lo = keys.length := by omega
    rfl
  | succ fuel ih =>
    rw [bisect]
    split_ifs with hwindow
    · generalize hmid : lo + (keys.length - 1 - lo) / 2 = mid
      have hmidlt : mid < keys.length := by omega
      have hlt := hbeyond _ (List.getElem_mem hmidlt)
      rw [List.getElem?_eq_getElem hmidlt]
      simp only [if_neg hlt.ne, if_pos hlt]
      exact ih (by omega) (by omega)
    · obtain rfl : lo = keys.length := by omega
      rfl

/-- A key above every key belongs at the end. -/
theorem leafFind_beyond (hbeyond : ∀ k ∈ keys, k < key) : leafFind keys key = .absent keys.length :=
  bisect_beyond hbeyond (by omega) (Nat.zero_le _)

theorem bisectLast_beyond (hbeyond : ∀ k ∈ keys, k ≤ key) {fuel lo result : ℕ}
    (hfuel : keys.length - lo ≤ fuel) (hlo : lo ≤ keys.length)
    (hresult : lo = keys.length → result = keys.length - 1) :
    bisectLast keys key fuel lo keys.length result = keys.length - 1 := by
  induction fuel generalizing lo result with
  | zero => exact hresult (by omega)
  | succ fuel ih =>
    rw [bisectLast]
    split_ifs with hwindow
    · generalize hmid : lo + (keys.length - 1 - lo) / 2 = mid
      have hmidlt : mid < keys.length := by omega
      rw [List.getElem?_eq_getElem hmidlt]
      simp only [if_pos (hbeyond _ (List.getElem_mem hmidlt))]
      exact ih (by omega) (by omega) (by omega)
    · exact hresult (by omega)

/-- A key at or above every separator is routed to the last slot. -/
theorem indexFind_beyond (hbeyond : ∀ k ∈ keys, k ≤ key) : indexFind keys key = keys.length - 1 :=
  bisectLast_beyond hbeyond (by omega) (Nat.zero_le _) (by omega)

variable (hbefore : ∀ k ∈ keys.tail, key < k)
include hbefore

theorem bisectLast_before {fuel lo hi : ℕ} (hlo : lo ≤ 1) :
    bisectLast keys key fuel lo hi 0 = 0 := by
  induction fuel generalizing lo hi with
  | zero => rfl
  | succ fuel ih =>
    rw [bisectLast]
    split_ifs with hwindow
    · generalize hmid : lo + (hi - 1 - lo) / 2 = mid
      cases hget : keys[mid]? with
      | none => rfl
      | some middle =>
        simp only
        rcases Nat.eq_zero_or_pos mid with rfl | hpos
        · split_ifs
          · exact ih le_rfl
          · exact ih hlo
        · have htail : keys.tail[mid - 1]? = some middle := by
            rw [List.getElem?_tail, Nat.sub_add_cancel hpos, hget]
          rw [if_neg (hbefore middle (List.mem_of_getElem? htail)).not_ge]
          exact ih hlo
    · rfl

/-- A key below every separator but the first is routed to slot zero. -/
theorem indexFind_before : indexFind keys key = 0 :=
  bisectLast_before hbefore (Nat.zero_le 1)

end Obmafs3.Library.Search
