import Mathlib.Order.Basic
import Mathlib.Tactic.Common

/-!
# Lagged Fibonacci generators

Streams in which every word is made of the words `k` and `j` places before it, by an operation that
undoes itself. Any `k` words in a row determine the stream. A buffer of `k` words holds such a stretch,
each word at its place modulo `k`, and one assignment moves the stretch by one place, forward or back.
-/

set_option autoImplicit false

namespace Obmafs3.Library.LaggedFibonacci

variable {G : Type} (op : G → G → G) (k j : ℕ)

/-- The recurrence. -/
def Lagged (w : ℕ → G) : Prop := ∀ n, w (n + k) = op (w n) (w (n + k - j))

/-- The stream that starts with the words of a buffer. -/
def extend (b : ℕ → G) (n : ℕ) : G :=
  if n < k ∨ j = 0 ∨ k = 0 then b n else op (extend b (n - k)) (extend b (n - j))
termination_by n

/-- The place that the word at place `i` is combined with. -/
def tap (i : ℕ) : ℕ := if i < j then i + k - j else i - j

/-- The assignment that moves the stretch by one place. -/
def stir (i : ℕ) (b : ℕ → G) : ℕ → G := Function.update b i (op (b i) (b (tap k j i)))

/-- The buffer holds the words from `m` on. -/
def Window (w : ℕ → G) (m : ℕ) (b : ℕ → G) : Prop := ∀ n, m ≤ n → n < m + k → b (n % k) = w n

variable {op k j} {w v : ℕ → G} {b : ℕ → G} {m : ℕ}

/-! ### Streams -/

section Streams

variable (hcancel : ∀ x y, op (op x y) y = x) (hj : 0 < j) (hjk : j < k)

include hj hjk in
theorem lagged_extend (b : ℕ → G) : Lagged op k j (extend op k j b) := by
  intro n
  conv_lhs => rw [extend]
  rw [if_neg (by omega), Nat.add_sub_cancel]

theorem extend_of_lt {n : ℕ} (hn : n < k) (b : ℕ → G) : extend op k j b n = b n := by
  rw [extend, if_pos (Or.inl hn)]

theorem Lagged.shift (hw : Lagged op k j w) (hjk : j ≤ k) (d : ℕ) :
    Lagged op k j fun n ↦ w (n + d) := by
  intro n
  have hstep := hw (n + d)
  rwa [show n + d + k = n + k + d by omega, show n + k + d - j = n + k - j + d by omega] at hstep

include hcancel in
/-- The recurrence read backwards. -/
theorem Lagged.back (hw : Lagged op k j w) (n : ℕ) : op (w (n + k)) (w (n + k - j)) = w n := by
  rw [hw, hcancel]

include hcancel hj hjk in
/-- What the operation keeps and a stretch of `k` words has, all words have. -/
theorem Lagged.forall_of_window (hw : Lagged op k j w) {P : G → Prop}
    (hP : ∀ x y, P x → P y → P (op x y)) (hwindow : ∀ n, m ≤ n → n < m + k → P (w n)) (n : ℕ) :
    P (w n) := by
  have hafter : ∀ n, m ≤ n → P (w n) := by
    intro n
    induction n using Nat.strongRecOn with
    | _ n ih =>
      intro hn
      rcases Nat.lt_or_ge n (m + k) with hlt | hge
      · exact hwindow n hn hlt
      · obtain ⟨d, rfl⟩ := Nat.exists_eq_add_of_le' (by omega : k ≤ n)
        rw [hw]
        exact hP _ _ (ih d (by omega) (by omega)) (ih _ (by omega) (by omega))
  -- Before the stretch, by the distance from it.
  suffices hback : ∀ d n, m ≤ n + d → P (w n) from hback m n (Nat.le_add_left m n)
  intro d
  induction d using Nat.strongRecOn with
  | _ d ih =>
    intro n hn
    rcases Nat.lt_or_ge n m with hlt | hge
    · rw [← hw.back hcancel n]
      refine hP _ _ ?_ ?_
      · exact ih (d - min d k) (by omega) (n + k) (by omega)
      · exact ih (d - min d (k - j)) (by omega) (n + k - j) (by omega)
    · exact hafter n hge

include hcancel hj hjk in
/-- Streams that agree on `k` words in a row are the same. -/
theorem Lagged.eq_of_window (hw : Lagged op k j w) (hv : Lagged op k j v)
    (hwindow : ∀ n, m ≤ n → n < m + k → w n = v n) : w = v := by
  have hpair : Lagged (fun x y : G × G ↦ (op x.1 y.1, op x.2 y.2)) k j fun n ↦ (w n, v n) :=
    fun n ↦ Prod.ext (hw n) (hv n)
  funext n
  have hcancel' : ∀ x y : G × G, (op (op x.1 y.1) y.1, op (op x.2 y.2) y.2) = x :=
    fun x y ↦ Prod.ext (hcancel _ _) (hcancel _ _)
  exact hpair.forall_of_window (P := fun x ↦ x.1 = x.2) hcancel' hj hjk
    (fun x y hx hy ↦ congrArg₂ op hx hy) hwindow n

end Streams

/-! ### Buffers -/

theorem stir_ne {i x : ℕ} (hne : x ≠ i) (b : ℕ → G) : stir op k j i b x = b x :=
  Function.update_of_ne hne _ _

theorem stir_self (i : ℕ) (b : ℕ → G) : stir op k j i b i = op (b i) (b (tap k j i)) :=
  Function.update_self _ _ _

/-- The place of the word that the new word is combined with. -/
theorem tap_mod (hj : 0 < j) (hjk : j < k) (m : ℕ) : tap k j (m % k) = (m + k - j) % k := by
  have hlt := Nat.mod_lt m (by omega : 0 < k)
  have hsplit := Nat.mod_add_div m k
  rw [tap]
  split_ifs with hsmall
  · have hsum : m + k - j = m % k + k - j + k * (m / k) := by omega
    rw [hsum, Nat.add_mul_mod_self_left]
    exact (Nat.mod_eq_of_lt (by omega)).symm
  · have hsum : m + k - j = m % k - j + k * (m / k + 1) := by
      rw [Nat.mul_succ]
      omega
    rw [hsum, Nat.add_mul_mod_self_left]
    exact (Nat.mod_eq_of_lt (by omega)).symm

/-- Two words less than `k` apart have different places. -/
theorem mod_ne_of_near {a c : ℕ} (hac : a < c) (hnear : c < a + k) : c % k ≠ a % k := by
  intro hmod
  have hdvd : k ∣ c - a := Nat.dvd_of_mod_eq_zero (Nat.sub_mod_eq_zero_of_mod_eq hmod)
  have := Nat.le_of_dvd (by omega) hdvd
  omega

section Buffers

variable (hcancel : ∀ x y, op (op x y) y = x) (hj : 0 < j) (hjk : j < k)

include hj hjk in
theorem Window.stir_forward (hw : Lagged op k j w) (hb : Window k w m b) :
    Window k w (m + 1) (stir op k j (m % k) b) := by
  intro n hn hlt
  rcases Nat.lt_or_ge n (m + k) with hold | hnew
  · rw [stir_ne (mod_ne_of_near (by omega) hold), hb n (by omega) hold]
  · obtain rfl : n = m + k := by omega
    rw [Nat.add_mod_right, stir_self, tap_mod hj hjk, hb m (Nat.le_refl m) (by omega),
      hb (m + k - j) (by omega) (by omega), hw]

include hcancel hj hjk in
/-- The same assignment leads back. -/
theorem Window.stir_back (hw : Lagged op k j w) (hb : Window k w (m + 1) b) :
    Window k w m (stir op k j (m % k) b) := by
  intro n hn hlt
  rcases Nat.eq_or_lt_of_le hn with rfl | hnew
  · have hlast : b (m % k) = w (m + k) := by
      rw [← Nat.add_mod_right]
      exact hb (m + k) (by omega) (by omega)
    rw [stir_self, tap_mod hj hjk, hlast, hb (m + k - j) (by omega) (by omega), hw.back hcancel]
  · rw [stir_ne (mod_ne_of_near hnew hlt), hb n (by omega) (by omega)]

include hj hjk in
/-- The places from the first on, in a buffer that holds a stretch from a multiple of `k` on. -/
theorem Window.foldl_stir (hw : Lagged op k j w) {c n : ℕ} (hn : n ≤ k)
    (hb : Window k w (c * k) b) :
    Window k w (c * k + n) ((List.range n).foldl (fun b i ↦ stir op k j i b) b) := by
  induction n with
  | zero => exact hb
  | succ n ih =>
    have hnext := (ih (by omega)).stir_forward hj hjk hw
    rw [Nat.mul_comm, Nat.mul_add_mod, Nat.mod_eq_of_lt hn, Nat.mul_comm] at hnext
    rw [List.range_succ, List.foldl_append]
    exact hnext

include hcancel hj hjk in
theorem Window.foldl_stir_reverse (hw : Lagged op k j w) {c n : ℕ} (hn : n ≤ k)
    (hb : Window k w (c * k + n) b) :
    Window k w (c * k) ((List.range n).reverse.foldl (fun b i ↦ stir op k j i b) b) := by
  induction n generalizing b with
  | zero => exact hb
  | succ n ih =>
    have hnext := Window.stir_back hcancel hj hjk hw (m := c * k + n) hb
    rw [Nat.mul_comm, Nat.mul_add_mod, Nat.mod_eq_of_lt hn, Nat.mul_comm] at hnext
    rw [List.range_succ, List.reverse_append]
    exact ih (by omega) hnext

include hcancel in
theorem stir_stir {i : ℕ} (htap : tap k j i ≠ i) (b : ℕ → G) :
    stir op k j i (stir op k j i b) = b := by
  rw [stir, stir_self, stir_ne htap, hcancel, stir, Function.update_idem, Function.update_eq_self]

include hcancel hj hjk in
/-- What a buffer holds is a stretch of some stream, wherever it is put. -/
theorem exists_window (m : ℕ) (b : ℕ → G) : ∃ w, Lagged op k j w ∧ Window k w m b := by
  induction m generalizing b with
  | zero =>
    refine ⟨extend op k j b, lagged_extend hj hjk b, fun n _ hlt ↦ ?_⟩
    rw [Nat.mod_eq_of_lt (by omega), extend_of_lt (by omega)]
  | succ m ih =>
    obtain ⟨w, hw, hb⟩ := ih (stir op k j (m % k) b)
    refine ⟨w, hw, ?_⟩
    have htap : tap k j (m % k) ≠ m % k := by
      rw [tap]
      split_ifs <;> omega
    have hforward := hb.stir_forward hj hjk hw
    rwa [stir_stir hcancel htap] at hforward

end Buffers

end Obmafs3.Library.LaggedFibonacci
