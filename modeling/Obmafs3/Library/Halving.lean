import Mathlib.Tactic.Linarith

/-!
# Halving a window on a verdict

A search that asks at the middle of its window whether to go left, to go right or to stop. When the
verdict *left* leaves nothing to find behind it, `halve_iff` says what the search finds: a place at
which it would stop, and past which no probe on the way there has turned right. The probes on the
way to a place depend on the window alone.
-/

set_option autoImplicit false

namespace Obmafs3.Library.Halving

/-- The middle of the window `[lo, hi]`. -/
def middle (lo hi : ℤ) : ℤ := lo + (hi - lo) / 2

variable {lo hi : ℤ}

theorem le_middle (hwindow : lo ≤ hi) : lo ≤ middle lo hi := by
  unfold middle
  omega

theorem middle_le (hwindow : lo ≤ hi) : middle lo hi ≤ hi := by
  unfold middle
  omega

/-- The search: at `lt` the window moves right of the middle, at `gt` left of it. -/
def halve (judge : ℤ → Ordering) (lo hi : ℤ) : Bool :=
  if lo ≤ hi then
    match judge (middle lo hi) with
    | .lt => halve judge (middle lo hi + 1) hi
    | .gt => halve judge lo (middle lo hi - 1)
    | .eq => true
  else false
termination_by (hi + 1 - lo).toNat
decreasing_by all_goals unfold middle; omega

/-- The places that a search for `target` asks about. -/
def probes (target lo hi : ℤ) : List ℤ :=
  if lo ≤ hi then
    middle lo hi ::
      if target < middle lo hi then probes target lo (middle lo hi - 1)
      else if middle lo hi < target then probes target (middle lo hi + 1) hi
      else []
  else []
termination_by (hi + 1 - lo).toNat
decreasing_by all_goals unfold middle; omega

section Probes

variable {target lo hi : ℤ}

theorem probes_left (hwindow : lo ≤ hi) (hleft : target < middle lo hi) :
    probes target lo hi = middle lo hi :: probes target lo (middle lo hi - 1) := by
  rw [probes, if_pos hwindow, if_pos hleft]

theorem probes_right (hwindow : lo ≤ hi) (hright : middle lo hi < target) :
    probes target lo hi = middle lo hi :: probes target (middle lo hi + 1) hi := by
  rw [probes, if_pos hwindow, if_neg (not_lt.mpr hright.le), if_pos hright]

theorem probes_middle (hwindow : lo ≤ hi) : probes (middle lo hi) lo hi = [middle lo hi] := by
  rw [probes, if_pos hwindow, if_neg (lt_irrefl _), if_neg (lt_irrefl _)]

/-- Every probe lies in the window. -/
theorem mem_window_of_mem_probes {place : ℤ} (hplace : place ∈ probes target lo hi) :
    lo ≤ place ∧ place ≤ hi := by
  fun_induction probes target lo hi with
  | case1 lo hi hwindow ihleft ihright =>
    have hlow := le_middle hwindow
    have hhigh := middle_le hwindow
    rcases List.mem_cons.mp hplace with rfl | hplace
    · exact ⟨hlow, hhigh⟩
    · split_ifs at hplace with hleft hright
      · have := ihleft hplace
        omega
      · have := ihright hplace
        omega
      · simp at hplace
  | case2 lo hi hwindow => simp at hplace

end Probes

/-- The search can come to `target`: no probe past it turns right. -/
def Reaches (judge : ℤ → Ordering) (lo hi target : ℤ) : Prop :=
  ∀ probe ∈ probes target lo hi, target < probe → judge probe ≠ .lt

/-- Going left loses nothing: right of such a verdict there is no place to stop. -/
def LeftSafe (judge : ℤ → Ordering) (lo hi : ℤ) : Prop :=
  ∀ probe place, lo ≤ probe → probe ≤ place → place ≤ hi → judge probe = .gt → judge place ≠ .eq

variable {judge : ℤ → Ordering}

theorem LeftSafe.mono {lo hi lo' hi' : ℤ} (hsafe : LeftSafe judge lo hi) (hlo : lo ≤ lo')
    (hhi : hi' ≤ hi) : LeftSafe judge lo' hi' :=
  fun probe place hprobe hle hplace ↦
    hsafe probe place (hlo.trans hprobe) hle (hplace.trans hhi)

/-- The search finds something exactly if there is a place to stop that it can come to. -/
theorem halve_iff (hsafe : LeftSafe judge lo hi) : halve judge lo hi = true ↔
      ∃ place, lo ≤ place ∧ place ≤ hi ∧ judge place = .eq ∧ Reaches judge lo hi place := by
  fun_induction halve judge lo hi with
  | case1 lo hi hwindow hjudge ih =>
    have hmiddle := le_middle hwindow
    rw [ih (hsafe.mono (by omega) le_rfl)]
    constructor
    · rintro ⟨place, hlo, hhi, hstop, hreach⟩
      refine ⟨place, by omega, hhi, hstop, ?_⟩
      rw [Reaches, probes_right hwindow (by omega)]
      intro probe hprobe hpast
      rcases List.mem_cons.mp hprobe with rfl | hprobe
      · omega
      · exact hreach probe hprobe hpast
    · rintro ⟨place, hlo, hhi, hstop, hreach⟩
      -- A place left of the middle would have this probe past it.
      have hright : middle lo hi < place := by
        by_contra hnot
        rcases eq_or_lt_of_le (not_lt.mp hnot) with rfl | hleft
        · rw [hjudge] at hstop
          cases hstop
        · refine hreach (middle lo hi) ?_ hleft hjudge
          rw [probes_left hwindow hleft]
          exact List.mem_cons_self
      refine ⟨place, by omega, hhi, hstop, fun probe hprobe ↦ hreach probe ?_⟩
      rw [probes_right hwindow hright]
      exact List.mem_cons_of_mem _ hprobe
  | case2 lo hi hwindow hjudge ih =>
    have hmiddle := middle_le hwindow
    rw [ih (hsafe.mono le_rfl (by omega))]
    constructor
    · rintro ⟨place, hlo, hhi, hstop, hreach⟩
      refine ⟨place, hlo, by omega, hstop, ?_⟩
      rw [Reaches, probes_left hwindow (by omega)]
      intro probe hprobe hpast
      rcases List.mem_cons.mp hprobe with rfl | hprobe
      · rw [hjudge]
        exact Ordering.noConfusion
      · exact hreach probe hprobe hpast
    · rintro ⟨place, hlo, hhi, hstop, hreach⟩
      have hleft : place < middle lo hi := by
        by_contra hnot
        exact hsafe _ _ (le_middle hwindow) (not_lt.mp hnot) hhi hjudge hstop
      refine ⟨place, hlo, by omega, hstop, fun probe hprobe ↦ hreach probe ?_⟩
      rw [probes_left hwindow hleft]
      exact List.mem_cons_of_mem _ hprobe
  | case3 lo hi hwindow hjudge =>
    refine iff_of_true rfl ⟨_, le_middle hwindow, middle_le hwindow, hjudge, ?_⟩
    rw [Reaches, probes_middle hwindow]
    intro probe hprobe hpast
    rw [List.mem_singleton.mp hprobe] at hpast
    exact absurd hpast (lt_irrefl _)
  | case4 lo hi hwindow =>
    refine iff_of_false Bool.false_ne_true ?_
    rintro ⟨place, hlo, hhi, -⟩
    exact hwindow (hlo.trans hhi)

end Obmafs3.Library.Halving
