import Mathlib.Logic.Function.Iterate
import Mathlib.Tactic.Common

/-!
# Loops

A loop is a step on states and the states in which it is over. It is fine from a state if it comes
to an end and passes through no bad state. A set of states that the loop does not leave without a bad
state, and in which it is never over, shows the contrary.
-/

set_option autoImplicit false

namespace Obmafs3.Library.Loop

variable {σ : Type} (step : σ → σ) (final bad : σ → Prop)

/-- A property of all states that the loop comes to. -/
def Always (p : σ → Prop) (s : σ) : Prop := ∀ n, p (step^[n] s)

/-- The loop ends and comes to no bad state. -/
structure Fine (s : σ) : Prop where
  ends : ∃ n, final (step^[n] s)
  safe : Always step (¬bad ·) s

variable {step final bad} {p : σ → Prop} {s : σ}

theorem Always.here (h : Always step p s) : p s := h 0

theorem Always.next (h : Always step p s) : Always step p (step s) := fun n ↦ h (n + 1)

theorem always_cons (hhere : p s) (hnext : Always step p (step s)) : Always step p s
  | 0 => hhere
  | n + 1 => hnext n

theorem Fine.cons (hsafe : ¬bad s) (h : Fine step final bad (step s)) : Fine step final bad s := by
  obtain ⟨n, hn⟩ := h.ends
  exact ⟨⟨n + 1, hn⟩, always_cons hsafe h.safe⟩

/-- A loop that is over stays where it is. -/
theorem fine_of_final (hfinal : final s) (hsafe : ¬bad s) (hstay : step s = s) :
    Fine step final bad s := by
  refine ⟨⟨0, hfinal⟩, fun n ↦ ?_⟩
  rwa [Function.iterate_fixed hstay]

section

variable (hstay : ∀ s, final s → step s = s) (h : Fine step final bad s)
include hstay h

theorem Fine.next : Fine step final bad (step s) := by
  refine ⟨?_, h.safe.next⟩
  obtain ⟨n, hn⟩ := h.ends
  refine ⟨n, ?_⟩
  rw [← Function.iterate_succ_apply, Function.iterate_succ_apply', hstay _ hn]
  exact hn

theorem Fine.always : Always step (Fine step final bad) s := by
  intro n
  induction n with
  | zero => exact h
  | succ n ih =>
    rw [Function.iterate_succ_apply']
    exact ih.next hstay

end

/-- States in which the loop is not over and that it does not leave. -/
theorem not_fine_of_closed (stuck : σ → Prop)
    (hstuck : ∀ s, stuck s → ¬final s ∧ (bad s ∨ stuck (step s))) (h : stuck s) :
    ¬Fine step final bad s := by
  intro hfine
  have hall : Always step stuck s := by
    intro n
    induction n with
    | zero => exact h
    | succ n ih =>
      rw [Function.iterate_succ_apply']
      exact (hstuck _ ih).2.resolve_left (hfine.safe n)
  obtain ⟨n, hn⟩ := hfine.ends
  exact (hstuck _ (hall n)).1 hn

end Obmafs3.Library.Loop
