import Mathlib.Order.Basic

/-!
# Objects at places

A disk holds objects, each at a set of addresses that no other has, and all of these are marked in a
bitmap. An object can be written to another set of addresses that none of the others has.
-/

set_option autoImplicit false

namespace Obmafs3.Library.Places

open Function (update update_of_ne update_self)

variable {ι α : Type} {place : ι → ℕ → Prop} {content : ι → ℕ → α} {disk disk' : ℕ → α}
  {bitmap bitmap' : ℕ → Bool}

/-- Each object is at its place, and places are apart and marked. -/
structure Holds (place : ι → ℕ → Prop) (content : ι → ℕ → α) (disk : ℕ → α)
    (bitmap : ℕ → Bool) : Prop where
  holds : ∀ o a, place o a → disk a = content o a
  marked : ∀ o a, place o a → bitmap a = true
  apart : ∀ o o' a, place o a → place o' a → o = o'

variable {new : ℕ → α}

variable (hholds : Holds place content disk bitmap)
include hholds

/-- An object is written to another place, and at most the marks of the old one are taken off. -/
theorem Holds.move [DecidableEq ι] {o : ι} {target : ℕ → Prop}
    (hclear : ∀ o' ≠ o, ∀ a, target a → ¬place o' a) (hin : ∀ a, target a → disk' a = new a)
    (hout : ∀ a, ¬target a → disk' a = disk a) (hset : ∀ a, target a → bitmap' a = true)
    (hkeep : ∀ a, ¬target a → ¬place o a → bitmap' a = bitmap a) :
    Holds (update place o target) (update content o new) disk' bitmap' := by
  have hother {o' : ι} (hne : o' ≠ o) {a : ℕ} (ha : place o' a) : ¬target a ∧ ¬place o a :=
    ⟨fun h ↦ hclear o' hne a h ha, fun h ↦ hne (hholds.apart o' o a ha h)⟩
  refine ⟨fun o' a ha ↦ ?_, fun o' a ha ↦ ?_, fun o₁ o₂ a ha₁ ha₂ ↦ ?_⟩
  · by_cases heq : o' = o
    · subst heq
      rw [update_self] at ha ⊢
      exact hin a ha
    · rw [update_of_ne heq] at ha ⊢
      rw [hout a (hother heq ha).1, hholds.holds o' a ha]
  · by_cases heq : o' = o
    · subst heq
      rw [update_self] at ha
      exact hset a ha
    · rw [update_of_ne heq] at ha
      obtain ⟨htarget, hplace⟩ := hother heq ha
      rw [hkeep a htarget hplace, hholds.marked o' a ha]
  · by_cases h₁ : o₁ = o <;> by_cases h₂ : o₂ = o
    · rw [h₁, h₂]
    · subst h₁
      rw [update_self] at ha₁
      rw [update_of_ne h₂] at ha₂
      exact absurd ha₁ (hother h₂ ha₂).1
    · subst h₂
      rw [update_self] at ha₂
      rw [update_of_ne h₁] at ha₁
      exact absurd ha₂ (hother h₁ ha₁).1
    · rw [update_of_ne h₁] at ha₁
      rw [update_of_ne h₂] at ha₂
      exact hholds.apart o₁ o₂ a ha₁ ha₂

/-- An object is written to where it is. -/
theorem Holds.write [DecidableEq ι] {o : ι} (hin : ∀ a, place o a → disk' a = new a)
    (hout : ∀ a, ¬place o a → disk' a = disk a) :
    Holds place (update content o new) disk' bitmap := by
  have hmoved : Holds (update place o (place o)) (update content o new) disk'
      bitmap := by
    refine hholds.move (fun o' hne a ha ha' ↦ hne (hholds.apart o' o a ha' ha)) hin hout ?_ ?_
    · exact hholds.marked o
    · exact fun _ _ _ ↦ rfl
  rwa [Function.update_eq_self] at hmoved

end Obmafs3.Library.Places
