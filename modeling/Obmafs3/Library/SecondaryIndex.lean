import Mathlib.Data.List.Basic

/-!
# Secondary indexes

An index over a collection of records holds what a partial function makes of them. `Mirrors` says
that it holds exactly that, and the lemmas how the two change together: when records go, when one
comes, and when an index is filled from another.
-/

set_option autoImplicit false

namespace Obmafs3.Library.SecondaryIndex

variable {ρ σ κ : Type} {entry : ρ → Option σ} {rs rs' : List ρ} {xs xs' : List σ}

/-- The index holds exactly what `entry` makes of the records. -/
def Mirrors (entry : ρ → Option σ) (rs : List ρ) (xs : List σ) : Prop :=
  ∀ x, x ∈ xs ↔ ∃ r ∈ rs, entry r = some x

/-- A record goes, and with it what the index has of it. -/
theorem Mirrors.remove {key : ρ → κ} {r : ρ} (hmirrors : Mirrors entry rs xs)
    (hkey : ∀ q p x, entry q = some x → entry p = some x → key q = key p)
    (honly : ∀ q ∈ rs, key q = key r → q = r) (hrs : ∀ q, q ∈ rs' ↔ q ∈ rs ∧ key q ≠ key r)
    (hxs : ∀ x, x ∈ xs' ↔ x ∈ xs ∧ entry r ≠ some x) : Mirrors entry rs' xs' := by
  intro x
  rw [hxs, hmirrors x]
  constructor
  · rintro ⟨⟨q, hq, hentry⟩, hgone⟩
    exact ⟨q, (hrs q).mpr ⟨hq, fun hk ↦ hgone (honly q hq hk ▸ hentry)⟩, hentry⟩
  · rintro ⟨q, hq, hentry⟩
    obtain ⟨hq, hne⟩ := (hrs q).mp hq
    exact ⟨⟨q, hq, hentry⟩, fun hr ↦ hne (hkey q r x hentry hr)⟩

/-- One record comes, and with it what the index has of it. -/
theorem Mirrors.add {r : ρ} (hmirrors : Mirrors entry rs xs)
    (hrs : ∀ q, q ∈ rs' ↔ q = r ∨ q ∈ rs) (hxs : ∀ x, x ∈ xs' ↔ entry r = some x ∨ x ∈ xs) :
    Mirrors entry rs' xs' := by
  intro x
  rw [hxs, hmirrors x]
  constructor
  · rintro (hentry | ⟨q, hq, hentry⟩)
    · exact ⟨r, (hrs r).mpr (Or.inl rfl), hentry⟩
    · exact ⟨q, (hrs q).mpr (Or.inr hq), hentry⟩
  · rintro ⟨q, hq, hentry⟩
    rcases (hrs q).mp hq with rfl | hq
    · exact Or.inl hentry
    · exact Or.inr ⟨q, hq, hentry⟩

/-- An index that is filled from another index over the same records. -/
theorem Mirrors.fill {τ : Type} {ys : List τ} {other : ρ → Option τ} {make : τ → Option σ}
    (hother : Mirrors other rs ys)
    (hmake : ∀ r x, entry r = some x ↔ ∃ y, other r = some y ∧ make y = some x)
    (hxs : ∀ x, x ∈ xs ↔ ∃ y ∈ ys, make y = some x) : Mirrors entry rs xs := by
  intro x
  rw [hxs]
  constructor
  · rintro ⟨y, hy, hmakes⟩
    obtain ⟨r, hr, hentry⟩ := (hother y).mp hy
    exact ⟨r, hr, (hmake r x).mpr ⟨y, hentry, hmakes⟩⟩
  · rintro ⟨r, hr, hentry⟩
    obtain ⟨y, hy, hmakes⟩ := (hmake r x).mp hentry
    exact ⟨y, (hother y).mpr ⟨r, hr, hy⟩, hmakes⟩

end Obmafs3.Library.SecondaryIndex
