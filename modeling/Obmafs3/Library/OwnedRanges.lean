import Mathlib.Data.Prod.Lex

/-!
# Ranges of owners

A range has an owner and covers positions of it from its start on. Ranges that are apart cover
nothing together. In the order of owners and starts a key is `Inside` a range when it comes after
the start of the range and before its end: a range that is apart from another one does not start
inside it, and as long as no key of a set is inside a range, the keys of the set cannot tell the
start of the range from a position that it covers.
-/

set_option autoImplicit false

namespace Obmafs3.Library

/-- The positions of an owner from a start on. -/
structure OwnedRange where
  owner : ℕ
  start : ℕ
  length : ℕ

namespace OwnedRange

/-- The place of a range in the order of owners and starts. -/
def key (x : OwnedRange) : ℕ ×ₗ ℕ := toLex (x.owner, x.start)

def Covers (x : OwnedRange) (owner position : ℕ) : Prop :=
  x.owner = owner ∧ x.start ≤ position ∧ position < x.start + x.length

instance decidableCovers (x : OwnedRange) (owner position : ℕ) :
    Decidable (x.Covers owner position) :=
  inferInstanceAs (Decidable (_ ∧ _))

/-- Two ranges do not overlap. -/
def Apart (x y : OwnedRange) : Prop :=
  ∀ owner position, x.Covers owner position → ¬y.Covers owner position

/-- A key is strictly inside a range. -/
def Inside (x : OwnedRange) (k : ℕ ×ₗ ℕ) : Prop :=
  x.key < k ∧ k < toLex (x.owner, x.start + x.length)

/-- A range that is not empty and ends below a bound. -/
def Within (bound : ℕ) (x : OwnedRange) : Prop := x.length ≠ 0 ∧ x.start + x.length < bound

variable {x y : OwnedRange} {owner position bound : ℕ}

theorem Apart.symm (hapart : x.Apart y) : y.Apart x :=
  fun owner position hy hx ↦ hapart owner position hx hy

/-- Ranges of two owners are apart, and ranges of which one ends before the other starts. -/
theorem apart_of_disjoint (hdisjoint : x.owner ≠ y.owner ∨ x.start + x.length ≤ y.start ∨
      y.start + y.length ≤ x.start) : x.Apart y := by
  rintro owner position ⟨hxowner, hxle, hxlt⟩ ⟨hyowner, hyle, hylt⟩
  omega

theorem Within.covers_start (hwithin : x.Within bound) : x.Covers x.owner x.start :=
  ⟨rfl, le_rfl, Nat.lt_add_of_pos_right (Nat.pos_of_ne_zero hwithin.1)⟩

theorem covers_iff : x.Covers owner position ↔ x.key ≤ toLex (owner, position) ∧
        toLex (owner, position) < toLex (x.owner, x.start + x.length) := by
  simp only [Covers, key, Prod.Lex.toLex_le_toLex, Prod.Lex.toLex_lt_toLex]
  omega

/-- A range does not start inside one that it is apart from. -/
theorem Apart.not_inside (hapart : x.Apart y) (hy : y.Within bound) : ¬x.Inside y.key := by
  intro hinside
  have hcovers : x.Covers y.owner y.start := covers_iff.mpr ⟨hinside.1.le, hinside.2⟩
  exact hapart _ _ hcovers hy.covers_start

theorem Apart.key_ne (hapart : x.Apart y) (hx : x.Within bound) (hy : y.Within bound) :
    x.key ≠ y.key := by
  intro hkey
  obtain ⟨howner, hstart⟩ : x.owner = y.owner ∧ x.start = y.start := by
    simpa [key, Prod.ext_iff] using hkey
  have hcovers : x.Covers y.owner y.start := howner ▸ hstart ▸ hx.covers_start
  exact hapart _ _ hcovers hy.covers_start

/-- Between the start of a range and a position in it there is room only for keys inside it. -/
theorem Covers.le_iff (hcovers : x.Covers owner position) {k : ℕ ×ₗ ℕ} (hk : ¬x.Inside k) :
    k ≤ toLex (owner, position) ↔ k ≤ x.key := by
  obtain ⟨hle, hlt⟩ := covers_iff.mp hcovers
  constructor
  · intro hkle
    by_contra hgt
    exact hk ⟨not_le.mp hgt, hkle.trans_lt hlt⟩
  · exact fun hkle ↦ hkle.trans hle

end OwnedRange

end Obmafs3.Library
