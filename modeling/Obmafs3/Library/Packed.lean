import Mathlib.Data.Nat.Digits.Defs

/-!
# Packed fields and arrays

Fields of a fixed width in little-endian order, and arrays of records of one width laid end to end,
as a packed structure holds them in a block. Bytes are natural numbers below 256.
-/

set_option autoImplicit false

namespace Obmafs3.Library.Packed

/-- The lowest `width` bytes of `n`, least significant first. -/
def leBytes : (width n : ℕ) → List ℕ
  | 0, _ => []
  | width + 1, n => n % 256 :: leBytes width (n / 256)

@[simp]
theorem length_leBytes (width n : ℕ) : (leBytes width n).length = width := by
  induction width generalizing n with
  | zero => rfl
  | succ width ih => rw [leBytes, List.length_cons, ih]

theorem ofDigits_leBytes (width n : ℕ) : Nat.ofDigits 256 (leBytes width n) = n % 256 ^ width := by
  induction width generalizing n with
  | zero => simp [leBytes, Nat.mod_one]
  | succ width ih =>
    rw [leBytes, Nat.ofDigits_cons, ih, pow_succ', Nat.mod_mul]

theorem ofDigits_leBytes_of_lt {width n : ℕ} (hlt : n < 256 ^ width) :
    Nat.ofDigits 256 (leBytes width n) = n := by
  rw [ofDigits_leBytes, Nat.mod_eq_of_lt hlt]

section Arrays

variable {α : Type} {width : ℕ} {encode : α → List ℕ} {decode : List ℕ → α}

/-- The first `count` records of an array whose records take `width` bytes each. -/
def readArray (width : ℕ) (decode : List ℕ → α) : (count : ℕ) → List ℕ → List α
  | 0, _ => []
  | count + 1, bytes =>
    decode (bytes.take width) :: readArray width decode count (bytes.drop width)

theorem length_flatMap_of_width (records : List α)
    (hwidth : ∀ record ∈ records, (encode record).length = width) :
    (records.flatMap encode).length = records.length * width := by
  induction records with
  | nil => simp
  | cons record records ih =>
    rw [List.flatMap_cons, List.length_append, hwidth record List.mem_cons_self,
      ih fun other hother ↦ hwidth other (List.mem_cons_of_mem record hother), List.length_cons,
      Nat.succ_mul, Nat.add_comm]

/-- An array is read back as it was written, whatever follows it. -/
theorem readArray_flatMap {records : List α} {rest : List ℕ}
    (hwidth : ∀ record ∈ records, (encode record).length = width)
    (hdecode : ∀ record ∈ records, decode (encode record) = record) :
    readArray width decode records.length (records.flatMap encode ++ rest) = records := by
  induction records with
  | nil => rfl
  | cons record records ih =>
    have hhead := hwidth record List.mem_cons_self
    rw [List.length_cons, readArray, List.flatMap_cons, List.append_assoc, ← hhead,
      List.take_left', List.drop_left', hdecode record List.mem_cons_self, hhead]
    · rw [ih (fun other hother ↦ hwidth other (List.mem_cons_of_mem record hother))
        fun other hother ↦ hdecode other (List.mem_cons_of_mem record hother)]
    · rfl
    · rfl

end Arrays

end Obmafs3.Library.Packed
