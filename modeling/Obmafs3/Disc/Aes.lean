import Obmafs3.Library.BlockChaining
import Mathlib.Algebra.Group.Fin.Basic
import Mathlib.Data.List.GetD

/-!
# AES-128

The cipher of the disc images. A block is a square of bytes, by column and row, as its sixteen bytes
are laid out. Enciphering and deciphering undo each other whatever the round keys are: the tables are
inverse to each other, the rows are shifted back, and mixing the columns twice is what
`inv_mix_columns` does to them before it mixes once.
-/

set_option autoImplicit false

namespace Obmafs3

open Library.BlockChaining

/-! ### Tables -/

def sbox : List UInt8 := [0x63, 0x7C, 0x77, 0x7B, 0xF2, 0x6B, 0x6F, 0xC5, 0x30, 0x01, 0x67, 0x2B, 0xFE, 0xD7, 0xAB, 0x76,
  0xCA, 0x82, 0xC9, 0x7D, 0xFA, 0x59, 0x47, 0xF0, 0xAD, 0xD4, 0xA2, 0xAF, 0x9C, 0xA4, 0x72, 0xC0,
  0xB7, 0xFD, 0x93, 0x26, 0x36, 0x3F, 0xF7, 0xCC, 0x34, 0xA5, 0xE5, 0xF1, 0x71, 0xD8, 0x31, 0x15,
  0x04, 0xC7, 0x23, 0xC3, 0x18, 0x96, 0x05, 0x9A, 0x07, 0x12, 0x80, 0xE2, 0xEB, 0x27, 0xB2, 0x75,
  0x09, 0x83, 0x2C, 0x1A, 0x1B, 0x6E, 0x5A, 0xA0, 0x52, 0x3B, 0xD6, 0xB3, 0x29, 0xE3, 0x2F, 0x84,
  0x53, 0xD1, 0x00, 0xED, 0x20, 0xFC, 0xB1, 0x5B, 0x6A, 0xCB, 0xBE, 0x39, 0x4A, 0x4C, 0x58, 0xCF,
  0xD0, 0xEF, 0xAA, 0xFB, 0x43, 0x4D, 0x33, 0x85, 0x45, 0xF9, 0x02, 0x7F, 0x50, 0x3C, 0x9F, 0xA8,
  0x51, 0xA3, 0x40, 0x8F, 0x92, 0x9D, 0x38, 0xF5, 0xBC, 0xB6, 0xDA, 0x21, 0x10, 0xFF, 0xF3, 0xD2,
  0xCD, 0x0C, 0x13, 0xEC, 0x5F, 0x97, 0x44, 0x17, 0xC4, 0xA7, 0x7E, 0x3D, 0x64, 0x5D, 0x19, 0x73,
  0x60, 0x81, 0x4F, 0xDC, 0x22, 0x2A, 0x90, 0x88, 0x46, 0xEE, 0xB8, 0x14, 0xDE, 0x5E, 0x0B, 0xDB,
  0xE0, 0x32, 0x3A, 0x0A, 0x49, 0x06, 0x24, 0x5C, 0xC2, 0xD3, 0xAC, 0x62, 0x91, 0x95, 0xE4, 0x79,
  0xE7, 0xC8, 0x37, 0x6D, 0x8D, 0xD5, 0x4E, 0xA9, 0x6C, 0x56, 0xF4, 0xEA, 0x65, 0x7A, 0xAE, 0x08,
  0xBA, 0x78, 0x25, 0x2E, 0x1C, 0xA6, 0xB4, 0xC6, 0xE8, 0xDD, 0x74, 0x1F, 0x4B, 0xBD, 0x8B, 0x8A,
  0x70, 0x3E, 0xB5, 0x66, 0x48, 0x03, 0xF6, 0x0E, 0x61, 0x35, 0x57, 0xB9, 0x86, 0xC1, 0x1D, 0x9E,
  0xE1, 0xF8, 0x98, 0x11, 0x69, 0xD9, 0x8E, 0x94, 0x9B, 0x1E, 0x87, 0xE9, 0xCE, 0x55, 0x28, 0xDF,
  0x8C, 0xA1, 0x89, 0x0D, 0xBF, 0xE6, 0x42, 0x68, 0x41, 0x99, 0x2D, 0x0F, 0xB0, 0x54, 0xBB, 0x16]

def invSbox : List UInt8 := [0x52, 0x09, 0x6A, 0xD5, 0x30, 0x36, 0xA5, 0x38, 0xBF, 0x40, 0xA3, 0x9E, 0x81, 0xF3, 0xD7, 0xFB,
  0x7C, 0xE3, 0x39, 0x82, 0x9B, 0x2F, 0xFF, 0x87, 0x34, 0x8E, 0x43, 0x44, 0xC4, 0xDE, 0xE9, 0xCB,
  0x54, 0x7B, 0x94, 0x32, 0xA6, 0xC2, 0x23, 0x3D, 0xEE, 0x4C, 0x95, 0x0B, 0x42, 0xFA, 0xC3, 0x4E,
  0x08, 0x2E, 0xA1, 0x66, 0x28, 0xD9, 0x24, 0xB2, 0x76, 0x5B, 0xA2, 0x49, 0x6D, 0x8B, 0xD1, 0x25,
  0x72, 0xF8, 0xF6, 0x64, 0x86, 0x68, 0x98, 0x16, 0xD4, 0xA4, 0x5C, 0xCC, 0x5D, 0x65, 0xB6, 0x92,
  0x6C, 0x70, 0x48, 0x50, 0xFD, 0xED, 0xB9, 0xDA, 0x5E, 0x15, 0x46, 0x57, 0xA7, 0x8D, 0x9D, 0x84,
  0x90, 0xD8, 0xAB, 0x00, 0x8C, 0xBC, 0xD3, 0x0A, 0xF7, 0xE4, 0x58, 0x05, 0xB8, 0xB3, 0x45, 0x06,
  0xD0, 0x2C, 0x1E, 0x8F, 0xCA, 0x3F, 0x0F, 0x02, 0xC1, 0xAF, 0xBD, 0x03, 0x01, 0x13, 0x8A, 0x6B,
  0x3A, 0x91, 0x11, 0x41, 0x4F, 0x67, 0xDC, 0xEA, 0x97, 0xF2, 0xCF, 0xCE, 0xF0, 0xB4, 0xE6, 0x73,
  0x96, 0xAC, 0x74, 0x22, 0xE7, 0xAD, 0x35, 0x85, 0xE2, 0xF9, 0x37, 0xE8, 0x1C, 0x75, 0xDF, 0x6E,
  0x47, 0xF1, 0x1A, 0x71, 0x1D, 0x29, 0xC5, 0x89, 0x6F, 0xB7, 0x62, 0x0E, 0xAA, 0x18, 0xBE, 0x1B,
  0xFC, 0x56, 0x3E, 0x4B, 0xC6, 0xD2, 0x79, 0x20, 0x9A, 0xDB, 0xC0, 0xFE, 0x78, 0xCD, 0x5A, 0xF4,
  0x1F, 0xDD, 0xA8, 0x33, 0x88, 0x07, 0xC7, 0x31, 0xB1, 0x12, 0x10, 0x59, 0x27, 0x80, 0xEC, 0x5F,
  0x60, 0x51, 0x7F, 0xA9, 0x19, 0xB5, 0x4A, 0x0D, 0x2D, 0xE5, 0x7A, 0x9F, 0x93, 0xC9, 0x9C, 0xEF,
  0xA0, 0xE0, 0x3B, 0x4D, 0xAE, 0x2A, 0xF5, 0xB0, 0xC8, 0xEB, 0xBB, 0x3C, 0x83, 0x53, 0x99, 0x61,
  0x17, 0x2B, 0x04, 0x7E, 0xBA, 0x77, 0xD6, 0x26, 0xE1, 0x69, 0x14, 0x63, 0x55, 0x21, 0x0C, 0x7D]

def rcon : List UInt8 := [0x01, 0x02, 0x04, 0x08, 0x10, 0x20, 0x40, 0x80, 0x1B, 0x36]

/-- The bit that a shift to the left drops. -/
def topBit (x : UInt8) : UInt8 := (x >>> 7) &&& 1

/-- Multiplication by 2. -/
def xtime (x : UInt8) : UInt8 := (x <<< 1) ^^^ (topBit x * 0x1B)

/-! ### Blocks -/

/-- The sixteen bytes of a block, by columns. -/
@[ext] structure AesBlock where
  bytes : List UInt8
  length_eq : bytes.length = 16

/-- The byte at a column and a row. -/
def AesBlock.at (s : AesBlock) (c r : Fin 4) : UInt8 := s.bytes.getD (4 * c + r) 0

def AesBlock.ofFn (f : Fin 4 → Fin 4 → UInt8) : AesBlock :=
  ⟨(List.range 16).map fun i ↦ f (Fin.ofNat 4 (i / 4)) (Fin.ofNat 4 i), by simp⟩

/-- The block at the front of some bytes. -/
def AesBlock.ofBytes (bytes : List UInt8) : AesBlock := .ofFn fun c r ↦ bytes.getD (4 * c + r) 0

@[simp] theorem AesBlock.at_ofFn (f : Fin 4 → Fin 4 → UInt8) (c r : Fin 4) :
    (AesBlock.ofFn f).at c r = f c r := by
  have hlt : 4 * (c : ℕ) + r < 16 := by omega
  have hc : Fin.ofNat 4 ((4 * (c : ℕ) + r) / 4) = c := by
    apply Fin.ext
    simp only [Fin.ofNat]
    omega
  have hr : Fin.ofNat 4 (4 * (c : ℕ) + r) = r := by
    apply Fin.ext
    simp only [Fin.ofNat]
    omega
  rw [AesBlock.at, List.getD_eq_getElem _ _ (by simpa [AesBlock.ofFn] using hlt)]
  simp only [AesBlock.ofFn, List.getElem_map, List.getElem_range, hc, hr]

variable {bytes : List UInt8}

theorem AesBlock.bytes_ofBytes (hlength : bytes.length = 16) :
    (AesBlock.ofBytes bytes).bytes = bytes := by
  refine List.ext_getElem (by simp [AesBlock.ofBytes, AesBlock.ofFn, hlength]) fun i hi _ ↦ ?_
  have hlt : i < 16 := by simpa [AesBlock.ofBytes, AesBlock.ofFn] using hi
  have hindex : 4 * (Fin.ofNat 4 (i / 4) : ℕ) + (Fin.ofNat 4 i : ℕ) = i := by
    simp only [Fin.ofNat]
    omega
  simp only [AesBlock.ofBytes, AesBlock.ofFn, List.getElem_map, List.getElem_range, hindex]
  exact List.getD_eq_getElem _ _ _

@[simp] theorem AesBlock.ofBytes_bytes (s : AesBlock) : AesBlock.ofBytes s.bytes = s :=
  AesBlock.ext (AesBlock.bytes_ofBytes s.length_eq)

/-- Two blocks are the same when their bytes are. -/
theorem AesBlock.eq_of_at {s t : AesBlock} (hat : ∀ c r, s.at c r = t.at c r) : s = t := by
  rw [← s.ofBytes_bytes, ← t.ofBytes_bytes]
  exact congrArg AesBlock.ofFn (funext fun c ↦ funext fun r ↦ hat c r)

/-- The bytes of two blocks, one by one. -/
def AesBlock.xor (s t : AesBlock) : AesBlock := .ofFn fun c r ↦ s.at c r ^^^ t.at c r

/-! ### The rounds -/

def subBytes (s : AesBlock) : AesBlock := .ofFn fun c r ↦ sbox.getD (s.at c r).toNat 0

def invSubBytes (s : AesBlock) : AesBlock := .ofFn fun c r ↦ invSbox.getD (s.at c r).toNat 0

/-- Row `r` moves `r` columns to the left. -/
def shiftRows (s : AesBlock) : AesBlock := .ofFn fun c r ↦ s.at (c + r) r

def invShiftRows (s : AesBlock) : AesBlock := .ofFn fun c r ↦ s.at (c - r) r

def mixColumns (s : AesBlock) : AesBlock := .ofFn fun c r ↦
  s.at c r ^^^ ((s.at c 0 ^^^ s.at c 1 ^^^ s.at c 2 ^^^ s.at c 3) ^^^
    xtime (s.at c r ^^^ s.at c (r + 1)))

def invMixColumns (s : AesBlock) : AesBlock :=
  mixColumns (.ofFn fun c r ↦ s.at c r ^^^ xtime (xtime (s.at c r ^^^ s.at c (r + 2))))

/-! ### The cipher -/

/-- A word of the key after the words before it. -/
def nextKeyWord (words : List (List UInt8)) (i : ℕ) : List UInt8 :=
  let t := words.getD (i - 1) []
  let t :=
    if i % 4 = 0 then
      [sbox.getD (t.getD 1 0).toNat 0 ^^^ rcon.getD (i / 4 - 1) 0, sbox.getD (t.getD 2 0).toNat 0,
        sbox.getD (t.getD 3 0).toNat 0, sbox.getD (t.getD 0 0).toNat 0]
    else t
  List.zipWith (· ^^^ ·) (words.getD (i - 4) []) t

/-- `key_expansion`: the 44 words of the eleven round keys. -/
def keyExpansion (key : List UInt8) : List (List UInt8) :=
  (List.range' 4 40).foldl (fun words i ↦ words ++ [nextKeyWord words i])
    ((List.range 4).map fun w ↦ (key.drop (4 * w)).take 4)

/-- The round key that begins at byte `16 * round`. -/
def roundKey (words : List (List UInt8)) (round : ℕ) : AesBlock := .ofFn fun c r ↦
  (words.getD (4 * round + c) []).getD r 0

section Cipher

variable (roundKeys : ℕ → AesBlock)

/-- `aes128_encrypt_block`. -/
def aes128EncryptBlock (s : AesBlock) : AesBlock :=
  let s := (List.range' 1 9).foldl
    (fun s round ↦ AesBlock.xor (mixColumns (shiftRows (subBytes s))) (roundKeys round))
    (AesBlock.xor s (roundKeys 0))
  AesBlock.xor (shiftRows (subBytes s)) (roundKeys 10)

/-- `aes128_decrypt_block`. -/
def aes128DecryptBlock (s : AesBlock) : AesBlock :=
  let s := (List.range' 1 9).reverse.foldl
    (fun s round ↦ invMixColumns (AesBlock.xor (invSubBytes (invShiftRows s)) (roundKeys round)))
    (AesBlock.xor s (roundKeys 10))
  AesBlock.xor (invSubBytes (invShiftRows s)) (roundKeys 0)

end Cipher

/-- `aes128_cbc_decrypt` after `aes128_init`. -/
def aes128CbcDecrypt (key iv input : List UInt8) : List UInt8 :=
  let cipher := aes128DecryptBlock (roundKey (keyExpansion key))
  (decrypt AesBlock.xor cipher (.ofBytes iv) ((parts 16 input).map .ofBytes)).flatMap AesBlock.bytes

/-- `aes128_cbc_encrypt` after `aes128_init`. -/
def aes128CbcEncrypt (key iv input : List UInt8) : List UInt8 :=
  let cipher := aes128EncryptBlock (roundKey (keyExpansion key))
  (encrypt AesBlock.xor cipher (.ofBytes iv) ((parts 16 input).map .ofBytes)).flatMap AesBlock.bytes

/-! ### Deciphering is undone -/

theorem AesBlock.xor_xor (s t : AesBlock) : AesBlock.xor (AesBlock.xor s t) t = s := by
  apply AesBlock.eq_of_at
  simp [AesBlock.xor, UInt8.xor_assoc]

theorem sbox_invSbox (x : UInt8) : sbox.getD (invSbox.getD x.toNat 0).toNat 0 = x := by
  have hall : ∀ i : Fin 256, sbox.getD (invSbox.getD i.val 0).toNat 0 = UInt8.ofFin i := by
    decide +kernel
  exact hall x.toFin

theorem subBytes_invSubBytes (s : AesBlock) : subBytes (invSubBytes s) = s := by
  apply AesBlock.eq_of_at
  intro c r
  simp only [subBytes, invSubBytes, AesBlock.at_ofFn, sbox_invSbox]

theorem shiftRows_invShiftRows (s : AesBlock) : shiftRows (invShiftRows s) = s := by
  apply AesBlock.eq_of_at
  simp [shiftRows, invShiftRows]

/-- Both steps in front of the columns, and their inverses in the order of deciphering. -/
theorem shiftRows_subBytes_invSubBytes_invShiftRows (s : AesBlock) :
    shiftRows (subBytes (invSubBytes (invShiftRows s))) = s := by
  rw [subBytes_invSubBytes, shiftRows_invShiftRows]

theorem topBit_eq (x : UInt8) : topBit x = 0 ∨ topBit x = 1 := by
  have hall : ∀ i : Fin 256, topBit (UInt8.ofFin i) = 0 ∨ topBit (UInt8.ofFin i) = 1 := by
    decide +kernel
  exact hall x.toFin

theorem topBit_xor (x y : UInt8) : topBit (x ^^^ y) = topBit x ^^^ topBit y := by
  rw [topBit, topBit, topBit, UInt8.shiftRight_xor]
  apply UInt8.toNat_inj.mp
  simp only [UInt8.toNat_and, UInt8.toNat_xor, Nat.and_xor_distrib_right]

@[simp] theorem xtime_xor (x y : UInt8) : xtime (x ^^^ y) = xtime x ^^^ xtime y := by
  have hmul : (topBit x ^^^ topBit y) * 0x1B = topBit x * 0x1B ^^^ topBit y * 0x1B := by
    rcases topBit_eq x with hx | hx <;> rcases topBit_eq y with hy | hy <;> rw [hx, hy] <;> rfl
  rw [xtime, topBit_xor, hmul, UInt8.shiftLeft_xor, xtime, xtime]
  ac_rfl

theorem xor_xor_cancel (x y : UInt8) : x ^^^ (x ^^^ y) = y := by
  rw [← UInt8.xor_assoc, UInt8.xor_self, UInt8.zero_xor]

theorem xor_left_comm (x y z : UInt8) : x ^^^ (y ^^^ z) = y ^^^ (x ^^^ z) := by
  rw [← UInt8.xor_assoc, UInt8.xor_comm x y, UInt8.xor_assoc]

/-- Mixing keeps the sum of a column. -/
theorem mixColumns_sum (s : AesBlock) (c : Fin 4) :
    (mixColumns s).at c 0 ^^^ (mixColumns s).at c 1 ^^^ (mixColumns s).at c 2 ^^^
      (mixColumns s).at c 3 = s.at c 0 ^^^ s.at c 1 ^^^ s.at c 2 ^^^ s.at c 3 := by
  have hnext : (0 : Fin 4) + 1 = 1 ∧ (1 : Fin 4) + 1 = 2 ∧ (2 : Fin 4) + 1 = 3 ∧
      (3 : Fin 4) + 1 = 0 := by decide
  have hsum (a b d e x a' b' d' e' : UInt8) :
      (a ^^^ (x ^^^ (a' ^^^ b'))) ^^^ (b ^^^ (x ^^^ (b' ^^^ d'))) ^^^
        (d ^^^ (x ^^^ (d' ^^^ e'))) ^^^ (e ^^^ (x ^^^ (e' ^^^ a'))) = a ^^^ b ^^^ d ^^^ e := by
    simp only [UInt8.xor_comm, xor_left_comm, xor_xor_cancel, UInt8.xor_self, UInt8.xor_zero]
  simp only [mixColumns, AesBlock.at_ofFn, hnext, xtime_xor]
  exact hsum _ _ _ _ _ _ _ _ _

/-- Mixing twice adds four times the byte and four times the one two below it. -/
theorem mixColumns_mixColumns (s : AesBlock) : mixColumns (mixColumns s) =
      .ofFn fun c r ↦ s.at c r ^^^ xtime (xtime (s.at c r ^^^ s.at c (r + 2))) := by
  apply AesBlock.eq_of_at
  intro c r
  have htwo : r + 1 + 1 = r + 2 := by rw [add_assoc]; rfl
  rw [mixColumns, AesBlock.at_ofFn, mixColumns_sum, AesBlock.at_ofFn]
  simp only [mixColumns, AesBlock.at_ofFn, htwo]
  generalize s.at c 0 ^^^ s.at c 1 ^^^ s.at c 2 ^^^ s.at c 3 = x
  simp only [xtime_xor, UInt8.xor_assoc, xor_left_comm, xor_xor_cancel]

theorem mixColumns_invMixColumns (s : AesBlock) : mixColumns (invMixColumns s) = s := by
  rw [invMixColumns, mixColumns_mixColumns]
  apply AesBlock.eq_of_at
  intro c r
  have hfour : r + 2 + 2 = r := by rw [add_assoc]; exact add_zero r
  simp only [AesBlock.at_ofFn, hfour, xtime_xor, UInt8.xor_assoc, UInt8.xor_comm, xor_left_comm,
    xor_xor_cancel, UInt8.xor_self, UInt8.zero_xor]

/-- The rounds of enciphering undo those of deciphering, from the outermost inwards. -/
theorem foldl_rounds_undone (roundKeys : ℕ → AesBlock) (rounds : List ℕ) (s : AesBlock) :
    rounds.foldl
        (fun s round ↦ AesBlock.xor (mixColumns (shiftRows (subBytes s))) (roundKeys round))
        (invSubBytes (invShiftRows (rounds.reverse.foldl
          (fun s round ↦
            invMixColumns (AesBlock.xor (invSubBytes (invShiftRows s)) (roundKeys round))) s))) =
      invSubBytes (invShiftRows s) := by
  induction rounds with
  | nil => rfl
  | cons round rounds ih =>
    rw [List.reverse_cons, List.foldl_append, List.foldl_cons, List.foldl_cons, List.foldl_nil,
      shiftRows_subBytes_invSubBytes_invShiftRows, mixColumns_invMixColumns, AesBlock.xor_xor, ih]

theorem aes128EncryptBlock_decryptBlock (roundKeys : ℕ → AesBlock) (s : AesBlock) :
    aes128EncryptBlock roundKeys (aes128DecryptBlock roundKeys s) = s := by
  simp only [aes128EncryptBlock, aes128DecryptBlock]
  rw [AesBlock.xor_xor, foldl_rounds_undone, shiftRows_subBytes_invSubBytes_invShiftRows,
    AesBlock.xor_xor]

/-! ### Enciphering is undone -/

theorem invSbox_sbox (x : UInt8) : invSbox.getD (sbox.getD x.toNat 0).toNat 0 = x := by
  have hall : ∀ i : Fin 256, invSbox.getD (sbox.getD i.val 0).toNat 0 = UInt8.ofFin i := by
    decide +kernel
  exact hall x.toFin

theorem invSubBytes_subBytes (s : AesBlock) : invSubBytes (subBytes s) = s := by
  apply AesBlock.eq_of_at
  intro c r
  simp only [subBytes, invSubBytes, AesBlock.at_ofFn, invSbox_sbox]

theorem invShiftRows_shiftRows (s : AesBlock) : invShiftRows (shiftRows s) = s := by
  apply AesBlock.eq_of_at
  simp [shiftRows, invShiftRows]

theorem invSubBytes_invShiftRows_shiftRows_subBytes (s : AesBlock) :
    invSubBytes (invShiftRows (shiftRows (subBytes s))) = s := by
  rw [invShiftRows_shiftRows, invSubBytes_subBytes]

/-- The inverse mixes three times, so both orders mix four times. -/
theorem invMixColumns_mixColumns (s : AesBlock) : invMixColumns (mixColumns s) = s := by
  have hthrice (t : AesBlock) : invMixColumns t = mixColumns (mixColumns (mixColumns t)) :=
    congrArg mixColumns (mixColumns_mixColumns t).symm
  have hback := mixColumns_invMixColumns s
  rw [hthrice] at hback ⊢
  exact hback

/-- The rounds of deciphering undo those of enciphering, from the outermost inwards. -/
theorem foldl_reverse_rounds_undone (roundKeys : ℕ → AesBlock) (rounds : List ℕ) (s : AesBlock) :
    rounds.reverse.foldl
        (fun s round ↦
          invMixColumns (AesBlock.xor (invSubBytes (invShiftRows s)) (roundKeys round)))
        (shiftRows (subBytes (rounds.foldl
          (fun s round ↦ AesBlock.xor (mixColumns (shiftRows (subBytes s))) (roundKeys round)) s))) =
      shiftRows (subBytes s) := by
  induction rounds generalizing s with
  | nil => rfl
  | cons round rounds ih =>
    simp only [List.reverse_cons, List.foldl_append, List.foldl_cons, List.foldl_nil, ih,
      invSubBytes_invShiftRows_shiftRows_subBytes, AesBlock.xor_xor, invMixColumns_mixColumns]

theorem aes128DecryptBlock_encryptBlock (roundKeys : ℕ → AesBlock) (s : AesBlock) :
    aes128DecryptBlock roundKeys (aes128EncryptBlock roundKeys s) = s := by
  simp only [aes128EncryptBlock, aes128DecryptBlock]
  rw [AesBlock.xor_xor, foldl_reverse_rounds_undone, invSubBytes_invShiftRows_shiftRows_subBytes,
    AesBlock.xor_xor]

/-! ### Whole buffers -/

theorem parts_flatMap_bytes (blocks : List AesBlock) :
    (parts 16 (blocks.flatMap AesBlock.bytes)).map AesBlock.ofBytes = blocks := by
  rw [List.flatMap_def, parts_flatten (by decide), List.map_map]
  · conv_rhs => rw [← List.map_id blocks]
    exact List.map_congr_left fun s _ ↦ s.ofBytes_bytes
  · intro part hpart
    obtain ⟨s, -, rfl⟩ := List.mem_map.mp hpart
    exact s.length_eq

theorem flatMap_bytes_parts (hdvd : 16 ∣ bytes.length) :
    ((parts 16 bytes).map AesBlock.ofBytes).flatMap AesBlock.bytes = bytes := by
  have hback : (parts 16 bytes).map (AesBlock.bytes ∘ AesBlock.ofBytes) = parts 16 bytes := by
    conv_rhs => rw [← List.map_id (parts 16 bytes)]
    exact List.map_congr_left fun part hpart ↦
      AesBlock.bytes_ofBytes (length_of_mem_parts hpart)
  rw [List.flatMap_def, List.map_map, hback, flatten_parts hdvd]

theorem AesBlock.length_flatMap_bytes (blocks : List AesBlock) :
    (blocks.flatMap AesBlock.bytes).length = 16 * blocks.length := by
  induction blocks with
  | nil => rfl
  | cons s blocks ih =>
    rw [List.flatMap_cons, List.length_append, ih, s.length_eq, List.length_cons]
    omega

variable {key iv input : List UInt8}

section

variable (hdvd : 16 ∣ input.length)
include hdvd

theorem length_aes128CbcEncrypt : (aes128CbcEncrypt key iv input).length = input.length := by
  rw [aes128CbcEncrypt, AesBlock.length_flatMap_bytes, length_encrypt, List.length_map, parts,
    List.length_map, List.length_range, Nat.mul_div_cancel' hdvd]

theorem length_aes128CbcDecrypt : (aes128CbcDecrypt key iv input).length = input.length := by
  rw [aes128CbcDecrypt, AesBlock.length_flatMap_bytes, length_decrypt, List.length_map, parts,
    List.length_map, List.length_range, Nat.mul_div_cancel' hdvd]

/-- Enciphering again what was deciphered gives it back. -/
theorem aes128CbcEncrypt_decrypt :
    aes128CbcEncrypt key iv (aes128CbcDecrypt key iv input) = input := by
  rw [aes128CbcEncrypt, aes128CbcDecrypt, parts_flatMap_bytes,
    encrypt_decrypt _ _ _ AesBlock.xor_xor (aes128EncryptBlock_decryptBlock _),
    flatMap_bytes_parts hdvd]

/-- Deciphering again what was enciphered gives it back. -/
theorem aes128CbcDecrypt_encrypt :
    aes128CbcDecrypt key iv (aes128CbcEncrypt key iv input) = input := by
  rw [aes128CbcEncrypt, aes128CbcDecrypt, parts_flatMap_bytes,
    decrypt_encrypt _ _ _ AesBlock.xor_xor (aes128DecryptBlock_encryptBlock _),
    flatMap_bytes_parts hdvd]

end

end Obmafs3
