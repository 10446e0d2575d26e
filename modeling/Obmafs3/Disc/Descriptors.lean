import Obmafs3.Disc.Aes
import Obmafs3.Metadata.Text
import Mathlib.Data.Nat.Digits.Lemmas

/-!
# What the importers leave for the readers

The sectors of a disc image are in the store of media images, and what is needed to encipher them
again is in metadata: numbers in decimal and keys in hexadecimal. A reader parses them back.
-/

set_option autoImplicit false

namespace Obmafs3

open Library.BlockChaining

/-! ### The store -/

/-- What `obmafs3_read_media_image_data` leaves in a buffer: the bytes that are stored at the offset,
and behind the end of the file what was there before. -/
def mediaRead (stored : List UInt8) (offset : ℕ) (buffer : List UInt8) : List UInt8 :=
  let data := (stored.drop offset).take buffer.length
  data ++ buffer.drop data.length

/-- `pread` of a file. -/
def preadFile (file : List UInt8) (count offset : ℕ) : List UInt8 := (file.drop offset).take count

/-- A buffer that was not filled is filled with zeros. -/
def zeroFilled (size : ℕ) (bytes : List UInt8) : List UInt8 :=
  bytes ++ List.replicate (size - bytes.length) 0

variable {stored buffer : List UInt8} {image : List UInt8} {size : ℕ}

theorem mediaRead_inside {offset : ℕ} (hinside : offset + buffer.length ≤ stored.length) :
    mediaRead stored offset buffer = (stored.drop offset).take buffer.length := by
  have hlength : ((stored.drop offset).take buffer.length).length = buffer.length := by
    rw [List.length_take, List.length_drop]
    omega
  simp [mediaRead, hlength]

/-- A stretch of what was read, inside the file. -/
theorem mediaRead_slice {offset skip count : ℕ} (hbuffer : skip + count ≤ buffer.length)
    (hinside : offset + skip + count ≤ stored.length) :
    ((mediaRead stored offset buffer).drop skip).take count =
      (stored.drop (offset + skip)).take count := by
  have hlength : skip + count ≤ ((stored.drop offset).take buffer.length).length := by
    rw [List.length_take, List.length_drop]
    omega
  rw [mediaRead, List.drop_append_of_le_length (by omega), List.take_append_of_le_length, List.drop_take,
    List.take_take, List.drop_drop, min_eq_left (by omega)]
  rw [List.length_drop]
  omega

theorem zeroFilled_of_length {bytes : List UInt8} (hlength : bytes.length = size) :
    zeroFilled size bytes = bytes := by
  simp [zeroFilled, hlength]

/-- The sectors of the disc. -/
def discSector (size : ℕ) (image : List UInt8) (sector : ℕ) : List UInt8 :=
  (image.drop (sector * size)).take size

theorem length_discSector {size sector : ℕ} (hdvd : size ∣ image.length)
    (hsector : sector < image.length / size) : (discSector size image sector).length = size := by
  have hall := Nat.div_mul_cancel hdvd
  have := Nat.mul_le_mul_right size hsector
  rw [Nat.succ_mul, hall] at this
  rw [discSector, List.length_take, List.length_drop]
  omega

theorem flatMap_discSector (hdvd : size ∣ image.length) :
    (List.range (image.length / size)).flatMap (discSector size image) = image := by
  rw [List.flatMap_def]
  exact flatten_parts hdvd

/-- A sector is read as it was stored. -/
theorem mediaRead_sector {size n k : ℕ} {f : ℕ → List UInt8} (hsize : ∀ k < n, (f k).length = size)
    (hk : k < n) :
    mediaRead ((List.range n).flatMap f) (k * size) (List.replicate size 0) = f k := by
  have hinside : k * size + size ≤ n * size := by
    rw [← Nat.succ_mul]
    exact Nat.mul_le_mul_right size hk
  rw [mediaRead_inside (by rwa [List.length_replicate, length_flatMap_range hsize]),
    List.length_replicate]
  have hslice := slice_flatMap_range hsize hk 0 size (by omega)
  rwa [Nat.add_zero, List.drop_zero, List.take_of_length_le (hsize k hk).le] at hslice

/-! ### Numbers -/

/-- A number as `%u` prints it. -/
def decimal (n : ℕ) : Text := if n = 0 then [48] else ((Nat.digits 10 n).map (· + 48)).reverse

/-- `strtoull` with base 10. -/
def strtoull (s : Text) : ℕ :=
  let number := s.dropWhile isSpace
  let n := min (2 ^ 64 - 1) (digitsValue ((skipSign number).takeWhile isDigit)).toNat
  if number.head? = some 45 then (2 ^ 64 - n) % 2 ^ 64 else n

/-- `atoi`, as a cast to an unsigned type of some bits sees it. -/
def atoi (bits : ℕ) (s : Text) : ℕ := ((strtoll s).1 % 2 ^ bits).toNat

theorem decimal_digits (n : ℕ) : ∀ c ∈ decimal n, isDigit c = true := by
  intro c hc
  unfold decimal at hc
  split_ifs at hc with hn
  · rw [List.mem_singleton] at hc
    subst hc
    rfl
  · rw [List.mem_reverse, List.mem_map] at hc
    obtain ⟨d, hd, rfl⟩ := hc
    have := Nat.digits_lt_base (by decide) hd
    simp only [isDigit, Bool.and_eq_true, decide_eq_true_eq]
    omega

theorem decimal_ne_nil (n : ℕ) : decimal n ≠ [] := by
  unfold decimal
  split_ifs with hn
  · simp
  · simpa [Nat.digits_ne_nil_iff_ne_zero] using hn

theorem digitsValue_eq_foldl (digits : Text) :
    digitsValue digits = digits.foldl (fun (n : ℤ) (c : ℕ) ↦ 10 * n + ((c : ℤ) - 48)) 0 := by
  simp only [digitsValue, List.bind_eq_flatMap, List.pure_def]
  rw [← List.map_eq_flatMap, List.foldl_map]

theorem digitsValue_decimal (n : ℕ) : digitsValue (decimal n) = n := by
  have hdigits (ds : List ℕ) : (ds.map fun d : ℕ ↦ d + 48).reverse.foldl
      (fun (n : ℤ) (c : ℕ) ↦ 10 * n + ((c : ℤ) - 48)) 0 = (Nat.ofDigits 10 ds : ℕ) := by
    rw [List.foldl_reverse]
    induction ds with
    | nil => rfl
    | cons d ds ih =>
      rw [List.map_cons, List.foldr_cons, ih, Nat.ofDigits_cons]
      push_cast
      ring
  unfold decimal
  rw [digitsValue_eq_foldl]
  split_ifs with hn
  · rw [hn]
    rfl
  · rw [hdigits, Nat.ofDigits_digits]

/-- A printed number is read as nothing but digits. -/
theorem decimal_parts (n : ℕ) :
    (decimal n).dropWhile isSpace = decimal n ∧ (decimal n).head? ≠ some 45 ∧
      (skipSign (decimal n)).takeWhile isDigit = decimal n := by
  have hdigits := decimal_digits n
  cases htext : decimal n with
  | nil => exact absurd htext (decimal_ne_nil n)
  | cons c text =>
    rw [htext] at hdigits
    have hc := hdigits c List.mem_cons_self
    simp only [isDigit, Bool.and_eq_true, decide_eq_true_eq] at hc
    have hspace : isSpace c = false := by
      simp only [isSpace, Bool.or_eq_false_iff, beq_eq_false_iff_ne, Bool.and_eq_false_iff,
        decide_eq_false_iff_not]
      omega
    have hsign : skipSign (c :: text) = c :: text := by
      rw [skipSign, if_neg (by omega)]
    refine ⟨by simp [hspace], ?_, ?_⟩
    · simp only [List.head?_cons, ne_eq, Option.some.injEq]
      omega
    · rw [hsign]
      exact List.takeWhile_eq_self_iff.mpr hdigits

theorem strtoull_decimal {n : ℕ} (hn : n < 2 ^ 64) : strtoull (decimal n) = n := by
  obtain ⟨hspace, hsign, hdigits⟩ := decimal_parts n
  simp only [strtoull, hspace, hsign, if_false, hdigits, digitsValue_decimal, Int.toNat_natCast]
  omega

theorem strtoll_decimal {n : ℕ} (hn : (n : ℤ) ≤ int64Max) : (strtoll (decimal n)).1 = n := by
  obtain ⟨hspace, hsign, hdigits⟩ := decimal_parts n
  simp only [strtoll, hspace, hsign, if_false, hdigits, digitsValue_decimal, if_neg (decimal_ne_nil n)]
  simp only [clampInt64, int64Max, int64Min] at hn ⊢
  omega

theorem atoi_decimal {bits n : ℕ} (hn : n < 2 ^ bits) (hfits : (n : ℤ) ≤ int64Max) :
    atoi bits (decimal n) = n := by
  rw [atoi, strtoll_decimal hfits]
  have : ((n : ℤ) % 2 ^ bits) = n := Int.emod_eq_of_lt (by omega) (by exact_mod_cast hn)
  rw [this, Int.toNat_natCast]

/-! ### Keys -/

def hexDigit (d : ℕ) : ℕ := if d < 10 then 48 + d else 87 + d

/-- A key as `%02x` prints its bytes. -/
def hexText (key : List UInt8) : Text :=
  key.flatMap fun b ↦ [hexDigit (b.toNat / 16), hexDigit (b.toNat % 16)]

/-- `hex2`. -/
def hex2 (c : ℕ) : Option ℕ :=
  if 48 ≤ c ∧ c ≤ 57 then some (c - 48)
  else if 97 ≤ c ∧ c ≤ 102 then some (c - 97 + 10)
  else if 65 ≤ c ∧ c ≤ 70 then some (c - 65 + 10)
  else none

/-- The bytes of a key that is parsed into a buffer of zeros. -/
def loadKey : (bytes : ℕ) → Text → List UInt8
  | 0, _ => []
  | bytes + 1, high :: low :: text =>
    (match hex2 high, hex2 low with
      | some h, some l => UInt8.ofNat (16 * h + l)
      | _, _ => 0) :: loadKey bytes text
  | bytes + 1, _ => List.replicate (bytes + 1) 0

theorem hex2_hexDigit {d : ℕ} (hd : d < 16) : hex2 (hexDigit d) = some d := by
  have hall : ∀ d < 16, hex2 (hexDigit d) = some d := by decide
  exact hall d hd

theorem loadKey_hexText (key : List UInt8) : loadKey key.length (hexText key) = key := by
  induction key with
  | nil => rfl
  | cons b key ih =>
    have hb := b.toNat_lt
    have hhigh := hex2_hexDigit (d := b.toNat / 16) (by omega)
    have hlow := hex2_hexDigit (d := b.toNat % 16) (by omega)
    have hbyte : UInt8.ofNat (16 * (b.toNat / 16) + b.toNat % 16) = b := by
      rw [Nat.div_add_mod]
      exact UInt8.ofNat_toNat
    simp only [hexText, List.flatMap_cons, List.length_cons, List.cons_append, List.nil_append,
      loadKey, hhigh, hlow, hbyte]
    rw [← hexText, ih]

end Obmafs3
