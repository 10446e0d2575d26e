import Mathlib.Data.List.Basic
import Obmafs3.Library.Packed

/-!
# A file of bytes

A file with reads and writes at offsets. A write past the end makes the file longer, and a read
that does not find all its bytes fails. `tear` is what a list of writes leaves when only the first
`n` bytes of them reach the file. Numbers are stored with the lowest byte first.
-/

set_option autoImplicit false

namespace Obmafs3.Library.ByteImage

/-! ### Numbers -/

/-- The number that a list of bytes stores. -/
def number (bytes : List UInt8) : ℕ := Nat.ofDigits 256 (bytes.map UInt8.toNat)

/-- The low `width` bytes of a number. -/
def bytesOf (width n : ℕ) : List UInt8 := (Packed.leBytes width n).map UInt8.ofNat

@[simp]
theorem length_bytesOf (width n : ℕ) : (bytesOf width n).length = width := by
  rw [bytesOf, List.length_map, Packed.length_leBytes]

theorem number_cons (b : UInt8) (bytes : List UInt8) :
    number (b :: bytes) = b.toNat + 256 * number bytes := by
  rw [number, List.map_cons, Nat.ofDigits_cons]
  rfl

theorem map_toNat_bytesOf (width n : ℕ) :
    (bytesOf width n).map UInt8.toNat = Packed.leBytes width n := by
  induction width generalizing n with
  | zero => rfl
  | succ width ih =>
    rw [bytesOf, Packed.leBytes, List.map_cons, List.map_cons, UInt8.toNat_ofNat',
      Nat.mod_eq_of_lt (Nat.mod_lt n (by decide))]
    exact congrArg _ (ih (n / 256))

theorem number_bytesOf (width n : ℕ) : number (bytesOf width n) = n % 256 ^ width := by
  rw [number, map_toNat_bytesOf, Packed.ofDigits_leBytes]

theorem number_replicate_zero (n : ℕ) : number (List.replicate n 0) = 0 := by
  induction n with
  | zero => rfl
  | succ n ih => rw [List.replicate_succ, number_cons, ih]; rfl

/-! ### Fields of a record -/

/-- The `width` bytes of a record from an offset on. -/
def fieldBytes (record : List UInt8) (off width : ℕ) : List UInt8 := (record.drop off).take width

/-- A record with other bytes from an offset on. -/
def overwrite (record : List UInt8) (off : ℕ) (bytes : List UInt8) : List UInt8 :=
  record.take off ++ bytes ++ record.drop (off + bytes.length)

section Fields

variable {record bytes : List UInt8} {off off' width : ℕ}

theorem length_overwrite (hinside : off + bytes.length ≤ record.length) :
    (overwrite record off bytes).length = record.length := by
  rw [overwrite, List.length_append, List.length_append, List.length_take, List.length_drop]
  omega

variable {i : ℕ}

theorem getElem?_overwrite_apart (hinside : off + bytes.length ≤ record.length)
    (hapart : i < off ∨ off + bytes.length ≤ i) :
    (overwrite record off bytes)[i]? = record[i]? := by
  have htake : (record.take off).length = off := List.length_take_of_le (by omega)
  rw [overwrite, List.append_assoc]
  rcases hapart with hbefore | hbehind
  · rw [List.getElem?_append_left (by omega), List.getElem?_take_of_lt hbefore]
  · rw [List.getElem?_append_right (by omega), List.getElem?_append_right (by omega),
      List.getElem?_drop, htake]
    congr 1
    omega

theorem getElem?_overwrite (hinside : off ≤ record.length) (hi : i < bytes.length) :
    (overwrite record off bytes)[off + i]? = bytes[i]? := by
  have htake : (record.take off).length = off := List.length_take_of_le hinside
  rw [overwrite, List.append_assoc, List.getElem?_append_right (by omega),
    List.getElem?_append_left (by omega), htake, Nat.add_sub_cancel_left]

theorem getElem?_fieldBytes :
    (fieldBytes record off width)[i]? = if i < width then record[off + i]? else none := by
  rw [fieldBytes, List.getElem?_take, List.getElem?_drop]

theorem fieldBytes_take {n : ℕ} (hinside : off + width ≤ n) :
    fieldBytes (record.take n) off width = fieldBytes record off width := by
  rw [fieldBytes, List.drop_take, List.take_take, Nat.min_eq_left (by omega), fieldBytes]

theorem fieldBytes_overwrite_apart (hinside : off + bytes.length ≤ record.length)
    (hapart : off' + width ≤ off ∨ off + bytes.length ≤ off') :
    fieldBytes (overwrite record off bytes) off' width = fieldBytes record off' width := by
  refine List.ext_getElem? fun i ↦ ?_
  rw [getElem?_fieldBytes, getElem?_fieldBytes]
  split_ifs with hi
  · exact getElem?_overwrite_apart hinside (by omega)
  · rfl

theorem fieldBytes_overwrite (hinside : off ≤ record.length) (hwidth : bytes.length = width) :
    fieldBytes (overwrite record off bytes) off width = bytes := by
  have htake : (record.take off).length = off := List.length_take_of_le hinside
  rw [fieldBytes, overwrite, List.append_assoc, List.drop_left' htake, List.take_left' hwidth]

/-- Of two lists of bytes at one place the second is what is left. -/
theorem overwrite_overwrite {newer : List UInt8} (hinside : off + bytes.length ≤ record.length)
    (hlength : newer.length = bytes.length) :
    overwrite (overwrite record off bytes) off newer = overwrite record off newer := by
  have htake : (record.take off).length = off := List.length_take_of_le (by omega)
  have hboth : (record.take off ++ bytes).length = off + newer.length := by
    rw [List.length_append, htake, hlength]
  rw [overwrite, overwrite, List.drop_left' hboth, List.append_assoc (record.take off) bytes,
    List.take_left' htake, overwrite, hlength]

end Fields

/-! ### Reads of a buffer -/

/-- The bytes that are read from a buffer; `none` when one of them lies outside. Nothing is read for
a width of zero. -/
def readBytes (buffer : List UInt8) (off width : ℕ) : Option (List UInt8) :=
  if width = 0 ∨ off + width ≤ buffer.length then some (fieldBytes buffer off width) else none

/-- The number that is read from a buffer, its lowest byte first. -/
def readNumber (buffer : List UInt8) (off width : ℕ) : Option ℕ :=
  (readBytes buffer off width).map number

section Buffer

variable {buffer : List UInt8} {off width : ℕ}

theorem isSome_readBytes :
    (readBytes buffer off width).isSome = true ↔ width = 0 ∨ off + width ≤ buffer.length := by
  rw [readBytes]
  split_ifs with hinside
  · exact iff_of_true rfl hinside
  · exact iff_of_false Bool.false_ne_true hinside

theorem readBytes_of_inside (hinside : off + width ≤ buffer.length) :
    readBytes buffer off width = some (fieldBytes buffer off width) :=
  if_pos (Or.inr hinside)

theorem readNumber_of_inside (hinside : off + width ≤ buffer.length) :
    readNumber buffer off width = some (number (fieldBytes buffer off width)) := by
  rw [readNumber, readBytes_of_inside hinside, Option.map_some]

theorem isSome_readNumber :
    (readNumber buffer off width).isSome = true ↔ width = 0 ∨ off + width ≤ buffer.length := by
  rw [readNumber, Option.isSome_map, isSome_readBytes]

end Buffer

/-! ### Reads and writes -/

/-- A file; behind its end there is nothing. -/
@[ext]
structure Image where
  size : ℕ
  byte : ℕ → UInt8
  byte_beyond : ∀ i, size ≤ i → byte i = 0

namespace Image

/-- `len` bytes from an offset on. -/
def bytesAt (img : Image) (off len : ℕ) : List UInt8 :=
  (List.range len).map fun i ↦ img.byte (off + i)

/-- A read of `len` bytes; `none` when the file ends before. -/
def pread (img : Image) (off len : ℕ) : Option (List UInt8) :=
  if off + len ≤ img.size then some (img.bytesAt off len) else none

def pwrite (img : Image) (off : ℕ) (bytes : List UInt8) : Image where
  size := if bytes = [] then img.size else max img.size (off + bytes.length)
  byte i := if off ≤ i ∧ i < off + bytes.length then bytes.getD (i - off) 0 else img.byte i
  byte_beyond i hi := by
    split_ifs at hi with hnil
    · subst hnil
      rw [if_neg fun h ↦ Nat.not_lt.mpr h.1 h.2]
      exact img.byte_beyond i hi
    · rw [if_neg (by omega)]
      exact img.byte_beyond i (by omega)

/-- All writes of a list. -/
def writeAll (writes : List (ℕ × List UInt8)) (img : Image) : Image :=
  writes.foldl (fun img w ↦ img.pwrite w.1 w.2) img

/-- Every write is behind those in front of it. -/
def Ascending (writes : List (ℕ × List UInt8)) : Prop :=
  writes.Pairwise fun v w ↦ v.1 + v.2.length ≤ w.1

/-- A file of zeros. -/
def zeros (size : ℕ) : Image := ⟨size, fun _ ↦ 0, fun _ _ ↦ rfl⟩

/-- The first `n` bytes of a list of writes. -/
def tear : (n : ℕ) → List (ℕ × List UInt8) → Image → Image
  | _, [], img => img
  | n, (off, bytes) :: writes, img =>
    tear (n - bytes.length) writes (img.pwrite off (bytes.take n))

variable {img : Image} {off len : ℕ} {bytes : List UInt8}

@[simp]
theorem length_bytesAt : (img.bytesAt off len).length = len := by
  rw [bytesAt, List.length_map, List.length_range]

theorem bytesAt_zeros (size off len : ℕ) : (zeros size).bytesAt off len = List.replicate len 0 := by
  rw [bytesAt, zeros, List.map_const', List.length_range]

variable {i : ℕ}

theorem getElem?_bytesAt (hi : i < len) :
    (img.bytesAt off len)[i]? = some (img.byte (off + i)) := by
  rw [bytesAt, List.getElem?_map, List.getElem?_range hi, Option.map_some]

theorem bytesAt_eq_iff {img' : Image} {off' : ℕ} : img'.bytesAt off' len = img.bytesAt off len ↔
      ∀ i < len, img'.byte (off' + i) = img.byte (off + i) := by
  rw [bytesAt, bytesAt, List.map_inj_left]
  exact forall_congr' fun i ↦ by rw [List.mem_range]

theorem pread_eq_some {bytes : List UInt8} :
    img.pread off len = some bytes ↔ off + len ≤ img.size ∧ img.bytesAt off len = bytes := by
  rw [pread]
  split_ifs with hinside
  · rw [Option.some.injEq, and_iff_right hinside]
  · exact ⟨nofun, fun h ↦ absurd h.1 hinside⟩

theorem length_of_pread (hread : img.pread off len = some bytes) : bytes.length = len := by
  rw [← (pread_eq_some.mp hread).2, length_bytesAt]

theorem size_pwrite (hinside : off + bytes.length ≤ img.size) :
    (img.pwrite off bytes).size = img.size := by
  unfold pwrite
  dsimp only
  split_ifs
  · rfl
  · exact max_eq_left hinside

theorem byte_pwrite_apart (hapart : i < off ∨ off + bytes.length ≤ i) :
    (img.pwrite off bytes).byte i = img.byte i :=
  if_neg (by omega)

theorem byte_pwrite_in (hi : i < bytes.length) :
    (img.pwrite off bytes).byte (off + i) = bytes.getD i 0 := by
  unfold pwrite
  dsimp only
  rw [if_pos (by omega), Nat.add_sub_cancel_left]

/-- A part of what a write left. -/
theorem bytesAt_pwrite {start len : ℕ} (hin : start + len ≤ bytes.length) :
    (img.pwrite off bytes).bytesAt (off + start) len = fieldBytes bytes start len := by
  refine List.ext_getElem? fun i ↦ ?_
  rw [getElem?_fieldBytes]
  split_ifs with hi
  · have hinside : start + i < bytes.length := by omega
    rw [getElem?_bytesAt hi, Nat.add_assoc, byte_pwrite_in hinside, List.getD_eq_getElem?_getD,
      List.getElem?_eq_getElem hinside, Option.getD_some]
  · rw [List.getElem?_eq_none (by simpa using hi)]

theorem pwrite_nil : img.pwrite off [] = img := by
  ext i
  · unfold pwrite
    dsimp only
    exact if_pos rfl
  · rw [byte_pwrite_apart (Nat.lt_or_ge i off)]

/-- A write elsewhere inside the file. -/
theorem pread_pwrite_apart {off' len' : ℕ} (hinside : off + bytes.length ≤ img.size)
    (hapart : off' + len' ≤ off ∨ off + bytes.length ≤ off') :
    (img.pwrite off bytes).pread off' len' = img.pread off' len' := by
  have hsame : (img.pwrite off bytes).bytesAt off' len' = img.bytesAt off' len' :=
    bytesAt_eq_iff.mpr fun i hi ↦ byte_pwrite_apart (by omega)
  rw [pread, pread, size_pwrite hinside, hsame]

/-- A write that is cut off leaves the rest of what was there. -/
theorem pread_pwrite_take {old : List UInt8} (hread : img.pread off len = some old)
    (hlength : bytes.length = len) (n : ℕ) :
    (img.pwrite off (bytes.take n)).pread off len = some (bytes.take n ++ old.drop n) := by
  obtain ⟨hinside, rfl⟩ := pread_eq_some.mp hread
  have hshort : (bytes.take n).length ≤ len := by
    rw [List.length_take]
    omega
  refine pread_eq_some.mpr ⟨by rwa [size_pwrite (by omega)], List.ext_getElem? fun i ↦ ?_⟩
  rcases Nat.lt_or_ge i len with hi | hi
  · rw [getElem?_bytesAt hi]
    rcases Nat.lt_or_ge i (bytes.take n).length with hwritten | hkept
    · rw [byte_pwrite_in hwritten, List.getElem?_append_left hwritten, List.getD_eq_getElem?_getD,
        List.getElem?_eq_getElem hwritten, Option.getD_some]
    · rw [byte_pwrite_apart (by omega), List.getElem?_append_right hkept, List.getElem?_drop]
      rw [List.length_take] at hkept ⊢
      rw [show n + (i - min n bytes.length) = i by omega, getElem?_bytesAt hi]
  · rw [List.getElem?_eq_none (by simpa using hi), List.getElem?_eq_none]
    rw [List.length_append, List.length_take, List.length_drop, length_bytesAt]
    omega

/-- A write is read back. -/
theorem pread_pwrite (hlength : bytes.length = len) (hinside : off + len ≤ img.size) :
    (img.pwrite off bytes).pread off len = some bytes := by
  have hwhole := pread_pwrite_take (pread_eq_some.mpr ⟨hinside, rfl⟩) hlength len
  rwa [List.take_of_length_le hlength.le, List.drop_of_length_le (by rw [length_bytesAt]),
    List.append_nil] at hwhole

/-! ### Many writes -/

variable {writes : List (ℕ × List UInt8)}

theorem size_writeAll (hinside : ∀ w ∈ writes, w.1 + w.2.length ≤ img.size) :
    (img.writeAll writes).size = img.size := by
  induction writes generalizing img with
  | nil => rfl
  | cons w writes ih =>
    have hsize : (img.pwrite w.1 w.2).size = img.size := size_pwrite (hinside w List.mem_cons_self)
    rw [writeAll, List.foldl_cons]
    exact (ih fun v hv ↦ hsize ▸ hinside v (List.mem_cons_of_mem w hv)).trans hsize

theorem byte_writeAll_apart (hapart : ∀ w ∈ writes, i < w.1 ∨ w.1 + w.2.length ≤ i) :
    (img.writeAll writes).byte i = img.byte i := by
  induction writes generalizing img with
  | nil => rfl
  | cons w writes ih =>
    rw [writeAll, List.foldl_cons]
    exact (ih fun v hv ↦ hapart v (List.mem_cons_of_mem w hv)).trans
      (byte_pwrite_apart (hapart w List.mem_cons_self))

variable {w : ℕ × List UInt8}

/-- Of writes that ascend each is read back. -/
theorem byte_writeAll (img : Image) (hasc : Ascending writes) (hw : w ∈ writes)
    (hi : i < w.2.length) : (img.writeAll writes).byte (w.1 + i) = w.2.getD i 0 := by
  induction writes generalizing img with
  | nil => exact absurd hw List.not_mem_nil
  | cons v writes ih =>
    obtain ⟨hfirst, hrest⟩ := List.pairwise_cons.mp hasc
    rw [writeAll, List.foldl_cons]
    rcases List.mem_cons.mp hw with rfl | hw
    · refine (byte_writeAll_apart fun v hv ↦ Or.inl ?_).trans (byte_pwrite_in hi)
      have hbehind := hfirst v hv
      omega
    · exact ih _ hrest hw

theorem bytesAt_writeAll (img : Image) (hasc : Ascending writes) (hw : w ∈ writes) :
    (img.writeAll writes).bytesAt w.1 w.2.length = w.2 := by
  refine List.ext_getElem? fun i ↦ ?_
  rcases Nat.lt_or_ge i w.2.length with hi | hi
  · rw [getElem?_bytesAt hi, byte_writeAll img hasc hw hi, List.getD_eq_getElem?_getD,
      List.getElem?_eq_getElem hi, Option.getD_some]
  · rw [List.getElem?_eq_none (by simpa using hi), List.getElem?_eq_none hi]

theorem fieldBytes_bytesAt {off' width : ℕ} (hinside : off' + width ≤ len) :
    fieldBytes (img.bytesAt off len) off' width = img.bytesAt (off + off') width := by
  refine List.ext_getElem? fun i ↦ ?_
  rw [getElem?_fieldBytes]
  split_ifs with hi
  · rw [getElem?_bytesAt (by omega), getElem?_bytesAt hi, Nat.add_assoc]
  · rw [List.getElem?_eq_none (by simpa using hi)]

end Image

end Obmafs3.Library.ByteImage
