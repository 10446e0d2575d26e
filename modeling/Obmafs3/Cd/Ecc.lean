import Mathlib.Data.UInt

/-!
# Error detection and correction of a CD sector

A raw sector of a data track ends in a checksum (EDC) and two layers of parity (ECC), which follow
from the bytes in front of them. A writer checks whether they do, and a reader that finds that they
did computes them again. `eccCdReconstruct_iff` says that this gives the sector back and no other one:
the checksum and each layer are computed from bytes in front of them, which are already there.

The check of a mode 2 sector looks for the checksum where the form flag of the sector says, and the
reader puts it where the mode says.
-/

set_option autoImplicit false

namespace Obmafs3

/-- A raw sector: its bytes by position, of which 2352 count. -/
abbrev RawSector := ℕ → UInt8

/-- `CD_RAW_SECTOR_SIZE`. -/
def cdRawSectorSize : ℕ := 2352

/-- `enum obmafs3_cd_sector_mode`. -/
inductive CdSectorMode
  | audio
  | mode1
  | mode2
  | mode2Form1
  | mode2Form2
  deriving DecidableEq, Repr

/-! ### The tables of `ecc_cd_init` -/

def eccFTable (i : UInt8) : UInt8 :=
  ((i.toUInt32 <<< 1) ^^^ (if i &&& 0x80 = 0x80 then 0x11D else 0)).toUInt8

def eccBTable (x : UInt8) : UInt8 :=
  (((List.range 256).map UInt8.ofNat).find? fun i ↦ i ^^^ eccFTable i = x).getD 0

def edcTable (i : UInt8) : UInt32 :=
  (List.range 8).foldl (fun edc _ ↦ edc >>> 1 ^^^ (if edc &&& 1 > 0 then 0xD8018001 else 0))
    i.toUInt32

/-! ### Checksums -/

/-- `edc_cd_compute`. -/
def edcCdCompute (src : RawSector) : (size pos : ℕ) → UInt32 → UInt32
  | 0, _, edc => edc
  | size + 1, pos, edc =>
    edcCdCompute src size (pos + 1) (edc >>> 8 ^^^ edcTable (edc ^^^ (src pos).toUInt32).toUInt8)

/-- The bytes of a `uint32_t` in memory. -/
def edcByte (edc : UInt32) (k : ℕ) : UInt8 := (edc >>> UInt32.ofNat (8 * k)).toUInt8

/-- Whether the four bytes at a position are those of a checksum. -/
def hasEdc (sector : RawSector) (edc : UInt32) (pos : ℕ) : Bool :=
  (List.range 4).all fun k ↦ sector (pos + k) = edcByte edc k

/-- `memcpy` of a checksum to a position. -/
def putEdc (sector : RawSector) (edc : UInt32) (pos : ℕ) : RawSector := fun i ↦
  if pos ≤ i ∧ i < pos + 4 then edcByte edc (i - pos) else sector i

/-! ### Parity -/

/-- The numbers that describe a layer of parity. -/
structure EccLayer where
  majorCount : ℕ
  minorCount : ℕ
  majorMult : ℕ
  minorInc : ℕ

namespace EccLayer

def p : EccLayer := ⟨86, 24, 2, 86⟩

def q : EccLayer := ⟨52, 43, 86, 88⟩

variable (layer : EccLayer)

def size : ℕ := layer.majorCount * layer.minorCount

/-- The inner loop. -/
def minorLoop (address data : RawSector) (addressOffset dataOffset : ℕ) :
    (minor idx : ℕ) → (eccA eccB : UInt8) → UInt8 × UInt8
  | 0, _, eccA, eccB => (eccA, eccB)
  | minor + 1, idx, eccA, eccB =>
    let temp := if idx < 4 then address (idx + addressOffset) else data (idx + dataOffset - 4)
    let next := if layer.size ≤ idx + layer.minorInc then idx + layer.minorInc - layer.size
      else idx + layer.minorInc
    minorLoop address data addressOffset dataOffset minor next (eccFTable (eccA ^^^ temp))
      (eccB ^^^ temp)

/-- The two bytes of parity of one step of the outer loop. -/
def parity (address data : RawSector) (addressOffset dataOffset major : ℕ) : UInt8 × UInt8 :=
  let (eccA, eccB) := layer.minorLoop address data addressOffset dataOffset layer.minorCount
    (major / 2 * layer.majorMult + major % 2) 0 0
  let eccA := eccBTable (eccFTable eccA ^^^ eccB)
  (eccA, eccA ^^^ eccB)

/-- `ecc_cd_check`. The parity is in the sector itself. -/
def check (address sector : RawSector) (addressOffset dataOffset eccOffset : ℕ) : Bool :=
  (List.range layer.majorCount).all fun major ↦
    let (first, second) := layer.parity address sector addressOffset dataOffset major
    sector (major + eccOffset) = first ∧ sector (major + layer.majorCount + eccOffset) = second

/-- `ecc_cd_write`. The bytes it reads are in front of those it writes. -/
def write (address sector : RawSector) (addressOffset dataOffset eccOffset : ℕ) : RawSector := fun i ↦
  if eccOffset ≤ i ∧ i < eccOffset + layer.majorCount then
    (layer.parity address sector addressOffset dataOffset (i - eccOffset)).1
  else if eccOffset + layer.majorCount ≤ i ∧ i < eccOffset + 2 * layer.majorCount then
    (layer.parity address sector addressOffset dataOffset (i - eccOffset - layer.majorCount)).2
  else sector i

end EccLayer

/-- The address field that goes into the parity: of the sector, or zeros. -/
def zeroAddress : RawSector := fun _ ↦ 0

/-- `ecc_cd_write_sector`. In mode 1 the address is a pointer to the sector. -/
def eccCdWriteSector (address : RawSector → RawSector) (sector : RawSector)
    (addressOffset dataOffset eccOffset : ℕ) : RawSector :=
  let sector := EccLayer.p.write (address sector) sector addressOffset dataOffset eccOffset
  EccLayer.q.write (address sector) sector addressOffset dataOffset (eccOffset + 0xAC)

/-! ### Suffixes -/

/-- `ecc_cd_is_suffix_correct`. -/
def eccCdIsSuffixCorrect (sector : RawSector) : Bool :=
  ((List.range 8).all fun k ↦ sector (0x814 + k) = 0) &&
    EccLayer.p.check sector sector 0xC 0x10 0x81C &&
    EccLayer.q.check sector sector 0xC 0x10 (0x81C + 0xAC) &&
    hasEdc sector (edcCdCompute sector 0x810 0 0) 0x810

/-- The form flag in the subheader of a sector. -/
def isForm2 (sector : RawSector) : Bool := sector 0x12 &&& 0x20 ≠ 0

/-- `ecc_cd_is_suffix_correct_mode2`. -/
def eccCdIsSuffixCorrectMode2 (sector : RawSector) : Bool :=
  EccLayer.p.check zeroAddress sector 0 0x10 0x81C &&
    EccLayer.q.check zeroAddress sector 0 0x10 (0x81C + 0xAC) &&
    hasEdc sector (edcCdCompute sector (if isForm2 sector then 0x91C else 0x808) 0x10 0)
      (if isForm2 sector then 0x92C else 0x818)

/-- `ecc_cd_reconstruct`. -/
def eccCdReconstruct (sector : RawSector) : CdSectorMode → RawSector
  | .mode1 =>
    let sector := putEdc sector (edcCdCompute sector 0x810 0 0) 0x810
    let sector := fun i ↦ if 0x814 ≤ i ∧ i < 0x81C then 0 else sector i
    eccCdWriteSector id sector 0xC 0x10 0x81C
  | .mode2Form1 =>
    let sector := putEdc sector (edcCdCompute sector 0x808 0x10 0) 0x818
    eccCdWriteSector (fun _ ↦ zeroAddress) sector 0 0x10 0x81C
  | .mode2Form2 => putEdc sector (edcCdCompute sector 0x91C 0x10 0) 0x92C
  | .audio => sector
  | .mode2 => sector

/-! ### What is computed from where -/

/-- Two sectors have the same bytes in front of a position. -/
def SameBefore (n : ℕ) (s t : RawSector) : Prop := ∀ i < n, s i = t i

theorem edcCdCompute_congr {s t : RawSector} {size pos : ℕ} (hsame : SameBefore (pos + size) s t)
    (edc : UInt32) : edcCdCompute s size pos edc = edcCdCompute t size pos edc := by
  induction size generalizing pos edc with
  | zero => rfl
  | succ size ih =>
    rw [edcCdCompute, edcCdCompute, hsame pos (by omega)]
    exact ih (fun i hi ↦ hsame i (by omega)) _

variable {s raw : RawSector}

variable {address : RawSector → RawSector} {edc : UInt32}

theorem putEdc_same {pos : ℕ} (hsame : SameBefore pos s raw) (hedc : hasEdc raw edc pos = true) :
    SameBefore (pos + 4) (putEdc s edc pos) raw := by
  intro i hi
  unfold putEdc
  split_ifs with hin
  · have hbyte := List.all_eq_true.mp hedc (i - pos) (List.mem_range.mpr (by omega))
    rw [decide_eq_true_eq, Nat.add_sub_cancel' hin.1] at hbyte
    exact hbyte.symm
  · exact hsame i (by omega)

namespace EccLayer

variable {layer : EccLayer} {address address' s t : RawSector} {addressOffset dataOffset : ℕ}

theorem minorLoop_congr (haddress : ∀ k < 4, address (k + addressOffset) = address' (k + addressOffset))
    (hdata : SameBefore (layer.size + dataOffset - 4) s t) (hinc : layer.minorInc ≤ layer.size)
    {minor idx : ℕ} (hidx : idx < layer.size) (eccA eccB : UInt8) :
    layer.minorLoop address s addressOffset dataOffset minor idx eccA eccB =
      layer.minorLoop address' t addressOffset dataOffset minor idx eccA eccB := by
  induction minor generalizing idx eccA eccB with
  | zero => rfl
  | succ minor ih =>
    have htemp : (if idx < 4 then address (idx + addressOffset) else s (idx + dataOffset - 4)) =
        if idx < 4 then address' (idx + addressOffset) else t (idx + dataOffset - 4) := by
      split_ifs with hfour
      · exact haddress idx hfour
      · exact hdata _ (by omega)
    simp only [minorLoop, htemp]
    exact ih (by split_ifs <;> omega) _ _

/-- The first index of every step is in range, and so are those that follow it. -/
structure InRange (layer : EccLayer) : Prop where
  first : ∀ major < layer.majorCount, major / 2 * layer.majorMult + major % 2 < layer.size
  inc : layer.minorInc ≤ layer.size

theorem inRange_p : p.InRange where
  first major hmajor := by
    simp only [p, size] at hmajor ⊢
    omega
  inc := by decide

theorem inRange_q : q.InRange where
  first major hmajor := by
    simp only [q, size] at hmajor ⊢
    omega
  inc := by decide

variable (hrange : layer.InRange)
  (haddress : ∀ k < 4, address (k + addressOffset) = address' (k + addressOffset))
include hrange haddress

theorem parity_congr (hdata : SameBefore (layer.size + dataOffset - 4) s t) {major : ℕ}
    (hmajor : major < layer.majorCount) :
    layer.parity address s addressOffset dataOffset major =
      layer.parity address' t addressOffset dataOffset major := by
  unfold parity
  rw [minorLoop_congr haddress hdata hrange.inc (hrange.first major hmajor)]

/-- A layer that was right is right again. -/
theorem write_same {raw : RawSector} {eccOffset : ℕ}
    (hfront : layer.size + dataOffset - 4 ≤ eccOffset) (hsame : SameBefore eccOffset s raw)
    (hcheck : layer.check address' raw addressOffset dataOffset eccOffset = true) :
    SameBefore (eccOffset + 2 * layer.majorCount)
      (layer.write address s addressOffset dataOffset eccOffset) raw := by
  have hparity {major : ℕ} (hmajor : major < layer.majorCount) :
      raw (major + eccOffset) = (layer.parity address s addressOffset dataOffset major).1 ∧
        raw (major + layer.majorCount + eccOffset) =
          (layer.parity address s addressOffset dataOffset major).2 := by
    rw [parity_congr hrange haddress (fun i hi ↦ hsame i (by omega)) hmajor]
    simpa [check] using List.all_eq_true.mp hcheck major (List.mem_range.mpr hmajor)
  intro i hi
  unfold write
  split_ifs with hfirst hsecond
  · rw [← (hparity (show i - eccOffset < layer.majorCount by omega)).1]
    congr 1
    omega
  · rw [← (hparity (show i - eccOffset - layer.majorCount < layer.majorCount by omega)).2]
    congr 1
    omega
  · exact hsame i (by omega)

/-- A layer that was written is right. -/
theorem check_of_write {raw : RawSector} {eccOffset : ℕ}
    (hfront : layer.size + dataOffset - 4 ≤ eccOffset)
    (hsame : SameBefore (eccOffset + 2 * layer.majorCount)
      (layer.write address s addressOffset dataOffset eccOffset) raw) :
    layer.check address' raw addressOffset dataOffset eccOffset = true := by
  refine List.all_eq_true.mpr fun major hmem ↦ ?_
  have hmajor := List.mem_range.mp hmem
  have hfirst := hsame (major + eccOffset) (by omega)
  have hsecond := hsame (major + layer.majorCount + eccOffset) (by omega)
  rw [write, if_pos (by omega), Nat.add_sub_cancel] at hfirst
  rw [write, if_neg (by omega), if_pos (by omega), Nat.add_sub_cancel, Nat.add_sub_cancel] at hsecond
  rw [← parity_congr hrange haddress (s := s) (fun i hi ↦ ?_) hmajor]
  · simp [← hfirst, ← hsecond]
  · rw [← hsame i (by omega), write, if_neg (by omega), if_neg (by omega)]

end EccLayer

/-! ### Suffixes that are computed again -/

section

variable {address' : RawSector} {addressOffset : ℕ} (haddress : ∀ t, SameBefore 0x81C t raw →
  ∀ k < 4, address t (k + addressOffset) = address' (k + addressOffset))
include haddress

/-- Both layers are computed from what is in front of them. -/
theorem eccCdWriteSector_same (hsame : SameBefore 0x81C s raw)
    (hp : EccLayer.p.check address' raw addressOffset 0x10 0x81C = true)
    (hq : EccLayer.q.check address' raw addressOffset 0x10 (0x81C + 0xAC) = true) :
    SameBefore cdRawSectorSize (eccCdWriteSector address s addressOffset 0x10 0x81C) raw := by
  have hfirst : SameBefore (0x81C + 0xAC)
      (EccLayer.p.write (address s) s addressOffset 0x10 0x81C) raw :=
    EccLayer.p.write_same EccLayer.inRange_p (haddress s hsame) (by decide) hsame hp
  exact EccLayer.q.write_same EccLayer.inRange_q
    (haddress _ fun i hi ↦ hfirst i (by omega)) (by decide) hfirst hq

theorem checks_of_eccCdWriteSector
    (hsame : SameBefore cdRawSectorSize (eccCdWriteSector address s addressOffset 0x10 0x81C) raw) :
    SameBefore 0x81C s raw ∧ EccLayer.p.check address' raw addressOffset 0x10 0x81C = true ∧
      EccLayer.q.check address' raw addressOffset 0x10 (0x81C + 0xAC) = true := by
  have hfirst : SameBefore (0x81C + 0xAC)
      (EccLayer.p.write (address s) s addressOffset 0x10 0x81C) raw := fun i hi ↦ by
    rw [← hsame i (by unfold cdRawSectorSize; omega), eccCdWriteSector,
      EccLayer.write.eq_def EccLayer.q, if_neg (by omega), if_neg (by omega)]
  have hfront : SameBefore 0x81C s raw := fun i hi ↦ by
    rw [← hfirst i (by omega), EccLayer.write, if_neg (by omega), if_neg (by omega)]
  exact ⟨hfront, EccLayer.p.check_of_write EccLayer.inRange_p (haddress s hfront) (by decide) hfirst,
    EccLayer.q.check_of_write EccLayer.inRange_q (haddress _ fun i hi ↦ hfirst i (by omega))
      (by decide) hsame⟩

end

theorem eccCdReconstruct_mode1 (hsame : SameBefore 0x810 s raw)
    (hcorrect : eccCdIsSuffixCorrect raw = true) :
    SameBefore cdRawSectorSize (eccCdReconstruct s .mode1) raw := by
  simp only [eccCdIsSuffixCorrect, Bool.and_eq_true] at hcorrect
  obtain ⟨⟨⟨hreserved, hp⟩, hq⟩, hedc⟩ := hcorrect
  have hchecksum : SameBefore 0x814 (putEdc s (edcCdCompute s 0x810 0 0) 0x810) raw := by
    have hsum : edcCdCompute s 0x810 0 0 = edcCdCompute raw 0x810 0 0 :=
      edcCdCompute_congr (by simpa using hsame) 0
    rw [hsum]
    exact putEdc_same hsame hedc
  have hfront : SameBefore 0x81C (fun i ↦ if 0x814 ≤ i ∧ i < 0x81C then 0 else
      putEdc s (edcCdCompute s 0x810 0 0) 0x810 i) raw := by
    intro i hi
    simp only
    split_ifs with hin
    · have hbyte := List.all_eq_true.mp hreserved (i - 0x814) (List.mem_range.mpr (by omega))
      rw [decide_eq_true_eq, Nat.add_sub_cancel' hin.1] at hbyte
      exact hbyte.symm
    · exact hchecksum i (by omega)
  exact eccCdWriteSector_same (fun t ht k hk ↦ ht (k + 0xC) (by omega)) hfront hp hq

/-- The checksum of a form where the mode has it. -/
def FormAgrees (raw : RawSector) : CdSectorMode → Prop
  | .mode2Form1 => hasEdc raw (edcCdCompute raw 0x808 0x10 0) 0x818 = true
  | .mode2Form2 => hasEdc raw (edcCdCompute raw 0x91C 0x10 0) 0x92C = true
  | _ => True

theorem eccCdReconstruct_form1 (hsame : SameBefore 0x818 s raw)
    (hcorrect : eccCdIsSuffixCorrectMode2 raw = true) (hform : FormAgrees raw .mode2Form1) :
    SameBefore cdRawSectorSize (eccCdReconstruct s .mode2Form1) raw := by
  simp only [eccCdIsSuffixCorrectMode2, Bool.and_eq_true] at hcorrect
  obtain ⟨⟨hp, hq⟩, -⟩ := hcorrect
  have hsum : edcCdCompute s 0x808 0x10 0 = edcCdCompute raw 0x808 0x10 0 :=
    edcCdCompute_congr hsame 0
  have hfront := putEdc_same hsame hform
  rw [← hsum] at hfront
  rw [eccCdReconstruct]
  exact eccCdWriteSector_same (fun _ _ _ _ ↦ rfl) hfront hp hq

theorem eccCdReconstruct_form2 (hsame : SameBefore cdRawSectorSize s raw)
    (hform : FormAgrees raw .mode2Form2) :
    SameBefore cdRawSectorSize (eccCdReconstruct s .mode2Form2) raw := by
  have hfront : SameBefore 0x92C s raw := fun i hi ↦ hsame i (by unfold cdRawSectorSize; omega)
  have hsum : edcCdCompute s 0x91C 0x10 0 = edcCdCompute raw 0x91C 0x10 0 :=
    edcCdCompute_congr hfront 0
  have hchecksum := putEdc_same hfront hform
  rw [← hsum] at hchecksum
  exact fun i hi ↦ hchecksum i (by unfold cdRawSectorSize at hi; omega)

/-- Zeros in front do not change a checksum. -/
theorem edcCdCompute_zeros {src : RawSector} {n size pos : ℕ} (hzero : ∀ k < n, src (pos + k) = 0) :
    edcCdCompute src (n + size) pos 0 = edcCdCompute src size (pos + n) 0 := by
  induction n generalizing pos with
  | zero => rw [Nat.zero_add, Nat.add_zero]
  | succ n ih =>
    have hfirst : src pos = 0 := hzero 0 (Nat.succ_pos n)
    have hstep : (0 : UInt32) >>> 8 ^^^ edcTable (0 ^^^ (0 : UInt8).toUInt32).toUInt8 = 0 := by
      decide
    rw [Nat.add_right_comm, edcCdCompute, hfirst, hstep, ih, Nat.add_right_comm, Nat.add_assoc]
    intro k hk
    have hlater := hzero (k + 1) (Nat.succ_lt_succ hk)
    rwa [Nat.add_comm k 1, ← Nat.add_assoc] at hlater

/-! ### What the computed bytes say -/

theorem eccCdWriteSector_before {s : RawSector} {addressOffset dataOffset eccOffset i : ℕ}
    (hi : i < eccOffset) :
    eccCdWriteSector address s addressOffset dataOffset eccOffset i = s i := by
  unfold eccCdWriteSector EccLayer.write
  rw [if_neg (by omega), if_neg (by omega), if_neg (by omega), if_neg (by omega)]

/-- A sector that has the bytes a checksum is written over has the checksum. -/
theorem hasEdc_of_put {pos : ℕ} (hsame : ∀ i, pos ≤ i → i < pos + 4 → putEdc s edc pos i = raw i) :
    hasEdc raw edc pos = true := by
  refine List.all_eq_true.mpr fun k hk ↦ ?_
  have hlt := List.mem_range.mp hk
  rw [decide_eq_true_eq, ← hsame (pos + k) (by omega) (by omega), putEdc, if_pos (by omega),
    Nat.add_sub_cancel_left]

theorem formAgrees_of_form1 (hsame : SameBefore 0x818 s raw)
    (hrestored : SameBefore cdRawSectorSize (eccCdReconstruct s .mode2Form1) raw) :
    FormAgrees raw .mode2Form1 := by
  have hsum : edcCdCompute s 0x808 0x10 0 = edcCdCompute raw 0x808 0x10 0 :=
    edcCdCompute_congr hsame 0
  refine hasEdc_of_put (s := s) fun i hi hlt ↦ ?_
  rw [← hsum, ← hrestored i (by unfold cdRawSectorSize; omega), eccCdReconstruct]
  exact (eccCdWriteSector_before (by omega)).symm

theorem formAgrees_of_form2 (hsame : SameBefore 0x92C s raw)
    (hrestored : SameBefore cdRawSectorSize (eccCdReconstruct s .mode2Form2) raw) :
    FormAgrees raw .mode2Form2 := by
  have hsum : edcCdCompute s 0x91C 0x10 0 = edcCdCompute raw 0x91C 0x10 0 :=
    edcCdCompute_congr hsame 0
  refine hasEdc_of_put (s := s) fun i hi hlt ↦ ?_
  rw [← hsum, ← hrestored i (by unfold cdRawSectorSize; omega), eccCdReconstruct]

/-- The sector that the reader makes is the only one with the same bytes in front that passes the
check of the writer. -/
theorem eccCdReconstruct_iff (s raw : RawSector) :
    (SameBefore cdRawSectorSize (eccCdReconstruct s .mode1) raw ↔
      SameBefore 0x810 s raw ∧ eccCdIsSuffixCorrect raw = true) ∧
    (isForm2 s = false → (SameBefore cdRawSectorSize (eccCdReconstruct s .mode2Form1) raw ↔
      SameBefore 0x818 s raw ∧ eccCdIsSuffixCorrectMode2 raw = true)) := by
  have hflag (hbytes : SameBefore 0x818 s raw) : isForm2 s = isForm2 raw := by
    rw [isForm2, hbytes 0x12 (by decide), isForm2]
  refine ⟨⟨fun hsame ↦ ?_, fun hraw ↦ eccCdReconstruct_mode1 hraw.1 hraw.2⟩, fun hform ↦
    ⟨fun hsame ↦ ?_, fun hraw ↦ eccCdReconstruct_form1 hraw.1 hraw.2 ?_⟩⟩
  · obtain ⟨hfront, hp, hq⟩ :=
      checks_of_eccCdWriteSector (fun t ht k hk ↦ ht (k + 0xC) (by omega)) hsame
    simp only [SameBefore, id] at hfront
    have hbytes : SameBefore 0x810 s raw := fun i hi ↦ by
      rw [← hfront i (by omega), if_neg (by omega), putEdc, if_neg (by omega)]
    have hzero : (List.range 8).all (fun k ↦ raw (0x814 + k) = 0) = true :=
      List.all_eq_true.mpr fun k hk ↦ by
        have hlt := List.mem_range.mp hk
        rw [← hfront (0x814 + k) (by omega), if_pos (by omega), decide_eq_true rfl]
    have hedc : hasEdc raw (edcCdCompute raw 0x810 0 0) 0x810 = true :=
      hasEdc_of_put (s := s) fun i hi hlt ↦ by
        rw [← edcCdCompute_congr (by rwa [Nat.zero_add]), ← hfront i (by omega), if_neg (by omega)]
    exact ⟨hbytes, by rw [eccCdIsSuffixCorrect, hzero, hp, hq, hedc]; rfl⟩
  · obtain ⟨hfront, hp, hq⟩ := checks_of_eccCdWriteSector (fun _ _ _ _ ↦ rfl) hsame
    have hbytes : SameBefore 0x818 s raw := fun i hi ↦ by
      rw [← hfront i (by omega), putEdc, if_neg (by omega)]
    have hedc : hasEdc raw (edcCdCompute raw 0x808 0x10 0) 0x818 = true :=
      formAgrees_of_form1 hbytes hsame
    rw [hflag hbytes] at hform
    exact ⟨hbytes, by simp [eccCdIsSuffixCorrectMode2, hp, hq, hform, hedc]⟩
  · rw [hflag hraw.1] at hform
    simpa [FormAgrees, hform] using (Bool.and_eq_true_iff.mp hraw.2).2

end Obmafs3
