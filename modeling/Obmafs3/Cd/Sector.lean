import Obmafs3.Cd.Ecc

/-!
# Taking a CD sector apart

A request to write a raw sector keeps its data by hash, and of its prefix and suffix only what the
reader could not compute: where they follow from the address, the mode and the data they are left
out. `reassemble_same` says that the parts give the sector back, when a suffix that was left out has
its checksum where the mode has it.
-/

set_option autoImplicit false

namespace Obmafs3

/-- `CD_PREFIX_SIZE`. -/
def cdPrefixSize : ℕ := 16

/-- `CD_SUFFIX_SIZE`. -/
def cdSuffixSize : ℕ := 288

/-- `CD_SUBCHANNEL_SIZE`. -/
def cdSubchannelSize : ℕ := 96

namespace CdSectorMode

/-- The size of the data portion, which is the sector size of its dedup tree. -/
def dataSize : CdSectorMode → ℕ
  | .audio => 2352
  | .mode1 => 2048
  | .mode2 => 2336
  | .mode2Form1 => 2048
  | .mode2Form2 => 2328

/-- Where the data portion is in the raw sector. -/
def dataStart : CdSectorMode → ℕ
  | .audio => 0
  | .mode1 => 16
  | .mode2 => 16
  | .mode2Form1 => 24
  | .mode2Form2 => 24

/-- The modes whose subheader a reader puts back. -/
def hasSubheader (mode : CdSectorMode) : Bool := mode = .mode2Form1 ∨ mode = .mode2Form2

theorem dataSize_pos (mode : CdSectorMode) : 0 < mode.dataSize := by
  cases mode <;> decide

theorem dataSize_le (mode : CdSectorMode) : mode.dataSize ≤ cdRawSectorSize := by
  cases mode <;> decide

end CdSectorMode

/-! ### Prefixes -/

/-- `cd_lba_to_msf`. -/
def cdLbaToMsf (pos : ℕ) : UInt8 × UInt8 × UInt8 :=
  (UInt8.ofNat ((pos + 150) / 75 / 60), UInt8.ofNat ((pos + 150) / 75 % 60),
    UInt8.ofNat ((pos + 150) % 75))

def bcd (x : UInt8) : UInt8 := (x / 10) <<< 4 + x % 10

/-- The sync pattern and the address. -/
def syncAndAddress (lba i : ℕ) : UInt8 :=
  let (minute, second, frame) := cdLbaToMsf lba
  if i = 0 ∨ i = 11 then 0x00
  else if i < 11 then 0xFF
  else if i = 12 then bcd minute
  else if i = 13 then bcd second
  else bcd frame

/-- `cd_prefix_is_generatable`. -/
def cdPrefixIsGeneratable (sector : RawSector) (lba : ℕ) : CdSectorMode → Bool
  | .audio => false
  | mode => (List.range cdPrefixSize).all fun i ↦
      sector i = if i = 15 then (if mode = .mode1 then 0x01 else 0x02) else syncAndAddress lba i

/-- `ecc_cd_reconstruct_prefix`. -/
def eccCdReconstructPrefix (sector : RawSector) (mode : CdSectorMode) (lba : ℕ) : RawSector :=
  let sector : RawSector := fun i ↦ if i < 15 then syncAndAddress lba i else sector i
  match mode with
  | .audio => sector
  | .mode1 => fun i ↦ if i = 15 then 0x01 else sector i
  | _ => fun i ↦
    if i = 15 then 0x02
    -- The copy of the flags in front of the flags.
    else if 0x10 ≤ i ∧ i < 0x14 then sector (i + 4)
    else sector i

/-! ### Parts -/

/-- Bytes of a sector. -/
def portion (sector : RawSector) (start length : ℕ) : List UInt8 :=
  (List.range length).map fun k ↦ sector (start + k)

/-- `memcpy` of bytes to a position. -/
def putBytes (sector : RawSector) (bytes : List UInt8) (pos : ℕ) : RawSector := fun i ↦
  if pos ≤ i ∧ i < pos + bytes.length then bytes.getD (i - pos) 0 else sector i

/-- `struct cd_sector_map_entry`. -/
structure CdSectorMapEntry where
  sector : ℕ
  sectorMode : CdSectorMode
  hash : ℕ
  dedupSectorLba : ℕ
  dedupSectorOffset : ℕ
  generatedPrefix : Bool
  prefixHash : ℕ
  generatedSuffix : Bool
  suffixHash : ℕ
  subheader : List UInt8
  subchannelHash : ℕ
  dedupSubchannelLba : ℕ
  dedupSubchannelOffset : ℕ

/-- Whether a writer leaves the suffix out. -/
def suffixIsGeneratable (sector : RawSector) : CdSectorMode → Bool
  | .mode1 => eccCdIsSuffixCorrect sector
  | .mode2Form1 => eccCdIsSuffixCorrectMode2 sector
  | .mode2Form2 => eccCdIsSuffixCorrectMode2 sector
  | .mode2 => true
  | .audio => false

/-- The reconstruction of a raw sector in `obmafs3_read_cd_image_data`. -/
def reassemble (prefixGet suffixGet : ℕ → Option (List UInt8)) (entry : CdSectorMapEntry)
    (data : List UInt8) (sectorNum : ℕ) : Option RawSector :=
  let blank : RawSector := fun _ ↦ 0
  match entry.sectorMode with
  | .audio => some (putBytes blank data 0)
  | mode =>
    let front := if entry.generatedPrefix then some (eccCdReconstructPrefix blank mode sectorNum)
      else (prefixGet entry.prefixHash).map fun pfx ↦ putBytes blank pfx 0
    front.bind fun sector ↦
      let sector := if mode.hasSubheader then putBytes sector entry.subheader cdPrefixSize else sector
      let sector := putBytes sector data (if mode.hasSubheader then cdPrefixSize + 8 else cdPrefixSize)
      if mode = .mode2 then some sector
      else if entry.generatedSuffix then some (eccCdReconstruct sector mode)
      else (suffixGet entry.suffixHash).map fun sfx ↦
        putBytes sector sfx (cdRawSectorSize - cdSuffixSize)

@[simp] theorem length_portion (sector : RawSector) (start length : ℕ) :
    (portion sector start length).length = length := by
  simp [portion]

variable {s raw : RawSector}

theorem putBytes_same {pos n : ℕ} (hsame : SameBefore pos s raw) :
    SameBefore (pos + n) (putBytes s (portion raw pos n) pos) raw := by
  intro i hi
  unfold putBytes
  rw [length_portion]
  split_ifs with hin
  · have hlt : i - pos < n := by omega
    simp [portion, hlt, Nat.add_sub_cancel' hin.1]
  · exact hsame i (by omega)

theorem SameBefore.mono {m n : ℕ} (hsame : SameBefore n s raw) (hle : m ≤ n) : SameBefore m s raw :=
  fun i hi ↦ hsame i (hi.trans_le hle)

/-- A prefix that passes the check is the one that is computed. -/
theorem eccCdReconstructPrefix_same {mode : CdSectorMode} {lba : ℕ}
    (hgenerated : cdPrefixIsGeneratable raw lba mode = true) :
    SameBefore cdPrefixSize (eccCdReconstructPrefix s mode lba) raw := by
  intro i hi
  have hbyte : mode ≠ .audio ∧
      raw i = if i = 15 then (if mode = .mode1 then 0x01 else 0x02) else syncAndAddress lba i := by
    cases mode with
    | audio => cases hgenerated
    | _ => exact ⟨by simp, of_decide_eq_true
        (List.all_eq_true.mp hgenerated i (List.mem_range.mpr hi))⟩
  obtain ⟨haudio, hbyte⟩ := hbyte
  unfold cdPrefixSize at hi
  rw [hbyte]
  by_cases hlast : i = 15
  · subst hlast
    cases mode <;> simp [eccCdReconstructPrefix] at haudio ⊢
  · have hlt : i < 15 := by omega
    have hflags : ¬(16 ≤ i ∧ i < 20) := by omega
    cases mode <;> simp [eccCdReconstructPrefix, hlast, hlt, hflags]

/-! ### The parts give the sector back -/

/-- What a writer keeps of a raw sector. `prefixGet` and `suffixGet` are the trees that a reader
asks. -/
structure PartsOf (prefixGet suffixGet : ℕ → Option (List UInt8)) (raw : RawSector) (lba : ℕ)
    (mode : CdSectorMode) (entry : CdSectorMapEntry) : Prop where
  sector : entry.sector = lba
  mode_eq : entry.sectorMode = mode
  prefix_generated : mode ≠ .audio → entry.generatedPrefix = cdPrefixIsGeneratable raw lba mode
  prefix_get : mode ≠ .audio → entry.generatedPrefix = false →
    prefixGet entry.prefixHash = some (portion raw 0 cdPrefixSize)
  suffix_generated : mode ≠ .audio → entry.generatedSuffix = suffixIsGeneratable raw mode
  suffix_get : mode ≠ .audio → entry.generatedSuffix = false →
    suffixGet entry.suffixHash = some (portion raw (cdRawSectorSize - cdSuffixSize) cdSuffixSize)
  subheader : mode.hasSubheader = true → entry.subheader = portion raw cdPrefixSize 8

/-- A suffix that is left out has its checksum where the mode has it. -/
def SuffixSafe (raw : RawSector) (mode : CdSectorMode) : Prop :=
  suffixIsGeneratable raw mode = true → FormAgrees raw mode

section Reassemble

variable {prefixGet suffixGet : ℕ → Option (List UInt8)} {raw : RawSector} {lba : ℕ}
  {mode : CdSectorMode} {entry : CdSectorMapEntry}

section

variable (hparts : PartsOf prefixGet suffixGet raw lba mode entry)
include hparts

theorem PartsOf.front (haudio : mode ≠ .audio) :
    ∃ s, (if entry.generatedPrefix then some (eccCdReconstructPrefix (fun _ ↦ 0) mode lba)
        else (prefixGet entry.prefixHash).map fun pfx ↦ putBytes (fun _ ↦ 0) pfx 0) = some s ∧
      SameBefore cdPrefixSize s raw := by
  cases hgenerated : entry.generatedPrefix with
  | true =>
    rw [hparts.prefix_generated haudio] at hgenerated
    exact ⟨_, rfl, eccCdReconstructPrefix_same hgenerated⟩
  | false =>
    rw [hparts.prefix_get haudio hgenerated]
    refine ⟨_, rfl, ?_⟩
    have hsame : SameBefore (0 + cdPrefixSize) _ raw :=
      putBytes_same (s := fun _ ↦ 0) fun i hi ↦ absurd hi (Nat.not_lt_zero i)
    rwa [Nat.zero_add] at hsame

/-- The suffix, computed or kept, behind the bytes in front of it. One that is kept is right. -/
theorem PartsOf.suffix (haudio : mode ≠ .audio) {s : RawSector}
    (hsame : SameBefore (cdRawSectorSize - cdSuffixSize) s raw) :
    ∃ t, (if entry.generatedSuffix then some (eccCdReconstruct s mode)
        else (suffixGet entry.suffixHash).map fun sfx ↦
          putBytes s sfx (cdRawSectorSize - cdSuffixSize)) = some t ∧
      (SameBefore cdRawSectorSize t raw ↔ (suffixIsGeneratable raw mode = true →
        SameBefore cdRawSectorSize (eccCdReconstruct s mode) raw)) := by
  cases hgenerated : entry.generatedSuffix with
  | true =>
    rw [hparts.suffix_generated haudio] at hgenerated
    exact ⟨_, rfl, (imp_iff_right hgenerated).symm⟩
  | false =>
    have hput : SameBefore (cdRawSectorSize - cdSuffixSize + cdSuffixSize) _ raw :=
      putBytes_same hsame
    rw [hparts.suffix_get haudio hgenerated]
    rw [hparts.suffix_generated haudio] at hgenerated
    refine ⟨_, rfl, iff_of_true hput fun h ↦ ?_⟩
    rw [hgenerated] at h
    cases h

/-- The parts give a sector, and it is the one that was taken apart unless its suffix was left out
and has its checksum elsewhere. -/
theorem PartsOf.reassemble_iff :
    ∃ s, reassemble prefixGet suffixGet entry (portion raw mode.dataStart mode.dataSize) lba = some s ∧
      (SameBefore cdRawSectorSize s raw ↔ SuffixSafe raw mode) := by
  unfold reassemble
  rw [hparts.mode_eq]
  by_cases haudio : mode = .audio
  · subst haudio
    have hsame : SameBefore (0 + 2352) _ raw :=
      putBytes_same (s := fun _ ↦ 0) fun i hi ↦ absurd hi (Nat.not_lt_zero i)
    exact ⟨_, rfl, iff_of_true hsame nofun⟩
  · obtain ⟨s, hfront, hsame⟩ := hparts.front haudio
    cases mode with
    | audio => exact absurd rfl haudio
    | mode1 =>
      simp only [hfront, Option.bind_some]
      have hdata : SameBefore (16 + 2048) _ raw := putBytes_same hsame
      obtain ⟨t, ht, hiff⟩ := hparts.suffix haudio hdata
      exact ⟨t, ht, hiff.trans
        (iff_of_true (fun h ↦ eccCdReconstruct_mode1 hdata h) fun _ ↦ trivial)⟩
    | mode2 =>
      simp only [hfront, Option.bind_some]
      have hdata : SameBefore (16 + 2336) _ raw := putBytes_same hsame
      exact ⟨_, rfl, iff_of_true hdata fun _ ↦ trivial⟩
    | mode2Form1 =>
      simp only [hfront, Option.bind_some]
      have hsubheader : SameBefore (16 + 8) (putBytes s entry.subheader cdPrefixSize) raw := by
        rw [hparts.subheader rfl]
        exact putBytes_same hsame
      have hdata : SameBefore (24 + 2048) _ raw := putBytes_same hsubheader
      obtain ⟨t, ht, hiff⟩ := hparts.suffix haudio (hdata.mono (by decide))
      exact ⟨t, ht, hiff.trans (forall_congr' fun h ↦
        ⟨formAgrees_of_form1 hdata, eccCdReconstruct_form1 hdata h⟩)⟩
    | mode2Form2 =>
      simp only [hfront, Option.bind_some]
      have hsubheader : SameBefore (16 + 8) (putBytes s entry.subheader cdPrefixSize) raw := by
        rw [hparts.subheader rfl]
        exact putBytes_same hsame
      have hdata : SameBefore (24 + 2328) _ raw := putBytes_same hsubheader
      obtain ⟨t, ht, hiff⟩ := hparts.suffix haudio (hdata.mono (by decide))
      exact ⟨t, ht, hiff.trans (forall_congr' fun _ ↦
        ⟨formAgrees_of_form2 (hdata.mono (by decide)), eccCdReconstruct_form2 hdata⟩)⟩

theorem reassemble_same (hsafe : SuffixSafe raw mode) :
    ∃ s, reassemble prefixGet suffixGet entry (portion raw mode.dataStart mode.dataSize) lba = some s ∧
      SameBefore cdRawSectorSize s raw := by
  obtain ⟨s, hs, hiff⟩ := hparts.reassemble_iff
  exact ⟨s, hs, hiff.mpr hsafe⟩

end

end Reassemble

end Obmafs3
