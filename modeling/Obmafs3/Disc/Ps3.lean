import Obmafs3.Disc.Descriptors

/-!
# PlayStation 3 images

The importer deciphers the sectors outside the plaintext regions and stores them with the others. The
reader enciphers a sector it returns when the regions, as it parsed them from metadata, do not hold
it: in place when it returns the whole sector, else from a second read of the sector.
-/

set_option autoImplicit false

namespace Obmafs3

open Library.BlockChaining

/-! ### The disc -/

/-- `PS3_SECTOR_SIZE`. -/
def ps3SectorSize : ℕ := 2048

/-- `PS3_MAX_PLAIN_REGIONS`, which is `OBMAFS3_PS3_MAX_REGIONS`. -/
def ps3MaxRegions : ℕ := 32

/-- `struct ps3_plain_region`: the first sector and the last. -/
structure Ps3Region where
  startSector : ℕ
  endSector : ℕ
  start_lt : startSector < 2 ^ 32
  end_lt : endSector < 2 ^ 32

/-- `ps3_is_encrypted_sector`. -/
def ps3IsEncryptedSector (regions : List Ps3Region) (sector : ℕ) : Bool :=
  !regions.any fun r ↦ r.startSector ≤ sector && sector ≤ r.endSector

/-- The last bytes of a number, the lowest at the end. -/
def ivBytes : (bytes sector : ℕ) → List UInt8
  | 0, _ => []
  | bytes + 1, sector => ivBytes bytes (sector / 256) ++ [UInt8.ofNat (sector % 256)]

/-- `ps3_sector_iv`. -/
def ps3SectorIv (sector : ℕ) : List UInt8 := ivBytes 16 sector

/-! ### Importing -/

/-- What is stored for a sector. -/
def ps3StoredSector (image key : List UInt8) (regions : List Ps3Region) (sector : ℕ) : List UInt8 :=
  let buffer := zeroFilled ps3SectorSize (preadFile image ps3SectorSize (sector * ps3SectorSize))
  if ps3IsEncryptedSector regions sector then aes128CbcDecrypt key (ps3SectorIv sector) buffer
  else buffer

/-- `IMPORT_BATCH_SECTORS`. -/
def importBatchSectors : ℕ := 64

/-- One turn of the loop: the batch, and what was written so far. -/
def ps3ImportSector (image key : List UInt8) (regions : List Ps3Region)
    (s : List UInt8 × List UInt8) (sector : ℕ) : List UInt8 × List UInt8 :=
  let batch := s.1 ++ ps3StoredSector image key regions sector
  if ps3SectorSize * importBatchSectors ≤ batch.length then ([], s.2 ++ batch) else (batch, s.2)

/-- `ps3_import`: what is written to the file, with the rest of the last batch. -/
def ps3Import (image key : List UInt8) (regions : List Ps3Region) : List UInt8 :=
  let s := (List.range (image.length / ps3SectorSize)).foldl (ps3ImportSector image key regions)
    ([], [])
  s.2 ++ s.1

/-- The keys under which `OBMAFS3_IOC_SET_PS3_IMAGE` keeps what it is told. -/
inductive Ps3Key where
  | discKey
  | discSize
  | regionCount
  | regionStart (i : ℕ)
  | regionEnd (i : ℕ)
deriving DecidableEq

/-- The metadata that is put for a new image. -/
def ps3Metadata (discSize : ℕ) (key : List UInt8) (regions : List Ps3Region) : Ps3Key → Option Text
  | .discKey => some (hexText key)
  | .discSize => some (decimal discSize)
  | .regionCount => some (decimal regions.length)
  | .regionStart i => ((regions.take ps3MaxRegions)[i]?).map fun r ↦ decimal r.startSector
  | .regionEnd i => ((regions.take ps3MaxRegions)[i]?).map fun r ↦ decimal r.endSector

/-! ### Reading -/

/-- `struct ps3_read_info`. -/
structure Ps3ReadInfo where
  discKey : List UInt8
  plainCount : ℕ
  plain : List (ℕ × ℕ)

/-- `load_ps3_info`. -/
def loadPs3Info (metadata : Ps3Key → Option Text) : Option Ps3ReadInfo :=
  match metadata .discKey with
  | none => none
  | some key =>
    let plainCount := (metadata .regionCount).elim 0 (atoi 32)
    let number (key : Ps3Key) : ℕ := (metadata key).elim 0 fun v ↦ strtoull v % 2 ^ 32
    some ⟨loadKey 16 key, plainCount,
      (List.range (min plainCount ps3MaxRegions)).map fun i ↦
        (number (.regionStart i), number (.regionEnd i))⟩

/-- `is_plain_sector`. -/
def isPlainSector (info : Ps3ReadInfo) (sector : ℕ) : Bool :=
  (List.range info.plainCount).any fun i ↦
    (info.plain.getD i (0, 0)).1 ≤ sector && sector ≤ (info.plain.getD i (0, 0)).2

/-- What is returned of a sector, from the bytes that were read at the start. -/
def ps3Piece (stored : List UInt8) (info : Ps3ReadInfo) (bytes : List UInt8) (start : ℕ)
    (sector offset count : ℕ) : List UInt8 :=
  let part := (bytes.drop (sector * ps3SectorSize + offset - start)).take count
  if isPlainSector info sector then part
  else if offset = 0 ∧ count = ps3SectorSize then
    aes128CbcEncrypt info.discKey (ps3SectorIv sector) part
  else
    let full := mediaRead stored (sector * ps3SectorSize) (List.replicate ps3SectorSize 0)
    ((aes128CbcEncrypt info.discKey (ps3SectorIv sector) full).drop offset).take count

/-- `obmafs3_read_ps3_image_data`, into a buffer. -/
def readPs3ImageData (stored : List UInt8) (metadata : Ps3Key → Option Text) (offset : ℕ)
    (buffer : List UInt8) : List UInt8 :=
  let bytes := mediaRead stored offset buffer
  match loadPs3Info metadata with
  | none => bytes
  | some info =>
    readPieces ps3SectorSize (ps3Piece stored info bytes offset) buffer.length offset buffer.length

/-! ### The descriptors -/

section Descriptors

variable {regions : List Ps3Region} {key : List UInt8}

theorem decimal_u32 {n : ℕ} (hn : n < 2 ^ 32) : strtoull (decimal n) % 2 ^ 32 = n := by
  rw [strtoull_decimal (by omega), Nat.mod_eq_of_lt hn]

/-- The reader finds the key and the regions as the importer had them. -/
theorem loadPs3Info_metadata (hkey : key.length = 16) (hregions : regions.length ≤ ps3MaxRegions)
    (discSize : ℕ) :
    loadPs3Info (ps3Metadata discSize key regions) =
      some ⟨key, regions.length, regions.map fun r ↦ (r.startSector, r.endSector)⟩ := by
  have hcount : atoi 32 (decimal regions.length) = regions.length := by
    simp only [ps3MaxRegions] at hregions
    apply atoi_decimal (by omega)
    simp only [int64Max]
    omega
  have htake : regions.take ps3MaxRegions = regions := List.take_of_length_le hregions
  have hload : loadKey 16 (hexText key) = key := hkey ▸ loadKey_hexText key
  simp only [loadPs3Info, ps3Metadata, hload, Option.elim_some, hcount, htake, min_eq_left hregions,
    Option.some.injEq, Ps3ReadInfo.mk.injEq, true_and]
  refine List.ext_getElem (by simp) fun i hi _ ↦ ?_
  have hlt : i < regions.length := by simpa using hi
  simpa [hlt] using And.intro (decimal_u32 regions[i].start_lt) (decimal_u32 regions[i].end_lt)

/-- The reader and the importer agree on what is plain. -/
theorem isPlainSector_eq (sector : ℕ) :
    isPlainSector ⟨key, regions.length, regions.map fun r ↦ (r.startSector, r.endSector)⟩ sector =
      !ps3IsEncryptedSector regions sector := by
  rw [ps3IsEncryptedSector, Bool.not_not, Bool.eq_iff_iff]
  simp only [isPlainSector, List.any_eq_true, List.mem_range]
  constructor
  · rintro ⟨i, hi, hin⟩
    refine ⟨regions[i], List.getElem_mem hi, ?_⟩
    simpa [hi] using hin
  · rintro ⟨r, hr, hin⟩
    obtain ⟨i, hi, rfl⟩ := List.getElem_of_mem hr
    exact ⟨i, hi, by simpa [hi] using hin⟩

end Descriptors

/-! ### The image comes back -/

section Restored

variable {image key : List UInt8} {regions : List Ps3Region}

variable {sector : ℕ}

section

variable (hdvd : ps3SectorSize ∣ image.length) (hsector : sector < image.length / ps3SectorSize)
include hdvd hsector

theorem ps3StoredSector_eq : ps3StoredSector image key regions sector =
      if ps3IsEncryptedSector regions sector then
        aes128CbcDecrypt key (ps3SectorIv sector) (discSector ps3SectorSize image sector)
      else discSector ps3SectorSize image sector := by
  have hfilled : zeroFilled ps3SectorSize
      (preadFile image ps3SectorSize (sector * ps3SectorSize)) =
        discSector ps3SectorSize image sector :=
    zeroFilled_of_length (length_discSector hdvd hsector)
  rw [ps3StoredSector, hfilled]

theorem length_ps3StoredSector :
    (ps3StoredSector image key regions sector).length = ps3SectorSize := by
  have hlength := length_discSector hdvd hsector
  rw [ps3StoredSector_eq hdvd hsector]
  split_ifs
  · rw [length_aes128CbcDecrypt (by rw [hlength]; decide), hlength]
  · exact hlength

end

/-- Batches are written in order, so that the file is the sectors one after the other. -/
theorem ps3Import_eq : ps3Import image key regions =
    (List.range (image.length / ps3SectorSize)).flatMap (ps3StoredSector image key regions) := by
  have hstep (sectors : List ℕ) (s : List UInt8 × List UInt8) :
      (sectors.foldl (ps3ImportSector image key regions) s).2 ++
        (sectors.foldl (ps3ImportSector image key regions) s).1 =
          s.2 ++ s.1 ++ sectors.flatMap (ps3StoredSector image key regions) := by
    induction sectors generalizing s with
    | nil => simp
    | cons sector sectors ih =>
      rw [List.foldl_cons, ih, List.flatMap_cons, ps3ImportSector]
      split_ifs <;> simp
  exact hstep _ _

/-- A whole disc image comes back from what the importer left. -/
theorem readPs3ImageData_restores (hdvd : ps3SectorSize ∣ image.length) (hkey : key.length = 16)
    (hregions : regions.length ≤ ps3MaxRegions) (offset : ℕ) (buffer : List UInt8) :
    (readPs3ImageData (ps3Import image key regions) (ps3Metadata image.length key regions) offset
        buffer).take (image.length - offset) = (image.drop offset).take buffer.length := by
  obtain ⟨n, hn⟩ : ∃ n, image.length / ps3SectorSize = n := ⟨_, rfl⟩
  have hlength : n * ps3SectorSize = image.length := hn ▸ Nat.div_mul_cancel hdvd
  have hcontent : ∀ k < n, (discSector ps3SectorSize image k).length = ps3SectorSize :=
    fun k hk ↦ length_discSector hdvd (hn ▸ hk)
  have hstored : ∀ k < n, (ps3StoredSector image key regions k).length = ps3SectorSize :=
    fun k hk ↦ length_ps3StoredSector hdvd (hn ▸ hk)
  have himage := flatMap_discSector hdvd
  rw [readPs3ImageData, loadPs3Info_metadata hkey hregions, ps3Import_eq, hn]
  dsimp only
  rw [hn] at himage
  have hread := readPieces_eq offset (offset + buffer.length)
    (ps3Piece ((List.range n).flatMap (ps3StoredSector image key regions))
      ⟨key, regions.length, regions.map fun r ↦ (r.startSector, r.endSector)⟩
      (mediaRead ((List.range n).flatMap (ps3StoredSector image key regions)) offset buffer) offset)
    (by decide) hcontent ?_ (le_refl _) (le_refl _) (le_refl _)
  · rw [himage, hlength] at hread
    exact hread
  · intro k hk skip count hfits hfirst hlast
    have hinside : k * ps3SectorSize + skip + count ≤ n * ps3SectorSize := by
      have := Nat.mul_le_mul_right ps3SectorSize hk
      rw [Nat.succ_mul] at this
      omega
    have hwhole := length_flatMap_range hstored
    have hpart : ((mediaRead ((List.range n).flatMap (ps3StoredSector image key regions)) offset
        buffer).drop (k * ps3SectorSize + skip - offset)).take count =
          ((ps3StoredSector image key regions k).drop skip).take count := by
      rw [mediaRead_slice (by omega) (by omega), Nat.add_sub_cancel' hfirst]
      exact slice_flatMap_range hstored hk skip count hfits
    have hfull := mediaRead_sector hstored hk
    have heq := @ps3StoredSector_eq image key regions k hdvd (hn ▸ hk)
    have hback (hencrypted : ps3IsEncryptedSector regions k = true) :
        aes128CbcEncrypt key (ps3SectorIv k) (ps3StoredSector image key regions k) =
          discSector ps3SectorSize image k := by
      rw [heq, if_pos hencrypted]
      exact aes128CbcEncrypt_decrypt (by rw [hcontent k hk]; decide)
    rw [ps3Piece, hpart, isPlainSector_eq, hfull]
    cases hencrypted : ps3IsEncryptedSector regions k with
    | false =>
      rw [heq, hencrypted]
      simp
    | true =>
      dsimp only
      split_ifs with hplain hwholeSector
      · simp at hplain
      · obtain ⟨rfl, rfl⟩ := hwholeSector
        rw [List.drop_zero, List.take_of_length_le (hstored k hk).le, hback hencrypted,
          List.drop_zero, List.take_of_length_le (hcontent k hk).le]
      · rw [hback hencrypted]

end Restored

end Obmafs3
