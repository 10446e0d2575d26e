import Obmafs3.Disc.Descriptors

/-!
# Wii U images

The importer looks up the key of a sector by sector numbers, the reader by the byte offsets and sizes
that it parsed from metadata. Both take the first partition that begins at or before the sector and
ends behind it, where the next one or the disc ends, and both fall back on the first key. A compressed
image is read through an index of its sectors, which is counted in 32 bits.
-/

set_option autoImplicit false

namespace Obmafs3

open Library.BlockChaining

/-! ### The source image -/

/-- `WIIU_SECTOR_SIZE`. -/
def wiiuSectorSize : ℕ := 0x8000

/-- `WUX_MAGIC`. -/
def wuxMagic : ℕ := 0x30585557

/-- An unsigned integer as it stands in memory. -/
def littleEndianValue (bytes : List UInt8) : ℕ :=
  bytes.foldr (fun byte value ↦ byte.toNat + 256 * value) 0

/-- An integer of some bytes in a file. -/
def fileField (file : List UInt8) (bytes offset : ℕ) : ℕ :=
  littleEndianValue (preadFile file bytes offset)

/-- `struct wiiu_reader`. -/
structure WiiuReader where
  file : List UInt8
  isWux : Bool
  discSize : ℕ
  wuxIndex : List ℕ
  wuxDataOffset : ℕ
  wuxSectorCount : ℕ

/-- The next multiple of the sector size. -/
def alignSector (offset : ℕ) : ℕ :=
  (offset + wiiuSectorSize - 1) / wiiuSectorSize * wiiuSectorSize

/-- `wux_init`. -/
def wuxInit (file : List UInt8) : Option WiiuReader :=
  if file.length < 32 then none
  else if fileField file 4 0 ≠ wuxMagic then none
  else if fileField file 4 8 ≠ wiiuSectorSize then none
  else
    let discSize := fileField file 8 16
    let sectorCount := discSize / wiiuSectorSize % 2 ^ 32
    let indexBytes := sectorCount * 4
    if (preadFile file indexBytes 32).length < indexBytes then none
    else
      some
        { file
          isWux := true
          discSize
          wuxIndex := (List.range sectorCount).map fun k ↦ fileField file 4 (32 + 4 * k)
          wuxDataOffset := alignSector (32 + indexBytes)
          wuxSectorCount := sectorCount }

/-- `wiiu_reader_open`. -/
def wiiuReaderOpen (file : List UInt8) : WiiuReader :=
  (wuxInit file).getD ⟨file, false, file.length, [], 0, 0⟩

/-- The loop of `wiiu_reader_pread` over a compressed image. -/
def wuxRead (reader : WiiuReader) : (fuel offset count : ℕ) → List UInt8
  | 0, _, _ => []
  | fuel + 1, offset, count =>
    if count = 0 ∨ reader.discSize ≤ offset then []
    else
      let logicalSector := offset / wiiuSectorSize % 2 ^ 32
      let sectorOffset := offset % wiiuSectorSize
      if reader.wuxSectorCount ≤ logicalSector then []
      else
        let fileOffset := reader.wuxDataOffset +
          reader.wuxIndex.getD logicalSector 0 * wiiuSectorSize + sectorOffset
        let data := preadFile reader.file (min count (wiiuSectorSize - sectorOffset)) fileOffset
        if data = [] then []
        else data ++ wuxRead reader fuel (offset + data.length) (count - data.length)

/-- `wiiu_reader_pread`. An error leaves nothing in the buffer. -/
def wiiuReaderPread (reader : WiiuReader) (count offset : ℕ) : List UInt8 :=
  if reader.isWux then wuxRead reader count offset count else preadFile reader.file count offset

/-! ### Importing -/

/-- What is used of `struct wiiu_partition`. -/
structure WiiuPartition where
  startSector : ℕ
  key : List UInt8
  start_lt : startSector < 2 ^ 32
  key_length : key.length = 16

/-- Where a partition that begins at a sector ends: at the nearest start behind it, else with the
disc. -/
def nextStart (parts : List WiiuPartition) (start discSectors : ℕ) : ℕ :=
  parts.foldl (fun next p ↦ if start < p.startSector ∧ p.startSector < next then p.startSector else next)
    discSectors

/-- A sector that is stored as it is: one of the first three, or the first of a partition. -/
def wiiuIsPlain (parts : List WiiuPartition) (sector : ℕ) : Bool :=
  sector < 3 || parts.any fun p ↦ sector = p.startSector

/-- The key of the first partition that holds a sector, else that of the first partition. -/
def wiiuSectorKey (parts : List WiiuPartition) (discSectors sector : ℕ) : Option (List UInt8) :=
  match parts.find? fun p ↦
      p.startSector ≤ sector && sector < nextStart parts p.startSector discSectors with
  | some p => some p.key
  | none => parts.head?.map WiiuPartition.key

/-- An initialisation vector of zeros. -/
def zeroIv : List UInt8 := List.replicate 16 0

/-- What is written for a sector. -/
def wiiuStoredSector (reader : WiiuReader) (parts : List WiiuPartition) (sector : ℕ) : List UInt8 :=
  let buffer := zeroFilled wiiuSectorSize
    (wiiuReaderPread reader wiiuSectorSize (sector * wiiuSectorSize))
  if wiiuIsPlain parts sector then buffer
  else
    match wiiuSectorKey parts (reader.discSize / wiiuSectorSize) sector with
    | some key => aes128CbcDecrypt key zeroIv buffer
    | none => buffer

/-- `wiiu_import`: the file that is written. -/
def wiiuImport (reader : WiiuReader) (parts : List WiiuPartition) : List UInt8 :=
  (List.range (reader.discSize / wiiuSectorSize)).flatMap (wiiuStoredSector reader parts)

/-- `OBMAFS3_NGC_MAX_PARTITIONS`, which is `WIIU_MAX_PARTITIONS`. -/
def ngcMaxPartitions : ℕ := 8

/-- `struct obmafs3_ioctl_ngc_partition_arg`. -/
structure NgcPartition where
  dataOffset : ℕ
  dataSize : ℕ
  titleKey : List UInt8

/-- The partition as the request for a new image describes it. The size is a difference of 64 bits,
which wraps for a partition that begins behind the end of the disc. -/
def ngcPartition (parts : List WiiuPartition) (discSize : ℕ) (p : WiiuPartition) : NgcPartition :=
  let dataOffset := p.startSector * wiiuSectorSize
  let nextOffset := parts.foldl
    (fun next q ↦
      if dataOffset < q.startSector * wiiuSectorSize ∧ q.startSector * wiiuSectorSize < next then
        q.startSector * wiiuSectorSize
      else next)
    discSize
  ⟨dataOffset, (nextOffset + 2 ^ 64 - dataOffset) % 2 ^ 64, p.key⟩

/-- The keys under which `OBMAFS3_IOC_SET_NINTENDO_IMAGE` keeps what it is told. -/
inductive NgcKey where
  | discType
  | discSize
  | partCount
  | dataOffset (i : ℕ)
  | dataSize (i : ℕ)
  | titleKey (i : ℕ)
deriving DecidableEq

/-- The metadata that is put for a new Wii U image. -/
def wiiuMetadata (discSize : ℕ) (parts : List WiiuPartition) : NgcKey → Option Text :=
  let described (i : ℕ) : Option NgcPartition :=
    ((parts.take ngcMaxPartitions).map (ngcPartition parts discSize))[i]?
  fun
  | .discType => some (decimal 2)
  | .discSize => some (decimal discSize)
  | .partCount => some (decimal parts.length)
  | .dataOffset i => (described i).map fun p ↦ decimal p.dataOffset
  | .dataSize i => (described i).map fun p ↦ decimal p.dataSize
  | .titleKey i => (described i).map fun p ↦ hexText p.titleKey

/-! ### Reading -/

/-- `struct ngc_ri`. -/
structure NgcReadInfo where
  discType : ℕ
  discSize : ℕ
  partCount : ℕ
  parts : List NgcPartition

/-- A number from metadata, zero if it is not there. -/
def ngcNumber (metadata : NgcKey → Option Text) (key : NgcKey) : ℕ :=
  match metadata key with
  | none => 0
  | some v => strtoull v

/-- A partition from metadata. -/
def loadNgcPartition (metadata : NgcKey → Option Text) (i : ℕ) : NgcPartition where
  dataOffset := ngcNumber metadata (.dataOffset i)
  dataSize := ngcNumber metadata (.dataSize i)
  titleKey :=
    match metadata (.titleKey i) with
    | none => List.replicate 16 0
    | some v => loadKey 16 v

/-- `load_info`. -/
def loadNgcInfo (metadata : NgcKey → Option Text) : Option NgcReadInfo :=
  match metadata .discType with
  | none => none
  | some discType =>
    let partCount :=
      match metadata .partCount with
      | none => 0
      | some v => atoi 16 v
    some ⟨atoi 8 discType, ngcNumber metadata .discSize, partCount,
      (List.range (min partCount ngcMaxPartitions)).map (loadNgcPartition metadata)⟩

/-- Whether the reader returns a sector as it is stored. -/
def ngcIsPlain (info : NgcReadInfo) (base : ℕ) : Bool :=
  base < 0x18000 || info.parts.any fun p ↦ base = p.dataOffset

/-- The key the reader enciphers a sector with. -/
def ngcSectorKey (info : NgcReadInfo) (base : ℕ) : Option (List UInt8) :=
  match info.parts.find? fun p ↦
      p.dataOffset ≤ base && base < (p.dataOffset + p.dataSize) % 2 ^ 64 with
  | some p => some p.titleKey
  | none => info.parts.head?.map NgcPartition.titleKey

/-- What `read_wiiu` copies of a sector. -/
def wiiuPiece (stored : List UInt8) (info : NgcReadInfo) (sector offset count : ℕ) : List UInt8 :=
  let base := sector * wiiuSectorSize
  let bytes := mediaRead stored base (List.replicate wiiuSectorSize 0)
  let bytes :=
    if ngcIsPlain info base then bytes
    else
      match ngcSectorKey info base with
      | some key => aes128CbcEncrypt key zeroIv bytes
      | none => bytes
  (bytes.drop offset).take count

/-- `obmafs3_read_nintendo_image_data` for a Wii U image. Other discs have readers of their own. -/
def readWiiuImageData (stored : List UInt8) (metadata : NgcKey → Option Text) (offset size : ℕ) :
    Option (List UInt8) :=
  match loadNgcInfo metadata with
  | none => none
  | some info =>
    if info.discType = 2 then
      some (readPieces wiiuSectorSize (wiiuPiece stored info) size offset size)
    else none

/-! ### Reading the source image -/

/-- What makes a file a compressed image of a disc: its header, its index, and for every sector the
data the index leads to. -/
structure WuxImage (file image : List UInt8) : Prop where
  magic : fileField file 4 0 = wuxMagic
  sector_size : fileField file 4 8 = wiiuSectorSize
  size : fileField file 8 16 = image.length
  index_inside : 32 + image.length / wiiuSectorSize * 4 ≤ file.length
  sectors : ∀ k < image.length / wiiuSectorSize, discSector wiiuSectorSize image k =
    preadFile file wiiuSectorSize (alignSector (32 + image.length / wiiuSectorSize * 4) +
      fileField file 4 (32 + 4 * k) * wiiuSectorSize)

/-- The file is the image of a disc, as it is or compressed. -/
inductive HoldsDisc (file image : List UInt8) : Prop
  | raw (hfile : file = image) (hmagic : fileField image 4 0 ≠ wuxMagic)
    (hsize : image.length < 2 ^ 63)
  | wux (hwux : WuxImage file image)

/-- The sectors of a compressed image can be counted in 32 bits. -/
def SectorsCounted (file image : List UInt8) : Prop :=
  fileField file 4 0 = wuxMagic → image.length / wiiuSectorSize < 2 ^ 32

section Source

variable {file image : List UInt8}

theorem littleEndianValue_lt (bytes : List UInt8) : littleEndianValue bytes < 256 ^ bytes.length := by
  induction bytes with
  | nil => decide
  | cons b bytes ih =>
    have hb := b.toNat_lt
    rw [List.length_cons, Nat.pow_succ]
    simp only [littleEndianValue, List.foldr_cons] at ih ⊢
    omega

theorem fileField_lt (file : List UInt8) (bytes offset : ℕ) :
    fileField file bytes offset < 256 ^ bytes := by
  refine (littleEndianValue_lt _).trans_le (Nat.pow_le_pow_right (by decide) ?_)
  rw [preadFile, List.length_take]
  exact Nat.min_le_left _ _

theorem HoldsDisc.length_lt (hdisc : HoldsDisc file image) : image.length < 2 ^ 64 := by
  cases hdisc with
  | raw _ _ hsize => omega
  | wux hwux =>
    rw [← hwux.size]
    exact fileField_lt file 8 16

theorem wuxRead_zero (reader : WiiuReader) (fuel offset : ℕ) : wuxRead reader fuel offset 0 = [] := by
  cases fuel <;> simp [wuxRead]

/-- A raw image is read as it is. -/
theorem wiiuReaderOpen_raw (hmagic : fileField file 4 0 ≠ wuxMagic) :
    wiiuReaderOpen file = ⟨file, false, file.length, [], 0, 0⟩ := by
  have hinit : wuxInit file = none := by
    rw [wuxInit, if_pos hmagic]
    simp
  rw [wiiuReaderOpen, hinit]
  rfl

/-- A compressed image is opened with its whole index, if that can be counted. -/
theorem wiiuReaderOpen_wux (hwux : WuxImage file image)
    (hcount : image.length / wiiuSectorSize < 2 ^ 32) :
    wiiuReaderOpen file =
      { file
        isWux := true
        discSize := image.length
        wuxIndex := (List.range (image.length / wiiuSectorSize)).map fun k ↦
          fileField file 4 (32 + 4 * k)
        wuxDataOffset := alignSector (32 + image.length / wiiuSectorSize * 4)
        wuxSectorCount := image.length / wiiuSectorSize } := by
  have hinside := hwux.index_inside
  have hindex : (preadFile file (image.length / wiiuSectorSize * 4) 32).length =
      image.length / wiiuSectorSize * 4 := by
    rw [preadFile, List.length_take, List.length_drop]
    omega
  rw [wiiuReaderOpen, wuxInit, if_neg (by omega), if_neg (not_not.mpr hwux.magic),
    if_neg (not_not.mpr hwux.sector_size)]
  simp only [hwux.size, Nat.mod_eq_of_lt hcount]
  rw [if_neg (by rw [hindex]; exact lt_irrefl _)]
  rfl

theorem wiiuReaderOpen_discSize (hdisc : HoldsDisc file image)
    (hcounted : SectorsCounted file image) : (wiiuReaderOpen file).discSize = image.length := by
  cases hdisc with
  | raw hfile hmagic _ =>
    subst hfile
    rw [wiiuReaderOpen_raw hmagic]
  | wux hwux => rw [wiiuReaderOpen_wux hwux (hcounted hwux.magic)]

/-- What the importer gets of a sector is the sector of the disc. -/
theorem wiiuReaderPread_sector (hdisc : HoldsDisc file image)
    (hdvd : wiiuSectorSize ∣ image.length) (hcounted : SectorsCounted file image) {k : ℕ}
    (hk : k < image.length / wiiuSectorSize) :
    wiiuReaderPread (wiiuReaderOpen file) wiiuSectorSize (k * wiiuSectorSize) =
      discSector wiiuSectorSize image k := by
  cases hdisc with
  | raw hfile hmagic _ =>
    subst hfile
    rw [wiiuReaderOpen_raw hmagic]
    rfl
  | wux hwux =>
    have hcount := hcounted hwux.magic
    have hsector := hwux.sectors k hk
    have hlength := length_discSector hdvd hk
    rw [wiiuReaderOpen_wux hwux hcount]
    have hbefore : k * wiiuSectorSize < image.length := by
      have := Nat.mul_le_mul_right wiiuSectorSize hk
      rw [Nat.succ_mul, Nat.div_mul_cancel hdvd] at this
      simp only [wiiuSectorSize] at this ⊢
      omega
    have hquot : k * wiiuSectorSize / wiiuSectorSize % 2 ^ 32 = k := by
      rw [Nat.mul_div_cancel _ (by decide), Nat.mod_eq_of_lt (hk.trans hcount)]
    have hread (reader : WiiuReader) {fuel : ℕ} (hfuel : fuel ≠ 0) (hsize : reader.discSize = image.length)
        (hsectors : reader.wuxSectorCount = image.length / wiiuSectorSize)
        (hdata : preadFile reader.file wiiuSectorSize (reader.wuxDataOffset +
          reader.wuxIndex.getD k 0 * wiiuSectorSize) = discSector wiiuSectorSize image k) :
        wuxRead reader fuel (k * wiiuSectorSize) wiiuSectorSize =
          discSector wiiuSectorSize image k := by
      obtain ⟨fuel, rfl⟩ := Nat.exists_eq_succ_of_ne_zero hfuel
      have hempty : discSector wiiuSectorSize image k ≠ [] := by
        intro hnil
        rw [hnil] at hlength
        exact absurd hlength (by decide)
      rw [wuxRead, if_neg (by rw [hsize, not_or]; exact ⟨by decide, not_le.mpr hbefore⟩)]
      simp only [hquot, Nat.mul_mod_left, Nat.sub_zero, Nat.min_self, Nat.add_zero, hdata, hsectors]
      rw [if_neg (not_le.mpr hk), if_neg hempty, hlength, Nat.sub_self, wuxRead_zero,
        List.append_nil]
    rw [wiiuReaderPread, if_pos rfl]
    have hindex : ((List.range (image.length / wiiuSectorSize)).map fun k ↦
        fileField file 4 (32 + 4 * k)).getD k 0 = fileField file 4 (32 + 4 * k) := by
      simp [hk]
    refine hread _ (by decide) rfl rfl ?_
    rw [hindex, hsector]

end Source

/-! ### The two ways to find a key -/

section Keys

variable {parts : List WiiuPartition} {discSectors : ℕ}

theorem nextStart_le (parts : List WiiuPartition) (start discSectors : ℕ) :
    nextStart parts start discSectors ≤ discSectors := by
  unfold nextStart
  induction parts generalizing discSectors with
  | nil => exact le_refl _
  | cons p parts ih =>
    rw [List.foldl_cons]
    split_ifs with h
    · exact (ih _).trans h.2.le
    · exact ih _

/-- The end of a partition in bytes is its end in sectors. -/
theorem ngcPartition_next (parts : List WiiuPartition) (start discSectors : ℕ) : parts.foldl
        (fun next q ↦
          if start * wiiuSectorSize < q.startSector * wiiuSectorSize ∧
              q.startSector * wiiuSectorSize < next then q.startSector * wiiuSectorSize
          else next) (discSectors * wiiuSectorSize) =
      nextStart parts start discSectors * wiiuSectorSize := by
  have hpos : 0 < wiiuSectorSize := by decide
  unfold nextStart
  induction parts generalizing discSectors with
  | nil => rfl
  | cons p parts ih =>
    rw [List.foldl_cons, List.foldl_cons]
    simp only [Nat.mul_lt_mul_right hpos]
    split_ifs with h
    · rw [← ih]
      simp only [Nat.mul_lt_mul_right hpos]
    · rw [← ih]
      simp only [Nat.mul_lt_mul_right hpos]

/-- The reader's end of a partition. -/
theorem ngcPartition_end (parts : List WiiuPartition) (p : WiiuPartition)
    (hsize : discSectors * wiiuSectorSize < 2 ^ 64) :
    ((ngcPartition parts (discSectors * wiiuSectorSize) p).dataOffset +
        (ngcPartition parts (discSectors * wiiuSectorSize) p).dataSize) % 2 ^ 64 =
      nextStart parts p.startSector discSectors * wiiuSectorSize := by
  have hstart := p.start_lt
  have hle := Nat.mul_le_mul_right wiiuSectorSize (nextStart_le parts p.startSector discSectors)
  simp only [ngcPartition, ngcPartition_next]
  simp only [wiiuSectorSize] at hle hsize ⊢
  omega

theorem ngcIsPlain_eq {discSize sector : ℕ} (discType : ℕ) :
    ngcIsPlain ⟨discType, discSize, parts.length, parts.map (ngcPartition parts discSize)⟩
      (sector * wiiuSectorSize) = wiiuIsPlain parts sector := by
  have hpos : 0 < wiiuSectorSize := by decide
  have hheader : decide (sector * wiiuSectorSize < 0x18000) = decide (sector < 3) := by
    apply decide_eq_decide.mpr
    simp only [wiiuSectorSize]
    omega
  rw [ngcIsPlain, wiiuIsPlain, hheader, List.any_map]
  congr 2
  funext p
  exact decide_eq_decide.mpr
    ⟨fun h ↦ Nat.eq_of_mul_eq_mul_right hpos h, fun h ↦ congrArg (· * wiiuSectorSize) h⟩

/-- Both sides take the same key. -/
theorem ngcSectorKey_eq {sector : ℕ} (discType : ℕ) (hsize : discSectors * wiiuSectorSize < 2 ^ 64) :
    ngcSectorKey ⟨discType, discSectors * wiiuSectorSize, parts.length,
        parts.map (ngcPartition parts (discSectors * wiiuSectorSize))⟩ (sector * wiiuSectorSize) =
      wiiuSectorKey parts discSectors sector := by
  have hpos : 0 < wiiuSectorSize := by decide
  have hholds (p : WiiuPartition) :
      ((ngcPartition parts (discSectors * wiiuSectorSize) p).dataOffset ≤
          sector * wiiuSectorSize &&
        sector * wiiuSectorSize <
          ((ngcPartition parts (discSectors * wiiuSectorSize) p).dataOffset +
            (ngcPartition parts (discSectors * wiiuSectorSize) p).dataSize) % 2 ^ 64) =
        (p.startSector ≤ sector && sector < nextStart parts p.startSector discSectors) := by
    rw [ngcPartition_end parts p hsize, Bool.eq_iff_iff]
    simp only [ngcPartition, Bool.and_eq_true, decide_eq_true_eq, Nat.mul_le_mul_right_iff hpos,
      Nat.mul_lt_mul_right hpos]
  rw [ngcSectorKey, wiiuSectorKey, List.find?_map]
  simp only [Function.comp_def, hholds, List.head?_map]
  cases parts.find? fun p ↦
      p.startSector ≤ sector && sector < nextStart parts p.startSector discSectors with
  | some p => rfl
  | none => cases parts <;> rfl

theorem ngcPartition_dataOffset_lt (discSize : ℕ) (p : WiiuPartition) :
    (ngcPartition parts discSize p).dataOffset < 2 ^ 64 := by
  have := p.start_lt
  simp only [ngcPartition, wiiuSectorSize]
  omega

theorem ngcPartition_dataSize_lt (discSize : ℕ) (p : WiiuPartition) :
    (ngcPartition parts discSize p).dataSize < 2 ^ 64 := by
  simp only [ngcPartition]
  exact Nat.mod_lt _ (Nat.two_pow_pos 64)

variable (hparts : parts.length ≤ ngcMaxPartitions)
include hparts

/-- The reader finds a partition as the importer described it. -/
theorem loadNgcPartition_metadata {discSize i : ℕ} (hi : i < parts.length) :
    loadNgcPartition (wiiuMetadata discSize parts) i = ngcPartition parts discSize parts[i] := by
  have hdescribed : ((parts.take ngcMaxPartitions).map (ngcPartition parts discSize))[i]? =
      some (ngcPartition parts discSize parts[i]) := by
    rw [List.take_of_length_le hparts, List.getElem?_map, List.getElem?_eq_getElem hi]
    rfl
  have hoffset : wiiuMetadata discSize parts (.dataOffset i) =
      some (decimal (ngcPartition parts discSize parts[i]).dataOffset) := by
    simp only [wiiuMetadata, hdescribed, Option.map_some]
  have hsize : wiiuMetadata discSize parts (.dataSize i) =
      some (decimal (ngcPartition parts discSize parts[i]).dataSize) := by
    simp only [wiiuMetadata, hdescribed, Option.map_some]
  have hkey : wiiuMetadata discSize parts (.titleKey i) = some (hexText parts[i].key) := by
    simp only [wiiuMetadata, hdescribed, Option.map_some]
    rfl
  have hload := loadKey_hexText parts[i].key
  rw [parts[i].key_length] at hload
  rw [loadNgcPartition, ngcNumber, ngcNumber, hoffset, hsize, hkey]
  dsimp only
  rw [strtoull_decimal (ngcPartition_dataOffset_lt _ _),
    strtoull_decimal (ngcPartition_dataSize_lt _ _), hload]
  rfl

theorem loadNgcInfo_metadata {discSize : ℕ} (hsize : discSize < 2 ^ 64) :
    loadNgcInfo (wiiuMetadata discSize parts) =
      some ⟨2, discSize, parts.length, parts.map (ngcPartition parts discSize)⟩ := by
  have hcount : atoi 16 (decimal parts.length) = parts.length := by
    simp only [ngcMaxPartitions] at hparts
    apply atoi_decimal (by omega)
    simp only [int64Max]
    omega
  have htype : atoi 8 (decimal 2) = 2 := atoi_decimal (by decide) (by decide)
  have hnumber : ngcNumber (wiiuMetadata discSize parts) .discSize = discSize :=
    strtoull_decimal hsize
  have hload : (List.range parts.length).map (loadNgcPartition (wiiuMetadata discSize parts)) =
      parts.map (ngcPartition parts discSize) := by
    refine List.ext_getElem (by simp) fun i hi _ ↦ ?_
    have hlt : i < parts.length := by simpa using hi
    rw [List.getElem_map, List.getElem_range, List.getElem_map, loadNgcPartition_metadata hparts hlt]
  have hdiscType : wiiuMetadata discSize parts .discType = some (decimal 2) := rfl
  have hpartCount : wiiuMetadata discSize parts .partCount = some (decimal parts.length) := rfl
  rw [loadNgcInfo, hdiscType, hpartCount]
  dsimp only
  rw [hcount, htype, hnumber, min_eq_left hparts, hload]

end Keys

/-! ### The image comes back -/

section Restored

variable {file image : List UInt8} {parts : List WiiuPartition}

variable (hdisc : HoldsDisc file image) (hdvd : wiiuSectorSize ∣ image.length)
  (hcounted : SectorsCounted file image)
include hdisc hdvd hcounted

theorem wiiuStoredSector_eq {k : ℕ} (hk : k < image.length / wiiuSectorSize) :
    wiiuStoredSector (wiiuReaderOpen file) parts k =
      if wiiuIsPlain parts k then discSector wiiuSectorSize image k
      else
        match wiiuSectorKey parts (image.length / wiiuSectorSize) k with
        | some key => aes128CbcDecrypt key zeroIv (discSector wiiuSectorSize image k)
        | none => discSector wiiuSectorSize image k := by
  rw [wiiuStoredSector, wiiuReaderPread_sector hdisc hdvd hcounted hk,
    wiiuReaderOpen_discSize hdisc hcounted, zeroFilled_of_length (length_discSector hdvd hk)]

theorem length_wiiuStoredSector {k : ℕ} (hk : k < image.length / wiiuSectorSize) :
    (wiiuStoredSector (wiiuReaderOpen file) parts k).length = wiiuSectorSize := by
  have hlength := length_discSector hdvd hk
  rw [wiiuStoredSector_eq hdisc hdvd hcounted hk]
  split_ifs
  · exact hlength
  · split
    · rw [length_aes128CbcDecrypt (by rw [hlength]; decide), hlength]
    · exact hlength

/-- A whole disc image comes back from what the importer left. -/
theorem readWiiuImageData_restores (hparts : parts.length ≤ ngcMaxPartitions) (offset size : ℕ) :
    ∃ bytes, readWiiuImageData (wiiuImport (wiiuReaderOpen file) parts)
        (wiiuMetadata image.length parts) offset size = some bytes ∧
      bytes.take (image.length - offset) = (image.drop offset).take size := by
  obtain ⟨n, hn⟩ : ∃ n, image.length / wiiuSectorSize = n := ⟨_, rfl⟩
  have hlength : n * wiiuSectorSize = image.length := hn ▸ Nat.div_mul_cancel hdvd
  have hcontent : ∀ k < n, (discSector wiiuSectorSize image k).length = wiiuSectorSize :=
    fun k hk ↦ length_discSector hdvd (hn ▸ hk)
  have hstored : ∀ k < n,
      (wiiuStoredSector (wiiuReaderOpen file) parts k).length = wiiuSectorSize :=
    fun k hk ↦ length_wiiuStoredSector hdisc hdvd hcounted (hn ▸ hk)
  have himage := flatMap_discSector hdvd
  have himport : wiiuImport (wiiuReaderOpen file) parts =
      (List.range n).flatMap (wiiuStoredSector (wiiuReaderOpen file) parts) := by
    rw [wiiuImport, wiiuReaderOpen_discSize hdisc hcounted, hn]
  rw [hn] at himage
  refine ⟨_, by rw [readWiiuImageData, loadNgcInfo_metadata hparts hdisc.length_lt]; exact if_pos rfl, ?_⟩
  have hread := readPieces_eq offset (offset + size)
    (wiiuPiece (wiiuImport (wiiuReaderOpen file) parts)
      ⟨2, image.length, parts.length, parts.map (ngcPartition parts image.length)⟩)
    (by decide) hcontent ?_ (le_refl _) (le_refl _) (le_refl _)
  · rw [himage, hlength] at hread
    exact hread
  · intro k hk skip count _ _ _
    have hbytes := mediaRead_sector hstored hk
    have heq := @wiiuStoredSector_eq file image parts hdisc hdvd hcounted k (hn ▸ hk)
    rw [wiiuPiece, himport, hbytes, ngcIsPlain_eq, ← hlength, ngcSectorKey_eq _ (hlength ▸ hdisc.length_lt),
      heq, hn]
    cases hplain : wiiuIsPlain parts k with
    | true => simp
    | false =>
      cases hkey : wiiuSectorKey parts n k with
      | none => simp
      | some key =>
        have hback := @aes128CbcEncrypt_decrypt key zeroIv (discSector wiiuSectorSize image k)
          (by rw [hcontent k hk]; decide)
        simp [hback]

end Restored

end Obmafs3
