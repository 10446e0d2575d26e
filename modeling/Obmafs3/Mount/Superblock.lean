import Obmafs3.Library.ByteImage
import Obmafs3.Volume

/-!
# The superblock

The superblock lies packed at the start of the file and, as a backup, at the start of the last
block. `obmafs3_sb_write` fills in the two checksums and writes both copies. `obmafs3_open_flags`
takes the first copy when it is valid and otherwise guesses the block size to find the backup;
neither path reads a checksum. The checksum function is that of a library and a parameter here.
-/

set_option autoImplicit false

namespace Obmafs3

open Library.ByteImage

/-- `sizeof(struct obmafs3_sb)`. -/
def sbSize : ℕ := 4080

/-- `OBMAFS3_SB_V1_SIZE`. -/
def sbV1Size : ℕ := 526

/-- `OBMAFS3_SB_MAGIC`. -/
def sbMagic : ℕ := 0x335F5346414D424F

/-- `struct obmafs3_sb` as its bytes. -/
@[ext]
structure Superblock where
  bytes : List UInt8
  length_bytes : bytes.length = sbSize
  deriving DecidableEq

/-- `obmafs3_checksum_block`. -/
def checksumBlock (xxh64 : List UInt8 → UInt64) (data : List UInt8) : List UInt8 :=
  bytesOf 8 (xxh64 data).toNat ++ List.replicate 24 0

@[simp]
theorem length_checksumBlock (xxh64 : List UInt8 → UInt64) (data : List UInt8) :
    (checksumBlock xxh64 data).length = 32 := by
  rw [checksumBlock, List.length_append, length_bytesOf, List.length_replicate]

/-- `OBMAFS3_BACKUP_SB_LBA`. -/
def backupSbLba (totalBytes blockSize : ℕ) : ℕ := (totalBytes / blockSize + 2 ^ 64 - 1) % 2 ^ 64

namespace Superblock

/-! ### Its fields -/

/-- The number in the `width` bytes at an offset. -/
def field (sb : Superblock) (off width : ℕ) : ℕ := number (fieldBytes sb.bytes off width)

/-- Other bytes in a field. -/
def put (sb : Superblock) (off : ℕ) (bytes : List UInt8) (h : off + bytes.length ≤ sbSize) :
    Superblock where
  bytes := overwrite sb.bytes off bytes
  length_bytes := by
    rw [length_overwrite (by rwa [sb.length_bytes]), sb.length_bytes]

/-- A superblock of zeros with some fields filled in. -/
def ofFields (fields : List (ℕ × List UInt8)) : Superblock where
  bytes := ((Image.zeros sbSize).writeAll fields).bytesAt 0 sbSize
  length_bytes := Image.length_bytesAt

def magic (sb : Superblock) : ℕ := sb.field 0 8

def blockSize (sb : Superblock) : ℕ := sb.field 24 8

def dedupBlockSize (sb : Superblock) : ℕ := sb.field 32 8

def totalBytes (sb : Superblock) : ℕ := sb.field 40 8

def catalogLba (sb : Superblock) : ℕ := sb.field 48 8

def inodeLba (sb : Superblock) : ℕ := sb.field 56 8

/-- `obmafs3_sb_validate`. -/
def validate (sb : Superblock) : Except ErrorCode Unit :=
  if sb.magic ≠ sbMagic then .error .badMagic
  else if sb.blockSize = 0 ∨ sb.dedupBlockSize = 0 then .error .inval
  else if sb.totalBytes = 0 then .error .inval
  else if sb.catalogLba = 0 ∨ sb.inodeLba = 0 then .error .inval
  else .ok ()

/-- The offset of the backup. -/
def backupOffset (sb : Superblock) : ℕ :=
  backupSbLba sb.totalBytes sb.blockSize * sb.blockSize % 2 ^ 64

/-- The two checksums as `obmafs3_sb_write` fills them in. -/
def sealed (xxh64 : List UInt8 → UInt64) (sb : Superblock) : Superblock :=
  let tmp := sb.put 494 (List.replicate 32 0) (by decide)
  let tmp := tmp.put 494 (checksumBlock xxh64 (tmp.bytes.take sbV1Size))
    (by rw [length_checksumBlock]; decide)
  let tmp := tmp.put 4048 (List.replicate 32 0) (by decide)
  tmp.put 4048 (checksumBlock xxh64 (tmp.bytes.drop sbV1Size))
    (by rw [length_checksumBlock]; decide)

/-- The writes of `obmafs3_sb_write`: the first copy at the start of the file, then the backup at
the last block. An offset that is negative as an `off_t` is refused. -/
def sbWrite (xxh64 : List UInt8 → UInt64) (sb : Superblock) : List (ℕ × List UInt8) :=
  let tmp := sb.sealed xxh64
  (0, tmp.bytes) ::
    if 0 < tmp.totalBytes ∧ 0 < tmp.blockSize ∧ 0 < backupSbLba tmp.totalBytes tmp.blockSize ∧
      tmp.backupOffset < 2 ^ 63 then
      [(tmp.backupOffset, tmp.bytes)]
    else []

/-- A superblock that is valid for `obmafs3_sb_validate`. -/
def Valid (sb : Superblock) : Prop := sb.validate = .ok ()

variable {sb : Superblock}

theorem valid_iff : sb.Valid ↔ sb.magic = sbMagic ∧ sb.blockSize ≠ 0 ∧ sb.dedupBlockSize ≠ 0 ∧
    sb.totalBytes ≠ 0 ∧ sb.catalogLba ≠ 0 ∧ sb.inodeLba ≠ 0 := by
  unfold Valid validate
  split_ifs with hmagic hblock htotal htrees
  · exact iff_of_false nofun fun hall ↦ hmagic hall.1
  · exact iff_of_false nofun fun hall ↦ hblock.elim hall.2.1 hall.2.2.1
  · exact iff_of_false nofun fun hall ↦ hall.2.2.2.1 htotal
  · exact iff_of_false nofun fun hall ↦ htrees.elim hall.2.2.2.2.1 hall.2.2.2.2.2
  · rw [not_or] at hblock htrees
    exact iff_of_true rfl ⟨not_not.mp hmagic, hblock.1, hblock.2, htotal, htrees.1, htrees.2⟩

instance : Decidable sb.Valid := decidable_of_iff' _ valid_iff

variable {off width : ℕ} {bytes : List UInt8} {h : off + bytes.length ≤ sbSize}

theorem field_put_apart {off' : ℕ} (hapart : off' + width ≤ off ∨ off + bytes.length ≤ off') :
    (sb.put off bytes h).field off' width = sb.field off' width := by
  rw [field, put, fieldBytes_overwrite_apart (by rwa [sb.length_bytes]) hapart, field]

variable {n : ℕ} {i : ℕ}

theorem take_put (hbefore : n ≤ off) : (sb.put off bytes h).bytes.take n = sb.bytes.take n := by
  have hfield : fieldBytes (overwrite sb.bytes off bytes) 0 n = fieldBytes sb.bytes 0 n :=
    fieldBytes_overwrite_apart (by rwa [sb.length_bytes]) (Or.inl (by omega))
  rwa [fieldBytes, fieldBytes, List.drop_zero, List.drop_zero] at hfield

/-- What lies behind the LBAs of the two trees does not matter for `obmafs3_sb_validate`. -/
theorem valid_congr {sb' : Superblock} (hfront : sb'.bytes.take 64 = sb.bytes.take 64) :
    sb'.Valid ↔ sb.Valid := by
  have hsame (off width : ℕ) (hbefore : off + width ≤ 64) :
      sb'.field off width = sb.field off width := by
    rw [field, field, ← fieldBytes_take hbefore, hfront, fieldBytes_take hbefore]
  rw [valid_iff, valid_iff]
  unfold magic blockSize dedupBlockSize totalBytes catalogLba inodeLba
  rw [hsame 0 8 (by decide), hsame 24 8 (by decide), hsame 32 8 (by decide), hsame 40 8 (by decide),
    hsame 48 8 (by decide), hsame 56 8 (by decide)]

theorem valid_put (hbehind : 64 ≤ off) : (sb.put off bytes h).Valid ↔ sb.Valid :=
  valid_congr (take_put hbehind)

theorem take_sealed (xxh64 : List UInt8 → UInt64) (hbefore : n ≤ 494) :
    (sb.sealed xxh64).bytes.take n = sb.bytes.take n := by
  unfold sealed
  rw [take_put (by omega), take_put (by omega), take_put hbefore, take_put hbefore]

theorem getElem?_put_apart (hapart : i < off ∨ off + bytes.length ≤ i) :
    (sb.put off bytes h).bytes[i]? = sb.bytes[i]? :=
  getElem?_overwrite_apart (by rwa [sb.length_bytes]) hapart

/-- The checksums are the only bytes that `obmafs3_sb_write` changes. -/
theorem getElem?_sealed (xxh64 : List UInt8 → UInt64) (hapart : i < 494 ∨ 526 ≤ i ∧ i < 4048) :
    (sb.sealed xxh64).bytes[i]? = sb.bytes[i]? := by
  unfold sealed
  rw [getElem?_put_apart (by rw [length_checksumBlock]; omega),
    getElem?_put_apart (by rw [List.length_replicate]; omega),
    getElem?_put_apart (by rw [length_checksumBlock]; omega),
    getElem?_put_apart (by rw [List.length_replicate]; omega)]

/-- Of 32 bytes of a checksum the last 24 are zero. -/
theorem getElem?_sealed_zero (xxh64 : List UInt8 → UInt64)
    (hi : 502 ≤ i ∧ i < 526 ∨ 4056 ≤ i ∧ i < 4080) : (sb.sealed xxh64).bytes[i]? = some 0 := by
  have htail (data : List UInt8) (k : ℕ) (hge : 8 ≤ k) (hlt : k < 32) :
      (checksumBlock xxh64 data)[k]? = some 0 := by
    rw [checksumBlock, List.getElem?_append_right (by simpa using hge), length_bytesOf,
      List.getElem?_replicate, if_pos (by omega)]
  unfold sealed
  rcases hi with ⟨hge, hlt⟩ | ⟨hge, hlt⟩
  · obtain ⟨k, rfl⟩ := Nat.exists_eq_add_of_le (show 494 ≤ i by omega)
    rw [getElem?_put_apart (by omega), getElem?_put_apart (by rw [List.length_replicate]; omega)]
    exact (getElem?_overwrite (by rw [length_bytes]; decide)
      (by rw [length_checksumBlock]; omega)).trans (htail _ k (by omega) (by omega))
  · obtain ⟨k, rfl⟩ := Nat.exists_eq_add_of_le (show 4048 ≤ i by omega)
    exact (getElem?_overwrite (by rw [length_bytes]; decide)
      (by rw [length_checksumBlock]; omega)).trans (htail _ k (by omega) (by omega))

theorem field_sealed (xxh64 : List UInt8 → UInt64)
    (hapart : off + width ≤ 494 ∨ 526 ≤ off ∧ off + width ≤ 4048) :
    (sb.sealed xxh64).field off width = sb.field off width := by
  refine congrArg number (List.ext_getElem? fun i ↦ ?_)
  rw [getElem?_fieldBytes, getElem?_fieldBytes]
  split_ifs with hi
  · exact getElem?_sealed xxh64 (by omega)
  · rfl

variable {fields : List (ℕ × List UInt8)}

theorem field_ofFields (hasc : Image.Ascending fields) (hinside : off + width ≤ sbSize)
    (hmem : (off, bytesOf width n) ∈ fields) :
    (ofFields fields).field off width = n % 256 ^ width := by
  have hwritten := Image.bytesAt_writeAll (Image.zeros sbSize) hasc hmem
  rw [length_bytesOf] at hwritten
  rw [field, ofFields, Image.fieldBytes_bytesAt hinside, Nat.zero_add, hwritten, number_bytesOf]

/-- What is not filled in is zero. -/
theorem field_ofFields_zero (hinside : off + width ≤ sbSize)
    (hapart : ∀ w ∈ fields, off + width ≤ w.1 ∨ w.1 + w.2.length ≤ off) :
    (ofFields fields).field off width = 0 := by
  have hbytes : ((Image.zeros sbSize).writeAll fields).bytesAt off width =
      (Image.zeros sbSize).bytesAt off width :=
    Image.bytesAt_eq_iff.mpr fun i hi ↦
      Image.byte_writeAll_apart fun w hw ↦ (hapart w hw).imp (by omega) (by omega)
  rw [field, ofFields, Image.fieldBytes_bytesAt hinside, Nat.zero_add, hbytes, Image.bytesAt_zeros,
    number_replicate_zero]

theorem blockSize_sealed (xxh64 : List UInt8 → UInt64) :
    (sb.sealed xxh64).blockSize = sb.blockSize :=
  field_sealed xxh64 (Or.inl (by decide))

theorem totalBytes_sealed (xxh64 : List UInt8 → UInt64) :
    (sb.sealed xxh64).totalBytes = sb.totalBytes :=
  field_sealed xxh64 (Or.inl (by decide))

end Superblock

/-! ### What the open path reads -/

/-- A read of a superblock at an offset. -/
def sbReadAt (img : Image) (off : ℕ) : Option Superblock :=
  match hread : img.pread off sbSize with
  | none => none
  | some bytes => some ⟨bytes, Image.length_of_pread hread⟩

/-- `obmafs3_sb_read`. -/
def sbRead (img : Image) : Except ErrorCode Superblock :=
  match sbReadAt img 0 with
  | none => .error .io
  | some sb => .ok sb

/-- `obmafs3_sb_read_backup`. -/
def sbReadBackup (img : Image) (blockSize totalBytes : ℕ) : Except ErrorCode Superblock :=
  if blockSize = 0 ∨ totalBytes = 0 then .error .inval
  else if backupSbLba totalBytes blockSize = 0 then .error .inval
  else if 2 ^ 63 ≤ backupSbLba totalBytes blockSize * blockSize % 2 ^ 64 then .error .io
  else
    match sbReadAt img (backupSbLba totalBytes blockSize * blockSize % 2 ^ 64) with
    | none => .error .io
    | some sb => .ok sb

/-- The block sizes that `obmafs3_open_flags` tries. -/
def tryBs : List ℕ := [4096, 512, 1024, 2048, 8192, 16384, 32768, 65536]

/-- One turn of the loop of `obmafs3_open_flags` over the block sizes. -/
def tryBackup (img : Image) (bs : ℕ) : Option Superblock :=
  if img.size < 2 * bs then none
  else
    match sbReadBackup img bs img.size with
    | .error _ => none
    | .ok backup =>
      if backup.validate = .ok () ∧ backup.blockSize = bs ∧ backup.totalBytes = img.size then
        some backup
      else none

/-- The loop. In an empty file there is no block to try. -/
def recoverSb (img : Image) : Option Superblock := tryBs.findSome? (tryBackup img)

/-- The superblock that `obmafs3_open_flags` goes on with. -/
def openSb (img : Image) : Except ErrorCode Superblock :=
  match sbRead img with
  | .error e =>
    match recoverSb img with
    | some sb => .ok sb
    | none => .error e
  | .ok sb =>
    match sb.validate with
    | .ok _ => .ok sb
    | .error _ =>
      match recoverSb img with
      | some sb => .ok sb
      | none => .error .badMagic

/-! ### The open path -/

variable {img : Image} {sb : Superblock} {off : ℕ}

theorem sbReadAt_eq_some : sbReadAt img off = some sb ↔ img.pread off sbSize = some sb.bytes := by
  unfold sbReadAt
  split
  · next hread => rw [hread]; exact iff_of_false nofun nofun
  · next bytes hread =>
    rw [Option.some.injEq, Superblock.ext_iff]
    dsimp only
    rw [hread, Option.some.injEq]

theorem sbReadAt_beyond (hbeyond : img.size < off + sbSize) : sbReadAt img off = none := by
  refine Option.eq_none_iff_forall_ne_some.mpr fun sb hread ↦ ?_
  have hinside := (Image.pread_eq_some.mp (sbReadAt_eq_some.mp hread)).1
  exact Nat.not_lt.mpr hinside hbeyond

theorem exists_sbReadAt (hinside : off + sbSize ≤ img.size) :
    ∃ sb, sbReadAt img off = some sb ∧ img.bytesAt off sbSize = sb.bytes := by
  obtain ⟨bytes, hbytes⟩ : ∃ bytes, img.bytesAt off sbSize = bytes := ⟨_, rfl⟩
  have hread : img.pread off sbSize = some bytes := Image.pread_eq_some.mpr ⟨hinside, hbytes⟩
  exact ⟨⟨bytes, Image.length_of_pread hread⟩, sbReadAt_eq_some.mpr hread, hbytes⟩

theorem openSb_of_valid (hread : sbReadAt img 0 = some sb) (hvalid : sb.Valid) :
    openSb img = .ok sb := by
  have hvalidate : sb.validate = .ok () := hvalid
  simp only [openSb, sbRead, hread, hvalidate]

theorem openSb_of_not_valid (hread : sbReadAt img 0 = some sb) (hvalid : ¬sb.Valid) :
    openSb img = (recoverSb img).elim (.error .badMagic) .ok := by
  unfold openSb sbRead
  simp only [hread]
  cases hvalidate : sb.validate with
  | ok _ => exact absurd hvalidate hvalid
  | error _ => cases recoverSb img <;> rfl

theorem tryBackup_eq_some {bs : ℕ} (htry : tryBackup img bs = some sb) :
    sb.Valid ∧ sb.blockSize = bs ∧ sb.totalBytes = img.size ∧
      sbReadAt img sb.backupOffset = some sb := by
  unfold tryBackup sbReadBackup at htry
  split_ifs at htry
  cases hread : sbReadAt img (backupSbLba img.size bs * bs % 2 ^ 64) with
  | none => simp only [hread, reduceCtorEq] at htry
  | some backup =>
    simp only [hread] at htry
    split_ifs at htry with hcheck
    cases htry
    obtain ⟨hvalid, hblock, htotal⟩ := hcheck
    refine ⟨hvalid, hblock, htotal, ?_⟩
    rw [Superblock.backupOffset, hblock, htotal, hread]

/-- Both ways to a superblock check it. -/
theorem valid_of_openSb (hopen : openSb img = .ok sb) : sb.Valid := by
  have hrecovered {backup : Superblock} (hrecover : recoverSb img = some backup) :
      backup.Valid := by
    obtain ⟨bs, -, htry⟩ := List.exists_of_findSome?_eq_some hrecover
    exact (tryBackup_eq_some htry).1
  unfold openSb at hopen
  cases hread : sbRead img with
  | error e =>
    cases hrecover : recoverSb img with
    | none => simp only [hread, hrecover, reduceCtorEq] at hopen
    | some backup =>
      simp only [hread, hrecover, Except.ok.injEq] at hopen
      exact hopen ▸ hrecovered hrecover
  | ok primary =>
    cases hvalidate : primary.validate with
    | ok _ =>
      simp only [hread, hvalidate, Except.ok.injEq] at hopen
      exact hopen ▸ hvalidate
    | error e =>
      cases hrecover : recoverSb img with
      | none => simp only [hread, hvalidate, hrecover, reduceCtorEq] at hopen
      | some backup =>
        simp only [hread, hvalidate, hrecover, Except.ok.injEq] at hopen
        exact hopen ▸ hrecovered hrecover

end Obmafs3
