import Obmafs3.Mount.Superblock
import Obmafs3.Store.NodeSpans

/-!
# Creating a volume

`obmafs3_create` lays out a volume in a file: the superblock, the headers of the trees with the first
nodes of the catalog and the inode tree, the allocation bitmap, and the backup of the superblock in
the last block. Every block is written as a whole, and what does not fit into one is cut off.
-/

set_option autoImplicit false

namespace Obmafs3

open Library.ByteImage

/-- The arguments of `obmafs3_create`. The label is a C string without its end. -/
structure CreateArgs where
  totalSize : ℕ
  blockSize : ℕ
  dedupBlockSize : ℕ
  label : List UInt8
  guid : List UInt8
  totalSize_lt : totalSize < 2 ^ 64
  blockSize_lt : blockSize < 2 ^ 64
  dedupBlockSize_lt : dedupBlockSize < 2 ^ 64
  label_string : 0 ∉ label
  length_guid : guid.length = 16

/-! ### What is written -/

/-- A structure with its checksum: 32 bytes behind the others, computed with zeros in their place. -/
def withChecksum (xxh64 : List UInt8 → UInt64) (body : List UInt8) : List UInt8 :=
  body ++ checksumBlock xxh64 (body ++ List.replicate 32 0)

/-- `OBMAFS3_TREELIST_MAGIC`. -/
def treelistMagic : ℕ := 0x5453494C45455254

/-- `OBMAFS3_BITMAP_MAGIC`. -/
def bitmapMagic : ℕ := 0x50414D42414D424F

/-- `sizeof(struct btree_header)`. -/
def btreeHeaderSize : ℕ := 90

/-- `sizeof(struct catalog_record)`. -/
def catalogRecordSize : ℕ := 273

/-- `sizeof(struct inode_record)`. -/
def inodeRecordSize : ℕ := 265

/-- A `struct btree_header`: the fields in front of the checksum. -/
def btreeHeaderBody (dataType rootNodeLba nodeSize totalNodes treeType : ℕ) : List UInt8 :=
  bytesOf 8 btreeHdrMagic ++ bytesOf 4 dataType ++ bytesOf 8 rootNodeLba ++ bytesOf 8 0 ++
    bytesOf 2 nodeSize ++ bytesOf 4 totalNodes ++ bytesOf 4 0 ++ bytesOf 4 treeType ++ bytesOf 8 0 ++
    bytesOf 8 0

/-- The header of a leaf without neighbours: the fields in front of the checksum. -/
def leafHeaderBody (recordType nodeKeys keysLength : ℕ) : List UInt8 :=
  bytesOf 8 btreeNodeMagic ++ bytesOf 1 recordType ++ bytesOf 1 0 ++ bytesOf 8 0 ++ bytesOf 8 0 ++
    bytesOf 8 0 ++ bytesOf 2 nodeKeys ++ bytesOf 2 keysLength

/-- A leaf with one record; its checksum covers the header and the record. -/
def rootLeaf (xxh64 : List UInt8 → UInt64) (recordType : ℕ) (record : List UInt8) : List UInt8 :=
  leafHeaderBody recordType 1 record.length ++ checksumBlock xxh64
      (leafHeaderBody recordType 1 record.length ++ List.replicate 32 0 ++ record) ++
    record

/-- The `struct catalog_record` of the root directory, whose name is a slash. -/
def rootCatalogRecord : List UInt8 :=
  bytesOf 8 2 ++ bytesOf 8 2 ++ bytesOf 1 1 ++ [0x2F] ++ List.replicate 255 0

/-- The `struct inode_record` of the root directory: no extents, one reference. -/
def rootInodeRecord (creationTime : ℕ) : List UInt8 :=
  bytesOf 8 2 ++ bytesOf 4 0 ++ bytesOf 4 0 ++ bytesOf 4 0o755 ++ bytesOf 8 creationTime ++
    bytesOf 8 creationTime ++ bytesOf 8 creationTime ++ bytesOf 8 0 ++ List.replicate 192 0 ++
    bytesOf 1 1 ++ bytesOf 8 0 ++ bytesOf 8 0 ++ bytesOf 4 1

/-- `bitmap[b / 8] |= (1u << (b % 8))`. -/
def markBlock (bitmap : List UInt8) (b : ℕ) : List UInt8 :=
  bitmap.modify (b / 8) fun byte ↦ UInt8.ofNat (byte.toNat ||| 1 <<< (b % 8))

namespace CreateArgs

variable (xxh64 : List UInt8 → UInt64) (creationTime : ℕ) (a : CreateArgs)

def totalBlocks : ℕ := a.totalSize / a.blockSize

def bitmapBytes : ℕ := (a.totalBlocks + 7) / 8

def bitmapBlks : ℕ := NodeSpans.bitmapBlocks a.blockSize a.totalSize

def reserved : ℕ := 16 + a.bitmapBlks

/-- `volume_label`, as `strncpy` fills it. -/
def volumeLabel : List UInt8 :=
  a.label.take 255 ++ List.replicate (256 - (a.label.take 255).length) 0

/-- What `obmafs3_create` assigns to the fields of the superblock. -/
def sbFields : List (ℕ × List UInt8) :=
  [(0, bytesOf 8 sbMagic), (8, a.guid), (24, bytesOf 8 a.blockSize),
    (32, bytesOf 8 a.dedupBlockSize), (40, bytesOf 8 a.totalSize), (48, bytesOf 8 1),
    (56, bytesOf 8 3), (64, bytesOf 8 5), (72, bytesOf 8 6), (80, bytesOf 8 11), (88, bytesOf 8 7),
    (96, bytesOf 8 8), (104, bytesOf 8 9), (112, bytesOf 8 10), (120, bytesOf 8 12),
    (128, bytesOf 8 13), (136, bytesOf 2 0), (138, bytesOf 8 creationTime), (146, bytesOf 8 3),
    (154, bytesOf 8 16), (162, bytesOf 8 a.bitmapBlks), (202, bytesOf 4 64), (206, bytesOf 4 1024),
    (210, bytesOf 4 20260224), (222, bytesOf 8 1), (238, a.volumeLabel), (526, bytesOf 8 14),
    (534, bytesOf 8 15)]

/-- The superblock that is written. -/
def createdSb : Superblock := (Superblock.ofFields (a.sbFields creationTime)).sealed xxh64

/-- The marks of the reserved blocks and of the last one. -/
def markedBitmap : List UInt8 :=
  let bitmap := (List.range a.reserved).foldl markBlock (List.replicate a.bitmapBytes 0)
  if a.reserved ≤ backupSbLba a.totalSize a.blockSize then
    markBlock bitmap (backupSbLba a.totalSize a.blockSize)
  else bitmap

/-- `struct bitmap_header`. -/
def bitmapHeader : List UInt8 :=
  bytesOf 8 bitmapMagic ++ bytesOf 8 a.totalBlocks ++ bytesOf 8 a.reserved ++
    checksumBlock xxh64 a.markedBitmap

/-- The blocks of the bitmap behind the first one. -/
def bitmapRest (blockSize : ℕ) : (lba n : ℕ) → List UInt8 → List (ℕ × List UInt8)
  | _, 0, _ => []
  | lba, n + 1, data =>
    (lba, data.take blockSize) :: bitmapRest blockSize (lba + 1) n (data.drop blockSize)

/-- The blocks of the bitmap: the first one begins with the header. -/
def bitmapBlocks : List (ℕ × List UInt8) :=
  (16, a.bitmapHeader xxh64 ++ a.markedBitmap.take (a.blockSize - NodeSpans.bitmapHeaderSize)) ::
    bitmapRest a.blockSize 17 (a.bitmapBlks - 1)
      (a.markedBitmap.drop (a.blockSize - NodeSpans.bitmapHeaderSize))

/-- The blocks in front of the bitmap: the superblock, the headers and the two leaves. Nodes of the
metadata tree and its index take eight blocks. -/
def headBlocks : List (ℕ × List UInt8) :=
  let empty (lba dataType nodeSize treeType : ℕ) : ℕ × List UInt8 :=
    (lba, withChecksum xxh64 (btreeHeaderBody dataType 0 nodeSize 0 treeType))
  [(0, (a.createdSb xxh64 creationTime).bytes),
    (1, withChecksum xxh64 (btreeHeaderBody 0 2 a.blockSize 1 0)),
    (2, rootLeaf xxh64 0 rootCatalogRecord),
    (3, withChecksum xxh64 (btreeHeaderBody 1 4 a.blockSize 1 1)),
    (4, rootLeaf xxh64 1 (rootInodeRecord creationTime)),
    empty 5 2 a.blockSize 2,
    (6, withChecksum xxh64 (bytesOf 8 treelistMagic ++ bytesOf 8 0)),
    empty 7 5 a.blockSize 5, empty 8 6 a.blockSize 6, empty 9 7 a.blockSize 7,
    empty 10 8 a.blockSize 8, empty 11 4 (8 * a.blockSize) 4, empty 12 9 (8 * a.blockSize) 9,
    empty 13 10 a.blockSize 10, empty 14 11 a.blockSize 11, empty 15 12 a.blockSize 12]

/-- Everything that is written, in its order. -/
def blocks : List (ℕ × List UInt8) :=
  a.headBlocks xxh64 creationTime ++ a.bitmapBlocks xxh64 ++
    [(backupSbLba a.totalSize a.blockSize, (a.createdSb xxh64 creationTime).bytes)]

end CreateArgs

/-! ### Writing it -/

/-- `data` as `write_block` puts it into a block. -/
def blockBytes (blockSize : ℕ) (data : List UInt8) : List UInt8 :=
  data.take blockSize ++ List.replicate (blockSize - data.length) 0

/-- `write_block`. -/
def writeBlock (blockSize : ℕ) (img : Image) (lba : ℕ) (data : List UInt8) :
    Except ErrorCode Image :=
  if 2 ^ 63 < lba * blockSize % 2 ^ 64 + blockSize then .error .io
  else .ok (img.pwrite (lba * blockSize % 2 ^ 64) (blockBytes blockSize data))

def writeAllBlocks (blockSize : ℕ) (blocks : List (ℕ × List UInt8)) (img : Image) :
    Except ErrorCode Image :=
  blocks.foldlM (fun img block ↦ writeBlock blockSize img block.1 block.2) img

/-- `obmafs3_create` on a regular file, at the time `creationTime`. Where the source divides by zero,
copies a record behind the end of a block or marks a block behind the end of the bitmap, what it
does is not defined. -/
def obmafs3Create (xxh64 : List UInt8 → UInt64) (creationTime : ℕ) (a : CreateArgs) :
    Except ErrorCode Image :=
  if 2 ^ 63 ≤ a.totalSize then .error .io
  else if a.blockSize = 0 then .error .corrupt
  else if a.blockSize < btreeNodeHeaderSize + catalogRecordSize then .error .corrupt
  else if 8 * a.bitmapBytes < a.reserved then .error .corrupt
  else writeAllBlocks a.blockSize (a.blocks xxh64 creationTime) (Image.zeros a.totalSize)

/-! ### The superblock that is written -/

namespace CreateArgs

variable {xxh64 : List UInt8 → UInt64} {creationTime : ℕ} {a : CreateArgs}

theorem length_volumeLabel : a.volumeLabel.length = 256 := by
  rw [volumeLabel, List.length_append, List.length_replicate, List.length_take]
  omega

/-- Where the fields lie and how long they are. -/
theorem places_sbFields : (a.sbFields creationTime).map (fun w ↦ (w.1, w.2.length)) =
    [(0, 8), (8, 16), (24, 8), (32, 8), (40, 8), (48, 8), (56, 8), (64, 8), (72, 8), (80, 8),
      (88, 8), (96, 8), (104, 8), (112, 8), (120, 8), (128, 8), (136, 2), (138, 8), (146, 8),
      (154, 8), (162, 8), (202, 4), (206, 4), (210, 4), (222, 8), (238, 256), (526, 8),
      (534, 8)] := by
  simp only [sbFields, List.map_cons, List.map_nil, length_bytesOf, a.length_guid,
    length_volumeLabel]

theorem ascending_sbFields : Image.Ascending (a.sbFields creationTime) := by
  have hpairs : ((a.sbFields creationTime).map fun w ↦ (w.1, w.2.length)).Pairwise
      fun v w ↦ v.1 + v.2 ≤ w.1 := by
    rw [places_sbFields]
    decide
  exact List.pairwise_map.mp hpairs

theorem field_createdSb (xxh64 : List UInt8 → UInt64) (i : ℕ) {off width n : ℕ}
    (hget : (a.sbFields creationTime)[i]? = some (off, bytesOf width n))
    (hapart : off + width ≤ 494 ∨ 526 ≤ off ∧ off + width ≤ 4048) (hlt : n < 256 ^ width) :
    (a.createdSb xxh64 creationTime).field off width = n := by
  rw [createdSb, Superblock.field_sealed xxh64 hapart,
    Superblock.field_ofFields ascending_sbFields (by unfold sbSize; omega)
      (List.mem_of_getElem? hget), Nat.mod_eq_of_lt hlt]

theorem field_createdSb_zero (xxh64 : List UInt8 → UInt64) {off width : ℕ}
    (hapart : off + width ≤ 494 ∨ 526 ≤ off ∧ off + width ≤ 4048)
    (hfree : ∀ place ∈ (a.sbFields creationTime).map fun w ↦ (w.1, w.2.length),
      off + width ≤ place.1 ∨ place.1 + place.2 ≤ off) :
    (a.createdSb xxh64 creationTime).field off width = 0 := by
  rw [createdSb, Superblock.field_sealed xxh64 hapart]
  exact Superblock.field_ofFields_zero (by unfold sbSize; omega) fun w hw ↦
    hfree _ (List.mem_map_of_mem hw)

section Fields

variable (xxh64 : List UInt8 → UInt64) (creationTime : ℕ) (a : CreateArgs)

theorem magic_createdSb : (a.createdSb xxh64 creationTime).magic = sbMagic :=
  field_createdSb xxh64 0 rfl (by decide) (by decide)

theorem blockSize_createdSb : (a.createdSb xxh64 creationTime).blockSize = a.blockSize :=
  field_createdSb xxh64 2 rfl (by decide) a.blockSize_lt

theorem dedupBlockSize_createdSb :
    (a.createdSb xxh64 creationTime).dedupBlockSize = a.dedupBlockSize :=
  field_createdSb xxh64 3 rfl (by decide) a.dedupBlockSize_lt

theorem totalBytes_createdSb : (a.createdSb xxh64 creationTime).totalBytes = a.totalSize :=
  field_createdSb xxh64 4 rfl (by decide) a.totalSize_lt

theorem catalogLba_createdSb : (a.createdSb xxh64 creationTime).catalogLba = 1 :=
  field_createdSb xxh64 5 rfl (by decide) (by decide)

theorem inodeLba_createdSb : (a.createdSb xxh64 creationTime).inodeLba = 3 :=
  field_createdSb xxh64 6 rfl (by decide) (by decide)

end Fields

/-! ### Where the blocks lie -/

/-- The blocks in use: the superblock, the headers and the first leaves, the bitmap, and the backup
of the superblock. -/
def layout (a : CreateArgs) : List ℕ :=
  List.range 16 ++ List.range' 16 a.bitmapBlks ++ [a.totalBlocks - 1]

theorem bitmapBlks_pos (a : CreateArgs) : 0 < a.bitmapBlks := by
  unfold bitmapBlks NodeSpans.bitmapBlocks
  dsimp only
  split_ifs
  · exact Nat.one_pos
  · exact Nat.add_pos_left Nat.one_pos _

theorem map_fst_bitmapRest (blockSize lba n : ℕ) (data : List UInt8) :
    (bitmapRest blockSize lba n data).map Prod.fst = List.range' lba n := by
  induction n generalizing lba data with
  | zero => rfl
  | succ n ih => rw [bitmapRest, List.map_cons, ih, List.range'_succ]

theorem map_fst_blocks (xxh64 : List UInt8 → UInt64) (creationTime : ℕ)
    (hpos : 0 < a.totalBlocks) : (a.blocks xxh64 creationTime).map Prod.fst = a.layout := by
  have hlt : a.totalBlocks < 2 ^ 64 :=
    (Nat.div_le_self a.totalSize a.blockSize).trans_lt a.totalSize_lt
  have hbackup : backupSbLba a.totalSize a.blockSize = a.totalBlocks - 1 := by
    change (a.totalBlocks + 2 ^ 64 - 1) % 2 ^ 64 = _
    omega
  obtain ⟨n, hn⟩ := Nat.exists_eq_succ_of_ne_zero a.bitmapBlks_pos.ne'
  rw [blocks, layout, List.map_append, List.map_append, hbackup, bitmapBlocks, List.map_cons,
    map_fst_bitmapRest, hn, List.range'_succ]
  rfl

/-- A volume of 18 blocks or more has room for its last block behind the bitmap. -/
theorem reserved_lt (hlarge : 343 ≤ a.blockSize) (hroom : 18 ≤ a.totalBlocks) :
    a.reserved < a.totalBlocks := by
  have hlt := a.blockSize_lt
  have hcapacity : (a.blockSize + 2 ^ 64 - NodeSpans.bitmapHeaderSize) % 2 ^ 64 =
      a.blockSize - 56 := by
    unfold NodeSpans.bitmapHeaderSize
    omega
  change 16 + (if (a.totalBlocks + 7) / 8 ≤ _ then 1 else _) < a.totalBlocks
  rw [hcapacity]
  split_ifs with hone
  · omega
  · have hsum : (a.totalBlocks + 7) / 8 - (a.blockSize - 56) + a.blockSize - 1 =
        (a.totalBlocks + 7) / 8 + 55 := by omega
    have hblocks : ((a.totalBlocks + 7) / 8 + 55) / a.blockSize ≤
        ((a.totalBlocks + 7) / 8 + 55) / 343 := Nat.div_le_div_left hlarge (by decide)
    change 16 + (1 + ((a.totalBlocks + 7) / 8 - (a.blockSize - 56) + a.blockSize - 1) /
      a.blockSize) < a.totalBlocks
    rw [hsum]
    omega

theorem pairwise_layout (hreserved : a.reserved < a.totalBlocks) : a.layout.Pairwise (· < ·) := by
  unfold reserved at hreserved
  rw [layout, List.append_assoc]
  refine List.pairwise_append.mpr ⟨List.pairwise_lt_range, ?_, fun x hx y hy ↦ ?_⟩
  · refine List.pairwise_append.mpr ⟨List.pairwise_lt_range', List.pairwise_singleton _ _,
      fun x hx y hy ↦ ?_⟩
    rw [List.mem_singleton.mp hy]
    have hlast := (List.mem_range'_1.mp hx).2
    omega
  · rw [List.mem_range] at hx
    rcases List.mem_append.mp hy with hy | hy
    · exact Nat.lt_of_lt_of_le hx (List.mem_range'_1.mp hy).1
    · rw [List.mem_singleton.mp hy]
      omega

theorem lt_of_mem_layout (hreserved : a.reserved < a.totalBlocks) {b : ℕ} (hb : b ∈ a.layout) :
    b < a.totalBlocks := by
  unfold reserved at hreserved
  rw [layout, List.append_assoc] at hb
  rcases List.mem_append.mp hb with hb | hb
  · have hlt := List.mem_range.mp hb
    omega
  · rcases List.mem_append.mp hb with hb | hb
    · have hlt := (List.mem_range'_1.mp hb).2
      omega
    · rw [List.mem_singleton.mp hb]
      omega

/-- Blocks that are distinct and inside the volume need 18 of them. -/
theorem room_of_layout (hnodup : a.layout.Nodup) (hinside : ∀ b ∈ a.layout, b < a.totalBlocks) :
    18 ≤ a.totalBlocks := by
  have hpos := a.bitmapBlks_pos
  have hsixteen : 16 ∈ List.range 16 ++ List.range' 16 a.bitmapBlks :=
    List.mem_append_right _ (List.mem_range'_1.mpr ⟨le_rfl, by omega⟩)
  have hlast := hinside 16 (List.mem_append_left _ hsixteen)
  have hne : 16 ≠ a.totalBlocks - 1 := fun heq ↦
    (List.nodup_append.mp hnodup).2.2 16 hsixteen _ (List.mem_singleton.mpr rfl) heq
  omega

end CreateArgs

/-! ### The file -/

/-- Blocks as writes into the file. -/
def placed (blockSize : ℕ) (blocks : List (ℕ × List UInt8)) : List (ℕ × List UInt8) :=
  blocks.map fun block ↦ (block.1 * blockSize, blockBytes blockSize block.2)

theorem length_blockBytes (blockSize : ℕ) (data : List UInt8) :
    (blockBytes blockSize data).length = blockSize := by
  rw [blockBytes, List.length_append, List.length_take, List.length_replicate]
  omega

theorem writeAllBlocks_eq {blockSize : ℕ} {blocks : List (ℕ × List UInt8)} (img : Image)
    (hpos : 0 < blockSize) (hfits : ∀ b ∈ blocks, b.1 * blockSize + blockSize ≤ 2 ^ 63) :
    writeAllBlocks blockSize blocks img = .ok (img.writeAll (placed blockSize blocks)) := by
  induction blocks generalizing img with
  | nil => rfl
  | cons b blocks ih =>
    have hfit := hfits b List.mem_cons_self
    have hmod : b.1 * blockSize % 2 ^ 64 = b.1 * blockSize := Nat.mod_eq_of_lt (by omega)
    have hwrite : writeBlock blockSize img b.1 b.2 =
        .ok (img.pwrite (b.1 * blockSize) (blockBytes blockSize b.2)) := by
      rw [writeBlock, hmod, if_neg (Nat.not_lt.mpr hfit)]
    rw [writeAllBlocks, List.foldlM_cons, hwrite]
    exact ih _ fun c hc ↦ hfits c (List.mem_cons_of_mem b hc)

namespace CreateArgs

variable {xxh64 : List UInt8 → UInt64} {creationTime : ℕ} {a : CreateArgs}

/-- The file that `obmafs3_create` leaves. -/
def image (xxh64 : List UInt8 → UInt64) (creationTime : ℕ) (a : CreateArgs) : Image :=
  (Image.zeros a.totalSize).writeAll (placed a.blockSize (a.blocks xxh64 creationTime))

/-- A volume whose blocks have their places: 18 or more of them, each long enough for the records of
the root directory. -/
structure Roomy (a : CreateArgs) : Prop where
  size : a.totalSize < 2 ^ 63
  large : 343 ≤ a.blockSize
  room : 18 ≤ a.totalBlocks

theorem Roomy.block_inside (h : a.Roomy) {block : ℕ × List UInt8}
    (hmem : block ∈ a.blocks xxh64 creationTime) :
    block.1 * a.blockSize + a.blockSize ≤ a.totalSize := by
  have hlayout : block.1 ∈ a.layout := by
    rw [← map_fst_blocks xxh64 creationTime (Nat.zero_lt_of_lt h.room)]
    exact List.mem_map_of_mem hmem
  have hinside := lt_of_mem_layout (reserved_lt h.large h.room) hlayout
  calc block.1 * a.blockSize + a.blockSize = (block.1 + 1) * a.blockSize := (Nat.succ_mul _ _).symm
    _ ≤ a.totalBlocks * a.blockSize := Nat.mul_le_mul_right _ hinside
    _ ≤ a.totalSize := Nat.div_mul_le_self _ _

theorem Roomy.obmafs3Create_eq (h : a.Roomy) :
    obmafs3Create xxh64 creationTime a = .ok (a.image xxh64 creationTime) := by
  have hlarge := h.large
  have hmarks : ¬8 * a.bitmapBytes < a.reserved := by
    have hreserved := reserved_lt h.large h.room
    unfold bitmapBytes
    omega
  rw [obmafs3Create, if_neg (Nat.not_le.mpr h.size), if_neg (by omega),
    if_neg (by unfold btreeNodeHeaderSize catalogRecordSize; omega), if_neg hmarks,
    writeAllBlocks_eq _ (by omega) fun b hb ↦ (h.block_inside hb).trans h.size.le]
  rfl

theorem Roomy.ascending (xxh64 : List UInt8 → UInt64) (creationTime : ℕ) (h : a.Roomy) :
    Image.Ascending (placed a.blockSize (a.blocks xxh64 creationTime)) := by
  have hpairs : ((a.blocks xxh64 creationTime).map Prod.fst).Pairwise (· < ·) := by
    rw [map_fst_blocks xxh64 creationTime (Nat.zero_lt_of_lt h.room)]
    exact pairwise_layout (reserved_lt h.large h.room)
  refine List.pairwise_map.mpr ((List.pairwise_map.mp hpairs).imp fun {v w} hvw ↦ ?_)
  rw [length_blockBytes]
  exact (Nat.succ_mul v.1 a.blockSize).symm.le.trans (Nat.mul_le_mul_right a.blockSize hvw)

theorem Roomy.size_image (h : a.Roomy) : (a.image xxh64 creationTime).size = a.totalSize := by
  refine Image.size_writeAll fun w hw ↦ ?_
  obtain ⟨block, hmem, rfl⟩ := List.mem_map.mp hw
  rw [length_blockBytes]
  exact h.block_inside hmem

/-- Every block holds what was written to it. -/
theorem Roomy.bytesAt_image (h : a.Roomy) {lba : ℕ} {data : List UInt8}
    (hmem : (lba, data) ∈ a.blocks xxh64 creationTime) :
    (a.image xxh64 creationTime).bytesAt (lba * a.blockSize) a.blockSize =
      blockBytes a.blockSize data := by
  have hwritten := Image.bytesAt_writeAll (Image.zeros a.totalSize)
    (h.ascending xxh64 creationTime)
    (List.mem_map_of_mem (f := fun block : ℕ × List UInt8 ↦
      (block.1 * a.blockSize, blockBytes a.blockSize block.2)) hmem)
  rwa [length_blockBytes] at hwritten

end CreateArgs

end Obmafs3
