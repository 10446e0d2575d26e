import Obmafs3.Library.XxHash
import Obmafs3.Mount.Open

/-!
# Opening a volume that was created

`created_usable_iff` says for which sizes a volume that `obmafs3_create` has made is opened with its
superblock, holds the root directory and nothing else, and has exactly the blocks of its layout marked.
The superblock takes 4080 bytes in the file and is written into one block: where blocks are shorter,
what is read as the superblock goes on with the header of the catalog.
-/

set_option autoImplicit false

namespace Obmafs3

open Library Library.ByteImage

/-! ### What is read from a block -/

variable {data : List UInt8} {off width : ℕ}

theorem blockBytes_eq {blockSize : ℕ} (hfits : data.length ≤ blockSize) :
    blockBytes blockSize data = data ++ List.replicate (blockSize - data.length) 0 := by
  rw [blockBytes, List.take_of_length_le hfits]

theorem take_blockBytes {blockSize n : ℕ} (hlength : data.length = n) (hfits : n ≤ blockSize) :
    (blockBytes blockSize data).take n = data := by
  rw [blockBytes_eq (hlength.trans_le hfits), List.take_left' hlength]

variable {front back : List UInt8}

/-- A field of what was written to a block. -/
theorem fieldBytes_append_left (hinside : off + width ≤ front.length) :
    fieldBytes (front ++ back) off width = fieldBytes front off width := by
  rw [fieldBytes, List.drop_append_of_le_length (by omega), List.take_append_of_le_length
    (by rw [List.length_drop]; omega), fieldBytes]

theorem fieldBytes_append_right (hlength : front.length = off) (hwidth : back.length = width) :
    fieldBytes (front ++ back) off width = back := by
  rw [fieldBytes, List.drop_left' hlength, List.take_of_length_le hwidth.le]

theorem fieldBytes_append_behind {off width k : ℕ} (hlength : front.length = k) (hle : k ≤ off) :
    fieldBytes (front ++ back) off width = fieldBytes back (off - k) width := by
  subst hlength
  rw [fieldBytes, List.drop_append, List.drop_of_length_le hle, List.nil_append, fieldBytes]

theorem fieldBytes_front {width : ℕ} (hlength : front.length = width) :
    fieldBytes (front ++ back) 0 width = front := by
  rw [fieldBytes, List.drop_zero, List.take_left' hlength]

theorem length_btreeHeaderBody (dataType rootNodeLba nodeSize totalNodes treeType : ℕ) :
    (btreeHeaderBody dataType rootNodeLba nodeSize totalNodes treeType).length = 58 := by
  simp [btreeHeaderBody]

theorem magic_btreeHeaderBody (dataType rootNodeLba nodeSize totalNodes treeType : ℕ) :
    number (fieldBytes (btreeHeaderBody dataType rootNodeLba nodeSize totalNodes treeType) 0 8) =
      btreeHdrMagic := by
  simp only [btreeHeaderBody, List.append_assoc]
  rw [fieldBytes_front (length_bytesOf 8 _)]
  decide

theorem rootNodeLba_withChecksum (xxh64 : List UInt8 → UInt64)
    {dataType rootNodeLba nodeSize totalNodes treeType : ℕ} (hlt : rootNodeLba < 256 ^ 8) :
    number (fieldBytes (withChecksum xxh64
      (btreeHeaderBody dataType rootNodeLba nodeSize totalNodes treeType)) 12 8) = rootNodeLba := by
  simp only [withChecksum, btreeHeaderBody, List.append_assoc]
  rw [fieldBytes_append_behind (length_bytesOf 8 _) (by decide),
    fieldBytes_append_behind (length_bytesOf 4 _) (by decide), fieldBytes_front (length_bytesOf 8 _),
    number_bytesOf, Nat.mod_eq_of_lt hlt]

theorem length_leafHeaderBody (recordType nodeKeys keysLength : ℕ) :
    (leafHeaderBody recordType nodeKeys keysLength).length = 38 := by
  simp [leafHeaderBody]

/-- The leaf has one record and no neighbours. -/
theorem fields_leafHeaderBody (recordType keysLength : ℕ) :
    number (fieldBytes (leafHeaderBody recordType 1 keysLength) 0 8) = btreeNodeMagic ∧
      number (fieldBytes (leafHeaderBody recordType 1 keysLength) 9 1) = 0 ∧
      number (fieldBytes (leafHeaderBody recordType 1 keysLength) 10 8) = 0 ∧
      number (fieldBytes (leafHeaderBody recordType 1 keysLength) 18 8) = 0 ∧
      number (fieldBytes (leafHeaderBody recordType 1 keysLength) 34 2) = 1 := by
  simp only [leafHeaderBody, List.append_assoc]
  have hmagic := length_bytesOf 8 btreeNodeMagic
  have htype := length_bytesOf 1 recordType
  have hlevel := length_bytesOf 1 0
  have hlink := length_bytesOf 8 0
  -- The fields stand behind one another.
  refine ⟨?_, ?_, ?_, ?_, ?_⟩
  · rw [fieldBytes_front hmagic]
    decide
  all_goals
    rw [fieldBytes_append_behind hmagic (by decide), fieldBytes_append_behind htype (by decide)]
  · rw [fieldBytes_front hlevel]
    decide
  all_goals rw [fieldBytes_append_behind hlevel (by decide)]
  · rw [fieldBytes_front hlink]
    decide
  all_goals rw [fieldBytes_append_behind hlink (by decide)]
  · rw [fieldBytes_front hlink]
    decide
  · rw [fieldBytes_append_behind hlink (by decide), fieldBytes_append_behind hlink (by decide),
      fieldBytes_front (length_bytesOf 2 1)]
    decide

theorem length_rootCatalogRecord : rootCatalogRecord.length = catalogRecordSize := by
  simp only [rootCatalogRecord, List.length_append, length_bytesOf, List.length_cons,
    List.length_nil, List.length_replicate]
  rfl

theorem length_rootInodeRecord (creationTime : ℕ) :
    (rootInodeRecord creationTime).length = inodeRecordSize := by
  simp only [rootInodeRecord, List.length_append, length_bytesOf, List.length_replicate]
  rfl

namespace CreateArgs

variable {xxh64 : List UInt8 → UInt64} {creationTime : ℕ} {a : CreateArgs} {sb : Superblock}
  {lba : ℕ}

theorem Roomy.readBlock_image (h : a.Roomy) {data : List UInt8}
    (hblock : sb.blockSize = a.blockSize) (hmem : (lba, data) ∈ a.blocks xxh64 creationTime) :
    readBlock (a.image xxh64 creationTime) sb lba = .ok (blockBytes a.blockSize data) := by
  have hinside : lba * a.blockSize + a.blockSize ≤ a.totalSize := h.block_inside hmem
  have hlt := h.size
  have hlarge := h.large
  have hmod : lba * a.blockSize % 2 ^ 64 = lba * a.blockSize := Nat.mod_eq_of_lt (by omega)
  have hread : (a.image xxh64 creationTime).pread (lba * a.blockSize) a.blockSize =
      some (blockBytes a.blockSize data) :=
    Image.pread_eq_some.mpr ⟨by rwa [h.size_image], h.bytesAt_image hmem⟩
  rw [readBlock, hblock, hmod, if_neg (by omega), hread]

/-- A header with its checksum is read. -/
theorem Roomy.btreeHeaderRead_image (h : a.Roomy) {body : List UInt8}
    (hblock : sb.blockSize = a.blockSize)
    (hmem : (lba, withChecksum xxh64 body) ∈ a.blocks xxh64 creationTime)
    (hbody : body.length = 58) (hmagic : number (fieldBytes body 0 8) = btreeHdrMagic) :
    btreeHeaderRead xxh64 (a.image xxh64 creationTime) sb lba = .ok (withChecksum xxh64 body) := by
  have hlarge := h.large
  have hlength : (withChecksum xxh64 body).length = btreeHeaderSize := by
    rw [withChecksum, List.length_append, hbody, length_checksumBlock]
    rfl
  have hfront : number (fieldBytes (withChecksum xxh64 body) 0 8) = btreeHdrMagic := by
    rw [withChecksum, fieldBytes_append_left (by omega), hmagic]
  have hsum : fieldBytes (withChecksum xxh64 body) 58 32 =
      checksumBlock xxh64 (overwrite (withChecksum xxh64 body) 58 (List.replicate 32 0)) := by
    have hzeroed : overwrite (withChecksum xxh64 body) 58 (List.replicate 32 0) =
        body ++ List.replicate 32 0 := by
      rw [overwrite, List.length_replicate, withChecksum, List.take_left' hbody,
        List.drop_of_length_le (by rw [List.length_append, hbody, length_checksumBlock]),
        List.append_nil]
    rw [hzeroed, withChecksum, fieldBytes_append_right hbody (length_checksumBlock _ _)]
  simp only [btreeHeaderRead, h.readBlock_image hblock hmem, bind, Except.bind]
  rw [take_blockBytes hlength (by unfold btreeHeaderSize; omega),
    if_neg (by unfold btreeHeaderSize; omega), if_neg (not_not.mpr hfront), if_neg (not_not.mpr hsum)]

/-! ### The bitmap -/

theorem length_markBlock (bitmap : List UInt8) (b : ℕ) :
    (markBlock bitmap b).length = bitmap.length := by
  rw [markBlock, List.length_modify]

/-- A bit of a bitmap in memory. -/
def bit (bitmap : List UInt8) (b : ℕ) : Bool := (bitmap.getD (b / 8) 0).toNat.testBit (b % 8)

variable {bitmap : List UInt8}

theorem bit_markBlock {b : ℕ} (hinside : b / 8 < bitmap.length) (c : ℕ) :
    bit (markBlock bitmap b) c = true ↔ c = b ∨ bit bitmap c = true := by
  rw [bit, bit, markBlock, List.getD_eq_getElem?_getD, List.getD_eq_getElem?_getD,
    List.getElem?_modify]
  split_ifs with hbyte
  · rw [← hbyte, List.getElem?_eq_getElem hinside, Option.map_eq_map, Option.map_some,
      Option.getD_some, Option.getD_some]
    have hlt : (bitmap[b / 8]).toNat ||| 1 <<< (b % 8) < 2 ^ 8 := by
      refine Nat.or_lt_two_pow (bitmap[b / 8]).toNat_lt ?_
      rw [Nat.one_shiftLeft]
      exact Nat.pow_lt_pow_right (by decide) (Nat.mod_lt b (by decide))
    rw [UInt8.toNat_ofNat_of_lt' hlt, Nat.testBit_or, Bool.or_eq_true, Nat.one_shiftLeft,
      Nat.testBit_two_pow, decide_eq_true_eq, or_comm]
    exact or_congr_left (by omega)
  · rw [Option.map_eq_map, Option.map_id']
    exact (or_iff_right (by rintro rfl; exact hbyte rfl)).symm

theorem length_foldl_markBlock (bs : List ℕ) (bitmap : List UInt8) :
    (bs.foldl markBlock bitmap).length = bitmap.length := by
  induction bs generalizing bitmap with
  | nil => rfl
  | cons b bs ih => rw [List.foldl_cons, ih, length_markBlock]

theorem bit_foldl_markBlock {bs : List ℕ} (hinside : ∀ b ∈ bs, b / 8 < bitmap.length) (c : ℕ) :
    bit (bs.foldl markBlock bitmap) c = true ↔ c ∈ bs ∨ bit bitmap c = true := by
  induction bs generalizing bitmap with
  | nil => exact (or_iff_right List.not_mem_nil).symm
  | cons b bs ih =>
    rw [List.foldl_cons, ih fun d hd ↦ by
      rw [length_markBlock]
      exact hinside d (List.mem_cons_of_mem b hd),
      bit_markBlock (hinside b List.mem_cons_self), List.mem_cons, ← or_assoc, or_comm (a := c ∈ bs)]

theorem bit_replicate (n c : ℕ) : bit (List.replicate n 0) c = false := by
  rw [bit, List.getD_eq_getElem?_getD, List.getElem?_replicate]
  split_ifs <;> exact Nat.zero_testBit _

section

variable (h : a.Roomy)
include h

theorem Roomy.backupSbLba_eq : backupSbLba a.totalSize a.blockSize = a.totalBlocks - 1 := by
  have hlt : a.totalBlocks ≤ a.totalSize := Nat.div_le_self _ _
  have hsize := h.size
  have hroom := h.room
  change (a.totalBlocks + 2 ^ 64 - 1) % 2 ^ 64 = _
  omega

theorem Roomy.markedBitmap_eq :
    a.markedBitmap = (List.range a.reserved ++ [a.totalBlocks - 1]).foldl markBlock
      (List.replicate a.bitmapBytes 0) := by
  have hreserved := reserved_lt h.large h.room
  rw [markedBitmap, h.backupSbLba_eq, if_pos (by omega), List.foldl_append]
  rfl

theorem Roomy.length_markedBitmap : a.markedBitmap.length = a.bitmapBytes := by
  rw [h.markedBitmap_eq, length_foldl_markBlock, List.length_replicate]

/-- The marks are those of the layout. -/
theorem Roomy.bit_markedBitmap (b : ℕ) : bit a.markedBitmap b = true ↔ b ∈ a.layout := by
  have hreserved := reserved_lt h.large h.room
  rw [h.markedBitmap_eq, bit_foldl_markBlock, bit_replicate]
  · rw [layout, List.mem_append, List.mem_append, List.mem_append, List.mem_range, List.mem_range,
      List.mem_range'_1, reserved]
    have hpos := a.bitmapBlks_pos
    refine (or_iff_left Bool.false_ne_true).trans (or_congr_left ?_)
    omega
  · intro c hc
    have hlt : c < a.totalBlocks := by
      rcases List.mem_append.mp hc with hc | hc
      · exact (List.mem_range.mp hc).trans hreserved
      · rw [List.mem_singleton.mp hc]
        omega
    rw [List.length_replicate, bitmapBytes]
    omega

/-- The loop over the blocks behind the first one copies what was written to them. -/
theorem Roomy.bitmapReadRest_image {n : ℕ} {data : List UInt8} (hblock : sb.blockSize = a.blockSize)
    (hmem : ∀ block ∈ bitmapRest a.blockSize lba n data, block ∈ a.blocks xxh64 creationTime)
    (henough : data.length ≤ n * a.blockSize) :
    bitmapReadRest (a.image xxh64 creationTime) sb lba n data.length = .ok data := by
  induction n generalizing lba data with
  | zero =>
    rw [Nat.zero_mul] at henough
    rw [List.eq_nil_of_length_eq_zero (Nat.le_zero.mp henough)]
    rfl
  | succ n ih =>
    rw [bitmapRest] at hmem
    have hread := h.readBlock_image hblock (hmem _ List.mem_cons_self)
    have hrest : bitmapReadRest (a.image xxh64 creationTime) sb (lba + 1) n
        (data.drop a.blockSize).length = .ok (data.drop a.blockSize) := by
      refine ih (fun block hb ↦ hmem block (List.mem_cons_of_mem _ hb)) ?_
      rw [List.length_drop]
      rw [Nat.succ_mul] at henough
      omega
    rw [List.length_drop] at hrest
    have hchunk : (blockBytes a.blockSize (data.take a.blockSize)).take
        (min data.length a.blockSize) = data.take a.blockSize :=
      take_blockBytes (by rw [List.length_take, Nat.min_comm]) (Nat.min_le_right _ _)
    simp only [bitmapReadRest, hread, bind, Except.bind, hblock, hrest, hchunk,
      List.take_append_drop]

end

/-- The blocks of the bitmap hold all of it. -/
theorem bitmapBytes_le (hlarge : 343 ≤ a.blockSize) :
    a.bitmapBytes - (a.blockSize - NodeSpans.bitmapHeaderSize) ≤
      (a.bitmapBlks - 1) * a.blockSize := by
  have hlt := a.blockSize_lt
  have hcapacity : (a.blockSize + 2 ^ 64 - NodeSpans.bitmapHeaderSize) % 2 ^ 64 =
      a.blockSize - NodeSpans.bitmapHeaderSize := by
    unfold NodeSpans.bitmapHeaderSize
    omega
  unfold bitmapBlks NodeSpans.bitmapBlocks
  dsimp only
  rw [hcapacity]
  change a.bitmapBytes - _ ≤ ((if a.bitmapBytes ≤ _ then 1 else _) - 1) * _
  split_ifs with hone
  · omega
  · rw [Nat.add_sub_cancel_left]
    change _ ≤ (a.bitmapBytes - (a.blockSize - NodeSpans.bitmapHeaderSize) + a.blockSize - 1) /
      a.blockSize * a.blockSize
    have hceil := Nat.div_add_mod'
      (a.bitmapBytes - (a.blockSize - NodeSpans.bitmapHeaderSize) + a.blockSize - 1) a.blockSize
    have hmod := Nat.mod_lt
      (a.bitmapBytes - (a.blockSize - NodeSpans.bitmapHeaderSize) + a.blockSize - 1)
      (show 0 < a.blockSize by omega)
    omega

/-- The bitmap is read as it was written. -/
theorem Roomy.bitmapRead_image (h : a.Roomy) (hblock : sb.blockSize = a.blockSize)
    (htotal : sb.totalBytes = a.totalSize) (hlba : sb.bitmapLba = 16)
    (hblocks : sb.bitmapBlocks = a.bitmapBlks) :
    bitmapRead xxh64 (a.image xxh64 creationTime) sb = .ok (a.markedBitmap, a.reserved) := by
  have hlarge := h.large
  have hreserved := reserved_lt h.large h.room
  have hmarked := h.length_markedBitmap
  have hmem (block : ℕ × List UInt8) (hb : block ∈ a.bitmapBlocks xxh64) :
      block ∈ a.blocks xxh64 creationTime :=
    List.mem_append_left _ (List.mem_append_right _ hb)
  have hread := h.readBlock_image hblock (hmem _ List.mem_cons_self)
  have hrest := h.bitmapReadRest_image hblock
    (fun block hb ↦ hmem block (List.mem_cons_of_mem _ hb))
    (by rw [List.length_drop, hmarked]; exact bitmapBytes_le hlarge)
  rw [List.length_drop, hmarked] at hrest
  have hbytes : (sb.totalBytes / a.blockSize + 7) / 8 = a.bitmapBytes := by
    rw [htotal]
    rfl
  have hheader : (a.bitmapHeader xxh64).length = NodeSpans.bitmapHeaderSize := by
    rw [bitmapHeader, List.length_append, List.length_append, List.length_append, length_bytesOf,
      length_bytesOf, length_bytesOf, length_checksumBlock]
    rfl
  have hfirst : (a.markedBitmap.take (a.blockSize - NodeSpans.bitmapHeaderSize)).length =
      min a.bitmapBytes (a.blockSize - NodeSpans.bitmapHeaderSize) := by
    rw [List.length_take, hmarked, Nat.min_comm]
  have hfits : (a.bitmapHeader xxh64 ++
      a.markedBitmap.take (a.blockSize - NodeSpans.bitmapHeaderSize)).length ≤ a.blockSize := by
    rw [List.length_append, hheader, hfirst]
    unfold NodeSpans.bitmapHeaderSize
    omega
  have hdata : fieldBytes (blockBytes a.blockSize (a.bitmapHeader xxh64 ++
      a.markedBitmap.take (a.blockSize - NodeSpans.bitmapHeaderSize))) NodeSpans.bitmapHeaderSize
        (min a.bitmapBytes (a.blockSize - NodeSpans.bitmapHeaderSize)) =
      a.markedBitmap.take (a.blockSize - NodeSpans.bitmapHeaderSize) := by
    rw [blockBytes_eq hfits, fieldBytes_append_left, fieldBytes_append_right hheader hfirst]
    rw [List.length_append, hheader, hfirst]
  have hfield (off width : ℕ) (hinside : off + width ≤ NodeSpans.bitmapHeaderSize) :
      fieldBytes (blockBytes a.blockSize (a.bitmapHeader xxh64 ++
        a.markedBitmap.take (a.blockSize - NodeSpans.bitmapHeaderSize))) off width =
      fieldBytes (a.bitmapHeader xxh64) off width := by
    rw [blockBytes_eq hfits, List.append_assoc, fieldBytes_append_left (by omega)]
  have hmagic : number (fieldBytes (a.bitmapHeader xxh64) 0 8) = bitmapMagic := by
    rw [bitmapHeader, List.append_assoc, List.append_assoc, fieldBytes_append_left (by simp)]
    decide
  have hnext : number (fieldBytes (a.bitmapHeader xxh64) 16 8) = a.reserved := by
    have hlt : a.totalBlocks < 2 ^ 64 := (Nat.div_le_self _ _).trans_lt a.totalSize_lt
    rw [bitmapHeader, fieldBytes_append_left (by simp),
      fieldBytes_append_right (by simp) (length_bytesOf _ _), number_bytesOf,
      Nat.mod_eq_of_lt (by omega)]
  have hsum : fieldBytes (a.bitmapHeader xxh64) 24 32 = checksumBlock xxh64 a.markedBitmap := by
    rw [bitmapHeader, fieldBytes_append_right (by simp) (length_checksumBlock _ _)]
  simp only [bitmapRead, hlba, Nat.reduceAdd, hread, bind, Except.bind, hbytes, hblock, hblocks, hrest, hdata,
    hfield 0 8 (by decide), hfield 16 8 (by decide), hfield 24 32 (by decide), hmagic, hnext, hsum,
    List.take_append_drop, hmarked, Nat.sub_self, List.replicate_zero, List.append_nil, ne_eq,
    not_true_eq_false, if_false]
  rw [if_neg (by unfold NodeSpans.bitmapHeaderSize; omega)]

/-! ### The leaves -/

/-- A tree whose root is a leaf that was written holds the record of the leaf. -/
theorem Roomy.soleLeafRecords_image (h : a.Roomy) {recordType size : ℕ} {record hdr : List UInt8}
    (hblock : sb.blockSize = a.blockSize) (hroot : number (fieldBytes hdr 12 8) = lba)
    (hmem : (lba, rootLeaf xxh64 recordType record) ∈ a.blocks xxh64 creationTime)
    (hsize : record.length = size) (hfits : size ≤ 273) :
    soleLeafRecords (a.image xxh64 creationTime) sb hdr size = some [record] := by
  have hlarge := h.large
  have hbody := length_leafHeaderBody recordType 1 record.length
  have hlength : (rootLeaf xxh64 recordType record).length = 70 + size := by
    rw [rootLeaf, List.length_append, List.length_append, hbody, length_checksumBlock, hsize]
  have hread := h.readBlock_image hblock hmem
  rw [blockBytes_eq (by omega)] at hread
  have hfield (off width : ℕ) (hinside : off + width ≤ 38) :
      fieldBytes (rootLeaf xxh64 recordType record ++
        List.replicate (a.blockSize - (rootLeaf xxh64 recordType record).length) 0) off width =
      fieldBytes (leafHeaderBody recordType 1 record.length) off width := by
    rw [fieldBytes_append_left (by omega), rootLeaf, List.append_assoc,
      fieldBytes_append_left (by omega)]
  obtain ⟨hmagic, hlevel, hleft, hright, hkeys⟩ := fields_leafHeaderBody recordType record.length
  have hrecord : fieldBytes (rootLeaf xxh64 recordType record ++
      List.replicate (a.blockSize - (rootLeaf xxh64 recordType record).length) 0)
        (btreeNodeHeaderSize + 0 * size) size = record := by
    have hfront : (leafHeaderBody recordType 1 record.length ++ checksumBlock xxh64
        (leafHeaderBody recordType 1 record.length ++ List.replicate 32 0 ++ record)).length =
          btreeNodeHeaderSize + 0 * size := by
      rw [List.length_append, hbody, length_checksumBlock, Nat.zero_mul]
      rfl
    rw [fieldBytes_append_left (by rw [hlength, Nat.zero_mul]; rfl), rootLeaf,
      fieldBytes_append_right hfront hsize]
  rw [soleLeafRecords, hroot, hread]
  simp only [hfield 0 8 (by decide), hfield 9 1 (by decide), hfield 10 8 (by decide),
    hfield 18 8 (by decide), hfield 34 2 (by decide)]
  rw [if_pos ⟨hmagic, hlevel, hleft, hright⟩, hkeys, List.range_one, List.map_cons, List.map_nil, hrecord]

/-! ### The superblock -/

theorem optionalHeaderLbas_createdSb (xxh64 : List UInt8 → UInt64) (creationTime : ℕ)
    (a : CreateArgs) : (a.createdSb xxh64 creationTime).optionalHeaderLbas =
      [5, 7, 8, 9, 10, 11, 12, 13, 14, 15, 0, 0] := by
  rw [Superblock.optionalHeaderLbas,
    field_createdSb xxh64 7 rfl (by decide) (by decide),
    field_createdSb xxh64 10 rfl (by decide) (by decide),
    field_createdSb xxh64 11 rfl (by decide) (by decide),
    field_createdSb xxh64 12 rfl (by decide) (by decide),
    field_createdSb xxh64 13 rfl (by decide) (by decide),
    field_createdSb xxh64 9 rfl (by decide) (by decide),
    field_createdSb xxh64 14 rfl (by decide) (by decide),
    field_createdSb xxh64 15 rfl (by decide) (by decide),
    field_createdSb xxh64 26 rfl (by decide) (by decide),
    field_createdSb xxh64 27 rfl (by decide) (by decide),
    field_createdSb_zero xxh64 (by decide) (by rw [places_sbFields]; decide),
    field_createdSb_zero xxh64 (by decide) (by rw [places_sbFields]; decide)]

theorem valid_createdSb (xxh64 : List UInt8 → UInt64) (creationTime : ℕ) (a : CreateArgs) :
    (a.createdSb xxh64 creationTime).Valid ↔
      a.blockSize ≠ 0 ∧ a.dedupBlockSize ≠ 0 ∧ a.totalSize ≠ 0 := by
  rw [Superblock.valid_iff, magic_createdSb, blockSize_createdSb, dedupBlockSize_createdSb,
    totalBytes_createdSb, catalogLba_createdSb, inodeLba_createdSb]
  exact ⟨fun ⟨_, hblock, hdedup, htotal, _, _⟩ ↦ ⟨hblock, hdedup, htotal⟩,
    fun ⟨hblock, hdedup, htotal⟩ ↦ ⟨rfl, hblock, hdedup, htotal, by decide, by decide⟩⟩

/-- The first copy of the superblock is read as it was written. -/
theorem Roomy.sbReadAt_image (xxh64 : List UInt8 → UInt64) (creationTime : ℕ) (h : a.Roomy)
    (hfits : sbSize ≤ a.blockSize) :
    sbReadAt (a.image xxh64 creationTime) 0 = some (a.createdSb xxh64 creationTime) := by
  have hmem : (0, (a.createdSb xxh64 creationTime).bytes) ∈ a.blocks xxh64 creationTime :=
    List.mem_append_left _ (List.mem_append_left _ List.mem_cons_self)
  have hinside : 0 * a.blockSize + a.blockSize ≤ a.totalSize := h.block_inside hmem
  have hbytes := h.bytesAt_image hmem
  rw [Nat.zero_mul] at hbytes
  have hpart : fieldBytes ((a.image xxh64 creationTime).bytesAt 0 a.blockSize) 0 sbSize =
      (a.image xxh64 creationTime).bytesAt (0 + 0) sbSize :=
    Image.fieldBytes_bytesAt (by omega)
  rw [hbytes, fieldBytes, List.drop_zero,
    take_blockBytes (Superblock.length_bytes _) hfits] at hpart
  exact sbReadAt_eq_some.mpr (Image.pread_eq_some.mpr ⟨by rw [h.size_image]; omega, hpart.symm⟩)

theorem exists_mapM_ok {α β ε : Type} {f : α → Except ε β} {l : List α}
    (h : ∀ x ∈ l, ∃ y, f x = .ok y) : ∃ ys, l.mapM f = .ok ys := by
  induction l with
  | nil => exact ⟨[], rfl⟩
  | cons x l ih =>
    obtain ⟨y, hy⟩ := h x List.mem_cons_self
    obtain ⟨ys, hys⟩ := ih fun z hz ↦ h z (List.mem_cons_of_mem x hz)
    exact ⟨y :: ys, by simp only [List.mapM_cons, hy, hys, bind, Except.bind, pure, Except.pure]⟩

variable {i : ℕ}

theorem headBlock_mem {block : ℕ × List UInt8}
    (hget : (a.headBlocks xxh64 creationTime)[i]? = some block) :
    block ∈ a.blocks xxh64 creationTime :=
  List.mem_append_left _ (List.mem_append_left _ (List.mem_of_getElem? hget))

/-- The headers of the trees that are empty. -/
theorem emptyHeader_mem (xxh64 : List UInt8 → UInt64) (creationTime : ℕ) (a : CreateArgs)
    (hlba : lba ∈ [5, 7, 8, 9, 10, 11, 12, 13, 14, 15]) : ∃ dataType nodeSize treeType,
      (lba, withChecksum xxh64 (btreeHeaderBody dataType 0 nodeSize 0 treeType)) ∈
        a.blocks xxh64 creationTime := by
  simp only [List.mem_cons, List.not_mem_nil, or_false] at hlba
  rcases hlba with rfl | rfl | rfl | rfl | rfl | rfl | rfl | rfl | rfl | rfl
  · exact ⟨_, _, _, headBlock_mem (i := 5) rfl⟩
  · exact ⟨_, _, _, headBlock_mem (i := 7) rfl⟩
  · exact ⟨_, _, _, headBlock_mem (i := 8) rfl⟩
  · exact ⟨_, _, _, headBlock_mem (i := 9) rfl⟩
  · exact ⟨_, _, _, headBlock_mem (i := 10) rfl⟩
  · exact ⟨_, _, _, headBlock_mem (i := 11) rfl⟩
  · exact ⟨_, _, _, headBlock_mem (i := 12) rfl⟩
  · exact ⟨_, _, _, headBlock_mem (i := 13) rfl⟩
  · exact ⟨_, _, _, headBlock_mem (i := 14) rfl⟩
  · exact ⟨_, _, _, headBlock_mem (i := 15) rfl⟩

/-- A volume of long enough blocks is opened. -/
theorem Roomy.obmafs3Open_image (h : a.Roomy) (hfits : sbSize ≤ a.blockSize)
    (hdedup : a.dedupBlockSize ≠ 0) (userIndexLoad : Image → Superblock → Except OpenError Unit) :
    ∃ otherHdrs, obmafs3Open xxh64 (a.image xxh64 creationTime) userIndexLoad =
      .ok
        { sb := a.createdSb xxh64 creationTime
          readOnly := false
          catalogHdr := withChecksum xxh64 (btreeHeaderBody 0 2 a.blockSize 1 0)
          inodeHdr := withChecksum xxh64 (btreeHeaderBody 1 4 a.blockSize 1 1)
          otherHdrs := otherHdrs
          bitmap := a.markedBitmap
          nextFreeLba := a.reserved } := by
  have hlarge := h.large
  have hblock := blockSize_createdSb xxh64 creationTime a
  have hsize : a.totalSize ≠ 0 := by
    have hmul := Nat.div_mul_le_self a.totalSize a.blockSize
    have hroom : 18 ≤ a.totalSize / a.blockSize := h.room
    rintro hzero
    rw [hzero, Nat.zero_div] at hroom
    omega
  have hopen := openSb_of_valid (h.sbReadAt_image xxh64 creationTime hfits)
    ((valid_createdSb xxh64 creationTime a).mpr ⟨by omega, hdedup, hsize⟩)
  have hbitmapLba : (a.createdSb xxh64 creationTime).bitmapLba = 16 :=
    field_createdSb xxh64 19 rfl (by decide) (by decide)
  have hbitmapBlocks : (a.createdSb xxh64 creationTime).bitmapBlocks = a.bitmapBlks := by
    have hreserved := reserved_lt h.large h.room
    have hlt : a.totalBlocks < 256 ^ 8 := (Nat.div_le_self _ _).trans_lt a.totalSize_lt
    unfold reserved at hreserved
    exact field_createdSb xxh64 20 rfl (by decide) (by omega)
  have hrevision : (a.createdSb xxh64 creationTime).revision = 20260224 :=
    field_createdSb xxh64 23 rfl (by decide) (by decide)
  have hrocompat : (a.createdSb xxh64 creationTime).rocompatFlags = 1 :=
    field_createdSb xxh64 24 rfl (by decide) (by decide)
  have hincompat : (a.createdSb xxh64 creationTime).incompatibleFlags = 0 :=
    field_createdSb_zero xxh64 (by decide) (by rw [places_sbFields]; decide)
  have hregistry : (a.createdSb xxh64 creationTime).userIndexRegistryLba = 0 :=
    field_createdSb_zero xxh64 (by decide) (by rw [places_sbFields]; decide)
  have hcatalog : btreeHeaderRead xxh64 (a.image xxh64 creationTime)
      (a.createdSb xxh64 creationTime) 1 =
        .ok (withChecksum xxh64 (btreeHeaderBody 0 2 a.blockSize 1 0)) :=
    h.btreeHeaderRead_image hblock (headBlock_mem (i := 1) rfl) (length_btreeHeaderBody _ _ _ _ _)
      (magic_btreeHeaderBody _ _ _ _ _)
  have hinode : btreeHeaderRead xxh64 (a.image xxh64 creationTime)
      (a.createdSb xxh64 creationTime) 3 =
        .ok (withChecksum xxh64 (btreeHeaderBody 1 4 a.blockSize 1 1)) :=
    h.btreeHeaderRead_image hblock (headBlock_mem (i := 3) rfl) (length_btreeHeaderBody _ _ _ _ _)
      (magic_btreeHeaderBody _ _ _ _ _)
  have hbitmap : bitmapRead xxh64 (a.image xxh64 creationTime) (a.createdSb xxh64 creationTime) =
      .ok (a.markedBitmap, a.reserved) :=
    h.bitmapRead_image hblock (totalBytes_createdSb xxh64 creationTime a) hbitmapLba hbitmapBlocks
  have hread (lba : ℕ) (hlba : lba ∈ [5, 7, 8, 9, 10, 11, 12, 13, 14, 15]) :
      ∃ hdr, btreeHeaderRead xxh64 (a.image xxh64 creationTime) (a.createdSb xxh64 creationTime)
        lba = .ok hdr := by
    obtain ⟨dataType, nodeSize, treeType, hmem⟩ := emptyHeader_mem xxh64 creationTime a hlba
    exact ⟨_, h.btreeHeaderRead_image hblock hmem (length_btreeHeaderBody _ _ _ _ _)
      (magic_btreeHeaderBody _ _ _ _ _)⟩
  obtain ⟨otherHdrs, hothers⟩ := exists_mapM_ok hread
  have hlbas : (a.createdSb xxh64 creationTime).optionalHeaderLbas.filter (· ≠ 0) =
      [5, 7, 8, 9, 10, 11, 12, 13, 14, 15] := by
    rw [optionalHeaderLbas_createdSb]
    decide
  refine ⟨otherHdrs, ?_⟩
  have hblks := a.bitmapBlks_pos.ne'
  have hload : loadBitmap xxh64 (a.image xxh64 creationTime) (a.createdSb xxh64 creationTime) =
      .ok (a.markedBitmap, a.reserved) := by
    rw [loadBitmap, if_pos ⟨by rw [hbitmapLba]; decide, by rwa [hbitmapBlocks]⟩, hbitmap]
  have hindexes : loadUserIndexes (a.image xxh64 creationTime) (a.createdSb xxh64 creationTime)
      userIndexLoad = .ok () :=
    if_neg (not_not.mpr hregistry)
  simp only [obmafs3Open, hopen, obmafs3OpenWith, hrevision, hincompat, Nat.lt_irrefl,
    Nat.zero_and, ne_eq, not_true_eq_false, if_false, catalogLba_createdSb, inodeLba_createdSb,
    hcatalog, hinode, hlbas, hothers, hindexes, hload, hrocompat, bind, Except.bind]
  rfl

/-! ### A superblock that does not fit into its block -/

theorem getElem?_ofFields {fields : List (ℕ × List UInt8)} (hi : i < sbSize) :
    (Superblock.ofFields fields).bytes[i]? =
      some (((Image.zeros sbSize).writeAll fields).byte i) := by
  rw [Superblock.ofFields, Image.getElem?_bytesAt hi, Nat.zero_add]

/-- The superblock is zero behind the hashes of its checksums and in the reserved fields. -/
theorem getElem?_createdSb_zero (hi : 502 ≤ i ∧ i < 526 ∨ 542 ≤ i ∧ i < 4048 ∨ 4056 ≤ i ∧ i < 4080)
    : (a.createdSb xxh64 creationTime).bytes[i]? = some 0 := by
  rcases hi with hi | hi | hi
  · exact Superblock.getElem?_sealed_zero xxh64 (Or.inl hi)
  · rw [createdSb, Superblock.getElem?_sealed xxh64 (by omega),
      getElem?_ofFields (by unfold sbSize; omega), Image.byte_writeAll_apart fun w hw ↦ ?_]
    · rfl
    · have hplace : (w.1, w.2.length) ∈
          (a.sbFields creationTime).map fun w ↦ (w.1, w.2.length) := List.mem_map_of_mem hw
      have hbefore : ∀ place ∈ (a.sbFields creationTime).map fun w ↦ (w.1, w.2.length),
          place.1 + place.2 ≤ 542 := by
        rw [places_sbFields]
        decide
      exact Or.inr ((hbefore _ hplace).trans hi.1)
  · exact Superblock.getElem?_sealed_zero xxh64 (Or.inr hi)

theorem getElem?_createdSb_label (hi : 238 ≤ i ∧ i < 494) :
    (a.createdSb xxh64 creationTime).bytes[i]? = some (a.volumeLabel.getD (i - 238) 0) := by
  obtain ⟨k, rfl⟩ := Nat.exists_eq_add_of_le hi.1
  have hmem : (238, a.volumeLabel) ∈ a.sbFields creationTime := List.mem_of_getElem? (i := 25) rfl
  have hbyte : ((Image.zeros sbSize).writeAll (a.sbFields creationTime)).byte (238 + k) =
      a.volumeLabel.getD k 0 :=
    Image.byte_writeAll _ ascending_sbFields hmem (by rw [length_volumeLabel]; omega)
  rw [createdSb, Superblock.getElem?_sealed xxh64 (by omega),
    getElem?_ofFields (by unfold sbSize; omega), hbyte, Nat.add_sub_cancel_left]

/-- Behind its first zero the label is zero. -/
theorem volumeLabel_zero {k l : ℕ} (hzero : a.volumeLabel.getD k 0 = 0) (hle : k ≤ l) :
    a.volumeLabel.getD l 0 = 0 := by
  have hlabel : (a.label.take 255).length ≤ k := by
    by_contra hlt
    rw [Nat.not_le] at hlt
    rw [volumeLabel, List.getD_eq_getElem?_getD, List.getElem?_append_left hlt,
      List.getElem?_eq_getElem hlt, Option.getD_some] at hzero
    exact a.label_string (hzero ▸ List.mem_of_mem_take (List.getElem_mem hlt))
  rw [volumeLabel, List.getD_eq_getElem?_getD, List.getElem?_append_right (hlabel.trans hle),
    List.getElem?_replicate]
  split_ifs <;> rfl

/-- What is read as the superblock when it is longer than a block. -/
theorem Roomy.readSb_ne (h : a.Roomy) (hshort : a.blockSize < sbSize) :
    (a.image xxh64 creationTime).bytesAt 0 sbSize ≠ (a.createdSb xxh64 creationTime).bytes := by
  intro heq
  have hlarge := h.large
  unfold sbSize at hshort
  have hmem : (1, withChecksum xxh64 (btreeHeaderBody 0 2 a.blockSize 1 0)) ∈
      a.blocks xxh64 creationTime := headBlock_mem (i := 1) rfl
  have hlength : (withChecksum xxh64 (btreeHeaderBody 0 2 a.blockSize 1 0)).length = 90 := by
    rw [withChecksum, List.length_append, length_btreeHeaderBody, length_checksumBlock]
  -- the superblock goes on with the header of the catalog
  have hheader (j : ℕ) (hj : j < 90) (hinside : a.blockSize + j < 4080) :
      (a.createdSb xxh64 creationTime).bytes[a.blockSize + j]? =
        (withChecksum xxh64 (btreeHeaderBody 0 2 a.blockSize 1 0))[j]? := by
    have hblock := h.bytesAt_image hmem
    rw [Nat.one_mul, blockBytes_eq (by omega)] at hblock
    have hbyte := congrArg (fun bytes : List UInt8 ↦ bytes[j]?) hblock
    rw [Image.getElem?_bytesAt (by omega), List.getElem?_append_left (by omega)] at hbyte
    rw [← heq, Image.getElem?_bytesAt (by unfold sbSize; omega), Nat.zero_add, hbyte]
  rcases Nat.lt_or_ge a.blockSize 482 with hsmall | hbig
  · have htype := hheader 9 (by decide) (by omega)
    have hroot := hheader 12 (by decide) (by omega)
    rw [getElem?_createdSb_label (by omega)] at htype hroot
    have hzero : a.volumeLabel.getD (a.blockSize + 9 - 238) 0 = 0 := Option.some.inj htype
    rw [volumeLabel_zero hzero (by omega)] at hroot
    cases hroot
  · have hzone : ∃ j ∈ [0, 12, 30], 502 ≤ a.blockSize + j ∧ a.blockSize + j < 526 ∨
        542 ≤ a.blockSize + j ∧ a.blockSize + j < 4048 ∨
          4056 ≤ a.blockSize + j ∧ a.blockSize + j < 4080 := by
      simp only [List.mem_cons, List.not_mem_nil, or_false, exists_eq_or_imp, exists_eq_left]
      omega
    obtain ⟨j, hj, hzone⟩ := hzone
    have hlt : j < 90 := by
      simp only [List.mem_cons, List.not_mem_nil, or_false] at hj
      omega
    have hbyte := hheader j hlt (by omega)
    rw [getElem?_createdSb_zero hzone] at hbyte
    simp only [List.mem_cons, List.not_mem_nil, or_false] at hj
    rcases hj with rfl | rfl | rfl
    · cases hbyte
    · cases hbyte
    · cases hbyte

/-- It is valid, and it is not the superblock that was written. -/
theorem Roomy.openSb_ne (h : a.Roomy) (hshort : a.blockSize < sbSize)
    (hdedup : a.dedupBlockSize ≠ 0) :
    openSb (a.image xxh64 creationTime) ≠ .ok (a.createdSb xxh64 creationTime) := by
  have hlarge := h.large
  have hsize : 6174 ≤ a.totalSize :=
    (Nat.mul_le_mul h.room h.large).trans (Nat.div_mul_le_self a.totalSize a.blockSize)
  have hmem : (0, (a.createdSb xxh64 creationTime).bytes) ∈ a.blocks xxh64 creationTime :=
    headBlock_mem (i := 0) rfl
  have hinside : 0 + sbSize ≤ (a.image xxh64 creationTime).size := by
    rw [h.size_image]
    unfold sbSize
    omega
  obtain ⟨sb, hread, hsb⟩ := exists_sbReadAt hinside
  have hfront : sb.bytes.take 64 = (a.createdSb xxh64 creationTime).bytes.take 64 := by
    have hblock := h.bytesAt_image hmem
    rw [Nat.zero_mul] at hblock
    have hread : fieldBytes sb.bytes 0 64 = (a.image xxh64 creationTime).bytesAt (0 + 0) 64 := by
      rw [← hsb, Image.fieldBytes_bytesAt (by unfold sbSize; omega)]
    have hwritten : fieldBytes ((a.image xxh64 creationTime).bytesAt 0 a.blockSize) 0 64 =
        (a.image xxh64 creationTime).bytesAt (0 + 0) 64 :=
      Image.fieldBytes_bytesAt (by omega)
    rw [← hread, hblock, blockBytes, fieldBytes_append_left, fieldBytes_take (by omega)] at hwritten
    · rwa [fieldBytes, fieldBytes, List.drop_zero, List.drop_zero, eq_comm] at hwritten
    · rw [List.length_take, Superblock.length_bytes]
      unfold sbSize
      omega
  have hvalid : sb.Valid :=
    (Superblock.valid_congr hfront).mpr
      ((valid_createdSb xxh64 creationTime a).mpr ⟨by omega, hdedup, by omega⟩)
  rw [openSb_of_valid hread hvalid]
  intro heq
  rw [Except.ok.inj heq] at hsb
  exact h.readSb_ne hshort hsb

/-! ### What a created volume is for -/

/-- The volume in a file is the one that was asked for: it has its superblock, the root directory
alone in both trees, and the marks of its layout, whose blocks are distinct and inside it. -/
structure Usable (xxh64 : List UInt8 → UInt64) (creationTime : ℕ) (a : CreateArgs) (img : Image)
    (ctx : OpenedCtx) : Prop where
  sb_eq : ctx.sb = a.createdSb xxh64 creationTime
  catalog : soleLeafRecords img ctx.sb ctx.catalogHdr catalogRecordSize = some [rootCatalogRecord]
  inodes : soleLeafRecords img ctx.sb ctx.inodeHdr inodeRecordSize =
    some [rootInodeRecord creationTime]
  bitmap : ∀ b, ctx.bitmapIsSet b = true ↔ b ∈ a.layout
  nodup : a.layout.Nodup
  inside : ∀ b ∈ a.layout, b < a.totalBlocks

theorem Roomy.usable (h : a.Roomy) {otherHdrs : List (List UInt8)} :
    Usable xxh64 creationTime a (a.image xxh64 creationTime)
      { sb := a.createdSb xxh64 creationTime
        readOnly := false
        catalogHdr := withChecksum xxh64 (btreeHeaderBody 0 2 a.blockSize 1 0)
        inodeHdr := withChecksum xxh64 (btreeHeaderBody 1 4 a.blockSize 1 1)
        otherHdrs := otherHdrs
        bitmap := a.markedBitmap
        nextFreeLba := a.reserved } where
  sb_eq := rfl
  catalog := h.soleLeafRecords_image (blockSize_createdSb xxh64 creationTime a)
    (rootNodeLba_withChecksum xxh64 (by decide)) (headBlock_mem (i := 2) rfl)
    length_rootCatalogRecord (by decide)
  inodes := h.soleLeafRecords_image (blockSize_createdSb xxh64 creationTime a)
    (rootNodeLba_withChecksum xxh64 (by decide)) (headBlock_mem (i := 4) rfl)
    (length_rootInodeRecord creationTime) (by decide)
  bitmap := h.bit_markedBitmap
  nodup := (pairwise_layout (reserved_lt h.large h.room)).imp Nat.ne_of_lt
  inside _ hb := lt_of_mem_layout (reserved_lt h.large h.room) hb

theorem roomy_of_create {img : Image} (hcreate : obmafs3Create xxh64 creationTime a = .ok img)
    (hroom : 18 ≤ a.totalBlocks) : a.Roomy := by
  unfold obmafs3Create at hcreate
  split_ifs at hcreate with hsize hzero hrecord hmarks
  exact ⟨Nat.not_le.mp hsize, Nat.not_lt.mp hrecord, hroom⟩

/-- A volume that was created is usable exactly when the superblock fits into a block, there is a
block size for deduplication, and there are 18 blocks. -/
theorem created_usable_iff {img : Image}
    (userIndexLoad : Image → Superblock → Except OpenError Unit)
    (hcreate : obmafs3Create xxh64 creationTime a = .ok img) :
    (∃ ctx, obmafs3Open xxh64 img userIndexLoad = .ok ctx ∧ Usable xxh64 creationTime a img ctx) ↔
      sbSize ≤ a.blockSize ∧ a.dedupBlockSize ≠ 0 ∧ 18 ≤ a.totalBlocks := by
  constructor
  · rintro ⟨ctx, hopen, husable⟩
    have hroom := room_of_layout husable.nodup husable.inside
    have hroomy := roomy_of_create hcreate hroom
    obtain rfl : a.image xxh64 creationTime = img :=
      Except.ok.inj (hroomy.obmafs3Create_eq.symm.trans hcreate)
    unfold obmafs3Open at hopen
    cases hsb : openSb (a.image xxh64 creationTime) with
    | error e => simp only [hsb, reduceCtorEq] at hopen
    | ok sb =>
      rw [hsb] at hopen
      obtain rfl : sb = a.createdSb xxh64 creationTime :=
        (sb_of_obmafs3OpenWith hopen).symm.trans husable.sb_eq
      have hvalid := (valid_createdSb xxh64 creationTime a).mp (valid_of_openSb hsb)
      refine ⟨?_, hvalid.2.1, hroom⟩
      by_contra hshort
      exact hroomy.openSb_ne (Nat.not_le.mp hshort) hvalid.2.1 hsb
  · rintro ⟨hfits, hdedup, hroom⟩
    have hroomy := roomy_of_create hcreate hroom
    obtain rfl : a.image xxh64 creationTime = img :=
      Except.ok.inj (hroomy.obmafs3Create_eq.symm.trans hcreate)
    obtain ⟨otherHdrs, hopen⟩ := hroomy.obmafs3Open_image hfits hdedup userIndexLoad
    exact ⟨_, hopen, hroomy.usable⟩

private theorem mebibyte_lt : 1048576 < 2 ^ 64 := by decide

private theorem dedupDefault_lt : 65536 < 2 ^ 64 := by decide

private theorem length_zeroGuid : (List.replicate 16 (0 : UInt8)).length = 16 :=
  List.length_replicate

private theorem emptyLabel_string : (0 : UInt8) ∉ [] := List.not_mem_nil

/-- A mebibyte in blocks of a size, without a label. -/
def mebibyte (blockSize : ℕ) (hlt : blockSize < 2 ^ 64) : CreateArgs where
  totalSize := 1048576
  blockSize := blockSize
  dedupBlockSize := 65536
  label := []
  guid := List.replicate 16 0
  totalSize_lt := mebibyte_lt
  blockSize_lt := hlt
  dedupBlockSize_lt := dedupDefault_lt
  label_string := emptyLabel_string
  length_guid := length_zeroGuid

/-- The default block size. -/
theorem created_usable_iff_default :
    ∃ ctx, obmafs3Open XxHash.xxh64 ((mebibyte 4096 (by decide)).image XxHash.xxh64 0)
      (fun _ _ ↦ .ok ()) = .ok ctx ∧
      Usable XxHash.xxh64 0 (mebibyte 4096 (by decide))
        ((mebibyte 4096 (by decide)).image XxHash.xxh64 0) ctx :=
  (created_usable_iff (fun _ _ ↦ .ok ())
    (Roomy.obmafs3Create_eq ⟨by decide, by decide, by decide⟩)).mpr
    ⟨by decide, by decide, by decide⟩

/-- Blocks of 512 bytes: the volume is created, and not opened as it was created. -/
theorem created_usable_iff_short : obmafs3Create XxHash.xxh64 0 (mebibyte 512 (by decide)) =
        .ok ((mebibyte 512 (by decide)).image XxHash.xxh64 0) ∧
      ¬∃ ctx, obmafs3Open XxHash.xxh64 ((mebibyte 512 (by decide)).image XxHash.xxh64 0)
        (fun _ _ ↦ .ok ()) = .ok ctx ∧
        Usable XxHash.xxh64 0 (mebibyte 512 (by decide))
          ((mebibyte 512 (by decide)).image XxHash.xxh64 0) ctx := by
  have hroomy : (mebibyte 512 (by decide)).Roomy := ⟨by decide, by decide, by decide⟩
  refine ⟨hroomy.obmafs3Create_eq, ?_⟩
  rintro ⟨ctx, hopen, husable⟩
  unfold obmafs3Open at hopen
  cases hsb : openSb ((mebibyte 512 (by decide)).image XxHash.xxh64 0) with
  | error e => simp only [hsb, reduceCtorEq] at hopen
  | ok sb =>
    rw [hsb] at hopen
    obtain rfl : sb = (mebibyte 512 (by decide)).createdSb XxHash.xxh64 0 :=
      (sb_of_obmafs3OpenWith hopen).symm.trans husable.sb_eq
    exact hroomy.openSb_ne (by decide) (by decide) hsb

end CreateArgs

end Obmafs3
