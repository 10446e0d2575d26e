import Obmafs3.Mount.Create

/-!
# Opening a volume

`obmafs3_open` takes a superblock, refuses a volume of a newer revision or with unknown incompatible
features, reads the headers of the trees, each with its magic number and checksum, and then the
allocation bitmap.
-/

set_option autoImplicit false

namespace Obmafs3

open Library.ByteImage

/-- The errors of `obmafs3_open`: those that other functions of the library have too, and its own. -/
inductive OpenError
  | lib (e : ErrorCode)
  | checksum
  | revision
  | incompat
  deriving DecidableEq, Repr

namespace Superblock

variable (sb : Superblock)

def bitmapLba : ℕ := sb.field 154 8

def bitmapBlocks : ℕ := sb.field 162 8

def revision : ℕ := sb.field 210 4

def rocompatFlags : ℕ := sb.field 222 8

def incompatibleFlags : ℕ := sb.field 230 8

def userIndexRegistryLba : ℕ := sb.field 558 8

/-- The LBAs of the headers that are read when they are not zero: of the overflow, media tag, CD
prefix, CD suffix, CD subchannel, metadata, metadata index, refcount, sector tag data, sector tag
reference, junk map and numeric metadata index trees. -/
def optionalHeaderLbas : List ℕ :=
  [sb.field 64 8, sb.field 88 8, sb.field 96 8, sb.field 104 8, sb.field 112 8, sb.field 80 8,
    sb.field 120 8, sb.field 128 8, sb.field 526 8, sb.field 534 8, sb.field 542 8, sb.field 550 8]

end Superblock

/-- What `obmafs3_open` loads. The headers are their bytes. -/
structure OpenedCtx where
  sb : Superblock
  readOnly : Bool
  catalogHdr : List UInt8
  inodeHdr : List UInt8
  otherHdrs : List (List UInt8)
  bitmap : List UInt8
  nextFreeLba : ℕ

section Reads

variable (xxh64 : List UInt8 → UInt64) (img : Image) (sb : Superblock)

/-- `obmafs3_block_read` of a whole block. -/
def readBlock (lba : ℕ) : Except OpenError (List UInt8) :=
  if 2 ^ 63 ≤ lba * sb.blockSize % 2 ^ 64 then .error (.lib .io)
  else
    match img.pread (lba * sb.blockSize % 2 ^ 64) sb.blockSize with
    | none => .error (.lib .io)
    | some block => .ok block

/-- `obmafs3_btree_header_read`. A header that is longer than a block is copied from behind it. -/
def btreeHeaderRead (lba : ℕ) : Except OpenError (List UInt8) := do
  let buf ← readBlock img sb lba
  let hdr := buf.take btreeHeaderSize
  if sb.blockSize < btreeHeaderSize then .error (.lib .corrupt)
  else if number (fieldBytes hdr 0 8) ≠ btreeHdrMagic then .error (.lib .badMagic)
  else if fieldBytes hdr 58 32 ≠ checksumBlock xxh64 (overwrite hdr 58 (List.replicate 32 0)) then
    .error .checksum
  else .ok hdr

/-- The blocks of the bitmap behind the first one, as the loop of `obmafs3_bitmap_read` copies
them. -/
def bitmapReadRest : (lba n remaining : ℕ) → Except OpenError (List UInt8)
  | _, 0, _ => .ok []
  | lba, n + 1, remaining => do
    let block ← readBlock img sb lba
    let rest ← bitmapReadRest (lba + 1) n (remaining - sb.blockSize)
    .ok (block.take (min remaining sb.blockSize) ++ rest)

/-- `obmafs3_bitmap_read`: the bitmap and the LBA at which searches begin. -/
def bitmapRead : Except OpenError (List UInt8 × ℕ) := do
  let bitmapBytes := (sb.totalBytes / sb.blockSize + 7) / 8
  let block ← readBlock img sb sb.bitmapLba
  if sb.blockSize < NodeSpans.bitmapHeaderSize then .error (.lib .corrupt)
  else if number (fieldBytes block 0 8) ≠ bitmapMagic then .error (.lib .badMagic)
  else
    let avail := sb.blockSize - NodeSpans.bitmapHeaderSize
    let first := fieldBytes block NodeSpans.bitmapHeaderSize (min bitmapBytes avail)
    let rest ← bitmapReadRest img sb (sb.bitmapLba + 1) (sb.bitmapBlocks - 1) (bitmapBytes - avail)
    let bitmap := first ++ rest
    let bitmap := bitmap ++ List.replicate (bitmapBytes - bitmap.length) 0
    if fieldBytes block 24 32 ≠ checksumBlock xxh64 bitmap then .error .checksum
    else .ok (bitmap, number (fieldBytes block 16 8))

/-- The bitmap, when there is one. -/
def loadBitmap : Except OpenError (List UInt8 × ℕ) :=
  if sb.bitmapLba ≠ 0 ∧ sb.bitmapBlocks ≠ 0 then bitmapRead xxh64 img sb else .ok ([], 0)

/-- The indexes of the user, when there is a registry of them. `userIndexLoad` is
`obmafs3_user_index_load`. -/
def loadUserIndexes (userIndexLoad : Image → Superblock → Except OpenError Unit) :
    Except OpenError Unit :=
  if sb.userIndexRegistryLba ≠ 0 then userIndexLoad img sb else .ok ()

/-- `obmafs3_open`: what comes behind the choice of the superblock. -/
def obmafs3OpenWith (userIndexLoad : Image → Superblock → Except OpenError Unit) :
    Except OpenError OpenedCtx :=
  if 20260224 < sb.revision then .error .revision
  else if sb.incompatibleFlags &&& (2 ^ 64 - 1 - 1) ≠ 0 then .error .incompat
  else do
    let catalogHdr ← btreeHeaderRead xxh64 img sb sb.catalogLba
    let inodeHdr ← btreeHeaderRead xxh64 img sb sb.inodeLba
    let otherHdrs ← (sb.optionalHeaderLbas.filter (· ≠ 0)).mapM (btreeHeaderRead xxh64 img sb)
    loadUserIndexes img sb userIndexLoad
    let (bitmap, nextFreeLba) ← loadBitmap xxh64 img sb
    .ok
      { sb := sb
        readOnly := sb.rocompatFlags &&& (2 ^ 64 - 1 - 31) ≠ 0
        catalogHdr := catalogHdr
        inodeHdr := inodeHdr
        otherHdrs := otherHdrs
        bitmap := bitmap
        nextFreeLba := nextFreeLba }

/-- `obmafs3_open`. -/
def obmafs3Open (userIndexLoad : Image → Superblock → Except OpenError Unit) :
    Except OpenError OpenedCtx :=
  match openSb img with
  | .error e => .error (.lib e)
  | .ok sb => obmafs3OpenWith xxh64 img sb userIndexLoad

end Reads

/-! ### What a volume holds -/

namespace OpenedCtx

/-- `obmafs3_bitmap_is_set`. -/
def bitmapIsSet (ctx : OpenedCtx) (lba : ℕ) : Bool :=
  (ctx.bitmap.getD (lba / 8) 0).toNat.testBit (lba % 8)

end OpenedCtx

/-- The records of a tree, `size` bytes each, when its root is a leaf and the only one. -/
def soleLeafRecords (img : Image) (sb : Superblock) (hdr : List UInt8) (size : ℕ) :
    Option (List (List UInt8)) :=
  match readBlock img sb (number (fieldBytes hdr 12 8)) with
  | .error _ => none
  | .ok node =>
    if number (fieldBytes node 0 8) = btreeNodeMagic ∧ number (fieldBytes node 9 1) = 0 ∧
      number (fieldBytes node 10 8) = 0 ∧ number (fieldBytes node 18 8) = 0 then
      some ((List.range (number (fieldBytes node 34 2))).map fun i ↦
        fieldBytes node (btreeNodeHeaderSize + i * size) size)
    else none

theorem bind_eq_ok {α β ε : Type} {x : Except ε α} {f : α → Except ε β} {b : β} :
    x >>= f = .ok b ↔ ∃ a, x = .ok a ∧ f a = .ok b := by
  cases x with
  | error e => exact ⟨nofun, fun ⟨_, h, _⟩ ↦ nomatch h⟩
  | ok a => exact ⟨fun h ↦ ⟨a, rfl, h⟩, fun ⟨_, h, hf⟩ ↦ Except.ok.inj h ▸ hf⟩

/-- The superblock that is gone on with is the one that is loaded. -/
theorem sb_of_obmafs3OpenWith {xxh64 : List UInt8 → UInt64} {img : Image} {sb : Superblock}
    {userIndexLoad : Image → Superblock → Except OpenError Unit} {ctx : OpenedCtx}
    (hopen : obmafs3OpenWith xxh64 img sb userIndexLoad = .ok ctx) : ctx.sb = sb := by
  unfold obmafs3OpenWith at hopen
  split_ifs at hopen
  obtain ⟨catalogHdr, -, hopen⟩ := bind_eq_ok.mp hopen
  obtain ⟨inodeHdr, -, hopen⟩ := bind_eq_ok.mp hopen
  obtain ⟨otherHdrs, -, hopen⟩ := bind_eq_ok.mp hopen
  obtain ⟨-, -, hopen⟩ := bind_eq_ok.mp hopen
  obtain ⟨⟨bitmap, nextFreeLba⟩, -, hopen⟩ := bind_eq_ok.mp hopen
  exact (Except.ok.inj hopen) ▸ rfl

end Obmafs3
