import Obmafs3.Library.Runs
import Obmafs3.Dedup.TreeList

/-!
# The compactor moves file data

The second phase of `defrag_compact.c` packs the extents of the files toward the start of the
volume. It goes through the extents of the inode records in the order of the leaves, then through
the overflow extents in the order of their blocks, and moves each one down to the first place in
front of it that is free or holds dedup blocks. Dedup blocks in the way are moved to the end of the
volume first, and the move is recorded, for their references are updated later. What a block is
comes from an array that the analysis has filled in and the moves keep up to date.

The trees appear as their records, in the order in which the phase visits them. Reads and writes do
not fail, and allocations of memory do not either.
-/

set_option autoImplicit false

namespace Obmafs3.Defrag

open Library.Runs

/-! ### The volume -/

/-- What the analysis takes a block for: `BT_FREE`, `BT_USED`, `BT_TREE`, `BT_DEDUP`, `BT_META`. -/
inductive BlockType
  | free
  | used
  | tree
  | dedup
  | metadata
  deriving DecidableEq, Repr

/-- The fields of `struct block_header` that the compactor reads. -/
structure BlockHeader where
  compressed : Bool
  originalSize : ℕ
  compressedSize : ℕ
  deriving DecidableEq, Repr

/-- A tree node, or a free node with the address of the next one. -/
inductive NodeImage
  | node (left right level : ℕ) (children records : List ℕ)
  | free (next : ℕ) (data : List ℕ)
  deriving DecidableEq, Repr

/-- What a block holds: words, the header of a tree with its root and its free nodes, the list of the
dedup trees, or one of the blocks of a node. -/
inductive Content
  | words (data : List ℕ)
  | treeHeader (root freeNode freeNodes : ℕ) (fields : List ℕ)
  | treeList (entries : List TreeListEntry)
  | piece (image : NodeImage) (part : ℕ)
  deriving DecidableEq, Repr

/-- A block. `header` is there if the block begins with the magic of a block header. -/
structure DiskBlock where
  header : Option BlockHeader
  content : Content
  deriving DecidableEq, Repr

/-- `struct overflow_extent`. -/
structure OverflowExtent where
  inodeId : ℕ
  logicalOffset : ℕ
  run : ExtentRun
  deriving DecidableEq, Repr

/-- The state of the compactor. `rangeCursor` is the static cursor of `find_free_range_at_end`, and
`relocs` the moves of dedup blocks, the oldest first. -/
structure CompactState where
  blockSize : ℕ
  totalBlocks : ℕ
  disk : ℕ → DiskBlock
  bitmap : ℕ → Bool
  blockTypes : ℕ → BlockType
  writeCursor : ℕ
  rangeCursor : ℕ
  relocs : List (ℕ × ℕ)
  inodes : List InodeRecord
  overflow : List OverflowExtent

/-- The number of blocks of a dedup block, by its header. -/
def physBlocks (blockSize : ℕ) (header : BlockHeader) : ℕ :=
  let payload := if header.compressed then header.compressedSize else header.originalSize
  (blockHeaderSize + payload + blockSize - 1) / blockSize

namespace CompactState

/-- Copy a run of blocks to another place and mark it there and not here. The types are set block by
block, at the new place first. -/
def relocate (src dst count : ℕ) (type : BlockType) (st : CompactState) : CompactState :=
  { st with
    disk := copy src dst count st.disk
    bitmap := fill src count false (fill dst count true st.bitmap)
    blockTypes :=
      if src ≤ dst then fill src count .free (fill dst count type st.blockTypes)
      else fill dst count type (fill src count .free st.blockTypes) }

/-- Take the marks off a run of blocks. -/
def release (start count : ℕ) (st : CompactState) : CompactState :=
  { st with
    bitmap := fill start count false st.bitmap
    blockTypes := fill start count .free st.blockTypes }

/-! ### Searches -/

/-- The loop of `find_free_range_at_end`: the place and the cursor that it leaves. -/
def scanRangeAtEnd (bitmap : ℕ → Bool) (count notBefore : ℕ) : (fuel cursor : ℕ) → ℕ × ℕ
  | 0, cursor => (0, cursor)
  | fuel + 1, cursor =>
    if notBefore + count ≤ cursor then
      let base := cursor + 1 - count
      if (List.range count).all fun j ↦ !bitmap (base + j) then (base, base - 1)
      else if base = 0 then (0, 0)
      else scanRangeAtEnd bitmap count notBefore fuel (base - 1)
    else (0, cursor)

/-- `find_free_range_at_end`. The cursor moves down by a run at least in each round. -/
def findFreeRangeAtEnd (count notBefore : ℕ) (st : CompactState) : ℕ × ℕ :=
  scanRangeAtEnd st.bitmap count notBefore st.totalBlocks
    (if st.rangeCursor = 0 ∨ st.totalBlocks - 1 ≤ st.rangeCursor then st.totalBlocks - 2
    else st.rangeCursor)

/-- A block that a search does not move out of its way. -/
def immovable (st : CompactState) (lba : ℕ) : Bool :=
  match st.blockTypes lba with
  | .metadata | .tree | .used => true
  | .free | .dedup => false

/-- The first place for a run in front of a block: an immovable block in it moves the search past
it. -/
def usableRange (count notPast : ℕ) (st : CompactState) : (fuel pos : ℕ) → Option ℕ
  | 0, _ => none
  | fuel + 1, pos =>
    if pos + count ≤ st.totalBlocks ∧ pos + count ≤ notPast then
      match (List.range count).find? fun i ↦ st.immovable (pos + i) with
      | some i => usableRange count notPast st fuel (pos + i + 1)
      | none => some pos
    else none

def isDedup (st : CompactState) (lba : ℕ) : Bool := st.blockTypes lba = .dedup

/-- Move a dedup block to the end of the volume and record it. -/
def evict (base dst count : ℕ) (st : CompactState) : CompactState :=
  { st.relocate base dst count .dedup with relocs := st.relocs ++ [(base, dst)] }

/-- The slot that the eviction goes on with behind a dedup block. -/
def nextSlot (pos i base count : ℕ) : ℕ :=
  if pos < base + count then base + count - pos else i + 1

/-- The eviction of the dedup blocks in a run, and the place that is returned for it; `none` when it
never ends. The block that a slot belongs to begins where the dedup blocks begin that lie next to
each other there. A block that finds no place stays where it is. Where no header is found, the place
behind the dedup blocks is returned as it is. -/
def evictRange (pos count : ℕ) : (fuel i : ℕ) → CompactState → Option (ℕ × CompactState)
  | 0, _, _ => none
  | fuel + 1, i, st =>
    if count ≤ i then some (pos, st)
    else if ¬st.isDedup (pos + i) then evictRange pos count fuel (i + 1) st
    else
      let base := runStart st.isDedup (pos + i)
      match (st.disk base).header with
      | none =>
        let fragEnd := runEnd st.isDedup (st.totalBlocks - base) base
        some (fragEnd, st.release base (fragEnd - base))
      | some header =>
        let blocks := physBlocks st.blockSize header
        let found := st.findFreeRangeAtEnd blocks (pos + count)
        let st := { st with rangeCursor := found.2 }
        let i := nextSlot pos i base blocks
        if found.1 = 0 then evictRange pos count fuel i st
        else evictRange pos count fuel i (st.evict base found.1 blocks)

/-- Enough rounds for an eviction that ends. An eviction leaves fewer dedup blocks in front of the
end of the run. A round without one changes the slot and the cursor only, and if both are met again
before the next eviction, there is none. -/
def evictRounds (count : ℕ) (st : CompactState) : ℕ :=
  (st.totalBlocks + 1) * ((count + 1) * (st.totalBlocks + 1))

/-- `find_free_range`; `none` when it never ends. The place is 0 when there is none. -/
def findFreeRange (start count notPast : ℕ) (st : CompactState) : Option (ℕ × CompactState) :=
  match st.usableRange count notPast (st.totalBlocks + 1) start with
  | none => some (0, st)
  | some pos => evictRange pos count (st.evictRounds count) 0 st

/-! ### Moving extents -/

/-- An extent that the phase looks at: one of an inode record, or an overflow extent. -/
inductive Slot
  | inline (inode extent : ℕ)
  | overflow (i : ℕ)
  deriving DecidableEq, Repr

def run (st : CompactState) : Slot → Option ExtentRun
  | .inline inode extent => st.inodes[inode]?.bind fun record ↦ record.extents[extent]?
  | .overflow i => st.overflow[i]?.map OverflowExtent.run

/-- Rewrite the start of an extent. The overflow records are rewritten when all have been looked
at, from copies that have the starts. -/
def setStart (start : ℕ) (st : CompactState) : Slot → CompactState
  | .inline inode extent =>
    { st with
      inodes := st.inodes.modify inode fun record ↦
        { record with
          extents := record.extents.modify extent fun e ↦ { e with startBlock := start } } }
  | .overflow i =>
    { st with
      overflow := st.overflow.modify i fun record ↦
        { record with run := { record.run with startBlock := start } } }

/-- `move_extent`. -/
def moveExtent (slot : Slot) (e : ExtentRun) (dst : ℕ) (st : CompactState) : CompactState :=
  (st.relocate e.startBlock dst e.blockCount .used).setStart dst slot

/-- Whether an extent that finds no place holds up the cursor: an overflow extent does. -/
def Slot.holdsCursor : Slot → Bool
  | .inline .. => false
  | .overflow _ => true

/-- One turn of the loops of `compact_data_blocks`; `none` when a search never ends. -/
def placeExtent (slot : Slot) (e : ExtentRun) (st : CompactState) : Option CompactState :=
  let finish := e.startBlock + e.blockCount
  if e.startBlock ≤ st.writeCursor then
    some { st with writeCursor := max st.writeCursor finish }
  else
    match st.findFreeRange st.writeCursor e.blockCount e.startBlock with
    | none => none
    | some (dst, st) =>
      if dst = 0 then
        some { st with writeCursor := if slot.holdsCursor then finish else st.writeCursor }
      else if dst = e.startBlock then some { st with writeCursor := finish }
      else some { st.moveExtent slot e dst with writeCursor := dst + e.blockCount }

/-- Slots without blocks are passed over. -/
def placeSlot (slot : Slot) (st : CompactState) : Option CompactState :=
  match st.run slot with
  | none => some st
  | some e =>
    if e.startBlock = 0 ∨ e.blockCount = 0 then some st else st.placeExtent slot e

def placeSlots : List Slot → CompactState → Option CompactState
  | [], st => some st
  | slot :: slots, st => (st.placeSlot slot).bind (placeSlots slots)

/-- The extents of the inode records in the order of the leaves. -/
def inlineSlots (st : CompactState) : List Slot :=
  st.inodes.zipIdx.flatMap fun (record, inode) ↦
    (List.range record.extents.length).map (Slot.inline inode)

/-- The overflow extents in the order of their blocks. -/
def overflowSlots (st : CompactState) : List Slot :=
  (st.overflow.zipIdx.insertionSort fun a b ↦ a.1.run.startBlock ≤ b.1.run.startBlock).map
    fun (_, i) ↦ Slot.overflow i

/-- The extents that the phase looks at: all of them, or the first `n` if it sees the cancel flag
set after these. -/
def dataSlots (seen : Option ℕ) (st : CompactState) : List Slot :=
  match seen with
  | some n => (st.inlineSlots ++ st.overflowSlots).take n
  | none => st.inlineSlots ++ st.overflowSlots

/-- `compact_data_blocks`, on a volume with an inode tree. -/
def compactDataBlocks (seen : Option ℕ) (st : CompactState) : Option CompactState :=
  placeSlots (st.dataSlots seen) { st with writeCursor := 1 }

end CompactState

end Obmafs3.Defrag
