import Obmafs3.Defrag.Placement
import Obmafs3.Library.Loop

/-!
# The compactor moves dedup blocks

The third phase of `defrag_compact.c` packs the dedup blocks behind the file data. It goes through
the blocks with two cursors: the write cursor stands where the next dedup block will lie, and the
scan finds it. How many blocks it has stands in its header. What lies in the target is moved to the
end of the volume first, by the header that is found there, and then the dedup block is copied,
whether or not the target has become free.

The volume ends with its last block. Reads and writes inside it do not fail, copies that would go
over its end do, allocations of memory do not fail, and the phase is not cancelled.
-/

set_option autoImplicit false

namespace Obmafs3.Defrag

open Library.Runs Library.Loop

/-- The number of blocks of a dedup block by its header, as a `uint64_t`. -/
def storedBlocks (blockSize : ℕ) (header : BlockHeader) : ℕ :=
  let payload := if header.compressed then header.compressedSize else header.originalSize
  (blockHeaderSize + payload + blockSize - 1) % 2 ^ 64 / blockSize

/-- `std_per_dedup`. -/
def stdPerDedup (dedupBlockSize blockSize : ℕ) : ℕ := max 1 (dedupBlockSize / blockSize)

/-- Where `compact_dedup_blocks` stands: in front of a turn of its loop, or in the turn for a dedup
block of `count` blocks, with the obstacles in front of a slot of the target done, or at its end. -/
inductive DedupStage
  | scanning
  | evicting (count slot : ℕ)
  | done
  | failed
  deriving DecidableEq, Repr

/-- The state of the phase. `evicts` are the moves that `RECORD_EVICT` records. -/
structure DedupState where
  st : CompactState
  scan : ℕ
  evicts : List (ℕ × ℕ)
  stage : DedupStage

namespace CompactState

/-- Go past file data and metadata. -/
def skipUsed (st : CompactState) : CompactState :=
  { st with
    writeCursor := runEnd (fun lba ↦ st.blockTypes lba = .used ∨ st.blockTypes lba = .metadata)
      (st.totalBlocks - st.writeCursor) st.writeCursor }

/-- The first dedup block from an address on, or the end of the volume. -/
def nextDedup (start : ℕ) (st : CompactState) : ℕ :=
  runEnd (fun lba ↦ !st.isDedup lba) (st.totalBlocks - start) start

/-- The number of blocks of a fragment without a header. -/
def fragmentBlocks (stdPerDedup start : ℕ) (st : CompactState) : ℕ :=
  runEnd st.isDedup (min (st.totalBlocks - (start + 1)) (stdPerDedup - 1)) (start + 1) - start

/-- Copy a dedup block down. The marks of its old place are taken off before those of the new one
are set, for the two can overlap. -/
def moveDown (src dst count : ℕ) (st : CompactState) : CompactState :=
  { st with
    disk := copy src dst count st.disk
    bitmap := fill dst count true (fill src count false st.bitmap)
    blockTypes := fill dst count .dedup (fill src count .free st.blockTypes)
    relocs := if src ≠ dst then st.relocs ++ [(src, dst)] else st.relocs
    writeCursor := dst + count }

end CompactState

/-- What stands at a slot of the target. -/
inductive Obstacle
  /-- No block, one of the source, one without a mark, or a free one. -/
  | nothing
  /-- Nothing with a header; the dedup blocks there end at an address. -/
  | fragment (fragEnd : ℕ)
  /-- Something with a header for which there is no place, or that reaches over the end. -/
  | stays (rangeCursor : ℕ)
  /-- Something with a header and a place for it. -/
  | moves (base dst blocks rangeCursor : ℕ)

namespace DedupState

/-- The block at a slot of the target. -/
def target (s : DedupState) (slot : ℕ) : ℕ := s.st.writeCursor + slot

/-- The eviction of one obstacle, up to the move of its blocks. -/
def obstacle (s : DedupState) (count slot : ℕ) : Obstacle :=
  if InRun s.scan count (s.target slot) ∨ s.st.totalBlocks ≤ s.target slot ∨
      ¬s.st.bitmap (s.target slot) ∨ s.st.blockTypes (s.target slot) = .free then .nothing
  else
    let base := runStart s.st.isDedup (s.target slot)
    match (s.st.disk base).header with
    | none => .fragment (runEnd s.st.isDedup (s.st.totalBlocks - base) base)
    | some header =>
      let blocks := storedBlocks s.st.blockSize header
      let found := s.st.findFreeRangeAtEnd blocks (s.st.writeCursor + count)
      if found.1 = 0 ∨ s.st.totalBlocks < base + blocks then .stays found.2
      else .moves base found.1 blocks found.2

/-- One turn of the loop over the obstacles. A block that stays ends the loop; the write cursor that
is put behind it is set again by the move. The loop does nothing when there is no obstacle, so that
`need_evict` only saves a pass. -/
def evictSlot (s : DedupState) (count slot : ℕ) : DedupState :=
  match s.obstacle count slot with
  | .nothing => { s with stage := .evicting count (slot + 1) }
  | .fragment fragEnd =>
    { s with stage := .evicting count (CompactState.nextSlot s.st.writeCursor slot fragEnd 0) }
  | .stays rangeCursor =>
    { s with st := { s.st with rangeCursor := rangeCursor }, stage := .evicting count count }
  | .moves base dst blocks rangeCursor =>
    { s with
      st := ({ s.st with rangeCursor := rangeCursor } : CompactState).relocate base dst blocks .dedup
      evicts := s.evicts ++ [(base, dst)]
      stage := .evicting count (CompactState.nextSlot s.st.writeCursor slot base blocks) }

/-- The move of the dedup block. -/
def moveRun (s : DedupState) (count : ℕ) : DedupState :=
  if s.st.totalBlocks < s.scan + count then { s with stage := .failed }
  else
    { s with
      st := s.st.moveDown s.scan s.st.writeCursor count
      scan := s.scan + count
      stage := .scanning }

/-- The write cursor stands at a dedup block. -/
def AtDedup (s : DedupState) : Prop :=
  s.st.skipUsed.writeCursor < s.st.totalBlocks ∧ s.st.isDedup s.st.skipUsed.writeCursor

instance (s : DedupState) : Decidable s.AtDedup := inferInstanceAs (Decidable (_ ∧ _))

/-- Where the scan goes on to. -/
def nextScan (s : DedupState) : ℕ :=
  s.st.skipUsed.nextDedup (max s.scan (s.st.skipUsed.writeCursor + 1))

/-- One turn of the loop of `compact_dedup_blocks`, up to the obstacles. -/
def turn (dedupBlockSize : ℕ) (s : DedupState) : DedupState :=
  let st := s.st.skipUsed
  if s.AtDedup then { s with st := { st with writeCursor := st.writeCursor + 1 } }
  else
    let scan := s.nextScan
    if st.totalBlocks ≤ scan then { s with st := st, scan := scan, stage := .done }
    else
      match (st.disk scan).header with
      | none =>
        let count := st.fragmentBlocks (stdPerDedup dedupBlockSize st.blockSize) scan
        { s with st := st.release scan count, scan := scan + count }
      | some header =>
        let count := min (storedBlocks st.blockSize header) (stdPerDedup dedupBlockSize st.blockSize)
        { s with st := st, scan := scan, stage := .evicting count 0 }

/-- One step of `compact_dedup_blocks`. -/
def step (dedupBlockSize : ℕ) (s : DedupState) : DedupState :=
  match s.stage with
  | .scanning => s.turn dedupBlockSize
  | .evicting count slot => if count ≤ slot then s.moveRun count else s.evictSlot count slot
  | .done | .failed => s

/-- The state in which `compact_dedup_blocks` begins. -/
def start (st : CompactState) : DedupState := ⟨st, st.writeCursor, [], .scanning⟩

/-- The phase is over. -/
def Over (s : DedupState) : Prop := s.stage = .done ∨ s.stage = .failed

/-- The blocks of a run are free or dedup blocks. -/
def Yields (s : DedupState) (start count : ℕ) : Prop :=
  ∀ lba, InRun start count lba → s.st.immovable lba = false

/-- The next step copies a dedup block, and onto file data, metadata or a tree node. -/
def Overwrites (s : DedupState) : Prop :=
  match s.stage with
  | .evicting count slot =>
    if count ≤ slot then s.scan + count ≤ s.st.totalBlocks ∧ ¬s.Yields s.st.writeCursor count
    else
      match s.obstacle count slot with
      | .moves _ dst blocks _ => ¬s.Yields dst blocks
      | _ => False
  | _ => False

/-- `compact_dedup_blocks` finishes, and no dedup block is copied onto file data, metadata or a tree
node. -/
def Finishes (dedupBlockSize : ℕ) (st : CompactState) : Prop :=
  Fine (step dedupBlockSize) Over Overwrites (start st)

/-- What a step needs. The header of a dedup block that is to be moved does not give it no blocks. File
data, metadata and tree nodes in the target, when the copy does not go over the end of the volume, are
not part of the source, carry a mark, and lie behind a header whose blocks find a place at the end;
without a header only the first slot is not tried for ever. That place holds neither, and what is
moved has blocks, or ends in front of the target. -/
def Orderly (s : DedupState) : Prop :=
  match s.stage with
  | .scanning =>
    ∀ header, ¬s.AtDedup → s.nextScan < s.st.totalBlocks →
      (s.st.disk s.nextScan).header = some header → 0 < storedBlocks s.st.blockSize header
  | .evicting count slot =>
    slot < count →
      match s.obstacle count slot with
      | .nothing => s.scan + count ≤ s.st.totalBlocks → s.st.immovable (s.target slot) = false
      | .fragment _ =>
        s.scan + count ≤ s.st.totalBlocks ∨ 0 < slot → s.st.immovable (s.target slot) = false
      | .stays _ => s.scan + count ≤ s.st.totalBlocks → s.Yields (s.target slot) (count - slot)
      | .moves base dst blocks _ =>
        s.Yields dst blocks ∧
          if s.st.writeCursor < base + blocks then 0 < blocks
          else s.scan + count ≤ s.st.totalBlocks → s.st.immovable (s.target slot) = false
  | _ => True

end DedupState

end Obmafs3.Defrag
