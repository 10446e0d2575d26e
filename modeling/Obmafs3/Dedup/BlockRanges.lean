import Obmafs3.Dedup.Handles

/-!
# Where dedup blocks are written

The same writers as in `Obmafs3.Dedup.BlockStore`, for any block size, dedup block size and sector
size that a volume can be made with. Three roundings meet here: the blocks allocated for a dedup
block are the size of a dedup block over that of a block, rounded down; the blocks written are the
size of the image over that of a block, rounded up; and a sector has room when it ends inside the
dedup block, which is looked at only when it goes behind other sectors.

The bytes are left out: a sector is its length, and what the compressor makes of a full block comes
with the step. Calls of writers are atomic and writes to the disk succeed.
-/

set_option autoImplicit false

namespace Obmafs3.BlockRanges

open Function (update update_of_ne update_self)

/-- The sizes of a volume. -/
structure BlockSizes where
  blockSize : ℕ
  dedupBlockSize : ℕ
  blockSize_pos : 0 < blockSize
  dedupBlockSize_lt : dedupBlockSize < 2 ^ 64

/-- `struct dedup_block_ctx`. -/
structure BlockCtx where
  blockLba : ℕ
  offset : ℕ
  hasData : Bool
  dirty : Bool

/-- A sector copied into the buffer of a dedup block. -/
structure Placed where
  lba : ℕ
  offset : ℕ
  length : ℕ

/-- A write of standard blocks, with the blocks that were allocated for the dedup block then. -/
structure Written where
  lba : ℕ
  count : ℕ
  allocated : ℕ → Bool

/-- What the open files share. `owner` is the dedup block for which a standard block is allocated. -/
structure Ranges where
  vol : Volume
  owner : ℕ → Option ℕ
  lastBlockLba : ℕ
  lastBlockOffset : ℕ
  stored : List Placed
  written : List Written

/-- The state of a call. `job` are the trailing blocks of the block that the pool has last been
given, which are freed when the call waits for the pool. -/
structure CallState where
  ranges : Ranges
  db : BlockCtx
  job : Option (ℕ × ℕ)

/-- A sector to store, and the size to which the compressor brings the block that the sector finds
full. -/
structure NewSector where
  length : ℕ
  packed : Option ℕ

/-- How the read of the last block goes: it fails, or what it finds is a header that makes sense or
one that does not. -/
inductive InitRead
  | failed
  | intact
  | corrupt
  deriving DecidableEq

section Calls

variable (g : BlockSizes)

/-- `db->std_blocks`. -/
def BlockSizes.stdBlocks : ℕ := g.dedupBlockSize / g.blockSize

/-- `bhdr.original_size`, a difference of 64-bit words. -/
def originalSize (offset : ℕ) : ℕ := (offset + (2 ^ 64 - blockHeaderSize)) % 2 ^ 64

/-- `write_size`: the compressed payload is taken when it is shorter. -/
def writeSize (offset : ℕ) (packed : Option ℕ) : ℕ :=
  match packed with
  | some compSize => if compSize < originalSize offset then blockHeaderSize + compSize else offset
  | none => offset

def BlockSizes.neededStd (size : ℕ) : ℕ := (size + g.blockSize - 1) / g.blockSize

def Ranges.blockWrite (ranges : Ranges) (lba count : ℕ) : Ranges :=
  { ranges with
    written :=
      ⟨lba, count, fun b ↦ ranges.vol.bitmap b && decide (ranges.owner b = some lba)⟩ ::
        ranges.written }

/-- `obmafs3_alloc_blocks` for a dedup block. -/
def Ranges.allocDedupBlock (ranges : Ranges) : Option (ℕ × Ranges) :=
  match ranges.vol.allocBlocks g.stdBlocks with
  | none => none
  | some (start, vol) =>
    some (start,
      { ranges with
        vol
        owner := fun b ↦
          if start ≤ b ∧ b < start + g.stdBlocks then some start else ranges.owner b })

/-- `dedup_block_init`. -/
def dedupBlockInit (read : InitRead) (ranges : Ranges) : Option BlockCtx :=
  if ranges.lastBlockLba ≠ 0 then
    match read with
    | .failed => none
    | .intact => some ⟨ranges.lastBlockLba, ranges.lastBlockOffset, true, false⟩
    | .corrupt => some ⟨ranges.lastBlockLba, 0, true, false⟩
  else some ⟨0, 0, true, false⟩

/-- `dedup_block_flush`. -/
def dedupBlockFlush (packed : Option ℕ) (ranges : Ranges) (db : BlockCtx) : Ranges × BlockCtx :=
  if db.dirty = true ∧ db.blockLba ≠ 0 then
    (ranges.blockWrite db.blockLba (g.neededStd (writeSize db.offset packed)),
      { db with dirty := false })
  else (ranges, db)

/-- `dedup_bg_wait`. -/
def dedupBgWait (w : CallState) : CallState :=
  match w.job with
  | none => w
  | some (lba, count) =>
    { w with
      ranges := { w.ranges with vol := w.ranges.vol.freeBlocks lba count }
      job := none }

/-- `dedup_bg_submit`. The trailing blocks do not belong to the block any more. -/
def dedupBgSubmit (packed : Option ℕ) (w : CallState) : CallState :=
  let needed := g.neededStd (writeSize w.db.offset packed)
  let ranges := w.ranges.blockWrite w.db.blockLba needed
  if needed < g.stdBlocks then
    { w with
      ranges :=
        { ranges with
          owner := fun b ↦
            if w.db.blockLba + needed ≤ b ∧ b < w.db.blockLba + g.stdBlocks then none
            else ranges.owner b }
      job := some (w.db.blockLba + needed, g.stdBlocks - needed) }
  else { w with ranges, job := none }

/-- `dedup_block_new`. Without a buffer it does not come back. -/
def dedupBlockNew (packed : Option ℕ) (w : CallState) : Option (Option ErrorCode × CallState) :=
  let (ranges, db) := dedupBlockFlush g packed w.ranges w.db
  match ranges.allocDedupBlock g with
  | none => some (some .noSpc, { w with ranges, db })
  | some (start, ranges) =>
    if db.hasData then
      some (none, { w with ranges, db := ⟨start, blockHeaderSize, true, false⟩ })
    else none

/-- The first part of `dedup_block_store`, which sees to it that the sector has room. -/
def dedupBlockRoom (pool : Bool) (s : NewSector) (w : CallState) :
    Option (Option ErrorCode × CallState) :=
  if w.db.blockLba = 0 then dedupBlockNew g s.packed w
  else if w.db.offset + s.length ≤ g.dedupBlockSize then some (none, w)
  else if pool then
    let w := dedupBgSubmit g s.packed (dedupBgWait w)
    match w.ranges.allocDedupBlock g with
    | none =>
      some (some .noSpc, { w with db := ⟨0, w.db.offset, false, false⟩ })
    | some (start, ranges) =>
      some (none, { w with ranges, db := ⟨start, blockHeaderSize, true, false⟩ })
  else
    let (ranges, db) := dedupBlockFlush g s.packed w.ranges w.db
    dedupBlockNew g s.packed { w with ranges, db }

/-- The second part of `dedup_block_store`, which copies the sector to the end of the payload. -/
def appendSector (length : ℕ) (w : CallState) : CallState :=
  { w with
    ranges :=
      { w.ranges with stored := ⟨w.db.blockLba, w.db.offset, length⟩ :: w.ranges.stored }
    db := { w.db with offset := w.db.offset + length, dirty := true } }

/-- The sectors of a call that are not found and so are stored. -/
def storeSectors (pool : Bool) : List NewSector → CallState → Option (Option ErrorCode × CallState)
  | [], w => some (none, w)
  | s :: sectors, w =>
    match dedupBlockRoom g pool s w with
    | none => none
    | some (some error, w) => some (some error, w)
    | some (none, w) => storeSectors pool sectors (appendSector s.length w)

/-- `dedup_hdr.last_block_lba` and `last_block_offset` when a call or a flush ends. -/
def Ranges.setLast (ranges : Ranges) (db : BlockCtx) : Ranges :=
  { ranges with lastBlockLba := db.blockLba, lastBlockOffset := db.offset }

end Calls

/-! ### Open files -/

/-- The shared state and the block cache of each open file. -/
structure FilesState (ι : Type) where
  ranges : Ranges
  handle : ι → Option BlockCtx

/-- What happens next: a call of a writer that stores some sectors, the flush or the close of a file,
or the allocation or the freeing of blocks for something else. `packed` is what the compressor makes
of the block that the step flushes. -/
inductive BlockStep (ι : Type)
  | write (i : ι) (read : InitRead) (pool : Bool) (sectors : List NewSector) (packed : Option ℕ)
  | flush (i : ι) (packed : Option ℕ)
  | close (i : ι) (packed : Option ℕ)
  | alloc (count : ℕ)
  | free (lba count : ℕ)

section Steps

variable {ι : Type} [DecidableEq ι] (g : BlockSizes)

/-- The block cache with which a call works. -/
def openedCache (read : InitRead) (i : ι) (fs : FilesState ι) : Option BlockCtx :=
  (fs.handle i).or (dedupBlockInit read fs.ranges)

/-- The part of `obmafs3_write_media_image_data` that stores sectors. -/
def writeMediaImageData (i : ι) (read : InitRead) (pool : Bool) (sectors : List NewSector)
    (packed : Option ℕ) (fs : FilesState ι) : Option (FilesState ι) :=
  match openedCache read i fs with
  | none => some fs
  | some opened =>
    match storeSectors g pool sectors ⟨fs.ranges, opened, none⟩ with
    | none => none
    | some (none, w) =>
      let w := dedupBgWait w
      let ranges := if sectors = [] then w.ranges else w.ranges.setLast w.db
      some ⟨ranges, Function.update fs.handle i (some w.db)⟩
    | some (some _, w) =>
      let w := dedupBgWait w
      let (ranges, db) :=
        if w.db.hasData then dedupBlockFlush g packed w.ranges w.db else (w.ranges, w.db)
      some ⟨ranges.setLast db, Function.update fs.handle i (some db)⟩

/-- `obmafs3_flush_dedup_block_cache`. -/
def flushDedupBlockCache (i : ι) (packed : Option ℕ) (fs : FilesState ι) : FilesState ι :=
  match fs.handle i with
  | none => fs
  | some db =>
    let (ranges, db) := dedupBlockFlush g packed fs.ranges db
    ⟨ranges.setLast db, Function.update fs.handle i (some db)⟩

def BlockStep.run : BlockStep ι → FilesState ι → Option (FilesState ι)
  | .write i read pool sectors packed, fs => writeMediaImageData g i read pool sectors packed fs
  | .flush i packed, fs => some (flushDedupBlockCache g i packed fs)
  | .close i packed, fs =>
    let fs := flushDedupBlockCache g i packed fs
    some { fs with handle := Function.update fs.handle i none }
  | .alloc count, fs =>
    (fs.ranges.vol.allocBlocks count).map fun (_, vol) ↦
      { fs with ranges := { fs.ranges with vol } }
  | .free lba count, fs =>
    if 0 < lba ∧ ∀ k < count, fs.ranges.owner (lba + k) = none then
      some { fs with ranges := { fs.ranges with vol := fs.ranges.vol.freeBlocks lba count } }
    else none

def runBlocks : List (BlockStep ι) → FilesState ι → Option (FilesState ι)
  | [], fs => some fs
  | step :: steps, fs => (step.run g fs).bind (runBlocks steps)

/-! ### What should hold, and when it does -/

/-- Two sectors do not overlap. -/
def Placed.Apart (s t : Placed) : Prop :=
  s.lba = t.lba → s.offset + s.length ≤ t.offset ∨ t.offset + t.length ≤ s.offset

/-- Every block written was allocated for its dedup block, every sector lies inside the buffer and no
two overlap. -/
structure Contained (ranges : Ranges) : Prop where
  written : ∀ w ∈ ranges.written, ∀ k < w.count, w.allocated (w.lba + k) = true
  buffer : ∀ s ∈ ranges.stored, s.offset + s.length ≤ g.dedupBlockSize
  apart : ranges.stored.Pairwise Placed.Apart

/-- The image of the block fits in the standard blocks of a dedup block. -/
def ImageFits (packed : Option ℕ) (db : BlockCtx) : Prop :=
  writeSize db.offset packed ≤ g.stdBlocks * g.blockSize

/-- A dedup block has room for each sector alone, and each block that a sector finds full fits in
its standard blocks. -/
def StoresCareful (pool : Bool) : List NewSector → CallState → Prop
  | [], _ => True
  | s :: sectors, w =>
    g.blockSize ≤ g.dedupBlockSize ∧ blockHeaderSize + s.length ≤ g.dedupBlockSize ∧
      (w.db.blockLba ≠ 0 → g.dedupBlockSize < w.db.offset + s.length →
        ImageFits g s.packed w.db) ∧
        ∀ w', dedupBlockRoom g pool s w = some (none, w') →
          StoresCareful pool sectors (appendSector s.length w')

/-- A block cache that starts from the header finds the last block intact and in no other cache. -/
def StartsCareful (read : InitRead) (i : ι) (fs : FilesState ι) : Prop :=
  fs.handle i = none → fs.ranges.lastBlockLba ≠ 0 →
    read ≠ .corrupt ∧ ∀ j db, fs.handle j = some db → db.blockLba ≠ fs.ranges.lastBlockLba

def BlockStep.Careful : BlockStep ι → FilesState ι → Prop
  | .write i read pool sectors _, fs =>
    StartsCareful read i fs ∧
      ∀ db, openedCache read i fs = some db → StoresCareful g pool sectors ⟨fs.ranges, db, none⟩
  | .flush i packed, fs => ∀ db, fs.handle i = some db → db.dirty = true → ImageFits g packed db
  | .close i packed, fs => ∀ db, fs.handle i = some db → db.dirty = true → ImageFits g packed db
  | .alloc _, _ => True
  | .free _ _, _ => True

def AllCareful : List (BlockStep ι) → FilesState ι → Prop
  | [], _ => True
  | step :: steps, fs =>
    step.Careful g fs ∧ ∀ fs', step.run g fs = some fs' → AllCareful steps fs'

end Steps

/-! ### Sizes -/

section Sizes

variable {g : BlockSizes} {size offset : ℕ} {packed : Option ℕ}

theorem neededStd_le_iff {n : ℕ} : g.neededStd size ≤ n ↔ size ≤ n * g.blockSize := by
  have hpos := g.blockSize_pos
  rw [BlockSizes.neededStd, ← Nat.lt_add_one_iff, Nat.div_lt_iff_lt_mul hpos, Nat.add_mul, one_mul]
  omega

theorem neededStd_pos (hsize : 0 < size) : 0 < g.neededStd size :=
  Nat.div_pos (by have := g.blockSize_pos; omega) g.blockSize_pos

section

variable (hge : blockHeaderSize ≤ offset) (hle : offset ≤ g.dedupBlockSize)
include hge hle

theorem originalSize_eq : originalSize offset = offset - blockHeaderSize := by
  have hlt := g.dedupBlockSize_lt
  simp only [originalSize, blockHeaderSize] at hge ⊢
  omega

/-- The image is not empty and not longer than the header and the payload. -/
theorem writeSize_bounds : 0 < writeSize offset packed ∧ writeSize offset packed ≤ offset := by
  have horiginal := originalSize_eq hge hle
  unfold blockHeaderSize at hge horiginal
  unfold writeSize
  cases packed with
  | none => exact ⟨show 0 < offset by omega, le_rfl⟩
  | some compSize =>
    simp only [horiginal]
    split_ifs with hshort
    · exact ⟨by simp [blockHeaderSize], by unfold blockHeaderSize; omega⟩
    · exact ⟨by omega, le_rfl⟩

end

/-- When standard blocks divide a dedup block every image fits. -/
theorem imageFits_of_dvd {db : BlockCtx} (hdvd : g.blockSize ∣ g.dedupBlockSize)
    (hge : blockHeaderSize ≤ db.offset) (hle : db.offset ≤ g.dedupBlockSize) :
    ImageFits g packed db := by
  rw [ImageFits, BlockSizes.stdBlocks, Nat.div_mul_cancel hdvd]
  exact (writeSize_bounds hge hle).2.trans hle

end Sizes

/-! ### The invariant -/

section Invariant

variable {ι : Type} (g : BlockSizes)

/-- The cache has a buffer, its block has all its standard blocks, and the offset is behind every
sector of the block. -/
structure Held (owner : ℕ → Option ℕ) (stored : List Placed) (db : BlockCtx) : Prop where
  data : db.hasData = true
  offset_ge : blockHeaderSize ≤ db.offset
  offset_le : db.offset ≤ g.dedupBlockSize
  full : ∀ k < g.stdBlocks, owner (db.blockLba + k) = some db.blockLba
  below : ∀ s ∈ stored, s.lba = db.blockLba → s.offset + s.length ≤ db.offset

/-- Blocks with an owner are allocated, and each open file holds a block of its own. -/
structure Sound (ranges : Ranges) (handle : ι → Option BlockCtx) : Prop where
  zero : ranges.vol.bitmap 0 = true ∧ ranges.owner 0 = none
  owned : ∀ b l, ranges.owner b = some l → ranges.vol.bitmap b = true
  held : ∀ i db, handle i = some db → db.blockLba ≠ 0 → Held g ranges.owner ranges.stored db
  apart : ∀ i j db db', i ≠ j → handle i = some db → handle j = some db' →
    db.blockLba = db'.blockLba → db.blockLba = 0
  stored : ∀ s ∈ ranges.stored, ranges.owner s.lba = some s.lba
  contained : Contained g ranges

/-- The block that the header names is in a cache, or can be taken up from the header. -/
def LastKnown (fs : FilesState ι) : Prop :=
  fs.ranges.lastBlockLba = 0 ∨
    (∃ i db, fs.handle i = some db ∧ db.blockLba = fs.ranges.lastBlockLba) ∨
      Held g fs.ranges.owner fs.ranges.stored
        ⟨fs.ranges.lastBlockLba, fs.ranges.lastBlockOffset, true, false⟩

/-- The state of a call, beside the caches of the other open files. -/
structure InCall (others : ι → Option BlockCtx) (w : CallState) : Prop where
  sound : Sound g w.ranges others
  held : w.db.blockLba ≠ 0 → Held g w.ranges.owner w.ranges.stored w.db
  alone : w.db.blockLba ≠ 0 → ∀ j db, others j = some db → db.blockLba ≠ w.db.blockLba
  job : ∀ lba count, w.job = some (lba, count) → 0 < lba ∧
    ∀ k < count, w.ranges.vol.bitmap (lba + k) = true ∧ w.ranges.owner (lba + k) = none

/-- What a call of `dedup_block_new`, or the search for room, comes to: a block with room for the
sector, or a refusal that leaves nothing to flush. -/
structure HasRoom (others : ι → Option BlockCtx) (length : ℕ) (status : Option ErrorCode)
    (w : CallState) : Prop where
  call : InCall g others w
  room : status = none → w.db.blockLba ≠ 0 ∧ w.db.offset + length ≤ g.dedupBlockSize
  clean : status ≠ none → w.db.blockLba ≠ 0 → w.db.dirty = false

variable {g} {ranges ranges' : Ranges} {owner owner' : ℕ → Option ℕ} {stored stored' : List Placed}
  {others : ι → Option BlockCtx} {db : BlockCtx} {w w' : CallState} {packed : Option ℕ}

/-- A cache keeps its block when only blocks and sectors of another block change. -/
theorem Held.frame (hheld : Held g owner stored db) (cur : ℕ) (hne : db.blockLba ≠ cur)
    (howner : ∀ b l, l ≠ cur → owner b = some l → owner' b = some l)
    (hstored : ∀ s ∈ stored', s.lba = cur ∨ s ∈ stored) : Held g owner' stored' db where
  data := hheld.data
  offset_ge := hheld.offset_ge
  offset_le := hheld.offset_le
  full := fun k hk ↦ howner _ _ hne (hheld.full k hk)
  below := by
    intro s hs hlba
    rcases hstored s hs with hcur | hs
    · exact absurd (hlba.symm.trans hcur) hne
    · exact hheld.below s hs hlba

/-- The other caches keep their blocks when only blocks and sectors of one block change. -/
theorem Sound.frame (hsound : Sound g ranges others) (cur : ℕ)
    (hne : ∀ j db, others j = some db → db.blockLba ≠ 0 → db.blockLba ≠ cur)
    (howner : ∀ b l, l ≠ cur → ranges.owner b = some l → ranges'.owner b = some l)
    (hstored : ∀ s ∈ ranges'.stored, s.lba = cur ∨ s ∈ ranges.stored)
    (hzero : ranges'.vol.bitmap 0 = true ∧ ranges'.owner 0 = none)
    (howned : ∀ b l, ranges'.owner b = some l → ranges'.vol.bitmap b = true)
    (hown : ∀ s ∈ ranges'.stored, ranges'.owner s.lba = some s.lba)
    (hcontained : Contained g ranges') : Sound g ranges' others where
  zero := hzero
  owned := howned
  held := fun i db hi hdb ↦ (hsound.held i db hi hdb).frame cur (hne i db hi hdb) howner hstored
  apart := hsound.apart
  stored := hown
  contained := hcontained

variable {handle : ι → Option BlockCtx} {sectors : List NewSector} {lba count : ℕ} {read : InitRead}
  {length : ℕ}

/-- A write of blocks that belong to the block changes nothing but the record of it. -/
theorem Sound.blockWrite (hsound : Sound g ranges others)
    (hfull : ∀ k < count, ranges.owner (lba + k) = some lba) :
    Sound g (ranges.blockWrite lba count) others where
  zero := hsound.zero
  owned := hsound.owned
  held := hsound.held
  apart := hsound.apart
  stored := hsound.stored
  contained :=
    { written := by
        intro w hw
        rcases List.mem_cons.mp hw with rfl | hw
        · intro k hk
          have howner := hfull k hk
          simp [hsound.owned _ _ howner, howner]
        · exact hsound.contained.written w hw
      buffer := hsound.contained.buffer
      apart := hsound.contained.apart }

theorem Held.count_le (hheld : Held g owner stored db) (hfits : ImageFits g packed db) :
    0 < g.neededStd (writeSize db.offset packed) ∧
      g.neededStd (writeSize db.offset packed) ≤ g.stdBlocks :=
  ⟨neededStd_pos (writeSize_bounds hheld.offset_ge hheld.offset_le).1, neededStd_le_iff.mpr hfits⟩

theorem dedupBlockFlush_spec (hcall : InCall g others w)
    (hfits : w.db.dirty = true → w.db.blockLba ≠ 0 → ImageFits g packed w.db) :
    InCall g others
        { w with
          ranges := (dedupBlockFlush g packed w.ranges w.db).1
          db := (dedupBlockFlush g packed w.ranges w.db).2 } ∧
      (dedupBlockFlush g packed w.ranges w.db).2.blockLba = w.db.blockLba ∧
      (dedupBlockFlush g packed w.ranges w.db).2.offset = w.db.offset ∧
      (dedupBlockFlush g packed w.ranges w.db).2.hasData = w.db.hasData ∧
      (w.db.blockLba ≠ 0 → (dedupBlockFlush g packed w.ranges w.db).2.dirty = false) := by
  unfold dedupBlockFlush
  by_cases hdirty : w.db.dirty = true ∧ w.db.blockLba ≠ 0
  · simp only [if_pos hdirty]
    have hheld := hcall.held hdirty.2
    have hcount := hheld.count_le (hfits hdirty.1 hdirty.2)
    refine ⟨?_, trivial, trivial, trivial, fun _ ↦ trivial⟩
    exact
      { sound := hcall.sound.blockWrite fun k hk ↦ hheld.full k (hk.trans_le hcount.2)
        held := fun _ ↦ ⟨hheld.data, hheld.offset_ge, hheld.offset_le, hheld.full, hheld.below⟩
        alone := hcall.alone
        job := hcall.job }
  · simp only [if_neg hdirty]
    refine ⟨hcall, trivial, trivial, trivial, fun hlba ↦ ?_⟩
    rw [not_and_or, not_not] at hdirty
    rcases hdirty with hclean | hzero
    · exact Bool.not_eq_true _ ▸ hclean
    · exact absurd hzero hlba

/-- Freeing blocks without an owner. -/
theorem Sound.freeBlocks (hsound : Sound g ranges others) (hpos : 0 < lba)
    (hfree : ∀ k < count, ranges.owner (lba + k) = none) :
    Sound g { ranges with vol := ranges.vol.freeBlocks lba count } others where
  zero := ⟨freeBlocks_bitmap hsound.zero.1 (by omega), hsound.zero.2⟩
  owned := by
    intro b l hb
    refine freeBlocks_bitmap (hsound.owned b l hb) ?_
    rintro ⟨hle, hlt⟩
    have hnone := hfree (b - lba) (by omega)
    rw [Nat.add_sub_cancel' hle] at hnone
    exact Option.some_ne_none l (hb.symm.trans hnone)
  held := hsound.held
  apart := hsound.apart
  stored := hsound.stored
  contained := ⟨hsound.contained.written, hsound.contained.buffer, hsound.contained.apart⟩

theorem Sound.allocBlocks {count start : ℕ} {vol : Volume} (hsound : Sound g ranges others)
    (halloc : ranges.vol.allocBlocks count = some (start, vol)) :
    Sound g { ranges with vol } others where
  zero := ⟨(allocBlocks_bitmap halloc).2 0 hsound.zero.1, hsound.zero.2⟩
  owned := fun b l hb ↦ (allocBlocks_bitmap halloc).2 b (hsound.owned b l hb)
  held := hsound.held
  apart := hsound.apart
  stored := hsound.stored
  contained := ⟨hsound.contained.written, hsound.contained.buffer, hsound.contained.apart⟩

section

variable (hcall : InCall g others w)
include hcall

theorem dedupBgWait_spec :
    InCall g others (dedupBgWait w) ∧ (dedupBgWait w).db = w.db ∧
      (dedupBgWait w).ranges.owner = w.ranges.owner ∧
      (dedupBgWait w).ranges.stored = w.ranges.stored ∧ (dedupBgWait w).job = none := by
  unfold dedupBgWait
  cases hjob : w.job with
  | none => exact ⟨hcall, rfl, rfl, rfl, hjob⟩
  | some job =>
    obtain ⟨lba, count⟩ := job
    obtain ⟨hpos, hblocks⟩ := hcall.job lba count hjob
    refine ⟨?_, rfl, rfl, rfl, rfl⟩
    exact
      { sound := hcall.sound.freeBlocks hpos fun k hk ↦ (hblocks k hk).2
        held := hcall.held
        alone := hcall.alone
        job := fun _ _ h ↦ absurd h.symm (Option.some_ne_none _) }

/-- The block goes to the pool, and what remains of it is what the image needs. -/
theorem dedupBgSubmit_spec (hlba : w.db.blockLba ≠ 0) (hfits : ImageFits g packed w.db)
    (db : BlockCtx) (hdb : db.blockLba = 0) :
    InCall g others { dedupBgSubmit g packed w with db } := by
  have hheld := hcall.held hlba
  have hcount := hheld.count_le hfits
  have hwrite := hcall.sound.blockWrite fun k hk ↦ hheld.full k (hk.trans_le hcount.2)
  unfold dedupBgSubmit
  generalize g.neededStd (writeSize w.db.offset packed) = needed at hcount hwrite ⊢
  simp only
  split_ifs with hshort
  · refine ⟨?_, fun h ↦ absurd hdb h, fun h ↦ absurd hdb h, ?_⟩
    · refine hwrite.frame w.db.blockLba (fun j other hj hother ↦ hcall.alone hlba j other hj) ?_
        (fun s hs ↦ .inr hs) ⟨hwrite.zero.1, ?_⟩ ?_ ?_
        ⟨hwrite.contained.written, hwrite.contained.buffer, hwrite.contained.apart⟩
      · intro b l hl hb
        have hout : ¬(w.db.blockLba + needed ≤ b ∧ b < w.db.blockLba + g.stdBlocks) := by
          rintro ⟨hle, hlt⟩
          have hfull := hheld.full (b - w.db.blockLba) (by omega)
          rw [Nat.add_sub_cancel' (by omega)] at hfull
          exact hl (Option.some.inj (hb.symm.trans hfull))
        exact (if_neg hout).trans hb
      · exact (if_neg (by omega)).trans hwrite.zero.2
      · intro b l hb
        simp only at hb
        split_ifs at hb
        exact hwrite.owned b l hb
      · intro s hs
        have hown := hwrite.stored s hs
        refine (if_neg ?_).trans hown
        rintro ⟨hle, hlt⟩
        have hfull := hheld.full (s.lba - w.db.blockLba) (by omega)
        rw [Nat.add_sub_cancel' (by omega)] at hfull
        have := Option.some.inj (hfull.symm.trans hown)
        omega
    · rintro lba count h
      simp only [Option.some.injEq, Prod.mk.injEq] at h
      obtain ⟨rfl, rfl⟩ := h
      refine ⟨by omega, fun k hk ↦ ⟨?_, if_pos (by omega)⟩⟩
      have hfull := hheld.full (needed + k) (by omega)
      rw [← Nat.add_assoc] at hfull
      exact hcall.sound.owned _ _ hfull
  · exact ⟨hwrite, fun h ↦ absurd hdb h, fun h ↦ absurd hdb h,
      fun _ _ h ↦ absurd h.symm (Option.some_ne_none _)⟩

/-- A new dedup block is nobody else's. -/
theorem allocDedupBlock_spec {start : ℕ} (hstd : 0 < g.stdBlocks)
    (hsize : blockHeaderSize ≤ g.dedupBlockSize)
    (halloc : w.ranges.allocDedupBlock g = some (start, ranges')) :
    InCall g others { w with ranges := ranges', db := ⟨start, blockHeaderSize, true, false⟩ } ∧
      start ≠ 0 := by
  have hsound := hcall.sound
  unfold Ranges.allocDedupBlock at halloc
  cases hfound : w.ranges.vol.allocBlocks g.stdBlocks with
  | none => simp [hfound] at halloc
  | some found =>
    obtain ⟨first, vol⟩ := found
    simp only [hfound, Option.some.injEq, Prod.mk.injEq] at halloc
    obtain ⟨rfl, rfl⟩ := halloc
    obtain ⟨hnew, hold⟩ := allocBlocks_bitmap hfound
    have hout (b : ℕ) (hb : w.ranges.vol.bitmap b = true) :
        ¬(first ≤ b ∧ b < first + g.stdBlocks) := by
      rintro ⟨hle, hlt⟩
      exact Bool.false_ne_true ((hnew b hle hlt).1.symm.trans hb)
    have hfirst : first ≠ 0 := by
      rintro rfl
      exact hout 0 hsound.zero.1 ⟨le_rfl, by omega⟩
    have hkept (b l : ℕ) (hb : w.ranges.owner b = some l) :
        (if first ≤ b ∧ b < first + g.stdBlocks then some first else w.ranges.owner b) = some l :=
      (if_neg (hout b (hsound.owned b l hb))).trans hb
    have hstored : ∀ s ∈ w.ranges.stored, s.lba ≠ first := by
      rintro s hs hlba
      have hown := hsound.stored s hs
      exact hout s.lba (hsound.owned _ _ hown) ⟨hlba.ge, by omega⟩
    have hothers (j : ι) (other : BlockCtx) (hj : others j = some other)
        (hother : other.blockLba ≠ 0) : other.blockLba ≠ first := by
      intro hlba
      have hfull := (hsound.held j other hj hother).full 0 hstd
      exact hout _ (hsound.owned _ _ hfull) ⟨hlba.ge, by omega⟩
    refine ⟨⟨?_, fun _ ↦ ?_, fun _ ↦ ?_, ?_⟩, hfirst⟩
    · refine hsound.frame first hothers (fun b l _ hb ↦ hkept b l hb) (fun s hs ↦ .inr hs)
        ⟨hold 0 hsound.zero.1, ?_⟩ ?_ (fun s hs ↦ hkept _ _ (hsound.stored s hs))
        ⟨hsound.contained.written, hsound.contained.buffer, hsound.contained.apart⟩
      · exact (if_neg (by omega)).trans hsound.zero.2
      · intro b l hb
        simp only at hb
        split_ifs at hb with hin
        · exact (hnew b hin.1 hin.2).2
        · exact hold b (hsound.owned b l hb)
    · exact ⟨rfl, le_rfl, hsize, fun k hk ↦ if_pos ⟨Nat.le_add_right _ _, Nat.add_lt_add_left hk _⟩,
        fun s hs hlba ↦ absurd hlba (hstored s hs)⟩
    · intro j other hj hlba
      exact hothers j other hj (hlba ▸ hfirst) hlba
    · intro lba count hjob
      obtain ⟨hpos, hblocks⟩ := hcall.job lba count hjob
      refine ⟨hpos, fun k hk ↦ ?_⟩
      obtain ⟨hbit, hnone⟩ := hblocks k hk
      exact ⟨hold _ hbit, (if_neg (hout _ hbit)).trans hnone⟩

end

variable {status : Option ErrorCode} {pool : Bool}

section

variable (hcall : InCall g others w)
include hcall

theorem dedupBlockNew_spec (hstd : 0 < g.stdBlocks)
    (hsize : blockHeaderSize + length ≤ g.dedupBlockSize)
    (hfits : w.db.dirty = true → w.db.blockLba ≠ 0 → ImageFits g packed w.db)
    (hnew : dedupBlockNew g packed w = some (status, w')) : HasRoom g others length status w' := by
  obtain ⟨hflush, hlba, hoffset, hdata, hclean⟩ := dedupBlockFlush_spec hcall hfits
  unfold dedupBlockNew at hnew
  generalize dedupBlockFlush g packed w.ranges w.db = flushed at hflush hlba hclean hnew
  obtain ⟨ranges, db⟩ := flushed
  simp only at hflush hlba hclean hnew
  cases halloc : ranges.allocDedupBlock g with
  | none =>
    simp only [halloc, Option.some.injEq, Prod.mk.injEq] at hnew
    obtain ⟨rfl, rfl⟩ := hnew
    exact ⟨hflush, fun h ↦ absurd h (Option.some_ne_none _), fun _ h ↦ hclean (hlba ▸ h)⟩
  | some found =>
    obtain ⟨start, ranges'⟩ := found
    simp only [halloc] at hnew
    split_ifs at hnew with hdata
    simp only [Option.some.injEq, Prod.mk.injEq] at hnew
    obtain ⟨rfl, rfl⟩ := hnew
    obtain ⟨hcall', hstart⟩ := allocDedupBlock_spec hflush hstd (by omega) halloc
    exact ⟨hcall', fun _ ↦ ⟨hstart, hsize⟩, fun h ↦ absurd rfl h⟩

theorem dedupBlockRoom_spec {s : NewSector} (hstd : 0 < g.stdBlocks)
    (hsize : blockHeaderSize + s.length ≤ g.dedupBlockSize)
    (hfits : w.db.blockLba ≠ 0 → g.dedupBlockSize < w.db.offset + s.length →
      ImageFits g s.packed w.db) (hroom : dedupBlockRoom g pool s w = some (status, w')) :
    HasRoom g others s.length status w' := by
  unfold dedupBlockRoom at hroom
  split_ifs at hroom with hzero hfull hpool
  · exact dedupBlockNew_spec hcall hstd hsize (fun _ h ↦ absurd hzero h) hroom
  · simp only [Option.some.injEq, Prod.mk.injEq] at hroom
    obtain ⟨rfl, rfl⟩ := hroom
    exact ⟨hcall, fun _ ↦ ⟨hzero, hfull⟩, fun h ↦ absurd rfl h⟩
  · obtain ⟨hwait, hdb, -⟩ := dedupBgWait_spec hcall
    have himage := hfits hzero (not_le.mp hfull)
    rw [← hdb] at hzero himage
    have hsubmit (db : BlockCtx) (h : db.blockLba = 0) := dedupBgSubmit_spec hwait hzero himage db h
    generalize dedupBgSubmit g s.packed (dedupBgWait w) = sent at hsubmit hroom
    simp only at hroom
    cases halloc : sent.ranges.allocDedupBlock g with
    | none =>
      simp only [halloc, Option.some.injEq, Prod.mk.injEq] at hroom
      obtain ⟨rfl, rfl⟩ := hroom
      exact ⟨hsubmit _ rfl, fun h ↦ absurd h (Option.some_ne_none _), fun _ h ↦ absurd rfl h⟩
    | some found =>
      obtain ⟨start, ranges'⟩ := found
      simp only [halloc, Option.some.injEq, Prod.mk.injEq] at hroom
      obtain ⟨rfl, rfl⟩ := hroom
      obtain ⟨hcall', hstart⟩ :=
        allocDedupBlock_spec (hsubmit ⟨0, 0, false, false⟩ rfl) hstd (by omega) halloc
      exact ⟨hcall', fun _ ↦ ⟨hstart, hsize⟩, fun h ↦ absurd rfl h⟩
  · obtain ⟨hflush, hlba, hoffset, hdata, hclean⟩ :=
      dedupBlockFlush_spec hcall fun _ h ↦ hfits h (not_le.mp hfull)
    refine dedupBlockNew_spec hflush hstd hsize (fun hdirty hne ↦ ?_) hroom
    rw [hclean (hlba ▸ hne)] at hdirty
    exact absurd hdirty Bool.false_ne_true

/-- A sector with room goes behind the others. -/
theorem appendSector_spec (hlba : w.db.blockLba ≠ 0)
    (hstd : 0 < g.stdBlocks) (hroom : w.db.offset + length ≤ g.dedupBlockSize) :
    InCall g others (appendSector length w) := by
  have hheld := hcall.held hlba
  have hsound := hcall.sound
  have hbelow : ∀ s ∈ (appendSector length w).ranges.stored,
      s.lba = w.db.blockLba → s.offset + s.length ≤ w.db.offset + length := by
    intro s hs hs'
    rcases List.mem_cons.mp hs with rfl | hs
    · exact le_rfl
    · exact (hheld.below s hs hs').trans (Nat.le_add_right _ _)
  refine ⟨?_, fun _ ↦ ?_, hcall.alone, hcall.job⟩
  · refine hsound.frame w.db.blockLba (fun j db hj hdb ↦ hcall.alone hlba j db hj)
      (fun b l _ hb ↦ hb) ?_ hsound.zero hsound.owned ?_ ⟨hsound.contained.written, ?_, ?_⟩
    · intro s hs
      rcases List.mem_cons.mp hs with rfl | hs
      · exact .inl rfl
      · exact .inr hs
    · intro s hs
      rcases List.mem_cons.mp hs with rfl | hs
      · exact hheld.full 0 hstd
      · exact hsound.stored s hs
    · intro s hs
      rcases List.mem_cons.mp hs with rfl | hs
      · exact hroom
      · exact hsound.contained.buffer s hs
    · refine List.pairwise_cons.mpr ⟨fun s hs hs' ↦ .inr ?_, hsound.contained.apart⟩
      exact hheld.below s hs hs'.symm
  · exact ⟨hheld.data, hheld.offset_ge.trans (Nat.le_add_right _ _), hroom, hheld.full, hbelow⟩

/-- The sectors of a call: the run of `appendSector_spec` over them. -/
theorem storeSectors_spec (hcareful : StoresCareful g pool sectors w)
    (hstore : storeSectors g pool sectors w = some (status, w')) :
    InCall g others w' ∧ (status ≠ none → w'.db.blockLba ≠ 0 → w'.db.dirty = false) := by
  induction sectors generalizing w with
  | nil =>
    simp only [storeSectors, Option.some.injEq, Prod.mk.injEq] at hstore
    obtain ⟨rfl, rfl⟩ := hstore
    exact ⟨hcall, fun h ↦ absurd rfl h⟩
  | cons s sectors ih =>
    obtain ⟨hblock, hsize, hfits, hrest⟩ := hcareful
    have hstd : 0 < g.stdBlocks := Nat.div_pos hblock g.blockSize_pos
    rw [storeSectors] at hstore
    cases hroom : dedupBlockRoom g pool s w with
    | none => simp [hroom] at hstore
    | some result =>
      obtain ⟨error, w₁⟩ := result
      have hspec := dedupBlockRoom_spec hcall hstd hsize hfits hroom
      cases error with
      | some code =>
        simp only [hroom, Option.some.injEq, Prod.mk.injEq] at hstore
        obtain ⟨rfl, rfl⟩ := hstore
        exact ⟨hspec.call, hspec.clean⟩
      | none =>
        simp only [hroom] at hstore
        obtain ⟨hlba, hfit⟩ := hspec.room rfl
        exact ih (appendSector_spec hspec.call hlba hstd hfit) (hrest w₁ hroom) hstore

end

/-! ### Steps and runs -/

/-- Between calls: no block is anybody else's, and the header can be taken up. -/
structure Valid (g : BlockSizes) (fs : FilesState ι) : Prop where
  sound : Sound g fs.ranges fs.handle
  last : LastKnown g fs

variable [DecidableEq ι] {i : ι} {fs fs' : FilesState ι}

/-- The caches of the other files, while one file is in a call. -/
def othersOf (i : ι) (handle : ι → Option BlockCtx) : ι → Option BlockCtx :=
  Function.update handle i none

theorem Sound.without (hsound : Sound g ranges fs.handle) :
    Sound g ranges (othersOf i fs.handle) where
  zero := hsound.zero
  owned := hsound.owned
  held := by
    intro j db hj
    unfold othersOf at hj
    by_cases hij : j = i
    · subst hij
      simp at hj
    · rw [update_of_ne hij] at hj
      exact hsound.held j db hj
  apart := by
    intro j k db db' hjk hj hk
    unfold othersOf at hj hk
    by_cases hij : j = i
    · subst hij
      simp at hj
    by_cases hik : k = i
    · subst hik
      simp at hk
    rw [update_of_ne hij] at hj
    rw [update_of_ne hik] at hk
    exact hsound.apart j k db db' hjk hj hk
  stored := hsound.stored
  contained := hsound.contained

/-- The end of a call: its block cache is put back among the others. -/
theorem InCall.finish (hcall : InCall g (othersOf i handle) w) :
    Sound g w.ranges (update handle i (some w.db)) where
  zero := hcall.sound.zero
  owned := hcall.sound.owned
  held := by
    intro j db hj
    by_cases hij : j = i
    · subst hij
      rw [update_self] at hj
      obtain rfl := Option.some.inj hj
      exact hcall.held
    · rw [update_of_ne hij] at hj
      exact hcall.sound.held j db ((update_of_ne hij _ _).trans hj)
  apart := by
    have hother (j : ι) (db : BlockCtx) (hij : j ≠ i)
        (hj : update handle i (some w.db) j = some db) :
        othersOf i handle j = some db := by
      rw [update_of_ne hij] at hj
      exact (update_of_ne hij _ _).trans hj
    intro j k db db' hjk hj hk hlba
    by_contra hne
    by_cases hij : j = i
    · subst hij
      rw [update_self] at hj
      obtain rfl := Option.some.inj hj
      exact hcall.alone hne k db' (hother k db' hjk.symm hk) hlba.symm
    by_cases hik : k = i
    · subst hik
      rw [update_self] at hk
      obtain rfl := Option.some.inj hk
      exact hcall.alone (hlba ▸ hne) j db (hother j db hij hj) hlba
    · exact hne (hcall.sound.apart j k db db' hjk (hother j db hij hj) (hother k db' hik hk) hlba)
  stored := hcall.sound.stored
  contained := hcall.sound.contained

/-- The header that the end of a call or a flush writes names the block of the cache. -/
theorem valid_setLast (hsound : Sound g ranges (update handle i (some db))) :
    Valid g ⟨ranges.setLast db, update handle i (some db)⟩ where
  sound := ⟨hsound.zero, hsound.owned, hsound.held, hsound.apart, hsound.stored,
    ⟨hsound.contained.written, hsound.contained.buffer, hsound.contained.apart⟩⟩
  last := .inr (.inl ⟨i, db, update_self _ _ _, rfl⟩)

section

variable (hvalid : Valid g fs)
include hvalid

/-- A call starts with a cache of its own. -/
theorem openedCache_spec (hstart : StartsCareful read i fs)
    (hopen : openedCache read i fs = some db) :
    InCall g (othersOf i fs.handle) ⟨fs.ranges, db, none⟩ ∧
      (fs.handle i = none → db.blockLba = fs.ranges.lastBlockLba) := by
  have hjob : ∀ lba count, (none : Option (ℕ × ℕ)) = some (lba, count) → 0 < lba ∧
      ∀ k < count, fs.ranges.vol.bitmap (lba + k) = true ∧ fs.ranges.owner (lba + k) = none :=
    fun _ _ h ↦ absurd h.symm (Option.some_ne_none _)
  unfold openedCache at hopen
  cases hi : fs.handle i with
  | some held =>
    rw [hi, Option.some_or] at hopen
    obtain rfl := Option.some.inj hopen
    refine ⟨⟨hvalid.sound.without, hvalid.sound.held i held hi, ?_, hjob⟩, fun h ↦ by cases h⟩
    intro hne j other hj hlba
    by_cases hij : j = i
    · subst hij
      simp [othersOf] at hj
    · rw [othersOf, update_of_ne hij] at hj
      exact hne (hvalid.sound.apart i j held other (Ne.symm hij) hi hj hlba.symm)
  | none =>
    rw [hi, Option.none_or] at hopen
    unfold dedupBlockInit at hopen
    split_ifs at hopen with hlast
    · obtain ⟨hread, halone⟩ := hstart hi hlast
      cases read with
      | failed => cases hopen
      | corrupt => exact absurd rfl hread
      | intact =>
        obtain rfl := Option.some.inj hopen
        refine ⟨⟨hvalid.sound.without, fun _ ↦ ?_, fun _ j other hj ↦ ?_, hjob⟩, fun _ ↦ rfl⟩
        · rcases hvalid.last with hzero | ⟨j, other, hj, hlba⟩ | hheld
          · exact absurd hzero hlast
          · exact absurd hlba (halone j other hj)
          · exact hheld
        · by_cases hij : j = i
          · subst hij
            simp [othersOf] at hj
          · rw [othersOf, update_of_ne hij] at hj
            exact halone j other hj
    · obtain rfl := Option.some.inj hopen
      rw [not_not] at hlast
      exact ⟨⟨hvalid.sound.without, fun h ↦ absurd rfl h, fun h ↦ absurd rfl h, hjob⟩,
        fun _ ↦ hlast.symm⟩

theorem writeMediaImageData_valid (hstart : StartsCareful read i fs)
    (hcareful : ∀ db, openedCache read i fs = some db →
      StoresCareful g pool sectors ⟨fs.ranges, db, none⟩)
    (hrun : writeMediaImageData g i read pool sectors packed fs = some fs') : Valid g fs' := by
  unfold writeMediaImageData at hrun
  cases hopen : openedCache read i fs with
  | none =>
    simp only [hopen, Option.some.injEq] at hrun
    exact hrun ▸ hvalid
  | some opened =>
    obtain ⟨hcall, hlast⟩ := openedCache_spec hvalid hstart hopen
    simp only [hopen] at hrun
    cases hstore : storeSectors g pool sectors ⟨fs.ranges, opened, none⟩ with
    | none => simp [hstore] at hrun
    | some result =>
      obtain ⟨status, w⟩ := result
      obtain ⟨hstored, hclean⟩ := storeSectors_spec hcall (hcareful opened hopen) hstore
      obtain ⟨hwait, hdb, -⟩ := dedupBgWait_spec hstored
      cases status with
      | none =>
        simp only [hstore, Option.some.injEq] at hrun
        subst hrun
        split_ifs with hempty
        · subst hempty
          simp only [storeSectors, Option.some.injEq, Prod.mk.injEq, true_and] at hstore
          subst hstore
          refine ⟨hwait.finish, ?_⟩
          rcases hvalid.last with hzero | ⟨j, other, hj, hlba⟩ | hheld
          · exact .inl hzero
          · by_cases hij : j = i
            · subst hij
              refine .inr (.inl ⟨j, opened, update_self _ _ _, ?_⟩)
              rw [openedCache, hj, Option.some_or] at hopen
              exact Option.some.inj hopen ▸ hlba
            · exact .inr (.inl ⟨j, other, (update_of_ne hij _ _).trans hj, hlba⟩)
          · exact .inr (.inr hheld)
        · exact valid_setLast hwait.finish
      | some error =>
        have hnot : ¬((dedupBgWait w).db.dirty = true ∧ (dedupBgWait w).db.blockLba ≠ 0) := by
          rw [hdb]
          rintro ⟨hdirty, hlba⟩
          rw [hclean (Option.some_ne_none _) hlba] at hdirty
          exact Bool.false_ne_true hdirty
        simp only [hstore, dedupBlockFlush, if_neg hnot, ite_self, Option.some.injEq] at hrun
        subst hrun
        exact valid_setLast hwait.finish

section

variable (hcareful : ∀ db, fs.handle i = some db → db.dirty = true → ImageFits g packed db)
include hcareful

theorem flushDedupBlockCache_valid : Valid g (flushDedupBlockCache g i packed fs) := by
  unfold flushDedupBlockCache
  cases hi : fs.handle i with
  | none => exact hvalid
  | some db =>
    have hopen : openedCache .failed i fs = some db := by rw [openedCache, hi, Option.some_or]
    obtain ⟨hcall, -⟩ := openedCache_spec hvalid (fun h ↦ by simp [hi] at h) hopen
    obtain ⟨hflush, -⟩ := dedupBlockFlush_spec hcall fun hdirty _ ↦ hcareful db hi hdirty
    exact valid_setLast hflush.finish

/-- A close leaves a block that the header names and that can be taken up. -/
theorem close_valid : Valid g
      { flushDedupBlockCache g i packed fs with
        handle := update (flushDedupBlockCache g i packed fs).handle i none } := by
  have hflushed := flushDedupBlockCache_valid hvalid hcareful
  refine ⟨hflushed.sound.without, ?_⟩
  unfold flushDedupBlockCache at hflushed ⊢
  cases hi : fs.handle i with
  | none =>
    simp only [← hi, Function.update_eq_self]
    exact hvalid.last
  | some db =>
    simp only [hi] at hflushed ⊢
    generalize dedupBlockFlush g packed fs.ranges db = flushed at hflushed ⊢
    obtain ⟨ranges, db⟩ := flushed
    by_cases hzero : db.blockLba = 0
    · exact .inl hzero
    · obtain ⟨hdata, hge, hle, hfull, hbelow⟩ := hflushed.sound.held i db (update_self _ _ _) hzero
      exact .inr (.inr ⟨rfl, hge, hle, hfull, hbelow⟩)

end

theorem BlockStep.run_valid {step : BlockStep ι} (hcareful : step.Careful g fs)
    (hrun : step.run g fs = some fs') : Valid g fs' := by
  cases step with
  | write i read pool sectors packed =>
    exact writeMediaImageData_valid hvalid hcareful.1 hcareful.2 hrun
  | flush i packed =>
    obtain rfl := Option.some.inj hrun
    exact flushDedupBlockCache_valid hvalid hcareful
  | close i packed =>
    obtain rfl := Option.some.inj hrun
    exact close_valid hvalid hcareful
  | alloc count =>
    simp only [BlockStep.run, Option.map_eq_some_iff] at hrun
    obtain ⟨⟨start, vol⟩, halloc, rfl⟩ := hrun
    exact ⟨hvalid.sound.allocBlocks halloc, hvalid.last⟩
  | free lba count =>
    simp only [BlockStep.run] at hrun
    split_ifs at hrun with hfree
    obtain rfl := Option.some.inj hrun
    exact ⟨hvalid.sound.freeBlocks hfree.1 hfree.2, hvalid.last⟩

end

end Invariant

/-! ### A fresh volume -/

/-- A volume of 4096-byte blocks with nothing but its first seventeen blocks allocated. -/
def freshFiles : FilesState Unit where
  ranges :=
    { vol :=
        { blockSize := 4096
          totalBytes := 4096 * 64
          btreeClumpSize := 64
          dedupClumpSize := 1024
          nextFreeLba := 17
          bitmap := fun bit ↦ decide (bit < 17)
          disk := fun _ ↦ .bytes [] }
      owner := fun _ ↦ none
      lastBlockLba := 0
      lastBlockOffset := 0
      stored := []
      written := [] }
  handle := fun _ ↦ none

theorem freshFiles_valid (g : BlockSizes) : Valid g freshFiles where
  sound :=
    { zero := ⟨rfl, rfl⟩
      owned := fun _ _ h ↦ absurd h.symm (Option.some_ne_none _)
      held := fun _ _ h ↦ absurd h.symm (Option.some_ne_none _)
      apart := fun _ _ _ _ _ h ↦ absurd h.symm (Option.some_ne_none _)
      stored := fun _ h ↦ absurd h List.not_mem_nil
      contained :=
        { written := fun _ h ↦ absurd h List.not_mem_nil
          buffer := fun _ h ↦ absurd h List.not_mem_nil
          apart := List.Pairwise.nil } }
  last := .inl rfl

/-- One sector stored and flushed, without compression. -/
def storeOne (length : ℕ) : List (BlockStep Unit) :=
  [.write () .intact false [⟨length, none⟩] none, .flush () none]

end Obmafs3.BlockRanges
