import Obmafs3.Volume

/-!
# Dedup blocks and their writers

Sectors are appended to dedup blocks, each of which is a run of standard blocks. An open file
keeps the block to which it appends in memory, in its block cache. The header of the dedup tree
says which block was the last one and how far it is filled, and a block cache starts from there.

A block is written as an image: a header and the payload, compressed where that makes it shorter.
Calls of writers are atomic, since they hold the tree lock. The nodes and sector maps that share
the volume allocate and free blocks in steps of their own. Writes to the disk succeed.
-/

set_option autoImplicit false

namespace Obmafs3

/-- `sizeof(struct block_header)`. -/
def blockHeaderSize : ℕ := 58

/-- The block sizes of a volume, and a sector size. A sector fits in a dedup block. -/
structure Geometry where
  blockSize : ℕ
  dedupBlockSize : ℕ
  sectorSize : ℕ
  blockSize_pos : 0 < blockSize
  sectorSize_pos : 0 < sectorSize
  dvd : blockSize ∣ dedupBlockSize
  fits : blockHeaderSize + sectorSize ≤ dedupBlockSize

/-- The image of a payload with its header, as a flush and as a worker of the compression pool write
it. What has been written can be read. -/
structure Codec where
  pack : List UInt8 → List UInt8
  packPool : List UInt8 → List UInt8
  unpack : List UInt8 → Option (List UInt8)
  unpack_pack : ∀ payload, unpack (pack payload) = some payload
  unpack_packPool : ∀ payload, unpack (packPool payload) = some payload
  length_pack : ∀ payload, blockHeaderSize ≤ (pack payload).length ∧
    (pack payload).length ≤ blockHeaderSize + payload.length
  length_packPool : ∀ payload, blockHeaderSize ≤ (packPool payload).length ∧
    (packPool payload).length ≤ blockHeaderSize + payload.length

/-- A part of a write: its bytes in one sector. -/
structure Sector (g : Geometry) where
  bytes : List UInt8
  nonempty : bytes ≠ []
  length_le : bytes.length ≤ g.sectorSize

/-- What a standard block holds of an image. -/
structure Piece where
  image : List UInt8
  part : ℕ
  deriving DecidableEq

/-- A dedup entry, with the bytes of its sector. -/
structure StoredSector where
  hash : ℕ
  lba : ℕ
  offset : ℕ
  bytes : List UInt8

/-- A sector map entry, with the bytes that were written. -/
structure SectorEntry where
  lba : ℕ
  offset : ℕ
  bytes : List UInt8

/-- `struct dedup_block_ctx`, which is also the state of a `struct dedup_block_cache`: the block and
the payload up to the offset. `data` is `none` for a null pointer. -/
structure DedupBlockCtx where
  initialized : Bool
  blockLba : ℕ
  data : Option (List UInt8)
  dirty : Bool

/-- The volume, the header of the dedup tree and the entries. `owner` is the dedup block to which a
standard block belongs. -/
structure BlockStore where
  vol : Volume
  disk : ℕ → Option Piece
  owner : ℕ → Option ℕ
  lastBlockLba : ℕ
  lastBlockOffset : ℕ
  index : List StoredSector

/-- The bytes at an offset of a block. -/
def slice (payload : List UInt8) (offset length : ℕ) : List UInt8 :=
  (payload.drop (offset - blockHeaderSize)).take length

def DedupBlockCtx.offset (db : DedupBlockCtx) : ℕ :=
  db.data.elim 0 fun payload ↦ blockHeaderSize + payload.length

/-- A block cache that is not in use. -/
def closedCache : DedupBlockCtx := ⟨false, 0, none, false⟩

def Geometry.stdBlocks (g : Geometry) : ℕ := g.dedupBlockSize / g.blockSize

/-- The standard blocks that an image needs. -/
def Geometry.neededStd (g : Geometry) (image : List UInt8) : ℕ :=
  (image.length + g.blockSize - 1) / g.blockSize

namespace BlockStore

variable (g : Geometry) (codec : Codec)

def writeImage (st : BlockStore) (lba : ℕ) (image : List UInt8) : BlockStore :=
  { st with disk := fun b ↦
      if lba ≤ b ∧ b < lba + g.neededStd image then some ⟨image, b - lba⟩ else st.disk b }

/-- The payload of the image at a block, when the image is there. -/
def readImage (st : BlockStore) (lba : ℕ) : Option (List UInt8) :=
  match st.disk lba with
  | some ⟨image, 0⟩ =>
    if ∀ k < g.neededStd image, st.disk (lba + k) = some ⟨image, k⟩ then codec.unpack image else none
  | _ => none

/-- `obmafs3_alloc_blocks` for a dedup block. -/
def allocDedupBlock (st : BlockStore) : Option (ℕ × BlockStore) :=
  match st.vol.allocBlocks g.stdBlocks with
  | none => none
  | some (start, vol) =>
    some (start, { st with
      vol
      disk := fun b ↦ if start ≤ b ∧ b < start + g.stdBlocks then none else st.disk b
      owner := fun b ↦ if start ≤ b ∧ b < start + g.stdBlocks then some start else st.owner b })

/-- The read of a sector through its sector map entry. -/
def readSector (st : BlockStore) (w : SectorEntry) : Option (List UInt8) :=
  (st.readImage g codec w.lba).map fun payload ↦ slice payload w.offset w.bytes.length

/-- `dedup_block_init`. `garbage` is what a read of blocks without an image gives, if it succeeds. -/
def dedupBlockInit (garbage : Option (List UInt8)) (st : BlockStore) : Option DedupBlockCtx :=
  if st.lastBlockLba ≠ 0 then
    match (st.readImage g codec st.lastBlockLba).or garbage with
    | none => none
    | some payload =>
      let length := st.lastBlockOffset - blockHeaderSize
      some ⟨true, st.lastBlockLba, some ((payload ++ List.replicate length 0).take length), false⟩
  else some ⟨true, 0, some [], false⟩

end BlockStore

/-! ### A call of a writer -/

/-- The state of a call. `job` are the trailing blocks of the block that the pool has last been
given, which are freed when the call waits for the pool. -/
structure WriteState where
  st : BlockStore
  db : DedupBlockCtx
  job : Option (ℕ × ℕ)

section Calls

variable (g : Geometry) (codec : Codec)

/-- `dedup_bg_wait`. -/
def dedupBgWait (w : WriteState) : WriteState :=
  match w.job with
  | none => w
  | some (lba, count) =>
    { w with st := { w.st with vol := w.st.vol.freeBlocks lba count }, job := none }

/-- `dedup_bg_submit`. The trailing blocks do not belong to the block any more. -/
def dedupBgSubmit (payload : List UInt8) (w : WriteState) : WriteState :=
  let needed := g.neededStd (codec.packPool payload)
  let st := w.st.writeImage g w.db.blockLba (codec.packPool payload)
  { w with
    st := { st with owner := fun b ↦
      if w.db.blockLba + needed ≤ b ∧ b < w.db.blockLba + g.stdBlocks then none else st.owner b }
    job := some (w.db.blockLba + needed, g.stdBlocks - needed) }

/-- `dedup_block_flush`. -/
def dedupBlockFlush (st : BlockStore) (db : DedupBlockCtx) : BlockStore × DedupBlockCtx :=
  match db.data with
  | none => (st, db)
  | some payload =>
    if db.dirty = true ∧ db.blockLba ≠ 0 then
      (st.writeImage g db.blockLba (codec.pack payload), { db with dirty := false })
    else (st, db)

/-- `dedup_block_new`. Without a buffer it does not come back. -/
def dedupBlockNew (w : WriteState) : Option (Option ErrorCode × WriteState) :=
  let (st, db) := dedupBlockFlush g codec w.st w.db
  match st.allocDedupBlock g with
  | none => some (some .noSpc, { w with st, db })
  | some (start, st) =>
    if db.data = none then none
    else
      some (none,
        { w with st, db := { db with blockLba := start, data := some [], dirty := false } })

/-- The first part of `dedup_block_store`, which sees to it that the sector has room. -/
def dedupBlockRoom (pool : Bool) (length : ℕ) (w : WriteState) :
    Option (Option ErrorCode × WriteState) :=
  if w.db.blockLba = 0 then dedupBlockNew g codec w
  else if w.db.offset + length ≤ g.dedupBlockSize then some (none, w)
  else if pool then
    match w.db.data with
    | none => none
    | some payload =>
      let w := dedupBgSubmit g codec payload (dedupBgWait w)
      match w.st.allocDedupBlock g with
      | none =>
        some (some .noSpc, { w with db := { w.db with blockLba := 0, data := none, dirty := false } })
      | some (start, st) =>
        some (none,
          { w with st, db := { w.db with blockLba := start, data := some [], dirty := false } })
  else dedupBlockNew g codec w

/-- The sectors of a call in the order in which they are looked up. A sector takes the location of an
entry that the key set, the buffers, the lookup cache and the tree lead to, if they do, and is stored
otherwise. -/
def storeSectors (pool : Bool) (hash : List UInt8 → ℕ) (finds : StoredSector → Bool) :
    List (Sector g) → WriteState → Option (Option ErrorCode × List SectorEntry × WriteState)
  | [], w => some (none, [], w)
  | s :: sectors, w =>
    match w.st.index.find? fun e ↦ e.hash = hash s.bytes ∧ finds e with
    | some e =>
      (storeSectors pool hash finds sectors w).map fun (status, entries, w) ↦
        (status, ⟨e.lba, e.offset, s.bytes⟩ :: entries, w)
    | none =>
      match dedupBlockRoom g codec pool s.bytes.length w with
      | none => none
      | some (some error, w) => some (some error, [], w)
      | some (none, w) =>
        let location : SectorEntry := ⟨w.db.blockLba, w.db.offset, s.bytes⟩
        let st := { w.st with
          index := ⟨hash s.bytes, location.lba, location.offset, s.bytes⟩ :: w.st.index }
        let db := { w.db with data := w.db.data.map (· ++ s.bytes), dirty := true }
        (storeSectors pool hash finds sectors { w with st, db }).map fun (status, entries, w) ↦
          (status, location :: entries, w)

/-- The block cache with which a call works. -/
def openedCache (garbage : Option (List UInt8)) (st : BlockStore) (db : DedupBlockCtx) :
    Option DedupBlockCtx :=
  if db.initialized then some db else st.dedupBlockInit g codec garbage

/-- `dedup_hdr.last_block_lba` and `last_block_offset` when a call or a flush ends. -/
def BlockStore.setLast (st : BlockStore) (db : DedupBlockCtx) : BlockStore :=
  { st with lastBlockLba := db.blockLba, lastBlockOffset := db.offset }

/-- The part of `obmafs3_write_media_image_data` that stores the sectors. When it fails, the cache is
written, and no sector map entries come of it. -/
def dedupWrite (pool : Bool) (hash : List UInt8 → ℕ) (sectors : List (Sector g))
    (finds : StoredSector → Bool) (garbage : Option (List UInt8)) (st : BlockStore)
    (db : DedupBlockCtx) :
    Option (Option ErrorCode × List SectorEntry × BlockStore × DedupBlockCtx) :=
  match openedCache g codec garbage st db with
  | none => some (some .io, [], st, db)
  | some opened =>
    match storeSectors g codec pool hash finds sectors ⟨st, opened, none⟩ with
    | none => none
    | some (none, entries, w) =>
      let w := dedupBgWait w
      let misses := w.st.index.length - st.index.length
      some (none, entries, if 0 < misses then w.st.setLast w.db else w.st, w.db)
    | some (some error, _, w) =>
      let w := dedupBgWait w
      let (st, db) := dedupBlockFlush g codec w.st w.db
      some (some error, [], st.setLast db, db)

end Calls

/-! ### Open files -/

/-- The volume, and the block cache and the sector map of each open file. -/
structure HandlesState (ι : Type) where
  store : BlockStore
  handle : ι → DedupBlockCtx
  image : ι → List SectorEntry

/-- What happens next: a call of a writer, which finds some of the entries, or a flush or a close of a
file, or the allocation or the freeing of blocks for something else. -/
inductive HandleStep (g : Geometry) (ι : Type)
  | write (i : ι) (sectors : List (Sector g)) (finds : StoredSector → Bool)
      (garbage : Option (List UInt8))
  | flush (i : ι)
  | close (i : ι)
  | alloc (count : ℕ)
  | free (lba count : ℕ)

section Steps

variable {ι : Type} [DecidableEq ι] (g : Geometry) (codec : Codec) (pool : Bool)
  (hash : List UInt8 → ℕ)

/-- `obmafs3_write_media_image_data`, with the sectors that it looks up. -/
def writeMediaImageData (i : ι) (sectors : List (Sector g)) (finds : StoredSector → Bool)
    (garbage : Option (List UInt8)) (hs : HandlesState ι) : Option (HandlesState ι) :=
  (dedupWrite g codec pool hash sectors finds garbage hs.store (hs.handle i)).map
    fun (_, entries, store, db) ↦ {
      store
      handle := Function.update hs.handle i db
      image := Function.update hs.image i (hs.image i ++ entries) }

/-- `obmafs3_flush_dedup_block_cache`. -/
def flushDedupBlockCache (i : ι) (hs : HandlesState ι) : HandlesState ι :=
  if (hs.handle i).initialized then
    let (st, db) := dedupBlockFlush g codec hs.store (hs.handle i)
    { hs with store := st.setLast db, handle := Function.update hs.handle i db }
  else hs

def HandleStep.run : HandleStep g ι → HandlesState ι → Option (HandlesState ι)
  | .write i sectors finds garbage, hs =>
    writeMediaImageData g codec pool hash i sectors finds garbage hs
  | .flush i, hs => some (flushDedupBlockCache g codec i hs)
  | .close i, hs =>
    let hs := flushDedupBlockCache g codec i hs
    some { hs with handle := Function.update hs.handle i closedCache }
  | .alloc count, hs =>
    (hs.store.vol.allocBlocks count).map fun (start, vol) ↦
      { hs with store := { hs.store with
          vol
          disk := fun b ↦ if start ≤ b ∧ b < start + count then none else hs.store.disk b } }
  | .free lba count, hs =>
    if 0 < lba ∧ ∀ k < count, hs.store.owner (lba + k) = none then
      some { hs with store := { hs.store with vol := hs.store.vol.freeBlocks lba count } }
    else none

def runHandles : List (HandleStep g ι) → HandlesState ι → Option (HandlesState ι)
  | [], hs => some hs
  | step :: steps, hs => (step.run g codec pool hash hs).bind (runHandles steps)

/-! ### Careful steps -/

/-- The payload has the sector of an entry. -/
def StoredSector.In (e : StoredSector) (payload : List UInt8) : Prop :=
  slice payload e.offset e.bytes.length = e.bytes

/-- The block cache has every sector of its block, and the block has all its standard blocks. -/
def Current (st : BlockStore) (db : DedupBlockCtx) : Prop :=
  db.blockLba ≠ 0 → ∃ payload, db.data = some payload ∧
    (∀ k < g.stdBlocks, st.owner (db.blockLba + k) = some db.blockLba) ∧
      ∀ e ∈ st.index, e.lba = db.blockLba → e.In payload

/-- No two sectors collide, and a cache to which a sector goes, or which is written, is current. -/
def HandleStep.Careful : HandleStep g ι → HandlesState ι → Prop
  | .write i sectors finds garbage, hs =>
    (∀ s ∈ sectors, (∀ e ∈ hs.store.index, e.hash = hash s.bytes → e.bytes = s.bytes) ∧
      ∀ s' ∈ sectors, hash s.bytes = hash s'.bytes → s.bytes = s'.bytes) ∧
      ((∀ s ∈ sectors, ∃ e ∈ hs.store.index, e.hash = hash s.bytes ∧ finds e) ∨
        ∀ db, openedCache g codec garbage hs.store (hs.handle i) = some db → Current g hs.store db)
  | .flush i, hs => (hs.handle i).dirty = true → Current g hs.store (hs.handle i)
  | .close i, hs => (hs.handle i).dirty = true → Current g hs.store (hs.handle i)
  | .alloc _, _ => True
  | .free _ _, _ => True

instance (e : StoredSector) (payload : List UInt8) : Decidable (e.In payload) :=
  inferInstanceAs (Decidable (slice payload e.offset e.bytes.length = e.bytes))

instance (st : BlockStore) (db : DedupBlockCtx) : Decidable (Current g st db) :=
  decidable_of_iff (db.blockLba ≠ 0 → ∃ payload ∈ db.data.toList,
    (∀ k < g.stdBlocks, st.owner (db.blockLba + k) = some db.blockLba) ∧
      ∀ e ∈ st.index, e.lba = db.blockLba → e.In payload) (by simp [Current])

instance (step : HandleStep g ι) (hs : HandlesState ι) : Decidable (step.Careful g codec hash hs) :=
  match step with
  | .write i sectors _ garbage =>
    have : Decidable (∀ db, openedCache g codec garbage hs.store (hs.handle i) = some db →
        Current g hs.store db) :=
      decidable_of_iff (∀ db ∈ (openedCache g codec garbage hs.store (hs.handle i)).toList,
        Current g hs.store db) (by simp)
    inferInstanceAs (Decidable (_ ∧ (_ ∨ ∀ db, _ = some db → Current g hs.store db)))
  | .flush i => inferInstanceAs (Decidable ((hs.handle i).dirty = true → _))
  | .close i => inferInstanceAs (Decidable ((hs.handle i).dirty = true → _))
  | .alloc _ => isTrue trivial
  | .free _ _ => isTrue trivial

def AllHandlesCareful : List (HandleStep g ι) → HandlesState ι → Prop
  | [], _ => True
  | step :: steps, hs =>
    step.Careful g codec hash hs ∧
      ∀ hs', step.run g codec pool hash hs = some hs' → AllHandlesCareful steps hs'

instance decidableAllHandlesCareful (steps : List (HandleStep g ι)) (hs : HandlesState ι) :
    Decidable (AllHandlesCareful g codec pool hash steps hs) :=
  match steps with
  | [] => isTrue trivial
  | step :: steps =>
    have (hs' : HandlesState ι) : Decidable (AllHandlesCareful g codec pool hash steps hs') :=
      decidableAllHandlesCareful steps hs'
    decidable_of_iff (step.Careful g codec hash hs ∧
      ∀ hs' ∈ (step.run g codec pool hash hs).toList, AllHandlesCareful g codec pool hash steps hs')
      (by simp [AllHandlesCareful])

end Steps

end Obmafs3
