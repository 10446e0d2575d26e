import Mathlib.Data.List.TakeWhile
import Obmafs3.Dedup.BlockStore
import Obmafs3.Library.ByteImage

/-!
# The block cache of a reader

A read of a media image takes its sectors from dedup blocks, and a caller may keep the last block
from one call to the next. The buffers of the cache are filled before a block is checked, and the
LBA of the block that they hold is written back only by a call that succeeds. So a call that fails
can leave the LBA of one block over the bytes of another, and a block that a write appends to is
not read again as long as its LBA stands.

`readMediaImageData_noCache` says when the cache does no harm: no call that fails has written over
the bytes of the block whose LBA stands, and no call looks there for a sector that was appended
after the block was read.

The sectors of a call are looked up before the first block is read, without the cache. Buffers have
no end: the sizes in a header fit them, as those who write blocks see to it.
-/

set_option autoImplicit false

namespace Obmafs3

open Library.ByteImage

/-! ### The source -/

/-- The size of standard blocks and the decompressors, for a compression type, the bytes and the
size of the output. A decompressor that fails leaves what it has written. -/
structure BlockFormat where
  blockSize : ℕ
  header_le : blockHeaderSize ≤ blockSize
  decompress : ℕ → List UInt8 → ℕ → Except (List UInt8) (List UInt8)

/-- `OBMAFS3_BLOCK_MAGIC`. -/
def blockMagic : ℕ := 0x4B434C42414D424F

/-- The fields of `struct block_header` that a read looks at. -/
structure DedupBlockHeader where
  magic : ℕ
  flags : ℕ
  compressionType : ℕ
  originalSize : ℕ
  compressedSize : ℕ

namespace DedupBlockHeader

def parse (bytes : List UInt8) : DedupBlockHeader where
  magic := number (fieldBytes bytes 0 8)
  flags := number (fieldBytes bytes 8 1)
  compressionType := number (fieldBytes bytes 9 1)
  originalSize := number (fieldBytes bytes 10 8)
  compressedSize := number (fieldBytes bytes 18 8)

/-- `OBMAFS3_BLOCK_FLAG_COMPRESSED`. -/
def compressed (bhdr : DedupBlockHeader) : Bool := bhdr.flags.testBit 0

def payloadSize (bhdr : DedupBlockHeader) : ℕ :=
  if bhdr.compressed then bhdr.compressedSize else bhdr.originalSize

end DedupBlockHeader

/-- Where a sector is, in a block other than the superblock and behind the header. -/
structure SectorPlace where
  lba : ℕ
  offset : ℕ
  lba_ne : lba ≠ 0
  header_le : blockHeaderSize ≤ offset

/-- What one pass of the loop copies. -/
structure ReadChunk where
  place : SectorPlace
  offsetInSector : ℕ
  size : ℕ

/-- The passes of the loop from `bytesRead` on. -/
def readChunks (places : ℕ → SectorPlace) (sectorSize offset size : ℕ) :
    (fuel bytesRead : ℕ) → List ReadChunk
  | 0, _ => []
  | fuel + 1, bytesRead =>
    if bytesRead < size then
      let readPos := offset + bytesRead
      let offsetInSector := readPos % sectorSize
      let chunk := min (size - bytesRead) (sectorSize - offsetInSector)
      ⟨places (readPos / sectorSize - offset / sectorSize), offsetInSector, chunk⟩ ::
        readChunks places sectorSize offset size fuel (bytesRead + chunk)
    else []

/-- A call. `places` is what the lookup of its sectors gives, and `faults` says which of its reads
of dedup blocks fail and what they transfer before; a block has two of them. -/
structure ReadCall where
  offset : ℕ
  size : ℕ
  fileSize : ℕ
  sectorSize : ℕ
  sectorSize_pos : 0 < sectorSize
  places : Except ErrorCode (ℕ → SectorPlace)
  faults : ℕ → Option (List UInt8)

/-- The size that is left up to the end of the file. -/
def ReadCall.length (call : ReadCall) : ℕ :=
  if call.fileSize < call.offset + call.size then call.fileSize - call.offset else call.size

/-- `struct media_dedup_block_cache`. -/
structure MediaDedupBlockCache where
  dedupBuf : Image
  decompBuf : Image
  cachedLba : ℕ
  compressed : Bool

/-- `obmafs3_alloc_media_dedup_cache`, and the buffers of a call without a cache. -/
def allocMediaDedupCache (dedupBuf decompBuf : Image) : MediaDedupBlockCache :=
  ⟨dedupBuf, decompBuf, 0, false⟩

/-- The copy of a chunk out of the buffers. -/
def MediaDedupBlockCache.copy (c : MediaDedupBlockCache) (chunk : ReadChunk) : List UInt8 :=
  if c.compressed then
    c.decompBuf.bytesAt (chunk.place.offset - blockHeaderSize + chunk.offsetInSector) chunk.size
  else c.dedupBuf.bytesAt (chunk.place.offset + chunk.offsetInSector) chunk.size

namespace BlockFormat

variable (fmt : BlockFormat) (img : Image) (faults : ℕ → Option (List UInt8))

/-- `obmafs3_block_read`; a read that fails transfers some bytes. -/
def blockRead (fault : Option (List UInt8)) (lba size : ℕ) : Except (List UInt8) (List UInt8) :=
  match fault with
  | some torn => .error (torn.take size)
  | none =>
    match img.pread (lba * fmt.blockSize) size with
    | some bytes => .ok bytes
    | none =>
      .error (img.bytesAt (lba * fmt.blockSize) (min size (img.size - lba * fmt.blockSize)))

/-- The standard blocks that a block takes. -/
def neededStd (bhdr : DedupBlockHeader) : ℕ :=
  (blockHeaderSize + bhdr.payloadSize + fmt.blockSize - 1) / fmt.blockSize

/-- What the reads of a block leave at the start of `dedup_buf`, and its header if it can be used.
-/
def readBlock (lba reads : ℕ) : List UInt8 × Option DedupBlockHeader :=
  match fmt.blockRead img (faults reads) lba fmt.blockSize with
  | .error torn => (torn, none)
  | .ok first =>
    let bhdr := DedupBlockHeader.parse first
    if bhdr.magic ≠ blockMagic then (first, none)
    else if 1 < fmt.neededStd bhdr then
      match fmt.blockRead img (faults (reads + 1)) (lba + 1)
        ((fmt.neededStd bhdr - 1) * fmt.blockSize) with
      | .error torn => (first ++ torn, none)
      | .ok rest => (first ++ rest, some bhdr)
    else (first, some bhdr)

/-- A block that is not the cached one is read into the buffers. -/
def fetchBlock (lba reads : ℕ) (c : MediaDedupBlockCache) : Bool × MediaDedupBlockCache :=
  match fmt.readBlock img faults lba reads with
  | (bytes, none) => (false, { c with dedupBuf := c.dedupBuf.pwrite 0 bytes })
  | (bytes, some bhdr) =>
    let src := (bytes.drop blockHeaderSize).take bhdr.compressedSize
    if bhdr.compressed then
      match fmt.decompress bhdr.compressionType src bhdr.originalSize with
      | .ok out =>
        (true, ⟨c.dedupBuf.pwrite 0 bytes, c.decompBuf.pwrite 0 (out.take bhdr.originalSize), lba,
          true⟩)
      | .error torn =>
        (false, ⟨c.dedupBuf.pwrite 0 bytes, c.decompBuf.pwrite 0 (torn.take bhdr.originalSize), lba,
          c.compressed⟩)
    else (true, ⟨c.dedupBuf.pwrite 0 bytes, c.decompBuf, lba, false⟩)

/-- The loop over the chunks. -/
def copyChunks : List ReadChunk → (reads : ℕ) → MediaDedupBlockCache →
    Option (List UInt8) × MediaDedupBlockCache
  | [], _, c => (some [], c)
  | chunk :: chunks, reads, c =>
    if chunk.place.lba ≠ c.cachedLba then
      match fmt.fetchBlock img faults chunk.place.lba reads c with
      | (false, c) => (none, c)
      | (true, c) =>
        let rest := copyChunks chunks (reads + 2) c
        (rest.1.map (c.copy chunk ++ ·), rest.2)
    else
      let rest := copyChunks chunks reads c
      (rest.1.map (c.copy chunk ++ ·), rest.2)

/-- `obmafs3_read_media_image_data`. The LBA and the flag of a call that fails are not written
back. -/
def readMediaImageData (call : ReadCall) (c : MediaDedupBlockCache) :
    Except ErrorCode (List UInt8) × MediaDedupBlockCache :=
  if call.fileSize ≤ call.offset then (.ok [], c)
  else if call.length = 0 then (.ok [], c)
  else
    match call.places with
    | .error e => (.error e, c)
    | .ok places =>
      match fmt.copyChunks img call.faults
        (readChunks places call.sectorSize call.offset call.length call.length 0) 0 c with
      | (some bytes, c) => (.ok bytes, c)
      | (none, c') => (.error .io, { c' with cachedLba := c.cachedLba, compressed := c.compressed })

end BlockFormat

/-! ### What a block holds -/

def noFaults : ℕ → Option (List UInt8) := fun _ ↦ none

namespace BlockFormat

variable (fmt : BlockFormat) (img : Image) (faults : ℕ → Option (List UInt8))

/-- The payload of the block at an LBA, when it can be read. -/
def payload (lba : ℕ) : Option (List UInt8) :=
  match fmt.readBlock img noFaults lba 0 with
  | (_, none) => none
  | (bytes, some bhdr) =>
    let src := (bytes.drop blockHeaderSize).take bhdr.compressedSize
    if bhdr.compressed then
      match fmt.decompress bhdr.compressionType src bhdr.originalSize with
      | .ok out => some (out.take bhdr.originalSize)
      | .error _ => none
    else some ((bytes.drop blockHeaderSize).take bhdr.originalSize)

/-- Blocks are only appended to. -/
def Appends (img img' : Image) : Prop :=
  ∀ lba payload, fmt.payload img lba = some payload →
    ∃ more, fmt.payload img' lba = some (payload ++ more)

end BlockFormat

namespace ReadChunk

/-- Where the chunk starts in the payload of its block. -/
def start (chunk : ReadChunk) : ℕ := chunk.place.offset - blockHeaderSize + chunk.offsetInSector

def stop (chunk : ReadChunk) : ℕ := chunk.start + chunk.size

/-- The bytes of the chunk in its block. -/
def bytes (fmt : BlockFormat) (img : Image) (chunk : ReadChunk) : List UInt8 :=
  (((fmt.payload img chunk.place.lba).getD []).drop chunk.start).take chunk.size

end ReadChunk

/-- The chunks that a call copies. -/
def ReadCall.chunks (call : ReadCall) : List ReadChunk :=
  match call.places with
  | .error _ => []
  | .ok places => readChunks places call.sectorSize call.offset call.length call.length 0

/-- The sectors of a call are in their blocks. -/
def ReadCall.Inside (fmt : BlockFormat) (img : Image) (call : ReadCall) : Prop :=
  ∀ chunk ∈ call.chunks, ∀ payload ∈ fmt.payload img chunk.place.lba, chunk.stop ≤ payload.length

instance decidableInside (fmt : BlockFormat) (img : Image) (call : ReadCall) :
    Decidable (call.Inside fmt img) :=
  inferInstanceAs (Decidable (∀ chunk ∈ call.chunks, ∀ payload ∈ fmt.payload img chunk.place.lba,
    chunk.stop ≤ payload.length))

/-- The same call without a read that fails. -/
def ReadCall.undisturbed (call : ReadCall) : ReadCall := { call with faults := noFaults }

/-! ### Runs -/

/-- A call with the cache, or a write that makes another volume of the one there is. -/
inductive ReadEvent
  | read (call : ReadCall)
  | write (img : Image)

/-- A volume and the cache of a reader. The code does not know `held`, which is how much of the
block in the cache there was when it was read. -/
structure ReadSession where
  img : Image
  cache : MediaDedupBlockCache
  held : ℕ

namespace BlockFormat

variable (fmt : BlockFormat)

/-- How much there was of the block that is in the cache after the chunks. -/
def heldAfter (img : Image) : List ReadChunk → (lba held : ℕ) → ℕ
  | [], _, held => held
  | chunk :: chunks, lba, held =>
    if chunk.place.lba = lba then heldAfter img chunks lba held
    else heldAfter img chunks chunk.place.lba ((fmt.payload img chunk.place.lba).getD []).length

/-- Whether the chunks of a call write to the buffer of a block that is compressed or not, before
the call ends. -/
def spoils (img : Image) (faults : ℕ → Option (List UInt8)) (compressed : Bool) :
    List ReadChunk → (lba reads : ℕ) → Bool
  | [], _, _ => false
  | chunk :: chunks, lba, reads =>
    if chunk.place.lba = lba then spoils img faults compressed chunks lba reads
    else if compressed then
      match fmt.readBlock img faults chunk.place.lba reads with
      | (_, none) => false
      | (_, some bhdr) =>
        bhdr.compressed || spoils img faults compressed chunks chunk.place.lba (reads + 2)
    else (fmt.readBlock img faults chunk.place.lba reads).1 ≠ []

end BlockFormat

namespace ReadSession

variable (fmt : BlockFormat) (s : ReadSession)

def succeeds (call : ReadCall) : Bool := (fmt.readMediaImageData s.img call s.cache).1.isOk

def step (s : ReadSession) : ReadEvent → ReadSession
  | .read call =>
    { s with
      cache := (fmt.readMediaImageData s.img call s.cache).2
      held :=
        if s.succeeds fmt call then fmt.heldAfter s.img call.chunks s.cache.cachedLba s.held
        else s.held }
  | .write img => { s with img }

def run (events : List ReadEvent) : ReadSession := events.foldl (step fmt) s

/-- The sectors of a call are in their blocks, and a write appends. -/
def Proper (s : ReadSession) : ReadEvent → Prop
  | .read call => call.Inside fmt s.img
  | .write img => fmt.Appends s.img img

/-- A call that fails does not write to the buffer of the block whose LBA stands, if there is one,
and a call that succeeds looks there only for what was there when the block was read. -/
def Careful (s : ReadSession) : ReadEvent → Prop
  | .read call =>
    (s.succeeds fmt call = true →
      ∀ chunk ∈ call.chunks.takeWhile (·.place.lba = s.cache.cachedLba), chunk.stop ≤ s.held) ∧
      (s.succeeds fmt call = false → s.cache.cachedLba ≠ 0 →
        fmt.spoils s.img call.faults s.cache.compressed call.chunks s.cache.cachedLba 0 = false)
  | .write _ => True

instance decidableProper (call : ReadCall) : Decidable (s.Proper fmt (.read call)) :=
  inferInstanceAs (Decidable (call.Inside fmt s.img))

instance decidableCareful (call : ReadCall) : Decidable (s.Careful fmt (.read call)) :=
  inferInstanceAs (Decidable ((s.succeeds fmt call = true →
    ∀ chunk ∈ call.chunks.takeWhile (·.place.lba = s.cache.cachedLba), chunk.stop ≤ s.held) ∧
      (s.succeeds fmt call = false → s.cache.cachedLba ≠ 0 →
        fmt.spoils s.img call.faults s.cache.compressed call.chunks s.cache.cachedLba 0 = false)))

/-- Every event of a run finds a session in which it has the property. -/
def Along (P : ReadSession → ReadEvent → Prop) : List ReadEvent → ReadSession → Prop
  | [], _ => True
  | event :: events, s => P s event ∧ Along P events (s.step fmt event)

end ReadSession

/-! ### Blocks in the buffers -/

variable {fmt : BlockFormat} {img img' : Image} {faults : ℕ → Option (List UInt8)} {lba reads : ℕ}
variable {bytes payload : List UInt8} {bhdr : DedupBlockHeader} {c c' : MediaDedupBlockCache}

namespace BlockFormat

theorem blockRead_ok {fault : Option (List UInt8)} {size : ℕ}
    (hread : fmt.blockRead img fault lba size = .ok bytes) :
    fmt.blockRead img none lba size = .ok bytes ∧ bytes.length = size := by
  unfold blockRead at hread ⊢
  cases fault with
  | some torn => cases hread
  | none =>
    refine ⟨hread, ?_⟩
    dsimp only at hread
    cases hbytes : img.pread (lba * fmt.blockSize) size with
    | none =>
      rw [hbytes] at hread
      cases hread
    | some found =>
      rw [hbytes] at hread
      cases hread
      exact Image.length_of_pread hbytes

/-- A block that is read once is read again, and its bytes are there. -/
theorem readBlock_ok (hread : fmt.readBlock img faults lba reads = (bytes, some bhdr)) (n : ℕ) :
    fmt.readBlock img noFaults lba n = (bytes, some bhdr) ∧
      blockHeaderSize + bhdr.payloadSize ≤ bytes.length := by
  unfold readBlock at hread ⊢
  cases hfirst : fmt.blockRead img (faults reads) lba fmt.blockSize with
  | error torn =>
    rw [hfirst] at hread
    cases hread
  | ok first =>
    obtain ⟨hagain, hlength⟩ := blockRead_ok hfirst
    have hagain : fmt.blockRead img (noFaults n) lba fmt.blockSize = .ok first := hagain
    rw [hfirst] at hread
    rw [hagain]
    dsimp only at hread ⊢
    generalize DedupBlockHeader.parse first = parsed at hread ⊢
    have hpos : 0 < fmt.blockSize := Nat.lt_of_lt_of_le (by decide) fmt.header_le
    have hneeded : blockHeaderSize + parsed.payloadSize ≤ fmt.neededStd parsed * fmt.blockSize := by
      have hdiv := Nat.div_add_mod (blockHeaderSize + parsed.payloadSize + fmt.blockSize - 1)
        fmt.blockSize
      have hmod := Nat.mod_lt (blockHeaderSize + parsed.payloadSize + fmt.blockSize - 1) hpos
      rw [Nat.mul_comm] at hdiv
      unfold neededStd
      omega
    split_ifs at hread ⊢ with hmagic hmore
    · cases hread
    · cases hrest : fmt.blockRead img (faults (reads + 1)) (lba + 1)
        ((fmt.neededStd parsed - 1) * fmt.blockSize) with
      | error torn =>
        rw [hrest] at hread
        cases hread
      | ok rest =>
        obtain ⟨hagain', hlength'⟩ := blockRead_ok hrest
        have hagain' : fmt.blockRead img (noFaults (n + 1)) (lba + 1)
            ((fmt.neededStd parsed - 1) * fmt.blockSize) = .ok rest := hagain'
        rw [hrest] at hread
        rw [hagain']
        cases hread
        refine ⟨rfl, ?_⟩
        rw [List.length_append, hlength, hlength', Nat.sub_mul]
        omega
    · cases hread
      refine ⟨rfl, ?_⟩
      have hone := Nat.mul_le_mul_right fmt.blockSize (Nat.le_of_not_lt hmore)
      omega

end BlockFormat

namespace MediaDedupBlockCache

/-- The buffer of a block that is compressed or not. -/
def buffer (c : MediaDedupBlockCache) (compressed : Bool) : Image :=
  if compressed then c.decompBuf else c.dedupBuf

/-- The payload of the block in the cache, from an offset on. -/
def live (c : MediaDedupBlockCache) (off len : ℕ) : List UInt8 :=
  (c.buffer c.compressed).bytesAt ((if c.compressed then 0 else blockHeaderSize) + off) len

theorem copy_eq (c : MediaDedupBlockCache) (chunk : ReadChunk) :
    c.copy chunk = c.live chunk.start chunk.size := by
  have hoffset := chunk.place.header_le
  unfold copy live buffer ReadChunk.start
  cases c.compressed with
  | true =>
    simp only [if_true, Nat.zero_add]
  | false =>
    simp only [Bool.false_eq_true, if_false]
    congr 1
    omega

/-- What a part of the payload is follows from what its beginning is. -/
theorem live_of_beginning {held off len : ℕ} (hlive : c.live 0 held = payload.take held)
    (hin : off + len ≤ held) : c.live off len = (payload.drop off).take len := by
  have hpart : fieldBytes (c.live 0 held) off len = c.live off len := by
    unfold live
    rw [Image.fieldBytes_bytesAt hin, Nat.add_zero]
  rw [← hpart, hlive, fieldBytes_take hin, fieldBytes]

/-- The first `held` bytes of the block whose LBA stands are in the buffer. -/
def Holds (c : MediaDedupBlockCache) (fmt : BlockFormat) (img : Image) (held : ℕ) : Prop :=
  c.cachedLba ≠ 0 → ∃ payload, fmt.payload img c.cachedLba = some payload ∧ held ≤ payload.length ∧
    c.live 0 held = payload.take held

end MediaDedupBlockCache

theorem MediaDedupBlockCache.Holds.copy {held : ℕ} (h : c.Holds fmt img held) {chunk : ReadChunk}
    (hlba : chunk.place.lba = c.cachedLba) (hin : chunk.stop ≤ held) :
    c.copy chunk = chunk.bytes fmt img := by
  obtain ⟨payload, hpayload, -, hlive⟩ := h (hlba ▸ chunk.place.lba_ne)
  rw [copy_eq, live_of_beginning hlive hin, ReadChunk.bytes, hlba, hpayload, Option.getD_some]

namespace BlockFormat

/-- After a block is read, all of its payload is in the buffer. -/
theorem fetchBlock_ok (hfetch : fmt.fetchBlock img faults lba reads c = (true, c')) :
    ∃ payload, fmt.payload img lba = some payload ∧ c'.cachedLba = lba ∧
      c'.live 0 payload.length = payload := by
  unfold fetchBlock at hfetch
  rcases hread : fmt.readBlock img faults lba reads with ⟨bytes, found⟩
  rw [hread] at hfetch
  cases found with
  | none => cases hfetch
  | some bhdr =>
    obtain ⟨hagain, hlength⟩ := readBlock_ok hread 0
    unfold payload
    rw [hagain]
    dsimp only at hfetch ⊢
    by_cases hcompressed : bhdr.compressed = true
    · rw [if_pos hcompressed] at hfetch ⊢
      cases hout : fmt.decompress bhdr.compressionType
        ((bytes.drop blockHeaderSize).take bhdr.compressedSize) bhdr.originalSize with
      | error torn =>
        rw [hout] at hfetch
        cases hfetch
      | ok out =>
        rw [hout] at hfetch
        cases hfetch
        refine ⟨_, rfl, rfl, ?_⟩
        have hbuf : (c.decompBuf.pwrite 0 (out.take bhdr.originalSize)).bytesAt (0 + 0)
            (out.take bhdr.originalSize).length = fieldBytes (out.take bhdr.originalSize) 0 _ :=
          Image.bytesAt_pwrite (Nat.zero_add _).le
        exact hbuf.trans (List.take_length ..)
    · rw [if_neg hcompressed] at hfetch ⊢
      cases hfetch
      refine ⟨_, rfl, rfl, ?_⟩
      rw [DedupBlockHeader.payloadSize, if_neg hcompressed] at hlength
      have hstored : ((bytes.drop blockHeaderSize).take bhdr.originalSize).length =
          bhdr.originalSize := by
        rw [List.length_take, List.length_drop]
        omega
      rw [hstored]
      have hbuf : (c.dedupBuf.pwrite 0 bytes).bytesAt (0 + blockHeaderSize) bhdr.originalSize =
          fieldBytes bytes blockHeaderSize bhdr.originalSize := Image.bytesAt_pwrite hlength
      exact hbuf

/-- What can be read is read when no read fails. -/
theorem fetchBlock_noFaults (hpayload : fmt.payload img lba = some payload) (reads : ℕ)
    (c : MediaDedupBlockCache) : ∃ c', fmt.fetchBlock img noFaults lba reads c = (true, c') := by
  unfold BlockFormat.payload at hpayload
  rcases hread : fmt.readBlock img noFaults lba 0 with ⟨bytes, found⟩
  rw [hread] at hpayload
  cases found with
  | none => cases hpayload
  | some bhdr =>
    unfold fetchBlock
    rw [(readBlock_ok hread reads).1]
    dsimp only at hpayload ⊢
    split_ifs with hcompressed
    · rw [if_pos hcompressed] at hpayload
      cases hout : fmt.decompress bhdr.compressionType
        ((bytes.drop blockHeaderSize).take bhdr.compressedSize) bhdr.originalSize with
      | error torn =>
        rw [hout] at hpayload
        cases hpayload
      | ok out => exact ⟨_, rfl⟩
    · exact ⟨_, rfl⟩

/-! ### The loop -/

variable {chunk : ReadChunk} {chunks : List ReadChunk} {held : ℕ}

theorem copyChunks_hit (hlba : chunk.place.lba = c.cachedLba) :
    fmt.copyChunks img faults (chunk :: chunks) reads c =
      ((fmt.copyChunks img faults chunks reads c).1.map (c.copy chunk ++ ·),
        (fmt.copyChunks img faults chunks reads c).2) := by
  rw [copyChunks, if_neg (not_not.mpr hlba)]

theorem copyChunks_miss (hlba : chunk.place.lba ≠ c.cachedLba)
    (hfetch : fmt.fetchBlock img faults chunk.place.lba reads c = (true, c')) :
    fmt.copyChunks img faults (chunk :: chunks) reads c =
      ((fmt.copyChunks img faults chunks (reads + 2) c').1.map (c'.copy chunk ++ ·),
        (fmt.copyChunks img faults chunks (reads + 2) c').2) := by
  rw [copyChunks, if_pos hlba, hfetch]

theorem copyChunks_failed (hlba : chunk.place.lba ≠ c.cachedLba)
    (hfetch : fmt.fetchBlock img faults chunk.place.lba reads c = (false, c')) :
    fmt.copyChunks img faults (chunk :: chunks) reads c = (none, c') := by
  rw [copyChunks, if_pos hlba, hfetch]

/-- A loop that ends well has copied the bytes of its chunks, and leaves the last block in the
cache. -/
theorem copyChunks_ok (h : c.Holds fmt img held)
    (hinside : ∀ chunk ∈ chunks, ∀ payload ∈ fmt.payload img chunk.place.lba,
      chunk.stop ≤ payload.length)
    (hheld : ∀ chunk ∈ chunks.takeWhile (·.place.lba = c.cachedLba), chunk.stop ≤ held)
    (hcopy : fmt.copyChunks img faults chunks reads c = (some bytes, c')) :
    (∀ chunk ∈ chunks, fmt.payload img chunk.place.lba ≠ none) ∧
      bytes = chunks.flatMap (ReadChunk.bytes fmt img) ∧
      c'.Holds fmt img (fmt.heldAfter img chunks c.cachedLba held) := by
  induction chunks generalizing c held reads bytes with
  | nil =>
    cases hcopy
    exact ⟨nofun, rfl, h⟩
  | cons chunk chunks ih =>
    have hrest (later : ReadChunk) (hlater : later ∈ chunks) :=
      hinside later (List.mem_cons_of_mem chunk hlater)
    by_cases hlba : chunk.place.lba = c.cachedLba
    · rw [List.takeWhile_cons, if_pos (decide_eq_true hlba)] at hheld
      rw [copyChunks_hit hlba] at hcopy
      obtain ⟨hbytes, rfl⟩ := Prod.mk.inj hcopy
      obtain ⟨copied, hcopied, rfl⟩ := Option.map_eq_some_iff.mp hbytes
      obtain ⟨hreadable, rfl, hholds⟩ := ih h hrest
        (fun later hlater ↦ hheld later (List.mem_cons_of_mem chunk hlater)) (Prod.ext hcopied rfl)
      obtain ⟨payload, hpayload, -⟩ := h (hlba ▸ chunk.place.lba_ne)
      rw [heldAfter, if_pos hlba, List.flatMap_cons, h.copy hlba (hheld chunk List.mem_cons_self)]
      refine ⟨List.forall_mem_cons.mpr ⟨?_, hreadable⟩, rfl, hholds⟩
      rw [hlba, hpayload]
      nofun
    · rcases hfetch : fmt.fetchBlock img faults chunk.place.lba reads c with ⟨fetched, c₁⟩
      cases fetched with
      | false =>
        rw [copyChunks_failed hlba hfetch] at hcopy
        cases hcopy
      | true =>
        obtain ⟨payload, hpayload, hcached, hlive⟩ := fetchBlock_ok hfetch
        have hholds : c₁.Holds fmt img payload.length := fun _ ↦
          ⟨payload, hcached ▸ hpayload, le_rfl, hlive.trans (List.take_length ..).symm⟩
        have hnew (later : ReadChunk)
            (hlater : later ∈ chunks.takeWhile (·.place.lba = c₁.cachedLba)) :
            later.stop ≤ payload.length := by
          have hsame : later.place.lba = c₁.cachedLba := by
            simpa using List.mem_takeWhile_imp hlater
          refine hrest later ((List.takeWhile_sublist _).mem hlater) payload ?_
          rw [hsame, hcached]
          exact hpayload
        rw [copyChunks_miss hlba hfetch] at hcopy
        obtain ⟨hbytes, rfl⟩ := Prod.mk.inj hcopy
        obtain ⟨copied, hcopied, rfl⟩ := Option.map_eq_some_iff.mp hbytes
        obtain ⟨hreadable, rfl, hend⟩ := ih hholds hrest hnew (Prod.ext hcopied rfl)
        rw [heldAfter, if_neg hlba, List.flatMap_cons, hholds.copy hcached.symm
          (hinside chunk List.mem_cons_self payload hpayload), hpayload, Option.getD_some]
        refine ⟨List.forall_mem_cons.mpr ⟨?_, hreadable⟩, rfl, hcached ▸ hend⟩
        rw [hpayload]
        nofun

/-- Where every block can be read and no read fails, the loop ends well. -/
theorem copyChunks_noFaults (hreadable : ∀ chunk ∈ chunks, fmt.payload img chunk.place.lba ≠ none)
    (reads : ℕ) (c : MediaDedupBlockCache) :
    ∃ bytes c', fmt.copyChunks img noFaults chunks reads c = (some bytes, c') := by
  induction chunks generalizing reads c with
  | nil => exact ⟨[], c, rfl⟩
  | cons chunk chunks ih =>
    obtain ⟨hfirst, hrest⟩ := List.forall_mem_cons.mp hreadable
    by_cases hlba : chunk.place.lba = c.cachedLba
    · obtain ⟨bytes, c', hloop⟩ := ih hrest reads c
      rw [copyChunks_hit hlba, hloop]
      exact ⟨_, _, rfl⟩
    · obtain ⟨payload, hpayload⟩ := Option.ne_none_iff_exists'.mp hfirst
      obtain ⟨c₁, hfetch⟩ := fetchBlock_noFaults hpayload reads c
      obtain ⟨bytes, c', hloop⟩ := ih hrest (reads + 2) c₁
      rw [copyChunks_miss hlba hfetch, hloop]
      exact ⟨_, _, rfl⟩

/-! ### Calls that fail -/

variable {fetched : Bool}

section

variable (hfetch : fmt.fetchBlock img faults lba reads c = (fetched, c'))
include hfetch

theorem fetchBlock_dedupBuf :
    c'.dedupBuf = c.dedupBuf.pwrite 0 (fmt.readBlock img faults lba reads).1 := by
  obtain rfl : (fmt.fetchBlock img faults lba reads c).2 = c' := congrArg Prod.snd hfetch
  unfold fetchBlock
  rcases fmt.readBlock img faults lba reads with ⟨bytes, found⟩
  cases found with
  | none => rfl
  | some bhdr =>
    dsimp only
    split_ifs
    · cases fmt.decompress bhdr.compressionType
        ((bytes.drop blockHeaderSize).take bhdr.compressedSize) bhdr.originalSize <;> rfl
    · rfl

theorem fetchBlock_decompBuf
    (hplain : ∀ bhdr, (fmt.readBlock img faults lba reads).2 = some bhdr → bhdr.compressed = false) :
    c'.decompBuf = c.decompBuf := by
  obtain rfl : (fmt.fetchBlock img faults lba reads c).2 = c' := congrArg Prod.snd hfetch
  unfold fetchBlock
  rcases hread : fmt.readBlock img faults lba reads with ⟨bytes, found⟩
  rw [hread] at hplain
  cases found with
  | none => rfl
  | some bhdr =>
    dsimp only
    rw [if_neg (by rw [hplain bhdr rfl]; nofun)]

end

theorem fetchBlock_read (hfetch : fmt.fetchBlock img faults lba reads c = (true, c')) :
    ∃ bhdr, (fmt.readBlock img faults lba reads).2 = some bhdr := by
  unfold fetchBlock at hfetch
  rcases hread : fmt.readBlock img faults lba reads with ⟨bytes, found⟩
  rw [hread] at hfetch
  cases found with
  | none => cases hfetch
  | some bhdr => exact ⟨bhdr, rfl⟩

/-- A loop that fails without spoiling a block leaves its buffer as it was. -/
theorem copyChunks_kept {compressed : Bool}
    (hspoils : fmt.spoils img faults compressed chunks c.cachedLba reads = false)
    (hcopy : fmt.copyChunks img faults chunks reads c = (none, c')) :
    c'.buffer compressed = c.buffer compressed := by
  induction chunks generalizing c reads with
  | nil => cases hcopy
  | cons chunk chunks ih =>
    rw [spoils] at hspoils
    by_cases hlba : chunk.place.lba = c.cachedLba
    · rw [if_pos hlba] at hspoils
      rw [copyChunks_hit hlba] at hcopy
      obtain ⟨hnone, rfl⟩ := Prod.mk.inj hcopy
      exact ih hspoils (Prod.ext (Option.map_eq_none_iff.mp hnone) rfl)
    · rw [if_neg hlba] at hspoils
      rcases hread : fmt.readBlock img faults chunk.place.lba reads with ⟨bytes, found⟩
      rw [hread] at hspoils
      rcases hfetch : fmt.fetchBlock img faults chunk.place.lba reads c with ⟨fetched, c₁⟩
      cases compressed with
      | false =>
        obtain rfl : bytes = [] := by simpa using hspoils
        cases fetched with
        | false =>
          rw [copyChunks_failed hlba hfetch] at hcopy
          cases hcopy
          have hbuf := fetchBlock_dedupBuf hfetch
          rwa [hread, Image.pwrite_nil] at hbuf
        | true =>
          -- A block that is read has a header.
          obtain ⟨bhdr, hfound⟩ := fetchBlock_read hfetch
          obtain rfl : found = some bhdr := by rwa [hread] at hfound
          have hlength := (readBlock_ok hread 0).2
          rw [List.length_nil, blockHeaderSize] at hlength
          omega
      | true =>
        have hplain (bhdr : DedupBlockHeader)
            (hfound : (fmt.readBlock img faults chunk.place.lba reads).2 = some bhdr) :
            bhdr.compressed = false ∧
              fmt.spoils img faults true chunks chunk.place.lba (reads + 2) = false := by
          obtain rfl : found = some bhdr := by rwa [hread] at hfound
          simpa using hspoils
        have hbuf := fetchBlock_decompBuf hfetch fun bhdr hfound ↦ (hplain bhdr hfound).1
        cases fetched with
        | false =>
          rw [copyChunks_failed hlba hfetch] at hcopy
          cases hcopy
          exact hbuf
        | true =>
          obtain ⟨bhdr, hfound⟩ := fetchBlock_read hfetch
          obtain ⟨-, -, hcached, -⟩ := fetchBlock_ok hfetch
          rw [copyChunks_miss hlba hfetch] at hcopy
          obtain ⟨hnone, rfl⟩ := Prod.mk.inj hcopy
          have hrest := (hplain bhdr hfound).2
          rw [← hcached] at hrest
          exact (ih hrest (Prod.ext (Option.map_eq_none_iff.mp hnone) rfl)).trans hbuf

/-- There is nothing behind the end of the volume. -/
theorem payload_beyond (hbeyond : img.size < lba * fmt.blockSize + fmt.blockSize) :
    fmt.payload img lba = none := by
  have hnone : img.pread (lba * fmt.blockSize) fmt.blockSize = none :=
    if_neg (Nat.not_le.mpr hbeyond)
  unfold payload readBlock blockRead noFaults
  dsimp only
  rw [hnone]

end BlockFormat

/-! ### Calls -/

variable {call : ReadCall} {s : ReadSession} {held : ℕ}

theorem ReadCall.length_eq_zero (hbeyond : call.fileSize ≤ call.offset) : call.length = 0 := by
  unfold length
  split_ifs <;> omega

theorem ReadCall.chunks_eq_nil (hempty : call.length = 0) : call.chunks = [] := by
  unfold chunks
  cases call.places with
  | error e => rfl
  | ok places =>
    dsimp only
    rw [hempty]
    rfl

/-- The lookup of the sectors gives their places, or there are none to look up. -/
def ReadCall.LookedUp (call : ReadCall) : Prop :=
  call.length = 0 ∨ ∃ places, call.places = .ok places

theorem readMediaImageData_some (hlooked : call.LookedUp)
    (hcopy : fmt.copyChunks img call.faults call.chunks 0 c = (some bytes, c')) :
    fmt.readMediaImageData img call c = (.ok bytes, c') := by
  unfold BlockFormat.readMediaImageData
  by_cases hempty : call.length = 0
  · rw [ReadCall.chunks_eq_nil hempty] at hcopy
    cases hcopy
    split_ifs
    · rfl
    · rfl
  · obtain ⟨places, hplaces⟩ := hlooked.resolve_left hempty
    rw [if_neg fun hbeyond ↦ hempty (ReadCall.length_eq_zero hbeyond), if_neg hempty, hplaces]
    unfold ReadCall.chunks at hcopy
    rw [hplaces] at hcopy
    dsimp only at hcopy ⊢
    rw [hcopy]

theorem readMediaImageData_none (hlooked : call.LookedUp)
    (hcopy : fmt.copyChunks img call.faults call.chunks 0 c = (none, c')) :
    fmt.readMediaImageData img call c =
      (.error .io, { c' with cachedLba := c.cachedLba, compressed := c.compressed }) := by
  unfold BlockFormat.readMediaImageData
  by_cases hempty : call.length = 0
  · rw [ReadCall.chunks_eq_nil hempty] at hcopy
    cases hcopy
  · obtain ⟨places, hplaces⟩ := hlooked.resolve_left hempty
    rw [if_neg fun hbeyond ↦ hempty (ReadCall.length_eq_zero hbeyond), if_neg hempty, hplaces]
    unfold ReadCall.chunks at hcopy
    rw [hplaces] at hcopy
    dsimp only at hcopy ⊢
    rw [hcopy]

variable (fmt img) in
theorem readMediaImageData_refused (hlooked : ¬call.LookedUp) (c : MediaDedupBlockCache) :
    ∃ e, fmt.readMediaImageData img call c = (.error e, c) := by
  obtain ⟨hempty, hplaces⟩ := not_or.mp hlooked
  unfold BlockFormat.readMediaImageData
  rw [if_neg fun hbeyond ↦ hempty (ReadCall.length_eq_zero hbeyond), if_neg hempty]
  cases hresult : call.places with
  | error e => exact ⟨e, rfl⟩
  | ok places => exact absurd ⟨places, hresult⟩ hplaces

/-- A call that succeeds with the cache gives what it gives without one, and leaves the cache with
the block that it read last. -/
theorem ReadSession.read_ok (h : s.cache.Holds fmt s.img s.held) (hproper : call.Inside fmt s.img)
    (hheld : ∀ chunk ∈ call.chunks.takeWhile (·.place.lba = s.cache.cachedLba), chunk.stop ≤ s.held)
    (hread : fmt.readMediaImageData s.img call s.cache = (.ok bytes, c')) :
    c'.Holds fmt s.img (fmt.heldAfter s.img call.chunks s.cache.cachedLba s.held) ∧
      ∀ dedupBuf decompBuf, (fmt.readMediaImageData s.img call.undisturbed
        (allocMediaDedupCache dedupBuf decompBuf)).1 = .ok bytes := by
  have hlooked : call.LookedUp := by
    by_contra hnot
    obtain ⟨e, herror⟩ := readMediaImageData_refused fmt s.img hnot s.cache
    rw [herror] at hread
    cases hread
  rcases hloop : fmt.copyChunks s.img call.faults call.chunks 0 s.cache with ⟨out, c₁⟩
  cases out with
  | none =>
    rw [readMediaImageData_none hlooked hloop] at hread
    cases hread
  | some out =>
    rw [readMediaImageData_some hlooked hloop] at hread
    cases hread
    obtain ⟨hreadable, rfl, hholds⟩ := BlockFormat.copyChunks_ok h hproper hheld hloop
    refine ⟨hholds, fun dedupBuf decompBuf ↦ ?_⟩
    obtain ⟨bytes', c'', hfresh⟩ := BlockFormat.copyChunks_noFaults hreadable 0
      (allocMediaDedupCache dedupBuf decompBuf)
    have hnone (chunk : ReadChunk) (hmem : chunk ∈ call.chunks.takeWhile (·.place.lba = 0)) :
        chunk.stop ≤ 0 := absurd (by simpa using List.mem_takeWhile_imp hmem) chunk.place.lba_ne
    obtain ⟨-, rfl, -⟩ := BlockFormat.copyChunks_ok (fun hlba ↦ absurd rfl hlba) hproper hnone hfresh
    have hundisturbed : call.undisturbed.LookedUp := hlooked
    rw [readMediaImageData_some hundisturbed hfresh]

/-- A call that fails leaves the block whose LBA stands, unless it spoils it. -/
theorem ReadSession.read_failed (h : s.cache.Holds fmt s.img s.held)
    (hspoils : s.cache.cachedLba ≠ 0 →
      fmt.spoils s.img call.faults s.cache.compressed call.chunks s.cache.cachedLba 0 = false)
    {e : ErrorCode} (hread : fmt.readMediaImageData s.img call s.cache = (.error e, c')) :
    c'.Holds fmt s.img s.held := by
  by_cases hlooked : call.LookedUp
  · rcases hloop : fmt.copyChunks s.img call.faults call.chunks 0 s.cache with ⟨out, c₁⟩
    cases out with
    | some out =>
      rw [readMediaImageData_some hlooked hloop] at hread
      cases hread
    | none =>
      rw [readMediaImageData_none hlooked hloop] at hread
      cases hread
      intro hlba
      have hkept := BlockFormat.copyChunks_kept (hspoils hlba) hloop
      obtain ⟨payload, hpayload, hle, hlive⟩ := h hlba
      refine ⟨payload, hpayload, hle, ?_⟩
      rw [← hlive]
      unfold MediaDedupBlockCache.live
      exact congrArg (fun buf : Image ↦ buf.bytesAt _ _) hkept
  · obtain ⟨e', herror⟩ := readMediaImageData_refused fmt s.img hlooked s.cache
    rw [herror] at hread
    cases hread
    exact h

/-! ### Runs -/

namespace ReadSession

variable {events : List ReadEvent} {event : ReadEvent}

/-- A careful event leaves what the cache holds. -/
theorem step_holds (h : s.cache.Holds fmt s.img s.held) (hproper : s.Proper fmt event)
    (hcareful : s.Careful fmt event) :
    (s.step fmt event).cache.Holds fmt (s.step fmt event).img (s.step fmt event).held := by
  cases event with
  | write img =>
    intro hlba
    obtain ⟨payload, hpayload, hle, hlive⟩ := h hlba
    obtain ⟨more, hmore⟩ := hproper s.cache.cachedLba payload hpayload
    refine ⟨payload ++ more, hmore, ?_, ?_⟩
    · rw [List.length_append]
      exact Nat.le_add_right_of_le hle
    · change s.cache.live 0 s.held = (payload ++ more).take s.held
      rw [List.take_append_of_le_length hle, hlive]
  | read call =>
    rcases hread : fmt.readMediaImageData s.img call s.cache with ⟨result, c'⟩
    unfold step Careful succeeds at *
    dsimp only at hcareful ⊢
    rw [hread] at hcareful ⊢
    cases result with
    | ok bytes => exact (read_ok h hproper (hcareful.1 rfl) hread).1
    | error e => exact read_failed h (hcareful.2 rfl) hread

theorem run_holds (h : s.cache.Holds fmt s.img s.held) (hproper : Along fmt (Proper fmt) events s)
    (hcareful : Along fmt (Careful fmt) events s) :
    (s.run fmt events).cache.Holds fmt (s.run fmt events).img (s.run fmt events).held := by
  induction events generalizing s with
  | nil => exact h
  | cons event events ih => exact ih (step_holds h hproper.1 hcareful.1) hproper.2 hcareful.2

theorem along_concat {P : ReadSession → ReadEvent → Prop} (h : Along fmt P (events ++ [event]) s) :
    Along fmt P events s ∧ P (s.run fmt events) event := by
  induction events generalizing s with
  | nil => exact ⟨trivial, h.1⟩
  | cons first events ih =>
    obtain ⟨hrest, hlast⟩ := ih h.2
    exact ⟨⟨h.1, hrest⟩, hlast⟩

end ReadSession

/-- A new cache over a volume. -/
def freshSession (img dedupBuf decompBuf : Image) : ReadSession :=
  ⟨img, allocMediaDedupCache dedupBuf decompBuf, 0⟩

/-! ### Small volumes -/

/-- Blocks of 64 bytes. What is compressed is one byte that is repeated. -/
def smallFormat : BlockFormat where
  blockSize := 64
  header_le := by decide
  decompress _ src dstSize :=
    match src with
    | [] => .error []
    | byte :: _ => .ok (List.replicate dstSize byte)

/-- The image of a block. -/
def smallBlock (flags originalSize compressedSize : ℕ) (stored : List UInt8) : List UInt8 :=
  bytesOf 8 blockMagic ++ bytesOf 1 flags ++ bytesOf 1 0 ++ bytesOf 8 originalSize ++
    bytesOf 8 compressedSize ++ List.replicate 32 0 ++ stored

/-- Eight blocks: one that is compressed, one without a magic and a plain one. -/
def smallVolume (plain : List UInt8) : Image :=
  ((Image.zeros 512).pwrite 64 (smallBlock 1 4 1 [7])).pwrite 192
    (smallBlock 0 plain.length plain.length plain)

/-- A read of a sector of two bytes. -/
def smallRead (lba offset : ℕ) (hlba : lba ≠ 0) (hoffset : blockHeaderSize ≤ offset) : ReadCall :=
  ⟨0, 2, 2, 2, by decide, .ok fun _ ↦ ⟨lba, offset, hlba, hoffset⟩, noFaults⟩

def compressedRead : ReadCall := smallRead 1 58 (by decide) (by decide)

def brokenRead : ReadCall := smallRead 2 58 (by decide) (by decide)

def plainRead : ReadCall := smallRead 3 58 (by decide) (by decide)

def appendedRead : ReadCall := smallRead 3 60 (by decide) (by decide)

def smallSession : ReadSession := freshSession (smallVolume [1, 2]) (Image.zeros 64) (Image.zeros 64)

theorem smallVolume_appends :
    smallFormat.Appends (smallVolume [1, 2]) (smallVolume [1, 2, 3, 4]) := by
  have hall : ∀ lba < 8, smallFormat.payload (smallVolume [1, 2, 3, 4]) lba =
      (smallFormat.payload (smallVolume [1, 2]) lba).map (· ++ if lba = 3 then [3, 4] else []) := by
    decide +kernel
  intro lba payload hpayload
  by_cases hlba : lba < 8
  · rw [hall lba hlba, hpayload]
    exact ⟨_, rfl⟩
  · rw [BlockFormat.payload_beyond] at hpayload
    · cases hpayload
    · change 512 < lba * 64 + 64
      omega

/-- In a careful run a call that succeeds returns what it returns without a cache. -/
theorem readMediaImageData_noCache {dedupBuf decompBuf : Image} {events : List ReadEvent}
    (hproper : ReadSession.Along fmt (ReadSession.Proper fmt) (events ++ [.read call])
      (freshSession img dedupBuf decompBuf))
    (hcareful : ReadSession.Along fmt (ReadSession.Careful fmt) (events ++ [.read call])
      (freshSession img dedupBuf decompBuf))
    (hok : (fmt.readMediaImageData ((freshSession img dedupBuf decompBuf).run fmt events).img call
      ((freshSession img dedupBuf decompBuf).run fmt events).cache).1 = .ok bytes)
    (dedupBuf' decompBuf' : Image) :
    (fmt.readMediaImageData ((freshSession img dedupBuf decompBuf).run fmt events).img
      call.undisturbed (allocMediaDedupCache dedupBuf' decompBuf')).1 = .ok bytes := by
  obtain ⟨hbefore, hlast⟩ := ReadSession.along_concat hproper
  obtain ⟨hcarefully, hcall⟩ := ReadSession.along_concat hcareful
  have hholds := ReadSession.run_holds (fun hlba ↦ absurd rfl hlba) hbefore hcarefully
  generalize (freshSession img dedupBuf decompBuf).run fmt events = s at *
  rcases hread : fmt.readMediaImageData s.img call s.cache with ⟨result, c'⟩
  rw [hread] at hok
  dsimp only at hok
  subst hok
  have hsucceeds : s.succeeds fmt call = true := by
    unfold ReadSession.succeeds
    rw [hread]
    rfl
  exact (ReadSession.read_ok hholds hlast (hcall.1 hsucceeds) hread).2 dedupBuf' decompBuf'

/-- A block that is compressed stays in the cache while a block without a magic is refused and
another one grows. -/
theorem readMediaImageData_noCache_compressed : (smallFormat.readMediaImageData
      (smallSession.run smallFormat [.read compressedRead, .write (smallVolume [1, 2, 3, 4]),
        .read brokenRead]).img compressedRead.undisturbed
      (allocMediaDedupCache (.zeros 64) (.zeros 64))).1 = .ok [7, 7] := by
  have hproper : ReadSession.Along smallFormat (ReadSession.Proper smallFormat)
      ([.read compressedRead, .write (smallVolume [1, 2, 3, 4]), .read brokenRead] ++
        [.read compressedRead]) smallSession :=
    ⟨by decide +kernel, smallVolume_appends, by decide +kernel, by decide +kernel, trivial⟩
  have hcareful : ReadSession.Along smallFormat (ReadSession.Careful smallFormat)
      ([.read compressedRead, .write (smallVolume [1, 2, 3, 4]), .read brokenRead] ++
        [.read compressedRead]) smallSession :=
    ⟨by decide +kernel, trivial, by decide +kernel, by decide +kernel, trivial⟩
  exact readMediaImageData_noCache hproper hcareful (by decide +kernel) _ _

/-- A plain block in the cache is read wrong after a call for another block was refused, and what
was appended to it is not found. -/
theorem readMediaImageData_poisoned :
    (ReadSession.Along smallFormat (ReadSession.Proper smallFormat)
        [.read plainRead, .read brokenRead, .read plainRead] smallSession ∧
      (smallFormat.readMediaImageData smallSession.img plainRead
        (smallSession.run smallFormat [.read plainRead, .read brokenRead]).cache).1 = .ok [0, 0] ∧
      (smallFormat.readMediaImageData smallSession.img plainRead smallSession.cache).1 =
        .ok [1, 2]) ∧
    ReadSession.Along smallFormat (ReadSession.Proper smallFormat)
        [.read plainRead, .write (smallVolume [1, 2, 3, 4]), .read appendedRead] smallSession ∧
      (smallFormat.readMediaImageData (smallVolume [1, 2, 3, 4]) appendedRead
        (smallSession.run smallFormat [.read plainRead, .write (smallVolume [1, 2, 3, 4])]).cache).1 =
          .ok [0, 0] ∧
      (smallFormat.readMediaImageData (smallVolume [1, 2, 3, 4]) appendedRead
        smallSession.cache).1 = .ok [3, 4] := by
  refine ⟨⟨⟨?_, ?_, ?_, trivial⟩, ?_, ?_⟩, ⟨?_, smallVolume_appends, ?_, trivial⟩, ?_, ?_⟩
  all_goals decide +kernel

end Obmafs3
