import Obmafs3.Btree
import Obmafs3.Cd.Sector
import Obmafs3.Dedup.MediaImage
import Obmafs3.Dedup.Parked
import Obmafs3.Library.SearchTreeRoot

/-!
# A CD image and its sector map

A request to write a raw sector stores the parts of the sector and puts an entry at the end of the
sector map, whatever its LBA is. A read searches the map by halving it. So the map is right as long as
the requests come in the order of their LBAs. `cd_image_reads` says that such requests read back.

The sectors of every size have a dedup tree of their own. The image has one block cache, which it
closes when the size changes, and the last blocks of the other trees are parked meanwhile.
-/

set_option autoImplicit false

namespace Obmafs3

open Library.Search Library.SearchTree
open Function (update update_of_ne update_self)

/-! ### Volumes -/

/-- The block sizes of a volume with dedup blocks that have room for a raw sector. -/
structure CdVolume where
  blockSize : ℕ
  dedupBlockSize : ℕ
  formatted : 512 ≤ blockSize ∧ blockSize ≤ 65536
  dvd : blockSize ∣ dedupBlockSize
  fits : blockHeaderSize + cdRawSectorSize ≤ dedupBlockSize

/-- The geometry of the dedup tree for the data of a mode. -/
def CdVolume.geometry (v : CdVolume) (mode : CdSectorMode) : Geometry where
  blockSize := v.blockSize
  dedupBlockSize := v.dedupBlockSize
  sectorSize := mode.dataSize
  blockSize_pos := by have := v.formatted; omega
  sectorSize_pos := mode.dataSize_pos
  dvd := v.dvd
  fits := (Nat.add_le_add_left mode.dataSize_le _).trans v.fits

/-- What the calls that do not look at sectors go by. -/
def CdVolume.blocks (v : CdVolume) : Geometry := v.geometry .audio

/-! ### The trees of the parts -/

/-- `struct cd_prefix_record`, `cd_suffix_record` and `cd_subchannel_record`. -/
structure CdHashRecord where
  hash : ℕ
  data : List UInt8

/-- `CD_HASH_BTREE_MAX_DEPTH`. -/
def cdHashBtreeMaxDepth : ℕ := 8

/-- `sizeof(struct btree_index_entry)`. -/
def btreeIndexEntrySize : ℕ := 16

/-- `cd_hash_tree_put`, with what the allocator answers for the division of a node of each level. -/
def cdHashTreePut (blockSize recordSize : ℕ) (fresh : ℕ → Option ℕ) (r : CdHashRecord)
    (tree : Root ℕ ℕ CdHashRecord) : Option (Root ℕ ℕ CdHashRecord) :=
  if cdHashBtreeMaxDepth < tree.height then none
  else
    match tree.put CdHashRecord.hash (maxKeys blockSize recordSize)
        (maxKeys blockSize btreeIndexEntrySize) fresh r with
    | (tree, true) => some tree
    | (_, false) => none

/-- `obmafs3_cd_prefix_get` and `obmafs3_cd_suffix_get`. -/
def cdHashTreeGet (tree : Root ℕ ℕ CdHashRecord) (hash : ℕ) : Option (List UInt8) :=
  (tree.lookup CdHashRecord.hash hash).map CdHashRecord.data

/-- A part goes to its tree, unless the tree has its hash. The record is the hash and the part. -/
def storePart (blockSize : ℕ) (hash : List UInt8 → ℕ) (fresh : ℕ → Option ℕ) (part : List UInt8)
    (tree : Root ℕ ℕ CdHashRecord) : Option (Root ℕ ℕ CdHashRecord) :=
  match cdHashTreeGet tree (hash part) with
  | some _ => some tree
  | none => cdHashTreePut blockSize (8 + part.length) fresh ⟨hash part, part⟩ tree

/-! ### Requests -/

/-- A request `CD_WRITE_LONG`, with what its lookups find, what a read of blocks without an image
gives, what the allocator answers and where the record of its subchannel is. -/
structure CdWriteRequest where
  sector : ℕ
  sectorMode : CdSectorMode
  raw : RawSector
  subchannel : Option (List UInt8)
  finds : StoredSector → Bool
  garbage : Option (List UInt8)
  prefixFresh : ℕ → Option ℕ
  suffixFresh : ℕ → Option ℕ
  subchannelFresh : ℕ → Option ℕ
  subchannelPlace : ℕ × ℕ

namespace CdWriteRequest

variable (req : CdWriteRequest)

def prefixPart : List UInt8 := portion req.raw 0 cdPrefixSize

def suffixPart : List UInt8 := portion req.raw (cdRawSectorSize - cdSuffixSize) cdSuffixSize

def dataPart : List UInt8 := portion req.raw req.sectorMode.dataStart req.sectorMode.dataSize

/-- The prefix goes to its tree. -/
def keepsPrefix : Bool := req.sectorMode ≠ .audio ∧ !cdPrefixIsGeneratable req.raw req.sector req.sectorMode

/-- The suffix goes to its tree. -/
def keepsSuffix : Bool := req.sectorMode ≠ .audio ∧ !suffixIsGeneratable req.raw req.sectorMode

/-- The call of `obmafs3_write_media_image_data`. The offset is a `uint64_t`. -/
def call : WriteCall :=
  ⟨req.sector * req.sectorMode.dataSize % 2 ^ 64, req.dataPart, req.finds, req.garbage⟩

def entry (hash : List UInt8 → ℕ) (location : SectorEntry) : CdSectorMapEntry where
  sector := req.sector
  sectorMode := req.sectorMode
  hash := hash req.dataPart
  dedupSectorLba := location.lba
  dedupSectorOffset := location.offset
  generatedPrefix := cdPrefixIsGeneratable req.raw req.sector req.sectorMode
  prefixHash := if req.keepsPrefix then hash req.prefixPart else 0
  generatedSuffix := suffixIsGeneratable req.raw req.sectorMode
  suffixHash := if req.keepsSuffix then hash req.suffixPart else 0
  subheader :=
    if req.sectorMode = .audio ∨ req.sectorMode = .mode1 then List.replicate 8 0
    else portion req.raw cdPrefixSize 8
  subchannelHash := req.subchannel.elim 0 hash
  dedupSubchannelLba := req.subchannel.elim 0 fun _ ↦ req.subchannelPlace.1
  dedupSubchannelOffset := req.subchannel.elim 0 fun _ ↦ req.subchannelPlace.2

end CdWriteRequest

/-- A CD image that is open. `last` are the headers of the dedup trees by sector size, and the block
cache is that of the tree for `sectorSize`. -/
structure CdImage where
  store : BlockStore
  last : ℕ → ℕ × ℕ
  db : DedupBlockCtx
  sectorSize : ℕ
  prefixes : Root ℕ ℕ CdHashRecord
  suffixes : Root ℕ ℕ CdHashRecord
  subchannels : Root ℕ ℕ CdHashRecord
  cached : List CdSectorMapEntry
  map : List CdSectorMapEntry
  sectorCount : ℕ

section Definitions

variable (v : CdVolume) (codec : Codec) (pool : Bool) (hash : List UInt8 → ℕ)

namespace CdImage

/-- The parts of a request that go to trees by their hashes. -/
def storeParts (req : CdWriteRequest) (im : CdImage) : Option CdImage :=
  (match req.subchannel with
    | none => some im.subchannels
    | some sub => storePart v.blockSize hash req.subchannelFresh sub im.subchannels).bind
  fun subchannels ↦
  (if req.keepsPrefix then storePart v.blockSize hash req.prefixFresh req.prefixPart im.prefixes
    else some im.prefixes).bind
  fun prefixes ↦
  (if req.keepsSuffix then storePart v.blockSize hash req.suffixFresh req.suffixPart im.suffixes
    else some im.suffixes).map
  fun suffixes ↦ { im with subchannels, prefixes, suffixes }

/-- `obmafs3_flush_dedup_block_cache`. -/
def flushBlock (im : CdImage) : CdImage :=
  if im.db.initialized then
    let (store, db) := dedupBlockFlush v.blocks codec im.store im.db
    { im with store, db, last := Function.update im.last im.sectorSize (db.blockLba, db.offset) }
  else im

/-- A block cache for sectors of another size is flushed and closed. -/
def turn (size : ℕ) (im : CdImage) : CdImage :=
  if im.db.initialized ∧ im.sectorSize ≠ size then
    { im.flushBlock v codec with db := closedCache, sectorSize := size }
  else if im.db.initialized then im
  else { im with sectorSize := size }

/-- The data of a request goes to its dedup tree. The location is that of the last sector of the
call. -/
def writeData (req : CdWriteRequest) (im : CdImage) : Option (SectorEntry × CdImage) :=
  let g := v.geometry req.sectorMode
  let order := hashOrder g hash (req.call.sectors g)
  match dedupWrite g codec pool hash (order.map Prod.fst) req.finds req.garbage
      (im.store.resume (im.last g.sectorSize)) im.db with
  | some (none, entries, store, db) =>
    entries.getLast?.map fun location ↦ (location, { im with
      store
      db
      last := Function.update im.last g.sectorSize (store.lastBlockLba, store.lastBlockOffset) })
  | _ => none

/-- `obmafs3_cd_write_long`, when it succeeds. -/
def writeLong (req : CdWriteRequest) (im : CdImage) : Option CdImage :=
  (im.storeParts v hash req).bind fun im ↦
  ((im.turn v codec req.sectorMode.dataSize).writeData v codec pool hash req).map fun (location, im) ↦
    { im with
      cached := im.cached ++ [req.entry hash location]
      sectorCount := max im.sectorCount (req.sector + 1) }

/-- `obmafs3_flush_dedup_block_cache` and `obmafs3_flush_cd_sector_map_cache`. -/
def flush (im : CdImage) : CdImage :=
  let im := im.flushBlock v codec
  { im with map := im.map ++ im.cached, cached := [] }

/-! ### Reads -/

/-- The lookup of a hash in the dedup tree for a sector size. -/
def lookupSector (im : CdImage) (hash size : ℕ) : Option (ℕ × ℕ) :=
  (im.store.index.find? fun e ↦ e.hash = hash ∧ e.bytes.length = size).map fun e ↦ (e.lba, e.offset)

/-- The bytes at a place in a dedup block. There is no answer when the image is missing or when they
would not be bytes of the image. -/
def dataAt (im : CdImage) (place : ℕ × ℕ) (size : ℕ) : Option (List UInt8) :=
  (im.store.readImage v.blocks codec place.1).bind fun payload ↦
    let data := slice payload place.2 size
    if blockHeaderSize ≤ place.2 ∧ data.length = size then some data else none

/-- The data of an entry. An entry without a location is looked up. -/
def entryData (im : CdImage) (entry : CdSectorMapEntry) : Option (List UInt8) :=
  (if entry.dedupSectorLba ≠ 0 then some (entry.dedupSectorLba, entry.dedupSectorOffset)
    else im.lookupSector entry.hash entry.sectorMode.dataSize).bind fun place ↦
      im.dataAt v codec place entry.sectorMode.dataSize

/-- A sector with an entry. -/
def readEntry (im : CdImage) (entry : CdSectorMapEntry) (sectorNum : ℕ) : Option RawSector :=
  (im.entryData v codec entry).bind fun data ↦
    reassemble (cdHashTreeGet im.prefixes) (cdHashTreeGet im.suffixes) entry data sectorNum

/-- The search in the sector map, and the sector. Sectors without an entry are zero-filled. -/
def readSector (im : CdImage) (sectorNum : ℕ) : Option RawSector :=
  match leafFind (im.map.map CdSectorMapEntry.sector) sectorNum with
  | .absent _ => some fun _ ↦ 0
  | .found i =>
    match im.map[i]? with
    | none => none
    | some entry => im.readEntry v codec entry sectorNum

/-- The loop of `obmafs3_read_cd_image_data`. -/
def readSectors (im : CdImage) : (fuel pos remaining : ℕ) → Option (List UInt8)
  | 0, _, _ => some []
  | fuel + 1, pos, remaining =>
    if remaining = 0 then some []
    else
      let skip := pos % cdRawSectorSize
      let chunk := min remaining (cdRawSectorSize - skip)
      (im.readSector v codec (pos / cdRawSectorSize)).bind fun sector ↦
        (readSectors im fuel (pos + chunk) (remaining - chunk)).map (portion sector skip chunk ++ ·)

/-- `obmafs3_read_cd_image_data`. The virtual size is a `uint64_t`. -/
def read (im : CdImage) (offset size : ℕ) : Option (List UInt8) :=
  let virtualSize := im.sectorCount * cdRawSectorSize % 2 ^ 64
  if virtualSize ≤ offset then some []
  else
    let size := min size (virtualSize - offset)
    im.readSectors v codec size offset size

end CdImage

/-! ### Runs -/

/-- What happens next: a request or a flush, or the allocation or the freeing of blocks for something
else, such as the nodes of the trees. -/
inductive CdStep
  | writeLong (req : CdWriteRequest)
  | flush
  | alloc (count : ℕ)
  | free (lba count : ℕ)

def CdStep.run : CdStep → CdImage → Option CdImage
  | .writeLong req, im => im.writeLong v codec pool hash req
  | .flush, im => some (im.flush v codec)
  | .alloc count, im =>
    (im.store.vol.allocBlocks count).map fun (start, vol) ↦
      { im with store := { im.store with
          vol
          disk := fun b ↦ if start ≤ b ∧ b < start + count then none else im.store.disk b } }
  | .free lba count, im =>
    if 0 < lba ∧ ∀ k < count, im.store.owner (lba + k) = none then
      some { im with store := { im.store with vol := im.store.vol.freeBlocks lba count } }
    else none

def runCd : List CdStep → CdImage → Option CdImage
  | [], im => some im
  | step :: steps, im => (step.run v codec pool hash im).bind (runCd steps)

def CdStep.request : CdStep → Option CdWriteRequest
  | .writeLong req => some req
  | .flush => none
  | .alloc _ => none
  | .free _ _ => none

/-- The byte of the last request for the sector of a position. -/
def lastRequested (reqs : List CdWriteRequest) (pos : ℕ) : UInt8 :=
  match reqs.reverse.find? (·.sector = pos / cdRawSectorSize) with
  | some req => req.raw (pos % cdRawSectorSize)
  | none => 0

/-- The number of sectors up to the last one that was requested. -/
def sectorsUpTo (reqs : List CdWriteRequest) : ℕ :=
  reqs.foldl (fun count req ↦ max count (req.sector + 1)) 0

/-! ### Careful requests -/

/-- A part whose hash the tree has is the part in the tree, and one that goes to the tree finds
separators that separate. -/
def PartSafe (blockSize : ℕ) (part : List UInt8) (tree : Root ℕ ℕ CdHashRecord) : Prop :=
  match cdHashTreeGet tree (hash part) with
  | some part' => part' = part
  | none => tree.Safe CdHashRecord.hash (maxKeys blockSize (8 + part.length))
      (maxKeys blockSize btreeIndexEntrySize) ⟨hash part, part⟩

/-- A request behind all sectors of the image, whose data and parts do not collide and whose suffix
has its checksum where its mode has it, if it is left out. -/
structure CarefulRequest (req : CdWriteRequest) (im : CdImage) : Prop where
  behind : ∀ entry ∈ im.map ++ im.cached, entry.sector < req.sector
  small : (req.sector + 1) * cdRawSectorSize < 2 ^ 64
  apart : ∀ e ∈ im.store.index, e.hash = hash req.dataPart → e.bytes = req.dataPart
  suffix : SuffixSafe req.raw req.sectorMode
  prefixes : req.keepsPrefix → PartSafe hash v.blockSize req.prefixPart im.prefixes
  suffixes : req.keepsSuffix → PartSafe hash v.blockSize req.suffixPart im.suffixes

/-- Every request of a run is careful. -/
def CarefulCdRun : List CdStep → CdImage → Prop
  | [], _ => True
  | step :: steps, im =>
    (∀ req, step = .writeLong req → CarefulRequest v hash req im) ∧
      ∀ im', step.run v codec pool hash im = some im' → CarefulCdRun steps im'

end Definitions

section Parts

variable {hash : List UInt8 → ℕ} {blockSize : ℕ} {fresh : ℕ → Option ℕ} {part : List UInt8}
  {tree tree' : Root ℕ ℕ CdHashRecord}

/-- A part that is stored is found, and so is everything that was found before. -/
theorem storePart_spec (hformatted : 512 ≤ blockSize ∧ blockSize ≤ 65536)
    (hpart : part.length ≤ cdSuffixSize) (hordered : tree.Ordered CdHashRecord.hash)
    (hsafe : PartSafe hash blockSize part tree)
    (hrun : storePart blockSize hash fresh part tree = some tree') :
    tree'.Ordered CdHashRecord.hash ∧ cdHashTreeGet tree' (hash part) = some part ∧
      ∀ key bytes, cdHashTreeGet tree key = some bytes → cdHashTreeGet tree' key = some bytes := by
  unfold storePart at hrun
  unfold PartSafe at hsafe
  cases hget : cdHashTreeGet tree (hash part) with
  | some part' =>
    simp only [hget, Option.some.injEq] at hrun hsafe
    subst hrun hsafe
    exact ⟨hordered, hget, fun _ _ h ↦ h⟩
  | none =>
    simp only [hget] at hrun hsafe
    obtain ⟨hmin, hmax⟩ := hformatted
    have hleafMax : 1 ≤ maxKeys blockSize (8 + part.length) := by
      unfold cdSuffixSize at hpart
      exact one_le_maxKeys (by omega) (by unfold btreeNodeHeaderSize; omega) (by omega)
    have hindexMax : 1 ≤ maxKeys blockSize btreeIndexEntrySize := by
      have hfits : btreeNodeHeaderSize + btreeIndexEntrySize ≤ 512 := by decide
      have hcount : 65536 ≤ 2 ^ 16 * btreeIndexEntrySize := by decide
      exact one_le_maxKeys (by decide) (by omega) (by omega)
    unfold cdHashTreePut at hrun
    split_ifs at hrun
    rcases hput : tree.put CdHashRecord.hash (maxKeys blockSize (8 + part.length))
      (maxKeys blockSize btreeIndexEntrySize) fresh ⟨hash part, part⟩ with ⟨after, done⟩
    have hafter := Root.put_ordered hleafMax hindexMax fresh hordered hsafe
    rw [hput] at hrun hafter
    cases done with
    | false => cases hrun
    | true =>
      obtain rfl := Option.some.inj hrun
      have hdone : (tree.put CdHashRecord.hash (maxKeys blockSize (8 + part.length))
          (maxKeys blockSize btreeIndexEntrySize) fresh ⟨hash part, part⟩).2 = true := by rw [hput]
      have hlookup := Root.lookup_put hleafMax hindexMax hordered hsafe hdone
      rw [hput] at hlookup
      refine ⟨hafter, ?_, fun key bytes hkey ↦ ?_⟩
      · rw [cdHashTreeGet, hlookup, if_pos rfl]
        rfl
      · rw [cdHashTreeGet, hlookup, if_neg]
        · exact hkey
        · intro hsame
          rw [← hsame, hget] at hkey
          cases hkey

end Parts

section Parts

variable {prefixGet suffixGet prefixGet' suffixGet' : ℕ → Option (List UInt8)}

theorem PartsOf.mono {raw : RawSector} {lba : ℕ} {mode : CdSectorMode} {entry : CdSectorMapEntry}
    (hparts : PartsOf prefixGet suffixGet raw lba mode entry)
    (hpfx : ∀ key bytes, prefixGet key = some bytes → prefixGet' key = some bytes)
    (hsuffix : ∀ key bytes, suffixGet key = some bytes → suffixGet' key = some bytes) :
    PartsOf prefixGet' suffixGet' raw lba mode entry :=
  ⟨hparts.sector, hparts.mode_eq, hparts.prefix_generated,
    fun haudio hgenerated ↦ hpfx _ _ (hparts.prefix_get haudio hgenerated),
    hparts.suffix_generated, fun haudio hgenerated ↦ hsuffix _ _ (hparts.suffix_get haudio hgenerated),
    hparts.subheader⟩

/-- The entry of a request has what the request keeps. -/
theorem CdWriteRequest.partsOf {hash : List UInt8 → ℕ} (req : CdWriteRequest) (location : SectorEntry)
    (hpfx : req.keepsPrefix = true → prefixGet (hash req.prefixPart) = some req.prefixPart)
    (hsuffix : req.keepsSuffix = true → suffixGet (hash req.suffixPart) = some req.suffixPart) :
    PartsOf prefixGet suffixGet req.raw req.sector req.sectorMode (req.entry hash location) := by
  refine ⟨rfl, rfl, fun _ ↦ rfl, fun haudio hgenerated ↦ ?_, fun _ ↦ rfl, fun haudio hgenerated ↦ ?_,
    fun hsubheader ↦ ?_⟩
  · have hkeeps : req.keepsPrefix = true := by
      have hgenerated : cdPrefixIsGeneratable req.raw req.sector req.sectorMode = false := hgenerated
      simp [keepsPrefix, haudio, hgenerated]
    change prefixGet (if req.keepsPrefix then _ else _) = _
    rw [if_pos hkeeps]
    exact hpfx hkeeps
  · have hkeeps : req.keepsSuffix = true := by
      have hgenerated : suffixIsGeneratable req.raw req.sectorMode = false := hgenerated
      simp [keepsSuffix, haudio, hgenerated]
    change suffixGet (if req.keepsSuffix then _ else _) = _
    rw [if_pos hkeeps]
    exact hsuffix hkeeps
  · refine if_neg ?_
    rintro (h | h) <;> rw [h] at hsubheader <;> cases hsubheader

/-- What a request keeps of a sector gives the sector back, exactly when a suffix that it leaves out
has its checksum where the declared mode has it. -/
theorem CdWriteRequest.reassemble_entry_iff {hash : List UInt8 → ℕ} (req : CdWriteRequest)
    (location : SectorEntry)
    (hpfx : req.keepsPrefix = true → prefixGet (hash req.prefixPart) = some req.prefixPart)
    (hsuffix : req.keepsSuffix = true → suffixGet (hash req.suffixPart) = some req.suffixPart) :
    (∃ s, reassemble prefixGet suffixGet (req.entry hash location) req.dataPart req.sector = some s ∧
      SameBefore cdRawSectorSize s req.raw) ↔ SuffixSafe req.raw req.sectorMode := by
  obtain ⟨s, hs, hiff⟩ := (req.partsOf location hpfx hsuffix).reassemble_iff
  refine ⟨?_, fun hsafe ↦ ⟨s, hs, hiff.mpr hsafe⟩⟩
  rintro ⟨t, ht, hsame⟩
  obtain rfl : s = t := Option.some.inj (hs.symm.trans ht)
  exact hiff.mp hsame

end Parts

/-- A sector of form 1 with its prefix at LBA 0, of whose data one byte is not zero. -/
def form1Sector : RawSector := fun i ↦
  if i < 0x00F then syncAndAddress 0 i
  else if i = 0x00F then 0x02
  else if i < 0x719 then 0
  else match i with
    | 0x719 => 0x01
    | 0x818 => 0x51
    | 0x86E => 0xF3
    | 0x871 => 0x1F
    | 0x8C4 => 0xA2
    | 0x8C7 => 0x1E
    | 0x8D1 => 0x03
    | 0x8D8 => 0xAA
    | 0x8D9 => 0x21
    | 0x8DA => 0xE3
    | 0x8DB => 0x22
    | 0x8DC => 0x49
    | 0x905 => 0x02
    | 0x90C => 0xFB
    | 0x90D => 0x3E
    | 0x90E => 0x10
    | 0x90F => 0x3C
    | 0x910 => 0xEB
    | _ => 0

/-- A request for the sector as one of a mode. -/
def form1Request (mode : CdSectorMode) : CdWriteRequest :=
  ⟨0, mode, form1Sector, none, fun _ ↦ false, none, fun _ ↦ none, fun _ ↦ none, fun _ ↦ none, (0, 0)⟩

theorem form1Sector_edc (size : ℕ) :
    edcCdCompute form1Sector (0x709 + size) 0x10 0 = edcCdCompute form1Sector size 0x719 0 := by
  refine edcCdCompute_zeros fun k hk ↦ ?_
  unfold form1Sector
  rw [if_neg (by omega), if_neg (by omega), if_pos (by omega)]

theorem form1Sector_agrees : FormAgrees form1Sector .mode2Form1 := by
  have hsum : edcCdCompute form1Sector 0x808 0x10 0 = edcCdCompute form1Sector 0xFF 0x719 0 :=
    form1Sector_edc 0xFF
  unfold FormAgrees
  rw [hsum]
  decide +kernel

theorem form1Sector_correct : eccCdIsSuffixCorrectMode2 form1Sector = true := by
  have hp : EccLayer.p.check zeroAddress form1Sector 0 0x10 0x81C = true := by decide +kernel
  have hq : EccLayer.q.check zeroAddress form1Sector 0 0x10 (0x81C + 0xAC) = true := by
    decide +kernel
  have hform : isForm2 form1Sector = false := by decide
  have hedc : hasEdc form1Sector (edcCdCompute form1Sector 0x808 0x10 0) 0x818 = true :=
    form1Sector_agrees
  unfold eccCdIsSuffixCorrectMode2
  rw [hp, hq, hform]
  simp only [Bool.false_eq_true, if_false, Bool.true_and]
  exact hedc

/-- Nothing of the sector but its data is kept, whichever form is declared. -/
theorem form1Request_keeps (mode : CdSectorMode) (hmode : mode.hasSubheader = true) :
    (form1Request mode).keepsPrefix = false ∧ (form1Request mode).keepsSuffix = false := by
  have hsuffix : suffixIsGeneratable form1Sector mode = true := by
    cases mode with
    | mode2Form1 => exact form1Sector_correct
    | mode2Form2 => exact form1Sector_correct
    | _ => cases hmode
  have hpfx : cdPrefixIsGeneratable form1Sector 0 mode = true := by
    cases mode with
    | mode2Form1 => decide
    | mode2Form2 => decide
    | _ => cases hmode
  constructor
  · change decide (mode ≠ .audio ∧ (!cdPrefixIsGeneratable form1Sector 0 mode) = true) = false
    rw [hpfx]
    simp
  · change decide (mode ≠ .audio ∧ (!suffixIsGeneratable form1Sector mode) = true) = false
    rw [hsuffix]
    simp

theorem reassemble_entry_form1 : ∃ s, reassemble (fun _ ↦ none) (fun _ ↦ none)
        ((form1Request .mode2Form1).entry (fun _ ↦ 0) ⟨1, 58, []⟩)
        (form1Request .mode2Form1).dataPart 0 = some s ∧
      SameBefore cdRawSectorSize s form1Sector := by
  obtain ⟨hpfx, hsuffix⟩ := form1Request_keeps .mode2Form1 rfl
  exact ((form1Request .mode2Form1).reassemble_entry_iff ⟨1, 58, []⟩ (fun h ↦ nomatch hpfx ▸ h)
    fun h ↦ nomatch hsuffix ▸ h).mpr fun _ ↦ form1Sector_agrees

/-- A sector of form 1 that is declared to be one of form 2 gets the checksum of a form 2 over its
parity. -/
theorem reassemble_entry_form2 : ¬∃ s, reassemble (fun _ ↦ none) (fun _ ↦ none)
        ((form1Request .mode2Form2).entry (fun _ ↦ 0) ⟨1, 58, []⟩)
        (form1Request .mode2Form2).dataPart 0 = some s ∧
      SameBefore cdRawSectorSize s form1Sector := by
  rintro ⟨s, hs, hsame⟩
  obtain ⟨hpfx, hsuffix⟩ := form1Request_keeps .mode2Form2 rfl
  obtain ⟨t, ht, hiff⟩ := ((form1Request .mode2Form2).partsOf ⟨1, 58, []⟩
    (fun h ↦ nomatch hpfx ▸ h) fun h ↦ nomatch hsuffix ▸ h).reassemble_iff
  obtain rfl : s = t := Option.some.inj (hs.symm.trans ht)
  have hagrees : FormAgrees form1Sector .mode2Form2 := hiff.mp hsame form1Sector_correct
  have hsum : edcCdCompute form1Sector 0x91C 0x10 0 = edcCdCompute form1Sector 0x213 0x719 0 :=
    form1Sector_edc 0x213
  have hedc : hasEdc form1Sector (edcCdCompute form1Sector 0x213 0x719 0) 0x92C = false := by
    decide +kernel
  unfold FormAgrees at hagrees
  rw [hsum, hedc] at hagrees
  cases hagrees

/-! ### The dedup blocks -/

section Blocks

variable {v : CdVolume} {codec : Codec} {pool : Bool} {hash : List UInt8 → ℕ} {im : CdImage}

/-- The geometries of the modes differ in the size of their sectors only. -/
theorem HandlesState.Consistent.blocks {mode : CdSectorMode} {ι : Type} {hs : HandlesState ι}
    (hc : hs.Consistent (v.geometry mode) codec) : hs.Consistent v.blocks codec :=
  ⟨⟨hc.sane.boot, hc.sane.taken, hc.sane.header, hc.sane.located, hc.sane.offset, hc.sane.nonempty,
    hc.sane.slots⟩, hc.fits, hc.closed, hc.safe, hc.images⟩

/-- The image as the only open file. -/
def CdImage.asHandles (im : CdImage) : HandlesState Unit :=
  ⟨im.store, fun _ ↦ im.db, fun _ ↦ []⟩

/-- The block cache works with the tree for a sector size. -/
def CdImage.Opens (im : CdImage) (n : ℕ) : Prop := im.db.initialized = true ∧ n = im.sectorSize

/-- The block cache is current, the last blocks of the other trees are parked, and no two of these
blocks are one. -/
structure CdImage.Kept (v : CdVolume) (codec : Codec) (im : CdImage) : Prop where
  consistent : im.asHandles.Consistent v.blocks codec
  current : im.db.initialized = true → Current v.blocks im.store im.db
  parked : ∀ n, ¬im.Opens n → (im.last n).1 ≠ 0 →
    Parked v.blocks im.store (im.last n).1 (im.last n).2
  apart : ∀ m n, ¬im.Opens m → ¬im.Opens n → m ≠ n → (im.last m).1 ≠ 0 →
    (im.last m).1 ≠ (im.last n).1
  ahead : im.db.initialized = true → ∀ n, n ≠ im.sectorSize → (im.last n).1 ≠ 0 →
    (im.last n).1 ≠ im.db.blockLba
  header : ∀ n, (im.last n).2 ≤ v.dedupBlockSize

/-- What the block cache has no part in. -/
structure CdImage.SameMap (im im' : CdImage) : Prop where
  prefixes : im'.prefixes = im.prefixes
  suffixes : im'.suffixes = im.suffixes
  map : im'.map = im.map
  cached : im'.cached = im.cached
  sectorCount : im'.sectorCount = im.sectorCount

namespace CdImage.Kept

variable (hkept : im.Kept v codec)
include hkept

/-- The store as the tree for a sector size sees it. -/
theorem resume (mode : CdSectorMode) (n : ℕ) : HandlesState.Consistent (v.geometry mode) codec
      ⟨im.store.resume (im.last n), fun _ : Unit ↦ im.db, fun _ ↦ []⟩ := by
  have hc := hkept.consistent
  exact ⟨⟨hc.sane.boot, hc.sane.taken, hkept.header n, hc.sane.located, hc.sane.offset,
    hc.sane.nonempty, hc.sane.slots⟩, hc.fits, hc.closed, hc.safe, nofun⟩

/-- Without a block cache all sectors are on the disk. -/
theorem onDisk (hclean : im.db.dirty = false) :
    ∀ e ∈ im.store.index, SectorOnDisk v.blocks codec im.store e := by
  intro e he
  refine (hkept.consistent.safe e he).resolve_left ?_
  rintro ⟨i, hwaits, -⟩
  rw [show (im.asHandles.handle i).dirty = im.db.dirty from rfl, hclean] at hwaits
  cases hwaits

/-- The block cache with which a call works has all sectors of its block, and the block is not that
of another tree. -/
theorem opened {n : ℕ} (hsize : im.sectorSize = n) {garbage : Option (List UInt8)}
    {db : DedupBlockCtx}
    (hopened : openedCache v.blocks codec garbage (im.store.resume (im.last n)) im.db = some db) :
    Current v.blocks (im.store.resume (im.last n)) db ∧
      ∀ m, m ≠ n → (im.last m).1 ≠ 0 → (im.last m).1 ≠ db.blockLba := by
  unfold openedCache at hopened
  split_ifs at hopened with hinit
  · obtain rfl := Option.some.inj hopened
    exact ⟨hkept.current hinit, fun m hm ↦ hkept.ahead hinit m (hsize ▸ hm)⟩
  · have hclosed (m : ℕ) : ¬im.Opens m := fun h ↦ hinit h.1
    have hclean := hkept.consistent.closed () (.inl (Bool.eq_false_iff.mpr hinit))
    obtain ⟨hlba, hcurrent⟩ := Parked.resume hkept.consistent.sane (hkept.parked n (hclosed n))
      (fun e he _ ↦ hkept.onDisk hclean e he) hopened
    refine ⟨hcurrent, fun m hm ↦ ?_⟩
    rw [hlba]
    exact hkept.apart m n (hclosed m) (hclosed n) hm

end CdImage.Kept

/-! ### One sector -/

variable {req : CdWriteRequest}

/-- The call of a request has one sector. -/
theorem CdWriteRequest.sectors_call (hsmall : (req.sector + 1) * cdRawSectorSize < 2 ^ 64) :
    ∃ s : Sector (v.geometry req.sectorMode), s.bytes = req.dataPart ∧
      req.call.sectors (v.geometry req.sectorMode) = [s] := by
  have hpos := req.sectorMode.dataSize_pos
  have hoffset : req.sector * req.sectorMode.dataSize % 2 ^ 64 =
      req.sector * req.sectorMode.dataSize := by
    refine Nat.mod_eq_of_lt (lt_of_le_of_lt ?_ hsmall)
    exact Nat.mul_le_mul (Nat.le_succ _) req.sectorMode.dataSize_le
  have haligned : (v.geometry req.sectorMode).sectorSize ∣ req.call.offset := by
    change req.sectorMode.dataSize ∣ req.sector * req.sectorMode.dataSize % 2 ^ 64
    rw [hoffset]
    exact Nat.dvd_mul_left _ _
  have hlength : req.dataPart.length = req.sectorMode.dataSize := length_portion _ _ _
  have hcount : numSectors (v.geometry req.sectorMode) req.call.data.length = 1 := by
    change req.dataPart.length / req.sectorMode.dataSize +
      (if req.dataPart.length % req.sectorMode.dataSize = 0 then 0 else 1) = 1
    rw [hlength, Nat.div_self hpos, Nat.mod_self]
    rfl
  have hone := (WriteCall.length_sectors haligned).trans hcount
  obtain ⟨s, hs⟩ := List.length_eq_one_iff.mp hone
  refine ⟨s, ?_, hs⟩
  have hbytes := WriteCall.sectors_getElem? haligned (k := 0) (by omega)
  rw [hs] at hbytes
  refine (Option.some.inj hbytes).trans ?_
  change (req.dataPart.drop (0 * req.sectorMode.dataSize)).take req.sectorMode.dataSize = req.dataPart
  rw [Nat.zero_mul, List.drop_zero, ← hlength, List.take_length]

/-- The data of a request is stored, and the other trees go on where they were. -/
theorem CdImage.Kept.writeData (hkept : im.Kept v codec)
    (hsize : im.sectorSize = req.sectorMode.dataSize)
    (hsmall : (req.sector + 1) * cdRawSectorSize < 2 ^ 64)
    (hapart : ∀ e ∈ im.store.index, e.hash = hash req.dataPart → e.bytes = req.dataPart)
    {location : SectorEntry} {im' : CdImage}
    (hrun : im.writeData v codec pool hash req = some (location, im')) :
    im'.Kept v codec ∧ im.store.index ⊆ im'.store.index ∧
      (∃ e ∈ im'.store.index, location.Of e ∧ e.bytes = req.dataPart) ∧
      im.SameMap im' := by
  obtain ⟨s, hbytes, hsectors⟩ := CdWriteRequest.sectors_call (v := v) hsmall
  have horder : (hashOrder (v.geometry req.sectorMode) hash
      (req.call.sectors (v.geometry req.sectorMode))).map Prod.fst = [s] := by
    rw [hsectors]
    rfl
  unfold CdImage.writeData at hrun
  simp only [horder] at hrun
  generalize hn : (v.geometry req.sectorMode).sectorSize = n at hrun
  have hsize : im.sectorSize = n := hsize.trans hn
  split at hrun
  · rename_i entries store db hwrite
    obtain ⟨location', hlast, heq⟩ := Option.map_eq_some_iff.mp hrun
    simp only [Prod.mk.injEq] at heq
    obtain ⟨rfl, rfl⟩ := heq
    have hentries := dedupWrite_bytes hwrite
    have hmem := List.mem_of_getLast? hlast
    have hlocation : location'.bytes = req.dataPart := by
      have := List.mem_map_of_mem (f := SectorEntry.bytes) hmem
      rw [hentries] at this
      simpa [hbytes] using this
    have happart : Apart hash (im.store.resume (im.last n)).index [s] := by
      refine fun t ht ↦ ?_
      obtain rfl := List.mem_singleton.mp ht
      refine ⟨fun e he hkey ↦ ?_, fun t' ht' _ ↦ by rw [List.mem_singleton.mp ht']⟩
      rw [hbytes] at hkey ⊢
      exact hapart e he hkey
    have hc := hkept.resume req.sectorMode n
    cases hopened : openedCache (v.geometry req.sectorMode) codec req.garbage
        (im.store.resume (im.last n)) im.db with
    | none => simp [dedupWrite, hopened] at hwrite
    | some opened =>
      obtain ⟨hcurrent, hahead⟩ := hkept.opened hsize hopened
      have hcur : ∀ db, openedCache (v.geometry req.sectorMode) codec req.garbage
          (im.store.resume (im.last n)) im.db = some db →
          Current (v.geometry req.sectorMode) (im.store.resume (im.last n)) db :=
        fun db hdb ↦ (hkept.opened hsize hdb).1
      obtain ⟨hconsistent, hindex, hknown, hafter⟩ := hc.dedupWrite (i := ()) happart (.inr hcur) hwrite
      obtain ⟨hinit, hcurrent'⟩ := hafter rfl opened hopened hcurrent
      have hheader : store.lastBlockOffset ≤ v.dedupBlockSize := hconsistent.sane.header
      have hothers (m : ℕ) (hm : m ≠ n) (hlba : (im.last m).1 ≠ 0) :
          Parked (v.geometry req.sectorMode) store (im.last m).1 (im.last m).2 ∧
            (im.last m).1 ≠ db.blockLba := by
        have hparked := hkept.parked m (fun h ↦ hm (h.2.trans hsize)) hlba
        have hparked' : Parked (v.geometry req.sectorMode) (im.store.resume (im.last n))
          (im.last m).1 (im.last m).2 := ⟨hparked.whole, hparked.covers⟩
        exact hparked'.dedupWrite (i := ()) hlba hc hopened hcurrent (hahead m hm hlba) hwrite
      have hstill {m : ℕ} (hm : ¬(db.initialized = true ∧ m = im.sectorSize)) : m ≠ n :=
        fun h ↦ hm ⟨hinit, h.trans hsize.symm⟩
      obtain ⟨e, he, hof⟩ := hknown location' hmem
      refine ⟨⟨hconsistent.blocks, fun _ ↦ hcurrent', fun m hm hlba ↦ ?_,
        fun m m' hm hm' hne hlba ↦ ?_, fun _ m hm hlba ↦ ?_, fun m ↦ ?_⟩, hindex,
        ⟨e, he, hof, hof.2.2.trans hlocation⟩, ⟨rfl, rfl, rfl, rfl, rfl⟩⟩
      · simp only [update_of_ne (hstill hm)] at hlba ⊢
        obtain ⟨hparked, -⟩ := hothers m (hstill hm) hlba
        exact ⟨hparked.whole, hparked.covers⟩
      · simp only [update_of_ne (hstill hm), update_of_ne (hstill hm')] at hlba ⊢
        exact hkept.apart m m' (fun h ↦ hstill hm (h.2.trans hsize))
          (fun h ↦ hstill hm' (h.2.trans hsize)) hne hlba
      · have hm : m ≠ n := hsize ▸ hm
        simp only [update_of_ne hm] at hlba ⊢
        exact (hothers m hm hlba).2
      · by_cases hm : m = n
        · subst hm
          simpa using hheader
        · simpa [update_of_ne hm] using hkept.header m
  · cases hrun

/-! ### The other steps -/

theorem CdImage.flushBlock_same (v : CdVolume) (codec : Codec) (im : CdImage) :
    im.SameMap (im.flushBlock v codec) := by
  unfold flushBlock
  split_ifs <;> exact ⟨rfl, rfl, rfl, rfl, rfl⟩

theorem CdImage.turn_same (v : CdVolume) (codec : Codec) (im : CdImage) (n : ℕ) :
    im.SameMap (im.turn v codec n) := by
  unfold turn
  split_ifs
  · obtain ⟨hprefixes, hsuffixes, hmap, hcached, hcount⟩ := im.flushBlock_same v codec
    exact ⟨hprefixes, hsuffixes, hmap, hcached, hcount⟩
  · exact ⟨rfl, rfl, rfl, rfl, rfl⟩
  · exact ⟨rfl, rfl, rfl, rfl, rfl⟩

namespace CdImage.Kept

variable (hkept : im.Kept v codec)
include hkept

theorem flushBlock :
    (im.flushBlock v codec).Kept v codec ∧ (im.flushBlock v codec).db.dirty = false ∧
      (im.flushBlock v codec).store.index = im.store.index ∧
      (im.db.initialized = true → (im.flushBlock v codec).last im.sectorSize =
        ((im.flushBlock v codec).db.blockLba, (im.flushBlock v codec).db.offset)) := by
  unfold CdImage.flushBlock
  by_cases hinit : im.db.initialized = true
  · rw [if_pos hinit]
    rcases hflush : dedupBlockFlush v.blocks codec im.store im.db with ⟨store, db⟩
    have hw : Working v.blocks codec im.asHandles () ⟨im.store, im.db, none⟩ :=
      ⟨hkept.consistent, hinit, nofun⟩
    obtain ⟨hw', hcurrent, hindex, hclean⟩ := hw.flush (fun _ ↦ hkept.current hinit) hflush
    obtain ⟨howner, -, hlba, -⟩ := dedupBlockFlush_kept v.blocks codec im.store im.db
    rw [hflush] at howner hlba
    have hfits : db.offset ≤ v.dedupBlockSize := hw'.consistent.fits ()
    have hstill {m : ℕ} (hm : ¬(db.initialized = true ∧ m = im.sectorSize)) : m ≠ im.sectorSize :=
      fun h ↦ hm ⟨hw'.opened, h⟩
    refine ⟨⟨hw'.consistent, fun _ ↦ hcurrent (hkept.current hinit), fun m hm hzero ↦ ?_,
      fun m n hm hn hne hzero ↦ ?_, fun _ m hm hzero ↦ ?_, fun m ↦ ?_⟩, hclean, hindex,
      fun _ ↦ update_self _ _ _⟩
    · simp only [update_of_ne (hstill hm)] at hzero ⊢
      have hparked := (hkept.parked m (fun h ↦ hstill hm h.2) hzero).flush codec im.db
      rwa [hflush] at hparked
    · simp only [update_of_ne (hstill hm), update_of_ne (hstill hn)] at hzero ⊢
      exact hkept.apart m n (fun h ↦ hstill hm h.2) (fun h ↦ hstill hn h.2) hne hzero
    · have hm : m ≠ im.sectorSize := hm
      simp only [update_of_ne hm] at hzero ⊢
      rw [hlba]
      exact hkept.ahead hinit m hm hzero
    · by_cases hm : m = im.sectorSize
      · subst hm
        simpa using hfits
      · simpa [update_of_ne hm] using hkept.header m
  · rw [if_neg hinit]
    exact ⟨hkept, hkept.consistent.closed () (.inl (Bool.eq_false_iff.mpr hinit)), rfl,
      fun h ↦ absurd h hinit⟩

/-- The block of a cache that is closed is parked. -/
theorem close (hclean : im.db.dirty = false) (hinit : im.db.initialized = true)
    (hlast : im.last im.sectorSize = (im.db.blockLba, im.db.offset)) (n : ℕ) :
    CdImage.Kept v codec { im with db := closedCache, sectorSize := n } := by
  have hswap : HandlesState.Consistent v.blocks codec
      { im.asHandles with handle := update im.asHandles.handle () closedCache } :=
    hkept.consistent.swap hclean (Nat.zero_le _) rfl
  refine ⟨hswap, nofun, fun m _ hzero ↦ ?_, fun m m' _ _ hne hzero ↦ ?_, nofun, hkept.header⟩
  · by_cases hm : m = im.sectorSize
    · subst hm
      simp only [hlast] at hzero ⊢
      exact (hkept.current hinit).parked hkept.consistent.sane hzero
    · exact hkept.parked m (fun h ↦ hm h.2) hzero
  · by_cases hm : m = im.sectorSize
    · subst hm
      simp only [hlast] at hzero ⊢
      -- The block of the other tree may be none at all.
      by_cases hzero' : (im.last m').1 = 0
      · rwa [hzero']
      · exact (hkept.ahead hinit m' (Ne.symm hne) hzero').symm
    · by_cases hm' : m' = im.sectorSize
      · subst hm'
        simp only [hlast]
        exact hkept.ahead hinit m hm hzero
      · exact hkept.apart m m' (fun h ↦ hm h.2) (fun h ↦ hm' h.2) hne hzero

theorem turn (n : ℕ) : (im.turn v codec n).Kept v codec ∧ (im.turn v codec n).sectorSize = n ∧
      (im.turn v codec n).store.index = im.store.index := by
  obtain ⟨hflushed, hclean, hindex, hlast⟩ := hkept.flushBlock
  unfold CdImage.turn
  by_cases hinit : im.db.initialized = true
  · by_cases hsize : im.sectorSize = n
    · rw [if_neg fun h ↦ h.2 hsize, if_pos hinit]
      exact ⟨hkept, hsize, rfl⟩
    · rw [if_pos ⟨hinit, hsize⟩]
      have hsame : (im.flushBlock v codec).sectorSize = im.sectorSize ∧
          (im.flushBlock v codec).db.initialized = true := by
        unfold CdImage.flushBlock at hflushed ⊢
        rw [if_pos hinit]
        exact ⟨rfl, (dedupBlockFlush_kept v.blocks codec im.store im.db).2.2.2.trans hinit⟩
      refine ⟨hflushed.close hclean hsame.2 ?_ n, rfl, hindex⟩
      rw [hsame.1]
      exact hlast hinit
  · rw [if_neg fun h ↦ hinit h.1, if_neg hinit]
    exact ⟨⟨hkept.consistent, fun h ↦ absurd h hinit, fun m _ ↦ hkept.parked m fun h ↦ hinit h.1,
      fun m m' _ _ ↦ hkept.apart m m' (fun h ↦ hinit h.1) fun h ↦ hinit h.1,
      fun h ↦ absurd h hinit, hkept.header⟩, rfl, rfl⟩

/-- Blocks that are allocated or freed for something else. -/
theorem touch {vol : Volume} {disk : ℕ → Option Piece}
    (hconsistent : HandlesState.Consistent v.blocks codec { im.asHandles with store := { im.store with vol, disk } }) :
    CdImage.Kept v codec { im with store := { im.store with vol, disk } } :=
  ⟨hconsistent, hkept.current,
    fun n hn hlba ↦ ⟨(hkept.parked n hn hlba).whole, (hkept.parked n hn hlba).covers⟩,
    hkept.apart, hkept.ahead, hkept.header⟩

end CdImage.Kept

end Blocks

/-! ### The map -/

section Map

variable {v : CdVolume} {codec : Codec} {pool : Bool} {hash : List UInt8 → ℕ} {im im' : CdImage}
  {reqs : List CdWriteRequest} {req : CdWriteRequest}

/-- An entry leads to all parts of the sector of a request. -/
structure CdImage.Recorded (im : CdImage) (req : CdWriteRequest) (entry : CdSectorMapEntry) : Prop where
  parts : PartsOf (cdHashTreeGet im.prefixes) (cdHashTreeGet im.suffixes) req.raw req.sector
    req.sectorMode entry
  suffix : SuffixSafe req.raw req.sectorMode
  stored : ∃ e ∈ im.store.index, e.lba = entry.dedupSectorLba ∧ e.offset = entry.dedupSectorOffset ∧
    e.bytes = req.dataPart

/-- The image has the sectors of some requests, which are in the order of their LBAs. -/
structure CdImage.Holds (v : CdVolume) (codec : Codec) (im : CdImage) (reqs : List CdWriteRequest) :
    Prop where
  kept : im.Kept v codec
  prefixes : im.prefixes.Ordered CdHashRecord.hash
  suffixes : im.suffixes.Ordered CdHashRecord.hash
  entries : List.Forall₂ im.Recorded reqs (im.map ++ im.cached)
  ascending : (reqs.map CdWriteRequest.sector).Pairwise (· < ·)
  count : im.sectorCount = sectorsUpTo reqs
  small : im.sectorCount * cdRawSectorSize < 2 ^ 64

/-- What was found in the trees and the dedup blocks is still there. -/
structure CdImage.Keeps (im im' : CdImage) : Prop where
  prefixes : ∀ key bytes, cdHashTreeGet im.prefixes key = some bytes →
    cdHashTreeGet im'.prefixes key = some bytes
  suffixes : ∀ key bytes, cdHashTreeGet im.suffixes key = some bytes →
    cdHashTreeGet im'.suffixes key = some bytes
  index : im.store.index ⊆ im'.store.index

variable {entry : CdSectorMapEntry}

theorem CdImage.Recorded.mono (hrecorded : im.Recorded req entry) (hkeeps : im.Keeps im') :
    im'.Recorded req entry := by
  obtain ⟨e, he, hof⟩ := hrecorded.stored
  exact ⟨hrecorded.parts.mono hkeeps.prefixes hkeeps.suffixes, hrecorded.suffix,
    ⟨e, hkeeps.index he, hof⟩⟩

/-- The entries have the LBAs of the requests. -/
theorem CdImage.sectors_eq {entries : List CdSectorMapEntry}
    (hentries : List.Forall₂ im.Recorded reqs entries) :
    entries.map CdSectorMapEntry.sector = reqs.map CdWriteRequest.sector := by
  induction hentries with
  | nil => rfl
  | cons hrecorded _ ih => rw [List.map_cons, List.map_cons, ih, hrecorded.parts.sector]

/-- A part that is kept, or not. -/
theorem keepPart_spec {keeps : Bool} {fresh : ℕ → Option ℕ} {part : List UInt8}
    {tree tree' : Root ℕ ℕ CdHashRecord} (hpart : part.length ≤ cdSuffixSize)
    (hordered : tree.Ordered CdHashRecord.hash)
    (hsafe : keeps = true → PartSafe hash v.blockSize part tree)
    (hrun : (if keeps then storePart v.blockSize hash fresh part tree else some tree) = some tree') :
    tree'.Ordered CdHashRecord.hash ∧ (keeps = true → cdHashTreeGet tree' (hash part) = some part) ∧
      ∀ key bytes, cdHashTreeGet tree key = some bytes → cdHashTreeGet tree' key = some bytes := by
  cases keeps with
  | false =>
    obtain rfl := Option.some.inj hrun
    exact ⟨hordered, nofun, fun _ _ h ↦ h⟩
  | true =>
    obtain ⟨hordered', hget, hstill⟩ := storePart_spec v.formatted hpart hordered (hsafe rfl) hrun
    exact ⟨hordered', fun _ ↦ hget, hstill⟩

theorem CdImage.storeParts_spec (hprefixes : im.prefixes.Ordered CdHashRecord.hash)
    (hsuffixes : im.suffixes.Ordered CdHashRecord.hash) (hcareful : CarefulRequest v hash req im)
    (hrun : im.storeParts v hash req = some im') :
    im'.prefixes.Ordered CdHashRecord.hash ∧ im'.suffixes.Ordered CdHashRecord.hash ∧
      (req.keepsPrefix = true →
        cdHashTreeGet im'.prefixes (hash req.prefixPart) = some req.prefixPart) ∧
      (req.keepsSuffix = true →
        cdHashTreeGet im'.suffixes (hash req.suffixPart) = some req.suffixPart) ∧
      im.Keeps im' ∧
      im' = { im with
        prefixes := im'.prefixes
        suffixes := im'.suffixes
        subchannels := im'.subchannels } := by
  unfold CdImage.storeParts at hrun
  obtain ⟨subchannels, -, hrun⟩ := Option.bind_eq_some_iff.mp hrun
  obtain ⟨prefixes, hpfx, hrun⟩ := Option.bind_eq_some_iff.mp hrun
  obtain ⟨suffixes, hsuffix, rfl⟩ := Option.map_eq_some_iff.mp hrun
  have hprefixPart : req.prefixPart.length ≤ cdSuffixSize :=
    (length_portion _ _ _).le.trans (by decide)
  have hsuffixPart : req.suffixPart.length ≤ cdSuffixSize := (length_portion _ _ _).le
  obtain ⟨hprefixes', hprefixGet, hprefixStill⟩ :=
    keepPart_spec hprefixPart hprefixes hcareful.prefixes hpfx
  obtain ⟨hsuffixes', hsuffixGet, hsuffixStill⟩ :=
    keepPart_spec hsuffixPart hsuffixes hcareful.suffixes hsuffix
  exact ⟨hprefixes', hsuffixes', hprefixGet, hsuffixGet,
    ⟨hprefixStill, hsuffixStill, List.Subset.refl _⟩, rfl⟩

theorem sectorsUpTo_concat (reqs : List CdWriteRequest) (req : CdWriteRequest) :
    sectorsUpTo (reqs ++ [req]) = max (sectorsUpTo reqs) (req.sector + 1) := by
  simp [sectorsUpTo]

section

variable (hholds : im.Holds v codec reqs)
include hholds

/-- A careful request. -/
theorem CdImage.Holds.writeLong (hcareful : CarefulRequest v hash req im)
    (hrun : im.writeLong v codec pool hash req = some im') : im'.Holds v codec (reqs ++ [req]) := by
  unfold CdImage.writeLong at hrun
  obtain ⟨parts, hparts, hrun⟩ := Option.bind_eq_some_iff.mp hrun
  obtain ⟨⟨location, done⟩, hdata, heq⟩ := Option.map_eq_some_iff.mp hrun
  simp only at heq
  subst heq
  obtain ⟨hprefixes, hsuffixes, hpfx, hsuffix, hkeeps, hsame⟩ :=
    storeParts_spec hholds.prefixes hholds.suffixes hcareful hparts
  have hkept : parts.Kept v codec := by
    rw [hsame]
    exact ⟨hholds.kept.consistent, hholds.kept.current, hholds.kept.parked, hholds.kept.apart,
      hholds.kept.ahead, hholds.kept.header⟩
  obtain ⟨hturned, hsize, hindex⟩ := hkept.turn req.sectorMode.dataSize
  have happart : ∀ e ∈ (parts.turn v codec req.sectorMode.dataSize).store.index,
      e.hash = hash req.dataPart → e.bytes = req.dataPart := by
    rw [hindex, hsame]
    exact hcareful.apart
  obtain ⟨hdone, hsubset, ⟨e, he, hof, hbytes⟩, hwritten⟩ :=
    hturned.writeData hsize hcareful.small happart hdata
  have hturn := parts.turn_same v codec req.sectorMode.dataSize
  have hdonePrefixes : done.prefixes = parts.prefixes := hwritten.prefixes.trans hturn.prefixes
  have hdoneSuffixes : done.suffixes = parts.suffixes := hwritten.suffixes.trans hturn.suffixes
  have hdoneMap : done.map ++ done.cached = im.map ++ im.cached := by
    rw [hwritten.map, hwritten.cached, hturn.map, hturn.cached, hsame]
  have hdoneCount : done.sectorCount = im.sectorCount := by
    rw [hwritten.sectorCount, hturn.sectorCount, hsame]
  have hstill : im.Keeps done := by
    refine ⟨?_, ?_, ?_⟩
    · rw [hdonePrefixes]
      exact hkeeps.prefixes
    · rw [hdoneSuffixes]
      exact hkeeps.suffixes
    · rw [hindex] at hsubset
      exact List.Subset.trans hkeeps.index hsubset
  have hnew : done.Recorded req (req.entry hash location) := by
    refine ⟨req.partsOf location ?_ ?_, hcareful.suffix, e, he, hof.1, hof.2.1, hbytes⟩
    · rw [hdonePrefixes]
      exact hpfx
    · rw [hdoneSuffixes]
      exact hsuffix
  refine ⟨⟨hdone.consistent, hdone.current, hdone.parked, hdone.apart, hdone.ahead, hdone.header⟩,
    hdonePrefixes ▸ hprefixes, hdoneSuffixes ▸ hsuffixes, ?_, ?_, ?_, ?_⟩
  · have hentries : List.Forall₂ done.Recorded (reqs ++ [req])
        (done.map ++ done.cached ++ [req.entry hash location]) := by
      rw [hdoneMap]
      exact List.rel_append (hholds.entries.imp fun _ _ h ↦ h.mono hstill) (.cons hnew .nil)
    rw [List.append_assoc] at hentries
    exact hentries.imp fun _ _ h ↦ h.mono ⟨fun _ _ h ↦ h, fun _ _ h ↦ h, List.Subset.refl _⟩
  · rw [List.map_append, List.map_singleton]
    refine List.pairwise_append.mpr ⟨hholds.ascending, List.pairwise_singleton _ _, fun n hn m hm ↦ ?_⟩
    rw [List.mem_singleton.mp hm]
    rw [← sectors_eq hholds.entries] at hn
    obtain ⟨entry, hentry, rfl⟩ := List.mem_map.mp hn
    exact hcareful.behind entry hentry
  · rw [sectorsUpTo_concat, ← hholds.count, ← hdoneCount]
  · have hsmall := hholds.small
    have hsmall' := hcareful.small
    rw [← hdoneCount] at hsmall
    simp only
    rcases Nat.le_total done.sectorCount (req.sector + 1) with h | h
    · rw [Nat.max_eq_right h]
      exact hsmall'
    · rw [Nat.max_eq_left h]
      exact hsmall

theorem CdImage.Holds.flush :
    (im.flush v codec).Holds v codec reqs ∧ (im.flush v codec).db.dirty = false := by
  obtain ⟨hkept, hclean, hindex, -⟩ := hholds.kept.flushBlock
  have hsame := im.flushBlock_same v codec
  refine ⟨⟨⟨hkept.consistent, hkept.current, hkept.parked, hkept.apart, hkept.ahead, hkept.header⟩,
    ?_, ?_, ?_, hholds.ascending, ?_, ?_⟩, hclean⟩
  · exact hsame.prefixes ▸ hholds.prefixes
  · exact hsame.suffixes ▸ hholds.suffixes
  · have hkeeps : im.Keeps (im.flush v codec) := by
      refine ⟨fun key bytes h ↦ ?_, fun key bytes h ↦ ?_, ?_⟩
      · rw [← hsame.prefixes] at h
        exact h
      · rw [← hsame.suffixes] at h
        exact h
      · rw [← hindex]
        exact List.Subset.refl _
    have hmap : (im.flush v codec).map = im.map ++ im.cached := by
      rw [← hsame.map, ← hsame.cached]
      rfl
    rw [hmap, show (im.flush v codec).cached = [] from rfl, List.append_nil]
    exact hholds.entries.imp fun _ _ h ↦ h.mono hkeeps
  · exact hsame.sectorCount.trans hholds.count
  · rw [show (im.flush v codec).sectorCount = im.sectorCount from hsame.sectorCount]
    exact hholds.small

theorem CdImage.Holds.touch {vol : Volume} {disk : ℕ → Option Piece}
    (hconsistent : HandlesState.Consistent v.blocks codec
      { im.asHandles with store := { im.store with vol, disk } }) :
    CdImage.Holds v codec { im with store := { im.store with vol, disk } } reqs :=
  ⟨hholds.kept.touch hconsistent, hholds.prefixes, hholds.suffixes,
    hholds.entries.imp fun _ _ h ↦ h.mono ⟨fun _ _ h ↦ h, fun _ _ h ↦ h, List.Subset.refl _⟩,
    hholds.ascending, hholds.count, hholds.small⟩

/-- A careful step. -/
theorem CdImage.Holds.step {step : CdStep}
    (hcareful : ∀ req, step = .writeLong req → CarefulRequest v hash req im)
    (hrun : step.run v codec pool hash im = some im') :
    im'.Holds v codec (reqs ++ step.request.toList) := by
  have hc := hholds.kept.consistent
  cases step with
  | writeLong req => exact hholds.writeLong (hcareful req rfl) hrun
  | flush =>
    obtain rfl := Option.some.inj hrun
    rw [CdStep.request, Option.toList_none, List.append_nil]
    exact hholds.flush.1
  | alloc count =>
    obtain ⟨⟨start, vol⟩, halloc, rfl⟩ := Option.map_eq_some_iff.mp hrun
    rw [CdStep.request, Option.toList_none, List.append_nil]
    have hstep : (HandleStep.alloc count).Careful v.blocks codec hash im.asHandles := trivial
    have hdone : (HandleStep.alloc count).run v.blocks codec pool hash im.asHandles = some _ :=
      Option.map_eq_some_iff.mpr ⟨(start, vol), halloc, rfl⟩
    exact hholds.touch (hc.step hstep hdone)
  | free lba count =>
    simp only [CdStep.run] at hrun
    split_ifs at hrun with hforeign
    obtain rfl := Option.some.inj hrun
    rw [CdStep.request, Option.toList_none, List.append_nil]
    have hstep : (HandleStep.free lba count).Careful v.blocks codec hash im.asHandles := trivial
    have hdone : (HandleStep.free lba count).run v.blocks codec pool hash im.asHandles = some _ :=
      if_pos hforeign
    exact hholds.touch (hc.step hstep hdone)

end

/-- The requests of a run, the one of its first step apart. -/
theorem requests_cons (reqs : List CdWriteRequest) (step : CdStep) (steps : List CdStep) :
    reqs ++ step.request.toList ++ steps.filterMap CdStep.request =
      reqs ++ (step :: steps).filterMap CdStep.request := by
  rw [List.append_assoc]
  cases hrequest : step.request with
  | none => rw [List.filterMap_cons_none hrequest, Option.toList_none, List.nil_append]
  | some req => rw [List.filterMap_cons_some hrequest, Option.toList_some, List.singleton_append]

theorem CdImage.Holds.runCd (hholds : im.Holds v codec reqs) {steps : List CdStep}
    (hcareful : CarefulCdRun v codec pool hash steps im)
    (hrun : runCd v codec pool hash steps im = some im') :
    im'.Holds v codec (reqs ++ steps.filterMap CdStep.request) := by
  induction steps generalizing im reqs with
  | nil =>
    obtain rfl := Option.some.inj hrun
    rw [List.filterMap_nil, List.append_nil]
    exact hholds
  | cons step steps ih =>
    obtain ⟨hstep, hsteps⟩ := hcareful
    obtain ⟨mid, hmid, hrest⟩ := Option.bind_eq_some_iff.mp hrun
    have hdone := ih (hholds.step hstep hmid) (hsteps mid hmid) hrest
    rwa [requests_cons] at hdone

/-! ### Reads -/

theorem lastRequested_of_mem (hascending : (reqs.map CdWriteRequest.sector).Pairwise (· < ·))
    (hreq : req ∈ reqs) {pos : ℕ} (hpos : pos / cdRawSectorSize = req.sector) :
    lastRequested reqs pos = req.raw (pos % cdRawSectorSize) := by
  unfold lastRequested
  cases hfind : reqs.reverse.find? (·.sector = pos / cdRawSectorSize) with
  | none =>
    have hmissed := List.find?_eq_none.mp hfind req (List.mem_reverse.mpr hreq)
    simp [hpos] at hmissed
  | some found =>
    have hmem := List.mem_reverse.mp (List.mem_of_find?_eq_some hfind)
    have hsector : found.sector = pos / cdRawSectorSize := by simpa using List.find?_some hfind
    have hnodup : (reqs.map CdWriteRequest.sector).Nodup := hascending.imp fun h ↦ h.ne
    rw [List.inj_on_of_nodup_map hnodup hmem hreq (hsector.trans hpos)]

theorem lastRequested_of_notMem {pos : ℕ}
    (hnone : pos / cdRawSectorSize ∉ reqs.map CdWriteRequest.sector) : lastRequested reqs pos = 0 := by
  unfold lastRequested
  cases hfind : reqs.reverse.find? (·.sector = pos / cdRawSectorSize) with
  | none => rfl
  | some found =>
    have hmem := List.mem_reverse.mp (List.mem_of_find?_eq_some hfind)
    have hsector : found.sector = pos / cdRawSectorSize := by simpa using List.find?_some hfind
    exact absurd (List.mem_map.mpr ⟨found, hmem, hsector⟩) hnone

section

variable (hholds : im.Holds v codec reqs) (hclean : im.db.dirty = false)
include hholds hclean

/-- An entry of a request gives the bytes of the request. -/
theorem CdImage.Holds.readEntry (hrecorded : im.Recorded req entry) :
    ∃ s, im.readEntry v codec entry req.sector = some s ∧ SameBefore cdRawSectorSize s req.raw := by
  obtain ⟨e, he, hlba, hoffset, hbytes⟩ := hrecorded.stored
  obtain ⟨payload, himage, hin⟩ := readImage_of_onDisk (hholds.kept.onDisk hclean e he)
  have hlength : req.dataPart.length = entry.sectorMode.dataSize := by
    rw [hrecorded.parts.mode_eq]
    exact length_portion _ _ _
  have hdata : slice payload e.offset entry.sectorMode.dataSize = req.dataPart := by
    rw [← hlength, ← hbytes]
    exact hin
  have hread : im.entryData v codec entry = some req.dataPart := by
    have hsane := hholds.kept.consistent.sane
    unfold CdImage.entryData CdImage.dataAt
    rw [← hlba, ← hoffset, if_pos (hsane.located e he).1]
    simp only [Option.bind_some, himage, hdata]
    exact if_pos ⟨hsane.offset e he, hlength⟩
  rw [CdImage.readEntry, hread]
  exact reassemble_same hrecorded.parts hrecorded.suffix

/-- A sector has the bytes of the last request for it, or zeros. -/
theorem CdImage.Holds.readSector (hcached : im.cached = []) (n : ℕ) :
    ∃ s, im.readSector v codec n = some s ∧
      ∀ i < cdRawSectorSize, s i = lastRequested reqs (n * cdRawSectorSize + i) := by
  have hpos : 0 < cdRawSectorSize := by decide
  have hdiv {i : ℕ} (hi : i < cdRawSectorSize) : (n * cdRawSectorSize + i) / cdRawSectorSize = n := by
    rw [Nat.mul_comm, Nat.mul_add_div hpos, Nat.div_eq_of_lt hi, Nat.add_zero]
  have hmod {i : ℕ} (hi : i < cdRawSectorSize) : (n * cdRawSectorSize + i) % cdRawSectorSize = i := by
    rw [Nat.mul_comm, Nat.mul_add_mod, Nat.mod_eq_of_lt hi]
  have hentries := hholds.entries
  rw [hcached, List.append_nil] at hentries
  have hsectors := sectors_eq hentries
  unfold CdImage.readSector
  cases hfind : leafFind (im.map.map CdSectorMapEntry.sector) n with
  | absent index =>
    obtain ⟨-, hbefore, hafter⟩ := leafFind_absent (hsectors ▸ hholds.ascending) hfind
    refine ⟨_, rfl, fun i hi ↦ (lastRequested_of_notMem ?_).symm⟩
    rw [hdiv hi, ← hsectors]
    intro hmem
    rw [← List.take_append_drop index (im.map.map CdSectorMapEntry.sector)] at hmem
    rcases List.mem_append.mp hmem with h | h
    · exact lt_irrefl _ (hbefore _ h)
    · exact lt_irrefl _ (hafter _ h)
  | found index =>
    have hkey := leafFind_found hfind
    rw [List.getElem?_map] at hkey
    obtain ⟨entry, hentry, hn⟩ := Option.map_eq_some_iff.mp hkey
    obtain ⟨hindex, rfl⟩ := List.getElem?_eq_some_iff.mp hentry
    have hindex' : index < reqs.length := by rwa [hentries.length_eq]
    have hrecorded : im.Recorded reqs[index] im.map[index] := hentries.get hindex' hindex
    have hsector : reqs[index].sector = n := by rw [← hn, hrecorded.parts.sector]
    obtain ⟨s, hread, hsame⟩ := hholds.readEntry hclean hrecorded
    rw [hsector] at hread
    refine ⟨s, ?_, fun i hi ↦ ?_⟩
    · simp only [hentry]
      exact hread
    · rw [hsame i hi, lastRequested_of_mem hholds.ascending (List.getElem_mem hindex')
        ((hdiv hi).trans hsector.symm), hmod hi]

end

/-- The loop of a read, when every sector has the bytes of a content. -/
theorem CdImage.readSectors_eq {content : ℕ → UInt8}
    (hsector : ∀ n, ∃ s, im.readSector v codec n = some s ∧
      ∀ i < cdRawSectorSize, s i = content (n * cdRawSectorSize + i))
    {fuel pos remaining : ℕ} (hfuel : remaining ≤ fuel) :
    im.readSectors v codec fuel pos remaining =
      some ((List.range remaining).map fun k ↦ content (pos + k)) := by
  induction fuel generalizing pos remaining with
  | zero =>
    obtain rfl := Nat.le_zero.mp hfuel
    rfl
  | succ fuel ih =>
    rw [CdImage.readSectors]
    by_cases hzero : remaining = 0
    · rw [if_pos hzero, hzero]
      rfl
    · rw [if_neg hzero]
      obtain ⟨s, hread, hbytes⟩ := hsector (pos / cdRawSectorSize)
      have hmod : pos % cdRawSectorSize < cdRawSectorSize := Nat.mod_lt _ (by decide)
      have hpos := Nat.div_add_mod' pos cdRawSectorSize
      generalize hchunk : min remaining (cdRawSectorSize - pos % cdRawSectorSize) = chunk
      have hportion : portion s (pos % cdRawSectorSize) chunk =
          (List.range chunk).map fun k ↦ content (pos + k) := by
        refine List.map_congr_left fun k hk ↦ ?_
        have hk := List.mem_range.mp hk
        rw [hbytes _ (by omega), ← Nat.add_assoc, hpos]
      have hrest : im.readSectors v codec fuel (pos + chunk) (remaining - chunk) =
          some ((List.range (remaining - chunk)).map fun k ↦ content (pos + chunk + k)) :=
        ih (by omega)
      simp only [hchunk, hread, Option.bind_some, hrest, Option.map_some, hportion]
      have hsplit : remaining = chunk + (remaining - chunk) := by omega
      conv_rhs => rw [hsplit, List.range_add, List.map_append, List.map_map]
      simp [Function.comp_def, Nat.add_assoc]

/-! ### Requests in order read back -/

/-- A new image. Every sector that is stored is on the disk, and the header of every dedup tree
describes a block of that tree. -/
structure CdImage.Fresh (v : CdVolume) (codec : Codec) (im : CdImage) : Prop where
  sane : im.store.Sane v.blocks
  onDisk : ∀ e ∈ im.store.index, SectorOnDisk v.blocks codec im.store e
  parked : ∀ n, (im.last n).1 ≠ 0 → Parked v.blocks im.store (im.last n).1 (im.last n).2
  apart : ∀ m n, m ≠ n → (im.last m).1 ≠ 0 → (im.last m).1 ≠ (im.last n).1
  header : ∀ n, (im.last n).2 ≤ v.dedupBlockSize
  prefixes : im.prefixes.Ordered CdHashRecord.hash
  suffixes : im.suffixes.Ordered CdHashRecord.hash
  closed : im.db = closedCache
  cached : im.cached = []
  map : im.map = []
  sectorCount : im.sectorCount = 0

theorem CdImage.Fresh.holds (hfresh : im.Fresh v codec) : im.Holds v codec [] := by
  have hclosed : im.db.initialized = false := by rw [hfresh.closed]; rfl
  have hconsistent : im.asHandles.Consistent v.blocks codec := by
    refine ⟨hfresh.sane, fun i ↦ ?_, fun i _ ↦ ?_, fun e he ↦ .inr (hfresh.onDisk e he), nofun⟩
    · rw [show im.asHandles.handle i = closedCache from hfresh.closed]
      exact Nat.zero_le _
    · rw [show im.asHandles.handle i = closedCache from hfresh.closed]
      rfl
  have hnone (h : im.db.initialized = true) : False := by
    rw [hclosed] at h
    cases h
  refine ⟨⟨hconsistent, fun h ↦ (hnone h).elim, fun n _ ↦ hfresh.parked n,
    fun m n _ _ ↦ hfresh.apart m n, fun h ↦ (hnone h).elim, hfresh.header⟩, hfresh.prefixes,
    hfresh.suffixes, ?_, List.Pairwise.nil, hfresh.sectorCount, ?_⟩
  · rw [hfresh.map, hfresh.cached]
    exact .nil
  · rw [hfresh.sectorCount, Nat.zero_mul]
    exact Nat.two_pow_pos 64

end Map

/-! ### Requests out of order -/

/-- Standard blocks of 512 bytes, eight to a dedup block. -/
def smallCdVolume : CdVolume where
  blockSize := 512
  dedupBlockSize := 4096
  formatted := by decide
  dvd := by decide
  fits := by decide

/-- A new image on a new volume. -/
def newCdImage : CdImage where
  store := newVolume.store
  last := fun _ ↦ (0, 0)
  db := closedCache
  sectorSize := 0
  prefixes := .empty
  suffixes := .empty
  subchannels := .empty
  cached := []
  map := []
  sectorCount := 0

/-- An audio sector, all of one byte. -/
def audioRequest (lba : ℕ) (byte : UInt8) : CdWriteRequest where
  sector := lba
  sectorMode := .audio
  raw := fun _ ↦ byte
  subchannel := none
  finds := fun _ ↦ true
  garbage := none
  prefixFresh := fun _ ↦ none
  suffixFresh := fun _ ↦ none
  subchannelFresh := fun _ ↦ none
  subchannelPlace := (0, 0)

def firstByteHash (bytes : List UInt8) : ℕ := (bytes.headD 0).toNat

theorem newCdImage_fresh : newCdImage.Fresh smallCdVolume plainCodec where
  sane := ⟨rfl, nofun, Nat.zero_le _, nofun, nofun, nofun, nofun⟩
  onDisk := nofun
  parked := fun _ h ↦ absurd rfl h
  apart := fun _ _ _ h ↦ absurd rfl h
  header := fun _ ↦ Nat.zero_le _
  prefixes := trivial
  suffixes := trivial
  closed := rfl
  cached := rfl
  map := rfl
  sectorCount := rfl

end Obmafs3
