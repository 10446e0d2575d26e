import Obmafs3.Cd.ReadLong
import Obmafs3.Library.ByteImage
import Obmafs3.Library.SearchTreeLeaves
import Obmafs3.Library.SearchTreeLoaded
import Obmafs3.Library.XxHash

/-!
# The subchannel sidecars of CD images

All images of a volume keep their subchannels in one tree. The entry of a sector has the hash of its
subchannel and the place in the tree where the record was, which any later request can make stale.
`obmafs3_read_subchannel_data` reads the block of that place, goes by what it finds there if the
hash is right, and else searches the tree. It takes the hash zero for a sector without a subchannel.
-/

set_option autoImplicit false

namespace Obmafs3

open Library.Search Library.SearchTree Library.ByteImage

/-! ### The images of a volume -/

/-- What an open image has of its own. -/
structure CdImageFile where
  db : DedupBlockCtx
  sectorSize : ℕ
  cached : List CdSectorMapEntry
  map : List CdSectorMapEntry
  sectorCount : ℕ

/-- The images of a volume, by the inodes of their parents. -/
structure CdFiles where
  store : BlockStore
  last : ℕ → ℕ × ℕ
  prefixes : Root ℕ ℕ CdHashRecord
  suffixes : Root ℕ ℕ CdHashRecord
  subchannels : Root ℕ ℕ CdHashRecord
  file : ℕ → CdImageFile

/-- The sizes of a volume and what its images are written with. -/
structure CdWriter where
  volume : CdVolume
  codec : Codec
  pool : Bool
  hash : List UInt8 → ℕ

/-- `struct cd_subchannel_record`. -/
def cdSubchannelRecordSize : ℕ := 8 + cdSubchannelSize

namespace CdFiles

def image (s : CdFiles) (i : ℕ) : CdImage where
  store := s.store
  last := s.last
  db := (s.file i).db
  sectorSize := (s.file i).sectorSize
  prefixes := s.prefixes
  suffixes := s.suffixes
  subchannels := s.subchannels
  cached := (s.file i).cached
  map := (s.file i).map
  sectorCount := (s.file i).sectorCount

def update (s : CdFiles) (i : ℕ) (im : CdImage) : CdFiles where
  store := im.store
  last := im.last
  prefixes := im.prefixes
  suffixes := im.suffixes
  subchannels := im.subchannels
  file := Function.update s.file i ⟨im.db, im.sectorSize, im.cached, im.map, im.sectorCount⟩

section Runs

variable (w : CdWriter)

/-- `obmafs3_cd_subchannel_get_location`, after the subchannel was stored: the block of the leaf and
the offset of the record there. -/
def place (req : CdWriteRequest) (s : CdFiles) : ℕ × ℕ :=
  (req.subchannel.bind fun sub ↦
    (storePart w.volume.blockSize w.hash req.subchannelFresh sub s.subchannels).bind fun tree ↦
      tree.place CdHashRecord.hash (w.hash sub)).elim (0, 0) fun found ↦
        (found.1, btreeNodeHeaderSize + found.2 * cdSubchannelRecordSize)

/-- A request whose entry has the place of its subchannel. -/
def located (s : CdFiles) : CdStep → CdStep
  | .writeLong req => .writeLong { req with subchannelPlace := s.place w req }
  | .flush => .flush
  | .alloc count => .alloc count
  | .free lba count => .free lba count

/-- One step at an image. -/
def step (i : ℕ) (step : CdStep) (s : CdFiles) : Option CdFiles :=
  ((s.located w step).run w.volume w.codec w.pool w.hash (s.image i)).map (s.update i)

def run : List (ℕ × CdStep) → CdFiles → Option CdFiles
  | [], s => some s
  | (i, step) :: steps, s => (s.step w i step).bind (run steps)

end Runs

/-! ### Reads of a sidecar -/

end CdFiles

/-- A record on the disk. -/
def CdHashRecord.bytes (r : CdHashRecord) : List UInt8 := bytesOf 8 r.hash ++ r.data

/-- What the volume has besides the records of the subchannel tree: the headers of its leaves, and
the blocks that are not its leaves. A block that cannot be read has no bytes. -/
structure CdDisk where
  header : ℕ → List UInt8
  length_header : ∀ lba, (header lba).length = btreeNodeHeaderSize
  other : ℕ → Option (List UInt8)

/-- The block of a leaf. Behind its records there are zeros. -/
def leafBlock (blockSize : ℕ) (header : List UInt8) (rs : List CdHashRecord) : List UInt8 :=
  let bytes := header ++ rs.flatMap CdHashRecord.bytes
  bytes ++ List.replicate (blockSize - bytes.length) 0

def noSubchannel : List UInt8 := List.replicate cdSubchannelSize 0

namespace CdFiles

section Reads

variable (w : CdWriter) (disk : CdDisk) (s : CdFiles)

/-- `obmafs3_block_read`. -/
def blockRead (lba : ℕ) : Option (List UInt8) :=
  match s.subchannels.leaves.find? fun l ↦ l.1 = lba with
  | some l => some (leafBlock w.volume.blockSize (disk.header lba) l.2)
  | none => disk.other lba

/-- The subchannel of an entry. There is no answer when the record would not be inside its block. -/
def subSector (entry : CdSectorMapEntry) : Option (List UInt8) :=
  if entry.subchannelHash = 0 then some noSubchannel
  else
    let searched := (cdHashTreeGet s.subchannels entry.subchannelHash).getD noSubchannel
    if entry.dedupSubchannelLba = 0 then some searched
    else
      match s.blockRead w disk entry.dedupSubchannelLba with
      | none => some noSubchannel
      | some block =>
        (readBytes block entry.dedupSubchannelOffset cdSubchannelRecordSize).map fun bytes ↦
          if number (bytes.take 8) = entry.subchannelHash then bytes.drop 8 else searched

/-- The search in the sector map, and the subchannel. Sectors without an entry are zero-filled. -/
def readSubchannel (i n : ℕ) : Option (List UInt8) :=
  match leafFind ((s.file i).map.map CdSectorMapEntry.sector) n with
  | .absent _ => some noSubchannel
  | .found index =>
    match (s.file i).map[index]? with
    | none => none
    | some entry => s.subSector w disk entry

/-- The loop of `obmafs3_read_subchannel_data`. -/
def readSubchannels (i : ℕ) : (fuel pos remaining : ℕ) → Option (List UInt8)
  | 0, _, _ => some []
  | fuel + 1, pos, remaining =>
    if remaining = 0 then some []
    else
      let skip := pos % cdSubchannelSize
      let chunk := min remaining (cdSubchannelSize - skip)
      (s.readSubchannel w disk i (pos / cdSubchannelSize)).bind fun sub ↦
        (readSubchannels i fuel (pos + chunk) (remaining - chunk)).map
          (fieldBytes sub skip chunk ++ ·)

/-- `obmafs3_read_subchannel_data` for the sidecar of an image. -/
def readSubchannelData (i offset size : ℕ) : Option (List UInt8) :=
  let virtualSize := (s.file i).sectorCount * cdSubchannelSize % 2 ^ 64
  if virtualSize ≤ offset then some []
  else
    let size := if virtualSize < (offset + size) % 2 ^ 64 then virtualSize - offset else size
    s.readSubchannels w disk i size offset size

end Reads

end CdFiles

/-! ### What the sidecar of an image is to have -/

/-- The requests of a run for an image. -/
def requestsFor (i : ℕ) (steps : List (ℕ × CdStep)) : List CdWriteRequest :=
  steps.filterMap fun step ↦ if step.1 = i then step.2.request else none

/-- The subchannel that was written for a sector. -/
def subchannelOf (reqs : List CdWriteRequest) (n : ℕ) : Option (List UInt8) :=
  (reqs.find? fun req ↦ req.sector = n).bind CdWriteRequest.subchannel

def subchannelByte (reqs : List CdWriteRequest) (pos : ℕ) : UInt8 :=
  ((subchannelOf reqs (pos / cdSubchannelSize)).getD noSubchannel).getD (pos % cdSubchannelSize) 0

/-- Every read of the sidecar of an image has the subchannels of its requests, and zeros for the
other sectors. -/
def CdFiles.SidecarReads (w : CdWriter) (disk : CdDisk) (s : CdFiles) (i : ℕ)
    (reqs : List CdWriteRequest) : Prop :=
  ∀ offset size, offset + size < 2 ^ 64 → s.readSubchannelData w disk i offset size =
      some ((List.range (min size (sectorsUpTo reqs * cdSubchannelSize - offset))).map fun k ↦
        subchannelByte reqs (offset + k))

/-- A volume without subchannels whose images are new. -/
structure CdFiles.Fresh (s : CdFiles) : Prop where
  subchannels : s.subchannels = .empty
  cached : ∀ i, (s.file i).cached = []
  map : ∀ i, (s.file i).map = []
  sectorCount : ∀ i, (s.file i).sectorCount = 0

/-- The subchannels have the size of those on a disc. -/
def WholeSubchannels (reqs : ℕ → List CdWriteRequest) : Prop :=
  ∀ i, ∀ req ∈ reqs i, ∀ sub ∈ req.subchannel, sub.length = cdSubchannelSize

/-- No two subchannels that were written have one hash. -/
def SubchannelsApart (hash : List UInt8 → ℕ) (reqs : ℕ → List CdWriteRequest) : Prop :=
  ∀ i, ∀ req ∈ reqs i, ∀ j, ∀ req' ∈ reqs j, ∀ sub ∈ req.subchannel, ∀ sub' ∈ req'.subchannel,
    hash sub = hash sub' → sub = sub'

/-! ### The tree of the subchannels -/

section Trees

variable {blockSize : ℕ} {hash : List UInt8 → ℕ} {fresh : ℕ → Option ℕ} {part : List UInt8}
  {tree tree' : Root ℕ ℕ CdHashRecord}

/-- A tree that requests alone have made: its leaves fit their blocks and its records have the
hashes of their data. -/
structure SubchannelTree (blockSize : ℕ) (hash : List UInt8 → ℕ) (tree : Root ℕ ℕ CdHashRecord) :
    Prop where
  ordered : tree.Ordered CdHashRecord.hash
  loaded : tree.Loaded CdHashRecord.hash
  room : ∀ l ∈ tree.leaves, l.2.length ≤ maxKeys blockSize cdSubchannelRecordSize
  hash_eq : ∀ r ∈ tree.records, r.hash = hash r.data
  whole : ∀ r ∈ tree.records, r.data.length = cdSubchannelSize

/-- What a tree keeps when a subchannel goes to it, or none does. -/
structure GrownBy (hash : List UInt8 → ℕ) (subchannel : Option (List UInt8))
    (tree tree' : Root ℕ ℕ CdHashRecord) : Prop where
  label : ∀ b ∈ tree.leaves.map Prod.fst, b ∈ tree'.leaves.map Prod.fst
  stays : ∀ r ∈ tree.records, r ∈ tree'.records
  new : ∀ r ∈ tree'.records, r ∈ tree.records ∨ subchannel = some r.data
  stored : ∀ sub ∈ subchannel, ∃ r ∈ tree'.records, r.hash = hash sub

/-- An insertion that succeeds. -/
theorem cdHashTreePut_some {recordSize : ℕ} {r : CdHashRecord}
    (hrun : cdHashTreePut blockSize recordSize fresh r tree = some tree') :
    (tree.put CdHashRecord.hash (maxKeys blockSize recordSize)
      (maxKeys blockSize btreeIndexEntrySize) fresh r).2 = true ∧
    (tree.put CdHashRecord.hash (maxKeys blockSize recordSize)
      (maxKeys blockSize btreeIndexEntrySize) fresh r).1 = tree' := by
  unfold cdHashTreePut at hrun
  split_ifs at hrun
  rcases hput : tree.put CdHashRecord.hash (maxKeys blockSize recordSize)
    (maxKeys blockSize btreeIndexEntrySize) fresh r with ⟨after, done⟩
  rw [hput] at hrun
  cases done with
  | false => cases hrun
  | true => exact ⟨rfl, Option.some.inj hrun⟩

theorem subchannelTree_empty : SubchannelTree blockSize hash .empty :=
  ⟨trivial, trivial, nofun, nofun, nofun⟩

/-- A subchannel goes to the tree. -/
theorem SubchannelTree.storePart (hformatted : 512 ≤ blockSize ∧ blockSize ≤ 65536)
    (hpart : part.length = cdSubchannelSize) (htree : SubchannelTree blockSize hash tree)
    (hrun : storePart blockSize hash fresh part tree = some tree') :
    SubchannelTree blockSize hash tree' ∧ GrownBy hash (some part) tree tree' := by
  obtain ⟨hordered, hloaded, hroom, hhash, hwhole⟩ := htree
  unfold Obmafs3.storePart at hrun
  cases hget : cdHashTreeGet tree (hash part) with
  | some part' =>
    rw [hget] at hrun
    obtain rfl := Option.some.inj hrun
    refine ⟨⟨hordered, hloaded, hroom, hhash, hwhole⟩, fun _ h ↦ h, fun _ h ↦ h, fun _ ↦ Or.inl, ?_⟩
    intro sub hsub
    obtain rfl := Option.some.inj hsub
    obtain ⟨r, hr, -⟩ := Option.map_eq_some_iff.mp hget
    exact ⟨r, (Root.mem_lookup hordered).mp hr⟩
  | none =>
    rw [hget] at hrun
    obtain ⟨hmin, hmax⟩ := hformatted
    have hleafMax : 1 ≤ maxKeys blockSize cdSubchannelRecordSize := by
      unfold cdSubchannelRecordSize cdSubchannelSize
      exact one_le_maxKeys (by omega) (by unfold btreeNodeHeaderSize; omega) (by omega)
    have hindexMax : 1 ≤ maxKeys blockSize btreeIndexEntrySize := by
      unfold btreeIndexEntrySize
      exact one_le_maxKeys (by omega) (by unfold btreeNodeHeaderSize; omega) (by omega)
    have hsize : 8 + part.length = cdSubchannelRecordSize := by rw [hpart]; rfl
    rw [hsize] at hrun
    obtain ⟨hdone, rfl⟩ := cdHashTreePut_some hrun
    have hnone := (Root.lookup_none hordered).mp (Option.map_eq_none_iff.mp hget)
    have hmem (q : CdHashRecord) := Root.mem_put (q := q) hordered hdone
    obtain ⟨hlabel, hroom'⟩ := Root.put_leaves_spec hleafMax hordered hdone hroom
    have hloaded' : if (tree.put CdHashRecord.hash (maxKeys blockSize cdSubchannelRecordSize)
        (maxKeys blockSize btreeIndexEntrySize) fresh ⟨hash part, part⟩).2 then _ else _ :=
      hloaded.put hleafMax hindexMax hordered
    rw [hdone, if_pos rfl] at hloaded'
    refine ⟨⟨Root.put_ordered hleafMax hindexMax fresh hordered (hloaded.safe hordered), hloaded',
      hroom', fun q hq ↦ ?_, fun q hq ↦ ?_⟩, hlabel,
      fun q hq ↦ (hmem q).mpr (Or.inr ⟨hq, hnone q hq⟩), fun q hq ↦ ?_, ?_⟩
    · rcases (hmem q).mp hq with rfl | ⟨hq, -⟩
      · rfl
      · exact hhash q hq
    · rcases (hmem q).mp hq with rfl | ⟨hq, -⟩
      · exact hpart
      · exact hwhole q hq
    · rcases (hmem q).mp hq with rfl | ⟨hq, -⟩
      · exact Or.inr rfl
      · exact Or.inl hq
    · intro sub hsub
      obtain rfl := Option.some.inj hsub
      exact ⟨_, (hmem _).mpr (Or.inl rfl), rfl⟩

end Trees

/-! ### Single steps -/

section Steps

variable {v : CdVolume} {codec : Codec} {pool : Bool} {hash : List UInt8 → ℕ} {im im' : CdImage}
  {req : CdWriteRequest}

theorem CdImage.flushBlock_subchannels (v : CdVolume) (codec : Codec) (im : CdImage) :
    (im.flushBlock v codec).subchannels = im.subchannels := by
  unfold flushBlock
  split_ifs <;> rfl

theorem CdImage.turn_subchannels (v : CdVolume) (codec : Codec) (im : CdImage) (n : ℕ) :
    (im.turn v codec n).subchannels = im.subchannels := by
  unfold turn
  split_ifs
  · exact im.flushBlock_subchannels v codec
  · rfl
  · rfl

theorem CdImage.writeData_subchannels {location : SectorEntry}
    (hrun : im.writeData v codec pool hash req = some (location, im')) :
    im'.subchannels = im.subchannels := by
  unfold CdImage.writeData at hrun
  simp only at hrun
  split at hrun
  · obtain ⟨_, -, heq⟩ := Option.map_eq_some_iff.mp hrun
    simp only [Prod.mk.injEq] at heq
    obtain ⟨-, rfl⟩ := heq
    rfl
  · cases hrun

/-- A subchannel is stored, if there is one. -/
def StoresSubchannel (blockSize : ℕ) (hash : List UInt8 → ℕ) (req : CdWriteRequest)
    (tree tree' : Root ℕ ℕ CdHashRecord) : Prop :=
  req.subchannel.elim (tree' = tree) fun sub ↦
    storePart blockSize hash req.subchannelFresh sub tree = some tree'

theorem StoresSubchannel.grown {blockSize : ℕ} {tree tree' : Root ℕ ℕ CdHashRecord}
    (hstores : StoresSubchannel blockSize hash req tree tree')
    (hformatted : 512 ≤ blockSize ∧ blockSize ≤ 65536)
    (hwhole : ∀ sub ∈ req.subchannel, sub.length = cdSubchannelSize)
    (htree : SubchannelTree blockSize hash tree) :
    SubchannelTree blockSize hash tree' ∧ GrownBy hash req.subchannel tree tree' := by
  rw [StoresSubchannel] at hstores
  cases hreq : req.subchannel with
  | none =>
    rw [hreq] at hstores
    obtain rfl : tree' = tree := hstores
    exact ⟨htree, fun _ h ↦ h, fun _ h ↦ h, fun _ ↦ Or.inl, nofun⟩
  | some sub =>
    rw [hreq] at hstores hwhole
    exact htree.storePart hformatted (hwhole sub rfl) hstores

/-- What a request does to the tree of the subchannels and to the map. -/
theorem CdImage.writeLong_subchannels (hrun : im.writeLong v codec pool hash req = some im') :
    StoresSubchannel v.blockSize hash req im.subchannels im'.subchannels ∧
      im'.sectorCount = max im.sectorCount (req.sector + 1) ∧
      ∃ location, im'.map ++ im'.cached = im.map ++ im.cached ++ [req.entry hash location] := by
  obtain ⟨parts, hparts, hrun⟩ := Option.bind_eq_some_iff.mp hrun
  obtain ⟨⟨location, done⟩, hdata, heq⟩ := Option.map_eq_some_iff.mp hrun
  simp only at heq
  subst heq
  have hturn := parts.turn_same v codec req.sectorMode.dataSize
  have hwritten := writeData_same hdata
  have hsub : done.subchannels = parts.subchannels :=
    (writeData_subchannels hdata).trans (parts.turn_subchannels v codec _)
  unfold CdImage.storeParts at hparts
  obtain ⟨subchannels, hstored, hparts⟩ := Option.bind_eq_some_iff.mp hparts
  obtain ⟨prefixes, -, hparts⟩ := Option.bind_eq_some_iff.mp hparts
  obtain ⟨suffixes, -, rfl⟩ := Option.map_eq_some_iff.mp hparts
  refine ⟨?_, ?_, location, ?_⟩
  · dsimp only at hsub ⊢
    rw [hsub, StoresSubchannel]
    cases hreq : req.subchannel with
    | none =>
      rw [hreq] at hstored
      exact (Option.some.inj hstored).symm
    | some sub =>
      rw [hreq] at hstored
      exact hstored
  · dsimp only
    rw [hwritten.sectorCount, hturn.sectorCount]
  · dsimp only
    rw [hwritten.map, hwritten.cached, hturn.map, hturn.cached, List.append_assoc]

/-- Nothing else touches the tree and the entries. -/
theorem CdStep.run_subchannels {step : CdStep} (hstep : step.request = none)
    (hrun : step.run v codec pool hash im = some im') :
    im'.subchannels = im.subchannels ∧ im'.sectorCount = im.sectorCount ∧
      im'.map ++ im'.cached = im.map ++ im.cached := by
  cases step with
  | writeLong req => cases hstep
  | flush =>
    obtain rfl := Option.some.inj hrun
    have hsame := im.flushBlock_same v codec
    refine ⟨im.flushBlock_subchannels v codec, hsame.sectorCount, ?_⟩
    change (im.flushBlock v codec).map ++ (im.flushBlock v codec).cached ++ [] = _
    rw [List.append_nil, hsame.map, hsame.cached]
  | alloc count =>
    obtain ⟨⟨start, vol⟩, -, rfl⟩ := Option.map_eq_some_iff.mp hrun
    exact ⟨rfl, rfl, rfl⟩
  | free lba count =>
    simp only [CdStep.run] at hrun
    split_ifs at hrun
    obtain rfl := Option.some.inj hrun
    exact ⟨rfl, rfl, rfl⟩

end Steps

/-! ### The entries of the images -/

section Entries

variable {w : CdWriter} {s s' : CdFiles} {reqs : ℕ → List CdWriteRequest}

/-- The entry of a request. Its place is one in a leaf of the tree, whatever is there by now. -/
structure EntryOf (w : CdWriter) (tree : Root ℕ ℕ CdHashRecord) (entry : CdSectorMapEntry)
    (req : CdWriteRequest) : Prop where
  sector : entry.sector = req.sector
  hash_eq : entry.subchannelHash = req.subchannel.elim 0 w.hash
  stored : ∀ sub ∈ req.subchannel, ∃ r ∈ tree.records, r.hash = w.hash sub
  placed : entry.dedupSubchannelLba = 0 ∨
    ∃ slot < maxKeys w.volume.blockSize cdSubchannelRecordSize,
      entry.dedupSubchannelLba ∈ tree.leaves.map Prod.fst ∧
        entry.dedupSubchannelOffset = btreeNodeHeaderSize + slot * cdSubchannelRecordSize

/-- The tree and the entries after the requests of all images. -/
structure CdFiles.Holds (w : CdWriter) (s : CdFiles) (reqs : ℕ → List CdWriteRequest) : Prop where
  tree : SubchannelTree w.volume.blockSize w.hash s.subchannels
  written : ∀ r ∈ s.subchannels.records, ∃ i, ∃ req ∈ reqs i, req.subchannel = some r.data
  entries : ∀ i, List.Forall₂ (EntryOf w s.subchannels) ((s.file i).map ++ (s.file i).cached)
    (reqs i)
  count : ∀ i, (s.file i).sectorCount = sectorsUpTo (reqs i)

variable {req : CdWriteRequest}

theorem EntryOf.mono {tree tree' : Root ℕ ℕ CdHashRecord} {entry : CdSectorMapEntry}
    (hentry : EntryOf w tree entry req)
    (hlabel : ∀ b ∈ tree.leaves.map Prod.fst, b ∈ tree'.leaves.map Prod.fst)
    (hstays : ∀ r ∈ tree.records, r ∈ tree'.records) : EntryOf w tree' entry req := by
  refine ⟨hentry.sector, hentry.hash_eq, fun sub hsub ↦ ?_, ?_⟩
  · obtain ⟨r, hr, hhash⟩ := hentry.stored sub hsub
    exact ⟨r, hstays r hr, hhash⟩
  · rcases hentry.placed with hzero | ⟨slot, hslot, hlba, hoffset⟩
    · exact Or.inl hzero
    · exact Or.inr ⟨slot, hslot, hlabel _ hlba, hoffset⟩

theorem CdFiles.Fresh.holds (hfresh : s.Fresh) : s.Holds w fun _ ↦ [] := by
  refine ⟨?_, ?_, fun i ↦ ?_, fun i ↦ hfresh.sectorCount i⟩
  · rw [hfresh.subchannels]
    exact subchannelTree_empty
  · rw [hfresh.subchannels]
    nofun
  · rw [hfresh.map, hfresh.cached]
    exact .nil

theorem requestsFor_same (i : ℕ) (step : CdStep) :
    requestsFor i [(i, step)] = step.request.toList := by
  rw [requestsFor]
  cases hreq : step.request with
  | none => exact List.filterMap_cons_none ((if_pos rfl).trans hreq)
  | some req => exact List.filterMap_cons_some ((if_pos rfl).trans hreq)

theorem requestsFor_other {i j : ℕ} (hne : i ≠ j) (step : CdStep) :
    requestsFor j [(i, step)] = [] :=
  List.filterMap_cons_none (if_neg hne)

theorem requestsFor_cons (i : ℕ) (step : ℕ × CdStep) (steps : List (ℕ × CdStep)) :
    requestsFor i (step :: steps) = requestsFor i [step] ++ requestsFor i steps :=
  List.filterMap_append (l := [step])

theorem CdFiles.image_update (i : ℕ) (im : CdImage) : (s.update i im).image i = im := by
  simp only [CdFiles.image, CdFiles.update, Function.update_self]

theorem CdFiles.update_file_of_ne {i j : ℕ} (hne : j ≠ i) (im : CdImage) :
    (s.update i im).file j = s.file j :=
  Function.update_of_ne hne _ _

/-- The place in the entry of a request. -/
theorem StoresSubchannel.placed {tree' : Root ℕ ℕ CdHashRecord}
    (hstores : StoresSubchannel w.volume.blockSize w.hash req s.subchannels tree')
    (hroom : ∀ l ∈ tree'.leaves, l.2.length ≤ maxKeys w.volume.blockSize cdSubchannelRecordSize) :
    (req.subchannel.elim 0 fun _ ↦ (s.place w req).1) = 0 ∨
      ∃ slot < maxKeys w.volume.blockSize cdSubchannelRecordSize,
        (req.subchannel.elim 0 fun _ ↦ (s.place w req).1) ∈ tree'.leaves.map Prod.fst ∧
          (req.subchannel.elim 0 fun _ ↦ (s.place w req).2) =
            btreeNodeHeaderSize + slot * cdSubchannelRecordSize := by
  rw [StoresSubchannel] at hstores
  cases hreq : req.subchannel with
  | none => exact Or.inl rfl
  | some sub =>
    rw [hreq, Option.elim_some] at hstores
    rw [Option.elim_some, Option.elim_some, CdFiles.place, hreq, Option.bind_some, hstores,
      Option.bind_some]
    cases hplace : tree'.place CdHashRecord.hash (w.hash sub) with
    | none => exact Or.inl rfl
    | some found =>
      obtain ⟨rs, hleaf, hslot⟩ := Root.place_mem hplace
      exact Or.inr ⟨found.2, hslot.trans_le (hroom _ hleaf), List.mem_map_of_mem hleaf, rfl⟩

variable (hholds : s.Holds w reqs)
include hholds

/-- A request adds its subchannel and its entry. -/
theorem CdFiles.Holds.writeLong {i : ℕ}
    (hwhole : ∀ sub ∈ req.subchannel, sub.length = cdSubchannelSize)
    (hrun : s.step w i (.writeLong req) = some s') :
    s'.Holds w (fun j ↦ reqs j ++ requestsFor j [(i, .writeLong req)]) := by
  obtain ⟨im, him, rfl⟩ := Option.map_eq_some_iff.mp hrun
  obtain ⟨hstores, hcount, location, hentries⟩ := CdImage.writeLong_subchannels him
  have hstored : StoresSubchannel w.volume.blockSize w.hash req s.subchannels im.subchannels :=
    hstores
  obtain ⟨htree, hgrown⟩ := hstored.grown w.volume.formatted hwhole hholds.tree
  have hnew : EntryOf w im.subchannels
      (CdWriteRequest.entry { req with subchannelPlace := s.place w req } w.hash location) req :=
    ⟨rfl, rfl, hgrown.stored, hstored.placed htree.room⟩
  refine ⟨htree, fun r hr ↦ ?_, fun j ↦ ?_, fun j ↦ ?_⟩
  · rcases hgrown.new r hr with hr | hreq
    · obtain ⟨j, q, hq, hdata⟩ := hholds.written r hr
      exact ⟨j, q, List.mem_append_left _ hq, hdata⟩
    · refine ⟨i, req, List.mem_append_right _ ?_, hreq⟩
      rw [requestsFor_same]
      exact List.mem_singleton_self req
  · have hold := (hholds.entries j).imp fun _ _ h ↦ h.mono hgrown.label hgrown.stays
    rcases eq_or_ne j i with rfl | hne
    · rw [requestsFor_same]
      change List.Forall₂ _ (((s.update j im).image j).map ++ ((s.update j im).image j).cached) _
      rw [CdFiles.image_update, hentries]
      exact List.rel_append hold (.cons hnew .nil)
    · rw [requestsFor_other hne.symm, List.append_nil, CdFiles.update_file_of_ne hne]
      exact hold
  · rcases eq_or_ne j i with rfl | hne
    · rw [requestsFor_same]
      change ((s.update j im).image j).sectorCount = _
      rw [CdFiles.image_update, hcount]
      exact (congrArg (max · _) (hholds.count j)).trans (sectorsUpTo_concat (reqs j) req).symm
    · rw [requestsFor_other hne.symm, List.append_nil, CdFiles.update_file_of_ne hne]
      exact hholds.count j

/-- A step without a request. -/
theorem CdFiles.Holds.other {i : ℕ} {step : CdStep} (hstep : step.request = none)
    (hrun : s.step w i step = some s') :
    s'.Holds w (fun j ↦ reqs j ++ requestsFor j [(i, step)]) := by
  have hlocated : s.located w step = step := by
    cases step with
    | writeLong req => cases hstep
    | flush => rfl
    | alloc count => rfl
    | free lba count => rfl
  obtain ⟨im, him, rfl⟩ := Option.map_eq_some_iff.mp hrun
  rw [hlocated] at him
  obtain ⟨hsub, hcount, hentries⟩ := CdStep.run_subchannels hstep him
  have hreqs (j : ℕ) : requestsFor j [(i, step)] = [] := by
    rcases eq_or_ne i j with rfl | hne
    · rw [requestsFor_same, hstep, Option.toList_none]
    · exact requestsFor_other hne step
  refine ⟨?_, fun r hr ↦ ?_, fun j ↦ ?_, fun j ↦ ?_⟩
  · change SubchannelTree _ _ im.subchannels
    rw [hsub]
    exact hholds.tree
  · change r ∈ im.subchannels.records at hr
    rw [hsub] at hr
    simp only [hreqs, List.append_nil]
    exact hholds.written r hr
  · change List.Forall₂ (EntryOf w im.subchannels) _ _
    rw [hreqs, List.append_nil, hsub]
    rcases eq_or_ne j i with rfl | hne
    · change List.Forall₂ _ (((s.update j im).image j).map ++ ((s.update j im).image j).cached) _
      rw [CdFiles.image_update, hentries]
      exact hholds.entries j
    · rw [CdFiles.update_file_of_ne hne]
      exact hholds.entries j
  · rw [hreqs, List.append_nil]
    rcases eq_or_ne j i with rfl | hne
    · change ((s.update j im).image j).sectorCount = _
      rw [CdFiles.image_update, hcount]
      exact hholds.count j
    · rw [CdFiles.update_file_of_ne hne]
      exact hholds.count j

/-- The tree and the entries after a run. -/
theorem CdFiles.Holds.run {steps : List (ℕ × CdStep)}
    (hwhole : WholeSubchannels fun i ↦ requestsFor i steps) (hrun : s.run w steps = some s') :
    s'.Holds w fun i ↦ reqs i ++ requestsFor i steps := by
  induction steps generalizing s reqs with
  | nil =>
    obtain rfl := Option.some.inj hrun
    simpa only [requestsFor, List.filterMap_nil, List.append_nil] using hholds
  | cons step steps ih =>
    obtain ⟨i, step⟩ := step
    obtain ⟨mid, hmid, hrest⟩ := Option.bind_eq_some_iff.mp hrun
    have hlater : WholeSubchannels fun i ↦ requestsFor i steps := fun j req hreq ↦ by
      have hmem : req ∈ requestsFor j ((i, step) :: steps) := by
        rw [requestsFor_cons]
        exact List.mem_append_right _ hreq
      exact hwhole j req hmem
    have hdone : mid.Holds w fun j ↦ reqs j ++ requestsFor j [(i, step)] := by
      cases hreq : step.request with
      | none => exact hholds.other hreq hmid
      | some req =>
        obtain rfl : step = .writeLong req := by
          cases step with
          | writeLong req' => exact congrArg _ (Option.some.inj hreq)
          | _ => cases hreq
        have hmem : req ∈ requestsFor i ((i, .writeLong req) :: steps) := by
          rw [requestsFor_cons, requestsFor_same]
          exact List.mem_append_left _ (List.mem_singleton_self req)
        exact hholds.writeLong (hwhole i req hmem) hmid
    have hall := ih hdone hlater hrest
    simp only [List.append_assoc, ← requestsFor_cons] at hall
    exact hall

end Entries

end Obmafs3
