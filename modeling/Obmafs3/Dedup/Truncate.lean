import Obmafs3.Dedup.MediaImage
import Obmafs3.Dedup.Parked

/-!
# Truncating a media image and writing it again

The extents of a media image have its sector map, while `file_size` counts the bytes of the image.
A truncation to size 0 frees the extents and takes the size back, and leaves `sector_map_size` as
it was. The next flush puts the new entries at the position that follows from it. What is in front
of them is zeros, as many as the old image had entries, or, from the size of a compression group
on, blocks that are not there, so that the flush fails when it computes the checksum of the map.

`truncated_image_reads` says that the new image reads back when there are no old entries or no new
ones, and that otherwise it does not, unless a stored sector has the hash 0, which is what zeros
are taken for.
-/

set_option autoImplicit false

namespace Obmafs3

/-! ### Flushes, truncations and reads -/

section Definitions

variable (g : Geometry) (codec : Codec) (pool : Bool) (hash : List UInt8 → ℕ)

/-- `OBMAFS3_COMPRESS_GROUP_BLOCKS`. -/
def compressGroupBlocks : ℕ := 16

/-- The bytes of a `struct sector_map_header`. -/
def sectorMapHeaderSize : ℕ := 43

/-- A media image with `sector_map_size`. The map of the image is what its extents have. -/
structure ImageFile where
  image : ImageState
  mapSize : ℕ

/-- The entry that zeros are: without a place, and with the hash 0. -/
def zeroEntry : SectorEntry := ⟨0, 0, []⟩

/-- `write_sector_map_batch` and `sector_map_finalize_checksum` for the entries that wait, with the
flush of the block cache. The groups into which the batch goes are filled with zeros. When the
batch starts behind the first group and there is nothing before it, the extents take the place of
the blocks that are missing, and the checksum does not find the last blocks of the map. -/
def ImageFile.flush (f : ImageFile) : Option ImageFile :=
  let flushed := f.image.flush g codec
  if f.image.cached.length = 0 then some { f with image := flushed }
  else if f.image.map.length < f.mapSize ∧
      compressGroupBlocks * g.blockSize ≤ sectorMapHeaderSize + f.mapSize * sectorMapEntrySize then
    none
  else
    let missing := List.replicate (f.mapSize - f.image.map.length) zeroEntry
    some ⟨{ flushed with map := f.image.map ++ missing ++ f.image.cached },
      f.mapSize + f.image.cached.length⟩

/-- `obmafs3_fuse_truncate_impl` for the size 0. Without a size there is nothing to free. -/
def ImageFile.truncate (f : ImageFile) : ImageFile :=
  if f.image.fileSize = 0 then f
  else { f with image := { f.image with fileSize := 0, map := [] } }

/-- The last close of a file and the next open of it. -/
def ImageFile.reopen (f : ImageFile) : ImageFile :=
  { f with image := { f.image with db := closedCache } }

/-- The place of an entry: its own, or, when it has none, that of its hash in the tree. The only entries
without a place are zeros, so that the hash is 0. -/
def SectorEntry.located (st : BlockStore) (entry : SectorEntry) : Option SectorEntry :=
  if entry.lba = 0 then (st.index.find? (·.hash = 0)).map fun e ↦ ⟨e.lba, e.offset, e.bytes⟩
  else some entry

/-- `obmafs3_read_media_image_data` with its lookups, which come before the reads of the data. -/
def ImageFile.read (f : ImageFile) (offset size : ℕ) : Option (List UInt8) :=
  if f.image.fileSize ≤ offset then some []
  else
    let size := min size (f.image.fileSize - offset)
    if size = 0 then some []
    else
      let first := offset / g.sectorSize
      let count := (offset + size - 1) / g.sectorSize - first + 1
      let located := SectorEntry.located f.image.store
      if ((f.image.map.drop first).take count).all fun entry ↦ (located entry).isSome then
        ImageState.readSectors g codec
          { f.image with map := f.image.map.map fun entry ↦ (located entry).getD entry }
          size offset size
      else none

/-- Calls of a writer up to a flush, after which the file may be closed. -/
structure Session where
  calls : List WriteCall
  closes : Bool

def ImageFile.session (s : Session) (f : ImageFile) : Option ImageFile :=
  (f.image.writeAll g codec pool hash s.calls).bind fun image ↦
    (ImageFile.flush g codec { f with image }).map fun f ↦ if s.closes then f.reopen else f

def ImageFile.sessions : List Session → ImageFile → Option ImageFile
  | [], f => some f
  | s :: ss, f => (f.session g codec pool hash s).bind (sessions ss)

/-- The hashes of no call collide. -/
def AllApart : List WriteCall → ImageState → Prop
  | [], _ => True
  | call :: calls, im =>
    Apart hash im.store.index (call.sectors g) ∧
      ∀ im', im.write g codec pool hash call = some im' → AllApart calls im'

def SessionsApart : List Session → ImageFile → Prop
  | [], _ => True
  | s :: ss, f =>
    AllApart g codec pool hash s.calls f.image ∧
      ∀ f', f.session g codec pool hash s = some f' → SessionsApart ss f'

/-- The file has the size of the content and every read gives its bytes. -/
def ImageFile.ReadsBack (f : ImageFile) (content : List UInt8) : Prop :=
  f.image.fileSize = content.length ∧
    ∀ offset size, f.read g codec offset size = some ((content.drop offset).take size)

/-- The old image has no sectors, or the new one has none. -/
def NothingMissing (old : List Session) (new : List WriteCall) : Prop :=
  (∀ s ∈ old, ∀ call ∈ s.calls, call.data = []) ∨ ∀ call ∈ new, call.data = []

end Definitions

section Proofs

variable {g : Geometry} {codec : Codec} {pool : Bool} {hash : List UInt8 → ℕ} {im : ImageState}
  {f : ImageFile}

/-! ### Writes -/

variable {content : List UInt8} {call : WriteCall}

theorem WriteCall.sectors_eq_nil : call.sectors g = [] ↔ call.data = [] := by
  unfold WriteCall.sectors
  constructor
  · intro hnil
    by_contra hdata
    have hpos := List.length_pos_of_ne_nil hdata
    cases hcount : numSectors g call.data.length with
    | zero =>
      have hnone := (numSectors_spec (g := g) call.data.length 0).mpr (by omega)
      omega
    | succ fuel =>
      rw [hcount, splitSectors, dif_neg hdata] at hnil
      cases hnil
  · intro hdata
    rw [hdata]
    simp [numSectors, splitSectors]

variable {im' : ImageState} {calls : List WriteCall} {f' : ImageFile}

theorem ImageState.write_map (hrun : im.write g codec pool hash call = some im') :
    im'.map = im.map := by
  unfold ImageState.write at hrun
  simp only at hrun
  split at hrun
  · obtain rfl := Option.some.inj hrun
    rfl
  · cases hrun

theorem ImageState.writeAll_map (hrun : im.writeAll g codec pool hash calls = some im') :
    im'.map = im.map := by
  induction calls generalizing im with
  | nil =>
    obtain rfl := Option.some.inj hrun
    rfl
  | cons call calls ih =>
    obtain ⟨mid, hmid, hrest⟩ := Option.bind_eq_some_iff.mp hrun
    rw [ih hrest, ImageState.write_map hmid]

/-- Entries come with data, and so does a size. -/
theorem ImageState.Sound.writeAll (hsound : im.Sound g codec)
    (hapart : AllApart g codec pool hash calls im)
    (hrun : im.writeAll g codec pool hash calls = some im') :
    im'.Sound g codec ∧ (im'.cached = [] ↔ im.cached = [] ∧ ∀ call ∈ calls, call.data = []) ∧
      (im'.fileSize = 0 → im.fileSize = 0 ∧ ∀ call ∈ calls, call.data = []) := by
  induction calls generalizing im with
  | nil =>
    obtain rfl := Option.some.inj hrun
    exact ⟨hsound, by simp, fun hzero ↦ ⟨hzero, by simp⟩⟩
  | cons call calls ih =>
    obtain ⟨hcall, hcalls⟩ := hapart
    obtain ⟨mid, hmid, hrest⟩ := Option.bind_eq_some_iff.mp hrun
    obtain ⟨hsound', hsize, placed, hmap, hplaced⟩ := hsound.written hcall hmid
    obtain ⟨hend, hcached, hzero⟩ := ih hsound' (hcalls mid hmid) hrest
    have hnil : placed = [] ↔ call.data = [] := by
      rw [← WriteCall.sectors_eq_nil (g := g), ← List.map_eq_nil_iff (f := SectorEntry.bytes),
        hplaced, List.map_eq_nil_iff]
    rw [ImageState.write_map hmid, List.append_assoc] at hmap
    rw [List.append_cancel_left hmap, List.append_eq_nil_iff, hnil, and_assoc] at hcached
    refine ⟨hend, by rw [hcached, List.forall_mem_cons], fun hnone ↦ ?_⟩
    obtain ⟨hmidsize, hdata⟩ := hzero hnone
    rw [hsize] at hmidsize
    exact ⟨by omega, List.forall_mem_cons.mpr ⟨List.eq_nil_of_length_eq_zero (by omega), hdata⟩⟩

/-- Calls that append, as the content. -/
theorem ImageState.Holds.appended (hholds : im.Holds g codec content)
    (happends : AllAppend g codec pool hash calls im)
    (hrun : im.writeAll g codec pool hash calls = some im') :
    im'.Holds g codec (content ++ calls.flatMap WriteCall.data) := by
  induction calls generalizing im content with
  | nil =>
    obtain rfl := Option.some.inj hrun
    simpa using hholds
  | cons call calls ih =>
    obtain ⟨hcall, hapart, hcalls⟩ := happends
    obtain ⟨mid, hmid, hrest⟩ := Option.bind_eq_some_iff.mp hrun
    have hend := ih (hholds.write hcall hapart hmid) (hcalls mid hmid) hrest
    rwa [List.append_assoc, ← List.flatMap_cons] at hend

/-! ### Files that are opened again -/

/-- A block cache that starts again after a flush goes on where the flush was. -/
theorem ImageState.Sound.flush_reopen (hsound : im.Sound g codec) :
    ImageState.Sound g codec { im.flush g codec with db := closedCache } := by
  obtain ⟨hflushed, hindex, hdisk⟩ := hsound.flush
  rw [← hindex] at hdisk
  have hsane := hflushed.consistent.sane
  refine ⟨⟨hsane, fun _ ↦ Nat.zero_le _, fun _ _ ↦ rfl, fun e he ↦ .inr (hdisk e he), nofun⟩,
    fun garbage db hdb ↦ ?_, hflushed.known⟩
  change openedCache g codec garbage (im.flush g codec).store closedCache = some db at hdb
  change Current g (im.flush g codec).store db
  by_cases hinit : im.db.initialized = true
  · have hlast : (im.flush g codec).store = (im.flush g codec).store.resume
          ((im.flush g codec).db.blockLba, (im.flush g codec).db.offset) := by
      unfold ImageState.flush
      simp only [hinit, if_true]
      rfl
    have hcurrent : Current g (im.flush g codec).store (im.flush g codec).db := by
      refine hflushed.current none _ (if_pos ?_)
      unfold ImageState.flush
      simp only [hinit, if_true]
      rw [(dedupBlockFlush_kept g codec im.store im.db).2.2.2, hinit]
    have hopened : ((im.flush g codec).store.resume
        ((im.flush g codec).db.blockLba, (im.flush g codec).db.offset)).dedupBlockInit g codec
          garbage = some db := by
      rw [← hlast]
      exact hdb
    have hparked (hlba : (im.flush g codec).db.blockLba ≠ 0) := hcurrent.parked hsane hlba
    exact (Parked.resume hsane hparked (fun e he _ ↦ hdisk e he) hopened).2
  · refine hflushed.current garbage db ?_
    have hclosed : (im.flush g codec).db.initialized = false := by
      unfold ImageState.flush
      simp only [hinit, if_false, Bool.false_eq_true]
    rw [openedCache, hclosed, if_neg Bool.false_ne_true]
    exact hdb

/-! ### Sessions -/

/-- A file between two sessions. -/
structure ImageFile.Closed (g : Geometry) (codec : Codec) (f : ImageFile) : Prop where
  sound : f.image.Sound g codec
  cached : f.image.cached = []
  mapSize : f.mapSize = f.image.map.length
  size : f.image.fileSize = 0 → f.image.map = []

/-- Without missing entries a flush is that of the image. -/
theorem ImageFile.flush_eq (hmapSize : f.mapSize = f.image.map.length) :
    f.flush g codec = some ⟨f.image.flush g codec, f.mapSize + f.image.cached.length⟩ := by
  unfold ImageFile.flush
  split_ifs with hcached hmissing
  · rw [hcached]
    rfl
  · omega
  · simp only [hmapSize, Nat.sub_self, List.replicate_zero, List.append_nil]
    rfl

section

variable (hclosed : f.Closed g codec)
include hclosed

/-- A session keeps the invariant, and the map is empty as long as there is no data. -/
theorem ImageFile.Closed.session {s : Session} (hapart : AllApart g codec pool hash s.calls f.image)
    (hrun : f.session g codec pool hash s = some f') :
    f'.Closed g codec ∧
      (f'.image.map = [] ↔ f.image.map = [] ∧ ∀ call ∈ s.calls, call.data = []) := by
  obtain ⟨im, hwrite, hflush⟩ := Option.bind_eq_some_iff.mp hrun
  obtain ⟨hsound, hcached, hsize⟩ := hclosed.sound.writeAll hapart hwrite
  have hmap := ImageState.writeAll_map hwrite
  have hmapSize : f.mapSize = im.map.length := by rw [hclosed.mapSize, hmap]
  rw [ImageFile.flush_eq (f := ⟨im, f.mapSize⟩) hmapSize, Option.map_some] at hflush
  obtain rfl := Option.some.inj hflush
  have hempty : (im.flush g codec).map = [] ↔
      f.image.map = [] ∧ ∀ call ∈ s.calls, call.data = [] := by
    change im.map ++ im.cached = [] ↔ _
    rw [List.append_eq_nil_iff, hmap, hcached]
    simp [hclosed.cached]
  have hlength : f.mapSize + im.cached.length = (im.flush g codec).map.length := by
    change _ = (im.map ++ im.cached).length
    rw [List.length_append, hmapSize]
  have hzero : (im.flush g codec).fileSize = 0 → (im.flush g codec).map = [] := fun hnone ↦
    have hdata := hsize hnone
    hempty.mpr ⟨hclosed.size hdata.1, hdata.2⟩
  split_ifs
  · exact ⟨⟨hsound.flush_reopen, rfl, hlength, hzero⟩, hempty⟩
  · exact ⟨⟨hsound.flush.1, rfl, hlength, hzero⟩, hempty⟩

theorem ImageFile.Closed.sessions {ss : List Session}
    (hapart : SessionsApart g codec pool hash ss f)
    (hrun : f.sessions g codec pool hash ss = some f') :
    f'.Closed g codec ∧ (f'.image.map = [] ↔
      f.image.map = [] ∧ ∀ s ∈ ss, ∀ call ∈ s.calls, call.data = []) := by
  induction ss generalizing f with
  | nil =>
    obtain rfl := Option.some.inj hrun
    exact ⟨hclosed, by simp⟩
  | cons s ss ih =>
    obtain ⟨hcalls, hrest⟩ := hapart
    obtain ⟨mid, hmid, hend⟩ := Option.bind_eq_some_iff.mp hrun
    obtain ⟨hclosed', hempty⟩ := hclosed.session hcalls hmid
    obtain ⟨hclosed'', hempty'⟩ := ih hclosed' (hrest mid hmid) hend
    exact ⟨hclosed'', by rw [hempty', hempty, and_assoc, List.forall_mem_cons]⟩

/-! ### Truncations -/

/-- A truncated image has no content, and the old number of entries. -/
theorem ImageFile.Closed.truncate :
    f.truncate.image.Holds g codec [] ∧ f.truncate.image.map = [] ∧
      f.truncate.mapSize = f.mapSize := by
  have hcount : numSectors g 0 = 0 := by simp [numSectors]
  obtain ⟨hsound, hcached, -, hsize⟩ := hclosed
  unfold ImageFile.truncate
  split_ifs with hzero
  · have hmap := hsize hzero
    refine ⟨⟨hsound.consistent, hsound.current, hzero, hsound.known, ?_, ?_⟩, hmap, rfl⟩
    · simp [hcached, hmap, hcount]
    · simp [hcount]
  · refine ⟨⟨hsound.consistent, hsound.current, rfl, ?_, ?_, ?_⟩, rfl, rfl⟩
    · simp [hcached]
    · simp [hcached, hcount]
    · simp [hcount]

end

/-! ### Reads -/

/-- The entries of calls have places, so that a read looks nothing up. -/
theorem ImageState.Holds.readsBack (hholds : im.Holds g codec content) (mapSize : ℕ) :
    ImageFile.ReadsBack g codec ⟨im.flush g codec, mapSize⟩ content := by
  refine ⟨hholds.size, fun offset size ↦ ?_⟩
  have hread := hholds.read offset size
  obtain ⟨hsound, -, -⟩ := hholds.sound.flush
  have hlocated : ∀ entry ∈ (im.flush g codec).map,
      entry.located (im.flush g codec).store = some entry := fun entry hentry ↦ by
    obtain ⟨e, he, hlba, -, -⟩ := hsound.known entry (List.mem_append_left _ hentry)
    refine if_neg ?_
    rw [← hlba]
    exact (hsound.consistent.sane.located e he).1
  have hmap : (im.flush g codec).map.map
      (fun entry ↦ (entry.located (im.flush g codec).store).getD entry) = (im.flush g codec).map :=
    (List.map_congr_left fun entry hentry ↦ by
      rw [hlocated entry hentry, Option.getD_some, id]).trans (List.map_id _)
  unfold ImageFile.read
  unfold ImageState.read at hread
  split_ifs at hread ⊢ with hbeyond
  · exact hread
  · simp only
    split_ifs with hzero hall
    · rw [hzero] at hread
      exact hread
    · rw [hmap]
      exact hread
    · refine absurd (List.all_eq_true.mpr fun entry hentry ↦ ?_) hall
      rw [hlocated entry (List.mem_of_mem_drop (List.mem_of_mem_take hentry))]
      rfl

/-! ### The new image -/

theorem ImageState.Fresh.closed_file (hfresh : im.Fresh g codec) :
    ImageFile.Closed g codec ⟨im, 0⟩ :=
  ⟨hfresh.holds.sound, hfresh.cached, by rw [hfresh.map]; rfl, fun _ ↦ hfresh.map⟩

/-- The first entry is a zero when new entries went behind old ones that are gone. -/
theorem ImageFile.read_missing (hflush : f.flush g codec = some f') (hmap : f.image.map = [])
    (hmissing : 0 < f.mapSize) (hcached : f.image.cached ≠ []) (hsize : 0 < f.image.fileSize)
    (hindex : ∀ e ∈ (f.image.flush g codec).store.index, e.hash ≠ 0) :
    f'.read g codec 0 1 = none := by
  unfold ImageFile.flush at hflush
  rw [if_neg (List.length_pos_of_ne_nil hcached).ne'] at hflush
  simp only at hflush
  split_ifs at hflush
  obtain rfl := Option.some.inj hflush
  obtain ⟨missing, hlength⟩ := Nat.exists_eq_succ_of_ne_zero hmissing.ne'
  have hnone : zeroEntry.located (f.image.flush g codec).store = none := by
    rw [SectorEntry.located, if_pos (show zeroEntry.lba = 0 from rfl), Option.map_eq_none_iff,
      List.find?_eq_none]
    intro e he
    simpa using hindex e he
  have hsize' : 0 < (f.image.flush g codec).fileSize := hsize
  simp only [ImageFile.read, Nat.not_le.mpr hsize', if_false, Nat.sub_zero,
    Nat.min_eq_left (Nat.succ_le_of_lt hsize'), Nat.one_ne_zero, Nat.zero_add, Nat.sub_self,
    Nat.zero_div, List.drop_zero, hmap, List.nil_append, List.length_nil, hlength,
    List.replicate_succ, List.cons_append, List.take_succ_cons, List.take_zero, List.all_cons, hnone,
    Option.isSome_none, Bool.false_and, Bool.false_eq_true]

end Proofs

/-! ### A second image of one sector -/

/-- An image of one sector, which is written, flushed and closed. -/
def oneSector : ImageFile :=
  (ImageFile.sessions smallGeometry plainCodec true byteHash [⟨[callAt 0 [1]], true⟩]
    ⟨newImage, 0⟩).getD ⟨newImage, 0⟩

theorem oneSector_written :
    ImageFile.sessions smallGeometry plainCodec true byteHash [⟨[callAt 0 [1]], true⟩]
      ⟨newImage, 0⟩ = some oneSector := rfl

end Obmafs3
