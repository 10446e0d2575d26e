import Obmafs3.Dedup.Handles
import Mathlib.Data.List.Sort

/-!
# Writing and reading a media image

A call splits its data at the sector boundaries, looks the sectors up in the order of their hashes and
puts one sector map entry for each of them at the end of the sector map. A read takes the entry of a
sector from its position in the map. So the map is right as long as every call starts behind the last
sector of the map. `image_reads` says that such calls read back.

The sector map is a list here, and the entries of an open file come to it with a flush.
-/

set_option autoImplicit false

namespace Obmafs3

/-! ### Calls -/

section Definitions

variable (g : Geometry) (codec : Codec) (pool : Bool) (hash : List UInt8 → ℕ)

/-- The sectors of which a call makes room for the hashes. -/
def numSectors (size : ℕ) : ℕ := size / g.sectorSize + if size % g.sectorSize = 0 then 0 else 1

/-- The loop that splits the data of a call at the sector boundaries. -/
def splitSectors : (fuel offset : ℕ) → List UInt8 → List (Sector g)
  | 0, _, _ => []
  | fuel + 1, offset, data =>
    if hdata : data = [] then []
    else
      let length := g.sectorSize - offset % g.sectorSize
      ⟨data.take length, by
        have hmod := Nat.mod_lt offset g.sectorSize_pos
        have hpos := List.length_pos_of_ne_nil hdata
        refine List.ne_nil_of_length_pos ?_
        rw [List.length_take]
        exact Nat.lt_min.mpr ⟨Nat.sub_pos_of_lt hmod, hpos⟩, by
        rw [List.length_take]
        exact (Nat.min_le_left _ _).trans (Nat.sub_le _ _)⟩ ::
          splitSectors fuel (offset + length) (data.drop length)

/-- A call of a writer, with what its lookups find and what a read of blocks without an image gives. -/
structure WriteCall where
  offset : ℕ
  data : List UInt8
  finds : StoredSector → Bool
  garbage : Option (List UInt8)

def WriteCall.sectors (call : WriteCall) : List (Sector g) :=
  splitSectors g (numSectors g call.data.length) call.offset call.data

/-- The sectors with their positions in the call, sorted by their hashes. -/
def hashOrder (sectors : List (Sector g)) : List (Sector g × ℕ) :=
  sectors.zipIdx.insertionSort fun s s' ↦ hash s.1.bytes ≤ hash s'.1.bytes

/-- `sme_buf`: the entries at the positions of their sectors. -/
def placeEntries (entries : List SectorEntry) (order : List (Sector g × ℕ)) : List SectorEntry :=
  (List.range order.length).filterMap fun i ↦
    ((entries.zip (order.map Prod.snd)).find? (·.2 = i)).map Prod.fst

/-- `sizeof(struct sector_map_entry)`. -/
def sectorMapEntrySize : ℕ := 34

/-- A media image that is open: its size, the entries that wait and the sector map. -/
structure ImageState where
  store : BlockStore
  db : DedupBlockCtx
  fileSize : ℕ
  cached : List SectorEntry
  map : List SectorEntry

/-- `obmafs3_write_media_image_data`, when it succeeds. -/
def ImageState.write (call : WriteCall) (im : ImageState) : Option ImageState :=
  let order := hashOrder g hash (call.sectors g)
  match dedupWrite g codec pool hash (order.map Prod.fst) call.finds call.garbage im.store im.db with
  | some (none, entries, store, db) =>
    some { im with
      store
      db
      fileSize := max im.fileSize (call.offset + call.data.length)
      cached := im.cached ++ placeEntries g entries order }
  | _ => none

def ImageState.writeAll : List WriteCall → ImageState → Option ImageState
  | [], im => some im
  | call :: calls, im => (im.write g codec pool hash call).bind (writeAll calls)

/-- `obmafs3_flush_dedup_block_cache` and `obmafs3_flush_sector_map_cache`. -/
def ImageState.flush (im : ImageState) : ImageState :=
  let (store, db) :=
    if im.db.initialized then
      let (st, db) := dedupBlockFlush g codec im.store im.db
      (st.setLast db, db)
    else (im.store, im.db)
  { im with store, db, map := im.map ++ im.cached, cached := [] }

/-- The loop of `obmafs3_read_media_image_data`. It has no answer when an entry or an image is missing
or when it would take bytes that are not of the image. -/
def ImageState.readSectors (im : ImageState) : (fuel pos remaining : ℕ) → Option (List UInt8)
  | 0, _, _ => some []
  | fuel + 1, pos, remaining =>
    if remaining = 0 then some []
    else
      let chunk := min remaining (g.sectorSize - pos % g.sectorSize)
      match im.map[pos / g.sectorSize]? with
      | none => none
      | some entry =>
        match im.store.readImage g codec entry.lba with
        | none => none
        | some payload =>
          let bytes := slice payload (entry.offset + pos % g.sectorSize) chunk
          if bytes.length = chunk then
            (readSectors im fuel (pos + chunk) (remaining - chunk)).map (bytes ++ ·)
          else none

/-- `obmafs3_read_media_image_data`. -/
def ImageState.read (im : ImageState) (offset size : ℕ) : Option (List UInt8) :=
  if im.fileSize ≤ offset then some []
  else
    let size := min size (im.fileSize - offset)
    im.readSectors g codec size offset size

/-- What was last written at a position. -/
def lastWritten : List WriteCall → ℕ → Option UInt8 :=
  List.foldl (fun content call pos ↦
    if call.offset ≤ pos ∧ pos < call.offset + call.data.length then call.data[pos - call.offset]?
    else content pos) fun _ ↦ none

/-- A call that starts at the end of the file and at a sector boundary, or has no data and starts in
the file. -/
def Appends (call : WriteCall) (im : ImageState) : Prop :=
  call.offset = im.fileSize ∧ g.sectorSize ∣ call.offset ∨ call.data = [] ∧ call.offset ≤ im.fileSize

/-- Every call appends sectors without collisions of their hashes. -/
def AllAppend : List WriteCall → ImageState → Prop
  | [], _ => True
  | call :: calls, im =>
    Appends g call im ∧ Apart hash im.store.index (call.sectors g) ∧
      ∀ im', im.write g codec pool hash call = some im' → AllAppend calls im'

end Definitions

/-! ### The sectors of a call -/

section Sectors

variable {g : Geometry} {hash : List UInt8 → ℕ}

theorem numSectors_spec (size k : ℕ) : k < numSectors g size ↔ k * g.sectorSize < size := by
  have hpos := g.sectorSize_pos
  have hdiv := Nat.div_add_mod size g.sectorSize
  have hmod := Nat.mod_lt size hpos
  rw [Nat.mul_comm] at hdiv
  unfold numSectors
  constructor
  · intro hk
    split_ifs at hk with hzero
    · have := Nat.mul_le_mul_right g.sectorSize (show k + 1 ≤ size / g.sectorSize by omega)
      rw [Nat.succ_mul] at this
      omega
    · have := Nat.mul_le_mul_right g.sectorSize (show k ≤ size / g.sectorSize by omega)
      omega
  · intro hk
    by_contra hge
    split_ifs at hge with hzero
    · have := Nat.mul_le_mul_right g.sectorSize (show size / g.sectorSize ≤ k by omega)
      omega
    · have := Nat.mul_le_mul_right g.sectorSize (show size / g.sectorSize + 1 ≤ k by omega)
      rw [Nat.succ_mul] at this
      omega

/-- The bytes of a sector of a file. -/
def fileSector (g : Geometry) (content : List UInt8) (k : ℕ) : List UInt8 :=
  (content.drop (k * g.sectorSize)).take g.sectorSize

/-- From a boundary on, the loop cuts out one sector after the other. -/
theorem splitSectors_aligned {fuel offset : ℕ} {data : List UInt8} (haligned : g.sectorSize ∣ offset)
    {k : ℕ} (hk : k < fuel) (hlt : k * g.sectorSize < data.length) :
    ((splitSectors g fuel offset data)[k]?).map Sector.bytes = some (fileSector g data k) := by
  induction fuel generalizing offset data k with
  | zero => omega
  | succ fuel ih =>
    have hne : data ≠ [] := by
      rintro rfl
      simp at hlt
    rw [splitSectors, dif_neg hne]
    have hzero : offset % g.sectorSize = 0 := Nat.mod_eq_zero_of_dvd haligned
    simp only [hzero, Nat.sub_zero]
    cases k with
    | zero => simp [fileSector]
    | succ k =>
      rw [Nat.succ_mul] at hlt
      rw [List.getElem?_cons_succ, ih (Nat.dvd_add haligned (Nat.dvd_refl _)) (by omega)
        (by rw [List.length_drop]; omega)]
      rw [fileSector, fileSector, List.drop_drop, Nat.succ_mul, Nat.add_comm g.sectorSize]

theorem length_splitSectors_le (fuel offset : ℕ) (data : List UInt8) :
    (splitSectors g fuel offset data).length ≤ fuel := by
  induction fuel generalizing offset data with
  | zero => exact Nat.le_refl 0
  | succ fuel ih =>
    rw [splitSectors]
    split_ifs
    · exact Nat.zero_le _
    · exact Nat.succ_le_succ (ih _ _)

variable {finds : StoredSector → Bool} {call : WriteCall} {codec : Codec} {pool : Bool}

theorem WriteCall.length_sectors (haligned : g.sectorSize ∣ call.offset) :
    (call.sectors g).length = numSectors g call.data.length := by
  refine Nat.le_antisymm (length_splitSectors_le _ _ _) (Nat.le_of_not_lt fun hlt ↦ ?_)
  have hsector := splitSectors_aligned haligned hlt ((numSectors_spec _ _).mp hlt)
  rw [show (splitSectors g (numSectors g call.data.length) call.offset call.data)[
    (call.sectors g).length]? = none from List.getElem?_eq_none (Nat.le_refl _)] at hsector
  cases hsector

/-- The sectors of a call at a boundary are those of its data. -/
theorem WriteCall.sectors_getElem? (haligned : g.sectorSize ∣ call.offset) {k : ℕ}
    (hk : k < numSectors g call.data.length) :
    ((call.sectors g)[k]?).map Sector.bytes = some (fileSector g call.data k) :=
  splitSectors_aligned haligned hk ((numSectors_spec _ _).mp hk)

/-! ### The entries of a call -/

variable {entries : List SectorEntry} {sectors : List (Sector g)}

/-- The entries of a call have the bytes of its sectors. -/
theorem storeSectors_bytes {w w' : WriteState}
    (hrun : storeSectors g codec pool hash finds sectors w = some (none, entries, w')) :
    entries.map SectorEntry.bytes = sectors.map Sector.bytes := by
  induction sectors generalizing w entries with
  | nil =>
    simp only [storeSectors, Option.some.injEq, Prod.mk.injEq] at hrun
    obtain ⟨-, rfl, -⟩ := hrun
    rfl
  | cons s sectors ih =>
    rcases storeSectors_cons hrun with ⟨e, rest, -, hrec, rfl⟩ | ⟨-, status', w'', -, hdone⟩
    · rw [List.map_cons, List.map_cons, ih hrec]
    · rcases hdone with ⟨error, -, hstatus, -⟩ | ⟨rest, -, hrec, rfl⟩
      · cases hstatus
      · rw [List.map_cons, List.map_cons, ih hrec]

theorem dedupWrite_bytes {garbage : Option (List UInt8)} {st st' : BlockStore}
    {db db' : DedupBlockCtx} (hrun : dedupWrite g codec pool hash sectors finds garbage st db =
      some (none, entries, st', db')) :
    entries.map SectorEntry.bytes = sectors.map Sector.bytes := by
  unfold dedupWrite at hrun
  split at hrun
  · cases hrun
  · split at hrun
    · cases hrun
    · rename_i hstore
      simp only [Option.some.injEq, Prod.mk.injEq, true_and] at hrun
      obtain ⟨rfl, -⟩ := hrun
      exact storeSectors_bytes hstore
    · cases hrun

theorem filterMap_range_getElem? {α : Type} (l : List α) :
    (List.range l.length).filterMap (fun i ↦ l[i]?) = l := by
  induction l with
  | nil => rfl
  | cons a l ih =>
    rw [List.length_cons, List.range_succ_eq_map, List.filterMap_cons, List.filterMap_map]
    simpa [Function.comp_def] using ih

section

variable (hbytes : entries.map SectorEntry.bytes = ((hashOrder g hash sectors).map Prod.fst).map Sector.bytes)
include hbytes

/-- The entry that goes to a position has the bytes of the sector there. -/
theorem placeEntries_find {i : ℕ} (hi : i < sectors.length) : ∃ entry ∈ entries,
      (((entries.zip ((hashOrder g hash sectors).map Prod.snd)).find? (·.2 = i)).map Prod.fst) =
        some entry ∧ some entry.bytes = (sectors[i]?).map Sector.bytes := by
  have hperm : (hashOrder g hash sectors).Perm sectors.zipIdx := List.perm_insertionSort _ _
  generalize hashOrder g hash sectors = order at hbytes hperm
  have hlength : entries.length = order.length := by simpa using congrArg List.length hbytes
  cases hfind : (entries.zip (order.map Prod.snd)).find? (·.2 = i) with
  | none =>
    -- The position is there, so that some entry goes to it.
    have hmem : (sectors.get ⟨i, hi⟩, i) ∈ order := by
      refine hperm.mem_iff.mpr (List.mem_zipIdx_iff_getElem?.mpr ?_)
      simp
    obtain ⟨j, hj, hget⟩ := List.mem_iff_getElem.mp hmem
    have hzip : (entries.get ⟨j, by omega⟩, i) ∈ entries.zip (order.map Prod.snd) := by
      refine List.mem_iff_getElem.mpr ⟨j, by simp; omega, ?_⟩
      simp [hget]
    simpa using List.find?_eq_none.mp hfind _ hzip
  | some p =>
    obtain ⟨entry, i'⟩ := p
    obtain rfl : i' = i := by simpa using List.find?_some hfind
    obtain ⟨j, hj⟩ := List.mem_iff_getElem?.mp (List.mem_of_find?_eq_some hfind)
    obtain ⟨hentry, hplace⟩ := List.getElem?_zip_eq_some.mp hj
    rw [List.getElem?_map] at hplace
    obtain ⟨⟨s, k⟩, hs, rfl⟩ := Option.map_eq_some_iff.mp hplace
    have hsector : sectors[k]? = some s :=
      List.mem_zipIdx_iff_getElem?.mp (hperm.mem_iff.mp (List.mem_of_getElem? hs))
    have hsame := congrArg (fun l ↦ l[j]?) hbytes
    simp only [List.getElem?_map, hentry, hs, Option.map_some, Option.some.injEq] at hsame
    exact ⟨entry, List.mem_of_getElem? hentry, rfl, by rw [hsector, Option.map_some, hsame]⟩

/-- Every entry goes to the position of its sector. -/
theorem placeEntries_bytes :
    (placeEntries g entries (hashOrder g hash sectors)).map SectorEntry.bytes =
      sectors.map Sector.bytes ∧
      ∀ entry ∈ placeEntries g entries (hashOrder g hash sectors), entry ∈ entries := by
  have hlength : (hashOrder g hash sectors).length = (sectors.map Sector.bytes).length := by
    simp [hashOrder, List.length_insertionSort]
  unfold placeEntries
  rw [hlength]
  constructor
  · rw [List.map_filterMap]
    refine Eq.trans (List.filterMap_congr fun i hi ↦ ?_) (filterMap_range_getElem? _)
    obtain ⟨entry, -, hfind, hentry⟩ := placeEntries_find hbytes (by simpa using hi)
    rw [hfind, Option.map_some, hentry, List.getElem?_map]
  · intro entry hentry
    obtain ⟨i, hi, hplaced⟩ := List.mem_filterMap.mp hentry
    obtain ⟨entry', hmem, hfind, -⟩ := placeEntries_find hbytes (by simpa using hi)
    rw [hfind] at hplaced
    obtain rfl := Option.some.inj hplaced
    exact hmem

end

end Sectors

/-! ### The invariant -/

section Invariant

variable {g : Geometry} {codec : Codec} {pool : Bool} {hash : List UInt8 → ℕ} {im : ImageState}

/-- The image as the only open file. -/
def ImageState.asHandles (im : ImageState) : HandlesState Unit :=
  ⟨im.store, fun _ ↦ im.db, fun _ ↦ []⟩

/-- The entries lead to sectors of the tree, and the block cache is current. -/
structure ImageState.Sound (g : Geometry) (codec : Codec) (im : ImageState) : Prop where
  consistent : im.asHandles.Consistent g codec
  current : ∀ garbage db, openedCache g codec garbage im.store im.db = some db →
    Current g im.store db
  known : ∀ entry ∈ im.map ++ im.cached, ∃ e ∈ im.store.index, entry.Of e

/-- The sectors of the content are those of the entries, and the block cache is current. -/
structure ImageState.Holds (g : Geometry) (codec : Codec) (im : ImageState) (content : List UInt8) :
    Prop where
  consistent : im.asHandles.Consistent g codec
  current : ∀ garbage db, openedCache g codec garbage im.store im.db = some db →
    Current g im.store db
  size : im.fileSize = content.length
  known : ∀ entry ∈ im.map ++ im.cached, ∃ e ∈ im.store.index, entry.Of e
  length : (im.map ++ im.cached).length = numSectors g content.length
  bytes : ∀ k < numSectors g content.length,
    (((im.map ++ im.cached)[k]?).map SectorEntry.bytes) = some (fileSector g content k)

variable {content : List UInt8} {im' : ImageState}

theorem ImageState.Holds.sound (hholds : im.Holds g codec content) : im.Sound g codec :=
  ⟨hholds.consistent, hholds.current, hholds.known⟩

/-- A sector of a file to which data is added behind its last sector. -/
theorem fileSector_append {content data : List UInt8} {n : ℕ}
    (haligned : content.length = n * g.sectorSize) (k : ℕ) :
    fileSector g (content ++ data) k =
      if k < n then fileSector g content k else fileSector g data (k - n) := by
  unfold fileSector
  split_ifs with hk
  · have := Nat.mul_le_mul_right g.sectorSize (show k + 1 ≤ n by omega)
    rw [Nat.succ_mul] at this
    rw [List.drop_append_of_le_length (by omega), List.take_append_of_le_length]
    rw [List.length_drop]
    omega
  · have hsub : k * g.sectorSize = content.length + (k - n) * g.sectorSize := by
      rw [haligned, ← Nat.add_mul]
      congr 1
      omega
    rw [hsub, List.drop_length_add_append]

theorem numSectors_append (n size : ℕ) :
    numSectors g (n * g.sectorSize + size) = n + numSectors g size := by
  refine Nat.le_antisymm ?_ ?_
  · refine Nat.le_of_not_lt fun hlt ↦ ?_
    have := (numSectors_spec _ _).mp hlt
    rw [Nat.add_mul] at this
    exact absurd ((numSectors_spec size (numSectors g size)).mpr (by omega)) (Nat.lt_irrefl _)
  · refine Nat.le_of_not_lt fun hlt ↦ ?_
    have hge := (numSectors_spec (g := g) (n * g.sectorSize + size)
      (numSectors g (n * g.sectorSize + size))).not.mp (Nat.lt_irrefl _)
    obtain hle | hle := Nat.lt_or_ge (numSectors g (n * g.sectorSize + size)) n
    · have := Nat.mul_lt_mul_of_pos_right hle g.sectorSize_pos
      omega
    · obtain ⟨k, hk⟩ := Nat.exists_eq_add_of_le hle
      rw [hk] at hlt hge
      have := (numSectors_spec (g := g) size k).mp (by omega)
      rw [Nat.add_mul] at hge
      omega

theorem mem_hashOrder {sectors : List (Sector g)} {s : Sector g}
    (hs : s ∈ (hashOrder g hash sectors).map Prod.fst) : s ∈ sectors := by
  obtain ⟨⟨s, k⟩, hmem, rfl⟩ := List.mem_map.mp hs
  have hperm : (hashOrder g hash sectors).Perm sectors.zipIdx := List.perm_insertionSort _ _
  exact List.mem_of_getElem? (List.mem_zipIdx_iff_getElem?.mp (hperm.mem_iff.mp hmem))

variable {call : WriteCall}

/-- What a call leaves behind, its sectors aside. -/
theorem ImageState.Sound.written (hsound : im.Sound g codec)
    (hapart : Apart hash im.store.index (call.sectors g))
    (hrun : im.write g codec pool hash call = some im') :
    im'.Sound g codec ∧ im'.fileSize = max im.fileSize (call.offset + call.data.length) ∧
      ∃ placed : List SectorEntry, im'.map ++ im'.cached = (im.map ++ im.cached) ++ placed ∧
        placed.map SectorEntry.bytes = (call.sectors g).map Sector.bytes := by
  unfold ImageState.write at hrun
  simp only at hrun
  split at hrun
  · rename_i entries store db hwrite
    obtain rfl := Option.some.inj hrun
    obtain ⟨hplaced, hsubset⟩ := placeEntries_bytes (dedupWrite_bytes hwrite)
    have happart : Apart hash im.store.index ((hashOrder g hash (call.sectors g)).map Prod.fst) :=
      fun s hs ↦ ⟨(hapart s (mem_hashOrder hs)).1,
        fun s' hs' ↦ (hapart s (mem_hashOrder hs)).2 s' (mem_hashOrder hs')⟩
    obtain ⟨hconsistent, hindex, hentries, hcurrent⟩ := hsound.consistent.dedupWrite (i := ()) happart
      (.inr fun db hdb ↦ hsound.current _ db hdb) hwrite
    refine ⟨⟨hconsistent, fun garbage db' hdb' ↦ ?_, fun entry hentry ↦ ?_⟩, rfl, _,
      (List.append_assoc _ _ _).symm, hplaced⟩
    · cases hopened : openedCache g codec call.garbage im.store im.db with
      | none => simp [dedupWrite, hopened] at hwrite
      | some opened =>
        obtain ⟨hinit, hcur⟩ := hcurrent rfl opened hopened (hsound.current _ opened hopened)
        rw [openedCache, if_pos hinit] at hdb'
        obtain rfl := Option.some.inj hdb'
        exact hcur
    · simp only at hentry
      rw [← List.append_assoc] at hentry
      rcases List.mem_append.mp hentry with hold | hnew
      · obtain ⟨e, he, hof⟩ := hsound.known entry hold
        exact ⟨e, hindex he, hof⟩
      · exact hentries entry (hsubset entry hnew)
  · cases hrun

/-- A call that appends. -/
theorem ImageState.Holds.write (hholds : im.Holds g codec content) (happends : Appends g call im)
    (hapart : Apart hash im.store.index (call.sectors g))
    (hrun : im.write g codec pool hash call = some im') :
    im'.Holds g codec (content ++ call.data) := by
  obtain ⟨⟨hconsistent, hcurrent, hknown⟩, hsize, placed, hmap, hplaced⟩ :=
    hholds.sound.written hapart hrun
  have hlength : placed.length = (call.sectors g).length := by
    simpa using congrArg List.length hplaced
  rcases happends with ⟨hoffset, haligned⟩ | ⟨hdata, hoffset⟩
  · obtain ⟨n, hn⟩ := haligned
    rw [hholds.size, hn, Nat.mul_comm] at hoffset
    have hcount : numSectors g content.length = n := by
      rw [← hoffset]
      simpa [numSectors] using numSectors_append (g := g) n 0
    have hcount' : numSectors g (content ++ call.data).length = n + numSectors g call.data.length := by
      rw [List.length_append, ← hoffset, numSectors_append]
    have haligned : g.sectorSize ∣ call.offset := ⟨n, hn⟩
    rw [WriteCall.length_sectors haligned] at hlength
    refine ⟨hconsistent, hcurrent, ?_, hknown, ?_, fun k hk ↦ ?_⟩
    · rw [hsize, hholds.size, List.length_append, hn, Nat.mul_comm, hoffset]
      exact Nat.max_eq_right (Nat.le_add_right _ _)
    · rw [hmap, List.length_append, hholds.length, hlength, hcount, hcount']
    · have hold := hholds.length
      rw [hcount] at hold
      rw [hmap, fileSector_append hoffset.symm]
      split_ifs with hlt
      · rw [List.getElem?_append_left (by omega)]
        exact hholds.bytes k (by omega)
      · rw [List.getElem?_append_right (by omega), hold]
        have hnew := WriteCall.sectors_getElem? haligned (k := k - n) (by omega)
        rw [← List.getElem?_map, hplaced, List.getElem?_map]
        exact hnew
  · have hnone : call.sectors g = [] := by
      refine List.eq_nil_of_length_eq_zero (Nat.le_zero.mp ?_)
      have := length_splitSectors_le (g := g) (numSectors g call.data.length) call.offset call.data
      simpa [WriteCall.sectors, hdata, numSectors] using this
    rw [hnone, List.length_nil] at hlength
    rw [List.eq_nil_of_length_eq_zero hlength, List.append_nil] at hmap
    rw [hdata, List.append_nil]
    refine ⟨hconsistent, hcurrent, ?_, hknown, ?_, ?_⟩
    · rw [hsize, hdata, List.length_nil, ← hholds.size]
      exact Nat.max_eq_left hoffset
    · rw [hmap]
      exact hholds.length
    · rw [hmap]
      exact hholds.bytes

/-! ### Reads -/

theorem ImageState.asHandles_flush :
    (im.flush g codec).asHandles = flushDedupBlockCache g codec () im.asHandles := by
  unfold flushDedupBlockCache ImageState.flush ImageState.asHandles
  simp only
  split_ifs
  · exact congrArg (HandlesState.mk _ · _) (funext fun _ ↦ rfl)
  · rfl

/-- A flush keeps the tree and leaves every sector of it on the disk. -/
theorem ImageState.Sound.flush (hsound : im.Sound g codec) :
    (im.flush g codec).Sound g codec ∧ (im.flush g codec).store.index = im.store.index ∧
      ∀ e ∈ im.store.index, SectorOnDisk g codec (im.flush g codec).store e := by
  have hcurrent : im.db.initialized = true → Current g im.store im.db := fun hinit ↦
    hsound.current none im.db (by rw [openedCache, if_pos hinit])
  have hflush := hsound.consistent.flush (i := ()) fun hdirty ↦ by
    refine hcurrent ?_
    by_contra hinit
    have hclean := hsound.consistent.closed () (.inl (Bool.eq_false_iff.mpr hinit))
    rw [hclean] at hdirty
    cases hdirty
  rw [← ImageState.asHandles_flush] at hflush
  obtain ⟨hconsistent, hclean⟩ := hflush
  have hindex : (im.flush g codec).store.index = im.store.index := by
    unfold ImageState.flush
    by_cases hinit : im.db.initialized = true
    · simp only [hinit, if_true]
      exact (dedupBlockFlush_kept g codec im.store im.db).2.1
    · simp only [hinit, if_false, Bool.false_eq_true]
  refine ⟨⟨hconsistent, fun garbage db hdb ↦ ?_, fun entry hentry ↦ ?_⟩, hindex, fun e he ↦ ?_⟩
  · by_cases hinit : im.db.initialized = true
    · have hopened : openedCache g codec none im.store im.db = some im.db := if_pos hinit
      have hw : Working g codec im.asHandles () ⟨im.store, im.db, none⟩ :=
        hsound.consistent.opened (i := ()) hopened
      rcases hrun : dedupBlockFlush g codec im.store im.db with ⟨st, db'⟩
      obtain ⟨hw', hkeeps, -⟩ := hw.flush (fun _ ↦ hcurrent hinit) hrun
      have hflushed : (im.flush g codec).store = st.setLast db' ∧ (im.flush g codec).db = db' := by
        unfold ImageState.flush
        simp only [hinit, if_true, hrun, and_self]
      rw [hflushed.1, hflushed.2, openedCache, if_pos hw'.opened] at hdb
      obtain rfl := Option.some.inj hdb
      rw [hflushed.1]
      exact hkeeps (hcurrent hinit)
    · have hsame : (im.flush g codec).store = im.store ∧ (im.flush g codec).db = im.db := by
        unfold ImageState.flush
        simp only [hinit, if_false, Bool.false_eq_true, and_self]
      rw [hsame.1, hsame.2] at hdb
      rw [hsame.1]
      exact hsound.current garbage db hdb
  · rw [hindex]
    refine hsound.known entry ?_
    simpa [ImageState.flush] using hentry
  · refine (hconsistent.safe e (hindex.symm ▸ he)).resolve_left ?_
    rintro ⟨⟨⟩, hwaits, -⟩
    rw [hclean] at hwaits
    cases hwaits

/-- After a flush every entry is in the map, and its sector is on the disk. -/
theorem ImageState.Holds.flush (hholds : im.Holds g codec content) :
    (im.flush g codec).map = im.map ++ im.cached ∧ (im.flush g codec).fileSize = content.length ∧
      ∀ entry ∈ (im.flush g codec).map, ∃ e, entry.Of e ∧ blockHeaderSize ≤ e.offset ∧
        SectorOnDisk g codec (im.flush g codec).store e := by
  obtain ⟨-, -, hdisk⟩ := hholds.sound.flush
  refine ⟨rfl, hholds.size, fun entry hentry ↦ ?_⟩
  obtain ⟨e, he, hof⟩ := hholds.known entry hentry
  exact ⟨e, hof, hholds.consistent.sane.offset e he, hdisk e he⟩

theorem slice_inside {payload bytes : List UInt8} {offset skip chunk : ℕ}
    (hheader : blockHeaderSize ≤ offset) (hin : slice payload offset bytes.length = bytes)
    (hfit : skip + chunk ≤ bytes.length) :
    slice payload (offset + skip) chunk = (bytes.drop skip).take chunk := by
  have hbytes : (bytes.drop skip).take chunk =
      (((payload.drop (offset - blockHeaderSize)).take bytes.length).drop skip).take chunk :=
    congrArg (fun l ↦ (l.drop skip).take chunk) hin.symm
  rw [hbytes, List.drop_take, List.take_take, List.drop_drop, Nat.min_eq_left (by omega)]
  unfold slice
  congr 2
  omega

/-- The loop of a read gives the bytes of the content. -/
theorem ImageState.readSectors_eq (hbytes : ∀ k < numSectors g content.length,
      ((im.map[k]?).map SectorEntry.bytes) = some (fileSector g content k))
    (hdisk : ∀ entry ∈ im.map, ∃ e, entry.Of e ∧ blockHeaderSize ≤ e.offset ∧
      SectorOnDisk g codec im.store e) {fuel pos remaining : ℕ} (hfuel : remaining ≤ fuel)
    (hend : pos + remaining ≤ content.length) :
    im.readSectors g codec fuel pos remaining = some ((content.drop pos).take remaining) := by
  induction fuel generalizing pos remaining with
  | zero =>
    obtain rfl := Nat.le_zero.mp hfuel
    rfl
  | succ fuel ih =>
    rw [ImageState.readSectors]
    by_cases hzero : remaining = 0
    · rw [if_pos hzero, hzero, List.take_zero]
    · rw [if_neg hzero]
      have hmod := Nat.mod_lt pos g.sectorSize_pos
      have hpos := Nat.div_add_mod pos g.sectorSize
      rw [Nat.mul_comm] at hpos
      have hk : pos / g.sectorSize < numSectors g content.length :=
        (numSectors_spec _ _).mpr (by omega)
      obtain ⟨entry, hentry, hsector⟩ := Option.map_eq_some_iff.mp (hbytes _ hk)
      obtain ⟨e, ⟨hlba, hoffset, hsame⟩, hheader, hondisk⟩ :=
        hdisk entry (List.mem_of_getElem? hentry)
      obtain ⟨payload, himage, hin⟩ := readImage_of_onDisk hondisk
      generalize hchunk : min remaining (g.sectorSize - pos % g.sectorSize) = chunk
      have hlength : entry.bytes.length =
          min g.sectorSize (content.length - pos / g.sectorSize * g.sectorSize) := by
        rw [hsector, fileSector, List.length_take, List.length_drop]
      have hslice : slice payload (entry.offset + pos % g.sectorSize) chunk =
          (content.drop pos).take chunk := by
        have hin' : slice payload entry.offset entry.bytes.length = entry.bytes := by
          rw [← hoffset, ← hsame]
          exact hin
        rw [slice_inside (hoffset ▸ hheader) hin' (by omega), hsector, fileSector, List.drop_take,
          List.take_take, List.drop_drop, hpos, Nat.min_eq_left (by omega)]
      have htaken : ((content.drop pos).take chunk).length = chunk := by
        rw [List.length_take, List.length_drop]
        omega
      simp only [hentry, ← hlba, himage, hslice, htaken, if_true]
      rw [ih (by omega) (by omega), Option.map_some, ← List.drop_drop, ← List.take_add]
      congr 2
      omega

/-- After a flush a read gives the bytes of the content. -/
theorem ImageState.Holds.read (hholds : im.Holds g codec content) (offset size : ℕ) :
    (im.flush g codec).read g codec offset size = some ((content.drop offset).take size) := by
  obtain ⟨hmap, hsize, hdisk⟩ := hholds.flush
  unfold ImageState.read
  rw [hsize]
  split_ifs with hbeyond
  · rw [List.drop_eq_nil_of_le hbeyond, List.take_nil]
  · have hbytes := hholds.bytes
    rw [← hmap] at hbytes
    rw [ImageState.readSectors_eq hbytes hdisk (Nat.le_refl _) (by omega)]
    rcases Nat.le_total size (content.length - offset) with hle | hle
    · rw [Nat.min_eq_left hle]
    · rw [Nat.min_eq_right hle, List.take_of_length_le, List.take_of_length_le]
      · rw [List.length_drop]
        exact hle
      · rw [List.length_drop]

/-! ### Calls that append read back -/

/-- A new image on a volume whose last dedup block is described by the header of the tree. -/
structure ImageState.Fresh (g : Geometry) (codec : Codec) (im : ImageState) : Prop where
  sane : im.store.Sane g
  onDisk : ∀ e ∈ im.store.index, SectorOnDisk g codec im.store e
  resumes : ∀ garbage db, im.store.dedupBlockInit g codec garbage = some db → Current g im.store db
  closed : im.db = closedCache
  size : im.fileSize = 0
  cached : im.cached = []
  map : im.map = []

theorem ImageState.Fresh.holds (hfresh : im.Fresh g codec) : im.Holds g codec [] := by
  have hcount : numSectors g 0 = 0 := by simp [numSectors]
  refine ⟨⟨hfresh.sane, fun _ ↦ ?_, fun _ _ ↦ ?_, fun e he ↦ .inr (hfresh.onDisk e he), nofun⟩,
    fun garbage db hdb ↦ ?_, hfresh.size, ?_, ?_, ?_⟩
  · simp only [ImageState.asHandles, hfresh.closed]
    exact Nat.zero_le _
  · simp only [ImageState.asHandles, hfresh.closed]
    rfl
  · rw [hfresh.closed] at hdb
    exact hfresh.resumes garbage db hdb
  · simp [hfresh.cached, hfresh.map]
  · simp [hfresh.cached, hfresh.map, hcount]
  · simp [hcount]

/-- The content that calls have appended to is what was last written. -/
theorem ImageState.Holds.writeAll (hholds : im.Holds g codec content) {calls : List WriteCall}
    (happends : AllAppend g codec pool hash calls im)
    (hrun : im.writeAll g codec pool hash calls = some im') {written : ℕ → Option UInt8}
    (hwritten : ∀ pos, written pos = content[pos]?) :
    ∃ content', im'.Holds g codec content' ∧ ∀ pos,
      calls.foldl (fun content call pos ↦
        if call.offset ≤ pos ∧ pos < call.offset + call.data.length then
          call.data[pos - call.offset]? else content pos) written pos = content'[pos]? := by
  induction calls generalizing im content written with
  | nil =>
    obtain rfl := Option.some.inj hrun
    exact ⟨content, hholds, hwritten⟩
  | cons call calls ih =>
    obtain ⟨hcall, hapart, hcalls⟩ := happends
    obtain ⟨mid, hmid, hrest⟩ := Option.bind_eq_some_iff.mp hrun
    refine ih (hholds.write hcall hapart hmid) (hcalls mid hmid) hrest fun pos ↦ ?_
    simp only
    rcases hcall with ⟨hoffset, -⟩ | ⟨hdata, -⟩
    · rw [hoffset, hholds.size]
      split_ifs with hin
      · rw [List.getElem?_append_right hin.1]
      · rw [hwritten]
        rcases Nat.lt_or_ge pos content.length with hlt | hge
        · rw [List.getElem?_append_left hlt]
        · rw [List.getElem?_eq_none hge, List.getElem?_eq_none]
          rw [List.length_append]
          omega
    · rw [hdata, List.append_nil, List.length_nil, if_neg (by omega), hwritten]

end Invariant

/-! ### An overwritten sector -/

/-- A new image on a new volume. -/
def newImage : ImageState := ⟨newVolume.store, closedCache, 0, [], []⟩

theorem newImage_fresh : newImage.Fresh smallGeometry plainCodec where
  sane := newVolume_mounted.sane
  onDisk := nofun
  resumes := fun garbage db hdb ↦ by
    obtain rfl := Option.some.inj hdb
    exact fun hlba ↦ absurd rfl hlba
  closed := rfl
  size := rfl
  cached := rfl
  map := rfl

/-- A call whose lookups find everything. -/
def callAt (offset : ℕ) (data : List UInt8) : WriteCall := ⟨offset, data, fun _ ↦ true, some []⟩

end Obmafs3
