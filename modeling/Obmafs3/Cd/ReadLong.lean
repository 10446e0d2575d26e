import Obmafs3.Cd.Image

/-!
# Two ways to read a CD sector

`obmafs3_read_cd_image_data` searches the sector map for the LBA. The request `CD_READ_LONG` takes the
map for an array with an entry for every LBA, and leaves the data of the sector to the reader of plain
media images, which takes the same bytes for an array of shorter entries. `cd_read_long_eq` says that
the two agree where the array is right: every LBA up to the one that is read was requested, and what
the reader of media images takes for the entry leads to the data of the sector.
-/

set_option autoImplicit false

namespace Obmafs3

open Library.Search Library.SearchTree

/-! ### The bytes of the map -/

/-- The bytes of an unsigned integer in memory. -/
def littleEndian (width value : ℕ) : List UInt8 :=
  (List.range width).map fun k ↦ UInt8.ofNat (value / 256 ^ k % 256)

def ofLittleEndian (bytes : List UInt8) : ℕ :=
  bytes.foldr (fun byte value ↦ byte.toNat + 256 * value) 0

/-- The values of `enum obmafs3_cd_sector_mode`. -/
def CdSectorMode.toNat : CdSectorMode → ℕ
  | .audio => 0
  | .mode1 => 1
  | .mode2 => 2
  | .mode2Form1 => 3
  | .mode2Form2 => 4

/-- `struct cd_sector_map_entry` on the disk. -/
def CdSectorMapEntry.bytes (entry : CdSectorMapEntry) : List UInt8 :=
  littleEndian 8 entry.sector ++ littleEndian 2 entry.sectorMode.dataSize ++
    littleEndian 8 entry.hash ++ littleEndian 1 entry.generatedPrefix.toNat ++
    littleEndian 8 entry.prefixHash ++ littleEndian 1 entry.generatedSuffix.toNat ++
    littleEndian 8 entry.suffixHash ++ littleEndian 8 entry.subchannelHash ++ entry.subheader ++
    littleEndian 1 entry.sectorMode.toNat ++ littleEndian 8 entry.dedupSectorLba ++
    littleEndian 8 entry.dedupSectorOffset ++ littleEndian 8 entry.dedupSubchannelLba ++
    littleEndian 8 entry.dedupSubchannelOffset

/-- What the reader of media images looks at in a `struct sector_map_entry`. -/
structure MediaMapEntry where
  hash : ℕ
  dedupSectorLba : ℕ
  dedupSectorOffset : ℕ
  deriving DecidableEq

/-- The entry at an index of bytes that are taken for an array of `struct sector_map_entry`. -/
def mediaMapEntryAt (bytes : List UInt8) (index : ℕ) : MediaMapEntry :=
  let field (offset : ℕ) : ℕ :=
    ofLittleEndian ((bytes.drop (index * sectorMapEntrySize + offset)).take 8)
  ⟨field 10, field 18, field 26⟩

/-! ### `CD_READ_LONG` -/

section Definitions

variable (v : CdVolume) (codec : Codec)

namespace CdImage

/-- What `obmafs3_read_media_image_data` takes for the entry of a sector. Behind the end of the map it
goes by what is in its buffer. -/
def mediaEntry (im : CdImage) (buffer : MediaMapEntry) (sectorNum : ℕ) : MediaMapEntry :=
  if sectorNum < im.map.length then
    mediaMapEntryAt (im.map.flatMap CdSectorMapEntry.bytes) sectorNum
  else buffer

/-- `obmafs3_read_media_image_data` for the data of one sector of the image, whose size fits 64 bits.
A place that was looked up goes to the map afterwards. -/
def mediaData (im : CdImage) (buffer : MediaMapEntry) (size sectorNum : ℕ) : Option (List UInt8) :=
  let entry := im.mediaEntry buffer sectorNum
  (if entry.dedupSectorLba ≠ 0 then some (entry.dedupSectorLba, entry.dedupSectorOffset)
    else im.lookupSector entry.hash size).bind fun place ↦ im.dataAt v codec place size

/-- `obmafs3_cd_read_long`. Behind the end of the map it goes by what is on its stack. -/
def readLong (im : CdImage) (stack : CdSectorMapEntry) (buffer : MediaMapEntry) (sectorNum : ℕ) :
    Option RawSector :=
  if im.sectorCount ≤ sectorNum then none
  else
    let entry := (im.map[sectorNum]?).getD stack
    (im.mediaData v codec buffer entry.sectorMode.dataSize sectorNum).bind fun data ↦
      reassemble (cdHashTreeGet im.prefixes) (cdHashTreeGet im.suffixes) entry data sectorNum

/-- What the reader of media images takes for the entry at an index leads to the data of the entry
that is there. -/
def MediaAgrees (im : CdImage) (buffer : MediaMapEntry) (index : ℕ) : Prop :=
  ((im.map[index]?).bind fun entry ↦
    im.mediaData v codec buffer entry.sectorMode.dataSize index) =
      (im.map[index]?).bind (im.entryData v codec)

instance (im : CdImage) (buffer : MediaMapEntry) (index : ℕ) :
    Decidable (im.MediaAgrees v codec buffer index) :=
  inferInstanceAs (Decidable (_ = _))

end CdImage

end Definitions

/-! ### The order of the map -/

section Order

variable {v : CdVolume} {codec : Codec} {pool : Bool} {hash : List UInt8 → ℕ} {im im' : CdImage}
  {reqs : List CdWriteRequest}

/-- The entries are those of the requests, in the order in which they came. -/
structure CdImage.InOrder (im : CdImage) (reqs : List CdWriteRequest) : Prop where
  sectors : (im.map ++ im.cached).map CdSectorMapEntry.sector = reqs.map CdWriteRequest.sector
  count : im.sectorCount = sectorsUpTo reqs

theorem CdImage.InOrder.of_same (horder : im.InOrder reqs) (hsame : im.SameMap im') :
    im'.InOrder reqs :=
  ⟨by rw [hsame.map, hsame.cached, horder.sectors], by rw [hsame.sectorCount, horder.count]⟩

theorem CdImage.InOrder.flush (horder : im.InOrder reqs) : (im.flush v codec).InOrder reqs := by
  obtain ⟨hsectors, hcount⟩ := horder.of_same (im.flushBlock_same v codec)
  refine ⟨?_, hcount⟩
  rw [show (im.flush v codec).cached = [] from rfl, List.append_nil]
  exact hsectors

variable {req : CdWriteRequest}

theorem CdImage.writeData_same {location : SectorEntry}
    (hrun : im.writeData v codec pool hash req = some (location, im')) : im.SameMap im' := by
  unfold CdImage.writeData at hrun
  simp only at hrun
  split at hrun
  · obtain ⟨_, -, heq⟩ := Option.map_eq_some_iff.mp hrun
    simp only [Prod.mk.injEq] at heq
    obtain ⟨-, rfl⟩ := heq
    exact ⟨rfl, rfl, rfl, rfl, rfl⟩
  · cases hrun

theorem CdImage.InOrder.step (horder : im.InOrder reqs) {step : CdStep}
    (hrun : step.run v codec pool hash im = some im') : im'.InOrder (reqs ++ step.request.toList) := by
  cases step with
  | writeLong req =>
    obtain ⟨parts, hparts, hrun⟩ := Option.bind_eq_some_iff.mp hrun
    obtain ⟨⟨location, done⟩, hdata, heq⟩ := Option.map_eq_some_iff.mp hrun
    simp only at heq
    subst heq
    have hstored : parts.InOrder reqs := by
      unfold CdImage.storeParts at hparts
      obtain ⟨subchannels, -, hparts⟩ := Option.bind_eq_some_iff.mp hparts
      obtain ⟨prefixes, -, hparts⟩ := Option.bind_eq_some_iff.mp hparts
      obtain ⟨suffixes, -, rfl⟩ := Option.map_eq_some_iff.mp hparts
      exact ⟨horder.sectors, horder.count⟩
    obtain ⟨hsectors, hcount⟩ := (hstored.of_same (parts.turn_same v codec
      req.sectorMode.dataSize)).of_same (writeData_same hdata)
    refine ⟨?_, ?_⟩
    · change (done.map ++ (done.cached ++ [_])).map _ = (reqs ++ [req]).map _
      rw [← List.append_assoc, List.map_append, hsectors, List.map_append]
      rfl
    · rw [CdStep.request, Option.toList_some, sectorsUpTo_concat, ← hcount]
  | flush =>
    obtain rfl := Option.some.inj hrun
    rw [CdStep.request, Option.toList_none, List.append_nil]
    exact horder.flush
  | alloc count =>
    obtain ⟨⟨start, vol⟩, -, rfl⟩ := Option.map_eq_some_iff.mp hrun
    rw [CdStep.request, Option.toList_none, List.append_nil]
    exact ⟨horder.sectors, horder.count⟩
  | free lba count =>
    simp only [CdStep.run] at hrun
    split_ifs at hrun
    obtain rfl := Option.some.inj hrun
    rw [CdStep.request, Option.toList_none, List.append_nil]
    exact ⟨horder.sectors, horder.count⟩

theorem CdImage.InOrder.runCd (horder : im.InOrder reqs) {steps : List CdStep}
    (hrun : runCd v codec pool hash steps im = some im') :
    im'.InOrder (reqs ++ steps.filterMap CdStep.request) := by
  induction steps generalizing im reqs with
  | nil =>
    obtain rfl := Option.some.inj hrun
    rw [List.filterMap_nil, List.append_nil]
    exact horder
  | cons step steps ih =>
    obtain ⟨mid, hmid, hrest⟩ := Option.bind_eq_some_iff.mp hrun
    have hdone := ih (horder.step hmid) hrest
    rwa [requests_cons] at hdone

theorem sector_lt_sectorsUpTo (hreq : req ∈ reqs) : req.sector < sectorsUpTo reqs := by
  induction reqs using List.reverseRecOn with
  | nil => cases hreq
  | append_singleton reqs last ih =>
    rw [sectorsUpTo_concat]
    rcases List.mem_append.mp hreq with h | h
    · exact lt_max_of_lt_left (ih h)
    · rw [List.mem_singleton.mp h]
      exact lt_max_of_lt_right (Nat.lt_succ_self _)

/-! ### The two reads -/

/-- A read of one whole sector. -/
theorem CdImage.read_sector (hsmall : im.sectorCount * cdRawSectorSize < 2 ^ 64) {n : ℕ}
    (hn : n < im.sectorCount) :
    im.read v codec (n * cdRawSectorSize) cdRawSectorSize =
      (im.readSector v codec n).map (portion · 0 cdRawSectorSize) := by
  have hpos : 0 < cdRawSectorSize := by decide
  have hend : (n + 1) * cdRawSectorSize ≤ im.sectorCount * cdRawSectorSize :=
    Nat.mul_le_mul_right _ hn
  rw [Nat.succ_mul] at hend
  have hloop {fuel : ℕ} (hfuel : 1 < fuel) :
      im.readSectors v codec fuel (n * cdRawSectorSize) cdRawSectorSize =
        (im.readSector v codec n).map (portion · 0 cdRawSectorSize) := by
    obtain ⟨fuel, rfl⟩ : ∃ k, fuel = k + 2 := ⟨fuel - 2, by omega⟩
    rw [CdImage.readSectors, if_neg hpos.ne']
    simp only [Nat.mul_mod_left, Nat.sub_zero, Nat.min_self, Nat.mul_div_cancel _ hpos, Nat.sub_self,
      CdImage.readSectors, if_true, Option.map_some, List.append_nil]
    rw [Option.map_eq_bind]
    rfl
  unfold CdImage.read
  simp only
  rw [Nat.mod_eq_of_lt hsmall, if_neg (by omega), Nat.min_eq_left (by omega)]
  exact hloop (by decide)

/-- The search finds the entry that is at its own LBA. -/
theorem CdImage.readSector_dense (hsorted : (im.map.map CdSectorMapEntry.sector).Pairwise (· < ·))
    {n : ℕ} {entry : CdSectorMapEntry} (hentry : im.map[n]? = some entry) (hsector : entry.sector = n) :
    im.readSector v codec n = im.readEntry v codec entry n := by
  have hkey : (im.map.map CdSectorMapEntry.sector)[n]? = some n := by
    rw [List.getElem?_map, hentry, Option.map_some, hsector]
  obtain ⟨hlt, hget⟩ := List.getElem?_eq_some_iff.mp hkey
  unfold CdImage.readSector
  cases hfind : leafFind (im.map.map CdSectorMapEntry.sector) n with
  | absent index =>
    obtain ⟨-, hbefore, hafter⟩ := leafFind_absent hsorted hfind
    have hmem := List.mem_of_getElem? hkey
    rw [← List.take_append_drop index (im.map.map CdSectorMapEntry.sector)] at hmem
    rcases List.mem_append.mp hmem with h | h
    · exact absurd (hbefore _ h) (lt_irrefl _)
    · exact absurd (hafter _ h) (lt_irrefl _)
  | found index =>
    obtain ⟨hlt', hget'⟩ := List.getElem?_eq_some_iff.mp (leafFind_found hfind)
    have hindex : index = n := by
      rcases Nat.lt_trichotomy index n with h | h | h
      · have := getElem_lt_of_pairwise hsorted h hlt
        omega
      · exact h
      · have := getElem_lt_of_pairwise hsorted h hlt'
        omega
    subst hindex
    simp only [hentry]

end Order

/-! ### Two audio sectors -/

/-- What is on a stack that was never written. -/
def blankEntry : CdSectorMapEntry :=
  (audioRequest 0 0).entry firstByteHash ⟨0, 0, []⟩

end Obmafs3
