import Obmafs3.Cd.Subchannel

/-!
# What a sidecar reads

The block at the place of an entry has the record that is in the slot now, or zeros. Its hash says
whether it is the one that the entry is about, as long as the hash is not zero. `sidecarReads_iff`
says when the sidecar of an image has the subchannels that were written.
-/

set_option autoImplicit false

namespace Obmafs3

open Library.Search Library.SearchTree Library.ByteImage

/-! ### The record at a place -/

section Places

variable {blockSize lba slot : ℕ} {hash : List UInt8 → ℕ} {disk : CdDisk} {rs : List CdHashRecord}

theorem length_flatMap_bytes (hwhole : ∀ r ∈ rs, r.data.length = cdSubchannelSize) :
    (rs.flatMap CdHashRecord.bytes).length = rs.length * cdSubchannelRecordSize := by
  induction rs with
  | nil => exact (Nat.zero_mul _).symm
  | cons r rs ih =>
    obtain ⟨hr, hrs⟩ := List.forall_mem_cons.mp hwhole
    rw [List.flatMap_cons, List.length_append, ih hrs, CdHashRecord.bytes, List.length_append,
      length_bytesOf, hr, List.length_cons, Nat.succ_mul, Nat.add_comm]
    rfl

theorem slots_fit {n : ℕ} (hn : n ≤ maxKeys blockSize cdSubchannelRecordSize)
    (hblock : btreeNodeHeaderSize ≤ blockSize) :
    btreeNodeHeaderSize + n * cdSubchannelRecordSize ≤ blockSize := by
  have hle : n ≤ (blockSize - btreeNodeHeaderSize) / cdSubchannelRecordSize :=
    hn.trans (Nat.mod_le _ _)
  have hfits := Nat.mul_le_of_le_div cdSubchannelRecordSize _ _ hle
  omega

/-- What is read at a place in a leaf: the record that is in the slot now, or zeros. -/
theorem readBytes_leafBlock (hblock : btreeNodeHeaderSize ≤ blockSize)
    (hroom : rs.length ≤ maxKeys blockSize cdSubchannelRecordSize)
    (hwhole : ∀ r ∈ rs, r.data.length = cdSubchannelSize)
    (hslot : slot < maxKeys blockSize cdSubchannelRecordSize) :
    readBytes (leafBlock blockSize (disk.header lba) rs)
        (btreeNodeHeaderSize + slot * cdSubchannelRecordSize) cdSubchannelRecordSize =
      some ((rs[slot]?).elim (List.replicate cdSubchannelRecordSize 0) CdHashRecord.bytes) := by
  have hfits := slots_fit hroom hblock
  have hinside := slots_fit hslot hblock
  rw [Nat.succ_mul] at hinside
  have hheader := disk.length_header lba
  have hlength := length_flatMap_bytes hwhole
  have hsize : (leafBlock blockSize (disk.header lba) rs).length = blockSize := by
    simp only [leafBlock, List.length_append, List.length_replicate, hheader, hlength]
    omega
  rw [readBytes_of_inside (by rw [hsize]; omega), fieldBytes]
  refine congrArg some ?_
  cases hr : rs[slot]? with
  | none =>
    have hbeyond := Nat.mul_le_mul_right cdSubchannelRecordSize (List.getElem?_eq_none_iff.mp hr)
    have hbytes : (disk.header lba ++ rs.flatMap CdHashRecord.bytes).length =
        btreeNodeHeaderSize + rs.length * cdSubchannelRecordSize := by
      rw [List.length_append, hheader, hlength]
    simp only [leafBlock]
    rw [List.drop_append, List.drop_eq_nil_of_le (by omega), List.nil_append, List.drop_replicate,
      List.take_replicate, Option.elim_none]
    congr 1
    omega
  | some r =>
    obtain ⟨hlt, rfl⟩ := List.getElem?_eq_some_iff.mp hr
    have hsplit : rs = rs.take slot ++ rs[slot] :: rs.drop (slot + 1) := by
      rw [← List.drop_eq_getElem_cons, List.take_append_drop]
    have hbefore : (disk.header lba ++ (rs.take slot).flatMap CdHashRecord.bytes).length =
        btreeNodeHeaderSize + slot * cdSubchannelRecordSize := by
      rw [List.length_append, hheader,
        length_flatMap_bytes fun r hr ↦ hwhole r (List.mem_of_mem_take hr), List.length_take,
        Nat.min_eq_left hlt.le]
    have hrecord : rs[slot].bytes.length = cdSubchannelRecordSize := by
      rw [CdHashRecord.bytes, List.length_append, length_bytesOf, hwhole _ (List.getElem_mem hlt)]
      rfl
    have hblocks : leafBlock blockSize (disk.header lba) rs =
        (disk.header lba ++ (rs.take slot).flatMap CdHashRecord.bytes) ++ (rs[slot].bytes ++
          ((rs.drop (slot + 1)).flatMap CdHashRecord.bytes ++ List.replicate (blockSize -
            (disk.header lba ++ rs.flatMap CdHashRecord.bytes).length) 0)) := by
      conv_lhs => rw [leafBlock]
      have hall : rs.flatMap CdHashRecord.bytes = (rs.take slot).flatMap CdHashRecord.bytes ++
          (rs[slot].bytes ++ (rs.drop (slot + 1)).flatMap CdHashRecord.bytes) := by
        conv_lhs => rw [hsplit, List.flatMap_append, List.flatMap_cons]
      simp only [hall, List.append_assoc]
    rw [hblocks, List.drop_left' hbefore, List.take_left' hrecord, Option.elim_some]

end Places

/-! ### Reads -/

/-- What a reader gets for a sector, where the hash zero stands for no subchannel. -/
def storedSubchannel (hash : List UInt8 → ℕ) (subchannel : Option (List UInt8)) : List UInt8 :=
  subchannel.elim noSubchannel fun sub ↦ if hash sub = 0 then noSubchannel else sub

section Reads

variable {w : CdWriter} {disk : CdDisk} {s s' : CdFiles} {reqs : ℕ → List CdWriteRequest} {i : ℕ}

variable {req : CdWriteRequest} {sub : List UInt8}

section

variable (hholds : s.Holds w reqs) (hapart : SubchannelsApart w.hash reqs)
include hholds hapart

/-- A record with the hash of a subchannel that was written has its data. -/
theorem CdFiles.Holds.data_eq {r : CdHashRecord} (hr : r ∈ s.subchannels.records)
    (hreq : req ∈ reqs i) (hsub : req.subchannel = some sub) (hhash : r.hash = w.hash sub) :
    r.data = sub := by
  obtain ⟨j, req', hreq', hdata⟩ := hholds.written r hr
  refine hapart j req' hreq' i req hreq _ hdata _ hsub ?_
  rw [← hhash, hholds.tree.hash_eq r hr]

theorem CdFiles.Holds.get (hreq : req ∈ reqs i) (hsub : req.subchannel = some sub)
    (hstored : ∃ r ∈ s.subchannels.records, r.hash = w.hash sub) :
    cdHashTreeGet s.subchannels (w.hash sub) = some sub := by
  obtain ⟨r, hr, hhash⟩ := hstored
  rw [cdHashTreeGet, (Root.mem_lookup hholds.tree.ordered).mpr ⟨hr, hhash⟩, Option.map_some,
    hholds.data_eq hapart hr hreq hsub hhash]

end

/-- The block of a leaf. -/
theorem CdFiles.blockRead_leaf (w : CdWriter) (disk : CdDisk) {lba : ℕ}
    (hlba : lba ∈ s.subchannels.leaves.map Prod.fst) :
    ∃ rs, (lba, rs) ∈ s.subchannels.leaves ∧
      s.blockRead w disk lba = some (leafBlock w.volume.blockSize (disk.header lba) rs) := by
  rw [CdFiles.blockRead]
  cases hfind : s.subchannels.leaves.find? fun l ↦ l.1 = lba with
  | none =>
    obtain ⟨l, hl, hlabel⟩ := List.mem_map.mp hlba
    have hmissed := List.find?_eq_none.mp hfind l hl
    simp [hlabel] at hmissed
  | some l =>
    obtain ⟨label, rs⟩ := l
    obtain rfl : label = lba := by simpa using List.find?_some hfind
    exact ⟨rs, List.mem_of_find?_eq_some hfind, rfl⟩

section

variable (hholds : s.Holds w reqs) (hapart : SubchannelsApart w.hash reqs)
  (hrange : ∀ bytes, w.hash bytes < 2 ^ 64)
include hholds hapart hrange

/-- The subchannel of an entry, wherever its record has gone. -/
theorem CdFiles.Holds.subSector {entry : CdSectorMapEntry}
    (hentry : EntryOf w s.subchannels entry req) (hreq : req ∈ reqs i) :
    s.subSector w disk entry = some (storedSubchannel w.hash req.subchannel) := by
  rw [CdFiles.subSector, hentry.hash_eq]
  cases hsub : req.subchannel with
  | none => rfl
  | some sub =>
    rw [Option.elim_some, storedSubchannel, Option.elim_some]
    by_cases hzero : w.hash sub = 0
    · rw [if_pos hzero, if_pos hzero]
    rw [if_neg hzero, if_neg hzero]
    have hget := hholds.get hapart hreq hsub (hentry.stored sub hsub)
    dsimp only
    rw [hget, Option.getD_some]
    split_ifs with hlba
    · rfl
    obtain ⟨slot, hslot, hleaf, hoffset⟩ := hentry.placed.resolve_left hlba
    obtain ⟨rs, hrs, hblock⟩ := CdFiles.blockRead_leaf w disk hleaf
    have hrecords : ∀ r ∈ rs, r ∈ s.subchannels.records := fun r hr ↦ by
      rw [← Root.leaves_records]
      exact List.mem_flatMap.mpr ⟨_, hrs, hr⟩
    have hheader : btreeNodeHeaderSize ≤ w.volume.blockSize := by
      have := w.volume.formatted
      unfold btreeNodeHeaderSize
      omega
    rw [hblock, hoffset]
    dsimp only
    rw [readBytes_leafBlock hheader (hholds.tree.room _ hrs)
      (fun r hr ↦ hholds.tree.whole r (hrecords r hr)) hslot, Option.map_some]
    cases hr : rs[slot]? with
    | none =>
      rw [Option.elim_none, List.take_replicate, number_replicate_zero, if_neg (Ne.symm hzero)]
    | some r =>
      have hmem := hrecords r (List.mem_of_getElem? hr)
      have hnumber : number (r.bytes.take 8) = r.hash := by
        rw [CdHashRecord.bytes, List.take_left' (length_bytesOf 8 _), number_bytesOf,
          hholds.tree.hash_eq r hmem]
        exact Nat.mod_eq_of_lt (hrange _)
      rw [Option.elim_some, hnumber]
      split_ifs with hhash
      · rw [CdHashRecord.bytes, List.drop_left' (length_bytesOf 8 _),
          hholds.data_eq hapart hmem hreq hsub hhash]
      · rfl

/-- The subchannel of a sector. -/
theorem CdFiles.Holds.readSubchannel
    (hascending : ((reqs i).map CdWriteRequest.sector).Pairwise (· < ·))
    (hflushed : (s.file i).cached = []) (n : ℕ) :
    s.readSubchannel w disk i n = some (storedSubchannel w.hash (subchannelOf (reqs i) n)) := by
  have hentries := hholds.entries i
  rw [hflushed, List.append_nil] at hentries
  have hsectors : (s.file i).map.map CdSectorMapEntry.sector = (reqs i).map CdWriteRequest.sector :=
    List.forall₂_eq_eq_eq ▸ List.forall₂_map_left_iff.mpr
      (List.forall₂_map_right_iff.mpr (hentries.imp fun _ _ h ↦ h.sector))
  have hfound := leaf_lookup_eq hascending n 0
  rw [lookup] at hfound
  rw [CdFiles.readSubchannel, hsectors, subchannelOf, ← hfound]
  cases hfind : leafFind ((reqs i).map CdWriteRequest.sector) n with
  | absent index => rfl
  | found index =>
    have hindex := (List.getElem?_eq_some_iff.mp (leafFind_found hfind)).1
    rw [List.length_map] at hindex
    have hindex' : index < (s.file i).map.length := by rwa [hentries.length_eq]
    dsimp only
    rw [List.getElem?_eq_getElem hindex, List.getElem?_eq_getElem hindex', Option.bind_some]
    exact hholds.subSector hapart hrange (hentries.get hindex' hindex) (List.getElem_mem hindex)

end

/-! ### Reads of a range -/

theorem length_storedSubchannel {hash : List UInt8 → ℕ} {subchannel : Option (List UInt8)}
    (hwhole : ∀ sub ∈ subchannel, sub.length = cdSubchannelSize) :
    (storedSubchannel hash subchannel).length = cdSubchannelSize := by
  cases subchannel with
  | none => exact List.length_replicate
  | some sub =>
    rw [storedSubchannel, Option.elim_some]
    split_ifs
    · exact List.length_replicate
    · exact hwhole sub rfl

theorem fieldBytes_eq_map {bytes : List UInt8} {off width : ℕ}
    (hinside : off + width ≤ bytes.length) :
    fieldBytes bytes off width = (List.range width).map fun k ↦ bytes.getD (off + k) 0 := by
  refine List.ext_getElem? fun k ↦ ?_
  rw [getElem?_fieldBytes, List.getElem?_map]
  split_ifs with hk
  · rw [List.getElem?_range hk, Option.map_some, List.getD_eq_getElem?_getD,
      List.getElem?_eq_getElem (by omega), Option.getD_some]
  · rw [List.getElem?_eq_none (by rw [List.length_range]; omega), Option.map_none]

/-- The loop, when every sector has the bytes of a content. -/
theorem CdFiles.readSubchannels_eq {content : ℕ → UInt8}
    (hsector : ∀ n, ∃ sub, s.readSubchannel w disk i n = some sub ∧ sub.length = cdSubchannelSize ∧
      ∀ k < cdSubchannelSize, sub.getD k 0 = content (n * cdSubchannelSize + k))
    {fuel pos remaining : ℕ} (hfuel : remaining ≤ fuel) :
    s.readSubchannels w disk i fuel pos remaining =
      some ((List.range remaining).map fun k ↦ content (pos + k)) := by
  induction fuel generalizing pos remaining with
  | zero =>
    obtain rfl := Nat.le_zero.mp hfuel
    rfl
  | succ fuel ih =>
    rw [CdFiles.readSubchannels]
    by_cases hzero : remaining = 0
    · rw [if_pos hzero, hzero]
      rfl
    · rw [if_neg hzero]
      obtain ⟨sub, hread, hlength, hbytes⟩ := hsector (pos / cdSubchannelSize)
      have hmod : pos % cdSubchannelSize < cdSubchannelSize := Nat.mod_lt _ (by decide)
      have hpos := Nat.div_add_mod' pos cdSubchannelSize
      generalize hchunk : min remaining (cdSubchannelSize - pos % cdSubchannelSize) = chunk
      have hfield : fieldBytes sub (pos % cdSubchannelSize) chunk =
          (List.range chunk).map fun k ↦ content (pos + k) := by
        rw [fieldBytes_eq_map (by omega)]
        refine List.map_congr_left fun k hk ↦ ?_
        have hk := List.mem_range.mp hk
        rw [hbytes _ (by omega), ← Nat.add_assoc, hpos]
      have hrest : s.readSubchannels w disk i fuel (pos + chunk) (remaining - chunk) =
          some ((List.range (remaining - chunk)).map fun k ↦ content (pos + chunk + k)) :=
        ih (by omega)
      simp only [hchunk, hread, Option.bind_some, hrest, Option.map_some, hfield]
      have hsplit : remaining = chunk + (remaining - chunk) := by omega
      conv_rhs => rw [hsplit, List.range_add, List.map_append, List.map_map]
      simp [Function.comp_def, Nat.add_assoc]

theorem mem_of_subchannelOf {reqs : List CdWriteRequest} {n : ℕ} (hsub : sub ∈ subchannelOf reqs n)
    : ∃ req ∈ reqs, req.subchannel = some sub := by
  obtain ⟨req, hreq, hsub⟩ := Option.bind_eq_some_iff.mp hsub
  exact ⟨req, List.mem_of_find?_eq_some hreq, hsub⟩

theorem subchannelOf_sector {reqs : List CdWriteRequest}
    (hascending : (reqs.map CdWriteRequest.sector).Pairwise (· < ·)) (hreq : req ∈ reqs) :
    subchannelOf reqs req.sector = req.subchannel := by
  obtain ⟨index, hindex⟩ := List.getElem?_of_mem hreq
  rw [subchannelOf, find?_eq_getElem? hascending hindex, Option.bind_some]

/-- The byte that a reader gets. -/
def storedByte (hash : List UInt8 → ℕ) (reqs : List CdWriteRequest) (pos : ℕ) : UInt8 :=
  (storedSubchannel hash (subchannelOf reqs (pos / cdSubchannelSize))).getD
    (pos % cdSubchannelSize) 0

/-- A range of the sidecar, where its size fits 64 bits. -/
theorem CdFiles.Holds.readSubchannelData (hholds : s.Holds w reqs)
    (hapart : SubchannelsApart w.hash reqs) (hrange : ∀ bytes, w.hash bytes < 2 ^ 64)
    (hwhole : WholeSubchannels reqs)
    (hascending : ((reqs i).map CdWriteRequest.sector).Pairwise (· < ·))
    (hflushed : (s.file i).cached = []) (hsmall : sectorsUpTo (reqs i) * cdSubchannelSize < 2 ^ 64)
    {offset size : ℕ} (hend : offset + size < 2 ^ 64) :
    s.readSubchannelData w disk i offset size =
      some ((List.range (min size (sectorsUpTo (reqs i) * cdSubchannelSize - offset))).map fun k ↦
        storedByte w.hash (reqs i) (offset + k)) := by
  have hsector (n : ℕ) : ∃ sub, s.readSubchannel w disk i n = some sub ∧
      sub.length = cdSubchannelSize ∧ ∀ k < cdSubchannelSize,
        sub.getD k 0 = storedByte w.hash (reqs i) (n * cdSubchannelSize + k) := by
    refine ⟨_, hholds.readSubchannel hapart hrange hascending hflushed n,
      length_storedSubchannel fun sub hsub ↦ ?_, fun k hk ↦ ?_⟩
    · obtain ⟨req, hreq, hsub⟩ := mem_of_subchannelOf hsub
      exact hwhole i req hreq sub hsub
    · rw [storedByte, Nat.mul_comm, Nat.mul_add_div (Nat.zero_lt_of_lt hk), Nat.div_eq_of_lt hk,
        Nat.add_zero, Nat.mul_add_mod, Nat.mod_eq_of_lt hk]
  unfold CdFiles.readSubchannelData
  simp only [hholds.count i, Nat.mod_eq_of_lt hsmall, Nat.mod_eq_of_lt hend]
  split_ifs with hbeyond hclip
  · rw [Nat.sub_eq_zero_of_le hbeyond, Nat.min_zero]
    rfl
  · rw [Nat.min_eq_right (by omega)]
    exact CdFiles.readSubchannels_eq hsector le_rfl
  · rw [Nat.min_eq_left (by omega)]
    exact CdFiles.readSubchannels_eq hsector le_rfl

/-- Behind a size of 64 bits there is a byte that is not read. -/
theorem CdFiles.Holds.small_of_reads (hholds : s.Holds w reqs)
    (hreads : s.SidecarReads w disk i (reqs i)) :
    sectorsUpTo (reqs i) * cdSubchannelSize < 2 ^ 64 := by
  by_contra hbig
  have hread := hreads (2 ^ 64 - 2) 1 (by decide)
  unfold CdFiles.readSubchannelData at hread
  unfold cdSubchannelSize at hread hbig
  rw [hholds.count i] at hread
  dsimp only at hread
  rw [if_pos (by omega), Nat.min_eq_left (by omega)] at hread
  cases hread

/-- A subchannel with the hash zero reads back if it is zero. -/
theorem CdFiles.Holds.zero_of_reads (hholds : s.Holds w reqs)
    (hapart : SubchannelsApart w.hash reqs) (hrange : ∀ bytes, w.hash bytes < 2 ^ 64)
    (hwhole : WholeSubchannels reqs)
    (hascending : ((reqs i).map CdWriteRequest.sector).Pairwise (· < ·))
    (hflushed : (s.file i).cached = []) (hreads : s.SidecarReads w disk i (reqs i))
    (hreq : req ∈ reqs i) (hsub : sub ∈ req.subchannel) (hzero : w.hash sub = 0) :
    sub = noSubchannel := by
  have hsmall := hholds.small_of_reads hreads
  have hsector : (req.sector + 1) * cdSubchannelSize ≤ sectorsUpTo (reqs i) * cdSubchannelSize :=
    Nat.mul_le_mul_right _ (sector_lt_sectorsUpTo hreq)
  rw [Nat.succ_mul] at hsector
  have hread := hreads (req.sector * cdSubchannelSize) cdSubchannelSize (by omega)
  rw [hholds.readSubchannelData hapart hrange hwhole hascending hflushed hsmall (by omega),
    Nat.min_eq_left (by omega), Option.some.injEq] at hread
  have hbyte : ∀ k < cdSubchannelSize, sub.getD k 0 = 0 := fun k hk ↦ by
    have hsame := List.map_inj_left.mp hread k (List.mem_range.mpr hk)
    have hdiv : (req.sector * cdSubchannelSize + k) / cdSubchannelSize = req.sector := by
      rw [Nat.mul_comm, Nat.mul_add_div (Nat.zero_lt_of_lt hk), Nat.div_eq_of_lt hk, Nat.add_zero]
    have hmod : (req.sector * cdSubchannelSize + k) % cdSubchannelSize = k := by
      rw [Nat.mul_comm, Nat.mul_add_mod, Nat.mod_eq_of_lt hk]
    rw [storedByte, subchannelByte, hdiv, hmod, subchannelOf_sector hascending hreq, hsub,
      Option.getD_some, storedSubchannel, Option.elim_some, if_pos hzero] at hsame
    rw [← hsame, noSubchannel, List.getD_eq_getElem?_getD, List.getElem?_replicate_of_lt hk,
      Option.getD_some]
  refine List.eq_replicate_iff.mpr ⟨hwhole i req hreq sub hsub, fun b hb ↦ ?_⟩
  obtain ⟨k, hk, rfl⟩ := List.mem_iff_getElem.mp hb
  have hzero := hbyte k (hwhole i req hreq sub hsub ▸ hk)
  rwa [List.getD_eq_getElem?_getD, List.getElem?_eq_getElem hk, Option.getD_some] at hzero

/-- After requests in the order of their LBAs and a flush, whatever other requests did to the tree,
the sidecar of an image has the subchannels that were written if and only if its size fits 64 bits
and no subchannel but that of zeros has the hash zero. -/
theorem sidecarReads_iff (hfresh : s.Fresh) (hrange : ∀ bytes, w.hash bytes < 2 ^ 64)
    {steps : List (ℕ × CdStep)} (hwhole : WholeSubchannels fun i ↦ requestsFor i steps)
    (hapart : SubchannelsApart w.hash fun i ↦ requestsFor i steps) (hrun : s.run w steps = some s')
    (hascending : ((requestsFor i steps).map CdWriteRequest.sector).Pairwise (· < ·))
    (hflushed : (s'.file i).cached = []) :
    s'.SidecarReads w disk i (requestsFor i steps) ↔
      sectorsUpTo (requestsFor i steps) * cdSubchannelSize < 2 ^ 64 ∧
        ∀ req ∈ requestsFor i steps, ∀ sub ∈ req.subchannel,
          w.hash sub = 0 → sub = noSubchannel := by
  have hholds : s'.Holds w fun i ↦ requestsFor i steps := by
    simpa only [List.nil_append] using hfresh.holds.run hwhole hrun
  constructor
  · intro hreads
    exact ⟨hholds.small_of_reads hreads, fun req hreq sub hsub hzero ↦
      hholds.zero_of_reads hapart hrange hwhole hascending hflushed hreads hreq hsub hzero⟩
  · rintro ⟨hsmall, hzero⟩ offset size hend
    have hstored (n : ℕ) : storedSubchannel w.hash (subchannelOf (requestsFor i steps) n) =
        (subchannelOf (requestsFor i steps) n).getD noSubchannel := by
      cases hsub : subchannelOf (requestsFor i steps) n with
      | none => rfl
      | some sub =>
        obtain ⟨req, hreq, hmem⟩ := mem_of_subchannelOf hsub
        rw [storedSubchannel, Option.elim_some, Option.getD_some]
        split_ifs with hhash
        · exact (hzero req hreq sub hmem hhash).symm
        · rfl
    rw [hholds.readSubchannelData hapart hrange hwhole hascending hflushed hsmall hend]
    simp only [storedByte, hstored, subchannelByte]

end Reads

/-! ### Two sectors with a subchannel -/

/-- A new volume with the hash of the source. -/
def smallCdWriter : CdWriter :=
  ⟨smallCdVolume, plainCodec, true, fun bytes ↦ (Library.XxHash.xxh64 bytes).toNat⟩

def newCdFiles : CdFiles where
  store := newVolume.store
  last := fun _ ↦ (0, 0)
  prefixes := .empty
  suffixes := .empty
  subchannels := .empty
  file := fun _ ↦ ⟨closedCache, 0, [], [], 0⟩

def zeroDisk : CdDisk := ⟨fun _ ↦ List.replicate btreeNodeHeaderSize 0, fun _ ↦ rfl, fun _ ↦ none⟩

/-- An audio sector with a subchannel, for which the allocator has a block. -/
def subchannelRequest (lba : ℕ) (sub : List UInt8) : CdWriteRequest :=
  { audioRequest lba 7 with subchannel := some sub, subchannelFresh := fun _ ↦ some 90 }

/-- A subchannel that is not zero and has the hash zero. -/
def hashZeroSubchannel : List UInt8 :=
  List.replicate 64 0 ++ [71, 124, 77, 143, 136, 99, 166, 120, 12, 172, 110, 76, 137, 173, 26, 175,
    123, 225, 74, 89, 32, 83, 178, 108, 7, 126, 138, 36, 103, 225, 41, 155]

/-- The subchannel of one sector reads back. -/
def oneSubchannel (sub : List UInt8) : List (ℕ × CdStep) :=
  [(5, .writeLong (subchannelRequest 0 sub)), (5, .flush)]

theorem newCdFiles_fresh : newCdFiles.Fresh := ⟨rfl, fun _ ↦ rfl, fun _ ↦ rfl, fun _ ↦ rfl⟩

variable {sub : List UInt8}

theorem mem_oneSubchannel {i : ℕ} {req : CdWriteRequest}
    (hreq : req ∈ requestsFor i (oneSubchannel sub)) : req.subchannel = some sub := by
  obtain ⟨step, hstep, heq⟩ := List.mem_filterMap.mp hreq
  split_ifs at heq
  rcases List.mem_pair.mp hstep with rfl | rfl
  · cases heq
    rfl
  · cases heq

theorem wholeSubchannels_one (hsub : sub.length = cdSubchannelSize) :
    WholeSubchannels fun i ↦ requestsFor i (oneSubchannel sub) := fun i req hreq sub' hsub' ↦ by
  rw [Option.mem_def, mem_oneSubchannel hreq] at hsub'
  exact Option.some.inj hsub' ▸ hsub

theorem subchannelsApart_one (hash : List UInt8 → ℕ) (sub : List UInt8) :
    SubchannelsApart hash fun i ↦ requestsFor i (oneSubchannel sub) :=
  fun i req hreq j req' hreq' sub' hsub' sub'' hsub'' _ ↦ by
    rw [Option.mem_def, mem_oneSubchannel hreq] at hsub'
    rw [Option.mem_def, mem_oneSubchannel hreq'] at hsub''
    exact (Option.some.inj hsub').symm.trans (Option.some.inj hsub'')

theorem sidecarReads_ones :
    ∃ s, newCdFiles.run smallCdWriter (oneSubchannel (List.replicate 96 1)) = some s ∧
      s.SidecarReads smallCdWriter zeroDisk 5
        (requestsFor 5 (oneSubchannel (List.replicate 96 1))) := by
  refine ⟨(newCdFiles.run smallCdWriter (oneSubchannel (List.replicate 96 1))).get
    (by decide +kernel), (Option.some_get _).symm, ?_⟩
  refine (sidecarReads_iff newCdFiles_fresh (fun _ ↦ UInt64.toNat_lt _) (wholeSubchannels_one rfl)
    (subchannelsApart_one _ _) (Option.some_get (by decide +kernel)).symm (by decide)
    (by decide +kernel)).mpr ⟨by decide, fun req hreq sub hsub hzero ↦ ?_⟩
  rw [Option.mem_def, mem_oneSubchannel hreq] at hsub
  obtain rfl := Option.some.inj hsub
  revert hzero
  decide +kernel

/-- The subchannel is in the tree under its hash, and is read as zeros. -/
theorem sidecarReads_hashZero :
    ∃ s, newCdFiles.run smallCdWriter (oneSubchannel hashZeroSubchannel) = some s ∧
      newCdFiles.Fresh ∧
      (WholeSubchannels fun i ↦ requestsFor i (oneSubchannel hashZeroSubchannel)) ∧
      (SubchannelsApart smallCdWriter.hash fun i ↦
        requestsFor i (oneSubchannel hashZeroSubchannel)) ∧
      ((requestsFor 5 (oneSubchannel hashZeroSubchannel)).map CdWriteRequest.sector).Pairwise
        (· < ·) ∧
      (s.file 5).cached = [] ∧
      ¬s.SidecarReads smallCdWriter zeroDisk 5
        (requestsFor 5 (oneSubchannel hashZeroSubchannel)) := by
  refine ⟨(newCdFiles.run smallCdWriter (oneSubchannel hashZeroSubchannel)).get (by decide +kernel),
    (Option.some_get _).symm, newCdFiles_fresh, wholeSubchannels_one rfl, subchannelsApart_one _ _,
    by decide, by decide +kernel, fun hreads ↦ ?_⟩
  have hread := hreads 64 1 (by decide)
  revert hread
  decide +kernel

end Obmafs3
