import Obmafs3.Dedup.Pending

/-!
# Saving the pending buffers at an unmount

At an unmount the entries of the active buffer and of the one that is being drained are written as
one record with one sector size, and the next mount puts them into one buffer. `pending_remount`
says when every entry comes back under its sector size.

There is memory for the buffers here, and the blocks of the record are not written by others.
-/

set_option autoImplicit false

namespace Obmafs3

open Library.Probing

/-- The record of saved entries. Its magic and its checksum are those that the save computed. -/
structure PendingRecord where
  sectorSize : ℕ
  entries : List DedupEntry

/-- A volume with the fields of its superblock for the saved entries and the records at the LBAs
where extents of saved entries begin. -/
structure PendingVolume where
  vol : Volume
  pendingLba : ℕ
  pendingBlocks : ℕ
  record : ℕ → Option PendingRecord

section Definitions

variable (calloc : ℕ → Bool) (pv : PendingVolume) (pb1 pb2 : Option PendingBuf)

/-- The count of both buffers, a 32-bit number. -/
def totalCount : ℕ := (bufCount pb1 + bufCount pb2) % 2 ^ 32

/-- The bytes of a record: its header and `struct dedup_entry` for each entry. -/
def payloadBytes (count : ℕ) : ℕ := 32 + count * 24

def neededBlocks : ℕ :=
  (payloadBytes (totalCount pb1 pb2) + pv.vol.blockSize - 1) / pv.vol.blockSize

/-- The sector size of the record: that of the buffer being drained, when it has one. -/
def savedSectorSize : ℕ :=
  if bufSectorSize pb2 ≠ 0 then bufSectorSize pb2 else bufSectorSize pb1

/-- The volume without the extent of the last record. -/
def releasePending : Volume :=
  if pv.pendingLba ≠ 0 ∧ pv.pendingBlocks ≠ 0 then pv.vol.freeBlocks pv.pendingLba pv.pendingBlocks
  else pv.vol

/-- `obmafs3_dedup_pending_save`. -/
def dedupPendingSave : PendingVolume :=
  if totalCount pb1 pb2 = 0 then
    { pv with vol := releasePending pv, pendingLba := 0, pendingBlocks := 0 }
  else
    match (releasePending pv).allocBlocks (neededBlocks pv pb1 pb2) with
    | none => { pv with vol := releasePending pv, pendingLba := 0, pendingBlocks := 0 }
    | some (start, vol) =>
      { vol
        pendingLba := start
        pendingBlocks := neededBlocks pv pb1 pb2
        record := Function.update pv.record start
          (some ⟨savedSectorSize pb1 pb2, bufEntries pb1 ++ bufEntries pb2⟩) }

/-- `obmafs3_dedup_pending_flush_and_free`. Without entries it does not get to the save. -/
def dedupPendingFlushAndFree : PendingVolume :=
  if 0 < totalCount pb1 pb2 then dedupPendingSave pv pb1 pb2 else pv

/-- The buffer that is made from a record. -/
def restorePending (record : PendingRecord) : PendingBuf :=
  presizedWith calloc record.sectorSize record.entries

/-- `obmafs3_dedup_pending_load`. -/
def dedupPendingLoad : Option PendingBuf :=
  if pv.pendingLba = 0 ∨ pv.pendingBlocks = 0 then none
  else
    match pv.record pv.pendingLba with
    | none => none
    | some record =>
      if pv.pendingBlocks * pv.vol.blockSize < payloadBytes record.entries.length then none
      else some (restorePending calloc record)

end Definitions

/-- The buffer of the next mount has every entry of the two buffers, under the sector size of the
entry's buffer, and each of them once. -/
structure Survives (pb1 pb2 reopened : Option PendingBuf) : Prop where
  found : ∀ pb, pb1 = some pb ∨ pb2 = some pb → ∀ e ∈ pb.entries,
    ∃ pb', reopened = some pb' ∧ pendingLookup pb' e.hash = some e ∧ pb'.sectorSize = pb.sectorSize
  perm : (bufEntries reopened).Perm (bufEntries pb1 ++ bufEntries pb2)

/-- What a remount needs to keep the entries. -/
structure Kept (pv : PendingVolume) (pb1 pb2 : Option PendingBuf) : Prop where
  room : bufEntries pb1 ++ bufEntries pb2 ≠ [] →
    ∃ start vol, (releasePending pv).allocBlocks (neededBlocks pv pb1 pb2) = some (start, vol) ∧
      start ≠ 0
  size : ∀ pb, pb1 = some pb ∨ pb2 = some pb → pb.entries ≠ [] →
    pb.sectorSize = savedSectorSize pb1 pb2
  distinct : ∀ e ∈ bufEntries pb1, ∀ e' ∈ bufEntries pb2, e.hash ≠ e'.hash
  few : (bufEntries pb1 ++ bufEntries pb2).length ≤ 3 * 2 ^ 28
  clean : totalCount pb1 pb2 = 0 → pv.pendingLba = 0 ∨ pv.pendingBlocks = 0

/-- The record of the volume, if it has one, is one that a load makes a buffer of: with entries,
with no hash twice, and of the size of its extent. -/
def PendingVolume.Sound (pv : PendingVolume) : Prop :=
  pv.pendingLba ≠ 0 → pv.pendingBlocks ≠ 0 →
    ∃ record, pv.record pv.pendingLba = some record ∧ record.entries ≠ [] ∧
      record.entries.length ≤ 3 * 2 ^ 28 ∧ (∀ e ∈ record.entries, e.hash ≠ 0) ∧
      (record.entries.map DedupEntry.hash).Nodup ∧
      payloadBytes record.entries.length ≤ pv.pendingBlocks * pv.vol.blockSize

/-! ### What the next mount finds -/

section Remount

variable {calloc : ℕ → Bool} {pv : PendingVolume} {pb1 pb2 : Option PendingBuf}

/-- The buffers of a mount. -/
def ReachedBuffers (pb1 pb2 : Option PendingBuf) : Prop :=
  ∀ pb, pb1 = some pb ∨ pb2 = some pb → pb.Reached

variable {pb : Option PendingBuf}

theorem length_bufEntries_le (hreached : ∀ b, pb = some b → b.Reached) :
    (bufEntries pb).length ≤ bufCount pb ∧ bufCount pb ≤ 3 * 2 ^ 28 + 1 := by
  cases pb with
  | none => exact ⟨Nat.le_refl 0, Nat.zero_le _⟩
  | some b =>
    have hsound := (hreached b rfl).sound
    refine ⟨hsound.length_le, ?_⟩
    have hcount : bufCount (some b) = b.count := rfl
    rw [hcount]
    rcases hsound.load with ⟨k, -, hk, hcap, hload⟩ | ⟨-, hload⟩
    · have := Nat.pow_le_pow_right (n := 2) (by omega) hk
      omega
    · exact hload

theorem length_saved_le (hreached : ReachedBuffers pb1 pb2) :
    (bufEntries pb1 ++ bufEntries pb2).length ≤ totalCount pb1 pb2 := by
  obtain ⟨hlength1, hcount1⟩ := length_bufEntries_le fun b hb ↦ hreached b (.inl hb)
  obtain ⟨hlength2, hcount2⟩ := length_bufEntries_le fun b hb ↦ hreached b (.inr hb)
  rw [List.length_append, totalCount, Nat.mod_eq_of_lt (by omega)]
  omega

theorem nodup_bufEntries (hreached : ∀ b, pb = some b → b.Reached) :
    ((bufEntries pb).map DedupEntry.hash).Nodup := by
  cases pb with
  | none => exact List.nodup_nil
  | some b => exact (hreached b rfl).sound.settled.nodup

theorem nonzero_bufEntries (hreached : ∀ b, pb = some b → b.Reached) :
    ∀ e ∈ bufEntries pb, e.hash ≠ 0 := by
  cases pb with
  | none => exact fun e he ↦ absurd he List.not_mem_nil
  | some b => exact (hreached b rfl).sound.nonzero

/-- The blocks of a record hold it. -/
theorem payloadBytes_le (hblock : 0 < pv.vol.blockSize) (hreached : ReachedBuffers pb1 pb2) :
    payloadBytes (bufEntries pb1 ++ bufEntries pb2).length ≤
        neededBlocks pv pb1 pb2 * pv.vol.blockSize ∧
      neededBlocks pv pb1 pb2 ≠ 0 := by
  have hlength := length_saved_le hreached
  have hpayload : payloadBytes (bufEntries pb1 ++ bufEntries pb2).length ≤
      payloadBytes (totalCount pb1 pb2) := by
    unfold payloadBytes
    omega
  have hpositive : 0 < payloadBytes (totalCount pb1 pb2) := by
    unfold payloadBytes
    omega
  have hup : payloadBytes (totalCount pb1 pb2) ≤ neededBlocks pv pb1 pb2 * pv.vol.blockSize := by
    have hdiv := Nat.div_add_mod (payloadBytes (totalCount pb1 pb2) + pv.vol.blockSize - 1)
      pv.vol.blockSize
    have hmod := Nat.mod_lt (payloadBytes (totalCount pb1 pb2) + pv.vol.blockSize - 1) hblock
    rw [Nat.mul_comm] at hdiv
    unfold neededBlocks
    omega
  refine ⟨hpayload.trans hup, fun hzero ↦ ?_⟩
  rw [hzero] at hup
  omega

variable {vol : Volume}

/-- The blocks that a save takes belong to the volume it was given. -/
theorem blockSize_releasePending {blocks start : ℕ}
    (halloc : (releasePending pv).allocBlocks blocks = some (start, vol)) :
    vol.blockSize = pv.vol.blockSize := by
  obtain ⟨-, rfl⟩ := allocBlocks_eq_some halloc
  unfold releasePending
  split_ifs <;> rfl

/-- With entries to save, what the next mount loads is what it restores from their record. -/
theorem load_saved (htotal : 0 < totalCount pb1 pb2) (hblock : 0 < pv.vol.blockSize)
    (hreached : ReachedBuffers pb1 pb2) {start : ℕ}
    (halloc : (releasePending pv).allocBlocks (neededBlocks pv pb1 pb2) = some (start, vol)) :
    dedupPendingLoad calloc (dedupPendingFlushAndFree pv pb1 pb2) =
      if start = 0 then none
      else some (restorePending calloc
        ⟨savedSectorSize pb1 pb2, bufEntries pb1 ++ bufEntries pb2⟩) := by
  obtain ⟨hfits, hneeded⟩ := payloadBytes_le hblock hreached
  have hsize := blockSize_releasePending halloc
  unfold dedupPendingFlushAndFree dedupPendingSave
  rw [if_pos htotal, if_neg (by omega)]
  simp only [halloc]
  unfold dedupPendingLoad
  by_cases hstart : start = 0
  · rw [if_pos (.inl hstart), if_pos hstart]
  · rw [if_neg (by simp [hstart, hneeded]), if_neg hstart]
    simp only [Function.update_self]
    rw [if_neg (by rw [hsize]; omega)]

theorem load_refused (htotal : 0 < totalCount pb1 pb2)
    (halloc : (releasePending pv).allocBlocks (neededBlocks pv pb1 pb2) = none) :
    dedupPendingLoad calloc (dedupPendingFlushAndFree pv pb1 pb2) = none := by
  unfold dedupPendingFlushAndFree dedupPendingSave
  rw [if_pos htotal, if_neg (by omega)]
  simp only [halloc]
  unfold dedupPendingLoad
  rw [if_pos (.inl rfl)]

theorem load_clean (htotal : ¬0 < totalCount pb1 pb2)
    (hclean : pv.pendingLba = 0 ∨ pv.pendingBlocks = 0) :
    dedupPendingLoad calloc (dedupPendingFlushAndFree pv pb1 pb2) = none := by
  unfold dedupPendingFlushAndFree dedupPendingLoad
  rw [if_neg htotal, if_pos hclean]

theorem mem_bufEntries {pb : PendingBuf} {e : DedupEntry} (hpb : pb1 = some pb ∨ pb2 = some pb)
    (he : e ∈ pb.entries) : e ∈ bufEntries pb1 ++ bufEntries pb2 := by
  rcases hpb with rfl | rfl
  · exact List.mem_append_left _ he
  · exact List.mem_append_right _ he

section

variable (hreached : ReachedBuffers pb1 pb2)
include hreached

section

variable (hblock : 0 < pv.vol.blockSize)
include hblock

theorem Kept.survives (hkept : Kept pv pb1 pb2) :
    Survives pb1 pb2 (dedupPendingLoad calloc (dedupPendingFlushAndFree pv pb1 pb2)) := by
  have hlength := length_saved_le hreached
  -- Without entries to save, nothing is loaded.
  have hnothing (hsaved : bufEntries pb1 ++ bufEntries pb2 = [])
      (hload : dedupPendingLoad calloc (dedupPendingFlushAndFree pv pb1 pb2) = none) :
      Survives pb1 pb2 (dedupPendingLoad calloc (dedupPendingFlushAndFree pv pb1 pb2)) := by
    rw [hload]
    refine ⟨fun pb hpb e he ↦ ?_, by rw [hsaved]; exact List.Perm.nil⟩
    have := mem_bufEntries hpb he
    rw [hsaved] at this
    cases this
  by_cases htotal : 0 < totalCount pb1 pb2
  · have hwhole (start : ℕ) (vol : Volume) (hstart : start ≠ 0)
        (halloc : (releasePending pv).allocBlocks (neededBlocks pv pb1 pb2) = some (start, vol)) :
        Survives pb1 pb2 (dedupPendingLoad calloc (dedupPendingFlushAndFree pv pb1 pb2)) := by
      rw [load_saved htotal hblock hreached halloc, if_neg hstart]
      have hdistinct : ((bufEntries pb1 ++ bufEntries pb2).map DedupEntry.hash).Nodup := by
        rw [List.map_append, List.nodup_append]
        refine ⟨nodup_bufEntries fun b hb ↦ hreached b (.inl hb),
          nodup_bufEntries fun b hb ↦ hreached b (.inr hb), ?_⟩
        intro x hx y hy
        obtain ⟨e, he, rfl⟩ := List.mem_map.mp hx
        obtain ⟨e', he', rfl⟩ := List.mem_map.mp hy
        exact hkept.distinct e he e' he'
      have hnonzero : ∀ e ∈ bufEntries pb1 ++ bufEntries pb2, e.hash ≠ 0 := by
        intro e he
        rcases List.mem_append.mp he with he | he
        · exact nonzero_bufEntries (fun b hb ↦ hreached b (.inl hb)) e he
        · exact nonzero_bufEntries (fun b hb ↦ hreached b (.inr hb)) e he
      obtain ⟨hwhole, hperm⟩ :=
        presizedWith_spec calloc (savedSectorSize pb1 pb2) hkept.few hnonzero hdistinct
      refine ⟨fun pb hpb e he ↦ ⟨_, rfl, ?_, ?_⟩, hperm⟩
      · rw [pendingLookup, if_neg (hnonzero e (mem_bufEntries hpb he))]
        exact (Table.find_eq_some_iff hwhole.settled).mpr
          ⟨hperm.mem_iff.mpr (mem_bufEntries hpb he), rfl⟩
      · rw [restorePending, presizedWith_sectorSize]
        exact (hkept.size pb hpb (List.ne_nil_of_mem he)).symm
    by_cases hsaved : bufEntries pb1 ++ bufEntries pb2 = []
    · cases halloc : (releasePending pv).allocBlocks (neededBlocks pv pb1 pb2) with
      | none => exact hnothing hsaved (load_refused htotal halloc)
      | some taken =>
        obtain ⟨start, vol⟩ := taken
        by_cases hstart : start = 0
        · refine hnothing hsaved ?_
          rw [load_saved htotal hblock hreached halloc, if_pos hstart]
        · exact hwhole start vol hstart halloc
    · obtain ⟨start, vol, halloc, hstart⟩ := hkept.room hsaved
      exact hwhole start vol hstart halloc
  · refine hnothing (List.eq_nil_of_length_eq_zero (by omega)) (load_clean htotal ?_)
    exact hkept.clean (by omega)

/-- What a load that finds something after a save has read. -/
theorem load_eq_some (htotal : 0 < totalCount pb1 pb2) {pb : PendingBuf}
    (hload : dedupPendingLoad calloc (dedupPendingFlushAndFree pv pb1 pb2) = some pb) :
    pb = restorePending calloc ⟨savedSectorSize pb1 pb2, bufEntries pb1 ++ bufEntries pb2⟩ ∧
      ∃ start vol, (releasePending pv).allocBlocks (neededBlocks pv pb1 pb2) = some (start, vol) ∧
        start ≠ 0 := by
  cases halloc : (releasePending pv).allocBlocks (neededBlocks pv pb1 pb2) with
  | none =>
    rw [load_refused htotal halloc] at hload
    cases hload
  | some taken =>
    obtain ⟨start, vol⟩ := taken
    rw [load_saved htotal hblock hreached halloc] at hload
    split_ifs at hload with hstart
    exact ⟨(Option.some.inj hload).symm, start, vol, rfl, hstart⟩

/-- An entry that survives was in a buffer with the sector size of the record. -/
theorem Survives.sectorSize (hsurvives : Survives pb1 pb2
      (dedupPendingLoad calloc (dedupPendingFlushAndFree pv pb1 pb2)))
    {pb : PendingBuf} (hpb : pb1 = some pb ∨ pb2 = some pb) (hne : pb.entries ≠ []) :
    pb.sectorSize = savedSectorSize pb1 pb2 := by
  obtain ⟨e, he⟩ := List.exists_mem_of_ne_nil _ hne
  have hlength := length_saved_le hreached
  have hpositive := List.length_pos_of_mem (mem_bufEntries hpb he)
  obtain ⟨pb', hload, -, hsize⟩ := hsurvives.found pb hpb e he
  obtain ⟨rfl, -⟩ := load_eq_some hreached hblock (by omega) hload
  rw [← hsize, restorePending, presizedWith_sectorSize]

theorem Survives.kept (hrecord : pv.Sound) (hsurvives : Survives pb1 pb2
      (dedupPendingLoad calloc (dedupPendingFlushAndFree pv pb1 pb2))) : Kept pv pb1 pb2 := by
  have hlength := length_saved_le hreached
  -- With entries to save, the load has read the record of the save.
  have hread (hsaved : bufEntries pb1 ++ bufEntries pb2 ≠ []) : (restorePending calloc
          ⟨savedSectorSize pb1 pb2, bufEntries pb1 ++ bufEntries pb2⟩).entries.Perm
          (bufEntries pb1 ++ bufEntries pb2) ∧
        ∃ start vol, (releasePending pv).allocBlocks (neededBlocks pv pb1 pb2) =
          some (start, vol) ∧ start ≠ 0 := by
    have hpositive := List.length_pos_of_ne_nil hsaved
    have hperm := hsurvives.perm
    cases hload : dedupPendingLoad calloc (dedupPendingFlushAndFree pv pb1 pb2) with
    | none =>
      rw [hload] at hperm
      exact absurd hperm.symm.eq_nil hsaved
    | some pb =>
      rw [hload] at hperm
      obtain ⟨rfl, hroom⟩ := load_eq_some hreached hblock (by omega) hload
      exact ⟨hperm, hroom⟩
  refine ⟨fun hsaved ↦ (hread hsaved).2, ?_, ?_, ?_, ?_⟩
  · intro pb hpb hne
    exact hsurvives.sectorSize hreached hblock hpb hne
  · intro e he e' he' hsame
    obtain ⟨hperm, -⟩ := hread (List.ne_nil_of_mem (List.mem_append_left _ he))
    have hnodup := (hperm.map DedupEntry.hash).nodup_iff.mp
      (presizedWith_reached calloc _ _).sound.settled.nodup
    rw [List.map_append, List.nodup_append] at hnodup
    exact hnodup.2.2 _ (List.mem_map_of_mem he) _ (List.mem_map_of_mem he') hsame
  · by_contra hmany
    have hsaved : bufEntries pb1 ++ bufEntries pb2 ≠ [] := by
      intro hnil
      rw [hnil] at hmany
      exact hmany (Nat.zero_le _)
    have hlost := length_presizedWith_lt calloc (savedSectorSize pb1 pb2)
      (Nat.lt_of_not_le hmany)
    have hsame := (hread hsaved).1.length_eq
    rw [restorePending] at hsame
    rw [hsame] at hlost
    exact Nat.lt_irrefl _ hlost
  · intro htotal
    by_contra hstale
    push Not at hstale
    obtain ⟨record, hrecord, hne, hfew, hnonzero, hnodup, hfits⟩ := hrecord hstale.1 hstale.2
    have hload : dedupPendingLoad calloc (dedupPendingFlushAndFree pv pb1 pb2) =
        some (restorePending calloc record) := by
      have hskip : dedupPendingFlushAndFree pv pb1 pb2 = pv := if_neg (by omega)
      rw [hskip, dedupPendingLoad, if_neg (not_or.mpr hstale)]
      simp only [hrecord]
      rw [if_neg (by omega)]
    obtain ⟨-, hperm⟩ := presizedWith_spec calloc record.sectorSize hfew hnonzero hnodup
    have hnone : bufEntries pb1 ++ bufEntries pb2 = [] := List.eq_nil_of_length_eq_zero (by omega)
    have hsame := hsurvives.perm
    rw [hload, hnone] at hsame
    exact hne (hperm.symm.trans hsame).eq_nil

end

end

/-- The entries of both buffers come back at the next mount if there is room for their record, no
two of them have one hash, those of either buffer have the sector size of the record, they are no
more than `3 * 2 ^ 28` and, without any, no record is left. Nothing less is enough. -/
theorem pending_remount (hreached : ReachedBuffers pb1 pb2) (hblock : 0 < pv.vol.blockSize) :
    (Kept pv pb1 pb2 →
        Survives pb1 pb2 (dedupPendingLoad calloc (dedupPendingFlushAndFree pv pb1 pb2))) ∧
      (pv.Sound →
        Survives pb1 pb2 (dedupPendingLoad calloc (dedupPendingFlushAndFree pv pb1 pb2)) →
        Kept pv pb1 pb2) :=
  ⟨fun hkept ↦ hkept.survives hreached hblock,
    fun hrecord hsurvives ↦ hsurvives.kept hreached hblock hrecord⟩

end Remount

/-! ### Two buffers -/

/-- A buffer with one entry. -/
def onePending (sectorSize hash : ℕ) : PendingBuf :=
  { pendingInsert (fun _ ↦ true) pendingCreate ⟨hash, 40, 8⟩ with sectorSize }

theorem onePending_reached (sectorSize hash : ℕ) : (onePending sectorSize hash).Reached :=
  .label _ (.insert _ _ .create)

/-- A volume of 64 blocks, the first ten of which are taken, without a record. -/
def roomyPendingVolume : PendingVolume where
  vol := ⟨4096, 64 * 4096, 0, 0, 10, fun lba ↦ lba < 10, fun _ ↦ .bytes []⟩
  pendingLba := 0
  pendingBlocks := 0
  record := fun _ ↦ none

theorem entries_onePending (sectorSize : ℕ) {hash : ℕ} (hhash : hash ≠ 0) :
    (onePending sectorSize hash).entries.Perm [⟨hash, 40, 8⟩] := by
  have hnone : pendingCreate.entries = [] := Table.entries_empty _
  obtain ⟨-, hperm, -⟩ := pendingCreate_whole.insert (e := ⟨hash, 40, 8⟩) hhash
    (by simp [hnone]) (show pendingCreate.Roomy fun _ ↦ true from .inl (by decide))
  rw [hnone] at hperm
  exact hperm

theorem reachedBuffers_one (sectorSize1 hash1 sectorSize2 hash2 : ℕ) :
    ReachedBuffers (some (onePending sectorSize1 hash1)) (some (onePending sectorSize2 hash2)) := by
  rintro pb (hpb | hpb)
  · obtain rfl := Option.some.inj hpb
    exact onePending_reached _ _
  · obtain rfl := Option.some.inj hpb
    exact onePending_reached _ _

theorem count_onePending (sectorSize hash : ℕ) (hhash : hash ≠ 0) :
    (onePending sectorSize hash).count = 1 := by
  have hinsert : pendingInsert (fun _ ↦ true) pendingCreate ⟨hash, 40, 8⟩ =
      pendingStore pendingCreate ⟨hash, 40, 8⟩ := by
    rw [pendingInsert, if_neg hhash, if_neg (by decide)]
  have hone : (pendingStore pendingCreate ⟨hash, 40, 8⟩).count = 1 := by
    simp [pendingStore, pendingCreate, pendingInitCap, Table.empty, Table.seek]
  exact (congrArg PendingBuf.count hinsert).trans hone

/-- The record of the two buffers needs one block, which the volume has. -/
theorem alloc_onePending : ∃ start vol, (releasePending roomyPendingVolume).allocBlocks
      (neededBlocks roomyPendingVolume (some (onePending 512 5)) (some (onePending 512 7))) =
        some (start, vol) ∧ start ≠ 0 := by
  have htotal : totalCount (some (onePending 512 5)) (some (onePending 512 7)) = 2 := by
    unfold totalCount bufCount
    simp only [Option.elim_some]
    rw [count_onePending 512 5 (by decide), count_onePending 512 7 (by decide)]
    decide
  have hneeded : neededBlocks roomyPendingVolume (some (onePending 512 5))
      (some (onePending 512 7)) = 1 := by
    rw [neededBlocks, htotal]
    decide
  rw [hneeded]
  exact ⟨10, _, rfl, by decide⟩

/-- Two buffers of one sector size come back. -/
theorem pending_remount_one : Survives (some (onePending 512 5)) (some (onePending 512 7))
      (dedupPendingLoad (fun _ ↦ true) (dedupPendingFlushAndFree roomyPendingVolume
        (some (onePending 512 5)) (some (onePending 512 7)))) := by
  have hperm1 := entries_onePending 512 (show 5 ≠ 0 by decide)
  have hperm2 := entries_onePending 512 (show 7 ≠ 0 by decide)
  refine (pending_remount (reachedBuffers_one 512 5 512 7) (Nat.zero_lt_succ 4095)).1
    ⟨?_, ?_, ?_, ?_, ?_⟩
  · intro hsaved
    exact alloc_onePending
  · rintro pb (hpb | hpb) hne
    · obtain rfl := Option.some.inj hpb
      simp [savedSectorSize, bufSectorSize, onePending]
    · obtain rfl := Option.some.inj hpb
      simp [savedSectorSize, bufSectorSize, onePending]
  · intro e he e' he'
    rw [bufEntries_some] at he he'
    obtain rfl := List.mem_singleton.mp (hperm1.mem_iff.mp he)
    obtain rfl := List.mem_singleton.mp (hperm2.mem_iff.mp he')
    decide
  · rw [bufEntries_some, bufEntries_some, (hperm1.append hperm2).length_eq]
    decide
  · intro htotal
    exact .inl rfl

/-- Of two buffers of different sector sizes one comes back under the size of the other. -/
theorem pending_remount_mixed : ¬Survives (some (onePending 512 5)) (some (onePending 2048 7))
      (dedupPendingLoad (fun _ ↦ true) (dedupPendingFlushAndFree roomyPendingVolume
        (some (onePending 512 5)) (some (onePending 2048 7)))) := by
  intro hsurvives
  have hne : (onePending 512 5).entries ≠ [] := by
    intro hnil
    have hperm := entries_onePending 512 (show 5 ≠ 0 by decide)
    rw [hnil] at hperm
    cases hperm.nil_eq
  have hsize := hsurvives.sectorSize (reachedBuffers_one 512 5 2048 7) (Nat.zero_lt_succ 4095)
    (.inl rfl) hne
  simp [savedSectorSize, bufSectorSize, onePending] at hsize

end Obmafs3
