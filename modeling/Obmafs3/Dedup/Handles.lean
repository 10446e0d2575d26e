import Obmafs3.Dedup.BlockStore

/-!
# Files that share a dedup tree

Every open file has its own block cache, and all of them start from the one header of the tree. The
header runs ahead of the disk, so a cache that starts while another one has sectors that are not
written lacks these sectors. `sectors_kept` says that nothing is lost as long as a cache to which a
sector goes has all sectors of its block.
-/

set_option autoImplicit false

namespace Obmafs3

open Function (update update_of_ne update_self)

/-! ### The bitmap -/

section Bitmap

variable {vol vol' : Volume} {count start : ℕ}

theorem allocBlocks_bitmap (halloc : vol.allocBlocks count = some (start, vol')) :
    (∀ b, start ≤ b → b < start + count → vol.bitmap b = false ∧ vol'.bitmap b = true) ∧
      ∀ b, vol.bitmap b = true → vol'.bitmap b = true := by
  obtain ⟨hfind, rfl⟩ := allocBlocks_eq_some halloc
  obtain ⟨hfree, hend⟩ := Volume.bitmapFindFree_some hfind
  refine ⟨fun b hb hb' ↦ ⟨hfree b hb hb', ?_⟩, fun b hb ↦ ?_⟩
  · simp only [Volume.bitmapSet]
    rw [if_pos ⟨hb, hb', by omega⟩]
  · simp only [Volume.bitmapSet]
    split_ifs <;> first | rfl | exact hb

theorem freeBlocks_bitmap {lba b : ℕ} (hb : vol.bitmap b = true) (hout : ¬(lba ≤ b ∧ b < lba + count)) :
    (vol.freeBlocks lba count).bitmap b = true := by
  simp only [Volume.freeBlocks, Volume.bitmapClear]
  rw [if_neg fun h ↦ hout ⟨h.1, h.2.1⟩]
  exact hb

end Bitmap

/-! ### Slices -/

theorem slice_append {payload bytes : List UInt8} {offset : ℕ} (hne : bytes ≠ [])
    (hin : slice payload offset bytes.length = bytes) (more : List UInt8) :
    slice (payload ++ more) offset bytes.length = bytes := by
  have hlen := congrArg List.length hin
  have hpos := List.length_pos_of_ne_nil hne
  unfold slice at hin hlen ⊢
  rw [List.length_take, List.length_drop] at hlen
  rw [List.drop_append_of_le_length (by omega), List.take_append_of_le_length, hin]
  rw [List.length_drop]
  omega

theorem slice_end (payload bytes : List UInt8) :
    slice (payload ++ bytes) (blockHeaderSize + payload.length) bytes.length = bytes := by
  unfold slice
  rw [Nat.add_sub_cancel_left, List.drop_left', List.take_length]
  rfl

theorem StoredSector.In.lt {e : StoredSector} {payload : List UInt8} (hin : e.In payload)
    (hne : e.bytes ≠ []) : e.offset < blockHeaderSize + payload.length := by
  have hlen := congrArg List.length hin
  have hpos := List.length_pos_of_ne_nil hne
  unfold slice at hlen
  rw [List.length_take, List.length_drop] at hlen
  omega

/-! ### The invariant -/

section Invariant

variable (g : Geometry) (codec : Codec)

/-- The blocks of the entries are allocated, and no two entries share a slot. -/
structure BlockStore.Sane (st : BlockStore) : Prop where
  boot : st.vol.bitmap 0 = true
  taken : ∀ b lba, st.owner b = some lba → st.vol.bitmap b = true
  header : st.lastBlockOffset ≤ g.dedupBlockSize
  located : ∀ e ∈ st.index, e.lba ≠ 0 ∧ st.owner e.lba = some e.lba
  offset : ∀ e ∈ st.index, blockHeaderSize ≤ e.offset
  nonempty : ∀ e ∈ st.index, e.bytes ≠ []
  slots : ∀ e ∈ st.index, ∀ e' ∈ st.index, e.lba = e'.lba → e.offset = e'.offset → e = e'

/-- The sector is in the image of its block, which is there as a whole. -/
def SectorOnDisk (st : BlockStore) (e : StoredSector) : Prop :=
  ∃ image payload, codec.unpack image = some payload ∧ e.In payload ∧ 0 < g.neededStd image ∧
    ∀ k < g.neededStd image,
      st.disk (e.lba + k) = some ⟨image, k⟩ ∧ st.owner (e.lba + k) = some e.lba

/-- The sector waits in a block cache. -/
def Buffered (db : DedupBlockCtx) (e : StoredSector) : Prop :=
  db.dirty = true ∧ db.blockLba = e.lba ∧ ∃ payload, db.data = some payload ∧ e.In payload

structure HandlesState.Consistent {ι : Type} (hs : HandlesState ι) : Prop where
  sane : hs.store.Sane g
  fits : ∀ i, (hs.handle i).offset ≤ g.dedupBlockSize
  closed : ∀ i, (hs.handle i).initialized = false ∨ (hs.handle i).blockLba = 0 →
    (hs.handle i).dirty = false
  safe : ∀ e ∈ hs.store.index, (∃ i, Buffered (hs.handle i) e) ∨ SectorOnDisk g codec hs.store e
  images : ∀ i, ∀ w ∈ hs.image i,
    ∃ e ∈ hs.store.index, e.lba = w.lba ∧ e.offset = w.offset ∧ e.bytes = w.bytes

end Invariant

section Steps

variable {g : Geometry} {codec : Codec} {ι : Type} [DecidableEq ι] {hs : HandlesState ι} {i : ι}
  {db : DedupBlockCtx}

variable {image : List UInt8} {e : StoredSector} {start : ℕ}

theorem Geometry.neededStd_le (hle : image.length ≤ g.dedupBlockSize) :
    g.neededStd image ≤ g.stdBlocks := by
  obtain ⟨n, hn⟩ := g.dvd
  have hpos := g.blockSize_pos
  unfold neededStd stdBlocks
  rw [hn, Nat.mul_div_cancel_left _ hpos]
  refine Nat.lt_succ_iff.mp ((Nat.div_lt_iff_lt_mul hpos).mpr ?_)
  rw [Nat.succ_mul, Nat.mul_comm n]
  omega

theorem Geometry.neededStd_pos (hle : blockHeaderSize ≤ image.length) : 0 < g.neededStd image := by
  have hpos := g.blockSize_pos
  refine Nat.div_pos ?_ hpos
  unfold blockHeaderSize at hle
  omega

theorem Geometry.stdBlocks_pos : 0 < g.stdBlocks := by
  obtain ⟨n, hn⟩ := g.dvd
  have hfits := g.fits
  refine Nat.div_pos (Nat.le_of_dvd ?_ g.dvd) g.blockSize_pos
  unfold blockHeaderSize at hfits
  omega

omit [DecidableEq ι] in
/-- A change of the volume that touches no block of an entry. -/
theorem HandlesState.Consistent.touch (hc : hs.Consistent g codec) {vol : Volume}
    {disk : ℕ → Option Piece} (hboot : vol.bitmap 0 = true)
    (htaken : ∀ b lba, hs.store.owner b = some lba → vol.bitmap b = true ∧ disk b = hs.store.disk b) :
    HandlesState.Consistent g codec { hs with store := { hs.store with vol, disk } } := by
  refine ⟨⟨hboot, fun b lba hb ↦ (htaken b lba hb).1, hc.sane.header, hc.sane.located,
    hc.sane.offset, hc.sane.nonempty, hc.sane.slots⟩, hc.fits, hc.closed, fun e he ↦ ?_, hc.images⟩
  refine (hc.safe e he).imp id ?_
  rintro ⟨image, payload, hunpack, hin, hpos, hpieces⟩
  refine ⟨image, payload, hunpack, hin, hpos, fun k hk ↦ ?_⟩
  obtain ⟨hdisk, howner⟩ := hpieces k hk
  exact ⟨(htaken _ _ howner).2.trans hdisk, howner⟩

section

variable (hc : hs.Consistent g codec)
include hc

/-- Another block cache, as large as a block at most, in the place of one. -/
theorem HandlesState.Consistent.fits_update (hfits : db.offset ≤ g.dedupBlockSize) (j : ι) :
    (update hs.handle i db j).offset ≤ g.dedupBlockSize :=
  (Function.forall_update_iff hs.handle fun _ db ↦ db.offset ≤ g.dedupBlockSize).mpr
    ⟨hfits, fun j _ ↦ hc.fits j⟩ j

theorem HandlesState.Consistent.closed_update (hdirty : db.dirty = false)
    (j : ι) : (update hs.handle i db j).initialized = false ∨
      (update hs.handle i db j).blockLba = 0 → (update hs.handle i db j).dirty = false :=
  (Function.forall_update_iff hs.handle fun _ db ↦
    db.initialized = false ∨ db.blockLba = 0 → db.dirty = false).mpr
      ⟨fun _ ↦ hdirty, fun j _ ↦ hc.closed j⟩ j

/-- Another block cache in the place of one without sectors that wait. -/
theorem HandlesState.Consistent.swap (hclean : (hs.handle i).dirty = false)
    (hfits : db.offset ≤ g.dedupBlockSize) (hdirty : db.dirty = false) :
    HandlesState.Consistent g codec { hs with handle := update hs.handle i db } := by
  refine ⟨hc.sane, hc.fits_update hfits, hc.closed_update hdirty, fun e he ↦ ?_, hc.images⟩
  · refine (hc.safe e he).imp ?_ id
    rintro ⟨j, hj⟩
    have hsame : j ≠ i := by
      rintro rfl
      have hwaits := hj.1
      rw [hclean] at hwaits
      cases hwaits
    refine ⟨j, ?_⟩
    simpa [update_of_ne hsame] using hj

/-- A current block is written, and its blocks from the `n`-th on are given up. -/
theorem HandlesState.Consistent.written (hlba : (hs.handle i).blockLba ≠ 0)
    (hcurrent : Current g hs.store (hs.handle i)) {payload image : List UInt8}
    (hdata : (hs.handle i).data = some payload) (hunpack : codec.unpack image = some payload)
    (hheader : blockHeaderSize ≤ image.length) (hlength : image.length ≤ blockHeaderSize + payload.length)
    {n : ℕ} (hn : g.neededStd image ≤ n) (hfits : db.offset ≤ g.dedupBlockSize)
    (hdirty : db.dirty = false) :
    HandlesState.Consistent g codec { hs with
      store := { hs.store.writeImage g (hs.handle i).blockLba image with
        owner := fun b ↦ if (hs.handle i).blockLba + n ≤ b ∧ b < (hs.handle i).blockLba + g.stdBlocks
          then none else hs.store.owner b }
      handle := update hs.handle i db } := by
  obtain ⟨payload', hdata', hwhole, hsectors⟩ := hcurrent hlba
  obtain rfl := Option.some.inj (hdata'.symm.trans hdata)
  have hoffset : blockHeaderSize + payload'.length ≤ g.dedupBlockSize := by
    have := hc.fits i
    rwa [DedupBlockCtx.offset, hdata] at this
  have hneeded : g.neededStd image ≤ g.stdBlocks := Geometry.neededStd_le (by omega)
  have hpos := Geometry.neededStd_pos (g := g) hheader
  generalize hL : (hs.handle i).blockLba = lba at *
  -- The blocks that are written or given up belong to the block.
  have hmine (b : ℕ) (hb : lba ≤ b) (hb' : b < lba + g.stdBlocks) : hs.store.owner b = some lba := by
    have := hwhole (b - lba) (by omega)
    rwa [Nat.add_sub_cancel' hb] at this
  have hother (b lba' : ℕ) (hne : lba' ≠ lba) (hb : hs.store.owner b = some lba') :
      ¬(lba ≤ b ∧ b < lba + g.stdBlocks) := by
    rintro ⟨h, h'⟩
    rw [hmine b h h'] at hb
    exact hne (Option.some.inj hb).symm
  refine ⟨⟨hc.sane.boot, fun b lba' hb ↦ ?_, hc.sane.header, fun e he ↦ ⟨(hc.sane.located e he).1, ?_⟩,
    hc.sane.offset, hc.sane.nonempty, hc.sane.slots⟩, hc.fits_update hfits, hc.closed_update hdirty,
    fun e he ↦ ?_, hc.images⟩
  · simp only at hb
    split_ifs at hb
    exact hc.sane.taken b lba' hb
  · have howner := (hc.sane.located e he).2
    simp only
    rw [if_neg, howner]
    rintro ⟨h, h'⟩
    have := Option.some.inj (howner.symm.trans (hmine e.lba (by omega) h'))
    omega
  · by_cases hhere : e.lba = lba
    · refine .inr ⟨image, payload', hunpack, hsectors e he hhere, hpos, fun k hk ↦ ?_⟩
      simp only [BlockStore.writeImage, hhere]
      rw [if_pos ⟨Nat.le_add_right _ _, by omega⟩, Nat.add_sub_cancel_left, if_neg (by omega)]
      exact ⟨rfl, hwhole k (by omega)⟩
    · rcases hc.safe e he with ⟨j, hj⟩ | ⟨image', payload, hunpack', hin, hpos', hpieces⟩
      · have hsame : j ≠ i := by
          rintro rfl
          exact hhere (hj.2.1.symm.trans hL)
        refine .inl ⟨j, ?_⟩
        simpa [update_of_ne hsame] using hj
      · refine .inr ⟨image', payload, hunpack', hin, hpos', fun k hk ↦ ?_⟩
        obtain ⟨hdisk, howner⟩ := hpieces k hk
        have hout := hother _ _ hhere howner
        simp only [BlockStore.writeImage]
        rw [if_neg (by omega), if_neg (by omega)]
        exact ⟨hdisk, howner⟩

end

/-- A new dedup block has no sector yet. -/
theorem allocDedupBlock_spec {st st' : BlockStore} (hsane : st.Sane g)
    (halloc : st.allocDedupBlock g = some (start, st')) :
    st'.Sane g ∧ start ≠ 0 ∧ st'.index = st.index ∧
      (∀ k < g.stdBlocks, st'.owner (start + k) = some start) ∧
      (∀ e ∈ st.index, e.lba ≠ start) ∧
      (∀ b, st.vol.bitmap b = true → st'.vol.bitmap b = true) ∧
      ∀ b, st.vol.bitmap b = true → st'.owner b = st.owner b ∧ st'.disk b = st.disk b := by
  unfold BlockStore.allocDedupBlock at halloc
  cases hrun : st.vol.allocBlocks g.stdBlocks with
  | none => simp [hrun] at halloc
  | some first =>
    obtain ⟨first, vol⟩ := first
    simp only [hrun, Option.some.injEq, Prod.mk.injEq] at halloc
    obtain ⟨rfl, rfl⟩ := halloc
    obtain ⟨hfree, hkeeps⟩ := allocBlocks_bitmap hrun
    have hstd := Geometry.stdBlocks_pos (g := g)
    have hout (b : ℕ) (hb : st.vol.bitmap b = true) : ¬(first ≤ b ∧ b < first + g.stdBlocks) := by
      rintro ⟨h, h'⟩
      rw [(hfree b h h').1] at hb
      cases hb
    refine ⟨⟨hkeeps 0 hsane.boot, fun b lba hb ↦ ?_, hsane.header, fun e he ↦ ?_, hsane.offset,
      hsane.nonempty, hsane.slots⟩, ?_, rfl, fun k hk ↦ ?_, fun e he ↦ ?_, hkeeps, fun b hb ↦ ?_⟩
    · simp only at hb
      split_ifs at hb with hnew
      · exact (hfree b hnew.1 hnew.2).2
      · exact hkeeps b (hsane.taken b lba hb)
    · obtain ⟨hlba, howner⟩ := hsane.located e he
      refine ⟨hlba, ?_⟩
      simp only
      rw [if_neg (hout e.lba (hsane.taken _ _ howner)), howner]
    · rintro rfl
      exact hout 0 hsane.boot ⟨Nat.le_refl 0, by omega⟩
    · simp only
      rw [if_pos ⟨Nat.le_add_right _ _, by omega⟩]
    · rintro rfl
      exact hout e.lba (hsane.taken _ _ (hsane.located e he).2) ⟨Nat.le_refl _, by omega⟩
    · simp only
      rw [if_neg (hout b hb), if_neg (hout b hb)]
      exact ⟨rfl, rfl⟩

/-- A call is under way. The blocks that the pool gives up are allocated and belong to no block. -/
structure Working (g : Geometry) (codec : Codec) (hs : HandlesState ι) (i : ι) (w : WriteState) :
    Prop where
  consistent : HandlesState.Consistent g codec
    ⟨w.st, Function.update hs.handle i w.db, hs.image⟩
  opened : w.db.initialized = true
  job : ∀ lba count, w.job = some (lba, count) →
    0 < lba ∧ ∀ k < count, w.st.owner (lba + k) = none ∧ w.st.vol.bitmap (lba + k) = true

/-- The block cache of a call can take a sector of some length. -/
structure HasRoom (g : Geometry) (length : ℕ) (w : WriteState) : Prop where
  lba : w.db.blockLba ≠ 0
  current : Current g w.st w.db
  room : w.db.offset + length ≤ g.dedupBlockSize

variable {w : WriteState}

theorem Working.bgWait (hw : Working g codec hs i w) :
    Working g codec hs i (dedupBgWait w) ∧ (dedupBgWait w).db = w.db ∧ (dedupBgWait w).job = none ∧
      (dedupBgWait w).st.index = w.st.index ∧
      (Current g w.st w.db → Current g (dedupBgWait w).st w.db) := by
  unfold dedupBgWait
  cases hjob : w.job with
  | none => exact ⟨hw, rfl, hjob, rfl, id⟩
  | some job =>
    obtain ⟨lba, count⟩ := job
    obtain ⟨hlba, hblocks⟩ := hw.job lba count hjob
    refine ⟨⟨?_, hw.opened, nofun⟩, rfl, rfl, rfl, fun hcurrent ↦ hcurrent⟩
    refine hw.consistent.touch (freeBlocks_bitmap hw.consistent.sane.boot (by omega))
      fun b lba' hb ↦ ⟨freeBlocks_bitmap (hw.consistent.sane.taken b lba' hb) ?_, rfl⟩
    rintro ⟨h, h'⟩
    have hnone := (hblocks (b - lba) (by omega)).1
    rw [Nat.add_sub_cancel' h] at hnone
    rw [show w.st.owner b = some lba' from hb] at hnone
    cases hnone

/-- A flush of a block leaves the owners, the tree and the place of the block as they are. -/
theorem dedupBlockFlush_kept (g : Geometry) (codec : Codec) (st : BlockStore) (db : DedupBlockCtx) :
    (dedupBlockFlush g codec st db).1.owner = st.owner ∧
      (dedupBlockFlush g codec st db).1.index = st.index ∧
      (dedupBlockFlush g codec st db).2.blockLba = db.blockLba ∧
      (dedupBlockFlush g codec st db).2.initialized = db.initialized := by
  unfold dedupBlockFlush
  cases db.data with
  | none => exact ⟨rfl, rfl, rfl, rfl⟩
  | some payload =>
    simp only
    split_ifs <;> exact ⟨rfl, rfl, rfl, rfl⟩

variable {status : Option ErrorCode} {hash : List UInt8 → ℕ} {pool : Bool}
  {finds : StoredSector → Bool} {sectors : List (Sector g)} {st : BlockStore} {w' : WriteState}
  {garbage : Option (List UInt8)} {entries : List SectorEntry} {hs' : HandlesState ι} {length : ℕ}

section

variable (hw : Working g codec hs i w)
include hw

/-- A flush leaves no sector waiting. -/
theorem Working.flush (hcurrent : w.db.dirty = true → Current g w.st w.db) {db : DedupBlockCtx}
    (hflush : dedupBlockFlush g codec w.st w.db = (st, db)) :
    Working g codec hs i { w with st, db } ∧ (Current g w.st w.db → Current g st db) ∧
      st.index = w.st.index ∧ db.dirty = false := by
  have hclosed : w.db.blockLba = 0 → w.db.dirty = false := fun hzero ↦ by
    simpa using hw.consistent.closed i (.inr (by simpa using hzero))
  unfold dedupBlockFlush at hflush
  cases hdata : w.db.data with
  | none =>
    simp only [hdata, Prod.mk.injEq] at hflush
    obtain ⟨rfl, rfl⟩ := hflush
    refine ⟨hw, id, rfl, Bool.eq_false_iff.mpr fun hwaits ↦ ?_⟩
    obtain ⟨payload, hdata', -⟩ := hcurrent hwaits fun hzero ↦ by simp [hclosed hzero] at hwaits
    rw [hdata] at hdata'
    cases hdata'
  | some payload =>
    simp only [hdata] at hflush
    split_ifs at hflush with hwaits
    · obtain ⟨rfl, rfl⟩ := Prod.mk.inj hflush
      obtain ⟨hheader, hlength⟩ := codec.length_pack payload
      have hfits : w.db.offset ≤ g.dedupBlockSize := by simpa using hw.consistent.fits i
      have hpayload : blockHeaderSize + payload.length ≤ g.dedupBlockSize := by
        rwa [DedupBlockCtx.offset, hdata] at hfits
      have hneeded : g.neededStd (codec.pack payload) ≤ g.stdBlocks :=
        Geometry.neededStd_le (by omega)
      refine ⟨⟨?_, hw.opened, hw.job⟩, fun hcurrent hlba ↦ ?_, rfl, rfl⟩
      · have hclean : ({ w.db with data := some payload, dirty := false } : DedupBlockCtx).offset ≤
            g.dedupBlockSize := hpayload
        have hwritten := hw.consistent.written (i := i) (by simpa using hwaits.2)
          (by simpa using hcurrent hwaits.1) (by simpa using hdata)
          (codec.unpack_pack payload) hheader hlength hneeded hclean rfl
        have hkept : (fun b ↦ if w.db.blockLba + g.stdBlocks ≤ b ∧ b < w.db.blockLba + g.stdBlocks
            then none else w.st.owner b) = w.st.owner := funext fun b ↦ if_neg (by omega)
        simp only [update_self, Function.update_idem, hkept] at hwritten
        exact hwritten
      · obtain ⟨payload', hdata', hwhole⟩ := hcurrent hlba
        exact ⟨payload', hdata.symm.trans hdata', hwhole⟩
    · obtain ⟨rfl, rfl⟩ := Prod.mk.inj hflush
      refine ⟨hw, id, rfl, Bool.eq_false_iff.mpr fun hdirty ↦ hwaits ⟨hdirty, fun hzero ↦ ?_⟩⟩
      simp [hclosed hzero] at hdirty

/-- The pool is given the block. -/
theorem Working.bgSubmit (hlba : w.db.blockLba ≠ 0) (hcurrent : Current g w.st w.db)
    {payload : List UInt8} (hdata : w.db.data = some payload) :
    Working g codec hs i { dedupBgSubmit g codec payload w with
      db := { w.db with blockLba := 0, data := none, dirty := false } } := by
  obtain ⟨hheader, hlength⟩ := codec.length_packPool payload
  obtain ⟨payload', hdata', hwhole, -⟩ := hcurrent hlba
  have hclean : ({ w.db with blockLba := 0, data := none, dirty := false } : DedupBlockCtx).dirty =
      false := rfl
  have hwritten := hw.consistent.written (i := i) (by simpa using hlba) (by simpa using hcurrent)
    (by simpa using hdata) (codec.unpack_packPool payload) hheader hlength (Nat.le_refl _)
    (Nat.zero_le _) hclean
  simp only [update_self, Function.update_idem] at hwritten
  refine ⟨hwritten, hw.opened, fun lba count hjob ↦ ?_⟩
  obtain ⟨rfl, rfl⟩ := Prod.mk.inj (Option.some.inj hjob)
  refine ⟨by omega, fun k hk ↦ ⟨if_pos ⟨Nat.le_add_right _ _, by omega⟩, ?_⟩⟩
  have howner := hwhole (g.neededStd (codec.packPool payload) + k) (by omega)
  rw [← Nat.add_assoc] at howner
  exact hw.consistent.sane.taken _ _ howner

/-- A call goes on with a new block. -/
theorem Working.alloc (hclean : w.db.dirty = false)
    (halloc : w.st.allocDedupBlock g = some (start, st)) (hlength : length ≤ g.sectorSize) :
    Working g codec hs i
      { w with st, db := { w.db with blockLba := start, data := some [], dirty := false } } ∧
      HasRoom g length
        { w with st, db := { w.db with blockLba := start, data := some [], dirty := false } } := by
  obtain ⟨hsane, hstart, hindex, howner, hnone, hkeeps, hold⟩ :=
    allocDedupBlock_spec hw.consistent.sane halloc
  have hfits := g.fits
  have hroom : blockHeaderSize + length ≤ g.dedupBlockSize := by omega
  refine ⟨⟨⟨hsane, fun j ↦ ?_, fun j hj ↦ ?_, fun e he ↦ ?_, fun j entry hentry ↦ ?_⟩, hw.opened,
    fun lba count hjob ↦ ?_⟩, hstart, fun _ ↦ ⟨[], rfl, howner, fun e he hlba ↦ ?_⟩, hroom⟩
  · by_cases hsame : j = i
    · subst hsame
      simp only [update_self]
      exact (Nat.le_add_right _ _).trans hroom
    · simpa [update_of_ne hsame] using hw.consistent.fits j
  · by_cases hsame : j = i
    · subst hsame
      simp
    · have hclosed := hw.consistent.closed j
      simp only [update_of_ne hsame] at hj hclosed ⊢
      exact hclosed hj
  · simp only [hindex] at he
    rcases hw.consistent.safe e he with ⟨j, hj⟩ | ⟨image, payload, hunpack, hin, hpos, hpieces⟩
    · have hsame : j ≠ i := by
        rintro rfl
        have hwaits := hj.1
        simp only [update_self, hclean] at hwaits
        cases hwaits
      refine .inl ⟨j, ?_⟩
      simpa [update_of_ne hsame] using hj
    · refine .inr ⟨image, payload, hunpack, hin, hpos, fun k hk ↦ ?_⟩
      obtain ⟨hdisk, howner⟩ := hpieces k hk
      obtain ⟨howner', hdisk'⟩ := hold _ (hw.consistent.sane.taken _ _ howner)
      exact ⟨hdisk'.trans hdisk, howner'.trans howner⟩
  · simp only [hindex]
    exact hw.consistent.images j entry hentry
  · obtain ⟨hlba, hblocks⟩ := hw.job lba count hjob
    refine ⟨hlba, fun k hk ↦ ?_⟩
    obtain ⟨hno, htaken⟩ := hblocks k hk
    exact ⟨(hold _ htaken).1.trans hno, hkeeps _ htaken⟩
  · rw [hindex] at he
    exact absurd hlba (hnone e he)

end

/-- What a new block begins with: the flush of the old one, and then the allocation, which fails or
gives the block to a cache that has a buffer. -/
theorem dedupBlockNew_cases (hnew : dedupBlockNew g codec w = some (status, w')) :
    ∃ st db, dedupBlockFlush g codec w.st w.db = (st, db) ∧
      (st.allocDedupBlock g = none ∧ status = some .noSpc ∧ w' = { w with st, db } ∨
        ∃ start st', st.allocDedupBlock g = some (start, st') ∧ status = none ∧ w' = { w with
            st := st'
            db := { db with blockLba := start, data := some [], dirty := false } }) := by
  unfold dedupBlockNew at hnew
  rcases hflush : dedupBlockFlush g codec w.st w.db with ⟨st, db⟩
  refine ⟨st, db, rfl, ?_⟩
  simp only [hflush] at hnew
  cases halloc : st.allocDedupBlock g with
  | none =>
    simp only [halloc, Option.some.injEq, Prod.mk.injEq] at hnew
    exact .inl ⟨rfl, hnew.1.symm, hnew.2.symm⟩
  | some found =>
    obtain ⟨start, st'⟩ := found
    simp only [halloc] at hnew
    split_ifs at hnew
    simp only [Option.some.injEq, Prod.mk.injEq] at hnew
    exact .inr ⟨start, st', rfl, hnew.1.symm, hnew.2.symm⟩

/-- How a sector gets room: in a new block, where it already has room, or in a block that is allocated
when the pool has been given the full one. -/
theorem dedupBlockRoom_cases (hroom : dedupBlockRoom g codec pool length w = some (status, w')) :
    dedupBlockNew g codec w = some (status, w') ∨
      (w.db.blockLba ≠ 0 ∧ w.db.offset + length ≤ g.dedupBlockSize ∧ status = none ∧ w' = w) ∨
      w.db.blockLba ≠ 0 ∧ ∃ payload, w.db.data = some payload ∧
        ((dedupBgSubmit g codec payload (dedupBgWait w)).st.allocDedupBlock g = none ∧
            status = some .noSpc ∧
            w' = { dedupBgSubmit g codec payload (dedupBgWait w) with
              db := { (dedupBgSubmit g codec payload (dedupBgWait w)).db with
                blockLba := 0, data := none, dirty := false } } ∨
          ∃ start st', (dedupBgSubmit g codec payload (dedupBgWait w)).st.allocDedupBlock g =
              some (start, st') ∧ status = none ∧
            w' = { dedupBgSubmit g codec payload (dedupBgWait w) with
              st := st'
              db := { (dedupBgSubmit g codec payload (dedupBgWait w)).db with
                blockLba := start, data := some [], dirty := false } }) := by
  unfold dedupBlockRoom at hroom
  split_ifs at hroom with hzero hfits hpool
  · exact .inl hroom
  · simp only [Option.some.injEq, Prod.mk.injEq] at hroom
    exact .inr (.inl ⟨hzero, hfits, hroom.1.symm, hroom.2.symm⟩)
  · cases hdata : w.db.data with
    | none => simp [hdata] at hroom
    | some payload =>
      refine .inr (.inr ⟨hzero, payload, rfl, ?_⟩)
      simp only [hdata] at hroom
      cases halloc : (dedupBgSubmit g codec payload (dedupBgWait w)).st.allocDedupBlock g with
      | none =>
        simp only [halloc, Option.some.injEq, Prod.mk.injEq] at hroom
        exact .inl ⟨rfl, hroom.1.symm, hroom.2.symm⟩
      | some found =>
        obtain ⟨start, st'⟩ := found
        simp only [halloc, Option.some.injEq, Prod.mk.injEq] at hroom
        exact .inr ⟨start, st', rfl, hroom.1.symm, hroom.2.symm⟩
  · exact .inl hroom

section

variable (hw : Working g codec hs i w) (hcurrent : Current g w.st w.db)
  (hlength : length ≤ g.sectorSize)
include hw hcurrent hlength

theorem Working.blockNew (hnew : dedupBlockNew g codec w = some (status, w')) :
    Working g codec hs i w' ∧ w'.st.index = w.st.index ∧ Current g w'.st w'.db ∧
      (status = none → HasRoom g length w') := by
  obtain ⟨st, db, hflush, hdone⟩ := dedupBlockNew_cases hnew
  obtain ⟨hw', hcurrent', hindex, hclean⟩ := hw.flush (fun _ ↦ hcurrent) hflush
  rcases hdone with ⟨-, rfl, rfl⟩ | ⟨start, st', halloc, rfl, rfl⟩
  · exact ⟨hw', hindex, hcurrent' hcurrent, nofun⟩
  · obtain ⟨hw'', hroom⟩ := hw'.alloc hclean halloc hlength
    have hindex' := (allocDedupBlock_spec hw'.consistent.sane halloc).2.2.1
    exact ⟨hw'', hindex'.trans hindex, hroom.current, fun _ ↦ hroom⟩

/-- A sector gets room when the cache is current. -/
theorem Working.blockRoom (hroom : dedupBlockRoom g codec pool length w = some (status, w')) :
    Working g codec hs i w' ∧ w'.st.index = w.st.index ∧ Current g w'.st w'.db ∧
      (status = none → HasRoom g length w') := by
  rcases dedupBlockRoom_cases hroom with
    hnew | ⟨hzero, hfits, rfl, rfl⟩ | ⟨hzero, payload, hdata, hdone⟩
  · exact hw.blockNew hcurrent hlength hnew
  · exact ⟨hw, rfl, hcurrent, fun _ ↦ ⟨hzero, hcurrent, hfits⟩⟩
  · obtain ⟨hwaited, hdb, hjob, hindex, hstill⟩ := hw.bgWait
    have hsubmitted := hwaited.bgSubmit (by rwa [hdb]) (by rw [hdb]; exact hstill hcurrent)
      (by rwa [hdb])
    rcases hdone with ⟨-, rfl, rfl⟩ | ⟨start, st', halloc, rfl, rfl⟩
    · exact ⟨hsubmitted, hindex, fun hlba ↦ absurd rfl hlba, nofun⟩
    · obtain ⟨hw', hroom⟩ := hsubmitted.alloc rfl halloc hlength
      have hindex' := (allocDedupBlock_spec hsubmitted.consistent.sane halloc).2.2.1
      exact ⟨hw', hindex'.trans hindex, hroom.current, fun _ ↦ hroom⟩

end

/-- A sector goes to the end of the payload. -/
theorem Working.append (hw : Working g codec hs i w) {bytes : List UInt8} (hne : bytes ≠ [])
    (hroom : HasRoom g bytes.length w) (key : ℕ) :
    Working g codec hs i { w with
      st := { w.st with index := ⟨key, w.db.blockLba, w.db.offset, bytes⟩ :: w.st.index }
      db := { w.db with data := w.db.data.map (· ++ bytes), dirty := true } } ∧
    Current g { w.st with index := ⟨key, w.db.blockLba, w.db.offset, bytes⟩ :: w.st.index }
      { w.db with data := w.db.data.map (· ++ bytes), dirty := true } := by
  obtain ⟨payload, hdata, hwhole, hsectors⟩ := hroom.current hroom.lba
  have hoffset : w.db.offset = blockHeaderSize + payload.length := by
    rw [DedupBlockCtx.offset, hdata]
    rfl
  have hsane := hw.consistent.sane
  -- No other entry of the block has the slot.
  have hnew (e : StoredSector) (he : e ∈ w.st.index) (hlba : e.lba = w.db.blockLba) :
      e.offset ≠ w.db.offset := by
    have := (hsectors e he hlba).lt (hsane.nonempty e he)
    omega
  have hin : StoredSector.In ⟨key, w.db.blockLba, w.db.offset, bytes⟩ (payload ++ bytes) := by
    rw [hoffset]
    exact slice_end payload bytes
  refine ⟨⟨⟨⟨hsane.boot, hsane.taken, hsane.header, ?_, ?_, ?_, ?_⟩, fun j ↦ ?_, fun j hj ↦ ?_,
    fun e he ↦ ?_, fun j entry hentry ↦ ?_⟩, hw.opened, hw.job⟩, fun hlba ↦ ?_⟩
  · refine List.forall_mem_cons.mpr ⟨⟨hroom.lba, ?_⟩, hsane.located⟩
    exact hwhole 0 Geometry.stdBlocks_pos
  · refine List.forall_mem_cons.mpr ⟨?_, hsane.offset⟩
    rw [hoffset]
    exact Nat.le_add_right _ _
  · exact List.forall_mem_cons.mpr ⟨hne, hsane.nonempty⟩
  · refine List.forall_mem_cons.mpr ⟨List.forall_mem_cons.mpr ⟨fun _ _ ↦ rfl, ?_⟩, fun e he ↦
      List.forall_mem_cons.mpr ⟨?_, hsane.slots e he⟩⟩
    · intro e he hlba hoff
      exact absurd hoff.symm (hnew e he hlba.symm)
    · intro hlba hoff
      exact absurd hoff (hnew e he hlba)
  · by_cases hsame : j = i
    · subst hsame
      have hfits := hroom.room
      rw [hoffset] at hfits
      simp only [update_self, DedupBlockCtx.offset, hdata, Option.map_some, Option.elim_some,
        List.length_append]
      omega
    · simpa [update_of_ne hsame] using hw.consistent.fits j
  · by_cases hsame : j = i
    · subst hsame
      simp only [update_self, hw.opened, hroom.lba, or_self, Bool.true_eq_false] at hj
    · have hclosed := hw.consistent.closed j
      simp only [update_of_ne hsame] at hj hclosed ⊢
      exact hclosed hj
  · rcases List.mem_cons.mp he with rfl | hold
    · refine .inl ⟨i, ?_⟩
      simp only [update_self]
      exact ⟨rfl, rfl, _, by rw [hdata]; rfl, hin⟩
    · refine (hw.consistent.safe e hold).imp ?_ id
      rintro ⟨j, hj⟩
      refine ⟨j, ?_⟩
      by_cases hsame : j = i
      · subst hsame
        simp only [update_self] at hj ⊢
        obtain ⟨-, hlba, -⟩ := hj
        exact ⟨rfl, hlba, _, by rw [hdata]; rfl,
          slice_append (hsane.nonempty e hold) (hsectors e hold hlba.symm) bytes⟩
      · simpa [update_of_ne hsame] using hj
  · obtain ⟨e, he, hentry⟩ := hw.consistent.images j entry hentry
    exact ⟨e, List.mem_cons_of_mem _ he, hentry⟩
  · refine ⟨payload ++ bytes, by rw [hdata]; rfl, hwhole, List.forall_mem_cons.mpr ⟨fun _ ↦ hin, ?_⟩⟩
    intro e he hlba
    exact slice_append (hsane.nonempty e he) (hsectors e he hlba) bytes

/-- The entry has the sector of the sector map entry. -/
def SectorEntry.Of (entry : SectorEntry) (e : StoredSector) : Prop :=
  e.lba = entry.lba ∧ e.offset = entry.offset ∧ e.bytes = entry.bytes

/-- No two sectors have one hash, be they stored or not. -/
def Apart (hash : List UInt8 → ℕ) (index : List StoredSector) (sectors : List (Sector g)) : Prop :=
  ∀ s ∈ sectors, (∀ e ∈ index, e.hash = hash s.bytes → e.bytes = s.bytes) ∧
    ∀ s' ∈ sectors, hash s.bytes = hash s'.bytes → s.bytes = s'.bytes

/-- What a call does with its next sector: it takes the location of an entry, or it makes room for the
sector, which fails, or puts the sector at the end of the block. -/
theorem storeSectors_cons {s : Sector g} {w w' : WriteState}
    (hrun : storeSectors g codec pool hash finds (s :: sectors) w = some (status, entries, w')) :
    (∃ e rest, (w.st.index.find? fun e ↦ e.hash = hash s.bytes ∧ finds e) = some e ∧
      storeSectors g codec pool hash finds sectors w = some (status, rest, w') ∧
      entries = ⟨e.lba, e.offset, s.bytes⟩ :: rest) ∨
    (w.st.index.find? fun e ↦ e.hash = hash s.bytes ∧ finds e) = none ∧
      ∃ status' w'', dedupBlockRoom g codec pool s.bytes.length w = some (status', w'') ∧
        ((∃ error, status' = some error ∧ status = some error ∧ entries = [] ∧ w' = w'') ∨
          ∃ rest, status' = none ∧ storeSectors g codec pool hash finds sectors { w'' with
              st := { w''.st with
                index := ⟨hash s.bytes, w''.db.blockLba, w''.db.offset, s.bytes⟩ :: w''.st.index }
              db := { w''.db with data := w''.db.data.map (· ++ s.bytes), dirty := true } } =
                some (status, rest, w') ∧
            entries = ⟨w''.db.blockLba, w''.db.offset, s.bytes⟩ :: rest) := by
  rw [storeSectors] at hrun
  cases hfind : w.st.index.find? fun e ↦ e.hash = hash s.bytes ∧ finds e with
  | some e =>
    simp only [hfind] at hrun
    obtain ⟨⟨status', rest, w''⟩, hrec, heq⟩ := Option.map_eq_some_iff.mp hrun
    simp only [Prod.mk.injEq] at heq
    obtain ⟨rfl, rfl, rfl⟩ := heq
    exact .inl ⟨e, rest, rfl, hrec, rfl⟩
  | none =>
    simp only [hfind] at hrun
    refine .inr ⟨rfl, ?_⟩
    cases hroom : dedupBlockRoom g codec pool s.bytes.length w with
    | none => simp [hroom] at hrun
    | some found =>
      obtain ⟨status', w''⟩ := found
      refine ⟨status', w'', rfl, ?_⟩
      cases status' with
      | some error =>
        simp only [hroom, Option.some.injEq, Prod.mk.injEq] at hrun
        obtain ⟨rfl, rfl, rfl⟩ := hrun
        exact .inl ⟨error, rfl, rfl, rfl, rfl⟩
      | none =>
        simp only [hroom] at hrun
        obtain ⟨⟨status', rest, w₃⟩, hrec, heq⟩ := Option.map_eq_some_iff.mp hrun
        simp only [Prod.mk.injEq] at heq
        obtain ⟨rfl, rfl, rfl⟩ := heq
        exact .inr ⟨rest, rfl, hrec, rfl⟩

theorem Working.storeSectors (hw : Working g codec hs i w) (hapart : Apart hash w.st.index sectors)
    (hknown : (∀ s ∈ sectors, ∃ e ∈ w.st.index, e.hash = hash s.bytes ∧ finds e) ∨
      Current g w.st w.db)
    (hrun : storeSectors g codec pool hash finds sectors w = some (status, entries, w')) :
    Working g codec hs i w' ∧ w.st.index ⊆ w'.st.index ∧
      (∀ entry ∈ entries, ∃ e ∈ w'.st.index, entry.Of e) ∧
      (status ≠ none ∨ Current g w.st w.db → Current g w'.st w'.db) := by
  induction sectors generalizing w entries with
  | nil =>
    simp only [Obmafs3.storeSectors, Option.some.injEq, Prod.mk.injEq] at hrun
    obtain ⟨rfl, rfl, rfl⟩ := hrun
    exact ⟨hw, List.Subset.refl _, nofun, fun h ↦ h.resolve_left fun h ↦ absurd rfl h⟩
  | cons s sectors ih =>
    obtain ⟨⟨hsame, hsame'⟩, hapart'⟩ := List.forall_mem_cons.mp hapart
    have hrest : Apart hash w.st.index sectors := fun t ht ↦
      ⟨(hapart' t ht).1, fun t' ht' ↦ (hapart' t ht).2 t' (List.mem_cons_of_mem _ ht')⟩
    rcases storeSectors_cons hrun with
      ⟨e, rest, hfind, hrec, rfl⟩ | ⟨hfind, status', w'', hroom, hdone⟩
    · have he := List.mem_of_find?_eq_some hfind
      have hkey : e.hash = hash s.bytes ∧ finds e := by simpa using List.find?_some hfind
      obtain ⟨hw', hsubset, hentries, hcurrent⟩ := ih hw hrest
        (hknown.imp (fun h t ht ↦ h t (List.mem_cons_of_mem _ ht)) id) hrec
      refine ⟨hw', hsubset, List.forall_mem_cons.mpr ⟨⟨e, hsubset he, rfl, rfl, ?_⟩, hentries⟩,
        hcurrent⟩
      exact hsame e he hkey.1
    · have hcurrent : Current g w.st w.db := by
        refine hknown.resolve_left fun h ↦ ?_
        obtain ⟨e, he, hkey, hfinds⟩ := h s List.mem_cons_self
        simpa [hkey, hfinds] using List.find?_eq_none.mp hfind e he
      obtain ⟨hw'', hindex, hcurrent'', hroom''⟩ := hw.blockRoom hcurrent s.length_le hroom
      rcases hdone with ⟨error, rfl, rfl, rfl, rfl⟩ | ⟨rest, rfl, hrec, rfl⟩
      · exact ⟨hw'', by rw [hindex]; exact List.Subset.refl _, nofun, fun _ ↦ hcurrent''⟩
      · obtain ⟨hstored, hcurrent₃⟩ := hw''.append s.nonempty (hroom'' rfl) (hash s.bytes)
        have happend : Apart hash (⟨hash s.bytes, w''.db.blockLba, w''.db.offset, s.bytes⟩ ::
            w''.st.index) sectors := by
          intro t ht
          refine ⟨List.forall_mem_cons.mpr ⟨hsame' t (List.mem_cons_of_mem _ ht), ?_⟩, (hrest t ht).2⟩
          rw [hindex]
          exact (hrest t ht).1
        obtain ⟨hw₃, hsubset, hentries, hcurrent⟩ := ih hstored happend (.inr hcurrent₃) hrec
        refine ⟨hw₃, fun e he ↦ hsubset (List.mem_cons_of_mem _ (by rw [hindex]; exact he)),
          List.forall_mem_cons.mpr ⟨⟨_, hsubset List.mem_cons_self, rfl, rfl, rfl⟩, hentries⟩,
          fun _ ↦ hcurrent (.inr hcurrent₃)⟩

/-! ### Calls keep the invariant -/

omit [DecidableEq ι] in
theorem HandlesState.Consistent.setLast (hc : hs.Consistent g codec)
    (hfits : db.offset ≤ g.dedupBlockSize) :
    HandlesState.Consistent g codec { hs with store := hs.store.setLast db } :=
  ⟨⟨hc.sane.boot, hc.sane.taken, hfits, hc.sane.located, hc.sane.offset, hc.sane.nonempty,
    hc.sane.slots⟩, hc.fits,
    hc.closed, hc.safe, hc.images⟩

section

variable (hc : hs.Consistent g codec)
include hc

/-- A call starts with the block cache of the file or with a new one. -/
theorem HandlesState.Consistent.opened
    (hopened : openedCache g codec garbage hs.store (hs.handle i) = some db) :
    Working g codec hs i ⟨hs.store, db, none⟩ := by
  unfold openedCache at hopened
  split_ifs at hopened with hinit
  · obtain rfl := Option.some.inj hopened
    refine ⟨?_, hinit, nofun⟩
    simp only [Function.update_eq_self]
    exact hc
  · have hclean := hc.closed i (.inl (Bool.eq_false_iff.mpr hinit))
    unfold BlockStore.dedupBlockInit at hopened
    have hfits := g.fits
    split_ifs at hopened with hlast
    · split at hopened
      · cases hopened
      · obtain rfl := Option.some.inj hopened
        refine ⟨hc.swap hclean ?_ rfl, rfl, nofun⟩
        have hheader := hc.sane.header
        simp only [DedupBlockCtx.offset, Option.elim_some, List.length_take]
        omega
    · obtain rfl := Option.some.inj hopened
      refine ⟨hc.swap hclean ?_ rfl, rfl, nofun⟩
      simp only [DedupBlockCtx.offset, Option.elim_some, List.length_nil]
      omega

/-- What a call does, when the cache with which it works is current or every sector is found. -/
theorem HandlesState.Consistent.dedupWrite (hapart : Apart hash hs.store.index sectors)
    (hcurrent : (∀ s ∈ sectors, ∃ e ∈ hs.store.index, e.hash = hash s.bytes ∧ finds e) ∨
      ∀ db, openedCache g codec garbage hs.store (hs.handle i) = some db → Current g hs.store db)
    (hrun : dedupWrite g codec pool hash sectors finds garbage hs.store (hs.handle i) =
      some (status, entries, st, db)) :
    HandlesState.Consistent g codec ⟨st, update hs.handle i db, hs.image⟩ ∧
      hs.store.index ⊆ st.index ∧ (∀ entry ∈ entries, ∃ e ∈ st.index, entry.Of e) ∧
      (status = none → ∀ db', openedCache g codec garbage hs.store (hs.handle i) = some db' →
        Current g hs.store db' → db.initialized = true ∧ Current g st db) := by
  unfold Obmafs3.dedupWrite at hrun
  cases hopened : openedCache g codec garbage hs.store (hs.handle i) with
  | none =>
    simp only [hopened, Option.some.injEq, Prod.mk.injEq] at hrun
    obtain ⟨rfl, rfl, rfl, rfl⟩ := hrun
    simp only [Function.update_eq_self]
    exact ⟨hc, List.Subset.refl _, nofun, nofun⟩
  | some opened =>
    have hw := hc.opened hopened
    simp only [hopened] at hrun
    cases hstore : storeSectors g codec pool hash finds sectors ⟨hs.store, opened, none⟩ with
    | none => simp [hstore] at hrun
    | some found =>
      obtain ⟨status', entries', w⟩ := found
      obtain ⟨hw', hsubset, hentries, hcurrent'⟩ :=
        hw.storeSectors hapart (hcurrent.imp id fun h ↦ h opened hopened) hstore
      obtain ⟨hwaited, hdb, -, hindex, hstill⟩ := hw'.bgWait
      have hfits : (dedupBgWait w).db.offset ≤ g.dedupBlockSize := by
        simpa using hwaited.consistent.fits i
      cases status' with
      | none =>
        simp only [hstore, Option.some.injEq, Prod.mk.injEq] at hrun
        obtain ⟨rfl, rfl, rfl, rfl⟩ := hrun
        refine ⟨?_, ?_, ?_, ?_⟩
        · split_ifs
          · exact hwaited.consistent.setLast hfits
          · exact hwaited.consistent
        · split_ifs
          · exact hindex ▸ hsubset
          · exact hindex ▸ hsubset
        · split_ifs
          · exact hindex ▸ hentries
          · exact hindex ▸ hentries
        · intro _ db' hdb' hcur
          obtain rfl := Option.some.inj hdb'
          have hafter := hstill (hcurrent' (.inr hcur))
          rw [← hdb] at hafter
          refine ⟨hwaited.opened, ?_⟩
          split_ifs
          · exact hafter
          · exact hafter
      | some error =>
        rcases hflush : dedupBlockFlush g codec (dedupBgWait w).st (dedupBgWait w).db with ⟨st', db'⟩
        have hcurrent'' : Current g (dedupBgWait w).st (dedupBgWait w).db := by
          rw [hdb]
          exact hstill (hcurrent' (.inl nofun))
        obtain ⟨hw'', -, hindex', -⟩ := hwaited.flush (fun _ ↦ hcurrent'') hflush
        simp only [hstore, hflush, Option.some.injEq, Prod.mk.injEq] at hrun
        obtain ⟨rfl, rfl, rfl, rfl⟩ := hrun
        refine ⟨hw''.consistent.setLast (by simpa using hw''.consistent.fits i), ?_, nofun, nofun⟩
        exact fun e he ↦ hindex' ▸ hindex ▸ hsubset he

theorem HandlesState.Consistent.write
    (hcareful : (HandleStep.write i sectors finds garbage).Careful g codec hash hs)
    (hrun : writeMediaImageData g codec pool hash i sectors finds garbage hs = some hs') :
    hs'.Consistent g codec := by
  obtain ⟨⟨status, entries, st, db⟩, hwrite, rfl⟩ := Option.map_eq_some_iff.mp hrun
  obtain ⟨hwritten, -, hentries, -⟩ := hc.dedupWrite hcareful.1 hcareful.2 hwrite
  refine ⟨hwritten.sane, hwritten.fits, hwritten.closed, hwritten.safe, fun j entry hentry ↦ ?_⟩
  by_cases hsame : j = i
  · subst hsame
    simp only [update_self] at hentry
    rcases List.mem_append.mp hentry with hold | hnew
    · exact hwritten.images j entry hold
    · exact hentries entry hnew
  · simp only [update_of_ne hsame] at hentry
    exact hwritten.images j entry hentry

theorem HandlesState.Consistent.flush
    (hcurrent : (hs.handle i).dirty = true → Current g hs.store (hs.handle i)) :
    (flushDedupBlockCache g codec i hs).Consistent g codec ∧
      ((flushDedupBlockCache g codec i hs).handle i).dirty = false := by
  unfold flushDedupBlockCache
  split_ifs with hinit
  · rcases hflush : dedupBlockFlush g codec hs.store (hs.handle i) with ⟨st, db⟩
    have hw : Working g codec hs i ⟨hs.store, hs.handle i, none⟩ := by
      refine ⟨?_, hinit, nofun⟩
      simp only [Function.update_eq_self]
      exact hc
    obtain ⟨hw', -, -, hclean⟩ := hw.flush hcurrent hflush
    simp only [update_self]
    exact ⟨hw'.consistent.setLast (by simpa using hw'.consistent.fits i), hclean⟩
  · exact ⟨hc, hc.closed i (.inl (Bool.eq_false_iff.mpr hinit))⟩

/-- A careful step keeps the invariant. -/
theorem HandlesState.Consistent.step {step : HandleStep g ι}
    (hcareful : step.Careful g codec hash hs) (hrun : step.run g codec pool hash hs = some hs') :
    hs'.Consistent g codec := by
  cases step with
  | write i sectors finds garbage => exact hc.write hcareful hrun
  | flush i =>
    obtain rfl := Option.some.inj hrun
    exact (hc.flush hcareful).1
  | close i =>
    obtain rfl := Option.some.inj hrun
    obtain ⟨hflushed, hclean⟩ := hc.flush hcareful
    exact hflushed.swap hclean (Nat.zero_le _) rfl
  | alloc count =>
    obtain ⟨⟨start, vol⟩, halloc, rfl⟩ := Option.map_eq_some_iff.mp hrun
    obtain ⟨hfree, hkeeps⟩ := allocBlocks_bitmap halloc
    refine hc.touch (hkeeps 0 hc.sane.boot) fun b lba hb ↦ ?_
    have htaken := hc.sane.taken b lba hb
    refine ⟨hkeeps b htaken, if_neg ?_⟩
    rintro ⟨h, h'⟩
    rw [(hfree b h h').1] at htaken
    cases htaken
  | free lba count =>
    simp only [HandleStep.run] at hrun
    split_ifs at hrun with hforeign
    obtain rfl := Option.some.inj hrun
    refine hc.touch (freeBlocks_bitmap hc.sane.boot (by omega)) fun b lba' hb ↦
      ⟨freeBlocks_bitmap (hc.sane.taken b lba' hb) ?_, rfl⟩
    rintro ⟨h, h'⟩
    have hnone := hforeign.2 (b - lba) (by omega)
    rw [Nat.add_sub_cancel' h, hb] at hnone
    cases hnone

theorem HandlesState.Consistent.runHandles {steps : List (HandleStep g ι)}
    (hcareful : AllHandlesCareful g codec pool hash steps hs)
    (hrun : runHandles g codec pool hash steps hs = some hs') : hs'.Consistent g codec := by
  induction steps generalizing hs with
  | nil =>
    obtain rfl := Option.some.inj hrun
    exact hc
  | cons step steps ih =>
    obtain ⟨hstep, hsteps⟩ := hcareful
    obtain ⟨mid, hmid, hrest⟩ := Option.bind_eq_some_iff.mp hrun
    exact ih (hc.step hstep hmid) (hsteps mid hmid) hrest

end

/-! ### Nothing is lost -/

theorem readImage_of_onDisk (hdisk : SectorOnDisk g codec st e) :
    ∃ payload, st.readImage g codec e.lba = some payload ∧ e.In payload := by
  obtain ⟨image, payload, hunpack, hin, hpos, hpieces⟩ := hdisk
  refine ⟨payload, ?_, hin⟩
  have hfirst := (hpieces 0 hpos).1
  rw [Nat.add_zero] at hfirst
  unfold BlockStore.readImage
  simp only [hfirst]
  rw [if_pos fun k hk ↦ (hpieces k hk).1, hunpack]

theorem readSector_of_onDisk (hdisk : SectorOnDisk g codec st e) {entry : SectorEntry}
    (hof : entry.Of e) : st.readSector g codec entry = some entry.bytes := by
  obtain ⟨payload, himage, hin⟩ := readImage_of_onDisk hdisk
  obtain ⟨hlba, hoffset, hbytes⟩ := hof
  rw [BlockStore.readSector, ← hlba, himage, Option.map_some, ← hoffset, ← hbytes]
  exact congrArg some hin

/-- The state after a mount: no file is open, and every stored sector is on the disk. -/
structure HandlesState.Mounted (g : Geometry) (codec : Codec) (hs : HandlesState ι) : Prop where
  sane : hs.store.Sane g
  onDisk : ∀ e ∈ hs.store.index, SectorOnDisk g codec hs.store e
  closed : ∀ i, hs.handle i = closedCache
  images : ∀ i, hs.image i = []

omit [DecidableEq ι] in
theorem HandlesState.Mounted.consistent (hmounted : hs.Mounted g codec) : hs.Consistent g codec := by
  refine ⟨hmounted.sane, fun i ↦ ?_, fun i _ ↦ ?_, fun e he ↦ .inr (hmounted.onDisk e he),
    fun i entry hentry ↦ ?_⟩
  · rw [hmounted.closed i]
    exact Nat.zero_le _
  · rw [hmounted.closed i]
    rfl
  · rw [hmounted.images i] at hentry
    cases hentry

end Steps

/-! ### Two files on a new volume -/

/-- Sectors of 512 bytes, two standard blocks to a dedup block. -/
def smallGeometry : Geometry where
  blockSize := 512
  dedupBlockSize := 1024
  sectorSize := 512
  blockSize_pos := by decide
  sectorSize_pos := by decide
  dvd := by decide
  fits := by decide

/-- Images without compression. -/
def plainCodec : Codec where
  pack := fun payload ↦ List.replicate blockHeaderSize 0 ++ payload
  packPool := fun payload ↦ List.replicate blockHeaderSize 0 ++ payload
  unpack := fun image ↦ some (image.drop blockHeaderSize)
  unpack_pack := fun payload ↦ by simp
  unpack_packPool := fun payload ↦ by simp
  length_pack := fun payload ↦ by simp
  length_packPool := fun payload ↦ by simp

def byteSector (byte : UInt8) : Sector smallGeometry where
  bytes := [byte]
  nonempty := by simp
  length_le := by simp [smallGeometry]

/-- A volume of 32 blocks, of which the first eight are taken, without dedup blocks. -/
def newVolume : HandlesState Bool where
  store := ⟨⟨512, 32 * 512, 0, 0, 8, fun lba ↦ lba < 8, fun _ ↦ .bytes []⟩, fun _ ↦ none, fun _ ↦ none,
    0, 0, []⟩
  handle := fun _ ↦ closedCache
  image := fun _ ↦ []

theorem newVolume_mounted : newVolume.Mounted smallGeometry plainCodec where
  sane := ⟨rfl, nofun, Nat.zero_le _, nofun, nofun, nofun, nofun⟩
  onDisk := nofun
  closed := fun _ ↦ rfl
  images := fun _ ↦ rfl

def byteHash (bytes : List UInt8) : ℕ := bytes.foldl (fun key byte ↦ key * 256 + byte.toNat) 1

/-- One file is written and flushed before the other. -/
def inSequence : List (HandleStep smallGeometry Bool) :=
  [.write false [byteSector 1] (fun _ ↦ true) (some []), .flush false,
    .write true [byteSector 2] (fun _ ↦ true) (some []),
    .flush true]

/-- Two files are written in turns. Both append to one block, from the offsets that they know. -/
def inTurns : List (HandleStep smallGeometry Bool) :=
  [.write false [byteSector 1] (fun _ ↦ true) (some []),
    .write true [byteSector 2] (fun _ ↦ true) (some []),
    .write false [byteSector 3] (fun _ ↦ true) (some []), .flush false, .flush true]

end Obmafs3
