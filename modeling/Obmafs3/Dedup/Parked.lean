import Obmafs3.Dedup.Handles

/-!
# Dedup trees that take turns

The trees of several sector sizes share a volume, and a file that changes from one sector size to
another closes the block of the one tree and goes on with the last block of the other. Meanwhile
that block is `Parked`: all its standard blocks are its own, and its sectors end before the offset
that the header of its tree has. Calls for other trees leave it alone, and a block cache that starts
from it has every sector that is in it.
-/

set_option autoImplicit false

namespace Obmafs3

/-- A block to which nobody appends. -/
structure Parked (g : Geometry) (st : BlockStore) (lba offset : ℕ) : Prop where
  whole : ∀ k < g.stdBlocks, st.owner (lba + k) = some lba
  covers : ∀ e ∈ st.index, e.lba = lba → e.offset + e.bytes.length ≤ offset

/-- The store as the tree whose last block is at an LBA sees it. -/
def BlockStore.resume (st : BlockStore) (last : ℕ × ℕ) : BlockStore :=
  { st with lastBlockLba := last.1, lastBlockOffset := last.2 }

variable {ι : Type} [DecidableEq ι] {g : Geometry} {codec : Codec} {hs : HandlesState ι} {i : ι}
  {w : WriteState} {lba offset : ℕ}

variable {status : Option ErrorCode} {st : BlockStore} {w' : WriteState} {pool : Bool}

variable {finds : StoredSector → Bool} {garbage : Option (List UInt8)} {entries : List SectorEntry}
  {hash : List UInt8 → ℕ} {sectors : List (Sector g)} {db : DedupBlockCtx}

/-- A block that is given up for another one is parked. -/
theorem Current.parked (hcurrent : Current g st db) (hsane : st.Sane g) (hlba : db.blockLba ≠ 0) :
    Parked g st db.blockLba db.offset := by
  obtain ⟨payload, hdata, hwhole, hsectors⟩ := hcurrent hlba
  refine ⟨hwhole, fun e he hblock ↦ ?_⟩
  have hlength := congrArg List.length (hsectors e he hblock)
  have hpos := List.length_pos_of_ne_nil (hsane.nonempty e he)
  have hoffset := hsane.offset e he
  unfold slice at hlength
  rw [List.length_take, List.length_drop] at hlength
  rw [DedupBlockCtx.offset, hdata]
  change _ ≤ blockHeaderSize + payload.length
  omega

/-! ### Calls for other trees -/

theorem Parked.alloc {st st' : BlockStore} (hparked : Parked g st lba offset) (hsane : st.Sane g)
    {start : ℕ} (halloc : st.allocDedupBlock g = some (start, st')) :
    Parked g st' lba offset ∧ lba ≠ start := by
  obtain ⟨-, -, hindex, -, -, -, hold⟩ := allocDedupBlock_spec hsane halloc
  refine ⟨⟨fun k hk ↦ ?_, by rw [hindex]; exact hparked.covers⟩, ?_⟩
  · have howner := hparked.whole k hk
    rw [(hold _ (hsane.taken _ _ howner)).1, howner]
  · rintro rfl
    unfold BlockStore.allocDedupBlock at halloc
    cases hrun : st.vol.allocBlocks g.stdBlocks with
    | none => simp [hrun] at halloc
    | some first =>
      simp only [hrun, Option.some.injEq, Prod.mk.injEq] at halloc
      have htaken := hsane.taken _ _ (hparked.whole 0 Geometry.stdBlocks_pos)
      have hfree := (allocBlocks_bitmap hrun).1 lba (Nat.le_of_eq halloc.1)
        (by have := Geometry.stdBlocks_pos (g := g); omega)
      rw [Nat.add_zero, hfree.1] at htaken
      cases htaken

theorem Parked.flush (hparked : Parked g st lba offset) (codec : Codec) (db : DedupBlockCtx) :
    Parked g (dedupBlockFlush g codec st db).1 lba offset := by
  obtain ⟨howner, hindex, -, -⟩ := dedupBlockFlush_kept g codec st db
  exact ⟨by rw [howner]; exact hparked.whole, by rw [hindex]; exact hparked.covers⟩

section

variable (hparked : Parked g w.st lba offset)
include hparked

theorem Parked.blockNew (hw : Working g codec hs i w)
    (hcurrent : Current g w.st w.db) (hne : lba ≠ w.db.blockLba)
    (hnew : dedupBlockNew g codec w = some (status, w')) :
    Parked g w'.st lba offset ∧ lba ≠ w'.db.blockLba := by
  obtain ⟨st, db, hflush, hdone⟩ := dedupBlockNew_cases hnew
  obtain ⟨hw', -, -, -⟩ := hw.flush (fun _ ↦ hcurrent) hflush
  have hparked' := hparked.flush codec w.db
  have hlba := (dedupBlockFlush_kept g codec w.st w.db).2.2.1
  rw [hflush] at hparked' hlba
  rcases hdone with ⟨-, rfl, rfl⟩ | ⟨start, st', halloc, rfl, rfl⟩
  · exact ⟨hparked', by rwa [hlba]⟩
  · exact hparked'.alloc hw'.consistent.sane halloc

theorem Parked.bgSubmit (codec : Codec)
    (hcurrent : Current g w.st w.db) (hopen : w.db.blockLba ≠ 0) (hne : lba ≠ w.db.blockLba)
    (payload : List UInt8) : Parked g (dedupBgSubmit g codec payload w).st lba offset := by
  obtain ⟨-, -, hwhole, -⟩ := hcurrent hopen
  refine ⟨fun k hk ↦ ?_, hparked.covers⟩
  change (if _ then none else w.st.owner (lba + k)) = some lba
  rw [if_neg, hparked.whole k hk]
  rintro ⟨hge, hlt⟩
  -- A standard block has one owner.
  have howner := hwhole (lba + k - w.db.blockLba) (by omega)
  rw [Nat.add_sub_cancel' (by omega), hparked.whole k hk] at howner
  exact hne (Option.some.inj howner)

variable (hlba : lba ≠ 0) (hw : Working g codec hs i w) (hcurrent : Current g w.st w.db)
  (hne : lba ≠ w.db.blockLba)
include hlba hw hcurrent hne

theorem Parked.blockRoom {length : ℕ}
    (hroom : dedupBlockRoom g codec pool length w = some (status, w')) :
    Parked g w'.st lba offset ∧ lba ≠ w'.db.blockLba := by
  rcases dedupBlockRoom_cases hroom with hnew | ⟨-, -, rfl, rfl⟩ | ⟨hzero, payload, hdata, hdone⟩
  · exact hparked.blockNew hw hcurrent hne hnew
  · exact ⟨hparked, hne⟩
  · obtain ⟨hwaited, hdb, -, hindex, hstill⟩ := hw.bgWait
    have hparked' : Parked g (dedupBgWait w).st lba offset := by
      refine ⟨fun k hk ↦ ?_, by rw [hindex]; exact hparked.covers⟩
      rw [← hparked.whole k hk]
      unfold dedupBgWait
      split <;> rfl
    have hcurrent' : Current g (dedupBgWait w).st (dedupBgWait w).db := by
      rw [hdb]
      exact hstill hcurrent
    rw [← hdb] at hne hzero hdata
    have hsubmitted := hparked'.bgSubmit codec hcurrent' hzero hne payload
    have hw' := hwaited.bgSubmit hzero hcurrent' hdata
    rcases hdone with ⟨-, rfl, rfl⟩ | ⟨start, st', halloc, rfl, rfl⟩
    · exact ⟨hsubmitted, hlba⟩
    · exact hsubmitted.alloc hw'.consistent.sane halloc

theorem Parked.storeSectors
    (hrun : storeSectors g codec pool hash finds sectors w = some (status, entries, w')) :
    Parked g w'.st lba offset ∧ lba ≠ w'.db.blockLba := by
  induction sectors generalizing w entries with
  | nil =>
    simp only [Obmafs3.storeSectors, Option.some.injEq, Prod.mk.injEq] at hrun
    obtain ⟨-, -, rfl⟩ := hrun
    exact ⟨hparked, hne⟩
  | cons s sectors ih =>
    rcases storeSectors_cons hrun with ⟨e, rest, -, hrec, rfl⟩ | ⟨-, status', w'', hroom, hdone⟩
    · exact ih hparked hw hcurrent hne hrec
    · obtain ⟨hparked', hne'⟩ := hparked.blockRoom hlba hw hcurrent hne hroom
      obtain ⟨hw'', -, -, hroom''⟩ := hw.blockRoom hcurrent s.length_le hroom
      rcases hdone with ⟨error, rfl, rfl, rfl, rfl⟩ | ⟨rest, rfl, hrec, rfl⟩
      · exact ⟨hparked', hne'⟩
      · obtain ⟨hstored, hcurrent₃⟩ := hw''.append s.nonempty (hroom'' rfl) (hash s.bytes)
        have hparked₃ : Parked g { w''.st with
            index := ⟨hash s.bytes, w''.db.blockLba, w''.db.offset, s.bytes⟩ :: w''.st.index }
            lba offset := by
          refine ⟨hparked'.whole, fun e he hblock ↦ ?_⟩
          rcases List.mem_cons.mp he with rfl | he
          · exact absurd hblock.symm hne'
          · exact hparked'.covers e he hblock
        exact ih hparked₃ hstored hcurrent₃ hne' hrec

end

theorem Parked.dedupWrite (hparked : Parked g hs.store lba offset) (hlba : lba ≠ 0)
    (hc : hs.Consistent g codec) {opened db : DedupBlockCtx}
    (hopened : openedCache g codec garbage hs.store (hs.handle i) = some opened)
    (hcurrent : Current g hs.store opened) (hne : lba ≠ opened.blockLba)
    (hrun : dedupWrite g codec pool hash sectors finds garbage hs.store (hs.handle i) =
      some (none, entries, st, db)) : Parked g st lba offset ∧ lba ≠ db.blockLba := by
  have hw := hc.opened hopened
  unfold Obmafs3.dedupWrite at hrun
  simp only [hopened] at hrun
  cases hstore : Obmafs3.storeSectors g codec pool hash finds sectors ⟨hs.store, opened, none⟩ with
  | none => simp [hstore] at hrun
  | some found =>
    obtain ⟨status, entries', w⟩ := found
    cases status with
    | some error => simp [hstore] at hrun
    | none =>
      simp only [hstore, Option.some.injEq, Prod.mk.injEq, true_and] at hrun
      obtain ⟨-, rfl, rfl⟩ := hrun
      obtain ⟨hstored, hne'⟩ := hparked.storeSectors hlba hw hcurrent hne hstore
      have howner : (dedupBgWait w).st.owner = w.st.owner ∧
          (dedupBgWait w).st.index = w.st.index ∧ (dedupBgWait w).db = w.db := by
        unfold dedupBgWait
        split <;> exact ⟨rfl, rfl, rfl⟩
      obtain ⟨howner, hindex, hdb⟩ := howner
      refine ⟨?_, by rwa [hdb]⟩
      split_ifs
      · exact ⟨by rw [BlockStore.setLast, howner]; exact hstored.whole,
          by rw [BlockStore.setLast, hindex]; exact hstored.covers⟩
      · exact ⟨by rw [howner]; exact hstored.whole, by rw [hindex]; exact hstored.covers⟩

/-! ### A block cache that starts again -/

theorem slice_take {payload bytes : List UInt8} {start length : ℕ} (hheader : blockHeaderSize ≤ start)
    (hin : slice payload start bytes.length = bytes)
    (hfit : start + bytes.length ≤ blockHeaderSize + length) :
    slice (payload.take length) start bytes.length = bytes := by
  unfold slice at hin ⊢
  rw [List.drop_take, List.take_take, Nat.min_eq_left (by omega), hin]

/-- A block cache that starts from a parked block, whose sectors are on the disk, is current. -/
theorem Parked.resume {last : ℕ × ℕ} (hsane : st.Sane g)
    (hparked : last.1 ≠ 0 → Parked g st last.1 last.2)
    (hdisk : ∀ e ∈ st.index, e.lba = last.1 → SectorOnDisk g codec st e)
    (hopened : (st.resume last).dedupBlockInit g codec garbage = some db) :
    db.blockLba = last.1 ∧ Current g st db := by
  unfold BlockStore.dedupBlockInit at hopened
  split_ifs at hopened with hzero
  · have hzero : last.1 ≠ 0 := hzero
    split at hopened
    · cases hopened
    · rename_i payload hread
      have hread : (st.readImage g codec last.1).or garbage = some payload := hread
      obtain rfl := Option.some.inj hopened
      refine ⟨rfl, fun _ ↦ ⟨_, rfl, (hparked hzero).whole, fun e he hblock ↦ ?_⟩⟩
      obtain ⟨payload', himage, hin⟩ := readImage_of_onDisk (hdisk e he hblock)
      have hsame : payload = payload' := by
        rw [← show e.lba = last.1 from hblock, himage, Option.some_or] at hread
        exact (Option.some.inj hread).symm
      subst hsame
      have hcovers := (hparked hzero).covers e he hblock
      have hoffset := hsane.offset e he
      refine slice_take hoffset (slice_append (hsane.nonempty e he) hin _) ?_
      change _ ≤ blockHeaderSize + (last.2 - blockHeaderSize)
      omega
  · obtain rfl := Option.some.inj hopened
    have hlast : last.1 = 0 := not_not.mp hzero
    exact ⟨hlast.symm, fun h ↦ absurd rfl h⟩

end Obmafs3
