import Obmafs3.Defrag.DataBlocks

/-!
# What the phase of file data keeps

`data_blocks_preserved` says that the phase keeps what it should if it moves no shared extent, and
finds a place for each dedup block in its way, which is not the last one of a tree; and that a phase
that evicts dedup blocks in this way keeps what it should only if it moves no shared extent.
-/

set_option autoImplicit false

namespace Obmafs3.Defrag

open Library.Runs
open CompactState (Slot)

/-! ### The condition -/

namespace CompactState

/-- The place that an extent is moved to, if it is. -/
def target (slot : Slot) (st : CompactState) : Option ℕ :=
  match st.run slot with
  | none => none
  | some e =>
    if e.startBlock = 0 ∨ e.blockCount = 0 ∨ e.startBlock ≤ st.writeCursor then none
    else st.usableRange e.blockCount e.startBlock (st.totalBlocks + 1) st.writeCursor

/-- Each dedup block in a run finds a place, and its header knows all its blocks. -/
def EvictsCleanly (dedup : List DedupBlock) (pos count : ℕ) : (fuel i : ℕ) → CompactState → Prop
  | 0, _, _ => True
  | fuel + 1, i, st =>
    if count ≤ i then True
    else if ¬st.isDedup (pos + i) then EvictsCleanly dedup pos count fuel (i + 1) st
    else
      let base := runStart st.isDedup (pos + i)
      ∀ header, (st.disk base).header = some header →
        let blocks := physBlocks st.blockSize header
        let found := st.findFreeRangeAtEnd blocks (pos + count)
        found.1 ≠ 0 ∧ (∀ d ∈ dedup, st.addressOf d = base → blocks = d.owned) ∧
          EvictsCleanly dedup pos count fuel (nextSlot pos i base blocks)
            (evict base found.1 blocks { st with rangeCursor := found.2 })

/-- The dedup blocks in the way of an extent are evicted cleanly. -/
def ClearsCleanly (dedup : List DedupBlock) (slot : Slot) (st : CompactState) : Prop :=
  ∀ e pos, st.run slot = some e → st.target slot = some pos →
    EvictsCleanly dedup pos e.blockCount (st.evictRounds e.blockCount) 0 st

/-- An extent that is moved has no block with a count other than one. -/
def MovesUnshared (refcount : ℕ → ℕ) (slot : Slot) (st : CompactState) : Prop :=
  ∀ e pos, st.run slot = some e → st.target slot = some pos → ∀ lba, Covers e lba → refcount lba = 1

/-- A condition on the states in which extents are looked at. -/
def Along (condition : Slot → CompactState → Prop) : List Slot → CompactState → Prop
  | [], _ => True
  | slot :: slots, st =>
    condition slot st ∧ ∀ st', st.placeSlot slot = some st' → Along condition slots st'

/-- A condition on the states of the phase. -/
def DuringDataBlocks (condition : Slot → CompactState → Prop) (seen : Option ℕ)
    (st : CompactState) : Prop :=
  Along condition (st.dataSlots seen) { st with writeCursor := 1 }

end CompactState

/-! ### Searches -/

section Searches

variable {dedup : List DedupBlock} {refcount : ℕ → ℕ} {st st' : CompactState}
  {pos count notPast : ℕ}

theorem scanRangeAtEnd_spec {bitmap : ℕ → Bool} {notBefore fuel cursor : ℕ}
    (hfound : (CompactState.scanRangeAtEnd bitmap count notBefore fuel cursor).1 ≠ 0) :
    notBefore < (CompactState.scanRangeAtEnd bitmap count notBefore fuel cursor).1 ∧
      (CompactState.scanRangeAtEnd bitmap count notBefore fuel cursor).1 + count ≤ cursor + 1 ∧
      ∀ b < count,
        bitmap ((CompactState.scanRangeAtEnd bitmap count notBefore fuel cursor).1 + b) = false := by
  induction fuel generalizing cursor with
  | zero => exact absurd rfl hfound
  | succ fuel ih =>
    rw [CompactState.scanRangeAtEnd] at hfound ⊢
    by_cases hroom : notBefore + count ≤ cursor
    · rw [if_pos hroom] at hfound ⊢
      dsimp only at hfound ⊢
      by_cases hall : (List.range count).all fun j ↦ !bitmap (cursor + 1 - count + j)
      · rw [if_pos hall] at hfound ⊢
        refine ⟨by dsimp only; omega, by dsimp only; omega, fun b hb ↦ ?_⟩
        have hfree := List.all_eq_true.mp hall b (List.mem_range.mpr hb)
        simpa using hfree
      · rw [if_neg hall] at hfound ⊢
        by_cases hbase : cursor + 1 - count = 0
        · rw [if_pos hbase] at hfound
          exact absurd rfl hfound
        · rw [if_neg hbase] at hfound ⊢
          obtain ⟨hbefore, hend, hfree⟩ := ih hfound
          exact ⟨hbefore, by omega, hfree⟩
    · rw [if_neg hroom] at hfound
      exact absurd rfl hfound

/-- A place at the end of the volume is free, and behind the block before which none was wanted. -/
theorem findFreeRangeAtEnd_spec (hst : Consistent dedup refcount st) {notBefore : ℕ}
    (hfound : (st.findFreeRangeAtEnd count notBefore).1 ≠ 0) (hcount : 0 < count) :
    notBefore < (st.findFreeRangeAtEnd count notBefore).1 ∧
      st.FreeRun (st.findFreeRangeAtEnd count notBefore).1 count := by
  have hscan := scanRangeAtEnd_spec hfound
  rw [← CompactState.findFreeRangeAtEnd] at hscan
  obtain ⟨hbefore, hend, hfree⟩ := hscan
  refine ⟨hbefore, fun lba hlba ↦ ?_⟩
  obtain ⟨b, hb, rfl⟩ := hlba.exists_add
  have hlt : (st.findFreeRangeAtEnd count notBefore).1 + b < st.totalBlocks := by
    split_ifs at hend <;> omega
  exact ⟨hlt, (hst.marked _ hlt).mp (hfree b hb)⟩

theorem immovable_eq_false {lba : ℕ} (hlba : st.immovable lba = false) :
    st.blockTypes lba = .free ∨ st.blockTypes lba = .dedup := by
  unfold CompactState.immovable at hlba
  cases htype : st.blockTypes lba <;> simp_all

theorem immovable_of_used {lba : ℕ} (hlba : st.blockTypes lba = .used) : st.immovable lba = true := by
  rw [CompactState.immovable, hlba]

/-- A place for a run has no immovable block, and an immovable block stands in front of it if it is
not where the search began. -/
theorem usableRange_spec {fuel start : ℕ}
    (hpos : st.usableRange count notPast fuel start = some pos) :
    start ≤ pos ∧ pos + count ≤ st.totalBlocks ∧ pos + count ≤ notPast ∧
      (∀ i < count, st.immovable (pos + i) = false) ∧
      (pos = start ∨ ∃ q, pos = q + 1 ∧ st.immovable q = true) := by
  induction fuel generalizing start with
  | zero => cases hpos
  | succ fuel ih =>
    rw [CompactState.usableRange] at hpos
    by_cases hroom : start + count ≤ st.totalBlocks ∧ start + count ≤ notPast
    · rw [if_pos hroom] at hpos
      cases hfind : (List.range count).find? fun i ↦ st.immovable (start + i) with
      | none =>
        rw [hfind, Option.some.injEq] at hpos
        subst hpos
        rw [List.find?_eq_none] at hfind
        exact ⟨le_rfl, hroom.1, hroom.2,
          fun i hi ↦ Bool.not_eq_true _ ▸ hfind i (List.mem_range.mpr hi), Or.inl rfl⟩
      | some i =>
        rw [hfind] at hpos
        obtain ⟨hstart, htotal, hpast, hfree, hbefore⟩ := ih hpos
        refine ⟨by omega, htotal, hpast, hfree, Or.inr ?_⟩
        rcases hbefore with rfl | hbefore
        · have himmovable : st.immovable (start + i) = true := by
            simpa using List.find?_some hfind
          exact ⟨start + i, rfl, himmovable⟩
        · exact hbefore
    · rw [if_neg hroom] at hpos
      cases hpos

end Searches

/-! ### Clearing a run -/

section Clear

variable {dedup : List DedupBlock} {refcount : ℕ → ℕ} {st st' st'' : CompactState}
  {pos count : ℕ}

/-- What evictions leave as it is. -/
structure Unmoved (st st' : CompactState) : Prop where
  run : ∀ slot, st'.run slot = st.run slot
  cursor : st'.writeCursor = st.writeCursor
  fixed : ∀ lba, st.immovable lba = true → st'.immovable lba = true

theorem Unmoved.refl (st : CompactState) : Unmoved st st := ⟨fun _ ↦ rfl, rfl, fun _ h ↦ h⟩

theorem Unmoved.trans (hfirst : Unmoved st st') (hsecond : Unmoved st' st'') : Unmoved st st'' where
  run := fun slot ↦ (hsecond.run slot).trans (hfirst.run slot)
  cursor := hsecond.cursor.trans hfirst.cursor
  fixed := fun lba h ↦ hsecond.fixed lba (hfirst.fixed lba h)

/-- The cursor of the search at the end is not part of the volume. -/
theorem Consistent.rangeCursor (hst : Consistent dedup refcount st) (cursor : ℕ) :
    Consistent dedup refcount { st with rangeCursor := cursor } :=
  ⟨hst.blockSize_pos, hst.superblock, hst.marked, hst.extents, hst.shared, hst.home, hst.header,
    hst.apart, hst.live⟩

theorem Keeps.rangeCursor (dedup : List DedupBlock) (refcount : ℕ → ℕ) (st : CompactState)
    (cursor : ℕ) : Keeps dedup refcount st { st with rangeCursor := cursor } :=
  ⟨⟨rfl, rfl⟩, rfl, rfl, fun _ e he ↦ ⟨e, he, rfl, fun _ _ _ ↦ rfl⟩, fun _ _ _ _ ↦ rfl⟩

theorem CompactState.FreeRun.apart {base dst : ℕ} (hfree : st.FreeRun dst count)
    (hbase : ∀ b < count, st.blockTypes (base + b) = .dedup) (lba : ℕ) (hlba : InRun dst count lba) :
    ¬InRun base count lba := by
  intro h
  obtain ⟨b, hb, rfl⟩ := h.exists_add
  have htype := hbase b hb
  rw [(hfree _ hlba).2] at htype
  cases htype

/-- An eviction changes no type but from dedup and from free. -/
theorem immovable_evict {base dst : ℕ} (hbase : ∀ b < count, st.blockTypes (base + b) = .dedup)
    (hfree : st.FreeRun dst count) {lba : ℕ} (hlba : st.immovable lba = true) :
    (st.evict base dst count).immovable lba = true := by
  have hsrc : ¬InRun base count lba := by
    intro h
    obtain ⟨b, hb, rfl⟩ := h.exists_add
    rw [CompactState.immovable, hbase b hb] at hlba
    cases hlba
  have hdst : ¬InRun dst count lba := by
    intro h
    rw [CompactState.immovable, (hfree lba h).2] at hlba
    cases hlba
  rw [CompactState.immovable, blockTypes_evict (hfree.apart hbase), if_neg hsrc, if_neg hdst]
  exact hlba

/-- A run with the dedup blocks evicted in front of a slot. The block in front of the run is of no
dedup block, so that a dedup block that is met begins where it is met. -/
structure ClearedTo (pos count i : ℕ) (st : CompactState) : Prop where
  before : ∃ q, pos = q + 1 ∧ st.immovable q = true
  movable : ∀ j < count, st.immovable (pos + j) = false
  cleared : ∀ j < count, j < i → st.blockTypes (pos + j) = .free

theorem ClearedTo.base {i : ℕ} (hcleared : ClearedTo pos count i st) (hi : i < count)
    (hdedup : st.isDedup (pos + i) = true) : runStart st.isDedup (pos + i) = pos + i := by
  refine le_antisymm (runStart_le _ _) ?_
  by_contra hlt
  obtain ⟨q, rfl, hq⟩ := hcleared.before
  cases i with
  | zero =>
    have hall : st.isDedup q = true := runStart_all (i := q + 1 + 0) (by omega) (by omega)
    rw [CompactState.immovable, of_decide_eq_true hall] at hq
    cases hq
  | succ i =>
    have hall : st.isDedup (q + 1 + i) = true :=
      runStart_all (i := q + 1 + (i + 1)) (by omega) (by omega)
    have hfree := hcleared.cleared i (by omega) (Nat.lt_succ_self i)
    rw [of_decide_eq_true hall] at hfree
    cases hfree

variable (hst : Consistent dedup refcount st)
include hst

/-- The dedup block at a slot is evicted, and nothing is brought into the run. -/
theorem ClearedTo.evict {i dst : ℕ} {d : DedupBlock} (hcleared : ClearedTo pos count i st)
    (hd : d ∈ dedup) (haddress : st.addressOf d = pos + i) (hfree : st.FreeRun dst d.owned)
    (hbehind : pos + count < dst) :
    ClearedTo pos count (i + d.owned) (st.evict (pos + i) dst d.owned) := by
  have hsource (b : ℕ) (hb : b < d.owned) : st.blockTypes (pos + i + b) = .dedup :=
    (hst.home d hd _ (haddress ▸ inRun_add hb)).2
  have htype (j : ℕ) (hj : j < count) : (st.evict (pos + i) dst d.owned).blockTypes (pos + j) =
      if InRun (pos + i) d.owned (pos + j) then .free else st.blockTypes (pos + j) := by
    have hdst : ¬InRun dst d.owned (pos + j) := fun h ↦ by have := h.1; omega
    rw [blockTypes_evict (hfree.apart hsource), if_neg hdst]
  obtain ⟨q, hq, himmovable⟩ := hcleared.before
  refine ⟨⟨q, hq, immovable_evict hsource hfree himmovable⟩, fun j hj ↦ ?_, fun j hj hlt ↦ ?_⟩
  · have hmovable := hcleared.movable j hj
    rw [CompactState.immovable] at hmovable ⊢
    rw [htype j hj]
    split_ifs
    · rfl
    · exact hmovable
  · rw [htype j hj]
    by_cases hin : InRun (pos + i) d.owned (pos + j)
    · rw [if_pos hin]
    · rw [if_neg hin]
      refine hcleared.cleared j hj (Nat.lt_of_not_le fun hle ↦ hin ⟨?_, ?_⟩) <;> omega

/-- The dedup blocks in a run are evicted, one after the other. -/
theorem evictRange_spec {fuel i : ℕ} (hcleared : ClearedTo pos count i st)
    (hclean : CompactState.EvictsCleanly dedup pos count fuel i st) (hfuel : count - i < fuel) :
    ∃ st', CompactState.evictRange pos count fuel i st = some (pos, st') ∧
      Consistent dedup refcount st' ∧ Keeps dedup refcount st st' ∧ Unmoved st st' ∧
      ∀ j < count, st'.blockTypes (pos + j) = .free := by
  induction fuel generalizing i st with
  | zero => exact absurd hfuel (Nat.not_lt_zero _)
  | succ fuel ih =>
    rw [CompactState.evictRange]
    rw [CompactState.EvictsCleanly] at hclean
    by_cases hend : count ≤ i
    · rw [if_pos hend]
      exact ⟨st, rfl, hst, Keeps.refl dedup refcount st, Unmoved.refl st,
        fun j hj ↦ hcleared.cleared j hj (hj.trans_le hend)⟩
    rw [if_neg hend] at hclean ⊢
    have hi : i < count := Nat.lt_of_not_le hend
    by_cases hdedup : st.isDedup (pos + i) = true
    · rw [if_neg (not_not.mpr hdedup)] at hclean ⊢
      have hbase := hcleared.base hi hdedup
      obtain ⟨d, hd, haddress⟩ := hst.base (of_decide_eq_true hdedup)
      obtain ⟨header, hheader, -⟩ := hst.header d hd
      rw [hbase] at haddress
      rw [haddress] at hheader
      simp only [hbase] at hclean ⊢
      obtain ⟨hfound, howned, hrest⟩ := hclean header hheader
      have hblocks := howned d hd haddress
      rw [hheader]
      simp only [if_neg hfound]
      rw [hblocks] at hfound hrest ⊢
      obtain ⟨hbehind, hfree⟩ := findFreeRangeAtEnd_spec hst hfound (hst.owned_pos hd)
      generalize hplace : (st.findFreeRangeAtEnd d.owned (pos + count)) = found at *
      have hst₁ := hst.rangeCursor found.2
      have hcleared₁ := ClearedTo.evict hst₁
        ⟨hcleared.before, hcleared.movable, hcleared.cleared⟩ hd haddress hfree hbehind
      obtain ⟨hevicted, hkeeps⟩ := hst₁.evict hd hfree
      have haddress₁ : ({ st with rangeCursor := found.2 } : CompactState).addressOf d = pos + i :=
        haddress
      rw [haddress₁] at hevicted hkeeps
      have hsource (b : ℕ) (hb : b < d.owned) : st.blockTypes (pos + i + b) = .dedup :=
        (hst.home d hd _ (haddress ▸ inRun_add hb)).2
      have hnext : CompactState.nextSlot pos i (pos + i) d.owned = i + d.owned := by
        have hpos := hst.owned_pos hd
        rw [CompactState.nextSlot, if_pos (by omega)]
        omega
      rw [hnext] at hrest ⊢
      obtain ⟨st', hrun, hst', hkeeps', hunmoved, hfree'⟩ := ih hevicted hcleared₁ hrest
        (by have := hst.owned_pos hd; omega)
      have hunmoved₁ : Unmoved st
          (CompactState.evict (pos + i) found.1 d.owned { st with rangeCursor := found.2 }) :=
        ⟨fun slot ↦ by cases slot <;> rfl, rfl, fun lba ↦ immovable_evict hsource hfree⟩
      exact ⟨st', hrun, hst',
        ((Keeps.rangeCursor dedup refcount st found.2).trans hkeeps).trans hkeeps',
        hunmoved₁.trans hunmoved, hfree'⟩
    · rw [if_pos hdedup] at hclean ⊢
      refine ih hst ⟨hcleared.before, hcleared.movable, fun j hj hlt ↦ ?_⟩ hclean (by omega)
      rcases Nat.lt_succ_iff_lt_or_eq.mp hlt with hlt | rfl
      · exact hcleared.cleared j hj hlt
      · rcases immovable_eq_false (hcleared.movable j hj) with hfree | htype
        · exact hfree
        · exact absurd (decide_eq_true htype) hdedup

end Clear

/-! ### One extent -/

section Place

variable {dedup : List DedupBlock} {refcount : ℕ → ℕ} {st st' : CompactState} {slot : Slot}
  {e : ExtentRun} {pos count notPast start : ℕ}

/-- A place without room leaves the volume as it is. -/
theorem findFreeRange_none (hpos : st.usableRange count notPast (st.totalBlocks + 1) start = none) :
    st.findFreeRange start count notPast = some (0, st) := by
  rw [CompactState.findFreeRange, hpos]

theorem lt_evictRounds (count : ℕ) (st : CompactState) : count - 0 < st.evictRounds count := by
  unfold CompactState.evictRounds
  have hrounds : 1 * ((count + 1) * 1) ≤ (st.totalBlocks + 1) * ((count + 1) * (st.totalBlocks + 1)) :=
    Nat.mul_le_mul (Nat.succ_pos _) (Nat.mul_le_mul_left _ (Nat.succ_pos _))
  omega

/-- A place for a run is cleared of its dedup blocks. -/
theorem findFreeRange_some (hst : Consistent dedup refcount st)
    (hstart : ∃ q, start = q + 1 ∧ st.immovable q = true)
    (hpos : st.usableRange count notPast (st.totalBlocks + 1) start = some pos)
    (hclean : CompactState.EvictsCleanly dedup pos count (st.evictRounds count) 0 st) :
    ∃ st', st.findFreeRange start count notPast = some (pos, st') ∧
      Consistent dedup refcount st' ∧ Keeps dedup refcount st st' ∧ Unmoved st st' ∧
      st'.FreeRun pos count := by
  obtain ⟨-, htotal, -, hmovable, hbefore⟩ := usableRange_spec hpos
  have hcleared : ClearedTo pos count 0 st := by
    refine ⟨?_, hmovable, fun j _ hj ↦ absurd hj (Nat.not_lt_zero j)⟩
    rcases hbefore with rfl | hbefore
    · exact hstart
    · exact hbefore
  obtain ⟨st', hevict, hst', hkeeps, hunmoved, hfree⟩ :=
    evictRange_spec hst hcleared hclean (lt_evictRounds count st)
  refine ⟨st', ?_, hst', hkeeps, hunmoved, fun lba hlba ↦ ?_⟩
  · rw [CompactState.findFreeRange, hpos]
    exact hevict
  · obtain ⟨b, hb, rfl⟩ := hlba.exists_add
    refine ⟨?_, hfree b hb⟩
    rw [hkeeps.sizes.2]
    omega

/-- A consistent volume with an immovable block in front of the cursor. -/
structure Placing (dedup : List DedupBlock) (refcount : ℕ → ℕ) (st : CompactState) : Prop where
  consistent : Consistent dedup refcount st
  cursor : ∃ q, st.writeCursor = q + 1 ∧ st.immovable q = true

/-- The cursor is not part of the volume. -/
theorem Consistent.writeCursor (hst : Consistent dedup refcount st) (cursor : ℕ) :
    Consistent dedup refcount { st with writeCursor := cursor } :=
  ⟨hst.blockSize_pos, hst.superblock, hst.marked, hst.extents, hst.shared, hst.home, hst.header,
    hst.apart, hst.live⟩

theorem Keeps.writeCursor (hkeeps : Keeps dedup refcount st st') (cursor : ℕ) :
    Keeps dedup refcount st { st' with writeCursor := cursor } :=
  ⟨hkeeps.sizes, hkeeps.inodes, hkeeps.overflow, hkeeps.runs, hkeeps.dedup⟩

/-- The last block of an extent is immovable. -/
theorem Consistent.last_immovable (hst : Consistent dedup refcount st) (hrun : st.run slot = some e)
    (hstart : e.startBlock ≠ 0) (hcount : e.blockCount ≠ 0) :
    ∃ q, e.startBlock + e.blockCount = q + 1 ∧ st.immovable q = true := by
  refine ⟨e.startBlock + e.blockCount - 1, by omega, immovable_of_used ?_⟩
  exact (hst.extents slot e hrun _ ⟨hstart, by omega, by omega⟩).2

variable (hst : Placing dedup refcount st)
include hst

/-- An extent without a place stays. -/
theorem placeSlot_stay (htarget : st.target slot = none) :
    ∃ st', st.placeSlot slot = some st' ∧ Placing dedup refcount st' ∧
      Keeps dedup refcount st st' := by
  have hkeeps (cursor : ℕ) : Keeps dedup refcount st { st with writeCursor := cursor } :=
    (Keeps.refl dedup refcount st).writeCursor cursor
  rw [CompactState.target] at htarget
  rw [CompactState.placeSlot]
  cases hrun : st.run slot with
  | none => exact ⟨st, rfl, hst, Keeps.refl dedup refcount st⟩
  | some e =>
    rw [hrun] at htarget
    dsimp only at htarget ⊢
    by_cases hempty : e.startBlock = 0 ∨ e.blockCount = 0
    · rw [if_pos hempty]
      exact ⟨st, rfl, hst, Keeps.refl dedup refcount st⟩
    · rw [if_neg hempty]
      push Not at hempty
      have hlast := hst.consistent.last_immovable hrun hempty.1 hempty.2
      rw [CompactState.placeExtent]
      by_cases hcursor : e.startBlock ≤ st.writeCursor
      · rw [if_pos hcursor]
        refine ⟨_, rfl, ⟨hst.consistent.writeCursor _, ?_⟩, hkeeps _⟩
        dsimp only
        rcases max_choice st.writeCursor (e.startBlock + e.blockCount) with hmax | hmax <;>
          rw [hmax]
        · exact hst.cursor
        · exact hlast
      · rw [if_neg hcursor]
        rw [if_neg (by tauto)] at htarget
        simp only [findFreeRange_none htarget, if_true]
        refine ⟨_, rfl, ⟨hst.consistent.writeCursor _, ?_⟩, hkeeps _⟩
        dsimp only
        split_ifs
        · exact hlast
        · exact hst.cursor

variable (hclean : st.ClearsCleanly dedup slot)
include hclean

/-- An extent with a place goes there. -/
theorem placeSlot_move (hrun : st.run slot = some e) (htarget : st.target slot = some pos) :
    e.startBlock ≠ 0 ∧ pos ≠ 0 ∧ ∃ st₁, st.placeSlot slot =
        some { st₁.moveExtent slot e pos with writeCursor := pos + e.blockCount } ∧
      e.blockCount ≠ 0 ∧ Consistent dedup refcount st₁ ∧ Keeps dedup refcount st st₁ ∧
      Unmoved st st₁ ∧ st₁.FreeRun pos e.blockCount := by
  have hevicts := hclean e pos hrun htarget
  rw [CompactState.target, hrun] at htarget
  dsimp only at htarget
  by_cases hstay : e.startBlock = 0 ∨ e.blockCount = 0 ∨ e.startBlock ≤ st.writeCursor
  · rw [if_pos hstay] at htarget
    cases htarget
  rw [if_neg hstay] at htarget
  push Not at hstay
  obtain ⟨hstart, hcount, hcursor⟩ := hstay
  obtain ⟨hle, -, hpast, -, -⟩ := usableRange_spec htarget
  obtain ⟨st₁, hfind, hst₁, hkeeps, hunmoved, hfree⟩ :=
    findFreeRange_some hst.consistent hst.cursor htarget hevicts
  have hpos : pos ≠ 0 := by
    obtain ⟨q, hq, -⟩ := hst.cursor
    omega
  have hne : pos ≠ e.startBlock := by omega
  refine ⟨hstart, hpos, st₁, ?_, hcount, hst₁, hkeeps, hunmoved, hfree⟩
  rw [CompactState.placeSlot, hrun]
  dsimp only
  rw [if_neg (by tauto), CompactState.placeExtent, if_neg (Nat.not_le.mpr hcursor)]
  simp only [hfind, if_neg hpos, if_neg hne]

/-- An extent that no other shares goes to its place with its blocks. -/
theorem placeSlot_unshared (hunshared : st.MovesUnshared refcount slot) :
    ∃ st', st.placeSlot slot = some st' ∧ Placing dedup refcount st' ∧
      Keeps dedup refcount st st' := by
  cases htarget : st.target slot with
  | none => exact placeSlot_stay hst htarget
  | some pos =>
    obtain ⟨e, hrun⟩ : ∃ e, st.run slot = some e := by
      cases hrun : st.run slot with
      | none =>
        rw [CompactState.target, hrun] at htarget
        cases htarget
      | some e => exact ⟨e, rfl⟩
    obtain ⟨hstart, hpos, st₁, hplace, hcount, hst₁, hkeeps, hunmoved, hfree⟩ :=
      placeSlot_move hst hclean hrun htarget
    have hrun₁ : st₁.run slot = some e := (hunmoved.run slot).trans hrun
    obtain ⟨hmoved, hkeepsMove⟩ := hst₁.move hrun₁ hstart (hunshared e pos hrun htarget) hpos hfree
    refine ⟨_, hplace, ⟨hmoved.writeCursor _, ?_⟩, (hkeeps.trans hkeepsMove).writeCursor _⟩
    have hrun' : (st₁.moveExtent slot e pos).run slot = some { e with startBlock := pos } := by
      rw [run_move, if_pos rfl, hrun₁, Option.map_some]
    exact hmoved.last_immovable hrun' hpos hcount

end Place

/-! ### Other extents -/

section Others

variable {st st' : CompactState} {slot slot' : Slot} {pos count notPast start : ℕ}

theorem evictRange_run {fuel i : ℕ} {found : ℕ × CompactState}
    (hfound : CompactState.evictRange pos count fuel i st = some found) :
    found.2.run slot = st.run slot := by
  induction fuel generalizing i st with
  | zero => cases hfound
  | succ fuel ih =>
    have hevict (base dst blocks cursor : ℕ) :
        (CompactState.evict base dst blocks { st with rangeCursor := cursor }).run slot =
          st.run slot := by
      cases slot <;> rfl
    have hcursor (cursor : ℕ) :
        ({ st with rangeCursor := cursor } : CompactState).run slot = st.run slot := by
      cases slot <;> rfl
    have hrelease (base blocks : ℕ) : (st.release base blocks).run slot = st.run slot := by
      cases slot <;> rfl
    rw [CompactState.evictRange] at hfound
    split_ifs at hfound with hend hdedup
    · rw [← Option.some.inj hfound]
    · dsimp only at hfound
      split at hfound
      · rw [← Option.some.inj hfound, hrelease]
      · split_ifs at hfound
        · rw [ih hfound, hcursor]
        · rw [ih hfound, hevict]
    · exact ih hfound

theorem findFreeRange_run {found : ℕ × CompactState}
    (hfound : st.findFreeRange start count notPast = some found) :
    found.2.run slot = st.run slot := by
  rw [CompactState.findFreeRange] at hfound
  split at hfound
  · rw [← Option.some.inj hfound]
  · exact evictRange_run hfound

/-- No other extent is rewritten. -/
theorem placeSlot_other (hplace : st.placeSlot slot = some st') (hne : slot' ≠ slot) :
    st'.run slot' = st.run slot' := by
  have hcursor (st : CompactState) (cursor : ℕ) :
      ({ st with writeCursor := cursor } : CompactState).run slot' = st.run slot' := by
    cases slot' <;> rfl
  rw [CompactState.placeSlot] at hplace
  split at hplace
  · rw [← Option.some.inj hplace]
  · split_ifs at hplace
    · rw [← Option.some.inj hplace]
    · rw [CompactState.placeExtent] at hplace
      split at hplace
      · rw [← Option.some.inj hplace, hcursor]
      · split at hplace
        · cases hplace
        · next hfind =>
          have hrun : _ = st.run slot' := findFreeRange_run hfind
          dsimp only at hrun
          split at hplace
          · rw [← Option.some.inj hplace, hcursor, hrun]
          · split at hplace
            · rw [← Option.some.inj hplace, hcursor, hrun]
            · rw [← Option.some.inj hplace, hcursor, run_move, if_neg hne, hrun]

theorem placeSlots_other {slots : List Slot} (hplace : CompactState.placeSlots slots st = some st')
    (hslot : slot ∉ slots) : st'.run slot = st.run slot := by
  induction slots generalizing st with
  | nil => rw [← Option.some.inj hplace]
  | cons first slots ih =>
    obtain ⟨st₁, hfirst, hrest⟩ := Option.bind_eq_some_iff.mp hplace
    rw [List.mem_cons, not_or] at hslot
    exact (ih hrest hslot.2).trans (placeSlot_other hfirst hslot.1)

end Others

/-! ### The phase -/

section Phase

variable {dedup : List DedupBlock} {refcount : ℕ → ℕ} {st st' : CompactState} {slot : Slot}
  {slots : List Slot}

/-- The extents are placed one after the other. -/
theorem placeSlots_spec (hst : Placing dedup refcount st)
    (hclean : CompactState.Along (fun slot st ↦ st.ClearsCleanly dedup slot) slots st)
    (hunshared : CompactState.Along (fun slot st ↦ st.MovesUnshared refcount slot) slots st) :
    ∃ st', CompactState.placeSlots slots st = some st' ∧ Placing dedup refcount st' ∧
      Keeps dedup refcount st st' := by
  induction slots generalizing st with
  | nil => exact ⟨st, rfl, hst, Keeps.refl dedup refcount st⟩
  | cons slot slots ih =>
    obtain ⟨st₁, hplace, hst₁, hkeeps⟩ := placeSlot_unshared hst hclean.1 hunshared.1
    obtain ⟨st', hrest, hst', hkeeps'⟩ := ih hst₁ (hclean.2 st₁ hplace) (hunshared.2 st₁ hplace)
    refine ⟨st', ?_, hst', hkeeps.trans hkeeps'⟩
    rw [CompactState.placeSlots, hplace, Option.bind_some, hrest]

/-- The counts of the blocks of the extents are what they were. -/
def CountsKept (refcount : ℕ → ℕ) (st st' : CompactState) : Prop :=
  ∀ slot e e', st.run slot = some e → st'.run slot = some e' → e.startBlock ≠ 0 →
    ∀ b < e.blockCount, refcount (e'.startBlock + b) = refcount (e.startBlock + b)

/-- A free block has a count of one. -/
theorem Consistent.refcount_free (hst : Consistent dedup refcount st) {lba : ℕ}
    (hlba : st.blockTypes lba = .free) : refcount lba = 1 := by
  by_contra hcount
  obtain ⟨slot, -, e, -, -, hrun, -, hcovers, -⟩ := (hst.shared lba).mp hcount
  have htype := (hst.extents slot e hrun lba hcovers).2
  rw [hlba] at htype
  cases htype

/-- A shared extent that is moved comes to blocks without counts, and no later turn mends that. -/
theorem placeSlots_unshared (hst : Placing dedup refcount st) (hnodup : slots.Nodup)
    (hclean : CompactState.Along (fun slot st ↦ st.ClearsCleanly dedup slot) slots st)
    (hplaces : CompactState.placeSlots slots st = some st') (hcounts : CountsKept refcount st st') :
    CompactState.Along (fun slot st ↦ st.MovesUnshared refcount slot) slots st := by
  induction slots generalizing st with
  | nil => trivial
  | cons slot slots ih =>
    obtain ⟨st₁, hplace, hrest⟩ := Option.bind_eq_some_iff.mp hplaces
    rw [List.nodup_cons] at hnodup
    have hunshared : st.MovesUnshared refcount slot := by
      intro e pos hrun htarget lba hlba
      obtain ⟨hstart, hpos, st₂, hplace', -, hst₂, -, hunmoved, hfree⟩ :=
        placeSlot_move hst hclean.1 hrun htarget
      obtain ⟨b, hb, rfl⟩ := hlba.2.exists_add
      rw [hplace', Option.some.injEq] at hplace
      have hmoved : st'.run slot = some { e with startBlock := pos } := by
        have hrun₂ : st₂.run slot = some e := (hunmoved.run slot).trans hrun
        rw [placeSlots_other hrest hnodup.1, ← hplace]
        have hrun' : (st₂.moveExtent slot e pos).run slot = some { e with startBlock := pos } := by
          rw [run_move, if_pos rfl, hrun₂, Option.map_some]
        rw [← hrun']
        cases slot <;> rfl
      rw [← hcounts slot e _ hrun hmoved hstart b hb]
      exact hst₂.refcount_free (hfree _ (inRun_add hb)).2
    obtain ⟨st₁', hplace', hst₁, hkeeps⟩ := placeSlot_unshared hst hclean.1 hunshared
    obtain rfl : st₁ = st₁' := Option.some.inj (hplace.symm.trans hplace')
    refine ⟨hunshared, fun st₂ hplace₂ ↦ ?_⟩
    obtain rfl : st₁ = st₂ := Option.some.inj (hplace.symm.trans hplace₂)
    refine ih hst₁ hnodup.2 (hclean.2 st₁ hplace) hrest ?_
    intro slot' e₁ e' hrun₁ hrun' hstart b hb
    cases hrun : st.run slot' with
    | none =>
      have hne : slot' ≠ slot := by
        rintro rfl
        rw [CompactState.placeSlot, hrun] at hplace
        rw [← Option.some.inj hplace, hrun] at hrun₁
        cases hrun₁
      rw [placeSlot_other hplace hne, hrun] at hrun₁
      cases hrun₁
    | some e =>
      obtain ⟨_, hrun₁', hread, hkept⟩ := hkeeps.runs slot' e hrun
      rw [hrun₁, Option.some.injEq] at hrun₁'
      subst hrun₁'
      obtain ⟨hzero, hcount⟩ := readRun_eq hread
      have hstart' := mt hzero.mpr hstart
      rw [hcount hstart'] at hb
      rw [hcounts slot' e e' hrun hrun' hstart' b hb, hkept hstart' b hb]

/-- No extent is looked at twice. -/
theorem dataSlots_nodup (seen : Option ℕ) (st : CompactState) : (st.dataSlots seen).Nodup := by
  have hinline : st.inlineSlots.Nodup := by
    refine List.nodup_flatMap.mpr ⟨fun _ _ ↦ ?_, ?_⟩
    · exact List.nodup_range.map fun a b h ↦ (Slot.inline.inj h).2
    · have hindices : (st.inodes.zipIdx.map Prod.snd).Nodup := by
        rw [List.zipIdx_map_snd]
        exact List.nodup_range'
      refine (List.pairwise_map.mp hindices).imp fun hne slot h h' ↦ ?_
      obtain ⟨_, -, rfl⟩ := List.mem_map.mp h
      obtain ⟨_, -, heq⟩ := List.mem_map.mp h'
      exact hne (Slot.inline.inj heq).1.symm
  have hoverflow : st.overflowSlots.Nodup := by
    have hindices : (st.overflow.zipIdx.map Prod.snd).Nodup := by
      rw [List.zipIdx_map_snd]
      exact List.nodup_range'
    have hsorted : (((st.overflow.zipIdx.insertionSort
        fun a b ↦ a.1.run.startBlock ≤ b.1.run.startBlock).map Prod.snd)).Nodup :=
      ((List.perm_insertionSort _ _).map Prod.snd).nodup_iff.mpr hindices
    have hslots := hsorted.map (f := Slot.overflow) fun a b h ↦ Slot.overflow.inj h
    rwa [List.map_map] at hslots
  have hall : (st.inlineSlots ++ st.overflowSlots).Nodup := by
    refine List.nodup_append.mpr ⟨hinline, hoverflow, fun slot h slot' h' ↦ ?_⟩
    obtain ⟨_, -, h⟩ := List.mem_flatMap.mp h
    obtain ⟨_, -, rfl⟩ := List.mem_map.mp h
    obtain ⟨_, -, rfl⟩ := List.mem_map.mp h'
    exact Slot.noConfusion
  cases seen with
  | none => exact hall
  | some n => exact hall.sublist (List.take_sublist n _)

theorem Placing.start (hst : Consistent dedup refcount st) :
    Placing dedup refcount { st with writeCursor := 1 } where
  consistent := hst.writeCursor 1
  cursor := ⟨0, rfl, by
    change st.immovable 0 = true
    rw [CompactState.immovable, hst.superblock]⟩

theorem along_and {P Q : Slot → CompactState → Prop}
    (h : CompactState.Along (fun slot st ↦ P slot st ∧ Q slot st) slots st) :
    CompactState.Along P slots st ∧ CompactState.Along Q slots st := by
  induction slots generalizing st with
  | nil => exact ⟨trivial, trivial⟩
  | cons slot slots ih =>
    exact ⟨⟨h.1.1, fun st' hplace ↦ (ih (h.2 st' hplace)).1⟩,
      ⟨h.1.2, fun st' hplace ↦ (ih (h.2 st' hplace)).2⟩⟩

/-- The phase keeps files, counts and dedup blocks if it moves no shared extent and clears its way
well; if it clears its way well, only then. -/
theorem data_blocks_preserved (hst : Consistent dedup refcount st) (seen : Option ℕ) :
    (st.DuringDataBlocks (fun slot st ↦ st.ClearsCleanly dedup slot ∧
          st.MovesUnshared refcount slot) seen →
        ∃ st', st.compactDataBlocks seen = some st' ∧ Preserved dedup refcount st st') ∧
      ∀ st', st.DuringDataBlocks (fun slot st ↦ st.ClearsCleanly dedup slot) seen →
        st.compactDataBlocks seen = some st' → Preserved dedup refcount st st' →
        st.DuringDataBlocks (fun slot st ↦ st.MovesUnshared refcount slot) seen := by
  refine ⟨fun hduring ↦ ?_, fun st' hclean hrun hpreserved ↦ ?_⟩
  · obtain ⟨hclean, hunshared⟩ := along_and hduring
    obtain ⟨st', hrun, hst', hkeeps⟩ := placeSlots_spec (Placing.start hst) hclean hunshared
    refine ⟨st', hrun, Keeps.preserved ?_ hst'.consistent⟩
    exact ((Keeps.refl dedup refcount st).writeCursor 1).trans hkeeps
  · refine placeSlots_unshared (Placing.start hst) (dataSlots_nodup seen st) hclean hrun ?_
    intro slot e e' he he'
    refine hpreserved.refcounts slot e e' ?_ he'
    rw [← he]
    cases slot <;> rfl

end Phase

/-! ### A volume with clones -/

/-- A volume with a dedup block in front and a number of clones of a file. -/
def clonesVolume (clones : ℕ) : CompactState where
  blockSize := 512
  totalBlocks := 16
  disk lba := ⟨if lba = 1 then some ⟨false, 100, 0⟩ else none, .words [lba]⟩
  bitmap lba := lba = 0 ∨ lba = 1 ∨ lba = 10 ∨ lba = 11
  blockTypes lba :=
    if lba = 0 then .metadata else if lba = 1 then .dedup
    else if lba = 10 ∨ lba = 11 then .used else .free
  writeCursor := 0
  rangeCursor := 0
  relocs := []
  inodes := (List.range clones).map fun inodeId ↦ ⟨inodeId, 1024, [⟨10, 2, 2⟩], 1⟩
  overflow := []

def clonesCount (clones lba : ℕ) : ℕ := if lba = 10 ∨ lba = 11 then clones else 1

theorem run_clones {clones : ℕ} {slot : Slot} {e : ExtentRun}
    (hrun : (clonesVolume clones).run slot = some e) :
    e = ⟨10, 2, 2⟩ ∧ ∃ i < clones, slot = .inline i 0 := by
  cases slot with
  | overflow i => cases hrun
  | inline i extent =>
    simp only [CompactState.run, clonesVolume, List.getElem?_map] at hrun
    by_cases hi : i < clones
    · cases extent with
      | zero => simp_all
      | succ extent => simp [hi] at hrun
    · simp [hi] at hrun

theorem clonesVolume_consistent {clones : ℕ} (hclones : 0 < clones) :
    Consistent [⟨1, 1⟩] (clonesCount clones) (clonesVolume clones) where
  blockSize_pos := Nat.succ_pos 511
  superblock := rfl
  marked := by
    intro lba hlba
    have hall : ∀ lba < 16,
        (clonesVolume 0).bitmap lba = false ↔ (clonesVolume 0).blockTypes lba = .free := by
      decide
    exact hall lba hlba
  extents := by
    intro slot e hrun lba hlba
    obtain ⟨rfl, -⟩ := run_clones hrun
    obtain ⟨-, hle, hlt⟩ := hlba
    have hlba : lba = 10 ∨ lba = 11 := by
      dsimp only at hle hlt
      omega
    rcases hlba with rfl | rfl <;> exact ⟨Nat.lt_of_sub_pos (Nat.succ_pos _), rfl⟩
  shared := by
    have hinline (i : ℕ) (hi : i < clones) :
        (clonesVolume clones).run (.inline i 0) = some ⟨10, 2, 2⟩ := by
      simp [CompactState.run, clonesVolume, hi]
    intro lba
    constructor
    · intro hcount
      have hlba : lba = 10 ∨ lba = 11 := by
        by_contra hlba
        exact hcount (if_neg hlba)
      rw [clonesCount, if_pos hlba] at hcount
      have hcovers : Covers ⟨10, 2, 2⟩ lba := by
        rcases hlba with rfl | rfl <;> exact ⟨by decide, by decide⟩
      exact ⟨.inline 0 0, .inline 1 0, _, _, by decide, hinline 0 hclones,
        hinline 1 (by omega), hcovers, hcovers⟩
    · rintro ⟨slot, slot', e, e', hne, hrun, hrun', hcovers, -⟩
      obtain ⟨rfl, i, hi, rfl⟩ := run_clones hrun
      obtain ⟨-, i', hi', rfl⟩ := run_clones hrun'
      obtain ⟨-, hle, hlt⟩ := hcovers
      dsimp only at hle hlt
      rw [clonesCount, if_pos (by omega)]
      rintro rfl
      exact hne (by rw [Nat.lt_one_iff.mp hi, Nat.lt_one_iff.mp hi'])
  home := by
    intro d hd lba hlba
    obtain rfl := List.mem_singleton.mp hd
    obtain rfl : lba = 1 := le_antisymm (Nat.lt_succ_iff.mp hlba.2) hlba.1
    exact ⟨Nat.lt_of_sub_pos (Nat.succ_pos _), rfl⟩
  header := by
    intro d hd
    obtain rfl := List.mem_singleton.mp hd
    have hblocks : physBlocks 512 ⟨false, 100, 0⟩ ≤ 1 := by decide
    exact ⟨⟨false, 100, 0⟩, rfl, hblocks⟩
  apart := by
    intro d hd d' hd' _ _ _
    rw [List.mem_singleton.mp hd, List.mem_singleton.mp hd']
  live := by
    intro lba hlba
    refine ⟨⟨1, 1⟩, List.mem_singleton_self _, ?_⟩
    simp only [clonesVolume] at hlba
    split_ifs at hlba with _ hone
    subst hone
    exact ⟨le_rfl, Nat.lt_succ_self 1⟩

theorem clonesVolume_one_preserved : ∃ st', (clonesVolume 1).compactDataBlocks none = some st' ∧
      Preserved [⟨1, 1⟩] (clonesCount 1) (clonesVolume 1) st' := by
  refine (data_blocks_preserved (clonesVolume_consistent Nat.one_pos) none).1 ⟨⟨?_, ?_⟩, ?_⟩
  · intro e pos hrun htarget
    obtain rfl : ⟨10, 2, 2⟩ = e := Option.some.inj hrun
    obtain rfl : 1 = pos := Option.some.inj htarget
    intro header hheader
    obtain rfl : ⟨false, 100, 0⟩ = header := Option.some.inj hheader
    refine ⟨?_, fun d hd _ ↦ ?_, trivial⟩
    · decide
    · rw [List.mem_singleton.mp hd]
      rfl
  · intro e pos hrun htarget lba hlba
    unfold clonesCount
    split_ifs <;> rfl
  · intro _ _
    trivial

/-- The file is moved once for each clone, and its blocks lose their counts. -/
theorem clonesVolume_two_moved : Consistent [⟨1, 1⟩] (clonesCount 2) (clonesVolume 2) ∧
      ∃ st', (clonesVolume 2).compactDataBlocks none = some st' ∧
        ¬Preserved [⟨1, 1⟩] (clonesCount 2) (clonesVolume 2) st' := by
  refine ⟨clonesVolume_consistent Nat.two_pos, _, rfl, fun hpreserved ↦ ?_⟩
  have hcount := hpreserved.refcounts (.inline 0 0) ⟨10, 2, 2⟩ ⟨1, 2, 2⟩ rfl rfl (by decide) 0
    (by decide)
  exact absurd hcount (by decide)

end Obmafs3.Defrag
