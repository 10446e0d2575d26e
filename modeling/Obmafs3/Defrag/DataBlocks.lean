import Obmafs3.Defrag.Compactor

/-!
# What the moves of file data keep

On a consistent volume the move of an extent that is no one else's keeps all that can be read, and
so does the eviction of a dedup block that its header knows all blocks of. An extent that two inodes
share is moved for one of them, and its count stays behind. The last block of a dedup tree owns
blocks that its header does not count, and they stay behind too.
-/

set_option autoImplicit false

namespace Obmafs3.Defrag

open Library.Runs
open CompactState (Slot)

/-! ### Consistent volumes -/

/-- A block of an extent. An extent without a start has none. -/
def Covers (e : ExtentRun) (lba : ℕ) : Prop := e.startBlock ≠ 0 ∧ InRun e.startBlock e.blockCount lba

/-- A dedup block that an entry or a header of a dedup tree names. The last one of a tree owns more
blocks than its header says. -/
structure DedupBlock where
  lba : ℕ
  owned : ℕ
  deriving DecidableEq, Repr

/-- Where the recorded moves, one after the other, have brought a dedup block. -/
def addressAfter (relocs : List (ℕ × ℕ)) (lba : ℕ) : ℕ :=
  relocs.foldl (fun lba move ↦ if lba = move.1 then move.2 else lba) lba

def CompactState.addressOf (st : CompactState) (d : DedupBlock) : ℕ := addressAfter st.relocs d.lba

/-- The blocks of a dedup block where it is now. -/
def CompactState.Home (st : CompactState) (d : DedupBlock) (lba : ℕ) : Prop :=
  InRun (st.addressOf d) d.owned lba

/-- The types are right, and a block has a reference count other than one if and only if two extents
have it. -/
structure Consistent (dedup : List DedupBlock) (refcount : ℕ → ℕ) (st : CompactState) : Prop where
  blockSize_pos : 0 < st.blockSize
  superblock : st.blockTypes 0 = .metadata
  marked : ∀ lba < st.totalBlocks, st.bitmap lba = false ↔ st.blockTypes lba = .free
  extents : ∀ slot e, st.run slot = some e → ∀ lba, Covers e lba →
    lba < st.totalBlocks ∧ st.blockTypes lba = .used
  shared : ∀ lba, refcount lba ≠ 1 ↔ ∃ slot slot' e e', slot ≠ slot' ∧ st.run slot = some e ∧
    st.run slot' = some e' ∧ Covers e lba ∧ Covers e' lba
  home : ∀ d ∈ dedup, ∀ lba, st.Home d lba → lba < st.totalBlocks ∧ st.blockTypes lba = .dedup
  header : ∀ d ∈ dedup, ∃ header, (st.disk (st.addressOf d)).header = some header ∧
    physBlocks st.blockSize header ≤ d.owned
  apart : ∀ d ∈ dedup, ∀ d' ∈ dedup, ∀ lba, st.Home d lba → st.Home d' lba → d = d'
  live : ∀ lba, st.blockTypes lba = .dedup → ∃ d ∈ dedup, st.Home d lba

/-! ### What is to be kept -/

/-- The blocks of an extent, with the number of blocks that they decompress to. -/
def readRun (disk : ℕ → DiskBlock) (e : ExtentRun) : Option (ℕ × List DiskBlock) :=
  if e.startBlock = 0 then none
  else some (e.logicalBlocks, (List.range e.blockCount).map fun b ↦ disk (e.startBlock + b))

/-- What a file is read from: the inline extents of its record, then its overflow extents. -/
def CompactState.fileData (st : CompactState) (inodeId : ℕ) :
    List (ℕ × List (Option (ℕ × List DiskBlock))) × List (ℕ × Option (ℕ × List DiskBlock)) :=
  ((st.inodes.filter (·.inodeId = inodeId)).map fun record ↦
      (record.fileSize, record.extents.map (readRun st.disk)),
    (st.overflow.filter (·.inodeId = inodeId)).map fun record ↦
      (record.logicalOffset, readRun st.disk record.run))

/-- Every file reads as before and its blocks have the counts that they had, the blocks of extents
and dedup blocks are allocated, and no dedup block is overwritten. -/
structure Preserved (dedup : List DedupBlock) (refcount : ℕ → ℕ) (st st' : CompactState) : Prop where
  files : ∀ inodeId, st'.fileData inodeId = st.fileData inodeId
  refcounts : ∀ slot e e', st.run slot = some e → st'.run slot = some e' → e.startBlock ≠ 0 →
    ∀ b < e.blockCount, refcount (e'.startBlock + b) = refcount (e.startBlock + b)
  extents_allocated : ∀ slot e, st'.run slot = some e → ∀ lba, Covers e lba → st'.bitmap lba = true
  dedup_allocated : ∀ d ∈ dedup, ∀ lba, st'.Home d lba → st'.bitmap lba = true
  dedup_kept : ∀ d ∈ dedup, ∀ b < d.owned,
    st'.disk (st'.addressOf d + b) = st.disk (st.addressOf d + b)
  dedup_apart : ∀ d ∈ dedup, ∀ lba, st'.Home d lba → ∀ slot e, st'.run slot = some e → ¬Covers e lba

/-! ### Steps -/

/-- What a step keeps: the extents and their blocks, the counts of the blocks, and the dedup
blocks. -/
structure Keeps (dedup : List DedupBlock) (refcount : ℕ → ℕ) (st st' : CompactState) : Prop where
  sizes : st'.blockSize = st.blockSize ∧ st'.totalBlocks = st.totalBlocks
  inodes : st'.inodes.map (fun record ↦ (record.inodeId, record.fileSize, record.extents.length)) =
    st.inodes.map fun record ↦ (record.inodeId, record.fileSize, record.extents.length)
  overflow : st'.overflow.map (fun record ↦ (record.inodeId, record.logicalOffset)) =
    st.overflow.map fun record ↦ (record.inodeId, record.logicalOffset)
  runs : ∀ slot e, st.run slot = some e → ∃ e', st'.run slot = some e' ∧
    readRun st'.disk e' = readRun st.disk e ∧ (e.startBlock ≠ 0 → ∀ b < e.blockCount,
        refcount (e'.startBlock + b) = refcount (e.startBlock + b))
  dedup : ∀ d ∈ dedup, ∀ b < d.owned,
    st'.disk (st'.addressOf d + b) = st.disk (st.addressOf d + b)

section Steps

variable {dedup : List DedupBlock} {refcount : ℕ → ℕ} {st st' st'' : CompactState}

theorem Keeps.refl (dedup : List DedupBlock) (refcount : ℕ → ℕ) (st : CompactState) :
    Keeps dedup refcount st st where
  sizes := ⟨rfl, rfl⟩
  inodes := rfl
  overflow := rfl
  runs := fun _ e he ↦ ⟨e, he, rfl, fun _ _ _ ↦ rfl⟩
  dedup := fun _ _ _ _ ↦ rfl

theorem readRun_eq {disk disk' : ℕ → DiskBlock} {e e' : ExtentRun}
    (hread : readRun disk' e' = readRun disk e) :
    (e'.startBlock = 0 ↔ e.startBlock = 0) ∧ (e.startBlock ≠ 0 → e'.blockCount = e.blockCount) := by
  unfold readRun at hread
  by_cases hstart : e.startBlock = 0 <;> by_cases hstart' : e'.startBlock = 0 <;>
    simp only [hstart, hstart', if_true, if_false, reduceCtorEq, Option.some.injEq,
      Prod.mk.injEq] at hread
  · exact ⟨iff_of_true hstart' hstart, fun h ↦ absurd hstart h⟩
  · have hlength := congrArg List.length hread.2
    simp only [List.length_map, List.length_range] at hlength
    exact ⟨iff_of_false hstart' hstart, fun _ ↦ hlength⟩

theorem Keeps.trans (hfirst : Keeps dedup refcount st st') (hsecond : Keeps dedup refcount st' st'') :
    Keeps dedup refcount st st'' where
  sizes := ⟨hsecond.sizes.1.trans hfirst.sizes.1, hsecond.sizes.2.trans hfirst.sizes.2⟩
  inodes := hsecond.inodes.trans hfirst.inodes
  overflow := hsecond.overflow.trans hfirst.overflow
  runs := by
    intro slot e he
    obtain ⟨e', he', hread, hcounts⟩ := hfirst.runs slot e he
    obtain ⟨e'', he'', hread', hcounts'⟩ := hsecond.runs slot e' he'
    refine ⟨e'', he'', hread'.trans hread, fun hstart b hb ↦ ?_⟩
    obtain ⟨hzero, hcount⟩ := readRun_eq hread
    rw [hcounts' (mt hzero.mp hstart) b (by rwa [hcount hstart]), hcounts hstart b hb]
  dedup := fun d hd b hb ↦ (hsecond.dedup d hd b hb).trans (hfirst.dedup d hd b hb)

/-! ### The last block of a run of types -/

theorem physBlocks_pos {blockSize : ℕ} (hsize : 0 < blockSize) (header : BlockHeader) :
    0 < physBlocks blockSize header := by
  unfold physBlocks blockHeaderSize
  refine Nat.div_pos ?_ hsize
  omega

variable {d : DedupBlock}

variable (hst : Consistent dedup refcount st)
include hst

theorem Consistent.owned_pos (hd : d ∈ dedup) : 0 < d.owned := by
  obtain ⟨header, -, hle⟩ := hst.header d hd
  exact (physBlocks_pos hst.blockSize_pos header).trans_le hle

theorem Consistent.home_base (hd : d ∈ dedup) : st.Home d (st.addressOf d) :=
  ⟨le_rfl, Nat.lt_add_of_pos_right (hst.owned_pos hd)⟩

/-- Where the dedup blocks next to each other begin, a dedup block begins. -/
theorem Consistent.base {lba : ℕ} (hlba : st.blockTypes lba = .dedup) :
    ∃ d ∈ dedup, st.addressOf d = runStart st.isDedup lba := by
  have htype : st.blockTypes (runStart st.isDedup lba) = .dedup := by
    rcases Nat.lt_or_eq_of_le (runStart_le st.isDedup lba) with hlt | heq
    · exact of_decide_eq_true (runStart_all le_rfl hlt)
    · rwa [heq]
  obtain ⟨d, hd, hhome⟩ := hst.live _ htype
  refine ⟨d, hd, le_antisymm hhome.1 ?_⟩
  by_contra hlt
  obtain ⟨j, hj⟩ : ∃ j, runStart st.isDedup lba = j + 1 := Nat.exists_eq_succ_of_ne_zero (by omega)
  have hnot : st.isDedup j = false := runStart_before hj
  have hin : st.Home d j := ⟨by omega, by have := hhome.2; omega⟩
  exact absurd (hst.home d hd j hin).2 (of_decide_eq_false hnot)

end Steps

/-! ### Evictions -/

/-- A place for a run: free blocks. -/
def CompactState.FreeRun (st : CompactState) (dst count : ℕ) : Prop :=
  ∀ lba, InRun dst count lba → lba < st.totalBlocks ∧ st.blockTypes lba = .free

section Evict

variable {dedup : List DedupBlock} {refcount : ℕ → ℕ} {st : CompactState} {d : DedupBlock} {dst : ℕ}

@[simp] theorem addressOf_evict (base count : ℕ) (d : DedupBlock) :
    (st.evict base dst count).addressOf d =
      if st.addressOf d = base then dst else st.addressOf d := by
  unfold CompactState.addressOf CompactState.evict addressAfter
  rw [List.foldl_append]
  rfl

/-- The types after a copy to a place apart. -/
theorem blockTypes_relocate {src count : ℕ} (type : BlockType) (st : CompactState)
    (hapart : ∀ lba, InRun dst count lba → ¬InRun src count lba) (lba : ℕ) :
    (st.relocate src dst count type).blockTypes lba =
      if InRun src count lba then .free
      else if InRun dst count lba then type else st.blockTypes lba := by
  by_cases hsrc : InRun src count lba
  · have hdst : ¬InRun dst count lba := fun h ↦ hapart lba h hsrc
    unfold CompactState.relocate
    dsimp only
    split_ifs
    · exact fill_in hsrc
    · rw [fill_out hdst, fill_in hsrc]
  · unfold CompactState.relocate
    dsimp only
    rw [if_neg hsrc]
    split_ifs with _ hdst hdst
    · rw [fill_out hsrc, fill_in hdst]
    · rw [fill_out hsrc, fill_out hdst]
    · exact fill_in hdst
    · rw [fill_out hdst, fill_out hsrc]

theorem blockTypes_evict {base count : ℕ}
    (hapart : ∀ lba, InRun dst count lba → ¬InRun base count lba) (lba : ℕ) :
    (st.evict base dst count).blockTypes lba =
      if InRun base count lba then .free
      else if InRun dst count lba then .dedup else st.blockTypes lba :=
  blockTypes_relocate .dedup st hapart lba

theorem bitmap_evict (base count lba : ℕ) : (st.evict base dst count).bitmap lba =
      if InRun base count lba then false
      else if InRun dst count lba then true else st.bitmap lba := rfl

/-- A dedup block that is moved whole. -/
theorem Consistent.evict (hst : Consistent dedup refcount st) (hd : d ∈ dedup)
    (hfree : st.FreeRun dst d.owned) :
    Consistent dedup refcount (st.evict (st.addressOf d) dst d.owned) ∧
      Keeps dedup refcount st (st.evict (st.addressOf d) dst d.owned) := by
  have hsource (lba : ℕ) (hlba : InRun (st.addressOf d) d.owned lba) :
      st.blockTypes lba = .dedup := (hst.home d hd lba hlba).2
  have haddress (d' : DedupBlock) (hd' : d' ∈ dedup) : st.addressOf d' = st.addressOf d ↔ d' = d := by
    refine ⟨fun heq ↦ hst.apart d' hd' d hd (st.addressOf d) ?_ (hst.home_base hd), fun h ↦ h ▸ rfl⟩
    exact heq ▸ hst.home_base hd'
  have hhome (d' : DedupBlock) (hd' : d' ∈ dedup) (lba : ℕ) :
      (st.evict (st.addressOf d) dst d.owned).Home d' lba ↔
        if d' = d then InRun dst d.owned lba else st.Home d' lba := by
    unfold CompactState.Home
    rw [addressOf_evict]
    by_cases heq : d' = d
    · rw [if_pos ((haddress d' hd').mpr heq), if_pos heq, heq]
    · rw [if_neg (mt (haddress d' hd').mp heq), if_neg heq]
  have hother (d' : DedupBlock) (hd' : d' ∈ dedup) (hne : d' ≠ d) (lba : ℕ) (hlba : st.Home d' lba) :
      ¬InRun (st.addressOf d) d.owned lba ∧ ¬InRun dst d.owned lba := by
    refine ⟨fun h ↦ hne (hst.apart d' hd' d hd lba hlba h), fun h ↦ ?_⟩
    have htype := (hst.home d' hd' lba hlba).2
    rw [(hfree lba h).2] at htype
    cases htype
  have hused (lba : ℕ) (hlba : st.blockTypes lba = .used) :
      ¬InRun (st.addressOf d) d.owned lba ∧ ¬InRun dst d.owned lba := by
    refine ⟨fun h ↦ ?_, fun h ↦ ?_⟩
    · rw [hsource lba h] at hlba
      cases hlba
    · rw [(hfree lba h).2] at hlba
      cases hlba
  have hnot (lba : ℕ) (hlba : InRun dst d.owned lba) : ¬InRun (st.addressOf d) d.owned lba := by
    intro h
    have htype := hsource lba h
    rw [(hfree lba hlba).2] at htype
    cases htype
  have hdisk (d' : DedupBlock) (hd' : d' ∈ dedup) (b : ℕ) (hb : b < d'.owned) :
      (st.evict (st.addressOf d) dst d.owned).disk
          ((st.evict (st.addressOf d) dst d.owned).addressOf d' + b) =
        st.disk (st.addressOf d' + b) := by
    rw [addressOf_evict]
    split_ifs with heq
    · obtain rfl := (haddress d' hd').mp heq
      exact copy_in hb
    · exact copy_out (hother d' hd' (mt (haddress d' hd').mpr heq) _ (inRun_add hb)).2
  refine ⟨?_, ⟨rfl, rfl⟩, rfl, rfl, fun slot e he ↦ ⟨e, he, ?_, fun _ _ _ ↦ rfl⟩, hdisk⟩
  · exact
      { blockSize_pos := hst.blockSize_pos
        superblock := by
          have hzero := hst.superblock
          rw [blockTypes_evict hnot, if_neg fun h ↦ ?_, if_neg fun h ↦ ?_]
          · exact hzero
          · rw [(hfree 0 h).2] at hzero
            cases hzero
          · rw [hsource 0 h] at hzero
            cases hzero
        marked := by
          intro lba hlba
          rw [blockTypes_evict hnot, bitmap_evict]
          split_ifs
          · simp
          · simp
          · exact hst.marked lba hlba
        extents := by
          intro slot e he lba hlba
          obtain ⟨hlt, htype⟩ := hst.extents slot e he lba hlba
          obtain ⟨hsrc, hdst⟩ := hused lba htype
          refine ⟨hlt, ?_⟩
          rw [blockTypes_evict hnot, if_neg hsrc, if_neg hdst, htype]
        shared := hst.shared
        home := by
          intro d' hd' lba hlba
          rw [hhome d' hd'] at hlba
          rw [blockTypes_evict hnot]
          split_ifs at hlba with hd'd
          · rw [if_neg (hnot lba hlba), if_pos hlba]
            exact ⟨(hfree lba hlba).1, rfl⟩
          · obtain ⟨hsrc, hdst⟩ := hother d' hd' hd'd lba hlba
            rw [if_neg hsrc, if_neg hdst]
            exact hst.home d' hd' lba hlba
        header := by
          intro d' hd'
          have hbase := hdisk d' hd' 0 (hst.owned_pos hd')
          rw [Nat.add_zero, Nat.add_zero] at hbase
          rw [hbase]
          exact hst.header d' hd'
        apart := by
          intro d₁ hd₁ d₂ hd₂ lba hlba₁ hlba₂
          rw [hhome d₁ hd₁] at hlba₁
          rw [hhome d₂ hd₂] at hlba₂
          split_ifs at hlba₁ hlba₂ with h₁ h₂ h₂
          · exact h₁.trans h₂.symm
          · exact absurd hlba₁ (hother d₂ hd₂ h₂ lba hlba₂).2
          · exact absurd hlba₂ (hother d₁ hd₁ h₁ lba hlba₁).2
          · exact hst.apart d₁ hd₁ d₂ hd₂ lba hlba₁ hlba₂
        live := by
          intro lba hlba
          rw [blockTypes_evict hnot] at hlba
          split_ifs at hlba with hsrc hdst
          · exact ⟨d, hd, (hhome d hd lba).mpr (by rwa [if_pos rfl])⟩
          · obtain ⟨d', hd', hin⟩ := hst.live lba hlba
            have hne : d' ≠ d := by
              rintro rfl
              exact hsrc hin
            exact ⟨d', hd', (hhome d' hd' lba).mpr (by rwa [if_neg hne])⟩ }
  · unfold readRun
    split_ifs with hstart
    · rfl
    · refine congrArg some (Prod.ext rfl (List.map_congr_left fun b hb ↦ ?_))
      have hcovers : Covers e (e.startBlock + b) := ⟨hstart, inRun_add (List.mem_range.mp hb)⟩
      exact copy_out (hused _ (hst.extents slot e he _ hcovers).2).2

end Evict

/-! ### Moves of extents -/

section Move

variable {dedup : List DedupBlock} {refcount : ℕ → ℕ} {st : CompactState} {slot slot' : Slot}
  {e : ExtentRun} {dst : ℕ}

/-- Only the extent itself gets another start. -/
theorem run_setStart (start : ℕ) (st : CompactState) (slot slot' : Slot) :
    (st.setStart start slot).run slot' =
      if slot' = slot then (st.run slot').map fun e ↦ { e with startBlock := start }
      else st.run slot' := by
  cases slot with
  | inline inode extent =>
    cases slot' with
    | overflow i => rfl
    | inline inode' extent' =>
      simp only [CompactState.setStart, CompactState.run, List.getElem?_modify, Slot.inline.injEq]
      by_cases hinode : inode = inode'
      · subst hinode
        cases st.inodes[inode]? with
        | none => simp
        | some record =>
          by_cases hextent : extent = extent'
          · subst hextent
            simp
          · simp [hextent, Ne.symm hextent]
      · simp [hinode, Ne.symm hinode]
  | overflow i =>
    cases slot' with
    | inline inode' extent' => rfl
    | overflow i' =>
      simp only [CompactState.setStart, CompactState.run, List.getElem?_modify, Slot.overflow.injEq]
      by_cases hi : i = i'
      · subst hi
        cases st.overflow[i]? <;> simp
      · simp [hi, Ne.symm hi]

theorem setStart_inodes (start : ℕ) (st : CompactState) (slot : Slot) :
    (st.setStart start slot).inodes.map
        (fun record ↦ (record.inodeId, record.fileSize, record.extents.length)) =
      st.inodes.map fun record ↦ (record.inodeId, record.fileSize, record.extents.length) := by
  cases slot with
  | overflow i => rfl
  | inline inode extent =>
    refine List.ext_getElem? fun k ↦ ?_
    simp only [CompactState.setStart, List.getElem?_map, List.getElem?_modify]
    cases st.inodes[k]? with
    | none => rfl
    | some record => split_ifs <;> simp

theorem setStart_overflow (start : ℕ) (st : CompactState) (slot : Slot) :
    (st.setStart start slot).overflow.map (fun record ↦ (record.inodeId, record.logicalOffset)) =
      st.overflow.map fun record ↦ (record.inodeId, record.logicalOffset) := by
  cases slot with
  | inline inode extent => rfl
  | overflow i =>
    refine List.ext_getElem? fun k ↦ ?_
    simp only [CompactState.setStart, List.getElem?_map, List.getElem?_modify]
    cases st.overflow[k]? with
    | none => rfl
    | some record => split_ifs <;> simp

/-- What a move of an extent leaves of the volume: the records apart, the two runs differ. -/
theorem moveExtent_volume (slot : Slot) (e : ExtentRun) (dst : ℕ) (st : CompactState) :
    (st.moveExtent slot e dst).blockSize = st.blockSize ∧
      (st.moveExtent slot e dst).totalBlocks = st.totalBlocks ∧
      (st.moveExtent slot e dst).relocs = st.relocs := by
  cases slot <;> exact ⟨rfl, rfl, rfl⟩

theorem moveExtent_disk (slot : Slot) (e : ExtentRun) (dst : ℕ) (st : CompactState) :
    (st.moveExtent slot e dst).disk = copy e.startBlock dst e.blockCount st.disk := by
  cases slot <;> rfl

theorem blockTypes_move (slot : Slot) (st : CompactState)
    (hapart : ∀ lba, InRun dst e.blockCount lba → ¬InRun e.startBlock e.blockCount lba) (lba : ℕ) :
    (st.moveExtent slot e dst).blockTypes lba =
      if InRun e.startBlock e.blockCount lba then .free
      else if InRun dst e.blockCount lba then .used else st.blockTypes lba := by
  have htypes := blockTypes_relocate .used st hapart lba
  cases slot <;> exact htypes

theorem bitmap_move (slot : Slot) (e : ExtentRun) (dst lba : ℕ) (st : CompactState) :
    (st.moveExtent slot e dst).bitmap lba =
      if InRun e.startBlock e.blockCount lba then false
      else if InRun dst e.blockCount lba then true else st.bitmap lba := by
  cases slot <;> rfl

theorem run_move (slot slot' : Slot) (e : ExtentRun) (dst : ℕ) (st : CompactState) :
    (st.moveExtent slot e dst).run slot' =
      if slot' = slot then (st.run slot').map fun e ↦ { e with startBlock := dst }
      else st.run slot' := by
  rw [CompactState.moveExtent, run_setStart]
  cases slot' <;> rfl

theorem home_move (slot : Slot) (e : ExtentRun) (dst : ℕ) (st : CompactState) (d : DedupBlock) :
    (st.moveExtent slot e dst).addressOf d = st.addressOf d := by
  rw [CompactState.addressOf, (moveExtent_volume slot e dst st).2.2, CompactState.addressOf]

/-- An extent that no other shares is moved with its blocks. -/
theorem Consistent.move (hst : Consistent dedup refcount st) (hrun : st.run slot = some e)
    (hstart : e.startBlock ≠ 0) (hcounts : ∀ lba, Covers e lba → refcount lba = 1)
    (hdst : dst ≠ 0) (hfree : st.FreeRun dst e.blockCount) :
    Consistent dedup refcount (st.moveExtent slot e dst) ∧
      Keeps dedup refcount st (st.moveExtent slot e dst) := by
  have hsource (lba : ℕ) (hlba : InRun e.startBlock e.blockCount lba) :
      lba < st.totalBlocks ∧ st.blockTypes lba = .used := hst.extents slot e hrun lba ⟨hstart, hlba⟩
  have hnot (lba : ℕ) (hlba : InRun dst e.blockCount lba) :
      ¬InRun e.startBlock e.blockCount lba := by
    intro h
    have htype := (hsource lba h).2
    rw [(hfree lba hlba).2] at htype
    cases htype
  -- An extent that is not moved has no block in either run.
  have hother {slot' : Slot} {e' : ExtentRun} (hne : slot' ≠ slot)
      (hrun' : st.run slot' = some e') {lba : ℕ} (hlba : Covers e' lba) :
      ¬InRun e.startBlock e.blockCount lba ∧ ¬InRun dst e.blockCount lba := by
    refine ⟨fun h ↦ ?_, fun h ↦ ?_⟩
    · exact (hst.shared lba).mpr ⟨slot, slot', e, e', hne.symm, hrun, hrun', ⟨hstart, h⟩, hlba⟩
        (hcounts lba ⟨hstart, h⟩)
    · have htype := (hst.extents slot' e' hrun' lba hlba).2
      rw [(hfree lba h).2] at htype
      cases htype
  have hkeep (lba : ℕ) (htype : st.blockTypes lba ≠ .free) (hused : st.blockTypes lba ≠ .used) :
      ¬InRun e.startBlock e.blockCount lba ∧ ¬InRun dst e.blockCount lba :=
    ⟨fun h ↦ hused (hsource lba h).2, fun h ↦ htype (hfree lba h).2⟩
  have hhome (d : DedupBlock) (hd : d ∈ dedup) (lba : ℕ) (hlba : st.Home d lba) :
      ¬InRun e.startBlock e.blockCount lba ∧ ¬InRun dst e.blockCount lba := by
    have htype := (hst.home d hd lba hlba).2
    exact hkeep lba (by rw [htype]; exact BlockType.noConfusion)
      (by rw [htype]; exact BlockType.noConfusion)
  have hhomeIff (d : DedupBlock) (lba : ℕ) :
      (st.moveExtent slot e dst).Home d lba ↔ st.Home d lba := by
    unfold CompactState.Home
    rw [home_move]
  have hdisk (d : DedupBlock) (hd : d ∈ dedup) (b : ℕ) (hb : b < d.owned) :
      (st.moveExtent slot e dst).disk ((st.moveExtent slot e dst).addressOf d + b) =
        st.disk (st.addressOf d + b) := by
    rw [home_move, moveExtent_disk]
    exact copy_out (hhome d hd _ (inRun_add hb)).2
  have hrunMoved : (st.moveExtent slot e dst).run slot = some { e with startBlock := dst } := by
    rw [run_move, if_pos rfl, hrun, Option.map_some]
  have hrunOther {slot' : Slot} (hne : slot' ≠ slot) :
      (st.moveExtent slot e dst).run slot' = st.run slot' := by
    rw [run_move, if_neg hne]
  obtain ⟨hsize, htotal, -⟩ := moveExtent_volume slot e dst st
  refine ⟨?_, ⟨hsize, htotal⟩, setStart_inodes dst _ slot, setStart_overflow dst _ slot, ?_, hdisk⟩
  · exact
      { blockSize_pos := hsize ▸ hst.blockSize_pos
        superblock := by
          obtain ⟨hsrc, hdst⟩ := hkeep 0 (by rw [hst.superblock]; exact BlockType.noConfusion)
            (by rw [hst.superblock]; exact BlockType.noConfusion)
          rw [blockTypes_move slot st hnot, if_neg hsrc, if_neg hdst, hst.superblock]
        marked := by
          intro lba hlba
          rw [blockTypes_move slot st hnot, bitmap_move]
          split_ifs
          · simp
          · simp
          · exact hst.marked lba (htotal ▸ hlba)
        extents := by
          intro slot' e' he' lba hlba
          rw [blockTypes_move slot st hnot, htotal]
          by_cases hslot : slot' = slot
          · rw [hslot, hrunMoved, Option.some.injEq] at he'
            subst he'
            rw [if_neg (hnot lba hlba.2), if_pos hlba.2]
            exact ⟨(hfree lba hlba.2).1, rfl⟩
          · rw [hrunOther hslot] at he'
            obtain ⟨hsrc, hdst⟩ := hother hslot he' hlba
            rw [if_neg hsrc, if_neg hdst]
            exact hst.extents slot' e' he' lba hlba
        shared := by
          intro lba
          rw [hst.shared lba]
          constructor
          · rintro ⟨s, s', e₁, e₂, hne, h₁, h₂, hc₁, hc₂⟩
            have hcount : refcount lba ≠ 1 :=
              (hst.shared lba).mpr ⟨s, s', e₁, e₂, hne, h₁, h₂, hc₁, hc₂⟩
            have hunmoved {s : Slot} {e₁ : ExtentRun} (h₁ : st.run s = some e₁)
                (hc₁ : Covers e₁ lba) : s ≠ slot := by
              rintro rfl
              rw [hrun, Option.some.injEq] at h₁
              exact hcount (hcounts lba (h₁ ▸ hc₁))
            exact ⟨s, s', e₁, e₂, hne, (hrunOther (hunmoved h₁ hc₁)).trans h₁,
              (hrunOther (hunmoved h₂ hc₂)).trans h₂, hc₁, hc₂⟩
          · rintro ⟨s, s', e₁, e₂, hne, h₁, h₂, hc₁, hc₂⟩
            by_cases hs : s = slot
            · have hs' : s' ≠ slot := fun h ↦ hne (hs.trans h.symm)
              rw [hs, hrunMoved, Option.some.injEq] at h₁
              rw [hrunOther hs'] at h₂
              subst h₁
              exact absurd hc₁.2 (hother hs' h₂ hc₂).2
            · rw [hrunOther hs] at h₁
              by_cases hs' : s' = slot
              · rw [hs', hrunMoved, Option.some.injEq] at h₂
                subst h₂
                exact absurd hc₂.2 (hother hs h₁ hc₁).2
              · rw [hrunOther hs'] at h₂
                exact ⟨s, s', e₁, e₂, hne, h₁, h₂, hc₁, hc₂⟩
        home := by
          intro d hd lba hlba
          rw [hhomeIff] at hlba
          obtain ⟨hsrc, hdst⟩ := hhome d hd lba hlba
          rw [blockTypes_move slot st hnot, htotal, if_neg hsrc, if_neg hdst]
          exact hst.home d hd lba hlba
        header := by
          intro d hd
          have hbase := hdisk d hd 0 (hst.owned_pos hd)
          rw [Nat.add_zero, Nat.add_zero] at hbase
          rw [hbase, hsize]
          exact hst.header d hd
        apart := by
          intro d hd d' hd' lba hlba hlba'
          rw [hhomeIff] at hlba hlba'
          exact hst.apart d hd d' hd' lba hlba hlba'
        live := by
          intro lba hlba
          rw [blockTypes_move slot st hnot] at hlba
          split_ifs at hlba
          obtain ⟨d, hd, hin⟩ := hst.live lba hlba
          exact ⟨d, hd, (hhomeIff d lba).mpr hin⟩ }
  · intro slot' e' he'
    by_cases hslot : slot' = slot
    · subst hslot
      rw [hrun, Option.some.injEq] at he'
      subst he'
      refine ⟨_, hrunMoved, ?_, fun _ b hb ↦ ?_⟩
      · rw [readRun, readRun, if_neg hdst, if_neg hstart, moveExtent_disk]
        refine congrArg some (Prod.ext rfl (List.map_congr_left fun b hb ↦ ?_))
        exact copy_in (List.mem_range.mp hb)
      · rw [hcounts _ ⟨hstart, inRun_add hb⟩]
        -- A free block has no extent, and so its count is one.
        by_contra hcount
        obtain ⟨s, -, e₁, -, -, h₁, -, hc₁, -⟩ := (hst.shared _).mp hcount
        have htype := (hst.extents s e₁ h₁ _ hc₁).2
        rw [(hfree _ (inRun_add hb)).2] at htype
        cases htype
    · refine ⟨e', (hrunOther hslot).trans he', ?_, fun _ _ _ ↦ rfl⟩
      unfold readRun
      split_ifs with hzero
      · rfl
      · refine congrArg some (Prod.ext rfl (List.map_congr_left fun b hb ↦ ?_))
        rw [moveExtent_disk]
        exact copy_out (hother hslot he' ⟨hzero, inRun_add (List.mem_range.mp hb)⟩).2

end Move

/-! ### The whole volume -/

section Whole

variable {dedup : List DedupBlock} {refcount : ℕ → ℕ} {st st' : CompactState}

section

variable (hkeeps : Keeps dedup refcount st st')
include hkeeps

theorem Keeps.extents_eq : st'.inodes.map (fun record ↦
        (record.inodeId, record.fileSize, record.extents.map (readRun st'.disk))) =
      st.inodes.map fun record ↦
        (record.inodeId, record.fileSize, record.extents.map (readRun st.disk)) := by
  refine List.ext_getElem? fun i ↦ ?_
  have hrecord := congrArg (·[i]?) hkeeps.inodes
  simp only [List.getElem?_map] at hrecord ⊢
  cases hi : st.inodes[i]? with
  | none =>
    rw [hi, Option.map_none, Option.map_eq_none_iff] at hrecord
    rw [hrecord, Option.map_none, Option.map_none]
  | some record =>
    rw [hi, Option.map_some, Option.map_eq_some_iff] at hrecord
    obtain ⟨record', hi', heq⟩ := hrecord
    simp only [Prod.mk.injEq] at heq
    obtain ⟨hid, hsize, hlength⟩ := heq
    rw [hi', Option.map_some, Option.map_some, hid, hsize]
    refine congrArg (fun extents ↦ some (record.inodeId, record.fileSize, extents)) ?_
    refine List.ext_getElem? fun j ↦ ?_
    simp only [List.getElem?_map]
    cases hj : record.extents[j]? with
    | none =>
      have hj' : record'.extents[j]? = none := by
        rw [List.getElem?_eq_none_iff] at hj ⊢
        omega
      rw [hj']
      rfl
    | some e =>
      have hrun : st.run (.inline i j) = some e := by rw [CompactState.run, hi, Option.bind_some, hj]
      obtain ⟨e', hrun', hread, -⟩ := hkeeps.runs _ e hrun
      rw [CompactState.run, hi', Option.bind_some] at hrun'
      rw [hrun', Option.map_some, Option.map_some, hread]

theorem Keeps.overflow_eq : st'.overflow.map (fun record ↦
        (record.inodeId, record.logicalOffset, readRun st'.disk record.run)) =
      st.overflow.map fun record ↦
        (record.inodeId, record.logicalOffset, readRun st.disk record.run) := by
  refine List.ext_getElem? fun i ↦ ?_
  have hrecord := congrArg (·[i]?) hkeeps.overflow
  simp only [List.getElem?_map] at hrecord ⊢
  cases hi : st.overflow[i]? with
  | none =>
    rw [hi, Option.map_none, Option.map_eq_none_iff] at hrecord
    rw [hrecord, Option.map_none, Option.map_none]
  | some record =>
    rw [hi, Option.map_some, Option.map_eq_some_iff] at hrecord
    obtain ⟨record', hi', heq⟩ := hrecord
    simp only [Prod.mk.injEq] at heq
    have hrun : st.run (.overflow i) = some record.run := by rw [CompactState.run, hi]; rfl
    obtain ⟨e', hrun', hread, -⟩ := hkeeps.runs _ _ hrun
    rw [CompactState.run, hi', Option.map_some, Option.some.injEq] at hrun'
    rw [hi', Option.map_some, Option.map_some, heq.1, heq.2, hrun', hread]

theorem Keeps.fileData_eq (inodeId : ℕ) : st'.fileData inodeId = st.fileData inodeId := by
  have hinodes := congrArg (fun records ↦ (records.filter (·.1 = inodeId)).map Prod.snd)
    hkeeps.extents_eq
  have hoverflow := congrArg (fun records ↦ (records.filter (·.1 = inodeId)).map Prod.snd)
    hkeeps.overflow_eq
  simp only [List.filter_map, List.map_map] at hinodes hoverflow
  exact Prod.ext hinodes hoverflow

theorem Keeps.preserved (hst' : Consistent dedup refcount st') :
    Preserved dedup refcount st st' where
  files := hkeeps.fileData_eq
  refcounts := by
    intro slot e e' he he' hstart b hb
    obtain ⟨_, hrun, -, hcounts⟩ := hkeeps.runs slot e he
    rw [he', Option.some.injEq] at hrun
    subst hrun
    exact hcounts hstart b hb
  extents_allocated := by
    intro slot e he lba hlba
    obtain ⟨hlt, htype⟩ := hst'.extents slot e he lba hlba
    rw [← Bool.not_eq_false, hst'.marked lba hlt, htype]
    exact BlockType.noConfusion
  dedup_allocated := by
    intro d hd lba hlba
    obtain ⟨hlt, htype⟩ := hst'.home d hd lba hlba
    rw [← Bool.not_eq_false, hst'.marked lba hlt, htype]
    exact BlockType.noConfusion
  dedup_kept := hkeeps.dedup
  dedup_apart := by
    intro d hd lba hlba slot e he hcovers
    have htype := (hst'.home d hd lba hlba).2
    rw [(hst'.extents slot e he lba hcovers).2] at htype
    cases htype

end

end Whole

end Obmafs3.Defrag
