import Obmafs3.Defrag.DedupPhase

/-!
# When the dedup phase finishes

The loop over the obstacles ends because each turn takes blocks out of the target or goes on to a
later slot, and the loop around it because one of the cursors moves. Each condition of `Orderly` is
needed: without it, the loop comes back to where it was or leaves a block in the target.
-/

set_option autoImplicit false

namespace Obmafs3.Defrag.DedupState

open Library.Runs Library.Loop

variable {dedupBlockSize : ℕ} {s : DedupState} {count slot : ℕ}

/-! ### Steps -/

theorem step_of_over (h : s.Over) : s.step dedupBlockSize = s := by
  unfold step
  rcases h with h | h
  · rw [h]
  · rw [h]

theorem step_scanning (hstage : s.stage = .scanning) :
    s.step dedupBlockSize = s.turn dedupBlockSize := by
  unfold step
  rw [hstage]

section

variable (hstage : s.stage = .evicting count slot)
include hstage

theorem step_evicting (hslot : slot < count) : s.step dedupBlockSize = s.evictSlot count slot := by
  unfold step
  rw [hstage]
  exact if_neg (Nat.not_le.mpr hslot)

theorem step_move (hslot : count ≤ slot) : s.step dedupBlockSize = s.moveRun count := by
  unfold step
  rw [hstage]
  exact if_pos hslot

theorem not_over_of_evicting : ¬s.Over := by
  unfold Over
  rw [hstage]
  exact fun h ↦ h.elim nofun nofun

end

theorem not_overwrites_of_scanning (hstage : s.stage = .scanning) : ¬s.Overwrites := by
  unfold Overwrites
  rw [hstage]
  exact id

theorem overwrites_move (hstage : s.stage = .evicting count slot) (hslot : count ≤ slot) :
    s.Overwrites ↔ s.scan + count ≤ s.st.totalBlocks ∧ ¬s.Yields s.st.writeCursor count := by
  unfold Overwrites
  rw [hstage]
  exact iff_of_eq (if_pos hslot)

/-! ### Obstacles -/

/-- A block of the target that is tried: it is not part of the source, and marked. -/
structure InTheWay (s : DedupState) (count slot : ℕ) : Prop where
  inside : s.target slot < s.st.totalBlocks
  not_free : s.st.blockTypes (s.target slot) ≠ .free
  marked : s.st.bitmap (s.target slot) = true
  not_source : ¬InRun s.scan count (s.target slot)

theorem obstacle_nothing : s.obstacle count slot = .nothing ↔ ¬s.InTheWay count slot := by
  unfold obstacle
  split_ifs with hnothing
  · refine iff_of_true rfl fun hway ↦ ?_
    rcases hnothing with h | h | h | h
    · exact hway.not_source h
    · exact absurd hway.inside (Nat.not_lt.mpr h)
    · exact h hway.marked
    · exact hway.not_free h
  · simp only [not_or, not_not] at hnothing
    obtain ⟨hsource, hinside, hmarked, hfree⟩ := hnothing
    refine iff_of_false ?_ (not_not.mpr ⟨Nat.not_le.mp hinside, hfree, hmarked, hsource⟩)
    dsimp only
    cases (s.st.disk (runStart s.st.isDedup (s.target slot))).header with
    | none => exact nofun
    | some header =>
      dsimp only
      split_ifs
      · exact nofun
      · exact nofun

/-- The start of the dedup blocks next to the block at a slot. -/
def base (s : DedupState) (slot : ℕ) : ℕ := runStart s.st.isDedup (s.target slot)

/-- The place that is found at the end for some blocks, and the cursor that is left. -/
def place (s : DedupState) (count blocks : ℕ) : ℕ × ℕ :=
  s.st.findFreeRangeAtEnd blocks (s.st.writeCursor + count)

theorem obstacle_eq (hway : s.InTheWay count slot) :
    s.obstacle count slot = (s.st.disk (s.base slot)).header.elim
      (.fragment (runEnd s.st.isDedup (s.st.totalBlocks - s.base slot) (s.base slot)))
      fun header ↦
        if (s.place count (storedBlocks s.st.blockSize header)).1 = 0 ∨
          s.st.totalBlocks < s.base slot + storedBlocks s.st.blockSize header then
          .stays (s.place count (storedBlocks s.st.blockSize header)).2
        else .moves (s.base slot) (s.place count (storedBlocks s.st.blockSize header)).1
          (storedBlocks s.st.blockSize header)
          (s.place count (storedBlocks s.st.blockSize header)).2 := by
  have hnothing : ¬(InRun s.scan count (s.target slot) ∨ s.st.totalBlocks ≤ s.target slot ∨
      ¬s.st.bitmap (s.target slot) ∨ s.st.blockTypes (s.target slot) = .free) := by
    simp only [not_or, not_not]
    exact ⟨hway.not_source, Nat.not_le.mpr hway.inside, hway.marked, hway.not_free⟩
  unfold obstacle
  rw [if_neg hnothing]
  unfold base
  dsimp only
  cases (s.st.disk (runStart s.st.isDedup (s.target slot))).header with
  | none => rfl
  | some header => rfl

theorem inTheWay_of_ne (h : s.obstacle count slot ≠ .nothing) : s.InTheWay count slot :=
  not_not.mp fun hway ↦ h (obstacle_nothing.mpr hway)

variable {fragEnd : ℕ}

theorem obstacle_fragment (h : s.obstacle count slot = .fragment fragEnd) : s.InTheWay count slot ∧
      fragEnd = runEnd s.st.isDedup (s.st.totalBlocks - s.base slot) (s.base slot) := by
  have hway : s.InTheWay count slot := inTheWay_of_ne (by rw [h]; exact nofun)
  refine ⟨hway, ?_⟩
  rw [obstacle_eq hway] at h
  cases hheader : (s.st.disk (s.base slot)).header with
  | none =>
    rw [hheader] at h
    exact (Obstacle.fragment.inj h).symm
  | some header =>
    rw [hheader, Option.elim_some] at h
    split_ifs at h

theorem evictSlot_nothing (h : s.obstacle count slot = .nothing) :
    s.evictSlot count slot = { s with stage := .evicting count (slot + 1) } := by
  rw [evictSlot, h]

theorem evictSlot_fragment (h : s.obstacle count slot = .fragment fragEnd) :
    s.evictSlot count slot = { s with
        stage := .evicting count (CompactState.nextSlot s.st.writeCursor slot fragEnd 0) } := by
  rw [evictSlot, h]

theorem evictSlot_stays {rangeCursor : ℕ} (h : s.obstacle count slot = .stays rangeCursor) :
    s.evictSlot count slot = { s with
        st := { s.st with rangeCursor := rangeCursor }
        stage := .evicting count count } := by
  rw [evictSlot, h]

/-- What is moved is what has a header at the start of the dedup blocks, and the place lies behind the
target. -/
structure Movable (s : DedupState) (count slot base dst blocks : ℕ) : Prop where
  way : s.InTheWay count slot
  base_eq : base = s.base slot
  header : ∃ header, (s.st.disk base).header = some header ∧
    blocks = storedBlocks s.st.blockSize header
  dst_eq : dst = (s.place count blocks).1
  behind : s.st.writeCursor + count < dst
  inside : base + blocks ≤ s.st.totalBlocks

theorem obstacle_moves {base dst blocks rangeCursor : ℕ}
    (h : s.obstacle count slot = .moves base dst blocks rangeCursor) :
    s.Movable count slot base dst blocks := by
  have hway : s.InTheWay count slot := inTheWay_of_ne (by rw [h]; exact nofun)
  rw [obstacle_eq hway] at h
  cases hheader : (s.st.disk (s.base slot)).header with
  | none =>
    rw [hheader] at h
    cases h
  | some header =>
    rw [hheader, Option.elim_some] at h
    split_ifs at h with hplace
    cases h
    rw [not_or, Nat.not_lt] at hplace
    exact ⟨hway, rfl, ⟨header, hheader, rfl⟩, rfl, (scanRangeAtEnd_spec hplace.1).1, hplace.2⟩

/-! ### One turn of the loop over the obstacles -/

section Turn

variable {base dst blocks rangeCursor fragEnd : ℕ}

variable {lba : ℕ} {st : CompactState}

theorem immovable_of_dedup (h : st.isDedup lba = true) : st.immovable lba = false := by
  have htype : st.blockTypes lba = .dedup := of_decide_eq_true h
  rw [CompactState.immovable, htype]

theorem immovable_of_free (h : st.blockTypes lba = .free) : st.immovable lba = false := by
  rw [CompactState.immovable, h]

/-- A block that is neither free nor to be kept is a dedup block. -/
theorem isDedup_of_immovable (h : st.immovable lba = false) (hfree : st.blockTypes lba ≠ .free) :
    st.isDedup lba = true :=
  decide_eq_true ((immovable_eq_false h).resolve_left hfree)

theorem base_le (s : DedupState) (slot : ℕ) : s.base slot ≤ s.target slot := runStart_le _ _

/-- The blocks from the start up to the one at the slot. -/
theorem isDedup_of_base (hlba : s.base slot ≤ lba) (hlt : lba < s.target slot) :
    s.st.isDedup lba = true :=
  runStart_all hlba hlt

/-- The dedup blocks without a header end behind the slot when there is one at it, and at the slot
when there is none. -/
theorem fragment_end (h : s.obstacle count slot = .fragment fragEnd) :
    if s.st.immovable (s.target slot) then fragEnd = s.target slot
    else s.target slot < fragEnd ∧ ∀ lba, s.target slot ≤ lba → lba < fragEnd →
      s.st.immovable lba = false := by
  obtain ⟨hway, rfl⟩ := obstacle_fragment h
  have hinside : s.target slot < s.base slot + (s.st.totalBlocks - s.base slot) := by
    have hle := base_le s slot
    have hlt := hway.inside
    omega
  split_ifs with himmovable
  · refine runEnd_eq (fun lba hlba hlt ↦ isDedup_of_base hlba hlt) (base_le s slot) hinside ?_
    refine Bool.eq_false_iff.mpr fun hdedup ↦ ?_
    rw [immovable_of_dedup hdedup] at himmovable
    cases himmovable
  · rw [Bool.not_eq_true] at himmovable
    constructor
    · refine lt_runEnd (fun lba hlba hle ↦ ?_) (base_le _ _) hinside
      rcases Nat.lt_or_eq_of_le hle with hlt | rfl
      · exact isDedup_of_base hlba hlt
      · exact isDedup_of_immovable himmovable hway.not_free
    · intro lba hlba hlt
      exact immovable_of_dedup (runEnd_all (Nat.le_trans (base_le _ _) hlba) hlt)

section

variable (h : s.obstacle count slot = .moves base dst blocks rangeCursor)
include h

/-- The state after an obstacle has been moved. -/
theorem evictSlot_moves : s.evictSlot count slot = { s with
        st := ({ s.st with rangeCursor := rangeCursor } : CompactState).relocate base dst blocks
          .dedup
        evicts := s.evicts ++ [(base, dst)]
        stage := .evicting count (CompactState.nextSlot s.st.writeCursor slot base blocks) } := by
  rw [evictSlot, h]

variable (hslot : slot < count) (hlba : lba < s.st.writeCursor + count)
include hslot hlba

/-- In the target the blocks that were moved are free, and all others are as they were. -/
theorem blockTypes_moves : (s.evictSlot count slot).st.blockTypes lba =
      if InRun base blocks lba then .free else s.st.blockTypes lba := by
  have hmovable := obstacle_moves h
  have hbehind := hmovable.behind
  have hbase : base ≤ dst := by
    have hle := base_le s slot
    rw [← hmovable.base_eq, target] at hle
    omega
  have hout : ¬InRun dst blocks lba := fun hin ↦ by
    have hle := hin.1
    omega
  rw [evictSlot_moves h]
  unfold CompactState.relocate
  dsimp only
  rw [if_pos hbase]
  unfold fill
  rw [if_neg hout]

theorem immovable_moves : (s.evictSlot count slot).st.immovable lba =
      if InRun base blocks lba then false else s.st.immovable lba := by
  have htype := blockTypes_moves h hslot hlba
  split_ifs at htype ⊢
  · exact immovable_of_free htype
  · rw [CompactState.immovable, htype, CompactState.immovable]

end

end Turn

/-! ### The loop over the obstacles -/

section Obstacles

/-- What the loop over the obstacles does not change. -/
structure SameTurn (count : ℕ) (s s' : DedupState) : Prop where
  scan : s'.scan = s.scan
  cursor : s'.st.writeCursor = s.st.writeCursor
  total : s'.st.totalBlocks = s.st.totalBlocks
  evicting : ∃ slot, s'.stage = .evicting count slot

theorem sameTurn_evictSlot (s : DedupState) (count slot : ℕ) :
    SameTurn count s (s.evictSlot count slot) := by
  unfold evictSlot
  cases s.obstacle count slot with
  | nothing => exact ⟨rfl, rfl, rfl, _, rfl⟩
  | fragment fragEnd => exact ⟨rfl, rfl, rfl, _, rfl⟩
  | stays rangeCursor => exact ⟨rfl, rfl, rfl, _, rfl⟩
  | moves base dst blocks rangeCursor => exact ⟨rfl, rfl, rfl, _, rfl⟩

/-- A target in which the slots that are done hold nothing that is to be kept. -/
def Cleared (s : DedupState) (count slot : ℕ) : Prop :=
  s.scan + count ≤ s.st.totalBlocks → s.Yields s.st.writeCursor (min slot count)

/-- The number of blocks up to the end of the target that are not free. -/
def nonFree (s : DedupState) (count : ℕ) : ℕ :=
  ((Finset.range (s.st.writeCursor + count)).filter fun lba ↦ s.st.blockTypes lba ≠ .free).card

/-- A turn gets on: it empties blocks or goes on to a later slot. -/
structure Progress (s s' : DedupState) (count slot slot' : ℕ) : Prop where
  stage : s'.stage = .evicting count slot'
  less : s'.nonFree count < s.nonFree count ∨ s'.nonFree count = s.nonFree count ∧ slot < slot'
  cleared : s'.Cleared count slot'

variable {base dst blocks rangeCursor fragEnd : ℕ}

/-- The slots up to a later one are done when the blocks there hold nothing to be kept. -/
theorem Cleared.extend {slot' : ℕ} (h : s.Cleared count slot)
    (hmore : s.scan + count ≤ s.st.totalBlocks →
      ∀ lba, s.target slot ≤ lba → lba < s.target slot' → s.st.immovable lba = false) :
    s.Cleared count slot' := by
  intro hcopies lba hlba
  rcases Nat.lt_or_ge lba (s.target slot) with hdone | hnew
  · refine h hcopies lba ⟨hlba.1, ?_⟩
    have hlt := hlba.2
    unfold target at hdone
    omega
  · refine hmore hcopies lba hnew ?_
    have hlt := hlba.2
    unfold target
    omega

section

variable (hstage : s.stage = .evicting count slot) (hslot : slot < count) (horderly : s.Orderly)
  (hcleared : s.Cleared count slot)
include hstage hslot horderly hcleared

theorem progress_nothing (h : s.obstacle count slot = .nothing) :
    Progress s (s.evictSlot count slot) count slot (slot + 1) := by
  unfold Orderly at horderly
  simp only [hstage, h] at horderly
  rw [evictSlot_nothing h]
  refine ⟨rfl, Or.inr ⟨rfl, Nat.lt_succ_self slot⟩, ?_⟩
  refine hcleared.extend fun hcopies lba hlba hlt ↦ ?_
  obtain rfl : lba = s.target slot := by
    unfold target at hlba hlt ⊢
    omega
  exact horderly hslot hcopies

theorem progress_fragment (h : s.obstacle count slot = .fragment fragEnd) :
    Progress s (s.evictSlot count slot) count slot
      (CompactState.nextSlot s.st.writeCursor slot fragEnd 0) := by
  have hend := fragment_end h
  unfold Orderly at horderly
  simp only [hstage, h] at horderly
  have hlater : slot < CompactState.nextSlot s.st.writeCursor slot fragEnd 0 := by
    unfold CompactState.nextSlot
    by_cases himmovable : s.st.immovable (s.target slot)
    · -- The first slot is passed over when nothing is copied.
      rw [if_pos himmovable] at hend
      have hfirst : slot = 0 := by
        by_contra hne
        rw [horderly hslot (Or.inr (Nat.pos_of_ne_zero hne))] at himmovable
        cases himmovable
      unfold target at hend
      rw [if_neg (by omega)]
      exact Nat.lt_succ_self slot
    · rw [if_neg himmovable] at hend
      have hlt := hend.1
      unfold target at hlt
      rw [if_pos (by omega)]
      omega
  rw [evictSlot_fragment h]
  refine ⟨rfl, Or.inr ⟨rfl, hlater⟩, ?_⟩
  refine hcleared.extend fun hcopies lba hlba hlt ↦ ?_
  have himmovable := horderly hslot (Or.inl hcopies)
  rw [himmovable, if_neg Bool.false_ne_true] at hend
  refine hend.2 lba hlba (Nat.lt_of_lt_of_le hlt ?_)
  have hbehind := hend.1
  unfold CompactState.nextSlot
  unfold target at hbehind ⊢
  split_ifs
  · omega
  · omega

theorem progress_stays (h : s.obstacle count slot = .stays rangeCursor) :
    Progress s (s.evictSlot count slot) count slot count := by
  unfold Orderly at horderly
  simp only [hstage, h] at horderly
  rw [evictSlot_stays h]
  refine ⟨rfl, Or.inr ⟨rfl, hslot⟩, ?_⟩
  refine Cleared.extend (s := s) hcleared fun hcopies lba hlba hlt ↦ ?_
  refine horderly hslot hcopies lba ⟨hlba, ?_⟩
  unfold target at hlt ⊢
  omega

end

section

variable (h : s.obstacle count slot = .moves base dst blocks rangeCursor) (hslot : slot < count)
include h hslot

theorem nonFree_moves_le : (s.evictSlot count slot).nonFree count ≤ s.nonFree count := by
  have hsame := sameTurn_evictSlot s count slot
  unfold nonFree
  rw [hsame.cursor]
  refine Finset.card_le_card fun lba hlba ↦ ?_
  rw [Finset.mem_filter, Finset.mem_range] at hlba ⊢
  rw [blockTypes_moves h hslot hlba.1] at hlba
  split_ifs at hlba
  · exact absurd rfl hlba.2
  · exact hlba

theorem nonFree_moves_lt (hblocks : 0 < blocks) :
    (s.evictSlot count slot).nonFree count < s.nonFree count := by
  have hmovable := obstacle_moves h
  have hsame := sameTurn_evictSlot s count slot
  have hbase : base < s.st.writeCursor + count := by
    have hle := base_le s slot
    rw [← hmovable.base_eq, target] at hle
    omega
  have hkept : s.st.blockTypes base ≠ .free := by
    rcases Nat.lt_or_eq_of_le (base_le s slot) with hlt | heq
    · have hdedup : s.st.blockTypes base = .dedup := by
        rw [hmovable.base_eq]
        exact of_decide_eq_true (isDedup_of_base (Nat.le_refl _) hlt)
      rw [hdedup]
      exact nofun
    · rw [hmovable.base_eq, heq]
      exact hmovable.way.not_free
  unfold nonFree
  rw [hsame.cursor]
  refine Finset.card_lt_card (Finset.ssubset_iff_of_subset ?_ |>.mpr ⟨base, ?_, ?_⟩)
  · intro lba hlba
    rw [Finset.mem_filter, Finset.mem_range] at hlba ⊢
    rw [blockTypes_moves h hslot hlba.1] at hlba
    split_ifs at hlba
    · exact absurd rfl hlba.2
    · exact hlba
  · exact Finset.mem_filter.mpr ⟨Finset.mem_range.mpr hbase, hkept⟩
  · rw [Finset.mem_filter, blockTypes_moves h hslot hbase,
      if_pos ⟨Nat.le_refl base, Nat.lt_add_of_pos_right hblocks⟩]
    exact fun hfree ↦ hfree.2 rfl

end

variable (hstage : s.stage = .evicting count slot) (hslot : slot < count) (horderly : s.Orderly)
  (hcleared : s.Cleared count slot)
include hstage hslot horderly hcleared

theorem progress_moves (h : s.obstacle count slot = .moves base dst blocks rangeCursor) :
    Progress s (s.evictSlot count slot) count slot
      (CompactState.nextSlot s.st.writeCursor slot base blocks) := by
  have hsame := sameTurn_evictSlot s count slot
  have hbase : base ≤ s.target slot := by
    rw [(obstacle_moves h).base_eq]
    exact base_le _ _
  unfold Orderly at horderly
  simp only [hstage, h] at horderly
  have hbehind := (horderly hslot).2
  refine ⟨by rw [evictSlot_moves h], ?_, ?_⟩
  · unfold CompactState.nextSlot
    split_ifs at hbehind ⊢
    · exact Or.inl (nonFree_moves_lt h hslot hbehind)
    · have hle := nonFree_moves_le h hslot
      omega
  · intro hcopies lba hlba
    rw [hsame.scan, hsame.total] at hcopies
    rw [hsame.cursor] at hlba
    obtain ⟨hge, hlt⟩ := hlba
    rw [immovable_moves h hslot (by omega)]
    split_ifs with hin
    · rfl
    · rcases Nat.lt_trichotomy lba (s.target slot) with hbefore | rfl | hafter
      · refine hcleared hcopies lba ⟨hge, ?_⟩
        unfold target at hbefore
        omega
      · unfold CompactState.nextSlot at hlt
        split_ifs at hbehind hlt
        · exact absurd ⟨hbase, by omega⟩ hin
        · exact hbehind hcopies
      · refine absurd ⟨Nat.le_trans hbase hafter.le, ?_⟩ hin
        unfold CompactState.nextSlot at hlt
        unfold target at hafter
        split_ifs at hlt
        · omega
        · omega

/-- Every turn gets on. -/
theorem exists_progress : ∃ slot', Progress s (s.evictSlot count slot) count slot slot' := by
  cases h : s.obstacle count slot with
  | nothing => exact ⟨_, progress_nothing hstage hslot horderly hcleared h⟩
  | fragment fragEnd => exact ⟨_, progress_fragment hstage hslot horderly hcleared h⟩
  | stays rangeCursor => exact ⟨_, progress_stays hstage hslot horderly hcleared h⟩
  | moves base dst blocks rangeCursor =>
    exact ⟨_, progress_moves hstage hslot horderly hcleared h⟩

end Obstacles

/-! ### Orderly runs finish -/

/-- The phase finishes from a state without copying over what is to be kept. -/
abbrev Finishing (dedupBlockSize : ℕ) : DedupState → Prop :=
  Fine (step dedupBlockSize) Over Overwrites

/-- The phase finishes from each state that the move of a dedup block can lead to. -/
def FinishesBehind (dedupBlockSize : ℕ) (s : DedupState) (count : ℕ) : Prop :=
  ∀ s' : DedupState, s'.stage = .scanning → s'.scan = s.scan + count →
    s'.st.writeCursor = s.st.writeCursor + count → s'.st.totalBlocks = s.st.totalBlocks →
    Always (step dedupBlockSize) Orderly s' → Finishing dedupBlockSize s'

variable {st : CompactState} {s' : DedupState} {last : ℕ}

theorem FinishesBehind.sameTurn (h : FinishesBehind dedupBlockSize s count)
    (hsame : SameTurn count s s') : FinishesBehind dedupBlockSize s' count := by
  intro t hstage hscan hcursor htotal
  rw [hsame.scan] at hscan
  rw [hsame.cursor] at hcursor
  rw [hsame.total] at htotal
  exact h t hstage hscan hcursor htotal

theorem finishing_move (hstage : s.stage = .evicting count slot) (hslot : count ≤ slot)
    (hcleared : s.Cleared count slot) (horderly : Always (step dedupBlockSize) Orderly s)
    (hbehind : FinishesBehind dedupBlockSize s count) : Finishing dedupBlockSize s := by
  have hnext := horderly.next
  rw [step_move hstage hslot] at hnext
  refine Fine.cons ?_ ?_
  · rw [overwrites_move hstage hslot, not_and_not_right]
    intro hcopies
    have hyields := hcleared hcopies
    rwa [Nat.min_eq_right hslot] at hyields
  · rw [step_move hstage hslot]
    unfold moveRun at hnext ⊢
    split_ifs at hnext ⊢
    · have hover : ({ s with stage := .failed } : DedupState).Over := Or.inr rfl
      exact fine_of_final hover id (step_of_over hover)
    · exact hbehind _ rfl rfl rfl rfl hnext

/-- The loop over the obstacles comes to the move: by the blocks that are not free in front of the end
of the target, and by the slots that are left. -/
theorem finishing_evicting (kept left : ℕ) (hkept : s.nonFree count = kept)
    (hleft : count - slot = left) (hstage : s.stage = .evicting count slot)
    (hcleared : s.Cleared count slot) (horderly : Always (step dedupBlockSize) Orderly s)
    (hbehind : FinishesBehind dedupBlockSize s count) : Finishing dedupBlockSize s := by
  induction kept using Nat.strong_induction_on generalizing s slot left with
  | _ kept ihkept =>
    induction left using Nat.strong_induction_on generalizing s slot with
    | _ left ihleft =>
      rcases Nat.lt_or_ge slot count with hslot | hslot
      · obtain ⟨slot', hprogress⟩ := exists_progress hstage hslot horderly.here hcleared
        have hsame := sameTurn_evictSlot s count slot
        have hnext := horderly.next
        rw [step_evicting hstage hslot] at hnext
        refine Fine.cons ?_ ?_
        · have hplace := horderly.here
          unfold Orderly at hplace
          unfold Overwrites
          simp only [hstage] at hplace ⊢
          rw [if_neg (Nat.not_le.mpr hslot)]
          cases h : s.obstacle count slot with
          | moves base dst blocks rangeCursor =>
            simp only [h] at hplace
            exact not_not.mpr (hplace hslot).1
          | nothing => exact id
          | fragment fragEnd => exact id
          | stays rangeCursor => exact id
        · rw [step_evicting hstage hslot]
          rcases hprogress.less with hless | ⟨heq, hlater⟩
          · exact ihkept _ (hkept ▸ hless) _ rfl rfl hprogress.stage hprogress.cleared hnext
              (hbehind.sameTurn hsame)
          · exact ihleft (count - slot') (by omega) (heq.trans hkept) rfl hprogress.stage
              hprogress.cleared hnext (hbehind.sameTurn hsame)
      · exact finishing_move hstage hslot hcleared horderly hbehind

theorem le_skipUsed (st : CompactState) : st.writeCursor ≤ st.skipUsed.writeCursor :=
  le_runEnd _ _ _

theorem le_nextScan (s : DedupState) :
    s.scan ≤ s.nextScan ∧ s.st.skipUsed.writeCursor < s.nextScan := by
  have hle : max s.scan (s.st.skipUsed.writeCursor + 1) ≤ s.nextScan := le_runEnd _ _ _
  omega

theorem fragmentBlocks_pos (std start : ℕ) (st : CompactState) :
    0 < st.fragmentBlocks std start := by
  have hle := le_runEnd st.isDedup (min (st.totalBlocks - (start + 1)) (std - 1)) (start + 1)
  unfold CompactState.fragmentBlocks
  omega

/-- The loop around it ends: one of the cursors moves in each turn. -/
theorem finishing_scanning (ahead : ℕ)
    (hahead : s.st.totalBlocks - s.st.writeCursor + (s.st.totalBlocks - s.scan) = ahead)
    (hstage : s.stage = .scanning) (horderly : Always (step dedupBlockSize) Orderly s) :
    Finishing dedupBlockSize s := by
  induction ahead using Nat.strong_induction_on generalizing s with
  | _ ahead ih =>
    have hcursor := le_skipUsed s.st
    obtain ⟨hscan, hbehind⟩ := le_nextScan s
    have hhere := horderly.here
    have hnext := horderly.next
    unfold Orderly at hhere
    simp only [hstage] at hhere
    refine Fine.cons (not_overwrites_of_scanning hstage) ?_
    rw [step_scanning hstage] at hnext ⊢
    unfold turn at hnext ⊢
    dsimp only at hnext ⊢
    by_cases hdedup : s.AtDedup
    · have hinside := hdedup.1
      rw [if_pos hdedup] at hnext ⊢
      refine ih _ ?_ rfl hstage hnext
      change s.st.totalBlocks - (s.st.skipUsed.writeCursor + 1) + (s.st.totalBlocks - s.scan) < ahead
      omega
    · rw [if_neg hdedup] at hnext ⊢
      by_cases hend : s.st.skipUsed.totalBlocks ≤ s.nextScan
      · rw [if_pos hend]
        exact fine_of_final (Or.inl rfl) id (step_of_over (Or.inl rfl))
      · have hinside : s.nextScan < s.st.totalBlocks := Nat.not_le.mp hend
        rw [if_neg hend] at hnext ⊢
        cases hheader : (s.st.skipUsed.disk s.nextScan).header with
        | none =>
          simp only [hheader] at hnext ⊢
          have hpos := fragmentBlocks_pos
            (stdPerDedup dedupBlockSize s.st.skipUsed.blockSize) s.nextScan s.st.skipUsed
          refine ih _ ?_ rfl hstage hnext
          change s.st.totalBlocks - s.st.skipUsed.writeCursor +
            (s.st.totalBlocks - (s.nextScan + s.st.skipUsed.fragmentBlocks _ s.nextScan)) < ahead
          omega
        | some header =>
          simp only [hheader] at hnext ⊢
          have hstored := hhere header hdedup hinside hheader
          refine finishing_evicting _ _ rfl rfl rfl (fun _ lba hlba ↦ ?_) hnext ?_
          · have hge := hlba.1
            have hlt := hlba.2
            omega
          · intro s' hstage' hscan' hcursor' htotal' horderly'
            have hcount : 0 < min (storedBlocks s.st.blockSize header)
                (stdPerDedup dedupBlockSize s.st.blockSize) :=
              lt_min hstored (Nat.lt_of_lt_of_le Nat.one_pos (le_max_left _ _))
            refine ih _ ?_ rfl hstage' horderly'
            change s'.scan = s.nextScan + min (storedBlocks s.st.blockSize header)
              (stdPerDedup dedupBlockSize s.st.blockSize) at hscan'
            change s'.st.writeCursor = s.st.skipUsed.writeCursor + min
              (storedBlocks s.st.blockSize header)
              (stdPerDedup dedupBlockSize s.st.blockSize) at hcursor'
            change s'.st.totalBlocks = s.st.totalBlocks at htotal'
            omega

/-! ### What goes wrong in a step that is not orderly -/

/-- A block of the target in front of the slot that is to be kept, in a turn that will copy. -/
structure LeftBehind (s : DedupState) (count lba : ℕ) : Prop where
  stage : ∃ slot, s.stage = .evicting count slot ∧ lba < s.target slot
  inside : InRun s.st.writeCursor count lba
  kept : s.st.immovable lba = true
  copies : s.scan + count ≤ s.st.totalBlocks

/-- The later turns leave it where it is. -/
theorem LeftBehind.evictSlot {lba : ℕ} (h : s.LeftBehind count lba) (hslot : slot < count)
    (hlba : lba < s.target slot) : (s.evictSlot count slot).LeftBehind count lba := by
  have hsame := sameTurn_evictSlot s count slot
  have hinside := h.inside
  have hkept : ¬s.st.isDedup lba = true := fun hdedup ↦ by
    have hmovable := h.kept
    rw [immovable_of_dedup hdedup] at hmovable
    cases hmovable
  have hbase : lba < s.base slot := Nat.not_le.mp fun hle ↦ hkept (isDedup_of_base hle hlba)
  have hcopies : (s.evictSlot count slot).scan + count ≤ (s.evictSlot count slot).st.totalBlocks := by
    rw [hsame.scan, hsame.total]
    exact h.copies
  cases hobstacle : s.obstacle count slot with
  | nothing =>
    refine ⟨⟨slot + 1, ?_, ?_⟩, ?_, ?_, hcopies⟩
    · rw [evictSlot_nothing hobstacle]
    · rw [target, hsame.cursor]
      unfold target at hlba
      omega
    · rwa [hsame.cursor]
    · rw [evictSlot_nothing hobstacle]
      exact h.kept
  | fragment fragEnd =>
    have hend : s.base slot ≤ fragEnd := by
      rw [(obstacle_fragment hobstacle).2]
      exact le_runEnd _ _ _
    refine ⟨⟨CompactState.nextSlot s.st.writeCursor slot fragEnd 0, ?_, ?_⟩, ?_, ?_, hcopies⟩
    · rw [evictSlot_fragment hobstacle]
    · rw [target, hsame.cursor]
      unfold CompactState.nextSlot
      split_ifs
      · omega
      · unfold target at hlba
        omega
    · rwa [hsame.cursor]
    · rw [evictSlot_fragment hobstacle]
      exact h.kept
  | stays rangeCursor =>
    refine ⟨⟨count, ?_, ?_⟩, ?_, ?_, hcopies⟩
    · rw [evictSlot_stays hobstacle]
    · rw [target, hsame.cursor]
      exact hinside.2
    · rwa [hsame.cursor]
    · rw [evictSlot_stays hobstacle]
      exact h.kept
  | moves base dst blocks rangeCursor =>
    rw [← (obstacle_moves hobstacle).base_eq] at hbase
    refine ⟨⟨CompactState.nextSlot s.st.writeCursor slot base blocks, ?_, ?_⟩, ?_, ?_, hcopies⟩
    · rw [evictSlot_moves hobstacle]
    · rw [target, hsame.cursor]
      unfold CompactState.nextSlot
      split_ifs
      · omega
      · unfold target at hlba
        omega
    · rwa [hsame.cursor]
    · rw [immovable_moves hobstacle hslot hinside.2, if_neg fun hin ↦ Nat.not_le.mpr hbase hin.1]
      exact h.kept

theorem LeftBehind.not_finishing {lba : ℕ} (h : s.LeftBehind count lba) :
    ¬Finishing dedupBlockSize s := by
  refine not_fine_of_closed (LeftBehind · count lba) (fun t ht ↦ ?_) h
  obtain ⟨slot, hstage, hlba⟩ := ht.stage
  refine ⟨not_over_of_evicting hstage, ?_⟩
  rcases Nat.lt_or_ge slot count with hslot | hslot
  · rw [step_evicting hstage hslot]
    exact Or.inr (ht.evictSlot hslot hlba)
  · refine Or.inl ((overwrites_move hstage hslot).mpr ⟨ht.copies, fun hyields ↦ ?_⟩)
    have hmovable := ht.kept
    rw [hyields lba ht.inside] at hmovable
    cases hmovable

/-- The slot itself is left behind when the turn goes on without changing the block there. -/
theorem leftBehind_target {slot' : ℕ} (hslot : slot < count) (hsame : SameTurn count s s')
    (hstage : s'.stage = .evicting count slot') (hlater : slot < slot')
    (hkept : s'.st.immovable (s.target slot) = true) (hcopies : s.scan + count ≤ s.st.totalBlocks) :
    s'.LeftBehind count (s.target slot) := by
  refine ⟨⟨slot', hstage, ?_⟩, ?_, hkept, ?_⟩
  · rw [target, target, hsame.cursor]
    omega
  · rw [hsame.cursor]
    exact ⟨Nat.le_add_right _ _, by unfold target; omega⟩
  · rwa [hsame.scan, hsame.total]

theorem skipUsed_eq (h : st.skipUsed.writeCursor = st.writeCursor) : st.skipUsed = st :=
  congrArg (fun cursor ↦ { st with writeCursor := cursor }) h

/-- A dedup block of no blocks that is found again and again. -/
structure NoBlocks (s : DedupState) : Prop where
  stage : s.stage = .scanning ∨ s.stage = .evicting 0 0
  cursor : s.st.skipUsed.writeCursor = s.st.writeCursor
  not_dedup : ¬s.AtDedup
  scan : s.nextScan = s.scan
  inside : s.scan < s.st.totalBlocks
  header : ∃ header, (s.st.disk s.scan).header = some header ∧
    storedBlocks s.st.blockSize header = 0

theorem NoBlocks.turn (h : s.NoBlocks) : (s.turn dedupBlockSize).NoBlocks := by
  obtain ⟨header, hheader, hzero⟩ := h.header
  have hturn : s.turn dedupBlockSize = { s with stage := .evicting 0 0 } := by
    unfold DedupState.turn
    dsimp only
    rw [if_neg h.not_dedup, h.scan, skipUsed_eq h.cursor, if_neg (Nat.not_le.mpr h.inside)]
    simp only [hheader, hzero, Nat.zero_min]
  rw [hturn]
  exact ⟨Or.inr rfl, h.cursor, h.not_dedup, h.scan, h.inside, header, hheader, hzero⟩

theorem moveDown_zero (src : ℕ) (st : CompactState) : st.moveDown src st.writeCursor 0 = { st with
        relocs := if src ≠ st.writeCursor then st.relocs ++ [(src, st.writeCursor)]
          else st.relocs } := by
  unfold CompactState.moveDown
  rw [copy_zero, fill_zero, fill_zero, fill_zero, fill_zero, Nat.add_zero]

theorem NoBlocks.moveRun (h : s.NoBlocks) : (s.moveRun 0).NoBlocks := by
  have hinside : ¬s.st.totalBlocks < s.scan + 0 := Nat.not_lt.mpr h.inside.le
  unfold DedupState.moveRun
  rw [if_neg hinside, moveDown_zero]
  exact ⟨Or.inl rfl, h.cursor, h.not_dedup, h.scan, h.inside, h.header⟩

theorem NoBlocks.not_finishing (h : s.NoBlocks) : ¬Finishing dedupBlockSize s := by
  refine not_fine_of_closed NoBlocks (fun t ht ↦ ?_) h
  rcases ht.stage with hstage | hstage
  · refine ⟨?_, Or.inr ?_⟩
    · unfold Over
      rw [hstage]
      exact fun hover ↦ hover.elim nofun nofun
    · rw [step_scanning hstage]
      exact ht.turn
  · refine ⟨not_over_of_evicting hstage, Or.inr ?_⟩
    rw [step_move hstage (Nat.le_refl 0)]
    exact ht.moveRun

/-- A turn that finds one leads there. -/
theorem noBlocks_turn {header : BlockHeader} (hdedup : ¬s.AtDedup)
    (hinside : s.nextScan < s.st.totalBlocks) (hheader : (s.st.disk s.nextScan).header = some header)
    (hzero : storedBlocks s.st.blockSize header = 0) : (s.turn dedupBlockSize).NoBlocks := by
  have hbehind := (le_nextScan s).2
  have hturn : s.turn dedupBlockSize =
      { s with st := s.st.skipUsed, scan := s.nextScan, stage := .evicting 0 0 } := by
    have hheader' : (s.st.skipUsed.disk s.nextScan).header = some header := hheader
    have hzero' : storedBlocks s.st.skipUsed.blockSize header = 0 := hzero
    have hend : ¬s.st.skipUsed.totalBlocks ≤ s.nextScan := Nat.not_le.mpr hinside
    unfold DedupState.turn
    dsimp only
    rw [if_neg hdedup, if_neg hend]
    simp only [hheader', hzero', Nat.zero_min]
  have hcursor : s.st.skipUsed.skipUsed.writeCursor = s.st.skipUsed.writeCursor := by
    refine runEnd_self ?_
    rcases Nat.lt_or_ge s.st.skipUsed.writeCursor s.st.totalBlocks with hlt | hge
    · have hle := le_skipUsed s.st
      have hstop : s.st.skipUsed.writeCursor <
          s.st.writeCursor + (s.st.totalBlocks - s.st.writeCursor) := by omega
      exact Or.inr (runEnd_stop hstop)
    · exact Or.inl (Nat.sub_eq_zero_of_le hge)
  rw [hturn]
  refine ⟨Or.inr rfl, hcursor, ?_, ?_, hinside, header, hheader, hzero⟩
  · unfold AtDedup at hdedup ⊢
    rwa [skipUsed_eq hcursor]
  · have hmax : max s.nextScan (s.st.skipUsed.writeCursor + 1) = s.nextScan :=
      Nat.max_eq_left hbehind
    change CompactState.nextDedup (max s.nextScan (s.st.skipUsed.skipUsed.writeCursor + 1))
      s.st.skipUsed.skipUsed = s.nextScan
    rw [skipUsed_eq hcursor, hmax]
    have hle : max s.scan (s.st.skipUsed.writeCursor + 1) ≤ s.nextScan := le_runEnd _ _ _
    have hstop : s.nextScan < max s.scan (s.st.skipUsed.writeCursor + 1) +
        (s.st.totalBlocks - max s.scan (s.st.skipUsed.writeCursor + 1)) := by omega
    exact runEnd_self (Or.inr (runEnd_stop hstop))

theorem relocate_zero (src dst : ℕ) (type : BlockType) (st : CompactState) :
    st.relocate src dst 0 type = st := by
  unfold CompactState.relocate
  simp only [copy_zero, fill_zero, ite_self]

/-- A place for no blocks is found again from the cursor that was left. -/
theorem findFreeRangeAtEnd_zero {notBefore : ℕ} (hpos : 0 < notBefore)
    (hfound : (st.findFreeRangeAtEnd 0 notBefore).1 ≠ 0) :
    ({ st with rangeCursor := (st.findFreeRangeAtEnd 0 notBefore).2 } :
      CompactState).findFreeRangeAtEnd 0 notBefore = st.findFreeRangeAtEnd 0 notBefore := by
  have hscan (fuel cursor : ℕ) :
      CompactState.scanRangeAtEnd st.bitmap 0 notBefore (fuel + 1) cursor =
        if notBefore ≤ cursor then (cursor + 1, cursor) else (0, cursor) := rfl
  unfold CompactState.findFreeRangeAtEnd at hfound ⊢
  dsimp only at hfound ⊢
  cases htotal : st.totalBlocks with
  | zero =>
    rw [htotal] at hfound
    exact absurd rfl hfound
  | succ n =>
    simp only [htotal, hscan] at hfound ⊢
    obtain ⟨cursor, hcursor⟩ : ∃ cursor, cursor =
        if st.rangeCursor = 0 ∨ n + 1 - 1 ≤ st.rangeCursor then n + 1 - 2 else st.rangeCursor :=
      ⟨_, rfl⟩
    rw [← hcursor] at hfound ⊢
    split_ifs at hfound with hroom
    · have hkept : ¬(cursor = 0 ∨ n + 1 - 1 ≤ cursor) := by
        split_ifs at hcursor <;> omega
      rw [if_pos hroom]
      dsimp only
      rw [if_neg hkept, if_pos hroom]
    · exact absurd rfl hfound

/-- An obstacle of no blocks that is moved again and again. -/
structure MovesNothing (s : DedupState) (count last : ℕ) : Prop where
  stage : ∃ slot, s.stage = .evicting count slot ∧ s.base last ≤ s.target slot ∧ slot ≤ last
  last_lt : last < count
  way : s.InTheWay count last
  behind : s.st.writeCursor < s.base last
  header : ∃ header, (s.st.disk (s.base last)).header = some header ∧
    storedBlocks s.st.blockSize header = 0
  place : (s.place count 0).1 ≠ 0

theorem MovesNothing.evictSlot (h : s.MovesNothing count last) (hfrom : s.base last ≤ s.target slot)
    (hslot : slot ≤ last) : (s.evictSlot count slot).MovesNothing count last := by
  obtain ⟨header, hheader, hzero⟩ := h.header
  have hbehind := h.behind
  by_cases hway : s.InTheWay count slot
  · have hbase : s.base slot = s.base last :=
      runStart_eq hfrom (Nat.add_le_add_left hslot s.st.writeCursor)
    have hinside : ¬((s.place count 0).1 = 0 ∨ s.st.totalBlocks < s.base last + 0) := by
      rw [not_or, Nat.not_lt]
      exact ⟨h.place, Nat.le_trans (base_le _ _) h.way.inside.le⟩
    have hobstacle : s.obstacle count slot =
        .moves (s.base last) (s.place count 0).1 0 (s.place count 0).2 := by
      rw [obstacle_eq hway, hbase, hheader, Option.elim_some, hzero, if_neg hinside]
    rw [evictSlot_moves hobstacle, relocate_zero]
    refine ⟨⟨s.base last - s.st.writeCursor, ?_, ?_, ?_⟩, h.last_lt,
      ⟨h.way.inside, h.way.not_free, h.way.marked, h.way.not_source⟩, hbehind,
      ⟨header, hheader, hzero⟩, ?_⟩
    · exact congrArg (DedupStage.evicting count) (if_pos hbehind)
    · change s.base last ≤ s.st.writeCursor + (s.base last - s.st.writeCursor)
      omega
    · unfold target at hfrom
      omega
    · have hpos : 0 < s.st.writeCursor + count := by
        have hlast := h.last_lt
        omega
      exact ne_of_eq_of_ne (congrArg Prod.fst (findFreeRangeAtEnd_zero hpos h.place)) h.place
  · have hne : slot ≠ last := fun heq ↦ hway (heq ▸ h.way)
    rw [evictSlot_nothing (obstacle_nothing.mpr hway)]
    refine ⟨⟨slot + 1, rfl, ?_, by omega⟩, h.last_lt,
      ⟨h.way.inside, h.way.not_free, h.way.marked, h.way.not_source⟩, hbehind,
      ⟨header, hheader, hzero⟩, h.place⟩
    change s.base last ≤ s.st.writeCursor + (slot + 1)
    unfold target at hfrom
    omega

theorem MovesNothing.not_finishing (h : s.MovesNothing count last) :
    ¬Finishing dedupBlockSize s := by
  refine not_fine_of_closed (MovesNothing · count last) (fun t ht ↦ ?_) h
  obtain ⟨slot, hstage, hfrom, hslot⟩ := ht.stage
  refine ⟨not_over_of_evicting hstage, Or.inr ?_⟩
  rw [step_evicting hstage (Nat.lt_of_le_of_lt hslot ht.last_lt)]
  exact ht.evictSlot hfrom hslot

/-! ### Exactly the orderly runs finish -/

/-- A fragment that stands for what is to be kept: it is tried for ever, or left behind. -/
theorem kept_of_fragment (hstage : s.stage = .evicting count slot) (hslot : slot < count)
    (h : s.obstacle count slot = .fragment fragEnd)
    (hneeds : s.scan + count ≤ s.st.totalBlocks ∨ 0 < slot)
    (hfinishing : Finishing dedupBlockSize s) : s.st.immovable (s.target slot) = false := by
  by_contra himmovable
  rw [Bool.not_eq_false] at himmovable
  have hend := fragment_end h
  rw [if_pos himmovable] at hend
  have hstep : s.step dedupBlockSize = s.evictSlot count slot := step_evicting hstage hslot
  rcases Nat.eq_zero_or_pos slot with rfl | hpos
  · have hcopies := hneeds.resolve_right (Nat.lt_irrefl 0)
    have hnext : CompactState.nextSlot s.st.writeCursor 0 fragEnd 0 = 1 := by
      unfold target at hend
      exact if_neg (by omega)
    have hleft : (s.evictSlot count 0).LeftBehind count (s.target 0) := by
      refine leftBehind_target hslot (sameTurn_evictSlot s count 0) ?_ Nat.one_pos ?_ hcopies
      · rw [evictSlot_fragment h, hnext]
      · rw [evictSlot_fragment h]
        exact himmovable
    have hnot := hfinishing.next fun _ ↦ step_of_over
    rw [hstep] at hnot
    exact hleft.not_finishing hnot
  · have hnext : CompactState.nextSlot s.st.writeCursor slot fragEnd 0 = slot := by
      unfold CompactState.nextSlot
      unfold target at hend
      rw [if_pos (by omega)]
      omega
    have hsame : s.evictSlot count slot = s := by
      rw [evictSlot_fragment h, hnext, ← hstage]
    have hstuck : ∀ t : DedupState, t = s →
        ¬t.Over ∧ (t.Overwrites ∨ t.step dedupBlockSize = s) := by
      rintro t rfl
      exact ⟨not_over_of_evicting hstage, Or.inr (hstep.trans hsame)⟩
    exact not_fine_of_closed (· = s) hstuck rfl hfinishing

theorem orderly_of_finishing (hfinishing : Finishing dedupBlockSize s) : s.Orderly := by
  have hnext := hfinishing.next fun _ ↦ step_of_over
  unfold Orderly
  cases hstage : s.stage with
  | scanning =>
    intro header hdedup hinside hheader
    refine Nat.pos_of_ne_zero fun hzero ↦ ?_
    rw [step_scanning hstage] at hnext
    exact (noBlocks_turn hdedup hinside hheader hzero).not_finishing hnext
  | done => exact trivial
  | failed => exact trivial
  | evicting count slot =>
    intro hslot
    have hsame := sameTurn_evictSlot s count slot
    rw [step_evicting hstage hslot] at hnext
    -- A block that the turn goes past and leaves to be kept is left behind.
    have hkept (slot' : ℕ) (hstage' : (s.evictSlot count slot).stage = .evicting count slot')
        (hlater : slot < slot') (hcopies : s.scan + count ≤ s.st.totalBlocks) :
        (s.evictSlot count slot).st.immovable (s.target slot) = false := by
      by_contra himmovable
      rw [Bool.not_eq_false] at himmovable
      exact (leftBehind_target hslot hsame hstage' hlater himmovable hcopies).not_finishing hnext
    cases h : s.obstacle count slot with
    | nothing =>
      intro hcopies
      rw [evictSlot_nothing h] at hkept
      exact hkept (slot + 1) rfl (Nat.lt_succ_self slot) hcopies
    | fragment fragEnd =>
      exact fun hneeds ↦ kept_of_fragment hstage hslot h hneeds hfinishing
    | stays rangeCursor =>
      intro hcopies lba hlba
      by_contra himmovable
      rw [Bool.not_eq_false] at himmovable
      have hinside : lba < s.st.writeCursor + count := by
        have hlt := hlba.2
        unfold target at hlt
        omega
      have hfrom : s.st.writeCursor ≤ lba := Nat.le_trans (Nat.le_add_right _ _) hlba.1
      have hleft : (s.evictSlot count slot).LeftBehind count lba := by
        rw [evictSlot_stays h]
        exact ⟨⟨count, rfl, hinside⟩, ⟨hfrom, hinside⟩, himmovable, hcopies⟩
      exact hleft.not_finishing hnext
    | moves base dst blocks rangeCursor =>
      have hmovable := obstacle_moves h
      refine ⟨?_, ?_⟩
      · by_contra hyields
        have hsafe := hfinishing.safe.here
        unfold Overwrites at hsafe
        simp only [hstage, h, if_neg (Nat.not_le.mpr hslot)] at hsafe
        exact hsafe hyields
      · split_ifs with hbehind
        · refine Nat.pos_of_ne_zero fun hzero ↦ ?_
          obtain ⟨header, hheader, hblocks⟩ := hmovable.header
          have hbase := hmovable.base_eq
          have hdst := hmovable.dst_eq
          have hlt := hmovable.behind
          subst hbase hzero
          have hplace : (s.place count 0).1 ≠ 0 := by
            rw [← hdst]
            exact Nat.ne_of_gt (Nat.zero_lt_of_lt hlt)
          have hnothing : s.MovesNothing count slot := ⟨⟨slot, hstage, base_le s slot, le_rfl⟩, hslot,
            hmovable.way, hbehind, ⟨header, hheader, hblocks.symm⟩, hplace⟩
          exact hnothing.not_finishing hfinishing
        · intro hcopies
          have hstays : ¬InRun base blocks (s.target slot) := fun hin ↦ by
            have hlt := hin.2
            unfold target at hlt
            omega
          have hinside : s.target slot < s.st.writeCursor + count :=
            Nat.add_lt_add_left hslot s.st.writeCursor
          have hmoved := immovable_moves h hslot hinside
          rw [if_neg hstays] at hmoved
          rw [← hmoved]
          refine hkept (slot + 1) ?_ (Nat.lt_succ_self slot) hcopies
          rw [evictSlot_moves h]
          exact congrArg (DedupStage.evicting count) (if_neg hbehind)

/-- The phase finishes, and copies no dedup block onto file data, metadata or tree nodes, if and only
if each step of its run is orderly. -/
theorem finishes_iff (dedupBlockSize : ℕ) (st : CompactState) :
    Finishes dedupBlockSize st ↔ Always (step dedupBlockSize) Orderly (start st) := by
  constructor
  · intro hfinishing n
    exact orderly_of_finishing (hfinishing.always (fun _ ↦ step_of_over) n)
  · exact finishing_scanning _ rfl rfl

/-! ### Two volumes -/

/-- Eight blocks of 4096 bytes with the write cursor behind the superblock, and a dedup block of 8000
bytes at an address. Blocks that are not free are marked. -/
def eightBlocks (types : List BlockType) (lba : ℕ) : CompactState where
  blockSize := 4096
  totalBlocks := 8
  disk b := ⟨if b = lba then some ⟨false, 8000, 0⟩ else none, .words []⟩
  bitmap b := types.getD b .free ≠ .free
  blockTypes b := types.getD b .free
  writeCursor := 1
  rangeCursor := 0
  relocs := []
  inodes := []
  overflow := []

/-- File data in the second slot of the target is tried for ever, and a tree node in the first slot is
copied over. -/
theorem eightBlocks_not_finishes :
    ¬Finishes 65536 (eightBlocks [.metadata, .free, .used, .dedup, .dedup] 3) ∧
      ¬Finishes 65536 (eightBlocks [.metadata, .tree, .free, .dedup, .dedup] 3) := by
  constructor
  · intro hfinishing
    have hthird := hfinishing.always (fun _ ↦ step_of_over) 2
    refine not_fine_of_closed (· = _) (fun t ht ↦ ?_) rfl hthird
    subst ht
    have hstage : ((step 65536)^[2] (start (eightBlocks
        [.metadata, .free, .used, .dedup, .dedup] 3))).stage = .evicting 2 1 := rfl
    exact ⟨not_over_of_evicting hstage, Or.inr rfl⟩
  · intro hfinishing
    have hstage : ((step 65536)^[3] (start (eightBlocks
        [.metadata, .tree, .free, .dedup, .dedup] 3))).stage = .evicting 2 2 := rfl
    refine hfinishing.safe 3 ((overwrites_move hstage le_rfl).mpr ⟨by decide, fun hyields ↦ ?_⟩)
    exact absurd (hyields 1 (by decide)) (by decide)

end Obmafs3.Defrag.DedupState
