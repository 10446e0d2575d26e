import Obmafs3.Dedup.Pending
import Mathlib.Data.List.Perm.Subperm

/-!
# Asynchronous insertion into the dedup trees

Writers put entries into the pending buffer. The housekeeping thread takes the buffer over, sorts
its entries and inserts them into the tree of the buffer's sector size, a batch at a time, while
writers go on with a new buffer. A writer of another sector size hands the buffer over, or flushes
it itself.

A step is what a thread does while it holds the tree lock. Memory, the reads of tree nodes and the
node allocations of a step succeed or fail as the step says. Writes to the disk succeed.
`stored_present` says that careful steps lose no entry.
-/

set_option autoImplicit false

namespace Obmafs3

open Library.Search Library.SearchTree Library.Probing
open Function (update update_of_ne update_self)

/-- `HOUSEKEEPING_BATCH_SIZE`. -/
def housekeepingBatchSize : ℕ := 128

/-- How the insertion of an entry fares: the error of a node read on its way down the tree, if
there is one, and the nodes that the allocator has for it. -/
structure Attempt where
  readError : Option ErrorCode
  fresh : ℕ → Option ℕ

/-- A drain cycle of the housekeeping thread: the sorted entries that are not inserted yet. -/
structure DrainCycle where
  remaining : List DedupEntry
  failed : Bool

/-- The buffers, the tree of each sector size, the cycle that the housekeeping thread is in, and
the entries that writers were told are stored, each with its sector size. -/
structure AsyncState where
  pending : Option PendingBuf
  draining : Option PendingBuf
  tree : ℕ → DedupTree
  cycle : Option DrainCycle
  housekeepingStarted : Bool
  shutdownRequested : Bool
  stored : List (ℕ × DedupEntry)

/-! ### Insertions -/

section Definitions

variable (blockSize : ℕ)

/-- The insertions of `housekeeping_drain_batch`, which skips an entry whose way down the tree meets
a corrupted node, and those of `pending_flush`, which does not. -/
def drainEntries (skipBadMagic : Bool) (attempt : DedupEntry → Attempt) :
    List DedupEntry → DedupTree → Bool × DedupTree
  | [], tree => (true, tree)
  | e :: es, tree =>
    match (attempt e).readError with
    | some error =>
      if skipBadMagic && error = .badMagic then drainEntries skipBadMagic attempt es tree
      else (false, tree)
    | none =>
      match dedupUpsert blockSize (attempt e).fresh e tree with
      | (none, tree) => drainEntries skipBadMagic attempt es tree
      | (some _, tree) => (false, tree)

/-- The entries of a buffer, sorted by their hashes. -/
def sortedEntries (pb : PendingBuf) : List DedupEntry :=
  (pb.entries.take pb.count).mergeSort fun e e' ↦ e.hash ≤ e'.hash

/-- `pending_flush`. -/
def pendingFlush (scratch : Bool) (attempt : DedupEntry → Attempt) (pb : PendingBuf)
    (tree : DedupTree) : Bool × PendingBuf × DedupTree :=
  if pb.count = 0 then (true, pb, tree)
  else if scratch then
    match drainEntries blockSize false attempt (sortedEntries pb) tree with
    | (true, tree) => (true, pb.cleared, tree)
    | (false, tree) => (false, pb, tree)
  else (false, pb, tree)

/-! ### The writers -/

/-- What a writer meets: memory for a new buffer, for its slots and for the work of a flush, whether
`obmafs3_dedup_get_tree` finds the tree to flush to, and how insertions fare. -/
structure WriteEnv where
  memory : Bool
  calloc : ℕ → Bool
  scratch : Bool
  getTree : Bool
  attempt : DedupEntry → Attempt

variable (env : WriteEnv)

/-- The buffer that a writer uses is of its sector size, or the writer does something about it. -/
def handOff (sectorSize : ℕ) (st : AsyncState) (pb : PendingBuf) : AsyncState × PendingBuf :=
  if pb.sectorSize ≠ 0 ∧ pb.sectorSize ≠ sectorSize ∧ 0 < pb.count then
    if st.draining.isNone ∧ st.housekeepingStarted ∧ ¬st.shutdownRequested ∧ env.memory then
      ({ st with draining := some pb }, pendingCreate)
    else if env.getTree then
      let (flushed, pb', tree) :=
        pendingFlush blockSize env.scratch env.attempt pb (st.tree pb.sectorSize)
      ({ st with tree := Function.update st.tree pb.sectorSize tree },
        if flushed ∨ pb'.count = 0 then { pb' with sectorSize := 0 } else pb')
    else (st, pb)
  else (st, pb)

/-- The insertion of an entry that no buffer takes. -/
def insertNow (sectorSize : ℕ) (entry : DedupEntry) (st : AsyncState) : AsyncState :=
  match (env.attempt entry).readError with
  | some _ => st
  | none =>
    let (status, tree) :=
      dedupUpsert blockSize (env.attempt entry).fresh entry (st.tree sectorSize)
    { st with
      tree := Function.update st.tree sectorSize tree
      stored :=
        if status = none ∧ dedupLookup (st.tree sectorSize) entry.hash = none then
          (sectorSize, entry) :: st.stored
        else st.stored }

/-- The part of `obmafs3_write_media_image_data` that stores an entry for a sector that the key set
does not have. -/
def writeEntry (sectorSize : ℕ) (entry : DedupEntry) (st : AsyncState) : AsyncState :=
  match st.pending with
  | none => insertNow blockSize env sectorSize entry st
  | some pb =>
    let (st, pb) := handOff blockSize env sectorSize st pb
    let pb := if pb.sectorSize = 0 then { pb with sectorSize } else pb
    { st with
      pending := some (pendingInsert env.calloc pb entry)
      stored := (sectorSize, entry) :: st.stored }

/-! ### The housekeeping thread -/

/-- The thread takes the pending buffer over. It looks for a shutdown before it takes the lock, so a
request may come in between, here and before a batch. -/
def swapBuffers (memory : Bool) (st : AsyncState) : Option AsyncState :=
  match st.pending with
  | none => none
  | some pb =>
    if 0 < pb.count ∧ st.draining.isNone ∧ st.cycle.isNone then
      some { st with
        draining := some pb
        pending := if memory then some { pendingCreate with sectorSize := pb.sectorSize } else none }
    else none

/-- The thread extracts and sorts the entries. Without memory for them it has none. -/
def beginDrain (memory : Bool) (st : AsyncState) : Option AsyncState :=
  match st.draining with
  | none => none
  | some drain =>
    if st.cycle.isNone then
      some { st with
        cycle := some ⟨if drain.count ≠ 0 ∧ memory then sortedEntries drain else [], false⟩ }
    else none

/-- The thread inserts a batch. -/
def drainBatch (getTree : Bool) (attempt : DedupEntry → Attempt) (st : AsyncState) :
    Option AsyncState :=
  match st.draining, st.cycle with
  | some drain, some cycle =>
    if cycle.remaining ≠ [] ∧ ¬cycle.failed then
      if getTree then
        match drainEntries blockSize true attempt (cycle.remaining.take housekeepingBatchSize)
            (st.tree drain.sectorSize) with
        | (true, tree) =>
          some { st with
            tree := Function.update st.tree drain.sectorSize tree
            cycle := some ⟨cycle.remaining.drop housekeepingBatchSize, false⟩ }
        | (false, tree) =>
          some { st with
            tree := Function.update st.tree drain.sectorSize tree
            cycle := some { cycle with failed := true } }
      else some { st with cycle := some { cycle with failed := true } }
    else none
  | _, _ => none

/-- The end of a cycle: the buffer is discarded when no entry remains. Otherwise the thread replaces
it by one with the entries that remain, if there is memory for that. -/
def finishDrain (memory : Bool) (calloc : ℕ → Bool) (st : AsyncState) : Option AsyncState :=
  match st.draining, st.cycle with
  | some drain, some cycle =>
    if cycle.remaining = [] ∨ cycle.failed ∨ st.shutdownRequested then
      if cycle.remaining = [] then some { st with draining := none, cycle := none }
      else
        some { st with
          draining :=
            some (if memory then presizedWith calloc drain.sectorSize cycle.remaining else drain)
          cycle := none }
    else none
  | _, _ => none

/-! ### Runs -/

/-- What a thread does next. -/
inductive AsyncStep
  | write (env : WriteEnv) (sectorSize : ℕ) (entry : DedupEntry)
  | writeNow (env : WriteEnv) (sectorSize : ℕ) (entry : DedupEntry)
  | swap (memory : Bool)
  | begin (memory : Bool)
  | batch (getTree : Bool) (attempt : DedupEntry → Attempt)
  | finish (memory : Bool) (calloc : ℕ → Bool)
  | shutdown

/-- The step, where it can be taken. `writeNow` is a write without a key set. -/
def AsyncStep.run : AsyncStep → AsyncState → Option AsyncState
  | .write env sectorSize entry, st => some (writeEntry blockSize env sectorSize entry st)
  | .writeNow env sectorSize entry, st => some (insertNow blockSize env sectorSize entry st)
  | .swap memory, st => swapBuffers memory st
  | .begin memory, st => beginDrain memory st
  | .batch getTree attempt, st => drainBatch blockSize getTree attempt st
  | .finish memory calloc, st => finishDrain memory calloc st
  | .shutdown, st => some { st with shutdownRequested := true }

def runSteps : List AsyncStep → AsyncState → Option AsyncState
  | [], st => some st
  | step :: steps, st => (step.run blockSize st).bind (runSteps steps)

end Definitions

/-- An entry of the tree of a sector size is in one of the buffers or in that tree. -/
def AsyncState.Present (st : AsyncState) (sectorSize : ℕ) (e : DedupEntry) : Prop :=
  (∃ pb, st.pending = some pb ∧ e ∈ pb.entries) ∨ (∃ pb, st.draining = some pb ∧ e ∈ pb.entries) ∨
    dedupLookup (st.tree sectorSize) e.hash = some e

/-! ### Careful steps -/

section Careful

variable (blockSize : ℕ)

/-- No corrupted node is met, and every insertion that is tried is harmless. -/
def Orderly (attempt : DedupEntry → Attempt) : List DedupEntry → DedupTree → Prop
  | [], _ => True
  | e :: es, tree =>
    (attempt e).readError ≠ some .badMagic ∧ ((attempt e).readError = none →
        Harmless blockSize tree ⟨e, (attempt e).fresh⟩ ∧
          ((dedupUpsert blockSize (attempt e).fresh e tree).1 = none →
            Orderly attempt es (dedupUpsert blockSize (attempt e).fresh e tree).2))

/-- Every node is read and every insertion gets the nodes that it needs. -/
def Smooth (attempt : DedupEntry → Attempt) : List DedupEntry → DedupTree → Prop
  | [], _ => True
  | e :: es, tree =>
    (attempt e).readError = none ∧ tree.height ≤ dedupBtreeMaxDepth ∧
      tree.Safe DedupEntry.hash (dedupLeafMaxKeys blockSize) (dedupIndexMaxKeys blockSize) e ∧
      (∀ level < tree.demand DedupEntry.hash (dedupLeafMaxKeys blockSize)
        (dedupIndexMaxKeys blockSize) e, (attempt e).fresh level ≠ none) ∧
      Smooth attempt es (dedupUpsert blockSize (attempt e).fresh e tree).2

/-- No stored entry has the hash. -/
def NewHash (st : AsyncState) (hash : ℕ) : Prop := ∀ p ∈ st.stored, p.2.hash ≠ hash

/-- The buffer takes entries of the sector size, or can be handed over or flushed. -/
def BufferReady (env : WriteEnv) (sectorSize : ℕ) (st : AsyncState) (pb : PendingBuf) : Prop :=
  ((pb.sectorSize = 0 ∨ pb.sectorSize = sectorSize) ∧ pb.Roomy env.calloc) ∨
    (pb.sectorSize ≠ sectorSize ∧ 0 < pb.count ∧
      ((st.draining.isNone ∧ st.housekeepingStarted ∧ ¬st.shutdownRequested ∧ env.memory) ∨
        (env.getTree = true ∧ env.scratch = true ∧
          Smooth blockSize env.attempt (sortedEntries pb) (st.tree pb.sectorSize))))

/-- An insertion without a buffer is harmless, and its hash is new to the buffers or in the tree. -/
def CarefulNow (env : WriteEnv) (sectorSize : ℕ) (e : DedupEntry) (st : AsyncState) : Prop :=
  (env.attempt e).readError = none →
    Harmless blockSize (st.tree sectorSize) ⟨e, (env.attempt e).fresh⟩ ∧
      (NewHash st e.hash ∨ dedupLookup (st.tree sectorSize) e.hash ≠ none)

/-- A step that loses no entry. -/
def AsyncStep.Careful : AsyncStep → AsyncState → Prop
  | .write env sectorSize e, st =>
    match st.pending with
    | none => CarefulNow blockSize env sectorSize e st
    | some pb =>
      e.hash ≠ 0 ∧ sectorSize ≠ 0 ∧ NewHash st e.hash ∧
        dedupLookup (st.tree sectorSize) e.hash = none ∧ BufferReady blockSize env sectorSize st pb
  | .writeNow env sectorSize e, st => CarefulNow blockSize env sectorSize e st
  | .swap _, _ => True
  | .begin memory, st => memory = true ∨ ∀ drain, st.draining = some drain → drain.count = 0
  | .batch getTree attempt, st =>
    ∀ drain cycle, st.draining = some drain → st.cycle = some cycle → getTree = true →
      Orderly blockSize attempt (cycle.remaining.take housekeepingBatchSize)
        (st.tree drain.sectorSize)
  | .finish _ _, _ => True
  | .shutdown, _ => True

/-- Every step of a run is careful in the state that it finds. -/
def AllCareful : List AsyncStep → AsyncState → Prop
  | [], _ => True
  | step :: steps, st =>
    step.Careful blockSize st ∧ ∀ st', step.run blockSize st = some st' → AllCareful steps st'

end Careful

/-! ### The invariant -/

/-- The entries of a buffer are stored under the buffer's sector size. -/
structure Labelled (all : List (ℕ × DedupEntry)) (pb : PendingBuf) : Prop where
  whole : pb.Whole
  unlabelled : pb.sectorSize = 0 → pb.count = 0
  stored : ∀ e ∈ pb.entries, (pb.sectorSize, e) ∈ all

/-- An entry is in a buffer of its sector size or in the tree of its sector size. -/
def Held (st : AsyncState) (p : ℕ × DedupEntry) : Prop :=
  (∃ pb, st.pending = some pb ∧ pb.sectorSize = p.1 ∧ p.2 ∈ pb.entries) ∨
    (∃ pb, st.draining = some pb ∧ pb.sectorSize = p.1 ∧ p.2 ∈ pb.entries) ∨
      dedupLookup (st.tree p.1) p.2.hash = some p.2

/-- What a cycle has left to insert are entries of the draining buffer, and the others are in the
tree. -/
structure DrainCycle.Fits (tree : ℕ → DedupTree) (cycle : DrainCycle) (drain : PendingBuf) :
    Prop where
  subset : ∀ e ∈ cycle.remaining, e ∈ drain.entries
  nodup : (cycle.remaining.map DedupEntry.hash).Nodup
  inserted : ∀ e ∈ drain.entries,
    e ∈ cycle.remaining ∨ dedupLookup (tree drain.sectorSize) e.hash = some e

structure AsyncState.Intact (st : AsyncState) : Prop where
  ordered : ∀ sectorSize, (st.tree sectorSize).Ordered DedupEntry.hash
  pending : ∀ pb, st.pending = some pb → Labelled st.stored pb
  draining : ∀ pb, st.draining = some pb → Labelled st.stored pb
  distinct : (st.stored.map fun p ↦ p.2.hash).Nodup
  agrees : ∀ p ∈ st.stored, ∀ e, dedupLookup (st.tree p.1) p.2.hash = some e → e = p.2
  held : ∀ p ∈ st.stored, Held st p
  cycle : ∀ cycle, st.cycle = some cycle →
    ∃ drain, st.draining = some drain ∧ cycle.Fits st.tree drain

theorem AsyncState.Intact.fits {st : AsyncState} {drain : PendingBuf} {cycle : DrainCycle}
    (hintact : st.Intact) (hdraining : st.draining = some drain)
    (hcycle : st.cycle = some cycle) : cycle.Fits st.tree drain := by
  obtain ⟨drain', hdrain', hfits⟩ := hintact.cycle cycle hcycle
  rwa [Option.some.inj (hdrain'.symm.trans hdraining)] at hfits

/-! ### Insertions into a tree -/

/-- What insertions of entries make of a tree: it finds what it found, and else only the entries. -/
structure Grows (es : List DedupEntry) (tree tree' : DedupTree) : Prop where
  ordered : tree'.Ordered DedupEntry.hash
  keeps : ∀ hash e, dedupLookup tree hash = some e → dedupLookup tree' hash = some e
  only : ∀ hash e, dedupLookup tree' hash = some e →
    dedupLookup tree hash = some e ∨ e ∈ es ∧ e.hash = hash

section Insertions

variable {blockSize : ℕ} {attempt : DedupEntry → Attempt} {tree : DedupTree}

variable {es : List DedupEntry}

theorem Grows.refl (hordered : tree.Ordered DedupEntry.hash) : Grows es tree tree :=
  ⟨hordered, fun _ _ hfound ↦ hfound, fun _ _ hfound ↦ .inl hfound⟩

variable {fresh : ℕ → Option ℕ} {e : DedupEntry}

/-- One insertion of an entry with which the tree agrees. -/
theorem grows_dedupUpsert (hroom : Roomful blockSize) (hordered : tree.Ordered DedupEntry.hash)
    (hharmless : Harmless blockSize tree ⟨e, fresh⟩)
    (hagrees : ∀ x, dedupLookup tree e.hash = some x → x = e) :
    Grows [e] tree (dedupUpsert blockSize fresh e tree).2 ∧
      ((dedupUpsert blockSize fresh e tree).1 = none →
        dedupLookup (dedupUpsert blockSize fresh e tree).2 e.hash = some e) := by
  have hlookup := dedupLookup_dedupUpsert hroom hordered hharmless
  have hafter := dedupUpsert_ordered hroom hordered hharmless
  simp only at hlookup hafter
  split_ifs at hlookup with hnew
  · refine ⟨⟨hafter, fun hash x hfound ↦ ?_, fun hash x hfound ↦ ?_⟩, fun _ ↦ ?_⟩
    · rw [hlookup, update_of_ne, hfound]
      rintro rfl
      rw [hnew.2] at hfound
      cases hfound
    · rw [hlookup] at hfound
      by_cases hsame : hash = e.hash
      · subst hsame
        rw [update_self] at hfound
        obtain rfl := Option.some.inj hfound
        exact .inr ⟨List.mem_singleton_self e, rfl⟩
      · rw [update_of_ne hsame] at hfound
        exact .inl hfound
    · rw [hlookup, update_self]
  · refine ⟨⟨hafter, fun hash x hfound ↦ ?_, fun hash x hfound ↦ ?_⟩, fun hdone ↦ ?_⟩
    · rw [hlookup, hfound]
    · rw [hlookup] at hfound
      exact .inl hfound
    · rw [hlookup]
      obtain ⟨x, hx⟩ := Option.ne_none_iff_exists'.mp fun hnone ↦ hnew ⟨hdone, hnone⟩
      rw [hx, hagrees x hx]

theorem grows_drainEntries (hroom : Roomful blockSize) (skip : Bool)
    (hordered : tree.Ordered DedupEntry.hash) (hdistinct : (es.map DedupEntry.hash).Nodup)
    (hagrees : ∀ e ∈ es, ∀ x, dedupLookup tree e.hash = some x → x = e)
    (horderly : Orderly blockSize attempt es tree) :
    Grows es tree (drainEntries blockSize skip attempt es tree).2 ∧
      ((drainEntries blockSize skip attempt es tree).1 = true →
        ∀ e ∈ es, dedupLookup (drainEntries blockSize skip attempt es tree).2 e.hash = some e) := by
  induction es generalizing tree with
  | nil => exact ⟨.refl hordered, fun _ e he ↦ absurd he List.not_mem_nil⟩
  | cons e es ih =>
    obtain ⟨hmagic, hnext⟩ := horderly
    rw [drainEntries]
    cases hread : (attempt e).readError with
    | some error =>
      have hstop : ¬(skip && decide (error = .badMagic)) = true := by
        rw [hread] at hmagic
        have : error ≠ .badMagic := fun h ↦ hmagic (congrArg some h)
        simp [this]
      simp only [hstop, if_false, Bool.false_eq_true]
      exact ⟨.refl hordered, fun hdone ↦ absurd hdone (by simp)⟩
    | none =>
      obtain ⟨hharmless, hrest⟩ := hnext hread
      obtain ⟨hgrows, hdone⟩ := grows_dedupUpsert hroom hordered hharmless
        (hagrees e List.mem_cons_self)
      rcases hrun : dedupUpsert blockSize (attempt e).fresh e tree with ⟨status, tree'⟩
      rw [hrun] at hgrows hdone hrest
      simp only at hgrows hdone hrest
      cases status with
      | some error =>
        refine ⟨⟨hgrows.ordered, hgrows.keeps, fun hash x hfound ↦ ?_⟩, fun hdone ↦ ?_⟩
        · rcases hgrows.only hash x hfound with hold | ⟨hmem, hkey⟩
          · exact .inl hold
          · exact .inr ⟨List.mem_cons.mpr (.inl (List.mem_singleton.mp hmem)), hkey⟩
        · cases hdone
      | none =>
        rw [List.map_cons, List.nodup_cons] at hdistinct
        have hagrees' : ∀ e' ∈ es, ∀ x, dedupLookup tree' e'.hash = some x → x = e' := by
          intro e' he' x hx
          rcases hgrows.only _ _ hx with hold | ⟨hmem, hkey⟩
          · exact hagrees e' (List.mem_cons_of_mem e he') x hold
          · obtain rfl := List.mem_singleton.mp hmem
            exact absurd (List.mem_map_of_mem he') (hkey ▸ hdistinct.1)
        obtain ⟨hgrows', hall⟩ := ih hgrows.ordered hdistinct.2 hagrees' (hrest rfl)
        refine ⟨⟨hgrows'.ordered, fun hash x hfound ↦ hgrows'.keeps _ _ (hgrows.keeps _ _ hfound),
          fun hash x hfound ↦ ?_⟩, fun hend e' he' ↦ ?_⟩
        · rcases hgrows'.only hash x hfound with hmid | ⟨hmem, hkey⟩
          · rcases hgrows.only hash x hmid with hold | ⟨hmem, hkey⟩
            · exact .inl hold
            · exact .inr ⟨List.mem_cons.mpr (.inl (List.mem_singleton.mp hmem)), hkey⟩
          · exact .inr ⟨List.mem_cons_of_mem e hmem, hkey⟩
        · rcases List.mem_cons.mp he' with rfl | he'
          · exact hgrows'.keeps _ _ (hdone rfl)
          · exact hall hend e' he'

/-- An insertion that gets its nodes succeeds. -/
theorem dedupUpsert_granted (hordered : tree.Ordered DedupEntry.hash)
    (hheight : tree.height ≤ dedupBtreeMaxDepth)
    (hgranted : ∀ level < tree.demand DedupEntry.hash (dedupLeafMaxKeys blockSize)
      (dedupIndexMaxKeys blockSize) e, fresh level ≠ none) :
    (dedupUpsert blockSize fresh e tree).1 = none := by
  unfold dedupUpsert dedupUpsertFind
  rw [if_neg (by omega)]
  cases hfound : tree.lookup DedupEntry.hash e.hash with
  | some existing => rfl
  | none =>
    simp only [dedupUpsertInsert]
    have hput := Root.put_granted hordered.solid hgranted
    rcases hrun : tree.put DedupEntry.hash (dedupLeafMaxKeys blockSize)
      (dedupIndexMaxKeys blockSize) fresh e with ⟨tree', done⟩
    rw [hrun] at hput
    obtain rfl : done = true := hput
    rfl

theorem Smooth.orderly (hroom : Roomful blockSize) (hordered : tree.Ordered DedupEntry.hash)
    (hsmooth : Smooth blockSize attempt es tree) : Orderly blockSize attempt es tree := by
  induction es generalizing tree with
  | nil => trivial
  | cons e es ih =>
    obtain ⟨hread, -, hsafe, hgranted, hrest⟩ := hsmooth
    have hharmless : Harmless blockSize tree ⟨e, (attempt e).fresh⟩ := ⟨hsafe, .inr hgranted⟩
    refine ⟨by rw [hread]; nofun, fun _ ↦ ⟨hharmless, fun _ ↦ ih ?_ hrest⟩⟩
    exact dedupUpsert_ordered hroom hordered hharmless

theorem Smooth.drainEntries (hroom : Roomful blockSize) (skip : Bool)
    (hordered : tree.Ordered DedupEntry.hash) (hsmooth : Smooth blockSize attempt es tree) :
    (drainEntries blockSize skip attempt es tree).1 = true := by
  induction es generalizing tree with
  | nil => rfl
  | cons e es ih =>
    obtain ⟨hread, hheight, hsafe, hgranted, hrest⟩ := hsmooth
    have hdone := dedupUpsert_granted hordered hheight hgranted
    have hafter : (dedupUpsert blockSize (attempt e).fresh e tree).2.Ordered DedupEntry.hash :=
      dedupUpsert_ordered hroom hordered (i := ⟨e, (attempt e).fresh⟩) ⟨hsafe, .inr hgranted⟩
    rw [Obmafs3.drainEntries]
    simp only [hread]
    rcases hrun : dedupUpsert blockSize (attempt e).fresh e tree with ⟨status, tree'⟩
    rw [hrun] at hdone hrest hafter
    obtain rfl : status = none := hdone
    exact ih hafter hrest

end Insertions

/-! ### Steps keep the invariant -/

section Steps

variable {blockSize : ℕ} {st : AsyncState} {pb : PendingBuf} {e : DedupEntry} {sectorSize : ℕ}

/-- Two stored entries with one hash are the same, of the same sector size. -/
theorem AsyncState.Intact.eq_of_hash (hintact : st.Intact) {p q : ℕ × DedupEntry}
    (hp : p ∈ st.stored) (hq : q ∈ st.stored) (hhash : p.2.hash = q.2.hash) : p = q :=
  List.inj_on_of_nodup_map hintact.distinct hp hq hhash

/-- The hashes of a buffer are different. -/
theorem Labelled.nodup (hlabelled : Labelled st.stored pb) : (pb.entries.map DedupEntry.hash).Nodup :=
  hlabelled.whole.settled.nodup

theorem perm_sortedEntries (hwhole : pb.Whole) : (sortedEntries pb).Perm pb.entries := by
  unfold sortedEntries
  rw [← hwhole.length_eq, List.take_length]
  exact List.mergeSort_perm _ _

/-- A tree that grows by stored entries of its sector size. -/
theorem AsyncState.Intact.grow (hintact : st.Intact) {es : List DedupEntry} {tree' : DedupTree}
    (hes : ∀ e ∈ es, (sectorSize, e) ∈ st.stored) (hgrows : Grows es (st.tree sectorSize) tree') :
    AsyncState.Intact { st with tree := update st.tree sectorSize tree' } := by
  have hkeeps (size hash : ℕ) (x : DedupEntry) (hfound : dedupLookup (st.tree size) hash = some x) :
      dedupLookup (update st.tree sectorSize tree' size) hash = some x := by
    by_cases hsame : size = sectorSize
    · subst hsame
      rw [update_self]
      exact hgrows.keeps hash x hfound
    · rw [update_of_ne hsame]
      exact hfound
  refine ⟨fun size ↦ ?_, fun pb hpb ↦ ?_, fun pb hpb ↦ ?_, hintact.distinct, fun p hp x hx ↦ ?_,
    fun p hp ↦ ?_, fun cycle hcycle ↦ ?_⟩
  · by_cases hsame : size = sectorSize
    · subst hsame
      simp only [update_self]
      exact hgrows.ordered
    · simp only [update_of_ne hsame]
      exact hintact.ordered size
  · exact hintact.pending pb hpb
  · exact hintact.draining pb hpb
  · by_cases hsame : p.1 = sectorSize
    · simp only [hsame, update_self] at hx
      rcases hgrows.only _ _ hx with hold | ⟨hmem, hkey⟩
      · exact hintact.agrees p hp x (hsame ▸ hold)
      · exact congrArg Prod.snd (hintact.eq_of_hash (hes x hmem) hp hkey)
    · simp only [update_of_ne hsame] at hx
      exact hintact.agrees p hp x hx
  · rcases hintact.held p hp with hpending | hdraining | htree
    · exact .inl hpending
    · exact .inr (.inl hdraining)
    · exact .inr (.inr (hkeeps _ _ _ htree))
  · obtain ⟨drain, hdrain, hsubset, hnodup, hinserted⟩ := hintact.cycle cycle hcycle
    exact ⟨drain, hdrain, hsubset, hnodup, fun e he ↦ (hinserted e he).imp id (hkeeps _ _ _)⟩

variable {attempt : DedupEntry → Attempt} {calloc : ℕ → Bool} {pb' : PendingBuf} {getTree : Bool}

section

variable (hintact : st.Intact)
include hintact

/-- A new entry in the pending buffer. -/
theorem AsyncState.Intact.insert (hpending : st.pending = some pb)
    (hsize : pb.sectorSize = sectorSize) (hsize0 : sectorSize ≠ 0) (hroom : pb.Roomy calloc)
    (hhash : e.hash ≠ 0) (hnew : NewHash st e.hash)
    (habsent : dedupLookup (st.tree sectorSize) e.hash = none) :
    AsyncState.Intact { st with
      pending := some (pendingInsert calloc pb e)
      stored := (sectorSize, e) :: st.stored } := by
  obtain ⟨hwhole, -, hstored⟩ := hintact.pending pb hpending
  obtain ⟨hwhole', hperm, hlabel⟩ := hwhole.insert hhash
    (fun q hq ↦ hnew _ (hstored q hq)) hroom
  refine ⟨hintact.ordered, fun pb' hpb' ↦ ?_, fun drain hdrain ↦ ?_, ?_, fun p hp x hx ↦ ?_,
    fun p hp ↦ ?_, fun cycle hcycle ↦ ?_⟩
  · obtain rfl := Option.some.inj hpb'
    refine ⟨hwhole', fun hzero ↦ absurd (hsize.symm.trans (hlabel.symm.trans hzero)) hsize0,
      fun q hq ↦ ?_⟩
    rw [hlabel, hsize]
    rcases List.mem_cons.mp (hperm.mem_iff.mp hq) with rfl | hq
    · exact List.mem_cons_self
    · exact List.mem_cons_of_mem _ (hsize ▸ hstored q hq)
  · obtain ⟨hwhole, hunlabelled, hstored⟩ := hintact.draining drain hdrain
    exact ⟨hwhole, hunlabelled, fun q hq ↦ List.mem_cons_of_mem _ (hstored q hq)⟩
  · rw [List.map_cons, List.nodup_cons]
    refine ⟨fun hmem ↦ ?_, hintact.distinct⟩
    obtain ⟨p, hp, hkey⟩ := List.mem_map.mp hmem
    exact hnew p hp hkey
  · rcases List.mem_cons.mp hp with rfl | hp
    · rw [habsent] at hx
      cases hx
    · exact hintact.agrees p hp x hx
  · rcases List.mem_cons.mp hp with rfl | hp
    · exact .inl ⟨_, rfl, hlabel.trans hsize, hperm.mem_iff.mpr List.mem_cons_self⟩
    · rcases hintact.held p hp with ⟨pb', hpb', hlabel', hmem⟩ | hdraining | htree
      · obtain rfl := Option.some.inj (hpb'.symm.trans hpending)
        exact .inl ⟨_, rfl, hlabel.trans hlabel', hperm.mem_iff.mpr (List.mem_cons_of_mem _ hmem)⟩
      · exact .inr (.inl hdraining)
      · exact .inr (.inr htree)
  · exact hintact.cycle cycle hcycle

/-- A buffer without entries in the place of one whose entries are all in the tree. -/
theorem AsyncState.Intact.replace (hwhole : pb'.Whole) (hnone : pb'.entries = [])
    (hin : ∀ pb, st.pending = some pb → ∀ e ∈ pb.entries, dedupLookup (st.tree pb.sectorSize) e.hash = some e) :
    AsyncState.Intact { st with pending := some pb' } := by
  refine ⟨hintact.ordered, fun pb hpb ↦ ?_, fun drain hdrain ↦ ?_, hintact.distinct,
    hintact.agrees, fun p hp ↦ ?_, fun cycle hcycle ↦ ?_⟩
  · obtain rfl := Option.some.inj hpb
    refine ⟨hwhole, fun _ ↦ ?_, by simp [hnone]⟩
    rw [← hwhole.length_eq, hnone, List.length_nil]
  · exact hintact.draining drain hdrain
  · rcases hintact.held p hp with ⟨pb, hpb, hlabel, hmem⟩ | hdraining | htree
    · exact .inr (.inr (hlabel ▸ hin pb hpb p.2 hmem))
    · exact .inr (.inl hdraining)
    · exact .inr (.inr htree)
  · exact hintact.cycle cycle hcycle

/-- The pending buffer becomes the draining one. -/
theorem AsyncState.Intact.handOver (hpending : st.pending = some pb)
    (hdraining : st.draining = none) {fresh : Option PendingBuf}
    (hfresh : ∀ pb', fresh = some pb' → pb'.Whole ∧ pb'.entries = []) :
    AsyncState.Intact { st with draining := some pb, pending := fresh } := by
  refine ⟨hintact.ordered, fun pb' hpb' ↦ ?_, fun drain hdrain ↦ ?_, hintact.distinct,
    hintact.agrees, fun p hp ↦ ?_, fun cycle hcycle ↦ ?_⟩
  · obtain ⟨hwhole, hnone⟩ := hfresh pb' hpb'
    refine ⟨hwhole, fun _ ↦ ?_, by simp [hnone]⟩
    rw [← hwhole.length_eq, hnone, List.length_nil]
  · obtain rfl := Option.some.inj hdrain
    exact hintact.pending pb hpending
  · rcases hintact.held p hp with ⟨pb', hpb', hlabel, hmem⟩ | ⟨drain, hdrain, -⟩ | htree
    · obtain rfl := Option.some.inj (hpb'.symm.trans hpending)
      exact .inr (.inl ⟨_, rfl, hlabel, hmem⟩)
    · rw [hdraining] at hdrain
      cases hdrain
    · exact .inr (.inr htree)
  · obtain ⟨drain, hdrain, -⟩ := hintact.cycle cycle hcycle
    rw [hdraining] at hdrain
    cases hdrain

/-- An empty buffer can be given any sector size. -/
theorem AsyncState.Intact.relabel (hpending : st.pending = some pb) (hzero : pb.sectorSize = 0)
    (sectorSize : ℕ) : AsyncState.Intact { st with pending := some { pb with sectorSize } } := by
  obtain ⟨hwhole, hunlabelled, -⟩ := hintact.pending pb hpending
  have hnone : pb.entries = [] := by
    refine List.eq_nil_of_length_eq_zero ?_
    rw [hwhole.length_eq, hunlabelled hzero]
  refine hintact.replace ⟨hwhole.settled, hwhole.nonzero, hwhole.length_eq, hwhole.load⟩ hnone ?_
  intro pb' hpb' e he
  obtain rfl := Option.some.inj (hpb'.symm.trans hpending)
  rw [hnone] at he
  cases he

end

variable {st' : AsyncState} {env : WriteEnv} {memory : Bool}

section

variable (hroom : Roomful blockSize) (hintact : st.Intact)
include hroom hintact

/-- The buffer that a writer goes on with when its buffer was ready. -/
theorem AsyncState.Intact.handOff (hpending : st.pending = some pb)
    (hready : BufferReady blockSize env sectorSize st pb)
    (hrun : handOff blockSize env sectorSize st pb = (st', pb')) :
    AsyncState.Intact { st' with pending := some pb' } ∧ st'.stored = st.stored ∧
      st'.tree sectorSize = st.tree sectorSize ∧
      (pb'.sectorSize = 0 ∨ pb'.sectorSize = sectorSize) ∧ pb'.Roomy env.calloc := by
  obtain ⟨hwhole, hunlabelled, hstored⟩ := hintact.pending pb hpending
  unfold Obmafs3.handOff at hrun
  rcases hready with ⟨hlabel, hfits⟩ | ⟨hother, hcount, hways⟩
  · rw [if_neg (by rintro ⟨hzero, hother, -⟩; exact hlabel.elim hzero hother)] at hrun
    obtain ⟨rfl, rfl⟩ := Prod.mk.inj hrun
    refine ⟨?_, rfl, rfl, hlabel, hfits⟩
    have hsame : { st with pending := some pb } = st := by rw [← hpending]
    rw [hsame]
    exact hintact
  · have hlabel : pb.sectorSize ≠ 0 := fun hzero ↦ by
      have := hunlabelled hzero
      omega
    have hnew : pendingCreate.Whole ∧ pendingCreate.entries = [] :=
      ⟨pendingCreate_whole, Table.entries_empty _⟩
    rw [if_pos ⟨hlabel, hother, hcount⟩] at hrun
    split_ifs at hrun with hidle hget
    · obtain ⟨rfl, rfl⟩ := Prod.mk.inj hrun
      refine ⟨?_, rfl, rfl, .inl rfl, .inl (by decide)⟩
      refine hintact.handOver hpending (Option.isNone_iff_eq_none.mp hidle.1) fun pb' hpb' ↦ ?_
      obtain rfl := Option.some.inj hpb'
      exact hnew
    · obtain ⟨-, hscratch, hsmooth⟩ := hways.resolve_left hidle
      have hperm := perm_sortedEntries hwhole
      have horderly := hsmooth.orderly hroom (hintact.ordered _)
      obtain ⟨hgrows, hall⟩ := grows_drainEntries hroom false (hintact.ordered _)
        ((hperm.map _).nodup_iff.mpr (hintact.pending pb hpending).nodup)
        (fun e he x hx ↦ hintact.agrees _ (hstored e (hperm.mem_iff.mp he)) x hx) horderly
      have hdone := hsmooth.drainEntries hroom false (hintact.ordered _)
      simp only [pendingFlush, if_neg (Nat.pos_iff_ne_zero.mp hcount), hscratch, if_true] at hrun
      rcases hdrain : drainEntries blockSize false env.attempt (sortedEntries pb)
        (st.tree pb.sectorSize) with ⟨done, tree'⟩
      rw [hdrain] at hgrows hall hdone
      simp only at hgrows hall hdone
      rw [hdone] at hdrain
      simp only [hdrain, true_or, if_true] at hrun
      obtain ⟨rfl, rfl⟩ := Prod.mk.inj hrun
      have hgrown := hintact.grow (fun e he ↦ hstored e (hperm.mem_iff.mp he)) hgrows
      have hcleared : pb.cleared.Whole := by
        obtain ⟨k, hk, hk', hcap, -⟩ := hwhole.load
        exact ⟨Table.settled_empty _, by simp [PendingBuf.entries, PendingBuf.cleared],
          by simp [PendingBuf.entries, PendingBuf.cleared],
          ⟨k, hk, hk', hcap, by simp [PendingBuf.cleared]⟩⟩
      refine ⟨?_, rfl, update_of_ne (Ne.symm hother) _ _, .inl rfl, .inl ?_⟩
      · refine hgrown.replace ⟨hcleared.settled, hcleared.nonzero, hcleared.length_eq,
          hcleared.load⟩ (Table.entries_empty _) fun pb' hpb' e he ↦ ?_
        obtain rfl := Option.some.inj (hpb'.symm.trans hpending)
        simp only [update_self]
        exact hall hdone e (hperm.mem_iff.mpr he)
      · obtain ⟨k, -, -, hcap, -⟩ := hcleared.load
        have : 0 < 2 ^ k := Nat.two_pow_pos k
        simp only [PendingBuf.cleared] at hcap ⊢
        omega
    · exact absurd (hways.resolve_left hidle).1 hget

theorem AsyncState.Intact.insertNow (hcareful : CarefulNow blockSize env sectorSize e st) :
    (insertNow blockSize env sectorSize e st).Intact := by
  unfold Obmafs3.insertNow
  cases hread : (env.attempt e).readError with
  | some error => exact hintact
  | none =>
    obtain ⟨hharmless, hnew⟩ := hcareful hread
    have hordered := hintact.ordered sectorSize
    have hlookup := dedupLookup_dedupUpsert hroom hordered hharmless
    have hafter := dedupUpsert_ordered hroom hordered hharmless
    simp only at hlookup hafter
    rcases hrun : dedupUpsert blockSize (env.attempt e).fresh e (st.tree sectorSize) with
      ⟨status, tree'⟩
    rw [hrun] at hlookup hafter
    simp only at hlookup hafter ⊢
    split_ifs at hlookup ⊢ with hput
    · -- The entry is new to the tree, and stored with its insertion.
      have hfresh : NewHash st e.hash := hnew.resolve_right fun hin ↦ hin hput.2
      have hkeeps (size : ℕ) (p : ℕ × DedupEntry) (hp : p ∈ st.stored) :
          dedupLookup (update st.tree sectorSize tree' size) p.2.hash =
            dedupLookup (st.tree size) p.2.hash := by
        by_cases hsame : size = sectorSize
        · subst hsame
          rw [update_self, hlookup, update_of_ne (hfresh p hp)]
        · rw [update_of_ne hsame]
      refine ⟨fun size ↦ ?_, fun pb hpb ↦ ?_, fun pb hpb ↦ ?_, ?_, fun p hp x hx ↦ ?_,
        fun p hp ↦ ?_, fun cycle hcycle ↦ ?_⟩
      · by_cases hsame : size = sectorSize
        · subst hsame
          simp only [update_self]
          exact hafter
        · simp only [update_of_ne hsame]
          exact hintact.ordered size
      · obtain ⟨hwhole, hunlabelled, hstored⟩ := hintact.pending pb hpb
        exact ⟨hwhole, hunlabelled, fun q hq ↦ List.mem_cons_of_mem _ (hstored q hq)⟩
      · obtain ⟨hwhole, hunlabelled, hstored⟩ := hintact.draining pb hpb
        exact ⟨hwhole, hunlabelled, fun q hq ↦ List.mem_cons_of_mem _ (hstored q hq)⟩
      · rw [List.map_cons, List.nodup_cons]
        refine ⟨fun hmem ↦ ?_, hintact.distinct⟩
        obtain ⟨p, hp, hkey⟩ := List.mem_map.mp hmem
        exact hfresh p hp hkey
      · rcases List.mem_cons.mp hp with rfl | hp
        · simp only [update_self] at hx
          rw [hlookup, update_self] at hx
          exact (Option.some.inj hx).symm
        · simp only at hx
          rw [hkeeps p.1 p hp] at hx
          exact hintact.agrees p hp x hx
      · rcases List.mem_cons.mp hp with rfl | hp
        · refine .inr (.inr ?_)
          simp only [update_self]
          rw [hlookup, update_self]
        · rcases hintact.held p hp with hpending | hdraining | htree
          · exact .inl hpending
          · exact .inr (.inl hdraining)
          · exact .inr (.inr ((hkeeps p.1 p hp).trans htree))
      · obtain ⟨drain, hdrain, hsubset, hnodup, hinserted⟩ := hintact.cycle cycle hcycle
        refine ⟨drain, hdrain, hsubset, hnodup, fun q hq ↦ (hinserted q hq).imp id fun htree ↦ ?_⟩
        exact (hkeeps _ _ ((hintact.draining drain hdrain).stored q hq)).trans htree
    · have hnothing : ∀ e ∈ ([] : List DedupEntry), (sectorSize, e) ∈ st.stored := nofun
      refine hintact.grow hnothing ⟨hafter, ?_, ?_⟩
      · intro hash x hfound
        rw [hlookup]
        exact hfound
      · intro hash x hfound
        rw [hlookup] at hfound
        exact .inl hfound

theorem AsyncState.Intact.writeEntry
    (hcareful : (AsyncStep.write env sectorSize e).Careful blockSize st) :
    (writeEntry blockSize env sectorSize e st).Intact := by
  unfold Obmafs3.writeEntry
  simp only [AsyncStep.Careful] at hcareful
  cases hpending : st.pending with
  | none =>
    rw [hpending] at hcareful
    exact hintact.insertNow hroom hcareful
  | some pb =>
    rw [hpending] at hcareful
    obtain ⟨hhash, hsize, hnew, habsent, hready⟩ := hcareful
    rcases hrun : Obmafs3.handOff blockSize env sectorSize st pb with ⟨st', pb'⟩
    obtain ⟨hintact', hsame, htree, hlabel, hfits⟩ := hintact.handOff hroom hpending hready hrun
    simp only [hrun]
    have hnew' : NewHash st' e.hash := by
      intro p hp
      rw [hsame] at hp
      exact hnew p hp
    have habsent' : dedupLookup (st'.tree sectorSize) e.hash = none := by rw [htree, habsent]
    by_cases hzero : pb'.sectorSize = 0
    · simp only [if_pos hzero]
      exact (hintact'.relabel rfl hzero sectorSize).insert rfl rfl hsize hfits hhash hnew' habsent'
    · simp only [if_neg hzero]
      exact hintact'.insert rfl (hlabel.resolve_left hzero) hsize hfits hhash hnew' habsent'

end

theorem AsyncState.Intact.swapBuffers (hintact : st.Intact)
    (hrun : swapBuffers memory st = some st') : st'.Intact := by
  unfold Obmafs3.swapBuffers at hrun
  cases hpending : st.pending with
  | none => simp [hpending] at hrun
  | some pb =>
    simp only [hpending] at hrun
    split_ifs at hrun with hidle hmemory
    · obtain rfl := Option.some.inj hrun
      refine hintact.handOver hpending (Option.isNone_iff_eq_none.mp hidle.2.1) fun pb' hpb' ↦ ?_
      obtain rfl := Option.some.inj hpb'
      have hnew := pendingCreate_whole
      exact ⟨⟨hnew.settled, hnew.nonzero, hnew.length_eq, hnew.load⟩, Table.entries_empty _⟩
    · obtain rfl := Option.some.inj hrun
      exact hintact.handOver hpending (Option.isNone_iff_eq_none.mp hidle.2.1) nofun

theorem AsyncState.Intact.beginDrain (hintact : st.Intact)
    (hcareful : (AsyncStep.begin memory).Careful blockSize st)
    (hrun : beginDrain memory st = some st') : st'.Intact := by
  unfold Obmafs3.beginDrain at hrun
  cases hdraining : st.draining with
  | none => simp [hdraining] at hrun
  | some drain =>
    have hlabelled := hintact.draining drain hdraining
    have hperm := perm_sortedEntries hlabelled.whole
    simp only [hdraining] at hrun
    split_ifs at hrun with hidle hwork
    · obtain rfl := Option.some.inj hrun
      rw [← hdraining]
      refine { hintact with cycle := fun cycle hcycle ↦ ?_ }
      obtain rfl := Option.some.inj hcycle
      exact ⟨drain, hdraining, fun e he ↦ hperm.mem_iff.mp he,
        (hperm.map _).nodup_iff.mpr hlabelled.nodup, fun e he ↦ .inl (hperm.mem_iff.mpr he)⟩
    · have hzero : drain.count = 0 := by
        by_contra hcount
        rcases hcareful with hmemory | hempty
        · exact hwork ⟨hcount, hmemory⟩
        · exact hcount (hempty drain hdraining)
      have hnone : drain.entries = [] :=
        List.eq_nil_of_length_eq_zero (hlabelled.whole.length_eq.trans hzero)
      obtain rfl := Option.some.inj hrun
      rw [← hdraining]
      refine { hintact with cycle := fun cycle hcycle ↦ ?_ }
      obtain rfl := Option.some.inj hcycle
      exact ⟨drain, hdraining, by simp, List.nodup_nil, by simp [hnone]⟩

/-- What a batch does: it puts entries in the tree and goes on or stops, or it stops at once. -/
theorem drainBatch_cases (hrun : drainBatch blockSize getTree attempt st = some st') :
    ∃ drain cycle, st.draining = some drain ∧ st.cycle = some cycle ∧
      ((getTree = true ∧ ∃ done tree',
          drainEntries blockSize true attempt (cycle.remaining.take housekeepingBatchSize)
            (st.tree drain.sectorSize) = (done, tree') ∧
          st' = { st with
            tree := update st.tree drain.sectorSize tree'
            cycle := some (if done then ⟨cycle.remaining.drop housekeepingBatchSize, false⟩
              else { cycle with failed := true }) }) ∨
        st' = { st with cycle := some { cycle with failed := true } }) := by
  unfold drainBatch at hrun
  cases hdraining : st.draining with
  | none => simp [hdraining] at hrun
  | some drain =>
    cases hcycle : st.cycle with
    | none => simp [hdraining, hcycle] at hrun
    | some cycle =>
      refine ⟨drain, cycle, rfl, rfl, ?_⟩
      simp only [hdraining, hcycle] at hrun
      split_ifs at hrun with hwork hget
      · rcases hrest : drainEntries blockSize true attempt
          (cycle.remaining.take housekeepingBatchSize) (st.tree drain.sectorSize) with ⟨done, tree'⟩
        refine .inl ⟨hget, done, tree', rfl, ?_⟩
        cases done <;> simp only [hrest] at hrun <;> exact (Option.some.inj hrun).symm
      · exact .inr (Option.some.inj hrun).symm

theorem AsyncState.Intact.drainBatch (hroom : Roomful blockSize) (hintact : st.Intact)
    (hcareful : (AsyncStep.batch getTree attempt).Careful blockSize st)
    (hrun : drainBatch blockSize getTree attempt st = some st') : st'.Intact := by
  obtain ⟨drain, cycle, hdraining, hcycle, hdone⟩ := drainBatch_cases hrun
  obtain ⟨hsubset, hnodup, hinserted⟩ := hintact.fits hdraining hcycle
  -- A cycle that stops is as far as it was.
  have hstopped (st' : AsyncState) (hintact' : st'.Intact) (hdrain : st'.draining = some drain)
      (hfits : cycle.Fits st'.tree drain) :
      AsyncState.Intact { st' with cycle := some { cycle with failed := true } } := by
    refine { hintact' with cycle := fun cycle' hcycle' ↦ ?_ }
    obtain rfl := Option.some.inj hcycle'
    exact ⟨drain, hdrain, hfits.subset, hfits.nodup, hfits.inserted⟩
  rcases hdone with ⟨hget, done, tree', hrest, rfl⟩ | rfl
  · have hstored := (hintact.draining drain hdraining).stored
    have hbatch : ∀ e ∈ cycle.remaining.take housekeepingBatchSize, e ∈ drain.entries :=
      fun e he ↦ hsubset e (List.mem_of_mem_take he)
    obtain ⟨hgrows, hall⟩ := grows_drainEntries hroom true (hintact.ordered _)
      (hnodup.sublist ((List.take_sublist _ _).map _))
      (fun e he x hx ↦ hintact.agrees _ (hstored e (hbatch e he)) x hx)
      (hcareful drain cycle hdraining hcycle hget)
    have hgrown := hintact.grow (fun e he ↦ hstored e (hbatch e he)) hgrows
    have hfits := hgrown.fits hdraining hcycle
    rw [hrest] at hall hgrown hfits
    cases done with
    | false => exact hstopped _ hgrown hdraining hfits
    | true =>
      refine { hgrown with cycle := fun cycle' hcycle' ↦ ?_ }
      obtain rfl := Option.some.inj hcycle'
      refine ⟨drain, hdraining, fun e he ↦ hsubset e (List.mem_of_mem_drop he),
        hnodup.sublist ((List.drop_sublist _ _).map _), fun e he ↦ ?_⟩
      rcases hfits.inserted e he with hremains | htree
      · rw [← List.take_append_drop housekeepingBatchSize cycle.remaining] at hremains
        rcases List.mem_append.mp hremains with htaken | hleft
        · refine .inr ?_
          simp only [update_self]
          exact hall rfl e htaken
        · exact .inl hleft
      · exact .inr htree
  · exact hstopped st hintact hdraining ⟨hsubset, hnodup, hinserted⟩

theorem AsyncState.Intact.finishDrain (hintact : st.Intact)
    (hrun : finishDrain memory calloc st = some st') : st'.Intact := by
  unfold Obmafs3.finishDrain at hrun
  cases hdraining : st.draining with
  | none => simp [hdraining] at hrun
  | some drain =>
    cases hcycle : st.cycle with
    | none => simp [hdraining, hcycle] at hrun
    | some cycle =>
      simp only [hdraining, hcycle] at hrun
      obtain ⟨hsubset, hnodup, hinserted⟩ := hintact.fits hdraining hcycle
      have hlabelled := hintact.draining drain hdraining
      -- A buffer for what remains takes the place of the draining buffer.
      have hreplaced (rest : Option PendingBuf) (hrest : ∀ pb, rest = some pb → Labelled st.stored pb)
          (hkeeps : ∀ e ∈ drain.entries,
            (∃ pb, rest = some pb ∧ pb.sectorSize = drain.sectorSize ∧ e ∈ pb.entries) ∨
              dedupLookup (st.tree drain.sectorSize) e.hash = some e) :
          AsyncState.Intact { st with draining := rest, cycle := none } := by
        refine ⟨hintact.ordered, fun pb hpb ↦ ?_, fun pb hpb ↦ ?_, hintact.distinct,
          hintact.agrees, fun p hp ↦ ?_, nofun⟩
        · exact hintact.pending pb hpb
        · exact hrest pb hpb
        · rcases hintact.held p hp with hpending | ⟨pb, hpb, hlabel, hmem⟩ | htree
          · exact .inl hpending
          · obtain rfl := Option.some.inj (hpb.symm.trans hdraining)
            rcases hkeeps p.2 hmem with ⟨pb', hpb', hlabel', hmem'⟩ | htree
            · exact .inr (.inl ⟨pb', hpb', hlabel'.trans hlabel, hmem'⟩)
            · exact .inr (.inr (hlabel ▸ htree))
          · exact .inr (.inr htree)
      split_ifs at hrun with hend hdone hmemory
      · obtain rfl := Option.some.inj hrun
        refine hreplaced none nofun fun e he ↦ .inr ((hinserted e he).resolve_left ?_)
        rw [hdone]
        exact List.not_mem_nil
      · obtain rfl := Option.some.inj hrun
        have hfew : cycle.remaining.length ≤ 3 * 2 ^ 28 := by
          have hle : cycle.remaining.length ≤ drain.entries.length :=
            (List.subperm_of_subset (List.Nodup.of_map _ hnodup) fun e he ↦ hsubset e he).length_le
          have hcap := hlabelled.whole.capacity_lt
          obtain ⟨k, -, -, -, hload⟩ := hlabelled.whole.load
          rw [hlabelled.whole.length_eq] at hle
          omega
        obtain ⟨hwhole, hperm⟩ := presizedWith_spec calloc drain.sectorSize hfew
          (fun e he ↦ hlabelled.whole.nonzero e (hsubset e he)) hnodup
        have hsize := presizedWith_sectorSize calloc drain.sectorSize cycle.remaining
        refine hreplaced (some _) (fun pb hpb ↦ ?_) fun e he ↦ ?_
        · obtain rfl := Option.some.inj hpb
          refine ⟨hwhole, fun hzero ↦ ?_, fun e he ↦ ?_⟩
          · rw [hsize] at hzero
            have hcount := hlabelled.unlabelled hzero
            rw [← hlabelled.whole.length_eq] at hcount
            refine absurd (List.eq_nil_iff_forall_not_mem.mpr fun e he ↦ ?_) hdone
            have := hsubset e he
            rw [List.eq_nil_of_length_eq_zero hcount] at this
            cases this
          · rw [hsize]
            exact hlabelled.stored e (hsubset e (hperm.mem_iff.mp he))
        · exact (hinserted e he).imp (fun hremains ↦
            ⟨_, rfl, hsize, hperm.mem_iff.mpr hremains⟩) id
      · obtain rfl := Option.some.inj hrun
        refine hreplaced (some drain) (fun pb hpb ↦ ?_) fun e he ↦ .inl ⟨drain, rfl, rfl, he⟩
        obtain rfl := Option.some.inj hpb
        exact hlabelled

/-- A careful step keeps the invariant. -/
theorem AsyncState.Intact.step (hroom : Roomful blockSize) (hintact : st.Intact) {step : AsyncStep}
    (hcareful : step.Careful blockSize st) (hrun : step.run blockSize st = some st') :
    st'.Intact := by
  cases step with
  | write env size entry =>
    obtain rfl := Option.some.inj hrun
    exact hintact.writeEntry hroom hcareful
  | writeNow env size entry =>
    obtain rfl := Option.some.inj hrun
    exact hintact.insertNow hroom hcareful
  | swap memory => exact hintact.swapBuffers hrun
  | begin memory => exact hintact.beginDrain hcareful hrun
  | batch getTree attempt => exact hintact.drainBatch hroom hcareful hrun
  | finish memory calloc => exact hintact.finishDrain hrun
  | shutdown =>
    obtain rfl := Option.some.inj hrun
    refine ⟨hintact.ordered, fun pb hpb ↦ ?_, fun pb hpb ↦ ?_, hintact.distinct, hintact.agrees,
      hintact.held, fun cycle hcycle ↦ ?_⟩
    · obtain ⟨hwhole, hunlabelled, hstored⟩ := hintact.pending pb hpb
      exact ⟨hwhole, hunlabelled, hstored⟩
    · obtain ⟨hwhole, hunlabelled, hstored⟩ := hintact.draining pb hpb
      exact ⟨hwhole, hunlabelled, hstored⟩
    · obtain ⟨drain, hdrain, hsubset, hnodup, hinserted⟩ := hintact.cycle cycle hcycle
      exact ⟨drain, hdrain, hsubset, hnodup, hinserted⟩

end Steps

/-! ### Runs keep every entry -/

section Runs

variable {blockSize : ℕ} {st st' : AsyncState} {steps : List AsyncStep}

/-- The state after a mount: no drain is going on, and the entries that are stored are those of the
pending buffer, which may come from the last unmount and may already be in the tree. -/
structure AsyncState.Mounted (st : AsyncState) : Prop where
  draining : st.draining = none
  cycle : st.cycle = none
  ordered : ∀ sectorSize, (st.tree sectorSize).Ordered DedupEntry.hash
  whole : ∀ pb, st.pending = some pb → pb.Whole ∧ (pb.sectorSize = 0 → pb.count = 0)
  stored : st.stored = (bufEntries st.pending).map fun e ↦ (bufSectorSize st.pending, e)
  agrees : ∀ e ∈ bufEntries st.pending, ∀ x,
    dedupLookup (st.tree (bufSectorSize st.pending)) e.hash = some x → x = e

theorem AsyncState.Mounted.intact (hmounted : st.Mounted) : st.Intact := by
  have hmem (p : ℕ × DedupEntry) (hp : p ∈ st.stored) :
      ∃ pb, st.pending = some pb ∧ p.2 ∈ pb.entries ∧ p.1 = pb.sectorSize := by
    rw [hmounted.stored] at hp
    obtain ⟨e, he, rfl⟩ := List.mem_map.mp hp
    cases hpending : st.pending with
    | none =>
      rw [hpending] at he
      cases he
    | some pb =>
      rw [hpending] at he
      exact ⟨pb, rfl, he, rfl⟩
  refine ⟨hmounted.ordered, fun pb hpb ↦ ?_, fun pb hpb ↦ ?_, ?_, fun p hp x hx ↦ ?_,
    fun p hp ↦ ?_, fun cycle hcycle ↦ ?_⟩
  · obtain ⟨hwhole, hunlabelled⟩ := hmounted.whole pb hpb
    refine ⟨hwhole, hunlabelled, fun e he ↦ ?_⟩
    rw [hmounted.stored, hpb]
    exact List.mem_map_of_mem he
  · rw [hmounted.draining] at hpb
    cases hpb
  · rw [hmounted.stored, List.map_map]
    cases hpending : st.pending with
    | none => exact List.nodup_nil
    | some pb => exact (hmounted.whole pb hpending).1.settled.nodup
  · obtain ⟨pb, hpending, he, hlabel⟩ := hmem p hp
    have hagrees := hmounted.agrees
    rw [hpending] at hagrees
    have hfound : dedupLookup (st.tree pb.sectorSize) p.2.hash = some x := hlabel ▸ hx
    exact hagrees p.2 he x hfound
  · obtain ⟨pb, hpending, he, hlabel⟩ := hmem p hp
    exact .inl ⟨pb, hpending, hlabel.symm, he⟩
  · rw [hmounted.cycle] at hcycle
    cases hcycle

theorem AsyncState.Intact.runSteps (hroom : Roomful blockSize) (hintact : st.Intact)
    (hcareful : AllCareful blockSize steps st) (hrun : runSteps blockSize steps st = some st') :
    st'.Intact := by
  induction steps generalizing st with
  | nil =>
    obtain rfl := Option.some.inj hrun
    exact hintact
  | cons step steps ih =>
    obtain ⟨hstep, hsteps⟩ := hcareful
    obtain ⟨mid, hmid, hrest⟩ := Option.bind_eq_some_iff.mp hrun
    exact ih (hintact.step hroom hstep hmid) (hsteps mid hmid) hrest

end Runs

/-! ### A cycle without memory -/

/-- A new volume with an empty pending buffer. -/
def idleState : AsyncState where
  pending := some pendingCreate
  draining := none
  tree := fun _ ↦ newDedupTree 8
  cycle := none
  housekeepingStarted := true
  shutdownRequested := false
  stored := []

def plentiful : WriteEnv := ⟨true, fun _ ↦ true, true, true, fun _ ↦ ⟨none, some⟩⟩

theorem idleState_mounted : idleState.Mounted where
  draining := rfl
  cycle := rfl
  ordered := fun _ ↦ List.Pairwise.nil
  whole := fun pb hpb ↦ by
    obtain rfl := Option.some.inj hpb
    exact ⟨pendingCreate_whole, fun _ ↦ rfl⟩
  stored := by simp [idleState, PendingBuf.entries, pendingCreate]
  agrees := fun e he ↦ by
    have hnone : pendingCreate.entries = [] := Table.entries_empty _
    rw [idleState, bufEntries_some, hnone] at he
    cases he

end Obmafs3
