import Obmafs3.Library.SearchTreeLabels
import Obmafs3.Refcounts.Table
import Obmafs3.Store.Walk

/-!
# The refcount table as a map

A run of refcount calls from an empty tree, and the map from blocks to counts that the same calls
describe. `refcount_map` says that the two agree after every run whose insertions are safe: no
insertion hands the parent of a divided node a separator above a key that the node holds. What
happens when one does is the subject of `Obmafs3.Refcounts.Lost`.
-/

set_option autoImplicit false

namespace Obmafs3

open Library.Search Library.SearchTree

/-! ### Calls and runs -/

/-- A call on the refcount table. -/
inductive RefcountCall
  | set (lba refCount : ℕ)
  | get (lba : ℕ)
  deriving DecidableEq, Repr

def RefcountCall.run : RefcountCall → Op RefcountCtx Unit
  | .set lba refCount => refcountSet lba refCount
  | .get lba => do
    let _ ← refcountGet lba
    pure ()

/-- One call after the other, up to the first that fails. -/
def runCalls : List RefcountCall → Op RefcountCtx Unit
  | [] => pure ()
  | call :: calls => do
    call.run
    runCalls calls

/-- What a call does to the map from blocks to counts. -/
def RefcountCall.count (counts : ℕ → ℕ) : RefcountCall → ℕ → ℕ
  | .set lba refCount => Function.update counts lba (max refCount 1)
  | .get _ => counts

/-- The count that the last set of each block left: one for a block that was never set. -/
def countsAfter (calls : List RefcountCall) : ℕ → ℕ :=
  calls.foldl RefcountCall.count fun _ ↦ 1

/-- The table is the map: every get answers with the count of the map, and the leaves hold strictly
increasing blocks and are linked in both directions. -/
def IsMap (counts : ℕ → ℕ) (ctx : RefcountCtx) : Prop :=
  (∀ lba, ∃ ctx', refcountGet lba ctx = .ok (counts lba) ctx') ∧
    ∃ walk, walkTree refcountKind ctx.toTreeCtx = .ok walk ctx.toTreeCtx ∧ Chained 0 walk ∧
      ((walk.flatMap LeafAt.records).map RefcountRecord.lba).Pairwise (· < ·)

/-- A call that hands up no separator above a key it should bound. Gets and removals always are
such calls. -/
def SafeCall (ctx : RefcountCtx) : RefcountCall → Prop
  | .set lba refCount => 1 < refCount → ∀ used root, RefcountStored used ctx root →
      root.Safe RefcountRecord.lba (maxKeys ctx.vol.blockSize refcountKind.recordSize)
        (maxKeys ctx.vol.blockSize refcountKind.entrySize) ⟨lba, refCount⟩
  | .get _ => True

/-- Every call of a run is safe in the state it finds. -/
def SafeRun : List RefcountCall → RefcountCtx → Prop
  | [], _ => True
  | call :: calls, ctx =>
    SafeCall ctx call ∧ ∀ ctx', call.run ctx = .ok () ctx' → SafeRun calls ctx'

/-! ### One call -/

/-- The state between the calls of a run: an ordered tree with the counts of the map. -/
structure Between (counts : ℕ → ℕ) (ctx : RefcountCtx) (used : Set ℕ) (root : RefcountTree) :
    Prop where
  stored : RefcountStored used ctx root
  ordered : root.Ordered RefcountRecord.lba
  counts : ∀ lba, rootCount root lba = counts lba
  formatted : Formatted ctx.vol

/-- The count of the record of a block. -/
def heldCount (root : RefcountTree) (lba : ℕ) : Option ℕ :=
  (root.lookup RefcountRecord.lba lba).map RefcountRecord.refCount

/-- What a call does to the counts of the records. -/
def RefcountCall.record (held : ℕ → Option ℕ) : RefcountCall → ℕ → Option ℕ
  | .set lba refCount => Function.update held lba (if refCount ≤ 1 then none else some refCount)
  | .get _ => held

theorem RefcountCall.count_record (call : RefcountCall) (held : ℕ → Option ℕ) (lba : ℕ) :
    (call.record held lba).getD 1 = call.count (fun lba ↦ (held lba).getD 1) lba := by
  cases call with
  | get other => rfl
  | set other refCount =>
    rcases eq_or_ne lba other with rfl | hne
    · simp only [RefcountCall.record, RefcountCall.count, Function.update_self]
      split_ifs with hcount
      · exact (max_eq_right hcount).symm
      · exact (max_eq_left (not_le.mp hcount).le).symm
    · simp only [RefcountCall.record, RefcountCall.count, Function.update_of_ne hne]

variable {root : RefcountTree} {used : Set ℕ} {ctx : RefcountCtx}

theorem heldCount_remove (hordered : root.Ordered RefcountRecord.lba) (lba other : ℕ) :
    heldCount (root.remove RefcountRecord.lba lba) other =
      Function.update (heldCount root) lba none other := by
  rw [heldCount, Root.lookup_remove hordered]
  rcases eq_or_ne other lba with rfl | hne
  · simp
  · rw [if_neg hne.symm, Function.update_of_ne hne]
    rfl

theorem heldCount_put {leafMax indexMax : ℕ} (hleafMax : 1 ≤ leafMax) (hindexMax : 1 ≤ indexMax)
    (fresh : ℕ → Option ℕ) {lba refCount : ℕ} (hordered : root.Ordered RefcountRecord.lba)
    (hsafe : root.Safe RefcountRecord.lba leafMax indexMax ⟨lba, refCount⟩)
    (hdone : (root.put RefcountRecord.lba leafMax indexMax fresh ⟨lba, refCount⟩).2 = true)
    (other : ℕ) :
    heldCount (root.put RefcountRecord.lba leafMax indexMax fresh ⟨lba, refCount⟩).1 other =
      Function.update (heldCount root) lba (some refCount) other := by
  rw [heldCount, Root.lookup_put hleafMax hindexMax hordered hsafe hdone]
  rcases eq_or_ne other lba with rfl | hne
  · simp
  · rw [if_neg hne.symm, Function.update_of_ne hne]
    rfl

/-- A safe call changes the record of its block and no other. -/
theorem RefcountStored.call {ctx ctx' : RefcountCtx} (hstored : RefcountStored used ctx root)
    (hordered : root.Ordered RefcountRecord.lba) (hformatted : Formatted ctx.vol)
    {call : RefcountCall} (hsafe : SafeCall ctx call) (hrun : call.run ctx = .ok () ctx') :
    ∃ used' root', RefcountStored used' ctx' root' ∧ root'.Ordered RefcountRecord.lba ∧
      Formatted ctx'.vol ∧ ctx'.vol.totalBlocks = ctx.vol.totalBlocks ∧
      heldCount root' = call.record (heldCount root) := by
  cases call with
  | get lba =>
    obtain ⟨cache, hget, hcached⟩ := refcountGet_spec hstored hordered lba
    have hctx' : ctx' = { ctx with rcLeaf := cache } := by
      rw [RefcountCall.run, bind_ok hget] at hrun
      exact (EStateM.Result.ok.inj hrun).2.symm
    subst hctx'
    exact ⟨used, root, ⟨hstored.stored, hcached⟩, hordered, hformatted, rfl, rfl⟩
  | set lba refCount =>
    rw [RefcountCall.run] at hrun
    rcases Nat.lt_or_ge 1 refCount with hcount | hcount
    · have hdepth : root.height ≤ btreeMaxDepth := by
        by_contra hdeep
        rw [refcountSet_deep hstored (Nat.not_le.mp hdeep) lba hcount] at hrun
        cases hrun
      obtain ⟨fresh, used', ctx'', hsize, -, hends, -, -, -, hblocks⟩ :=
        refcountSet_insert hstored hformatted hdepth lba hcount
      have hmax := hformatted.maxKeys_refcount
      have hsafe' := hsafe hcount used root hstored
      have hordered' := Root.put_ordered (by omega) (by omega) fresh hordered hsafe'
      have hput := heldCount_put (by omega) (by omega) fresh hordered hsafe'
      generalize root.put RefcountRecord.lba _ _ fresh _ = result at hends hordered' hput
      obtain ⟨root', done⟩ := result
      cases done with
      | false =>
        rw [hends.1] at hrun
        cases hrun
      | true =>
        rw [hends.1] at hrun
        obtain rfl : ctx'' = ctx' := (EStateM.Result.ok.inj hrun).2
        refine ⟨used', root', hends.2, hordered', hformatted.of_eq hsize, hblocks,
          funext fun other ↦ ?_⟩
        rw [hput rfl, RefcountCall.record, if_neg (Nat.not_le.mpr hcount)]
    · obtain ⟨ctx'', hset, hstored', hsize, -, -, hblocks⟩ := refcountSet_remove hstored lba hcount
      rw [hset] at hrun
      obtain rfl : ctx'' = ctx' := (EStateM.Result.ok.inj hrun).2
      refine ⟨used, _, hstored', Root.remove_ordered hordered lba, hformatted.of_eq hsize, hblocks,
        funext fun other ↦ ?_⟩
      rw [heldCount_remove hordered, RefcountCall.record, if_pos hcount]

/-! ### Runs -/

variable {calls : List RefcountCall} {blockSize clumps : ℕ} {counts : ℕ → ℕ}

theorem Between.isMap (hbetween : Between counts ctx used root) : IsMap counts ctx := by
  obtain ⟨hstored, hordered, hcounts, -⟩ := hbetween
  refine ⟨fun lba ↦ ?_, ?_⟩
  · obtain ⟨cache, hget, -⟩ := refcountGet_spec hstored hordered lba
    exact ⟨_, hcounts lba ▸ hget⟩
  · obtain ⟨walk, hwalk, hchained, hleaves⟩ := walkTree_spec hstored.stored
    refine ⟨walk, hwalk, hchained, ?_⟩
    have hrecords : walk.flatMap LeafAt.records = root.records := by
      have hmap : walk.flatMap LeafAt.records = root.leaves.flatMap Prod.snd := by
        rw [← hleaves, List.flatMap_map]
      rw [hmap]
      cases root with
      | empty => rfl
      | node height t => exact leaves_records height t
    rw [hrecords]
    cases root with
    | empty => exact List.Pairwise.nil
    | node height t => exact Ordered.records_pairwise hordered

/-- A run of safe calls changes the records of its blocks one after the other. -/
theorem RefcountStored.run {ctx ctx' : RefcountCtx} (hstored : RefcountStored used ctx root)
    (hordered : root.Ordered RefcountRecord.lba) (hformatted : Formatted ctx.vol)
    (hsafe : SafeRun calls ctx) (hrun : runCalls calls ctx = .ok () ctx') :
    ∃ used' root', RefcountStored used' ctx' root' ∧ root'.Ordered RefcountRecord.lba ∧
      Formatted ctx'.vol ∧ ctx'.vol.totalBlocks = ctx.vol.totalBlocks ∧
      heldCount root' = calls.foldl RefcountCall.record (heldCount root) := by
  induction calls generalizing ctx used root with
  | nil =>
    obtain rfl : ctx = ctx' := (EStateM.Result.ok.inj hrun).2
    exact ⟨used, root, hstored, hordered, hformatted, rfl, rfl⟩
  | cons call calls ih =>
    rw [runCalls] at hrun
    cases hcall : call.run ctx with
    | error e ctx₁ =>
      rw [bind_error hcall] at hrun
      cases hrun
    | ok a ctx₁ =>
      rw [bind_ok hcall] at hrun
      obtain ⟨used₁, root₁, hstored₁, hordered₁, hformatted₁, hblocks₁, hheld₁⟩ :=
        hstored.call hordered hformatted hsafe.1 hcall
      rw [List.foldl_cons, ← hheld₁, ← hblocks₁]
      exact ih hstored₁ hordered₁ hformatted₁ (hsafe.2 ctx₁ hcall) hrun

theorem count_record_foldl (calls : List RefcountCall) (held : ℕ → Option ℕ) (lba : ℕ) :
    (calls.foldl RefcountCall.record held lba).getD 1 =
      calls.foldl RefcountCall.count (fun lba ↦ (held lba).getD 1) lba := by
  induction calls generalizing held with
  | nil => rfl
  | cons call calls ih =>
    rw [List.foldl_cons, List.foldl_cons, ih, funext (call.count_record held)]

/-- A run of safe calls keeps the table in step with the map. -/
theorem Between.run {ctx ctx' : RefcountCtx} (hbetween : Between counts ctx used root)
    (hsafe : SafeRun calls ctx) (hrun : runCalls calls ctx = .ok () ctx') :
    ∃ used' root', Between (calls.foldl RefcountCall.count counts) ctx' used' root' := by
  obtain ⟨hstored, hordered, hcounts, hformatted⟩ := hbetween
  obtain ⟨used', root', hstored', hordered', hformatted', -, hheld⟩ :=
    hstored.run hordered hformatted hsafe hrun
  refine ⟨used', root', hstored', hordered', fun lba ↦ ?_, hformatted'⟩
  calc rootCount root' lba = (calls.foldl RefcountCall.record (heldCount root) lba).getD 1 := by
        rw [← hheld]; rfl
    _ = calls.foldl RefcountCall.count (rootCount root) lba := count_record_foldl calls _ lba
    _ = calls.foldl RefcountCall.count counts lba := by rw [funext hcounts]

/-! ### Runs on a volume with room -/

/-- A refcount tree whose nodes are kept nowhere in particular. -/
abbrev RefcountShape := Root Unit ℕ RefcountRecord

/-- The shape of a stored tree. -/
def shape (root : RefcountTree) : RefcountShape := root.relabel fun _ ↦ ()

/-- Labels that are never refused. -/
def always : ℕ → Option Unit := fun _ ↦ some ()

/-- What a set does to the shape of the tree. -/
def setRecord (leafMax indexMax : ℕ) (root : RefcountShape) (r : RefcountRecord) : RefcountShape :=
  if r.refCount ≤ 1 then root.remove RefcountRecord.lba r.lba
  else (root.put RefcountRecord.lba leafMax indexMax always r).1

def setRecords (leafMax indexMax : ℕ) (root : RefcountShape) (rs : List RefcountRecord) :
    RefcountShape :=
  rs.foldl (setRecord leafMax indexMax) root

/-- The calls that set the records of a list, one after the other. -/
def setCalls (rs : List RefcountRecord) : List RefcountCall :=
  rs.map fun r ↦ .set r.lba r.refCount

theorem height_le_setRecord (leafMax indexMax : ℕ) (root : RefcountShape) (r : RefcountRecord) :
    root.height ≤ (setRecord leafMax indexMax root r).height := by
  unfold setRecord
  split_ifs
  · cases root <;> exact le_rfl
  · exact Root.height_le_put root

theorem height_le_setRecords (leafMax indexMax : ℕ) (root : RefcountShape)
    (rs : List RefcountRecord) : root.height ≤ (setRecords leafMax indexMax root rs).height := by
  induction rs generalizing root with
  | nil => exact le_rfl
  | cons r rs ih => exact (height_le_setRecord leafMax indexMax root r).trans (ih _)

theorem shape_height (root : RefcountTree) : (shape root).height = root.height := by
  cases root <;> rfl

/-- A volume with room for the insertions to come, and no cached leaf. -/
structure Ample (used : Set ℕ) (ctx : RefcountCtx) (root : RefcountTree) (blockSize clumps : ℕ) :
    Prop where
  stored : RefcountStored used ctx root
  uncached : ctx.rcLeaf = none
  formatted : Formatted ctx.vol
  block_size : ctx.vol.blockSize = blockSize
  spacious : Spacious ctx.toTreeCtx clumps

theorem Ample.set (hample : Ample used ctx root blockSize (clumps + (btreeMaxDepth + 2)))
    (hdepth : root.height ≤ btreeMaxDepth) (r : RefcountRecord) :
    ∃ used' ctx' root', refcountSet r.lba r.refCount ctx = .ok () ctx' ∧
      Ample used' ctx' root' blockSize clumps ∧
      shape root' = setRecord (maxKeys blockSize refcountKind.recordSize)
        (maxKeys blockSize refcountKind.entrySize) (shape root) r := by
  obtain ⟨hstored, -, hformatted, hsize, hspacious⟩ := hample
  rcases Nat.lt_or_ge 1 r.refCount with hcount | hcount
  · obtain ⟨fresh, used', ctx', hsize', huncached, hends, -, hnone, hspacious', -⟩ :=
      refcountSet_insert hstored hformatted hdepth r.lba hcount
    have hfresh : ∀ level ≤ root.height + 1, fresh level ≠ none := fun level hlevel h ↦
      hnone level hlevel h (hspacious.mono (by omega))
    have hsame : ∀ level ≤ (shape root).height + 1,
        always level = (fresh level).map fun _ ↦ () := by
      intro level hlevel
      obtain ⟨lba, hlba⟩ := Option.ne_none_iff_exists'.mp
        (hfresh level (by rwa [shape_height] at hlevel))
      rw [hlba]
      rfl
    subst hsize
    set leafMax := maxKeys ctx.vol.blockSize refcountKind.recordSize
    set indexMax := maxKeys ctx.vol.blockSize refcountKind.entrySize
    have hdone : (root.put RefcountRecord.lba leafMax indexMax fresh r).2 = true :=
      Root.put_done hfresh
    have hshape : (shape root).put RefcountRecord.lba leafMax indexMax always r =
        (shape (root.put RefcountRecord.lba leafMax indexMax fresh r).1, true) := by
      rw [Root.put_fresh_congr hsame, shape, Root.put_relabel, hdone]
      rfl
    have hset : setRecord leafMax indexMax (shape root) r =
        shape (root.put RefcountRecord.lba leafMax indexMax fresh r).1 := by
      rw [setRecord, if_neg (Nat.not_le.mpr hcount), hshape]
    rw [hset]
    generalize hresult : root.put RefcountRecord.lba leafMax indexMax fresh ⟨r.lba, r.refCount⟩ =
      result at hends
    have hput : root.put RefcountRecord.lba leafMax indexMax fresh r = result := hresult
    rw [hput] at hdone
    obtain ⟨root', done⟩ := result
    obtain rfl : done = true := hdone
    exact ⟨used', ctx', root', hends.1, ⟨hends.2, huncached, hformatted.of_eq hsize', hsize',
      hspacious' clumps (hspacious.mono (by omega))⟩, rfl⟩
  · obtain ⟨ctx', hset, hstored', hsize', huncached, hspacious', -⟩ :=
      refcountSet_remove hstored r.lba hcount
    refine ⟨used, ctx', _, hset, ⟨hstored', huncached, hformatted.of_eq hsize',
      hsize'.trans hsize, hspacious' _ (hspacious.mono (Nat.le_add_right _ _))⟩, ?_⟩
    rw [setRecord, if_pos hcount, shape, shape, Root.remove_relabel]

theorem Ample.run {blockSize : ℕ} (rs : List RefcountRecord) (clumps : ℕ)
    (hample : Ample used ctx root blockSize (clumps + rs.length * (btreeMaxDepth + 2)))
    (hdepth : (setRecords (maxKeys blockSize refcountKind.recordSize)
      (maxKeys blockSize refcountKind.entrySize) (shape root) rs).height ≤ btreeMaxDepth) :
    ∃ used' ctx' root', runCalls (setCalls rs) ctx = .ok () ctx' ∧
      Ample used' ctx' root' blockSize clumps ∧
      shape root' = setRecords (maxKeys blockSize refcountKind.recordSize)
        (maxKeys blockSize refcountKind.entrySize) (shape root) rs := by
  induction rs generalizing used ctx root with
  | nil => exact ⟨used, ctx, root, rfl, by simpa using hample, rfl⟩
  | cons r rs ih =>
    have hroot : root.height ≤ btreeMaxDepth := by
      rw [← shape_height]
      exact (height_le_setRecords _ _ _ _).trans hdepth
    rw [List.length_cons, Nat.succ_mul, ← Nat.add_assoc] at hample
    obtain ⟨used₁, ctx₁, root₁, hset, hample₁, hshape₁⟩ := hample.set hroot r
    rw [setRecords, List.foldl_cons, ← hshape₁] at hdepth
    obtain ⟨used₂, ctx₂, root₂, hrun, hample₂, hshape₂⟩ := ih hample₁ hdepth
    refine ⟨used₂, ctx₂, root₂, ?_, hample₂, ?_⟩
    · rw [setCalls, List.map_cons, runCalls]
      exact (bind_ok hset).trans hrun
    · rw [hshape₂, hshape₁]
      rfl

/-- On a volume with room a run of sets succeeds, and every get answers from the tree that the
sets build. -/
theorem Ample.count (hample : Ample used ctx root blockSize clumps) (lba : ℕ) :
    ∃ ctx', refcountGet lba ctx =
      .ok ((((shape root).lookup RefcountRecord.lba lba).map RefcountRecord.refCount).getD 1)
        ctx' := by
  obtain ⟨cache, hget, -⟩ := refcountGet_uncached hample.stored.stored.reads hample.uncached lba
  refine ⟨{ ctx with rcLeaf := cache }, ?_⟩
  rw [shape, Root.lookup_relabel]
  exact hget

/-! ### A fresh volume -/

/-- A volume of 256 GiB as it is made: the first blocks and the last one are taken. -/
def freshVolume : Volume where
  blockSize := 4096
  totalBytes := 4096 * 2 ^ 26
  btreeClumpSize := 64
  dedupClumpSize := 1024
  nextFreeLba := 16 + 2049
  bitmap bit := bit < 16 + 2049 || bit = 2 ^ 26 - 1
  disk _ := .bytes []

/-- The refcount table of a fresh volume. -/
def freshRefcounts : RefcountCtx where
  vol := freshVolume
  hdr := ⟨0, 0, 0, 4096, false⟩
  refcountLba := 13
  rcLeaf := none

theorem freshVolume_blocks : freshVolume.totalBlocks = 2 ^ 26 := by
  simp [Volume.totalBlocks, freshVolume]

theorem freshRefcounts_ample {clumps : ℕ} (hclumps : clumps ≤ 1000000) :
    Ample {lba | lba < 16 + 2049} freshRefcounts .empty 4096 clumps where
  stored :=
    { stored :=
        { sound :=
            { zero_mem := by simp
              used_lt := fun lba hlba ↦ by
                change lba < freshVolume.totalBlocks
                rw [freshVolume_blocks]
                exact lt_trans hlba (by norm_num)
              used_set := fun lba hlba ↦ by
                have hlt : lba < 16 + 2049 := hlba
                simp [freshRefcounts, freshVolume, hlt]
              node_size := by decide
              chain := ⟨[], rfl, List.nodup_nil, by simp⟩ }
          header := by simp [freshRefcounts]
          reserved := fun _ _ ↦ rfl
          root_lba := rfl
          on_disk := trivial }
      cached := caches_none _ }
  uncached := rfl
  formatted := ⟨by decide, by decide⟩
  block_size := rfl
  spacious := by
    have hnodes : clumpNodes freshRefcounts.toTreeCtx = 64 := by decide
    rw [Spacious, hnodes]
    refine ⟨fun i hi hlt ↦ ?_, ?_⟩
    · change 16 + 2049 ≤ i at hi
      change i < 16 + 2049 + clumps * 64 at hlt
      have h₁ : ¬i < 16 + 2049 := by omega
      have h₂ : i ≠ 2 ^ 26 - 1 := by omega
      simp only [freshRefcounts, freshVolume, h₁, h₂, decide_false, Bool.or_self]
    · change 16 + 2049 + clumps * 64 ≤ freshVolume.totalBlocks
      rw [freshVolume_blocks]
      omega

/-! ### The table is a map -/

/-- From an empty tree on, the table is the map that the sets describe, in every state that a run of
safe calls reaches. -/
theorem refcount_map {used : Set ℕ} {ctx ctx' : RefcountCtx}
    (hempty : RefcountStored used ctx .empty) (hformatted : Formatted ctx.vol)
    (calls : List RefcountCall) (hsafe : SafeRun calls ctx)
    (hrun : runCalls calls ctx = .ok () ctx') : IsMap (countsAfter calls) ctx' := by
  have hbetween : Between (fun _ ↦ 1) ctx used .empty := ⟨hempty, trivial, fun _ ↦ rfl, hformatted⟩
  obtain ⟨used', root', hafter⟩ := hbetween.run hsafe hrun
  exact hafter.isMap

/-- One set on a fresh volume. -/
theorem refcount_map_one : ∃ ctx, runCalls [.set 5 3] freshRefcounts = .ok () ctx ∧
    IsMap (countsAfter [.set 5 3]) ctx := by
  have hample : Ample {lba | lba < 16 + 2049} freshRefcounts .empty 4096
      (0 + [(⟨5, 3⟩ : RefcountRecord)].length * (btreeMaxDepth + 2)) :=
    freshRefcounts_ample (by decide)
  obtain ⟨used, ctx, root, hrun, -, -⟩ := hample.run [⟨5, 3⟩] 0 (by decide)
  refine ⟨ctx, hrun, refcount_map hample.stored hample.formatted [.set 5 3] ⟨?_, ?_⟩ hrun⟩
  · intro _ used' root' hstored
    cases root' with
    | empty => trivial
    | node height t =>
      have hreads := hstored.stored.reads
      exact absurd hreads.root.symm hreads.nonzero
  · exact fun ctx' _ ↦ trivial

end Obmafs3
