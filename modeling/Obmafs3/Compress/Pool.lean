import Mathlib.Data.Fintype.Option
import Obmafs3.Compress.WorkerRun

/-!
# The compression pool

`compress_pool_submit` and `pool_worker_main` of `block.c`. The submitter fills the record of the
batch with four plain assignments outside the mutex, announces the batch, works on it as the workers
do, and waits until all jobs are counted. A worker that has taken up a batch can be late: the batch
may be over, and the record in the middle of being filled again, when it fetches an index. A mutex
section is one step, but for the wait of the submitter, which is in the section while it loads
`done` and until it sleeps. Asynchronous jobs only keep a worker from its next step.
-/

set_option autoImplicit false

namespace Obmafs3.Compress

open Library.WorkSharing Relation

/-- Where the submitter is in `compress_pool_submit`. -/
inductive SubmitPc where
  /-- Before `batch->jobs = jobs` of the next batch. -/
  | ready
  /-- Before `batch->total = total`. -/
  | setTotal
  /-- Before `atomic_init(&batch->next, 0)`. -/
  | setNext
  /-- Before `atomic_init(&batch->done, 0)`. -/
  | setDone
  /-- Before the mutex section that announces the batch. -/
  | publish
  /-- In `compress_worker_run` or behind it. -/
  | working
  /-- Before the mutex is locked for the wait. -/
  | lock
  /-- Before `done` is loaded and compared. -/
  | load
  /-- Before `pthread_cond_wait` sleeps. -/
  | sleep
  | asleep
  /-- Before the batch is over and the mutex is unlocked. -/
  | unlock
  deriving DecidableEq

/-- The batches that are passed one after another, with numbers of jobs of type `int`, and whether
the ZSTD contexts of a worker, and those of the submitter for a batch, are created. -/
structure Setup (ι : Type) where
  size : ℕ → ℕ
  size_lt : ∀ b, size b < 2 ^ 31
  contexts : ι → Bool
  ownContexts : ℕ → Bool

/-- The pool; the submitter is the thread `none`. -/
structure Pool (ι : Type) where
  batch : Batch (Option ι)
  pc : SubmitPc
  active : Bool
  generation : ℕ
  myGen : ι → ℕ
  /-- The number of batches from which the submitter has returned. -/
  submitted : ℕ

inductive Action (ι : Type) where
  | submit
  | worker (w : ι)
  /-- `pthread_cond_wait` wakes up without a signal. -/
  | wake
  deriving DecidableEq

def Action.thread {ι : Type} : Action ι → Option (Option ι)
  | .submit => some none
  | .worker w => some (some w)
  | .wake => none

namespace Pool

variable {ι : Type}

def start : Pool ι :=
  ⟨⟨0, 0, 0, 0, fun _ ↦ .out, [], []⟩, .ready, false, 0, fun _ ↦ 0, 0⟩

/-- The submitter holds the mutex. -/
def Held (s : Pool ι) : Prop := s.pc = .load ∨ s.pc = .sleep ∨ s.pc = .unlock

instance decidableHeld (s : Pool ι) : Decidable s.Held := inferInstanceAs (Decidable (_ ∨ _))

variable [DecidableEq ι] (setup : Setup ι) (s : Pool ι)

/-- `pthread_cond_signal(&pool->batch_done)` in its mutex section. -/
def signal (t : Option ι) : Option (Pool ι) :=
  if s.Held then none
  else
    some
      { s with
        batch := s.batch.move t .out
        pc := if s.pc = .asleep then .lock else s.pc }

def threadStep (t : Option ι) : Option (Pool ι) :=
  if s.batch.place t = .signal then s.signal t
  else (s.batch.step t).map fun batch ↦ { s with batch := batch }

/-- The mutex section at the top of the loop of a worker. -/
def takeUp (w : ι) : Option (Pool ι) :=
  if s.Held ∨ s.generation = s.myGen w then none
  else
    some
      { s with
        myGen := Function.update s.myGen w s.generation
        batch :=
          if s.active = true ∧ setup.contexts w = true then s.batch.move (some w) (.fetch 0)
          else s.batch }

def workerStep (w : ι) : Option (Pool ι) :=
  if s.batch.place (some w) = .out then s.takeUp setup w else s.threadStep (some w)

def submitStep : Option (Pool ι) :=
  match s.pc with
  | .ready => some { s with batch := { s.batch with jobs := s.submitted }, pc := .setTotal }
  | .setTotal =>
    some { s with batch := { s.batch with total := setup.size s.submitted }, pc := .setNext }
  | .setNext => some { s with batch := { s.batch with next := 0 }, pc := .setDone }
  | .setDone => some { s with batch := { s.batch with done := 0 }, pc := .publish }
  | .publish =>
    some
      { s with
        active := true
        generation := (s.generation + 1) % 2 ^ 32
        batch :=
          if setup.ownContexts s.submitted = true then s.batch.move none (.fetch 0) else s.batch
        pc := .working }
  | .working =>
    if s.batch.place none = .out then some { s with pc := .lock } else s.threadStep none
  | .lock => some { s with pc := .load }
  | .load => some { s with pc := if IntLt s.batch.done s.batch.total then .sleep else .unlock }
  | .sleep => some { s with pc := .asleep }
  | .asleep => none
  | .unlock => some { s with active := false, submitted := s.submitted + 1, pc := .ready }

/-- A step of the submitter, of a worker, or of the condition variable. -/
def step : Action ι → Option (Pool ι)
  | .submit => s.submitStep setup
  | .worker w => s.workerStep setup w
  | .wake => if s.pc = .asleep then some { s with pc := .lock } else none

/-- All interleavings. -/
def Reachable (s : Pool ι) : Prop :=
  ReflTransGen (fun s s' : Pool ι ↦ ∃ a, s.step setup a = some s') start s

/-! ### What the pool is to do -/

/-- Every job is begun once at most; the jobs of the batches from which the submitter has returned
are stored and nobody is in them; and while the submitter sleeps somebody has something to report,
or, when all is reported, somebody is about to signal. -/
structure Exact : Prop where
  once : s.batch.started.Nodup
  inside : ∀ j ∈ s.batch.started, j.2 < setup.size j.1
  returned : ∀ b < s.submitted, ∀ i < setup.size b, (b, i) ∈ s.batch.stored
  settled : ∀ b < s.submitted, ∀ t n i, s.batch.place t ≠ .running n b i
  owed : s.pc = .asleep → s.batch.done < s.batch.total →
    ∃ w : ι, 0 < ((s.batch.place (some w)).hand s.batch.total).share
  signalled : s.pc = .asleep → s.batch.total ≤ s.batch.done →
    ∃ w : ι, (s.batch.place (some w)).Signals s.batch.total

end Pool

/-! ### Orderly runs -/

namespace Place

/-- Before the fetch of an index. -/
def Fetches : Place → Prop
  | .fetch _ => True
  | _ => False

/-- With an index below the total that is not yet compared. -/
def Holds (total : ℕ) : Place → Prop
  | .compare _ idx => idx < total
  | _ => False

/-- Before the report. -/
def Adds : Place → Prop
  | .add _ => True
  | _ => False

instance decidableFetches (p : Place) : Decidable p.Fetches := by
  cases p <;> unfold Fetches <;> infer_instance

instance decidableHolds (total : ℕ) (p : Place) : Decidable (p.Holds total) := by
  cases p <;> unfold Holds <;> infer_instance

instance decidableAdds (p : Place) : Decidable p.Adds := by
  cases p <;> unfold Adds <;> infer_instance

end Place

namespace Pool

variable {ι : Type} [DecidableEq ι] (setup : Setup ι)

/-- A step before which the record is as its threads take it: the counter has not passed the values
of an `int` when an index is fetched, no worker has an index below the new total before `next` is
cleared, none reports before `done` is cleared, and the submitter's contexts are created. -/
def Orderly (s : Pool ι) (a : Action ι) : Prop :=
  (∀ t, a.thread = some t → (s.batch.place t).Fetches → s.batch.next < 2 ^ 31) ∧
    (s.pc = .setNext → ∀ w : ι, ¬(s.batch.place (some w)).Holds s.batch.total) ∧
    (s.pc = .setDone → ∀ w : ι, a = .worker w → ¬(s.batch.place (some w)).Adds) ∧
    (s.pc = .publish → setup.ownContexts s.submitted = true)

instance decidableOrderly [Fintype ι] (s : Pool ι) (a : Action ι) :
    Decidable (Orderly setup s a) := by
  unfold Orderly
  infer_instance

/-- The states of runs with orderly steps. -/
def OrderlyReachable (s : Pool ι) : Prop :=
  ReflTransGen (fun s s' : Pool ι ↦ ∃ a, Orderly setup s a ∧ s.step setup a = some s') start s

/-! ### Between two batches and during one -/

/-- The record of the last batch, complete, while the next is being filled in. -/
structure Resting (s : Pool ι) : Prop where
  pc_eq : s.pc = .ready ∨ s.pc = .setTotal ∨ s.pc = .setNext
  idle : ∀ t, (s.batch.place t).hand 0 = .empty
  behind : s.pc ≠ .setNext → s.batch.total ≤ s.batch.next ∧
    ∀ t n idx, s.batch.place t = .compare n idx → s.batch.total ≤ idx
  own : s.batch.place none = .out
  small : ∀ t n idx, s.batch.place t = .compare n idx → idx < 2 ^ 31
  jobs_eq : s.pc ≠ .ready → s.batch.jobs = s.submitted
  total_eq : s.pc = .setNext → s.batch.total = setup.size s.submitted
  old : ∀ j ∈ s.batch.started, j.1 < s.submitted
  nodup : s.batch.started.Nodup

/-- The submitter is in its wait. -/
def Waits (s : Pool ι) : Prop :=
  s.pc = .lock ∨ s.pc = .load ∨ s.pc = .sleep ∨ s.pc = .asleep ∨ s.pc = .unlock

/-- The count of the present batch: `done`, once it is cleared. -/
def counted (s : Pool ι) : ℕ := if s.pc = .setDone then 0 else s.batch.done

/-- The work on a batch. -/
structure Busy [Fintype ι] (s : Pool ι) : Prop where
  pc_eq : s.pc = .setDone ∨ s.pc = .publish ∨ s.pc = .working ∨ s.Waits
  jobs_eq : s.batch.jobs = s.submitted
  total_eq : s.batch.total = setup.size s.submitted
  works : s.batch.Works s.counted
  old : ∀ j ∈ s.batch.started, j.1 ≤ s.submitted
  own : s.pc ≠ .working → s.batch.place none = .out
  ended : s.pc = .working ∨ s.Waits → (s.batch.place none).Ended s.batch.total s.batch.next
  signalled : s.pc = .sleep ∨ s.pc = .asleep → s.batch.total ≤ s.batch.done →
    ∃ w : ι, (s.batch.place (some w)).Signals s.batch.total
  full : s.pc = .unlock → s.batch.total ≤ s.batch.done

/-- What holds at any time. -/
structure Inv [Fintype ι] (s : Pool ι) : Prop where
  inside : ∀ j ∈ s.batch.started, j.2 < setup.size j.1
  returned : ∀ b < s.submitted, ∀ i < setup.size b, (b, i) ∈ s.batch.stored
  phase : Resting setup s ∨ Busy setup s

variable {setup} {s s' : Pool ι} {t : Option ι} {w : ι} {p : Place} {c' : Batch (Option ι)}

/-! ### The steps of a thread between two batches -/

/-- A move of a worker that leaves its hands empty. -/
theorem Resting.move (h : Resting setup s) (hplace : c'.place = (s.batch.move (some w) p).place)
    (hjobs : c'.jobs = s.batch.jobs) (htotal : c'.total = s.batch.total)
    (hstarted : c'.started = s.batch.started) (hnext : s.batch.next ≤ c'.next)
    (hidle : p.hand 0 = .empty)
    (hcompare : ∀ n idx, p = .compare n idx → idx = s.batch.next ∧ s.batch.next < 2 ^ 31) :
    Resting setup { s with batch := c' } where
  pc_eq := h.pc_eq
  idle t := by
    change (c'.place t).hand 0 = .empty
    rw [hplace]
    rcases eq_or_ne t (some w) with rfl | hne
    · rwa [Batch.place_move_self]
    · rw [Batch.place_move_ne hne]
      exact h.idle t
  behind hpc := by
    have hbehind := h.behind hpc
    change c'.total ≤ c'.next ∧ ∀ t n idx, c'.place t = .compare n idx → c'.total ≤ idx
    rw [htotal, hplace]
    refine ⟨hbehind.1.trans hnext, fun t n idx ht ↦ ?_⟩
    rcases Batch.place_move ht with ⟨-, hp⟩ | ⟨-, ht⟩
    · exact (hcompare n idx hp).1 ▸ hbehind.1
    · exact hbehind.2 t n idx ht
  own := by
    change c'.place none = .out
    rw [hplace, Batch.place_move_ne (Option.some_ne_none w).symm]
    exact h.own
  small t n idx ht := by
    change c'.place t = .compare n idx at ht
    rw [hplace] at ht
    rcases Batch.place_move ht with ⟨-, hp⟩ | ⟨-, ht⟩
    · exact (hcompare n idx hp).1 ▸ (hcompare n idx hp).2
    · exact h.small t n idx ht
  jobs_eq hpc := hjobs.trans (h.jobs_eq hpc)
  total_eq hpc := htotal.trans (h.total_eq hpc)
  old := hstarted ▸ h.old
  nodup := hstarted ▸ h.nodup

omit [DecidableEq ι] in
/-- No thread has anything in hand when the next step is orderly. -/
theorem Resting.hand_eq_empty {a : Action ι} (h : Resting setup s) (horderly : Orderly setup s a)
    (t : Option ι) : (s.batch.place t).hand s.batch.total = .empty := by
  refine Place.hand_eq_empty.mpr ⟨h.idle t, fun n idx ht ↦ ?_⟩
  by_cases hpc : s.pc = .setNext
  · cases t with
    | none =>
      rw [h.own] at ht
      cases ht
    | some w =>
      have hholds := horderly.2.1 hpc w
      rw [ht] at hholds
      exact Nat.not_lt.mp hholds
  · exact (h.behind hpc).2 t n idx ht

theorem Resting.step (h : Resting setup s) (horderly : Orderly setup s (.worker w))
    (hstep : s.batch.step (some w) = some c') :
    Resting setup { s with batch := c' } ∧ c'.started = s.batch.started := by
  have hempty := h.hand_eq_empty horderly (some w)
  have hidle := h.idle (some w)
  have hfetch := horderly.1 (some w) rfl
  rw [Batch.step] at hstep
  cases hp : s.batch.place (some w) with
  | out | signal =>
    rw [hp] at hstep
    cases hstep
  | fetch n =>
    rw [hp] at hstep hidle hfetch
    cases hstep
    have hnext : s.batch.next < 2 ^ 31 := hfetch trivial
    have hmod : s.batch.next ≤ (s.batch.next + 1) % 2 ^ 32 :=
      (Nat.le_succ s.batch.next).trans (Nat.mod_eq_of_lt (by omega)).ge
    refine ⟨h.move rfl rfl rfl rfl hmod hidle ?_, rfl⟩
    rintro m idx ⟨⟩
    exact ⟨rfl, hnext⟩
  | compare n idx =>
    rw [hp] at hstep hempty hidle
    cases hstep
    have hle := (Place.hand_eq_empty.mp hempty).2 n idx rfl
    have hless := intLt_iff (b := s.batch.total) (h.small (some w) n idx hp)
    obtain rfl : n = 0 := congrArg Hand.finished hidle
    rw [if_neg (mt hless.mp hle.not_gt), if_neg (Nat.lt_irrefl 0)]
    exact ⟨h.move rfl rfl rfl rfl le_rfl rfl (by rintro _ _ ⟨⟩), rfl⟩
  | claim n idx | running n b idx =>
    rw [hp] at hidle
    cases hidle
  | add n =>
    rw [hp] at hstep
    cases hstep
    exact ⟨h.move rfl rfl rfl rfl le_rfl rfl (by rintro _ _ ⟨⟩), rfl⟩
  | check totalDone =>
    rw [hp] at hstep
    cases hstep
    split_ifs
    · exact ⟨h.move rfl rfl rfl rfl le_rfl rfl (by rintro _ _ ⟨⟩), rfl⟩
    · exact ⟨h.move rfl rfl rfl rfl le_rfl rfl (by rintro _ _ ⟨⟩), rfl⟩

/-! ### The steps of a thread during a batch -/

section Busy

variable [Fintype ι]

namespace Busy

omit [DecidableEq ι] in
theorem total_lt (h : Busy setup s) : s.batch.total < 2 ^ 31 := by
  rw [h.total_eq]
  exact setup.size_lt s.submitted

/-- The count of a batch after a step. -/
theorem counted_step (h : Busy setup s) (hadd : s.pc = .setDone → ¬(s.batch.place t).Adds)
    (hstep : s.batch.step t = some c') :
    counted { s with batch := c' } = s.counted + (s.batch.place t).reports ∧
      (s.pc = .setDone ∨ s.batch.done ≤ c'.done) := by
  unfold counted
  by_cases hpc : s.pc = .setDone
  · have hnone : ∀ n, s.batch.place t ≠ .add n := fun n hn ↦ by
      have hnot := hadd hpc
      rw [hn] at hnot
      exact hnot trivial
    rw [if_pos hpc, if_pos hpc, Place.reports_eq_zero hnone]
    exact ⟨rfl, Or.inl hpc⟩
  · rw [if_neg hpc, if_neg hpc]
    rcases Batch.done_step hstep with ⟨n, hn, hdone, -⟩ | ⟨hnone, hdone⟩
    · have hle := h.works.sharing.counted_add_share_le t
      have htotal := h.total_lt
      rw [counted, if_neg hpc, hn, Place.hand, Hand.share_none] at hle
      rw [Nat.mod_eq_of_lt (by omega)] at hdone
      rw [hn]
      exact ⟨hdone, Or.inr (hdone ▸ Nat.le_add_right s.batch.done n)⟩
    · rw [Place.reports_eq_zero hnone]
      exact ⟨hdone, Or.inr hdone.ge⟩

/-- After a step somebody is still about to signal a batch that is complete. -/
theorem signalled_step (h : Busy setup s) (hpc : s.pc = .sleep ∨ s.pc = .asleep)
    (hstep : s.batch.step (some w) = some c') (hcounted : counted { s with batch := c' } ≤ c'.total)
    (hfull : c'.total ≤ c'.done) : ∃ v : ι, (c'.place (some v)).Signals c'.total := by
  obtain ⟨-, htotal, hother⟩ := Batch.step_frame hstep
  rcases Batch.done_step hstep with ⟨n, -, -, hcheck⟩ | ⟨-, hdone⟩
  · have hnot : s.pc ≠ .setDone := by
      rintro heq
      rcases hpc with hpc | hpc <;> cases heq.symm.trans hpc
    have hlt := h.total_lt
    rw [counted, if_neg hnot] at hcounted
    refine ⟨w, ?_⟩
    rw [hcheck]
    exact ⟨hfull, hcounted.trans_lt (htotal ▸ hlt)⟩
  · rw [hdone, htotal] at hfull
    obtain ⟨v, hv⟩ := h.signalled hpc hfull
    refine ⟨v, ?_⟩
    rcases eq_or_ne v w with rfl | hne
    · exact Batch.signals_step hstep hv
    · rw [hother (some v) (Option.some_injective ι |>.ne hne), htotal]
      exact hv

theorem step (h : Busy setup s) (hown : t = none → s.pc = .working)
    (hfetch : ∀ n, s.batch.place t = .fetch n → s.batch.next < 2 ^ 31)
    (hadd : s.pc = .setDone → ¬(s.batch.place t).Adds) (hstep : s.batch.step t = some c') :
    Busy setup { s with batch := c' } := by
  obtain ⟨hjobs, htotal, hother⟩ := Batch.step_frame hstep
  obtain ⟨hcounted, hdone⟩ := h.counted_step hadd hstep
  have hworks : c'.Works (counted { s with batch := c' }) := hcounted ▸ h.works.step hstep hfetch
  have hle : counted { s with batch := c' } ≤ c'.total := by
    have hcount := hworks.sharing.count_eq
    omega
  exact
    { pc_eq := h.pc_eq
      jobs_eq := hjobs.trans h.jobs_eq
      total_eq := htotal.trans h.total_eq
      works := hworks
      old := fun j hj ↦ by
        rcases Batch.started_step hstep hj with hj | ⟨n, -, hj⟩
        · exact h.old j hj
        · exact (hj.trans h.jobs_eq).le
      own := fun hpc ↦ by
        have hne : none ≠ t := fun heq ↦ hpc (hown heq.symm)
        exact (hother none hne).trans (h.own hpc)
      ended := fun hpc ↦ by
        rcases eq_or_ne none t with rfl | hne
        · exact Batch.ended_step hstep hfetch (h.works.small none) (h.ended hpc)
        · change (c'.place none).Ended c'.total c'.next
          rw [hother none hne, htotal]
          exact (h.ended hpc).mono (Batch.next_le_step hstep hfetch)
      signalled := fun hpc hfull ↦ by
        cases t with
        | none =>
          have hworking := hown rfl
          rcases hpc with hpc | hpc <;> cases hworking.symm.trans hpc
        | some w => exact h.signalled_step hpc hstep hle hfull
      full := fun hpc ↦ by
        have hnot : s.pc ≠ .setDone := fun heq ↦ by cases heq.symm.trans hpc
        exact (htotal.le.trans (h.full hpc)).trans (hdone.resolve_left hnot) }

omit [DecidableEq ι] in
/-- The submitter goes on in its wait, or to it. -/
theorem goto (h : Busy setup s) {pc : SubmitPc}
    (hfrom : (s.pc = .working ∧ s.batch.place none = .out) ∨ s.Waits)
    (hto : Waits { s with pc := pc })
    (hsignalled : pc = .sleep ∨ pc = .asleep → s.batch.total ≤ s.batch.done →
      ∃ w : ι, (s.batch.place (some w)).Signals s.batch.total)
    (hfull : pc = .unlock → s.batch.total ≤ s.batch.done) : Busy setup { s with pc := pc } := by
  have hcounted : counted { s with pc := pc } = s.counted := by
    have hafter : pc ≠ .setDone := by
      rintro rfl
      simp [Waits] at hto
    have hbefore : s.pc ≠ .setDone := by
      intro heq
      rw [Waits, heq] at hfrom
      simp at hfrom
    rw [counted, counted, if_neg hbefore, if_neg hafter]
  have hend : s.pc = .working ∨ s.Waits := hfrom.imp_left And.left
  exact
    { pc_eq := Or.inr (Or.inr (Or.inr hto))
      jobs_eq := h.jobs_eq
      total_eq := h.total_eq
      works := hcounted ▸ h.works
      old := h.old
      own := fun _ ↦ by
        rcases hfrom with hfrom | hfrom
        · exact hfrom.2
        · refine h.own fun heq ↦ ?_
          rw [Waits, heq] at hfrom
          simp at hfrom
      ended := fun _ ↦ h.ended hend
      signalled := hsignalled
      full := hfull }

/-- A worker takes up the batch. -/
theorem takeUp (h : Busy setup s) (hout : s.batch.place (some w) = .out) (gen : ι → ℕ) :
    Busy setup { s with myGen := gen, batch := s.batch.move (some w) (.fetch 0) } := by
  have hnone : (s.batch.move (some w) (.fetch 0)).place none = s.batch.place none :=
    Batch.place_move_ne (Option.some_ne_none w).symm
  exact
    { pc_eq := h.pc_eq
      jobs_eq := h.jobs_eq
      total_eq := h.total_eq
      works := h.works.silent (by rw [hout]; rfl) nofun nofun
      old := h.old
      own := fun hpc ↦ hnone.trans (h.own hpc)
      ended := fun hpc ↦ by
        change ((s.batch.move (some w) (.fetch 0)).place none).Ended _ _
        rw [hnone]
        exact h.ended hpc
      signalled := fun hpc hfull ↦ by
        obtain ⟨v, hv⟩ := h.signalled hpc hfull
        have hne : v ≠ w := by
          rintro rfl
          rw [hout] at hv
          exact hv
        refine ⟨v, ?_⟩
        change ((s.batch.move (some w) (.fetch 0)).place (some v)).Signals _
        rw [Batch.place_move_ne (Option.some_injective ι |>.ne hne)]
        exact hv
      full := h.full }

variable (h : Busy setup s) (hplace : s.batch.place t = .signal) (hown : t = none → s.pc = .working)
include h hplace hown

theorem moveOut (hpc : ¬(s.pc = .sleep ∨ s.pc = .asleep)) :
    Busy setup { s with batch := s.batch.move t .out } where
  pc_eq := h.pc_eq
  jobs_eq := h.jobs_eq
  total_eq := h.total_eq
  works := h.works.silent (by rw [hplace]; rfl) nofun nofun
  old := h.old
  own hworking := by
    have hne : none ≠ t := fun heq ↦ hworking (hown heq.symm)
    exact (Batch.place_move_ne hne).trans (h.own hworking)
  ended hend := by
    have hended := h.ended hend
    change ((s.batch.move t .out).place none).Ended s.batch.total s.batch.next
    rcases eq_or_ne none t with rfl | hne
    · rw [hplace] at hended
      rw [Batch.place_move_self]
      exact hended
    · rwa [Batch.place_move_ne hne]
  signalled hsleeps := absurd hsleeps hpc
  full := h.full

/-- A thread signals that the batch is complete, and wakes the submitter if it sleeps. -/
theorem signal (hsignal : s.signal t = some s') : Busy setup s' := by
  rw [Pool.signal] at hsignal
  split_ifs at hsignal with hheld hasleep
  · cases hsignal
    have hwoken : Busy setup { s with pc := .lock } := by
      refine h.goto (Or.inr ?_) (Or.inl rfl) (by rintro (heq | heq) <;> cases heq) nofun
      exact Or.inr (Or.inr (Or.inr (Or.inl hasleep)))
    refine hwoken.moveOut hplace (fun heq ↦ ?_) (by rintro (heq | heq) <;> cases heq)
    cases (hown heq).symm.trans hasleep
  · cases hsignal
    refine h.moveOut hplace hown ?_
    rintro (hsleep | heq)
    · exact hheld (Or.inr (Or.inl hsleep))
    · exact hasleep heq

end Busy

/-! ### The steps of the submitter -/

omit [DecidableEq ι] in
/-- The counter is cleared: with empty hands the work on the next batch starts. -/
theorem Resting.clearNext (h : Resting setup s) (horderly : Orderly setup s .submit)
    (hpc : s.pc = .setNext) :
    Busy setup { s with batch := { s.batch with next := 0 }, pc := .setDone } := by
  have hjobs : s.batch.jobs = s.submitted := h.jobs_eq (by rw [hpc]; exact nofun)
  have hnone : s.batch.indices s.batch.started = ∅ := by
    refine Set.eq_empty_of_forall_notMem fun i hi ↦ ?_
    have hold := h.old (s.batch.jobs, i) hi
    exact absurd hold (hjobs ▸ Nat.lt_irrefl s.submitted)
  have hstart : Sharing s.batch.total 0 0 (fun t ↦ (s.batch.place t).hand s.batch.total) ∅
      (s.batch.indices s.batch.stored) := .start (h.hand_eq_empty horderly)
  rw [← hnone] at hstart
  exact
    { pc_eq := Or.inl rfl
      jobs_eq := hjobs
      total_eq := h.total_eq hpc
      works := by
        refine ⟨hstart, fun t n b idx ht ↦ ?_, h.small, h.nodup⟩
        have hidle := h.idle t
        change s.batch.place t = .running n b idx at ht
        rw [ht] at hidle
        cases hidle
      old := fun j hj ↦ (h.old j hj).le
      own := fun _ ↦ h.own
      ended := fun hend ↦ by simp [Waits] at hend
      signalled := fun heq ↦ by simp at heq
      full := nofun }

omit [DecidableEq ι] in
/-- The batch is over. -/
theorem Busy.unlock (h : Busy setup s) (hpc : s.pc = .unlock) :
    (∀ i < setup.size s.submitted, (s.submitted, i) ∈ s.batch.stored) ∧
      Resting setup { s with active := false, submitted := s.submitted + 1, pc := .ready } := by
  have hcounted : s.counted = s.batch.done := by
    rw [counted, hpc]
    rfl
  obtain ⟨hnext, hstored, hshare⟩ := (hcounted ▸ h.works.sharing).complete (h.full hpc)
  have hhand (t : Option ι) := Place.hand_eq_empty.mp (Place.hand_of_share (hshare t))
  refine ⟨fun i hi ↦ ?_, ?_⟩
  · rw [← h.jobs_eq]
    exact hstored i (h.total_eq ▸ hi)
  · exact
      { pc_eq := Or.inl rfl
        idle := fun t ↦ (hhand t).1
        behind := fun _ ↦ ⟨hnext, fun t ↦ (hhand t).2⟩
        own := h.own (by rw [hpc]; exact nofun)
        small := h.works.small
        jobs_eq := fun heq ↦ absurd rfl heq
        total_eq := nofun
        old := fun j hj ↦ Nat.lt_succ_of_le (h.old j hj)
        nodup := h.works.nodup }

/-- The steps with which the next batch is filled in. -/
theorem Resting.submit (h : Resting setup s) (horderly : Orderly setup s .submit)
    (hstep : s.submitStep setup = some s') :
    (Resting setup s' ∨ Busy setup s') ∧ s'.batch.started = s.batch.started ∧
      s'.batch.stored = s.batch.stored ∧ s'.submitted = s.submitted := by
  rw [submitStep] at hstep
  rcases h.pc_eq with hpc | hpc | hpc
  all_goals
    rw [hpc] at hstep
    cases hstep
    refine ⟨?_, rfl, rfl, rfl⟩
  · have hnot : s.pc ≠ .setNext := by rw [hpc]; exact nofun
    exact Or.inl ⟨Or.inr (Or.inl rfl), h.idle, fun _ ↦ h.behind hnot, h.own, h.small, fun _ ↦ rfl,
      nofun, h.old, h.nodup⟩
  · have hjobs := h.jobs_eq (by rw [hpc]; exact nofun)
    exact Or.inl ⟨Or.inr (Or.inr rfl), h.idle, fun heq ↦ absurd rfl heq, h.own, h.small,
      fun _ ↦ hjobs, fun _ ↦ rfl, h.old, h.nodup⟩
  · exact Or.inr (h.clearNext horderly hpc)

/-- The submitter announces the batch. -/
theorem Busy.publish (h : Busy setup s) (hpc : s.pc = .publish) (gen : ℕ) : Busy setup { s with
      active := true
      generation := gen
      batch := s.batch.move none (.fetch 0)
      pc := .working } := by
  have hown : s.batch.place none = .out := h.own (by rw [hpc]; exact nofun)
  have hcounted : s.counted = s.batch.done := by
    rw [counted, hpc]
    rfl
  have hworks : s.batch.Works s.batch.done := hcounted ▸ h.works
  exact
    { pc_eq := Or.inr (Or.inr (Or.inl rfl))
      jobs_eq := h.jobs_eq
      total_eq := h.total_eq
      works := hworks.silent (by rw [hown]; rfl) nofun nofun
      old := h.old
      own := fun hne ↦ absurd rfl hne
      ended := fun _ ↦ by
        change ((s.batch.move none (.fetch 0)).place none).Ended _ _
        rw [Batch.place_move_self]
        trivial
      signalled := fun heq ↦ by simp at heq
      full := nofun }

section

variable (h : Inv setup s)
include h

/-- What a step of a thread leaves of what holds at any time. -/
theorem Inv.thread (hbusy : Busy setup s) (hown : t = none → s.pc = .working)
    (hfetch : (s.batch.place t).Fetches → s.batch.next < 2 ^ 31)
    (hadd : s.pc = .setDone → ¬(s.batch.place t).Adds) (hstep : s.threadStep t = some s') :
    Inv setup s' := by
  rw [threadStep] at hstep
  split_ifs at hstep with hplace
  · have hbusy' := hbusy.signal hplace hown hstep
    rw [Pool.signal] at hstep
    split_ifs at hstep
    all_goals
      cases hstep
      exact ⟨h.inside, h.returned, Or.inr hbusy'⟩
  · obtain ⟨c', hc', rfl⟩ := Option.map_eq_some_iff.mp hstep
    have hfetch' : ∀ n, s.batch.place t = .fetch n → s.batch.next < 2 ^ 31 := fun n hn ↦
      hfetch (by rw [hn]; trivial)
    refine ⟨fun j hj ↦ ?_, fun b hb i hi ↦ ?_, Or.inr (hbusy.step hown hfetch' hadd hc')⟩
    · rcases Batch.started_step hc' hj with hj | ⟨n, hclaim, hjobs⟩
      · exact h.inside j hj
      · have hhand : ((s.batch.place t).hand s.batch.total).index = some j.2 := by
          rw [hclaim]
          rfl
        rw [hjobs, hbusy.jobs_eq, ← hbusy.total_eq]
        exact (hbusy.works.sharing.index_lt t j.2 hhand).2
    · exact Batch.stored_step hc' (h.returned b hb i hi)

theorem Inv.submit (horderly : Orderly setup s .submit) (hstep : s.submitStep setup = some s') :
    Inv setup s' := by
  rcases h.phase with hrest | hbusy
  · obtain ⟨hphase, hstarted, hstored, hsubmitted⟩ := hrest.submit horderly hstep
    exact ⟨hstarted ▸ h.inside, by rw [hstored, hsubmitted]; exact h.returned, hphase⟩
  · have hdone : s.pc ≠ .setDone → s.batch.done ≤ s.batch.total := fun hpc ↦ by
      have hcount := hbusy.works.sharing.count_eq
      rw [counted, if_neg hpc] at hcount
      omega
    rw [submitStep] at hstep
    cases hpc : s.pc with
    | ready | setTotal | setNext =>
      have heq := hbusy.pc_eq
      simp [Waits, hpc] at heq
    | setDone =>
      rw [hpc] at hstep
      cases hstep
      have hcounted : s.counted = 0 := by
        rw [counted, hpc]
        rfl
      have hworks : s.batch.Works 0 := hcounted ▸ hbusy.works
      refine ⟨h.inside, h.returned, Or.inr ?_⟩
      exact
        { pc_eq := Or.inr (Or.inl rfl)
          jobs_eq := hbusy.jobs_eq
          total_eq := hbusy.total_eq
          works := ⟨hworks.sharing, hworks.present, hworks.small, hworks.nodup⟩
          old := hbusy.old
          own := fun _ ↦ hbusy.own (by rw [hpc]; exact nofun)
          ended := fun hend ↦ by simp [Waits] at hend
          signalled := fun heq ↦ by simp at heq
          full := nofun }
    | publish =>
      rw [hpc] at hstep
      simp only [horderly.2.2.2 hpc] at hstep
      cases hstep
      exact ⟨h.inside, h.returned, Or.inr (hbusy.publish hpc _)⟩
    | working =>
      rw [hpc] at hstep
      simp only at hstep
      split_ifs at hstep with hout
      · cases hstep
        have hlock : Busy setup { s with pc := .lock } :=
          hbusy.goto (Or.inl ⟨hpc, hout⟩) (Or.inl rfl) (fun heq ↦ by simp at heq) nofun
        exact ⟨h.inside, h.returned, Or.inr hlock⟩
      · exact h.thread hbusy (fun _ ↦ hpc) (horderly.1 none rfl)
          (fun heq ↦ by simp [hpc] at heq) hstep
    | lock =>
      rw [hpc] at hstep
      cases hstep
      have hload : Busy setup { s with pc := .load } :=
        hbusy.goto (Or.inr (Or.inl hpc)) (Or.inr (Or.inl rfl)) (fun heq ↦ by simp at heq) nofun
      exact ⟨h.inside, h.returned, Or.inr hload⟩
    | load =>
      have hless : IntLt s.batch.done s.batch.total ↔ s.batch.done < s.batch.total :=
        intLt_iff ((hdone (by rw [hpc]; exact nofun)).trans_lt hbusy.total_lt)
      have hfrom : s.Waits := Or.inr (Or.inl hpc)
      rw [hpc] at hstep
      cases hstep
      refine ⟨h.inside, h.returned, Or.inr (hbusy.goto (Or.inr hfrom) ?_ ?_ ?_)⟩
      · by_cases hlt : IntLt s.batch.done s.batch.total
        · rw [if_pos hlt]
          exact Or.inr (Or.inr (Or.inl rfl))
        · rw [if_neg hlt]
          exact Or.inr (Or.inr (Or.inr (Or.inr rfl)))
      · split_ifs with hlt
        · exact fun _ hfull ↦ absurd (hless.mp hlt) hfull.not_gt
        · exact fun heq ↦ by simp at heq
      · split_ifs with hlt
        · exact nofun
        · exact fun _ ↦ Nat.not_lt.mp (mt hless.mpr hlt)
    | sleep =>
      have hfrom : s.Waits := Or.inr (Or.inr (Or.inl hpc))
      rw [hpc] at hstep
      cases hstep
      refine ⟨h.inside, h.returned, Or.inr (hbusy.goto (Or.inr hfrom) ?_ ?_ nofun)⟩
      · exact Or.inr (Or.inr (Or.inr (Or.inl rfl)))
      · exact fun _ ↦ hbusy.signalled (Or.inl hpc)
    | asleep =>
      rw [hpc] at hstep
      cases hstep
    | unlock =>
      rw [hpc] at hstep
      cases hstep
      obtain ⟨hstored, hrest⟩ := hbusy.unlock hpc
      refine ⟨h.inside, fun b hb i hi ↦ ?_, Or.inl hrest⟩
      rcases Nat.lt_succ_iff_lt_or_eq.mp hb with hb | rfl
      · exact h.returned b hb i hi
      · exact hstored i hi

/-! ### Runs -/

theorem Inv.takeUp (hout : s.batch.place (some w) = .out) (hstep : s.takeUp setup w = some s') :
    Inv setup s' := by
  rw [Pool.takeUp] at hstep
  split_ifs at hstep with hheld htakes
  all_goals cases hstep
  · refine ⟨h.inside, h.returned, h.phase.imp (fun hrest ↦ ?_) fun hbusy ↦ hbusy.takeUp hout _⟩
    have hmove : Resting setup { s with batch := s.batch.move (some w) (.fetch 0) } :=
      hrest.move rfl rfl rfl rfl le_rfl rfl nofun
    exact ⟨hmove.pc_eq, hmove.idle, hmove.behind, hmove.own, hmove.small, hmove.jobs_eq,
      hmove.total_eq, hmove.old, hmove.nodup⟩
  · refine ⟨h.inside, h.returned, h.phase.imp (fun hrest ↦ ?_) fun hbusy ↦ ?_⟩
    · exact ⟨hrest.pc_eq, hrest.idle, hrest.behind, hrest.own, hrest.small, hrest.jobs_eq,
        hrest.total_eq, hrest.old, hrest.nodup⟩
    · exact ⟨hbusy.pc_eq, hbusy.jobs_eq, hbusy.total_eq, hbusy.works, hbusy.old, hbusy.own,
        hbusy.ended, hbusy.signalled, hbusy.full⟩

theorem Inv.worker (horderly : Orderly setup s (.worker w)) (hstep : s.workerStep setup w = some s') :
    Inv setup s' := by
  rw [workerStep] at hstep
  split_ifs at hstep with hout
  · exact h.takeUp hout hstep
  · rcases h.phase with hrest | hbusy
    · rw [threadStep] at hstep
      split_ifs at hstep with hplace
      · have hasleep : s.pc ≠ .asleep := fun heq ↦ by
          have hpc := hrest.pc_eq
          simp [heq] at hpc
        rw [Pool.signal, if_neg hasleep] at hstep
        split_ifs at hstep
        cases hstep
        exact ⟨h.inside, h.returned, Or.inl (hrest.move rfl rfl rfl rfl le_rfl rfl nofun)⟩
      · obtain ⟨c', hc', rfl⟩ := Option.map_eq_some_iff.mp hstep
        obtain ⟨hrest', hstarted⟩ := hrest.step horderly hc'
        refine ⟨hstarted ▸ h.inside, fun b hb i hi ↦ ?_, Or.inl hrest'⟩
        exact Batch.stored_step hc' (h.returned b hb i hi)
    · exact h.thread hbusy (fun heq ↦ absurd heq (Option.some_ne_none w)) (horderly.1 (some w) rfl)
        (fun hpc ↦ horderly.2.2.1 hpc w rfl) hstep

/-- An orderly step keeps what holds at any time. -/
theorem Inv.step {a : Action ι} (horderly : Orderly setup s a) (hstep : s.step setup a = some s') :
    Inv setup s' := by
  cases a with
  | submit => exact h.submit horderly hstep
  | worker w => exact h.worker horderly hstep
  | wake =>
    rw [Pool.step] at hstep
    split_ifs at hstep with hpc
    cases hstep
    rcases h.phase with hrest | hbusy
    · have heq := hrest.pc_eq
      simp [hpc] at heq
    · refine ⟨h.inside, h.returned, Or.inr (hbusy.goto (Or.inr ?_) (Or.inl rfl) ?_ nofun)⟩
      · exact Or.inr (Or.inr (Or.inr (Or.inl hpc)))
      · exact fun heq ↦ by simp at heq

end

omit [DecidableEq ι] in
theorem inv_start : Inv setup (start : Pool ι) where
  inside _ hj := absurd hj List.not_mem_nil
  returned b hb := absurd hb (Nat.not_lt_zero b)
  phase := by
    refine Or.inl ⟨Or.inl rfl, fun _ ↦ rfl, fun _ ↦ ⟨le_rfl, fun _ _ _ ↦ nofun⟩, rfl,
      fun _ _ _ ↦ nofun, fun heq ↦ absurd rfl heq, nofun, ?_, List.nodup_nil⟩
    exact fun _ hj ↦ absurd hj List.not_mem_nil

omit [DecidableEq ι] in
/-- What is to hold follows from what holds at any time. -/
theorem Inv.exact (h : Inv setup s) : Exact setup s := by
  rcases h.phase with hrest | hbusy
  · have hasleep : s.pc ≠ .asleep := fun heq ↦ by
      have hpc := hrest.pc_eq
      simp [heq] at hpc
    refine ⟨hrest.nodup, h.inside, h.returned, fun b _ t n i ht ↦ ?_, fun heq ↦ absurd heq hasleep,
      fun heq ↦ absurd heq hasleep⟩
    have hidle := hrest.idle t
    rw [ht] at hidle
    cases hidle
  · refine ⟨hbusy.works.nodup, h.inside, h.returned, fun b hb t n i ht ↦ ?_, fun hpc hlt ↦ ?_,
      fun hpc ↦ hbusy.signalled (Or.inr hpc)⟩
    · have heq := (hbusy.works.present t n b i ht).trans hbusy.jobs_eq
      exact absurd hb (heq ▸ Nat.lt_irrefl s.submitted)
    · have hout : s.batch.place none = .out := hbusy.own (by rw [hpc]; exact nofun)
      have hended := hbusy.ended (Or.inr (Or.inr (Or.inr (Or.inr (Or.inl hpc)))))
      rw [hout] at hended
      have hcounted : s.counted = s.batch.done := by
        rw [counted, hpc]
        rfl
      obtain ⟨t, ht⟩ := (hcounted ▸ hbusy.works.sharing).exists_share hended hlt
      cases t with
      | none =>
        rw [hout] at ht
        exact absurd ht (Nat.lt_irrefl 0)
      | some w => exact ⟨w, ht⟩

end Busy

/-- In every run with orderly steps the pool does what it is to do. -/
theorem exact_of_orderly [Fintype ι] (setup : Setup ι) (s : Pool ι)
    (h : OrderlyReachable setup s) : Exact setup s := by
  have hinv : Inv setup s := by
    induction h with
    | refl => exact inv_start
    | tail _ hstep ih =>
      obtain ⟨a, horderly, hstep⟩ := hstep
      exact ih.step horderly hstep
  exact hinv.exact

/-! ### A late worker -/

/-- The state after a list of actions. -/
def after (setup : Setup ι) : List (Action ι) → Pool ι → Option (Pool ι)
  | [], s => some s
  | a :: actions, s => (s.step setup a).bind (after setup actions)

/-- The state after a list of orderly actions. -/
def orderlyAfter [Fintype ι] (setup : Setup ι) : List (Action ι) → Pool ι → Option (Pool ι)
  | [], s => some s
  | a :: actions, s =>
    if Orderly setup s a then (s.step setup a).bind (orderlyAfter setup actions) else none

variable {actions : List (Action ι)}

theorem reaches_of_after (h : after setup actions s = some s') :
    ReflTransGen (fun s s' : Pool ι ↦ ∃ a, s.step setup a = some s') s s' := by
  induction actions generalizing s with
  | nil =>
    cases h
    exact .refl
  | cons a actions ih =>
    obtain ⟨mid, hmid, hrest⟩ := Option.bind_eq_some_iff.mp h
    exact .head ⟨a, hmid⟩ (ih hrest)

theorem orderly_of_after [Fintype ι] (h : orderlyAfter setup actions s = some s') :
    ReflTransGen (fun s s' : Pool ι ↦ ∃ a, Orderly setup s a ∧ s.step setup a = some s') s s' := by
  induction actions generalizing s with
  | nil =>
    cases h
    exact .refl
  | cons a actions ih =>
    rw [orderlyAfter] at h
    split_ifs at h with horderly
    obtain ⟨mid, hmid, hrest⟩ := Option.bind_eq_some_iff.mp h
    exact .head ⟨a, horderly, hmid⟩ (ih hrest)

/-- A batch of one job and batches of three, and one worker. -/
def oneWorker : Setup Unit where
  size b := if b = 0 then 1 else 3
  size_lt b := by split_ifs <;> decide
  contexts _ := true
  ownContexts _ := true

/-- The submitter does the first batch, which the worker takes up and does nothing of. -/
def firstBatch : List (Action Unit) :=
  List.replicate 5 .submit ++ [.worker ()] ++ List.replicate 13 .submit

/-- The worker fetches an index after the total of the second batch is set and before the counter
is cleared. -/
def lateWorker : List (Action Unit) :=
  firstBatch ++ List.replicate 2 .submit ++ List.replicate 3 (.worker ()) ++
    List.replicate 14 .submit

/-- A run with orderly steps to the end of the first batch. -/
theorem exact_of_firstBatch :
    ∃ s, OrderlyReachable oneWorker s ∧ s.submitted = 1 ∧ Exact oneWorker s := by
  have hsome : (orderlyAfter oneWorker firstBatch start).map Pool.submitted = some 1 := by
    decide +kernel
  obtain ⟨s, hs, hsubmitted⟩ := Option.map_eq_some_iff.mp hsome
  exact ⟨s, orderly_of_after hs, hsubmitted, exact_of_orderly oneWorker s (orderly_of_after hs)⟩

/-- The last job of the second batch is begun by the worker and by the submitter. -/
theorem lateWorker_not_exact : ¬∀ s, Reachable oneWorker s → Exact oneWorker s := by
  intro h
  have hstarted : (after oneWorker lateWorker start).map (fun s ↦ s.batch.started) =
      some [(1, 2), (1, 1), (1, 0), (1, 2), (0, 0)] := by
    decide +kernel
  obtain ⟨s, hs, hjobs⟩ := Option.map_eq_some_iff.mp hstarted
  have honce := (h s (reaches_of_after hs)).once
  rw [hjobs] at honce
  revert honce
  decide

end Pool

end Obmafs3.Compress
