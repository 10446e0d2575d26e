import Obmafs3.Library.WorkSharing

/-!
# The workers of a compression batch

`compress_worker_run` of `block.c` and the two steps behind it, in which a thread adds what it has
processed to `done` and signals when that completes the batch. The record of the batch is the pool's
own and is used again for each batch; a thread reads its fields one by one. `Batch.step` is one step
of a thread: an atomic operation, a read of a field, or the beginning or the end of a job.
-/

set_option autoImplicit false

namespace Obmafs3.Compress

open Library.WorkSharing

/-- Where a thread is in `compress_worker_run` or behind it. -/
inductive Place where
  /-- Not in the function. -/
  | out
  /-- Before `atomic_fetch_add(&batch->next, 1)`. -/
  | fetch (processed : ℕ)
  /-- Before the comparison of the index with `batch->total`. -/
  | compare (processed idx : ℕ)
  /-- Before `batch->jobs` is read. -/
  | claim (processed idx : ℕ)
  /-- In the job at an index of the array of a batch. -/
  | running (processed batch idx : ℕ)
  /-- Before `atomic_fetch_add(&batch->done, n)`. -/
  | add (processed : ℕ)
  /-- Before the comparison of `total_done` with `batch->total`. -/
  | check (totalDone : ℕ)
  /-- Before the mutex section that signals `batch_done`. -/
  | signal
  deriving DecidableEq

/-- `a < b` of two values of type `int`, the second not negative. -/
def IntLt (a b : ℕ) : Prop := 2 ^ 31 ≤ a ∨ a < b

instance decidableIntLt (a b : ℕ) : Decidable (IntLt a b) := inferInstanceAs (Decidable (_ ∨ _))

theorem intLt_iff {a b : ℕ} (ha : a < 2 ^ 31) : IntLt a b ↔ a < b := by
  rw [IntLt, or_iff_right ha.not_ge]

/-- `struct compress_batch`, with the places of the threads and the jobs that were begun and
finished. Arrays of jobs are known by the number of their batch. -/
structure Batch (τ : Type) where
  jobs : ℕ
  total : ℕ
  next : ℕ
  done : ℕ
  place : τ → Place
  started : List (ℕ × ℕ)
  stored : List (ℕ × ℕ)

namespace Batch

variable {τ : Type} [DecidableEq τ] (c : Batch τ) (t : τ)

def move (p : Place) : Batch τ := { c with place := Function.update c.place t p }

/-- A step of a thread in the loop or behind it; the signal is left to the pool. -/
def step : Option (Batch τ) :=
  match c.place t with
  | .out => none
  | .fetch n =>
    some { c.move t (.compare n c.next) with next := (c.next + 1) % 2 ^ 32 }
  | .compare n idx =>
    some (c.move t (if IntLt idx c.total then .claim n idx else if 0 < n then .add n else .out))
  | .claim n idx =>
    some { c.move t (.running n c.jobs idx) with started := (c.jobs, idx) :: c.started }
  | .running n b idx =>
    some { c.move t (.fetch (n + 1)) with stored := (b, idx) :: c.stored }
  | .add n =>
    some { c.move t (.check ((c.done + n) % 2 ^ 32)) with done := (c.done + n) % 2 ^ 32 }
  | .check totalDone => some (c.move t (if IntLt totalDone c.total then .out else .signal))
  | .signal => none

end Batch

/-! ### What a thread has in hand -/

/-- What a thread has of a batch with a total: an index counts once it is below the total. -/
def Place.hand (total : ℕ) : Place → Hand
  | .fetch n => ⟨n, none, false⟩
  | .compare n idx => ⟨n, if idx < total then some idx else none, false⟩
  | .claim n idx => ⟨n, some idx, false⟩
  | .running n _ idx => ⟨n, some idx, true⟩
  | .add n => ⟨n, none, false⟩
  | _ => .empty

variable {p : Place}

variable {total : ℕ}

theorem Place.hand_eq_empty : p.hand total = .empty ↔
    p.hand 0 = .empty ∧ ∀ n idx, p = .compare n idx → total ≤ idx := by
  cases p with
  | compare n idx =>
    rw [hand, hand, if_neg (Nat.not_lt_zero idx)]
    by_cases hlt : idx < total
    · rw [if_pos hlt]
      exact ⟨nofun, fun h ↦ absurd (h.2 n idx rfl) hlt.not_ge⟩
    · rw [if_neg hlt]
      refine ⟨fun h ↦ ⟨h, ?_⟩, fun h ↦ h.1⟩
      rintro _ _ ⟨⟩
      exact Nat.not_lt.mp hlt
  | _ => exact ⟨fun h ↦ ⟨h, nofun⟩, fun h ↦ h.1⟩

/-- A thread with nothing to report has nothing in hand. -/
theorem Place.hand_of_share (h : (p.hand total).share = 0) : p.hand total = .empty := by
  cases p with
  | fetch n | add n =>
    obtain rfl : n = 0 := h
    rfl
  | compare n idx =>
    rw [hand] at h ⊢
    split_ifs at h ⊢
    · cases h
    · obtain rfl : n = 0 := h
      rfl
  | claim n idx => cases h
  | running n b idx => cases h
  | _ => rfl

/-- The thread has found no more indices. -/
def Place.Ended (total next : ℕ) : Place → Prop
  | .fetch _ | .claim _ _ | .running _ _ _ => True
  | .compare _ idx => idx < next
  | _ => total ≤ next

theorem Place.Ended.mono {total next next' : ℕ} (h : p.Ended total next) (hnext : next ≤ next') :
    p.Ended total next' := by
  cases p with
  | fetch n | claim n idx | running n b idx => trivial
  | compare n idx => exact Nat.lt_of_lt_of_le h hnext
  | _ => exact Nat.le_trans h hnext

/-- The thread is about to signal that the batch is complete. -/
def Place.Signals (total : ℕ) : Place → Prop
  | .check totalDone => total ≤ totalDone ∧ totalDone < 2 ^ 31
  | .signal => True
  | _ => False

/-- What a step of a thread at a place adds to the count. -/
def Place.reports : Place → ℕ
  | .add n => n
  | _ => 0

theorem Place.reports_eq_zero (h : ∀ n, p ≠ .add n) : p.reports = 0 := by
  cases p with
  | add n => exact absurd rfl (h n)
  | _ => rfl

namespace Batch

variable {τ : Type} {c c' : Batch τ} {t x : τ} {p q : Place} {n idx b counted : ℕ}

/-- The jobs of the present array in a list. -/
def indices (c : Batch τ) (pairs : List (ℕ × ℕ)) : Set ℕ := {i | (c.jobs, i) ∈ pairs}

theorem indices_cons {pairs : List (ℕ × ℕ)} :
    c.indices ((c.jobs, idx) :: pairs) = insert idx (c.indices pairs) := by
  ext i
  rw [Set.mem_insert_iff]
  refine List.mem_cons.trans (or_congr ?_ Iff.rfl)
  rw [Prod.mk.injEq, and_iff_right rfl]

/-- The work on the present batch, of which some was counted. -/
structure Works [Fintype τ] (c : Batch τ) (counted : ℕ) : Prop where
  sharing : Sharing c.total c.next counted (fun t ↦ (c.place t).hand c.total)
    (c.indices c.started) (c.indices c.stored)
  present : ∀ t n b idx, c.place t = .running n b idx → b = c.jobs
  small : ∀ t n idx, c.place t = .compare n idx → idx < 2 ^ 31
  nodup : c.started.Nodup

variable [DecidableEq τ]

@[simp]
theorem place_move_self : (c.move t p).place t = p := by
  unfold move
  exact Function.update_self t p c.place

@[simp]
theorem place_move_ne (hne : x ≠ t) : (c.move t p).place x = c.place x := by
  unfold move
  exact Function.update_of_ne hne p c.place

theorem place_move (h : (c.move t p).place x = q) : (x = t ∧ p = q) ∨ (x ≠ t ∧ c.place x = q) := by
  rcases eq_or_ne x t with rfl | hne
  · exact Or.inl ⟨rfl, place_move_self.symm.trans h⟩
  · exact Or.inr ⟨hne, (place_move_ne hne).symm.trans h⟩

theorem hand_move (total : ℕ) : (fun x ↦ ((c.move t p).place x).hand total) =
    Function.update (fun x ↦ (c.place x).hand total) t (p.hand total) :=
  funext fun x ↦ Function.apply_update (fun _ q ↦ Place.hand total q) c.place t p x

/-- A step that leaves what the thread has in hand. -/
theorem hand_move_eq {total : ℕ} (hsame : p.hand total = (c.place t).hand total) :
    (fun x ↦ ((c.move t p).place x).hand total) = fun x ↦ (c.place x).hand total := by
  rw [hand_move, hsame, Function.update_eq_self]

/-- A step is one of its thread. -/
theorem step_frame (hstep : c.step t = some c') :
    c'.jobs = c.jobs ∧ c'.total = c.total ∧ ∀ x ≠ t, c'.place x = c.place x := by
  have hkept (p : Place) : ∀ x ≠ t, (c.move t p).place x = c.place x := fun x hx ↦
    place_move_ne hx
  rw [step] at hstep
  split at hstep
  all_goals cases hstep
  all_goals exact ⟨rfl, rfl, hkept _⟩

variable {j : ℕ × ℕ}

section

variable (hstep : c.step t = some c')
include hstep

theorem started_step (hj : j ∈ c'.started) :
    j ∈ c.started ∨ ∃ n, c.place t = .claim n j.2 ∧ j.1 = c.jobs := by
  rw [step] at hstep
  split at hstep
  all_goals cases hstep
  case h_4 n idx hp =>
    rcases List.mem_cons.mp hj with rfl | hj
    · exact Or.inr ⟨n, hp, rfl⟩
    · exact Or.inl hj
  all_goals exact Or.inl hj

theorem stored_step (hj : j ∈ c.stored) : j ∈ c'.stored := by
  rw [step] at hstep
  split at hstep
  all_goals cases hstep
  case h_5 => exact List.mem_cons_of_mem _ hj
  all_goals exact hj

theorem next_le_step (hfetch : ∀ n, c.place t = .fetch n → c.next < 2 ^ 31) : c.next ≤ c'.next := by
  rw [step] at hstep
  split at hstep
  all_goals cases hstep
  case h_2 n hp =>
    have hnext := hfetch n hp
    exact (Nat.le_succ c.next).trans (Nat.mod_eq_of_lt (by omega)).ge
  all_goals exact le_rfl

/-- The count in the record changes only where a thread reports. -/
theorem done_step :
    (∃ n, c.place t = .add n ∧ c'.done = (c.done + n) % 2 ^ 32 ∧ c'.place t = .check c'.done) ∨
      ((∀ n, c.place t ≠ .add n) ∧ c'.done = c.done) := by
  rw [step] at hstep
  split at hstep
  all_goals cases hstep
  case h_6 n hp => exact Or.inl ⟨n, hp, rfl, place_move_self⟩
  all_goals
    next hp =>
      refine Or.inr ⟨fun n hn ↦ ?_, rfl⟩
      rw [hp] at hn
      cases hn

/-- A thread that is about to signal goes on to the signal. -/
theorem signals_step (h : (c.place t).Signals c.total) : (c'.place t).Signals c'.total := by
  rw [step] at hstep
  cases hp : c.place t with
  | check totalDone =>
    rw [hp] at hstep h
    cases hstep
    change Place.Signals c.total _
    rw [place_move_self, if_neg (mt (intLt_iff h.2).mp h.1.not_gt)]
    trivial
  | signal =>
    rw [hp] at hstep
    cases hstep
  | _ =>
    rw [hp] at h
    cases h

theorem ended_step (hfetch : ∀ n, c.place t = .fetch n → c.next < 2 ^ 31)
    (hsmall : ∀ n idx, c.place t = .compare n idx → idx < 2 ^ 31)
    (h : (c.place t).Ended c.total c.next) : (c'.place t).Ended c'.total c'.next := by
  have hmono := next_le_step hstep hfetch
  rw [step] at hstep
  cases hp : c.place t with
  | out =>
    rw [hp] at hstep
    cases hstep
  | fetch n =>
    rw [hp] at hstep
    cases hstep
    have hnext := hfetch n hp
    have hmod : (c.next + 1) % 2 ^ 32 = c.next + 1 := Nat.mod_eq_of_lt (by omega)
    change Place.Ended c.total ((c.next + 1) % 2 ^ 32) ((c.move t (.compare n c.next)).place t)
    rw [place_move_self, hmod]
    exact Nat.lt_succ_self c.next
  | compare n idx =>
    rw [hp] at hstep h
    cases hstep
    change Place.Ended c.total c.next _
    rw [place_move_self]
    have hless := intLt_iff (b := c.total) (hsmall n idx hp)
    split_ifs with hlt hpos
    · trivial
    all_goals
      have hle : c.total ≤ idx := Nat.not_lt.mp (mt hless.mpr hlt)
      exact hle.trans (Nat.le_of_lt h)
  | claim n idx =>
    rw [hp] at hstep
    cases hstep
    change Place.Ended c.total c.next _
    rw [place_move_self]
    trivial
  | running n b idx =>
    rw [hp] at hstep
    cases hstep
    change Place.Ended c.total c.next _
    rw [place_move_self]
    trivial
  | add n =>
    rw [hp] at hstep h
    cases hstep
    change Place.Ended c.total c.next _
    rw [place_move_self]
    exact h
  | check totalDone =>
    rw [hp] at hstep h
    cases hstep
    change Place.Ended c.total c.next _
    rw [place_move_self]
    split_ifs <;> exact h
  | signal =>
    rw [hp] at hstep
    cases hstep

end

namespace Works

variable [Fintype τ]

variable (h : c.Works counted)
include h

theorem present_move (hp : ∀ n b idx, p = .running n b idx → b = c.jobs) :
    ∀ x n b idx, (c.move t p).place x = .running n b idx → b = c.jobs := by
  intro x n b idx hx
  rcases place_move hx with ⟨-, heq⟩ | ⟨-, hx⟩
  · exact hp n b idx heq
  · exact h.present x n b idx hx

theorem small_move (hp : ∀ n idx, p = .compare n idx → idx < 2 ^ 31) :
    ∀ x n idx, (c.move t p).place x = .compare n idx → idx < 2 ^ 31 := by
  intro x n idx hx
  rcases place_move hx with ⟨-, heq⟩ | ⟨-, hx⟩
  · exact hp n idx heq
  · exact h.small x n idx hx

/-- A move that leaves what the thread has in hand. -/
theorem silent (hsame : p.hand c.total = (c.place t).hand c.total)
    (hrunning : ∀ n b idx, p ≠ .running n b idx) (hcompare : ∀ n idx, p ≠ .compare n idx) :
    (c.move t p).Works counted where
  sharing := by
    have hhand := hand_move_eq hsame
    exact hhand ▸ h.sharing
  present := h.present_move fun n b idx hp ↦ absurd hp (hrunning n b idx)
  small := h.small_move fun n idx hp ↦ absurd hp (hcompare n idx)
  nodup := h.nodup

/-- The work goes on with each step. -/
theorem step (hstep : c.step t = some c') (hfetch : ∀ n, c.place t = .fetch n → c.next < 2 ^ 31) :
    c'.Works (counted + (c.place t).reports) := by
  rw [Batch.step] at hstep
  cases hp : c.place t with
  | out =>
    rw [hp] at hstep
    cases hstep
  | fetch n =>
    rw [hp] at hstep
    cases hstep
    have hnext := hfetch n hp
    have hhand : (fun x ↦ (c.place x).hand c.total) t = ⟨n, none, false⟩ := congrArg _ hp
    have hmod : (c.next + 1) % 2 ^ 32 = c.next + 1 := Nat.mod_eq_of_lt (by omega)
    have htake := h.sharing.take hhand
    rw [← hmod] at htake
    refine ⟨?_, h.present_move nofun, h.small_move ?_, h.nodup⟩
    · exact (hand_move (c := c) (t := t) c.total).symm ▸ htake
    · rintro m idx ⟨⟩
      exact hnext
  | compare n idx =>
    rw [hp] at hstep
    cases hstep
    have hless := intLt_iff (b := c.total) (h.small t n idx hp)
    refine h.silent ?_ ?_ ?_
    · rw [hp]
      by_cases hlt : idx < c.total
      · rw [if_pos (hless.mpr hlt), Place.hand, Place.hand, if_pos hlt]
      · rw [if_neg (mt hless.mp hlt), Place.hand.eq_2, if_neg hlt]
        split_ifs with hpos
        · rfl
        · rw [Nat.eq_zero_of_not_pos hpos]
          rfl
    · split_ifs <;> exact fun _ _ _ ↦ nofun
    · split_ifs <;> exact fun _ _ ↦ nofun
  | claim n idx =>
    rw [hp] at hstep
    cases hstep
    have hhand : (fun x ↦ (c.place x).hand c.total) t = ⟨n, some idx, false⟩ := congrArg _ hp
    obtain ⟨hfresh, hbegin⟩ := h.sharing.begin hhand
    rw [← indices_cons] at hbegin
    refine ⟨?_, h.present_move ?_, h.small_move nofun, List.nodup_cons.mpr ⟨hfresh, h.nodup⟩⟩
    · exact (hand_move (c := c) (t := t) c.total).symm ▸ hbegin
    · rintro m b j ⟨⟩
      rfl
  | running n b idx =>
    rw [hp] at hstep
    cases hstep
    obtain rfl := h.present t n b idx hp
    have hhand : (fun x ↦ (c.place x).hand c.total) t = ⟨n, some idx, true⟩ := congrArg _ hp
    have hfinish := h.sharing.finish hhand
    rw [← indices_cons] at hfinish
    refine ⟨?_, h.present_move nofun, h.small_move nofun, h.nodup⟩
    exact (hand_move (c := c) (t := t) c.total).symm ▸ hfinish
  | add n =>
    rw [hp] at hstep
    cases hstep
    have hhand : (fun x ↦ (c.place x).hand c.total) t = ⟨n, none, false⟩ := congrArg _ hp
    have hreport := h.sharing.report hhand
    refine ⟨?_, h.present_move nofun, h.small_move nofun, h.nodup⟩
    exact (hand_move (c := c) (t := t) c.total).symm ▸ hreport
  | check totalDone =>
    rw [hp] at hstep
    cases hstep
    refine h.silent ?_ ?_ ?_
    · rw [hp]
      split_ifs <;> rfl
    · split_ifs <;> exact fun _ _ _ ↦ nofun
    · split_ifs <;> exact fun _ _ ↦ nofun
  | signal =>
    rw [hp] at hstep
    cases hstep

end Works

end Batch

end Obmafs3.Compress
