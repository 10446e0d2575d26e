import Obmafs3.Library.SearchTreeScan

/-!
# Sweeps

A sweep goes down to a leaf like a scan, takes records out of the leaves from there on, and ends
after the first leaf that has a record past what it looks for. `sweepFrom_eq` says that in an
ordered tree it takes out what `strip` takes out of all leaves, and `strip_ordered` and
`records_strip` what that leaves.
-/

set_option autoImplicit false
set_option linter.unusedSectionVars false

namespace Obmafs3.Library.SearchTree

open Search

section Definitions

variable {α κ ρ : Type}

/-- Run through a list and change what comes before the end of the sweep. The flag says whether the
sweep goes on. -/
def sweepList {β : Type} (step : Bool → β → β × Bool) : Bool → List β → List β × Bool
  | going, [] => ([], going)
  | going, x :: xs =>
    let out := step going x
    let rest := sweepList step out.2 xs
    (out.1 :: rest.1, rest.2)

/-- Sweep the subtree of an entry. -/
def sweepEntry {height : ℕ} (step : Bool → Tree α κ ρ height → Tree α κ ρ height × Bool)
    (going : Bool) (e : κ × Tree α κ ρ height) : (κ × Tree α κ ρ height) × Bool :=
  ((e.1, (step going e.2).1), (step going e.2).2)

/-- Sweep all leaves below a node. -/
def sweepAll (gone past : ρ → Bool) : (height : ℕ) → Bool → Tree α κ ρ height →
    Tree α κ ρ height × Bool
  | 0, going, (a, rs) =>
    if going then ((a, rs.filter fun r ↦ !gone r), !rs.any past) else ((a, rs), false)
  | height + 1, going, (a, es) =>
    let out := sweepList (sweepEntry (sweepAll gone past height)) going es
    ((a, out.1), out.2)

/-- Sweep the leaves below a node from one on, where `pick` chooses the slots on the way. -/
def sweepFrom (gone past : ρ → Bool) (pick : List κ → ℕ) : (height : ℕ) → Tree α κ ρ height →
    Tree α κ ρ height × Bool
  | 0, t => sweepAll gone past 0 true t
  | height + 1, (a, es) =>
    match es.drop (pick (es.map Prod.fst)) with
    | [] => ((a, es), true)
    | e :: after =>
      let first := sweepFrom gone past pick height e.2
      let rest := sweepList (sweepEntry (sweepAll gone past height)) first.2 after
      ((a, es.take (pick (es.map Prod.fst)) ++ (e.1, first.1) :: rest.1), rest.2)

/-- Take records out of all leaves. -/
def strip (gone : ρ → Bool) : (height : ℕ) → Tree α κ ρ height → Tree α κ ρ height
  | 0, (a, rs) => (a, rs.filter fun r ↦ !gone r)
  | height + 1, (a, es) => (a, es.map fun e ↦ (e.1, strip gone height e.2))

end Definitions

variable {α κ ρ : Type} [LinearOrder κ] {key : ρ → κ} {gone past : ρ → Bool}

/-! ### What is left -/

variable {height : ℕ} {t : Tree α κ ρ height} {going : Bool}

theorem strip_all {P : κ → Prop} {Q : ρ → Prop} (ht : All P Q height t) :
    All P Q height (strip gone height t) := by
  induction height with
  | zero =>
    obtain ⟨a, rs⟩ := t
    exact fun q hq ↦ ht q (List.mem_of_mem_filter hq)
  | succ height ih =>
    obtain ⟨a, es⟩ := t
    intro e he
    obtain ⟨f, hf, rfl⟩ := List.mem_map.mp he
    exact ⟨(ht f hf).1, ih (ht f hf).2⟩

theorem records_strip (t : Tree α κ ρ height) :
    records height (strip gone height t) = (records height t).filter fun r ↦ !gone r := by
  induction height with
  | zero => rfl
  | succ height ih =>
    obtain ⟨a, es⟩ := t
    rw [strip, records_index, records_index, List.flatMap_map, List.filter_flatMap]
    exact List.flatMap_congr fun e _ ↦ ih e.2

theorem strip_ordered (hordered : Ordered key height t) :
    Ordered key height (strip gone height t) := by
  induction height with
  | zero =>
    obtain ⟨a, rs⟩ := t
    exact List.Pairwise.sublist (List.filter_sublist.map key) hordered
  | succ height ih =>
    obtain ⟨a, es⟩ := t
    obtain ⟨hne, hchildren, hapart⟩ := hordered
    refine ⟨by simpa using hne, List.forall_mem_map.mpr fun e he ↦ ih (hchildren e he),
      List.pairwise_map.mpr (hapart.imp fun {e f} h ↦ ⟨h.1, ?_, ?_⟩)⟩
    · exact forall_span_iff.mpr (strip_all (forall_span_iff.mp h.2.1))
    · exact forall_records_iff.mpr (strip_all (forall_records_iff.mp h.2.2))

theorem strip_eq_self (hnone : ∀ r ∈ records height t, gone r = false) :
    strip gone height t = t := by
  induction height with
  | zero =>
    obtain ⟨a, rs⟩ := t
    exact Prod.ext rfl (List.filter_eq_self.mpr fun r hr ↦ by simp [hnone r hr])
  | succ height ih =>
    obtain ⟨a, es⟩ := t
    have hsame : es.map (fun e ↦ (e.1, strip gone height e.2)) = es := by
      refine (List.map_congr_left fun e he ↦ ?_).trans es.map_id
      exact Prod.ext rfl (ih fun r hr ↦ hnone r (List.mem_flatMap.mpr ⟨e, he, hr⟩))
    rw [strip, hsame]

/-! ### What a sweep does -/

/-- A record past what is looked for has nothing to take out behind it. -/
def Closed (gone past : ρ → Bool) (rs : List ρ) : Prop :=
  rs.Pairwise fun r q ↦ past r = true → gone q = false

/-- A part of a sweep did its work, and it ended only if it had to. -/
structure Swept {β : Type} (gone past : ρ → Bool) (going : Bool) (rs : List ρ) (out : β × Bool)
    (expected : β) : Prop where
  result : out.1 = expected
  ended : out.2 = false → going = false ∨ ∃ r ∈ rs, past r = true

theorem Swept.entry {rs : List ρ} {t t' : Tree α κ ρ height}
    {step : Bool → Tree α κ ρ height → Tree α κ ρ height × Bool}
    (hswept : Swept gone past going rs (step going t) t') (k : κ) :
    Swept gone past going rs (sweepEntry step going (k, t)) (k, t') :=
  ⟨Prod.ext rfl hswept.result, hswept.ended⟩

theorem sweepList_swept {β : Type} {step : Bool → β → β × Bool} {change : β → β}
    {recordsOf : β → List ρ} {xs : List β}
    (hstep : ∀ x ∈ xs, ∀ going, Closed gone past (recordsOf x) →
      (going = false → ∀ r ∈ recordsOf x, gone r = false) →
      Swept gone past going (recordsOf x) (step going x) (change x))
    (hclosed : Closed gone past (xs.flatMap recordsOf))
    (hgoing : going = false → ∀ r ∈ xs.flatMap recordsOf, gone r = false) :
    Swept gone past going (xs.flatMap recordsOf) (sweepList step going xs) (xs.map change) := by
  induction xs generalizing going with
  | nil => exact ⟨rfl, Or.inl⟩
  | cons x xs ih =>
    rw [List.flatMap_cons] at hclosed hgoing ⊢
    obtain ⟨hhead, htail, hcross⟩ := List.pairwise_append.mp hclosed
    have hfirst := hstep x List.mem_cons_self going hhead fun hended r hr ↦
      hgoing hended r (List.mem_append_left _ hr)
    have hrest := ih (fun y hy ↦ hstep y (List.mem_cons_of_mem x hy)) htail
      fun hended q hq ↦ by
        rcases hfirst.ended hended with hended' | ⟨r, hr, hpast⟩
        · exact hgoing hended' q (List.mem_append_right _ hq)
        · exact hcross r hr q hq hpast
    refine ⟨congrArg₂ List.cons hfirst.result hrest.result, fun hended ↦ ?_⟩
    rcases hrest.ended hended with hended' | ⟨r, hr, hpast⟩
    · refine (hfirst.ended hended').imp_right ?_
      rintro ⟨r, hr, hpast⟩
      exact ⟨r, List.mem_append_left _ hr, hpast⟩
    · exact Or.inr ⟨r, List.mem_append_right _ hr, hpast⟩

theorem sweepAll_swept (hclosed : Closed gone past (records height t))
    (hgoing : going = false → ∀ r ∈ records height t, gone r = false) :
    Swept gone past going (records height t) (sweepAll gone past height going t)
      (strip gone height t) := by
  induction height generalizing going with
  | zero =>
    obtain ⟨a, rs⟩ := t
    cases going with
    | false =>
      refine ⟨(strip_eq_self (hgoing rfl)).symm, fun _ ↦ Or.inl rfl⟩
    | true =>
      refine ⟨rfl, fun hended ↦ Or.inr ?_⟩
      simpa [sweepAll] using hended
  | succ height ih =>
    obtain ⟨a, es⟩ := t
    have hswept := sweepList_swept (fun e _ going hclosed hgoing ↦
      (ih hclosed hgoing).entry e.1) hclosed hgoing
    exact ⟨Prod.ext rfl hswept.result, hswept.ended⟩

/-- In an ordered tree a sweep from a leaf that has nothing to take out on its left takes everything
out. -/
theorem sweepFrom_swept {pick : List κ → ℕ} {k : κ} (hpick : PicksBelow pick k)
    (hgone : ∀ r, gone r = true → k ≤ key r) (hordered : Ordered key height t)
    (hclosed : Closed gone past (records height t)) :
    Swept gone past true (records height t) (sweepFrom gone past pick height t)
      (strip gone height t) := by
  induction height with
  | zero => exact sweepAll_swept hclosed fun hended ↦ by cases hended
  | succ height ih =>
    obtain ⟨a, es⟩ := t
    obtain ⟨before, entry, after, rfl, hlength, hbefore⟩ := hpick.split hordered
    have hdrop : (before ++ entry :: after).drop
        (pick ((before ++ entry :: after).map Prod.fst)) = entry :: after := by
      rw [← hlength, List.drop_left' rfl]
    have htake : (before ++ entry :: after).take
        (pick ((before ++ entry :: after).map Prod.fst)) = before := by
      rw [← hlength, List.take_left' rfl]
    rw [records_index, List.flatMap_append, List.flatMap_cons] at hclosed ⊢
    obtain ⟨-, hfrom, -⟩ := List.pairwise_append.mp hclosed
    obtain ⟨hentry, hafter, hcross⟩ := List.pairwise_append.mp hfrom
    have hfirst := ih (hordered.2.1 entry (by simp)) hentry
    have hrest := sweepList_swept (fun e _ going hclosed hgoing ↦
      (sweepAll_swept hclosed hgoing).entry e.1) hafter fun hended q hq ↦ by
        obtain ⟨r, hr, hpast⟩ := (hfirst.ended hended).resolve_left Bool.noConfusion
        exact hcross r hr q hq hpast
    have hkept : before.map (fun e ↦ (e.1, strip gone height e.2)) = before := by
      refine (List.map_congr_left fun e he ↦ ?_).trans before.map_id
      refine Prod.ext rfl (strip_eq_self fun r hr ↦ ?_)
      by_contra hgone'
      exact absurd (hgone r (by simpa using hgone')) (not_le.mpr (hbefore e he r hr))
    rw [sweepFrom]
    simp only [hdrop, htake]
    refine ⟨Prod.ext rfl ?_, fun hended ↦ Or.inr ?_⟩
    · rw [strip, List.map_append, List.map_cons, hkept, ← hfirst.result, ← hrest.result]
    · rcases hrest.ended hended with hended' | ⟨r, hr, hpast⟩
      · obtain ⟨r, hr, hpast⟩ := (hfirst.ended hended').resolve_left Bool.noConfusion
        exact ⟨r, List.mem_append_right _ (List.mem_append_left _ hr), hpast⟩
      · exact ⟨r, List.mem_append_right _ (List.mem_append_right _ hr), hpast⟩

/-! ### Whole trees -/

namespace Root

def sweep (gone past : ρ → Bool) (pick : List κ → ℕ) : Root α κ ρ → Root α κ ρ
  | empty => empty
  | node height t => node height (sweepFrom gone past pick height t).1

variable {root : Root α κ ρ} {pick : List κ → ℕ} {k : κ}

/-- What a sweep takes out, and that it keeps the order and brings no key. -/
theorem sweep_spec (hpick : PicksBelow pick k) (hgone : ∀ r, gone r = true → k ≤ key r)
    (hpast : ∀ r q, key r < key q → past r = true → gone q = false) (hordered : root.Ordered key) :
    (root.sweep gone past pick).Ordered key ∧
      (root.sweep gone past pick).records = root.records.filter (fun r ↦ !gone r) ∧
      (root.sweep gone past pick).height = root.height := by
  cases root with
  | empty => exact ⟨trivial, rfl, rfl⟩
  | node height t =>
    have hclosed : Closed gone past (SearchTree.records height t) :=
      (List.pairwise_map.mp (SearchTree.Ordered.records_pairwise hordered)).imp (hpast _ _)
    have hswept := sweepFrom_swept hpick hgone hordered hclosed
    rw [sweep, hswept.result]
    exact ⟨strip_ordered hordered, records_strip t, rfl⟩

end Root

end Obmafs3.Library.SearchTree
