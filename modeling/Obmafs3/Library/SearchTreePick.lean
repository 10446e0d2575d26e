import Obmafs3.Library.SearchTreeAscending
import Obmafs3.Library.SearchTreeScan

/-!
# Search trees with another search in the index nodes

A store may look for the slot of a key in its own way. `pick` is such a search. An insertion, a
change of a leaf and the way to a leaf are stated here for any of them, and in an ordered tree they
are those of the binary search as long as `pick` is right on sorted separators.

`leafAt` is the leaf that a search ends in. A search for the key of a record ends in the leaf of the
record, and two keys that no key of the tree tells apart end in one leaf.
-/

set_option autoImplicit false
set_option linter.unusedSectionVars false

namespace Obmafs3.Library

open Search

namespace Search

variable {κ : Type} [LinearOrder κ]

/-- The routing loop only compares, so two keys that compare alike take one way. -/
theorem indexFind_congr {keys : List κ} {k k' : κ} (hsame : ∀ x ∈ keys, x ≤ k ↔ x ≤ k') :
    indexFind keys k = indexFind keys k' := by
  have hloop (fuel : ℕ) : ∀ lo hi result,
      bisectLast keys k fuel lo hi result = bisectLast keys k' fuel lo hi result := by
    induction fuel with
    | zero => exact fun _ _ _ ↦ rfl
    | succ fuel ih =>
      intro lo hi result
      rw [bisectLast, bisectLast]
      cases hkey : keys[lo + (hi - 1 - lo) / 2]? with
      | none => rfl
      | some middle => simp only [hsame middle (List.mem_of_getElem? hkey), ih]
  exact hloop _ _ _ _

end Search

namespace SearchTree

variable {α κ ρ : Type} [LinearOrder κ] (pick : List κ → κ → ℕ)

/-- On sorted separators the search does what a binary search does. -/
def PicksRight : Prop :=
  ∀ (keys : List κ) (k : κ), keys ≠ [] → keys.Pairwise (· < ·) → pick keys k = indexFind keys k

/-- Insert a record below a node. -/
def putBy (key : ρ → κ) (leafMax indexMax : ℕ) (fresh : ℕ → Option α) (r : ρ) :
    (height : ℕ) → Tree α κ ρ height → Outcome α κ ρ height
  | 0, t => put key leafMax indexMax fresh r 0 t
  | height + 1, (a, es) =>
    let slot := pick (es.map Prod.fst) (key r)
    match es[slot]? with
    | none => .kept (a, es)
    | some e =>
      graft indexMax (fresh (height + 1)) a (es.take slot) e.1 (es.drop (slot + 1))
        (putBy key leafMax indexMax fresh r height e.2)

/-- Change the leaf that a search for a key ends in. -/
def editLeafBy (edit : List ρ → List ρ) (k : κ) :
    (height : ℕ) → Tree α κ ρ height → Tree α κ ρ height
  | 0, (a, rs) => (a, edit rs)
  | height + 1, (a, es) =>
    (a, es.modify (pick (es.map Prod.fst) k) fun e ↦ (e.1, editLeafBy edit k height e.2))

/-- The records of the leaf that a search for a key ends in. -/
def leafAt (k : κ) : (height : ℕ) → Tree α κ ρ height → List ρ
  | 0, (_, rs) => rs
  | height + 1, (_, es) =>
    match es[pick (es.map Prod.fst) k]? with
    | none => []
    | some e => leafAt k height e.2

variable {pick} {key : ρ → κ}

variable {height : ℕ} {t : Tree α κ ρ height} {fresh : ℕ → Option α} {leafMax indexMax : ℕ} {r : ρ}

section

variable (hpick : PicksRight pick)
include hpick

/-- The slot that `pick` finds in an ordered node. -/
theorem PicksRight.slot {a : α} {es : List (κ × Tree α κ ρ height)}
    (hordered : Ordered key (height + 1) (a, es)) (k : κ) : pick (es.map Prod.fst) k = route es k :=
  hpick _ k (by simpa using hordered.1) (separators_pairwise hordered.2.2)

theorem putBy_eq (hordered : Ordered key height t) :
    putBy pick key leafMax indexMax fresh r height t =
      put key leafMax indexMax fresh r height t := by
  induction height with
  | zero => rfl
  | succ height ih =>
    obtain ⟨a, es⟩ := t
    obtain ⟨before, entry, after, hrouted⟩ := hordered.route (key r)
    rw [hrouted.put, ← ih (hordered.2.1 entry hrouted.mem), putBy]
    simp only [hpick.slot hordered, hrouted.getElem?, hrouted.take, hrouted.drop]

theorem editLeafBy_eq {edit : List ρ → List ρ} {k : κ} (hordered : Ordered key height t) :
    editLeafBy pick edit k height t = editLeaf edit k height t := by
  induction height with
  | zero => rfl
  | succ height ih =>
    obtain ⟨a, es⟩ := t
    obtain ⟨before, entry, after, hrouted⟩ := hordered.route k
    rw [hrouted.editLeaf, ← ih (hordered.2.1 entry hrouted.mem), editLeafBy,
      hpick.slot hordered, hrouted.slot, hrouted.eq, modify_append]

end

/-- The binary search is such a search. -/
theorem putBy_indexFind : putBy indexFind key leafMax indexMax fresh r height t =
      put key leafMax indexMax fresh r height t := by
  induction height with
  | zero => rfl
  | succ height ih =>
    obtain ⟨a, es⟩ := t
    rw [putBy, put]
    simp only [ih, route] <;> rfl

/-- An insertion brings no record and no key but that of the new record. -/
theorem putBy_all {P : κ → Prop} {Q : ρ → Prop} (hQP : ∀ q, Q q → P (key q)) (hr : Q r)
    (ht : All P Q height t) : (putBy pick key leafMax indexMax fresh r height t).All P Q := by
  induction height with
  | zero => exact put_all hQP hr ht
  | succ height ih =>
    obtain ⟨a, es⟩ := t
    rw [putBy]
    cases hslot : es[pick (es.map Prod.fst) (key r)]? with
    | none => exact ht
    | some entry =>
      have hentry := ht entry (List.mem_of_getElem? hslot)
      exact graft_all (fun e he ↦ ht e (List.mem_of_mem_take he))
        (fun e he ↦ ht e (List.mem_of_mem_drop he)) hentry.1 (ih hentry.2)

/-! ### The leaf of a search -/

theorem leafAt_sublist {k : κ} : (leafAt pick k height t).Sublist (records height t) := by
  induction height with
  | zero => exact List.Sublist.refl _
  | succ height ih =>
    obtain ⟨a, es⟩ := t
    rw [leafAt, records_index]
    cases hslot : es[pick (es.map Prod.fst) k]? with
    | none => exact List.nil_sublist _
    | some e =>
      refine ih.trans ?_
      rw [List.flatMap_def]
      exact List.sublist_flatten_of_mem
        (List.mem_map_of_mem (List.mem_of_getElem? hslot))

/-- A search for the key of a record ends in the leaf that holds it. -/
theorem mem_leafAt (hpick : PicksRight pick) (hordered : Ordered key height t)
    (hr : r ∈ records height t) : r ∈ leafAt pick (key r) height t := by
  induction height with
  | zero => exact hr
  | succ height ih =>
    obtain ⟨a, es⟩ := t
    obtain ⟨before, entry, after, hrouted⟩ := hordered.route (key r)
    rw [leafAt, hpick.slot hordered, hrouted.getElem?]
    refine ih (hordered.2.1 entry hrouted.mem) ?_
    rw [records_index, hrouted.eq, List.flatMap_append, List.flatMap_cons] at hr
    rcases List.mem_append.mp hr with hr | hr
    · obtain ⟨e, he, hr⟩ := List.mem_flatMap.mp hr
      exact absurd rfl (hrouted.before_lt hordered.2.2 he hr).ne
    · rcases List.mem_append.mp hr with hr | hr
      · exact hr
      · obtain ⟨e, he, hr⟩ := List.mem_flatMap.mp hr
        exact absurd rfl (hrouted.lt_after hordered.2.2 he hr).ne

/-- Searches for two keys that no key of the tree tells apart end in one leaf. -/
theorem leafAt_congr (hpick : PicksRight pick) {k k' : κ} (hordered : Ordered key height t)
    (hsame : ∀ x ∈ span key height t, x ≤ k ↔ x ≤ k') :
    leafAt pick k height t = leafAt pick k' height t := by
  induction height with
  | zero => rfl
  | succ height ih =>
    obtain ⟨a, es⟩ := t
    have hslot : route es k = route es k' := by
      refine indexFind_congr fun x hx ↦ hsame x ?_
      obtain ⟨e, he, rfl⟩ := List.mem_map.mp hx
      exact List.mem_flatMap.mpr ⟨e, he, List.mem_cons_self⟩
    rw [leafAt, leafAt, hpick.slot hordered, hpick.slot hordered, hslot]
    cases hget : es[route es k']? with
    | none => rfl
    | some e =>
      have he : e ∈ es := List.mem_of_getElem? hget
      exact ih (hordered.2.1 e he) fun x hx ↦
        hsame x (List.mem_flatMap.mpr ⟨e, he, List.mem_cons_of_mem _ hx⟩)

namespace Root

variable (pick) in
/-- Insert a record; `false` when a label was refused. -/
def putBy (key : ρ → κ) (leafMax indexMax : ℕ) (fresh : ℕ → Option α) (r : ρ) :
    Root α κ ρ → Root α κ ρ × Bool
  | empty =>
    match fresh 0 with
    | none => (empty, false)
    | some a => (node 0 (a, [r]), true)
  | node height t =>
    match SearchTree.putBy pick key leafMax indexMax fresh r height t with
    | .kept t => (node height t, true)
    | .refused t => (node height t, false)
    | .split left low right push =>
      match fresh (height + 1) with
      | none => (node height left, false)
      | some b => (node (height + 1) (b, [(low, left), (push, right)]), true)

variable (pick) in
def removeBy (key : ρ → κ) (k : κ) : Root α κ ρ → Root α κ ρ
  | empty => empty
  | node height t => node height (editLeafBy pick (dropKey key k) k height t)

variable (pick) in
def leafAt (k : κ) : Root α κ ρ → List ρ
  | empty => []
  | node height t => SearchTree.leafAt pick k height t

variable {root : Root α κ ρ}

theorem putBy_eq (hpick : PicksRight pick) {leafMax indexMax : ℕ} {fresh : ℕ → Option α} {r : ρ}
    (hordered : root.Ordered key) :
    root.putBy pick key leafMax indexMax fresh r = root.put key leafMax indexMax fresh r := by
  cases root with
  | empty => rfl
  | node height t =>
    rw [putBy, put, SearchTree.putBy_eq hpick hordered] <;> rfl

theorem removeBy_eq (hpick : PicksRight pick) (hordered : root.Ordered key) (k : κ) :
    root.removeBy pick key k = root.remove key k := by
  cases root with
  | empty => rfl
  | node height t => rw [removeBy, remove, SearchTree.editLeafBy_eq hpick hordered]

theorem leafAt_sublist {k : κ} : (root.leafAt pick k).Sublist root.records := by
  cases root with
  | empty => exact List.Sublist.refl _
  | node height t => exact SearchTree.leafAt_sublist

theorem mem_leafAt (hpick : PicksRight pick) (hordered : root.Ordered key) {r : ρ}
    (hr : r ∈ root.records) : r ∈ root.leafAt pick (key r) := by
  cases root with
  | empty => exact hr
  | node height t => exact SearchTree.mem_leafAt hpick hordered hr

theorem leafAt_congr (hpick : PicksRight pick) (hordered : root.Ordered key) {k k' : κ}
    (hsame : ∀ x ∈ root.span key, x ≤ k ↔ x ≤ k') : root.leafAt pick k = root.leafAt pick k' := by
  cases root with
  | empty => rfl
  | node height t => exact SearchTree.leafAt_congr hpick hordered hsame

theorem putBy_indexFind {leafMax indexMax : ℕ} {fresh : ℕ → Option α} {r : ρ} :
    root.putBy indexFind key leafMax indexMax fresh r = root.put key leafMax indexMax fresh r := by
  cases root with
  | empty => rfl
  | node height t =>
    rw [putBy, put, SearchTree.putBy_indexFind] <;> rfl

/-- An insertion brings no key but that of the new record. -/
theorem mem_span_putBy {leafMax indexMax : ℕ} {fresh : ℕ → Option α} {r : ρ} {k : κ}
    (hk : k ∈ (root.putBy pick key leafMax indexMax fresh r).1.span key) :
    k = key r ∨ k ∈ root.span key := by
  cases root with
  | empty =>
    rw [putBy] at hk
    cases hfresh : fresh 0 with
    | none =>
      rw [hfresh] at hk
      exact Or.inr hk
    | some a =>
      rw [hfresh] at hk
      exact Or.inl (List.mem_singleton.mp hk)
  | node height t =>
    have hall (P : κ → Prop) (hr : P (key r)) (ht : ∀ x ∈ SearchTree.span key height t, P x) :
        (SearchTree.putBy pick key leafMax indexMax fresh r height t).All P fun q ↦ P (key q) := by
      have hold : All P (fun q ↦ P (key q)) height t := forall_span_iff.mp ht
      exact putBy_all (Q := fun q ↦ P (key q)) (fun _ h ↦ h) hr hold
    replace hall := hall (fun x ↦ x = key r ∨ x ∈ SearchTree.span key height t) (Or.inl rfl)
      fun _ ↦ Or.inr
    rw [putBy] at hk
    generalize SearchTree.putBy pick key leafMax indexMax fresh r height t = out at hk hall
    cases out with
    | kept u => exact forall_span_iff.mpr hall k hk
    | refused u => exact forall_span_iff.mpr hall k hk
    | split left low right push =>
      obtain ⟨hlow, hpush, hleft, hright⟩ := hall
      generalize fresh (height + 1) = top at hk
      cases top with
      | none => exact forall_span_iff.mpr hleft k hk
      | some b =>
        simp only [span, span_index, List.flatMap_cons, List.flatMap_nil, List.append_nil,
          List.mem_append, List.mem_cons] at hk
        rcases hk with (rfl | hk) | rfl | hk
        · exact hlow
        · exact forall_span_iff.mpr hleft k hk
        · exact hpush
        · exact forall_span_iff.mpr hright k hk

/-- A removal brings no key. -/
theorem span_remove {k x : κ} (hx : x ∈ (root.remove key k).span key) : x ∈ root.span key := by
  cases root with
  | empty => exact hx
  | node height t =>
    exact forall_span_iff.mpr (editLeaf_all (dropKey_sublist k) (forall_span_iff.mp fun _ h ↦ h)) x
      hx

end Root

end SearchTree

end Obmafs3.Library
