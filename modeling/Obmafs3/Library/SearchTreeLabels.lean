import Obmafs3.Library.SearchTreeRoot

/-!
# Labels play no part

A change of labels commutes with searches, insertions and removals. A tree can therefore be
followed without knowing where its nodes are kept.
-/

set_option autoImplicit false
set_option linter.unusedSectionVars false

namespace Obmafs3.Library.SearchTree

open Search

variable {α β κ ρ : Type} [LinearOrder κ] {key : ρ → κ}

/-- Change every label. -/
def relabel (f : α → β) : (height : ℕ) → Tree α κ ρ height → Tree β κ ρ height
  | 0, (a, rs) => (f a, rs)
  | height + 1, (a, es) => (f a, es.map fun e ↦ (e.1, relabel f height e.2))

def Outcome.relabel (f : α → β) {height : ℕ} : Outcome α κ ρ height → Outcome β κ ρ height
  | .kept t => .kept (SearchTree.relabel f height t)
  | .split left low right push =>
    .split (SearchTree.relabel f height left) low (SearchTree.relabel f height right) push
  | .refused t => .refused (SearchTree.relabel f height t)

variable (f : α → β)

theorem route_relabel {height : ℕ} (es : List (κ × Tree α κ ρ height)) (k : κ) :
    route (es.map fun e ↦ (e.1, relabel f height e.2)) k = route es k := by
  simp only [route, List.map_map]
  rfl

theorem graft_relabel {height indexMax : ℕ} (fresh : Option α) (a : α)
    (before after : List (κ × Tree α κ ρ height)) (k : κ) (o : Outcome α κ ρ height) :
    (graft indexMax fresh a before k after o).relabel f =
      graft indexMax (fresh.map f) (f a) (before.map fun e ↦ (e.1, relabel f height e.2)) k
        (after.map fun e ↦ (e.1, relabel f height e.2)) (o.relabel f) := by
  cases o with
  | kept t => simp [graft, Outcome.relabel, relabel]
  | refused t => simp [graft, Outcome.relabel, relabel]
  | split left low right push =>
    have hmap : before.map (fun e ↦ (e.1, relabel f height e.2)) ++
        (low, relabel f height left) :: (push, relabel f height right) ::
          after.map (fun e ↦ (e.1, relabel f height e.2)) =
        (before ++ (low, left) :: (push, right) :: after).map
          fun e ↦ (e.1, relabel f height e.2) := by simp
    simp only [graft, Outcome.relabel, hmap, List.length_map]
    split_ifs
    · rfl
    · cases fresh with
      | none => simp [relabel]
      | some b =>
        simp only [Option.map_some, relabel, List.map_take, List.map_drop, List.map_map]
        rfl

theorem put_relabel {leafMax indexMax : ℕ} (fresh : ℕ → Option α) (r : ρ) (height : ℕ)
    (t : Tree α κ ρ height) :
    (put key leafMax indexMax fresh r height t).relabel f =
      put key leafMax indexMax (fun level ↦ (fresh level).map f) r height
        (relabel f height t) := by
  induction height with
  | zero =>
    obtain ⟨a, rs⟩ := t
    rw [put, relabel, put]
    cases leafFind (rs.map key) (key r) with
    | found i => rfl
    | absent i =>
      simp only [settleLeaf]
      split_ifs
      · rfl
      · cases fresh 0 <;> rfl
  | succ height ih =>
    obtain ⟨a, es⟩ := t
    rw [put, relabel, put, route_relabel, List.getElem?_map]
    cases es[route es (key r)]? with
    | none => rfl
    | some e =>
      simp only [Option.map_some, graft_relabel, ih, List.map_take, List.map_drop]

theorem lookup_relabel (k : κ) (height : ℕ) (t : Tree α κ ρ height) :
    lookup key k height (relabel f height t) = lookup key k height t := by
  induction height with
  | zero => rfl
  | succ height ih =>
    obtain ⟨a, es⟩ := t
    rw [relabel, lookup, lookup, route_relabel, List.getElem?_map]
    cases es[route es k]? with
    | none => rfl
    | some e => exact ih e.2

theorem editLeaf_relabel (edit : List ρ → List ρ) (k : κ) (height : ℕ) (t : Tree α κ ρ height) :
    relabel f height (editLeaf edit k height t) = editLeaf edit k height (relabel f height t) := by
  induction height with
  | zero => rfl
  | succ height ih =>
    obtain ⟨a, es⟩ := t
    simp only [relabel, editLeaf, route_relabel]
    congr 1
    refine List.ext_getElem? fun i ↦ ?_
    simp only [List.getElem?_map, List.getElem?_modify]
    split_ifs <;> cases es[i]? <;> simp [ih]

namespace Root

def relabel : Root α κ ρ → Root β κ ρ
  | empty => empty
  | node height t => node height (SearchTree.relabel f height t)

theorem put_relabel {leafMax indexMax : ℕ} (fresh : ℕ → Option α) (r : ρ) (root : Root α κ ρ) :
    (root.relabel f).put key leafMax indexMax (fun level ↦ (fresh level).map f) r =
      ((root.put key leafMax indexMax fresh r).1.relabel f,
        (root.put key leafMax indexMax fresh r).2) := by
  cases root with
  | empty =>
    simp only [relabel, put]
    cases fresh 0 <;> rfl
  | node height t =>
    simp only [relabel, put, ← SearchTree.put_relabel]
    cases SearchTree.put key leafMax indexMax fresh r height t with
    | kept t => rfl
    | refused t => rfl
    | split left low right push =>
      simp only [Outcome.relabel]
      cases fresh (height + 1) <;> rfl

theorem lookup_relabel (k : κ) (root : Root α κ ρ) :
    (root.relabel f).lookup key k = root.lookup key k := by
  cases root with
  | empty => rfl
  | node height t => exact SearchTree.lookup_relabel f k height t

theorem remove_relabel (k : κ) (root : Root α κ ρ) :
    (root.relabel f).remove key k = (root.remove key k).relabel f := by
  cases root with
  | empty => rfl
  | node height t => simp only [relabel, remove, editLeaf_relabel]

end Root

end Obmafs3.Library.SearchTree
