import Obmafs3.Library.SearchTreeRoot

/-!
# The leaves of a search tree

A search that is asked for the place of a record answers with the label of its leaf and the slot in
it. Insertions move records between slots and leaves, so a place does not stay that of its record.
What stays is that it is a place: `put_leaves` says that one leaf takes the record or is divided in
two, the first of which keeps its label.
-/

set_option autoImplicit false

namespace Obmafs3.Library.SearchTree

open Search

variable {α κ ρ : Type} [LinearOrder κ]

/-! ### Places -/

/-- The label of the leaf that a search comes to and the slot of the record there. -/
def place (key : ρ → κ) (k : κ) : (height : ℕ) → Tree α κ ρ height → Option (α × ℕ)
  | 0, (a, rs) =>
    match leafFind (rs.map key) k with
    | .found i => some (a, i)
    | .absent _ => none
  | height + 1, (_, es) =>
    match es[SearchTree.route es k]? with
    | none => none
    | some e => place key k height e.2

variable {key : ρ → κ}

variable {height : ℕ} {t : Tree α κ ρ height}

theorem place_mem {k : κ} {a : α} {i : ℕ} (hplace : place key k height t = some (a, i)) :
    ∃ rs, (a, rs) ∈ leaves height t ∧ i < rs.length := by
  induction height with
  | zero =>
    obtain ⟨b, rs⟩ := t
    rw [place] at hplace
    cases hfind : leafFind (rs.map key) k with
    | absent j =>
      rw [hfind] at hplace
      cases hplace
    | found j =>
      rw [hfind] at hplace
      cases hplace
      have hkey := leafFind_found hfind
      rw [List.getElem?_map] at hkey
      obtain ⟨r, hr, -⟩ := Option.map_eq_some_iff.mp hkey
      exact ⟨rs, List.mem_singleton_self _, (List.getElem?_eq_some_iff.mp hr).1⟩
  | succ height ih =>
    obtain ⟨b, es⟩ := t
    rw [place] at hplace
    cases hentry : es[route es k]? with
    | none =>
      rw [hentry] at hplace
      cases hplace
    | some e =>
      rw [hentry] at hplace
      obtain ⟨rs, hrs, hi⟩ := ih hplace
      exact ⟨rs, List.mem_flatMap.mpr ⟨e, List.mem_of_getElem? hentry, hrs⟩, hi⟩

/-! ### One leaf for another -/

/-- One leaf of the first list gives way to leaves that begin with one of its label and have as much
room. -/
def Regrown (leafMax : ℕ) (ls ls' : List (α × List ρ)) : Prop :=
  ∃ front a rs back first more, ls = front ++ (a, rs) :: back ∧
    ls' = front ++ ((a, first) :: more ++ back) ∧
    (rs.length ≤ leafMax → ∀ l ∈ (a, first) :: more, l.2.length ≤ leafMax)

namespace Regrown

omit [LinearOrder κ]

variable {leafMax : ℕ} {ls ls' : List (α × List ρ)}

variable (hregrown : Regrown leafMax ls ls')
include hregrown

theorem widen (front back : List (α × List ρ)) :
    Regrown leafMax (front ++ (ls ++ back)) (front ++ (ls' ++ back)) := by
  obtain ⟨front', a, rs, back', first, more, rfl, rfl, hroom⟩ := hregrown
  exact ⟨front ++ front', a, rs, back' ++ back, first, more, by simp, by simp, hroom⟩

/-- The labels stay. -/
theorem label_mem {b : α} (hb : b ∈ ls.map Prod.fst) : b ∈ ls'.map Prod.fst := by
  obtain ⟨front, a, rs, back, first, more, rfl, rfl, -⟩ := hregrown
  simp only [List.map_append, List.map_cons, List.mem_append, List.mem_cons] at hb ⊢
  rcases hb with hb | hb | hb
  · exact Or.inl hb
  · exact Or.inr (Or.inl (Or.inl hb))
  · exact Or.inr (Or.inr hb)

/-- No leaf becomes too long. -/
theorem length_le (hroom : ∀ l ∈ ls, l.2.length ≤ leafMax) : ∀ l ∈ ls', l.2.length ≤ leafMax := by
  obtain ⟨front, a, rs, back, first, more, rfl, rfl, hnew⟩ := hregrown
  obtain ⟨hfront, hrest⟩ := List.forall_mem_append.mp hroom
  obtain ⟨hleaf, hback⟩ := List.forall_mem_cons.mp hrest
  exact List.forall_mem_append.mpr ⟨hfront, List.forall_mem_append.mpr ⟨hnew hleaf, hback⟩⟩

end Regrown

/-! ### Insertions -/

/-- The leaves of an outcome that is not refused. -/
def Outcome.Regrown {height : ℕ} (leafMax : ℕ) (ls : List (α × List ρ)) :
    Outcome α κ ρ height → Prop
  | .kept t => SearchTree.Regrown leafMax ls (leaves height t)
  | .split left _ right _ =>
    SearchTree.Regrown leafMax ls (leaves height left ++ leaves height right)
  | .refused _ => True

omit [LinearOrder κ] in
theorem graft_regrown {height leafMax indexMax : ℕ} {fresh : Option α} {a : α}
    {before after : List (κ × Tree α κ ρ height)} {e : κ × Tree α κ ρ height}
    {o : Outcome α κ ρ height} (ho : o.Regrown leafMax (leaves height e.2)) :
    (graft indexMax fresh a before e.1 after o).Regrown leafMax
      ((before ++ e :: after).flatMap fun e ↦ leaves height e.2) := by
  have hwide (ls : List (α × List ρ)) (h : Regrown leafMax (leaves height e.2) ls) :=
    h.widen (before.flatMap fun e ↦ leaves height e.2) (after.flatMap fun e ↦ leaves height e.2)
  rw [List.flatMap_append, List.flatMap_cons]
  cases o with
  | refused t => trivial
  | kept t =>
    rw [graft, Outcome.Regrown, leaves_index, List.flatMap_append, List.flatMap_cons]
    exact hwide _ ho
  | split left low right push =>
    have hall := hwide _ ho
    have hes : ((before ++ (low, left) :: (push, right) :: after).flatMap fun e ↦
        leaves height e.2) = (before.flatMap fun e ↦ leaves height e.2) ++
          (leaves height left ++ leaves height right ++
            after.flatMap fun e ↦ leaves height e.2) := by
      rw [List.flatMap_append, List.flatMap_cons, List.flatMap_cons, List.append_assoc]
    rw [← hes] at hall
    simp only [graft]
    split_ifs with hroom
    · exact hall
    · cases fresh with
      | none => trivial
      | some b =>
        rw [Outcome.Regrown, leaves_index, leaves_index, ← List.flatMap_append,
          List.take_append_drop]
        exact hall

/-- An insertion changes one leaf, or divides it. -/
theorem put_leaves {leafMax indexMax : ℕ} (hleafMax : 1 ≤ leafMax) {fresh : ℕ → Option α} {r : ρ}
    (hsolid : Solid height t) :
    (put key leafMax indexMax fresh r height t).Regrown leafMax (leaves height t) := by
  induction height with
  | zero =>
    obtain ⟨a, rs⟩ := t
    rw [put]
    cases hfind : leafFind (rs.map key) (key r) with
    | found i =>
      refine ⟨[], a, rs, [], rs.set i r, [], rfl, rfl, fun hroom ↦ ?_⟩
      exact List.forall_mem_singleton.mpr (List.length_set.trans_le hroom)
    | absent i =>
      dsimp only
      unfold settleLeaf
      split_ifs with hfits
      · exact ⟨[], a, rs, [], _, [], rfl, rfl, fun _ ↦ List.forall_mem_singleton.mpr hfits⟩
      · cases fresh 0 with
        | none => trivial
        | some b =>
          refine ⟨[], a, rs, [], _, [(b, _)], rfl, rfl, fun hroom ↦ ?_⟩
          have hlength : (rs.insertIdx i r).length ≤ rs.length + 1 := by
            rw [List.length_insertIdx]
            split_ifs <;> omega
          have hhalf := half_le leafMax
          have hpos := half_pos hleafMax
          refine List.forall_mem_cons.mpr ⟨?_, List.forall_mem_singleton.mpr ?_⟩
          · exact (List.length_take_le _ _).trans hhalf
          · rw [List.length_drop]
            omega
  | succ height ih =>
    obtain ⟨a, es⟩ := t
    obtain ⟨before, entry, after, hslot⟩ := exists_slotted hsolid.1 (key r)
    rw [hslot.put, leaves_index, hslot.eq]
    exact graft_regrown (ih (hsolid.2 entry hslot.mem))

namespace Root

/-- The label of the leaf that a search comes to and the slot of the record there. -/
def place (key : ρ → κ) (k : κ) : Root α κ ρ → Option (α × ℕ)
  | empty => none
  | node height t => SearchTree.place key k height t

variable {root : Root α κ ρ}

theorem place_mem {k : κ} {a : α} {i : ℕ} (hplace : root.place key k = some (a, i)) :
    ∃ rs, (a, rs) ∈ root.leaves ∧ i < rs.length := by
  cases root with
  | empty => cases hplace
  | node height t => exact SearchTree.place_mem hplace

omit [LinearOrder κ] in
theorem leaves_records (root : Root α κ ρ) : root.leaves.flatMap Prod.snd = root.records := by
  cases root with
  | empty => rfl
  | node height t => exact SearchTree.leaves_records height t

variable {fresh : ℕ → Option α} {leafMax indexMax : ℕ}

/-- The leaves of a tree with records, after an insertion that is done. -/
theorem put_leaves (hleafMax : 1 ≤ leafMax) {r : ρ} (hordered : root.Ordered key)
    (hdone : (root.put key leafMax indexMax fresh r).2 = true) :
    root.leaves = [] ∧ (∃ a, (root.put key leafMax indexMax fresh r).1.leaves = [(a, [r])]) ∨
      Regrown leafMax root.leaves (root.put key leafMax indexMax fresh r).1.leaves := by
  cases root with
  | empty =>
    rw [put] at hdone ⊢
    cases hfresh : fresh 0 with
    | none =>
      rw [hfresh] at hdone
      cases hdone
    | some a => exact Or.inl ⟨rfl, a, rfl⟩
  | node height t =>
    refine Or.inr ?_
    have hgrown : (SearchTree.put key leafMax indexMax fresh r height t).Regrown leafMax
        (SearchTree.leaves height t) :=
      SearchTree.put_leaves hleafMax (SearchTree.Ordered.solid hordered)
    rw [put] at hdone ⊢
    generalize SearchTree.put key leafMax indexMax fresh r height t = out at hdone hgrown ⊢
    cases out with
    | kept u => exact hgrown
    | refused u => cases hdone
    | split left low right push =>
      cases hfresh : fresh (height + 1) with
      | none => simp [hfresh] at hdone
      | some b =>
        have hleaves : (node (height + 1) (b, [(low, left), (push, right)])).leaves =
            SearchTree.leaves height left ++ SearchTree.leaves height right := by simp [leaves]
        dsimp only
        rw [hleaves]
        exact hgrown

/-- Every leaf keeps its label, and none becomes too long. -/
theorem put_leaves_spec (hleafMax : 1 ≤ leafMax) {r : ρ} (hordered : root.Ordered key)
    (hdone : (root.put key leafMax indexMax fresh r).2 = true)
    (hroom : ∀ l ∈ root.leaves, l.2.length ≤ leafMax) :
    (∀ b ∈ root.leaves.map Prod.fst,
      b ∈ (root.put key leafMax indexMax fresh r).1.leaves.map Prod.fst) ∧
    ∀ l ∈ (root.put key leafMax indexMax fresh r).1.leaves, l.2.length ≤ leafMax := by
  rcases put_leaves hleafMax hordered hdone with ⟨hnone, a, hone⟩ | hregrown
  · rw [hnone, hone]
    exact ⟨fun b hb ↦ absurd hb List.not_mem_nil, List.forall_mem_singleton.mpr hleafMax⟩
  · exact ⟨fun b hb ↦ hregrown.label_mem hb, hregrown.length_le hroom⟩

end Root

end Obmafs3.Library.SearchTree
