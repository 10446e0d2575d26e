import Obmafs3.Library.SearchTreeRoot

/-!
# The labels an insertion asks for

An insertion asks for a label for every node it divides, from the leaf upward, and for one more
when it divides the root. `demand` counts them on the tree before the insertion. An insertion that
gets them all is done, and one that is refused the first leaves the tree as it was.
-/

set_option autoImplicit false

namespace Obmafs3.Library.SearchTree

open Search

variable {α κ ρ : Type} [LinearOrder κ] (key : ρ → κ)

/-- The number of nodes of a tree that an insertion divides. -/
def demand (leafMax indexMax : ℕ) (r : ρ) : (height : ℕ) → Tree α κ ρ height → ℕ
  | 0, t => if willSplit key leafMax indexMax r 0 t then 1 else 0
  | height + 1, (a, es) =>
    if willSplit key leafMax indexMax r (height + 1) (a, es) then height + 2
    else
      match es[route es (key r)]? with
      | none => 0
      | some e => demand leafMax indexMax r height e.2

variable {key} {leafMax indexMax : ℕ} {fresh fresh' : ℕ → Option α} {r : ρ}

variable {height : ℕ} {t : Tree α κ ρ height}

theorem demand_of_willSplit (hsplit : willSplit key leafMax indexMax r height t = true) :
    demand key leafMax indexMax r height t = height + 1 := by
  cases height with
  | zero => rw [demand, if_pos hsplit]
  | succ height =>
    obtain ⟨a, es⟩ := t
    rw [demand, if_pos hsplit]

theorem demand_le (t : Tree α κ ρ height) :
    demand key leafMax indexMax r height t ≤ height + 1 := by
  induction height with
  | zero =>
    rw [demand]
    split_ifs <;> omega
  | succ height ih =>
    obtain ⟨a, es⟩ := t
    rw [demand]
    split_ifs
    · exact le_rfl
    · cases es[route es (key r)]? with
      | none => exact Nat.zero_le _
      | some e => exact (ih e.2).trans (Nat.le_succ _)

variable {low push : κ}

/-- A node that is divided was going to be. -/
theorem willSplit_of_split {t left right : Tree α κ ρ height} (hsolid : Solid height t)
    (hput : put key leafMax indexMax fresh r height t = .split left low right push) :
    willSplit key leafMax indexMax r height t = true := by
  induction height generalizing low push with
  | zero =>
    obtain ⟨a, rs⟩ := t
    rw [put] at hput
    cases hfind : leafFind (rs.map key) (key r) with
    | found i => simp [hfind] at hput
    | absent i =>
      have hi : i ≤ rs.length := by simpa using leafFind_absent_le hfind
      simp only [hfind, settleLeaf, List.length_insertIdx_of_le_length hi] at hput
      split_ifs at hput with hroom
      simp only [willSplit, hfind, decide_eq_true_eq]
      omega
  | succ height ih =>
    obtain ⟨a, es⟩ := t
    obtain ⟨before, entry, after, hslot⟩ := exists_slotted hsolid.1 (key r)
    rw [hslot.put] at hput
    cases hbelow : put key leafMax indexMax fresh r height entry.2 with
    | kept u => simp [hbelow, graft] at hput
    | refused u => simp [hbelow, graft] at hput
    | split l low' r' push' =>
      have hfull := ih (hsolid.2 entry hslot.mem) hbelow
      have hlength := congrArg List.length hslot.eq
      simp only [hbelow, graft] at hput
      split_ifs at hput with hroom
      simp only [List.length_append, List.length_cons] at hroom hlength
      simp only [willSplit, hslot.getElem?, hfull, Bool.true_and, decide_eq_true_eq]
      omega

/-- Only the labels asked for matter. -/
theorem put_congr_demand (hsolid : Solid height t)
    (hsame : ∀ level < demand key leafMax indexMax r height t, fresh level = fresh' level) :
    put key leafMax indexMax fresh r height t = put key leafMax indexMax fresh' r height t := by
  induction height with
  | zero =>
    obtain ⟨a, rs⟩ := t
    rw [put, put]
    cases hfind : leafFind (rs.map key) (key r) with
    | found i => rfl
    | absent i =>
      simp only [settleLeaf]
      split_ifs with hroom
      · rfl
      · have hi : i ≤ rs.length := by simpa using leafFind_absent_le hfind
        rw [List.length_insertIdx_of_le_length hi] at hroom
        have hsplit : willSplit key leafMax indexMax r 0 (a, rs) = true := by
          simp only [willSplit, hfind, decide_eq_true_eq]
          omega
        rw [hsame 0 (by simp [demand_of_willSplit hsplit])]
  | succ height ih =>
    obtain ⟨a, es⟩ := t
    cases hsplit : willSplit key leafMax indexMax r (height + 1) (a, es) with
    | true =>
      rw [demand_of_willSplit hsplit] at hsame
      exact put_congr fun level hlevel ↦ hsame level (by omega)
    | false =>
      obtain ⟨before, entry, after, hslot⟩ := exists_slotted hsolid.1 (key r)
      have hentry := hsolid.2 entry hslot.mem
      have hdemand : demand key leafMax indexMax r (height + 1) (a, es) =
          demand key leafMax indexMax r height entry.2 := by
        rw [demand, hsplit, if_neg (by simp), hslot.getElem?]
      rw [hdemand] at hsame
      rw [hslot.put, hslot.put, ih hentry hsame]
      cases hput : put key leafMax indexMax fresh' r height entry.2 with
      | kept u => rfl
      | refused u => rfl
      | split left low right push =>
        have hfull := willSplit_of_split hentry hput
        have hroom : (before ++ (low, left) :: (push, right) :: after).length ≤ indexMax := by
          have hlength := congrArg List.length hslot.eq
          rw [willSplit, hslot.getElem?] at hsplit
          simp only [hfull, Bool.true_and, decide_eq_false_iff_not] at hsplit
          simp only [List.length_append, List.length_cons] at hlength ⊢
          omega
        simp only [graft, if_pos hroom]

/-- A node that divides has its label, and so have those below it. -/
theorem granted_of_split {t left right : Tree α κ ρ height} (hsolid : Solid height t)
    (hput : put key leafMax indexMax fresh r height t = .split left low right push) :
    ∀ level ≤ height, fresh level ≠ none := by
  induction height generalizing low push with
  | zero =>
    obtain ⟨a, rs⟩ := t
    intro level hlevel hnone
    obtain rfl := Nat.le_zero.mp hlevel
    rw [put, hnone] at hput
    cases hfind : leafFind (rs.map key) (key r) with
    | found i => simp [hfind] at hput
    | absent i =>
      simp only [hfind, settleLeaf] at hput
      split_ifs at hput
  | succ height ih =>
    obtain ⟨a, es⟩ := t
    obtain ⟨before, entry, after, hslot⟩ := exists_slotted hsolid.1 (key r)
    rw [hslot.put] at hput
    cases hbelow : put key leafMax indexMax fresh r height entry.2 with
    | kept u => simp [hbelow, graft] at hput
    | refused u => simp [hbelow, graft] at hput
    | split l low' r' push' =>
      have hchild := ih (hsolid.2 entry hslot.mem) hbelow
      intro level hlevel
      rcases Nat.lt_or_eq_of_le hlevel with hlt | rfl
      · exact hchild level (Nat.le_of_lt_succ hlt)
      · intro hnone
        simp only [hbelow, graft, hnone] at hput
        split_ifs at hput

/-- A node that was going to be divided is not kept. -/
theorem put_ne_kept (hsolid : Solid height t)
    (hsplit : willSplit key leafMax indexMax r height t = true) (u : Tree α κ ρ height) :
    put key leafMax indexMax fresh r height t ≠ .kept u := by
  induction height with
  | zero =>
    obtain ⟨a, rs⟩ := t
    rw [willSplit] at hsplit
    rw [put]
    cases hfind : leafFind (rs.map key) (key r) with
    | found i => simp [hfind] at hsplit
    | absent i =>
      have hi : i ≤ rs.length := by simpa using leafFind_absent_le hfind
      simp only [hfind, decide_eq_true_eq] at hsplit
      have hfull : ¬(rs.insertIdx i r).length ≤ leafMax := by
        rw [List.length_insertIdx_of_le_length hi]
        omega
      simp only [settleLeaf, if_neg hfull]
      cases fresh 0 <;> simp
  | succ height ih =>
    obtain ⟨a, es⟩ := t
    obtain ⟨before, entry, after, hslot⟩ := exists_slotted hsolid.1 (key r)
    rw [willSplit, hslot.getElem?] at hsplit
    simp only [Bool.and_eq_true, decide_eq_true_eq] at hsplit
    rw [hslot.put]
    cases hbelow : put key leafMax indexMax fresh r height entry.2 with
    | kept u => exact absurd hbelow (ih (hsolid.2 entry hslot.mem) hsplit.1 u)
    | refused u => simp [graft]
    | split left low right push =>
      have hfull : ¬(before ++ (low, left) :: (push, right) :: after).length ≤ indexMax := by
        have hlength := congrArg List.length hslot.eq
        simp only [List.length_append, List.length_cons] at hlength ⊢
        omega
      simp only [graft, if_neg hfull]
      cases fresh (height + 1) <;> simp

/-- A node that is kept has every label that was asked for below it. -/
theorem granted_of_kept {t u : Tree α κ ρ height} (hsolid : Solid height t)
    (hput : put key leafMax indexMax fresh r height t = .kept u) :
    ∀ level < demand key leafMax indexMax r height t, fresh level ≠ none := by
  cases hsplit : willSplit key leafMax indexMax r height t with
  | true => exact absurd hput (put_ne_kept hsolid hsplit u)
  | false =>
    induction height with
    | zero =>
      rw [demand, hsplit, if_neg Bool.false_ne_true]
      exact fun level hlevel ↦ absurd hlevel (Nat.not_lt_zero level)
    | succ height ih =>
      obtain ⟨a, es⟩ := t
      obtain ⟨before, entry, after, hslot⟩ := exists_slotted hsolid.1 (key r)
      have hentry := hsolid.2 entry hslot.mem
      have hdemand : demand key leafMax indexMax r (height + 1) (a, es) =
          demand key leafMax indexMax r height entry.2 := by
        rw [demand, hsplit, if_neg Bool.false_ne_true, hslot.getElem?]
      rw [hdemand]
      rw [hslot.put] at hput
      cases hbelow : put key leafMax indexMax fresh r height entry.2 with
      | refused v => simp [hbelow, graft] at hput
      | kept v =>
        cases hchild : willSplit key leafMax indexMax r height entry.2 with
        | true => exact absurd hbelow (put_ne_kept hentry hchild v)
        | false => exact ih hentry hbelow hchild
      | split left low right push =>
        have hle : demand key leafMax indexMax r height entry.2 ≤ height + 1 := demand_le entry.2
        exact fun level hlevel ↦ granted_of_split hentry hbelow level (by omega)

/-- An insertion that is refused the first label leaves the tree alone. -/
theorem put_of_none (hnone : fresh 0 = none) (t : Tree α κ ρ height) :
    (∃ u, put key leafMax indexMax fresh r height t = .kept u) ∨
      put key leafMax indexMax fresh r height t = .refused t := by
  induction height with
  | zero =>
    obtain ⟨a, rs⟩ := t
    rw [put]
    cases leafFind (rs.map key) (key r) with
    | found i => exact Or.inl ⟨_, rfl⟩
    | absent i =>
      simp only [settleLeaf, hnone]
      split_ifs
      · exact Or.inl ⟨_, rfl⟩
      · exact Or.inr rfl
  | succ height ih =>
    obtain ⟨a, es⟩ := t
    rw [put]
    cases hslot : es[route es (key r)]? with
    | none => exact Or.inl ⟨_, rfl⟩
    | some e =>
      obtain ⟨hlt, rfl⟩ := List.getElem?_eq_some_iff.mp hslot
      rcases ih es[route es (key r)].2 with ⟨u, hput⟩ | hput
      · exact Or.inl ⟨_, by simp only [hput]; rfl⟩
      · right
        have hsplit : es.take (route es (key r)) ++ es[route es (key r)] ::
            es.drop (route es (key r) + 1) = es := by
          rw [← List.drop_eq_getElem_cons hlt, List.take_append_drop]
        simp only [hput, graft, Prod.mk.eta, hsplit]

namespace Root

/-- The number of labels an insertion asks for. -/
def demand (key : ρ → κ) (leafMax indexMax : ℕ) (r : ρ) : Root α κ ρ → ℕ
  | empty => 1
  | node height t =>
    if willSplit key leafMax indexMax r height t then height + 2
    else SearchTree.demand key leafMax indexMax r height t

theorem demand_le (root : Root α κ ρ) : root.demand key leafMax indexMax r ≤ root.height + 2 := by
  cases root with
  | empty => exact Nat.le_succ 1
  | node height t =>
    rw [demand]
    split_ifs
    · exact le_rfl
    · exact (SearchTree.demand_le t).trans (Nat.le_succ _)

/-- No index node of the tree is without entries. -/
def Solid : Root α κ ρ → Prop
  | empty => True
  | node height t => SearchTree.Solid height t

variable {root : Root α κ ρ}

theorem Ordered.solid (hordered : root.Ordered key) : root.Solid := by
  cases root with
  | empty => trivial
  | node height t => exact SearchTree.Ordered.solid hordered

/-- An insertion that gets all labels it asks for is done. -/
theorem put_granted (hsolid : root.Solid)
    (hfresh : ∀ level < root.demand key leafMax indexMax r, fresh level ≠ none) :
    (root.put key leafMax indexMax fresh r).2 = true := by
  cases root with
  | empty =>
    obtain ⟨b, hb⟩ := Option.ne_none_iff_exists'.mp (hfresh 0 Nat.zero_lt_one)
    rw [put, hb]
  | node height t =>
    cases hsplit : willSplit key leafMax indexMax r height t with
    | true =>
      rw [demand, if_pos hsplit] at hfresh
      exact put_done fun level hlevel ↦ hfresh level (Nat.lt_succ_of_le hlevel)
    | false =>
      rw [demand, hsplit, if_neg (by simp)] at hfresh
      rw [put]
      cases hput : SearchTree.put key leafMax indexMax fresh r height t with
      | kept u => rfl
      | split left low right push =>
        rw [willSplit_of_split hsolid hput] at hsplit
        cases hsplit
      | refused u =>
        -- With a label for the levels it does not ask for, the insertion could not be refused.
        let filled (level : ℕ) : Option α :=
          if level < SearchTree.demand key leafMax indexMax r height t then fresh level
          else some (label height t)
        have hsame : ∀ level < SearchTree.demand key leafMax indexMax r height t,
            fresh level = filled level := fun level hlevel ↦ (if_pos hlevel).symm
        rw [put_congr_demand hsolid hsame] at hput
        refine absurd hput (put_ne_refused (fun level _ ↦ ?_) u)
        by_cases hlevel : level < SearchTree.demand key leafMax indexMax r height t
        · rw [← hsame level hlevel]
          exact hfresh level hlevel
        · simp [filled, hlevel]

/-- An insertion that is done got all labels it asked for. -/
theorem granted_of_put (hsolid : root.Solid)
    (hdone : (root.put key leafMax indexMax fresh r).2 = true) :
    ∀ level < root.demand key leafMax indexMax r, fresh level ≠ none := by
  cases root with
  | empty =>
    intro level hlevel hnone
    obtain rfl := Nat.lt_one_iff.mp hlevel
    rw [put, hnone] at hdone
    cases hdone
  | node height t =>
    rw [put] at hdone
    rw [demand]
    cases hput : SearchTree.put key leafMax indexMax fresh r height t with
    | refused u =>
      rw [hput] at hdone
      cases hdone
    | kept u =>
      have hsplit : willSplit key leafMax indexMax r height t = false := by
        by_contra hfull
        exact put_ne_kept hsolid (Bool.eq_true_of_not_eq_false hfull) u hput
      rw [hsplit, if_neg Bool.false_ne_true]
      exact granted_of_kept hsolid hput
    | split left low right push =>
      rw [willSplit_of_split hsolid hput, if_pos rfl]
      have hbelow := granted_of_split hsolid hput
      intro level hlevel
      rcases Nat.lt_or_ge level (height + 1) with hlt | hge
      · exact hbelow level (Nat.le_of_lt_succ hlt)
      · obtain rfl : level = height + 1 := by omega
        intro hnone
        simp only [hput, hnone] at hdone
        cases hdone

/-- An insertion that is refused the first label it asks for leaves the tree as it was. -/
theorem put_ungranted (hnone : fresh 0 = none)
    (hrefused : (root.put key leafMax indexMax fresh r).2 = false) :
    (root.put key leafMax indexMax fresh r).1 = root := by
  cases root with
  | empty => rw [put, hnone]
  | node height t =>
    rw [put] at hrefused ⊢
    have hcases : (∃ u, SearchTree.put key leafMax indexMax fresh r height t = .kept u) ∨
        SearchTree.put key leafMax indexMax fresh r height t = .refused t := put_of_none hnone t
    rcases hcases with ⟨u, hput⟩ | hput
    · rw [hput] at hrefused
      cases hrefused
    · rw [hput]

end Root

end Obmafs3.Library.SearchTree
