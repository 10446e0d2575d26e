import Obmafs3.Library.SearchTreePick

/-!
# Long runs of ascending insertions

A record above every key of a tree goes to the end of the last leaf. `extendRight` puts a list of
records there as long as they have room, `appendRight` one record, whether the leaf divides or not.
`Root.putRun_kept` and `Root.putRun_split` say with them what a run of insertions does until the
last leaf is full again.
-/

set_option autoImplicit false
set_option linter.unusedSectionVars false

namespace Obmafs3.Library.SearchTree

open Search

variable {α κ ρ : Type} [LinearOrder κ]

/-- A key at or above all separators is looked for in the last slot. -/
def PicksLast (pick : List κ → κ → ℕ) : Prop :=
  ∀ (keys : List κ) (k : κ), (∀ x ∈ keys, x ≤ k) → pick keys k = keys.length - 1

theorem picksLast_indexFind : PicksLast (κ := κ) indexFind := fun _ _ ↦ indexFind_beyond

/-! ### The right edge -/

def lastLeaf : (height : ℕ) → Tree α κ ρ height → List ρ
  | 0, (_, rs) => rs
  | height + 1, (_, es) =>
    match es.getLast? with
    | none => []
    | some e => lastLeaf height e.2

/-- Put records at the end of the last leaf. -/
def extendRight (qs : List ρ) : (height : ℕ) → Tree α κ ρ height → Tree α κ ρ height
  | 0, (a, rs) => (a, rs ++ qs)
  | height + 1, (a, es) =>
    match es.getLast? with
    | none => (a, es)
    | some e => (a, es.dropLast ++ [(e.1, extendRight qs height e.2)])

/-- Put a record at the end of the last leaf, which divides if it is full. -/
def appendRight (key : ρ → κ) (leafMax indexMax : ℕ) (fresh : ℕ → Option α) (q : ρ) :
    (height : ℕ) → Tree α κ ρ height → Outcome α κ ρ height
  | 0, (a, rs) => settleLeaf key leafMax (fresh 0) q a rs (rs ++ [q])
  | height + 1, (a, es) =>
    match es.getLast? with
    | none => .kept (a, es)
    | some e =>
      graft indexMax (fresh (height + 1)) a es.dropLast e.1 []
        (appendRight key leafMax indexMax fresh q height e.2)

variable {key : ρ → κ} {pick : List κ → κ → ℕ} {leafMax indexMax : ℕ} {fresh : ℕ → Option α}

theorem exists_concat {β : Type} {xs : List β} {x : β} (hlast : xs.getLast? = some x) :
    xs = xs.dropLast ++ [x] := by
  obtain ⟨front, rfl⟩ := List.getLast?_eq_some_iff.mp hlast
  rw [List.dropLast_concat]

section Graft

variable {height : ℕ} {a : α} {before after : List (κ × Tree α κ ρ height)} {k low push : κ}
  {left right : Tree α κ ρ height}

theorem graft_room {fresh : Option α}
    (hroom : (before ++ (low, left) :: (push, right) :: after).length ≤ indexMax) :
    graft indexMax fresh a before k after (.split left low right push) =
      .kept (a, before ++ (low, left) :: (push, right) :: after) :=
  if_pos hroom

theorem graft_full {b : α}
    (hfull : ¬(before ++ (low, left) :: (push, right) :: after).length ≤ indexMax) :
    graft indexMax (some b) a before k after (.split left low right push) =
      .split (a, (before ++ (low, left) :: (push, right) :: after).take (half indexMax))
        (firstKey low ((before ++ (low, left) :: (push, right) :: after).map Prod.fst))
        (b, (before ++ (low, left) :: (push, right) :: after).drop (half indexMax))
        (firstKey push (((before ++ (low, left) :: (push, right) :: after).drop
          (half indexMax)).map Prod.fst)) :=
  if_neg hfull

end Graft

variable {height : ℕ} {t : Tree α κ ρ height} {qs : List ρ} {q : ρ}

/-- A record above every key of a tree goes to its right edge. -/
theorem putBy_right (hpick : PicksLast pick) (habove : ∀ x ∈ span key height t, x < key q) :
    putBy pick key leafMax indexMax fresh q height t =
      appendRight key leafMax indexMax fresh q height t := by
  induction height with
  | zero =>
    obtain ⟨a, rs⟩ := t
    have hfind : leafFind (rs.map key) (key q) = .absent (rs.map key).length :=
      leafFind_beyond habove
    rw [putBy, put, hfind, appendRight]
    simp only [List.length_map, List.insertIdx_length_self]
  | succ height ih =>
    obtain ⟨a, es⟩ := t
    have hslot : pick (es.map Prod.fst) (key q) = es.length - 1 := by
      rw [hpick _ _ fun x hx ↦ ?_, List.length_map]
      obtain ⟨e, he, rfl⟩ := List.mem_map.mp hx
      exact (habove _ (List.mem_flatMap.mpr ⟨e, he, List.mem_cons_self⟩)).le
    rw [putBy, appendRight]
    simp only [hslot]
    cases hlast : es.getLast? with
    | none =>
      rw [List.getLast?_eq_none_iff] at hlast
      subst hlast
      rfl
    | some e =>
      rw [← List.getLast?_eq_getElem?, hlast]
      have he : e ∈ es := List.mem_of_getLast? hlast
      have hdrop : es.drop (es.length - 1 + 1) = [] := List.drop_eq_nil_of_le (by omega)
      simp only [hdrop, ← List.dropLast_eq_take]
      rw [ih fun x hx ↦ habove x (List.mem_flatMap.mpr ⟨e, he, List.mem_cons_of_mem _ hx⟩)]

/-- While the last leaf has room it is extended. -/
theorem appendRight_room (hroom : (lastLeaf height t).length < leafMax) :
    appendRight key leafMax indexMax fresh q height t = .kept (extendRight [q] height t) := by
  induction height with
  | zero =>
    obtain ⟨a, rs⟩ := t
    have hlength : (rs ++ [q]).length ≤ leafMax := by
      rw [List.length_append]
      exact hroom
    unfold appendRight settleLeaf
    rw [if_pos hlength]
    rfl
  | succ height ih =>
    obtain ⟨a, es⟩ := t
    rw [appendRight, extendRight]
    rw [lastLeaf] at hroom
    cases hlast : es.getLast? with
    | none => rfl
    | some e =>
      rw [hlast] at hroom
      dsimp only at hroom ⊢
      rw [ih hroom]
      rfl

theorem lastLeaf_extendRight : (lastLeaf height (extendRight qs height t)).length ≤
      (lastLeaf height t).length + qs.length := by
  induction height with
  | zero => simp [lastLeaf, extendRight]
  | succ height ih =>
    obtain ⟨a, es⟩ := t
    rw [extendRight]
    cases hlast : es.getLast? with
    | none => simp [lastLeaf, hlast]
    | some e => simpa [lastLeaf, hlast] using ih

theorem extendRight_append :
    extendRight qs height (extendRight [q] height t) = extendRight (q :: qs) height t := by
  induction height with
  | zero => simp [extendRight]
  | succ height ih =>
    obtain ⟨a, es⟩ := t
    cases hlast : es.getLast? with
    | none => simp [extendRight, hlast]
    | some e => simp [extendRight, hlast, ih]

theorem extendRight_nil : extendRight [] height t = t := by
  induction height with
  | zero => simp [extendRight]
  | succ height ih =>
    obtain ⟨a, es⟩ := t
    rw [extendRight]
    cases hlast : es.getLast? with
    | none => rfl
    | some e =>
      simp only [ih]
      exact Prod.ext rfl (exists_concat hlast).symm

theorem mem_span_extendRight {x : κ} (hx : x ∈ span key height (extendRight qs height t)) :
    x ∈ span key height t ∨ x ∈ qs.map key := by
  induction height with
  | zero =>
    obtain ⟨a, rs⟩ := t
    simpa [extendRight] using hx
  | succ height ih =>
    obtain ⟨a, es⟩ := t
    rw [extendRight] at hx
    cases hlast : es.getLast? with
    | none =>
      rw [hlast] at hx
      exact Or.inl hx
    | some e =>
      rw [hlast] at hx
      have hes := exists_concat hlast
      generalize es.dropLast = front at hx hes
      subst hes
      simp only [span_index, List.flatMap_append, List.mem_append, List.flatMap_singleton,
        List.mem_cons] at hx ⊢
      rcases hx with hx | rfl | hx
      · exact Or.inl (Or.inl hx)
      · exact Or.inl (Or.inr (Or.inl rfl))
      · exact (ih hx).imp_left fun h ↦ Or.inr (Or.inr h)

namespace Root

variable (key pick leafMax indexMax fresh) (maxHeight : ℕ)

/-- Insert records one after the other. There is no outcome when one is refused or the tree is
higher than `maxHeight` before it. -/
def putRun : List ρ → Root α κ ρ → Option (Root α κ ρ)
  | [], root => some root
  | q :: qs, root =>
    if maxHeight < root.height then none
    else
      match root.putBy pick key leafMax indexMax fresh q with
      | (next, true) => putRun qs next
      | (_, false) => none

variable {key pick leafMax indexMax fresh maxHeight} {root root' : Root α κ ρ}

theorem putRun_append {qs rs : List ρ} :
    putRun key pick leafMax indexMax fresh maxHeight (qs ++ rs) root =
      (putRun key pick leafMax indexMax fresh maxHeight qs root).bind
        (putRun key pick leafMax indexMax fresh maxHeight rs) := by
  induction qs generalizing root with
  | nil => rfl
  | cons q qs ih =>
    rw [List.cons_append, putRun, putRun]
    split_ifs with hdeep
    · rfl
    · rcases root.putBy pick key leafMax indexMax fresh q with ⟨next, - | -⟩
      · rfl
      · exact ih

/-- A run of insertions brings no keys but those of its records. -/
theorem mem_span_putRun {qs : List ρ}
    (hrun : putRun key pick leafMax indexMax fresh maxHeight qs root = some root') {x : κ}
    (hx : x ∈ root'.span key) : x ∈ root.span key ∨ x ∈ qs.map key := by
  induction qs generalizing root with
  | nil => exact Or.inl (Option.some.inj hrun ▸ hx)
  | cons q qs ih =>
    rw [putRun] at hrun
    split_ifs at hrun
    rcases hput : root.putBy pick key leafMax indexMax fresh q with ⟨next, - | -⟩
    · rw [hput] at hrun
      cases hrun
    · rw [hput] at hrun
      rw [List.map_cons, List.mem_cons]
      rcases ih hrun with hx | hx
      · obtain rfl : (root.putBy pick key leafMax indexMax fresh q).1 = next := by rw [hput]
        rcases mem_span_putBy hx with rfl | hx
        · exact Or.inr (Or.inl rfl)
        · exact Or.inl hx
      · exact Or.inr (Or.inr hx)

/-- Ascending records above every key of the tree that the last leaf has room for. -/
theorem putRun_room (hpick : PicksLast pick) {qs : List ρ} {height : ℕ} {t : Tree α κ ρ height}
    (hheight : height ≤ maxHeight)
    (hroom : (SearchTree.lastLeaf height t).length + qs.length ≤ leafMax)
    (hsorted : (qs.map key).Pairwise (· < ·))
    (habove : ∀ x ∈ SearchTree.span key height t, ∀ q ∈ qs, x < key q) :
    putRun key pick leafMax indexMax fresh maxHeight qs (node height t) =
      some (node height (SearchTree.extendRight qs height t)) := by
  induction qs generalizing t with
  | nil => rw [putRun, extendRight_nil]
  | cons q qs ih =>
    rw [List.length_cons] at hroom
    obtain ⟨hfirst, hsorted⟩ := List.pairwise_cons.mp hsorted
    have hput : (node height t).putBy pick key leafMax indexMax fresh q =
        (node height (SearchTree.extendRight [q] height t), true) := by
      rw [putBy, putBy_right hpick fun x hx ↦ habove x hx q List.mem_cons_self,
        appendRight_room (by omega)]
    have hlength : (SearchTree.lastLeaf height (SearchTree.extendRight [q] height t)).length ≤
        (SearchTree.lastLeaf height t).length + 1 := lastLeaf_extendRight
    have hdeep : ¬maxHeight < (node height t : Root α κ ρ).height := not_lt.mpr hheight
    rw [putRun, if_neg hdeep, hput]
    dsimp only
    rw [ih (by omega) hsorted fun x hx r hr ↦ ?_, extendRight_append]
    rcases mem_span_extendRight hx with hx | hx
    · exact habove x hx r (List.mem_cons_of_mem _ hr)
    · obtain rfl := List.mem_singleton.mp hx
      exact hfirst _ (List.mem_map_of_mem hr)

/-- A record with a place and the records behind it, all above every key of the tree. -/
theorem putRun_behind (hpick : PicksLast pick) {q : ρ} {qs : List ρ} {height : ℕ}
    {t : Tree α κ ρ height} (hroot : root.height ≤ maxHeight) (hheight : height ≤ maxHeight)
    (hput : root.putBy pick key leafMax indexMax fresh q = (node height t, true))
    (hroom : (SearchTree.lastLeaf height t).length + qs.length ≤ leafMax)
    (hsorted : ((q :: qs).map key).Pairwise (· < ·))
    (habove : ∀ x ∈ root.span key, ∀ r ∈ q :: qs, x < key r) :
    putRun key pick leafMax indexMax fresh maxHeight (q :: qs) root =
      some (node height (SearchTree.extendRight qs height t)) := by
  obtain ⟨hfirst, hsorted⟩ := List.pairwise_cons.mp hsorted
  rw [putRun, if_neg (not_lt.mpr hroot), hput]
  refine putRun_room hpick hheight hroom hsorted fun x hx r hr ↦ ?_
  have hspan : x ∈ (root.putBy pick key leafMax indexMax fresh q).1.span key := by
    rw [hput]
    exact hx
  rcases mem_span_putBy hspan with rfl | hx
  · exact hfirst _ (List.mem_map_of_mem hr)
  · exact habove x hx r (List.mem_cons_of_mem _ hr)

section Append

variable {q : ρ} {qs : List ρ} {height : ℕ} {t : Tree α κ ρ height}

theorem putRun_kept (hpick : PicksLast pick) {u : Tree α κ ρ height}
    (happend : appendRight key leafMax indexMax fresh q height t = .kept u)
    (hheight : height ≤ maxHeight)
    (hroom : (SearchTree.lastLeaf height u).length + qs.length ≤ leafMax)
    (hsorted : ((q :: qs).map key).Pairwise (· < ·))
    (habove : ∀ x ∈ SearchTree.span key height t, ∀ r ∈ q :: qs, x < key r) :
    putRun key pick leafMax indexMax fresh maxHeight (q :: qs) (node height t) =
      some (node height (SearchTree.extendRight qs height u)) := by
  refine putRun_behind hpick hheight hheight ?_ hroom hsorted habove
  rw [putBy, putBy_right hpick fun x hx ↦ habove x hx q List.mem_cons_self, happend]

theorem putRun_split (hpick : PicksLast pick) {left right : Tree α κ ρ height} {low push : κ}
    (happend : appendRight key leafMax indexMax fresh q height t = .split left low right push)
    {b : α} (hfresh : fresh (height + 1) = some b) (hheight : height + 1 ≤ maxHeight)
    (hroom : (SearchTree.lastLeaf height right).length + qs.length ≤ leafMax)
    (hsorted : ((q :: qs).map key).Pairwise (· < ·))
    (habove : ∀ x ∈ SearchTree.span key height t, ∀ r ∈ q :: qs, x < key r) :
    putRun key pick leafMax indexMax fresh maxHeight (q :: qs) (node height t) =
      some (node (height + 1)
        (b, [(low, left), (push, SearchTree.extendRight qs height right)])) := by
  have hput : (node height t).putBy pick key leafMax indexMax fresh q =
      (node (height + 1) (b, [(low, left), (push, right)]), true) := by
    rw [putBy, putBy_right hpick fun x hx ↦ habove x hx q List.mem_cons_self, happend]
    simp only [hfresh]
  exact putRun_behind hpick (Nat.le_of_succ_le hheight) hheight hput hroom hsorted habove

end Append

end Root

end Obmafs3.Library.SearchTree
