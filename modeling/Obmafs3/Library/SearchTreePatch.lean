import Obmafs3.Library.SearchTreeDemand
import Obmafs3.Library.SearchTreeRefused
import Mathlib.Data.List.Nodup

/-!
# Search trees with a node replaced

A leaf may come to stand in place of a node, with all that the node had below it. `under` lists the
records below the nodes with a label, and `lookupPatched` searches the tree with a leaf in their
place. A record that is under the label is lost to the search, unless the leaf has its key, and every
other record is found as before.

`met` is the label of the node that a search meets at a depth. An insertion rewrites the nodes that
it meets and the fresh ones only, so it keeps what is under every other label.
-/

set_option autoImplicit false
set_option linter.unusedSectionVars false

namespace Obmafs3.Library.SearchTree

open Search

variable {α κ ρ : Type} [LinearOrder κ]

/-- The label of the node that a search meets at a depth. -/
def met (k : κ) : (height : ℕ) → Tree α κ ρ height → ℕ → Option α
  | height, t, 0 => some (label height t)
  | 0, _, _ + 1 => none
  | height + 1, (_, es), depth + 1 =>
    match es[route es k]? with
    | none => none
    | some e => met k height e.2 depth

theorem met_mem_row {k : κ} {height depth : ℕ} {t : Tree α κ ρ height} {b : α}
    (hmet : met k height t depth = some b) : depth ≤ height ∧ b ∈ row height t (height - depth) := by
  induction height generalizing depth with
  | zero =>
    cases depth with
    | zero =>
      rw [met, Option.some.injEq] at hmet
      exact ⟨le_rfl, by rw [Nat.sub_zero, row_self, hmet]; exact List.mem_singleton_self b⟩
    | succ depth => simp [met] at hmet
  | succ height ih =>
    cases depth with
    | zero =>
      rw [met, Option.some.injEq] at hmet
      exact ⟨Nat.zero_le _, by rw [Nat.sub_zero, row_self, hmet]; exact List.mem_singleton_self b⟩
    | succ depth =>
      obtain ⟨a, es⟩ := t
      rw [met] at hmet
      cases hslot : es[route es k]? with
      | none => simp [hslot] at hmet
      | some e =>
        rw [hslot] at hmet
        obtain ⟨hle, hmem⟩ := ih hmet
        refine ⟨Nat.succ_le_succ hle, ?_⟩
        rw [Nat.succ_sub_succ, row_index a es (Nat.sub_le _ _)]
        exact List.mem_flatMap.mpr ⟨e, List.mem_of_getElem? hslot, hmem⟩

variable [DecidableEq α]

/-- The records below the nodes with a label. -/
def under (b : α) : (height : ℕ) → Tree α κ ρ height → List ρ
  | 0, (a, rs) => if a = b then rs else []
  | height + 1, (a, es) =>
    if a = b then records (height + 1) (a, es) else es.flatMap fun e ↦ under b height e.2

/-- A search of the tree with a leaf in place of the nodes with a label. -/
def lookupPatched (key : ρ → κ) (b : α) (leaf : List ρ) (k : κ) :
    (height : ℕ) → Tree α κ ρ height → Option ρ
  | 0, (a, rs) => lookup key k 0 (a, if a = b then leaf else rs)
  | height + 1, (a, es) =>
    if a = b then lookup key k 0 (b, leaf)
    else
      match es[route es k]? with
      | none => none
      | some e => lookupPatched key b leaf k height e.2

variable {key : ρ → κ} {b : α} {leaf : List ρ} {k : κ} {r : ρ}

/-! ### Searches -/

theorem leaf_lookup_nil (a : α) : lookup key k 0 (a, []) = none :=
  leaf_lookup_eq List.Pairwise.nil k a

theorem leaf_lookup_singleton (a : α) :
    lookup key k 0 (a, [r]) = if key r = k then some r else none := by
  rw [leaf_lookup_eq (List.pairwise_singleton _ _)]
  by_cases hkey : key r = k <;> simp [hkey]

variable {height : ℕ} {t : Tree α κ ρ height}

theorem mem_records_of_under (hr : r ∈ under b height t) : r ∈ records height t := by
  induction height with
  | zero =>
    obtain ⟨a, rs⟩ := t
    rw [under] at hr
    split_ifs at hr
    · exact hr
    · cases hr
  | succ height ih =>
    obtain ⟨a, es⟩ := t
    rw [under] at hr
    split_ifs at hr
    · exact hr
    · obtain ⟨e, he, hr⟩ := List.mem_flatMap.mp hr
      exact List.mem_flatMap.mpr ⟨e, he, ih hr⟩

/-- A search that meets the label ends in the leaf. -/
theorem lookupPatched_of_met {height depth : ℕ} {t : Tree α κ ρ height}
    (hmet : met k height t depth = some b) :
    lookupPatched key b leaf k height t = lookup key k 0 (b, leaf) := by
  induction height generalizing depth with
  | zero =>
    obtain ⟨a, rs⟩ := t
    cases depth with
    | zero =>
      obtain rfl : a = b := Option.some.inj hmet
      rw [lookupPatched, if_pos rfl]
    | succ depth => simp [met] at hmet
  | succ height ih =>
    obtain ⟨a, es⟩ := t
    rw [lookupPatched]
    split_ifs with hlabel
    · rfl
    · cases depth with
      | zero => exact absurd (Option.some.inj hmet) hlabel
      | succ depth =>
        rw [met] at hmet
        cases hslot : es[route es k]? with
        | none => simp [hslot] at hmet
        | some e =>
          rw [hslot] at hmet
          exact ih hmet

/-- A record that is not under the label is found as before. -/
theorem lookupPatched_of_notMem (hfound : lookup key k height t = some r)
    (hr : r ∉ under b height t) : lookupPatched key b leaf k height t = some r := by
  have hmem := lookup_mem hfound
  induction height with
  | zero =>
    obtain ⟨a, rs⟩ := t
    rw [under] at hr
    rw [lookupPatched]
    split_ifs at hr ⊢ with hlabel
    · exact absurd hmem hr
    · exact hfound
  | succ height ih =>
    obtain ⟨a, es⟩ := t
    rw [under] at hr
    rw [lookupPatched]
    split_ifs at hr ⊢ with hlabel
    · exact absurd hmem hr
    · rw [lookup] at hfound
      cases hslot : es[route es k]? with
      | none => simp [hslot] at hfound
      | some e =>
        rw [hslot] at hfound
        exact ih hfound
          (fun h ↦ hr (List.mem_flatMap.mpr ⟨e, List.mem_of_getElem? hslot, h⟩)) (lookup_mem hfound)

/-- A search for a record under the label ends in the leaf. -/
theorem lookupPatched_of_mem (hordered : Ordered key height t) (hr : r ∈ under b height t) :
    lookupPatched key b leaf (key r) height t = lookup key (key r) 0 (b, leaf) := by
  induction height with
  | zero =>
    obtain ⟨a, rs⟩ := t
    rw [under] at hr
    rw [lookupPatched]
    split_ifs at hr ⊢ with hlabel
    · rw [hlabel]
    · cases hr
  | succ height ih =>
    obtain ⟨a, es⟩ := t
    rw [under] at hr
    rw [lookupPatched]
    split_ifs at hr ⊢ with hlabel
    · rfl
    · -- Only the subtree that the search follows holds the key.
      obtain ⟨before, entry, after, hrouted⟩ := hordered.route (key r)
      obtain ⟨e, he, hr⟩ := List.mem_flatMap.mp hr
      have hentry : e = entry := by
        rw [hrouted.eq] at he
        rcases List.mem_append.mp he with he | he
        · exact absurd (hrouted.before_lt hordered.2.2 he (mem_records_of_under hr)) (lt_irrefl _)
        · rcases List.mem_cons.mp he with rfl | he
          · rfl
          · exact absurd (hrouted.lt_after hordered.2.2 he (mem_records_of_under hr)) (lt_irrefl _)
      subst hentry
      rw [hrouted.getElem?]
      exact ih (hordered.2.1 e hrouted.mem) hr

theorem lookup_of_lookupPatched_nil (hfound : lookupPatched key b [] k height t = some r) :
    lookup key k height t = some r := by
  induction height with
  | zero =>
    obtain ⟨a, rs⟩ := t
    rw [lookupPatched] at hfound
    split_ifs at hfound
    · rw [leaf_lookup_nil] at hfound
      cases hfound
    · exact hfound
  | succ height ih =>
    obtain ⟨a, es⟩ := t
    rw [lookupPatched] at hfound
    split_ifs at hfound
    · rw [leaf_lookup_nil] at hfound
      cases hfound
    · rw [lookup]
      cases hslot : es[route es k]? with
      | none => simp [hslot] at hfound
      | some e =>
        rw [hslot] at hfound
        exact ih hfound

/-- With nothing in place of the nodes, a search finds the records that are not under the label. -/
theorem lookupPatched_nil (hordered : Ordered key height t) :
    lookupPatched key b [] k height t = some r ↔
      lookup key k height t = some r ∧ r ∉ under b height t := by
  constructor
  · intro hfound
    have hbefore := lookup_of_lookupPatched_nil hfound
    refine ⟨hbefore, fun hr ↦ ?_⟩
    rw [← lookup_key hbefore, lookupPatched_of_mem hordered hr, leaf_lookup_nil] at hfound
    cases hfound
  · exact fun h ↦ lookupPatched_of_notMem h.1 h.2

/-! ### Insertions -/

/-- The records under a label in an outcome that was not refused. -/
def Outcome.Under {height : ℕ} (b : α) (rs : List ρ) : Outcome α κ ρ height → Prop
  | .kept t => under b height t = rs
  | .split left _ right _ => under b height left ++ under b height right = rs
  | .refused _ => True

theorem graft_under {height indexMax : ℕ} {fresh : Option α} {a : α}
    {before after : List (κ × Tree α κ ρ height)} {k : κ} {o : Outcome α κ ρ height} {rs : List ρ}
    (ha : a ≠ b) (hfresh : fresh ≠ some b) (ho : o.Under b rs) :
    (graft indexMax fresh a before k after o).Under b
      ((before.flatMap fun e ↦ under b height e.2) ++ rs ++
        after.flatMap fun e ↦ under b height e.2) := by
  cases o with
  | kept t =>
    simp only [Outcome.Under] at ho
    simp [graft, Outcome.Under, under, ha, ho]
  | refused t => trivial
  | split left low right push =>
    simp only [Outcome.Under] at ho
    simp only [graft]
    split_ifs
    · simp [Outcome.Under, under, ha, ← ho]
    · cases fresh with
      | none => trivial
      | some c =>
        have hc : c ≠ b := fun h ↦ hfresh (congrArg some h)
        simp only [Outcome.Under, under, if_neg ha, if_neg hc]
        rw [← List.flatMap_append, List.take_append_drop]
        simp [← ho]

/-- An insertion keeps what is under a label that it does not meet. -/
theorem put_under {leafMax indexMax : ℕ} {fresh : ℕ → Option α} {r : ρ} (hsolid : Solid height t)
    (hmet : ∀ depth, met (key r) height t depth ≠ some b) (hfresh : ∀ level, fresh level ≠ some b) :
    (put key leafMax indexMax fresh r height t).Under b (under b height t) := by
  induction height with
  | zero =>
    obtain ⟨a, rs⟩ := t
    have ha : a ≠ b := fun h ↦ hmet 0 (congrArg some h)
    rw [put, under, if_neg ha]
    cases leafFind (rs.map key) (key r) with
    | found i => exact if_neg ha
    | absent i =>
      simp only [settleLeaf]
      split_ifs
      · exact if_neg ha
      · cases hc : fresh 0 with
        | none => trivial
        | some c =>
          have hne : c ≠ b := fun h ↦ hfresh 0 (hc.trans (congrArg some h))
          simp [Outcome.Under, under, ha, hne]
  | succ height ih =>
    obtain ⟨a, es⟩ := t
    have ha : a ≠ b := fun h ↦ hmet 0 (congrArg some h)
    obtain ⟨before, entry, after, hslot⟩ := exists_slotted hsolid.1 (key r)
    have hentry : ∀ depth, met (key r) height entry.2 depth ≠ some b := fun depth h ↦
      hmet (depth + 1) (by rw [met, hslot.getElem?]; exact h)
    have hunder : under b (height + 1) (a, es) =
        (before.flatMap fun e ↦ under b height e.2) ++ under b height entry.2 ++
          after.flatMap fun e ↦ under b height e.2 := by
      rw [under, if_neg ha, hslot.eq]
      simp
    rw [hslot.put, hunder]
    exact graft_under ha (hfresh (height + 1)) (ih (hsolid.2 entry hslot.mem) hentry)

/-! ### Whole trees -/

namespace Root

def met (k : κ) : Root α κ ρ → ℕ → Option α
  | empty, _ => none
  | node height t, depth => SearchTree.met k height t depth

/-- The labels of the nodes of one height, from left to right. -/
def row : Root α κ ρ → ℕ → List α
  | empty, _ => []
  | node height t, level => SearchTree.row height t level

def under (b : α) : Root α κ ρ → List ρ
  | empty => []
  | node height t => SearchTree.under b height t

def lookupPatched (key : ρ → κ) (b : α) (leaf : List ρ) (k : κ) : Root α κ ρ → Option ρ
  | empty => none
  | node height t => SearchTree.lookupPatched key b leaf k height t

/-- The label to the right, in its row, of the node that a search meets at a level. -/
def beside (k : κ) (root : Root α κ ρ) (level : ℕ) : Option α :=
  match root.met k (root.height - level) with
  | none => none
  | some a => (root.row level)[(root.row level).idxOf a + 1]?

/-- Every node has a label of its own. -/
structure Distinct (root : Root α κ ρ) : Prop where
  nodup : ∀ level, (root.row level).Nodup
  level_eq : ∀ b i j, b ∈ root.row i → b ∈ root.row j → i = j

variable {root : Root α κ ρ}

theorem lookup_key (hfound : root.lookup key k = some r) : key r = k := by
  cases root with
  | empty => cases hfound
  | node height t => exact SearchTree.lookup_key hfound

variable {depth : ℕ} {level : ℕ}

theorem met_mem_row (hmet : root.met k depth = some b) :
    depth ≤ root.height ∧ b ∈ root.row (root.height - depth) := by
  cases root with
  | empty => cases hmet
  | node height t => exact SearchTree.met_mem_row hmet

theorem lookupPatched_of_met (hmet : root.met k depth = some b) :
    root.lookupPatched key b leaf k = SearchTree.lookup key k 0 (b, leaf) := by
  cases root with
  | empty => cases hmet
  | node height t => exact SearchTree.lookupPatched_of_met hmet

theorem lookupPatched_of_notMem (hfound : root.lookup key k = some r) (hr : r ∉ root.under b) :
    root.lookupPatched key b leaf k = some r := by
  cases root with
  | empty => cases hfound
  | node height t => exact SearchTree.lookupPatched_of_notMem hfound hr

theorem lookupPatched_of_mem (hordered : root.Ordered key) (hr : r ∈ root.under b) :
    root.lookupPatched key b leaf (key r) = SearchTree.lookup key (key r) 0 (b, leaf) := by
  cases root with
  | empty => cases hr
  | node height t => exact SearchTree.lookupPatched_of_mem hordered hr

theorem lookupPatched_nil (hordered : root.Ordered key) :
    root.lookupPatched key b [] k = some r ↔ root.lookup key k = some r ∧ r ∉ root.under b := by
  cases root with
  | empty => simp [lookupPatched, lookup]
  | node height t => exact SearchTree.lookupPatched_nil hordered

theorem lookup_of_under (hordered : root.Ordered key) (hr : r ∈ root.under b) :
    root.lookup key (key r) = some r := by
  cases root with
  | empty => cases hr
  | node height t =>
    obtain ⟨i, hi, rfl⟩ := List.mem_iff_getElem.mp (mem_records_of_under hr)
    rw [lookup_eq hordered]
    exact find?_eq_getElem? (SearchTree.Ordered.records_pairwise hordered)
      (List.getElem?_eq_getElem hi)

theorem under_put {leafMax indexMax : ℕ} {fresh : ℕ → Option α} (hsolid : root.Solid)
    (hmet : ∀ depth, root.met (key r) depth ≠ some b) (hfresh : ∀ level, fresh level ≠ some b)
    (hdone : (root.put key leafMax indexMax fresh r).2 = true) :
    (root.put key leafMax indexMax fresh r).1.under b = root.under b := by
  cases root with
  | empty =>
    simp only [put] at hdone ⊢
    cases ha : fresh 0 with
    | none => rfl
    | some a => exact if_neg fun h ↦ hfresh 0 (ha.trans (congrArg some h))
  | node height t =>
    have hunder : (SearchTree.put key leafMax indexMax fresh r height t).Under b _ :=
      SearchTree.put_under hsolid hmet hfresh
    simp only [put] at hdone ⊢
    generalize SearchTree.put key leafMax indexMax fresh r height t = out at hdone hunder ⊢
    cases out with
    | kept u => exact hunder
    | refused u => cases hdone
    | split left low right push =>
      cases hc : fresh (height + 1) with
      | none => simp [hc] at hdone
      | some c =>
        have hne : c ≠ b := fun h ↦ hfresh (height + 1) (hc.trans (congrArg some h))
        change SearchTree.under b height left ++ SearchTree.under b height right = _ at hunder
        simpa [under, SearchTree.under, hne] using hunder

theorem beside_mem_row (hb : root.beside k level = some b) : b ∈ root.row level := by
  unfold beside at hb
  cases ha : root.met k (root.height - level) with
  | none => simp [ha] at hb
  | some a =>
    rw [ha] at hb
    exact List.mem_of_getElem? hb

/-- The node to the right of one that a search meets is not met. -/
theorem met_ne_beside (hdistinct : root.Distinct) (hb : root.beside k level = some b) (depth : ℕ) :
    root.met k depth ≠ some b := by
  intro hmet
  obtain ⟨hle, hrow⟩ := met_mem_row hmet
  have hmem := beside_mem_row hb
  unfold beside at hb
  cases ha : root.met k (root.height - level) with
  | none => simp [ha] at hb
  | some a =>
    simp only [ha] at hb
    have hlevel : level = root.height - depth := hdistinct.level_eq b _ _ hmem hrow
    have hab : a = b := by
      rw [hlevel, Nat.sub_sub_self hle, hmet] at ha
      exact (Option.some.inj ha).symm
    subst hab
    obtain ⟨hlt, heq⟩ := List.getElem?_eq_some_iff.mp hb
    have hsame : (root.row level)[(root.row level).idxOf a] = a := List.getElem_idxOf (by omega)
    have hindex := (List.Nodup.getElem_inj_iff (hdistinct.nodup level)).mp (heq.trans hsame.symm)
    omega

end Root

end Obmafs3.Library.SearchTree
