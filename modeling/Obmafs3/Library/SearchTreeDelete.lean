import Obmafs3.Library.SearchTreeRoot

/-!
# Removal that takes empty leaves out

A removal takes a record out of its leaf, and the leaf out of its parent when nothing is left in it.
It goes no further up: a root with one entry left gives way to its child, but an index node below
the root stays when its last entry goes, and then there is no way through it any more. `Unstranded`
says that this does not happen, and `delete_ordered` and `records_delete` what a removal does then.
-/

set_option autoImplicit false
set_option linter.unusedSectionVars false

namespace Obmafs3.Library.SearchTree

open Search

variable {α κ ρ : Type} [LinearOrder κ] (key : ρ → κ)

/-! ### Removal below a node -/

/-- Take a leaf out of the entries of its parent, or put what is left of it back. -/
def settleEntry {height : ℕ} (es : List (κ × Tree α κ ρ height)) (k : κ)
    (e : κ × Tree α κ ρ height) : List (κ × Tree α κ ρ height) :=
  if records height e.2 = [] then es.eraseIdx (route es k) else es.set (route es k) e

/-- Take out the record with a key, below a node that is not the root. -/
def delete (k : κ) : (height : ℕ) → Tree α κ ρ height → Tree α κ ρ height
  | 0, (a, rs) => (a, dropKey key k rs)
  | 1, (a, es) =>
    match es[route es k]? with
    | none => (a, es)
    | some e => (a, settleEntry es k (e.1, delete k 0 e.2))
  | height + 2, (a, es) =>
    match es[route es k]? with
    | none => (a, es)
    | some e => (a, es.set (route es k) (e.1, delete k (height + 1) e.2))

/-- A removal leaves an entry in every index node on its path. -/
def Unstranded (k : κ) : (height : ℕ) → Tree α κ ρ height → Prop
  | 0, _ => True
  | 1, (_, es) => ∀ e, es[route es k]? = some e → dropKey key k (records 0 e.2) = [] → 2 ≤ es.length
  | height + 2, (_, es) => ∀ e, es[route es k]? = some e → Unstranded k (height + 1) e.2

variable {key}

variable {height : ℕ} {es before after : List (κ × Tree α κ ρ height)}
  {entry : κ × Tree α κ ρ height}

theorem Slotted.eraseIdx {k : κ} (hslot : Slotted es k before entry after) :
    es.eraseIdx (route es k) = before ++ after := by
  rw [List.eraseIdx_eq_take_drop_succ, hslot.take, hslot.drop]

theorem Slotted.routed {k : κ} (hslot : Slotted es k before entry after)
    (hapart : es.Pairwise (Apart key)) : Routed es k before entry after := by
  obtain ⟨before', entry', after', hrouted⟩ :=
    exists_routed (List.ne_nil_of_mem hslot.mem) (separators_pairwise hapart) k
  obtain rfl : before' = before := by rw [← hrouted.take, hslot.take]
  obtain rfl : after' = after := by rw [← hrouted.drop, hslot.drop]
  obtain rfl : entry' = entry := Option.some_injective _ (by
    rw [← hrouted.getElem?, hslot.getElem?])
  exact hrouted

/-- What a removal does to the entries of an index node, when `t` is what it does to a child. -/
inductive Cut {height : ℕ} (es : List (κ × Tree α κ ρ height)) (k : κ)
    (t : Tree α κ ρ height → Tree α κ ρ height) : List (κ × Tree α κ ρ height) → Prop
  | put (before : List (κ × Tree α κ ρ height)) (entry : κ × Tree α κ ρ height)
      (after : List (κ × Tree α κ ρ height)) (hslot : Slotted es k before entry after) :
      Cut es k t (before ++ (entry.1, t entry.2) :: after)
  | taken (before : List (κ × Tree α κ ρ height)) (entry : κ × Tree α κ ρ height)
      (after : List (κ × Tree α κ ρ height)) (hslot : Slotted es k before entry after)
      (hempty : records height (t entry.2) = []) :
      Cut es k t (before ++ after)

section Cut

variable {height : ℕ} {es fs : List (κ × Tree α κ ρ height)} {k : κ}
  {t : Tree α κ ρ height → Tree α κ ρ height}

theorem cut_set (hne : es ≠ []) :
    ∃ e, es[route es k]? = some e ∧ Cut es k t (es.set (route es k) (e.1, t e.2)) := by
  obtain ⟨before, entry, after, hslot⟩ := exists_slotted hne k
  refine ⟨entry, hslot.getElem?, ?_⟩
  rw [hslot.set]
  exact .put before entry after hslot

theorem cut_settleEntry (hne : es ≠ []) :
    ∃ e, es[route es k]? = some e ∧ Cut es k t (settleEntry es k (e.1, t e.2)) := by
  obtain ⟨before, entry, after, hslot⟩ := exists_slotted hne k
  refine ⟨entry, hslot.getElem?, ?_⟩
  unfold settleEntry
  split_ifs with hempty
  · rw [hslot.eraseIdx]
    exact .taken before entry after hslot hempty
  · rw [hslot.set]
    exact .put before entry after hslot

theorem Cut.all {P : κ → Prop} {Q : ρ → Prop}
    (ht : ∀ u, All P Q height u → All P Q height (t u)) (hcut : Cut es k t fs)
    (hall : ∀ e ∈ es, P e.1 ∧ All P Q height e.2) : ∀ e ∈ fs, P e.1 ∧ All P Q height e.2 := by
  cases hcut with
  | put before entry after hslot =>
    rw [hslot.eq] at hall
    obtain ⟨hbefore, hrest⟩ := List.forall_mem_append.mp hall
    obtain ⟨hentry, hafter⟩ := List.forall_mem_cons.mp hrest
    exact List.forall_mem_append.mpr
      ⟨hbefore, List.forall_mem_cons.mpr ⟨⟨hentry.1, ht _ hentry.2⟩, hafter⟩⟩
  | taken before entry after hslot hempty =>
    rw [hslot.eq] at hall
    obtain ⟨hbefore, hrest⟩ := List.forall_mem_append.mp hall
    exact List.forall_mem_append.mpr ⟨hbefore, (List.forall_mem_cons.mp hrest).2⟩

theorem Cut.apart (ht : ∀ (P : κ → Prop) (Q : ρ → Prop) u, All P Q height u → All P Q height (t u))
    (hcut : Cut es k t fs) (hapart : es.Pairwise (Apart key)) : fs.Pairwise (Apart key) := by
  cases hcut with
  | put before entry after hslot =>
    rw [hslot.eq] at hapart
    obtain ⟨-, hright, hcross⟩ := List.pairwise_append.mp hapart
    refine apart_replace hapart (fun d hd ↦ ?_) fun g hg ↦ ?_
    · obtain ⟨hlt, hspan, hrecords⟩ := hcross d hd entry List.mem_cons_self
      exact ⟨hlt, hspan, forall_records_iff.mpr (ht _ _ _ (forall_records_iff.mp hrecords))⟩
    · obtain ⟨hlt, hspan, hrecords⟩ := List.rel_of_pairwise_cons hright hg
      exact ⟨hlt, forall_span_iff.mpr (ht _ _ _ (forall_span_iff.mp hspan)), hrecords⟩
  | taken before entry after hslot hempty =>
    rw [hslot.eq] at hapart
    exact hapart.sublist
      ((List.Sublist.refl before).append (List.sublist_cons_self entry after))

theorem Cut.ordered (hcut : Cut es k t fs)
    (ht : ∀ e, es[route es k]? = some e → Ordered key height e.2 → Ordered key height (t e.2))
    (hchildren : ∀ e ∈ es, Ordered key height e.2) : ∀ e ∈ fs, Ordered key height e.2 := by
  cases hcut with
  | put before entry after hslot =>
    have hentry := ht entry hslot.getElem? (hchildren entry hslot.mem)
    rw [hslot.eq] at hchildren
    obtain ⟨hbefore, hrest⟩ := List.forall_mem_append.mp hchildren
    exact List.forall_mem_append.mpr
      ⟨hbefore, List.forall_mem_cons.mpr ⟨hentry, (List.forall_mem_cons.mp hrest).2⟩⟩
  | taken before entry after hslot hempty =>
    rw [hslot.eq] at hchildren
    obtain ⟨hbefore, hrest⟩ := List.forall_mem_append.mp hchildren
    exact List.forall_mem_append.mpr ⟨hbefore, (List.forall_mem_cons.mp hrest).2⟩

/-- Only the record with the key goes, when that is all the child on the path loses. -/
theorem Cut.records_eq (hcut : Cut es k t fs) (hapart : es.Pairwise (Apart key))
    (ht : ∀ e, es[route es k]? = some e →
      records height (t e.2) = (records height e.2).filter (key · ≠ k)) :
    (fs.flatMap fun e ↦ records height e.2) =
      (es.flatMap fun e ↦ records height e.2).filter (key · ≠ k) := by
  have hkeep (gs : List (κ × Tree α κ ρ height))
      (hgs : ∀ e ∈ gs, ∀ r ∈ records height e.2, key r ≠ k) :
      (gs.flatMap fun e ↦ records height e.2).filter (key · ≠ k) =
        gs.flatMap fun e ↦ records height e.2 := by
    refine List.filter_eq_self.mpr fun r hr ↦ ?_
    obtain ⟨e, he, hr⟩ := List.mem_flatMap.mp hr
    simpa using hgs e he r hr
  cases hcut with
  | put before entry after hslot =>
    have hrouted := hslot.routed hapart
    have hbefore := hkeep before fun e he r hr ↦ (hrouted.before_lt hapart he hr).ne
    have hafter := hkeep after fun e he r hr ↦ (hrouted.lt_after hapart he hr).ne'
    conv_rhs => rw [hslot.eq]
    rw [List.flatMap_append, List.flatMap_append, List.flatMap_cons, List.flatMap_cons,
      List.filter_append, List.filter_append, hbefore, hafter, ht entry hslot.getElem?]
  | taken before entry after hslot hempty =>
    have hrouted := hslot.routed hapart
    have hbefore := hkeep before fun e he r hr ↦ (hrouted.before_lt hapart he hr).ne
    have hafter := hkeep after fun e he r hr ↦ (hrouted.lt_after hapart he hr).ne'
    rw [ht entry hslot.getElem?] at hempty
    conv_rhs => rw [hslot.eq]
    rw [List.flatMap_append, List.flatMap_append, List.flatMap_cons,
      List.filter_append, List.filter_append, hbefore, hafter, hempty, List.nil_append]

end Cut

section Delete

variable {k : κ}

theorem settleEntry_ne_nil {es : List (κ × Tree α κ ρ 0)} {e : κ × Tree α κ ρ 0}
    (hentry : es[route es k]? = some e)
    (hkeep : dropKey key k (records 0 e.2) = [] → 2 ≤ es.length) :
    settleEntry es k (e.1, delete key k 0 e.2) ≠ [] := by
  have hpos : 0 < es.length := List.length_pos_of_mem (List.mem_of_getElem? hentry)
  unfold settleEntry
  split_ifs with hempty
  · have hlt := (List.getElem?_eq_some_iff.mp hentry).1
    refine List.ne_nil_of_length_pos ?_
    rw [List.length_eraseIdx_of_lt hlt]
    exact Nat.sub_pos_of_lt (hkeep hempty)
  · exact List.ne_nil_of_length_pos (by rwa [List.length_set])

variable {height : ℕ} {t : Tree α κ ρ height}

/-- A removal cuts the entries of an index node, in one of its two ways. -/
theorem delete_index (key : ρ → κ) (k : κ) (a : α) {es : List (κ × Tree α κ ρ height)}
    (hne : es ≠ []) :
    ∃ fs, delete key k (height + 1) (a, es) = (a, fs) ∧ Cut es k (delete key k height) fs ∧
      (Unstranded key k (height + 1) (a, es) → fs ≠ []) := by
  cases height with
  | zero =>
    obtain ⟨e, hentry, hcut⟩ := cut_settleEntry (k := k) (t := delete key k 0) hne
    refine ⟨_, ?_, hcut, fun hkeep ↦ settleEntry_ne_nil hentry (hkeep e hentry)⟩
    simp only [delete, hentry]
  | succ height =>
    obtain ⟨e, hentry, hcut⟩ := cut_set (k := k) (t := delete key k (height + 1)) hne
    refine ⟨_, by rw [delete, hentry], hcut, fun _ ↦ ?_⟩
    exact List.ne_nil_of_length_pos (by rwa [List.length_set, List.length_pos_iff])

theorem delete_all {P : κ → Prop} {Q : ρ → Prop} (ht : All P Q height t) :
    All P Q height (delete key k height t) := by
  induction height with
  | zero =>
    obtain ⟨a, rs⟩ := t
    exact fun q hq ↦ ht q ((dropKey_sublist k rs).subset hq)
  | succ height ih =>
    obtain ⟨a, es⟩ := t
    rcases eq_or_ne es [] with rfl | hne
    · cases height <;> exact ht
    · obtain ⟨fs, hrun, hcut, -⟩ := delete_index key k a hne
      rw [hrun]
      exact hcut.all (fun u ↦ ih) ht

theorem records_delete (hordered : Ordered key height t) :
    records height (delete key k height t) = (records height t).filter (key · ≠ k) := by
  induction height with
  | zero =>
    obtain ⟨a, rs⟩ := t
    exact dropKey_eq_filter hordered k
  | succ height ih =>
    obtain ⟨a, es⟩ := t
    obtain ⟨hne, hchildren, hapart⟩ := hordered
    obtain ⟨fs, hrun, hcut, -⟩ := delete_index key k a hne
    rw [hrun]
    exact hcut.records_eq hapart fun e he ↦ ih (hchildren e (List.mem_of_getElem? he))

theorem delete_ordered (hordered : Ordered key height t) (hkeep : Unstranded key k height t) :
    Ordered key height (delete key k height t) := by
  induction height with
  | zero =>
    obtain ⟨a, rs⟩ := t
    exact List.Pairwise.sublist ((dropKey_sublist k rs).map key) hordered
  | succ height ih =>
    obtain ⟨a, es⟩ := t
    obtain ⟨hne, hchildren, hapart⟩ := hordered
    obtain ⟨fs, hrun, hcut, hfs⟩ := delete_index key k a hne
    rw [hrun]
    have hbelow (e) (he : es[route es k]? = some e) : Unstranded key k height e.2 := by
      cases height with
      | zero => trivial
      | succ height => exact hkeep e he
    exact ⟨hfs hkeep, hcut.ordered (fun e he h ↦ ih h (hbelow e he)) hchildren,
      hcut.apart (fun P Q u ↦ delete_all) hapart⟩

end Delete

/-! ### Whole trees -/

namespace Root

/-- What becomes of a root above the leaves when a leaf has gone. -/
def collapse (a : α) : List (κ × Tree α κ ρ 0) → Root α κ ρ
  | [] => empty
  | [e] => node 0 e.2
  | es => node 1 (a, es)

/-- Take out the record with a key from a tree that holds it. -/
def cutRoot (key : ρ → κ) (k : κ) : (height : ℕ) → Tree α κ ρ height → Root α κ ρ
  | 0, (a, rs) => if dropKey key k rs = [] then empty else node 0 (a, dropKey key k rs)
  | 1, (a, es) =>
    let (a, fs) := SearchTree.delete key k 1 (a, es)
    if fs.length < es.length then collapse a fs else node 1 (a, fs)
  | height + 2, t => node (height + 2) (SearchTree.delete key k (height + 2) t)

/-- Take out the record with a key; `false` when there is none. -/
def delete (key : ρ → κ) (k : κ) : Root α κ ρ → Root α κ ρ × Bool
  | empty => (empty, false)
  | node height t =>
    if SearchTree.lookup key k height t = none then (node height t, false)
    else (cutRoot key k height t, true)

/-- A removal leaves an entry in every index node on its path below the root. -/
def Unstranded (key : ρ → κ) (k : κ) : Root α κ ρ → Prop
  | empty => True
  | node 0 _ => True
  | node 1 _ => True
  | node (height + 2) t => SearchTree.Unstranded key k (height + 2) t

theorem records_collapse (a : α) (es : List (κ × Tree α κ ρ 0)) :
    (collapse a es).records = es.flatMap fun e ↦ SearchTree.records 0 e.2 := by
  rcases es with - | ⟨e, - | ⟨f, es⟩⟩
  · rfl
  · simp [collapse, records]
  · rfl

variable {root : Root α κ ρ}

/-- A removal brings no record, whatever the order of the tree. -/
theorem mem_of_mem_delete {k : κ} {q : ρ} (hq : q ∈ (root.delete key k).1.records) :
    q ∈ root.records := by
  have hbelow {height : ℕ} {t : Tree α κ ρ height}
      (hq : q ∈ SearchTree.records height (SearchTree.delete key k height t)) :
      q ∈ SearchTree.records height t := by
    have hall : All (fun _ ↦ True) (fun q ↦ q ∈ SearchTree.records height t) height t :=
      forall_records_iff.mp fun _ ↦ id
    exact forall_records_iff.mpr (delete_all hall) q hq
  cases root with
  | empty => exact hq
  | node height t =>
    rw [delete] at hq
    split_ifs at hq
    · exact hq
    · rcases height with - | - | height
      · obtain ⟨a, rs⟩ := t
        rw [cutRoot] at hq
        split_ifs at hq
        · exact absurd hq List.not_mem_nil
        · exact (dropKey_sublist k rs).subset hq
      · obtain ⟨a, es⟩ := t
        rw [cutRoot] at hq
        have hcut : q ∈ SearchTree.records 1 (SearchTree.delete key k 1 (a, es)) := by
          rcases hrun : SearchTree.delete key k 1 (a, es) with ⟨b, fs⟩
          rw [hrun] at hq
          simp only at hq
          split_ifs at hq
          · rwa [records_collapse] at hq
          · exact hq
        exact hbelow hcut
      · exact hbelow hq

theorem collapse_ordered {a : α} {es : List (κ × Tree α κ ρ 0)}
    (hchildren : ∀ e ∈ es, SearchTree.Ordered key 0 e.2) (hapart : es.Pairwise (Apart key)) :
    (collapse a es).Ordered key := by
  rcases es with - | ⟨e, - | ⟨f, es⟩⟩
  · trivial
  · exact hchildren e List.mem_cons_self
  · exact ⟨List.cons_ne_nil _ _, hchildren, hapart⟩

variable {k : κ}

/-- A record that is not found is not taken out. -/
theorem filter_of_lookup (hordered : root.Ordered key) (hnone : root.lookup key k = none) :
    root.records.filter (key · ≠ k) = root.records := by
  rw [lookup_eq hordered] at hnone
  exact List.filter_eq_self.mpr fun r hr ↦ by simpa using List.find?_eq_none.mp hnone r hr

theorem records_cutRoot {height : ℕ} {t : Tree α κ ρ height}
    (hordered : SearchTree.Ordered key height t) :
    (cutRoot key k height t).records = (SearchTree.records height t).filter (key · ≠ k) := by
  have hrecords := SearchTree.records_delete (k := k) hordered
  match height, t with
  | 0, (a, rs) =>
    rw [cutRoot]
    split_ifs with hempty
    · rw [SearchTree.delete, records_leaf, hempty] at hrecords
      exact hrecords
    · exact hrecords
  | 1, (a, es) =>
    obtain ⟨fs, hrun, -⟩ := delete_index key k a hordered.1
    rw [hrun] at hrecords
    simp only [cutRoot, hrun]
    split_ifs with hshort
    · rw [records_collapse]
      exact hrecords
    · exact hrecords
  | height + 2, t => exact hrecords

theorem records_delete (hordered : root.Ordered key) :
    (root.delete key k).1.records = root.records.filter (key · ≠ k) := by
  cases root with
  | empty => rfl
  | node height t =>
    rw [delete]
    split_ifs with hnone
    · exact (filter_of_lookup hordered hnone).symm
    · exact records_cutRoot hordered

theorem cutRoot_ordered {height : ℕ} {t : Tree α κ ρ height}
    (hordered : SearchTree.Ordered key height t) (hkeep : (node height t).Unstranded key k) :
    (cutRoot key k height t).Ordered key := by
  match height, t with
  | 0, (a, rs) =>
    rw [cutRoot]
    split_ifs with hempty
    · trivial
    · exact SearchTree.delete_ordered hordered trivial
  | 1, (a, es) =>
    obtain ⟨hne, hchildren, hapart⟩ := hordered
    obtain ⟨fs, hrun, hcut, -⟩ := delete_index key k a hne
    have hchildren' := hcut.ordered (fun e _ h ↦ SearchTree.delete_ordered h trivial) hchildren
    have hapart' := hcut.apart (fun P Q u ↦ delete_all) hapart
    simp only [cutRoot, hrun]
    split_ifs with hshort
    · exact collapse_ordered hchildren' hapart'
    · have hpos := List.length_pos_of_ne_nil hne
      exact ⟨List.ne_nil_of_length_pos (by omega), hchildren', hapart'⟩
  | height + 2, t => exact SearchTree.delete_ordered hordered hkeep

theorem delete_ordered (hordered : root.Ordered key) (hkeep : root.Unstranded key k) :
    (root.delete key k).1.Ordered key := by
  cases root with
  | empty => trivial
  | node height t =>
    rw [delete]
    split_ifs with hnone
    · exact hordered
    · exact cutRoot_ordered hordered hkeep

end Root

end Obmafs3.Library.SearchTree
