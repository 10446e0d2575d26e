import Obmafs3.Library.Search
import Mathlib.Data.List.Flatten

/-!
# Labelled search trees

A search tree of height `h` has sorted records in its leaves and, in each index node, entries that
pair a separator with a subtree of height `h - 1`. Every node carries a label, the place where a
store keeps it. A separator bounds its subtree from below except in the first slot of a node, which
also catches every key below its separator, and it may lag behind the keys it bounds.

`Ordered` is the invariant a search needs. `lookup_eq` says that under it a search finds what the
list of all records holds, and `Ordered.route` is the decomposition of an index node around the
slot a search follows.
-/

set_option autoImplicit false

namespace Obmafs3.Library.SearchTree

open Search

/-- A tree of the given height: a label and records, or a label and entries. -/
@[reducible] def Tree (α κ ρ : Type) : ℕ → Type
  | 0 => α × List ρ
  | height + 1 => α × List (κ × Tree α κ ρ height)

section Definitions

variable {α κ ρ : Type}

def label : (height : ℕ) → Tree α κ ρ height → α
  | 0, (a, _) => a
  | _ + 1, (a, _) => a

/-- All records, from left to right. -/
def records : (height : ℕ) → Tree α κ ρ height → List ρ
  | 0, (_, rs) => rs
  | height + 1, (_, es) => es.flatMap fun e ↦ records height e.2

/-- The leaves with their labels, from left to right. -/
def leaves : (height : ℕ) → Tree α κ ρ height → List (α × List ρ)
  | 0, t => [t]
  | height + 1, (_, es) => es.flatMap fun e ↦ leaves height e.2

/-- The labels of the nodes of one height, from left to right. -/
def row : (height : ℕ) → Tree α κ ρ height → ℕ → List α
  | 0, (a, _), level => if level = 0 then [a] else []
  | height + 1, (a, es), level =>
    if level = height + 1 then [a] else es.flatMap fun e ↦ row height e.2 level

/-- Every key in the tree: of the records and of the separators. -/
def span (key : ρ → κ) : (height : ℕ) → Tree α κ ρ height → List κ
  | 0, (_, rs) => rs.map key
  | height + 1, (_, es) => es.flatMap fun e ↦ e.1 :: span key height e.2

/-- No index node is without entries. -/
def Solid : (height : ℕ) → Tree α κ ρ height → Prop
  | 0, _ => True
  | height + 1, (_, es) => es ≠ [] ∧ ∀ e ∈ es, Solid height e.2

@[simp] theorem label_leaf (a : α) (rs : List ρ) : label (κ := κ) 0 (a, rs) = a := rfl

variable {height : ℕ}

@[simp] theorem label_index (a : α) (es : List (κ × Tree α κ ρ height)) :
    label (height + 1) (a, es) = a := rfl

@[simp] theorem records_leaf (a : α) (rs : List ρ) : records (κ := κ) 0 (a, rs) = rs := rfl

@[simp] theorem records_index (a : α) (es : List (κ × Tree α κ ρ height)) :
    records (height + 1) (a, es) = es.flatMap fun e ↦ records height e.2 := rfl

@[simp] theorem leaves_leaf (a : α) (rs : List ρ) : leaves (κ := κ) 0 (a, rs) = [(a, rs)] := rfl

@[simp] theorem leaves_index (a : α) (es : List (κ × Tree α κ ρ height)) :
    leaves (height + 1) (a, es) = es.flatMap fun e ↦ leaves height e.2 := rfl

@[simp] theorem span_leaf (key : ρ → κ) (a : α) (rs : List ρ) :
    span key 0 (a, rs) = rs.map key := rfl

@[simp] theorem span_index (key : ρ → κ) (a : α) (es : List (κ × Tree α κ ρ height)) :
    span key (height + 1) (a, es) = es.flatMap fun e ↦ e.1 :: span key height e.2 := rfl

theorem row_self (height : ℕ) (t : Tree α κ ρ height) : row height t height = [label height t] := by
  cases height with
  | zero => rfl
  | succ height => exact if_pos rfl

theorem row_index {height level : ℕ} (a : α) (es : List (κ × Tree α κ ρ height))
    (hlevel : level ≤ height) :
    row (height + 1) (a, es) level = es.flatMap fun e ↦ row height e.2 level := by
  rw [row, if_neg (by omega)]

theorem row_zero (height : ℕ) (t : Tree α κ ρ height) :
    row height t 0 = (leaves height t).map Prod.fst := by
  induction height with
  | zero => rfl
  | succ height ih =>
    obtain ⟨a, es⟩ := t
    simp only [row_index a es (Nat.zero_le _), leaves_index, List.map_flatMap, ih]

theorem leaves_records (height : ℕ) (t : Tree α κ ρ height) :
    (leaves height t).flatMap Prod.snd = records height t := by
  induction height with
  | zero =>
    obtain ⟨a, rs⟩ := t
    simp
  | succ height ih =>
    obtain ⟨a, es⟩ := t
    simp only [leaves_index, records_index, List.flatMap_assoc, ih]

theorem leaves_ne_nil {t : Tree α κ ρ height} (hsolid : Solid height t) : leaves height t ≠ [] := by
  induction height with
  | zero =>
    obtain ⟨a, rs⟩ := t
    exact List.cons_ne_nil _ _
  | succ height ih =>
    obtain ⟨a, es⟩ := t
    obtain ⟨e, es, rfl⟩ := List.exists_cons_of_ne_nil hsolid.1
    rw [leaves_index, List.flatMap_cons]
    exact List.append_ne_nil_of_left_ne_nil (ih (hsolid.2 e List.mem_cons_self)) _

theorem mem_span_of_record {key : ρ → κ} {t : Tree α κ ρ height} {r : ρ} (hr : r ∈ records height t)
    : key r ∈ span key height t := by
  induction height with
  | zero =>
    obtain ⟨a, rs⟩ := t
    exact List.mem_map_of_mem hr
  | succ height ih =>
    obtain ⟨a, es⟩ := t
    simp only [records_index, List.mem_flatMap] at hr
    obtain ⟨e, he, hr⟩ := hr
    simp only [span_index, List.mem_flatMap]
    exact ⟨e, he, List.mem_cons_of_mem _ (ih hr)⟩

end Definitions

variable {α κ ρ : Type} [LinearOrder κ] (key : ρ → κ)

/-! ### The order invariant -/

/-- Two entries of one index node, the second to the right of the first: the separator of the
second is above everything in the first and at or below every record in the second. -/
def Apart {height : ℕ} (e f : κ × Tree α κ ρ height) : Prop :=
  e.1 < f.1 ∧ (∀ x ∈ span key height e.2, x < f.1) ∧ ∀ r ∈ records height f.2, f.1 ≤ key r

/-- Leaves are strictly increasing, index nodes are not empty and their separators separate. -/
def Ordered : (height : ℕ) → Tree α κ ρ height → Prop
  | 0, (_, rs) => (rs.map key).Pairwise (· < ·)
  | height + 1, (_, es) =>
    es ≠ [] ∧ (∀ e ∈ es, Ordered height e.2) ∧ es.Pairwise (Apart key)

variable {height : ℕ} {es : List (κ × Tree α κ ρ height)} {t : Tree α κ ρ height} {rs : List ρ}
  {a : α} {k : κ}

variable {key}

theorem Ordered.solid (hordered : Ordered key height t) : Solid height t := by
  induction height with
  | zero => trivial
  | succ height ih =>
    obtain ⟨a, es⟩ := t
    exact ⟨hordered.1, fun e he ↦ ih (hordered.2.1 e he)⟩

theorem separators_pairwise (hapart : es.Pairwise (Apart key)) :
    (es.map Prod.fst).Pairwise (· < ·) :=
  List.pairwise_map.mpr (hapart.imp fun h ↦ h.1)

/-- The records of an ordered tree are strictly increasing. -/
theorem Ordered.records_pairwise (hordered : Ordered key height t) :
    ((records height t).map key).Pairwise (· < ·) := by
  induction height with
  | zero =>
    obtain ⟨a, rs⟩ := t
    exact hordered
  | succ height ih =>
    obtain ⟨a, es⟩ := t
    obtain ⟨-, hchildren, hapart⟩ := hordered
    simp only [records_index, List.map_flatMap]
    refine List.pairwise_flatMap.mpr ⟨fun e he ↦ ih (hchildren e he), ?_⟩
    refine hapart.imp fun {e f} h x hx y hy ↦ ?_
    obtain ⟨r, hr, rfl⟩ := List.mem_map.mp hx
    obtain ⟨q, hq, rfl⟩ := List.mem_map.mp hy
    exact (h.2.1 _ (mem_span_of_record hr)).trans_le (h.2.2 q hq)

/-! ### Routing -/

theorem insertIdx_append {β : Type} (xs ys : List β) (i : ℕ) (y : β) :
    (xs ++ ys).insertIdx (xs.length + i) y = xs ++ ys.insertIdx i y := by
  induction xs with
  | nil => simp
  | cons x xs ih =>
    rw [List.length_cons, Nat.add_right_comm, List.cons_append, List.insertIdx_succ_cons, ih,
      List.cons_append]

theorem modify_append {β : Type} (xs ys : List β) (x : β) (f : β → β) :
    (xs ++ x :: ys).modify xs.length f = xs ++ f x :: ys := by
  induction xs with
  | nil => simp
  | cons y xs ih => simpa using ih

/-- The slot that a search for `k` follows in an index node. -/
def route {height : ℕ} (es : List (κ × Tree α κ ρ height)) (k : κ) : ℕ :=
  indexFind (es.map Prod.fst) k

/-- An index node around the slot a search follows. -/
structure Slotted {height : ℕ} (es : List (κ × Tree α κ ρ height)) (k : κ)
    (before : List (κ × Tree α κ ρ height)) (entry : κ × Tree α κ ρ height)
    (after : List (κ × Tree α κ ρ height)) : Prop where
  eq : es = before ++ entry :: after
  slot : route es k = before.length

/-- The slot a search follows when the separators are sorted. -/
structure Routed {height : ℕ} (es : List (κ × Tree α κ ρ height)) (k : κ)
    (before : List (κ × Tree α κ ρ height)) (entry : κ × Tree α κ ρ height)
    (after : List (κ × Tree α κ ρ height)) : Prop extends Slotted es k before entry after where
  le : before ≠ [] → entry.1 ≤ k
  lt : ∀ f ∈ after, k < f.1

theorem exists_slotted (hne : es ≠ []) (k : κ) :
    ∃ before entry after, Slotted es k before entry after := by
  have hslot : route es k < es.length := by
    have hlt : indexFind (es.map Prod.fst) k < (es.map Prod.fst).length :=
      indexFind_lt (by simpa using hne) k
    simpa [route] using hlt
  refine ⟨es.take (route es k), es[route es k], es.drop (route es k + 1), ?_, ?_⟩
  · rw [← List.drop_eq_getElem_cons, List.take_append_drop]
  · rw [List.length_take, min_eq_left hslot.le]

theorem exists_routed (hne : es ≠ []) (hsorted : (es.map Prod.fst).Pairwise (· < ·)) (k : κ) :
    ∃ before entry after, Routed es k before entry after := by
  obtain ⟨hlt, hle, hgt⟩ := indexFind_spec hsorted (by simpa using hne) k
  have hslot : route es k < es.length := by simpa [route] using hlt
  refine ⟨es.take (route es k), es[route es k], es.drop (route es k + 1), ⟨?_, ?_⟩, ?_, ?_⟩
  · rw [← List.drop_eq_getElem_cons, List.take_append_drop]
  · rw [List.length_take, min_eq_left hslot.le]
  · intro hbefore
    have hne0 : route es k ≠ 0 := fun h0 ↦ hbefore (by rw [h0, List.take_zero])
    simpa [route] using hle hne0
  · intro f hf
    obtain ⟨i, hi, rfl⟩ := List.mem_drop_iff_getElem.mp hf
    have hlater := hgt (route es k + 1 + i) (by simpa [Nat.add_comm] using hi)
      (by change route es k < _; omega)
    rwa [List.getElem_map] at hlater

namespace Slotted

variable {height : ℕ} {es before after : List (κ × Tree α κ ρ height)}
  {entry : κ × Tree α κ ρ height} {k : κ}

section

variable (hslot : Slotted es k before entry after)
include hslot

theorem getElem? : es[route es k]? = some entry := by
  rw [hslot.slot, hslot.eq, List.getElem?_append_right le_rfl, Nat.sub_self]
  rfl

theorem mem : entry ∈ es := by
  rw [hslot.eq]
  simp

theorem set (f : κ × Tree α κ ρ height) : es.set (route es k) f = before ++ f :: after := by
  rw [hslot.slot, hslot.eq, List.set_append_right _ _ le_rfl, Nat.sub_self]
  rfl

theorem take : es.take (route es k) = before := by
  rw [hslot.slot, hslot.eq, List.take_left']
  rfl

theorem drop : es.drop (route es k + 1) = after := by
  rw [hslot.slot, hslot.eq, ← List.singleton_append, ← List.append_assoc, List.drop_left' (by simp)]

end

end Slotted

namespace Routed

variable {height : ℕ} {es before after : List (κ × Tree α κ ρ height)}
  {entry : κ × Tree α κ ρ height} {k : κ}

variable {e : κ × Tree α κ ρ height}

variable (hrouted : Routed es k before entry after) (hapart : es.Pairwise (Apart key))
include hrouted hapart

/-- Every record left of the slot is below the key that was routed. -/
theorem before_lt (he : e ∈ before) {r : ρ} (hr : r ∈ records height e.2) : key r < k := by
  rw [hrouted.eq] at hapart
  have happart := (List.pairwise_append.mp hapart).2.2 e he entry List.mem_cons_self
  exact (happart.2.1 _ (mem_span_of_record hr)).trans_le (hrouted.le (List.ne_nil_of_mem he))

/-- Every record right of the slot is above the key that was routed. -/
theorem lt_after (he : e ∈ after) {r : ρ} (hr : r ∈ records height e.2) : k < key r := by
  rw [hrouted.eq] at hapart
  have happart := List.rel_of_pairwise_cons (List.pairwise_append.mp hapart).2.1 he
  exact (hrouted.lt e he).trans_le (happart.2.2 r hr)

end Routed

theorem Ordered.route (hordered : Ordered key (height + 1) (a, es)) (k : κ) :
    ∃ before entry after, Routed es k before entry after :=
  exists_routed hordered.1 (separators_pairwise hordered.2.2) k

/-! ### Lookup -/

variable (key)

/-- Follow the separators to a leaf and search it. -/
def lookup (k : κ) : (height : ℕ) → Tree α κ ρ height → Option ρ
  | 0, (_, rs) =>
    match leafFind (rs.map key) k with
    | .found i => rs[i]?
    | .absent _ => none
  | height + 1, (_, es) =>
    match es[SearchTree.route es k]? with
    | none => none
    | some e => lookup k height e.2

variable {key}

theorem find?_eq_none_of_ne (hne : ∀ r ∈ rs, key r ≠ k) : rs.find? (key · = k) = none :=
  List.find?_eq_none.mpr fun r hr ↦ by simpa using hne r hr

theorem find?_eq_getElem? (hsorted : (rs.map key).Pairwise (· < ·)) {i : ℕ} {r : ρ}
    (hr : rs[i]? = some r) : rs.find? (key · = key r) = some r := by
  obtain ⟨hi, rfl⟩ := List.getElem?_eq_some_iff.mp hr
  refine List.find?_eq_some_iff_getElem.mpr ⟨by simp, i, hi, rfl, fun j hj ↦ ?_⟩
  have hlt := getElem_lt_of_pairwise hsorted hj (by simpa using hi)
  simpa using (by simpa using hlt.ne : key rs[j] ≠ key rs[i])

/-- The search of a sorted leaf. -/
theorem leaf_lookup_eq (hsorted : (rs.map key).Pairwise (· < ·)) (k : κ) (a : α) :
    lookup key k 0 (a, rs) = rs.find? (key · = k) := by
  rw [lookup]
  cases hfind : leafFind (rs.map key) k with
  | found i =>
    have hkey := leafFind_found hfind
    rw [List.getElem?_map] at hkey
    obtain ⟨r, hr, rfl⟩ := Option.map_eq_some_iff.mp hkey
    rw [find?_eq_getElem? hsorted hr]
    exact hr
  | absent i =>
    obtain ⟨-, hleft, hright⟩ := leafFind_absent hsorted hfind
    refine (find?_eq_none_of_ne fun r hr ↦ ?_).symm
    have hmem : key r ∈ (rs.map key).take i ++ (rs.map key).drop i := by
      rw [List.take_append_drop]
      exact List.mem_map_of_mem hr
    rcases List.mem_append.mp hmem with h | h
    · exact (hleft _ h).ne
    · exact (hright _ h).ne'

/-- Around a slot, only the subtree that a search follows can hold the key. -/
theorem Routed.find? {es before after : List (κ × Tree α κ ρ height)}
    {entry : κ × Tree α κ ρ height} (hrouted : Routed es k before entry after)
    (hapart : es.Pairwise (Apart key)) :
    (es.flatMap fun e ↦ records height e.2).find? (key · = k) =
      (records height entry.2).find? (key · = k) := by
  have hbefore : (before.flatMap fun e ↦ records height e.2).find? (key · = k) = none := by
    refine find?_eq_none_of_ne fun r hr ↦ ?_
    obtain ⟨e, he, hr⟩ := List.mem_flatMap.mp hr
    exact (hrouted.before_lt hapart he hr).ne
  have hafter : (after.flatMap fun e ↦ records height e.2).find? (key · = k) = none := by
    refine find?_eq_none_of_ne fun r hr ↦ ?_
    obtain ⟨e, he, hr⟩ := List.mem_flatMap.mp hr
    exact (hrouted.lt_after hapart he hr).ne'
  rw [hrouted.eq, List.flatMap_append, List.flatMap_cons, List.find?_append, List.find?_append,
    hbefore, hafter]
  simp

variable (hordered : Ordered key height t)
include hordered

/-- A search in an ordered tree finds what the list of its records holds under the key. -/
theorem lookup_eq (k : κ) : lookup key k height t = (records height t).find? (key · = k) := by
  induction height with
  | zero =>
    obtain ⟨a, rs⟩ := t
    exact leaf_lookup_eq hordered k a
  | succ height ih =>
    obtain ⟨a, es⟩ := t
    obtain ⟨before, entry, after, hrouted⟩ := hordered.route k
    rw [lookup, hrouted.getElem?, records_index, hrouted.find? hordered.2.2]
    exact ih (hordered.2.1 entry hrouted.mem)

variable (hleaf : (a, rs) ∈ leaves height t)
include hleaf

/-- A leaf answers for every key between its first and its last, also when the answer is that there
is no record. -/
theorem find?_leaf {first last : ρ} (hfirst : first ∈ rs) (hlast : last ∈ rs) (hle : key first ≤ k)
    (hge : k ≤ key last) : (records height t).find? (key · = k) = rs.find? (key · = k) := by
  obtain ⟨before, after, hleaves⟩ := List.append_of_mem hleaf
  have hsorted := hordered.records_pairwise
  rw [← leaves_records, hleaves, List.flatMap_append, List.flatMap_cons] at hsorted ⊢
  simp only [List.map_append] at hsorted
  obtain ⟨-, hright, hbefore⟩ := List.pairwise_append.mp hsorted
  obtain ⟨-, -, hafter⟩ := List.pairwise_append.mp hright
  have hleft : (before.flatMap Prod.snd).find? (key · = k) = none :=
    find?_eq_none_of_ne fun q hq ↦ ((hbefore _ (List.mem_map_of_mem hq) _
      (List.mem_append_left _ (List.mem_map_of_mem hfirst))).trans_le hle).ne
  have hrest : (after.flatMap Prod.snd).find? (key · = k) = none :=
    find?_eq_none_of_ne fun q hq ↦ (hge.trans_lt (hafter _ (List.mem_map_of_mem hlast) _
      (List.mem_map_of_mem hq))).ne'
  rw [List.find?_append, List.find?_append, hleft, hrest]
  simp

/-- Every leaf of an ordered tree is sorted. -/
theorem Ordered.leaf_pairwise : (rs.map key).Pairwise (· < ·) := by
  have hsorted := hordered.records_pairwise
  rw [← leaves_records, List.map_flatMap] at hsorted
  exact (List.pairwise_flatMap.mp hsorted).1 (a, rs) hleaf

end Obmafs3.Library.SearchTree
