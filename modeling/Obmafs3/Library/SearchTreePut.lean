import Obmafs3.Library.SearchTree
import Mathlib.Data.List.InsertIdx

/-!
# Insertion with splits

`put` inserts a record in a labelled search tree. A full node is divided, the right half moves to a
node with a fresh label, and the parent replaces the separator of the divided child by the first key
the child holds and inserts the first key of the right half after it. A fresh label may be refused,
and then the tree stays as far as it was rewritten.

`put_records` says what an insertion does to the list of all records, and `put_all` that it brings
no key but that of the new record.
-/

set_option autoImplicit false
set_option linter.unusedSectionVars false

namespace Obmafs3.Library.SearchTree

open Search

variable {α κ ρ : Type} [LinearOrder κ] (key : ρ → κ)

/-! ### Insertion in a sorted list -/

/-- Insert a record in a sorted list, in place of the one with the same key if there is one. -/
def upsert (r : ρ) (rs : List ρ) : List ρ :=
  rs.filter (key · < key r) ++ r :: rs.filter (key r < key ·)

variable {key}

variable {leafMax indexMax : ℕ} {height : ℕ} {t : Tree α κ ρ height} {fresh : ℕ → Option α} {r : ρ}
  {rs : List ρ} {a : α}

theorem mem_of_mem_upsert {r q : ρ} (hq : q ∈ upsert key r rs) : q = r ∨ q ∈ rs := by
  simp only [upsert, List.mem_append, List.mem_filter, List.mem_cons] at hq
  tauto

theorem mem_upsert {r q : ρ} : q ∈ upsert key r rs ↔ q = r ∨ q ∈ rs ∧ key q ≠ key r := by
  simp only [upsert, List.mem_append, List.mem_cons, List.mem_filter, decide_eq_true_eq]
  constructor
  · rintro (⟨hq, hlt⟩ | rfl | ⟨hq, hlt⟩)
    · exact Or.inr ⟨hq, hlt.ne⟩
    · exact Or.inl rfl
    · exact Or.inr ⟨hq, hlt.ne'⟩
  · rintro (rfl | ⟨hq, hne⟩)
    · exact Or.inr (Or.inl rfl)
    · rcases lt_or_gt_of_ne hne with hlt | hlt
      · exact Or.inl ⟨hq, hlt⟩
      · exact Or.inr (Or.inr ⟨hq, hlt⟩)

/-- Records on either side of the key stay where they are. -/
theorem upsert_append {before m after : List ρ} (hbefore : ∀ q ∈ before, key q < key r)
    (hafter : ∀ q ∈ after, key r < key q) :
    upsert key r (before ++ m ++ after) = before ++ upsert key r m ++ after := by
  have hbl : before.filter (key · < key r) = before :=
    List.filter_eq_self.mpr fun q hq ↦ by simpa using hbefore q hq
  have hbr : before.filter (key r < key ·) = [] :=
    List.filter_eq_nil_iff.mpr fun q hq ↦ by simpa using (hbefore q hq).le
  have hal : after.filter (key · < key r) = [] :=
    List.filter_eq_nil_iff.mpr fun q hq ↦ by simpa using (hafter q hq).le
  have har : after.filter (key r < key ·) = after :=
    List.filter_eq_self.mpr fun q hq ↦ by simpa using hafter q hq
  simp only [upsert, List.filter_append, hbl, hbr, hal, har]
  simp

theorem upsert_pairwise (hsorted : (rs.map key).Pairwise (· < ·)) :
    ((upsert key r rs).map key).Pairwise (· < ·) := by
  have hsorted' := List.pairwise_map.mp hsorted
  refine List.pairwise_map.mpr (List.pairwise_append.mpr ⟨hsorted'.filter _, ?_, ?_⟩)
  · exact List.pairwise_cons.mpr
      ⟨fun q hq ↦ by simpa using (List.mem_filter.mp hq).2, hsorted'.filter _⟩
  · intro q hq p hp
    have hqr : key q < key r := by simpa using (List.mem_filter.mp hq).2
    rcases List.mem_cons.mp hp with rfl | hp
    · exact hqr
    · exact hqr.trans (by simpa using (List.mem_filter.mp hp).2)

/-- Looking a key up after an insertion. -/
theorem find?_upsert (r : ρ) (rs : List ρ) (k : κ) : (upsert key r rs).find? (key · = k) =
      if key r = k then some r else rs.find? (key · = k) := by
  rw [upsert, List.find?_append, List.find?_cons]
  split_ifs with hk
  · subst hk
    have hnone : (rs.filter (key · < key r)).find? (key · = key r) = none :=
      find?_eq_none_of_ne fun q hq ↦ (by simpa using (List.mem_filter.mp hq).2 : key q < _).ne
    simp [hnone]
  · rcases lt_or_gt_of_ne hk with h | h
    · have hnone : (rs.filter (key · < key r)).find? (key · = k) = none :=
        find?_eq_none_of_ne fun q hq ↦
          ((by simpa using (List.mem_filter.mp hq).2 : key q < key r).trans h).ne
      have hsome : (rs.filter (key r < key ·)).find? (key · = k) = rs.find? (key · = k) := by
        rw [List.find?_filter]
        congr 1
        funext q
        by_cases hq : key q = k <;> simp [hq, h]
      simp [hnone, hsome, hk]
    · have hsome : (rs.filter (key · < key r)).find? (key · = k) = rs.find? (key · = k) := by
        rw [List.find?_filter]
        congr 1
        funext q
        by_cases hq : key q = k <;> simp [hq, h]
      have hnone : (rs.filter (key r < key ·)).find? (key · = k) = none :=
        find?_eq_none_of_ne fun q hq ↦
          (h.trans (by simpa using (List.mem_filter.mp hq).2 : key r < key q)).ne'
      simp [hnone, hsome, hk]

theorem set_eq_upsert (hsorted : (rs.map key).Pairwise (· < ·)) {i : ℕ}
    (hi : (rs.map key)[i]? = some (key r)) : rs.set i r = upsert key r rs := by
  rw [List.getElem?_map] at hi
  obtain ⟨q, hq, hkey⟩ := Option.map_eq_some_iff.mp hi
  obtain ⟨hlt, rfl⟩ := List.getElem?_eq_some_iff.mp hq
  have hsplit : rs = rs.take i ++ [rs[i]] ++ rs.drop (i + 1) := by
    rw [List.append_assoc, List.singleton_append, ← List.drop_eq_getElem_cons hlt,
      List.take_append_drop]
  have hbefore : ∀ q ∈ rs.take i, key q < key r := by
    intro q hq
    obtain ⟨j, hj, rfl⟩ := List.mem_take_iff_getElem.mp hq
    have h := getElem_lt_of_pairwise hsorted (show j < i by omega) (by simpa using hlt)
    simpa [hkey] using h
  have hafter : ∀ q ∈ rs.drop (i + 1), key r < key q := by
    intro q hq
    obtain ⟨j, hj, rfl⟩ := List.mem_drop_iff_getElem.mp hq
    have h := getElem_lt_of_pairwise hsorted (show i < j + (i + 1) by omega) (by simpa using hj)
    simp only [List.getElem_map, hkey] at h
    convert h using 3
    omega
  calc rs.set i r = rs.take i ++ [r] ++ rs.drop (i + 1) := by
        rw [List.set_eq_take_append_cons_drop, if_pos hlt]
        simp
    _ = upsert key r rs := by
        conv_rhs => rw [hsplit, upsert_append hbefore hafter]
        simp [upsert, hkey]

theorem insertIdx_eq_upsert {i : ℕ} (hi : i ≤ rs.length)
    (hbefore : ∀ k ∈ (rs.map key).take i, k < key r) (hafter : ∀ k ∈ (rs.map key).drop i, key r < k)
    : rs.insertIdx i r = upsert key r rs := by
  have hbefore' : ∀ q ∈ rs.take i, key q < key r := fun q hq ↦
    hbefore _ (by rw [← List.map_take]; exact List.mem_map_of_mem hq)
  have hafter' : ∀ q ∈ rs.drop i, key r < key q := fun q hq ↦
    hafter _ (by rw [← List.map_drop]; exact List.mem_map_of_mem hq)
  calc rs.insertIdx i r = rs.take i ++ [r] ++ rs.drop i := by
        have h := insertIdx_append (rs.take i) (rs.drop i) 0 r
        rw [List.take_append_drop, List.length_take, min_eq_left hi] at h
        simpa using h
    _ = upsert key r rs := by
        have h := upsert_append (m := []) hbefore' hafter'
        rw [List.append_nil, List.take_append_drop] at h
        rw [h]
        simp [upsert]

/-! ### Insertion in a tree -/

/-- What an insertion leaves behind: one tree, two trees with the separators their parent needs, or
the tree as it stands when a fresh label is refused. -/
inductive Outcome (α κ ρ : Type) (height : ℕ)
  | kept (tree : Tree α κ ρ height)
  | split (left : Tree α κ ρ height) (low : κ) (right : Tree α κ ρ height) (push : κ)
  | refused (tree : Tree α κ ρ height)

/-- How many of the items of an overfull node stay on the left. -/
def half (capacity : ℕ) : ℕ := (capacity + 1) / 2

/-- The first key of a list, with a default. -/
def firstKey (default : κ) (keys : List κ) : κ := keys.head?.getD default

/-- Store the records of a leaf, in two leaves when they are too many for one. -/
def settleLeaf (key : ρ → κ) (leafMax : ℕ) (fresh : Option α) (r : ρ) (a : α) (old new : List ρ) :
    Outcome α κ ρ 0 :=
  if new.length ≤ leafMax then .kept (a, new)
  else match fresh with
    | none => .refused (a, old)
    | some b =>
      .split (a, new.take (half leafMax)) (firstKey (key r) (new.map key))
        (b, new.drop (half leafMax)) (firstKey (key r) ((new.drop (half leafMax)).map key))

/-- Put the outcome for the child in one slot back among the other entries. -/
def graft {height : ℕ} (indexMax : ℕ) (fresh : Option α) (a : α)
    (before : List (κ × Tree α κ ρ height)) (k : κ) (after : List (κ × Tree α κ ρ height)) :
    Outcome α κ ρ height → Outcome α κ ρ (height + 1)
  | .kept t => .kept (a, before ++ (k, t) :: after)
  | .refused t => .refused (a, before ++ (k, t) :: after)
  | .split left low right push =>
    let es := before ++ (low, left) :: (push, right) :: after
    if es.length ≤ indexMax then .kept (a, es)
    else match fresh with
      | none => .refused (a, before ++ (k, left) :: after)
      | some b =>
        .split (a, es.take (half indexMax)) (firstKey low (es.map Prod.fst))
          (b, es.drop (half indexMax)) (firstKey push ((es.drop (half indexMax)).map Prod.fst))

/-- Insert a record below a node; `fresh` offers one new label for each level. -/
def put (key : ρ → κ) (leafMax indexMax : ℕ) (fresh : ℕ → Option α) (r : ρ) :
    (height : ℕ) → Tree α κ ρ height → Outcome α κ ρ height
  | 0, (a, rs) =>
    match leafFind (rs.map key) (key r) with
    | .found i => .kept (a, rs.set i r)
    | .absent i => settleLeaf key leafMax (fresh 0) r a rs (rs.insertIdx i r)
  | height + 1, (a, es) =>
    match es[route es (key r)]? with
    | none => .kept (a, es)
    | some e =>
      graft indexMax (fresh (height + 1)) a (es.take (route es (key r))) e.1
        (es.drop (route es (key r) + 1)) (put key leafMax indexMax fresh r height e.2)

theorem Slotted.put {es before after : List (κ × Tree α κ ρ height)} {entry : κ × Tree α κ ρ height}
    (hslot : Slotted es (key r) before entry after) :
    put key leafMax indexMax fresh r (height + 1) (a, es) =
      graft indexMax (fresh (height + 1)) a before entry.1 after
        (SearchTree.put key leafMax indexMax fresh r height entry.2) := by
  rw [SearchTree.put, hslot.getElem?]
  simp only [hslot.take, hslot.drop]

/-- An insertion asks for labels for the levels of the tree only. -/
theorem put_congr {fresh fresh' : ℕ → Option α}
    (hsame : ∀ level ≤ height, fresh level = fresh' level) :
    put key leafMax indexMax fresh r height t = put key leafMax indexMax fresh' r height t := by
  induction height with
  | zero =>
    obtain ⟨a, rs⟩ := t
    rw [put, put, hsame 0 le_rfl]
  | succ height ih =>
    obtain ⟨a, es⟩ := t
    rw [put, put, hsame (height + 1) le_rfl]
    cases es[route es (key r)]? with
    | none => rfl
    | some e => simp only [ih fun level hlevel ↦ hsame level (Nat.le_succ_of_le hlevel)]

/-- An insertion that has a label for every level is not refused. -/
theorem put_ne_refused (hfresh : ∀ level ≤ height, fresh level ≠ none) (u : Tree α κ ρ height) :
    put key leafMax indexMax fresh r height t ≠ .refused u := by
  induction height with
  | zero =>
    obtain ⟨a, rs⟩ := t
    obtain ⟨b, hb⟩ := Option.ne_none_iff_exists'.mp (hfresh 0 le_rfl)
    rw [put]
    cases leafFind (rs.map key) (key r) with
    | found i => simp
    | absent i =>
      simp only [settleLeaf, hb]
      split_ifs <;> simp
  | succ height ih =>
    obtain ⟨a, es⟩ := t
    obtain ⟨b, hb⟩ := Option.ne_none_iff_exists'.mp (hfresh (height + 1) le_rfl)
    rw [put, hb]
    cases es[route es (key r)]? with
    | none => simp
    | some e =>
      simp only
      cases hput : put key leafMax indexMax fresh r height e.2 with
      | kept t => simp [graft]
      | refused t => exact absurd hput (ih (fun level hlevel ↦ hfresh level (by omega)) t)
      | split left low right push =>
        simp only [graft]
        split_ifs <;> simp

/-- The trees of an outcome have no hollow nodes. -/
def Outcome.Solid {height : ℕ} : Outcome α κ ρ height → Prop
  | .kept t => SearchTree.Solid height t
  | .split left _ right _ => SearchTree.Solid height left ∧ SearchTree.Solid height right
  | .refused t => SearchTree.Solid height t

theorem graft_solid {height indexMax : ℕ} (hindexMax : 1 ≤ indexMax) {fresh : Option α}
    {before after : List (κ × Tree α κ ρ height)} {k : κ} {o : Outcome α κ ρ height}
    (hbefore : ∀ e ∈ before, SearchTree.Solid height e.2)
    (hafter : ∀ e ∈ after, SearchTree.Solid height e.2) (ho : o.Solid) :
    (graft indexMax fresh a before k after o).Solid := by
  have hone (t : Tree α κ ρ height) (ht : SearchTree.Solid height t) :
      SearchTree.Solid (height + 1) (a, before ++ (k, t) :: after) :=
    ⟨by simp, List.forall_mem_append.mpr ⟨hbefore, List.forall_mem_cons.mpr ⟨ht, hafter⟩⟩⟩
  cases o with
  | kept t => exact hone t ho
  | refused t => exact hone t ho
  | split left low right push =>
    have hall : ∀ e ∈ before ++ (low, left) :: (push, right) :: after,
        SearchTree.Solid height e.2 :=
      List.forall_mem_append.mpr ⟨hbefore, List.forall_mem_cons.mpr
        ⟨ho.1, List.forall_mem_cons.mpr ⟨ho.2, hafter⟩⟩⟩
    simp only [graft]
    split_ifs with hroom
    · exact ⟨by simp, hall⟩
    · cases fresh with
      | none => exact hone left ho.1
      | some b =>
        have hhalf : 0 < half indexMax ∧ half indexMax ≤ indexMax := by
          unfold half
          omega
        refine ⟨⟨?_, fun e he ↦ hall e (List.mem_of_mem_take he)⟩,
          ⟨?_, fun e he ↦ hall e (List.mem_of_mem_drop he)⟩⟩
        · rw [Ne, List.take_eq_nil_iff]
          simp only [List.append_eq_nil_iff, List.cons_ne_nil, and_false, or_false]
          omega
        · rw [Ne, List.drop_eq_nil_iff]
          omega

/-- An insertion makes no hollow nodes. -/
theorem put_solid (hindexMax : 1 ≤ indexMax) (hsolid : Solid height t) :
    (put key leafMax indexMax fresh r height t).Solid := by
  induction height with
  | zero =>
    cases put key leafMax indexMax fresh r 0 t with
    | kept t => trivial
    | refused t => trivial
    | split left low right push => exact ⟨trivial, trivial⟩
  | succ height ih =>
    obtain ⟨a, es⟩ := t
    obtain ⟨before, entry, after, hslot⟩ := exists_slotted hsolid.1 (key r)
    rw [hslot.put]
    refine graft_solid hindexMax (fun e he ↦ hsolid.2 e ?_) (fun e he ↦ hsolid.2 e ?_)
      (ih (hsolid.2 entry hslot.mem))
    · rw [hslot.eq]
      exact List.mem_append_left _ he
    · rw [hslot.eq]
      exact List.mem_append_right _ (List.mem_cons_of_mem _ he)

/-! ### What an insertion does to the records -/

/-- The records of an outcome that was not refused. -/
def Outcome.Records {height : ℕ} (rs : List ρ) : Outcome α κ ρ height → Prop
  | .kept t => records height t = rs
  | .split left _ right _ => records height left ++ records height right = rs
  | .refused _ => True

theorem settleLeaf_records {leafMax : ℕ} {fresh : Option α} {old new : List ρ} :
    (settleLeaf key leafMax fresh r a old new).Records new := by
  unfold settleLeaf
  split_ifs
  · rfl
  · cases fresh with
    | none => trivial
    | some b => exact List.take_append_drop _ _

theorem graft_records {height indexMax : ℕ} {fresh : Option α}
    {before after : List (κ × Tree α κ ρ height)} {k : κ} {o : Outcome α κ ρ height}
    (ho : o.Records rs) :
    (graft indexMax fresh a before k after o).Records
      ((before.flatMap fun e ↦ records height e.2) ++ rs ++
        after.flatMap fun e ↦ records height e.2) := by
  cases o with
  | kept t =>
    simp only [Outcome.Records] at ho
    simp [graft, Outcome.Records, ho]
  | refused t => trivial
  | split left low right push =>
    simp only [Outcome.Records] at ho
    simp only [graft]
    split_ifs
    · simp [Outcome.Records, ← ho]
    · cases fresh with
      | none => trivial
      | some b =>
        simp only [Outcome.Records, records_index]
        rw [← List.flatMap_append, List.take_append_drop]
        simp [← ho]

/-- The outcome holds the old records and the new one, without the one it replaces. -/
theorem put_records (hordered : Ordered key height t) :
    (put key leafMax indexMax fresh r height t).Records (upsert key r (records height t)) := by
  induction height with
  | zero =>
    obtain ⟨a, rs⟩ := t
    rw [put]
    cases hfind : leafFind (rs.map key) (key r) with
    | found i => exact set_eq_upsert hordered (leafFind_found hfind)
    | absent i =>
      obtain ⟨hle, hbefore, hafter⟩ := leafFind_absent hordered hfind
      rw [records_leaf, ← insertIdx_eq_upsert (by simpa using hle) hbefore hafter]
      exact settleLeaf_records
  | succ height ih =>
    obtain ⟨a, es⟩ := t
    obtain ⟨before, entry, after, hrouted⟩ := hordered.route (key r)
    have hbefore : ∀ q ∈ before.flatMap fun e ↦ records height e.2, key q < key r := by
      intro q hq
      obtain ⟨e, he, hq⟩ := List.mem_flatMap.mp hq
      exact hrouted.before_lt hordered.2.2 he hq
    have hafter : ∀ q ∈ after.flatMap fun e ↦ records height e.2, key r < key q := by
      intro q hq
      obtain ⟨e, he, hq⟩ := List.mem_flatMap.mp hq
      exact hrouted.lt_after hordered.2.2 he hq
    have hrecords : records (height + 1) (a, es) =
        (before.flatMap fun e ↦ records height e.2) ++ records height entry.2 ++
          after.flatMap fun e ↦ records height e.2 := by
      rw [hrouted.eq]
      simp
    rw [hrouted.put, hrecords, upsert_append hbefore hafter]
    exact graft_records (ih (hordered.2.1 entry hrouted.mem))

/-! ### What an insertion does to the keys -/

/-- Every separator satisfies `P` and every record satisfies `Q`. -/
def All (P : κ → Prop) (Q : ρ → Prop) : (height : ℕ) → Tree α κ ρ height → Prop
  | 0, (_, rs) => ∀ q ∈ rs, Q q
  | height + 1, (_, es) => ∀ e ∈ es, P e.1 ∧ All P Q height e.2

variable {P : κ → Prop}

theorem forall_span_iff : (∀ x ∈ span key height t, P x) ↔ All P (fun q ↦ P (key q)) height t := by
  induction height with
  | zero =>
    obtain ⟨a, rs⟩ := t
    simp [All]
  | succ height ih =>
    obtain ⟨a, es⟩ := t
    simp only [All, ← ih, span_index, List.mem_flatMap, List.mem_cons]
    constructor
    · exact fun h e he ↦ ⟨h e.1 ⟨e, he, Or.inl rfl⟩, fun x hx ↦ h x ⟨e, he, Or.inr hx⟩⟩
    · rintro h x ⟨e, he, rfl | hx⟩
      · exact (h e he).1
      · exact (h e he).2 x hx

theorem forall_records_iff {Q : ρ → Prop} :
    (∀ q ∈ records height t, Q q) ↔ All (fun _ ↦ True) Q height t := by
  induction height with
  | zero => rfl
  | succ height ih =>
    obtain ⟨a, es⟩ := t
    simp only [All, ← ih, records_index, List.mem_flatMap, true_and]
    exact ⟨fun h e he q hq ↦ h q ⟨e, he, hq⟩, fun h q ⟨e, he, hq⟩ ↦ h e he q hq⟩

/-- The keys and records of an outcome, with the separators it hands to the parent. -/
def Outcome.All (P : κ → Prop) (Q : ρ → Prop) {height : ℕ} : Outcome α κ ρ height → Prop
  | .kept t => SearchTree.All P Q height t
  | .split left low right push =>
    P low ∧ P push ∧ SearchTree.All P Q height left ∧ SearchTree.All P Q height right
  | .refused t => SearchTree.All P Q height t

theorem firstKey_of_forall {default : κ} {keys : List κ} (hdefault : P default)
    (hkeys : ∀ k ∈ keys, P k) : P (firstKey default keys) := by
  cases keys with
  | nil => exact hdefault
  | cons k keys => exact hkeys k List.mem_cons_self

section All

variable {P : κ → Prop} {Q : ρ → Prop} {r : ρ} {a : α}

theorem settleLeaf_all (hQP : ∀ q, Q q → P (key q)) {leafMax : ℕ} {fresh : Option α}
    {old new : List ρ} (hr : Q r) (hold : ∀ q ∈ old, Q q) (hnew : ∀ q ∈ new, Q q) :
    (settleLeaf (κ := κ) key leafMax fresh r a old new).All P Q := by
  have hmap (qs : List ρ) (hqs : ∀ q ∈ qs, Q q) : ∀ x ∈ qs.map key, P x := by
    intro x hx
    obtain ⟨q, hq, rfl⟩ := List.mem_map.mp hx
    exact hQP q (hqs q hq)
  unfold settleLeaf
  split_ifs
  · exact hnew
  · cases fresh with
    | none => exact hold
    | some b =>
      have hdrop : ∀ q ∈ new.drop (half leafMax), Q q := fun q hq ↦
        hnew q (List.mem_of_mem_drop hq)
      exact ⟨firstKey_of_forall (hQP r hr) (hmap new hnew),
        firstKey_of_forall (hQP r hr) (hmap _ hdrop),
        fun q hq ↦ hnew q (List.mem_of_mem_take hq), hdrop⟩

theorem graft_all {height indexMax : ℕ} {fresh : Option α}
    {before after : List (κ × Tree α κ ρ height)} {k : κ} {o : Outcome α κ ρ height}
    (hbefore : ∀ e ∈ before, P e.1 ∧ All P Q height e.2)
    (hafter : ∀ e ∈ after, P e.1 ∧ All P Q height e.2) (hk : P k) (ho : o.All P Q) :
    (graft indexMax fresh a before k after o).All P Q := by
  cases o with
  | kept t => exact List.forall_mem_append.mpr ⟨hbefore, List.forall_mem_cons.mpr ⟨⟨hk, ho⟩, hafter⟩⟩
  | refused t =>
    exact List.forall_mem_append.mpr ⟨hbefore, List.forall_mem_cons.mpr ⟨⟨hk, ho⟩, hafter⟩⟩
  | split left low right push =>
    obtain ⟨hlow, hpush, hleft, hright⟩ := ho
    have hes : ∀ e ∈ before ++ (low, left) :: (push, right) :: after,
        P e.1 ∧ All P Q height e.2 :=
      List.forall_mem_append.mpr ⟨hbefore, List.forall_mem_cons.mpr
        ⟨⟨hlow, hleft⟩, List.forall_mem_cons.mpr ⟨⟨hpush, hright⟩, hafter⟩⟩⟩
    simp only [graft]
    split_ifs
    · exact hes
    · cases fresh with
      | none =>
        exact List.forall_mem_append.mpr
          ⟨hbefore, List.forall_mem_cons.mpr ⟨⟨hk, hleft⟩, hafter⟩⟩
      | some b =>
        refine ⟨firstKey_of_forall hlow ?_, firstKey_of_forall hpush ?_,
          fun e he ↦ hes e (List.mem_of_mem_take he), fun e he ↦ hes e (List.mem_of_mem_drop he)⟩
        · exact List.forall_mem_map.mpr fun e he ↦ (hes e he).1
        · exact List.forall_mem_map.mpr fun e he ↦ (hes e (List.mem_of_mem_drop he)).1

/-- An insertion brings no record and no key but that of the new record. -/
theorem put_all (hQP : ∀ q, Q q → P (key q)) {leafMax indexMax : ℕ} {fresh : ℕ → Option α}
    {height : ℕ} {t : Tree α κ ρ height} (hr : Q r) (ht : All P Q height t) :
    (put key leafMax indexMax fresh r height t).All P Q := by
  induction height with
  | zero =>
    obtain ⟨a, rs⟩ := t
    rw [put]
    cases hfind : leafFind (rs.map key) (key r) with
    | found i =>
      intro q hq
      rcases List.mem_or_eq_of_mem_set hq with hq | rfl
      · exact ht q hq
      · exact hr
    | absent i =>
      refine settleLeaf_all hQP hr ht fun q hq ↦ ?_
      rcases List.eq_or_mem_of_mem_insertIdx hq with rfl | hq
      · exact hr
      · exact ht q hq
  | succ height ih =>
    obtain ⟨a, es⟩ := t
    rw [put]
    cases hslot : es[route es (key r)]? with
    | none => exact ht
    | some entry =>
      have hentry := ht entry (List.mem_of_getElem? hslot)
      exact graft_all (fun e he ↦ ht e (List.mem_of_mem_take he))
        (fun e he ↦ ht e (List.mem_of_mem_drop he)) hentry.1 (ih hentry.2)

end All

end Obmafs3.Library.SearchTree
