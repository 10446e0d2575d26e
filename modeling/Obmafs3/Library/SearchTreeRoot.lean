import Obmafs3.Library.SearchTreeSafe

/-!
# Whole search trees

A search tree as its owner holds it: no tree at all, or a tree of some height. An insertion in no
tree starts a leaf, and when the root divides a new root goes on top of the two halves. A removal
takes a record out of its leaf and leaves the shape of the tree as it is.

The records of the tree behave as a sorted association list, which `lookup_put` and `lookup_remove`
say of the search itself.
-/

set_option autoImplicit false

namespace Obmafs3.Library.SearchTree

open Search

variable {α κ ρ : Type} [LinearOrder κ]

/-! ### Removal below a node -/

/-- Change the leaf that a search for a key reaches. -/
def editLeaf (edit : List ρ → List ρ) (k : κ) : (height : ℕ) → Tree α κ ρ height → Tree α κ ρ height
  | 0, (a, rs) => (a, edit rs)
  | height + 1, (a, es) => (a, es.modify (route es k) fun e ↦ (e.1, editLeaf edit k height e.2))

/-- Take the record with a key out of a sorted list. -/
def dropKey (key : ρ → κ) (k : κ) (rs : List ρ) : List ρ :=
  match leafFind (rs.map key) k with
  | .found i => rs.eraseIdx i
  | .absent _ => rs

theorem Slotted.editLeaf {height : ℕ} {a : α} {es before after : List (κ × Tree α κ ρ height)}
    {entry : κ × Tree α κ ρ height} {k : κ} (hslot : Slotted es k before entry after)
    (edit : List ρ → List ρ) :
    editLeaf edit k (height + 1) (a, es) =
      (a, before ++ (entry.1, SearchTree.editLeaf edit k height entry.2) :: after) := by
  rw [SearchTree.editLeaf, hslot.slot, hslot.eq, modify_append]

variable {key : ρ → κ}

theorem dropKey_sublist (k : κ) (rs : List ρ) : (dropKey key k rs).Sublist rs := by
  unfold dropKey
  cases leafFind (rs.map key) k with
  | found i => exact List.eraseIdx_sublist rs i
  | absent i => exact List.Sublist.refl rs

theorem dropKey_eq_filter {rs : List ρ} (hsorted : (rs.map key).Pairwise (· < ·)) (k : κ) :
    dropKey key k rs = rs.filter (key · ≠ k) := by
  unfold dropKey
  cases hfind : leafFind (rs.map key) k with
  | found i =>
    have hkey := leafFind_found hfind
    rw [List.getElem?_map] at hkey
    obtain ⟨r, hr, rfl⟩ := Option.map_eq_some_iff.mp hkey
    obtain ⟨hi, rfl⟩ := List.getElem?_eq_some_iff.mp hr
    have hsplit : rs = rs.take i ++ rs[i] :: rs.drop (i + 1) := by
      rw [← List.drop_eq_getElem_cons hi, List.take_append_drop]
    have hbefore : ∀ q ∈ rs.take i, key q ≠ key rs[i] := by
      intro q hq
      obtain ⟨j, hj, rfl⟩ := List.mem_take_iff_getElem.mp hq
      have h := getElem_lt_of_pairwise hsorted (show j < i by omega) (by simpa using hi)
      simpa using h.ne
    have hafter : ∀ q ∈ rs.drop (i + 1), key q ≠ key rs[i] := by
      intro q hq
      obtain ⟨j, hj, rfl⟩ := List.mem_drop_iff_getElem.mp hq
      have h := getElem_lt_of_pairwise hsorted (show i < i + 1 + j by omega)
        (by simpa [Nat.add_comm] using hj)
      simpa using h.ne'
    have hkeep (qs : List ρ) (hqs : ∀ q ∈ qs, key q ≠ key rs[i]) :
        qs.filter (key · ≠ key rs[i]) = qs :=
      List.filter_eq_self.mpr fun q hq ↦ by simpa using hqs q hq
    calc rs.eraseIdx i = rs.take i ++ rs.drop (i + 1) := List.eraseIdx_eq_take_drop_succ ..
      _ = (rs.take i ++ rs[i] :: rs.drop (i + 1)).filter (key · ≠ key rs[i]) := by
          rw [List.filter_append, List.filter_cons_of_neg (by simp), hkeep _ hbefore,
            hkeep _ hafter]
      _ = rs.filter (key · ≠ key rs[i]) := by rw [← hsplit]
  | absent i =>
    obtain ⟨-, hleft, hright⟩ := leafFind_absent hsorted hfind
    refine (List.filter_eq_self.mpr fun r hr ↦ ?_).symm
    have hmem : key r ∈ (rs.map key).take i ++ (rs.map key).drop i := by
      rw [List.take_append_drop]
      exact List.mem_map_of_mem hr
    rcases List.mem_append.mp hmem with h | h
    · simpa using (hleft _ h).ne
    · simpa using (hright _ h).ne'

section EditLeaf

variable {edit : List ρ → List ρ} {k : κ}

variable {height : ℕ} {t : Tree α κ ρ height}

theorem editLeaf_all {P : κ → Prop} {Q : ρ → Prop} (hedit : ∀ rs, (edit rs).Sublist rs)
    (ht : All P Q height t) : All P Q height (editLeaf edit k height t) := by
  induction height with
  | zero =>
    obtain ⟨a, rs⟩ := t
    exact fun q hq ↦ ht q ((hedit rs).subset hq)
  | succ height ih =>
    obtain ⟨a, es⟩ := t
    rcases eq_or_ne es [] with rfl | hne
    · exact ht
    · obtain ⟨before, entry, after, hslot⟩ := exists_slotted hne k
      rw [hslot.editLeaf]
      rw [hslot.eq] at ht
      obtain ⟨hbefore, hrest⟩ := List.forall_mem_append.mp ht
      obtain ⟨hentry, hafter⟩ := List.forall_mem_cons.mp hrest
      exact List.forall_mem_append.mpr
        ⟨hbefore, List.forall_mem_cons.mpr ⟨⟨hentry.1, ih hentry.2⟩, hafter⟩⟩

/-- A leaf may lose records at any time. -/
theorem editLeaf_ordered (hedit : ∀ rs, (edit rs).Sublist rs) (hordered : Ordered key height t) :
    Ordered key height (editLeaf edit k height t) := by
  induction height with
  | zero =>
    obtain ⟨a, rs⟩ := t
    exact List.Pairwise.sublist ((hedit rs).map key) hordered
  | succ height ih =>
    obtain ⟨a, es⟩ := t
    obtain ⟨hne, hchildren, hapart⟩ := hordered
    obtain ⟨before, entry, after, hslot⟩ := exists_slotted hne k
    rw [hslot.editLeaf]
    rw [hslot.eq] at hchildren hapart
    obtain ⟨-, hright, hcross⟩ := List.pairwise_append.mp hapart
    refine ⟨by simp, fun f hf ↦ ?_, apart_replace hapart (fun d hd ↦ ?_) fun g hg ↦ ?_⟩
    · rcases List.mem_append.mp hf with hf | hf
      · exact hchildren f (List.mem_append_left _ hf)
      · rcases List.mem_cons.mp hf with rfl | hf
        · exact ih (hchildren entry (by simp))
        · exact hchildren f (List.mem_append_right _ (List.mem_cons_of_mem _ hf))
    · obtain ⟨hlt, hspan, hrecords⟩ := hcross d hd entry List.mem_cons_self
      exact ⟨hlt, hspan, forall_records_iff.mpr
        (editLeaf_all hedit (forall_records_iff.mp hrecords))⟩
    · obtain ⟨hlt, hspan, hrecords⟩ := List.rel_of_pairwise_cons hright hg
      exact ⟨hlt, forall_span_iff.mpr (editLeaf_all hedit (forall_span_iff.mp hspan)), hrecords⟩

theorem records_editLeaf_dropKey (hordered : Ordered key height t) :
    records height (editLeaf (dropKey key k) k height t) =
      (records height t).filter (key · ≠ k) := by
  induction height with
  | zero =>
    obtain ⟨a, rs⟩ := t
    exact dropKey_eq_filter hordered k
  | succ height ih =>
    obtain ⟨a, es⟩ := t
    obtain ⟨before, entry, after, hrouted⟩ := hordered.route k
    have hbefore : (before.flatMap fun e ↦ records height e.2).filter (key · ≠ k) =
        before.flatMap fun e ↦ records height e.2 := by
      refine List.filter_eq_self.mpr fun q hq ↦ ?_
      obtain ⟨e, he, hq⟩ := List.mem_flatMap.mp hq
      simpa using (hrouted.before_lt hordered.2.2 he hq).ne
    have hafter : (after.flatMap fun e ↦ records height e.2).filter (key · ≠ k) =
        after.flatMap fun e ↦ records height e.2 := by
      refine List.filter_eq_self.mpr fun q hq ↦ ?_
      obtain ⟨e, he, hq⟩ := List.mem_flatMap.mp hq
      simpa using (hrouted.lt_after hordered.2.2 he hq).ne'
    rw [hrouted.editLeaf, records_index, List.flatMap_append, List.flatMap_cons,
      ih (hordered.2.1 entry hrouted.mem), records_index]
    conv_rhs => rw [hrouted.eq, List.flatMap_append, List.flatMap_cons, List.filter_append,
      List.filter_append, hbefore, hafter]

theorem editLeaf_solid (hsolid : Solid height t) : Solid height (editLeaf edit k height t) := by
  induction height with
  | zero => trivial
  | succ height ih =>
    obtain ⟨a, es⟩ := t
    obtain ⟨before, entry, after, hslot⟩ := exists_slotted hsolid.1 k
    rw [hslot.editLeaf]
    have hchildren := hsolid.2
    rw [hslot.eq] at hchildren
    obtain ⟨hbefore, hrest⟩ := List.forall_mem_append.mp hchildren
    obtain ⟨hentry, hafter⟩ := List.forall_mem_cons.mp hrest
    exact ⟨by simp, List.forall_mem_append.mpr
      ⟨hbefore, List.forall_mem_cons.mpr ⟨ih hentry, hafter⟩⟩⟩

theorem label_editLeaf (height : ℕ) (t : Tree α κ ρ height) :
    label height (editLeaf edit k height t) = label height t := by
  cases height <;> rfl

end EditLeaf

/-! ### Trees of any height -/

/-- No tree, or a tree of some height. -/
inductive Root (α κ ρ : Type)
  | empty
  | node (height : ℕ) (tree : Tree α κ ρ height)

namespace Root

def records : Root α κ ρ → List ρ
  | empty => []
  | node height t => SearchTree.records height t

def leaves : Root α κ ρ → List (α × List ρ)
  | empty => []
  | node height t => SearchTree.leaves height t

/-- The number of levels below the root. -/
def height : Root α κ ρ → ℕ
  | empty => 0
  | node height _ => height

def lookup (key : ρ → κ) (k : κ) : Root α κ ρ → Option ρ
  | empty => none
  | node height t => SearchTree.lookup key k height t

def Ordered (key : ρ → κ) : Root α κ ρ → Prop
  | empty => True
  | node height t => SearchTree.Ordered key height t

def Safe (key : ρ → κ) (leafMax indexMax : ℕ) (r : ρ) : Root α κ ρ → Prop
  | empty => True
  | node height t => SearchTree.Safe key leafMax indexMax r height t

/-- Insert a record; `false` when a label was refused. -/
def put (key : ρ → κ) (leafMax indexMax : ℕ) (fresh : ℕ → Option α) (r : ρ) :
    Root α κ ρ → Root α κ ρ × Bool
  | empty =>
    match fresh 0 with
    | none => (empty, false)
    | some a => (node 0 (a, [r]), true)
  | node height t =>
    match SearchTree.put key leafMax indexMax fresh r height t with
    | .kept t => (node height t, true)
    | .refused t => (node height t, false)
    | .split left low right push =>
      match fresh (height + 1) with
      | none => (node height left, false)
      | some b => (node (height + 1) (b, [(low, left), (push, right)]), true)

def remove (key : ρ → κ) (k : κ) : Root α κ ρ → Root α κ ρ
  | empty => empty
  | node height t => node height (editLeaf (dropKey key k) k height t)

variable {root : Root α κ ρ} {leafMax indexMax : ℕ} {fresh : ℕ → Option α} {r : ρ}

theorem height_le_put (root : Root α κ ρ) :
    root.height ≤ (root.put key leafMax indexMax fresh r).1.height := by
  cases root with
  | empty => exact Nat.zero_le _
  | node height t =>
    simp only [put]
    cases SearchTree.put key leafMax indexMax fresh r height t with
    | kept t => exact le_rfl
    | refused t => exact le_rfl
    | split left low right push =>
      cases fresh (height + 1) with
      | none => exact le_rfl
      | some b => exact Nat.le_succ height

theorem put_fresh_congr {fresh fresh' : ℕ → Option α}
    (hsame : ∀ level ≤ root.height + 1, fresh level = fresh' level) :
    root.put key leafMax indexMax fresh r = root.put key leafMax indexMax fresh' r := by
  cases root with
  | empty => rw [put, put, hsame 0 (Nat.zero_le _)]
  | node height t =>
    have hbelow : ∀ level ≤ height, fresh level = fresh' level := fun level hlevel ↦
      hsame level (Nat.le_succ_of_le hlevel)
    rw [put, put, hsame (height + 1) le_rfl, put_congr hbelow]

theorem put_done (hfresh : ∀ level ≤ root.height + 1, fresh level ≠ none) :
    (root.put key leafMax indexMax fresh r).2 = true := by
  cases root with
  | empty =>
    obtain ⟨b, hb⟩ := Option.ne_none_iff_exists'.mp (hfresh 0 (Nat.zero_le _))
    rw [put, hb]
  | node height t =>
    obtain ⟨b, hb⟩ := Option.ne_none_iff_exists'.mp (hfresh (height + 1) le_rfl)
    rw [put, hb]
    cases hput : SearchTree.put key leafMax indexMax fresh r height t with
    | kept t => rfl
    | refused t =>
      have hbelow : ∀ level ≤ height, fresh level ≠ none := fun level hlevel ↦
        hfresh level (Nat.le_succ_of_le hlevel)
      exact absurd hput (put_ne_refused hbelow t)
    | split left low right push => rfl

/-- The label of a new root is apart from the labels that the nodes below it ask for. -/
theorem put_node_update (fresh : ℕ → Option α) (r : ρ) (height : ℕ) (t : Tree α κ ρ height)
    (top : Option α) :
    (node height t).put key leafMax indexMax (Function.update fresh (height + 1) top) r =
      match SearchTree.put key leafMax indexMax fresh r height t with
      | .kept t => (node height t, true)
      | .refused t => (node height t, false)
      | .split left low right push =>
        match top with
        | none => (node height left, false)
        | some b => (node (height + 1) (b, [(low, left), (push, right)]), true) := by
  have hsame : ∀ level ≤ height, Function.update fresh (height + 1) top level = fresh level :=
    fun level hlevel ↦ Function.update_of_ne (by omega) _ _
  rw [put, put_congr hsame, Function.update_self]

theorem lookup_eq (hordered : root.Ordered key) (k : κ) :
    root.lookup key k = root.records.find? (key · = k) := by
  cases root with
  | empty => rfl
  | node height t => exact SearchTree.lookup_eq hordered k

/-- An insertion brings no record but the new one, whatever the order of the tree. -/
theorem mem_of_mem_put {r q : ρ} (hq : q ∈ (root.put key leafMax indexMax fresh r).1.records) :
    q = r ∨ q ∈ root.records := by
  cases root with
  | empty =>
    rw [put] at hq
    cases hfresh : fresh 0 with
    | none =>
      rw [hfresh] at hq
      exact Or.inr hq
    | some a =>
      rw [hfresh] at hq
      exact Or.inl (List.mem_singleton.mp hq)
  | node height t =>
    have hall : (SearchTree.put key leafMax indexMax fresh r height t).All (fun _ ↦ True)
        fun q ↦ q = r ∨ q ∈ SearchTree.records height t :=
      put_all (fun _ _ ↦ trivial) (Or.inl rfl) (forall_records_iff.mp fun _ ↦ Or.inr)
    rw [put] at hq
    generalize SearchTree.put key leafMax indexMax fresh r height t = out at hq hall
    cases out with
    | kept u => exact forall_records_iff.mpr hall q hq
    | refused u => exact forall_records_iff.mpr hall q hq
    | split left low right push =>
      obtain ⟨-, -, hleft, hright⟩ := hall
      generalize fresh (height + 1) = top at hq
      cases top with
      | none => exact forall_records_iff.mpr hleft q hq
      | some b =>
        simp only [records, records_index, List.flatMap_cons, List.flatMap_nil,
          List.append_nil] at hq
        rcases List.mem_append.mp hq with hq | hq
        · exact forall_records_iff.mpr hleft q hq
        · exact forall_records_iff.mpr hright q hq

theorem records_put (hordered : root.Ordered key)
    (hdone : (root.put key leafMax indexMax fresh r).2 = true) :
    (root.put key leafMax indexMax fresh r).1.records = upsert key r root.records := by
  cases root with
  | empty =>
    simp only [put] at hdone ⊢
    cases hfresh : fresh 0 with
    | none => simp [hfresh] at hdone
    | some a => rfl
  | node height t =>
    have hrecords : (SearchTree.put key leafMax indexMax fresh r height t).Records _ :=
      put_records hordered
    simp only [put] at hdone ⊢
    generalize SearchTree.put key leafMax indexMax fresh r height t = out at hdone hrecords ⊢
    cases out with
    | kept t => exact hrecords
    | refused t => cases hdone
    | split left low right push =>
      cases hfresh : fresh (height + 1) with
      | none => simp [hfresh] at hdone
      | some b =>
        change SearchTree.records height left ++ SearchTree.records height right = _ at hrecords
        simpa [records] using hrecords

theorem put_ordered (hleafMax : 1 ≤ leafMax) (hindexMax : 1 ≤ indexMax) (fresh : ℕ → Option α)
    (hordered : root.Ordered key) (hsafe : root.Safe key leafMax indexMax r) :
    (root.put key leafMax indexMax fresh r).1.Ordered key := by
  cases root with
  | empty =>
    simp only [put]
    cases fresh 0 with
    | none => trivial
    | some a => exact List.pairwise_singleton _ _
  | node height t =>
    have hafter : (SearchTree.put key leafMax indexMax fresh r height t).Ordered key :=
      SearchTree.put_ordered hleafMax hindexMax hordered hsafe
    simp only [put]
    generalize SearchTree.put key leafMax indexMax fresh r height t = out at hafter ⊢
    cases out with
    | kept t => exact hafter
    | refused t => exact hafter
    | split left low right push =>
      cases fresh (height + 1) with
      | none => exact hafter.left_ordered
      | some b =>
        refine ⟨by simp, ?_, ?_⟩
        · simpa using ⟨hafter.left_ordered, hafter.right_ordered⟩
        · have happart : Apart key (low, left) (push, right) :=
            ⟨hafter.low_lt, hafter.left_lt, hafter.right_le⟩
          exact List.pairwise_pair.mpr happart

theorem remove_ordered (hordered : root.Ordered key) (k : κ) : (root.remove key k).Ordered key := by
  cases root with
  | empty => trivial
  | node height t => exact editLeaf_ordered (dropKey_sublist k) hordered

theorem records_remove (hordered : root.Ordered key) (k : κ) :
    (root.remove key k).records = root.records.filter (key · ≠ k) := by
  cases root with
  | empty => rfl
  | node height t => exact records_editLeaf_dropKey hordered

/-- A search after an insertion. -/
theorem lookup_put (hleafMax : 1 ≤ leafMax) (hindexMax : 1 ≤ indexMax) (hordered : root.Ordered key)
    (hsafe : root.Safe key leafMax indexMax r)
    (hdone : (root.put key leafMax indexMax fresh r).2 = true) (k : κ) :
    (root.put key leafMax indexMax fresh r).1.lookup key k =
      if key r = k then some r else root.lookup key k := by
  rw [lookup_eq (put_ordered hleafMax hindexMax fresh hordered hsafe), records_put hordered hdone,
    find?_upsert, lookup_eq hordered]

/-- A search after a removal. -/
theorem lookup_remove (hordered : root.Ordered key) (k x : κ) :
    (root.remove key k).lookup key x = if k = x then none else root.lookup key x := by
  rw [lookup_eq (remove_ordered hordered k), records_remove hordered, lookup_eq hordered,
    List.find?_filter]
  split_ifs with hk
  · subst hk
    exact List.find?_eq_none.mpr fun q _ ↦ by simp
  · congr 1
    funext q
    by_cases hq : key q = x
    · simpa [hq] using Ne.symm hk
    · simp [hq]

end Root

end Obmafs3.Library.SearchTree
