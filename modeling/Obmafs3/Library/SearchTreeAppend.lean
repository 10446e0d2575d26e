import Obmafs3.Library.SearchTreeRoot

/-!
# Runs of insertions in one leaf

Ascending records that are routed to one leaf, all above what the leaf holds, go to its end one
after the other. `putAll_append` says what a run of such insertions does as long as the leaf has
room, so that a long run can be followed one leaf at a time. `lookup_reached` says that a search is
one of the leaf that it reaches.
-/

set_option autoImplicit false

namespace Obmafs3.Library.SearchTree

open Search

variable {α κ ρ : Type} [LinearOrder κ]

/-- The records of the leaf that a search for a key reaches. -/
def reached (k : κ) : (height : ℕ) → Tree α κ ρ height → List ρ
  | 0, (_, rs) => rs
  | height + 1, (_, es) =>
    match es[route es k]? with
    | none => []
    | some e => reached k height e.2

/-- A second key is routed like the first in every node on the way. -/
def Follows (k k' : κ) : (height : ℕ) → Tree α κ ρ height → Prop
  | 0, _ => True
  | height + 1, (_, es) =>
    route es k' = route es k ∧ ∀ e, es[route es k]? = some e → Follows k k' height e.2

/-- Insert records one after the other. -/
def putAll (key : ρ → κ) (leafMax indexMax : ℕ) (fresh : ℕ → Option α) (qs : List ρ)
    (root : Root α κ ρ) : Root α κ ρ :=
  qs.foldl (fun root q ↦ (root.put key leafMax indexMax fresh q).1) root

variable {key : ρ → κ} {edit : List ρ → List ρ} {k k' : κ}

variable {height : ℕ} {t : Tree α κ ρ height} {entry : κ × Tree α κ ρ height}
  {es before after : List (κ × Tree α κ ρ height)} {leafMax : ℕ}

/-- A slot around which only the subtree changed, its separator aside. -/
theorem Slotted.replace (hslot : Slotted es k before entry after) (t : Tree α κ ρ height) :
    Slotted (before ++ (entry.1, t) :: after) k before (entry.1, t) after := by
  refine ⟨rfl, ?_⟩
  rw [← hslot.slot, hslot.eq]
  simp [route]

/-- The last slot catches every key at or above all separators. -/
theorem slotted_last {before : List (κ × Tree α κ ρ height)} (hbefore : ∀ e ∈ before, e.1 ≤ k)
    (hentry : entry.1 ≤ k) : Slotted (before ++ [entry]) k before entry [] := by
  refine ⟨rfl, ?_⟩
  rw [route, indexFind_beyond]
  · simp
  · exact List.forall_mem_map.mpr (List.forall_mem_append.mpr ⟨hbefore, by simpa using hentry⟩)

/-- The first slot catches every key below all separators but the first. -/
theorem slotted_first {after : List (κ × Tree α κ ρ height)} (hafter : ∀ e ∈ after, k < e.1) :
    Slotted (entry :: after) k [] entry after :=
  ⟨rfl, indexFind_before (List.forall_mem_map.mpr hafter)⟩

theorem Slotted.follows {a : α} (hslot : Slotted es k before entry after) :
    Follows k k' (height + 1) (a, es) ↔
      Slotted es k' before entry after ∧ Follows k k' height entry.2 := by
  simp only [Follows, hslot.getElem?, Option.some.injEq, forall_eq']
  exact and_congr_left fun _ ↦
    ⟨fun h ↦ ⟨hslot.eq, h.trans hslot.slot⟩, fun h ↦ h.slot.trans hslot.slot.symm⟩

theorem Slotted.reached {a : α} (hslot : Slotted es k before entry after) :
    reached k (height + 1) (a, es) = SearchTree.reached k height entry.2 := by
  rw [SearchTree.reached, hslot.getElem?]

section

variable (hsolid : Solid height t)
include hsolid

/-- A search is a search of the leaf that it reaches. -/
theorem lookup_reached (a : α) :
    lookup key k height t = lookup key k 0 ((a, reached k height t) : Tree α κ ρ 0) := by
  induction height with
  | zero => rfl
  | succ height ih =>
    obtain ⟨b, es⟩ := t
    obtain ⟨before, entry, after, hslot⟩ := exists_slotted hsolid.1 k
    rw [hslot.reached, ← ih (hsolid.2 entry hslot.mem), lookup, hslot.getElem?]

theorem reached_mem_leaves : ∃ a, (a, reached k height t) ∈ leaves height t := by
  induction height with
  | zero => exact ⟨t.1, List.mem_singleton_self t⟩
  | succ height ih =>
    obtain ⟨b, es⟩ := t
    obtain ⟨before, entry, after, hslot⟩ := exists_slotted hsolid.1 k
    obtain ⟨a, hmem⟩ := ih (hsolid.2 entry hslot.mem)
    rw [hslot.reached]
    exact ⟨a, List.mem_flatMap.mpr ⟨entry, hslot.mem, hmem⟩⟩

theorem reached_editLeaf :
    reached k height (editLeaf edit k height t) = edit (reached k height t) := by
  induction height with
  | zero => rfl
  | succ height ih =>
    obtain ⟨a, es⟩ := t
    obtain ⟨before, entry, after, hslot⟩ := exists_slotted hsolid.1 k
    rw [hslot.editLeaf, (hslot.replace _).reached, hslot.reached, ih (hsolid.2 entry hslot.mem)]

theorem follows_editLeaf (hfollows : Follows k k' height t) :
    Follows k k' height (editLeaf edit k height t) := by
  induction height with
  | zero => trivial
  | succ height ih =>
    obtain ⟨a, es⟩ := t
    obtain ⟨before, entry, after, hslot⟩ := exists_slotted hsolid.1 k
    obtain ⟨hslot', hentry⟩ := hslot.follows.mp hfollows
    rw [hslot.editLeaf]
    exact (hslot.replace _).follows.mpr
      ⟨hslot'.replace _, ih (hsolid.2 entry hslot.mem) hentry⟩

end

theorem editLeaf_editLeaf (edit edit' : List ρ → List ρ) (hsolid : Solid height t) :
    editLeaf edit' k height (editLeaf edit k height t) =
      editLeaf (fun rs ↦ edit' (edit rs)) k height t := by
  induction height with
  | zero => rfl
  | succ height ih =>
    obtain ⟨a, es⟩ := t
    obtain ⟨before, entry, after, hslot⟩ := exists_slotted hsolid.1 k
    rw [hslot.editLeaf, (hslot.replace _).editLeaf, hslot.editLeaf, ih (hsolid.2 entry hslot.mem)]

theorem editLeaf_id (hsolid : Solid height t) : editLeaf (fun rs ↦ rs) k height t = t := by
  induction height with
  | zero => rfl
  | succ height ih =>
    obtain ⟨a, es⟩ := t
    obtain ⟨before, entry, after, hslot⟩ := exists_slotted hsolid.1 k
    rw [hslot.editLeaf, ih (hsolid.2 entry hslot.mem), hslot.eq]

/-- A record above everything in its leaf goes to the end of the leaf. -/
theorem put_append (indexMax : ℕ) (fresh : ℕ → Option α) {q : ρ} (hsolid : Solid height t)
    (hfollows : Follows k (key q) height t) (habove : ∀ p ∈ reached k height t, key p < key q)
    (hroom : (reached k height t).length < leafMax) :
    put key leafMax indexMax fresh q height t = .kept (editLeaf (· ++ [q]) k height t) := by
  induction height with
  | zero =>
    obtain ⟨a, rs⟩ := t
    have hfind : leafFind (rs.map key) (key q) = .absent (rs.map key).length :=
      leafFind_beyond (List.forall_mem_map.mpr habove)
    rw [put, hfind]
    simp only [reached] at hroom
    simp only [List.length_map, List.insertIdx_length_self, settleLeaf, List.length_append,
      List.length_singleton, editLeaf]
    rw [if_pos (by omega)]
  | succ height ih =>
    obtain ⟨a, es⟩ := t
    obtain ⟨before, entry, after, hslot⟩ := exists_slotted hsolid.1 k
    obtain ⟨hslot', hentry⟩ := hslot.follows.mp hfollows
    rw [hslot.reached] at habove hroom
    rw [hslot'.put, ih (hsolid.2 entry hslot.mem) hentry habove hroom, hslot.editLeaf]
    rfl

/-- An ascending run of insertions at the end of one leaf, as long as the leaf has room. -/
theorem putAll_append (indexMax : ℕ) (fresh : ℕ → Option α) {qs : List ρ}
    (hsorted : (qs.map key).Pairwise (· < ·)) (hsolid : Solid height t)
    (hfollows : ∀ q ∈ qs, Follows k (key q) height t)
    (habove : ∀ q ∈ qs, ∀ p ∈ reached k height t, key p < key q)
    (hroom : (reached k height t).length + qs.length ≤ leafMax) :
    putAll key leafMax indexMax fresh qs (.node height t) =
      .node height (editLeaf (· ++ qs) k height t) := by
  induction qs generalizing t with
  | nil =>
    simp only [List.append_nil]
    rw [editLeaf_id hsolid]
    rfl
  | cons q qs ih =>
    obtain ⟨hlt, hsorted⟩ := List.pairwise_cons.mp hsorted
    simp only [List.length_cons] at hroom
    have hput := put_append indexMax fresh hsolid (hfollows q List.mem_cons_self)
      (habove q List.mem_cons_self) (by omega : _ < leafMax)
    rw [putAll, List.foldl_cons, Root.put, hput]
    refine (ih hsorted (editLeaf_solid hsolid)
      (fun p hp ↦ follows_editLeaf hsolid (hfollows p (List.mem_cons_of_mem _ hp)))
      (fun p hp ↦ ?_) ?_).trans ?_
    · rw [reached_editLeaf hsolid]
      refine List.forall_mem_append.mpr ⟨habove p (List.mem_cons_of_mem _ hp), ?_⟩
      simpa using hlt _ (List.mem_map_of_mem hp)
    · rw [reached_editLeaf hsolid]
      simp only [List.length_append, List.length_singleton]
      omega
    · rw [editLeaf_editLeaf _ _ hsolid]
      simp only [List.append_assoc, List.singleton_append]

/-- A record above everything in a full leaf divides the leaf. -/
theorem put_overfull (indexMax : ℕ) {fresh : ℕ → Option α} {b : α} (hfresh : fresh 0 = some b)
    (a : α) {q : ρ} {rs : List ρ} (habove : ∀ p ∈ rs, key p < key q) (hfull : rs.length = leafMax) :
    put key leafMax indexMax fresh q 0 (a, rs) =
      .split (a, (rs ++ [q]).take (half leafMax)) (firstKey (key q) ((rs ++ [q]).map key))
        (b, (rs ++ [q]).drop (half leafMax))
        (firstKey (key q) (((rs ++ [q]).drop (half leafMax)).map key)) := by
  have hfind : leafFind (rs.map key) (key q) = .absent (rs.map key).length :=
    leafFind_beyond (List.forall_mem_map.mpr habove)
  rw [put, hfind]
  simp only [List.length_map, List.insertIdx_length_self, settleLeaf, List.length_append,
    List.length_singleton, hfresh]
  rw [if_neg (by omega)]

end Obmafs3.Library.SearchTree
