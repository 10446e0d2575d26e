import Mathlib.Data.List.Sort

/-!
# Sorted lists as maps

A list sorted by the keys of its entries, with the search for the first entry whose key is not
smaller than a given one, and the change of the entry of a key or its insertion.
-/

set_option autoImplicit false

namespace Obmafs3.Library.SortedMap

variable {κ ρ : Type} [LinearOrder κ] {key : ρ → κ}

/-- The search loop over the window `[lo, hi)`. -/
def lowerBound (keys : List κ) (k : κ) : (fuel lo hi : ℕ) → ℕ
  | 0, lo, _ => lo
  | fuel + 1, lo, hi =>
    if lo < hi then
      match keys[lo + (hi - lo) / 2]? with
      | none => lo
      | some middle =>
        if middle < k then lowerBound keys k fuel (lo + (hi - lo) / 2 + 1) hi
        else lowerBound keys k fuel lo (lo + (hi - lo) / 2)
    else lo

/-- The index of the first entry whose key is not smaller. -/
def position (key : ρ → κ) (rs : List ρ) (k : κ) : ℕ :=
  lowerBound (rs.map key) k rs.length 0 rs.length

/-- The index of the entry of a key. -/
def findIndex (key : ρ → κ) (rs : List ρ) (k : κ) : Option ℕ :=
  if rs[position key rs k]?.map key = some k then some (position key rs k) else none

/-- The entry of a key is changed, or a new one is inserted. -/
def alter (key : ρ → κ) (k : κ) (new : ρ) (f : ρ → ρ) (rs : List ρ) : List ρ :=
  match findIndex key rs k with
  | some i => rs.modify i f
  | none => rs.insertIdx (position key rs k) new

/-! ### The search -/

variable {keys : List κ} {f : ρ → ρ}

theorem getElem_le (hsorted : keys.Pairwise (· < ·)) {i j : ℕ} (hi : i < keys.length)
    (hj : j < keys.length) (hij : i ≤ j) : keys[i] ≤ keys[j] := by
  rcases Nat.eq_or_lt_of_le hij with rfl | hlt
  · exact le_rfl
  · exact (List.pairwise_iff_getElem.mp hsorted i j hi hj hlt).le

theorem lowerBound_spec (hsorted : keys.Pairwise (· < ·)) {k : κ} {fuel lo hi : ℕ}
    (hfuel : hi ≤ lo + fuel) (hlohi : lo ≤ hi) (hhi : hi ≤ keys.length)
    (hlow : ∀ j, (hj : j < keys.length) → j < lo → keys[j] < k)
    (hhigh : ∀ j, (hj : j < keys.length) → hi ≤ j → k ≤ keys[j]) :
    lowerBound keys k fuel lo hi ≤ keys.length ∧
      (∀ j, (hj : j < keys.length) → j < lowerBound keys k fuel lo hi → keys[j] < k) ∧
      ∀ j, (hj : j < keys.length) → lowerBound keys k fuel lo hi ≤ j → k ≤ keys[j] := by
  induction fuel generalizing lo hi with
  | zero =>
    obtain rfl : lo = hi := by omega
    exact ⟨hhi, hlow, hhigh⟩
  | succ fuel ih =>
    rw [lowerBound]
    split_ifs with hlt
    · have hmid : lo + (hi - lo) / 2 < keys.length := by omega
      simp only [List.getElem?_eq_getElem hmid]
      split_ifs with hmiddle
      · exact ih (by omega) (by omega) hhi
          (fun j hj hjlo ↦ (getElem_le hsorted hj hmid (by omega)).trans_lt hmiddle) hhigh
      · exact ih (by omega) (by omega) hmid.le hlow
          fun j hj hjhi ↦ (not_lt.mp hmiddle).trans (getElem_le hsorted hmid hj hjhi)
    · obtain rfl : lo = hi := by omega
      exact ⟨hhi, hlow, hhigh⟩

variable {rs : List ρ} {k : κ}

/-- The position of a key divides the list. -/
theorem exists_split (hsorted : (rs.map key).Pairwise (· < ·)) (k : κ) :
    ∃ before after, rs = before ++ after ∧ position key rs k = before.length ∧
      (∀ r ∈ before, key r < k) ∧ ∀ r ∈ after, k ≤ key r := by
  have hlength : (rs.map key).length = rs.length := List.length_map key
  obtain ⟨hle, hlow, hhigh⟩ : position key rs k ≤ (rs.map key).length ∧
      (∀ j, (hj : j < (rs.map key).length) → j < position key rs k → (rs.map key)[j] < k) ∧
      ∀ j, (hj : j < (rs.map key).length) → position key rs k ≤ j → k ≤ (rs.map key)[j] :=
    lowerBound_spec hsorted (Nat.zero_add _).ge (Nat.zero_le _) hlength.ge
      (fun j _ hj ↦ absurd hj (Nat.not_lt_zero j))
      fun j hj hle ↦ absurd (hj.trans_eq hlength) (Nat.not_lt.mpr hle)
  rw [hlength] at hle
  refine ⟨rs.take (position key rs k), rs.drop (position key rs k), (List.take_append_drop _ _).symm,
    (List.length_take_of_le hle).symm, fun r hr ↦ ?_, fun r hr ↦ ?_⟩
  · obtain ⟨j, hj, rfl⟩ := List.getElem_of_mem hr
    rw [List.length_take_of_le hle] at hj
    have hbelow := hlow j ((hj.trans_le hle).trans_eq hlength.symm) hj
    rw [List.getElem_map] at hbelow
    rwa [List.getElem_take]
  · obtain ⟨j, hj, rfl⟩ := List.getElem_of_mem hr
    rw [List.length_drop] at hj
    have habove := hhigh (position key rs k + j) (by omega) (Nat.le_add_right _ _)
    rw [List.getElem_map] at habove
    rwa [List.getElem_drop]

/-- A search finds the entry of the key between smaller and greater ones, or a place between
them. -/
theorem search_cases (hsorted : (rs.map key).Pairwise (· < ·)) (k : κ) :
    (∃ before r after, rs = before ++ r :: after ∧ key r = k ∧
      findIndex key rs k = some before.length ∧ (∀ q ∈ before, key q < k) ∧ ∀ q ∈ after, k < key q) ∨
    ∃ before after, rs = before ++ after ∧ findIndex key rs k = none ∧
      position key rs k = before.length ∧ (∀ q ∈ before, key q < k) ∧ ∀ q ∈ after, k < key q := by
  obtain ⟨before, after, rfl, hposition, hbefore, hafter⟩ := exists_split hsorted k
  have hhead : (before ++ after)[position key (before ++ after) k]? = after.head? := by
    rw [hposition, List.getElem?_append_right le_rfl, Nat.sub_self, List.head?_eq_getElem?]
  cases after with
  | nil =>
    refine Or.inr ⟨before, [], rfl, ?_, hposition, hbefore, by simp⟩
    rw [findIndex, hhead]
    rfl
  | cons r after =>
    rw [List.map_append, List.map_cons, List.pairwise_append, List.pairwise_cons] at hsorted
    have habove : ∀ q ∈ after, key r < key q :=
      fun q hq ↦ hsorted.2.1.1 _ (List.mem_map_of_mem hq)
    rcases (hafter r List.mem_cons_self).eq_or_lt with heq | hlt
    · refine Or.inl ⟨before, r, after, rfl, heq.symm, ?_, hbefore,
        fun q hq ↦ heq ▸ habove q hq⟩
      rw [findIndex, hhead, List.head?_cons, Option.map_some, if_pos (congrArg some heq.symm),
        hposition]
    · refine Or.inr ⟨before, r :: after, rfl, ?_, hposition, hbefore, ?_⟩
      · rw [findIndex, hhead, List.head?_cons, Option.map_some,
          if_neg fun h ↦ hlt.ne' (Option.some.inj h)]
      · exact List.forall_mem_cons.mpr ⟨hlt, fun q hq ↦ hlt.trans (habove q hq)⟩

/-! ### The map -/

theorem find?_none_of_ne {j : κ} (hne : ∀ q ∈ rs, key q ≠ j) : rs.find? (key · = j) = none :=
  List.find?_eq_none.mpr fun q hq ↦ by simpa using hne q hq

variable {before after : List ρ} {r : ρ}

theorem find?_middle (hbefore : ∀ q ∈ before, key q < key r) :
    (before ++ r :: after).find? (key · = key r) = some r := by
  rw [List.find?_append, find?_none_of_ne fun q hq ↦ (hbefore q hq).ne, Option.none_or,
    List.find?_cons_of_pos (by simp)]

theorem find?_other {j : κ} (hne : key r ≠ j) :
    (before ++ r :: after).find? (key · = j) = (before ++ after).find? (key · = j) := by
  rw [List.find?_append, List.find?_cons_of_neg (by simpa using hne), List.find?_append]

theorem findIndex_eq_none (hsorted : (rs.map key).Pairwise (· < ·)) :
    findIndex key rs k = none ↔ rs.find? (key · = k) = none := by
  rcases search_cases hsorted k with ⟨before, r, after, rfl, rfl, hfind, hbefore, -⟩ |
    ⟨before, after, rfl, hfind, -, hbefore, hafter⟩
  · rw [hfind, find?_middle hbefore]
    exact iff_of_false (by simp) (by simp)
  · refine iff_of_true hfind (find?_none_of_ne fun q hq ↦ ?_)
    exact (List.mem_append.mp hq).elim (fun h ↦ (hbefore q h).ne) fun h ↦ (hafter q h).ne'

theorem getElem?_findIndex (hsorted : (rs.map key).Pairwise (· < ·)) {i : ℕ}
    (hfind : findIndex key rs k = some i) : rs[i]? = rs.find? (key · = k) := by
  rcases search_cases hsorted k with ⟨before, r, after, rfl, rfl, hfind', hbefore, -⟩ |
    ⟨before, after, rfl, hfind', -⟩
  · obtain rfl := Option.some.inj (hfind'.symm.trans hfind)
    rw [find?_middle hbefore, List.getElem?_append_right le_rfl, Nat.sub_self]
    rfl
  · rw [hfind'] at hfind
    cases hfind

theorem modify_middle (f : ρ → ρ) :
    (before ++ r :: after).modify before.length f = before ++ f r :: after := by
  induction before with
  | nil => rfl
  | cons b before ih =>
    rw [List.cons_append, List.length_cons, List.modify_succ_cons, ih, List.cons_append]

/-- The change of one entry. -/
theorem modify_spec (hsorted : (rs.map key).Pairwise (· < ·)) {i : ℕ}
    (hfind : findIndex key rs k = some i) (hf : ∀ r, key (f r) = key r) :
    ((rs.modify i f).map key) = rs.map key ∧ ∀ j, (rs.modify i f).find? (key · = j) =
      if j = k then (rs.find? (key · = k)).map f else rs.find? (key · = j) := by
  rcases search_cases hsorted k with ⟨before, r, after, rfl, rfl, hfind', hbefore, -⟩ |
    ⟨before, after, rfl, hfind', -⟩
  · obtain rfl := Option.some.inj (hfind'.symm.trans hfind)
    rw [modify_middle]
    refine ⟨by simp [hf], fun j ↦ ?_⟩
    split_ifs with hj
    · subst hj
      have hmiddle : (before ++ f r :: after).find? (key · = key (f r)) = some (f r) :=
        find?_middle fun q hq ↦ (hf r).symm ▸ hbefore q hq
      rw [find?_middle hbefore, ← hf r, hmiddle, Option.map_some]
    · rw [find?_other fun h ↦ hj (h.symm.trans (hf r)), find?_other fun h ↦ hj h.symm]
  · rw [hfind'] at hfind
    cases hfind

theorem insertIdx_middle (r : ρ) :
    (before ++ after).insertIdx before.length r = before ++ r :: after := by
  induction before with
  | nil => rfl
  | cons b before ih =>
    rw [List.cons_append, List.length_cons, List.insertIdx_succ_cons, ih, List.cons_append]

/-- The entry of one key is changed or new, and the list is still sorted. -/
theorem alter_spec (hsorted : (rs.map key).Pairwise (· < ·)) {new : ρ} (hf : ∀ r, key (f r) = key r)
    (hnew : key new = k) :
    ((alter key k new f rs).map key).Pairwise (· < ·) ∧
      ∀ j, (alter key k new f rs).find? (key · = j) =
        if j = k then some ((rs.find? (key · = k)).elim new f) else rs.find? (key · = j) := by
  rw [alter]
  cases hfind : findIndex key rs k with
  | some i =>
    obtain ⟨hkeys, hvalues⟩ := modify_spec hsorted hfind hf
    refine ⟨hkeys ▸ hsorted, fun j ↦ (hvalues j).trans ?_⟩
    have hsome : rs.find? (key · = k) ≠ none := fun h ↦ by
      rw [(findIndex_eq_none hsorted).mpr h] at hfind
      cases hfind
    obtain ⟨r, hr⟩ := Option.ne_none_iff_exists'.mp hsome
    rw [hr]
    rfl
  | none =>
    rcases search_cases hsorted k with ⟨before, r, after, rfl, rfl, hfind', -⟩ |
      ⟨before, after, rfl, -, hposition, hbefore, hafter⟩
    · rw [hfind'] at hfind
      cases hfind
    · simp only [hposition, insertIdx_middle]
      subst hnew
      refine ⟨?_, fun j ↦ ?_⟩
      · rw [List.map_append, List.pairwise_append] at hsorted
        obtain ⟨hleft, hright, hcross⟩ := hsorted
        rw [List.map_append, List.map_cons, List.pairwise_append, List.pairwise_cons]
        refine ⟨hleft, ⟨?_, hright⟩, fun a ha b hb ↦ ?_⟩
        · exact List.forall_mem_map.mpr hafter
        · obtain ⟨q, hq, rfl⟩ := List.mem_map.mp ha
          rcases List.mem_cons.mp hb with rfl | hb
          · exact hbefore q hq
          · exact hcross _ (List.mem_map_of_mem hq) _ hb
      · have habsent : (before ++ after).find? (key · = key new) = none :=
          (findIndex_eq_none hsorted).mp hfind
        split_ifs with hj
        · subst hj
          rw [find?_middle hbefore, habsent]
          rfl
        · exact find?_other fun h ↦ hj h.symm

end Obmafs3.Library.SortedMap
