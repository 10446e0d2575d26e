import Obmafs3.Library.SearchTreeDelete
import Obmafs3.Library.SearchTreeRefused
import Mathlib.Data.List.Perm.Subperm

/-!
# Records that a tree of any order keeps

Refused insertions leave trees out of order behind, and calls go on over them. Whatever the order,
an insertion that finds the key changes that one record, one that does not find it brings no record
but the new one, and a removal takes out the record that the search finds.
-/

set_option autoImplicit false
set_option linter.unusedSectionVars false

namespace Obmafs3.Library.SearchTree

open Search

variable {α κ ρ : Type} [LinearOrder κ] {key : ρ → κ}

/-- One record stands in for another. -/
def Replaced (q r : ρ) (rs rs' : List ρ) : Prop :=
  ∃ before after, rs = before ++ q :: after ∧ rs' = before ++ r :: after

/-- One record is gone. -/
def Taken (q : ρ) (rs rs' : List ρ) : Prop :=
  ∃ before after, rs = before ++ q :: after ∧ rs' = before ++ after

variable {height : ℕ} {t : Tree α κ ρ height} {rs rs' : List ρ} {q : ρ} {k : κ} {a : α}

theorem Replaced.widen {q r : ρ} (hreplaced : Replaced q r rs rs') (front back : List ρ) :
    Replaced q r (front ++ rs ++ back) (front ++ rs' ++ back) := by
  obtain ⟨before, after, rfl, rfl⟩ := hreplaced
  exact ⟨front ++ before, after ++ back, by simp, by simp⟩

theorem Taken.widen (htaken : Taken q rs rs') (front back : List ρ) :
    Taken q (front ++ rs ++ back) (front ++ rs' ++ back) := by
  obtain ⟨before, after, rfl, rfl⟩ := htaken
  exact ⟨front ++ before, after ++ back, by simp, by simp⟩

/-! ### Insertions that find the key -/

/-- A record with the key of another takes its place, and searches find it there. -/
theorem put_replaced (leafMax indexMax : ℕ) (fresh : ℕ → Option α) {r q : ρ}
    (hfound : lookup key (key r) height t = some q) :
    ∃ u, put key leafMax indexMax fresh r height t = .kept u ∧
      Replaced q r (records height t) (records height u) ∧
        lookup key (key r) height u = some r := by
  induction height with
  | zero =>
    obtain ⟨a, rs⟩ := t
    rw [lookup] at hfound
    rw [put]
    cases hfind : leafFind (rs.map key) (key r) with
    | absent i => simp [hfind] at hfound
    | found i =>
      simp only [hfind] at hfound
      obtain ⟨hi, rfl⟩ := List.getElem?_eq_some_iff.mp hfound
      have hkey := leafFind_found hfind
      have hsame : (rs.set i r).map key = rs.map key := by
        obtain ⟨hlt, heq⟩ := List.getElem?_eq_some_iff.mp hkey
        rw [List.map_set, ← heq, List.set_getElem_self]
      refine ⟨(a, rs.set i r), rfl, ⟨rs.take i, rs.drop (i + 1), ?_, ?_⟩, ?_⟩
      · rw [records_leaf, ← List.drop_eq_getElem_cons hi, List.take_append_drop]
      · rw [records_leaf, List.set_eq_take_append_cons_drop, if_pos hi]
      · rw [lookup, hsame, hfind]
        exact List.getElem?_set_self hi
  | succ height ih =>
    obtain ⟨a, es⟩ := t
    rcases eq_or_ne es [] with rfl | hne
    · simp [lookup] at hfound
    obtain ⟨before, entry, after, hslot⟩ := exists_slotted hne (key r)
    rw [lookup, hslot.getElem?] at hfound
    obtain ⟨u, hput, hreplaced, hlookup⟩ := ih hfound
    refine ⟨_, by rw [hslot.put, hput, graft], ?_, ?_⟩
    · have hwiden := hreplaced.widen (before.flatMap fun e ↦ records height e.2)
        (after.flatMap fun e ↦ records height e.2)
      simpa [hslot.eq] using hwiden
    · have hroute : Slotted (before ++ (entry.1, u) :: after) (key r) before (entry.1, u) after := by
        refine ⟨rfl, ?_⟩
        rw [← hslot.slot, route, route, hslot.eq]
        simp
      rw [lookup, hroute.getElem?]
      exact hlookup

/-! ### Insertions that do not find the key -/

/-- The trees of an outcome have records from a list. -/
def Outcome.Within {height : ℕ} (rs : List ρ) : Outcome α κ ρ height → Prop
  | .kept t => (records height t).Subperm rs
  | .split left _ right _ => (records height left ++ records height right).Subperm rs
  | .refused t => (records height t).Subperm rs

theorem Outcome.Within.mono {o : Outcome α κ ρ height} (ho : o.Within rs) (hsub : rs.Subperm rs') :
    o.Within rs' := by
  cases o with
  | kept t => exact List.Subperm.trans ho hsub
  | split left low right push => exact List.Subperm.trans ho hsub
  | refused t => exact List.Subperm.trans ho hsub

variable {fresh : Option α}

theorem settleLeaf_within {leafMax : ℕ} {r : ρ} {old new rs : List ρ} (hold : old.Subperm rs)
    (hnew : new.Subperm rs) : (settleLeaf (κ := κ) key leafMax fresh r a old new).Within rs := by
  unfold settleLeaf
  split_ifs
  · exact hnew
  · cases fresh with
    | none => exact hold
    | some b =>
      simp only [Outcome.Within, records_leaf, List.take_append_drop]
      exact hnew

theorem graft_within {height indexMax : ℕ} {before after : List (κ × Tree α κ ρ height)}
    {o : Outcome α κ ρ height} {rs : List ρ} (ho : o.Within rs) :
    (graft indexMax fresh a before k after o).Within
      ((before.flatMap fun e ↦ records height e.2) ++ rs ++
        after.flatMap fun e ↦ records height e.2) := by
  have hwiden {qs : List ρ} (hqs : qs.Subperm rs) :
      ((before.flatMap fun e ↦ records height e.2) ++ qs ++
        after.flatMap fun e ↦ records height e.2).Subperm
      ((before.flatMap fun e ↦ records height e.2) ++ rs ++
        after.flatMap fun e ↦ records height e.2) :=
    ((List.Subperm.refl _).append hqs).append (List.Subperm.refl _)
  cases o with
  | kept t => simpa [graft, Outcome.Within] using hwiden ho
  | refused t => simpa [graft, Outcome.Within] using hwiden ho
  | split left low right push =>
    simp only [graft]
    split_ifs
    · simpa [Outcome.Within] using hwiden ho
    · cases fresh with
      | none =>
        have hleft : (records height left).Subperm rs :=
          (List.sublist_append_left _ _).subperm.trans ho
        simpa [Outcome.Within] using hwiden hleft
      | some b =>
        simp only [Outcome.Within, records_index]
        rw [← List.flatMap_append, List.take_append_drop]
        simpa using hwiden ho

/-- A record that is not found is all that an insertion brings, refused or not. -/
theorem put_within (leafMax indexMax : ℕ) (fresh : ℕ → Option α) {r : ρ}
    (hnone : lookup key (key r) height t = none) :
    (put key leafMax indexMax fresh r height t).Within (r :: records height t) := by
  induction height with
  | zero =>
    obtain ⟨a, rs⟩ := t
    rw [lookup] at hnone
    rw [put]
    cases hfind : leafFind (rs.map key) (key r) with
    | found i =>
      have hkey := leafFind_found hfind
      simp only [hfind] at hnone
      simp [hnone] at hkey
    | absent i =>
      refine settleLeaf_within List.Subperm.cons_self ?_
      rcases Nat.lt_or_ge rs.length i with hlt | hle
      · rw [List.insertIdx_of_length_lt hlt]
        exact List.Subperm.cons_self
      · exact (List.perm_insertIdx r rs hle).subperm
  | succ height ih =>
    obtain ⟨a, es⟩ := t
    rcases eq_or_ne es [] with rfl | hne
    · simp [put, Outcome.Within]
    obtain ⟨before, entry, after, hslot⟩ := exists_slotted hne (key r)
    rw [lookup, hslot.getElem?] at hnone
    rw [hslot.put]
    have hperm : ((before.flatMap fun e ↦ records height e.2) ++ (r :: records height entry.2) ++
        after.flatMap fun e ↦ records height e.2).Perm (r :: records (height + 1) (a, es)) := by
      rw [hslot.eq]
      simp
    exact (graft_within (ih hnone)).mono hperm.subperm

/-! ### Removals -/

theorem dropKey_taken {rs : List ρ} (hfound : lookup key k 0 (a, rs) = some q) :
    Taken q rs (dropKey key k rs) := by
  rw [lookup] at hfound
  unfold dropKey
  cases hfind : leafFind (rs.map key) k with
  | absent i => simp [hfind] at hfound
  | found i =>
    simp only [hfind] at hfound ⊢
    obtain ⟨hi, rfl⟩ := List.getElem?_eq_some_iff.mp hfound
    refine ⟨rs.take i, rs.drop (i + 1), ?_, List.eraseIdx_eq_take_drop_succ ..⟩
    rw [← List.drop_eq_getElem_cons hi, List.take_append_drop]

theorem Cut.taken_of {es fs : List (κ × Tree α κ ρ height)}
    {t : Tree α κ ρ height → Tree α κ ρ height} (hcut : Cut es k t fs)
    (ht : ∀ e, es[route es k]? = some e → Taken q (records height e.2) (records height (t e.2))) :
    Taken q (es.flatMap fun e ↦ records height e.2) (fs.flatMap fun e ↦ records height e.2) := by
  cases hcut with
  | put before entry after hslot =>
    have hwiden := (ht entry hslot.getElem?).widen (before.flatMap fun e ↦ records height e.2)
      (after.flatMap fun e ↦ records height e.2)
    conv in es.flatMap _ => rw [hslot.eq]
    simpa using hwiden
  | taken before entry after hslot hempty =>
    have hwiden := (ht entry hslot.getElem?).widen (before.flatMap fun e ↦ records height e.2)
      (after.flatMap fun e ↦ records height e.2)
    rw [hempty] at hwiden
    conv in es.flatMap _ => rw [hslot.eq]
    simpa using hwiden

theorem delete_taken (hfound : lookup key k height t = some q) :
    Taken q (records height t) (records height (delete key k height t)) := by
  induction height with
  | zero =>
    obtain ⟨a, rs⟩ := t
    exact dropKey_taken hfound
  | succ height ih =>
    obtain ⟨a, es⟩ := t
    rcases eq_or_ne es [] with rfl | hne
    · simp [lookup] at hfound
    obtain ⟨fs, hrun, hcut, -⟩ := delete_index key k a hne
    rw [hrun]
    refine hcut.taken_of fun e he ↦ ih ?_
    rwa [lookup, he] at hfound

/-! ### Whole trees -/

namespace Root

variable {root : Root α κ ρ}

/-- A record with the key of another takes its place, and searches find it there. -/
theorem put_replaced (leafMax indexMax : ℕ) (fresh : ℕ → Option α) {r q : ρ}
    (hfound : root.lookup key (key r) = some q) :
    ∃ root', root.put key leafMax indexMax fresh r = (root', true) ∧
      root'.height = root.height ∧ Replaced q r root.records root'.records ∧
        root'.lookup key (key r) = some r := by
  cases root with
  | empty => simp [lookup] at hfound
  | node height t =>
    obtain ⟨u, hput, hreplaced, hlookup⟩ := SearchTree.put_replaced leafMax indexMax fresh hfound
    exact ⟨node height u, by rw [put, hput], rfl, hreplaced, hlookup⟩

/-- A record that is not found is all that an insertion brings, refused or not. -/
theorem put_within (leafMax indexMax : ℕ) (fresh : ℕ → Option α) {r : ρ}
    (hnone : root.lookup key (key r) = none) :
    (root.put key leafMax indexMax fresh r).1.records.Subperm (r :: root.records) := by
  cases root with
  | empty =>
    rw [put]
    cases fresh 0 with
    | none => exact List.Subperm.cons_self
    | some a => exact List.Subperm.refl _
  | node height t =>
    have hwithin := SearchTree.put_within leafMax indexMax fresh hnone
    rw [put]
    generalize SearchTree.put key leafMax indexMax fresh r height t = out at hwithin ⊢
    cases out with
    | kept u => exact hwithin
    | refused u => exact hwithin
    | split left low right push =>
      cases fresh (height + 1) with
      | none => exact (List.sublist_append_left _ _).subperm.trans hwithin
      | some b => simpa [records, Outcome.Within] using hwithin

/-- A removal takes out the record that the search finds. -/
theorem delete_taken {k : κ} {q : ρ} (hfound : root.lookup key k = some q) :
    Taken q root.records (root.delete key k).1.records := by
  cases root with
  | empty => simp [lookup] at hfound
  | node height t =>
    have hfound' : SearchTree.lookup key k height t = some q := hfound
    have htaken := SearchTree.delete_taken hfound'
    rw [delete, if_neg (by simp [hfound'])]
    rcases height with - | - | height
    · obtain ⟨a, rs⟩ := t
      simp only [cutRoot]
      split_ifs with hempty
      · rw [SearchTree.delete, records_leaf, records_leaf, hempty] at htaken
        exact htaken
      · exact htaken
    · obtain ⟨a, es⟩ := t
      have hne : es ≠ [] := by
        rintro rfl
        simp [SearchTree.lookup] at hfound'
      obtain ⟨fs, hrun, -⟩ := delete_index key k a hne
      rw [hrun] at htaken
      simp only [cutRoot, hrun]
      split_ifs with hshort
      · rw [records_collapse]
        exact htaken
      · exact htaken
    · exact htaken

/-- A removal does not make a tree higher. -/
theorem height_delete_le (k : κ) (root : Root α κ ρ) :
    (root.delete key k).1.height ≤ root.height := by
  cases root with
  | empty => exact le_rfl
  | node height t =>
    rw [delete]
    split_ifs with hnone
    · exact le_rfl
    · rcases height with - | - | height
      · obtain ⟨a, rs⟩ := t
        simp only [cutRoot]
        split_ifs <;> exact Nat.zero_le _
      · obtain ⟨a, es⟩ := t
        simp only [cutRoot]
        generalize SearchTree.delete key k 1 (a, es) = u
        obtain ⟨b, fs⟩ := u
        split_ifs
        · rcases fs with - | ⟨e, - | ⟨f, fs⟩⟩
          · exact Nat.zero_le _
          · exact Nat.zero_le _
          · exact le_rfl
        · exact le_rfl
      · exact le_rfl

end Root

end Obmafs3.Library.SearchTree
