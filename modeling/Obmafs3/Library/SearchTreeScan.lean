import Obmafs3.Library.SearchTreeDelete
import Obmafs3.Library.SearchTreeDemand
import Mathlib.Data.List.Nodup

/-!
# Scans

A scan goes down from the root, picks a slot in every index node, and reads the leaves from the one
it reaches on. It skips records, then collects, and stops at the first record that is past what it
looks for. `scan_eq_filter` says what it collects when nothing comes back after a stop, and
`recordsFrom_below` that nothing at or above a key is left out on the left.
-/

set_option autoImplicit false
set_option linter.unusedSectionVars false

namespace Obmafs3.Library.SearchTree

open Search

section Scan

variable {ρ : Type}

/-- Collect the records that are neither before nor after what is looked for, up to the first that
is after it. -/
def scan (before after : ρ → Bool) : List ρ → List ρ
  | [] => []
  | r :: rs =>
    if before r then scan before after rs
    else if after r then []
    else r :: scan before after rs

theorem scan_eq_filter {before after : ρ → Bool} {rs : List ρ}
    (hafter : rs.Pairwise fun r q ↦ after r = true → after q = true) :
    scan before after rs = rs.filter fun r ↦ !before r && !after r := by
  induction rs with
  | nil => rfl
  | cons r rs ih =>
    obtain ⟨hfirst, hrest⟩ := List.pairwise_cons.mp hafter
    have hscan := ih hrest
    rw [scan]
    split_ifs with hbefore hstop
    · rw [hscan, List.filter_cons_of_neg (by simp [hbefore])]
    · refine (List.filter_eq_nil_iff.mpr fun q hq ↦ ?_).symm
      rcases List.mem_cons.mp hq with rfl | hq
      · simp [hstop]
      · simp [hfirst q hq hstop]
    · rw [hscan, List.filter_cons_of_pos (by simp [hbefore, hstop])]

/-- A scan collects records in the order in which it meets them. -/
theorem scan_sublist (before after : ρ → Bool) (rs : List ρ) :
    (scan before after rs).Sublist rs := by
  induction rs with
  | nil => exact List.Sublist.slnil
  | cons r rs ih =>
    rw [scan]
    split_ifs
    · exact ih.cons r
    · exact List.nil_sublist _
    · exact ih.cons_cons r

end Scan

variable {α κ ρ : Type} [LinearOrder κ] {key : ρ → κ}

/-- The records from a leaf on, where `pick` chooses the slot in every index node from its
separators. -/
def recordsFrom (pick : List κ → ℕ) : (height : ℕ) → Tree α κ ρ height → List ρ
  | 0, (_, rs) => rs
  | height + 1, (_, es) =>
    match es.drop (pick (es.map Prod.fst)) with
    | [] => []
    | e :: after => recordsFrom pick height e.2 ++ after.flatMap fun e ↦ records height e.2

theorem recordsFrom_suffix (pick : List κ → ℕ) (height : ℕ) (t : Tree α κ ρ height) :
    recordsFrom pick height t <:+ records height t := by
  induction height with
  | zero => exact List.suffix_rfl
  | succ height ih =>
    obtain ⟨a, es⟩ := t
    rw [recordsFrom, records_index]
    cases hdrop : es.drop (pick (es.map Prod.fst)) with
    | nil => exact List.nil_suffix
    | cons e after =>
      obtain ⟨front, hfront⟩ := ih e.2
      refine ⟨(es.take (pick (es.map Prod.fst))).flatMap (fun e ↦ records height e.2) ++ front, ?_⟩
      conv_rhs => rw [← List.take_append_drop (pick (es.map Prod.fst)) es, hdrop]
      rw [List.flatMap_append, List.flatMap_cons, ← hfront]
      simp

/-- The leaves from one on. -/
def leavesFrom (pick : List κ → ℕ) : (height : ℕ) → Tree α κ ρ height → List (α × List ρ)
  | 0, t => [t]
  | height + 1, (_, es) =>
    match es.drop (pick (es.map Prod.fst)) with
    | [] => []
    | e :: after => leavesFrom pick height e.2 ++ after.flatMap fun e ↦ leaves height e.2

/-- The labels of the nodes on the way to the first of these leaves. -/
def wayDown (pick : List κ → ℕ) : (height : ℕ) → Tree α κ ρ height → List α
  | 0, (a, _) => [a]
  | height + 1, (a, es) =>
    match es.drop (pick (es.map Prod.fst)) with
    | [] => [a]
    | e :: _ => a :: wayDown pick height e.2

theorem leavesFrom_records (pick : List κ → ℕ) (height : ℕ) (t : Tree α κ ρ height) :
    (leavesFrom pick height t).flatMap Prod.snd = recordsFrom pick height t := by
  induction height with
  | zero => exact List.flatMap_singleton _ _
  | succ height ih =>
    obtain ⟨a, es⟩ := t
    rw [leavesFrom, recordsFrom]
    cases es.drop (pick (es.map Prod.fst)) with
    | nil => rfl
    | cons e after =>
      simp only [List.flatMap_append, ih, List.flatMap_assoc, leaves_records]

/-- A slot is chosen whose separator is at or below a key, unless it is the first. -/
def PicksBelow (pick : List κ → ℕ) (k : κ) : Prop :=
  ∀ keys : List κ, keys ≠ [] → keys.Pairwise (· < ·) →
    ∃ h : pick keys < keys.length, pick keys ≠ 0 → keys[pick keys] ≤ k

theorem picksBelow_indexFind (k : κ) : PicksBelow (indexFind · k) k := by
  intro keys hne hsorted
  obtain ⟨hlt, hle, -⟩ := indexFind_spec hsorted hne k
  exact ⟨hlt, hle⟩

variable {height : ℕ} {t : Tree α κ ρ height}

variable {pick : List κ → ℕ}

/-- What is left of such a slot is below the key. -/
theorem PicksBelow.split {k : κ} (hpick : PicksBelow pick k) {a : α}
    {es : List (κ × Tree α κ ρ height)} (hordered : Ordered key (height + 1) (a, es)) :
    ∃ before entry after, es = before ++ entry :: after ∧ before.length = pick (es.map Prod.fst) ∧
      ∀ e ∈ before, ∀ r ∈ records height e.2, key r < k := by
  obtain ⟨hne, -, hapart⟩ := hordered
  obtain ⟨hlt, hle⟩ := hpick _ (by simpa using hne) (separators_pairwise hapart)
  generalize pick (es.map Prod.fst) = slot at hlt hle ⊢
  have hslot : slot < es.length := by simpa using hlt
  have hsplit : es = es.take slot ++ es[slot] :: es.drop (slot + 1) := by
    rw [← List.drop_eq_getElem_cons hslot, List.take_append_drop]
  refine ⟨es.take slot, es[slot], es.drop (slot + 1), hsplit, ?_, fun e he r hr ↦ ?_⟩
  · rw [List.length_take, min_eq_left hslot.le]
  · have hne0 : slot ≠ 0 := by
      rintro rfl
      simp at he
    have hbelow : es[slot].1 ≤ k := by simpa using hle hne0
    rw [hsplit] at hapart
    have happart := (List.pairwise_append.mp hapart).2.2 e he es[slot] List.mem_cons_self
    exact (happart.2.1 _ (mem_span_of_record hr)).trans_le hbelow

/-- What is left out on the left is below the key. -/
theorem recordsFrom_below {k : κ} (hpick : PicksBelow pick k) (hordered : Ordered key height t)
    {r : ρ} (hr : r ∈ records height t) (hle : k ≤ key r) : r ∈ recordsFrom pick height t := by
  induction height with
  | zero => exact hr
  | succ height ih =>
    obtain ⟨a, es⟩ := t
    obtain ⟨before, entry, after, hsplit, hlength, hbefore⟩ := hpick.split hordered
    have hdrop : es.drop (pick (es.map Prod.fst)) = entry :: after := by
      rw [← hlength, hsplit, List.drop_left' rfl]
    rw [recordsFrom]
    simp only [hdrop]
    rw [records_index, hsplit, List.flatMap_append, List.flatMap_cons] at hr
    rcases List.mem_append.mp hr with hr | hr
    · obtain ⟨e, he, hr⟩ := List.mem_flatMap.mp hr
      exact absurd hle (not_le.mpr (hbefore e he r hr))
    · rcases List.mem_append.mp hr with hr | hr
      · exact List.mem_append_left _ (ih (hordered.2.1 entry (hsplit ▸ by simp)) hr)
      · exact List.mem_append_right _ hr

/-- Two ways to choose a slot that agree on sorted separators lead to the same leaf. -/
theorem recordsFrom_congr {pick pick' : List κ → ℕ}
    (hpick : ∀ keys : List κ, keys ≠ [] → keys.Pairwise (· < ·) → pick keys = pick' keys)
    (hordered : Ordered key height t) : recordsFrom pick height t = recordsFrom pick' height t := by
  induction height with
  | zero => rfl
  | succ height ih =>
    obtain ⟨a, es⟩ := t
    obtain ⟨hne, hchildren, hapart⟩ := hordered
    rw [recordsFrom, recordsFrom, hpick _ (by simpa using hne) (separators_pairwise hapart)]
    cases hdrop : es.drop (pick' (es.map Prod.fst)) with
    | nil => rfl
    | cons e after =>
      have he : e ∈ es := List.mem_of_mem_drop (hdrop ▸ List.mem_cons_self)
      simp only [ih (hchildren e he)]

/-- An insertion that needs a node and is refused the first leaves the tree alone. -/
theorem put_refused_first {leafMax indexMax : ℕ} {fresh : ℕ → Option α} {r : ρ}
    (hneed : 0 < demand key leafMax indexMax r height t) (hnone : fresh 0 = none) :
    put key leafMax indexMax fresh r height t = .refused t := by
  induction height with
  | zero =>
    obtain ⟨a, rs⟩ := t
    have hsplit : willSplit key leafMax indexMax r 0 (a, rs) = true := by
      by_contra hsplit
      rw [demand, if_neg hsplit] at hneed
      exact lt_irrefl 0 hneed
    rw [willSplit] at hsplit
    rw [put]
    cases hfind : leafFind (rs.map key) (key r) with
    | found i => simp [hfind] at hsplit
    | absent i =>
      have hi : i ≤ rs.length := by simpa using leafFind_absent_le hfind
      simp only [hfind, decide_eq_true_eq] at hsplit
      simp only [settleLeaf, List.length_insertIdx_of_le_length hi, hnone]
      rw [if_neg (by omega)]
  | succ height ih =>
    obtain ⟨a, es⟩ := t
    have hchild : ∃ e, es[route es (key r)]? = some e ∧
        0 < demand key leafMax indexMax r height e.2 := by
      cases hslot : es[route es (key r)]? with
      | none => simp [demand, willSplit, hslot] at hneed
      | some e =>
        refine ⟨e, rfl, ?_⟩
        by_cases hsplit : willSplit key leafMax indexMax r height e.2 = true
        · rw [demand_of_willSplit hsplit]
          exact Nat.succ_pos _
        · simpa [demand, willSplit, hslot, hsplit] using hneed
    obtain ⟨e, hslot, hneed'⟩ := hchild
    obtain ⟨hlt, rfl⟩ := List.getElem?_eq_some_iff.mp hslot
    rw [put]
    simp only [hslot, ih hneed', graft, Prod.mk.eta, ← List.drop_eq_getElem_cons hlt,
      List.take_append_drop]

namespace Root

/-- The records from a leaf on. -/
def recordsFrom (pick : List κ → ℕ) : Root α κ ρ → List ρ
  | empty => []
  | node height t => SearchTree.recordsFrom pick height t

theorem recordsFrom_suffix (pick : List κ → ℕ) (root : Root α κ ρ) :
    root.recordsFrom pick <:+ root.records := by
  cases root with
  | empty => exact List.suffix_rfl
  | node height t => exact SearchTree.recordsFrom_suffix pick height t

def leavesFrom (pick : List κ → ℕ) : Root α κ ρ → List (α × List ρ)
  | empty => []
  | node height t => SearchTree.leavesFrom pick height t

def wayDown (pick : List κ → ℕ) : Root α κ ρ → List α
  | empty => []
  | node height t => SearchTree.wayDown pick height t

theorem leavesFrom_records (pick : List κ → ℕ) (root : Root α κ ρ) :
    (root.leavesFrom pick).flatMap Prod.snd = root.recordsFrom pick := by
  cases root with
  | empty => rfl
  | node height t => exact SearchTree.leavesFrom_records pick height t

variable {root : Root α κ ρ} {before after : ρ → Bool} {k : κ} {r : ρ} {pick : List κ → ℕ}

theorem recordsFrom_below (hpick : PicksBelow pick k) (hordered : root.Ordered key)
    (hr : r ∈ root.records) (hle : k ≤ key r) : r ∈ root.recordsFrom pick := by
  cases root with
  | empty => exact hr
  | node height t => exact SearchTree.recordsFrom_below hpick hordered hr hle

theorem recordsFrom_congr {pick pick' : List κ → ℕ}
    (hpick : ∀ keys : List κ, keys ≠ [] → keys.Pairwise (· < ·) → pick keys = pick' keys)
    (hordered : root.Ordered key) : root.recordsFrom pick = root.recordsFrom pick' := by
  cases root with
  | empty => rfl
  | node height t => exact SearchTree.recordsFrom_congr hpick hordered

section

variable (hordered : root.Ordered key)
include hordered

theorem records_pairwise : (root.records.map key).Pairwise (· < ·) := by
  cases root with
  | empty => exact List.Pairwise.nil
  | node height t => exact SearchTree.Ordered.records_pairwise hordered

/-- Two records of an ordered tree with one key are one. -/
theorem eq_of_key_eq {r q : ρ} (hr : r ∈ root.records)
    (hq : q ∈ root.records) (hkey : key r = key q) : r = q := by
  have hnodup : (root.records.map key).Nodup := (records_pairwise hordered).imp fun h ↦ h.ne
  exact List.inj_on_of_nodup_map hnodup hr hq hkey

/-- What a scan collects from some of the records. -/
theorem mem_scan_sublist {rs : List ρ} (hsub : rs.Sublist root.records)
    (hafter : ∀ r q, key r < key q → after r = true → after q = true) :
    r ∈ scan before after rs ↔ r ∈ rs ∧ before r = false ∧ after r = false := by
  have hsorted : rs.Pairwise fun r q ↦ after r = true → after q = true :=
    ((List.pairwise_map.mp (records_pairwise hordered)).sublist hsub).imp fun h ↦ hafter _ _ h
  rw [scan_eq_filter hsorted, List.mem_filter]
  simp

/-- What a scan collects from the leaf of a search on. -/
theorem mem_scan_recordsFrom (hafter : ∀ r q, key r < key q → after r = true → after q = true) :
    r ∈ scan before after (root.recordsFrom pick) ↔
      r ∈ root.recordsFrom pick ∧ before r = false ∧ after r = false :=
  mem_scan_sublist hordered (recordsFrom_suffix pick root).sublist hafter

/-- A scan from a leaf that has nothing at or above a key on its left misses nothing from the key
on. -/
theorem mem_scan_below (hpick : PicksBelow pick k) (hbefore : ∀ r, key r < k → before r = true)
    (hafter : ∀ r q, key r < key q → after r = true → after q = true) :
    r ∈ scan before after (root.recordsFrom pick) ↔
      r ∈ root.records ∧ before r = false ∧ after r = false := by
  rw [mem_scan_recordsFrom hordered hafter]
  refine and_congr_left fun hkeep ↦
    ⟨fun hr ↦ (recordsFrom_suffix _ root).subset hr,
      fun hr ↦ recordsFrom_below hpick hordered hr ?_⟩
  by_contra hlt
  rw [hbefore r (not_le.mp hlt)] at hkeep
  cases hkeep.1

/-- A scan from the leaf that a search reaches misses nothing at or above the key. -/
theorem mem_scan_route (hbefore : ∀ r, key r < k → before r = true)
    (hafter : ∀ r q, key r < key q → after r = true → after q = true) :
    r ∈ scan before after (root.recordsFrom (indexFind · k)) ↔
      r ∈ root.records ∧ before r = false ∧ after r = false :=
  mem_scan_below hordered (picksBelow_indexFind k) hbefore hafter

end

/-! ### Trees as sets -/

variable {leafMax indexMax : ℕ} {fresh : ℕ → Option α}

section

variable (hordered : root.Ordered key)
include hordered

theorem mem_lookup : root.lookup key k = some r ↔ r ∈ root.records ∧ key r = k := by
  rw [lookup_eq hordered]
  constructor
  · intro hfound
    exact ⟨List.mem_of_find?_eq_some hfound, by simpa using List.find?_some hfound⟩
  · rintro ⟨hr, rfl⟩
    cases hfound : root.records.find? (key · = key r) with
    | none => simpa using List.find?_eq_none.mp hfound r hr
    | some q =>
      rw [eq_of_key_eq hordered (List.mem_of_find?_eq_some hfound) hr
        (by simpa using List.find?_some hfound)]

theorem lookup_none : root.lookup key k = none ↔ ∀ r ∈ root.records, key r ≠ k := by
  rw [lookup_eq hordered, List.find?_eq_none]
  simp

theorem mem_put {r q : ρ} (hdone : (root.put key leafMax indexMax fresh r).2 = true) :
    q ∈ (root.put key leafMax indexMax fresh r).1.records ↔
      q = r ∨ q ∈ root.records ∧ key q ≠ key r := by
  rw [records_put hordered hdone, mem_upsert]

theorem mem_delete {q : ρ} : q ∈ (root.delete key k).1.records ↔ q ∈ root.records ∧ key q ≠ k := by
  rw [records_delete hordered, List.mem_filter]
  simp

end

theorem delete_found (hfound : root.lookup key k ≠ none) : (root.delete key k).2 = true := by
  cases root with
  | empty => exact absurd rfl hfound
  | node height t =>
    have hfound' : SearchTree.lookup key k height t ≠ none := hfound
    rw [delete, if_neg hfound']

/-- An insertion that needs a node and is refused the first leaves the tree alone. -/
theorem put_refused_first (hneed : 0 < root.demand key leafMax indexMax r) (hnone : fresh 0 = none)
    : root.put key leafMax indexMax fresh r = (root, false) := by
  cases root with
  | empty => rw [put, hnone]
  | node height t =>
    have hneed' : 0 < SearchTree.demand key leafMax indexMax r height t := by
      rw [demand] at hneed
      split_ifs at hneed with hsplit
      · rw [demand_of_willSplit hsplit]
        exact Nat.succ_pos _
      · exact hneed
    rw [put, SearchTree.put_refused_first hneed' hnone]

end Root

end Obmafs3.Library.SearchTree
