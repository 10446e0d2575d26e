import Mathlib.Data.Finset.Card
import Mathlib.Data.List.Sort
import Mathlib.Data.Prod.Lex

/-!
# Sets as sorted lists

A finite set is a list in ascending order. A list is made into one by sorting it and leaving out
what repeats, and two sets are intersected, united or subtracted in one pass over both of them. The
results say that the outcome is in ascending order again and which elements it has.
-/

set_option autoImplicit false

namespace Obmafs3.Library.SortedLists

variable {α : Type*} [LinearOrder α] {a b x : α} {l m : List α}

/-! ### Sorting -/

/-- What is left of a list when every element that equals the last one kept is left out. -/
def dropRepeats (last : α) : List α → List α
  | [] => []
  | a :: l => if a = last then dropRepeats last l else a :: dropRepeats a l

/-- Sort a list and leave out what repeats. -/
def sortDedup (l : List α) : List α :=
  match l.mergeSort (· ≤ ·) with
  | [] => []
  | a :: l => a :: dropRepeats a l

theorem mem_dropRepeats : x ∈ a :: dropRepeats a l ↔ x ∈ a :: l := by
  induction l generalizing a with
  | nil => rfl
  | cons b l ih =>
    rw [dropRepeats]
    split_ifs with hsame
    · rw [ih, hsame]
      simp only [List.mem_cons, or_self_left]
    · rw [List.mem_cons, ih, ← List.mem_cons]

theorem pairwise_dropRepeats (hsorted : (a :: l).Pairwise (· ≤ ·)) :
    (a :: dropRepeats a l).Pairwise (· < ·) := by
  induction l generalizing a with
  | nil => exact List.pairwise_singleton _ _
  | cons b l ih =>
    obtain ⟨hfirst, hrest⟩ := List.pairwise_cons.mp hsorted
    rw [dropRepeats]
    split_ifs with hsame
    · rw [hsame] at hrest
      exact ih hrest
    · have hlt : a < b := lt_of_le_of_ne (hfirst b List.mem_cons_self) (Ne.symm hsame)
      refine List.pairwise_cons.mpr ⟨fun c hc ↦ ?_, ih hrest⟩
      rcases List.mem_cons.mp (mem_dropRepeats.mp hc) with rfl | hc
      · exact hlt
      · exact hlt.trans_le ((List.pairwise_cons.mp hrest).1 c hc)

theorem mem_sortDedup : x ∈ sortDedup l ↔ x ∈ l := by
  have hmem : x ∈ l.mergeSort (· ≤ ·) ↔ x ∈ l := List.mem_mergeSort
  rw [← hmem, sortDedup]
  cases l.mergeSort (· ≤ ·) with
  | nil => rfl
  | cons a l => exact mem_dropRepeats

theorem pairwise_sortDedup (l : List α) : (sortDedup l).Pairwise (· < ·) := by
  have hsorted := List.pairwise_mergeSort' (· ≤ ·) l
  rw [sortDedup]
  cases hsort : l.mergeSort (· ≤ ·) with
  | nil => exact List.Pairwise.nil
  | cons a l =>
    rw [hsort] at hsorted
    exact pairwise_dropRepeats hsorted

/-! ### Two sets in one pass -/

/-- What is in both of two sets. -/
def intersect : List α → List α → List α
  | [], _ => []
  | _ :: _, [] => []
  | a :: l, b :: m =>
    if a = b then a :: intersect l m
    else if a < b then intersect l (b :: m)
    else intersect (a :: l) m
termination_by l m => l.length + m.length

/-- What is in one of two sets. -/
def union : List α → List α → List α
  | [], m => m
  | a :: l, [] => a :: l
  | a :: l, b :: m =>
    if a = b then a :: union l m
    else if a < b then a :: union l (b :: m)
    else b :: union (a :: l) m
termination_by l m => l.length + m.length

/-- What is in the first of two sets and not in the second. -/
def difference : List α → List α → List α
  | [], _ => []
  | a :: l, [] => a :: l
  | a :: l, b :: m =>
    if a < b then a :: difference l (b :: m)
    else if a = b then difference l m
    else difference (a :: l) m
termination_by l m => l.length + m.length

theorem intersect_sublist (l m : List α) : (intersect l m).Sublist l := by
  fun_induction intersect l m with
  | case1 => exact List.Sublist.refl _
  | case2 => exact List.nil_sublist _
  | case3 l b m ih => exact ih.cons_cons b
  | case4 a l b m hsame hlt ih => exact ih.cons a
  | case5 a l b m hsame hlt ih => exact ih

theorem difference_sublist (l m : List α) : (difference l m).Sublist l := by
  fun_induction difference l m with
  | case1 => exact List.Sublist.refl _
  | case2 => exact List.Sublist.refl _
  | case3 a l b m hlt ih => exact ih.cons_cons a
  | case4 l b m hlt ih => exact ih.cons b
  | case5 a l b m hlt hsame ih => exact ih

/-- The head of an ascending list is not in what follows it. -/
theorem lt_of_mem_tail (hsorted : (a :: l).Pairwise (· < ·)) (hx : x ∈ l) : a < x :=
  (List.pairwise_cons.mp hsorted).1 x hx

/-- An element below the head of an ascending list is not in it. -/
theorem notMem_of_lt_head (hsorted : (b :: m).Pairwise (· < ·)) (hlt : a < b) : a ∉ b :: m := by
  intro ha
  rcases List.mem_cons.mp ha with rfl | ha
  · exact hlt.false
  · exact (hlt.trans (lt_of_mem_tail hsorted ha)).false

theorem mem_intersect (hl : l.Pairwise (· < ·)) (hm : m.Pairwise (· < ·)) :
    x ∈ intersect l m ↔ x ∈ l ∧ x ∈ m := by
  fun_induction intersect l m with
  | case1 => simp
  | case2 => simp
  | case3 l b m ih =>
    rw [List.mem_cons, ih hl.of_cons hm.of_cons, List.mem_cons, List.mem_cons]
    constructor
    · rintro (rfl | ⟨hxl, hxm⟩)
      · exact ⟨Or.inl rfl, Or.inl rfl⟩
      · exact ⟨Or.inr hxl, Or.inr hxm⟩
    · rintro ⟨rfl | hxl, hxm⟩
      · exact Or.inl rfl
      · refine Or.inr ⟨hxl, hxm.resolve_left ?_⟩
        rintro rfl
        exact (lt_of_mem_tail hl hxl).false
  | case4 a l b m hsame hlt ih =>
    rw [ih hl.of_cons hm, List.mem_cons (l := l)]
    refine and_congr_left fun hxm ↦ (or_iff_right ?_).symm
    rintro rfl
    exact notMem_of_lt_head hm hlt hxm
  | case5 a l b m hsame hlt ih =>
    have hgt : b < a := lt_of_le_of_ne (not_lt.mp hlt) (Ne.symm hsame)
    rw [ih hl hm.of_cons, List.mem_cons (l := m)]
    refine and_congr_right fun hxl ↦ (or_iff_right ?_).symm
    rintro rfl
    exact notMem_of_lt_head hl hgt hxl

theorem mem_union : x ∈ union l m ↔ x ∈ l ∨ x ∈ m := by
  fun_induction union l m with
  | case1 => simp
  | case2 => simp
  | case3 l b m ih =>
    rw [List.mem_cons, ih]
    simp only [List.mem_cons]
    tauto
  | case4 a l b m hsame hlt ih =>
    rw [List.mem_cons, ih]
    simp only [List.mem_cons, or_assoc]
  | case5 a l b m hsame hlt ih =>
    rw [List.mem_cons, ih]
    simp only [List.mem_cons]
    tauto

section

variable (hl : l.Pairwise (· < ·)) (hm : m.Pairwise (· < ·))
include hl hm

theorem pairwise_union : (union l m).Pairwise (· < ·) := by
  fun_induction union l m with
  | case1 => exact hm
  | case2 => exact hl
  | case3 l b m ih =>
    refine List.pairwise_cons.mpr ⟨fun c hc ↦ ?_, ih hl.of_cons hm.of_cons⟩
    rcases mem_union.mp hc with hc | hc
    · exact lt_of_mem_tail hl hc
    · exact lt_of_mem_tail hm hc
  | case4 a l b m hsame hlt ih =>
    refine List.pairwise_cons.mpr ⟨fun c hc ↦ ?_, ih hl.of_cons hm⟩
    rcases mem_union.mp hc with hc | hc
    · exact lt_of_mem_tail hl hc
    · rcases List.mem_cons.mp hc with rfl | hc
      · exact hlt
      · exact hlt.trans (lt_of_mem_tail hm hc)
  | case5 a l b m hsame hlt ih =>
    have hgt : b < a := lt_of_le_of_ne (not_lt.mp hlt) (Ne.symm hsame)
    refine List.pairwise_cons.mpr ⟨fun c hc ↦ ?_, ih hl hm.of_cons⟩
    rcases mem_union.mp hc with hc | hc
    · rcases List.mem_cons.mp hc with rfl | hc
      · exact hgt
      · exact hgt.trans (lt_of_mem_tail hl hc)
    · exact lt_of_mem_tail hm hc

theorem mem_difference : x ∈ difference l m ↔ x ∈ l ∧ x ∉ m := by
  fun_induction difference l m with
  | case1 => simp
  | case2 => simp
  | case3 a l b m hlt ih =>
    rw [List.mem_cons, ih hl.of_cons hm, List.mem_cons (l := l)]
    constructor
    · rintro (rfl | ⟨hxl, hxm⟩)
      · exact ⟨Or.inl rfl, notMem_of_lt_head hm hlt⟩
      · exact ⟨Or.inr hxl, hxm⟩
    · rintro ⟨rfl | hxl, hxm⟩
      · exact Or.inl rfl
      · exact Or.inr ⟨hxl, hxm⟩
  | case4 l b m hlt ih =>
    rw [ih hl.of_cons hm.of_cons, List.mem_cons, List.mem_cons]
    constructor
    · rintro ⟨hxl, hxm⟩
      exact ⟨Or.inr hxl, not_or.mpr ⟨(lt_of_mem_tail hl hxl).ne', hxm⟩⟩
    · rintro ⟨hxl, hxm⟩
      obtain ⟨hne, hxm⟩ := not_or.mp hxm
      exact ⟨hxl.resolve_left hne, hxm⟩
  | case5 a l b m hlt hsame ih =>
    have hgt : b < a := lt_of_le_of_ne (not_lt.mp hlt) (Ne.symm hsame)
    rw [ih hl hm.of_cons, List.mem_cons (l := m), not_or]
    refine and_congr_right fun hxl ↦ (and_iff_right ?_).symm
    rintro rfl
    exact notMem_of_lt_head hl hgt hxl

end

/-! ### Sorting by exchanges -/

section Exchange

variable {β : Type*} (size : β → ℕ)

/-- Exchange an element with every smaller one that follows it: the one that comes to stand in its
place, and what then follows. -/
def sweep (a : β) : List β → β × List β
  | [] => (a, [])
  | b :: l =>
    if size b < size a then ((sweep b l).1, a :: (sweep b l).2)
    else ((sweep a l).1, b :: (sweep a l).2)

theorem sweep_perm (a : β) (l : List β) :
    ((sweep size a l).1 :: (sweep size a l).2).Perm (a :: l) := by
  induction l generalizing a with
  | nil => exact List.Perm.refl _
  | cons b l ih =>
    rw [sweep]
    split_ifs
    · exact (List.Perm.swap _ _ _).trans ((ih b).cons a)
    · exact (List.Perm.swap _ _ _).trans (((ih a).cons b).trans (List.Perm.swap _ _ _))

/-- Sort by size, one place after the other. -/
def exchangeSort : List β → List β
  | [] => []
  | a :: l => (sweep size a l).1 :: exchangeSort (sweep size a l).2
termination_by l => l.length
decreasing_by
  have hlength := (sweep_perm size a l).length_eq
  simp only [List.length_cons] at hlength ⊢
  omega

theorem exchangeSort_perm (l : List β) : (exchangeSort size l).Perm l := by
  fun_induction exchangeSort size l with
  | case1 => exact List.Perm.refl _
  | case2 a l ih => exact (ih.cons _).trans (sweep_perm size a l)

end Exchange

/-! ### Groups -/

section Groups

variable {β : Type*} [LinearOrder β] {y last : β} {pairs : List (α × β)}

/-- The groups of sorted pairs, behind one that is being counted: each first component, and how
many different seconds it has. -/
def countGroups (a : α) (last : β) (count : ℕ) : List (α × β) → List (α × ℕ)
  | [] => [(a, count)]
  | (b, y) :: pairs =>
    if b = a then countGroups a y (if y = last then count else count + 1) pairs
    else (a, count) :: countGroups b y 1 pairs

/-- Sort pairs and count the different seconds of each first component. -/
def groupCounts (pairs : List (α × β)) : List (α × ℕ) :=
  match pairs.mergeSort (toLex · ≤ toLex ·) with
  | [] => []
  | (a, y) :: pairs => countGroups a y 1 pairs

/-- The different seconds of a first component. -/
def seconds (a : α) (pairs : List (α × β)) : Finset β :=
  ((pairs.filter (·.1 = a)).map Prod.snd).toFinset

@[simp] theorem mem_seconds : y ∈ seconds a pairs ↔ (a, y) ∈ pairs := by
  simp [seconds]

@[simp] theorem seconds_nil : seconds a ([] : List (α × β)) = ∅ := rfl

theorem seconds_cons_self : seconds a ((a, y) :: pairs) = insert y (seconds a pairs) := by
  ext z
  simp

theorem seconds_cons_of_ne (hne : a ≠ b) : seconds a ((b, y) :: pairs) = seconds a pairs := by
  ext z
  simp [hne]

/-- What is known of the pairs behind the first of sorted ones. -/
theorem le_of_sorted (hsorted : ((a, last) :: pairs).Pairwise (toLex · ≤ toLex ·)) {p : α × β}
    (hp : p ∈ pairs) : a < p.1 ∨ a = p.1 ∧ last ≤ p.2 :=
  Prod.Lex.toLex_le_toLex.mp ((List.pairwise_cons.mp hsorted).1 p hp)

/-- What is smaller than the first of sorted pairs is in none of them. -/
theorem notMem_of_sorted (hsorted : ((b, y) :: pairs).Pairwise (toLex · ≤ toLex ·))
    (hlt : a < b ∨ a = b ∧ last < y) : (a, last) ∉ (b, y) :: pairs := by
  intro hmem
  have hle : b < a ∨ b = a ∧ y ≤ last := by
    rcases List.mem_cons.mp hmem with heq | hmem
    · obtain ⟨rfl, rfl⟩ := Prod.mk.inj heq
      exact Or.inr ⟨rfl, le_rfl⟩
    · exact le_of_sorted hsorted hmem
  rcases hlt with hlt | ⟨rfl, hlt⟩
  · rcases hle with hgt | ⟨rfl, -⟩
    · exact lt_asymm hlt hgt
    · exact lt_irrefl _ hlt
  · rcases hle with hgt | ⟨-, hle⟩
    · exact lt_irrefl _ hgt
    · exact hle.not_gt hlt

section

variable (hsorted : ((a, last) :: pairs).Pairwise (toLex · ≤ toLex ·))
include hsorted

theorem mem_countGroups (extra : ℕ) {c : ℕ} : (x, c) ∈ countGroups a last (extra + 1) pairs ↔
      (seconds x ((a, last) :: pairs)).Nonempty ∧
        c = (if x = a then extra else 0) + (seconds x ((a, last) :: pairs)).card := by
  induction pairs generalizing a last extra with
  | nil =>
    rw [countGroups, List.mem_singleton, Prod.mk.injEq]
    by_cases hx : x = a
    · subst hx
      simp [seconds_cons_self]
    · simp [seconds_cons_of_ne hx, hx]
  | cons p pairs ih =>
    obtain ⟨b, y⟩ := p
    obtain ⟨hfirst, hrest⟩ := List.pairwise_cons.mp hsorted
    rw [countGroups]
    by_cases hsame : b = a
    · subst hsame
      rw [if_pos rfl]
      by_cases hrepeat : y = last
      · -- the pair repeats, so it adds no second
        subst hrepeat
        have hsecond : seconds x ((b, y) :: (b, y) :: pairs) = seconds x ((b, y) :: pairs) := by
          ext z
          simp
        rw [if_pos rfl, ih hrest, hsecond]
      · rw [if_neg hrepeat, ih hrest]
        by_cases hx : x = b
        · subst hx
          have hlt : last < y := by
            rcases le_of_sorted hsorted List.mem_cons_self with hlt | ⟨-, hle⟩
            · exact absurd hlt (lt_irrefl _)
            · exact lt_of_le_of_ne hle (Ne.symm hrepeat)
          have hnew : last ∉ seconds x ((x, y) :: pairs) := by
            rw [mem_seconds]
            exact notMem_of_sorted hrest (Or.inr ⟨rfl, hlt⟩)
          have hnonempty : (seconds x ((x, y) :: pairs)).Nonempty :=
            ⟨y, mem_seconds.mpr List.mem_cons_self⟩
          rw [seconds_cons_self (y := last), Finset.card_insert_of_notMem hnew, if_pos rfl,
            if_pos rfl, and_iff_right hnonempty, and_iff_right (Finset.insert_nonempty _ _)]
          omega
        · rw [seconds_cons_of_ne (y := last) hx, if_neg hx, if_neg hx]
    · have hlt : a < b := by
        rcases le_of_sorted hsorted List.mem_cons_self with hlt | ⟨heq, -⟩
        · exact hlt
        · exact absurd heq.symm hsame
      rw [if_neg hsame, List.mem_cons, Prod.mk.injEq, ih hrest 0]
      by_cases hx : x = a
      · subst hx
        have hnone : seconds x ((b, y) :: pairs) = ∅ := by
          refine Finset.eq_empty_of_forall_notMem fun z hz ↦ ?_
          exact notMem_of_sorted hrest (Or.inl hlt) (mem_seconds.mp hz)
        simp [seconds_cons_self (y := last), hnone]
      · rw [seconds_cons_of_ne (y := last) hx]
        simp [hx]

/-- The groups are in ascending order. -/
theorem pairwise_countGroups {count : ℕ} :
    ((countGroups a last count pairs).map Prod.fst).Pairwise (· < ·) := by
  induction pairs generalizing a last count with
  | nil => exact List.pairwise_singleton _ _
  | cons p pairs ih =>
    obtain ⟨b, y⟩ := p
    obtain ⟨-, hrest⟩ := List.pairwise_cons.mp hsorted
    rw [countGroups]
    by_cases hsame : b = a
    · subst hsame
      rw [if_pos rfl]
      exact ih hrest
    · rw [if_neg hsame]
      have hlt : a < b := by
        rcases le_of_sorted hsorted List.mem_cons_self with hlt | ⟨heq, -⟩
        · exact hlt
        · exact absurd heq.symm hsame
      refine List.pairwise_cons.mpr ⟨fun z hz ↦ ?_, ih hrest⟩
      obtain ⟨⟨z, c⟩, hmem, rfl⟩ := List.mem_map.mp hz
      obtain ⟨w, hw⟩ := ((mem_countGroups hrest 0).mp hmem).1
      by_contra hge
      have hle : z < b := (not_lt.mp hge).trans_lt hlt
      exact notMem_of_sorted hrest (Or.inl hle) (mem_seconds.mp hw)

end

theorem groupCounts_spec (pairs : List (α × β)) :
    ((groupCounts pairs).map Prod.fst).Pairwise (· < ·) ∧ ∀ x c, (x, c) ∈ groupCounts pairs ↔
        (∃ y, (x, y) ∈ pairs) ∧ c = (seconds x pairs).card := by
  have hsorted : (pairs.mergeSort (toLex · ≤ toLex ·)).Pairwise (toLex · ≤ toLex ·) := by
    have htotal (p q : α × β) : decide (toLex p ≤ toLex q) || decide (toLex q ≤ toLex p) := by
      simpa using le_total (toLex p) (toLex q)
    have htrans (p q r : α × β) : decide (toLex p ≤ toLex q) → decide (toLex q ≤ toLex r) →
        decide (toLex p ≤ toLex r) := by
      simpa using le_trans
    simpa using List.pairwise_mergeSort htrans htotal pairs
  have hmem (x : α) : seconds x (pairs.mergeSort (toLex · ≤ toLex ·)) = seconds x pairs := by
    ext y
    simp
  rw [groupCounts]
  cases hsort : pairs.mergeSort (toLex · ≤ toLex ·) with
  | nil =>
    rw [hsort] at hmem
    refine ⟨List.Pairwise.nil, fun x c ↦ ?_⟩
    constructor
    · intro hnil
      cases hnil
    · rintro ⟨⟨y, hy⟩, -⟩
      have hnone : y ∈ seconds x ([] : List (α × β)) := (hmem x).symm ▸ mem_seconds.mpr hy
      cases mem_seconds.mp hnone
  | cons p rest =>
    obtain ⟨a, y⟩ := p
    rw [hsort] at hsorted hmem
    refine ⟨pairwise_countGroups hsorted, fun x c ↦ ?_⟩
    rw [mem_countGroups hsorted 0, hmem, ite_self, Nat.zero_add]
    exact and_congr_left' (exists_congr fun _ ↦ mem_seconds)

end Groups

end Obmafs3.Library.SortedLists
