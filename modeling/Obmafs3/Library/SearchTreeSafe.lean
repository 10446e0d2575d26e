import Obmafs3.Library.SearchTreePut

/-!
# Insertions that keep the order

When a child divides, the parent replaces the separator of the child by the first key the child
holds. For a leaf that is its least record. For an index node it is the first separator, which
says nothing about the keys the node caught in its first slot: moved up to the parent, it can cut
them off. `Safe` is the condition, on the tree before an insertion, that no node on the path hands
up a separator of that kind, and `put_ordered` says that a safe insertion keeps the order
invariant.
-/

set_option autoImplicit false
set_option linter.unusedSectionVars false

namespace Obmafs3.Library.SearchTree

open Search

variable {α κ ρ : Type} [LinearOrder κ] (key : ρ → κ)

/-- Whether an insertion divides the node, when no label is refused. -/
def willSplit (leafMax indexMax : ℕ) (r : ρ) : (height : ℕ) → Tree α κ ρ height → Bool
  | 0, (_, rs) =>
    match leafFind (rs.map key) (key r) with
    | .found _ => false
    | .absent _ => leafMax ≤ rs.length
  | height + 1, (_, es) =>
    match es[route es (key r)]? with
    | none => false
    | some e => willSplit leafMax indexMax r height e.2 && indexMax ≤ es.length

/-- The separator a divided node hands to its parent for its left half. -/
def lowKey (r : ρ) : (height : ℕ) → Tree α κ ρ height → κ
  | 0, (_, rs) => min (key r) (firstKey (key r) (rs.map key))
  | height + 1, (_, es) =>
    if route es (key r) = 0 then
      match es[route es (key r)]? with
      | none => key r
      | some e => lowKey r height e.2
    else firstKey (key r) (es.map Prod.fst)

/-- On the path of an insertion every divided child outside a first slot hands up a separator that
still separates it from the entries on its left. -/
def Safe (leafMax indexMax : ℕ) (r : ρ) : (height : ℕ) → Tree α κ ρ height → Prop
  | 0, _ => True
  | height + 1, (_, es) =>
    ∀ e, es[route es (key r)]? = some e → Safe leafMax indexMax r height e.2 ∧
        (willSplit key leafMax indexMax r height e.2 = true → route es (key r) ≠ 0 →
          (∀ f ∈ es.take (route es (key r)),
            f.1 < lowKey key r height e.2 ∧ ∀ x ∈ span key height f.2, x < lowKey key r height e.2) ∧
          ∀ q ∈ records height e.2, lowKey key r height e.2 ≤ key q)

variable {key}

/-! ### The separators of a divided node -/

/-- The separator for the left half of a divided outcome, and that the node was full. -/
def Outcome.Divides {height : ℕ} (low : κ) (full : Bool) : Outcome α κ ρ height → Prop
  | .kept _ => True
  | .split _ l _ _ => l = low ∧ full = true
  | .refused _ => True

theorem firstKey_eq_of_ne {d e : κ} {keys : List κ} (hne : keys ≠ []) :
    firstKey d keys = firstKey e keys := by
  cases keys with
  | nil => exact absurd rfl hne
  | cons k keys => rfl

theorem firstKey_append_of_ne {d : κ} {keys rest : List κ} (hne : keys ≠ []) :
    firstKey d (keys ++ rest) = firstKey d keys := by
  cases keys with
  | nil => exact absurd rfl hne
  | cons k keys => rfl

variable {height : ℕ} {t : Tree α κ ρ height} {r : ρ}

/-- The least record of an overfull leaf. -/
theorem firstKey_insertIdx {rs : List ρ} {i : ℕ} (hi : i ≤ rs.length)
    (hsorted : (rs.map key).Pairwise (· < ·)) (hbefore : ∀ k ∈ (rs.map key).take i, k < key r)
    (hafter : ∀ k ∈ (rs.map key).drop i, key r < k) :
    firstKey (key r) ((rs.insertIdx i r).map key) =
      min (key r) (firstKey (key r) (rs.map key)) := by
  cases rs with
  | nil =>
    obtain rfl : i = 0 := by simpa using hi
    simp [firstKey]
  | cons q rs =>
    cases i with
    | zero =>
      have hlt : key r < key q := hafter _ (by simp)
      simp [firstKey, hlt.le]
    | succ i =>
      have hlt : key q < key r := hbefore _ (by simp)
      simp [firstKey, hlt.le]

variable {before after : List (κ × Tree α κ ρ height)} {fresh : ℕ → Option α} {leafMax indexMax : ℕ}
  {capacity : ℕ}

theorem put_divides (hordered : Ordered key height t) :
    (put key leafMax indexMax fresh r height t).Divides (lowKey key r height t)
      (willSplit key leafMax indexMax r height t) := by
  induction height with
  | zero =>
    obtain ⟨a, rs⟩ := t
    rw [put]
    cases hfind : leafFind (rs.map key) (key r) with
    | found i => trivial
    | absent i =>
      obtain ⟨hle, hbefore, hafter⟩ := leafFind_absent hordered hfind
      have hi : i ≤ rs.length := by simpa using hle
      simp only [settleLeaf]
      split_ifs with hroom
      · trivial
      · cases fresh 0 with
        | none => trivial
        | some b =>
          refine ⟨firstKey_insertIdx hi hordered hbefore hafter, ?_⟩
          rw [List.length_insertIdx_of_le_length hi] at hroom
          simp only [willSplit, hfind, decide_eq_true_eq]
          omega
  | succ height ih =>
    obtain ⟨a, es⟩ := t
    obtain ⟨before, entry, after, hrouted⟩ := hordered.route (key r)
    have hentry := ih (hordered.2.1 entry hrouted.mem)
    rw [hrouted.put]
    cases hput : put key leafMax indexMax fresh r height entry.2 with
    | kept t => trivial
    | refused t => trivial
    | split left low right push =>
      rw [hput] at hentry
      obtain ⟨hlow, hfull⟩ := hentry
      simp only [graft]
      split_ifs with hroom
      · trivial
      · cases fresh (height + 1) with
        | none => trivial
        | some b =>
          refine ⟨?_, ?_⟩
          · rw [lowKey, hrouted.getElem?, hrouted.slot]
            split_ifs with hzero
            · obtain rfl : before = [] := List.length_eq_zero_iff.mp hzero
              exact hlow
            · have hne : before.map Prod.fst ≠ [] := by simpa using fun h ↦ hzero (by simp [h])
              rw [hrouted.eq, List.map_append, List.map_append, firstKey_append_of_ne hne,
                firstKey_append_of_ne hne]
              exact firstKey_eq_of_ne hne
          · have hlength : es.length = before.length + 1 + after.length := by
              rw [hrouted.eq]
              simp only [List.length_append, List.length_cons]
              omega
            simp only [List.length_append, List.length_cons] at hroom
            simp only [willSplit, hrouted.getElem?, hfull, Bool.true_and, decide_eq_true_eq]
            omega

theorem lowKey_le (hordered : Ordered key height t) : lowKey key r height t ≤ key r := by
  induction height with
  | zero => exact min_le_left _ _
  | succ height ih =>
    obtain ⟨a, es⟩ := t
    obtain ⟨before, entry, after, hrouted⟩ := hordered.route (key r)
    rw [lowKey, hrouted.getElem?, hrouted.slot]
    split_ifs with hzero
    · exact ih (hordered.2.1 entry hrouted.mem)
    · obtain ⟨e, before, rfl⟩ :=
        List.exists_cons_of_ne_nil (l := before) fun h ↦ hzero (by simp [h])
      have happart : Apart key e entry := by
        have h := hrouted.eq ▸ hordered.2.2
        exact List.rel_of_pairwise_cons h (by simp)
      rw [hrouted.eq]
      exact (happart.1.trans_le (hrouted.le (by simp))).le

/-! ### The order after an insertion -/

/-- Two halves that a parent can keep side by side. -/
structure Halves {height : ℕ} (key : ρ → κ) (left : Tree α κ ρ height) (low : κ)
    (right : Tree α κ ρ height) (push : κ) : Prop where
  left_ordered : Ordered key height left
  right_ordered : Ordered key height right
  low_lt : low < push
  left_lt : ∀ x ∈ span key height left, x < push
  right_le : ∀ q ∈ records height right, push ≤ key q

/-- The trees of an outcome are ordered. -/
def Outcome.Ordered {height : ℕ} (key : ρ → κ) : Outcome α κ ρ height → Prop
  | .kept t => SearchTree.Ordered key height t
  | .split left low right push => Halves key left low right push
  | .refused t => SearchTree.Ordered key height t

theorem half_pos (hpos : 1 ≤ capacity) : 0 < half capacity := by
  unfold half
  omega

theorem half_le (capacity : ℕ) : half capacity ≤ capacity := by
  unfold half
  omega

/-- A list that exceeds a capacity, cut in half. -/
theorem exists_halves {β : Type} (hpos : 1 ≤ capacity) {xs : List β} (hlong : ¬xs.length ≤ capacity)
    :
    ∃ x front y back, xs.take (half capacity) = x :: front ∧ xs.drop (half capacity) = y :: back ∧
      xs = x :: front ++ y :: back := by
  have hhalf := half_le capacity
  have hhalfpos := half_pos hpos
  have htake : xs.take (half capacity) ≠ [] := by
    rw [Ne, List.take_eq_nil_iff]
    rintro (h | rfl)
    · omega
    · simp at hlong
  have hdrop : xs.drop (half capacity) ≠ [] := by
    rw [Ne, List.drop_eq_nil_iff]
    omega
  obtain ⟨x, front, hfront⟩ := List.exists_cons_of_ne_nil htake
  obtain ⟨y, back, hback⟩ := List.exists_cons_of_ne_nil hdrop
  exact ⟨x, front, y, back, hfront, hback, by rw [← hfront, ← hback, List.take_append_drop]⟩

theorem settleLeaf_ordered {leafMax : ℕ} (hleafMax : 1 ≤ leafMax) {fresh : Option α} {a : α}
    {old new : List ρ} (hold : (old.map key).Pairwise (· < ·))
    (hnew : (new.map key).Pairwise (· < ·)) :
    (settleLeaf (κ := κ) key leafMax fresh r a old new).Ordered key := by
  unfold settleLeaf
  split_ifs with hroom
  · exact hnew
  · cases fresh with
    | none => exact hold
    | some b =>
      obtain ⟨x, front, y, back, hfront, hback, rfl⟩ := exists_halves hleafMax hroom
      rw [List.map_append] at hnew
      obtain ⟨hleft, hright, hcross⟩ := List.pairwise_append.mp hnew
      simp only [hfront, hback]
      refine ⟨hleft, hright, hcross _ List.mem_cons_self _ List.mem_cons_self, ?_, ?_⟩
      · exact fun x hx ↦ hcross x hx _ List.mem_cons_self
      · intro q hq
        rcases List.mem_cons.mp hq with rfl | hq
        · exact le_rfl
        · exact (List.rel_of_pairwise_cons hright (List.mem_map_of_mem hq)).le

/-- Cutting an ordered run of entries in two. -/
theorem halves_of_apart {a b : α} {d d' : κ} {x y : κ × Tree α κ ρ height}
    {front back : List (κ × Tree α κ ρ height)}
    (hchildren : ∀ e ∈ x :: front ++ y :: back, Ordered key height e.2)
    (hapart : (x :: front ++ y :: back).Pairwise (Apart key)) :
    @Halves α κ ρ _ (height + 1) key (a, x :: front)
      (firstKey d ((x :: front ++ y :: back).map Prod.fst)) (b, y :: back)
      (firstKey d' ((y :: back).map Prod.fst)) := by
  obtain ⟨hleft, hright, hcross⟩ := List.pairwise_append.mp hapart
  refine ⟨⟨by simp, fun e he ↦ hchildren e (List.mem_append_left _ he), hleft⟩,
    ⟨by simp, fun e he ↦ hchildren e (List.mem_append_right _ he), hright⟩,
    (hcross x List.mem_cons_self y List.mem_cons_self).1, ?_, ?_⟩
  · intro k hk
    simp only [span_index, List.mem_flatMap] at hk
    obtain ⟨e, he, hk⟩ := hk
    have happart := hcross e he y List.mem_cons_self
    rcases List.mem_cons.mp hk with rfl | hk
    · exact happart.1
    · exact happart.2.1 k hk
  · intro q hq
    simp only [records_index, List.mem_flatMap] at hq
    obtain ⟨e, he, hq⟩ := hq
    rcases List.mem_cons.mp he with rfl | he
    · exact (hcross x List.mem_cons_self e List.mem_cons_self).2.2 q hq
    · have happart := List.rel_of_pairwise_cons hright he
      exact happart.1.le.trans (happart.2.2 q hq)

/-- Replace one entry of an index node by another that keeps its place. -/
theorem apart_replace {e f : κ × Tree α κ ρ height}
    (hapart : (before ++ e :: after).Pairwise (Apart key)) (hbefore : ∀ d ∈ before, Apart key d f)
    (hafter : ∀ g ∈ after, Apart key f g) : (before ++ f :: after).Pairwise (Apart key) := by
  obtain ⟨hleft, hright, hcross⟩ := List.pairwise_append.mp hapart
  refine List.pairwise_append.mpr ⟨hleft,
    List.pairwise_cons.mpr ⟨hafter, (List.pairwise_cons.mp hright).2⟩, fun d hd g hg ↦ ?_⟩
  rcases List.mem_cons.mp hg with rfl | hg
  · exact hbefore d hd
  · exact hcross d hd g (List.mem_cons_of_mem _ hg)

/-- Replace one entry of an index node by two that keep its place. -/
theorem apart_divide {e f g : κ × Tree α κ ρ height}
    (hapart : (before ++ e :: after).Pairwise (Apart key)) (hbefore : ∀ d ∈ before, Apart key d f)
    (hmiddle : Apart key f g) (hbefore' : ∀ d ∈ before, Apart key d g)
    (hafter : ∀ h ∈ after, Apart key f h) (hafter' : ∀ h ∈ after, Apart key g h) :
    (before ++ f :: g :: after).Pairwise (Apart key) := by
  have hone := apart_replace hapart hbefore hafter
  obtain ⟨hleft, hright, hcross⟩ := List.pairwise_append.mp hone
  obtain ⟨hf, hrest⟩ := List.pairwise_cons.mp hright
  refine List.pairwise_append.mpr ⟨hleft, List.pairwise_cons.mpr
    ⟨List.forall_mem_cons.mpr ⟨hmiddle, hf⟩, List.pairwise_cons.mpr ⟨hafter', hrest⟩⟩, ?_⟩
  intro d hd h hh
  rcases List.mem_cons.mp hh with rfl | hh
  · exact hbefore d hd
  · rcases List.mem_cons.mp hh with rfl | hh
    · exact hbefore' d hd
    · exact hcross d hd h (List.mem_cons_of_mem _ hh)

/-- The node around a slot that a safe insertion went through. -/
theorem graft_ordered {indexMax : ℕ} (hindexMax : 1 ≤ indexMax) {fresh : Option α} {a : α}
    {es before after : List (κ × Tree α κ ρ height)} {e : κ × Tree α κ ρ height}
    (hrouted : Routed es (key r) before e after) (hordered : Ordered key (height + 1) (a, es))
    {o : Outcome α κ ρ height} (ho : o.Ordered key)
    (hall : ∀ P : κ → Prop, ∀ Q : ρ → Prop, (∀ q, Q q → P (key q)) → Q r → All P Q height e.2 →
      o.All P Q) (hlow : ∀ left low right push, o = .split left low right push → before ≠ [] →
      (∀ f ∈ before, f.1 < low ∧ ∀ x ∈ span key height f.2, x < low) ∧
      low ≤ key r ∧ ∀ q ∈ records height e.2, low ≤ key q) :
    (graft indexMax fresh a before e.1 after o).Ordered key := by
  obtain ⟨hne, hchildren, hapart⟩ := hordered
  rw [hrouted.eq] at hapart hchildren
  have hcross := (List.pairwise_append.mp hapart).2.2
  have hrest := (List.pairwise_cons.mp (List.pairwise_append.mp hapart).2.1).1
  have hbound (g) (hg : g ∈ after) : o.All (· < g.1) (fun q ↦ key q < g.1) :=
    hall _ _ (fun _ h ↦ h) (hrouted.lt g hg) (forall_span_iff.mp (hrest g hg).2.1)
  have hfloor (hbefore : before ≠ []) : o.All (fun _ ↦ True) (fun q ↦ e.1 ≤ key q) := by
    obtain ⟨d, before, rfl⟩ := List.exists_cons_of_ne_nil hbefore
    exact hall _ _ (fun _ _ ↦ trivial) (hrouted.le hbefore)
      (forall_records_iff.mp (hcross d List.mem_cons_self e List.mem_cons_self).2.2)
  have hkeep (t : Tree α κ ρ height) (ht : Ordered key height t)
      (hupper : ∀ g ∈ after, ∀ x ∈ span key height t, x < g.1)
      (hlower : before ≠ [] → ∀ q ∈ records height t, e.1 ≤ key q) :
      Ordered key (height + 1) (a, before ++ (e.1, t) :: after) := by
    refine ⟨by simp, ?_, apart_replace hapart (fun d hd ↦ ?_) (fun g hg ↦ ?_)⟩
    · intro f hf
      rcases List.mem_append.mp hf with hf | hf
      · exact hchildren f (List.mem_append_left _ hf)
      · rcases List.mem_cons.mp hf with rfl | hf
        · exact ht
        · exact hchildren f (List.mem_append_right _ (List.mem_cons_of_mem _ hf))
    · have h := hcross d hd e List.mem_cons_self
      exact ⟨h.1, h.2.1, hlower (List.ne_nil_of_mem hd)⟩
    · exact ⟨(hrest g hg).1, hupper g hg, (hrest g hg).2.2⟩
  cases o with
  | kept t =>
    exact hkeep t ho (fun g hg ↦ forall_span_iff.mpr (hbound g hg))
      (fun hbefore ↦ forall_records_iff.mpr (hfloor hbefore))
  | refused t =>
    exact hkeep t ho (fun g hg ↦ forall_span_iff.mpr (hbound g hg))
      (fun hbefore ↦ forall_records_iff.mpr (hfloor hbefore))
  | split left low right push =>
    have hes : (before ++ (low, left) :: (push, right) :: after).Pairwise (Apart key) := by
      refine apart_divide hapart (fun d hd ↦ ?_) ⟨ho.low_lt, ho.left_lt, ho.right_le⟩
        (fun d hd ↦ ?_) (fun g hg ↦ ?_) (fun g hg ↦ ?_)
      · obtain ⟨hleft, hr, hrecords⟩ := hlow left low right push rfl (List.ne_nil_of_mem hd)
        have habove := hall (fun _ ↦ True) (fun q ↦ low ≤ key q) (fun _ _ ↦ trivial) hr
          (forall_records_iff.mp hrecords)
        exact ⟨(hleft d hd).1, (hleft d hd).2, forall_records_iff.mpr habove.2.2.1⟩
      · obtain ⟨hleft, -, -⟩ := hlow left low right push rfl (List.ne_nil_of_mem hd)
        exact ⟨(hleft d hd).1.trans ho.low_lt, fun x hx ↦ ((hleft d hd).2 x hx).trans ho.low_lt,
          ho.right_le⟩
      · exact ⟨(hbound g hg).1, forall_span_iff.mpr (hbound g hg).2.2.1, (hrest g hg).2.2⟩
      · exact ⟨(hbound g hg).2.1, forall_span_iff.mpr (hbound g hg).2.2.2, (hrest g hg).2.2⟩
    have hordered' : Ordered key (height + 1)
        (a, before ++ (low, left) :: (push, right) :: after) := by
      refine ⟨by simp, fun f hf ↦ ?_, hes⟩
      rcases List.mem_append.mp hf with hf | hf
      · exact hchildren f (List.mem_append_left _ hf)
      · rcases List.mem_cons.mp hf with rfl | hf
        · exact ho.left_ordered
        · rcases List.mem_cons.mp hf with rfl | hf
          · exact ho.right_ordered
          · exact hchildren f (List.mem_append_right _ (List.mem_cons_of_mem _ hf))
    simp only [graft]
    split_ifs with hroom
    · exact hordered'
    · cases fresh with
      | none =>
        exact hkeep left ho.left_ordered
          (fun g hg ↦ forall_span_iff.mpr (hbound g hg).2.2.1)
          (fun hbefore ↦ forall_records_iff.mpr (hfloor hbefore).2.2.1)
      | some b =>
        obtain ⟨x, front, y, back, hfront, hback, heq⟩ := exists_halves hindexMax hroom
        simp only [hfront, hback]
        rw [heq] at hordered' ⊢
        exact halves_of_apart hordered'.2.1 hordered'.2.2

/-- A safe insertion keeps the order invariant, in both halves when the node divides. -/
theorem put_ordered (hleafMax : 1 ≤ leafMax) (hindexMax : 1 ≤ indexMax)
    (hordered : Ordered key height t) (hsafe : Safe key leafMax indexMax r height t) :
    (put key leafMax indexMax fresh r height t).Ordered key := by
  induction height with
  | zero =>
    obtain ⟨a, rs⟩ := t
    have hsorted := upsert_pairwise (r := r) hordered
    rw [put]
    cases hfind : leafFind (rs.map key) (key r) with
    | found i =>
      rw [← set_eq_upsert hordered (leafFind_found hfind)] at hsorted
      exact hsorted
    | absent i =>
      obtain ⟨hle, hbefore, hafter⟩ := leafFind_absent hordered hfind
      rw [← insertIdx_eq_upsert (by simpa using hle) hbefore hafter] at hsorted
      exact settleLeaf_ordered hleafMax hordered hsorted
  | succ height ih =>
    obtain ⟨a, es⟩ := t
    obtain ⟨before, entry, after, hrouted⟩ := hordered.route (key r)
    obtain ⟨hchild, hseparates⟩ := hsafe entry hrouted.getElem?
    have hentry := hordered.2.1 entry hrouted.mem
    rw [hrouted.put]
    refine graft_ordered hindexMax hrouted hordered (ih hentry hchild)
      (fun P Q hQP hr ht ↦ put_all hQP hr ht) fun left low right push hput hbefore ↦ ?_
    have hdivides : (put key leafMax indexMax fresh r height entry.2).Divides _ _ :=
      put_divides hentry
    rw [hput] at hdivides
    obtain ⟨rfl, hfull⟩ := hdivides
    obtain ⟨hleft, hrecords⟩ := hseparates hfull
      (by rw [hrouted.slot]; simpa using hbefore)
    exact ⟨hrouted.take ▸ hleft, lowKey_le hentry, hrecords⟩

end Obmafs3.Library.SearchTree
