import Obmafs3.Library.SearchTreeAppend

/-!
# Refused insertions

An insertion divides nodes from the leaf upward and hands each right half to the parent. When a
label is refused on the way the halves below are already apart: the tree keeps the left half, and
nothing leads to the right half. `Bounded` is the order of a tree whose separators bound their
subtrees altogether, separators included. `put_refused` says that a refused insertion in such a
tree either was refused at the leaf and changed nothing, or left the new record where searches find
it, or lost a record that was there before.
-/

set_option autoImplicit false
set_option linter.unusedSectionVars false

namespace Obmafs3.Library.SearchTree

open Search

variable {α κ ρ : Type} [LinearOrder κ] {key : ρ → κ}

/-! ### Bounded trees -/

/-- Ordered, with every key of a subtree at or above its separator, the first slot of each node
apart. -/
def Bounded (key : ρ → κ) : (height : ℕ) → Tree α κ ρ height → Prop
  | 0, (_, rs) => (rs.map key).Pairwise (· < ·)
  | height + 1, (_, es) =>
    es ≠ [] ∧ (∀ e ∈ es, Bounded key height e.2) ∧ es.Pairwise fun e f ↦
        e.1 < f.1 ∧ (∀ x ∈ span key height e.2, x < f.1) ∧ ∀ x ∈ span key height f.2, f.1 ≤ x

variable {height : ℕ} {t : Tree α κ ρ height} {r : ρ} {k : κ} {a : α}

theorem Bounded.ordered (hbounded : Bounded key height t) : Ordered key height t := by
  induction height with
  | zero => exact hbounded
  | succ height ih =>
    obtain ⟨a, es⟩ := t
    obtain ⟨hne, hchildren, hapart⟩ := hbounded
    exact ⟨hne, fun e he ↦ ih (hchildren e he),
      hapart.imp fun h ↦ ⟨h.1, h.2.1, fun r hr ↦ h.2.2 _ (mem_span_of_record hr)⟩⟩

/-! ### Searches around a cut -/

variable {es before after : List (κ × Tree α κ ρ height)} {entry : κ × Tree α κ ρ height}
  {e : κ × Tree α κ ρ height}

/-- Among sorted separators the slot is the last one at or below the key, or the first. -/
theorem slotted_of_sorted {before after : List (κ × Tree α κ ρ height)}
    (hsorted : ((before ++ entry :: after).map Prod.fst).Pairwise (· < ·))
    (hle : before ≠ [] → entry.1 ≤ k) (hlt : ∀ f ∈ after, k < f.1) :
    Slotted (before ++ entry :: after) k before entry after := by
  obtain ⟨before', entry', after', hrouted⟩ := exists_routed (by simp) hsorted k
  have hlength : before'.length = before.length := by
    rcases List.append_eq_append_iff.mp hrouted.eq.symm with ⟨c, hbefore, hrest⟩ | ⟨c, hbefore, hrest⟩
    · cases c with
      | nil => simpa using (congrArg List.length hbefore).symm
      | cons d c =>
        have hd : entry ∈ after' := by
          simp only [List.cons_append, List.cons.injEq] at hrest
          simp [hrest.2]
        have hne : before ≠ [] := by
          rw [hbefore]
          simp
        exact absurd (hle hne) (not_le.mpr (hrouted.lt entry hd))
    · cases c with
      | nil => simpa using congrArg List.length hbefore
      | cons d c =>
        have hd : entry' ∈ after := by
          simp only [List.cons_append, List.cons.injEq] at hrest
          simp [hrest.2]
        have hne : before' ≠ [] := by
          rw [hbefore]
          simp
        exact absurd (hrouted.le hne) (not_le.mpr (hlt entry' hd))
  exact ⟨rfl, hrouted.slot.trans hlength⟩

/-- A search in a node that is cut in two goes to one of the parts. -/
theorem lookup_append (key : ρ → κ) (a b c : α) {x y : κ × Tree α κ ρ height}
    {front back : List (κ × Tree α κ ρ height)}
    (hsorted : ((x :: front ++ y :: back).map Prod.fst).Pairwise (· < ·)) :
    lookup key k (height + 1) (a, x :: front ++ y :: back) =
      if k < y.1 then lookup key k (height + 1) (b, x :: front)
      else lookup key k (height + 1) (c, y :: back) := by
  have hparts := List.pairwise_append.mp (List.map_append ▸ hsorted)
  split_ifs with hk
  · obtain ⟨before, entry, after, hrouted⟩ := exists_routed (by simp) hparts.1 k
    have heq : x :: front ++ y :: back = before ++ entry :: (after ++ y :: back) := by
      rw [hrouted.eq, List.append_assoc, List.cons_append]
    have hslot : Slotted (before ++ entry :: (after ++ y :: back)) k before entry
        (after ++ y :: back) := by
      refine slotted_of_sorted (heq ▸ hsorted) hrouted.le fun f hf ↦ ?_
      rcases List.mem_append.mp hf with hf | hf
      · exact hrouted.lt f hf
      · rcases List.mem_cons.mp hf with rfl | hf
        · exact hk
        · exact hk.trans (List.rel_of_pairwise_cons hparts.2.1 (List.mem_map_of_mem hf))
    rw [heq, lookup, lookup, hslot.getElem?, hrouted.getElem?]
  · obtain ⟨before, entry, after, hrouted⟩ := exists_routed (by simp) hparts.2.1 k
    have heq : x :: front ++ y :: back = (x :: front ++ before) ++ entry :: after := by
      rw [hrouted.eq, List.append_assoc]
    have hle : entry.1 ≤ k := by
      cases before with
      | nil =>
        have : y = entry := (List.cons.inj hrouted.eq).1
        exact this ▸ not_lt.mp hk
      | cons d before => exact hrouted.le (by simp)
    have hslot : Slotted ((x :: front ++ before) ++ entry :: after) k (x :: front ++ before) entry
        after := slotted_of_sorted (heq ▸ hsorted) (fun _ ↦ hle) hrouted.lt
    rw [heq, lookup, lookup, hslot.getElem?, hrouted.getElem?]

theorem length_records_le {es : List (κ × Tree α κ ρ height)} (he : e ∈ es) :
    (records height e.2).length ≤ (records (height + 1) (a, es)).length := by
  obtain ⟨before, after, rfl⟩ := List.append_of_mem he
  simp only [records_index, List.flatMap_append, List.flatMap_cons, List.length_append]
  omega

/-! ### Halves that were divided -/

/-- Two halves with a new record in one of them: a search finds the record when it takes the half
that the separator says, and the half has an old record as well. -/
structure Divided {height : ℕ} (key : ρ → κ) (r : ρ) (left : Tree α κ ρ height) (low : κ)
    (right : Tree α κ ρ height) (push : κ) : Prop where
  low_le : low ≤ key r
  low_lt : low < push
  found_left : key r < push → lookup key (key r) height left = some r
  found_right : push ≤ key r → lookup key (key r) height right = some r
  two_left : r ∈ records height left → 2 ≤ (records height left).length
  two_right : r ∈ records height right → 2 ≤ (records height right).length

/-- What a refused insertion left behind. -/
def Damaged {height : ℕ} (key : ρ → κ) (r : ρ) (old new : Tree α κ ρ height) : Prop :=
  lookup key (key r) height new = some r ∨
    ∃ q ∈ records height old, ∀ p ∈ records height new, key p ≠ key q

/-- An outcome with its halves divided, or refused at the leaf, or with damage done. -/
def Outcome.Splits {height : ℕ} (key : ρ → κ) (r : ρ) (first : Option α) (t : Tree α κ ρ height) :
    Outcome α κ ρ height → Prop
  | .kept _ => True
  | .split left low right push => first ≠ none ∧ Divided key r left low right push
  | .refused u => first = none ∧ u = t ∨ first ≠ none ∧ Damaged key r t u

section

variable (hfound : lookup key k height t = some r)
include hfound

theorem lookup_sound : r ∈ records height t ∧ key r = k := by
  induction height with
  | zero =>
    obtain ⟨a, rs⟩ := t
    rw [lookup] at hfound
    cases hfind : leafFind (rs.map key) k with
    | found i =>
      simp only [hfind] at hfound
      have hkey := leafFind_found hfind
      rw [List.getElem?_map, hfound] at hkey
      exact ⟨List.mem_of_getElem? hfound, Option.some.inj hkey⟩
    | absent i => simp [hfind] at hfound
  | succ height ih =>
    obtain ⟨a, es⟩ := t
    rw [lookup] at hfound
    cases hslot : es[route es k]? with
    | none => simp [hslot] at hfound
    | some e =>
      rw [hslot] at hfound
      obtain ⟨hmem, hkey⟩ := ih hfound
      exact ⟨List.mem_flatMap.mpr ⟨e, List.mem_of_getElem? hslot, hmem⟩, hkey⟩

theorem lookup_mem : r ∈ records height t :=
  (lookup_sound hfound).1

theorem lookup_key : key r = k :=
  (lookup_sound hfound).2

end

/-- When a divided half is refused its place, the record that came with it shows, or an old record
that it took along is gone. -/
theorem Divided.damaged {t left right : Tree α κ ρ height} {low push : κ}
    (hdivided : Divided key r left low right push) (hordered : Ordered key height t)
    (habsent : ∀ q ∈ records height t, key q ≠ key r)
    (hrecords : records height left ++ records height right = upsert key r (records height t)) :
    Damaged key r t left := by
  rcases lt_or_ge (key r) push with hlt | hge
  · exact Or.inl (hdivided.found_left hlt)
  · right
    have hmem := lookup_mem (hdivided.found_right hge)
    have hsorted : ((records height left ++ records height right).map key).Pairwise (· < ·) := by
      rw [hrecords]
      exact upsert_pairwise hordered.records_pairwise
    rw [List.map_append] at hsorted
    obtain ⟨-, hright, hcross⟩ := List.pairwise_append.mp hsorted
    have hother : ∃ q ∈ records height right, key q ≠ key r := by
      by_contra hnone
      push Not at hnone
      have hlength := hdivided.two_right hmem
      cases hrs : records height right with
      | nil => simp [hrs] at hlength
      | cons p ps =>
        cases ps with
        | nil => simp [hrs] at hlength
        | cons q qs =>
          rw [hrs] at hright hnone
          have hlt := List.rel_of_pairwise_cons hright (List.mem_cons_self (l := qs.map key))
          rw [hnone p (by simp), hnone q (by simp)] at hlt
          exact absurd hlt (lt_irrefl _)
    obtain ⟨q, hq, hne⟩ := hother
    refine ⟨q, ?_, fun p hp ↦
      (hcross _ (List.mem_map_of_mem hp) _ (List.mem_map_of_mem hq)).ne⟩
    have hin : q ∈ upsert key r (records height t) := by
      rw [← hrecords]
      exact List.mem_append_right _ hq
    rcases mem_of_mem_upsert hin with rfl | hin
    · exact absurd rfl hne
    · exact hin

/-- Damage below a slot is damage to the node. -/
theorem Damaged.lift {u : Tree α κ ρ height} (hordered : Ordered key (height + 1) (a, es))
    (hrouted : Routed es (key r) before entry after) (hdamaged : Damaged key r entry.2 u) :
    @Damaged α κ ρ _ (height + 1) key r (a, es) (a, before ++ (entry.1, u) :: after) := by
  rcases hdamaged with hfound | ⟨q, hq, hlost⟩
  · left
    rw [lookup, (hrouted.replace u).getElem?]
    exact hfound
  · right
    have hsorted := hordered.records_pairwise
    rw [hrouted.eq, records_index, List.flatMap_append, List.flatMap_cons, List.map_append,
      List.map_append] at hsorted
    obtain ⟨-, hrest, hbefore⟩ := List.pairwise_append.mp hsorted
    obtain ⟨-, -, hafter⟩ := List.pairwise_append.mp hrest
    refine ⟨q, List.mem_flatMap.mpr ⟨entry, hrouted.mem, hq⟩, fun p hp ↦ ?_⟩
    rw [records_index, List.flatMap_append, List.flatMap_cons] at hp
    rcases List.mem_append.mp hp with hp | hp
    · exact (hbefore _ (List.mem_map_of_mem hp) _
        (List.mem_append_left _ (List.mem_map_of_mem hq))).ne
    · rcases List.mem_append.mp hp with hp | hp
      · exact hlost p hp
      · exact (hafter _ (List.mem_map_of_mem hq) _ (List.mem_map_of_mem hp)).ne'

/-- A leaf that divides: both halves have two records. -/
theorem settleLeaf_splits {leafMax : ℕ} (hleafMax : 3 ≤ leafMax) {fresh : Option α}
    {old new : List ρ} (hnew : (new.map key).Pairwise (· < ·)) (hr : r ∈ new) :
    (settleLeaf (κ := κ) key leafMax fresh r a old new).Splits key r fresh (a, old) := by
  unfold settleLeaf
  split_ifs with hroom
  · trivial
  · cases fresh with
    | none => exact Or.inl ⟨rfl, rfl⟩
    | some b =>
      refine ⟨by simp, ?_⟩
      obtain ⟨x, front, y, back, hfront, hback, heq⟩ := exists_halves (by omega) hroom
      have hlengths : 2 ≤ (new.take (half leafMax)).length ∧
          2 ≤ (new.drop (half leafMax)).length := by
        rw [List.length_take, List.length_drop, half]
        omega
      rw [hfront, hback] at hlengths ⊢
      subst heq
      obtain ⟨hleft, hright, hcross⟩ := List.pairwise_append.mp (List.map_append ▸ hnew)
      have hfind (c : α) {rs : List ρ} (hsorted : (rs.map key).Pairwise (· < ·)) (hmem : r ∈ rs) :
          lookup key (key r) 0 (c, rs) = some r := by
        obtain ⟨i, hi, heq⟩ := List.getElem_of_mem hmem
        rw [leaf_lookup_eq hsorted]
        exact find?_eq_getElem? hsorted (List.getElem?_eq_some_iff.mpr ⟨hi, heq⟩)
      have hhead : ∀ q ∈ y :: back, key y ≤ key q := by
        intro q hq
        rcases List.mem_cons.mp hq with rfl | hq
        · exact le_rfl
        · exact (List.rel_of_pairwise_cons hright (List.mem_map_of_mem hq)).le
      refine ⟨?_, hcross _ List.mem_cons_self _ List.mem_cons_self, fun hlt ↦ ?_, fun hge ↦ ?_,
        fun _ ↦ hlengths.1, fun _ ↦ hlengths.2⟩
      · change key x ≤ key r
        rcases List.mem_cons.mp hr with rfl | hr
        · exact le_rfl
        · rw [List.cons_append, List.map_cons] at hnew
          exact (List.rel_of_pairwise_cons hnew (List.mem_map_of_mem hr)).le
      · rcases List.mem_append.mp hr with hr | hr
        · exact hfind a hleft hr
        · exact absurd hlt (not_lt.mpr (hhead r hr))
      · rcases List.mem_append.mp hr with hr | hr
        · exact absurd (hcross _ (List.mem_map_of_mem hr) _ List.mem_cons_self) (not_lt.mpr hge)
        · exact hfind b hright hr

/-- A node that takes two halves for one child, and may divide in turn. -/
theorem graft_splits {indexMax : ℕ} (hindexMax : 1 ≤ indexMax) {first fresh : Option α}
    (hrouted : Routed es (key r) before e after) (hbounded : Bounded key (height + 1) (a, es))
    {o : Outcome α κ ρ height} (habsent : ∀ q ∈ records (height + 1) (a, es), key q ≠ key r)
    (hall : ∀ P : κ → Prop, P (key r) → All P (fun q ↦ P (key q)) height e.2 →
      o.All P fun q ↦ P (key q)) (hrecords : o.Records (upsert key r (records height e.2)))
    (ho : o.Splits key r first e.2) :
    (graft indexMax fresh a before e.1 after o).Splits key r first (a, es) := by
  have hordered := hbounded.ordered
  obtain ⟨-, hchildren, hapart⟩ := hbounded
  have hsame : (a, before ++ (e.1, e.2) :: after) = (a, es) := by rw [hrouted.eq]
  cases o with
  | kept t => trivial
  | refused u =>
    rcases ho with ⟨hnone, rfl⟩ | ⟨hsome, hdamaged⟩
    · exact Or.inl ⟨hnone, hsame⟩
    · exact Or.inr ⟨hsome, hdamaged.lift hordered hrouted⟩
  | split left low right push =>
    obtain ⟨hsome, hdivided⟩ := ho
    have habsent' : ∀ q ∈ records height e.2, key q ≠ key r := fun q hq ↦
      habsent q (List.mem_flatMap.mpr ⟨e, hrouted.mem, hq⟩)
    simp only [graft]
    split_ifs with hroom
    · trivial
    · cases fresh with
      | none =>
        exact Or.inr ⟨hsome, (hdivided.damaged (hchildren e hrouted.mem).ordered habsent'
          hrecords).lift hordered hrouted⟩
      | some b =>
        refine ⟨hsome, ?_⟩
        rw [hrouted.eq] at hapart
        obtain ⟨hbefore, hrest, hcross⟩ := List.pairwise_append.mp hapart
        have hbelow : ∀ f ∈ before, f.1 < low := by
          intro f hf
          have hfloor := hall (e.1 ≤ ·) (hrouted.le (List.ne_nil_of_mem hf))
            (forall_span_iff.mp (hcross f hf e List.mem_cons_self).2.2)
          exact (hcross f hf e List.mem_cons_self).1.trans_le hfloor.1
        have habove : ∀ g ∈ after, push < g.1 := fun g hg ↦
          (hall (· < g.1) (hrouted.lt g hg)
            (forall_span_iff.mp (List.rel_of_pairwise_cons hrest hg).2.1)).2.1
        have hsorted : ((before ++ (low, left) :: (push, right) :: after).map
            Prod.fst).Pairwise (· < ·) := by
          refine List.pairwise_map.mpr (List.pairwise_append.mpr
            ⟨hbefore.imp fun h ↦ h.1, List.pairwise_cons.mpr ⟨?_, List.pairwise_cons.mpr
              ⟨habove, (List.pairwise_cons.mp hrest).2.imp fun h ↦ h.1⟩⟩, ?_⟩)
          · exact List.forall_mem_cons.mpr
              ⟨hdivided.low_lt, fun g hg ↦ hdivided.low_lt.trans (habove g hg)⟩
          · exact fun f hf ↦ List.forall_mem_cons.mpr ⟨hbelow f hf, List.forall_mem_cons.mpr
              ⟨(hbelow f hf).trans hdivided.low_lt,
                fun g hg ↦ (hbelow f hf).trans (hdivided.low_lt.trans (habove g hg))⟩⟩
        have hfound : lookup key (key r) (height + 1)
            (a, before ++ (low, left) :: (push, right) :: after) = some r := by
          rcases lt_or_ge (key r) push with hlt | hge
          · have hslot := slotted_of_sorted hsorted (fun _ ↦ hdivided.low_le)
              (List.forall_mem_cons.mpr ⟨hlt, hrouted.lt⟩)
            rw [lookup, hslot.getElem?]
            exact hdivided.found_left hlt
          · have heq : before ++ (low, left) :: (push, right) :: after =
                (before ++ [(low, left)]) ++ (push, right) :: after := by simp
            rw [heq] at hsorted ⊢
            have hslot := slotted_of_sorted hsorted (fun _ ↦ hge) hrouted.lt
            rw [lookup, hslot.getElem?]
            exact hdivided.found_right hge
        have htwo (c : α) {part : List (κ × Tree α κ ρ height)}
            (hpart : ∀ f ∈ part, f ∈ before ++ (low, left) :: (push, right) :: after)
            (hr : r ∈ records (height + 1) (c, part)) :
            2 ≤ (records (height + 1) (c, part)).length := by
          obtain ⟨f, hf, hr⟩ := List.mem_flatMap.mp hr
          have hold (hmem : f ∈ es) : False := habsent r (List.mem_flatMap.mpr ⟨f, hmem, hr⟩) rfl
          refine le_trans ?_ (length_records_le hf)
          rcases List.mem_append.mp (hpart f hf) with hmem | hmem
          · exact (hold (hrouted.eq ▸ List.mem_append_left _ hmem)).elim
          · rcases List.mem_cons.mp hmem with rfl | hmem
            · exact hdivided.two_left hr
            · rcases List.mem_cons.mp hmem with rfl | hmem
              · exact hdivided.two_right hr
              · exact (hold (hrouted.eq ▸
                  List.mem_append_right _ (List.mem_cons_of_mem _ hmem))).elim
        obtain ⟨x, front, y, back, hfront, hback, heq⟩ := exists_halves hindexMax hroom
        have hlow : (low, left) ∈ before ++ (low, left) :: (push, right) :: after := by simp
        simp only [hfront, hback]
        rw [heq] at hsorted hfound htwo hlow ⊢
        have hsplit := lookup_append key a a b hsorted (k := key r)
        refine ⟨?_, ?_, fun hlt ↦ ?_, fun hge ↦ ?_,
          htwo a fun f hf ↦ List.mem_append_left _ hf,
          htwo b fun f hf ↦ List.mem_append_right _ hf⟩
        · change x.1 ≤ key r
          rcases List.mem_cons.mp hlow with hx | hlow
          · rw [← hx]
            exact hdivided.low_le
          · have hlt := List.rel_of_pairwise_cons hsorted (List.mem_map_of_mem hlow)
            exact hlt.le.trans hdivided.low_le
        · exact List.rel_of_pairwise_cons hsorted
            (List.mem_map_of_mem (List.mem_append_right _ List.mem_cons_self))
        · change key r < y.1 at hlt
          rwa [hsplit, if_pos hlt] at hfound
        · change y.1 ≤ key r at hge
          rwa [hsplit, if_neg (not_lt.mpr hge)] at hfound

/-- What a refused insertion of a new record does to a bounded tree. -/
theorem put_splits {leafMax indexMax : ℕ} (hleafMax : 3 ≤ leafMax) (hindexMax : 1 ≤ indexMax)
    {fresh : ℕ → Option α} (hbounded : Bounded key height t)
    (habsent : ∀ q ∈ records height t, key q ≠ key r) :
    (put key leafMax indexMax fresh r height t).Splits key r (fresh 0) t := by
  induction height with
  | zero =>
    obtain ⟨a, rs⟩ := t
    rw [put]
    cases hfind : leafFind (rs.map key) (key r) with
    | found i => trivial
    | absent i =>
      obtain ⟨hle, hbefore, hafter⟩ := leafFind_absent hbounded hfind
      have hi : i ≤ rs.length := by simpa using hle
      refine settleLeaf_splits hleafMax ?_ (List.mem_insertIdx hi |>.mpr (Or.inl rfl))
      rw [insertIdx_eq_upsert hi hbefore hafter]
      exact upsert_pairwise hbounded
  | succ height ih =>
    obtain ⟨a, es⟩ := t
    have hordered := hbounded.ordered
    obtain ⟨before, entry, after, hrouted⟩ := hordered.route (key r)
    have hentry := hbounded.2.1 entry hrouted.mem
    rw [hrouted.put]
    exact graft_splits hindexMax hrouted hbounded habsent
      (fun P hr ht ↦ put_all (Q := fun q ↦ P (key q)) (fun _ h ↦ h) hr ht)
      (put_records hentry.ordered)
      (ih hentry fun q hq ↦ habsent q (List.mem_flatMap.mpr ⟨entry, hrouted.mem, hq⟩))

/-- A record that replaces another needs no room. -/
theorem put_kept (leafMax indexMax : ℕ) (fresh : ℕ → Option α) {r q : ρ}
    (hfound : lookup key (key r) height t = some q) :
    ∃ u, put key leafMax indexMax fresh r height t = .kept u := by
  induction height with
  | zero =>
    obtain ⟨a, rs⟩ := t
    rw [lookup] at hfound
    rw [put]
    cases hfind : leafFind (rs.map key) (key r) with
    | found i => exact ⟨_, rfl⟩
    | absent i => simp [hfind] at hfound
  | succ height ih =>
    obtain ⟨a, es⟩ := t
    rw [lookup] at hfound
    rw [put]
    cases hslot : es[route es (key r)]? with
    | none => exact ⟨_, rfl⟩
    | some e =>
      rw [hslot] at hfound
      obtain ⟨u, hput⟩ := ih hfound
      simp only [hput, graft]
      exact ⟨_, rfl⟩

/-! ### Whole trees -/

namespace Root

def Bounded (key : ρ → κ) : Root α κ ρ → Prop
  | empty => True
  | node height t => SearchTree.Bounded key height t

variable {root : Root α κ ρ}

theorem Bounded.ordered (hbounded : root.Bounded key) : root.Ordered key := by
  cases root with
  | empty => trivial
  | node height t => exact SearchTree.Bounded.ordered hbounded

/-- A refused insertion changed nothing when the first label was refused. Otherwise searches find
the new record, or an old record is gone. -/
theorem put_refused {leafMax indexMax : ℕ} (hleafMax : 3 ≤ leafMax) (hindexMax : 1 ≤ indexMax)
    (fresh : ℕ → Option α) (r : ρ) (hbounded : root.Bounded key)
    (hrefused : (root.put key leafMax indexMax fresh r).2 = false) :
    root.lookup key (key r) = none ∧
      (fresh 0 = none ∧ (root.put key leafMax indexMax fresh r).1 = root ∨
        fresh 0 ≠ none ∧ ((root.put key leafMax indexMax fresh r).1.lookup key (key r) = some r ∨
            ∃ q ∈ root.records,
              ∀ p ∈ (root.put key leafMax indexMax fresh r).1.records, key p ≠ key q)) := by
  cases root with
  | empty =>
    refine ⟨rfl, Or.inl ?_⟩
    cases hfresh : fresh 0 with
    | none => exact ⟨rfl, by rw [put, hfresh]⟩
    | some a => simp [put, hfresh] at hrefused
  | node height t =>
    have hordered := SearchTree.Bounded.ordered hbounded
    cases hfound : SearchTree.lookup key (key r) height t with
    | some q =>
      obtain ⟨u, hput⟩ := put_kept leafMax indexMax fresh hfound
      simp [put, hput] at hrefused
    | none =>
      refine ⟨hfound, ?_⟩
      have habsent : ∀ q ∈ SearchTree.records height t, key q ≠ key r := by
        rw [SearchTree.lookup_eq hordered, List.find?_eq_none] at hfound
        simpa using hfound
      have hsplits : (SearchTree.put key leafMax indexMax fresh r height t).Splits key r (fresh 0)
        t := put_splits hleafMax hindexMax hbounded habsent
      have hrecords : (SearchTree.put key leafMax indexMax fresh r height t).Records _ :=
        put_records hordered
      simp only [put] at hrefused ⊢
      generalize SearchTree.put key leafMax indexMax fresh r height t = out
        at hrefused hsplits hrecords ⊢
      cases out with
      | kept u => cases hrefused
      | refused u =>
        rcases hsplits with ⟨hnone, rfl⟩ | hdamaged
        · exact Or.inl ⟨hnone, rfl⟩
        · exact Or.inr hdamaged
      | split left low right push =>
        cases hfresh : fresh (height + 1) with
        | none => exact Or.inr ⟨hsplits.1, hsplits.2.damaged hordered habsent hrecords⟩
        | some b => simp [hfresh] at hrefused

end Root

end Obmafs3.Library.SearchTree
