import Mathlib.Data.List.Basic

/-!
# Bracketings

Operands with operators between them are evaluated under a bracketing, which is a tree with the
operands at its leaves in their order. An associative operator alone leaves only one value. With
two operators the value depends on the bracketing; yet where one of them is absorbed by a value and
the other keeps it, operands of that value at one end can fix the value of every bracketing.
-/

set_option autoImplicit false

namespace Obmafs3.Library.Bracketing

variable {ω α β γ : Type*}

/-- Operands with an operator in front of each but the first. -/
structure Sequence (ω α : Type*) where
  first : α
  rest : List (ω × α)
  deriving DecidableEq

namespace Sequence

/-- The operands in their order. -/
def operands (s : Sequence ω α) : List α := s.first :: s.rest.map Prod.snd

/-- The operators in their order. -/
def operators (s : Sequence ω α) : List ω := s.rest.map Prod.fst

/-- Two sequences with an operator between them. -/
def join (s : Sequence ω α) (c : ω) (t : Sequence ω α) : Sequence ω α :=
  ⟨s.first, s.rest ++ (c, t.first) :: t.rest⟩

/-- A sequence behind operands that each have an operator after them. -/
def prepend : List (α × ω) → Sequence ω α → Sequence ω α
  | [], s => s
  | (a, c) :: pre, s => ⟨a, (c, (prepend pre s).first) :: (prepend pre s).rest⟩

/-- A sequence written out, given how operands and operators are written. -/
def flat (operand : α → List γ) (operator : ω → γ) (s : Sequence ω α) : List γ :=
  operand s.first ++ s.rest.flatMap fun p ↦ operator p.1 :: operand p.2

theorem operands_ne_nil (s : Sequence ω α) : s.operands ≠ [] := List.cons_ne_nil _ _

theorem operands_join (s : Sequence ω α) (c : ω) (t : Sequence ω α) :
    (s.join c t).operands = s.operands ++ t.operands := by
  simp [join, operands]

theorem operators_join (s : Sequence ω α) (c : ω) (t : Sequence ω α) :
    (s.join c t).operators = s.operators ++ c :: t.operators := by
  simp [join, operators]

theorem operands_prepend (pre : List (α × ω)) (s : Sequence ω α) :
    (prepend pre s).operands = pre.map Prod.fst ++ s.operands := by
  induction pre with
  | nil => rfl
  | cons p pre ih => exact congrArg (p.1 :: ·) ih

theorem operators_prepend (pre : List (α × ω)) (s : Sequence ω α) :
    (prepend pre s).operators = pre.map Prod.snd ++ s.operators := by
  induction pre with
  | nil => rfl
  | cons p pre ih => exact congrArg (p.2 :: ·) ih

/-- Operands with operators after them are a sequence and the operator that follows it. -/
theorem prepend_eq_join (p : α × ω) (pre : List (α × ω)) (s : Sequence ω α) :
    ∃ (front : Sequence ω α) (c : ω), prepend (p :: pre) s = front.join c s ∧
      front.operands = (p :: pre).map Prod.fst ∧
      front.operators ++ [c] = (p :: pre).map Prod.snd := by
  induction pre generalizing p with
  | nil => exact ⟨⟨p.1, []⟩, p.2, rfl, rfl, rfl⟩
  | cons q pre ih =>
    obtain ⟨front, c, hjoin, hoperands, hoperators⟩ := ih q
    refine ⟨⟨p.1, (p.2, front.first) :: front.rest⟩, c, ?_, congrArg (p.1 :: ·) hoperands,
      congrArg (p.2 :: ·) hoperators⟩
    have hstep : prepend (p :: q :: pre) s =
        ⟨p.1, (p.2, (prepend (q :: pre) s).first) :: (prepend (q :: pre) s).rest⟩ := rfl
    rw [hstep, hjoin]
    rfl

theorem flat_prepend (operand : α → List γ) (operator : ω → γ) (pre : List (α × ω))
    (s : Sequence ω α) :
    (prepend pre s).flat operand operator =
      (pre.flatMap fun p ↦ operand p.1 ++ [operator p.2]) ++ s.flat operand operator := by
  induction pre with
  | nil => rfl
  | cons p pre ih =>
    have htail : (prepend (p :: pre) s).flat operand operator =
        operand p.1 ++ operator p.2 :: (prepend pre s).flat operand operator := rfl
    rw [htail, ih]
    simp

/-- Two sequences that are written out in the same way are the same, if that holds of operands and
nothing that follows looks like an operator. -/
theorem flat_append_inj {operand : α → List γ} {operator : ω → γ}
    (hoperand : ∀ a a' x x', operand a ++ x = operand a' ++ x' → a = a' ∧ x = x')
    (hoperator : ∀ c c', operator c = operator c' → c = c') {s s' : Sequence ω α} {x x' : List γ}
    (hx : ∀ c, x.head? ≠ some (operator c)) (hx' : ∀ c, x'.head? ≠ some (operator c))
    (h : s.flat operand operator ++ x = s'.flat operand operator ++ x') : s = s' ∧ x = x' := by
  obtain ⟨first, rest⟩ := s
  obtain ⟨first', rest'⟩ := s'
  unfold flat at h
  rw [List.append_assoc, List.append_assoc] at h
  obtain ⟨rfl, htail⟩ := hoperand _ _ _ _ h
  suffices hrest : rest = rest' ∧ x = x' by
    rw [hrest.1]
    exact ⟨rfl, hrest.2⟩
  clear h
  induction rest generalizing rest' with
  | nil =>
    cases rest' with
    | nil => exact ⟨rfl, htail⟩
    | cons p' rest' => exact absurd (congrArg List.head? htail) (hx p'.1)
  | cons p rest ih =>
    cases rest' with
    | nil => exact absurd (congrArg List.head? htail).symm (hx' p.1)
    | cons p' rest' =>
      simp only [List.flatMap_cons, List.cons_append, List.append_assoc] at htail
      obtain ⟨hop, htail⟩ := List.cons.inj htail
      obtain ⟨hsecond, htail⟩ := hoperand _ _ _ _ htail
      obtain ⟨rfl, hend⟩ := ih _ htail
      exact ⟨congrArg (· :: rest) (Prod.ext (hoperator _ _ hop) hsecond), hend⟩

/-- An operator of two sequences with one between them is in the first, between them or in the
second. -/
theorem join_split {s u : Sequence ω α} {d c : ω} {b : α} {pre post : List (ω × α)}
    (h : (s.join d u).rest = pre ++ (c, b) :: post) :
    (∃ more, s.rest = pre ++ (c, b) :: more ∧ post = more ++ (d, u.first) :: u.rest) ∨
      (s.rest = pre ∧ d = c ∧ u.first = b ∧ u.rest = post) ∨
      ∃ more, pre = s.rest ++ (d, u.first) :: more ∧ u.rest = more ++ (c, b) :: post := by
  have hrest : s.rest ++ (d, u.first) :: u.rest = pre ++ (c, b) :: post := h
  rcases List.append_eq_append_iff.mp hrest with ⟨more, hmore, htail⟩ | ⟨more, hmore, htail⟩
  · cases more with
    | nil =>
      obtain ⟨hhead, hpost⟩ := List.cons.inj htail
      obtain ⟨hop, hfirst⟩ := Prod.mk.inj hhead
      exact Or.inr (Or.inl ⟨by simpa using hmore.symm, hop, hfirst, hpost⟩)
    | cons p more =>
      obtain ⟨rfl, hpost⟩ := List.cons.inj htail
      exact Or.inr (Or.inr ⟨more, hmore, hpost⟩)
  · cases more with
    | nil =>
      obtain ⟨hhead, hpost⟩ := List.cons.inj htail
      obtain ⟨hop, hfirst⟩ := Prod.mk.inj hhead
      exact Or.inr (Or.inl ⟨by simpa using hmore, hop.symm, hfirst.symm, hpost.symm⟩)
    | cons p more =>
      obtain ⟨rfl, hpost⟩ := List.cons.inj htail
      exact Or.inl ⟨more, hmore, hpost⟩

end Sequence

/-- A bracketing of operands of type `α`. -/
inductive Expr (ω α : Type*)
  | leaf (a : α)
  | join (c : ω) (l r : Expr ω α)

namespace Expr

/-- The operands and operators of a bracketing in their order. -/
def inOrder : Expr ω α → Sequence ω α
  | leaf a => ⟨a, []⟩
  | join c l r => l.inOrder.join c r.inOrder

/-- The value of a bracketing. -/
def eval (op : ω → β → β → β) (value : α → β) : Expr ω α → β
  | leaf a => value a
  | join c l r => op c (l.eval op value) (r.eval op value)

/-- The bracketing that takes the operators one after the other. -/
def leftNested (a : α) : List (ω × α) → Expr ω α
  | [] => leaf a
  | rest => rest.foldl (fun e p ↦ join p.1 e (leaf p.2)) (leaf a)

theorem inOrder_foldl (e : Expr ω α) (rest : List (ω × α)) :
    (rest.foldl (fun e p ↦ join p.1 e (leaf p.2)) e).inOrder =
      ⟨e.inOrder.first, e.inOrder.rest ++ rest⟩ := by
  induction rest generalizing e with
  | nil => simp
  | cons p rest ih =>
    rw [List.foldl_cons, ih]
    simp [inOrder, Sequence.join]

theorem inOrder_leftNested (a : α) (rest : List (ω × α)) :
    (leftNested a rest).inOrder = ⟨a, rest⟩ := by
  cases rest with
  | nil => rfl
  | cons p rest => exact inOrder_foldl (leaf a) (p :: rest)

/-! ### One operator -/

section Same

variable {op : ω → β → β → β} {value : α → β} {c : ω}

/-- With one associative operator the value is that of the operands from left to right. -/
theorem eval_same (hassoc : ∀ x y z, op c (op c x y) z = op c x (op c y z)) (e : Expr ω α)
    (hsame : ∀ d ∈ e.inOrder.operators, d = c) :
    e.eval op value = (e.inOrder.rest.map Prod.snd).foldl (fun x a ↦ op c x (value a))
      (value e.inOrder.first) := by
  have hpull (x y : β) (l : List α) : l.foldl (fun x a ↦ op c x (value a)) (op c x y) =
      op c x (l.foldl (fun x a ↦ op c x (value a)) y) := by
    induction l generalizing y with
    | nil => rfl
    | cons a l ih => rw [List.foldl_cons, List.foldl_cons, hassoc, ih]
  induction e with
  | leaf a => rfl
  | join d l r ihl ihr =>
    rw [inOrder, Sequence.operators_join] at hsame
    obtain rfl : d = c := hsame d (by simp)
    rw [eval, ihl fun b hb ↦ hsame b (by simp [hb]), ihr fun b hb ↦ hsame b (by simp [hb])]
    simp only [inOrder, Sequence.join, List.map_append, List.map_cons, List.foldl_append,
      List.foldl_cons, hpull]

end Same

theorem eq_leaf {e : Expr ω α} {a : α} (h : e.inOrder = ⟨a, []⟩) : e = leaf a := by
  cases e with
  | leaf a' => exact congrArg leaf (congrArg Sequence.first h)
  | join c l r => exact absurd (congrArg Sequence.rest h) (by simp [inOrder, Sequence.join])

/-! ### Values that fix an end -/

section Ends

variable {op : ω → β → β → β} {value : α → β} {t : β} {c : ω}

/-- A value that an operator keeps. -/
def Keeps (op : ω → β → β → β) (t : β) (c : ω) : Prop := op c t t = t

/-- A value that decides what an operator gives. -/
def Absorbs (op : ω → β → β → β) (t : β) (c : ω) : Prop := ∀ x, op c x t = t ∧ op c t x = t

theorem eval_kept (e : Expr ω α) (hkeeps : ∀ c ∈ e.inOrder.operators, Keeps op t c)
    (hvalue : ∀ a ∈ e.inOrder.operands, value a = t) : e.eval op value = t := by
  induction e with
  | leaf a => exact hvalue a List.mem_cons_self
  | join c l r ihl ihr =>
    rw [inOrder, Sequence.operators_join] at hkeeps
    rw [inOrder, Sequence.operands_join] at hvalue
    rw [eval, ihl (fun d hd ↦ hkeeps d (by simp [hd])) (fun a ha ↦ hvalue a (by simp [ha])),
      ihr (fun d hd ↦ hkeeps d (by simp [hd])) (fun a ha ↦ hvalue a (by simp [ha]))]
    exact hkeeps c (by simp)

variable {pre post : List (ω × α)}

/-- The operands behind the last operator that absorbs have the value: so has every bracketing. -/
theorem eval_suffix (e : Expr ω α) {a b : α} (horder : e.inOrder = ⟨a, pre ++ (c, b) :: post⟩)
    (hpre : ∀ p ∈ pre, Absorbs op t p.1) (hc : Absorbs op t c) (hb : value b = t)
    (hpost : ∀ p ∈ post, Keeps op t p.1 ∧ value p.2 = t) : e.eval op value = t := by
  induction e generalizing a pre post with
  | leaf a' => exact absurd (congrArg Sequence.rest horder) (by simp [inOrder])
  | join d l r ihl ihr =>
    have hkept (s : Sequence ω α) (hs : ∀ p ∈ s.rest, Keeps op t p.1 ∧ value p.2 = t)
        (hfirst : value s.first = t) : (∀ c ∈ s.operators, Keeps op t c) ∧
          ∀ a ∈ s.operands, value a = t := by
      constructor
      · intro c hc
        obtain ⟨p, hp, rfl⟩ := List.mem_map.mp hc
        exact (hs p hp).1
      · refine List.forall_mem_cons.mpr ⟨hfirst, fun a ha ↦ ?_⟩
        obtain ⟨p, hp, rfl⟩ := List.mem_map.mp ha
        exact (hs p hp).2
    rw [eval]
    rcases Sequence.join_split (congrArg Sequence.rest horder) with
      ⟨more, hl, rfl⟩ | ⟨-, rfl, rfl, rfl⟩ | ⟨more, rfl, hr⟩
    · obtain ⟨hmore, hrest⟩ := List.forall_mem_append.mp hpost
      obtain ⟨hd, hrest⟩ := List.forall_mem_cons.mp hrest
      obtain ⟨hkeeps, hvalues⟩ := hkept r.inOrder hrest hd.2
      have hleft : l.inOrder = ⟨l.inOrder.first, pre ++ (c, b) :: more⟩ := by rw [← hl]
      rw [ihl hleft hpre hmore, eval_kept r hkeeps hvalues]
      exact hd.1
    · obtain ⟨hkeeps, hvalues⟩ := hkept r.inOrder hpost hb
      rw [eval_kept r hkeeps hvalues]
      exact (hc _).1
    · obtain ⟨-, hpre⟩ := List.forall_mem_append.mp hpre
      obtain ⟨hd, hmore⟩ := List.forall_mem_cons.mp hpre
      have hright : r.inOrder = ⟨r.inOrder.first, more ++ (c, b) :: post⟩ := by rw [← hr]
      rw [ihr hright hmore hpost]
      exact (hd _).1

/-- The operands before the first operator that absorbs have the value: so has every bracketing. -/
theorem eval_prefix (e : Expr ω α) {a b : α} (horder : e.inOrder = ⟨a, pre ++ (c, b) :: post⟩)
    (ha : value a = t) (hpre : ∀ p ∈ pre, Keeps op t p.1 ∧ value p.2 = t) (hc : Absorbs op t c)
    (hpost : ∀ p ∈ post, Absorbs op t p.1) : e.eval op value = t := by
  induction e generalizing a pre post with
  | leaf a' => exact absurd (congrArg Sequence.rest horder) (by simp [inOrder])
  | join d l r ihl ihr =>
    have hfirst : l.inOrder.first = a := congrArg Sequence.first horder
    have hkept (hl : ∀ p ∈ l.inOrder.rest, Keeps op t p.1 ∧ value p.2 = t) :
        l.eval op value = t := by
      refine eval_kept l (fun c hc ↦ ?_) (List.forall_mem_cons.mpr ⟨hfirst ▸ ha, fun a ha ↦ ?_⟩)
      · obtain ⟨p, hp, rfl⟩ := List.mem_map.mp hc
        exact (hl p hp).1
      · obtain ⟨p, hp, rfl⟩ := List.mem_map.mp ha
        exact (hl p hp).2
    rw [eval]
    rcases Sequence.join_split (congrArg Sequence.rest horder) with
      ⟨more, hl, rfl⟩ | ⟨hl, rfl, rfl, rfl⟩ | ⟨more, rfl, hr⟩
    · obtain ⟨hmore, hrest⟩ := List.forall_mem_append.mp hpost
      have hleft : l.inOrder = ⟨a, pre ++ (c, b) :: more⟩ := by rw [← hl, ← hfirst]
      rw [ihl hleft ha hpre hmore]
      exact (hrest _ List.mem_cons_self _).2
    · rw [hkept (hl ▸ hpre)]
      exact (hc _).2
    · obtain ⟨hl, hmore⟩ := List.forall_mem_append.mp hpre
      obtain ⟨hd, hmore⟩ := List.forall_mem_cons.mp hmore
      have hright : r.inOrder = ⟨r.inOrder.first, more ++ (c, b) :: post⟩ := by rw [← hr]
      rw [hkept hl, ihr hright hd.2 hmore hpost]
      exact hd.1

end Ends

end Expr

end Obmafs3.Library.Bracketing
