import Mathlib.Data.Fintype.Card
import Mathlib.Order.WellFounded

/-!
# A walk of nodes with a stack

A walk takes a node from the stack, visits it and pushes its children, so that the last child comes
first. A visit can fail, which ends the walk, or read behind the end of the node, and then nothing is
known about the rest. Nothing remembers the nodes that were visited. `survives_iff` says when the
walk ends without such a read: no node that it comes to is read behind its end or comes to itself.
-/

set_option autoImplicit false

namespace Obmafs3.Library.NodeWalk

open Relation

variable {α β ε : Type}

/-- What the visit of a node finds. -/
inductive Visit (α β ε : Type)
  | fail (e : ε)
  | overrun
  | node (out : List β) (children : List α)

/-- How a walk ends. -/
inductive Result (β ε : Type)
  | done (out : List β)
  | failed (e : ε)
  | overrun

/-- `fuel` bounds the visits; `none` when it runs out. -/
def walk (visit : α → Visit α β ε) : (fuel : ℕ) → (stack : List α) → (out : List β) →
    Option (Result β ε)
  | _, [], out => some (.done out)
  | 0, _ :: _, _ => none
  | fuel + 1, a :: stack, out =>
    match visit a with
    | .fail e => some (.failed e)
    | .overrun => some .overrun
    | .node more children => walk visit fuel (children.reverse ++ stack) (out ++ more)

variable (visit : α → Visit α β ε)

/-- The walk ends, and every read lay inside its node. -/
def Survives (root : α) : Prop :=
  ∃ fuel r, walk visit fuel [root] [] = some r ∧ r ≠ .overrun

/-- All below a node can be visited, and it ends. -/
inductive Clean : α → Prop
  | node {a : α} {out : List β} {children : List α} (hvisit : visit a = .node out children)
    (hchildren : ∀ c ∈ children, Clean c) : Clean a

/-- The walk comes from a node to a child when all below the children behind it is clean. -/
def Comes (a b : α) : Prop :=
  ∃ out before behind, visit a = .node out (before ++ b :: behind) ∧ ∀ c ∈ behind, Clean visit c

/-- A walk that ends within some visits and does not read behind the end of a node. -/
def Ends (fuel : ℕ) (stack : List α) : Prop :=
  ∀ out, ∃ r, walk visit fuel stack out = some r ∧ r ≠ .overrun

variable {visit} {a b : α} {stack stack' : List α} {fuel fuel' : ℕ}

theorem ends_nil (fuel : ℕ) : Ends visit fuel [] := fun out ↦ by
  cases fuel <;> exact ⟨.done out, rfl, nofun⟩

theorem not_ends_zero : ¬Ends visit 0 (a :: stack) := fun h ↦ by
  obtain ⟨r, hr, -⟩ := h []
  cases hr

theorem ends_succ_fail {e : ε} (hvisit : visit a = .fail e) :
    Ends visit (fuel + 1) (a :: stack) := fun _ ↦
  ⟨.failed e, by rw [walk, hvisit], nofun⟩

theorem not_ends_overrun (hvisit : visit a = .overrun) : ¬Ends visit fuel (a :: stack) := by
  cases fuel with
  | zero => exact not_ends_zero
  | succ fuel =>
    intro h
    obtain ⟨r, hr, hne⟩ := h []
    rw [walk, hvisit] at hr
    exact hne (Option.some.inj hr).symm

variable {out : List β}

/-- What was collected so far has no influence on how the walk ends. -/
theorem ends_of_walk {r : Result β ε} (hwalk : walk visit fuel stack out = some r)
    (hr : r ≠ .overrun) : Ends visit fuel stack := by
  induction fuel generalizing stack out with
  | zero =>
    cases stack with
    | nil => exact ends_nil 0
    | cons a stack => cases hwalk
  | succ fuel ih =>
    cases stack with
    | nil => exact ends_nil _
    | cons a stack =>
      cases hvisit : visit a with
      | fail e => exact ends_succ_fail hvisit
      | overrun =>
        rw [walk, hvisit] at hwalk
        exact absurd (Option.some.inj hwalk).symm hr
      | node more children =>
        rw [walk, hvisit] at hwalk
        intro out'
        rw [walk, hvisit]
        exact ih hwalk (out' ++ more)

variable {root : α}

theorem survives_iff_ends : Survives visit root ↔ ∃ fuel, Ends visit fuel [root] := by
  constructor
  · rintro ⟨fuel, r, hwalk, hr⟩
    exact ⟨fuel, ends_of_walk hwalk hr⟩
  · rintro ⟨fuel, hends⟩
    obtain ⟨r, hwalk, hr⟩ := hends []
    exact ⟨fuel, r, hwalk, hr⟩

theorem ends_succ_node {children : List α} (hvisit : visit a = .node out children) :
    Ends visit (fuel + 1) (a :: stack) ↔ Ends visit fuel (children.reverse ++ stack) := by
  constructor
  · intro h
    obtain ⟨r, hwalk, hr⟩ := h []
    rw [walk, hvisit] at hwalk
    exact ends_of_walk hwalk hr
  · intro h out'
    rw [walk, hvisit]
    exact h (out' ++ out)

theorem Ends.succ (h : Ends visit fuel stack) : Ends visit (fuel + 1) stack := by
  induction fuel generalizing stack with
  | zero =>
    cases stack with
    | nil => exact ends_nil 1
    | cons a stack => exact absurd h not_ends_zero
  | succ fuel ih =>
    cases stack with
    | nil => exact ends_nil _
    | cons a stack =>
      cases hvisit : visit a with
      | fail e => exact ends_succ_fail hvisit
      | overrun => exact absurd h (not_ends_overrun hvisit)
      | node out children =>
        rw [ends_succ_node hvisit] at h ⊢
        exact ih h

theorem Ends.mono (h : Ends visit fuel stack) (hle : fuel ≤ fuel') : Ends visit fuel' stack := by
  induction hle with
  | refl => exact h
  | step _ ih => exact ih.succ

/-- The walk ends when it needs not go through the lower part of the stack. -/
theorem Ends.of_append (h : Ends visit fuel (stack ++ stack')) : Ends visit fuel stack := by
  induction fuel generalizing stack with
  | zero =>
    cases stack with
    | nil => exact ends_nil 0
    | cons a stack => exact absurd h not_ends_zero
  | succ fuel ih =>
    cases stack with
    | nil => exact ends_nil _
    | cons a stack =>
      rw [List.cons_append] at h
      cases hvisit : visit a with
      | fail e => exact ends_succ_fail hvisit
      | overrun => exact absurd h (not_ends_overrun hvisit)
      | node out children =>
        rw [ends_succ_node hvisit] at h ⊢
        rw [← List.append_assoc] at h
        exact ih h

/-! ### Below a node all is clean -/

/-- Nodes are taken from the stack by a number of visits that does not depend on the rest of it. -/
def Consumed (visit : α → Visit α β ε) (nodes : List α) : Prop :=
  ∃ n, ∀ fuel stack, Ends visit (n + fuel) (nodes ++ stack) ↔ Ends visit fuel stack

theorem Consumed.append {nodes nodes' : List α} (h : Consumed visit nodes)
    (h' : Consumed visit nodes') : Consumed visit (nodes ++ nodes') := by
  obtain ⟨n, hn⟩ := h
  obtain ⟨n', hn'⟩ := h'
  refine ⟨n + n', fun fuel stack ↦ ?_⟩
  rw [List.append_assoc, Nat.add_assoc, hn, hn']

theorem consumed_reverse {nodes : List α} (h : ∀ a ∈ nodes, Consumed visit [a]) :
    Consumed visit nodes.reverse := by
  induction nodes with
  | nil => exact ⟨0, fun fuel stack ↦ by rw [Nat.zero_add, List.reverse_nil, List.nil_append]⟩
  | cons a nodes ih =>
    rw [List.reverse_cons]
    exact (ih fun b hb ↦ h b (List.mem_cons_of_mem a hb)).append (h a List.mem_cons_self)

theorem Clean.consumed (h : Clean visit a) : Consumed visit [a] := by
  induction h with
  | node hvisit _ ih =>
    obtain ⟨n, hn⟩ := consumed_reverse ih
    refine ⟨n + 1, fun fuel stack ↦ ?_⟩
    rw [List.singleton_append, Nat.add_right_comm, ends_succ_node hvisit, hn]

theorem Comes.ends (h : Comes visit a b) (hends : Ends visit fuel [a]) :
    ∃ fuel' < fuel, Ends visit fuel' [b] := by
  obtain ⟨out, before, behind, hvisit, hclean⟩ := h
  obtain ⟨n, hn⟩ := consumed_reverse fun c hc ↦ (hclean c hc).consumed
  cases fuel with
  | zero => exact absurd hends not_ends_zero
  | succ fuel =>
    rw [ends_succ_node hvisit, List.append_nil, List.reverse_append, List.reverse_cons,
      List.append_assoc, List.singleton_append] at hends
    have hrest := (hn fuel (b :: before.reverse)).mp (hends.mono (Nat.le_add_left fuel n))
    rw [← List.singleton_append] at hrest
    exact ⟨fuel, Nat.lt_succ_self fuel, hrest.of_append⟩

theorem ends_of_transGen (h : TransGen (Comes visit) a b) (hends : Ends visit fuel [a]) :
    ∃ fuel' < fuel, Ends visit fuel' [b] := by
  induction h with
  | single hab => exact hab.ends hends
  | tail _ hbc ih =>
    obtain ⟨fuel', hlt, hends'⟩ := ih
    obtain ⟨fuel'', hlt', hends''⟩ := hbc.ends hends'
    exact ⟨fuel'', hlt'.trans hlt, hends''⟩

theorem not_ends_of_cycle (hcycle : TransGen (Comes visit) a a) : ¬Ends visit fuel [a] := by
  induction fuel using Nat.strong_induction_on with
  | _ fuel ih =>
    intro hends
    obtain ⟨fuel', hlt, hends'⟩ := ends_of_transGen hcycle hends
    exact ih fuel' hlt hends'

/-! ### Nodes that the walk comes to once -/

/-- Some number of visits ends the walk, whatever else is on the stack. -/
def Stops (visit : α → Visit α β ε) (a : α) : Prop :=
  ∃ n, ∀ stack, Ends visit n (a :: stack)

/-- The last of some nodes that is not clean. -/
theorem clean_or_last (children : List α) :
    (∀ c ∈ children, Clean visit c) ∨ ∃ before b behind, children = before ++ b :: behind ∧
      ¬Clean visit b ∧ ∀ c ∈ behind, Clean visit c := by
  induction children with
  | nil => exact Or.inl nofun
  | cons a children ih =>
    rcases ih with hclean | ⟨before, b, behind, rfl, hb, hbehind⟩
    · rcases Classical.em (Clean visit a) with ha | ha
      · exact Or.inl (List.forall_mem_cons.mpr ⟨ha, hclean⟩)
      · exact Or.inr ⟨[], a, children, rfl, ha, hclean⟩
    · exact Or.inr ⟨a :: before, b, behind, rfl, hb, hbehind⟩

/-- What holds of a node when it holds of those that the walk comes to from there. -/
theorem clean_or_stops_of_comes (hinside : visit a ≠ .overrun)
    (hcomes : ∀ b, Comes visit a b → Clean visit b ∨ Stops visit b) :
    Clean visit a ∨ Stops visit a := by
  cases hvisit : visit a with
  | fail e => exact Or.inr ⟨1, fun stack ↦ ends_succ_fail hvisit⟩
  | overrun => exact absurd hvisit hinside
  | node out children =>
    rcases clean_or_last children with hclean | ⟨before, b, behind, rfl, hb, hbehind⟩
    · exact Or.inl (.node hvisit hclean)
    · have hstops := (hcomes b ⟨out, before, behind, hvisit, hbehind⟩).resolve_left hb
      obtain ⟨n, hn⟩ := hstops
      obtain ⟨m, hm⟩ := consumed_reverse fun c hc ↦ (hbehind c hc).consumed
      refine Or.inr ⟨m + n + 1, fun stack ↦ (ends_succ_node hvisit).mpr ?_⟩
      rw [List.reverse_append, List.reverse_cons, List.append_assoc, List.append_assoc, hm]
      exact hn (before.reverse ++ stack)

/-- The walk comes from `a`, which it comes to from the root, down to `b`. -/
def Below (visit : α → Visit α β ε) (root b a : α) : Prop :=
  ReflTransGen (Comes visit) root a ∧ TransGen (Comes visit) a b

theorem wellFounded_below [Finite α]
    (hacyclic : ∀ n, ReflTransGen (Comes visit) root n → ¬TransGen (Comes visit) n n) :
    WellFounded (Below visit root) := by
  have htrans : IsTrans α (Below visit root) := ⟨fun c b a hcb hba ↦ ⟨hba.1, hba.2.trans hcb.2⟩⟩
  have hirrefl : Std.Irrefl (Below visit root) := ⟨fun a ha ↦ hacyclic a ha.1 ha.2⟩
  exact Finite.wellFounded_of_trans_of_irrefl (Below visit root)

/-- The walk from a root ends without a read behind the end of a node if and only if no node that
it comes to has such a read or comes to itself. -/
theorem survives_iff [Finite α] : Survives visit root ↔ ∀ n, ReflTransGen (Comes visit) root n →
      visit n ≠ .overrun ∧ ¬TransGen (Comes visit) n n := by
  rw [survives_iff_ends]
  constructor
  · rintro ⟨fuel, hends⟩ n hreach
    obtain ⟨fuel', hends'⟩ : ∃ fuel', Ends visit fuel' [n] := by
      rcases reflTransGen_iff_eq_or_transGen.mp hreach with rfl | hreach
      · exact ⟨fuel, hends⟩
      · obtain ⟨fuel', -, hends'⟩ := ends_of_transGen hreach hends
        exact ⟨fuel', hends'⟩
    exact ⟨fun hvisit ↦ not_ends_overrun hvisit hends', fun hcycle ↦ not_ends_of_cycle hcycle hends'⟩
  · intro hall
    have hwf : WellFounded (Below visit root) := wellFounded_below fun n hreach ↦ (hall n hreach).2
    have hreached (a : α) (hreach : ReflTransGen (Comes visit) root a) :
        Clean visit a ∨ Stops visit a := by
      induction a using hwf.induction with
      | _ a ih =>
        exact clean_or_stops_of_comes (hall a hreach).1 fun b hab ↦
          ih b ⟨hreach, .single hab⟩ (hreach.tail hab)
    rcases hreached root .refl with hclean | ⟨n, hn⟩
    · obtain ⟨n, hn⟩ := hclean.consumed
      exact ⟨n + 0, (hn 0 []).mpr (ends_nil 0)⟩
    · exact ⟨n, hn []⟩

end Obmafs3.Library.NodeWalk
