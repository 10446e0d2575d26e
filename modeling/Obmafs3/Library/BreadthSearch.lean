import Mathlib.Data.List.Basic
import Mathlib.Order.MinMax

/-!
# A breadth-first search with a bounded queue

A search from a root that looks at every successor, without a record of what it has visited, and
enters at most `cap` successors in its queue. `listing` lists the ends of all walks from the root
by their lengths. The search visits the first `cap` of them: `search_eq`. The ends of walks that
come into the queue come from others that do: `near_eq`.
-/

set_option autoImplicit false

namespace Obmafs3.Library.BreadthSearch

variable {α : Type} (f : α → List α) (root : α)

/-- The ends of the walks of one length, in the order of a search in breadth. -/
def level : ℕ → List α
  | 0 => [root]
  | n + 1 => (level n).flatMap f

/-- The ends of the walks shorter than `n`. -/
def listing (n : ℕ) : List α := (List.range n).flatMap (level f root)

/-- The ends of walks that find room in a queue of `cap` places. -/
def near (cap : ℕ) : List α := (listing f root cap).take cap

/-- The search; `entered` counts what has ever been put in the queue. -/
def search (hit : α → Bool) (cap : ℕ) : (fuel : ℕ) → (queue : List α) → (entered : ℕ) → Option α
  | 0, _, _ => none
  | _ + 1, [], _ => none
  | fuel + 1, x :: queue, entered =>
    if hit x then some x
    else
      let pushed := (f x).take (cap - entered)
      search hit cap fuel (queue ++ pushed) (entered + pushed.length)

variable {f root}

theorem listing_append (n : ℕ) : listing f root (n + 1) = listing f root n ++ level f root n := by
  rw [listing, List.range_succ, List.flatMap_append, List.flatMap_singleton]
  rfl

theorem listing_add_one (n : ℕ) :
    listing f root (n + 1) = root :: (listing f root n).flatMap f := by
  induction n with
  | zero => rfl
  | succ n ih =>
    rw [listing_append, ih, List.cons_append]
    conv_rhs => rw [← ih, listing_append, List.flatMap_append]
    rfl

theorem prefix_listing_of_le {m n : ℕ} (hle : m ≤ n) : listing f root m <+: listing f root n := by
  obtain ⟨k, rfl⟩ := Nat.exists_eq_add_of_le hle
  rw [listing, listing, List.range_add, List.flatMap_append]
  exact List.prefix_append _ _

theorem prefix_flatMap {xs ys : List α} (h : xs <+: ys) : xs.flatMap f <+: ys.flatMap f := by
  obtain ⟨zs, rfl⟩ := h
  rw [List.flatMap_append]
  exact List.prefix_append _ _

theorem length_near_le (cap : ℕ) : (near f root cap).length ≤ cap := by
  rw [near, List.length_take]
  exact min_le_left _ _

variable {cap : ℕ} {visited queue : List α}

/-- What a search has visited and what waits in its queue, together all it has entered. -/
structure Searching (f : α → List α) (root : α) (cap : ℕ) (visited queue : List α) : Prop where
  entered : visited ++ queue = (root :: visited.flatMap f).take cap
  listed : visited <+: listing f root visited.length

theorem Searching.start (hcap : 0 < cap) : Searching f root cap [] [root] where
  entered := by
    rw [List.flatMap_nil, List.nil_append, List.take_of_length_le]
    exact hcap
  listed := List.nil_prefix

section

variable (h : Searching f root cap visited queue)
include h

theorem Searching.length_le : visited.length + queue.length ≤ cap := by
  rw [← List.length_append, h.entered, List.length_take]
  exact min_le_left _ _

theorem Searching.prefix_listing : visited ++ queue <+: listing f root (visited.length + 1) := by
  rw [h.entered, listing_add_one]
  exact (List.take_prefix _ _).trans (List.prefix_cons_inj _ |>.mpr (prefix_flatMap h.listed))

/-- The queue is what is left of the near ends of walks. -/
theorem Searching.prefix_near : visited <+: near f root cap := by
  have hle := h.length_le
  have hlisted : visited <+: listing f root cap := h.listed.trans (prefix_listing_of_le (by omega))
  exact List.prefix_take_iff.mpr ⟨hlisted, by omega⟩

end

/-- One visit. -/
theorem Searching.visit {x : α} (h : Searching f root cap visited (x :: queue)) :
    Searching f root cap (visited ++ [x])
      (queue ++ (f x).take (cap - (visited.length + (queue.length + 1)))) where
  entered := by
    have hentered := congrArg List.length h.entered
    rw [List.length_append, List.length_cons, List.length_take] at hentered
    rw [List.flatMap_append, List.flatMap_singleton, ← List.cons_append, List.take_append,
      ← h.entered, List.append_assoc, List.append_assoc, List.singleton_append, List.cons_append]
    congr 4
    omega
  listed := by
    have hprefix : visited ++ [x] <+: visited ++ x :: queue := ⟨queue, by simp⟩
    rw [List.length_append, List.length_singleton]
    exact hprefix.trans h.prefix_listing

/-- A search that has run empty has visited all that is near. -/
theorem Searching.done (h : Searching f root cap visited []) : visited = near f root cap := by
  have hentered := h.entered
  rw [List.append_nil] at hentered
  refine h.prefix_near.eq_of_length_le ?_
  rcases Nat.lt_or_ge cap (root :: visited.flatMap f).length with hlong | hshort
  · -- The queue was full.
    have hfull := congrArg List.length hentered
    rw [List.length_take, min_eq_left hlong.le] at hfull
    exact (length_near_le cap).trans hfull.ge
  · rw [List.take_of_length_le hshort] at hentered
    have hclosed (n : ℕ) : listing f root n <+: visited := by
      induction n with
      | zero => exact List.nil_prefix
      | succ n ih =>
        rw [hentered, listing_add_one]
        exact List.prefix_cons_inj _ |>.mpr (prefix_flatMap ih)
    exact ((List.take_prefix _ _).trans (hclosed cap)).length_le

variable {fuel : ℕ}

/-- The search finds the first hit among the near ends of walks. -/
theorem Searching.search_eq (hit : α → Bool) {rest : List α}
    (h : Searching f root cap visited queue) (hfuel : visited.length + fuel = cap)
    (hrest : near f root cap = visited ++ rest) :
    search f hit cap fuel queue (visited.length + queue.length) = rest.find? hit := by
  induction fuel generalizing visited queue rest with
  | zero =>
    have hle := h.length_le
    obtain rfl : queue = [] := List.length_eq_zero_iff.mp (by omega)
    obtain rfl : rest = [] := List.self_eq_append_right.mp (h.done.trans hrest)
    rfl
  | succ fuel ih =>
    cases queue with
    | nil =>
      obtain rfl : rest = [] := List.self_eq_append_right.mp (h.done.trans hrest)
      rfl
    | cons x queue =>
      obtain ⟨rest', hrest'⟩ := h.visit.prefix_near
      obtain rfl : rest = x :: rest' := by
        rw [hrest, List.append_assoc] at hrest'
        exact (List.append_cancel_left hrest').symm
      rw [search, List.find?_cons]
      cases hit x with
      | true => rfl
      | false =>
        have hnext := ih h.visit (by rw [List.length_append, List.length_singleton]; omega)
          hrest'.symm
        rw [← hnext, List.length_append, List.length_append, List.length_singleton,
          List.length_cons]
        simp only [Bool.false_eq_true, if_false]
        congr 1
        omega

/-- The search of a queue of `cap` places visits the near ends of walks in their order. -/
theorem search_eq (hit : α → Bool) (hcap : 0 < cap) :
    search f hit cap cap [root] 1 = (near f root cap).find? hit :=
  (Searching.start hcap).search_eq hit (Nat.zero_add cap) rfl

theorem Searching.exists_done (h : Searching f root cap visited queue)
    (hfuel : visited.length + fuel = cap) : ∃ visited', Searching f root cap visited' [] := by
  induction fuel generalizing visited queue with
  | zero =>
    have hle := h.length_le
    obtain rfl : queue = [] := List.length_eq_zero_iff.mp (by omega)
    exact ⟨visited, h⟩
  | succ fuel ih =>
    cases queue with
    | nil => exact ⟨visited, h⟩
    | cons x queue =>
      exact ih h.visit (by rw [List.length_append, List.length_singleton]; omega)

/-- What is near is the root and what is next to something near, as far as there is room. -/
theorem near_eq (hcap : 0 < cap) :
    near f root cap = (root :: (near f root cap).flatMap f).take cap := by
  obtain ⟨visited, hdone⟩ := (Searching.start hcap).exists_done (Nat.zero_add cap)
  obtain rfl := hdone.done
  simpa using hdone.entered

/-- What is near ends a walk of some length, and all shorter walks have room before it. -/
theorem exists_level {x : α} (hx : x ∈ near f root cap) :
    ∃ n, x ∈ level f root n ∧ (listing f root n).length < cap := by
  have hlist (n : ℕ) (hmem : x ∈ (listing f root n).take cap) :
      ∃ m, x ∈ level f root m ∧ (listing f root m).length < cap := by
    induction n with
    | zero => exact absurd hmem (by simp [listing])
    | succ n ih =>
      rw [listing_append, List.take_append] at hmem
      rcases List.mem_append.mp hmem with hmem | hmem
      · exact ih hmem
      · have hroom := List.length_pos_of_mem hmem
        rw [List.length_take] at hroom
        exact ⟨n, List.mem_of_mem_take hmem, by omega⟩
  exact hlist cap hx

end Obmafs3.Library.BreadthSearch
