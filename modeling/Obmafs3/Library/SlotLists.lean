import Mathlib.Data.List.Nodup
import Mathlib.Data.List.Perm.Subperm

/-!
# Lists through numbered slots

Slots that are linked by their numbers. A chain has one link in every slot and a head; a doubly
linked list has two links in every slot, a head and a tail. The results say which list of slots is
there after a slot is put in front or taken out. A pool has a doubly linked list of the slots in
use, a chain for every bucket of a hash table and a chain of the free slots through the same links.
-/

set_option autoImplicit false

namespace Obmafs3.Library.SlotLists

open Function (update update_of_ne update_self)

variable {next next' : ℕ → Option ℕ} {head : Option ℕ} {l before after : List ℕ} {i j : ℕ}

/-! ### Chains -/

/-- The slots of a chain in their order. -/
def Chain (next : ℕ → Option ℕ) : (head : Option ℕ) → List ℕ → Prop
  | head, [] => head = none
  | head, i :: l => head = some i ∧ Chain next (next i) l

/-- The first slot of a chain that is looked for. -/
def walk (next : ℕ → Option ℕ) (hit : ℕ → Bool) : (fuel : ℕ) → Option ℕ → Option ℕ
  | 0, _ => none
  | _ + 1, none => none
  | fuel + 1, some i => if hit i then some i else walk next hit fuel (next i)

/-- The head and the links after a slot is taken out of a chain. -/
def takeOut (next : ℕ → Option ℕ) (i : ℕ) :
    (fuel : ℕ) → (previous current head : Option ℕ) → Option ℕ × (ℕ → Option ℕ)
  | 0, _, _, head => (head, next)
  | _ + 1, _, none, head => (head, next)
  | fuel + 1, previous, some j, head =>
    if j = i then
      match previous with
      | none => (next j, next)
      | some p => (head, Function.update next p (next j))
    else takeOut next i fuel (some j) (next j) head

section

variable (h : Chain next head l)
include h

theorem Chain.head_eq : head = l.head? := by
  cases l with
  | nil => exact h
  | cons i l => exact h.1

theorem Chain.congr (hsame : ∀ i ∈ l, next' i = next i) : Chain next' head l := by
  induction l generalizing head with
  | nil => exact h
  | cons i l ih =>
    refine ⟨h.1, ?_⟩
    rw [hsame i List.mem_cons_self]
    exact ih h.2 fun j hj ↦ hsame j (List.mem_cons_of_mem i hj)

theorem Chain.cons (hnew : i ∉ l) : Chain (update next i head) (some i) (i :: l) := by
  refine ⟨rfl, ?_⟩
  rw [update_self]
  refine h.congr fun j hj ↦ update_of_ne ?_ _ _
  rintro rfl
  exact hnew hj

end

theorem Chain.of_next (hhead : head = l.head?)
    (hnext : ∀ before i after, l = before ++ i :: after → next i = after.head?) :
    Chain next head l := by
  induction l generalizing head with
  | nil => exact hhead
  | cons i l ih =>
    refine ⟨hhead, ih (hnext [] i l rfl) fun before j after hl ↦ ?_⟩
    exact hnext (i :: before) j after (by rw [hl, List.cons_append])

/-- Slots that each have the next number as their link. -/
theorem Chain.fresh (m n : ℕ) :
    Chain (fun i ↦ if i + 1 < m + n + 1 then some (i + 1) else none) (some m)
      (List.range' m (n + 1)) := by
  induction n generalizing m with
  | zero =>
    refine ⟨rfl, if_neg ?_⟩
    omega
  | succ n ih =>
    refine ⟨rfl, ?_⟩
    change Chain _ (if m + 1 < m + (n + 1) + 1 then some (m + 1) else none) _
    rw [if_pos (by omega), show m + (n + 1) + 1 = m + 1 + n + 1 by omega]
    exact ih (m + 1)

variable {fuel : ℕ}

theorem Chain.walk_eq {hit : ℕ → Bool} (h : Chain next head l) (hfuel : l.length < fuel) :
    walk next hit fuel head = l.find? hit := by
  induction fuel generalizing head l with
  | zero => cases hfuel
  | succ fuel ih =>
    cases l with
    | nil =>
      obtain rfl : head = none := h
      rfl
    | cons i l =>
      obtain ⟨rfl, hrest⟩ := h
      rw [walk, List.find?_cons]
      cases hhit : hit i with
      | true => rfl
      | false => exact ih hrest (Nat.lt_of_succ_lt_succ hfuel)

/-- A slot is taken out of the rest of a chain that has `p` in front of it. -/
theorem Chain.takeOut_rest {fuel p : ℕ} {current : Option ℕ}
    (h : Chain next current (before ++ i :: after)) (hnew : i ∉ before)
    (hfuel : before.length < fuel) :
    takeOut next i fuel (some p) current head =
      (head, update next (before.getLastD p) after.head?) := by
  induction before generalizing fuel p current with
  | nil =>
    obtain ⟨rfl, hrest⟩ := h
    cases fuel with
    | zero => cases hfuel
    | succ fuel =>
      rw [takeOut, if_pos rfl, hrest.head_eq]
      rfl
  | cons j before ih =>
    obtain ⟨rfl, hrest⟩ := h
    rw [List.mem_cons, not_or] at hnew
    cases fuel with
    | zero => cases hfuel
    | succ fuel =>
      rw [takeOut, if_neg (Ne.symm hnew.1), ih hrest hnew.2 (Nat.lt_of_succ_lt_succ hfuel),
        List.getLastD_cons]

theorem Chain.skip {p : ℕ} (h : Chain next head (p :: before ++ i :: after))
    (hnodup : (p :: before ++ i :: after).Nodup) :
    Chain (update next (before.getLastD p) after.head?) head (p :: before ++ after) := by
  induction before generalizing p head with
  | nil =>
    obtain ⟨hhead, -, hrest⟩ := h
    have hp : p ∉ after := fun hp ↦
      (List.nodup_cons.mp hnodup).1 (List.mem_cons_of_mem i hp)
    refine ⟨hhead, ?_⟩
    change Chain (update next p _) (update next p _ p) after
    rw [update_self, ← hrest.head_eq]
    refine hrest.congr fun j hj ↦ update_of_ne ?_ _ _
    rintro rfl
    exact hp hj
  | cons q before ih =>
    obtain ⟨hhead, hrest⟩ := h
    obtain ⟨hp, hnodup⟩ := List.nodup_cons.mp hnodup
    have hne : p ≠ before.getLastD q := by
      rintro rfl
      exact hp (List.mem_append_left _ List.getLastD_mem_cons)
    refine ⟨hhead, ?_⟩
    rw [List.getLastD_cons, update_of_ne hne]
    exact ih hrest hnodup

theorem Chain.takeOut (h : Chain next head (before ++ i :: after))
    (hnodup : (before ++ i :: after).Nodup) (hfuel : before.length < fuel) :
    Chain (takeOut next i fuel none head head).2 (takeOut next i fuel none head head).1
        (before ++ after) ∧
      ∀ j, j ∉ before → (SlotLists.takeOut next i fuel none head head).2 j = next j := by
  obtain ⟨-, -, hapart⟩ := List.nodup_append.mp hnodup
  have hnew : i ∉ before := fun hi ↦ hapart i hi i List.mem_cons_self rfl
  cases fuel with
  | zero => cases hfuel
  | succ fuel =>
    cases before with
    | nil =>
      obtain ⟨rfl, hrest⟩ := h
      rw [SlotLists.takeOut, if_pos rfl]
      exact ⟨hrest, fun j _ ↦ rfl⟩
    | cons p before =>
      have hskip := h.skip hnodup
      obtain ⟨rfl, hrest⟩ := h
      rw [List.mem_cons, not_or] at hnew
      rw [SlotLists.takeOut, if_neg (Ne.symm hnew.1),
        hrest.takeOut_rest hnew.2 (Nat.lt_of_succ_lt_succ hfuel)]
      refine ⟨hskip, fun j hj ↦ update_of_ne ?_ _ _⟩
      rintro rfl
      exact hj List.getLastD_mem_cons

/-! ### Doubly linked lists -/

/-- Store a link in a slot, if there is a slot. -/
def store (links : ℕ → Option ℕ) (slot link : Option ℕ) : ℕ → Option ℕ :=
  match slot with
  | some i => Function.update links i link
  | none => links

theorem store_apply (links : ℕ → Option ℕ) (slot link : Option ℕ) (i : ℕ) :
    store links slot link i = if slot = some i then link else links i := by
  cases slot with
  | none => rfl
  | some j =>
    rw [store, Function.update_apply]
    simp only [Option.some.injEq, eq_comm]

/-- The links of all slots, and the two ends of the list. -/
structure Links where
  prev : ℕ → Option ℕ
  next : ℕ → Option ℕ
  head : Option ℕ
  tail : Option ℕ

namespace Links

variable {links links' : Links}

/-- The slots of the list, from the head to the tail. -/
structure Holds (links : Links) (l : List ℕ) : Prop where
  nodup : l.Nodup
  head : links.head = l.head?
  tail : links.tail = l.getLast?
  around : ∀ before i after, l = before ++ i :: after →
    links.prev i = before.getLast? ∧ links.next i = after.head?

def empty : Links := ⟨fun _ ↦ none, fun _ ↦ none, none, none⟩

/-- The slot in front of a slot, or the head, and the slot behind it, or the tail, pass it by. -/
def unlink (links : Links) (i : ℕ) : Links where
  prev := Function.update (store links.prev (links.next i) (links.prev i)) i none
  next := Function.update (store links.next (links.prev i) (links.next i)) i none
  head := if links.prev i = none then links.next i else links.head
  tail := if links.next i = none then links.prev i else links.tail

/-- A slot becomes the head. -/
def pushFront (links : Links) (i : ℕ) : Links where
  prev := store (Function.update links.prev i none) links.head (some i)
  next := Function.update links.next i links.head
  head := some i
  tail := if links.tail = none then some i else links.tail

theorem holds_empty : empty.Holds [] := ⟨List.nodup_nil, rfl, rfl, by simp⟩

theorem Holds.chain (h : links.Holds l) : Chain links.next links.head l :=
  Chain.of_next h.head fun before i after hl ↦ (h.around before i after hl).2

theorem Holds.chain_reverse (h : links.Holds l) : Chain links.prev links.tail l.reverse := by
  refine Chain.of_next (by rw [h.tail, List.head?_reverse]) fun before i after hl ↦ ?_
  have hl' : l = after.reverse ++ i :: before.reverse := by
    rw [← List.reverse_reverse l, hl]
    simp
  rw [(h.around _ _ _ hl').1, List.getLast?_reverse]

theorem Holds.pushFront (h : links.Holds l) (hnew : i ∉ l) : (links.pushFront i).Holds (i :: l) where
  nodup := List.nodup_cons.mpr ⟨hnew, h.nodup⟩
  head := rfl
  tail := by
    change (if links.tail = none then some i else links.tail) = _
    rw [h.tail, List.getLast?_cons]
    cases l.getLast? <;> rfl
  around before j after hl := by
    have hnext (k : ℕ) : (links.pushFront i).next k = if k = i then l.head? else links.next k := by
      rw [← h.head]
      exact Function.update_apply ..
    have hprev (k : ℕ) : (links.pushFront i).prev k =
        if l.head? = some k then some i else if k = i then none else links.prev k := by
      rw [← h.head, ← Function.update_apply]
      exact store_apply ..
    rw [hprev, hnext]
    cases before with
    | nil =>
      obtain ⟨rfl, rfl⟩ := List.cons.inj hl
      have hfirst : l.head? ≠ some i := fun hhead ↦ hnew (List.mem_of_mem_head? hhead)
      rw [if_neg hfirst, if_pos rfl, if_pos rfl]
      exact ⟨rfl, rfl⟩
    | cons k before =>
      obtain ⟨rfl, rfl⟩ := List.cons.inj hl
      obtain ⟨hp, hn⟩ := h.around before j after rfl
      have hne : j ≠ i := by
        rintro rfl
        exact hnew (by simp)
      rw [if_neg hne, if_neg hne, hp]
      refine ⟨?_, hn⟩
      cases before with
      | nil => exact if_pos rfl
      | cons k before =>
        have hjk : k ≠ j := by
          rintro rfl
          exact (List.nodup_cons.mp h.nodup).1 (by simp)
        exact if_neg fun hhead ↦ hjk (Option.some.inj hhead)

variable (h : links.Holds (before ++ i :: after))
include h

/-- Whatever a slot is taken out with: its neighbours are linked to each other, or are the ends. -/
theorem Holds.detach (hhead : links'.head = (before ++ after).head?)
    (htail : links'.tail = (before ++ after).getLast?)
    (hprev : ∀ j ∈ before ++ after, links'.prev j = if after.head? = some j then before.getLast? else links.prev j)
    (hnext : ∀ j ∈ before ++ after, links'.next j = if before.getLast? = some j then after.head? else links.next j) :
    links'.Holds (before ++ after) := by
  obtain ⟨hbefore, hafter, hapart⟩ := List.nodup_append.mp h.nodup
  have hafter' := (List.nodup_cons.mp hafter).2
  have hdisjoint (j : ℕ) (hj : j ∈ before) (hj' : j ∈ after) : False :=
    hapart j hj j (List.mem_cons_of_mem i hj') rfl
  refine ⟨?_, hhead, htail, fun front j back hl ↦ ?_⟩
  · exact List.nodup_append.mpr ⟨hbefore, hafter', fun x hx y hy ↦
      hapart x hx y (List.mem_cons_of_mem i hy)⟩
  have hj : j ∈ before ++ after := hl ▸ by simp
  rw [hprev j hj, hnext j hj]
  rcases List.append_eq_append_iff.mp hl with ⟨between, rfl, hback⟩ | ⟨between, rfl, hback⟩
  · -- The slot is behind the one that goes.
    subst hback
    obtain ⟨hp, hn⟩ := h.around (before ++ i :: between) j back (by simp)
    have hlast : before.getLast? ≠ some j := fun hlast ↦
      hdisjoint j (List.mem_of_mem_getLast? hlast) (by simp)
    rw [if_neg hlast, hp, hn]
    refine ⟨?_, rfl⟩
    cases between with
    | nil => simp
    | cons k between =>
      have hjk : k ≠ j := by
        rintro rfl
        exact (List.nodup_cons.mp hafter').1 (by simp)
      simp [hjk]
  · cases between with
    | nil =>
      obtain rfl : after = j :: back := hback.symm
      obtain ⟨hp, hn⟩ := h.around (front ++ [i]) j back (by simp)
      have hlast : front.getLast? ≠ some j := fun hlast ↦
        hdisjoint j (by simpa using List.mem_of_mem_getLast? hlast) (by simp)
      simp [hlast, hn]
    | cons k between =>
      -- The slot is in front of the one that goes.
      obtain ⟨rfl, rfl⟩ := List.cons.inj hback
      obtain ⟨hp, hn⟩ := h.around front j (between ++ i :: after) (by simp)
      have hfirst : after.head? ≠ some j := fun hfirst ↦
        hdisjoint j (by simp) (List.mem_of_mem_head? hfirst)
      rw [if_neg hfirst, hp, hn]
      refine ⟨rfl, ?_⟩
      rcases List.eq_nil_or_concat between with rfl | ⟨between, k, rfl⟩
      · simp
      · have hjk : k ≠ j := by
          rintro rfl
          have hnodup := (List.nodup_append.mp hbefore).2.1
          exact (List.nodup_cons.mp hnodup).1 (by simp)
        have hlast : (j :: (between ++ [k])).getLast? = some k := by
          rw [← List.cons_append, List.getLast?_concat]
        simp [hlast, hjk]

theorem Holds.unlink : (links.unlink i).Holds (before ++ after) := by
  obtain ⟨hp, hn⟩ := h.around before i after rfl
  have hne (j : ℕ) (hj : j ∈ before ++ after) : j ≠ i := by
    rintro rfl
    exact (List.nodup_middle.mp h.nodup |> List.nodup_cons.mp).1 hj
  refine h.detach ?_ ?_ (fun j hj ↦ ?_) fun j hj ↦ ?_
  · change (if links.prev i = none then links.next i else links.head) = _
    rw [hp, hn, h.head]
    cases before with
    | nil => rfl
    | cons k before => rw [if_neg (by simp)]; rfl
  · change (if links.next i = none then links.prev i else links.tail) = _
    rw [hp, hn, h.tail]
    cases after with
    | nil => simp
    | cons k after => rw [if_neg (by simp)]; simp
  · rw [← hp, ← hn, ← store_apply]
    exact update_of_ne (hne j hj) ..
  · rw [← hp, ← hn, ← store_apply]
    exact update_of_ne (hne j hj) ..

end Links

/-! ### Pools -/

/-- The links of the slots of a hash table. A slot is in the chain of its bucket or in the chain of
the free slots. -/
structure Pool where
  next : ℕ → Option ℕ
  buckets : ℕ → Option ℕ
  freeHead : Option ℕ
  lru : Links

namespace Pool

variable {pool : Pool} {bucketOf bucketOf' : ℕ → ℕ} {used free : List ℕ} {b fuel : ℕ}

/-- The slots in use are in the list and in the chains of their buckets; the others are free. -/
structure Holds (pool : Pool) (bucketOf : ℕ → ℕ) (used free : List ℕ) : Prop where
  lru : pool.lru.Holds used
  chained : ∀ b, ∃ c : List ℕ, Chain pool.next (pool.buckets b) c ∧ c.Nodup ∧
    ∀ i, i ∈ c ↔ i ∈ used ∧ bucketOf i = b
  freed : Chain pool.next pool.freeHead free
  nodup : (used ++ free).Nodup

/-- The slot in a bucket that is looked for. -/
def find (pool : Pool) (hit : ℕ → Bool) (fuel b : ℕ) : Option ℕ :=
  walk pool.next hit fuel (pool.buckets b)

/-- The first free slot is free no longer. -/
def popFree (pool : Pool) (i : ℕ) : Pool := { pool with freeHead := pool.next i }

def pushFree (pool : Pool) (i : ℕ) : Pool :=
  { pool with next := Function.update pool.next i pool.freeHead, freeHead := some i }

/-- A slot becomes the first one of a bucket and the head of the list. -/
def enter (pool : Pool) (b i : ℕ) : Pool :=
  { pool with
    next := Function.update pool.next i (pool.buckets b)
    buckets := Function.update pool.buckets b (some i)
    lru := pool.lru.pushFront i }

/-- A slot is taken out of its bucket; `lru` is the list without it. -/
def leave (pool : Pool) (fuel b i : ℕ) (lru : Links) : Pool :=
  { pool with
    next := (takeOut pool.next i fuel none (pool.buckets b) (pool.buckets b)).2
    buckets := Function.update pool.buckets b
      (takeOut pool.next i fuel none (pool.buckets b) (pool.buckets b)).1
    lru := lru }

theorem Holds.congr (h : pool.Holds bucketOf used free)
    (hsame : ∀ i ∈ used, bucketOf' i = bucketOf i) : pool.Holds bucketOf' used free where
  lru := h.lru
  chained b := by
    obtain ⟨c, hc, hnodup, hmem⟩ := h.chained b
    refine ⟨c, hc, hnodup, fun i ↦ (hmem i).trans (and_congr_right fun hi ↦ ?_)⟩
    rw [hsame i hi]
  freed := h.freed
  nodup := h.nodup

variable {hit : ℕ → Bool} {lru : Links}

/-- The list changes its order only. -/
theorem Holds.reorder (h : pool.Holds bucketOf used free) {used' : List ℕ} (hlru : lru.Holds used')
    (hmem : ∀ i, i ∈ used' ↔ i ∈ used) : Holds { pool with lru := lru } bucketOf used' free where
  lru := hlru
  chained b := by
    obtain ⟨c, hc, hnodup, hc'⟩ := h.chained b
    exact ⟨c, hc, hnodup, fun i ↦ by rw [hc', hmem]⟩
  freed := h.freed
  nodup := by
    obtain ⟨-, hfree, hapart⟩ := List.nodup_append.mp h.nodup
    exact List.nodup_append.mpr ⟨hlru.nodup, hfree, fun i hi ↦ hapart i ((hmem i).mp hi)⟩

variable (b) in
theorem Holds.find_eq (hit : ℕ → Bool) (h : pool.Holds bucketOf used free)
    (hfuel : used.length < fuel) :
    ∃ c : List ℕ, (∀ i, i ∈ c ↔ i ∈ used ∧ bucketOf i = b) ∧ pool.find hit fuel b = c.find? hit := by
  obtain ⟨c, hc, hnodup, hmem⟩ := h.chained b
  have hlength : c.length ≤ used.length := (hnodup.subperm fun i hi ↦ ((hmem i).mp hi).1).length_le
  exact ⟨c, hmem, hc.walk_eq (Nat.lt_of_le_of_lt hlength hfuel)⟩

section

variable (h : pool.Holds bucketOf used free)
include h

theorem Holds.find_some (hfuel : used.length < fuel) (hfind : pool.find hit fuel b = some i) :
    i ∈ used ∧ hit i = true := by
  obtain ⟨c, hmem, hc⟩ := h.find_eq b hit hfuel
  rw [hfind] at hc
  exact ⟨((hmem i).mp (List.mem_of_find?_eq_some hc.symm)).1, List.find?_some hc.symm⟩

theorem Holds.find_none (hfuel : used.length < fuel) (hfind : pool.find hit fuel b = none)
    (hi : i ∈ used) (hbucket : bucketOf i = b) : hit i = false := by
  obtain ⟨c, hmem, hc⟩ := h.find_eq b hit hfuel
  rw [hfind] at hc
  exact Bool.eq_false_iff.mpr (List.find?_eq_none.mp hc.symm i ((hmem i).mpr ⟨hi, hbucket⟩))

theorem Holds.freeHead_eq : pool.freeHead = free.head? :=
  h.freed.head_eq

end

theorem Holds.popFree (h : pool.Holds bucketOf used (i :: free)) :
    (pool.popFree i).Holds bucketOf used free ∧ i ∉ used ++ free := by
  obtain ⟨hi, hnodup⟩ := List.nodup_cons.mp (List.nodup_middle.mp h.nodup)
  exact ⟨⟨h.lru, h.chained, h.freed.2, hnodup⟩, hi⟩

section

variable (h : pool.Holds bucketOf used free) (hnew : i ∉ used ++ free)
include h hnew

theorem Holds.pushFree : (pool.pushFree i).Holds bucketOf used (i :: free) where
  lru := h.lru
  chained b := by
    obtain ⟨c, hc, hnodup, hmem⟩ := h.chained b
    refine ⟨c, hc.congr fun j hj ↦ update_of_ne ?_ _ _, hnodup, hmem⟩
    rintro rfl
    exact hnew (List.mem_append_left _ ((hmem j).mp hj).1)
  freed := h.freed.cons fun hi ↦ hnew (List.mem_append_right _ hi)
  nodup := List.nodup_middle.mpr (List.nodup_cons.mpr ⟨hnew, h.nodup⟩)

theorem Holds.enter : (pool.enter b i).Holds (update bucketOf i b) (i :: used) free := by
  have hused : i ∉ used := fun hi ↦ hnew (List.mem_append_left _ hi)
  have hfree : i ∉ free := fun hi ↦ hnew (List.mem_append_right _ hi)
  refine ⟨h.lru.pushFront hused, fun b' ↦ ?_, ?_, List.nodup_cons.mpr ⟨hnew, h.nodup⟩⟩
  · obtain ⟨c, hc, hnodup, hmem⟩ := h.chained b'
    have hi : i ∉ c := fun hi ↦ hused ((hmem i).mp hi).1
    have hother (j : ℕ) (hj : j ≠ i) : j ∈ c ↔ j ∈ i :: used ∧ update bucketOf i b j = b' := by
      rw [hmem, List.mem_cons, or_iff_right hj, update_of_ne hj]
    rcases eq_or_ne b' b with rfl | hb
    · refine ⟨i :: c, ?_, List.nodup_cons.mpr ⟨hi, hnodup⟩, fun j ↦ ?_⟩
      · have hhead : (pool.enter b' i).buckets b' = some i := update_self ..
        rw [hhead]
        exact hc.cons hi
      · rcases eq_or_ne j i with rfl | hj
        · exact iff_of_true List.mem_cons_self ⟨List.mem_cons_self, update_self ..⟩
        · rw [List.mem_cons, or_iff_right hj, hother j hj]
    · refine ⟨c, ?_, hnodup, fun j ↦ ?_⟩
      · have hhead : (pool.enter b i).buckets b' = pool.buckets b' := update_of_ne hb ..
        rw [hhead]
        refine hc.congr fun j hj ↦ update_of_ne ?_ _ _
        rintro rfl
        exact hi hj
      · rcases eq_or_ne j i with rfl | hj
        · refine iff_of_false hi fun hj ↦ hb ?_
          rw [← hj.2, update_self]
        · exact hother j hj
  · refine h.freed.congr fun j hj ↦ update_of_ne ?_ _ _
    rintro rfl
    exact hfree hj

end

theorem Holds.leave (h : pool.Holds bucketOf (before ++ i :: after) free)
    (hlru : lru.Holds (before ++ after)) (hfuel : (before ++ i :: after).length ≤ fuel) :
    (pool.leave fuel (bucketOf i) i lru).Holds bucketOf (before ++ after) free ∧
      i ∉ (before ++ after) ++ free := by
  have hmiddle : (i :: ((before ++ after) ++ free)).Nodup := by
    have hnodup := h.nodup
    rw [List.append_assoc, List.cons_append, List.nodup_middle, ← List.append_assoc] at hnodup
    exact hnodup
  obtain ⟨hnew, hrest⟩ := List.nodup_cons.mp hmiddle
  have hiff (j : ℕ) (hj : j ≠ i) : j ∈ before ++ i :: after ↔ j ∈ before ++ after := by
    simp [hj]
  obtain ⟨c, hc, hnodup, hmem⟩ := h.chained (bucketOf i)
  have hic : i ∈ c := (hmem i).mpr ⟨by simp, rfl⟩
  obtain ⟨front, back, rfl⟩ := List.append_of_mem hic
  have hlength : (front ++ i :: back).length ≤ (before ++ i :: after).length :=
    (hnodup.subperm fun i hi ↦ ((hmem i).mp hi).1).length_le
  have hinside : front.length < fuel := by
    rw [List.length_append, List.length_cons] at hlength
    omega
  obtain ⟨hchain, hkept⟩ := hc.takeOut hnodup hinside
  have hfront (j : ℕ) (hj : j ∈ front) : j ∈ before ++ after ∧ bucketOf j = bucketOf i := by
    obtain ⟨hused, hbucket⟩ := (hmem j).mp (List.mem_append_left _ hj)
    refine ⟨(hiff j ?_).mp hused, hbucket⟩
    rintro rfl
    exact (List.nodup_append.mp hnodup).2.2 j hj j List.mem_cons_self rfl
  refine ⟨⟨hlru, fun b ↦ ?_, ?_, hrest⟩, hnew⟩
  · rcases eq_or_ne b (bucketOf i) with rfl | hb
    · refine ⟨front ++ back, ?_, ?_, fun j ↦ ?_⟩
      · have hhead : (pool.leave fuel (bucketOf i) i lru).buckets (bucketOf i) = _ := update_self ..
        rw [hhead]
        exact hchain
      · exact (List.nodup_cons.mp (List.nodup_middle.mp hnodup)).2
      · rcases eq_or_ne j i with rfl | hj
        · refine iff_of_false ?_ fun hj ↦ hnew (List.mem_append_left _ hj.1)
          exact (List.nodup_cons.mp (List.nodup_middle.mp hnodup)).1
        · rw [← hiff j hj, ← hmem]
          simp [hj]
    · obtain ⟨c', hc', hnodup', hmem'⟩ := h.chained b
      refine ⟨c', ?_, hnodup', fun j ↦ ?_⟩
      · have hhead : (pool.leave fuel (bucketOf i) i lru).buckets b = pool.buckets b :=
          update_of_ne hb ..
        rw [hhead]
        refine hc'.congr fun j hj ↦ hkept j fun hj' ↦ hb ?_
        rw [← ((hmem' j).mp hj).2, (hfront j hj').2]
      · rw [hmem']
        rcases eq_or_ne j i with rfl | hj
        · exact iff_of_false (fun hj ↦ hb hj.2.symm) fun hj ↦
            hnew (List.mem_append_left _ hj.1)
        · rw [hiff j hj]
  · refine h.freed.congr fun j hj ↦ hkept j fun hj' ↦ ?_
    exact (List.nodup_append.mp hrest).2.2 j (hfront j hj').1 j hj rfl

end Pool

end Obmafs3.Library.SlotLists
