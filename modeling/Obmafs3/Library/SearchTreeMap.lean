import Obmafs3.Library.SearchTreeScan
import Obmafs3.Library.SearchTreeKeep

/-!
# Search trees as maps

A tree stands for a map when it is in order and a search for each key finds what the map has there.
Insertions that are granted their labels and whose separators separate, and removals that leave an
entry in every index node, change the map at one key. A search goes through every index node on its
way, which takes an entry in each of them: `leads` says that there is one.
-/

set_option autoImplicit false
set_option linter.unusedSectionVars false

namespace Obmafs3.Library.SearchTree

open Search

variable {α κ ρ : Type} [LinearOrder κ] {key : ρ → κ}

/-! ### The way to a leaf -/

/-- There is an entry to follow in every index node on the way, where `pick` chooses the slots. -/
def leads (pick : List κ → ℕ) : (height : ℕ) → Tree α κ ρ height → Bool
  | 0, _ => true
  | height + 1, (_, es) =>
    match es[pick (es.map Prod.fst)]? with
    | none => false
    | some e => leads pick height e.2

theorem leads_of_solid {pick : List κ → ℕ} (hpick : ∀ keys : List κ, keys ≠ [] → pick keys < keys.length)
    {height : ℕ} {t : Tree α κ ρ height} (hsolid : Solid height t) : leads pick height t = true := by
  induction height with
  | zero => rfl
  | succ height ih =>
    obtain ⟨a, es⟩ := t
    have hlt : pick (es.map Prod.fst) < es.length := by
      simpa using hpick (es.map Prod.fst) (by simpa using hsolid.1)
    rw [leads, List.getElem?_eq_getElem hlt]
    exact ih (hsolid.2 _ (List.getElem_mem hlt))

namespace Root

def leads (pick : List κ → ℕ) : Root α κ ρ → Bool
  | empty => true
  | node height t => SearchTree.leads pick height t

/-- In an ordered tree every search gets to a leaf. -/
theorem Ordered.leads {root : Root α κ ρ} (hordered : root.Ordered key) (k : κ) :
    root.leads (indexFind · k) = true := by
  cases root with
  | empty => rfl
  | node height t =>
    exact leads_of_solid (fun keys hne ↦ indexFind_lt hne k) (SearchTree.Ordered.solid hordered)

/-! ### Maps -/

/-- The tree is in order, and a search finds under each key what the map has there. -/
structure Stands (key : ρ → κ) (root : Root α κ ρ) (m : κ → Option ρ) : Prop where
  ordered : root.Ordered key
  lookup_eq : ∀ k, root.lookup key k = m k

theorem stands_empty : Stands key (empty : Root α κ ρ) fun _ ↦ none := ⟨trivial, fun _ ↦ rfl⟩

variable {root : Root α κ ρ} {m : κ → Option ρ}

variable {k : κ} {r : ρ}

theorem Stands.mem (hstands : root.Stands key m) : r ∈ root.records ↔ m (key r) = some r := by
  rw [← hstands.lookup_eq, mem_lookup hstands.ordered]
  exact (and_iff_left rfl).symm

/-- The map has records under their own keys. -/
theorem Stands.key_eq (hstands : root.Stands key m) (hm : m k = some r) : key r = k := by
  rw [← hstands.lookup_eq, mem_lookup hstands.ordered] at hm
  exact hm.2

variable {m' : κ → Option ρ}

/-- An insertion leads to a map that has the record, and is the same elsewhere. -/
theorem Stands.put (hstands : root.Stands key m) {leafMax indexMax : ℕ} (hleafMax : 1 ≤ leafMax)
    (hindexMax : 1 ≤ indexMax) {fresh : ℕ → Option α} (hsafe : root.Safe key leafMax indexMax r)
    (hdone : (root.put key leafMax indexMax fresh r).2 = true) (hself : m' (key r) = some r)
    (hother : ∀ k, k ≠ key r → m' k = m k) :
    (root.put key leafMax indexMax fresh r).1.Stands key m' where
  ordered := put_ordered hleafMax hindexMax fresh hstands.ordered hsafe
  lookup_eq k := by
    rw [lookup_put hleafMax hindexMax hstands.ordered hsafe hdone]
    split_ifs with hk
    · rw [← hk, hself]
    · rw [hother k (Ne.symm hk), hstands.lookup_eq]

/-- A removal leads to a map that has nothing under the key, and is the same elsewhere. -/
theorem Stands.delete (hstands : root.Stands key m) (hkeep : root.Unstranded key k)
    (hself : m' k = none) (hother : ∀ x, x ≠ k → m' x = m x) :
    (root.delete key k).1.Stands key m' := by
  have hordered := delete_ordered hstands.ordered hkeep
  refine ⟨hordered, fun x ↦ ?_⟩
  by_cases hx : x = k
  · rw [hx, hself, lookup_none hordered]
    exact fun r hr ↦ ((mem_delete hstands.ordered).mp hr).2
  · rw [hother x hx]
    refine Option.ext fun r ↦ ?_
    rw [mem_lookup hordered, mem_delete hstands.ordered, ← hstands.lookup_eq,
      mem_lookup hstands.ordered]
    constructor
    · exact fun h ↦ ⟨h.1.1, h.2⟩
    · exact fun h ↦ ⟨⟨h.1, h.2 ▸ hx⟩, h.2⟩

/-- A removal of a key that is not there changes nothing. -/
theorem delete_absent (hnone : root.lookup key k = none) : root.delete key k = (root, false) := by
  cases root with
  | empty => rfl
  | node height t => exact if_pos hnone

/-- A scan from the leaf that a search reaches collects, in order, the records of the map at or
above the key that are neither before nor after what is looked for. -/
theorem Stands.scan (hstands : root.Stands key m) {before after : ρ → Bool}
    (hbefore : ∀ r, key r < k → before r = true)
    (hafter : ∀ r q, key r < key q → after r = true → after q = true) :
    ((SearchTree.scan before after (root.recordsFrom (indexFind · k))).map key).Pairwise (· < ·) ∧
      ∀ r, r ∈ SearchTree.scan before after (root.recordsFrom (indexFind · k)) ↔
        m (key r) = some r ∧ before r = false ∧ after r = false := by
  refine ⟨?_, fun r ↦ ?_⟩
  · have hsub := (scan_sublist before after _).trans (recordsFrom_suffix (indexFind · k) root).sublist
    exact (records_pairwise hstands.ordered).sublist (hsub.map key)
  · rw [mem_scan_route hstands.ordered hbefore hafter, hstands.mem]

end Root

end Obmafs3.Library.SearchTree
