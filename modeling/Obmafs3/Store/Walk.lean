import Obmafs3.Store.Tree

/-!
# Walking the leaves

The leaves of a tree form a doubly linked list. `firstLeaf` goes down to the leftmost leaf and
`walkLeaves` follows the right links from there. On a stored tree the walk meets the leaves of the
tree from left to right, each one naming the one before it.
-/

set_option autoImplicit false
set_option linter.unusedSectionVars false

namespace Obmafs3

open Library.Search Library.SearchTree

variable {κ ρ : Type} [LinearOrder κ] (kind : TreeKind κ ρ)

/-- Go down to the leftmost leaf. -/
def firstLeaf : (fuel lba : ℕ) → Op TreeCtx ℕ
  | 0, _ => throw .hang
  | fuel + 1, lba => do
    match ← readNode kind .badMagic lba with
    | .leaf .. => pure lba
    | .index _ _ _ entries spare => firstLeaf fuel (childLba entries spare 0)

/-- Follow the right links up to link zero. -/
def walkLeaves : (fuel lba : ℕ) → Op TreeCtx (List (LeafAt ρ))
  | 0, _ => throw .hang
  | fuel + 1, lba => do
    if lba = 0 then pure []
    else
      match ← readNode kind .badMagic lba with
      | .index .. => throw .corrupt
      | .leaf leftLink rightLink records =>
        let rest ← walkLeaves fuel rightLink
        pure (⟨lba, leftLink, rightLink, records⟩ :: rest)

/-- All the leaves of a tree, by their right links. -/
def walkTree : Op TreeCtx (List (LeafAt ρ)) := do
  let ctx ← get
  if ctx.hdr.rootNodeLba = 0 then pure []
  else
    let lba ← firstLeaf kind (ctx.vol.totalBlocks + 1) ctx.hdr.rootNodeLba
    walkLeaves kind (ctx.vol.totalBlocks + 1) lba

/-- Every leaf names the one before it and the one after it. -/
def Chained : (prev : ℕ) → List (LeafAt ρ) → Prop
  | _, [] => True
  | prev, leaf :: rest =>
    leaf.leftLink = prev ∧ leaf.rightLink = (rest.head?.map LeafAt.lba).getD 0 ∧
      Chained leaf.lba rest

variable {kind}

variable {ctx : TreeCtx} {height : ℕ} {t : Tree ℕ κ ρ height}

theorem firstLeaf_spec (fuel : ℕ) (hfuel : height < fuel) (hholds : Holds (kind.view ctx) height t)
    (hsolid : Solid height t) (hlt : ∀ lba ∈ nodesOf height t, lba < ctx.vol.totalBlocks) :
    ∃ lba rest, row height t 0 = lba :: rest ∧
      firstLeaf kind fuel (label height t) ctx = .ok lba ctx := by
  induction height generalizing fuel with
  | zero =>
    obtain ⟨a, rs⟩ := t
    obtain ⟨fuel, rfl⟩ := Nat.exists_eq_succ_of_ne_zero (by omega : fuel ≠ 0)
    obtain ⟨left, right, hnode⟩ := contentAt_leaf hholds
    exact ⟨a, [], rfl, bind_ok (readNode_ok (hlt a (label_mem_nodesOf 0 _)) hnode)⟩
  | succ height ih =>
    obtain ⟨a, es⟩ := t
    obtain ⟨fuel, rfl⟩ := Nat.exists_eq_succ_of_ne_zero (by omega : fuel ≠ 0)
    obtain ⟨hroot, hchildren⟩ := hholds
    obtain ⟨e, es, rfl⟩ := List.exists_cons_of_ne_nil hsolid.1
    obtain ⟨left, right, spare, hnode⟩ := contentAt_index hroot
    obtain ⟨lba, rest, hrow, hrun⟩ := ih fuel (by omega) (hchildren e List.mem_cons_self)
      (hsolid.2 e List.mem_cons_self)
      fun lba hlba ↦ hlt lba (nodesOf_child_subset List.mem_cons_self hlba)
    refine ⟨lba, rest ++ es.flatMap fun e ↦ row height e.2 0, ?_, ?_⟩
    · rw [row_index _ _ (Nat.zero_le _), List.flatMap_cons, hrow]
      rfl
    · rw [label_index, firstLeaf, bind_ok (readNode_ok (hlt a (label_mem_nodesOf _ _)) hnode)]
      exact hrun

/-- The leaves of a tree are the nodes of it that hold records. -/
theorem Holds.mem_leaves {view : ℕ → Option (Node κ ρ)} (hholds : Holds view height t) {lba : ℕ}
    {records : List ρ} : (lba, records) ∈ leaves height t ↔
      lba ∈ nodesOf height t ∧ contentAt view lba = some (.inl records) := by
  induction height with
  | zero =>
    obtain ⟨a, rs⟩ := t
    have hleaf : contentAt view a = some (.inl rs) := hholds
    rw [leaves_leaf, List.mem_singleton, Prod.mk.injEq, mem_nodesOf_leaf]
    refine and_congr_right ?_
    rintro rfl
    rw [hleaf, Option.some.injEq, Sum.inl.injEq, eq_comm]
  | succ height ih =>
    obtain ⟨a, es⟩ := t
    obtain ⟨hroot, hchildren⟩ := hholds
    rw [leaves_index, List.mem_flatMap, mem_nodesOf_index]
    constructor
    · rintro ⟨e, he, hmem⟩
      obtain ⟨hnode, hcontent⟩ := (ih (hchildren e he)).mp hmem
      exact ⟨Or.inr ⟨e, he, hnode⟩, hcontent⟩
    · rintro ⟨rfl | ⟨e, he, hnode⟩, hcontent⟩
      · rw [hroot] at hcontent
        cases hcontent
      · exact ⟨e, he, (ih (hchildren e he)).mpr ⟨hnode, hcontent⟩⟩

theorem walkLeaves_spec (hzero : kind.view ctx 0 = none) {prev : ℕ} {ls : List (ℕ × List ρ)}
    (fuel : ℕ) (hfuel : ls.length < fuel) (hlinked : Linked (kind.view ctx) prev (ls.map Prod.fst))
    (hcontent : ∀ l ∈ ls, contentAt (kind.view ctx) l.1 = some (.inl l.2))
    (hlt : ∀ l ∈ ls, l.1 < ctx.vol.totalBlocks) :
    ∃ walk, walkLeaves kind fuel ((ls.map Prod.fst).headD 0) ctx = .ok walk ctx ∧
      Chained prev walk ∧ walk.map (fun leaf ↦ (leaf.lba, leaf.records)) = ls := by
  induction ls generalizing prev fuel with
  | nil =>
    obtain ⟨fuel, rfl⟩ := Nat.exists_eq_succ_of_ne_zero (by omega : fuel ≠ 0)
    exact ⟨[], rfl, trivial, rfl⟩
  | cons l ls ih =>
    obtain ⟨fuel, rfl⟩ := Nat.exists_eq_succ_of_ne_zero (by omega : fuel ≠ 0)
    obtain ⟨lba, records⟩ := l
    obtain ⟨⟨node, hnode, hleft, hright⟩, hrest⟩ := hlinked
    obtain ⟨left, right, hleaf⟩ := contentAt_leaf (hcontent (lba, records) List.mem_cons_self)
    obtain rfl : node = .leaf left right records := Option.some.inj (hnode.symm.trans hleaf)
    obtain ⟨walk, hrun, hchained, hwalk⟩ := ih fuel
      (by simp only [List.length_cons] at hfuel; omega) hrest
      (fun l hl ↦ hcontent l (List.mem_cons_of_mem _ hl))
      (fun l hl ↦ hlt l (List.mem_cons_of_mem _ hl))
    have hne : lba ≠ 0 := by
      rintro rfl
      rw [hzero] at hleaf
      cases hleaf
    have hright' : right = (ls.map Prod.fst).headD 0 := hright
    refine ⟨⟨lba, left, right, records⟩ :: walk, ?_, ⟨hleft, ?_, hchained⟩, ?_⟩
    · rw [List.map_cons, List.headD_cons, walkLeaves, if_neg hne,
        bind_ok (readNode_ok (hlt (lba, records) List.mem_cons_self) hleaf)]
      simp only
      rw [hright', bind_ok hrun]
      rfl
    · rw [hright', ← hwalk]
      cases walk <;> rfl
    · rw [List.map_cons, hwalk]

variable {used : Set ℕ} {hdrLba : ℕ}

/-- The leaves of a stored tree are linked, and no more of them than blocks. -/
theorem Stored.leaves_linked (hstored : Stored kind hdrLba used ctx (.node height t)) :
    Linked (kind.view ctx) 0 ((leaves height t).map Prod.fst) ∧
      (∀ l ∈ leaves height t, l.1 < ctx.vol.totalBlocks) ∧
      (leaves height t).length ≤ ctx.vol.totalBlocks := by
  obtain ⟨-, -, -, -, hlt⟩ := hstored.reads
  obtain ⟨hplaced, -⟩ := hstored.on_disk
  have hrow := hplaced.rows 0 (Nat.zero_le _)
  have hrowOf : nowhere 0 ++ rowOf [t] 0 ++ nowhere 0 = (leaves height t).map Prod.fst := by
    simp [nowhere, rowOf, row_zero]
  rw [hrowOf] at hrow
  have hbound : ∀ l ∈ leaves height t, l.1 < ctx.vol.totalBlocks := fun l hl ↦
    hlt l.1 ⟨0, Nat.zero_le _, by rw [row_zero]; exact List.mem_map_of_mem hl⟩
  refine ⟨hrow.linked, hbound, ?_⟩
  have hsub : (leaves height t).map Prod.fst ⊆ List.range ctx.vol.totalBlocks := by
    intro lba hlba
    obtain ⟨l, hl, rfl⟩ := List.mem_map.mp hlba
    exact List.mem_range.mpr (hbound l hl)
  have hle := (hrow.nodup.subperm hsub).length_le
  rwa [List.length_map, List.length_range] at hle

/-- The walk over a stored tree meets its leaves in order. -/
theorem walkTree_spec {root : Root ℕ κ ρ} (hstored : Stored kind hdrLba used ctx root) :
    ∃ walk, walkTree kind ctx = .ok walk ctx ∧ Chained 0 walk ∧
      walk.map (fun leaf ↦ (leaf.lba, leaf.records)) = root.leaves := by
  unfold walkTree
  rw [get_bind]
  cases root with
  | empty =>
    rw [if_pos (show ctx.hdr.rootNodeLba = 0 from hstored.root_lba)]
    exact ⟨[], rfl, trivial, rfl⟩
  | node height t =>
    obtain ⟨hroot, hnonzero, hholds, hsolid, hlt⟩ := hstored.reads
    obtain ⟨hlinked, hbound, hlength⟩ := hstored.leaves_linked
    obtain ⟨lba, rest, hfirst, hrun⟩ := firstLeaf_spec (ctx.vol.totalBlocks + 1)
      (Nat.lt_succ_of_lt (height_lt hholds hsolid hlt)) hholds hsolid hlt
    obtain ⟨walk, hwalk, hchained, hleaves⟩ := walkLeaves_spec hstored.toReady.zero_view
      (ctx.vol.totalBlocks + 1) (Nat.lt_succ_of_le hlength) hlinked
      (fun l hl ↦ (hholds.mem_leaves.mp hl).2) hbound
    rw [row_zero] at hfirst
    rw [hfirst, List.headD_cons] at hwalk
    refine ⟨walk, ?_, hchained, hleaves⟩
    rw [if_neg (by rwa [hroot]), hroot, bind_ok hrun, hwalk]

end Obmafs3
