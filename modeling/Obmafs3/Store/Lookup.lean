import Obmafs3.Library.SearchTreeRoot
import Obmafs3.Store.Split

/-!
# Lookups on disk

A lookup needs less of a volume than an insertion does: the nodes on disk spell a tree without
hollow nodes, inside the volume. `Readable` says so, and `btreeLookup_spec` that a lookup then ends
with what a search of that tree finds. The descent ends because the levels on its way are distinct,
so that a volume has more blocks than a tree has levels.
-/

set_option autoImplicit false
set_option linter.unusedSectionVars false

namespace Obmafs3

open Library.Search Library.SearchTree

variable {κ ρ : Type} [LinearOrder κ] {kind : TreeKind κ ρ}

/-! ### The leaf of a descent -/

variable {height : ℕ} {t : Tree ℕ κ ρ height} {ctx : TreeCtx}

theorem lookup_eq_leafFor {key : ρ → κ} (k : κ) (hsolid : Solid height t) :
    lookup key k height t = lookup key k 0 (leafFor k height t) := by
  induction height with
  | zero => rfl
  | succ height ih =>
    obtain ⟨a, es⟩ := t
    obtain ⟨before, entry, after, hslot⟩ := exists_slotted hsolid.1 k
    have hlookup : lookup key k (height + 1) (a, es) = lookup key k height entry.2 := by
      rw [lookup, hslot.getElem?]
    have hleaf : leafFor k (height + 1) (a, es) = leafFor k height entry.2 := by
      rw [leafFor, hslot.getElem?]
    rw [hlookup, hleaf]
    exact ih (hsolid.2 entry hslot.mem)

theorem leafFor_mem_row (k : κ) (hsolid : Solid height t) :
    (leafFor k height t).1 ∈ row height t 0 := by
  induction height with
  | zero => simp [leafFor, row]
  | succ height ih =>
    obtain ⟨a, es⟩ := t
    obtain ⟨before, entry, after, hslot⟩ := exists_slotted hsolid.1 k
    rw [leafFor, hslot.getElem?, row_index a es (Nat.zero_le _)]
    exact List.mem_flatMap.mpr ⟨entry, hslot.mem, ih (hsolid.2 entry hslot.mem)⟩

theorem leafFor_mem_leaves (k : κ) (hsolid : Solid height t) :
    leafFor k height t ∈ leaves height t := by
  induction height with
  | zero => exact List.mem_singleton_self _
  | succ height ih =>
    obtain ⟨a, es⟩ := t
    obtain ⟨before, entry, after, hslot⟩ := exists_slotted hsolid.1 k
    rw [leafFor, hslot.getElem?, leaves_index]
    exact List.mem_flatMap.mpr ⟨entry, hslot.mem, ih (hsolid.2 entry hslot.mem)⟩

/-! ### Levels and blocks -/

theorem row_ne_nil (hsolid : Solid height t) {level : ℕ} (hlevel : level ≤ height) :
    ∃ lba, lba ∈ row height t level := by
  induction height with
  | zero =>
    obtain ⟨a, rs⟩ := t
    obtain rfl : level = 0 := by omega
    exact ⟨a, by simp [row]⟩
  | succ height ih =>
    obtain ⟨a, es⟩ := t
    rcases Nat.eq_or_lt_of_le hlevel with rfl | hlt
    · exact ⟨a, by simp [row]⟩
    · obtain ⟨e, he⟩ := List.exists_mem_of_ne_nil es hsolid.1
      obtain ⟨lba, hlba⟩ := ih (hsolid.2 e he) (by omega)
      refine ⟨lba, ?_⟩
      rw [row_index a es (by omega)]
      exact List.mem_flatMap.mpr ⟨e, he, hlba⟩

/-- A tree has fewer levels than its volume has blocks. -/
theorem height_lt {view : ℕ → Option (Node κ ρ)} {height bound : ℕ} {t : Tree ℕ κ ρ height}
    (hholds : Holds view height t) (hsolid : Solid height t)
    (hlt : ∀ lba ∈ nodesOf height t, lba < bound) : height < bound := by
  choose node hnode using fun level : Fin (height + 1) ↦
    row_ne_nil hsolid (Nat.lt_succ_iff.mp level.isLt)
  have hinjective : Function.Injective node := by
    intro i j hij
    have hi := hholds.level (hnode i)
    rw [hij, hholds.level (hnode j)] at hi
    exact (Fin.ext (Option.some.inj hi)).symm
  have hcard := Finset.card_le_card_of_injOn (s := Finset.univ) (t := Finset.range bound) node
    (fun level _ ↦ by
      simpa using hlt _ ⟨level, Nat.lt_succ_iff.mp level.isLt, hnode level⟩)
    hinjective.injOn
  rw [Finset.card_univ, Fintype.card_fin, Finset.card_range] at hcard
  exact hcard

/-! ### Descents -/

theorem descend_spec (k : κ) (bad : ErrorCode) (fuel : ℕ) (hfuel : height < fuel)
    (hholds : Holds (kind.view ctx) height t) (hsolid : Solid height t)
    (hlt : ∀ lba ∈ nodesOf height t, lba < ctx.vol.totalBlocks) :
    ∃ left right,
      kind.view ctx (leafFor k height t).1 = some (.leaf left right (leafFor k height t).2) ∧
      descend kind bad k fuel (label height t) ctx =
        .ok ⟨(leafFor k height t).1, left, right, (leafFor k height t).2⟩ ctx := by
  induction height generalizing fuel with
  | zero =>
    obtain ⟨a, rs⟩ := t
    obtain ⟨fuel, rfl⟩ := Nat.exists_eq_succ_of_ne_zero (by omega : fuel ≠ 0)
    obtain ⟨left, right, hnode⟩ := contentAt_leaf hholds
    exact ⟨left, right, hnode, bind_ok (readNode_ok (hlt a (label_mem_nodesOf 0 _)) hnode)⟩
  | succ height ih =>
    obtain ⟨a, es⟩ := t
    obtain ⟨fuel, rfl⟩ := Nat.exists_eq_succ_of_ne_zero (by omega : fuel ≠ 0)
    obtain ⟨hroot, hchildren⟩ := hholds
    obtain ⟨before, entry, after, hslot⟩ := exists_slotted hsolid.1 k
    obtain ⟨left, right, spare, hnode⟩ := contentAt_index hroot
    obtain ⟨left', right', hleaf, hrun⟩ := ih fuel (by omega)
      (hchildren entry hslot.mem) (hsolid.2 entry hslot.mem)
      fun lba hlba ↦ hlt lba (nodesOf_child_subset hslot.mem hlba)
    simp only [leafFor, hslot.getElem?]
    refine ⟨left', right', hleaf, ?_⟩
    rw [label_index, descend, bind_ok (readNode_ok (hlt a (label_mem_nodesOf _ _)) hnode)]
    change descend kind bad k fuel
      (childLba (diskEntries es) spare (indexFind ((diskEntries es).map Prod.fst) k)) ctx = _
    rw [indexFind_diskEntries, childLba_diskEntries hslot, hrun]

/-! ### Whole trees -/

/-- The LBA that the header has for the root. -/
def rootLba : Root ℕ κ ρ → ℕ
  | .empty => 0
  | .node height t => label height t

/-- What a lookup relies on. -/
structure Readable (kind : TreeKind κ ρ) (ctx : TreeCtx) (height : ℕ) (t : Tree ℕ κ ρ height) :
    Prop where
  root : ctx.hdr.rootNodeLba = label height t
  nonzero : label height t ≠ 0
  holds : Holds (kind.view ctx) height t
  solid : Solid height t
  lt : ∀ lba ∈ nodesOf height t, lba < ctx.vol.totalBlocks

/-- A volume on which a lookup searches a tree. -/
def Reads (kind : TreeKind κ ρ) (ctx : TreeCtx) : Root ℕ κ ρ → Prop
  | .empty => ctx.hdr.rootNodeLba = 0
  | .node height t => Readable kind ctx height t

theorem Readable.descend (hreadable : Readable kind ctx height t) (k : κ) (bad : ErrorCode) :
    ∃ left right,
      kind.view ctx (leafFor k height t).1 = some (.leaf left right (leafFor k height t).2) ∧
      descend kind bad k (ctx.vol.totalBlocks + 1) ctx.hdr.rootNodeLba ctx =
        .ok ⟨(leafFor k height t).1, left, right, (leafFor k height t).2⟩ ctx := by
  obtain ⟨hroot, -, hholds, hsolid, hlt⟩ := hreadable
  rw [hroot]
  exact descend_spec k bad _ (Nat.lt_succ_of_lt (height_lt hholds hsolid hlt)) hholds hsolid hlt

/-- A lookup finds what a search of the tree finds. -/
theorem btreeLookup_spec {root : Root ℕ κ ρ} (hreads : Reads kind ctx root) (k : κ) :
    btreeLookup kind k ctx = .ok (root.lookup kind.key k) ctx := by
  unfold btreeLookup
  rw [get_bind]
  cases root with
  | empty =>
    rw [if_pos (show ctx.hdr.rootNodeLba = 0 from hreads)]
    rfl
  | node height t =>
    obtain ⟨left, right, -, hrun⟩ := hreads.descend k .badMagic
    have hnonzero : ctx.hdr.rootNodeLba ≠ 0 := by
      rw [hreads.root]
      exact hreads.nonzero
    rw [if_neg hnonzero, bind_ok hrun, Root.lookup, lookup_eq_leafFor k hreads.solid, lookup]
    cases leafFind ((leafFor k height t).2.map kind.key) k <;> rfl

end Obmafs3
