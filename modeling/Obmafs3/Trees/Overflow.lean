import Obmafs3.Btree
import Obmafs3.Library.OwnedRanges
import Obmafs3.Library.SearchTreeRows
import Obmafs3.Library.SearchTreeSweep

/-!
# The overflow tree

Extents of files that have more of them than their inode has room for. An insertion goes down by
inode and logical offset. Everything else asks for the extents of an inode: it goes down to the last
leaf that can start before them and walks to the right from there, to collect them, to find the one
that covers a block or to take them out. Leaves that become empty stay where they are.
-/

set_option autoImplicit false

namespace Obmafs3

open Library Library.Search Library.SearchTree

/-- `struct overflow_extent`. -/
structure OverflowExtent where
  inodeId : ℕ
  logicalOffset : ℕ
  startBlock : ℕ
  blockCount : ℕ
  logicalCount : ℕ
  deriving DecidableEq, Repr

/-- `struct extent_descriptor`. -/
structure ExtentDescriptor where
  logicalStart : ℕ
  logicalCount : ℕ
  physStart : ℕ
  physCount : ℕ
  deriving DecidableEq, Repr

abbrev OverflowKey := ℕ ×ₗ ℕ

namespace OverflowExtent

def order (e : OverflowExtent) : OverflowKey := toLex (e.inodeId, e.logicalOffset)

/-- The logical blocks of its inode that an extent covers. -/
def range (e : OverflowExtent) : OwnedRange := ⟨e.inodeId, e.logicalOffset, e.logicalCount⟩

def descriptor (e : OverflowExtent) : ExtentDescriptor :=
  ⟨e.logicalOffset, e.logicalCount, e.startBlock, e.blockCount⟩

theorem inodeId_le_of_lt {e f : OverflowExtent} (hlt : e.order < f.order) : e.inodeId ≤ f.inodeId :=
  (Prod.Lex.toLex_lt_toLex.mp hlt).elim le_of_lt fun h ↦ h.1.le

end OverflowExtent

abbrev OverflowTree := Root ℕ OverflowKey OverflowExtent

/-- The sizes of `struct overflow_extent` and `struct overflow_index_entry`. -/
def overflowExtentSize : ℕ := 40

def overflowIndexEntrySize : ℕ := 24

/-- `OVERFLOW_BTREE_MAX_DEPTH`. -/
def overflowBtreeMaxDepth : ℕ := 8

/-- `overflow_leaf_max_keys`. -/
def overflowLeafMaxKeys (blockSize : ℕ) : ℕ := maxKeys blockSize overflowExtentSize

/-- `overflow_index_max_keys`. -/
def overflowIndexMaxKeys (blockSize : ℕ) : ℕ := maxKeys blockSize overflowIndexEntrySize

/-- `overflow_insert`, with what the allocator answers for the division of a node of each level. -/
def overflowInsert (blockSize : ℕ) (fresh : ℕ → Option ℕ) (entry : OverflowExtent)
    (tree : OverflowTree) : Option ErrorCode × OverflowTree :=
  if overflowBtreeMaxDepth < tree.height then (some .inval, tree)
  else
    match tree.put OverflowExtent.order (overflowLeafMaxKeys blockSize)
        (overflowIndexMaxKeys blockSize) fresh entry with
    | (tree, true) => (none, tree)
    | (tree, false) => (some .noSpc, tree)

/-- `overflow_index_find_left`: the search compares the inodes of the separators alone, and asks for
those below the inode. -/
def overflowIndexFindLeft (inodeId : ℕ) (keys : List OverflowKey) : ℕ :=
  indexFind (keys.map fun k ↦ (ofLex k).1 + 1) inodeId

/-- The extents of an inode that a walk from its first leaf on comes across. -/
def overflowWalk (inodeId : ℕ) (tree : OverflowTree) : List OverflowExtent :=
  scan (fun e ↦ e.inodeId < inodeId) (fun e ↦ inodeId < e.inodeId)
    (tree.recordsFrom (overflowIndexFindLeft inodeId))

/-- `overflow_find_extent`. The end of an extent is computed in 64 bits. -/
def overflowFindExtent (inodeId logicalBlock : ℕ) (tree : OverflowTree) :
    Option ExtentDescriptor :=
  ((overflowWalk inodeId tree).find? fun e ↦ e.logicalOffset ≤ logicalBlock ∧
    logicalBlock < (e.logicalOffset + e.logicalCount) % 2 ^ 64).map OverflowExtent.descriptor

/-- `overflow_collect_extents`. -/
def overflowCollectExtents (inodeId : ℕ) (tree : OverflowTree) : List ExtentDescriptor :=
  (overflowWalk inodeId tree).map OverflowExtent.descriptor

/-- `overflow_clear_inode`. -/
def overflowClearInode (inodeId : ℕ) (tree : OverflowTree) : OverflowTree :=
  tree.sweep (fun e ↦ e.inodeId = inodeId) (fun e ↦ inodeId < e.inodeId)
    (overflowIndexFindLeft inodeId)

/-! ### Runs -/

inductive OverflowCall
  | insert (fresh : ℕ → Option ℕ) (entry : OverflowExtent)
  | clearInode (inodeId : ℕ)

namespace OverflowCall

/-- The status of a call and the tree after it. -/
def apply (blockSize : ℕ) (tree : OverflowTree) : OverflowCall → Option ErrorCode × OverflowTree
  | insert fresh entry => overflowInsert blockSize fresh entry tree
  | clearInode inodeId => (none, overflowClearInode inodeId tree)

/-- The extents that are there after a call. -/
def keep (live : List OverflowExtent) : OverflowCall → List OverflowExtent
  | insert _ entry => entry :: live
  | clearInode inodeId => live.filter (·.inodeId ≠ inodeId)

/-- The extent that a call inserts. -/
def entry : OverflowCall → Option OverflowExtent
  | insert _ entry => some entry
  | clearInode _ => none

/-- No node is refused. -/
def Granted : OverflowCall → Prop
  | insert fresh _ => ∀ level, fresh level ≠ none
  | clearInode _ => True

/-- A new extent does not overlap those of its inode. -/
def Apart (live : List OverflowExtent) : OverflowCall → Prop
  | insert _ entry => ∀ e ∈ live, entry.range.Apart e.range
  | clearInode _ => True

/-- What an insertion must find: an extent that is not empty and ends below `2 ^ 64`, a tree that is
not too deep, and no node on the way that hands up a separator that does not separate when it
divides. -/
def Careful (blockSize : ℕ) (tree : OverflowTree) : OverflowCall → Prop
  | insert _ entry =>
    entry.range.Within (2 ^ 64) ∧ tree.height ≤ overflowBtreeMaxDepth ∧
      tree.Safe OverflowExtent.order (overflowLeafMaxKeys blockSize)
        (overflowIndexMaxKeys blockSize) entry
  | clearInode _ => True

end OverflowCall

/-- The statuses of the calls of a run and the tree after it. -/
def overflowRun (blockSize : ℕ) : List OverflowCall → OverflowTree →
    List (Option ErrorCode) × OverflowTree
  | [], tree => ([], tree)
  | call :: calls, tree =>
    let rest := overflowRun blockSize calls (call.apply blockSize tree).2
    ((call.apply blockSize tree).1 :: rest.1, rest.2)

/-- The extents that are there after a run. -/
def overflowLive (calls : List OverflowCall) : List OverflowExtent :=
  calls.foldl OverflowCall.keep []

/-- Every call of a run is careful when it is made. -/
def OverflowCarefulRun (blockSize : ℕ) : List OverflowCall → OverflowTree → Prop
  | [], _ => True
  | call :: calls, tree =>
    call.Careful blockSize tree ∧ OverflowCarefulRun blockSize calls (call.apply blockSize tree).2

/-- Every call of a run finds extents that its own does not overlap. -/
def OverflowApartRun : List OverflowCall → List OverflowExtent → Prop
  | [], _ => True
  | call :: calls, live => call.Apart live ∧ OverflowApartRun calls (call.keep live)

/-! ### The way to the first leaf of an inode -/

theorem picksBelow_overflowIndexFindLeft (inodeId : ℕ) :
    PicksBelow (overflowIndexFindLeft inodeId) (toLex (inodeId, 0)) := by
  intro keys hne hsorted
  have hweak : (keys.map fun k ↦ (ofLex k).1 + 1).Pairwise (· ≤ ·) := by
    refine List.pairwise_map.mpr (hsorted.imp fun hlt ↦ Nat.succ_le_succ ?_)
    exact (Prod.Lex.lt_iff.mp hlt).elim le_of_lt fun h ↦ h.1.le
  obtain ⟨hlt, hle, -⟩ := indexFind_spec_le hweak (by simpa using hne) inodeId
  change ∃ h : indexFind _ inodeId < keys.length, indexFind _ inodeId ≠ 0 →
    keys[indexFind _ inodeId] ≤ toLex (inodeId, 0)
  generalize indexFind (keys.map fun k ↦ (ofLex k).1 + 1) inodeId = slot at hlt hle ⊢
  refine ⟨by simpa using hlt, fun hslot ↦ le_of_lt (Prod.Lex.lt_iff.mpr (Or.inl ?_))⟩
  simpa [Nat.succ_le_iff] using hle hslot

section Ordered

variable {tree : OverflowTree}

section

variable (hordered : tree.Ordered OverflowExtent.order)
include hordered

/-- A walk comes across the extents of the inode and no others. -/
theorem mem_overflowWalk {inodeId : ℕ} {e : OverflowExtent} :
    e ∈ overflowWalk inodeId tree ↔ e ∈ tree.records ∧ e.inodeId = inodeId := by
  unfold overflowWalk
  rw [Root.mem_scan_below hordered (picksBelow_overflowIndexFindLeft inodeId)]
  · refine and_congr_right fun _ ↦ ?_
    simp only [decide_eq_false_iff_not]
    omega
  · intro e hlt
    have hid := (Prod.Lex.toLex_lt_toLex.mp hlt).resolve_right fun h ↦ Nat.not_lt_zero _ h.2
    exact decide_eq_true hid
  · intro e f hlt he
    simp only [decide_eq_true_eq] at he ⊢
    exact he.trans_le (OverflowExtent.inodeId_le_of_lt hlt)

/-- A walk goes in the order of logical offsets. -/
theorem overflowWalk_sorted (inodeId : ℕ) :
    ((overflowWalk inodeId tree).map OverflowExtent.logicalOffset).Pairwise (· < ·) := by
  have hsub : (overflowWalk inodeId tree).Sublist tree.records :=
    (scan_sublist _ _ _).trans (Root.recordsFrom_suffix _ tree).sublist
  have hsorted : ((overflowWalk inodeId tree).map OverflowExtent.order).Pairwise (· < ·) :=
    (Root.records_pairwise hordered).sublist (hsub.map _)
  refine List.pairwise_map.mpr ((List.pairwise_map.mp hsorted).imp_of_mem fun he hf hlt ↦ ?_)
  have hsame := ((mem_overflowWalk hordered).mp he).2.trans ((mem_overflowWalk hordered).mp hf).2.symm
  exact ((Prod.Lex.toLex_lt_toLex.mp hlt).resolve_left fun h ↦ h.ne hsame).2

/-- Clearing an inode takes its extents out of the tree. -/
theorem overflowClearInode_spec (inodeId : ℕ) :
    (overflowClearInode inodeId tree).Ordered OverflowExtent.order ∧
      (overflowClearInode inodeId tree).records = tree.records.filter (·.inodeId ≠ inodeId) := by
  have hgone (e : OverflowExtent) (he : decide (e.inodeId = inodeId) = true) :
      toLex (inodeId, 0) ≤ e.order :=
    Prod.Lex.toLex_le_toLex.mpr (Or.inr ⟨(of_decide_eq_true he).symm, Nat.zero_le _⟩)
  have hpast (e f : OverflowExtent) (hlt : e.order < f.order)
      (he : decide (inodeId < e.inodeId) = true) : decide (f.inodeId = inodeId) = false :=
    decide_eq_false
      ((of_decide_eq_true he).trans_le (OverflowExtent.inodeId_le_of_lt hlt)).ne'
  obtain ⟨hafter, hrecords, -⟩ :=
    Root.sweep_spec (picksBelow_overflowIndexFindLeft inodeId) hgone hpast hordered
  refine ⟨hafter, hrecords.trans (List.filter_congr fun e _ ↦ ?_)⟩
  simp

end

end Ordered

/-! ### What a tree holds -/

/-- The tree holds these extents, and no two of them overlap. -/
structure OverflowHolds (tree : OverflowTree) (live : List OverflowExtent) : Prop where
  ordered : tree.Ordered OverflowExtent.order
  mem_iff : ∀ e, e ∈ tree.records ↔ e ∈ live
  within : ∀ e ∈ live, e.range.Within (2 ^ 64)
  apart : ∀ e ∈ live, ∀ f ∈ live, e ≠ f → e.range.Apart f.range

/-- What a reader can ask of a tree is answered from the extents that are there. -/
structure OverflowShows (tree : OverflowTree) (live : List OverflowExtent) : Prop where
  collect : ∀ inodeId, ∃ es : List OverflowExtent, overflowCollectExtents inodeId tree =
    es.map OverflowExtent.descriptor ∧ (es.map OverflowExtent.logicalOffset).Pairwise (· < ·) ∧
      ∀ e, e ∈ es ↔ e ∈ live ∧ e.inodeId = inodeId
  find_some : ∀ inodeId logicalBlock, ∀ e ∈ live, e.range.Covers inodeId logicalBlock →
    overflowFindExtent inodeId logicalBlock tree = some e.descriptor
  find_none : ∀ inodeId logicalBlock, (∀ e ∈ live, ¬e.range.Covers inodeId logicalBlock) →
    overflowFindExtent inodeId logicalBlock tree = none

/-- The extents of a run that are apart from each other are so when they are inserted. -/
theorem OverflowApartRun.of_pairwise {calls : List OverflowCall} {live : List OverflowExtent}
    (hlive : ∀ e ∈ live, ∀ entry ∈ calls.filterMap OverflowCall.entry,
      entry.range.Apart e.range)
    (hcalls : (calls.filterMap OverflowCall.entry).Pairwise fun e f ↦ e.range.Apart f.range) :
    OverflowApartRun calls live := by
  induction calls generalizing live with
  | nil => trivial
  | cons call calls ih =>
    cases call with
    | insert fresh entry =>
      change ∀ e ∈ live, ∀ f ∈ entry :: calls.filterMap OverflowCall.entry, _ at hlive
      obtain ⟨hfirst, hcalls⟩ := List.pairwise_cons.mp hcalls
      refine ⟨fun e he ↦ hlive e he entry List.mem_cons_self, ih ?_ hcalls⟩
      exact List.forall_mem_cons.mpr ⟨fun f hf ↦ (hfirst f hf).symm,
        fun e he f hf ↦ hlive e he f (List.mem_cons_of_mem _ hf)⟩
    | clearInode inodeId =>
      exact ⟨trivial, ih (fun e he ↦ hlive e (List.mem_of_mem_filter he)) hcalls⟩

namespace OverflowHolds

variable {blockSize : ℕ} {tree : OverflowTree} {live : List OverflowExtent}

theorem empty : OverflowHolds .empty [] where
  ordered := trivial
  mem_iff _ := Iff.rfl
  within := List.forall_mem_nil _
  apart := List.forall_mem_nil _

/-- An extent on the walk of an inode is chosen for the blocks that it covers. -/
theorem chosen_iff (hholds : OverflowHolds tree live) {inodeId logicalBlock : ℕ}
    {e : OverflowExtent} (he : e ∈ overflowWalk inodeId tree) :
    (e.logicalOffset ≤ logicalBlock ∧
        logicalBlock < (e.logicalOffset + e.logicalCount) % 2 ^ 64) ↔
      e.range.Covers inodeId logicalBlock := by
  obtain ⟨hmem, hid⟩ := (mem_overflowWalk hholds.ordered).mp he
  have hend : e.logicalOffset + e.logicalCount < 2 ^ 64 :=
    (hholds.within e ((hholds.mem_iff e).mp hmem)).2
  rw [Nat.mod_eq_of_lt hend]
  exact (and_iff_right hid).symm

theorem shows (hholds : OverflowHolds tree live) : OverflowShows tree live where
  collect inodeId := by
    refine ⟨overflowWalk inodeId tree, rfl, overflowWalk_sorted hholds.ordered inodeId, fun e ↦ ?_⟩
    rw [mem_overflowWalk hholds.ordered, hholds.mem_iff]
  find_some inodeId logicalBlock e he hcovers := by
    have hwalk : e ∈ overflowWalk inodeId tree :=
      (mem_overflowWalk hholds.ordered).mpr ⟨(hholds.mem_iff e).mpr he, hcovers.1⟩
    unfold overflowFindExtent
    cases hfind : (overflowWalk inodeId tree).find? fun e ↦ e.logicalOffset ≤ logicalBlock ∧
        logicalBlock < (e.logicalOffset + e.logicalCount) % 2 ^ 64 with
    | none =>
      have hno := List.find?_eq_none.mp hfind e hwalk
      rw [decide_eq_true_eq, hholds.chosen_iff hwalk] at hno
      exact absurd hcovers hno
    | some f =>
      have hf := List.mem_of_find?_eq_some hfind
      have hfcovers : f.range.Covers inodeId logicalBlock :=
        (hholds.chosen_iff hf).mp (by simpa using List.find?_some hfind)
      have hlive : f ∈ live := (hholds.mem_iff f).mp ((mem_overflowWalk hholds.ordered).mp hf).1
      by_cases hsame : e = f
      · rw [hsame, Option.map_some]
      · exact absurd hfcovers (hholds.apart e he f hlive hsame _ _ hcovers)
  find_none inodeId logicalBlock hnone := by
    unfold overflowFindExtent
    rw [Option.map_eq_none_iff, List.find?_eq_none]
    intro e he
    rw [decide_eq_true_eq, hholds.chosen_iff he]
    exact hnone e ((hholds.mem_iff e).mp ((mem_overflowWalk hholds.ordered).mp he).1)

/-- An insertion that is granted its nodes succeeds and adds its extent. -/
theorem insert (hsize : 110 ≤ blockSize ∧ blockSize ≤ 65536) (hholds : OverflowHolds tree live)
    {fresh : ℕ → Option ℕ} {entry : OverflowExtent}
    (hgranted : (OverflowCall.insert fresh entry).Granted)
    (hapart : (OverflowCall.insert fresh entry).Apart live)
    (hcareful : (OverflowCall.insert fresh entry).Careful blockSize tree) :
    (overflowInsert blockSize fresh entry tree).1 = none ∧
      OverflowHolds (overflowInsert blockSize fresh entry tree).2 (entry :: live) := by
  obtain ⟨hwithin, hdepth, hsafe⟩ := hcareful
  have hleafMax : 1 ≤ overflowLeafMaxKeys blockSize :=
    one_le_maxKeys (by decide) hsize.1 (by unfold overflowExtentSize; omega)
  have hindexMax : 1 ≤ overflowIndexMaxKeys blockSize :=
    one_le_maxKeys (by decide) (by unfold btreeNodeHeaderSize overflowIndexEntrySize; omega)
      (by unfold overflowIndexEntrySize; omega)
  have hdone : (tree.put OverflowExtent.order (overflowLeafMaxKeys blockSize)
      (overflowIndexMaxKeys blockSize) fresh entry).2 = true :=
    Root.put_done fun level _ ↦ hgranted level
  have hordered := Root.put_ordered hleafMax hindexMax fresh hholds.ordered hsafe
  have hmem (e : OverflowExtent) := Root.mem_put (q := e) hholds.ordered hdone
  unfold overflowInsert
  rw [if_neg (not_lt.mpr hdepth)]
  generalize tree.put OverflowExtent.order (overflowLeafMaxKeys blockSize)
    (overflowIndexMaxKeys blockSize) fresh entry = out at hdone hordered hmem ⊢
  obtain ⟨tree', done⟩ := out
  obtain rfl : done = true := hdone
  refine ⟨rfl, hordered, fun e ↦ ?_, List.forall_mem_cons.mpr ⟨hwithin, hholds.within⟩, ?_⟩
  · rw [hmem, hholds.mem_iff, List.mem_cons]
    exact or_congr_right (and_iff_left_of_imp fun he ↦
      (hapart e he).symm.key_ne (hholds.within e he) hwithin)
  · intro e he f hf hne
    rcases List.mem_cons.mp he with rfl | he'
    · exact hapart f ((List.mem_cons.mp hf).resolve_left hne.symm)
    · rcases List.mem_cons.mp hf with rfl | hf'
      · exact (hapart e he').symm
      · exact hholds.apart e he' f hf' hne

/-- Clearing takes the extents of an inode away. -/
theorem clearInode (hholds : OverflowHolds tree live) (inodeId : ℕ) :
    OverflowHolds (overflowClearInode inodeId tree) (live.filter (·.inodeId ≠ inodeId)) := by
  obtain ⟨hordered, hrecords⟩ := overflowClearInode_spec hholds.ordered inodeId
  refine ⟨hordered, fun e ↦ ?_, fun e he ↦ hholds.within e (List.mem_of_mem_filter he),
    fun e he f hf ↦ hholds.apart e (List.mem_of_mem_filter he) f (List.mem_of_mem_filter hf)⟩
  rw [hrecords, List.mem_filter, List.mem_filter, hholds.mem_iff]

theorem run (hsize : 110 ≤ blockSize ∧ blockSize ≤ 65536) {calls : List OverflowCall}
    (hholds : OverflowHolds tree live) (hgranted : ∀ call ∈ calls, call.Granted)
    (hapart : OverflowApartRun calls live) (hcareful : OverflowCarefulRun blockSize calls tree) :
    (∀ status ∈ (overflowRun blockSize calls tree).1, status = none) ∧
      OverflowHolds (overflowRun blockSize calls tree).2
        (calls.foldl OverflowCall.keep live) := by
  induction calls generalizing tree live with
  | nil => exact ⟨List.forall_mem_nil _, hholds⟩
  | cons call calls ih =>
    obtain ⟨hfirst, hgranted⟩ := List.forall_mem_cons.mp hgranted
    have hstep : (call.apply blockSize tree).1 = none ∧
        OverflowHolds (call.apply blockSize tree).2 (call.keep live) := by
      cases call with
      | insert fresh entry => exact hholds.insert hsize hfirst hapart.1 hcareful.1
      | clearInode inodeId => exact ⟨rfl, hholds.clearInode inodeId⟩
    obtain ⟨hstatuses, hafter⟩ := ih hstep.2 hgranted hapart.2 hcareful.2
    exact ⟨List.forall_mem_cons.mpr ⟨hstep.1, hstatuses⟩, hafter⟩

end OverflowHolds

/-- In a careful run from an empty tree every insertion succeeds, and collecting and finding answer
from the extents that are there. -/
theorem overflowRun_shows {blockSize : ℕ} (hsize : 110 ≤ blockSize ∧ blockSize ≤ 65536)
    {calls : List OverflowCall} (hgranted : ∀ call ∈ calls, call.Granted)
    (hapart : OverflowApartRun calls []) (hcareful : OverflowCarefulRun blockSize calls .empty) :
    (∀ status ∈ (overflowRun blockSize calls .empty).1, status = none) ∧
      OverflowShows (overflowRun blockSize calls .empty).2 (overflowLive calls) := by
  obtain ⟨hstatuses, hholds⟩ := OverflowHolds.empty.run hsize hgranted hapart hcareful
  exact ⟨hstatuses, hholds.shows⟩

/-- An extent of one block, which is block 1000. -/
def oneBlock (inodeId logicalOffset : ℕ) : OverflowExtent := ⟨inodeId, logicalOffset, 1000, 1, 1⟩

/-- A block for every node that divides. -/
def granted (level : ℕ) : Option ℕ := some (10 + level)

def oneInsert (inodeId logicalOffset : ℕ) : OverflowCall :=
  .insert granted (oneBlock inodeId logicalOffset)

theorem oneBlock_apart {i o i' o' : ℕ} (hne : i ≠ i' ∨ o ≠ o') :
    (oneBlock i o).range.Apart (oneBlock i' o').range := by
  apply OwnedRange.apart_of_disjoint
  simp only [oneBlock, OverflowExtent.range]
  omega

/-- Two extents of an inode in between those of others, and one inode is cleared. -/
def fewExtentCalls : List OverflowCall :=
  [oneInsert 7 64, oneInsert 5 16, oneInsert 7 32, .clearInode 5]

theorem overflowRun_shows_few :
    (∀ status ∈ (overflowRun 4096 fewExtentCalls .empty).1, status = none) ∧
      OverflowShows (overflowRun 4096 fewExtentCalls .empty).2 [oneBlock 7 32, oneBlock 7 64] := by
  have hgranted : ∀ call ∈ fewExtentCalls, call.Granted := by
    simp [fewExtentCalls, oneInsert, OverflowCall.Granted, granted]
  have hapart : OverflowApartRun fewExtentCalls [] :=
    ⟨List.forall_mem_nil _, List.forall_mem_singleton.mpr (oneBlock_apart (by decide)),
      List.forall_mem_cons.mpr ⟨oneBlock_apart (by decide),
        List.forall_mem_singleton.mpr (oneBlock_apart (by decide))⟩, trivial, trivial⟩
  have hcareful : OverflowCarefulRun 4096 fewExtentCalls .empty :=
    ⟨⟨⟨by decide, by decide⟩, by decide, trivial⟩, ⟨⟨by decide, by decide⟩, by decide, trivial⟩,
      ⟨⟨by decide, by decide⟩, by decide, trivial⟩, trivial, trivial⟩
  exact overflowRun_shows (by decide) hgranted hapart hcareful

/-! ### Extents that are not collected -/

variable {blockSize : ℕ}

theorem overflowRun_append {calls calls' : List OverflowCall} {tree : OverflowTree} :
    (overflowRun blockSize (calls ++ calls') tree).2 =
      (overflowRun blockSize calls' (overflowRun blockSize calls tree).2).2 := by
  induction calls generalizing tree with
  | nil => rfl
  | cons call calls ih => exact ih

/-- Insertions one after the other. -/
theorem overflowRun_inserts {fresh : ℕ → Option ℕ} {es : List OverflowExtent}
    {tree tree' : OverflowTree}
    (hrun : tree.putRun OverflowExtent.order indexFind (overflowLeafMaxKeys blockSize)
      (overflowIndexMaxKeys blockSize) fresh overflowBtreeMaxDepth es = some tree') :
    (overflowRun blockSize (es.map (.insert fresh)) tree).2 = tree' := by
  induction es generalizing tree with
  | nil => exact Option.some.inj hrun
  | cons e es ih =>
    rw [Root.putRun] at hrun
    split_ifs at hrun with hdeep
    rw [Root.putBy_indexFind] at hrun
    rcases hput : tree.put OverflowExtent.order (overflowLeafMaxKeys blockSize)
      (overflowIndexMaxKeys blockSize) fresh e with ⟨next, - | -⟩
    · rw [hput] at hrun
      cases hrun
    · rw [hput] at hrun
      have happly : ((OverflowCall.insert fresh e).apply blockSize tree).2 = next := by
        rw [OverflowCall.apply, overflowInsert, if_neg hdeep, hput]
      rw [List.map_cons, overflowRun, happly]
      exact ih hrun

/-- 50 extents of every fourth inode. -/
def extentRows : Rows OverflowExtent.order (overflowLeafMaxKeys 4096) :=
  .ofGrid (fun i j ↦ oneBlock (4 * i + 1) j) 49 rfl
    (fun _ _ _ hlt ↦ Prod.Lex.toLex_lt_toLex.mpr (Or.inr ⟨rfl, hlt⟩))
    (fun _ _ _ _ hlt ↦ Prod.Lex.toLex_lt_toLex.mpr (Or.inl (show 4 * _ + 1 < 4 * _ + 1 by omega)))

/-- The extents of 251 inodes make two index nodes below the root. -/
theorem overflowRun_rows :
    (overflowRun 4096 ((extentRows.upTo 251).map (.insert granted)) .empty).2 =
      .node 2 (extentRows.divided (10 + ·) (overflowIndexMaxKeys 4096) 165
        (extentRows.row 250)) := by
  have hhalf : half (overflowIndexMaxKeys 4096) = 84 := rfl
  have hrun : Root.putRun OverflowExtent.order indexFind (overflowLeafMaxKeys 4096)
      (overflowIndexMaxKeys 4096) granted overflowBtreeMaxDepth
        (extentRows.upTo (half (overflowIndexMaxKeys 4096) + 165 + 2)) .empty =
      some (.node 2 (extentRows.divided (10 + ·) (overflowIndexMaxKeys 4096) 165
        (extentRows.row (half (overflowIndexMaxKeys 4096) + 165 + 1)))) :=
    Rows.putRun_divided picksLast_indexFind (fun _ ↦ rfl) (by decide) (by decide) (by decide)
      (by decide)
  rw [hhalf] at hrun
  exact overflowRun_inserts hrun

/-- Extents of an inode that fill the leaf of inode 337, one of that inode, one at the end, and one
of the inode between the two. -/
def hidingExtents : List OverflowExtent :=
  ((List.range 101).map (fun j ↦ (339, j)) ++ [(337, 100), (1005, 0), (338, 0)]).map
    (Function.uncurry oneBlock)

/-- The leaf of inode 337 is the first below the second index node. It is cleared and filled again,
so that it divides and hands up the greater separator of inode 339, and the extent of 337 goes below
that separator. The extent at the end makes the index node divide, and the last one goes to the leaf
before that of 337, where it ends the walk. -/
def hidingExtentCalls : List OverflowCall :=
  (extentRows.upTo 251).map (.insert granted) ++
    .clearInode 337 :: hidingExtents.map (.insert granted)

theorem hidingExtentCalls_entry : hidingExtentCalls.filterMap OverflowCall.entry =
    extentRows.upTo 251 ++ hidingExtents := by
  have hinsert (es : List OverflowExtent) :
      (es.map (OverflowCall.insert granted)).filterMap OverflowCall.entry = es := by
    rw [List.filterMap_map]
    exact List.filterMap_some
  rw [hidingExtentCalls, List.filterMap_append, hinsert, List.filterMap_cons_none rfl, hinsert]

theorem hidingExtentCalls_apart : OverflowApartRun hidingExtentCalls [] := by
  refine .of_pairwise (List.forall_mem_nil _) ?_
  have hone : ∀ e ∈ extentRows.upTo 251 ++ hidingExtents, oneBlock e.inodeId e.logicalOffset = e := by
    refine List.forall_mem_append.mpr ⟨fun e he ↦ ?_, List.forall_mem_map.mpr fun _ _ ↦ rfl⟩
    obtain ⟨i, -, j, -, rfl⟩ := Rows.mem_upTo_ofGrid.mp he
    rfl
  have hnew : ∀ e ∈ hidingExtents, e.inodeId % 4 ≠ 1 ∨ 1001 < e.inodeId ∨ 49 < e.logicalOffset := by
    decide
  have hkeys : (extentRows.upTo 251 ++ hidingExtents).Pairwise fun e f ↦ e.order ≠ f.order := by
    refine List.pairwise_append.mpr ⟨?_, by decide +kernel, fun e he f hf hsame ↦ ?_⟩
    · exact (List.pairwise_map.mp (Rows.upTo_pairwise 251)).imp ne_of_lt
    · obtain ⟨i, hi, j, hj, rfl⟩ := Rows.mem_upTo_ofGrid.mp he
      obtain ⟨hid, hoffset⟩ := Prod.ext_iff.mp (toLex.injective hsame)
      change 4 * i + 1 = f.inodeId at hid
      change j = f.logicalOffset at hoffset
      have := hnew f hf
      omega
  rw [hidingExtentCalls_entry]
  refine hkeys.imp_of_mem fun he hf hne ↦ ?_
  rw [← hone _ he, ← hone _ hf]
  refine oneBlock_apart (not_and_or.mp fun hsame ↦ hne ?_)
  exact congrArg toLex (Prod.ext hsame.1 hsame.2)

/-- The extents of these calls are apart and no block is refused, but one of them is not collected.
-/
theorem overflowRun_hidden :
    (∀ call ∈ hidingExtentCalls, call.Granted) ∧ OverflowApartRun hidingExtentCalls [] ∧
      oneBlock 337 100 ∈ overflowLive hidingExtentCalls ∧
      overflowCollectExtents 337 (overflowRun 4096 hidingExtentCalls .empty).2 = [] := by
  have hgranted (es : List OverflowExtent) :
      ∀ call ∈ es.map (OverflowCall.insert granted), call.Granted :=
    List.forall_mem_map.mpr fun _ _ _ ↦ Option.some_ne_none _
  refine ⟨?_, hidingExtentCalls_apart, ?_, ?_⟩
  · exact List.forall_mem_append.mpr
      ⟨hgranted _, List.forall_mem_cons.mpr ⟨trivial, hgranted _⟩⟩
  · rw [hidingExtentCalls, overflowLive, List.foldl_append]
    exact List.mem_cons_of_mem _ (List.mem_cons_of_mem _ List.mem_cons_self)
  · rw [hidingExtentCalls, overflowRun_append, overflowRun_rows]
    decide +kernel

end Obmafs3
