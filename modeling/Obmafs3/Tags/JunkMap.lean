import Obmafs3.Library.OwnedRanges
import Obmafs3.Library.SearchTreeRows
import Obmafs3.Tags.DeleteAll
import Mathlib.Data.List.TakeWhile

/-!
# The junk map

The junk map holds the regions of a disc image that a seed can make again. A put adds a region under
its inode and offset, and a lookup asks which region an offset of an inode is in: it goes down to
the leaf of the offset and takes the last region of the inode there that starts at or before it.

A lookup reads one leaf, so the region of an offset must be in the leaf that the separators choose
for the offset itself. They do as long as no separator is strictly inside a region. The separators
are keys of regions that were put, those of deleted regions included.
-/

set_option autoImplicit false

namespace Obmafs3

open Library Library.Search Library.SearchTree

/-- The offsets of its inode that a region has. -/
def JunkMapRecord.range (r : JunkMapRecord) : Library.OwnedRange := ⟨r.inodeId, r.offset, r.length⟩

/-! ### Puts and lookups -/

/-- The sizes of `struct junk_map_record` and `struct junk_map_index_entry`. -/
def junkMapRecordSize : ℕ := 94

def junkMapIndexEntrySize : ℕ := 24

/-- The levels that the arrays `path_lba` and `path_slot` have room for. -/
def junkMapPathLevels : ℕ := 32

/-- `obmafs3_junk_map_put`. `ready` is the error of `jm_ensure_tree`, if there is one, and `fresh`
is what the allocator answers for the division of a node of each level.

In a tree with more levels than the path has room for a division is entered in the wrong ancestor,
which leaves no tree of one height. There is no outcome here for such a tree. -/
def junkMapPut (blockSize : ℕ) (ready : Option ErrorCode) (fresh : ℕ → Option ℕ)
    (r : JunkMapRecord) (tree : JunkMapTree) : Option (Option ErrorCode × JunkMapTree) :=
  match ready with
  | some e => some (some e, tree)
  | none =>
    if junkMapPathLevels < tree.height then none
    else
      match tree.putBy jmIndexFind JunkMapRecord.order (maxKeys blockSize junkMapRecordSize)
          (maxKeys blockSize junkMapIndexEntrySize) fresh r with
      | (tree, true) => some (none, tree)
      | (tree, false) => some (some .noSpc, tree)

/-- `obmafs3_junk_map_lookup`. The records of the leaf are looked at from the last one on; the end
of a region is computed in 64 bits. -/
def junkMapLookup (inodeId offset : ℕ) (tree : JunkMapTree) : Except ErrorCode JunkMapRecord :=
  match (tree.leafAt jmIndexFind (toLex (inodeId, offset))).reverse.find?
      fun r ↦ r.inodeId = inodeId ∧ r.offset ≤ offset with
  | none => .error .notFound
  | some r =>
    if offset < (r.offset + r.length) % 2 ^ 64 then .ok r else .error .notFound

/-! ### Runs -/

inductive JunkMapCall
  | put (ready : Option ErrorCode) (fresh : ℕ → Option ℕ) (r : JunkMapRecord)
  | deleteAll (inodeId : ℕ)

namespace JunkMapCall

/-- The tree after a call that succeeds. -/
def apply (blockSize : ℕ) (tree : JunkMapTree) : JunkMapCall → Option JunkMapTree
  | put ready fresh r =>
    match junkMapPut blockSize ready fresh r tree with
    | some (none, tree) => some tree
    | _ => none
  | deleteAll inodeId => some (junkMapDeleteAll inodeId tree)

/-- The regions that are there after a call. -/
def keep (live : List JunkMapRecord) : JunkMapCall → List JunkMapRecord
  | put _ _ r => r :: live
  | deleteAll inodeId => live.filter (·.inodeId ≠ inodeId)

/-- The range that a call puts. -/
def range : JunkMapCall → Option OwnedRange
  | put _ _ r => some r.range
  | deleteAll _ => none

/-- What a put that succeeds did. -/
theorem apply_put {blockSize : ℕ} {tree tree' : JunkMapTree} {ready : Option ErrorCode}
    {fresh : ℕ → Option ℕ} {r : JunkMapRecord}
    (happly : (put ready fresh r).apply blockSize tree = some tree') :
    ready = none ∧ tree.height ≤ junkMapPathLevels ∧
      tree.putBy jmIndexFind JunkMapRecord.order (maxKeys blockSize junkMapRecordSize)
        (maxKeys blockSize junkMapIndexEntrySize) fresh r = (tree', true) := by
  unfold apply junkMapPut at happly
  cases ready with
  | some e => cases happly
  | none =>
    dsimp only at happly
    split_ifs at happly with hdeep
    rcases hput : tree.putBy jmIndexFind JunkMapRecord.order (maxKeys blockSize junkMapRecordSize)
      (maxKeys blockSize junkMapIndexEntrySize) fresh r with ⟨u, - | -⟩
    · rw [hput] at happly
      cases happly
    · rw [hput] at happly
      cases happly
      exact ⟨rfl, not_lt.mp hdeep, rfl⟩

/-- What a put must find: a proper region, and no node on the way that hands up a separator that
does not separate when it divides. -/
def Careful (blockSize : ℕ) (tree : JunkMapTree) (_ : List JunkMapRecord) : JunkMapCall → Prop
  | put _ _ r =>
    r.range.Within (2 ^ 64) ∧ tree.Safe JunkMapRecord.order (maxKeys blockSize junkMapRecordSize)
      (maxKeys blockSize junkMapIndexEntrySize) r
  | deleteAll _ => True

/-- A put finds no region that overlaps its own, and no key of the tree inside its own. -/
def Clear (tree : JunkMapTree) (live : List JunkMapRecord) : JunkMapCall → Prop
  | put _ _ r =>
    (∀ q ∈ live, r.range.Apart q.range) ∧ ∀ k ∈ tree.span JunkMapRecord.order, ¬r.range.Inside k
  | deleteAll _ => True

end JunkMapCall

/-- The tree after a run of calls that all succeed. -/
def junkMapRun (blockSize : ℕ) : List JunkMapCall → JunkMapTree → Option JunkMapTree
  | [], tree => some tree
  | call :: calls, tree => (call.apply blockSize tree).bind (junkMapRun blockSize calls)

/-- The regions that are there after a run. -/
def junkMapLive (calls : List JunkMapCall) : List JunkMapRecord :=
  calls.foldl JunkMapCall.keep []

/-- Every call of a run is made in a state of a kind, with the regions that are there. -/
def JunkMapAlong (blockSize : ℕ)
    (P : JunkMapTree → List JunkMapRecord → JunkMapCall → Prop) :
    List JunkMapCall → JunkMapTree → List JunkMapRecord → Prop
  | [], _, _ => True
  | call :: calls, tree, live =>
    P tree live call ∧ ∀ tree', call.apply blockSize tree = some tree' →
      JunkMapAlong blockSize P calls tree' (call.keep live)

/-- The tree holds these regions, and a lookup can tell them apart. -/
structure JunkMapHolds (tree : JunkMapTree) (live : List JunkMapRecord) : Prop where
  ordered : tree.Ordered JunkMapRecord.order
  mem_iff : ∀ r, r ∈ tree.records ↔ r ∈ live
  within : ∀ r ∈ live, r.range.Within (2 ^ 64)
  apart : ∀ r ∈ live, ∀ q ∈ live, r ≠ q → r.range.Apart q.range
  clear : ∀ r ∈ live, ∀ k ∈ tree.span JunkMapRecord.order, ¬r.range.Inside k

namespace JunkMapHolds

variable {blockSize : ℕ} {tree tree' : JunkMapTree} {live : List JunkMapRecord}

theorem empty : JunkMapHolds .empty [] where
  ordered := trivial
  mem_iff _ := Iff.rfl
  within := List.forall_mem_nil _
  apart := List.forall_mem_nil _
  clear := List.forall_mem_nil _

variable {r : JunkMapRecord} {inodeId offset : ℕ}

section

variable (hholds : JunkMapHolds tree live) (hr : r ∈ live) (hcovers : r.range.Covers inodeId offset)
include hholds hr hcovers

/-- A region is in the leaf that a search for any of its offsets ends in. -/
theorem mem_leafAt : r ∈ tree.leafAt jmIndexFind (toLex (inodeId, offset)) := by
  rw [Root.leafAt_congr jmIndexFind_eq hholds.ordered fun k hk ↦
    hcovers.le_iff (hholds.clear r hr k hk)]
  exact Root.mem_leafAt jmIndexFind_eq hholds.ordered ((hholds.mem_iff r).mpr hr)

/-- The last region of a sorted leaf that starts at or before an offset is the one that the offset
is in, if there is one. -/
theorem find_covering : (tree.leafAt jmIndexFind (toLex (inodeId, offset))).reverse.find?
      (fun r ↦ r.inodeId = inodeId ∧ r.offset ≤ offset) = some r := by
  have hsub : (tree.leafAt jmIndexFind (toLex (inodeId, offset))).Sublist tree.records :=
    Root.leafAt_sublist
  have hmem := hholds.mem_leafAt hr hcovers
  generalize tree.leafAt jmIndexFind (toLex (inodeId, offset)) = leaf at hsub hmem ⊢
  have hsorted : (leaf.map JunkMapRecord.order).Pairwise (· < ·) :=
    (Root.records_pairwise hholds.ordered).sublist (hsub.map _)
  obtain ⟨before, after, rfl⟩ := List.append_of_mem hmem
  rw [List.map_append, List.map_cons] at hsorted
  have hnone : after.reverse.find? (fun r ↦ r.inodeId = inodeId ∧ r.offset ≤ offset) = none := by
    refine List.find?_eq_none.mpr fun q hq ↦ ?_
    rw [List.mem_reverse] at hq
    have hlive : q ∈ live := (hholds.mem_iff q).mp (hsub.subset (by simp [hq]))
    have hlt : r.order < q.order := List.rel_of_pairwise_cons (List.pairwise_append.mp hsorted).2.1
      (List.mem_map_of_mem hq)
    have hne : r ≠ q := fun h ↦ hlt.ne (congrArg _ h)
    -- A later region that starts at or before the offset starts inside the region of the offset.
    rw [decide_eq_true_eq]
    rintro ⟨hid, hle⟩
    have hstart : q.order ≤ toLex (inodeId, offset) := by
      rw [JunkMapRecord.order, hid]
      exact Prod.Lex.toLex_le_toLex.mpr (Or.inr ⟨rfl, hle⟩)
    exact (hholds.apart r hr q hlive hne).not_inside (hholds.within q hlive)
      ⟨hlt, hstart.trans_lt (OwnedRange.covers_iff.mp hcovers).2⟩
  rw [List.reverse_append, List.reverse_cons, List.append_assoc, List.find?_append, hnone,
    Option.none_or, List.singleton_append, List.find?_cons_of_pos]
  exact decide_eq_true ⟨hcovers.1, hcovers.2.1⟩

end

/-- A lookup returns the region that the offset is in. -/
theorem lookup_ok_iff (hholds : JunkMapHolds tree live) :
    junkMapLookup inodeId offset tree = .ok r ↔ r ∈ live ∧ r.range.Covers inodeId offset := by
  constructor
  · intro hlookup
    unfold junkMapLookup at hlookup
    cases hfind : (tree.leafAt jmIndexFind (toLex (inodeId, offset))).reverse.find?
        fun r ↦ r.inodeId = inodeId ∧ r.offset ≤ offset with
    | none =>
      rw [hfind] at hlookup
      cases hlookup
    | some q =>
      rw [hfind] at hlookup
      dsimp only at hlookup
      split_ifs at hlookup with hlt
      cases hlookup
      have hleaf : r ∈ tree.leafAt jmIndexFind (toLex (inodeId, offset)) :=
        List.mem_reverse.mp (List.mem_of_find?_eq_some hfind)
      have hr : r ∈ live := (hholds.mem_iff r).mp (Root.leafAt_sublist.subset hleaf)
      obtain ⟨hid, hle⟩ : r.inodeId = inodeId ∧ r.offset ≤ offset := by
        simpa using List.find?_some hfind
      have hend : r.offset + r.length < 2 ^ 64 := (hholds.within r hr).2
      rw [Nat.mod_eq_of_lt hend] at hlt
      exact ⟨hr, hid, hle, hlt⟩
  · rintro ⟨hr, hcovers⟩
    have hend : r.offset + r.length < 2 ^ 64 := (hholds.within r hr).2
    unfold junkMapLookup
    rw [hholds.find_covering hr hcovers]
    dsimp only
    rw [Nat.mod_eq_of_lt hend]
    exact if_pos hcovers.2.2

/-- A lookup that returns no region says that there is none. -/
theorem lookup_error (inodeId offset : ℕ) (tree : JunkMapTree) :
    junkMapLookup inodeId offset tree = .error .notFound ↔
      ∀ r, junkMapLookup inodeId offset tree ≠ .ok r := by
  unfold junkMapLookup
  cases (tree.leafAt jmIndexFind (toLex (inodeId, offset))).reverse.find?
      fun r ↦ r.inodeId = inodeId ∧ r.offset ≤ offset with
  | none => simp
  | some r =>
    dsimp only
    split_ifs <;> simp

/-- A put that succeeds adds its region. -/
theorem put (hsize : 164 ≤ blockSize ∧ blockSize ≤ 65536) (hholds : JunkMapHolds tree live)
    {ready : Option ErrorCode} {fresh : ℕ → Option ℕ}
    (hcareful : (JunkMapCall.put ready fresh r).Careful blockSize tree live)
    (hclear : (JunkMapCall.put ready fresh r).Clear tree live)
    (happly : (JunkMapCall.put ready fresh r).apply blockSize tree = some tree') :
    JunkMapHolds tree' (r :: live) := by
  obtain ⟨hwithin, hsafe⟩ := hcareful
  obtain ⟨hapart, hspan⟩ := hclear
  obtain ⟨-, -, hput⟩ := JunkMapCall.apply_put happly
  rw [Root.putBy_eq jmIndexFind_eq hholds.ordered] at hput
  obtain ⟨rfl, hdone⟩ := Prod.ext_iff.mp hput
  have hleafMax : 1 ≤ maxKeys blockSize junkMapRecordSize :=
    one_le_maxKeys (by decide) (hsize.1) (by unfold junkMapRecordSize; omega)
  have hindexMax : 1 ≤ maxKeys blockSize junkMapIndexEntrySize :=
    one_le_maxKeys (by decide) (by unfold btreeNodeHeaderSize junkMapIndexEntrySize; omega)
      (by unfold junkMapIndexEntrySize; omega)
  have hnew : ∀ q ∈ live, q.order ≠ r.order := fun q hq ↦
    (hapart q hq).symm.key_ne (hholds.within q hq) hwithin
  constructor
  case ordered => exact Root.put_ordered hleafMax hindexMax fresh hholds.ordered hsafe
  case mem_iff =>
    intro q
    rw [Root.mem_put hholds.ordered hdone, hholds.mem_iff, List.mem_cons]
    exact or_congr_right (and_iff_left_of_imp (hnew q))
  case within => exact List.forall_mem_cons.mpr ⟨hwithin, hholds.within⟩
  case apart =>
    intro p hp q hq hne
    rcases List.mem_cons.mp hp with rfl | hp'
    · exact hapart q ((List.mem_cons.mp hq).resolve_left hne.symm)
    · rcases List.mem_cons.mp hq with rfl | hq'
      · exact (hapart p hp').symm
      · exact hholds.apart p hp' q hq' hne
  case clear =>
    intro q hq k hk
    rw [← Root.putBy_eq jmIndexFind_eq hholds.ordered] at hk
    rcases Root.mem_span_putBy hk with rfl | hold
    · rcases List.mem_cons.mp hq with rfl | hq'
      · exact fun hinside ↦ lt_irrefl _ hinside.1
      · exact (hapart q hq').symm.not_inside hwithin
    · rcases List.mem_cons.mp hq with rfl | hq'
      · exact hspan k hold
      · exact hholds.clear q hq' k hold

/-- A deletion takes the regions of an inode away. -/
theorem deleteAll (hholds : JunkMapHolds tree live) (inodeId : ℕ) :
    JunkMapHolds (junkMapDeleteAll inodeId tree) (live.filter (·.inodeId ≠ inodeId)) where
  ordered := junkMapDeleteAll_ordered hholds.ordered
  mem_iff r := by
    rw [records_junkMapDeleteAll hholds.ordered, List.mem_filter, List.mem_filter, hholds.mem_iff]
  within r hr := hholds.within r (List.mem_of_mem_filter hr)
  apart r hr q hq hne :=
    hholds.apart r (List.mem_of_mem_filter hr) q (List.mem_of_mem_filter hq) hne
  clear r hr k hk := hholds.clear r (List.mem_of_mem_filter hr) k
    (span_junkMapDeleteAll hholds.ordered hk)

/-- One call of a run. -/
theorem apply (hsize : 164 ≤ blockSize ∧ blockSize ≤ 65536) (hholds : JunkMapHolds tree live)
    {call : JunkMapCall} (hcareful : call.Careful blockSize tree live)
    (hclear : call.Clear tree live) (happly : call.apply blockSize tree = some tree') :
    JunkMapHolds tree' (call.keep live) := by
  cases call with
  | put ready fresh r => exact hholds.put hsize hcareful hclear happly
  | deleteAll inodeId =>
    rw [← Option.some.inj happly]
    exact hholds.deleteAll inodeId

variable {calls : List JunkMapCall}

variable (hsize : 164 ≤ blockSize ∧ blockSize ≤ 65536) (hholds : JunkMapHolds tree live)
include hsize hholds

theorem run (hcareful : JunkMapAlong blockSize (JunkMapCall.Careful blockSize) calls tree live)
    (hclear : JunkMapAlong blockSize JunkMapCall.Clear calls tree live)
    (hrun : junkMapRun blockSize calls tree = some tree') :
    JunkMapHolds tree' (calls.foldl JunkMapCall.keep live) := by
  induction calls generalizing tree live with
  | nil =>
    rw [← Option.some.inj hrun]
    exact hholds
  | cons call calls ih =>
    obtain ⟨next, hnext, hrest⟩ := Option.bind_eq_some_iff.mp hrun
    exact ih (hholds.apply hsize hcareful.1 hclear.1 hnext) (hcareful.2 next hnext)
      (hclear.2 next hnext) hrest

/-- The keys of a tree are keys of regions that were put. In a run whose regions are all apart none
of them is inside a region that is still to be put. -/
theorem clear_of_apart {past : List OwnedRange} (hlive : ∀ q ∈ live, q.range ∈ past)
    (hspan : ∀ k ∈ tree.span JunkMapRecord.order, ∃ x ∈ past, x.Within (2 ^ 64) ∧ x.key = k)
    (hpast : ∀ x ∈ past, ∀ y ∈ calls.filterMap JunkMapCall.range, y.Apart x)
    (hapart : (calls.filterMap JunkMapCall.range).Pairwise OwnedRange.Apart)
    (hcareful : JunkMapAlong blockSize (JunkMapCall.Careful blockSize) calls tree live) :
    JunkMapAlong blockSize JunkMapCall.Clear calls tree live := by
  induction calls generalizing tree live past with
  | nil => trivial
  | cons call calls ih =>
    obtain ⟨hcall, hrest⟩ := hcareful
    cases call with
    | put ready fresh r =>
      change ∀ x ∈ past, ∀ y ∈ r.range :: calls.filterMap JunkMapCall.range, y.Apart x at hpast
      obtain ⟨hfirst, hothers⟩ := List.pairwise_cons.mp hapart
      have hclear : (JunkMapCall.put ready fresh r).Clear tree live := by
        refine ⟨fun q hq ↦ hpast _ (hlive q hq) _ List.mem_cons_self, fun k hk ↦ ?_⟩
        obtain ⟨x, hx, hwithin, rfl⟩ := hspan k hk
        exact (hpast x hx _ List.mem_cons_self).not_inside hwithin
      refine ⟨hclear, fun next hnext ↦ ?_⟩
      refine ih (hholds.apply hsize hcall hclear hnext) (List.forall_mem_cons.mpr
        ⟨List.mem_cons_self, fun q hq ↦ List.mem_cons_of_mem _ (hlive q hq)⟩) (fun k hk ↦ ?_)
        (List.forall_mem_cons.mpr ⟨fun y hy ↦ (hfirst y hy).symm, fun x hx y hy ↦
          hpast x hx y (List.mem_cons_of_mem _ hy)⟩) hothers (hrest next hnext)
      obtain ⟨-, -, hput⟩ := JunkMapCall.apply_put hnext
      obtain ⟨rfl, -⟩ := Prod.ext_iff.mp hput
      rcases Root.mem_span_putBy hk with rfl | hold
      · exact ⟨r.range, List.mem_cons_self, hcall.1, rfl⟩
      · obtain ⟨x, hx, hkey⟩ := hspan k hold
        exact ⟨x, List.mem_cons_of_mem _ hx, hkey⟩
    | deleteAll inodeId =>
      refine ⟨trivial, fun next hnext ↦ ?_⟩
      refine ih (hholds.apply hsize hcall trivial hnext)
        (fun q hq ↦ hlive q (List.mem_of_mem_filter hq)) (fun k hk ↦ ?_) hpast hapart
        (hrest next hnext)
      rw [← Option.some.inj hnext] at hk
      exact hspan k (span_junkMapDeleteAll hholds.ordered hk)

end JunkMapHolds

/-- After a run a lookup returns the region that the offset is in, and not found if there is none.
The regions of the run are apart from each other, or each finds no region that it overlaps and no
key inside it. -/
theorem junkMapLookup_run {blockSize : ℕ} (hsize : 164 ≤ blockSize ∧ blockSize ≤ 65536)
    {calls : List JunkMapCall} {tree : JunkMapTree}
    (hrun : junkMapRun blockSize calls .empty = some tree)
    (hcareful : JunkMapAlong blockSize (JunkMapCall.Careful blockSize) calls .empty [])
    (hregions : (calls.filterMap JunkMapCall.range).Pairwise OwnedRange.Apart ∨
      JunkMapAlong blockSize JunkMapCall.Clear calls .empty []) (inodeId offset : ℕ) :
    (∀ r, junkMapLookup inodeId offset tree = .ok r ↔
      r ∈ junkMapLive calls ∧ r.range.Covers inodeId offset) ∧
    (junkMapLookup inodeId offset tree = .error .notFound ↔
      ∀ r ∈ junkMapLive calls, ¬r.range.Covers inodeId offset) := by
  have hclear : JunkMapAlong blockSize JunkMapCall.Clear calls .empty [] := by
    rcases hregions with hapart | hclear
    · exact JunkMapHolds.empty.clear_of_apart hsize (List.forall_mem_nil _)
        (List.forall_mem_nil _) (List.forall_mem_nil _) hapart hcareful
    · exact hclear
  have hholds := JunkMapHolds.empty.run hsize hcareful hclear hrun
  refine ⟨fun r ↦ hholds.lookup_ok_iff, ?_⟩
  rw [JunkMapHolds.lookup_error]
  refine forall_congr' fun r ↦ ?_
  rw [Ne, hholds.lookup_ok_iff, not_and]
  exact Iff.rfl

/-- The region of one byte at an offset of an inode. -/
def byteRegion (inodeId offset : ℕ) : JunkMapRecord := ⟨inodeId, offset, 1, 0, fun _ ↦ 0⟩

/-- A block for every node that divides. -/
def offered (level : ℕ) : Option ℕ := some (10 + level)

def bytePut (inodeId offset : ℕ) : JunkMapCall := .put none offered (byteRegion inodeId offset)

theorem byteRegion_apart {i o i' o' : ℕ} (hne : i ≠ i' ∨ o ≠ o') :
    (byteRegion i o).range.Apart (byteRegion i' o').range := by
  apply OwnedRange.apart_of_disjoint
  simp only [byteRegion, JunkMapRecord.range]
  omega

/-- Two regions, and one of them goes. -/
def fewRegionCalls : List JunkMapCall := [bytePut 7 64, bytePut 5 16, .deleteAll 7]

theorem junkMapLookup_run_few : ∃ tree, junkMapRun 4096 fewRegionCalls .empty = some tree ∧
      junkMapLookup 5 16 tree = .ok (byteRegion 5 16) := by
  have hcareful : JunkMapAlong 4096 (JunkMapCall.Careful 4096) fewRegionCalls .empty [] := by
    refine ⟨⟨⟨by decide, by decide⟩, trivial⟩, fun tree htree ↦ ?_⟩
    obtain rfl : Root.node 0 (10, [byteRegion 7 64]) = tree := Option.some.inj htree
    refine ⟨⟨⟨by decide, by decide⟩, trivial⟩, fun tree htree ↦ ?_⟩
    exact ⟨trivial, fun _ _ ↦ trivial⟩
  have hapart : (fewRegionCalls.filterMap JunkMapCall.range).Pairwise OwnedRange.Apart :=
    List.pairwise_pair.mpr (byteRegion_apart (by decide))
  refine ⟨_, rfl, ?_⟩
  refine ((junkMapLookup_run (by decide) rfl hcareful (Or.inl hapart) 5 16).1 _).mpr ⟨?_, by decide⟩
  exact List.mem_cons_self

/-! ### A region that is not found -/

variable {blockSize : ℕ}

theorem junkMapRun_append {calls calls' : List JunkMapCall} {tree : JunkMapTree} :
    junkMapRun blockSize (calls ++ calls') tree =
      (junkMapRun blockSize calls tree).bind (junkMapRun blockSize calls') := by
  induction calls generalizing tree with
  | nil => rfl
  | cons call calls ih =>
    rw [List.cons_append, junkMapRun, junkMapRun, Option.bind_assoc]
    exact congrArg _ (funext fun _ ↦ ih)

/-- Puts one after the other are a run of insertions. -/
theorem junkMapRun_puts {fresh : ℕ → Option ℕ} {rs : List JunkMapRecord} {tree tree' : JunkMapTree}
    (hrun : tree.putRun JunkMapRecord.order jmIndexFind (maxKeys blockSize junkMapRecordSize)
      (maxKeys blockSize junkMapIndexEntrySize) fresh junkMapPathLevels rs = some tree') :
    junkMapRun blockSize (rs.map (.put none fresh)) tree = some tree' := by
  induction rs generalizing tree with
  | nil => exact hrun
  | cons r rs ih =>
    rw [List.map_cons, junkMapRun, JunkMapCall.apply, junkMapPut]
    rw [Root.putRun] at hrun
    split_ifs at hrun ⊢
    rcases hput : tree.putBy jmIndexFind JunkMapRecord.order (maxKeys blockSize junkMapRecordSize)
      (maxKeys blockSize junkMapIndexEntrySize) fresh r with ⟨next, - | -⟩
    · rw [hput] at hrun
      cases hrun
    · rw [hput] at hrun
      exact ih hrun

theorem picksLast_jmIndexFind : PicksLast jmIndexFind := by
  intro keys k hle
  rw [jmIndexFind, List.takeWhile_eq_self_iff.mpr, List.length_tail]
  exact fun x hx ↦ decide_eq_true (hle x (List.mem_of_mem_tail hx))

/-- The regions at the first bytes of every inode, 21 of each. -/
def regionRows : Rows JunkMapRecord.order (maxKeys 4096 junkMapRecordSize) :=
  .ofGrid (fun i o ↦ byteRegion (i + 1) o) 20 rfl
    (fun _ _ _ hlt ↦ Prod.Lex.toLex_lt_toLex.mpr (Or.inr ⟨rfl, hlt⟩))
    (fun _ _ _ _ hlt ↦ Prod.Lex.toLex_lt_toLex.mpr (Or.inl (Nat.succ_lt_succ hlt)))

/-- The regions of 251 inodes make two index nodes below the root. -/
theorem junkMapRun_rows : junkMapRun 4096 ((regionRows.upTo 251).map (.put none offered)) .empty =
    some (.node 2 (regionRows.divided (10 + ·) (maxKeys 4096 junkMapIndexEntrySize) 165
      (regionRows.row 250))) := by
  have hhalf : half (maxKeys 4096 junkMapIndexEntrySize) = 84 := rfl
  have hrun : Root.putRun JunkMapRecord.order jmIndexFind (maxKeys 4096 junkMapRecordSize)
      (maxKeys 4096 junkMapIndexEntrySize) offered junkMapPathLevels
        (regionRows.upTo (half (maxKeys 4096 junkMapIndexEntrySize) + 165 + 2)) .empty =
      some (.node 2 (regionRows.divided (10 + ·) (maxKeys 4096 junkMapIndexEntrySize) 165
        (regionRows.row (half (maxKeys 4096 junkMapIndexEntrySize) + 165 + 1)))) :=
    Rows.putRun_divided picksLast_jmIndexFind (fun _ ↦ rfl) (by decide) (by decide) (by decide)
      (by decide)
  rw [hhalf] at hrun
  exact junkMapRun_puts hrun

/-- Regions of the inode in the first leaf below the second index node, and one at the end. -/
def hidingRegions : List JunkMapRecord :=
  ((List.range 43).map (fun o ↦ (85, o + 100)) ++ [(85, 50), (252, 0)]).map
    (Function.uncurry byteRegion)

/-- The first regions of that inode are deleted, and others of it fill the leaf, so that it divides
and hands up a greater separator. One before them goes below that separator, and the one at the end
makes the index node divide. -/
def hidingCalls : List JunkMapCall :=
  (regionRows.upTo 251).map (.put none offered) ++
    .deleteAll 85 :: hidingRegions.map (.put none offered)

theorem hidingCalls_range : hidingCalls.filterMap JunkMapCall.range =
    (regionRows.upTo 251 ++ hidingRegions).map JunkMapRecord.range := by
  have hput (rs : List JunkMapRecord) : (rs.map (JunkMapCall.put none offered)).filterMap
      JunkMapCall.range = rs.map JunkMapRecord.range := by
    rw [List.filterMap_map]
    exact List.filterMap_eq_map ▸ rfl
  rw [hidingCalls, List.filterMap_append, hput, List.filterMap_cons_none rfl, hput, List.map_append]

theorem hidingCalls_apart :
    (hidingCalls.filterMap JunkMapCall.range).Pairwise OwnedRange.Apart := by
  have hbyte : ∀ r ∈ regionRows.upTo 251 ++ hidingRegions,
      byteRegion r.inodeId r.offset = r := by
    refine List.forall_mem_append.mpr ⟨fun r hr ↦ ?_, List.forall_mem_map.mpr fun _ _ ↦ rfl⟩
    obtain ⟨i, -, o, -, rfl⟩ := Rows.mem_upTo_ofGrid.mp hr
    rfl
  have hnew : ∀ r ∈ hidingRegions, 251 < r.inodeId ∨ 20 < r.offset := by decide
  have hkeys : (regionRows.upTo 251 ++ hidingRegions).Pairwise fun q r ↦ q.order ≠ r.order := by
    refine List.pairwise_append.mpr ⟨?_, by decide +kernel, fun q hq r hr hsame ↦ ?_⟩
    · exact (List.pairwise_map.mp (Rows.upTo_pairwise 251)).imp ne_of_lt
    · obtain ⟨i, hi, o, ho, rfl⟩ := Rows.mem_upTo_ofGrid.mp hq
      obtain ⟨hid, hoffset⟩ := Prod.ext_iff.mp (toLex.injective hsame)
      change i + 1 = r.inodeId at hid
      change o = r.offset at hoffset
      have := hnew r hr
      omega
  rw [hidingCalls_range, List.pairwise_map]
  refine hkeys.imp_of_mem fun hq hr hne ↦ ?_
  rw [← hbyte _ hq, ← hbyte _ hr]
  refine byteRegion_apart (not_and_or.mp fun hsame ↦ hne ?_)
  exact congrArg toLex (Prod.ext hsame.1 hsame.2)

/-- The regions of these calls are apart and all calls succeed, but one of the regions is not found.
-/
theorem junkMapLookup_hidden : (hidingCalls.filterMap JunkMapCall.range).Pairwise OwnedRange.Apart ∧
      (∃ r ∈ junkMapLive hidingCalls, r.range.Covers 85 50) ∧
      (junkMapRun 4096 hidingCalls .empty).map
        (fun tree ↦ (junkMapLookup 85 50 tree).toOption.isSome) = some false := by
  refine ⟨hidingCalls_apart, ?_, ?_⟩
  · rw [hidingCalls, junkMapLive, List.foldl_append]
    exact ⟨byteRegion 85 50, List.mem_cons_of_mem _ List.mem_cons_self, by decide⟩
  · rw [hidingCalls, junkMapRun_append, junkMapRun_rows]
    decide +kernel

end Obmafs3
