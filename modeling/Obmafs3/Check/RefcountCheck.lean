import Obmafs3.Library.SortedMap
import Obmafs3.Refcounts.Runs

/-!
# The checker counts the references

`verify_refcount_tree` of `fsck_extents.c`: it counts the runs of the inode and of the overflow tree
that cover each block, reads the records of the refcount tree along its leaves, and sets the counts
that differ. A walk ends without a word at the first node that cannot be read.

The nodes of the inode and of the overflow tree hold nothing but what the walk reads of them. The
updates write the blocks of the refcount tree alone.
-/

set_option autoImplicit false

namespace Obmafs3.Recount

open Library.SortedMap

/-- `struct lba_count`. -/
structure LbaCount where
  lba : ℕ
  count : ℕ
  deriving DecidableEq, Repr

/-- A node of the inode or of the overflow tree: the children of an index node, or the runs of each
record of a leaf. An inode record has eight runs and an overflow record one. -/
inductive ExtentNode
  | index (children : List ℕ)
  | leaf (records : List (List ExtentRun))

/-- The volume to check. A block that is not readable gives an error or has no node magic. -/
structure CountVolume where
  readable : ℕ → Bool
  inodeRoot : ℕ
  inodeNodes : ℕ → ExtentNode
  overflowRoot : ℕ
  overflowNodes : ℕ → ExtentNode
  refcounts : RefcountCtx

/-! ### The expected counts -/

/-- `lba_map_add`. The count is a `uint32_t`. -/
def lbaMapAdd (map : List LbaCount) (lba : ℕ) : List LbaCount :=
  alter LbaCount.lba lba ⟨lba, 1⟩ (fun e ↦ { e with count := (e.count + 1) % 2 ^ 32 }) map

/-- `lba_map_find`. -/
def lbaMapFind (map : List LbaCount) (lba : ℕ) : Option ℕ := findIndex LbaCount.lba map lba

/-- The blocks of a run. -/
def runBlocks (run : ExtentRun) : List ℕ :=
  if run.blockCount = 0 ∨ run.startBlock = 0 then []
  else (List.range run.blockCount).map (run.startBlock + ·)

/-- The records of a leaf. -/
def addRecords (records : List (List ExtentRun)) (map : List LbaCount) : List LbaCount :=
  records.foldl (fun map runs ↦ runs.foldl (fun map run ↦ (runBlocks run).foldl lbaMapAdd map) map)
    map

/-- The walk over a tree with the stack of the nodes to come. -/
def collectExtents (readable : ℕ → Bool) (nodes : ℕ → ExtentNode) :
    (fuel : ℕ) → (stack : List ℕ) → (map : List LbaCount) → List LbaCount
  | 0, _, map => map
  | _ + 1, [], map => map
  | fuel + 1, lba :: stack, map =>
    if readable lba then
      match nodes lba with
      | .index children => collectExtents readable nodes fuel (children.reverse ++ stack) map
      | .leaf records => collectExtents readable nodes fuel stack (addRecords records map)
    else map

/-- Phase 1. -/
def expectedCounts (v : CountVolume) : List LbaCount :=
  let fuel := v.refcounts.vol.totalBlocks + 1
  let inline := collectExtents v.readable v.inodeNodes fuel [v.inodeRoot] []
  if v.overflowRoot ≠ 0 then
    collectExtents v.readable v.overflowNodes fuel [v.overflowRoot] inline
  else inline

/-! ### The stored counts -/

/-- A node of the refcount tree. -/
def refcountNode (v : CountVolume) (lba : ℕ) : Option (Node ℕ RefcountRecord) :=
  if v.readable lba then (v.refcounts.vol.blockRead lba).bind refcountKind.ofBlock else none

/-- The walk along the leaves. Index nodes are never among them. -/
def readChain (node : ℕ → Option (Node ℕ RefcountRecord)) : (fuel lba : ℕ) → List LbaCount
  | 0, _ => []
  | fuel + 1, lba =>
    if lba = 0 then []
    else
      match node lba with
      | some (.leaf _ rightLink records) =>
        records.map (fun r ↦ ⟨r.lba, r.refCount⟩) ++ readChain node fuel rightLink
      | _ => []

/-- The way down to the first leaf; `none` is a node that cannot be read. -/
def firstLeafLba (node : ℕ → Option (Node ℕ RefcountRecord)) : (fuel lba : ℕ) → Option ℕ
  | 0, _ => none
  | fuel + 1, lba =>
    if lba = 0 then none
    else
      match node lba with
      | none => none
      | some (.leaf ..) => some lba
      | some (.index _ _ _ entries spare) => firstLeafLba node fuel (childLba entries spare 0)

/-- Phase 2. -/
def storedCounts (v : CountVolume) : List LbaCount :=
  let fuel := v.refcounts.vol.totalBlocks + 1
  match firstLeafLba (refcountNode v) fuel v.refcounts.hdr.rootNodeLba with
  | none => []
  | some lba => readChain (refcountNode v) fuel lba

/-! ### The comparison -/

/-- Phase 3a: the updates of the shared blocks, and the stored counts with those set to zero that
were looked at. -/
def checkShared : (expected stored : List LbaCount) → List LbaCount × List LbaCount
  | [], stored => ([], stored)
  | e :: expected, stored =>
    if e.count ≤ 1 then checkShared expected stored
    else
      match lbaMapFind stored e.lba with
      | none =>
        let (updates, stored) := checkShared expected stored
        (e :: updates, stored)
      | some i =>
        let (updates, marked) :=
          checkShared expected (stored.modify i fun s ↦ { s with count := 0 })
        (if stored[i]?.map LbaCount.count = some e.count then updates else e :: updates, marked)

/-- The count of the map for a block, zero if it has none. -/
def actualCount (expected : List LbaCount) (lba : ℕ) : ℕ :=
  match lbaMapFind expected lba with
  | none => 0
  | some i => (expected[i]?.map LbaCount.count).getD 0

/-- Phase 3b: the updates of the blocks that are not shared. -/
def checkStale (expected stored : List LbaCount) : List LbaCount :=
  stored.filterMap fun s ↦
    if s.count = 0 then none
    else if actualCount expected s.lba ≤ 1 then some ⟨s.lba, 1⟩ else none

/-- The mismatches that are reported, in their order, each with the count that is set. -/
def mismatches (v : CountVolume) : List LbaCount :=
  if v.inodeRoot = 0 then []
  else
    let expected := expectedCounts v
    let (updates, stored) := checkShared expected (storedCounts v)
    updates ++ checkStale expected stored

/-- The updates one after the other, with the number of those that succeed. -/
def applyUpdates : List LbaCount → RefcountCtx → RefcountCtx × ℕ
  | [], ctx => (ctx, 0)
  | update :: updates, ctx =>
    match refcountSet update.lba update.count ctx with
    | .ok _ ctx =>
      let (ctx, fixCount) := applyUpdates updates ctx
      (ctx, fixCount + 1)
    | .error _ ctx => applyUpdates updates ctx

/-- `verify_refcount_tree` with every question answered with yes: the volume, `bad_count` and
`fix_count`. -/
def verifyRefcountTree (v : CountVolume) : CountVolume × ℕ × ℕ :=
  let (ctx, fixCount) := applyUpdates (mismatches v) v.refcounts
  ({ v with refcounts := ctx }, (mismatches v).length, fixCount)

end Obmafs3.Recount
