import Obmafs3.Library.SearchTreeDemand
import Obmafs3.Refcounts.Table

/-!
# Three trees on one volume

The catalog, the inode table and the refcount table keep their nodes and their free lists on one
volume. Each has its header in memory and on disk. A call changes the header in memory and writes it
at some of its exits. Closing the volume does not write the headers, and opening it again reads them
back. `Conserved` is what the node allocator promises over a run of calls and remounts, and
`Careful` the condition on a call under which it keeps the promise.
-/

set_option autoImplicit false

namespace Obmafs3

open Library.Search Library.SearchTree

/-! ### The trees -/

/-- The catalog as one of the trees. -/
def catalogKind : TreeKind CatalogKey CatalogRecord where
  key record := toLex (record.parentId, record.name)
  recordSize := 273
  entrySize := 272
  toBlock := .catalogNode
  ofBlock
    | .catalogNode node => some node
    | _ => none
  ofBlock_toBlock _ := rfl
  ofBlock_header _ := rfl

/-- The inode table as one of the trees. -/
def inodeKind : TreeKind ℕ InodeRecord where
  key := InodeRecord.inodeId
  recordSize := 265
  entrySize := 16
  toBlock := .inodeNode
  ofBlock
    | .inodeNode node => some node
    | _ => none
  ofBlock_toBlock _ := rfl
  ofBlock_header _ := rfl

inductive TreeName
  | catalog
  | inodes
  | refcounts
  deriving DecidableEq, Repr

namespace TreeName

abbrev Key : TreeName → Type
  | catalog => CatalogKey
  | inodes => ℕ
  | refcounts => ℕ

abbrev Record : TreeName → Type
  | catalog => CatalogRecord
  | inodes => InodeRecord
  | refcounts => RefcountRecord

instance : (tree : TreeName) → LinearOrder tree.Key
  | catalog => inferInstanceAs (LinearOrder CatalogKey)
  | inodes => inferInstanceAs (LinearOrder ℕ)
  | refcounts => inferInstanceAs (LinearOrder ℕ)

def kind : (tree : TreeName) → TreeKind tree.Key tree.Record
  | catalog => catalogKind
  | inodes => inodeKind
  | refcounts => refcountKind

end TreeName

/-- The volume and the headers of the trees in memory. -/
structure TreeVolume where
  vol : Volume
  hdr : TreeName → BtreeHeader
  hdrLba : TreeName → ℕ

namespace TreeVolume

def ctx (st : TreeVolume) (tree : TreeName) : TreeCtx := ⟨st.vol, st.hdr tree⟩

def set (st : TreeVolume) (tree : TreeName) (ctx : TreeCtx) : TreeVolume :=
  { st with vol := ctx.vol, hdr := Function.update st.hdr tree ctx.hdr }

/-- `obmafs3_btree_header_read`; a block without the magic of a header is an error. -/
def headerOnDisk (st : TreeVolume) (tree : TreeName) : Option BtreeHeader :=
  match st.vol.blockRead (st.hdrLba tree) with
  | some (.treeHeader hdr) => some hdr
  | _ => none

end TreeVolume

/-! ### The calls -/

/-- The deletion that the catalog and the inode table share. -/
def btreeDelete {κ ρ : Type} [LinearOrder κ] (kind : TreeKind κ ρ) (hdrLba : ℕ) (key : κ) :
    Op TreeCtx Unit := do
  let (leaf, path, i, _) ← findForDelete kind key
  raise (← removeRecord kind hdrLba leaf path i)

/-- Free the blocks of the inline extents of a record. -/
def freeExtents (extents : List ExtentRun) (vol : Volume) : Volume :=
  extents.foldl (fun vol e ↦
    if 0 < e.blockCount then vol.freeBlocks e.startBlock e.blockCount else vol) vol

/-- `obmafs3_inode_delete`. -/
def inodeDelete (hdrLba inodeId : ℕ) : Op TreeCtx Unit := do
  let (leaf, path, i, record) ← findForDelete inodeKind inodeId
  let rc ← removeRecord inodeKind hdrLba leaf path i
  modify fun ctx ↦ { ctx with vol := freeExtents record.extents ctx.vol }
  raise rc

/-- `obmafs3_refcount_set` on the tree; the call drops the cached leaf. -/
def setRefcount (hdrLba lba refCount : ℕ) : Op TreeCtx Unit := fun ctx ↦
  match refcountSet lba refCount ⟨ctx, hdrLba, none⟩ with
  | .ok _ ctx => .ok () ctx.toTreeCtx
  | .error e ctx => .error e ctx.toTreeCtx

/-- Run tree code on one of the trees. -/
def onTree (tree : TreeName) (op : ℕ → Op TreeCtx Unit) : Op TreeVolume Unit := fun st ↦
  match op (st.hdrLba tree) (st.ctx tree) with
  | .ok _ ctx => .ok () (st.set tree ctx)
  | .error e ctx => .error e (st.set tree ctx)

/-- `obmafs3_close` and `obmafs3_open`: the bitmap is kept and the headers are read back. -/
def remount : Op TreeVolume Unit := fun st ↦
  match st.headerOnDisk .catalog, st.headerOnDisk .inodes, st.headerOnDisk .refcounts with
  | some catalogHdr, some inodeHdr, some refcountHdr =>
    .ok ()
      { st with
        hdr := fun
          | .catalog => catalogHdr
          | .inodes => inodeHdr
          | .refcounts => refcountHdr }
  | _, _, _ => .error .badMagic st

inductive TreeCall
  | catalogInsert (record : CatalogRecord)
  | catalogDelete (key : CatalogKey)
  | inodePut (record : InodeRecord)
  | inodeDelete (inodeId : ℕ)
  | refcountSet (lba refCount : ℕ)
  | remount

def TreeCall.run : TreeCall → Op TreeVolume Unit
  | catalogInsert record => onTree .catalog fun hdrLba ↦ btreeInsert catalogKind hdrLba record
  | catalogDelete key => onTree .catalog fun hdrLba ↦ btreeDelete catalogKind hdrLba key
  | inodePut record => onTree .inodes fun hdrLba ↦ btreeInsert inodeKind hdrLba record
  | inodeDelete inodeId => onTree .inodes fun hdrLba ↦ Obmafs3.inodeDelete hdrLba inodeId
  | refcountSet lba refCount => onTree .refcounts fun hdrLba ↦ setRefcount hdrLba lba refCount
  | remount => Obmafs3.remount

/-- The state a call leaves, whatever it returns. -/
def TreeCall.after (call : TreeCall) (st : TreeVolume) : TreeVolume :=
  match call.run st with
  | .ok _ st => st
  | .error _ st => st

def afterCalls (calls : List TreeCall) (st : TreeVolume) : TreeVolume :=
  calls.foldl (fun st call ↦ call.after st) st

/-! ### What the allocator promises -/

/-- The nodes that the child pointers lead to. -/
inductive Reachable {κ ρ : Type} (kind : TreeKind κ ρ) (ctx : TreeCtx) : ℕ → Prop
  | root : ctx.hdr.rootNodeLba ≠ 0 → Reachable kind ctx ctx.hdr.rootNodeLba
  | child {lba level left right : ℕ} {entries : List (κ × ℕ)} {spare : Option (κ × ℕ)}
      {entry : κ × ℕ} : Reachable kind ctx lba →
      kind.view ctx lba = some (.index level left right entries spare) → entry ∈ entries →
      Reachable kind ctx entry.2

namespace TreeVolume

def InTree (st : TreeVolume) (tree : TreeName) (lba : ℕ) : Prop :=
  Reachable tree.kind (st.ctx tree) lba

/-- The nodes of the free list that the header on disk begins. Block zero ends it. -/
def InFreeList (st : TreeVolume) (tree : TreeName) (lba : ℕ) : Prop :=
  ∃ hdr chain, st.headerOnDisk tree = some hdr ∧
    FreeChain st.vol.disk hdr.freeNodeLba chain ∧ 0 ∉ chain ∧ lba ∈ chain

/-- The nodes of the trees and of their free lists. -/
def nodes (st : TreeVolume) : Set ℕ :=
  {lba | ∃ tree, st.InTree tree lba ∨ st.InFreeList tree lba}

/-- The next allocation for any of the trees hands out a node that is in none of them, and every
node that was ever allocated is in a tree or in a free list on disk. -/
structure Conserved (st : TreeVolume) (allocated : Set ℕ) : Prop where
  fresh : ∀ tree lba ctx, btreeAllocNode (st.ctx tree) = .ok lba ctx → ∀ other, ¬st.InTree other lba
  kept : allocated ⊆ st.nodes

end TreeVolume

/-- The nodes that a run allocates: the blocks that one of its calls marks in the bitmap. -/
def allocatedBy : List TreeCall → TreeVolume → Set ℕ
  | [], _ => ∅
  | call :: calls, st =>
    {lba | lba < st.vol.totalBlocks ∧ st.vol.bitmap lba = false ∧
      (call.after st).vol.bitmap lba = true} ∪ allocatedBy calls (call.after st)

/-! ### The condition on a call -/

/-- An insertion needs no more nodes than there are, free nodes and free blocks taken together, or
there are none at all. -/
def InsertCareful (st : TreeVolume) (tree : TreeName) (record : tree.Record) : Prop :=
  ∀ used root, Stored tree.kind (st.hdrLba tree) used (st.ctx tree) root →
    nodesAtHand (st.ctx tree) = 0 ∨
      root.demand tree.kind.key (maxKeys st.vol.blockSize tree.kind.recordSize)
        (maxKeys st.vol.blockSize tree.kind.entrySize) record ≤ nodesAtHand (st.ctx tree)

/-- A deletion does not take the last record out of a leaf. -/
def DeleteCareful (st : TreeVolume) (tree : TreeName) (key : tree.Key) : Prop :=
  ∀ used height t, Stored tree.kind (st.hdrLba tree) used (st.ctx tree) (.node height t) →
    height ≤ btreeMaxDepth → dropKey tree.kind.key key (leafFor key height t).2 ≠ [] ∨
      (leafFor key height t).2 = []

/-- The extents of the record that a deletion finds name no block of the trees: not their headers,
nodes or free nodes, nor block zero. -/
def ExtentsApart (st : TreeVolume) (inodeId : ℕ) : Prop :=
  ∀ leaf path i record ctx, findForDelete inodeKind inodeId (st.ctx .inodes) =
      .ok (leaf, path, i, record) ctx →
    ∀ e ∈ record.extents, ∀ lba, e.startBlock ≤ lba → lba < e.startBlock + e.blockCount →
      lba ≠ 0 ∧ (∀ tree, lba ≠ st.hdrLba tree) ∧ lba ∉ st.nodes

/-- The condition under which a call keeps the promise of the allocator. -/
def TreeCall.Careful (st : TreeVolume) : TreeCall → Prop
  | catalogInsert record => InsertCareful st .catalog record
  | catalogDelete key => DeleteCareful st .catalog key
  | inodePut record => InsertCareful st .inodes record
  | inodeDelete inodeId => DeleteCareful st .inodes inodeId ∧ ExtentsApart st inodeId
  | refcountSet lba refCount => 1 < refCount → InsertCareful st .refcounts ⟨lba, refCount⟩
  | remount => True

def AllCallsCareful : List TreeCall → TreeVolume → Prop
  | [], _ => True
  | call :: calls, st => call.Careful st ∧ AllCallsCareful calls (call.after st)

end Obmafs3
