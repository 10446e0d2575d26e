import Obmafs3.Library.SearchTreePut
import Obmafs3.Volume

/-!
# The common tree code

The node allocator of `btree.c` and the B+tree code that the catalog, the inode table and the
refcount table repeat over their own records. A `TreeKind` holds what differs between them: the key
of a record, the sizes that fix how many keys fit in a node, and the form of a node on disk.

An insertion descends to a leaf, remembering the slots it follows, and when the leaf is full it
splits it and carries the split up along the path. A deletion removes the record from its leaf and,
when the leaf becomes empty, the leaf from its parent.
-/

set_option autoImplicit false

namespace Obmafs3

open Library.Search Library.SearchTree

/-- The volume and the in-memory header of one tree. -/
structure TreeCtx where
  vol : Volume
  hdr : BtreeHeader

/-- What one of the trees has of its own. -/
structure TreeKind (κ ρ : Type) where
  key : ρ → κ
  recordSize : ℕ
  entrySize : ℕ
  toBlock : Node κ ρ → Block
  ofBlock : Block → Option (Node κ ρ)
  ofBlock_toBlock : ∀ node, ofBlock (toBlock node) = some node
  ofBlock_header : ∀ header, ofBlock (.treeHeader header) = none

/-- `sizeof(struct btree_node_header)`. -/
def btreeNodeHeaderSize : ℕ := 70

/-- The number of items of a size that fit in a node, as a `uint16_t`. -/
def maxKeys (blockSize itemSize : ℕ) : ℕ :=
  (blockSize - btreeNodeHeaderSize) / itemSize % 2 ^ 16

/-- An item that fits in a node, where the number of those that do has not overflowed. -/
theorem one_le_maxKeys {blockSize itemSize : ℕ} (hitem : 0 < itemSize)
    (hfits : btreeNodeHeaderSize + itemSize ≤ blockSize) (hcount : blockSize ≤ 2 ^ 16 * itemSize) :
    1 ≤ maxKeys blockSize itemSize := by
  have hone : 1 ≤ (blockSize - btreeNodeHeaderSize) / itemSize :=
    (Nat.one_le_div_iff hitem).mpr (Nat.le_sub_of_add_le' hfits)
  have hsmall : (blockSize - btreeNodeHeaderSize) / itemSize < 2 ^ 16 :=
    (Nat.div_lt_iff_lt_mul hitem).mpr (by unfold btreeNodeHeaderSize at hfits ⊢; omega)
  rwa [maxKeys, Nat.mod_eq_of_lt hsmall]

/-! ### Blocks -/

def blockRead (lba : ℕ) : Op TreeCtx Block := fun ctx ↦
  match ctx.vol.blockRead lba with
  | some block => .ok block ctx
  | none => .error .io ctx

def blockWrite (lba : ℕ) (block : Block) : Op TreeCtx Unit := fun ctx ↦
  match ctx.vol.blockWrite lba block with
  | some vol => .ok () { ctx with vol := vol }
  | none => .error .io ctx

/-- `obmafs3_btree_header_write`: a free list that starts outside the volume is dropped first. -/
def btreeHeaderWrite (hdrLba : ℕ) : Op TreeCtx Unit := do
  let ctx ← get
  if ctx.hdr.freeNodeLba ≠ 0 ∧ ctx.vol.totalBlocks ≤ ctx.hdr.freeNodeLba then
    set { ctx with hdr := { ctx.hdr with freeNodeLba := 0, freeNodes := 0 } }
  blockWrite hdrLba (.treeHeader (← get).hdr)

/-! ### The node allocator -/

/-- Allocate `blocks` blocks in a row, or half as many, down to one node. -/
def allocShrinking (blocksPerNode : ℕ) (vol : Volume) : (fuel blocks : ℕ) → Option (ℕ × ℕ × Volume)
  | 0, blocks => (vol.allocBlocks blocksPerNode).map fun (start, vol) ↦ (start, blocks, vol)
  | fuel + 1, blocks =>
    if blocksPerNode < blocks then
      match vol.allocBlocks blocks with
      | some (start, vol) => some (start, blocks, vol)
      | none =>
        allocShrinking blocksPerNode vol fuel
          (max (blocks / 2 / blocksPerNode * blocksPerNode) blocksPerNode)
    else (vol.allocBlocks blocksPerNode).map fun (start, vol) ↦ (start, blocks, vol)

/-- Link node `i` of a clump, then node `i - 1`, down to node one; `false` when a write fails. -/
def linkClump (start blocksPerNode nodes oldHead : ℕ) : ℕ → Volume → Volume × Bool
  | 0, vol => (vol, true)
  | i + 1, vol =>
    let next := if i + 1 = nodes - 1 then oldHead else start + (i + 2) * blocksPerNode
    match vol.blockWrite (start + (i + 1) * blocksPerNode) (.freeNode next) with
    | none => (vol, false)
    | some vol => linkClump start blocksPerNode nodes oldHead i vol

/-- The part of `obmafs3_btree_alloc_node` behind `alloc_clump`: a fresh clump of nodes, the first
for the caller and the others for the free list. -/
def allocClump : Op TreeCtx ℕ := fun ctx ↦
  let blocksPerNode := max (ctx.hdr.nodeSize / ctx.vol.blockSize) 1
  let configured :=
    if ctx.hdr.deduplication then ctx.vol.dedupClumpSize else ctx.vol.btreeClumpSize
  let clump :=
    if configured = 0 then (if ctx.hdr.deduplication then 1024 else 64) else configured
  match allocShrinking blocksPerNode ctx.vol (clump * blocksPerNode) (clump * blocksPerNode) with
  | none => .error .noSpc ctx
  | some (start, blocks, vol) =>
    let nodes := blocks / blocksPerNode
    if 1 < nodes then
      match linkClump start blocksPerNode nodes ctx.hdr.freeNodeLba (nodes - 1) vol with
      | (vol, false) => .ok start { ctx with vol := vol }
      | (vol, true) =>
        .ok start
          { vol := vol
            hdr :=
              { ctx.hdr with
                freeNodeLba := start + blocksPerNode
                freeNodes := (ctx.hdr.freeNodes + (nodes - 1)) % 2 ^ 32 } }
    else .ok start { ctx with vol := vol }

/-- `obmafs3_btree_alloc_node`: pop the free list, or allocate a clump when it is empty. The header
changes in memory only. -/
def btreeAllocNode : Op TreeCtx ℕ := fun ctx ↦
  let drop := { ctx with hdr := { ctx.hdr with freeNodeLba := 0, freeNodes := 0 } }
  if ctx.hdr.freeNodeLba ≠ 0 ∧ 0 < ctx.hdr.freeNodes then
    if ctx.vol.totalBlocks ≤ ctx.hdr.freeNodeLba then allocClump drop
    else
      match ctx.vol.blockRead ctx.hdr.freeNodeLba with
      | none => .ok ctx.hdr.freeNodeLba drop
      | some block =>
        if block.firstWord ≠ 0 ∧ ctx.vol.totalBlocks ≤ block.firstWord then
          .ok ctx.hdr.freeNodeLba drop
        else
          .ok ctx.hdr.freeNodeLba
            { ctx with
              hdr :=
                { ctx.hdr with
                  freeNodeLba := block.firstWord
                  freeNodes := ctx.hdr.freeNodes - 1 } }
  else allocClump ctx

/-- `obmafs3_btree_free_node`: push a node on the free list. -/
def btreeFreeNode (nodeLba : ℕ) : Op TreeCtx Unit := do
  let ctx ← get
  if nodeLba = 0 ∨ ctx.vol.totalBlocks ≤ nodeLba then pure ()
  else
    blockWrite nodeLba (.freeNode ctx.hdr.freeNodeLba)
    modify fun ctx ↦
      { ctx with
        hdr :=
          { ctx.hdr with
            freeNodeLba := nodeLba
            freeNodes := (ctx.hdr.freeNodes + 1) % 2 ^ 32 } }

/-! ### Nodes -/

section Nodes

variable {κ ρ : Type} (kind : TreeKind κ ρ)

/-- Read a node; `bad` is the error for a block that holds no node of the tree. -/
def readNode (bad : ErrorCode) (lba : ℕ) : Op TreeCtx (Node κ ρ) := do
  match kind.ofBlock (← blockRead lba) with
  | some node => pure node
  | none => throw bad

def writeNode (lba : ℕ) (node : Node κ ρ) : Op TreeCtx Unit :=
  blockWrite lba (kind.toBlock node)

def Node.setLeftLink (node : Node κ ρ) (lba : ℕ) : Node κ ρ :=
  match node with
  | .leaf _ rightLink records => .leaf lba rightLink records
  | .index level _ rightLink entries spare => .index level lba rightLink entries spare

def Node.setRightLink (node : Node κ ρ) (lba : ℕ) : Node κ ρ :=
  match node with
  | .leaf leftLink _ records => .leaf leftLink lba records
  | .index level leftLink _ entries spare => .index level leftLink lba entries spare

/-- Change a node in place if there is one at the LBA. Link 0 is no link, and a read or write that
fails is ignored. -/
def patchNode (lba : ℕ) (change : Node κ ρ → Node κ ρ) : Op TreeCtx Unit := fun ctx ↦
  if lba = 0 then .ok () ctx
  else
    match (ctx.vol.blockRead lba).bind kind.ofBlock with
    | none => .ok () ctx
    | some node =>
      match ctx.vol.blockWrite lba (kind.toBlock (change node)) with
      | none => .ok () ctx
      | some vol => .ok () { ctx with vol := vol }

/-- The child pointer in a slot. In a node without entries slot zero still holds the last entry
that was removed, or zeroes. -/
def childLba (entries : List (κ × ℕ)) (spare : Option (κ × ℕ)) (slot : ℕ) : ℕ :=
  match entries[slot]?.or spare with
  | some entry => entry.2
  | none => 0

end Nodes

/-- A leaf that a descent has reached. -/
structure LeafAt (ρ : Type) where
  lba : ℕ
  leftLink : ℕ
  rightLink : ℕ
  records : List ρ

/-- A split on its way up: the node that was divided, its first key, and the new node to its right
with the key that separates the two. -/
structure Split (κ : Type) where
  leftLba : ℕ
  leftFirstKey : κ
  pushChild : ℕ
  pushKey : κ

section Trees

variable {κ ρ : Type} [LinearOrder κ] (kind : TreeKind κ ρ)

/-! ### Descents -/

/-- The descent of a lookup. It has no depth limit, and never ends when the pointers form a
cycle. -/
def descend (bad : ErrorCode) (key : κ) : (fuel lba : ℕ) → Op TreeCtx (LeafAt ρ)
  | 0, _ => throw .hang
  | fuel + 1, lba => do
    match ← readNode kind bad lba with
    | .leaf leftLink rightLink records => pure ⟨lba, leftLink, rightLink, records⟩
    | .index _ _ _ entries spare =>
      descend bad key fuel (childLba entries spare (indexFind (entries.map Prod.fst) key))

/-- The depth limit of the descents that record a path. -/
def btreeMaxDepth : ℕ := 8

/-- The descent of an insertion or a deletion. The path lists the index nodes and the slots that
were followed, the deepest first. -/
def descendPath (key : κ) : (budget lba : ℕ) → List (ℕ × ℕ) → Op TreeCtx (LeafAt ρ × List (ℕ × ℕ))
  | 0, lba, path => do
    match ← readNode kind .badMagic lba with
    | .leaf leftLink rightLink records => pure (⟨lba, leftLink, rightLink, records⟩, path)
    | .index .. => throw .inval
  | budget + 1, lba, path => do
    match ← readNode kind .badMagic lba with
    | .leaf leftLink rightLink records => pure (⟨lba, leftLink, rightLink, records⟩, path)
    | .index _ _ _ entries spare =>
      let slot := indexFind (entries.map Prod.fst) key
      descendPath key budget (childLba entries spare slot) ((lba, slot) :: path)

/-- The lookup that the trees share. -/
def btreeLookup (key : κ) : Op TreeCtx (Option ρ) := do
  let ctx ← get
  if ctx.hdr.rootNodeLba = 0 then pure none
  else
    let leaf ← descend kind .badMagic key (ctx.vol.totalBlocks + 1) ctx.hdr.rootNodeLba
    match leafFind (leaf.records.map kind.key) key with
    | .found i => pure leaf.records[i]?
    | .absent _ => pure none

/-! ### Insertion -/

/-- Put a record in its leaf. A full leaf keeps the lower half, and the upper half moves to a new
leaf on its right. -/
def leafInsert (record : ρ) (leaf : LeafAt ρ) : Op TreeCtx (Option (Split κ)) := do
  let blockSize := (← get).vol.blockSize
  let maxLeaf := maxKeys blockSize kind.recordSize
  match leafFind (leaf.records.map kind.key) (kind.key record) with
  | .found i =>
    writeNode kind leaf.lba (.leaf leaf.leftLink leaf.rightLink (leaf.records.set i record))
    pure none
  | .absent i =>
    let all := leaf.records.insertIdx i record
    if leaf.records.length < maxLeaf then
      writeNode kind leaf.lba (.leaf leaf.leftLink leaf.rightLink all)
      pure none
    else
      let leftCount := (maxLeaf + 1) / 2
      let newLeafLba ← btreeAllocNode
      writeNode kind leaf.lba (.leaf leaf.leftLink newLeafLba (all.take leftCount))
      writeNode kind newLeafLba (.leaf leaf.lba leaf.rightLink (all.drop leftCount))
      patchNode kind leaf.rightLink (·.setLeftLink newLeafLba)
      pure (some
        { leftLba := leaf.lba
          leftFirstKey := firstKey (kind.key record) (all.map kind.key)
          pushChild := newLeafLba
          pushKey := firstKey (kind.key record) ((all.drop leftCount).map kind.key) })

/-- Put a split in the parent: the parent takes the first key of the divided node for its separator
and the new node in the next slot. A full parent is divided in turn; `none` means that it had
room. -/
def parentInsert (hdrLba parentLba parentSlot : ℕ) (split : Split κ) :
    Op TreeCtx (Option (Split κ)) := do
  match ← readNode kind .corrupt parentLba with
  | .leaf .. => throw .corrupt
  | .index level leftLink rightLink entries spare =>
    let maxIndex := maxKeys (← get).vol.blockSize kind.entrySize
    -- Slot zero of a node without entries is written all the same.
    let slots := if entries.isEmpty then [spare.getD (split.leftFirstKey, 0)] else entries
    let updated := slots.modify parentSlot fun entry ↦ (split.leftFirstKey, entry.2)
    let all := updated.insertIdx (parentSlot + 1) (split.pushKey, split.pushChild)
    if entries.length < maxIndex then
      writeNode kind parentLba
        (.index level leftLink rightLink (all.take (entries.length + 1)) spare)
      btreeHeaderWrite hdrLba
      pure none
    else
      let leftCount := (maxIndex + 1) / 2
      let newIndexLba ← btreeAllocNode
      writeNode kind parentLba (.index level leftLink newIndexLba (all.take leftCount) spare)
      writeNode kind newIndexLba (.index level parentLba rightLink (all.drop leftCount) none)
      patchNode kind rightLink (·.setLeftLink newIndexLba)
      pure (some
        { leftLba := parentLba
          leftFirstKey := firstKey split.leftFirstKey (all.map Prod.fst)
          pushChild := newIndexLba
          pushKey := firstKey split.pushKey ((all.drop leftCount).map Prod.fst) })

/-- Carry a split up the path. -/
def propagate (hdrLba : ℕ) : List (ℕ × ℕ) → Split κ → Op TreeCtx (Option (Split κ))
  | [], split => pure (some split)
  | (parentLba, parentSlot) :: path, split => do
    match ← parentInsert kind hdrLba parentLba parentSlot split with
    | none => pure none
    | some split => propagate hdrLba path split

def Node.level : Node κ ρ → ℕ
  | .leaf .. => 0
  | .index level .. => level

/-- A new root over the two halves of the old one. -/
def growRoot (hdrLba : ℕ) (split : Split κ) : Op TreeCtx Unit := do
  let newRootLba ← btreeAllocNode
  let oldRoot ← readNode kind .corrupt split.leftLba
  writeNode kind newRootLba
    (.index (oldRoot.level + 1) 0 0
      [(split.leftFirstKey, split.leftLba), (split.pushKey, split.pushChild)] none)
  modify fun ctx ↦ { ctx with hdr := { ctx.hdr with rootNodeLba := newRootLba } }
  btreeHeaderWrite hdrLba

/-- The first record of an empty tree. -/
def createRoot (hdrLba : ℕ) (record : ρ) : Op TreeCtx Unit := do
  let newLba ← btreeAllocNode
  writeNode kind newLba (.leaf 0 0 [record])
  modify fun ctx ↦ { ctx with hdr := { ctx.hdr with rootNodeLba := newLba } }
  btreeHeaderWrite hdrLba

/-- The insertion that the trees share. -/
def btreeInsert (hdrLba : ℕ) (record : ρ) : Op TreeCtx Unit := do
  let root := (← get).hdr.rootNodeLba
  if root = 0 then createRoot kind hdrLba record
  else
    let (leaf, path) ← descendPath kind (kind.key record) btreeMaxDepth root []
    match ← leafInsert kind record leaf with
    | none => pure ()
    | some split =>
      match ← propagate kind hdrLba path split with
      | none => pure ()
      | some split => growRoot kind hdrLba split

/-! ### Deletion -/

/-- The status a call returns, for a caller that goes on all the same. -/
def status {σ : Type} (call : Op σ Unit) : Op σ (Option ErrorCode) := fun s ↦
  match call s with
  | .ok _ s => .ok none s
  | .error e s => .ok (some e) s

/-- Take an empty leaf out of the tree: out of the chain of leaves and out of its parent. A root
that is left with one child gives way to it, any other parent keeps what it is left with. -/
def removeLeaf (hdrLba : ℕ) (leaf : LeafAt ρ) : List (ℕ × ℕ) → Op TreeCtx (Option ErrorCode)
  | [] => do
    modify fun ctx ↦ { ctx with hdr := { ctx.hdr with rootNodeLba := 0 } }
    let rc ← status (btreeHeaderWrite hdrLba)
    let _ ← status (btreeFreeNode leaf.lba)
    pure rc
  | (parentLba, parentSlot) :: path => do
    patchNode kind leaf.leftLink (·.setRightLink leaf.rightLink)
    patchNode kind leaf.rightLink (·.setLeftLink leaf.leftLink)
    match ← readNode kind .corrupt parentLba with
    | .leaf .. => throw .corrupt
    | .index level leftLink rightLink entries spare =>
      -- A count of zero would wrap around, and later searches would leave the node.
      if entries.isEmpty then throw .corrupt
      else
        let remaining := entries.eraseIdx parentSlot
        match path, remaining with
        | [], [] =>
          modify fun ctx ↦ { ctx with hdr := { ctx.hdr with rootNodeLba := 0 } }
          let rc ← status (btreeHeaderWrite hdrLba)
          let _ ← status (btreeFreeNode leaf.lba)
          let _ ← status (btreeFreeNode parentLba)
          pure rc
        | [], [last] =>
          modify fun ctx ↦ { ctx with hdr := { ctx.hdr with rootNodeLba := last.2 } }
          let rc ← status (btreeHeaderWrite hdrLba)
          let _ ← status (btreeFreeNode leaf.lba)
          let _ ← status (btreeFreeNode parentLba)
          pure rc
        | _, _ =>
          let left := if remaining.isEmpty then entries.head? else spare
          let rc ← status do
            writeNode kind parentLba (.index level leftLink rightLink remaining left)
            btreeHeaderWrite hdrLba
          let _ ← status (btreeFreeNode leaf.lba)
          pure rc

/-- Find the record a deletion is about, with the leaf it is in and the path to the leaf. -/
def findForDelete (key : κ) : Op TreeCtx (LeafAt ρ × List (ℕ × ℕ) × ℕ × ρ) := do
  let root := (← get).hdr.rootNodeLba
  if root = 0 then throw .notFound
  else
    let (leaf, path) ← descendPath kind key btreeMaxDepth root []
    match leafFind (leaf.records.map kind.key) key with
    | .absent _ => throw .notFound
    | .found i =>
      match leaf.records[i]? with
      | none => throw .corrupt
      | some record => pure (leaf, path, i, record)

/-- Remove the record at an index of its leaf. -/
def removeRecord (hdrLba : ℕ) (leaf : LeafAt ρ) (path : List (ℕ × ℕ)) (i : ℕ) :
    Op TreeCtx (Option ErrorCode) :=
  if (leaf.records.eraseIdx i).isEmpty then removeLeaf kind hdrLba leaf path
  else
    status (writeNode kind leaf.lba
      (.leaf leaf.leftLink leaf.rightLink (leaf.records.eraseIdx i)))

/-- Hand on a status. -/
def raise {σ : Type} : Option ErrorCode → Op σ Unit
  | none => pure ()
  | some e => throw e

end Trees

end Obmafs3
