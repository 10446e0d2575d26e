import Obmafs3.Defrag.Compactor

/-!
# The compactor relocates the trees

The first phase of `defrag_compact.c` brings all trees to one range at the end of the volume. It
collects the nodes of up to twenty trees, evicts dedup blocks from the range, copies the tree list
and the headers of the trees to its start, then writes the nodes of one tree after the other with
their links renamed, and names the new headers in the superblock and in the tree list.

A node takes one block, or eight in the metadata trees. Reads and writes do not fail; a header that
is no header fails to read.
-/

set_option autoImplicit false

namespace Obmafs3.Defrag

open Library.Runs

/-! ### The trees -/

/-- The addresses of trees in the superblock, in the order in which they are collected. -/
inductive TreeField
  | catalog
  | inode
  | overflow
  | metadata
  | metadataIdx
  | mediaTag
  | cdPrefix
  | cdSuffix
  | cdSubchannel
  | refcount
  | junkMap
  | metadataNumericIdx
  deriving DecidableEq, Repr

/-- The fields of the superblock that the phase collects trees from. -/
def collectedFields : List TreeField :=
  [.catalog, .inode, .overflow, .metadata, .metadataIdx, .mediaTag, .cdPrefix, .cdSuffix,
    .cdSubchannel, .refcount, .junkMap, .metadataNumericIdx]

/-- The fields of the superblock that the phase updates. -/
def updatedFields : List TreeField :=
  [.catalog, .inode, .overflow, .metadata, .metadataIdx, .mediaTag, .cdPrefix, .cdSuffix,
    .cdSubchannel, .refcount, .junkMap]

/-- What names a tree: the superblock, the list of user indexes or the list of dedup trees. -/
inductive TreeName
  | field (field : TreeField)
  | userIndex (i : ℕ)
  | entry (i : ℕ)
  deriving DecidableEq, Repr

/-- `METADATA_NODE_BLOCKS`. -/
def metadataNodeBlocks : ℕ := 8

/-- `COMPACT_TREE_CLUMP`. -/
def compactTreeClump : ℕ := 64

def TreeName.blocksPerNode : TreeName → ℕ
  | .field .metadata | .field .metadataIdx | .field .metadataNumericIdx | .userIndex _ =>
    metadataNodeBlocks
  | .field _ | .entry _ => 1

/-- `struct tree_reloc`. -/
structure TreeReloc where
  name : TreeName
  hdrLba : ℕ
  nodeLbas : List ℕ

namespace TreeReloc

def blocksPerNode (tr : TreeReloc) : ℕ := tr.name.blocksPerNode

/-- The number of blocks of the nodes. -/
def size (tr : TreeReloc) : ℕ := tr.nodeLbas.length * tr.blocksPerNode

end TreeReloc

/-- The volume with the addresses of its trees. `treeRelocs` are the moves of nodes. -/
structure TreeState extends CompactState where
  treeLbas : TreeField → ℕ
  dedupLba : ℕ
  userIndexes : List ℕ
  treeRelocs : List (ℕ × ℕ)

/-! ### Collecting nodes -/

/-- The children of an index node. -/
def childrenOf : Content → List ℕ
  | .piece (.node _ _ level children _) 0 => if 0 < level then children else []
  | _ => []

/-- The first word of a free node. What is no free node leads to no block that can be read. -/
def nextFreeOf : Content → ℕ
  | .piece (.free next _) 0 => next
  | .words data => data.headD 0
  | _ => 0

def levelOrder (disk : ℕ → DiskBlock) : (fuel : ℕ) → (queue : List ℕ) → Option (List ℕ)
  | 0, _ => none
  | _ + 1, [] => some []
  | fuel + 1, lba :: queue =>
    if lba = 0 then levelOrder disk fuel queue
    else
      (levelOrder disk fuel
        (queue ++ (childrenOf (disk lba).content).filter fun child ↦ child ≠ 0)).map (lba :: ·)

def freeChain (disk : ℕ → DiskBlock) : (fuel lba : ℕ) → Option (List ℕ)
  | 0, _ => none
  | fuel + 1, lba =>
    if lba = 0 then some []
    else (freeChain disk fuel (nextFreeOf (disk lba).content)).map (lba :: ·)

/-- `collect_tree_nodes`, with fuel for the two walks. A tree without a root has no nodes here, even
if it has free ones. -/
def collectTreeNodes (disk : ℕ → DiskBlock) (fuel hdrLba : ℕ) : Option (List ℕ) :=
  match (disk hdrLba).content with
  | .treeHeader root freeNode _ _ =>
    if root = 0 then some []
    else
      (levelOrder disk fuel [root]).bind fun nodes ↦
        (freeChain disk fuel freeNode).map (nodes ++ ·)
  | _ => some []

namespace TreeState

def listEntries (st : TreeState) : List TreeListEntry :=
  if st.dedupLba = 0 then []
  else
    match (st.disk st.dedupLba).content with
    | .treeList entries => entries
    | _ => []

/-- The address of the header of a tree, 0 if there is none. -/
def treeLba (st : TreeState) : TreeName → ℕ
  | .field field => st.treeLbas field
  | .userIndex i => st.userIndexes.getD i 0
  | .entry i => (st.listEntries[i]?.map TreeListEntry.treeLba).getD 0

/-- The trees that the phase adds: 20 at most, and of the dedup trees the first 64. -/
def addedTrees (st : TreeState) : List TreeName :=
  ((collectedFields.map TreeName.field ++
      (List.range st.userIndexes.length).map TreeName.userIndex ++
      (List.range (min st.listEntries.length 64)).map TreeName.entry).filter
    fun name ↦ st.treeLba name ≠ 0).take 20

def collectTrees (fuel : ℕ) (st : TreeState) : Option (List TreeReloc) :=
  st.addedTrees.mapM fun name ↦
    (collectTreeNodes st.disk fuel (st.treeLba name)).map (TreeReloc.mk name (st.treeLba name))

/-! ### The range -/

/-- The number of blocks for the list, the headers, the nodes and the gaps between the trees. -/
def blocksNeeded (trees : List TreeReloc) (st : TreeState) : ℕ :=
  (trees.filter fun tr ↦ tr.nodeLbas ≠ []).length + (if st.dedupLba ≠ 0 then 1 else 0) +
    (trees.map TreeReloc.size).sum + (trees.length - 1) * compactTreeClump

/-- The start of the range, in 64 bits. -/
def treesStart (trees : List TreeReloc) (st : TreeState) : ℕ :=
  (2 ^ 64 + st.totalBlocks - 1 - st.blocksNeeded trees) % 2 ^ 64

end TreeState

/-- The search for a free place below a block. Blocks behind the end of the volume count as free. -/
def placeBelow (count : ℕ) (st : CompactState) : (finish : ℕ) → Option ℕ
  | 0 => if count = 0 then some 0 else none
  | finish + 1 =>
    if count ≤ finish + 1 then
      if (List.range count).all fun j ↦
          !(finish + 1 - count + j < st.totalBlocks ∧
            st.blockTypes (finish + 1 - count + j) ≠ .free) then
        some (finish + 1 - count)
      else placeBelow count st finish
    else none

/-- The eviction of dedup blocks from a range. Other blocks in it are passed over, and so are dedup
blocks without a place. -/
def evictDestination (start finish : ℕ) : (fuel pos : ℕ) → CompactState → Option CompactState
  | 0, _, _ => none
  | fuel + 1, pos, st =>
    if finish ≤ pos then some st
    else if ¬st.isDedup pos then evictDestination start finish fuel (pos + 1) st
    else
      let base := runStart st.isDedup pos
      match (st.disk base).header with
      | none =>
        let fragEnd := runEnd st.isDedup (finish - pos) pos
        evictDestination start finish fuel fragEnd (st.release pos (fragEnd - pos))
      | some header =>
        let blocks := physBlocks st.blockSize header
        match placeBelow blocks st start with
        | none => evictDestination start finish fuel (base + blocks) st
        | some dst =>
          evictDestination start finish fuel (base + blocks) (st.evict base dst blocks)

namespace TreeState

/-! ### Headers -/

/-- Copy the tree list or a header. The old place stays marked if it lies in the range. -/
def moveBlock (start finish src dst : ℕ) (st : TreeState) : TreeState :=
  { st with
    disk := copy src dst 1 st.disk
    bitmap :=
      if src < start ∨ finish ≤ src then fill src 1 false (fill dst 1 true st.bitmap)
      else fill dst 1 true st.bitmap }

/-- The tree list goes first. The cursor stays on a list that is there already. -/
def placeTreeList (start finish : ℕ) (st : TreeState) : ℕ × TreeState :=
  if st.dedupLba ≠ 0 ∧ st.dedupLba ≠ start then
    (start + 1, { st.moveBlock start finish st.dedupLba start with dedupLba := start })
  else (start, st)

def placeHeaders (start finish : ℕ) :
    List TreeReloc → (cursor : ℕ) → TreeState → List TreeReloc × ℕ × TreeState
  | [], cursor, st => ([], cursor, st)
  | tr :: trees, cursor, st =>
    if tr.nodeLbas = [] then
      let rest := placeHeaders start finish trees cursor st
      (tr :: rest.1, rest.2)
    else if tr.hdrLba = cursor then
      let rest := placeHeaders start finish trees (cursor + 1) st
      (tr :: rest.1, rest.2)
    else
      let rest := placeHeaders start finish trees (cursor + 1)
        (st.moveBlock start finish tr.hdrLba cursor)
      ({ tr with hdrLba := cursor } :: rest.1, rest.2)

end TreeState

/-! ### Nodes -/

/-- `MAP_LOOKUP`. -/
def TreeReloc.mapLookup (tr : TreeReloc) (dstStart lba : ℕ) : ℕ :=
  match tr.nodeLbas.idxOf? lba with
  | some i => dstStart + i * tr.blocksPerNode
  | none => lba

/-- Rename the links of a node. -/
def NodeImage.rename (ρ : ℕ → ℕ) : NodeImage → NodeImage
  | .node left right level children records =>
    .node (ρ left) (ρ right) level (if 0 < level then children.map ρ else children) records
  | .free next data => .free (ρ next) data

/-- Rename the links in a block of a node. A first block that is of no tree node is taken for a free
one. -/
def DiskBlock.rename (ρ : ℕ → ℕ) (part : ℕ) (block : DiskBlock) : DiskBlock :=
  { block with
    content :=
      match block.content with
      | .piece image k => .piece (image.rename ρ) k
      | .words data => .words (if part = 0 then data.modifyHead ρ else data)
      | content => content }

namespace TreeState

/-- All nodes of a tree are read before the first is written. -/
def writeNodes (tr : TreeReloc) (dstStart : ℕ) (disk : ℕ → DiskBlock) : ℕ → DiskBlock :=
  fun lba ↦
    if InRun dstStart tr.size lba then
      let i := (lba - dstStart) / tr.blocksPerNode
      let part := (lba - dstStart) % tr.blocksPerNode
      (disk (tr.nodeLbas.getD i 0 + part)).rename (tr.mapLookup dstStart) part
    else disk lba

/-- Whether an old place is outside of the new range, and its marks are taken off. -/
def leaves (tr : TreeReloc) (dstStart old : ℕ) : Bool :=
  old < dstStart ∨ dstStart + tr.size ≤ old

def clearNodes (tr : TreeReloc) (dstStart : ℕ) (bitmap : ℕ → Bool) : ℕ → Bool :=
  tr.nodeLbas.foldl
    (fun bitmap old ↦
      if leaves tr dstStart old then fill old tr.blocksPerNode false bitmap else bitmap) bitmap

def retypeNodes (tr : TreeReloc) (dstStart : ℕ) (types : ℕ → BlockType) : ℕ → BlockType :=
  tr.nodeLbas.zipIdx.foldl
    (fun types (old, i) ↦
      (List.range tr.blocksPerNode).foldl
        (fun types b ↦
          fill (dstStart + i * tr.blocksPerNode + b) 1 .tree
            (if leaves tr dstStart old then fill (old + b) 1 .free types else types)) types) types

/-- The header that is written: a free node behind the end of the volume is dropped. -/
def renamedHeader (tr : TreeReloc) (dstStart totalBlocks root freeNode freeNodes : ℕ)
    (fields : List ℕ) : Content :=
  let freeNode := tr.mapLookup dstStart freeNode
  if totalBlocks ≤ freeNode then .treeHeader (tr.mapLookup dstStart root) 0 0 fields
  else .treeHeader (tr.mapLookup dstStart root) freeNode freeNodes fields

/-- `relocate_tree`, and whether it ends well: not if the header is overwritten. -/
def relocateTree (tr : TreeReloc) (dstStart : ℕ) (st : TreeState) : TreeState × Bool :=
  let disk := writeNodes tr dstStart st.disk
  match (disk tr.hdrLba).content with
  | .treeHeader root freeNode freeNodes fields =>
    let header := renamedHeader tr dstStart st.totalBlocks root freeNode freeNodes fields
    let moves := tr.nodeLbas.zipIdx.map fun (old, i) ↦ (old, dstStart + i * tr.blocksPerNode)
    ({ st with
        disk := fill tr.hdrLba 1 ⟨none, header⟩ disk
        bitmap := clearNodes tr dstStart (fill dstStart tr.size true st.bitmap)
        blockTypes := retypeNodes tr dstStart st.blockTypes
        treeRelocs := st.treeRelocs ++ moves.filter fun move ↦ move.1 ≠ move.2 }, true)
  | _ => ({ st with disk := disk }, false)

/-- The trees one after the other, up to one that fails. -/
def relocateTrees : List TreeReloc → (cursor : ℕ) → TreeState → TreeState × Bool
  | [], _, st => (st, true)
  | tr :: trees, cursor, st =>
    if tr.nodeLbas = [] then relocateTrees trees cursor st
    else
      let result := st.relocateTree tr cursor
      if result.2 then relocateTrees trees (cursor + tr.size + compactTreeClump) result.1
      else result

/-! ### The new addresses -/

/-- Name the new header of a tree in the superblock. -/
def updateField (move : ℕ × TreeReloc) (st : TreeState) : TreeState :=
  if move.2.nodeLbas = [] ∨ move.1 = move.2.hdrLba then st
  else
    match updatedFields.find? fun field ↦ st.treeLbas field = move.1 with
    | some field => { st with treeLbas := Function.update st.treeLbas field move.2.hdrLba }
    | none => st

/-- Name the new headers in the superblock. -/
def updateSuperblock (moves : List (ℕ × TreeReloc)) (st : TreeState) : TreeState :=
  moves.foldl (fun st move ↦ st.updateField move) st

/-- The new address of the header of a dedup tree. -/
def movedEntry (moves : List (ℕ × TreeReloc)) (e : TreeListEntry) : TreeListEntry :=
  match moves.find? fun move ↦
      move.2.nodeLbas ≠ [] ∧ move.1 = e.treeLba ∧ move.2.hdrLba ≠ move.1 with
  | some move => { e with treeLba := move.2.hdrLba }
  | none => e

/-- Name the new headers in the tree list. -/
def updateTreeList (moves : List (ℕ × TreeReloc)) (st : TreeState) : TreeState :=
  if st.dedupLba = 0 then st
  else
    match (st.disk st.dedupLba).content with
    | .treeList entries =>
      { st with
        disk := fill st.dedupLba 1 ⟨none, .treeList (entries.map (movedEntry moves))⟩ st.disk }
    | _ => st

/-- `compact_trees`, which always returns `OBMAFS3_OK`; `none` when a walk is out of fuel. -/
def compactTrees (fuel : ℕ) (st : TreeState) : Option TreeState :=
  (st.collectTrees fuel).bind fun trees ↦
    let start := st.treesStart trees
    let finish := start + st.blocksNeeded trees
    (evictDestination start (min finish st.totalBlocks) fuel start st.toCompactState).map
      fun evicted ↦
        let list := placeTreeList start finish { st with toCompactState := evicted }
        let headers := placeHeaders start finish trees list.1 list.2
        let nodes := relocateTrees headers.1 headers.2.1 headers.2.2
        let moves := (trees.map TreeReloc.hdrLba).zip headers.1
        if nodes.2 then updateTreeList moves (updateSuperblock moves nodes.1) else nodes.1

end TreeState

end Obmafs3.Defrag
