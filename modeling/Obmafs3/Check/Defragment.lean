import Obmafs3.Defrag.TreePhase

/-!
# The checker packs the trees

`fsck_defrag.c`: the nodes of one tree after the other are copied to a free run, with their links
renamed, the blocks of the old nodes and of the free ones are given back, and the header that stays
where it is names the new root.

Any read and any write may fail. What fails is said for each tree: where its walk, the copies, the
walk along the free nodes and the writes at the end stop. The bitmap is the one in memory, which is
what is written when the volume is closed, and the headers in memory are those on disk.
-/

set_option autoImplicit false

namespace Obmafs3.Repack

open Defrag (TreeField metadataNodeBlocks)
open Library.Runs

/-! ### Blocks -/

/-- A tree node: its links, its level, the children of an index node, and its keys or records. -/
structure LinkedNode where
  left : ℕ
  right : ℕ
  overflow : ℕ
  level : ℕ
  children : List ℕ
  data : List ℕ
  deriving DecidableEq, Repr

/-- `struct btree_header` with the fields that a move of the nodes leaves alone. -/
structure TreeHeader where
  root : ℕ
  freeNode : ℕ
  freeNodes : ℕ
  totalNodes : ℕ
  fields : List ℕ
  deriving DecidableEq, Repr

/-- What a block holds: the header of a tree, one of the blocks of a node, the first word of a free
node, or something else. -/
inductive Content
  | header (header : TreeHeader)
  | node (image : LinkedNode) (part : ℕ)
  | free (next : ℕ)
  | other (data : List ℕ)
  deriving DecidableEq, Repr

/-- A link, 0 for none. -/
def renameLink (ρ : ℕ → ℕ) (link : ℕ) : ℕ := if link ≠ 0 then ρ link else link

def LinkedNode.rename (ρ : ℕ → ℕ) (image : LinkedNode) : LinkedNode :=
  { image with
    left := renameLink ρ image.left
    right := renameLink ρ image.right
    overflow := renameLink ρ image.overflow
    children := if 0 < image.level then image.children.map ρ else image.children }

/-- A block of a node in the buffer, with the links renamed. The walk has found that the block is
one. -/
def Content.rename (ρ : ℕ → ℕ) : Content → Content
  | .node image part => .node (image.rename ρ) part
  | content => content

/-! ### The volume -/

/-- The trees of a volume. The last two are not among those that are packed. -/
inductive TreeId
  | field (field : TreeField)
  | userIndex (i : ℕ)
  | dedup (i : ℕ)
  | sectorTagData
  | sectorTagRef
  deriving DecidableEq, Repr

def TreeId.blocksPerNode : TreeId → ℕ
  | .field .metadata | .field .metadataIdx | .field .metadataNumericIdx | .userIndex _ =>
    metadataNodeBlocks
  | _ => 1

/-- The header is read from the disk and not taken from memory. -/
def TreeId.headerOnDisk : TreeId → Bool
  | .dedup _ => true
  | _ => false

/-- The fields of the superblock in the order of `defrag_all_trees`. -/
def packedFields : List TreeField :=
  [.catalog, .inode, .overflow, .mediaTag, .cdPrefix, .cdSuffix, .cdSubchannel, .refcount, .junkMap,
    .metadata, .metadataIdx, .metadataNumericIdx]

/-- The volume, with the addresses of the headers of its trees: 0 for none. -/
structure PackVolume where
  totalBlocks : ℕ
  nextFreeLba : ℕ
  disk : ℕ → Content
  bitmap : ℕ → Bool
  fieldLbas : TreeField → ℕ
  userIndexes : List ℕ
  dedupTrees : List ℕ
  sectorTagDataLba : ℕ
  sectorTagRefLba : ℕ

/-- What fails when one tree is packed: the read of its header, a read of the walk over its nodes,
the copy behind so many nodes and so many blocks of the next with what is then in the block that is
written, the read of a free node behind so many, and the write of the header. A failing write of the
bitmap leaves nothing undone. -/
structure TreeFaults where
  headerRead : Bool
  walk : Bool
  copy : Option (ℕ × ℕ × Content)
  chain : Option ℕ
  headerWrite : Bool
  bitmapWrite : Bool

def TreeFaults.none : TreeFaults := ⟨false, false, .none, .none, false, false⟩

/-- The free nodes that are given back: those up to the one that cannot be read. -/
def TreeFaults.freed (faults : TreeFaults) (chain : List ℕ) : List ℕ :=
  match faults.chain with
  | some read => chain.take (read + 1)
  | .none => chain

/-- What fails in a run: the read of the list of the dedup trees, and what fails for each tree. -/
structure Faults where
  list : Bool
  tree : TreeId → TreeFaults

def Faults.none : Faults := ⟨false, fun _ ↦ TreeFaults.none⟩

namespace PackVolume

def treeLba (st : PackVolume) : TreeId → ℕ
  | .field field => st.fieldLbas field
  | .userIndex i => st.userIndexes.getD i 0
  | .dedup i => st.dedupTrees.getD i 0
  | .sectorTagData => st.sectorTagDataLba
  | .sectorTagRef => st.sectorTagRefLba

/-- `obmafs3_bitmap_find_free`. -/
def findFree (st : PackVolume) (count : ℕ) : Option ℕ :=
  Volume.bitmapFindFree
    { blockSize := 1, totalBytes := st.totalBlocks, btreeClumpSize := 0, dedupClumpSize := 0
      nextFreeLba := st.nextFreeLba, bitmap := st.bitmap, disk := fun _ ↦ .bytes [] } count

end PackVolume

/-! ### One tree -/

/-- The walk over the nodes, level by level; `none` is a block that is no node, or out of fuel. -/
def activeNodes (disk : ℕ → Content) : (fuel : ℕ) → (queue : List ℕ) → Option (List ℕ)
  | 0, _ => none
  | _ + 1, [] => some []
  | fuel + 1, lba :: queue =>
    match disk lba with
    | .node image 0 =>
      (activeNodes disk fuel (queue ++ if 0 < image.level then image.children else [])).map (lba :: ·)
    | _ => none

/-- The first word of a block, read as the address of the next free node. What is no free node leads
to no block that can be read. -/
def nextFree : Content → ℕ
  | .free next => next
  | _ => 0

/-- The walk along the free nodes; `none` is out of fuel. -/
def freeChain (disk : ℕ → Content) : (fuel lba : ℕ) → Option (List ℕ)
  | 0, _ => none
  | fuel + 1, lba =>
    if lba ≠ 0 then (freeChain disk fuel (nextFree (disk lba))).map (lba :: ·) else some []

/-- The nodes stand one behind the other, in any order. -/
def contiguous (blocksPerNode : ℕ) (active : List ℕ) : Bool :=
  let sorted := active.insertionSort (· ≤ ·)
  sorted.zipIdx.all fun (lba, i) ↦ lba = sorted.headD 0 + i * blocksPerNode

/-- Where the nodes go. -/
def relocationMap (blocksPerNode newStart : ℕ) (active : List ℕ) : List (ℕ × ℕ) :=
  active.zipIdx.map fun (old, i) ↦ (old, newStart + i * blocksPerNode)

/-- `defrag_map_lookup`. -/
def mapLookup (map : List (ℕ × ℕ)) (lba : ℕ) : ℕ :=
  ((map.find? fun move ↦ move.1 = lba).map Prod.snd).getD lba

/-- The first blocks of a node are copied. -/
def copyBlocks (ρ : ℕ → ℕ) (count old new : ℕ) (disk : ℕ → Content) : ℕ → Content :=
  fun lba ↦ if InRun new count lba then (disk (old + (lba - new))).rename ρ else disk lba

/-- The loop over the nodes. -/
def copyNodes (ρ : ℕ → ℕ) (blocksPerNode : ℕ) : List (ℕ × ℕ) → (ℕ → Content) → ℕ → Content
  | [], disk => disk
  | (old, new) :: moves, disk =>
    copyNodes ρ blocksPerNode moves (copyBlocks ρ blocksPerNode old new disk)

/-- The loop up to the block that fails. -/
def copyNodesUntil (ρ : ℕ → ℕ) (blocksPerNode nodes blocks : ℕ) (garbage : Content)
    (moves : List (ℕ × ℕ)) (disk : ℕ → Content) : ℕ → Content :=
  let disk := copyNodes ρ blocksPerNode (moves.take nodes) disk
  match moves[nodes]? with
  | none => disk
  | some (old, new) =>
    if blocks < blocksPerNode then
      Function.update (copyBlocks ρ blocks old new disk) (new + blocks) garbage
    else disk

/-- `obmafs3_bitmap_clear` for one node after the other. -/
def clearNodes (blocksPerNode : ℕ) (nodes : List ℕ) (bitmap : ℕ → Bool) : ℕ → Bool :=
  nodes.foldl (fun bitmap lba ↦ fill lba blocksPerNode false bitmap) bitmap

namespace PackVolume

/-- From the mark on the new run on. -/
def moveTree (faults : TreeFaults) (hdrLba blocksPerNode newStart : ℕ) (hdr : TreeHeader)
    (active : List ℕ) (st : PackVolume) : PackVolume :=
  let map := relocationMap blocksPerNode newStart active
  let bitmap := fill newStart (active.length * blocksPerNode) true st.bitmap
  match faults.copy with
  | some (nodes, blocks, garbage) =>
    { st with
      disk := copyNodesUntil (mapLookup map) blocksPerNode nodes blocks garbage map st.disk
      bitmap := bitmap }
  | none =>
    let disk := copyNodes (mapLookup map) blocksPerNode map st.disk
    let chain := (freeChain disk (st.totalBlocks + 1) hdr.freeNode).getD []
    let bitmap :=
      clearNodes blocksPerNode (faults.freed chain) (clearNodes blocksPerNode active bitmap)
    let written : TreeHeader :=
      { hdr with
        root := newStart, freeNode := 0, freeNodes := 0, totalNodes := active.length % 2 ^ 32 }
    { st with
      disk := if faults.headerWrite then disk else Function.update disk hdrLba (.header written)
      bitmap := bitmap }

/-- `defrag_tree` with the question answered with yes. -/
def defragTree (faults : TreeFaults) (id : TreeId) (st : PackVolume) : PackVolume :=
  let blocksPerNode := id.blocksPerNode
  match st.disk (st.treeLba id) with
  | .header hdr =>
    if (id.headerOnDisk ∧ faults.headerRead) ∨ hdr.root = 0 ∨ faults.walk then st
    else
      match activeNodes st.disk (st.totalBlocks + 1) [hdr.root] with
      | none => st
      | some active =>
        if contiguous blocksPerNode active then st
        else
          match st.findFree (active.length * blocksPerNode) with
          | none => st
          | some newStart =>
            st.moveTree faults (st.treeLba id) blocksPerNode newStart hdr active
  | _ => st

/-- The trees that are packed. -/
def packedTrees (faults : Faults) (st : PackVolume) : List TreeId :=
  (packedFields.map TreeId.field ++ (List.range st.userIndexes.length).map TreeId.userIndex).filter
      (fun id ↦ st.treeLba id ≠ 0) ++
    if faults.list then [] else (List.range st.dedupTrees.length).map TreeId.dedup

/-- `defrag_all_trees`. -/
def defragAllTrees (faults : Faults) (st : PackVolume) : PackVolume :=
  (st.packedTrees faults).foldl (fun st id ↦ st.defragTree (faults.tree id) id) st

end PackVolume

end Obmafs3.Repack
