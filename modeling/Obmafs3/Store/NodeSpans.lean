import Obmafs3.Defrag.TreePhase

/-!
# The nodes of the metadata trees

A node of the metadata tree or of its index takes eight blocks, and `obmafs3_create` stores the
node size of both trees as a 16-bit number of bytes. `btreeAllocNode` divides it by the block size
again, lays out clumps with that stride and threads the free list through them. `Spans` is what a
stride gives to its nodes, `allocNode_spans` that an allocation keeps it. `nodes_apart_iff` says
for which volumes the stride is that of the nodes.
-/

set_option autoImplicit false

namespace Obmafs3.NodeSpans

open Function (update update_of_ne update_self)

variable {vol vol' : Volume} {ctx : TreeCtx} {ns chain others : List ℕ} {w start : ℕ}

/-! ### Nodes of several blocks -/

/-- Two nodes of `w` blocks have none in common. -/
def Apart (w a b : ℕ) : Prop := a + w ≤ b ∨ b + w ≤ a

theorem Apart.symm {a b : ℕ} (h : Apart w a b) : Apart w b a := Or.symm h

/-- Nodes of `w` blocks that lie apart from each other, inside the volume and marked in its bitmap.
Block zero is none of theirs. -/
structure Spans (w : ℕ) (vol : Volume) (ns : List ℕ) : Prop where
  apart : ns.Pairwise (Apart w)
  pos : ∀ a ∈ ns, 0 < a
  inside : ∀ a ∈ ns, a + w ≤ vol.totalBlocks
  marked : ∀ a ∈ ns, ∀ b, a ≤ b → b < a + w → vol.bitmap b = true

variable {ns' : List ℕ} {ctx' : TreeCtx}

theorem Spans.perm (h : Spans w vol ns) (hperm : ns.Perm ns') : Spans w vol ns' where
  apart := (hperm.pairwise_iff fun {_ _} ↦ Apart.symm).mp h.apart
  pos a ha := h.pos a (hperm.mem_iff.mpr ha)
  inside a ha := h.inside a (hperm.mem_iff.mpr ha)
  marked a ha := h.marked a (hperm.mem_iff.mpr ha)

theorem Spans.of_append_left (h : Spans w vol (ns ++ ns')) : Spans w vol ns where
  apart := (List.pairwise_append.mp h.apart).1
  pos a ha := h.pos a (List.mem_append_left _ ha)
  inside a ha := h.inside a (List.mem_append_left _ ha)
  marked a ha := h.marked a (List.mem_append_left _ ha)

/-- The nodes of a clump are apart. -/
theorem pairwise_range' (n : ℕ) : (List.range' start n w).Pairwise (Apart w) := by
  induction n generalizing start with
  | zero => exact List.Pairwise.nil
  | succ n ih =>
    rw [List.range'_succ]
    refine List.Pairwise.cons (fun b hb ↦ ?_) ih
    obtain ⟨i, -, rfl⟩ := List.mem_range'.mp hb
    exact Or.inl (Nat.le_add_right _ _)

/-- A node of a clump of `n` nodes ends inside the clump. -/
theorem le_of_mem_range' {n a : ℕ} (ha : a ∈ List.range' start n w) :
    start ≤ a ∧ a + w ≤ start + n * w := by
  obtain ⟨i, hi, rfl⟩ := List.mem_range'.mp ha
  have hend : (i + 1) * w ≤ n * w := Nat.mul_le_mul_right w hi
  rw [Nat.succ_mul, Nat.mul_comm] at hend
  omega

variable {n : ℕ}

/-- A clump of free blocks joins the nodes there are. -/
theorem Spans.clump (h : Spans w vol ns) (hstart : 0 < start)
    (hinside : start + n * w ≤ vol.totalBlocks)
    (hfree : ∀ b, start ≤ b → b < start + n * w → vol.bitmap b = false)
    (htotal : vol'.totalBlocks = vol.totalBlocks)
    (hmarks : ∀ b, vol'.bitmap b = if start ≤ b ∧ b < start + n * w then true else vol.bitmap b) :
    Spans w vol' (List.range' start n w ++ ns) where
  apart := by
    refine List.pairwise_append.mpr ⟨pairwise_range' n, h.apart, fun a ha b hb ↦ ?_⟩
    obtain ⟨hge, hend⟩ := le_of_mem_range' ha
    by_contra hmeet
    rw [Apart, not_or] at hmeet
    -- The first block that the two share is marked for one and free for the other.
    have hset := h.marked b hb (max a b) (le_max_right _ _) (by omega)
    rw [hfree _ (by omega) (by omega)] at hset
    cases hset
  pos a ha := by
    rcases List.mem_append.mp ha with ha | ha
    · exact hstart.trans_le (le_of_mem_range' ha).1
    · exact h.pos a ha
  inside a ha := by
    rw [htotal]
    rcases List.mem_append.mp ha with ha | ha
    · exact (le_of_mem_range' ha).2.trans hinside
    · exact h.inside a ha
  marked a ha b hge hlt := by
    rw [hmarks]
    rcases List.mem_append.mp ha with ha | ha
    · obtain ⟨hfirst, hend⟩ := le_of_mem_range' ha
      exact if_pos ⟨by omega, by omega⟩
    · rw [h.marked a ha b hge hlt, ite_self]

/-! ### One allocation -/

/-- A fresh clump of `n` nodes from `start` on: its blocks are marked, and its nodes after the first
stand on the free list before those that were there. -/
structure FreshClump (w : ℕ) (ctx : TreeCtx) (start n : ℕ) (ctx' : TreeCtx) : Prop where
  pos : 1 ≤ n
  found : ctx.vol.bitmapFindFree (n * w) = some start
  node_size : ctx'.hdr.nodeSize = ctx.hdr.nodeSize
  block_size : ctx'.vol.blockSize = ctx.vol.blockSize
  total_bytes : ctx'.vol.totalBytes = ctx.vol.totalBytes
  marks : ∀ b, ctx'.vol.bitmap b =
    if start ≤ b ∧ b < start + n * w then true else ctx.vol.bitmap b
  disk : ∀ b, b < start + w ∨ start + n * w ≤ b → ctx'.vol.disk b = ctx.vol.disk b
  links : ∀ chain, FreeChain ctx'.vol.disk ctx.hdr.freeNodeLba chain →
    FreeChain ctx'.vol.disk ctx'.hdr.freeNodeLba (List.range' (start + w) (n - 1) w ++ chain)
  listed : 1 < n → ctx'.hdr.freeNodeLba = start + w ∧
    ctx'.hdr.freeNodes = (ctx.hdr.freeNodes + (n - 1)) % 2 ^ 32

theorem FreshClump.totalBlocks_eq (h : FreshClump w ctx start n ctx') :
    ctx'.vol.totalBlocks = ctx.vol.totalBlocks := by
  rw [Volume.totalBlocks, Volume.totalBlocks, h.total_bytes, h.block_size]

/-- A clump is had in some size, or there is no room for a single node. -/
theorem allocClump_stride (ctx : TreeCtx)
    (hwidth : max (ctx.hdr.nodeSize / ctx.vol.blockSize) 1 = w) :
    (∃ start n ctx', allocClump ctx = .ok start ctx' ∧ n ≤ clumpNodes ctx ∧
        FreshClump w ctx start n ctx') ∨
      allocClump ctx = .error .noSpc ctx ∧ ctx.vol.allocBlocks w = none := by
  rcases allocClump_cases hwidth with
    ⟨start, n, disk, hrun, hn, hle, hfound, -, hframe, hlinks⟩ | ⟨hrun, hnone, -⟩
  · obtain ⟨-, hinside⟩ := Volume.bitmapFindFree_some hfound
    refine Or.inl ⟨start, n, _, hrun, hle, hn, hfound, clumpHeader_nodeSize _ _ _ _, rfl, rfl,
      bitmapSet_eq hinside, hframe, hlinks, fun hmany ↦ ?_⟩
    rw [clumpHeader, if_pos hmany]
    exact ⟨rfl, rfl⟩
  · exact Or.inr ⟨hrun, hnone⟩

/-- What an allocation hands out and leaves: the node, and a free list of other nodes. -/
structure NodeOut (w : ℕ) (others : List ℕ) (ctx : TreeCtx) (lba : ℕ) (ctx' : TreeCtx) : Prop where
  spans : ∃ chain, FreeChain ctx'.vol.disk ctx'.hdr.freeNodeLba chain ∧
    Spans w ctx'.vol (lba :: chain ++ others)
  node_size : ctx'.hdr.nodeSize = ctx.hdr.nodeSize
  block_size : ctx'.vol.blockSize = ctx.vol.blockSize
  total_bytes : ctx'.vol.totalBytes = ctx.vol.totalBytes
  marks : ∀ b, ctx.vol.bitmap b = true → ctx'.vol.bitmap b = true
  disk : ∀ b, ctx.vol.bitmap b = true → ctx'.vol.disk b = ctx.vol.disk b

/-- The first node of a fresh clump. -/
theorem FreshClump.nodeOut (h : FreshClump w ctx start n ctx') (hpos : 0 < w)
    (hzero : ctx.vol.bitmap 0 = true) (hchain : FreeChain ctx.vol.disk ctx.hdr.freeNodeLba chain)
    (hspans : Spans w ctx.vol (chain ++ others)) : NodeOut w others ctx start ctx' := by
  obtain ⟨hfree, hinside⟩ := Volume.bitmapFindFree_some h.found
  have hsize : w ≤ n * w := Nat.le_mul_of_pos_left w h.pos
  have hmarked (b : ℕ) (hset : ctx.vol.bitmap b = true) : b < start ∨ start + n * w ≤ b := by
    by_contra hin
    rw [hfree b (by omega) (by omega)] at hset
    cases hset
  have hdisk (b : ℕ) (hset : ctx.vol.bitmap b = true) : ctx'.vol.disk b = ctx.vol.disk b :=
    h.disk b ((hmarked b hset).imp_left (Nat.lt_add_right w))
  have hstart : 0 < start := by
    have := hmarked 0 hzero
    omega
  refine ⟨⟨_, h.links chain (hchain.congr fun lba hlba ↦ ?_), ?_⟩, h.node_size, h.block_size,
    h.total_bytes, fun b hset ↦ ?_, hdisk⟩
  · exact hdisk lba (hspans.marked lba (List.mem_append_left _ hlba) lba le_rfl (by omega))
  · have hfirst : List.range' start n w = start :: List.range' (start + w) (n - 1) w := by
      obtain ⟨m, rfl⟩ := Nat.exists_eq_add_of_le' h.pos
      rw [List.range'_succ, Nat.add_sub_cancel]
    have hall := hspans.clump hstart hinside hfree h.totalBlocks_eq h.marks
    rw [hfirst, ← List.append_assoc] at hall
    exact hall
  · rw [h.marks, hset, ite_self]

/-- An allocation hands out a node apart from all there are, or reports that there is no room. -/
theorem btreeAllocNode_spans (ctx : TreeCtx)
    (hwidth : max (ctx.hdr.nodeSize / ctx.vol.blockSize) 1 = w)
    (hzero : ctx.vol.bitmap 0 = true) (hchain : FreeChain ctx.vol.disk ctx.hdr.freeNodeLba chain)
    (hspans : Spans w ctx.vol (chain ++ others)) :
    (∃ lba ctx', btreeAllocNode ctx = .ok lba ctx' ∧ NodeOut w others ctx lba ctx') ∨
      btreeAllocNode ctx = .error .noSpc ctx := by
  have hpos : 0 < w := by omega
  rw [btreeAllocNode]
  simp only
  by_cases hlist : ctx.hdr.freeNodeLba ≠ 0 ∧ 0 < ctx.hdr.freeNodes
  · rw [if_pos hlist]
    cases chain with
    | nil => exact absurd hchain hlist.1
    | cons lba chain =>
      obtain ⟨hhead, next, hnext, hrest⟩ := hchain
      have hlt : lba < ctx.vol.totalBlocks := by
        have := hspans.inside lba List.mem_cons_self
        omega
      have hnextlt : ¬(next ≠ 0 ∧ ctx.vol.totalBlocks ≤ next) := by
        cases chain with
        | nil => exact fun h ↦ h.1 hrest
        | cons other chain =>
          obtain ⟨rfl, -⟩ := hrest
          have := hspans.inside next (List.mem_cons_of_mem _ List.mem_cons_self)
          omega
      rw [hhead, if_neg (Nat.not_le_of_lt hlt), Volume.blockRead, if_pos hlt]
      simp only [hnext, Block.firstWord, if_neg hnextlt]
      exact Or.inl ⟨lba, _, rfl, ⟨chain, hrest, hspans⟩, rfl, rfl, rfl, fun _ ↦ id, fun _ _ ↦ rfl⟩
  · rw [if_neg hlist]
    rcases allocClump_stride ctx hwidth with ⟨start, n, ctx', hrun, -, hclump⟩ | ⟨hrun, -⟩
    · exact Or.inl ⟨start, ctx', hrun, hclump.nodeOut hpos hzero hchain hspans⟩
    · exact Or.inr hrun

/-! ### The volume that is created -/

/-- `sizeof(struct bitmap_header)`. -/
def bitmapHeaderSize : ℕ := 56

/-- The number of blocks of the bitmap in `obmafs3_create`. A block smaller than the header makes
its capacity wrap around. -/
def bitmapBlocks (blockSize totalSize : ℕ) : ℕ :=
  let bitmapBytes := (totalSize / blockSize + 7) / 8
  let firstBlockCapacity := (blockSize + 2 ^ 64 - bitmapHeaderSize) % 2 ^ 64
  if bitmapBytes ≤ firstBlockCapacity then 1
  else 1 + (bitmapBytes - firstBlockCapacity + blockSize - 1) / blockSize

/-- The superblock, the tree headers with the two first nodes, and the bitmap. -/
def reservedBlocks (blockSize totalSize : ℕ) : ℕ := 16 + bitmapBlocks blockSize totalSize

/-- The header of either metadata tree: `node_size` is cast to `uint16_t`. -/
def createdHeader (blockSize : ℕ) : BtreeHeader where
  rootNodeLba := 0
  freeNodeLba := 0
  freeNodes := 0
  nodeSize := Defrag.metadataNodeBlocks * blockSize % 2 ^ 16
  deduplication := false

/-- A volume that `obmafs3_create` has made, as the allocator sees it: the reserved blocks and the
last one are marked. -/
def createdVolume (blockSize totalSize : ℕ) : Volume where
  blockSize := blockSize
  totalBytes := totalSize
  btreeClumpSize := 64
  dedupClumpSize := 1024
  nextFreeLba := reservedBlocks blockSize totalSize
  bitmap b := decide ((b < reservedBlocks blockSize totalSize ∨ b = totalSize / blockSize - 1) ∧
    b / 8 < (totalSize / blockSize + 7) / 8)
  disk b := if b = 11 ∨ b = 12 then .treeHeader (createdHeader blockSize) else .bytes []

/-- The blocks that are left free. -/
def freeBlocks (blockSize totalSize : ℕ) : ℕ :=
  totalSize / blockSize - 1 - reservedBlocks blockSize totalSize

/-- `blocks_per_node` in `obmafs3_btree_alloc_node`, for a header as created. -/
def blocksPerNode (blockSize : ℕ) : ℕ := max ((createdHeader blockSize).nodeSize / blockSize) 1

/-! ### Runs -/

/-- The two trees with nodes of eight blocks. -/
inductive MetaTree
  | metadata
  | metadataIdx
  deriving DecidableEq, Repr

/-- The tree that a call is not for. -/
def MetaTree.other : MetaTree → MetaTree
  | .metadata => .metadataIdx
  | .metadataIdx => .metadata

theorem MetaTree.eq_or_eq_other (tree t : MetaTree) : t = tree ∨ t = tree.other := by
  cases tree <;> cases t <;> decide

theorem MetaTree.other_ne (tree : MetaTree) : tree.other ≠ tree := by
  cases tree <;> decide

/-- The volume, the headers of both trees in memory, and the nodes handed out, the last one
first. -/
structure NodeState where
  vol : Volume
  metaHdr : BtreeHeader
  metaIdxHdr : BtreeHeader
  nodes : List ℕ

/-- What happens between two calls of the allocator: its caller writes a block of a node that it was
handed. -/
inductive NodeEvent
  | alloc (tree : MetaTree)
  | write (lba : ℕ) (block : Block)

namespace NodeState

def hdr (st : NodeState) : MetaTree → BtreeHeader
  | .metadata => st.metaHdr
  | .metadataIdx => st.metaIdxHdr

def setHdr (st : NodeState) (hdr : BtreeHeader) : MetaTree → NodeState
  | .metadata => { st with metaHdr := hdr }
  | .metadataIdx => { st with metaIdxHdr := hdr }

/-- A call of the allocator for one of the trees. -/
def alloc (st : NodeState) (tree : MetaTree) : NodeState :=
  match btreeAllocNode ⟨st.vol, st.hdr tree⟩ with
  | .ok lba ctx => { st.setHdr ctx.hdr tree with vol := ctx.vol, nodes := lba :: st.nodes }
  | .error _ ctx => { st.setHdr ctx.hdr tree with vol := ctx.vol }

/-- A block inside the eight of a node that was handed out. -/
def Owns (st : NodeState) (lba : ℕ) : Prop :=
  ∃ a ∈ st.nodes, a ≤ lba ∧ lba < a + Defrag.metadataNodeBlocks

instance (st : NodeState) (lba : ℕ) : Decidable (st.Owns lba) :=
  inferInstanceAs (Decidable (∃ a ∈ st.nodes, a ≤ lba ∧ lba < a + Defrag.metadataNodeBlocks))

def step (st : NodeState) : NodeEvent → NodeState
  | .alloc tree => st.alloc tree
  | .write lba block =>
    if st.Owns lba then
      { st with vol := { st.vol with disk := Function.update st.vol.disk lba block } }
    else st

def run (st : NodeState) (events : List NodeEvent) : NodeState := events.foldl step st

/-- A created volume before the first call. -/
def created (blockSize totalSize : ℕ) : NodeState where
  vol := createdVolume blockSize totalSize
  metaHdr := createdHeader blockSize
  metaIdxHdr := createdHeader blockSize
  nodes := []

/-- The eight blocks of each node that was handed out are its own, inside the volume and marked. -/
structure NodesApart (st : NodeState) : Prop where
  apart : st.nodes.Pairwise (Apart Defrag.metadataNodeBlocks)
  inside : ∀ a ∈ st.nodes, a + Defrag.metadataNodeBlocks ≤ st.vol.totalBlocks
  marked : ∀ a ∈ st.nodes, ∀ b, a ≤ b → b < a + Defrag.metadataNodeBlocks → st.vol.bitmap b = true

variable {st : NodeState} {blockSize totalSize : ℕ} {tree : MetaTree}

@[simp] theorem hdr_setHdr (hdr : BtreeHeader) : (st.setHdr hdr tree).hdr tree = hdr := by
  cases tree <;> rfl

theorem hdr_setHdr_of_ne {other : MetaTree} (hdr : BtreeHeader) (hne : other ≠ tree) :
    (st.setHdr hdr tree).hdr other = st.hdr other := by
  cases tree <;> cases other <;> first | rfl | exact absurd rfl hne

@[simp] theorem setHdr_hdr : st.setHdr (st.hdr tree) tree = st := by
  cases tree <;> rfl

/-- What a run keeps when the stride is that of the nodes: the free lists of both trees and the
nodes handed out are nodes of eight blocks, apart from each other. -/
structure Sound (blockSize : ℕ) (st : NodeState) : Prop where
  node_size : ∀ tree, (st.hdr tree).nodeSize = Defrag.metadataNodeBlocks * blockSize
  block_size : st.vol.blockSize = blockSize
  zero : st.vol.bitmap 0 = true
  spans : ∃ chains : MetaTree → List ℕ,
    (∀ tree, FreeChain st.vol.disk (st.hdr tree).freeNodeLba (chains tree)) ∧
      Spans Defrag.metadataNodeBlocks st.vol
        (chains .metadata ++ (chains .metadataIdx ++ st.nodes))

theorem Sound.nodesApart (h : st.Sound blockSize) : st.NodesApart := by
  obtain ⟨chains, -, hspans⟩ := h.spans
  have hnodes := (hspans.perm List.perm_append_comm).of_append_left.perm List.perm_append_comm
  exact ⟨hnodes.of_append_left.apart, hnodes.of_append_left.inside, hnodes.of_append_left.marked⟩

theorem perm_chains (chains : MetaTree → List ℕ) (tree : MetaTree) :
    (chains .metadata ++ (chains .metadataIdx ++ ns)).Perm
      (chains tree ++ (chains tree.other ++ ns)) := by
  cases tree with
  | metadata => exact List.Perm.refl _
  | metadataIdx =>
    rw [← List.append_assoc, ← List.append_assoc]
    exact List.perm_append_comm.append_right ns

section

variable (h : st.Sound blockSize)
include h

/-- A call for one of the trees keeps what a run keeps. -/
theorem Sound.alloc (hpos : 0 < blockSize) (tree : MetaTree) : (st.alloc tree).Sound blockSize := by
  obtain ⟨chains, hchains, hspans⟩ := h.spans
  have hwidth : max ((st.hdr tree).nodeSize / st.vol.blockSize) 1 = Defrag.metadataNodeBlocks := by
    rw [h.node_size, h.block_size, Nat.mul_div_cancel _ hpos]
    rfl
  rw [NodeState.alloc]
  rcases btreeAllocNode_spans ⟨st.vol, st.hdr tree⟩ hwidth h.zero (hchains tree)
    (hspans.perm (perm_chains chains tree)) with ⟨lba, ctx, hrun, hout⟩ | hrun
  · rw [hrun]
    obtain ⟨chain, hchain, hspans'⟩ := hout.spans
    have hkept : FreeChain ctx.vol.disk (st.hdr tree.other).freeNodeLba (chains tree.other) := by
      refine (hchains tree.other).congr fun a ha ↦ hout.disk a ?_
      have hmem : a ∈ chains tree ++ (chains tree.other ++ st.nodes) :=
        List.mem_append_right _ (List.mem_append_left _ ha)
      exact (hspans.perm (perm_chains chains tree)).marked a hmem a le_rfl (Nat.lt_add_of_pos_right
        (by decide))
    refine ⟨fun t ↦ ?_, hout.block_size.trans h.block_size, hout.marks 0 h.zero,
      update chains tree chain, fun t ↦ ?_, ?_⟩
    · rcases tree.eq_or_eq_other t with rfl | rfl
      · exact (congrArg BtreeHeader.nodeSize (hdr_setHdr ctx.hdr)).trans
          (hout.node_size.trans (h.node_size t))
      · exact (congrArg BtreeHeader.nodeSize (hdr_setHdr_of_ne ctx.hdr tree.other_ne)).trans
          (h.node_size tree.other)
    · rcases tree.eq_or_eq_other t with rfl | rfl
      · rw [update_self]
        exact (congrArg BtreeHeader.freeNodeLba (hdr_setHdr ctx.hdr)).symm ▸ hchain
      · rw [update_of_ne tree.other_ne]
        exact (congrArg BtreeHeader.freeNodeLba (hdr_setHdr_of_ne ctx.hdr tree.other_ne)).symm ▸
          hkept
    · refine hspans'.perm (List.Perm.trans ?_ (perm_chains _ tree).symm)
      rw [update_self, update_of_ne tree.other_ne, List.cons_append]
      refine (List.perm_middle.symm).trans (List.Perm.append_left chain ?_)
      exact List.perm_middle.symm
  · rw [hrun]
    simp only [setHdr_hdr]
    exact h

/-- A write to a node handed out touches no free list. -/
theorem Sound.write {lba : ℕ} (hown : st.Owns lba) (block : Block) : Sound blockSize
      { st with vol := { st.vol with disk := update st.vol.disk lba block } } := by
  obtain ⟨chains, hchains, hspans⟩ := h.spans
  obtain ⟨a, ha, hge, hlt⟩ := hown
  refine ⟨h.node_size, h.block_size, h.zero, chains, fun tree ↦ ?_,
    hspans.apart, hspans.pos, hspans.inside, hspans.marked⟩
  refine (hchains tree).congr fun free hfree ↦ update_of_ne ?_ _ _
  have hall := (hspans.perm (perm_chains chains tree)).apart
  have hapart : Apart Defrag.metadataNodeBlocks free a :=
    (List.pairwise_append.mp hall).2.2 free hfree a (List.mem_append_right _ ha)
  rcases hapart with hbefore | hafter
  · exact ne_of_lt ((Nat.lt_add_of_pos_right (by decide)).trans_le (hbefore.trans hge))
  · exact ne_of_gt (hlt.trans_le hafter)

theorem Sound.step (hpos : 0 < blockSize) (event : NodeEvent) :
    (st.step event).Sound blockSize := by
  cases event with
  | alloc tree => exact h.alloc hpos tree
  | write lba block =>
    rw [NodeState.step]
    split_ifs with hown
    · exact h.write hown block
    · exact h

theorem Sound.run (hpos : 0 < blockSize) (events : List NodeEvent) :
    (st.run events).Sound blockSize := by
  induction events generalizing st with
  | nil => exact h
  | cons event events ih => exact ih (h.step hpos event)

end

/-- The node size that was stored is the size of the nodes. -/
theorem sound_created (hsize : Defrag.metadataNodeBlocks * blockSize < 2 ^ 16)
    (hblock : 0 < totalSize / blockSize) : (created blockSize totalSize).Sound blockSize where
  node_size tree := by
    cases tree <;> exact Nat.mod_eq_of_lt hsize
  block_size := rfl
  zero := by
    refine decide_eq_true ⟨Or.inl ?_, ?_⟩
    · rw [reservedBlocks]
      omega
    · omega
  spans := by
    refine ⟨fun _ ↦ [], fun tree ↦ ?_, List.Pairwise.nil, ?_, ?_, ?_⟩
    · cases tree <;> rfl
    all_goals exact fun a ha ↦ absurd ha List.not_mem_nil

/-- What is found free in a created volume lies between the reserved blocks and the last one. -/
theorem found_created {k : ℕ} (hk : 0 < k)
    (hfound : (createdVolume blockSize totalSize).bitmapFindFree k = some start) :
    reservedBlocks blockSize totalSize ≤ start ∧ start + k + 1 ≤ totalSize / blockSize := by
  obtain ⟨hfree, hinside⟩ := Volume.bitmapFindFree_some hfound
  have htotal : (createdVolume blockSize totalSize).totalBlocks = totalSize / blockSize := rfl
  rw [htotal] at hinside
  have hbit (b : ℕ) (hge : start ≤ b) (hlt : b < start + k) :
      ¬(b < reservedBlocks blockSize totalSize ∨ b = totalSize / blockSize - 1) := by
    have hclear := of_decide_eq_false (hfree b hge hlt)
    exact fun h ↦ hclear ⟨h, by omega⟩
  have hfirst := hbit start le_rfl (by omega)
  have hlast := hbit (start + k - 1) (by omega) (by omega)
  omega

/-- The blocks left free lie in a row from the hint on. -/
theorem roomy_created {k : ℕ} (hk : k ≤ freeBlocks blockSize totalSize) (hpos : 0 < k) :
    (createdVolume blockSize totalSize).Roomy k := by
  rw [freeBlocks] at hk
  have hnext : (createdVolume blockSize totalSize).nextFreeLba = reservedBlocks blockSize totalSize :=
    rfl
  have htotal : (createdVolume blockSize totalSize).totalBlocks = totalSize / blockSize := rfl
  rw [Volume.Roomy, hnext, htotal]
  refine ⟨fun b hge hlt ↦ decide_eq_false fun h ↦ ?_, by omega⟩
  have := h.1
  omega

/-- The first call finds an empty free list. -/
theorem btreeAllocNode_created :
    btreeAllocNode ⟨createdVolume blockSize totalSize, createdHeader blockSize⟩ =
      allocClump ⟨createdVolume blockSize totalSize, createdHeader blockSize⟩ := by
  rw [btreeAllocNode]
  simp only
  rw [if_neg fun h ↦ h.1 rfl]

section

variable (hcramped : freeBlocks blockSize totalSize < blocksPerNode blockSize)
include hcramped

/-- With less room than one node takes, no call hands one out. -/
theorem alloc_cramped (tree : MetaTree) :
    (created blockSize totalSize).alloc tree = created blockSize totalSize := by
  have hhdr : (created blockSize totalSize).hdr tree = createdHeader blockSize := by
    cases tree <;> rfl
  have hrun : btreeAllocNode ⟨createdVolume blockSize totalSize, createdHeader blockSize⟩ =
      .error .noSpc ⟨createdVolume blockSize totalSize, createdHeader blockSize⟩ := by
    rw [btreeAllocNode_created]
    rcases allocClump_stride
      ⟨createdVolume blockSize totalSize, createdHeader blockSize⟩ rfl with
      ⟨start, n, ctx', -, -, hclump⟩ | ⟨hrun, -⟩
    · have hsize : blocksPerNode blockSize ≤ n * blocksPerNode blockSize :=
        Nat.le_mul_of_pos_left _ hclump.pos
      have hone : 1 ≤ blocksPerNode blockSize := le_max_right _ _
      have hroom := found_created (k := n * blocksPerNode blockSize) (by omega) hclump.found
      rw [freeBlocks] at hcramped
      omega
    · exact hrun
  rw [alloc, hhdr, show (created blockSize totalSize).vol = createdVolume blockSize totalSize from rfl,
    hrun]
  cases tree <;> rfl

theorem run_cramped (events : List NodeEvent) :
    (created blockSize totalSize).run events = created blockSize totalSize := by
  induction events with
  | nil => rfl
  | cons event events ih =>
    have hstep : (created blockSize totalSize).step event = created blockSize totalSize := by
      cases event with
      | alloc tree => exact alloc_cramped hcramped tree
      | write lba block =>
        have hnone : ¬(created blockSize totalSize).Owns lba := by
          rintro ⟨a, ha, -⟩
          exact List.not_mem_nil ha
        rw [step, if_neg hnone]
    rw [run, List.foldl_cons, hstep]
    exact ih

end

/-- A free list that starts inside the volume gives its head, whatever the block holds. -/
theorem btreeAllocNode_head (ctx : TreeCtx)
    (hlist : ctx.hdr.freeNodeLba ≠ 0 ∧ 0 < ctx.hdr.freeNodes)
    (hlt : ctx.hdr.freeNodeLba < ctx.vol.totalBlocks) :
    ∃ ctx', btreeAllocNode ctx = .ok ctx.hdr.freeNodeLba ctx' := by
  rw [btreeAllocNode]
  simp only
  rw [if_pos hlist, if_neg (Nat.not_le_of_lt hlt), Volume.blockRead, if_pos hlt]
  simp only
  split_ifs
  · exact ⟨_, rfl⟩
  · exact ⟨_, rfl⟩

section

variable (hcut : 2 ^ 16 ≤ Defrag.metadataNodeBlocks * blockSize)
include hcut

/-- A node size that was cut off gives six blocks to a node at most. -/
theorem blocksPerNode_le : blocksPerNode blockSize ≤ 6 := by
  have hsize : (createdHeader blockSize).nodeSize =
      Defrag.metadataNodeBlocks * blockSize % 2 ^ 16 := rfl
  rw [Defrag.metadataNodeBlocks] at hcut hsize
  have hseven : (createdHeader blockSize).nodeSize < 7 * blockSize := by omega
  have hdiv := Nat.div_lt_of_lt_mul (Nat.mul_comm 7 blockSize ▸ hseven)
  rw [blocksPerNode]
  omega

/-- With a node size that was cut off and room for a node, two calls for the metadata tree hand out
nodes that share a block, or the first one hands out a node that is not all its own. -/
theorem exists_overlap (hroom : blocksPerNode blockSize ≤ freeBlocks blockSize totalSize) :
    ∃ events, ¬((created blockSize totalSize).run events).NodesApart := by
  have hone : 1 ≤ blocksPerNode blockSize := le_max_right _ _
  have hsix := blocksPerNode_le hcut
  have height : Defrag.metadataNodeBlocks = 8 := rfl
  have hwidth : max ((createdHeader blockSize).nodeSize / blockSize) 1 = blocksPerNode blockSize :=
    rfl
  rcases allocClump_stride ⟨createdVolume blockSize totalSize, createdHeader blockSize⟩ hwidth
    with ⟨start, n, ctx', hrun, hle, hclump⟩ | ⟨-, hnone⟩
  · have hsize : blocksPerNode blockSize ≤ n * blocksPerNode blockSize :=
      Nat.le_mul_of_pos_left _ hclump.pos
    have hfound := found_created (k := n * blocksPerNode blockSize) (by omega) hclump.found
    have htotal : ctx'.vol.totalBlocks = totalSize / blockSize := hclump.totalBlocks_eq
    have halloc : (created blockSize totalSize).alloc .metadata =
        ⟨ctx'.vol, ctx'.hdr, createdHeader blockSize, [start]⟩ := by
      rw [alloc, hdr, show (created blockSize totalSize).vol = createdVolume blockSize totalSize from rfl,
        show (created blockSize totalSize).metaHdr = createdHeader blockSize from rfl,
        btreeAllocNode_created, hrun]
      rfl
    rcases Nat.lt_or_ge 1 n with hmany | hsingle
    · -- The second node comes off the free list, one short stride after the first.
      obtain ⟨hhead, hfree⟩ := hclump.listed hmany
      have hnodes : 0 < ctx'.hdr.freeNodes := by
        have hclumps : clumpNodes ⟨createdVolume blockSize totalSize, createdHeader blockSize⟩ = 64 :=
          rfl
        rw [hfree, show (createdHeader blockSize).freeNodes = 0 from rfl, Nat.zero_add,
          Nat.mod_eq_of_lt (by omega)]
        omega
      have htwo : 2 * blocksPerNode blockSize ≤ n * blocksPerNode blockSize :=
        Nat.mul_le_mul_right _ hmany
      obtain ⟨ctx'', hsecond⟩ := btreeAllocNode_head ctx' ⟨by omega, hnodes⟩ (by omega)
      refine ⟨[.alloc .metadata, .alloc .metadata], fun h ↦ ?_⟩
      have hpair := h.apart
      rw [run, List.foldl_cons, step, halloc, List.foldl_cons, step, alloc, hdr, hsecond] at hpair
      have hapart := (List.pairwise_cons.mp hpair).1 start List.mem_cons_self
      rw [hhead, Apart] at hapart
      omega
    · -- The volume ends, or a free block follows, right behind the only node.
      obtain rfl : n = 1 := le_antisymm hsingle hclump.pos
      refine ⟨[.alloc .metadata], fun h ↦ ?_⟩
      rw [run, List.foldl_cons, step, halloc] at h
      have hinside := h.inside start List.mem_cons_self
      have hmarked := h.marked start List.mem_cons_self (start + blocksPerNode blockSize)
        (Nat.le_add_right _ _) (by omega)
      change ctx'.vol.bitmap _ = true at hmarked
      change _ ≤ ctx'.vol.totalBlocks at hinside
      rw [hclump.marks, if_neg (by omega)] at hmarked
      have hset := (of_decide_eq_true hmarked).1
      omega
  · have hfound := Volume.bitmapFindFree_roomy hone (roomy_created hroom hone)
    exact absurd (hfound.symm.trans (allocBlocks_eq_none hnone)) (Option.some_ne_none _)

end

/-- The nodes of the metadata trees of a created volume lie apart in every run exactly when the node
size was stored whole, or there is not even room for a node with the stride that is left. -/
theorem nodes_apart_iff (blockSize totalSize : ℕ) :
    (∀ events, ((created blockSize totalSize).run events).NodesApart) ↔
      Defrag.metadataNodeBlocks * blockSize < 2 ^ 16 ∨
        freeBlocks blockSize totalSize < blocksPerNode blockSize := by
  constructor
  · intro hall
    by_contra h
    rw [not_or, Nat.not_lt, Nat.not_lt] at h
    obtain ⟨events, hoverlap⟩ := exists_overlap h.1 h.2
    exact hoverlap (hall events)
  · intro h events
    by_cases hcramped : freeBlocks blockSize totalSize < blocksPerNode blockSize
    · rw [run_cramped hcramped]
      exact ⟨List.Pairwise.nil, fun a ha ↦ absurd ha List.not_mem_nil,
        fun a ha ↦ absurd ha List.not_mem_nil⟩
    · have hblock : 0 < totalSize / blockSize := by
        have hone : 1 ≤ blocksPerNode blockSize := le_max_right _ _
        rw [freeBlocks] at hcramped
        omega
      have hpos : 0 < blockSize := Nat.pos_of_ne_zero fun hzero ↦ by
        rw [hzero, Nat.div_zero] at hblock
        cases hblock
      exact ((sound_created (h.resolve_right hcramped) hblock).run hpos events).nodesApart

/-- With blocks of 8192 bytes the node size is stored as zero: the stride is one block, and the
second node begins in the second block of the first. -/
theorem nodes_apart_iff_cut :
    ((created 8192 (8192 * 256)).run [.alloc .metadata, .alloc .metadata]).nodes = [18, 17] ∧
      ¬((created 8192 (8192 * 256)).run [.alloc .metadata, .alloc .metadata]).NodesApart := by
  have hnodes : ((created 8192 (8192 * 256)).run [.alloc .metadata, .alloc .metadata]).nodes =
      [18, 17] := by
    decide +kernel
  refine ⟨hnodes, fun h ↦ ?_⟩
  have hpair := h.apart
  rw [hnodes] at hpair
  have hapart := (List.pairwise_cons.mp hpair).1 17 List.mem_cons_self
  rw [Apart, Defrag.metadataNodeBlocks] at hapart
  omega

end NodeState

end Obmafs3.NodeSpans
