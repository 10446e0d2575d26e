import Obmafs3.Btree
import Mathlib.Data.Nat.Count

/-!
# Node allocation keeps the volume sound

`Allocated` is what the tree code relies on between calls: the blocks in use are inside the volume
and marked in the bitmap, and the free nodes of the tree form a chain of other marked blocks.
`btreeAllocNode_spec` says that an allocation hands out a block that was not in use and changes no
block that was, or reports that the free list and the bitmap are both exhausted and changes
nothing.
-/

set_option autoImplicit false

namespace Obmafs3

/-! ### Running operations -/

section Op

variable {σ α β : Type} {x : Op σ α} {f : α → Op σ β} {s s' : σ} {a : α} {e : ErrorCode}

theorem bind_ok (hx : x s = .ok a s') : (x >>= f) s = f a s' := by
  simp only [bind, EStateM.bind, hx]

theorem bind_error (hx : x s = .error e s') : (x >>= f) s = .error e s' := by
  simp only [bind, EStateM.bind, hx]

theorem get_bind (f : σ → Op σ β) (s : σ) : (get >>= f) s = f s s := rfl

theorem modify_bind (g : σ → σ) (f : PUnit → Op σ β) (s : σ) :
    ((modify g : Op σ PUnit) >>= f) s = f () (g s) := rfl

end Op

/-! ### Writes -/

/-- The state after a block was written. -/
def TreeCtx.write (ctx : TreeCtx) (lba : ℕ) (block : Block) : TreeCtx :=
  { ctx with vol := { ctx.vol with disk := Function.update ctx.vol.disk lba block } }

@[simp] theorem TreeCtx.write_disk (ctx : TreeCtx) (lba : ℕ) (block : Block) :
    (ctx.write lba block).vol.disk = Function.update ctx.vol.disk lba block := rfl

variable {ctx : TreeCtx} {used : Set ℕ} {disk : ℕ → Block} {lba : ℕ} {start n w : ℕ} {vol : Volume}

theorem blockRead_ok (hlba : lba < ctx.vol.totalBlocks) :
    blockRead lba ctx = .ok (ctx.vol.disk lba) ctx := by
  simp [blockRead, Volume.blockRead, hlba]

theorem blockWrite_ok (block : Block) (hlba : lba < ctx.vol.totalBlocks) :
    blockWrite lba block ctx = .ok () (ctx.write lba block) := by
  simp [blockWrite, Volume.blockWrite, hlba, TreeCtx.write]

/-! ### The free list -/

/-- A chain of free nodes from a head, each one naming the next and the last one naming block
zero. -/
def FreeChain (disk : ℕ → Block) : (head : ℕ) → List ℕ → Prop
  | head, [] => head = 0
  | head, lba :: chain => head = lba ∧ ∃ next, disk lba = .freeNode next ∧ FreeChain disk next chain

variable {chain : List ℕ} {head : ℕ}

theorem FreeChain.congr {disk disk' : ℕ → Block} (hchain : FreeChain disk head chain)
    (hsame : ∀ lba ∈ chain, disk' lba = disk lba) : FreeChain disk' head chain := by
  induction chain generalizing head with
  | nil => exact hchain
  | cons lba chain ih =>
    obtain ⟨rfl, next, hnext, hrest⟩ := hchain
    exact ⟨rfl, next, by rw [hsame _ List.mem_cons_self, hnext],
      ih hrest fun lba hlba ↦ hsame lba (List.mem_cons_of_mem _ hlba)⟩

/-- The blocks in `used` and the free nodes are marked in the bitmap, inside the volume and apart
from each other. Block zero is the superblock. A node takes one block. -/
structure Allocated (ctx : TreeCtx) (used : Set ℕ) : Prop where
  zero_mem : 0 ∈ used
  used_lt : ∀ lba ∈ used, lba < ctx.vol.totalBlocks
  used_set : ∀ lba ∈ used, ctx.vol.bitmap lba = true
  node_size : ctx.hdr.nodeSize / ctx.vol.blockSize ≤ 1
  chain : ∃ chain, FreeChain ctx.vol.disk ctx.hdr.freeNodeLba chain ∧ chain.Nodup ∧
    ∀ lba ∈ chain, lba ∉ used ∧ lba < ctx.vol.totalBlocks ∧ ctx.vol.bitmap lba = true

/-- No node can be had: the free list is empty and every block is allocated. -/
def Exhausted (ctx : TreeCtx) : Prop :=
  ¬(ctx.hdr.freeNodeLba ≠ 0 ∧ 0 < ctx.hdr.freeNodes) ∧
    ∀ lba < ctx.vol.totalBlocks, ctx.vol.bitmap lba = true

/-- How many nodes a fresh clump has. -/
def clumpNodes (ctx : TreeCtx) : ℕ :=
  let configured :=
    if ctx.hdr.deduplication then ctx.vol.dedupClumpSize else ctx.vol.btreeClumpSize
  if configured = 0 then (if ctx.hdr.deduplication then 1024 else 64) else configured

theorem clumpNodes_pos (ctx : TreeCtx) : 0 < clumpNodes ctx := by
  unfold clumpNodes
  simp only
  split_ifs <;> omega

/-- There is room at the allocation hint for `k` more clumps. -/
def Spacious (ctx : TreeCtx) (k : ℕ) : Prop :=
  ctx.vol.Roomy (k * clumpNodes ctx)

theorem Spacious.mono {k m : ℕ} (hspacious : Spacious ctx k) (hle : m ≤ k) : Spacious ctx m :=
  Volume.Roomy.mono hspacious (Nat.mul_le_mul_right _ hle)

theorem Spacious.not_exhausted {k : ℕ} (hspacious : Spacious ctx (k + 1)) : ¬Exhausted ctx := by
  rintro ⟨-, hfull⟩
  obtain ⟨hfree, hle⟩ := hspacious
  have hpos := clumpNodes_pos ctx
  have hroom : 0 < (k + 1) * clumpNodes ctx := Nat.mul_pos (Nat.succ_pos k) hpos
  have hset := hfull ctx.vol.nextFreeLba (by omega)
  rw [hfree _ le_rfl (by omega)] at hset
  cases hset

/-- The number of free blocks. -/
def freeBlockCount (vol : Volume) : ℕ :=
  Nat.count (fun lba ↦ vol.bitmap lba = false) vol.totalBlocks

/-- How many nodes can be had: the free nodes and the free blocks. -/
def nodesAtHand (ctx : TreeCtx) : ℕ := ctx.hdr.freeNodes + freeBlockCount ctx.vol

/-- The free list is as long as the header says, and every allocated block is in use or on the free
list. The clump sizes are 32-bit numbers. -/
structure Balanced (ctx : TreeCtx) (used : Set ℕ) : Prop where
  clump_lt : ctx.vol.btreeClumpSize < 2 ^ 32 ∧ ctx.vol.dedupClumpSize < 2 ^ 32
  chain : ∃ chain, FreeChain ctx.vol.disk ctx.hdr.freeNodeLba chain ∧
    chain.length = ctx.hdr.freeNodes ∧ (∀ lba ∈ chain, lba ∉ used) ∧
    ∀ lba < ctx.vol.totalBlocks, ctx.vol.bitmap lba = true → lba ∈ used ∨ lba ∈ chain

/-- What an allocation leaves alone: the configuration, the root and the blocks in use. -/
structure Untouched (used : Set ℕ) (ctx ctx' : TreeCtx) : Prop where
  root : ctx'.hdr.rootNodeLba = ctx.hdr.rootNodeLba
  block_size : ctx'.vol.blockSize = ctx.vol.blockSize
  total_blocks : ctx'.vol.totalBlocks = ctx.vol.totalBlocks
  clump : clumpNodes ctx' = clumpNodes ctx
  node_size : ctx'.hdr.nodeSize = ctx.hdr.nodeSize
  disk : ∀ lba ∈ used, ctx'.vol.disk lba = ctx.vol.disk lba

theorem FreeChain.unique {chain chain' : List ℕ} (hchain : FreeChain disk head chain)
    (hchain' : FreeChain disk head chain') (hzero : 0 ∉ chain) (hzero' : 0 ∉ chain') :
    chain = chain' := by
  induction chain generalizing head chain' with
  | nil =>
    cases chain' with
    | nil => rfl
    | cons lba chain' =>
      obtain rfl : head = 0 := hchain
      exact absurd hchain'.1 fun h ↦ hzero' (h ▸ List.mem_cons_self)
  | cons lba chain ih =>
    obtain ⟨rfl, next, hnext, hrest⟩ := hchain
    cases chain' with
    | nil =>
      obtain rfl : head = 0 := hchain'
      exact absurd List.mem_cons_self hzero
    | cons lba' chain' =>
      obtain ⟨rfl, next', hnext', hrest'⟩ := hchain'
      obtain rfl : next = next' := by
        rw [hnext] at hnext'
        exact Block.freeNode.inj hnext'
      rw [ih hrest hrest' (fun h ↦ hzero (List.mem_cons_of_mem _ h))
        fun h ↦ hzero' (List.mem_cons_of_mem _ h)]

section

variable (hbalanced : Balanced ctx used)
include hbalanced

/-- With an empty free list no node is free. -/
theorem Balanced.freeNodes_eq_zero (hzero : 0 ∈ used)
    (hempty : ¬(ctx.hdr.freeNodeLba ≠ 0 ∧ 0 < ctx.hdr.freeNodes)) : ctx.hdr.freeNodes = 0 := by
  obtain ⟨chain, hchain, hlength, hapart, -⟩ := hbalanced.chain
  cases chain with
  | nil => exact hlength.symm
  | cons lba chain =>
    have hne : lba ≠ 0 := fun h ↦ hapart lba List.mem_cons_self (h ▸ hzero)
    by_contra hpos
    exact hempty ⟨hchain.1 ▸ hne, Nat.pos_of_ne_zero hpos⟩

theorem Balanced.clumpNodes_le : clumpNodes ctx ≤ 2 ^ 32 := by
  have hlt := hbalanced.clump_lt
  unfold clumpNodes
  simp only
  split_ifs <;> omega

theorem Balanced.freeNodeLba_eq_zero (hnodes : ctx.hdr.freeNodes = 0) :
    ctx.hdr.freeNodeLba = 0 := by
  obtain ⟨chain, hchain, hlength, -⟩ := hbalanced.chain
  obtain rfl : chain = [] := List.length_eq_zero_iff.mp (hlength.trans hnodes)
  exact hchain

end

theorem Exhausted.nodesAtHand (hexhausted : Exhausted ctx) (hbalanced : Balanced ctx used)
    (hzero : 0 ∈ used) : nodesAtHand ctx = 0 := by
  have hcount : freeBlockCount ctx.vol = 0 := by
    refine Nat.count_of_forall_not fun lba hlba ↦ ?_
    rw [hexhausted.2 lba hlba]
    exact Bool.noConfusion
  rw [Obmafs3.nodesAtHand, hbalanced.freeNodes_eq_zero hzero hexhausted.1, hcount]

theorem exhausted_of_nodesAtHand (hnone : nodesAtHand ctx = 0) : Exhausted ctx := by
  obtain ⟨hnodes, hblocks⟩ := Nat.add_eq_zero_iff.mp hnone
  refine ⟨fun h ↦ by omega, fun lba hlba ↦ ?_⟩
  exact Bool.eq_true_of_not_eq_false (Nat.count_iff_forall_not.mp hblocks lba hlba)

/-- A write to a block in use. -/
theorem Balanced.write (hbalanced : Balanced ctx used) (hlba : lba ∈ used) (block : Block) :
    Balanced (ctx.write lba block) used where
  clump_lt := hbalanced.clump_lt
  chain := by
    obtain ⟨chain, hchain, hlength, hapart, hall⟩ := hbalanced.chain
    refine ⟨chain, hchain.congr fun free hfree ↦ ?_, hlength, hapart, hall⟩
    have hne : free ≠ lba := fun h ↦ hapart free hfree (h ▸ hlba)
    simp [hne]

section

variable (hsound : Allocated ctx used)
include hsound

theorem Allocated.write (hlba : lba ∈ used) (block : Block) :
    Allocated (ctx.write lba block) used where
  zero_mem := hsound.zero_mem
  used_lt := hsound.used_lt
  used_set := hsound.used_set
  node_size := hsound.node_size
  chain := by
    obtain ⟨chain, hchain, hnodup, hapart⟩ := hsound.chain
    refine ⟨chain, hchain.congr fun free hfree ↦ ?_, hnodup, hapart⟩
    have hne : free ≠ lba := fun h ↦ (hapart free hfree).1 (h ▸ hlba)
    simp [hne]

theorem Allocated.blockWrite (hlba : lba ∈ used) (block : Block) :
    blockWrite lba block ctx = .ok () (ctx.write lba block) :=
  blockWrite_ok block (hsound.used_lt lba hlba)

/-- The free list starts inside the volume, so writing the header keeps it. -/
theorem Allocated.btreeHeaderWrite {hdrLba : ℕ} (hhdr : hdrLba ∈ used) :
    btreeHeaderWrite hdrLba ctx = .ok () (ctx.write hdrLba (.treeHeader ctx.hdr)) := by
  have hinside : ¬(ctx.hdr.freeNodeLba ≠ 0 ∧ ctx.vol.totalBlocks ≤ ctx.hdr.freeNodeLba) := by
    obtain ⟨chain, hchain, -, hapart⟩ := hsound.chain
    cases chain with
    | nil => simp [show ctx.hdr.freeNodeLba = 0 from hchain]
    | cons lba chain =>
      obtain ⟨hhead, -⟩ := hchain
      have hlt := (hapart lba List.mem_cons_self).2.1
      omega
  unfold Obmafs3.btreeHeaderWrite
  rw [get_bind, if_neg hinside]
  exact hsound.blockWrite hhdr _

end

/-! ### A fresh clump -/

theorem not_roomy_of_allocBlocks (hn : 1 ≤ n) (halloc : vol.allocBlocks n = none) :
    ¬vol.Roomy n := by
  intro hroomy
  have hsome := Volume.bitmapFindFree_roomy hn hroomy
  rw [allocBlocks_eq_none halloc] at hsome
  cases hsome

/-- The loop that halves the clump ends with some whole number of nodes, or with no room for one. A
volume with room serves the whole clump. -/
theorem allocShrinking_stride (vol : Volume) (hwidth : 0 < w) {fuel k : ℕ} (hk : 1 ≤ k)
    (hfuel : k ≤ fuel) :
    (∃ start n vol', allocShrinking w vol fuel (k * w) = some (start, n * w, vol') ∧ 1 ≤ n ∧
        n ≤ k ∧ vol.allocBlocks (n * w) = some (start, vol') ∧ (vol.Roomy (k * w) → n = k)) ∨
      allocShrinking w vol fuel (k * w) = none ∧ vol.allocBlocks w = none ∧ ¬vol.Roomy (k * w) := by
  induction fuel generalizing k with
  | zero => omega
  | succ fuel ih =>
    rw [allocShrinking]
    by_cases hmany : w < k * w
    · rw [if_pos hmany]
      have htwo : 1 < k := by
        by_contra hone
        obtain rfl : k = 1 := by omega
        omega
      cases halloc : vol.allocBlocks (k * w) with
      | some found =>
        exact Or.inl ⟨found.1, k, found.2, rfl, hk, le_rfl, halloc, fun _ ↦ rfl⟩
      | none =>
        have hcramped := not_roomy_of_allocBlocks (by omega) halloc
        have hhalf : max (k * w / 2 / w * w) w = k / 2 * w := by
          rw [Nat.div_div_eq_div_mul, Nat.mul_comm 2 w, ← Nat.div_div_eq_div_mul,
            Nat.mul_div_cancel k hwidth]
          exact max_eq_left (Nat.le_mul_of_pos_left w (by omega))
        rw [hhalf]
        rcases ih (show 1 ≤ k / 2 by omega) (by omega) with
          ⟨start, n, vol', hrun, hn, hle, hfound, -⟩ | ⟨hrun, hnone, -⟩
        · exact Or.inl ⟨start, n, vol', hrun, hn, by omega, hfound, fun h ↦ absurd h hcramped⟩
        · exact Or.inr ⟨hrun, hnone, hcramped⟩
    · have hone : k * w = w := le_antisymm (Nat.le_of_not_lt hmany) (Nat.le_mul_of_pos_left w hk)
      rw [if_neg hmany]
      cases halloc : vol.allocBlocks w with
      | some found =>
        refine Or.inl ⟨found.1, 1, found.2, ?_, le_rfl, hk, ?_, fun _ ↦ ?_⟩
        · rw [Option.map_some, hone, Nat.one_mul]
        · rw [Nat.one_mul, halloc]
        · exact (Nat.mul_right_cancel hwidth (hone.trans (Nat.one_mul w).symm)).symm
      | none => exact Or.inr ⟨rfl, rfl, by rw [hone]; exact not_roomy_of_allocBlocks hwidth halloc⟩

/-- Linking a clump writes the first block of each node after the first, and nothing else. -/
theorem linkClump_stride (vol : Volume) (oldHead : ℕ) (hwidth : 0 < w) {nodes i : ℕ}
    (hi : i < nodes) (hinside : start + nodes * w ≤ vol.totalBlocks) :
    ∃ disk, linkClump start w nodes oldHead i vol = ({ vol with disk := disk }, true) ∧
      (∀ lba, lba < start + w ∨ start + i * w < lba → disk lba = vol.disk lba) ∧
      ∀ j, 1 ≤ j → j ≤ i →
        disk (start + j * w) = .freeNode (if j = nodes - 1 then oldHead else start + (j + 1) * w) := by
  induction i generalizing vol with
  | zero => exact ⟨vol.disk, rfl, fun _ _ ↦ rfl, by omega⟩
  | succ i ih =>
    have hlow : w ≤ (i + 1) * w := Nat.le_mul_of_pos_left w (Nat.succ_pos i)
    have hhigh : (i + 2) * w ≤ nodes * w := Nat.mul_le_mul_right w hi
    have hnext : (i + 2) * w = (i + 1) * w + w := Nat.succ_mul _ _
    have hlast : (i + 1) * w = i * w + w := Nat.succ_mul _ _
    have hwrite : start + (i + 1) * w < vol.totalBlocks := by omega
    obtain ⟨disk, hrun, hframe, hlinks⟩ := ih
      { vol with
        disk := Function.update vol.disk (start + (i + 1) * w)
          (.freeNode (if i + 1 = nodes - 1 then oldHead else start + (i + 2) * w)) }
      (Nat.lt_of_succ_lt hi) hinside
    refine ⟨disk, ?_, fun lba hlba ↦ ?_, fun j hj hji ↦ ?_⟩
    · rw [linkClump, Volume.blockWrite, if_pos hwrite]
      exact hrun
    · rw [hframe lba (by omega)]
      exact Function.update_of_ne (by omega) _ _
    · rcases Nat.lt_or_ge i j with hij | hij
      · obtain rfl : j = i + 1 := by omega
        rw [hframe _ (Or.inr (by omega))]
        exact Function.update_self _ _ _
      · exact hlinks j hj hij

/-- The links of a clump lead through its nodes to the free list there was. -/
theorem freeChain_stride {oldHead first : ℕ} (hchain : FreeChain disk oldHead chain)
    (hlinks : ∀ j < n, disk (first + j * w) =
      .freeNode (if j + 1 = n then oldHead else first + (j + 1) * w)) (hn : 0 < n) :
    FreeChain disk first (List.range' first n w ++ chain) := by
  induction n generalizing first with
  | zero => omega
  | succ n ih =>
    rw [List.range'_succ, List.cons_append]
    have hhead := hlinks 0 (Nat.succ_pos n)
    rw [Nat.zero_mul, Nat.add_zero] at hhead
    refine ⟨rfl, _, hhead, ?_⟩
    rcases Nat.eq_zero_or_pos n with rfl | hpos
    · simpa using hchain
    · rw [if_neg (by omega), Nat.zero_add, Nat.one_mul]
      refine ih (fun j hj ↦ ?_) hpos
      have h := hlinks (j + 1) (Nat.succ_lt_succ hj)
      have hthere (i : ℕ) : first + (i + 1) * w = first + w + i * w := by
        rw [Nat.succ_mul]
        omega
      rw [hthere, hthere] at h
      rw [h]
      exact congrArg Block.freeNode (if_congr Nat.succ_inj rfl rfl)

theorem bitmapSet_eq (hinside : start + n ≤ vol.totalBlocks) (lba : ℕ) :
    (vol.bitmapSet start n).bitmap lba =
      if start ≤ lba ∧ lba < start + n then true else vol.bitmap lba := by
  simp only [Volume.bitmapSet]
  by_cases h : start ≤ lba ∧ lba < start + n
  · rw [if_pos h, if_pos ⟨h.1, h.2, by omega⟩]
  · rw [if_neg h, if_neg fun hc ↦ h ⟨hc.1, hc.2.1⟩]

theorem count_congr {p q : ℕ → Prop} [DecidablePred p] [DecidablePred q] {n : ℕ}
    (hsame : ∀ k < n, (p k ↔ q k)) : Nat.count p n = Nat.count q n :=
  le_antisymm (Nat.count_mono_left fun k hk ↦ (hsame k hk).mp)
    (Nat.count_mono_left fun k hk ↦ (hsame k hk).mpr)

/-- Marking `n` free blocks. -/
theorem count_bitmapSet (hinside : start + n ≤ vol.totalBlocks)
    (hfree : ∀ i, start ≤ i → i < start + n → vol.bitmap i = false) :
    Nat.count (fun lba ↦ (vol.bitmapSet start n).bitmap lba = false) vol.totalBlocks + n =
      Nat.count (fun lba ↦ vol.bitmap lba = false) vol.totalBlocks := by
  obtain ⟨rest, hrest⟩ := Nat.exists_eq_add_of_le hinside
  have hbit (lba : ℕ) := bitmapSet_eq hinside lba
  have hbefore : Nat.count (fun lba ↦ (vol.bitmapSet start n).bitmap lba = false) start =
      Nat.count (fun lba ↦ vol.bitmap lba = false) start := by
    refine count_congr fun lba hlba ↦ ?_
    rw [hbit, if_neg (by omega)]
  have hmarked : Nat.count (fun i ↦ (vol.bitmapSet start n).bitmap (start + i) = false) n = 0 := by
    refine Nat.count_of_forall_not fun i hi ↦ ?_
    rw [hbit, if_pos (by omega)]
    exact Bool.noConfusion
  have hwas : Nat.count (fun i ↦ vol.bitmap (start + i) = false) n = n :=
    Nat.count_of_forall fun i hi ↦ hfree _ (by omega) (by omega)
  have hafter : Nat.count (fun i ↦ (vol.bitmapSet start n).bitmap (start + n + i) = false) rest =
      Nat.count (fun i ↦ vol.bitmap (start + n + i) = false) rest := by
    refine count_congr fun i _ ↦ ?_
    rw [hbit, if_neg (by omega)]
  rw [hrest, Nat.count_add, Nat.count_add, Nat.count_add, Nat.count_add, hbefore, hmarked, hwas,
    hafter]
  omega

/-- What an allocation that succeeds leaves behind. -/
structure AllocatedNode (used : Set ℕ) (ctx : TreeCtx) (lba : ℕ) (ctx' : TreeCtx) : Prop where
  fresh : lba ∉ used
  sound : Allocated ctx' (insert lba used)
  untouched : Untouched used ctx ctx'
  had_room : ¬Exhausted ctx
  spacious : ∀ k, Spacious ctx (k + 1) → Spacious ctx' k
  marks : ∀ lba, ctx.vol.bitmap lba = true → ctx'.vol.bitmap lba = true
  balanced : Balanced ctx used →
    Balanced ctx' (insert lba used) ∧ nodesAtHand ctx = nodesAtHand ctx' + 1

/-- The volume after `n` blocks were marked. -/
theorem roomy_alloc {n k start : ℕ} (hroomy : vol.Roomy (n + k)) (hn : 0 < n)
    (hfound : vol.bitmapFindFree n = some start) :
    Volume.Roomy
      { vol.bitmapSet start n with
        nextFreeLba := max vol.nextFreeLba (start + n)
        disk := disk } k := by
  have hfirst := Volume.bitmapFindFree_roomy hn (hroomy.mono (Nat.le_add_right n k))
  obtain rfl : vol.nextFreeLba = start := Option.some.inj (hfirst.symm.trans hfound)
  obtain ⟨hfree, hle⟩ := hroomy
  have hinside : vol.nextFreeLba + n ≤ vol.totalBlocks := by omega
  refine ⟨fun i hi hlt ↦ ?_, ?_⟩
  · change max vol.nextFreeLba (vol.nextFreeLba + n) ≤ i at hi
    change i < max vol.nextFreeLba (vol.nextFreeLba + n) + k at hlt
    change (vol.bitmapSet vol.nextFreeLba n).bitmap i = false
    rw [bitmapSet_eq hinside, if_neg (by omega)]
    exact hfree i (by omega) (by omega)
  · change max vol.nextFreeLba (vol.nextFreeLba + n) + k ≤ vol.totalBlocks
    omega

/-- A clump of one node. -/
theorem allocatedNode_one (hsound : Allocated ctx used)
    (hfound : ctx.vol.bitmapFindFree n = some start) (hn : 0 < n) {hdr : BtreeHeader}
    (hdisk : ∀ lba, ctx.vol.bitmap lba = true → disk lba = ctx.vol.disk lba)
    (hroot : hdr.rootNodeLba = ctx.hdr.rootNodeLba) (hsize : hdr.nodeSize = ctx.hdr.nodeSize)
    (hdedup : hdr.deduplication = ctx.hdr.deduplication)
    (hchain : ∃ chain, FreeChain disk hdr.freeNodeLba chain ∧ chain.Nodup ∧
      ∀ lba ∈ chain, lba ≠ start ∧ lba ∉ used ∧ lba < ctx.vol.totalBlocks ∧
      (start ≤ lba ∧ lba < start + n ∨ ctx.vol.bitmap lba = true))
    (hwhole : ctx.vol.Roomy (clumpNodes ctx) → n = clumpNodes ctx)
    (hledger : Balanced ctx used → ctx.hdr.freeNodes = 0 ∧ hdr.freeNodes = n - 1 ∧
      FreeChain disk hdr.freeNodeLba (List.range' (start + 1) (n - 1))) :
    AllocatedNode used ctx start
      { vol :=
          { ctx.vol.bitmapSet start n with
            nextFreeLba := max ctx.vol.nextFreeLba (start + n)
            disk := disk }
        hdr := hdr } := by
  obtain ⟨hfree, hinside⟩ := Volume.bitmapFindFree_some hfound
  have hstart : ctx.vol.bitmap start = false := hfree start le_rfl (by omega)
  have hbit (lba : ℕ) := bitmapSet_eq hinside lba
  have hclumps : clumpNodes
      { vol :=
          { ctx.vol.bitmapSet start n with
            nextFreeLba := max ctx.vol.nextFreeLba (start + n)
            disk := disk }
        hdr := hdr } = clumpNodes ctx := by
    simp only [clumpNodes, hdedup]
    rfl
  refine ⟨fun hused ↦ ?_, ⟨?_, ?_, ?_, ?_, ?_⟩, ⟨hroot, rfl, rfl, ?_, hsize, ?_⟩, ?_, ?_,
    fun lba hset ↦ ?_, fun hbalanced ↦ ?_⟩
  · rw [hsound.used_set start hused] at hstart
    cases hstart
  · exact Set.mem_insert_of_mem _ hsound.zero_mem
  · rintro lba (rfl | hused)
    · change lba < ctx.vol.totalBlocks
      omega
    · exact hsound.used_lt lba hused
  · rintro lba (rfl | hused)
    · change (ctx.vol.bitmapSet lba n).bitmap lba = true
      rw [hbit, if_pos (by omega)]
    · change (ctx.vol.bitmapSet start n).bitmap lba = true
      rw [hbit, hsound.used_set lba hused, ite_self]
  · change hdr.nodeSize / ctx.vol.blockSize ≤ 1
    rw [hsize]
    exact hsound.node_size
  · obtain ⟨chain, hlinks, hnodup, hapart⟩ := hchain
    refine ⟨chain, hlinks, hnodup, fun lba hlba ↦ ?_⟩
    obtain ⟨hne, hunused, hlt, hset⟩ := hapart lba hlba
    refine ⟨fun h ↦ h.elim hne hunused, hlt, ?_⟩
    change (ctx.vol.bitmapSet start n).bitmap lba = true
    rw [hbit]
    rcases hset with hset | hset
    · rw [if_pos hset]
    · rw [hset, ite_self]
  · exact hclumps
  · exact fun lba hused ↦ hdisk lba (hsound.used_set lba hused)
  · rintro ⟨-, hfull⟩
    rw [hfull start (by omega)] at hstart
    cases hstart
  · intro k hspacious
    have hpos := clumpNodes_pos ctx
    have hroomy : ctx.vol.Roomy (clumpNodes ctx + k * clumpNodes ctx) := by
      rw [Spacious, Nat.succ_mul, Nat.add_comm] at hspacious
      exact hspacious
    have hclump := hwhole (hroomy.mono (Nat.le_add_right _ _))
    rw [Spacious, hclumps]
    exact roomy_alloc (hclump ▸ hroomy) hn hfound
  · change (ctx.vol.bitmapSet start n).bitmap lba = true
    rw [hbit, hset, ite_self]
  · obtain ⟨hnodes, hnodes', hlinks⟩ := hledger hbalanced
    obtain ⟨chain, -, hlength, -, hall⟩ := hbalanced.chain
    obtain rfl : chain = [] := List.length_eq_zero_iff.mp (hlength.trans hnodes)
    refine ⟨⟨hbalanced.clump_lt, _, hlinks, ?_, fun lba hlba ↦ ?_,
      fun lba hlt hset ↦ ?_⟩, ?_⟩
    · rw [List.length_range', hnodes']
    · have hrange := List.mem_range'_1.mp hlba
      rintro (rfl | hused)
      · omega
      · have hset := hsound.used_set lba hused
        rw [hfree lba (by omega) (by omega)] at hset
        cases hset
    · change (ctx.vol.bitmapSet start n).bitmap lba = true at hset
      rw [hbit] at hset
      by_cases hin : start ≤ lba ∧ lba < start + n
      · rcases Nat.eq_or_lt_of_le hin.1 with rfl | hlt
        · exact Or.inl (Set.mem_insert _ _)
        · exact Or.inr (List.mem_range'_1.mpr (by omega))
      · rw [if_neg hin] at hset
        exact Or.inl (Set.mem_insert_of_mem _ ((hall lba hlt hset).resolve_right (by simp)))
    · have hcount := count_bitmapSet hinside hfree
      change ctx.hdr.freeNodes + Nat.count (fun lba ↦ ctx.vol.bitmap lba = false) ctx.vol.totalBlocks =
        hdr.freeNodes +
          Nat.count (fun lba ↦ (ctx.vol.bitmapSet start n).bitmap lba = false) ctx.vol.totalBlocks + 1
      omega

/-- The header after a clump of `n` nodes of `w` blocks was laid out. -/
def clumpHeader (w start n : ℕ) (hdr : BtreeHeader) : BtreeHeader :=
  if 1 < n then
    { hdr with
      freeNodeLba := start + w
      freeNodes := (hdr.freeNodes + (n - 1)) % 2 ^ 32 }
  else hdr

section

variable (w start n : ℕ) (hdr : BtreeHeader)

theorem clumpHeader_rootNodeLba : (clumpHeader w start n hdr).rootNodeLba = hdr.rootNodeLba := by
  rw [clumpHeader]
  split_ifs <;> rfl

theorem clumpHeader_nodeSize : (clumpHeader w start n hdr).nodeSize = hdr.nodeSize := by
  rw [clumpHeader]
  split_ifs <;> rfl

theorem clumpHeader_deduplication :
    (clumpHeader w start n hdr).deduplication = hdr.deduplication := by
  rw [clumpHeader]
  split_ifs <;> rfl

end

/-- A clump is had in some size, with its nodes after the first before the free list there was, or
there is no room for a single node. -/
theorem allocClump_cases {ctx : TreeCtx}
    (hwidth : max (ctx.hdr.nodeSize / ctx.vol.blockSize) 1 = w) :
    (∃ start n disk, allocClump ctx = .ok start
        { vol :=
            { ctx.vol.bitmapSet start (n * w) with
              nextFreeLba := max ctx.vol.nextFreeLba (start + n * w)
              disk := disk }
          hdr := clumpHeader w start n ctx.hdr } ∧
      1 ≤ n ∧ n ≤ clumpNodes ctx ∧ ctx.vol.bitmapFindFree (n * w) = some start ∧
      (ctx.vol.Roomy (clumpNodes ctx * w) → n = clumpNodes ctx) ∧
      (∀ b, b < start + w ∨ start + n * w ≤ b → disk b = ctx.vol.disk b) ∧
      ∀ chain, FreeChain disk ctx.hdr.freeNodeLba chain →
        FreeChain disk (clumpHeader w start n ctx.hdr).freeNodeLba
          (List.range' (start + w) (n - 1) w ++ chain)) ∨
      allocClump ctx = .error .noSpc ctx ∧ ctx.vol.allocBlocks w = none ∧
        ¬ctx.vol.Roomy (clumpNodes ctx * w) := by
  have hpos : 0 < w := by omega
  have hfuel : clumpNodes ctx ≤ clumpNodes ctx * w := Nat.le_mul_of_pos_right _ hpos
  have hloop := allocShrinking_stride ctx.vol hpos (clumpNodes_pos ctx) hfuel
  unfold allocClump
  unfold clumpNodes at hloop ⊢
  simp only [hwidth] at hloop ⊢
  rcases hloop with ⟨start, n, vol', hshrink, hn, hle, halloc, hwhole⟩ | ⟨hshrink, hnone⟩
  · obtain ⟨hfound, rfl⟩ := allocBlocks_eq_some halloc
    obtain ⟨-, hinside⟩ := Volume.bitmapFindFree_some hfound
    simp only [hshrink, Nat.mul_div_cancel n hpos]
    rcases Nat.lt_or_ge 1 n with hmany | hsingle
    · obtain ⟨disk, hlink, hframe, hlinks⟩ := linkClump_stride
        { ctx.vol.bitmapSet start (n * w) with
          nextFreeLba := max ctx.vol.nextFreeLba (start + n * w) }
        ctx.hdr.freeNodeLba hpos (show n - 1 < n by omega) hinside
      have hlast : (n - 1) * w < n * w := Nat.mul_lt_mul_of_pos_right (by omega) hpos
      simp only [if_pos hmany, hlink]
      refine Or.inl ⟨start, n, disk, by rw [clumpHeader, if_pos hmany], hn, hle, hfound, hwhole,
        fun b hb ↦ hframe b (by omega), fun chain hchain ↦ ?_⟩
      rw [clumpHeader, if_pos hmany]
      refine freeChain_stride hchain (fun j hj ↦ ?_) (by omega)
      have hthere (i : ℕ) : start + w + i * w = start + (i + 1) * w := by
        rw [Nat.succ_mul]
        omega
      rw [hthere, hthere]
      exact hlinks (j + 1) (by omega) (by omega)
    · obtain rfl : n = 1 := le_antisymm hsingle hn
      exact Or.inl ⟨start, 1, _, rfl, hn, hle, hfound, hwhole, fun _ _ ↦ rfl, fun _ hchain ↦ hchain⟩
  · simp only [hshrink]
    exact Or.inr ⟨trivial, hnone⟩

theorem allocClump_spec (hsound : Allocated ctx used)
    (hempty : ¬(ctx.hdr.freeNodeLba ≠ 0 ∧ 0 < ctx.hdr.freeNodes)) :
    (∃ lba ctx', allocClump ctx = .ok lba ctx' ∧ AllocatedNode used ctx lba ctx') ∨
      allocClump ctx = .error .noSpc ctx ∧ Exhausted ctx ∧ ¬Spacious ctx 1 := by
  have hone : max (ctx.hdr.nodeSize / ctx.vol.blockSize) 1 = 1 := max_eq_right hsound.node_size
  rcases allocClump_cases hone with
    ⟨start, n, disk, hrun, hn, hclump, hfound, hwhole, hframe, hlinks⟩ | ⟨hrun, hnone, hcramped⟩
  · simp only [Nat.mul_one] at hrun hfound hwhole hframe
    obtain ⟨hfree, hinside⟩ := Volume.bitmapFindFree_some hfound
    obtain ⟨chain, hchain, hnodup, hapart⟩ := hsound.chain
    have hold (lba : ℕ) (hset : ctx.vol.bitmap lba = true) : ¬(start ≤ lba ∧ lba < start + n) := by
      intro h
      rw [hfree lba h.1 h.2] at hset
      cases hset
    have hkept (lba : ℕ) (hset : ctx.vol.bitmap lba = true) : disk lba = ctx.vol.disk lba := by
      have := hold lba hset
      exact hframe lba (by omega)
    refine Or.inl ⟨start, _, hrun, allocatedNode_one hsound hfound hn hkept
      (clumpHeader_rootNodeLba _ _ _ _) (clumpHeader_nodeSize _ _ _ _)
      (clumpHeader_deduplication _ _ _ _) ⟨List.range' (start + 1) (n - 1) ++ chain,
        hlinks chain (hchain.congr fun lba hlba ↦ hkept lba (hapart lba hlba).2.2), ?_, ?_⟩ hwhole
      fun hbalanced ↦ ?_⟩
    · refine List.nodup_append.mpr ⟨List.nodup_range', hnodup, fun a ha b hb hab ↦ ?_⟩
      have := List.mem_range'_1.mp ha
      have := hold b (hapart b hb).2.2
      omega
    · intro lba hlba
      rcases List.mem_append.mp hlba with hlba | hlba
      · have hrange := List.mem_range'_1.mp hlba
        refine ⟨by omega, fun hused ↦ hold lba (hsound.used_set lba hused) (by omega), by omega,
          Or.inl (by omega)⟩
      · obtain ⟨hunused, hlt, hset⟩ := hapart lba hlba
        have := hold lba hset
        exact ⟨by omega, hunused, hlt, Or.inr hset⟩
    · have hnodes := hbalanced.freeNodes_eq_zero hsound.zero_mem hempty
      have hle := hclump.trans hbalanced.clumpNodes_le
      refine ⟨hnodes, ?_, by simpa using hlinks [] (hbalanced.freeNodeLba_eq_zero hnodes)⟩
      rw [clumpHeader]
      split_ifs
      · simp only [hnodes]
        omega
      · omega
  · refine Or.inr ⟨hrun, ⟨hempty, Volume.bitmapFindFree_one_none (allocBlocks_eq_none hnone)⟩, ?_⟩
    rwa [Spacious, Nat.one_mul, ← Nat.mul_one (clumpNodes ctx)]

/-- An allocation hands out a block that was not in use, or reports that there is none. -/
theorem btreeAllocNode_spec (hsound : Allocated ctx used) :
    (∃ lba ctx', btreeAllocNode ctx = .ok lba ctx' ∧ AllocatedNode used ctx lba ctx') ∨
      btreeAllocNode ctx = .error .noSpc ctx ∧ Exhausted ctx ∧ ¬Spacious ctx 1 := by
  unfold btreeAllocNode
  simp only
  by_cases hlist : ctx.hdr.freeNodeLba ≠ 0 ∧ 0 < ctx.hdr.freeNodes
  · rw [if_pos hlist]
    obtain ⟨chain, hchain, hnodup, hapart⟩ := hsound.chain
    cases chain with
    | nil => exact absurd hchain hlist.1
    | cons lba chain =>
      obtain ⟨hhead, next, hnext, hrest⟩ := hchain
      obtain ⟨hunused, hlt, hset⟩ := hapart lba List.mem_cons_self
      have hnextlt : ¬(next ≠ 0 ∧ ctx.vol.totalBlocks ≤ next) := by
        cases chain with
        | nil => simp [show next = 0 from hrest]
        | cons other chain =>
          obtain ⟨rfl, -⟩ := hrest
          have := (hapart next (by simp)).2.1
          omega
      rw [hhead, if_neg (by omega), Volume.blockRead, if_pos hlt]
      simp only [hnext, Block.firstWord, if_neg hnextlt]
      refine Or.inl ⟨lba, _, rfl, hunused, ⟨?_, ?_, ?_, hsound.node_size, chain, hrest, ?_, ?_⟩,
        ⟨rfl, rfl, rfl, rfl, rfl, fun _ _ ↦ rfl⟩, fun h ↦ h.1 hlist, fun k hk ↦ ?_, fun _ h ↦ h,
        fun hbalanced ↦ ⟨⟨hbalanced.clump_lt, ?_⟩, ?_⟩⟩
      · exact Set.mem_insert_of_mem _ hsound.zero_mem
      · rintro other (rfl | hused)
        · exact hlt
        · exact hsound.used_lt other hused
      · rintro other (rfl | hused)
        · exact hset
        · exact hsound.used_set other hused
      · exact (List.nodup_cons.mp hnodup).2
      · intro other hother
        obtain ⟨hun, hlt', hset'⟩ := hapart other (List.mem_cons_of_mem _ hother)
        refine ⟨?_, hlt', hset'⟩
        rintro (rfl | hused)
        · exact (List.nodup_cons.mp hnodup).1 hother
        · exact hun hused
      · exact Volume.Roomy.mono hk (Nat.mul_le_mul_right _ (Nat.le_succ k))
      · obtain ⟨chain', hchain', hlength, hapart', hall⟩ := hbalanced.chain
        have hzero (c : List ℕ) (hc : ∀ free ∈ c, free ∉ used) : 0 ∉ c := fun h ↦
          hc 0 h hsound.zero_mem
        obtain rfl : lba :: chain = chain' :=
          FreeChain.unique ⟨hhead, next, hnext, hrest⟩ hchain'
            (hzero _ fun free hfree ↦ (hapart free hfree).1) (hzero _ hapart')
        refine ⟨chain, hrest, ?_, fun other hother ↦ ?_, fun other hlt hset ↦ ?_⟩
        · rw [List.length_cons] at hlength
          change chain.length = ctx.hdr.freeNodes - 1
          omega
        · rintro (rfl | hused)
          · exact (List.nodup_cons.mp hnodup).1 hother
          · exact hapart' other (List.mem_cons_of_mem _ hother) hused
        · rcases hall other hlt hset with hused | hmem
          · exact Or.inl (Set.mem_insert_of_mem _ hused)
          · rcases List.mem_cons.mp hmem with rfl | hmem
            · exact Or.inl (Set.mem_insert _ _)
            · exact Or.inr hmem
      · have hpos := hlist.2
        change ctx.hdr.freeNodes + freeBlockCount ctx.vol =
          ctx.hdr.freeNodes - 1 + freeBlockCount ctx.vol + 1
        omega
  · rw [if_neg hlist]
    exact allocClump_spec hsound hlist

end Obmafs3
