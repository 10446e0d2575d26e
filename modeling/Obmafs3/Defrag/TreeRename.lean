import Obmafs3.Defrag.TreePhase

/-!
# Trees under a renaming of their nodes

The nodes of a tree are those that the walks from its root and along its free nodes come to. If every
node is found at another address with its links renamed, the walks find the same nodes there.
-/

set_option autoImplicit false

namespace Obmafs3.Defrag

open Library.Runs

variable {disk disk' : ℕ → DiskBlock} {ρ : ℕ → ℕ} {fuel fuel' hdrLba : ℕ}
  {queue nodes nodes' : List ℕ}

/-! ### Walks -/

variable {lba : ℕ}

section

variable (hwalk : levelOrder disk fuel queue = some nodes)
include hwalk

theorem levelOrder_mem (hlba : lba ∈ queue) (hne : lba ≠ 0) : lba ∈ nodes := by
  induction fuel generalizing queue nodes with
  | zero => cases hwalk
  | succ fuel ih =>
    cases queue with
    | nil => cases hlba
    | cons first queue =>
      rw [levelOrder] at hwalk
      by_cases hfirst : first = 0
      · rw [if_pos hfirst] at hwalk
        rcases List.mem_cons.mp hlba with rfl | hlba
        · exact absurd hfirst hne
        · exact ih hwalk hlba
      · rw [if_neg hfirst, Option.map_eq_some_iff] at hwalk
        obtain ⟨rest, hrest, rfl⟩ := hwalk
        rcases List.mem_cons.mp hlba with rfl | hlba
        · exact List.mem_cons_self
        · exact List.mem_cons_of_mem _ (ih hrest (List.mem_append_left _ hlba))

theorem levelOrder_ne_zero : 0 ∉ nodes := by
  induction fuel generalizing queue nodes with
  | zero => cases hwalk
  | succ fuel ih =>
    cases queue with
    | nil =>
      obtain rfl := Option.some.inj hwalk
      exact List.not_mem_nil
    | cons first queue =>
      rw [levelOrder] at hwalk
      by_cases hfirst : first = 0
      · rw [if_pos hfirst] at hwalk
        exact ih hwalk
      · rw [if_neg hfirst, Option.map_eq_some_iff] at hwalk
        obtain ⟨rest, hrest, rfl⟩ := hwalk
        rw [List.mem_cons, not_or]
        exact ⟨Ne.symm hfirst, ih hrest⟩

/-- The fuel does not matter to a walk that ends. -/
theorem levelOrder_unique (hwalk' : levelOrder disk fuel' queue = some nodes') :
    nodes = nodes' := by
  induction fuel generalizing fuel' queue nodes nodes' with
  | zero => cases hwalk
  | succ fuel ih =>
    cases fuel' with
    | zero => cases hwalk'
    | succ fuel' =>
      cases queue with
      | nil => exact Option.some.inj (hwalk.symm.trans hwalk')
      | cons first queue =>
        rw [levelOrder] at hwalk hwalk'
        by_cases hfirst : first = 0
        · rw [if_pos hfirst] at hwalk hwalk'
          exact ih hwalk hwalk'
        · rw [if_neg hfirst, Option.map_eq_some_iff] at hwalk hwalk'
          obtain ⟨rest, hrest, rfl⟩ := hwalk
          obtain ⟨rest', hrest', rfl⟩ := hwalk'
          rw [ih hrest hrest']

end

section

variable (hwalk : freeChain disk fuel lba = some nodes)
include hwalk

theorem freeChain_mem (hne : lba ≠ 0) : lba ∈ nodes := by
  cases fuel with
  | zero => cases hwalk
  | succ fuel =>
    rw [freeChain, if_neg hne, Option.map_eq_some_iff] at hwalk
    obtain ⟨rest, -, rfl⟩ := hwalk
    exact List.mem_cons_self

theorem freeChain_ne_zero : 0 ∉ nodes := by
  induction fuel generalizing lba nodes with
  | zero => cases hwalk
  | succ fuel ih =>
    rw [freeChain] at hwalk
    by_cases hlba : lba = 0
    · rw [if_pos hlba, Option.some.injEq] at hwalk
      subst hwalk
      exact List.not_mem_nil
    · rw [if_neg hlba, Option.map_eq_some_iff] at hwalk
      obtain ⟨rest, hrest, rfl⟩ := hwalk
      rw [List.mem_cons, not_or]
      exact ⟨Ne.symm hlba, ih hrest⟩

theorem freeChain_unique (hwalk' : freeChain disk fuel' lba = some nodes') : nodes = nodes' := by
  induction fuel generalizing fuel' lba nodes nodes' with
  | zero => cases hwalk
  | succ fuel ih =>
    cases fuel' with
    | zero => cases hwalk'
    | succ fuel' =>
      rw [freeChain] at hwalk hwalk'
      by_cases hlba : lba = 0
      · rw [if_pos hlba] at hwalk hwalk'
        exact Option.some.inj (hwalk.symm.trans hwalk')
      · rw [if_neg hlba, Option.map_eq_some_iff] at hwalk hwalk'
        obtain ⟨rest, hrest, rfl⟩ := hwalk
        obtain ⟨rest', hrest', rfl⟩ := hwalk'
        rw [ih hrest hrest']

end

/-! ### Renamed walks -/

theorem childrenOf_rename (block : DiskBlock) :
    childrenOf (block.rename ρ 0).content = (childrenOf block.content).map ρ := by
  obtain ⟨header, content⟩ := block
  cases content with
  | words data => rfl
  | treeHeader root freeNode freeNodes fields => rfl
  | treeList entries => rfl
  | piece image part =>
    cases image with
    | free next data => rfl
    | node left right level children records =>
      cases part with
      | succ part => rfl
      | zero =>
        simp only [DiskBlock.rename, NodeImage.rename, childrenOf]
        split_ifs <;> rfl

theorem nextFreeOf_rename (hzero : ρ 0 = 0) (block : DiskBlock) :
    nextFreeOf (block.rename ρ 0).content = ρ (nextFreeOf block.content) := by
  obtain ⟨header, content⟩ := block
  cases content with
  | words data => cases data <;> simp [DiskBlock.rename, nextFreeOf, hzero]
  | treeHeader root freeNode freeNodes fields => exact hzero.symm
  | treeList entries => exact hzero.symm
  | piece image part =>
    cases image with
    | free next data => cases part <;> simp [DiskBlock.rename, NodeImage.rename, nextFreeOf, hzero]
    | node left right level children records =>
      cases part <;> simp [DiskBlock.rename, NodeImage.rename, nextFreeOf, hzero]

section

variable (hzero : ρ 0 = 0) (hne : ∀ n ∈ nodes, ρ n ≠ 0)
  (hblocks : ∀ n ∈ nodes, disk' (ρ n) = (disk n).rename ρ 0)
include hzero hne hblocks

theorem levelOrder_rename (hwalk : levelOrder disk fuel queue = some nodes) :
    levelOrder disk' fuel (queue.map ρ) = some (nodes.map ρ) := by
  induction fuel generalizing queue nodes with
  | zero => cases hwalk
  | succ fuel ih =>
    cases queue with
    | nil =>
      obtain rfl := Option.some.inj hwalk
      rfl
    | cons first queue =>
      rw [levelOrder] at hwalk
      rw [List.map_cons, levelOrder]
      by_cases hfirst : first = 0
      · rw [if_pos hfirst] at hwalk
        rw [hfirst, if_pos hzero]
        exact ih hne hblocks hwalk
      · rw [if_neg hfirst, Option.map_eq_some_iff] at hwalk
        obtain ⟨rest, hrest, rfl⟩ := hwalk
        have hneRest (n : ℕ) (hn : n ∈ rest) : ρ n ≠ 0 := hne n (List.mem_cons_of_mem _ hn)
        rw [if_neg (hne first List.mem_cons_self), hblocks first List.mem_cons_self,
          childrenOf_rename]
        -- The children that are there are visited, and so their new addresses are not 0.
        have hchildren : ((childrenOf (disk first).content).map ρ).filter (fun child ↦ child ≠ 0) =
            ((childrenOf (disk first).content).filter fun child ↦ child ≠ 0).map ρ := by
          rw [List.filter_map]
          refine congrArg (List.map ρ) (List.filter_congr fun child hchild ↦ ?_)
          by_cases hchildZero : child = 0
          · simp [hchildZero, hzero]
          · have hvisited : child ∈ rest := by
              refine levelOrder_mem hrest (List.mem_append_right _ ?_) hchildZero
              exact List.mem_filter.mpr ⟨hchild, by simpa using hchildZero⟩
            simp [hchildZero, hneRest child hvisited]
        rw [hchildren, ← List.map_append,
          ih hneRest (fun n hn ↦ hblocks n (List.mem_cons_of_mem _ hn)) hrest]
        rfl

theorem freeChain_rename (hwalk : freeChain disk fuel lba = some nodes) :
    freeChain disk' fuel (ρ lba) = some (nodes.map ρ) := by
  induction fuel generalizing lba nodes with
  | zero => cases hwalk
  | succ fuel ih =>
    rw [freeChain] at hwalk ⊢
    by_cases hlba : lba = 0
    · rw [if_pos hlba, Option.some.injEq] at hwalk
      subst hwalk
      rw [hlba, if_pos hzero]
      rfl
    · rw [if_neg hlba, Option.map_eq_some_iff] at hwalk
      obtain ⟨rest, hrest, rfl⟩ := hwalk
      rw [if_neg (hne lba List.mem_cons_self), hblocks lba List.mem_cons_self,
        nextFreeOf_rename hzero, ih (fun n hn ↦ hne n (List.mem_cons_of_mem _ hn))
          (fun n hn ↦ hblocks n (List.mem_cons_of_mem _ hn)) hrest]
      rfl

end

/-! ### Trees -/

/-- The nodes of the tree with a header: those that its root leads to, then its free nodes. -/
def TreeNodes (disk : ℕ → DiskBlock) (hdrLba : ℕ) (nodes : List ℕ) : Prop :=
  ∃ fuel root freeNode freeNodes fields reached chain,
    (disk hdrLba).content = .treeHeader root freeNode freeNodes fields ∧
      levelOrder disk fuel [root] = some reached ∧ freeChain disk fuel freeNode = some chain ∧
      nodes = reached ++ chain

theorem TreeNodes.unique (hnodes : TreeNodes disk hdrLba nodes)
    (hnodes' : TreeNodes disk hdrLba nodes') : nodes = nodes' := by
  obtain ⟨fuel, root, freeNode, freeNodes, fields, reached, chain, hheader, hwalk, hchain, rfl⟩ :=
    hnodes
  obtain ⟨fuel', root', freeNode', freeNodes', fields', reached', chain', hheader', hwalk',
    hchain', rfl⟩ := hnodes'
  rw [hheader, Content.treeHeader.injEq] at hheader'
  obtain ⟨rfl, rfl, -, -⟩ := hheader'
  rw [levelOrder_unique hwalk hwalk', freeChain_unique hchain hchain']

theorem TreeNodes.ne_zero (hnodes : TreeNodes disk hdrLba nodes) : 0 ∉ nodes := by
  obtain ⟨fuel, root, freeNode, freeNodes, fields, reached, chain, -, hwalk, hchain, rfl⟩ := hnodes
  rw [List.mem_append, not_or]
  exact ⟨levelOrder_ne_zero hwalk, freeChain_ne_zero hchain⟩

theorem TreeNodes.of_collect (hcollect : collectTreeNodes disk fuel hdrLba = some nodes)
    (hne : nodes ≠ []) : TreeNodes disk hdrLba nodes := by
  unfold collectTreeNodes at hcollect
  split at hcollect
  · next root freeNode freeNodes fields hheader =>
    split_ifs at hcollect
    · exact absurd (Option.some.inj hcollect).symm hne
    · obtain ⟨reached, hwalk, hrest⟩ := Option.bind_eq_some_iff.mp hcollect
      obtain ⟨chain, hchain, rfl⟩ := Option.map_eq_some_iff.mp hrest
      exact ⟨fuel, root, freeNode, freeNodes, fields, reached, chain, hheader, hwalk, hchain, rfl⟩
  · exact absurd (Option.some.inj hcollect).symm hne

/-- A tree with another header and its nodes renamed: all blocks of the nodes are there with nothing
changed but the links. -/
structure Renamed (disk disk' : ℕ → DiskBlock) (blocksPerNode hdrLba hdrLba' : ℕ) (nodes : List ℕ)
    (ρ : ℕ → ℕ) : Prop where
  header : ∃ root freeNode freeNodes fields,
    (disk hdrLba).content = .treeHeader root freeNode freeNodes fields ∧
      (disk' hdrLba').content = .treeHeader (ρ root) (ρ freeNode) freeNodes fields
  original : TreeNodes disk hdrLba nodes
  renamed : TreeNodes disk' hdrLba' (nodes.map ρ)
  injective : ∀ n ∈ nodes, ∀ n' ∈ nodes, ρ n = ρ n' → n = n'
  blocks : ∀ n ∈ nodes, ∀ b < blocksPerNode, disk' (ρ n + b) = (disk (n + b)).rename ρ b

/-- It is enough that the header and the blocks are renamed. -/
theorem Renamed.of_blocks {blocksPerNode hdrLba' root freeNode freeNodes : ℕ} {fields : List ℕ}
    (hbpn : 0 < blocksPerNode) (hnodes : TreeNodes disk hdrLba nodes) (hzero : ρ 0 = 0)
    (hne : ∀ n ∈ nodes, ρ n ≠ 0) (hinj : ∀ n ∈ nodes, ∀ n' ∈ nodes, ρ n = ρ n' → n = n')
    (hheader : (disk hdrLba).content = .treeHeader root freeNode freeNodes fields)
    (hheader' : (disk' hdrLba').content = .treeHeader (ρ root) (ρ freeNode) freeNodes fields)
    (hblocks : ∀ n ∈ nodes, ∀ b < blocksPerNode,
      disk' (ρ n + b) = (disk (n + b)).rename ρ b) :
    Renamed disk disk' blocksPerNode hdrLba hdrLba' nodes ρ where
  header := ⟨root, freeNode, freeNodes, fields, hheader, hheader'⟩
  original := hnodes
  renamed := by
    have hfirst (n : ℕ) (hn : n ∈ nodes) : disk' (ρ n) = (disk n).rename ρ 0 := hblocks n hn 0 hbpn
    obtain ⟨fuel, root₁, freeNode₁, freeNodes₁, fields₁, reached, chain, hheader₁, hwalk, hchain,
      rfl⟩ := hnodes
    rw [hheader, Content.treeHeader.injEq] at hheader₁
    obtain ⟨rfl, rfl, rfl, rfl⟩ := hheader₁
    have hreached (n : ℕ) (hn : n ∈ reached) : n ∈ reached ++ chain := List.mem_append_left _ hn
    have hfree (n : ℕ) (hn : n ∈ chain) : n ∈ reached ++ chain := List.mem_append_right _ hn
    refine ⟨fuel, ρ root, ρ freeNode, freeNodes, fields, reached.map ρ, chain.map ρ, hheader', ?_,
      ?_, List.map_append⟩
    · exact levelOrder_rename hzero (fun n hn ↦ hne n (hreached n hn))
        (fun n hn ↦ hfirst n (hreached n hn)) hwalk
    · exact freeChain_rename hzero (fun n hn ↦ hne n (hfree n hn))
        (fun n hn ↦ hfirst n (hfree n hn)) hchain
  injective := hinj
  blocks := hblocks

theorem NodeImage.rename_id (image : NodeImage) : image.rename id = image := by
  cases image with
  | node left right level children records => simp [NodeImage.rename]
  | free next data => rfl

theorem DiskBlock.rename_id (part : ℕ) (block : DiskBlock) : block.rename id part = block := by
  obtain ⟨header, content⟩ := block
  cases content with
  | words data => cases data <;> simp [DiskBlock.rename]
  | treeHeader root freeNode freeNodes fields => rfl
  | treeList entries => rfl
  | piece image k => simp [DiskBlock.rename, NodeImage.rename_id]

/-- A tree whose blocks are as they were. -/
theorem Renamed.unchanged {blocksPerNode : ℕ} (hbpn : 0 < blocksPerNode)
    (hnodes : TreeNodes disk hdrLba nodes) (hheader : disk' hdrLba = disk hdrLba)
    (hblocks : ∀ n ∈ nodes, ∀ b < blocksPerNode, disk' (n + b) = disk (n + b)) :
    Renamed disk disk' blocksPerNode hdrLba hdrLba nodes id := by
  obtain ⟨fuel, root, freeNode, freeNodes, fields, reached, chain, hcontent, -, -, -⟩ := id hnodes
  refine Renamed.of_blocks hbpn hnodes rfl ?_ (fun n _ n' _ h ↦ h) hcontent ?_ ?_
  · rintro n hn rfl
    exact hnodes.ne_zero hn
  · rw [hheader, hcontent]
    rfl
  · intro n hn b hb
    rw [DiskBlock.rename_id]
    exact hblocks n hn b hb

end Obmafs3.Defrag
