import Obmafs3.Trees.Calls

/-!
# The nodes of the three trees

`Sound` is the invariant of the three trees between calls that keep the promise of the allocator:
each tree is stored with its free list, its header is on disk as it is in memory, and the nodes and
free nodes of the trees are apart. `Sound.step` says that a call on one tree keeps it if the nodes
it was granted are in the tree and the header on disk is up to date when it ends.
-/

set_option autoImplicit false
set_option linter.unusedSectionVars false

namespace Obmafs3

open Library.Search Library.SearchTree
open Function (update update_of_ne update_self)

/-! ### Child pointers -/

section Reachable

variable {κ ρ : Type} {kind : TreeKind κ ρ} {ctx : TreeCtx}

variable {height : ℕ} {t : Tree ℕ κ ρ height}

/-- The entries of a node lead to nodes of the same tree. -/
theorem Holds.child_mem (hholds : Holds (kind.view ctx) height t) {lba level left right : ℕ}
    {entries : List (κ × ℕ)} {spare : Option (κ × ℕ)} (hlba : lba ∈ nodesOf height t)
    (hnode : kind.view ctx lba = some (.index level left right entries spare)) {entry : κ × ℕ}
    (hentry : entry ∈ entries) : entry.2 ∈ nodesOf height t := by
  induction height with
  | zero =>
    obtain ⟨a, rs⟩ := t
    obtain rfl := mem_nodesOf_leaf.mp hlba
    obtain ⟨left', right', hleaf⟩ := contentAt_leaf hholds
    rw [hleaf] at hnode
    cases hnode
  | succ height ih =>
    obtain ⟨a, es⟩ := t
    obtain ⟨hroot, hchildren⟩ := hholds
    rcases mem_nodesOf_index.mp hlba with rfl | ⟨e, he, hmem⟩
    · obtain ⟨left', right', spare', hindex⟩ := contentAt_index hroot
      rw [hindex] at hnode
      cases hnode
      obtain ⟨e, he, rfl⟩ := List.mem_map.mp hentry
      exact nodesOf_child_subset he (label_mem_nodesOf height e.2)
    · exact nodesOf_child_subset he (ih (hchildren e he) hmem)

variable {lba : ℕ}

/-- The nodes of a tree are reached from its root. -/
theorem Holds.reachable (hholds : Holds (kind.view ctx) height t)
    (hroot : Reachable kind ctx (label height t)) (hlba : lba ∈ nodesOf height t) :
    Reachable kind ctx lba := by
  induction height with
  | zero =>
    obtain ⟨a, rs⟩ := t
    obtain rfl := mem_nodesOf_leaf.mp hlba
    exact hroot
  | succ height ih =>
    obtain ⟨a, es⟩ := t
    obtain ⟨hcontent, hchildren⟩ := hholds
    rcases mem_nodesOf_index.mp hlba with rfl | ⟨e, he, hmem⟩
    · exact hroot
    · obtain ⟨left, right, spare, hindex⟩ := contentAt_index hcontent
      exact ih (hchildren e he) (hroot.child hindex (List.mem_map_of_mem he)) hmem

/-- Nothing is reached in an empty tree. -/
theorem Reachable.root_ne (hreach : Reachable kind ctx lba) : ctx.hdr.rootNodeLba ≠ 0 := by
  induction hreach with
  | root hroot => exact hroot
  | child _ _ _ ih => exact ih

variable [LinearOrder κ] {hdrLba : ℕ} {used : Set ℕ} {root : Root ℕ κ ρ}

section

variable (hstored : Stored kind hdrLba used ctx root)
include hstored

theorem Stored.reachable_iff : Reachable kind ctx lba ↔ lba ∈ rootNodes root := by
  have hreads := hstored.reads
  cases root with
  | empty =>
    exact iff_of_false (fun hreach ↦ hreach.root_ne hstored.root_lba) (Set.notMem_empty lba)
  | node height t =>
    constructor
    · intro hreach
      induction hreach with
      | root => exact hreads.root ▸ label_mem_nodesOf height t
      | child _ hnode hentry ih => exact hreads.holds.child_mem ih hnode hentry
    · refine hreads.holds.reachable ?_
      have hroot : Reachable kind ctx ctx.hdr.rootNodeLba := .root (hreads.root ▸ hreads.nonzero)
      rwa [hreads.root] at hroot

/-- The nodes of a tree are in use, and block zero and the header are none of them. -/
theorem Stored.rootNodes_subset : rootNodes root ⊆ used := by
  cases root with
  | empty => exact Set.empty_subset used
  | node height t => exact hstored.on_disk.1.nodesOf_subset (by simp)

theorem Stored.reserved_notMem (hlba : lba = 0 ∨ lba = hdrLba) : lba ∉ rootNodes root := by
  cases root with
  | empty => exact Set.notMem_empty lba
  | node height t =>
    rintro ⟨level, -, hmem⟩
    have hlevel := hstored.reads.holds.level hmem
    rw [hstored.reserved lba hlba] at hlevel
    cases hlevel

/-- A tree is stored as before when its blocks are as before. -/
theorem Stored.congr {used' : Set ℕ} {ctx' : TreeCtx} (hsound : Allocated ctx' used')
    (hhdr : hdrLba ∈ used') (hroot : ctx'.hdr.rootNodeLba = ctx.hdr.rootNodeLba)
    (hnodes : rootNodes root ⊆ used')
    (hdisk : ∀ lba, lba = 0 ∨ lba = hdrLba ∨ lba ∈ rootNodes root →
      ctx'.vol.disk lba = ctx.vol.disk lba) : Stored kind hdrLba used' ctx' root := by
  have hview (lba : ℕ) (hlba : lba = 0 ∨ lba = hdrLba ∨ lba ∈ rootNodes root) :
      kind.view ctx' lba = kind.view ctx lba := by
    rw [TreeKind.view, TreeKind.view, hdisk lba hlba]
  refine ⟨⟨hsound, hhdr, fun lba hlba ↦ ?_⟩, hroot.trans hstored.root_lba, ?_⟩
  · rw [hview lba (hlba.imp_right Or.inl), hstored.reserved lba hlba]
  · have hdisk' := hstored.on_disk
    cases root with
    | empty => trivial
    | node height t =>
      obtain ⟨hplaced, hsolid⟩ := hdisk'
      have hrow (level : ℕ) : nowhere level ++ rowOf [t] level ++ nowhere level =
          row height t level := by simp [nowhere, rowOf]
      refine ⟨⟨fun u hu ↦ ?_, fun level hlevel ↦ ?_, fun level hlevel lba hlba ↦ ?_⟩, hsolid⟩
      · obtain rfl := List.mem_singleton.mp hu
        refine (hplaced.holds u hu).congr fun level hlevel lba hlba ↦ ?_
        rw [contentAt, contentAt, hview lba (Or.inr (Or.inr ⟨level, hlevel, hlba⟩))]
      · refine (hplaced.rows level hlevel).congr fun lba hlba ↦ ?_
        rw [hrow] at hlba
        rw [linksAt, linksAt, hview lba (Or.inr (Or.inr ⟨level, hlevel, hlba⟩))]
      · rw [hrow] at hlba
        exact hnodes ⟨level, hlevel, hlba⟩

end

end Reachable

/-! ### The invariant -/

/-- The free list of a tree with an account of its nodes. -/
theorem Balanced.freeList {ctx : TreeCtx} {used : Set ℕ} (hbalanced : Balanced ctx used)
    (hsound : Allocated ctx used) :
    ∃ chain, FreeChain ctx.vol.disk ctx.hdr.freeNodeLba chain ∧ chain.Nodup ∧
      (∀ lba ∈ chain, lba ∉ used ∧ lba < ctx.vol.totalBlocks ∧ ctx.vol.bitmap lba = true) ∧
      chain.length = ctx.hdr.freeNodes ∧
      ∀ lba < ctx.vol.totalBlocks, ctx.vol.bitmap lba = true → lba ∈ used ∨ lba ∈ chain := by
  obtain ⟨chain, hchain, hnodup, hapart⟩ := hsound.chain
  obtain ⟨chain', hchain', hlength, hapart', hall⟩ := hbalanced.chain
  obtain rfl := hchain.unique hchain' (fun h ↦ (hapart 0 h).1 hsound.zero_mem)
    fun h ↦ hapart' 0 h hsound.zero_mem
  exact ⟨chain, hchain, hnodup, hapart, hlength, hall⟩

namespace TreeVolume

/-- The allocated blocks that are not on the free list of a tree. -/
def taken (st : TreeVolume) (chain : List ℕ) : Set ℕ :=
  {lba | lba < st.vol.totalBlocks ∧ st.vol.bitmap lba = true ∧ lba ∉ chain}

/-- The nodes and the free nodes of a tree. -/
def owned {κ ρ : Type} (root : Root ℕ κ ρ) (chain : List ℕ) : Set ℕ :=
  rootNodes root ∪ {lba | lba ∈ chain}

variable {st : TreeVolume} {root : (tree : TreeName) → Root ℕ tree.Key tree.Record}
  {chain : TreeName → List ℕ} {tree other : TreeName}

structure Sound (st : TreeVolume) (root : (tree : TreeName) → Root ℕ tree.Key tree.Record)
    (chain : TreeName → List ℕ) : Prop where
  stored : ∀ tree, Stored tree.kind (st.hdrLba tree) (st.taken (chain tree)) (st.ctx tree)
    (root tree)
  links : ∀ tree, FreeChain st.vol.disk (st.hdr tree).freeNodeLba (chain tree)
  length : ∀ tree, (chain tree).length = (st.hdr tree).freeNodes
  persisted : ∀ tree, Persisted (st.hdrLba tree) (st.ctx tree)
  apart : ∀ tree other, tree ≠ other → ∀ lba ∈ owned (root tree) (chain tree),
    lba ∉ owned (root other) (chain other)
  header_notMem : ∀ tree other, st.hdrLba tree ∉ owned (root other) (chain other)
  header_pos : ∀ tree, st.hdrLba tree ≠ 0
  header_ne : ∀ tree other, tree ≠ other → st.hdrLba tree ≠ st.hdrLba other
  clump_lt : st.vol.btreeClumpSize < 2 ^ 32 ∧ st.vol.dedupClumpSize < 2 ^ 32
  entries : ∀ tree : TreeName, 2 ≤ maxKeys st.vol.blockSize tree.kind.entrySize

@[simp] theorem ctx_set_self (st : TreeVolume) (tree : TreeName) (ctx : TreeCtx) :
    (st.set tree ctx).ctx tree = ctx := by
  simp [TreeVolume.ctx, TreeVolume.set]

theorem ctx_set_of_ne (st : TreeVolume) (ctx : TreeCtx) (hne : other ≠ tree) :
    (st.set tree ctx).ctx other = ⟨ctx.vol, st.hdr other⟩ := by
  simp [TreeVolume.ctx, TreeVolume.set, hne]

section

variable (hs : st.Sound root chain)
include hs

theorem Sound.balanced (tree : TreeName) : Balanced (st.ctx tree) (st.taken (chain tree)) where
  clump_lt := hs.clump_lt
  chain := ⟨chain tree, hs.links tree, hs.length tree, fun _ hmem h ↦ h.2.2 hmem,
    fun _ hlt hset ↦ or_iff_not_imp_right.mpr fun hnot ↦ ⟨hlt, hset, hnot⟩⟩

theorem Sound.zero_notMem (tree : TreeName) : 0 ∉ chain tree :=
  (hs.stored tree).sound.zero_mem.2.2

theorem Sound.freeList (tree : TreeName) : (chain tree).Nodup ∧
    ∀ lba ∈ chain tree, lba < st.vol.totalBlocks ∧ st.vol.bitmap lba = true := by
  obtain ⟨chain', hchain', hnodup, hapart, -⟩ := (hs.balanced tree).freeList (hs.stored tree).sound
  obtain rfl := hchain'.unique (hs.links tree)
    (fun h ↦ (hapart 0 h).1 (hs.stored tree).sound.zero_mem) (hs.zero_notMem tree)
  exact ⟨hnodup, fun lba hlba ↦ (hapart lba hlba).2⟩

/-- The blocks of a tree are allocated. -/
theorem Sound.owned_set {lba : ℕ} (hlba : lba ∈ owned (root tree) (chain tree)) :
    lba < st.vol.totalBlocks ∧ st.vol.bitmap lba = true := by
  rcases hlba with hlba | hlba
  · have htaken := (hs.stored tree).rootNodes_subset hlba
    exact ⟨htaken.1, htaken.2.1⟩
  · exact (hs.freeList tree).2 lba hlba

/-- The blocks of a tree are in use for the other trees. -/
theorem Sound.owned_taken (hne : other ≠ tree) {lba : ℕ}
    (hlba : lba ∈ owned (root other) (chain other)) : lba ∈ st.taken (chain tree) := by
  obtain ⟨hlt, hset⟩ := hs.owned_set hlba
  exact ⟨hlt, hset, fun h ↦ hs.apart other tree hne lba hlba (Or.inr h)⟩

/-- The headers are in use for every tree. -/
theorem Sound.header_taken (tree other : TreeName) : st.hdrLba other ∈ st.taken (chain tree) := by
  obtain ⟨hlt, hset, -⟩ := (hs.stored other).header
  exact ⟨hlt, hset, fun h ↦ hs.header_notMem other tree (Or.inr h)⟩

end

/-! ### A call on one tree -/

/-- A call on a tree ended with the tree stored, the nodes it was granted in the tree and the header
on disk up to date, and it touched no block of the others. -/
def Moves (st : TreeVolume) (tree : TreeName) (chain : List ℕ)
    (old new : Root ℕ tree.Key tree.Record) (ctx : TreeCtx) : Prop :=
  ∃ used, Stored tree.kind (st.hdrLba tree) used ctx new ∧
    Frames (st.hdrLba tree) (st.taken chain) used (rootNodes old) (st.ctx tree) ctx ∧
    (∀ lba, st.vol.bitmap lba = true → ctx.vol.bitmap lba = true) ∧ Balanced ctx used ∧
    Persisted (st.hdrLba tree) ctx ∧ rootNodes new = rootNodes old ∪ used \ st.taken chain

/-- The nodes and the free nodes of all trees. -/
def ownedAll (root : (tree : TreeName) → Root ℕ tree.Key tree.Record) (chain : TreeName → List ℕ) :
    Set ℕ :=
  {lba | ∃ tree, lba ∈ owned (root tree) (chain tree)}

variable {new : Root ℕ tree.Key tree.Record} {ctx : TreeCtx}

section

variable (hs : st.Sound root chain) (hmoves : st.Moves tree (chain tree) (root tree) new ctx)
include hs hmoves

/-- The free list after a call on a tree. -/
theorem Sound.moves : ∃ chain', FreeChain ctx.vol.disk ctx.hdr.freeNodeLba chain' ∧
      chain'.length = ctx.hdr.freeNodes ∧
      Stored tree.kind (st.hdrLba tree) ((st.set tree ctx).taken chain') ctx new ∧
      owned (root tree) (chain tree) ⊆ owned new chain' ∧
      (∀ lba < st.vol.totalBlocks, st.vol.bitmap lba = false → ctx.vol.bitmap lba = true →
        lba ∈ owned new chain') ∧
      ∀ lba ∈ st.taken (chain tree), lba ∉ rootNodes (root tree) → lba ∉ owned new chain' := by
  obtain ⟨used, hstored, hframes, hmarks, hbalanced, -, hnodes⟩ := hmoves
  obtain ⟨chain', hchain', -, hapart, hlength, hall⟩ := hbalanced.freeList hstored.sound
  have htotal : ctx.vol.totalBlocks = st.vol.totalBlocks := hframes.total_blocks
  have hused : used = (st.set tree ctx).taken chain' := by
    ext lba
    constructor
    · exact fun h ↦ ⟨hstored.sound.used_lt lba h, hstored.sound.used_set lba h,
        fun hmem ↦ (hapart lba hmem).1 h⟩
    · exact fun h ↦ (hall lba h.1 h.2.1).resolve_right h.2.2
  have hnew (lba : ℕ) (hlt : lba < st.vol.totalBlocks) (hset : ctx.vol.bitmap lba = true)
      (hnot : lba ∉ st.taken (chain tree)) : lba ∈ owned new chain' := by
    rcases hall lba (htotal ▸ hlt) hset with h | h
    · exact Or.inl (hnodes ▸ Or.inr ⟨h, hnot⟩)
    · exact Or.inr h
  refine ⟨chain', hchain', hlength, hused ▸ hstored, fun lba hlba ↦ ?_,
    fun lba hlt hclear hset ↦ hnew lba hlt hset fun h ↦ ?_, fun lba htaken hnot hmem ↦ ?_⟩
  · obtain ⟨hlt, hset⟩ := hs.owned_set hlba
    rcases hlba with hlba | hlba
    · exact Or.inl (hnodes ▸ Or.inl hlba)
    · exact hnew lba hlt (hmarks lba hset) fun h ↦ h.2.2 hlba
  · rw [h.2.1] at hclear
    cases hclear
  · rcases hmem with hmem | hmem
    · rw [hnodes] at hmem
      exact hmem.elim hnot fun h ↦ h.2 htaken
    · exact (hapart lba hmem).1 (hframes.grow htaken)

/-- A call on one tree leaves the others as they are. -/
theorem Sound.stored_other (hne : other ≠ tree) :
    (∀ lba, lba = 0 ∨ lba = st.hdrLba other ∨ lba ∈ owned (root other) (chain other) →
      ctx.vol.disk lba = st.vol.disk lba) ∧
    Stored other.kind (st.hdrLba other) ((st.set tree ctx).taken (chain other))
      ⟨ctx.vol, st.hdr other⟩ (root other) := by
  obtain ⟨used, hstored, hframes, hmarks, -⟩ := hmoves
  have htotal : ctx.vol.totalBlocks = st.vol.totalBlocks := hframes.total_blocks
  have hdisk (lba : ℕ)
      (hlba : lba = 0 ∨ lba = st.hdrLba other ∨ lba ∈ owned (root other) (chain other)) :
      ctx.vol.disk lba = st.vol.disk lba := by
    rcases hlba with rfl | rfl | hlba
    · exact hframes.disk 0 (hs.stored tree).sound.zero_mem (hs.header_pos tree).symm
        ((hs.stored tree).reserved_notMem (Or.inl rfl))
    · exact hframes.disk _ (hs.header_taken tree other) (hs.header_ne other tree hne)
        fun h ↦ hs.header_notMem other tree (Or.inl h)
    · refine hframes.disk lba (hs.owned_taken hne hlba) (fun h ↦ ?_) fun h ↦ ?_
      · exact hs.header_notMem tree other (h ▸ hlba)
      · exact hs.apart other tree hne lba hlba (Or.inl h)
  have hkept (lba : ℕ) (hlba : lba ∈ st.taken (chain other)) :
      lba ∈ (st.set tree ctx).taken (chain other) :=
    ⟨htotal.symm ▸ hlba.1, hmarks lba hlba.2.1, hlba.2.2⟩
  have hold := hs.stored other
  refine ⟨hdisk, hold.congr ⟨hkept 0 hold.sound.zero_mem, fun lba h ↦ h.1, fun lba h ↦ h.2.1, ?_,
      chain other, (hs.links other).congr fun lba hlba ↦ hdisk lba (Or.inr (Or.inr (Or.inr hlba))),
      (hs.freeList other).1, fun lba hlba ↦ ⟨fun h ↦ h.2.2 hlba, ?_, ?_⟩⟩
    (hkept _ hold.header) rfl (fun lba hlba ↦ hkept lba (hold.rootNodes_subset hlba))
    fun lba hlba ↦ hdisk lba (hlba.imp_right (Or.imp_right Or.inl))⟩
  · have hsize : ctx.vol.blockSize = st.vol.blockSize := hframes.block_size
    change (st.hdr other).nodeSize / ctx.vol.blockSize ≤ 1
    rw [hsize]
    exact hold.sound.node_size
  · exact htotal.symm ▸ ((hs.freeList other).2 lba hlba).1
  · exact hmarks lba ((hs.freeList other).2 lba hlba).2

/-- A call on one tree that moves it keeps the invariant and loses no node. The trees gain blocks
only that were free. -/
theorem Sound.step : ∃ chain', (st.set tree ctx).Sound (update root tree new) chain' ∧
      ownedAll root chain ⊆ ownedAll (update root tree new) chain' ∧
      (∀ lba < st.vol.totalBlocks, st.vol.bitmap lba = false → ctx.vol.bitmap lba = true →
        lba ∈ ownedAll (update root tree new) chain') ∧
      ∀ lba < st.vol.totalBlocks, lba ∈ ownedAll (update root tree new) chain' →
        lba ∈ ownedAll root chain ∨ st.vol.bitmap lba = false := by
  obtain ⟨chain', hlinks, hlength, hstored, hgrows, hmarked, hfresh⟩ := hs.moves hmoves
  have hother (other : TreeName) (hne : other ≠ tree) := hs.stored_other hmoves hne
  obtain ⟨used, -, hframes, -, hbalanced, hpersisted, -⟩ := hmoves
  have hroot (other : TreeName) (hne : other ≠ tree) :
      update root tree new other = root other := update_of_ne hne _ _
  have hchain (other : TreeName) (hne : other ≠ tree) :
      update chain tree chain' other = chain other := update_of_ne hne _ _
  have hapart (other : TreeName) (hne : other ≠ tree) (lba : ℕ)
      (hmem : lba ∈ owned (root other) (chain other)) : lba ∉ owned new chain' :=
    hfresh lba (hs.owned_taken hne hmem) fun h ↦ hs.apart other tree hne lba hmem (Or.inl h)
  refine ⟨update chain tree chain',
    ⟨fun other ↦ ?_, fun other ↦ ?_, fun other ↦ ?_, fun other ↦ ?_, fun one other hne ↦ ?_,
      fun one other ↦ ?_, hs.header_pos, hs.header_ne, hbalanced.clump_lt, fun other ↦ ?_⟩,
    ?_, fun lba hlt hclear hset ↦ ⟨tree, ?_⟩, fun lba hlt hlba ↦ ?_⟩
  · by_cases hne : other = tree
    · subst hne
      rw [update_self, update_self, ctx_set_self]
      exact hstored
    · rw [hroot other hne, hchain other hne, ctx_set_of_ne st ctx hne]
      exact (hother other hne).2
  · by_cases hne : other = tree
    · subst hne
      rw [update_self]
      change FreeChain ctx.vol.disk (update st.hdr other ctx.hdr other).freeNodeLba chain'
      rwa [update_self]
    · rw [hchain other hne]
      change FreeChain ctx.vol.disk (update st.hdr tree ctx.hdr other).freeNodeLba _
      rw [update_of_ne hne]
      exact (hs.links other).congr fun lba hlba ↦
        (hother other hne).1 lba (Or.inr (Or.inr (Or.inr hlba)))
  · by_cases hne : other = tree
    · subst hne
      change _ = (update st.hdr other ctx.hdr other).freeNodes
      rwa [update_self, update_self]
    · change _ = (update st.hdr tree ctx.hdr other).freeNodes
      rw [hchain other hne, update_of_ne hne]
      exact hs.length other
  · by_cases hne : other = tree
    · subst hne
      rw [ctx_set_self]
      exact hpersisted
    · rw [ctx_set_of_ne st ctx hne]
      exact ((hother other hne).1 _ (Or.inr (Or.inl rfl))).trans (hs.persisted other)
  · by_cases hone : one = tree
    · subst hone
      rw [update_self, update_self, hroot other hne.symm, hchain other hne.symm]
      exact fun lba hlba hmem ↦ hapart other hne.symm lba hmem hlba
    · rw [hroot one hone, hchain one hone]
      by_cases hne' : other = tree
      · subst hne'
        rw [update_self, update_self]
        exact hapart one hone
      · rw [hroot other hne', hchain other hne']
        exact hs.apart one other hne
  · by_cases hne : other = tree
    · subst hne
      rw [update_self, update_self]
      exact hfresh _ (hs.header_taken other one) fun h ↦ hs.header_notMem one other (Or.inl h)
    · rw [hroot other hne, hchain other hne]
      exact hs.header_notMem one other
  · have hsize : ctx.vol.blockSize = st.vol.blockSize := hframes.block_size
    change 2 ≤ maxKeys ctx.vol.blockSize other.kind.entrySize
    rw [hsize]
    exact hs.entries other
  · rintro lba ⟨other, hlba⟩
    refine ⟨other, ?_⟩
    by_cases hne : other = tree
    · subst hne
      rw [update_self, update_self]
      exact hgrows hlba
    · rwa [hroot other hne, hchain other hne]
  · rw [update_self, update_self]
    exact hmarked lba hlt hclear hset
  · obtain ⟨other, hlba⟩ := hlba
    by_cases hne : other = tree
    · subst hne
      rw [update_self, update_self] at hlba
      by_contra hnot
      obtain ⟨hunowned, hset⟩ := not_or.mp hnot
      have hunowned' : lba ∉ owned (root other) (chain other) := fun h ↦ hunowned ⟨other, h⟩
      refine hfresh lba ⟨hlt, Bool.eq_true_of_not_eq_false hset, fun h ↦ ?_⟩ (fun h ↦ ?_) hlba
      · exact hunowned' (Or.inr h)
      · exact hunowned' (Or.inl h)
    · rw [hroot other hne, hchain other hne] at hlba
      exact Or.inl ⟨other, hlba⟩

end

/-! ### Changes elsewhere -/

/-- A volume of the same size in which block zero, the headers of the trees and the given blocks are
as they were. -/
structure Spares (st : TreeVolume) (nodes : Set ℕ) (vol : Volume) : Prop where
  block_size : vol.blockSize = st.vol.blockSize
  total_blocks : vol.totalBlocks = st.vol.totalBlocks
  btree_clump : vol.btreeClumpSize = st.vol.btreeClumpSize
  dedup_clump : vol.dedupClumpSize = st.vol.dedupClumpSize
  kept : ∀ lba, lba = 0 ∨ (∃ tree, lba = st.hdrLba tree) ∨ lba ∈ nodes →
    vol.disk lba = st.vol.disk lba ∧ vol.bitmap lba = st.vol.bitmap lba

/-- What happens to blocks that are none of the trees keeps the invariant. -/
theorem Sound.elsewhere (hs : st.Sound root chain) {vol : Volume}
    (hspares : st.Spares (ownedAll root chain) vol) : Sound { st with vol := vol } root chain := by
  obtain ⟨hsize, htotal, hclump, hdedup, hkept⟩ := hspares
  have hset (lba : ℕ) (hlba : lba = 0 ∨ (∃ tree, lba = st.hdrLba tree) ∨ lba ∈ ownedAll root chain)
      (h : lba < st.vol.totalBlocks ∧ st.vol.bitmap lba = true) :
      lba < vol.totalBlocks ∧ vol.bitmap lba = true :=
    ⟨htotal.symm ▸ h.1, (hkept lba hlba).2.trans h.2⟩
  have htaken (tree : TreeName) (lba : ℕ) (hlba : lba ∈ st.taken (chain tree))
      (hkeep : lba = 0 ∨ (∃ tree, lba = st.hdrLba tree) ∨ lba ∈ ownedAll root chain) :
      lba ∈ taken { st with vol := vol } (chain tree) := by
    obtain ⟨hlt, hbit⟩ := hset lba hkeep ⟨hlba.1, hlba.2.1⟩
    exact ⟨hlt, hbit, hlba.2.2⟩
  have hlinks (tree : TreeName) : FreeChain vol.disk (st.hdr tree).freeNodeLba (chain tree) :=
    (hs.links tree).congr fun lba hlba ↦ (hkept lba (Or.inr (Or.inr ⟨tree, Or.inr hlba⟩))).1
  refine ⟨fun tree ↦ ?_, hlinks, hs.length, fun tree ↦ ?_, hs.apart, hs.header_notMem,
    hs.header_pos, hs.header_ne, ?_, fun tree ↦ ?_⟩
  · have hold := hs.stored tree
    refine hold.congr ⟨htaken tree 0 hold.sound.zero_mem (Or.inl rfl), fun lba h ↦ h.1,
      fun lba h ↦ h.2.1, ?_, chain tree, hlinks tree, (hs.freeList tree).1, fun lba hlba ↦
        ⟨fun h ↦ h.2.2 hlba, hset lba (Or.inr (Or.inr ⟨tree, Or.inr hlba⟩))
          ((hs.freeList tree).2 lba hlba)⟩⟩
      (htaken tree _ hold.header (Or.inr (Or.inl ⟨tree, rfl⟩))) rfl
      (fun lba hlba ↦ htaken tree lba (hold.rootNodes_subset hlba)
        (Or.inr (Or.inr ⟨tree, Or.inl hlba⟩))) fun lba hlba ↦ (hkept lba ?_).1
    · change (st.hdr tree).nodeSize / vol.blockSize ≤ 1
      rw [hsize]
      exact hold.sound.node_size
    · rcases hlba with h | h | h
      · exact Or.inl h
      · exact Or.inr (Or.inl ⟨tree, h⟩)
      · exact Or.inr (Or.inr ⟨tree, Or.inl h⟩)
  · exact ((hkept _ (Or.inr (Or.inl ⟨tree, rfl⟩))).1).trans (hs.persisted tree)
  · change vol.btreeClumpSize < _ ∧ vol.dedupClumpSize < _
    rw [hclump, hdedup]
    exact hs.clump_lt
  · change 2 ≤ maxKeys vol.blockSize _
    rw [hsize]
    exact hs.entries tree

end TreeVolume

end Obmafs3
