import Obmafs3.Store.Insert
import Obmafs3.Store.Lookup

/-!
# Trees between calls

`Stored` is the invariant of a tree between calls: its nodes are on disk, every level is a doubly
linked list, and the volume around it is sound. `btreeInsert_spec` says that an insertion keeps the
invariant and does what `Root.put` does, or leaves a tree that can still be read when a node was
refused.
-/

set_option autoImplicit false
set_option linter.unusedSectionVars false

namespace Obmafs3

open Library.Search Library.SearchTree
open Function (update update_of_ne)

variable {κ ρ : Type} [LinearOrder κ] {kind : TreeKind κ ρ}

/-- Nothing left or right of the whole tree. -/
def nowhere : ℕ → List ℕ := fun _ ↦ []

/-- The nodes of a tree on disk, each level linked. -/
def OnDisk (view : ℕ → Option (Node κ ρ)) (used : Set ℕ) : Root ℕ κ ρ → Prop
  | .empty => True
  | .node height t => Placed view used height nowhere nowhere [t] ∧ Solid height t

/-- The invariant of a tree between calls. -/
structure Stored (kind : TreeKind κ ρ) (hdrLba : ℕ) (used : Set ℕ) (ctx : TreeCtx)
    (root : Root ℕ κ ρ) : Prop extends Ready kind hdrLba used ctx where
  root_lba : ctx.hdr.rootNodeLba = rootLba root
  on_disk : OnDisk (kind.view ctx) used root

variable {used : Set ℕ} {hdrLba : ℕ} {ctx : TreeCtx} {root : Root ℕ κ ρ} {height : ℕ}

variable {view : ℕ → Option (Node κ ρ)} {rs : List ρ}

/-- A tree of one leaf. -/
theorem placed_leaf {a : ℕ} (hleaf : view a = some (.leaf 0 0 rs)) (hused : a ∈ used) :
    Placed view used 0 nowhere nowhere [((a, rs) : Tree ℕ κ ρ 0)] where
  holds t ht := by
    obtain rfl := List.mem_singleton.mp ht
    rw [Holds, contentAt, hleaf]
    rfl
  rows level hlevel := by
    obtain rfl : level = 0 := by omega
    have hrow : Row view 0 [a] :=
      ⟨⟨⟨_, hleaf, rfl, rfl⟩, trivial⟩, List.forall_mem_singleton.mpr (by rw [hleaf]; rfl),
        List.nodup_singleton a⟩
    simpa [nowhere, rowOf, row] using hrow
  mem_used level hlevel lba hlba := by
    obtain rfl : level = 0 := by omega
    obtain rfl : lba = a := by simpa [nowhere, rowOf, row] using hlba
    exact hused

/-- The nodes of a tree. -/
def rootNodes : Root ℕ κ ρ → Set ℕ
  | .empty => ∅
  | .node height t => nodesOf height t

/-- What an operation on a tree leaves alone. -/
structure Frames (hdrLba : ℕ) (used used' nodes : Set ℕ) (ctx ctx' : TreeCtx) : Prop where
  grow : used ⊆ used'
  block_size : ctx'.vol.blockSize = ctx.vol.blockSize
  total_blocks : ctx'.vol.totalBlocks = ctx.vol.totalBlocks
  disk : ∀ lba ∈ used, lba ≠ hdrLba → lba ∉ nodes → ctx'.vol.disk lba = ctx.vol.disk lba

theorem Frames.trans {used used' used'' nodes : Set ℕ} {ctx ctx' ctx'' : TreeCtx}
    (h : Frames hdrLba used used' nodes ctx ctx') (h' : Frames hdrLba used' used'' nodes ctx' ctx'')
    : Frames hdrLba used used'' nodes ctx ctx'' where
  grow := h.grow.trans h'.grow
  block_size := h'.block_size.trans h.block_size
  total_blocks := h'.total_blocks.trans h.total_blocks
  disk lba hlba hhdr hnot := (h'.disk lba (h.grow hlba) hhdr hnot).trans (h.disk lba hlba hhdr hnot)

theorem Ready.zero_view (hready : Ready kind hdrLba used ctx) : kind.view ctx 0 = none :=
  hready.reserved 0 (Or.inl rfl)

theorem levelsOf_nowhere (t : Tree ℕ κ ρ height) :
    levelsOf nowhere nowhere height t = nodesOf height t := by
  simp [levelsOf, nodesOf, nowhere]

theorem holds_ne_zero (hzero : view 0 = none) {t : Tree ℕ κ ρ height} (hholds : Holds view height t)
    {lba : ℕ} (hlba : lba ∈ nodesOf height t) : lba ≠ 0 := by
  rintro rfl
  obtain ⟨level, -, hlba⟩ := hlba
  have hlevel := hholds.level hlba
  rw [hzero] at hlevel
  cases hlevel

/-- Between calls a tree can be read. -/
theorem Stored.reads (hstored : Stored kind hdrLba used ctx root) : Reads kind ctx root := by
  obtain ⟨hready, hroot, hdisk⟩ := hstored
  cases root with
  | empty => exact hroot
  | node height t =>
    obtain ⟨hplaced, hsolid⟩ := hdisk
    have hholds := hplaced.holds t (by simp)
    exact
      { root := hroot
        nonzero := holds_ne_zero hready.zero_view hholds (label_mem_nodesOf height t)
        holds := hholds
        solid := hsolid
        lt := fun lba hlba ↦
          hready.sound.used_lt lba (hplaced.nodesOf_subset (by simp) hlba) }

/-! ### A new root -/

/-- A tree whose root is a leaf on disk is that leaf. -/
theorem Stored.eq_leaf (hstored : Stored kind hdrLba used ctx root) {left right : ℕ}
    (hleaf : kind.view ctx ctx.hdr.rootNodeLba = some (.leaf left right rs)) :
    root = .node 0 (ctx.hdr.rootNodeLba, rs) := by
  have hreads := hstored.reads
  cases root with
  | empty =>
    rw [show ctx.hdr.rootNodeLba = 0 from hreads, hstored.zero_view] at hleaf
    cases hleaf
  | node height t =>
    cases height with
    | zero =>
      obtain ⟨a, records⟩ := t
      obtain rfl : ctx.hdr.rootNodeLba = a := hreads.root
      obtain ⟨left', right', hnode⟩ := contentAt_leaf hreads.holds
      rw [hnode] at hleaf
      cases hleaf
      rfl
    | succ height =>
      obtain ⟨a, es⟩ := t
      obtain rfl : ctx.hdr.rootNodeLba = a := hreads.root
      obtain ⟨left', right', spare, hnode⟩ := contentAt_index hreads.holds.1
      rw [hnode] at hleaf
      cases hleaf


/-- The end of an insertion that makes a new root. -/
def plantRoot (kind : TreeKind κ ρ) (hdrLba lba : ℕ) (node : Node κ ρ) : Op TreeCtx Unit := do
  writeNode kind lba node
  modify fun ctx ↦ { ctx with hdr := { ctx.hdr with rootNodeLba := lba } }
  btreeHeaderWrite hdrLba

theorem Allocated.setRoot (hsound : Allocated ctx used) (lba : ℕ) :
    Allocated { ctx with hdr := { ctx.hdr with rootNodeLba := lba } } used :=
  ⟨hsound.zero_mem, hsound.used_lt, hsound.used_set, hsound.node_size, hsound.chain⟩

/-- What stands after a fresh node became the root. -/
structure Planted (kind : TreeKind κ ρ) (hdrLba : ℕ) (used : Set ℕ) (ctx : TreeCtx) (lba : ℕ)
    (node : Node κ ρ) (ctx' : TreeCtx) : Prop extends Ready kind hdrLba (insert lba used) ctx' where
  root_lba : ctx'.hdr.rootNodeLba = lba
  frames (nodes : Set ℕ) : Frames hdrLba used (insert lba used) nodes ctx ctx'
  view_self : kind.view ctx' lba = some node
  view_used : ∀ other ∈ used, kind.view ctx' other = kind.view ctx other
  spacious : ∀ k, Spacious ctx (k + 1) → Spacious ctx' k
  marks : ∀ other, ctx.vol.bitmap other = true → ctx'.vol.bitmap other = true
  balanced : Balanced ctx used → Balanced ctx' (insert lba used)
  persisted : Persisted hdrLba ctx'

theorem plantRoot_spec {ctx ctx₁ : TreeCtx} {lba : ℕ} (hready : Ready kind hdrLba used ctx)
    (halloc : AllocatedNode used ctx lba ctx₁) (node : Node κ ρ) :
    ∃ ctx', plantRoot kind hdrLba lba node ctx₁ = .ok () ctx' ∧
      Planted kind hdrLba used ctx lba node ctx' := by
  have hlba : lba ∈ insert lba used := Set.mem_insert lba used
  have hhdr : hdrLba ∈ insert lba used := Set.mem_insert_of_mem lba hready.header
  have hne (other : ℕ) (hother : other ∈ used) : other ≠ lba := fun h ↦ halloc.fresh (h ▸ hother)
  have hsound₂ := (halloc.sound.write hlba (kind.toBlock node)).setRoot lba
  set ctx₂ : TreeCtx :=
    { ctx₁.write lba (kind.toBlock node) with
      hdr := { ctx₁.hdr with rootNodeLba := lba } } with hctx₂
  have hview₂ (other : ℕ) (hother : other ∈ used) : kind.view ctx₂ other = kind.view ctx other := by
    have hwrite : kind.view ctx₂ other = kind.view (ctx₁.write lba (kind.toBlock node)) other := rfl
    rw [hwrite, view_write_of_ne (hne other hother), TreeKind.view, TreeKind.view,
      halloc.untouched.disk other hother]
  have hviewself : kind.view ctx₂ lba = some node := view_write_self ctx₁ lba node
  have hviewhdr : kind.view ctx₂ hdrLba = none := by
    rw [hview₂ hdrLba hready.header, hready.reserved hdrLba (Or.inr rfl)]
  have hview := view_write_header hviewhdr ctx₂.hdr
  refine ⟨ctx₂.write hdrLba (.treeHeader ctx₂.hdr), ?_, ⟨hsound₂.write hhdr _, hhdr, ?_⟩, rfl,
    fun nodes ↦ ⟨Set.subset_insert lba used, halloc.untouched.block_size,
      halloc.untouched.total_blocks, fun other hother hnot _ ↦ ?_⟩, ?_, ?_, ?_, halloc.marks,
    fun hbalanced ↦ ?_, .header ctx₂⟩
  · unfold plantRoot
    rw [bind_ok (halloc.sound.writeNode hlba node), modify_bind]
    exact hsound₂.btreeHeaderWrite hhdr
  · intro other hother
    have hused : other ∈ used := by
      rcases hother with rfl | rfl
      · exact hready.sound.zero_mem
      · exact hready.header
    rw [hview, hview₂ other hused, hready.reserved other hother]
  · rw [TreeCtx.write_disk, update_of_ne hnot]
    change (ctx₁.write lba (kind.toBlock node)).vol.disk other = _
    rw [TreeCtx.write_disk, update_of_ne (hne other hother), halloc.untouched.disk other hother]
  · rw [hview, hviewself]
  · exact fun other hother ↦ by rw [hview, hview₂ other hother]
  · exact fun k hk ↦ halloc.spacious k hk
  · have hbalanced₂ : Balanced ctx₂ (insert lba used) :=
      have h := (halloc.balanced hbalanced).1.write hlba (kind.toBlock node)
      ⟨h.clump_lt, h.chain⟩
    exact hbalanced₂.write hhdr _

/-- The account of a step that makes a fresh node the root, if it is granted one. -/
structure Plants (hdrLba : ℕ) (used used' : Set ℕ) (ctx ctx' : TreeCtx) (fresh : Option ℕ) :
    Prop where
  marks : ∀ lba, ctx.vol.bitmap lba = true → ctx'.vol.bitmap lba = true
  balanced : Balanced ctx used → Balanced ctx' used'
  asked : Balanced ctx used → fresh = none → nodesAtHand ctx = 0
  granted : ∀ lba, fresh = some lba → used' = insert lba used ∧ lba ∉ used ∧ Persisted hdrLba ctx'

theorem Plants.granted_one {hdrLba lba : ℕ} {ctx ctx₁ ctx' : TreeCtx} {node : Node κ ρ}
    (hplanted : Planted kind hdrLba used ctx lba node ctx')
    (hnode : AllocatedNode used ctx lba ctx₁) :
    Plants hdrLba used (insert lba used) ctx ctx' (some lba) where
  marks := hplanted.marks
  balanced := hplanted.balanced
  asked _ h := absurd h (by simp)
  granted _ h := Option.some.inj h ▸ ⟨rfl, hnode.fresh, hplanted.persisted⟩

theorem Plants.refused (hexhausted : Exhausted ctx) (hzero : 0 ∈ used) :
    Plants hdrLba used used ctx ctx none where
  marks _ h := h
  balanced h := h
  asked hbalanced _ := hexhausted.nodesAtHand hbalanced hzero
  granted _ h := absurd h (by simp)

/-! ### Insertion -/

/-- How an insertion ends: with the tree in order, or refused with a tree that can be read. -/
def Ends (kind : TreeKind κ ρ) (hdrLba : ℕ) (used : Set ℕ) (ctx : TreeCtx)
    (result : EStateM.Result ErrorCode TreeCtx Unit) : Root ℕ κ ρ × Bool → Prop
  | (root, true) => result = .ok () ctx ∧ Stored kind hdrLba used ctx root
  | (root, false) => result = .error .noSpc ctx ∧ Reads kind ctx root

theorem createRoot_spec (record : ρ) (hready : Ready kind hdrLba used ctx)
    (hroot : ctx.hdr.rootNodeLba = 0) :
    ∃ (fresh : Option ℕ) (used' : Set ℕ) (ctx' : TreeCtx), Frames hdrLba used used' ∅ ctx ctx' ∧
      Ends kind hdrLba used' ctx' (createRoot kind hdrLba record ctx)
        (match fresh with
          | none => (.empty, false)
          | some a => (.node 0 (a, [record]), true)) ∧
      (fresh = none ↔ Exhausted ctx) ∧ (fresh = none → ¬Spacious ctx 1) ∧
      (∀ k, Spacious ctx (k + 1) → Spacious ctx' k) ∧
      Plants hdrLba used used' ctx ctx' fresh := by
  have hrun : createRoot kind hdrLba record =
      (btreeAllocNode >>= fun lba ↦ plantRoot kind hdrLba lba (.leaf 0 0 [record])) := rfl
  rw [hrun]
  rcases btreeAllocNode_spec hready.sound with
    ⟨lba, ctx₁, halloc, hnode⟩ | ⟨halloc, hexhausted, hspacious⟩
  · obtain ⟨ctx', hplant, hplanted⟩ := plantRoot_spec hready hnode (.leaf 0 0 [record])
    refine ⟨some lba, insert lba used, ctx', hplanted.frames ∅, ⟨?_, hplanted.toReady,
      hplanted.root_lba, ⟨?_, ?_, ?_⟩, trivial⟩, by simp [hnode.had_room], by simp,
      hplanted.spacious, .granted_one hplanted hnode⟩
    · rw [bind_ok halloc, hplant]
    · intro t ht
      obtain rfl := List.mem_singleton.mp ht
      change contentAt _ lba = _
      rw [contentAt, hplanted.view_self]
      rfl
    · intro level hlevel
      obtain rfl : level = 0 := by omega
      have hrow : Row (kind.view ctx') 0 [lba] :=
        ⟨⟨⟨_, hplanted.view_self, rfl, rfl⟩, trivial⟩,
          by simp [hplanted.view_self, Node.level], by simp⟩
      simpa [nowhere, rowOf, row] using hrow
    · intro level hlevel
      obtain rfl : level = 0 := by omega
      simp [nowhere, rowOf, row]
  · refine ⟨none, used, ctx, ⟨subset_rfl, rfl, rfl, fun _ _ _ _ ↦ rfl⟩,
      ⟨bind_error halloc, hroot⟩, by simp [hexhausted], fun _ ↦ hspacious,
      fun k hk ↦ hk.mono (Nat.le_succ k), .refused hexhausted hready.sound.zero_mem⟩

theorem growRoot_spec {left right : Tree ℕ κ ρ height} (low push : κ)
    (hready : Ready kind hdrLba used ctx)
    (hplaced : Placed (kind.view ctx) used height nowhere nowhere [left, right])
    (hsolid : Solid height left ∧ Solid height right)
    (hroot : ctx.hdr.rootNodeLba = label height left) :
    ∃ (fresh : Option ℕ) (used' : Set ℕ) (ctx' : TreeCtx),
      (∀ nodes, Frames hdrLba used used' nodes ctx ctx') ∧
      Ends kind hdrLba used' ctx'
        (growRoot kind hdrLba ⟨label height left, low, label height right, push⟩ ctx)
        (match fresh with
          | none => (.node height left, false)
          | some b => (.node (height + 1) (b, [(low, left), (push, right)]), true)) ∧
      (fresh = none → ¬Spacious ctx 1) ∧ (∀ k, Spacious ctx (k + 1) → Spacious ctx' k) ∧
      Plants hdrLba used used' ctx ctx' fresh := by
  have hlabel : label height left ∈ used := hplaced.nodesOf_subset (by simp)
    (label_mem_nodesOf height left)
  have hholds := hplaced.holds left (by simp)
  unfold growRoot
  rcases btreeAllocNode_spec hready.sound with
    ⟨b, ctx₁, halloc, hnode⟩ | ⟨halloc, hexhausted, hspacious⟩
  · set root : Node κ ρ := .index (height + 1) 0 0
      [(low, label height left), (push, label height right)] none with hrootnode
    obtain ⟨ctx', hplant, hplanted⟩ := plantRoot_spec hready hnode root
    obtain ⟨old, hold, hlevel⟩ := Option.map_eq_some_iff.mp hholds.level_label
    have hread : readNode kind .corrupt (label height left) ctx₁ = .ok old ctx₁ := by
      refine readNode_ok (hnode.sound.used_lt _ (Set.mem_insert_of_mem b hlabel)) ?_
      rw [← hold, TreeKind.view, TreeKind.view, hnode.untouched.disk _ hlabel]
    have hview (level : ℕ) (hlevel : level ≤ height) (lba : ℕ)
        (hlba : lba ∈ nowhere level ++ rowOf [left, right] level ++ nowhere level) :
        kind.view ctx' lba = kind.view ctx lba :=
      hplanted.view_used lba (hplaced.mem_used level hlevel lba hlba)
    refine ⟨some b, insert b used, ctx', hplanted.frames, ⟨?_, hplanted.toReady,
      hplanted.root_lba, Placed.up ?_ ?_ ?_ ?_, ⟨by simp, ?_⟩⟩, by simp, hplanted.spacious,
      .granted_one hplanted hnode⟩
    · rw [bind_ok halloc, bind_ok hread, hlevel]
      exact hplant
    · exact hplaced.congr (Set.subset_insert b used) hview
    · intro t ht
      obtain rfl := List.mem_singleton.mp ht
      rw [contentAt, hplanted.view_self]
      rfl
    · have hrow : Row (kind.view ctx') (height + 1) [b] :=
        ⟨⟨⟨_, hplanted.view_self, rfl, rfl⟩, trivial⟩,
          by simp [hplanted.view_self, hrootnode, Node.level], by simp⟩
      simpa [nowhere] using hrow
    · simp [nowhere]
    · simpa using hsolid
  · refine ⟨none, used, ctx, fun nodes ↦ ⟨subset_rfl, rfl, rfl, fun _ _ _ _ ↦ rfl⟩,
      ⟨bind_error halloc, ?_⟩, fun _ ↦ hspacious, fun k hk ↦ hk.mono (Nat.le_succ k),
      .refused hexhausted hready.sound.zero_mem⟩
    exact
      { root := hroot
        nonzero := holds_ne_zero hready.zero_view hholds (label_mem_nodesOf height left)
        holds := hholds
        solid := hsolid.1
        lt := fun lba hlba ↦
          hready.sound.used_lt lba (hplaced.nodesOf_subset (by simp) hlba) }

theorem btreeInsert_node (record : ρ) (hroot : ctx.hdr.rootNodeLba ≠ 0) {leaf : LeafAt ρ}
    {path : List (ℕ × ℕ)}
    (hdescent : descendPath kind (kind.key record) btreeMaxDepth ctx.hdr.rootNodeLba [] ctx =
      .ok (leaf, path) ctx) :
    btreeInsert kind hdrLba record ctx = (insertBelow kind hdrLba record leaf path >>= fun
        | none => pure ()
        | some split => growRoot kind hdrLba split) ctx := by
  unfold btreeInsert
  rw [get_bind, if_neg hroot, bind_ok hdescent]
  simp only [insertBelow, bind_assoc]
  refine congrFun (congrArg (leafInsert kind record leaf >>= ·) (funext fun result ↦ ?_)) ctx
  cases result with
  | none => simp
  | some split => rfl

/-- An insertion in a tree that is deeper than the paths of the code. -/
theorem btreeInsert_deep (record : ρ) (hstored : Stored kind hdrLba used ctx root)
    (hdepth : btreeMaxDepth < root.height) :
    btreeInsert kind hdrLba record ctx = .error .inval ctx := by
  cases root with
  | empty => simp [Root.height] at hdepth
  | node height t =>
    obtain ⟨hroot, hnonzero, hholds, hsolid, hlt⟩ := hstored.reads
    unfold btreeInsert
    rw [get_bind, if_neg (by rwa [hroot]), hroot]
    rcases descendPath_spec (kind.key record) btreeMaxDepth [] hholds hsolid
      (fun level hlevel lba hlba ↦ hlt lba ⟨level, hlevel, hlba⟩) with ⟨hle, -⟩ | ⟨-, hrun⟩
    · exact absurd hdepth (Nat.not_lt.mpr hle)
    · exact bind_error hrun

/-- The nodes of a tree with a new root over the halves of the old one. -/
theorem nodesOf_newRoot {height b : ℕ} {left right : Tree ℕ κ ρ height} {low push : κ}
    {nodes used used' : Set ℕ}
    (hhalves : nodesOf height left ∪ nodesOf height right = nodes ∪ used' \ used)
    (hgrow : used ⊆ used') (hfresh : b ∉ used') :
    nodesOf (height + 1) (b, [(low, left), (push, right)]) = nodes ∪ insert b used' \ used := by
  ext lba
  have hlba := congrArg (lba ∈ ·) hhalves
  simp only [Set.mem_union, Set.mem_sdiff, eq_iff_iff] at hlba
  simp only [mem_nodesOf_index, List.mem_cons, List.not_mem_nil, or_false, exists_eq_or_imp,
    exists_eq_left, hlba, Set.mem_union, Set.mem_sdiff, Set.mem_insert_iff]
  constructor
  · rintro (rfl | h | ⟨h, hnot⟩)
    · exact Or.inr ⟨Or.inl rfl, fun h ↦ hfresh (hgrow h)⟩
    · exact Or.inl h
    · exact Or.inr ⟨Or.inr h, hnot⟩
  · rintro (h | ⟨rfl | h, hnot⟩)
    · exact Or.inr (Or.inl h)
    · exact Or.inl rfl
    · exact Or.inr (Or.inr ⟨h, hnot⟩)

/-- The account of an insertion: it asks for its nodes one level after the other, and when it ends
well the nodes it was granted are in the tree and the header on disk is no older than before. -/
structure InsertAccounts (hdrLba : ℕ) (used used' : Set ℕ) (ctx ctx' : TreeCtx)
    (fresh : ℕ → Option ℕ) (root : Root ℕ κ ρ) (result : Root ℕ κ ρ × Bool) : Prop where
  marks : ∀ lba, ctx.vol.bitmap lba = true → ctx'.vol.bitmap lba = true
  balanced : Balanced ctx used → Balanced ctx' used'
  asked : Balanced ctx used → ∀ level ≤ root.height + 1, fresh level = none →
    nodesAtHand ctx ≤ level
  nodes : result.2 = true → rootNodes result.1 = rootNodes root ∪ used' \ used
  persisted : result.2 = true → Persisted hdrLba ctx → Persisted hdrLba ctx'

/-- An insertion on disk is an insertion in the tree. -/
theorem btreeInsert_spec (record : ρ) (hstored : Stored kind hdrLba used ctx root)
    (hdepth : root.height ≤ btreeMaxDepth)
    (hindexMax : 1 ≤ maxKeys ctx.vol.blockSize kind.entrySize) :
    ∃ (fresh : ℕ → Option ℕ) (used' : Set ℕ) (ctx' : TreeCtx),
      Frames hdrLba used used' (rootNodes root) ctx ctx' ∧
      Ends kind hdrLba used' ctx' (btreeInsert kind hdrLba record ctx)
        (root.put kind.key (maxKeys ctx.vol.blockSize kind.recordSize)
          (maxKeys ctx.vol.blockSize kind.entrySize) fresh record) ∧
      (fresh 0 = none ↔ Exhausted ctx) ∧
      (∀ level ≤ root.height + 1, fresh level = none → ¬Spacious ctx (root.height + 2)) ∧
      (∀ k, Spacious ctx (k + (root.height + 2)) → Spacious ctx' k) ∧
      InsertAccounts hdrLba used used' ctx ctx' fresh root
        (root.put kind.key (maxKeys ctx.vol.blockSize kind.recordSize)
          (maxKeys ctx.vol.blockSize kind.entrySize) fresh record) := by
  cases root with
  | empty =>
    obtain ⟨fresh, used', ctx', hframes, hends, hexhausted, hnone, hspacious, hplants⟩ :=
      createRoot_spec record hstored.toReady hstored.root_lba
    refine ⟨fun _ ↦ fresh, used', ctx', hframes, ?_, hexhausted,
      fun level _ h hs ↦ hnone h (hs.mono (by simp [Root.height])),
      fun k hk ↦ hspacious k (hk.mono (by simp [Root.height])), hplants.marks, hplants.balanced,
      fun hbalanced level _ h ↦ (hplants.asked hbalanced h).le.trans (Nat.zero_le _), ?_, ?_⟩
    rotate_left
    · intro hdone
      cases fresh with
      | none => simp [Root.put] at hdone
      | some b =>
        obtain ⟨rfl, hfresh, -⟩ := hplants.granted b rfl
        ext lba
        simp only [Root.put, rootNodes, mem_nodesOf_leaf, Set.empty_union, Set.mem_sdiff,
          Set.mem_insert_iff]
        constructor
        · rintro rfl
          exact ⟨Or.inl rfl, hfresh⟩
        · exact fun h ↦ h.1.resolve_right h.2
    · intro hdone _
      cases fresh with
      | none => simp [Root.put] at hdone
      | some b => exact (hplants.granted b rfl).2.2
    have hrun : btreeInsert kind hdrLba record ctx = createRoot kind hdrLba record ctx := by
      unfold btreeInsert
      rw [get_bind, if_pos (show ctx.hdr.rootNodeLba = 0 from hstored.root_lba)]
    rw [hrun, Root.put]
    cases fresh <;> exact hends
  | node height t =>
    obtain ⟨hroot, hnonzero, hholds, hsolid, hlt⟩ := hstored.reads
    obtain ⟨hplaced, -⟩ := hstored.on_disk
    obtain ⟨-, left, right, hleaf, hdescent⟩ := (descendPath_spec (kind.key record) btreeMaxDepth []
      hholds hsolid fun level hlevel lba hlba ↦ hlt lba ⟨level, hlevel, hlba⟩).resolve_right
        fun h ↦ absurd h.1 (Nat.not_lt.mpr hdepth)
    rw [← hroot, List.append_nil] at hdescent
    rw [btreeInsert_node record (by rwa [hroot]) hdescent]
    obtain ⟨fresh, used₁, ctx₁, hevolves, hruns, hexhausted, hnone, hspacious, haccounts⟩ :=
      insertBelow_spec record hstored.toReady hplaced hsolid hleaf
    rw [levelsOf_nowhere] at hevolves
    have hframes : Frames hdrLba used used₁ (nodesOf height t) ctx ctx₁ :=
      ⟨hevolves.grow, hevolves.block_size, hevolves.total_blocks, hevolves.frame⟩
    have hready₁ : Ready kind hdrLba used₁ ctx₁ :=
      ⟨hevolves.sound, hevolves.grow hstored.header, hevolves.reserved⟩
    have hputsolid : (put kind.key (maxKeys ctx.vol.blockSize kind.recordSize)
        (maxKeys ctx.vol.blockSize kind.entrySize) fresh record height t).Solid :=
      put_solid hindexMax hsolid
    have hfresh' (top : Option ℕ) : update fresh (height + 1) top 0 = none ↔ Exhausted ctx := by
      rw [update_of_ne (by omega), hexhausted]
    have hnone' (top : Option ℕ) (htop : top = none → ¬Spacious ctx (height + 2)) :
        ∀ level ≤ height + 1, update fresh (height + 1) top level = none →
          ¬Spacious ctx (height + 2) := by
      intro level hlevel hnone'
      rcases Nat.eq_or_lt_of_le hlevel with rfl | hlt
      · exact htop (by simpa using hnone')
      · rw [update_of_ne (by omega)] at hnone'
        exact fun h ↦ hnone level (by omega) hnone' (h.mono (Nat.le_succ _))
    have hasked (top : Option ℕ)
        (htop : Balanced ctx used → top = none → nodesAtHand ctx ≤ height + 1) :
        Balanced ctx used → ∀ level ≤ height + 1,
          update fresh (height + 1) top level = none → nodesAtHand ctx ≤ level := by
      intro hbalanced level hlevel hnone'
      rcases Nat.eq_or_lt_of_le hlevel with rfl | hlt
      · exact htop hbalanced (by simpa using hnone')
      · rw [update_of_ne (by omega)] at hnone'
        exact haccounts.asked hbalanced level (by omega) hnone'
    have hcovers := haccounts.covers
    have hpersisted := haccounts.persisted
    simp only [Root.height, rootNodes]
    cases hresult : put kind.key (maxKeys ctx.vol.blockSize kind.recordSize)
        (maxKeys ctx.vol.blockSize kind.entrySize) fresh record height t with
    | kept u =>
      rw [hresult] at hruns hputsolid hcovers
      obtain ⟨hrun, hlabel, hplaced₁⟩ := hruns
      refine ⟨update fresh (height + 1) (some 0), used₁, ctx₁, hframes, ?_, hfresh' _,
        hnone' _ (by simp), fun k hk ↦ hspacious k (hk.mono (by omega)), hevolves.marks,
        hevolves.balanced, hasked _ (by simp),
        fun _ ↦ by rw [Root.put_node_update, hresult]; exact hcovers,
        fun _ ↦ hpersisted u hresult⟩
      rw [Root.put_node_update, hresult, bind_ok hrun]
      exact ⟨rfl, hready₁, by rw [hevolves.root, hroot]; exact hlabel.symm, hplaced₁, hputsolid⟩
    | refused u =>
      rw [hresult] at hruns hputsolid
      obtain ⟨hrun, hlabel, hholds₁, hnodes⟩ := hruns
      refine ⟨update fresh (height + 1) (some 0), used₁, ctx₁, hframes, ?_, hfresh' _,
        hnone' _ (by simp), fun k hk ↦ hspacious k (hk.mono (by omega)), hevolves.marks,
        hevolves.balanced, hasked _ (by simp),
        fun hdone ↦ (by rw [Root.put_node_update, hresult] at hdone; cases hdone),
        fun hdone ↦ (by rw [Root.put_node_update, hresult] at hdone; cases hdone)⟩
      rw [Root.put_node_update, hresult, bind_error hrun]
      exact ⟨rfl,
        { root := by rw [hevolves.root, hroot, hlabel]
          nonzero := holds_ne_zero hready₁.zero_view hholds₁ (label_mem_nodesOf height u)
          holds := hholds₁
          solid := hputsolid
          lt := fun lba hlba ↦ hready₁.sound.used_lt lba (hnodes hlba) }⟩
    | split l low r push =>
      rw [hresult] at hruns hputsolid hcovers
      obtain ⟨hrun, hlabel, hplaced₁⟩ := hruns
      obtain ⟨top, used₂, ctx₂, hframes₂, hends, htop, hspacious₂, hplants⟩ :=
        growRoot_spec low push hready₁ hplaced₁ hputsolid
          (by rw [hevolves.root, hroot, hlabel])
      refine ⟨update fresh (height + 1) top, used₂, ctx₂,
        hframes.trans (hframes₂ (nodesOf height t)), ?_, hfresh' _,
        hnone' _ fun htop' hk ↦ htop htop' (hspacious 1 (hk.mono (by omega))),
        fun k hk ↦ hspacious₂ k (hspacious (k + 1) (hk.mono (by omega))),
        fun lba hset ↦ hplants.marks lba (hevolves.marks lba hset),
        fun hbalanced ↦ hplants.balanced (hevolves.balanced hbalanced),
        hasked _ fun hbalanced htop' ↦ ?_, fun hdone ↦ ?_, fun hdone _ ↦ ?_⟩
      rotate_left
      · have hbelow := haccounts.spent hbalanced
        have habove := hplants.asked (hevolves.balanced hbalanced) htop'
        omega
      · rw [Root.put_node_update, hresult] at hdone ⊢
        cases top with
        | none => cases hdone
        | some b =>
          obtain ⟨rfl, hfresh, -⟩ := hplants.granted b rfl
          exact nodesOf_newRoot hcovers hevolves.grow hfresh
      · rw [Root.put_node_update, hresult] at hdone
        cases top with
        | none => cases hdone
        | some b => exact (hplants.granted b rfl).2.2
      rw [Root.put_node_update, hresult, bind_ok hrun]
      cases top <;> exact hends

end Obmafs3
