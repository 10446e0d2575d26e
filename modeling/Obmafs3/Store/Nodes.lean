import Obmafs3.Store.Layout

/-!
# Reading, writing and dividing nodes

What the node operations do on a sound volume. `divide_spec` is the common part of every split: a
node of a row keeps its left half, a fresh node takes the right half, and the node that used to
follow learns its new left neighbour.
-/

set_option autoImplicit false

namespace Obmafs3

variable {κ ρ : Type} {kind : TreeKind κ ρ}

/-! ### Reading and writing nodes -/

variable {ctx : TreeCtx} {used : Set ℕ} {lba : ℕ}

variable {before after : List ℕ} {node : Node κ ρ} {level a b : ℕ}

theorem readNode_ok {bad : ErrorCode} (hlba : lba < ctx.vol.totalBlocks)
    (hnode : kind.view ctx lba = some node) : readNode kind bad lba ctx = .ok node ctx := by
  unfold readNode
  rw [bind_ok (blockRead_ok hlba)]
  change kind.ofBlock (ctx.vol.disk lba) = some node at hnode
  simp only [hnode]
  rfl

theorem Allocated.writeNode (hsound : Allocated ctx used) (hlba : lba ∈ used) (node : Node κ ρ) :
    writeNode kind lba node ctx = .ok () (ctx.write lba (kind.toBlock node)) :=
  hsound.blockWrite hlba _

@[simp] theorem view_write_self (ctx : TreeCtx) (lba : ℕ) (node : Node κ ρ) :
    kind.view (ctx.write lba (kind.toBlock node)) lba = some node := by
  simp [TreeKind.view, kind.ofBlock_toBlock]

theorem view_write_of_ne {lba other : ℕ} (hne : other ≠ lba) (block : Block) :
    kind.view (ctx.write lba block) other = kind.view ctx other := by
  simp [TreeKind.view, hne]

/-- The header holds no node before it is written nor after. -/
theorem view_write_header {hdrLba : ℕ} (hreserved : kind.view ctx hdrLba = none)
    (header : BtreeHeader) (lba : ℕ) :
    kind.view (ctx.write hdrLba (.treeHeader header)) lba = kind.view ctx lba := by
  by_cases hne : lba = hdrLba
  · rw [hne, hreserved]
    simp [TreeKind.view, kind.ofBlock_header]
  · rw [view_write_of_ne hne]

/-- The state after a node was patched. -/
def TreeCtx.patch (ctx : TreeCtx) (kind : TreeKind κ ρ) (lba : ℕ) (change : Node κ ρ → Node κ ρ) :
    TreeCtx :=
  match kind.view ctx lba with
  | none => ctx
  | some node => ctx.write lba (kind.toBlock (change node))

theorem Allocated.patchNode (hsound : Allocated ctx used) (hzero : kind.view ctx 0 = none)
    (hlba : lba ∈ used) (change : Node κ ρ → Node κ ρ) :
    patchNode kind lba change ctx = .ok () (ctx.patch kind lba change) := by
  have hlt := hsound.used_lt lba hlba
  unfold Obmafs3.patchNode TreeCtx.patch
  rcases Nat.eq_zero_or_pos lba with rfl | hpos
  · rw [if_pos rfl, hzero]
  · rw [if_neg (Nat.pos_iff_ne_zero.mp hpos), Volume.blockRead, if_pos hlt]
    change (match kind.view ctx lba with | none => _ | some node => _) = _
    cases hnode : kind.view ctx lba with
    | none => rfl
    | some node =>
      simp only [Volume.blockWrite, if_pos hlt]
      rfl

theorem Allocated.patch (hsound : Allocated ctx used) (hlba : lba ∈ used)
    (change : Node κ ρ → Node κ ρ) : Allocated (ctx.patch kind lba change) used := by
  unfold TreeCtx.patch
  cases kind.view ctx lba with
  | none => exact hsound
  | some node => exact hsound.write hlba _

theorem view_patch_self (ctx : TreeCtx) (lba : ℕ) (change : Node κ ρ → Node κ ρ) :
    kind.view (ctx.patch kind lba change) lba = (kind.view ctx lba).map change := by
  unfold TreeCtx.patch
  cases hnode : kind.view ctx lba with
  | none => exact hnode
  | some node => simp

theorem disk_patch_of_ne {lba other : ℕ} (hne : other ≠ lba) (change : Node κ ρ → Node κ ρ) :
    (ctx.patch kind lba change).vol.disk other = ctx.vol.disk other := by
  unfold TreeCtx.patch
  cases kind.view ctx lba with
  | none => rfl
  | some node => simp [hne]

/-- Two states that differ in what the disk holds and in nothing else. -/
def SameButDisk (ctx ctx' : TreeCtx) : Prop :=
  ∃ disk, ctx' = { ctx with vol := { ctx.vol with disk := disk } }

theorem SameButDisk.refl (ctx : TreeCtx) : SameButDisk ctx ctx := ⟨_, rfl⟩

theorem SameButDisk.write (ctx : TreeCtx) (lba : ℕ) (block : Block) :
    SameButDisk ctx (ctx.write lba block) := ⟨_, rfl⟩

theorem SameButDisk.patch (ctx : TreeCtx) (lba : ℕ) (change : Node κ ρ → Node κ ρ) :
    SameButDisk ctx (ctx.patch kind lba change) := by
  unfold TreeCtx.patch
  cases kind.view ctx lba with
  | none => exact .refl ctx
  | some node => exact .write ctx lba _

theorem SameButDisk.trans {c₁ c₂ c₃ : TreeCtx} (h₁ : SameButDisk c₁ c₂) (h₂ : SameButDisk c₂ c₃) :
    SameButDisk c₁ c₃ := by
  obtain ⟨d, rfl⟩ := h₁
  obtain ⟨e, rfl⟩ := h₂
  exact ⟨e, rfl⟩

/-! ### Dividing a node -/

/-- What stands after a node of a row was divided in two and its neighbour was told. -/
structure Divided (kind : TreeKind κ ρ) (used : Set ℕ) (ctx ctx₁ ctx' : TreeCtx) (level : ℕ)
    (before : List ℕ) (a b : ℕ) (after : List ℕ) (A B : Node κ ρ) : Prop where
  same : SameButDisk ctx₁ ctx'
  sound : Allocated ctx' (insert b used)
  row : Row (kind.view ctx') level (before ++ a :: b :: after)
  left : kind.view ctx' a = some A
  right : kind.view ctx' b = some B
  disk : ∀ lba, lba ∉ before ++ a :: after → lba ≠ b → ctx'.vol.disk lba = ctx₁.vol.disk lba
  content : ∀ lba ∈ used, lba ≠ a → contentAt (kind.view ctx') lba = contentAt (kind.view ctx) lba

theorem divide_spec {ctx ctx₁ : TreeCtx} {node A B : Node κ ρ}
    (halloc : AllocatedNode used ctx b ctx₁) (hzero : kind.view ctx 0 = none) (hzeroused : 0 ∈ used)
    (hrow : Row (kind.view ctx) level (before ++ a :: after))
    (hused : ∀ lba ∈ before ++ a :: after, lba ∈ used) (hnode : kind.view ctx a = some node)
    (hA : A.leftLink = node.leftLink ∧ A.rightLink = b ∧ A.level = level)
    (hB : B.leftLink = a ∧ B.rightLink = node.rightLink ∧ B.level = level) :
    ∃ c₁ c₂ c₃, writeNode kind a A ctx₁ = .ok () c₁ ∧ writeNode kind b B c₁ = .ok () c₂ ∧
      patchNode kind node.rightLink (·.setLeftLink b) c₂ = .ok () c₃ ∧
      Divided kind used ctx ctx₁ c₃ level before a b after A B := by
  obtain ⟨hfresh, hsound, huntouched, -, -⟩ := halloc
  have haused : a ∈ used := hused a (by simp)
  have hab : a ≠ b := fun h ↦ hfresh (h ▸ haused)
  obtain ⟨node', hnode', hleft, hright⟩ := hrow.linked.at
  obtain rfl : node = node' := Option.some.inj (hnode.symm.trans hnode')
  have hrightused : node.rightLink ∈ insert b used := by
    rw [hright]
    cases after with
    | nil => exact Set.mem_insert_of_mem _ hzeroused
    | cons lba rest => exact Set.mem_insert_of_mem _ (hused lba (by simp))
  have hnodup := hrow.nodup
  have hrightne : node.rightLink ≠ a ∧ node.rightLink ≠ b := by
    rw [hright]
    cases after with
    | nil =>
      refine ⟨?_, ?_⟩
      · rintro rfl
        simp [hzero] at hnode
      · rintro rfl
        exact hfresh hzeroused
    | cons lba rest =>
      refine ⟨?_, ?_⟩
      · rintro rfl
        have := (List.nodup_append.mp hnodup).2.1
        simp at this
      · rintro rfl
        exact hfresh (hused _ (by simp))
  have hview₁ (lba : ℕ) (hlba : lba ∈ used) : kind.view ctx₁ lba = kind.view ctx lba := by
    simp only [TreeKind.view, huntouched.disk lba hlba]
  have hsound₁ := hsound.write (Set.mem_insert_of_mem b haused) (kind.toBlock A)
  have hsound₂ := hsound₁.write (Set.mem_insert b used) (kind.toBlock B)
  have hzerone : (0 : ℕ) ≠ a ∧ (0 : ℕ) ≠ b :=
    ⟨by rintro rfl; simp [hzero] at hnode, by rintro rfl; exact hfresh hzeroused⟩
  have hzero₂ : kind.view ((ctx₁.write a (kind.toBlock A)).write b (kind.toBlock B)) 0 = none := by
    rw [view_write_of_ne hzerone.2, view_write_of_ne hzerone.1, hview₁ 0 hzeroused, hzero]
  set c₂ := (ctx₁.write a (kind.toBlock A)).write b (kind.toBlock B) with hc₂
  have hview₂ (lba : ℕ) (ha : lba ≠ a) (hb : lba ≠ b) : kind.view c₂ lba = kind.view ctx₁ lba := by
    rw [hc₂, view_write_of_ne hb, view_write_of_ne ha]
  have hviewa : kind.view c₂ a = some A := by rw [hc₂, view_write_of_ne hab, view_write_self]
  have hviewb : kind.view c₂ b = some B := by rw [hc₂, view_write_self]
  have hpatch (lba : ℕ) (hne : lba ≠ node.rightLink) :
      kind.view (c₂.patch kind node.rightLink (·.setLeftLink b)) lba = kind.view c₂ lba := by
    simp only [TreeKind.view, disk_patch_of_ne hne]
  have hleft' : kind.view (c₂.patch kind node.rightLink (·.setLeftLink b)) a = some A := by
    rw [hpatch a hrightne.1.symm, hviewa]
  have hright' : kind.view (c₂.patch kind node.rightLink (·.setLeftLink b)) b = some B := by
    rw [hpatch b hrightne.2.symm, hviewb]
  have hkept (lba : ℕ) (hlba : lba ∈ used) (ha : lba ≠ a) (hr : lba ≠ node.rightLink) :
      kind.view (c₂.patch kind node.rightLink (·.setLeftLink b)) lba = kind.view ctx lba := by
    rw [hpatch lba hr, hview₂ lba ha (fun h ↦ hfresh (h ▸ hlba)), hview₁ lba hlba]
  have hneighbour (hlba : node.rightLink ∈ used) :
      kind.view (c₂.patch kind node.rightLink (·.setLeftLink b)) node.rightLink =
        (kind.view ctx node.rightLink).map (·.setLeftLink b) := by
    rw [view_patch_self, hview₂ _ hrightne.1 hrightne.2, hview₁ _ hlba]
  refine ⟨_, _, _, hsound.writeNode (Set.mem_insert_of_mem b haused) A,
    hsound₁.writeNode (Set.mem_insert b used) B, hsound₂.patchNode hzero₂ hrightused _, ?_⟩
  refine ⟨(SameButDisk.write _ _ _).trans ((SameButDisk.write _ _ _).trans (.patch _ _ _)),
    hsound₂.patch hrightused _, ⟨?_, ?_, ?_⟩, hleft', hright', fun lba hlba hb ↦ ?_,
    fun lba hlba ha ↦ ?_⟩
  · refine hrow.linked.splice ⟨A, hleft', by rw [hA.1, hleft], hA.2.1⟩
      ⟨B, hright', hB.1, by rw [hB.2.1, hright]⟩ (fun lba hlba ↦ ?_) (fun lba rest heq ↦ ?_)
      (fun lba hlba ↦ ?_)
    · have hmem : lba ∈ before ++ a :: after := List.mem_append_left _ hlba
      refine hkept lba (hused lba hmem) ?_ ?_
      · rintro rfl
        exact (List.nodup_append.mp hnodup).2.2 lba hlba lba List.mem_cons_self rfl
      · intro heq
        rw [hright] at heq
        cases after with
        | nil =>
          obtain rfl : lba = 0 := heq
          simpa [hzero] using hrow.level_eq 0 hmem
        | cons other rest =>
          exact (List.nodup_append.mp hnodup).2.2 lba hlba other (by simp) heq
    · have hnext : node.rightLink = lba := by rw [hright, heq]; rfl
      rw [← hnext]
      exact hneighbour (hused _ (by simp [hnext, heq]))
    · cases after with
      | nil => simp at hlba
      | cons other rest =>
        have hsub := (List.nodup_append.mp hnodup).2.1
        simp only [List.nodup_cons, List.mem_cons, not_or] at hsub
        have hlba' : lba ∈ rest := hlba
        refine hkept lba (hused lba (by simp [hlba'])) ?_ ?_
        · rintro rfl
          exact hsub.1.2 hlba'
        · rw [hright]
          rintro rfl
          exact hsub.2.1 hlba'
  · intro lba hlba
    have hcases : lba = a ∨ lba = b ∨ lba ∈ before ++ a :: after := by
      simp only [List.mem_append, List.mem_cons] at hlba ⊢
      tauto
    by_cases ha : lba = a
    · rw [ha, hleft', Option.map_some, hA.2.2]
    by_cases hb : lba = b
    · rw [hb, hright', Option.map_some, hB.2.2]
    have hmem := (hcases.resolve_left ha).resolve_left hb
    by_cases hr : lba = node.rightLink
    · rw [hr, hneighbour (hr ▸ hused lba hmem), Option.map_map, ← hr]
      simpa [Function.comp_def] using hrow.level_eq lba hmem
    · rw [hkept lba (hused lba hmem) ha hr, hrow.level_eq lba hmem]
  · have hbnot : b ∉ before ++ a :: after := fun h ↦ hfresh (hused b h)
    have hperm : (before ++ a :: b :: after).Perm (b :: (before ++ a :: after)) := by
      have h : (before ++ [a] ++ b :: after).Perm (b :: (before ++ [a] ++ after)) :=
        List.perm_middle
      simpa using h
    exact hperm.nodup_iff.mpr (List.nodup_cons.mpr ⟨hbnot, hnodup⟩)
  · have ha : lba ≠ a := fun h ↦ hlba (by simp [h])
    by_cases hr : lba = node.rightLink
    · have hnone : kind.view c₂ node.rightLink = none := by
        cases after with
        | nil => rw [hright]; exact hzero₂
        | cons other rest => exact absurd (by simp [hr, hright]) hlba
      unfold TreeCtx.patch
      rw [hnone, hc₂]
      simp [ha, hb]
    · rw [disk_patch_of_ne hr, hc₂]
      simp [ha, hb]
  · by_cases hr : lba = node.rightLink
    · rw [contentAt, contentAt, hr, hneighbour (hr ▸ hlba), Option.map_map]
      simp [Function.comp_def]
    · rw [contentAt, contentAt, hkept lba hlba ha hr]

/-- A division spends one of the nodes that can be had. -/
theorem Divided.balanced {ctx ctx₁ ctx' : TreeCtx} {A B : Node κ ρ}
    (hdivided : Divided kind used ctx ctx₁ ctx' level before a b after A B)
    (halloc : AllocatedNode used ctx b ctx₁) (hused : ∀ lba ∈ before ++ a :: after, lba ∈ used)
    (hbalanced : Balanced ctx used) :
    Balanced ctx' (insert b used) ∧ nodesAtHand ctx = nodesAtHand ctx' + 1 := by
  obtain ⟨⟨hclump, chain, hchain, hlength, hapart, hall⟩, hcount⟩ := halloc.balanced hbalanced
  have hdisk := hdivided.disk
  obtain ⟨disk, rfl⟩ := hdivided.same
  refine ⟨⟨hclump, chain, hchain.congr fun lba hlba ↦ ?_, hlength, hapart, hall⟩, hcount⟩
  refine hdisk lba (fun h ↦ ?_) fun h ↦ ?_
  · exact hapart lba hlba (Set.mem_insert_of_mem _ (hused lba h))
  · exact hapart lba hlba (h ▸ Set.mem_insert _ _)

/-! ### What a step on one tree leaves alone -/

/-- A step of an operation on a tree: outside the nodes in `R` and the header no block in use
changes, and outside the nodes in `O` no node in use changes but for its links. -/
structure Evolves (kind : TreeKind κ ρ) (hdrLba : ℕ) (used used' R O : Set ℕ)
    (ctx ctx' : TreeCtx) : Prop where
  marks : ∀ lba, ctx.vol.bitmap lba = true → ctx'.vol.bitmap lba = true
  balanced : Balanced ctx used → Balanced ctx' used'
  grow : used ⊆ used'
  sound : Allocated ctx' used'
  root : ctx'.hdr.rootNodeLba = ctx.hdr.rootNodeLba
  block_size : ctx'.vol.blockSize = ctx.vol.blockSize
  total_blocks : ctx'.vol.totalBlocks = ctx.vol.totalBlocks
  reserved : ∀ lba, lba = 0 ∨ lba = hdrLba → kind.view ctx' lba = none
  frame : ∀ lba ∈ used, lba ≠ hdrLba → lba ∉ R → ctx'.vol.disk lba = ctx.vol.disk lba
  content : ∀ lba ∈ used, lba ∉ O → contentAt (kind.view ctx') lba = contentAt (kind.view ctx) lba

section Evolves

variable {hdrLba : ℕ} {used used' used'' R O : Set ℕ} {ctx ctx' ctx'' : TreeCtx}

theorem Evolves.refl (hsound : Allocated ctx used)
    (hreserved : ∀ lba, lba = 0 ∨ lba = hdrLba → kind.view ctx lba = none) :
    Evolves kind hdrLba used used R O ctx ctx where
  marks _ h := h
  balanced h := h
  grow := subset_rfl
  sound := hsound
  root := rfl
  block_size := rfl
  total_blocks := rfl
  reserved := hreserved
  frame _ _ _ _ := rfl
  content _ _ _ := rfl

section

variable (h : Evolves kind hdrLba used used' R O ctx ctx')
include h

theorem Evolves.trans (h' : Evolves kind hdrLba used' used'' R O ctx' ctx'') :
    Evolves kind hdrLba used used'' R O ctx ctx'' where
  marks lba hset := h'.marks lba (h.marks lba hset)
  balanced hbalanced := h'.balanced (h.balanced hbalanced)
  grow := h.grow.trans h'.grow
  sound := h'.sound
  root := h'.root.trans h.root
  block_size := h'.block_size.trans h.block_size
  total_blocks := h'.total_blocks.trans h.total_blocks
  reserved := h'.reserved
  frame lba hlba hhdr hR := (h'.frame lba (h.grow hlba) hhdr hR).trans (h.frame lba hlba hhdr hR)
  content lba hlba hO := (h'.content lba (h.grow hlba) hO).trans (h.content lba hlba hO)

theorem Evolves.mono {R' O' : Set ℕ} (hR : R ⊆ R') (hO : O ⊆ O') :
    Evolves kind hdrLba used used' R' O' ctx ctx' :=
  { h with
    frame := fun lba hlba hhdr hnot ↦ h.frame lba hlba hhdr fun hin ↦ hnot (hR hin)
    content := fun lba hlba hnot ↦ h.content lba hlba fun hin ↦ hnot (hO hin) }

end

/-- Rewriting one of the nodes. -/
theorem Evolves.write (hsound : Allocated ctx used)
    (hreserved : ∀ lba, lba = 0 ∨ lba = hdrLba → kind.view ctx lba = none) {a : ℕ}
    {node : Node κ ρ} (hnode : kind.view ctx a = some node) (ha : a ∈ used) (hR : a ∈ R)
    (hO : a ∈ O) (node' : Node κ ρ) :
    Evolves kind hdrLba used used R O ctx (ctx.write a (kind.toBlock node')) where
  marks _ h := h
  balanced h := h.write ha _
  grow := subset_rfl
  sound := hsound.write ha _
  root := rfl
  block_size := rfl
  total_blocks := rfl
  reserved lba hlba := by
    have hne : lba ≠ a := by
      rintro rfl
      simp [hreserved lba hlba] at hnode
    rw [view_write_of_ne hne, hreserved lba hlba]
  frame lba _ _ hnot := by
    have hne : lba ≠ a := fun h ↦ hnot (h ▸ hR)
    simp [hne]
  content lba _ hnot := by
    have hne : lba ≠ a := fun h ↦ hnot (h ▸ hO)
    rw [contentAt, contentAt, view_write_of_ne hne]

/-- Writing the header. -/
theorem Evolves.header (hsound : Allocated ctx used) (hhdr : hdrLba ∈ used)
    (hreserved : ∀ lba, lba = 0 ∨ lba = hdrLba → kind.view ctx lba = none) (header : BtreeHeader) :
    Evolves kind hdrLba used used R O ctx (ctx.write hdrLba (.treeHeader header)) := by
  have hview := view_write_header (hreserved hdrLba (Or.inr rfl)) header
  exact
    { marks := fun _ h ↦ h
      balanced := fun h ↦ h.write hhdr _
      grow := subset_rfl
      sound := hsound.write hhdr _
      root := rfl
      block_size := rfl
      total_blocks := rfl
      reserved := fun lba hlba ↦ by rw [hview, hreserved lba hlba]
      frame := fun lba _ hne _ ↦ by simp [hne]
      content := fun lba _ _ ↦ by rw [contentAt, contentAt, hview] }

/-- Dividing one of the nodes. -/
theorem Evolves.divide {ctx₁ : TreeCtx} {level a b : ℕ} {before after : List ℕ} {A B : Node κ ρ}
    (halloc : AllocatedNode used ctx b ctx₁)
    (hdivided : Divided kind used ctx ctx₁ ctx' level before a b after A B)
    (hreserved : ∀ lba, lba = 0 ∨ lba = hdrLba → kind.view ctx lba = none)
    (hhdr : hdrLba ∈ used) (hrow : Row (kind.view ctx) level (before ++ a :: after))
    (hused : ∀ lba ∈ before ++ a :: after, lba ∈ used)
    (hR : ∀ lba ∈ before ++ a :: after, lba ∈ R) (hzero : 0 ∈ used) (hO : a ∈ O) :
    Evolves kind hdrLba used (insert b used) R O ctx ctx' := by
  have hdisk (lba : ℕ) (hlba : lba ∈ used) (hnot : lba ∉ before ++ a :: after) :
      ctx'.vol.disk lba = ctx.vol.disk lba :=
    (hdivided.disk lba hnot fun h ↦ halloc.fresh (h ▸ hlba)).trans (halloc.untouched.disk lba hlba)
  have hsame := hdivided.same
  refine ⟨fun lba hset ↦ ?_, fun hbalanced ↦ (hdivided.balanced halloc hused hbalanced).1,
    Set.subset_insert b used, hdivided.sound, ?_, ?_, ?_, fun lba hlba ↦ ?_,
    fun lba hlba _ hnot ↦ hdisk lba hlba fun h ↦ hnot (hR lba h),
    fun lba hlba hnot ↦ hdivided.content lba hlba fun h ↦ hnot (h ▸ hO)⟩
  · obtain ⟨disk, rfl⟩ := hsame
    exact halloc.marks lba hset
  · obtain ⟨disk, rfl⟩ := hsame
    exact halloc.untouched.root
  · obtain ⟨disk, rfl⟩ := hsame
    exact halloc.untouched.block_size
  · obtain ⟨disk, rfl⟩ := hsame
    exact halloc.untouched.total_blocks
  · have hnone := hreserved lba hlba
    have hused : lba ∈ used := by
      rcases hlba with rfl | rfl
      · exact hzero
      · exact hhdr
    have hnot : lba ∉ before ++ a :: after := fun h ↦ by
      have := hrow.level_eq lba h
      simp [hnone] at this
    rw [← hnone, TreeKind.view, TreeKind.view, hdisk lba hused hnot]

end Evolves

/-- Rewriting a node without touching its links. -/
theorem linksAt_write {a : ℕ} (node' : Node κ ρ) (hnode : kind.view ctx a = some node)
    (hlevel : node'.level = node.level) (hleft : node'.leftLink = node.leftLink)
    (hright : node'.rightLink = node.rightLink) (lba : ℕ) :
    linksAt (kind.view (ctx.write a (kind.toBlock node'))) lba = linksAt (kind.view ctx) lba := by
  by_cases hne : lba = a
  · rw [hne, linksAt, linksAt, view_write_self, hnode, Option.map_some, Option.map_some, hlevel,
      hleft, hright]
  · rw [linksAt, linksAt, view_write_of_ne hne]

end Obmafs3
