import Obmafs3.Store.Forest
import Obmafs3.Store.Nodes

/-!
# The steps of an insertion on disk

What each step of `btreeInsert` does to a tree on disk: the descent follows the slots of `route`,
`leafInsert` does what `put` does at a leaf, and `parentInsert` does what `graft` does with a child
that was divided.
-/

set_option autoImplicit false

namespace Obmafs3

open Library.Search Library.SearchTree

variable {κ ρ : Type} {kind : TreeKind κ ρ}

/-! ### Subtrees -/

/-- The nodes of the levels of a tree, with those of the contexts. -/
def levelsOf (X Y : ℕ → List ℕ) (height : ℕ) (t : Tree ℕ κ ρ height) : Set ℕ :=
  {lba | ∃ level ≤ height, lba ∈ X level ++ row height t level ++ Y level}

/-- An operation on a subtree ended as the insertion in the tree did. -/
def RunsTo {height : ℕ} (kind : TreeKind κ ρ) (used : Set ℕ) (X Y : ℕ → List ℕ) (root : ℕ)
    (ctx : TreeCtx) (result : EStateM.Result ErrorCode TreeCtx (Option (Split κ))) :
    Outcome ℕ κ ρ height → Prop
  | .kept t =>
    result = .ok none ctx ∧ label height t = root ∧ Placed (kind.view ctx) used height X Y [t]
  | .split left low right push =>
    result = .ok (some ⟨label height left, low, label height right, push⟩) ctx ∧
      label height left = root ∧ Placed (kind.view ctx) used height X Y [left, right]
  | .refused t =>
    result = .error .noSpc ctx ∧ label height t = root ∧ Holds (kind.view ctx) height t ∧
      nodesOf height t ⊆ used

/-- The nodes that an insertion leaves in the tree, unless it is refused. -/
def Covers (nodes : Set ℕ) {height : ℕ} : Outcome ℕ κ ρ height → Prop
  | .kept t => nodesOf height t = nodes
  | .split left _ right _ => nodesOf height left ∪ nodesOf height right = nodes
  | .refused _ => True

/-- The header on disk is the one in memory. -/
def Persisted (hdrLba : ℕ) (ctx : TreeCtx) : Prop :=
  ctx.vol.disk hdrLba = .treeHeader ctx.hdr

variable {X Y : ℕ → List ℕ} {height : ℕ} {used : Set ℕ} {ctx : TreeCtx} {hdrLba : ℕ}
  {a left right : ℕ} {rs : List ρ} {k : κ}

theorem Persisted.write (hpersisted : Persisted hdrLba ctx) {a : ℕ} (hne : a ≠ hdrLba)
    (block : Block) : Persisted hdrLba (ctx.write a block) := by
  rw [Persisted, TreeCtx.write_disk, Function.update_of_ne hne.symm]
  exact hpersisted

theorem Persisted.header (ctx : TreeCtx) :
    Persisted hdrLba (ctx.write hdrLba (.treeHeader ctx.hdr)) :=
  Function.update_self _ _ _

/-- The account of an insertion in a subtree: it asks for at most one node a level, and unless it is
refused the nodes it was granted are in the tree and a subtree that is not divided leaves the
header as it found it, on disk or not. -/
structure Accounts (hdrLba : ℕ) (used used' : Set ℕ) (ctx ctx' : TreeCtx) (fresh : ℕ → Option ℕ)
    {height : ℕ} (t : Tree ℕ κ ρ height) (o : Outcome ℕ κ ρ height) : Prop where
  spent : Balanced ctx used → nodesAtHand ctx ≤ nodesAtHand ctx' + (height + 1)
  asked : Balanced ctx used → ∀ level ≤ height, fresh level = none → nodesAtHand ctx ≤ level
  covers : Covers (nodesOf height t ∪ used' \ used) o
  persisted : ∀ u, o = .kept u → Persisted hdrLba ctx → Persisted hdrLba ctx'

theorem mem_nodesOf_leaf {a lba : ℕ} : lba ∈ nodesOf (κ := κ) 0 (a, rs) ↔ lba = a := by
  simp [nodesOf, row]

theorem mem_nodesOf_index {height a lba : ℕ} {es : List (κ × Tree ℕ κ ρ height)} :
    lba ∈ nodesOf (κ := κ) (ρ := ρ) (height + 1) (a, es) ↔
      lba = a ∨ ∃ e ∈ es, lba ∈ nodesOf height e.2 := by
  constructor
  · rintro ⟨level, hlevel, hlba⟩
    rcases Nat.eq_or_lt_of_le hlevel with rfl | hlt
    · rw [row_self] at hlba
      exact Or.inl (List.mem_singleton.mp hlba)
    · rw [row_index _ _ (by omega)] at hlba
      obtain ⟨e, he, hlba⟩ := List.mem_flatMap.mp hlba
      exact Or.inr ⟨e, he, level, by omega, hlba⟩
  · rintro (rfl | ⟨e, he, hlba⟩)
    · exact label_mem_nodesOf (height + 1) (lba, es)
    · exact nodesOf_child_subset he hlba

/-- The nodes below a node with some of its entries replaced. -/
theorem nodesOf_replace {height a : ℕ} {before after es fs : List (κ × Tree ℕ κ ρ height)}
    {gained : Set ℕ} (hgained : ∀ lba, (∃ e ∈ fs, lba ∈ nodesOf height e.2) ↔
      (∃ e ∈ es, lba ∈ nodesOf height e.2) ∨ lba ∈ gained) :
    nodesOf (κ := κ) (ρ := ρ) (height + 1) (a, before ++ fs ++ after) =
      nodesOf (height + 1) (a, before ++ es ++ after) ∪ gained := by
  ext lba
  simp only [Set.mem_union, mem_nodesOf_index, List.mem_append, or_and_right, exists_or,
    hgained lba]
  constructor
  · rintro (h | (h | h | h) | h)
    · exact Or.inl (Or.inl h)
    · exact Or.inl (Or.inr (Or.inl (Or.inl h)))
    · exact Or.inl (Or.inr (Or.inl (Or.inr h)))
    · exact Or.inr h
    · exact Or.inl (Or.inr (Or.inr h))
  · rintro ((h | (h | h) | h) | h)
    · exact Or.inl h
    · exact Or.inr (Or.inl (Or.inl h))
    · exact Or.inr (Or.inl (Or.inr (Or.inl h)))
    · exact Or.inr (Or.inr h)
    · exact Or.inr (Or.inl (Or.inr (Or.inr h)))

/-- The two halves of a node. -/
theorem nodesOf_halves {height a b n : ℕ} (all : List (κ × Tree ℕ κ ρ height)) (hfresh : b ∉ used) :
    nodesOf (κ := κ) (ρ := ρ) (height + 1) (a, all.take n) ∪ nodesOf (height + 1) (b, all.drop n) =
      nodesOf (height + 1) (a, all) ∪ insert b used \ used := by
  have hall (lba : ℕ) : (∃ e ∈ all, lba ∈ nodesOf height e.2) ↔
      (∃ e ∈ all.take n, lba ∈ nodesOf height e.2) ∨ ∃ e ∈ all.drop n, lba ∈ nodesOf height e.2 := by
    conv_lhs => rw [← List.take_append_drop n all]
    simp only [List.mem_append, or_and_right, exists_or]
  ext lba
  simp only [Set.mem_union, mem_nodesOf_index, Set.mem_sdiff, Set.mem_insert_iff, hall lba]
  constructor
  · rintro ((rfl | h) | (rfl | h))
    · exact Or.inl (Or.inl rfl)
    · exact Or.inl (Or.inr (Or.inl h))
    · exact Or.inr ⟨Or.inl rfl, hfresh⟩
    · exact Or.inl (Or.inr (Or.inr h))
  · rintro ((h | h | h) | ⟨h, hnot⟩)
    · exact Or.inl (Or.inl h)
    · exact Or.inl (Or.inr h)
    · exact Or.inr (Or.inr h)
    · exact Or.inr (Or.inl (h.resolve_right hnot))

theorem mem_levelsOf {height level lba : ℕ} {t : Tree ℕ κ ρ height} (hlevel : level ≤ height)
    (hlba : lba ∈ X level ++ row height t level ++ Y level) : lba ∈ levelsOf X Y height t :=
  ⟨level, hlevel, hlba⟩

variable {es before after : List (κ × Tree ℕ κ ρ height)} {entry : κ × Tree ℕ κ ρ height}
  {view : ℕ → Option (Node κ ρ)} {ts : List (Tree ℕ κ ρ height)} {t : Tree ℕ κ ρ height}

theorem Placed.nodesOf_subset (hplaced : Placed view used height X Y ts) (ht : t ∈ ts) :
    nodesOf height t ⊆ used := by
  rintro lba ⟨level, hlevel, hlba⟩
  refine hplaced.mem_used level hlevel lba ?_
  simp only [List.mem_append, rowOf, List.mem_flatMap]
  exact Or.inl (Or.inr ⟨t, ht, hlba⟩)

/-- A leaf that keeps its links. -/
theorem placed_leaf_write (hplaced : Placed (kind.view ctx) used 0 X Y [(a, rs)])
    (hnode : kind.view ctx a = some (.leaf left right rs)) (rs' : List ρ) :
    Placed (kind.view (ctx.write a (kind.toBlock (.leaf left right rs')))) used 0 X Y
      [(a, rs')] := by
  refine ⟨fun t ht ↦ ?_, fun level hlevel ↦ ?_, hplaced.mem_used⟩
  · obtain rfl := List.mem_singleton.mp ht
    change contentAt _ a = _
    rw [contentAt, view_write_self]
    rfl
  · have hlinks := linksAt_write (.leaf left right rs') hnode rfl rfl rfl
    exact (hplaced.rows level hlevel).congr fun lba _ ↦ hlinks lba

/-- The entries of an index node as the disk has them. -/
def diskEntries {height : ℕ} (es : List (κ × Tree ℕ κ ρ height)) : List (κ × ℕ) :=
  es.map fun e ↦ (e.1, label height e.2)

theorem diskEntries_append (es fs : List (κ × Tree ℕ κ ρ height)) :
    diskEntries (es ++ fs) = diskEntries es ++ diskEntries fs :=
  List.map_append

theorem map_fst_diskEntries (es : List (κ × Tree ℕ κ ρ height)) :
    (diskEntries es).map Prod.fst = es.map Prod.fst := by
  simp [diskEntries]

/-- Nodes of lower levels are not touched by a write to a node of a row. -/
theorem Placed.not_mem_row_succ (hplaced : Placed view used height X Y ts) {lbas : List ℕ}
    (hrow : Row view (height + 1) lbas) {level lba : ℕ} (hlevel : level ≤ height)
    (hlba : lba ∈ X level ++ rowOf ts level ++ Y level) : lba ∉ lbas := by
  intro hmem
  have hlow := (hplaced.rows level hlevel).level_eq lba hlba
  rw [hrow.level_eq lba hmem] at hlow
  have := Option.some.inj hlow
  omega

variable [LinearOrder κ]

/-! ### Descents -/

/-- The path of a descent below a node, the deepest slot first. -/
def trail (k : κ) : (height : ℕ) → Tree ℕ κ ρ height → List (ℕ × ℕ)
  | 0, _ => []
  | height + 1, (a, es) =>
    match es[route es k]? with
    | none => []
    | some e => trail k height e.2 ++ [(a, route es k)]

/-- The leaf a descent reaches. -/
def leafFor (k : κ) : (height : ℕ) → Tree ℕ κ ρ height → ℕ × List ρ
  | 0, t => t
  | height + 1, (a, es) =>
    match es[route es k]? with
    | none => (a, [])
    | some e => leafFor k height e.2

theorem indexFind_diskEntries (es : List (κ × Tree ℕ κ ρ height)) (k : κ) :
    indexFind ((diskEntries es).map Prod.fst) k = route es k := by
  simp only [route, diskEntries, List.map_map]
  rfl

theorem childLba_diskEntries (hslot : Slotted es k before entry after) (spare : Option (κ × ℕ)) :
    childLba (diskEntries es) spare (route es k) = label height entry.2 := by
  simp [childLba, diskEntries, List.getElem?_map, hslot.getElem?]

/-- A descent that records its path reaches the leaf when the limit allows, and reports a bad
parameter when it does not. -/
theorem descendPath_spec (k : κ) (budget : ℕ) (path : List (ℕ × ℕ))
    (hholds : Holds (kind.view ctx) height t) (hsolid : Solid height t)
    (hlt : ∀ level ≤ height, ∀ lba ∈ row height t level, lba < ctx.vol.totalBlocks) :
    (height ≤ budget ∧ ∃ left right,
        kind.view ctx (leafFor k height t).1 = some (.leaf left right (leafFor k height t).2) ∧
        descendPath kind k budget (label height t) path ctx =
          .ok (⟨(leafFor k height t).1, left, right, (leafFor k height t).2⟩,
            trail k height t ++ path) ctx) ∨
      budget < height ∧ descendPath kind k budget (label height t) path ctx = .error .inval ctx := by
  induction height generalizing budget path with
  | zero =>
    obtain ⟨a, rs⟩ := t
    obtain ⟨left, right, hnode⟩ := contentAt_leaf hholds
    have hread : readNode kind .badMagic a ctx = .ok (.leaf left right rs) ctx :=
      readNode_ok (hlt 0 le_rfl a (by simp [row])) hnode
    refine Or.inl ⟨Nat.zero_le _, left, right, hnode, ?_⟩
    cases budget <;> exact bind_ok hread
  | succ height ih =>
    obtain ⟨a, es⟩ := t
    obtain ⟨hroot, hchildren⟩ := hholds
    obtain ⟨before, entry, after, hslot⟩ := exists_slotted hsolid.1 k
    obtain ⟨left, right, spare, hnode⟩ := contentAt_index hroot
    have hread : readNode kind .badMagic a ctx = .ok (.index (height + 1) left right _ spare) ctx :=
      readNode_ok (hlt (height + 1) le_rfl a (by simp [row])) hnode
    cases budget with
    | zero => exact Or.inr ⟨Nat.succ_pos _, bind_ok hread⟩
    | succ budget =>
      have hdescent : descendPath kind k (budget + 1) a path ctx =
          descendPath kind k budget (label height entry.2) ((a, route es k) :: path) ctx := by
        rw [descendPath, bind_ok hread]
        change descendPath kind k budget
          (childLba (diskEntries es) spare (indexFind ((diskEntries es).map Prod.fst) k))
          ((a, indexFind ((diskEntries es).map Prod.fst) k) :: path) ctx = _
        rw [indexFind_diskEntries, childLba_diskEntries hslot]
      have hentry := ih budget ((a, route es k) :: path)
        (hchildren entry hslot.mem) (hsolid.2 entry hslot.mem) fun level hlevel lba hlba ↦ by
          refine hlt level (by omega) lba ?_
          rw [row_index a es hlevel]
          exact List.mem_flatMap.mpr ⟨entry, hslot.mem, hlba⟩
      simp only [leafFor, trail, hslot.getElem?, label_index]
      rcases hentry with ⟨hle, left, right, hleaf, hrun⟩ | ⟨hlt, hrun⟩
      · refine Or.inl ⟨by omega, left, right, hleaf, ?_⟩
        rw [hdescent, hrun, List.append_assoc]
        rfl
      · exact Or.inr ⟨by omega, hdescent.trans hrun⟩

/-! ### The leaf of an insertion -/

/-- An operation on a subtree did what the insertion of a record does, with the labels that the
allocator handed out. -/
def Inserts (kind : TreeKind κ ρ) (hdrLba : ℕ) (used : Set ℕ) (X Y : ℕ → List ℕ) (record : ρ)
    (height : ℕ) (t : Tree ℕ κ ρ height) (ctx : TreeCtx)
    (result : EStateM.Result ErrorCode TreeCtx (Option (Split κ))) : Prop :=
  ∃ (fresh : ℕ → Option ℕ) (used' : Set ℕ) (ctx' : TreeCtx),
    Evolves kind hdrLba used used' (levelsOf X Y height t) (nodesOf height t) ctx ctx' ∧
    RunsTo kind used' X Y (label height t) ctx' result
      (put kind.key (maxKeys ctx.vol.blockSize kind.recordSize)
        (maxKeys ctx.vol.blockSize kind.entrySize) fresh record height t) ∧
    (fresh 0 = none ↔ Exhausted ctx) ∧
    (∀ level ≤ height, fresh level = none → ¬Spacious ctx (height + 1)) ∧
    (∀ k, Spacious ctx (k + (height + 1)) → Spacious ctx' k) ∧
    Accounts hdrLba used used' ctx ctx' fresh t
      (put kind.key (maxKeys ctx.vol.blockSize kind.recordSize)
        (maxKeys ctx.vol.blockSize kind.entrySize) fresh record height t)

/-- A leaf that takes the record without a split. -/
theorem inserts_leaf_write {rs rs' : List ρ} {record : ρ} (hready : Ready kind hdrLba used ctx)
    (hplaced : Placed (kind.view ctx) used 0 X Y [(a, rs)])
    (hnode : kind.view ctx a = some (.leaf left right rs))
    (hput : ∀ leafMax indexMax (fresh : ℕ → Option ℕ), leafMax = maxKeys ctx.vol.blockSize
      kind.recordSize → put kind.key leafMax indexMax fresh record 0 (a, rs) = .kept (a, rs')) :
    Inserts kind hdrLba used X Y record 0 (a, rs) ctx
      ((writeNode kind a (.leaf left right rs') >>= fun _ ↦ pure none) ctx) := by
  classical
  obtain ⟨hsound, hheader, hreserved⟩ := hready
  have hused : a ∈ used := hplaced.mem_used 0 le_rfl a (by simp [rowOf, row])
  refine ⟨fun _ ↦ if Exhausted ctx then none else some 0, used, _,
    .write hsound hreserved hnode hused (mem_levelsOf le_rfl (by simp [row]))
      (label_mem_nodesOf 0 (a, rs)) (.leaf left right rs'), ?_, ?_,
    fun level _ hnone hspacious ↦ ?_,
    fun k hk ↦ hk.mono (Nat.le_add_right k 1),
    fun _ ↦ Nat.le_add_right _ _, fun hbalanced level _ hnone ↦ ?_, ?_, fun _ _ h ↦ h.write ?_ _⟩
  · rw [hput _ _ _ rfl, bind_ok (hsound.writeNode hused _)]
    exact ⟨rfl, rfl, placed_leaf_write hplaced hnode rs'⟩
  · by_cases h : Exhausted ctx <;> simp [h]
  · rw [if_neg hspacious.not_exhausted] at hnone
    cases hnone
  · have hexhausted : Exhausted ctx := by
      by_contra h
      simp [h] at hnone
    exact (hexhausted.nodesAtHand hbalanced hsound.zero_mem).le.trans (Nat.zero_le _)
  · rw [hput _ _ _ rfl]
    ext lba
    simp [mem_nodesOf_leaf]
  · rintro rfl
    rw [hreserved a (Or.inr rfl)] at hnode
    cases hnode

theorem leafInsert_spec (record : ρ) (hready : Ready kind hdrLba used ctx)
    (hplaced : Placed (kind.view ctx) used 0 X Y [(a, rs)])
    (hnode : kind.view ctx a = some (.leaf left right rs)) :
    Inserts kind hdrLba used X Y record 0 (a, rs) ctx
      (leafInsert kind record ⟨a, left, right, rs⟩ ctx) := by
  unfold leafInsert
  rw [get_bind]
  simp only
  cases hfind : leafFind (rs.map kind.key) (kind.key record) with
  | found i =>
    exact inserts_leaf_write hready hplaced hnode fun _ _ _ _ ↦ by rw [put, hfind]
  | absent i =>
    have hi : i ≤ rs.length := by simpa using leafFind_absent_le hfind
    have hlength := List.length_insertIdx_of_le_length hi record
    simp only
    by_cases hroom : rs.length < maxKeys ctx.vol.blockSize kind.recordSize
    · rw [if_pos hroom]
      refine inserts_leaf_write hready hplaced hnode fun leafMax _ _ hmax ↦ ?_
      subst hmax
      simp only [put, hfind, settleLeaf]
      rw [if_pos (by omega)]
    · rw [if_neg hroom]
      obtain ⟨hsound, hheader, hreserved⟩ := hready
      have hrow : Row (kind.view ctx) 0 (X 0 ++ a :: Y 0) := by
        simpa [rowOf, row] using hplaced.rows 0 le_rfl
      have hused : ∀ lba ∈ X 0 ++ a :: Y 0, lba ∈ used := by
        simpa [rowOf, row] using hplaced.mem_used 0 le_rfl
      have hput (fresh : ℕ → Option ℕ) : put kind.key (maxKeys ctx.vol.blockSize kind.recordSize)
          (maxKeys ctx.vol.blockSize kind.entrySize) fresh record 0 (a, rs) =
          settleLeaf kind.key (maxKeys ctx.vol.blockSize kind.recordSize) (fresh 0) record a rs
            (rs.insertIdx i record) := by
        rw [put, hfind]
      rcases btreeAllocNode_spec hsound with
        ⟨b, ctx₁, hrun, halloc⟩ | ⟨hrun, hexhausted, hspacious⟩
      · set n := (maxKeys ctx.vol.blockSize kind.recordSize + 1) / 2 with hn
        obtain ⟨c₁, c₂, c₃, hwriteA, hwriteB, hpatch, hdivided⟩ :=
          divide_spec (A := .leaf left b ((rs.insertIdx i record).take n))
            (B := .leaf a right ((rs.insertIdx i record).drop n)) halloc
            (hreserved 0 (Or.inl rfl)) hsound.zero_mem hrow hused hnode ⟨rfl, rfl, rfl⟩
            ⟨rfl, rfl, rfl⟩
        change patchNode kind right _ c₂ = _ at hpatch
        have hevolves := Evolves.divide (R := levelsOf (κ := κ) X Y 0 (a, rs))
          (O := nodesOf (κ := κ) 0 (a, rs))
          halloc hdivided hreserved hheader hrow hused
          (fun lba hlba ↦ mem_levelsOf le_rfl (by simpa [row] using hlba)) hsound.zero_mem
          (label_mem_nodesOf 0 (a, rs))
        have hrowOf (l r : List ρ) : @rowOf κ ρ 0 [(a, l), (b, r)] 0 = [a, b] := by
          simp [rowOf, row]
        refine ⟨fun _ ↦ some b, insert b used, c₃, hevolves, ?_, by simp [halloc.had_room],
          fun _ _ h ↦ absurd h (by simp), fun k hk ↦ ?_,
          fun hbalanced ↦ (hdivided.balanced halloc hused hbalanced).2.le,
          fun _ _ _ h ↦ absurd h (by simp), ?_, fun u hu ↦ ?_⟩
        · rw [hput, settleLeaf, if_neg (by omega), bind_ok hrun, bind_ok hwriteA, bind_ok hwriteB,
            bind_ok hpatch]
          refine ⟨rfl, rfl, fun t ht ↦ ?_, fun level hlevel ↦ ?_, fun level hlevel lba hlba ↦ ?_⟩
          · rcases List.mem_pair.mp ht with rfl | rfl
            · change contentAt _ a = _
              rw [contentAt, hdivided.left]
              rfl
            · change contentAt _ b = _
              rw [contentAt, hdivided.right]
              rfl
          · obtain rfl : level = 0 := by omega
            rw [half, ← hn, hrowOf]
            simpa using hdivided.row
          · obtain rfl : level = 0 := by omega
            rw [half, ← hn, hrowOf] at hlba
            have hlba' : lba = b ∨ lba ∈ X 0 ++ a :: Y 0 := by
              simp only [List.mem_append, List.mem_cons] at hlba ⊢
              tauto
            exact hlba'.imp_right (hused lba)
        · have hspacious := halloc.spacious k hk
          obtain ⟨disk, rfl⟩ := hdivided.same
          exact hspacious
        · rw [hput, settleLeaf, if_neg (by omega)]
          have hfresh := halloc.fresh
          ext lba
          simp only [Set.mem_union, mem_nodesOf_leaf, Set.mem_sdiff, Set.mem_insert_iff]
          constructor
          · rintro (rfl | rfl)
            · exact Or.inl rfl
            · exact Or.inr ⟨Or.inl rfl, hfresh⟩
          · tauto
        · rw [hput, settleLeaf, if_neg (by omega)] at hu
          cases hu
      · refine ⟨fun _ ↦ none, used, ctx, .refl hsound hreserved, ?_, by simp [hexhausted],
          fun _ _ _ ↦ hspacious, fun k hk ↦ hk.mono (Nat.le_add_right k 1),
          fun _ ↦ Nat.le_add_right _ _, fun hbalanced level _ _ ↦ ?_, ?_, fun _ _ h ↦ h⟩
        · rw [hput, settleLeaf, if_neg (by omega), bind_error hrun]
          refine ⟨rfl, rfl, hplaced.holds _ (by simp), ?_⟩
          rintro lba ⟨level, hlevel, hlba⟩
          exact hplaced.mem_used level hlevel lba (by simp [rowOf, hlba])
        · exact (hexhausted.nodesAtHand hbalanced hsound.zero_mem).le.trans (Nat.zero_le _)
        · rw [hput, settleLeaf, if_neg (by omega)]
          trivial

/-! ### The parent of a split -/

/-- The entries of a parent after a split of the child in one slot. -/
theorem diskEntries_split (hslot : Slotted es k before entry after) {left right : Tree ℕ κ ρ height}
    (low push : κ) (hlabel : label height left = label height entry.2) :
    ((diskEntries es).modify (route es k) fun e ↦ (low, e.2)).insertIdx (route es k + 1)
        (push, label height right) =
      diskEntries (before ++ (low, left) :: (push, right) :: after) := by
  have hlength : (diskEntries before).length = before.length := by simp [diskEntries]
  have hmodify : (diskEntries es).modify (route es k) (fun e ↦ (low, e.2)) =
      diskEntries before ++ (low, label height left) :: diskEntries after := by
    rw [hslot.slot, ← hlength, hslot.eq, diskEntries_append]
    exact (modify_append _ _ _ _).trans (by rw [hlabel]; rfl)
  rw [hmodify, hslot.slot, ← hlength, insertIdx_append, List.insertIdx_succ_cons,
    List.insertIdx_zero, diskEntries_append]
  rfl

/-- What the insertion of a split in a parent starts from: the children are in place, the divided
one already in two, and the parent still has the entries of before. -/
structure ParentReady (kind : TreeKind κ ρ) (hdrLba : ℕ) (used : Set ℕ) (X Y : ℕ → List ℕ)
    (height a : ℕ) (k : κ) (es before : List (κ × Tree ℕ κ ρ height))
    (entry : κ × Tree ℕ κ ρ height) (after : List (κ × Tree ℕ κ ρ height))
    (left right : Tree ℕ κ ρ height) (ctx : TreeCtx) : Prop extends
    Ready kind hdrLba used ctx where
  slot : Slotted es k before entry after
  label_left : label height left = label height entry.2
  placed : Placed (kind.view ctx) used height X Y
    (before.map Prod.snd ++ [left, right] ++ after.map Prod.snd)
  content : contentAt (kind.view ctx) a = some (.inr (height + 1, diskEntries es))
  row : Row (kind.view ctx) (height + 1) (X (height + 1) ++ a :: Y (height + 1))
  mem_used : ∀ lba ∈ X (height + 1) ++ a :: Y (height + 1), lba ∈ used

theorem parentInsert_spec {used R O : Set ℕ} {height a : ℕ}
    {es before after : List (κ × Tree ℕ κ ρ height)} {entry : κ × Tree ℕ κ ρ height}
    {left right : Tree ℕ κ ρ height}
    (hready : ParentReady kind hdrLba used X Y height a k es before entry after left right ctx)
    (low push : κ) (hR : ∀ lba ∈ X (height + 1) ++ a :: Y (height + 1), lba ∈ R) (hO : a ∈ O) :
    ∃ (fresh : Option ℕ) (used' : Set ℕ) (ctx' : TreeCtx),
      Evolves kind hdrLba used used' R O ctx ctx' ∧
      RunsTo kind used' X Y a ctx'
        (parentInsert kind hdrLba a (route es k)
          ⟨label height left, low, label height right, push⟩ ctx)
        (graft (maxKeys ctx.vol.blockSize kind.entrySize) fresh a before entry.1 after
          (.split left low right push)) ∧
      (fresh = none → ¬Spacious ctx 1) ∧ (∀ m, Spacious ctx (m + 1) → Spacious ctx' m) ∧
      (Balanced ctx used → nodesAtHand ctx ≤ nodesAtHand ctx' + 1 ∧
        (fresh = none → nodesAtHand ctx = 0)) ∧
      Covers (nodesOf (height + 1) (a, before ++ [(low, left), (push, right)] ++ after) ∪
        used' \ used) (graft (maxKeys ctx.vol.blockSize kind.entrySize) fresh a before entry.1 after
          (.split left low right push)) ∧
      ∀ u, graft (maxKeys ctx.vol.blockSize kind.entrySize) fresh a before entry.1 after
        (.split left low right push) = .kept u → Persisted hdrLba ctx' := by
  obtain ⟨⟨hsound, hheader, hreserved⟩, hslot, hlabel, hplaced, hcontent, hrow, hused⟩ := hready
  obtain ⟨leftLink, rightLink, spare, hnode⟩ := contentAt_index hcontent
  have ha : a ∈ used := hused a (by simp)
  have hread : readNode kind .corrupt a ctx =
      .ok (.index (height + 1) leftLink rightLink (diskEntries es) spare) ctx :=
    readNode_ok (hsound.used_lt a ha) hnode
  have hnonempty : (diskEntries es).isEmpty = false := by
    rw [hslot.eq, diskEntries_append]
    simp [diskEntries]
  have hlength : (diskEntries es).length + 1 =
      (before ++ (low, left) :: (push, right) :: after).length := by
    rw [hslot.eq]
    simp [diskEntries]
    omega
  set all := before ++ (low, left) :: (push, right) :: after with hall
  have hallsnd : all.map Prod.snd = before.map Prod.snd ++ [left, right] ++ after.map Prod.snd := by
    simp [hall]
  have hallpair : all = before ++ [(low, left), (push, right)] ++ after := by simp [hall]
  have halllength : (diskEntries all).length = all.length := by simp [diskEntries]
  unfold parentInsert
  rw [bind_ok hread]
  simp only [hnonempty, Bool.false_eq_true, if_false]
  rw [get_bind, diskEntries_split hslot low push hlabel, ← hall]
  set maxIndex := maxKeys ctx.vol.blockSize kind.entrySize with hmax
  by_cases hroom : (diskEntries es).length < maxIndex
  · rw [if_pos hroom, hlength, List.take_of_length_le halllength.le]
    have hsound₁ := hsound.write ha (kind.toBlock
      (.index (height + 1) leftLink rightLink (diskEntries all) spare))
    have hevolves := Evolves.write (R := R) (O := O) hsound hreserved hnode ha
      (hR a (by simp)) hO (.index (height + 1) leftLink rightLink (diskEntries all) spare)
    have hgraft : graft maxIndex (some 0) a before entry.1 after (.split left low right push) =
        .kept (a, all) := by
      simp only [graft, ← hall]
      rw [if_pos (by omega)]
    have hcovers : Covers
        (nodesOf (height + 1) (a, before ++ [(low, left), (push, right)] ++ after) ∪ used \ used)
        (graft maxIndex (some 0) a before entry.1 after (.split left low right push)) := by
      rw [hgraft, ← hallpair, sdiff_self]
      exact (Set.union_empty _).symm
    refine ⟨some 0, used, _, hevolves.trans (.header hsound₁ hheader hevolves.reserved ctx.hdr),
      ?_, fun h ↦ absurd h (by simp), fun m hm ↦ hm.mono (Nat.le_add_right m 1),
      fun _ ↦ ⟨Nat.le_add_right _ _, fun h ↦ absurd h (by simp)⟩, hcovers, fun _ _ ↦ .header _⟩
    rw [hgraft, bind_ok (hsound.writeNode ha _), bind_ok (hsound₁.btreeHeaderWrite hheader)]
    have hview := view_write_header (hevolves.reserved hdrLba (Or.inr rfl)) ctx.hdr
    refine ⟨rfl, rfl, Placed.up ?_ ?_ ?_ ?_⟩
    · have hchildren : children [((a, all) : Tree ℕ κ ρ (height + 1))] =
          before.map Prod.snd ++ [left, right] ++ after.map Prod.snd := by
        simp [children, hallsnd]
      rw [hchildren]
      refine hplaced.congr subset_rfl fun level hlevel lba hlba ↦ (hview lba).trans ?_
      refine view_write_of_ne (fun h ↦ ?_) _
      exact hplaced.not_mem_row_succ hrow hlevel hlba (by simp [h])
    · intro t ht
      obtain rfl := List.mem_singleton.mp ht
      rw [contentAt, hview, view_write_self]
      rfl
    · have hlinks := linksAt_write (.index (height + 1) leftLink rightLink (diskEntries all) spare)
        hnode rfl rfl rfl
      have hrow' : Row (kind.view (TreeCtx.write _ hdrLba (.treeHeader ctx.hdr))) (height + 1)
          (X (height + 1) ++ a :: Y (height + 1)) :=
        hrow.congr fun lba _ ↦ by rw [linksAt, hview, ← linksAt, hlinks]
      simpa using hrow'
    · simpa using hused
  · rw [if_neg hroom, show (maxIndex + 1) / 2 = half maxIndex from rfl]
    have hnograft : graft maxIndex none a before entry.1 after (.split left low right push) =
        .refused (a, before ++ (entry.1, left) :: after) := by
      simp only [graft, ← hall]
      rw [if_neg (by omega)]
    have hgraft (b : ℕ) : graft maxIndex (some b) a before entry.1 after
        (.split left low right push) =
          .split (a, all.take (half maxIndex)) (firstKey low (all.map Prod.fst))
            (b, all.drop (half maxIndex))
            (firstKey push ((all.drop (half maxIndex)).map Prod.fst)) := by
      simp only [graft, ← hall]
      rw [if_neg (by omega)]
    rcases btreeAllocNode_spec hsound with
      ⟨b, ctx₁, hrun, halloc⟩ | ⟨hrun, hexhausted, hspacious⟩
    · obtain ⟨c₁, c₂, c₃, hwriteA, hwriteB, hpatch, hdivided⟩ :=
        divide_spec
          (A := .index (height + 1) leftLink b ((diskEntries all).take (half maxIndex)) spare)
          (B := .index (height + 1) a rightLink ((diskEntries all).drop (half maxIndex)) none)
          halloc (hreserved 0 (Or.inl rfl)) hsound.zero_mem hrow hused hnode ⟨rfl, rfl, rfl⟩
          ⟨rfl, rfl, rfl⟩
      change patchNode kind rightLink _ c₂ = _ at hpatch
      have hevolves := Evolves.divide (R := R) (O := O) halloc hdivided hreserved hheader hrow hused
        hR hsound.zero_mem hO
      have hcovers : Covers
          (nodesOf (height + 1) (a, before ++ [(low, left), (push, right)] ++ after) ∪
            insert b used \ used)
          (graft maxIndex (some b) a before entry.1 after (.split left low right push)) := by
        rw [hgraft, ← hallpair]
        exact nodesOf_halves all halloc.fresh
      refine ⟨some b, insert b used, c₃, hevolves, ?_, fun h ↦ absurd h (by simp), fun m hm ↦ ?_,
        fun hbalanced ↦ ⟨(hdivided.balanced halloc hused hbalanced).2.le, fun h ↦ absurd h (by simp)⟩,
        hcovers, fun u hu ↦ ?_⟩
      · rw [hgraft, bind_ok hrun, bind_ok hwriteA, bind_ok hwriteB, bind_ok hpatch]
        have htake : (diskEntries all).take (half maxIndex) =
            diskEntries (all.take (half maxIndex)) := by simp [diskEntries, List.map_take]
        have hdrop : (diskEntries all).drop (half maxIndex) =
            diskEntries (all.drop (half maxIndex)) := by simp [diskEntries, List.map_drop]
        refine ⟨?_, rfl, Placed.up ?_ ?_ ?_ ?_⟩
        · change EStateM.Result.ok (some _) c₃ = _
          rw [← map_fst_diskEntries, ← map_fst_diskEntries, ← hdrop]
          rfl
        · have hchildren : children [((a, all.take (half maxIndex)) : Tree ℕ κ ρ (height + 1)),
              (b, all.drop (half maxIndex))] =
                before.map Prod.snd ++ [left, right] ++ after.map Prod.snd := by
            rw [← hallsnd]
            simp only [children, List.flatMap_cons, List.flatMap_nil, List.append_nil]
            rw [← List.map_append, List.take_append_drop]
          rw [hchildren]
          refine hplaced.congr (Set.subset_insert b used) fun level hlevel lba hlba ↦ ?_
          have hlbaused := hplaced.mem_used level hlevel lba hlba
          rw [TreeKind.view, TreeKind.view, hdivided.disk lba
            (hplaced.not_mem_row_succ hrow hlevel hlba) fun h ↦ halloc.fresh (h ▸ hlbaused),
            halloc.untouched.disk lba hlbaused]
        · intro t ht
          rcases List.mem_pair.mp ht with rfl | rfl
          · rw [contentAt, hdivided.left, htake]
            rfl
          · rw [contentAt, hdivided.right, hdrop]
            rfl
        · simpa using hdivided.row
        · intro lba hlba
          have hlba' : lba = b ∨ lba ∈ X (height + 1) ++ a :: Y (height + 1) := by
            simp only [List.map_cons, List.map_nil, List.mem_append, List.mem_cons,
              List.not_mem_nil, or_false] at hlba ⊢
            tauto
          exact hlba'.imp_right (hused lba)
      · have hspacious := halloc.spacious m hm
        obtain ⟨disk, rfl⟩ := hdivided.same
        exact hspacious
      · rw [hgraft] at hu
        cases hu
    · have hcovers : Covers
          (nodesOf (height + 1) (a, before ++ [(low, left), (push, right)] ++ after) ∪ used \ used)
          (graft maxIndex none a before entry.1 after (.split left low right push)) := by
        rw [hnograft]
        trivial
      refine ⟨none, used, ctx, .refl hsound hreserved, ?_, fun _ ↦ hspacious,
        fun m hm ↦ hm.mono (Nat.le_add_right m 1),
        fun hbalanced ↦ ⟨Nat.le_add_right _ _,
          fun _ ↦ hexhausted.nodesAtHand hbalanced hsound.zero_mem⟩, hcovers, fun u hu ↦ ?_⟩
      rotate_left
      · rw [hnograft] at hu
        cases hu
      rw [hnograft, bind_error hrun]
      have hentries : diskEntries (before ++ (entry.1, left) :: after) = diskEntries es := by
        rw [hslot.eq, diskEntries_append, diskEntries_append]
        simp [diskEntries, hlabel]
      have hmem (e : κ × Tree ℕ κ ρ height) (he : e ∈ before ++ (entry.1, left) :: after) :
          e.2 ∈ before.map Prod.snd ++ [left, right] ++ after.map Prod.snd := by
        simp only [List.mem_append, List.mem_cons, List.mem_map] at he ⊢
        rcases he with he | rfl | he
        · exact Or.inl (Or.inl ⟨e, he, rfl⟩)
        · exact Or.inl (Or.inr (Or.inl rfl))
        · exact Or.inr ⟨e, he, rfl⟩
      refine ⟨rfl, rfl, ⟨?_, fun e he ↦ hplaced.holds e.2 (hmem e he)⟩,
        nodesOf_index_subset ha fun e he ↦ hplaced.nodesOf_subset (hmem e he)⟩
      rw [hcontent, ← hentries]
      rfl

end Obmafs3
