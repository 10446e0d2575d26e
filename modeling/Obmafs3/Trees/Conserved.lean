import Obmafs3.Store.Walk
import Obmafs3.Trees.Sound

/-!
# No node is lost or handed out twice

Each careful call keeps the invariant of the three trees: an insertion that gets its nodes, or that
finds none at all, a deletion that leaves a record in its leaf, and a remount, which reads back the
headers that are in memory. So the promise of the allocator holds in every state that a run of
careful calls reaches, and it is broken by a deletion that takes the last record out of a leaf.
-/

set_option autoImplicit false

namespace Obmafs3

open Library.Search Library.SearchTree
open Function (update update_of_ne)

/-! ### How a call ends -/

/-- An operation ends in a state, with a value or with an error. -/
def EndsIn {σ α : Type} (result : EStateM.Result ErrorCode σ α) (s : σ) : Prop :=
  (∃ a, result = .ok a s) ∨ ∃ e, result = .error e s

variable {op : ℕ → Op TreeCtx Unit} {st : TreeVolume} {tree : TreeName} {ctx : TreeCtx}

theorem onTree_endsIn (hop : EndsIn (op (st.hdrLba tree) (st.ctx tree)) ctx) :
    EndsIn (onTree tree op st) (st.set tree ctx) := by
  rcases hop with ⟨a, hop⟩ | ⟨e, hop⟩
  · exact Or.inl ⟨(), by rw [onTree, hop]⟩
  · exact Or.inr ⟨e, by rw [onTree, hop]⟩

theorem set_ctx (st : TreeVolume) (tree : TreeName) : st.set tree (st.ctx tree) = st := by
  simp [TreeVolume.ctx, TreeVolume.set]

theorem onTree_ok (hop : op (st.hdrLba tree) (st.ctx tree) = .ok () ctx) :
    onTree tree op st = .ok () (st.set tree ctx) := by
  rw [onTree, hop]

theorem onTree_refused {e : ErrorCode}
    (hop : op (st.hdrLba tree) (st.ctx tree) = .error e (st.ctx tree)) :
    onTree tree op st = .error e st := by
  rw [onTree, hop]
  simp only [set_ctx]

theorem TreeCall.after_eq {call : TreeCall} {st st' : TreeVolume}
    (hrun : EndsIn (call.run st) st') : call.after st = st' := by
  rcases hrun with ⟨a, hrun⟩ | ⟨e, hrun⟩ <;> rw [TreeCall.after, hrun]

theorem setRefcount_endsIn {hdrLba lba refCount : ℕ} {op : Op TreeCtx Unit} {ctx ctx' : TreeCtx}
    (hset : refcountSet lba refCount ⟨ctx, hdrLba, none⟩ = onRefcountTree op ⟨ctx, hdrLba, none⟩)
    (hop : EndsIn (op ctx) ctx') : EndsIn (setRefcount hdrLba lba refCount ctx) ctx' := by
  rcases hop with ⟨a, hop⟩ | ⟨e, hop⟩
  · exact Or.inl ⟨(), by rw [setRefcount, hset, onRefcountTree, hop]⟩
  · exact Or.inr ⟨e, by rw [setRefcount, hset, onRefcountTree, hop]⟩

/-! ### Calls that change nothing -/

section Refused

variable {κ ρ : Type} [LinearOrder κ] {kind : TreeKind κ ρ} {hdrLba : ℕ} {ctx : TreeCtx}

variable {ctx' : TreeCtx} {e : ErrorCode}

theorem blockWrite_error {lba : ℕ} {block : Block}
    (hwrite : blockWrite lba block ctx = .error e ctx') : ctx' = ctx := by
  by_cases hlt : lba < ctx.vol.totalBlocks
  · rw [blockWrite_ok block hlt] at hwrite
    cases hwrite
  · simp only [blockWrite, Volume.blockWrite, if_neg hlt] at hwrite
    cases hwrite
    rfl

/-- When the allocator has no node, a leaf takes the record or nothing changes. -/
theorem leafInsert_exhausted (halloc : btreeAllocNode ctx = .error .noSpc ctx) (record : ρ)
    (leaf : LeafAt ρ) :
    (∃ ctx', leafInsert kind record leaf ctx = .ok none ctx') ∨
      ∃ e, leafInsert kind record leaf ctx = .error e ctx := by
  have hwrite (node : Node κ ρ) :
      (∃ ctx', (writeNode kind leaf.lba node >>= fun _ ↦ pure (none : Option (Split κ))) ctx =
        .ok none ctx') ∨
      ∃ e, (writeNode kind leaf.lba node >>= fun _ ↦ pure (none : Option (Split κ))) ctx =
        .error e ctx := by
    cases hresult : writeNode kind leaf.lba node ctx with
    | ok a ctx' => exact Or.inl ⟨ctx', bind_ok hresult⟩
    | error e ctx' =>
      obtain rfl := blockWrite_error hresult
      exact Or.inr ⟨e, bind_error hresult⟩
  unfold leafInsert
  rw [get_bind]
  cases leafFind (leaf.records.map kind.key) (kind.key record) with
  | found i => exact hwrite _
  | absent i =>
    simp only
    split_ifs
    · exact hwrite _
    · exact Or.inr ⟨.noSpc, bind_error halloc⟩

/-- An insertion that finds no node at all changes nothing, unless it needs none. -/
theorem btreeInsert_exhausted {used : Set ℕ} {root : Root ℕ κ ρ} {record : ρ}
    (hstored : Stored kind hdrLba used ctx root) (hexhausted : Exhausted ctx)
    (hrun : btreeInsert kind hdrLba record ctx = .error e ctx') : ctx' = ctx := by
  have halloc : btreeAllocNode ctx = .error .noSpc ctx := by
    rcases btreeAllocNode_spec hstored.sound with ⟨lba, ctx₁, -, hnode⟩ | ⟨halloc, -⟩
    · exact absurd hexhausted hnode.had_room
    · exact halloc
  unfold btreeInsert at hrun
  rw [get_bind] at hrun
  have hreads := hstored.reads
  cases root with
  | empty =>
    rw [if_pos (show ctx.hdr.rootNodeLba = 0 from hreads), createRoot, bind_error halloc] at hrun
    cases hrun
    rfl
  | node height t =>
    obtain ⟨hroot, hnonzero, hholds, hsolid, hlt⟩ := hreads
    rw [if_neg (by rwa [hroot]), hroot] at hrun
    rcases descendPath_spec (kind.key record) btreeMaxDepth [] hholds hsolid
      (fun level hlevel lba hlba ↦ hlt lba ⟨level, hlevel, hlba⟩) with
      ⟨-, left, right, -, hdescent⟩ | ⟨-, hdescent⟩
    · rw [bind_ok hdescent] at hrun
      set leaf : LeafAt ρ := ⟨(leafFor (kind.key record) height t).1, left, right,
        (leafFor (kind.key record) height t).2⟩
      have hinsert : (∃ ctx', leafInsert kind record leaf ctx = .ok none ctx') ∨
          ∃ e, leafInsert kind record leaf ctx = .error e ctx :=
        leafInsert_exhausted halloc record leaf
      rcases hinsert with ⟨ctx₁, hleaf⟩ | ⟨e', hleaf⟩
      · simp only [bind_ok hleaf] at hrun
        cases hrun
      · simp only [bind_error hleaf] at hrun
        cases hrun
        rfl
    · rw [bind_error hdescent] at hrun
      cases hrun
      rfl

/-- What a deletion finds in the leaf it reaches. -/
theorem findForDelete_descent {key : κ} {leaf : LeafAt ρ} {path : List (ℕ × ℕ)}
    (hroot : ctx.hdr.rootNodeLba ≠ 0)
    (hdescent : descendPath kind key btreeMaxDepth ctx.hdr.rootNodeLba [] ctx =
      .ok (leaf, path) ctx) :
    (∃ i, leafFind (leaf.records.map kind.key) key = .absent i ∧
        findForDelete kind key ctx = .error .notFound ctx) ∨
      ∃ i, ∃ hi : i < leaf.records.length, leafFind (leaf.records.map kind.key) key = .found i ∧
        findForDelete kind key ctx = .ok (leaf, path, i, leaf.records[i]) ctx := by
  unfold findForDelete
  rw [get_bind, if_neg hroot, bind_ok hdescent]
  simp only
  cases hslot : leafFind (leaf.records.map kind.key) key with
  | absent i => exact Or.inl ⟨i, rfl, rfl⟩
  | found i =>
    obtain ⟨hi, -⟩ := List.getElem?_eq_some_iff.mp (leafFind_found hslot)
    rw [List.length_map] at hi
    refine Or.inr ⟨i, hi, rfl, ?_⟩
    simp only [List.getElem?_eq_getElem hi]
    rfl

end Refused

/-! ### Insertions -/

theorem Stored.solid {κ ρ : Type} [LinearOrder κ] {kind : TreeKind κ ρ} {hdrLba : ℕ} {used : Set ℕ}
    {root : Root ℕ κ ρ} (hstored : Stored kind hdrLba used ctx root) : root.Solid := by
  cases root with
  | empty => trivial
  | node height t => exact hstored.on_disk.2

namespace TreeVolume

variable {st : TreeVolume} {root : (tree : TreeName) → Root ℕ tree.Key tree.Record}
  {chain : TreeName → List ℕ} {tree : TreeName}

/-- A call that changes nothing. -/
theorem Sound.moves_refl (hs : st.Sound root chain) (tree : TreeName) :
    st.Moves tree (chain tree) (root tree) (root tree) (st.ctx tree) :=
  ⟨_, hs.stored tree, ⟨subset_rfl, rfl, rfl, fun _ _ _ _ ↦ rfl⟩, fun _ h ↦ h, hs.balanced tree,
    hs.persisted tree, by simp⟩

/-- An insertion in a tree that is not too deep is one in the search tree: done or refused. -/
theorem Sound.insert_spec (hs : st.Sound root chain) (record : tree.Record)
    (hdepth : (root tree).height ≤ btreeMaxDepth) :
    ∃ fresh new ctx done, (root tree).put tree.kind.key
        (maxKeys st.vol.blockSize tree.kind.recordSize)
        (maxKeys st.vol.blockSize tree.kind.entrySize) fresh record = (new, done) ∧
      (∀ level ≤ (root tree).height + 1, fresh level = none →
        nodesAtHand (st.ctx tree) ≤ level) ∧
      (done = true → st.Moves tree (chain tree) (root tree) new ctx ∧
        btreeInsert tree.kind (st.hdrLba tree) record (st.ctx tree) = .ok () ctx) ∧
      (done = false →
        btreeInsert tree.kind (st.hdrLba tree) record (st.ctx tree) = .error .noSpc ctx) := by
  obtain ⟨fresh, used', ctx', hframes, hends, hnone, -, -, haccounts⟩ :=
    btreeInsert_spec record (hs.stored tree) hdepth (Nat.le_of_succ_le (hs.entries tree))
  cases hput : (root tree).put tree.kind.key
    (maxKeys (st.ctx tree).vol.blockSize tree.kind.recordSize)
    (maxKeys (st.ctx tree).vol.blockSize tree.kind.entrySize) fresh record with
  | mk new done =>
    refine ⟨fresh, new, ctx', done, hput, haccounts.asked (hs.balanced tree), fun hdone ↦ ?_,
      fun hdone ↦ ?_⟩
    all_goals
      subst hdone
      rw [hput] at hends haccounts
    · exact ⟨⟨used', hends.2, hframes, haccounts.marks, haccounts.balanced (hs.balanced tree),
        haccounts.persisted rfl (hs.persisted tree), haccounts.nodes rfl⟩, hends.1⟩
    · exact hends.1

variable {extents : List ExtentRun} {record : tree.Record} {call : TreeCall} {key : tree.Key}

section

variable (hs : st.Sound root chain)
include hs

/-- A careful insertion is done, or it changes nothing. -/
theorem Sound.insert_cases (hcareful : InsertCareful st tree record) :
    (∃ fresh new ctx, (root tree).put tree.kind.key
        (maxKeys st.vol.blockSize tree.kind.recordSize)
        (maxKeys st.vol.blockSize tree.kind.entrySize) fresh record = (new, true) ∧
      (root tree).height ≤ btreeMaxDepth ∧ st.Moves tree (chain tree) (root tree) new ctx ∧
      btreeInsert tree.kind (st.hdrLba tree) record (st.ctx tree) = .ok () ctx) ∨
    ∃ e, btreeInsert tree.kind (st.hdrLba tree) record (st.ctx tree) =
      .error e (st.ctx tree) := by
  have hstored := hs.stored tree
  rcases Nat.lt_or_ge btreeMaxDepth (root tree).height with hdeep | hdepth
  · exact Or.inr ⟨.inval, btreeInsert_deep record hstored hdeep⟩
  · obtain ⟨fresh, new, ctx, done, hput, hasked, hdone, hrefused⟩ := hs.insert_spec record hdepth
    cases done with
    | true => exact Or.inl ⟨fresh, new, ctx, hput, hdepth, hdone rfl⟩
    | false =>
      -- An insertion that had enough nodes at hand is not refused.
      rcases hcareful _ _ hstored with hzero | hdemand
      · have hrun := hrefused rfl
        obtain rfl := btreeInsert_exhausted hstored (exhausted_of_nodesAtHand hzero) hrun
        exact Or.inr ⟨.noSpc, hrun⟩
      · have hgranted : ((root tree).put tree.kind.key
            (maxKeys st.vol.blockSize tree.kind.recordSize)
            (maxKeys st.vol.blockSize tree.kind.entrySize) fresh record).2 = true := by
          refine Root.put_granted hstored.solid fun level hlevel hlabel ↦ ?_
          have hlt := lt_of_lt_of_le hlevel hdemand
          have hle := lt_of_lt_of_le hlevel (Root.demand_le (root tree))
          exact absurd (hasked level (Nat.le_of_lt_succ hle) hlabel) (Nat.not_le.mpr hlt)
        rw [hput] at hgranted
        cases hgranted

theorem Sound.insert (hcareful : InsertCareful st tree record) :
    ∃ new ctx, st.Moves tree (chain tree) (root tree) new ctx ∧
      EndsIn (btreeInsert tree.kind (st.hdrLba tree) record (st.ctx tree)) ctx := by
  rcases hs.insert_cases hcareful with ⟨-, new, ctx, -, -, hmoves, hrun⟩ | ⟨e, hrun⟩
  · exact ⟨new, ctx, hmoves, Or.inl ⟨(), hrun⟩⟩
  · exact ⟨root tree, st.ctx tree, hs.moves_refl tree, Or.inr ⟨e, hrun⟩⟩

/-! ### Deletions -/

/-- Rewriting the leaf for a key moves the tree. -/
theorem Sound.moves_writeLeaf {height : ℕ} {t : Tree ℕ tree.Key tree.Record height}
    (hroot : root tree = .node height t) {left right : ℕ}
    (hnode : tree.kind.view (st.ctx tree) (leafFor key height t).1 =
      some (.leaf left right (leafFor key height t).2)) (edit : List tree.Record → List tree.Record) :
    (leafFor key height t).1 ∈ st.taken (chain tree) ∧
      st.Moves tree (chain tree) (root tree) (.node height (editLeaf edit key height t))
        ((st.ctx tree).write (leafFor key height t).1
          (tree.kind.toBlock (.leaf left right (edit (leafFor key height t).2)))) := by
  have hstored := hs.stored tree
  rw [hroot] at hstored
  obtain ⟨hused, hstored'⟩ := hstored.writeLeaf hnode edit
  have hmem : (leafFor key height t).1 ∈ rootNodes (root tree) := by
    rw [hroot]
    exact ⟨0, Nat.zero_le _, leafFor_mem_row key hstored.on_disk.2⟩
  have hhdr : (leafFor key height t).1 ≠ st.hdrLba tree := by
    intro h
    rw [h, hstored.reserved _ (Or.inr rfl)] at hnode
    cases hnode
  refine ⟨hused, _, hstored', ⟨subset_rfl, rfl, rfl, fun lba _ _ hnot ↦ ?_⟩, fun _ h ↦ h,
    (hs.balanced tree).write hused _, (hs.persisted tree).write hhdr _, ?_⟩
  · have hne : lba ≠ (leafFor key height t).1 := by
      rintro rfl
      exact hnot hmem
    exact update_of_ne hne _ _
  · rw [Set.sdiff_self, Set.union_empty, hroot]
    ext lba
    simp only [rootNodes, nodesOf, row_editLeaf]

/-- A careful deletion finds nothing, or rewrites a leaf. -/
theorem Sound.delete (hcareful : DeleteCareful st tree key) :
    (∃ e, findForDelete tree.kind key (st.ctx tree) = .error e (st.ctx tree) ∧
      ((root tree).height ≤ btreeMaxDepth → (root tree).lookup tree.kind.key key = none)) ∨
      ∃ leaf path i record ctx,
        findForDelete tree.kind key (st.ctx tree) = .ok (leaf, path, i, record) (st.ctx tree) ∧
        removeRecord tree.kind (st.hdrLba tree) leaf path i (st.ctx tree) = .ok none ctx ∧
        (root tree).lookup tree.kind.key key = some record ∧ ctx.vol.bitmap = st.vol.bitmap ∧
        st.Moves tree (chain tree) (root tree) ((root tree).remove tree.kind.key key) ctx := by
  have hstored := hs.stored tree
  have hreads := hstored.reads
  cases hroot : root tree with
  | empty =>
    rw [hroot] at hreads
    refine Or.inl ⟨.notFound, ?_, fun _ ↦ rfl⟩
    unfold findForDelete
    rw [get_bind, if_pos (show (st.ctx tree).hdr.rootNodeLba = 0 from hreads)]
    rfl
  | node height t =>
    rw [hroot] at hreads hstored
    obtain ⟨hlba, hnonzero, hholds, hsolid, hlt⟩ := hreads
    have hnonzero' : (st.ctx tree).hdr.rootNodeLba ≠ 0 := by rwa [hlba]
    have hlookup : (Root.node height t).lookup tree.kind.key key =
        lookup tree.kind.key key 0 (leafFor key height t) := lookup_eq_leafFor key hsolid
    rcases descendPath_spec key btreeMaxDepth [] hholds hsolid
      (fun level hlevel lba hlba ↦ hlt lba ⟨level, hlevel, hlba⟩) with
      ⟨hdepth, left, right, hnode, hdescent⟩ | ⟨hdeep, hdescent⟩
    · rw [← hlba] at hdescent
      rcases findForDelete_descent hnonzero' hdescent with
        ⟨i, hslot, hfind⟩ | ⟨i, hi, hslot, hfind⟩
      · refine Or.inl ⟨.notFound, hfind, fun _ ↦ ?_⟩
        rw [hlookup, lookup]
        simp only [hslot]
      · have hedit : dropKey tree.kind.key key (leafFor key height t).2 =
            (leafFor key height t).2.eraseIdx i := by
          simp only [dropKey, hslot]
        have hleft : (leafFor key height t).2.eraseIdx i ≠ [] := by
          rcases hcareful _ height t hstored hdepth with hne | hempty
          · rwa [hedit] at hne
          · simp [hempty] at hi
        obtain ⟨hused, hmoves⟩ := hs.moves_writeLeaf hroot hnode (dropKey tree.kind.key key)
        rw [hedit, hroot] at hmoves
        refine Or.inr ⟨_, _, i, _, _, hfind, ?_, ?_, rfl, hmoves⟩
        · rw [removeRecord, if_neg (by simpa using hleft), status, hstored.sound.writeNode hused]
        · rw [hlookup, lookup]
          simp only [hslot]
          exact List.getElem?_eq_getElem hi
    · refine Or.inl ⟨.inval, ?_, fun hdepth ↦ absurd hdepth (Nat.not_le.mpr hdeep)⟩
      unfold findForDelete
      rw [get_bind, if_neg hnonzero', hlba]
      exact bind_error hdescent

/-- Taking a count out of the refcount table rewrites a leaf at most, which may be left empty. -/
theorem Sound.refcountRemove (lba : ℕ) :
    ∃ new ctx, st.Moves .refcounts (chain .refcounts) (root .refcounts) new ctx ∧
      EndsIn (Obmafs3.refcountRemove lba (st.ctx .refcounts)) ctx := by
  have hself : ∃ new ctx, st.Moves .refcounts (chain .refcounts) (root .refcounts) new ctx ∧
      EndsIn (.ok () (st.ctx .refcounts)) ctx := ⟨_, _, hs.moves_refl .refcounts, Or.inl ⟨(), rfl⟩⟩
  have hreads := (hs.stored .refcounts).reads
  unfold Obmafs3.refcountRemove
  rw [get_bind]
  cases hroot : root .refcounts with
  | empty =>
    rw [hroot] at hreads hself
    rw [if_pos (show (st.ctx .refcounts).hdr.rootNodeLba = 0 from hreads)]
    exact hself
  | node height t =>
    rw [hroot] at hreads hself
    have hreadable : Readable refcountKind (st.ctx .refcounts) height t := hreads
    obtain ⟨left, right, hnode, hrun⟩ := hreadable.descend lba .corrupt
    have hnonzero : (st.ctx .refcounts).hdr.rootNodeLba ≠ 0 := by
      rw [hreadable.root]
      exact hreadable.nonzero
    rw [if_neg hnonzero, bind_ok hrun]
    simp only
    cases hslot : leafFind ((leafFor lba height t).2.map RefcountRecord.lba) lba with
    | absent i => exact hself
    | found i =>
      obtain ⟨hused, hmoves⟩ := hs.moves_writeLeaf hroot hnode (·.eraseIdx i)
      rw [hroot] at hmoves
      exact ⟨_, _, hmoves, Or.inl ⟨(), (hs.stored .refcounts).sound.writeNode hused _⟩⟩

/-! ### The promise -/

theorem Sound.headerOnDisk (tree : TreeName) : st.headerOnDisk tree = some (st.hdr tree) := by
  have hpersisted : st.vol.disk (st.hdrLba tree) = .treeHeader (st.hdr tree) := hs.persisted tree
  rw [TreeVolume.headerOnDisk, Volume.blockRead, if_pos (hs.header_taken tree tree).1, hpersisted]

/-- The nodes of the trees and of their free lists are those of the invariant. -/
theorem Sound.nodes_eq : st.nodes = ownedAll root chain := by
  ext lba
  refine exists_congr fun tree ↦ or_congr (hs.stored tree).reachable_iff ⟨?_, fun hlba ↦ ?_⟩
  · rintro ⟨hdr, chain', hheader, hchain, hzero, hlba⟩
    rw [hs.headerOnDisk] at hheader
    obtain rfl := Option.some.inj hheader
    obtain rfl := hchain.unique (hs.links tree) hzero (hs.zero_notMem tree)
    exact hlba
  · exact ⟨_, chain tree, hs.headerOnDisk tree, hs.links tree, hs.zero_notMem tree, hlba⟩

theorem Sound.conserved {allocated : Set ℕ} (hallocated : allocated ⊆ ownedAll root chain) :
    st.Conserved allocated where
  fresh tree lba ctx halloc other hin := by
    have hmem : lba ∈ rootNodes (root other) := (hs.stored other).reachable_iff.mp hin
    have htaken : lba ∈ st.taken (chain tree) := by
      by_cases hne : other = tree
      · subst hne
        exact (hs.stored other).rootNodes_subset hmem
      · exact hs.owned_taken hne (Or.inl hmem)
    rcases btreeAllocNode_spec (hs.stored tree).sound with ⟨lba', ctx', hrun, hnode⟩ | ⟨hrun, -⟩
    · rw [hrun] at halloc
      cases halloc
      exact hnode.fresh htaken
    · rw [hrun] at halloc
      cases halloc
  kept := hs.nodes_eq ▸ hallocated

end

/-! ### Freed extents -/

theorem freeExtents_disk (extents : List ExtentRun) (vol : Volume) :
    (freeExtents extents vol).disk = vol.disk ∧
      (freeExtents extents vol).blockSize = vol.blockSize ∧
      (freeExtents extents vol).totalBlocks = vol.totalBlocks ∧
      (freeExtents extents vol).btreeClumpSize = vol.btreeClumpSize ∧
      (freeExtents extents vol).dedupClumpSize = vol.dedupClumpSize := by
  induction extents generalizing vol with
  | nil => exact ⟨rfl, rfl, rfl, rfl, rfl⟩
  | cons e extents ih =>
    obtain ⟨hdisk, hsize, htotal, hclump, hdedup⟩ :=
      ih (if 0 < e.blockCount then vol.freeBlocks e.startBlock e.blockCount else vol)
    refine ⟨hdisk.trans ?_, hsize.trans ?_, htotal.trans ?_, hclump.trans ?_, hdedup.trans ?_⟩ <;>
      split_ifs <;> rfl

/-- Freeing extents clears bits, and only those of their blocks. -/
theorem freeExtents_bitmap (extents : List ExtentRun) (vol : Volume) (lba : ℕ) :
    ((freeExtents extents vol).bitmap lba = true → vol.bitmap lba = true) ∧
      ((∀ e ∈ extents, ¬(e.startBlock ≤ lba ∧ lba < e.startBlock + e.blockCount)) →
        (freeExtents extents vol).bitmap lba = vol.bitmap lba) := by
  induction extents generalizing vol with
  | nil => exact ⟨id, fun _ ↦ rfl⟩
  | cons e extents ih =>
    obtain ⟨hcleared, hkept⟩ :=
      ih (if 0 < e.blockCount then vol.freeBlocks e.startBlock e.blockCount else vol)
    refine ⟨fun hset ↦ ?_, fun hapart ↦ (hkept fun e' he' ↦
      hapart e' (List.mem_cons_of_mem _ he')).trans ?_⟩
    · have hset' := hcleared hset
      split_ifs at hset'
      · simp only [Volume.freeBlocks, Volume.bitmapClear] at hset'
        split_ifs at hset'
        exact hset'
      · exact hset'
    · have hnot := hapart e List.mem_cons_self
      split_ifs
      · simp only [Volume.freeBlocks, Volume.bitmapClear]
        rw [if_neg fun h ↦ hnot ⟨h.1, h.2.1⟩]
      · rfl

/-- The blocks of some extents. -/
def extentBlocks (extents : List ExtentRun) : Set ℕ :=
  {lba | ∃ e ∈ extents, e.startBlock ≤ lba ∧ lba < e.startBlock + e.blockCount}

theorem freeExtents_cleared {vol : Volume} {lba : ℕ} (hlba : lba ∈ extentBlocks extents)
    (hlt : lba < vol.totalBlocks) : (freeExtents extents vol).bitmap lba = false := by
  obtain ⟨e, he, hge, hend⟩ := hlba
  induction extents generalizing vol with
  | nil => cases he
  | cons f extents ih =>
    rcases List.mem_cons.mp he with rfl | he
    · have hclear : (vol.freeBlocks e.startBlock e.blockCount).bitmap lba = false := by
        simp only [Volume.freeBlocks, Volume.bitmapClear]
        exact if_pos ⟨hge, hend, by omega⟩
      refine Bool.eq_false_of_not_eq_true fun hset ↦ ?_
      rw [freeExtents, List.foldl_cons, if_pos (by omega)] at hset
      have hbefore := (freeExtents_bitmap extents _ lba).1 hset
      rw [hclear] at hbefore
      cases hbefore
    · rw [freeExtents, List.foldl_cons]
      refine ih ?_ he
      split_ifs <;> exact hlt

/-- Freeing blocks that are none of the trees keeps the invariant. -/
theorem Sound.free (hs : st.Sound root chain)
    (hapart : ∀ e ∈ extents, ∀ lba, e.startBlock ≤ lba → lba < e.startBlock + e.blockCount →
      lba ≠ 0 ∧ (∀ tree, lba ≠ st.hdrLba tree) ∧ lba ∉ ownedAll root chain) :
    Sound { st with vol := freeExtents extents st.vol } root chain := by
  obtain ⟨hdisk, hsize, htotal, hclump, hdedup⟩ := freeExtents_disk extents st.vol
  refine hs.elsewhere ⟨hsize, htotal, hclump, hdedup, fun lba hlba ↦ ⟨congrFun hdisk lba, ?_⟩⟩
  refine (freeExtents_bitmap extents st.vol lba).2 fun e he hin ↦ ?_
  obtain ⟨hzero, hhdr, howned⟩ := hapart e he lba hin.1 hin.2
  rcases hlba with h | ⟨tree, h⟩ | h
  · exact hzero h
  · exact hhdr tree h
  · exact howned h

/-! ### Runs -/

/-- One sound state leads to another: no node is lost, what was marked stays marked, the blocks
marked since are nodes, and the nodes gained were free. -/
structure Advances (st : TreeVolume) (root : (tree : TreeName) → Root ℕ tree.Key tree.Record)
    (chain : TreeName → List ℕ) (st' : TreeVolume)
    (root' : (tree : TreeName) → Root ℕ tree.Key tree.Record) (chain' : TreeName → List ℕ) :
    Prop where
  sound : st'.Sound root' chain'
  block_size : st'.vol.blockSize = st.vol.blockSize
  total_blocks : st'.vol.totalBlocks = st.vol.totalBlocks
  headers : st'.hdrLba = st.hdrLba
  kept : ownedAll root chain ⊆ ownedAll root' chain'
  marks : ∀ lba, st.vol.bitmap lba = true → st'.vol.bitmap lba = true
  marked : ∀ lba < st.vol.totalBlocks, st.vol.bitmap lba = false → st'.vol.bitmap lba = true →
    lba ∈ ownedAll root' chain'
  gained : ∀ lba < st.vol.totalBlocks, lba ∈ ownedAll root' chain' →
    lba ∈ ownedAll root chain ∨ st.vol.bitmap lba = false

theorem Sound.advances (hs : st.Sound root chain) {new : Root ℕ tree.Key tree.Record}
    {ctx : TreeCtx} (hmoves : st.Moves tree (chain tree) (root tree) new ctx) :
    ∃ chain', Advances st root chain (st.set tree ctx) (update root tree new) chain' := by
  obtain ⟨chain', hs', hkept, hmarked, hgained⟩ := hs.step hmoves
  obtain ⟨used, -, hframes, hmarks, -⟩ := hmoves
  exact ⟨chain', hs', hframes.block_size, hframes.total_blocks, rfl, hkept, hmarks, hmarked,
    hgained⟩

/-- A call from one state of the invariant to another: no node is lost, and the blocks that it marks
are nodes. -/
def Leads (root : (tree : TreeName) → Root ℕ tree.Key tree.Record) (chain : TreeName → List ℕ)
    (st st' : TreeVolume) : Prop :=
  ∃ root' chain', st'.Sound root' chain' ∧ ownedAll root chain ⊆ ownedAll root' chain' ∧
    ∀ lba < st.vol.totalBlocks, st.vol.bitmap lba = false → st'.vol.bitmap lba = true →
      lba ∈ ownedAll root' chain'

section

variable (hs : st.Sound root chain)
include hs

/-- A call that moves one of the trees. -/
theorem Sound.call_advances {op : ℕ → Op TreeCtx Unit} (hcall : call.run = onTree tree op)
    (hop : ∃ new ctx, st.Moves tree (chain tree) (root tree) new ctx ∧
      EndsIn (op (st.hdrLba tree) (st.ctx tree)) ctx) :
    ∃ new chain', Advances st root chain (call.after st) (update root tree new) chain' := by
  obtain ⟨new, ctx, hmoves, hends⟩ := hop
  obtain ⟨chain', hadvances⟩ := hs.advances hmoves
  rw [TreeCall.after_eq (hcall ▸ onTree_endsIn hends)]
  exact ⟨new, chain', hadvances⟩

theorem Sound.catalogInsert_advances {record : CatalogRecord}
    (hcareful : InsertCareful st .catalog record) :
    ∃ new chain', Advances st root chain ((TreeCall.catalogInsert record).after st)
      (update root .catalog new) chain' := by
  have hcall : (TreeCall.catalogInsert record).run =
      onTree .catalog fun hdrLba ↦ btreeInsert catalogKind hdrLba record := rfl
  exact hs.call_advances hcall (hs.insert hcareful)

theorem Sound.catalogDelete_advances {key : CatalogKey} (hcareful : DeleteCareful st .catalog key) :
    ∃ new chain', Advances st root chain ((TreeCall.catalogDelete key).after st)
      (update root .catalog new) chain' := by
  have hcall : (TreeCall.catalogDelete key).run =
      onTree .catalog fun hdrLba ↦ btreeDelete catalogKind hdrLba key := rfl
  refine hs.call_advances hcall ?_
  rcases hs.delete hcareful with
    ⟨e, hfind, -⟩ | ⟨leaf, path, i, record, ctx, hfind, hremove, -, -, hmoves⟩
  · exact ⟨_, _, hs.moves_refl .catalog, Or.inr ⟨e, bind_error hfind⟩⟩
  · refine ⟨_, ctx, hmoves, Or.inl ⟨(), (bind_ok hfind).trans ?_⟩⟩
    exact bind_ok hremove

theorem Sound.refcountSet_advances {lba refCount : ℕ}
    (hcareful : 1 < refCount → InsertCareful st .refcounts ⟨lba, refCount⟩) :
    ∃ new chain', Advances st root chain ((TreeCall.refcountSet lba refCount).after st)
      (update root .refcounts new) chain' := by
  have hcall : (TreeCall.refcountSet lba refCount).run =
      onTree .refcounts fun hdrLba ↦ setRefcount hdrLba lba refCount := rfl
  refine hs.call_advances hcall ?_
  rcases Nat.lt_or_ge 1 refCount with hcount | hcount
  · obtain ⟨new, ctx, hmoves, hends⟩ := hs.insert (hcareful hcount)
    exact ⟨new, ctx, hmoves, setRefcount_endsIn (refcountSet_of_lt hcount _) hends⟩
  · obtain ⟨new, ctx, hmoves, hends⟩ := hs.refcountRemove lba
    exact ⟨new, ctx, hmoves, setRefcount_endsIn (refcountSet_le_one hcount _) hends⟩

end

variable {inodeId : ℕ}

/-- Deleting an inode finds no record, or takes the record out and frees its blocks. -/
theorem Sound.inodeDelete_spec (hs : st.Sound root chain)
    (hcareful : DeleteCareful st .inodes inodeId)
    (hapart : ∀ leaf path i record ctx, findForDelete inodeKind inodeId (st.ctx .inodes) =
      .ok (leaf, path, i, record) ctx →
      (root .inodes).lookup InodeRecord.inodeId inodeId = some record →
      ∀ lba ∈ extentBlocks record.extents,
      lba ≠ 0 ∧ (∀ tree, lba ≠ st.hdrLba tree) ∧ lba ∉ ownedAll root chain) :
    (∃ e, (TreeCall.inodeDelete inodeId).run st = .error e st ∧
      ((root .inodes).height ≤ btreeMaxDepth →
        (root .inodes).lookup InodeRecord.inodeId inodeId = none)) ∨
    ∃ record st' chain', (TreeCall.inodeDelete inodeId).run st = .ok () st' ∧
      (root .inodes).lookup InodeRecord.inodeId inodeId = some record ∧
      st'.Sound (update root .inodes
        ((root .inodes).remove InodeRecord.inodeId inodeId)) chain' ∧
      st'.vol.blockSize = st.vol.blockSize ∧
      ownedAll root chain ⊆ ownedAll (update root .inodes
        ((root .inodes).remove InodeRecord.inodeId inodeId)) chain' ∧
      ∀ lba < st.vol.totalBlocks, st'.vol.bitmap lba = true →
        st.vol.bitmap lba = true ∧ lba ∉ extentBlocks record.extents := by
  rcases Sound.delete hs hcareful with
    ⟨e, hfind, hnone⟩ | ⟨leaf, path, i, record, ctx, hfind, hremove, hrecord, hbitmap, hmoves⟩
  · have hrun : Obmafs3.inodeDelete (st.hdrLba .inodes) inodeId (st.ctx .inodes) =
        .error e (st.ctx .inodes) := bind_error hfind
    refine Or.inl ⟨e, ?_, hnone⟩
    change onTree .inodes (fun hdrLba ↦ Obmafs3.inodeDelete hdrLba inodeId) st = _
    exact onTree_refused hrun
  · have hfound : (root .inodes).lookup InodeRecord.inodeId inodeId = some record := hrecord
    obtain ⟨chain', hadvances⟩ := hs.advances hmoves
    have hrun : Obmafs3.inodeDelete (st.hdrLba .inodes) inodeId (st.ctx .inodes) =
        .ok () { ctx with vol := freeExtents record.extents ctx.vol } := by
      refine (bind_ok hfind).trans ?_
      exact bind_ok hremove
    have hran : onTree .inodes (fun hdrLba ↦ Obmafs3.inodeDelete hdrLba inodeId) st =
        .ok () (st.set .inodes { ctx with vol := freeExtents record.extents ctx.vol }) :=
      onTree_ok hrun
    obtain ⟨-, hsize, -⟩ := freeExtents_disk record.extents ctx.vol
    refine Or.inr ⟨record, _, chain', hran, hfound, hadvances.sound.free fun e he lba hge hlt ↦ ?_,
      hsize.trans hadvances.block_size, hadvances.kept, fun lba hlt hset ↦ ⟨?_, fun hmem ↦ ?_⟩⟩
    · obtain ⟨hzero, hhdr, hnot⟩ := hapart leaf path i record _ hfind hfound lba ⟨e, he, hge, hlt⟩
      refine ⟨hzero, hhdr, fun hmem ↦ ?_⟩
      obtain ⟨other, hother⟩ := id hmem
      obtain ⟨hlt', hset⟩ := hadvances.sound.owned_set hother
      -- The removal marked no block, so what the trees own now they owned before.
      rcases hadvances.gained lba (hadvances.total_blocks ▸ hlt') hmem with howned | hclear
      · exact hnot howned
      · change ctx.vol.bitmap lba = true at hset
        rw [hbitmap, hclear] at hset
        cases hset
    · have hbefore := (freeExtents_bitmap record.extents ctx.vol lba).1 hset
      rwa [hbitmap] at hbefore
    · have htotal : ctx.vol.totalBlocks = st.vol.totalBlocks := hadvances.total_blocks
      have hclear := freeExtents_cleared hmem (htotal.symm ▸ hlt)
      change (freeExtents record.extents ctx.vol).bitmap lba = true at hset
      rw [hclear] at hset
      cases hset

theorem Advances.leads {st' : TreeVolume}
    {root' : (tree : TreeName) → Root ℕ tree.Key tree.Record} {chain' : TreeName → List ℕ}
    (hadvances : Advances st root chain st' root' chain') : Leads root chain st st' :=
  ⟨root', chain', hadvances.sound, hadvances.kept, hadvances.marked⟩

section

variable (hs : st.Sound root chain)
include hs

theorem Sound.leads_refl : Leads root chain st st := by
  refine ⟨root, chain, hs, subset_rfl, fun lba _ hclear hset ↦ ?_⟩
  rw [hclear] at hset
  cases hset

theorem Sound.extents_apart (hextents : ExtentsApart st inodeId)
    (leaf : LeafAt InodeRecord) (path : List (ℕ × ℕ)) (i : ℕ) (record : InodeRecord) (ctx : TreeCtx)
    (hfind : findForDelete inodeKind inodeId (st.ctx .inodes) = .ok (leaf, path, i, record) ctx) :
    ∀ lba ∈ extentBlocks record.extents,
      lba ≠ 0 ∧ (∀ tree, lba ≠ st.hdrLba tree) ∧ lba ∉ ownedAll root chain := by
  rintro lba ⟨e, he, hge, hlt⟩
  obtain ⟨hzero, hhdr, hnot⟩ := hextents leaf path i record ctx hfind e he lba hge hlt
  exact ⟨hzero, hhdr, fun h ↦ hnot (hs.nodes_eq ▸ h)⟩

theorem Sound.leads_inodeDelete (hcareful : DeleteCareful st .inodes inodeId)
    (hextents : ExtentsApart st inodeId) :
    Leads root chain st ((TreeCall.inodeDelete inodeId).after st) := by
  have hapart := hs.extents_apart hextents
  rcases hs.inodeDelete_spec hcareful fun leaf path i record ctx hfind _ ↦
      hapart leaf path i record ctx hfind with
    ⟨e, hrun, -⟩ | ⟨record, st', chain', hrun, -, hs', -, hkept, hbits⟩
  · rw [TreeCall.after_eq (Or.inr ⟨e, hrun⟩)]
    exact hs.leads_refl
  · rw [TreeCall.after_eq (Or.inl ⟨(), hrun⟩)]
    refine ⟨_, chain', hs', hkept, fun lba hlt hclear hset ↦ ?_⟩
    rw [(hbits lba hlt hset).1] at hclear
    cases hclear

/-- A remount reads the headers that are in memory. -/
theorem Sound.remount : TreeCall.remount.run st = .ok () st := by
  have hsame (hdr : TreeName → BtreeHeader) (hhdr : ∀ tree, hdr tree = st.hdr tree) :
      (.ok () { st with hdr := hdr } : EStateM.Result ErrorCode TreeVolume Unit) = .ok () st := by
    rw [show hdr = st.hdr from funext hhdr]
  change Obmafs3.remount st = _
  unfold Obmafs3.remount
  rw [hs.headerOnDisk, hs.headerOnDisk, hs.headerOnDisk]
  refine hsame _ fun tree ↦ ?_
  cases tree <;> rfl

theorem Sound.leads (hcareful : call.Careful st) : Leads root chain st (call.after st) := by
  cases call with
  | catalogInsert record =>
    obtain ⟨new, chain', hadvances⟩ := hs.catalogInsert_advances hcareful
    exact hadvances.leads
  | catalogDelete key =>
    obtain ⟨new, chain', hadvances⟩ := hs.catalogDelete_advances hcareful
    exact hadvances.leads
  | inodePut record =>
    have hcall : (TreeCall.inodePut record).run =
        onTree .inodes fun hdrLba ↦ btreeInsert inodeKind hdrLba record := rfl
    obtain ⟨new, chain', hadvances⟩ := hs.call_advances hcall (hs.insert hcareful)
    exact hadvances.leads
  | inodeDelete inodeId => exact hs.leads_inodeDelete hcareful.1 hcareful.2
  | refcountSet lba refCount =>
    obtain ⟨new, chain', hadvances⟩ := hs.refcountSet_advances hcareful
    exact hadvances.leads
  | remount =>
    rw [TreeCall.after_eq (Or.inl ⟨(), hs.remount⟩)]
    exact hs.leads_refl

/-- A run of careful calls keeps the invariant, and every node it allocates. -/
theorem Sound.run {calls : List TreeCall} (hcareful : AllCallsCareful calls st) :
    ∃ root' chain', (afterCalls calls st).Sound root' chain' ∧
      ownedAll root chain ∪ allocatedBy calls st ⊆ ownedAll root' chain' := by
  induction calls generalizing st root chain with
  | nil => exact ⟨root, chain, hs, by simp [allocatedBy]⟩
  | cons call calls ih =>
    obtain ⟨root₁, chain₁, hs₁, hkept, hmarked⟩ := hs.leads hcareful.1
    obtain ⟨root', chain', hs', hall⟩ := ih hs₁ hcareful.2
    refine ⟨root', chain', hs', Set.union_subset (fun lba hlba ↦ hall (Or.inl (hkept hlba))) ?_⟩
    rintro lba (⟨hlt, hclear, hset⟩ | hlba)
    · exact hall (Or.inl (hmarked lba hlt hclear hset))
    · exact hall (Or.inr hlba)

end

/-- The trees are stored with their free lists, and their headers are on disk. -/
def Consistent (st : TreeVolume) : Prop :=
  ∃ root chain, st.Sound root chain

end TreeVolume

/-- On a consistent volume no run of careful calls and remounts loses a node or comes to hand out
one that is in a tree. -/
theorem nodes_conserved (calls : List TreeCall) {st : TreeVolume} (hconsistent : st.Consistent)
    (hcareful : AllCallsCareful calls st) :
    (afterCalls calls st).Conserved (st.nodes ∪ allocatedBy calls st) := by
  obtain ⟨root, chain, hs⟩ := hconsistent
  obtain ⟨root', chain', hs', hall⟩ := hs.run hcareful
  exact hs'.conserved (hs.nodes_eq ▸ hall)

/-! ### A volume with one inode -/

namespace OneInode

/-- The header of a tree without free nodes. -/
def header (rootNodeLba : ℕ) : BtreeHeader where
  rootNodeLba := rootNodeLba
  freeNodeLba := 0
  freeNodes := 0
  nodeSize := 4096
  deduplication := false

def inode : InodeRecord := ⟨16, 0, [], 1⟩

/-- A volume of 64 blocks. The inode table has one record, in block 4, and the other trees are
empty. -/
def volume : TreeVolume where
  vol :=
    { blockSize := 4096
      totalBytes := 262144
      btreeClumpSize := 0
      dedupClumpSize := 0
      nextFreeLba := 5
      bitmap := fun lba ↦ decide (lba < 5)
      disk := fun
        | 1 => .treeHeader (header 0)
        | 2 => .treeHeader (header 4)
        | 3 => .treeHeader (header 0)
        | 4 => .inodeNode (.leaf 0 0 [inode])
        | _ => .bytes [] }
  hdr
    | .inodes => header 4
    | _ => header 0
  hdrLba
    | .catalog => 1
    | .inodes => 2
    | .refcounts => 3

def roots : (tree : TreeName) → Root ℕ tree.Key tree.Record
  | .catalog => .empty
  | .inodes => .node 0 (4, [inode])
  | .refcounts => .empty

theorem mem_taken {lba : ℕ} (hlba : lba < 5) : lba ∈ volume.taken [] := by
  refine ⟨?_, decide_eq_true hlba, List.not_mem_nil⟩
  change lba < 262144 / 4096
  omega

theorem allocated (tree : TreeName) : Allocated (volume.ctx tree) (volume.taken []) where
  zero_mem := mem_taken (by decide)
  used_lt _ h := h.1
  used_set _ h := h.2.1
  node_size := by cases tree <;> decide
  chain := by
    refine ⟨[], ?_, List.nodup_nil, by simp⟩
    cases tree <;> rfl

theorem ready (tree : TreeName) :
    Ready tree.kind (volume.hdrLba tree) (volume.taken []) (volume.ctx tree) where
  sound := allocated tree
  header := mem_taken (by cases tree <;> decide)
  reserved lba hlba := by
    rcases hlba with rfl | rfl <;> cases tree <;> rfl

theorem placed : Placed (inodeKind.view (volume.ctx .inodes)) (volume.taken []) 0 nowhere nowhere
    [(4, [inode])] :=
  placed_leaf rfl (mem_taken (by decide))

theorem eq_of_mem_owned {tree : TreeName} {lba : ℕ}
    (hlba : lba ∈ TreeVolume.owned (roots tree) []) : tree = .inodes ∧ lba = 4 := by
  rcases hlba with hlba | hlba
  · cases tree with
    | catalog => exact absurd hlba (Set.notMem_empty lba)
    | inodes => exact ⟨rfl, mem_nodesOf_leaf.mp hlba⟩
    | refcounts => exact absurd hlba (Set.notMem_empty lba)
  · exact absurd hlba List.not_mem_nil

theorem consistent : volume.Consistent := by
  refine ⟨roots, fun _ ↦ [], fun tree ↦ ⟨ready tree, ?_, ?_⟩, fun tree ↦ ?_, fun tree ↦ ?_,
    fun tree ↦ ?_, fun tree other hne ↦ ?_, fun tree other ↦ ?_, fun tree ↦ ?_,
    fun tree other hne ↦ ?_, by decide, fun tree ↦ ?_⟩
  · cases tree <;> rfl
  · cases tree with
    | catalog => trivial
    | inodes => exact ⟨placed, trivial⟩
    | refcounts => trivial
  · cases tree <;> rfl
  · cases tree <;> rfl
  · cases tree <;> rfl
  · intro lba hlba hother
    apply hne
    rw [(eq_of_mem_owned hlba).1, (eq_of_mem_owned hother).1]
  · intro hlba
    have hfour := (eq_of_mem_owned hlba).2
    revert hfour
    cases tree <;> decide
  · cases tree <;> decide
  · revert hne
    cases tree <;> cases other <;> decide
  · cases tree <;> decide

theorem careful : AllCallsCareful [.inodePut ⟨17, 0, [], 1⟩, .remount] volume := by
  refine ⟨fun used root hstored ↦ Or.inr ?_, trivial, trivial⟩
  have hroot : root = .node 0 (4, [inode]) := hstored.eq_leaf rfl
  have hdemand : root.demand inodeKind.key (maxKeys volume.vol.blockSize inodeKind.recordSize)
      (maxKeys volume.vol.blockSize inodeKind.entrySize) ⟨17, 0, [], 1⟩ ≤ root.height + 2 :=
    Root.demand_le root
  rw [hroot] at hdemand ⊢
  have hhand : 2 ≤ nodesAtHand (volume.ctx .inodes) := by decide
  exact hdemand.trans hhand

end OneInode

theorem nodes_conserved_one :
    (afterCalls [.inodePut ⟨17, 0, [], 1⟩, .remount] OneInode.volume).Conserved
      (OneInode.volume.nodes ∪ allocatedBy [.inodePut ⟨17, 0, [], 1⟩, .remount] OneInode.volume) :=
  nodes_conserved [.inodePut ⟨17, 0, [], 1⟩, .remount] OneInode.consistent OneInode.careful

/-- Deleting the inode writes the header before it frees the leaf, and a remount forgets the
leaf. -/
theorem nodes_conserved_lost : OneInode.volume.Consistent ∧
      ¬(afterCalls [.inodeDelete 16, .remount] OneInode.volume).Conserved
        (OneInode.volume.nodes ∪ allocatedBy [.inodeDelete 16, .remount] OneInode.volume) := by
  refine ⟨OneInode.consistent, fun hconserved ↦ ?_⟩
  have hlive : 4 ∈ OneInode.volume.nodes := ⟨.inodes, Or.inl (.root (by decide))⟩
  have hdisk (tree : TreeName) :
      (afterCalls [.inodeDelete 16, .remount] OneInode.volume).headerOnDisk tree =
        some (OneInode.header 0) := by
    cases tree <;> rfl
  obtain ⟨tree, hreach | ⟨hdr, chain, hheader, hchain, hzero, hmem⟩⟩ :=
    hconserved.kept (Or.inl hlive)
  · refine hreach.root_ne ?_
    cases tree <;> rfl
  · rw [hdisk] at hheader
    obtain rfl := Option.some.inj hheader
    have hempty : [] = chain := FreeChain.unique rfl hchain (by simp) hzero
    rw [← hempty] at hmem
    exact List.not_mem_nil hmem

/-! ### The leaves -/

/-- The walk meets the leaves that the child pointers lead to, each of them once. -/
theorem Stored.walk_mem {κ ρ : Type} [LinearOrder κ] {kind : TreeKind κ ρ} {hdrLba : ℕ}
    {used : Set ℕ} {ctx : TreeCtx} {root : Root ℕ κ ρ} (hstored : Stored kind hdrLba used ctx root) :
    ∃ walk, walkTree kind ctx = .ok walk ctx ∧ Chained 0 walk ∧ (walk.map LeafAt.lba).Nodup ∧
      ∀ lba records, (∃ leaf ∈ walk, leaf.lba = lba ∧ leaf.records = records) ↔
        Reachable kind ctx lba ∧ contentAt (kind.view ctx) lba = some (.inl records) := by
  obtain ⟨walk, hrun, hchained, hleaves⟩ := walkTree_spec hstored
  have hlbas : walk.map LeafAt.lba = root.leaves.map Prod.fst := by
    rw [← hleaves, List.map_map]
    rfl
  refine ⟨walk, hrun, hchained, ?_, fun lba records ↦ ?_⟩
  · rw [hlbas]
    cases root with
    | empty => exact List.nodup_nil
    | node height t =>
      have hnodup := (hstored.on_disk.1.rows 0 (Nat.zero_le _)).nodup
      simpa [nowhere, rowOf, row_zero, Root.leaves] using hnodup
  · have hmem : (∃ leaf ∈ walk, leaf.lba = lba ∧ leaf.records = records) ↔
        (lba, records) ∈ root.leaves := by
      simp only [← hleaves, List.mem_map, Prod.mk.injEq]
    rw [hmem, hstored.reachable_iff]
    cases root with
    | empty => exact iff_of_false List.not_mem_nil fun h ↦ h.1
    | node height t => exact hstored.reads.holds.mem_leaves

/-- After a run of careful calls the right links of every tree lead through the leaves that its
child pointers lead to, each of them once, and the left links lead back. -/
theorem leaves_walked (calls : List TreeCall) {st : TreeVolume} (hconsistent : st.Consistent)
    (hcareful : AllCallsCareful calls st) (tree : TreeName) :
    ∃ walk, walkTree tree.kind ((afterCalls calls st).ctx tree) =
        .ok walk ((afterCalls calls st).ctx tree) ∧
      Chained 0 walk ∧ (walk.map LeafAt.lba).Nodup ∧
      ∀ lba records, (∃ leaf ∈ walk, leaf.lba = lba ∧ leaf.records = records) ↔
        (afterCalls calls st).InTree tree lba ∧
          contentAt (tree.kind.view ((afterCalls calls st).ctx tree)) lba = some (.inl records) := by
  obtain ⟨root, chain, hs⟩ := hconsistent
  obtain ⟨root', chain', hs', -⟩ := hs.run hcareful
  exact (hs'.stored tree).walk_mem

theorem leaves_walked_one :
    ∃ walk, walkTree inodeKind ((afterCalls [.inodePut ⟨17, 0, [], 1⟩, .remount]
        OneInode.volume).ctx .inodes) = .ok walk ((afterCalls [.inodePut ⟨17, 0, [], 1⟩, .remount]
        OneInode.volume).ctx .inodes) ∧ Chained 0 walk :=
  let ⟨walk, hrun, hchained, _⟩ := leaves_walked [.inodePut ⟨17, 0, [], 1⟩, .remount]
    OneInode.consistent OneInode.careful .inodes
  ⟨walk, hrun, hchained⟩

end Obmafs3
