import Obmafs3.Check.TreesPacked

/-!
# The checker keeps every tree that it packs

Whatever fails before a header is written, the trees are there with all their blocks marked. Where
nothing fails, the blocks that are given back are those of the old nodes and of the free ones.
-/

set_option autoImplicit false

namespace Obmafs3.Repack

open Library.Runs

variable {st st' st'' : PackVolume} {t u : TreeId} {hdr : TreeHeader} {nodes chain : List ℕ}
  {faults : TreeFaults} {a : ℕ}

/-! ### Renaming twice -/

variable {ρ ρ' : ℕ → ℕ}

theorem renameLink_comp {link : ℕ} (hlink : link = 0 ∨ ρ link ≠ 0) :
    renameLink ρ' (renameLink ρ link) = renameLink (ρ' ∘ ρ) link := by
  by_cases hzero : link = 0
  · simp [renameLink, hzero]
  · simp [renameLink, hzero, hlink.resolve_left hzero]

theorem LinkedNode.rename_comp {image : LinkedNode}
    (hlinks : ∀ link ∈ [image.left, image.right, image.overflow], link = 0 ∨ ρ link ≠ 0) :
    (image.rename ρ).rename ρ' = image.rename (ρ' ∘ ρ) := by
  simp only [LinkedNode.rename, renameLink_comp (hlinks image.left (by simp)),
    renameLink_comp (hlinks image.right (by simp)), renameLink_comp (hlinks image.overflow (by simp))]
  split_ifs
  · rw [List.map_map]
  · rfl

/-- What is carried twice is carried. -/
theorem Carried.trans (h : Carried st st' t) (h' : Carried st' st'' t)
    (hzero : ¬Occupies st' t 0) : Carried st st'' t := by
  obtain ⟨hdr, nodes, chain, hdr₁, chain₁, ρ, htree, htree₁, hρ, hcopied, hrecords, hfields⟩ := h
  obtain ⟨hdr₁', nodes₁, chain₁', hdr₂, chain₂, ρ', htree₁', htree₂, hρ', hcopied', hrecords',
    hfields'⟩ := h'
  obtain ⟨rfl, rfl, rfl⟩ := htree₁.unique htree₁'
  rw [List.map_map] at htree₂
  have hplace (n : ℕ) (hn : n ∈ nodes) : ρ n ∈ nodes.map ρ := List.mem_map_of_mem hn
  have hne (n : ℕ) (hn : n ∈ nodes) : ρ n ≠ 0 := fun h ↦ hzero (htree₁.occupies_iff.mpr
    (Or.inr (Or.inl (h ▸ nodeBlocks_self t.blocksPerNode_pos (hplace n hn)))))
  refine ⟨hdr, nodes, chain, hdr₂, chain₂, ρ' ∘ ρ, htree, htree₂, fun n hn n' hn' heq ↦ ?_,
    fun n hn b hb ↦ ?_, fun hroot fuel ↦ ?_, hfields'.trans hfields⟩
  · exact hρ n hn n' hn' (hρ' (ρ n) (hplace n hn) (ρ n') (hplace n' hn') heq)
  · obtain ⟨image, hparts, hlinks⟩ := htree.images n hn
    rw [Function.comp_apply, hcopied' (ρ n) (hplace n hn) b hb, hcopied n hn b hb, hparts b hb]
    exact congrArg (Content.node · b)
      (LinkedNode.rename_comp fun link hlink ↦ (hlinks link hlink).imp_right (hne link))
  · have hroot₁ : hdr₁.root ≠ 0 := fun hroot₁ ↦ by
      have hempty := (htree₁.walk.resolve_right fun h ↦ h.1 hroot₁).2
      rw [List.map_eq_nil_iff] at hempty
      exact List.not_mem_nil (hempty ▸ htree.root_mem hroot)
    rw [hrecords' hroot₁, hrecords hroot]

/-! ### What packing keeps -/

/-- The trees are there and are what they were. -/
structure Keeps (st st' : PackVolume) : Prop where
  same : SameTrees st st'
  sound : Sound st'
  carried : ∀ t, st.treeLba t ≠ 0 → Carried st st' t

theorem Sound.not_occupies_zero (hst : Sound st) : ¬Occupies st t 0 :=
  fun ha ↦ (hst.inside t 0 ha).2.1 rfl

theorem Keeps.refl (hst : Sound st) : Keeps st st where
  same := ⟨fun _ ↦ rfl, rfl⟩
  sound := hst
  carried := fun t hnamed ↦ by
    obtain ⟨hdr, nodes, chain, htree⟩ := hst.trees t hnamed
    exact htree.carried_untouched ⟨fun _ ↦ rfl, rfl⟩ fun _ _ ↦ rfl

theorem Keeps.trans (h : Keeps st st') (h' : Keeps st' st'') : Keeps st st'' where
  same := ⟨fun t ↦ (h'.same.treeLba t).trans (h.same.treeLba t),
    h'.same.totalBlocks.trans h.same.totalBlocks⟩
  sound := h'.sound
  carried := fun t hnamed ↦
    (h.carried t hnamed).trans (h'.carried t ((h.same.treeLba t).symm ▸ hnamed))
      h.sound.not_occupies_zero

theorem Sound.keeps_untouched (hst : Sound st) (hsame : SameTrees st st')
    (huntouched : ∀ t, Untouched st st' t)
    (hmarked : ∀ a, st.bitmap a = true → st'.bitmap a = true) (hzero : st'.disk 0 = st.disk 0) :
    Keeps st st' where
  same := hsame
  sound := hst.untouched hsame huntouched hmarked hzero
  carried := fun t hnamed ↦ by
    obtain ⟨hdr, nodes, chain, htree⟩ := hst.trees t hnamed
    exact htree.carried_untouched hsame (huntouched t)

/-- A marked block of none of the trees. -/
def Foreign (st : PackVolume) (a : ℕ) : Prop :=
  st.bitmap a = true ∧ ∀ u, ¬Occupies st u a

/-- The move of one tree. -/
structure Moved (st st' : PackVolume) (t : TreeId) (faults : TreeFaults) : Prop where
  keeps : Keeps st st'
  others : ∀ u, u ≠ t → Untouched st st' u
  packed : ∃ hdr nodes, TreeAt st' t hdr nodes []
  content : ∀ a, ¬Occupies st' t a → st'.disk a = st.disk a
  foreign : faults.chain = none → ∀ a, Foreign st' a ↔ Foreign st a

variable {leaf free : ℕ} {ids : List TreeId} {start : ℕ}

theorem MoveDone.moved (hmove : MoveDone st st' t hdr nodes chain start faults) (hst : Sound st)
    (htree : TreeAt st t hdr nodes chain) (hroot : hdr.root ≠ 0)
    (hfree : ∀ a, NewRun t start nodes a → st.bitmap a = false) (hstart : start ≠ 0)
    (hend : start + nodes.length * t.blocksPerNode ≤ st.totalBlocks)
    (hheader : faults.headerWrite = false) : Moved st st' t faults := by
  have hself {a : ℕ} := hmove.occupies_self (a := a) htree hroot hstart hheader
  have huntouched (u : TreeId) (hne : u ≠ t) := hmove.untouched hst htree hfree hne
  have hother {u : TreeId} (hne : u ≠ t) {a : ℕ} : Occupies st' u a ↔ Occupies st u a :=
    (huntouched u hne).occupies_iff hmove.same hst
  refine ⟨⟨hmove.same, hmove.sound hst htree hroot hfree hstart hend hheader, fun u hnamed ↦ ?_⟩,
    huntouched, ⟨_, _, hmove.treeAt htree hroot hstart hheader⟩, fun a ha ↦ ?_,
    fun hchain a ↦ ⟨fun ⟨hset, hnone⟩ ↦ ?_, fun ⟨hset, hnone⟩ ↦ ?_⟩⟩
  · by_cases hne : u = t
    · exact hne ▸ hmove.carried htree hroot hstart hheader
    · obtain ⟨hdr', nodes', chain', htree'⟩ := hst.trees u hnamed
      exact htree'.carried_untouched hmove.same (huntouched u hne)
  · exact hmove.kept a (fun h ↦ ha (hself.mpr (Or.inr h))) fun h ↦ ha (hself.mpr (Or.inl h))
  · -- A marked block is neither one of the old nodes nor a free one.
    have hnodes : ¬NodeBlocks t.blocksPerNode nodes a := fun h ↦ by
      rw [hmove.cleared a h] at hset
      cases hset
    have hfreed : ¬NodeBlocks t.blocksPerNode chain a := fun h ↦ by
      rw [hmove.freed hchain a h] at hset
      cases hset
    have hrun : ¬NewRun t start nodes a := fun h ↦ hnone t (hself.mpr (Or.inr h))
    refine ⟨hmove.others a hrun hnodes hfreed ▸ hset, fun u hu ↦ ?_⟩
    by_cases hne : u = t
    · rcases htree.occupies_iff.mp (hne ▸ hu) with rfl | h | h
      · exact hnone t (hself.mpr (Or.inl rfl))
      · exact hnodes h
      · exact hfreed h
    · exact hnone u ((hother hne).mpr hu)
  · have hrun : ¬NewRun t start nodes a := fun h ↦ by
      rw [hfree a h] at hset
      cases hset
    have hout (h : TreeBlocks st t nodes chain a) : False := hnone t (htree.occupies_iff.mpr h)
    refine ⟨?_, fun u hu ↦ ?_⟩
    · rw [hmove.others a hrun (fun h ↦ hout (Or.inr (Or.inl h))) fun h ↦ hout (Or.inr (Or.inr h))]
      exact hset
    · by_cases hne : u = t
      · rcases hself.mp (hne ▸ hu) with rfl | h
        · exact hout (Or.inl rfl)
        · exact hrun h
      · exact hnone u ((hother hne).mp hu)

/-! ### One tree -/

/-- A tree that is left alone: it is empty, its nodes stand one behind the other, or no free run has
room for them. -/
def Idle (st : PackVolume) (t : TreeId) : Prop :=
  st.treeLba t = 0 ∨ ∃ hdr nodes chain, TreeAt st t hdr nodes chain ∧
    (hdr.root = 0 ∨ contiguous t.blocksPerNode nodes = true ∨
      st.findFree (nodes.length * t.blocksPerNode) = none)

section

variable (hst : Sound st)
include hst

theorem Sound.length_le (hnodup : nodes.Nodup)
    (hnodes : ∀ n ∈ nodes, Occupies st t n) : nodes.length ≤ st.totalBlocks := by
  have hrange : nodes ⊆ List.range st.totalBlocks :=
    fun n hn ↦ List.mem_range.mpr (hst.inside t n (hnodes n hn)).1
  exact (List.subperm_of_subset hnodup hrange).length_le.trans_eq List.length_range

theorem Sound.activeNodes_eq (htree : TreeAt st t hdr nodes chain)
    (hroot : hdr.root ≠ 0) : activeNodes st.disk (st.totalBlocks + 1) [hdr.root] = some nodes := by
  obtain ⟨fuel, hwalk⟩ := htree.walk_some hroot
  refine activeNodes_fuel hwalk (Nat.lt_succ_of_le (hst.length_le (t := t) htree.nodup fun n hn ↦ ?_))
  exact htree.occupies_iff.mpr (Or.inr (Or.inl (nodeBlocks_self t.blocksPerNode_pos hn)))

/-- The free chain is no longer than the volume. -/
theorem Sound.chain_le (htree : TreeAt st t hdr nodes chain) : chain.length ≤ st.totalBlocks :=
  hst.length_le (t := t) htree.freeNodup fun _ hn ↦
    htree.occupies_iff.mpr (Or.inr (Or.inr (nodeBlocks_self t.blocksPerNode_pos hn)))

/-- A tree is left alone or its move begins. -/
theorem Sound.defragTree_cases (faults : TreeFaults) (t : TreeId) :
    st.defragTree faults t = st ∧ (faults = TreeFaults.none → Idle st t) ∨
      ∃ hdr nodes chain start, TreeAt st t hdr nodes chain ∧ hdr.root ≠ 0 ∧
        st.findFree (nodes.length * t.blocksPerNode) = some start ∧
        st.defragTree faults t =
          st.moveTree faults (st.treeLba t) t.blocksPerNode start hdr nodes := by
  by_cases hnamed : st.treeLba t = 0
  · refine Or.inl ⟨?_, fun _ ↦ Or.inl hnamed⟩
    rw [PackVolume.defragTree, hnamed]
    split
    · next hdr hheader => exact absurd hheader (hst.super.2 hdr)
    · rfl
  obtain ⟨hdr, nodes, chain, htree⟩ := hst.trees t hnamed
  rw [PackVolume.defragTree, htree.header]
  simp only
  split_ifs with hread
  · refine Or.inl ⟨rfl, fun hnone ↦ Or.inr ⟨hdr, nodes, chain, htree, Or.inl ?_⟩⟩
    subst hnone
    simpa [TreeFaults.none] using hread
  · have hroot : hdr.root ≠ 0 := fun h ↦ hread (Or.inr (Or.inl h))
    simp only [hst.activeNodes_eq htree hroot]
    split_ifs with hcontiguous
    · exact Or.inl ⟨rfl, fun _ ↦
        Or.inr ⟨hdr, nodes, chain, htree, Or.inr (Or.inl hcontiguous)⟩⟩
    · cases hfind : st.findFree (nodes.length * t.blocksPerNode) with
      | none => exact Or.inl ⟨rfl, fun _ ↦
          Or.inr ⟨hdr, nodes, chain, htree, Or.inr (Or.inr hfind)⟩⟩
      | some start => exact Or.inr ⟨hdr, nodes, chain, start, htree, hroot, hfind, rfl⟩

/-- What `obmafs3_bitmap_find_free` finds for the nodes of a tree. -/
theorem Sound.newRun (htree : TreeAt st t hdr nodes chain) (hroot : hdr.root ≠ 0)
    (hfind : st.findFree (nodes.length * t.blocksPerNode) = some start) :
    (∀ a, NewRun t start nodes a → st.bitmap a = false) ∧ start ≠ 0 ∧
      start + nodes.length * t.blocksPerNode ≤ st.totalBlocks := by
  obtain ⟨hfree, hend⟩ := Volume.bitmapFindFree_some hfind
  refine ⟨fun a ha ↦ hfree a ha.1 ha.2, ?_, by simpa [Volume.totalBlocks] using hend⟩
  rintro rfl
  have hpos : 0 < nodes.length * t.blocksPerNode :=
    Nat.mul_pos (List.length_pos_of_mem (htree.root_mem hroot)) t.blocksPerNode_pos
  have hzero : st.bitmap 0 = false := hfree 0 le_rfl (hpos.trans_eq (Nat.zero_add _).symm)
  rw [hst.super.1] at hzero
  cases hzero

/-- Copies that stop leave marks and nothing else that anyone sees. -/
theorem Sound.keeps_moveTree_copy (htree : TreeAt st t hdr nodes chain)
    (hfree : ∀ a, NewRun t start nodes a → st.bitmap a = false) (hstart : start ≠ 0)
    {at' : ℕ × ℕ × Content} (hcopy : faults.copy = some at') :
    Keeps st (st.moveTree faults (st.treeLba t) t.blocksPerNode start hdr nodes) := by
  obtain ⟨k, b, garbage⟩ := at'
  rw [PackVolume.moveTree, hcopy]
  have hout (a : ℕ) (ha : ¬NewRun t start nodes a) (ρ : ℕ → ℕ) :
      copyNodesUntil ρ t.blocksPerNode k b garbage (relocationMap t.blocksPerNode start nodes)
        st.disk a = st.disk a := copyNodesUntil_out htree.nodup t.blocksPerNode_pos ha
  refine hst.keeps_untouched ⟨fun id ↦ ?_, rfl⟩ (fun u a ha ↦ hout a (hst.not_newRun hfree ha) _)
    (fun a ha ↦ ?_) (hout 0 (fun h ↦ hstart (Nat.le_zero.mp h.1)) _)
  · cases id <;> rfl
  · by_cases hrun : NewRun t start nodes a
    · exact fill_in hrun
    · exact (fill_out hrun).trans ha

theorem Sound.keeps_defragTree (hheader : faults.headerWrite = false)
    (t : TreeId) : Keeps st (st.defragTree faults t) := by
  rcases hst.defragTree_cases faults t with
    ⟨hidle, -⟩ | ⟨hdr, nodes, chain, start, htree, hroot, hfind, hmove⟩
  · rw [hidle]
    exact Keeps.refl hst
  · obtain ⟨hfree, hstart, hend⟩ := hst.newRun htree hroot hfind
    rw [hmove]
    cases hcopy : faults.copy with
    | some at' => exact hst.keeps_moveTree_copy htree hfree hstart hcopy
    | none =>
      exact ((MoveDone.of_moveTree htree (fun a ha ↦ (hst.inside t a (htree.occupies_iff.mpr ha)).2.2)
        (hst.chain_le htree) hfree hcopy).moved hst htree hroot hfree hstart hend hheader).keeps

theorem Sound.defragTree_faultless (t : TreeId) : st.defragTree TreeFaults.none t = st ∧ Idle st t ∨
      Moved st (st.defragTree TreeFaults.none t) t TreeFaults.none := by
  rcases hst.defragTree_cases TreeFaults.none t with
    ⟨hidle, h⟩ | ⟨hdr, nodes, chain, start, htree, hroot, hfind, hmove⟩
  · exact Or.inl ⟨hidle, h rfl⟩
  · obtain ⟨hfree, hstart, hend⟩ := hst.newRun htree hroot hfind
    rw [hmove]
    exact Or.inr ((MoveDone.of_moveTree htree
      (fun a ha ↦ (hst.inside t a (htree.occupies_iff.mpr ha)).2.2) (hst.chain_le htree) hfree
      rfl).moved hst htree hroot hfree hstart hend rfl)

end

/-! ### All trees -/

theorem Sound.keeps_foldl (hst : Sound st) {faults : TreeId → TreeFaults}
    (hheader : ∀ t, (faults t).headerWrite = false) (ids : List TreeId) :
    Keeps st (ids.foldl (fun st id ↦ st.defragTree (faults id) id) st) := by
  induction ids generalizing st with
  | nil => exact Keeps.refl hst
  | cons t ids ih =>
    have hstep := hst.keeps_defragTree (hheader t) t
    exact hstep.trans (ih hstep.sound)

/-- Trees that are packed one after the other, and nothing fails. -/
def packTrees (ids : List TreeId) (st : PackVolume) : PackVolume :=
  ids.foldl (fun st id ↦ st.defragTree TreeFaults.none id) st

theorem packTrees_concat :
    packTrees (ids ++ [t]) st = (packTrees ids st).defragTree TreeFaults.none t :=
  List.foldl_append

/-- Each tree is what it was and has no free chain, or it was left alone at its turn and is as it
was. A block is marked if it is one of a tree or was marked and of no tree; the others of these are
as they were, and so is what is in all blocks of no tree. -/
structure Packed (ids : List TreeId) (st st' : PackVolume) : Prop where
  keeps : Keeps st st'
  packed : ∀ t, st.treeLba t ≠ 0 → (∃ hdr nodes, TreeAt st' t hdr nodes []) ∨
    Untouched st st' t ∧ (t ∉ ids ∨
      ∃ before after, ids = before ++ t :: after ∧ Idle (packTrees before st) t)
  bitmap : ∀ a, st'.bitmap a = true ↔ (∃ t, Occupies st' t a) ∨ Foreign st a
  foreign : ∀ a, Foreign st a → ∀ t, ¬Occupies st' t a
  content : ∀ a, (∀ t, ¬Occupies st' t a) → st'.disk a = st.disk a

/-- What holds after each tree of the run. -/
structure PackRun (ids : List TreeId) (st st' : PackVolume) : Prop where
  keeps : Keeps st st'
  untouched : ∀ t, t ∉ ids → Untouched st st' t
  packed : ∀ t ∈ ids, st.treeLba t ≠ 0 → (∃ hdr nodes, TreeAt st' t hdr nodes []) ∨
    Untouched st st' t ∧ ∃ before after, ids = before ++ t :: after ∧ Idle (packTrees before st) t
  foreign : ∀ a, Foreign st' a ↔ Foreign st a
  content : ∀ a, (∀ t, ¬Occupies st' t a) → st'.disk a = st.disk a

theorem Untouched.trans (h : Untouched st st' t) (h' : Untouched st' st'' t)
    (hst : Sound st) (hsame : SameTrees st st') : Untouched st st'' t :=
  fun a ha ↦ (h' a ((h.occupies_iff hsame hst).mpr ha)).trans (h a ha)

theorem Sound.packRun (hst : Sound st) (hnodup : ids.Nodup) :
    PackRun ids st (packTrees ids st) := by
  induction ids using List.reverseRecOn with
  | nil => exact ⟨Keeps.refl hst, fun _ _ _ _ ↦ rfl, fun _ ht ↦ (List.not_mem_nil ht).elim,
      fun _ ↦ Iff.rfl, fun _ _ ↦ rfl⟩
  | append_singleton ids t ih =>
    obtain ⟨hids, -, hlast⟩ := List.nodup_append.mp hnodup
    have ht : t ∉ ids := fun h ↦ hlast t h t List.mem_cons_self rfl
    have hrun := ih hids
    have hsound := hrun.keeps.sound
    rw [packTrees_concat]
    rcases hsound.defragTree_faultless t with ⟨hsame, hidle⟩ | hmoved
    · rw [hsame]
      refine ⟨hrun.keeps, fun u hu ↦ hrun.untouched u fun h ↦ hu (List.mem_append_left _ h),
        fun u hu hnamed ↦ ?_, hrun.foreign, hrun.content⟩
      rcases List.mem_append.mp hu with hu | hu
      · refine (hrun.packed u hu hnamed).imp_right fun ⟨hout, before, after, heq, h⟩ ↦ ?_
        exact ⟨hout, before, after ++ [t], by rw [heq, List.append_assoc, List.cons_append], h⟩
      · obtain rfl := List.mem_singleton.mp hu
        exact Or.inr ⟨hrun.untouched u ht, ids, [], rfl, hidle⟩
    · have hothers (u : TreeId) (hne : u ≠ t) (hout : Untouched st (packTrees ids st) u) :
          Untouched st ((packTrees ids st).defragTree TreeFaults.none t) u :=
        hout.trans (hmoved.others u hne) hst hrun.keeps.same
      refine ⟨hrun.keeps.trans hmoved.keeps, fun u hu ↦ ?_, fun u hu hnamed ↦ ?_,
        fun a ↦ (hmoved.foreign rfl a).trans (hrun.foreign a), fun a ha ↦ ?_⟩
      · exact hothers u (fun h ↦ hu (List.mem_append_right _ (h ▸ List.mem_cons_self)))
          (hrun.untouched u fun h ↦ hu (List.mem_append_left _ h))
      · rcases List.mem_append.mp hu with hu | hu
        · have hne : u ≠ t := fun h ↦ ht (h ▸ hu)
          rcases hrun.packed u hu hnamed with ⟨hdr', nodes', htree⟩ |
            ⟨hout, before, after, heq, h⟩
          · exact Or.inl ⟨hdr', nodes', htree.untouched hmoved.keeps.same (hmoved.others u hne)⟩
          · exact Or.inr ⟨hothers u hne hout, before, after ++ [t],
              by rw [heq, List.append_assoc, List.cons_append], h⟩
        · obtain rfl := List.mem_singleton.mp hu
          exact Or.inl hmoved.packed
      · -- A block of no tree now was of none before or of the tree that went.
        rw [hmoved.content a (ha t)]
        by_cases hbefore : ∀ u, ¬Occupies (packTrees ids st) u a
        · exact hrun.content a hbefore
        · push Not at hbefore
          obtain ⟨u, hu⟩ := hbefore
          have hut : u = t := by
            by_contra hne
            exact ha u (((hmoved.others u hne).occupies_iff hmoved.keeps.same hsound).mpr hu)
          subst hut
          have hout := hrun.untouched u ht
          exact hout a ((hout.occupies_iff hrun.keeps.same hst).mp hu)

theorem PackRun.to_packed (hrun : PackRun ids st st') : Packed ids st st' := by
  refine ⟨hrun.keeps, fun t hnamed ↦ ?_, fun a ↦ ⟨fun hset ↦ ?_, fun h ↦ ?_⟩,
    fun a ha ↦ ((hrun.foreign a).mpr ha).2, hrun.content⟩
  · by_cases ht : t ∈ ids
    · exact (hrun.packed t ht hnamed).imp_right fun h ↦ ⟨h.1, Or.inr h.2⟩
    · exact Or.inr ⟨hrun.untouched t ht, Or.inl ht⟩
  · by_cases h : ∃ t, Occupies st' t a
    · exact Or.inl h
    · exact Or.inr ((hrun.foreign a).mp ⟨hset, fun t ht ↦ h ⟨t, ht⟩⟩)
  · rcases h with ⟨t, ht⟩ | h
    · exact (hrun.keeps.sound.inside t a ht).2.2
    · exact ((hrun.foreign a).mpr h).1

theorem packedTrees_nodup (faults : Faults) (st : PackVolume) : (st.packedTrees faults).Nodup := by
  have hfields : (packedFields.map TreeId.field).Nodup := by decide
  have hindexes : ((List.range st.userIndexes.length).map TreeId.userIndex).Nodup :=
    List.nodup_range.map fun _ _ h ↦ TreeId.userIndex.inj h
  have hdedup : ((List.range st.dedupTrees.length).map TreeId.dedup).Nodup :=
    List.nodup_range.map fun _ _ h ↦ TreeId.dedup.inj h
  rw [PackVolume.packedTrees]
  refine List.nodup_append.mpr ⟨(List.nodup_append.mpr ⟨hfields, hindexes, ?_⟩).filter _, ?_, ?_⟩
  · intro t ht u hu
    obtain ⟨field, -, rfl⟩ := List.mem_map.mp ht
    obtain ⟨i, -, rfl⟩ := List.mem_map.mp hu
    exact TreeId.noConfusion
  · split_ifs
    · exact List.nodup_nil
    · exact hdedup
  · intro t ht u hu
    split_ifs at hu
    · cases hu
    · obtain ⟨i, -, rfl⟩ := List.mem_map.mp hu
      rcases List.mem_append.mp (List.mem_of_mem_filter ht) with h | h <;>
        obtain ⟨x, -, rfl⟩ := List.mem_map.mp h <;> exact TreeId.noConfusion

/-- `defrag_all_trees` keeps every tree, whatever fails but the write of a header. -/
theorem defragAllTrees_keeps (hst : Sound st) :
    Packed (st.packedTrees Faults.none) st (st.defragAllTrees Faults.none) ∧
      ∀ faults : Faults, (∀ t, (faults.tree t).headerWrite = false) →
        Keeps st (st.defragAllTrees faults) :=
  ⟨(hst.packRun (packedTrees_nodup Faults.none st)).to_packed,
    fun faults hheader ↦ hst.keeps_foldl hheader (st.packedTrees faults)⟩

/-- A volume with a catalog of a root and one leaf, and a free node of it. -/
def twoNodes (leaf free : ℕ) : PackVolume where
  totalBlocks := 8
  nextFreeLba := 0
  disk := fun lba ↦
    if lba = 1 then .header ⟨2, free, 1, 2, []⟩
    else if lba = 2 then .node ⟨0, 0, 0, 1, [leaf], [7]⟩ 0
    else if lba = leaf then .node ⟨0, 0, 0, 0, [], [7]⟩ 0
    else if lba = free then .free 0
    else .other []
  bitmap := fun lba ↦ lba < 5
  fieldLbas := fun field ↦ if field = .catalog then 1 else 0
  userIndexes := []
  dedupTrees := []
  sectorTagDataLba := 0
  sectorTagRefLba := 0

theorem twoNodes_named (hnamed : (twoNodes leaf free).treeLba t ≠ 0) : t = .field .catalog := by
  cases t with
  | field field =>
    change (if field = .catalog then 1 else 0) ≠ 0 at hnamed
    split_ifs at hnamed with hfield
    · rw [hfield]
    · exact absurd rfl hnamed
  | userIndex i => exact absurd rfl hnamed
  | dedup i => exact absurd rfl hnamed
  | sectorTagData => exact absurd rfl hnamed
  | sectorTagRef => exact absurd rfl hnamed

section

variable (h : leaf = 3 ∧ free = 4 ∨ leaf = 4 ∧ free = 3)
include h

theorem twoNodes_treeAt :
    TreeAt (twoNodes leaf free) (.field .catalog) ⟨2, free, 1, 2, []⟩ [2, leaf] [free] := by
  have hroot : (twoNodes leaf free).disk 2 = .node ⟨0, 0, 0, 1, [leaf], [7]⟩ 0 := rfl
  have hleaf : (twoNodes leaf free).disk leaf = .node ⟨0, 0, 0, 0, [], [7]⟩ 0 := by
    rcases h with ⟨rfl, rfl⟩ | ⟨rfl, rfl⟩ <;> rfl
  have hpart {n : ℕ} {image : LinkedNode} (hn : (twoNodes leaf free).disk n = .node image 0) :
      ∀ part < (TreeId.field .catalog).blocksPerNode,
        (twoNodes leaf free).disk (n + part) = .node image part := by
    intro part hpart
    obtain rfl := Nat.lt_one_iff.mp hpart
    exact hn
  have hcount : [2, leaf].length < 2 ^ 32 := by norm_num
  refine ⟨Nat.one_ne_zero, rfl, Or.inr ⟨Nat.succ_ne_zero 1, 3, ?_⟩, ⟨2, ?_⟩, fun n hn ↦ ?_, ?_,
    List.nodup_singleton _, rfl, rfl, hcount⟩
  · rcases h with ⟨rfl, rfl⟩ | ⟨rfl, rfl⟩ <;> decide
  · rcases h with ⟨rfl, rfl⟩ | ⟨rfl, rfl⟩ <;> decide
  · simp only [List.mem_cons, List.not_mem_nil, or_false] at hn
    rcases hn with rfl | rfl
    · exact ⟨_, hpart hroot, by simp⟩
    · exact ⟨_, hpart hleaf, by simp⟩
  · rcases h with ⟨rfl, rfl⟩ | ⟨rfl, rfl⟩ <;> decide

theorem twoNodes_occupies (ha : Occupies (twoNodes leaf free) t a) :
    t = .field .catalog ∧ 0 < a ∧ a < 5 := by
  obtain ⟨hdr, nodes, chain, htree, hblocks⟩ := ha
  obtain rfl := twoNodes_named htree.named
  obtain ⟨-, rfl, rfl⟩ := htree.unique (twoNodes_treeAt h)
  have hwidth {ns : List ℕ} : NodeBlocks (TreeId.field .catalog).blocksPerNode ns a → a ∈ ns := by
    rintro ⟨n, hn, hle, hlt⟩
    exact Nat.le_antisymm (Nat.lt_succ_iff.mp hlt) hle ▸ hn
  have hmem : a ∈ [1, 2, leaf, free] := by
    rcases hblocks with rfl | hb | hb
    · exact List.mem_cons_self
    · have := hwidth hb
      simp only [List.mem_cons, List.not_mem_nil, or_false] at this ⊢
      tauto
    · have := hwidth hb
      simp only [List.mem_cons, List.not_mem_nil, or_false] at this ⊢
      tauto
  simp only [List.mem_cons, List.not_mem_nil, or_false] at hmem
  exact ⟨rfl, by omega, by omega⟩

theorem twoNodes_sound : Sound (twoNodes leaf free) where
  trees := fun t hnamed ↦ by
    obtain rfl := twoNodes_named hnamed
    exact ⟨_, _, _, twoNodes_treeAt h⟩
  inside := fun t a ha ↦ by
    obtain ⟨-, hpos, hlt⟩ := twoNodes_occupies h ha
    refine ⟨hlt.trans (by decide : 5 < 8), hpos.ne', ?_⟩
    exact decide_eq_true hlt
  apart := fun t u a ht hu ↦ (twoNodes_occupies h ht).1.trans (twoNodes_occupies h hu).1.symm
  header := fun t hdr nodes chain htree ↦ by
    obtain rfl := twoNodes_named htree.named
    obtain ⟨-, rfl, rfl⟩ := htree.unique (twoNodes_treeAt h)
    have hout {ns : List ℕ} (hns : ∀ n ∈ ns, 1 < n) :
        ¬NodeBlocks (TreeId.field .catalog).blocksPerNode ns 1 :=
      fun ⟨n, hn, hle, _⟩ ↦ absurd (hns n hn) (Nat.not_lt.mpr hle)
    refine ⟨hout fun n hn ↦ ?_, hout fun n hn ↦ ?_⟩ <;>
      simp only [List.mem_cons, List.not_mem_nil, or_false] at hn <;> omega
  super := ⟨rfl, fun hdr hzero ↦ by
    rcases h with ⟨rfl, rfl⟩ | ⟨rfl, rfl⟩ <;> exact Content.noConfusion hzero⟩

end

/-- The nodes 2 and 4 go to the run that begins with 5, and 2, 3 and 4 are given back. -/
theorem defragAllTrees_keeps_two : Packed ((twoNodes 4 3).packedTrees Faults.none) (twoNodes 4 3)
        ((twoNodes 4 3).defragAllTrees Faults.none) ∧
      ((twoNodes 4 3).defragAllTrees Faults.none).disk 1 = .header ⟨5, 0, 0, 2, []⟩ ∧
      ((List.range 8).map ((twoNodes 4 3).defragAllTrees Faults.none).bitmap =
        [true, true, false, false, false, true, true, false]) :=
  ⟨(defragAllTrees_keeps (twoNodes_sound (Or.inr ⟨rfl, rfl⟩))).1, by decide, by decide⟩

/-- Nodes that stand one behind the other stay where they are, and their tree keeps its free
node. -/
theorem defragAllTrees_free_node : Sound (twoNodes 3 4) ∧
    (twoNodes 3 4).treeLba (.field .catalog) ≠ 0 ∧
    ¬∃ hdr nodes, TreeAt ((twoNodes 3 4).defragAllTrees Faults.none) (.field .catalog) hdr nodes [] := by
  have hheader : ((twoNodes 3 4).defragAllTrees Faults.none).disk 1 = .header ⟨2, 4, 1, 2, []⟩ := by
    decide
  refine ⟨twoNodes_sound (Or.inl ⟨rfl, rfl⟩), by decide, ?_⟩
  rintro ⟨hdr, nodes, htree⟩
  obtain rfl : hdr = ⟨2, 4, 1, 2, []⟩ := Content.header.inj (htree.header.symm.trans hheader)
  exact absurd htree.freeNodes (by decide)

end Obmafs3.Repack
