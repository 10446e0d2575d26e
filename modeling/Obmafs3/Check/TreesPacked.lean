import Obmafs3.Check.PackedTree

/-!
# What packing one tree does

A volume is sound when each of its trees is there, all their blocks are marked and no block has two
of them. Packing a tree keeps that, whatever fails before its header is written.
-/

set_option autoImplicit false

namespace Obmafs3.Repack

open Library.Runs

variable {st st' : PackVolume} {t : TreeId} {hdr hdr' : TreeHeader}
  {nodes nodes' chain chain' : List ℕ} {faults : TreeFaults}

theorem TreeId.blocksPerNode_pos (t : TreeId) : 0 < t.blocksPerNode := by
  unfold TreeId.blocksPerNode
  split <;> decide

/-! ### Trees of a volume -/

/-- A tree with its nodes in the order of the levels and its free nodes. -/
structure TreeAt (st : PackVolume) (t : TreeId) (hdr : TreeHeader) (nodes chain : List ℕ) :
    Prop where
  named : st.treeLba t ≠ 0
  header : st.disk (st.treeLba t) = .header hdr
  walk : hdr.root = 0 ∧ nodes = [] ∨
    hdr.root ≠ 0 ∧ ∃ fuel, activeNodes st.disk fuel [hdr.root] = some nodes
  free : ∃ fuel, freeChain st.disk fuel hdr.freeNode = some chain
  images : ∀ n ∈ nodes, ∃ image : LinkedNode,
    (∀ part < t.blocksPerNode, st.disk (n + part) = .node image part) ∧
      ∀ link ∈ [image.left, image.right, image.overflow], link = 0 ∨ link ∈ nodes
  nodup : nodes.Nodup
  freeNodup : chain.Nodup
  totalNodes : hdr.totalNodes = nodes.length
  freeNodes : hdr.freeNodes = chain.length
  count : nodes.length < 2 ^ 32

/-- The blocks of a tree with a header, nodes and free nodes. -/
def TreeBlocks (st : PackVolume) (t : TreeId) (nodes chain : List ℕ) (a : ℕ) : Prop :=
  a = st.treeLba t ∨ NodeBlocks t.blocksPerNode nodes a ∨ NodeBlocks t.blocksPerNode chain a

/-- A block of a tree. -/
def Occupies (st : PackVolume) (t : TreeId) (a : ℕ) : Prop :=
  ∃ hdr nodes chain, TreeAt st t hdr nodes chain ∧ TreeBlocks st t nodes chain a

theorem TreeAt.unique (htree : TreeAt st t hdr nodes chain)
    (htree' : TreeAt st t hdr' nodes' chain') : hdr = hdr' ∧ nodes = nodes' ∧ chain = chain' := by
  obtain rfl : hdr = hdr' := Content.header.inj (htree.header.symm.trans htree'.header)
  obtain ⟨fuel, hfree⟩ := htree.free
  obtain ⟨fuel', hfree'⟩ := htree'.free
  refine ⟨rfl, ?_, freeChain_unique hfree hfree'⟩
  rcases htree.walk with ⟨hroot, rfl⟩ | ⟨hroot, fuel, hwalk⟩
  · exact ((htree'.walk.resolve_right fun h ↦ h.1 hroot).2).symm
  · obtain ⟨-, fuel', hwalk'⟩ := htree'.walk.resolve_left fun h ↦ hroot h.1
    exact activeNodes_unique hwalk hwalk'

theorem TreeAt.occupies_iff (htree : TreeAt st t hdr nodes chain) {a : ℕ} :
    Occupies st t a ↔ TreeBlocks st t nodes chain a := by
  refine ⟨fun ⟨hdr', nodes', chain', htree', ha⟩ ↦ ?_, fun ha ↦ ⟨hdr, nodes, chain, htree, ha⟩⟩
  obtain ⟨-, rfl, rfl⟩ := htree.unique htree'
  exact ha

theorem nodeBlocks_self {width n : ℕ} (hwidth : 0 < width) (hn : n ∈ nodes) :
    NodeBlocks width nodes n := ⟨n, hn, le_rfl, Nat.lt_add_of_pos_right hwidth⟩

/-- Trees that no write reaches stay as they are. -/
theorem TreeAt.congr (htree : TreeAt st t hdr nodes chain) (hlba : st'.treeLba t = st.treeLba t)
    (hsame : ∀ a, TreeBlocks st t nodes chain a → st'.disk a = st.disk a) :
    TreeAt st' t hdr nodes chain := by
  have hpos := t.blocksPerNode_pos
  have hnodes (n : ℕ) (hn : n ∈ nodes) : st'.disk n = st.disk n :=
    hsame n (Or.inr (Or.inl (nodeBlocks_self hpos hn)))
  refine ⟨hlba ▸ htree.named, ?_, ?_, ?_, fun n hn ↦ ?_, htree.nodup, htree.freeNodup,
    htree.totalNodes, htree.freeNodes, htree.count⟩
  · rw [hlba, hsame _ (Or.inl rfl), htree.header]
  · refine htree.walk.imp_right fun ⟨hroot, fuel, hwalk⟩ ↦ ⟨hroot, fuel, ?_⟩
    have hmoved := activeNodes_rename (renames_id hnodes) hwalk
    rwa [List.map_id, List.map_id] at hmoved
  · obtain ⟨fuel, hfree⟩ := htree.free
    exact ⟨fuel, freeChain_congr
      (fun n hn ↦ hsame n (Or.inr (Or.inr (nodeBlocks_self hpos hn)))) hfree⟩
  · obtain ⟨image, hparts, hlinks⟩ := htree.images n hn
    refine ⟨image, fun part hpart ↦ ?_, hlinks⟩
    rw [hsame _ (Or.inr (Or.inl ⟨n, hn, inRun_add hpart⟩)), hparts part hpart]

/-! ### Sound volumes -/

/-- The trees of a volume are there, marked and apart. -/
structure Sound (st : PackVolume) : Prop where
  trees : ∀ t, st.treeLba t ≠ 0 → ∃ hdr nodes chain, TreeAt st t hdr nodes chain
  inside : ∀ t a, Occupies st t a → a < st.totalBlocks ∧ a ≠ 0 ∧ st.bitmap a = true
  apart : ∀ t t' a, Occupies st t a → Occupies st t' a → t = t'
  header : ∀ t hdr nodes chain, TreeAt st t hdr nodes chain →
    ¬NodeBlocks t.blocksPerNode nodes (st.treeLba t) ∧
      ¬NodeBlocks t.blocksPerNode chain (st.treeLba t)
  super : st.bitmap 0 = true ∧ ∀ hdr, st.disk 0 ≠ .header hdr

/-- The addresses of the headers are the same. -/
structure SameTrees (st st' : PackVolume) : Prop where
  treeLba : ∀ t, st'.treeLba t = st.treeLba t
  totalBlocks : st'.totalBlocks = st.totalBlocks

/-- A tree has its blocks as they were. -/
def Untouched (st st' : PackVolume) (t : TreeId) : Prop :=
  ∀ a, Occupies st t a → st'.disk a = st.disk a

theorem TreeAt.untouched (hsame : SameTrees st st') (htree : TreeAt st t hdr nodes chain)
    (huntouched : Untouched st st' t) : TreeAt st' t hdr nodes chain :=
  htree.congr (hsame.treeLba t) fun a ha ↦ huntouched a (htree.occupies_iff.mpr ha)

/-- A tree that is there and untouched occupies the same blocks. -/
theorem Untouched.occupies_iff (hsame : SameTrees st st') (hst : Sound st)
    (huntouched : Untouched st st' t) {a : ℕ} : Occupies st' t a ↔ Occupies st t a := by
  by_cases hnamed : st.treeLba t = 0
  · refine iff_of_false ?_ ?_
    · rintro ⟨hdr, nodes, chain, htree, -⟩
      exact htree.named ((hsame.treeLba t).trans hnamed)
    · rintro ⟨hdr, nodes, chain, htree, -⟩
      exact htree.named hnamed
  · obtain ⟨hdr, nodes, chain, htree⟩ := hst.trees t hnamed
    rw [htree.occupies_iff, (htree.untouched hsame huntouched).occupies_iff, TreeBlocks, TreeBlocks,
      hsame.treeLba]

/-- A tree is what it was, with its nodes at other places, and the fields of its header that say
nothing of them. -/
def Carried (st st' : PackVolume) (t : TreeId) : Prop :=
  ∃ hdr nodes chain hdr' chain' ρ,
    TreeAt st t hdr nodes chain ∧ TreeAt st' t hdr' (nodes.map ρ) chain' ∧
      (∀ n ∈ nodes, ∀ n' ∈ nodes, ρ n = ρ n' → n = n') ∧
      (∀ n ∈ nodes, ∀ b < t.blocksPerNode, st'.disk (ρ n + b) = (st.disk (n + b)).rename ρ) ∧
      (hdr.root ≠ 0 →
        ∀ fuel, treeRecords st'.disk fuel hdr'.root = treeRecords st.disk fuel hdr.root) ∧
      hdr'.fields = hdr.fields

theorem TreeAt.root_mem (htree : TreeAt st t hdr nodes chain) (hroot : hdr.root ≠ 0) :
    hdr.root ∈ nodes := by
  obtain ⟨-, fuel, hwalk⟩ := htree.walk.resolve_left fun h ↦ hroot h.1
  exact activeNodes_mem hwalk List.mem_cons_self

theorem TreeAt.carried_untouched (hsame : SameTrees st st') (htree : TreeAt st t hdr nodes chain)
    (huntouched : Untouched st st' t) : Carried st st' t := by
  have hblocks (n : ℕ) (hn : n ∈ nodes) (b : ℕ) (hb : b < t.blocksPerNode) :
      st'.disk (n + b) = st.disk (n + b) :=
    huntouched _ (htree.occupies_iff.mpr (Or.inr (Or.inl ⟨n, hn, inRun_add hb⟩)))
  refine ⟨hdr, nodes, chain, hdr, chain, id, htree, ?_, fun n _ n' _ h ↦ h,
    fun n hn b hb ↦ ?_, fun hroot fuel ↦ ?_, rfl⟩
  · rw [List.map_id]
    exact htree.untouched hsame huntouched
  · rw [Content.rename_id]
    exact hblocks n hn b hb
  · obtain ⟨-, fuel', hwalk⟩ := htree.walk.resolve_left fun h ↦ hroot h.1
    exact treeRecords_rename (renames_id fun n hn ↦ hblocks n hn 0 t.blocksPerNode_pos) hwalk
      (htree.root_mem hroot)

/-- Nothing that trees occupy is written, and nothing is unmarked. -/
theorem Sound.untouched (hst : Sound st) (hsame : SameTrees st st')
    (huntouched : ∀ t, Untouched st st' t)
    (hmarked : ∀ a, st.bitmap a = true → st'.bitmap a = true) (hzero : st'.disk 0 = st.disk 0) :
    Sound st' where
  trees := fun t hnamed ↦ by
    rw [hsame.treeLba] at hnamed
    obtain ⟨hdr, nodes, chain, htree⟩ := hst.trees t hnamed
    exact ⟨hdr, nodes, chain, htree.untouched hsame (huntouched t)⟩
  inside := fun t a ha ↦ by
    obtain ⟨hlt, hne, hset⟩ := hst.inside t a (((huntouched t).occupies_iff hsame hst).mp ha)
    exact ⟨hsame.totalBlocks ▸ hlt, hne, hmarked a hset⟩
  apart := fun t t' a ha ha' ↦
    hst.apart t t' a (((huntouched t).occupies_iff hsame hst).mp ha)
      (((huntouched t').occupies_iff hsame hst).mp ha')
  header := fun t hdr nodes chain htree ↦ by
    have hnamed : st.treeLba t ≠ 0 := hsame.treeLba t ▸ htree.named
    obtain ⟨hdr', nodes', chain', htree'⟩ := hst.trees t hnamed
    obtain ⟨-, rfl, rfl⟩ := htree.unique (htree'.untouched hsame (huntouched t))
    rw [hsame.treeLba]
    exact hst.header t hdr' nodes chain htree'
  super := ⟨hmarked 0 hst.super.1, hzero ▸ hst.super.2⟩

/-! ### A move -/

/-- Where the nodes of a tree go. -/
def newPlace (t : TreeId) (start : ℕ) (nodes : List ℕ) : ℕ → ℕ :=
  mapLookup (relocationMap t.blocksPerNode start nodes)

/-- The run that they go to. -/
def NewRun (t : TreeId) (start : ℕ) (nodes : List ℕ) (a : ℕ) : Prop :=
  InRun start (nodes.length * t.blocksPerNode) a

/-- The nodes of a tree are at a free run, their old blocks and those of some free nodes are free,
and the header says so unless its write failed. -/
structure MoveDone (st st' : PackVolume) (t : TreeId) (hdr : TreeHeader) (nodes chain : List ℕ)
    (start : ℕ) (faults : TreeFaults) : Prop where
  same : SameTrees st st'
  copied : ∀ n ∈ nodes, ∀ b < t.blocksPerNode,
    st'.disk (newPlace t start nodes n + b) = (st.disk (n + b)).rename (newPlace t start nodes)
  kept : ∀ a, ¬NewRun t start nodes a → a ≠ st.treeLba t → st'.disk a = st.disk a
  header : st'.disk (st.treeLba t) = if faults.headerWrite then .header hdr else
    .header { hdr with root := start, freeNode := 0, freeNodes := 0, totalNodes := nodes.length }
  marked : ∀ a, NewRun t start nodes a → st'.bitmap a = true
  cleared : ∀ a, NodeBlocks t.blocksPerNode nodes a → st'.bitmap a = false
  freed : faults.chain = none → ∀ a, NodeBlocks t.blocksPerNode chain a → st'.bitmap a = false
  others : ∀ a, ¬NewRun t start nodes a → ¬NodeBlocks t.blocksPerNode nodes a →
    ¬NodeBlocks t.blocksPerNode chain a → st'.bitmap a = st.bitmap a

theorem nodeBlocks_take {width k a : ℕ} (ha : NodeBlocks width (chain.take k) a) :
    NodeBlocks width chain a := by
  obtain ⟨n, hn, hin⟩ := ha
  exact ⟨n, List.mem_of_mem_take hn, hin⟩

theorem freed_subset {width a : ℕ} (ha : NodeBlocks width (faults.freed chain) a) :
    NodeBlocks width chain a := by
  unfold TreeFaults.freed at ha
  split at ha
  · exact nodeBlocks_take ha
  · exact ha

theorem TreeAt.freeChain_eq (htree : TreeAt st t hdr nodes chain)
    (hchain : chain.length ≤ st.totalBlocks) :
    freeChain st.disk (st.totalBlocks + 1) hdr.freeNode = some chain := by
  obtain ⟨fuel, hfree⟩ := htree.free
  exact freeChain_fuel hfree (Nat.lt_succ_of_le hchain)

variable {start : ℕ}

section

variable (htree : TreeAt st t hdr nodes chain)
include htree

/-- A free run is apart from marked blocks. -/
theorem MoveDone.of_moveTree (hmarked : ∀ a, TreeBlocks st t nodes chain a → st.bitmap a = true)
    (hchain : chain.length ≤ st.totalBlocks)
    (hfree : ∀ a, NewRun t start nodes a → st.bitmap a = false) (hcopy : faults.copy = none) :
    MoveDone st (st.moveTree faults (st.treeLba t) t.blocksPerNode start hdr nodes) t hdr nodes
      chain start faults := by
  have hpos := t.blocksPerNode_pos
  have hapart := relocationMap_apart hfree fun a ha ↦ hmarked a (Or.inr (Or.inl ha))
  have hrun (a : ℕ) (ha : TreeBlocks st t nodes chain a) : ¬NewRun t start nodes a := fun hin ↦ by
    have hset := hmarked a ha
    rw [hfree a hin] at hset
    cases hset
  have hcopied (n : ℕ) (hn : n ∈ nodes) (b : ℕ) (hb : b < t.blocksPerNode)
      (disk : ℕ → Content) (ρ : ℕ → ℕ) :
      copyNodes ρ t.blocksPerNode (relocationMap t.blocksPerNode start nodes) disk
          (newPlace t start nodes n + b) = (disk (n + b)).rename ρ := by
    obtain ⟨i, hi, rfl⟩ := List.getElem_of_mem hn
    rw [newPlace, mapLookup_getElem htree.nodup hi]
    exact copyNodes_in hapart (mem_relocationMap.mpr ⟨i, hi, rfl⟩) hb
  have hkept (a : ℕ) (ha : ¬NewRun t start nodes a) (ρ : ℕ → ℕ) :
      copyNodes ρ t.blocksPerNode (relocationMap t.blocksPerNode start nodes) st.disk a = st.disk a :=
    copyNodes_out (relocationMap_out htree.nodup hpos ha)
  -- The free nodes are outside the new run: the copies do not reach the chain.
  have hwalk (ρ : ℕ → ℕ) : freeChain
      (copyNodes ρ t.blocksPerNode (relocationMap t.blocksPerNode start nodes) st.disk)
      (st.totalBlocks + 1) hdr.freeNode = some chain :=
    freeChain_congr (fun n hn ↦ hkept n (hrun n (Or.inr (Or.inr (nodeBlocks_self hpos hn)))) ρ)
      (htree.freeChain_eq hchain)
  have htarget (n : ℕ) (hn : n ∈ nodes) (b : ℕ) (hb : b < t.blocksPerNode) :
      newPlace t start nodes n + b ≠ st.treeLba t := fun h ↦
    hrun _ (Or.inl rfl) (h ▸ (nodeBlocks_map htree.nodup hpos).mp
      ⟨_, List.mem_map_of_mem hn, inRun_add hb⟩)
  rw [PackVolume.moveTree, hcopy]
  simp only [hwalk, Option.getD_some, Nat.mod_eq_of_lt htree.count]
  refine ⟨⟨fun id ↦ ?_, rfl⟩, fun n hn b hb ↦ ?_, fun a hout ha ↦ ?_, ?_, fun a ha ↦ ?_,
    fun a ha ↦ ?_, fun hchainRead a ha ↦ ?_, fun a hout hnodes hfreeNodes ↦ ?_⟩
  · cases id <;> rfl
  · split_ifs
    · exact hcopied n hn b hb _ _
    · exact (Function.update_of_ne (htarget n hn b hb) _ _).trans (hcopied n hn b hb _ _)
  · split_ifs
    · exact hkept a hout _
    · exact (Function.update_of_ne ha _ _).trans (hkept a hout _)
  · split_ifs
    · exact (hkept _ (hrun _ (Or.inl rfl)) _).trans htree.header
    · exact Function.update_self _ _ _
  · have hold (b : ℕ) (hb : NodeBlocks t.blocksPerNode nodes b ∨ NodeBlocks t.blocksPerNode chain b) :
        a ≠ b := fun h ↦ hrun b (Or.inr hb) (h ▸ ha)
    change clearNodes _ _ (clearNodes _ _ _) a = true
    rw [clearNodes_out fun h ↦ hold a (Or.inr (freed_subset h)) rfl,
      clearNodes_out fun h ↦ hold a (Or.inl h) rfl, fill_in ha]
  · exact clearNodes_false (clearNodes_in ha)
  · refine clearNodes_in ?_
    rwa [TreeFaults.freed, hchainRead]
  · change clearNodes _ _ (clearNodes _ _ _) a = _
    rw [clearNodes_out fun h ↦ hfreeNodes (freed_subset h), clearNodes_out hnodes, fill_out hout]

theorem TreeAt.walk_some (hroot : hdr.root ≠ 0) :
    ∃ fuel, activeNodes st.disk fuel [hdr.root] = some nodes :=
  (htree.walk.resolve_left fun h ↦ hroot h.1).2

/-- The root is the first node that the walk meets. -/
theorem TreeAt.newPlace_root (hroot : hdr.root ≠ 0) : newPlace t start nodes hdr.root = start := by
  obtain ⟨fuel, hwalk⟩ := htree.walk_some hroot
  cases fuel with
  | zero => cases hwalk
  | succ fuel =>
    obtain ⟨image, rest, -, rfl, -⟩ := activeNodes_cons hwalk
    have hfirst : newPlace t start (hdr.root :: rest) hdr.root = start + 0 * t.blocksPerNode :=
      mapLookup_getElem htree.nodup (List.length_pos_of_mem List.mem_cons_self)
    rwa [Nat.zero_mul, Nat.add_zero] at hfirst

end

theorem newPlace_injective (hnodup : nodes.Nodup) :
    ∀ n ∈ nodes, ∀ n' ∈ nodes, newPlace t start nodes n = newPlace t start nodes n' → n = n' := by
  intro n hn n' hn' heq
  obtain ⟨i, hi, rfl⟩ := List.getElem_of_mem hn
  obtain ⟨j, hj, rfl⟩ := List.getElem_of_mem hn'
  rw [newPlace, mapLookup_getElem hnodup hi, mapLookup_getElem hnodup hj] at heq
  obtain rfl : i = j := Nat.eq_of_mul_eq_mul_right t.blocksPerNode_pos (Nat.add_left_cancel heq)
  rfl

section Move

variable {start : ℕ}

section

variable (hmove : MoveDone st st' t hdr nodes chain start faults)
  (htree : TreeAt st t hdr nodes chain) (hroot : hdr.root ≠ 0) (hstart : start ≠ 0)
  (hheader : faults.headerWrite = false)
include hmove htree hroot hstart hheader

/-- The tree of a move whose header is written. -/
theorem MoveDone.treeAt : TreeAt st' t
      { hdr with root := start, freeNode := 0, freeNodes := 0, totalNodes := nodes.length }
      (nodes.map (newPlace t start nodes)) [] where
  named := (hmove.same.treeLba t).symm ▸ htree.named
  header := by rw [hmove.same.treeLba, hmove.header, hheader, if_neg Bool.false_ne_true]
  walk := by
    obtain ⟨fuel, hwalk⟩ := htree.walk_some hroot
    have hrenames : Renames st.disk st'.disk nodes (newPlace t start nodes) :=
      fun n hn ↦ hmove.copied n hn 0 t.blocksPerNode_pos
    have hmoved := activeNodes_rename hrenames hwalk
    rw [List.map_singleton, htree.newPlace_root hroot] at hmoved
    exact Or.inr ⟨hstart, fuel, hmoved⟩
  free := ⟨1, rfl⟩
  images := by
    intro n hn
    obtain ⟨m, hm, rfl⟩ := List.mem_map.mp hn
    obtain ⟨image, hparts, hlinks⟩ := htree.images m hm
    have hrenamed (link : ℕ) (hlink : link = 0 ∨ link ∈ nodes) :
        renameLink (newPlace t start nodes) link = 0 ∨
          renameLink (newPlace t start nodes) link ∈ nodes.map (newPlace t start nodes) := by
      rw [renameLink]
      split_ifs with hzero
      · exact Or.inr (List.mem_map_of_mem (hlink.resolve_left hzero))
      · exact Or.inl (not_not.mp hzero)
    refine ⟨image.rename (newPlace t start nodes), fun part hpart ↦ ?_, ?_⟩
    · rw [hmove.copied m hm part hpart, hparts part hpart]
      rfl
    · intro link hlink
      simp only [LinkedNode.rename, List.mem_cons, List.not_mem_nil, or_false] at hlink
      rcases hlink with rfl | rfl | rfl <;> exact hrenamed _ (hlinks _ (by simp))
  nodup := htree.nodup.map_on (newPlace_injective htree.nodup)
  freeNodup := List.nodup_nil
  totalNodes := (List.length_map _).symm
  freeNodes := rfl
  count := by rw [List.length_map]; exact htree.count

theorem MoveDone.carried : Carried st st' t := by
  refine ⟨hdr, nodes, chain, _, [], newPlace t start nodes, htree,
    hmove.treeAt htree hroot hstart hheader, newPlace_injective htree.nodup, hmove.copied,
    fun _ fuel ↦ ?_, rfl⟩
  obtain ⟨fuel', hwalk⟩ := htree.walk_some hroot
  have hrecords : treeRecords st'.disk fuel (newPlace t start nodes hdr.root) =
      treeRecords st.disk fuel hdr.root :=
    treeRecords_rename (fun n hn ↦ hmove.copied n hn 0 t.blocksPerNode_pos) hwalk
      (htree.root_mem hroot)
  rwa [htree.newPlace_root hroot] at hrecords

end

variable {u : TreeId} {a : ℕ}

/-- A free run is in no tree. -/
theorem Sound.not_newRun (hst : Sound st)
    (hfree : ∀ a, NewRun t start nodes a → st.bitmap a = false) (ha : Occupies st u a) :
    ¬NewRun t start nodes a := fun hrun ↦ by
  have hset := (hst.inside u a ha).2.2
  rw [hfree a hrun] at hset
  cases hset

section

variable (hmove : MoveDone st st' t hdr nodes chain start faults)
include hmove

theorem MoveDone.untouched (hst : Sound st) (htree : TreeAt st t hdr nodes chain)
    (hfree : ∀ a, NewRun t start nodes a → st.bitmap a = false) (hne : u ≠ t) :
    Untouched st st' u := by
  intro a ha
  refine hmove.kept a (hst.not_newRun hfree ha) ?_
  rintro rfl
  exact hne (hst.apart u t _ ha (htree.occupies_iff.mpr (Or.inl rfl)))

theorem MoveDone.occupies_self (htree : TreeAt st t hdr nodes chain) (hroot : hdr.root ≠ 0)
    (hstart : start ≠ 0) (hheader : faults.headerWrite = false) :
    Occupies st' t a ↔ a = st.treeLba t ∨ NewRun t start nodes a := by
  rw [(hmove.treeAt htree hroot hstart hheader).occupies_iff, TreeBlocks, hmove.same.treeLba]
  have hnone : ¬NodeBlocks t.blocksPerNode [] a := fun ⟨n, hn, _⟩ ↦ List.not_mem_nil hn
  rw [or_iff_left hnone]
  exact or_congr_right (nodeBlocks_map htree.nodup t.blocksPerNode_pos)

variable (hst : Sound st) (htree : TreeAt st t hdr nodes chain)
include hst htree

section

variable (hfree : ∀ a, NewRun t start nodes a → st.bitmap a = false)
include hfree

/-- The header stays marked. -/
theorem MoveDone.header_marked : st'.bitmap (st.treeLba t) = true := by
  have hself : Occupies st t (st.treeLba t) := htree.occupies_iff.mpr (Or.inl rfl)
  obtain ⟨hnodes, hchain⟩ := hst.header t hdr nodes chain htree
  rw [hmove.others _ (hst.not_newRun hfree hself) hnodes hchain]
  exact (hst.inside t _ hself).2.2

theorem MoveDone.other_marked (hne : u ≠ t) (ha : Occupies st u a) : st'.bitmap a = true := by
  have hout (hblocks : NodeBlocks t.blocksPerNode nodes a ∨ NodeBlocks t.blocksPerNode chain a) :
      False := hne (hst.apart u t a ha (htree.occupies_iff.mpr (Or.inr hblocks)))
  rw [hmove.others a (hst.not_newRun hfree ha) (fun h ↦ hout (Or.inl h)) fun h ↦ hout (Or.inr h)]
  exact (hst.inside u a ha).2.2

end

theorem MoveDone.sound (hroot : hdr.root ≠ 0)
    (hfree : ∀ a, NewRun t start nodes a → st.bitmap a = false) (hstart : start ≠ 0)
    (hend : start + nodes.length * t.blocksPerNode ≤ st.totalBlocks)
    (hheader : faults.headerWrite = false) : Sound st' := by
  have hself {a : ℕ} := hmove.occupies_self (a := a) htree hroot hstart hheader
  have hother {u : TreeId} (hne : u ≠ t) {a : ℕ} : Occupies st' u a ↔ Occupies st u a :=
    (hmove.untouched hst htree hfree hne).occupies_iff hmove.same hst
  -- A block of the moved tree was one of it or free.
  have hclash {u : TreeId} (hne : u ≠ t) {a : ℕ} (ha : Occupies st' t a)
      (ha' : Occupies st' u a) : False := by
    have hu' := (hother hne).mp ha'
    rcases hself.mp ha with rfl | hrun
    · exact hne (hst.apart u t _ hu' (htree.occupies_iff.mpr (Or.inl rfl)))
    · exact hst.not_newRun hfree hu' hrun
  refine ⟨fun u hnamed ↦ ?_, fun u a ha ↦ ?_, fun u u' a ha ha' ↦ ?_,
    fun u hdr' nodes' chain' htree' ↦ ?_, ?_⟩
  · by_cases hne : u = t
    · subst hne
      exact ⟨_, _, _, hmove.treeAt htree hroot hstart hheader⟩
    · rw [hmove.same.treeLba] at hnamed
      obtain ⟨hdr', nodes', chain', htree'⟩ := hst.trees u hnamed
      exact ⟨hdr', nodes', chain',
        htree'.untouched hmove.same (hmove.untouched hst htree hfree hne)⟩
  · rw [hmove.same.totalBlocks]
    by_cases hne : u = t
    · subst hne
      rcases hself.mp ha with rfl | hrun
      · obtain ⟨hlt, hzero, -⟩ := hst.inside u _ (htree.occupies_iff.mpr (Or.inl rfl))
        exact ⟨hlt, hzero, hmove.header_marked hst htree hfree⟩
      · exact ⟨hrun.2.trans_le hend, fun hzero ↦ hstart (Nat.le_zero.mp (hzero ▸ hrun.1)),
          hmove.marked a hrun⟩
    · obtain ⟨hlt, hzero, -⟩ := hst.inside u a ((hother hne).mp ha)
      exact ⟨hlt, hzero, hmove.other_marked hst htree hfree hne ((hother hne).mp ha)⟩
  · by_cases hne : u = t
    · by_cases hne' : u' = t
      · exact hne.trans hne'.symm
      · exact (hclash hne' (hne ▸ ha) ha').elim
    · by_cases hne' : u' = t
      · exact (hclash hne (hne' ▸ ha') ha).elim
      · exact hst.apart u u' a ((hother hne).mp ha) ((hother hne').mp ha')
  · by_cases hne : u = t
    · subst hne
      obtain ⟨-, rfl, rfl⟩ := (hmove.treeAt htree hroot hstart hheader).unique htree'
      rw [hmove.same.treeLba]
      refine ⟨fun hblocks ↦ ?_, fun ⟨n, hn, _⟩ ↦ List.not_mem_nil hn⟩
      exact hst.not_newRun hfree (htree.occupies_iff.mpr (Or.inl rfl))
        ((nodeBlocks_map htree.nodup u.blocksPerNode_pos).mp hblocks)
    · have hnamed : st.treeLba u ≠ 0 := hmove.same.treeLba u ▸ htree'.named
      obtain ⟨hdr'', nodes'', chain'', htree''⟩ := hst.trees u hnamed
      obtain ⟨-, rfl, rfl⟩ := (htree''.untouched hmove.same
        (hmove.untouched hst htree hfree hne)).unique htree'
      rw [hmove.same.treeLba]
      exact hst.header u hdr'' nodes'' chain'' htree''
  · have hrun : ¬NewRun t start nodes 0 := fun hrun ↦ hstart (Nat.le_zero.mp hrun.1)
    have hzero (a : ℕ) (ha : TreeBlocks st t nodes chain a) : a ≠ 0 :=
      (hst.inside t a (htree.occupies_iff.mpr ha)).2.1
    rw [hmove.others 0 hrun (fun h ↦ hzero 0 (Or.inr (Or.inl h)) rfl)
      (fun h ↦ hzero 0 (Or.inr (Or.inr h)) rfl), hmove.kept 0 hrun htree.named.symm]
    exact hst.super

end

end Move

end Obmafs3.Repack
