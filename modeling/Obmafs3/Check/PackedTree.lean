import Obmafs3.Check.Defragment

/-!
# Trees under a renaming of their nodes, for the checker

A tree of the volume with its nodes and its free nodes, the blocks that it occupies, and what becomes
of it when its nodes are found elsewhere with their links renamed.
-/

set_option autoImplicit false

namespace Obmafs3.Repack

open Library.Runs

variable {disk disk' : ℕ → Content} {ρ : ℕ → ℕ} {fuel fuel' : ℕ} {queue nodes nodes' chain : List ℕ}

/-! ### Walks -/

variable {bitmap : ℕ → Bool} {lba : ℕ} {moves : List (ℕ × ℕ)} {a : ℕ} {m : ℕ × ℕ}

theorem activeNodes_cons (hwalk : activeNodes disk (fuel + 1) (lba :: queue) = some nodes) :
    ∃ image rest, disk lba = .node image 0 ∧ nodes = lba :: rest ∧
      activeNodes disk fuel (queue ++ if 0 < image.level then image.children else []) = some rest := by
  rw [activeNodes] at hwalk
  split at hwalk
  · next image heq =>
    obtain ⟨rest, hrest, rfl⟩ := Option.map_eq_some_iff.mp hwalk
    exact ⟨image, rest, heq, rfl, hrest⟩
  · cases hwalk

theorem activeNodes_cons_eq {image : LinkedNode} (hlba : disk lba = .node image 0) :
    activeNodes disk (fuel + 1) (lba :: queue) =
      (activeNodes disk fuel (queue ++ if 0 < image.level then image.children else [])).map
        (lba :: ·) := by
  simp only [activeNodes, hlba]

section

variable (hwalk : activeNodes disk fuel queue = some nodes)
include hwalk

theorem activeNodes_mem (hlba : lba ∈ queue) : lba ∈ nodes := by
  induction fuel generalizing queue nodes with
  | zero => cases hwalk
  | succ fuel ih =>
    cases queue with
    | nil => cases hlba
    | cons first queue =>
      obtain ⟨image, rest, -, rfl, hrest⟩ := activeNodes_cons hwalk
      rcases List.mem_cons.mp hlba with rfl | hlba
      · exact List.mem_cons_self
      · exact List.mem_cons_of_mem _ (ih hrest (List.mem_append_left _ hlba))

/-- Every node that a walk meets is one, and its children are met too. -/
theorem activeNodes_closed {n : ℕ} (hn : n ∈ nodes) : ∃ image, disk n = .node image 0 ∧
      (0 < image.level → ∀ child ∈ image.children, child ∈ nodes) := by
  induction fuel generalizing queue nodes with
  | zero => cases hwalk
  | succ fuel ih =>
    cases queue with
    | nil =>
      obtain rfl := Option.some.inj hwalk
      cases hn
    | cons first queue =>
      obtain ⟨image, rest, himage, rfl, hrest⟩ := activeNodes_cons hwalk
      rcases List.mem_cons.mp hn with rfl | hn
      · refine ⟨image, himage, fun hlevel child hchild ↦ List.mem_cons_of_mem _ ?_⟩
        rw [if_pos hlevel] at hrest
        exact activeNodes_mem hrest (List.mem_append_right _ hchild)
      · obtain ⟨image', himage', hchildren⟩ := ih hrest hn
        exact ⟨image', himage', fun h child hchild ↦ List.mem_cons_of_mem _ (hchildren h child hchild)⟩

/-- A walk that ends needs a step for each node and one more. -/
theorem activeNodes_fuel (hfuel : nodes.length < fuel') :
    activeNodes disk fuel' queue = some nodes := by
  induction fuel generalizing fuel' queue nodes with
  | zero => cases hwalk
  | succ fuel ih =>
    obtain ⟨fuel', rfl⟩ := Nat.exists_eq_add_one_of_ne_zero (Nat.ne_zero_of_lt hfuel)
    cases queue with
    | nil => exact hwalk
    | cons first queue =>
      obtain ⟨image, rest, himage, rfl, hrest⟩ := activeNodes_cons hwalk
      rw [activeNodes_cons_eq himage, ih hrest (Nat.lt_of_succ_lt_succ hfuel)]
      rfl

theorem activeNodes_unique (hwalk' : activeNodes disk fuel' queue = some nodes') :
    nodes = nodes' := by
  have h := activeNodes_fuel hwalk (lt_add_of_le_of_pos (le_max_left _ nodes'.length) Nat.one_pos)
  have h' := activeNodes_fuel hwalk' (lt_add_of_le_of_pos (le_max_right nodes.length _) Nat.one_pos)
  exact Option.some.inj (h.symm.trans h')

end

theorem freeChain_fuel (hwalk : freeChain disk fuel lba = some chain) (hfuel : chain.length < fuel')
    : freeChain disk fuel' lba = some chain := by
  induction fuel generalizing fuel' lba chain with
  | zero => cases hwalk
  | succ fuel ih =>
    obtain ⟨fuel', rfl⟩ := Nat.exists_eq_add_one_of_ne_zero (Nat.ne_zero_of_lt hfuel)
    rw [freeChain] at hwalk ⊢
    split_ifs at hwalk ⊢ with hlba
    · obtain ⟨rest, hrest, rfl⟩ := Option.map_eq_some_iff.mp hwalk
      rw [ih hrest (Nat.lt_of_succ_lt_succ hfuel)]
      rfl
    · exact hwalk

theorem freeChain_unique {chain' : List ℕ} (hwalk : freeChain disk fuel lba = some chain)
    (hwalk' : freeChain disk fuel' lba = some chain') : chain = chain' := by
  have h := freeChain_fuel hwalk (lt_add_of_le_of_pos (le_max_left _ chain'.length) Nat.one_pos)
  have h' := freeChain_fuel hwalk' (lt_add_of_le_of_pos (le_max_right chain.length _) Nat.one_pos)
  exact Option.some.inj (h.symm.trans h')

theorem freeChain_congr (hsame : ∀ n ∈ chain, disk' n = disk n)
    (hwalk : freeChain disk fuel lba = some chain) : freeChain disk' fuel lba = some chain := by
  induction fuel generalizing lba chain with
  | zero => cases hwalk
  | succ fuel ih =>
    rw [freeChain] at hwalk ⊢
    split_ifs at hwalk ⊢ with hlba
    · obtain ⟨rest, hrest, rfl⟩ := Option.map_eq_some_iff.mp hwalk
      rw [hsame lba List.mem_cons_self, ih (fun n hn ↦ hsame n (List.mem_cons_of_mem _ hn)) hrest]
      rfl
    · exact hwalk

/-- The records of the leaves below a node, from left to right. -/
def treeRecords (disk : ℕ → Content) : (fuel lba : ℕ) → Option (List (List ℕ))
  | 0, _ => none
  | fuel + 1, lba =>
    match disk lba with
    | .node image 0 =>
      if 0 < image.level then
        (image.children.mapM fun child ↦ treeRecords disk fuel child).map List.flatten
      else some [image.data]
    | _ => none

/-! ### Renamed walks -/

/-- All nodes of a walk are found elsewhere, with their links renamed. -/
def Renames (disk disk' : ℕ → Content) (nodes : List ℕ) (ρ : ℕ → ℕ) : Prop :=
  ∀ n ∈ nodes, disk' (ρ n) = (disk n).rename ρ

theorem activeNodes_rename (hrenames : Renames disk disk' nodes ρ)
    (hwalk : activeNodes disk fuel queue = some nodes) :
    activeNodes disk' fuel (queue.map ρ) = some (nodes.map ρ) := by
  induction fuel generalizing queue nodes with
  | zero => cases hwalk
  | succ fuel ih =>
    cases queue with
    | nil =>
      obtain rfl := Option.some.inj hwalk
      rfl
    | cons first queue =>
      obtain ⟨image, rest, himage, rfl, hrest⟩ := activeNodes_cons hwalk
      have hfirst : disk' (ρ first) = .node (image.rename ρ) 0 := by
        rw [hrenames first List.mem_cons_self, himage]
        rfl
      have hchildren : (if 0 < (image.rename ρ).level then (image.rename ρ).children else []) =
          (if 0 < image.level then image.children else []).map ρ := by
        simp only [LinkedNode.rename]
        split_ifs <;> rfl
      rw [List.map_cons, activeNodes_cons_eq hfirst, hchildren, ← List.map_append,
        ih (fun n hn ↦ hrenames n (List.mem_cons_of_mem _ hn)) hrest]
      rfl

theorem mapM_map_congr {α β : Type} {f g : α → Option β} {ρ : α → α} {xs : List α}
    (hsame : ∀ x ∈ xs, f (ρ x) = g x) : (xs.map ρ).mapM f = xs.mapM g := by
  induction xs with
  | nil => rfl
  | cons x xs ih =>
    rw [List.map_cons, List.mapM_cons, List.mapM_cons, hsame x List.mem_cons_self,
      ih fun y hy ↦ hsame y (List.mem_cons_of_mem x hy)]

theorem treeRecords_rename (hrenames : Renames disk disk' nodes ρ)
    (hwalk : activeNodes disk fuel' queue = some nodes) {n : ℕ} (hn : n ∈ nodes) :
    treeRecords disk' fuel (ρ n) = treeRecords disk fuel n := by
  induction fuel generalizing n with
  | zero => rfl
  | succ fuel ih =>
    obtain ⟨image, himage, hchildren⟩ := activeNodes_closed hwalk hn
    rw [treeRecords, treeRecords, hrenames n hn, himage]
    by_cases hlevel : 0 < image.level
    · have hmap : ((image.children.map ρ).mapM fun child ↦ treeRecords disk' fuel child) =
          image.children.mapM fun child ↦ treeRecords disk fuel child :=
        mapM_map_congr fun child hchild ↦ ih (hchildren hlevel child hchild)
      simp only [Content.rename, LinkedNode.rename, if_pos hlevel, hmap]
    · simp only [Content.rename, LinkedNode.rename, if_neg hlevel]

theorem Content.rename_id (content : Content) : content.rename id = content := by
  cases content with
  | node image part => simp [Content.rename, LinkedNode.rename, renameLink]
  | header header => rfl
  | free next => rfl
  | other data => rfl

theorem renames_id (hsame : ∀ n ∈ nodes, disk' n = disk n) : Renames disk disk' nodes id :=
  fun n hn ↦ (hsame n hn).trans (Content.rename_id _).symm

/-! ### Copies -/

/-- The blocks of some nodes. -/
def NodeBlocks (blocksPerNode : ℕ) (nodes : List ℕ) (lba : ℕ) : Prop :=
  ∃ n ∈ nodes, InRun n blocksPerNode lba

variable {width start : ℕ}

theorem clearNodes_false (ha : bitmap a = false) : clearNodes width nodes bitmap a = false := by
  induction nodes generalizing bitmap with
  | nil => exact ha
  | cons n nodes ih =>
    have hfill : fill n width false bitmap a = false := by
      by_cases hn : InRun n width a
      · exact fill_in hn
      · exact (fill_out hn).trans ha
    exact ih hfill

theorem clearNodes_in (ha : NodeBlocks width nodes a) :
    clearNodes width nodes bitmap a = false := by
  obtain ⟨n, hn, hin⟩ := ha
  induction nodes generalizing bitmap with
  | nil => cases hn
  | cons m ms ih =>
    change clearNodes width ms (fill m width false bitmap) a = false
    rcases List.mem_cons.mp hn with rfl | hms
    · exact clearNodes_false (fill_in hin)
    · exact ih hms

theorem clearNodes_out (ha : ¬NodeBlocks width nodes a) :
    clearNodes width nodes bitmap a = bitmap a := by
  induction nodes generalizing bitmap with
  | nil => rfl
  | cons m ms ih =>
    have hm : ¬InRun m width a := fun h ↦ ha ⟨m, List.mem_cons_self, h⟩
    have hms : ¬NodeBlocks width ms a := fun ⟨n, hn, h⟩ ↦ ha ⟨n, List.mem_cons_of_mem m hn, h⟩
    change clearNodes width ms (fill m width false bitmap) a = bitmap a
    rw [ih hms, fill_out hm]

/-- The moves read from blocks that none of them writes, and write to blocks of their own. -/
structure MovesApart (width : ℕ) (moves : List (ℕ × ℕ)) : Prop where
  sources : ∀ m ∈ moves, ∀ m' ∈ moves, ∀ a, InRun m.1 width a → ¬InRun m'.2 width a
  targets : moves.Pairwise fun m m' ↦ ∀ a, InRun m.2 width a → ¬InRun m'.2 width a

theorem MovesApart.tail (hmoves : MovesApart width (m :: moves)) : MovesApart width moves where
  sources := fun k hk k' hk' ↦
    hmoves.sources k (List.mem_cons_of_mem m hk) k' (List.mem_cons_of_mem m hk')
  targets := hmoves.targets.tail

theorem copyNodes_out (ha : ∀ m ∈ moves, ¬InRun m.2 width a) :
    copyNodes ρ width moves disk a = disk a := by
  induction moves generalizing disk with
  | nil => rfl
  | cons m moves ih =>
    obtain ⟨old, new⟩ := m
    rw [copyNodes, ih fun m hm ↦ ha m (List.mem_cons_of_mem _ hm), copyBlocks,
      if_neg (ha (old, new) List.mem_cons_self)]

theorem copyNodes_in (hmoves : MovesApart width moves) (hm : m ∈ moves) {b : ℕ} (hb : b < width) :
    copyNodes ρ width moves disk (m.2 + b) = (disk (m.1 + b)).rename ρ := by
  induction moves generalizing disk with
  | nil => cases hm
  | cons first moves ih =>
    obtain ⟨old, new⟩ := first
    rw [copyNodes]
    rcases List.mem_cons.mp hm with rfl | hm'
    · rw [copyNodes_out fun m' hm' ↦ (List.rel_of_pairwise_cons hmoves.targets hm') _ (inRun_add hb),
        copyBlocks, if_pos (inRun_add hb), Nat.add_sub_cancel_left]
    · rw [ih hmoves.tail hm', copyBlocks,
        if_neg (hmoves.sources m hm _ List.mem_cons_self _ (inRun_add hb))]

/-! ### The map -/

theorem mem_relocationMap : m ∈ relocationMap width start nodes ↔
    ∃ i, ∃ h : i < nodes.length, m = (nodes[i], start + i * width) := by
  rw [relocationMap, List.mem_map]
  constructor
  · rintro ⟨⟨old, i⟩, hmem, rfl⟩
    obtain ⟨hi, hold⟩ := List.getElem?_eq_some_iff.mp (List.mem_zipIdx_iff_getElem?.mp hmem)
    exact ⟨i, hi, congrArg (·, start + i * width) hold.symm⟩
  · rintro ⟨i, hi, rfl⟩
    exact ⟨(nodes[i], i), List.mem_zipIdx_iff_getElem?.mpr (List.getElem?_eq_getElem hi), rfl⟩

/-- A node goes to the place of its number. -/
theorem mapLookup_getElem (hnodup : nodes.Nodup) {i : ℕ} (hi : i < nodes.length) :
    mapLookup (relocationMap width start nodes) nodes[i] = start + i * width := by
  have hmem : (nodes[i], start + i * width) ∈ relocationMap width start nodes :=
    mem_relocationMap.mpr ⟨i, hi, rfl⟩
  rw [mapLookup]
  cases hfind : (relocationMap width start nodes).find? fun move ↦ move.1 = nodes[i] with
  | none => simpa using List.find?_eq_none.mp hfind _ hmem
  | some m =>
    have hkey : m.1 = nodes[i] := by simpa using List.find?_some hfind
    obtain ⟨j, hj, rfl⟩ := mem_relocationMap.mp (List.mem_of_find?_eq_some hfind)
    obtain rfl : j = i := (List.Nodup.getElem_inj_iff hnodup).mp hkey
    rfl

/-- The new run is free, so no node is read from it. -/
theorem relocationMap_apart (hfree : ∀ a, InRun start (nodes.length * width) a → bitmap a = false)
    (hmarked : ∀ a, NodeBlocks width nodes a → bitmap a = true) :
    MovesApart width (relocationMap width start nodes) where
  sources := by
    intro m hm m' hm' a ha ha'
    obtain ⟨i, hi, rfl⟩ := mem_relocationMap.mp hm
    obtain ⟨j, hj, rfl⟩ := mem_relocationMap.mp hm'
    have hset := hmarked a ⟨nodes[i], List.getElem_mem hi, ha⟩
    have hmul : (j + 1) * width ≤ nodes.length * width := Nat.mul_le_mul_right width hj
    obtain ⟨hle, hlt⟩ : start + j * width ≤ a ∧ a < start + j * width + width := ha'
    rw [hfree a ⟨by omega, by rw [Nat.add_mul, Nat.one_mul] at hmul; omega⟩] at hset
    cases hset
  targets := by
    rw [relocationMap, List.pairwise_map, List.pairwise_iff_getElem]
    intro i j hi hj hij a ha ha'
    rw [List.getElem_zipIdx, Nat.zero_add] at ha ha'
    have hmul : (i + 1) * width ≤ j * width := Nat.mul_le_mul_right width hij
    rw [Nat.add_mul, Nat.one_mul] at hmul
    obtain ⟨-, hlt⟩ : start + i * width ≤ a ∧ a < start + i * width + width := ha
    obtain ⟨hle, -⟩ : start + j * width ≤ a ∧ a < start + j * width + width := ha'
    omega

variable (hnodup : nodes.Nodup) (hwidth : 0 < width)
include hnodup hwidth

/-- The places of the nodes make up the new run. -/
theorem nodeBlocks_map :
    NodeBlocks width (nodes.map (mapLookup (relocationMap width start nodes))) a ↔
      InRun start (nodes.length * width) a := by
  constructor
  · rintro ⟨n, hn, ha⟩
    obtain ⟨m, hm, rfl⟩ := List.mem_map.mp hn
    obtain ⟨i, hi, rfl⟩ := List.getElem_of_mem hm
    rw [mapLookup_getElem hnodup hi] at ha
    obtain ⟨hle, hlt⟩ := ha
    have hmul : (i + 1) * width ≤ nodes.length * width := Nat.mul_le_mul_right width hi
    rw [Nat.add_mul, Nat.one_mul] at hmul
    exact ⟨by omega, by omega⟩
  · intro ha
    obtain ⟨k, hk, rfl⟩ := ha.exists_add
    have hi : k / width < nodes.length := Nat.div_lt_of_lt_mul (by rwa [Nat.mul_comm])
    refine ⟨_, List.mem_map_of_mem (List.getElem_mem hi), ?_⟩
    rw [mapLookup_getElem hnodup hi]
    have hdiv := Nat.div_add_mod' k width
    have hmod := Nat.mod_lt k hwidth
    exact ⟨by omega, by omega⟩

theorem relocationMap_out (ha : ¬InRun start (nodes.length * width) a) :
    ∀ m ∈ relocationMap width start nodes, ¬InRun m.2 width a := by
  intro m hm hin
  obtain ⟨i, hi, rfl⟩ := mem_relocationMap.mp hm
  refine ha ((nodeBlocks_map hnodup hwidth).mp
    ⟨_, List.mem_map_of_mem (List.getElem_mem hi), ?_⟩)
  rwa [mapLookup_getElem hnodup hi]

/-- Copies that stop reach no block outside the new run. -/
theorem copyNodesUntil_out {k b a : ℕ} {garbage : Content}
    (ha : ¬InRun start (nodes.length * width) a) :
    copyNodesUntil ρ width k b garbage (relocationMap width start nodes) disk a = disk a := by
  have hout := relocationMap_out hnodup hwidth ha
  have htake : copyNodes ρ width ((relocationMap width start nodes).take k) disk a = disk a :=
    copyNodes_out fun m hm ↦ hout m (List.mem_of_mem_take hm)
  rw [copyNodesUntil]
  cases hget : (relocationMap width start nodes)[k]? with
  | none => exact htake
  | some m =>
    obtain ⟨old, new⟩ := m
    have hm := hout _ (List.mem_of_getElem? hget)
    change (if b < width then _ else _ : ℕ → Content) a = disk a
    split_ifs with hb
    · have hne : a ≠ new + b := fun h ↦ hm (h.symm ▸ inRun_add hb)
      rw [Function.update_of_ne hne, copyBlocks,
        if_neg fun h ↦ hm ⟨h.1, h.2.trans (Nat.add_lt_add_left hb new)⟩]
      exact htake
    · exact htake

end Obmafs3.Repack
