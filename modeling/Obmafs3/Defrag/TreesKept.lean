import Obmafs3.Defrag.TreeWrites

/-!
# The trees after the tree phase

The superblock and the tree list name the new header of each tree that was moved, but for the header
of the numeric index and those of the user indexes, which nothing names then.

`trees_preserved` says that all trees are what they were with their nodes renamed, and that nothing
else in use is written, if no write goes to a block that another object has, no header is moved that
the superblock is not updated for, and the dedup blocks in the range are evicted whole.
-/

set_option autoImplicit false

namespace Obmafs3.Defrag

open Library.Runs Library.Places

/-! ### Names -/

/-- A tree whose header is followed when it moves. -/
def Followed : TreeName → Prop
  | .field field => field ∈ updatedFields
  | .entry _ => True
  | .userIndex _ => False

/-- The moves of the headers: the old addresses, and the trees with the new ones. -/
structure HeaderMoves (address : TreeName → ℕ) (moves : List (ℕ × TreeReloc)) : Prop where
  old : ∀ m ∈ moves, m.1 = address m.2.name ∧ m.1 ≠ 0
  names : (moves.map fun m ↦ m.2.name).Nodup
  moved : ∀ m ∈ moves, m.1 ≠ m.2.hdrLba → m.2.nodeLbas ≠ [] ∧ Followed m.2.name
  later : moves.Pairwise fun m m' ↦ m.2.hdrLba ≠ m'.1

section Names

variable {address : TreeName → ℕ} {moves : List (ℕ × TreeReloc)} {m : ℕ × TreeReloc}

theorem HeaderMoves.tail (hmoves : HeaderMoves address (m :: moves)) : HeaderMoves address moves where
  old := fun m' hm' ↦ hmoves.old m' (List.mem_cons_of_mem _ hm')
  names := (List.nodup_cons.mp hmoves.names).2
  moved := fun m' hm' ↦ hmoves.moved m' (List.mem_cons_of_mem _ hm')
  later := (List.pairwise_cons.mp hmoves.later).2

theorem HeaderMoves.head_name (hmoves : HeaderMoves address (m :: moves)) {m' : ℕ × TreeReloc}
    (hm' : m' ∈ moves) : m'.2.name ≠ m.2.name := by
  intro heq
  exact (List.nodup_cons.mp hmoves.names).1 (List.mem_map.mpr ⟨m', hm', heq⟩)

variable {st : TreeState}

/-- What one turn of the update of the superblock does: a field that names the old header gets the
new one. -/
theorem updateField_spec (hmoves : HeaderMoves address (m :: moves))
    (hown : ∀ field, st.treeLbas field = m.1 → m.2.name = .field field)
    (haddress : ∀ field, m.2.name = .field field → st.treeLbas field = m.1) (field : TreeField) :
    (st.updateField m).treeLbas field =
      if m.2.name = .field field then m.2.hdrLba else st.treeLbas field := by
  unfold TreeState.updateField
  by_cases hstay : m.2.nodeLbas = [] ∨ m.1 = m.2.hdrLba
  · have hsame : m.1 = m.2.hdrLba := by
      rcases hstay with hnodes | hsame
      · by_contra hne
        exact (hmoves.moved m List.mem_cons_self hne).1 hnodes
      · exact hsame
    rw [if_pos hstay]
    split_ifs with hname
    · rw [haddress field hname, hsame]
    · rfl
  · rw [if_neg hstay]
    have hne : m.1 ≠ m.2.hdrLba := fun h ↦ hstay (Or.inr h)
    cases hfind : updatedFields.find? fun field ↦ st.treeLbas field = m.1 with
    | none =>
      rw [List.find?_eq_none] at hfind
      rw [if_neg]
      intro hname
      have hfollowed := (hmoves.moved m List.mem_cons_self hne).2
      rw [hname] at hfollowed
      exact hfind field hfollowed (decide_eq_true (haddress field hname))
    | some field' =>
      have hfound := List.find?_some hfind
      have hfield' : m.2.name = .field field' := hown field' (of_decide_eq_true hfound)
      dsimp only
      by_cases heq : field = field'
      · rw [heq, Function.update_self, if_pos hfield']
      · rw [Function.update_of_ne heq, if_neg]
        intro hname
        rw [hfield', TreeName.field.injEq] at hname
        exact heq hname.symm

theorem updateField_other (st : TreeState) (m : ℕ × TreeReloc) :
    (st.updateField m).toCompactState = st.toCompactState ∧
      (st.updateField m).dedupLba = st.dedupLba ∧
      (st.updateField m).userIndexes = st.userIndexes := by
  unfold TreeState.updateField
  split_ifs
  · exact ⟨rfl, rfl, rfl⟩
  · split <;> exact ⟨rfl, rfl, rfl⟩

theorem updateSuperblock_other (st : TreeState) (moves : List (ℕ × TreeReloc)) :
    (TreeState.updateSuperblock moves st).toCompactState = st.toCompactState ∧
      (TreeState.updateSuperblock moves st).dedupLba = st.dedupLba ∧
      (TreeState.updateSuperblock moves st).userIndexes = st.userIndexes := by
  induction moves generalizing st with
  | nil => exact ⟨rfl, rfl, rfl⟩
  | cons m moves ih =>
    obtain ⟨hstate, hdedup, husers⟩ := updateField_other st m
    obtain ⟨hstate', hdedup', husers'⟩ := ih (st.updateField m)
    exact ⟨hstate'.trans hstate, hdedup'.trans hdedup, husers'.trans husers⟩

/-- The superblock names the new headers, and the old ones of the trees that are not collected. -/
theorem updateSuperblock_spec (hmoves : HeaderMoves address moves)
    (hown : ∀ m ∈ moves, ∀ field, st.treeLbas field = m.1 → m.2.name = .field field)
    (haddress : ∀ m ∈ moves, ∀ field, m.2.name = .field field → st.treeLbas field = m.1)
    (field : TreeField) :
    (∀ m ∈ moves, m.2.name = .field field →
        (TreeState.updateSuperblock moves st).treeLbas field = m.2.hdrLba) ∧
      ((∀ m ∈ moves, m.2.name ≠ .field field) →
        (TreeState.updateSuperblock moves st).treeLbas field = st.treeLbas field) := by
  induction moves generalizing st with
  | nil => exact ⟨by simp, fun _ ↦ rfl⟩
  | cons m moves ih =>
    have hupdate (field : TreeField) := updateField_spec hmoves
      (hown m List.mem_cons_self) (haddress m List.mem_cons_self) field
    have hlater := (List.pairwise_cons.mp hmoves.later).1
    obtain ⟨hnamed, hother⟩ := @ih (st.updateField m) hmoves.tail
      (fun m' hm' field' heq ↦ by
        rw [hupdate] at heq
        split_ifs at heq
        · exact absurd heq (hlater m' hm')
        · exact hown m' (List.mem_cons_of_mem _ hm') field' heq)
      (fun m' hm' field' hname ↦ by
        rw [hupdate, if_neg]
        · exact haddress m' (List.mem_cons_of_mem _ hm') field' hname
        · intro hname'
          exact hmoves.head_name hm' (hname.trans hname'.symm))
    refine ⟨fun m' hm' hname ↦ ?_, fun hnone ↦ ?_⟩
    · rcases List.mem_cons.mp hm' with rfl | hm'
      · have hrest : (TreeState.updateSuperblock moves (st.updateField m')).treeLbas field = _ :=
          hother fun m'' hm'' hname' ↦ hmoves.head_name hm'' (hname'.trans hname.symm)
        exact hrest.trans ((hupdate field).trans (if_pos hname))
      · exact hnamed m' hm' hname
    · have hrest : (TreeState.updateSuperblock moves (st.updateField m)).treeLbas field = _ :=
        hother fun m' hm' ↦ hnone m' (List.mem_cons_of_mem _ hm')
      exact hrest.trans ((hupdate field).trans (if_neg (hnone m List.mem_cons_self)))

/-- An entry of the tree list gets the new header of its tree. -/
theorem movedEntry_spec {e : TreeListEntry} {i : ℕ} (hmoves : HeaderMoves address moves)
    (hentry : e.treeLba = address (.entry i))
    (hinj : ∀ name name', address name ≠ 0 → address name = address name' → name = name') :
    (∀ m ∈ moves, m.2.name = .entry i → (TreeState.movedEntry moves e).treeLba = m.2.hdrLba) ∧
      ((∀ m ∈ moves, m.2.name ≠ .entry i) →
        (TreeState.movedEntry moves e).treeLba = e.treeLba) := by
  have hname {m : ℕ × TreeReloc} (hm : m ∈ moves) (heq : m.1 = e.treeLba) : m.2.name = .entry i := by
    obtain ⟨hold, hne⟩ := hmoves.old m hm
    rw [hold] at heq hne
    exact hinj _ _ hne (heq.trans hentry)
  have hunique {m m' : ℕ × TreeReloc} (hm : m ∈ moves) (hm' : m' ∈ moves)
      (heq : m.2.name = m'.2.name) : m = m' := List.inj_on_of_nodup_map hmoves.names hm hm' heq
  unfold TreeState.movedEntry
  cases hfind : moves.find? fun move ↦
      move.2.nodeLbas ≠ [] ∧ move.1 = e.treeLba ∧ move.2.hdrLba ≠ move.1 with
  | none =>
    rw [List.find?_eq_none] at hfind
    refine ⟨fun m hm hentryName ↦ ?_, fun _ ↦ rfl⟩
    have hold : m.1 = e.treeLba := by
      rw [(hmoves.old m hm).1, hentryName, hentry]
    have hsame : m.1 = m.2.hdrLba := by
      by_contra hne
      exact hfind m hm (decide_eq_true ⟨(hmoves.moved m hm hne).1, hold, Ne.symm hne⟩)
    exact hold.symm.trans hsame
  | some m =>
    have hmem := List.mem_of_find?_eq_some hfind
    have hfound := List.find?_some hfind
    have hold := (of_decide_eq_true hfound).2.1
    refine ⟨fun m' hm' hentryName ↦ ?_, fun hnone ↦ absurd (hname hmem hold) (hnone m hmem)⟩
    rw [hunique hm' hmem (hentryName.trans (hname hmem hold).symm)]

end Names

/-! ### The whole phase -/

/-- The trees of a volume and their nodes are apart, and the analysis takes their blocks neither for
free nor for dedup blocks. -/
structure TreesConsistent (st : TreeState) : Prop where
  total_pos : 0 < st.totalBlocks
  nodes : ∀ name, st.treeLba name ≠ 0 → ∃ nodes, TreeNodes st.disk (st.treeLba name) nodes
  apart : ∀ o o' lba, st.treePlace o lba → st.treePlace o' lba → o = o'
  inUse : ∀ o lba, st.treePlace o lba →
    lba < st.totalBlocks ∧ st.blockTypes lba ≠ .free ∧ st.blockTypes lba ≠ .dedup

/-- All named trees are what they were with their nodes renamed, and allocated; other blocks in use
are not written and stay allocated; and dedup blocks are found where the moves say. -/
structure TreesPreserved (dedup : List DedupBlock) (st st' : TreeState) : Prop where
  trees : ∀ name, st.treeLba name ≠ 0 → ∃ nodes ρ,
    Renamed st.disk st'.disk name.blocksPerNode (st.treeLba name) (st'.treeLba name) nodes ρ ∧
      st'.bitmap (st'.treeLba name) = true ∧
      ∀ lba, NodeBlocks name.blocksPerNode (nodes.map ρ) lba → st'.bitmap lba = true
  others : ∀ lba < st.totalBlocks, st.blockTypes lba ≠ .free → st.blockTypes lba ≠ .dedup →
    (∀ o, ¬st.treePlace o lba) → st'.disk lba = st.disk lba ∧ st'.bitmap lba = true
  dedup : ∀ d ∈ dedup, ∀ b < d.owned,
    st'.disk (st'.addressOf d + b) = st.disk (st.addressOf d + b) ∧
      st'.bitmap (st'.addressOf d + b) = true

/-- The dedup blocks in the range are evicted whole, no write goes to a block that another object has
at that time, and no header is moved that nothing names then. -/
def TreesClear (dedup : List DedupBlock) (fuel : ℕ) (st : TreeState) : Prop :=
  ∀ trees evicted, st.collectTrees fuel = some trees →
    let start := st.treesStart trees
    let finish := min (start + st.blocksNeeded trees) st.totalBlocks
    evictDestination start finish fuel start st.toCompactState = some evicted →
      DestinationClears dedup start finish fuel start st.toCompactState ∧
        WritesClear st.totalBlocks (plannedWrites trees start st) (st.place evicted) ∧
        ∀ w ∈ plannedWrites trees start st, ∀ name, w.object = .header name → Followed name

section Phase

variable {dedup : List DedupBlock} {refcount : ℕ → ℕ} {fuel : ℕ} {st st' : TreeState}
  {trees : List TreeReloc} {evicted : CompactState}

theorem addedTrees_nodup (st : TreeState) : st.addedTrees.Nodup := by
  have hfields : (collectedFields.map TreeName.field).Nodup := by decide
  have husers : ((List.range st.userIndexes.length).map TreeName.userIndex).Nodup :=
    List.nodup_range.map fun a b h ↦ TreeName.userIndex.inj h
  have hentries : ((List.range (min st.listEntries.length 64)).map TreeName.entry).Nodup :=
    List.nodup_range.map fun a b h ↦ TreeName.entry.inj h
  refine ((List.nodup_append.mpr ⟨List.nodup_append.mpr ⟨hfields, husers, ?_⟩, hentries,
    ?_⟩).filter _).sublist (List.take_sublist 20 _)
  · intro name hname name' hname'
    obtain ⟨_, -, rfl⟩ := List.mem_map.mp hname
    obtain ⟨_, -, rfl⟩ := List.mem_map.mp hname'
    exact TreeName.noConfusion
  · intro name hname name' hname'
    obtain ⟨_, -, rfl⟩ := List.mem_map.mp hname'
    rcases List.mem_append.mp hname with hname | hname <;>
      obtain ⟨_, -, rfl⟩ := List.mem_map.mp hname <;> exact TreeName.noConfusion

theorem collect_names {names : List TreeName}
    (hcollect : names.mapM (fun name ↦ (collectTreeNodes st.disk fuel (st.treeLba name)).map
      (TreeReloc.mk name (st.treeLba name))) = some trees) :
    trees.map TreeReloc.name = names ∧ ∀ tr ∈ trees, tr.hdrLba = st.treeLba tr.name ∧
      collectTreeNodes st.disk fuel (st.treeLba tr.name) = some tr.nodeLbas := by
  induction names generalizing trees with
  | nil =>
    obtain rfl := Option.some.inj hcollect
    exact ⟨rfl, by simp⟩
  | cons name names ih =>
    rw [List.mapM_cons] at hcollect
    obtain ⟨tr, htr, hrest⟩ := Option.bind_eq_some_iff.mp hcollect
    obtain ⟨trees', htrees', heq⟩ := Option.bind_eq_some_iff.mp hrest
    obtain rfl := Option.some.inj heq
    obtain ⟨nodes, hnodes, rfl⟩ := Option.map_eq_some_iff.mp htr
    obtain ⟨hnames, hall⟩ := ih htrees'
    refine ⟨by rw [List.map_cons, hnames], fun tr' htr' ↦ ?_⟩
    rcases List.mem_cons.mp htr' with rfl | htr'
    · exact ⟨rfl, hnodes⟩
    · exact hall tr' htr'

/-- What has been collected. -/
theorem collectTrees_spec (hcollect : st.collectTrees fuel = some trees) :
    (trees.map TreeReloc.name).Nodup ∧ ∀ tr ∈ trees, st.treeLba tr.name ≠ 0 ∧
      tr.hdrLba = st.treeLba tr.name ∧
      collectTreeNodes st.disk fuel (st.treeLba tr.name) = some tr.nodeLbas := by
  obtain ⟨hnames, hall⟩ := collect_names hcollect
  refine ⟨hnames ▸ addedTrees_nodup st, fun tr htr ↦ ⟨?_, hall tr htr⟩⟩
  have hadded : tr.name ∈ st.addedTrees := hnames ▸ List.mem_map_of_mem htr
  simpa using (List.mem_filter.mp (List.mem_of_mem_take hadded)).2

/-- What is at each place when the evictions have ended. -/
def TreeState.content (st : TreeState) (evicted : CompactState) : Option TreeObject → ℕ → DiskBlock
  | some .list, _ => st.disk st.dedupLba
  | some (.header name), _ => st.disk (st.treeLba name)
  | some (.nodes _), lba => st.disk lba
  | none, lba => evicted.disk lba

theorem zero_not_treePlace (o : TreeObject) : ¬st.treePlace o 0 := by
  intro ho
  cases o with
  | list => exact ho.1 ho.2.symm
  | header name => exact ho.1 ho.2.symm
  | nodes name =>
    obtain ⟨-, nodes, hnodes, n, hn, hle, -⟩ := ho
    rw [Nat.le_zero.mp hle] at hn
    exact hnodes.ne_zero hn

/-- When the evictions have ended, everything is at its place. -/
theorem place_holds (hst : Consistent dedup refcount st.toCompactState) (htrees : TreesConsistent st)
    (hevicted : Consistent dedup refcount evicted)
    (hkeeps : EvictionKeeps dedup st.toCompactState evicted) :
    Library.Places.Holds (st.place evicted) (st.content evicted) evicted.disk evicted.bitmap ∧
      st.place evicted none 0 := by
  have hzero : st.place evicted none 0 := by
    refine ⟨htrees.total_pos, ?_, zero_not_treePlace⟩
    rw [hevicted.superblock]
    exact BlockType.noConfusion
  refine ⟨⟨fun o lba ho ↦ ?_, fun o lba ho ↦ ?_, fun o o' lba ho ho' ↦ ?_⟩, hzero⟩
  · cases o with
    | none => rfl
    | some o =>
      obtain ⟨-, hfree, hdedup⟩ := htrees.inUse o lba ho
      rw [(hkeeps.others lba hfree hdedup).1]
      cases o with
      | list => rw [ho.2]; rfl
      | header name => rw [ho.2]; rfl
      | nodes name => rfl
  · cases o with
    | none =>
      obtain ⟨hlt, hfree, -⟩ := ho
      rw [← hkeeps.total] at hlt
      rwa [← Bool.not_eq_false, hevicted.marked lba hlt]
    | some o =>
      obtain ⟨hlt, hfree, hdedup⟩ := htrees.inUse o lba ho
      rw [(hkeeps.others lba hfree hdedup).2.1, ← Bool.not_eq_false]
      exact mt (hst.marked lba hlt).mp hfree
  · cases o with
    | none =>
      cases o' with
      | none => rfl
      | some o' => exact absurd ho' (ho.2.2 o')
    | some o =>
      cases o' with
      | none => exact absurd ho (ho'.2.2 o)
      | some o' => rw [htrees.apart o o' lba ho ho']

variable {trees' : List TreeReloc}

section

variable (hshape : trees'.map TreeReloc.shape = trees.map TreeReloc.shape)
include hshape

theorem shape_names : trees'.map TreeReloc.name = trees.map TreeReloc.name := by
  have hnames := congrArg (List.map Prod.fst) hshape
  rwa [List.map_map, List.map_map] at hnames

theorem shape_mem {tr' : TreeReloc} (htr' : tr' ∈ trees') :
    ∃ tr ∈ trees, tr.name = tr'.name ∧ tr.nodeLbas = tr'.nodeLbas := by
  have hmem : tr'.shape ∈ trees.map TreeReloc.shape := hshape ▸ List.mem_map_of_mem htr'
  obtain ⟨tr, htr, heq⟩ := List.mem_map.mp hmem
  rw [TreeReloc.shape, TreeReloc.shape, Prod.mk.injEq] at heq
  exact ⟨tr, htr, heq⟩

theorem zip_shape {m : ℕ × TreeReloc} (hm : m ∈ (trees.map TreeReloc.hdrLba).zip trees') :
    ∃ tr ∈ trees, m.1 = tr.hdrLba ∧ tr.name = m.2.name := by
  induction trees generalizing trees' with
  | nil => cases hm
  | cons tr trees ih =>
    cases trees' with
    | nil => cases hm
    | cons tr' trees' =>
      rw [List.map_cons, List.map_cons, List.cons.injEq, TreeReloc.shape, TreeReloc.shape,
        Prod.mk.injEq] at hshape
      rw [List.map_cons, List.zip_cons_cons, List.mem_cons] at hm
      rcases hm with rfl | hm
      · exact ⟨tr, List.mem_cons_self, rfl, hshape.1.1.symm⟩
      · obtain ⟨tr'', htr'', heq⟩ := ih hshape.2 hm
        exact ⟨tr'', List.mem_cons_of_mem _ htr'', heq⟩

theorem zip_snd : ((trees.map TreeReloc.hdrLba).zip trees').map Prod.snd = trees' := by
  have hlength := congrArg List.length hshape
  rw [List.length_map, List.length_map] at hlength
  exact List.map_snd_zip (by rw [List.length_map, hlength])

end

/-- What the writes of the phase leave. `moves` are the headers with their new addresses. -/
structure PhaseResult (st : TreeState) (evicted : CompactState) (moves : List (ℕ × TreeReloc))
    (st' : TreeState) (place : Option TreeObject → ℕ → Prop)
    (content : Option TreeObject → ℕ → DiskBlock) : Prop where
  treeLbas : st'.treeLbas = st.treeLbas
  userIndexes : st'.userIndexes = st.userIndexes
  relocs : st'.relocs = evicted.relocs
  noList : st'.dedupLba = 0 ↔ st.dedupLba = 0
  holds : Library.Places.Holds place content st'.disk st'.bitmap
  list : st.dedupLba ≠ 0 → place (some .list) st'.dedupLba
  listBlock : content (some .list) = fun _ ↦ st.disk st.dedupLba
  others : place none = st.place evicted none ∧ content none = st.content evicted none
  headers : HeaderMoves st.treeLba moves
  relocated : ∀ m ∈ moves, m.2.nodeLbas ≠ [] → TreeNodes st.disk (st.treeLba m.2.name) m.2.nodeLbas ∧
    ∃ root freeNode freeNodes fields, (st.disk (st.treeLba m.2.name)).content =
        .treeHeader root freeNode freeNodes fields ∧
      ∃ dst, Relocated (st.content evicted) content place m.2 dst root freeNode freeNodes fields
  stayed : ∀ name, (∀ m ∈ moves, m.2.nodeLbas ≠ [] → m.2.name ≠ name) →
    ∀ o, o = some (.header name) ∨ o = some (.nodes name) →
      place o = st.place evicted o ∧ content o = st.content evicted o

/-- The writes are made as planned, and end well. -/
theorem phase_run (finish : ℕ) {start : ℕ} (hcollect : st.collectTrees fuel = some trees)
    (hholds : Library.Places.Holds (st.place evicted) (st.content evicted) evicted.disk
      evicted.bitmap) (hzero : st.place evicted none 0) (htotal : 0 < st.totalBlocks)
    (hkeeps : EvictionKeeps dedup st.toCompactState evicted)
    (hclear : WritesClear st.totalBlocks (plannedWrites trees start st) (st.place evicted))
    (hfollowed : ∀ w ∈ plannedWrites trees start st, ∀ name, w.object = .header name →
      Followed name) :
    ∃ trees' st' place content,
      (let list := TreeState.placeTreeList start finish { st with toCompactState := evicted }
        let headers := TreeState.placeHeaders start finish trees list.1 list.2
        headers.1 = trees' ∧
          TreeState.relocateTrees headers.1 headers.2.1 headers.2.2 = (st', true)) ∧
        PhaseResult st evicted ((trees.map TreeReloc.hdrLba).zip trees') st' place content := by
  obtain ⟨hnames, hcollected⟩ := collectTrees_spec hcollect
  rw [plannedWrites, writesClear_append, writesClear_append] at hclear
  obtain ⟨hclearList, hclearHeaders, hclearNodes⟩ := hclear
  -- The list.
  obtain ⟨hcursor, hsame₁, hholds₁, hdedup₁, hlist₁⟩ :
      (TreeState.placeTreeList start finish { st with toCompactState := evicted }).1 =
          start + (listWrites start st.dedupLba).length ∧
        SameNames { st with toCompactState := evicted }
          (TreeState.placeTreeList start finish { st with toCompactState := evicted }).2 ∧ _ :=
    placeTreeList_spec hholds (fun hne ↦ (⟨hne, rfl⟩ : st.treePlace .list st.dedupLba)) hzero rfl
      hclearList
  generalize TreeState.placeTreeList start finish { st with toCompactState := evicted } = list at *
  have hlistObject {o : Option TreeObject} (ho : o ≠ some .list) :
      placesAfter (listWrites start st.dedupLba) (st.place evicted) o = st.place evicted o := by
    refine placesAfter_of_not_mem fun w hw ↦ ?_
    unfold listWrites at hw
    split_ifs at hw
    · rwa [List.mem_singleton.mp hw]
    · cases hw
  -- The headers.
  obtain ⟨trees', st₃, hheaders, hsame₂, hdedup₂, hholds₂, hshape, hplaced, hmoved, hpairwise⟩ :=
    placeHeaders_spec start finish hholds₁ hnames (fun tr htr ↦ by
      obtain ⟨hne, hlba, -⟩ := hcollected tr htr
      refine ⟨?_, _, rfl⟩
      rw [hlistObject (by simp), hlba]
      exact ⟨hne, rfl⟩) hclearHeaders
  have hsame := hsame₁.trans hsame₂
  have hobjects {w : Write} {cursor : ℕ} (hw : w ∈ headerWrites trees cursor) :
      ∃ tr' ∈ trees', tr'.nodeLbas ≠ [] ∧ w.object = .header tr'.name := by
    obtain ⟨tr, htr, hne, hobject⟩ := object_of_headerWrites hw
    obtain ⟨tr', htr', hname, hnodes⟩ := shape_mem hshape.symm htr
    exact ⟨tr', htr', hnodes ▸ hne, hname ▸ hobject⟩
  -- The nodes.
  have hheaderObject {o : Option TreeObject} (hlist : o ≠ some .list)
      (ho : ∀ tr' ∈ trees', tr'.nodeLbas ≠ [] → o ≠ some (.header tr'.name)) :
      placesAfter (headerWrites trees (start + (listWrites start st.dedupLba).length))
        (placesAfter (listWrites start st.dedupLba) (st.place evicted)) o = st.place evicted o := by
    rw [placesAfter_of_not_mem, hlistObject hlist]
    intro w hw
    obtain ⟨tr', htr', hne, hobject⟩ := hobjects hw
    exact hobject ▸ ho tr' htr' hne
  have hcollected' {tr' : TreeReloc} (htr' : tr' ∈ trees') : st.treeLba tr'.name ≠ 0 ∧
      collectTreeNodes st.disk fuel (st.treeLba tr'.name) = some tr'.nodeLbas := by
    obtain ⟨tr, htr, hname, hnodes⟩ := shape_mem hshape htr'
    obtain ⟨hne, -, hcollect⟩ := hcollected tr htr
    rw [← hname, ← hnodes]
    exact ⟨hne, hcollect⟩
  have htreeNodes {tr' : TreeReloc} (htr' : tr' ∈ trees') (hne : tr'.nodeLbas ≠ []) :
      TreeNodes st.disk (st.treeLba tr'.name) tr'.nodeLbas :=
    TreeNodes.of_collect (hcollected' htr').2 hne
  have hrelocatable {tr' : TreeReloc} (htr' : tr' ∈ trees') (hne : tr'.nodeLbas ≠ []) :
      ∃ root freeNode freeNodes fields, (st.disk (st.treeLba tr'.name)).content =
          .treeHeader root freeNode freeNodes fields ∧
        Relocatable (placesAfter (headerWrites trees (start + (listWrites start st.dedupLba).length))
          (placesAfter (listWrites start st.dedupLba) (st.place evicted))) (st.content evicted) tr'
          root freeNode freeNodes fields := by
    have hnodes := htreeNodes htr' hne
    obtain ⟨fuel', root, freeNode, freeNodes, fields, reached, chain, hheader, -, hchain, hlist⟩ :=
      id hnodes
    refine ⟨root, freeNode, freeNodes, fields, hheader, hplaced tr' htr', hheader, fun lba hlba ↦ ?_,
      ?_, hnodes.ne_zero⟩
    · rw [hheaderObject (by simp) (by simp)]
      exact ⟨(hcollected' htr').1, tr'.nodeLbas, hnodes, hlba⟩
    · rw [hlist]
      rcases Nat.eq_zero_or_pos freeNode with hzero | hpos
      · exact Or.inl hzero
      · exact Or.inr (List.mem_append_right _ (freeChain_mem hchain hpos.ne'))
  have htotal₃ : st₃.totalBlocks = st.totalBlocks := hsame.totalBlocks.trans hkeeps.total
  obtain ⟨st', place, content, hrelocate, hsame₃, hdedup₃, hholds₃, hkept, hrelocated⟩ :=
    relocateTrees_spec hholds₂ (by rw [hheaderObject (by simp) (by simp)]; exact hzero)
      (htotal₃.symm ▸ htotal) (shape_names hshape ▸ hnames)
      (fun tr' htr' hne ↦ by
        obtain ⟨root, freeNode, freeNodes, fields, -, h⟩ := hrelocatable htr' hne
        exact ⟨root, freeNode, freeNodes, fields, h⟩)
      (htotal₃.symm ▸ nodeWrites_congr hshape ▸ hclearNodes)
  have hsecond {m : ℕ × TreeReloc} (hm : m ∈ (trees.map TreeReloc.hdrLba).zip trees') :
      m.2 ∈ trees' := (List.of_mem_zip hm).2
  have hmove {tr' : TreeReloc} (htr' : tr' ∈ trees') :
      ∃ m ∈ (trees.map TreeReloc.hdrLba).zip trees', m.2 = tr' :=
    List.mem_map.mp ((zip_snd hshape).symm ▸ htr')
  refine ⟨trees', st', place, content, ?_, ?_⟩
  · dsimp only
    rw [hcursor, hheaders]
    exact ⟨rfl, hrelocate⟩
  have hlistKept : place (some .list) = placesAfter _ _ (some .list) ∧
      content (some .list) = st.content evicted (some .list) :=
    hkept (some .list) fun _ _ _ ↦ ⟨by simp, by simp⟩
  have hnoneKept : place none = placesAfter _ _ none ∧ content none = st.content evicted none :=
    hkept none fun _ _ _ ↦ ⟨by simp, by simp⟩
  refine
    { treeLbas := (hsame.trans hsame₃).treeLbas
      userIndexes := (hsame.trans hsame₃).userIndexes
      relocs := (hsame.trans hsame₃).relocs
      noList := ?_
      holds := hholds₃
      list := fun hne ↦ ?_
      listBlock := hlistKept.2
      others := ⟨?_, hnoneKept.2⟩
      headers := ⟨fun m hm ↦ ?_, ?_, fun m hm hne ↦ ?_, hpairwise⟩
      relocated := fun m hm hne ↦ ⟨htreeNodes (hsecond hm) hne, ?_⟩
      stayed := fun name hname o ho ↦ ?_ }
  · rw [hdedup₃, hdedup₂]
    exact hdedup₁
  · rw [hdedup₃, hdedup₂, hlistKept.1, placesAfter_of_not_mem]
    · exact hlist₁ hne
    · intro w hw heq
      obtain ⟨tr', -, -, hobject⟩ := hobjects hw
      rw [hobject] at heq
      cases heq
  · rw [hnoneKept.1, hheaderObject (by simp) (by simp)]
  · obtain ⟨tr, htr, hold, hname⟩ := zip_shape hshape hm
    obtain ⟨hne, hlba, -⟩ := hcollected tr htr
    rw [hold, hlba, ← hname]
    exact ⟨rfl, hne⟩
  · have hmoves := zip_snd hshape
    have hmap : ((trees.map TreeReloc.hdrLba).zip trees').map (fun m ↦ m.2.name) =
        trees'.map TreeReloc.name := by
      rw [← hmoves, List.map_map]
      exact congrArg _ (by rw [hmoves])
    rw [hmap, shape_names hshape]
    exact hnames
  · obtain ⟨hnodes, hobject⟩ := hmoved m hm hne
    obtain ⟨w, hw, hwObject⟩ := List.mem_map.mp hobject
    refine ⟨hnodes, hfollowed w ?_ m.2.name hwObject⟩
    rw [plannedWrites]
    exact List.mem_append_right _ (List.mem_append_left _ hw)
  · obtain ⟨root, freeNode, freeNodes, fields, hheader, htree⟩ := hrelocatable (hsecond hm) hne
    exact ⟨root, freeNode, freeNodes, fields, hheader,
      hrelocated m.2 (hsecond hm) hne root freeNode freeNodes fields htree⟩
  · have hname' (tr' : TreeReloc) (htr' : tr' ∈ trees') (hne : tr'.nodeLbas ≠ []) :
        tr'.name ≠ name := by
      obtain ⟨m, hm, rfl⟩ := hmove htr'
      exact hname m hm hne
    have hobject (tr' : TreeReloc) (htr' : tr' ∈ trees') (hne : tr'.nodeLbas ≠ []) :
        o ≠ some (.header tr'.name) ∧ o ≠ some (.nodes tr'.name) := by
      have hne' := (hname' tr' htr' hne).symm
      rcases ho with rfl | rfl <;> simp [hne']
    obtain ⟨hplace', hcontent'⟩ := hkept o hobject
    refine ⟨?_, hcontent'⟩
    rw [hplace', hheaderObject]
    · rcases ho with rfl | rfl <;> simp
    · exact fun tr' htr' hne ↦ (hobject tr' htr' hne).1

/-- Only the tree list changes, and names the new headers. -/
theorem updateTreeList_spec {place : Option TreeObject → ℕ → Prop}
    {content : Option TreeObject → ℕ → DiskBlock} (moves : List (ℕ × TreeReloc))
    (hholds : Library.Places.Holds place content st.disk st.bitmap)
    (hlist : st.dedupLba ≠ 0 → place (some .list) st.dedupLba) :
    (TreeState.updateTreeList moves st).treeLbas = st.treeLbas ∧
      (TreeState.updateTreeList moves st).userIndexes = st.userIndexes ∧
      (TreeState.updateTreeList moves st).relocs = st.relocs ∧
      (TreeState.updateTreeList moves st).listEntries =
        st.listEntries.map (TreeState.movedEntry moves) ∧
      ∃ content', Library.Places.Holds place content' (TreeState.updateTreeList moves st).disk
          (TreeState.updateTreeList moves st).bitmap ∧ ∀ o ≠ some .list, content' o = content o := by
  by_cases hdedup : st.dedupLba = 0
  · have hsame : TreeState.updateTreeList moves st = st := if_pos hdedup
    have hentries : st.listEntries = [] := if_pos hdedup
    rw [hsame, hentries]
    exact ⟨rfl, rfl, rfl, rfl, content, hholds, fun _ _ ↦ rfl⟩
  · unfold TreeState.updateTreeList
    rw [if_neg hdedup]
    cases hcontent : (st.disk st.dedupLba).content with
    | treeList entries =>
      dsimp only
      have hentries : st.listEntries = entries := by
        rw [TreeState.listEntries, if_neg hdedup, hcontent]
      refine ⟨rfl, rfl, rfl, ?_, Function.update content (some .list) (fill st.dedupLba 1
        ⟨none, .treeList (entries.map (TreeState.movedEntry moves))⟩ (content (some .list))), ?_,
        fun o ho ↦ Function.update_of_ne ho _ _⟩
      · rw [hentries, TreeState.listEntries, if_neg hdedup]
        dsimp only
        rw [fill_in ⟨le_rfl, Nat.lt_succ_self _⟩]
      · refine hholds.write (fun a ha ↦ ?_) fun a ha ↦ fill_out fun hin ↦ ha ?_
        · by_cases hin : InRun st.dedupLba 1 a
          · rw [fill_in hin, fill_in hin]
          · rw [fill_out hin, fill_out hin, hholds.holds _ _ ha]
        · obtain rfl : a = st.dedupLba := by
            obtain ⟨hle, hlt⟩ := hin
            omega
          exact hlist hdedup
    | words _ | treeHeader _ _ _ _ | piece _ _ =>
      have hentries : st.listEntries = [] := by
        rw [TreeState.listEntries, if_neg hdedup, hcontent]
      rw [hentries]
      exact ⟨rfl, rfl, rfl, rfl, content, hholds, fun _ _ ↦ rfl⟩

/-- The new address of the header of each named tree. -/
theorem treeLba_after {moves : List (ℕ × TreeReloc)} {final : TreeState}
    (hmoves : HeaderMoves st.treeLba moves) (htrees : TreesConsistent st)
    (hfields : st'.treeLbas = st.treeLbas)
    (hfinal : final.treeLbas = (TreeState.updateSuperblock moves st').treeLbas)
    (husers : final.userIndexes = st.userIndexes)
    (hentries : final.listEntries = st.listEntries.map (TreeState.movedEntry moves))
    {name : TreeName} (hname : st.treeLba name ≠ 0) :
    (∀ m ∈ moves, m.2.name = name → final.treeLba name = m.2.hdrLba) ∧
      ((∀ m ∈ moves, m.2.name ≠ name) → final.treeLba name = st.treeLba name) := by
  have hinj (name name' : TreeName) (hne : st.treeLba name ≠ 0)
      (heq : st.treeLba name = st.treeLba name') : name = name' := by
    have hapart := htrees.apart (.header name) (.header name') (st.treeLba name) ⟨hne, rfl⟩
      ⟨heq ▸ hne, heq⟩
    exact TreeObject.header.inj hapart
  cases name with
  | field field =>
    have hfinal' : final.treeLba (.field field) =
        (TreeState.updateSuperblock moves st').treeLbas field := congrFun hfinal field
    have hst' : st'.treeLbas field = st.treeLba (.field field) := congrFun hfields field
    rw [hfinal', ← hst']
    refine updateSuperblock_spec hmoves (fun m hm field' heq ↦ ?_) (fun m hm field' heq ↦ ?_) field
    · obtain ⟨hold, hne⟩ := hmoves.old m hm
      rw [hfields, hold] at heq
      exact hinj _ _ (hold ▸ hne) heq.symm
    · rw [hfields, (hmoves.old m hm).1, heq]
      rfl
  | userIndex i =>
    have hfinal' : final.treeLba (.userIndex i) = st.treeLba (.userIndex i) := by
      rw [TreeState.treeLba, husers, TreeState.treeLba]
    refine ⟨fun m hm heq ↦ ?_, fun _ ↦ hfinal'⟩
    by_contra hne
    have hold := (hmoves.old m hm).1
    rw [heq, ← hfinal'] at hold
    have hfollowed := (hmoves.moved m hm (hold ▸ hne)).2
    rw [heq] at hfollowed
    exact hfollowed
  | entry i =>
    cases he : st.listEntries[i]? with
    | none =>
      have hzero : st.treeLba (.entry i) = 0 := by rw [TreeState.treeLba, he]; rfl
      exact absurd hzero hname
    | some e =>
      have hentry : st.treeLba (.entry i) = e.treeLba := by rw [TreeState.treeLba, he]; rfl
      have hfinal' : final.treeLba (.entry i) = (TreeState.movedEntry moves e).treeLba := by
        rw [TreeState.treeLba, hentries, List.getElem?_map, he]
        rfl
      rw [hfinal', hentry]
      exact movedEntry_spec hmoves hentry.symm hinj

/-- The phase keeps the trees and all else in use, if its writes are clear. -/
theorem trees_preserved (hst : Consistent dedup refcount st.toCompactState)
    (htrees : TreesConsistent st) (hclear : TreesClear dedup fuel st)
    (hrun : st.compactTrees fuel = some st') : TreesPreserved dedup st st' := by
  obtain ⟨trees, hcollect, hrest⟩ := Option.bind_eq_some_iff.mp hrun
  obtain ⟨evicted, hevict, hfinal⟩ := Option.map_eq_some_iff.mp hrest
  obtain ⟨hclears, hwrites, hfollowed⟩ := hclear trees evicted hcollect hevict
  obtain ⟨hevicted, hkeeps⟩ := evictDestination_spec hst hclears hevict
  obtain ⟨hholds, hzero⟩ := place_holds hst htrees hevicted hkeeps
  obtain ⟨trees', st₄, place, content, ⟨hheaders, hnodes⟩, hphase⟩ :=
    phase_run (st.treesStart trees + st.blocksNeeded trees) hcollect hholds hzero htrees.total_pos
      hkeeps hwrites hfollowed
  simp only [hheaders] at hnodes hfinal
  simp only [hnodes, if_true] at hfinal
  generalize hmoves : (trees.map TreeReloc.hdrLba).zip trees' = moves at hfinal hphase
  obtain ⟨hcompact, hdedupLba, husers⟩ := updateSuperblock_other st₄ moves
  have hholds₅ : Library.Places.Holds place content (TreeState.updateSuperblock moves st₄).disk
      (TreeState.updateSuperblock moves st₄).bitmap := by
    rw [hcompact]
    exact hphase.holds
  obtain ⟨hfields', husers', hrelocs', hentries', content', hholds', hcontent'⟩ :=
    updateTreeList_spec moves hholds₅ fun hne ↦ by
      rw [hdedupLba] at hne ⊢
      exact hphase.list (mt hphase.noList.mpr hne)
  rw [hfinal] at hfields' husers' hrelocs' hentries' hholds'
  have hentries : st'.listEntries = st.listEntries.map (TreeState.movedEntry moves) := by
    rw [hentries']
    refine congrArg _ ?_
    unfold TreeState.listEntries
    by_cases hne : st.dedupLba = 0
    · rw [if_pos hne, if_pos (hdedupLba.trans (hphase.noList.mpr hne))]
    · rw [if_neg hne, if_neg (hdedupLba ▸ mt hphase.noList.mp hne), hcompact, hdedupLba,
        hphase.holds.holds _ _ (hphase.list hne), hphase.listBlock]
  have haddress {name : TreeName} (hname : st.treeLba name ≠ 0) :=
    treeLba_after hphase.headers htrees hphase.treeLbas hfields' (husers'.trans
      (husers.trans hphase.userIndexes)) hentries hname
  have hat {o : Option TreeObject} {lba : ℕ} (ho : o ≠ some .list) (hlba : place o lba) :
      st'.disk lba = content o lba ∧ st'.bitmap lba = true := by
    rw [hholds'.holds o lba hlba, hcontent' o ho]
    exact ⟨rfl, hholds'.marked o lba hlba⟩
  refine ⟨fun name hname ↦ ?_, fun lba hlt hfree hdedup hother ↦ ?_, fun d hd b hb ↦ ?_⟩
  · by_cases hmoved : ∃ m ∈ moves, m.2.nodeLbas ≠ [] ∧ m.2.name = name
    · obtain ⟨m, hm, hne, rfl⟩ := hmoved
      obtain ⟨hnodes', root, freeNode, freeNodes, fields, hheader, dst, hrelocated⟩ :=
        hphase.relocated m hm hne
      have hblock (n : ℕ) (hn : n ∈ m.2.nodeLbas) (b : ℕ) (hb : b < m.2.blocksPerNode) :
          st'.disk (m.2.mapLookup dst n + b) = (st.disk (n + b)).rename (m.2.mapLookup dst) b ∧
            st'.bitmap (m.2.mapLookup dst n + b) = true := by
        obtain ⟨hplace, hcontent⟩ := hrelocated.nodes n hn b hb
        obtain ⟨hdisk, hbitmap⟩ := hat (by simp) hplace
        exact ⟨hdisk.trans hcontent, hbitmap⟩
      obtain ⟨hdiskHeader, hbitmapHeader⟩ := hat (by simp) hrelocated.header
      rw [(haddress hname).1 m hm rfl]
      refine ⟨m.2.nodeLbas, m.2.mapLookup dst, Renamed.of_blocks (blocksPerNode_pos _) hnodes'
        (mapLookup_of_not_mem dst hnodes'.ne_zero) hrelocated.ne_zero ?_ hheader ?_
        (fun n hn b hb ↦ (hblock n hn b hb).1), hbitmapHeader, ?_⟩
      · intro n hn n' hn' heq
        obtain ⟨i, hi, rfl, hlookup⟩ := mapLookup_mem dst hn
        obtain ⟨i', hi', rfl, hlookup'⟩ := mapLookup_mem dst hn'
        have hindex : i = i' := by
          have hpos : 0 < m.2.blocksPerNode := blocksPerNode_pos m.2.name
          exact Nat.eq_of_mul_eq_mul_right hpos (by omega)
        subst hindex
        rfl
      · rw [hdiskHeader]
        exact hrelocated.block
      · rintro lba ⟨_, hn, hin⟩
        obtain ⟨n, hnode, rfl⟩ := List.mem_map.mp hn
        obtain ⟨b, hb, rfl⟩ := hin.exists_add
        exact (hblock n hnode b hb).2
    · have hstays (m : ℕ × TreeReloc) (hm : m ∈ moves) (hne : m.2.nodeLbas ≠ []) :
          m.2.name ≠ name := fun heq ↦ hmoved ⟨m, hm, hne, heq⟩
      have hsame : st'.treeLba name = st.treeLba name := by
        by_cases hadded : ∃ m ∈ moves, m.2.name = name
        · obtain ⟨m, hm, rfl⟩ := hadded
          rw [(haddress hname).1 m hm rfl, ← (hphase.headers.old m hm).1]
          by_contra hne
          exact hstays m hm (hphase.headers.moved m hm (Ne.symm hne)).1 rfl
        · exact (haddress hname).2 fun m hm heq ↦ hadded ⟨m, hm, heq⟩
      obtain ⟨hplaceHeader, hcontentHeader⟩ := hphase.stayed name hstays _ (Or.inl rfl)
      obtain ⟨hplaceNodes, hcontentNodes⟩ := hphase.stayed name hstays _ (Or.inr rfl)
      obtain ⟨nodes, hnodes'⟩ := htrees.nodes name hname
      have hheader : st'.disk (st.treeLba name) = st.disk (st.treeLba name) ∧
          st'.bitmap (st.treeLba name) = true := by
        have hplace : place (some (.header name)) (st.treeLba name) := by
          rw [hplaceHeader]
          exact ⟨hname, rfl⟩
        have hdisk := hat (by simp) hplace
        rwa [hcontentHeader] at hdisk
      have hblock (lba : ℕ) (hlba : NodeBlocks name.blocksPerNode nodes lba) :
          st'.disk lba = st.disk lba ∧ st'.bitmap lba = true := by
        have hplace : place (some (.nodes name)) lba := by
          rw [hplaceNodes]
          exact ⟨hname, nodes, hnodes', hlba⟩
        have hdisk := hat (by simp) hplace
        rwa [hcontentNodes] at hdisk
      rw [hsame]
      refine ⟨nodes, id, Renamed.unchanged (blocksPerNode_pos name) hnodes' hheader.1
        (fun n hn b hb ↦ (hblock _ ⟨n, hn, inRun_add hb⟩).1), hheader.2, fun lba hlba ↦ ?_⟩
      rw [List.map_id] at hlba
      exact (hblock lba hlba).2
  · obtain ⟨hdisk, -, htype⟩ := hkeeps.others lba hfree hdedup
    have hplace : place none lba := by
      rw [hphase.others.1]
      exact ⟨hlt, htype.symm ▸ hfree, hother⟩
    obtain ⟨hdisk', hbitmap'⟩ := hat (by simp) hplace
    rw [hphase.others.2] at hdisk'
    exact ⟨hdisk'.trans hdisk, hbitmap'⟩
  · have hmoved : st'.addressOf d = evicted.addressOf d := by
      rw [CompactState.addressOf, hrelocs', hcompact, hphase.relocs, CompactState.addressOf]
    obtain ⟨hlt, htype⟩ := hevicted.home d hd _ (inRun_add hb)
    have hplace : place none (evicted.addressOf d + b) := by
      rw [hphase.others.1]
      refine ⟨hkeeps.total ▸ hlt, ?_, fun o ho ↦ ?_⟩
      · rw [htype]
        exact BlockType.noConfusion
      · obtain ⟨-, hfree, hdedup⟩ := htrees.inUse o _ ho
        rw [(hkeeps.others _ hfree hdedup).2.2] at htype
        exact hdedup htype
    obtain ⟨hdisk', hbitmap'⟩ := hat (by simp) hplace
    rw [hphase.others.2] at hdisk'
    rw [hmoved]
    exact ⟨hdisk'.trans (hkeeps.dedup d hd b hb), hbitmap'⟩

end Phase

/-! ### A volume with one tree -/

/-- A volume with one tree that a field of the superblock names, of one node in the blocks from 5 on,
and a dedup block near the end. -/
def oneTreeVolume (field : TreeField) : TreeState where
  blockSize := 512
  totalBlocks := 32
  disk lba :=
    if lba = 3 then ⟨none, .treeHeader 5 0 0 []⟩
    else if 5 ≤ lba ∧ lba < 13 then ⟨none, .piece (.node 0 0 0 [] [7]) (lba - 5)⟩
    else if lba = 30 then ⟨some ⟨false, 100, 0⟩, .words [1]⟩
    else ⟨none, .words [lba]⟩
  bitmap lba := lba = 0 ∨ lba = 3 ∨ (5 ≤ lba ∧ lba < 13) ∨ 30 ≤ lba
  blockTypes lba :=
    if lba = 0 ∨ 31 ≤ lba then .metadata
    else if lba = 3 ∨ (5 ≤ lba ∧ lba < 13) then .tree
    else if lba = 30 then .dedup else .free
  writeCursor := 0
  rangeCursor := 0
  relocs := []
  inodes := []
  overflow := []
  treeLbas f := if f = field then 3 else 0
  dedupLba := 0
  userIndexes := []
  treeRelocs := []

theorem oneTreeVolume_consistent (field : TreeField) :
    Consistent [⟨30, 1⟩] (fun _ ↦ 1) (oneTreeVolume field).toCompactState where
  blockSize_pos := Nat.succ_pos 511
  superblock := rfl
  marked := by
    have hall : ∀ lba < 32, (oneTreeVolume .catalog).bitmap lba = false ↔
        (oneTreeVolume .catalog).blockTypes lba = .free := by decide
    exact hall
  extents := by
    intro slot e hrun
    cases slot <;> cases hrun
  shared := by
    intro lba
    refine iff_of_false (fun h ↦ h rfl) ?_
    rintro ⟨slot, -, e, -, -, hrun, -⟩
    cases slot <;> cases hrun
  home := by
    intro d hd lba hlba
    obtain rfl := List.mem_singleton.mp hd
    obtain rfl : lba = 30 := le_antisymm (Nat.lt_succ_iff.mp hlba.2) hlba.1
    exact ⟨Nat.lt_of_sub_pos (Nat.succ_pos _), rfl⟩
  header := by
    intro d hd
    obtain rfl := List.mem_singleton.mp hd
    have hblocks : physBlocks 512 ⟨false, 100, 0⟩ ≤ 1 := by decide
    exact ⟨⟨false, 100, 0⟩, rfl, hblocks⟩
  apart := by
    intro d hd d' hd' _ _ _
    rw [List.mem_singleton.mp hd, List.mem_singleton.mp hd']
  live := by
    intro lba hlba
    refine ⟨⟨30, 1⟩, List.mem_singleton_self _, ?_⟩
    simp only [oneTreeVolume] at hlba
    split_ifs at hlba with _ _ hlast
    subst hlast
    exact ⟨le_rfl, Nat.lt_succ_self 30⟩

variable {field : TreeField}

theorem oneTreeVolume_treeLba {name : TreeName} (hname : (oneTreeVolume field).treeLba name ≠ 0) :
    name = .field field ∧ (oneTreeVolume field).treeLba name = 3 := by
  cases name with
  | field f =>
    by_cases hf : f = field
    · rw [hf]
      exact ⟨rfl, if_pos rfl⟩
    · exact absurd (if_neg hf) hname
  | userIndex i => exact absurd rfl hname
  | entry i => exact absurd rfl hname

theorem oneTreeVolume_nodes (field : TreeField) : TreeNodes (oneTreeVolume field).disk 3 [5] :=
  ⟨3, 5, 0, 0, [], [5], [], rfl, rfl, rfl, rfl⟩

/-- The blocks of the tree. -/
theorem oneTreeVolume_place {o : TreeObject} {lba : ℕ} (ho : (oneTreeVolume field).treePlace o lba)
    :
    (o = .header (.field field) ∧ lba = 3) ∨
      (o = .nodes (.field field) ∧ 5 ≤ lba ∧ lba < 5 + (TreeName.field field).blocksPerNode) := by
  cases o with
  | list => exact absurd rfl ho.1
  | header name =>
    obtain ⟨rfl, hlba⟩ := oneTreeVolume_treeLba ho.1
    exact Or.inl ⟨rfl, ho.2.trans hlba⟩
  | nodes name =>
    obtain ⟨hne, nodes, hnodes, n, hn, hin⟩ := ho
    obtain ⟨rfl, hlba⟩ := oneTreeVolume_treeLba hne
    rw [hlba] at hnodes
    rw [hnodes.unique (oneTreeVolume_nodes field), List.mem_singleton] at hn
    subst hn
    exact Or.inr ⟨rfl, hin⟩

theorem oneTreeVolume_trees (field : TreeField) : TreesConsistent (oneTreeVolume field) where
  total_pos := Nat.succ_pos 31
  nodes := by
    intro name hname
    rw [(oneTreeVolume_treeLba hname).2]
    exact ⟨[5], oneTreeVolume_nodes field⟩
  apart := by
    intro o o' lba ho ho'
    rcases oneTreeVolume_place ho with ⟨rfl, hlba⟩ | ⟨rfl, hlba, -⟩ <;>
      rcases oneTreeVolume_place ho' with ⟨rfl, hlba'⟩ | ⟨rfl, hlba', -⟩
    · rfl
    · omega
    · omega
    · rfl
  inUse := by
    intro o lba ho
    have hall : ∀ lba < 32, (lba = 3 ∨ (5 ≤ lba ∧ lba < 13)) →
        (oneTreeVolume .catalog).blockTypes lba ≠ .free ∧
          (oneTreeVolume .catalog).blockTypes lba ≠ .dedup := by decide
    have hsize : (TreeName.field field).blocksPerNode ≤ 8 := by cases field <;> decide
    have hlba : lba < 32 ∧ (lba = 3 ∨ (5 ≤ lba ∧ lba < 13)) := by
      rcases oneTreeVolume_place ho with ⟨-, hlba⟩ | ⟨-, hle, hlt⟩ <;> omega
    exact ⟨hlba.1, hall lba hlba.1 hlba.2⟩

theorem oneTreeVolume_catalog_preserved :
    ∃ st', (oneTreeVolume .catalog).compactTrees 8 = some st' ∧
      TreesPreserved [⟨30, 1⟩] (oneTreeVolume .catalog) st' := by
  have hclear : TreesClear [⟨30, 1⟩] 8 (oneTreeVolume .catalog) := by
    intro trees evicted hcollect start finish hevict
    obtain rfl : [⟨.field .catalog, 3, [5]⟩] = trees := Option.some.inj hcollect
    have hplanned : plannedWrites [⟨.field .catalog, 3, [5]⟩] 29 (oneTreeVolume .catalog) =
        [⟨.header (.field .catalog), [3], 1, 29⟩, ⟨.nodes (.field .catalog), [5], 1, 30⟩] := rfl
    -- What stands at the end of the volume is the dedup block in front of the range.
    have hvacant (lba : ℕ) (hlba : lba = 29 ∨ lba = 30) (o : Option TreeObject) :
        ¬(oneTreeVolume .catalog).place evicted o lba := by
      have hfree : evicted.blockTypes lba = .free := by
        rw [← Option.some.inj hevict]
        rcases hlba with rfl | rfl <;> rfl
      cases o with
      | none => exact fun ho ↦ ho.2.1 hfree
      | some o =>
        intro ho
        have hsize : (TreeName.field .catalog).blocksPerNode = 1 := rfl
        rcases oneTreeVolume_place ho with ⟨-, hold⟩ | ⟨-, hle, hlt⟩ <;> omega
    refine ⟨?_, ?_, ?_⟩
    · intro header hheader
      obtain rfl : ⟨false, 100, 0⟩ = header := Option.some.inj hheader
      refine ⟨fun d hd _ ↦ ?_, 28, rfl, by decide, trivial⟩
      rw [List.mem_singleton.mp hd]
      rfl
    · change WritesClear 32 (plannedWrites _ 29 _) _
      rw [hplanned]
      refine ⟨⟨fun lba hlba ↦ ?_, fun n hn _ ↦ ?_⟩, ⟨fun lba hlba ↦ ?_, fun n hn _ ↦ ?_⟩, trivial⟩
      · obtain ⟨hle, hlt⟩ : 29 ≤ lba ∧ lba < 29 + 1 := hlba
        exact ⟨by omega, fun o _ ↦ hvacant lba (by omega) o⟩
      · rw [List.mem_singleton.mp hn]
        decide
      · obtain ⟨hle, hlt⟩ : 30 ≤ lba ∧ lba < 30 + 1 := hlba
        refine ⟨by omega, fun o _ ho ↦ ?_⟩
        by_cases hheader : o = some (.header (.field .catalog))
        · subst hheader
          obtain ⟨hle', hlt'⟩ : 29 ≤ lba ∧ lba < 29 + 1 := ho
          omega
        · rw [placesAfter_of_not_mem] at ho
          · exact hvacant lba (by omega) o ho
          · intro w hw
            rwa [List.mem_singleton.mp hw]
      · rw [List.mem_singleton.mp hn]
        decide
    · change ∀ w ∈ plannedWrites _ 29 _, _
      rw [hplanned]
      intro w hw name hname
      simp only [List.mem_cons, List.not_mem_nil, or_false] at hw
      rcases hw with rfl | rfl
      · rw [← TreeObject.header.inj hname]
        exact List.mem_cons_self
      · cases hname
  exact ⟨_, rfl, trees_preserved (oneTreeVolume_consistent .catalog) (oneTreeVolume_trees .catalog)
    hclear rfl⟩

/-- The header of the numeric index is moved, and the superblock names the block that it has left. -/
theorem oneTreeVolume_numeric_lost :
    Consistent [⟨30, 1⟩] (fun _ ↦ 1) (oneTreeVolume .metadataNumericIdx).toCompactState ∧
      TreesConsistent (oneTreeVolume .metadataNumericIdx) ∧
      ∃ st', (oneTreeVolume .metadataNumericIdx).compactTrees 20 = some st' ∧
        ¬TreesPreserved [⟨30, 1⟩] (oneTreeVolume .metadataNumericIdx) st' := by
  refine ⟨oneTreeVolume_consistent .metadataNumericIdx, oneTreeVolume_trees .metadataNumericIdx, _,
    rfl, fun hpreserved ↦ ?_⟩
  obtain ⟨nodes, ρ, -, hmarked, -⟩ := hpreserved.trees (.field .metadataNumericIdx) (by decide)
  exact absurd hmarked (by decide)

end Obmafs3.Defrag
