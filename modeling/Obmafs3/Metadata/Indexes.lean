import Obmafs3.Metadata.Store

/-!
# The indexes mirror the metadata

Every index holds what its rule makes of the records of the metadata tree. One call takes old
entries out and puts new ones in, tree by tree, so the indexes are true to the records between two
calls as long as no call is stopped half way. `CarefulCall` says which calls are not, from the
state they find and the answers of the allocator: every tree gets the nodes it asks for, or the
first of all is refused the first node and nothing has happened yet.
-/

set_option autoImplicit false

namespace Obmafs3

open Library.Search Library.SearchTree Library.SecondaryIndex

/-! ### What the indexes are to hold -/

/-- What the index of one key has of a record. -/
def userEntry (key : Text) (r : MetadataRecord) : Option MetadataNumericIdxRecord :=
  if r.key = key then r.idx.numeric else none

/-- What the index for strings of one key has of a record. -/
def userStringEntry (key : Text) (r : MetadataRecord) : Option MetadataIdxRecord :=
  if r.key = key then some r.idx else none

/-- A user index holds the entries of its key: the whole numbers, or all values if it is one for
strings. -/
def UserIndex.Holds (rs : List MetadataRecord) (u : UserIndex) : Prop :=
  match u.tree with
  | .numeric tree => Mirrors (userEntry u.key) rs tree.records
  | .string tree => Mirrors (userStringEntry u.key) rs tree.records

/-- The reverse index, the numeric index if there is one and all user indexes hold exactly the
entries of the records of the metadata tree. -/
structure MetadataStore.Consistent (s : MetadataStore) : Prop where
  midx : Mirrors (fun r ↦ some r.idx) s.metaTree.records s.midxTree.records
  numeric : ∀ tree, s.numTree = some tree →
    Mirrors (fun r ↦ r.idx.numeric) s.metaTree.records tree.records
  user : ∀ u ∈ s.userIndexes, u.Holds s.metaTree.records

/-! ### Calls that run to their end -/

section Trees

variable {κ ρ : Type} [LinearOrder κ] (kind : IndexKind κ ρ) (blockSize : ℕ)

/-- An insertion that is granted every node, where the separators of divided nodes separate. -/
structure IndexKind.Fits (fresh : ℕ → Option ℕ) (r : ρ) (tree : Root ℕ κ ρ) : Prop where
  depth : tree.height ≤ metadataBtreeMaxDepth
  safe : tree.Safe kind.order (kind.leafMaxKeys blockSize) (kind.indexMaxKeys blockSize) r
  granted : ∀ level < tree.demand kind.order (kind.leafMaxKeys blockSize)
    (kind.indexMaxKeys blockSize) r, fresh level ≠ none

/-- An insertion that stops before it has changed anything. -/
def IndexKind.StopsAtOnce (fresh : ℕ → Option ℕ) (r : ρ) (tree : Root ℕ κ ρ) : Prop :=
  metadataBtreeMaxDepth < tree.height ∨
    0 < tree.demand kind.order (kind.leafMaxKeys blockSize) (kind.indexMaxKeys blockSize) r ∧
      fresh 0 = none

/-- A removal that leaves a way through every index node. -/
structure IndexKind.Drops (k : κ) (tree : Root ℕ κ ρ) : Prop where
  depth : tree.height ≤ metadataBtreeMaxDepth
  unstranded : tree.Unstranded kind.order k

end Trees

/-- The entries of a record can be taken out of every index. -/
structure ForgetFits (r : MetadataIdxRecord) (s : MetadataStore) : Prop where
  midx : midxKind.Drops r.order s.midxTree
  numeric : ∀ entry, r.numeric = some entry → ∀ tree, s.numTree = some tree →
    numidxKind.Drops entry.order tree
  user : ∀ entry, r.numeric = some entry → ∀ u ∈ s.userIndexes, u.key = r.key →
    ∀ tree, u.tree = .numeric tree → numidxKind.Drops entry.order tree

/-- The entries of a record can be put in every index, and no index of its key is for strings. -/
structure NoteFits (grants : PutGrants) (r : MetadataIdxRecord) (s : MetadataStore) : Prop where
  midx : midxKind.Fits s.blockSize grants.forMidx r s.midxTree
  numeric : ∀ entry, r.numeric = some entry → ∀ tree, s.numTree = some tree →
    numidxKind.Fits s.blockSize grants.forNumeric entry tree
  user : ∀ entry, r.numeric = some entry → ∀ u ∈ s.userIndexes, u.key = r.key →
    ∀ tree, u.tree = .numeric tree → numidxKind.Fits s.blockSize grants.forUser entry tree
  noString : ∀ u ∈ s.userIndexes, u.key = r.key → ∀ tree, u.tree ≠ .string tree

/-- The entries for a list of records can be put in a numeric index one after the other. -/
def PopulateFits (blockSize : ℕ) (nodes : ℕ → ℕ → Option ℕ) :
    ℕ → List MetadataIdxRecord → NumidxTree → Prop
  | _, [], _ => True
  | i, r :: rs, tree =>
    (∀ entry, r.numeric = some entry → numidxKind.Fits blockSize (nodes i) entry tree) ∧
      PopulateFits blockSize nodes (i + 1) rs (numidxNote blockSize (nodes i) r tree)

def CarefulPut (inodeId : ℕ) (key value : Text) (grants : PutGrants) (s : MetadataStore) : Prop :=
  match metaTreeLookup s.metaTree inodeId key with
  | none =>
    metaKind.StopsAtOnce s.blockSize grants.forMeta ⟨inodeId, key, value⟩ s.metaTree ∨
      metaKind.Fits s.blockSize grants.forMeta ⟨inodeId, key, value⟩ s.metaTree ∧
        NoteFits grants ⟨key, value, inodeId⟩ s
  | some old =>
    metaKind.Fits s.blockSize grants.forMeta ⟨inodeId, key, value⟩ s.metaTree ∧
      ForgetFits old.idx s ∧ NoteFits grants ⟨key, value, inodeId⟩ (forgetIndexed old.idx s)

def CarefulDelete (inodeId : ℕ) (key : Text) (s : MetadataStore) : Prop :=
  ∀ r, metaTreeLookup s.metaTree inodeId key = some r → metadataBtreeMaxDepth < s.metaTree.height ∨
      metaKind.Drops (toLex (inodeId, key)) s.metaTree ∧ ForgetFits r.idx s

def CarefulRounds (inodeId : ℕ) : ℕ → MetadataStore → Prop
  | 0, _ => True
  | fuel + 1, s =>
    match metadataList inodeId s with
    | [] => True
    | key :: _ =>
      CarefulDelete inodeId key s ∧ CarefulRounds inodeId fuel (metadataDelete inodeId key s).2

/-- A new index: the registry has room for it and the scan starts at or before the first record of
the key, or there is nothing to put in it. -/
def CarefulCreate (key : Text) (valueType : ℕ) (grants : CreateGrants) (s : MetadataStore) : Prop :=
  userIndexFind key s.userIndexes = none → grants.header = true → key.length ≤ 255 ∧
      if valueType = userIndexNumeric then
        if grants.registry = false then
          ∀ r ∈ s.metaTree.records, r.key = key → r.idx.numeric = none
        else
          (∀ r ∈ s.midxTree.records, r.key = key → r.numeric ≠ none →
            r ∈ s.midxTree.recordsFrom (populateSlot key)) ∧
          PopulateFits s.blockSize grants.nodes 0 (populateScan key s.midxTree) .empty
      else ∀ r ∈ s.metaTree.records, r.key ≠ key

def CarefulBuild (header : Bool) (nodes : ℕ → ℕ → Option ℕ) (s : MetadataStore) : Prop :=
  s.numTree ≠ none ∨ header = true →
    PopulateFits s.blockSize nodes 0 s.midxTree.records (s.numTree.getD .empty)

/-- A call that is not stopped half way. -/
def CarefulCall : MetadataCall → MetadataStore → Prop
  | .put inodeId key value grants => CarefulPut inodeId key value grants
  | .delete inodeId key => CarefulDelete inodeId key
  | .deleteAll inodeId => fun s ↦ CarefulRounds inodeId (s.metaTree.records.length + 1) s
  | .createIndex key valueType grants => CarefulCreate key valueType grants
  | .dropIndex _ _ => fun _ ↦ True
  | .buildNumeric header nodes => CarefulBuild header nodes

/-- A run in which no call is stopped half way. -/
def CarefulRun : List MetadataCall → MetadataStore → Prop
  | [], _ => True
  | call :: calls, s => CarefulCall call s ∧ CarefulRun calls (call.run s).2

/-! ### One tree -/

/-- Block sizes that a volume can be made with. -/
def FormattedSize (blockSize : ℕ) : Prop := 512 ≤ blockSize ∧ blockSize ≤ 65536

section Trees

variable {κ ρ : Type} [LinearOrder κ] {kind : IndexKind κ ρ} {blockSize : ℕ}
  {fresh : ℕ → Option ℕ} {r : ρ} {tree : Root ℕ κ ρ}

/-- At least one record and one entry fit in a node. -/
def IndexKind.Roomy (kind : IndexKind κ ρ) : Prop :=
  ∀ blockSize, FormattedSize blockSize →
    1 ≤ kind.leafMaxKeys blockSize ∧ 1 ≤ kind.indexMaxKeys blockSize

theorem IndexKind.Fits.put (hfits : kind.Fits blockSize fresh r tree) (hroomy : kind.Roomy)
    (hsize : FormattedSize blockSize) (hordered : tree.Ordered kind.order) :
    ∃ tree', kind.put blockSize fresh r tree = (none, tree') ∧ tree'.Ordered kind.order ∧
      ∀ q, q ∈ tree'.records ↔ q = r ∨ q ∈ tree.records ∧ kind.order q ≠ kind.order r := by
  obtain ⟨hleafMax, hindexMax⟩ := hroomy blockSize hsize
  have hdone := Root.put_granted hordered.solid hfits.granted
  have hordered' := Root.put_ordered hleafMax hindexMax fresh hordered hfits.safe
  have hmem := fun q ↦ Root.mem_put (q := q) hordered hdone
  rcases hput : tree.put kind.order (kind.leafMaxKeys blockSize) (kind.indexMaxKeys blockSize) fresh
    r with ⟨tree', done⟩
  rw [hput] at hdone hordered' hmem
  obtain rfl : done = true := hdone
  refine ⟨tree', ?_, hordered', hmem⟩
  rw [IndexKind.put, if_neg (not_lt.mpr hfits.depth), hput]

theorem IndexKind.StopsAtOnce.put (hstops : kind.StopsAtOnce blockSize fresh r tree) :
    ∃ e, kind.put blockSize fresh r tree = (some e, tree) := by
  rcases hstops with hdepth | ⟨hneed, hnone⟩
  · exact ⟨.inval, by rw [IndexKind.put, if_pos hdepth]⟩
  · rw [IndexKind.put]
    split_ifs with hdepth
    · exact ⟨.inval, rfl⟩
    · exact ⟨.noSpc, by rw [Root.put_refused_first hneed hnone]⟩

theorem IndexKind.Drops.delete {k : κ} (hdrops : kind.Drops k tree)
    (hordered : tree.Ordered kind.order) :
    (kind.delete k tree).2.Ordered kind.order ∧
      ∀ q, q ∈ (kind.delete k tree).2.records ↔ q ∈ tree.records ∧ kind.order q ≠ k := by
  have hordered' := Root.delete_ordered hordered hdrops.unstranded
  have hmem := fun q ↦ Root.mem_delete (k := k) (q := q) hordered
  rw [IndexKind.delete, if_neg (not_lt.mpr hdrops.depth)]
  rcases hdelete : tree.delete kind.order k with ⟨tree', found⟩
  rw [hdelete] at hordered' hmem
  cases found <;> exact ⟨hordered', hmem⟩

theorem IndexKind.Drops.found {k : κ} (hdrops : kind.Drops k tree)
    (hfound : tree.lookup kind.order k ≠ none) : (kind.delete k tree).1 = none := by
  rw [IndexKind.delete, if_neg (not_lt.mpr hdrops.depth)]
  have htrue := Root.delete_found hfound
  rcases hdelete : tree.delete kind.order k with ⟨tree', found⟩
  rw [hdelete] at htrue
  obtain rfl : found = true := htrue
  rfl

end Trees

/-- Items that fit in a node of the smallest blocks, and that are not too many in one of the largest. -/
theorem maxKeys_metaNodeSize {blockSize itemSize : ℕ} (hsize : FormattedSize blockSize)
    (hmin : 8 ≤ itemSize) (hmax : itemSize ≤ 4026) :
    1 ≤ maxKeys (metaNodeSize blockSize) itemSize := by
  obtain ⟨hsmall, hlarge⟩ := hsize
  refine one_le_maxKeys (by omega) ?_ ?_
  · rw [btreeNodeHeaderSize, metaNodeSize]
    omega
  · rw [metaNodeSize]
    omega

theorem metaKind_roomy : metaKind.Roomy := fun _ hsize ↦
  ⟨maxKeys_metaNodeSize hsize (by decide) (by decide),
    maxKeys_metaNodeSize hsize (by decide) (by decide)⟩

theorem midxKind_roomy : midxKind.Roomy := fun _ hsize ↦
  ⟨maxKeys_metaNodeSize hsize (by decide) (by decide),
    maxKeys_metaNodeSize hsize (by decide) (by decide)⟩

theorem numidxKind_roomy : numidxKind.Roomy := fun _ hsize ↦
  ⟨maxKeys_metaNodeSize hsize (by decide) (by decide),
    maxKeys_metaNodeSize hsize (by decide) (by decide)⟩

theorem MetadataIdxRecord.order_injective {r q : MetadataIdxRecord} :
    r.order = q.order ↔ r = q := by
  cases r
  cases q
  simp [MetadataIdxRecord.order]

theorem MetadataNumericIdxRecord.order_injective {r q : MetadataNumericIdxRecord} :
    r.order = q.order ↔ r = q := by
  cases r
  cases q
  simp [MetadataNumericIdxRecord.order]

variable {entry : MetadataNumericIdxRecord} {r q : MetadataRecord} {s : MetadataStore}
  {u : UserIndex}

theorem numeric_eq_some {r : MetadataIdxRecord} : r.numeric = some entry ↔
      wholeNumber r.value = some entry.value ∧ entry.key = r.key ∧ entry.inodeId = r.inodeId := by
  obtain ⟨key, n, inodeId⟩ := entry
  simp only [MetadataIdxRecord.numeric, Option.map_eq_some_iff, MetadataNumericIdxRecord.mk.injEq]
  constructor
  · rintro ⟨m, hm, rfl, rfl, rfl⟩
    exact ⟨hm, rfl, rfl⟩
  · rintro ⟨hn, rfl, rfl⟩
    exact ⟨n, hn, rfl, rfl, rfl⟩

/-- Two records with one entry in a numeric index are the same key of the same inode. -/
theorem order_of_numeric (hr : r.idx.numeric = some entry) (hq : q.idx.numeric = some entry) :
    r.order = q.order := by
  obtain ⟨-, hkey, hinode⟩ := numeric_eq_some.mp hr
  obtain ⟨-, hkey', hinode'⟩ := numeric_eq_some.mp hq
  have hkeys : r.key = q.key := hkey.symm.trans hkey'
  have hinodes : r.inodeId = q.inodeId := hinode.symm.trans hinode'
  rw [MetadataRecord.order, MetadataRecord.order, hkeys, hinodes]

section Numeric

variable {blockSize : ℕ} {fresh : ℕ → Option ℕ} {r : MetadataIdxRecord} {tree : NumidxTree}

theorem numidxNote_spec (hsize : FormattedSize blockSize)
    (hordered : tree.Ordered MetadataNumericIdxRecord.order)
    (hfits : ∀ entry, r.numeric = some entry → numidxKind.Fits blockSize fresh entry tree) :
    (numidxNote blockSize fresh r tree).Ordered MetadataNumericIdxRecord.order ∧
      ∀ x, x ∈ (numidxNote blockSize fresh r tree).records ↔
        r.numeric = some x ∨ x ∈ tree.records := by
  cases hnumeric : r.numeric with
  | none => simpa [numidxNote, hnumeric] using hordered
  | some entry =>
    obtain ⟨tree', hput, hordered', hmem⟩ :=
      (hfits entry hnumeric).put numidxKind_roomy hsize hordered
    have hrun : numidxNote blockSize fresh r tree = tree' := by
      simp only [numidxNote, hnumeric, numidxPut, hput]
    rw [hrun]
    refine ⟨hordered', fun x ↦ ?_⟩
    rw [hmem, Option.some_inj, eq_comm]
    refine or_congr_right' fun hne ↦ and_iff_left fun heq ↦ hne ?_
    exact (MetadataNumericIdxRecord.order_injective.mp heq).symm

theorem numidxForget_spec (hordered : tree.Ordered MetadataNumericIdxRecord.order)
    (hdrops : ∀ entry, r.numeric = some entry → numidxKind.Drops entry.order tree) :
    (numidxForget r tree).Ordered MetadataNumericIdxRecord.order ∧
      ∀ x, x ∈ (numidxForget r tree).records ↔ x ∈ tree.records ∧ r.numeric ≠ some x := by
  cases hnumeric : r.numeric with
  | none => simpa [numidxForget, hnumeric] using hordered
  | some entry =>
    obtain ⟨hordered', hmem⟩ := (hdrops entry hnumeric).delete hordered
    have hrun : numidxForget r tree = (numidxKind.delete entry.order tree).2 := by
      simp only [numidxForget, hnumeric, numidxDelete]
    rw [hrun]
    refine ⟨hordered', fun x ↦ ?_⟩
    rw [hmem]
    refine and_congr_right' (not_congr ?_)
    rw [Option.some_inj, eq_comm (a := entry)]
    exact MetadataNumericIdxRecord.order_injective

variable {nodes : ℕ → ℕ → Option ℕ} {rs : List MetadataIdxRecord}

variable (hsize : FormattedSize blockSize) (hordered : tree.Ordered MetadataNumericIdxRecord.order)
include hsize hordered

theorem populate_spec {i : ℕ} (hfits : PopulateFits blockSize nodes i rs tree) :
    (populate blockSize nodes i rs tree).Ordered MetadataNumericIdxRecord.order ∧
      ∀ x, x ∈ (populate blockSize nodes i rs tree).records ↔
        (∃ r ∈ rs, r.numeric = some x) ∨ x ∈ tree.records := by
  induction rs generalizing i tree with
  | nil => exact ⟨hordered, fun x ↦ by simp [populate]⟩
  | cons r rs ih =>
    obtain ⟨hfirst, hrest⟩ := hfits
    obtain ⟨hnote, hmem⟩ := numidxNote_spec hsize hordered hfirst
    obtain ⟨hall, hmem'⟩ := ih hnote hrest
    refine ⟨hall, fun x ↦ ?_⟩
    rw [populate, hmem', hmem, List.exists_mem_cons_iff, or_left_comm, or_assoc]

theorem buildEntries_eq {i : ℕ} (hfits : PopulateFits blockSize nodes i rs tree) :
    buildEntries blockSize nodes i rs tree = (none, populate blockSize nodes i rs tree) := by
  induction rs generalizing i tree with
  | nil => rfl
  | cons r rs ih =>
    obtain ⟨hfirst, hrest⟩ := hfits
    obtain ⟨hnote, -⟩ := numidxNote_spec hsize hordered hfirst
    have hnext := ih hnote hrest
    rw [buildEntries, populate]
    cases hnumeric : r.numeric with
    | none =>
      simp only [numidxNote, hnumeric] at hnext ⊢
      exact hnext
    | some entry =>
      obtain ⟨tree', hput, -⟩ := (hfirst entry hnumeric).put numidxKind_roomy hsize hordered
      simp only [numidxNote, hnumeric, numidxPut, hput] at hnext ⊢
      exact hnext

end Numeric

/-! ### The invariant -/

/-- A user index between two calls. One for strings is empty, so its key has no records. -/
def UserIndex.Sound (rs : List MetadataRecord) (u : UserIndex) : Prop :=
  match u.tree with
  | .numeric tree =>
    tree.Ordered MetadataNumericIdxRecord.order ∧ Mirrors (userEntry u.key) rs tree.records
  | .string tree => tree = .empty ∧ ∀ r ∈ rs, r.key ≠ u.key

/-- The indexes mirror a list of records, and their trees are in order. -/
structure Indexed (rs : List MetadataRecord) (s : MetadataStore) : Prop where
  size : FormattedSize s.blockSize
  midxOrdered : s.midxTree.Ordered MetadataIdxRecord.order
  midx : Mirrors (fun r ↦ some r.idx) rs s.midxTree.records
  numericOrdered : ∀ tree, s.numTree = some tree → tree.Ordered MetadataNumericIdxRecord.order
  numeric : ∀ tree, s.numTree = some tree → Mirrors (fun r ↦ r.idx.numeric) rs tree.records
  user : ∀ u ∈ s.userIndexes, u.Sound rs
  distinct : (s.userIndexes.map UserIndex.key).Nodup

/-- What holds between two calls. -/
structure MetadataStore.Sound (s : MetadataStore) : Prop where
  ordered : s.metaTree.Ordered MetadataRecord.order
  indexed : Indexed s.metaTree.records s

theorem UserIndex.Sound.holds {rs : List MetadataRecord} (hsound : u.Sound rs) : u.Holds rs := by
  obtain ⟨key, tree⟩ := u
  cases tree with
  | numeric tree => exact hsound.2
  | string tree =>
    obtain ⟨rfl, hnone⟩ := hsound
    intro x
    refine ⟨fun hx ↦ absurd hx List.not_mem_nil, ?_⟩
    rintro ⟨r, hr, hentry⟩
    rw [userStringEntry, if_neg (hnone r hr)] at hentry
    cases hentry

theorem MetadataStore.Sound.consistent (hsound : s.Sound) : s.Consistent :=
  ⟨hsound.indexed.midx, hsound.indexed.numeric, fun u hu ↦ (hsound.indexed.user u hu).holds⟩

theorem MetadataRecord.key_of_order (horder : r.order = q.order) :
    r.inodeId = q.inodeId ∧ r.key = q.key := by
  simpa [MetadataRecord.order] using horder

variable {key : Text}

theorem userEntry_of_eq {r : MetadataRecord} (heq : r.key = key) :
    userEntry key r = r.idx.numeric := if_pos heq

theorem userEntry_of_ne {r : MetadataRecord} (hne : r.key ≠ key) :
    userEntry key r = none := if_neg hne

/-- An index of another key is not concerned by a record that comes or goes. -/
theorem UserIndex.Sound.other {rs rs' : List MetadataRecord} (hsound : u.Sound rs)
    (hsame : ∀ r, r.key = u.key → (r ∈ rs' ↔ r ∈ rs)) : u.Sound rs' := by
  obtain ⟨key, tree⟩ := u
  cases tree with
  | numeric tree =>
    refine ⟨hsound.1, fun x ↦ (hsound.2 x).trans (exists_congr fun r ↦ and_congr_left fun hr ↦ ?_)⟩
    by_cases hkey : r.key = key
    · exact (hsame r hkey).symm
    · rw [userEntry_of_ne hkey] at hr
      cases hr
  | string tree =>
    exact ⟨hsound.1, fun r hr hkey ↦ hsound.2 r ((hsame r hkey).mp hr) hkey⟩

theorem map_key_onUserIndex (key : Text) (change : NumidxTree → NumidxTree) (us : List UserIndex) :
    (onUserIndex key change us).map UserIndex.key = us.map UserIndex.key := by
  induction us with
  | nil => rfl
  | cons u us ih =>
    rw [onUserIndex]
    split_ifs with hkey
    · cases u.tree <;> rfl
    · rw [List.map_cons, List.map_cons, ih]

/-- What becomes of the user indexes when the one of a key changes. -/
theorem forall_onUserIndex {change : NumidxTree → NumidxTree} {us : List UserIndex}
    {P P' : UserIndex → Prop} (hdistinct : (us.map UserIndex.key).Nodup) (hall : ∀ u ∈ us, P u)
    (hother : ∀ u, u.key ≠ key → P u → P' u)
    (hnumeric : ∀ u ∈ us, u.key = key → ∀ tree, u.tree = .numeric tree → P u →
      P' ⟨u.key, .numeric (change tree)⟩)
    (hstring : ∀ u ∈ us, u.key = key → ∀ tree, u.tree = .string tree → P u → P' u) :
    ∀ u ∈ onUserIndex key change us, P' u := by
  induction us with
  | nil => exact List.forall_mem_nil _
  | cons u us ih =>
    obtain ⟨hfresh, hrest⟩ := List.nodup_cons.mp hdistinct
    obtain ⟨hu, hus⟩ := List.forall_mem_cons.mp hall
    rw [onUserIndex]
    split_ifs with hkey
    · have hothers : ∀ v ∈ us, P' v := fun v hv ↦
        hother v (fun hsame ↦ hfresh (List.mem_map.mpr ⟨v, hv, hsame.trans hkey.symm⟩)) (hus v hv)
      cases htree : u.tree with
      | numeric tree =>
        exact List.forall_mem_cons.mpr ⟨hnumeric u List.mem_cons_self hkey tree htree hu, hothers⟩
      | string tree =>
        exact List.forall_mem_cons.mpr ⟨hstring u List.mem_cons_self hkey tree htree hu, hothers⟩
    · refine List.forall_mem_cons.mpr ⟨hother u hkey hu, ih hrest hus ?_ ?_⟩
      · exact fun v hv ↦ hnumeric v (List.mem_cons_of_mem _ hv)
      · exact fun v hv ↦ hstring v (List.mem_cons_of_mem _ hv)

/-! ### Entries that come and go -/

section Records

variable {rs rs' : List MetadataRecord} {r : MetadataRecord} {s : MetadataStore}

variable (hindexed : Indexed rs s)
include hindexed

theorem Indexed.forget (hfits : ForgetFits r.idx s) (hr : r ∈ rs)
    (honly : ∀ q ∈ rs, q.order = r.order → q = r) (hrs : ∀ q, q ∈ rs' ↔ q ∈ rs ∧ q.order ≠ r.order) :
    Indexed rs' (forgetIndexed r.idx s) := by
  obtain ⟨hmidx, hmemMidx⟩ := hfits.midx.delete hindexed.midxOrdered
  constructor
  · exact hindexed.size
  · exact hmidx
  · refine hindexed.midx.remove (fun q p x hq hp ↦ ?_) honly hrs fun x ↦ ?_
    · have hsame : q.idx = p.idx := Option.some.inj (hq.trans hp.symm)
      simp only [MetadataRecord.idx, MetadataIdxRecord.mk.injEq] at hsame
      rw [MetadataRecord.order, MetadataRecord.order, hsame.1, hsame.2.2]
    · refine (hmemMidx x).trans (and_congr_right' (not_congr ?_))
      rw [Option.some_inj, eq_comm (a := r.idx)]
      exact MetadataIdxRecord.order_injective
  · intro tree htree
    obtain ⟨old, hold, rfl⟩ := Option.map_eq_some_iff.mp htree
    exact (numidxForget_spec (hindexed.numericOrdered old hold)
      fun entry hentry ↦ hfits.numeric entry hentry old hold).1
  · intro tree htree
    obtain ⟨old, hold, rfl⟩ := Option.map_eq_some_iff.mp htree
    refine (hindexed.numeric old hold).remove (fun q p x hq hp ↦ order_of_numeric hq hp) honly
      hrs ?_
    exact (numidxForget_spec (hindexed.numericOrdered old hold)
      fun entry hentry ↦ hfits.numeric entry hentry old hold).2
  · refine forall_onUserIndex hindexed.distinct hindexed.user (fun u hne hu ↦ ?_) ?_ ?_
    · refine hu.other fun q hq ↦ (hrs q).trans (and_iff_left fun horder ↦ ?_)
      exact hne (hq.symm.trans (MetadataRecord.key_of_order horder).2)
    · intro u hu hkey tree htree hsound
      obtain ⟨ukey, utree⟩ := u
      obtain rfl : utree = .numeric tree := htree
      obtain ⟨hordered, hmirrors⟩ := hsound
      obtain ⟨hordered', hmem⟩ := numidxForget_spec hordered
        fun entry hentry ↦ hfits.user entry hentry _ hu hkey tree rfl
      refine ⟨hordered', hmirrors.remove (fun q p x hq hp ↦ ?_) honly hrs fun x ↦ ?_⟩
      · unfold userEntry at hq hp
        split_ifs at hq hp
        exact order_of_numeric hq hp
      · rw [hmem, userEntry_of_eq hkey.symm]
    · intro u hu hkey tree htree hsound
      obtain ⟨ukey, utree⟩ := u
      obtain rfl : utree = .string tree := htree
      exact absurd hkey.symm (hsound.2 r hr)
  · exact (map_key_onUserIndex _ _ _).symm ▸ hindexed.distinct

/-- A record comes, and its entries with it. -/
theorem Indexed.note {grants : PutGrants} {midx : MidxTree} (hfits : NoteFits grants r.idx s)
    (hrs : ∀ q, q ∈ rs' ↔ q = r ∨ q ∈ rs) (hmidxOrdered : midx.Ordered MetadataIdxRecord.order)
    (hmidx : ∀ x, x ∈ midx.records ↔ x = r.idx ∨ x ∈ s.midxTree.records) (tree : MetaTree) :
    Indexed rs'
      { s with
        metaTree := tree
        midxTree := midx
        numTree := s.numTree.map (numidxNote s.blockSize grants.forNumeric r.idx)
        userIndexes :=
          onUserIndex r.key (numidxNote s.blockSize grants.forUser r.idx) s.userIndexes } := by
  constructor
  · exact hindexed.size
  · exact hmidxOrdered
  · refine hindexed.midx.add hrs fun x ↦ (hmidx x).trans (or_congr_left ?_)
    rw [Option.some_inj, eq_comm]
  · intro tree htree
    obtain ⟨old, hold, rfl⟩ := Option.map_eq_some_iff.mp htree
    exact (numidxNote_spec hindexed.size (hindexed.numericOrdered old hold)
      fun entry hentry ↦ hfits.numeric entry hentry old hold).1
  · intro tree htree
    obtain ⟨old, hold, rfl⟩ := Option.map_eq_some_iff.mp htree
    exact (hindexed.numeric old hold).add hrs
      (numidxNote_spec hindexed.size (hindexed.numericOrdered old hold)
        fun entry hentry ↦ hfits.numeric entry hentry old hold).2
  · refine forall_onUserIndex hindexed.distinct hindexed.user (fun u hne hu ↦ ?_) ?_ ?_
    · refine hu.other fun q hq ↦ (hrs q).trans (or_iff_right ?_)
      rintro rfl
      exact hne hq.symm
    · intro u hu hkey tree htree hsound
      obtain ⟨ukey, utree⟩ := u
      obtain rfl : utree = .numeric tree := htree
      obtain ⟨hordered, hmirrors⟩ := hsound
      obtain ⟨hordered', hmem⟩ := numidxNote_spec hindexed.size hordered
        fun entry hentry ↦ hfits.user entry hentry _ hu hkey tree rfl
      refine ⟨hordered', hmirrors.add hrs fun x ↦ ?_⟩
      rw [hmem, userEntry_of_eq hkey.symm]
    · intro u hu hkey tree htree
      exact absurd htree (hfits.noString u hu hkey tree)
  · exact (map_key_onUserIndex _ _ _).symm ▸ hindexed.distinct

/-- Records that are the same set are mirrored by the same indexes. -/
theorem Indexed.congr (hrs : ∀ q, q ∈ rs' ↔ q ∈ rs) (tree : MetaTree) :
    Indexed rs' { s with metaTree := tree } := by
  constructor
  · exact hindexed.size
  · exact hindexed.midxOrdered
  · exact fun x ↦ (hindexed.midx x).trans
      (exists_congr fun r ↦ and_congr_left fun _ ↦ (hrs r).symm)
  · exact hindexed.numericOrdered
  · exact fun tree htree x ↦ (hindexed.numeric tree htree x).trans
      (exists_congr fun r ↦ and_congr_left fun _ ↦ (hrs r).symm)
  · exact fun u hu ↦ (hindexed.user u hu).other fun q _ ↦ hrs q
  · exact hindexed.distinct

end Records

/-! ### One call -/

section Calls

variable {s : MetadataStore}

variable {r : MetadataRecord} {inodeId : ℕ}

theorem metaTreeLookup_some (hsound : s.Sound) {key : Text}
    (hfound : metaTreeLookup s.metaTree inodeId key = some r) :
    r ∈ s.metaTree.records ∧ r.order = toLex (inodeId, key) :=
  (Root.mem_lookup hsound.ordered).mp hfound

theorem only_of_mem (hsound : s.Sound) (hr : r ∈ s.metaTree.records) :
    ∀ q ∈ s.metaTree.records, q.order = r.order → q = r :=
  fun _ hq horder ↦ Root.eq_of_key_eq hsound.ordered hq hr horder

variable {grants : PutGrants}

/-- The end of a put: the record goes in the metadata tree and its entries in the indexes, which
have nothing of the record that was there. -/
theorem Indexed.put {s' : MetadataStore} (hordered : s.metaTree.Ordered MetadataRecord.order)
    (hsame : s'.metaTree = s.metaTree)
    (hindexed : Indexed (s.metaTree.records.filter (MetadataRecord.order · ≠ r.order)) s')
    (hmeta : metaKind.Fits s'.blockSize grants.forMeta r s'.metaTree)
    (hnote : NoteFits grants r.idx s') :
    ∃ tree midx,
      metaTreePut s'.blockSize grants.forMeta r s'.metaTree = (none, tree) ∧
      midxTreePut s'.blockSize grants.forMidx r.idx s'.midxTree = (none, midx) ∧
      MetadataStore.Sound
        { s' with
          metaTree := tree
          midxTree := midx
          numTree := s'.numTree.map (numidxNote s'.blockSize grants.forNumeric r.idx)
          userIndexes :=
            onUserIndex r.key (numidxNote s'.blockSize grants.forUser r.idx) s'.userIndexes } := by
  obtain ⟨tree, hput, htree, hmem⟩ := hmeta.put metaKind_roomy hindexed.size (hsame ▸ hordered)
  obtain ⟨midx, hmidxPut, hmidxOrdered, hmidx⟩ :=
    hnote.midx.put midxKind_roomy hindexed.size hindexed.midxOrdered
  refine ⟨tree, midx, hput, hmidxPut, htree, hindexed.note hnote (fun q ↦ ?_) hmidxOrdered
    (fun x ↦ ?_) tree⟩
  · rw [hmem, hsame, List.mem_filter]
    exact or_congr_right (and_congr_right fun _ ↦ decide_eq_true_iff.symm)
  · rw [hmidx]
    refine or_congr_right' fun hne ↦ and_iff_left fun heq ↦ hne ?_
    exact MetadataIdxRecord.order_injective.mp heq

section

variable (hsound : s.Sound)
include hsound

theorem MetadataStore.Sound.put {key value : Text}
    (hcareful : CarefulPut inodeId key value grants s) :
    (metadataPut inodeId key value grants s).2.Sound := by
  unfold metadataPut
  split_ifs with hargs
  · exact hsound
  let r : MetadataRecord := ⟨inodeId, key, value⟩
  cases hfound : metaTreeLookup s.metaTree inodeId key with
  | none =>
    simp only [CarefulPut, hfound] at hcareful
    rcases hcareful with hstops | ⟨hmeta, hnote⟩
    · obtain ⟨e, hput⟩ := hstops.put
      have hput' : metaTreePut s.blockSize grants.forMeta r s.metaTree = (some e, s.metaTree) :=
        hput
      simp only [r] at hput'
      simp only [hput']
      exact hsound
    · have hnone := (Root.lookup_none hsound.ordered).mp hfound
      have hindexed : Indexed (s.metaTree.records.filter (MetadataRecord.order · ≠ r.order)) s :=
        hsound.indexed.congr (fun q ↦ List.mem_filter.trans
          (and_iff_left_of_imp fun hq ↦ decide_eq_true (hnone q hq))) s.metaTree
      obtain ⟨tree, midx, hput, hmidx, hafter⟩ :=
        Indexed.put hsound.ordered rfl hindexed hmeta hnote
      simp only [r] at hput hmidx hafter
      simp only [hput, hmidx]
      exact hafter
  | some old =>
    simp only [CarefulPut, hfound] at hcareful
    obtain ⟨hmeta, hforget, hnote⟩ := hcareful
    obtain ⟨hold, horder⟩ := metaTreeLookup_some hsound hfound
    have hindexed : Indexed (s.metaTree.records.filter (MetadataRecord.order · ≠ r.order))
        (forgetIndexed old.idx s) :=
      hsound.indexed.forget hforget hold (only_of_mem hsound hold) fun q ↦ by
        rw [List.mem_filter, horder]
        exact and_congr_right fun _ ↦ decide_eq_true_iff
    have hsame : (forgetIndexed old.idx s).metaTree = s.metaTree := rfl
    obtain ⟨tree, midx, hput, hmidx, hafter⟩ :=
      Indexed.put hsound.ordered hsame hindexed hmeta hnote
    simp only [r] at hput hmidx hafter
    simp only [hput, hmidx]
    exact hafter

theorem MetadataStore.Sound.delete {key : Text} (hcareful : CarefulDelete inodeId key s) :
    (metadataDelete inodeId key s).2.Sound := by
  unfold metadataDelete
  cases hfound : metaTreeLookup s.metaTree inodeId key with
  | none => exact hsound
  | some r =>
    obtain ⟨hr, horder⟩ := metaTreeLookup_some hsound hfound
    simp only
    rcases hcareful r hfound with hdepth | ⟨hdrops, hforget⟩
    · have hrun : metaTreeDelete inodeId key s.metaTree = (some .inval, s.metaTree) := if_pos hdepth
      rw [hrun]
      exact hsound
    · obtain ⟨hordered, hmem⟩ := hdrops.delete hsound.ordered
      have hindexed : Indexed (metaTreeDelete inodeId key s.metaTree).2.records
          (forgetIndexed r.idx s) :=
        hsound.indexed.forget hforget hr (only_of_mem hsound hr) fun q ↦ by
          rw [horder]
          exact hmem q
      have hstatus : (metaTreeDelete inodeId key s.metaTree).1 = none :=
        hdrops.found (Option.ne_none_iff_exists'.mpr ⟨r, hfound⟩)
      rcases hrun : metaTreeDelete inodeId key s.metaTree with ⟨status, tree⟩
      rw [hrun] at hstatus hindexed
      obtain rfl : status = none := hstatus
      refine ⟨?_, hindexed.congr (fun _ ↦ Iff.rfl) tree⟩
      change tree.Ordered MetadataRecord.order
      rw [show tree = (metaTreeDelete inodeId key s.metaTree).2 by rw [hrun]]
      exact hordered

theorem MetadataStore.Sound.rounds {inodeId fuel : ℕ} (hcareful : CarefulRounds inodeId fuel s) :
    (deleteRounds inodeId fuel s).2.Sound := by
  induction fuel generalizing s with
  | zero => exact hsound
  | succ fuel ih =>
    rw [deleteRounds]
    rw [CarefulRounds] at hcareful
    cases hlist : metadataList inodeId s with
    | nil => exact hsound
    | cons key keys =>
      simp only [hlist] at hcareful ⊢
      obtain ⟨hdelete, hrest⟩ := hcareful
      have hafter := hsound.delete hdelete
      rcases hrun : metadataDelete inodeId key s with ⟨status, s'⟩
      rw [hrun] at hafter hrest
      cases status with
      | none => exact ih hafter hrest
      | some e => exact hafter

/-- A user index is added to those there are. -/
theorem MetadataStore.Sound.addIndex {u : UserIndex} (hfresh : ∀ v ∈ s.userIndexes, v.key ≠ u.key)
    (hu : u.Sound s.metaTree.records) :
    MetadataStore.Sound { s with userIndexes := s.userIndexes ++ [u] } := by
  obtain ⟨hordered, hindexed⟩ := hsound
  refine ⟨hordered, ⟨hindexed.size, hindexed.midxOrdered, hindexed.midx, hindexed.numericOrdered,
    hindexed.numeric, ?_, ?_⟩⟩
  · refine List.forall_mem_append.mpr ⟨hindexed.user, ?_⟩
    exact List.forall_mem_singleton.mpr hu
  · change ((s.userIndexes ++ [u]).map UserIndex.key).Nodup
    rw [List.map_append]
    refine hindexed.distinct.append (List.nodup_singleton _) ?_
    rw [List.map_singleton, List.disjoint_singleton]
    intro hmem
    obtain ⟨v, hv, hkey⟩ := List.mem_map.mp hmem
    exact hfresh v hv hkey

end

/-- Behind a record past a key all records are. -/
theorem past_of_past {key : Text} (r q : MetadataIdxRecord) (hlt : r.order < q.order)
    (hr : decide (key < r.key) = true) : decide (key < q.key) = true := by
  have hle : r.key ≤ q.key := Prod.Lex.monotone_fst _ _ hlt.le
  simpa using (of_decide_eq_true hr).trans_le hle

/-- The scan for a new index finds the records of the key that lie right of where it starts. -/
theorem mem_populateScan (hindexed : Indexed s.metaTree.records s) {key : Text}
    {r : MetadataIdxRecord} :
    r ∈ populateScan key s.midxTree ↔
      r ∈ s.midxTree.recordsFrom (populateSlot key) ∧ r.key = key := by
  rw [populateScan, Root.mem_scan_recordsFrom hindexed.midxOrdered past_of_past]
  simp only [decide_eq_false_iff_not, not_lt]
  exact and_congr_right' ⟨fun ⟨hge, hle⟩ ↦ le_antisymm hle hge, fun heq ↦ ⟨heq.ge, heq.le⟩⟩

/-- What the index of one key has of the records, read off the reverse index. -/
theorem numeric_of_idx {key : Text} {x : MetadataNumericIdxRecord} : userEntry key r = some x ↔
      ∃ y, some r.idx = some y ∧ (if y.key = key then y.numeric else none) = some x := by
  constructor
  · exact fun hr ↦ ⟨r.idx, rfl, hr⟩
  · rintro ⟨y, hy, hx⟩
    obtain rfl := Option.some.inj hy
    exact hx

variable (hsound : s.Sound)
include hsound

theorem MetadataStore.Sound.createIndex {key : Text} {valueType : ℕ} {grants : CreateGrants}
    (hcareful : CarefulCreate key valueType grants s) :
    (userIndexCreate key valueType grants s).2.Sound := by
  unfold userIndexCreate
  cases hfind : userIndexFind key s.userIndexes with
  | some u => exact hsound
  | none =>
    simp only
    cases hheader : grants.header with
    | false => exact hsound
    | true =>
      obtain ⟨hlength, hfits⟩ := hcareful hfind hheader
      have hfresh : ∀ v ∈ s.userIndexes, v.key ≠ key := fun v hv ↦ by
        simpa using List.find?_eq_none.mp hfind v hv
      rw [if_neg (by simp), List.take_of_length_le hlength]
      split_ifs at hfits ⊢ with htype hregistry
      · -- The registry is full: the index stays, with nothing in it.
        refine hsound.addIndex hfresh ⟨trivial, fun x ↦ ?_⟩
        refine ⟨fun hx ↦ absurd hx List.not_mem_nil, ?_⟩
        rintro ⟨r, hr, hentry⟩
        by_cases hkey : r.key = key
        · rw [userEntry_of_eq hkey, hfits r hr hkey] at hentry
          cases hentry
        · rw [userEntry_of_ne hkey] at hentry
          cases hentry
      · obtain ⟨hscan, hpopulate⟩ := hfits
        have hempty : Root.Ordered MetadataNumericIdxRecord.order (.empty : NumidxTree) := trivial
        obtain ⟨hordered, hmem⟩ := populate_spec hsound.indexed.size hempty hpopulate
        refine hsound.addIndex hfresh ⟨hordered, ?_⟩
        refine hsound.indexed.midx.fill (fun r x ↦ numeric_of_idx) fun x ↦
          (hmem x).trans ((or_iff_left List.not_mem_nil).trans ?_)
        constructor
        · rintro ⟨r, hr, hnumeric⟩
          obtain ⟨hr, hkey⟩ := (mem_populateScan hsound.indexed).mp hr
          exact ⟨r, (Root.recordsFrom_suffix _ _).subset hr, by rwa [if_pos hkey]⟩
        · rintro ⟨r, hr, hnumeric⟩
          split_ifs at hnumeric with hkey
          have hfound := hscan r hr hkey (by rw [hnumeric]; exact Option.some_ne_none x)
          exact ⟨r, (mem_populateScan hsound.indexed).mpr ⟨hfound, hkey⟩, hnumeric⟩
      · exact hsound.addIndex hfresh ⟨rfl, hfits⟩
      · exact hsound.addIndex hfresh ⟨rfl, hfits⟩

theorem MetadataStore.Sound.dropIndex (key : Text) (registry : Bool) :
    (userIndexDrop key registry s).2.Sound := by
  unfold userIndexDrop
  cases userIndexFind key s.userIndexes with
  | none => exact hsound
  | some u =>
    obtain ⟨hordered, hindexed⟩ := hsound
    have hsublist : (s.userIndexes.eraseP (·.key = key)).Sublist s.userIndexes :=
      List.eraseP_sublist
    exact ⟨hordered, ⟨hindexed.size, hindexed.midxOrdered, hindexed.midx, hindexed.numericOrdered,
      hindexed.numeric, fun v hv ↦ hindexed.user v (hsublist.subset hv),
      hindexed.distinct.sublist (hsublist.map UserIndex.key)⟩⟩

theorem MetadataStore.Sound.withNumeric {tree : NumidxTree}
    (hordered : tree.Ordered MetadataNumericIdxRecord.order)
    (hmirrors : Mirrors (fun r ↦ r.idx.numeric) s.metaTree.records tree.records) :
    MetadataStore.Sound { s with numTree := some tree } := by
  obtain ⟨hmeta, hindexed⟩ := hsound
  refine ⟨hmeta, ⟨hindexed.size, hindexed.midxOrdered, hindexed.midx, ?_, ?_, hindexed.user,
    hindexed.distinct⟩⟩
  · intro tree' htree
    obtain rfl := Option.some.inj htree
    exact hordered
  · intro tree' htree
    obtain rfl := Option.some.inj htree
    exact hmirrors

theorem MetadataStore.Sound.buildNumeric {header : Bool} {nodes : ℕ → ℕ → Option ℕ}
    (hcareful : CarefulBuild header nodes s) : (numidxBuild header nodes s).2.Sound := by
  have hfilled (hbuild : s.numTree ≠ none ∨ header = true) : MetadataStore.Sound
      { s with
        numTree := some (buildEntries s.blockSize nodes 0 s.midxTree.records
          (s.numTree.getD .empty)).2 } := by
    have hordered : (s.numTree.getD .empty).Ordered MetadataNumericIdxRecord.order := by
      cases hnum : s.numTree with
      | none => trivial
      | some tree => exact hsound.indexed.numericOrdered tree hnum
    obtain ⟨hordered', hmem⟩ := populate_spec hsound.indexed.size hordered (hcareful hbuild)
    rw [buildEntries_eq hsound.indexed.size hordered (hcareful hbuild)]
    refine hsound.withNumeric hordered' ?_
    have hmirrors : Mirrors (fun r : MetadataRecord ↦ r.idx.numeric) s.metaTree.records
        (s.midxTree.records.filterMap MetadataIdxRecord.numeric) := by
      refine hsound.indexed.midx.fill (fun r x ↦ ?_) fun x ↦ List.mem_filterMap
      simp
    intro x
    rw [hmem, ← List.mem_filterMap, ← hmirrors x]
    refine or_iff_left_of_imp fun hx ↦ ?_
    cases hnum : s.numTree with
    | none =>
      rw [hnum] at hx
      exact absurd hx List.not_mem_nil
    | some tree =>
      rw [hnum] at hx
      exact (hmirrors x).mpr ((hsound.indexed.numeric tree hnum x).mp hx)
  unfold numidxBuild
  cases hmidx : s.midxTree with
  | empty => exact hsound
  | node height t =>
    rw [hmidx] at hfilled
    cases hnum : s.numTree with
    | none =>
      cases header with
      | false => exact hsound
      | true =>
        simp only [hnum] at hfilled ⊢
        exact hfilled (Or.inr trivial)
    | some tree =>
      simp only [hnum] at hfilled ⊢
      exact hfilled (Or.inl (Option.some_ne_none tree))

theorem MetadataStore.Sound.call {call : MetadataCall} (hcareful : CarefulCall call s) :
    (call.run s).2.Sound := by
  cases call with
  | put inodeId key value grants => exact hsound.put hcareful
  | delete inodeId key => exact hsound.delete hcareful
  | deleteAll inodeId => exact hsound.rounds hcareful
  | createIndex key valueType grants => exact hsound.createIndex hcareful
  | dropIndex key registry => exact hsound.dropIndex key registry
  | buildNumeric header nodes => exact hsound.buildNumeric hcareful

end Calls

/-! ### Runs -/

theorem MetadataStore.Sound.run {calls : List MetadataCall} (hsound : s.Sound)
    (hcareful : CarefulRun calls s) : (runMetadata calls s).Sound := by
  induction calls generalizing s with
  | nil => exact hsound
  | cons call calls ih =>
    obtain ⟨hfirst, hrest⟩ := hcareful
    exact ih (hsound.call hfirst) hrest

theorem freshMetadata_sound {blockSize : ℕ} (hsize : FormattedSize blockSize) :
    (freshMetadata blockSize).Sound := by
  refine ⟨trivial, hsize, trivial, fun x ↦ ?_, ?_, ?_, List.forall_mem_nil _, List.nodup_nil⟩
  · exact ⟨fun hx ↦ absurd hx List.not_mem_nil, fun ⟨r, hr, _⟩ ↦ absurd hr List.not_mem_nil⟩
  · intro tree htree
    cases htree
  · intro tree htree
    cases htree

/-- Every node is granted. -/
def allGranted : PutGrants := ⟨fun _ ↦ some 9, fun _ ↦ some 9, fun _ ↦ some 9, fun _ ↦ some 9⟩

/-- A user index is made, and then the value `5` is put under its key. -/
def indexedPut : List MetadataCall :=
  [.createIndex [97] userIndexNumeric ⟨true, true, fun _ _ ↦ some 9⟩,
    .put 1 [97] [53] allGranted]

theorem indexedPut_careful : CarefulRun indexedPut (freshMetadata 4096) := by
  refine ⟨fun _ _ ↦ ⟨by decide, fun r hr ↦ absurd hr List.not_mem_nil, trivial⟩, ?_, trivial⟩
  refine Or.inr ⟨⟨by decide, trivial, fun _ _ ↦ Option.some_ne_none 9⟩, ?_⟩
  refine ⟨⟨by decide, trivial, fun _ _ ↦ Option.some_ne_none 9⟩, ?_, ?_, ?_⟩
  · intro entry _ tree htree
    cases htree
  · intro entry _ u hu _ tree htree
    obtain rfl := List.mem_singleton.mp hu
    obtain rfl : .empty = tree := UserTree.numeric.inj htree
    exact ⟨by decide, trivial, fun _ _ ↦ Option.some_ne_none 9⟩
  · intro u hu _ tree htree
    obtain rfl := List.mem_singleton.mp hu
    cases htree

end Obmafs3
