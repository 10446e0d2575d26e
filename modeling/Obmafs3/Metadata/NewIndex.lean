import Obmafs3.Library.SearchTreeLoaded
import Obmafs3.Metadata.Indexes
import Mathlib.Data.List.Infix

/-!
# A new user index

A new index for numbers is filled from the reverse index. The scan goes down by the key alone, takes
the last slot whose separator has a key at or below it, and reads the leaves from the one it reaches
on. So it misses the leaves on the left when entries of the key begin there. It ends where a node
cannot be read, and no error of an insertion stops it. A new index for strings is not filled.

`userIndexCreate_complete` says when the new index holds exactly the entries of its key.
-/

set_option autoImplicit false

namespace Obmafs3

open Library.Search Library.SearchTree

/-! ### A creation where reads may fail -/

/-- What a creation can read: whether there is memory for a node, and which nodes. -/
structure NodeReads where
  buffer : Bool
  readable : ℕ → Bool

/-- The records that the scan for a new index comes to read. -/
def populateRecords (reads : NodeReads) (key : Text) (tree : MidxTree) : List MetadataIdxRecord :=
  if reads.buffer && (tree.wayDown (populateSlot key)).all reads.readable then
    ((tree.leavesFrom (populateSlot key)).takeWhile (reads.readable ·.1)).flatMap Prod.snd
  else []

/-- The records of the key among them. -/
def populateReadScan (reads : NodeReads) (key : Text) (tree : MidxTree) : List MetadataIdxRecord :=
  scan (fun r ↦ r.key < key) (fun r ↦ key < r.key) (populateRecords reads key tree)

/-- `obmafs3_user_index_create`, with the nodes of the reverse index that it can read. -/
def userIndexCreateReading (reads : NodeReads) (key : Text) (valueType : ℕ)
    (grants : CreateGrants) (s : MetadataStore) : Option ErrorCode × MetadataStore :=
  match userIndexFind key s.userIndexes with
  | some _ => (some .inval, s)
  | none =>
    if grants.header = false then (some .noSpc, s)
    else if valueType = userIndexNumeric then
      let added (tree : NumidxTree) : MetadataStore :=
        { s with userIndexes := s.userIndexes ++ [⟨key.take 255, .numeric tree⟩] }
      if grants.registry = false then (some .noSpc, added .empty)
      else
        (none, added
          (populate s.blockSize grants.nodes 0 (populateReadScan reads key s.midxTree) .empty))
    else
      (if grants.registry then none else some .noSpc,
        { s with userIndexes := s.userIndexes ++ [⟨key.take 255, .string .empty⟩] })

/-- Where everything can be read this is the creation of the runs. -/
theorem userIndexCreateReading_all {key : Text} {valueType : ℕ} {grants : CreateGrants}
    {s : MetadataStore} :
    userIndexCreateReading ⟨true, fun _ ↦ true⟩ key valueType grants s =
      userIndexCreate key valueType grants s := by
  have hall : populateRecords ⟨true, fun _ ↦ true⟩ key s.midxTree =
      s.midxTree.recordsFrom (populateSlot key) := by
    have hway : (s.midxTree.wayDown (populateSlot key)).all (fun _ ↦ true) = true := by simp
    have htake : (s.midxTree.leavesFrom (populateSlot key)).takeWhile (fun _ ↦ true) =
        s.midxTree.leavesFrom (populateSlot key) := by simp
    unfold populateRecords
    dsimp only
    rw [hway, htake, Root.leavesFrom_records]
    rfl
  rw [userIndexCreateReading, userIndexCreate, populateReadScan, populateScan, hall] <;> rfl

/-! ### What a new index is to hold -/

/-- The entries of the key, those of its value type. -/
def UserTree.Complete (key : Text) (rs : List MetadataIdxRecord) : UserTree → Prop
  | numeric tree => ∀ x, x ∈ tree.records ↔ ∃ r ∈ rs, r.key = key ∧ r.numeric = some x
  | string tree => ∀ r, r ∈ tree.records ↔ r ∈ rs ∧ r.key = key

/-- Every whole number of the key is that of a record in a leaf that the scan comes to read. -/
def Seen (reads : NodeReads) (key : Text) (tree : MidxTree) : Prop :=
  ∀ r ∈ tree.records, r.key = key → ∀ x, r.numeric = some x →
    ∃ q ∈ populateRecords reads key tree, q.key = key ∧ q.numeric = some x

/-- Every insertion finds a tree that is not too deep and gets the nodes it asks for. -/
def PopulateGranted (blockSize : ℕ) (nodes : ℕ → ℕ → Option ℕ) :
    ℕ → List MetadataIdxRecord → NumidxTree → Prop
  | _, [], _ => True
  | i, r :: rs, tree =>
    (∀ entry, r.numeric = some entry → tree.height ≤ metadataBtreeMaxDepth ∧
      ∀ level < tree.demand numidxKind.order (numidxKind.leafMaxKeys blockSize)
        (numidxKind.indexMaxKeys blockSize) entry, nodes i level ≠ none) ∧
      PopulateGranted blockSize nodes (i + 1) rs (numidxNote blockSize (nodes i) r tree)

/-- No two records of the key have one inode and one number. -/
def Twinless (key : Text) (rs : List MetadataIdxRecord) : Prop :=
  ∀ r ∈ rs, ∀ q ∈ rs, r.key = key → q.key = key → r.numeric ≠ none → r.numeric = q.numeric → r = q

/-! ### What the scan reads -/

section Scan

variable {reads : NodeReads} {key : Text} {tree : MidxTree}

theorem populateRecords_sublist : (populateRecords reads key tree).Sublist tree.records := by
  unfold populateRecords
  split_ifs
  · refine List.Sublist.trans ?_ (Root.recordsFrom_suffix (populateSlot key) tree).sublist
    rw [← Root.leavesFrom_records]
    exact ((List.takeWhile_prefix _).flatMap Prod.snd).sublist
  · exact List.nil_sublist _

theorem mem_populateReadScan (hordered : tree.Ordered MetadataIdxRecord.order)
    {r : MetadataIdxRecord} :
    r ∈ populateReadScan reads key tree ↔ r ∈ populateRecords reads key tree ∧ r.key = key := by
  rw [populateReadScan, Root.mem_scan_sublist hordered populateRecords_sublist past_of_past]
  simp only [decide_eq_false_iff_not, not_lt]
  exact and_congr_right' ⟨fun ⟨hge, hle⟩ ↦ le_antisymm hle hge, fun heq ↦ ⟨heq.ge, heq.le⟩⟩

end Scan

/-! ### Filling -/

section Fill

variable {blockSize : ℕ} {nodes : ℕ → ℕ → Option ℕ} {fresh : ℕ → Option ℕ}
  {r : MetadataIdxRecord} {rs : List MetadataIdxRecord} {tree : NumidxTree} {i : ℕ}

variable {entry : MetadataNumericIdxRecord}

/-- In a tree that insertions alone have made nothing is wanted but the nodes. -/
theorem fits_of_granted (hordered : tree.Ordered MetadataNumericIdxRecord.order)
    (hloaded : tree.Loaded MetadataNumericIdxRecord.order)
    (hgranted : tree.height ≤ metadataBtreeMaxDepth ∧
      ∀ level < tree.demand numidxKind.order (numidxKind.leafMaxKeys blockSize)
      (numidxKind.indexMaxKeys blockSize) entry, fresh level ≠ none) :
    numidxKind.Fits blockSize fresh entry tree :=
  ⟨hgranted.1, hloaded.safe hordered, hgranted.2⟩

/-- Noting a whole number is an insertion, if the tree is not too deep for it. -/
theorem numidxNote_eq (hnumeric : r.numeric = some entry)
    (hdepth : tree.height ≤ metadataBtreeMaxDepth) :
    numidxNote blockSize fresh r tree =
      (tree.put numidxKind.order (numidxKind.leafMaxKeys blockSize)
        (numidxKind.indexMaxKeys blockSize) fresh entry).1 := by
  simp only [numidxNote, hnumeric, numidxPut, IndexKind.put, if_neg (not_lt.mpr hdepth)]
  rcases tree.put numidxKind.order (numidxKind.leafMaxKeys blockSize)
    (numidxKind.indexMaxKeys blockSize) fresh entry with ⟨next, - | -⟩ <;> rfl

theorem numidxNote_deep (hdeep : metadataBtreeMaxDepth < tree.height) :
    numidxNote blockSize fresh r tree = tree := by
  unfold numidxNote
  cases r.numeric with
  | none => rfl
  | some entry => simp only [numidxPut, IndexKind.put, if_pos hdeep]

section

variable (hsize : FormattedSize blockSize) (hordered : tree.Ordered MetadataNumericIdxRecord.order)
  (hloaded : tree.Loaded MetadataNumericIdxRecord.order)
include hsize hordered hloaded

theorem numidxNote_loaded
    (hfits : ∀ entry, r.numeric = some entry → numidxKind.Fits blockSize fresh entry tree) :
    (numidxNote blockSize fresh r tree).Loaded MetadataNumericIdxRecord.order := by
  cases hnumeric : r.numeric with
  | none => simpa only [numidxNote, hnumeric] using hloaded
  | some entry =>
    obtain ⟨hdepth, -, hgranted⟩ := hfits entry hnumeric
    obtain ⟨hleafMax, hindexMax⟩ := numidxKind_roomy blockSize hsize
    have hafter : if (tree.put numidxKind.order (numidxKind.leafMaxKeys blockSize)
        (numidxKind.indexMaxKeys blockSize) fresh entry).2 then
          (tree.put numidxKind.order (numidxKind.leafMaxKeys blockSize)
            (numidxKind.indexMaxKeys blockSize) fresh entry).1.Loaded numidxKind.order
        else _ := hloaded.put hleafMax hindexMax hordered
    rw [if_pos (Root.put_granted hordered.solid hgranted)] at hafter
    rw [numidxNote_eq hnumeric hdepth]
    exact hafter

theorem PopulateGranted.fits (hgranted : PopulateGranted blockSize nodes i rs tree) :
    PopulateFits blockSize nodes i rs tree := by
  induction rs generalizing i tree with
  | nil => trivial
  | cons r rs ih =>
    obtain ⟨hfirst, hrest⟩ := hgranted
    have hfits (entry) (hnumeric : r.numeric = some entry) :
        numidxKind.Fits blockSize (nodes i) entry tree :=
      fits_of_granted hordered hloaded (hfirst entry hnumeric)
    exact ⟨hfits, ih (numidxNote_spec hsize hordered hfits).1
      (numidxNote_loaded hsize hordered hloaded hfits) hrest⟩

/-- An insertion that is not granted loses its record or one that was there. -/
theorem numidxNote_lost (hnumeric : r.numeric = some entry) (hnew : entry ∉ tree.records)
    (hrefused : ¬(tree.height ≤ metadataBtreeMaxDepth ∧ ∀ level < tree.demand numidxKind.order
      (numidxKind.leafMaxKeys blockSize) (numidxKind.indexMaxKeys blockSize) entry,
        fresh level ≠ none)) :
    ∃ x, (x = entry ∨ x ∈ tree.records) ∧ x ∉ (numidxNote blockSize fresh r tree).records := by
  obtain ⟨hleafMax, hindexMax⟩ := numidxKind_roomy blockSize hsize
  rcases Nat.lt_or_ge metadataBtreeMaxDepth tree.height with hdeep | hdepth
  · rw [numidxNote_deep hdeep]
    exact ⟨entry, Or.inl rfl, hnew⟩
  · have hkeys : ∀ q ∈ tree.records, numidxKind.order q ≠ numidxKind.order entry := by
      rintro q hq hsame
      rw [MetadataNumericIdxRecord.order_injective.mp hsame] at hq
      exact hnew hq
    rw [numidxNote_eq hnumeric hdepth]
    refine Root.Loaded.lost hleafMax hindexMax hordered hloaded hkeys ?_
    by_contra hdone
    exact hrefused ⟨hdepth, Root.granted_of_put hordered.solid (Bool.eq_true_of_not_eq_false hdone)⟩

end

/-- Filling puts nothing in but the entries. -/
theorem mem_of_mem_populate {x : MetadataNumericIdxRecord}
    (hx : x ∈ (populate blockSize nodes i rs tree).records) :
    (∃ r ∈ rs, r.numeric = some x) ∨ x ∈ tree.records := by
  induction rs generalizing i tree with
  | nil => exact Or.inr hx
  | cons r rs ih =>
    rcases ih hx with ⟨q, hq, hnumeric⟩ | hnote
    · exact Or.inl ⟨q, List.mem_cons_of_mem _ hq, hnumeric⟩
    · rcases Nat.lt_or_ge metadataBtreeMaxDepth tree.height with hdeep | hdepth
      · rw [numidxNote_deep hdeep] at hnote
        exact Or.inr hnote
      · cases hnumeric : r.numeric with
        | none =>
          simp only [numidxNote, hnumeric] at hnote
          exact Or.inr hnote
        | some entry =>
          rw [numidxNote_eq hnumeric hdepth] at hnote
          rcases Root.mem_of_mem_put hnote with rfl | hold
          · exact Or.inl ⟨r, List.mem_cons_self, hnumeric⟩
          · exact Or.inr hold

/-- When every entry is there in the end and no two records had one entry, every insertion was
granted. -/
theorem populateGranted_of_mem (hsize : FormattedSize blockSize)
    (hordered : tree.Ordered MetadataNumericIdxRecord.order)
    (hloaded : tree.Loaded MetadataNumericIdxRecord.order)
    (hdistinct : rs.Pairwise fun r q ↦ r.numeric ≠ none → r.numeric ≠ q.numeric)
    (hnew : ∀ r ∈ rs, ∀ x ∈ tree.records, r.numeric ≠ some x)
    (hall : ∀ x, (∃ r ∈ rs, r.numeric = some x) ∨ x ∈ tree.records →
      x ∈ (populate blockSize nodes i rs tree).records) :
    PopulateGranted blockSize nodes i rs tree := by
  induction rs generalizing i tree with
  | nil => trivial
  | cons r rs ih =>
    obtain ⟨hfirst, hdistinct⟩ := List.pairwise_cons.mp hdistinct
    have hgranted : ∀ entry, r.numeric = some entry → tree.height ≤ metadataBtreeMaxDepth ∧
        ∀ level < tree.demand numidxKind.order (numidxKind.leafMaxKeys blockSize)
          (numidxKind.indexMaxKeys blockSize) entry, nodes i level ≠ none := by
      intro entry hnumeric
      by_contra hrefused
      have habsent : entry ∉ tree.records := fun hmem ↦
        hnew r List.mem_cons_self entry hmem hnumeric
      obtain ⟨x, hx, hlost⟩ := numidxNote_lost hsize hordered hloaded hnumeric habsent hrefused
      have hlater : ∀ q ∈ rs, q.numeric ≠ some x := by
        rintro q hq hqx
        rcases hx with rfl | hx
        · exact hfirst q hq (by rw [hnumeric]; exact Option.some_ne_none _)
            (hnumeric.trans hqx.symm)
        · exact hnew q (List.mem_cons_of_mem _ hq) x hx hqx
      have hend : x ∈ (populate blockSize nodes (i + 1) rs
          (numidxNote blockSize (nodes i) r tree)).records :=
        hall x (hx.imp_left fun hsame ↦
          ⟨r, List.mem_cons_self, hnumeric.trans (congrArg some hsame.symm)⟩)
      rcases mem_of_mem_populate hend with ⟨q, hq, hqx⟩ | hnote
      · exact hlater q hq hqx
      · exact hlost hnote
    have hfits (entry) (hnumeric : r.numeric = some entry) :
        numidxKind.Fits blockSize (nodes i) entry tree :=
      fits_of_granted hordered hloaded (hgranted entry hnumeric)
    obtain ⟨hnext, hmem⟩ := numidxNote_spec hsize hordered hfits
    refine ⟨hgranted, ih hnext (numidxNote_loaded hsize hordered hloaded hfits) hdistinct ?_ ?_⟩
    · intro q hq x hx
      rcases (hmem x).mp hx with hnumeric | hx
      · intro hqx
        exact hfirst q hq (by rw [hnumeric]; exact Option.some_ne_none _)
          (hnumeric.trans hqx.symm)
      · exact hnew q (List.mem_cons_of_mem _ hq) x hx
    · intro x hx
      refine hall x ?_
      rcases hx with ⟨q, hq, hqx⟩ | hx
      · exact Or.inl ⟨q, List.mem_cons_of_mem _ hq, hqx⟩
      · rcases (hmem x).mp hx with hnumeric | hx
        · exact Or.inl ⟨r, List.mem_cons_self, hnumeric⟩
        · exact Or.inr hx

end Fill

/-! ### The new index -/

/-- What a creation must find: for numbers, that the scan sees them all and every insertion is
granted, and for strings, that there is nothing to put in. -/
def Fillable (reads : NodeReads) (key : Text) (valueType : ℕ) (grants : CreateGrants)
    (s : MetadataStore) : Prop :=
  if valueType = userIndexNumeric then
    Seen reads key s.midxTree ∧
      PopulateGranted s.blockSize grants.nodes 0 (populateReadScan reads key s.midxTree) .empty
  else ∀ r ∈ s.midxTree.records, r.key ≠ key

section Create

variable {reads : NodeReads} {key : Text} {valueType : ℕ} {grants : CreateGrants}
  {s s' : MetadataStore}

/-- The index that a creation that succeeds adds. -/
theorem userIndexCreateReading_ok
    (hcreate : userIndexCreateReading reads key valueType grants s = (none, s')) :
    s' = { s with userIndexes := s.userIndexes ++ [⟨key.take 255,
      if valueType = userIndexNumeric then
        .numeric (populate s.blockSize grants.nodes 0 (populateReadScan reads key s.midxTree)
          .empty)
      else .string .empty⟩] } := by
  unfold userIndexCreateReading at hcreate
  cases hfind : userIndexFind key s.userIndexes with
  | some u =>
    rw [hfind] at hcreate
    cases hcreate
  | none =>
    rw [hfind] at hcreate
    dsimp only at hcreate
    by_cases hheader : grants.header = false
    · rw [if_pos hheader] at hcreate
      cases hcreate
    · rw [if_neg hheader] at hcreate
      by_cases htype : valueType = userIndexNumeric
      · rw [if_pos htype] at hcreate ⊢
        split_ifs at hcreate
        · cases hcreate
        · exact (Prod.mk.inj hcreate).2.symm
      · rw [if_neg htype] at hcreate ⊢
        exact (Prod.mk.inj hcreate).2.symm

section

variable (hsize : FormattedSize s.blockSize) (hordered : s.midxTree.Ordered MetadataIdxRecord.order)
include hsize hordered

/-- The numbers of a new index are complete if they were all seen and put in. -/
theorem complete_of_fillable (hseen : Seen reads key s.midxTree)
    (hgranted : PopulateGranted s.blockSize grants.nodes 0 (populateReadScan reads key s.midxTree) .empty) :
    (UserTree.numeric (populate s.blockSize grants.nodes 0
      (populateReadScan reads key s.midxTree) .empty)).Complete key s.midxTree.records := by
  have hempty : Root.Ordered MetadataNumericIdxRecord.order (.empty : NumidxTree) := trivial
  obtain ⟨-, hmem⟩ := populate_spec hsize hempty (hgranted.fits hsize hempty trivial)
  intro x
  rw [hmem]
  constructor
  · rintro (⟨r, hr, hnumeric⟩ | hx)
    · obtain ⟨hread, hkey⟩ := (mem_populateReadScan hordered).mp hr
      exact ⟨r, populateRecords_sublist.subset hread, hkey, hnumeric⟩
    · exact absurd hx List.not_mem_nil
  · rintro ⟨r, hr, hkey, hnumeric⟩
    obtain ⟨q, hq, hqkey, hqx⟩ := hseen r hr hkey x hnumeric
    exact Or.inl ⟨q, (mem_populateReadScan hordered).mpr ⟨hq, hqkey⟩, hqx⟩

/-- A complete index of numbers was seen whole, and put in whole if no two records have one entry. -/
theorem fillable_of_complete
    (hcomplete : (UserTree.numeric (populate s.blockSize grants.nodes 0
      (populateReadScan reads key s.midxTree) .empty)).Complete key s.midxTree.records) :
    Seen reads key s.midxTree ∧
      (Twinless key s.midxTree.records → PopulateGranted s.blockSize grants.nodes 0
        (populateReadScan reads key s.midxTree) .empty) := by
  refine ⟨fun r hr hkey x hnumeric ↦ ?_, fun htwinless ↦ ?_⟩
  · rcases mem_of_mem_populate ((hcomplete x).mpr ⟨r, hr, hkey, hnumeric⟩) with ⟨q, hq, hqx⟩ | hx
    · obtain ⟨hread, hqkey⟩ := (mem_populateReadScan hordered).mp hq
      exact ⟨q, hread, hqkey, hqx⟩
    · exact absurd hx List.not_mem_nil
  · have hmem {r : MetadataIdxRecord} (hr : r ∈ populateReadScan reads key s.midxTree) :
        r ∈ s.midxTree.records ∧ r.key = key := by
      obtain ⟨hread, hkey⟩ := (mem_populateReadScan hordered).mp hr
      exact ⟨populateRecords_sublist.subset hread, hkey⟩
    have hsub : (populateReadScan reads key s.midxTree).Sublist s.midxTree.records :=
      (scan_sublist _ _ _).trans populateRecords_sublist
    have hnodup : (populateReadScan reads key s.midxTree).Pairwise (· ≠ ·) :=
      ((Root.records_pairwise hordered).of_map _ fun _ _ hlt hsame ↦
        hlt.ne (congrArg _ hsame)).sublist hsub
    have hempty : Root.Ordered MetadataNumericIdxRecord.order (.empty : NumidxTree) := trivial
    refine populateGranted_of_mem hsize hempty trivial ?_
      (fun _ _ _ hx ↦ absurd hx List.not_mem_nil) fun x hx ↦ (hcomplete x).mpr ?_
    · refine hnodup.imp_of_mem fun hr hq hne hnumeric hsame ↦ hne ?_
      exact htwinless _ (hmem hr).1 _ (hmem hq).1 (hmem hr).2 (hmem hq).2 hnumeric hsame
    · rcases hx with ⟨r, hr, hnumeric⟩ | hx
      · exact ⟨r, (hmem hr).1, (hmem hr).2, hnumeric⟩
      · exact absurd hx List.not_mem_nil

end

end Create

/-- Everything can be read. -/
def allReads : NodeReads := ⟨true, fun _ ↦ true⟩

def allNodes : CreateGrants := ⟨true, true, fun _ _ ↦ some 9⟩

/-- One value under the key. -/
def onePut : MetadataStore := runMetadata [.put 1 [97] [53] allGranted] (freshMetadata 4096)

theorem onePut_records : onePut.midxTree.records = [⟨[97], [53], 1⟩] := by decide +kernel

/-- The same number under one key for 26 inodes, which makes two leaves of the reverse index. -/
def sameNumbers : MetadataStore :=
  runMetadata ((List.range 26).map fun i ↦ .put (i + 1) [97] [49] allGranted) (freshMetadata 4096)

end Obmafs3
