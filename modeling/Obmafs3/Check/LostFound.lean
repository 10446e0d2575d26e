import Obmafs3.Check.CrossCheck

/-!
# What the cross-references change

The steps of the phase as changes of the entries and of the inode records, then the two checks of
the phase with all repairs: which entries and which inodes are there afterwards.
-/

set_option autoImplicit false

namespace Obmafs3

open Library.Search Library.SearchTree

namespace CheckedNames

variable {st st' : CheckedNames} {e : CatalogRecord} {id lf now : ℕ}

/-! ### Entries and inodes -/

/-- The inode record of an id, without its link count. -/
def body (st : CheckedNames) (id : ℕ) : Option InodeFields :=
  (st.inodeGet id).map InodeEntry.body

/-- Two search trees in blocks that hold their nodes, with ids of 64 bits. -/
structure WellFormed (st : CheckedNames) : Prop where
  catalogFits : catalogTable.Fits st.blockSize
  inodesFit : checkedInodeTable.Fits st.blockSize
  catalog : st.catalog.Ordered catalogKey
  inodes : st.inodes.Ordered InodeEntry.inodeId
  ids : ∀ inode ∈ st.inodes.records, inode.inodeId < 2 ^ 64
  next : st.nextInodeId < 2 ^ 64

namespace WellFormed

variable (hst : st.WellFormed)
include hst

theorem inodeGet_eq_some {inode : CheckedInode} :
    st.inodeGet id = some inode ↔ inode ∈ st.inodes.records ∧ inode.inodeId = id :=
  Root.mem_lookup hst.inodes

theorem body_ne_none : st.body id ≠ none ↔ ∃ inode ∈ st.inodes.records, inode.inodeId = id := by
  rw [body, Ne, Option.map_eq_none_iff, ← Ne, Option.ne_none_iff_exists']
  exact exists_congr fun inode ↦ hst.inodeGet_eq_some

theorem mem_inodeIds : id ∈ st.inodeIds ↔ st.body id ≠ none := by
  rw [inodeIds, List.mem_insertionSort, List.mem_map, hst.body_ne_none]
  simp only [(collectTree_perm st.inodes).mem_iff]

end WellFormed

theorem mem_catalogRefs : e ∈ st.catalogRefs ↔ e ∈ st.catalog.records := by
  rw [catalogRefs, List.mem_insertionSort, (collectTree_perm st.catalog).mem_iff]

theorem inodeIds_pairwise (st : CheckedNames) : st.inodeIds.Pairwise (· ≤ ·) :=
  List.pairwise_insertionSort _ _

theorem catalogIds_pairwise (st : CheckedNames) :
    (st.catalogRefs.map CatalogRecord.inodeId).Pairwise (· ≤ ·) := by
  rw [List.pairwise_map]
  exact List.pairwise_insertionSort (fun a b : CatalogRecord ↦ a.inodeId ≤ b.inodeId) _

section

variable (hst : st.WellFormed)
include hst

/-- An orphan is looked for when there are entries. -/
theorem WellFormed.mem_orphanIds :
    id ∈ st.orphanIds ↔ st.catalog.records ≠ [] ∧ st.body id ≠ none ∧ id ≠ rootInodeId ∧
      ∀ e ∈ st.catalog.records, e.inodeId ≠ id := by
  have hmem : id ∈ st.catalogRefs.map CatalogRecord.inodeId ↔
      ∃ e ∈ st.catalog.records, e.inodeId = id := by
    simp only [List.mem_map, mem_catalogRefs]
  have hsorted := st.catalogIds_pairwise
  unfold orphanIds
  cases hids : st.catalogRefs.map CatalogRecord.inodeId with
  | nil =>
    have hempty : st.catalog.records = [] := by
      rw [List.map_eq_nil_iff] at hids
      refine List.eq_nil_iff_forall_not_mem.mpr fun e he ↦ ?_
      rw [← mem_catalogRefs, hids] at he
      exact List.not_mem_nil he
    simp [uniqueIds, hempty]
  | cons x xs =>
    rw [hids] at hsorted hmem
    have hne : st.catalog.records ≠ [] := by
      have hx : x ∈ st.catalogRefs.map CatalogRecord.inodeId := hids ▸ List.mem_cons_self
      obtain ⟨e, he, -⟩ := List.mem_map.mp hx
      exact List.ne_nil_of_mem (mem_catalogRefs.mp he)
    have hcontains : u64SortedContains (x :: uniqueBehind x xs) id = true ↔
        ∃ e ∈ st.catalog.records, e.inodeId = id := by
      rw [u64SortedContains_iff (uniqueBehind_pairwise hsorted), mem_uniqueBehind, hmem]
    simp only [uniqueIds, List.mem_filter, decide_eq_true_eq, hcontains, hst.mem_inodeIds]
    push Not
    tauto

/-- A dangling entry is looked for when there are inodes. -/
theorem WellFormed.mem_danglingRefs : e ∈ st.danglingRefs ↔
      e ∈ st.catalog.records ∧ st.body e.inodeId = none ∧ ∃ id, st.body id ≠ none := by
  unfold danglingRefs
  split_ifs with hids
  · refine iff_of_false List.not_mem_nil ?_
    rintro ⟨-, -, id, hid⟩
    rw [← hst.mem_inodeIds, hids] at hid
    exact List.not_mem_nil hid
  · obtain ⟨id, hid⟩ := List.exists_mem_of_ne_nil _ hids
    rw [hst.mem_inodeIds] at hid
    simp only [List.mem_filter, mem_catalogRefs, decide_eq_true_eq,
      u64SortedContains_iff st.inodeIds_pairwise, hst.mem_inodeIds, not_not]
    exact and_congr_right fun _ ↦ ⟨fun h ↦ ⟨h, id, hid⟩, And.left⟩

/-! ### The steps -/

/-- An entry is made, in place of the one with its key. -/
theorem WellFormed.catalogInsert {record : CatalogRecord}
    (haccepts : catalogTable.Accepts st.blockSize record st.catalog) :
    ∃ tree, st.catalogInsert record = .ok { st with catalog := tree } ∧
      WellFormed { st with catalog := tree } ∧
      ∀ e, e ∈ tree.records ↔
        e = record ∨ e ∈ st.catalog.records ∧ catalogKey e ≠ catalogKey record := by
  obtain ⟨tree, hput, hordered, hrecords⟩ :=
    NameTable.put_accepted hst.catalogFits hst.catalog haccepts
  refine ⟨tree, ?_, { hst with catalog := hordered }, fun e ↦ ?_⟩
  · rw [CheckedNames.catalogInsert, hput]
    rfl
  · rw [hrecords]
    exact mem_upsert

/-- An inode record is stored. -/
theorem WellFormed.inodePut {inode : CheckedInode} (hid : inode.inodeId < 2 ^ 64)
    (haccepts : checkedInodeTable.Accepts st.blockSize inode st.inodes) :
    ∃ tree, st.inodePut inode = .ok { st with inodes := tree } ∧
      WellFormed { st with inodes := tree } ∧
      body { st with inodes := tree } = Function.update st.body inode.inodeId (some inode.body) := by
  obtain ⟨tree, hput, hordered, hrecords⟩ :=
    NameTable.put_accepted hst.inodesFit hst.inodes haccepts
  have hordered' : tree.Ordered InodeEntry.inodeId := hordered
  have hrecords' : tree.records = upsert InodeEntry.inodeId inode st.inodes.records := hrecords
  refine ⟨tree, ?_, { hst with inodes := hordered, ids := fun i hi ↦ ?_ }, funext fun id ↦ ?_⟩
  · rw [CheckedNames.inodePut, hput]
    rfl
  · rcases mem_of_mem_upsert (hrecords' ▸ hi) with rfl | hi
    · exact hid
    · exact hst.ids i hi
  · change Option.map _ (tree.lookup InodeEntry.inodeId id) = _
    rw [Function.update_apply, Root.lookup_eq hordered', hrecords', find?_upsert, body, inodeGet,
      Root.lookup_eq hst.inodes]
    split_ifs with h h' h'
    · rfl
    · exact absurd h.symm h'
    · exact absurd h'.symm h
    · rfl

/-- The entries with a key go, if there are any. -/
theorem WellFormed.deleteEntry {d : CatalogRecord}
    (hreleases : catalogTable.Releases (catalogKey d) st.catalog) :
    ∃ tree, (st.deleteEntry d).2 = { st with catalog := tree } ∧
      WellFormed { st with catalog := tree } ∧
      ∀ e, e ∈ tree.records ↔ e ∈ st.catalog.records ∧ catalogKey e ≠ catalogKey d := by
  obtain ⟨hheight, hkeep⟩ := hreleases
  have hmem (e : CatalogRecord) :
      e ∈ (st.catalog.delete catalogTable.order (catalogKey d)).1.records ↔
        e ∈ st.catalog.records ∧ catalogKey e ≠ catalogKey d := Root.mem_delete hst.catalog
  have hordered : (st.catalog.delete catalogTable.order (catalogKey d)).1.Ordered catalogKey :=
    Root.delete_ordered hst.catalog hkeep
  have hfound (hsome : st.catalog.lookup catalogKey (catalogKey d) ≠ none) :
      (st.catalog.delete catalogTable.order (catalogKey d)).2 = true := Root.delete_found hsome
  rw [CheckedNames.deleteEntry, catalogDelete, NameTable.delete, if_neg (not_lt.mpr hheight)]
  rcases hdelete : st.catalog.delete catalogTable.order (catalogKey d) with ⟨tree, done⟩
  rw [hdelete] at hmem hordered hfound
  cases done with
  | true => exact ⟨tree, rfl, { hst with catalog := hordered }, hmem⟩
  | false =>
    refine ⟨st.catalog, rfl, hst, fun e ↦ ⟨fun he ↦ ⟨he, ?_⟩, And.left⟩⟩
    have hnone : st.catalog.lookup catalogKey (catalogKey d) = none := by
      by_contra hsome
      exact Bool.noConfusion (hfound hsome)
    exact (Root.lookup_none hst.catalog).mp hnone e he

end

/-! ### The loops -/

/-- The key of the entry for an orphan. -/
def linkKey (lf id : ℕ) : CatalogKey := toLex (lf, linkName id)

theorem linkKey_injective (lf : ℕ) : Function.Injective (linkKey lf) := by
  intro id id' hkey
  have hname : linkName id = linkName id' := congrArg (fun k : CatalogKey ↦ (ofLex k).2) hkey
  have hdecimal : decimal id = decimal id' := List.append_cancel_left hname
  have hvalue := congrArg digitsValue hdecimal
  rw [digitsValue_decimal, digitsValue_decimal] at hvalue
  exact_mod_cast hvalue

/-- An orphan finds trees that accept what is stored for it. -/
def LinkFits (lf id : ℕ) (st : CheckedNames) : Prop :=
  ∀ inode, st.inodeGet id = some inode →
    catalogTable.Accepts st.blockSize (linkEntry lf id inode.body) st.catalog ∧
      (inode.refCount = 0 →
        checkedInodeTable.Accepts st.blockSize { inode with refCount := 1 } st.inodes)

def LinksFit (lf : ℕ) : List ℕ → CheckedNames → Prop
  | [], _ => True
  | id :: ids, st => st.LinkFits lf id ∧ LinksFit lf ids (st.linkOrphan lf id).2

/-- The dangling entries find trees that release them. -/
def DeletesFit : List CatalogRecord → CheckedNames → Prop
  | [], _ => True
  | d :: ds, st =>
    catalogTable.Releases (catalogKey d) st.catalog ∧ DeletesFit ds (st.deleteEntry d).2

/-- An entry for each of some inodes was made. -/
structure Linked (lf : ℕ) (ids : List ℕ) (st st' : CheckedNames) : Prop where
  wellFormed : st'.WellFormed
  body : st'.body = st.body
  next : st'.nextInodeId = st.nextInodeId
  entries : ∀ e, e ∈ st'.catalog.records ↔
    (∃ id ∈ ids, ∃ b, st.body id = some b ∧ e = linkEntry lf id b) ∨
      e ∈ st.catalog.records ∧ ∀ id ∈ ids, catalogKey e ≠ linkKey lf id

variable {ids : List ℕ}

theorem Linked.cons {st'' : CheckedNames} (hfirst : Linked lf [id] st st')
    (hrest : Linked lf ids st' st'') : Linked lf (id :: ids) st st'' := by
  refine ⟨hrest.wellFormed, hrest.body.trans hfirst.body, hrest.next.trans hfirst.next, fun e ↦ ?_⟩
  have hone : e ∈ st'.catalog.records ↔ (∃ b, st.body id = some b ∧ e = linkEntry lf id b) ∨
        e ∈ st.catalog.records ∧ catalogKey e ≠ linkKey lf id := by
    simpa using hfirst.entries e
  rw [hrest.entries, hone, hfirst.body]
  simp only [List.mem_cons, exists_eq_or_imp, forall_eq_or_imp]
  constructor
  · rintro (h | ⟨h | ⟨he, hkey⟩, hkeys⟩)
    · exact Or.inl (Or.inr h)
    · exact Or.inl (Or.inl h)
    · exact Or.inr ⟨he, hkey, hkeys⟩
  · rintro ((⟨b, hb, rfl⟩ | h) | ⟨he, hkey, hkeys⟩)
    · by_cases hid : id ∈ ids
      · exact Or.inl ⟨id, hid, b, hb, rfl⟩
      · refine Or.inr ⟨Or.inl ⟨b, hb, rfl⟩, fun id' hid' heq ↦ ?_⟩
        obtain rfl := linkKey_injective lf heq
        exact hid hid'
    · exact Or.inl h
    · exact Or.inr ⟨Or.inr ⟨he, hkey⟩, hkeys⟩

theorem WellFormed.linkOrphan (hst : st.WellFormed) (hfits : st.LinkFits lf id)
    (hbody : st.body id ≠ none) : Linked lf [id] st (st.linkOrphan lf id).2 := by
  obtain ⟨inode, hinode, rfl⟩ := hst.body_ne_none.mp hbody
  have hget : st.inodeGet inode.inodeId = some inode := hst.inodeGet_eq_some.mpr ⟨hinode, rfl⟩
  have hbodyOf : st.body inode.inodeId = some inode.body := by rw [body, hget, Option.map_some]
  obtain ⟨haccepts, hput⟩ := hfits inode hget
  obtain ⟨tree, hinsert, hwf, hmem⟩ := hst.catalogInsert haccepts
  have hentries (e : CatalogRecord) : e ∈ tree.records ↔
      (∃ id ∈ [inode.inodeId], ∃ b, st.body id = some b ∧ e = linkEntry lf id b) ∨
        e ∈ st.catalog.records ∧ ∀ id ∈ [inode.inodeId], catalogKey e ≠ linkKey lf id := by
    simp only [hmem, List.mem_singleton, exists_eq_left, forall_eq, hbodyOf, Option.some.injEq,
      exists_eq_left']
    rfl
  rw [CheckedNames.linkOrphan, hget]
  simp only [hinsert]
  split_ifs with hcount
  · have hid : ({ inode with refCount := 1 } : CheckedInode).inodeId < 2 ^ 64 := hst.ids inode hinode
    obtain ⟨inodes, hstored, hwf', hbody'⟩ := hwf.inodePut hid (hput hcount)
    rw [hstored]
    have hsame : body { st with catalog := tree, inodes := inodes } = st.body :=
      hbody'.trans (Function.update_eq_self_iff.mpr hbodyOf.symm)
    exact ⟨hwf', hsame, rfl, hentries⟩
  · exact ⟨hwf, rfl, rfl, hentries⟩

/-- The loop over the orphans. -/
theorem WellFormed.linkOrphans (hst : st.WellFormed) (hfits : LinksFit lf ids st)
    (hbody : ∀ id ∈ ids, st.body id ≠ none) (fixed : ℕ) :
    Linked lf ids st (st.linkOrphans lf ids fixed).2 := by
  induction ids generalizing st fixed with
  | nil => exact ⟨hst, rfl, rfl, fun e ↦ by simp [CheckedNames.linkOrphans]⟩
  | cons id ids ih =>
    obtain ⟨hfirst, hrest⟩ := hfits
    have hlinked := hst.linkOrphan hfirst (hbody id List.mem_cons_self)
    have hbody' : ∀ id' ∈ ids, (st.linkOrphan lf id).2.body id' ≠ none := by
      intro id' hid'
      rw [hlinked.body]
      exact hbody id' (List.mem_cons_of_mem id hid')
    exact hlinked.cons (ih hlinked.wellFormed hrest hbody' _)

/-- The loop over the dangling entries. -/
theorem WellFormed.deleteEntries (hst : st.WellFormed) {ds : List CatalogRecord}
    (hfits : DeletesFit ds st) (fixed : ℕ) :
    ∃ tree, (st.deleteEntries ds fixed).2 = { st with catalog := tree } ∧
      WellFormed { st with catalog := tree } ∧
      ∀ e, e ∈ tree.records ↔ e ∈ st.catalog.records ∧ ∀ d ∈ ds, catalogKey e ≠ catalogKey d := by
  induction ds generalizing st fixed with
  | nil => exact ⟨st.catalog, rfl, hst, fun e ↦ by simp⟩
  | cons d ds ih =>
    obtain ⟨hfirst, hrest⟩ := hfits
    obtain ⟨tree, hdeleted, hwf, hmem⟩ := hst.deleteEntry hfirst
    rw [hdeleted] at hrest
    obtain ⟨tree', hrun, hwf', hmem'⟩ :=
      ih hwf hrest (if (st.deleteEntry d).1 then fixed + 1 else fixed)
    refine ⟨tree', ?_, hwf', fun e ↦ ?_⟩
    · change (CheckedNames.deleteEntries ds _ (st.deleteEntry d).2).2 = _
      rw [hdeleted]
      exact hrun
    · rw [hmem', hmem, List.forall_mem_cons, and_assoc]

/-! ### All repairs -/

/-- Every question answered with yes. -/
def allRepairs : CrossAnswers := ⟨true, true, true⟩

/-- The entry of a new `lost+found`. -/
def lostFoundEntry (id : ℕ) : CatalogRecord := ⟨id, rootInodeId, true, lostFoundName⟩

/-- There are orphans and no entry `lost+found`. -/
def Created (st : CheckedNames) : Prop :=
  st.orphanIds ≠ [] ∧ st.catalogLookup lostFoundKey = none

/-- The inode that the orphans go below. -/
def lostFoundId (st : CheckedNames) : ℕ :=
  match st.catalogLookup lostFoundKey with
  | some entry => entry.inodeId
  | none => st.nextInodeId

/-- An orphan that gets an entry. -/
def Moved (st : CheckedNames) (id : ℕ) : Prop := id ∈ st.orphanIds ∧ id ≠ st.lostFoundId

/-- The volume after the part for orphans. -/
def relinked (now : ℕ) (st : CheckedNames) : CheckedNames :=
  if st.orphanIds ≠ [] then (st.relinkOrphans now st.orphanIds).2 else st

/-- Every insertion and every deletion of the phase finds a tree that takes it. -/
structure PhaseFits (now : ℕ) (st : CheckedNames) : Prop where
  lostFound : st.Created →
    catalogTable.Accepts st.blockSize (lostFoundEntry st.nextInodeId) st.catalog ∧
      checkedInodeTable.Accepts st.blockSize (lostFoundInode now st.nextInodeId) st.inodes
  links : st.orphanIds ≠ [] →
    LinksFit st.lostFoundId (st.orphanIds.filter (· ≠ st.lostFoundId)) (st.findLostFound now).2
  deletes : DeletesFit st.danglingRefs (st.relinked now)

/-- Where a new `lost+found` comes in. -/
structure Prepared (now : ℕ) (st st' : CheckedNames) : Prop where
  wellFormed : st'.WellFormed
  made : st.Created → st'.body st.lostFoundId = some (lostFoundInode now st.lostFoundId).body
  kept : ∀ id, ¬(st.Created ∧ id = st.lostFoundId) → st'.body id = st.body id
  entries : ∀ e, e ∈ st'.catalog.records ↔
    (st.Created ∧ e = lostFoundEntry st.lostFoundId) ∨ e ∈ st.catalog.records

theorem WellFormed.findLostFound (hst : st.WellFormed) (hfits : st.PhaseFits now)
    (horphans : st.orphanIds ≠ []) :
    (st.findLostFound now).1 = some st.lostFoundId ∧ Prepared now st (st.findLostFound now).2 := by
  cases hlookup : st.catalogLookup lostFoundKey with
  | some entry =>
    have hnot : ¬st.Created := fun h ↦ Option.some_ne_none entry (hlookup.symm.trans h.2)
    simp only [CheckedNames.findLostFound, lostFoundId, hlookup]
    exact ⟨trivial, hst, fun h ↦ absurd h hnot, fun _ _ ↦ rfl, fun e ↦ by simp [hnot]⟩
  | none =>
    have hcreated : st.Created := ⟨horphans, hlookup⟩
    have hid : st.lostFoundId = st.nextInodeId := by rw [lostFoundId, hlookup]
    obtain ⟨hentry, hinode⟩ := hfits.lostFound hcreated
    have hnext : (st.nextInodeId + 1) % 2 ^ 64 < 2 ^ 64 := Nat.mod_lt _ (by decide)
    have halloc : st.allocInodeId.WellFormed := { hst with next := hnext }
    obtain ⟨tree, hinsert, hwf, hmem⟩ := halloc.catalogInsert hentry
    obtain ⟨inodes, hput, hwf', hbody⟩ := hwf.inodePut hst.next hinode
    have habsent (e : CatalogRecord) (he : e ∈ st.catalog.records) : catalogKey e ≠ lostFoundKey :=
      (Root.lookup_none hst.catalog).mp hlookup e he
    rw [lostFoundEntry] at hinsert
    simp only [CheckedNames.findLostFound, hlookup, hinsert, hput]
    refine ⟨hid ▸ rfl, hwf', fun _ ↦ ?_, fun id hne ↦ ?_, fun e ↦ ?_⟩
    · rw [hbody, hid]
      exact Function.update_self ..
    · rw [hbody]
      exact Function.update_of_ne (fun h ↦ hne ⟨hcreated, h.trans hid.symm⟩) ..
    · rw [hid]
      refine (hmem e).trans (or_congr ?_ ⟨And.left, fun he ↦ ⟨he, habsent e he⟩⟩)
      exact ⟨fun h ↦ ⟨hcreated, h⟩, And.right⟩

/-- An entry that stays: it names an inode, and no entry for an orphan takes its place. -/
structure Kept (st : CheckedNames) (e : CatalogRecord) : Prop where
  entry : e ∈ st.catalog.records
  live : e ∉ st.danglingRefs
  unlinked : ∀ id, st.Moved id → catalogKey e ≠ linkKey st.lostFoundId id

/-- An entry for an orphan that stays: it is not in place of a dangling one. -/
structure Linking (st : CheckedNames) (id : ℕ) (e : CatalogRecord) : Prop where
  moved : st.Moved id
  entry : ∃ b, st.body id = some b ∧ e = linkEntry st.lostFoundId id b
  clear : ∀ d ∈ st.danglingRefs, catalogKey d ≠ linkKey st.lostFoundId id

/-- What is there after all repairs. -/
structure CrossChecked (now : ℕ) (st st' : CheckedNames) : Prop where
  wellFormed : st'.WellFormed
  made : st.Created → st'.body st.lostFoundId = some (lostFoundInode now st.lostFoundId).body
  kept : ∀ id, ¬(st.Created ∧ id = st.lostFoundId) → st'.body id = st.body id
  entries : ∀ e, e ∈ st'.catalog.records ↔
    (st.Created ∧ e = lostFoundEntry st.lostFoundId) ∨ (∃ id, st.Linking id e) ∨ st.Kept e

theorem crossCheck_allRepairs (st : CheckedNames) : (st.crossCheckInodesCatalog allRepairs now).2 =
      ((st.relinked now).deleteEntries st.danglingRefs 0).2 := by
  unfold crossCheckInodesCatalog relinked
  by_cases horphans : st.orphanIds = [] <;> by_cases hdangling : st.danglingRefs = [] <;>
    simp [horphans, hdangling, allRepairs, CheckedNames.deleteEntries]

theorem WellFormed.body_orphan (hst : st.WellFormed) (hid : id ∈ st.orphanIds) :
    st.body id ≠ none := (hst.mem_orphanIds.mp hid).2.1

/-- The entry that is made for `lost+found` has a key of its own. -/
theorem linkKey_ne_lostFound (lf id : ℕ) : lostFoundKey ≠ linkKey lf id := by
  intro heq
  have hname : lostFoundName = linkName id := congrArg (fun k : CatalogKey ↦ (ofLex k).2) heq
  exact absurd (congrArg List.head? hname) (by simp [lostFoundName, linkName])

theorem WellFormed.relinked (hst : st.WellFormed) (hfits : st.PhaseFits now) :
    (st.relinked now).WellFormed ∧ (st.Created →
        (st.relinked now).body st.lostFoundId = some (lostFoundInode now st.lostFoundId).body) ∧
      (∀ id, ¬(st.Created ∧ id = st.lostFoundId) → (st.relinked now).body id = st.body id) ∧
      ∀ e, e ∈ (st.relinked now).catalog.records ↔
        (st.Created ∧ e = lostFoundEntry st.lostFoundId) ∨
          (∃ id, st.Moved id ∧ ∃ b, st.body id = some b ∧ e = linkEntry st.lostFoundId id b) ∨
          e ∈ st.catalog.records ∧ ∀ id, st.Moved id → catalogKey e ≠ linkKey st.lostFoundId id := by
  by_cases horphans : st.orphanIds = []
  · have hmoved (id : ℕ) : ¬st.Moved id := fun h ↦ List.not_mem_nil (horphans ▸ h.1)
    have hcreated : ¬st.Created := fun h ↦ h.1 horphans
    rw [CheckedNames.relinked, if_neg (not_not.mpr horphans)]
    exact ⟨hst, fun h ↦ absurd h hcreated, fun _ _ ↦ rfl, fun e ↦ by simp [hmoved, hcreated]⟩
  · obtain ⟨hfound, hprepared⟩ := hst.findLostFound hfits horphans
    have hlinks := hfits.links horphans
    have hrun : st.relinked now = ((st.findLostFound now).2.linkOrphans st.lostFoundId
        (st.orphanIds.filter (· ≠ st.lostFoundId)) 0).2 := by
      rw [CheckedNames.relinked, if_pos horphans, relinkOrphans]
      rcases hrun : st.findLostFound now with ⟨lf, st₁⟩
      rw [hrun] at hfound
      obtain rfl : lf = some st.lostFoundId := hfound
      rfl
    have hmem (id : ℕ) : id ∈ st.orphanIds.filter (· ≠ st.lostFoundId) ↔ st.Moved id := by
      simp [Moved]
    have hsame (id : ℕ) (hid : st.Moved id) : (st.findLostFound now).2.body id = st.body id :=
      hprepared.kept id fun h ↦ hid.2 h.2
    have hlinked := hprepared.wellFormed.linkOrphans hlinks (fun id hid ↦ by
      rw [hmem] at hid
      rw [hsame id hid]
      exact hst.body_orphan hid.1) 0
    rw [← hrun] at hlinked
    refine ⟨hlinked.wellFormed, fun h ↦ ?_, fun id hid ↦ ?_, fun e ↦ ?_⟩
    · rw [hlinked.body]
      exact hprepared.made h
    · rw [hlinked.body]
      exact hprepared.kept id hid
    · rw [hlinked.entries, hprepared.entries]
      simp only [hmem]
      have hbodies : (∃ id, st.Moved id ∧ ∃ b, (st.findLostFound now).2.body id = some b ∧
          e = linkEntry st.lostFoundId id b) ↔
            ∃ id, st.Moved id ∧ ∃ b, st.body id = some b ∧ e = linkEntry st.lostFoundId id b :=
        exists_congr fun id ↦ and_congr_right fun hid ↦ by rw [hsame id hid]
      rw [hbodies]
      constructor
      · rintro (h | ⟨h | he, hkeys⟩)
        · exact Or.inr (Or.inl h)
        · exact Or.inl h
        · exact Or.inr (Or.inr ⟨he, hkeys⟩)
      · rintro (⟨hcreated, rfl⟩ | h | ⟨he, hkeys⟩)
        · exact Or.inr ⟨Or.inl ⟨hcreated, rfl⟩, fun id _ ↦ linkKey_ne_lostFound _ id⟩
        · exact Or.inl h
        · exact Or.inr ⟨Or.inr he, hkeys⟩

/-- The first check with all repairs. -/
theorem WellFormed.crossCheck (hst : st.WellFormed) (hfits : st.PhaseFits now) :
    CrossChecked now st (st.crossCheckInodesCatalog allRepairs now).2 := by
  obtain ⟨hwf, hmade, hkept, hentries⟩ := hst.relinked hfits
  obtain ⟨tree, hrun, hwf', hmem⟩ := hwf.deleteEntries hfits.deletes 0
  rw [crossCheck_allRepairs, hrun]
  refine ⟨hwf', hmade, hkept, fun e ↦ ?_⟩
  have hdangling {d : CatalogRecord} (hd : d ∈ st.danglingRefs) : d ∈ st.catalog.records :=
    (hst.mem_danglingRefs.mp hd).1
  rw [hmem, hentries]
  constructor
  · rintro ⟨⟨hcreated, rfl⟩ | ⟨id, hid, hentry⟩ | ⟨he, hkeys⟩, hclear⟩
    · exact Or.inl ⟨hcreated, rfl⟩
    · obtain ⟨b, hb, rfl⟩ := hentry
      exact Or.inr (Or.inl ⟨id, hid, ⟨b, hb, rfl⟩, fun d hd ↦ (hclear d hd).symm⟩)
    · exact Or.inr (Or.inr ⟨he, fun h ↦ hclear e h rfl, hkeys⟩)
  · rintro (⟨hcreated, rfl⟩ | ⟨id, hid, hentry, hclear⟩ | ⟨he, hlive, hkeys⟩)
    · refine ⟨Or.inl ⟨hcreated, rfl⟩, fun d hd heq ↦ ?_⟩
      exact (Root.lookup_none hst.catalog).mp hcreated.2 d (hdangling hd) heq.symm
    · obtain ⟨b, hb, rfl⟩ := hentry
      exact ⟨Or.inr (Or.inl ⟨id, hid, b, hb, rfl⟩), fun d hd ↦ (hclear d hd).symm⟩
    · refine ⟨Or.inr (Or.inr ⟨he, hkeys⟩), fun d hd heq ↦ hlive ?_⟩
      rwa [Root.eq_of_key_eq hst.catalog he (hdangling hd) heq]

/-! ### The two checks together -/

theorem crossCheck_clean (horphans : st.orphanIds = []) (hdangling : st.danglingRefs = [])
    (answers : CrossAnswers) :
    st.crossCheckInodesCatalog answers now = (CrossReport.clean, st) := by
  simp [crossCheckInodesCatalog, horphans, hdangling, CrossReport.clean]

/-- The checks may be run on trees without a root: they find nothing there. -/
theorem crossReferences_eq (answers : CrossAnswers) (now : ℕ) (st : CheckedNames) :
    st.crossReferences answers now =
      (st.crossCheckInodesCatalog answers now).2.validateNextInodeId answers
        (st.crossCheckInodesCatalog answers now).1 := by
  have hguard : (if hasRoot st.catalog ∧ hasRoot st.inodes then
      st.crossCheckInodesCatalog answers now else (CrossReport.clean, st)) =
        st.crossCheckInodesCatalog answers now := by
    obtain ⟨blockSize, catalog, inodes, next⟩ := st
    cases catalog with
    | empty => exact (crossCheck_clean rfl (by simp [danglingRefs, catalogRefs, collectTree]) _).symm
    | node height t =>
      cases inodes with
      | empty =>
        refine (crossCheck_clean ?_ rfl _).symm
        rw [orphanIds]
        cases uniqueIds _ <;> rfl
      | node height' t' => rfl
  rw [crossReferences, hguard]
  rcases st.crossCheckInodesCatalog answers now with ⟨report, st'⟩
  obtain ⟨blockSize, catalog, inodes, next⟩ := st'
  cases inodes with
  | empty => rfl
  | node height t => rfl

theorem le_foldl_max (hid : id ∈ ids) (m : ℕ) : id ≤ ids.foldl max m := by
  induction ids generalizing m with
  | nil => exact absurd hid List.not_mem_nil
  | cons x xs ih =>
    rcases List.mem_cons.mp hid with rfl | hid
    · have hle (ys : List ℕ) (m : ℕ) : m ≤ ys.foldl max m := by
        induction ys generalizing m with
        | nil => exact le_rfl
        | cons y ys ih' => exact (le_max_left m y).trans (ih' _)
      exact (le_max_right m id).trans (hle xs _)
    · exact ih hid _

theorem foldl_max_mem (hne : ids ≠ []) : ids.foldl max 0 ∈ ids := by
  have hmem (ys : List ℕ) (m : ℕ) : ys.foldl max m ∈ m :: ys := by
    induction ys generalizing m with
    | nil => exact List.mem_singleton_self m
    | cons y ys ih =>
      rcases List.mem_cons.mp (ih (max m y)) with h | h
      · rw [List.foldl_cons, h]
        rcases max_choice m y with h' | h' <;> simp [h']
      · exact List.mem_cons_of_mem m (List.mem_cons_of_mem y h)
  cases ids with
  | nil => exact absurd rfl hne
  | cons x xs =>
    have h := hmem xs x
    rwa [List.foldl_cons, Nat.zero_max]

/-- The second check reports nothing exactly when the next id is above all in use. -/
theorem WellFormed.validate_report (hst : st.WellFormed) (answers : CrossAnswers)
    (report : CrossReport) (hreport : report.nextTooLow = false) :
    (st.validateNextInodeId answers report).1 = report ↔
      ∀ id, st.body id ≠ none → id < st.nextInodeId := by
  have hids (id : ℕ) : id ∈ (collectTree st.inodes).map InodeEntry.inodeId ↔ st.body id ≠ none := by
    rw [← hst.mem_inodeIds, inodeIds, List.mem_insertionSort]
  rw [validateNextInodeId]
  generalize (collectTree st.inodes).map InodeEntry.inodeId = ids at hids
  split_ifs with htoo hyes
  · refine iff_of_false (fun h ↦ ?_) fun h ↦ ?_
    · rw [← h] at hreport
      cases hreport
    · exact absurd (h _ ((hids _).mp (foldl_max_mem htoo.1))) (not_lt.mpr htoo.2)
  · refine iff_of_false (fun h ↦ ?_) fun h ↦ ?_
    · rw [← h] at hreport
      cases hreport
    · exact absurd (h _ ((hids _).mp (foldl_max_mem htoo.1))) (not_lt.mpr htoo.2)
  · refine iff_of_true rfl fun id hid ↦ ?_
    have hmem := (hids id).mpr hid
    have hne := List.ne_nil_of_mem hmem
    exact (le_foldl_max hmem 0).trans_lt (not_le.mp fun hle ↦ htoo ⟨hne, hle⟩)

/-- The second check with all repairs. -/
theorem WellFormed.validate (hst : st.WellFormed) (report : CrossReport) :
    (st.validateNextInodeId allRepairs report).2.WellFormed ∧
      (st.validateNextInodeId allRepairs report).2.body = st.body ∧
      (st.validateNextInodeId allRepairs report).2.catalog = st.catalog ∧
      ((∀ id, st.body id ≠ none → id + 1 < 2 ^ 64) → ∀ id, st.body id ≠ none →
        id < (st.validateNextInodeId allRepairs report).2.nextInodeId) := by
  have hids (id : ℕ) : id ∈ (collectTree st.inodes).map InodeEntry.inodeId ↔ st.body id ≠ none := by
    rw [← hst.mem_inodeIds, inodeIds, List.mem_insertionSort]
  rw [validateNextInodeId]
  generalize (collectTree st.inodes).map InodeEntry.inodeId = ids at hids
  split_ifs with htoo hyes
  · refine ⟨{ hst with next := Nat.mod_lt _ (by decide) }, rfl, rfl, fun hbound id hid ↦ ?_⟩
    have hmax := hbound _ ((hids _).mp (foldl_max_mem htoo.1))
    change id < (ids.foldl max 0 + 1) % 2 ^ 64
    rw [Nat.mod_eq_of_lt hmax]
    exact Nat.lt_succ_of_le (le_foldl_max ((hids id).mpr hid) 0)
  · exact absurd rfl hyes
  · refine ⟨hst, rfl, rfl, fun _ id hid ↦ ?_⟩
    have hmem := (hids id).mpr hid
    have hne := List.ne_nil_of_mem hmem
    exact (le_foldl_max hmem 0).trans_lt (not_le.mp fun hle ↦ htoo ⟨hne, hle⟩)

end CheckedNames

end Obmafs3
