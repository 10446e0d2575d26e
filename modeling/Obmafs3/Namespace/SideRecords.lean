import Obmafs3.Metadata.Query
import Obmafs3.Namespace.Sidecar
import Obmafs3.Tags.DeleteAll
import Obmafs3.Trees.Calls

/-!
# Side records of removed files

An inode has records in trees of their own: media tags, references to sector tags, the junk map,
metadata and what the metadata indexes have of it. With its last name a file loses its inode, the
media tags if it is an image of one of three kinds, and the junk map if it is one of these. A
directory that a rename replaces loses its inode. No removal goes near the sector tags and the
metadata.

So a removal leaves no record behind exactly when the inode has none in the trees that the removal
does not look at.
-/

set_option autoImplicit false

namespace Obmafs3

open Library.Search Library.SearchTree

/-! ### The trees -/

/-- What a removal reads of an inode record: its type, its inline extents and its overflow ones. -/
structure InodeBody where
  fileType : FileType
  extents : List ExtentRun
  overflow : List ExtentRun

/-- `struct sector_tag_ref_record`. -/
structure SectorTagRef where
  inodeId : ℕ
  sector : ℕ
  tagType : ℕ
  tagHash : ℕ

abbrev SectorTagRefTree := Root ℕ (ℕ ×ₗ ℕ ×ₗ ℕ) SectorTagRef

/-- A mounted volume with the trees that have side records. `shared` are the blocks with more than
one owner. -/
structure SideStore where
  names : Mounted InodeBody
  shared : ℕ → Bool
  tags : MediaTags
  sectorTagRefs : SectorTagRefTree
  junkMap : JunkMapTree
  metadata : MetadataStore

/-- The physical blocks of the extents of a file. -/
def InodeBody.blocks (body : InodeBody) : List ℕ :=
  (body.extents ++ body.overflow).flatMap fun e ↦
    (List.range e.blockCount).map (e.startBlock + ·)

/-- `obmafs3_free_file_blocks`. A block that is shared loses an owner and stays. -/
def freeFileBlocks (shared : ℕ → Bool) (body : InodeBody) (vol : Volume) : Volume :=
  body.blocks.foldl (fun vol lba ↦ if shared lba then vol else vol.freeBlocks lba 1) vol

/-- The types whose media tags go with the last name. -/
def FileType.losesTags : FileType → Bool
  | mediaImage | nintendo | ps3Image => true
  | _ => false

/-- The type whose junk map goes with the last name. -/
def FileType.losesJunkMap : FileType → Bool
  | nintendo => true
  | _ => false

namespace SideStore

/-- Run a function of the names. -/
def onNames (f : Mounted InodeBody → Option Errno × Mounted InodeBody) (st : SideStore) :
    Option Errno × SideStore :=
  ((f st.names).1, { st with names := (f st.names).2 })

def onVolume (f : Volume → Volume) (st : SideStore) : SideStore :=
  { st with tags := { st.tags with vol := f st.tags.vol } }

/-! ### Removals -/

/-- `obmafs3_inode_delete`, which releases the blocks of the inline extents. -/
def inodeDelete (inodeId : ℕ) (st : SideStore) : Option Errno × SideStore :=
  match st.names.inodeGet inodeId with
  | none => (some .eio, st)
  | some inode =>
    (st.onVolume (freeExtents inode.body.extents)).onNames fun names ↦
      Mounted.orEio (names.inodeDelete inodeId)

/-- One name less for an inode. With the last one go its data blocks, its media tags and its junk
map, each if the type has them, and the inode. The errors of the former are not looked at. -/
def dropLink (inodeId : ℕ) (st : SideStore) : Option Errno × SideStore :=
  match st.names.inodeGet inodeId with
  | none => (some .eio, st)
  | some inode =>
    if 1 < inode.refCount then
      st.onNames fun names ↦
        Mounted.orEio (names.inodePut { inode with refCount := inode.refCount - 1 })
    else
      let st := st.onVolume (freeFileBlocks st.shared inode.body)
      let st :=
        if inode.body.fileType.losesTags then
          { st with tags := (mediaTagDeleteAll inodeId st.tags).2 }
        else st
      let st :=
        if inode.body.fileType.losesJunkMap then
          { st with junkMap := junkMapDeleteAll inodeId st.junkMap }
        else st
      st.inodeDelete inodeId

/-- `obmafs3_fuse_unlink_impl`. -/
def fuseUnlink (key : CatalogKey) (st : SideStore) : Option Errno × SideStore :=
  match st.names.catalogLookup key with
  | none => (some .enoent, st)
  | some entry =>
    if entry.directoryFlag then (some .eisdir, st)
    else
      match st.names.catalogDelete key with
      | .error names => (some .eio, { st with names })
      | .ok names => ({ st with names } : SideStore).dropLink entry.inodeId

/-- `replace_dest`. -/
def replaceDest (dst : CatalogRecord) (key : CatalogKey) (st : SideStore) :
    Option Errno × SideStore :=
  if dst.directoryFlag then
    if (st.names.catalogList dst.inodeId).isEmpty then
      match st.names.catalogDelete key with
      | .error names => (some .eio, { st with names })
      | .ok names => ({ st with names } : SideStore).inodeDelete dst.inodeId
    else (some .enotempty, st)
  else
    match st.names.catalogDelete key with
    | .error names => (some .eio, { st with names })
    | .ok names => ({ st with names } : SideStore).dropLink dst.inodeId

/-- The part of `obmafs3_fuse_rename_impl` that moves an entry over another. -/
def replaceEntry (src dst : CatalogRecord) (oldKey newKey : CatalogKey) (st : SideStore) :
    Option Errno × SideStore :=
  match st.replaceDest dst newKey with
  | (some e, st) => (some e, st)
  | (none, st) => st.onNames (·.moveEntry src oldKey newKey)

/-- `obmafs3_fuse_rename_impl`. -/
def fuseRename (flags : Mounted.RenameFlags) (oldKey newKey : CatalogKey) (st : SideStore) :
    Option Errno × SideStore :=
  if flags.others then (some .einval, st)
  else
    match st.names.catalogLookup oldKey with
    | none => (some .enoent, st)
    | some src =>
      let found := st.names.catalogLookup newKey
      if flags.exchange then
        match found with
        | none => (some .enoent, st)
        | some dst =>
          if src.directoryFlag ≠ dst.directoryFlag then (some .enotdir, st)
          else st.onNames (·.exchangeEntries src dst oldKey newKey)
      else if flags.noreplace ∧ found.isSome then (some .eexist, st)
      else if found.any fun dst ↦ src.directoryFlag && !dst.directoryFlag then
        (some .enotdir, st)
      else if found.any fun dst ↦ !src.directoryFlag && dst.directoryFlag then
        (some .eisdir, st)
      else if src.directoryFlag ∧ (ofLex oldKey).1 ≠ (ofLex newKey).1 ∧
          st.names.isAncestor src.inodeId (ofLex newKey).1 then (some .einval, st)
      else
        match found with
        | none => st.onNames (·.moveEntry src oldKey newKey)
        | some dst => st.replaceEntry src dst oldKey newKey

end SideStore

/-- The two calls that take names away. -/
inductive RemovalCall
  | unlink (key : CatalogKey)
  | rename (flags : Mounted.RenameFlags) (oldKey newKey : CatalogKey)

def RemovalCall.run (st : SideStore) : RemovalCall → Option Errno × SideStore
  | .unlink key => st.fuseUnlink key
  | .rename flags oldKey newKey => st.fuseRename flags oldKey newKey

/-! ### What a removal leaves -/

/-- The inode that the entry names has no other name. -/
def SideStore.lastName (st : SideStore) (entry : CatalogRecord) : Bool :=
  entry.directoryFlag || (st.names.inodeGet entry.inodeId).any (·.refCount ≤ 1)

/-- The entry whose inode loses its last name in a call. -/
def RemovalCall.takes (st : SideStore) : RemovalCall → Option CatalogRecord
  | .unlink key =>
    (st.names.catalogLookup key).filter fun entry ↦ !entry.directoryFlag && st.lastName entry
  | .rename flags oldKey newKey =>
    if st.names.renameCheck flags oldKey newKey = none ∧ flags.exchange = false then
      (st.names.catalogLookup newKey).filter st.lastName
    else none

/-- The type of the file that an entry names. -/
def SideStore.fileType (st : SideStore) (entry : CatalogRecord) : Option FileType :=
  if entry.directoryFlag then none
  else (st.names.inodeGet entry.inodeId).map fun inode ↦ inode.body.fileType

/-- The inodes that a user index has records of. -/
def UserTree.inodeIds : UserTree → List ℕ
  | .numeric tree => tree.records.map MetadataNumericIdxRecord.inodeId
  | .string tree => tree.records.map MetadataIdxRecord.inodeId

/-- The inodes that the metadata tree and the indexes have records of. -/
def MetadataStore.inodeIds (s : MetadataStore) : List ℕ :=
  s.metaTree.records.map MetadataRecord.inodeId ++
    s.midxTree.records.map MetadataIdxRecord.inodeId ++
      ((s.numTree.map fun tree ↦ tree.records.map MetadataNumericIdxRecord.inodeId).getD [] ++
        s.userIndexes.flatMap fun u ↦ u.tree.inodeIds)

/-- Nothing is left of an inode, and all other inodes have the records that they had. -/
structure Forgotten (inodeId : ℕ) (st st' : SideStore) : Prop where
  inode : ∀ inode ∈ st'.names.inodes, inode.inodeId ≠ inodeId
  mediaTags : ∀ r ∈ st'.tags.tree.records, r.inodeId ≠ inodeId
  payload : ∀ r ∈ st.tags.tree.records, r.inodeId = inodeId → ∀ lba, r.owns lba →
    st'.tags.vol.bitmap lba = false
  sectorTags : ∀ r ∈ st'.sectorTagRefs.records, r.inodeId ≠ inodeId
  junkMap : ∀ r ∈ st'.junkMap.records, r.inodeId ≠ inodeId
  metadata : inodeId ∉ st'.metadata.inodeIds
  queries : ∀ lib flt, inodeId ∉ midxCollectMatching lib flt st'.metadata
  otherInodes : st'.names.inodes.filter (·.inodeId ≠ inodeId) =
    st.names.inodes.filter (·.inodeId ≠ inodeId)
  otherTags : st'.tags.tree.records.filter (·.inodeId ≠ inodeId) =
    st.tags.tree.records.filter (·.inodeId ≠ inodeId)
  otherRefs : st'.sectorTagRefs.records.filter (·.inodeId ≠ inodeId) =
    st.sectorTagRefs.records.filter (·.inodeId ≠ inodeId)
  otherJunk : st'.junkMap.records.filter (·.inodeId ≠ inodeId) =
    st.junkMap.records.filter (·.inodeId ≠ inodeId)
  otherMetadata : st'.metadata.metaTree.records.filter (·.inodeId ≠ inodeId) =
    st.metadata.metaTree.records.filter (·.inodeId ≠ inodeId)
  otherIndexed : st'.metadata.inodeIds.filter (· ≠ inodeId) =
    st.metadata.inodeIds.filter (· ≠ inodeId)

/-- The inode has no record in a tree that its removal does not look at. -/
structure Bare (st : SideStore) (entry : CatalogRecord) : Prop where
  sectorTags : ∀ r ∈ st.sectorTagRefs.records, r.inodeId ≠ entry.inodeId
  metadata : entry.inodeId ∉ st.metadata.inodeIds
  mediaTags : (st.fileType entry).any FileType.losesTags = false →
    ∀ r ∈ st.tags.tree.records, r.inodeId ≠ entry.inodeId
  junkMap : (st.fileType entry).any FileType.losesJunkMap = false →
    ∀ r ∈ st.junkMap.records, r.inodeId ≠ entry.inodeId

/-- The deletion of the media tags, where there is one, takes no last leaf of an index node below
the root. -/
def SideStore.TagsLeaveCleanly (st : SideStore) (entry : CatalogRecord) : Prop :=
  (st.fileType entry).any FileType.losesTags = true →
    CleanLoop entry.inodeId (st.tags.tree.records.length + 1) st.tags

/-- A volume whose trees are in order and whose media tags have blocks of their own. -/
structure SideStore.Consistent (st : SideStore) : Prop where
  tags : TidyTags st.tags
  junkMap : st.junkMap.Ordered JunkMapRecord.order
  apart : ∀ inode ∈ st.names.inodes, ∀ lba ∈ inode.body.blocks,
    lba ≠ 0 ∧ ∀ r ∈ st.tags.tree.records, r.owns lba = false

/-! ### Blocks that are released -/

/-- A volume with some bits of the bitmap cleared, all of them of blocks in a set. -/
structure Released (blocks : ℕ → Prop) (vol vol' : Volume) : Prop where
  eq : ∃ bitmap, vol' = { vol with bitmap }
  cleared : ∀ lba, vol'.bitmap lba = true → vol.bitmap lba = true
  others : ∀ lba, ¬blocks lba → vol'.bitmap lba = vol.bitmap lba

section Released

variable {blocks : ℕ → Prop} {vol vol' vol'' : Volume}

theorem Released.refl (blocks : ℕ → Prop) (vol : Volume) : Released blocks vol vol :=
  ⟨⟨vol.bitmap, rfl⟩, fun _ h ↦ h, fun _ _ ↦ rfl⟩

theorem Released.trans (hfirst : Released blocks vol vol') (hsecond : Released blocks vol' vol'') :
    Released blocks vol vol'' := by
  obtain ⟨bitmap, rfl⟩ := hfirst.eq
  obtain ⟨bitmap', rfl⟩ := hsecond.eq
  exact ⟨⟨bitmap', rfl⟩, fun lba h ↦ hfirst.cleared lba (hsecond.cleared lba h),
    fun lba h ↦ (hsecond.others lba h).trans (hfirst.others lba h)⟩

theorem released_freeBlocks {start count : ℕ}
    (hblocks : ∀ lba, start ≤ lba → lba < start + count → blocks lba) :
    Released blocks vol (vol.freeBlocks start count) := by
  refine ⟨⟨_, rfl⟩, fun lba hlba ↦ ?_, fun lba hlba ↦ ?_⟩
  · simp only [Volume.freeBlocks, Volume.bitmapClear] at hlba
    split_ifs at hlba
    exact hlba
  · simp only [Volume.freeBlocks, Volume.bitmapClear]
    exact if_neg fun h ↦ hlba (hblocks lba h.1 h.2.1)

theorem released_foldl {ι : Type} {f : Volume → ι → Volume} {items : List ι}
    (hstep : ∀ x ∈ items, ∀ vol, Released blocks vol (f vol x)) :
    Released blocks vol (items.foldl f vol) := by
  induction items generalizing vol with
  | nil => exact .refl blocks vol
  | cons x items ih =>
    exact (hstep x List.mem_cons_self vol).trans
      (ih fun y hy ↦ hstep y (List.mem_cons_of_mem x hy))

theorem released_freeFileBlocks (shared : ℕ → Bool) (body : InodeBody) :
    Released (· ∈ body.blocks) vol (freeFileBlocks shared body vol) := by
  refine released_foldl fun lba hlba vol ↦ ?_
  split_ifs
  · exact .refl _ vol
  · refine released_freeBlocks fun i hle hlt ↦ ?_
    obtain rfl : i = lba := by omega
    exact hlba

theorem released_freeExtents (body : InodeBody) :
    Released (· ∈ body.blocks) vol (freeExtents body.extents vol) := by
  refine released_foldl fun e he vol ↦ ?_
  split_ifs
  · refine released_freeBlocks fun lba hle hlt ↦ ?_
    refine List.mem_flatMap.mpr ⟨e, List.mem_append_left _ he, ?_⟩
    exact List.mem_map.mpr ⟨lba - e.startBlock, List.mem_range.mpr (by omega), by omega⟩
  · exact .refl _ vol

/-- Tags stay tidy when blocks of others are released. -/
theorem TidyTags.released {s : MediaTags} (htidy : TidyTags s)
    (hreleased : Released blocks s.vol vol')
    (hapart : ∀ lba, blocks lba → lba ≠ 0 ∧ ∀ r ∈ s.tree.records, r.owns lba = false) :
    TidyTags { s with vol := vol' } := by
  have hkept (lba : ℕ) (hlba : lba = 0 ∨ ∃ r ∈ s.tree.records, r.owns lba = true) :
      vol'.bitmap lba = s.vol.bitmap lba := by
    refine hreleased.others lba fun hin ↦ ?_
    obtain ⟨hne, howns⟩ := hapart lba hin
    rcases hlba with rfl | ⟨r, hr, htrue⟩
    · exact hne rfl
    · rw [howns r hr] at htrue
      cases htrue
  obtain ⟨bitmap, heq⟩ := hreleased.eq
  refine ⟨htidy.rooted, ?_, htidy.ordered, htidy.height_le⟩
  refine htidy.held.frame (by rw [heq]) (by rw [heq]) (hkept 0 (Or.inl rfl)) fun r hr lba howns ↦ ?_
  exact ⟨hkept lba (Or.inr ⟨r, hr, howns⟩), by rw [heq]⟩

end Released

/-! ### Loops that depend on the tree alone -/

section Congr

variable {inodeId : ℕ} {s : MediaTags}

theorem mediaTagTreeDelete_tree (tagType : ℕ) (vol : Volume) :
    (mediaTagTreeDelete inodeId tagType { s with vol }).2 =
      { (mediaTagTreeDelete inodeId tagType s).2 with
        vol := (mediaTagTreeDelete inodeId tagType { s with vol }).2.vol } := by
  unfold mediaTagTreeDelete mediaTagTreeLookup
  split_ifs
  · rfl
  · cases s.tree.lookup MediaTagRecord.order (toLex (inodeId, tagType)) <;> rfl

theorem CleanLoop.congr {fuel : ℕ} (hclean : CleanLoop inodeId fuel s) (vol : Volume) :
    CleanLoop inodeId fuel { s with vol } := by
  induction fuel generalizing s vol with
  | zero => trivial
  | succ fuel ih =>
    have hlist : mediaTagList inodeId { s with vol } = mediaTagList inodeId s := rfl
    rw [CleanLoop] at hclean ⊢
    rw [hlist]
    cases hlist' : mediaTagList inodeId s with
    | nil => trivial
    | cons tagType rest =>
      rw [hlist'] at hclean
      refine ⟨hclean.1, ?_⟩
      rw [mediaTagTreeDelete_tree]
      exact ih hclean.2 _

end Congr

/-! ### Queries -/

/-- A scan finds nothing that is not in the tree. -/
theorem scan_subset {ρ : Type} {before after : ρ → Bool} (rs : List ρ) :
    scan before after rs ⊆ rs := by
  induction rs with
  | nil => exact List.Subset.refl _
  | cons r rs ih =>
    unfold scan
    split_ifs
    · exact List.subset_cons_of_subset r ih
    · exact List.nil_subset _
    · exact List.cons_subset_cons r ih

theorem numericRoute_subset {key : Text} {s : MetadataStore} {tree : NumidxTree}
    (hroute : numericRoute key s = some tree) :
    tree.records.map MetadataNumericIdxRecord.inodeId ⊆ s.inodeIds := by
  intro i hi
  simp only [MetadataStore.inodeIds, List.mem_append]
  rcases numericRoute_cases hroute with hnumeric | huser
  · exact Or.inr (Or.inl (by rw [hnumeric]; exact hi))
  · exact Or.inr (Or.inr (List.mem_flatMap.mpr ⟨_, huser, hi⟩))

/-- A query names no inode that metadata and indexes have no record of. -/
theorem midxCollectMatching_subset (lib : PatternLibrary) (flt : QueryFilter) (s : MetadataStore) :
    midxCollectMatching lib flt s ⊆ s.inodeIds := by
  have haccepted {rs : List MetadataIdxRecord} (hrs : rs ⊆ s.midxTree.records) :
      (rs.filter fun r ↦ filterValueMatches lib r.key r.value flt.value flt.op).map
        MetadataIdxRecord.inodeId ⊆ s.inodeIds := by
    intro i hi
    obtain ⟨r, hr, rfl⟩ := List.mem_map.mp hi
    simp only [MetadataStore.inodeIds, List.mem_append]
    exact Or.inl (Or.inr (List.mem_map_of_mem (hrs (List.mem_of_mem_filter hr))))
  unfold midxCollectMatching
  rcases htree : s.midxTree with - | ⟨height, t⟩
  · exact List.nil_subset _
  · simp only
    rw [← htree]
    split_ifs with hkey
    · exact haccepted (List.Subset.refl _)
    · split
      · rename_i tree low high hroute _
        refine List.Subset.trans ?_ (numericRoute_subset hroute)
        unfold numidxCollectRange
        exact List.map_subset _
          (List.Subset.trans (scan_subset _) (Root.recordsFrom_suffix _ tree).subset)
      · exact haccepted (List.Subset.trans (scan_subset _)
          (Root.recordsFrom_suffix _ s.midxTree).subset)

/-! ### What a removal takes -/

/-- The effect of the loss of the last name on everything but the names. The file's own blocks and
those of its tags are released. -/
structure Lost (entry : CatalogRecord) (st st' : SideStore) : Prop where
  inodes : st'.names.inodes = st.names.inodes.filter (·.inodeId ≠ entry.inodeId)
  sectorTagRefs : st'.sectorTagRefs = st.sectorTagRefs
  metadata : st'.metadata = st.metadata
  junkMap : st'.junkMap =
    if (st.fileType entry).any FileType.losesJunkMap then junkMapDeleteAll entry.inodeId st.junkMap
    else st.junkMap
  tags : ∃ vol tags,
    Released (fun lba ↦ ∃ inode ∈ st.names.inodes, lba ∈ inode.body.blocks) st.tags.vol vol ∧
      tags = (if (st.fileType entry).any FileType.losesTags then
        (mediaTagDeleteAll entry.inodeId { st.tags with vol }).2 else { st.tags with vol }) ∧
      st'.tags.tree = tags.tree ∧ ∀ lba, st'.tags.vol.bitmap lba = true → tags.vol.bitmap lba = true

section Lost

variable {entry : CatalogRecord} {st st' : SideStore}

/-- What an update of the names does to the catalog is nothing to the rest. -/
theorem Lost.onNames (hlost : Lost entry st st')
    {f : Mounted InodeBody → Option Errno × Mounted InodeBody}
    (hinodes : (f st'.names).2.inodes = st'.names.inodes) : Lost entry st (st'.onNames f).2 :=
  { hlost with inodes := hinodes.trans hlost.inodes }

theorem inodeGet_filter {inodes : List (InodeEntry InodeBody)} {inodeId : ℕ}
    (hnone : inodes.find? (·.inodeId = inodeId) = none) :
    inodes = inodes.filter (·.inodeId ≠ inodeId) := by
  refine (List.filter_eq_self.mpr fun inode hinode ↦ ?_).symm
  simpa using List.find?_eq_none.mp hnone inode hinode

/-- A directory loses its inode. -/
theorem lost_directory (hdir : entry.directoryFlag = true) (catalog : List CatalogRecord) :
    Lost entry st (({ st with names := { st.names with catalog } } : SideStore).inodeDelete
      entry.inodeId).2 := by
  have hget : Mounted.inodeGet { st.names with catalog } entry.inodeId =
    st.names.inodeGet entry.inodeId := rfl
  have htype : st.fileType entry = none := if_pos hdir
  unfold SideStore.inodeDelete
  rw [hget]
  cases hinode : st.names.inodeGet entry.inodeId with
  | none =>
    refine ⟨inodeGet_filter hinode, rfl, rfl, by rw [htype]; rfl, st.tags.vol, st.tags,
      .refl _ _, by rw [htype]; rfl, rfl, fun _ h ↦ h⟩
  | some inode =>
    have hmem : inode ∈ st.names.inodes := List.mem_of_find?_eq_some hinode
    refine ⟨?_, rfl, rfl, by rw [htype]; rfl, st.tags.vol, st.tags, .refl _ _,
      by rw [htype]; rfl, rfl, (released_freeExtents inode.body).cleared⟩
    simp only [SideStore.onVolume, SideStore.onNames, Mounted.inodeDelete, hget, hinode,
      Mounted.orEio]

/-- A file loses its blocks, its inode, and what its type says. -/
theorem lost_file (hfile : entry.directoryFlag = false) {inode : InodeEntry InodeBody}
    (hinode : st.names.inodeGet entry.inodeId = some inode) (hlast : inode.refCount ≤ 1)
    (catalog : List CatalogRecord) :
    Lost entry st (({ st with names := { st.names with catalog } } : SideStore).dropLink
      entry.inodeId).2 := by
  have hget : Mounted.inodeGet { st.names with catalog } entry.inodeId = some inode := hinode
  have htype : st.fileType entry = some inode.body.fileType := by
    rw [SideStore.fileType, hfile, hinode]
    rfl
  have hmem : inode ∈ st.names.inodes := List.mem_of_find?_eq_some hinode
  have hreleased : Released (· ∈ inode.body.blocks) st.tags.vol
      (freeFileBlocks st.shared inode.body st.tags.vol) :=
    released_freeFileBlocks st.shared inode.body
  have hcleared (vol : Volume) (lba : ℕ)
      (hset : (freeExtents inode.body.extents vol).bitmap lba = true) : vol.bitmap lba = true :=
    (released_freeExtents inode.body).cleared lba hset
  unfold SideStore.dropLink
  simp only [hget, if_neg (Nat.not_lt.mpr hlast)]
  refine ⟨?_, ?_, ?_, ?_, freeFileBlocks st.shared inode.body st.tags.vol, _,
    ⟨hreleased.eq, hreleased.cleared, fun lba hlba ↦ hreleased.others lba fun hin ↦
      hlba ⟨inode, hmem, hin⟩⟩, rfl, ?_, ?_⟩
  all_goals
    cases htags : inode.body.fileType.losesTags <;>
      cases hjunk : inode.body.fileType.losesJunkMap <;>
        simp only [htype, Option.any_some, htags, hjunk, SideStore.inodeDelete,
          SideStore.onVolume, SideStore.onNames, hget, Mounted.inodeDelete, Mounted.orEio,
          if_true, if_false, Bool.false_eq_true]
  all_goals exact hcleared _

end Lost

/-! ### Removals forget the inode -/

section Removal

variable {entry : CatalogRecord} {st st' : SideStore}

section

variable (hlost : Lost entry st st') (hst : st.Consistent) (hbare : Bare st entry)
  (hclean : st.TagsLeaveCleanly entry)
include hlost hst hbare hclean

/-- The tags of an inode that has lost its last name are gone, and their blocks are free. -/
theorem Lost.forgot :
    st'.tags.tree.records = st.tags.tree.records.filter (·.inodeId ≠ entry.inodeId) ∧
      ∀ r ∈ st.tags.tree.records, r.inodeId = entry.inodeId → ∀ lba, r.owns lba →
        st'.tags.vol.bitmap lba = false := by
  obtain ⟨vol, tags, hreleased, rfl, htree, hbits⟩ := hlost.tags
  rw [htree]
  cases hloses : (st.fileType entry).any FileType.losesTags with
  | false =>
    have hnone := hbare.mediaTags hloses
    refine ⟨?_, fun r hr hid ↦ absurd hid (hnone r hr)⟩
    rw [if_neg Bool.false_ne_true]
    exact (List.filter_eq_self.mpr fun r hr ↦ by simpa using hnone r hr).symm
  | true =>
    have htidy : TidyTags { st.tags with vol } := by
      refine hst.tags.released hreleased ?_
      rintro lba ⟨inode, hinode, hlba⟩
      exact hst.apart inode hinode lba hlba
    obtain ⟨tags, hrun, hforgot⟩ := mediaTagDeleteAll_spec htidy ((hclean hloses).congr vol)
    rw [hloses, if_pos rfl, hrun] at hbits
    rw [if_pos rfl, hrun]
    refine ⟨hforgot.records_eq, fun r hr hid lba howns ↦ ?_⟩
    by_contra hbit
    have hset := (hforgot.bitmap_eq lba).mp (hbits lba (by simpa using hbit))
    rw [hset.2 r hr hid] at howns
    cases howns

theorem Lost.forgotten : Forgotten entry.inodeId st st' := by
  obtain ⟨htags, hpayload⟩ := hlost.forgot hst hbare hclean
  have hjunk : st'.junkMap.records = st.junkMap.records.filter (·.inodeId ≠ entry.inodeId) := by
    rw [hlost.junkMap]
    cases hloses : (st.fileType entry).any FileType.losesJunkMap with
    | true => exact records_junkMapDeleteAll hst.junkMap
    | false =>
      exact (List.filter_eq_self.mpr fun r hr ↦ by simpa using hbare.junkMap hloses r hr).symm
  exact
    { inode := fun inode hinode ↦ by
        rw [hlost.inodes] at hinode
        simpa using (List.mem_filter.mp hinode).2
      mediaTags := fun r hr ↦ by
        rw [htags] at hr
        simpa using (List.mem_filter.mp hr).2
      payload := hpayload
      sectorTags := hlost.sectorTagRefs ▸ hbare.sectorTags
      junkMap := fun r hr ↦ by
        rw [hjunk] at hr
        simpa using (List.mem_filter.mp hr).2
      metadata := hlost.metadata ▸ hbare.metadata
      queries := fun lib flt hin ↦
        (hlost.metadata ▸ hbare.metadata) (midxCollectMatching_subset lib flt _ hin)
      otherInodes := by rw [hlost.inodes, List.filter_filter]; simp
      otherTags := by rw [htags, List.filter_filter]; simp
      otherRefs := by rw [hlost.sectorTagRefs]
      otherJunk := by rw [hjunk, List.filter_filter]; simp
      otherMetadata := by rw [hlost.metadata]
      otherIndexed := by rw [hlost.metadata] }

end

/-- What a removal does not look at is still there. -/
theorem Lost.bare (hlost : Lost entry st st') (hforgotten : Forgotten entry.inodeId st st') :
    Bare st entry where
  sectorTags := hlost.sectorTagRefs ▸ hforgotten.sectorTags
  metadata := hlost.metadata ▸ hforgotten.metadata
  mediaTags := fun hloses ↦ by
    obtain ⟨vol, tags, -, rfl, htree, -⟩ := hlost.tags
    have hgone := hforgotten.mediaTags
    rw [htree, hloses, if_neg Bool.false_ne_true] at hgone
    exact hgone
  junkMap := fun hloses ↦ by
    have hgone := hforgotten.junkMap
    rw [hlost.junkMap, hloses, if_neg Bool.false_ne_true] at hgone
    exact hgone

theorem moveEntry_inodes (src : CatalogRecord) (oldKey newKey : CatalogKey)
    (names : Mounted InodeBody) : (names.moveEntry src oldKey newKey).2.inodes = names.inodes := by
  unfold Mounted.moveEntry Mounted.catalogDelete
  cases names.catalogLookup oldKey with
  | none => rfl
  | some _ =>
    simp only [Mounted.catalogInsert]
    cases names.catalogRefuses (withoutKey oldKey names.catalog)
      (Mounted.newRecord src.inodeId newKey src.directoryFlag) <;> rfl

/-- An entry that is deleted with its inode's last name. -/
theorem lost_entry {key : CatalogKey} (hfound : st.names.catalogLookup key = some entry)
    (hlast : st.lastName entry = true)
    (hempty : ¬(entry.directoryFlag ∧ ¬(st.names.catalogList entry.inodeId).isEmpty)) :
    Lost entry st (st.replaceDest entry key).2 := by
  unfold SideStore.replaceDest
  simp only [Mounted.catalogDelete_found hfound]
  cases hdir : entry.directoryFlag with
  | true =>
    have hchildren : (st.names.catalogList entry.inodeId).isEmpty = true := by
      by_contra h
      exact hempty ⟨hdir, h⟩
    rw [if_pos rfl, if_pos hchildren]
    exact lost_directory hdir _
  | false =>
    rw [if_neg Bool.false_ne_true]
    have hcount : (st.names.inodeGet entry.inodeId).any (·.refCount ≤ 1) = true := by
      simpa [SideStore.lastName, hdir] using hlast
    obtain ⟨inode, hinode, hle⟩ := (Option.any_eq_true ..).mp hcount
    exact lost_file hdir hinode (by simpa using hle) _

/-- A rename that passes its checks and finds an entry in its way moves over it. -/
theorem fuseRename_over {flags : Mounted.RenameFlags} {oldKey newKey : CatalogKey}
    (hcheck : st.names.renameCheck flags oldKey newKey = none) (hexchange : flags.exchange = false)
    (hdst : st.names.catalogLookup newKey = some entry) :
    ¬(entry.directoryFlag ∧ ¬(st.names.catalogList entry.inodeId).isEmpty) ∧
      ∃ src, st.fuseRename flags oldKey newKey = st.replaceEntry src entry oldKey newKey := by
  unfold Mounted.renameCheck at hcheck
  unfold SideStore.fuseRename
  cases hothers : flags.others with
  | true => simp [hothers] at hcheck
  | false =>
    cases hsrc : st.names.catalogLookup oldKey with
    | none => simp [hothers, hsrc] at hcheck
    | some src =>
      simp only [hothers, hsrc, hdst, hexchange, Bool.false_eq_true, if_false] at hcheck ⊢
      split_ifs at hcheck with hnoreplace hnotdir hisdir hancestor hempty
      refine ⟨hempty, src, ?_⟩
      simp only [Option.isSome_some, and_true, if_neg hnoreplace, Option.any_some, if_neg hnotdir,
        if_neg hisdir, if_neg hancestor]

/-- A call that takes the last name of an inode. -/
theorem RemovalCall.lost {call : RemovalCall} (htakes : call.takes st = some entry) :
    Lost entry st (call.run st).2 := by
  cases call with
  | unlink key =>
    obtain ⟨hfound, hlast⟩ := Option.filter_eq_some_iff.mp htakes
    simp only [Bool.and_eq_true, Bool.not_eq_true'] at hlast
    have hlost := lost_entry hfound hlast.2 (by simp [hlast.1])
    have hsame : st.fuseUnlink key = st.replaceDest entry key := by
      simp only [SideStore.fuseUnlink, SideStore.replaceDest, hfound, hlast.1, Bool.false_eq_true,
        if_false]
    rwa [RemovalCall.run, hsame]
  | rename flags oldKey newKey =>
    obtain ⟨⟨hcheck, hexchange⟩, htakes⟩ := Option.ite_none_right_eq_some.mp htakes
    obtain ⟨hfound, hlast⟩ := Option.filter_eq_some_iff.mp htakes
    obtain ⟨hempty, src, hrun⟩ := fuseRename_over hcheck hexchange hfound
    have hlost := lost_entry hfound hlast hempty
    rw [RemovalCall.run, hrun, SideStore.replaceEntry]
    rcases hreplace : st.replaceDest entry newKey with ⟨status, st'⟩
    rw [hreplace] at hlost
    cases status with
    | some e => exact hlost
    | none => exact hlost.onNames (moveEntry_inodes src oldKey newKey st'.names)

/-- A removal leaves no record of an inode that has none where it does not look, if its media tags
go without taking the last leaf of an index node. It leaves one of every other inode. -/
theorem removal_forgets (hst : st.Consistent) {call : RemovalCall}
    (htakes : call.takes st = some entry) :
    (Bare st entry ∧ st.TagsLeaveCleanly entry → Forgotten entry.inodeId st (call.run st).2) ∧
      (Forgotten entry.inodeId st (call.run st).2 → Bare st entry) :=
  ⟨fun h ↦ (RemovalCall.lost htakes).forgotten hst h.1 h.2, (RemovalCall.lost htakes).bare⟩

end Removal

/-! ### An image with metadata -/

/-- A tag of 600 bytes in a block of its own. -/
def imageTag : MediaTagRecord := ⟨16, 0, 600, false, 20, 1, []⟩

def imageTags : MediaTags where
  mediaTagLba := 2
  vol :=
    { blockSize := 4096
      totalBytes := 32 * 4096
      btreeClumpSize := 4096
      dedupClumpSize := 4096
      nextFreeLba := 21
      bitmap := (· < 21)
      disk := fun _ ↦ .bytes (List.replicate 600 0) }
  tree := .node 0 (3, [imageTag])

theorem imageTags_tidy : TidyTags imageTags where
  rooted := fun h ↦ absurd h (by decide)
  held :=
    { blockSize_pos := by decide
      superblock := rfl
      sole := fun lba ↦ List.countP_le_length
      held := fun r hr ↦ by
        obtain rfl := List.mem_singleton.mp hr
        refine ⟨fun _ ↦ by decide, ⟨(List.replicate 600 0).take 600 ++ [], rfl⟩, fun lba howns ↦ ?_⟩
        obtain ⟨-, -, hlt⟩ := owns_iff.mp howns
        exact decide_eq_true hlt }
  ordered := List.pairwise_singleton _ _
  height_le := by decide

/-- A Nintendo image with a tag and a junk map, on a volume with metadata of an inode. -/
def imageStore (owner : ℕ) : SideStore where
  names :=
    { catalog := [⟨16, 2, false, [97]⟩]
      inodes := [⟨2, 1, ⟨.directory, [], []⟩⟩, ⟨16, 1, ⟨.nintendo, [⟨10, 2, 2⟩], []⟩⟩]
      nextInodeId := 18
      handles := fun _ ↦ none
      catalogRefuses := fun _ _ ↦ none
      inodesRefuse := fun _ _ ↦ none }
  shared := fun _ ↦ false
  tags := imageTags
  sectorTagRefs := .empty
  junkMap := .node 0 (4, [⟨16, 0, 4096, 0xFFFF, fun _ ↦ 0⟩])
  metadata :=
    { blockSize := 4096
      metaTree := .node 0 (5, [⟨owner, [107], [118]⟩])
      midxTree := .node 0 (6, [⟨[107], [118], owner⟩])
      numTree := none
      userIndexes := [] }

theorem imageStore_consistent (owner : ℕ) : (imageStore owner).Consistent where
  tags := imageTags_tidy
  junkMap := List.pairwise_singleton _ _
  apart := by
    intro inode hinode lba hlba
    have hin : inode.body.blocks = [] ∨ inode.body.blocks = [10, 11] := by
      rcases List.mem_pair.mp hinode with rfl | rfl
      · exact Or.inl rfl
      · exact Or.inr rfl
    rcases hin with hin | hin
    · rw [hin] at hlba
      exact absurd hlba List.not_mem_nil
    · rw [hin] at hlba
      have hrange : lba = 10 ∨ lba = 11 := List.mem_pair.mp hlba
      refine ⟨by omega, fun r hr ↦ ?_⟩
      obtain rfl := List.mem_singleton.mp hr
      rcases hrange with rfl | rfl <;> rfl

theorem imageStore_takes (owner : ℕ) :
    (RemovalCall.unlink (toLex (2, [97]))).takes (imageStore owner) =
      some ⟨16, 2, false, [97]⟩ := rfl

/-- The image has a tag, a junk map and no metadata. -/
theorem removal_forgets_image : Forgotten 16 (imageStore 17)
      ((RemovalCall.unlink (toLex (2, [97]))).run (imageStore 17)).2 := by
  refine (removal_forgets (imageStore_consistent 17) (imageStore_takes 17)).1 ⟨?_, fun _ ↦ ?_⟩
  · exact ⟨by decide, by decide, fun h ↦ absurd h (by decide), fun h ↦ absurd h (by decide)⟩
  · exact cleanLoop_of_height (Nat.zero_le _) _

/-- The metadata of an image is still there when the image is gone. -/
theorem removal_leaves_metadata : (imageStore 16).Consistent ∧
      (RemovalCall.unlink (toLex (2, [97]))).takes (imageStore 16) = some ⟨16, 2, false, [97]⟩ ∧
      16 ∈ ((RemovalCall.unlink (toLex (2, [97]))).run (imageStore 16)).2.metadata.inodeIds ∧
      ¬Forgotten 16 (imageStore 16)
        ((RemovalCall.unlink (toLex (2, [97]))).run (imageStore 16)).2 := by
  have hlost := RemovalCall.lost (imageStore_takes 16)
  have hleft : 16 ∈
      ((RemovalCall.unlink (toLex (2, [97]))).run (imageStore 16)).2.metadata.inodeIds := by
    rw [hlost.metadata]
    decide
  exact ⟨imageStore_consistent 16, imageStore_takes 16, hleft, fun h ↦ h.metadata hleft⟩

end Obmafs3
