import Obmafs3.Cd.Image
import Obmafs3.Library.SearchTreeMap
import Obmafs3.Metadata.Indexes
import Obmafs3.Tags.DeleteAll

/-!
# Stores of records

A volume keeps metadata by inode and key, media tags by inode and type, and the prefixes, suffixes
and subchannels of CD sectors by hash alone, each in a tree of its own. `Contents` are the maps that
these trees stand for, with what a call does to a map, and `Shows` says that everything a reader can
ask of the stores is answered from the maps.

Two things can make a tree say something else. An insertion that divides an index node hands up a
separator that hides records, and a removal can leave an index node below the root without entries:
its first slot keeps the bytes of the entry that went, and a search that follows them ends at a node
that was freed. `Careful` says of a call, from the state it finds, that it does neither.
-/

set_option autoImplicit false

namespace Obmafs3

open Library.Search Library.SearchTree

/-! ### Reading -/

/-- A search of a tree. It ends at a block with bad magic when there is an index node without
entries on the way. -/
def searchTree {κ ρ : Type} [LinearOrder κ] (order : ρ → κ) (k : κ) (tree : Root ℕ κ ρ) :
    Except ErrorCode ρ :=
  if tree.leads (indexFind · k) then
    match tree.lookup order k with
    | some r => .ok r
    | none => .error .notFound
  else .error .badMagic

/-- `obmafs3_metadata_get`, with room for the value. -/
def metadataGet (inodeId : ℕ) (key : Text) (s : MetadataStore) : Except ErrorCode Text :=
  (searchTree MetadataRecord.order (toLex (inodeId, key)) s.metaTree).map MetadataRecord.value

/-- `obmafs3_metadata_list`, with its status. -/
def metadataKeys (inodeId : ℕ) (s : MetadataStore) : Except ErrorCode (List Text) :=
  if s.metaTree.leads (indexFind · (toLex (inodeId, []))) then .ok (metadataList inodeId s)
  else .error .badMagic

/-- `obmafs3_media_tag_get`, with the status of its search. -/
def tagGet (inodeId tagType : ℕ) (s : MediaTags) : Except ErrorCode (List ℕ) :=
  if s.mediaTagLba = 0 then .error .notFound
  else
    (searchTree MediaTagRecord.order (toLex (inodeId, tagType)) s.tree).bind (mediaTagRead s.vol)

/-- `obmafs3_media_tag_list`, with its status. -/
def tagTypes (inodeId : ℕ) (s : MediaTags) : Except ErrorCode (List ℕ) :=
  if s.tree.leads (indexFind · (toLex (inodeId, 0))) then .ok (mediaTagList inodeId s)
  else .error .badMagic

/-! ### CD hash trees -/

/-- The parts of a CD sector that have a tree. -/
inductive CdPart
  | cdPrefix
  | cdSuffix
  | cdSubchannel
  deriving DecidableEq, Repr

/-- The size of `struct cd_prefix_record`, `cd_suffix_record` or `cd_subchannel_record`. -/
def CdPart.recordSize : CdPart → ℕ
  | cdPrefix => 8 + cdPrefixSize
  | cdSuffix => 8 + cdSuffixSize
  | cdSubchannel => 8 + cdSubchannelSize

/-- A tree of parts. `lba` is zero on a volume without it. -/
structure CdTree where
  lba : ℕ
  tree : Root ℕ ℕ CdHashRecord

/-- `obmafs3_cd_prefix_get`, `obmafs3_cd_suffix_get` and `obmafs3_cd_subchannel_get`. -/
def cdGet (hash : ℕ) (t : CdTree) : Except ErrorCode (List UInt8) :=
  if t.lba = 0 then .error .notFound
  else (searchTree CdHashRecord.hash hash t.tree).map CdHashRecord.data

/-- `obmafs3_cd_prefix_put`, `obmafs3_cd_suffix_put` and `obmafs3_cd_subchannel_put`, with what the
allocator answers for the division of a node of each level. -/
def cdPut (blockSize recordSize : ℕ) (fresh : ℕ → Option ℕ) (hash : ℕ) (data : List UInt8)
    (t : CdTree) : Option ErrorCode × CdTree :=
  if t.lba = 0 ∨ cdHashBtreeMaxDepth < t.tree.height then (some .inval, t)
  else if t.tree.leads (indexFind · hash) = false then (some .badMagic, t)
  else
    match t.tree.put CdHashRecord.hash (maxKeys blockSize recordSize)
        (maxKeys blockSize btreeIndexEntrySize) fresh ⟨hash, data⟩ with
    | (tree, true) => (none, { t with tree })
    | (tree, false) => (some .noSpc, { t with tree })

/-- `obmafs3_cd_prefix_delete`, `obmafs3_cd_suffix_delete` and `obmafs3_cd_subchannel_delete`. -/
def cdDelete (hash : ℕ) (t : CdTree) : Option ErrorCode × CdTree :=
  if t.lba = 0 then (some .notFound, t)
  else if cdHashBtreeMaxDepth < t.tree.height then (some .inval, t)
  else if t.tree.leads (indexFind · hash) = false then (some .badMagic, t)
  else
    match t.tree.delete CdHashRecord.hash hash with
    | (tree, true) => (none, { t with tree })
    | (tree, false) => (some .notFound, { t with tree })

/-! ### Calls -/

/-- The stores of a volume. -/
structure Stores where
  metadata : MetadataStore
  tags : MediaTags
  cd : CdPart → CdTree

/-- A call on one of the stores, or what everything else does to the blocks of the volume between
two calls, the nodes of the trees included. -/
inductive StoreCall
  | metadataPut (inodeId : ℕ) (key value : Text) (grants : PutGrants)
  | metadataDelete (inodeId : ℕ) (key : Text)
  | metadataDeleteAll (inodeId : ℕ)
  | tagPut (inodeId tagType : ℕ) (data : List ℕ) (fresh : ℕ → Option ℕ)
  | tagDelete (inodeId tagType : ℕ)
  | tagDeleteAll (inodeId : ℕ)
  | cdPut (part : CdPart) (hash : ℕ) (data : List UInt8) (fresh : ℕ → Option ℕ)
  | cdDelete (part : CdPart) (hash : ℕ)
  | others (vol : Volume)

/-- Put the outcome of a call on one store in place. -/
def Stores.withMetadata (s : Stores) (out : Option ErrorCode × MetadataStore) :
    Option ErrorCode × Stores := (out.1, { s with metadata := out.2 })

def Stores.withTags (s : Stores) (out : Option ErrorCode × MediaTags) :
    Option ErrorCode × Stores := (out.1, { s with tags := out.2 })

def Stores.withCd (s : Stores) (part : CdPart) (out : Option ErrorCode × CdTree) :
    Option ErrorCode × Stores := (out.1, { s with cd := Function.update s.cd part out.2 })

/-- The status of a call and the stores after it. -/
def Stores.call (s : Stores) : StoreCall → Option ErrorCode × Stores
  | .metadataPut inodeId key value grants =>
    s.withMetadata (metadataPut inodeId key value grants s.metadata)
  | .metadataDelete inodeId key => s.withMetadata (metadataDelete inodeId key s.metadata)
  | .metadataDeleteAll inodeId => s.withMetadata (metadataDeleteAll inodeId s.metadata)
  | .tagPut inodeId tagType data fresh => s.withTags (mediaTagPut inodeId tagType data fresh s.tags)
  | .tagDelete inodeId tagType => s.withTags (mediaTagDelete inodeId tagType s.tags)
  | .tagDeleteAll inodeId => s.withTags (mediaTagDeleteAll inodeId s.tags)
  | .cdPut part hash data fresh =>
    s.withCd part (cdPut s.tags.vol.blockSize part.recordSize fresh hash data (s.cd part))
  | .cdDelete part hash => s.withCd part (cdDelete hash (s.cd part))
  | .others vol => (none, { s with tags := { s.tags with vol } })

/-- The statuses of the calls of a run and the stores after it. -/
def Stores.run (s : Stores) : List StoreCall → List (Option ErrorCode) × Stores
  | [] => ([], s)
  | call :: calls =>
    let rest := (s.call call).2.run calls
    ((s.call call).1 :: rest.1, rest.2)

/-! ### Maps -/

/-- What is stored. -/
structure Contents where
  metadata : ℕ → Text → Option Text
  tags : ℕ → ℕ → Option (List ℕ)
  cd : CdPart → ℕ → Option (List UInt8)

namespace Contents

/-- Nothing is stored. -/
def nothing : Contents := ⟨fun _ _ ↦ none, fun _ _ ↦ none, fun _ _ ↦ none⟩

/-- The status of a deletion. -/
def deleted {β : Type} : Option β → Option ErrorCode
  | some _ => none
  | none => some .notFound

/-- Change a map at one place of one owner. -/
def assign {ι κ β : Type} [DecidableEq ι] [DecidableEq κ] (m : ι → κ → Option β) (i : ι) (k : κ)
    (x : Option β) : ι → κ → Option β := Function.update m i (Function.update (m i) k x)

/-- The status of a call and what is stored after it. A put is refused for its arguments only, and
stores the value under its key; a deletion takes away what is there, all of an owner's or the value
under one key. -/
def call (c : Contents) : StoreCall → Option ErrorCode × Contents
  | .metadataPut inodeId key value _ =>
    if key = [] ∨ 255 < key.length ∨ 1024 < value.length then (some .inval, c)
    else (none, { c with metadata := assign c.metadata inodeId key (some value) })
  | .metadataDelete inodeId key =>
    (deleted (c.metadata inodeId key), { c with metadata := assign c.metadata inodeId key none })
  | .metadataDeleteAll inodeId =>
    (none, { c with metadata := Function.update c.metadata inodeId fun _ ↦ none })
  | .tagPut inodeId tagType data _ =>
    (none, { c with tags := assign c.tags inodeId tagType (some data) })
  | .tagDelete inodeId tagType =>
    (deleted (c.tags inodeId tagType), { c with tags := assign c.tags inodeId tagType none })
  | .tagDeleteAll inodeId =>
    (none, { c with tags := Function.update c.tags inodeId fun _ ↦ none })
  | .cdPut part hash data _ => (none, { c with cd := assign c.cd part hash (some data) })
  | .cdDelete part hash => (deleted (c.cd part hash), { c with cd := assign c.cd part hash none })
  | .others _ => (none, c)

def run (c : Contents) : List StoreCall → List (Option ErrorCode) × Contents
  | [] => ([], c)
  | call :: calls =>
    let rest := (c.call call).2.run calls
    ((c.call call).1 :: rest.1, rest.2)

end Contents

/-- What a get returns. -/
def present {β : Type} : Option β → Except ErrorCode β
  | some x => .ok x
  | none => .error .notFound

/-- A list of keys has those that are live, once each and in increasing order. -/
def ListsLive {κ β : Type} [LinearOrder κ] (m : κ → Option β) (keys : List κ) : Prop :=
  keys.Pairwise (· < ·) ∧ ∀ k, k ∈ keys ↔ m k ≠ none

/-- Gets and lists answer from the maps. -/
structure Stores.Shows (s : Stores) (c : Contents) : Prop where
  metadata_get : ∀ inodeId key, metadataGet inodeId key s.metadata = present (c.metadata inodeId key)
  metadata_list : ∀ inodeId, ∃ keys, metadataKeys inodeId s.metadata = .ok keys ∧
    ListsLive (c.metadata inodeId) keys
  tag_get : ∀ inodeId tagType, tagGet inodeId tagType s.tags = present (c.tags inodeId tagType)
  tag_list : ∀ inodeId, ∃ types, tagTypes inodeId s.tags = .ok types ∧
    ListsLive (c.tags inodeId) types
  cd_get : ∀ part hash, cdGet hash (s.cd part) = present (c.cd part hash)

/-! ### Careful calls -/

section Trees

variable {κ ρ : Type} [LinearOrder κ] (order : ρ → κ) (depth : ℕ)

/-- An insertion that is granted every node, in a tree that is not too deep, where the separators of
divided nodes separate. -/
structure PutFits (leafMax indexMax : ℕ) (fresh : ℕ → Option ℕ) (r : ρ) (tree : Root ℕ κ ρ) :
    Prop where
  depth : tree.height ≤ depth
  safe : tree.Safe order leafMax indexMax r
  granted : ∀ level < tree.demand order leafMax indexMax r, fresh level ≠ none

/-- A removal from a tree that is not too deep, which leaves an entry in every index node below the
root. -/
structure DropFits (k : κ) (tree : Root ℕ κ ρ) : Prop where
  depth : tree.height ≤ depth
  unstranded : tree.lookup order k ≠ none → tree.Unstranded order k

end Trees

/-- The reverse index loses a record, unless it is so deep that it is left alone. -/
def IndexLets (r : MetadataIdxRecord) (s : MetadataStore) : Prop :=
  s.midxTree.height ≤ metadataBtreeMaxDepth → s.midxTree.Unstranded MetadataIdxRecord.order r.order

/-- The store when a put has taken the entries of the old value out of the indexes. -/
def withoutOld (inodeId : ℕ) (key : Text) (s : MetadataStore) : MetadataStore :=
  match metaTreeLookup s.metaTree inodeId key with
  | some old => forgetIndexed old.idx s
  | none => s

/-- The volume when a put has released the run of the old tag. -/
def releasedVolume (inodeId tagType : ℕ) (s : MediaTags) : Volume :=
  match mediaTagTreeLookup inodeId tagType s with
  | some old => mediaTagFreeExternal old s.vol
  | none => s.vol

/-- The metadata tree and the reverse index take a record, the latter when the entry of the record
that was there has gone. -/
structure MetadataPutFits (r : MetadataRecord) (grants : PutGrants) (s : MetadataStore) : Prop where
  record : metaKind.Fits s.blockSize grants.forMeta r s.metaTree
  old : ∀ old, metaTreeLookup s.metaTree r.inodeId r.key = some old → IndexLets old.idx s
  entry : midxKind.Fits s.blockSize grants.forMidx r.idx (withoutOld r.inodeId r.key s).midxTree

/-- The metadata tree and the reverse index lose a record. -/
def MetadataDeleteFits (inodeId : ℕ) (key : Text) (s : MetadataStore) : Prop :=
  ∀ r, metaTreeLookup s.metaTree inodeId key = some r →
    metaKind.Drops (toLex (inodeId, key)) s.metaTree ∧ IndexLets r.idx s

/-- Every round of `obmafs3_metadata_delete_all` can take its record out. -/
def MetadataRoundsFit (inodeId : ℕ) : ℕ → MetadataStore → Prop
  | 0, _ => True
  | fuel + 1, s =>
    match metadataList inodeId s with
    | [] => True
    | key :: _ =>
      MetadataDeleteFits inodeId key s ∧
        MetadataRoundsFit inodeId fuel (metadataDelete inodeId key s).2

/-- A tag finds a run for its bytes, if it wants one, when the run of the tag that was there has been
released, and a place in the tree. -/
structure TagPutFits (inodeId tagType : ℕ) (data : List ℕ) (fresh : ℕ → Option ℕ) (s : MediaTags) :
    Prop where
  run : data.length ≤ mediaTagInlineMax ∨
    (releasedVolume inodeId tagType s).bitmapFindFree (tagBlocks s.vol.blockSize data.length) ≠ none
  record : ∀ r : MediaTagRecord, r.order = toLex (inodeId, tagType) →
    PutFits MediaTagRecord.order mediaTagBtreeMaxDepth (mediaTagLeafMaxKeys s.vol.blockSize)
      (mediaTagIndexMaxKeys s.vol.blockSize) fresh r s.tree

/-- Nothing is refused, no divided node hands up a separator that does not separate, and no removal
takes the last entry of an index node below the root. Everything else keeps its hands off the
blocks of the tags. -/
def StoreCall.Careful (s : Stores) : StoreCall → Prop
  | .metadataPut inodeId key value grants =>
    ¬(key = [] ∨ 255 < key.length ∨ 1024 < value.length) →
      MetadataPutFits ⟨inodeId, key, value⟩ grants s.metadata
  | .metadataDelete inodeId key => MetadataDeleteFits inodeId key s.metadata
  | .metadataDeleteAll inodeId =>
    MetadataRoundsFit inodeId (s.metadata.metaTree.records.length + 1) s.metadata
  | .tagPut inodeId tagType data fresh => TagPutFits inodeId tagType data fresh s.tags
  | .tagDelete inodeId tagType =>
    DropFits MediaTagRecord.order mediaTagBtreeMaxDepth (toLex (inodeId, tagType)) s.tags.tree
  | .tagDeleteAll inodeId =>
    s.tags.tree.height ≤ mediaTagBtreeMaxDepth ∧
      CleanLoop inodeId (s.tags.tree.records.length + 1) s.tags
  | .cdPut part hash data fresh =>
    PutFits CdHashRecord.hash cdHashBtreeMaxDepth (maxKeys s.tags.vol.blockSize part.recordSize)
      (maxKeys s.tags.vol.blockSize btreeIndexEntrySize) fresh ⟨hash, data⟩ (s.cd part).tree
  | .cdDelete part hash =>
    DropFits CdHashRecord.hash cdHashBtreeMaxDepth hash (s.cd part).tree
  | .others vol => LeavesTags s.tags vol

/-- A run of careful calls. -/
def Stores.CarefulRun (s : Stores) : List StoreCall → Prop
  | [] => True
  | call :: calls => call.Careful s ∧ (s.call call).2.CarefulRun calls

/-- A volume on which nothing is stored, with blocks that have room for a media tag. -/
structure Stores.Fresh (s : Stores) : Prop where
  size : 613 ≤ s.tags.vol.blockSize ∧ s.tags.vol.blockSize ≤ 65536
  same_size : s.metadata.blockSize = s.tags.vol.blockSize
  metaTree : s.metadata.metaTree = .empty
  midxTree : s.metadata.midxTree = .empty
  superblock : s.tags.vol.bitmap 0 = true
  mediaTagLba : s.tags.mediaTagLba ≠ 0
  tagTree : s.tags.tree = .empty
  cd : ∀ part, (s.cd part).lba ≠ 0 ∧ (s.cd part).tree = .empty

end Obmafs3
