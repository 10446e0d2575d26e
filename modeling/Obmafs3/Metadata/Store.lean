import Obmafs3.Btree
import Obmafs3.Library.SearchTreeScan
import Obmafs3.Library.SecondaryIndex
import Obmafs3.Metadata.Text

/-!
# Metadata and its indexes

An image has metadata, values under keys. The metadata tree keeps them by inode and key. The reverse
index keeps them by key, value and inode, the numeric index those whose value is a whole number by
key, number and inode, and a user index those of one key.

A call changes one tree after the other, and any of them may be refused the nodes it asks for. The
leaves of a tree are read here in the order of the tree, so a leaf that a refused insertion cut off
is out of the sight of scans as well as of searches.
-/

set_option autoImplicit false

namespace Obmafs3

open Library.Search Library.SearchTree

/-! ### Records -/

/-- `struct metadata_record`. -/
structure MetadataRecord where
  inodeId : ℕ
  key : Text
  value : Text
  deriving DecidableEq, Repr

/-- `struct metadata_idx_record`. -/
structure MetadataIdxRecord where
  key : Text
  value : Text
  inodeId : ℕ
  deriving DecidableEq, Repr

/-- `struct metadata_numeric_idx_record`. -/
structure MetadataNumericIdxRecord where
  key : Text
  value : ℤ
  inodeId : ℕ
  deriving DecidableEq, Repr

abbrev MetaKey := ℕ ×ₗ Text

abbrev MidxKey := Text ×ₗ Text ×ₗ ℕ

abbrev NumidxKey := Text ×ₗ ℤ ×ₗ ℕ

/-- The order of `meta_key_cmp`. -/
def MetadataRecord.order (r : MetadataRecord) : MetaKey := toLex (r.inodeId, r.key)

/-- The order of `midx_key_cmp`. -/
def MetadataIdxRecord.order (r : MetadataIdxRecord) : MidxKey :=
  toLex (r.key, toLex (r.value, r.inodeId))

/-- The order of `numidx_key_cmp`. -/
def MetadataNumericIdxRecord.order (r : MetadataNumericIdxRecord) : NumidxKey :=
  toLex (r.key, toLex (r.value, r.inodeId))

/-- The entry of the reverse index for a record. -/
def MetadataRecord.idx (r : MetadataRecord) : MetadataIdxRecord := ⟨r.key, r.value, r.inodeId⟩

/-- The entry of a numeric index for a value that is a whole number. -/
def MetadataIdxRecord.numeric (r : MetadataIdxRecord) : Option MetadataNumericIdxRecord :=
  (wholeNumber r.value).map fun n ↦ ⟨r.key, n, r.inodeId⟩

/-! ### The trees -/

abbrev MetaTree := Root ℕ MetaKey MetadataRecord

abbrev MidxTree := Root ℕ MidxKey MetadataIdxRecord

abbrev NumidxTree := Root ℕ NumidxKey MetadataNumericIdxRecord

/-- `METADATA_BTREE_MAX_DEPTH` and `NUMIDX_BTREE_MAX_DEPTH`. -/
def metadataBtreeMaxDepth : ℕ := 16

/-- `meta_node_size`. -/
def metaNodeSize (blockSize : ℕ) : ℕ := 8 * blockSize

/-- What sets one of the trees apart: its order and the sizes of its records and its entries. -/
structure IndexKind (κ ρ : Type) where
  order : ρ → κ
  recordSize : ℕ
  entrySize : ℕ

def metaKind : IndexKind MetaKey MetadataRecord := ⟨MetadataRecord.order, 1289, 272⟩

def midxKind : IndexKind MidxKey MetadataIdxRecord := ⟨MetadataIdxRecord.order, 1289, 1297⟩

def numidxKind : IndexKind NumidxKey MetadataNumericIdxRecord :=
  ⟨MetadataNumericIdxRecord.order, 272, 280⟩

section Trees

variable {κ ρ : Type} [LinearOrder κ] (kind : IndexKind κ ρ) (blockSize : ℕ)

def IndexKind.leafMaxKeys : ℕ := maxKeys (metaNodeSize blockSize) kind.recordSize

def IndexKind.indexMaxKeys : ℕ := maxKeys (metaNodeSize blockSize) kind.entrySize

/-- An insertion with what the allocator answers for the division of a node of each level. A record
of an index is its own key, so putting one in that is there already changes nothing. -/
def IndexKind.put (fresh : ℕ → Option ℕ) (r : ρ) (tree : Root ℕ κ ρ) :
    Option ErrorCode × Root ℕ κ ρ :=
  if metadataBtreeMaxDepth < tree.height then (some .inval, tree)
  else
    match tree.put kind.order (kind.leafMaxKeys blockSize) (kind.indexMaxKeys blockSize) fresh
        r with
    | (tree, true) => (none, tree)
    | (tree, false) => (some .noSpc, tree)

def IndexKind.delete (k : κ) (tree : Root ℕ κ ρ) : Option ErrorCode × Root ℕ κ ρ :=
  if metadataBtreeMaxDepth < tree.height then (some .inval, tree)
  else
    match tree.delete kind.order k with
    | (tree, true) => (none, tree)
    | (tree, false) => (some .notFound, tree)

end Trees

/-- `meta_tree_lookup`. -/
def metaTreeLookup (tree : MetaTree) (inodeId : ℕ) (key : Text) : Option MetadataRecord :=
  tree.lookup MetadataRecord.order (toLex (inodeId, key))

/-- `meta_tree_put`. -/
def metaTreePut (blockSize : ℕ) (fresh : ℕ → Option ℕ) (r : MetadataRecord) (tree : MetaTree) :
    Option ErrorCode × MetaTree := metaKind.put blockSize fresh r tree

/-- `meta_tree_delete`. -/
def metaTreeDelete (inodeId : ℕ) (key : Text) (tree : MetaTree) : Option ErrorCode × MetaTree :=
  metaKind.delete (toLex (inodeId, key)) tree

/-- `midx_tree_put`. -/
def midxTreePut (blockSize : ℕ) (fresh : ℕ → Option ℕ) (r : MetadataIdxRecord) (tree : MidxTree) :
    Option ErrorCode × MidxTree := midxKind.put blockSize fresh r tree

/-- `midx_tree_delete`. -/
def midxTreeDelete (r : MetadataIdxRecord) (tree : MidxTree) : Option ErrorCode × MidxTree :=
  midxKind.delete r.order tree

/-- `obmafs3_numidx_put_ex`. -/
def numidxPut (blockSize : ℕ) (fresh : ℕ → Option ℕ) (r : MetadataNumericIdxRecord)
    (tree : NumidxTree) : Option ErrorCode × NumidxTree := numidxKind.put blockSize fresh r tree

/-- `obmafs3_numidx_delete_ex`. -/
def numidxDelete (r : MetadataNumericIdxRecord) (tree : NumidxTree) :
    Option ErrorCode × NumidxTree := numidxKind.delete r.order tree

/-- Put the entry for a record in a numeric index, if its value is a whole number. -/
def numidxNote (blockSize : ℕ) (fresh : ℕ → Option ℕ) (r : MetadataIdxRecord) (tree : NumidxTree) :
    NumidxTree :=
  match r.numeric with
  | none => tree
  | some entry => (numidxPut blockSize fresh entry tree).2

/-- Take the entry for a record out of a numeric index, if its value is a whole number. -/
def numidxForget (r : MetadataIdxRecord) (tree : NumidxTree) : NumidxTree :=
  match r.numeric with
  | none => tree
  | some entry => (numidxDelete entry tree).2

/-! ### The state -/

/-- The tree of a user index, by its value type. Nothing ever puts a record in one for strings. -/
inductive UserTree
  | numeric (tree : NumidxTree)
  | string (tree : MidxTree)

/-- `struct user_index_ctx`. -/
structure UserIndex where
  key : Text
  tree : UserTree

/-- What a mounted volume knows of its metadata. `numTree` is `none` while the volume has no header
for a numeric index. -/
structure MetadataStore where
  blockSize : ℕ
  metaTree : MetaTree
  midxTree : MidxTree
  numTree : Option NumidxTree
  userIndexes : List UserIndex

/-- The metadata of a fresh volume. -/
def freshMetadata (blockSize : ℕ) : MetadataStore := ⟨blockSize, .empty, .empty, none, []⟩

/-- `obmafs3_user_index_find`. -/
def userIndexFind (key : Text) (indexes : List UserIndex) : Option UserIndex :=
  indexes.find? (·.key = key)

/-- Change the tree of the first index for a key, if that is a numeric one. -/
def onUserIndex (key : Text) (change : NumidxTree → NumidxTree) : List UserIndex → List UserIndex
  | [] => []
  | u :: us =>
    if u.key = key then
      match u.tree with
      | .numeric tree => ⟨u.key, .numeric (change tree)⟩ :: us
      | .string _ => u :: us
    else u :: onUserIndex key change us

/-! ### Calls -/

/-- What the allocator answers during an `obmafs3_metadata_put`, for each of the trees. -/
structure PutGrants where
  forMeta : ℕ → Option ℕ
  forMidx : ℕ → Option ℕ
  forNumeric : ℕ → Option ℕ
  forUser : ℕ → Option ℕ

/-- Take a record out of the indexes. No call looks at the errors of this. -/
def forgetIndexed (r : MetadataIdxRecord) (s : MetadataStore) : MetadataStore :=
  { s with
    midxTree := (midxTreeDelete r s.midxTree).2
    numTree := s.numTree.map (numidxForget r)
    userIndexes := onUserIndex r.key (numidxForget r) s.userIndexes }

/-- `obmafs3_metadata_put`. -/
def metadataPut (inodeId : ℕ) (key value : Text) (grants : PutGrants) (s : MetadataStore) :
    Option ErrorCode × MetadataStore :=
  if key = [] ∨ 255 < key.length ∨ 1024 < value.length then (some .inval, s)
  else
    let r : MetadataRecord := ⟨inodeId, key, value⟩
    let s :=
      match metaTreeLookup s.metaTree inodeId key with
      | some old => forgetIndexed old.idx s
      | none => s
    match metaTreePut s.blockSize grants.forMeta r s.metaTree with
    | (some e, tree) => (some e, { s with metaTree := tree })
    | (none, tree) =>
      match midxTreePut s.blockSize grants.forMidx r.idx s.midxTree with
      | (some e, midx) => (some e, { s with metaTree := tree, midxTree := midx })
      | (none, midx) =>
        (none,
          { s with
            metaTree := tree
            midxTree := midx
            numTree := s.numTree.map (numidxNote s.blockSize grants.forNumeric r.idx)
            userIndexes :=
              onUserIndex key (numidxNote s.blockSize grants.forUser r.idx) s.userIndexes })

/-- `obmafs3_metadata_delete`. -/
def metadataDelete (inodeId : ℕ) (key : Text) (s : MetadataStore) :
    Option ErrorCode × MetadataStore :=
  match metaTreeLookup s.metaTree inodeId key with
  | none => (some .notFound, s)
  | some r =>
    match metaTreeDelete inodeId key s.metaTree with
    | (some e, tree) => (some e, { s with metaTree := tree })
    | (none, tree) => (none, forgetIndexed r.idx { s with metaTree := tree })

/-- `obmafs3_metadata_list`: the keys of an inode. -/
def metadataList (inodeId : ℕ) (s : MetadataStore) : List Text :=
  (scan (fun r ↦ r.inodeId < inodeId) (fun r ↦ inodeId < r.inodeId)
    (s.metaTree.recordsFrom (indexFind · (toLex (inodeId, []))))).map MetadataRecord.key

/-- The rounds of `obmafs3_metadata_delete_all`. Each takes one record out of the tree. -/
def deleteRounds (inodeId : ℕ) : ℕ → MetadataStore → Option ErrorCode × MetadataStore
  | 0, s => (none, s)
  | fuel + 1, s =>
    match metadataList inodeId s with
    | [] => (none, s)
    | key :: _ =>
      match metadataDelete inodeId key s with
      | (some e, s) => (some e, s)
      | (none, s) => deleteRounds inodeId fuel s

/-- `obmafs3_metadata_delete_all`. -/
def metadataDeleteAll (inodeId : ℕ) (s : MetadataStore) : Option ErrorCode × MetadataStore :=
  deleteRounds inodeId (s.metaTree.records.length + 1) s

/-- What the allocator answers while a user index is made: whether there are blocks for the header
and for the registry, and the nodes for each entry that is put in. -/
structure CreateGrants where
  header : Bool
  registry : Bool
  nodes : ℕ → ℕ → Option ℕ

/-- The slot that the scan for a new index follows: the last whose separator has a key at or below
the one of the index, whatever its value. -/
def populateSlot (key : Text) (separators : List MidxKey) : ℕ :=
  (separators.takeWhile fun k ↦ (ofLex k).1 ≤ key).length - 1

/-- The records of the reverse index that the scan for a new index finds. -/
def populateScan (key : Text) (tree : MidxTree) : List MetadataIdxRecord :=
  scan (fun r ↦ r.key < key) (fun r ↦ key < r.key) (tree.recordsFrom (populateSlot key))

/-- Put the entries for a list of records in a numeric index. Errors are not looked at. -/
def populate (blockSize : ℕ) (nodes : ℕ → ℕ → Option ℕ) :
    ℕ → List MetadataIdxRecord → NumidxTree → NumidxTree
  | _, [], tree => tree
  | i, r :: rs, tree =>
    populate blockSize nodes (i + 1) rs (numidxNote blockSize (nodes i) r tree)

/-- `USER_INDEX_VALUE_TYPE_NUMERIC`. -/
def userIndexNumeric : ℕ := 1

/-- `obmafs3_user_index_create`. -/
def userIndexCreate (key : Text) (valueType : ℕ) (grants : CreateGrants) (s : MetadataStore) :
    Option ErrorCode × MetadataStore :=
  match userIndexFind key s.userIndexes with
  | some _ => (some .inval, s)
  | none =>
    if grants.header = false then (some .noSpc, s)
    else if valueType = userIndexNumeric then
      let added (tree : NumidxTree) : MetadataStore :=
        { s with userIndexes := s.userIndexes ++ [⟨key.take 255, .numeric tree⟩] }
      if grants.registry = false then (some .noSpc, added .empty)
      else (none, added (populate s.blockSize grants.nodes 0 (populateScan key s.midxTree) .empty))
    else
      (if grants.registry then none else some .noSpc,
        { s with userIndexes := s.userIndexes ++ [⟨key.take 255, .string .empty⟩] })

/-- `obmafs3_user_index_drop`. `registry` says whether the registry could be written. -/
def userIndexDrop (key : Text) (registry : Bool) (s : MetadataStore) :
    Option ErrorCode × MetadataStore :=
  match userIndexFind key s.userIndexes with
  | none => (some .notFound, s)
  | some _ =>
    (if registry then none else some .noSpc,
      { s with userIndexes := s.userIndexes.eraseP (·.key = key) })

/-- The insertions of `obmafs3_numidx_build`, up to the first that fails. -/
def buildEntries (blockSize : ℕ) (nodes : ℕ → ℕ → Option ℕ) :
    ℕ → List MetadataIdxRecord → NumidxTree → Option ErrorCode × NumidxTree
  | _, [], tree => (none, tree)
  | i, r :: rs, tree =>
    match r.numeric with
    | none => buildEntries blockSize nodes (i + 1) rs tree
    | some entry =>
      match numidxPut blockSize (nodes i) entry tree with
      | (some e, tree) => (some e, tree)
      | (none, tree) => buildEntries blockSize nodes (i + 1) rs tree

/-- `obmafs3_numidx_build`, which a mount runs: it makes the header of the numeric index when there
is none, and fills the index from the reverse index. -/
def numidxBuild (header : Bool) (nodes : ℕ → ℕ → Option ℕ) (s : MetadataStore) :
    Option ErrorCode × MetadataStore :=
  match s.midxTree with
  | .empty => (none, s)
  | .node _ _ =>
    match s.numTree, header with
    | none, false => (some .noSpc, s)
    | tree, _ =>
      let (status, tree) :=
        buildEntries s.blockSize nodes 0 s.midxTree.records (tree.getD .empty)
      (status, { s with numTree := some tree })

/-- The calls on the metadata of a volume. -/
inductive MetadataCall
  | put (inodeId : ℕ) (key value : Text) (grants : PutGrants)
  | delete (inodeId : ℕ) (key : Text)
  | deleteAll (inodeId : ℕ)
  | createIndex (key : Text) (valueType : ℕ) (grants : CreateGrants)
  | dropIndex (key : Text) (registry : Bool)
  | buildNumeric (header : Bool) (nodes : ℕ → ℕ → Option ℕ)

def MetadataCall.run : MetadataCall → MetadataStore → Option ErrorCode × MetadataStore
  | put inodeId key value grants => metadataPut inodeId key value grants
  | delete inodeId key => metadataDelete inodeId key
  | deleteAll inodeId => metadataDeleteAll inodeId
  | createIndex key valueType grants => userIndexCreate key valueType grants
  | dropIndex key registry => userIndexDrop key registry
  | buildNumeric header nodes => numidxBuild header nodes

/-- The state after a run of calls, whatever each of them returned. -/
def runMetadata (calls : List MetadataCall) (s : MetadataStore) : MetadataStore :=
  calls.foldl (fun s call ↦ (call.run s).2) s

end Obmafs3
