import Obmafs3.Library.SearchTreePut
import Obmafs3.Volume

/-!
# The callbacks on names and open files

The part of the FUSE callbacks that changes catalog entries, link counts and open files. The catalog
and the inode table appear as the sorted lists of their records, and paths as the catalog keys that
`resolve_path` resolves them to. An insertion in either table may be refused for lack of space;
which ones are, and what part of the table a refusal leaves in reach, is left open. Of an inode
record the callbacks read the id and the link count, the other fields are its body.

An open file has a copy of its inode record from the time it was opened. Writes change the copy,
and flush and release write it back whole.
-/

set_option autoImplicit false

namespace Obmafs3

open Library.SearchTree

/-- What the callbacks return, negated. -/
inductive Errno
  | eperm
  | enoent
  | eio
  | eexist
  | enotdir
  | eisdir
  | einval
  | enotempty
  deriving DecidableEq, Repr

/-- An inode record: `inode_id`, `ref_count` and the other fields. -/
structure InodeEntry (β : Type) where
  inodeId : ℕ
  refCount : ℕ
  body : β
  deriving DecidableEq, Repr

/-- `struct fuse_file_ctx`: the inode as it was read when the file was opened, and whether it was
written since. -/
structure Handle (β : Type) where
  inode : InodeEntry β
  inodeDirty : Bool

/-- The mounted volume. `catalogRefuses` and `inodesRefuse` are the records that a refused insertion
leaves, for the insertions that are refused. -/
structure Mounted (β : Type) where
  catalog : List CatalogRecord
  inodes : List (InodeEntry β)
  nextInodeId : ℕ
  handles : ℕ → Option (Handle β)
  catalogRefuses : List CatalogRecord → CatalogRecord → Option (List CatalogRecord)
  inodesRefuse : List (InodeEntry β) → InodeEntry β → Option (List (InodeEntry β))

/-- `OBMAFS3_ROOT_INODE_ID`. -/
def rootInodeId : ℕ := 2

/-- The key of a catalog record. -/
def catalogKey (record : CatalogRecord) : CatalogKey := toLex (record.parentId, record.name)

/-- The entries with other keys. -/
def withoutKey (key : CatalogKey) (catalog : List CatalogRecord) : List CatalogRecord :=
  catalog.filter (catalogKey · ≠ key)

namespace Mounted

variable {β : Type}

/-! ### The two tables -/

/-- `obmafs3_catalog_lookup`. -/
def catalogLookup (st : Mounted β) (key : CatalogKey) : Option CatalogRecord :=
  st.catalog.find? (catalogKey · = key)

/-- `obmafs3_catalog_list`: the entries of a directory in the order of their names. -/
def catalogList (st : Mounted β) (parentId : ℕ) : List CatalogRecord :=
  st.catalog.filter (·.parentId = parentId)

/-- `obmafs3_catalog_insert`, which replaces an entry with the same key. -/
def catalogInsert (st : Mounted β) (record : CatalogRecord) : Except (Mounted β) (Mounted β) :=
  match st.catalogRefuses st.catalog record with
  | some catalog => .error { st with catalog := catalog }
  | none => .ok { st with catalog := upsert catalogKey record st.catalog }

/-- `obmafs3_catalog_delete`. -/
def catalogDelete (st : Mounted β) (key : CatalogKey) : Except (Mounted β) (Mounted β) :=
  match st.catalogLookup key with
  | none => .error st
  | some _ => .ok { st with catalog := withoutKey key st.catalog }

/-- `obmafs3_inode_get`. -/
def inodeGet (st : Mounted β) (inodeId : ℕ) : Option (InodeEntry β) :=
  st.inodes.find? (·.inodeId = inodeId)

/-- `obmafs3_inode_put`. A record that is there already is replaced in place. -/
def inodePut (st : Mounted β) (inode : InodeEntry β) : Except (Mounted β) (Mounted β) :=
  match st.inodeGet inode.inodeId, st.inodesRefuse st.inodes inode with
  | none, some inodes => .error { st with inodes := inodes }
  | _, _ => .ok { st with inodes := upsert InodeEntry.inodeId inode st.inodes }

/-- `obmafs3_inode_delete`. -/
def inodeDelete (st : Mounted β) (inodeId : ℕ) : Except (Mounted β) (Mounted β) :=
  match st.inodeGet inodeId with
  | none => .error st
  | some _ => .ok { st with inodes := st.inodes.filter (·.inodeId ≠ inodeId) }

def setHandle (st : Mounted β) (fh : ℕ) (handle : Option (Handle β)) : Mounted β :=
  { st with handles := Function.update st.handles fh handle }

/-- The status of a call that ends with an update. -/
def orEio : Except (Mounted β) (Mounted β) → Option Errno × Mounted β
  | .error st => (some .eio, st)
  | .ok st => (none, st)

/-- The state after an update that may have failed. -/
def after : Except (Mounted β) (Mounted β) → Mounted β
  | .error st => st
  | .ok st => st

/-- The record that a callback enters in the catalog: `strncpy` keeps 255 bytes of the name. -/
def newRecord (inodeId : ℕ) (key : CatalogKey) (directoryFlag : Bool) : CatalogRecord where
  inodeId := inodeId
  parentId := (ofLex key).1
  directoryFlag := directoryFlag
  name := (ofLex key).2.take 255

/-! ### Open files -/

/-- `obmafs3_fuse_create_impl`. -/
def fuseCreate (fh : ℕ) (key : CatalogKey) (body : β) (st : Mounted β) : Option Errno × Mounted β :=
  match st.catalogLookup key with
  | some _ => (some .eexist, st)
  | none =>
    let inode : InodeEntry β := ⟨st.nextInodeId, 1, body⟩
    let st := { st with nextInodeId := st.nextInodeId + 1 }
    match st.inodePut inode with
    | .error st => (some .eio, st)
    | .ok st =>
      match st.catalogInsert (newRecord inode.inodeId key false) with
      | .error st => (some .eio, after (st.inodeDelete inode.inodeId))
      | .ok st => (none, st.setHandle fh (some ⟨inode, false⟩))

/-- `obmafs3_fuse_open_impl`. -/
def fuseOpen (fh : ℕ) (key : CatalogKey) (st : Mounted β) : Option Errno × Mounted β :=
  match st.catalogLookup key with
  | none => (some .enoent, st)
  | some entry =>
    if entry.directoryFlag then (some .eisdir, st)
    else
      match st.inodeGet entry.inodeId with
      | none => (some .eio, st)
      | some inode => (none, st.setHandle fh (some ⟨inode, false⟩))

/-- The inode that a write or a truncation works on: the copy of the handle, or the stored one. -/
def workingInode (fh : Option ℕ) (key : CatalogKey) (st : Mounted β) : Option (InodeEntry β) :=
  match fh with
  | some fh => (st.handles fh).map Handle.inode
  | none => (st.catalogLookup key).bind fun entry ↦ st.inodeGet entry.inodeId

/-- `obmafs3_fuse_write_impl`; the data changes the body of the inode. -/
def fuseWrite (fh : Option ℕ) (key : CatalogKey) (change : β → β) (st : Mounted β) :
    Option Errno × Mounted β :=
  match st.workingInode fh key with
  | none => (some .eio, st)
  | some inode =>
    let inode := { inode with body := change inode.body }
    match fh with
    | some fh => (none, st.setHandle fh (some ⟨inode, true⟩))
    | none => orEio (st.inodePut inode)

/-- `obmafs3_fuse_truncate_impl`. -/
def fuseTruncate (fh : Option ℕ) (key : CatalogKey) (change : β → β) (st : Mounted β) :
    Option Errno × Mounted β :=
  match st.catalogLookup key with
  | none => (some .eio, st)
  | some _ =>
    match st.workingInode fh key with
    | none => (some .eio, st)
    | some inode =>
      let inode := { inode with body := change inode.body }
      match fh with
      | some fh =>
        match st.inodePut inode with
        | .error st =>
          (some .eio, st.setHandle fh ((st.handles fh).map fun h ↦ { h with inode := inode }))
        | .ok st => (none, st.setHandle fh (some ⟨inode, false⟩))
      | none => orEio (st.inodePut inode)

/-- `obmafs3_fuse_flush_impl`. -/
def fuseFlush (fh : ℕ) (st : Mounted β) : Option Errno × Mounted β :=
  match st.handles fh with
  | none => (none, st)
  | some handle =>
    if handle.inodeDirty then
      let (status, st) := orEio (st.inodePut handle.inode)
      (status, st.setHandle fh (some ⟨handle.inode, false⟩))
    else (none, st)

/-- `obmafs3_fuse_release_impl`. -/
def fuseRelease (fh : ℕ) (st : Mounted β) : Option Errno × Mounted β :=
  match st.handles fh with
  | none => (none, st)
  | some handle =>
    if handle.inodeDirty then
      let (status, st) := orEio (st.inodePut handle.inode)
      (status, st.setHandle fh none)
    else (none, st.setHandle fh none)

/-! ### Names -/

/-- `obmafs3_fuse_link_impl`. -/
def fuseLink (oldKey newKey : CatalogKey) (st : Mounted β) : Option Errno × Mounted β :=
  match st.catalogLookup oldKey with
  | none => (some .enoent, st)
  | some entry =>
    if entry.directoryFlag then (some .eperm, st)
    else
      match st.catalogLookup newKey with
      | some _ => (some .eexist, st)
      | none =>
        match st.inodeGet entry.inodeId with
        | none => (some .eio, st)
        | some inode =>
          match st.inodePut { inode with refCount := (inode.refCount + 1) % 2 ^ 32 } with
          | .error st => (some .eio, st)
          | .ok st =>
            match st.catalogInsert (newRecord entry.inodeId newKey false) with
            | .error st => (some .eio, after (st.inodePut inode))
            | .ok st => (none, st)

/-- One name less for an inode: lower its link count, or remove it with its last name. -/
def dropLink (inodeId : ℕ) (st : Mounted β) : Option Errno × Mounted β :=
  match st.inodeGet inodeId with
  | none => (some .eio, st)
  | some inode =>
    if 1 < inode.refCount then
      orEio (st.inodePut { inode with refCount := inode.refCount - 1 })
    else orEio (st.inodeDelete inodeId)

/-- `obmafs3_fuse_unlink_impl`. -/
def fuseUnlink (key : CatalogKey) (st : Mounted β) : Option Errno × Mounted β :=
  match st.catalogLookup key with
  | none => (some .enoent, st)
  | some entry =>
    if entry.directoryFlag then (some .eisdir, st)
    else
      match st.catalogDelete key with
      | .error st => (some .eio, st)
      | .ok st => st.dropLink entry.inodeId

/-- `replace_dest`: make room for a rename. -/
def replaceDest (dst : CatalogRecord) (key : CatalogKey) (st : Mounted β) :
    Option Errno × Mounted β :=
  if dst.directoryFlag then
    if (st.catalogList dst.inodeId).isEmpty then
      match st.catalogDelete key with
      | .error st => (some .eio, st)
      | .ok st => orEio (st.inodeDelete dst.inodeId)
    else (some .enotempty, st)
  else
    match st.catalogDelete key with
    | .error st => (some .eio, st)
    | .ok st => st.dropLink dst.inodeId

/-- `find_parent_of_dir`: a search in breadth from the root. Of the directories found at most 256
ever enter the queue; `entered` counts them. -/
def findParentLoop (st : Mounted β) (childId : ℕ) :
    (fuel : ℕ) → (queue : List ℕ) → (entered : ℕ) → Option ℕ
  | 0, _, _ => none
  | _ + 1, [], _ => none
  | fuel + 1, parentId :: queue, entered =>
    let children := (st.catalogList parentId).filter (·.directoryFlag)
    if children.any (·.inodeId = childId) then some parentId
    else
      let pushed := (children.map CatalogRecord.inodeId).take (256 - entered)
      findParentLoop st childId fuel (queue ++ pushed) (entered + pushed.length)

def findParentOfDir (st : Mounted β) (childId : ℕ) : Option ℕ :=
  findParentLoop st childId 256 [rootInodeId] 1

def isAncestorLoop (st : Mounted β) (ancestorId : ℕ) : (fuel current : ℕ) → Bool
  | 0, _ => false
  | fuel + 1, current =>
    if current = ancestorId then true
    else if current = rootInodeId then false
    else
      match findParentOfDir st current with
      | none => false
      | some parentId => isAncestorLoop st ancestorId fuel parentId

/-- `is_ancestor`. -/
def isAncestor (st : Mounted β) (ancestorId dirId : ℕ) : Bool :=
  isAncestorLoop st ancestorId 256 dirId

/-- The flags of a rename: none, `RENAME_NOREPLACE`, `RENAME_EXCHANGE`, both, or others. -/
structure RenameFlags where
  noreplace : Bool
  exchange : Bool
  others : Bool
  deriving DecidableEq, Repr

/-- The part of `obmafs3_fuse_rename_impl` for `RENAME_EXCHANGE`, once both entries are found. -/
def exchangeEntries (src dst : CatalogRecord) (oldKey newKey : CatalogKey) (st : Mounted β) :
    Option Errno × Mounted β :=
  match st.catalogDelete oldKey with
  | .error st => (some .eio, st)
  | .ok st =>
    match st.catalogDelete newKey with
    | .error st => (some .eio, st)
    | .ok st =>
      match st.catalogInsert (newRecord dst.inodeId oldKey dst.directoryFlag) with
      | .error st => (some .eio, st)
      | .ok st => orEio (st.catalogInsert (newRecord src.inodeId newKey src.directoryFlag))

/-- The part of `obmafs3_fuse_rename_impl` that moves an entry to a free key. -/
def moveEntry (src : CatalogRecord) (oldKey newKey : CatalogKey) (st : Mounted β) :
    Option Errno × Mounted β :=
  match st.catalogDelete oldKey with
  | .error st => (some .eio, st)
  | .ok st => orEio (st.catalogInsert (newRecord src.inodeId newKey src.directoryFlag))

/-- The part of `obmafs3_fuse_rename_impl` that moves an entry over another. -/
def replaceEntry (src dst : CatalogRecord) (oldKey newKey : CatalogKey) (st : Mounted β) :
    Option Errno × Mounted β :=
  match st.replaceDest dst newKey with
  | (some e, st) => (some e, st)
  | (none, st) => st.moveEntry src oldKey newKey

/-- `obmafs3_fuse_rename_impl`. -/
def fuseRename (flags : RenameFlags) (oldKey newKey : CatalogKey) (st : Mounted β) :
    Option Errno × Mounted β :=
  if flags.others then (some .einval, st)
  else
    match st.catalogLookup oldKey with
    | none => (some .enoent, st)
    | some src =>
      let found := st.catalogLookup newKey
      if flags.exchange then
        match found with
        | none => (some .enoent, st)
        | some dst =>
          if src.directoryFlag ≠ dst.directoryFlag then (some .enotdir, st)
          else st.exchangeEntries src dst oldKey newKey
      else if flags.noreplace ∧ found.isSome then (some .eexist, st)
      else if found.any fun dst ↦ src.directoryFlag && !dst.directoryFlag then
        (some .enotdir, st)
      else if found.any fun dst ↦ !src.directoryFlag && dst.directoryFlag then
        (some .eisdir, st)
      else if src.directoryFlag ∧ (ofLex oldKey).1 ≠ (ofLex newKey).1 ∧
          st.isAncestor src.inodeId (ofLex newKey).1 then (some .einval, st)
      else
        match found with
        | none => st.moveEntry src oldKey newKey
        | some dst => st.replaceEntry src dst oldKey newKey

end Mounted

end Obmafs3
