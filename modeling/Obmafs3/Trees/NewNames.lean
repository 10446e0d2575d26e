import Obmafs3.Library.SearchTreeAscending
import Obmafs3.Namespace.Paths
import Obmafs3.Trees.Sound

/-!
# New names on the trees

The callbacks that enter a name in the catalog, with every node they read, write and ask for. A new
file, directory or symbolic link first gets a record in the inode table and then an entry in the
catalog, and the record is taken back when the entry is refused. A hard link raises the link count
first and lowers it again. The target of a symbolic link is written before either. `Careful` is the
condition under which a callback that is refused a node or a block leaves everything as it was, and
`Unchanged` what that means.
-/

set_option autoImplicit false

namespace Obmafs3

open Library.NameTree Library.SearchTree

/-- The volume with its trees and `next_inode_id` of the superblock. -/
structure FuseVolume extends TreeVolume where
  nextInodeId : ℕ

/-- The target of a symbolic link: the kernel hands on less than `PATH_MAX` bytes. -/
structure LinkTarget where
  bytes : List ℕ
  length_lt : bytes.length < 4096

namespace FuseVolume

/-! ### Searches -/

def lookup (tree : TreeName) (key : tree.Key) (st : FuseVolume) :
    Except ErrorCode (Option tree.Record) :=
  match btreeLookup tree.kind key (st.ctx tree) with
  | .ok found _ => .ok found
  | .error e _ => .error e

/-- `obmafs3_catalog_lookup`. -/
def catalogLookup (st : FuseVolume) (key : CatalogKey) : Except ErrorCode (Option CatalogRecord) :=
  st.lookup .catalog key

/-- `obmafs3_inode_get`. -/
def inodeGet (st : FuseVolume) (inodeId : ℕ) : Except ErrorCode (Option InodeRecord) :=
  st.lookup .inodes inodeId

/-- The loop of `resolve_path` over the directories of a path. -/
def walkComponents (st : FuseVolume) : (currentId : ℕ) → List (List ℕ) → Except Errno ℕ
  | currentId, [] => .ok currentId
  | currentId, component :: rest =>
    match st.catalogLookup (toLex (currentId, component)) with
    | .error _ => .error .eio
    | .ok none => .error .enoent
    | .ok (some entry) =>
      if entry.directoryFlag then walkComponents st entry.inodeId rest else .error .enotdir

/-- `resolve_path`: the directory of a path and its last name. -/
def resolvePath (st : FuseVolume) (path : List ℕ) : Except Errno CatalogKey :=
  if path = [47] then .ok (toLex (rootInodeId, [47]))
  else
    match cutAtLast 47 path with
    | none => .error .enoent
    | some ([], name) => .ok (toLex (rootInodeId, name))
    | some (_ :: parentPath, name) =>
      (st.walkComponents rootInodeId (strtok 47 parentPath [])).map fun parentId ↦
        toLex (parentId, name)

/-- What a path leads to: the inode that its catalog entry names. -/
def lookupPath (st : FuseVolume) (path : List ℕ) : Option (ℕ × Bool) :=
  match st.resolvePath path with
  | .error _ => none
  | .ok key =>
    match st.catalogLookup key with
    | .ok (some entry) => some entry.target
    | _ => none

/-- The entry that a path leads to. -/
def findEntry (st : FuseVolume) (path : List ℕ) : Except Errno CatalogRecord :=
  match st.resolvePath path with
  | .error e => .error e
  | .ok key =>
    match st.catalogLookup key with
    | .error _ => .error .eio
    | .ok none => .error .enoent
    | .ok (some entry) => .ok entry

/-- The key of a path without an entry. -/
def freeKey (st : FuseVolume) (path : List ℕ) : Except Errno CatalogKey :=
  match st.resolvePath path with
  | .error e => .error e
  | .ok key =>
    match st.catalogLookup key with
    | .error _ => .error .eio
    | .ok (some _) => .error .eexist
    | .ok none => .ok key

/-- What a hard link finds before it changes anything: the inode and the key of the new name. -/
def findLink (st : FuseVolume) (oldpath newpath : List ℕ) :
    Except Errno (InodeRecord × CatalogKey) :=
  match st.findEntry oldpath with
  | .error e => .error e
  | .ok entry =>
    if entry.directoryFlag then .error .eperm
    else
      match st.freeKey newpath with
      | .error e => .error e
      | .ok newKey =>
        match st.inodeGet entry.inodeId with
        | .ok (some inode) => .ok (inode, newKey)
        | _ => .error .eio

/-! ### Changes -/

/-- Run tree code; the error is none when it ends well. -/
def call (call : TreeCall) (st : FuseVolume) : Option ErrorCode × FuseVolume :=
  match call.run st.toTreeVolume with
  | .ok _ trees => (none, { st with toTreeVolume := trees })
  | .error e trees => (some e, { st with toTreeVolume := trees })

/-- `obmafs3_alloc_inode_id`. -/
def allocInodeId (st : FuseVolume) : FuseVolume :=
  { st with nextInodeId := (st.nextInodeId + 1) % 2 ^ 64 }

/-- The inode of a new name, without data and with one link. -/
def newInode (st : FuseVolume) : InodeRecord where
  inodeId := st.nextInodeId
  fileSize := 0
  extents := []
  refCount := 1

/-- The end that create, mkdir and symlink share: the record of the new inode and then its entry,
or the record is taken back. -/
def addInode (inode : InodeRecord) (key : CatalogKey) (directoryFlag : Bool) (st : FuseVolume) :
    Option Errno × FuseVolume :=
  match st.call (.inodePut inode) with
  | (some _, st) => (some .eio, st)
  | (none, st) =>
    match st.call (.catalogInsert (Mounted.newRecord inode.inodeId key directoryFlag)) with
    | (none, st) => (none, st)
    | (some _, st) => (some .eio, (st.call (.inodeDelete inode.inodeId)).2)

/-- The end of `obmafs3_fuse_link_impl`: the link count goes up, and down again when the entry is
refused. -/
def addLink (inode : InodeRecord) (key : CatalogKey) (st : FuseVolume) :
    Option Errno × FuseVolume :=
  match st.call (.inodePut { inode with refCount := (inode.refCount + 1) % 2 ^ 32 }) with
  | (some _, st) => (some .eio, st)
  | (none, st) =>
    match st.call (.catalogInsert (Mounted.newRecord inode.inodeId key false)) with
    | (none, st) => (none, st)
    | (some _, st) => (some .eio, (st.call (.inodePut inode)).2)

end FuseVolume

/-! ### The target of a symbolic link -/

/-- The blocks that a target takes, the last one filled up with zeros. -/
def LinkTarget.blocks (target : LinkTarget) (blockSize : ℕ) : List (List ℕ) :=
  (List.range ((target.bytes.length + blockSize - 1) / blockSize)).map fun b ↦
    ((target.bytes.drop (b * blockSize)).take blockSize).rightpad blockSize 0

/-- The loop of `write_file_data_append` that writes the blocks of a group; `false` is an I/O
error. -/
def writeBlocks : (lba : ℕ) → List (List ℕ) → Volume → Volume × Bool
  | _, [], vol => (vol, true)
  | lba, data :: rest, vol =>
    match vol.blockWrite lba (.bytes data) with
    | none => (vol, false)
    | some vol => writeBlocks (lba + 1) rest vol

/-- `obmafs3_write_file_data` for the target of a new link. On blocks of 512 bytes or more a target
is less than a group of 16 blocks: it is written as it is, in one extent, which takes the first of
the inline slots. -/
def writeTarget (target : LinkTarget) (inode : InodeRecord) (vol : Volume) :
    Option InodeRecord × Volume :=
  let blocks := target.blocks vol.blockSize
  match vol.allocBlocks blocks.length with
  | none => (none, vol)
  | some (start, vol) =>
    match writeBlocks start blocks vol with
    | (vol, false) => (none, vol)
    | (vol, true) =>
      (some
        { inode with
          fileSize := target.bytes.length
          extents := [⟨start, blocks.length, blocks.length⟩] }, vol)

/-! ### The callbacks -/

inductive NewNameCall
  | create (path : List ℕ)
  | mkdir (path : List ℕ)
  | symlink (target : LinkTarget) (linkpath : List ℕ)
  | link (oldpath newpath : List ℕ)

namespace FuseVolume

/-- `obmafs3_fuse_create_impl`. The open file it begins touches neither tree. -/
def fuseCreate (path : List ℕ) (st : FuseVolume) : Option Errno × FuseVolume :=
  match st.freeKey path with
  | .error e => (some e, st)
  | .ok key => st.allocInodeId.addInode st.newInode key false

/-- `obmafs3_fuse_mkdir_impl`. -/
def fuseMkdir (path : List ℕ) (st : FuseVolume) : Option Errno × FuseVolume :=
  match st.freeKey path with
  | .error e => (some e, st)
  | .ok key => st.allocInodeId.addInode st.newInode key true

/-- `obmafs3_fuse_symlink_impl`. -/
def fuseSymlink (target : LinkTarget) (linkpath : List ℕ) (st : FuseVolume) :
    Option Errno × FuseVolume :=
  match st.freeKey linkpath with
  | .error e => (some e, st)
  | .ok key =>
    match writeTarget target st.newInode st.vol with
    | (none, vol) => (some .eio, { st.allocInodeId with vol := vol })
    | (some inode, vol) => addInode inode key false { st.allocInodeId with vol := vol }

/-- `obmafs3_fuse_link_impl`. -/
def fuseLink (oldpath newpath : List ℕ) (st : FuseVolume) : Option Errno × FuseVolume :=
  match st.findLink oldpath newpath with
  | .error e => (some e, st)
  | .ok (inode, newKey) => st.addLink inode newKey

end FuseVolume

def NewNameCall.run : NewNameCall → FuseVolume → Option Errno × FuseVolume
  | create path => FuseVolume.fuseCreate path
  | mkdir path => FuseVolume.fuseMkdir path
  | symlink target linkpath => FuseVolume.fuseSymlink target linkpath
  | link oldpath newpath => FuseVolume.fuseLink oldpath newpath

/-- A step of a mounted volume: one of the callbacks, a call of the tree code that other callbacks
and the tools make, or what the rest of the library does to the blocks of files and of other
trees. -/
inductive MountStep
  | callback (call : NewNameCall)
  | treeCall (call : TreeCall)
  | elsewhere (change : Volume → Volume)

def MountStep.after : MountStep → FuseVolume → FuseVolume
  | callback call, st => (call.run st).2
  | treeCall call, st => (st.call call).2
  | elsewhere change, st => { st with vol := change st.vol }

def afterSteps (steps : List MountStep) (st : FuseVolume) : FuseVolume :=
  steps.foldl (fun st step ↦ step.after st) st

/-! ### What a refused callback leaves -/

namespace FuseVolume

def HasInode (st : FuseVolume) (inodeId : ℕ) : Prop :=
  ∃ inode, st.inodeGet inodeId = .ok (some inode)

/-- An inode that the catalog leads to, or the root. -/
def Named (st : FuseVolume) (inodeId : ℕ) : Prop :=
  inodeId = rootInodeId ∨ ∃ key entry, st.catalogLookup key = .ok (some entry) ∧
    entry.inodeId = inodeId

/-- Paths lead where they led, the inodes have the records they had, no inode is left without a
name, and the blocks that were marked are nodes. -/
structure Unchanged (st st' : FuseVolume) : Prop where
  paths : ∀ path target, st.lookupPath path = some target → st'.lookupPath path = some target
  inodes : ∀ inodeId inode, st.inodeGet inodeId = .ok (some inode) →
    st'.inodeGet inodeId = .ok (some inode)
  named : ∀ inodeId, st'.HasInode inodeId → ¬st'.Named inodeId →
    st.HasInode inodeId ∧ ¬st.Named inodeId
  blocks : ∀ lba < st.vol.totalBlocks, st.vol.bitmap lba = false → st'.vol.bitmap lba = true →
    lba ∈ st'.nodes

end FuseVolume

/-! ### The condition on a step -/

/-- The inode table has a path for a deletion, and the deletion leaves a record in its leaf. -/
structure UndoCareful (st : TreeVolume) (inodeId : ℕ) : Prop where
  shallow : ∀ used root, Stored inodeKind (st.hdrLba .inodes) used (st.ctx .inodes) root →
    root.height ≤ btreeMaxDepth
  leaf : DeleteCareful st .inodes inodeId

namespace FuseVolume

/-- Both insertions of a new inode find the nodes they ask for or none at all, and taking the record
back is careful. -/
def AddCareful (inode : InodeRecord) (key : CatalogKey) (directoryFlag : Bool) (st : FuseVolume) :
    Prop :=
  InsertCareful st.toTreeVolume .inodes inode ∧ ∀ st₁, st.call (.inodePut inode) = (none, st₁) →
      InsertCareful st₁.toTreeVolume .catalog (Mounted.newRecord inode.inodeId key directoryFlag) ∧
      ∀ e st₂,
        st₁.call (.catalogInsert (Mounted.newRecord inode.inodeId key directoryFlag)) =
          (some e, st₂) → UndoCareful st₂.toTreeVolume inode.inodeId

/-- There is an inode id left. -/
def IdsLeft (st : FuseVolume) : Prop := st.nextInodeId + 1 < 2 ^ 64

end FuseVolume

/-- The condition on a callback. A symbolic link whose target got blocks is not refused its
inode. -/
def NewNameCall.Careful (st : FuseVolume) : NewNameCall → Prop
  | create path => ∀ key, st.freeKey path = .ok key →
      st.IdsLeft ∧ st.allocInodeId.AddCareful st.newInode key false
  | mkdir path => ∀ key, st.freeKey path = .ok key →
      st.IdsLeft ∧ st.allocInodeId.AddCareful st.newInode key true
  | symlink target linkpath => ∀ key, st.freeKey linkpath = .ok key → st.IdsLeft ∧
      ∀ inode vol, writeTarget target st.newInode st.vol = (some inode, vol) →
        FuseVolume.AddCareful inode key false { st.allocInodeId with vol := vol } ∧
          (target.bytes = [] ∨ ∀ e st',
            FuseVolume.call (.inodePut inode) { st.allocInodeId with vol := vol } ≠ (some e, st'))
  | link oldpath newpath => ∀ inode newKey st₁, st.findLink oldpath newpath = .ok (inode, newKey) →
      st.call (.inodePut { inode with refCount := (inode.refCount + 1) % 2 ^ 32 }) = (none, st₁) →
        InsertCareful st₁.toTreeVolume .catalog (Mounted.newRecord inode.inodeId newKey false)

/-- The condition on a step. Inodes are put back while they are in the table, and the rest of the
library keeps off the nodes. -/
def MountStep.Careful (st : FuseVolume) : MountStep → Prop
  | callback call => call.Careful st
  | treeCall call => call.Careful st.toTreeVolume ∧
      ∀ inode, call = .inodePut inode → st.HasInode inode.inodeId
  | elsewhere change => st.toTreeVolume.Spares st.nodes (change st.vol)

def AllStepsCareful : List MountStep → FuseVolume → Prop
  | [], _ => True
  | step :: steps, st => step.Careful st ∧ AllStepsCareful steps (step.after st)

end Obmafs3
