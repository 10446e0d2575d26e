import Obmafs3.Btree
import Obmafs3.Library.NameTree
import Obmafs3.Library.SearchTreeScan
import Obmafs3.Namespace.Sidecar

/-!
# The callbacks on paths

The callbacks that change the tree of names, from the bytes of their paths to the two search trees
they change. The catalog and the inode table are the search trees of the library, with a block at
hand whenever a node is asked for, and every block is read and written. What is left to fail is a
tree with more levels than the path of a search has room for.

Of an inode record these callbacks read the id, the link count and the type. The data of a symbolic
link, the blocks and the tags of a removed file and the open file of a new one touch neither tree.
-/

set_option autoImplicit false

namespace Obmafs3

open Library.NameTree Library.Search Library.SearchTree

/-! ### Bytes of paths -/

/-- What stands before and behind the last of the bytes that `strrchr` looks for. -/
def cutAtLast (c : ℕ) : List ℕ → Option (List ℕ × List ℕ)
  | [] => none
  | b :: s =>
    match cutAtLast c s with
    | some (before, behind) => some (b :: before, behind)
    | none => if b = c then some ([], s) else none

/-- The tokens of `strtok_r`, with what is read of the first one. -/
def strtok (c : ℕ) : (s token : List ℕ) → List (List ℕ)
  | [], token => if token = [] then [] else [token]
  | b :: s, token =>
    if b = c then if token = [] then strtok c s [] else token :: strtok c s []
    else strtok c s (token ++ [b])

/-- A byte as `strcasecmp` compares it. -/
def lowerCase (b : ℕ) : ℕ := if 65 ≤ b ∧ b ≤ 90 then b + 32 else b

/-- `lookup_disk_image_sector_size` over the extensions of `g_disk_image_maps` with their sizes. -/
def lookupDiskImageSectorSize (maps : List (List ℕ × ℕ)) (name : List ℕ) : ℕ :=
  match cutAtLast 46 name with
  | none => 0
  | some ([], _) => 0
  | some (_ :: _, ext) =>
    ((maps.find? fun m ↦ m.1.map lowerCase = ext.map lowerCase).map Prod.snd).getD 0

/-! ### The two trees -/

/-- What sets one of the trees apart: its order and the sizes of its records and its entries. -/
structure NameTable (κ ρ : Type) where
  order : ρ → κ
  recordSize : ℕ
  entrySize : ℕ

/-- `CATALOG_BTREE_MAX_DEPTH` and `INODE_BTREE_MAX_DEPTH`. -/
def nameBtreeMaxDepth : ℕ := 8

abbrev CatalogTree := Root Unit CatalogKey CatalogRecord

abbrev InodeTree := Root Unit ℕ (InodeEntry FileType)

def catalogTable : NameTable CatalogKey CatalogRecord := ⟨catalogKey, 273, 272⟩

def inodeTable : NameTable ℕ (InodeEntry FileType) := ⟨InodeEntry.inodeId, 265, 16⟩

namespace NameTable

variable {κ ρ : Type} [LinearOrder κ] (table : NameTable κ ρ) (blockSize : ℕ)

def leafMaxKeys : ℕ := maxKeys blockSize table.recordSize

def indexMaxKeys : ℕ := maxKeys blockSize table.entrySize

/-- An insertion that gets every node it asks for. A record with the same key is replaced. -/
def put (r : ρ) (tree : Root Unit κ ρ) : Except ErrorCode (Root Unit κ ρ) :=
  if nameBtreeMaxDepth < tree.height then .error .inval
  else .ok (tree.put table.order (table.leafMaxKeys blockSize) (table.indexMaxKeys blockSize)
    (fun _ ↦ some ()) r).1

def delete (k : κ) (tree : Root Unit κ ρ) : Except ErrorCode (Root Unit κ ρ) :=
  if nameBtreeMaxDepth < tree.height then .error .inval
  else
    match tree.delete table.order k with
    | (tree, true) => .ok tree
    | (_, false) => .error .notFound

end NameTable

/-- What the callbacks on paths know of the mounted volume. -/
structure NameStore where
  blockSize : ℕ
  catalog : CatalogTree
  inodes : InodeTree
  nextInodeId : ℕ
  diskImageMaps : List (List ℕ × ℕ)

namespace NameStore

/-- `obmafs3_catalog_lookup`. -/
def catalogLookup (st : NameStore) (key : CatalogKey) : Option CatalogRecord :=
  st.catalog.lookup catalogKey key

/-- `obmafs3_catalog_list`: a scan from the leaf that a search for the empty name reaches. -/
def catalogList (st : NameStore) (parentId : ℕ) : List CatalogRecord :=
  scan (fun r ↦ r.parentId < parentId) (fun r ↦ parentId < r.parentId)
    (st.catalog.recordsFrom (indexFind · (toLex (parentId, []))))

/-- `obmafs3_catalog_insert`. -/
def catalogInsert (st : NameStore) (record : CatalogRecord) : Except ErrorCode NameStore :=
  (catalogTable.put st.blockSize record st.catalog).map fun tree ↦ { st with catalog := tree }

/-- `obmafs3_catalog_delete`. -/
def catalogDelete (st : NameStore) (key : CatalogKey) : Except ErrorCode NameStore :=
  (catalogTable.delete key st.catalog).map fun tree ↦ { st with catalog := tree }

/-- `obmafs3_inode_get`. -/
def inodeGet (st : NameStore) (inodeId : ℕ) : Option (InodeEntry FileType) :=
  st.inodes.lookup InodeEntry.inodeId inodeId

/-- `obmafs3_inode_put`. -/
def inodePut (st : NameStore) (inode : InodeEntry FileType) : Except ErrorCode NameStore :=
  (inodeTable.put st.blockSize inode st.inodes).map fun tree ↦ { st with inodes := tree }

/-- `obmafs3_inode_delete`. -/
def inodeDelete (st : NameStore) (inodeId : ℕ) : Except ErrorCode NameStore :=
  (inodeTable.delete inodeId st.inodes).map fun tree ↦ { st with inodes := tree }

/-- `obmafs3_alloc_inode_id`. -/
def allocInodeId (st : NameStore) : NameStore :=
  { st with nextInodeId := (st.nextInodeId + 1) % 2 ^ 64 }

/-! ### Path resolution -/

/-- The loop of `resolve_path` over the directories of a path. -/
def walkComponents (st : NameStore) : (currentId : ℕ) → List (List ℕ) → Except Errno ℕ
  | currentId, [] => .ok currentId
  | currentId, component :: rest =>
    match st.catalogLookup (toLex (currentId, component)) with
    | none => .error .enoent
    | some entry =>
      if entry.directoryFlag then walkComponents st entry.inodeId rest else .error .enotdir

/-- `resolve_path`: the directory of a path and its last name. -/
def resolvePath (st : NameStore) (path : List ℕ) : Except Errno CatalogKey :=
  if path = [47] then .ok (toLex (rootInodeId, [47]))
  else
    match cutAtLast 47 path with
    | none => .error .enoent
    | some ([], name) => .ok (toLex (rootInodeId, name))
    | some (_ :: parentPath, name) =>
      (st.walkComponents rootInodeId (strtok 47 parentPath [])).map fun parentId ↦
        toLex (parentId, name)

/-- What a path leads to: the inode that its catalog entry names. -/
def lookupPath (st : NameStore) (path : List ℕ) : Option (ℕ × Bool) :=
  match st.resolvePath path with
  | .error _ => none
  | .ok key => (st.catalogLookup key).map CatalogRecord.target

/-! ### New names -/

/-- The part that create, mkdir and symlink share: a new inode, then an entry for it. -/
def addInode (fileType : FileType) (key : CatalogKey) (st : NameStore) : Option Errno × NameStore :=
  match st.catalogLookup key with
  | some _ => (some .eexist, st)
  | none =>
    let newInodeId := st.nextInodeId
    let st := st.allocInodeId
    match st.inodePut ⟨newInodeId, 1, fileType⟩ with
    | .error _ => (some .eio, st)
    | .ok st =>
      match st.catalogInsert (Mounted.newRecord newInodeId key (fileType = .directory)) with
      | .ok st => (none, st)
      | .error _ =>
        match st.inodeDelete newInodeId with
        | .error _ => (some .eio, st)
        | .ok st => (some .eio, st)

/-- The type of a new file, from the extension of its name. -/
def createType (st : NameStore) (name : List ℕ) : FileType :=
  if 0 < lookupDiskImageSectorSize st.diskImageMaps name then .mediaImage else .regular

/-- `obmafs3_fuse_create_impl`. -/
def fuseCreate (path : List ℕ) (st : NameStore) : Option Errno × NameStore :=
  match st.resolvePath path with
  | .error e => (some e, st)
  | .ok key => st.addInode (st.createType (ofLex key).2) key

/-- `obmafs3_fuse_mkdir_impl`. -/
def fuseMkdir (path : List ℕ) (st : NameStore) : Option Errno × NameStore :=
  match st.resolvePath path with
  | .error e => (some e, st)
  | .ok key => st.addInode .directory key

/-- `obmafs3_fuse_symlink_impl`, whose data gets its blocks. -/
def fuseSymlink (linkpath : List ℕ) (st : NameStore) : Option Errno × NameStore :=
  match st.resolvePath linkpath with
  | .error e => (some e, st)
  | .ok key => st.addInode .symlink key

/-- `obmafs3_fuse_link_impl`. -/
def fuseLink (oldpath newpath : List ℕ) (st : NameStore) : Option Errno × NameStore :=
  match st.resolvePath oldpath with
  | .error e => (some e, st)
  | .ok oldKey =>
    match st.catalogLookup oldKey with
    | none => (some .enoent, st)
    | some entry =>
      if entry.directoryFlag then (some .eperm, st)
      else
        match st.resolvePath newpath with
        | .error e => (some e, st)
        | .ok newKey =>
          match st.catalogLookup newKey with
          | some _ => (some .eexist, st)
          | none =>
            match st.inodeGet entry.inodeId with
            | none => (some .eio, st)
            | some inode =>
              match st.inodePut { inode with refCount := (inode.refCount + 1) % 2 ^ 32 } with
              | .error _ => (some .eio, st)
              | .ok st =>
                match st.catalogInsert (Mounted.newRecord entry.inodeId newKey false) with
                | .ok st => (none, st)
                | .error _ =>
                  match st.inodePut inode with
                  | .error _ => (some .eio, st)
                  | .ok st => (some .eio, st)

/-! ### Names that go -/

/-- The status of a call that ends with an update. -/
def orEio (st : NameStore) : Except ErrorCode NameStore → Option Errno × NameStore
  | .error _ => (some .eio, st)
  | .ok st => (none, st)

/-- One name less for an inode: lower its link count, or remove it with its last name. -/
def dropLink (inodeId : ℕ) (st : NameStore) : Option Errno × NameStore :=
  match st.inodeGet inodeId with
  | none => (some .eio, st)
  | some inode =>
    if 1 < inode.refCount then
      st.orEio (st.inodePut { inode with refCount := inode.refCount - 1 })
    else st.orEio (st.inodeDelete inodeId)

/-- `obmafs3_fuse_unlink_impl`. -/
def fuseUnlink (path : List ℕ) (st : NameStore) : Option Errno × NameStore :=
  match st.resolvePath path with
  | .error e => (some e, st)
  | .ok key =>
    match st.catalogLookup key with
    | none => (some .enoent, st)
    | some entry =>
      if entry.directoryFlag then (some .eisdir, st)
      else
        match st.catalogDelete key with
        | .error _ => (some .eio, st)
        | .ok st => st.dropLink entry.inodeId

/-- Remove a directory without entries. -/
def dropDirectory (entry : CatalogRecord) (key : CatalogKey) (st : NameStore) :
    Option Errno × NameStore :=
  if (st.catalogList entry.inodeId).isEmpty then
    match st.catalogDelete key with
    | .error _ => (some .eio, st)
    | .ok st => st.orEio (st.inodeDelete entry.inodeId)
  else (some .enotempty, st)

/-- `obmafs3_fuse_rmdir_impl`. -/
def fuseRmdir (path : List ℕ) (st : NameStore) : Option Errno × NameStore :=
  match st.resolvePath path with
  | .error e => (some e, st)
  | .ok key =>
    match st.catalogLookup key with
    | none => (some .enoent, st)
    | some entry =>
      if entry.directoryFlag then st.dropDirectory entry key else (some .enotdir, st)

/-- `replace_dest`. -/
def replaceDest (dst : CatalogRecord) (key : CatalogKey) (st : NameStore) :
    Option Errno × NameStore :=
  if dst.directoryFlag then st.dropDirectory dst key
  else
    match st.catalogDelete key with
    | .error _ => (some .eio, st)
    | .ok st => st.dropLink dst.inodeId

/-! ### Rename -/

/-- `find_parent_of_dir`: a search in breadth from the root. Of the directories found at most 256
ever enter the queue; `entered` counts them. -/
def findParentLoop (st : NameStore) (childId : ℕ) :
    (fuel : ℕ) → (queue : List ℕ) → (entered : ℕ) → Option ℕ
  | 0, _, _ => none
  | _ + 1, [], _ => none
  | fuel + 1, parentId :: queue, entered =>
    let children := (st.catalogList parentId).filter (·.directoryFlag)
    if children.any (·.inodeId = childId) then some parentId
    else
      let pushed := (children.map CatalogRecord.inodeId).take (256 - entered)
      findParentLoop st childId fuel (queue ++ pushed) (entered + pushed.length)

def findParentOfDir (st : NameStore) (childId : ℕ) : Option ℕ :=
  findParentLoop st childId 256 [rootInodeId] 1

def isAncestorLoop (st : NameStore) (ancestorId : ℕ) : (fuel current : ℕ) → Bool
  | 0, _ => false
  | fuel + 1, current =>
    if current = ancestorId then true
    else if current = rootInodeId then false
    else
      match findParentOfDir st current with
      | none => false
      | some parentId => isAncestorLoop st ancestorId fuel parentId

/-- `is_ancestor`. -/
def isAncestor (st : NameStore) (ancestorId dirId : ℕ) : Bool :=
  isAncestorLoop st ancestorId 256 dirId

/-- The part of `obmafs3_fuse_rename_impl` for `RENAME_EXCHANGE`, once both entries are found. -/
def exchangeEntries (src dst : CatalogRecord) (oldKey newKey : CatalogKey) (st : NameStore) :
    Option Errno × NameStore :=
  match st.catalogDelete oldKey with
  | .error _ => (some .eio, st)
  | .ok st =>
    match st.catalogDelete newKey with
    | .error _ => (some .eio, st)
    | .ok st =>
      match st.catalogInsert (Mounted.newRecord dst.inodeId oldKey dst.directoryFlag) with
      | .error _ => (some .eio, st)
      | .ok st =>
        st.orEio (st.catalogInsert (Mounted.newRecord src.inodeId newKey src.directoryFlag))

/-- The part of `obmafs3_fuse_rename_impl` that moves an entry to a free key. -/
def moveEntry (src : CatalogRecord) (oldKey newKey : CatalogKey) (st : NameStore) :
    Option Errno × NameStore :=
  match st.catalogDelete oldKey with
  | .error _ => (some .eio, st)
  | .ok st => st.orEio (st.catalogInsert (Mounted.newRecord src.inodeId newKey src.directoryFlag))

/-- The part of `obmafs3_fuse_rename_impl` that moves an entry over another. -/
def replaceEntry (src dst : CatalogRecord) (oldKey newKey : CatalogKey) (st : NameStore) :
    Option Errno × NameStore :=
  match st.replaceDest dst newKey with
  | (some e, st) => (some e, st)
  | (none, st) => st.moveEntry src oldKey newKey

/-- `obmafs3_fuse_rename_impl` once the keys of both paths are known and the entry of the first is
found. -/
def renameEntry (flags : Mounted.RenameFlags) (src : CatalogRecord) (oldKey newKey : CatalogKey)
    (st : NameStore) : Option Errno × NameStore :=
  let found := st.catalogLookup newKey
  if flags.exchange then
    match found with
    | none => (some .enoent, st)
    | some dst =>
      if src.directoryFlag ≠ dst.directoryFlag then (some .enotdir, st)
      else st.exchangeEntries src dst oldKey newKey
  else if flags.noreplace ∧ found.isSome then (some .eexist, st)
  else if found.any fun dst ↦ src.directoryFlag && !dst.directoryFlag then
    (some .enotdir, st)
  else if found.any fun dst ↦ !src.directoryFlag && dst.directoryFlag then
    (some .eisdir, st)
  else if src.directoryFlag ∧ (ofLex oldKey).1 ≠ (ofLex newKey).1 ∧
      st.isAncestor src.inodeId (ofLex newKey).1 then (some .einval, st)
  else
    match found with
    | none => st.moveEntry src oldKey newKey
    | some dst => st.replaceEntry src dst oldKey newKey

/-- `obmafs3_fuse_rename_impl`. -/
def fuseRename (flags : Mounted.RenameFlags) (oldpath newpath : List ℕ) (st : NameStore) :
    Option Errno × NameStore :=
  if flags.others then (some .einval, st)
  else
    match st.resolvePath oldpath with
    | .error e => (some e, st)
    | .ok oldKey =>
      match st.catalogLookup oldKey with
      | none => (some .enoent, st)
      | some src =>
        match st.resolvePath newpath with
        | .error e => (some e, st)
        | .ok newKey => st.renameEntry flags src oldKey newKey

end NameStore

/-! ### Calls -/

/-- A component of a path: some bytes, none of them a NUL or a slash. -/
def Component : Type := { bytes : List ℕ // bytes ≠ [] ∧ ∀ b ∈ bytes, b ≠ 0 ∧ b ≠ 47 }

namespace Component

def bytes (c : Component) : List ℕ := c.val

instance : DecidableEq Component := inferInstanceAs (DecidableEq (Subtype _))

theorem bytes_injective : Function.Injective bytes := Subtype.val_injective

theorem bytes_ne_nil (c : Component) : c.bytes ≠ [] := c.property.1

theorem slash_not_mem (c : Component) : 47 ∉ c.bytes := fun hmem ↦ (c.property.2 47 hmem).2 rfl

end Component

/-- The bytes of an absolute path below the root. -/
def bytesBelow (p : List Component) : List ℕ := p.flatMap fun c ↦ 47 :: c.bytes

/-- An absolute path other than the root, as the kernel passes it. -/
structure AbsolutePath where
  dir : List Component
  name : Component

def AbsolutePath.parts (path : AbsolutePath) : List Component := path.dir ++ [path.name]

def AbsolutePath.bytes (path : AbsolutePath) : List ℕ := bytesBelow path.parts

/-- The callbacks that change names, each with its paths. -/
inductive NameCall
  | create (path : AbsolutePath)
  | mkdir (path : AbsolutePath)
  | symlink (linkpath : AbsolutePath)
  | link (oldpath newpath : AbsolutePath)
  | unlink (path : AbsolutePath)
  | rmdir (path : AbsolutePath)
  | rename (flags : Mounted.RenameFlags) (oldpath newpath : AbsolutePath)

def NameCall.run : NameCall → NameStore → Option Errno × NameStore
  | create path, st => st.fuseCreate path.bytes
  | mkdir path, st => st.fuseMkdir path.bytes
  | symlink linkpath, st => st.fuseSymlink linkpath.bytes
  | link oldpath newpath, st => st.fuseLink oldpath.bytes newpath.bytes
  | unlink path, st => st.fuseUnlink path.bytes
  | rmdir path, st => st.fuseRmdir path.bytes
  | rename flags oldpath newpath, st => st.fuseRename flags oldpath.bytes newpath.bytes

/-- The volume after a run of calls, whatever each of them returned. -/
def runNames (calls : List NameCall) (st : NameStore) : NameStore :=
  calls.foldl (fun st call ↦ (call.run st).2) st

/-! ### Paths by their components -/

variable {c : ℕ}

variable {s : List ℕ}

theorem cutAtLast_none (hs : c ∉ s) : cutAtLast c s = none := by
  induction s with
  | nil => rfl
  | cons b s ih =>
    rw [List.mem_cons, not_or] at hs
    rw [cutAtLast, ih hs.2]
    exact if_neg (Ne.symm hs.1)

theorem cutAtLast_append (s : List ℕ) {behind : List ℕ} (hbehind : c ∉ behind) :
    cutAtLast c (s ++ c :: behind) = some (s, behind) := by
  induction s with
  | nil =>
    rw [List.nil_append, cutAtLast, cutAtLast_none hbehind]
    exact if_pos rfl
  | cons b s ih => rw [List.cons_append, cutAtLast, ih]

theorem strtok_append (hs : c ∉ s) (rest token : List ℕ) :
    strtok c (s ++ rest) token = strtok c rest (token ++ s) := by
  induction s generalizing token with
  | nil => rw [List.nil_append, List.append_nil]
  | cons b s ih =>
    rw [List.mem_cons, not_or] at hs
    rw [List.cons_append, strtok, if_neg (Ne.symm hs.1), ih hs.2, List.append_assoc]
    rfl

/-- The tokens of a path are its components. -/
theorem strtok_bytesBelow (p : List Component) {token : List ℕ} (htoken : token ≠ []) :
    strtok 47 (bytesBelow p) token = token :: p.map Component.bytes := by
  induction p generalizing token with
  | nil => exact if_neg htoken
  | cons c p ih =>
    change strtok 47 (47 :: (c.bytes ++ bytesBelow p)) token = _
    rw [strtok, if_pos rfl, if_neg htoken, strtok_append c.slash_not_mem, List.nil_append,
      ih c.bytes_ne_nil, List.map_cons]

namespace NameStore

/-- The entries of the directories. -/
def entries (st : NameStore) : Entries ℕ Component := fun d c ↦
  (st.catalogLookup (toLex (d, c.bytes))).map CatalogRecord.target

variable {st : NameStore}

theorem walkComponents_eq_ok {p : List Component} {d b : ℕ} :
    st.walkComponents d (p.map Component.bytes) = .ok b ↔
      walk st.entries (some (d, true)) p = some (b, true) := by
  induction p generalizing d with
  | nil => simp [walkComponents]
  | cons c p ih =>
    have hfollow : walk st.entries (some (d, true)) (c :: p) =
        walk st.entries ((st.catalogLookup (toLex (d, c.bytes))).map CatalogRecord.target) p := rfl
    rw [List.map_cons, walkComponents, hfollow]
    cases st.catalogLookup (toLex (d, c.bytes)) with
    | none => simp [walk_none]
    | some entry =>
      cases hdir : entry.directoryFlag with
      | true => simpa [CatalogRecord.target, hdir] using ih
      | false =>
        -- A file ends the walk.
        have hbare : Bare st.entries (entry.inodeId, false) := fun h ↦ by cases h
        rcases eq_or_ne p [] with rfl | hp
        · simp [CatalogRecord.target, hdir]
        · simp [CatalogRecord.target, hdir, walk_bare hbare hp]

theorem resolvePath_bytes (st : NameStore) (path : AbsolutePath) : st.resolvePath path.bytes =
      (st.walkComponents rootInodeId (path.dir.map Component.bytes)).map fun parentId ↦
        toLex (parentId, path.name.bytes) := by
  obtain ⟨dir, name⟩ := path
  have hbytes : AbsolutePath.bytes ⟨dir, name⟩ = bytesBelow dir ++ 47 :: name.bytes := by
    simp [AbsolutePath.bytes, AbsolutePath.parts, bytesBelow]
  have hroot : bytesBelow dir ++ 47 :: name.bytes ≠ [47] := by
    intro heq
    have hlen := congrArg List.length heq
    have hname := List.length_pos_of_ne_nil name.bytes_ne_nil
    simp only [List.length_append, List.length_cons, List.length_nil] at hlen
    omega
  rw [hbytes, resolvePath, if_neg hroot, cutAtLast_append _ name.slash_not_mem]
  cases dir with
  | nil => rfl
  | cons c dir =>
    have htokens : strtok 47 (c.bytes ++ bytesBelow dir) [] = (c :: dir).map Component.bytes := by
      rw [strtok_append c.slash_not_mem, List.nil_append, strtok_bytesBelow dir c.bytes_ne_nil]
      rfl
    change (st.walkComponents rootInodeId (strtok 47 (c.bytes ++ bytesBelow dir) [])).map _ = _
    rw [htokens]

/-- A path resolves to a key when its directory does. -/
theorem resolvePath_eq_ok {path : AbsolutePath} {key : CatalogKey} :
    st.resolvePath path.bytes = .ok key ↔ ∃ b, key = toLex (b, path.name.bytes) ∧
        resolve st.entries rootInodeId path.dir = some (b, true) := by
  rw [resolvePath_bytes]
  constructor
  · intro hkey
    cases hwalk : st.walkComponents rootInodeId (path.dir.map Component.bytes) with
    | error e =>
      rw [hwalk] at hkey
      cases hkey
    | ok b =>
      rw [hwalk] at hkey
      obtain rfl := Except.ok.inj hkey
      exact ⟨b, rfl, walkComponents_eq_ok.mp hwalk⟩
  · rintro ⟨b, rfl, hwalk⟩
    rw [walkComponents_eq_ok.mpr hwalk]
    rfl

/-- The bytes of a path lead to what its components lead to. -/
theorem lookupPath_bytes (st : NameStore) (path : AbsolutePath) :
    st.lookupPath path.bytes = resolve st.entries rootInodeId path.parts := by
  rw [lookupPath]
  cases hkey : st.resolvePath path.bytes with
  | ok key =>
    obtain ⟨b, rfl, hdir⟩ := resolvePath_eq_ok.mp hkey
    exact (resolve_concat hdir path.name).symm
  | error e =>
    refine Eq.symm (Option.eq_none_iff_forall_ne_some.mpr fun t hresolve ↦ ?_)
    rw [AbsolutePath.parts, resolve_append] at hresolve
    obtain ⟨d, hdir, -⟩ := follow_eq_some.mp hresolve
    rw [resolvePath_eq_ok.mpr ⟨d, rfl, hdir⟩] at hkey
    cases hkey

end NameStore

end Obmafs3
