import Obmafs3.Namespace.Names

/-!
# What the callbacks do to the records

An insertion may hand a separator to an index node that does not separate, and a deletion may leave
an index node without entries. `Accepts` and `Releases` say that this does not happen. A callback
that finds its trees so does to the records what `Names` says of them.
-/

set_option autoImplicit false

namespace Obmafs3

open Library.NameTree Library.Search Library.SearchTree

/-! ### Insertions and deletions -/

namespace NameTable

variable {κ ρ : Type} [LinearOrder κ] (table : NameTable κ ρ) (blockSize : ℕ)

/-- An insertion finds a tree that is not too high, and no node that it divides hands up a separator
that does not separate. -/
def Accepts (r : ρ) (tree : Root Unit κ ρ) : Prop :=
  tree.height ≤ nameBtreeMaxDepth ∧
    tree.Safe table.order (table.leafMaxKeys blockSize) (table.indexMaxKeys blockSize) r

/-- A deletion finds a tree that is not too high, and leaves an entry in the index nodes it
passes. -/
def Releases (k : κ) (tree : Root Unit κ ρ) : Prop :=
  tree.height ≤ nameBtreeMaxDepth ∧ tree.Unstranded table.order k

/-- A leaf has room for a record and an index node for two entries, and their number is a
`uint16_t`. -/
structure Fits : Prop where
  leaf : 1 ≤ table.leafMaxKeys blockSize
  index : 1 ≤ table.indexMaxKeys blockSize

variable {table blockSize} {tree : Root Unit κ ρ}

/-- A tree of one leaf accepts every record. -/
theorem accepts_leaf {r : ρ} (leaf : Unit × List ρ) : table.Accepts blockSize r (.node 0 leaf) :=
  ⟨Nat.zero_le _, trivial⟩

theorem one_le_maxKeys_of_size {itemSize : ℕ} (hlow : 614 ≤ blockSize) (hhigh : blockSize ≤ 2 ^ 16)
    (hitem : 0 < itemSize ∧ itemSize ≤ 544) : 1 ≤ maxKeys blockSize itemSize := by
  refine one_le_maxKeys hitem.1 ?_ ?_
  · unfold btreeNodeHeaderSize
    omega
  · omega

omit [LinearOrder κ] in
/-- In blocks with room for two index entries of the catalog everything has room. -/
theorem fits_of_sizes (hlow : 614 ≤ blockSize) (hhigh : blockSize ≤ 2 ^ 16)
    (hrecord : 0 < table.recordSize ∧ table.recordSize ≤ 544)
    (hentry : 0 < table.entrySize ∧ table.entrySize ≤ 544) : table.Fits blockSize :=
  ⟨one_le_maxKeys_of_size hlow hhigh hrecord, one_le_maxKeys_of_size hlow hhigh hentry⟩

theorem put_accepted (hfits : table.Fits blockSize) (hordered : tree.Ordered table.order) {r : ρ}
    (haccepts : table.Accepts blockSize r tree) :
    ∃ tree', table.put blockSize r tree = .ok tree' ∧ tree'.Ordered table.order ∧
      tree'.records = upsert table.order r tree.records := by
  obtain ⟨hheight, hsafe⟩ := haccepts
  refine ⟨_, if_neg (not_lt.mpr hheight), ?_, ?_⟩
  · exact Root.put_ordered hfits.leaf hfits.index _ hordered hsafe
  · exact Root.records_put hordered (Root.put_done fun _ _ ↦ Option.some_ne_none ())

theorem delete_released (hordered : tree.Ordered table.order) {k : κ}
    (hreleases : table.Releases k tree) (hfound : tree.lookup table.order k ≠ none) :
    ∃ tree', table.delete k tree = .ok tree' ∧ tree'.Ordered table.order ∧
      tree'.records = tree.records.filter (table.order · ≠ k) := by
  obtain ⟨hheight, hkeep⟩ := hreleases
  refine ⟨(tree.delete table.order k).1, ?_, Root.delete_ordered hordered hkeep,
    Root.records_delete hordered⟩
  rw [delete, if_neg (not_lt.mpr hheight)]
  have hdone : (tree.delete table.order k).2 = true := Root.delete_found hfound
  rcases hrun : tree.delete table.order k with ⟨tree', done⟩
  rw [hrun] at hdone
  obtain rfl : done = true := hdone
  rfl

end NameTable

namespace NameStore

variable {st : NameStore}

/-- A directory is listed with all its entries. -/
theorem mem_catalogList (hordered : st.catalog.Ordered catalogKey) {parentId : ℕ}
    {r : CatalogRecord} :
    r ∈ st.catalogList parentId ↔ r ∈ st.catalog.records ∧ r.parentId = parentId := by
  have hbefore (r : CatalogRecord) (hlt : catalogKey r < toLex (parentId, [])) :
      decide (r.parentId < parentId) = true := by
    rcases Prod.Lex.lt_iff.mp hlt with h | ⟨-, h⟩
    · exact decide_eq_true h
    · exact absurd h (List.not_lt_nil _)
  have hafter (r q : CatalogRecord) (hlt : catalogKey r < catalogKey q)
      (hr : decide (parentId < r.parentId) = true) : decide (parentId < q.parentId) = true := by
    have hle : r.parentId ≤ q.parentId := Prod.Lex.monotone_fst _ _ hlt.le
    exact decide_eq_true ((of_decide_eq_true hr).trans_le hle)
  rw [catalogList, Root.mem_scan_route hordered hbefore hafter]
  simp only [decide_eq_false_iff_not, not_lt]
  exact and_congr_right fun _ ↦ ⟨fun h ↦ le_antisymm h.2 h.1, fun h ↦ ⟨h.ge, h.le⟩⟩

/-- The records of both trees. -/
def names (st : NameStore) : Names := ⟨st.catalog.records, st.inodeGet, st.nextInodeId⟩

/-- Both trees are search trees, in blocks that hold their nodes. -/
structure Ready (st : NameStore) : Prop where
  catalogFits : catalogTable.Fits st.blockSize
  inodesFit : inodeTable.Fits st.blockSize
  catalog : st.catalog.Ordered catalogKey
  inodes : st.inodes.Ordered InodeEntry.inodeId

namespace Ready

section

variable (hready : st.Ready)
include hready

theorem catalogLookup_eq (key : CatalogKey) : st.catalogLookup key = st.names.find key := by
  have hlookup := Root.lookup_eq hready.catalog key
  change st.catalog.lookup catalogKey key = st.catalog.records.find? (catalogKey · = key)
  -- The two sides decide equality of keys by different instances.
  convert hlookup

theorem entries_eq : st.entries = st.names.entries := by
  funext d c
  rw [entries, hready.catalogLookup_eq]
  rfl

theorem isEmpty_catalogList (parentId : ℕ) : (st.catalogList parentId).isEmpty = true ↔
      ∀ r ∈ st.names.catalog, r.parentId ≠ parentId := by
  rw [List.isEmpty_iff, List.eq_nil_iff_forall_not_mem]
  refine forall_congr' fun r ↦ ?_
  rw [mem_catalogList hready.catalog, not_and]
  rfl

/-- A record enters the catalog. -/
theorem catalogInsert {record : CatalogRecord}
    (haccepts : catalogTable.Accepts st.blockSize record st.catalog) :
    ∃ tree, st.catalogInsert record = .ok { st with catalog := tree } ∧
      Ready { st with catalog := tree } ∧
      names { st with catalog := tree } = st.names.enter record := by
  obtain ⟨tree, hput, hordered, hrecords⟩ :=
    NameTable.put_accepted hready.catalogFits hready.catalog haccepts
  refine ⟨tree, ?_, ⟨hready.catalogFits, hready.inodesFit, hordered, hready.inodes⟩, ?_⟩
  · rw [NameStore.catalogInsert, hput]
    rfl
  · rw [names, hrecords]
    rfl

/-- A record leaves the catalog. -/
theorem catalogDelete {key : CatalogKey} {entry : CatalogRecord}
    (hfound : st.catalogLookup key = some entry)
    (hreleases : catalogTable.Releases key st.catalog) :
    ∃ tree, st.catalogDelete key = .ok { st with catalog := tree } ∧
      Ready { st with catalog := tree } ∧
      names { st with catalog := tree } = st.names.leave key := by
  have hsome : st.catalog.lookup catalogKey key ≠ none := fun hnone ↦
    Option.some_ne_none entry (hfound.symm.trans hnone)
  obtain ⟨tree, hdelete, hordered, hrecords⟩ :=
    NameTable.delete_released hready.catalog hreleases hsome
  refine ⟨tree, ?_, ⟨hready.catalogFits, hready.inodesFit, hordered, hready.inodes⟩, ?_⟩
  · rw [NameStore.catalogDelete, hdelete]
    rfl
  · have hleft : tree.records = withoutKey key st.catalog.records :=
      hrecords.trans (List.filter_congr fun r _ ↦ decide_eq_decide.mpr Iff.rfl)
    rw [names, hleft]
    rfl

end

variable {inode : InodeEntry FileType}

/-- An inode is stored. -/
theorem inodePut (hready : st.Ready) (haccepts : inodeTable.Accepts st.blockSize inode st.inodes) :
    ∃ tree, st.inodePut inode = .ok { st with inodes := tree } ∧ Ready { st with inodes := tree } ∧
      names { st with inodes := tree } = st.names.store inode := by
  obtain ⟨tree, hput, hordered, hrecords⟩ :=
    NameTable.put_accepted hready.inodesFit hready.inodes haccepts
  refine ⟨tree, ?_, ⟨hready.catalogFits, hready.inodesFit, hready.catalog, hordered⟩, ?_⟩
  · rw [NameStore.inodePut, hput]
    rfl
  · have hget : inodeGet { st with inodes := tree } =
        Function.update st.inodeGet inode.inodeId (some inode) := by
      funext x
      change tree.lookup InodeEntry.inodeId x = _
      have hordered' : tree.Ordered InodeEntry.inodeId := hordered
      have hrecords' : tree.records = upsert InodeEntry.inodeId inode st.inodes.records := hrecords
      rw [Root.lookup_eq hordered', hrecords', find?_upsert, Function.update_apply, inodeGet,
        Root.lookup_eq hready.inodes]
      exact if_congr eq_comm rfl rfl
    rw [names, hget]
    rfl

/-- An inode is deleted. -/
theorem inodeDelete (hready : st.Ready) {inodeId : ℕ} (hfound : st.inodeGet inodeId = some inode)
    (hreleases : inodeTable.Releases inodeId st.inodes) :
    ∃ tree, st.inodeDelete inodeId = .ok { st with inodes := tree } ∧
      Ready { st with inodes := tree } ∧
      names { st with inodes := tree } = st.names.discard inodeId := by
  have hsome : st.inodes.lookup InodeEntry.inodeId inodeId ≠ none := fun hnone ↦
    Option.some_ne_none inode (hfound.symm.trans hnone)
  obtain ⟨tree, hdelete, hordered, hrecords⟩ :=
    NameTable.delete_released hready.inodes hreleases hsome
  refine ⟨tree, ?_, ⟨hready.catalogFits, hready.inodesFit, hready.catalog, hordered⟩, ?_⟩
  · rw [NameStore.inodeDelete, hdelete]
    rfl
  · have hget : inodeGet { st with inodes := tree } =
        Function.update st.inodeGet inodeId none := by
      have hordered' : tree.Ordered InodeEntry.inodeId := hordered
      funext x
      change tree.lookup InodeEntry.inodeId x = _
      rw [Function.update_apply]
      split_ifs with hx
      · rw [Root.lookup_none hordered']
        intro r hr heq
        rw [hrecords] at hr
        exact of_decide_eq_true (List.mem_filter.mp hr).2 (heq.trans hx)
      · ext r
        rw [inodeGet, Root.mem_lookup hordered', Root.mem_lookup hready.inodes, hrecords,
          List.mem_filter]
        constructor
        · exact fun h ↦ ⟨h.1.1, h.2⟩
        · rintro ⟨hr, rfl⟩
          exact ⟨⟨hr, decide_eq_true hx⟩, rfl⟩
    rw [names, hget]
    rfl

end Ready

/-! ### What paths lead to -/

/-- The bytes of the path with some components, the root included. -/
def pathBytes (p : List Component) : List ℕ := if p = [] then [47] else bytesBelow p

/-- What the paths of a volume lead to. -/
def mapping (st : NameStore) : Mapping ℕ Component := fun p ↦ st.lookupPath (pathBytes p)

/-- Two search trees with the records of a namespace. -/
structure Sound (st : NameStore) : Prop where
  ready : st.Ready
  names : st.names.Sound

namespace Sound

theorem mapping_eq (hsound : st.Sound) : st.mapping = st.names.mapping := by
  funext p
  rcases List.eq_nil_or_concat' p with rfl | ⟨dir, name, rfl⟩
  · have hroot : st.catalogLookup (toLex (rootInodeId, [47])) = some rootRecord :=
      (Root.mem_lookup hsound.ready.catalog).mpr ⟨hsound.names.root, rfl⟩
    change (st.catalogLookup (toLex (rootInodeId, [47]))).map CatalogRecord.target = _
    rw [hroot]
    rfl
  · have hbytes : pathBytes (dir ++ [name]) = AbsolutePath.bytes ⟨dir, name⟩ :=
      if_neg (by simp)
    rw [mapping, hbytes, lookupPath_bytes, hsound.ready.entries_eq]
    rfl

variable {path : AbsolutePath}

variable (hsound : st.Sound)
include hsound

/-- The key of a path, and the directory it is in. -/
theorem resolvePath {key : CatalogKey} (hkey : st.resolvePath path.bytes = .ok key) :
    ∃ b, key = toLex (b, path.name.bytes) ∧ st.mapping path.dir = some (b, true) := by
  obtain ⟨b, rfl, hdir⟩ := resolvePath_eq_ok.mp hkey
  rw [hsound.mapping_eq, Names.mapping, ← hsound.ready.entries_eq]
  exact ⟨b, rfl, hdir⟩

theorem mapping_parts {b : ℕ} (hdir : st.mapping path.dir = some (b, true)) :
    st.mapping path.parts =
      (st.catalogLookup (toLex (b, path.name.bytes))).map CatalogRecord.target := by
  rw [hsound.mapping_eq] at hdir ⊢
  rw [hsound.ready.catalogLookup_eq]
  exact resolve_concat hdir path.name

/-- A directory whose list is empty is one without entries. -/
theorem bare {entry : CatalogRecord}
    (hempty : entry.directoryFlag = true → (st.catalogList entry.inodeId).isEmpty = true) :
    Library.NameTree.Bare st.names.entries entry.target := by
  intro hdir n
  refine Option.map_eq_none_iff.mpr ?_
  by_contra hsome
  obtain ⟨r, hr⟩ := Option.ne_none_iff_exists'.mp hsome
  obtain ⟨hmem, hkey⟩ := Names.mem_of_find hr
  have hparent : r.parentId = entry.inodeId := (Prod.mk.inj (toLex.injective hkey)).1
  exact (hsound.ready.isEmpty_catalogList entry.inodeId).mp (hempty hdir) r hmem hparent

end Sound

/-! ### Callbacks that find everything fit -/

/-- A new name is short enough to be kept, and both trees are fit for its records. -/
structure AddFits (st : NameStore) (fileType : FileType) (key : CatalogKey) : Prop where
  name : (ofLex key).2.length ≤ 255
  ids : st.nextInodeId + 1 < 2 ^ 64
  inodes : inodeTable.Accepts st.blockSize ⟨st.nextInodeId, 1, fileType⟩ st.inodes
  catalog : catalogTable.Accepts st.blockSize
    (Mounted.newRecord st.nextInodeId key (fileType = .directory)) st.catalog

/-- A new name for an inode with less than the most links. -/
structure LinkFits (st : NameStore) (inode : InodeEntry FileType) (key : CatalogKey) : Prop where
  name : (ofLex key).2.length ≤ 255
  count : inode.refCount + 1 < 2 ^ 32
  inodes : inodeTable.Accepts st.blockSize { inode with refCount := inode.refCount + 1 } st.inodes
  catalog : catalogTable.Accepts st.blockSize (Mounted.newRecord inode.inodeId key false) st.catalog

/-- The trees are fit for the removal of a name. -/
structure DropFits (st : NameStore) (entry : CatalogRecord) (key : CatalogKey) : Prop where
  catalog : catalogTable.Releases key st.catalog
  inodes : ∀ inode, st.inodeGet entry.inodeId = some inode →
    if 1 < inode.refCount then
      inodeTable.Accepts st.blockSize { inode with refCount := inode.refCount - 1 } st.inodes
    else inodeTable.Releases entry.inodeId st.inodes

/-- The catalog is fit for a name to leave it and to enter it again. -/
structure MoveFits (st : NameStore) (src : CatalogRecord) (oldKey newKey : CatalogKey) : Prop where
  name : (ofLex newKey).2.length ≤ 255
  old : catalogTable.Releases oldKey st.catalog
  new : ∀ st', st.catalogDelete oldKey = .ok st' →
    catalogTable.Accepts st'.blockSize (Mounted.newRecord src.inodeId newKey src.directoryFlag)
      st'.catalog

/-- The catalog is fit for two names to leave it and to enter it again. -/
structure ExchangeFits (st : NameStore) (src dst : CatalogRecord) (oldKey newKey : CatalogKey) :
    Prop where
  old : catalogTable.Releases oldKey st.catalog
  new : ∀ st₁, st.catalogDelete oldKey = .ok st₁ → catalogTable.Releases newKey st₁.catalog
  first : ∀ st₁ st₂, st.catalogDelete oldKey = .ok st₁ → st₁.catalogDelete newKey = .ok st₂ →
    catalogTable.Accepts st₂.blockSize (Mounted.newRecord dst.inodeId oldKey dst.directoryFlag)
      st₂.catalog
  second : ∀ st₁ st₂ st₃, st.catalogDelete oldKey = .ok st₁ → st₁.catalogDelete newKey = .ok st₂ →
    st₂.catalogInsert (Mounted.newRecord dst.inodeId oldKey dst.directoryFlag) = .ok st₃ →
      catalogTable.Accepts st₃.blockSize (Mounted.newRecord src.inodeId newKey src.directoryFlag)
        st₃.catalog

/-- The trees are fit for what a rename comes to. -/
structure RenameFits (st : NameStore) (flags : Mounted.RenameFlags) (src : CatalogRecord)
    (oldKey newKey : CatalogKey) : Prop where
  exchange : flags.exchange = true → ∀ dst, st.catalogLookup newKey = some dst →
    src.directoryFlag = dst.directoryFlag → st.ExchangeFits src dst oldKey newKey
  move : flags.exchange = false → st.catalogLookup newKey = none → st.MoveFits src oldKey newKey
  replace : flags.exchange = false → flags.noreplace = false → ∀ dst,
    st.catalogLookup newKey = some dst → src.directoryFlag = dst.directoryFlag →
      (dst.directoryFlag = true → (st.catalogList dst.inodeId).isEmpty = true) →
        st.DropFits dst newKey ∧
          ∀ st', st.replaceDest dst newKey = (none, st') → st'.MoveFits src oldKey newKey

/-! ### What they do to the records -/

namespace Ready

variable {key oldKey newKey : CatalogKey} {entry src dst : CatalogRecord}

theorem addInode (hready : st.Ready) {fileType : FileType}
    (hfree : st.catalogLookup key = none) (hids : st.nextInodeId + 1 < 2 ^ 64)
    (hinodes : inodeTable.Accepts st.blockSize ⟨st.nextInodeId, 1, fileType⟩ st.inodes)
    (hcatalog : catalogTable.Accepts st.blockSize
      (Mounted.newRecord st.nextInodeId key (fileType = .directory)) st.catalog) :
    ∃ st', st.addInode fileType key = (none, st') ∧ st'.Ready ∧
      st'.names = st.names.add fileType key := by
  have hnext : Ready st.allocInodeId :=
    ⟨hready.catalogFits, hready.inodesFit, hready.catalog, hready.inodes⟩
  obtain ⟨inodes, hput, hready₁, hnames₁⟩ := hnext.inodePut hinodes
  obtain ⟨catalog, hinsert, hready₂, hnames₂⟩ := hready₁.catalogInsert hcatalog
  refine ⟨_, ?_, hready₂, ?_⟩
  · rw [NameStore.addInode, hfree]
    simp only [hput, hinsert]
  · have hnext : st.allocInodeId.names = { st.names with nextInodeId := st.nextInodeId + 1 } :=
      congrArg (Names.mk st.catalog.records st.inodeGet) (Nat.mod_eq_of_lt hids)
    rw [hnames₂, hnames₁, hnext]
    rfl

variable {inode : InodeEntry FileType}

section

variable (hready : st.Ready)
include hready

/-- One name less for an inode. -/
theorem dropLink {inodeId : ℕ} (hinode : st.inodeGet inodeId = some inode)
    (hfits : if 1 < inode.refCount then
      inodeTable.Accepts st.blockSize { inode with refCount := inode.refCount - 1 } st.inodes
      else inodeTable.Releases inodeId st.inodes) :
    ∃ st', st.dropLink inodeId = (none, st') ∧ st'.Ready ∧
      st'.names = st.names.dropLink inodeId := by
  have hstored : st.names.inodes inodeId = some inode := hinode
  unfold NameStore.dropLink Names.dropLink
  simp only [hinode, hstored]
  split_ifs at hfits ⊢ with hmore
  · obtain ⟨inodes, hput, hready₁, hnames₁⟩ := hready.inodePut hfits
    rw [hput]
    exact ⟨_, rfl, hready₁, hnames₁⟩
  · obtain ⟨inodes, hdelete, hready₁, hnames₁⟩ := hready.inodeDelete hinode hfits
    rw [hdelete]
    exact ⟨_, rfl, hready₁, hnames₁⟩

theorem moveEntry (hsrc : st.catalogLookup oldKey = some src)
    (hfits : st.MoveFits src oldKey newKey) :
    ∃ st', st.moveEntry src oldKey newKey = (none, st') ∧ st'.Ready ∧
      st'.names = st.names.move src oldKey newKey := by
  obtain ⟨tree, hdelete, hready₁, hnames₁⟩ := hready.catalogDelete hsrc hfits.old
  obtain ⟨tree', hinsert, hready₂, hnames₂⟩ := hready₁.catalogInsert (hfits.new _ hdelete)
  refine ⟨_, ?_, hready₂, ?_⟩
  · rw [NameStore.moveEntry, hdelete]
    simp only [hinsert]
    rfl
  · rw [hnames₂, hnames₁]
    rfl

theorem exchangeEntries (hkeys : oldKey ≠ newKey)
    (hsrc : st.catalogLookup oldKey = some src) (hdst : st.catalogLookup newKey = some dst)
    (hfits : st.ExchangeFits src dst oldKey newKey) :
    ∃ st', st.exchangeEntries src dst oldKey newKey = (none, st') ∧ st'.Ready ∧
      st'.names = st.names.exchange src dst oldKey newKey := by
  obtain ⟨tree₁, hdelete₁, hready₁, hnames₁⟩ := hready.catalogDelete hsrc hfits.old
  have hdst' : NameStore.catalogLookup { st with catalog := tree₁ } newKey = some dst := by
    rw [hready₁.catalogLookup_eq, hnames₁, Names.find_leave, if_neg hkeys,
      ← hready.catalogLookup_eq, hdst]
  obtain ⟨tree₂, hdelete₂, hready₂, hnames₂⟩ := hready₁.catalogDelete hdst' (hfits.new _ hdelete₁)
  obtain ⟨tree₃, hinsert₃, hready₃, hnames₃⟩ :=
    hready₂.catalogInsert (hfits.first _ _ hdelete₁ hdelete₂)
  obtain ⟨tree₄, hinsert₄, hready₄, hnames₄⟩ :=
    hready₃.catalogInsert (hfits.second _ _ _ hdelete₁ hdelete₂ hinsert₃)
  refine ⟨_, ?_, hready₄, ?_⟩
  · rw [NameStore.exchangeEntries, hdelete₁]
    simp only [hdelete₂, hinsert₃, hinsert₄]
    rfl
  · rw [hnames₄, hnames₃, hnames₂, hnames₁]
    rfl

/-- An entry goes, and its inode with the last one. -/
theorem dropEntry (hentry : st.catalogLookup key = some entry)
    (hinode : st.inodeGet entry.inodeId = some inode) (hfits : st.DropFits entry key) :
    ∃ st₁ st', st.catalogDelete key = .ok st₁ ∧ st₁.inodeGet entry.inodeId = some inode ∧
      st₁.dropLink entry.inodeId = (none, st') ∧ st'.Ready ∧
      st'.names = st.names.drop entry key := by
  obtain ⟨tree, hdelete, hready₁, hnames₁⟩ := hready.catalogDelete hentry hfits.catalog
  have hinode₁ : NameStore.inodeGet { st with catalog := tree } entry.inodeId = some inode := hinode
  obtain ⟨st', hdrop, hready', hnames'⟩ := hready₁.dropLink hinode₁ (hfits.inodes inode hinode)
  refine ⟨_, st', hdelete, hinode₁, hdrop, hready', ?_⟩
  rw [hnames', hnames₁]
  rfl

theorem addLink (hfits : st.LinkFits inode key) :
    ∃ st₁ st', st.inodePut { inode with refCount := (inode.refCount + 1) % 2 ^ 32 } = .ok st₁ ∧
      st₁.catalogInsert (Mounted.newRecord inode.inodeId key false) = .ok st' ∧ st'.Ready ∧
      st'.names = st.names.link inode key := by
  rw [Nat.mod_eq_of_lt hfits.count]
  obtain ⟨inodes, hput, hready₁, hnames₁⟩ := hready.inodePut hfits.inodes
  obtain ⟨catalog, hinsert, hready₂, hnames₂⟩ := hready₁.catalogInsert hfits.catalog
  refine ⟨_, _, hput, hinsert, hready₂, ?_⟩
  rw [hnames₂, hnames₁]
  rfl

end

end Ready

end NameStore

end Obmafs3
