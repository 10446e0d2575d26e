import Obmafs3.Library.NodeWalk
import Obmafs3.Mount.Open

/-!
# The walks of the checker

The walks of `obmafsck` over the nodes of a tree are one loop with a stack. A node is as long as one
block or, in the trees of metadata, as eight; an entry of an index node is copied from the node as a
whole or only its `child_lba`; and a leaf is left alone or each of its records is copied. The number
of entries is the one in the node, and neither it nor the nodes on the way are checked.
-/

set_option autoImplicit false

namespace Obmafs3

open Relation Library.ByteImage Library.NodeWalk

/-- `METADATA_NODE_BLOCKS`. -/
def metadataNodeBlocks : ℕ := 8

/-- How a walk fails. -/
inductive WalkError
  | io
  | badMagic
  deriving DecidableEq, Repr

/-- What a walk collects: the LBA of a block, an inode, a name or an entry of metadata. -/
inductive Found
  | lba (lba : UInt64)
  | inodeId (inodeId : UInt64)
  | catalogRef (inodeId parentId : UInt64) (name : List UInt8)
  | metaTriple (inodeId : UInt64) (key value : List UInt8)
  deriving DecidableEq, Repr

/-- The little-endian number in eight bytes of a record. -/
def u64At (record : List UInt8) (off : ℕ) : UInt64 :=
  UInt64.ofNat (number (fieldBytes record off 8))

/-- The blocks of a run. -/
def foundRun (startBlock blockCount : UInt64) : List Found :=
  (List.range blockCount.toNat).map fun b ↦ .lba (startBlock + UInt64.ofNat b)

/-- What a walk copies from the records of a leaf and collects from each. -/
structure LeafScan where
  recordSize : ℕ
  collect : List UInt8 → List Found

/-- A walk: what it is called with and where it looks. -/
structure TreeWalk where
  rootLba : UInt64
  /-- Without a tree there is nothing to do. -/
  skipsZero : Bool
  nodeBlocks : ℕ
  indexEntrySize : ℕ
  childLbaOff : ℕ
  /-- An entry of an index node is copied as a whole, not only its `child_lba`. -/
  wholeEntry : Bool
  /-- What is collected at each node. -/
  atNode : UInt64 → List Found
  leaf : Option LeafScan

namespace TreeWalk

/-! ### A node -/

section Reads

variable (img : Image) (sb : Superblock) (w : TreeWalk)

/-- The size of the buffer, as a `size_t`. -/
def nodeSize : ℕ := w.nodeBlocks * sb.blockSize % 2 ^ 64

/-- `obmafs3_block_read` into the buffer. -/
def nodeRead (lba : UInt64) : Option (List UInt8) :=
  if 2 ^ 63 ≤ lba.toNat * sb.blockSize % 2 ^ 64 then none
  else if w.nodeSize sb = 0 then some []
  else img.pread (lba.toNat * sb.blockSize % 2 ^ 64) (w.nodeSize sb)

/-- A copy out of the buffer; `none` when it goes over its end. -/
def copyOut (buf : List UInt8) (off len : ℕ) : Option (List UInt8) :=
  if off + len ≤ buf.length then some (fieldBytes buf off len) else none

/-- The copies of the loop over the entries of a node. -/
def copyEntries (buf : List UInt8) (nodeKeys size off len : ℕ) : Option (List (List UInt8)) :=
  (List.range nodeKeys).mapM fun i ↦ copyOut buf (btreeNodeHeaderSize + i * size + off) len

/-- The entries of an index node. -/
def children (buf : List UInt8) (nodeKeys : ℕ) : Option (List UInt64) :=
  if w.wholeEntry then
    (copyEntries buf nodeKeys w.indexEntrySize 0 w.indexEntrySize).map
      (List.map fun entry ↦ u64At entry w.childLbaOff)
  else
    (copyEntries buf nodeKeys w.indexEntrySize w.childLbaOff 8).map
      (List.map fun entry ↦ u64At entry 0)

/-- The records of a leaf. -/
def records (buf : List UInt8) (nodeKeys : ℕ) : Option (List Found) :=
  match w.leaf with
  | none => some []
  | some scan =>
    (copyEntries buf nodeKeys scan.recordSize 0 scan.recordSize).map (List.flatMap scan.collect)

/-- One turn of the loop. -/
def visit (lba : UInt64) : Visit UInt64 Found WalkError :=
  match w.nodeRead img sb lba with
  | none => .fail .io
  | some buf =>
    match copyOut buf 0 btreeNodeHeaderSize with
    | none => .overrun
    | some hdr =>
      if number (fieldBytes hdr 0 8) ≠ btreeNodeMagic then .fail .badMagic
      else if 0 < number (fieldBytes hdr 9 1) then
        match w.children buf (number (fieldBytes hdr 34 2)) with
        | none => .overrun
        | some lbas => .node (w.atNode lba) lbas
      else
        match w.records buf (number (fieldBytes hdr 34 2)) with
        | none => .overrun
        | some found => .node (w.atNode lba ++ found) []

/-- The walk; `none` when it takes more than `fuel` nodes from the stack. -/
def run (fuel : ℕ) : Option (Result Found WalkError) :=
  if w.skipsZero ∧ w.rootLba = 0 then some (.done [])
  else walk (w.visit img sb) fuel [w.rootLba] []

/-- The walk ends, and all that it reads of a node lies inside the buffer. -/
def Survives : Prop :=
  ∃ fuel r, w.run img sb fuel = some r ∧ r ≠ .overrun

/-- The walk comes to a node from its root. -/
def ComesTo (lba : UInt64) : Prop :=
  ReflTransGen (Comes (w.visit img sb)) w.rootLba lba

/-- The walk comes from a node to the node itself. -/
def OnCycle (lba : UInt64) : Prop :=
  TransGen (Comes (w.visit img sb)) lba lba

/-- What is copied from each of the entries that a node counts lies inside the node. -/
def EntriesFit (buf : List UInt8) (size off len : ℕ) : Prop :=
  ∀ i < number (fieldBytes buf 34 2), btreeNodeHeaderSize + i * size + off + len ≤ buf.length

/-- The header of a node that can be read lies inside it, and so do the entries of an index node and
the records of a leaf that the walk copies. -/
def Inside (lba : UInt64) : Prop :=
  ∀ buf, w.nodeRead img sb lba = some buf → btreeNodeHeaderSize ≤ buf.length ∧
    (number (fieldBytes buf 0 8) = btreeNodeMagic →
      if 0 < number (fieldBytes buf 9 1) then
        if w.wholeEntry then EntriesFit buf w.indexEntrySize 0 w.indexEntrySize
        else EntriesFit buf w.indexEntrySize w.childLbaOff 8
      else ∀ scan, w.leaf = some scan → EntriesFit buf scan.recordSize 0 scan.recordSize)

end Reads

end TreeWalk

/-! ### The walks -/

/-- A tree of nodes of one block, from which LBAs of nodes are collected. -/
def walkInodeBtreeNodes (rootLba : UInt64) (indexEntrySize childLbaOff : ℕ) : TreeWalk where
  rootLba := rootLba
  skipsZero := true
  nodeBlocks := 1
  indexEntrySize := indexEntrySize
  childLbaOff := childLbaOff
  wholeEntry := false
  atNode lba := [.lba lba]
  leaf := none

/-- `struct catalog_index_entry` takes the place of the arguments. -/
def walkCatalogBtreeNodes (rootLba : UInt64) : TreeWalk :=
  { walkInodeBtreeNodes rootLba 272 264 with wholeEntry := true }

def walkMetaBtreeNodes (rootLba : UInt64) (indexEntrySize childLbaOff : ℕ) : TreeWalk :=
  { walkInodeBtreeNodes rootLba indexEntrySize childLbaOff with nodeBlocks := metadataNodeBlocks }

/-- A collector: it copies the entries as a whole and collects from the records of the leaves. -/
def collector (rootLba : UInt64) (nodeBlocks indexEntrySize childLbaOff recordSize : ℕ)
    (collect : List UInt8 → List Found) : TreeWalk where
  rootLba := rootLba
  skipsZero := true
  nodeBlocks := nodeBlocks
  indexEntrySize := indexEntrySize
  childLbaOff := childLbaOff
  wholeEntry := true
  atNode _ := []
  leaf := some ⟨recordSize, collect⟩

/-- The runs of the eight extents of a `struct inode_record`. -/
def collectInodeDataBlocks (inodeRootLba : UInt64) : TreeWalk :=
  collector inodeRootLba 1 16 8 265 fun record ↦
    (List.range 8).flatMap fun e ↦
      foundRun (u64At record (52 + 24 * e)) (u64At record (52 + 24 * e + 8))

/-- The run of a `struct overflow_extent`. -/
def collectOverflowDataBlocks (overflowRootLba : UInt64) : TreeWalk :=
  collector overflowRootLba 1 24 16 40 fun record ↦ foundRun (u64At record 16) (u64At record 24)

/-- The blocks of a `struct media_tag_record` whose data is not inline. -/
def collectMediaTagDataBlocks (mediaTagRootLba : UInt64) : TreeWalk :=
  collector mediaTagRootLba 1 18 10 543 fun record ↦
    if ¬(number (fieldBytes record 14 1)).testBit 0 ∧ u64At record 15 ≠ 0 ∧ u64At record 23 ≠ 0 then
      foundRun (u64At record 15) (u64At record 23)
    else []

/-- The loop of `collect_dedup_blocks` over the nodes of one tree: the nodes, and the data blocks
that a `struct dedup_entry` names. -/
def collectDedupTree (rootNodeLba : UInt64) : TreeWalk :=
  { collector rootNodeLba 1 16 8 24 fun record ↦
      if u64At record 8 = 0 then [] else [.lba (u64At record 8)] with
    skipsZero := false
    atNode := fun lba ↦ [.lba lba] }

/-- A `struct catalog_record`. -/
def collectCatalogRefs (catalogRootLba : UInt64) : TreeWalk :=
  collector catalogRootLba 1 272 264 273 fun record ↦
    [.catalogRef (u64At record 0) (u64At record 8) (fieldBytes record 17 256)]

/-- The inode of a `struct inode_record`. -/
def collectInodeIds (inodeRootLba : UInt64) : TreeWalk :=
  collector inodeRootLba 1 16 8 265 fun record ↦ [.inodeId (u64At record 0)]

/-- A `struct metadata_record`. -/
def collectMetadataRecords (metadataRootLba : UInt64) : TreeWalk :=
  collector metadataRootLba metadataNodeBlocks 272 264 1289 fun record ↦
    [.metaTriple (u64At record 0) (fieldBytes record 8 256) (fieldBytes record 264 1025)]

/-- A `struct metadata_idx_record`. -/
def collectMetadataIdxRecords (metadataIdxRootLba : UInt64) : TreeWalk :=
  collector metadataIdxRootLba metadataNodeBlocks 1297 1289 1289 fun record ↦
    [.metaTriple (u64At record 1281) (fieldBytes record 0 256) (fieldBytes record 256 1025)]

/-- A call of one of the walks. -/
inductive FsckWalk
  | walkInodeBtreeNodes (rootLba : UInt64) (indexEntrySize childLbaOff : ℕ)
  | walkCatalogBtreeNodes (rootLba : UInt64)
  | walkMetaBtreeNodes (rootLba : UInt64) (indexEntrySize childLbaOff : ℕ)
  | collectInodeDataBlocks (inodeRootLba : UInt64)
  | collectOverflowDataBlocks (overflowRootLba : UInt64)
  | collectMediaTagDataBlocks (mediaTagRootLba : UInt64)
  | collectDedupTree (rootNodeLba : UInt64)
  | collectCatalogRefs (catalogRootLba : UInt64)
  | collectInodeIds (inodeRootLba : UInt64)
  | collectMetadataRecords (metadataRootLba : UInt64)
  | collectMetadataIdxRecords (metadataIdxRootLba : UInt64)

/-- The walk that is called. -/
def FsckWalk.walk : FsckWalk → TreeWalk
  | walkInodeBtreeNodes rootLba size off => Obmafs3.walkInodeBtreeNodes rootLba size off
  | walkCatalogBtreeNodes rootLba => Obmafs3.walkCatalogBtreeNodes rootLba
  | walkMetaBtreeNodes rootLba size off => Obmafs3.walkMetaBtreeNodes rootLba size off
  | collectInodeDataBlocks rootLba => Obmafs3.collectInodeDataBlocks rootLba
  | collectOverflowDataBlocks rootLba => Obmafs3.collectOverflowDataBlocks rootLba
  | collectMediaTagDataBlocks rootLba => Obmafs3.collectMediaTagDataBlocks rootLba
  | collectDedupTree rootLba => Obmafs3.collectDedupTree rootLba
  | collectCatalogRefs rootLba => Obmafs3.collectCatalogRefs rootLba
  | collectInodeIds rootLba => Obmafs3.collectInodeIds rootLba
  | collectMetadataRecords rootLba => Obmafs3.collectMetadataRecords rootLba
  | collectMetadataIdxRecords rootLba => Obmafs3.collectMetadataIdxRecords rootLba

/-! ### When the checker survives -/

instance finite_uint64 : Finite UInt64 := Finite.of_injective UInt64.toFin fun _ _ ↦ UInt64.toFin_inj.mp

namespace TreeWalk

variable {img : Image} {sb : Superblock} {w : TreeWalk}

variable {buf : List UInt8} {lba : UInt64}

theorem copyOut_eq_none {off len : ℕ} : copyOut buf off len = none ↔ ¬off + len ≤ buf.length := by
  unfold copyOut
  split_ifs with hfits
  · exact iff_of_false nofun (not_not.mpr hfits)
  · exact iff_of_true rfl hfits

theorem mapM_eq_none {α β : Type} {f : α → Option β} {xs : List α} :
    xs.mapM f = none ↔ ∃ x ∈ xs, f x = none := by
  induction xs with
  | nil => exact iff_of_false nofun fun h ↦ h.elim fun x hx ↦ absurd hx.1 List.not_mem_nil
  | cons x xs ih =>
    simp only [List.mapM_cons, List.mem_cons, exists_eq_or_imp, ← ih]
    cases f x with
    | none => exact iff_of_true rfl (Or.inl rfl)
    | some b =>
      cases xs.mapM f with
      | none => exact iff_of_true rfl (Or.inr rfl)
      | some bs => exact iff_of_false nofun fun h ↦ h.elim nofun nofun

/-- The loop goes over the end of the buffer if and only if some entry does. -/
theorem copyEntries_eq_none {size off len : ℕ} :
    copyEntries buf (number (fieldBytes buf 34 2)) size off len = none ↔
      ¬EntriesFit buf size off len := by
  rw [copyEntries, mapM_eq_none, EntriesFit]
  push Not
  simp only [List.mem_range, copyOut_eq_none, Nat.not_le]

theorem children_eq_none (w : TreeWalk) (buf : List UInt8) :
    w.children buf (number (fieldBytes buf 34 2)) = none ↔
      ¬if w.wholeEntry then EntriesFit buf w.indexEntrySize 0 w.indexEntrySize
        else EntriesFit buf w.indexEntrySize w.childLbaOff 8 := by
  unfold children
  split_ifs
  · rw [Option.map_eq_none_iff, copyEntries_eq_none]
  · rw [Option.map_eq_none_iff, copyEntries_eq_none]

theorem records_eq_none (w : TreeWalk) (buf : List UInt8) :
    w.records buf (number (fieldBytes buf 34 2)) = none ↔
      ¬∀ scan, w.leaf = some scan → EntriesFit buf scan.recordSize 0 scan.recordSize := by
  unfold records
  cases w.leaf with
  | none => exact iff_of_false nofun (not_not.mpr nofun)
  | some scan => simp only [Option.map_eq_none_iff, copyEntries_eq_none, Option.some.injEq, forall_eq']

/-- A visit of a node that can be read, with the fields of the header as they stand in the node. -/
theorem visit_of_nodeRead (hread : w.nodeRead img sb lba = some buf)
    (hlong : btreeNodeHeaderSize ≤ buf.length) :
    w.visit img sb lba =
      if number (fieldBytes buf 0 8) ≠ btreeNodeMagic then .fail .badMagic
      else if 0 < number (fieldBytes buf 9 1) then
        (w.children buf (number (fieldBytes buf 34 2))).elim .overrun (.node (w.atNode lba))
      else
        (w.records buf (number (fieldBytes buf 34 2))).elim .overrun
          fun found ↦ .node (w.atNode lba ++ found) [] := by
  have hheader (off width : ℕ) (hinside : off + width ≤ btreeNodeHeaderSize) :
      fieldBytes (fieldBytes buf 0 btreeNodeHeaderSize) off width = fieldBytes buf off width :=
    fieldBytes_take hinside
  unfold visit copyOut
  simp only [hread, Nat.zero_add, if_pos hlong]
  rw [hheader 0 8 (by decide), hheader 9 1 (by decide), hheader 34 2 (by decide)]
  cases w.children buf (number (fieldBytes buf 34 2)) <;>
    cases w.records buf (number (fieldBytes buf 34 2)) <;> rfl

theorem elim_ne_overrun {γ : Type} {o : Option γ} {found : γ → List Found}
    {lbas : γ → List UInt64} :
    (o.elim Visit.overrun fun a ↦ Visit.node (found a) (lbas a)) ≠
      (Visit.overrun : Visit UInt64 Found WalkError) ↔ o ≠ none := by
  cases o with
  | none => exact iff_of_false (not_not.mpr rfl) (not_not.mpr rfl)
  | some a => exact iff_of_true nofun nofun

/-- A visit reads behind the end of the node if and only if something does not lie inside. -/
theorem inside_iff_visit : w.Inside img sb lba ↔ w.visit img sb lba ≠ .overrun := by
  unfold Inside
  cases hread : w.nodeRead img sb lba with
  | none =>
    refine iff_of_true nofun ?_
    unfold visit
    simp only [hread]
    exact nofun
  | some buf =>
    simp only [Option.some.injEq, forall_eq']
    rcases Nat.lt_or_ge buf.length btreeNodeHeaderSize with hshort | hlong
    · have hnone : copyOut buf 0 btreeNodeHeaderSize = none := copyOut_eq_none.mpr (by omega)
      refine iff_of_false (fun h ↦ absurd h.1 (Nat.not_le.mpr hshort)) (not_not.mpr ?_)
      unfold visit
      simp only [hread, hnone]
    · rw [visit_of_nodeRead hread hlong, and_iff_right hlong]
      by_cases hmagic : number (fieldBytes buf 0 8) = btreeNodeMagic
      · rw [if_neg (not_not.mpr hmagic), forall_prop_of_true hmagic]
        by_cases hlevel : 0 < number (fieldBytes buf 9 1)
        · rw [if_pos hlevel, if_pos hlevel]
          have hfit := (not_iff_comm.mp (children_eq_none w buf).symm).symm
          exact hfit.trans elim_ne_overrun.symm
        · rw [if_neg hlevel, if_neg hlevel]
          have hfit := (not_iff_comm.mp (records_eq_none w buf).symm).symm
          exact hfit.trans elim_ne_overrun.symm
      · rw [if_pos hmagic]
        exact iff_of_true (fun h ↦ absurd h hmagic) nofun

/-- A walk survives if and only if no node that it comes to is read behind its end or lies on a cycle
of the walk. -/
theorem survives_iff_inside : w.Survives img sb ↔ (w.skipsZero ∧ w.rootLba = 0) ∨
    ∀ lba, w.ComesTo img sb lba → w.Inside img sb lba ∧ ¬w.OnCycle img sb lba := by
  have hwalk : Library.NodeWalk.Survives (w.visit img sb) w.rootLba ↔
      ∀ lba, w.ComesTo img sb lba → w.Inside img sb lba ∧ ¬w.OnCycle img sb lba := by
    simp only [survives_iff, inside_iff_visit]
    rfl
  rw [← hwalk]
  unfold Survives run Library.NodeWalk.Survives
  split_ifs with hnone
  · exact iff_of_true ⟨0, .done [], rfl, nofun⟩ (Or.inl hnone)
  · rw [or_iff_right hnone]

/-- The children of an index node. -/
theorem visit_index {lbas : List UInt64} (hread : w.nodeRead img sb lba = some buf)
    (hlong : btreeNodeHeaderSize ≤ buf.length)
    (hmagic : number (fieldBytes buf 0 8) = btreeNodeMagic)
    (hlevel : 0 < number (fieldBytes buf 9 1))
    (hchildren : w.children buf (number (fieldBytes buf 34 2)) = some lbas) :
    w.visit img sb lba = .node (w.atNode lba) lbas := by
  rw [visit_of_nodeRead hread hlong, if_neg (not_not.mpr hmagic), if_pos hlevel, hchildren,
    Option.elim_some]

/-- A node that is its own only child. -/
theorem onCycle_of_visit {found : List Found} (hvisit : w.visit img sb lba = .node found [lba]) :
    w.OnCycle img sb lba :=
  .single ⟨found, [], [], hvisit, nofun⟩

end TreeWalk

/-- Every walk of the checker, on every volume. -/
theorem FsckWalk.walk_survives_iff (img : Image) (sb : Superblock) (call : FsckWalk) :
    call.walk.Survives img sb ↔ (call.walk.skipsZero ∧ call.walk.rootLba = 0) ∨
      ∀ lba, call.walk.ComesTo img sb lba →
        call.walk.Inside img sb lba ∧ ¬call.walk.OnCycle img sb lba :=
  TreeWalk.survives_iff_inside

/-! ### A tree whose root is its own child -/

/-- The root that `obmafs3_btree_header_read_lenient` leaves in a header of zeros. The header is
copied before its magic number is looked at. -/
def headerRoot (img : Image) (sb : Superblock) (lba : ℕ) : UInt64 :=
  match readBlock img sb lba with
  | .error _ => 0
  | .ok buf => u64At buf 12

namespace LoopVolume

/-- The fields of a volume of three blocks of 4096 bytes: of the superblock, of the header of both
trees at LBA 1 and of their root at LBA 2, which is an index node with one entry. -/
def fields : List (ℕ × List UInt8) :=
  [(0, bytesOf 8 sbMagic), (24, bytesOf 8 4096), (32, bytesOf 8 65536), (40, bytesOf 8 12288),
    (48, bytesOf 8 1), (56, bytesOf 8 1), (4096, bytesOf 8 btreeHdrMagic), (4108, bytesOf 8 2),
    (8192, bytesOf 8 btreeNodeMagic), (8201, bytesOf 1 1), (8226, bytesOf 2 1),
    (8526, bytesOf 8 2)]

def image : Image := (Image.zeros 12288).writeAll fields

theorem ascending_fields : Image.Ascending fields := by
  have hplaces : (fields.map fun w ↦ (w.1, w.2.length)).Pairwise fun v w ↦ v.1 + v.2 ≤ w.1 := by
    decide
  exact List.pairwise_map.mp hplaces

theorem number_image (off width n : ℕ) (hmem : (off, bytesOf width n) ∈ fields) :
    number (image.bytesAt off width) = n % 256 ^ width := by
  have hwritten := Image.bytesAt_writeAll (Image.zeros 12288) ascending_fields hmem
  rw [length_bytesOf] at hwritten
  rw [image, hwritten, number_bytesOf]

theorem size_image : image.size = 12288 :=
  Image.size_writeAll (by decide)

/-- A block of the volume. -/
theorem pread_image {lba : ℕ} (hlba : lba < 3) :
    image.pread (lba * 4096) 4096 = some (image.bytesAt (lba * 4096) 4096) :=
  Image.pread_eq_some.mpr ⟨by rw [size_image]; omega, rfl⟩

variable {sb : Superblock}

section

variable (hread : sbReadAt image 0 = some sb)
include hread

theorem field_sb (off width n : ℕ) (hmem : (off, bytesOf width n) ∈ fields)
    (hinside : off + width ≤ sbSize) : sb.field off width = n % 256 ^ width := by
  have hbytes := (Image.pread_eq_some.mp (sbReadAt_eq_some.mp hread)).2
  rw [Superblock.field, ← hbytes, Image.fieldBytes_bytesAt hinside, Nat.zero_add,
    number_image off width n hmem]

theorem blockSize_sb : sb.blockSize = 4096 :=
  field_sb hread 24 8 4096 (by simp [fields]) (by decide)

theorem valid_sb : sb.Valid := by
  refine Superblock.valid_iff.mpr ⟨?_, ?_, ?_, ?_, ?_, ?_⟩
  · exact field_sb hread 0 8 sbMagic (by simp [fields]) (by decide)
  · exact ne_of_eq_of_ne (blockSize_sb hread) (by decide)
  · exact ne_of_eq_of_ne (field_sb hread 32 8 65536 (by simp [fields]) (by decide)) (by decide)
  · exact ne_of_eq_of_ne (field_sb hread 40 8 12288 (by simp [fields]) (by decide)) (by decide)
  · exact ne_of_eq_of_ne (field_sb hread 48 8 1 (by simp [fields]) (by decide)) (by decide)
  · exact ne_of_eq_of_ne (field_sb hread 56 8 1 (by simp [fields]) (by decide)) (by decide)

end

/-- A number in a block. -/
theorem number_block (lba off width n : ℕ) (hmem : (lba * 4096 + off, bytesOf width n) ∈ fields)
    (hinside : off + width ≤ 4096) :
    number (fieldBytes (image.bytesAt (lba * 4096) 4096) off width) = n % 256 ^ width := by
  rw [Image.fieldBytes_bytesAt hinside, number_image _ _ n hmem]

theorem headerRoot_image (hread : sbReadAt image 0 = some sb) : headerRoot image sb 1 = 2 := by
  have hblock : readBlock image sb 1 = .ok (image.bytesAt (1 * 4096) 4096) := by
    unfold readBlock
    rw [blockSize_sb hread, if_neg (by decide), show 1 * 4096 % 2 ^ 64 = 1 * 4096 by decide,
      pread_image (by decide)]
  unfold headerRoot
  rw [hblock]
  exact congrArg UInt64.ofNat (number_block 1 12 8 2 (by simp [fields]) (by decide))

theorem nodeRead_root (hread : sbReadAt image 0 = some sb) :
    (collectCatalogRefs 2).nodeRead image sb 2 = some (image.bytesAt (2 * 4096) 4096) := by
  have hsize : (collectCatalogRefs 2).nodeSize sb = 4096 := by
    unfold TreeWalk.nodeSize
    rw [blockSize_sb hread]
    rfl
  have hoffset : (2 : UInt64).toNat * 4096 % 2 ^ 64 = 2 * 4096 := by decide
  unfold TreeWalk.nodeRead
  rw [hsize, blockSize_sb hread, hoffset, if_neg (by decide), if_neg (by decide)]
  exact pread_image (by decide)

/-- The one entry of the root. -/
theorem children_root :
    (collectCatalogRefs 2).children (image.bytesAt (2 * 4096) 4096) 1 = some [2] := by
  have hentry : fieldBytes (fieldBytes (image.bytesAt (2 * 4096) 4096) 70 272) 264 8 =
      fieldBytes (image.bytesAt (2 * 4096) 4096) 334 8 := by
    rw [Image.fieldBytes_bytesAt (by decide), Image.fieldBytes_bytesAt (by decide),
      Image.fieldBytes_bytesAt (by decide)]
  have hcopy : TreeWalk.copyEntries (image.bytesAt (2 * 4096) 4096) 1 272 0 272 =
      some [fieldBytes (image.bytesAt (2 * 4096) 4096) 70 272] := by
    have hone : TreeWalk.copyOut (image.bytesAt (2 * 4096) 4096) 70 272 =
        some (fieldBytes (image.bytesAt (2 * 4096) 4096) 70 272) :=
      if_pos (by rw [Image.length_bytesAt]; decide)
    unfold TreeWalk.copyEntries
    exact congrArg (fun one ↦ one >>= fun entry ↦ some [entry]) hone
  have hwhole : (collectCatalogRefs 2).wholeEntry = true := rfl
  unfold TreeWalk.children
  rw [if_pos hwhole]
  refine (congrArg (Option.map _) hcopy).trans ?_
  rw [Option.map_some, List.map_singleton]
  refine congrArg (fun child ↦ some [child]) ?_
  refine congrArg UInt64.ofNat ((congrArg number hentry).trans ?_)
  exact number_block 2 334 8 2 (by simp [fields]) (by decide)

theorem visit_root (hread : sbReadAt image 0 = some sb) :
    (collectCatalogRefs 2).visit image sb 2 = .node [] [2] := by
  refine TreeWalk.visit_index (nodeRead_root hread) ?_ ?_ ?_ ?_
  · rw [Image.length_bytesAt]
    decide
  · exact number_block 2 0 8 btreeNodeMagic (by simp [fields]) (by decide)
  · rw [number_block 2 9 1 1 (by simp [fields]) (by decide)]
    decide
  · rw [number_block 2 34 2 1 (by simp [fields]) (by decide)]
    exact children_root

end LoopVolume

/-- The superblock is accepted, and the walk from the root in the header of the catalog does not
end. -/
theorem FsckWalk.loopVolume_not_survives : ∃ sb, sbReadAt LoopVolume.image 0 = some sb ∧
    sb.Valid ∧ headerRoot LoopVolume.image sb sb.catalogLba = 2 ∧
    ¬(FsckWalk.collectCatalogRefs 2).walk.Survives LoopVolume.image sb := by
  have hlong : 0 + sbSize ≤ LoopVolume.image.size := by
    rw [LoopVolume.size_image]
    decide
  obtain ⟨sb, hread, -⟩ := exists_sbReadAt hlong
  have hcatalog : sb.catalogLba = 1 :=
    LoopVolume.field_sb hread 48 8 1 (by simp [LoopVolume.fields]) (by decide)
  refine ⟨sb, hread, LoopVolume.valid_sb hread, ?_, fun hsurvives ↦ ?_⟩
  · rw [hcatalog]
    exact LoopVolume.headerRoot_image hread
  · have hcycle : (Obmafs3.collectCatalogRefs 2).OnCycle LoopVolume.image sb 2 :=
      TreeWalk.onCycle_of_visit (LoopVolume.visit_root hread)
    rcases TreeWalk.survives_iff_inside.mp hsurvives with hnone | hall
    · exact absurd hnone.2 (by decide)
    · exact (hall 2 .refl).2 hcycle

end Obmafs3
