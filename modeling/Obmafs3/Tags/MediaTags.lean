import Obmafs3.Btree
import Obmafs3.Library.SearchTreeKeep

/-!
# Media tags

A media image has tags, one for each type. A tag of at most 512 bytes lies in its record, a longer
one in a run of blocks of its own that the record names. Setting a tag releases the run of the tag
that it replaces, takes a run for the new bytes and rewrites the record, in this order: when the
new run is refused the record still names the blocks that are free already.

A setting that is refused leaves the old tag whole exactly when the old tag lies in its record, or
the new one does or finds its run, in a tree of at most eight index levels.
-/

set_option autoImplicit false

namespace Obmafs3

open Library.SearchTree

/-! ### Records -/

/-- `MEDIA_TAG_INLINE_MAX`. -/
def mediaTagInlineMax : ℕ := 512

/-- `MEDIA_TAG_BTREE_MAX_DEPTH`. -/
def mediaTagBtreeMaxDepth : ℕ := 8

/-- `struct media_tag_record`. `inlined` is the one flag that there is. -/
structure MediaTagRecord where
  inodeId : ℕ
  tagType : ℕ
  dataLength : ℕ
  inlined : Bool
  dataLba : ℕ
  dataBlocks : ℕ
  inlineData : List ℕ

abbrev MediaTagKey := ℕ ×ₗ ℕ

/-- The order of `media_tag_key_cmp`. -/
def MediaTagRecord.order (r : MediaTagRecord) : MediaTagKey := toLex (r.inodeId, r.tagType)

/-- The blocks of a tag that does not lie in its record. -/
def MediaTagRecord.owns (r : MediaTagRecord) (lba : ℕ) : Bool :=
  !r.inlined && decide (r.dataLba ≤ lba ∧ lba < r.dataLba + r.dataBlocks)

abbrev MediaTagTree := Root ℕ MediaTagKey MediaTagRecord

/-- `media_tag_leaf_max_keys`. -/
def mediaTagLeafMaxKeys (blockSize : ℕ) : ℕ := maxKeys blockSize 543

/-- `media_tag_index_max_keys`. -/
def mediaTagIndexMaxKeys (blockSize : ℕ) : ℕ := maxKeys blockSize 18

/-- What a mounted volume knows of its media tags. `mediaTagLba` is zero on a volume without a tree
for them. -/
structure MediaTags where
  mediaTagLba : ℕ
  vol : Volume
  tree : MediaTagTree

/-- `media_tag_tree_lookup`. -/
def mediaTagTreeLookup (inodeId tagType : ℕ) (s : MediaTags) : Option MediaTagRecord :=
  s.tree.lookup MediaTagRecord.order (toLex (inodeId, tagType))

/-! ### The blocks of a tag -/

/-- `media_tag_free_external`. -/
def mediaTagFreeExternal (r : MediaTagRecord) (vol : Volume) : Volume :=
  if r.inlined = false ∧ r.dataLba ≠ 0 ∧ r.dataBlocks ≠ 0 then
    vol.freeBlocks r.dataLba r.dataBlocks
  else vol

/-- The number of blocks for the bytes of a tag. -/
def tagBlocks (blockSize length : ℕ) : ℕ := (length + blockSize - 1) / blockSize

/-- A block with the first of the bytes, and zeros behind the last one. -/
def paddedBlock (blockSize : ℕ) (data : List ℕ) : List ℕ :=
  data.take blockSize ++ List.replicate (blockSize - data.length) 0

/-- The loop of `media_tag_write_external`. -/
def writeTagBlocks : (blocks lba : ℕ) → List ℕ → Volume → Bool × Volume
  | 0, _, _, vol => (true, vol)
  | blocks + 1, lba, data, vol =>
    match vol.blockWrite lba (.bytes (paddedBlock vol.blockSize data)) with
    | none => (false, vol)
    | some vol => writeTagBlocks blocks (lba + 1) (data.drop vol.blockSize) vol

/-- `media_tag_write_external`. -/
def mediaTagWriteExternal (data : List ℕ) (vol : Volume) : Except ErrorCode (ℕ × ℕ) × Volume :=
  let blocks := tagBlocks vol.blockSize data.length
  match vol.allocBlocks blocks with
  | none => (.error .noSpc, vol)
  | some (lba, vol) =>
    match writeTagBlocks blocks lba data vol with
    | (true, vol) => (.ok (lba, blocks), vol)
    | (false, vol) => (.error .io, vol.freeBlocks lba blocks)

/-- `media_tag_build_record`. -/
def mediaTagBuildRecord (inodeId tagType : ℕ) (data : List ℕ) (vol : Volume) :
    Except ErrorCode MediaTagRecord × Volume :=
  if data.length ≤ mediaTagInlineMax then
    (.ok ⟨inodeId, tagType, data.length, true, 0, 0,
      data ++ List.replicate (mediaTagInlineMax - data.length) 0⟩, vol)
  else
    match mediaTagWriteExternal data vol with
    | (.error e, vol) => (.error e, vol)
    | (.ok (lba, blocks), vol) =>
      (.ok ⟨inodeId, tagType, data.length, false, lba, blocks,
        List.replicate mediaTagInlineMax 0⟩, vol)

/-- The loop of `obmafs3_media_tag_get`. The bytes behind the last block, where there are any, are
those of a fresh buffer. -/
def readTagBlocks (vol : Volume) : (blocks lba remaining : ℕ) → Except ErrorCode (List ℕ)
  | 0, _, remaining => if remaining = 0 then .ok [] else .error .corrupt
  | blocks + 1, lba, remaining =>
    if remaining = 0 then .ok []
    else
      match vol.blockRead lba with
      | none => .error .io
      | some (.bytes data) =>
        (readTagBlocks vol blocks (lba + 1) (remaining - vol.blockSize)).map
          (data.take (min remaining vol.blockSize) ++ ·)
      | some _ => .error .corrupt

/-- The bytes of a tag that was found. -/
def mediaTagRead (vol : Volume) (r : MediaTagRecord) : Except ErrorCode (List ℕ) :=
  if r.inlined then .ok (r.inlineData.take r.dataLength)
  else readTagBlocks vol r.dataBlocks r.dataLba r.dataLength

/-! ### Calls -/

/-- `obmafs3_media_tag_get`. -/
def mediaTagGet (inodeId tagType : ℕ) (s : MediaTags) : Except ErrorCode (List ℕ) :=
  if s.mediaTagLba = 0 then .error .notFound
  else
    match mediaTagTreeLookup inodeId tagType s with
    | none => .error .notFound
    | some r => mediaTagRead s.vol r

/-- `media_tag_tree_put`, with what the allocator answers for the division of a node of each level.
The blocks that become nodes change with the other blocks of the volume. -/
def mediaTagTreePut (blockSize : ℕ) (fresh : ℕ → Option ℕ) (r : MediaTagRecord)
    (tree : MediaTagTree) : Option ErrorCode × MediaTagTree :=
  if mediaTagBtreeMaxDepth < tree.height then (some .inval, tree)
  else
    match tree.put MediaTagRecord.order (mediaTagLeafMaxKeys blockSize)
        (mediaTagIndexMaxKeys blockSize) fresh r with
    | (tree, true) => (none, tree)
    | (tree, false) => (some .noSpc, tree)

/-- `obmafs3_media_tag_put`. -/
def mediaTagPut (inodeId tagType : ℕ) (data : List ℕ) (fresh : ℕ → Option ℕ) (s : MediaTags) :
    Option ErrorCode × MediaTags :=
  if s.mediaTagLba = 0 then (some .inval, s)
  else
    let vol :=
      match mediaTagTreeLookup inodeId tagType s with
      | some old => mediaTagFreeExternal old s.vol
      | none => s.vol
    match mediaTagBuildRecord inodeId tagType data vol with
    | (.error e, vol) => (some e, { s with vol })
    | (.ok r, vol) =>
      let (e, tree) := mediaTagTreePut s.vol.blockSize fresh r s.tree
      (e, { s with vol, tree })

/-- `media_tag_tree_delete`. -/
def mediaTagTreeDelete (inodeId tagType : ℕ) (s : MediaTags) : Option ErrorCode × MediaTags :=
  if mediaTagBtreeMaxDepth < s.tree.height then (some .inval, s)
  else
    match mediaTagTreeLookup inodeId tagType s with
    | none => (some .notFound, s)
    | some r =>
      (none,
        { s with
          vol := mediaTagFreeExternal r s.vol
          tree := (s.tree.delete MediaTagRecord.order (toLex (inodeId, tagType))).1 })

/-- `obmafs3_media_tag_delete`. -/
def mediaTagDelete (inodeId tagType : ℕ) (s : MediaTags) : Option ErrorCode × MediaTags :=
  if s.mediaTagLba = 0 then (some .notFound, s) else mediaTagTreeDelete inodeId tagType s

/-- A call, or what everything else does to the blocks of the volume between two calls, the nodes of
the tree included. -/
inductive TagEvent
  | put (inodeId tagType : ℕ) (data : List ℕ) (fresh : ℕ → Option ℕ)
  | delete (inodeId tagType : ℕ)
  | others (vol : Volume)

def MediaTags.step (s : MediaTags) : TagEvent → MediaTags
  | .put inodeId tagType data fresh => (mediaTagPut inodeId tagType data fresh s).2
  | .delete inodeId tagType => (mediaTagDelete inodeId tagType s).2
  | .others vol => { s with vol }

def MediaTags.run (s : MediaTags) (events : List TagEvent) : MediaTags :=
  events.foldl MediaTags.step s

/-! ### Tags that are replaced at one stroke -/

/-- The tag is as it was: searches find its record, it reads the same, and its blocks are allocated
and no other record names them. -/
def TagKept (inodeId tagType : ℕ) (old : MediaTagRecord) (s s' : MediaTags) : Prop :=
  mediaTagTreeLookup inodeId tagType s' = some old ∧
    (∃ data, mediaTagGet inodeId tagType s = .ok data ∧
      mediaTagGet inodeId tagType s' = .ok data) ∧
    ∀ lba, old.owns lba → s'.vol.bitmap lba = true ∧ s'.tree.records.countP (·.owns lba) = 1

/-- The tag reads as the new bytes. The blocks of the old one were released once, those of the new
one were free then and are allocated to it alone, and no other block changed hands. -/
def TagReplaced (inodeId tagType : ℕ) (old : MediaTagRecord) (data : List ℕ) (s s' : MediaTags) :
    Prop :=
  mediaTagGet inodeId tagType s' = .ok data ∧
    ∃ new, mediaTagTreeLookup inodeId tagType s' = some new ∧
      (∀ lba, new.owns lba → (s.vol.bitmap lba = false ∨ old.owns lba) ∧
        s'.tree.records.countP (·.owns lba) = 1) ∧
      ∀ lba, s'.vol.bitmap lba = (new.owns lba || s.vol.bitmap lba && !old.owns lba)

/-- Setting a tag that is there either changes it as a whole or leaves it as it was. -/
def PutAtomic (inodeId tagType : ℕ) (old : MediaTagRecord) (data : List ℕ) (fresh : ℕ → Option ℕ)
    (s : MediaTags) : Prop :=
  match mediaTagPut inodeId tagType data fresh s with
  | (some _, s') => TagKept inodeId tagType old s s'
  | (none, s') => TagReplaced inodeId tagType old data s s'

/-- The old tag lies in its record, or the new one cannot be refused: the tree is not too deep, and
the new bytes lie in the record or the allocator has a run for them once the old one is free. -/
def Replaceable (old : MediaTagRecord) (data : List ℕ) (s : MediaTags) : Prop :=
  old.inlined = true ∨ s.tree.height ≤ mediaTagBtreeMaxDepth ∧ (data.length ≤ mediaTagInlineMax ∨
        (mediaTagFreeExternal old s.vol).bitmapFindFree
          (tagBlocks s.vol.blockSize data.length) ≠ none)

/-- Everything else leaves the blocks of the tags and the superblock alone. -/
def LeavesTags (s : MediaTags) (vol : Volume) : Prop :=
  vol.blockSize = s.vol.blockSize ∧ vol.totalBytes = s.vol.totalBytes ∧
    vol.bitmap 0 = s.vol.bitmap 0 ∧
    ∀ r ∈ s.tree.records, ∀ lba, r.owns lba →
      vol.bitmap lba = s.vol.bitmap lba ∧ vol.disk lba = s.vol.disk lba

/-- A tag that is set over another can be, no index node below the root loses its last leaf, and
everything else keeps to its own blocks. -/
def TagEvent.Careful (s : MediaTags) : TagEvent → Prop
  | .put inodeId tagType data _ =>
    ∀ old, mediaTagTreeLookup inodeId tagType s = some old → Replaceable old data s
  | .delete inodeId tagType => s.tree.Unstranded MediaTagRecord.order (toLex (inodeId, tagType))
  | .others vol => LeavesTags s vol

def CarefulTags (s : MediaTags) : List TagEvent → Prop
  | [] => True
  | event :: events => event.Careful s ∧ CarefulTags (s.step event) events

/-- A volume with a tree for tags and none in it. -/
structure MediaTags.Fresh (s : MediaTags) : Prop where
  mediaTagLba_ne : s.mediaTagLba ≠ 0
  blockSize_ge : 4096 ≤ s.vol.blockSize
  superblock : s.vol.bitmap 0 = true
  tree_eq : s.tree = .empty

/-! ### Blocks that are written and read back -/

section Blocks

variable {vol vol' : Volume} {r : MediaTagRecord}

theorem owns_iff {lba : ℕ} :
    r.owns lba = true ↔ r.inlined = false ∧ r.dataLba ≤ lba ∧ lba < r.dataLba + r.dataBlocks := by
  simp [MediaTagRecord.owns]

theorem readTagBlocks_congr (hsize : vol'.blockSize = vol.blockSize)
    (htotal : vol'.totalBytes = vol.totalBytes) {blocks lba remaining : ℕ}
    (hdisk : ∀ i, lba ≤ i → i < lba + blocks → vol'.disk i = vol.disk i) :
    readTagBlocks vol' blocks lba remaining = readTagBlocks vol blocks lba remaining := by
  induction blocks generalizing lba remaining with
  | zero => rfl
  | succ blocks ih =>
    have hread : vol'.blockRead lba = vol.blockRead lba := by
      have hblocks : vol'.totalBlocks = vol.totalBlocks := by
        rw [Volume.totalBlocks, Volume.totalBlocks, hsize, htotal]
      rw [Volume.blockRead, Volume.blockRead, hdisk lba le_rfl (by omega), hblocks]
    rw [readTagBlocks, readTagBlocks, hread, hsize, ih fun i hi hlt ↦ hdisk i (by omega) (by omega)]

theorem paddedBlock_take (blockSize : ℕ) (data : List ℕ) :
    (paddedBlock blockSize data).take (min data.length blockSize) = data.take blockSize := by
  have hlength : (data.take blockSize).length = min data.length blockSize := by
    rw [List.length_take, Nat.min_comm]
  rw [paddedBlock, ← hlength, List.take_left]

/-- Bytes that fit in a run inside the volume are written, and read back from it. -/
theorem writeTagBlocks_spec {blocks lba : ℕ} {data : List ℕ}
    (hinside : lba + blocks ≤ vol.totalBlocks) (hfits : data.length ≤ blocks * vol.blockSize) :
    ∃ disk, writeTagBlocks blocks lba data vol = (true, { vol with disk }) ∧
      (∀ i, ¬(lba ≤ i ∧ i < lba + blocks) → disk i = vol.disk i) ∧
        readTagBlocks { vol with disk } blocks lba data.length = .ok data := by
  induction blocks generalizing lba data vol with
  | zero =>
    obtain rfl : data = [] := List.length_eq_zero_iff.mp (by simpa using hfits)
    exact ⟨vol.disk, rfl, fun _ _ ↦ rfl, rfl⟩
  | succ blocks ih =>
    obtain ⟨written, hwritten⟩ : ∃ written, written = { vol with
      disk := Function.update vol.disk lba (.bytes (paddedBlock vol.blockSize data)) } := ⟨_, rfl⟩
    have hwrite : vol.blockWrite lba (.bytes (paddedBlock vol.blockSize data)) = some written := by
      rw [Volume.blockWrite, if_pos (by omega), hwritten]
    have hsize : written.blockSize = vol.blockSize := by rw [hwritten]
    have hrest : (data.drop vol.blockSize).length ≤ blocks * vol.blockSize := by
      rw [List.length_drop]
      rw [Nat.succ_mul] at hfits
      omega
    obtain ⟨disk, hrun, houtside, hread⟩ := @ih written (lba + 1) (data.drop vol.blockSize)
      (by rw [hwritten]; exact (by omega : lba + 1 + blocks ≤ vol.totalBlocks)) (by rwa [hsize])
    have hdisk (i : ℕ) (hi : ¬(lba + 1 ≤ i ∧ i < lba + 1 + blocks)) :
        disk i = if i = lba then .bytes (paddedBlock vol.blockSize data) else vol.disk i := by
      rw [houtside i hi, hwritten]
      exact Function.update_apply ..
    have hvol : { written with disk } = { vol with disk } := by rw [hwritten]
    refine ⟨disk, ?_, fun i hi ↦ ?_, ?_⟩
    · rw [writeTagBlocks, hwrite]
      simp only [hsize]
      rw [hrun, hvol]
    · rw [hdisk i (by omega), if_neg (by omega)]
    · have hblock : disk lba = .bytes (paddedBlock vol.blockSize data) := by
        rw [hdisk lba (by omega), if_pos rfl]
      have hin : ({ vol with disk } : Volume).blockRead lba =
          some (.bytes (paddedBlock vol.blockSize data)) := by
        rw [Volume.blockRead, ← hblock]
        exact if_pos (by omega : lba < vol.totalBlocks)
      rw [hvol, List.length_drop] at hread
      rw [readTagBlocks]
      split_ifs with hzero
      · rw [List.length_eq_zero_iff.mp hzero]
      · simp only [hin, hread, Except.map]
        rw [paddedBlock_take, List.take_append_drop]

variable {lba count : ℕ}

variable (hinside : lba + count ≤ vol.totalBlocks)
include hinside

theorem bitmapSet_run (i : ℕ) :
    (vol.bitmapSet lba count).bitmap i = (decide (lba ≤ i ∧ i < lba + count) || vol.bitmap i) := by
  by_cases hi : lba ≤ i ∧ i < lba + count
  · have hbyte : i / 8 < (vol.totalBlocks + 7) / 8 := by omega
    simp [Volume.bitmapSet, hi, hbyte]
  · have hnot : ¬(lba ≤ i ∧ i < lba + count ∧ i / 8 < (vol.totalBlocks + 7) / 8) := fun h ↦
      hi ⟨h.1, h.2.1⟩
    rw [decide_eq_false hi, Bool.false_or]
    exact if_neg hnot

theorem bitmapClear_run (i : ℕ) :
    (vol.bitmapClear lba count).bitmap i =
      (vol.bitmap i && !decide (lba ≤ i ∧ i < lba + count)) := by
  by_cases hi : lba ≤ i ∧ i < lba + count
  · have hbyte : i / 8 < (vol.totalBlocks + 7) / 8 := by omega
    simp [Volume.bitmapClear, hi, hbyte]
  · have hnot : ¬(lba ≤ i ∧ i < lba + count ∧ i / 8 < (vol.totalBlocks + 7) / 8) := fun h ↦
      hi ⟨h.1, h.2.1⟩
    rw [decide_eq_false hi, Bool.not_false, Bool.and_true]
    exact if_neg hnot

end Blocks

/-! ### Tags that hold their blocks -/

/-- A tag whose blocks are inside the volume, allocated, and can be read. -/
structure TagHeld (vol : Volume) (r : MediaTagRecord) : Prop where
  external : r.inlined = false → r.dataLba ≠ 0 ∧ r.dataBlocks ≠ 0 ∧
    r.dataLba + r.dataBlocks ≤ vol.totalBlocks
  readable : ∃ data, mediaTagRead vol r = .ok data
  allocated : ∀ lba, r.owns lba → vol.bitmap lba = true

/-- Tags that hold their blocks, every block one tag at most. -/
structure AllHeld (vol : Volume) (rs : List MediaTagRecord) : Prop where
  blockSize_pos : 0 < vol.blockSize
  superblock : vol.bitmap 0 = true
  sole : ∀ lba, rs.countP (·.owns lba) ≤ 1
  held : ∀ r ∈ rs, TagHeld vol r

section Held

variable {vol vol' : Volume} {r q : MediaTagRecord} {rs rs' : List MediaTagRecord}

theorem mediaTagRead_congr (hsize : vol'.blockSize = vol.blockSize)
    (htotal : vol'.totalBytes = vol.totalBytes)
    (hdisk : ∀ lba, r.owns lba → vol'.disk lba = vol.disk lba) :
    mediaTagRead vol' r = mediaTagRead vol r := by
  unfold mediaTagRead
  split_ifs with hinlined
  · rfl
  · exact readTagBlocks_congr hsize htotal fun i hi hlt ↦
      hdisk i (owns_iff.mpr ⟨by simpa using hinlined, hi, hlt⟩)

theorem TagHeld.frame (hheld : TagHeld vol r) (hsize : vol'.blockSize = vol.blockSize)
    (htotal : vol'.totalBytes = vol.totalBytes)
    (hbitmap : ∀ lba, r.owns lba → vol'.bitmap lba = true)
    (hdisk : ∀ lba, r.owns lba → vol'.disk lba = vol.disk lba) : TagHeld vol' r where
  external := by
    rw [Volume.totalBlocks, hsize, htotal]
    exact hheld.external
  readable := by
    rw [mediaTagRead_congr hsize htotal hdisk]
    exact hheld.readable
  allocated := hbitmap

theorem AllHeld.subperm (hall : AllHeld vol rs) (hsub : rs'.Subperm rs) : AllHeld vol rs' where
  blockSize_pos := hall.blockSize_pos
  superblock := hall.superblock
  sole := fun lba ↦ (hsub.countP_le _).trans (hall.sole lba)
  held := fun r hr ↦ hall.held r (hsub.subset hr)

theorem AllHeld.countP_eq_one (hall : AllHeld vol rs) (hr : r ∈ rs) {lba : ℕ}
    (howns : r.owns lba = true) : rs.countP (·.owns lba) = 1 := by
  have hpos : 0 < rs.countP (·.owns lba) := List.countP_pos_iff.mpr ⟨r, hr, howns⟩
  have := hall.sole lba
  omega

/-- Two of the tags do not share a block. -/
theorem AllHeld.apart (hall : AllHeld vol (r :: rs)) (hq : q ∈ rs) {lba : ℕ}
    (howns : q.owns lba = true) : r.owns lba = false := by
  have hpos : 0 < rs.countP (·.owns lba) := List.countP_pos_iff.mpr ⟨q, hq, howns⟩
  have hsole := hall.sole lba
  rw [List.countP_cons] at hsole
  cases hr : r.owns lba with
  | false => rfl
  | true =>
    rw [hr, if_pos rfl] at hsole
    omega

/-- What the rest of the volume does leaves the tags alone. -/
theorem AllHeld.frame (hall : AllHeld vol rs) (hsize : vol'.blockSize = vol.blockSize)
    (htotal : vol'.totalBytes = vol.totalBytes) (hsuper : vol'.bitmap 0 = vol.bitmap 0)
    (hsame : ∀ r ∈ rs, ∀ lba, r.owns lba →
      vol'.bitmap lba = vol.bitmap lba ∧ vol'.disk lba = vol.disk lba) : AllHeld vol' rs where
  blockSize_pos := hsize ▸ hall.blockSize_pos
  superblock := hsuper.trans hall.superblock
  sole := hall.sole
  held := fun r hr ↦ (hall.held r hr).frame hsize htotal
    (fun lba howns ↦ (hsame r hr lba howns).1.trans ((hall.held r hr).allocated lba howns))
    fun lba howns ↦ (hsame r hr lba howns).2

/-! ### Releasing a run -/

theorem mediaTagFreeExternal_eq (hheld : TagHeld vol r) :
    ∃ bitmap, mediaTagFreeExternal r vol = { vol with bitmap } ∧
      ∀ i, bitmap i = (vol.bitmap i && !r.owns i) := by
  unfold mediaTagFreeExternal
  cases hinlined : r.inlined with
  | true =>
    refine ⟨vol.bitmap, if_neg (by simp), fun i ↦ ?_⟩
    simp [MediaTagRecord.owns, hinlined]
  | false =>
    obtain ⟨hlba, hblocks, hinside⟩ := hheld.external hinlined
    refine ⟨_, if_pos ⟨rfl, hlba, hblocks⟩, fun i ↦ ?_⟩
    refine (bitmapClear_run hinside i).trans ?_
    simp [MediaTagRecord.owns, hinlined]

theorem AllHeld.release (hall : AllHeld vol (r :: rs)) :
    AllHeld (mediaTagFreeExternal r vol) rs := by
  have hheld := hall.held r List.mem_cons_self
  obtain ⟨bitmap, hfree, hbitmap⟩ := mediaTagFreeExternal_eq hheld
  have hrest := hall.subperm List.Subperm.cons_self
  have hzero : r.owns 0 = false := by
    by_contra howns
    obtain ⟨hinlined, hle, -⟩ := owns_iff.mp (by simpa using howns)
    exact (hheld.external hinlined).1 (Nat.le_zero.mp hle)
  rw [hfree]
  refine hrest.frame rfl rfl ?_ fun q hq lba howns ↦ ⟨?_, rfl⟩
  · simp [hbitmap, hzero]
  · simp [hbitmap, hall.apart hq howns]

/-- The tags behind one that was deleted. -/
theorem AllHeld.deleted {tree : MediaTagTree} {k : MediaTagKey} (hall : AllHeld vol tree.records)
    (hfound : tree.lookup MediaTagRecord.order k = some r) :
    AllHeld (mediaTagFreeExternal r vol) (tree.delete MediaTagRecord.order k).1.records := by
  obtain ⟨before, after, hrecords, hrest⟩ := Root.delete_taken hfound
  rw [hrecords] at hall
  rw [hrest]
  exact (hall.subperm List.perm_middle.symm.subperm).release

/-! ### Building a record -/

/-- A record that was built: its run was free, holds the bytes, and is allocated now. -/
structure Built (vol : Volume) (inodeId tagType : ℕ) (data : List ℕ) (r : MediaTagRecord)
    (vol' : Volume) : Prop where
  order_eq : r.order = toLex (inodeId, tagType)
  read_eq : mediaTagRead vol' r = .ok data
  external : r.inlined = false → r.dataLba ≠ 0 ∧ r.dataBlocks ≠ 0 ∧
    r.dataLba + r.dataBlocks ≤ vol.totalBlocks
  free : ∀ lba, r.owns lba → vol.bitmap lba = false
  blockSize_eq : vol'.blockSize = vol.blockSize
  totalBytes_eq : vol'.totalBytes = vol.totalBytes
  bitmap_eq : ∀ lba, vol'.bitmap lba = (r.owns lba || vol.bitmap lba)
  disk_eq : ∀ lba, r.owns lba = false → vol'.disk lba = vol.disk lba

theorem AllHeld.built (hall : AllHeld vol rs) {inodeId tagType : ℕ} {data : List ℕ}
    (hbuilt : Built vol inodeId tagType data r vol') : AllHeld vol' (r :: rs) := by
  have hapart (q) (hq : q ∈ rs) (lba : ℕ) (howns : q.owns lba = true) : r.owns lba = false := by
    by_contra hr
    have hfree := hbuilt.free lba (by simpa using hr)
    rw [(hall.held q hq).allocated lba howns] at hfree
    exact Bool.false_ne_true hfree.symm
  have hrest : AllHeld vol' rs := by
    refine hall.frame hbuilt.blockSize_eq hbuilt.totalBytes_eq ?_ fun q hq lba howns ↦ ?_
    · simp [hbuilt.bitmap_eq, hall.superblock]
    · have hnot := hapart q hq lba howns
      exact ⟨by simp [hbuilt.bitmap_eq, hnot], hbuilt.disk_eq lba hnot⟩
  refine
    { blockSize_pos := hrest.blockSize_pos
      superblock := hrest.superblock
      sole := fun lba ↦ ?_
      held := fun q hq ↦ ?_ }
  · rw [List.countP_cons]
    cases hr : r.owns lba with
    | false => simpa using hall.sole lba
    | true =>
      have hzero : rs.countP (·.owns lba) = 0 := by
        rw [List.countP_eq_zero]
        intro q hq howns
        rw [hapart q hq lba howns] at hr
        exact Bool.false_ne_true hr
      simp [hzero]
  · rcases List.mem_cons.mp hq with rfl | hq
    · refine ⟨?_, ⟨data, hbuilt.read_eq⟩, fun lba howns ↦ by simp [hbuilt.bitmap_eq, howns]⟩
      rw [Volume.totalBlocks, hbuilt.blockSize_eq, hbuilt.totalBytes_eq]
      exact hbuilt.external
    · exact hrest.held q hq

theorem le_tagBlocks_mul {blockSize : ℕ} (hpos : 0 < blockSize) (length : ℕ) :
    length ≤ tagBlocks blockSize length * blockSize := by
  have hdiv := Nat.div_add_mod (length + blockSize - 1) blockSize
  have hmod := Nat.mod_lt (length + blockSize - 1) hpos
  rw [tagBlocks, Nat.mul_comm]
  omega

/-- A record is built unless its bytes want a run and the allocator has none. -/
theorem mediaTagBuildRecord_spec (hsize : 0 < vol.blockSize) (hsuper : vol.bitmap 0 = true)
    (inodeId tagType : ℕ) (data : List ℕ) :
    (mediaTagInlineMax < data.length ∧
        vol.bitmapFindFree (tagBlocks vol.blockSize data.length) = none ∧
        mediaTagBuildRecord inodeId tagType data vol = (.error .noSpc, vol)) ∨
      (data.length ≤ mediaTagInlineMax ∨
          vol.bitmapFindFree (tagBlocks vol.blockSize data.length) ≠ none) ∧
        ∃ r vol', mediaTagBuildRecord inodeId tagType data vol = (.ok r, vol') ∧
          Built vol inodeId tagType data r vol' := by
  unfold mediaTagBuildRecord
  split_ifs with hinline
  · refine Or.inr ⟨Or.inl hinline, _, _, rfl, ?_⟩
    have howns (n : ℕ) : MediaTagRecord.owns ⟨inodeId, tagType, data.length, true, 0, 0,
        data ++ List.replicate (mediaTagInlineMax - data.length) 0⟩ n = false := rfl
    exact
      { order_eq := rfl
        read_eq := by simp [mediaTagRead]
        external := by simp
        free := by simp [howns]
        blockSize_eq := rfl
        totalBytes_eq := rfl
        bitmap_eq := by simp [howns]
        disk_eq := fun _ _ ↦ rfl }
  · have hlong := Nat.lt_of_not_le hinline
    unfold mediaTagWriteExternal
    obtain ⟨blocks, hblocks⟩ : ∃ blocks, tagBlocks vol.blockSize data.length = blocks := ⟨_, rfl⟩
    simp only [hblocks]
    cases halloc : vol.allocBlocks blocks with
    | none => exact Or.inl ⟨hlong, allocBlocks_eq_none halloc, rfl⟩
    | some found =>
      obtain ⟨lba, taken⟩ := found
      obtain ⟨hfind, htaken⟩ := allocBlocks_eq_some halloc
      obtain ⟨hfree, hinside⟩ := Volume.bitmapFindFree_some hfind
      have hsizes : taken.blockSize = vol.blockSize ∧ taken.totalBlocks = vol.totalBlocks ∧
          taken.totalBytes = vol.totalBytes ∧ taken.disk = vol.disk := by
        rw [htaken]
        exact ⟨rfl, rfl, rfl, rfl⟩
      obtain ⟨hblockSize, htotalBlocks, htotalBytes, hdisk⟩ := hsizes
      have hbitmap (n : ℕ) :
          taken.bitmap n = (decide (lba ≤ n ∧ n < lba + blocks) || vol.bitmap n) := by
        rw [htaken]
        exact bitmapSet_run hinside n
      have hfits : data.length ≤ blocks * vol.blockSize := hblocks ▸ le_tagBlocks_mul hsize _
      have hpos : blocks ≠ 0 := by
        rintro rfl
        rw [Nat.zero_mul] at hfits
        omega
      obtain ⟨disk, hrun, houtside, hread⟩ := @writeTagBlocks_spec taken blocks lba data
        (htotalBlocks ▸ hinside) (hblockSize ▸ hfits)
      refine Or.inr ⟨Or.inr (by simp [hfind]), _, _, by simp only [hrun]; rfl, ?_⟩
      have howns (n : ℕ) : MediaTagRecord.owns ⟨inodeId, tagType, data.length, false, lba, blocks,
          List.replicate mediaTagInlineMax 0⟩ n = decide (lba ≤ n ∧ n < lba + blocks) := rfl
      have hlba : lba ≠ 0 := by
        rintro rfl
        have := hfree 0 le_rfl (by omega)
        rw [hsuper] at this
        exact Bool.false_ne_true this.symm
      exact
        { order_eq := rfl
          read_eq := hread
          external := fun _ ↦ ⟨hlba, hpos, hinside⟩
          free := fun n hn ↦ by
            rw [howns, decide_eq_true_eq] at hn
            exact hfree n hn.1 hn.2
          blockSize_eq := hblockSize
          totalBytes_eq := htotalBytes
          bitmap_eq := fun n ↦ by
            rw [howns]
            exact hbitmap n
          disk_eq := fun n hn ↦ by
            rw [howns, decide_eq_false_iff_not] at hn
            exact (houtside n hn).trans (congrFun hdisk n) }

end Held

/-! ### Runs -/

/-- A state of a volume with a tree for tags, all of which hold their blocks. -/
structure MediaTags.Sound (s : MediaTags) : Prop where
  mediaTagLba_ne : s.mediaTagLba ≠ 0
  held : AllHeld s.vol s.tree.records

theorem MediaTags.Fresh.sound {s : MediaTags} (hfresh : s.Fresh) : s.Sound := by
  refine ⟨hfresh.mediaTagLba_ne, ⟨?_, hfresh.superblock, ?_, ?_⟩⟩
  · exact Nat.lt_of_lt_of_le (by decide) hfresh.blockSize_ge
  · simp [hfresh.tree_eq, Root.records]
  · simp [hfresh.tree_eq, Root.records]

section Runs

variable {s : MediaTags} {inodeId tagType : ℕ} {data : List ℕ} {fresh : ℕ → Option ℕ}
  {old : MediaTagRecord}

theorem mediaTagFreeExternal_inlined (hinlined : old.inlined = true) (vol : Volume) :
    mediaTagFreeExternal old vol = vol :=
  if_neg (by simp [hinlined])

/-- The three ways in which setting a tag that is there can end. -/
inductive PutEnds (s : MediaTags) (inodeId tagType : ℕ) (old : MediaTagRecord) (data : List ℕ) :
    Option ErrorCode × MediaTags → Prop
  | noRun (hlong : mediaTagInlineMax < data.length)
      (hfind : (mediaTagFreeExternal old s.vol).bitmapFindFree
        (tagBlocks s.vol.blockSize data.length) = none) :
      PutEnds s inodeId tagType old data
        (some .noSpc, { s with vol := mediaTagFreeExternal old s.vol })
  | tooDeep (r : MediaTagRecord) (vol' : Volume) (hdeep : mediaTagBtreeMaxDepth < s.tree.height)
      (hbuilt : Built (mediaTagFreeExternal old s.vol) inodeId tagType data r vol') :
      PutEnds s inodeId tagType old data (some .inval, { s with vol := vol' })
  | done (r : MediaTagRecord) (vol' : Volume) (tree' : MediaTagTree)
      (hheight : s.tree.height ≤ mediaTagBtreeMaxDepth)
      (hroom : data.length ≤ mediaTagInlineMax ∨
        (mediaTagFreeExternal old s.vol).bitmapFindFree
          (tagBlocks s.vol.blockSize data.length) ≠ none)
      (hbuilt : Built (mediaTagFreeExternal old s.vol) inodeId tagType data r vol')
      (hreplaced : Replaced old r s.tree.records tree'.records)
      (hfound : tree'.lookup MediaTagRecord.order (toLex (inodeId, tagType)) = some r) :
      PutEnds s inodeId tagType old data (none, { s with vol := vol', tree := tree' })

section

variable (hsound : s.Sound) (hold : mediaTagTreeLookup inodeId tagType s = some old)
include hsound hold

theorem MediaTags.Sound.held_of_found : TagHeld s.vol old := by
  refine hsound.held.held old ?_
  obtain ⟨before, after, hrecords, -⟩ := Root.delete_taken hold
  rw [hrecords]
  exact List.mem_append_right _ List.mem_cons_self

theorem mediaTagPut_ends (data : List ℕ) (fresh : ℕ → Option ℕ) :
    PutEnds s inodeId tagType old data (mediaTagPut inodeId tagType data fresh s) := by
  obtain ⟨bitmap, hfree, -⟩ := mediaTagFreeExternal_eq (hsound.held_of_found hold)
  have hsize : (mediaTagFreeExternal old s.vol).blockSize = s.vol.blockSize := by rw [hfree]
  have hsuper : (mediaTagFreeExternal old s.vol).bitmap 0 = true := by
    obtain ⟨before, after, hrecords, -⟩ := Root.delete_taken hold
    have hperm : (old :: (before ++ after)).Subperm s.tree.records := by
      rw [hrecords]
      exact List.perm_middle.symm.subperm
    exact (hsound.held.subperm hperm).release.superblock
  rw [mediaTagPut, if_neg hsound.mediaTagLba_ne, hold]
  dsimp only
  rcases mediaTagBuildRecord_spec (hsize ▸ hsound.held.blockSize_pos) hsuper inodeId tagType data
    with ⟨hlong, hfind, hbuild⟩ | ⟨hroom, r, vol', hbuild, hbuilt⟩
  · rw [hbuild]
    exact .noRun hlong (hsize ▸ hfind)
  · rw [hbuild]
    dsimp only
    unfold mediaTagTreePut
    split_ifs with hdeep
    · exact .tooDeep r vol' hdeep hbuilt
    · have hfound : s.tree.lookup MediaTagRecord.order r.order = some old := by
        rw [hbuilt.order_eq]
        exact hold
      obtain ⟨tree', hput, -, hreplaced, hlookup⟩ := Root.put_replaced
        (mediaTagLeafMaxKeys s.vol.blockSize) (mediaTagIndexMaxKeys s.vol.blockSize) fresh hfound
      rw [hput]
      rw [hbuilt.order_eq] at hlookup
      exact .done r vol' tree' (Nat.le_of_not_lt hdeep) (hsize ▸ hroom) hbuilt hreplaced hlookup

end

/-- The tags behind a tag that was replaced. -/
theorem AllHeld.replaced {vol vol' : Volume} {rs rs' : List MediaTagRecord} {r : MediaTagRecord}
    (hall : AllHeld vol rs) (hreplaced : Replaced old r rs rs')
    (hbuilt : Built (mediaTagFreeExternal old vol) inodeId tagType data r vol') :
    AllHeld vol' rs' := by
  obtain ⟨before, after, rfl, rfl⟩ := hreplaced
  have hout := (hall.subperm List.perm_middle.symm.subperm).release
  exact (hout.built hbuilt).subperm List.perm_middle.subperm

/-- A tag that can be replaced lies in its record if setting it is refused. -/
theorem Replaceable.inlined (hreplaceable : Replaceable old data s)
    (hrefused : mediaTagBtreeMaxDepth < s.tree.height ∨
      mediaTagInlineMax < data.length ∧ (mediaTagFreeExternal old s.vol).bitmapFindFree
          (tagBlocks s.vol.blockSize data.length) = none) : old.inlined = true := by
  rcases hreplaceable with hinlined | ⟨hheight, hroom⟩
  · exact hinlined
  · rcases hrefused with hdeep | ⟨hlong, hfind⟩
    · exact absurd hheight (Nat.not_le.mpr hdeep)
    · rcases hroom with hshort | hroom
      · exact absurd hshort (Nat.not_le.mpr hlong)
      · exact absurd hfind hroom

section

variable (hsound : s.Sound)
include hsound

theorem MediaTags.Sound.put_found (hold : mediaTagTreeLookup inodeId tagType s = some old)
    (hreplaceable : Replaceable old data s) :
    (mediaTagPut inodeId tagType data fresh s).2.Sound := by
  have hends := mediaTagPut_ends hsound hold data fresh
  generalize mediaTagPut inodeId tagType data fresh s = result at hends
  cases hends with
  | noRun hlong hfind =>
    have hinlined := hreplaceable.inlined (.inr ⟨hlong, hfind⟩)
    rw [mediaTagFreeExternal_inlined hinlined]
    exact hsound
  | tooDeep r vol' hdeep hbuilt =>
    have hinlined := hreplaceable.inlined (.inl hdeep)
    rw [mediaTagFreeExternal_inlined hinlined] at hbuilt
    exact ⟨hsound.mediaTagLba_ne, (hsound.held.built hbuilt).subperm List.Subperm.cons_self⟩
  | done r vol' tree' hheight hroom hbuilt hreplaced hfound =>
    exact ⟨hsound.mediaTagLba_ne, hsound.held.replaced hreplaced hbuilt⟩

theorem MediaTags.Sound.put_absent (hnone : mediaTagTreeLookup inodeId tagType s = none) :
    (mediaTagPut inodeId tagType data fresh s).2.Sound := by
  rw [mediaTagPut, if_neg hsound.mediaTagLba_ne, hnone]
  dsimp only
  rcases mediaTagBuildRecord_spec hsound.held.blockSize_pos hsound.held.superblock inodeId tagType
    data with ⟨-, -, hbuild⟩ | ⟨-, r, vol', hbuild, hbuilt⟩
  · rw [hbuild]
    exact hsound
  · rw [hbuild]
    dsimp only
    have hall := hsound.held.built hbuilt
    unfold mediaTagTreePut
    split_ifs with hdeep
    · exact ⟨hsound.mediaTagLba_ne, hall.subperm List.Subperm.cons_self⟩
    · have hnone' : s.tree.lookup MediaTagRecord.order r.order = none := by
        rw [hbuilt.order_eq]
        exact hnone
      have hwithin := Root.put_within (mediaTagLeafMaxKeys s.vol.blockSize)
        (mediaTagIndexMaxKeys s.vol.blockSize) fresh hnone'
      cases hput : s.tree.put MediaTagRecord.order (mediaTagLeafMaxKeys s.vol.blockSize)
          (mediaTagIndexMaxKeys s.vol.blockSize) fresh r with
      | mk tree' done =>
        rw [hput] at hwithin
        cases done <;> exact ⟨hsound.mediaTagLba_ne, hall.subperm hwithin⟩

theorem MediaTags.Sound.delete : (mediaTagDelete inodeId tagType s).2.Sound := by
  rw [mediaTagDelete, if_neg hsound.mediaTagLba_ne, mediaTagTreeDelete]
  split_ifs with hdeep
  · exact hsound
  · cases hold : mediaTagTreeLookup inodeId tagType s with
    | none => exact hsound
    | some r =>
      exact ⟨hsound.mediaTagLba_ne, hsound.held.deleted hold⟩

theorem MediaTags.Sound.step {event : TagEvent} (hcareful : event.Careful s) :
    (s.step event).Sound := by
  cases event with
  | put inodeId tagType data fresh =>
    cases hold : mediaTagTreeLookup inodeId tagType s with
    | none => exact hsound.put_absent hold
    | some old => exact hsound.put_found hold (hcareful old hold)
  | delete inodeId tagType => exact hsound.delete
  | others vol =>
    obtain ⟨hsize, htotal, hsuper, hsame⟩ := hcareful
    exact ⟨hsound.mediaTagLba_ne, hsound.held.frame hsize htotal hsuper hsame⟩

theorem MediaTags.Sound.run {events : List TagEvent} (hcareful : CarefulTags s events) :
    (s.run events).Sound := by
  induction events generalizing s with
  | nil => exact hsound
  | cons event events ih => exact ih (hsound.step hcareful.1) hcareful.2

end

/-! ### Setting a tag that is there -/

variable (hsound : s.Sound) (hold : mediaTagTreeLookup inodeId tagType s = some old)
include hsound hold

theorem MediaTags.Sound.get : mediaTagGet inodeId tagType s = mediaTagRead s.vol old := by
  rw [mediaTagGet, if_neg hsound.mediaTagLba_ne, hold]

theorem MediaTags.Sound.putAtomic (hreplaceable : Replaceable old data s) :
    PutAtomic inodeId tagType old data fresh s := by
  have hends := mediaTagPut_ends hsound hold data fresh
  have hkept {vol' : Volume} (hinlined : old.inlined = true) :
      TagKept inodeId tagType old s { s with vol := vol' } := by
    obtain ⟨bytes, hbytes⟩ := (hsound.held_of_found hold).readable
    refine ⟨hold, ⟨bytes, (hsound.get hold).trans hbytes, ?_⟩, fun lba howns ↦ ?_⟩
    · rw [mediaTagGet, if_neg hsound.mediaTagLba_ne]
      have hfound : mediaTagTreeLookup inodeId tagType { s with vol := vol' } = some old := hold
      rw [hfound, ← hbytes]
      simp only [mediaTagRead, hinlined, if_true]
    · rw [(owns_iff.mp howns).1] at hinlined
      exact absurd hinlined (by simp)
  rw [PutAtomic]
  generalize mediaTagPut inodeId tagType data fresh s = result at hends
  cases hends with
  | noRun hlong hfind => exact hkept (hreplaceable.inlined (.inr ⟨hlong, hfind⟩))
  | tooDeep r vol' hdeep hbuilt => exact hkept (hreplaceable.inlined (.inl hdeep))
  | done r vol' tree' hheight hroom hbuilt hreplaced hfound =>
    obtain ⟨bitmap, hfree, hbitmap⟩ := mediaTagFreeExternal_eq (hsound.held_of_found hold)
    have hall := hsound.held.replaced hreplaced hbuilt
    have hmem : r ∈ tree'.records := by
      obtain ⟨before, after, -, hrecords⟩ := hreplaced
      rw [hrecords]
      exact List.mem_append_right _ List.mem_cons_self
    have hfound' : mediaTagTreeLookup inodeId tagType { s with vol := vol', tree := tree' } =
        some r := hfound
    refine ⟨?_, r, hfound', fun lba howns ↦ ⟨?_, hall.countP_eq_one hmem howns⟩, fun lba ↦ ?_⟩
    · rw [mediaTagGet, if_neg hsound.mediaTagLba_ne, hfound']
      exact hbuilt.read_eq
    · have hnow := hbuilt.free lba howns
      rw [hfree] at hnow
      have hthen := hbitmap lba
      rw [show bitmap lba = false from hnow] at hthen
      cases hb : s.vol.bitmap lba with
      | false => exact Or.inl rfl
      | true => exact Or.inr (by simpa [hb] using hthen)
    · have hnow := hbuilt.bitmap_eq lba
      rw [hfree] at hnow
      exact hnow.trans (congrArg _ (hbitmap lba))

/-- In a tree that is not too deep, nothing else sets a tag at one stroke. -/
theorem MediaTags.Sound.replaceable (hheight : s.tree.height ≤ mediaTagBtreeMaxDepth)
    (hatomic : PutAtomic inodeId tagType old data fresh s) : Replaceable old data s := by
  have hends := mediaTagPut_ends hsound hold data fresh
  rw [PutAtomic] at hatomic
  generalize mediaTagPut inodeId tagType data fresh s = result at hends hatomic
  cases hends with
  | noRun hlong hfind =>
    left
    by_contra hinlined
    have hexternal : old.inlined = false := by simpa using hinlined
    have hheld := hsound.held_of_found hold
    obtain ⟨-, hblocks, -⟩ := hheld.external hexternal
    have howns : old.owns old.dataLba = true := owns_iff.mpr ⟨hexternal, le_rfl, by omega⟩
    obtain ⟨bitmap, hfree, hbitmap⟩ := mediaTagFreeExternal_eq hheld
    have hallocated := (hatomic.2.2 old.dataLba howns).1
    rw [hfree] at hallocated
    have hreleased := hbitmap old.dataLba
    rw [howns, Bool.not_true, Bool.and_false] at hreleased
    exact Bool.false_ne_true (hreleased.symm.trans hallocated)
  | tooDeep r vol' hdeep hbuilt => exact absurd hheight (Nat.not_le.mpr hdeep)
  | done r vol' tree' _ hroom hbuilt hreplaced hfound => exact Or.inr ⟨hheight, hroom⟩

end Runs

/-- After a run in which every tag that was set over another could be, setting a tag that is there
changes it as a whole or leaves it as it was if it is replaceable, and in a tree that is not too
deep only if it is. -/
theorem media_tag_put_atomic {s : MediaTags} (hfresh : s.Fresh) {events : List TagEvent}
    (hcareful : CarefulTags s events) {inodeId tagType : ℕ} {old : MediaTagRecord}
    (hold : mediaTagTreeLookup inodeId tagType (s.run events) = some old) (data : List ℕ)
    (fresh : ℕ → Option ℕ) :
    (Replaceable old data (s.run events) →
        PutAtomic inodeId tagType old data fresh (s.run events)) ∧
      ((s.run events).tree.height ≤ mediaTagBtreeMaxDepth →
        PutAtomic inodeId tagType old data fresh (s.run events) →
          Replaceable old data (s.run events)) := by
  have hsound := hfresh.sound.run hcareful
  exact ⟨hsound.putAtomic hold, hsound.replaceable hold⟩

/-- A volume of three blocks of which the second is free. -/
def threeBlocks : MediaTags :=
  { mediaTagLba := 2
    vol :=
      { blockSize := 4096
        totalBytes := 3 * 4096
        btreeClumpSize := 4096
        dedupClumpSize := 4096
        nextFreeLba := 1
        bitmap := (· ≠ 1)
        disk := fun _ ↦ .bytes [] }
    tree := .empty }

theorem threeBlocks_fresh : threeBlocks.Fresh where
  mediaTagLba_ne := by decide
  blockSize_ge := by decide
  superblock := by decide
  tree_eq := rfl

/-- The record of a tag of 513 bytes in the second block. -/
def longTag : MediaTagRecord := ⟨1, 0, 513, false, 1, 1, List.replicate mediaTagInlineMax 0⟩

/-- What is left of the volume when the tag is there. -/
def fullVolume (data : List ℕ) : Volume :=
  { threeBlocks.vol.bitmapSet 1 1 with
    nextFreeLba := 2
    disk := Function.update threeBlocks.vol.disk 1 (.bytes (paddedBlock 4096 data)) }

variable {data : List ℕ}

theorem threeBlocks_put (hlength : data.length = 513) : mediaTagPut 1 0 data some threeBlocks =
      (none, ⟨2, fullVolume data, .node 0 (0, [longTag])⟩) := by
  have hfind : threeBlocks.vol.bitmapFindFree 1 = some 1 := by decide
  have halloc : threeBlocks.vol.allocBlocks 1 =
      some (1, { threeBlocks.vol.bitmapSet 1 1 with nextFreeLba := 2 }) := by
    rw [Volume.allocBlocks, hfind]
    rfl
  have hbuild : mediaTagBuildRecord 1 0 data threeBlocks.vol = (.ok longTag, fullVolume data) := by
    have hlong : ¬data.length ≤ mediaTagInlineMax := by
      rw [hlength]
      decide
    have hblocks : tagBlocks threeBlocks.vol.blockSize data.length = 1 := by
      rw [hlength]
      decide
    rw [mediaTagBuildRecord, if_neg hlong, mediaTagWriteExternal, hblocks, hlength]
    simp only [halloc]
    rfl
  have hnone : mediaTagTreeLookup 1 0 threeBlocks = none := rfl
  rw [mediaTagPut, if_neg (by decide), hnone]
  simp only [hbuild]
  rfl

theorem threeBlocks_run (hlength : data.length = 513) :
    threeBlocks.run [.put 1 0 data some] = ⟨2, fullVolume data, .node 0 (0, [longTag])⟩ :=
  congrArg Prod.snd (threeBlocks_put hlength)

theorem threeBlocks_careful (data : List ℕ) : CarefulTags threeBlocks [.put 1 0 data some] :=
  ⟨fun _ hold ↦ absurd hold (by simp [mediaTagTreeLookup, threeBlocks, Root.lookup]), trivial⟩

theorem longTag_found (vol : Volume) :
    mediaTagTreeLookup 1 0 ⟨2, vol, .node 0 (0, [longTag])⟩ = some longTag := rfl

/-- A tag of one byte over one of 513. -/
theorem media_tag_put_atomic_shorter : PutAtomic 1 0 longTag [8] some
      (threeBlocks.run [.put 1 0 (List.replicate 513 7) some]) := by
  have hlength : (List.replicate 513 7).length = 513 := List.length_replicate
  generalize List.replicate 513 7 = data at hlength
  have hrun := threeBlocks_run hlength
  have hfound : mediaTagTreeLookup 1 0 (threeBlocks.run [.put 1 0 data some]) = some longTag := by
    rw [hrun]
    exact longTag_found _
  have hreplaceable : Replaceable longTag [8] (threeBlocks.run [.put 1 0 data some]) := by
    rw [hrun]
    exact Or.inr ⟨Nat.zero_le _, Or.inl (by decide)⟩
  have hatomic := media_tag_put_atomic threeBlocks_fresh (threeBlocks_careful data) hfound [8] some
  exact hatomic.1 hreplaceable

/-- A tag of 513 bytes lies in the one block that is free. When it is to become one of 4097 bytes,
its block is released, the two blocks for the new bytes are refused, and its record still names the
block that is free now. -/
theorem media_tag_put_loses_block : threeBlocks.Fresh ∧
      ∃ s s', threeBlocks.run [.put 1 0 (List.replicate 513 7) some] = s ∧
        mediaTagPut 1 0 (List.replicate 4097 7) some s = (some .noSpc, s') ∧
        mediaTagTreeLookup 1 0 s = some longTag ∧ mediaTagTreeLookup 1 0 s' = some longTag ∧
        longTag.owns 1 = true ∧ s.vol.bitmap 1 = true ∧ s'.vol.bitmap 1 = false ∧
          ¬PutAtomic 1 0 longTag (List.replicate 4097 7) some s := by
  have hrun := threeBlocks_run (List.length_replicate : (List.replicate 513 7).length = 513)
  obtain ⟨data, hdata⟩ : ∃ data, data = List.replicate 4097 7 := ⟨_, rfl⟩
  have hlength : data.length = 4097 := by rw [hdata, List.length_replicate]
  rw [← hdata]
  have hout : mediaTagPut 1 0 data some
      ⟨2, fullVolume (List.replicate 513 7), .node 0 (0, [longTag])⟩ = (some .noSpc,
          ⟨2, (fullVolume (List.replicate 513 7)).bitmapClear 1 1, .node 0 (0, [longTag])⟩) := by
    generalize hfull : fullVolume (List.replicate 513 7) = full
    have hfind : (full.bitmapClear 1 1).bitmapFindFree 2 = none := by
      rw [← hfull]
      decide
    have hlong : ¬data.length ≤ mediaTagInlineMax := by
      rw [hlength]
      decide
    have hblocks : tagBlocks (full.bitmapClear 1 1).blockSize data.length = 2 := by
      rw [hlength, ← hfull]
      decide
    have hbuild : mediaTagBuildRecord 1 0 data (full.bitmapClear 1 1) =
        (.error .noSpc, full.bitmapClear 1 1) := by
      rw [mediaTagBuildRecord, if_neg hlong, mediaTagWriteExternal, hblocks]
      simp only [Volume.allocBlocks, hfind]
    rw [mediaTagPut, if_neg (show (2 : ℕ) ≠ 0 by decide), longTag_found]
    have hfree : mediaTagFreeExternal longTag full = full.bitmapClear 1 1 := if_pos (by decide)
    simp only [hfree, hbuild]
  refine ⟨threeBlocks_fresh, _, _, hrun, hout, longTag_found _, longTag_found _, rfl, rfl, rfl, ?_⟩
  rw [PutAtomic, hout]
  intro hkept
  exact Bool.false_ne_true (hkept.2.2 1 rfl).1

end Obmafs3
