import Obmafs3.Dedup.Handles
import Obmafs3.Library.Packed
import Obmafs3.Store.Alloc

/-!
# The list of dedup trees

One block of the volume lists the dedup trees: a header with a count, and behind it an array that
pairs each sector size with the LBA of the header of its tree. A tree is found by its sector size,
and a size that is not in the list gets a tree of its own and one more entry at the end of the array.

The block is kept as its bytes. The copy into the block buffer does not look at the size of the
buffer: what lies past the end of the buffer overruns it and does not reach the disk. Reading the
list does look: a count whose entries do not fit in the block is refused.
-/

set_option autoImplicit false

namespace Obmafs3

open Library.Packed

/-- `OBMAFS3_TREELIST_MAGIC`. -/
def treeListMagic : ℕ := 0x5453494C45455254

/-- `sizeof(struct tree_list_header)`. -/
def treeListHeaderSize : ℕ := 48

/-- `sizeof(struct tree_list_entry)`. -/
def treeListEntrySize : ℕ := 10

structure TreeListEntry where
  sectorSize : UInt16
  treeLba : ℕ
  deriving DecidableEq, Repr

def TreeListEntry.toBytes (entry : TreeListEntry) : List ℕ :=
  leBytes 2 entry.sectorSize.toNat ++ leBytes 8 entry.treeLba

def TreeListEntry.ofBytes (bytes : List ℕ) : TreeListEntry where
  sectorSize := UInt16.ofNat (Nat.ofDigits 256 (bytes.take 2))
  treeLba := Nat.ofDigits 256 ((bytes.drop 2).take 8)

/-- The header and the entries. The checksum is left zero: no modelled function reads it. -/
def treeListBytes (entries : List TreeListEntry) : List ℕ :=
  leBytes 8 treeListMagic ++ (leBytes 8 entries.length ++
    (List.replicate 32 0 ++ entries.flatMap TreeListEntry.toBytes))

/-- A zeroed buffer of one block into which `data` is copied from the start. -/
def blockBuffer (blockSize : ℕ) (data : List ℕ) : List ℕ :=
  (data ++ List.replicate blockSize 0).take blockSize

/-- `dedup_tree_list_read`. -/
def dedupTreeListRead (dedupLba : ℕ) (vol : Volume) : Except ErrorCode (List TreeListEntry) :=
  match vol.blockRead dedupLba with
  | some (.bytes data) =>
    let treeCount := Nat.ofDigits 256 ((data.drop 8).take 8)
    if Nat.ofDigits 256 (data.take 8) ≠ treeListMagic then .error .badMagic
    else if treeCount = 0 then .ok []
    else if vol.blockSize < treeListHeaderSize + treeCount * treeListEntrySize then .error .inval
    else .ok (readArray treeListEntrySize .ofBytes treeCount (data.drop treeListHeaderSize))
  | some _ => .error .badMagic
  | none => .error .io

/-- `dedup_tree_list_write`. -/
def dedupTreeListWrite (dedupLba : ℕ) (entries : List TreeListEntry) (vol : Volume) :
    Option Volume :=
  vol.blockWrite dedupLba (.bytes (blockBuffer vol.blockSize (treeListBytes entries)))

/-- The accesses to the disk at which a call can fail. -/
inductive TreeListAccess
  | listRead
  | headerRead
  | rootWrite
  | headerWrite
  | listWrite
  deriving DecidableEq

/-- `obmafs3_btree_header_read`. -/
def treeHeaderRead (lba : ℕ) (vol : Volume) : Except ErrorCode BtreeHeader :=
  match vol.blockRead lba with
  | some (.treeHeader header) => .ok header
  | some _ => .error .badMagic
  | none => .error .io

/-- The empty root node of a new tree. -/
def emptyRoot (blockSize : ℕ) : Block :=
  .bytes (blockBuffer blockSize (leBytes 8 btreeNodeMagic))

/-- The header of a new tree. -/
def newTreeHeader (blockSize rootLba : ℕ) : BtreeHeader where
  rootNodeLba := rootLba
  freeNodeLba := 0
  freeNodes := 0
  nodeSize := blockSize % 2 ^ 16
  deduplication := true

section GetTree

variable (dedupLba : ℕ) (fails : TreeListAccess → Bool)

/-- A write that the disk may refuse. -/
def writeUnless (refused : Bool) (lba : ℕ) (block : Block) (vol : Volume) : Option Volume :=
  if refused then none else vol.blockWrite lba block

/-- The part of `obmafs3_dedup_get_tree` that makes the blocks of a new tree: the LBA of its header
and of its root. Each failure gives back what was allocated. -/
def createDedupTree (vol : Volume) : Except ErrorCode (ℕ × ℕ) × Volume :=
  match vol.allocBlocks 1 with
  | none => (.error .noSpc, vol)
  | some (newHdrLba, vol) =>
    match vol.allocBlocks 1 with
    | none => (.error .noSpc, vol.freeBlocks newHdrLba 1)
    | some (rootLba, vol) =>
      match writeUnless (fails .rootWrite) rootLba (emptyRoot vol.blockSize) vol with
      | none => (.error .io, (vol.freeBlocks newHdrLba 1).freeBlocks rootLba 1)
      | some vol =>
        match writeUnless (fails .headerWrite) newHdrLba
            (.treeHeader (newTreeHeader vol.blockSize rootLba)) vol with
        | none => (.error .io, (vol.freeBlocks newHdrLba 1).freeBlocks rootLba 1)
        | some vol => (.ok (newHdrLba, rootLba), vol)

/-- `obmafs3_dedup_get_tree`: the header of the tree of a sector size and the LBA of the header. -/
def dedupGetTree (sectorSize : UInt16) (vol : Volume) :
    Except ErrorCode (BtreeHeader × ℕ) × Volume :=
  if fails .listRead then (.error .io, vol)
  else
    match dedupTreeListRead dedupLba vol with
    | .error code => (.error code, vol)
    | .ok entries =>
      match entries.find? (·.sectorSize = sectorSize) with
      | some entry =>
        if fails .headerRead then (.error .io, vol)
        else ((treeHeaderRead entry.treeLba vol).map (·, entry.treeLba), vol)
      | none =>
        match createDedupTree fails vol with
        | (.error code, vol) => (.error code, vol)
        | (.ok (newHdrLba, rootLba), vol) =>
          if fails .listWrite then (.error .io, vol)
          else
            match dedupTreeListWrite dedupLba (entries ++ [⟨sectorSize, newHdrLba⟩]) vol with
            | none => (.error .io, vol)
            | some vol => (.ok (newTreeHeader vol.blockSize rootLba, newHdrLba), vol)

end GetTree

/-! ### The bytes of the list -/

theorem TreeListEntry.length_toBytes (entry : TreeListEntry) :
    entry.toBytes.length = treeListEntrySize := by
  simp [toBytes, treeListEntrySize]

theorem TreeListEntry.ofBytes_toBytes {entry : TreeListEntry} (hlba : entry.treeLba < 2 ^ 64) :
    ofBytes entry.toBytes = entry := by
  have hsize : Nat.ofDigits 256 (leBytes 2 entry.sectorSize.toNat) = entry.sectorSize.toNat :=
    ofDigits_leBytes_of_lt entry.sectorSize.toNat_lt
  have hword : Nat.ofDigits 256 (leBytes 8 entry.treeLba) = entry.treeLba :=
    ofDigits_leBytes_of_lt (by simpa using hlba)
  unfold ofBytes toBytes
  rw [List.take_left' (length_leBytes 2 _), List.drop_left' (length_leBytes 2 _), hsize,
    List.take_of_length_le (length_leBytes 8 _).le, hword, UInt16.ofNat_toNat]

theorem length_treeListBytes (entries : List TreeListEntry) :
    (treeListBytes entries).length = treeListHeaderSize + entries.length * treeListEntrySize := by
  have hlen := length_flatMap_of_width entries fun entry _ ↦ entry.length_toBytes
  simp only [treeListBytes, List.length_append, length_leBytes, List.length_replicate, hlen,
    treeListHeaderSize]
  omega

theorem take_blockBuffer {blockSize n : ℕ} {data : List ℕ} (hn : n ≤ blockSize)
    (hdata : n ≤ data.length) : (blockBuffer blockSize data).take n = data.take n := by
  rw [blockBuffer, List.take_take, Nat.min_eq_left hn, List.take_append_of_le_length hdata]

/-- The first words of the block are those of the header even when the entries overran it. -/
theorem treeList_words {blockSize : ℕ} {entries : List TreeListEntry}
    (hsize : treeListHeaderSize ≤ blockSize) (hcount : entries.length < 2 ^ 64) :
    Nat.ofDigits 256 ((blockBuffer blockSize (treeListBytes entries)).take 8) = treeListMagic ∧
      Nat.ofDigits 256 (((blockBuffer blockSize (treeListBytes entries)).drop 8).take 8) =
        entries.length := by
  have hlen := length_treeListBytes entries
  unfold treeListHeaderSize at hsize hlen
  have hwords : (blockBuffer blockSize (treeListBytes entries)).take 16 =
      leBytes 8 treeListMagic ++ leBytes 8 entries.length := by
    rw [take_blockBuffer (by omega) (by omega), treeListBytes, ← List.append_assoc,
      List.take_left' (by simp)]
  refine ⟨?_, ?_⟩
  · have hfirst := congrArg (List.take 8) hwords
    rw [List.take_take, List.take_left' (length_leBytes 8 _)] at hfirst
    rw [← Nat.min_eq_left (show 8 ≤ 16 by omega), hfirst]
    exact ofDigits_leBytes_of_lt (by decide)
  · have hsecond := congrArg (List.drop 8) hwords
    rw [List.drop_take, List.drop_left' (length_leBytes 8 _)] at hsecond
    rw [hsecond]
    exact ofDigits_leBytes_of_lt (by simpa using hcount)

/-! ### A volume with a list -/

/-- The block of the list holds `entries`, all of them inside the block. -/
structure Listed (dedupLba : ℕ) (vol : Volume) (entries : List TreeListEntry) : Prop where
  inside : dedupLba < vol.totalBlocks
  word : vol.totalBytes < 2 ^ 64
  taken : vol.bitmap dedupLba = true
  disk : vol.disk dedupLba = .bytes (blockBuffer vol.blockSize (treeListBytes entries))
  fits : treeListHeaderSize + entries.length * treeListEntrySize ≤ vol.blockSize
  lbas : ∀ entry ∈ entries, entry.treeLba < 2 ^ 64

section Listed

variable {dedupLba : ℕ} {vol vol' : Volume} {entries : List TreeListEntry}

theorem Listed.blockSize_lt (hlisted : Listed dedupLba vol entries) : vol.blockSize < 2 ^ 64 := by
  have hpos : 0 < vol.totalBytes / vol.blockSize := (Nat.zero_le _).trans_lt hlisted.inside
  exact (Nat.div_pos_iff.mp hpos).2.trans_lt hlisted.word

/-- A list that fits in its block is read back. -/
theorem Listed.read (hlisted : Listed dedupLba vol entries) :
    dedupTreeListRead dedupLba vol = .ok entries := by
  have hword := hlisted.blockSize_lt
  have hfits := hlisted.fits
  have hsize : treeListHeaderSize ≤ vol.blockSize := by omega
  have hcount : entries.length < 2 ^ 64 := by
    unfold treeListEntrySize at hfits
    omega
  obtain ⟨hmagic, hlength⟩ := treeList_words hsize hcount
  have hdata : (blockBuffer vol.blockSize (treeListBytes entries)).drop treeListHeaderSize =
      entries.flatMap TreeListEntry.toBytes ++
        List.replicate (vol.blockSize - (treeListBytes entries).length) 0 := by
    rw [blockBuffer, List.take_append, List.take_of_length_le
      ((length_treeListBytes entries).trans_le hfits), List.take_replicate,
      Nat.min_eq_left (Nat.sub_le _ _), treeListBytes]
    simp only [← List.append_assoc]
    rw [List.append_assoc (_ ++ _ ++ _), List.drop_left']
    simp [treeListHeaderSize]
  unfold dedupTreeListRead
  rw [Volume.blockRead, if_pos hlisted.inside, hlisted.disk]
  simp only [hmagic, hlength, ne_eq, not_true_eq_false, if_false]
  by_cases hempty : entries.length = 0
  · rw [if_pos hempty, List.length_eq_zero_iff.mp hempty]
  · rw [if_neg hempty, if_neg (by omega), hdata,
      readArray_flatMap (fun entry _ ↦ entry.length_toBytes)
        fun entry hmem ↦ TreeListEntry.ofBytes_toBytes (hlisted.lbas entry hmem)]

/-- A list that has outgrown its block is refused. -/
theorem read_outgrown (entries : List TreeListEntry) (hinside : dedupLba < vol.totalBlocks)
    (hdisk : vol.disk dedupLba = .bytes (blockBuffer vol.blockSize (treeListBytes entries)))
    (hsize : treeListHeaderSize ≤ vol.blockSize) (hcount : entries.length < 2 ^ 64)
    (hover : vol.blockSize < treeListHeaderSize + entries.length * treeListEntrySize) :
    dedupTreeListRead dedupLba vol = .error .inval := by
  obtain ⟨hmagic, hlength⟩ := treeList_words hsize hcount
  unfold dedupTreeListRead
  rw [Volume.blockRead, if_pos hinside, hdisk]
  simp only [hmagic, hlength, ne_eq, not_true_eq_false, if_false]
  rw [if_neg fun hempty ↦ ?_, if_pos hover]
  rw [hempty] at hover
  omega

end Listed

/-! ### One call -/

/-- The blocks change, the block of the list does not. -/
structure ListKept (dedupLba : ℕ) (vol vol' : Volume) : Prop where
  blockSize : vol'.blockSize = vol.blockSize
  totalBytes : vol'.totalBytes = vol.totalBytes
  taken : vol'.bitmap dedupLba = true
  disk : vol'.disk dedupLba = vol.disk dedupLba

section ListKept

variable {dedupLba : ℕ} {vol vol' vol'' : Volume} {entries : List TreeListEntry}

theorem ListKept.refl (htaken : vol.bitmap dedupLba = true) : ListKept dedupLba vol vol :=
  ⟨rfl, rfl, htaken, rfl⟩

theorem ListKept.trans (hfirst : ListKept dedupLba vol vol')
    (hsecond : ListKept dedupLba vol' vol'') : ListKept dedupLba vol vol'' :=
  ⟨hsecond.blockSize.trans hfirst.blockSize, hsecond.totalBytes.trans hfirst.totalBytes,
    hsecond.taken, hsecond.disk.trans hfirst.disk⟩

theorem ListKept.totalBlocks (hkept : ListKept dedupLba vol vol') :
    vol'.totalBlocks = vol.totalBlocks := by
  rw [Volume.totalBlocks, Volume.totalBlocks, hkept.blockSize, hkept.totalBytes]

theorem ListKept.listed (hkept : ListKept dedupLba vol vol')
    (hlisted : Listed dedupLba vol entries) : Listed dedupLba vol' entries where
  inside := hkept.totalBlocks ▸ hlisted.inside
  word := hkept.totalBytes ▸ hlisted.word
  taken := hkept.taken
  disk := by rw [hkept.disk, hlisted.disk, hkept.blockSize]
  fits := hkept.blockSize ▸ hlisted.fits
  lbas := hlisted.lbas

variable {lba : ℕ}

/-- An allocation changes the bitmap only, and the block lies inside the volume. -/
theorem allocBlocks_inside (halloc : vol.allocBlocks 1 = some (lba, vol')) :
    lba < vol.totalBlocks ∧ vol'.blockSize = vol.blockSize ∧ vol'.totalBytes = vol.totalBytes ∧
      vol'.disk = vol.disk := by
  obtain ⟨hfind, rfl⟩ := allocBlocks_eq_some halloc
  exact ⟨(Volume.bitmapFindFree_some hfind).2, rfl, rfl, rfl⟩

theorem allocBlocks_kept (htaken : vol.bitmap dedupLba = true)
    (halloc : vol.allocBlocks 1 = some (lba, vol')) :
    ListKept dedupLba vol vol' ∧ lba ≠ dedupLba := by
  obtain ⟨hnew, hold⟩ := allocBlocks_bitmap halloc
  obtain ⟨-, hsize, hbytes, hdisk⟩ := allocBlocks_inside halloc
  refine ⟨⟨hsize, hbytes, hold dedupLba htaken, congrFun hdisk dedupLba⟩, ?_⟩
  rintro rfl
  rw [(hnew lba le_rfl (by omega)).1] at htaken
  exact Bool.false_ne_true htaken

theorem freeBlocks_kept (htaken : vol.bitmap dedupLba = true) (hne : lba ≠ dedupLba) :
    ListKept dedupLba vol (vol.freeBlocks lba 1) :=
  ⟨rfl, rfl, freeBlocks_bitmap htaken (by omega), rfl⟩

variable {refused : Bool}

theorem writeUnless_kept {block : Block} (htaken : vol.bitmap dedupLba = true)
    (hne : lba ≠ dedupLba) (hwrite : writeUnless refused lba block vol = some vol') :
    ListKept dedupLba vol vol' := by
  unfold writeUnless Volume.blockWrite at hwrite
  split_ifs at hwrite
  obtain rfl := Option.some.inj hwrite
  exact ⟨rfl, rfl, htaken, Function.update_of_ne hne.symm _ _⟩

theorem writeUnless_ok (hok : refused = false) (hinside : lba < vol.totalBlocks) (block : Block) :
    writeUnless refused lba block vol =
      some { vol with disk := Function.update vol.disk lba block } := by
  rw [writeUnless, hok, if_neg Bool.false_ne_true, Volume.blockWrite, if_pos hinside]

end ListKept

/-- Two blocks in a row can be allocated. -/
def TwoFree (vol : Volume) : Prop :=
  ∃ lba vol', vol.allocBlocks 1 = some (lba, vol') ∧ (vol'.allocBlocks 1).isSome

/-- The call fails before it writes the list: there are no two blocks, or an access fails. -/
def Refused (fails : TreeListAccess → Bool) (vol : Volume) : Prop :=
  fails .listRead ∨ ¬TwoFree vol ∨ fails .rootWrite ∨ fails .headerWrite ∨ fails .listWrite

section GetTree

variable {dedupLba : ℕ} {fails : TreeListAccess → Bool} {vol vol' : Volume}
  {entries : List TreeListEntry} {sectorSize : UInt16}

/-- Making the blocks of a new tree leaves the list alone. -/
theorem createDedupTree_kept (fails : TreeListAccess → Bool) (htaken : vol.bitmap dedupLba = true) :
    ListKept dedupLba vol (createDedupTree fails vol).2 := by
  unfold createDedupTree
  cases hfirst : vol.allocBlocks 1 with
  | none => exact .refl htaken
  | some first =>
    obtain ⟨newHdrLba, vol₁⟩ := first
    obtain ⟨hkept₁, hhdr⟩ := allocBlocks_kept htaken hfirst
    simp only
    cases hsecond : vol₁.allocBlocks 1 with
    | none => exact hkept₁.trans (freeBlocks_kept hkept₁.taken hhdr)
    | some second =>
      obtain ⟨rootLba, vol₂⟩ := second
      obtain ⟨hkept₂, hroot⟩ := allocBlocks_kept hkept₁.taken hsecond
      have hkept := hkept₁.trans hkept₂
      simp only
      cases hwrite : writeUnless (fails .rootWrite) rootLba (emptyRoot vol₂.blockSize) vol₂ with
      | none =>
        have hfree := freeBlocks_kept hkept.taken hhdr
        exact hkept.trans (hfree.trans (freeBlocks_kept hfree.taken hroot))
      | some vol₃ =>
        have hkept₃ := hkept.trans (writeUnless_kept hkept.taken hroot hwrite)
        simp only
        cases hheader : writeUnless (fails .headerWrite) newHdrLba
            (.treeHeader (newTreeHeader vol₃.blockSize rootLba)) vol₃ with
        | none =>
          have hfree := freeBlocks_kept hkept₃.taken hhdr
          exact hkept₃.trans (hfree.trans (freeBlocks_kept hfree.taken hroot))
        | some vol₄ => exact hkept₃.trans (writeUnless_kept hkept₃.taken hhdr hheader)

/-- A new tree is made exactly when there are two blocks for it and both can be written. -/
theorem createDedupTree_ok (htwo : TwoFree vol) (hroot : fails .rootWrite = false)
    (hheader : fails .headerWrite = false) :
    ∃ newHdrLba rootLba vol', createDedupTree fails vol = (.ok (newHdrLba, rootLba), vol') ∧
      newHdrLba < vol.totalBlocks := by
  obtain ⟨newHdrLba, vol₁, hfirst, hsome⟩ := htwo
  obtain ⟨⟨rootLba, vol₂⟩, hsecond⟩ := Option.isSome_iff_exists.mp hsome
  obtain ⟨hhdr, hsize, hbytes, -⟩ := allocBlocks_inside hfirst
  obtain ⟨hin, hsize₂, hbytes₂, -⟩ := allocBlocks_inside hsecond
  have hblocks₂ : vol₂.totalBlocks = vol₁.totalBlocks := by
    rw [Volume.totalBlocks, hbytes₂, hsize₂, Volume.totalBlocks]
  have hblocks₁ : vol₁.totalBlocks = vol.totalBlocks := by
    rw [Volume.totalBlocks, hbytes, hsize, Volume.totalBlocks]
  unfold createDedupTree
  simp only [hfirst, hsecond]
  rw [writeUnless_ok hroot (by omega)]
  simp only
  rw [writeUnless_ok hheader]
  · exact ⟨newHdrLba, rootLba, _, rfl, hhdr⟩
  · exact (hhdr.trans_eq hblocks₁.symm).trans_eq hblocks₂.symm

theorem createDedupTree_error
    (hrefused : ¬TwoFree vol ∨ fails .rootWrite = true ∨ fails .headerWrite = true) :
    ∃ code vol', createDedupTree fails vol = (.error code, vol') := by
  unfold createDedupTree
  cases hfirst : vol.allocBlocks 1 with
  | none => exact ⟨_, _, rfl⟩
  | some first =>
    obtain ⟨newHdrLba, vol₁⟩ := first
    simp only
    cases hsecond : vol₁.allocBlocks 1 with
    | none => exact ⟨_, _, rfl⟩
    | some second =>
      obtain ⟨rootLba, vol₂⟩ := second
      have htwo : TwoFree vol := ⟨newHdrLba, vol₁, hfirst, by rw [hsecond]; rfl⟩
      simp only
      rcases hrefused with hno | hroot | hheader
      · exact absurd htwo hno
      · rw [writeUnless, if_pos hroot]
        exact ⟨_, _, rfl⟩
      · cases writeUnless (fails .rootWrite) rootLba (emptyRoot vol₂.blockSize) vol₂ with
        | none => exact ⟨_, _, rfl⟩
        | some vol₃ =>
          simp only
          rw [writeUnless, if_pos hheader]
          exact ⟨_, _, rfl⟩

/-- A size in the list is answered from the list and nothing changes. -/
theorem dedupGetTree_found (fails : TreeListAccess → Bool) {entry : TreeListEntry}
    (hlisted : Listed dedupLba vol entries)
    (hfind : entries.find? (·.sectorSize = sectorSize) = some entry) :
    (dedupGetTree dedupLba fails sectorSize vol).2 = vol ∧
      ∀ hdr lba, (dedupGetTree dedupLba fails sectorSize vol).1 = .ok (hdr, lba) →
        lba = entry.treeLba := by
  unfold dedupGetTree
  simp only [hlisted.read, hfind]
  by_cases hlist : fails .listRead = true
  · simp [hlist]
  by_cases hheader : fails .headerRead = true
  · simp [hlist, hheader]
  simp only [hlist, hheader, Bool.false_eq_true, if_false]
  refine ⟨trivial, ?_⟩
  intro hdr lba hok
  cases hread : treeHeaderRead entry.treeLba vol with
  | error code => simp [hread, Except.map] at hok
  | ok header =>
    simp only [hread, Except.map, Except.ok.injEq, Prod.mk.injEq] at hok
    exact hok.2.symm

variable (hlisted : Listed dedupLba vol entries)
  (hfind : entries.find? (·.sectorSize = sectorSize) = none)
include hlisted hfind

/-- A refused call for a new size reports an error and leaves the list alone. -/
theorem dedupGetTree_refused (hrefused : Refused fails vol) :
    ∃ code vol', dedupGetTree dedupLba fails sectorSize vol = (.error code, vol') ∧
      ListKept dedupLba vol vol' := by
  have hkept := createDedupTree_kept fails hlisted.taken
  unfold dedupGetTree
  simp only [hlisted.read, hfind]
  by_cases hlist : fails .listRead = true
  · rw [if_pos hlist]
    exact ⟨_, _, rfl, .refl hlisted.taken⟩
  rw [if_neg hlist]
  by_cases hcreate : ¬TwoFree vol ∨ fails .rootWrite = true ∨ fails .headerWrite = true
  · obtain ⟨code, vol', hcreate⟩ := createDedupTree_error hcreate
    rw [hcreate] at hkept ⊢
    exact ⟨_, _, rfl, hkept⟩
  · have hwrite : fails .listWrite = true := by
      unfold Refused at hrefused
      tauto
    cases hmade : createDedupTree fails vol with
    | mk made vol' =>
      rw [hmade] at hkept
      cases made with
      | error code => exact ⟨_, _, rfl, hkept⟩
      | ok lbas =>
        simp only [hwrite, if_true]
        exact ⟨_, _, rfl, hkept⟩

/-- A call for a new size that is not refused writes a list with one more entry, whether or not
there is room for it. -/
theorem dedupGetTree_new (hok : ¬Refused fails vol) : ∃ hdr newHdrLba vol',
      dedupGetTree dedupLba fails sectorSize vol = (.ok (hdr, newHdrLba), vol') ∧
        newHdrLba < 2 ^ 64 ∧ vol'.blockSize = vol.blockSize ∧ vol'.totalBytes = vol.totalBytes ∧
        vol'.bitmap dedupLba = true ∧
        vol'.disk dedupLba = .bytes (blockBuffer vol.blockSize
          (treeListBytes (entries ++ [⟨sectorSize, newHdrLba⟩]))) := by
  simp only [Refused, not_or, not_not, Bool.not_eq_true] at hok
  obtain ⟨hlist, htwo, hroot, hheader, hwrite⟩ := hok
  obtain ⟨newHdrLba, rootLba, vol₁, hmade, hinside⟩ := createDedupTree_ok htwo hroot hheader
  have hkept := createDedupTree_kept fails hlisted.taken
  rw [hmade] at hkept
  unfold dedupGetTree
  simp only [hlisted.read, hfind, hlist, hmade, hwrite, Bool.false_eq_true, if_false,
    dedupTreeListWrite, Volume.blockWrite]
  rw [if_pos (hkept.totalBlocks.symm ▸ hlisted.inside)]
  refine ⟨_, newHdrLba, _, rfl, ?_, hkept.blockSize, hkept.totalBytes, hkept.taken, ?_⟩
  · exact (hinside.trans_le (Nat.div_le_self _ _)).trans hlisted.word
  · exact (Function.update_self _ _ _).trans (by rw [hkept.blockSize])

/-- With room for it the entry is in the list that is read back. -/
theorem dedupGetTree_listed (hok : ¬Refused fails vol)
    (hroom : treeListHeaderSize + (entries.length + 1) * treeListEntrySize ≤ vol.blockSize) :
    ∃ hdr newHdrLba vol',
      dedupGetTree dedupLba fails sectorSize vol = (.ok (hdr, newHdrLba), vol') ∧
        Listed dedupLba vol' (entries ++ [⟨sectorSize, newHdrLba⟩]) ∧
        vol'.blockSize = vol.blockSize := by
  obtain ⟨hdr, newHdrLba, vol', hcall, hword, hsize, hbytes, htaken, hdisk⟩ :=
    dedupGetTree_new hlisted hfind hok
  refine ⟨hdr, newHdrLba, vol', hcall, ?_, hsize⟩
  exact
    { inside := by
        rw [Volume.totalBlocks, hbytes, hsize]
        exact hlisted.inside
      word := hbytes ▸ hlisted.word
      taken := htaken
      disk := by rw [hdisk, hsize]
      fits := by simpa [hsize] using hroom
      lbas := by
        intro other hother
        rcases List.mem_append.mp hother with hother | hother
        · exact hlisted.lbas other hother
        · obtain rfl := List.mem_singleton.mp hother
          exact hword }

end GetTree

/-! ### Runs of calls -/

structure GetTreeCall where
  sectorSize : UInt16
  fails : TreeListAccess → Bool

/-- The volume and what the calls that succeeded have returned: the LBA for each size asked for. -/
structure TreeRegistry where
  vol : Volume
  registered : List TreeListEntry

section Runs

variable (dedupLba : ℕ)

def GetTreeCall.run (call : GetTreeCall) (reg : TreeRegistry) : TreeRegistry :=
  match dedupGetTree dedupLba call.fails call.sectorSize reg.vol with
  | (.ok (_, hdrLba), vol) => ⟨vol, ⟨call.sectorSize, hdrLba⟩ :: reg.registered⟩
  | (.error _, vol) => ⟨vol, reg.registered⟩

/-- The list is read back from the disk, and in it every registered size has its LBA. -/
def TreeRegistry.Kept (reg : TreeRegistry) : Prop :=
  ∃ entries, dedupTreeListRead dedupLba reg.vol = .ok entries ∧
    ∀ entry ∈ reg.registered, entries.find? (·.sectorSize = entry.sectorSize) = some entry

/-- Nothing is lost before, between and after the calls. -/
def KeptThroughout : List GetTreeCall → TreeRegistry → Prop
  | [], reg => reg.Kept dedupLba
  | call :: calls, reg => reg.Kept dedupLba ∧ KeptThroughout calls (call.run dedupLba reg)

/-- A call for a size that is not in the list is refused, or the block has room for one more
entry. -/
def GetTreeCall.HasRoom (call : GetTreeCall) (vol : Volume) : Prop :=
  ∀ entries, dedupTreeListRead dedupLba vol = .ok entries →
    (∃ entry ∈ entries, entry.sectorSize = call.sectorSize) ∨ Refused call.fails vol ∨
      treeListHeaderSize + (entries.length + 1) * treeListEntrySize ≤ vol.blockSize

def RoomThroughout : List GetTreeCall → TreeRegistry → Prop
  | [], _ => True
  | call :: calls, reg =>
    call.HasRoom dedupLba reg.vol ∧ RoomThroughout calls (call.run dedupLba reg)

/-- The block of the list holds every registered size with its LBA. -/
def TreeRegistry.Valid (reg : TreeRegistry) : Prop :=
  ∃ entries, Listed dedupLba reg.vol entries ∧
    ∀ entry ∈ reg.registered, entries.find? (·.sectorSize = entry.sectorSize) = some entry

variable {dedupLba} {reg : TreeRegistry}

theorem TreeRegistry.Valid.kept (hvalid : reg.Valid dedupLba) : reg.Kept dedupLba := by
  obtain ⟨entries, hlisted, hreg⟩ := hvalid
  exact ⟨entries, hlisted.read, hreg⟩

/-- A fresh volume: the first seventeen blocks are taken and the list is empty. -/
def freshRegistry : TreeRegistry where
  vol :=
    { blockSize := 4096
      totalBytes := 4096 * 1024
      btreeClumpSize := 64
      dedupClumpSize := 1024
      nextFreeLba := 17
      bitmap := fun bit ↦ decide (bit < 17)
      disk := fun _ ↦ .bytes (blockBuffer 4096 (treeListBytes [])) }
  registered := []

theorem freshRegistry_listed : Listed 6 freshRegistry.vol [] where
  inside := by decide
  word := by decide
  taken := rfl
  disk := rfl
  fits := by decide
  lbas := fun _ hmem ↦ by cases hmem

/-- A call with room keeps the list. -/
theorem GetTreeCall.run_valid (call : GetTreeCall) (hvalid : reg.Valid dedupLba)
    (hroom : call.HasRoom dedupLba reg.vol) : (call.run dedupLba reg).Valid dedupLba := by
  obtain ⟨entries, hlisted, hreg⟩ := hvalid
  unfold GetTreeCall.run
  cases hfind : entries.find? (·.sectorSize = call.sectorSize) with
  | some entry =>
    obtain ⟨hsame, hlba⟩ := dedupGetTree_found call.fails hlisted hfind
    cases hcall : dedupGetTree dedupLba call.fails call.sectorSize reg.vol with
    | mk result vol' =>
      rw [hcall] at hsame hlba
      subst hsame
      cases result with
      | error code => exact ⟨entries, hlisted, hreg⟩
      | ok found =>
        obtain ⟨hdr, hdrLba⟩ := found
        refine ⟨entries, hlisted, ?_⟩
        intro other hother
        rcases List.mem_cons.mp hother with rfl | hother
        · have hsize : entry.sectorSize = call.sectorSize := by
            simpa using List.find?_some hfind
          rw [hfind, hlba hdr hdrLba rfl, ← hsize]
        · exact hreg other hother
  | none =>
    by_cases hrefused : Refused call.fails reg.vol
    · obtain ⟨code, vol', hcall, hkept⟩ := dedupGetTree_refused hlisted hfind hrefused
      rw [hcall]
      exact ⟨entries, hkept.listed hlisted, hreg⟩
    · have hfits : treeListHeaderSize + (entries.length + 1) * treeListEntrySize ≤
          reg.vol.blockSize := by
        rcases hroom entries hlisted.read with ⟨entry, hmem, heq⟩ | hno | hfits
        · exact absurd heq (by simpa using List.find?_eq_none.mp hfind entry hmem)
        · exact absurd hno hrefused
        · exact hfits
      obtain ⟨hdr, hdrLba, vol', hcall, hlisted', -⟩ :=
        dedupGetTree_listed hlisted hfind hrefused hfits
      rw [hcall]
      refine ⟨_, hlisted', ?_⟩
      intro other hother
      rw [List.find?_append]
      rcases List.mem_cons.mp hother with rfl | hother
      · simp [hfind]
      · simp [hreg other hother]

/-- A call without room makes the list unreadable. -/
theorem GetTreeCall.run_lost (call : GetTreeCall) (hvalid : reg.Valid dedupLba)
    (hroom : ¬call.HasRoom dedupLba reg.vol) : ¬(call.run dedupLba reg).Kept dedupLba := by
  obtain ⟨entries, hlisted, hreg⟩ := hvalid
  simp only [GetTreeCall.HasRoom, hlisted.read, Except.ok.injEq, forall_eq', not_or, not_exists,
    not_and, not_le] at hroom
  obtain ⟨hnew, hrefused, hover⟩ := hroom
  have hfind : entries.find? (·.sectorSize = call.sectorSize) = none := by
    simpa [List.find?_eq_none] using hnew
  obtain ⟨hdr, hdrLba, vol', hcall, hword, hsize, hbytes, htaken, hdisk⟩ :=
    dedupGetTree_new hlisted hfind hrefused
  have hlen : (entries ++ [(⟨call.sectorSize, hdrLba⟩ : TreeListEntry)]).length =
      entries.length + 1 := List.length_append
  have hfits := hlisted.fits
  have hread : dedupTreeListRead dedupLba vol' = .error .inval := by
    refine read_outgrown (entries ++ [⟨call.sectorSize, hdrLba⟩]) ?_ ?_ ?_ ?_ ?_
    · rw [Volume.totalBlocks, hbytes, hsize]
      exact hlisted.inside
    · rw [hdisk, hsize]
    · rw [hsize]
      omega
    · have hblock := hlisted.blockSize_lt
      unfold treeListHeaderSize treeListEntrySize at hfits
      omega
    · rw [hsize, hlen]
      exact hover
  unfold GetTreeCall.run
  rw [hcall]
  rintro ⟨found, hfound, -⟩
  rw [hread] at hfound
  cases hfound

/-- No registered size is lost exactly as long as the block has room for each new one. -/
theorem tree_list_kept (hvalid : reg.Valid dedupLba) (calls : List GetTreeCall) :
    KeptThroughout dedupLba calls reg ↔ RoomThroughout dedupLba calls reg := by
  induction calls generalizing reg with
  | nil => exact ⟨fun _ ↦ trivial, fun _ ↦ hvalid.kept⟩
  | cons call calls ih =>
    rw [KeptThroughout, RoomThroughout, and_iff_right hvalid.kept]
    by_cases hroom : call.HasRoom dedupLba reg.vol
    · rw [ih (call.run_valid hvalid hroom), and_iff_right hroom]
    · refine ⟨fun hkept ↦ ?_, fun h ↦ absurd h.1 hroom⟩
      refine absurd ?_ (call.run_lost hvalid hroom)
      cases calls with
      | nil => exact hkept
      | cons => exact hkept.1

theorem tree_list_kept_one : KeptThroughout 6 [⟨512, fun _ ↦ false⟩] freshRegistry := by
  refine (tree_list_kept ⟨[], freshRegistry_listed, by simp [freshRegistry]⟩ _).mpr ⟨?_, trivial⟩
  intro entries hread
  rw [freshRegistry_listed.read] at hread
  obtain rfl := Except.ok.inj hread
  exact .inr (.inr (by decide))

end Runs

/-! ### Outgrowing the block -/

section Outgrown

variable {dedupLba k : ℕ} {vol vol' : Volume} {entries : List TreeListEntry}

theorem allocBlocks_roomy (hroomy : vol.Roomy (1 + k)) :
    ∃ vol', vol.allocBlocks 1 = some (vol.nextFreeLba, vol') ∧ vol'.Roomy k := by
  have hfind := Volume.bitmapFindFree_roomy Nat.one_pos (hroomy.mono (Nat.le_add_right 1 k))
  refine ⟨_, by rw [Volume.allocBlocks, hfind], ?_⟩
  have hroomy' : Volume.Roomy
      { vol.bitmapSet vol.nextFreeLba 1 with
        nextFreeLba := max vol.nextFreeLba (vol.nextFreeLba + 1)
        disk := vol.disk } k := roomy_alloc hroomy Nat.one_pos hfind
  exact hroomy'

theorem blockWrite_roomy {lba : ℕ} {block : Block} (hroomy : vol.Roomy k)
    (hwrite : vol.blockWrite lba block = some vol') : vol'.Roomy k := by
  unfold Volume.blockWrite at hwrite
  split_ifs at hwrite
  obtain rfl := Option.some.inj hwrite
  exact hroomy

/-- A volume with room makes a new tree out of two blocks. -/
theorem dedupGetTree_roomy {sectorSize : UInt16} (hlisted : Listed dedupLba vol entries)
    (hfind : entries.find? (·.sectorSize = sectorSize) = none) (hroomy : vol.Roomy (k + 2)) :
    ¬Refused (fun _ ↦ false) vol ∧
      (dedupGetTree dedupLba (fun _ ↦ false) sectorSize vol).2.Roomy k := by
  obtain ⟨vol₁, hfirst, hroomy₁⟩ := allocBlocks_roomy (k := 1 + k) (hroomy.mono (by omega))
  obtain ⟨vol₂, hsecond, hroomy₂⟩ := allocBlocks_roomy hroomy₁
  have htwo : TwoFree vol := ⟨_, vol₁, hfirst, by rw [hsecond]; rfl⟩
  have hok : ¬Refused (fun _ ↦ false) vol := by simp [Refused, htwo]
  refine ⟨hok, ?_⟩
  obtain ⟨hdr, lba, vol', hcall, -⟩ := dedupGetTree_new hlisted hfind hok
  unfold dedupGetTree createDedupTree writeUnless at hcall ⊢
  simp only [hlisted.read, hfind, hfirst, hsecond, Bool.false_eq_true, if_false] at hcall ⊢
  cases hroot : vol₂.blockWrite vol₁.nextFreeLba (emptyRoot vol₂.blockSize) with
  | none => simp [hroot] at hcall
  | some vol₃ =>
    have hroomy₃ := blockWrite_roomy hroomy₂ hroot
    simp only [hroot] at hcall ⊢
    cases hheader : vol₃.blockWrite vol.nextFreeLba
        (.treeHeader (newTreeHeader vol₃.blockSize vol₁.nextFreeLba)) with
    | none => simp [hheader] at hcall
    | some vol₄ =>
      have hroomy₄ := blockWrite_roomy hroomy₃ hheader
      simp only [hheader] at hcall ⊢
      cases hlist : dedupTreeListWrite dedupLba (entries ++ [⟨sectorSize, vol.nextFreeLba⟩])
          vol₄ with
      | none => exact hroomy₄
      | some vol₅ => exact blockWrite_roomy hroomy₄ hlist

/-- New sizes on a volume with room: as long as nothing is lost the list grows with each, so it is
lost when they do not all fit. -/
theorem kept_fits (sizes : List UInt16) (registered : List TreeListEntry)
    (hlisted : Listed dedupLba vol entries)
    (hreg : ∀ entry ∈ registered, entries.find? (·.sectorSize = entry.sectorSize) = some entry)
    (hnodup : sizes.Nodup) (hnew : ∀ entry ∈ entries, entry.sectorSize ∉ sizes)
    (hroomy : vol.Roomy (2 * sizes.length))
    (hkept : KeptThroughout dedupLba (sizes.map (⟨·, fun _ ↦ false⟩)) ⟨vol, registered⟩) :
    treeListHeaderSize + (entries.length + sizes.length) * treeListEntrySize ≤ vol.blockSize := by
  induction sizes generalizing vol entries registered with
  | nil => exact hlisted.fits
  | cons size sizes ih =>
    have hvalid : TreeRegistry.Valid dedupLba ⟨vol, registered⟩ := ⟨entries, hlisted, hreg⟩
    have hfind : entries.find? (·.sectorSize = size) = none := by
      simp only [List.find?_eq_none, decide_eq_true_eq]
      rintro entry hmem rfl
      exact hnew entry hmem List.mem_cons_self
    obtain ⟨hok, hroomy'⟩ := dedupGetTree_roomy hlisted hfind hroomy
    obtain ⟨-, hkept⟩ := hkept
    have hroom : treeListHeaderSize + (entries.length + 1) * treeListEntrySize ≤
        vol.blockSize := by
      by_contra hover
      refine GetTreeCall.run_lost ⟨size, fun _ ↦ false⟩ hvalid ?_ ?_
      · intro hroom
        rcases hroom entries hlisted.read with ⟨entry, hmem, heq⟩ | hno | hfits
        · exact hnew entry hmem (heq ▸ List.mem_cons_self)
        · exact hok hno
        · exact hover hfits
      · cases sizes with
        | nil => exact hkept
        | cons => exact hkept.1
    obtain ⟨hdr, lba, vol', hcall, hlisted', hsize⟩ := dedupGetTree_listed hlisted hfind hok hroom
    simp only [GetTreeCall.run, hcall] at hkept hroomy'
    obtain ⟨hnot, hnodup⟩ := List.nodup_cons.mp hnodup
    have hrest := ih _ hlisted' (fun entry hmem ↦ ?_) hnodup (fun entry hmem ↦ ?_) hroomy' hkept
    · rwa [hsize, List.length_append, List.length_singleton, Nat.add_assoc, Nat.add_comm 1] at hrest
    · rw [List.find?_append]
      rcases List.mem_cons.mp hmem with rfl | hmem
      · simp [hfind]
      · simp [hreg entry hmem]
    · rcases List.mem_append.mp hmem with hmem | hmem
      · exact fun h ↦ hnew entry hmem (List.mem_cons_of_mem size h)
      · obtain rfl := List.mem_singleton.mp hmem
        exact hnot

end Outgrown

/-- The first 405 sizes, one more than fit in a block of 4096 bytes. -/
theorem tree_list_lost :
    ¬KeptThroughout 6 ((List.range 405).map fun i ↦ ⟨UInt16.ofNat (i + 1), fun _ ↦ false⟩)
      freshRegistry := by
  intro hkept
  have hfits := kept_fits ((List.range 405).map fun i ↦ UInt16.ofNat (i + 1)) []
    freshRegistry_listed (by simp) ?_ (by simp) ?_ ?_
  · simp [treeListHeaderSize, treeListEntrySize, freshRegistry] at hfits
  · refine List.Nodup.map_on ?_ List.nodup_range
    intro i hi j hj heq
    have hi := List.mem_range.mp hi
    have hj := List.mem_range.mp hj
    have hnat := congrArg UInt16.toNat heq
    simp only [UInt16.toNat_ofNat'] at hnat
    omega
  · refine ⟨fun i hi _ ↦ decide_eq_false (Nat.not_lt.mpr hi), ?_⟩
    simp [freshRegistry, Volume.totalBlocks]
  · rw [List.map_map]
    exact hkept

end Obmafs3
