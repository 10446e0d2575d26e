import Mathlib.Algebra.Order.BigOperators.Group.List
import Obmafs3.Trees.Overflow

/-!
# The repair of inline extents

`validate_inline_extents` of `fsck_extents.c` clears the inline extents of an inode that cannot be
right and computes the size of the file from those that are left. An inline extent has no place of
its own: `find_extent` counts the logical blocks of those in front of it. A byte is read from a
source, a physical block or a place in a compressed run, and the repair keeps what is read where it
keeps the source and the size still reaches the byte.
-/

set_option autoImplicit false

namespace Obmafs3.InlineExtents

/-! ### The checks -/

/-- An empty slot. -/
def Unused (e : ExtentRun) : Prop := e.blockCount = 0 ∧ e.startBlock = 0 ∧ e.logicalBlocks = 0

instance decidableUnused (e : ExtentRun) : Decidable (Unused e) :=
  inferInstanceAs (Decidable (_ ∧ _))

/-- `validate_extent`: the number of violations. The end of a run is computed in 64 bits. -/
def validateExtent (totalBlocks : ℕ) (e : ExtentRun) : ℕ :=
  if Unused e then 0
  else if e.blockCount = 0 then 1
  else if e.startBlock = 0 then 1
  else
    (if totalBlocks < (e.startBlock + e.blockCount) % 2 ^ 64 then 1 else 0) +
      if e.logicalBlocks < e.blockCount then 1 else 0

/-- The test of the repair. -/
def Bad (totalBlocks : ℕ) (e : ExtentRun) : Prop :=
  ¬Unused e ∧ (e.blockCount = 0 ∨ (e.startBlock = 0 ∧ e.blockCount ≠ 0) ∨
      (e.blockCount ≠ 0 ∧ totalBlocks < (e.startBlock + e.blockCount) % 2 ^ 64) ∨
      (e.blockCount ≠ 0 ∧ e.logicalBlocks < e.blockCount))

instance decidableBad (totalBlocks : ℕ) : DecidablePred (Bad totalBlocks) := fun _ ↦
  inferInstanceAs (Decidable (_ ∧ _))

/-- The check and the repair agree on which extents are bad. -/
theorem validateExtent_pos {totalBlocks : ℕ} {e : ExtentRun} :
    0 < validateExtent totalBlocks e ↔ Bad totalBlocks e := by
  rw [validateExtent, Bad]
  split_ifs with hunused hcount hstart hend hlogical hlogical
  · exact iff_of_false (Nat.lt_irrefl 0) fun h ↦ h.1 hunused
  · exact iff_of_true Nat.one_pos ⟨hunused, Or.inl hcount⟩
  · exact iff_of_true Nat.one_pos ⟨hunused, Or.inr (Or.inl ⟨hstart, hcount⟩)⟩
  · exact iff_of_true (by decide) ⟨hunused, Or.inr (Or.inr (Or.inl ⟨hcount, hend⟩))⟩
  · exact iff_of_true (by decide) ⟨hunused, Or.inr (Or.inr (Or.inl ⟨hcount, hend⟩))⟩
  · exact iff_of_true (by decide) ⟨hunused, Or.inr (Or.inr (Or.inr ⟨hcount, hlogical⟩))⟩
  · refine iff_of_false (Nat.lt_irrefl 0) ?_
    rintro ⟨-, hbad | ⟨hbad, -⟩ | ⟨-, hbad⟩ | ⟨-, hbad⟩⟩
    · exact hcount hbad
    · exact hstart hbad
    · exact hend hbad
    · exact hlogical hbad

/-! ### The repair -/

inductive FileType where
  | regular
  | directory
  | mediaImage
  | symlink
  | compactDiscImage
  | subchannelFile
  | nintendo
  | ps3Image
  deriving DecidableEq

/-- The size of the file is that of the sectors of an image, not that of the data in its extents. -/
def FileType.LogicalSize : FileType → Prop
  | .mediaImage | .compactDiscImage | .subchannelFile | .nintendo | .ps3Image => True
  | .regular | .directory | .symlink => False

/-- The fields of `struct inode_record` that the repair and the readers use. -/
structure Inode where
  inodeId : ℕ
  fileType : FileType
  fileSize : ℕ
  extents : List ExtentRun

/-- The sizes of the volume. -/
structure Sizes where
  blockSize : ℕ
  totalBlocks : ℕ
  blockSize_pos : 0 < blockSize

def zeroExtent : ExtentRun := ⟨0, 0, 0⟩

section Repair

variable (sizes : Sizes)

/-- A bad extent is cleared. -/
def clear (e : ExtentRun) : ExtentRun := if Bad sizes.totalBlocks e then zeroExtent else e

/-- The size of the data in inline extents, computed in 64 bits. -/
def dataSize (extents : List ExtentRun) : ℕ :=
  (extents.map ExtentRun.logicalBlocks).sum % 2 ^ 64 * sizes.blockSize % 2 ^ 64

/-- `validate_inline_extents` at one inode with the repair accepted: the inode, the number of
violations and the number of extents cleared. -/
def validateInode (inode : Inode) : Inode × ℕ × ℕ :=
  let thisBad := (inode.extents.map (validateExtent sizes.totalBlocks)).sum
  let changed := (inode.extents.filter (Bad sizes.totalBlocks)).length
  if 0 < thisBad then
    let extents := inode.extents.map (clear sizes)
    (if changed = 0 then inode
      else { inode with extents := extents, fileSize := dataSize sizes extents }, thisBad, changed)
  else (inode, 0, 0)

/-- `validate_inline_extents` over the inodes in the order of its walk, with its two counts. -/
def validateInlineExtents (inodes : List Inode) : List Inode × ℕ × ℕ :=
  let checked := inodes.map (validateInode sizes)
  (checked.map Prod.fst, (checked.map fun c ↦ c.2.1).sum, (checked.map fun c ↦ c.2.2).sum)

end Repair

/-! ### Reads -/

/-- The inline extents in `find_extent`, whose places are counted in 64 bits. -/
def findInline : (base : ℕ) → List ExtentRun → (logicalBlock : ℕ) → Option ExtentDescriptor
  | _, [], _ => none
  | base, e :: extents, logicalBlock =>
    if e.blockCount = 0 ∧ e.logicalBlocks = 0 then findInline base extents logicalBlock
    else if base ≤ logicalBlock ∧ logicalBlock < (base + e.logicalBlocks) % 2 ^ 64 then
      some ⟨base, e.logicalBlocks, e.startBlock, e.blockCount⟩
    else findInline ((base + e.logicalBlocks) % 2 ^ 64) extents logicalBlock

/-- `find_extent`. -/
def findExtent (overflow : OverflowTree) (inodeId : ℕ) (extents : List ExtentRun)
    (logicalBlock : ℕ) : Option ExtentDescriptor :=
  (findInline 0 extents logicalBlock).orElse fun _ ↦
    overflowFindExtent inodeId logicalBlock overflow

/-- What the disk holds: the bytes of each block that can be read, and what the decompression of
a physical run leaves in the buffer, where it succeeds. -/
structure Store where
  block : ℕ → Option (ℕ → UInt8)
  group : (start count : ℕ) → Option (ℕ → UInt8)

/-- Where a logical block is read from. -/
inductive Source where
  | plain (block : ℕ)
  | packed (start count index : ℕ)
  deriving DecidableEq

/-- The extents of `obmafs3_read_file_data`: without compression when the counts are equal. -/
def source (d : ExtentDescriptor) (logicalBlock : ℕ) : Source :=
  if d.logicalCount = d.physCount then
    .plain ((d.physStart + (logicalBlock - d.logicalStart)) % 2 ^ 64)
  else .packed d.physStart d.physCount (logicalBlock - d.logicalStart)

section Reads

variable (blockSize : ℕ) (store : Store)

def Source.byte (off : ℕ) : Source → Option UInt8
  | .plain block => (store.block block).map (· off)
  | .packed start count index => (store.group start count).map (· (index * blockSize + off))

/-- A byte of an extent. -/
def byteAt (d : ExtentDescriptor) (pos : ℕ) : Option UInt8 :=
  (source d (pos / blockSize)).byte blockSize store (pos % blockSize)

/-- The loop of `obmafs3_read_file_data`: of each extent as much as it has. -/
def readLoop (find : ℕ → Option ExtentDescriptor) : (fuel pos want : ℕ) → Option (List UInt8)
  | _, _, 0 => some []
  | 0, _, _ + 1 => none
  | fuel + 1, pos, want + 1 => do
    let d ← find (pos / blockSize)
    let take := min (want + 1) ((d.logicalStart + d.logicalCount) * blockSize - pos)
    let bytes ← (List.range' pos take).mapM (byteAt blockSize store d)
    let rest ← readLoop find fuel (pos + take) (want + 1 - take)
    pure (bytes ++ rest)

/-- `obmafs3_read_file_data`; `none` is an error. -/
def readFileData (overflow : OverflowTree) (inode : Inode) (offset size : ℕ) :
    Option (List UInt8) :=
  if inode.fileSize ≤ offset then some []
  else
    let size := if inode.fileSize < (offset + size) % 2 ^ 64 then inode.fileSize - offset else size
    readLoop blockSize store (findExtent overflow inode.inodeId inode.extents) size offset size

end Reads

/-! ### What the repair is to keep -/

/-- The run of a descriptor. -/
def run (d : ExtentDescriptor) : ExtentRun := ⟨d.physStart, d.physCount, d.logicalCount⟩

section Meaning

variable (sizes : Sizes) (overflow : OverflowTree)

/-- The logical block is read from a valid extent. -/
def ReadFrom (inode : Inode) (logicalBlock : ℕ) (d : ExtentDescriptor) : Prop :=
  findExtent overflow inode.inodeId inode.extents logicalBlock = some d ∧
    ¬Bad sizes.totalBlocks (run d)

/-- Whatever the disk holds, a range of bytes of a valid extent inside the old size is read as
before; an image has its size; and the extents that are left are the valid ones of the inode. -/
structure KeepsGood (inode after : Inode) : Prop where
  reads : ∀ store offset size d, offset + size ≤ inode.fileSize →
    (∀ p, offset ≤ p → p < offset + size →
      ReadFrom sizes overflow inode (p / sizes.blockSize) d) →
    readFileData sizes.blockSize store overflow after offset size =
      readFileData sizes.blockSize store overflow inode offset size
  size_eq : inode.fileType.LogicalSize → after.fileSize = inode.fileSize
  inodeId_eq : after.inodeId = inode.inodeId
  kept : ∀ (i : ℕ) e, inode.extents[i]? = some e → ¬Bad sizes.totalBlocks e →
    after.extents[i]? = some e
  owned : ∀ (i : ℕ) e, after.extents[i]? = some e → e ≠ zeroExtent → inode.extents[i]? = some e

/-- The valid inline extents. -/
def good (extents : List ExtentRun) : List ExtentRun :=
  extents.filter fun e ↦ ¬Bad sizes.totalBlocks e

/-- Counted by the valid inline extents alone, every block of a valid extent inside the old size is
in its place, the data reach its end inside the size, and the data of an image are of its size. -/
structure InPlace (inode : Inode) : Prop where
  place : ∀ logicalBlock d, logicalBlock * sizes.blockSize < inode.fileSize →
    ReadFrom sizes overflow inode logicalBlock d →
    ∃ d', findExtent overflow inode.inodeId (good sizes inode.extents) logicalBlock = some d' ∧
      source d' logicalBlock = source d logicalBlock
  reach : ∀ logicalBlock d, logicalBlock * sizes.blockSize < inode.fileSize →
    ReadFrom sizes overflow inode logicalBlock d →
    min inode.fileSize ((logicalBlock + 1) * sizes.blockSize) ≤
      dataSize sizes (good sizes inode.extents)
  size_eq : inode.fileType.LogicalSize → dataSize sizes (good sizes inode.extents) = inode.fileSize

end Meaning

variable {sizes : Sizes} {overflow : OverflowTree} {inode : Inode} {extents : List ExtentRun}
  {e : ExtentRun} {d d' : ExtentDescriptor}

/-! ### Cleared extents -/

theorem clear_of_good (h : ¬Bad sizes.totalBlocks e) : clear sizes e = e := if_neg h

theorem clear_of_bad (h : Bad sizes.totalBlocks e) : clear sizes e = zeroExtent := if_pos h

/-- A cleared extent is passed over. -/
theorem findInline_clear (base : ℕ) (extents : List ExtentRun) (logicalBlock : ℕ) :
    findInline base (extents.map (clear sizes)) logicalBlock =
      findInline base (good sizes extents) logicalBlock := by
  induction extents generalizing base with
  | nil => rfl
  | cons e extents ih =>
    rw [good, List.map_cons]
    by_cases hbad : Bad sizes.totalBlocks e
    · rw [List.filter_cons_of_neg (by simpa using hbad), clear_of_bad hbad, findInline,
        if_pos ⟨rfl, rfl⟩, ih, good]
    · rw [List.filter_cons_of_pos (by simpa using hbad), clear_of_good hbad, findInline, findInline,
        ih, ih, good]

theorem findExtent_clear (inodeId : ℕ) (extents : List ExtentRun) (logicalBlock : ℕ) :
    findExtent overflow inodeId (extents.map (clear sizes)) logicalBlock =
      findExtent overflow inodeId (good sizes extents) logicalBlock := by
  rw [findExtent, findExtent, findInline_clear]

theorem dataSize_clear (extents : List ExtentRun) :
    dataSize sizes (extents.map (clear sizes)) = dataSize sizes (good sizes extents) := by
  have hsum : ((extents.map (clear sizes)).map ExtentRun.logicalBlocks).sum =
      ((good sizes extents).map ExtentRun.logicalBlocks).sum := by
    induction extents with
    | nil => rfl
    | cons e extents ih =>
      rw [good, List.map_cons, List.map_cons, List.sum_cons, ih]
      by_cases hbad : Bad sizes.totalBlocks e
      · rw [List.filter_cons_of_neg (by simpa using hbad), clear_of_bad hbad, good]
        exact Nat.zero_add _
      · rw [List.filter_cons_of_pos (by simpa using hbad), clear_of_good hbad, List.map_cons,
          List.sum_cons, good]
  rw [dataSize, dataSize, hsum]

theorem validateInode_good (hgood : ∀ e ∈ inode.extents, ¬Bad sizes.totalBlocks e) :
    (validateInode sizes inode).1 = inode := by
  have hnone : (inode.extents.map (validateExtent sizes.totalBlocks)).sum = 0 := by
    refine List.sum_eq_zero fun n hn ↦ ?_
    obtain ⟨e, he, rfl⟩ := List.mem_map.mp hn
    exact Nat.eq_zero_of_not_pos (mt validateExtent_pos.mp (hgood e he))
  rw [validateInode]
  simp only [hnone, Nat.lt_irrefl, if_false]

theorem validateInode_bad (hbad : ∃ e ∈ inode.extents, Bad sizes.totalBlocks e) :
    (validateInode sizes inode).1 = { inode with
        extents := inode.extents.map (clear sizes)
        fileSize := dataSize sizes (good sizes inode.extents) } := by
  obtain ⟨e, he, hbad⟩ := hbad
  have hsome : 0 < (inode.extents.map (validateExtent sizes.totalBlocks)).sum :=
    (validateExtent_pos.mpr hbad).trans_le
      (List.single_le_sum (fun _ _ ↦ Nat.zero_le _) _ (List.mem_map_of_mem he))
  have hchanged : (inode.extents.filter (Bad sizes.totalBlocks)).length ≠ 0 := fun h ↦ by
    have hmem : e ∈ inode.extents.filter (Bad sizes.totalBlocks) :=
      List.mem_filter.mpr ⟨he, by simpa using hbad⟩
    rw [List.eq_nil_of_length_eq_zero h] at hmem
    exact List.not_mem_nil hmem
  rw [validateInode]
  simp only [hsome, if_true, hchanged, if_false, dataSize_clear]

/-! ### Extents that are found -/

theorem findInline_covers {base logicalBlock : ℕ}
    (hfind : findInline base extents logicalBlock = some d) :
    d.logicalStart ≤ logicalBlock ∧ logicalBlock < d.logicalStart + d.logicalCount := by
  induction extents generalizing base with
  | nil => cases hfind
  | cons e extents ih =>
    rw [findInline] at hfind
    split_ifs at hfind with hskip hcovers
    · exact ih hfind
    · cases hfind
      exact ⟨hcovers.1, hcovers.2.trans_le (Nat.mod_le _ _)⟩
    · exact ih hfind

theorem findExtent_covers {inodeId logicalBlock : ℕ}
    (hfind : findExtent overflow inodeId extents logicalBlock = some d) :
    d.logicalStart ≤ logicalBlock ∧ logicalBlock < d.logicalStart + d.logicalCount := by
  rw [findExtent] at hfind
  cases hinline : findInline 0 extents logicalBlock with
  | some d' =>
    rw [hinline] at hfind
    cases hfind
    exact findInline_covers hinline
  | none =>
    rw [hinline] at hfind
    obtain ⟨x, hx, rfl⟩ := Option.map_eq_some_iff.mp hfind
    have hcovers := List.find?_some hx
    rw [decide_eq_true_iff] at hcovers
    exact ⟨hcovers.1, hcovers.2.trans_le (Nat.mod_le _ _)⟩

/-- Two extents with one source for a block have one for each block behind it. -/
theorem source_later {m n : ℕ} (hmn : m ≤ n) (hd : d.logicalStart ≤ m) (hd' : d'.logicalStart ≤ m)
    (hsource : source d' m = source d m) : source d' n = source d n := by
  unfold source at hsource ⊢
  split_ifs at hsource ⊢
  · have hblock := Source.plain.inj hsource
    exact congrArg Source.plain (by omega)
  · obtain ⟨hstart, hcount, hindex⟩ := Source.packed.inj hsource
    rw [hstart, hcount, show n - d'.logicalStart = n - d.logicalStart by omega]

/-! ### Ranges that are read -/

section Ranges

variable {blockSize : ℕ} {store : Store} {find : ℕ → Option ExtentDescriptor}

theorem mapM_congr {α β : Type} {f g : α → Option β} {l : List α} (h : ∀ a ∈ l, f a = g a) :
    l.mapM f = l.mapM g := by
  induction l with
  | nil => rfl
  | cons a l ih =>
    rw [List.mapM_cons, List.mapM_cons, h a List.mem_cons_self,
      ih fun b hb ↦ h b (List.mem_cons_of_mem a hb)]

/-- A range is read from one extent, if each of its blocks has the source that it has there. -/
theorem readLoop_eq {fuel pos want : ℕ} (hfuel : want ≤ fuel) (hblock : 0 < blockSize)
    (hd : d.logicalStart ≤ pos / blockSize)
    (hfind : ∀ p, pos ≤ p → p < pos + want → ∃ d', find (p / blockSize) = some d' ∧
      d'.logicalStart ≤ p / blockSize ∧ p / blockSize < d'.logicalStart + d'.logicalCount ∧
      source d' (p / blockSize) = source d (p / blockSize)) :
    readLoop blockSize store find fuel pos want =
      (List.range' pos want).mapM (byteAt blockSize store d) := by
  induction fuel generalizing pos want with
  | zero =>
    obtain rfl := Nat.le_zero.mp hfuel
    rfl
  | succ fuel ih =>
    cases want with
    | zero => rfl
    | succ want =>
      obtain ⟨d', hd', hstart, hend, hsource⟩ := hfind pos le_rfl (by omega)
      have hroom : pos < (d'.logicalStart + d'.logicalCount) * blockSize :=
        (Nat.div_lt_iff_lt_mul hblock).mp hend
      rw [readLoop, hd', Option.bind_eq_bind, Option.bind_some]
      generalize htake : min (want + 1)
        ((d'.logicalStart + d'.logicalCount) * blockSize - pos) = take
      have hlater : ∀ p, pos ≤ p → byteAt blockSize store d' p = byteAt blockSize store d p := by
        intro p hp
        have hblocks : pos / blockSize ≤ p / blockSize := Nat.div_le_div_right hp
        rw [byteAt, byteAt, source_later hblocks hd hstart hsource]
      have hbytes : (List.range' pos take).mapM (byteAt blockSize store d') =
          (List.range' pos take).mapM (byteAt blockSize store d) :=
        mapM_congr fun p hp ↦ hlater p (List.mem_range'_1.mp hp).1
      have hrest : readLoop blockSize store find fuel (pos + take) (want + 1 - take) =
          (List.range' (pos + take) (want + 1 - take)).mapM (byteAt blockSize store d) := by
        refine ih (by omega) (hd.trans (Nat.div_le_div_right (Nat.le_add_right pos take))) ?_
        exact fun p hp hlt ↦ hfind p (by omega) (by omega)
      have hsplit : List.range' pos (want + 1) =
          List.range' pos take ++ List.range' (pos + take) (want + 1 - take) := by
        rw [List.range'_append_1]
        congr 1
        omega
      dsimp only
      rw [hbytes, hrest, hsplit, List.mapM_append]

theorem readFileData_inside {offset size : ℕ} (hinside : offset + size ≤ inode.fileSize) :
    readFileData blockSize store overflow inode offset size =
      readLoop blockSize store (findExtent overflow inode.inodeId inode.extents) size offset
        size := by
  rw [readFileData]
  split_ifs with hend hclip
  · obtain rfl : size = 0 := by omega
    rw [readLoop]
  · exact absurd hclip ((Nat.mod_le _ _).trans hinside).not_gt
  · rfl

theorem readFileData_zero (offset : ℕ) :
    readFileData blockSize store overflow inode offset 0 = some [] := by
  rw [readFileData]
  split_ifs with hend hclip
  · rfl
  · exact absurd hclip ((Nat.mod_le _ _).trans (Nat.not_le.mp hend).le).not_gt
  · rw [readLoop]

end Ranges

/-- A block with a byte in front of a place begins in front of it. -/
theorem div_mul_lt {p n : ℕ} (h : p < n) (blockSize : ℕ) : p / blockSize * blockSize < n :=
  (Nat.div_mul_le_self p blockSize).trans_lt h

/-! ### When the good extents are kept -/

theorem keepsGood_of_inPlace (hbad : ∃ e ∈ inode.extents, Bad sizes.totalBlocks e)
    (hplace : InPlace sizes overflow inode) :
    KeepsGood sizes overflow inode (validateInode sizes inode).1 := by
  rw [validateInode_bad hbad]
  refine ⟨fun store offset size d hinside hfrom ↦ ?_, hplace.size_eq, rfl, fun i e he hgood ↦ ?_,
    fun i e he hzero ↦ ?_⟩
  · rcases Nat.eq_zero_or_pos size with rfl | hsize
    · rw [readFileData_zero, readFileData_zero]
    have hblock := sizes.blockSize_pos
    have hfirst := findExtent_covers (hfrom offset le_rfl (by omega)).1
    have hlast := hfrom (offset + size - 1) (by omega) (by omega)
    have hreach := hplace.reach _ d (div_mul_lt (by omega) _) hlast
    have hend : offset + size - 1 < ((offset + size - 1) / sizes.blockSize + 1) * sizes.blockSize :=
      Nat.mul_comm _ sizes.blockSize ▸ Nat.lt_mul_div_succ (offset + size - 1) hblock
    have hafter : offset + size ≤ dataSize sizes (good sizes inode.extents) := by omega
    rw [readFileData_inside hinside, readFileData_inside hafter]
    refine (readLoop_eq le_rfl hblock hfirst.1 fun p hp hlt ↦ ?_).trans
      (readLoop_eq le_rfl hblock hfirst.1 fun p hp hlt ↦ ?_).symm
    · obtain ⟨d', hd', hsource⟩ := hplace.place _ d (div_mul_lt (by omega) _) (hfrom p hp hlt)
      exact ⟨d', (findExtent_clear inode.inodeId inode.extents _).trans hd',
        (findExtent_covers hd').1, (findExtent_covers hd').2, hsource⟩
    · have hcovers := findExtent_covers (hfrom p hp hlt).1
      exact ⟨d, (hfrom p hp hlt).1, hcovers.1, hcovers.2, rfl⟩
  · dsimp only
    rw [List.getElem?_map, he, Option.map_some, clear_of_good hgood]
  · rw [List.getElem?_map, Option.map_eq_some_iff] at he
    obtain ⟨e', he', rfl⟩ := he
    by_cases hbad' : Bad sizes.totalBlocks e'
    · exact absurd (clear_of_bad hbad') hzero
    · rw [clear_of_good hbad', he']

/-- A disk on which the bytes of one source are told from all others. -/
def marked (blockSize : ℕ) (s : Source) : Store where
  block b := some fun _ ↦ if Source.plain b = s then 1 else 0
  group start count := some fun i ↦ if Source.packed start count (i / blockSize) = s then 1 else 0

theorem byte_marked {blockSize off : ℕ} (hoff : off < blockSize) (s s' : Source) :
    s'.byte blockSize (marked blockSize s) off = some (if s' = s then 1 else 0) := by
  cases s' with
  | plain block => rfl
  | packed start count index =>
    have hdiv : (index * blockSize + off) / blockSize = index := by
      rw [Nat.mul_comm, Nat.mul_add_div (Nat.zero_lt_of_lt hoff), Nat.div_eq_of_lt hoff,
        Nat.add_zero]
    show some (if Source.packed start count ((index * blockSize + off) / blockSize) = s then 1
      else 0) = _
    rw [hdiv]

/-- One byte of a file whose blocks are told apart. -/
theorem readFileData_marked {p : ℕ} (s : Source) (hblock : 0 < sizes.blockSize)
    (hp : p < inode.fileSize)
    (hfind : findExtent overflow inode.inodeId inode.extents (p / sizes.blockSize) = some d) :
    readFileData sizes.blockSize (marked sizes.blockSize s) overflow inode p 1 =
      some [if source d (p / sizes.blockSize) = s then 1 else 0] := by
  have hcovers := findExtent_covers hfind
  rw [readFileData_inside hp, readLoop_eq le_rfl hblock hcovers.1 fun q hq hlt ↦ ?_]
  · show (List.mapM _ [p] : Option (List UInt8)) = _
    rw [List.mapM_cons, byteAt, byte_marked (Nat.mod_lt p hblock)]
    rfl
  · obtain rfl : q = p := by omega
    exact ⟨d, hfind, hcovers.1, hcovers.2, rfl⟩

/-- A byte that is read as before, whatever the disk holds, is inside the new size and has its
source. -/
theorem place_of_keepsGood {p : ℕ} (hbad : ∃ e ∈ inode.extents, Bad sizes.totalBlocks e)
    (hkeeps : KeepsGood sizes overflow inode (validateInode sizes inode).1)
    (hp : p < inode.fileSize) (hfrom : ReadFrom sizes overflow inode (p / sizes.blockSize) d) :
    p < dataSize sizes (good sizes inode.extents) ∧ ∃ d',
      findExtent overflow inode.inodeId (good sizes inode.extents) (p / sizes.blockSize) = some d' ∧
        source d' (p / sizes.blockSize) = source d (p / sizes.blockSize) := by
  have hblock := sizes.blockSize_pos
  have hoff := Nat.mod_lt p hblock
  rw [validateInode_bad hbad] at hkeeps
  have hread := hkeeps.reads (marked sizes.blockSize (source d (p / sizes.blockSize))) p 1 d hp
    fun q hq hlt ↦ by
      obtain rfl : q = p := by omega
      exact hfrom
  rw [readFileData_marked _ hblock hp hfrom.1, if_pos rfl] at hread
  have hinside : p < dataSize sizes (good sizes inode.extents) := by
    by_contra hend
    rw [readFileData, if_pos (Nat.not_lt.mp hend)] at hread
    cases hread
  refine ⟨hinside, ?_⟩
  cases hfind : findExtent overflow inode.inodeId (good sizes inode.extents)
      (p / sizes.blockSize) with
  | none =>
    rw [readFileData_inside hinside, readLoop, findExtent_clear, hfind] at hread
    cases hread
  | some d' =>
    rw [readFileData_marked _ hblock hinside
      ((findExtent_clear inode.inodeId inode.extents _).trans hfind)] at hread
    refine ⟨d', rfl, ?_⟩
    by_contra hother
    rw [if_neg hother] at hread
    cases hread

/-- The repair keeps the good extents of an inode if and only if none of its inline extents is bad,
or those that are valid are in their place without the bad ones. -/
theorem keepsGood_iff (sizes : Sizes) (overflow : OverflowTree) (inode : Inode) :
    KeepsGood sizes overflow inode (validateInode sizes inode).1 ↔
      (∀ e ∈ inode.extents, ¬Bad sizes.totalBlocks e) ∨ InPlace sizes overflow inode := by
  by_cases hgood : ∀ e ∈ inode.extents, ¬Bad sizes.totalBlocks e
  · refine iff_of_true ?_ (Or.inl hgood)
    rw [validateInode_good hgood]
    exact ⟨fun _ _ _ _ _ _ ↦ rfl, fun _ ↦ rfl, rfl, fun _ _ he _ ↦ he, fun _ _ he _ ↦ he⟩
  · have hbad : ∃ e ∈ inode.extents, Bad sizes.totalBlocks e := by
      simpa only [not_forall, not_not, exists_prop] using hgood
    rw [or_iff_right hgood]
    refine ⟨fun hkeeps ↦ ⟨fun n d hn hfrom ↦ ?_, fun n d hn hfrom ↦ ?_, fun hlogical ↦ ?_⟩,
      keepsGood_of_inPlace hbad⟩
    · have hdiv : n * sizes.blockSize / sizes.blockSize = n :=
        Nat.mul_div_cancel n sizes.blockSize_pos
      have hplace := (place_of_keepsGood hbad hkeeps hn (hdiv.symm ▸ hfrom)).2
      rwa [hdiv] at hplace
    · have hblock := sizes.blockSize_pos
      have hnext : (n + 1) * sizes.blockSize = n * sizes.blockSize + sizes.blockSize :=
        Nat.succ_mul n sizes.blockSize
      generalize hend : min inode.fileSize ((n + 1) * sizes.blockSize) = stop
      have hdiv : (stop - 1) / sizes.blockSize = n := Nat.div_eq_of_lt_le (by omega) (by omega)
      have hplace := place_of_keepsGood hbad hkeeps (p := stop - 1) (by omega)
        (hdiv.symm ▸ hfrom)
      have hinside := hplace.1
      omega
    · have hsize := hkeeps.size_eq hlogical
      rwa [validateInode_bad hbad] at hsize

/-- A file whose first inline extent is bad. -/
def badFirst : Inode := ⟨7, .regular, 8192, [⟨0, 0, 1⟩, ⟨10, 1, 1⟩]⟩

/-- The second block of the file is in a valid extent, which moves to the first place. -/
theorem badFirst_not_keepsGood : ¬KeepsGood ⟨4096, 100, by decide⟩ .empty badFirst
      (validateInode ⟨4096, 100, by decide⟩ badFirst).1 := fun hkeeps ↦ by
  have hread := hkeeps.reads ⟨fun _ ↦ some fun _ ↦ 0, fun _ _ ↦ none⟩ 4096 1 ⟨1, 1, 10, 1⟩
    (by decide) fun p hp hlt ↦ by
      obtain rfl : p = 4096 := by omega
      exact ⟨rfl, by decide⟩
  revert hread
  decide

end Obmafs3.InlineExtents
