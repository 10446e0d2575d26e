import Obmafs3.Mount.Superblock

/-!
# A superblock update that is cut off

`obmafs3_sb_write` writes the first copy of the superblock and then the backup, and both may be cut
off at any byte. `crashSafe_iff` says for which updates the open path uses the old superblock or the
new one whatever the cut. Since it reads no checksum, a cut inside the first copy is noticed only
when it makes a field zero that must not be.
-/

set_option autoImplicit false

namespace Obmafs3

open Library.ByteImage

/-! ### What a write to the first copy leaves as it was -/

theorem findSome?_congr {α β : Type} {f g : α → Option β} {l : List α}
    (h : ∀ a ∈ l, f a = g a) : l.findSome? f = l.findSome? g := by
  induction l with
  | nil => rfl
  | cons a l ih =>
    rw [List.findSome?_cons, List.findSome?_cons, h a List.mem_cons_self,
      ih fun b hb ↦ h b (List.mem_cons_of_mem a hb)]

/-- The fallback does not read the first copy. -/
theorem recoverSb_congr {img img' : Image} (hsize : img'.size = img.size)
    (hlarge : 2 * sbSize ≤ img.size) (hlt : img.size < 2 ^ 63)
    (hsame : ∀ off, sbSize ≤ off → sbReadAt img' off = sbReadAt img off) :
    recoverSb img' = recoverSb img := by
  refine findSome?_congr fun bs hbs ↦ ?_
  unfold tryBackup sbReadBackup
  rw [hsize]
  split_ifs with hshort
  · rfl
  · rfl
  · rfl
  · rfl
  · have hoffset : sbSize ≤ backupSbLba img.size bs * bs % 2 ^ 64 ∨
        img.size < backupSbLba img.size bs * bs % 2 ^ 64 + sbSize := by
      unfold backupSbLba sbSize at *
      simp only [tryBs, List.mem_cons, List.not_mem_nil, or_false] at hbs
      rcases hbs with rfl | rfl | rfl | rfl | rfl | rfl | rfl | rfl <;> omega
    rcases hoffset with hbehind | hbeyond
    · rw [hsame _ hbehind]
    · rw [sbReadAt_beyond hbeyond, sbReadAt_beyond (hsize ▸ hbeyond)]

/-! ### The update -/

/-- A file that stores a valid superblock in both copies, and the superblock that
`obmafs3_sb_write` is to replace it with. -/
structure SbUpdate where
  img : Image
  old : Superblock
  new : Superblock
  valid : old.Valid
  primary : sbReadAt img 0 = some old
  backup : sbReadAt img old.backupOffset = some old
  apart : sbSize ≤ old.backupOffset
  size_lt : img.size < 2 ^ 63
  block_size : new.blockSize = old.blockSize
  total_bytes : new.totalBytes = old.totalBytes

namespace SbUpdate

variable (xxh64 : List UInt8 → UInt64) (u : SbUpdate)

/-- The superblock that the update writes. -/
def written : Superblock := u.new.sealed xxh64

/-- The file when only the first `n` bytes of the writes reach it. -/
def torn (n : ℕ) : Image := Image.tear n (u.new.sbWrite xxh64) u.img

/-- Whatever the cut, the open path goes on with one of the two superblocks. -/
def CrashSafe : Prop :=
  ∀ n, openSb (u.torn xxh64 n) = .ok u.old ∨ openSb (u.torn xxh64 n) = .ok (u.written xxh64)

/-- The first `n` bytes of the new superblock before the rest of the old one. -/
def mixture (n : ℕ) : Superblock where
  bytes := (u.written xxh64).bytes.take n ++ u.old.bytes.drop n
  length_bytes := by
    rw [List.length_append, List.length_take, List.length_drop, Superblock.length_bytes,
      Superblock.length_bytes]
    omega

/-- The fallback finds the backup: the superblock has the size of the file, and the first block
size with a valid superblock in its last block is that of the superblock. -/
def FoundByTrying : Prop :=
  u.old.totalBytes = u.img.size ∧
    tryBs.find? (fun bs ↦ (tryBackup u.img bs).isSome) = some u.old.blockSize

variable {xxh64 u}

variable {sb : Superblock}

theorem backupOffset_eq (hblock : sb.blockSize = u.old.blockSize)
    (htotal : sb.totalBytes = u.old.totalBytes) : sb.backupOffset = u.old.backupOffset := by
  rw [Superblock.backupOffset, hblock, htotal, Superblock.backupOffset]

theorem blockSize_written : (u.written xxh64).blockSize = u.old.blockSize :=
  (Superblock.blockSize_sealed xxh64).trans u.block_size

theorem totalBytes_written : (u.written xxh64).totalBytes = u.old.totalBytes :=
  (Superblock.totalBytes_sealed xxh64).trans u.total_bytes

theorem backup_inside : u.old.backupOffset + sbSize ≤ u.img.size :=
  (Image.pread_eq_some.mp (sbReadAt_eq_some.mp u.backup)).1

/-- Both writes are made. -/
theorem sbWrite_new : u.new.sbWrite xxh64 =
    [(0, (u.written xxh64).bytes), (u.old.backupOffset, (u.written xxh64).bytes)] := by
  obtain ⟨-, hblock, -, htotal, -⟩ := Superblock.valid_iff.mp u.valid
  have hinside := u.backup_inside
  have hlt := u.size_lt
  have hlba : 0 < backupSbLba u.old.totalBytes u.old.blockSize := by
    refine Nat.pos_of_ne_zero fun hzero ↦ ?_
    have hapart := u.apart
    rw [Superblock.backupOffset, hzero, Nat.zero_mul, Nat.zero_mod] at hapart
    exact absurd hapart (by decide)
  change (0, (u.written xxh64).bytes) :: (if _ then _ else _) = _
  change _ :: (if 0 < (u.written xxh64).totalBytes ∧ 0 < (u.written xxh64).blockSize ∧
    0 < backupSbLba (u.written xxh64).totalBytes (u.written xxh64).blockSize ∧
      (u.written xxh64).backupOffset < 2 ^ 63 then
        [((u.written xxh64).backupOffset, (u.written xxh64).bytes)] else []) = _
  rw [backupOffset_eq blockSize_written totalBytes_written, blockSize_written, totalBytes_written,
    if_pos ⟨Nat.pos_of_ne_zero htotal, Nat.pos_of_ne_zero hblock, hlba, by omega⟩]

theorem torn_eq (n : ℕ) : u.torn xxh64 n =
    (u.img.pwrite 0 ((u.written xxh64).bytes.take n)).pwrite u.old.backupOffset
      ((u.written xxh64).bytes.take (n - sbSize)) := by
  rw [torn, sbWrite_new, Image.tear, Image.tear, Image.tear, Superblock.length_bytes]

theorem mixture_of_le (u : SbUpdate) {n : ℕ} (hn : sbSize ≤ n) : u.mixture xxh64 n = u.written xxh64 := by
  refine Superblock.ext ?_
  unfold mixture
  dsimp only
  rw [List.take_of_length_le ((Superblock.length_bytes _).trans_le hn),
    List.drop_of_length_le ((Superblock.length_bytes _).trans_le hn), List.append_nil]

theorem length_take_le (sb : Superblock) (n : ℕ) : (sb.bytes.take n).length ≤ sbSize := by
  rw [List.length_take, Superblock.length_bytes]
  omega

theorem primary_torn (xxh64 : List UInt8 → UInt64) (u : SbUpdate) (n : ℕ) :
    sbReadAt (u.torn xxh64 n) 0 = some (u.mixture xxh64 n) := by
  have hfirst := length_take_le (u.written xxh64) n
  have hsecond := length_take_le (u.written xxh64) (n - sbSize)
  have hinside := u.backup_inside
  have hapart := u.apart
  rw [sbReadAt_eq_some, torn_eq, Image.pread_pwrite_apart (by rw [Image.size_pwrite] <;> omega)
    (by omega)]
  exact Image.pread_pwrite_take (sbReadAt_eq_some.mp u.primary) (Superblock.length_bytes _) n

/-- As long as the first copy is being written, the fallback sees what it saw before. -/
theorem recoverSb_torn {n : ℕ} (hn : n ≤ sbSize) :
    recoverSb (u.torn xxh64 n) = recoverSb u.img := by
  have hfirst := length_take_le (u.written xxh64) n
  have hinside := u.backup_inside
  have hapart := u.apart
  rw [torn_eq, Nat.sub_eq_zero_of_le hn, List.take_zero, Image.pwrite_nil]
  have hsize := Image.size_pwrite (show 0 + ((u.written xxh64).bytes.take n).length ≤ u.img.size
    by omega)
  refine recoverSb_congr hsize (by omega) u.size_lt fun off hoff ↦ Option.ext fun sb ↦ ?_
  rw [sbReadAt_eq_some, sbReadAt_eq_some, Image.pread_pwrite_apart (by omega) (by omega)]

/-- Both copies when the writes are complete. -/
theorem backup_torn :
    sbReadAt (u.torn xxh64 (2 * sbSize)) u.old.backupOffset = some (u.written xxh64) := by
  have hfirst := length_take_le (u.written xxh64) (2 * sbSize)
  have hinside := u.backup_inside
  have hapart := u.apart
  have hfar : (u.img.pwrite 0 ((u.written xxh64).bytes.take (2 * sbSize))).pread
      u.old.backupOffset sbSize = u.img.pread u.old.backupOffset sbSize :=
    Image.pread_pwrite_apart (by omega) (by omega)
  have hold := hfar.trans (sbReadAt_eq_some.mp u.backup)
  rw [sbReadAt_eq_some, torn_eq,
    Image.pread_pwrite_take hold (Superblock.length_bytes _) (2 * sbSize - sbSize)]
  have hfull := Superblock.length_bytes (u.written xxh64)
  rw [List.take_of_length_le (by omega), List.drop_of_length_le, List.append_nil]
  rw [Superblock.length_bytes]
  omega

theorem eq_old_of_recoverSb (hrecover : recoverSb u.img = some sb)
    (hblock : sb.blockSize = u.old.blockSize) (htotal : sb.totalBytes = u.old.totalBytes) :
    sb = u.old := by
  obtain ⟨bs, -, htry⟩ := List.exists_of_findSome?_eq_some hrecover
  obtain ⟨-, -, -, hread⟩ := tryBackup_eq_some htry
  rw [backupOffset_eq hblock htotal, u.backup] at hread
  exact (Option.some.inj hread).symm

theorem recoverSb_eq_old : recoverSb u.img = some u.old ↔ u.FoundByTrying := by
  constructor
  · intro hrecover
    obtain ⟨before, bs, behind, hsplit, htry, hnone⟩ := List.findSome?_eq_some_iff.mp hrecover
    obtain ⟨-, rfl, htotal, -⟩ := tryBackup_eq_some htry
    refine ⟨htotal, List.find?_eq_some_iff_append.mpr ⟨?_, before, behind, hsplit, ?_⟩⟩
    · exact congrArg Option.isSome htry
    · intro bs hbs
      rw [hnone bs hbs]
      rfl
  · rintro ⟨htotal, hfind⟩
    obtain ⟨hfound, before, behind, hsplit, hnone⟩ := List.find?_eq_some_iff_append.mp hfind
    obtain ⟨sb, htry⟩ := Option.isSome_iff_exists.mp hfound
    have hrecover : recoverSb u.img = some sb :=
      List.findSome?_eq_some_iff.mpr ⟨before, _, behind, hsplit, htry, fun bs hbs ↦ by
        have hbs := hnone bs hbs
        rwa [Bool.not_eq_true', Option.isSome_eq_false_iff, Option.isNone_iff_eq_none] at hbs⟩
    obtain ⟨-, hblock, hsize, -⟩ := tryBackup_eq_some htry
    rw [hrecover, eq_old_of_recoverSb hrecover hblock (hsize.trans htotal.symm)]

/-- A complete update to a superblock that is not valid leaves no superblock to use. -/
theorem valid_of_crashSafe (hsafe : u.CrashSafe xxh64) : (u.written xxh64).Valid := by
  by_contra hinvalid
  have hne : u.old ≠ u.written xxh64 := fun heq ↦ hinvalid (heq ▸ u.valid)
  have hread := u.primary_torn xxh64 (2 * sbSize)
  rw [u.mixture_of_le (by decide)] at hread
  have hopen := openSb_of_not_valid hread hinvalid
  cases hrecover : recoverSb (u.torn xxh64 (2 * sbSize)) with
  | none =>
    rw [hrecover] at hopen
    rcases hsafe (2 * sbSize) with hold | hnew
    · exact nomatch hopen.symm.trans hold
    · exact nomatch hopen.symm.trans hnew
  | some sb =>
    rw [hrecover] at hopen
    obtain ⟨bs, -, htry⟩ := List.exists_of_findSome?_eq_some hrecover
    obtain ⟨hvalid, -, -, hthere⟩ := tryBackup_eq_some htry
    rcases hsafe (2 * sbSize) with hold | hnew
    · obtain rfl : sb = u.old := Except.ok.inj (hopen.symm.trans hold)
      rw [u.backup_torn] at hthere
      exact hne (Option.some.inj hthere).symm
    · obtain rfl : sb = u.written xxh64 := Except.ok.inj (hopen.symm.trans hnew)
      exact hinvalid hvalid

/-- The update is safe exactly when the new superblock is valid and either no cut mixes the two
superblocks or the fallback finds the backup and no mixture is valid. -/
theorem crashSafe_iff : u.CrashSafe xxh64 ↔ (u.written xxh64).Valid ∧
    ((∀ n, u.mixture xxh64 n = u.old ∨ u.mixture xxh64 n = u.written xxh64) ∨
      u.FoundByTrying ∧ ∀ n, u.mixture xxh64 n = u.old ∨ u.mixture xxh64 n = u.written xxh64 ∨
        ¬(u.mixture xxh64 n).Valid) := by
  constructor
  · intro hsafe
    have hvalid := valid_of_crashSafe hsafe
    refine ⟨hvalid, or_iff_not_imp_left.mpr fun hmixes ↦ ?_⟩
    -- a cut whose mixture is neither of the two is inside the first copy and must be noticed
    have hnoticed (n : ℕ) (hold : u.mixture xxh64 n ≠ u.old)
        (hnew : u.mixture xxh64 n ≠ u.written xxh64) : ¬(u.mixture xxh64 n).Valid := by
      intro hmixture
      have hopen := openSb_of_valid (u.primary_torn xxh64 n) hmixture
      rcases hsafe n with h | h
      · exact hold (Except.ok.inj (hopen.symm.trans h))
      · exact hnew (Except.ok.inj (hopen.symm.trans h))
    constructor
    · push Not at hmixes
      obtain ⟨n, hold, hnew⟩ := hmixes
      have hinside : n ≤ sbSize := by
        by_contra hbehind
        exact hnew (u.mixture_of_le (by omega))
      have hopen := openSb_of_not_valid (u.primary_torn xxh64 n) (hnoticed n hold hnew)
      rw [recoverSb_torn hinside] at hopen
      rw [← recoverSb_eq_old]
      cases hrecover : recoverSb u.img with
      | none =>
        rw [hrecover] at hopen
        rcases hsafe n with h | h
        · exact nomatch hopen.symm.trans h
        · exact nomatch hopen.symm.trans h
      | some sb =>
        rw [hrecover] at hopen
        rcases hsafe n with h | h
        · rw [Except.ok.inj (hopen.symm.trans h)]
        · obtain rfl : sb = u.written xxh64 := Except.ok.inj (hopen.symm.trans h)
          rw [eq_old_of_recoverSb hrecover blockSize_written totalBytes_written]
    · intro n
      by_cases hold : u.mixture xxh64 n = u.old
      · exact Or.inl hold
      · by_cases hnew : u.mixture xxh64 n = u.written xxh64
        · exact Or.inr (Or.inl hnew)
        · exact Or.inr (Or.inr (hnoticed n hold hnew))
  · rintro ⟨hvalid, hcuts⟩ n
    have hread := u.primary_torn xxh64 n
    have hwhole : u.mixture xxh64 n = u.old ∨ u.mixture xxh64 n = u.written xxh64 ∨
        u.FoundByTrying ∧ n ≤ sbSize ∧ ¬(u.mixture xxh64 n).Valid := by
      rcases hcuts with hnever | ⟨hfound, hnoticed⟩
      · exact (hnever n).imp_right Or.inl
      · rcases hnoticed n with hold | hnew | hinvalid
        · exact Or.inl hold
        · exact Or.inr (Or.inl hnew)
        · refine Or.inr (Or.inr ⟨hfound, ?_, hinvalid⟩)
          by_contra hbehind
          exact hinvalid (u.mixture_of_le (show sbSize ≤ n by omega) ▸ hvalid)
    rcases hwhole with hold | hnew | ⟨hfound, hinside, hinvalid⟩
    · exact Or.inl (openSb_of_valid (hold ▸ hread) u.valid)
    · exact Or.inr (openSb_of_valid (hnew ▸ hread) hvalid)
    · refine Or.inl ?_
      rw [openSb_of_not_valid hread hinvalid, recoverSb_torn hinside, recoverSb_eq_old.mpr hfound]
      rfl

/-! ### A cut that is not noticed -/

/-- A superblock of a volume of 18 blocks of 4096 bytes with zeros in the other fields. -/
def plainSb : Superblock :=
  Superblock.mk (List.replicate sbSize 0) List.length_replicate
    |>.put 0 (bytesOf 8 sbMagic) (by decide)
    |>.put 24 (bytesOf 8 4096) (by decide)
    |>.put 32 (bytesOf 8 65536) (by decide)
    |>.put 40 (bytesOf 8 73728) (by decide)
    |>.put 48 (bytesOf 8 1) (by decide)
    |>.put 56 (bytesOf 8 3) (by decide)

/-- The same with a `next_inode_id`. -/
def withNextInodeId (nextInodeId : ℕ) : Superblock :=
  plainSb.put 146 (bytesOf 8 nextInodeId) (by rw [length_bytesOf]; decide)

theorem valid_plainSb : plainSb.Valid := by decide +kernel

theorem blockSize_withNextInodeId (n : ℕ) : (withNextInodeId n).blockSize = 4096 := by
  rw [withNextInodeId, Superblock.blockSize, Superblock.field_put_apart (Or.inl (by decide))]
  decide +kernel

theorem totalBytes_withNextInodeId (n : ℕ) : (withNextInodeId n).totalBytes = 73728 := by
  rw [withNextInodeId, Superblock.totalBytes, Superblock.field_put_apart (Or.inl (by decide))]
  decide +kernel

theorem backupOffset_withNextInodeId (n : ℕ) : (withNextInodeId n).backupOffset = 69632 := by
  rw [Superblock.backupOffset, blockSize_withNextInodeId, totalBytes_withNextInodeId]
  decide

/-- The file of such a volume with both copies. -/
def withCopies (sb : Superblock) : Image :=
  ((Image.zeros 73728).pwrite 0 sb.bytes).pwrite 69632 sb.bytes

theorem size_withCopies (sb : Superblock) : (withCopies sb).size = 73728 := by
  have hlength : sb.bytes.length = 4080 := sb.length_bytes
  have hfirst : ((Image.zeros 73728).pwrite 0 sb.bytes).size = 73728 :=
    Image.size_pwrite (show 0 + sb.bytes.length ≤ 73728 by omega)
  rw [withCopies, Image.size_pwrite (by omega), hfirst]

theorem copies_withCopies (sb : Superblock) : sbReadAt (withCopies sb) 0 = some sb ∧
    sbReadAt (withCopies sb) 69632 = some sb := by
  have hlength : sb.bytes.length = 4080 := sb.length_bytes
  have hfirst : ((Image.zeros 73728).pwrite 0 sb.bytes).size = 73728 :=
    Image.size_pwrite (show 0 + sb.bytes.length ≤ 73728 by omega)
  constructor
  · rw [sbReadAt_eq_some, withCopies, Image.pread_pwrite_apart (by omega) (Or.inl (by decide))]
    exact Image.pread_pwrite sb.length_bytes (by decide)
  · rw [sbReadAt_eq_some, withCopies]
    exact Image.pread_pwrite sb.length_bytes (by rw [hfirst]; decide)

/-- The volume has given out the inode 2 and goes on to the inode 260. -/
def inodeUpdate : SbUpdate where
  img := withCopies (withNextInodeId 3)
  old := withNextInodeId 3
  new := withNextInodeId 260
  valid := (Superblock.valid_put (by decide)).mpr valid_plainSb
  primary := (copies_withCopies _).1
  backup := by
    rw [backupOffset_withNextInodeId]
    exact (copies_withCopies _).2
  apart := by
    rw [backupOffset_withNextInodeId]
    decide
  size_lt := by
    rw [size_withCopies]
    decide
  block_size := by rw [blockSize_withNextInodeId, blockSize_withNextInodeId]
  total_bytes := by rw [totalBytes_withNextInodeId, totalBytes_withNextInodeId]

/-- A cut between the two bytes of 260 that are not zero leaves the inode 4 as the next one. -/
theorem mixture_inodeUpdate (xxh64 : List UInt8 → UInt64) :
    inodeUpdate.mixture xxh64 147 = withNextInodeId 4 := by
  refine Superblock.ext ?_
  have hnew : (inodeUpdate.written xxh64).bytes.take 147 = (withNextInodeId 260).bytes.take 147 :=
    Superblock.take_sealed xxh64 (by decide)
  unfold mixture
  dsimp only
  rw [hnew]
  decide +kernel

theorem inodeUpdate_not_crashSafe :
    ¬∃ xxh64 : List UInt8 → UInt64, inodeUpdate.CrashSafe xxh64 := by
  rintro ⟨xxh64, hsafe⟩
  have hvalid : (withNextInodeId 4).Valid := (Superblock.valid_put (by decide)).mpr valid_plainSb
  have hread := inodeUpdate.primary_torn xxh64 147
  rw [mixture_inodeUpdate] at hread
  have hopen := openSb_of_valid hread hvalid
  rcases hsafe 147 with hold | hnew
  · have heq : withNextInodeId 4 = withNextInodeId 3 := Except.ok.inj (hopen.symm.trans hold)
    exact absurd heq (by decide +kernel)
  · have heq : withNextInodeId 4 = (withNextInodeId 260).sealed xxh64 :=
      Except.ok.inj (hopen.symm.trans hnew)
    have hfields := congrArg (fun sb : Superblock ↦ sb.field 146 8) heq
    rw [Superblock.field_sealed xxh64 (by decide)] at hfields
    exact absurd hfields (by decide +kernel)

end SbUpdate

end Obmafs3
