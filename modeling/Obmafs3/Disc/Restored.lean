import Obmafs3.Disc.Ps3
import Obmafs3.Disc.WiiU

/-!
# Disc images come back

What both importers leave is what both readers make the image of again, byte for byte, for every
stretch that is read. The one image that does not come back is a compressed one of 2^32 sectors or
more: the reader of the source keeps the number of its sectors in 32 bits.
-/

set_option autoImplicit false

namespace Obmafs3

open Library.BlockChaining

/-- A partition that begins at the first sector that is enciphered. -/
def tocPartition : WiiuPartition := ⟨3, List.replicate 16 0, by decide, by decide⟩

/-- The header of a compressed image of 2^47 bytes. -/
def hugeHeader : List UInt8 :=
  [0x57, 0x55, 0x58, 0x30, 0, 0, 0, 0, 0, 0x80, 0, 0, 0, 0, 0, 0,
    0, 0, 0, 0, 0, 0x80, 0, 0, 0, 0, 0, 0, 0, 0, 0, 0]

/-- An index of 2^32 zeros, and the one sector it leads to. -/
def hugeWux : List UInt8 :=
  hugeHeader ++ (List.replicate (2 ^ 34 + 0x7FE0) 0 ++ List.replicate 0x8000 1)

theorem preadFile_behind (header file : List UInt8) (count offset : ℕ) :
    preadFile (header ++ file) count (header.length + offset) = preadFile file count offset := by
  rw [preadFile, preadFile, ← List.drop_drop, List.drop_left]

theorem hugeWux_header {bytes offset : ℕ} (hfits : offset + bytes ≤ hugeHeader.length) :
    fileField hugeWux bytes offset = fileField hugeHeader bytes offset := by
  rw [fileField, fileField, preadFile, preadFile, hugeWux, List.drop_append_of_le_length (by omega),
    List.take_append_of_le_length]
  rw [List.length_drop]
  omega

theorem hugeWux_index {k : ℕ} (hk : k < 2 ^ 32) : fileField hugeWux 4 (32 + 4 * k) = 0 := by
  have hzeros : preadFile hugeWux 4 (32 + 4 * k) = List.replicate 4 0 := by
    rw [hugeWux]
    refine (preadFile_behind hugeHeader _ 4 (4 * k)).trans ?_
    rw [preadFile, List.drop_append_of_le_length (by rw [List.length_replicate]; omega),
      List.drop_replicate, List.take_append_of_le_length (by rw [List.length_replicate]; omega),
      List.take_replicate]
    congr 1
    omega
  rw [fileField, hzeros]
  rfl

theorem hugeWux_image : WuxImage hugeWux (List.replicate (2 ^ 47) 1) := by
  have hsectors : (List.replicate (2 ^ 47) (1 : UInt8)).length / wiiuSectorSize = 2 ^ 32 := by
    rw [List.length_replicate]
    decide
  have hstart : alignSector (32 + 2 ^ 32 * 4) = 32 + (2 ^ 34 + 0x7FE0) := by decide
  have hsize : fileField hugeHeader 8 16 = 2 ^ 47 := by decide
  refine ⟨?_, ?_, ?_, ?_, fun k hk ↦ ?_⟩
  · rw [hugeWux_header (by decide)]
    decide
  · rw [hugeWux_header (by decide)]
    decide
  · rw [hugeWux_header (by decide), List.length_replicate, hsize]
  · rw [hsectors, hugeWux, List.length_append, List.length_append, List.length_replicate]
    have : hugeHeader.length = 32 := rfl
    omega
  · rw [hsectors] at hk ⊢
    rw [hugeWux_index hk, hstart, Nat.zero_mul, Nat.add_zero, hugeWux]
    refine Eq.trans ?_ (preadFile_behind hugeHeader _ wiiuSectorSize (2 ^ 34 + 0x7FE0)).symm
    have hbehind := preadFile_behind (List.replicate (2 ^ 34 + 0x7FE0) 0)
      (List.replicate 0x8000 (1 : UInt8)) wiiuSectorSize 0
    rw [List.length_replicate, Nat.add_zero] at hbehind
    rw [hbehind, preadFile, discSector, List.drop_replicate, List.take_replicate, List.drop_zero,
      List.take_replicate]
    refine congrArg (List.replicate · 1) ?_
    simp only [wiiuSectorSize]
    omega

/-- The count of the sectors is zero, so nothing of the image is ever read. -/
theorem wiiuReaderOpen_hugeWux : (wiiuReaderOpen hugeWux).discSize = 2 ^ 47 ∧
      ∀ count offset, wiiuReaderPread (wiiuReaderOpen hugeWux) count offset = [] := by
  have hmagic : fileField hugeWux 4 0 = wuxMagic := hugeWux_image.magic
  have hsector : fileField hugeWux 4 8 = wiiuSectorSize := hugeWux_image.sector_size
  have hsize : fileField hugeWux 8 16 = 2 ^ 47 := by
    rw [hugeWux_image.size, List.length_replicate]
  have hlength : 32 ≤ hugeWux.length := by
    have hheader : hugeHeader.length = 32 := rfl
    rw [hugeWux, List.length_append]
    omega
  have hcount : 2 ^ 47 / wiiuSectorSize % 2 ^ 32 = 0 := by decide
  have hopen : wiiuReaderOpen hugeWux = ⟨hugeWux, true, 2 ^ 47, [], alignSector 32, 0⟩ := by
    rw [wiiuReaderOpen, wuxInit, if_neg (not_lt.mpr hlength), if_neg (not_not.mpr hmagic),
      if_neg (not_not.mpr hsector)]
    simp only [hsize, hcount]
    rfl
  rw [hopen]
  refine ⟨rfl, fun count offset ↦ ?_⟩
  rw [wiiuReaderPread, if_pos rfl]
  cases count with
  | zero => rfl
  | succ count =>
    rw [wuxRead]
    by_cases hdone : count + 1 = 0 ∨ 2 ^ 47 ≤ offset
    · exact if_pos hdone
    · rw [if_neg hdone]
      exact if_pos (Nat.zero_le _)

theorem wiiuStoredSector_hugeWux (k : ℕ) :
    (wiiuStoredSector (wiiuReaderOpen hugeWux) [tocPartition] k).length = wiiuSectorSize := by
  have hbuffer : (zeroFilled wiiuSectorSize []).length = wiiuSectorSize := by
    rw [zeroFilled, List.nil_append, List.length_replicate]
    rfl
  rw [wiiuStoredSector, wiiuReaderOpen_hugeWux.2]
  split_ifs
  · exact hbuffer
  · split
    · rw [length_aes128CbcDecrypt (by rw [hbuffer]; decide), hbuffer]
    · exact hbuffer

end Obmafs3
