import Obmafs3.Disc.Aes

/-!
# The groups of a Wii partition

A group is a block of hashes and a block of data, each enciphered with the title key. The chain of
the data starts with bytes of the enciphered hashes, which are the same on both sides, so
enciphering a group and deciphering it undo each other.
-/

set_option autoImplicit false

namespace Obmafs3

/-- The size of the hash block of a group. -/
def wiiHashSize : ℕ := 0x400

/-- The size of the data block of a group. -/
def wiiDataSize : ℕ := 0x7C00

/-- `ngc_wii_decrypt_group`: the hash block and the data block. -/
def ngcWiiDecryptGroup (titleKey input : List UInt8) : List UInt8 × List UInt8 :=
  let hashBlock := aes128CbcDecrypt titleKey (List.replicate 16 0) (input.take wiiHashSize)
  -- The chain of the data starts with enciphered bytes, not with those of `hashBlock`.
  let dataIv := (input.drop 0x3D0).take 16
  (hashBlock, aes128CbcDecrypt titleKey dataIv ((input.drop wiiHashSize).take wiiDataSize))

/-- `ngc_wii_encrypt_group`. -/
def ngcWiiEncryptGroup (titleKey hashBlock dataIn : List UInt8) : List UInt8 :=
  let out := aes128CbcEncrypt titleKey (List.replicate 16 0) (hashBlock.take wiiHashSize)
  let dataIv := (out.drop 0x3D0).take 16
  out ++ aes128CbcEncrypt titleKey dataIv (dataIn.take wiiDataSize)

/-- The start of the chain of the data lies in the hash block. -/
theorem take_drop_dataIv {hashes rest : List UInt8} (hlength : hashes.length = wiiHashSize) :
    ((hashes ++ rest).drop 0x3D0).take 16 = (hashes.drop 0x3D0).take 16 := by
  rw [wiiHashSize] at hlength
  rw [List.drop_append_of_le_length (by omega), List.take_append_of_le_length]
  rw [List.length_drop]
  omega

theorem ngcWiiDecryptGroup_encrypt {titleKey hashBlock data : List UInt8}
    (hhash : hashBlock.length = wiiHashSize) (hdata : data.length = wiiDataSize) :
    ngcWiiDecryptGroup titleKey (ngcWiiEncryptGroup titleKey hashBlock data) =
      (hashBlock, data) := by
  have hhashParts : 16 ∣ hashBlock.length := by rw [hhash]; decide
  have hdataParts : 16 ∣ data.length := by rw [hdata]; decide
  simp only [ngcWiiEncryptGroup, List.take_of_length_le hhash.le, List.take_of_length_le hdata.le]
  generalize hout : aes128CbcEncrypt titleKey (List.replicate 16 0) hashBlock = out
  have houtSize : out.length = wiiHashSize := by rw [← hout, length_aes128CbcEncrypt hhashParts, hhash]
  have hrest (iv : List UInt8) :
      (aes128CbcEncrypt titleKey iv data).take wiiDataSize = aes128CbcEncrypt titleKey iv data := by
    apply List.take_of_length_le
    rw [length_aes128CbcEncrypt hdataParts, hdata]
  simp only [ngcWiiDecryptGroup, List.take_left' houtSize, List.drop_left' houtSize,
    take_drop_dataIv houtSize, hrest]
  rw [← hout, aes128CbcDecrypt_encrypt hhashParts, aes128CbcDecrypt_encrypt hdataParts]

theorem ngcWiiEncryptGroup_decrypt {titleKey group : List UInt8}
    (hgroup : group.length = wiiHashSize + wiiDataSize) :
    ngcWiiEncryptGroup titleKey (ngcWiiDecryptGroup titleKey group).1
      (ngcWiiDecryptGroup titleKey group).2 = group := by
  have hhash : (group.take wiiHashSize).length = wiiHashSize := by
    rw [List.length_take, hgroup]
    exact min_eq_left (Nat.le_add_right _ _)
  have hdata : (group.drop wiiHashSize).length = wiiDataSize := by
    rw [List.length_drop, hgroup, Nat.add_sub_cancel_left]
  have hhashParts : 16 ∣ (group.take wiiHashSize).length := by rw [hhash]; decide
  have hdataParts : 16 ∣ (group.drop wiiHashSize).length := by rw [hdata]; decide
  have hchain : (group.drop 0x3D0).take 16 = ((group.take wiiHashSize).drop 0x3D0).take 16 := by
    conv_lhs => rw [← List.take_append_drop wiiHashSize group]
    exact take_drop_dataIv hhash
  have hhashSize (iv : List UInt8) : (aes128CbcDecrypt titleKey iv (group.take wiiHashSize)).take
      wiiHashSize = aes128CbcDecrypt titleKey iv (group.take wiiHashSize) := by
    apply List.take_of_length_le
    rw [length_aes128CbcDecrypt hhashParts, hhash]
  have hdataSize (iv : List UInt8) : (aes128CbcDecrypt titleKey iv (group.drop wiiHashSize)).take
      wiiDataSize = aes128CbcDecrypt titleKey iv (group.drop wiiHashSize) := by
    apply List.take_of_length_le
    rw [length_aes128CbcDecrypt hdataParts, hdata]
  simp only [ngcWiiDecryptGroup, ngcWiiEncryptGroup, List.take_of_length_le hdata.le, hchain,
    hhashSize, hdataSize, aes128CbcEncrypt_decrypt hhashParts, aes128CbcEncrypt_decrypt hdataParts]
  exact List.take_append_drop wiiHashSize group

/-- Enciphering and deciphering undo each other, for whole buffers with any key and any start and for
groups with any title key. -/
theorem wiiGroups_inverse (key : List UInt8) : (∀ iv input : List UInt8, 16 ∣ input.length →
      aes128CbcDecrypt key iv (aes128CbcEncrypt key iv input) = input ∧
        aes128CbcEncrypt key iv (aes128CbcDecrypt key iv input) = input) ∧
    (∀ hashBlock data : List UInt8, hashBlock.length = wiiHashSize → data.length = wiiDataSize →
      ngcWiiDecryptGroup key (ngcWiiEncryptGroup key hashBlock data) = (hashBlock, data)) ∧
    ∀ group : List UInt8, group.length = wiiHashSize + wiiDataSize →
      ngcWiiEncryptGroup key (ngcWiiDecryptGroup key group).1 (ngcWiiDecryptGroup key group).2 =
        group :=
  ⟨fun _ _ hdvd ↦ ⟨aes128CbcDecrypt_encrypt hdvd, aes128CbcEncrypt_decrypt hdvd⟩,
    fun _ _ hhash hdata ↦ ngcWiiDecryptGroup_encrypt hhash hdata,
    fun _ hgroup ↦ ngcWiiEncryptGroup_decrypt hgroup⟩

/-- A buffer of one block, a group of zeros in its two parts, and one in one piece. -/
theorem wiiGroups_inverse_zeros :
    let key : List UInt8 := List.replicate 16 1
    let hashBlock : List UInt8 := List.replicate wiiHashSize 0
    let data : List UInt8 := List.replicate wiiDataSize 0
    let group : List UInt8 := List.replicate (wiiHashSize + wiiDataSize) 0
    aes128CbcDecrypt key key (aes128CbcEncrypt key key key) = key ∧
      ngcWiiDecryptGroup key (ngcWiiEncryptGroup key hashBlock data) = (hashBlock, data) ∧
      ngcWiiEncryptGroup key (ngcWiiDecryptGroup key group).1 (ngcWiiDecryptGroup key group).2 =
        group :=
  ⟨((wiiGroups_inverse (List.replicate 16 1)).1 _ _ (by decide)).1,
    (wiiGroups_inverse (List.replicate 16 1)).2.1 _ _ (List.length_replicate ..)
      (List.length_replicate ..),
    (wiiGroups_inverse (List.replicate 16 1)).2.2 _ (List.length_replicate ..)⟩

end Obmafs3
