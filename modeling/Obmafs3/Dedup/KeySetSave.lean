import Obmafs3.Dedup.Handles
import Obmafs3.Dedup.KeySet
import Obmafs3.Library.ByteImage
import Obmafs3.Library.XxHash

/-!
# The key set on disk

The keys of the set are written to blocks of their own, the most recently used one first, behind a
header with their number and checksum. They are read back from the last one to the first one, so
that each of them becomes the head of the list in its turn: `keysetLoad_save` says that the set
that was saved is the set that is loaded. An empty set leaves nothing to load.
-/

set_option autoImplicit false

namespace Obmafs3

open Library.ByteImage Library.SlotLists Library.XxHash

/-! ### The source -/

/-- `KEYSET_PERSIST_MAGIC`. -/
def keysetPersistMagic : ℕ := 0x53594B44444E4F4D

/-- What the key set reads and changes of a mounted volume: the bitmap, the bytes of the volume and
the place in the superblock. -/
structure KeysetCtx where
  vol : Volume
  img : Image
  keysetLba : ℕ
  keysetBlocks : ℕ

/-- What `obmafs3_dedup_keyset_load` fails with. -/
inductive KeysetError
  | notFound
  | io
  | inval
  | badMagic
  | checksum
  deriving DecidableEq, Repr

namespace KeySet

/-- The loop along the list that packs the keys. -/
def packFrom (ks : KeySet) : (fuel : ℕ) → Option ℕ → List UInt64
  | 0, _ => []
  | _ + 1, none => []
  | fuel + 1, some cur =>
    if ks.key cur ≠ keysetEmpty then ks.key cur :: packFrom ks fuel (ks.pool.lru.next cur)
    else packFrom ks fuel (ks.pool.lru.next cur)

/-- The keys from the head of the list to its tail. -/
def packed (ks : KeySet) : List UInt64 := ks.packFrom (ks.capacity + 1) ks.pool.lru.head

end KeySet

/-- The bytes of an array of keys. -/
def keyBytes (keys : List UInt64) : List UInt8 := keys.flatMap fun key ↦ bytesOf 8 key.toNat

/-- The header, the keys and the zeros up to the end of the last block. -/
def keysetBuf (keys : List UInt64) (bufSize : ℕ) : List UInt8 :=
  bytesOf 8 keysetPersistMagic ++ bytesOf 8 keys.length ++
    bytesOf 8 (xxh64 (keyBytes keys)).toNat ++ keyBytes keys ++
    List.replicate (bufSize - (24 + 8 * keys.length)) 0

namespace KeysetCtx

/-- The bitmap once the blocks of the last key set are given back. -/
def givenBack (ctx : KeysetCtx) : Volume :=
  if ctx.keysetLba ≠ 0 ∧ ctx.keysetBlocks ≠ 0 then ctx.vol.freeBlocks ctx.keysetLba ctx.keysetBlocks
  else ctx.vol

/-- `obmafs3_dedup_keyset_save`. The device takes `room` bytes before it fails. -/
def keysetSave (ctx : KeysetCtx) (room : ℕ) (ks : KeySet) : Except ErrorCode Unit × KeysetCtx :=
  let blockSize := ctx.vol.blockSize
  let neededBlocks := (24 + ks.count * 8 + blockSize - 1) / blockSize
  let buf := keysetBuf ks.packed (neededBlocks * blockSize)
  if ks.count = 0 then (.ok (), ⟨ctx.givenBack, ctx.img, 0, 0⟩)
  else
    match ctx.givenBack.allocBlocks neededBlocks with
    | none => (.error .noSpc, ⟨ctx.givenBack, ctx.img, 0, 0⟩)
    | some (startLba, vol) =>
      if room < buf.length then
        (.error .io, ⟨vol.freeBlocks startLba neededBlocks,
          ctx.img.pwrite (startLba * blockSize) (buf.take room), 0, 0⟩)
      else (.ok (), ⟨vol, ctx.img.pwrite (startLba * blockSize) buf, startLba, neededBlocks⟩)

end KeysetCtx

/-- An array of keys from its bytes. -/
def readKeys : (count : ℕ) → List UInt8 → List UInt64
  | 0, _ => []
  | count + 1, data => UInt64.ofNat (number (data.take 8)) :: readKeys count (data.drop 8)

/-- The body of the loop over the keys that were read. -/
def KeySet.reinsert (ks : KeySet) (key : UInt64) : KeySet :=
  if key = keysetEmpty then ks else ks.insert key

/-- `obmafs3_dedup_keyset_load`; `limit` is the budget of the set. -/
def KeysetCtx.keysetLoad (ctx : KeysetCtx) (limit : ℕ) : Except KeysetError KeySet :=
  if ctx.keysetLba = 0 ∨ ctx.keysetBlocks = 0 then .error .notFound
  else
    let bufSize := ctx.keysetBlocks * ctx.vol.blockSize
    match ctx.img.pread (ctx.keysetLba * ctx.vol.blockSize) bufSize with
    | none => .error .io
    | some buf =>
      let count := number (fieldBytes buf 8 8)
      let payloadSize := count * 8 % 2 ^ 64
      let keyData := buf.drop 24
      if bufSize < 24 then .error .inval
      else if number (fieldBytes buf 0 8) ≠ keysetPersistMagic then .error .badMagic
      else if bufSize < (24 + payloadSize) % 2 ^ 64 then .error .inval
      else if (xxh64 (keyData.take payloadSize)).toNat ≠ number (fieldBytes buf 16 8) then
        .error .checksum
      else
        .ok ((readKeys count keyData).reverse.foldl KeySet.reinsert (keysetCreate limit))

/-! ### The keys of a set -/

variable {ks : KeySet} {keys : List UInt64}

theorem KeySet.packFrom_eq {l : List ℕ} {head : Option ℕ} {fuel : ℕ}
    (hchain : Chain ks.pool.lru.next head l) (hfuel : l.length < fuel)
    (hstored : ∀ i ∈ l, ks.key i ≠ keysetEmpty) : ks.packFrom fuel head = l.map ks.key := by
  induction fuel generalizing head l with
  | zero => cases hfuel
  | succ fuel ih =>
    cases l with
    | nil =>
      obtain rfl : head = none := hchain
      rfl
    | cons i l =>
      obtain ⟨rfl, hrest⟩ := hchain
      rw [packFrom, if_pos (hstored i List.mem_cons_self), List.map_cons,
        ih hrest (Nat.lt_of_succ_lt_succ hfuel) fun j hj ↦ hstored j (List.mem_cons_of_mem i hj)]

section

variable (h : ks.Stands keys)
include h

theorem KeySet.Stands.packed_eq : ks.packed = keys := by
  obtain ⟨slots, free, h, rfl⟩ := h
  exact packFrom_eq h.pool.lru.chain h.fuel h.stored

theorem KeySet.Stands.count_eq : ks.count = keys.length := by
  obtain ⟨slots, free, h, rfl⟩ := h
  rw [h.count, List.length_map]

theorem KeySet.Stands.length_le : keys.length ≤ ks.capacity := by
  obtain ⟨slots, free, h, rfl⟩ := h
  have hroom := h.room
  rw [List.length_map]
  omega

theorem KeySet.Stands.nodup : keys.Nodup := by
  obtain ⟨slots, free, h, rfl⟩ := h
  exact h.distinct

theorem KeySet.Stands.empty_not_mem : keysetEmpty ∉ keys := by
  obtain ⟨slots, free, h, rfl⟩ := h
  intro hmem
  obtain ⟨i, hi, hkey⟩ := List.mem_map.mp hmem
  exact h.stored i hi hkey

end

/-- Keys that are put in from the last one to the first one are there in their order. -/
theorem KeySet.Stands.refill (h : ks.Stands []) (hnodup : keys.Nodup)
    (hroom : keys.length ≤ ks.capacity) (hempty : keysetEmpty ∉ keys) :
    (keys.reverse.foldl reinsert ks).Stands keys ∧
      (keys.reverse.foldl reinsert ks).capacity = ks.capacity := by
  induction keys with
  | nil => exact ⟨h, rfl⟩
  | cons key keys ih =>
    obtain ⟨hnew, hnodup⟩ := List.nodup_cons.mp hnodup
    rw [List.mem_cons, not_or] at hempty
    rw [List.length_cons] at hroom
    obtain ⟨hrest, hcapacity⟩ := ih hnodup (by omega) hempty.2
    have hne : key ≠ keysetEmpty := Ne.symm hempty.1
    have hstep := hrest.insert (by omega) hne
    rw [lruInsert, if_neg hnew, if_pos (by omega)] at hstep
    rw [List.reverse_cons, List.foldl_append, List.foldl_cons, List.foldl_nil, reinsert, if_neg hne,
      capacity_insert]
    exact ⟨hstep, hcapacity⟩

/-! ### The bytes -/

theorem length_keyBytes (keys : List UInt64) : (keyBytes keys).length = 8 * keys.length := by
  induction keys with
  | nil => rfl
  | cons key keys ih =>
    rw [keyBytes, List.flatMap_cons, List.length_append, length_bytesOf, List.length_cons]
    change 8 + (keyBytes keys).length = _
    rw [ih]
    omega

theorem readKeys_keyBytes (keys : List UInt64) (rest : List UInt8) :
    readKeys keys.length (keyBytes keys ++ rest) = keys := by
  induction keys with
  | nil => rfl
  | cons key keys ih =>
    have hsplit : keyBytes (key :: keys) ++ rest =
        bytesOf 8 key.toNat ++ (keyBytes keys ++ rest) := by
      rw [keyBytes, List.flatMap_cons, List.append_assoc]
      rfl
    have hkey : number (bytesOf 8 key.toNat) = key.toNat := by
      rw [number_bytesOf]
      exact Nat.mod_eq_of_lt key.toNat_lt
    rw [hsplit, List.length_cons, readKeys, List.take_left' (length_bytesOf 8 _),
      List.drop_left' (length_bytesOf 8 _), ih, hkey, UInt64.ofNat_toNat]

theorem fieldBytes_append {a b c : List UInt8} {off width : ℕ} (ha : a.length = off)
    (hb : b.length = width) : fieldBytes (a ++ (b ++ c)) off width = b := by
  rw [fieldBytes, List.drop_left' ha, List.take_left' hb]

theorem length_keysetBuf {bufSize : ℕ} (hfits : 24 + 8 * keys.length ≤ bufSize) :
    (keysetBuf keys bufSize).length = bufSize := by
  simp only [keysetBuf, List.length_append, length_bytesOf, length_keyBytes, List.length_replicate]
  omega

variable {ctx : KeysetCtx}

/-- What was written passes every check when it is read. -/
theorem keysetLoad_of_written {limit : ℕ} (hlba : ctx.keysetLba ≠ 0)
    (hblocks : ctx.keysetBlocks ≠ 0) (hcount : keys.length < 2 ^ 32)
    (hfits : 24 + 8 * keys.length ≤ ctx.keysetBlocks * ctx.vol.blockSize)
    (hread : ctx.img.pread (ctx.keysetLba * ctx.vol.blockSize)
      (ctx.keysetBlocks * ctx.vol.blockSize) =
      some (keysetBuf keys (ctx.keysetBlocks * ctx.vol.blockSize))) :
    ctx.keysetLoad limit =
      .ok (keys.reverse.foldl KeySet.reinsert (keysetCreate limit)) := by
  generalize hsize : ctx.keysetBlocks * ctx.vol.blockSize = bufSize at hfits hread
  have hmagic : number (fieldBytes (keysetBuf keys bufSize) 0 8) = keysetPersistMagic := by
    rw [keysetBuf, List.append_assoc, List.append_assoc, List.append_assoc]
    rw [fieldBytes, List.drop_zero, List.take_left' (length_bytesOf 8 _), number_bytesOf]
    rfl
  have hnumber : number (fieldBytes (keysetBuf keys bufSize) 8 8) = keys.length := by
    rw [keysetBuf, List.append_assoc, List.append_assoc, List.append_assoc,
      fieldBytes_append (length_bytesOf 8 _) (length_bytesOf 8 _), number_bytesOf]
    exact Nat.mod_eq_of_lt (by omega)
  have hchecksum : number (fieldBytes (keysetBuf keys bufSize) 16 8) =
      (xxh64 (keyBytes keys)).toNat := by
    rw [keysetBuf, List.append_assoc, List.append_assoc,
      fieldBytes_append (by simp) (length_bytesOf 8 _), number_bytesOf]
    exact Nat.mod_eq_of_lt (UInt64.toNat_lt _)
  have hdata : (keysetBuf keys bufSize).drop 24 =
      keyBytes keys ++ List.replicate (bufSize - (24 + 8 * keys.length)) 0 := by
    rw [keysetBuf, List.append_assoc]
    exact List.drop_left' (by simp)
  have hpayload : keys.length * 8 % 2 ^ 64 = 8 * keys.length := by
    rw [Nat.mul_comm]
    exact Nat.mod_eq_of_lt (by omega)
  rw [KeysetCtx.keysetLoad, if_neg (by simp [hlba, hblocks])]
  simp only [hsize, hread, hnumber, hmagic, hchecksum, hdata, hpayload]
  rw [if_neg (by omega), if_neg (by simp), if_neg, if_neg, readKeys_keyBytes]
  · rw [List.take_left' (length_keyBytes keys)]
    simp
  · rw [Nat.mod_eq_of_lt (by omega)]
    omega

/-! ### A save and a load -/

/-- The block of the superblock is taken, and the file holds every block of the volume. -/
structure KeysetCtx.Sound (ctx : KeysetCtx) : Prop where
  blockSize_pos : 0 < ctx.vol.blockSize
  boot : ctx.vol.bitmap 0 = true
  covers : ctx.vol.totalBlocks * ctx.vol.blockSize ≤ ctx.img.size

theorem KeysetCtx.givenBack_bitmap (hctx : ctx.Sound) :
    ctx.givenBack.bitmap 0 = true ∧ ctx.givenBack.blockSize = ctx.vol.blockSize ∧
      ctx.givenBack.totalBlocks = ctx.vol.totalBlocks := by
  unfold givenBack
  split_ifs with hold
  · exact ⟨freeBlocks_bitmap hctx.boot fun hin ↦ hold.1 (Nat.le_zero.mp hin.1), rfl, rfl⟩
  · exact ⟨hctx.boot, rfl, rfl⟩

/-- The blocks that a buffer needs hold it. -/
theorem le_neededBlocks {blockSize : ℕ} (hpos : 0 < blockSize) (n : ℕ) :
    n ≤ (n + blockSize - 1) / blockSize * blockSize := by
  have hdiv := Nat.div_add_mod (n + blockSize - 1) blockSize
  have hmod := Nat.mod_lt (n + blockSize - 1) hpos
  rw [Nat.mul_comm] at hdiv
  omega

/-- A saved set is loaded as it was, and of an empty one nothing is found. -/
theorem KeySet.Stands.keysetLoad_save (h : ks.Stands keys) (hcapacity : ks.capacity < 2 ^ 32)
    (hctx : ctx.Sound) {room : ℕ} (hsave : (ctx.keysetSave room ks).1 = .ok ()) (limit : ℕ) :
    (ctx.keysetSave room ks).2.keysetLoad limit =
      if keys = [] then .error .notFound
      else .ok (keys.reverse.foldl KeySet.reinsert (keysetCreate limit)) := by
  have hlength := h.length_le
  rw [KeysetCtx.keysetSave, h.packed_eq, h.count_eq] at hsave ⊢
  rcases eq_or_ne keys [] with rfl | hkeys
  · rw [if_pos List.length_nil, if_pos rfl]
    exact if_pos (Or.inl rfl)
  have hcount : ¬keys.length = 0 := fun hzero ↦ hkeys (List.length_eq_zero_iff.mp hzero)
  rw [if_neg hcount] at hsave ⊢
  rw [if_neg hkeys]
  obtain ⟨hboot, hsize, htotal⟩ := ctx.givenBack_bitmap hctx
  cases halloc : ctx.givenBack.allocBlocks
      ((24 + keys.length * 8 + ctx.vol.blockSize - 1) / ctx.vol.blockSize) with
  | none =>
    rw [halloc] at hsave
    cases hsave
  | some taken =>
    obtain ⟨startLba, vol⟩ := taken
    rw [halloc] at hsave
    dsimp only at hsave ⊢
    have hneeded := le_neededBlocks hctx.blockSize_pos (24 + keys.length * 8)
    generalize hblocks : (24 + keys.length * 8 + ctx.vol.blockSize - 1) / ctx.vol.blockSize = blocks
      at *
    obtain ⟨hfind, hvol⟩ := allocBlocks_eq_some halloc
    obtain ⟨-, hend⟩ := Volume.bitmapFindFree_some hfind
    obtain ⟨hnew, -⟩ := allocBlocks_bitmap halloc
    have hvolSize : vol.blockSize = ctx.vol.blockSize := by
      rw [hvol]
      exact hsize
    have hblocks0 : blocks ≠ 0 := by
      rintro rfl
      omega
    -- Block 0 is taken, so that the place in the superblock is not that of no extent.
    have hstart : startLba ≠ 0 := by
      rintro rfl
      rw [(hnew 0 le_rfl (by omega)).1] at hboot
      cases hboot
    have hfits : 24 + 8 * keys.length ≤ blocks * ctx.vol.blockSize := by omega
    have hbuf : (keysetBuf keys (blocks * ctx.vol.blockSize)).length = blocks * ctx.vol.blockSize :=
      length_keysetBuf hfits
    split_ifs at hsave ⊢ with hroom
    refine keysetLoad_of_written hstart hblocks0 (by omega) (by rw [hvolSize]; exact hfits) ?_
    rw [hvolSize]
    refine Image.pread_pwrite hbuf ?_
    rw [← Nat.add_mul]
    rw [htotal] at hend
    exact (Nat.mul_le_mul_right _ hend).trans hctx.covers

/-- The answers of a key set are those of a list that takes every key but zero, and a set with a
member that was saved goes on answering as that list does. -/
theorem runKeyset_eq (maxBytes : ℕ) (calls : List KeysetCall) :
    (runKeyset calls (keysetCreate maxBytes)).1 =
        (runLru (keysetCapacity maxBytes) (· ≠ keysetEmpty) calls []).1 ∧
      ∀ ctx : KeysetCtx, ctx.Sound → ∀ room limit : ℕ,
        keysetCapacity limit = keysetCapacity maxBytes →
        (ctx.keysetSave room (runKeyset calls (keysetCreate maxBytes)).2).1 = .ok () →
        let keys := (runLru (keysetCapacity maxBytes) (· ≠ keysetEmpty) calls []).2
        let saved := (ctx.keysetSave room (runKeyset calls (keysetCreate maxBytes)).2).2
        (keys = [] → saved.keysetLoad limit = .error .notFound) ∧
          (keys ≠ [] → ∃ ks, saved.keysetLoad limit = .ok ks ∧ ks.packed = keys ∧
            ∀ more : List KeysetCall, (runKeyset more ks).1 =
              (runLru (keysetCapacity maxBytes) (· ≠ keysetEmpty) more keys).1) := by
  have hpos := keysetCapacity_pos maxBytes
  obtain ⟨hanswers, hstands, hcapacity⟩ := (keysetCreate_stands maxBytes).run hpos calls
  refine ⟨hanswers, fun ctx hctx room limit hlimit hsave ↦ ?_⟩
  dsimp only
  change (runKeyset calls (keysetCreate maxBytes)).2.Stands
    (runLru (keysetCapacity maxBytes) (· ≠ keysetEmpty) calls []).2 at hstands
  change (runKeyset calls (keysetCreate maxBytes)).2.capacity = keysetCapacity maxBytes at hcapacity
  generalize (runKeyset calls (keysetCreate maxBytes)).2 = ks at *
  generalize (runLru (keysetCapacity maxBytes) (· ≠ keysetEmpty) calls []).2 = keys at *
  have hbound : ks.capacity < 2 ^ 32 := by
    rw [hcapacity, keysetCapacity]
    omega
  have hload := hstands.keysetLoad_save hbound hctx hsave limit
  refine ⟨fun hkeys ↦ by rw [hload, if_pos hkeys], fun hkeys ↦ ?_⟩
  rw [if_neg hkeys] at hload
  have hroom : keys.length ≤ (keysetCreate limit).capacity := by
    change keys.length ≤ keysetCapacity limit
    rw [hlimit, ← hcapacity]
    exact hstands.length_le
  obtain ⟨hloaded, hsame⟩ :=
    (keysetCreate_stands limit).refill hstands.nodup hroom hstands.empty_not_mem
  have hcap : (keys.reverse.foldl KeySet.reinsert (keysetCreate limit)).capacity =
      keysetCapacity maxBytes := hsame.trans hlimit
  refine ⟨_, hload, hloaded.packed_eq, fun more ↦ ?_⟩
  have hrun := (hloaded.run (hcap ▸ hpos) more).1
  rwa [hcap] at hrun

/-- A volume of sixteen blocks, of which the superblock has the first. -/
def keysetVolume : KeysetCtx :=
  ⟨⟨64, 1024, 0, 0, 1, fun b ↦ b == 0, fun _ ↦ .bytes []⟩, Image.zeros 1024, 0, 0⟩

theorem keysetVolume_sound : keysetVolume.Sound := ⟨by decide, rfl, by decide⟩

theorem runKeyset_eq_two :
    (runKeyset [.insert 5, .insert 7, .insert 5, .insert 9, .contains 7, .contains 5]
        (keysetCreate 64)).1 = [false, true] ∧
      ∃ ks, (keysetVolume.keysetSave 1024 (runKeyset [.insert 5, .insert 7, .insert 5, .insert 9,
          .contains 7, .contains 5] (keysetCreate 64)).2).2.keysetLoad 64 = .ok ks ∧
        ks.packed = [9, 5] := by
  obtain ⟨hanswers, hload⟩ := runKeyset_eq 64
    [.insert 5, .insert 7, .insert 5, .insert 9, .contains 7, .contains 5]
  refine ⟨hanswers, ?_⟩
  obtain ⟨ks, hks, hpacked, -⟩ :=
    (hload keysetVolume keysetVolume_sound 1024 64 rfl (by decide +kernel)).2 (by decide)
  exact ⟨ks, hks, hpacked⟩

/-- Zero is the mark of a slot without a key, and a set never has it. -/
theorem runKeyset_zero : (runKeyset [.insert 0, .contains 0] (keysetCreate 64)).1 ≠
      (runLru (keysetCapacity 64) (fun _ ↦ true) [.insert 0, .contains 0] []).1 := by
  decide

end Obmafs3
