import Obmafs3.Disc.Descriptors
import Obmafs3.Library.ByteImage

/-!
# What the importer reads of a disc

Titles come from a parameter file, files from the directories of a disc, and keys from a file that
describes the disc. All three are parsed where they lie, with offsets and lengths that they name
themselves. Here a parser has no outcome when it reads outside the buffer it was given, or when it
does not come to an end.

`parsers_inside_iff` says which buffers a parser stays in. The parameter file is tested for where a
value begins, not for where it ends, and a record of a directory for its own length, not for what a
record has at least.
-/

set_option autoImplicit false

namespace Obmafs3

open Library.ByteImage

/-! ### The parameter file -/

/-- `struct ps3_sfo_entry`. -/
structure SfoEntry where
  key : Text
  value : Text
  deriving DecidableEq, Repr

/-- Bytes as the characters of a text. -/
def characters (bytes : List UInt8) : Text := bytes.map UInt8.toNat

/-- The value of an entry, a text or a number. There is none in another format. -/
def sfoValue (data : List UInt8) (format used absData : ℕ) : Option (Option Text) :=
  if format = 0x0204 ∨ format = 0x0004 then
    (if 0 < used then
        (data[absData + used - 1]?).map fun last ↦ if last = 0 then used - 1 else used
      else some 0).bind fun vlen ↦
      (readBytes data absData (if 256 ≤ vlen then 255 else vlen)).map fun bytes ↦
        some (characters bytes)
  else if format = 0x0404 ∧ used = 4 then
    (readNumber data absData 4).map fun n ↦ some (decimal n)
  else some none

/-- The loop of `ps3_parse_sfo` for one entry, which may be skipped. -/
def sfoEntry (data : List UInt8) (keyTable dataTable i : ℕ) : Option (Option SfoEntry) :=
  let idxOff := 20 + i * 16
  (readNumber data idxOff 2).bind fun keyOff ↦
  (readNumber data (idxOff + 2) 2).bind fun format ↦
  (readNumber data (idxOff + 4) 4).bind fun used ↦
  (readNumber data (idxOff + 12) 4).bind fun dataOff ↦
    let absKey := (keyTable + keyOff) % 2 ^ 32
    let absData := (dataTable + dataOff) % 2 ^ 32
    if data.length ≤ absKey then some none
    else
      let strnlen := ((data.drop absKey).takeWhile (· ≠ 0)).length
      if data.length ≤ absData then some none
      else
        (readBytes data absKey (if 64 ≤ strnlen then 63 else strnlen)).bind fun key ↦
          (sfoValue data format used absData).map fun value ↦
            value.map fun value ↦ ⟨characters key, value⟩

/-- The loop of `ps3_parse_sfo` from entry `i` on. -/
def sfoEntries (data : List UInt8) (keyTable dataTable : ℕ) : ℕ → ℕ → Option (List SfoEntry)
  | 0, _ => some []
  | n + 1, i =>
    if data.length < 20 + i * 16 + 16 then some []
    else
      (sfoEntry data keyTable dataTable i).bind fun entry ↦
        (sfoEntries data keyTable dataTable n (i + 1)).map (entry.toList ++ ·)

/-- The bytes that a parameter file begins with. -/
def sfoMagic : List UInt8 := [0, 80, 83, 70]

/-- `ps3_parse_sfo`. It refuses what is no parameter file. -/
def ps3ParseSfo (data : List UInt8) : Option (Option (List SfoEntry)) :=
  if data.length < 20 then some none
  else
    (readBytes data 0 4).bind fun magic ↦
      if magic ≠ sfoMagic then some none
      else
        (readNumber data 8 4).bind fun keyTable ↦
        (readNumber data 12 4).bind fun dataTable ↦
        (readNumber data 16 4).bind fun entries ↦
          (sfoEntries data keyTable dataTable (if 32 < entries then 32 else entries) 0).map some

/-! ### Directories -/

/-- `ISO_SECTOR_SIZE`. -/
def isoSectorSize : ℕ := 2048

/-- What `pread` transfers at most. -/
def preadMax : ℕ := 0x7ffff000

/-- Whether a record is the one of the directory itself or of its parent. -/
def isDots (dir : List UInt8) (id idLen : ℕ) : Option Bool :=
  if idLen = 1 then (dir[id]?).map fun c ↦ decide (c = 0 ∨ c = 1) else some false

/-- The length of a name without its version. -/
def nameLength (dir : List UInt8) (id idLen : ℕ) : Option ℕ :=
  if 2 ≤ idLen then (dir[id + idLen - 2]?).map fun c ↦ if c = 59 then idLen - 2 else idLen
  else some idLen

/-- `strncasecmp` of a name of the directory with as many characters of another. -/
def sameName (dir : List UInt8) : ℕ → Text → Option Bool
  | _, [] => some true
  | id, c :: name =>
    (dir[id]?).bind fun b ↦
      if toLower b.toNat = toLower c then sameName dir (id + 1) name else some false

/-- What the loop does with a record. -/
inductive DirStep where
  | stop
  | next (pos : ℕ)
  | found (extentLba size : ℕ) (isDir : Bool)
  deriving DecidableEq, Repr

/-- What `find_entry` does with the name of a record, and `next` is where another begins. -/
def dirEntry (dir : List UInt8) (name : Text) (pos next : ℕ) (flags : UInt8) (idLen : ℕ) :
    Option DirStep :=
  (isDots dir (pos + 33) idLen).bind fun dots ↦
    if dots then some (.next next)
    else
      (nameLength dir (pos + 33) idLen).bind fun cmpLen ↦
      (if cmpLen = name.length then sameName dir (pos + 33) name else some false).bind fun same ↦
        if same then
          (readNumber dir (pos + 2) 4).bind fun extentLba ↦
            (readNumber dir (pos + 10) 4).map fun size ↦ .found extentLba size (flags &&& 2 ≠ 0)
        else some (.next next)

/-- One round of the loop of `find_entry`. An index is a sum of 32 bits, the place of the name is
a pointer. -/
def dirStep (dir : List UInt8) (name : Text) (pos : ℕ) : Option DirStep :=
  (dir[pos]?).bind fun recLen ↦
    let next := (pos + recLen.toNat) % 2 ^ 32
    if recLen = 0 then some (.next ((pos / isoSectorSize + 1) * isoSectorSize % 2 ^ 32))
    else if dir.length < next then some .stop
    else
      (dir[(pos + 25) % 2 ^ 32]?).bind fun flags ↦
      (dir[(pos + 32) % 2 ^ 32]?).bind fun idLen ↦
        dirEntry dir name pos next flags idLen.toNat

/-- The loop of `find_entry`. -/
def dirLoop (dir : List UInt8) (name : Text) : ℕ → ℕ → Option (Option (ℕ × ℕ × Bool))
  | 0, _ => none
  | fuel + 1, pos =>
    if dir.length ≤ pos then some none
    else
      match dirStep dir name pos with
      | none => none
      | some .stop => some none
      | some (.found extentLba size isDir) => some (some (extentLba, size, isDir))
      | some (.next pos) => dirLoop dir name fuel pos

/-- The extent of a directory, if it is read as a whole. -/
def readExtent (image : List UInt8) (dirLba dirSize : ℕ) : Option (List UInt8) :=
  let dir := preadFile image (min dirSize preadMax) (dirLba * isoSectorSize)
  if dir.length < dirSize then none else some dir

/-- `find_entry` in a disc image. -/
def findEntry (fuel : ℕ) (image : List UInt8) (dirLba dirSize : ℕ) (name : Text) :
    Option (Option (ℕ × ℕ × Bool)) :=
  match readExtent image dirLba dirSize with
  | none => some none
  | some dir => dirLoop dir name fuel 0

/-! ### The description of a disc -/

/-- `struct ps3_ird_data`. What is missing is empty. -/
structure IrdData where
  gameId : List UInt8
  gameName : List UInt8
  updateVer : List UInt8
  gameVer : List UInt8
  appVer : List UInt8
  headerGz : List UInt8
  footerGz : List UInt8
  pic : List UInt8
  d1 : List UInt8
  d2 : List UInt8
  deriving DecidableEq, Repr

/-- A field that is copied if it is there, and the position behind it. -/
def irdField (data : List UInt8) (pos width : ℕ) : Option (List UInt8 × ℕ) :=
  if pos + width ≤ data.length then
    (readBytes data pos width).map fun bytes ↦ (bytes, pos + width)
  else some ([], pos)

/-- The position behind the hashes of the regions. -/
def skipRegions (data : List UInt8) (pos : ℕ) : Option ℕ :=
  if pos < data.length then (data[pos]?).map fun rc ↦ pos + 1 + rc.toNat * 16 else some pos

/-- The position behind the entries of the files, whose length is a product of 32 bits. -/
def skipFiles (data : List UInt8) (pos : ℕ) : Option ℕ :=
  if pos + 4 ≤ data.length then
    (readNumber data pos 4).map fun fc ↦ pos + 4 + fc * 24 % 2 ^ 32
  else some pos

/-- The two keys, which are copied together. -/
def irdKeys (data : List UInt8) (pos : ℕ) : Option (List UInt8 × List UInt8 × ℕ) :=
  if pos + 32 ≤ data.length then
    (readBytes data pos 16).bind fun d1 ↦
      (readBytes data (pos + 16) 16).map fun d2 ↦ (d1, d2, pos + 32)
  else some ([], [], pos)

/-- The end of `ps3_parse_ird`, from the regions on. -/
def irdTail (data : List UInt8) (version : UInt8) (ird : IrdData) (pos : ℕ) : Option IrdData :=
  (skipRegions data pos).bind fun pos ↦
  (skipFiles data pos).bind fun pos ↦
  (if 9 ≤ version then irdField data (pos + 4) 115 else some ([], pos + 4)).bind fun pic ↦
  (irdKeys data pic.2).bind fun keys ↦
  (if version < 9 then irdField data keys.2.2 115 else some (pic.1, keys.2.2)).map fun pic ↦
    { ird with pic := pic.1, d1 := keys.1, d2 := keys.2.1 }

/-- A block with its length in front. There is none at the end of the record. -/
def irdBlock (data : List UInt8) (pos : ℕ) : Option (Option (List UInt8 × ℕ)) :=
  if data.length < pos + 4 then some none
  else (readNumber data pos 4).bind fun len ↦ (irdField data (pos + 4) len).map some

/-- The two compressed blocks of `ps3_parse_ird`, and the end if there are both. -/
def irdBlocks (data : List UInt8) (version : UInt8) (ird : IrdData) (pos : ℕ) : Option IrdData :=
  (irdBlock data pos).bind fun header ↦
    match header with
    | none => some ird
    | some (headerGz, pos) =>
      let ird := { ird with headerGz }
      (irdBlock data pos).bind fun footer ↦
        match footer with
        | none => some ird
        | some (footerGz, pos) => irdTail data version { ird with footerGz } pos

/-- `ps3_parse_ird` on a record that has been decompressed. It refuses what is none. -/
def ps3ParseIrd (data : List UInt8) : Option (Option IrdData) :=
  if data.length < 20 then some none
  else
    (readBytes data 0 4).bind fun magic ↦
      if magic ≠ [51, 73, 82, 68] then some none
      else
        (data[4]?).bind fun version ↦
          if data.length < 5 + 9 then some none
          else
            (readBytes data 5 9).bind fun gameId ↦
              if data.length ≤ 14 then some none
              else
                (data[14]?).bind fun nameLen ↦
                (irdField data 15 nameLen.toNat).bind fun gameName ↦
                (irdField data gameName.2 4).bind fun updateVer ↦
                (irdField data updateVer.2 5).bind fun gameVer ↦
                (irdField data gameVer.2 5).bind fun appVer ↦
                  (irdBlocks data version
                    ⟨gameId, gameName.1, updateVer.1, gameVer.1, appVer.1, [], [], [], [], []⟩
                    (if version = 7 then appVer.2 + 4 else appVer.2)).map some

/-! ### Where they stay inside -/

/-- A number of an entry of a parameter file. -/
def sfoField (data : List UInt8) (i off width : ℕ) : ℕ :=
  number (fieldBytes data (20 + i * 16 + off) width)

/-- Where the key of an entry is. -/
def sfoKeyPlace (data : List UInt8) (i : ℕ) : ℕ :=
  (number (fieldBytes data 8 4) + sfoField data i 0 2) % 2 ^ 32

/-- Where the value of an entry is. -/
def sfoDataPlace (data : List UInt8) (i : ℕ) : ℕ :=
  (number (fieldBytes data 12 4) + sfoField data i 12 4) % 2 ^ 32

/-- An entry is of a format that is known. -/
def SfoKnown (format used : ℕ) : Prop :=
  format = 0x0204 ∨ format = 0x0004 ∨ format = 0x0404 ∧ used = 4

/-- What is no parameter file, or one where every value whose key and whose first byte are inside
ends inside. -/
def SfoInside (data : List UInt8) : Prop :=
  20 ≤ data.length → fieldBytes data 0 4 = sfoMagic →
    ∀ i < min (number (fieldBytes data 16 4)) 32, 20 + i * 16 + 16 ≤ data.length →
      sfoKeyPlace data i < data.length → sfoDataPlace data i < data.length →
      SfoKnown (sfoField data i 2 2) (sfoField data i 4 4) → 0 < sfoField data i 4 4 →
        sfoDataPlace data i + sfoField data i 4 4 ≤ data.length

/-- A byte of a directory. -/
def dirByte (dir : List UInt8) (i : ℕ) : ℕ := (dir.getD i 0).toNat

/-- The length that the name of a record is compared with. -/
def recordNameLength (dir : List UInt8) (pos : ℕ) : ℕ :=
  if 2 ≤ dirByte dir (pos + 32) ∧ dirByte dir (pos + 33 + dirByte dir (pos + 32) - 2) = 59 then
    dirByte dir (pos + 32) - 2
  else dirByte dir (pos + 32)

/-- The record of the directory itself or of its parent. -/
def RecordDots (dir : List UInt8) (pos : ℕ) : Prop :=
  dirByte dir (pos + 32) = 1 ∧ dirByte dir (pos + 33) ≤ 1

/-- A name that lies inside, or differs before the end. -/
def NameInside (dir : List UInt8) (id : ℕ) (name : Text) : Prop :=
  id + name.length ≤ dir.length ∨
    ∃ k < name.length, id + k < dir.length ∧ toLower (dirByte dir (id + k)) ≠ toLower (name.getD k 0)

/-- What is looked at of a record lies inside the directory: its fixed part, the first or the last
but one character of its name, and what is compared of the name. -/
structure RecordInside (dir : List UInt8) (name : Text) (pos : ℕ) : Prop where
  fixed : pos + 32 < dir.length
  first : dirByte dir (pos + 32) = 1 → pos + 33 < dir.length
  version : 2 ≤ dirByte dir (pos + 32) → pos + 33 + dirByte dir (pos + 32) - 2 < dir.length
  compared : ¬RecordDots dir pos → recordNameLength dir pos = name.length →
    NameInside dir (pos + 33) name

/-- A record follows another in the search for a name. -/
def DirNext (dir : List UInt8) (name : Text) (pos next : ℕ) : Prop :=
  pos < dir.length ∧ dirStep dir name pos = some (.next next)

/-- Every record that the search comes to, and that claims to end inside the directory, has what is
looked at inside. -/
def DirInside (dir : List UInt8) (name : Text) : Prop :=
  ∀ pos, Relation.ReflTransGen (DirNext dir name) 0 pos → pos < dir.length →
    dirByte dir pos ≠ 0 → pos + dirByte dir pos ≤ dir.length → RecordInside dir name pos

/-! ### Parameter files -/

theorem bind_of_some {α β : Type} {o : Option α} {a : α} (hsome : o = some a)
    (f : α → Option β) : o.bind f = f a := by
  rw [hsome, Option.bind_some]

section Sfo

variable {data : List UInt8} {keyTable dataTable i : ℕ}

theorem isSome_getElem? {off : ℕ} : (data[off]?).isSome = true ↔ off < data.length := by
  simp

theorem isSome_sfoValue {format used absData : ℕ} (habs : absData < data.length) :
    (sfoValue data format used absData).isSome = true ↔
      (SfoKnown format used → 0 < used → absData + used ≤ data.length) := by
  rw [sfoValue]
  by_cases htext : format = 0x0204 ∨ format = 0x0004
  · have hknown : SfoKnown format used := htext.imp_right Or.inl
    rw [if_pos htext, forall_prop_of_true hknown]
    by_cases hused : 0 < used
    · rw [if_pos hused, forall_prop_of_true hused]
      by_cases hinside : absData + used ≤ data.length
      · obtain ⟨last, hlast⟩ := Option.isSome_iff_exists.mp
          (isSome_getElem?.mpr (show absData + used - 1 < data.length by omega))
        rw [hlast, Option.map_some, Option.bind_some, Option.isSome_map, isSome_readBytes]
        refine iff_of_true (Or.inr ?_) hinside
        split_ifs <;> omega
      · have hlast : data[absData + used - 1]? = none := List.getElem?_eq_none (by omega)
        rw [hlast]
        exact iff_of_false Bool.false_ne_true hinside
    · rw [if_neg hused, Option.bind_some, Option.isSome_map, isSome_readBytes]
      exact iff_of_true (Or.inl rfl) fun hpos ↦ absurd hpos hused
  · rw [if_neg htext]
    by_cases hnumber : format = 0x0404 ∧ used = 4
    · have hknown : SfoKnown format used := Or.inr (Or.inr hnumber)
      rw [if_pos hnumber, forall_prop_of_true hknown, Option.isSome_map, isSome_readNumber,
        hnumber.2]
      simp
    · rw [if_neg hnumber]
      refine iff_of_true rfl fun hknown ↦ ?_
      rcases hknown with h | h | h
      · exact absurd (Or.inl h) htext
      · exact absurd (Or.inr h) htext
      · exact absurd h hnumber

/-- What keeps one entry inside. -/
theorem isSome_sfoEntry (hentry : 20 + i * 16 + 16 ≤ data.length) :
    (sfoEntry data keyTable dataTable i).isSome = true ↔
      ((keyTable + sfoField data i 0 2) % 2 ^ 32 < data.length →
        (dataTable + sfoField data i 12 4) % 2 ^ 32 < data.length →
        SfoKnown (sfoField data i 2 2) (sfoField data i 4 4) → 0 < sfoField data i 4 4 →
          (dataTable + sfoField data i 12 4) % 2 ^ 32 + sfoField data i 4 4 ≤ data.length) := by
  have hread (off width : ℕ) (hinside : off + width ≤ 16) :
      readNumber data (20 + i * 16 + off) width = some (sfoField data i off width) :=
    readNumber_of_inside (by omega)
  have hkeyOff : readNumber data (20 + i * 16) 2 = some (sfoField data i 0 2) :=
    hread 0 2 (by decide)
  rw [sfoEntry, bind_of_some hkeyOff,
    bind_of_some (hread 2 2 (by decide)), bind_of_some (hread 4 4 (by decide)),
    bind_of_some (hread 12 4 (by decide))]
  by_cases hkey : data.length ≤ (keyTable + sfoField data i 0 2) % 2 ^ 32
  · rw [if_pos hkey]
    exact iff_of_true rfl fun h ↦ absurd h hkey.not_gt
  · rw [if_neg hkey, forall_prop_of_true (not_le.mp hkey)]
    by_cases hplace : data.length ≤ (dataTable + sfoField data i 12 4) % 2 ^ 32
    · rw [if_pos hplace]
      exact iff_of_true rfl fun h ↦ absurd h hplace.not_gt
    · rw [if_neg hplace, forall_prop_of_true (not_le.mp hplace)]
      have hbound : ((data.drop ((keyTable + sfoField data i 0 2) % 2 ^ 32)).takeWhile
          (· ≠ 0)).length ≤ data.length - (keyTable + sfoField data i 0 2) % 2 ^ 32 := by
        rw [← List.length_drop]
        exact (List.takeWhile_sublist _).length_le
      rw [bind_of_some (readBytes_of_inside (by split_ifs <;> omega)), Option.isSome_map]
      exact isSome_sfoValue (not_le.mp hplace)

theorem isSome_sfoEntries {n : ℕ} : (sfoEntries data keyTable dataTable n i).isSome = true ↔
      ∀ j, i ≤ j → j < i + n → 20 + j * 16 + 16 ≤ data.length →
        (sfoEntry data keyTable dataTable j).isSome = true := by
  induction n generalizing i with
  | zero => exact iff_of_true rfl fun j hle hlt ↦ by omega
  | succ n ih =>
    rw [sfoEntries]
    by_cases hend : data.length < 20 + i * 16 + 16
    · rw [if_pos hend]
      exact iff_of_true rfl fun j hle _ hinside ↦ by omega
    · rw [if_neg hend]
      cases hentry : sfoEntry data keyTable dataTable i with
      | none =>
        refine iff_of_false Bool.false_ne_true fun hall ↦ ?_
        have hfirst := hall i le_rfl (by omega) (by omega)
        rw [hentry] at hfirst
        exact Bool.false_ne_true hfirst
      | some entry =>
        rw [Option.bind_some, Option.isSome_map, ih]
        constructor
        · intro hrest j hle hlt hinside
          rcases Nat.eq_or_lt_of_le hle with rfl | hlt'
          · rw [hentry]
            rfl
          · exact hrest j hlt' (by omega) hinside
        · intro hall j hle hlt hinside
          exact hall j (by omega) (by omega) hinside

theorem isSome_ps3ParseSfo : (ps3ParseSfo data).isSome = true ↔ SfoInside data := by
  rw [ps3ParseSfo, SfoInside]
  by_cases hshort : data.length < 20
  · rw [if_pos hshort]
    exact iff_of_true rfl fun h ↦ absurd h hshort.not_ge
  · rw [if_neg hshort, forall_prop_of_true (not_lt.mp hshort),
      bind_of_some (readBytes_of_inside (by omega))]
    by_cases hmagic : fieldBytes data 0 4 = sfoMagic
    · rw [if_neg (not_not.mpr hmagic), forall_prop_of_true hmagic,
        bind_of_some (readNumber_of_inside (by omega)),
        bind_of_some (readNumber_of_inside (by omega)),
        bind_of_some (readNumber_of_inside (by omega)), Option.isSome_map,
        isSome_sfoEntries]
      have hcount (n : ℕ) : (if 32 < n then 32 else n) = min n 32 := by
        split_ifs <;> omega
      rw [hcount]
      refine forall_congr' fun i ↦ ?_
      rw [forall_prop_of_true (Nat.zero_le i), Nat.zero_add]
      refine imp_congr_right fun _ ↦ ?_
      exact imp_congr_right fun hinside ↦ isSome_sfoEntry hinside
    · rw [if_pos hmagic]
      exact iff_of_true rfl fun h ↦ absurd h hmagic

end Sfo

/-! ### Directories -/

section Directory

variable {dir : List UInt8} {name : Text} {pos : ℕ}

theorem getElem?_dirByte {i : ℕ} (hi : i < dir.length) :
    ∃ b, dir[i]? = some b ∧ b.toNat = dirByte dir i := by
  refine ⟨dir[i], List.getElem?_eq_getElem hi, ?_⟩
  rw [dirByte, List.getD_eq_getElem?_getD, List.getElem?_eq_getElem hi, Option.getD_some]

variable {id idLen : ℕ}

theorem isSome_isDots : (isDots dir id idLen).isSome = true ↔ (idLen = 1 → id < dir.length) := by
  rw [isDots]
  by_cases hone : idLen = 1
  · rw [if_pos hone, Option.isSome_map, isSome_getElem?, forall_prop_of_true hone]
  · rw [if_neg hone]
    exact iff_of_true rfl fun h ↦ absurd h hone

theorem isDots_eq_true {dots : Bool} (hdots : isDots dir id idLen = some dots) :
    dots = true ↔ idLen = 1 ∧ dirByte dir id ≤ 1 := by
  rw [isDots] at hdots
  by_cases hone : idLen = 1
  · rw [if_pos hone] at hdots
    obtain ⟨c, hc, rfl⟩ := Option.map_eq_some_iff.mp hdots
    have hbyte : dirByte dir id = c.toNat := by
      rw [dirByte, List.getD_eq_getElem?_getD, hc, Option.getD_some]
    rw [decide_eq_true_iff, hbyte, and_iff_right hone, ← UInt8.toNat_inj, ← UInt8.toNat_inj]
    change c.toNat = 0 ∨ c.toNat = 1 ↔ c.toNat ≤ 1
    omega
  · rw [if_neg hone] at hdots
    obtain rfl := Option.some.inj hdots
    exact iff_of_false Bool.false_ne_true fun h ↦ hone h.1

theorem isSome_nameLength :
    (nameLength dir id idLen).isSome = true ↔ (2 ≤ idLen → id + idLen - 2 < dir.length) := by
  rw [nameLength]
  by_cases htwo : 2 ≤ idLen
  · rw [if_pos htwo, Option.isSome_map, isSome_getElem?, forall_prop_of_true htwo]
  · rw [if_neg htwo]
    exact iff_of_true rfl fun h ↦ absurd h htwo

theorem nameLength_eq {id idLen cmpLen : ℕ} (hlength : nameLength dir id idLen = some cmpLen) :
    cmpLen = if 2 ≤ idLen ∧ dirByte dir (id + idLen - 2) = 59 then idLen - 2 else idLen := by
  rw [nameLength] at hlength
  by_cases htwo : 2 ≤ idLen
  · rw [if_pos htwo] at hlength
    obtain ⟨c, hc, rfl⟩ := Option.map_eq_some_iff.mp hlength
    have hbyte : dirByte dir (id + idLen - 2) = c.toNat := by
      rw [dirByte, List.getD_eq_getElem?_getD, hc, Option.getD_some]
    rw [hbyte]
    by_cases hsemicolon : c = 59
    · rw [if_pos hsemicolon, if_pos ⟨htwo, congrArg UInt8.toNat hsemicolon⟩]
    · rw [if_neg hsemicolon, if_neg fun h ↦ hsemicolon (UInt8.toNat_inj.mp h.2)]
  · rw [if_neg htwo] at hlength
    rw [if_neg fun h ↦ htwo h.1]
    exact (Option.some.inj hlength).symm

/-- A name whose first character is the same. -/
theorem nameInside_cons {id c : ℕ} (hsame : toLower (dirByte dir id) = toLower c) :
    NameInside dir id (c :: name) ↔ NameInside dir (id + 1) name := by
  rw [NameInside, NameInside, List.length_cons, Nat.add_right_comm, Nat.add_assoc]
  refine or_congr_right ⟨?_, ?_⟩
  · rintro ⟨k, hk, hinside, hdiffer⟩
    cases k with
    | zero => exact absurd hsame hdiffer
    | succ k =>
      refine ⟨k, Nat.lt_of_succ_lt_succ hk, ?_, ?_⟩
      · rwa [Nat.add_right_comm, Nat.add_assoc]
      · rwa [Nat.add_right_comm, Nat.add_assoc]
  · rintro ⟨k, hk, hinside, hdiffer⟩
    refine ⟨k + 1, Nat.succ_lt_succ hk, ?_, ?_⟩
    · rwa [Nat.add_right_comm, Nat.add_assoc] at hinside
    · rwa [Nat.add_right_comm, Nat.add_assoc] at hdiffer

/-- A comparison stays inside if and only if the name does, or differs before the end. -/
theorem isSome_sameName {id : ℕ} (hid : id ≤ dir.length) :
    (sameName dir id name).isSome = true ↔ NameInside dir id name := by
  induction name generalizing id with
  | nil => exact iff_of_true rfl (Or.inl hid)
  | cons c name ih =>
    rw [sameName]
    rcases Nat.eq_or_lt_of_le hid with rfl | hinside
    · rw [List.getElem?_eq_none le_rfl]
      refine iff_of_false Bool.false_ne_true ?_
      rintro (hfits | ⟨k, -, hk, -⟩)
      · rw [List.length_cons] at hfits
        omega
      · omega
    · obtain ⟨b, hb, hbyte⟩ := getElem?_dirByte hinside
      rw [bind_of_some hb, hbyte]
      by_cases hsame : toLower (dirByte dir id) = toLower c
      · rw [if_pos hsame, ih hinside, nameInside_cons hsame]
      · rw [if_neg hsame]
        exact iff_of_true rfl (Or.inr ⟨0, Nat.succ_pos _, hinside, hsame⟩)

variable {flags : UInt8} {next : ℕ} {fuel : ℕ}

/-- What keeps the search inside at the name of a record. -/
theorem isSome_dirEntry (hfixed : pos + 32 < dir.length) :
    (dirEntry dir name pos next flags (dirByte dir (pos + 32))).isSome = true ↔
      RecordInside dir name pos := by
  rw [dirEntry]
  cases hdots : isDots dir (pos + 33) (dirByte dir (pos + 32)) with
  | none =>
    refine iff_of_false Bool.false_ne_true fun hinside ↦ ?_
    have hsome := isSome_isDots.mpr hinside.first
    rw [hdots] at hsome
    exact Bool.false_ne_true hsome
  | some dots =>
    have hfirst := isSome_isDots.mp (Option.isSome_of_eq_some hdots)
    have hrecord : dots = true ↔ RecordDots dir pos := isDots_eq_true hdots
    rw [Option.bind_some]
    by_cases hskip : dots = true
    · rw [if_pos hskip]
      refine iff_of_true rfl ⟨hfixed, hfirst, fun htwo ↦ ?_, fun hnot ↦ ?_⟩
      · have hone := (hrecord.mp hskip).1
        omega
      · exact absurd (hrecord.mp hskip) hnot
    · rw [if_neg hskip]
      have hnot := mt hrecord.mpr hskip
      cases hname : nameLength dir (pos + 33) (dirByte dir (pos + 32)) with
      | none =>
        refine iff_of_false Bool.false_ne_true fun hinside ↦ ?_
        have hsome := isSome_nameLength.mpr hinside.version
        rw [hname] at hsome
        exact Bool.false_ne_true hsome
      | some cmpLen =>
        have hversion := isSome_nameLength.mp (Option.isSome_of_eq_some hname)
        have hcmpLen : cmpLen = recordNameLength dir pos := nameLength_eq hname
        have hfound (same : Bool) : ((if same then
            (readNumber dir (pos + 2) 4).bind fun extentLba ↦
              (readNumber dir (pos + 10) 4).map fun size ↦
                DirStep.found extentLba size (flags &&& 2 ≠ 0)
            else some (.next next))).isSome = true := by
          rw [readNumber_of_inside (by omega), readNumber_of_inside (by omega)]
          cases same <;> rfl
        have hcompared : (if cmpLen = name.length then sameName dir (pos + 33) name
            else some false).isSome = true ↔
              (recordNameLength dir pos = name.length → NameInside dir (pos + 33) name) := by
          rw [hcmpLen]
          split_ifs with hlength
          · rw [isSome_sameName hfixed, forall_prop_of_true hlength]
          · exact iff_of_true rfl fun h ↦ absurd h hlength
        rw [Option.bind_some]
        cases hsame : (if cmpLen = name.length then sameName dir (pos + 33) name
            else some false) with
        | none =>
          rw [hsame] at hcompared
          refine iff_of_false Bool.false_ne_true fun hinside ↦ ?_
          exact Bool.false_ne_true (hcompared.mpr (hinside.compared hnot))
        | some same =>
          rw [hsame] at hcompared
          exact iff_of_true (hfound same) ⟨hfixed, hfirst, hversion, fun _ ↦ hcompared.mp rfl⟩

/-- What keeps the search inside at one record. -/
theorem isSome_dirStep (hmax : dir.length ≤ preadMax) (hpos : pos < dir.length) :
    (dirStep dir name pos).isSome = true ↔
      (dirByte dir pos ≠ 0 → pos + dirByte dir pos ≤ dir.length →
        RecordInside dir name pos) := by
  have hwrap (n : ℕ) (hn : n ≤ 255) : (pos + n) % 2 ^ 32 = pos + n := by
    rw [preadMax] at hmax
    exact Nat.mod_eq_of_lt (by omega)
  obtain ⟨recLen, hrecLen, hlength⟩ := getElem?_dirByte hpos
  have hzero : recLen = 0 ↔ dirByte dir pos = 0 := by
    rw [← hlength, ← UInt8.toNat_inj]
    rfl
  have hsmall := recLen.toNat_lt
  rw [dirStep, bind_of_some hrecLen, hwrap recLen.toNat (by omega), hwrap 25 (by decide),
    hwrap 32 (by decide), hlength]
  by_cases hempty : recLen = 0
  · rw [if_pos hempty]
    exact iff_of_true rfl fun hne ↦ absurd (hzero.mp hempty) hne
  rw [if_neg hempty, forall_prop_of_true (mt hzero.mpr hempty)]
  by_cases hends : dir.length < pos + dirByte dir pos
  · rw [if_pos hends]
    exact iff_of_true rfl fun h ↦ absurd h hends.not_ge
  rw [if_neg hends, forall_prop_of_true (not_lt.mp hends)]
  by_cases hfixed : pos + 32 < dir.length
  · obtain ⟨flags, hflags, -⟩ := getElem?_dirByte (show pos + 25 < dir.length by omega)
    obtain ⟨idLen, hidLen, hid⟩ := getElem?_dirByte hfixed
    rw [bind_of_some hflags, bind_of_some hidLen, hid]
    exact isSome_dirEntry hfixed
  · rw [List.getElem?_eq_none (not_lt.mp hfixed)]
    refine iff_of_false ?_ fun hinside ↦ hfixed hinside.fixed
    cases dir[pos + 25]? with
    | none => exact Bool.false_ne_true
    | some flags => exact Bool.false_ne_true

theorem dirEntry_next {next next' : ℕ} {idLen : ℕ}
    (hstep : dirEntry dir name pos next flags idLen = some (.next next')) : next' = next := by
  rw [dirEntry] at hstep
  obtain ⟨dots, -, hstep⟩ := Option.bind_eq_some_iff.mp hstep
  split_ifs at hstep
  · exact (DirStep.next.inj (Option.some.inj hstep)).symm
  · obtain ⟨cmpLen, -, hstep⟩ := Option.bind_eq_some_iff.mp hstep
    obtain ⟨same, -, hstep⟩ := Option.bind_eq_some_iff.mp hstep
    split_ifs at hstep
    · obtain ⟨extentLba, -, hstep⟩ := Option.bind_eq_some_iff.mp hstep
      obtain ⟨size, -, hstep⟩ := Option.map_eq_some_iff.mp hstep
      cases hstep
    · exact (DirStep.next.inj (Option.some.inj hstep)).symm

/-- The search goes forward. In an extent that `pread` transfers no position wraps around. -/
theorem DirNext.lt (hmax : dir.length ≤ preadMax) (hnext : DirNext dir name pos next) :
    pos < next := by
  obtain ⟨hpos, hstep⟩ := hnext
  rw [preadMax] at hmax
  rw [dirStep] at hstep
  obtain ⟨recLen, -, hstep⟩ := Option.bind_eq_some_iff.mp hstep
  have hsmall := recLen.toNat_lt
  have hwrap : (pos + recLen.toNat) % 2 ^ 32 = pos + recLen.toNat := Nat.mod_eq_of_lt (by omega)
  by_cases hempty : recLen = 0
  · rw [if_pos hempty] at hstep
    obtain rfl := DirStep.next.inj (Option.some.inj hstep)
    rw [isoSectorSize]
    omega
  · have hne : recLen.toNat ≠ 0 := fun h ↦ hempty (UInt8.toNat_inj.mp h)
    rw [if_neg hempty, hwrap] at hstep
    split_ifs at hstep
    · cases hstep
    · obtain ⟨flags, -, hstep⟩ := Option.bind_eq_some_iff.mp hstep
      obtain ⟨idLen, -, hstep⟩ := Option.bind_eq_some_iff.mp hstep
      rw [dirEntry_next hstep]
      omega

/-- A search that comes to an end has been inside at every record. -/
theorem isSome_of_dirLoop (hloop : (dirLoop dir name fuel pos).isSome = true) {p : ℕ}
    (hcomes : Relation.ReflTransGen (DirNext dir name) pos p) (hp : p < dir.length) :
    (dirStep dir name p).isSome = true := by
  induction fuel generalizing pos with
  | zero => cases hloop
  | succ fuel ih =>
    rw [dirLoop] at hloop
    rcases hcomes.cases_head with rfl | ⟨next, hnext, hrest⟩
    · rw [if_neg hp.not_ge] at hloop
      cases hstep : dirStep dir name pos with
      | none =>
        rw [hstep] at hloop
        cases hloop
      | some step => rfl
    · rw [if_neg hnext.1.not_ge, hnext.2] at hloop
      exact ih hloop hrest

/-- A search that is inside at every record comes to an end. -/
theorem dirLoop_of_isSome (hmax : dir.length ≤ preadMax)
    (hinside : ∀ p, Relation.ReflTransGen (DirNext dir name) pos p → p < dir.length →
      (dirStep dir name p).isSome = true) (hfuel : dir.length < fuel + pos) (hpos : 0 < fuel) :
    (dirLoop dir name fuel pos).isSome = true := by
  induction fuel generalizing pos with
  | zero => exact absurd hpos (Nat.lt_irrefl 0)
  | succ fuel ih =>
    rw [dirLoop]
    by_cases hend : dir.length ≤ pos
    · rw [if_pos hend]
      rfl
    rw [if_neg hend]
    obtain ⟨step, hstep⟩ := Option.isSome_iff_exists.mp
      (hinside pos Relation.ReflTransGen.refl (not_le.mp hend))
    rw [hstep]
    cases step with
    | stop => rfl
    | found extentLba size isDir => rfl
    | next next =>
      have hnext : DirNext dir name pos next := ⟨not_le.mp hend, hstep⟩
      have hlt := hnext.lt hmax
      exact ih (fun p hcomes ↦ hinside p (hcomes.head hnext)) (by omega) (by omega)

/-- The search of a directory stays inside and ends if and only if the directory is as it should
be. -/
theorem dirLoop_inside_iff (hmax : dir.length ≤ preadMax) :
    (∃ fuel, (dirLoop dir name fuel 0).isSome = true) ↔ DirInside dir name := by
  constructor
  · rintro ⟨fuel, hloop⟩ pos hcomes hpos
    exact (isSome_dirStep hmax hpos).mp (isSome_of_dirLoop hloop hcomes hpos)
  · intro hinside
    refine ⟨dir.length + 1, dirLoop_of_isSome hmax (fun p hcomes hp ↦ ?_) (by omega) (by omega)⟩
    exact (isSome_dirStep hmax hp).mpr (hinside p hcomes hp)

end Directory

/-! ### Descriptions of a disc -/

section Ird

variable {data : List UInt8}

theorem isSome_irdField (pos width : ℕ) : (irdField data pos width).isSome = true := by
  rw [irdField]
  split_ifs with hinside
  · rw [readBytes_of_inside hinside]
    rfl
  · rfl

theorem isSome_skipRegions (pos : ℕ) : (skipRegions data pos).isSome = true := by
  rw [skipRegions]
  split_ifs with hinside
  · rw [Option.isSome_map, isSome_getElem?]
    exact hinside
  · rfl

theorem isSome_skipFiles (pos : ℕ) : (skipFiles data pos).isSome = true := by
  rw [skipFiles]
  split_ifs with hinside
  · rw [readNumber_of_inside hinside]
    rfl
  · rfl

theorem isSome_irdKeys (pos : ℕ) : (irdKeys data pos).isSome = true := by
  rw [irdKeys]
  split_ifs with hinside
  · rw [bind_of_some (readBytes_of_inside (by omega)), readBytes_of_inside (by omega)]
    rfl
  · rfl

theorem isSome_bind {α β : Type} {o : Option α} {f : α → Option β} (ho : o.isSome = true)
    (hf : ∀ a, (f a).isSome = true) : (o.bind f).isSome = true := by
  obtain ⟨a, rfl⟩ := Option.isSome_iff_exists.mp ho
  exact hf a

theorem isSome_irdTail (version : UInt8) (ird : IrdData) (pos : ℕ) :
    (irdTail data version ird pos).isSome = true := by
  have hpic (c : Prop) [Decidable c] (pos width : ℕ) (old : List UInt8 × ℕ) :
      (if c then irdField data pos width else some old).isSome = true := by
    split_ifs
    · exact isSome_irdField pos width
    · rfl
  refine isSome_bind (isSome_skipRegions pos) fun pos ↦ ?_
  refine isSome_bind (isSome_skipFiles pos) fun pos ↦ ?_
  refine isSome_bind (hpic _ _ _ _) fun pic ↦ ?_
  refine isSome_bind (isSome_irdKeys pic.2) fun keys ↦ ?_
  rw [Option.isSome_map]
  exact hpic _ _ _ _

theorem isSome_irdBlock (pos : ℕ) : (irdBlock data pos).isSome = true := by
  rw [irdBlock]
  split_ifs with hend
  · rfl
  · rw [bind_of_some (readNumber_of_inside (not_lt.mp hend)), Option.isSome_map]
    exact isSome_irdField _ _

theorem isSome_irdBlocks (version : UInt8) (ird : IrdData) (pos : ℕ) :
    (irdBlocks data version ird pos).isSome = true := by
  refine isSome_bind (isSome_irdBlock pos) ?_
  rintro (- | ⟨headerGz, pos⟩)
  · rfl
  · refine isSome_bind (isSome_irdBlock pos) ?_
    rintro (- | ⟨footerGz, pos⟩)
    · rfl
    · exact isSome_irdTail _ _ _

theorem isSome_ps3ParseIrd (data : List UInt8) : (ps3ParseIrd data).isSome = true := by
  rw [ps3ParseIrd]
  by_cases hshort : data.length < 20
  · rw [if_pos hshort]
    rfl
  rw [if_neg hshort, bind_of_some (readBytes_of_inside (by omega))]
  by_cases hmagic : fieldBytes data 0 4 ≠ [51, 73, 82, 68]
  · rw [if_pos hmagic]
    rfl
  rw [if_neg hmagic]
  refine isSome_bind (isSome_getElem?.mpr (by omega)) fun version ↦ ?_
  rw [if_neg (by omega), bind_of_some (readBytes_of_inside (by omega)), if_neg (by omega)]
  refine isSome_bind (isSome_getElem?.mpr (by omega)) fun nameLen ↦ ?_
  refine isSome_bind (isSome_irdField _ _) fun gameName ↦ ?_
  refine isSome_bind (isSome_irdField _ _) fun updateVer ↦ ?_
  refine isSome_bind (isSome_irdField _ _) fun gameVer ↦ ?_
  refine isSome_bind (isSome_irdField _ _) fun appVer ↦ ?_
  rw [Option.isSome_map]
  exact isSome_irdBlocks _ _ _

end Ird

/-! ### All three -/

/-- Which inputs the parsers stay inside of, and come to an end. -/
theorem parsers_inside_iff (sfo ird image : List UInt8) (dirLba dirSize : ℕ) (name : Text) :
    ((ps3ParseSfo sfo).isSome = true ↔ SfoInside sfo) ∧
      ((∃ fuel, (findEntry fuel image dirLba dirSize name).isSome = true) ↔
        ∀ dir, readExtent image dirLba dirSize = some dir → DirInside dir name) ∧
      (ps3ParseIrd ird).isSome = true := by
  refine ⟨isSome_ps3ParseSfo, ?_, isSome_ps3ParseIrd ird⟩
  simp only [findEntry]
  cases hextent : readExtent image dirLba dirSize with
  | none =>
    refine iff_of_true ⟨0, rfl⟩ fun dir hdir ↦ ?_
    cases hdir
  | some dir =>
    have hmax : dir.length ≤ preadMax := by
      simp only [readExtent] at hextent
      split_ifs at hextent
      rw [← Option.some.inj hextent]
      exact (List.length_take_le _ _).trans (Nat.min_le_right _ _)
    rw [dirLoop_inside_iff hmax]
    constructor
    · intro hinside dir' hdir'
      exact Option.some.inj hdir' ▸ hinside
    · exact fun hinside ↦ hinside dir rfl

/-- A parameter file of one entry, with a text of two bytes of which the second would follow the
file, and a directory that ends with a record of one byte. -/
theorem parsers_outside :
    ps3ParseSfo ([0, 80, 83, 70, 0, 0, 0, 0, 0, 0, 0, 0, 0, 0, 0, 0, 1, 0, 0, 0] ++
        [0, 0, 4, 2, 2, 0, 0, 0, 2, 0, 0, 0, 35, 0, 0, 0]) = none ∧
      ∀ fuel, findEntry fuel [1] 0 1 [65] = none := by
  refine ⟨by decide +kernel, fun fuel ↦ ?_⟩
  cases fuel with
  | zero => rfl
  | succ fuel => rfl

end Obmafs3
