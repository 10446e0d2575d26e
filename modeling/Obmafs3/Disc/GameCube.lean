import Obmafs3.Disc.JunkFound
import Obmafs3.Tags.JunkMap

/-!
# Reading GameCube images

`read_gc` reads the stored bytes and puts the junk that the junk map knows of in their place, sector
by sector. Every byte comes to depend on its place alone (`readGc_eq`), so that reads of any offsets
and sizes agree.
-/

set_option autoImplicit false

namespace Obmafs3

open Library.BlockChaining

/-- `NGC_SECTOR_SIZE`. -/
def ngcSectorSize : ℕ := 2048

/-- The loop of `reconstruct_junk_sector` that throws bytes away. -/
def discardBytes (ctx : NgcLfgCtx) (adv : ℕ) : NgcLfgCtx :=
  if _hadv : adv = 0 then ctx
  else discardBytes (ngcLfgGetBytes ctx (min adv 4096)).2 (adv - min adv 4096)
termination_by adv

/-- The start of the block that the seed of a region belongs to. -/
def JunkMapRecord.blockStart (r : JunkMapRecord) : ℕ := r.offset / 0x8000 * 0x8000

/-- `reconstruct_junk_sector`. Without a region the buffer stays as it is. -/
def reconstructJunkSector (tree : JunkMapTree) (inodeId sectorOff : ℕ) (buf : List UInt8) :
    List UInt8 :=
  match junkMapLookup inodeId sectorOff tree with
  | .ok jrec =>
    (ngcLfgGetBytes (discardBytes (ngcLfgSetSeed jrec.seed) (sectorOff - jrec.blockStart))
      ngcSectorSize).1
  | .error _ => buf

/-- What `read_gc` leaves in a part of a sector. `bytes` is what was read, from `start` on, and `js`
what the buffer for a sector holds before it is written. -/
def gcPiece (tree : JunkMapTree) (inodeId : ℕ) (js bytes : List UInt8)
    (start sector offset count : ℕ) : List UInt8 :=
  let ss := sector * ngcSectorSize
  match junkMapLookup inodeId ss tree with
  | .ok _ => ((reconstructJunkSector tree inodeId ss js).drop offset).take count
  | .error _ => (bytes.drop (ss + offset - start)).take count

/-- `read_gc`. `media` is what `obmafs3_read_media_image_data` reads; `none` is its error. -/
def readGc (tree : JunkMapTree) (inodeId : ℕ) (js : List UInt8) (offset : ℕ)
    (media : Option (List UInt8)) : Option (List UInt8) :=
  media.map fun bytes ↦
    readPieces ngcSectorSize (gcPiece tree inodeId js bytes offset) bytes.length offset bytes.length

/-- A byte of the disc: one of the junk of a region if its sector begins in one. -/
def gcByte (tree : JunkMapTree) (inodeId : ℕ) (stored : ℕ → UInt8) (pos : ℕ) : UInt8 :=
  match junkMapLookup inodeId (pos / ngcSectorSize * ngcSectorSize) tree with
  | .ok jrec => streamByte (seedStream jrec.seed) (pos - jrec.blockStart)
  | .error _ => stored pos

theorem NgcLfgCtx.At.discardBytes {w : ℕ → BitVec 32} {ctx : NgcLfgCtx} {p : ℕ}
    (hw : LfgStream w) (hat : ctx.At w p) (adv : ℕ) : (discardBytes ctx adv).At w (p + adv) := by
  induction adv using Nat.strongRecOn generalizing ctx p with
  | _ adv ih =>
    rw [Obmafs3.discardBytes]
    split_ifs with hadv
    · rwa [hadv]
    have hrest := ih (adv - min adv 4096) (by omega) (ngcLfgGetBytes_eq hw hat (min adv 4096)).2
    rwa [Nat.add_assoc, Nat.add_sub_cancel' (Nat.min_le_left _ _)] at hrest

variable {tree : JunkMapTree} {inodeId sectorOff : ℕ} {jrec : JunkMapRecord}

section

variable (hlookup : junkMapLookup inodeId sectorOff tree = .ok jrec)
include hlookup

/-- Bytes that are thrown away in chunks are as good as bytes that were never asked for. -/
theorem reconstructJunkSector_eq (buf : List UInt8) :
    reconstructJunkSector tree inodeId sectorOff buf =
      (List.range ngcSectorSize).map fun i ↦
        streamByte (seedStream jrec.seed) (sectorOff - jrec.blockStart + i) := by
  have hw : LfgStream (seedStream jrec.seed) := lfgStream_lagged _
  have hat := (ngcLfgSetSeed_at jrec.seed).discardBytes hw (sectorOff - jrec.blockStart)
  rw [Nat.zero_add] at hat
  simp only [reconstructJunkSector, hlookup, (ngcLfgGetBytes_eq hw hat _).1]

/-- The junk of a region starts in front of what is looked up. -/
theorem blockStart_le : jrec.blockStart ≤ sectorOff := by
  rw [junkMapLookup] at hlookup
  split at hlookup
  · cases hlookup
  · rename_i r hfind
    split_ifs at hlookup
    obtain rfl := Except.ok.inj hlookup
    have hle : r.inodeId = inodeId ∧ r.offset ≤ sectorOff := by simpa using List.find?_some hfind
    exact (Nat.div_mul_le_self _ _).trans hle.2

end

/-- Every byte that is read depends on its place alone. -/
theorem readGc_eq (tree : JunkMapTree) (inodeId : ℕ) (js : List UInt8) (stored : ℕ → UInt8)
    (offset size : ℕ) :
    readGc tree inodeId js offset (some ((List.range size).map fun i ↦ stored (offset + i))) =
      some ((List.range size).map fun i ↦ gcByte tree inodeId stored (offset + i)) := by
  rw [readGc, Option.map_some, List.length_map, List.length_range]
  refine congrArg some (readPieces_eq_map offset (offset + size) _ (by decide) ?_ le_rfl le_rfl
    le_rfl)
  intro sector skip count hfits hfirst hlast
  have hsector (i : ℕ) (hi : i < count) :
      (sector * ngcSectorSize + skip + i) / ngcSectorSize = sector := by
    rw [Nat.add_assoc, Nat.add_comm, Nat.add_mul_div_right _ _ (by decide),
      Nat.div_eq_of_lt (by omega), Nat.zero_add]
  rw [gcPiece]
  cases hlookup : junkMapLookup inodeId (sector * ngcSectorSize) tree with
  | ok jrec =>
    have hstart := blockStart_le hlookup
    refine List.ext_getElem (by simp [reconstructJunkSector_eq hlookup]; omega) fun i _ hi ↦ ?_
    rw [List.length_map, List.length_range] at hi
    simp only [reconstructJunkSector_eq hlookup, List.getElem_take, List.getElem_drop,
      List.getElem_map, List.getElem_range, gcByte, hsector i hi, hlookup]
    exact congrArg _ (by omega)
  | error e =>
    refine List.ext_getElem (by simp; omega) fun i _ hi ↦ ?_
    rw [List.length_map, List.length_range] at hi
    simp only [List.getElem_take, List.getElem_drop, List.getElem_map, List.getElem_range, gcByte,
      hsector i hi, hlookup]
    exact congrArg _ (by omega)

end Obmafs3
