import Obmafs3.Library.LaggedFibonacci
import Mathlib.Data.BitVec
import Mathlib.Tactic.IntervalCases

/-!
# The junk of Nintendo discs

The generator of the padding and the search for the seed that made it. The generator is a lagged
Fibonacci generator over words of 32 bits; `set_seed` expands seventeen words to a buffer, drops two
bits of each and runs the generator four times. `get_seed` runs it backwards from the words of the
disc, restores the dropped bits and compares what the seed makes with the disc.

The comparison begins at the place of the first byte in the buffer, after as many runs as the first
whole word has behind it. When these two are not in the same buffer, it compares with bytes that come
one buffer later.
-/

set_option autoImplicit false

namespace Obmafs3

open Library.LaggedFibonacci

/-! ### The generator -/

/-- `NGC_LFG_K`. -/
def ngcLfgK : ℕ := 521

/-- `NGC_LFG_J`. -/
def ngcLfgJ : ℕ := 32

/-- `NGC_LFG_SEED_SIZE`. -/
def ngcLfgSeedSize : ℕ := 17

/-- The words of a buffer; those from `NGC_LFG_K` on do not count. -/
abbrev LfgBuffer := ℕ → BitVec 32

abbrev LfgSeed := Fin ngcLfgSeedSize → BitVec 32

def swap32 (x : BitVec 32) : BitVec 32 :=
  (x >>> 24 &&& 0xFF#32) ||| (x >>> 8 &&& 0xFF00#32) ||| (x <<< 8 &&& 0xFF0000#32) |||
    (x <<< 24 &&& 0xFF000000#32)

/-- `ctx->buffer[i] ^= ctx->buffer[source]`. -/
def xorInto (b : LfgBuffer) (i source : ℕ) : LfgBuffer :=
  Function.update b i (b i ^^^ b source)

/-- `lfg_forward`. -/
def lfgForward (b : LfgBuffer) : LfgBuffer :=
  let b := (List.range ngcLfgJ).foldl (fun b i ↦ xorInto b i (i + ngcLfgK - ngcLfgJ)) b
  (List.range' ngcLfgJ (ngcLfgK - ngcLfgJ)).foldl (fun b i ↦ xorInto b i (i - ngcLfgJ)) b

/-- `lfg_backward`. -/
def lfgBackward (startWord endWord : ℕ) (b : LfgBuffer) : LfgBuffer :=
  let loopEnd := max ngcLfgJ startWord
  let b := (List.range' loopEnd (min endWord ngcLfgK - loopEnd)).reverse.foldl
    (fun b i ↦ xorInto b i (i - ngcLfgJ)) b
  (List.range' startWord (min endWord ngcLfgJ - startWord)).reverse.foldl
    (fun b i ↦ xorInto b i (i + ngcLfgK - ngcLfgJ)) b

/-- The two bits that are dropped, and the six behind them. -/
def quirk (x : BitVec 32) : BitVec 32 := (x &&& 0xFF00FFFF#32) ||| (x >>> 2 &&& 0x00FF0000#32)

def unquirk (x : BitVec 32) : BitVec 32 := (x &&& 0xFF00FFFF#32) ||| (x <<< 2 &&& 0x00FC0000#32)

/-- A round of the loop of `lfg_initialize`; `none` is the failed check. -/
def expandWord (checkExisting : Bool) (b : LfgBuffer) (i : ℕ) : Option LfgBuffer :=
  let calculated := (b (i - 17) <<< 23) ^^^ (b (i - 16) >>> 9) ^^^ b (i - 1)
  if checkExisting && (calculated &&& 0xFFFCFFFF#32) != unquirk (b i) then none
  else some (Function.update b i calculated)

/-- `lfg_initialize`. -/
def lfgInitialize (checkExisting : Bool) (b : LfgBuffer) : Option LfgBuffer :=
  ((List.range' ngcLfgSeedSize (ngcLfgK - ngcLfgSeedSize)).foldlM (expandWord checkExisting) b).map
    fun b ↦ lfgForward^[4] fun i ↦ swap32 (quirk (b i))

/-- The words that the generator starts with. What the buffer held besides does not matter. -/
def seedBuffer (seed : LfgSeed) : LfgBuffer := fun i ↦
  if h : i < ngcLfgSeedSize then swap32 (seed ⟨i, h⟩) else 0

/-- The buffer and the place of the next byte in it. -/
structure NgcLfgCtx where
  buffer : LfgBuffer
  positionBytes : ℕ
  position_lt : positionBytes < 4 * ngcLfgK

/-- `ngc_lfg_set_seed`. The initialization without a check cannot fail. -/
def ngcLfgSetSeed (seed : LfgSeed) : NgcLfgCtx where
  buffer := (lfgInitialize false (seedBuffer seed)).getD 0
  positionBytes := 0
  position_lt := by decide

/-- A byte of a word as it lies in memory. -/
def wordByte (x : BitVec 32) (r : ℕ) : UInt8 := ⟨x.extractLsb' (8 * r) 8⟩

/-- A byte of the buffer. -/
def lfgByte (b : LfgBuffer) (position : ℕ) : UInt8 := wordByte (b (position / 4)) (position % 4)

theorem NgcLfgCtx.rest_pos (ctx : NgcLfgCtx) {count : ℕ} (hcount : count ≠ 0) :
    count - min count (4 * ngcLfgK - ctx.positionBytes) < count := by
  have := ctx.position_lt
  omega

/-- Go on after a chunk that ends in the buffer or with it. -/
def NgcLfgCtx.skip (ctx : NgcLfgCtx) (chunk : ℕ) : NgcLfgCtx :=
  if h : ctx.positionBytes + chunk < 4 * ngcLfgK then
    ⟨ctx.buffer, ctx.positionBytes + chunk, h⟩
  else ⟨lfgForward ctx.buffer, 0, by decide⟩

/-- `ngc_lfg_get_bytes`. -/
def ngcLfgGetBytes (ctx : NgcLfgCtx) (count : ℕ) : List UInt8 × NgcLfgCtx :=
  if _hcount : count = 0 then ([], ctx)
  else
    let chunk := min count (4 * ngcLfgK - ctx.positionBytes)
    let rest := ngcLfgGetBytes (ctx.skip chunk) (count - chunk)
    ((List.range chunk).map (fun i ↦ lfgByte ctx.buffer (ctx.positionBytes + i)) ++ rest.1, rest.2)
termination_by count
decreasing_by exact ctx.rest_pos _hcount

/-- The bytes that a seed makes from an offset on. -/
def junkBytes (seed : LfgSeed) (offset count : ℕ) : List UInt8 :=
  (ngcLfgGetBytes (ngcLfgSetSeed seed) (offset + count)).1.drop offset

/-! ### The search -/

/-- Restore the bits of a word that the initialization dropped. -/
def restoreWord (b : LfgBuffer) (i : ℕ) : LfgBuffer :=
  Function.update b i
    (unquirk (b i) ||| ((b (i + 16) ^^^ b (i + 15)) <<< 9 &&& 0x00030000#32))

/-- `lfg_reinitialize`. -/
def lfgReinitialize (b : LfgBuffer) : LfgSeed × Option LfgBuffer :=
  let b := (lfgBackward 0 ngcLfgK)^[4] b
  let b := (List.range ngcLfgSeedSize).foldl restoreWord fun i ↦ swap32 (b i)
  (fun i ↦ swap32 (b i), lfgInitialize true b)

/-- A whole word of the data. -/
def dataWord (data : List UInt8) (i : ℕ) : BitVec 32 :=
  (data.getD (4 * i + 3) 0).toBitVec ++ (data.getD (4 * i + 2) 0).toBitVec ++
    (data.getD (4 * i + 1) 0).toBitVec ++ (data.getD (4 * i) 0).toBitVec

/-- The bits that a dropped pair leaves equal. -/
def Patterned (x : BitVec 32) : Prop := x &&& 0x00C00000#32 = x >>> 2 &&& 0x00C00000#32

instance decidablePatterned (x : BitVec 32) : Decidable (Patterned x) :=
  inferInstanceAs (Decidable (_ = _))

/-- How many bytes of the data match the generator. -/
def matchingBytes : (data : List UInt8) → (b : LfgBuffer) → (position : ℕ) → ℕ
  | [], _, _ => 0
  | p :: data, b, position =>
    if p ≠ lfgByte b position then 0
    else if position + 1 = 4 * ngcLfgK then matchingBytes data (lfgForward b) 0 + 1
    else matchingBytes data b (position + 1) + 1

/-- The start of the data lies where the search wants it. -/
def Aligned (address dataOffset : ℕ) : Prop := ((address : ℤ) - dataOffset) % 4 = 0

instance decidableAligned (address dataOffset : ℕ) : Decidable (Aligned address dataOffset) :=
  inferInstanceAs (Decidable (_ = _))

/-- The bytes in front of the first whole word. -/
def bytesToSkip (dataOffset : ℕ) : ℕ := (dataOffset + 3) / 4 * 4 - dataOffset

/-- The place of the first whole word in the stream. -/
def u32DataOffset (dataOffset : ℕ) : ℕ := (dataOffset + bytesToSkip dataOffset) / 4

/-- The whole words of the data, from the first on. -/
def u32Data (data : List UInt8) (dataOffset : ℕ) : ℕ → BitVec 32 :=
  dataWord (data.drop (bytesToSkip dataOffset))

/-- The buffer with the first words of the data, each at its place. -/
def placeData (word : ℕ → BitVec 32) (dataOffsetModK : ℕ) : LfgBuffer := fun i ↦
  if i < dataOffsetModK then word (ngcLfgK - dataOffsetModK + i) else word (i - dataOffsetModK)

/-- `ngc_lfg_get_seed` of data at an address: how many bytes match, and the seed where one is
written. Offsets are those of a disc, whose sums do not overflow. -/
def ngcLfgGetSeed (address : ℕ) (data : List UInt8) (dataOffset : ℕ) : ℕ × Option LfgSeed :=
  let word := u32Data data dataOffset
  let dataOffsetModK := u32DataOffset dataOffset % ngcLfgK
  let dataOffsetDivK := u32DataOffset dataOffset / ngcLfgK
  if ¬Aligned address dataOffset then (0, none)
  else if data.length < bytesToSkip dataOffset then (0, none)
  else if (data.length - bytesToSkip dataOffset) / 4 < ngcLfgK then (0, none)
  else if ¬∀ i < ngcLfgK, Patterned (swap32 (word i)) then (0, none)
  else
    let b := lfgBackward 0 dataOffsetModK (placeData word dataOffsetModK)
    match lfgReinitialize ((lfgBackward 0 ngcLfgK)^[dataOffsetDivK] b) with
    | (seed, none) => (0, some seed)
    | (seed, some b) =>
      (matchingBytes data (lfgForward^[dataOffsetDivK] b) (dataOffset % (4 * ngcLfgK)), some seed)

end Obmafs3
