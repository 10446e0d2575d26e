import Obmafs3.Disc.JunkStreams
import Obmafs3.Library.BlockChaining

/-!
# Seeds that are found

The initialization of a search succeeds exactly on the words that come from a seed, and the seed that
it restores makes the same stream. What the comparison then counts is how far the data agrees with
this stream, from the offset on or from one buffer behind it (`ngcLfgGetSeed_of_seed`).
`recoversSeed_iff` says for which data that is what the search is for.
-/

set_option autoImplicit false

namespace Obmafs3

open Library.BlockChaining Library.LaggedFibonacci

/-! ### The seed of a buffer -/

/-- A word with its dropped bits. -/
def restored (b : LfgBuffer) (i : ℕ) : BitVec 32 :=
  unquirk (b i) ||| ((b (i + 16) ^^^ b (i + 15)) <<< 9 &&& 0x00030000#32)

/-- A word is restored from words behind it, which are not restored yet. -/
theorem foldl_restoreWord (b : LfgBuffer) (n : ℕ) :
    (List.range n).foldl restoreWord b = fun i ↦ if i < n then restored b i else b i := by
  induction n with
  | zero => rfl
  | succ n ih =>
    rw [List.range_succ, List.foldl_append, ih]
    funext i
    simp only [List.foldl_cons, List.foldl_nil, restoreWord, Nat.lt_irrefl, if_false,
      show ¬n + 16 < n by omega, show ¬n + 15 < n by omega]
    rcases Nat.lt_trichotomy i n with hlt | rfl | hgt
    · rw [Function.update_of_ne (by omega), if_pos hlt, if_pos (by omega)]
    · rw [Function.update_self, if_pos (by omega), restored]
    · rw [Function.update_of_ne (by omega), if_neg (by omega), if_neg (by omega)]

/-- The words behind the expansion, where it is undone. -/
def restoredBuffer (b : LfgBuffer) : LfgBuffer := fun i ↦
  if i < ngcLfgSeedSize then restored b i else b i

/-- The seed that a search writes. -/
def seedOf (b : LfgBuffer) : LfgSeed := fun i ↦ swap32 (b i)

theorem expansion_seedOf (b : LfgBuffer) : expansion (seedBuffer (seedOf b)) = expansion b := by
  refine expansion_congr fun i hi ↦ ?_
  rw [seedBuffer, dif_pos hi, seedOf, swap32_swap32]

theorem seedStream_seedOf (b : LfgBuffer) : seedStream (seedOf b) = lfgStream b := by
  have hwords : rawWord (seedBuffer (seedOf b)) = rawWord b := by
    funext i
    rw [rawWord, expansion_seedOf, rawWord]
  funext n
  rw [seedStream, lfgStream, hwords, lfgStream]

section Seeds

variable {b b' raw : LfgBuffer} {seed : LfgSeed}

theorem lfgReinitialize_eq (hraw : (lfgBackward 0 ngcLfgK)^[4] b = raw) : lfgReinitialize b =
      (seedOf (restoredBuffer fun i ↦ swap32 (raw i)),
        lfgInitialize true (restoredBuffer fun i ↦ swap32 (raw i))) := by
  simp only [ lfgReinitialize, foldl_restoreWord, hraw]
  rfl

/-- A search that succeeds has found a seed whose words are there. -/
theorem rawWord_of_reinitialize (hraw : (lfgBackward 0 ngcLfgK)^[4] b = raw)
    (hpattern : ∀ i < ngcLfgK, Patterned (swap32 (raw i)))
    (hdone : lfgReinitialize b = (seed, some b')) :
    (∀ i < ngcLfgK, rawWord (seedBuffer seed) i = raw i) ∧
      Window ngcLfgK (seedStream seed) 0 b' := by
  rw [ lfgReinitialize_eq hraw, Prod.mk.injEq] at hdone
  obtain ⟨rfl, hinit⟩ := hdone
  rw [lfgInitialize_eq] at hinit
  split_ifs at hinit with hexpanded
  obtain rfl := Option.some.inj hinit
  refine ⟨fun i hi ↦ ?_, seedStream_seedOf _ ▸ window_initialized _⟩
  rw [rawWord, expansion_seedOf, ← swap32_swap32 (raw i)]
  refine congrArg swap32 (quirk_of_unquirk ?_ (hpattern i hi))
  rcases Nat.lt_or_ge i ngcLfgSeedSize with hlt | hge
  · rw [expansion_of_lt hlt, restoredBuffer, if_pos hlt, restored, mask_unquirk_or]
  · have hplace : i ∈ List.range' ngcLfgSeedSize (ngcLfgK - ngcLfgSeedSize) := by
      rw [List.mem_range'_1, Nat.add_sub_cancel' (by decide)]
      exact ⟨hge, hi⟩
    have hword := hexpanded rfl i hplace
    rwa [Expanded, restoredBuffer, if_neg (Nat.not_lt.mpr hge)] at hword

/-- The restored words are those of the seed, apart from two bits of the first one. -/
theorem expansion_restored {e : LfgBuffer} (hexpansion : ∀ i, ngcLfgSeedSize ≤ i →
      e i = (e (i - 17) <<< 23) ^^^ (e (i - 16) >>> 9) ^^^ e (i - 1))
    (hb : ∀ i < ngcLfgK, b i = quirk (e i)) (i : ℕ) :
    (i ≠ 0 → expansion (restoredBuffer b) i = e i) ∧
      expansion (restoredBuffer b) i &&& 0xFFFCFFFF#32 = e i &&& 0xFFFCFFFF#32 := by
  induction i using Nat.strongRecOn with
  | _ i ih =>
    rcases Nat.lt_or_ge i ngcLfgSeedSize with hlt | hge
    · have hsmall : i < 17 := hlt
      have hword : expansion (restoredBuffer b) i = restored b i := by
        rw [expansion_of_lt hlt, restoredBuffer, if_pos hlt]
      have hplace : i + 16 < ngcLfgK := by rw [ngcLfgK]; omega
      rw [hword, restored, hb i (by omega), mask_unquirk_or, unquirk_quirk]
      refine ⟨fun hzero ↦ ?_, rfl⟩
      have hmade := hexpansion (i + 16) (by rw [ngcLfgSeedSize]; omega)
      rw [show i + 16 - 17 = i - 1 by omega, Nat.add_sub_cancel,
        show i + 16 - 1 = i + 15 by omega] at hmade
      rw [hb _ hplace, hb (i + 15) (by omega), hmade, dropped_bits, mask_or_dropped]
    · have hpos : 17 ≤ i := hge
      have hword : expansion (restoredBuffer b) i = e i := by
        rw [expansion_of_ge hge, hexpansion i hge,
          shiftLeft_eq_of_mask (ih (i - 17) (by omega)).2, (ih (i - 16) (by omega)).1 (by omega),
          (ih (i - 1) (by omega)).1 (by omega)]
      rw [hword]
      exact ⟨fun _ ↦ rfl, rfl⟩

/-- A search succeeds where the words of a seed are there. -/
theorem exists_reinitialize (hraw : (lfgBackward 0 ngcLfgK)^[4] b = raw)
    (hwords : ∀ i < ngcLfgK, rawWord (seedBuffer seed) i = raw i) :
    ∃ seed' b', lfgReinitialize b = (seed', some b') := by
  have hquirk : ∀ i < ngcLfgK, swap32 (raw i) = quirk (expansion (seedBuffer seed) i) := by
    intro i hi
    rw [← hwords i hi, rawWord, swap32_swap32]
  rw [ lfgReinitialize_eq hraw, lfgInitialize_eq, if_pos]
  · exact ⟨_, _, rfl⟩
  intro _ i hi
  obtain ⟨hge, hlt⟩ := List.mem_range'_1.mp hi
  rw [Nat.add_sub_cancel' (by decide)] at hlt
  rw [Expanded, (expansion_restored (fun i hi ↦ expansion_of_ge hi _) hquirk i).2, restoredBuffer,
    if_neg (Nat.not_lt.mpr hge), hquirk i hlt, unquirk_quirk]

end Seeds

/-! ### Bytes -/

/-- The bytes of a stream. -/
def streamByte (w : ℕ → BitVec 32) (p : ℕ) : UInt8 := wordByte (w (p / 4)) (p % 4)

variable {w : ℕ → BitVec 32}

variable {c position : ℕ} {ctx : NgcLfgCtx} {b : LfgBuffer}

theorem lfgByte_of_window (hb : Window ngcLfgK w (c * ngcLfgK) b)
    (hposition : position < 4 * ngcLfgK) :
    lfgByte b position = streamByte w (c * (4 * ngcLfgK) + position) := by
  have hplace : position / 4 < ngcLfgK := Nat.div_lt_of_lt_mul hposition
  have hword := hb (c * ngcLfgK + position / 4) (Nat.le_add_right _ _) (by omega)
  rw [Nat.mul_add_mod_of_lt hplace] at hword
  have hsum : c * (4 * ngcLfgK) + position = 4 * (c * ngcLfgK) + position := by
    rw [Nat.mul_left_comm]
  rw [lfgByte, hword, streamByte, hsum, Nat.mul_add_div (by decide), Nat.mul_add_mod]

/-- Where the buffer and the position stand in a stream. -/
structure NgcLfgCtx.At (ctx : NgcLfgCtx) (w : ℕ → BitVec 32) (p : ℕ) : Prop where
  window : Window ngcLfgK w (p / (4 * ngcLfgK) * ngcLfgK) ctx.buffer
  position_eq : ctx.positionBytes = p % (4 * ngcLfgK)

theorem NgcLfgCtx.At.skip {p chunk : ℕ} (hw : LfgStream w) (hat : ctx.At w p)
    (hchunk : ctx.positionBytes + chunk ≤ 4 * ngcLfgK) : (ctx.skip chunk).At w (p + chunk) := by
  have hsplit := Nat.div_add_mod p (4 * ngcLfgK)
  rw [← hat.position_eq] at hsplit
  rw [NgcLfgCtx.skip]
  split_ifs with hinside
  · have hsum : p + chunk = 4 * ngcLfgK * (p / (4 * ngcLfgK)) + (ctx.positionBytes + chunk) := by
      omega
    refine ⟨?_, ?_⟩
    · rw [hsum, Nat.mul_add_div (by decide), Nat.div_eq_of_lt hinside]
      exact hat.window
    · rw [hsum, Nat.mul_add_mod, Nat.mod_eq_of_lt hinside]
  · have hsum : p + chunk = 4 * ngcLfgK * (p / (4 * ngcLfgK) + 1) := by
      rw [Nat.mul_succ]
      omega
    have hquot : (p + chunk) / (4 * ngcLfgK) = p / (4 * ngcLfgK) + 1 := by
      rw [hsum, Nat.mul_div_cancel_left _ (by decide)]
    refine ⟨?_, ?_⟩
    · have hnext := window_lfgForward hw hat.window
      rw [← hquot] at hnext
      simpa only using hnext
    · rw [hsum, Nat.mul_mod_right]

/-- The bytes that are got are those of the stream, and the generator goes on behind them. -/
theorem ngcLfgGetBytes_eq (hw : LfgStream w) {p : ℕ} (hat : ctx.At w p) (count : ℕ) :
    (ngcLfgGetBytes ctx count).1 = (List.range count).map (fun i ↦ streamByte w (p + i)) ∧
      (ngcLfgGetBytes ctx count).2.At w (p + count) := by
  induction count using Nat.strongRecOn generalizing ctx p with
  | _ count ih =>
    rw [ngcLfgGetBytes]
    split_ifs with hcount
    · exact hcount ▸ ⟨rfl, hat⟩
    obtain ⟨chunk, hchunk⟩ : ∃ chunk, min count (4 * ngcLfgK - ctx.positionBytes) = chunk := ⟨_, rfl⟩
    have hposition := ctx.position_lt
    have hsplit := Nat.div_add_mod p (4 * ngcLfgK)
    rw [← hat.position_eq, Nat.mul_comm] at hsplit
    have hfirst : (List.range chunk).map (fun i ↦ lfgByte ctx.buffer (ctx.positionBytes + i)) =
        (List.range chunk).map fun i ↦ streamByte w (p + i) := by
      refine List.map_congr_left fun i hi ↦ ?_
      have hlt := List.mem_range.mp hi
      rw [lfgByte_of_window hat.window (by omega), ← Nat.add_assoc, hsplit]
    have hskip : (ctx.skip chunk).At w (p + chunk) := hat.skip hw (by omega)
    obtain ⟨hrest, hat⟩ := ih (count - chunk) (by omega) hskip
    rw [Nat.add_assoc, Nat.add_sub_cancel' (by omega)] at hat
    simp only [hchunk, hfirst, hrest, hat, and_true]
    rw [map_range_split _ (show chunk ≤ count by omega)]
    simp only [Nat.add_assoc]

theorem ngcLfgSetSeed_at (seed : LfgSeed) : (ngcLfgSetSeed seed).At (seedStream seed) 0 :=
  ⟨by simpa using window_setSeed seed, rfl⟩

theorem junkBytes_eq (seed : LfgSeed) (offset count : ℕ) : junkBytes seed offset count =
      (List.range count).map fun i ↦ streamByte (seedStream seed) (offset + i) := by
  have hw : LfgStream (seedStream seed) := lfgStream_lagged _
  rw [junkBytes, (ngcLfgGetBytes_eq hw (ngcLfgSetSeed_at seed) _).1, List.range_add,
    List.map_append, List.drop_left' (by simp), List.map_map]
  simp only [Function.comp_def, Nat.zero_add]

/-! ### How far data agrees with bytes -/

/-- How many bytes of the data are those from a place on. -/
def agreeing (f : ℕ → UInt8) : (place : ℕ) → List UInt8 → ℕ
  | _, [] => 0
  | place, p :: data => if p = f place then agreeing f (place + 1) data + 1 else 0

section Agreeing

variable {f : ℕ → UInt8} {data : List UInt8} {place n : ℕ}

theorem agreeing_le_length : agreeing f place data ≤ data.length := by
  induction data generalizing place with
  | nil => exact le_rfl
  | cons p data ih =>
    rw [agreeing]
    split_ifs
    · exact Nat.succ_le_succ ih
    · exact Nat.zero_le _

theorem le_agreeing_iff (hn : n ≤ data.length) :
    n ≤ agreeing f place data ↔ data.take n = (List.range n).map fun i ↦ f (place + i) := by
  induction data generalizing place n with
  | nil =>
    obtain rfl : n = 0 := Nat.le_zero.mp hn
    simp
  | cons p data ih =>
    cases n with
    | zero => simp
    | succ n =>
      have htail := @ih (place + 1) n (Nat.le_of_succ_le_succ hn)
      rw [List.range_succ_eq_map, List.map_cons, List.map_map, List.take_succ_cons, agreeing,
        List.cons.injEq]
      simp only [Function.comp_def, Nat.add_zero, Nat.succ_eq_add_one]
      simp only [Nat.add_assoc, Nat.add_comm 1] at htail
      rw [← htail]
      split_ifs with hp
      · rw [Nat.add_le_add_iff_right]
        exact (and_iff_right hp).symm
      · exact iff_of_false (Nat.not_succ_le_zero n) fun h ↦ hp h.1

theorem agreeing_eq_length_iff : agreeing f place data = data.length ↔
      data = (List.range data.length).map fun i ↦ f (place + i) := by
  have hiff := @le_agreeing_iff f data place data.length le_rfl
  rw [List.take_length] at hiff
  rw [← hiff, Nat.le_antisymm_iff, and_iff_right agreeing_le_length]

end Agreeing

theorem matchingBytes_eq (hw : LfgStream w) (data : List UInt8)
    (hb : Window ngcLfgK w (c * ngcLfgK) b) (hposition : position < 4 * ngcLfgK) :
    matchingBytes data b position =
      agreeing (streamByte w) (c * (4 * ngcLfgK) + position) data := by
  induction data generalizing b c position with
  | nil => rfl
  | cons p data ih =>
    rw [matchingBytes, agreeing, lfgByte_of_window hb hposition]
    by_cases hp : p = streamByte w (c * (4 * ngcLfgK) + position)
    · rw [if_neg (not_not_intro hp), if_pos hp]
      split_ifs with hlast
      · rw [ih (window_lfgForward hw hb) (by decide), Nat.succ_mul, Nat.add_assoc _ position, hlast]
        exact congrArg (agreeing _ · data + 1) (Nat.add_zero _)
      · rw [ih hb (by omega), Nat.add_assoc]
    · rw [if_pos hp, if_neg hp]

/-! ### The search -/

/-- There are as many whole words as a buffer has. -/
def EnoughWords (data : List UInt8) (dataOffset : ℕ) : Prop :=
  ngcLfgK ≤ (data.length - bytesToSkip dataOffset) / 4

/-- The whole words of the data, as many as a buffer has, are those of a seed. -/
def SeedWords (seed : LfgSeed) (data : List UInt8) (dataOffset : ℕ) : Prop :=
  ∀ i < ngcLfgK, u32Data data dataOffset i = seedStream seed (u32DataOffset dataOffset + i)

/-- Where the comparison begins. -/
def comparedFrom (dataOffset : ℕ) : ℕ :=
  u32DataOffset dataOffset / ngcLfgK * (4 * ngcLfgK) + dataOffset % (4 * ngcLfgK)

theorem u32DataOffset_eq (dataOffset : ℕ) :
    dataOffset + bytesToSkip dataOffset = 4 * u32DataOffset dataOffset := by
  rw [u32DataOffset, bytesToSkip]
  omega

/-- The words of the data in their places. -/
theorem placeData_mod {word : ℕ → BitVec 32} {i : ℕ} (hi : i < ngcLfgK) (m : ℕ) :
    placeData word (m % ngcLfgK) ((m + i) % ngcLfgK) = word i := by
  have hsplit := Nat.div_add_mod m ngcLfgK
  have hlt := Nat.mod_lt m (by decide : 0 < ngcLfgK)
  rw [placeData]
  rcases Nat.lt_or_ge (m % ngcLfgK + i) ngcLfgK with hsame | hnext
  · have hplace : (m + i) % ngcLfgK = m % ngcLfgK + i := by
      rw [Nat.add_mod, Nat.mod_eq_of_lt hi, Nat.mod_eq_of_lt hsame]
    rw [hplace, if_neg (by omega), Nat.add_sub_cancel_left]
  · have hplace : (m + i) % ngcLfgK = m % ngcLfgK + i - ngcLfgK := by
      rw [Nat.add_mod, Nat.mod_eq_of_lt hi, Nat.mod_eq_sub_mod hnext, Nat.mod_eq_of_lt (by omega)]
    rw [hplace, if_pos (by omega)]
    exact congrArg word (by omega)

section Search

variable {v : ℕ → BitVec 32} {word : ℕ → BitVec 32} {m : ℕ}

theorem window_placeData :
    Window ngcLfgK v m (placeData word (m % ngcLfgK)) ↔ ∀ i < ngcLfgK, word i = v (m + i) := by
  constructor
  · intro hb i hi
    rw [← hb (m + i) (Nat.le_add_right _ _) (by omega), placeData_mod hi]
  · intro hwords n hn hlt
    obtain ⟨i, rfl⟩ := Nat.exists_eq_add_of_le hn
    rw [placeData_mod (by omega), hwords i (by omega)]

/-- From the words of the data back to those that the generator started with. -/
theorem window_raw (hv : LfgStream v)
    (hb : Window ngcLfgK v (m + 4 * ngcLfgK) (placeData word (m % ngcLfgK))) {i : ℕ}
    (hi : i < ngcLfgK) :
    (lfgBackward 0 ngcLfgK)^[4] ((lfgBackward 0 ngcLfgK)^[m / ngcLfgK]
      (lfgBackward 0 (m % ngcLfgK) (placeData word (m % ngcLfgK)))) i = v i := by
  have hlt := Nat.mod_lt m (by decide : 0 < ngcLfgK)
  have hsplit : m + 4 * ngcLfgK = (4 + m / ngcLfgK) * ngcLfgK + m % ngcLfgK := by
    have := Nat.div_add_mod' m ngcLfgK
    rw [Nat.add_mul]
    omega
  rw [hsplit] at hb
  have hfirst := hb.foldl_stir_reverse xor_cancel_right lfg_lags.1 lfg_lags.2 hv hlt.le
  rw [← lfgBackward_eq hlt.le] at hfirst
  have hblocks := window_backward hv hfirst
  rw [show (4 : ℕ) = 0 + 4 from rfl] at hblocks
  have hword := window_backward hv hblocks i (by omega) (by omega)
  rwa [Nat.mod_eq_of_lt hi] at hword

/-- The stream of a seed, with the words that it starts from in front. -/
def rawStream (seed : LfgSeed) : ℕ → BitVec 32 :=
  extend (· ^^^ ·) ngcLfgK ngcLfgJ (rawWord (seedBuffer seed))

theorem rawStream_lagged (seed : LfgSeed) : LfgStream (rawStream seed) :=
  lagged_extend lfg_lags.1 lfg_lags.2 _

/-- The words that a seed starts from determine its stream. -/
theorem rawStream_eq {seed : LfgSeed} (hv : LfgStream v)
    (hraw : ∀ i < ngcLfgK, rawWord (seedBuffer seed) i = v i) : rawStream seed = v := by
  refine (rawStream_lagged seed).eq_of_window xor_cancel_right lfg_lags.1 lfg_lags.2 hv
    (m := 0) fun n _ hn ↦ ?_
  rw [Nat.zero_add] at hn
  rw [rawStream, extend_of_lt hn, hraw n hn]

theorem patterned_of_window (hv : LfgStream v)
    (hwindow : ∀ n, m ≤ n → n < m + ngcLfgK → Patterned (swap32 (v n))) (n : ℕ) :
    Patterned (swap32 (v n)) := by
  refine hv.forall_of_window xor_cancel_right lfg_lags.1 lfg_lags.2
    (P := fun x ↦ Patterned (swap32 x)) (fun x y hx hy ↦ ?_) hwindow n
  rw [swap32_xor]
  exact hx.xor hy

theorem patterned_rawStream (seed : LfgSeed) (n : ℕ) : Patterned (swap32 (rawStream seed n)) := by
  refine patterned_of_window (rawStream_lagged seed) (m := 0) (fun i _ hi ↦ ?_) n
  rw [Nat.zero_add] at hi
  rw [rawStream, extend_of_lt hi, rawWord, swap32_swap32]
  exact patterned_quirk _

end Search

section GetSeed

variable {address dataOffset : ℕ} {data : List UInt8} {seed : LfgSeed}

/-- Where a seed makes the words of the data, the search finds its stream and counts how far the
data agrees with it. -/
theorem ngcLfgGetSeed_of_seed (haligned : Aligned address dataOffset)
    (henough : EnoughWords data dataOffset) (hseed : SeedWords seed data dataOffset) :
    ∃ seed', ngcLfgGetSeed address data dataOffset =
        (agreeing (streamByte (seedStream seed)) (comparedFrom dataOffset) data, some seed') ∧
      seedStream seed' = seedStream seed := by
  have hlength : ¬data.length < bytesToSkip dataOffset := by
    unfold EnoughWords ngcLfgK at henough
    omega
  have hpattern : ∀ i < ngcLfgK, Patterned (swap32 (u32Data data dataOffset i)) := fun i hi ↦
    hseed i hi ▸ patterned_rawStream seed _
  have hwords : ∀ i < ngcLfgK, u32Data data dataOffset i =
      rawStream seed (u32DataOffset dataOffset + 4 * ngcLfgK + i) := by
    intro i hi
    rw [hseed i hi, Nat.add_right_comm]
    rfl
  have hplaced := window_placeData.mpr hwords
  rw [Nat.add_mul_mod_self_right] at hplaced
  have hraw := fun i hi ↦ window_raw (rawStream_lagged seed) hplaced (i := i) hi
  have hstart : ∀ i < ngcLfgK, rawWord (seedBuffer seed) i = rawStream seed i := fun i hi ↦ by
    rw [rawStream, extend_of_lt hi]
  obtain ⟨seed', b, hdone⟩ := exists_reinitialize rfl fun i hi ↦
    (hstart i hi).trans (hraw i hi).symm
  obtain ⟨hraw', hb⟩ := rawWord_of_reinitialize rfl
    (fun i hi ↦ by rw [hraw i hi]; exact patterned_rawStream seed i) hdone
  have hstream : seedStream seed' = seedStream seed := by
    have hsame : rawStream seed' = rawStream seed :=
      rawStream_eq (rawStream_lagged seed) fun i hi ↦ (hraw' i hi).trans (hraw i hi)
    funext n
    exact congrFun hsame (n + 4 * ngcLfgK)
  refine ⟨seed', ?_, hstream⟩
  have hrun := window_forward (lfgStream_lagged _) (c := 0) (by rwa [Nat.zero_mul])
    (u32DataOffset dataOffset / ngcLfgK)
  rw [Nat.zero_add] at hrun
  simp only [ngcLfgGetSeed]
  rw [if_neg (not_not_intro haligned), if_neg hlength, if_neg (Nat.not_lt.mpr henough),
    if_neg (not_not_intro hpattern), hdone]
  simp only
  rw [matchingBytes_eq (lfgStream_lagged _) data hrun (Nat.mod_lt _ (by decide)), comparedFrom,
    ← hstream, seedStream]

/-- A search that counts anything has found a seed that makes the words of the data. -/
theorem seedWords_of_pos (hpos : 0 < (ngcLfgGetSeed address data dataOffset).1) :
    Aligned address dataOffset ∧ EnoughWords data dataOffset ∧
      ∃ seed, (ngcLfgGetSeed address data dataOffset).2 = some seed ∧
        SeedWords seed data dataOffset := by
  simp only [ngcLfgGetSeed] at hpos ⊢
  by_cases haligned : Aligned address dataOffset
  swap
  · rw [if_pos haligned] at hpos
    exact absurd hpos (Nat.lt_irrefl 0)
  rw [if_neg (not_not_intro haligned)] at hpos ⊢
  split_ifs at hpos ⊢ with hshort hfew hpattern
  · exact absurd hpos (Nat.lt_irrefl 0)
  · exact absurd hpos (Nat.lt_irrefl 0)
  swap
  · exact absurd hpos (Nat.lt_irrefl 0)
  refine ⟨haligned, Nat.not_lt.mp hfew, ?_⟩
  obtain ⟨v, hv, hplaced⟩ := exists_window xor_cancel_right lfg_lags.1 lfg_lags.2
    (u32DataOffset dataOffset + 4 * ngcLfgK)
    (placeData (u32Data data dataOffset) (u32DataOffset dataOffset % ngcLfgK))
  have hraw := fun i hi ↦ window_raw hv hplaced (i := i) hi
  have hwords := window_placeData.mp (by rwa [Nat.add_mul_mod_self_right])
  have hpatterned := patterned_of_window (m := u32DataOffset dataOffset + 4 * ngcLfgK) hv
    fun n hn hlt ↦ by
      obtain ⟨i, rfl⟩ := Nat.exists_eq_add_of_le hn
      rw [← hwords i (by omega)]
      exact hpattern i (by omega)
  cases hdone : lfgReinitialize ((lfgBackward 0 ngcLfgK)^[u32DataOffset dataOffset / ngcLfgK]
    (lfgBackward 0 (u32DataOffset dataOffset % ngcLfgK)
      (placeData (u32Data data dataOffset) (u32DataOffset dataOffset % ngcLfgK)))) with
  | mk seed found =>
    cases found with
    | none =>
      rw [hdone] at hpos
      exact absurd hpos (Nat.lt_irrefl 0)
    | some b =>
      obtain ⟨hraw', -⟩ := rawWord_of_reinitialize rfl
        (fun i hi ↦ by rw [hraw i hi]; exact hpatterned i) hdone
      refine ⟨seed, rfl, fun i hi ↦ ?_⟩
      have hsame := rawStream_eq hv fun i hi ↦ (hraw' i hi).trans (hraw i hi)
      rw [hwords i hi, ← hsame, Nat.add_right_comm]
      rfl

end GetSeed

/-! ### What is recovered -/

section Recovered

variable {address dataOffset : ℕ} {data : List UInt8} {seed : LfgSeed} {w : ℕ → BitVec 32}

theorem eq_of_wordBytes {x y : BitVec 32} (hbytes : ∀ r < 4, wordByte x r = wordByte y r) :
    x = y := by
  apply BitVec.eq_of_getLsbD_eq
  intro i hi
  have hbyte : (wordByte x (i / 8)).toBitVec.getLsbD (i % 8) =
      (wordByte y (i / 8)).toBitVec.getLsbD (i % 8) := by rw [hbytes (i / 8) (by omega)]
  have hplace : 8 * (i / 8) + i % 8 = i := Nat.div_add_mod i 8
  simpa [wordByte, BitVec.getLsbD_extractLsb', hplace, Nat.mod_lt] using hbyte

theorem wordByte_zero (r : ℕ) : wordByte 0 r = 0 :=
  congrArg UInt8.ofBitVec (by simp)

theorem dataWord_eq {x : BitVec 32} {i : ℕ}
    (hbytes : ∀ r < 4, data.getD (4 * i + r) 0 = wordByte x r) : dataWord data i = x := by
  have h0 := hbytes 0 (by decide)
  have h1 := hbytes 1 (by decide)
  have h2 := hbytes 2 (by decide)
  have h3 := hbytes 3 (by decide)
  rw [Nat.add_zero] at h0
  rw [dataWord, h0, h1, h2, h3]
  apply BitVec.eq_of_getLsbD_eq
  intro j hj
  simp only [wordByte, BitVec.getLsbD_append, BitVec.getLsbD_extractLsb']
  interval_cases j <;> simp

/-- The bytes of the whole words of a stream. -/
theorem streamByte_word (w : ℕ → BitVec 32) (m : ℕ) {r : ℕ} (hr : r < 4) :
    streamByte w (4 * m + r) = wordByte (w m) r := by
  rw [streamByte, Nat.mul_add_div (by decide), Nat.div_eq_of_lt hr, Nat.mul_add_mod,
    Nat.mod_eq_of_lt hr, Nat.add_zero]

/-- Data that agrees with the stream of a seed has its words. -/
theorem seedWords_of_agreeing (henough : EnoughWords data dataOffset)
    (hagree : agreeing (streamByte (seedStream seed)) dataOffset data = data.length) :
    SeedWords seed data dataOffset := by
  intro i hi
  refine dataWord_eq fun r hr ↦ ?_
  have hstart := u32DataOffset_eq dataOffset
  have hinside : bytesToSkip dataOffset + (4 * i + r) < data.length := by
    unfold EnoughWords at henough
    omega
  rw [agreeing_eq_length_iff] at hagree
  rw [← streamByte_word _ _ hr, List.getD_eq_getElem?_getD, List.getElem?_drop, hagree,
    List.getElem?_map, List.getElem?_range hinside]
  simp only [Option.map_some, Option.getD_some]
  congr 1
  omega

/-- A stream that repeats itself after a buffer, for the length of a buffer, is zero. -/
theorem stream_zero (hw : LfgStream w) {m : ℕ}
    (hrepeat : ∀ i < ngcLfgK, w (m + i) = w (m + ngcLfgK + i)) (n : ℕ) : w n = 0 := by
  refine hw.forall_of_window xor_cancel_right lfg_lags.1 lfg_lags.2 (P := fun x ↦ x = 0)
    (m := m + ngcLfgK - ngcLfgJ) (fun x y hx hy ↦ by rw [hx, hy]; rfl) (fun n hn hlt ↦ ?_) n
  have hlags := lfg_lags.2
  obtain ⟨i, hi⟩ := Nat.exists_eq_add_of_le hn
  have hstep := hw (m + i)
  have hsame := hrepeat i (by omega)
  rw [show m + i + ngcLfgK = m + ngcLfgK + i by omega, ← hsame,
    show m + ngcLfgK + i - ngcLfgJ = n by omega] at hstep
  have hcancel := congrArg (w (m + i) ^^^ ·) hstep
  simp only [BitVec.xor_self, ← BitVec.xor_assoc, BitVec.zero_xor] at hcancel
  exact hcancel.symm

/-- What a search is for: data that a seed makes is recognized as a whole, with a seed that makes the
same stream, and what a search counts is made by the seed that it returns. -/
structure RecoversSeed (address : ℕ) (data : List UInt8) (dataOffset : ℕ) : Prop where
  complete : ∀ seed, Aligned address dataOffset → EnoughWords data dataOffset →
    data = junkBytes seed dataOffset data.length →
      (ngcLfgGetSeed address data dataOffset).1 = data.length ∧
        ∃ seed', (ngcLfgGetSeed address data dataOffset).2 = some seed' ∧
          ∀ count, junkBytes seed' 0 count = junkBytes seed 0 count
  sound : 0 < (ngcLfgGetSeed address data dataOffset).1 →
    ∃ seed', (ngcLfgGetSeed address data dataOffset).2 = some seed' ∧
      data.take (ngcLfgGetSeed address data dataOffset).1 =
        junkBytes seed' dataOffset (ngcLfgGetSeed address data dataOffset).1

/-- The first byte and the first whole word of the data are in one buffer. -/
def InOneBuffer (dataOffset : ℕ) : Prop := dataOffset % (4 * ngcLfgK) + 3 < 4 * ngcLfgK

theorem comparedFrom_of_inOneBuffer (hinside : InOneBuffer dataOffset) :
    comparedFrom dataOffset = dataOffset := by
  unfold InOneBuffer at hinside
  unfold comparedFrom u32DataOffset bytesToSkip
  simp only [ngcLfgK] at hinside ⊢
  omega

theorem comparedFrom_of_not (hacross : ¬InOneBuffer dataOffset) :
    comparedFrom dataOffset = dataOffset + 4 * ngcLfgK := by
  unfold InOneBuffer at hacross
  unfold comparedFrom u32DataOffset bytesToSkip
  simp only [ngcLfgK] at hacross ⊢
  omega

theorem eq_junkBytes_iff : data = junkBytes seed dataOffset data.length ↔
    agreeing (streamByte (seedStream seed)) dataOffset data = data.length := by
  rw [junkBytes_eq, agreeing_eq_length_iff]

theorem take_eq_junkBytes_iff {n : ℕ} (hn : n ≤ data.length) :
    data.take n = junkBytes seed dataOffset n ↔
      n ≤ agreeing (streamByte (seedStream seed)) dataOffset data := by
  rw [junkBytes_eq, le_agreeing_iff hn]

/-- Data that is made by a seed and by the same seed one buffer later is zero. -/
theorem stream_zero_of_ahead (henough : EnoughWords data dataOffset)
    (hat : agreeing (streamByte (seedStream seed)) dataOffset data = data.length)
    (hahead : agreeing (streamByte (seedStream seed)) (dataOffset + 4 * ngcLfgK) data = data.length)
    (n : ℕ) : seedStream seed n = 0 := by
  have hstart := u32DataOffset_eq dataOffset
  rw [agreeing_eq_length_iff] at hat hahead
  refine stream_zero (lfgStream_lagged _) (m := u32DataOffset dataOffset) (fun i hi ↦ ?_) n
  refine eq_of_wordBytes fun r hr ↦ ?_
  have hinside : bytesToSkip dataOffset + (4 * i + r) < data.length := by
    unfold EnoughWords at henough
    omega
  have hbyte := hat.symm.trans hahead
  have hsame := congrArg (fun l ↦ l[bytesToSkip dataOffset + (4 * i + r)]?) hbyte
  simp only [List.getElem?_map, List.getElem?_range hinside, Option.map_some,
    Option.some.injEq] at hsame
  rw [show dataOffset + (bytesToSkip dataOffset + (4 * i + r)) =
      4 * (u32DataOffset dataOffset + i) + r by omega,
    show dataOffset + 4 * ngcLfgK + (bytesToSkip dataOffset + (4 * i + r)) =
      4 * (u32DataOffset dataOffset + ngcLfgK + i) + r by omega,
    streamByte_word _ _ hr, streamByte_word _ _ hr] at hsame
  exact hsame

/-- What can go right where the data does not begin in the buffer of its first whole word. A seed that
makes the words of the data does not make more of it one buffer later than where it is, and all of it
only if it makes zeros. -/
def NoFurtherAhead (data : List UInt8) (dataOffset : ℕ) : Prop :=
  ∀ seed, EnoughWords data dataOffset → SeedWords seed data dataOffset →
    agreeing (streamByte (seedStream seed)) (dataOffset + 4 * ngcLfgK) data ≤
        agreeing (streamByte (seedStream seed)) dataOffset data ∧
      (data = junkBytes seed dataOffset data.length → ∀ n, seedStream seed n = 0)

theorem recoversSeed_of_inOneBuffer (hinside : InOneBuffer dataOffset) :
    RecoversSeed address data dataOffset where
  complete seed haligned henough hdata := by
    have hat := eq_junkBytes_iff.mp hdata
    obtain ⟨seed', hget, hstream⟩ :=
      ngcLfgGetSeed_of_seed haligned henough (seedWords_of_agreeing henough hat)
    rw [comparedFrom_of_inOneBuffer hinside, hat] at hget
    rw [hget]
    exact ⟨rfl, seed', rfl, fun count ↦ by rw [junkBytes_eq, junkBytes_eq, hstream]⟩
  sound hpos := by
    obtain ⟨haligned, henough, seed, hseed, hwords⟩ := seedWords_of_pos hpos
    obtain ⟨seed', hget, hstream⟩ := ngcLfgGetSeed_of_seed haligned henough hwords
    rw [comparedFrom_of_inOneBuffer hinside] at hget
    rw [hget]
    refine ⟨seed', rfl, ?_⟩
    rw [take_eq_junkBytes_iff agreeing_le_length, hstream]

theorem recoversSeed_iff_of_across (hacross : ¬InOneBuffer dataOffset)
    (haligned : Aligned address dataOffset) :
    RecoversSeed address data dataOffset ↔ NoFurtherAhead data dataOffset := by
  have hfound : ∀ seed, EnoughWords data dataOffset → SeedWords seed data dataOffset →
      ∃ seed', ngcLfgGetSeed address data dataOffset =
          (agreeing (streamByte (seedStream seed)) (dataOffset + 4 * ngcLfgK) data, some seed') ∧
        seedStream seed' = seedStream seed := by
    intro seed henough hwords
    rw [← comparedFrom_of_not hacross]
    exact ngcLfgGetSeed_of_seed haligned henough hwords
  constructor
  · intro hrecovers seed henough hwords
    obtain ⟨seed', hget, hstream⟩ := hfound seed henough hwords
    constructor
    · rcases Nat.eq_zero_or_pos
        (agreeing (streamByte (seedStream seed)) (dataOffset + 4 * ngcLfgK) data) with hzero | hpos
      · rw [hzero]
        exact Nat.zero_le _
      · obtain ⟨found, hsome, htake⟩ := hrecovers.sound (by rwa [hget])
        rw [hget] at hsome htake
        obtain rfl := Option.some.inj hsome
        rwa [take_eq_junkBytes_iff agreeing_le_length, hstream] at htake
    · intro hdata
      have hall := (hrecovers.complete seed haligned henough hdata).1
      rw [hget] at hall
      exact stream_zero_of_ahead henough (eq_junkBytes_iff.mp hdata) hall
  · intro hahead
    refine ⟨fun seed _ henough hdata ↦ ?_, fun hpos ↦ ?_⟩
    · have hat := eq_junkBytes_iff.mp hdata
      have hwords := seedWords_of_agreeing henough hat
      obtain ⟨seed', hget, hstream⟩ := hfound seed henough hwords
      have hzero := (hahead seed henough hwords).2 hdata
      -- A stream of zeros is the same everywhere.
      have hmoved : agreeing (streamByte (seedStream seed)) (dataOffset + 4 * ngcLfgK) data =
          data.length := by
        rw [agreeing_eq_length_iff] at hat ⊢
        simpa only [streamByte, hzero, wordByte_zero] using hat
      rw [hget, hmoved]
      exact ⟨rfl, seed', rfl, fun count ↦ by rw [junkBytes_eq, junkBytes_eq, hstream]⟩
    · obtain ⟨-, henough, seed, -, hwords⟩ := seedWords_of_pos hpos
      obtain ⟨seed', hget, hstream⟩ := hfound seed henough hwords
      rw [hget]
      refine ⟨seed', rfl, ?_⟩
      rw [take_eq_junkBytes_iff agreeing_le_length, hstream]
      exact (hahead seed henough hwords).1

/-- A search does what it is for, unless the data begins in the last three bytes of a buffer and a
seed makes more of it one buffer later, or other junk than zeros is to be recognized there. -/
theorem recoversSeed_iff (address : ℕ) (data : List UInt8) (dataOffset : ℕ) :
    RecoversSeed address data dataOffset ↔
      (Aligned address dataOffset → InOneBuffer dataOffset ∨ NoFurtherAhead data dataOffset) := by
  by_cases haligned : Aligned address dataOffset
  · rw [forall_prop_of_true haligned]
    by_cases hinside : InOneBuffer dataOffset
    · exact iff_of_true (recoversSeed_of_inOneBuffer hinside) (Or.inl hinside)
    · rw [recoversSeed_iff_of_across hinside haligned, or_iff_right hinside]
  · refine iff_of_true ⟨fun _ h ↦ absurd h haligned, fun hpos ↦ ?_⟩ fun h ↦ absurd h haligned
    exact absurd (seedWords_of_pos hpos).1 haligned

/-- A seed with one bit. -/
def oneBitSeed : LfgSeed := fun i ↦ if (i : ℕ) = 16 then 1 else 0

/-- The junk of this seed is not zero. -/
theorem oneBitSeed_stream : ∃ n, seedStream oneBitSeed n ≠ 0 := by
  by_contra hzero
  have hall : ∀ n, rawStream oneBitSeed n = 0 := by
    refine (rawStream_lagged oneBitSeed).forall_of_window xor_cancel_right lfg_lags.1 lfg_lags.2
      (P := fun x ↦ x = 0) (m := 4 * ngcLfgK) (fun x y hx hy ↦ by rw [hx, hy]; rfl) fun n hn _ ↦ ?_
    obtain ⟨d, rfl⟩ := Nat.exists_eq_add_of_le' hn
    exact not_not.mp (not_exists.mp hzero d)
  have hword := hall 16
  rw [rawStream, extend_of_lt (by decide), rawWord, expansion_of_lt (by decide)] at hword
  exact absurd hword (by decide)

/-- The junk of this seed from the last byte of the first buffer on is not recognized, although it
has as many whole words as a buffer. -/
theorem oneBitSeed_missed : Aligned 3 2083 ∧ EnoughWords (junkBytes oneBitSeed 2083 2085) 2083 ∧
      ¬RecoversSeed 3 (junkBytes oneBitSeed 2083 2085) 2083 := by
  have hlength : (junkBytes oneBitSeed 2083 2085).length = 2085 := by
    rw [junkBytes_eq, List.length_map, List.length_range]
  have henough : EnoughWords (junkBytes oneBitSeed 2083 2085) 2083 := by
    rw [EnoughWords, hlength]
    decide
  have haligned : Aligned 3 2083 := by decide
  have hacross : ¬InOneBuffer 2083 := by
    unfold InOneBuffer
    decide
  refine ⟨haligned, henough, fun hrecovers ↦ ?_⟩
  have hdata : junkBytes oneBitSeed 2083 2085 =
      junkBytes oneBitSeed 2083 (junkBytes oneBitSeed 2083 2085).length := by rw [hlength]
  have hwords := seedWords_of_agreeing henough (eq_junkBytes_iff.mp hdata)
  obtain ⟨n, hn⟩ := oneBitSeed_stream
  exact hn (((recoversSeed_iff_of_across hacross haligned).mp hrecovers _ henough hwords).2 hdata n)

end Recovered

end Obmafs3
