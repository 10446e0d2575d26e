import Mathlib.Data.Nat.Factorization.Basic
import Obmafs3.Volume

/-!
# The search for free blocks, word by word

`obmafs3_bitmap_find_free` as it is written, on words of 64 bits: the bits in front of the hint and
behind the end of the pass are masked out, full words are skipped, and in the others the lowest free
bit is taken one after the other. `bitmapFindFree_words` says that it finds what the search bit by
bit finds, and `bitmapFindFree_exact` when that is right: a run that crosses the hint is in neither
pass. The counters of the source do not overflow: a bitmap in memory has far less than 2^61 bytes.
-/

set_option autoImplicit false

namespace Obmafs3.WordScan

/-! ### The search -/

/-- The bitmap in memory, read as words. The words past its end are whatever is there. -/
structure WordBitmap where
  totalBlocks : ℕ
  nextFreeLba : ℕ
  words : ℕ → BitVec 64

/-- What the scan of a word ends with: a run that is long enough, or the run that it ends in. -/
inductive Scan
  | found (start : ℕ)
  | run (runStart runLen : ℕ)
  deriving DecidableEq, Repr

/-- The bits below a position. -/
def lowBits (n : ℕ) : BitVec 64 := (1#64 <<< n) - 1#64

/-- A word with the bits set that are not in the pass. -/
def maskedWord (words : ℕ → BitVec 64) (bit scanEnd : ℕ) : BitVec 64 :=
  let wordIdx := bit / 64
  let bitInWord := bit % 64
  let word := words wordIdx
  let word := if bitInWord ≠ 0 then word ||| lowBits bitInWord else word
  let wordEnd := (wordIdx + 1) * 64
  if scanEnd < wordEnd then word ||| ~~~lowBits (64 - (wordEnd - scanEnd)) else word

/-- The loop over the free bits of a word. Each turn clears one of the 64. -/
def scanMask (count scanEnd base : ℕ) :
    (fuel : ℕ) → (freeMask : BitVec 64) → (runStart runLen : ℕ) → Scan
  | 0, _, runStart, runLen => .run runStart runLen
  | fuel + 1, freeMask, runStart, runLen =>
    if freeMask = 0#64 then .run runStart runLen
    else
      let absBit := base + freeMask.ctz.toNat
      if scanEnd ≤ absBit then .run runStart runLen
      else
        let (runStart, runLen) :=
          if runLen = 0 ∨ absBit ≠ runStart + runLen then (absBit, 1) else (runStart, runLen + 1)
        if count ≤ runLen then .found runStart
        else scanMask count scanEnd base fuel (freeMask &&& (freeMask - 1#64)) runStart runLen

/-- One pass, a word at a time. -/
def scanPass (words : ℕ → BitVec 64) (count scanEnd : ℕ) : (fuel bit runStart runLen : ℕ) → Option ℕ
  | 0, _, _, _ => none
  | fuel + 1, bit, runStart, runLen =>
    if bit < scanEnd then
      let wordIdx := bit / 64
      let word := maskedWord words bit scanEnd
      if word = BitVec.allOnes 64 then
        scanPass words count scanEnd fuel ((wordIdx + 1) * 64) runStart 0
      else
        match scanMask count scanEnd (wordIdx * 64) 64 (~~~word) runStart runLen with
        | .found start => some start
        | .run runStart runLen =>
          scanPass words count scanEnd fuel ((wordIdx + 1) * 64) runStart runLen
    else none

namespace WordBitmap

/-- The hint, kept inside the volume. -/
def hint (b : WordBitmap) : ℕ := if b.totalBlocks ≤ b.nextFreeLba then 0 else b.nextFreeLba

/-- The pass over the bits from `scanStart` to `scanEnd`. -/
def pass (b : WordBitmap) (count scanStart scanEnd : ℕ) : Option ℕ :=
  if scanEnd ≤ scanStart then none
  else scanPass b.words count scanEnd (scanEnd / 64 + 1) scanStart 0 0

/-- `obmafs3_bitmap_find_free`. -/
def bitmapFindFree (b : WordBitmap) (count : ℕ) : Except ErrorCode ℕ :=
  if b.totalBlocks = 0 then .error .noSpc
  else
    match b.pass count b.hint b.totalBlocks with
    | some start => .ok start
    | none =>
      if 0 < b.hint then
        match b.pass count 0 b.hint with
        | some start => .ok start
        | none => .error .noSpc
      else .error .noSpc

def bit (b : WordBitmap) (i : ℕ) : Bool := (b.words (i / 64)).getLsbD (i % 64)

end WordBitmap

/-! ### Masks -/

theorem getLsbD_lowBits {n : ℕ} (hn : n < 64) (i : ℕ) : (lowBits n).getLsbD i = decide (i < n) := by
  have hpow : 2 ^ n < 2 ^ 64 := Nat.pow_lt_pow_right (by decide) hn
  have hone : 1 ≤ 2 ^ n := Nat.one_le_two_pow
  have hvalue : (lowBits n).toNat = 2 ^ n - 1 := by
    rw [lowBits, BitVec.toNat_sub, BitVec.toNat_shiftLeft, Nat.shiftLeft_eq, BitVec.toNat_ofNat]
    omega
  rw [BitVec.getLsbD, hvalue, Nat.testBit_two_pow_sub_one]

variable {words : ℕ → BitVec 64} {bitmap : ℕ → Bool}

/-- The free bits of a word that are in the pass. -/
theorem getLsbD_not_maskedWord {bit scanEnd i : ℕ} (hlt : bit < scanEnd) (hi : i < 64) :
    (~~~maskedWord words bit scanEnd).getLsbD i = true ↔
      bit ≤ bit / 64 * 64 + i ∧ bit / 64 * 64 + i < scanEnd ∧
        (words (bit / 64)).getLsbD i = false := by
  have hlow : (if bit % 64 ≠ 0 then words (bit / 64) ||| lowBits (bit % 64)
      else words (bit / 64)).getLsbD i = false ↔
        bit ≤ bit / 64 * 64 + i ∧ (words (bit / 64)).getLsbD i = false := by
    split_ifs with h
    · have hge : ¬i < bit % 64 ↔ bit ≤ bit / 64 * 64 + i := by omega
      rw [BitVec.getLsbD_or, getLsbD_lowBits (by omega), Bool.or_eq_false_iff,
        decide_eq_false_iff_not, hge, and_comm]
    · have hge : bit ≤ bit / 64 * 64 + i := by omega
      exact ⟨fun hbit ↦ ⟨hge, hbit⟩, And.right⟩
  rw [BitVec.getLsbD_not, decide_eq_true hi, Bool.true_and, Bool.not_eq_true', maskedWord]
  generalize (if bit % 64 ≠ 0 then words (bit / 64) ||| lowBits (bit % 64)
    else words (bit / 64)) = word at hlow ⊢
  rw [and_left_comm, ← hlow]
  split_ifs with hend
  · have hinside : i < 64 - ((bit / 64 + 1) * 64 - scanEnd) ↔ bit / 64 * 64 + i < scanEnd := by
      omega
    rw [BitVec.getLsbD_or, BitVec.getLsbD_not, getLsbD_lowBits (by omega), Bool.or_eq_false_iff,
      decide_eq_true hi, Bool.true_and, Bool.not_eq_false', decide_eq_true_eq, hinside, and_comm]
  · have hinside : bit / 64 * 64 + i < scanEnd := by omega
    exact ⟨fun hbit ↦ ⟨hinside, hbit⟩, And.right⟩

variable {mask : BitVec 64}

/-- Clearing the lowest bit. -/
theorem getLsbD_clear {p : ℕ} (hp : mask.getLsbD p = true) (hlow : ∀ q < p, mask.getLsbD q = false)
    (q : ℕ) : (mask &&& (mask - 1#64)).getLsbD q = (mask.getLsbD q && decide (q ≠ p)) := by
  have hne : mask.toNat ≠ 0 := by
    intro hzero
    rw [BitVec.getLsbD, hzero, Nat.zero_testBit] at hp
    cases hp
  obtain ⟨k, m, ⟨j, rfl⟩, hk⟩ := Nat.exists_eq_two_pow_mul_odd hne
  have hpow : 2 ^ k * (2 * j + 1) = 2 ^ (k + 1) * j + 2 ^ k := by ring
  have hlt : 2 ^ k < 2 ^ (k + 1) := Nat.pow_lt_pow_right (by decide) (Nat.lt_succ_self k)
  have hbit (q : ℕ) : mask.getLsbD q =
      if q < k + 1 then decide (q = k) else j.testBit (q - (k + 1)) := by
    rw [BitVec.getLsbD, hk, hpow, Nat.testBit_two_pow_mul_add j hlt, Nat.testBit_two_pow]
    simp only [eq_comm]
  obtain rfl : p = k := by
    rw [hbit] at hp
    split_ifs at hp with h
    · exact of_decide_eq_true hp
    · have := hlow k (by omega)
      rw [hbit, if_pos (Nat.lt_succ_self k)] at this
      simp at this
  have hpred : (mask - 1#64).toNat = 2 ^ (p + 1) * j + (2 ^ p - 1) := by
    have hone : 1 ≤ 2 ^ p := Nat.one_le_two_pow
    have hlt := mask.isLt
    rw [hk, hpow] at hlt
    rw [BitVec.toNat_sub, hk, hpow, BitVec.toNat_ofNat]
    omega
  rw [BitVec.getLsbD_and, hbit, BitVec.getLsbD, hpred,
    Nat.testBit_two_pow_mul_add j (lt_of_le_of_lt (Nat.sub_le _ _) hlt),
    Nat.testBit_two_pow_sub_one]
  split_ifs with h
  · by_cases hqp : q = p <;> simp [hqp]
  · have hqp : q ≠ p := by omega
    simp [hqp]

theorem ctz_eq {p : ℕ} (hp : mask.getLsbD p = true) (hlow : ∀ q < p, mask.getLsbD q = false) :
    mask.ctz.toNat = p := by
  have hne : mask ≠ 0#64 := by
    rintro rfl
    simp at hp
  have hctz := BitVec.getLsbD_true_ctz_of_ne_zero hne
  refine le_antisymm (Nat.le_of_not_lt fun hlt ↦ ?_) (Nat.le_of_not_lt fun hlt ↦ ?_)
  · rw [BitVec.getLsbD_false_of_lt_ctz hlt] at hp
    cases hp
  · rw [hlow _ hlt] at hctz
    cases hctz

/-! ### Words against bits -/

section Bits

variable {bitmap : ℕ → Bool} {count scanEnd base : ℕ}

/-- The run of the word scan against the run of the scan bit by bit, which forgets a run at the bit
that ends it. -/
structure Follows (bit wordStart wordLen runStart runLen : ℕ) : Prop where
  open_run : runLen ≠ 0 → wordStart = runStart ∧ wordLen = runLen ∧ runStart + runLen = bit
  ended : runLen = 0 → wordLen = 0 ∨ wordStart + wordLen < bit

variable {bit wordStart wordLen runStart runLen : ℕ}

section

variable (h : Follows bit wordStart wordLen runStart runLen)
include h

theorem Follows.allocated : Follows (bit + 1) wordStart wordLen 0 0 := by
  refine ⟨fun hne ↦ absurd rfl hne, fun _ ↦ ?_⟩
  rcases Nat.eq_zero_or_pos runLen with hzero | hpos
  · exact (h.ended hzero).imp_right Nat.lt_succ_of_lt
  · obtain ⟨rfl, rfl, hend⟩ := h.open_run hpos.ne'
    exact Or.inr (by omega)

/-- A free bit makes the same run of both. -/
theorem Follows.free :
    (if wordLen = 0 ∨ bit ≠ wordStart + wordLen then (bit, 1) else (wordStart, wordLen + 1)) =
      (if runLen = 0 then bit else runStart, runLen + 1) ∧
    Follows (bit + 1) (if runLen = 0 then bit else runStart) (runLen + 1)
      (if runLen = 0 then bit else runStart) (runLen + 1) := by
  rcases Nat.eq_zero_or_pos runLen with rfl | hpos
  · have hended := h.ended rfl
    rw [if_pos rfl, if_pos (by omega)]
    exact ⟨rfl, fun _ ↦ ⟨rfl, rfl, rfl⟩, fun hzero ↦ absurd hzero (Nat.succ_ne_zero 0)⟩
  · obtain ⟨rfl, rfl, hend⟩ := h.open_run hpos.ne'
    rw [if_neg hpos.ne', if_neg (by omega)]
    exact ⟨rfl, fun _ ↦ ⟨rfl, rfl, by omega⟩, fun hzero ↦ absurd hzero (Nat.succ_ne_zero _)⟩

end

/-- The loop over a mask does what the scan bit by bit does over its `n` bits from `p` on. -/
theorem scanMask_spec {n : ℕ} (count rest : ℕ) {p fuel wordStart wordLen runStart runLen : ℕ}
    {mask : BitVec 64} (hfuel : n ≤ fuel) (hword : p + n ≤ 64) (hend : base + p + n ≤ scanEnd)
    (hmask : ∀ q < 64, mask.getLsbD q = true ↔ p ≤ q ∧ q < p + n ∧ bitmap (base + q) = false)
    (hfollows : Follows (base + p) wordStart wordLen runStart runLen) :
    (∃ start, scanMask count scanEnd base fuel mask wordStart wordLen = .found start ∧
      Volume.scanRun bitmap count (n + rest) (base + p) runStart runLen = some start) ∨
    ∃ wordStart' wordLen' runStart' runLen',
      scanMask count scanEnd base fuel mask wordStart wordLen = .run wordStart' wordLen' ∧
      Volume.scanRun bitmap count (n + rest) (base + p) runStart runLen =
        Volume.scanRun bitmap count rest (base + p + n) runStart' runLen' ∧
      Follows (base + p + n) wordStart' wordLen' runStart' runLen' := by
  induction n generalizing p fuel mask wordStart wordLen runStart runLen with
  | zero =>
    have hzero : mask = 0#64 := by
      refine BitVec.eq_of_getLsbD_eq fun q hq ↦ ?_
      rw [BitVec.getLsbD_zero, Bool.eq_false_iff, Ne, hmask q hq]
      omega
    refine Or.inr ⟨wordStart, wordLen, runStart, runLen, ?_, by rw [Nat.zero_add, Nat.add_zero],
      hfollows⟩
    cases fuel with
    | zero => rfl
    | succ fuel => rw [scanMask, if_pos hzero]
  | succ n ih =>
    have hsum : n + 1 + rest = n + rest + 1 := by omega
    have hnext : base + p + (n + 1) = base + (p + 1) + n := by omega
    rw [hsum, hnext, Volume.scanRun]
    cases hbit : bitmap (base + p) with
    | true =>
      rw [if_pos rfl]
      refine ih (p := p + 1) (Nat.le_of_succ_le hfuel) (by omega) (by omega) (fun q hq ↦ ?_)
        hfollows.allocated
      rw [hmask q hq]
      constructor
      · rintro ⟨hge, hlt, hfree⟩
        rcases Nat.eq_or_lt_of_le hge with rfl | hgt
        · rw [hbit] at hfree
          cases hfree
        · exact ⟨hgt, by omega, hfree⟩
      · rintro ⟨hge, hlt, hfree⟩
        exact ⟨by omega, by omega, hfree⟩
    | false =>
      have hp : mask.getLsbD p = true := (hmask p (by omega)).mpr ⟨le_rfl, by omega, hbit⟩
      have hlow : ∀ q < p, mask.getLsbD q = false := fun q hq ↦ by
        rw [Bool.eq_false_iff, Ne, hmask q (by omega)]
        omega
      have hne : mask ≠ 0#64 := by
        rintro rfl
        simp at hp
      obtain ⟨fuel, rfl⟩ := Nat.exists_eq_succ_of_ne_zero (show fuel ≠ 0 by omega)
      obtain ⟨hrun, hfollows'⟩ := hfollows.free
      rw [scanMask, if_neg hne, ctz_eq hp hlow]
      simp only [if_neg (show ¬scanEnd ≤ base + p by omega), hrun, Bool.false_eq_true, if_false]
      by_cases hlong : count ≤ runLen + 1
      · rw [if_pos hlong, if_pos hlong]
        exact Or.inl ⟨_, rfl, rfl⟩
      · rw [if_neg hlong, if_neg hlong]
        refine ih (p := p + 1) (Nat.le_of_succ_le_succ hfuel) (by omega) (by omega) (fun q hq ↦ ?_)
          hfollows'
        rw [getLsbD_clear hp hlow, Bool.and_eq_true, decide_eq_true_eq, hmask q hq]
        constructor
        · rintro ⟨⟨hge, hlt, hfree⟩, hqp⟩
          exact ⟨by omega, by omega, hfree⟩
        · rintro ⟨hge, hlt, hfree⟩
          exact ⟨⟨by omega, by omega, hfree⟩, by omega⟩

theorem scanRun_allocated {n rest bit runStart runLen : ℕ}
    (hset : ∀ i, bit ≤ i → i ≤ bit + n → bitmap i = true) :
    Volume.scanRun bitmap count (n + 1 + rest) bit runStart runLen =
      Volume.scanRun bitmap count rest (bit + (n + 1)) 0 0 := by
  induction n generalizing bit runStart runLen with
  | zero => rw [Nat.add_comm, Nat.zero_add, Volume.scanRun, if_pos (hset bit le_rfl le_rfl)]
  | succ n ih =>
    rw [show n + 1 + 1 + rest = n + 1 + rest + 1 by omega, Volume.scanRun,
      if_pos (hset bit le_rfl (by omega)), ih fun i hge hle ↦ hset i (by omega) (by omega),
      Nat.add_right_comm, Nat.add_assoc bit]

end Bits

theorem scanPass_ended {count scanEnd fuel bit runStart runLen : ℕ} (hend : scanEnd ≤ bit) :
    scanPass words count scanEnd fuel bit runStart runLen = none := by
  cases fuel with
  | zero => rfl
  | succ fuel => rw [scanPass, if_neg (by omega)]

/-- A pass finds what the scan bit by bit finds. -/
theorem scanPass_spec {count scanEnd fuel bit wordStart wordLen runStart runLen : ℕ}
    (hbits : ∀ i, bitmap i = (words (i / 64)).getLsbD (i % 64))
    (hfuel : scanEnd / 64 < bit / 64 + fuel)
    (hfollows : Follows bit wordStart wordLen runStart runLen) :
    scanPass words count scanEnd fuel bit wordStart wordLen =
      Volume.scanRun bitmap count (scanEnd - bit) bit runStart runLen := by
  induction fuel generalizing bit wordStart wordLen runStart runLen with
  | zero =>
    rw [scanPass, show scanEnd - bit = 0 by omega, Volume.scanRun]
  | succ fuel ih =>
    rw [scanPass]
    by_cases hlt : bit < scanEnd
    · rw [if_pos hlt]
      dsimp only
      obtain ⟨n, hn⟩ : ∃ n, min ((bit / 64 + 1) * 64) scanEnd = bit + (n + 1) :=
        ⟨min ((bit / 64 + 1) * 64) scanEnd - bit - 1, by omega⟩
      have hsplit : scanEnd - bit = n + 1 + (scanEnd - (bit / 64 + 1) * 64) := by omega
      have hstop : scanEnd - (bit / 64 + 1) * 64 = 0 ∨ bit + (n + 1) = (bit / 64 + 1) * 64 := by
        omega
      have hmask (q : ℕ) (hq : q < 64) : (~~~maskedWord words bit scanEnd).getLsbD q = true ↔
            bit % 64 ≤ q ∧ q < bit % 64 + (n + 1) ∧ bitmap (bit / 64 * 64 + q) = false := by
        rw [getLsbD_not_maskedWord hlt hq, hbits, show (bit / 64 * 64 + q) / 64 = bit / 64 by omega,
          show (bit / 64 * 64 + q) % 64 = q by omega]
        constructor
        · rintro ⟨hge, hend, hfree⟩
          exact ⟨by omega, by omega, hfree⟩
        · rintro ⟨hge, hend, hfree⟩
          exact ⟨by omega, by omega, hfree⟩
      by_cases hfull : maskedWord words bit scanEnd = BitVec.allOnes 64
      · -- A full word is skipped.
        have hset : ∀ i, bit ≤ i → i ≤ bit + n → bitmap i = true := by
          intro i hge hle
          by_contra hfree
          have hmem := (hmask (i % 64) (by omega)).mpr ⟨by omega, by omega, by
            rw [show bit / 64 * 64 + i % 64 = i by omega]
            exact Bool.eq_false_of_not_eq_true hfree⟩
          rw [hfull] at hmem
          simp at hmem
        rw [if_pos hfull, hsplit, scanRun_allocated hset]
        rcases hstop with hzero | hbit
        · rw [hzero, Volume.scanRun]
          exact scanPass_ended (by omega)
        · rw [hbit]
          exact ih (by omega) ⟨fun hne ↦ absurd rfl hne, fun _ ↦ Or.inl rfl⟩
      · rw [if_neg hfull]
        have hbase : bit / 64 * 64 + bit % 64 = bit := by omega
        rcases scanMask_spec count (scanEnd - (bit / 64 + 1) * 64) (show n + 1 ≤ 64 by omega)
          (by omega) (show bit / 64 * 64 + bit % 64 + (n + 1) ≤ scanEnd by omega) hmask
          (hbase.symm ▸ hfollows) with
          ⟨start, hscan, hrun⟩ | ⟨wordStart', wordLen', runStart', runLen', hscan, hrun, hfollows'⟩
        · rw [hbase] at hrun
          rw [hscan, hsplit, hrun]
        · rw [hbase] at hrun hfollows'
          rw [hscan, hsplit, hrun]
          rcases hstop with hzero | hbit
          · rw [hzero, Volume.scanRun]
            exact scanPass_ended (by omega)
          · rw [hbit] at hfollows' ⊢
            exact ih (by omega) hfollows'
    · rw [if_neg hlt, show scanEnd - bit = 0 by omega, Volume.scanRun]

/-! ### The whole search -/

/-- A pass that holds a long enough run finds one. -/
theorem scanRun_isSome {count bits bit runStart runLen start : ℕ} (hlen : runLen < count)
    (hstart : bit ≤ start + runLen) (hend : start + count ≤ bit + bits)
    (hfree : ∀ i, start ≤ i → i < start + count → bitmap i = false) :
    (Volume.scanRun bitmap count bits bit runStart runLen).isSome := by
  induction bits generalizing bit runStart runLen with
  | zero => omega
  | succ bits ih =>
    rw [Volume.scanRun]
    cases hbit : bitmap bit with
    | true =>
      have hlater : bit < start := by
        by_contra hle
        rw [hfree bit (by omega) (by omega)] at hbit
        cases hbit
      rw [if_pos rfl]
      exact ih (Nat.zero_lt_of_lt hlen) (by omega) (by omega)
    | false =>
      rw [if_neg Bool.false_ne_true]
      by_cases hlong : count ≤ runLen + 1
      · rw [if_pos hlong]
        rfl
      · rw [if_neg hlong]
        exact ih (Nat.lt_of_not_le hlong) (by omega) (by omega)

/-- What a pass finds begins in the pass. -/
theorem le_of_scanRun {count bits bit runStart runLen start scanStart : ℕ} (hbit : scanStart ≤ bit)
    (hrun : runLen ≠ 0 → scanStart ≤ runStart)
    (hscan : Volume.scanRun bitmap count bits bit runStart runLen = some start) :
    scanStart ≤ start := by
  induction bits generalizing bit runStart runLen with
  | zero => cases hscan
  | succ bits ih =>
    have hfirst : scanStart ≤ if runLen = 0 then bit else runStart := by
      split_ifs with hzero
      · exact hbit
      · exact hrun hzero
    rw [Volume.scanRun] at hscan
    cases hset : bitmap bit with
    | true =>
      rw [hset, if_pos rfl] at hscan
      exact ih (hbit.trans (Nat.le_succ bit)) (absurd rfl) hscan
    | false =>
      rw [hset, if_neg Bool.false_ne_true] at hscan
      by_cases hlong : count ≤ runLen + 1
      · rw [if_pos hlong] at hscan
        exact Option.some.inj hscan ▸ hfirst
      · rw [if_neg hlong] at hscan
        exact ih (hbit.trans (Nat.le_succ bit)) (fun _ ↦ hfirst) hscan

namespace WordBitmap

variable {b : WordBitmap} {count start : ℕ}

theorem pass_eq (b : WordBitmap) (count scanStart scanEnd : ℕ) : b.pass count scanStart scanEnd =
      Volume.scanRun b.bit count (scanEnd - scanStart) scanStart 0 0 := by
  rw [pass]
  split_ifs with h
  · rw [Nat.sub_eq_zero_of_le h, Volume.scanRun]
  · exact scanPass_spec (fun _ ↦ rfl) (by omega) ⟨fun hne ↦ absurd rfl hne, fun _ ↦ Or.inl rfl⟩

/-- The search word by word on the bitmap of a volume is the search bit by bit. -/
theorem bitmapFindFree_words {vol : Volume} (htotal : b.totalBlocks = vol.totalBlocks)
    (hhint : b.nextFreeLba = vol.nextFreeLba) (hbits : ∀ i, b.bit i = vol.bitmap i) (count : ℕ) :
    b.bitmapFindFree count =
      match vol.bitmapFindFree count with
      | some start => .ok start
      | none => .error .noSpc := by
  have hbit : b.bit = vol.bitmap := funext hbits
  have hhint' : b.hint = if vol.totalBlocks ≤ vol.nextFreeLba then 0 else vol.nextFreeLba := by
    rw [hint, htotal, hhint]
  rw [bitmapFindFree, Volume.bitmapFindFree, ← hhint', pass_eq, pass_eq, htotal, hbit]
  by_cases hzero : vol.totalBlocks = 0
  · have hnone : b.hint = 0 := by
      rw [hhint', if_pos (by omega)]
    rw [if_pos hzero, hnone, hzero]
    rfl
  · rw [if_neg hzero]
    cases Volume.scanRun vol.bitmap count (vol.totalBlocks - b.hint) b.hint 0 0 with
    | some start => rfl
    | none =>
      by_cases hpos : 0 < b.hint
      · rw [if_pos hpos]
        rfl
      · rw [if_neg hpos, Nat.eq_zero_of_not_pos hpos]
        rfl

/-- A run of free blocks inside the volume. -/
def FreeRun (b : WordBitmap) (count start : ℕ) : Prop :=
  start + count ≤ b.totalBlocks ∧ ∀ i, start ≤ i → i < start + count → b.bit i = false

/-- The search answers with a free run, and with `OBMAFS3_ERR_NOSPC` when there is none. -/
def Exact (b : WordBitmap) (count : ℕ) : Prop :=
  match b.bitmapFindFree count with
  | .ok start => b.FreeRun count start
  | .error e => e = .noSpc ∧ ∀ start, ¬b.FreeRun count start

/-- The bitmap as the volume of the other modules has it. -/
def toVolume (b : WordBitmap) : Volume where
  blockSize := 1
  totalBytes := b.totalBlocks
  btreeClumpSize := 0
  dedupClumpSize := 0
  nextFreeLba := b.nextFreeLba
  bitmap := b.bit
  disk := fun _ ↦ .bytes []

theorem totalBlocks_toVolume (b : WordBitmap) : b.toVolume.totalBlocks = b.totalBlocks :=
  Nat.div_one _

theorem hint_le (b : WordBitmap) : b.hint ≤ b.totalBlocks := by
  rw [hint]
  split_ifs <;> omega

theorem find_toVolume (b : WordBitmap) (count : ℕ) : b.toVolume.bitmapFindFree count =
      match Volume.scanRun b.bit count (b.totalBlocks - b.hint) b.hint 0 0 with
      | some start => some start
      | none => Volume.scanRun b.bit count b.hint 0 0 0 := by
  have hhint : (if b.toVolume.totalBlocks ≤ b.toVolume.nextFreeLba then 0
      else b.toVolume.nextFreeLba) = b.hint := by
    rw [totalBlocks_toVolume, hint]
    rfl
  rw [Volume.bitmapFindFree, hhint, totalBlocks_toVolume]
  rfl

/-- What is found lies on one side of the hint. -/
theorem find_some (hfind : b.toVolume.bitmapFindFree count = some start) :
    b.FreeRun count start ∧ (b.hint ≤ start ∨ start + count ≤ b.hint) := by
  obtain ⟨hfree, hend⟩ := Volume.bitmapFindFree_some hfind
  rw [totalBlocks_toVolume] at hend
  refine ⟨⟨hend, hfree⟩, ?_⟩
  rw [find_toVolume] at hfind
  cases hfirst : Volume.scanRun b.bit count (b.totalBlocks - b.hint) b.hint 0 0 with
  | some first =>
    rw [hfirst] at hfind
    exact Or.inl (Option.some.inj hfind ▸ le_of_scanRun le_rfl (absurd rfl) hfirst)
  | none =>
    rw [hfirst] at hfind
    obtain ⟨-, hle⟩ := Volume.scanRun_some (absurd rfl) (by omega) hfind
    exact Or.inr (by omega)

/-- A search that finds nothing leaves the runs that cross the hint. -/
theorem find_none (hcount : 0 < count) (hnone : b.toVolume.bitmapFindFree count = none)
    (hrun : b.FreeRun count start) : start < b.hint ∧ b.hint < start + count := by
  obtain ⟨hend, hfree⟩ := hrun
  have hle := b.hint_le
  rw [find_toVolume] at hnone
  cases hfirst : Volume.scanRun b.bit count (b.totalBlocks - b.hint) b.hint 0 0 with
  | some first =>
    rw [hfirst] at hnone
    cases hnone
  | none =>
    rw [hfirst] at hnone
    constructor
    · by_contra hge
      have hsome : (Volume.scanRun b.bit count (b.totalBlocks - b.hint) b.hint 0 0).isSome :=
        scanRun_isSome hcount (by omega) (by omega) hfree
      rw [hfirst] at hsome
      cases hsome
    · by_contra hge
      have hsome : (Volume.scanRun b.bit count b.hint 0 0 0).isSome :=
        scanRun_isSome hcount (Nat.zero_le _) (by omega) hfree
      have hsecond : Volume.scanRun b.bit count b.hint 0 0 0 = none := hnone
      rw [hsecond] at hsome
      cases hsome

/-- The search is exact unless every free run crosses the hint. -/
theorem bitmapFindFree_exact (b : WordBitmap) (hcount : 0 < count) :
    b.Exact count ↔ (∀ start, ¬b.FreeRun count start) ∨
      ∃ start, b.FreeRun count start ∧ (b.hint ≤ start ∨ start + count ≤ b.hint) := by
  have hwords := bitmapFindFree_words b.totalBlocks_toVolume.symm rfl (fun _ ↦ rfl) count
  rw [Exact, hwords]
  cases hfind : b.toVolume.bitmapFindFree count with
  | some start =>
    obtain ⟨hrun, hside⟩ := find_some hfind
    exact ⟨fun _ ↦ Or.inr ⟨start, hrun, hside⟩, fun _ ↦ hrun⟩
  | none =>
    refine ⟨fun ⟨_, hnone⟩ ↦ Or.inl hnone, fun h ↦ ⟨rfl, ?_⟩⟩
    rcases h with hnone | ⟨start, hrun, hside⟩
    · exact hnone
    · obtain ⟨hlow, hhigh⟩ := find_none hcount hfind hrun
      omega

/-- Eight blocks of which two are free, one on each side of the hint. -/
def crossing : WordBitmap := ⟨8, 4, fun _ ↦ 0b11100111#64⟩

theorem bit_crossing : ∀ i < 8, crossing.bit i = decide (i ≠ 3 ∧ i ≠ 4) := by
  decide +kernel

theorem bitmapFindFree_exact_one : crossing.Exact 1 := by
  have hrun : crossing.FreeRun 1 4 := by
    refine ⟨Nat.le_of_ble_eq_true rfl, fun i hge hlt ↦ ?_⟩
    rw [bit_crossing i (by omega)]
    exact decide_eq_false (by omega)
  have hhint : crossing.hint ≤ 4 := by decide +kernel
  rw [bitmapFindFree_exact crossing Nat.one_pos]
  exact Or.inr ⟨4, hrun, Or.inl hhint⟩

/-- The two free blocks are in neither pass together. -/
theorem bitmapFindFree_exact_crossing :
    crossing.bitmapFindFree 2 = .error .noSpc ∧ crossing.FreeRun 2 3 ∧ ¬crossing.Exact 2 := by
  have hrun : crossing.FreeRun 2 3 := by
    refine ⟨Nat.le_of_ble_eq_true rfl, fun i hge hlt ↦ ?_⟩
    rw [bit_crossing i (by omega)]
    exact decide_eq_false (by omega)
  have hfind : crossing.bitmapFindFree 2 = .error .noSpc := by decide +kernel
  refine ⟨hfind, hrun, ?_⟩
  rw [Exact, hfind]
  exact fun h ↦ h.2 3 hrun

end WordBitmap

end Obmafs3.WordScan
