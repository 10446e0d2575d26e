import Obmafs3.Disc.JunkSeed

/-!
# Streams of junk

A run of the generator, forward or back, moves a buffer along one stream (`window_lfgForward`,
`window_backward`). The initialization expands seventeen words, and the buffer that it leaves holds
the first words of the stream that belongs to them (`window_initialized`).
-/

set_option autoImplicit false

namespace Obmafs3

open Library.LaggedFibonacci

/-! ### Bits -/

section Bits

variable (x y z : BitVec 32)

theorem xor_cancel_right : x ^^^ y ^^^ y = x := by
  rw [BitVec.xor_assoc, BitVec.xor_self, BitVec.xor_zero]

theorem swap32_swap32 : swap32 (swap32 x) = x := by
  apply BitVec.eq_of_getLsbD_eq
  intro i hi
  simp only [swap32, BitVec.getLsbD_or, BitVec.getLsbD_and, BitVec.getLsbD_ushiftRight,
    BitVec.getLsbD_shiftLeft]
  interval_cases i <;> simp

theorem swap32_xor : swap32 (x ^^^ y) = swap32 x ^^^ swap32 y := by
  apply BitVec.eq_of_getLsbD_eq
  intro i hi
  simp only [swap32, BitVec.getLsbD_or, BitVec.getLsbD_and, BitVec.getLsbD_xor,
    BitVec.getLsbD_ushiftRight, BitVec.getLsbD_shiftLeft]
  interval_cases i <;> simp

theorem patterned_iff :
    Patterned x ↔ x.getLsbD 22 = x.getLsbD 24 ∧ x.getLsbD 23 = x.getLsbD 25 := by
  constructor
  · intro hx
    have h22 := congrArg (BitVec.getLsbD · 22) hx
    have h23 := congrArg (BitVec.getLsbD · 23) hx
    simp only [BitVec.getLsbD_and, BitVec.getLsbD_ushiftRight] at h22 h23
    exact ⟨by simpa using h22, by simpa using h23⟩
  · rintro ⟨h22, h23⟩
    apply BitVec.eq_of_getLsbD_eq
    intro i hi
    simp only [BitVec.getLsbD_and, BitVec.getLsbD_ushiftRight]
    interval_cases i <;> simp
    · simpa using h22
    · simpa using h23

theorem Patterned.xor {x y : BitVec 32} (hx : Patterned x) (hy : Patterned y) :
    Patterned (x ^^^ y) := by
  rw [patterned_iff] at hx hy ⊢
  simp only [BitVec.getLsbD_xor, hx, hy, and_self]

theorem patterned_quirk : Patterned (quirk x) := by
  apply BitVec.eq_of_getLsbD_eq
  intro i hi
  simp only [quirk, BitVec.getLsbD_or, BitVec.getLsbD_and, BitVec.getLsbD_ushiftRight]
  interval_cases i <;> simp

theorem unquirk_quirk : unquirk (quirk x) = x &&& 0xFFFCFFFF#32 := by
  apply BitVec.eq_of_getLsbD_eq
  intro i hi
  simp only [quirk, unquirk, BitVec.getLsbD_or, BitVec.getLsbD_and, BitVec.getLsbD_ushiftRight,
    BitVec.getLsbD_shiftLeft]
  interval_cases i <;> simp

/-- The bits 22 and 23 are those two places further up, and all others are kept. -/
theorem quirk_unquirk {x : BitVec 32} (hx : Patterned x) : quirk (unquirk x) = x := by
  obtain ⟨h22, h23⟩ := (patterned_iff x).mp hx
  apply BitVec.eq_of_getLsbD_eq
  intro i hi
  simp only [quirk, unquirk, BitVec.getLsbD_or, BitVec.getLsbD_and, BitVec.getLsbD_ushiftRight,
    BitVec.getLsbD_shiftLeft]
  interval_cases i <;> simp
  · simpa using h22.symm
  · simpa using h23.symm

/-- The dropped bits do not matter. -/
theorem quirk_mask : quirk (x &&& 0xFFFCFFFF#32) = quirk x := by
  apply BitVec.eq_of_getLsbD_eq
  intro i hi
  simp only [quirk, BitVec.getLsbD_or, BitVec.getLsbD_and, BitVec.getLsbD_ushiftRight]
  interval_cases i <;> simp

theorem quirk_of_unquirk {x q : BitVec 32} (hx : x &&& 0xFFFCFFFF#32 = unquirk q)
    (hq : Patterned q) : quirk x = q := by
  rw [← quirk_mask, hx, quirk_unquirk hq]

theorem mask_unquirk_or : (unquirk x ||| (y &&& 0x00030000#32)) &&& 0xFFFCFFFF#32 = unquirk x := by
  apply BitVec.eq_of_getLsbD_eq
  intro i hi
  simp only [unquirk, BitVec.getLsbD_or, BitVec.getLsbD_and, BitVec.getLsbD_shiftLeft]
  interval_cases i <;> simp

theorem shiftLeft_eq_of_mask {x y : BitVec 32}
    (hmask : x &&& 0xFFFCFFFF#32 = y &&& 0xFFFCFFFF#32) : x <<< 23 = y <<< 23 := by
  have hshift : ∀ z : BitVec 32, (z &&& 0xFFFCFFFF#32) <<< 23 = z <<< 23 := by
    intro z
    apply BitVec.eq_of_getLsbD_eq
    intro i hi
    simp only [BitVec.getLsbD_and, BitVec.getLsbD_shiftLeft]
    interval_cases i <;> simp
  rw [← hshift x, hmask, hshift]

/-- The dropped bits of a word are in the words that are made from it. -/
theorem dropped_bits :
    (quirk ((x <<< 23) ^^^ (y >>> 9) ^^^ z) ^^^ quirk z) <<< 9 &&& 0x00030000#32 =
      y &&& 0x00030000#32 := by
  apply BitVec.eq_of_getLsbD_eq
  intro i hi
  simp only [quirk, BitVec.getLsbD_or, BitVec.getLsbD_and, BitVec.getLsbD_xor,
    BitVec.getLsbD_ushiftRight, BitVec.getLsbD_shiftLeft]
  interval_cases i <;> simp

theorem mask_or_dropped : (x &&& 0xFFFCFFFF#32) ||| (x &&& 0x00030000#32) = x := by
  apply BitVec.eq_of_getLsbD_eq
  intro i hi
  simp only [BitVec.getLsbD_or, BitVec.getLsbD_and]
  interval_cases i <;> simp

end Bits

/-! ### Runs of the generator -/

/-- The streams of the generator. -/
abbrev LfgStream (w : ℕ → BitVec 32) : Prop := Lagged (· ^^^ ·) ngcLfgK ngcLfgJ w

/-- The assignment that moves a buffer by one word. -/
abbrev lfgStir (i : ℕ) (b : LfgBuffer) : LfgBuffer := stir (· ^^^ ·) ngcLfgK ngcLfgJ i b

theorem lfg_lags : 0 < ngcLfgJ ∧ ngcLfgJ < ngcLfgK := by decide

variable {i : ℕ}

theorem xorInto_low (hi : i < ngcLfgJ) (b : LfgBuffer) :
    xorInto b i (i + ngcLfgK - ngcLfgJ) = lfgStir i b := by
  rw [xorInto, lfgStir, stir, tap, if_pos hi]

theorem xorInto_high (hi : ngcLfgJ ≤ i) (b : LfgBuffer) :
    xorInto b i (i - ngcLfgJ) = lfgStir i b := by
  rw [xorInto, lfgStir, stir, tap, if_neg (Nat.not_lt.mpr hi)]

variable {is : List ℕ}

theorem foldl_xorInto_low (his : ∀ i ∈ is, i < ngcLfgJ) (b : LfgBuffer) :
    is.foldl (fun b i ↦ xorInto b i (i + ngcLfgK - ngcLfgJ)) b =
      is.foldl (fun b i ↦ lfgStir i b) b :=
  List.foldl_ext _ _ _ fun b i hi ↦ xorInto_low (his i hi) b

theorem foldl_xorInto_high (his : ∀ i ∈ is, ngcLfgJ ≤ i) (b : LfgBuffer) :
    is.foldl (fun b i ↦ xorInto b i (i - ngcLfgJ)) b = is.foldl (fun b i ↦ lfgStir i b) b :=
  List.foldl_ext _ _ _ fun b i hi ↦ xorInto_high (his i hi) b

/-- Both loops of a run make one. -/
theorem lfgForward_eq (b : LfgBuffer) :
    lfgForward b = (List.range ngcLfgK).foldl (fun b i ↦ lfgStir i b) b := by
  have hsplit : List.range ngcLfgK =
      List.range ngcLfgJ ++ List.range' ngcLfgJ (ngcLfgK - ngcLfgJ) := by
    have happend := @List.range'_append_1 0 ngcLfgJ (ngcLfgK - ngcLfgJ)
    rw [Nat.zero_add, Nat.add_sub_cancel' lfg_lags.2.le] at happend
    rw [List.range_eq_range', List.range_eq_range', happend]
  rw [hsplit, List.foldl_append, lfgForward, foldl_xorInto_low fun i hi ↦ List.mem_range.mp hi,
    foldl_xorInto_high fun i hi ↦ (List.mem_range'_1.mp hi).1]

theorem lfgBackward_eq {e : ℕ} (he : e ≤ ngcLfgK) (b : LfgBuffer) :
    lfgBackward 0 e b = (List.range e).reverse.foldl (fun b i ↦ lfgStir i b) b := by
  have hsplit : List.range e =
      List.range' 0 (min e ngcLfgJ - 0) ++ List.range' ngcLfgJ (min e ngcLfgK - ngcLfgJ) := by
    rw [Nat.sub_zero, min_eq_left he, List.range_eq_range']
    rcases Nat.le_total e ngcLfgJ with hle | hge
    · rw [min_eq_left hle, Nat.sub_eq_zero_of_le hle, List.range'_zero, List.append_nil]
    · have happend := @List.range'_append_1 0 ngcLfgJ (e - ngcLfgJ)
      rw [Nat.zero_add, Nat.add_sub_cancel' hge] at happend
      rw [min_eq_right hge, happend]
  rw [hsplit, List.reverse_append, List.foldl_append, lfgBackward, Nat.max_zero,
    foldl_xorInto_high, foldl_xorInto_low]
  · intro i hi
    have := List.mem_range'_1.mp (List.mem_reverse.mp hi)
    omega
  · intro i hi
    exact (List.mem_range'_1.mp (List.mem_reverse.mp hi)).1

section Windows

variable {w : ℕ → BitVec 32} {b : LfgBuffer}

variable (hw : LfgStream w)
include hw

theorem window_lfgForward {c : ℕ} (hb : Window ngcLfgK w (c * ngcLfgK) b) :
    Window ngcLfgK w ((c + 1) * ngcLfgK) (lfgForward b) := by
  rw [lfgForward_eq, Nat.succ_mul]
  exact hb.foldl_stir lfg_lags.1 lfg_lags.2 hw (Nat.le_refl _)

theorem window_forward {c : ℕ} (hb : Window ngcLfgK w (c * ngcLfgK) b) (n : ℕ) :
    Window ngcLfgK w ((c + n) * ngcLfgK) (lfgForward^[n] b) := by
  induction n with
  | zero => exact hb
  | succ n ih =>
    rw [Function.iterate_succ_apply', ← Nat.add_assoc]
    exact window_lfgForward hw ih

theorem window_backward {c n : ℕ} (hb : Window ngcLfgK w ((c + n) * ngcLfgK) b) :
    Window ngcLfgK w (c * ngcLfgK) ((lfgBackward 0 ngcLfgK)^[n] b) := by
  induction n generalizing b with
  | zero => exact hb
  | succ n ih =>
    rw [Function.iterate_succ_apply]
    refine ih ?_
    rw [lfgBackward_eq (Nat.le_refl _)]
    rw [← Nat.add_assoc, Nat.succ_mul] at hb
    exact hb.foldl_stir_reverse xor_cancel_right lfg_lags.1 lfg_lags.2 hw (Nat.le_refl _)

end Windows

/-! ### The expansion of a seed -/

/-- The words that the first seventeen of a buffer expand to. -/
def expansion (b : LfgBuffer) (i : ℕ) : BitVec 32 :=
  if i < ngcLfgSeedSize then b i
  else (expansion b (i - 17) <<< 23) ^^^ (expansion b (i - 16) >>> 9) ^^^ expansion b (i - 1)
termination_by i
decreasing_by
  all_goals
    rename_i hi
    rw [ngcLfgSeedSize] at hi
    omega

theorem expansion_of_lt (hi : i < ngcLfgSeedSize) (b : LfgBuffer) : expansion b i = b i := by
  rw [expansion, if_pos hi]

theorem expansion_of_ge (hi : ngcLfgSeedSize ≤ i) (b : LfgBuffer) : expansion b i =
      (expansion b (i - 17) <<< 23) ^^^ (expansion b (i - 16) >>> 9) ^^^ expansion b (i - 1) := by
  rw [expansion, if_neg (Nat.not_lt.mpr hi)]

/-- Only the first seventeen words count. -/
theorem expansion_congr {b b' : LfgBuffer} (hsame : ∀ i < ngcLfgSeedSize, b i = b' i) :
    expansion b = expansion b' := by
  funext i
  induction i using Nat.strongRecOn with
  | _ i ih =>
    rcases Nat.lt_or_ge i ngcLfgSeedSize with hlt | hge
    · rw [expansion_of_lt hlt, expansion_of_lt hlt, hsame i hlt]
    · have hpos : 17 ≤ i := hge
      rw [expansion_of_ge hge, expansion_of_ge hge, ih _ (by omega), ih _ (by omega),
        ih _ (by omega)]

/-- The buffer when the words below `n` have been expanded. -/
def expandedTo (n : ℕ) (b : LfgBuffer) : LfgBuffer := fun i ↦ if i < n then expansion b i else b i

theorem expandedTo_seed (b : LfgBuffer) : expandedTo ngcLfgSeedSize b = b := by
  funext i
  rw [expandedTo]
  split_ifs with hi
  · exact expansion_of_lt hi b
  · rfl

/-- A word that is there already passes the check. -/
def Expanded (b : LfgBuffer) (i : ℕ) : Prop := expansion b i &&& 0xFFFCFFFF#32 = unquirk (b i)

instance decidableExpanded (b : LfgBuffer) (i : ℕ) : Decidable (Expanded b i) :=
  inferInstanceAs (Decidable (_ = _))

theorem expandWord_expandedTo (check : Bool) {n : ℕ} (hn : ngcLfgSeedSize ≤ n) (b : LfgBuffer) :
    expandWord check (expandedTo n b) n =
      if check = true → Expanded b n then some (expandedTo (n + 1) b) else none := by
  have hpos : 17 ≤ n := hn
  have hbelow : ∀ i < n, expandedTo n b i = expansion b i := fun i hi ↦ if_pos hi
  have hself : expandedTo n b n = b n := if_neg (Nat.lt_irrefl n)
  have hnext : Function.update (expandedTo n b) n (expansion b n) = expandedTo (n + 1) b := by
    funext i
    rcases Nat.lt_trichotomy i n with hlt | rfl | hgt
    · rw [Function.update_of_ne (by omega), hbelow i hlt, expandedTo, if_pos (by omega)]
    · rw [Function.update_self, expandedTo, if_pos (by omega)]
    · rw [Function.update_of_ne (by omega), expandedTo, expandedTo, if_neg (by omega),
        if_neg (by omega)]
  simp only [expandWord, hbelow (n - 17) (by omega), hbelow (n - 16) (by omega),
    hbelow (n - 1) (by omega), hself, ← expansion_of_ge hn, hnext]
  cases check with
  | false => simp
  | true => simp [Expanded]

theorem foldlM_expandWord (check : Bool) (n : ℕ) (b : LfgBuffer) :
    (List.range' ngcLfgSeedSize n).foldlM (expandWord check) b =
      if check = true → ∀ i ∈ List.range' ngcLfgSeedSize n, Expanded b i then
        some (expandedTo (ngcLfgSeedSize + n) b)
      else none := by
  induction n with
  | zero => simp [expandedTo_seed]
  | succ n ih =>
    rw [List.range'_1_concat, List.foldlM_append, ih]
    by_cases hbefore : check = true → ∀ i ∈ List.range' ngcLfgSeedSize n, Expanded b i
    · rw [if_pos hbefore, Option.bind_eq_bind, Option.bind_some, List.foldlM_cons,
        expandWord_expandedTo check (Nat.le_add_right _ _)]
      by_cases hlast : check = true → Expanded b (ngcLfgSeedSize + n)
      · rw [if_pos hlast, if_pos]
        · rfl
        · intro hcheck i hi
          rcases List.mem_append.mp hi with hi | hi
          · exact hbefore hcheck i hi
          · exact List.mem_singleton.mp hi ▸ hlast hcheck
      · rw [if_neg hlast, if_neg]
        · rfl
        · exact fun hall ↦ hlast fun hcheck ↦ hall hcheck _ (by simp)
    · rw [if_neg hbefore, if_neg]
      · rfl
      · exact fun hall ↦ hbefore fun hcheck i hi ↦ hall hcheck i (List.mem_append_left _ hi)

/-- The words of the buffer before the generator runs. -/
def rawWord (b : LfgBuffer) (i : ℕ) : BitVec 32 := swap32 (quirk (expansion b i))

/-- The stream that a buffer makes when its first words are expanded. -/
def lfgStream (b : LfgBuffer) (n : ℕ) : BitVec 32 :=
  extend (· ^^^ ·) ngcLfgK ngcLfgJ (rawWord b) (n + 4 * ngcLfgK)

theorem lfgStream_lagged (b : LfgBuffer) : LfgStream (lfgStream b) :=
  (lagged_extend lfg_lags.1 lfg_lags.2 _).shift lfg_lags.2.le _

theorem window_initialized (b : LfgBuffer) : Window ngcLfgK (lfgStream b) 0
      (lfgForward^[4] fun i ↦ swap32 (quirk (expandedTo ngcLfgK b i))) := by
  have hraw : Window ngcLfgK (extend (· ^^^ ·) ngcLfgK ngcLfgJ (rawWord b)) (0 * ngcLfgK)
      fun i ↦ swap32 (quirk (expandedTo ngcLfgK b i)) := by
    intro n _ hn
    rw [Nat.zero_mul, Nat.zero_add] at hn
    have hexpanded : expandedTo ngcLfgK b n = expansion b n := if_pos hn
    rw [Nat.mod_eq_of_lt hn, extend_of_lt hn]
    exact congrArg (fun x ↦ swap32 (quirk x)) hexpanded
  have hrun := window_forward (lagged_extend lfg_lags.1 lfg_lags.2 _) hraw 4
  intro n _ hn
  rw [Nat.zero_add] at hn
  have hword := hrun (n + 4 * ngcLfgK) (by omega) (by omega)
  rwa [Nat.add_mul_mod_self_right] at hword

/-- The initialization of a search succeeds when the words that are there come from the first
seventeen. -/
theorem lfgInitialize_eq (check : Bool) (b : LfgBuffer) : lfgInitialize check b =
      if check = true → ∀ i ∈ List.range' ngcLfgSeedSize (ngcLfgK - ngcLfgSeedSize), Expanded b i then
        some (lfgForward^[4] fun i ↦ swap32 (quirk (expandedTo ngcLfgK b i)))
      else none := by
  rw [lfgInitialize, foldlM_expandWord]
  split_ifs <;> rfl

/-- The stream of a seed. -/
def seedStream (seed : LfgSeed) : ℕ → BitVec 32 := lfgStream (seedBuffer seed)

theorem ngcLfgSetSeed_buffer (seed : LfgSeed) : (ngcLfgSetSeed seed).buffer =
    lfgForward^[4] fun i ↦ swap32 (quirk (expandedTo ngcLfgK (seedBuffer seed) i)) := by
  have hinit := lfgInitialize_eq false (seedBuffer seed)
  rw [if_pos fun h ↦ absurd h Bool.false_ne_true] at hinit
  simp only [ngcLfgSetSeed, hinit, Option.getD_some]

theorem window_setSeed (seed : LfgSeed) :
    Window ngcLfgK (seedStream seed) 0 (ngcLfgSetSeed seed).buffer :=
  ngcLfgSetSeed_buffer seed ▸ window_initialized (seedBuffer seed)

end Obmafs3
