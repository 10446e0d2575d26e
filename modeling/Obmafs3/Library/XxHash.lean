import Mathlib.Data.UInt

/-!
# XXH64

The hash of 64 bits over a list of bytes, with the seed zero: stripes of 32 bytes go into four
accumulators, what is left over goes in by words of eight and four bytes and by single bytes.
-/

set_option autoImplicit false

namespace Obmafs3.Library.XxHash

def prime1 : UInt64 := 0x9E3779B185EBCA87

def prime2 : UInt64 := 0xC2B2AE3D27D4EB4F

def prime3 : UInt64 := 0x165667B19E3779F9

def prime4 : UInt64 := 0x85EBCA77C2B2AE63

def prime5 : UInt64 := 0x27D4EB2F165667C5

def rotl (x : UInt64) (r : UInt64) : UInt64 := (x <<< r) ||| (x >>> (64 - r))

/-- The number that bytes store, the lowest one first. -/
def lane (bytes : List UInt8) : UInt64 := bytes.foldr (fun b n ↦ b.toUInt64 + 256 * n) 0

def round (acc input : UInt64) : UInt64 := rotl (acc + input * prime2) 31 * prime1

def mergeRound (h acc : UInt64) : UInt64 := (h ^^^ round 0 acc) * prime1 + prime4

structure Accumulators where
  v1 : UInt64
  v2 : UInt64
  v3 : UInt64
  v4 : UInt64

def Accumulators.stripe (acc : Accumulators) (data : List UInt8) : Accumulators where
  v1 := round acc.v1 (lane (data.take 8))
  v2 := round acc.v2 (lane ((data.drop 8).take 8))
  v3 := round acc.v3 (lane ((data.drop 16).take 8))
  v4 := round acc.v4 (lane ((data.drop 24).take 8))

def Accumulators.stripes : (n : ℕ) → Accumulators → List UInt8 → Accumulators
  | 0, acc, _ => acc
  | n + 1, acc, data => stripes n (acc.stripe data) (data.drop 32)

def Accumulators.merge (acc : Accumulators) : UInt64 :=
  let h := rotl acc.v1 1 + rotl acc.v2 7 + rotl acc.v3 12 + rotl acc.v4 18
  mergeRound (mergeRound (mergeRound (mergeRound h acc.v1) acc.v2) acc.v3) acc.v4

/-- The words of eight bytes behind the stripes. -/
def words : (n : ℕ) → UInt64 → List UInt8 → UInt64
  | 0, h, _ => h
  | n + 1, h, data =>
    words n (rotl (h ^^^ round 0 (lane (data.take 8))) 27 * prime1 + prime4) (data.drop 8)

/-- The last bytes, fewer than eight. -/
def tail (h : UInt64) (data : List UInt8) : UInt64 :=
  let n := if 4 ≤ data.length then 4 else 0
  let h :=
    if 4 ≤ data.length then rotl (h ^^^ lane (data.take 4) * prime1) 23 * prime2 + prime3 else h
  (data.drop n).foldl (fun h b ↦ rotl (h ^^^ b.toUInt64 * prime5) 11 * prime1) h

def avalanche (h : UInt64) : UInt64 :=
  let h := (h ^^^ (h >>> 33)) * prime2
  let h := (h ^^^ (h >>> 29)) * prime3
  h ^^^ (h >>> 32)

/-- XXH64 with the seed zero. -/
def xxh64 (data : List UInt8) : UInt64 :=
  let start :=
    if 32 ≤ data.length then
      (Accumulators.stripes (data.length / 32) ⟨prime1 + prime2, prime2, 0, 0 - prime1⟩ data).merge
    else prime5
  let rest := data.drop (data.length / 32 * 32)
  let h := words (rest.length / 8) (start + UInt64.ofNat data.length) rest
  avalanche (tail h (rest.drop (rest.length / 8 * 8)))

/-- The sentence of 39 bytes takes a stripe, no word, a half word and three bytes. -/
example : xxh64 "Nobody inspects the spammish repetition".toUTF8.toList = 0xFBCEA83C8A378BF1 := by
  decide +kernel

/-- The alphabet takes three words and two bytes. -/
example : xxh64 "abcdefghijklmnopqrstuvwxyz".toUTF8.toList = 0xCFE1F278FA89835C := by
  decide +kernel

end Obmafs3.Library.XxHash
