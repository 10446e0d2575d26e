import Mathlib.Data.List.Basic

/-!
# Chained blocks and lists of parts

A block cipher is chained by adding to a block, before it is enciphered, what came out for the block
before it. Deciphering with the inverse and the same start is undone by enciphering and undoes it. A
list that is
made of parts of one length is read a stretch at a time, part by part.
-/

set_option autoImplicit false

namespace Obmafs3.Library.BlockChaining

/-! ### Chaining -/

section Chaining

variable {α : Type} (add : α → α → α) (encipher decipher : α → α)

def decrypt : α → List α → List α
  | _, [] => []
  | prev, x :: xs => add (decipher x) prev :: decrypt x xs

def encrypt : α → List α → List α
  | _, [] => []
  | chain, x :: xs => encipher (add x chain) :: encrypt (encipher (add x chain)) xs

@[simp] theorem length_decrypt (prev : α) (xs : List α) :
    (decrypt add decipher prev xs).length = xs.length := by
  induction xs generalizing prev with
  | nil => rfl
  | cons x xs ih => simp [decrypt, ih]

@[simp] theorem length_encrypt (chain : α) (xs : List α) :
    (encrypt add encipher chain xs).length = xs.length := by
  induction xs generalizing chain with
  | nil => rfl
  | cons x xs ih => simp [encrypt, ih]

variable (hadd : ∀ a b, add (add a b) b = a)
include hadd

theorem encrypt_decrypt (hcipher : ∀ x, encipher (decipher x) = x) (start : α) (xs : List α) :
    encrypt add encipher start (decrypt add decipher start xs) = xs := by
  induction xs generalizing start with
  | nil => rfl
  | cons x xs ih => rw [decrypt, encrypt, hadd, hcipher, ih]

theorem decrypt_encrypt (hcipher : ∀ x, decipher (encipher x) = x) (start : α) (xs : List α) :
    decrypt add decipher start (encrypt add encipher start xs) = xs := by
  induction xs generalizing start with
  | nil => rfl
  | cons x xs ih => rw [encrypt, decrypt, hcipher, hadd, ih]

end Chaining

/-! ### Parts of one length -/

section Parts

variable {α : Type}

/-- Cut a list into parts, as many as fit. -/
def parts (size : ℕ) (l : List α) : List (List α) :=
  (List.range (l.length / size)).map fun k ↦ (l.drop (k * size)).take size

theorem length_of_mem_parts {size : ℕ} {l part : List α} (hpart : part ∈ parts size l) :
    part.length = size := by
  simp only [parts, List.mem_map, List.mem_range] at hpart
  obtain ⟨k, hk, rfl⟩ := hpart
  have hle := Nat.div_mul_le_self l.length size
  have := Nat.mul_le_mul_right size hk
  rw [Nat.succ_mul] at this
  rw [List.length_take, List.length_drop]
  omega

/-- The first parts put together are the front of the list. -/
theorem flatten_range_parts (size : ℕ) (l : List α) (n : ℕ) :
    ((List.range n).map fun k ↦ (l.drop (k * size)).take size).flatten = l.take (n * size) := by
  induction n with
  | zero => simp
  | succ n ih =>
    rw [List.range_succ, List.map_append, List.flatten_append, ih, Nat.succ_mul, List.take_add]
    simp

theorem flatten_parts {size : ℕ} {l : List α} (hdvd : size ∣ l.length) :
    (parts size l).flatten = l := by
  rw [parts, flatten_range_parts, Nat.div_mul_cancel hdvd, List.take_length]

theorem parts_append {size : ℕ} {part l : List α} (hpart : part.length = size) (hpos : 0 < size) :
    parts size (part ++ l) = part :: parts size l := by
  have hcount : (part ++ l).length / size = l.length / size + 1 := by
    rw [List.length_append, hpart, Nat.add_comm, Nat.add_div_right _ hpos]
  have hdrop (k : ℕ) : (part ++ l).drop ((k + 1) * size) = l.drop (k * size) := by
    rw [Nat.succ_mul, Nat.add_comm, ← List.drop_drop, List.drop_left' hpart]
  rw [parts, hcount, List.range_succ_eq_map, List.map_cons, List.map_map, Nat.zero_mul,
    List.drop_zero, List.take_left' hpart]
  congr 1
  exact List.map_congr_left fun k _ ↦ congrArg (List.take size) (hdrop k)

theorem parts_flatten {size : ℕ} (hpos : 0 < size) {ls : List (List α)}
    (hls : ∀ part ∈ ls, part.length = size) : parts size ls.flatten = ls := by
  induction ls with
  | nil => simp [parts]
  | cons part ls ih =>
    obtain ⟨hpart, hls⟩ := List.forall_mem_cons.mp hls
    rw [List.flatten_cons, parts_append hpart hpos, ih hls]

variable {size n : ℕ} {f : ℕ → List α}

section

variable (hsize : ∀ k < n, (f k).length = size)
include hsize

theorem length_flatMap_range : ((List.range n).flatMap f).length = n * size := by
  have hconst : (List.range n).map (fun k ↦ (f k).length) = (List.range n).map fun _ ↦ size :=
    List.map_congr_left fun k hk ↦ hsize k (List.mem_range.mp hk)
  rw [List.length_flatMap, hconst]
  simp

/-- A stretch of what a function makes of the numbers below `n`. -/
theorem getElem?_flatMap_range (hpos : 0 < size) (i : ℕ) :
    ((List.range n).flatMap f)[i]? = if i < n * size then (f (i / size))[i % size]? else none := by
  induction n with
  | zero => simp
  | succ n ih =>
    have hlength := length_flatMap_range fun k hk ↦ hsize k (Nat.lt_succ_of_lt hk)
    rw [List.range_succ, List.flatMap_append, List.getElem?_append, hlength,
      ih fun k hk ↦ hsize k (Nat.lt_succ_of_lt hk), Nat.succ_mul]
    split_ifs with hfront hall hall
    · rfl
    · omega
    · have hquot : i / size = n := by
        rw [Nat.div_eq_iff hpos]
        omega
      have hmod : i % size = i - n * size := by
        have := Nat.div_add_mod i size
        rw [hquot, Nat.mul_comm] at this
        omega
      rw [hquot, hmod]
      simp
    · rw [List.getElem?_eq_none]
      simp only [List.flatMap_cons, List.flatMap_nil, List.append_nil]
      rw [hsize n n.lt_succ_self]
      omega

/-- A stretch inside one of the parts. -/
theorem slice_flatMap_range {k : ℕ} (hk : k < n)
    (offset count : ℕ) (hfits : offset + count ≤ size) :
    (((List.range n).flatMap f).drop (k * size + offset)).take count =
      ((f k).drop offset).take count := by
  apply List.ext_getElem?
  intro i
  rw [List.getElem?_take, List.getElem?_take, List.getElem?_drop, List.getElem?_drop]
  split_ifs with hi
  · have hpos : 0 < size := by omega
    have hlt : k * size + offset + i < n * size := by
      have := Nat.mul_le_mul_right size hk
      rw [Nat.succ_mul] at this
      omega
    have hquot : (k * size + offset + i) / size = k := by
      rw [Nat.div_eq_iff hpos]
      omega
    have hmod : (k * size + offset + i) % size = offset + i := by
      rw [Nat.add_assoc, Nat.mul_comm, Nat.mul_add_mod, Nat.mod_eq_of_lt (by omega)]
    rw [getElem?_flatMap_range hsize hpos, if_pos hlt, hquot, hmod]
  · rfl

end

/-! ### Reading part by part -/

/-- Read a stretch in pieces that end where a part ends. -/
def readPieces (size : ℕ) (piece : (part offset count : ℕ) → List α) :
    (fuel pos remaining : ℕ) → List α
  | 0, _, _ => []
  | fuel + 1, pos, remaining =>
    if remaining = 0 then []
    else
      let count := min remaining (size - pos % size)
      piece (pos / size) (pos % size) count ++
        readPieces size piece fuel (pos + count) (remaining - count)

/-- As long as the pieces are pieces of the parts, what is read is a stretch of the whole. -/
theorem readPieces_eq {content : ℕ → List α} (first last : ℕ) (piece : ℕ → ℕ → ℕ → List α)
    (hpos : 0 < size) (hcontent : ∀ k < n, (content k).length = size)
    (hpiece : ∀ k < n, ∀ offset count, offset + count ≤ size → first ≤ k * size + offset →
      k * size + offset + count ≤ last → piece k offset count = ((content k).drop offset).take count)
    {fuel pos remaining : ℕ} (hfuel : remaining ≤ fuel) (hfirst : first ≤ pos)
    (hlast : pos + remaining ≤ last) :
    (readPieces size piece fuel pos remaining).take (n * size - pos) =
      (((List.range n).flatMap content).drop pos).take remaining := by
  induction fuel generalizing pos remaining with
  | zero => simp [readPieces, Nat.le_zero.mp hfuel]
  | succ fuel ih =>
    rw [readPieces]
    split_ifs with hzero
    · simp [hzero]
    obtain ⟨count, hcount⟩ : ∃ count, min remaining (size - pos % size) = count := ⟨_, rfl⟩
    have hmod := Nat.mod_lt pos hpos
    have hsplit : pos / size * size + pos % size = pos := Nat.div_add_mod' pos size
    simp only [hcount]
    by_cases hinside : pos < n * size
    · have hk : pos / size < n := Nat.div_lt_of_lt_mul (by rwa [Nat.mul_comm])
      have hend : pos + count ≤ n * size := by
        have := Nat.mul_le_mul_right size hk
        rw [Nat.succ_mul] at this
        omega
      have hslice := slice_flatMap_range hcontent hk (pos % size) count (by omega)
      rw [hsplit] at hslice
      have hread : piece (pos / size) (pos % size) count =
          (((List.range n).flatMap content).drop pos).take count := by
        rw [hslice]
        exact hpiece _ hk _ _ (by omega) (by omega) (by omega)
      have hlength : (piece (pos / size) (pos % size) count).length = count := by
        rw [hpiece _ hk _ _ (by omega) (by omega) (by omega), List.length_take, List.length_drop,
          hcontent _ hk]
        omega
      rw [List.take_append, hlength, List.take_of_length_le (by omega), hread]
      have hrest := @ih (pos + count) (remaining - count) (by omega) (by omega) (by omega)
      rw [Nat.sub_sub, hrest, ← List.drop_drop, ← List.take_add]
      congr 1
      omega
    · have hnone : ((List.range n).flatMap content).drop pos = [] := by
        apply List.drop_eq_nil_of_le
        apply Nat.le_of_not_lt
        intro hlt
        have hsome := getElem?_flatMap_range hcontent hpos pos
        rw [if_neg hinside, List.getElem?_eq_none_iff] at hsome
        omega
      rw [hnone, Nat.sub_eq_zero_of_le (Nat.le_of_not_lt hinside)]
      simp

theorem map_range_split {m : ℕ} (f : ℕ → α) (hle : m ≤ n) : (List.range n).map f =
    (List.range m).map f ++ (List.range (n - m)).map fun i ↦ f (m + i) := by
  rw [← Nat.add_sub_cancel' hle, List.range_add, List.map_append, List.map_map,
    Nat.add_sub_cancel_left]
  rfl

/-- As long as what a piece holds depends on the places alone, so does what is read. -/
theorem readPieces_eq_map {element : ℕ → α} (first last : ℕ) (piece : ℕ → ℕ → ℕ → List α)
    (hpos : 0 < size)
    (hpiece : ∀ k offset count, offset + count ≤ size → first ≤ k * size + offset →
      k * size + offset + count ≤ last →
      piece k offset count = (List.range count).map fun i ↦ element (k * size + offset + i))
    {fuel pos remaining : ℕ} (hfuel : remaining ≤ fuel) (hfirst : first ≤ pos)
    (hlast : pos + remaining ≤ last) : readPieces size piece fuel pos remaining =
      (List.range remaining).map fun i ↦ element (pos + i) := by
  induction fuel generalizing pos remaining with
  | zero => simp [readPieces, Nat.le_zero.mp hfuel]
  | succ fuel ih =>
    rw [readPieces]
    split_ifs with hzero
    · simp [hzero]
    obtain ⟨count, hcount⟩ : ∃ count, min remaining (size - pos % size) = count := ⟨_, rfl⟩
    have hmod := Nat.mod_lt pos hpos
    have hsplit : pos / size * size + pos % size = pos := Nat.div_add_mod' pos size
    simp only [hcount]
    rw [hpiece _ _ _ (by omega) (by omega) (by omega), hsplit,
      ih (by omega) (by omega) (by omega), map_range_split _ (show count ≤ remaining by omega)]
    simp only [Nat.add_assoc]

end Parts

end Obmafs3.Library.BlockChaining
