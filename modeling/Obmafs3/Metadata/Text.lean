import Mathlib.Data.List.Lex
import Mathlib.Data.List.TakeWhile

/-!
# Metadata values

Keys and values are C strings, here the list of the bytes before the NUL. A value may be a list of
sub-values, one a line, and a filter looks at each of them. The numeric operators read the integer
in front of a sub-value, while an index entry is made of a value that is an integer from end to end.
-/

set_option autoImplicit false

namespace Obmafs3

/-- A C string, without its NUL. -/
abbrev Text := List ℕ

/-! ### Integers in front of a string -/

/-- `isspace` in the C locale. -/
def isSpace (c : ℕ) : Bool := c == 32 || (9 ≤ c && c ≤ 13)

def isDigit (c : ℕ) : Bool := 48 ≤ c && c ≤ 57

/-- `tolower` in the C locale. -/
def toLower (c : ℕ) : ℕ := if 65 ≤ c ∧ c ≤ 90 then c + 32 else c

def int64Max : ℤ := 9223372036854775807

def int64Min : ℤ := -9223372036854775808

/-- What `strtoll` makes of a number that does not fit. -/
def clampInt64 (n : ℤ) : ℤ := max int64Min (min int64Max n)

def digitsValue (digits : Text) : ℤ := digits.foldl (fun n c ↦ 10 * n + ((c : ℤ) - 48)) 0

/-- What is left of a string behind a sign. -/
def skipSign : Text → Text
  | [] => []
  | c :: s => if c = 43 ∨ c = 45 then s else c :: s

/-- `strtoll` with base 10: the number, and what `end` points at. -/
def strtoll (s : Text) : ℤ × Text :=
  let number := s.dropWhile isSpace
  let digits := (skipSign number).takeWhile isDigit
  if digits = [] then (0, s)
  else
    (clampInt64 (if number.head? = some 45 then -digitsValue digits else digitsValue digits),
      (skipSign number).dropWhile isDigit)

/-- The number a value is as a whole, which the index functions and `is_numeric_value` test for. -/
def wholeNumber (value : Text) : Option ℤ :=
  if (strtoll value).2 = [] ∧ value ≠ [] then some (strtoll value).1 else none

/-! ### Lists in a string -/

/-- Cut a string at every separator, with what was read of the current part. Nothing is read
behind a separator at the very end. -/
def splitParts (separator : ℕ) (part : Text) : Text → List Text
  | [] => if part = [] then [] else [part]
  | c :: s =>
    if c = separator then part :: splitParts separator [] s
    else splitParts separator (part ++ [c]) s

/-- The sub-values of a value: its lines. -/
def subValues (value : Text) : List Text := splitParts 10 [] value

/-- What stands behind the first comma. -/
def afterComma : Text → Option Text
  | [] => none
  | c :: s => if c = 44 then some s else afterComma s

/-! ### Filters -/

/-- `enum obmafs3_query_op`; `other` is any byte that names none of them. -/
inductive QueryOp
  | equal | notEqual | greater | less | greaterEq | lessEq
  | contains | startsWith | exists
  | iEqual | iNotEqual | iContains | iStartsWith
  | numEqual | numNotEqual | numGreater | numLess | numGreaterEq | numLessEq
  | regex | iRegex
  | endsWith | iEndsWith
  | inList | iInList
  | between | numBetween
  | glob | iGlob
  | other
  deriving DecidableEq, Repr

/-- The pattern matching of the C library: whether a text matches a pattern, with a flag to ignore
case. An ill-formed regular expression matches nothing. -/
structure PatternLibrary where
  regex : Bool → Text → Text → Bool
  fnmatch : Bool → Text → Text → Bool

/-- `struct obmafs3_query_filter`, the part one filter is evaluated by. -/
structure QueryFilter where
  key : Text
  value : Text
  op : QueryOp
  deriving DecidableEq, Repr

def strstr (haystack needle : Text) : Bool := haystack.tails.any needle.isPrefixOf

def lowered (s : Text) : Text := s.map toLower

/-- `filter_single_value_matches`. -/
def filterSingleValueMatches (lib : PatternLibrary) (recValue fltValue : Text) : QueryOp → Bool
  | .equal => recValue = fltValue
  | .notEqual => recValue ≠ fltValue
  | .greater => fltValue < recValue
  | .less => recValue < fltValue
  | .greaterEq => fltValue ≤ recValue
  | .lessEq => recValue ≤ fltValue
  | .contains => strstr recValue fltValue
  | .startsWith => fltValue.isPrefixOf recValue
  | .exists => true
  | .iEqual => lowered recValue = lowered fltValue
  | .iNotEqual => lowered recValue ≠ lowered fltValue
  | .iContains => strstr (lowered recValue) (lowered fltValue)
  | .iStartsWith => (lowered fltValue).isPrefixOf (lowered recValue)
  | .numEqual => (strtoll recValue).1 = (strtoll fltValue).1
  | .numNotEqual => (strtoll recValue).1 ≠ (strtoll fltValue).1
  | .numGreater => (strtoll fltValue).1 < (strtoll recValue).1
  | .numLess => (strtoll recValue).1 < (strtoll fltValue).1
  | .numGreaterEq => (strtoll fltValue).1 ≤ (strtoll recValue).1
  | .numLessEq => (strtoll recValue).1 ≤ (strtoll fltValue).1
  | .regex => lib.regex false fltValue recValue
  | .iRegex => lib.regex true fltValue recValue
  | .endsWith => fltValue.isSuffixOf recValue
  | .iEndsWith => (lowered fltValue).isSuffixOf (lowered recValue)
  | .inList => (splitParts 44 [] fltValue).any (· = recValue)
  | .iInList => (splitParts 44 [] fltValue).any (lowered · = lowered recValue)
  | .between =>
    match afterComma fltValue with
    | none => false
    | some high =>
      let low := fltValue.takeWhile (· ≠ 44)
      low ≤ recValue.take low.length && recValue ≤ high
  | .numBetween =>
    match afterComma fltValue with
    | none => false
    | some high =>
      (strtoll fltValue).1 ≤ (strtoll recValue).1 && (strtoll recValue).1 ≤ (strtoll high).1
  | .glob => lib.fnmatch false fltValue recValue
  | .iGlob => lib.fnmatch true fltValue recValue
  | .other => false

/-- The key `Comments`, whose values are never cut into lines. -/
def commentsKey : Text := [67, 111, 109, 109, 101, 110, 116, 115]

/-- `filter_value_matches`. -/
def filterValueMatches (lib : PatternLibrary) (recKey recValue fltValue : Text) (op : QueryOp) :
    Bool :=
  if recKey = commentsKey then filterSingleValueMatches lib recValue fltValue op
  else if 10 ∉ recValue then filterSingleValueMatches lib recValue fltValue op
  else if op = .notEqual ∨ op = .iNotEqual then
    (subValues recValue).all (filterSingleValueMatches lib · fltValue op)
  else (subValues recValue).any (filterSingleValueMatches lib · fltValue op)

/-! ### Whole numbers and their lines -/

theorem strtoll_spaces {spaces s : Text} (hspaces : ∀ c ∈ spaces, isSpace c = true) :
    (strtoll (spaces ++ s)).1 = (strtoll s).1 := by
  have hdrop : (spaces ++ s).dropWhile isSpace = s.dropWhile isSpace := by
    rw [List.dropWhile_append_of_pos hspaces]
  simp only [strtoll, hdrop]
  split_ifs <;> rfl

theorem mem_skipSign {c : ℕ} {s : Text} (hc : c ∈ s) (hsign : c ≠ 43 ∧ c ≠ 45) :
    c ∈ skipSign s := by
  cases s with
  | nil => exact hc
  | cons d s =>
    rw [skipSign]
    split_ifs with hd
    · rcases List.mem_cons.mp hc with rfl | hc
      · omega
      · exact hc
    · exact hc

variable {value : Text}

/-- A whole number is made of spaces, a sign and digits, so it ends without a newline. -/
theorem wholeNumber_eq_some {n : ℤ} (hwhole : wholeNumber value = some n) :
    (strtoll value).1 = n ∧ value.dropWhile isSpace ≠ [] ∧ 10 ∉ value.dropWhile isSpace := by
  unfold wholeNumber at hwhole
  split_ifs at hwhole with hend
  obtain ⟨hrest, hne⟩ := hend
  have hdigits : (skipSign (value.dropWhile isSpace)).takeWhile isDigit ≠ [] := by
    intro hnone
    simp only [strtoll, if_pos hnone] at hrest
    exact hne hrest
  simp only [strtoll, if_neg hdigits] at hrest
  refine ⟨Option.some.inj hwhole, fun hempty ↦ hdigits (by simp [hempty, skipSign]), fun hmem ↦ ?_⟩
  have hdigit := List.dropWhile_eq_nil_iff.mp hrest 10 (mem_skipSign hmem (by decide))
  simp [isDigit] at hdigit

theorem splitParts_of_notMem {separator : ℕ} {part s : Text} (hnot : separator ∉ s) :
    splitParts separator part s = if part ++ s = [] then [] else [part ++ s] := by
  induction s generalizing part with
  | nil => simp [splitParts]
  | cons c s ih =>
    obtain ⟨hc, hs⟩ := not_or.mp (List.mem_cons.not.mp hnot)
    rw [splitParts, if_neg (Ne.symm hc), ih hs]
    simp

/-- The last line of a number with spaces in front has the number. -/
theorem exists_line {part spaces number : Text} (hpart : ∀ c ∈ part, isSpace c = true)
    (hspaces : ∀ c ∈ spaces, isSpace c = true) (hnumber : 10 ∉ number) (hne : number ≠ []) :
    ∃ line ∈ splitParts 10 part (spaces ++ number), (strtoll line).1 = (strtoll number).1 := by
  induction spaces generalizing part with
  | nil =>
    refine ⟨part ++ number, ?_, strtoll_spaces hpart⟩
    rw [List.nil_append, splitParts_of_notMem hnumber, if_neg (by simp [hne])]
    exact List.mem_singleton_self _
  | cons c spaces ih =>
    obtain ⟨hc, hrest⟩ := List.forall_mem_cons.mp hspaces
    rw [List.cons_append, splitParts]
    split_ifs with hnewline
    · obtain ⟨line, hline, hvalue⟩ := ih (List.forall_mem_nil _) hrest
      exact ⟨line, List.mem_cons_of_mem _ hline, hvalue⟩
    · refine ih (fun d hd ↦ ?_) hrest
      rcases List.mem_append.mp hd with hd | hd
      · exact hpart d hd
      · rwa [List.mem_singleton.mp hd]

/-- A value that is a whole number has a line with that number in front. -/
theorem exists_subValue {n : ℤ} (hwhole : wholeNumber value = some n) :
    ∃ line ∈ subValues value, (strtoll line).1 = n := by
  obtain ⟨hvalue, hne, hnewline⟩ := wholeNumber_eq_some hwhole
  have hspaces : ∀ c ∈ value.takeWhile isSpace, isSpace c = true := fun c hc ↦
    List.mem_takeWhile_imp hc
  obtain ⟨line, hline, hnumber⟩ := exists_line (List.forall_mem_nil _) hspaces hnewline hne
  rw [List.takeWhile_append_dropWhile] at hline
  refine ⟨line, hline, ?_⟩
  rw [hnumber, ← hvalue, ← strtoll_spaces hspaces, List.takeWhile_append_dropWhile]

end Obmafs3
