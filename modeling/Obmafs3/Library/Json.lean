import Mathlib.Data.List.Basic
import Mathlib.Order.MinMax

/-!
# JSON texts

A reader of JSON over bytes: what a text denotes is a tree of values, in which a text value is the
list of bytes that its escapes stand for and a number is its literal. The reader takes fuel;
`parse_mono` says that more fuel changes nothing, so that `ReadsAs` and `IsText` speak of enough of
it. The rules below them build the reading of a text from those of its parts, and
`not_readsItems_comma` says that a comma promises one more item.
-/

set_option autoImplicit false

namespace Obmafs3.Library.Json

/-- The bytes of an ASCII text. -/
def ascii (text : String) : List UInt8 := text.toList.map fun c ↦ UInt8.ofNat c.toNat

/-- A list of bytes is the UTF-8 form of some characters. -/
def ValidUtf8 (bytes : List UInt8) : Prop :=
  ∃ chars : List Char, bytes = chars.flatMap String.utf8EncodeChar

/-- A JSON value. -/
inductive Value
  | null
  | bool (value : Bool)
  | number (literal : List UInt8)
  | text (bytes : List UInt8)
  | array (items : List Value)
  | object (members : List (List UInt8 × Value))

/-! ## The reader -/

/-- Space, tab, line feed and carriage return. -/
def isSpaceByte (byte : UInt8) : Bool :=
  byte == 0x20 || byte == 0x09 || byte == 0x0A || byte == 0x0D

def skipSpace (bytes : List UInt8) : List UInt8 := bytes.dropWhile isSpaceByte

/-- The value of a hexadecimal digit. -/
def hexDigit (byte : UInt8) : Option ℕ :=
  if 0x30 ≤ byte ∧ byte ≤ 0x39 then some (byte.toNat - 0x30)
  else if 0x41 ≤ byte ∧ byte ≤ 0x46 then some (byte.toNat - 0x37)
  else if 0x61 ≤ byte ∧ byte ≤ 0x66 then some (byte.toNat - 0x57)
  else none

/-- The escapes of one byte: quote, backslash, slash, `b`, `f`, `n`, `r` and `t`. -/
def simpleEscape (byte : UInt8) : Option UInt8 :=
  if byte = 0x22 ∨ byte = 0x5C ∨ byte = 0x2F then some byte
  else if byte = 0x62 then some 0x08
  else if byte = 0x66 then some 0x0C
  else if byte = 0x6E then some 0x0A
  else if byte = 0x72 then some 0x0D
  else if byte = 0x74 then some 0x09
  else none

/-- Puts bytes in front of a text that was read. -/
def consBytes (bytes : List UInt8) (parsed : List UInt8 × List UInt8) : List UInt8 × List UInt8 :=
  (bytes ++ parsed.1, parsed.2)

/-- Where a reader of a text is: between characters, behind a backslash, or in the hexadecimal
digits of an escape. -/
inductive TextState
  | plain
  | escape
  | hex (digits value : ℕ)

/-- The bytes of a character outside the basic plane, by its surrogates. -/
def surrogateBytes (high low : ℕ) : List UInt8 :=
  String.utf8EncodeChar (Char.ofNat (0x10000 + (high - 0xD800) * 0x400 + (low - 0xDC00)))

/-- The rest of a text after its opening quote; `high` is the first half of a surrogate pair whose
second half must come next. -/
def parseText : (high : Option ℕ) → TextState → List UInt8 → Option (List UInt8 × List UInt8)
  | _, _, [] => none
  | high, .plain, byte :: rest =>
    if byte = 0x5C then parseText high .escape rest
    else if high.isSome then none
    else if byte = 0x22 then some ([], rest)
    else if byte < 0x20 then none
    else (parseText none .plain rest).map (consBytes [byte])
  | high, .escape, byte :: rest =>
    if byte = 0x75 then parseText high (.hex 0 0) rest
    else if high.isSome then none
    else
      match simpleEscape byte with
      | none => none
      | some escaped => (parseText none .plain rest).map (consBytes [escaped])
  | high, .hex digits value, byte :: rest =>
    match hexDigit byte with
    | none => none
    | some digit =>
      if digits < 3 then parseText high (.hex (digits + 1) (value * 16 + digit)) rest
      else
        let word := value * 16 + digit
        match high with
        | some high =>
          if 0xDC00 ≤ word ∧ word < 0xE000 then
            (parseText none .plain rest).map (consBytes (surrogateBytes high word))
          else none
        | none =>
          if 0xD800 ≤ word ∧ word < 0xDC00 then parseText (some word) .plain rest
          else if 0xDC00 ≤ word ∧ word < 0xE000 then none
          else
            (parseText none .plain rest).map
              (consBytes (String.utf8EncodeChar (Char.ofNat word)))

example : parseText none .plain (ascii "a\\n\\\"\" x") =
    some ([0x61, 0x0A, 0x22], ascii " x") := by
  decide

def isDigitByte (byte : UInt8) : Bool := 0x30 ≤ byte && byte ≤ 0x39

/-- At least one digit. -/
def parseDigits (bytes : List UInt8) : Option (List UInt8 × List UInt8) :=
  if bytes.takeWhile isDigitByte = [] then none
  else some (bytes.takeWhile isDigitByte, bytes.dropWhile isDigitByte)

/-- The part of a number from its point on, if it has one. -/
def parseFraction : List UInt8 → Option (List UInt8 × List UInt8)
  | 0x2E :: rest => (parseDigits rest).map (consBytes [0x2E])
  | bytes => some ([], bytes)

/-- The digits of an exponent, with a sign or not. -/
def parseSigned : List UInt8 → Option (List UInt8 × List UInt8)
  | 0x2B :: rest => (parseDigits rest).map (consBytes [0x2B])
  | 0x2D :: rest => (parseDigits rest).map (consBytes [0x2D])
  | bytes => parseDigits bytes

/-- The part of a number from its exponent on, if it has one. -/
def parseExponent : List UInt8 → Option (List UInt8 × List UInt8)
  | 0x65 :: rest => (parseSigned rest).map (consBytes [0x65])
  | 0x45 :: rest => (parseSigned rest).map (consBytes [0x45])
  | bytes => some ([], bytes)

/-- A number without its sign: no zero stands before another digit. -/
def parseUnsigned (bytes : List UInt8) : Option (List UInt8 × List UInt8) := do
  let (whole, rest) ← parseDigits bytes
  if whole.head? = some 0x30 ∧ whole.length ≠ 1 then none
  else do
    let (fraction, rest) ← parseFraction rest
    let (exponent, rest) ← parseExponent rest
    some (whole ++ fraction ++ exponent, rest)

def parseNumber : List UInt8 → Option (List UInt8 × List UInt8)
  | 0x2D :: rest => (parseUnsigned rest).map (consBytes [0x2D])
  | bytes => parseUnsigned bytes

example : parseNumber (ascii "-2.5e+3]") = some (ascii "-2.5e+3", ascii "]") := by decide

def parseWord (word : List UInt8) (value : Value) (bytes : List UInt8) :
    Option (Value × List UInt8) :=
  if bytes.take word.length = word then some (value, bytes.drop word.length) else none

/-- `null`, `true`, `false` or a number. -/
def parseScalar (bytes : List UInt8) : Option (Value × List UInt8) :=
  (parseWord (ascii "null") .null bytes).or <|
    (parseWord (ascii "true") (.bool true) bytes).or <|
      (parseWord (ascii "false") (.bool false) bytes).or <|
        (parseNumber bytes).map fun parsed ↦ (.number parsed.1, parsed.2)

/-- What is left behind a byte that must come next, after space. -/
def expectByte (byte : UInt8) (bytes : List UInt8) : Option (List UInt8) :=
  if (skipSpace bytes).head? = some byte then some (skipSpace bytes).tail else none

/-- The name of a member with the colon after it. -/
def parseName (bytes : List UInt8) : Option (List UInt8 × List UInt8) := do
  let (name, rest) ← parseText none .plain (← expectByte 0x22 bytes)
  some (name, ← expectByte 0x3A rest)

mutual

/-- A value at the front of the bytes, and what is left after it. -/
def parseValue : ℕ → List UInt8 → Option (Value × List UInt8)
  | 0, _ => none
  | fuel + 1, bytes =>
    match expectByte 0x7B bytes, expectByte 0x5B bytes, expectByte 0x22 bytes with
    | some rest, _, _ =>
      match expectByte 0x7D rest with
      | some after => some (.object [], after)
      | none => (parseMembers fuel rest).map fun parsed ↦ (.object parsed.1, parsed.2)
    | none, some rest, _ =>
      match expectByte 0x5D rest with
      | some after => some (.array [], after)
      | none => (parseItems fuel rest).map fun parsed ↦ (.array parsed.1, parsed.2)
    | none, none, some rest =>
      (parseText none .plain rest).map fun parsed ↦ (.text parsed.1, parsed.2)
    | none, none, none => parseScalar (skipSpace bytes)

/-- The items of an array that has some, up to its bracket. -/
def parseItems : ℕ → List UInt8 → Option (List Value × List UInt8)
  | 0, _ => none
  | fuel + 1, bytes =>
    match parseValue fuel bytes with
    | none => none
    | some (value, rest) =>
      match expectByte 0x5D rest, expectByte 0x2C rest with
      | some after, _ => some ([value], after)
      | none, some after => (parseItems fuel after).map fun parsed ↦ (value :: parsed.1, parsed.2)
      | none, none => none

/-- The members of an object that has some, up to its brace. -/
def parseMembers : ℕ → List UInt8 → Option (List (List UInt8 × Value) × List UInt8)
  | 0, _ => none
  | fuel + 1, bytes =>
    match parseName bytes with
    | none => none
    | some (name, rest) =>
      match parseValue fuel rest with
      | none => none
      | some (value, rest) =>
        match expectByte 0x7D rest, expectByte 0x2C rest with
        | some after, _ => some ([(name, value)], after)
        | none, some after =>
          (parseMembers fuel after).map fun parsed ↦ ((name, value) :: parsed.1, parsed.2)
        | none, none => none

end

theorem expectByte_of_skipSpace {byte other : UInt8} {bytes rest : List UInt8}
    (hskip : skipSpace bytes = other :: rest) :
    expectByte byte bytes = if other = byte then some rest else none := by
  rw [expectByte, hskip]
  simp only [List.head?_cons, Option.some.injEq, List.tail_cons]

/-- More fuel changes nothing that was read with less. -/
theorem parse_mono (fuel : ℕ) : (∀ bytes parsed, parseValue fuel bytes = some parsed →
        parseValue (fuel + 1) bytes = some parsed) ∧
      (∀ bytes parsed, parseItems fuel bytes = some parsed →
        parseItems (fuel + 1) bytes = some parsed) ∧
      ∀ bytes parsed, parseMembers fuel bytes = some parsed →
        parseMembers (fuel + 1) bytes = some parsed := by
  induction fuel with
  | zero => simp [parseValue, parseItems, parseMembers]
  | succ fuel ih =>
    obtain ⟨ihvalue, ihitems, ihmembers⟩ := ih
    refine ⟨fun bytes parsed hparse ↦ ?_, fun bytes parsed hparse ↦ ?_,
      fun bytes parsed hparse ↦ ?_⟩
    · rw [parseValue] at hparse ⊢
      split at hparse
      · split at hparse
        · exact hparse
        · obtain ⟨members, hmembers, rfl⟩ := Option.map_eq_some_iff.mp hparse
          rw [ihmembers _ _ hmembers]
          rfl
      · split at hparse
        · exact hparse
        · obtain ⟨items, hitems, rfl⟩ := Option.map_eq_some_iff.mp hparse
          rw [ihitems _ _ hitems]
          rfl
      · exact hparse
      · exact hparse
    · rw [parseItems] at hparse ⊢
      split at hparse
      · cases hparse
      · rename_i value rest hvalue
        rw [ihvalue _ _ hvalue]
        dsimp only
        split at hparse
        · exact hparse
        · obtain ⟨items, hitems, rfl⟩ := Option.map_eq_some_iff.mp hparse
          rw [ihitems _ _ hitems]
          rfl
        · cases hparse
    · rw [parseMembers] at hparse ⊢
      split at hparse
      · cases hparse
      · rename_i name rest hname
        split at hparse
        · cases hparse
        · rename_i value rest' hvalue
          rw [ihvalue _ _ hvalue]
          dsimp only
          split at hparse
          · exact hparse
          · obtain ⟨members, hmembers, rfl⟩ := Option.map_eq_some_iff.mp hparse
            rw [ihmembers _ _ hmembers]
            rfl
          · cases hparse

theorem parse_mono_le {fuel fuel' : ℕ} (hle : fuel ≤ fuel') :
    (∀ bytes parsed, parseValue fuel bytes = some parsed →
        parseValue fuel' bytes = some parsed) ∧
      (∀ bytes parsed, parseItems fuel bytes = some parsed →
        parseItems fuel' bytes = some parsed) ∧
      ∀ bytes parsed, parseMembers fuel bytes = some parsed →
        parseMembers fuel' bytes = some parsed := by
  induction hle with
  | refl => exact ⟨fun _ _ h ↦ h, fun _ _ h ↦ h, fun _ _ h ↦ h⟩
  | step _ ih =>
    obtain ⟨hvalue, hitems, hmembers⟩ := parse_mono _
    exact ⟨fun _ _ h ↦ hvalue _ _ (ih.1 _ _ h), fun _ _ h ↦ hitems _ _ (ih.2.1 _ _ h),
      fun _ _ h ↦ hmembers _ _ (ih.2.2 _ _ h)⟩

/-! ## What is read with enough fuel -/

/-- The bytes start with a text of the value, and `rest` comes after it. -/
def ReadsAs (value : Value) (bytes rest : List UInt8) : Prop :=
  ∃ fuel, parseValue fuel bytes = some (value, rest)

/-- The bytes start with these items and a closing bracket. -/
def ReadsItems (items : List Value) (bytes rest : List UInt8) : Prop :=
  ∃ fuel, parseItems fuel bytes = some (items, rest)

/-- The bytes start with these members and a closing brace. -/
def ReadsMembers (members : List (List UInt8 × Value)) (bytes rest : List UInt8) : Prop :=
  ∃ fuel, parseMembers fuel bytes = some (members, rest)

/-- The bytes are one JSON text, in UTF-8, and denote the value. -/
def IsText (value : Value) (bytes : List UInt8) : Prop :=
  ValidUtf8 bytes ∧ ∃ rest, ReadsAs value bytes rest ∧ skipSpace rest = []

section Rules

variable {value value' : Value} {items : List Value} {members : List (List UInt8 × Value)}
  {name bytes bytes' rest rest' after : List UInt8}

/-- At most one value can be read. -/
theorem ReadsAs.unique (hreads : ReadsAs value bytes rest) (hreads' : ReadsAs value' bytes rest') :
    value = value' ∧ rest = rest' := by
  obtain ⟨fuel, hparse⟩ := hreads
  obtain ⟨fuel', hparse'⟩ := hreads'
  have hmore := (parse_mono_le (le_max_left fuel fuel')).1 _ _ hparse
  have hmore' := (parse_mono_le (le_max_right fuel fuel')).1 _ _ hparse'
  rw [hmore, Option.some.injEq, Prod.mk.injEq] at hmore'
  exact hmore'

/-- Space before a value changes nothing. -/
theorem skipSpace_newline (bytes : List UInt8) : skipSpace (0x0A :: bytes) = skipSpace bytes := rfl

theorem expectByte_congr (hskip : skipSpace bytes = skipSpace bytes') (byte : UInt8) :
    expectByte byte bytes = expectByte byte bytes' := by
  rw [expectByte, expectByte, hskip]

theorem parseValue_congr (hskip : skipSpace bytes = skipSpace bytes') (fuel : ℕ) :
    parseValue fuel bytes = parseValue fuel bytes' := by
  cases fuel with
  | zero => rfl
  | succ fuel => simp only [parseValue, expectByte_congr hskip, hskip]

/-- A line feed before an item changes nothing. -/
theorem readsItems_newline :
    ReadsItems items (0x0A :: bytes) rest ↔ ReadsItems items bytes rest := by
  have hsame (fuel : ℕ) : parseItems fuel (0x0A :: bytes) = parseItems fuel bytes := by
    cases fuel with
    | zero => rfl
    | succ fuel => simp only [parseItems, parseValue_congr (skipSpace_newline bytes)]
  simp only [ReadsItems, hsame]

/-- A line feed before a member changes nothing. -/
theorem readsMembers_newline :
    ReadsMembers members (0x0A :: bytes) rest ↔ ReadsMembers members bytes rest := by
  have hsame (fuel : ℕ) : parseMembers fuel (0x0A :: bytes) = parseMembers fuel bytes := by
    cases fuel with
    | zero => rfl
    | succ fuel =>
      simp only [parseMembers, parseName, expectByte_congr (skipSpace_newline bytes)]
  simp only [ReadsMembers, hsame]

theorem reads_emptyArray (hopen : skipSpace bytes = 0x5B :: rest)
    (hclose : skipSpace rest = 0x5D :: after) : ReadsAs (.array []) bytes after := by
  refine ⟨1, ?_⟩
  simp [parseValue, expectByte_of_skipSpace hopen, expectByte_of_skipSpace hclose]

theorem reads_array (hopen : skipSpace bytes = 0x5B :: rest)
    (hitems : ReadsItems items rest after) (hsome : expectByte 0x5D rest = none) :
    ReadsAs (.array items) bytes after := by
  obtain ⟨fuel, hparse⟩ := hitems
  refine ⟨fuel + 1, ?_⟩
  simp [parseValue, expectByte_of_skipSpace hopen, hsome, hparse]

theorem reads_emptyObject (hopen : skipSpace bytes = 0x7B :: rest)
    (hclose : skipSpace rest = 0x7D :: after) : ReadsAs (.object []) bytes after := by
  refine ⟨1, ?_⟩
  simp [parseValue, expectByte_of_skipSpace hopen, expectByte_of_skipSpace hclose]

theorem reads_object (hopen : skipSpace bytes = 0x7B :: rest)
    (hmembers : ReadsMembers members rest after) (hsome : expectByte 0x7D rest = none) :
    ReadsAs (.object members) bytes after := by
  obtain ⟨fuel, hparse⟩ := hmembers
  refine ⟨fuel + 1, ?_⟩
  simp [parseValue, expectByte_of_skipSpace hopen, hsome, hparse]

theorem reads_text (hopen : skipSpace bytes = 0x22 :: rest)
    (htext : parseText none .plain rest = some (name, after)) :
    ReadsAs (.text name) bytes after := by
  refine ⟨1, ?_⟩
  simp [parseValue, expectByte_of_skipSpace hopen, htext]

theorem readsItems_last (hvalue : ReadsAs value bytes rest)
    (hclose : skipSpace rest = 0x5D :: after) : ReadsItems [value] bytes after := by
  obtain ⟨fuel, hparse⟩ := hvalue
  refine ⟨fuel + 1, ?_⟩
  simp [parseItems, hparse, expectByte_of_skipSpace hclose]

theorem readsItems_cons (hvalue : ReadsAs value bytes rest)
    (hcomma : skipSpace rest = 0x2C :: rest')
    (hitems : ReadsItems items rest' after) : ReadsItems (value :: items) bytes after := by
  obtain ⟨fuel, hparse⟩ := hvalue
  obtain ⟨fuel', hparse'⟩ := hitems
  have hmore := (parse_mono_le (le_max_left fuel fuel')).1 _ _ hparse
  have hmore' := (parse_mono_le (le_max_right fuel fuel')).2.1 _ _ hparse'
  refine ⟨max fuel fuel' + 1, ?_⟩
  simp [parseItems, hmore, expectByte_of_skipSpace hcomma, hmore']

theorem parseName_eq (hopen : skipSpace bytes = 0x22 :: rest)
    (htext : parseText none .plain rest = some (name, rest'))
    (hcolon : skipSpace rest' = 0x3A :: after) : parseName bytes = some (name, after) := by
  simp [parseName, expectByte_of_skipSpace hopen, htext, expectByte_of_skipSpace hcolon]

section

variable (hname : parseName bytes = some (name, rest)) (hvalue : ReadsAs value rest rest')
include hname hvalue

theorem readsMembers_last (hclose : skipSpace rest' = 0x7D :: after) :
    ReadsMembers [(name, value)] bytes after := by
  obtain ⟨fuel, hparse⟩ := hvalue
  refine ⟨fuel + 1, ?_⟩
  simp [parseMembers, hname, hparse, expectByte_of_skipSpace hclose]

theorem readsMembers_cons (hcomma : skipSpace rest' = 0x2C :: bytes')
    (hmembers : ReadsMembers members bytes' after) :
    ReadsMembers ((name, value) :: members) bytes after := by
  obtain ⟨fuel, hparse⟩ := hvalue
  obtain ⟨fuel', hparse'⟩ := hmembers
  have hmore := (parse_mono_le (le_max_left fuel fuel')).1 _ _ hparse
  have hmore' := (parse_mono_le (le_max_right fuel fuel')).2.2 _ _ hparse'
  refine ⟨max fuel fuel' + 1, ?_⟩
  simp [parseMembers, hname, hmore, expectByte_of_skipSpace hcomma, hmore']

end

/-- A comma promises an item: where none can be read after it, none can be read before it. -/
theorem not_readsItems_comma (hvalue : ReadsAs value bytes rest)
    (hcomma : skipSpace rest = 0x2C :: rest')
    (hnone : ∀ items after, ¬ ReadsItems items rest' after) : ¬ ReadsItems items bytes after := by
  rintro ⟨fuel, hparse⟩
  cases fuel with
  | zero => cases hparse
  | succ fuel =>
    rw [parseItems] at hparse
    split at hparse
    · cases hparse
    · rename_i value' rest'' hvalue'
      obtain ⟨rfl, rfl⟩ := hvalue.unique ⟨fuel, hvalue'⟩
      simp only [expectByte_of_skipSpace hcomma, reduceIte] at hparse
      obtain ⟨parsed, hitems, -⟩ := Option.map_eq_some_iff.mp hparse
      exact hnone _ _ ⟨fuel, hitems⟩

/-- No value starts with a closing bracket. -/
theorem not_reads_close (hclose : skipSpace bytes = 0x5D :: rest) :
    ¬ ReadsAs value bytes after := by
  rintro ⟨fuel, hparse⟩
  cases fuel with
  | zero => cases hparse
  | succ fuel =>
    simp only [parseValue, expectByte_of_skipSpace hclose, hclose] at hparse
    cases hparse

theorem not_readsItems_close (hclose : skipSpace bytes = 0x5D :: rest) :
    ¬ ReadsItems items bytes after := by
  rintro ⟨fuel, hparse⟩
  cases fuel with
  | zero => cases hparse
  | succ fuel =>
    rw [parseItems] at hparse
    split at hparse
    · cases hparse
    · exact not_reads_close hclose ⟨fuel, ‹_›⟩

/-- What an array with items holds is read by its items. -/
theorem readsItems_of_reads (hreads : ReadsAs value bytes after)
    (hopen : skipSpace bytes = 0x5B :: rest) (hsome : expectByte 0x5D rest = none) :
    ∃ items, value = .array items ∧ ReadsItems items rest after := by
  obtain ⟨fuel, hparse⟩ := hreads
  cases fuel with
  | zero => cases hparse
  | succ fuel =>
    have hitems : (parseItems fuel rest).map (fun parsed ↦ (Value.array parsed.1, parsed.2)) =
        some (value, after) := by
      simpa [parseValue, expectByte_of_skipSpace hopen, hsome] using hparse
    obtain ⟨parsed, hparsed, heq⟩ := Option.map_eq_some_iff.mp hitems
    cases heq
    exact ⟨parsed.1, rfl, fuel, hparsed⟩

end Rules

/-! ## Plain texts and digitsOf numbers -/

/-- A byte that stands for itself in a text: no quote, no backslash and no control character. -/
def IsPlain (byte : UInt8) : Prop := byte ≠ 0x22 ∧ byte ≠ 0x5C ∧ 0x20 ≤ byte

instance instDecidableIsPlain (byte : UInt8) : Decidable (IsPlain byte) :=
  inferInstanceAs (Decidable (_ ∧ _ ∧ _))

theorem parseText_cons {byte : UInt8} (hplain : IsPlain byte) (rest : List UInt8) :
    parseText none .plain (byte :: rest) = (parseText none .plain rest).map (consBytes [byte]) := by
  obtain ⟨hquote, hescape, hcontrol⟩ := hplain
  rw [parseText, if_neg hescape, if_neg (by decide), if_neg hquote,
    if_neg (UInt8.not_lt.mpr hcontrol)]

variable {bytes : List UInt8} {n : ℕ}

/-- A text of plain bytes is read as they are. -/
theorem parseText_plain (hplain : ∀ byte ∈ bytes, IsPlain byte) (rest : List UInt8) :
    parseText none .plain (bytes ++ 0x22 :: rest) = some (bytes, rest) := by
  induction bytes with
  | nil => rfl
  | cons byte bytes ih =>
    obtain ⟨hbyte, hbytes⟩ := List.forall_mem_cons.mp hplain
    rw [List.cons_append, parseText_cons hbyte, ih hbytes]
    rfl

/-- The digitsOf numeral of a number. -/
def digitsOf (n : ℕ) : List UInt8 := (Nat.toDigits 10 n).map fun c ↦ UInt8.ofNat c.toNat

theorem isDigit_digitChar : ∀ digit < 10,
    isDigitByte (UInt8.ofNat (Nat.digitChar digit).toNat) = true := by
  decide

theorem decimal_of_lt (hn : n < 10) : digitsOf n = [UInt8.ofNat (Nat.digitChar n).toNat] := by
  rw [digitsOf, Nat.toDigits_of_lt_base hn]
  rfl

theorem decimal_of_le (hn : 10 ≤ n) :
    digitsOf n = digitsOf (n / 10) ++ [UInt8.ofNat (Nat.digitChar (n % 10)).toNat] := by
  rw [digitsOf, Nat.toDigits_of_base_le (by decide) hn, List.map_append]
  rfl

theorem digitsOf_ne_nil (n : ℕ) : digitsOf n ≠ [] := by
  simp [digitsOf]

theorem isDigit_of_mem_decimal (n : ℕ) : ∀ byte ∈ digitsOf n, isDigitByte byte = true := by
  induction n using Nat.strong_induction_on with
  | _ n ih =>
    intro byte hbyte
    rcases lt_or_ge n 10 with hlt | hle
    · rw [decimal_of_lt hlt, List.mem_singleton] at hbyte
      rw [hbyte]
      exact isDigit_digitChar n hlt
    · rw [decimal_of_le hle, List.mem_append, List.mem_singleton] at hbyte
      rcases hbyte with hbyte | rfl
      · exact ih (n / 10) (by omega) byte hbyte
      · exact isDigit_digitChar (n % 10) (by omega)

theorem digitChar_ne_zero : ∀ digit < 10, digit ≠ 0 →
    UInt8.ofNat (Nat.digitChar digit).toNat ≠ 0x30 := by
  decide

/-- A numeral starts with a zero only if it is one. -/
theorem head_decimal_ne (hn : 0 < n) : (digitsOf n).head? ≠ some 0x30 := by
  induction n using Nat.strong_induction_on with
  | _ n ih =>
    rcases lt_or_ge n 10 with hlt | hle
    · rw [decimal_of_lt hlt, List.head?_cons, Ne, Option.some.injEq]
      exact digitChar_ne_zero n hlt (by omega)
    · rw [decimal_of_le hle, List.head?_append_of_ne_nil _ (digitsOf_ne_nil _)]
      exact ih (n / 10) (by omega) (by omega)

theorem decimal_wellFormed (n : ℕ) :
    ¬ ((digitsOf n).head? = some 0x30 ∧ (digitsOf n).length ≠ 1) := by
  rintro ⟨hhead, hlength⟩
  rcases Nat.eq_zero_or_pos n with rfl | hn
  · exact hlength rfl
  · exact head_decimal_ne hn hhead

/-- A byte that ends a number: no digit, no point and no exponent. -/
def EndsNumber (byte : UInt8) : Prop :=
  isDigitByte byte = false ∧ byte ≠ 0x2E ∧ byte ≠ 0x65 ∧ byte ≠ 0x45

variable {stop : UInt8}

theorem parseUnsigned_decimal (n : ℕ) (hstop : EndsNumber stop) (rest : List UInt8) :
    parseUnsigned (digitsOf n ++ stop :: rest) = some (digitsOf n, stop :: rest) := by
  obtain ⟨hdigit, hpoint, hexponent, hexponent'⟩ := hstop
  have htake : (digitsOf n ++ stop :: rest).takeWhile isDigitByte = digitsOf n := by
    rw [List.takeWhile_append_of_pos (isDigit_of_mem_decimal n),
      List.takeWhile_cons_of_neg (by simp [hdigit]), List.append_nil]
  have hdrop : (digitsOf n ++ stop :: rest).dropWhile isDigitByte = stop :: rest := by
    rw [List.dropWhile_append_of_pos (isDigit_of_mem_decimal n),
      List.dropWhile_cons_of_neg (by simp [hdigit])]
  have hdigits : parseDigits (digitsOf n ++ stop :: rest) = some (digitsOf n, stop :: rest) := by
    rw [parseDigits, htake, hdrop, if_neg (digitsOf_ne_nil n)]
  have hfraction : parseFraction (stop :: rest) = some ([], stop :: rest) := by
    rw [parseFraction.eq_def]
    split
    · simp_all
    · rfl
  have hexp : parseExponent (stop :: rest) = some ([], stop :: rest) := by
    rw [parseExponent.eq_def]
    split
    · simp_all
    · simp_all
    · rfl
  rw [parseUnsigned, hdigits]
  change (if (digitsOf n).head? = some 0x30 ∧ (digitsOf n).length ≠ 1 then _ else _) = _
  rw [if_neg (decimal_wellFormed n), hfraction]
  change (parseExponent (stop :: rest)).bind _ = _
  rw [hexp]
  change some (digitsOf n ++ [] ++ [], stop :: rest) = _
  rw [List.append_nil, List.append_nil]

/-- The first byte of a number tells it from every other value. -/
theorem parseScalar_digit {first : UInt8} (hfirst : isDigitByte first = true) :
    parseScalar (first :: bytes) =
      (parseUnsigned (first :: bytes)).map fun parsed ↦ (.number parsed.1, parsed.2) := by
  have hword (word : List UInt8) (value : Value) (head : UInt8) (tail : List UInt8)
      (hhead : word = head :: tail) (hother : isDigitByte head = false) :
      parseWord word value (first :: bytes) = none := by
    rw [parseWord, if_neg]
    intro htake
    rw [hhead, List.length_cons, List.take_succ_cons, List.cons.injEq] at htake
    rw [htake.1, hother] at hfirst
    cases hfirst
  have hnumber : parseNumber (first :: bytes) = parseUnsigned (first :: bytes) := by
    rw [parseNumber.eq_def]
    split
    · rename_i heq
      obtain ⟨rfl, -⟩ := List.cons.inj heq
      cases hfirst
    · rfl
  rw [parseScalar, hword (ascii "null") _ 0x6E _ rfl (by decide),
    hword (ascii "true") _ 0x74 _ rfl (by decide),
    hword (ascii "false") _ 0x66 _ rfl (by decide), hnumber]
  rfl

theorem reads_decimal {rest : List UInt8} (hskip : skipSpace bytes = digitsOf n ++ stop :: rest)
    (hstop : EndsNumber stop) : ReadsAs (.number (digitsOf n)) bytes (stop :: rest) := by
  refine ⟨1, ?_⟩
  have hparse := parseUnsigned_decimal n hstop rest
  cases hdecimal : digitsOf n with
  | nil => exact absurd hdecimal (digitsOf_ne_nil n)
  | cons first digits =>
    have hfirst : isDigitByte first = true :=
      isDigit_of_mem_decimal n first (by rw [hdecimal]; exact List.mem_cons_self)
    have hother (byte : UInt8) (hbyte : isDigitByte byte = false) : first ≠ byte := by
      rintro rfl
      rw [hfirst] at hbyte
      cases hbyte
    rw [hdecimal, List.cons_append] at hskip hparse
    simp only [parseValue, expectByte_of_skipSpace hskip, if_neg (hother 0x7B (by decide)),
      if_neg (hother 0x5B (by decide)), if_neg (hother 0x22 (by decide)), hskip,
      parseScalar_digit hfirst, hparse, Option.map_some]

/-! ## UTF-8 -/

theorem utf8EncodeChar_of_lt :
    ∀ n < 0x80, String.utf8EncodeChar (Char.ofNat n) = [UInt8.ofNat n] := by
  decide

theorem ValidUtf8.append {bytes bytes' : List UInt8} (hbytes : ValidUtf8 bytes)
    (hbytes' : ValidUtf8 bytes') : ValidUtf8 (bytes ++ bytes') := by
  obtain ⟨chars, rfl⟩ := hbytes
  obtain ⟨chars', rfl⟩ := hbytes'
  exact ⟨chars ++ chars', List.flatMap_append.symm⟩

/-- Bytes below `0x80` are UTF-8, each as a character. -/
theorem validUtf8_of_lt (hlt : ∀ byte ∈ bytes, byte < 0x80) : ValidUtf8 bytes := by
  induction bytes with
  | nil => exact ⟨[], rfl⟩
  | cons byte bytes ih =>
    obtain ⟨hbyte, hbytes⟩ := List.forall_mem_cons.mp hlt
    have hone : ValidUtf8 [byte] := by
      refine ⟨[Char.ofNat byte.toNat], ?_⟩
      rw [List.flatMap_singleton, utf8EncodeChar_of_lt byte.toNat hbyte, UInt8.ofNat_toNat]
    exact hone.append (ih hbytes)

theorem validUtf8_of_all (hall : bytes.all (· < 0x80) = true) : ValidUtf8 bytes :=
  validUtf8_of_lt (by simpa using hall)

theorem validUtf8_decimal (n : ℕ) : ValidUtf8 (digitsOf n) := by
  refine validUtf8_of_lt fun byte hbyte ↦ ?_
  have hdigit := isDigit_of_mem_decimal n byte hbyte
  simp only [isDigitByte, Bool.and_eq_true, decide_eq_true_eq] at hdigit
  exact UInt8.lt_of_le_of_lt hdigit.2 (by decide)
end Obmafs3.Library.Json
