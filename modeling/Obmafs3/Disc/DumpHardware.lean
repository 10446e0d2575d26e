import Obmafs3.Library.ByteImage
import Obmafs3.Library.Json

/-!
# The export of dump hardware

The block of an image that says which drives it was dumped with, as a JSON file beside the image.
The block is a header with the number of entries, and for each entry nine lengths, eight strings and
a list of extents. The export walks the block by the lengths it finds there and appends to a text.
-/

set_option autoImplicit false

namespace Obmafs3

open Library.ByteImage Library.Json

/-- The header of the block. -/
def dumphwHeaderSize : ℕ := 18

/-- The nine lengths of an entry. -/
def dumphwEntrySize : ℕ := 36

/-- `INT_MAX`, the most that `snprintf` can return. -/
def intMax : ℕ := 2 ^ 31 - 1

/-- `field_names`. -/
def dumphwFieldNames : List String :=
  ["manufacturer", "model", "revision", "firmware", "serial", "software_name", "software_version",
    "software_os"]

/-- The nine words of an entry: the lengths of its strings and the number of its extents. -/
def dumphwLens (header : List UInt8) : List ℕ :=
  (List.range 9).map fun f ↦ number (fieldBytes header (4 * f) 4)

/-- A string of an entry; `start` is its place if it lies in the block. -/
structure DumphwString where
  name : String
  length : ℕ
  start : Option ℕ
  deriving DecidableEq, Repr

/-- `strs`: the strings one after the other, each with its place if it lies in a block of `size`
bytes. -/
def dumphwStrings (size : ℕ) : (off : ℕ) → List (String × ℕ) → List DumphwString
  | _, [] => []
  | off, (name, length) :: rest =>
    ⟨name, length, if off + length ≤ size then some off else none⟩ ::
      dumphwStrings size (off + length) rest

/-- What `%.*s` prints. From `2 ^ 31` on the precision is negative, hence ignored, and the string
goes up to the next zero: `none` if there is none in the block. -/
def printedString (block : List UInt8) (start length : ℕ) : Option (List UInt8) :=
  if length ≤ intMax then some ((fieldBytes block start length).takeWhile (· != 0))
  else if 0 ∈ block.drop start then some ((block.drop start).takeWhile (· != 0))
  else none

/-- The line of a string. -/
def dumphwStringLine (name : String) (printed : List UInt8) : List UInt8 :=
  ascii "    \"" ++ ascii name ++ ascii "\": \"" ++ printed ++ ascii "\",\n"

/-- `JAPPEND` of the line of a string, the only one that can be too long for `snprintf`; the buffer
grows as far as it has to. -/
def jappendLine (text line : List UInt8) : List UInt8 :=
  if line.length ≤ intMax then text ++ line else text

/-- One round of the loop over the strings. -/
def appendString (block text : List UInt8) (string : DumphwString) : Option (List UInt8) :=
  match string.start with
  | none => some text
  | some start =>
    if 0 < string.length then
      (printedString block start string.length).map fun printed ↦
        jappendLine text (dumphwStringLine string.name printed)
    else some text

/-- The line of an extent; all but the last one end with a comma. -/
def dumphwExtentLine (first last : ℕ) (more : Bool) : List UInt8 :=
  ascii "      \x7b\"start\": " ++ digitsOf first ++ ascii ", \"end\": " ++ digitsOf last ++
    ascii "\x7d" ++ (if more then ascii "," else []) ++ ascii "\n"

/-- The loop over the extents. -/
def appendExtents (block : List UInt8) : (left off : ℕ) → List UInt8 → Option (List UInt8)
  | 0, _, text => some text
  | left + 1, off, text => do
    let first ← readNumber block off 8
    let last ← readNumber block (off + 8) 8
    appendExtents block left (off + 16) (text ++ dumphwExtentLine first last (0 < left))

/-- Takes away the comma after the last string. -/
def trimComma (text : List UInt8) : List UInt8 :=
  if 2 ≤ text.length ∧ text[text.length - 2]? = some 0x2C then
    text.take (text.length - 2) ++ [0x0A]
  else text

/-- The loop over the entries. -/
def appendEntries (block : List UInt8) : (left off : ℕ) → List UInt8 → Option (List UInt8)
  | 0, _, text => some text
  | left + 1, off, text =>
    if block.length < off + dumphwEntrySize then some text
    else do
      let lens := dumphwLens (← readBytes block off dumphwEntrySize)
      let off := off + dumphwEntrySize
      let strings := dumphwStrings block.length off (dumphwFieldNames.zip lens)
      let text ← strings.foldlM (appendString block) (text ++ ascii "  \x7b\n")
      let off := off + (lens.take 8).sum
      let extents := lens.getD 8 0
      let text ←
        -- The product has 32 bits.
        if 0 < extents ∧ off + extents * 16 % 2 ^ 32 ≤ block.length then
          (appendExtents block extents off (text ++ ascii "    \"extents\": [\n")).map fun text ↦
            text ++ ascii "    ]\n"
        else some (trimComma text)
      let off := off + extents * 16
      -- The comma is placed by the declared number of entries.
      appendEntries block left off
        (text ++ ascii "  \x7d" ++ (if 0 < left then ascii "," else []) ++ ascii "\n")

/-- `export_dumphw_json`: the text that is written, if one is. The outcome is `none` if a read leaves
the block. -/
def exportDumphwJson (block : List UInt8) : Option (Option (List UInt8)) :=
  if block.length < dumphwHeaderSize then some none
  else do
    let entries ← readNumber block 4 2
    if entries = 0 then some none
    else (appendEntries block entries dumphwHeaderSize (ascii "[\n")).map fun text ↦
      some (text ++ ascii "]\n")

/-! ## The entries of a block -/

section Entries

variable (block : List UInt8) (off : ℕ)

/-- The nine words of the entry at an offset. -/
def entryLens : List ℕ := dumphwLens (fieldBytes block off dumphwEntrySize)

def entryStrings : List DumphwString :=
  dumphwStrings block.length (off + dumphwEntrySize) (dumphwFieldNames.zip (entryLens block off))

/-- Where the strings of the entry end and its extents start. -/
def stringsEnd : ℕ := off + dumphwEntrySize + ((entryLens block off).take 8).sum

def extentCount : ℕ := (entryLens block off).getD 8 0

/-- Where the entry ends. -/
def nextEntry : ℕ := stringsEnd block off + extentCount block off * 16

/-- The offsets of the entries, as long as their words lie in the block. -/
def entryOffsets : (left off : ℕ) → List ℕ
  | 0, _ => []
  | left + 1, off =>
    if block.length < off + dumphwEntrySize then []
    else off :: entryOffsets left (nextEntry block off)

/-- The number of entries that the header declares. -/
def declaredEntries : ℕ := number (fieldBytes block 4 2)

/-- The offsets of the declared entries whose words lie in the block. -/
def shownEntries : List ℕ := entryOffsets block (declaredEntries block) dumphwHeaderSize

/-- The bytes of a string up to the first zero. -/
def stringBytes (start length : ℕ) : List UInt8 := (fieldBytes block start length).takeWhile (· != 0)

/-- What the line of a string shows: nothing if it is empty or leaves the block. -/
def shownString (string : DumphwString) : Option (String × List UInt8) :=
  match string.start with
  | none => none
  | some start =>
    if 0 < string.length then some (string.name, stringBytes block start string.length) else none

/-- The strings of the entry that have a line. -/
def entryTexts : List (String × List UInt8) := (entryStrings block off).filterMap (shownString block)

/-- The extents from an offset on. -/
def extentsFrom : (left off : ℕ) → List (ℕ × ℕ)
  | 0, _ => []
  | left + 1, off =>
    (number (fieldBytes block off 8), number (fieldBytes block (off + 8) 8)) ::
      extentsFrom left (off + 16)

/-- The extents of the entry. -/
def entryExtents : List (ℕ × ℕ) := extentsFrom block (extentCount block off) (stringsEnd block off)

/-- The test of the source, with its product in 32 bits. -/
def ExtentsTaken : Prop :=
  0 < extentCount block off ∧
    stringsEnd block off + extentCount block off * 16 % 2 ^ 32 ≤ block.length

instance instDecidableExtentsTaken : Decidable (ExtentsTaken block off) :=
  inferInstanceAs (Decidable (_ ∧ _))

/-- Extents that pass the test lie in the block. -/
def ExtentsInside : Prop := ExtentsTaken block off → nextEntry block off ≤ block.length

instance instDecidableExtentsInside : Decidable (ExtentsInside block off) :=
  inferInstanceAs (Decidable (_ → _))

/-- A string whose bytes can stand in a JSON text as they are, and whose line `snprintf` can count:
its bytes up to the first zero are UTF-8 without quotes, backslashes and control characters. -/
def PlainString (string : DumphwString) : Prop :=
  string.length ≤ intMax ∧ ∀ shown, shownString block string = some shown →
      (dumphwStringLine shown.1 shown.2).length ≤ intMax ∧ ValidUtf8 shown.2 ∧
        ∀ byte ∈ shown.2, IsPlain byte

end Entries

/-! ## What the loops append -/

section Loops

variable {block text : List UInt8} {off left : ℕ}

theorem appendString_plain {string : DumphwString} (hplain : PlainString block string) :
    appendString block text string = some (text ++ (shownString block string).elim []
      fun shown ↦ dumphwStringLine shown.1 shown.2) := by
  obtain ⟨hlength, hline⟩ := hplain
  rw [appendString, shownString] at *
  cases hstart : string.start with
  | none => simp
  | some start =>
    simp only [hstart] at hline ⊢
    split_ifs with hpos
    · rw [printedString, if_pos hlength, Option.map_some, jappendLine, if_pos]
      · rfl
      · exact (hline _ (if_pos hpos)).1
    · simp

theorem foldlM_appendString {strings : List DumphwString}
    (hplain : ∀ string ∈ strings, PlainString block string) :
    strings.foldlM (appendString block) text = some (text ++
      (strings.filterMap (shownString block)).flatMap
        fun shown ↦ dumphwStringLine shown.1 shown.2) := by
  induction strings generalizing text with
  | nil => simp
  | cons string strings ih =>
    obtain ⟨hstring, hstrings⟩ := List.forall_mem_cons.mp hplain
    rw [List.foldlM_cons, appendString_plain hstring]
    change strings.foldlM (appendString block) _ = _
    rw [ih hstrings, List.append_assoc]
    cases hshown : shownString block string with
    | none => simp [hshown]
    | some shown => simp [hshown]

/-- The lines of a list of extents. -/
def extentLines : List (ℕ × ℕ) → List UInt8
  | [] => []
  | extent :: rest => dumphwExtentLine extent.1 extent.2 (0 < rest.length) ++ extentLines rest

theorem length_extentsFrom (left off : ℕ) : (extentsFrom block left off).length = left := by
  induction left generalizing off with
  | zero => rfl
  | succ left ih => rw [extentsFrom, List.length_cons, ih]

theorem appendExtents_inside (hinside : off + left * 16 ≤ block.length) :
    appendExtents block left off text = some (text ++ extentLines (extentsFrom block left off)) := by
  induction left generalizing off text with
  | zero => simp [appendExtents, extentsFrom, extentLines]
  | succ left ih =>
    rw [appendExtents, readNumber_of_inside (by omega), readNumber_of_inside (by omega)]
    change appendExtents block left (off + 16) _ = _
    rw [ih (by omega), extentsFrom, extentLines, length_extentsFrom, List.append_assoc]

/-- Extents that do not end in the block are read past its end. -/
theorem appendExtents_outside (houtside : block.length < off + left * 16) (hleft : 0 < left) :
    appendExtents block left off text = none := by
  induction left generalizing off text with
  | zero => exact absurd hleft (lt_irrefl 0)
  | succ left ih =>
    rw [appendExtents]
    rcases Nat.lt_or_ge block.length (off + 16) with hshort | hlong
    · have hread : readNumber block (off + 8) 8 = none := by
        rw [← Option.not_isSome_iff_eq_none, isSome_readNumber]
        omega
      cases hfirst : readNumber block off 8 with
      | none => rfl
      | some first => simp [hread]
    · rw [readNumber_of_inside (by omega), readNumber_of_inside (by omega)]
      exact ih (by omega) (by omega)

/-- The member that the line of a string holds, without what ends the line. -/
def bareLine (name : String) (printed : List UInt8) : List UInt8 :=
  ascii "    \"" ++ ascii name ++ ascii "\": \"" ++ printed ++ ascii "\""

theorem dumphwStringLine_eq (name : String) (printed : List UInt8) :
    dumphwStringLine name printed = bareLine name printed ++ [0x2C, 0x0A] := by
  simp [dumphwStringLine, bareLine, ascii]

/-- The lines of the strings of an entry that shows no extents: the last one has no comma. -/
def closedLines : List (String × List UInt8) → List UInt8
  | [] => []
  | [shown] => bareLine shown.1 shown.2 ++ [0x0A]
  | shown :: rest => dumphwStringLine shown.1 shown.2 ++ closedLines rest

theorem trimComma_append (text front : List UInt8) :
    trimComma (text ++ (front ++ [0x2C, 0x0A])) = text ++ (front ++ [0x0A]) := by
  have hlength : (text ++ (front ++ [0x2C, 0x0A])).length = (text ++ front).length + 2 := by
    simp only [List.length_append, List.length_cons, List.length_nil]
    omega
  have hsplit : text ++ (front ++ [0x2C, 0x0A]) = (text ++ front) ++ [0x2C, 0x0A] := by simp
  rw [trimComma, hlength, Nat.add_sub_cancel, hsplit, if_pos, List.take_left, List.append_assoc]
  exact ⟨by omega, by simp⟩

theorem trimComma_lines_cons (text : List UInt8) (first : String × List UInt8)
    (rest : List (String × List UInt8)) :
    trimComma (text ++ (first :: rest).flatMap fun s ↦ dumphwStringLine s.1 s.2) =
      text ++ closedLines (first :: rest) := by
  induction rest generalizing text first with
  | nil =>
    rw [List.flatMap_cons, List.flatMap_nil, List.append_nil, dumphwStringLine_eq,
      trimComma_append, closedLines]
  | cons second rest ih =>
    rw [List.flatMap_cons, ← List.append_assoc, ih, List.append_assoc]
    rfl

theorem trimComma_lines (text : List UInt8) (shown : List (String × List UInt8)) :
    trimComma (text ++ ascii "  \x7b\n" ++ shown.flatMap fun s ↦ dumphwStringLine s.1 s.2) =
      text ++ ascii "  \x7b\n" ++ closedLines shown := by
  cases shown with
  | nil =>
    have hlength : (text ++ ascii "  \x7b\n").length = text.length + 4 := by
      rw [List.length_append]
      rfl
    rw [List.flatMap_nil, closedLines, List.append_nil, trimComma, if_neg]
    rintro ⟨-, hcomma⟩
    rw [hlength, List.getElem?_append_right (by omega),
      show text.length + 4 - 2 - text.length = 2 by omega] at hcomma
    exact absurd hcomma (by decide)
  | cons first rest => exact trimComma_lines_cons _ first rest

/-- What stands between the braces of an entry. -/
def entryBody (block : List UInt8) (off : ℕ) : List UInt8 :=
  if ExtentsTaken block off then
    ((entryTexts block off).flatMap fun shown ↦ dumphwStringLine shown.1 shown.2) ++
      ascii "    \"extents\": [\n" ++ extentLines (entryExtents block off) ++ ascii "    ]\n"
  else closedLines (entryTexts block off)

/-- The text of an entry, with a comma behind it if more are declared. -/
def entryText (block : List UInt8) (off : ℕ) (more : Bool) : List UInt8 :=
  ascii "  \x7b\n" ++ entryBody block off ++ ascii "  \x7d" ++ (if more then ascii "," else []) ++
    ascii "\n"

/-- The texts of the entries from an offset on. -/
def entriesText (block : List UInt8) : (left off : ℕ) → List UInt8
  | 0, _ => []
  | left + 1, off =>
    if block.length < off + dumphwEntrySize then []
    else entryText block off (0 < left) ++ entriesText block left (nextEntry block off)

/-- One round of the loop over the entries. -/
theorem appendEntries_succ (hwords : off + dumphwEntrySize ≤ block.length)
    (hplain : ∀ string ∈ entryStrings block off, PlainString block string) :
    appendEntries block (left + 1) off text =
      if ExtentsInside block off then
        appendEntries block left (nextEntry block off) (text ++ entryText block off (0 < left))
      else none := by
  have hlens : dumphwLens (fieldBytes block off dumphwEntrySize) = entryLens block off := rfl
  have hstrings : dumphwStrings block.length (off + dumphwEntrySize)
      (dumphwFieldNames.zip (entryLens block off)) = entryStrings block off := rfl
  have htexts : (entryStrings block off).filterMap (shownString block) = entryTexts block off := rfl
  have hcount : (entryLens block off).getD 8 0 = extentCount block off := rfl
  have hstringsEnd : off + dumphwEntrySize + ((entryLens block off).take 8).sum =
    stringsEnd block off := rfl
  have hnext : stringsEnd block off + extentCount block off * 16 = nextEntry block off := rfl
  rw [appendEntries, if_neg (not_lt.mpr hwords), readBytes_of_inside hwords]
  simp only [Option.bind_eq_bind, Option.bind_some, hlens, hstrings, foldlM_appendString hplain,
    htexts, hcount, hstringsEnd, hnext]
  by_cases htaken : ExtentsTaken block off
  · rw [if_pos (show 0 < extentCount block off ∧ _ from htaken)]
    by_cases hinside : ExtentsInside block off
    · rw [if_pos hinside, appendExtents_inside (hinside htaken), Option.map_some, Option.bind_some,
        entryText, entryBody, if_pos htaken, entryExtents]
      simp only [List.append_assoc, decide_eq_true_eq]
    · have houtside : block.length < nextEntry block off := by
        rw [ExtentsInside, Classical.not_imp] at hinside
        exact not_le.mp hinside.2
      rw [if_neg hinside, appendExtents_outside houtside htaken.1]
      rfl
  · have hinside : ExtentsInside block off := fun h ↦ absurd h htaken
    rw [if_neg (show ¬ (0 < extentCount block off ∧ _) from htaken), if_pos hinside,
      trimComma_lines, entryText, entryBody, if_neg htaken]
    simp only [List.append_assoc, decide_eq_true_eq]

/-- With plain strings the loop stops at the first extents that pass the test and leave the block. -/
theorem appendEntries_eq (hplain : ∀ entry ∈ entryOffsets block left off,
      ∀ string ∈ entryStrings block entry, PlainString block string) :
    appendEntries block left off text =
      if ∀ entry ∈ entryOffsets block left off, ExtentsInside block entry then
        some (text ++ entriesText block left off) else none := by
  induction left generalizing off text with
  | zero => simp [appendEntries, entryOffsets, entriesText]
  | succ left ih =>
    rcases Nat.lt_or_ge block.length (off + dumphwEntrySize) with hshort | hwords
    · simp [appendEntries, entryOffsets, entriesText, hshort]
    · have hoffsets : entryOffsets block (left + 1) off =
          off :: entryOffsets block left (nextEntry block off) := by
        rw [entryOffsets, if_neg (not_lt.mpr hwords)]
      rw [hoffsets] at hplain ⊢
      obtain ⟨hfirst, hrest⟩ := List.forall_mem_cons.mp hplain
      rw [appendEntries_succ hwords hfirst, ih hrest, entriesText, if_neg (not_lt.mpr hwords)]
      simp only [List.forall_mem_cons, List.append_assoc]
      split_ifs <;> simp_all

end Loops

end Obmafs3
