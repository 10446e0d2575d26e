import Mathlib.Data.List.TakeWhile
import Obmafs3.Disc.DumpHardware

/-!
# What the export of dump hardware says

The text of a block as JSON. Where every string is plain, each entry is read as an object with its
strings and its extents, and the whole text is an array exactly if the declared entries are all
there or none of them is: a comma stands behind every entry but the last declared one.
`dumphwExported_iff` says when the export does what it is for.
-/

set_option autoImplicit false

namespace Obmafs3

open Library.ByteImage Library.Json

/-! ## The members of an entry -/

/-- The member of a string. -/
def textMember (shown : String × List UInt8) : List UInt8 × Value := (ascii shown.1, .text shown.2)

/-- The value of an extent. -/
def extentValue (extent : ℕ × ℕ) : Value :=
  .object [(ascii "start", .number (digitsOf extent.1)), (ascii "end", .number (digitsOf extent.2))]

/-- The members of the object of an entry. -/
def entryMembers (block : List UInt8) (off : ℕ) : List (List UInt8 × Value) :=
  (entryTexts block off).map textMember ++
    if ExtentsTaken block off then
      [(ascii "extents", .array ((entryExtents block off).map extentValue))]
    else []

section Members

variable {shown : String × List UInt8} {rest after : List UInt8}
  {members : List (List UInt8 × Value)}

/-- A string that is shown as it is. -/
def PlainText (shown : String × List UInt8) : Prop :=
  (∀ byte ∈ ascii shown.1, IsPlain byte) ∧ ∀ byte ∈ shown.2, IsPlain byte

theorem parseName_bareLine (hplain : PlainText shown) (rest : List UInt8) :
    parseName (bareLine shown.1 shown.2 ++ rest) =
      some (ascii shown.1, 0x20 :: 0x22 :: (shown.2 ++ 0x22 :: rest)) := by
  have hopen : skipSpace (bareLine shown.1 shown.2 ++ rest) =
      0x22 :: (ascii shown.1 ++ 0x22 :: 0x3A :: 0x20 :: 0x22 :: (shown.2 ++ 0x22 :: rest)) := by
    simp only [bareLine, List.append_assoc]
    rfl
  exact parseName_eq hopen (parseText_plain hplain.1 _) rfl

theorem reads_shown (hplain : PlainText shown) (rest : List UInt8) :
    ReadsAs (.text shown.2) (0x20 :: 0x22 :: (shown.2 ++ 0x22 :: rest)) rest :=
  reads_text rfl (parseText_plain hplain.2 rest)

variable {texts : List (String × List UInt8)}

variable (hplain : ∀ shown ∈ texts, PlainText shown)
include hplain

/-- The lines of strings with more members behind them. -/
theorem readsMembers_lines (hmembers : ReadsMembers members rest after) :
    ReadsMembers (texts.map textMember ++ members)
      ((texts.flatMap fun shown ↦ dumphwStringLine shown.1 shown.2) ++ rest) after := by
  induction texts with
  | nil => exact hmembers
  | cons shown texts ih =>
    obtain ⟨hshown, htexts⟩ := List.forall_mem_cons.mp hplain
    rw [List.flatMap_cons, dumphwStringLine_eq, List.append_assoc, List.append_assoc]
    refine readsMembers_cons (parseName_bareLine hshown _) (reads_shown hshown _) rfl ?_
    exact readsMembers_newline.mpr (ih htexts)

/-- The lines of strings up to the brace of their entry. -/
theorem readsMembers_closedLines (hsome : texts ≠ []) (rest : List UInt8) :
    ReadsMembers (texts.map textMember) (closedLines texts ++ (ascii "  \x7d" ++ rest)) rest := by
  induction texts with
  | nil => exact absurd rfl hsome
  | cons shown texts ih =>
    obtain ⟨hshown, htexts⟩ := List.forall_mem_cons.mp hplain
    cases texts with
    | nil =>
      rw [closedLines, List.append_assoc]
      exact readsMembers_last (parseName_bareLine hshown _) (reads_shown hshown _) rfl
    | cons second texts =>
      have hlines : closedLines (shown :: second :: texts) =
          dumphwStringLine shown.1 shown.2 ++ closedLines (second :: texts) := rfl
      rw [hlines, dumphwStringLine_eq, List.append_assoc, List.append_assoc]
      refine readsMembers_cons (parseName_bareLine hshown _) (reads_shown hshown _) rfl ?_
      exact readsMembers_newline.mpr (ih htexts (List.cons_ne_nil _ _))

end Members

/-! ## The extents of an entry -/

section Extents

theorem skipSpace_decimal (n : ℕ) (rest : List UInt8) :
    skipSpace (0x20 :: (digitsOf n ++ rest)) = digitsOf n ++ rest := by
  cases hdecimal : digitsOf n with
  | nil => exact absurd hdecimal (digitsOf_ne_nil n)
  | cons first digits =>
    have hfirst : isDigitByte first = true :=
      isDigit_of_mem_decimal n first (by rw [hdecimal]; exact List.mem_cons_self)
    have hspace : isSpaceByte first = false := by
      cases hspace : isSpaceByte first with
      | false => rfl
      | true =>
        simp only [isSpaceByte, Bool.or_eq_true, beq_iff_eq] at hspace
        rcases hspace with ((rfl | rfl) | rfl) | rfl <;> cases hfirst
    rw [skipSpace, List.dropWhile_cons_of_pos (by decide), List.cons_append,
      List.dropWhile_cons_of_neg (by simp [hspace])]

/-- A member with a number, by the byte that ends the number. -/
theorem reads_numberMember (n : ℕ) {stop : UInt8} (hstop : EndsNumber stop) (rest : List UInt8) :
    ReadsAs (.number (digitsOf n)) (0x20 :: (digitsOf n ++ stop :: rest)) (stop :: rest) :=
  reads_decimal (skipSpace_decimal n _) hstop

theorem endsNumber_comma : EndsNumber 0x2C := by
  refine ⟨?_, ?_, ?_, ?_⟩ <;> decide

theorem endsNumber_brace : EndsNumber 0x7D := by
  refine ⟨?_, ?_, ?_, ?_⟩ <;> decide

/-- The line of an extent, by what is left behind its brace. -/
theorem reads_extentLine (first last : ℕ) (more : Bool) (rest : List UInt8) :
    ReadsAs (extentValue (first, last)) (dumphwExtentLine first last more ++ rest)
      ((if more then ascii "," else []) ++ ascii "\n" ++ rest) := by
  generalize hafter : (if more then ascii "," else []) ++ ascii "\n" ++ rest = after
  have hline : dumphwExtentLine first last more ++ rest =
      ascii "      \x7b\"start\":" ++ 0x20 :: (digitsOf first ++ 0x2C ::
        (ascii " \"end\":" ++ 0x20 :: (digitsOf last ++ 0x7D :: after))) := by
    rw [dumphwExtentLine, ← hafter]
    simp [ascii]
  rw [hline]
  refine reads_object rfl ?_ rfl
  refine readsMembers_cons (parseName_eq rfl rfl rfl)
    (reads_numberMember first endsNumber_comma _) rfl ?_
  exact readsMembers_last (parseName_eq rfl rfl rfl)
    (reads_numberMember last endsNumber_brace _) rfl

theorem readsItems_extentLines {extents : List (ℕ × ℕ)} (hsome : extents ≠ []) (rest : List UInt8) :
    ReadsItems (extents.map extentValue) (extentLines extents ++ (ascii "    ]" ++ rest)) rest := by
  induction extents with
  | nil => exact absurd rfl hsome
  | cons extent extents ih =>
    rw [extentLines, List.append_assoc, List.map_cons]
    cases extents with
    | nil => exact readsItems_last (reads_extentLine extent.1 extent.2 false _) rfl
    | cons second extents =>
      refine readsItems_cons (reads_extentLine extent.1 extent.2 true _) rfl ?_
      exact readsItems_newline.mpr (ih (List.cons_ne_nil _ _))

end Extents

/-! ## The entries -/

section Entries

variable {block : List UInt8} {off left : ℕ}

theorem plain_dumphwFieldNames : ∀ name ∈ dumphwFieldNames, ∀ byte ∈ ascii name, IsPlain byte := by
  have hall : ∀ name ∈ dumphwFieldNames, (ascii name).all (IsPlain ·) = true := by decide
  simpa only [List.all_eq_true, decide_eq_true_eq] using hall

variable {string : DumphwString}

theorem name_mem_of_mem_dumphwStrings {size off : ℕ} {named : List (String × ℕ)}
    (hstring : string ∈ dumphwStrings size off named) :
    ∃ length, (string.name, length) ∈ named := by
  induction named generalizing off with
  | nil => simp [dumphwStrings] at hstring
  | cons first rest ih =>
    rw [dumphwStrings] at hstring
    rcases List.mem_cons.mp hstring with rfl | hstring
    · exact ⟨first.2, List.mem_cons_self⟩
    · obtain ⟨length, hmem⟩ := ih hstring
      exact ⟨length, List.mem_cons_of_mem _ hmem⟩

theorem name_mem_of_mem_entryStrings (hstring : string ∈ entryStrings block off) :
    string.name ∈ dumphwFieldNames := by
  obtain ⟨length, hmem⟩ := name_mem_of_mem_dumphwStrings hstring
  exact (List.of_mem_zip hmem).1

theorem shownString_name {shown : String × List UInt8}
    (hshown : shownString block string = some shown) : shown.1 = string.name := by
  unfold shownString at hshown
  split at hshown
  · cases hshown
  · split_ifs at hshown
    cases hshown
    rfl

/-- The strings of an entry are plain. -/
def PlainEntry (block : List UInt8) (off : ℕ) : Prop :=
  ∀ string ∈ entryStrings block off, PlainString block string

theorem PlainEntry.texts (hplain : PlainEntry block off) :
    ∀ shown ∈ entryTexts block off, PlainText shown ∧ ValidUtf8 shown.2 := by
  intro shown hshown
  obtain ⟨string, hstring, hshown⟩ := List.mem_filterMap.mp hshown
  obtain ⟨-, hutf8, hbytes⟩ := (hplain string hstring).2 shown hshown
  refine ⟨⟨?_, hbytes⟩, hutf8⟩
  rw [shownString_name hshown]
  exact plain_dumphwFieldNames _ (name_mem_of_mem_entryStrings hstring)

variable {texts : List (String × List UInt8)}

/-- A list of lines starts with a member and not with a brace. -/
theorem expectByte_lines (hsome : texts ≠ []) (rest : List UInt8) :
    expectByte 0x7D ((texts.flatMap fun shown ↦ dumphwStringLine shown.1 shown.2) ++ rest) =
      none := by
  cases texts with
  | nil => exact absurd rfl hsome
  | cons shown texts => rfl

theorem expectByte_closedLines (hsome : texts ≠ []) (rest : List UInt8) :
    expectByte 0x7D (closedLines texts ++ rest) = none := by
  match texts with
  | [] => exact absurd rfl hsome
  | [shown] => rfl
  | shown :: second :: texts => rfl

/-- The member of the extents, up to the brace of the entry. -/
theorem readsMembers_extents {extents : List (ℕ × ℕ)} (hsome : extents ≠ []) (rest : List UInt8) :
    ReadsMembers [(ascii "extents", .array (extents.map extentValue))]
      (ascii "    \"extents\": [\n" ++ (extentLines extents ++
        (ascii "    ]" ++ (ascii "\n" ++ (ascii "  \x7d" ++ rest))))) rest := by
  have hname : parseName (ascii "    \"extents\": [\n" ++ (extentLines extents ++
        (ascii "    ]" ++ (ascii "\n" ++ (ascii "  \x7d" ++ rest))))) =
      some (ascii "extents", 0x20 :: 0x5B :: 0x0A :: (extentLines extents ++
        (ascii "    ]" ++ (ascii "\n" ++ (ascii "  \x7d" ++ rest))))) :=
    parseName_eq rfl rfl rfl
  refine readsMembers_last hname (reads_array rfl
    (readsItems_newline.mpr (readsItems_extentLines hsome _)) ?_) rfl
  cases extents with
  | nil => exact absurd rfl hsome
  | cons extent extents => rfl

/-- An entry is read as the object of its members. -/
theorem reads_entryText (hplain : PlainEntry block off) (more : Bool) (rest : List UInt8) :
    ReadsAs (.object (entryMembers block off)) (entryText block off more ++ rest)
      ((if more then ascii "," else []) ++ (ascii "\n" ++ rest)) := by
  generalize hafter : (if more then ascii "," else []) ++ (ascii "\n" ++ rest) = after
  have htexts : ∀ shown ∈ entryTexts block off, PlainText shown := fun shown hshown ↦
    (hplain.texts shown hshown).1
  have htext : entryText block off more ++ rest =
      ascii "  \x7b" ++ (0x0A :: (entryBody block off ++ (ascii "  \x7d" ++ after))) := by
    rw [entryText, ← hafter]
    simp [ascii]
  rw [htext, entryMembers, entryBody]
  by_cases htaken : ExtentsTaken block off
  · rw [if_pos htaken, if_pos htaken]
    have hsome : entryExtents block off ≠ [] := by
      rw [← List.length_pos_iff, entryExtents, length_extentsFrom]
      exact htaken.1
    have hmembers := readsMembers_lines htexts (readsMembers_extents hsome after)
    have hbody : ((entryTexts block off).flatMap
        fun shown ↦ dumphwStringLine shown.1 shown.2) ++ ascii "    \"extents\": [\n" ++
          extentLines (entryExtents block off) ++ ascii "    ]\n" ++ (ascii "  \x7d" ++ after) =
        ((entryTexts block off).flatMap fun shown ↦ dumphwStringLine shown.1 shown.2) ++
          (ascii "    \"extents\": [\n" ++ (extentLines (entryExtents block off) ++
            (ascii "    ]" ++ (ascii "\n" ++ (ascii "  \x7d" ++ after))))) := by
      simp [ascii]
    rw [hbody]
    refine reads_object rfl (readsMembers_newline.mpr hmembers)
      ((expectByte_congr (skipSpace_newline _) _).trans ?_)
    cases htexts' : entryTexts block off with
    | nil => rfl
    | cons shown texts => exact expectByte_lines (List.cons_ne_nil _ _) _
  · rw [if_neg htaken, if_neg htaken, List.append_nil]
    cases htexts' : entryTexts block off with
    | nil => exact reads_emptyObject rfl rfl
    | cons shown texts =>
      rw [htexts'] at htexts
      have hsome : shown :: texts ≠ [] := List.cons_ne_nil _ _
      exact reads_object rfl (readsMembers_newline.mpr
        (readsMembers_closedLines htexts hsome after))
        ((expectByte_congr (skipSpace_newline _) _).trans (expectByte_closedLines hsome _))

/-- The objects of the entries from an offset on. -/
def entryValues (block : List UInt8) (offsets : List ℕ) : List Value :=
  offsets.map fun off ↦ .object (entryMembers block off)

theorem entriesText_succ (hwords : off + dumphwEntrySize ≤ block.length) :
    entriesText block (left + 1) off =
      entryText block off (0 < left) ++ entriesText block left (nextEntry block off) := by
  rw [entriesText, if_neg (not_lt.mpr hwords)]

theorem entryOffsets_succ (hwords : off + dumphwEntrySize ≤ block.length) :
    entryOffsets block (left + 1) off = off :: entryOffsets block left (nextEntry block off) := by
  rw [entryOffsets, if_neg (not_lt.mpr hwords)]

theorem length_entryOffsets_le (left off : ℕ) : (entryOffsets block left off).length ≤ left := by
  induction left generalizing off with
  | zero => exact Nat.le_refl 0
  | succ left ih =>
    rw [entryOffsets]
    split_ifs
    · exact Nat.zero_le _
    · exact Nat.succ_le_succ (ih _)

theorem entryOffsets_inside (hsome : entryOffsets block (left + 1) off ≠ []) :
    off + dumphwEntrySize ≤ block.length := by
  by_contra hshort
  rw [entryOffsets, if_pos (not_le.mp hshort)] at hsome
  exact hsome rfl

/-- When all entries are there, their texts are the items of the array. -/
theorem readsItems_entriesText
    (hplain : ∀ entry ∈ entryOffsets block (left + 1) off, PlainEntry block entry)
    (hall : (entryOffsets block (left + 1) off).length = left + 1) :
    ReadsItems (entryValues block (entryOffsets block (left + 1) off))
      (entriesText block (left + 1) off ++ ascii "]\n") (ascii "\n") := by
  induction left generalizing off with
  | zero =>
    have hwords := entryOffsets_inside (List.ne_nil_of_length_eq_add_one hall)
    rw [entryOffsets_succ hwords] at hplain ⊢
    rw [entriesText_succ hwords, List.append_assoc]
    exact readsItems_last (reads_entryText (hplain _ List.mem_cons_self) _ _) rfl
  | succ left ih =>
    have hwords := entryOffsets_inside (List.ne_nil_of_length_eq_add_one hall)
    rw [entryOffsets_succ hwords] at hplain hall ⊢
    obtain ⟨hfirst, hrest⟩ := List.forall_mem_cons.mp hplain
    rw [entriesText_succ hwords, List.append_assoc]
    refine readsItems_cons (reads_entryText hfirst _ _) rfl ?_
    exact readsItems_newline.mpr (ih hrest (Nat.succ.inj hall))

/-- When some are missing, the comma behind the last one promises too much. -/
theorem not_readsItems_entriesText {items : List Value} {after : List UInt8}
    (hplain : ∀ entry ∈ entryOffsets block left off, PlainEntry block entry)
    (hfew : (entryOffsets block left off).length < left) :
    ¬ ReadsItems items (entriesText block left off ++ ascii "]\n") after := by
  induction left generalizing off items after with
  | zero => exact absurd hfew (Nat.not_lt_zero _)
  | succ left ih =>
    by_cases hwords : off + dumphwEntrySize ≤ block.length
    · rw [entryOffsets_succ hwords] at hplain hfew
      obtain ⟨hfirst, hrest⟩ := List.forall_mem_cons.mp hplain
      rw [List.length_cons] at hfew
      have hmore : 0 < left := by omega
      rw [entriesText_succ hwords, List.append_assoc]
      have hcomma : skipSpace ((if decide (0 < left) = true then ascii "," else []) ++
          (ascii "\n" ++ (entriesText block left (nextEntry block off) ++ ascii "]\n"))) =
            0x2C :: 0x0A :: (entriesText block left (nextEntry block off) ++ ascii "]\n") := by
        rw [decide_eq_true hmore]
        rfl
      refine not_readsItems_comma (reads_entryText hfirst _ _) hcomma fun items after hitems ↦ ?_
      exact ih hrest (by omega) (readsItems_newline.mp hitems)
    · rw [entriesText, if_pos (not_le.mp hwords)]
      exact not_readsItems_close rfl

end Entries

/-! ## UTF-8 -/

section Utf8

variable {block : List UInt8} {off left : ℕ}

theorem all_lt_dumphwFieldNames :
    ∀ name ∈ dumphwFieldNames, (ascii name).all (· < 0x80) = true := by
  decide

variable {printed : List UInt8} {name : String}

section

variable (hname : name ∈ dumphwFieldNames) (hprinted : ValidUtf8 printed)
include hname hprinted

theorem validUtf8_bareLine : ValidUtf8 (bareLine name printed) := by
  refine (ValidUtf8.append (ValidUtf8.append (ValidUtf8.append ?_ ?_) ?_) hprinted).append ?_
  · exact validUtf8_of_all (by decide)
  · exact validUtf8_of_all (all_lt_dumphwFieldNames name hname)
  · exact validUtf8_of_all (by decide)
  · exact validUtf8_of_all (by decide)

theorem validUtf8_stringLine : ValidUtf8 (dumphwStringLine name printed) := by
  rw [dumphwStringLine_eq]
  exact (validUtf8_bareLine hname hprinted).append (validUtf8_of_all (by decide))

end

theorem validUtf8_flatMap {α : Type} {f : α → List UInt8} {xs : List α}
    (hvalid : ∀ x ∈ xs, ValidUtf8 (f x)) : ValidUtf8 (xs.flatMap f) := by
  induction xs with
  | nil => exact ⟨[], rfl⟩
  | cons x xs ih =>
    obtain ⟨hx, hxs⟩ := List.forall_mem_cons.mp hvalid
    rw [List.flatMap_cons]
    exact hx.append (ih hxs)

theorem validUtf8_closedLines {texts : List (String × List UInt8)}
    (hvalid : ∀ shown ∈ texts, shown.1 ∈ dumphwFieldNames ∧ ValidUtf8 shown.2) :
    ValidUtf8 (closedLines texts) := by
  induction texts with
  | nil => exact ⟨[], rfl⟩
  | cons shown texts ih =>
    obtain ⟨⟨hname, hshown⟩, htexts⟩ := List.forall_mem_cons.mp hvalid
    cases texts with
    | nil => exact (validUtf8_bareLine hname hshown).append (validUtf8_of_all (by decide))
    | cons second texts => exact (validUtf8_stringLine hname hshown).append (ih htexts)

theorem validUtf8_extentLines (extents : List (ℕ × ℕ)) : ValidUtf8 (extentLines extents) := by
  induction extents with
  | nil => exact ⟨[], rfl⟩
  | cons extent extents ih =>
    refine ValidUtf8.append ?_ ih
    refine ValidUtf8.append (ValidUtf8.append (ValidUtf8.append (ValidUtf8.append (ValidUtf8.append
      (ValidUtf8.append ?_ (validUtf8_decimal _)) ?_) (validUtf8_decimal _)) ?_) ?_) ?_
    · exact validUtf8_of_all (by decide)
    · exact validUtf8_of_all (by decide)
    · exact validUtf8_of_all (by decide)
    · split_ifs
      · exact validUtf8_of_all (by decide)
      · exact validUtf8_of_all (by decide)
    · exact validUtf8_of_all (by decide)

theorem validUtf8_entryBody (hplain : PlainEntry block off) : ValidUtf8 (entryBody block off) := by
  have hvalid : ∀ shown ∈ entryTexts block off,
      shown.1 ∈ dumphwFieldNames ∧ ValidUtf8 shown.2 := by
    intro shown hshown
    refine ⟨?_, (hplain.texts shown hshown).2⟩
    obtain ⟨string, hstring, hshown⟩ := List.mem_filterMap.mp hshown
    rw [shownString_name hshown]
    exact name_mem_of_mem_entryStrings hstring
  rw [entryBody]
  split_ifs
  · refine ValidUtf8.append (ValidUtf8.append (ValidUtf8.append (validUtf8_flatMap
      fun shown hshown ↦ validUtf8_stringLine (hvalid shown hshown).1 (hvalid shown hshown).2)
        ?_) (validUtf8_extentLines _)) ?_
    · exact validUtf8_of_all (by decide)
    · exact validUtf8_of_all (by decide)
  · exact validUtf8_closedLines hvalid

theorem validUtf8_entryText (hplain : PlainEntry block off) (more : Bool) :
    ValidUtf8 (entryText block off more) := by
  refine ValidUtf8.append (ValidUtf8.append (ValidUtf8.append (ValidUtf8.append ?_
    (validUtf8_entryBody hplain)) ?_) ?_) ?_
  · exact validUtf8_of_all (by decide)
  · exact validUtf8_of_all (by decide)
  · split_ifs
    · exact validUtf8_of_all (by decide)
    · exact validUtf8_of_all (by decide)
  · exact validUtf8_of_all (by decide)

theorem validUtf8_entriesText
    (hplain : ∀ entry ∈ entryOffsets block left off, PlainEntry block entry) :
    ValidUtf8 (entriesText block left off) := by
  induction left generalizing off with
  | zero => exact ⟨[], rfl⟩
  | succ left ih =>
    by_cases hwords : off + dumphwEntrySize ≤ block.length
    · rw [entryOffsets_succ hwords] at hplain
      obtain ⟨hfirst, hrest⟩ := List.forall_mem_cons.mp hplain
      rw [entriesText_succ hwords]
      exact (validUtf8_entryText hfirst _).append (ih hrest)
    · rw [entriesText, if_pos (not_le.mp hwords)]
      exact ⟨[], rfl⟩

end Utf8

/-! ## What the export is for -/

section Exported

variable (block : List UInt8)

/-- The members show the entry: every string lies in the block, and one that is not empty and is
UTF-8 without zeros is there with its bytes; the extents are there, exactly they, if there are any. -/
def EntryAppears (off : ℕ) (members : List (List UInt8 × Value)) : Prop :=
  (∀ string ∈ entryStrings block off, ∃ start, string.start = some start ∧
      (0 < string.length → ValidUtf8 (fieldBytes block start string.length) →
        0 ∉ fieldBytes block start string.length →
          (ascii string.name, Value.text (fieldBytes block start string.length)) ∈ members)) ∧
    ∀ value, (ascii "extents", value) ∈ members ↔
      0 < extentCount block off ∧ value = .array ((entryExtents block off).map extentValue)

/-- No read leaves the block, and a text that is written is a JSON array in which every entry that
lies in the block completely is shown by the object at its place. -/
def DumphwExported : Prop :=
  ∃ outcome, exportDumphwJson block = some outcome ∧ ∀ text, outcome = some text →
      ∃ values : List Value, IsText (.array values) text ∧
        ∀ i off : ℕ, (shownEntries block)[i]? = some off → nextEntry block off ≤ block.length →
          ∃ members : List (List UInt8 × Value), values[i]? = some (.object members) ∧
            EntryAppears block off members

/-- The declared entries are all there, or none of them is. -/
def AllOrNone : Prop :=
  shownEntries block = [] ∨ (shownEntries block).length = declaredEntries block

instance instDecidableAllOrNone : Decidable (AllOrNone block) :=
  inferInstanceAs (Decidable (_ ∨ _))

end Exported

section Appears

variable {block : List UInt8} {off : ℕ}

theorem start_of_inside {size off : ℕ} {named : List (String × ℕ)}
    (hinside : off + (named.map Prod.snd).sum ≤ size) :
    ∀ string ∈ dumphwStrings size off named, ∃ start, string.start = some start := by
  induction named generalizing off with
  | nil => simp [dumphwStrings]
  | cons first rest ih =>
    rw [List.map_cons, List.sum_cons] at hinside
    intro string hstring
    rw [dumphwStrings] at hstring
    rcases List.mem_cons.mp hstring with rfl | hstring
    · exact ⟨off, if_pos (by omega)⟩
    · exact ih (by omega) string hstring

theorem map_snd_zip_entryLens :
    (dumphwFieldNames.zip (entryLens block off)).map Prod.snd = (entryLens block off).take 8 := by
  simp [dumphwFieldNames, entryLens, dumphwLens, List.range_succ]

theorem not_mem_textMembers_extents (value : Value) :
    (ascii "extents", value) ∉ (entryTexts block off).map textMember := by
  intro hmem
  obtain ⟨shown, hshown, heq⟩ := List.mem_map.mp hmem
  obtain ⟨string, hstring, hshown⟩ := List.mem_filterMap.mp hshown
  have hname : ∀ name ∈ dumphwFieldNames, ascii name ≠ ascii "extents" := by decide
  refine hname _ (name_mem_of_mem_entryStrings hstring) ?_
  rw [← shownString_name hshown]
  exact (Prod.mk.inj heq).1

/-- An entry that lies in the block completely is shown by its members. -/
theorem entryAppears_of_inside (hinside : nextEntry block off ≤ block.length) :
    EntryAppears block off (entryMembers block off) := by
  rw [nextEntry, stringsEnd] at hinside
  refine ⟨fun string hstring ↦ ?_, fun value ↦ ?_⟩
  · obtain ⟨start, hstart⟩ := start_of_inside (by rw [map_snd_zip_entryLens]; omega) string hstring
    refine ⟨start, hstart, fun hpos _ hzero ↦ ?_⟩
    have hbytes : stringBytes block start string.length =
        fieldBytes block start string.length := by
      rw [stringBytes, List.takeWhile_eq_self_iff]
      intro byte hbyte
      rw [bne_iff_ne]
      rintro rfl
      exact hzero hbyte
    refine List.mem_append_left _ (List.mem_map.mpr
      ⟨(string.name, fieldBytes block start string.length), ?_, rfl⟩)
    refine List.mem_filterMap.mpr ⟨string, hstring, ?_⟩
    rw [shownString, hstart]
    simp only [if_pos hpos, hbytes]
  · rw [entryMembers, List.mem_append, or_iff_right (not_mem_textMembers_extents value)]
    have htaken : ExtentsTaken block off ↔ 0 < extentCount block off := by
      refine ⟨And.left, fun hpos ↦ ⟨hpos, ?_⟩⟩
      have := Nat.mod_le (extentCount block off * 16) (2 ^ 32)
      rw [stringsEnd]
      omega
    by_cases hpos : 0 < extentCount block off
    · rw [if_pos (htaken.mpr hpos), List.mem_singleton, Prod.mk.injEq]
      simp [hpos]
    · rw [if_neg (fun h ↦ hpos (htaken.mp h))]
      simp [hpos]

end Appears

/-! ## When it is -/

section Main

variable {block : List UInt8}

theorem exportDumphwJson_eq (hsize : dumphwHeaderSize ≤ block.length)
    (hplain : ∀ entry ∈ shownEntries block, PlainEntry block entry) :
    exportDumphwJson block =
      if declaredEntries block = 0 then some none
      else if ∀ entry ∈ shownEntries block, ExtentsInside block entry then
        some (some (ascii "[\n" ++ entriesText block (declaredEntries block) dumphwHeaderSize ++
          ascii "]\n"))
      else none := by
  have hread : readNumber block 4 2 = some (declaredEntries block) := by
    rw [dumphwHeaderSize] at hsize
    exact readNumber_of_inside (by omega)
  rw [exportDumphwJson, if_neg (not_lt.mpr hsize), hread]
  simp only [Option.bind_eq_bind, Option.bind_some]
  rw [appendEntries_eq hplain, shownEntries]
  by_cases hzero : declaredEntries block = 0
  · rw [if_pos hzero, if_pos hzero]
  · rw [if_neg hzero, if_neg hzero]
    by_cases hinside : ∀ entry ∈ entryOffsets block (declaredEntries block) dumphwHeaderSize,
        ExtentsInside block entry
    · rw [if_pos hinside, if_pos hinside, Option.map_some]
    · rw [if_neg hinside, if_neg hinside, Option.map_none]

theorem entriesText_of_shown_nil (hnone : shownEntries block = []) :
    entriesText block (declaredEntries block) dumphwHeaderSize = [] := by
  rw [shownEntries] at hnone
  cases hdeclared : declaredEntries block with
  | zero => rfl
  | succ left =>
    by_cases hwords : dumphwHeaderSize + dumphwEntrySize ≤ block.length
    · rw [hdeclared, entryOffsets_succ hwords] at hnone
      cases hnone
    · rw [entriesText, if_pos (not_le.mp hwords)]

section

variable (hplain : ∀ entry ∈ shownEntries block, PlainEntry block entry)
include hplain

/-- The text of a block whose declared entries are all there, or none of them, is an array. -/
theorem isText_export (hall : AllOrNone block) :
    IsText (.array (entryValues block (shownEntries block)))
      (ascii "[\n" ++ entriesText block (declaredEntries block) dumphwHeaderSize ++
        ascii "]\n") := by
  refine ⟨?_, ?_⟩
  · refine ValidUtf8.append (ValidUtf8.append ?_ (validUtf8_entriesText hplain)) ?_
    · exact validUtf8_of_all (by decide)
    · exact validUtf8_of_all (by decide)
  · refine ⟨ascii "\n", ?_, rfl⟩
    rw [List.append_assoc]
    rcases eq_or_ne (shownEntries block) [] with hnone | hsome
    · rw [entriesText_of_shown_nil hnone, hnone]
      exact reads_emptyArray rfl rfl
    · have hlength := hall.resolve_left hsome
      rw [shownEntries] at hplain hsome hlength ⊢
      cases hdeclared : declaredEntries block with
      | zero =>
        rw [hdeclared] at hsome
        exact absurd rfl hsome
      | succ left =>
        rw [hdeclared] at hplain hsome hlength
        have hwords := entryOffsets_inside hsome
        refine reads_array rfl
          (readsItems_newline.mpr (readsItems_entriesText hplain hlength)) ?_
        rw [entriesText_succ hwords]
        rfl

/-- The text of a block that declares more entries than are there is no JSON. -/
theorem not_isText_export (hfew : ¬ AllOrNone block) (value : Value) :
    ¬ IsText value (ascii "[\n" ++
      entriesText block (declaredEntries block) dumphwHeaderSize ++ ascii "]\n") := by
  rintro ⟨-, rest, hreads, -⟩
  rw [AllOrNone, not_or] at hfew
  obtain ⟨hsome, hlength⟩ := hfew
  rw [shownEntries] at hplain hsome hlength
  cases hdeclared : declaredEntries block with
  | zero =>
    rw [hdeclared] at hsome
    exact hsome rfl
  | succ left =>
    rw [hdeclared] at hplain hsome hlength hreads
    have hwords := entryOffsets_inside hsome
    have hshort : (entryOffsets block (left + 1) dumphwHeaderSize).length < left + 1 :=
      lt_of_le_of_ne (length_entryOffsets_le _ _) hlength
    have hopen : expectByte 0x5D (0x0A ::
        (entriesText block (left + 1) dumphwHeaderSize ++ ascii "]\n")) = none := by
      rw [entriesText_succ hwords]
      rfl
    rw [List.append_assoc] at hreads
    obtain ⟨items, -, hitems⟩ := readsItems_of_reads hreads rfl hopen
    exact not_readsItems_entriesText hplain hshort (readsItems_newline.mp hitems)

end

section

variable (hsize : dumphwHeaderSize ≤ block.length)
include hsize

variable (hplain : ∀ entry ∈ shownEntries block, PlainEntry block entry)
include hplain

theorem dumphwExported_of_inside (hall : AllOrNone block)
    (hinside : ∀ entry ∈ shownEntries block, ExtentsInside block entry) : DumphwExported block := by
  have hexport := exportDumphwJson_eq hsize hplain
  by_cases hzero : declaredEntries block = 0
  · rw [if_pos hzero] at hexport
    exact ⟨none, hexport, fun text htext ↦ by cases htext⟩
  · rw [if_neg hzero, if_pos hinside] at hexport
    refine ⟨some _, hexport, fun text htext ↦ ?_⟩
    cases htext
    refine ⟨_, isText_export hplain hall, fun i off hoff hcomplete ↦ ?_⟩
    refine ⟨_, ?_, entryAppears_of_inside hcomplete⟩
    rw [entryValues, List.getElem?_map, hoff, Option.map_some]

theorem not_dumphwExported_of_outside
    (houtside : ¬ ∀ entry ∈ shownEntries block, ExtentsInside block entry) :
    ¬ DumphwExported block := by
  rintro ⟨outcome, hexport, -⟩
  have hdeclared : declaredEntries block ≠ 0 := by
    intro hzero
    refine houtside fun entry hentry ↦ ?_
    rw [shownEntries, hzero] at hentry
    cases hentry
  rw [exportDumphwJson_eq hsize hplain, if_neg hdeclared, if_neg houtside] at hexport
  cases hexport

theorem not_dumphwExported_of_few (hfew : ¬ AllOrNone block) : ¬ DumphwExported block := by
  rintro ⟨outcome, hexport, htext⟩
  have hdeclared : declaredEntries block ≠ 0 := by
    intro hzero
    refine hfew (Or.inl ?_)
    rw [shownEntries, hzero]
    rfl
  rw [exportDumphwJson_eq hsize hplain, if_neg hdeclared] at hexport
  split_ifs at hexport
  cases hexport
  obtain ⟨values, hvalues, -⟩ := htext _ rfl
  exact not_isText_export hplain hfew _ hvalues

end

/-- Strings of ASCII without quotes, backslashes and control characters are plain. -/
theorem PlainEntry.of_ascii {off : ℕ}
    (hascii : ∀ string ∈ entryStrings block off, string.length ≤ intMax ∧
      ∀ shown ∈ shownString block string, (dumphwStringLine shown.1 shown.2).length ≤ intMax ∧
        ∀ byte ∈ shown.2, IsPlain byte ∧ byte < 0x80) : PlainEntry block off := by
  intro string hstring
  obtain ⟨hlength, hshown⟩ := hascii string hstring
  refine ⟨hlength, fun shown hshown' ↦ ?_⟩
  obtain ⟨hline, hbytes⟩ := hshown shown hshown'
  exact ⟨hline, validUtf8_of_lt fun byte hbyte ↦ (hbytes byte hbyte).2,
    fun byte hbyte ↦ (hbytes byte hbyte).1⟩

end Main

/-- The bytes of a block: a header with the declared entries, then the entries. -/
def dumphwBlock (entries : ℕ) (rest : List UInt8) : List UInt8 :=
  List.replicate 4 0 ++ bytesOf 2 entries ++ List.replicate 12 0 ++ rest

/-- The nine words of an entry with a manufacturer and some extents. -/
def dumphwWords (manufacturer extents : ℕ) : List UInt8 :=
  bytesOf 4 manufacturer ++ List.replicate 28 0 ++ bytesOf 4 extents

/-- One entry: a manufacturer, and the extent from 0 to 99. -/
def oneDrive : List UInt8 :=
  dumphwBlock 1 (dumphwWords 2 1 ++ ascii "HL" ++ bytesOf 8 0 ++ bytesOf 8 99)

/-- Two declared entries, and the block ends behind the first one, which is empty. -/
def cutBlock : List UInt8 := dumphwBlock 2 (dumphwWords 0 0)

example : exportDumphwJson cutBlock = some (some (ascii "[\n  \x7b\n  \x7d,\n]\n")) := by decide

end Obmafs3
