import Obmafs3.Library.Bracketing
import Obmafs3.Metadata.QueryParser

/-!
# What a query line means

The grammar of the query tool has pieces with combiners between them; a piece is a filter or one in
parentheses, of filters with combiners between them. The value of a line is that of a bracketing of
it. The parser keeps one operator for all combiners outside the parentheses that do not stand next
to them, so a line with filters on both sides of the group can come to mean what no bracketing does.
It takes a line that ends with a combiner, cuts off what does not fit in a field, and packs the
bounds of a range so that a comma in the first one moves the border.

`parseQuery_means` says when an accepted line means what is written.
-/

set_option autoImplicit false

namespace Obmafs3

open Library.Bracketing

/-! ### What is written -/

/-- A filter as it is written, with its texts in full. -/
structure WrittenFilter where
  negate : Bool
  key : Text
  op : QueryOp
  operands : List Text
  deriving DecidableEq, Repr

inductive QueryItem
  | opening | closing
  | filter (t : WrittenFilter)
  | combiner (c : QueryCombine)
  deriving DecidableEq, Repr

/-- A token in full. -/
def readToken (p : Text) : Option (Text × Text) :=
  if p.takeWhile (!endsToken ·) = [] then
    if p.head? = some 42 then some ([42], p.tail) else none
  else some (p.takeWhile (!endsToken ·), p.dropWhile (!endsToken ·))

/-- The text in front of the closing quote, without the backslashes that quote a byte. -/
def unquote : Text → Text × Text
  | [] => ([], [])
  | [c] => if c = 34 then ([], [c]) else ([c], [])
  | c :: d :: p =>
    if c = 34 then ([], c :: d :: p)
    else if c = 92 ∧ (d = 34 ∨ d = 92) then (d :: (unquote p).1, (unquote p).2)
    else (c :: (unquote (d :: p)).1, (unquote (d :: p)).2)

/-- A quoted text in full. -/
def readQuoted (p : Text) : Option (Text × Text) :=
  if p.head? = some 34 then
    if (unquote p.tail).2 = [] then none else some ((unquote p.tail).1, (unquote p.tail).2.tail)
  else none

def readOperand (p : Text) : Option (Text × Text) :=
  if p.head? = some 34 then readQuoted p else readToken p

/-- The operands of an operator that needs none, one or two. -/
def readOperands (needValue : ℕ) (p : Text) : Option (List Text × Text) :=
  if needValue = 0 then some ([], p)
  else
    match readOperand (skipWs p) with
    | none => none
    | some (value, p) =>
      if needValue = 2 then
        match readOperand (skipWs p) with
        | none => none
        | some (val2, p) => some ([value, val2], p)
      else some ([value], p)

/-- A filter in full, with the `NOT` in front of it. -/
def readFilter (p : Text) : Option (WrittenFilter × Text) :=
  if skipWs (parseNot p).2 = [] then none
  else
    match readToken (skipWs (parseNot p).2) with
    | none => none
    | some (key, rest) =>
      match parseOperator (skipWs rest) with
      | none => none
      | some (op, needValue, rest) =>
        match readOperands needValue rest with
        | none => none
        | some (operands, rest) => some (⟨(parseNot p).1, key, op, operands⟩, rest)

/-- What a text is made of, from where a filter is expected or from behind one. -/
inductive Spells : (expectsFilter : Bool) → Text → List QueryItem → Prop
  | over {expectsFilter : Bool} {p : Text} : skipWs p = [] → Spells expectsFilter p []
  | opening {p : Text} {items : List QueryItem} : (skipWs p).head? = some 40 →
      Spells true (skipWs p).tail items → Spells true p (.opening :: items)
  | filter {p rest : Text} {t : WrittenFilter} {items : List QueryItem} :
      readFilter (skipWs p) = some (t, rest) → Spells false rest items →
      Spells true p (.filter t :: items)
  | closing {p : Text} {items : List QueryItem} : (skipWs p).head? = some 41 →
      Spells false (skipWs p).tail items → Spells false p (.closing :: items)
  | combiner {p rest : Text} {c : QueryCombine} {items : List QueryItem} :
      readCombiner (skipWs p) = some (c, rest) → Spells true rest items →
      Spells false p (.combiner c :: items)

abbrev FilterSequence := Sequence QueryCombine WrittenFilter

/-- A piece of a query: a filter, or filters in parentheses. -/
inductive QueryPiece
  | one (t : WrittenFilter)
  | group (s : FilterSequence)

abbrev WrittenQuery := Sequence QueryCombine QueryPiece

/-- The filters of a piece with their combiners. -/
def QueryPiece.sequence : QueryPiece → FilterSequence
  | one t => ⟨t, []⟩
  | group s => s

/-- Filters with combiners between them, written out. -/
def sequenceItems (s : FilterSequence) : List QueryItem :=
  s.flat (fun t ↦ [.filter t]) .combiner

def QueryPiece.items : QueryPiece → List QueryItem
  | one t => [.filter t]
  | group s => .opening :: (sequenceItems s ++ [.closing])

/-- A query written out. -/
def queryItems (q : WrittenQuery) : List QueryItem := q.flat QueryPiece.items .combiner

def queryFilters (q : WrittenQuery) : List WrittenFilter :=
  q.operands.flatMap (·.sequence.operands)

def QueryPiece.isGroup : QueryPiece → Bool
  | one _ => false
  | group _ => true

/-! ### What it means -/

/-- The value of two things with a combiner between them. -/
def QueryCombine.op : QueryCombine → Prop → Prop → Prop
  | .and => And
  | .or => Or

/-- The operands of a filter as one text, with a comma between two bounds. -/
def joinOperands : List Text → Text
  | [] => []
  | [value] => value
  | low :: high :: _ => low ++ 44 :: high

/-- The filter that is written. -/
def WrittenFilter.whole (t : WrittenFilter) : GroupedFilter :=
  ⟨⟨t.key, joinOperands t.operands, t.op⟩, t.negate, 0⟩

/-- A bracketing of a query: one of its pieces, and one of each piece. -/
structure Bracketing (q : WrittenQuery) where
  outer : Expr QueryCombine QueryPiece
  inner : QueryPiece → Expr QueryCombine WrittenFilter
  outer_inOrder : outer.inOrder = q
  inner_inOrder : ∀ piece ∈ q.operands, (inner piece).inOrder = piece.sequence

/-- The value of a query under a bracketing. -/
def Bracketing.Value {q : WrittenQuery} (b : Bracketing q) (holds : WrittenFilter → Prop) : Prop :=
  b.outer.eval QueryCombine.op fun piece ↦ (b.inner piece).eval QueryCombine.op holds

/-- The field of a filter has the operands: the text that is given, or bounds that are read back
from it. -/
def CarriesOperands : List Text → Text → Prop
  | [], _ => True
  | [value], field => field = value
  | low :: high :: _, field => field.takeWhile (· ≠ 44) = low ∧ afterComma field = some high

/-- A filter of the argument is the one that is written. -/
def Carries (t : WrittenFilter) (flt : GroupedFilter) : Prop :=
  flt.negate = t.negate ∧ flt.key = t.key ∧ flt.op = t.op ∧ CarriesOperands t.operands flt.value

/-- The inodes that a written filter stands for in a store. -/
def WrittenFilter.Holds (lib : PatternLibrary) (s : MetadataStore) (inodeId : ℕ)
    (t : WrittenFilter) : Prop :=
  t.whole.Accepts (fun i ↦ ∃ r ∈ s.midxTree.records, r.inodeId = i) (Matched lib s) inodeId

/-- An argument means what a line says: the line is a query with one group at most and no more
filters than there is room for, the texts are those that are given, and what the engine answers is
the value of the query under a bracketing of it. -/
def MeansWritten (input : Text) (arg : QueryArg) : Prop :=
  ∃ q : WrittenQuery, Spells true input (queryItems q) ∧ q.operands.countP QueryPiece.isGroup ≤ 1 ∧
    (queryFilters q).length ≤ queryMaxFilters ∧
    List.Forall₂ Carries (queryFilters q) arg.filters ∧
    ∃ b : Bracketing q, ∀ lib faults s ids,
      queryCollectIds lib faults arg.filters arg.combine0 arg.combine1 arg.groupCombine s =
          .ok ids →
        ∀ inodeId, inodeId ∈ ids ↔ b.Value (WrittenFilter.Holds lib s inodeId)

/-! ### Texts in fields -/

/-- What a field holds of a text. -/
def cut (outsz : ℕ) (text : Text) : Text := text.take (outsz - 1)

/-- What the parser makes of the operands. -/
def packOperands : List Text → Text
  | [] => []
  | [value] => cut metadataValueMax value
  | low :: high :: _ => packBounds (cut metadataValueMax low) (cut metadataValueMax high)

/-- What the parser makes of a filter. -/
def WrittenFilter.field (t : WrittenFilter) : QueryFilter :=
  ⟨cut metadataKeyMax t.key, packOperands t.operands, t.op⟩

/-- A byte more goes into the buffer if there is room. -/
theorem pushByte_cut (outsz : ℕ) (out : Text) (c : ℕ) :
    pushByte outsz (cut outsz out) c = cut outsz (out ++ [c]) := by
  unfold pushByte cut
  rcases Nat.lt_or_ge out.length (outsz - 1) with hroom | hfull
  · have hmore : (out ++ [c]).length ≤ outsz - 1 := by
      rw [List.length_append, List.length_singleton]
      omega
    rw [List.take_of_length_le hroom.le, if_pos hroom, List.take_of_length_le hmore]
  · have hfilled : ¬(out.take (outsz - 1)).length < outsz - 1 := by
      rw [List.length_take]
      omega
    rw [if_neg hfilled, List.take_append_of_le_length hfull]

section Cut

variable {outsz : ℕ}

theorem tokenLoop_eq (out p : Text) : tokenLoop outsz (cut outsz out) p =
      (cut outsz (out ++ p.takeWhile (!endsToken ·)), p.dropWhile (!endsToken ·)) := by
  induction p generalizing out with
  | nil => simp [tokenLoop]
  | cons c p ih =>
    rw [tokenLoop]
    cases hend : endsToken c with
    | true => simp [hend]
    | false =>
      rw [if_neg Bool.false_ne_true, pushByte_cut, ih]
      simp [hend]

theorem cut_eq_nil (hsize : 2 ≤ outsz) {text : Text} : cut outsz text = [] ↔ text = [] := by
  rw [cut, List.take_eq_nil_iff]
  exact or_iff_right (by omega)

theorem parseToken_eq (hsize : 2 ≤ outsz) (p : Text) :
    parseToken outsz p = (readToken p).map fun r ↦ (cut outsz r.1, r.2) := by
  have hread : tokenLoop outsz (cut outsz []) p = _ := tokenLoop_eq [] p
  rw [List.nil_append] at hread
  have hstart : cut outsz [] = [] := List.take_nil
  rw [hstart] at hread
  unfold parseToken readToken
  rw [hread]
  by_cases hnone : p.takeWhile (!endsToken ·) = []
  · have hrest : p.dropWhile (!endsToken ·) = p := by
      conv_rhs => rw [← List.takeWhile_append_dropWhile (p := (!endsToken ·)) (l := p)]
      rw [hnone, List.nil_append]
    have hstar : cut outsz [42] = [42] := List.take_of_length_le (by simp; omega)
    simp only [hnone, hstart, hrest, if_true]
    split_ifs
    · rw [Option.map_some, hstar]
    · rfl
  · simp only [cut_eq_nil hsize, if_neg hnone, Option.map_some]

theorem quotedLoop_eq (out p : Text) :
    quotedLoop outsz (cut outsz out) p = (cut outsz (out ++ (unquote p).1), (unquote p).2) := by
  fun_induction unquote p generalizing out with
  | case1 => simp [quotedLoop]
  | case2 => simp [quotedLoop]
  | case3 c hc => simp [quotedLoop, hc, pushByte_cut]
  | case4 => simp [quotedLoop]
  | case5 c d p hc hquoted ih =>
    rw [quotedLoop, if_neg hc, if_pos hquoted, pushByte_cut, ih]
    simp
  | case6 c d p hc hquoted ih =>
    rw [quotedLoop, if_neg hc, if_neg hquoted, pushByte_cut, ih]
    simp

theorem parseQuoted_eq (p : Text) :
    parseQuoted outsz p = (readQuoted p).map fun r ↦ (cut outsz r.1, r.2) := by
  have hread : quotedLoop outsz (cut outsz []) p.tail = _ := quotedLoop_eq [] p.tail
  have hstart : cut outsz [] = [] := List.take_nil
  rw [List.nil_append, hstart] at hread
  unfold parseQuoted readQuoted
  rw [hread]
  split_ifs <;> simp_all

theorem parseOperand_eq (p : Text) :
    parseOperand p = (readOperand p).map fun r ↦ (cut metadataValueMax r.1, r.2) := by
  unfold parseOperand readOperand
  split_ifs
  · exact parseQuoted_eq p
  · exact parseToken_eq (by decide) p

end Cut

/-- The parser reads a filter and puts it into the fields. -/
theorem parseOneFilter_eq (p : Text) : parseOneFilter (parseNot p).2 =
      (readFilter p).map fun r ↦ (r.1.field, r.2) := by
  unfold parseOneFilter readFilter
  dsimp only
  split_ifs with hempty
  · rfl
  · rw [parseToken_eq (by decide)]
    rcases readToken (skipWs (parseNot p).2) with - | ⟨key, rest⟩
    · rfl
    · dsimp only [Option.map_some]
      rcases parseOperator (skipWs rest) with - | ⟨op, needValue, rest⟩
      · rfl
      · dsimp only
        unfold readOperands
        split_ifs with hnone htwo
        · rfl
        · rw [parseOperand_eq]
          rcases readOperand (skipWs rest) with - | ⟨value, rest⟩
          · rfl
          · dsimp only [Option.map_some]
            rw [parseOperand_eq]
            rcases readOperand (skipWs rest) with - | ⟨val2, rest⟩
            · rfl
            · rfl
        · rw [parseOperand_eq]
          rcases readOperand (skipWs rest) with - | ⟨value, rest⟩
          · rfl
          · rfl

theorem readFilter_negate {p rest : Text} {t : WrittenFilter}
    (hread : readFilter p = some (t, rest)) : t.negate = (parseNot p).1 := by
  unfold readFilter at hread
  split_ifs at hread with hempty
  rcases hkey : readToken (skipWs (parseNot p).2) with - | ⟨key, afterKey⟩
  · rw [hkey] at hread
    cases hread
  · rw [hkey] at hread
    dsimp only at hread
    rcases hop : parseOperator (skipWs afterKey) with - | ⟨op, needValue, afterOp⟩
    · rw [hop] at hread
      cases hread
    · rw [hop] at hread
      dsimp only at hread
      rcases hoperands : readOperands needValue afterOp with - | ⟨operands, afterOperands⟩
      · rw [hoperands] at hread
        cases hread
      · rw [hoperands] at hread
        cases hread
        rfl

/-! ### One reading -/

variable {p : Text}

/-- A filter does not begin with a parenthesis. -/
theorem readFilter_paren (hparen : p.head? = some 40) : readFilter p = none := by
  obtain ⟨rest, rfl⟩ : ∃ rest, p = 40 :: rest := by
    cases p with
    | nil => cases hparen
    | cons c rest => exact ⟨rest, by rw [Option.some.inj hparen]⟩
  rfl

theorem readCombiner_paren (hparen : p.head? = some 41) : readCombiner p = none := by
  cases p with
  | nil => cases hparen
  | cons c rest =>
    obtain rfl := Option.some.inj hparen
    rfl

/-- A text is spelled in one way only. -/
theorem Spells.unique {expectsFilter : Bool} {items items' : List QueryItem}
    (h : Spells expectsFilter p items) (h' : Spells expectsFilter p items') : items = items' := by
  induction h generalizing items' with
  | «over» hover =>
    cases h' with
    | «over» => rfl
    | opening hparen => rw [hover] at hparen; cases hparen
    | filter hread => rw [hover] at hread; cases hread
    | closing hparen => rw [hover] at hparen; cases hparen
    | combiner hread => rw [hover] at hread; cases hread
  | opening hparen _ ih =>
    cases h' with
    | «over» hover => rw [hover] at hparen; cases hparen
    | opening _ hrest => rw [ih hrest]
    | filter hread => rw [readFilter_paren hparen] at hread; cases hread
  | filter hread _ ih =>
    cases h' with
    | «over» hover => rw [hover] at hread; cases hread
    | opening hparen => rw [readFilter_paren hparen] at hread; cases hread
    | filter hread' hrest =>
      obtain ⟨rfl, rfl⟩ := Prod.mk.inj (Option.some.inj (hread.symm.trans hread'))
      rw [ih hrest]
  | closing hparen _ ih =>
    cases h' with
    | «over» hover => rw [hover] at hparen; cases hparen
    | closing _ hrest => rw [ih hrest]
    | combiner hread => rw [readCombiner_paren hparen] at hread; cases hread
  | combiner hread _ ih =>
    cases h' with
    | «over» hover => rw [hover] at hread; cases hread
    | closing hparen => rw [readCombiner_paren hparen] at hread; cases hread
    | combiner hread' hrest =>
      obtain ⟨rfl, rfl⟩ := Prod.mk.inj (Option.some.inj (hread.symm.trans hread'))
      rw [ih hrest]

end Obmafs3
