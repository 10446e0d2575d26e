import Obmafs3.Metadata.QueryAlgebra

/-!
# The query parser

A query line is turned into the argument of one call: up to four filters in two groups, and three
operators, for the filters outside the parentheses, for those inside and between the groups. Texts
go into fields of fixed size, where what does not fit is cut off, and the two bounds of a range go
into one field with a comma between them.
-/

set_option autoImplicit false

namespace Obmafs3

/-! ### Tokens -/

/-- A word of the source. -/
def codes (word : List Char) : Text := word.map Char.toNat

/-- `strcasecmp` is zero. -/
def sameWord (kw word : Text) : Bool := lowered kw = lowered word

/-- `skip_ws`. -/
def skipWs (p : Text) : Text := p.dropWhile fun c ↦ c = 32 ∨ c = 9

/-- The bytes that end a token: blanks, quotes, parentheses and those of the operators. -/
def endsToken (c : ℕ) : Bool := c ∈ codes [' ', '\t', '"', '=', '!', '<', '>', '*', '(', ')']

/-- Write a byte into a buffer that keeps room for the NUL. -/
def pushByte (outsz : ℕ) (out : Text) (c : ℕ) : Text :=
  if out.length < outsz - 1 then out ++ [c] else out

/-- The loop of `parse_token`: the buffer, and where the token ends. -/
def tokenLoop (outsz : ℕ) (out : Text) : Text → Text × Text
  | [] => (out, [])
  | c :: p => if endsToken c then (out, c :: p) else tokenLoop outsz (pushByte outsz out c) p

/-- `parse_token`. An asterisk is a token if nothing stands before it. -/
def parseToken (outsz : ℕ) (p : Text) : Option (Text × Text) :=
  let read := tokenLoop outsz [] p
  if read.1 = [] then
    if read.2.head? = some 42 then some ([42], read.2.tail) else none
  else some read

/-- The loop of `parse_quoted`: the buffer, and where the quote or the line ends. -/
def quotedLoop (outsz : ℕ) (out : Text) : Text → Text × Text
  | [] => (out, [])
  | [c] => if c = 34 then (out, [c]) else (pushByte outsz out c, [])
  | c :: d :: p =>
    if c = 34 then (out, c :: d :: p)
    else if c = 92 ∧ (d = 34 ∨ d = 92) then quotedLoop outsz (pushByte outsz out d) p
    else quotedLoop outsz (pushByte outsz out c) (d :: p)

/-- `parse_quoted`. -/
def parseQuoted (outsz : ℕ) (p : Text) : Option (Text × Text) :=
  if p.head? = some 34 then
    let read := quotedLoop outsz [] p.tail
    if read.2 = [] then none else some (read.1, read.2.tail)
  else none

/-! ### Operators -/

/-- The operators made of symbols, with the bytes that may stand at each place. -/
def symbolOperators : List (List Text × QueryOp) :=
  [([codes ['N', 'n'], codes ['!'], codes ['=']], .numNotEqual),
    ([codes ['N', 'n'], codes ['>'], codes ['=']], .numGreaterEq),
    ([codes ['N', 'n'], codes ['<'], codes ['=']], .numLessEq),
    ([codes ['N', 'n'], codes ['=']], .numEqual),
    ([codes ['N', 'n'], codes ['>']], .numGreater),
    ([codes ['N', 'n'], codes ['<']], .numLess),
    ([codes ['I', 'i'], codes ['!'], codes ['=']], .iNotEqual),
    ([codes ['I', 'i'], codes ['=']], .iEqual),
    ([codes ['!'], codes ['=']], .notEqual),
    ([codes ['>'], codes ['=']], .greaterEq),
    ([codes ['<'], codes ['=']], .lessEq),
    ([codes ['=']], .equal),
    ([codes ['>']], .greater),
    ([codes ['<']], .less)]

/-- The operators that are words, with the number of operands. -/
def keywordOperators : List (Text × QueryOp × ℕ) :=
  [(codes ['C', 'O', 'N', 'T', 'A', 'I', 'N', 'S'], .contains, 1),
    (codes ['S', 'T', 'A', 'R', 'T', 'S', 'W', 'I', 'T', 'H'], .startsWith, 1),
    (codes ['E', 'X', 'I', 'S', 'T', 'S'], .exists, 0),
    (codes ['I', 'C', 'O', 'N', 'T', 'A', 'I', 'N', 'S'], .iContains, 1),
    (codes ['I', 'S', 'T', 'A', 'R', 'T', 'S', 'W', 'I', 'T', 'H'], .iStartsWith, 1),
    (codes ['E', 'N', 'D', 'S', 'W', 'I', 'T', 'H'], .endsWith, 1),
    (codes ['I', 'E', 'N', 'D', 'S', 'W', 'I', 'T', 'H'], .iEndsWith, 1),
    (codes ['I', 'N'], .inList, 1),
    (codes ['I', 'I', 'N'], .iInList, 1),
    (codes ['B', 'E', 'T', 'W', 'E', 'E', 'N'], .between, 2),
    (codes ['N', 'B', 'E', 'T', 'W', 'E', 'E', 'N'], .numBetween, 2),
    (codes ['G', 'L', 'O', 'B'], .glob, 1),
    (codes ['I', 'G', 'L', 'O', 'B'], .iGlob, 1),
    (codes ['R', 'E', 'G', 'E', 'X'], .regex, 1),
    (codes ['I', 'R', 'E', 'G', 'E', 'X'], .iRegex, 1)]

/-- What follows an operator made of symbols. -/
def readSymbols : List Text → Text → Option Text
  | [], p => some p
  | _ :: _, [] => none
  | cs :: symbols, c :: p => if c ∈ cs then readSymbols symbols p else none

/-- The first operator made of symbols that stands here. -/
def symbolOperator (p : Text) : List (List Text × QueryOp) → Option (QueryOp × ℕ × Text)
  | [] => none
  | entry :: table =>
    match readSymbols entry.1 p with
    | some rest => some (entry.2, 1, rest)
    | none => symbolOperator p table

/-- `parse_operator`: the operator, the number of its operands and what follows. -/
def parseOperator (p : Text) : Option (QueryOp × ℕ × Text) :=
  match symbolOperator p symbolOperators with
  | some found => some found
  | none =>
    match parseToken 32 p with
    | none => none
    | some (kw, after) =>
      (keywordOperators.find? (sameWord kw ·.1)).map fun entry ↦ (entry.2.1, entry.2.2, after)

/-! ### Filters -/

/-- `METADATA_KEY_MAX`. -/
def metadataKeyMax : ℕ := 256

/-- `METADATA_VALUE_MAX`. -/
def metadataValueMax : ℕ := 1025

/-- An operand, quoted or not. -/
def parseOperand (p : Text) : Option (Text × Text) :=
  if p.head? = some 34 then parseQuoted metadataValueMax p else parseToken metadataValueMax p

/-- The second operand of a range behind the first, if both fit in the field. -/
def packBounds (low high : Text) : Text :=
  if low.length + 1 + high.length < metadataValueMax then low ++ 44 :: high else low

/-- `parse_one_filter`. -/
def parseOneFilter (p : Text) : Option (QueryFilter × Text) :=
  let p := skipWs p
  if p = [] then none
  else
    match parseToken metadataKeyMax p with
    | none => none
    | some (key, p) =>
      match parseOperator (skipWs p) with
      | none => none
      | some (op, needValue, p) =>
        if needValue = 0 then some (⟨key, [], op⟩, p)
        else
          match parseOperand (skipWs p) with
          | none => none
          | some (value, p) =>
            if needValue = 2 then
              match parseOperand (skipWs p) with
              | none => none
              | some (val2, p) => some (⟨key, packBounds value val2, op⟩, p)
            else some (⟨key, value, op⟩, p)

/-- The word `NOT` in front of a filter. It is a key if an operator made of symbols follows. -/
def parseNot (p : Text) : Bool × Text :=
  match parseToken 8 p with
  | some (kw, after) =>
    let peek := skipWs after
    if sameWord kw (codes ['N', 'O', 'T']) ∧ peek ≠ [] ∧
        ∀ c ∈ peek.head?, c ∉ codes ['=', '!', '>', '<', ')'] then (true, peek)
    else (false, p)
  | none => (false, p)

/-! ### Queries -/

/-- What the parser knows. An operator that has not been set is `none`. -/
structure ParserState where
  filters : List GroupedFilter
  inParens : Bool
  haveParens : Bool
  combine0 : Option QueryCombine
  combine1 : Option QueryCombine
  groupCombine : Option QueryCombine
  deriving DecidableEq, Repr

/-- What of `struct obmafs3_ioctl_metadata_query_arg` the parser fills in. -/
structure QueryArg where
  filters : List GroupedFilter
  combine0 : QueryCombine
  combine1 : QueryCombine
  groupCombine : QueryCombine
  deriving DecidableEq, Repr

/-- An operator is set where it has not been set otherwise. -/
def setCombine (old : Option QueryCombine) (c : QueryCombine) : Option (Option QueryCombine) :=
  if old = none ∨ old = some c then some (some c) else none

/-- Which of the three operators a combiner is: it stands next to a parenthesis, inside the
parentheses or outside. -/
def classifyCombine (prevClose nextIsOpen : Bool) (c : QueryCombine) (st : ParserState) :
    Option ParserState :=
  if prevClose ∨ nextIsOpen then
    (setCombine st.groupCombine c).map fun gc ↦ { st with groupCombine := gc }
  else if st.inParens then (setCombine st.combine1 c).map fun c1 ↦ { st with combine1 := c1 }
  else (setCombine st.combine0 c).map fun c0 ↦ { st with combine0 := c0 }

/-- The end of the loop. The operator between the groups stands in for the one outside. -/
def finishQuery (st : ParserState) : Option QueryArg :=
  if st.inParens then none
  else
    some ⟨st.filters, st.combine0.getD (st.groupCombine.getD .and), st.combine1.getD .and,
      st.groupCombine.getD .and⟩

/-- An opening parenthesis in front of a filter. -/
def openParen (st : ParserState) (p : Text) : Option (ParserState × Text) :=
  if p.head? = some 40 then
    if st.inParens ∨ st.haveParens then none
    else some ({ st with inParens := true, haveParens := true }, skipWs p.tail)
  else some (st, p)

/-- A closing parenthesis behind a filter, and whether there was one. -/
def closeParen (st : ParserState) (p : Text) : Option (ParserState × Bool × Text) :=
  if p.head? = some 41 then
    if st.inParens then some ({ st with inParens := false }, true, skipWs p.tail) else none
  else some (st, false, p)

/-- `AND` or `OR`. -/
def readCombiner (p : Text) : Option (QueryCombine × Text) :=
  match parseToken 8 p with
  | none => none
  | some (kw, after) =>
    if sameWord kw (codes ['A', 'N', 'D']) then some (.and, after)
    else if sameWord kw (codes ['O', 'R']) then some (.or, after)
    else none

/-- The loop of `parse_query`, with the number of filters there is still room for. -/
def parseLoop : ℕ → ParserState → Text → Option QueryArg
  | 0, _, _ => none
  | room + 1, st, p =>
    let p := skipWs p
    if p = [] then if st.filters = [] then none else finishQuery st
    else
      match openParen st p with
      | none => none
      | some (st, p) =>
        match parseOneFilter (parseNot p).2 with
        | none => none
        | some (flt, rest) =>
          let group := if st.inParens then 1 else 0
          let added : ParserState :=
            { st with filters := st.filters ++ [⟨flt, (parseNot p).1, group⟩] }
          match closeParen added (skipWs rest) with
          | none => none
          | some (st, prevClose, p) =>
            if p = [] then finishQuery st
            else
              match readCombiner p with
              | none => none
              | some (c, after) =>
                match classifyCombine prevClose ((skipWs after).head? = some 40) c st with
                | none => none
                | some st => parseLoop room st after

/-- `parse_query`. -/
def parseQuery (input : Text) : Option QueryArg :=
  parseLoop queryMaxFilters ⟨[], false, false, none, none, none⟩ input

end Obmafs3
