import Obmafs3.Metadata.QueryShapes

/-!
# Query lines and their arguments

A line that is accepted and does not end with a combiner is a query, of filters only or with one
group. Its filters are carried over if their texts fit. The answer is the value of the query under
a bracketing unless there are filters on both sides of the group and not all combiners of the level
are the same.
-/

set_option autoImplicit false

namespace Obmafs3

open Library.Bracketing

/-! ### Texts that fit -/

/-- The operands fit in the field, and the comma between two bounds is the first one. -/
def OperandsFit : List Text → Prop
  | [] => True
  | [value] => value.length < metadataValueMax
  | low :: high :: _ => 44 ∉ low ∧ low.length + 1 + high.length < metadataValueMax

/-- The texts of a filter fit in its fields. -/
def WrittenFilter.Fits (t : WrittenFilter) : Prop :=
  t.key.length < metadataKeyMax ∧ OperandsFit t.operands

variable {holds : WrittenFilter → Prop} {a g b d : WrittenFilter} {x x' : List QueryItem}
  {c0 gc : QueryCombine} {t : WrittenFilter} {low high : Text} {input : Text} {text : Text}

theorem afterComma_append (hcomma : 44 ∉ low) : afterComma (low ++ 44 :: high) = some high := by
  induction low with
  | nil => rfl
  | cons c low ih =>
    obtain ⟨hc, hlow⟩ := not_or.mp (List.mem_cons.not.mp hcomma)
    rw [List.cons_append, afterComma, if_neg (Ne.symm hc), ih hlow]

theorem afterComma_eq_none (hcomma : 44 ∉ text) : afterComma text = none := by
  induction text with
  | nil => rfl
  | cons c text ih =>
    obtain ⟨hc, htext⟩ := not_or.mp (List.mem_cons.not.mp hcomma)
    rw [afterComma, if_neg (Ne.symm hc), ih htext]

theorem takeWhile_append_comma (hcomma : 44 ∉ low) :
    (low ++ 44 :: high).takeWhile (· ≠ 44) = low := by
  rw [List.takeWhile_append_of_pos fun c hc ↦ decide_eq_true (ne_of_mem_of_not_mem hc hcomma)]
  simp

theorem cut_eq_self {outsz : ℕ} (hsize : 0 < outsz) :
    cut outsz text = text ↔ text.length < outsz := by
  constructor
  · intro hwhole
    have hlength := congrArg List.length hwhole
    rw [cut, List.length_take] at hlength
    omega
  · exact fun hshort ↦ List.take_of_length_le (by omega)

/-- The field carries the operands if and only if they fit. -/
theorem carriesOperands_iff (operands : List Text) :
    CarriesOperands operands (packOperands operands) ↔ OperandsFit operands := by
  match operands with
  | [] => exact Iff.rfl
  | [value] => exact cut_eq_self (by decide)
  | low :: high :: _ =>
    change (packBounds (cut metadataValueMax low) (cut metadataValueMax high)).takeWhile (· ≠ 44) =
      low ∧ afterComma (packBounds (cut metadataValueMax low) (cut metadataValueMax high)) =
        some high ↔ 44 ∉ low ∧ low.length + 1 + high.length < metadataValueMax
    constructor
    · rintro ⟨hlow, hhigh⟩
      have hcomma : 44 ∉ low := fun hmem ↦ by
        rw [← hlow] at hmem
        exact absurd (List.mem_takeWhile_imp hmem) (by decide)
      have hcut : 44 ∉ cut metadataValueMax low := fun hmem ↦ hcomma (List.mem_of_mem_take hmem)
      unfold packBounds at hlow hhigh
      split_ifs at hlow hhigh with hroom
      · rw [takeWhile_append_comma hcut] at hlow
        rw [afterComma_append hcut] at hhigh
        rw [hlow, Option.some.inj hhigh] at hroom
        exact ⟨hcomma, hroom⟩
      · rw [afterComma_eq_none hcut] at hhigh
        cases hhigh
    · rintro ⟨hcomma, hroom⟩
      have hlow : cut metadataValueMax low = low := (cut_eq_self (by decide)).mpr (by omega)
      have hhigh : cut metadataValueMax high = high := (cut_eq_self (by decide)).mpr (by omega)
      rw [hlow, hhigh, packBounds, if_pos hroom]
      exact ⟨takeWhile_append_comma hcomma, afterComma_append hcomma⟩

theorem carries_inGroup (t : WrittenFilter) (group : ℕ) : Carries t (t.inGroup group) ↔ t.Fits := by
  constructor
  · rintro ⟨-, hkey, -, hvalue⟩
    exact ⟨(cut_eq_self (by decide)).mp hkey, (carriesOperands_iff t.operands).mp hvalue⟩
  · rintro ⟨hkey, hvalue⟩
    exact ⟨rfl, (cut_eq_self (by decide)).mpr hkey, rfl,
      (carriesOperands_iff t.operands).mpr hvalue⟩

/-- A filter that fits is the one that is written. -/
theorem WrittenFilter.Fits.field_eq (hfits : t.Fits) : t.field = t.whole.toQueryFilter := by
  obtain ⟨negate, key, op, operands⟩ := t
  obtain ⟨hkey, hvalue⟩ := hfits
  have hkey' : cut metadataKeyMax key = key := (cut_eq_self (by decide)).mpr hkey
  have hpack : packOperands operands = joinOperands operands := by
    match operands, hvalue with
    | [], _ => rfl
    | [value], hvalue => exact (cut_eq_self (by decide)).mpr hvalue
    | low :: high :: _, ⟨_, hroom⟩ =>
      have hlow : cut metadataValueMax low = low := (cut_eq_self (by decide)).mpr (by omega)
      have hhigh : cut metadataValueMax high = high := (cut_eq_self (by decide)).mpr (by omega)
      change packBounds _ _ = _
      rw [hlow, hhigh, packBounds, if_pos hroom]
      rfl
  simp only [WrittenFilter.field, WrittenFilter.whole, hkey', hpack]

/-! ### Queries and their items -/

/-- A query of filters only. -/
def plainQuery (s : FilterSequence) : WrittenQuery :=
  ⟨.one s.first, s.rest.map fun p ↦ (p.1, .one p.2)⟩

/-- A query with a group. -/
def groupQuery (pre : List (WrittenFilter × QueryCombine)) (s : FilterSequence)
    (tail : List (QueryCombine × WrittenFilter)) : WrittenQuery :=
  Sequence.prepend (pre.map fun p ↦ (.one p.1, p.2))
    ⟨.group s, tail.map fun p ↦ (p.1, .one p.2)⟩

theorem plainQuery_items (s : FilterSequence) : queryItems (plainQuery s) = sequenceItems s := by
  simp [queryItems, plainQuery, sequenceItems, Sequence.flat, QueryPiece.items, List.flatMap_map]

theorem groupQuery_items (pre : List (WrittenFilter × QueryCombine)) (s : FilterSequence)
    (tail : List (QueryCombine × WrittenFilter)) :
    queryItems (groupQuery pre s tail) =
      preItems pre ++ .opening :: (sequenceItems s ++ .closing :: tailItems tail) := by
  rw [queryItems, groupQuery, Sequence.flat_prepend]
  simp [preItems, tailItems, Sequence.flat, QueryPiece.items, List.flatMap_map]

theorem plainQuery_filters (s : FilterSequence) : queryFilters (plainQuery s) = s.operands := by
  simp [queryFilters, plainQuery, Sequence.operands, QueryPiece.sequence, List.flatMap_map,
    ← List.map_eq_flatMap]

theorem groupQuery_filters (pre : List (WrittenFilter × QueryCombine)) (s : FilterSequence)
    (tail : List (QueryCombine × WrittenFilter)) :
    queryFilters (groupQuery pre s tail) = pre.map Prod.fst ++ s.operands ++ tail.map Prod.snd := by
  rw [queryFilters, groupQuery, Sequence.operands_prepend]
  simp [Sequence.operands, QueryPiece.sequence, List.flatMap_map, ← List.map_eq_flatMap]

theorem sequenceItems_inj {s s' : FilterSequence}
    (h : sequenceItems s ++ .closing :: x = sequenceItems s' ++ .closing :: x') :
    s = s' ∧ x = x' := by
  have hsame : s = s' ∧ QueryItem.closing :: x = .closing :: x' :=
    Sequence.flat_append_inj (fun t t' y y' hy ↦ by simpa using hy)
      (fun c c' hc ↦ QueryItem.combiner.inj hc) (fun c ↦ by simp) (fun c ↦ by simp) h
  exact ⟨hsame.1, (List.cons.inj hsame.2).2⟩

theorem pieceItems_inj {piece piece' : QueryPiece} (h : piece.items ++ x = piece'.items ++ x') :
    piece = piece' ∧ x = x' := by
  cases piece with
  | one t =>
    cases piece' with
    | one t' =>
      obtain ⟨hitem, hrest⟩ := List.cons.inj h
      exact ⟨congrArg QueryPiece.one (QueryItem.filter.inj hitem), hrest⟩
    | group s' => exact QueryItem.noConfusion (List.cons.inj h).1
  | group s =>
    cases piece' with
    | one t' => exact QueryItem.noConfusion (List.cons.inj h).1
    | group s' =>
      have hrest : (sequenceItems s ++ [.closing]) ++ x = (sequenceItems s' ++ [.closing]) ++ x' :=
        (List.cons.inj h).2
      rw [List.append_assoc, List.append_assoc] at hrest
      obtain ⟨rfl, hx⟩ := sequenceItems_inj hrest
      exact ⟨rfl, hx⟩

/-- A line is one query only. -/
theorem queryItems_inj {q q' : WrittenQuery} (h : queryItems q = queryItems q') : q = q' := by
  have hflat : q.flat QueryPiece.items .combiner ++ [] = q'.flat QueryPiece.items .combiner ++ [] := by
    rw [List.append_nil, List.append_nil]
    exact h
  exact (Sequence.flat_append_inj (fun _ _ _ _ ↦ pieceItems_inj)
    (fun c c' hc ↦ QueryItem.combiner.inj hc) (fun c ↦ by simp) (fun c ↦ by simp) hflat).1

/-- A piece ends with a filter or a parenthesis. -/
theorem pieceItems_last (piece : QueryPiece) :
    ∃ front item, piece.items = front ++ [item] ∧ ∀ c, item ≠ .combiner c := by
  cases piece with
  | one t => exact ⟨[], .filter t, rfl, fun c hc ↦ QueryItem.noConfusion hc⟩
  | group s =>
    exact ⟨.opening :: sequenceItems s, .closing, rfl, fun c hc ↦ QueryItem.noConfusion hc⟩

/-- A query does not end with a combiner. -/
theorem queryItems_not_dangling (q : WrittenQuery) : ¬Dangling (queryItems q) := by
  have hlast : ∃ front item, queryItems q = front ++ [item] ∧ ∀ c, item ≠ .combiner c := by
    unfold queryItems Sequence.flat
    rcases List.eq_nil_or_concat q.rest with hnil | ⟨more, p, hconcat⟩
    · rw [hnil, List.flatMap_nil, List.append_nil]
      exact pieceItems_last q.first
    · obtain ⟨front, item, hpiece, hitem⟩ := pieceItems_last p.2
      refine ⟨q.first.items ++ (more.flatMap fun p ↦ .combiner p.1 :: p.2.items) ++
        .combiner p.1 :: front, item, ?_, hitem⟩
      rw [hconcat, List.concat_eq_append, List.flatMap_append, List.flatMap_singleton, hpiece]
      simp
  obtain ⟨front, item, hitems, hitem⟩ := hlast
  rintro (hnil | ⟨front', c, hfront⟩)
  · rw [hitems] at hnil
    exact List.append_ne_nil_of_right_ne_nil _ (List.cons_ne_nil _ _) hnil
  · have hsame := congrArg List.getLast? (hitems.symm.trans hfront)
    rw [List.getLast?_concat, List.getLast?_concat] at hsame
    exact hitem c (Option.some.inj hsame)

/-! ### What is accepted -/

variable {arg : QueryArg} {q : WrittenQuery}

theorem parseLoop_length {room : ℕ} {st : ParserState} {p : Text}
    (hparse : parseLoop room st p = some arg) :
    arg.filters ≠ [] ∧ arg.filters.length ≤ st.filters.length + room := by
  induction room generalizing st p with
  | zero => cases hparse
  | succ room ih =>
    rcases parseLoop_step hparse with ⟨-, hne, hfinish⟩ |
      ⟨opens, closes, t, rest, -, -, -, ⟨-, hfinish⟩ | ⟨c, next, st', -, hclass, hnext⟩⟩
    · rw [(finishQuery_some hfinish).2.2.1]
      exact ⟨hne, Nat.le_add_right _ _⟩
    · rw [(finishQuery_some hfinish).2.2.1]
      simp [ParserState.after]
    · obtain ⟨-, hfilters, -⟩ := classifyCombine_some hclass arg (parseLoop_extends hnext)
      obtain ⟨hne, hlength⟩ := ih hnext
      refine ⟨hne, ?_⟩
      rw [hfilters] at hlength
      simp only [ParserState.after, List.length_append, List.length_singleton] at hlength
      omega

/-- What an argument has of a query with a group. -/
structure GroupArg (pre : List (WrittenFilter × QueryCombine)) (s : FilterSequence)
    (tail : List (QueryCombine × WrittenFilter)) (arg : QueryArg) : Prop where
  preOk : PreOk arg pre
  inside : ∀ c ∈ s.operators, c = arg.combine1
  tailOk : TailOk arg tail
  filters : arg.filters = (pre.map Prod.fst).map (·.inGroup 0) ++ s.operands.map (·.inGroup 1) ++
    (tail.map Prod.snd).map (·.inGroup 0)
  default : pre.length ≤ 1 → tail.length ≤ 1 → arg.combine0 = arg.groupCombine

/-- What is accepted: a line that ends with a combiner, or a query with at most one group. -/
theorem parseQuery_some (hparse : parseQuery input = some arg) :
    (∃ items, Spells true input items ∧ Dangling items) ∨
      (∃ s, Spells true input (queryItems (plainQuery s)) ∧
        (∀ c ∈ s.operators, c = arg.combine0) ∧ arg.filters = s.operands.map (·.inGroup 0)) ∨
      ∃ pre s tail, Spells true input (queryItems (groupQuery pre s tail)) ∧
        GroupArg pre s tail arg := by
  rcases beforeGroup hparse rfl rfl with hdangling | ⟨s, hs, hoperators, harg⟩ |
    ⟨pre, s, tail, hs, hpre, hoperators, htail, harg, hdefault⟩
  · exact Or.inl hdangling
  · rw [← plainQuery_items] at hs
    exact Or.inr (Or.inl ⟨s, hs, hoperators, harg⟩)
  · rw [← groupQuery_items] at hs
    exact Or.inr (Or.inr ⟨pre, s, tail, hs, hpre, hoperators, htail, harg, fun hpre htail ↦
      hdefault hpre htail rfl⟩)

/-! ### Values -/

section Values

variable {holds : WrittenFilter → Prop} {c : QueryCombine}

variable {pre : List (WrittenFilter × QueryCombine)} {tail : List (QueryCombine × WrittenFilter)}
  {s : FilterSequence} {α : Type} {value : α → Prop} {a : α}

variable {combine0 combine1 groupCombine : QueryCombine} {accepts : GroupedFilter → Prop}
  {l : List α}

theorem joins_cons : c.Joins value (a :: l) = c.op (value a) (c.Joins value l) := by
  cases c with
  | and => exact propext QueryCombine.joins_and_cons
  | or => exact propext QueryCombine.joins_or_cons

theorem op_assoc (x y z : Prop) : c.op (c.op x y) z = c.op x (c.op y z) := by
  cases c with
  | and => exact propext and_assoc
  | or => exact propext or_assoc

theorem foldl_joins (l : List α) (x : Prop) :
    l.foldl (fun x a ↦ c.op x (value a)) x = c.op x (c.Joins value l) := by
  induction l generalizing x with
  | nil => cases c <;> simp [QueryCombine.op, QueryCombine.Joins]
  | cons a l ih => rw [List.foldl_cons, ih, op_assoc, joins_cons]

/-- Operands with one operator between them have one value under every bracketing. -/
theorem eval_joins (e : Expr QueryCombine α) (hsame : ∀ d ∈ e.inOrder.operators, d = c) :
    e.eval QueryCombine.op value = c.Joins value e.inOrder.operands := by
  rw [Expr.eval_same op_assoc e hsame, foldl_joins, Sequence.operands, joins_cons]

theorem joins_pair {x y : Prop} : c.Joins id [x, y] = c.op x y := by
  cases c with
  | and => exact propext QueryCombine.joins_and_pair
  | or => exact propext QueryCombine.joins_or_pair

theorem joins_singleton : c.Joins value [a] = value a := by
  cases c <;> simp [QueryCombine.Joins]

theorem joins_map {α β : Type} {value : β → Prop} {f : α → β} {l : List α} :
    c.Joins value (l.map f) = c.Joins (fun a ↦ value (f a)) l := by
  cases c with
  | and => exact propext List.forall_mem_map
  | or => simp [QueryCombine.Joins]

theorem joins_congr {value value' : α → Prop} (hsame : ∀ a ∈ l, value a ↔ value' a) :
    c.Joins value l = c.Joins value' l := by
  cases c with
  | and => exact propext (forall₂_congr hsame)
  | or => exact propext (exists_congr fun a ↦ and_congr_right (hsame a))

/-- The filters of an argument with no group. -/
theorem groupsJoin_plain {l : List WrittenFilter} (hne : l ≠ [])
    (hsame : ∀ t ∈ l, ∀ group, accepts (t.inGroup group) ↔ holds t) :
    GroupsJoin combine0 combine1 groupCombine accepts (l.map (·.inGroup 0)) =
      combine0.Joins holds l := by
  have hout : (l.map (·.inGroup 0)).filter (·.group = 0) = l.map (·.inGroup 0) :=
    List.filter_eq_self.mpr (by simp [WrittenFilter.inGroup])
  have hin : (l.map (·.inGroup 0)).filter (·.group ≠ 0) = [] :=
    List.filter_eq_nil_iff.mpr (by simp [WrittenFilter.inGroup])
  have hne' : l.map (·.inGroup 0) ≠ [] := fun hnil ↦ hne (List.map_eq_nil_iff.mp hnil)
  unfold GroupsJoin
  dsimp only
  rw [hout, hin, if_neg (fun hboth ↦ hboth.2 rfl), if_pos hne', joins_map]
  exact joins_congr fun t ht ↦ hsame t ht 0

/-- The filters of an argument with a group. -/
theorem groupsJoin_group {before inside behind : List WrittenFilter} (hne : inside ≠ [])
    (hsame : ∀ t ∈ before ++ inside ++ behind, ∀ group, accepts (t.inGroup group) ↔ holds t) :
    GroupsJoin combine0 combine1 groupCombine accepts
        (before.map (·.inGroup 0) ++ inside.map (·.inGroup 1) ++ behind.map (·.inGroup 0)) =
      if before ++ behind ≠ [] then
        groupCombine.op (combine0.Joins holds (before ++ behind)) (combine1.Joins holds inside)
      else combine1.Joins holds inside := by
  have hkeep (l : List WrittenFilter) : (l.map (·.inGroup 0)).filter (·.group = 0) =
      l.map (·.inGroup 0) := List.filter_eq_self.mpr (by simp [WrittenFilter.inGroup])
  have hdrop (l : List WrittenFilter) : (l.map (·.inGroup 0)).filter (·.group ≠ 0) = [] :=
    List.filter_eq_nil_iff.mpr (by simp [WrittenFilter.inGroup])
  have hkeep' (l : List WrittenFilter) : (l.map (·.inGroup 1)).filter (·.group ≠ 0) =
      l.map (·.inGroup 1) := List.filter_eq_self.mpr (by simp [WrittenFilter.inGroup])
  have hdrop' (l : List WrittenFilter) : (l.map (·.inGroup 1)).filter (·.group = 0) = [] :=
    List.filter_eq_nil_iff.mpr (by simp [WrittenFilter.inGroup])
  have hout : combine0.Joins accepts ((before ++ behind).map (·.inGroup 0)) =
      combine0.Joins holds (before ++ behind) := by
    rw [joins_map]
    refine joins_congr fun t ht ↦ hsame t ?_ 0
    rcases List.mem_append.mp ht with ht | ht
    · exact List.mem_append_left _ (List.mem_append_left _ ht)
    · exact List.mem_append_right _ ht
  have hin : combine1.Joins accepts (inside.map (·.inGroup 1)) = combine1.Joins holds inside := by
    rw [joins_map]
    exact joins_congr fun t ht ↦ hsame t (List.mem_append_left _ (List.mem_append_right _ ht)) 1
  have hne' : inside.map (·.inGroup 1) ≠ [] := fun hnil ↦ hne (List.map_eq_nil_iff.mp hnil)
  unfold GroupsJoin
  dsimp only
  simp only [List.filter_append, hkeep, hdrop, hkeep', hdrop', List.append_nil, List.nil_append]
  rw [← List.map_append, hout, hin]
  by_cases hsides : before ++ behind = []
  · simp [hsides]
  · have hsides' : (before ++ behind).map (·.inGroup 0) ≠ [] := fun hnil ↦
      hsides (List.map_eq_nil_iff.mp hnil)
    rw [if_pos hsides, if_pos ⟨hsides', hne'⟩, joins_pair]

/-- A bracketing of a piece. -/
def innerOf : QueryPiece → Expr QueryCombine WrittenFilter
  | .one t => .leaf t
  | .group s => .leftNested s.first s.rest

theorem innerOf_inOrder (piece : QueryPiece) : (innerOf piece).inOrder = piece.sequence := by
  cases piece with
  | one t => rfl
  | group s => exact Expr.inOrder_leftNested s.first s.rest

/-- A bracketing of a query from one of its pieces. -/
def bracketing {q : WrittenQuery} (outer : Expr QueryCombine QueryPiece) (houter : outer.inOrder = q) :
    Bracketing q :=
  ⟨outer, innerOf, houter, fun piece _ ↦ innerOf_inOrder piece⟩

/-- The value of filters with combiners between them. -/
abbrev pieceValue (holds : WrittenFilter → Prop) (piece : QueryPiece) : Prop :=
  (innerOf piece).eval QueryCombine.op holds

theorem pieceValue_group (hsame : ∀ d ∈ s.operators, d = c) :
    pieceValue holds (.group s) = c.Joins holds s.operands := by
  have horder : (innerOf (.group s)).inOrder = s := innerOf_inOrder (.group s)
  rw [pieceValue, eval_joins (c := c) _ (by rwa [horder]), horder]

theorem plainQuery_operators (s : FilterSequence) : (plainQuery s).operators = s.operators := by
  simp [plainQuery, Sequence.operators]

theorem plainQuery_operands (s : FilterSequence) :
    (plainQuery s).operands = s.operands.map .one := by
  simp [plainQuery, Sequence.operands]

/-- A query of filters with one combiner. -/
theorem plain_value {arg : QueryArg} (hoperators : ∀ c ∈ s.operators, c = arg.combine0)
    (hfilters : arg.filters = s.operands.map (·.inGroup 0)) :
    ∃ b : Bracketing (plainQuery s), ∀ (accepts : GroupedFilter → Prop)
      (holds : WrittenFilter → Prop),
      (∀ t ∈ queryFilters (plainQuery s), ∀ group, accepts (t.inGroup group) ↔ holds t) →
        GroupsJoin arg.combine0 arg.combine1 arg.groupCombine accepts arg.filters =
          b.Value holds := by
  have houter : (Expr.leftNested (plainQuery s).first (plainQuery s).rest).inOrder =
      plainQuery s := Expr.inOrder_leftNested _ _
  refine ⟨bracketing _ houter, fun accepts holds hsame ↦ ?_⟩
  rw [plainQuery_filters] at hsame
  rw [hfilters, groupsJoin_plain s.operands_ne_nil hsame]
  have hvalue : (Expr.leftNested (plainQuery s).first (plainQuery s).rest).eval QueryCombine.op
      (pieceValue holds) = arg.combine0.Joins (pieceValue holds) _ :=
    eval_joins _ (by rw [houter, plainQuery_operators]; exact hoperators)
  rw [houter, plainQuery_operands, joins_map] at hvalue
  exact hvalue.symm

theorem op_comm (x y : Prop) : c.op x y = c.op y x := by
  cases c with
  | and => exact propext and_comm
  | or => exact propext or_comm

/-- One of the operands can be taken out. -/
theorem joins_middle {l m : List α} :
    c.Joins value (l ++ a :: m) = c.op (c.Joins value (l ++ m)) (value a) := by
  have hperm : c.Joins value (l ++ a :: m) = c.Joins value (a :: (l ++ m)) :=
    propext (QueryCombine.joins_perm List.perm_middle)
  rw [hperm, joins_cons, op_comm]

/-- The combiners before the group. -/
theorem PreOk.operators {arg : QueryArg} (hpre : PreOk arg pre) {operators : List QueryCombine}
    {last : QueryCombine} (hoperators : operators ++ [last] = pre.map Prod.snd) :
    last = arg.groupCombine ∧ ∀ d ∈ operators, d = arg.combine0 := by
  induction pre generalizing operators with
  | nil => exact absurd hoperators (List.append_ne_nil_of_right_ne_nil _ (List.cons_ne_nil _ _))
  | cons p pre ih =>
    cases operators with
    | nil =>
      obtain ⟨rfl, hnil⟩ := List.cons.inj hoperators
      obtain rfl := List.map_eq_nil_iff.mp hnil.symm
      exact ⟨hpre, List.forall_mem_nil _⟩
    | cons d operators =>
      obtain ⟨rfl, hrest⟩ := List.cons.inj hoperators
      cases pre with
      | nil => exact absurd hrest (List.append_ne_nil_of_right_ne_nil _ (List.cons_ne_nil _ _))
      | cons q pre =>
        obtain ⟨hlast, hall⟩ := ih hpre.2 hrest
        exact ⟨hlast, List.forall_mem_cons.mpr ⟨hpre.1, hall⟩⟩

theorem groupQuery_operators (pre : List (WrittenFilter × QueryCombine)) (s : FilterSequence)
    (tail : List (QueryCombine × WrittenFilter)) :
    (groupQuery pre s tail).operators = pre.map Prod.snd ++ tail.map Prod.fst := by
  rw [groupQuery, Sequence.operators_prepend]
  simp [Sequence.operators, Function.comp_def]

theorem groupQuery_operands (pre : List (WrittenFilter × QueryCombine)) (s : FilterSequence)
    (tail : List (QueryCombine × WrittenFilter)) :
    (groupQuery pre s tail).operands =
      (pre.map Prod.fst).map .one ++ .group s :: (tail.map Prod.snd).map .one := by
  rw [groupQuery, Sequence.operands_prepend]
  simp [Sequence.operands, Function.comp_def]

/-- The value of filters outside the parentheses. -/
theorem joins_one (l : List WrittenFilter) :
    c.Joins (pieceValue holds) (l.map .one) = c.Joins holds l := joins_map

/-- Filters that follow one another outside the parentheses. -/
theorem run_value {t : WrittenFilter} (hsame : ∀ q ∈ tail, q.1 = c) :
    (Expr.leftNested (QueryPiece.one t) (tail.map fun p ↦ (p.1, QueryPiece.one p.2))).eval QueryCombine.op
        (pieceValue holds) = c.Joins holds (t :: tail.map Prod.snd) := by
  have horder := Expr.inOrder_leftNested (QueryPiece.one t) (tail.map fun p ↦ (p.1, QueryPiece.one p.2))
  have hoperands : Sequence.operands
      (⟨QueryPiece.one t, tail.map fun p ↦ (p.1, QueryPiece.one p.2)⟩ : WrittenQuery) =
        (t :: tail.map Prod.snd).map .one := by
    simp [Sequence.operands, Function.comp_def]
  rw [eval_joins (c := c) _ (by rw [horder]; simpa [Sequence.operators] using hsame), horder,
    hoperands, joins_one]

theorem PreOk.same {arg : QueryArg} (hpre : PreOk arg pre) (hone : arg.combine0 = arg.groupCombine)
    : ∀ d ∈ pre.map Prod.snd, d = arg.groupCombine := by
  rcases List.eq_nil_or_concat (pre.map Prod.snd) with hnil | ⟨operators, last, hconcat⟩
  · rw [hnil]
    exact List.forall_mem_nil _
  · rw [List.concat_eq_append] at hconcat
    obtain ⟨hlast, hall⟩ := hpre.operators hconcat.symm
    rw [hconcat]
    refine List.forall_mem_append.mpr ⟨fun d hd ↦ (hall d hd).trans hone, fun d hd ↦ ?_⟩
    rw [List.mem_singleton.mp hd, hlast]

/-- If the two operators outside the parentheses are the same, all combiners there are. -/
theorem GroupArg.operators {arg : QueryArg} (harg : GroupArg pre s tail arg)
    (hone : arg.combine0 = arg.groupCombine) :
    ∀ d ∈ (groupQuery pre s tail).operators, d = arg.groupCombine := by
  rw [groupQuery_operators]
  refine List.forall_mem_append.mpr ⟨harg.preOk.same hone, fun d hd ↦ ?_⟩
  obtain ⟨q, hq, rfl⟩ := List.mem_map.mp hd
  cases tail with
  | nil => cases hq
  | cons y tail =>
    rcases List.mem_cons.mp hq with rfl | hq
    · exact harg.tailOk.1
    · exact (harg.tailOk.2 q hq).trans hone

/-- The argument of a query with a group has the value of a bracketing if there are filters on one
side of the group only, or all combiners of the level are the same. -/
theorem group_value {arg : QueryArg} (harg : GroupArg pre s tail arg)
    (hone : pre ≠ [] → tail ≠ [] → arg.combine0 = arg.groupCombine) :
    ∃ b : Bracketing (groupQuery pre s tail), ∀ (accepts : GroupedFilter → Prop)
      (holds : WrittenFilter → Prop),
      (∀ t ∈ queryFilters (groupQuery pre s tail), ∀ group,
        accepts (t.inGroup group) ↔ holds t) →
        GroupsJoin arg.combine0 arg.combine1 arg.groupCombine accepts arg.filters =
          b.Value holds := by
  suffices hvalue : ∃ outer : Expr QueryCombine QueryPiece,
      outer.inOrder = groupQuery pre s tail ∧ ∀ holds : WrittenFilter → Prop,
        outer.eval QueryCombine.op (pieceValue holds) =
          if pre.map Prod.fst ++ tail.map Prod.snd ≠ [] then
            arg.groupCombine.op (arg.combine0.Joins holds (pre.map Prod.fst ++ tail.map Prod.snd))
              (arg.combine1.Joins holds s.operands)
          else arg.combine1.Joins holds s.operands by
    obtain ⟨outer, houter, hvalue⟩ := hvalue
    refine ⟨bracketing outer houter, fun accepts holds hsame ↦ ?_⟩
    rw [groupQuery_filters] at hsame
    rw [harg.filters, groupsJoin_group s.operands_ne_nil hsame]
    exact (hvalue holds).symm
  rcases pre with - | ⟨x, pre⟩
  · rcases tail with - | ⟨y, tail⟩
    · refine ⟨.leaf (.group s), rfl, fun holds ↦ ?_⟩
      rw [if_neg (by simp)]
      exact pieceValue_group harg.inside
    · obtain ⟨hlast, hothers⟩ := harg.tailOk
      refine ⟨.join y.1 (.leaf (.group s))
        (.leftNested (.one y.2) (tail.map fun p ↦ (p.1, .one p.2))), ?_, fun holds ↦ ?_⟩
      · rw [Expr.inOrder, Expr.inOrder_leftNested]
        rfl
      · rw [Expr.eval, run_value hothers, if_pos (by simp), hlast, op_comm]
        exact congrArg _ (pieceValue_group harg.inside)
  · rcases tail with - | ⟨y, tail⟩
    · obtain ⟨front, last, hjoin, hoperands, hoperators⟩ := Sequence.prepend_eq_join
        (QueryPiece.one x.1, x.2) (pre.map fun p ↦ (QueryPiece.one p.1, p.2)) ⟨.group s, []⟩
      have hpre : front.operators ++ [last] = (x :: pre).map Prod.snd := by
        rw [hoperators]
        simp [Function.comp_def]
      obtain ⟨hlast, hothers⟩ := harg.preOk.operators hpre
      have horder := Expr.inOrder_leftNested front.first front.rest
      refine ⟨.join last (.leftNested front.first front.rest) (.leaf (.group s)), ?_,
        fun holds ↦ ?_⟩
      · rw [Expr.inOrder, horder]
        exact hjoin.symm
      · have hfront : front.operands = ((x :: pre).map Prod.fst).map .one := by
          rw [hoperands]
          simp [Function.comp_def]
        rw [Expr.eval, eval_joins (c := arg.combine0) _ (by rw [horder]; exact hothers), horder,
          if_pos (by simp), hlast]
        change arg.groupCombine.op (arg.combine0.Joins _ front.operands) _ = _
        rw [hfront, joins_one, List.map_nil, List.append_nil]
        exact congrArg _ (pieceValue_group harg.inside)
    · have hsame := hone (List.cons_ne_nil _ _) (List.cons_ne_nil _ _)
      have horder := Expr.inOrder_leftNested (groupQuery (x :: pre) s (y :: tail)).first
        (groupQuery (x :: pre) s (y :: tail)).rest
      refine ⟨_, horder, fun holds ↦ ?_⟩
      rw [eval_joins (c := arg.groupCombine) _ (by rw [horder]; exact harg.operators hsame), horder]
      change arg.groupCombine.Joins _ (groupQuery (x :: pre) s (y :: tail)).operands = _
      rw [groupQuery_operands, joins_middle, ← List.map_append, joins_one,
        pieceValue_group harg.inside, hsame, if_pos (by simp)]

end Values

/-! ### Lines that mean what is written -/

/-- There are filters on both sides of the group, and not all combiners of the level are the
same. -/
def Mixed (q : WrittenQuery) : Prop :=
  (∃ piece ∈ q.operands, piece.isGroup = true) ∧ q.first.isGroup = false ∧
    (∀ piece ∈ q.operands.getLast?, piece.isGroup = false) ∧
    ∃ c ∈ q.operators, ∃ d ∈ q.operators, c ≠ d

/-- A line that is a query, so that no combiner is at its end, with texts that fit in the fields,
and not mixed. -/
def SafeLine (input : Text) : Prop :=
  ∃ q, Spells true input (queryItems q) ∧ (∀ t ∈ queryFilters q, t.Fits) ∧ ¬Mixed q

/-- The filters that are joined outside the group have one value, the other filters the other. -/
def Parts (holds : WrittenFilter → Prop) (c0 : QueryCombine) (a g b d : WrittenFilter) : Prop :=
  if c0 = .and then holds b ∧ holds d ∧ ¬holds a ∧ ¬holds g
  else ¬holds b ∧ ¬holds d ∧ holds a ∧ holds g

/-- A mixed query of four filters that no inode of any store tells apart. -/
def Indistinct (q : WrittenQuery) : Prop :=
  ∃ (a g b d : WrittenFilter) (c0 gc : QueryCombine), c0 ≠ gc ∧
    (q = ⟨.one a, [(gc, .group ⟨g, []⟩), (gc, .one b), (c0, .one d)]⟩ ∨
      q = ⟨.one b, [(c0, .one d), (gc, .group ⟨g, []⟩), (gc, .one a)]⟩) ∧
    ∀ lib s inodeId, ¬Parts (WrittenFilter.Holds lib s inodeId) c0 a g b d

/-- The filter of the argument stands for the inodes that the written one stands for. -/
theorem WrittenFilter.Fits.accepts (hfits : t.Fits) (lib : PatternLibrary) (s : MetadataStore)
    (inodeId group : ℕ) :
    (t.inGroup group).Accepts (fun i ↦ ∃ r ∈ s.midxTree.records, r.inodeId = i) (Matched lib s)
      inodeId ↔ t.Holds lib s inodeId := by
  have hfield : (t.inGroup group).toQueryFilter = t.whole.toQueryFilter := hfits.field_eq
  unfold WrittenFilter.Holds GroupedFilter.Accepts
  rw [hfield]
  rfl

theorem carries_map (l : List WrittenFilter) (group : ℕ) :
    List.Forall₂ Carries l (l.map (·.inGroup group)) ↔ ∀ t ∈ l, t.Fits := by
  rw [List.forall₂_map_right_iff, List.forall₂_same]
  exact forall₂_congr fun t _ ↦ carries_inGroup t group

theorem carries_groups (before inside behind : List WrittenFilter) :
    List.Forall₂ Carries (before ++ inside ++ behind)
        (before.map (·.inGroup 0) ++ inside.map (·.inGroup 1) ++ behind.map (·.inGroup 0)) ↔
      ∀ t ∈ before ++ inside ++ behind, t.Fits := by
  let tagged : List (WrittenFilter × ℕ) :=
    before.map (·, 0) ++ inside.map (·, 1) ++ behind.map (·, 0)
  have hleft : before ++ inside ++ behind = tagged.map Prod.fst := by
    simp [tagged, Function.comp_def]
  have hright : before.map (·.inGroup 0) ++ inside.map (·.inGroup 1) ++ behind.map (·.inGroup 0) =
      tagged.map fun p ↦ p.1.inGroup p.2 := by
    simp [tagged, Function.comp_def]
  rw [hright, hleft, List.forall₂_map_left_iff, List.forall₂_map_right_iff, List.forall₂_same,
    List.forall_mem_map]
  exact forall₂_congr fun p _ ↦ carries_inGroup p.1 p.2

/-- The value that the engine computes. -/
theorem mem_answer {lib : PatternLibrary} {faults : QueryFaults} {s : MetadataStore} {ids : List ℕ}
    (hids : queryCollectIds lib faults arg.filters arg.combine0 arg.combine1 arg.groupCombine s =
      .ok ids) (inodeId : ℕ) :
    inodeId ∈ ids ↔ GroupsJoin arg.combine0 arg.combine1 arg.groupCombine
      (GroupedFilter.Accepts (fun i ↦ ∃ r ∈ s.midxTree.records, r.inodeId = i) (Matched lib s)
        inodeId) arg.filters :=
  (queryCollectIds_spec hids).2 inodeId

/-- A query whose filters are carried over and whose value is that of a bracketing. -/
theorem meansWritten_of_value (hspells : Spells true input (queryItems q))
    (hgroups : q.operands.countP QueryPiece.isGroup ≤ 1)
    (hlength : (queryFilters q).length ≤ queryMaxFilters)
    (hcarries : List.Forall₂ Carries (queryFilters q) arg.filters)
    (hfits : ∀ t ∈ queryFilters q, t.Fits)
    (hvalue : ∃ b : Bracketing q, ∀ (accepts : GroupedFilter → Prop) (holds : WrittenFilter → Prop),
      (∀ t ∈ queryFilters q, ∀ group, accepts (t.inGroup group) ↔ holds t) →
      GroupsJoin arg.combine0 arg.combine1 arg.groupCombine accepts arg.filters =
      b.Value holds) : MeansWritten input arg := by
  obtain ⟨b, hb⟩ := hvalue
  refine ⟨q, hspells, hgroups, hlength, hcarries, b, fun lib faults s ids hids inodeId ↦ ?_⟩
  rw [mem_answer hids]
  exact iff_of_eq (hb _ _ fun t ht group ↦ (hfits t ht).accepts lib s inodeId group)

theorem plainQuery_groups (s : FilterSequence) :
    (plainQuery s).operands.countP QueryPiece.isGroup = 0 := by
  rw [plainQuery_operands, List.countP_map]
  exact List.countP_eq_zero.mpr fun t _ ↦ Bool.false_ne_true

theorem groupQuery_groups (pre : List (WrittenFilter × QueryCombine)) (s : FilterSequence)
    (tail : List (QueryCombine × WrittenFilter)) :
    (groupQuery pre s tail).operands.countP QueryPiece.isGroup = 1 := by
  have hnone (l : List WrittenFilter) : (l.map QueryPiece.one).countP QueryPiece.isGroup = 0 := by
    rw [List.countP_map]
    exact List.countP_eq_zero.mpr fun t _ ↦ Bool.false_ne_true
  rw [groupQuery_operands, List.countP_append, List.countP_cons_of_pos rfl, hnone, hnone]

/-- In a mixed query the operator outside the group is not the one between the groups, and there are
two filters on one side, one on the other and one in the group. -/
theorem mixed_shape {pre : List (WrittenFilter × QueryCombine)} {s : FilterSequence}
    {tail : List (QueryCombine × WrittenFilter)} (harg : GroupArg pre s tail arg)
    (hlength : arg.filters.length ≤ queryMaxFilters) (hpre : pre ≠ []) (htail : tail ≠ [])
    (hmixed : arg.combine0 ≠ arg.groupCombine) :
    ∃ a g b d, s = ⟨g, []⟩ ∧
      (pre = [(a, arg.groupCombine)] ∧ tail = [(arg.groupCombine, b), (arg.combine0, d)] ∨
        pre = [(b, arg.combine0), (d, arg.groupCombine)] ∧ tail = [(arg.groupCombine, a)]) := by
  have hcount : pre.length + s.rest.length + tail.length ≤ 3 := by
    have hfour : queryMaxFilters = 4 := rfl
    rw [harg.filters, hfour] at hlength
    simp only [Sequence.operands, List.length_append, List.length_map, List.length_cons] at hlength
    omega
  obtain ⟨g, rest⟩ := s
  obtain ⟨hpreOk, -, htailOk, -, hdefault⟩ := harg
  rcases pre with _ | ⟨⟨a, c⟩, _ | ⟨⟨d, c'⟩, pre⟩⟩
  · exact absurd rfl hpre
  · rcases tail with _ | ⟨⟨c', b⟩, _ | ⟨⟨d', d⟩, tail⟩⟩
    · exact absurd rfl htail
    · exact absurd (hdefault le_rfl le_rfl) hmixed
    · simp only [List.length_cons, List.length_nil] at hcount
      obtain rfl : rest = [] := List.length_eq_zero_iff.mp (by omega)
      obtain rfl : tail = [] := List.length_eq_zero_iff.mp (by omega)
      obtain rfl : c = arg.groupCombine := hpreOk
      obtain ⟨rfl, hothers⟩ := htailOk
      obtain rfl : d' = arg.combine0 := hothers (d', d) List.mem_cons_self
      exact ⟨a, g, b, d, rfl, Or.inl ⟨rfl, rfl⟩⟩
  · rcases tail with _ | ⟨⟨e, b⟩, tail⟩
    · exact absurd rfl htail
    simp only [List.length_cons] at hcount
    obtain rfl : rest = [] := List.length_eq_zero_iff.mp (by omega)
    obtain rfl : pre = [] := List.length_eq_zero_iff.mp (by omega)
    obtain rfl : tail = [] := List.length_eq_zero_iff.mp (by omega)
    obtain ⟨rfl, rfl⟩ := hpreOk
    obtain rfl : e = arg.groupCombine := htailOk.1
    exact ⟨b, g, a, d, rfl, Or.inr ⟨rfl, rfl⟩⟩

theorem absorbs_or : Expr.Absorbs QueryCombine.op True .or := fun x ↦ ⟨or_true x, true_or x⟩

theorem keeps_and : Expr.Keeps QueryCombine.op True .and := and_self True

theorem absorbs_and : Expr.Absorbs QueryCombine.op False .and :=
  fun x ↦ ⟨and_false x, false_and x⟩

theorem keeps_or : Expr.Keeps QueryCombine.op False .or := or_self False

/-- Every bracketing of a mixed query has the value of the filters that are joined outside, if the
operator between the groups lets it through. -/
theorem mixed_value (bracket : Bracketing q) {t : Prop}
    (hq : q = ⟨.one a, [(gc, .group ⟨g, []⟩), (gc, .one b), (c0, .one d)]⟩ ∨
      q = ⟨.one b, [(c0, .one d), (gc, .group ⟨g, []⟩), (gc, .one a)]⟩)
    (habsorbs : Expr.Absorbs QueryCombine.op t gc) (hkeeps : Expr.Keeps QueryCombine.op t c0)
    (hb : holds b = t) (hd : holds d = t) : bracket.Value holds = t := by
  have hone (u : WrittenFilter) (hu : .one u ∈ q.operands) :
      (bracket.inner (.one u)).eval QueryCombine.op holds = holds u := by
    rw [Expr.eq_leaf (bracket.inner_inOrder (.one u) hu)]
    rfl
  rcases hq with rfl | rfl
  · have hb' := (hone b (by simp [Sequence.operands])).trans hb
    have hd' := (hone d (by simp [Sequence.operands])).trans hd
    have horder : bracket.outer.inOrder =
        ⟨.one a, [(gc, .group ⟨g, []⟩)] ++ (gc, .one b) :: [(c0, .one d)]⟩ := bracket.outer_inOrder
    exact Expr.eval_suffix bracket.outer horder (List.forall_mem_singleton.mpr habsorbs) habsorbs
      hb' (List.forall_mem_singleton.mpr ⟨hkeeps, hd'⟩)
  · have hb' := (hone b (by simp [Sequence.operands])).trans hb
    have hd' := (hone d (by simp [Sequence.operands])).trans hd
    have horder : bracket.outer.inOrder =
        ⟨.one b, [(c0, .one d)] ++ (gc, .group ⟨g, []⟩) :: [(gc, .one a)]⟩ := bracket.outer_inOrder
    exact Expr.eval_prefix bracket.outer horder hb' (List.forall_mem_singleton.mpr ⟨hkeeps, hd'⟩)
      habsorbs (List.forall_mem_singleton.mpr habsorbs)

/-- A value that parts the filters of a mixed query is not that of any bracketing. -/
theorem parts_contradiction (c1 : QueryCombine) (bracket : Bracketing q) (hmixed : c0 ≠ gc)
    (hq : q = ⟨.one a, [(gc, .group ⟨g, []⟩), (gc, .one b), (c0, .one d)]⟩ ∨
      q = ⟨.one b, [(c0, .one d), (gc, .group ⟨g, []⟩), (gc, .one a)]⟩)
    (hparts : Parts holds c0 a g b d) {l : List WrittenFilter}
    (hl : ∀ t, t ∈ l ↔ t = a ∨ t = b ∨ t = d) :
    ¬(gc.op (c0.Joins holds l) (c1.Joins holds [g]) ↔ bracket.Value holds) := by
  rw [joins_singleton]
  cases c0 with
  | and =>
    obtain rfl : gc = .or := by
      cases gc with
      | and => exact absurd rfl hmixed
      | or => rfl
    obtain ⟨hb, hd, ha, hg⟩ : holds b ∧ holds d ∧ ¬holds a ∧ ¬holds g := hparts
    rw [mixed_value bracket hq absorbs_or keeps_and (eq_true hb) (eq_true hd)]
    intro hsame
    rcases hsame.mpr trivial with hall | hgroup
    · exact ha (hall a ((hl a).mpr (Or.inl rfl)))
    · exact hg hgroup
  | or =>
    obtain rfl : gc = .and := by
      cases gc with
      | and => rfl
      | or => exact absurd rfl hmixed
    obtain ⟨hb, hd, ha, hg⟩ : ¬holds b ∧ ¬holds d ∧ holds a ∧ holds g := hparts
    rw [mixed_value bracket hq absorbs_and keeps_or (eq_false hb) (eq_false hd)]
    intro hsame
    exact hsame.mp ⟨⟨a, (hl a).mpr (Or.inl rfl), ha⟩, hg⟩

/-- What an accepted line means. If it is a query whose texts fit and that is not mixed, the
argument means what is written. And if it means that, the line is a query whose texts fit, and it
is not mixed but for filters that no inode tells apart. -/
theorem parseQuery_means {input : Text} {arg : QueryArg} (hparse : parseQuery input = some arg) :
    (SafeLine input → MeansWritten input arg) ∧
      (MeansWritten input arg → ∃ q, Spells true input (queryItems q) ∧
        (∀ t ∈ queryFilters q, t.Fits) ∧ (Mixed q → Indistinct q)) := by
  obtain ⟨hne, hlength⟩ := parseLoop_length hparse
  have hmax : arg.filters.length ≤ queryMaxFilters := hlength.trans_eq (Nat.zero_add _)
  rcases parseQuery_some hparse with ⟨items, hitems, hdangling⟩ | ⟨s, hs, hoperators, hfilters⟩ |
    ⟨pre, s, tail, hs, harg⟩
  · have hnot (q : WrittenQuery) (hq : Spells true input (queryItems q)) : False :=
      queryItems_not_dangling q (hq.unique hitems ▸ hdangling)
    constructor
    · rintro ⟨q, hq, -⟩
      exact (hnot q hq).elim
    · rintro ⟨q, hq, -⟩
      exact (hnot q hq).elim
  · have hcarries : List.Forall₂ Carries (queryFilters (plainQuery s)) arg.filters ↔
        ∀ t ∈ queryFilters (plainQuery s), t.Fits := by
      rw [hfilters, plainQuery_filters]
      exact carries_map s.operands 0
    constructor
    · rintro ⟨q, hq, hfits, -⟩
      obtain rfl := queryItems_inj (hq.unique hs)
      refine meansWritten_of_value hs ((plainQuery_groups s).le.trans (Nat.zero_le 1)) ?_
        (hcarries.mpr hfits) hfits (plain_value hoperators hfilters)
      exact (hcarries.mpr hfits).length_eq.trans_le hmax
    · rintro ⟨q, hq, -, -, hforall, -⟩
      obtain rfl := queryItems_inj (hq.unique hs)
      refine ⟨_, hs, hcarries.mp hforall, ?_⟩
      rintro ⟨⟨piece, hpiece, hgroup⟩, -⟩
      exact absurd hgroup (List.countP_eq_zero.mp (plainQuery_groups s) piece hpiece)
  · have hcarries : List.Forall₂ Carries (queryFilters (groupQuery pre s tail)) arg.filters ↔
        ∀ t ∈ queryFilters (groupQuery pre s tail), t.Fits := by
      rw [harg.filters, groupQuery_filters]
      exact carries_groups _ _ _
    constructor
    · rintro ⟨q, hq, hfits, hmixed⟩
      obtain rfl := queryItems_inj (hq.unique hs)
      refine meansWritten_of_value hs (groupQuery_groups pre s tail).le ?_ (hcarries.mpr hfits)
        hfits (group_value harg ?_)
      · exact (hcarries.mpr hfits).length_eq.trans_le hmax
      · intro hpre htail
        by_contra hdiffer
        refine hmixed ?_
        obtain ⟨a, g, b, d, rfl, ⟨rfl, rfl⟩ | ⟨rfl, rfl⟩⟩ :=
          mixed_shape harg hmax hpre htail hdiffer
        · exact ⟨⟨.group ⟨g, []⟩, by simp [groupQuery_operands], rfl⟩, rfl,
            fun piece hlast ↦ by cases hlast; rfl,
            arg.combine0, by simp [groupQuery_operators], arg.groupCombine,
            by simp [groupQuery_operators], hdiffer⟩
        · exact ⟨⟨.group ⟨g, []⟩, by simp [groupQuery_operands], rfl⟩, rfl,
            fun piece hlast ↦ by cases hlast; rfl,
            arg.combine0, by simp [groupQuery_operators], arg.groupCombine,
            by simp [groupQuery_operators], hdiffer⟩
    · rintro ⟨q, hq, -, -, hforall, bracket, hb⟩
      obtain rfl := queryItems_inj (hq.unique hs)
      have hfits := hcarries.mp hforall
      refine ⟨_, hs, hfits, ?_⟩
      rintro ⟨-, hfirst, hlast, c, hc, d, hd, hcd⟩
      have hdiffer : arg.combine0 ≠ arg.groupCombine := fun hone ↦
        hcd ((harg.operators hone c hc).trans (harg.operators hone d hd).symm)
      have hpre : pre ≠ [] := by
        rintro rfl
        cases hfirst
      have htail : tail ≠ [] := by
        rintro rfl
        rw [groupQuery_operands] at hlast
        exact Bool.noConfusion (hlast (.group s) (by simp))
      have hnotParts {a g b d : WrittenFilter}
          (hshape : groupQuery pre s tail = ⟨.one a, [(arg.groupCombine, .group ⟨g, []⟩),
              (arg.groupCombine, .one b), (arg.combine0, .one d)]⟩ ∨
            groupQuery pre s tail = ⟨.one b, [(arg.combine0, .one d),
              (arg.groupCombine, .group ⟨g, []⟩), (arg.groupCombine, .one a)]⟩)
          (hl : ∀ t, t ∈ pre.map Prod.fst ++ tail.map Prod.snd ↔ t = a ∨ t = b ∨ t = d)
          (hs : s = ⟨g, []⟩) (lib : PatternLibrary) (store : MetadataStore) (inodeId : ℕ) :
          ¬Parts (WrittenFilter.Holds lib store inodeId) arg.combine0 a g b d := by
        intro hparts
        obtain ⟨ids, hids⟩ := queryCollectIds_returns lib store hne hmax arg.combine0 arg.combine1
          arg.groupCombine
        refine parts_contradiction arg.combine1 bracket hdiffer hshape hparts hl ?_
        rw [← hb lib .none store ids hids inodeId, mem_answer hids, harg.filters,
          groupsJoin_group s.operands_ne_nil fun t ht group ↦
            (hfits t (by rwa [groupQuery_filters])).accepts lib store inodeId group,
          if_pos (by simp [hpre]), hs]
        rfl
      obtain ⟨a, g, b', d', hs, ⟨hpre', htail'⟩ | ⟨hpre', htail'⟩⟩ :=
        mixed_shape harg hmax hpre htail hdiffer
      · have hshape : groupQuery pre s tail = ⟨.one a, [(arg.groupCombine, .group ⟨g, []⟩),
            (arg.groupCombine, .one b'), (arg.combine0, .one d')]⟩ := by
          rw [hs, hpre', htail']
          rfl
        refine ⟨a, g, b', d', arg.combine0, arg.groupCombine, hdiffer, Or.inl hshape,
          hnotParts (Or.inl hshape) ?_ hs⟩
        rw [hpre', htail']
        simp
      · have hshape : groupQuery pre s tail = ⟨.one b', [(arg.combine0, .one d'),
            (arg.groupCombine, .group ⟨g, []⟩), (arg.groupCombine, .one a)]⟩ := by
          rw [hs, hpre', htail']
          rfl
        refine ⟨a, g, b', d', arg.combine0, arg.groupCombine, hdiffer, Or.inr hshape,
          hnotParts (Or.inr hshape) ?_ hs⟩
        rw [hpre', htail']
        simp
        tauto

/-- The line `a EXISTS`. -/
def existsLine : Text := codes ['a', ' ', 'E', 'X', 'I', 'S', 'T', 'S']

/-- It means what is written. -/
theorem parseQuery_means_exists :
    MeansWritten existsLine ⟨[⟨⟨[97], [], .exists⟩, false, 0⟩], .and, .and, .and⟩ := by
  have hparse : parseQuery existsLine =
      some ⟨[⟨⟨[97], [], .exists⟩, false, 0⟩], .and, .and, .and⟩ := by decide
  have hread : readFilter (skipWs existsLine) = some (⟨false, [97], .exists, []⟩, []) := by decide
  refine (parseQuery_means hparse).1 ⟨plainQuery ⟨⟨false, [97], .exists, []⟩, []⟩,
    .filter hread (.over rfl), ?_, ?_⟩
  · intro t ht
    rw [plainQuery_filters] at ht
    rw [List.mem_singleton.mp ht]
    exact ⟨by decide, trivial⟩
  · rintro ⟨⟨piece, hpiece, hgroup⟩, -⟩
    exact absurd hgroup (List.countP_eq_zero.mp (plainQuery_groups _) piece hpiece)

/-- A line with a combiner at its end is accepted, and it is not a query. -/
theorem parseQuery_dangling : parseQuery (existsLine ++ codes [' ', 'A', 'N', 'D']) =
        some ⟨[⟨⟨[97], [], .exists⟩, false, 0⟩], .and, .and, .and⟩ ∧
      ¬MeansWritten (existsLine ++ codes [' ', 'A', 'N', 'D'])
        ⟨[⟨⟨[97], [], .exists⟩, false, 0⟩], .and, .and, .and⟩ := by
  refine ⟨by decide, ?_⟩
  rintro ⟨q, hq, -⟩
  have hread : readFilter (skipWs (existsLine ++ codes [' ', 'A', 'N', 'D'])) =
      some (⟨false, [97], .exists, []⟩, codes [' ', 'A', 'N', 'D']) := by decide
  have hword : readCombiner (skipWs (codes [' ', 'A', 'N', 'D'])) = some (.and, []) := by decide
  have hitems : Spells true (existsLine ++ codes [' ', 'A', 'N', 'D'])
      [.filter ⟨false, [97], .exists, []⟩, .combiner .and] :=
    .filter hread (.combiner hword (.over rfl))
  exact queryItems_not_dangling q (hq.unique hitems ▸ Or.inr ⟨[_], _, rfl⟩)

end Obmafs3
