import Obmafs3.Metadata.QueryMeaning
import Mathlib.Data.List.DropRight

/-!
# The queries that are accepted

Up to the end of a line the parser is outside the parentheses with none behind it, inside them, or
behind them. From each of these on, what it accepts is of one shape: filters with combiners, where
those of one kind are all the operator that the argument has for the kind. The only exception is a
line that ends with a combiner.
-/

set_option autoImplicit false

namespace Obmafs3

open Library.Bracketing

/-! ### One round of the parser -/

/-- A filter in a group of the argument. -/
def WrittenFilter.inGroup (group : ℕ) (t : WrittenFilter) : GroupedFilter :=
  ⟨t.field, t.negate, group⟩

/-- A filter with the parentheses next to it. -/
def segment (opens closes : Bool) (t : WrittenFilter) : List QueryItem :=
  (if opens then [.opening] else []) ++ .filter t :: (if closes then [.closing] else [])

/-- The state behind a filter with the parentheses next to it. -/
def ParserState.after (st : ParserState) (opens closes : Bool) (t : WrittenFilter) : ParserState :=
  { st with
    filters := st.filters ++ [t.inGroup (if st.inParens || opens then 1 else 0)]
    inParens := (st.inParens || opens) && !closes
    haveParens := st.haveParens || opens }

variable {items : List QueryItem} {st st' : ParserState} {arg : QueryArg} {p : Text}

/-- What a round does at an opening parenthesis. -/
theorem openParen_some {p next : Text} (hopen : openParen st (skipWs p) = some (st', next)) :
    ∃ opens : Bool,
      (∀ t rest items, readFilter next = some (t, rest) → Spells false rest items →
        Spells true p ((if opens then [.opening] else []) ++ .filter t :: items)) ∧
      (opens = true → st.inParens = false ∧ st.haveParens = false) ∧
      st' = { st with
        inParens := st.inParens || opens
        haveParens := st.haveParens || opens } := by
  unfold openParen at hopen
  split_ifs at hopen with hparen htwice
  · obtain ⟨rfl, rfl⟩ := Prod.mk.inj (Option.some.inj hopen)
    obtain ⟨hin, hhave⟩ := not_or.mp htwice
    refine ⟨true, fun t rest items hread hrest ↦ .opening hparen (.filter hread hrest),
      fun _ ↦ ⟨Bool.eq_false_of_not_eq_true hin, Bool.eq_false_of_not_eq_true hhave⟩, ?_⟩
    simp
  · obtain ⟨rfl, rfl⟩ := Prod.mk.inj (Option.some.inj hopen)
    refine ⟨false, fun t rest items hread hrest ↦ .filter hread hrest, nofun, ?_⟩
    simp

/-- What a round does at a closing parenthesis. -/
theorem closeParen_some {p next : Text} {closes : Bool}
    (hclose : closeParen st (skipWs p) = some (st', closes, next)) :
    (∃ rest, next = skipWs rest ∧ ∀ items, Spells false rest items →
        Spells false p ((if closes then [.closing] else []) ++ items)) ∧
      (closes = true → st.inParens = true) ∧
      st' = { st with inParens := st.inParens && !closes } := by
  unfold closeParen at hclose
  split_ifs at hclose with hparen hin
  · obtain ⟨rfl, hnext⟩ := Prod.mk.inj (Option.some.inj hclose)
    obtain ⟨rfl, rfl⟩ := Prod.mk.inj hnext
    exact ⟨⟨_, rfl, fun items hrest ↦ .closing hparen hrest⟩, fun _ ↦ hin, by simp⟩
  · obtain ⟨rfl, hnext⟩ := Prod.mk.inj (Option.some.inj hclose)
    obtain ⟨rfl, rfl⟩ := Prod.mk.inj hnext
    exact ⟨⟨p, rfl, fun items hrest ↦ hrest⟩, nofun, by simp⟩

variable {c : QueryCombine} {room : ℕ}

/-- What a round of the parser can do: it is at the end, or it reads a filter with parentheses next
to it, and then it is at the end or reads a combiner. -/
theorem parseLoop_step {st : ParserState} (hparse : parseLoop (room + 1) st p = some arg) :
    (skipWs p = [] ∧ st.filters ≠ [] ∧ finishQuery st = some arg) ∨
      ∃ (opens closes : Bool) (t : WrittenFilter) (rest : Text),
        (∀ items, Spells false rest items → Spells true p (segment opens closes t ++ items)) ∧
        (opens = true → st.inParens = false ∧ st.haveParens = false) ∧
        (closes = true → (st.inParens || opens) = true) ∧
        ((skipWs rest = [] ∧ finishQuery (st.after opens closes t) = some arg) ∨
          ∃ c next st', readCombiner (skipWs rest) = some (c, next) ∧
            classifyCombine closes ((skipWs next).head? = some 40) c (st.after opens closes t) =
              some st' ∧ parseLoop room st' next = some arg) := by
  rw [parseLoop] at hparse
  dsimp only at hparse
  split_ifs at hparse with hend hfilters
  · exact Or.inl ⟨hend, hfilters, hparse⟩
  · refine Or.inr ?_
    rcases hopen : openParen st (skipWs p) with - | ⟨opened, next⟩
    · rw [hopen] at hparse
      cases hparse
    · rw [hopen] at hparse
      dsimp only at hparse
      obtain ⟨opens, hspells, hlegal, rfl⟩ := openParen_some hopen
      rw [parseOneFilter_eq] at hparse
      rcases hread : readFilter next with - | ⟨t, behind⟩
      · rw [hread] at hparse
        cases hparse
      · rw [hread] at hparse
        dsimp only [Option.map_some] at hparse
        rw [← readFilter_negate hread] at hparse
        rcases hclose : closeParen _ (skipWs behind) with - | ⟨closed, closes, last⟩
        · rw [hclose] at hparse
          cases hparse
        · rw [hclose] at hparse
          dsimp only at hparse
          obtain ⟨⟨rest, rfl, hclosing⟩, hin, rfl⟩ := closeParen_some hclose
          refine ⟨opens, closes, t, rest, fun items hitems ↦ ?_, hlegal, hin, ?_⟩
          · have hall := hspells t behind _ hread (hclosing items hitems)
            simpa [segment] using hall
          · by_cases hover : skipWs rest = []
            · rw [if_pos hover] at hparse
              exact Or.inl ⟨hover, hparse⟩
            · rw [if_neg hover] at hparse
              rcases hword : readCombiner (skipWs rest) with - | ⟨c, next⟩
              · rw [hword] at hparse
                cases hparse
              · rw [hword] at hparse
                dsimp only at hparse
                split at hparse
                · cases hparse
                · rename_i st' hclass
                  exact Or.inr ⟨c, next, st', rfl, hclass, hparse⟩

/-! ### The operators of the argument -/

/-- The operators that are set are those of the argument. -/
structure Extends (st : ParserState) (arg : QueryArg) : Prop where
  combine0 : ∀ c, st.combine0 = some c → arg.combine0 = c
  combine1 : ∀ c, st.combine1 = some c → arg.combine1 = c
  groupCombine : ∀ c, st.groupCombine = some c → arg.groupCombine = c

theorem setCombine_some {old new : Option QueryCombine} (hset : setCombine old c = some new) :
    new = some c ∧ ∀ d, old = some d → d = c := by
  unfold setCombine at hset
  split_ifs at hset with hsame
  refine ⟨(Option.some.inj hset).symm, fun d hd ↦ ?_⟩
  rcases hsame with hnone | hsome
  · rw [hnone] at hd
    cases hd
  · exact Option.some.inj (hd.symm.trans hsome)

/-- What a combiner changes: it becomes the operator of its kind. -/
theorem classifyCombine_some {prevClose nextIsOpen : Bool}
    (hclass : classifyCombine prevClose nextIsOpen c st = some st') (arg : QueryArg)
    (hextends : Extends st' arg) :
    Extends st arg ∧ st'.filters = st.filters ∧ st'.inParens = st.inParens ∧
      st'.haveParens = st.haveParens ∧
      ((prevClose || nextIsOpen) = true → arg.groupCombine = c ∧ st'.combine0 = st.combine0) ∧
      ((prevClose || nextIsOpen) = false → st.inParens = true →
        arg.combine1 = c ∧ st'.combine0 = st.combine0) ∧
      ((prevClose || nextIsOpen) = false → st.inParens = false → arg.combine0 = c) := by
  unfold classifyCombine at hclass
  split_ifs at hclass with hgroup hin
  · obtain ⟨new, hnew, rfl⟩ := Option.map_eq_some_iff.mp hclass
    obtain ⟨rfl, hold⟩ := setCombine_some hnew
    have hc : arg.groupCombine = c := hextends.groupCombine c rfl
    refine ⟨⟨hextends.combine0, hextends.combine1, fun d hd ↦ hold d hd ▸ hc⟩, rfl, rfl, rfl,
      fun _ ↦ ⟨hc, rfl⟩, ?_, ?_⟩
    · intro hfalse
      simp_all
    · intro hfalse
      simp_all
  · obtain ⟨new, hnew, rfl⟩ := Option.map_eq_some_iff.mp hclass
    obtain ⟨rfl, hold⟩ := setCombine_some hnew
    have hc : arg.combine1 = c := hextends.combine1 c rfl
    refine ⟨⟨hextends.combine0, fun d hd ↦ hold d hd ▸ hc, hextends.groupCombine⟩, rfl, rfl, rfl,
      ?_, fun _ _ ↦ ⟨hc, rfl⟩, ?_⟩
    · intro htrue
      simp_all
    · intro _ hfalse
      simp_all
  · obtain ⟨new, hnew, rfl⟩ := Option.map_eq_some_iff.mp hclass
    obtain ⟨rfl, hold⟩ := setCombine_some hnew
    have hc : arg.combine0 = c := hextends.combine0 c rfl
    refine ⟨⟨fun d hd ↦ hold d hd ▸ hc, hextends.combine1, hextends.groupCombine⟩, rfl, rfl, rfl,
      ?_, ?_, fun _ _ ↦ hc⟩
    · intro htrue
      simp_all
    · intro _ htrue
      simp_all

/-- What the argument is made of at the end. -/
theorem finishQuery_some {st : ParserState} (hfinish : finishQuery st = some arg) :
    Extends st arg ∧ st.inParens = false ∧ arg.filters = st.filters ∧
      (st.combine0 = none → arg.combine0 = arg.groupCombine) := by
  unfold finishQuery at hfinish
  split_ifs at hfinish with hin
  obtain rfl := Option.some.inj hfinish
  refine ⟨⟨fun c hc ↦ ?_, fun c hc ↦ ?_, fun c hc ↦ ?_⟩, Bool.eq_false_of_not_eq_true hin, rfl,
    fun hnone ↦ ?_⟩
  · rw [hc, Option.getD_some]
  · rw [hc, Option.getD_some]
  · rw [hc, Option.getD_some]
  · rw [hnone, Option.getD_none]

theorem parseLoop_extends {st : ParserState} (hparse : parseLoop room st p = some arg) :
    Extends st arg := by
  induction room generalizing st p with
  | zero => cases hparse
  | succ room ih =>
    rcases parseLoop_step hparse with ⟨-, -, hfinish⟩ |
      ⟨opens, closes, t, rest, -, -, -, ⟨-, hfinish⟩ | ⟨c, next, st', -, hclass, hnext⟩⟩
    · exact (finishQuery_some hfinish).1
    · obtain ⟨h0, h1, hg⟩ := (finishQuery_some hfinish).1
      exact ⟨h0, h1, hg⟩
    · obtain ⟨h0, h1, hg⟩ := (classifyCombine_some hclass arg (ih hnext)).1
      exact ⟨h0, h1, hg⟩

/-! ### The shapes -/

/-- There is nothing, or a combiner at the end. -/
def Dangling (items : List QueryItem) : Prop :=
  items = [] ∨ ∃ front c, items = front ++ [.combiner c]

/-- Filters behind the group, each with the combiner in front of it. -/
def tailItems (tail : List (QueryCombine × WrittenFilter)) : List QueryItem :=
  tail.flatMap fun p ↦ [.combiner p.1, .filter p.2]

/-- Filters before the group, each with the combiner behind it. -/
def preItems (pre : List (WrittenFilter × QueryCombine)) : List QueryItem :=
  pre.flatMap fun p ↦ [.filter p.1, .combiner p.2]

/-- The first combiner behind the group is the one between the groups, the others are outside. -/
def TailOk (arg : QueryArg) : List (QueryCombine × WrittenFilter) → Prop
  | [] => True
  | p :: tail => p.1 = arg.groupCombine ∧ ∀ q ∈ tail, q.1 = arg.combine0

/-- The last combiner before the group is the one between the groups, the others are outside. -/
def PreOk (arg : QueryArg) : List (WrittenFilter × QueryCombine) → Prop
  | [] => True
  | [p] => p.2 = arg.groupCombine
  | p :: q :: pre => p.2 = arg.combine0 ∧ PreOk arg (q :: pre)

theorem Dangling.cons (hdangling : Dangling items) (front : List QueryItem) (c : QueryCombine) :
    Dangling (front ++ .combiner c :: items) := by
  rcases hdangling with rfl | ⟨more, d, rfl⟩
  · exact Or.inr ⟨front, c, rfl⟩
  · exact Or.inr ⟨front ++ .combiner c :: more, d, by simp⟩

/-- Where a filter comes first there is no parenthesis. -/
theorem Spells.filter_head {t : WrittenFilter} (h : Spells true p (.filter t :: items)) :
    decide ((skipWs p).head? = some 40) = false := by
  cases h with
  | filter hread _ =>
    refine decide_eq_false fun hparen ↦ ?_
    rw [readFilter_paren hparen] at hread
    cases hread

theorem Spells.opening_head (h : Spells true p (.opening :: items)) :
    decide ((skipWs p).head? = some 40) = true := by
  cases h with
  | opening hparen _ => exact decide_eq_true hparen

/-- The state behind a filter without parentheses. -/
theorem after_plain (st : ParserState) (t : WrittenFilter) : st.after false false t =
      { st with filters := st.filters ++ [t.inGroup (if st.inParens then 1 else 0)] } := by
  simp [ParserState.after]

section Shapes

variable {arg : QueryArg}

/-- What is accepted behind the group. -/
def BehindGroup (arg : QueryArg) (st : ParserState) (p : Text) : Prop :=
  (∃ items, Spells true p items ∧ Dangling items) ∨
    ∃ s : FilterSequence, Spells true p (sequenceItems s) ∧ (∀ c ∈ s.operators, c = arg.combine0) ∧
      arg.filters = st.filters ++ s.operands.map (·.inGroup 0) ∧
      (s.operators = [] → st.combine0 = none → arg.combine0 = arg.groupCombine)

variable {room : ℕ}

theorem behindGroup {st : ParserState} {p : Text} (hparse : parseLoop room st p = some arg)
    (hin : st.inParens = false) (hhave : st.haveParens = true) : BehindGroup arg st p := by
  induction room generalizing st p with
  | zero => cases hparse
  | succ room ih =>
    rcases parseLoop_step hparse with ⟨hover, -, -⟩ |
      ⟨opens, closes, t, rest, hspells, hlegal, hclose, hnext⟩
    · exact Or.inl ⟨[], .over hover, Or.inl rfl⟩
    · obtain rfl : opens = false := Bool.eq_false_of_not_eq_true fun hopen ↦ by
        rw [(hlegal hopen).2] at hhave
        cases hhave
      obtain rfl : closes = false := Bool.eq_false_of_not_eq_true fun hclosed ↦ by
        have hinside := hclose hclosed
        rw [hin] at hinside
        cases hinside
      rw [after_plain, hin] at hnext
      rcases hnext with ⟨hover, hfinish⟩ | ⟨c, next, st', hread, hclass, hnext⟩
      · obtain ⟨-, -, hfilters, hdefault⟩ := finishQuery_some hfinish
        exact Or.inr ⟨⟨t, []⟩, hspells [] (.over hover), fun c hc ↦ absurd hc List.not_mem_nil,
          hfilters, fun _ ↦ hdefault⟩
      · obtain ⟨-, hfilters, hin', hhave', -, -, houtside⟩ :=
          classifyCombine_some hclass arg (parseLoop_extends hnext)
        rcases ih hnext hin' (hhave'.trans hhave) with
          ⟨items, hitems, hdangling⟩ | ⟨s, hs, hoperators, harg, -⟩
        · exact Or.inl ⟨_, hspells _ (.combiner hread hitems), hdangling.cons _ c⟩
        · have hc : arg.combine0 = c := houtside (by rw [hs.filter_head]; rfl) rfl
          refine Or.inr ⟨⟨t, (c, s.first) :: s.rest⟩, hspells _ (.combiner hread hs), ?_, ?_, nofun⟩
          · exact List.forall_mem_cons.mpr ⟨hc.symm, hoperators⟩
          · rw [harg, hfilters, List.append_assoc]
            rfl

/-- What is accepted inside the parentheses, behind what is written in front of it. -/
def InsideGroup (arg : QueryArg) (st : ParserState) (p : Text) (front : List QueryItem) : Prop :=
  (∃ items, Spells true p items ∧ Dangling items) ∨
    ∃ (s : FilterSequence) (tail : List (QueryCombine × WrittenFilter)),
      Spells true p (front ++ (sequenceItems s ++ .closing :: tailItems tail)) ∧
      (∀ c ∈ s.operators, c = arg.combine1) ∧ TailOk arg tail ∧
      arg.filters = st.filters ++ s.operands.map (·.inGroup 1) ++
        (tail.map Prod.snd).map (·.inGroup 0) ∧
      (tail.length ≤ 1 → st.combine0 = none → arg.combine0 = arg.groupCombine)

/-- What is accepted from a filter inside the parentheses on, if that is known for the next. -/
theorem insideGroup_step {st : ParserState} {p rest : Text} {opens closes : Bool}
    {t : WrittenFilter}
    (ih : ∀ st p, parseLoop room st p = some arg → st.inParens = true → st.haveParens = true →
      InsideGroup arg st p [])
    (hspells : ∀ items, Spells false rest items → Spells true p (segment opens closes t ++ items))
    (hin : (st.inParens || opens) = true) (hhave : (st.haveParens || opens) = true)
    (hnext : (skipWs rest = [] ∧ finishQuery (st.after opens closes t) = some arg) ∨
      ∃ c next st', readCombiner (skipWs rest) = some (c, next) ∧
      classifyCombine closes ((skipWs next).head? = some 40) c (st.after opens closes t) =
      some st' ∧ parseLoop room st' next = some arg) :
    InsideGroup arg st p (if opens then [.opening] else []) := by
  have hafter : (st.after opens closes t).inParens = !closes := by
    simp [ParserState.after, hin]
  have hgroup : (st.after opens closes t).filters = st.filters ++ [t.inGroup 1] := by
    simp [ParserState.after, hin]
  have hspells' (items : List QueryItem) (hitems : Spells false rest items) :
      Spells true p ((if opens then [.opening] else []) ++
        (.filter t :: ((if closes then [.closing] else []) ++ items))) := by
    simpa [segment] using hspells items hitems
  cases closes with
  | true =>
    rcases hnext with ⟨hover, hfinish⟩ | ⟨c, next, st', hread, hclass, hnext⟩
    · obtain ⟨-, -, hfilters, hdefault⟩ := finishQuery_some hfinish
      refine Or.inr ⟨⟨t, []⟩, [], hspells' [] (.over hover), fun c hc ↦ absurd hc List.not_mem_nil,
        trivial, ?_, fun _ ↦ hdefault⟩
      rw [hfilters, hgroup]
      simp [Sequence.operands]
    · obtain ⟨-, hfilters, hin', hhave', hgroupc, -, -⟩ :=
        classifyCombine_some hclass arg (parseLoop_extends hnext)
      obtain ⟨hc, hcombine0⟩ := hgroupc rfl
      rcases behindGroup hnext (hin'.trans hafter) (hhave'.trans hhave) with
        ⟨items, hitems, hdangling⟩ | ⟨s, hs, hoperators, harg, hdefault⟩
      · refine Or.inl ⟨_, hspells' _ (.combiner hread hitems), ?_⟩
        have hlast := hdangling.cons ((if opens then [.opening] else []) ++ [.filter t, .closing]) c
        simpa using hlast
      · refine Or.inr ⟨⟨t, []⟩, (c, s.first) :: s.rest, ?_, fun c hc ↦ absurd hc List.not_mem_nil,
          ⟨hc.symm, fun q hq ↦ hoperators q.1 (List.mem_map_of_mem hq)⟩, ?_, fun hshort hnone ↦ ?_⟩
        · exact hspells' _ (.combiner hread hs)
        · rw [harg, hfilters, hgroup]
          simp [Sequence.operands]
        · have hrest : s.rest = [] := List.length_eq_zero_iff.mp (Nat.le_zero.mp (by
            simpa using hshort))
          exact hdefault (by rw [Sequence.operators, hrest]; rfl) (hcombine0.trans hnone)
  | false =>
    rcases hnext with ⟨hover, hfinish⟩ | ⟨c, next, st', hread, hclass, hnext⟩
    · obtain ⟨-, hclosed, -, -⟩ := finishQuery_some hfinish
      rw [hafter] at hclosed
      cases hclosed
    · obtain ⟨-, hfilters, hin', hhave', -, hinside, -⟩ :=
        classifyCombine_some hclass arg (parseLoop_extends hnext)
      rcases ih st' next hnext (hin'.trans hafter) (hhave'.trans hhave) with
        ⟨items, hitems, hdangling⟩ | ⟨s, tail, hs, hoperators, htail, harg, hdefault⟩
      · refine Or.inl ⟨_, hspells' _ (.combiner hread hitems), ?_⟩
        have hlast := hdangling.cons ((if opens then [.opening] else []) ++ [.filter t]) c
        simpa using hlast
      · obtain ⟨hc, hcombine0⟩ := hinside (by rw [Spells.filter_head hs]; rfl) hafter
        refine Or.inr ⟨⟨t, (c, s.first) :: s.rest⟩, tail, ?_, ?_, htail, ?_, fun hshort hnone ↦
          hdefault hshort (hcombine0.trans hnone)⟩
        · exact hspells' _ (.combiner hread hs)
        · exact List.forall_mem_cons.mpr ⟨hc.symm, hoperators⟩
        · rw [harg, hfilters, hgroup]
          simp [Sequence.operands]

theorem insideGroup {st : ParserState} {p : Text} (hparse : parseLoop room st p = some arg)
    (hin : st.inParens = true) (hhave : st.haveParens = true) : InsideGroup arg st p [] := by
  induction room generalizing st p with
  | zero => cases hparse
  | succ room ih =>
    rcases parseLoop_step hparse with ⟨hover, -, -⟩ |
      ⟨opens, closes, t, rest, hspells, hlegal, -, hnext⟩
    · exact Or.inl ⟨[], .over hover, Or.inl rfl⟩
    · obtain rfl : opens = false := Bool.eq_false_of_not_eq_true fun hopen ↦ by
        rw [(hlegal hopen).1] at hin
        cases hin
      exact insideGroup_step (fun _ _ ↦ ih) hspells (by rw [hin]; rfl) (by rw [hhave]; rfl) hnext

/-- What is accepted outside the parentheses with no group before. -/
def BeforeGroup (arg : QueryArg) (st : ParserState) (p : Text) : Prop :=
  (∃ items, Spells true p items ∧ Dangling items) ∨
    (∃ s : FilterSequence, Spells true p (sequenceItems s) ∧
      (∀ c ∈ s.operators, c = arg.combine0) ∧
      arg.filters = st.filters ++ s.operands.map (·.inGroup 0)) ∨
    ∃ (pre : List (WrittenFilter × QueryCombine)) (s : FilterSequence)
      (tail : List (QueryCombine × WrittenFilter)),
      Spells true p
        (preItems pre ++ .opening :: (sequenceItems s ++ .closing :: tailItems tail)) ∧
      PreOk arg pre ∧ (∀ c ∈ s.operators, c = arg.combine1) ∧ TailOk arg tail ∧
      arg.filters = st.filters ++ (pre.map Prod.fst).map (·.inGroup 0) ++
        s.operands.map (·.inGroup 1) ++ (tail.map Prod.snd).map (·.inGroup 0) ∧
      (pre.length ≤ 1 → tail.length ≤ 1 → st.combine0 = none → arg.combine0 = arg.groupCombine)

theorem beforeGroup {st : ParserState} {p : Text} (hparse : parseLoop room st p = some arg)
    (hin : st.inParens = false) (hhave : st.haveParens = false) : BeforeGroup arg st p := by
  induction room generalizing st p with
  | zero => cases hparse
  | succ room ih =>
    rcases parseLoop_step hparse with ⟨hover, -, -⟩ |
      ⟨opens, closes, t, rest, hspells, -, hclose, hnext⟩
    · exact Or.inl ⟨[], .over hover, Or.inl rfl⟩
    · cases opens with
      | true =>
        rcases insideGroup_step (fun _ _ ↦ insideGroup) hspells (Bool.or_true _) (Bool.or_true _)
          hnext with hdangling | ⟨s, tail, hs, hoperators, htail, harg, hdefault⟩
        · exact Or.inl hdangling
        · refine Or.inr (Or.inr ⟨[], s, tail, hs, trivial, hoperators, htail, ?_, fun _ ↦ hdefault⟩)
          rw [harg]
          simp
      | false =>
        obtain rfl : closes = false := Bool.eq_false_of_not_eq_true fun hclosed ↦ by
          have hinside := hclose hclosed
          rw [hin] at hinside
          cases hinside
        rw [after_plain, hin] at hnext
        rcases hnext with ⟨hover, hfinish⟩ | ⟨c, next, st', hread, hclass, hnext⟩
        · obtain ⟨-, -, hfilters, -⟩ := finishQuery_some hfinish
          exact Or.inr (Or.inl ⟨⟨t, []⟩, hspells [] (.over hover),
            fun c hc ↦ absurd hc List.not_mem_nil, hfilters⟩)
        · obtain ⟨-, hfilters, hin', hhave', hgroupc, -, houtside⟩ :=
            classifyCombine_some hclass arg (parseLoop_extends hnext)
          rcases ih hnext hin' (hhave'.trans hhave) with ⟨items, hitems, hdangling⟩ |
            ⟨s, hs, hoperators, harg⟩ | ⟨pre, s, tail, hs, hpre, hoperators, htail, harg, hdefault⟩
          · exact Or.inl ⟨_, hspells _ (.combiner hread hitems), hdangling.cons _ c⟩
          · have hc : arg.combine0 = c := houtside (by rw [hs.filter_head]; rfl) rfl
            refine Or.inr (Or.inl ⟨⟨t, (c, s.first) :: s.rest⟩, hspells _ (.combiner hread hs),
              List.forall_mem_cons.mpr ⟨hc.symm, hoperators⟩, ?_⟩)
            rw [harg, hfilters, List.append_assoc]
            rfl
          · have hspelled := hspells _ (.combiner hread hs)
            refine Or.inr (Or.inr ⟨(t, c) :: pre, s, tail, hspelled, ?_, hoperators, htail, ?_,
              fun hshort htshort hnone ↦ ?_⟩)
            · -- A combiner in front of the parenthesis is the one between the groups.
              cases pre with
              | nil => exact (hgroupc (by rw [Spells.opening_head hs]; rfl)).1.symm
              | cons q pre =>
                exact ⟨(houtside (by rw [Spells.filter_head hs]; rfl) rfl).symm, hpre⟩
            · rw [harg, hfilters]
              simp
            · obtain rfl : pre = [] := List.length_eq_zero_iff.mp (Nat.le_zero.mp (by
                simpa using hshort))
              obtain ⟨-, hcombine0⟩ := hgroupc (by rw [Spells.opening_head hs]; rfl)
              exact hdefault (Nat.zero_le 1) htshort (hcombine0.trans hnone)

end Shapes

end Obmafs3
