import Obmafs3.Library.SortedLists
import Obmafs3.Metadata.Paging
import Obmafs3.Metadata.Query

/-!
# Queries of several filters

A query has up to four filters in two groups. The inodes of every filter are collected into an
ascending list, a filter with `NOT` is subtracted from the inodes that own any metadata, the lists
of a group are intersected or united, and so are the two groups. In an intersection the shortest
list comes first, and nothing more is done once it is empty.

`queryCollectIds_accepts` says that the answer is the set that the query stands for.
-/

set_option autoImplicit false

namespace Obmafs3

open Library.SearchTree Library.SortedLists

/-! ### The engine -/

/-- `enum obmafs3_query_combine`. Every byte but zero is taken for `or`. -/
inductive QueryCombine
  | and | or
  deriving DecidableEq, Repr

/-- `struct obmafs3_query_filter`, with what a query puts its filters together by. -/
structure GroupedFilter extends QueryFilter where
  negate : Bool
  group : ℕ
  deriving DecidableEq, Repr

inductive QueryError
  | inval | noMem
  | failed (code : ErrorCode)
  deriving DecidableEq, Repr

/-- What can go wrong: collecting for a filter or for all inodes, and the memory for the steps. -/
structure QueryFaults where
  collect : ℕ → Option QueryError
  all : Option QueryError
  difference : ℕ → Bool
  combine : ℕ → ℕ → Bool
  groups : Bool

/-- Nothing goes wrong. -/
def QueryFaults.none : QueryFaults := ⟨fun _ ↦ .none, .none, fun _ ↦ true, fun _ _ ↦ true, true⟩

/-- The steps of `idset_combine` on the sets that follow the first. -/
def combineRest (room : ℕ → Bool) (c : QueryCombine) : ℕ → List ℕ → List (List ℕ) → Option (List ℕ)
  | _, out, [] => some out
  | i, out, ids :: sets =>
    if c = .and ∧ out = [] then some []
    else if room i then
      combineRest room c (i + 1) (if c = .and then intersect out ids else union out ids) sets
    else none

/-- `idset_combine`. -/
def idsetCombine (room : ℕ → Bool) (c : QueryCombine) (sets : List (List ℕ)) : Option (List ℕ) :=
  match if c = .and then exchangeSort List.length sets else sets with
  | [] => some []
  | out :: sets => combineRest room c 1 out sets

/-- The first step of `query_collect_ids`: the inodes of every filter. -/
def collectSets (lib : PatternLibrary) (faults : QueryFaults) (s : MetadataStore) :
    ℕ → List GroupedFilter → Except QueryError (List (GroupedFilter × List ℕ))
  | _, [] => .ok []
  | f, flt :: filters =>
    match faults.collect f with
    | some e => .error e
    | .none =>
      (collectSets lib faults s (f + 1) filters).map
        ((flt, sortDedup (midxCollectMatching lib flt.toQueryFilter s)) :: ·)

/-- The filter that collects all inodes that own metadata. -/
def allFilter : QueryFilter := ⟨wildcardKey, [], .exists⟩

/-- The complements of the second step. -/
def negateSets (faults : QueryFaults) (allInodes : List ℕ) :
    ℕ → List (GroupedFilter × List ℕ) → Except QueryError (List (GroupedFilter × List ℕ))
  | _, [] => .ok []
  | f, (flt, ids) :: sets =>
    if flt.negate then
      if faults.difference f then
        (negateSets faults allInodes (f + 1) sets).map ((flt, difference allInodes ids) :: ·)
      else .error .noMem
    else (negateSets faults allInodes (f + 1) sets).map ((flt, ids) :: ·)

/-- The second step. All inodes are collected only if there is a negation. -/
def complementSets (lib : PatternLibrary) (faults : QueryFaults) (s : MetadataStore)
    (sets : List (GroupedFilter × List ℕ)) :
    Except QueryError (List (GroupedFilter × List ℕ)) :=
  if sets.any (·.1.negate) then
    match faults.all with
    | some e => .error e
    | .none => negateSets faults (sortDedup (midxCollectMatching lib allFilter s)) 0 sets
  else .ok sets

/-- The last steps: combine each group, and then the groups. -/
def combineGroups (faults : QueryFaults) (combine0 combine1 groupCombine : QueryCombine)
    (sets : List (GroupedFilter × List ℕ)) : Except QueryError (List ℕ) :=
  let g0 := (sets.filter (·.1.group = 0)).map Prod.snd
  let g1 := (sets.filter (·.1.group ≠ 0)).map Prod.snd
  match idsetCombine (faults.combine 0) combine0 g0,
      idsetCombine (faults.combine 1) combine1 g1 with
  | some r0, some r1 =>
    if g0 ≠ [] ∧ g1 ≠ [] then
      if faults.groups then .ok (if groupCombine = .and then intersect r0 r1 else union r0 r1)
      else .error .noMem
    else if g0 ≠ [] then .ok r0
    else .ok r1
  | _, _ => .error .noMem

/-- `query_collect_ids`. -/
def queryCollectIds (lib : PatternLibrary) (faults : QueryFaults) (filters : List GroupedFilter)
    (combine0 combine1 groupCombine : QueryCombine) (s : MetadataStore) :
    Except QueryError (List ℕ) :=
  if filters = [] ∨ queryMaxFilters < filters.length then .error .inval
  else
    (collectSets lib faults s 0 filters).bind fun sets ↦
      (complementSets lib faults s sets).bind
        (combineGroups faults combine0 combine1 groupCombine)

/-! ### What a query stands for -/

/-- All of several things, or one of them. -/
def QueryCombine.Joins {α : Type} (c : QueryCombine) (holds : α → Prop) (l : List α) : Prop :=
  match c with
  | .and => ∀ a ∈ l, holds a
  | .or => ∃ a ∈ l, holds a

/-- The inodes that a filter stands for, from those it matches and those that own metadata. -/
def GroupedFilter.Accepts (owners : ℕ → Prop) (matched : QueryFilter → ℕ → Prop)
    (inodeId : ℕ) (flt : GroupedFilter) : Prop :=
  if flt.negate then owners inodeId ∧ ¬matched flt.toQueryFilter inodeId
  else matched flt.toQueryFilter inodeId

/-- How the filters of a query go together. A group without filters does not count. -/
def GroupsJoin (combine0 combine1 groupCombine : QueryCombine) (holds : GroupedFilter → Prop)
    (filters : List GroupedFilter) : Prop :=
  let outside := filters.filter (·.group = 0)
  let inside := filters.filter (·.group ≠ 0)
  if outside ≠ [] ∧ inside ≠ [] then
    groupCombine.Joins id [combine0.Joins holds outside, combine1.Joins holds inside]
  else if outside ≠ [] then combine0.Joins holds outside
  else combine1.Joins holds inside

/-- The inodes that a query stands for. -/
def QueryAccepts (owners : ℕ → Prop) (matched : QueryFilter → ℕ → Prop)
    (combine0 combine1 groupCombine : QueryCombine) (filters : List GroupedFilter)
    (inodeId : ℕ) : Prop :=
  GroupsJoin combine0 combine1 groupCombine (GroupedFilter.Accepts owners matched inodeId) filters

/-! ### The steps -/

section Steps

variable {c : QueryCombine} {sets : List (List ℕ)} {out ids : List ℕ} {room : ℕ → Bool}

variable {α : Type} {holds : α → Prop}

variable {l : List α} {p q : Prop}

theorem QueryCombine.joins_and_cons {a : α} :
    QueryCombine.and.Joins holds (a :: l) ↔ holds a ∧ QueryCombine.and.Joins holds l :=
  List.forall_mem_cons

theorem QueryCombine.joins_or_cons {a : α} :
    QueryCombine.or.Joins holds (a :: l) ↔ holds a ∨ QueryCombine.or.Joins holds l :=
  List.exists_mem_cons_iff holds a l

theorem QueryCombine.joins_and_pair : QueryCombine.and.Joins id [p, q] ↔ p ∧ q := by
  rw [joins_and_cons, joins_and_cons]
  exact and_congr_right' (and_iff_left (List.forall_mem_nil id))

theorem QueryCombine.joins_or_pair : QueryCombine.or.Joins id [p, q] ↔ p ∨ q := by
  rw [joins_or_cons, joins_or_cons]
  exact or_congr_right (or_iff_left fun hnil ↦ List.not_mem_nil hnil.choose_spec.1)

theorem QueryCombine.joins_perm {l l' : List α} (hperm : l.Perm l') :
    c.Joins holds l ↔ c.Joins holds l' := by
  cases c with
  | and => exact forall_congr' fun a ↦ imp_congr_left hperm.mem_iff
  | or => exact exists_congr fun a ↦ and_congr_left' hperm.mem_iff

theorem combineRest_spec {i : ℕ} (hout : out.Pairwise (· < ·))
    (hsets : ∀ ids ∈ sets, ids.Pairwise (· < ·))
    (hdone : combineRest room c i out sets = some ids) :
    ids.Pairwise (· < ·) ∧ ∀ inodeId, inodeId ∈ ids ↔ c.Joins (inodeId ∈ ·) (out :: sets) := by
  induction sets generalizing i out with
  | nil =>
    obtain rfl := Option.some.inj hdone
    refine ⟨hout, fun inodeId ↦ ?_⟩
    cases c <;> simp [QueryCombine.Joins]
  | cons next sets ih =>
    obtain ⟨hnext, hsets⟩ := List.forall_mem_cons.mp hsets
    rw [combineRest] at hdone
    split_ifs at hdone with hempty hroom hand
    · -- An empty intersection stays empty.
      obtain rfl := Option.some.inj hdone
      obtain ⟨rfl, rfl⟩ := hempty
      exact ⟨List.Pairwise.nil, fun inodeId ↦ by simp [QueryCombine.Joins]⟩
    · subst hand
      obtain ⟨hids, hmem⟩ := ih (hout.sublist (intersect_sublist out next)) hsets hdone
      refine ⟨hids, fun inodeId ↦ ?_⟩
      rw [hmem]
      simp only [QueryCombine.joins_and_cons, mem_intersect hout hnext, and_assoc]
    · obtain rfl : c = .or := by
        cases c with
        | and => exact absurd rfl hand
        | or => rfl
      obtain ⟨hids, hmem⟩ := ih (pairwise_union hout hnext) hsets hdone
      refine ⟨hids, fun inodeId ↦ ?_⟩
      rw [hmem]
      simp only [QueryCombine.joins_or_cons, mem_union, or_assoc]

theorem idsetCombine_spec (hsets : ∀ ids ∈ sets, ids.Pairwise (· < ·))
    (hdone : idsetCombine room c sets = some ids) :
    ids.Pairwise (· < ·) ∧ (sets ≠ [] → ∀ inodeId, inodeId ∈ ids ↔ c.Joins (inodeId ∈ ·) sets) := by
  have hperm : (if c = .and then exchangeSort List.length sets else sets).Perm sets := by
    split_ifs
    · exact exchangeSort_perm List.length sets
    · exact List.Perm.refl _
  unfold idsetCombine at hdone
  cases horder : if c = .and then exchangeSort List.length sets else sets with
  | nil =>
    rw [horder] at hdone hperm
    obtain rfl := Option.some.inj hdone
    exact ⟨List.Pairwise.nil, fun hne ↦ absurd hperm.nil_eq.symm hne⟩
  | cons out rest =>
    rw [horder] at hdone hperm
    have hall : ∀ ids ∈ out :: rest, ids.Pairwise (· < ·) := fun ids hids ↦
      hsets ids (hperm.mem_iff.mp hids)
    obtain ⟨hout, hrest⟩ := List.forall_mem_cons.mp hall
    obtain ⟨hids, hmem⟩ := combineRest_spec hout hrest hdone
    exact ⟨hids, fun _ inodeId ↦ (hmem inodeId).trans (QueryCombine.joins_perm hperm)⟩

end Steps

section Sets

variable {lib : PatternLibrary} {faults : QueryFaults} {s : MetadataStore}
  {filters : List GroupedFilter} {sets sets' : List (GroupedFilter × List ℕ)} {f : ℕ}

variable {ids : List ℕ} {α β : Type} {x : Except QueryError α}

theorem ok_of_map {g : α → β} {b : β} (hmap : x.map g = .ok b) : ∃ a, x = .ok a ∧ g a = b := by
  cases x with
  | error e => cases hmap
  | ok a => exact ⟨a, rfl, Except.ok.inj hmap⟩

theorem ok_of_bind {g : α → Except QueryError β} {b : β} (hbind : x.bind g = .ok b) :
    ∃ a, x = .ok a ∧ g a = .ok b := by
  cases x with
  | error e => cases hbind
  | ok a => exact ⟨a, rfl, hbind⟩

/-- Every filter comes with an ascending list of the inodes of a set. -/
def Collected (holds : ℕ → GroupedFilter → Prop) (filters : List GroupedFilter)
    (sets : List (GroupedFilter × List ℕ)) : Prop :=
  sets.map Prod.fst = filters ∧
    ∀ p ∈ sets, p.2.Pairwise (· < ·) ∧ ∀ inodeId, inodeId ∈ p.2 ↔ holds inodeId p.1

/-- The inodes that are collected for a filter. -/
def Matched (lib : PatternLibrary) (s : MetadataStore) (flt : QueryFilter) (inodeId : ℕ) : Prop :=
  inodeId ∈ midxCollectMatching lib flt s

variable {holds : ℕ → GroupedFilter → Prop}

theorem Collected.cons {flt : GroupedFilter} (hrest : Collected holds filters sets)
    (hids : ids.Pairwise (· < ·)) (hmem : ∀ inodeId, inodeId ∈ ids ↔ holds inodeId flt) :
    Collected holds (flt :: filters) ((flt, ids) :: sets) :=
  ⟨congrArg (flt :: ·) hrest.1, List.forall_mem_cons.mpr ⟨⟨hids, hmem⟩, hrest.2⟩⟩

theorem collectSets_spec (hdone : collectSets lib faults s f filters = .ok sets) :
    Collected (fun inodeId flt ↦ Matched lib s flt.toQueryFilter inodeId) filters sets := by
  induction filters generalizing f sets with
  | nil =>
    obtain rfl := Except.ok.inj hdone
    exact ⟨rfl, List.forall_mem_nil _⟩
  | cons flt filters ih =>
    rw [collectSets] at hdone
    cases hfault : faults.collect f with
    | some e =>
      rw [hfault] at hdone
      cases hdone
    | none =>
      rw [hfault] at hdone
      obtain ⟨rest, hrest, rfl⟩ := ok_of_map hdone
      exact (ih hrest).cons (pairwise_sortDedup _) fun _ ↦ mem_sortDedup

theorem negateSets_spec {owners : ℕ → Prop} {allInodes : List ℕ}
    (hall : allInodes.Pairwise (· < ·)) (howners : ∀ inodeId, inodeId ∈ allInodes ↔ owners inodeId)
    (hsets : Collected (fun inodeId flt ↦ Matched lib s flt.toQueryFilter inodeId) filters sets)
    (hdone : negateSets faults allInodes f sets = .ok sets') :
    Collected (GroupedFilter.Accepts owners (Matched lib s)) filters sets' := by
  induction sets generalizing f sets' filters with
  | nil =>
    obtain rfl := Except.ok.inj hdone
    exact ⟨hsets.1, List.forall_mem_nil _⟩
  | cons p sets ih =>
    obtain ⟨flt, ids⟩ := p
    obtain ⟨rfl, hsets⟩ := hsets
    obtain ⟨⟨hids, hmem⟩, hrest⟩ := List.forall_mem_cons.mp hsets
    rw [negateSets] at hdone
    split_ifs at hdone with hnegate hroom
    · obtain ⟨rest, hnext, rfl⟩ := ok_of_map hdone
      refine (ih ⟨rfl, hrest⟩ hnext).cons (hall.sublist (difference_sublist _ _)) fun inodeId ↦ ?_
      rw [mem_difference hall hids, howners, hmem, GroupedFilter.Accepts, if_pos hnegate]
    · obtain ⟨rest, hnext, rfl⟩ := ok_of_map hdone
      refine (ih ⟨rfl, hrest⟩ hnext).cons hids fun inodeId ↦ ?_
      rw [hmem, GroupedFilter.Accepts, if_neg hnegate]

theorem splitParts_ne_nil {separator : ℕ} {part text : Text} (hmem : separator ∈ text) :
    splitParts separator part text ≠ [] := by
  induction text generalizing part with
  | nil => exact absurd hmem List.not_mem_nil
  | cons c text ih =>
    rw [splitParts]
    split_ifs with hc
    · exact List.cons_ne_nil _ _
    · exact ih ((List.mem_cons.mp hmem).resolve_left (Ne.symm hc))

/-- Every value is accepted where it is asked only whether there is one. -/
theorem exists_matches (key value : Text) :
    filterValueMatches lib key value allFilter.value allFilter.op = true := by
  have hpositive : ¬(allFilter.op = .notEqual ∨ allFilter.op = .iNotEqual) := by decide
  unfold filterValueMatches
  rw [if_neg hpositive]
  split_ifs with hcomments hline
  · rfl
  · cases hparts : subValues value with
    | nil => exact absurd hparts (splitParts_ne_nil hline)
    | cons part parts => rfl
  · rfl

/-- Every record is in the scan for all keys. -/
theorem matched_all {inodeId : ℕ} :
    Matched lib s allFilter inodeId ↔ ∃ r ∈ s.midxTree.records, r.inodeId = inodeId := by
  unfold Matched midxCollectMatching
  cases s.midxTree with
  | empty => simp [Root.records]
  | node height t =>
    have hall : (Root.node height t).records.filter (fun r ↦
        filterValueMatches lib r.key r.value allFilter.value allFilter.op) =
        (Root.node height t).records :=
      List.filter_eq_self.mpr fun r _ ↦ exists_matches r.key r.value
    simp only [hall]
    exact List.mem_map

theorem complementSets_spec
    (hsets : Collected (fun inodeId flt ↦ Matched lib s flt.toQueryFilter inodeId) filters sets)
    (hdone : complementSets lib faults s sets = .ok sets') :
    Collected (GroupedFilter.Accepts (fun inodeId ↦ ∃ r ∈ s.midxTree.records, r.inodeId = inodeId)
      (Matched lib s)) filters sets' := by
  unfold complementSets at hdone
  split_ifs at hdone with hnegate
  · cases hfault : faults.all with
    | some e =>
      rw [hfault] at hdone
      cases hdone
    | none =>
      rw [hfault] at hdone
      exact negateSets_spec (pairwise_sortDedup _) (fun _ ↦ mem_sortDedup.trans matched_all) hsets
        hdone
  · obtain rfl := Except.ok.inj hdone
    refine ⟨hsets.1, fun p hp ↦ ⟨(hsets.2 p hp).1, fun inodeId ↦ ?_⟩⟩
    have hplain : ¬p.1.negate = true := fun hp' ↦ hnegate (List.any_eq_true.mpr ⟨p, hp, hp'⟩)
    rw [(hsets.2 p hp).2, GroupedFilter.Accepts, if_neg hplain]

variable (hsets : Collected holds filters sets)
include hsets

/-- The sets of a group are joined as its filters are. -/
theorem joins_group (c : QueryCombine) (inGroup : GroupedFilter → Bool) (inodeId : ℕ) :
    c.Joins (inodeId ∈ ·) ((sets.filter (inGroup ·.1)).map Prod.snd) ↔
      c.Joins (holds inodeId) (filters.filter inGroup) := by
  obtain ⟨rfl, hmem⟩ := hsets
  cases c with
  | and =>
    simp only [QueryCombine.Joins, List.mem_map, List.mem_filter]
    constructor
    · rintro hjoin _ ⟨⟨p, hp, rfl⟩, hin⟩
      exact ((hmem p hp).2 inodeId).mp (hjoin p.2 ⟨p, ⟨hp, hin⟩, rfl⟩)
    · rintro hjoin _ ⟨p, ⟨hp, hin⟩, rfl⟩
      exact ((hmem p hp).2 inodeId).mpr (hjoin p.1 ⟨⟨p, hp, rfl⟩, hin⟩)
  | or =>
    simp only [QueryCombine.Joins, List.mem_map, List.mem_filter]
    constructor
    · rintro ⟨_, ⟨p, ⟨hp, hin⟩, rfl⟩, hmem'⟩
      exact ⟨p.1, ⟨⟨p, hp, rfl⟩, hin⟩, ((hmem p hp).2 inodeId).mp hmem'⟩
    · rintro ⟨_, ⟨⟨p, hp, rfl⟩, hin⟩, hholds⟩
      exact ⟨p.2, ⟨p, ⟨hp, hin⟩, rfl⟩, ((hmem p hp).2 inodeId).mpr hholds⟩

theorem group_ne_nil (inGroup : GroupedFilter → Bool) :
    (sets.filter (inGroup ·.1)).map Prod.snd ≠ [] ↔ filters.filter inGroup ≠ [] := by
  obtain ⟨rfl, -⟩ := hsets
  rw [List.filter_map, ne_eq, ne_eq, List.map_eq_nil_iff, List.map_eq_nil_iff]
  rfl

theorem combineGroups_spec {combine0 combine1 groupCombine : QueryCombine} (hne : filters ≠ [])
    (hdone : combineGroups faults combine0 combine1 groupCombine sets = .ok ids) :
    ids.Pairwise (· < ·) ∧ ∀ inodeId, inodeId ∈ ids ↔
      GroupsJoin combine0 combine1 groupCombine (holds inodeId) filters := by
  have hgroup (inGroup : GroupedFilter → Bool) :
      ∀ ids ∈ (sets.filter (inGroup ·.1)).map Prod.snd, ids.Pairwise (· < ·) := by
    intro ids hids
    obtain ⟨p, hp, rfl⟩ := List.mem_map.mp hids
    exact (hsets.2 p (List.mem_of_mem_filter hp)).1
  have hout := group_ne_nil hsets (·.group = 0)
  have hin := group_ne_nil hsets (·.group ≠ 0)
  have hjoin0 := joins_group hsets combine0 (·.group = 0)
  have hjoin1 := joins_group hsets combine1 (·.group ≠ 0)
  unfold combineGroups at hdone
  dsimp only at hdone
  cases h0 : idsetCombine (faults.combine 0) combine0
      ((sets.filter (·.1.group = 0)).map Prod.snd) with
  | none =>
    rw [h0] at hdone
    cases hdone
  | some r0 =>
    cases h1 : idsetCombine (faults.combine 1) combine1
        ((sets.filter (·.1.group ≠ 0)).map Prod.snd) with
    | none =>
      rw [h0, h1] at hdone
      cases hdone
    | some r1 =>
      rw [h0, h1] at hdone
      dsimp only at hdone
      obtain ⟨hr0, hmem0⟩ := idsetCombine_spec (hgroup (·.group = 0)) h0
      obtain ⟨hr1, hmem1⟩ := idsetCombine_spec (hgroup (·.group ≠ 0)) h1
      unfold GroupsJoin
      dsimp only
      simp only [hout, hin] at hdone
      by_cases hboth : filters.filter (·.group = 0) ≠ [] ∧ filters.filter (·.group ≠ 0) ≠ []
      · rw [if_pos hboth] at hdone
        simp only [if_pos hboth]
        have hfirst (inodeId : ℕ) := (hmem0 (hout.mpr hboth.1) inodeId).trans (hjoin0 inodeId)
        have hsecond (inodeId : ℕ) := (hmem1 (hin.mpr hboth.2) inodeId).trans (hjoin1 inodeId)
        split_ifs at hdone with hroom hand
        · obtain rfl := Except.ok.inj hdone
          refine ⟨hr0.sublist (intersect_sublist r0 r1), fun inodeId ↦ ?_⟩
          rw [mem_intersect hr0 hr1, hfirst, hsecond, hand, QueryCombine.joins_and_pair]
        · obtain rfl := Except.ok.inj hdone
          refine ⟨pairwise_union hr0 hr1, fun inodeId ↦ ?_⟩
          rw [mem_union, hfirst, hsecond]
          cases groupCombine with
          | and => exact absurd rfl hand
          | or => exact QueryCombine.joins_or_pair.symm
      · rw [if_neg hboth] at hdone
        simp only [if_neg hboth]
        by_cases hone : filters.filter (·.group = 0) ≠ []
        · rw [if_pos hone] at hdone
          obtain rfl := Except.ok.inj hdone
          simp only [if_pos hone]
          exact ⟨hr0, fun inodeId ↦ (hmem0 (hout.mpr hone) inodeId).trans (hjoin0 inodeId)⟩
        · rw [if_neg hone] at hdone
          obtain rfl := Except.ok.inj hdone
          simp only [if_neg hone]
          have hall : filters.filter (·.group ≠ 0) = filters := by
            refine List.filter_eq_self.mpr fun flt hflt ↦ decide_eq_true fun hzero ↦ ?_
            exact hone (List.ne_nil_of_mem (List.mem_filter.mpr ⟨hflt, decide_eq_true hzero⟩))
          have hother : filters.filter (·.group ≠ 0) ≠ [] := hall.symm ▸ hne
          exact ⟨hr1, fun inodeId ↦ (hmem1 (hin.mpr hother) inodeId).trans (hjoin1 inodeId)⟩

end Sets

/-! ### Where nothing goes wrong -/

section Returns

variable {c : QueryCombine}

theorem combineRest_returns (i : ℕ) (out : List ℕ) (sets : List (List ℕ)) :
    ∃ ids, combineRest (fun _ ↦ true) c i out sets = some ids := by
  induction sets generalizing i out with
  | nil => exact ⟨out, rfl⟩
  | cons next sets ih =>
    rw [combineRest]
    by_cases hempty : c = .and ∧ out = []
    · rw [if_pos hempty]
      exact ⟨[], rfl⟩
    · rw [if_neg hempty, if_pos rfl]
      exact ih _ _

theorem idsetCombine_returns (sets : List (List ℕ)) :
    ∃ ids, idsetCombine (fun _ ↦ true) c sets = some ids := by
  unfold idsetCombine
  cases if c = .and then exchangeSort List.length sets else sets with
  | nil => exact ⟨[], rfl⟩
  | cons out rest => exact combineRest_returns 1 out rest

theorem collectSets_returns (lib : PatternLibrary) (s : MetadataStore) (f : ℕ)
    (filters : List GroupedFilter) : ∃ sets, collectSets lib .none s f filters = .ok sets := by
  induction filters generalizing f with
  | nil => exact ⟨[], rfl⟩
  | cons flt filters ih =>
    obtain ⟨sets, hsets⟩ := ih (f + 1)
    exact ⟨_, congrArg (Except.map _) hsets⟩

theorem negateSets_returns (allInodes : List ℕ) (f : ℕ) (sets : List (GroupedFilter × List ℕ)) :
    ∃ sets', negateSets .none allInodes f sets = .ok sets' := by
  induction sets generalizing f with
  | nil => exact ⟨[], rfl⟩
  | cons p sets ih =>
    obtain ⟨flt, ids⟩ := p
    obtain ⟨sets', hsets'⟩ := ih (f + 1)
    rw [negateSets, hsets']
    split_ifs with hnegate hroom
    · exact ⟨_, rfl⟩
    · exact absurd rfl hroom
    · exact ⟨_, rfl⟩

theorem complementSets_returns (lib : PatternLibrary) (s : MetadataStore)
    (sets : List (GroupedFilter × List ℕ)) :
    ∃ sets', complementSets lib .none s sets = .ok sets' := by
  unfold complementSets
  split_ifs
  · exact negateSets_returns _ 0 sets
  · exact ⟨sets, rfl⟩

theorem combineGroups_returns (combine0 combine1 groupCombine : QueryCombine)
    (sets : List (GroupedFilter × List ℕ)) :
    ∃ ids, combineGroups .none combine0 combine1 groupCombine sets = .ok ids := by
  obtain ⟨r0, h0⟩ := idsetCombine_returns (c := combine0)
    ((sets.filter (·.1.group = 0)).map Prod.snd)
  obtain ⟨r1, h1⟩ := idsetCombine_returns (c := combine1)
    ((sets.filter (·.1.group ≠ 0)).map Prod.snd)
  unfold combineGroups
  simp only [QueryFaults.none, h0, h1, if_true]
  split_ifs
  · exact ⟨_, rfl⟩
  · exact ⟨_, rfl⟩
  · exact ⟨_, rfl⟩
  · exact ⟨_, rfl⟩

theorem queryCollectIds_returns (lib : PatternLibrary) (s : MetadataStore)
    {filters : List GroupedFilter} (hne : filters ≠ []) (hmax : filters.length ≤ queryMaxFilters)
    (combine0 combine1 groupCombine : QueryCombine) :
    ∃ ids, queryCollectIds lib .none filters combine0 combine1 groupCombine s = .ok ids := by
  obtain ⟨sets, hsets⟩ := collectSets_returns lib s 0 filters
  obtain ⟨sets', hsets'⟩ := complementSets_returns lib s sets
  obtain ⟨ids, hids⟩ := combineGroups_returns combine0 combine1 groupCombine sets'
  refine ⟨ids, ?_⟩
  rw [queryCollectIds, if_neg (not_or.mpr ⟨hne, not_lt.mpr hmax⟩), hsets]
  change (complementSets lib .none s sets).bind _ = _
  rw [hsets']
  exact hids

end Returns

/-! ### The answer of a query -/

/-- What a list that a query returns has. -/
theorem queryCollectIds_spec {lib : PatternLibrary} {faults : QueryFaults}
    {filters : List GroupedFilter} {combine0 combine1 groupCombine : QueryCombine}
    {s : MetadataStore} {ids : List ℕ}
    (hids : queryCollectIds lib faults filters combine0 combine1 groupCombine s = .ok ids) :
    ids.Pairwise (· < ·) ∧ ∀ inodeId, inodeId ∈ ids ↔
      QueryAccepts (fun i ↦ ∃ r ∈ s.midxTree.records, r.inodeId = i) (Matched lib s)
        combine0 combine1 groupCombine filters inodeId := by
  unfold queryCollectIds at hids
  split_ifs at hids with hcount
  obtain ⟨sets, hcollect, hids⟩ := ok_of_bind hids
  obtain ⟨sets', hcomplement, hids⟩ := ok_of_bind hids
  have hsets := complementSets_spec (collectSets_spec hcollect) hcomplement
  exact combineGroups_spec hsets (not_or.mp hcount).1 hids

/-- A list that a query returns is in ascending order and has exactly the inodes that the query
stands for, where a filter with `NOT` is taken from the inodes that own metadata. A query of one to
four filters returns one if nothing goes wrong. -/
theorem queryCollectIds_accepts (lib : PatternLibrary) (filters : List GroupedFilter)
    (combine0 combine1 groupCombine : QueryCombine) (s : MetadataStore) :
    (∀ faults ids,
        queryCollectIds lib faults filters combine0 combine1 groupCombine s = .ok ids →
          ids.Pairwise (· < ·) ∧ (∀ inodeId, inodeId ∈ ids ↔
              QueryAccepts (fun i ↦ ∃ r ∈ s.midxTree.records, r.inodeId = i) (Matched lib s)
                combine0 combine1 groupCombine filters inodeId) ∧
            (s.Consistent → ∀ inodeId, inodeId ∈ ids ↔
              QueryAccepts (fun i ↦ ∃ r ∈ s.metaTree.records, r.inodeId = i) (Matched lib s)
                combine0 combine1 groupCombine filters inodeId)) ∧
      (filters ≠ [] → filters.length ≤ queryMaxFilters →
        ∃ ids, queryCollectIds lib .none filters combine0 combine1 groupCombine s = .ok ids) := by
  refine ⟨fun faults ids hids ↦ ?_, fun hne hmax ↦ queryCollectIds_returns lib s hne hmax _ _ _⟩
  obtain ⟨hsorted, hmem⟩ := queryCollectIds_spec hids
  refine ⟨hsorted, hmem, fun hconsistent inodeId ↦ ?_⟩
  have howners : (fun i ↦ ∃ r ∈ s.midxTree.records, r.inodeId = i) =
      fun i ↦ ∃ r ∈ s.metaTree.records, r.inodeId = i := by
    funext i
    refine propext ⟨?_, ?_⟩
    · rintro ⟨x, hx, rfl⟩
      obtain ⟨r, hr, hidx⟩ := (hconsistent.midx x).mp hx
      obtain rfl := Option.some.inj hidx
      exact ⟨r, hr, rfl⟩
    · rintro ⟨r, hr, rfl⟩
      exact ⟨r.idx, (hconsistent.midx r.idx).mpr ⟨r, hr, rfl⟩, rfl⟩
  rw [← howners]
  exact hmem inodeId

/-- The images without the value `5`, after a put of it. -/
theorem queryCollectIds_accepts_put :
    ∃ ids, queryCollectIds noPatterns .none [⟨⟨[97], [53], .equal⟩, true, 0⟩] .and .and .and
        (runMetadata indexedPut (freshMetadata 4096)) = .ok ids ∧ ids.Pairwise (· < ·) := by
  obtain ⟨hall, hreturns⟩ := queryCollectIds_accepts noPatterns
    [⟨⟨[97], [53], .equal⟩, true, 0⟩] .and .and .and (runMetadata indexedPut (freshMetadata 4096))
  obtain ⟨ids, hids⟩ := hreturns (List.cons_ne_nil _ _) (by decide)
  exact ⟨ids, hids, (hall .none ids hids).1⟩

end Obmafs3
