import Obmafs3.Metadata.Indexes

/-!
# Queries

A filter is answered by a scan of the reverse index, which applies the operator to every value of
its key, or for the numeric operators by a range of a numeric index. The two agree on a value that
is one number. They differ on values that only begin with a number or have one on some line, which
have no entry in a numeric index, and on the operand at the end of the 64-bit range, past which
there is no bound to begin at.
-/

set_option autoImplicit false

namespace Obmafs3

open Library.Search Library.SearchTree Library.SecondaryIndex

/-! ### Collecting inodes -/

/-- The bounds of a numeric operator that is answered by a range. `numNotEqual` is none. -/
def numRange (op : QueryOp) (value : Text) : Option (ℤ × ℤ) :=
  let v := (strtoll value).1
  match op with
  | .numEqual => some (v, v)
  | .numGreater => some (if v < int64Max then v + 1 else int64Max, int64Max)
  | .numLess => some (int64Min, if int64Min < v then v - 1 else int64Min)
  | .numGreaterEq => some (v, int64Max)
  | .numLessEq => some (int64Min, v)
  | .numBetween => (afterComma value).map fun high ↦ (v, (strtoll high).1)
  | _ => none

/-- `obmafs3_numidx_collect_range_ex`. -/
def numidxCollectRange (key : Text) (low high : ℤ) (tree : NumidxTree) : List ℕ :=
  (scan (fun r ↦ r.key < key ∨ r.key = key ∧ r.value < low)
    (fun r ↦ key < r.key ∨ r.key = key ∧ high < r.value)
    (tree.recordsFrom (indexFind · (toLex (key, toLex (low, 0)))))).map
      MetadataNumericIdxRecord.inodeId

/-- The key that stands for every key. -/
def wildcardKey : Text := [42]

/-- The index that a range is read from: the one of the key if there is one with a root, else the
one for all keys if that has a root. -/
def numericRoute (key : Text) (s : MetadataStore) : Option NumidxTree :=
  match userIndexFind key s.userIndexes with
  | some ⟨_, .numeric (.node height t)⟩ => some (.node height t)
  | _ =>
    match s.numTree with
    | some (.node height t) => some (.node height t)
    | _ => none

/-- `midx_collect_matching`. -/
def midxCollectMatching (lib : PatternLibrary) (flt : QueryFilter) (s : MetadataStore) : List ℕ :=
  let accepted (rs : List MetadataIdxRecord) : List ℕ :=
    (rs.filter fun r ↦ filterValueMatches lib r.key r.value flt.value flt.op).map
      MetadataIdxRecord.inodeId
  match s.midxTree with
  | .empty => []
  | .node _ _ =>
    if flt.key = wildcardKey then accepted s.midxTree.records
    else
      match numericRoute flt.key s, numRange flt.op flt.value with
      | some tree, some (low, high) => numidxCollectRange flt.key low high tree
      | _, _ =>
        accepted (scan (fun r ↦ r.key < flt.key) (fun r ↦ flt.key < r.key)
          (s.midxTree.recordsFrom (indexFind · (toLex (flt.key, toLex ([], 0))))))

/-- The inodes that own a value of the key that the filter accepts. -/
def Owns (lib : PatternLibrary) (flt : QueryFilter) (s : MetadataStore) (inodeId : ℕ) : Prop :=
  ∃ r ∈ s.metaTree.records, r.inodeId = inodeId ∧ (flt.key = wildcardKey ∨ r.key = flt.key) ∧
    filterValueMatches lib r.key r.value flt.value flt.op = true

/-! ### Where index and scan agree -/

/-- The texts of a value that a filter looks at one by one. -/
def valueParts (key value : Text) : List Text :=
  if key = commentsKey ∨ 10 ∉ value then [value] else subValues value

/-- Whether a numeric operator accepts a number. -/
def acceptsNumber (op : QueryOp) (fltValue : Text) (n : ℤ) : Bool :=
  match op with
  | .numEqual => n = (strtoll fltValue).1
  | .numGreater => (strtoll fltValue).1 < n
  | .numLess => n < (strtoll fltValue).1
  | .numGreaterEq => (strtoll fltValue).1 ≤ n
  | .numLessEq => n ≤ (strtoll fltValue).1
  | .numBetween =>
    match afterComma fltValue with
    | none => false
    | some high => (strtoll fltValue).1 ≤ n && n ≤ (strtoll high).1
  | _ => false

/-- The number at the end of the 64-bit range, for an operator that asks for more than that. -/
def AtTheEnd (op : QueryOp) (fltValue : Text) (n : ℤ) : Prop :=
  op = .numGreater ∧ (strtoll fltValue).1 = int64Max ∧ n = int64Max ∨
    op = .numLess ∧ (strtoll fltValue).1 = int64Min ∧ n = int64Min

/-- A value on which a range and the operator agree. If it is no whole number, no part of it begins
with a number that is accepted. If it is one, that is not the last number of the 64-bit range when
more than that is asked for, and no line in front of it is accepted without it. -/
def RangeSafe (flt : QueryFilter) (r : MetadataRecord) : Prop :=
  match wholeNumber r.value with
  | none =>
    ∀ part ∈ valueParts r.key r.value, acceptsNumber flt.op flt.value (strtoll part).1 = false
  | some n =>
    ¬AtTheEnd flt.op flt.value n ∧
      ∀ part ∈ valueParts r.key r.value, acceptsNumber flt.op flt.value (strtoll part).1 = true →
        acceptsNumber flt.op flt.value n = true

/-- A filter that is answered by a scan, or by a range over values that agree with it. -/
def FilterSafe (flt : QueryFilter) (s : MetadataStore) : Prop :=
  flt.key = wildcardKey ∨ numericRoute flt.key s = none ∨ numRange flt.op flt.value = none ∨
    ∀ r ∈ s.metaTree.records, r.key = flt.key → RangeSafe flt r

/-! ### Numbers -/

theorem strtoll_bounds (s : Text) : int64Min ≤ (strtoll s).1 ∧ (strtoll s).1 ≤ int64Max := by
  have hclamp (n : ℤ) : int64Min ≤ clampInt64 n ∧ clampInt64 n ≤ int64Max := by
    simp only [clampInt64, int64Min, int64Max]
    omega
  simp only [strtoll]
  split_ifs
  · simp only [int64Min, int64Max]
    omega
  · exact hclamp _
  · exact hclamp _

section Range

variable {op : QueryOp} {fltValue : Text} {low high : ℤ}

/-- What a range holds: the numbers that are accepted, and the one at the end. -/
theorem mem_range_iff (hrange : numRange op fltValue = some (low, high)) {n : ℤ}
    (hn : int64Min ≤ n ∧ n ≤ int64Max) :
    (low ≤ n ∧ n ≤ high) ↔ acceptsNumber op fltValue n = true ∨ AtTheEnd op fltValue n := by
  have hv := strtoll_bounds fltValue
  cases op <;> simp only [numRange, Option.some.injEq, Prod.mk.injEq, reduceCtorEq] at hrange
  case numBetween =>
    cases hcomma : afterComma fltValue with
    | none => simp [hcomma] at hrange
    | some rest =>
      simp only [hcomma, Option.map_some, Option.some.injEq, Prod.mk.injEq] at hrange
      obtain ⟨rfl, rfl⟩ := hrange
      simp [acceptsNumber, AtTheEnd, hcomma]
  all_goals
    obtain ⟨rfl, rfl⟩ := hrange
    simp only [acceptsNumber, AtTheEnd, decide_eq_true_eq, reduceCtorEq, false_and, true_and,
      or_false, false_or]
    omega

/-- At the end nothing is accepted. -/
theorem not_accepts_of_atTheEnd {n : ℤ} (hend : AtTheEnd op fltValue n) {m : ℤ}
    (hm : int64Min ≤ m ∧ m ≤ int64Max) : acceptsNumber op fltValue m = false := by
  rcases hend with ⟨rfl, hv, -⟩ | ⟨rfl, hv, -⟩
  · simp only [acceptsNumber, decide_eq_false_iff_not]
    omega
  · simp only [acceptsNumber, decide_eq_false_iff_not]
    omega

theorem single_eq_accepts (lib : PatternLibrary) (hrange : numRange op fltValue ≠ none)
    (value : Text) :
    filterSingleValueMatches lib value fltValue op =
      acceptsNumber op fltValue (strtoll value).1 := by
  cases op <;> first | rfl | exact absurd rfl hrange

/-- A filter that is a range accepts a value if it accepts the number in front of a part. -/
theorem matches_iff (lib : PatternLibrary) (hrange : numRange op fltValue ≠ none)
    (key value : Text) :
    filterValueMatches lib key value fltValue op = true ↔
      ∃ part ∈ valueParts key value, acceptsNumber op fltValue (strtoll part).1 = true := by
  have hpositive : ¬(op = .notEqual ∨ op = .iNotEqual) := by
    rintro (rfl | rfl) <;> exact hrange rfl
  unfold filterValueMatches valueParts
  simp only [single_eq_accepts lib hrange]
  by_cases hkey : key = commentsKey
  · simp [hkey]
  · by_cases hline : 10 ∈ value
    · simp [hkey, hline, hpositive]
    · simp [hkey, hline]

end Range

/-! ### What a query collects -/

section Collect

variable {s : MetadataStore} {flt : QueryFilter}

variable {tree : NumidxTree} {key : Text} {inodeId : ℕ}

/-- Where a route leads: to the index for all keys, or to one of the key. -/
theorem numericRoute_cases (hroute : numericRoute key s = some tree) :
    s.numTree = some tree ∨ ⟨key, .numeric tree⟩ ∈ s.userIndexes := by
  unfold numericRoute at hroute
  rcases hfind : userIndexFind key s.userIndexes with - | ⟨ukey, (- | ⟨height, t⟩) | utree⟩
  case some.numeric.node =>
    rw [hfind] at hroute
    obtain rfl : .node height t = tree := Option.some.inj hroute
    have hkey : ukey = key := by simpa using List.find?_some hfind
    exact Or.inr (hkey ▸ List.mem_of_find?_eq_some hfind)
  all_goals
    rw [hfind] at hroute
    rcases htree : s.numTree with - | (- | ⟨height, t⟩)
    · simp [htree] at hroute
    · simp [htree] at hroute
    · simp only [htree] at hroute
      exact Or.inl hroute

/-- The index that a route leads to has the whole numbers of the key. -/
theorem mem_numericRoute (hsound : s.Sound) (hroute : numericRoute key s = some tree) :
    tree.Ordered MetadataNumericIdxRecord.order ∧ ∀ x : MetadataNumericIdxRecord, x.key = key →
        (x ∈ tree.records ↔ ∃ r ∈ s.metaTree.records, r.idx.numeric = some x) := by
  rcases numericRoute_cases hroute with hnumeric | huser
  · exact ⟨hsound.indexed.numericOrdered tree hnumeric,
      fun x _ ↦ hsound.indexed.numeric tree hnumeric x⟩
  · obtain ⟨hordered, hmirrors⟩ := hsound.indexed.user _ huser
    refine ⟨hordered, fun x hx ↦ (hmirrors x).trans (exists_congr fun r ↦
      and_congr_right fun _ ↦ ?_)⟩
    constructor
    · intro hentry
      unfold userEntry at hentry
      split_ifs at hentry
      exact hentry
    · intro hnumeric
      obtain ⟨-, hxkey, -⟩ := numeric_eq_some.mp hnumeric
      exact (userEntry_of_eq (hxkey.symm.trans hx)).trans hnumeric

theorem mem_numidxCollectRange (hordered : tree.Ordered MetadataNumericIdxRecord.order)
    {low high : ℤ} :
    inodeId ∈ numidxCollectRange key low high tree ↔
      ∃ x ∈ tree.records, x.key = key ∧ low ≤ x.value ∧ x.value ≤ high ∧ x.inodeId = inodeId := by
  have hlt (r q : MetadataNumericIdxRecord) : r.order < q.order ↔ r.key < q.key ∨ r.key = q.key ∧
        (r.value < q.value ∨ r.value = q.value ∧ r.inodeId < q.inodeId) := by
    simp [MetadataNumericIdxRecord.order, Prod.Lex.toLex_lt_toLex]
  have hbefore (r : MetadataNumericIdxRecord) (hr : r.order < toLex (key, toLex (low, 0))) :
      decide (r.key < key ∨ r.key = key ∧ r.value < low) = true := by
    have hr' := (hlt r ⟨key, low, 0⟩).mp hr
    simp only [Nat.not_lt_zero, and_false, or_false] at hr'
    exact decide_eq_true hr'
  have hafter (r q : MetadataNumericIdxRecord) (hrq : r.order < q.order)
      (hr : decide (key < r.key ∨ r.key = key ∧ high < r.value) = true) :
      decide (key < q.key ∨ q.key = key ∧ high < q.value) = true := by
    refine decide_eq_true ?_
    rcases of_decide_eq_true hr with hkey | ⟨hkey, hvalue⟩
    · rcases (hlt r q).mp hrq with h | ⟨h, -⟩
      · exact Or.inl (hkey.trans h)
      · exact Or.inl (h ▸ hkey)
    · rcases (hlt r q).mp hrq with h | ⟨h, h'⟩
      · exact Or.inl (hkey ▸ h)
      · refine Or.inr ⟨h.symm.trans hkey, ?_⟩
        rcases h' with h' | ⟨h', -⟩
        · exact hvalue.trans h'
        · exact h' ▸ hvalue
  unfold numidxCollectRange
  simp only [List.mem_map, Root.mem_scan_route hordered hbefore hafter, decide_eq_false_iff_not]
  refine exists_congr fun x ↦ ?_
  constructor
  · rintro ⟨⟨hx, hlow, hhigh⟩, hinode⟩
    obtain ⟨hge, hlow⟩ := not_or.mp hlow
    obtain ⟨hle, hhigh⟩ := not_or.mp hhigh
    have hkey : x.key = key := le_antisymm (not_lt.mp hle) (not_lt.mp hge)
    exact ⟨hx, hkey, not_lt.mp fun h ↦ hlow ⟨hkey, h⟩, not_lt.mp fun h ↦ hhigh ⟨hkey, h⟩, hinode⟩
  · rintro ⟨hx, rfl, hlow, hhigh, hinode⟩
    exact ⟨⟨hx, by simp [hlow.not_gt], by simp [hhigh.not_gt]⟩, hinode⟩

variable (hsound : s.Sound)
include hsound

/-- A range collects the inodes that own a whole number between the bounds. -/
theorem mem_collectRange (hroute : numericRoute key s = some tree) {low high : ℤ} :
    inodeId ∈ numidxCollectRange key low high tree ↔
      ∃ r ∈ s.metaTree.records, r.inodeId = inodeId ∧ r.key = key ∧
        ∃ n, wholeNumber r.value = some n ∧ low ≤ n ∧ n ≤ high := by
  obtain ⟨hordered, hmem⟩ := mem_numericRoute hsound hroute
  rw [mem_numidxCollectRange hordered]
  constructor
  · rintro ⟨x, hx, hkey, hlow, hhigh, hinode⟩
    obtain ⟨r, hr, hnumeric⟩ := (hmem x hkey).mp hx
    obtain ⟨hwhole, hrkey, hrinode⟩ := numeric_eq_some.mp hnumeric
    exact ⟨r, hr, hrinode.symm.trans hinode, hrkey.symm.trans hkey, x.value, hwhole, hlow, hhigh⟩
  · rintro ⟨r, hr, rfl, rfl, n, hwhole, hlow, hhigh⟩
    refine ⟨⟨r.key, n, r.inodeId⟩, (hmem _ rfl).mpr ⟨r, hr, ?_⟩, rfl, hlow, hhigh, rfl⟩
    exact numeric_eq_some.mpr ⟨hwhole, rfl, rfl⟩

/-- The scans of the reverse index collect what the filter accepts. -/
theorem mem_accepted (lib : PatternLibrary) {rs : List MetadataIdxRecord}
    (hrs : ∀ r, r ∈ rs ↔ r ∈ s.midxTree.records ∧ (flt.key = wildcardKey ∨ r.key = flt.key)) :
    inodeId ∈ (rs.filter fun r ↦ filterValueMatches lib r.key r.value flt.value flt.op).map
        MetadataIdxRecord.inodeId ↔ Owns lib flt s inodeId := by
  simp only [List.mem_map, List.mem_filter]
  constructor
  · rintro ⟨x, ⟨hx, hmatches⟩, rfl⟩
    obtain ⟨hx, hkey⟩ := (hrs x).mp hx
    obtain ⟨r, hr, hidx⟩ := (hsound.indexed.midx x).mp hx
    obtain rfl := Option.some.inj hidx
    exact ⟨r, hr, rfl, hkey, hmatches⟩
  · rintro ⟨r, hr, rfl, hkey, hmatches⟩
    exact ⟨r.idx, ⟨(hrs r.idx).mpr ⟨(hsound.indexed.midx r.idx).mpr ⟨r, hr, rfl⟩, hkey⟩, hmatches⟩,
      rfl⟩

/-- The scan for a key finds the entries of the key. -/
theorem mem_keyScan {r : MetadataIdxRecord} :
    r ∈ scan (fun r ↦ decide (r.key < key)) (fun r ↦ decide (key < r.key))
        (s.midxTree.recordsFrom (indexFind · (toLex (key, toLex ([], 0))))) ↔
      r ∈ s.midxTree.records ∧ r.key = key := by
  have hbefore (r : MetadataIdxRecord) (hr : r.order < toLex (key, toLex ([], 0))) :
      decide (r.key < key) = true := by
    have hle : r.key ≤ key := Prod.Lex.monotone_fst _ _ hr.le
    refine decide_eq_true (lt_of_le_of_ne hle fun hkey ↦ ?_)
    have hr' : r.key < key ∨ r.key = key ∧ (r.value < [] ∨ r.value = [] ∧ r.inodeId < 0) := by
      simpa [MetadataIdxRecord.order, Prod.Lex.toLex_lt_toLex] using hr
    rcases hr' with h | ⟨-, h | ⟨-, h⟩⟩
    · exact h.ne hkey
    · exact List.not_lt_nil _ h
    · exact Nat.not_lt_zero _ h
  rw [Root.mem_scan_route hsound.indexed.midxOrdered hbefore past_of_past]
  simp only [decide_eq_false_iff_not, not_lt]
  exact and_congr_right' ⟨fun h ↦ le_antisymm h.2 h.1, fun heq ↦ ⟨heq.ge, heq.le⟩⟩

theorem mem_keyAccepted (lib : PatternLibrary) (hkey : flt.key ≠ wildcardKey) (inodeId : ℕ) :
    inodeId ∈ ((scan (fun r ↦ decide (r.key < flt.key)) (fun r ↦ decide (flt.key < r.key))
        (s.midxTree.recordsFrom (indexFind · (toLex (flt.key, toLex ([], 0)))))).filter
          fun r ↦ filterValueMatches lib r.key r.value flt.value flt.op).map
        MetadataIdxRecord.inodeId ↔ Owns lib flt s inodeId :=
  mem_accepted hsound lib fun _ ↦
    (mem_keyScan hsound).trans (and_congr_right' (or_iff_right hkey).symm)

end Collect

/-! ### Queries after a run -/

variable {flt : QueryFilter} {low high : ℤ} {value : Text}

/-- A value that is a whole number has a part with that number in front. -/
theorem exists_part (key : Text) {n : ℤ} (hwhole : wholeNumber value = some n) :
    ∃ part ∈ valueParts key value, (strtoll part).1 = n := by
  unfold valueParts
  split_ifs with hsingle
  · exact ⟨value, List.mem_singleton_self _, (wholeNumber_eq_some hwhole).1⟩
  · exact exists_subValue hwhole

theorem wholeNumber_bounds {n : ℤ} (hwhole : wholeNumber value = some n) :
    int64Min ≤ n ∧ n ≤ int64Max :=
  (wholeNumber_eq_some hwhole).1 ▸ strtoll_bounds value

/-- On one record a range does what the filter does if and only if the value is safe. -/
theorem rangeSafe_iff (lib : PatternLibrary) (hrange : numRange flt.op flt.value = some (low, high))
    (r : MetadataRecord) :
    RangeSafe flt r ↔ ((∃ n, wholeNumber r.value = some n ∧ low ≤ n ∧ n ≤ high) ↔
      filterValueMatches lib r.key r.value flt.value flt.op = true) := by
  have hsome : numRange flt.op flt.value ≠ none := by
    rw [hrange]
    exact Option.some_ne_none _
  rw [matches_iff lib hsome]
  unfold RangeSafe
  cases hwhole : wholeNumber r.value with
  | none => simp
  | some n =>
    have hbounds := wholeNumber_bounds hwhole
    obtain ⟨part, hpart, hnumber⟩ := exists_part r.key hwhole
    have hindex : (∃ m, some n = some m ∧ low ≤ m ∧ m ≤ high) ↔
        acceptsNumber flt.op flt.value n = true ∨ AtTheEnd flt.op flt.value n := by
      rw [← mem_range_iff hrange hbounds]
      simp
    rw [hindex]
    constructor
    · rintro ⟨hend, haccepted⟩
      constructor
      · rintro (haccepts | hend')
        · exact ⟨part, hpart, hnumber ▸ haccepts⟩
        · exact absurd hend' hend
      · rintro ⟨other, hother, haccepts⟩
        exact Or.inl (haccepted other hother haccepts)
    · intro hagree
      have hnot : ¬AtTheEnd flt.op flt.value n := by
        intro hend
        obtain ⟨other, -, haccepts⟩ := hagree.mp (Or.inr hend)
        rw [not_accepts_of_atTheEnd hend (strtoll_bounds other)] at haccepts
        cases haccepts
      exact ⟨hnot, fun other hother haccepts ↦
        (hagree.mpr ⟨other, hother, haccepts⟩).resolve_right hnot⟩

/-- Over a range, the inodes collected are the owners if and only if every value of the key is
safe: an inode has one value of a key. -/
theorem collectRange_iff {s : MetadataStore} (hsound : s.Sound) (lib : PatternLibrary)
    {tree : NumidxTree} (hkey : flt.key ≠ wildcardKey) (hroute : numericRoute flt.key s = some tree)
    (hrange : numRange flt.op flt.value = some (low, high)) :
    (∀ inodeId, inodeId ∈ numidxCollectRange flt.key low high tree ↔ Owns lib flt s inodeId) ↔
      ∀ r ∈ s.metaTree.records, r.key = flt.key → RangeSafe flt r := by
  constructor
  · intro hagree r hr hrkey
    have honly (q : MetadataRecord) (hq : q ∈ s.metaTree.records) (hinode : q.inodeId = r.inodeId)
        (hqkey : q.key = flt.key) : q = r :=
      only_of_mem hsound hr q hq (by
        rw [MetadataRecord.order, MetadataRecord.order, hinode, hqkey, hrkey])
    rw [rangeSafe_iff lib hrange]
    constructor
    · intro hnumber
      obtain ⟨q, hq, hinode, hqkey, hmatches⟩ :=
        (hagree r.inodeId).mp ((mem_collectRange hsound hroute).mpr ⟨r, hr, rfl, hrkey, hnumber⟩)
      exact honly q hq hinode (hqkey.resolve_left hkey) ▸ hmatches
    · intro hmatches
      obtain ⟨q, hq, hinode, hqkey, hnumber⟩ := (mem_collectRange hsound hroute).mp
        ((hagree r.inodeId).mpr ⟨r, hr, rfl, Or.inr hrkey, hmatches⟩)
      exact honly q hq hinode hqkey ▸ hnumber
  · intro hsafe inodeId
    rw [mem_collectRange hsound hroute]
    refine exists_congr fun r ↦ and_congr_right fun hr ↦ and_congr_right fun _ ↦ ?_
    rw [or_iff_right hkey]
    exact and_congr_right fun hrkey ↦ (rangeSafe_iff lib hrange r).mp (hsafe r hr hrkey)

/-- The C library that no pattern matches. -/
def noPatterns : PatternLibrary := ⟨fun _ _ _ ↦ false, fun _ _ _ ↦ false⟩

/-- Two images with an index on the key: one has the value `5`, the other the values `5` and `7`. -/
def twoValues : List MetadataCall := indexedPut ++ [.put 2 [97] [53, 10, 55] allGranted]

end Obmafs3
