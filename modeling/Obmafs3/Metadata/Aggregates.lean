import Mathlib.Data.Set.Card
import Obmafs3.Metadata.QueryParser

/-!
# Listings and statistics

Three requests go over all values of a key, by a scan of the reverse index that takes every value
apart into its lines. One lists the different values, one counts the inodes of each, and both are
handed out in pages. The third is for numbers and sums up whatever is in front of a value, so a
value without a number counts as zero.

`aggregates_agree_iff` says for which values of a key all three agree with what is stored.
-/

set_option autoImplicit false

namespace Obmafs3

open Library.Search Library.SearchTree Library.SortedLists

/-! ### The scan -/

/-- The texts that are taken from a value. Empty ones are skipped. -/
def valueTexts (key value : Text) : List Text :=
  (if key = commentsKey then [value] else subValues value).filter (· ≠ [])

/-- The entries of the reverse index that a scan for a key goes over. -/
def keyScan (key : Text) (s : MetadataStore) : List MetadataIdxRecord :=
  scan (fun r ↦ decide (r.key < key)) (fun r ↦ decide (key < r.key))
    (s.midxTree.recordsFrom (indexFind · (toLex (key, toLex ([], 0)))))

/-- The values of a key in the order of the scan. -/
def scanTexts (key : Text) (s : MetadataStore) : List Text :=
  (keyScan key s).flatMap fun r ↦ valueTexts key r.value

/-- The values of a key in the order of the scan, each with its inode: `struct groupby_pair`. -/
def scanPairs (key : Text) (s : MetadataStore) : List (Text × ℕ) :=
  (keyScan key s).flatMap fun r ↦ (valueTexts key r.value).map fun v ↦ (v, r.inodeId)

/-- The capacity of an array of `n` elements that is to take one more. The counter is one of 32
bits. -/
def grow (n capacity : ℕ) : ℕ := if capacity ≤ n then 2 * capacity % 2 ^ 32 else capacity

/-- Whether an array of `n` elements takes so many more. It does not when its capacity has become
zero, for which there is no memory. -/
def takes (n capacity : ℕ) : ℕ → Bool
  | 0 => true
  | more + 1 => grow n capacity ≠ 0 && takes (n + 1) (grow n capacity) more

/-! ### Lists and groups -/

/-- `obmafs3_metadata_distinct`. -/
def metadataDistinct (key : Text) (s : MetadataStore) : Except QueryError (List Text) :=
  if takes 0 64 (scanTexts key s).length then .ok (sortDedup (scanTexts key s)) else .error .noMem

/-- `obmafs3_metadata_groupby`. There are no more groups than pairs, so the arrays for them do not
run out of room first. -/
def metadataGroupby (key : Text) (s : MetadataStore) : Except QueryError (List (Text × ℕ)) :=
  if takes 0 64 (scanPairs key s).length then .ok (groupCounts (scanPairs key s))
  else .error .noMem

/-- `METADATA_DISTINCT_MAX_RESULTS` and `METADATA_GROUPBY_MAX_RESULTS`. -/
def metadataListMaxResults : ℕ := 8

/-- A value as it is copied into a reply. -/
def replyValue (value : Text) : Text := value.take (metadataValueMax - 1)

/-- What a page has of a list, and the length of the list. -/
def listPage {α : Type} (offset : ℕ) (l : List α) : List α × ℕ :=
  ((l.drop offset).take metadataListMaxResults, l.length)

/-- `OBMAFS3_IOC_DISTINCT_METADATA`. -/
def distinctMetadata (key : Text) (s : MetadataStore) (offset : ℕ) :
    Except QueryError (List Text × ℕ) :=
  (metadataDistinct key s).map fun values ↦ listPage offset (values.map replyValue)

/-- `OBMAFS3_IOC_GROUPBY_METADATA`. -/
def groupbyMetadata (key : Text) (s : MetadataStore) (offset : ℕ) :
    Except QueryError (List (Text × ℕ) × ℕ) :=
  (metadataGroupby key s).map fun groups ↦
    listPage offset (groups.map fun g ↦ (replyValue g.1, g.2))

/-- The loop of `execute_distinct` and `execute_groupby`: ask for a page, and go on behind what it
had until it is empty or was the last. There is no answer if a page is refused. -/
def fetchPages {α : Type} (request : ℕ → Except QueryError (List α × ℕ)) : ℕ → ℕ → Option (List α)
  | 0, _ => none
  | fuel + 1, offset =>
    match request offset with
    | .error _ => none
    | .ok ([], _) => some []
    | .ok (a :: page, total) =>
      if total ≤ offset + (page.length + 1) then some (a :: page)
      else (fetchPages request fuel (offset + (page.length + 1))).map (a :: page ++ ·)

/-! ### Statistics -/

/-- `struct obmafs3_metadata_stats_result`. -/
structure MetadataStats where
  count : ℕ
  min : ℤ
  max : ℤ
  sum : ℤ
  deriving DecidableEq, Repr

/-- What an addition in 64 bits leaves of a number. -/
def wrapInt64 (n : ℤ) : ℤ := n.bmod (2 ^ 64)

/-- One more value. -/
def MetadataStats.aggregate (st : MetadataStats) (value : Text) : MetadataStats :=
  let v := (strtoll (value.take (metadataValueMax - 1))).1
  ⟨(st.count + 1) % 2 ^ 32, if v < st.min then v else st.min, if st.max < v then v else st.max,
    wrapInt64 (st.sum + v)⟩

/-- `obmafs3_metadata_stats`. -/
def metadataStats (key : Text) (s : MetadataStore) : MetadataStats :=
  let st := (scanTexts key s).foldl MetadataStats.aggregate ⟨0, int64Max, int64Min, 0⟩
  ⟨st.count, if 0 < st.count then st.min else 0, if 0 < st.count then st.max else 0, st.sum⟩

/-! ### What is stored -/

/-- An inode owns a value of a key. -/
def MetadataStore.HasValue (s : MetadataStore) (key value : Text) (inodeId : ℕ) : Prop :=
  ∃ r ∈ s.metaTree.records, r.inodeId = inodeId ∧ r.key = key ∧ value ∈ valueTexts key r.value

/-- All values of a key, one for every inode and line. -/
def MetadataStore.keyTexts (s : MetadataStore) (key : Text) : List Text :=
  (s.metaTree.records.filter (·.key = key)).flatMap fun r ↦ valueTexts key r.value

/-- The integer of 64 bits that a text is from end to end. -/
def int64Number (value : Text) : Option ℤ :=
  let number := value.dropWhile isSpace
  let digits := skipSign number
  let n := if number.head? = some 45 then -digitsValue digits else digitsValue digits
  if digits ≠ [] ∧ (∀ c ∈ digits, isDigit c = true) ∧ int64Min ≤ n ∧ n ≤ int64Max then some n
  else none

/-- The numbers under a key. -/
def MetadataStore.keyNumbers (s : MetadataStore) (key : Text) : List ℤ :=
  (s.keyTexts key).filterMap int64Number

/-- A list is handed out in pages: each is a window of it, and one after the other they are the
whole list. -/
structure Paged {α : Type} (request : ℕ → Except QueryError (List α × ℕ)) (l : List α) : Prop where
  window : ∀ offset, request offset = .ok ((l.drop offset).take metadataListMaxResults, l.length)
  all : ∀ fuel, l.length < fuel → fetchPages request fuel 0 = some l

/-- The list of the different values of a key. -/
def DistinctAgrees (key : Text) (s : MetadataStore) : Prop :=
  ∃ values, metadataDistinct key s = .ok values ∧ values.Pairwise (· < ·) ∧
    (∀ v, v ∈ values ↔ ∃ inodeId, s.HasValue key v inodeId) ∧
    Paged (distinctMetadata key s) values

/-- The groups of a key, each with the number of inodes that own its value. -/
def GroupsAgree (key : Text) (s : MetadataStore) : Prop :=
  ∃ groups, metadataGroupby key s = .ok groups ∧ (groups.map Prod.fst).Pairwise (· < ·) ∧
    (∀ v count, (v, count) ∈ groups ↔ (∃ inodeId, s.HasValue key v inodeId) ∧
      count = {inodeId | s.HasValue key v inodeId}.ncard) ∧
    Paged (groupbyMetadata key s) groups

/-- The statistics are those of some numbers. The sum is exact if it is one of 64 bits. -/
structure MetadataStats.Describes (st : MetadataStats) (numbers : List ℤ) : Prop where
  count : st.count = numbers.length
  min : numbers ≠ [] → IsLeast {n | n ∈ numbers} st.min
  max : numbers ≠ [] → IsGreatest {n | n ∈ numbers} st.max
  sum : int64Min ≤ numbers.sum → numbers.sum ≤ int64Max → st.sum = numbers.sum

/-- The three requests agree with what is stored. -/
structure AggregatesAgree (key : Text) (s : MetadataStore) : Prop where
  distinct : DistinctAgrees key s
  groups : GroupsAgree key s
  stats : (metadataStats key s).Describes (s.keyNumbers key)

/-! ### The values of a scan -/

theorem length_le_of_mem_splitParts {separator : ℕ} {part s line : Text}
    (hline : line ∈ splitParts separator part s) : line.length ≤ part.length + s.length := by
  induction s generalizing part with
  | nil =>
    rw [splitParts] at hline
    split_ifs at hline
    · cases hline
    · rw [List.mem_singleton.mp hline]
      exact Nat.le_add_right _ _
  | cons c s ih =>
    rw [splitParts] at hline
    rw [List.length_cons]
    split_ifs at hline
    · rcases List.mem_cons.mp hline with rfl | hline
      · omega
      · have hle := ih hline
        rw [List.length_nil] at hle
        omega
    · have hle := ih hline
      rw [List.length_append, List.length_singleton] at hle
      omega

theorem length_le_of_mem_valueTexts {key value v : Text} (hv : v ∈ valueTexts key value) :
    v.length ≤ value.length := by
  obtain ⟨hv, -⟩ := List.mem_filter.mp hv
  split_ifs at hv
  · rw [List.mem_singleton.mp hv]
  · simpa using length_le_of_mem_splitParts hv

/-- An array takes elements until there are as many as its counter has room for. -/
theorem takes_iff {n e : ℕ} (he : e ≤ 31) (hn : n ≤ 2 ^ e) (more : ℕ) :
    takes n (2 ^ e) more = true ↔ n + more ≤ 2 ^ 31 := by
  induction more generalizing n e with
  | zero =>
    have hle : n ≤ 2 ^ 31 := hn.trans (Nat.pow_le_pow_right (by decide) he)
    exact iff_of_true rfl hle
  | succ more ih =>
    rw [takes, grow]
    split_ifs with hfull
    · obtain rfl : n = 2 ^ e := le_antisymm hn hfull
      rcases Nat.lt_or_ge e 31 with hlt | hge
      · have hnext : 2 ^ (e + 1) ≤ 2 ^ 31 := Nat.pow_le_pow_right (by decide) hlt
        have hgrow : 2 * 2 ^ e % 2 ^ 32 = 2 ^ (e + 1) := by
          rw [Nat.mod_eq_of_lt (by omega), Nat.pow_succ']
        have hpos : 1 ≤ 2 ^ e := Nat.one_le_two_pow
        rw [hgrow, Bool.and_eq_true, ih hlt (by rw [Nat.pow_succ]; omega)]
        simp only [ne_eq, decide_eq_true_eq, pow_eq_zero_iff', OfNat.ofNat_ne_zero, false_and,
          not_false_eq_true, true_and]
        omega
      · obtain rfl : e = 31 := le_antisymm he hge
        simp
    · rw [Bool.and_eq_true, ih he (by omega)]
      have hpos : 2 ^ e ≠ 0 := by positivity
      simp only [ne_eq, hpos, not_false_eq_true, decide_true, true_and]
      omega

theorem takes_from_empty (more : ℕ) : takes 0 64 more = true ↔ more ≤ 2 ^ 31 := by
  simpa using takes_iff (n := 0) (e := 6) (by decide) (Nat.zero_le _) more

section Scan

variable {s : MetadataStore} {key : Text}

/-- The scan goes over the records of the key, each once. -/
theorem keyScan_perm (hsound : s.Sound) (key : Text) :
    (keyScan key s).Perm ((s.metaTree.records.filter (·.key = key)).map MetadataRecord.idx) := by
  have hscan : (keyScan key s).Nodup := by
    have hrecords : s.midxTree.records.Nodup :=
      List.Nodup.of_map _ (Root.records_pairwise hsound.indexed.midxOrdered).nodup
    have hfrom := (Root.recordsFrom_suffix (indexFind · (toLex (key, toLex ([], 0))))
      s.midxTree).sublist
    exact hrecords.sublist ((scan_sublist _ _ _).trans hfrom)
  have hstored : ((s.metaTree.records.filter (·.key = key)).map MetadataRecord.idx).Nodup := by
    have hrecords : s.metaTree.records.Nodup :=
      List.Nodup.of_map _ (Root.records_pairwise hsound.ordered).nodup
    refine (hrecords.filter _).map fun r q hrq ↦ ?_
    obtain ⟨inodeId, rkey, value⟩ := r
    obtain ⟨rfl, rfl, rfl⟩ := MetadataIdxRecord.mk.inj hrq
    rfl
  refine (List.perm_ext_iff_of_nodup hscan hstored).mpr fun x ↦ ?_
  rw [keyScan, mem_keyScan hsound, List.mem_map]
  constructor
  · rintro ⟨hx, hkey⟩
    obtain ⟨r, hr, hidx⟩ := (hsound.indexed.midx x).mp hx
    obtain rfl := Option.some.inj hidx
    exact ⟨r, List.mem_filter.mpr ⟨hr, decide_eq_true hkey⟩, rfl⟩
  · rintro ⟨r, hr, rfl⟩
    obtain ⟨hr, hkey⟩ := List.mem_filter.mp hr
    exact ⟨(hsound.indexed.midx _).mpr ⟨r, hr, rfl⟩, of_decide_eq_true hkey⟩

theorem scanTexts_perm (hsound : s.Sound) (key : Text) :
    (scanTexts key s).Perm (s.keyTexts key) := by
  have hperm := (keyScan_perm hsound key).flatMap_right fun r ↦ valueTexts key r.value
  rwa [List.flatMap_map] at hperm

variable {v : Text}

theorem mem_keyTexts : v ∈ s.keyTexts key ↔ ∃ inodeId, s.HasValue key v inodeId := by
  simp only [MetadataStore.keyTexts, List.mem_flatMap, List.mem_filter, decide_eq_true_eq]
  constructor
  · rintro ⟨r, ⟨hr, hkey⟩, hv⟩
    exact ⟨r.inodeId, r, hr, rfl, hkey, hv⟩
  · rintro ⟨-, r, hr, -, hkey, hv⟩
    exact ⟨r, ⟨hr, hkey⟩, hv⟩

variable {inodeId : ℕ}

/-- The pairs that are collected for the groups are the values with their owners. -/
theorem mem_scanPairs (hsound : s.Sound) :
    (v, inodeId) ∈ scanPairs key s ↔ s.HasValue key v inodeId := by
  simp only [scanPairs, List.mem_flatMap, List.mem_map, Prod.mk.injEq]
  constructor
  · rintro ⟨x, hx, v', hv, rfl, rfl⟩
    obtain ⟨r, hr, rfl⟩ := List.mem_map.mp ((keyScan_perm hsound key).mem_iff.mp hx)
    obtain ⟨hr, hkey⟩ := List.mem_filter.mp hr
    exact ⟨r, hr, rfl, of_decide_eq_true hkey, hv⟩
  · rintro ⟨r, hr, rfl, hkey, hv⟩
    refine ⟨r.idx, (keyScan_perm hsound key).mem_iff.mpr (List.mem_map_of_mem ?_), v, hv, rfl, rfl⟩
    exact List.mem_filter.mpr ⟨hr, decide_eq_true hkey⟩

theorem length_scanPairs (hsound : s.Sound) (key : Text) :
    (scanPairs key s).length = (s.keyTexts key).length := by
  rw [← (scanTexts_perm hsound key).length_eq]
  simp only [scanPairs, scanTexts, List.length_flatMap, List.length_map]

/-- Every value is one that a reply has room for. -/
theorem replyValue_eq (hfits : ∀ r ∈ s.metaTree.records, r.value.length < metadataValueMax)
    (hv : s.HasValue key v inodeId) : replyValue v = v := by
  obtain ⟨r, hr, -, -, hv⟩ := hv
  have hlength := (length_le_of_mem_valueTexts hv).trans_lt (hfits r hr)
  exact List.take_of_length_le (Nat.le_sub_one_of_lt hlength)

end Scan

/-! ### Pages -/

section Pages

variable {α : Type} {request : ℕ → Except QueryError (List α × ℕ)} {l : List α}

variable (hrequest : ∀ offset, request offset = .ok (listPage offset l))
include hrequest

/-- From an offset on, the pages are the rest of the list. -/
theorem fetchPages_eq {fuel : ℕ} {offset : ℕ} (hfuel : l.length < fuel + offset) (hpos : 0 < fuel) :
    fetchPages request fuel offset = some (l.drop offset) := by
  induction fuel generalizing offset with
  | zero => exact absurd hpos (Nat.lt_irrefl 0)
  | succ fuel ih =>
    rw [fetchPages, hrequest, listPage]
    have hparts : (l.drop offset).take metadataListMaxResults ++
        l.drop (offset + metadataListMaxResults) = l.drop offset := by
      rw [← List.drop_drop, List.take_append_drop]
    cases hpage : (l.drop offset).take metadataListMaxResults with
    | nil =>
      have hdone : l.drop offset = [] := by
        simpa [metadataListMaxResults] using hpage
      rw [hdone]
    | cons a page =>
      have hlength := congrArg List.length hpage
      rw [List.length_take, List.length_drop, List.length_cons] at hlength
      simp only [metadataListMaxResults] at hlength hparts hpage
      change (if l.length ≤ offset + (page.length + 1) then _ else _) = _
      split_ifs with hlast
      · rw [← hpage, List.take_of_length_le]
        rw [List.length_drop]
        omega
      · have hfull : page.length + 1 = 8 := by omega
        rw [ih (by omega) (by omega), hfull, Option.map_some, ← hpage, hparts]

theorem paged_of_request : Paged request l :=
  ⟨hrequest, fun fuel hfuel ↦ by
    have hpages : fetchPages request fuel 0 = some (l.drop 0) :=
      fetchPages_eq hrequest hfuel (Nat.zero_lt_of_lt hfuel)
    rwa [List.drop_zero] at hpages⟩

end Pages

/-! ### Numbers -/

theorem strtoll_of_int64Number {value : Text} {n : ℤ} (hnumber : int64Number value = some n) :
    (strtoll value).1 = n := by
  simp only [int64Number] at hnumber
  split_ifs at hnumber with hsign hfits hfits
  all_goals
    obtain ⟨hne, hdigits, hlow, hhigh⟩ := hfits
    have hall : (skipSign (value.dropWhile isSpace)).takeWhile isDigit =
        skipSign (value.dropWhile isSpace) := List.takeWhile_eq_self_iff.mpr hdigits
    obtain rfl := Option.some.inj hnumber
    simp only [strtoll, hall, if_neg hne, hsign, ↓reduceIte]
    rw [clampInt64, min_eq_right hhigh, max_eq_right hlow]

/-- When every value is a number, the numbers are what `strtoll` reads. -/
theorem filterMap_int64Number {values : List Text} (hnumbers : ∀ v ∈ values, int64Number v ≠ none) :
    values.filterMap int64Number = values.map fun v ↦ (strtoll v).1 := by
  induction values with
  | nil => rfl
  | cons v values ih =>
    obtain ⟨hfirst, hrest⟩ := List.forall_mem_cons.mp hnumbers
    obtain ⟨n, hn⟩ := Option.ne_none_iff_exists'.mp hfirst
    rw [List.filterMap_cons_some hn, List.map_cons, ih hrest, strtoll_of_int64Number hn]

variable {α : Type}

/-- Keeping the smaller one along a list ends with the smallest. -/
theorem isLeast_foldl [LinearOrder α] (m : α) (l : List α) :
    IsLeast {n | n ∈ m :: l} (l.foldl (fun m n ↦ if n < m then n else m) m) := by
  induction l generalizing m with
  | nil => exact ⟨List.mem_cons_self, fun n hn ↦ (List.mem_singleton.mp hn).ge⟩
  | cons a l ih =>
    obtain ⟨hmem, hle⟩ := ih (if a < m then a else m)
    have hkept : (if a < m then a else m) ≤ m ∧ (if a < m then a else m) ≤ a := by
      split_ifs with hlt
      · exact ⟨hlt.le, le_rfl⟩
      · exact ⟨le_rfl, not_lt.mp hlt⟩
    have hfirst := hle List.mem_cons_self
    refine ⟨?_, fun n hn ↦ ?_⟩
    · rw [List.foldl_cons]
      rcases List.mem_cons.mp hmem with heq | hmem
      · rw [heq]
        split_ifs
        · exact List.mem_cons_of_mem _ List.mem_cons_self
        · exact List.mem_cons_self
      · exact List.mem_cons_of_mem _ (List.mem_cons_of_mem _ hmem)
    · rcases List.mem_cons.mp hn with rfl | hn
      · exact hfirst.trans hkept.1
      · rcases List.mem_cons.mp hn with rfl | hn
        · exact hfirst.trans hkept.2
        · exact hle (List.mem_cons_of_mem _ hn)

variable {bound m : α} {l : List α}

/-- The smallest of some elements and a bound of them is the smallest of the elements. -/
theorem isLeast_of_cons [PartialOrder α] (hleast : IsLeast {n | n ∈ bound :: l} m) (hne : l ≠ [])
    (hbound : ∀ n ∈ l, n ≤ bound) : IsLeast {n | n ∈ l} m := by
  obtain ⟨hmem, hle⟩ := hleast
  refine ⟨?_, fun n hn ↦ hle (List.mem_cons_of_mem _ hn)⟩
  rcases List.mem_cons.mp hmem with rfl | hmem
  · obtain ⟨n, hn⟩ := List.exists_mem_of_ne_nil l hne
    have heq : m = n := le_antisymm (hle (List.mem_cons_of_mem _ hn)) (hbound n hn)
    exact heq ▸ hn
  · exact hmem

theorem isGreatest_foldl [LinearOrder α] (m : α) (l : List α) :
    IsGreatest {n | n ∈ m :: l} (l.foldl (fun m n ↦ if m < n then n else m) m) :=
  isLeast_foldl (α := αᵒᵈ) m l

theorem isGreatest_of_cons [PartialOrder α] (hgreatest : IsGreatest {n | n ∈ bound :: l} m)
    (hne : l ≠ []) (hbound : ∀ n ∈ l, bound ≤ n) : IsGreatest {n | n ∈ l} m :=
  isLeast_of_cons (α := αᵒᵈ) hgreatest hne hbound

section Statistics

variable {values : List Text}

/-- What the statistics of some values are, from those of the values before. -/
theorem foldl_aggregate (hfits : ∀ v ∈ values, v.length < metadataValueMax) (st : MetadataStats)
    (hcount : st.count + values.length < 2 ^ 32) (hsum : wrapInt64 st.sum = st.sum) :
    values.foldl MetadataStats.aggregate st = ⟨st.count + values.length,
        (values.map fun v ↦ (strtoll v).1).foldl (fun m n ↦ if n < m then n else m) st.min,
        (values.map fun v ↦ (strtoll v).1).foldl (fun m n ↦ if m < n then n else m) st.max,
        wrapInt64 (st.sum + (values.map fun v ↦ (strtoll v).1).sum)⟩ := by
  induction values generalizing st with
  | nil => simp [hsum]
  | cons v values ih =>
    obtain ⟨hfirst, hrest⟩ := List.forall_mem_cons.mp hfits
    rw [List.length_cons] at hcount
    have hwhole : v.take (metadataValueMax - 1) = v :=
      List.take_of_length_le (Nat.le_sub_one_of_lt hfirst)
    have hnext : (st.aggregate v).count = st.count + 1 := Nat.mod_eq_of_lt (by omega)
    have hwrapped : wrapInt64 (st.aggregate v).sum = (st.aggregate v).sum := Int.bmod_bmod
    rw [List.foldl_cons, ih hrest (st.aggregate v) (by omega) hwrapped]
    simp only [MetadataStats.aggregate, hwhole, List.map_cons, List.foldl_cons, List.length_cons,
      List.sum_cons, wrapInt64, Int.bmod_add_bmod, MetadataStats.mk.injEq, true_and]
    rw [Nat.mod_eq_of_lt (by omega)]
    exact ⟨by omega, by rw [add_assoc]⟩

end Statistics

/-! ### Where the requests agree -/

section Agree

variable {s : MetadataStore} {key : Text}

section

variable (hsound : s.Sound) (hfits : ∀ r ∈ s.metaTree.records, r.value.length < metadataValueMax)
include hsound hfits

theorem distinctAgrees_iff : DistinctAgrees key s ↔ (s.keyTexts key).length ≤ 2 ^ 31 := by
  have hperm := scanTexts_perm hsound key
  have htakes := takes_from_empty (scanTexts key s).length
  rw [hperm.length_eq] at htakes
  rw [← htakes]
  constructor
  · rintro ⟨values, hvalues, -⟩
    by_contra hfull
    rw [metadataDistinct, hperm.length_eq, if_neg hfull] at hvalues
    cases hvalues
  · intro hroom
    have hvalues : metadataDistinct key s = .ok (sortDedup (scanTexts key s)) := by
      rw [metadataDistinct, hperm.length_eq, if_pos hroom]
    have howned (v : Text) :
        v ∈ sortDedup (scanTexts key s) ↔ ∃ inodeId, s.HasValue key v inodeId := by
      rw [mem_sortDedup, hperm.mem_iff, mem_keyTexts]
    have hreply : (sortDedup (scanTexts key s)).map replyValue = sortDedup (scanTexts key s) := by
      refine (List.map_congr_left fun v hv ↦ ?_).trans (List.map_id _)
      obtain ⟨inodeId, howner⟩ := (howned v).mp hv
      exact replyValue_eq hfits howner
    refine ⟨_, hvalues, pairwise_sortDedup _, howned, paged_of_request fun offset ↦ ?_⟩
    rw [distinctMetadata, hvalues, Except.map, hreply]

theorem groupsAgree_of_room (hroom : (s.keyTexts key).length ≤ 2 ^ 31) : GroupsAgree key s := by
  obtain ⟨hsorted, hmem⟩ := groupCounts_spec (scanPairs key s)
  have hgroups : metadataGroupby key s = .ok (groupCounts (scanPairs key s)) := by
    rw [metadataGroupby, length_scanPairs hsound, if_pos ((takes_from_empty _).mpr hroom)]
  have howners (v : Text) :
      {inodeId | s.HasValue key v inodeId}.ncard = (seconds v (scanPairs key s)).card := by
    rw [← Set.ncard_coe_finset]
    refine congrArg Set.ncard (Set.ext fun inodeId ↦ ?_)
    exact (mem_scanPairs hsound).symm.trans mem_seconds.symm
  have howned (v : Text) (count : ℕ) : (v, count) ∈ groupCounts (scanPairs key s) ↔
      (∃ inodeId, s.HasValue key v inodeId) ∧
        count = {inodeId | s.HasValue key v inodeId}.ncard := by
    rw [hmem, howners]
    exact and_congr_left' (exists_congr fun _ ↦ mem_scanPairs hsound)
  have hreply : (groupCounts (scanPairs key s)).map (fun g ↦ (replyValue g.1, g.2)) =
      groupCounts (scanPairs key s) := by
    refine (List.map_congr_left fun g hg ↦ ?_).trans (List.map_id _)
    obtain ⟨inodeId, howner⟩ := ((howned g.1 g.2).mp hg).1
    rw [replyValue_eq hfits howner]
    rfl
  refine ⟨_, hgroups, hsorted, howned, paged_of_request fun offset ↦ ?_⟩
  rw [groupbyMetadata, hgroups, Except.map, hreply]

variable (hcount : (s.keyTexts key).length < 2 ^ 32)
include hcount

/-- What the scan sums up. -/
theorem foldl_scanTexts :
    (scanTexts key s).foldl MetadataStats.aggregate ⟨0, int64Max, int64Min, 0⟩ =
      ⟨(s.keyTexts key).length,
        ((scanTexts key s).map fun v ↦ (strtoll v).1).foldl (fun m n ↦ if n < m then n else m)
          int64Max,
        ((scanTexts key s).map fun v ↦ (strtoll v).1).foldl (fun m n ↦ if m < n then n else m)
          int64Min,
        wrapInt64 ((s.keyTexts key).map fun v ↦ (strtoll v).1).sum⟩ := by
  have hperm := scanTexts_perm hsound key
  have hlengths (v : Text) (hv : v ∈ scanTexts key s) : v.length < metadataValueMax := by
    obtain ⟨inodeId, r, hr, -, -, hv⟩ := mem_keyTexts.mp (hperm.mem_iff.mp hv)
    exact (length_le_of_mem_valueTexts hv).trans_lt (hfits r hr)
  have hfold := foldl_aggregate hlengths ⟨0, int64Max, int64Min, 0⟩
    (by simpa [hperm.length_eq] using hcount) rfl
  simpa only [hperm.length_eq, (hperm.map fun v ↦ (strtoll v).1).sum_eq, zero_add] using hfold

theorem metadataStats_count : (metadataStats key s).count = (s.keyTexts key).length := by
  rw [metadataStats, foldl_scanTexts hsound hfits hcount]

/-- The statistics of values that are numbers. -/
theorem metadataStats_describes (hnumbers : ∀ v ∈ s.keyTexts key, int64Number v ≠ none) :
    (metadataStats key s).Describes (s.keyNumbers key) := by
  have hlist : s.keyNumbers key = (s.keyTexts key).map fun v ↦ (strtoll v).1 :=
    filterMap_int64Number hnumbers
  have hperm := (scanTexts_perm hsound key).map fun v ↦ (strtoll v).1
  rw [← hlist] at hperm
  have hmem : {n | n ∈ (scanTexts key s).map fun v ↦ (strtoll v).1} =
      {n | n ∈ s.keyNumbers key} := Set.ext fun n ↦ hperm.mem_iff
  have hbounds (n : ℤ) (hn : n ∈ (scanTexts key s).map fun v ↦ (strtoll v).1) :
      int64Min ≤ n ∧ n ≤ int64Max := by
    obtain ⟨v, -, rfl⟩ := List.mem_map.mp hn
    exact strtoll_bounds v
  have hpos (hne : s.keyNumbers key ≠ []) : 0 < (s.keyTexts key).length := by
    have hlength := List.length_pos_of_ne_nil hne
    rwa [hlist, List.length_map] at hlength
  have hnonempty (hne : s.keyNumbers key ≠ []) :
      (scanTexts key s).map (fun v ↦ (strtoll v).1) ≠ [] := fun hnil ↦
    hne (List.perm_nil.mp (hnil ▸ hperm).symm)
  rw [metadataStats, foldl_scanTexts hsound hfits hcount]
  constructor
  · rw [hlist, List.length_map]
  · intro hne
    simp only [if_pos (hpos hne)]
    rw [← hmem]
    exact isLeast_of_cons (isLeast_foldl _ _) (hnonempty hne) fun n hn ↦ (hbounds n hn).2
  · intro hne
    simp only [if_pos (hpos hne)]
    rw [← hmem]
    exact isGreatest_of_cons (isGreatest_foldl _ _) (hnonempty hne) fun n hn ↦ (hbounds n hn).1
  · intro hlow hhigh
    rw [← hlist]
    simp only [int64Min, int64Max] at hlow hhigh
    exact Int.bmod_eq_of_le_mul_two (by norm_num; omega) (by norm_num; omega)

end

/-- The three requests agree with what is stored if and only if there are not too many values of
the key and each of them is an integer of 64 bits. -/
theorem aggregates_agree_iff (hsound : s.Sound)
    (hfits : ∀ r ∈ s.metaTree.records, r.value.length < metadataValueMax) (key : Text) :
    AggregatesAgree key s ↔
      (s.keyTexts key).length ≤ 2 ^ 31 ∧ ∀ v ∈ s.keyTexts key, int64Number v ≠ none := by
  constructor
  · rintro ⟨hdistinct, -, hstats⟩
    have hroom := (distinctAgrees_iff hsound hfits).mp hdistinct
    have hcount := metadataStats_count hsound hfits (hroom.trans_lt (by decide))
    have hall : (s.keyNumbers key).length = (s.keyTexts key).length :=
      hstats.count.symm.trans hcount
    refine ⟨hroom, fun v hv ↦ ?_⟩
    exact Option.isSome_iff_ne_none.mp (List.filterMap_length_eq_length.mp hall v hv)
  · rintro ⟨hroom, hnumbers⟩
    exact ⟨(distinctAgrees_iff hsound hfits).mpr hroom, groupsAgree_of_room hsound hfits hroom,
      metadataStats_describes hsound hfits (hroom.trans_lt (by decide)) hnumbers⟩

end Agree

/-- They agree on the values of a volume with one number. -/
theorem aggregates_agree_put : AggregatesAgree [97] (runMetadata indexedPut (freshMetadata 4096)) :=
  (aggregates_agree_iff ((freshMetadata_sound ⟨by decide, by decide⟩).run indexedPut_careful)
    (by decide +kernel) [97]).mpr ⟨by decide +kernel, by decide +kernel⟩

/-- Of the values `5` and `x` of two inodes only the first is a number. Both are counted, and the
smallest is said to be zero. -/
theorem aggregates_differ :
    metadataStats [97] (runMetadata [.put 1 [97] [53] allGranted, .put 2 [97] [120] allGranted]
        (freshMetadata 4096)) = ⟨2, 0, 5, 5⟩ ∧
      ¬AggregatesAgree [97] (runMetadata
        [.put 1 [97] [53] allGranted, .put 2 [97] [120] allGranted] (freshMetadata 4096)) := by
  refine ⟨by decide +kernel, fun hagree ↦ ?_⟩
  have hcount := hagree.stats.count
  revert hcount
  decide +kernel

end Obmafs3
