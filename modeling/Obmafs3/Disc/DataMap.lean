import Mathlib.Data.List.Sort
import Obmafs3.Library.Halving

/-!
# The data map of a GameCube or Wii disc

The files of a file table as a table of byte ranges sorted by start, and the test whether a range of
the disc holds file data. The test halves the table and turns right at every file that ends at or
before the range, as if the ends ascended with the starts. `ngcIsDataRegion_exact_iff` says for
which tables and ranges it is right all the same.
-/

set_option autoImplicit false

namespace Obmafs3

open Library.Halving

/-- `struct ngc_data_region`: a start and a length in bytes. -/
structure NgcDataRegion where
  offset : ℕ
  length : ℕ
  deriving DecidableEq, Repr

/-- Where a region ends, in 64 bits. -/
def NgcDataRegion.stop (region : NgcDataRegion) : ℕ := (region.offset + region.length) % 2 ^ 64

/-- `struct ngc_data_map`. -/
structure NgcDataMap where
  regions : List NgcDataRegion
  capacity : ℕ
  deriving DecidableEq, Repr

def NgcDataMap.count (map : NgcDataMap) : ℕ := map.regions.length

/-- `ngc_be32` of the bytes at a position. -/
def ngcBe32 (bytes : List UInt8) (position : ℕ) : ℕ :=
  (bytes.getD position 0).toNat * 2 ^ 24 + (bytes.getD (position + 1) 0).toNat * 2 ^ 16 +
    (bytes.getD (position + 2) 0).toNat * 2 ^ 8 + (bytes.getD (position + 3) 0).toNat

/-- The size of `struct ngc_fst_entry`: a type, a name offset of three bytes, and two words. -/
def ngcFstEntrySize : ℕ := 12

/-- `new_cap` of `data_map_add`. -/
def NgcDataMap.newCap (map : NgcDataMap) : ℕ :=
  if map.capacity = 0 then 256 else map.capacity * 2 % 2 ^ 32

/-- `data_map_add`; `realloc` says for which capacities there is memory. -/
def dataMapAdd (realloc : ℕ → Bool) (map : NgcDataMap) (offset length : ℕ) : Option NgcDataMap :=
  if length = 0 then some map
  else if map.capacity ≤ map.count then
    if realloc map.newCap then some ⟨map.regions ++ [⟨offset, length⟩], map.newCap⟩ else none
  else some { map with regions := map.regions ++ [⟨offset, length⟩] }

/-- What `qsort` with `region_cmp` promises: the same regions with ascending starts. It says nothing
of the order of two regions with one start. -/
structure RegionSort where
  sort : List NgcDataRegion → List NgcDataRegion
  perm : ∀ regions, (sort regions).Perm regions
  sorted : ∀ regions, (sort regions).Pairwise fun a b ↦ a.offset ≤ b.offset

/-- The start of the file at an index of the table, in 64 bits. -/
def fileStart (fst : List UInt8) (dataStartOffset addressShift index : ℕ) : ℕ :=
  (dataStartOffset + ngcBe32 fst (ngcFstEntrySize * index + 4) * 2 ^ addressShift % 2 ^ 64) %
    2 ^ 64

/-- The length of the file at an index of the table. -/
def fileLength (fst : List UInt8) (index : ℕ) : ℕ := ngcBe32 fst (ngcFstEntrySize * index + 8)

/-- An entry of type zero is a file. -/
def isFile (fst : List UInt8) (index : ℕ) : Bool := fst.getD (ngcFstEntrySize * index) 0 == 0

/-- One round of the loop over the table. -/
def addEntry (realloc : ℕ → Bool) (fst : List UInt8) (dataStartOffset addressShift : ℕ)
    (map : NgcDataMap) (index : ℕ) : Option NgcDataMap :=
  if isFile fst index then
    dataMapAdd realloc map (fileStart fst dataStartOffset addressShift index) (fileLength fst index)
  else some map

/-- The entries after the root: the root's length says how many entries there are. -/
def entryIndices (fst : List UInt8) : List ℕ := List.range' 1 (ngcBe32 fst 8 - 1)

/-- `ngc_build_data_map` of a table of `fst.length` bytes. -/
def ngcBuildDataMap (qsort : RegionSort) (realloc : ℕ → Bool) (fst : List UInt8)
    (dataStartOffset addressShift : ℕ) : Option NgcDataMap :=
  if fst.length < ngcFstEntrySize then none
  else if fst.length < ngcBe32 fst 8 * ngcFstEntrySize then none
  else do
    let map ← (entryIndices fst).foldlM (addEntry realloc fst dataStartOffset addressShift) ⟨[], 0⟩
    some (if 1 < map.count then { map with regions := qsort.sort map.regions } else map)

/-- The region at an index of the table; the search only reads indices inside it. -/
def NgcDataMap.region (map : NgcDataMap) (index : ℤ) : NgcDataRegion :=
  map.regions.getD index.toNat ⟨0, 0⟩

/-- The loop of `ngc_is_data_region` over the window `[lo, hi]`. -/
def NgcDataMap.search (map : NgcDataMap) (offset length : ℕ) (lo hi : ℤ) : Bool :=
  if lo ≤ hi then
    if (map.region (lo + (hi - lo) / 2)).stop ≤ offset then
      map.search offset length (lo + (hi - lo) / 2 + 1) hi
    else if (offset + length) % 2 ^ 64 ≤ (map.region (lo + (hi - lo) / 2)).offset then
      map.search offset length lo (lo + (hi - lo) / 2 - 1)
    else true
  else false
termination_by (hi + 1 - lo).toNat
decreasing_by all_goals omega

/-- `ngc_is_data_region`. A table of less than `2 ^ 32` bytes has less than `2 ^ 31` files, so the
cast of the count to `int` changes nothing. -/
def ngcIsDataRegion (map : NgcDataMap) (offset length : ℕ) : Bool :=
  map.search offset length 0 (map.count - 1)

/-! ## What the map holds -/

/-- A range of bytes that a file of the table takes. -/
def IsFileRange (fst : List UInt8) (dataStartOffset addressShift : ℕ) (region : NgcDataRegion) :
    Prop :=
  ∃ index ∈ entryIndices fst, isFile fst index = true ∧
    region = ⟨fileStart fst dataStartOffset addressShift index, fileLength fst index⟩

/-- Two ranges of bytes share a byte. -/
def SharesByte (region : NgcDataRegion) (offset length : ℕ) : Prop :=
  ∃ byte, region.offset ≤ byte ∧ byte < region.offset + region.length ∧
    offset ≤ byte ∧ byte < offset + length

variable {region : NgcDataRegion} {offset length : ℕ}

theorem sharesByte_iff (hregion : 0 < region.length) (hlength : 0 < length) :
    SharesByte region offset length ↔
      region.offset < offset + length ∧ offset < region.offset + region.length := by
  constructor
  · rintro ⟨byte, hstart, hstop, hoffset, hend⟩
    omega
  · rintro ⟨hstart, hend⟩
    refine ⟨max region.offset offset, le_max_left _ _, ?_, le_max_right _ _, ?_⟩
    · exact max_lt (by omega) hend
    · exact max_lt hstart (by omega)

theorem SharesByte.length_pos (hshares : SharesByte region offset length) : 0 < region.length := by
  obtain ⟨byte, hstart, hstop, -⟩ := hshares
  omega

section Build

variable {qsort : RegionSort} {realloc : ℕ → Bool} {fst : List UInt8}
  {dataStartOffset addressShift : ℕ} {map map' : NgcDataMap}

theorem mem_dataMapAdd {offset length : ℕ} (hadd : dataMapAdd realloc map offset length = some map')
    (region : NgcDataRegion) :
    region ∈ map'.regions ↔ region ∈ map.regions ∨ length ≠ 0 ∧ region = ⟨offset, length⟩ := by
  unfold dataMapAdd at hadd
  split_ifs at hadd with hzero hfull halloc
  · cases hadd
    simp [hzero]
  · obtain rfl := Option.some.inj hadd
    simp [hzero]
  · obtain rfl := Option.some.inj hadd
    simp [hzero]

theorem mem_addEntry {index : ℕ}
    (hadd : addEntry realloc fst dataStartOffset addressShift map index = some map')
    (region : NgcDataRegion) :
    region ∈ map'.regions ↔ region ∈ map.regions ∨ region.length ≠ 0 ∧ isFile fst index = true ∧
      region = ⟨fileStart fst dataStartOffset addressShift index, fileLength fst index⟩ := by
  unfold addEntry at hadd
  split_ifs at hadd with hfile
  · rw [mem_dataMapAdd hadd]
    constructor
    · rintro (hold | ⟨hlength, rfl⟩)
      · exact Or.inl hold
      · exact Or.inr ⟨hlength, hfile, rfl⟩
    · rintro (hold | ⟨hlength, -, rfl⟩)
      · exact Or.inl hold
      · exact Or.inr ⟨hlength, rfl⟩
  · cases hadd
    simp [hfile]

/-- The loop collects the files of the entries that it has seen, those of length zero apart. -/
theorem mem_foldlM_addEntry {indices : List ℕ}
    (hfold : indices.foldlM (addEntry realloc fst dataStartOffset addressShift) map = some map')
    (region : NgcDataRegion) :
    region ∈ map'.regions ↔ region ∈ map.regions ∨ region.length ≠ 0 ∧
      ∃ index ∈ indices, isFile fst index = true ∧
        region = ⟨fileStart fst dataStartOffset addressShift index, fileLength fst index⟩ := by
  induction indices generalizing map with
  | nil =>
    simp only [List.foldlM_nil, Option.pure_def, Option.some.injEq] at hfold
    subst hfold
    simp only [List.not_mem_nil, false_and, exists_false, and_false, or_false]
  | cons index indices ih =>
    rw [List.foldlM_cons, Option.bind_eq_bind, Option.bind_eq_some_iff] at hfold
    obtain ⟨next, hnext, hfold⟩ := hfold
    rw [ih hfold, mem_addEntry hnext]
    simp only [List.mem_cons, exists_eq_or_imp, and_or_left, or_assoc]

section

variable (hbuild : ngcBuildDataMap qsort realloc fst dataStartOffset addressShift = some map)
include hbuild

/-- The regions of the map are the file ranges of the table, those of length zero apart. -/
theorem mem_ngcBuildDataMap (region : NgcDataRegion) : region ∈ map.regions ↔
      0 < region.length ∧ IsFileRange fst dataStartOffset addressShift region := by
  unfold ngcBuildDataMap at hbuild
  split_ifs at hbuild
  rw [Option.bind_eq_bind, Option.bind_eq_some_iff] at hbuild
  obtain ⟨collected, hfold, hsort⟩ := hbuild
  have hmem := mem_foldlM_addEntry hfold region
  rw [← pos_iff_ne_zero] at hmem
  simp only [List.not_mem_nil, false_or] at hmem
  rw [IsFileRange, ← hmem]
  obtain rfl := Option.some.inj hsort
  split_ifs
  · exact (qsort.perm _).mem_iff
  · rfl

theorem sorted_ngcBuildDataMap : map.regions.Pairwise fun a b ↦ a.offset ≤ b.offset := by
  unfold ngcBuildDataMap at hbuild
  split_ifs at hbuild
  rw [Option.bind_eq_bind, Option.bind_eq_some_iff] at hbuild
  obtain ⟨collected, -, hsort⟩ := hbuild
  obtain rfl := Option.some.inj hsort
  split_ifs with hcount
  · exact qsort.sorted _
  · -- One region, or none: `qsort` is not called.
    rw [NgcDataMap.count] at hcount
    match hregions : collected.regions with
    | [] => exact List.Pairwise.nil
    | [region] => exact List.pairwise_singleton _ _
    | first :: second :: rest =>
      rw [hregions, List.length_cons, List.length_cons] at hcount
      omega

end

end Build

/-! ## What the search finds -/

namespace NgcDataMap

variable {map : NgcDataMap} {offset length : ℕ}

/-- The turn that the search takes at an index. -/
def turn (map : NgcDataMap) (offset length : ℕ) (index : ℤ) : Ordering :=
  if (map.region index).stop ≤ offset then .lt
  else if (offset + length) % 2 ^ 64 ≤ (map.region index).offset then .gt
  else .eq

variable {index : ℤ}

theorem turn_eq_lt_iff : map.turn offset length index = .lt ↔ (map.region index).stop ≤ offset := by
  unfold turn
  split_ifs <;> simp [*]

theorem turn_eq_eq_iff : map.turn offset length index = .eq ↔
      offset < (map.region index).stop ∧ (map.region index).offset < (offset + length) % 2 ^ 64 := by
  unfold turn
  split_ifs with hstop hstart
  · exact iff_of_false (by decide) fun h ↦ absurd hstop (not_le.mpr h.1)
  · exact iff_of_false (by decide) fun h ↦ absurd hstart (not_le.mpr h.2)
  · exact iff_of_true rfl ⟨not_le.mp hstop, not_le.mp hstart⟩

theorem turn_eq_gt_iff : map.turn offset length index = .gt ↔
      offset < (map.region index).stop ∧ (offset + length) % 2 ^ 64 ≤ (map.region index).offset := by
  unfold turn
  split_ifs with hstop hstart
  · exact iff_of_false (by decide) fun h ↦ absurd hstop (not_le.mpr h.1)
  · exact iff_of_true rfl ⟨not_le.mp hstop, hstart⟩
  · exact iff_of_false (by decide) fun h ↦ hstart h.2

/-- The loop of the source is the search that halves on these turns. -/
theorem search_eq_halve (lo hi : ℤ) :
    map.search offset length lo hi = halve (map.turn offset length) lo hi := by
  fun_induction search map offset length lo hi with
  | case1 lo hi hwindow hstop ih =>
    rw [halve, if_pos hwindow, show map.turn offset length (middle lo hi) = .lt from
      turn_eq_lt_iff.mpr hstop]
    exact ih
  | case2 lo hi hwindow hstop hstart ih =>
    rw [halve, if_pos hwindow, show map.turn offset length (middle lo hi) = .gt from
      turn_eq_gt_iff.mpr ⟨not_le.mp hstop, hstart⟩]
    exact ih
  | case3 lo hi hwindow hstop hstart =>
    rw [halve, if_pos hwindow, show map.turn offset length (middle lo hi) = .eq from
      turn_eq_eq_iff.mpr ⟨not_le.mp hstop, not_le.mp hstart⟩]
  | case4 lo hi hwindow =>
    rw [halve, if_neg hwindow]

theorem region_eq_getElem (hinside : index.toNat < map.regions.length) :
    map.region index = map.regions[index.toNat] := by
  rw [region, List.getD_eq_getElem?_getD, List.getElem?_eq_getElem hinside, Option.getD_some]

/-- Right of a file that starts past the range, every file does. -/
theorem leftSafe (hsorted : map.regions.Pairwise fun a b ↦ a.offset ≤ b.offset) :
    LeftSafe (map.turn offset length) 0 (map.count - 1) := by
  intro probe place hprobe hle hplace hgt heq
  rw [count] at hplace
  have hstart := (turn_eq_gt_iff.mp hgt).2
  have hbefore := (turn_eq_eq_iff.mp heq).2
  have hplaceInside : place.toNat < map.regions.length := by omega
  have hprobeInside : probe.toNat < map.regions.length := by omega
  rw [region_eq_getElem hprobeInside] at hstart
  rw [region_eq_getElem hplaceInside] at hbefore
  rcases hle.eq_or_lt with rfl | hlt
  · omega
  · have := List.pairwise_iff_getElem.mp hsorted _ _ hprobeInside hplaceInside (by omega)
    omega

/-- The search can come to a file with data in the range: in 64 bits the file ends after the start
of the range and starts before its end, and no later file that the search asks about on the way to
it ends at or before the start of the range. -/
def Reachable (map : NgcDataMap) (offset length : ℕ) (index : ℕ) : Prop :=
  offset < (map.region index).stop ∧ (map.region index).offset < (offset + length) % 2 ^ 64 ∧
    ∀ probe ∈ probes index 0 (map.count - 1), index < probe → offset < (map.region probe).stop

theorem ngcIsDataRegion_iff_reachable (hsorted : map.regions.Pairwise fun a b ↦ a.offset ≤ b.offset)
    :
    ngcIsDataRegion map offset length = true ↔
      ∃ index < map.count, map.Reachable offset length index := by
  rw [ngcIsDataRegion, search_eq_halve, halve_iff (leftSafe hsorted)]
  constructor
  · rintro ⟨place, hlo, hhi, hstop, hreach⟩
    obtain ⟨index, rfl⟩ := Int.eq_ofNat_of_zero_le hlo
    refine ⟨index, by omega, (turn_eq_eq_iff.mp hstop).1, (turn_eq_eq_iff.mp hstop).2, ?_⟩
    intro probe hprobe hpast
    exact not_le.mp fun hturn ↦ hreach probe hprobe hpast (turn_eq_lt_iff.mpr hturn)
  · rintro ⟨index, hcount, hstop, hstart, hreach⟩
    refine ⟨index, Int.natCast_nonneg _, by omega, turn_eq_eq_iff.mpr ⟨hstop, hstart⟩, ?_⟩
    intro probe hprobe hpast hturn
    exact absurd (turn_eq_lt_iff.mp hturn) (not_le.mpr (hreach probe hprobe hpast))

theorem mem_of_lt_count {index : ℕ} (hindex : index < map.count) :
    map.region index ∈ map.regions := by
  rw [count] at hindex
  rw [region_eq_getElem (by rwa [Int.toNat_natCast])]
  exact List.getElem_mem _

theorem exists_region_eq {region : NgcDataRegion} (hregion : region ∈ map.regions) :
    ∃ index < map.count, map.region (index : ℕ) = region := by
  obtain ⟨index, hindex, rfl⟩ := List.mem_iff_getElem.mp hregion
  refine ⟨index, hindex, ?_⟩
  rw [region_eq_getElem (by rwa [Int.toNat_natCast])]
  rfl

/-- Sums in 64 bits are not above the sums of the numbers, so what the search stops at is there. -/
theorem Reachable.sharesByte {index : ℕ} (hreach : map.Reachable offset length index)
    (hregion : 0 < (map.region index).length) (hlength : 0 < length) :
    SharesByte (map.region index) offset length := by
  obtain ⟨hstop, hstart, -⟩ := hreach
  rw [NgcDataRegion.stop] at hstop
  rw [sharesByte_iff hregion hlength]
  exact ⟨hstart.trans_le (Nat.mod_le _ _), hstop.trans_le (Nat.mod_le _ _)⟩

end NgcDataMap

/-- Sorting by insertion keeps the promise of `qsort`. -/
def RegionSort.insertion : RegionSort where
  sort := List.insertionSort fun a b ↦ a.offset ≤ b.offset
  perm := fun regions ↦ List.perm_insertionSort _ regions
  sorted := fun regions ↦ by
    have : Std.Total fun a b : NgcDataRegion ↦ a.offset ≤ b.offset :=
      ⟨fun a b ↦ le_total a.offset b.offset⟩
    have : IsTrans NgcDataRegion fun a b ↦ a.offset ≤ b.offset := ⟨fun _ _ _ ↦ le_trans⟩
    exact List.pairwise_insertionSort _ regions

/-- The root and three files: `[0, 1000)`, and two short ones inside it at 16 and at 32. -/
def nestedTable : List UInt8 :=
  [1, 0, 0, 0, 0, 0, 0, 0, 0, 0, 0, 4] ++ [0, 0, 0, 0, 0, 0, 0, 0, 0, 0, 3, 232] ++
    [0, 0, 0, 0, 0, 0, 0, 16, 0, 0, 0, 4] ++
    [0, 0, 0, 0, 0, 0, 0, 32, 0, 0, 0, 4]

def nestedMap : NgcDataMap := ⟨[⟨0, 1000⟩, ⟨16, 4⟩, ⟨32, 4⟩], 256⟩

section Exact

variable {qsort : RegionSort} {realloc : ℕ → Bool} {fst : List UInt8}
  {dataStartOffset addressShift offset length : ℕ} {map : NgcDataMap}

/-- The test is right about a range exactly if it can come to a file with data there, where there is
one at all. -/
theorem ngcIsDataRegion_exact_iff
    (hbuild : ngcBuildDataMap qsort realloc fst dataStartOffset addressShift = some map)
    (hlength : 0 < length) :
    (ngcIsDataRegion map offset length = true ↔
        ∃ region, IsFileRange fst dataStartOffset addressShift region ∧
          SharesByte region offset length) ↔
      ((∃ region, IsFileRange fst dataStartOffset addressShift region ∧
          SharesByte region offset length) →
        ∃ index < map.count, map.Reachable offset length index) := by
  rw [NgcDataMap.ngcIsDataRegion_iff_reachable (sorted_ngcBuildDataMap hbuild)]
  constructor
  · exact fun hexact hshares ↦ hexact.mpr hshares
  · intro hfinds
    refine ⟨?_, hfinds⟩
    rintro ⟨index, hindex, hreach⟩
    obtain ⟨hregion, hfile⟩ := (mem_ngcBuildDataMap hbuild _).mp (NgcDataMap.mem_of_lt_count hindex)
    exact ⟨_, hfile, hreach.sharesByte hregion hlength⟩

end Exact

/-- The three files lie inside each other; the range at 16 is found at the middle of the table. -/
theorem ngcIsDataRegion_exact_iff_nested : (ngcIsDataRegion nestedMap 16 4 = true ↔
        ∃ region, IsFileRange nestedTable 0 0 region ∧ SharesByte region 16 4) ↔
      ((∃ region, IsFileRange nestedTable 0 0 region ∧ SharesByte region 16 4) →
        ∃ index < nestedMap.count, nestedMap.Reachable 16 4 index) :=
  ngcIsDataRegion_exact_iff (show ngcBuildDataMap RegionSort.insertion (fun _ ↦ true)
    nestedTable 0 0 = some nestedMap by decide) (by decide)

/-- The middle file ends before 100, so the search turns away from the long one. -/
theorem ngcIsDataRegion_misses_long_file :
    ngcBuildDataMap RegionSort.insertion (fun _ ↦ true) nestedTable 0 0 = some nestedMap ∧
      ¬ (ngcIsDataRegion nestedMap 100 4 = true ↔
        ∃ region, IsFileRange nestedTable 0 0 region ∧ SharesByte region 100 4) := by
  refine ⟨by decide, fun hexact ↦ ?_⟩
  have hfound : ngcIsDataRegion nestedMap 100 4 = true := by
    refine hexact.mpr ⟨⟨0, 1000⟩, ⟨1, by decide, by decide, by decide⟩, 100, ?_⟩
    decide
  have hmissed : ngcIsDataRegion nestedMap 100 4 = false := by decide +kernel
  rw [hmissed] at hfound
  cases hfound

section Ascending

variable {qsort : RegionSort} {realloc : ℕ → Bool} {fst : List UInt8}
  {dataStartOffset addressShift offset length : ℕ} {map : NgcDataMap}

/-- Files whose ends ascend with their starts, such as files that share no byte, are all found. -/
theorem ngcIsDataRegion_iff_of_ascending
    (hbuild : ngcBuildDataMap qsort realloc fst dataStartOffset addressShift = some map)
    (hlength : 0 < length) (hrange : offset + length < 2 ^ 64)
    (hwide : ∀ region ∈ map.regions, region.offset + region.length < 2 ^ 64)
    (hascending : map.regions.Pairwise fun a b ↦ a.stop ≤ b.stop) :
    ngcIsDataRegion map offset length = true ↔
      ∃ region, IsFileRange fst dataStartOffset addressShift region ∧
        SharesByte region offset length := by
  rw [NgcDataMap.ngcIsDataRegion_iff_reachable (sorted_ngcBuildDataMap hbuild)]
  constructor
  · rintro ⟨index, hindex, hreach⟩
    obtain ⟨hregion, hfile⟩ := (mem_ngcBuildDataMap hbuild _).mp (NgcDataMap.mem_of_lt_count hindex)
    exact ⟨_, hfile, hreach.sharesByte hregion hlength⟩
  · rintro ⟨region, hfile, hshares⟩
    have hregion := hshares.length_pos
    have hmem := (mem_ngcBuildDataMap hbuild region).mpr ⟨hregion, hfile⟩
    obtain ⟨hstart, hend⟩ := (sharesByte_iff hregion hlength).mp hshares
    obtain ⟨index, hindex, rfl⟩ := NgcDataMap.exists_region_eq hmem
    have hstop : offset < (map.region index).stop := by
      rwa [NgcDataRegion.stop, Nat.mod_eq_of_lt (hwide _ hmem)]
    refine ⟨index, hindex, hstop, by rwa [Nat.mod_eq_of_lt hrange], fun probe hprobe hpast ↦ ?_⟩
    have hwindow := mem_window_of_mem_probes hprobe
    rw [NgcDataMap.count] at hwindow hindex
    -- A later file ends later, hence after the start of the range.
    have hle :=
      List.pairwise_iff_getElem.mp hascending index probe.toNat hindex (by omega) (by omega)
    rw [NgcDataMap.region_eq_getElem (by omega)] at hstop
    rw [NgcDataMap.region_eq_getElem (by omega)]
    exact hstop.trans_le hle

end Ascending

/-- The file at 16 ends before the one at 32 begins. -/
theorem ngcIsDataRegion_iff_of_ascending_apart :
    ngcIsDataRegion ⟨[⟨16, 4⟩, ⟨32, 4⟩], 256⟩ 35 4 = true ↔
      ∃ region, IsFileRange ([1, 0, 0, 0, 0, 0, 0, 0, 0, 0, 0, 3] ++
        [0, 0, 0, 0, 0, 0, 0, 16, 0, 0, 0, 4] ++ [0, 0, 0, 0, 0, 0, 0, 32, 0, 0, 0, 4]) 0 0 region ∧
        SharesByte region 35 4 :=
  ngcIsDataRegion_iff_of_ascending
    (show ngcBuildDataMap RegionSort.insertion (fun _ ↦ true) _ 0 0 = some _ by decide)
    (by decide) (by decide) (by decide) (by decide)

end Obmafs3
