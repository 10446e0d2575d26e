import Obmafs3.Disc.JunkSeed
import Obmafs3.Library.SearchTreePick
import Obmafs3.Tags.MediaTags

/-!
# Forgetting the tags of an inode

When an image goes, its media tags go one by one: the tree is searched for the types of the inode
and the first of them is deleted, until there is none. The records of the junk map are collected
first and removed from their leaves, the last one first. In ordered trees both leave the records of
all other inodes and no record of this one, and the runs of the media tags are free.
-/

set_option autoImplicit false

namespace Obmafs3

open Library.Search Library.SearchTree

/-- A scan of a tree that is in the order of inodes and something else finds what the inode has. -/
theorem mem_scan_inode {ρ : Type} {inodeOf restOf : ρ → ℕ} {tree : Root ℕ (ℕ ×ₗ ℕ) ρ}
    (hordered : tree.Ordered fun r ↦ toLex (inodeOf r, restOf r)) {inodeId : ℕ} {r : ρ} :
    r ∈ scan (fun r ↦ inodeOf r < inodeId) (fun r ↦ inodeId < inodeOf r)
        (tree.recordsFrom (indexFind · (toLex (inodeId, 0)))) ↔
      r ∈ tree.records ∧ inodeOf r = inodeId := by
  rw [Root.mem_scan_route hordered]
  · refine and_congr_right fun _ ↦ ?_
    simp only [decide_eq_false_iff_not]
    omega
  · intro q hlt
    rcases Prod.Lex.lt_iff.mp hlt with h | ⟨-, h⟩
    · exact decide_eq_true h
    · exact absurd h (Nat.not_lt_zero _)
  · intro q q' hlt hafter
    have hle : inodeOf q ≤ inodeOf q' := Prod.Lex.monotone_fst _ _ hlt.le
    simp only [decide_eq_true_eq] at hafter ⊢
    exact hafter.trans_le hle

/-! ### Media tags -/

/-- `obmafs3_media_tag_list`: the types of an inode, in the order of the leaves. -/
def mediaTagList (inodeId : ℕ) (s : MediaTags) : List ℕ :=
  if s.mediaTagLba = 0 then []
  else
    (scan (fun r ↦ r.inodeId < inodeId) (fun r ↦ inodeId < r.inodeId)
      (s.tree.recordsFrom (indexFind · (toLex (inodeId, 0))))).map MediaTagRecord.tagType

/-- The loop of `obmafs3_media_tag_delete_all`. -/
def mediaTagDeleteLoop (inodeId : ℕ) : (fuel : ℕ) → MediaTags → Option ErrorCode × MediaTags
  | 0, s => (some .hang, s)
  | fuel + 1, s =>
    match mediaTagList inodeId s with
    | [] => (none, s)
    | tagType :: _ =>
      match mediaTagTreeDelete inodeId tagType s with
      | (some e, s) => (some e, s)
      | (none, s) => mediaTagDeleteLoop inodeId fuel s

/-- `obmafs3_media_tag_delete_all`. Every round takes a record out, so the rounds are at most one
more than the records. -/
def mediaTagDeleteAll (inodeId : ℕ) (s : MediaTags) : Option ErrorCode × MediaTags :=
  if s.mediaTagLba = 0 then (none, s)
  else mediaTagDeleteLoop inodeId (s.tree.records.length + 1) s

/-- No round takes the last leaf of an index node below the root. -/
def CleanLoop (inodeId : ℕ) : (fuel : ℕ) → MediaTags → Prop
  | 0, _ => True
  | fuel + 1, s =>
    match mediaTagList inodeId s with
    | [] => True
    | tagType :: _ =>
      s.tree.Unstranded MediaTagRecord.order (toLex (inodeId, tagType)) ∧
        CleanLoop inodeId fuel (mediaTagTreeDelete inodeId tagType s).2

/-- Tags in order that hold their blocks, in a tree that is not too deep. -/
structure TidyTags (s : MediaTags) : Prop where
  rooted : s.mediaTagLba = 0 → s.tree = .empty
  held : AllHeld s.vol s.tree.records
  ordered : s.tree.Ordered MediaTagRecord.order
  height_le : s.tree.height ≤ mediaTagBtreeMaxDepth

/-- The tags of an inode are gone and their blocks free, all else is as it was. -/
structure Forgot (inodeId : ℕ) (s s' : MediaTags) : Prop where
  records_eq : s'.tree.records = s.tree.records.filter (·.inodeId ≠ inodeId)
  volume_eq : ∃ bitmap, s'.vol = { s.vol with bitmap }
  bitmap_eq : ∀ lba, s'.vol.bitmap lba = true ↔
    s.vol.bitmap lba = true ∧ ∀ r ∈ s.tree.records, r.inodeId = inodeId → r.owns lba = false

section MediaTags

variable {inodeId : ℕ} {s : MediaTags}

section

variable (htidy : TidyTags s)
include htidy

theorem mem_mediaTagList {tagType : ℕ} : tagType ∈ mediaTagList inodeId s ↔
      ∃ r ∈ s.tree.records, r.inodeId = inodeId ∧ r.tagType = tagType := by
  unfold mediaTagList
  split_ifs with hlba
  · simp [htidy.rooted hlba, Root.records]
  · rw [List.mem_map]
    refine exists_congr fun r ↦ ?_
    rw [mem_scan_inode htidy.ordered, and_assoc]

/-- One round: a tag of the inode goes, with its blocks. -/
theorem TidyTags.round {r : MediaTagRecord} (hr : r ∈ s.tree.records)
    (hkeep : s.tree.Unstranded MediaTagRecord.order r.order) :
    ∃ s', mediaTagTreeDelete r.inodeId r.tagType s = (none, s') ∧ TidyTags s' ∧
      s'.tree.records = s.tree.records.filter (·.order ≠ r.order) ∧
      ∃ bitmap, s'.vol = { s.vol with bitmap } ∧
        ∀ lba, bitmap lba = (s.vol.bitmap lba && !r.owns lba) := by
  have hfound : mediaTagTreeLookup r.inodeId r.tagType s = some r :=
    (Root.mem_lookup htidy.ordered).mpr ⟨hr, rfl⟩
  obtain ⟨bitmap, hfree, hbitmap⟩ := mediaTagFreeExternal_eq (htidy.held.held r hr)
  refine ⟨_, by rw [mediaTagTreeDelete, if_neg (Nat.not_lt.mpr htidy.height_le), hfound], ?_,
    Root.records_delete htidy.ordered, bitmap, hfree, hbitmap⟩
  exact
    { rooted := fun hlba ↦ by
        rw [htidy.rooted hlba] at hr
        exact absurd hr List.not_mem_nil
      held := htidy.held.deleted hfound
      ordered := Root.delete_ordered htidy.ordered hkeep
      height_le := (Root.height_delete_le _ _).trans htidy.height_le }

theorem mediaTagDeleteLoop_spec {fuel : ℕ} (hclean : CleanLoop inodeId fuel s)
    (hfuel : (s.tree.records.filter (·.inodeId = inodeId)).length < fuel) :
    ∃ s', mediaTagDeleteLoop inodeId fuel s = (none, s') ∧ Forgot inodeId s s' := by
  induction fuel generalizing s with
  | zero => exact absurd hfuel (Nat.not_lt_zero _)
  | succ fuel ih =>
    rw [mediaTagDeleteLoop]
    rw [CleanLoop] at hclean
    cases hlist : mediaTagList inodeId s with
    | nil =>
      have hnone : ∀ r ∈ s.tree.records, r.inodeId ≠ inodeId := by
        intro r hr hid
        have hmem := (mem_mediaTagList htidy).mpr ⟨r, hr, hid, rfl⟩
        rw [hlist] at hmem
        exact List.not_mem_nil hmem
      refine ⟨s, rfl, ?_, ⟨s.vol.bitmap, rfl⟩, fun lba ↦ ?_⟩
      · exact (List.filter_eq_self.mpr fun r hr ↦ by simpa using hnone r hr).symm
      · exact (and_iff_left fun r hr hid ↦ absurd hid (hnone r hr)).symm
    | cons tagType rest =>
      rw [hlist] at hclean
      have hfirst : tagType ∈ mediaTagList inodeId s := hlist ▸ List.mem_cons_self
      obtain ⟨r, hr, rfl, rfl⟩ := (mem_mediaTagList htidy).mp hfirst
      obtain ⟨s₁, hdelete, htidy₁, hrecords₁, bitmap₁, hvol₁, hbitmap₁⟩ := htidy.round hr hclean.1
      simp only [hdelete] at hclean ⊢
      have hmem (q : MediaTagRecord) :
          q ∈ s₁.tree.records ↔ q ∈ s.tree.records ∧ q.order ≠ r.order := by
        rw [hrecords₁, List.mem_filter, decide_eq_true_eq]
      have hshorter : (s₁.tree.records.filter (·.inodeId = r.inodeId)).length < fuel := by
        have hswap : s₁.tree.records.filter (·.inodeId = r.inodeId) =
            (s.tree.records.filter (·.inodeId = r.inodeId)).filter (·.order ≠ r.order) := by
          rw [hrecords₁, List.filter_filter, List.filter_filter]
          exact List.filter_congr fun q _ ↦ Bool.and_comm _ _
        have hin : r ∈ s.tree.records.filter (·.inodeId = r.inodeId) :=
          List.mem_filter.mpr ⟨hr, decide_eq_true rfl⟩
        have hlt : ((s.tree.records.filter (·.inodeId = r.inodeId)).filter
            (·.order ≠ r.order)).length < (s.tree.records.filter (·.inodeId = r.inodeId)).length :=
          List.length_filter_lt_length_iff_exists.mpr ⟨r, hin, by simp⟩
        rw [hswap]
        omega
      obtain ⟨s', hloop, hforgot⟩ := ih htidy₁ hclean.2 hshorter
      refine ⟨s', hloop, ?_, ?_, fun lba ↦ ?_⟩
      · rw [hforgot.records_eq, hrecords₁, List.filter_filter]
        refine List.filter_congr fun q _ ↦ ?_
        by_cases hq : q.inodeId = r.inodeId
        · simp [hq]
        · have horder : q.order ≠ r.order := fun h ↦ hq (congrArg (fun k ↦ (ofLex k).1) h)
          simp [hq, horder]
      · obtain ⟨bitmap, hvol⟩ := hforgot.volume_eq
        exact ⟨bitmap, by rw [hvol, hvol₁]⟩
      · rw [hforgot.bitmap_eq lba, hvol₁]
        simp only [hbitmap₁ lba, Bool.and_eq_true, Bool.not_eq_true', hmem]
        constructor
        · rintro ⟨⟨hbit, howns⟩, hothers⟩
          refine ⟨hbit, fun q hq hid ↦ ?_⟩
          by_cases horder : q.order = r.order
          · rwa [Root.eq_of_key_eq htidy.ordered hq hr horder]
          · exact hothers q ⟨hq, horder⟩ hid
        · rintro ⟨hbit, hall⟩
          exact ⟨⟨hbit, hall r hr rfl⟩, fun q hq hid ↦ hall q hq.1 hid⟩

theorem mediaTagDeleteAll_spec (hclean : CleanLoop inodeId (s.tree.records.length + 1) s) :
    ∃ s', mediaTagDeleteAll inodeId s = (none, s') ∧ Forgot inodeId s s' := by
  unfold mediaTagDeleteAll
  split_ifs with hlba
  · have hnone : s.tree.records = [] := by
      rw [htidy.rooted hlba]
      rfl
    exact ⟨s, rfl, by simp [hnone], ⟨s.vol.bitmap, rfl⟩, by simp [hnone]⟩
  · exact mediaTagDeleteLoop_spec htidy hclean (Nat.lt_succ_of_le (List.length_filter_le _ _))

end

/-- A tree of at most one index level loses no leaf of a node below its root. -/
theorem cleanLoop_of_height (hheight : s.tree.height ≤ 1) (fuel : ℕ) :
    CleanLoop inodeId fuel s := by
  induction fuel generalizing s with
  | zero => trivial
  | succ fuel ih =>
    rw [CleanLoop]
    cases mediaTagList inodeId s with
    | nil => trivial
    | cons tagType rest =>
      refine ⟨?_, ih ?_⟩
      · rcases htree : s.tree with - | ⟨- | - | height, t⟩
        · trivial
        · trivial
        · trivial
        · rw [htree] at hheight
          exact absurd hheight (by simp [Root.height])
      · unfold mediaTagTreeDelete
        split_ifs
        · exact hheight
        · cases mediaTagTreeLookup inodeId tagType s with
          | none => exact hheight
          | some r => exact (Root.height_delete_le _ _).trans hheight

end MediaTags

/-! ### The junk map -/

/-- `struct junk_map_record`. -/
structure JunkMapRecord where
  inodeId : ℕ
  offset : ℕ
  length : ℕ
  partitionIndex : ℕ
  seed : LfgSeed

abbrev JunkMapKey := ℕ ×ₗ ℕ

/-- The order of `jm_key_cmp`. -/
def JunkMapRecord.order (r : JunkMapRecord) : JunkMapKey := toLex (r.inodeId, r.offset)

abbrev JunkMapTree := Root ℕ JunkMapKey JunkMapRecord

/-- `jm_index_find`: the slots after the first are looked at one by one. -/
def jmIndexFind (keys : List JunkMapKey) (k : JunkMapKey) : ℕ :=
  (keys.tail.takeWhile (· ≤ k)).length

/-- The offsets that `obmafs3_junk_map_delete_all` collects. -/
def junkMapOffsets (inodeId : ℕ) (tree : JunkMapTree) : List ℕ :=
  (scan (fun r ↦ r.inodeId < inodeId) (fun r ↦ inodeId < r.inodeId)
    (tree.recordsFrom (jmIndexFind · (toLex (inodeId, 0))))).map JunkMapRecord.offset

/-- `obmafs3_junk_map_delete_all`. -/
def junkMapDeleteAll (inodeId : ℕ) (tree : JunkMapTree) : JunkMapTree :=
  (junkMapOffsets inodeId tree).reverse.foldl
    (fun tree offset ↦ tree.removeBy jmIndexFind JunkMapRecord.order (toLex (inodeId, offset))) tree

section JunkMap

variable {inodeId : ℕ} {tree : JunkMapTree}

/-- Among sorted separators the slots are those of a binary search. -/
theorem jmIndexFind_eq : PicksRight jmIndexFind := by
  intro keys k hne hsorted
  obtain ⟨hlt, hle, habove⟩ := indexFind_spec hsorted hne k
  generalize indexFind keys k = i at hlt hle habove ⊢
  obtain ⟨first, rest, rfl⟩ := List.exists_cons_of_ne_nil hne
  have hlength : i ≤ rest.length := Nat.lt_succ_iff.mp hlt
  have hfront : ∀ x ∈ rest.take i, decide (x ≤ k) = true := by
    intro x hx
    obtain ⟨j, hj, rfl⟩ := List.mem_take_iff_getElem.mp hx
    have hji : j + 1 ≤ i := by omega
    have hup : (first :: rest)[j + 1] ≤ (first :: rest)[i] := by
      rcases Nat.lt_or_eq_of_le hji with h | h
      · exact (getElem_lt_of_pairwise hsorted h hlt).le
      · simp only [h, le_refl]
    exact decide_eq_true (hup.trans (hle (by omega)))
  have hback : (rest.drop i).takeWhile (· ≤ k) = [] := by
    cases hdrop : rest.drop i with
    | nil => rfl
    | cons y ys =>
      have hi : i < rest.length := by
        by_contra hge
        rw [List.drop_eq_nil_of_le (Nat.le_of_not_lt hge)] at hdrop
        exact List.cons_ne_nil _ _ hdrop.symm
      have hy : k < y := by
        have habove' := habove (i + 1) (Nat.succ_lt_succ hi) (Nat.lt_succ_self i)
        rw [List.drop_eq_getElem_cons hi, List.cons.injEq] at hdrop
        exact hdrop.1 ▸ habove'
      rw [List.takeWhile_cons_of_neg (by simpa using hy)]
  rw [jmIndexFind, List.tail_cons, ← List.take_append_drop i rest,
    List.takeWhile_append_of_pos hfront, hback, List.append_nil, List.length_take]
  exact Nat.min_eq_left hlength

section

variable (hordered : tree.Ordered JunkMapRecord.order)
include hordered

theorem mem_junkMapOffsets {offset : ℕ} : offset ∈ junkMapOffsets inodeId tree ↔
      ∃ r ∈ tree.records, r.inodeId = inodeId ∧ r.offset = offset := by
  have hpick := Root.recordsFrom_congr
    (fun keys hne hsorted ↦ jmIndexFind_eq keys (toLex (inodeId, 0)) hne hsorted) hordered
  rw [junkMapOffsets, hpick, List.mem_map]
  refine exists_congr fun r ↦ ?_
  rw [mem_scan_inode hordered, and_assoc]

theorem foldl_remove (offsets : List ℕ) : (offsets.foldl (fun tree offset ↦
        tree.removeBy jmIndexFind JunkMapRecord.order (toLex (inodeId, offset))) tree).records =
      tree.records.filter fun r ↦ ¬(r.inodeId = inodeId ∧ r.offset ∈ offsets) := by
  induction offsets generalizing tree with
  | nil => simp
  | cons offset offsets ih =>
    rw [List.foldl_cons, Root.removeBy_eq jmIndexFind_eq hordered,
      ih (Root.remove_ordered hordered _), Root.records_remove hordered, List.filter_filter]
    refine List.filter_congr fun r _ ↦ ?_
    have horder : r.order = toLex (inodeId, offset) ↔ r.inodeId = inodeId ∧ r.offset = offset := by
      simp [JunkMapRecord.order, Prod.ext_iff]
    simp only [ne_eq, horder, List.mem_cons]
    grind

theorem records_junkMapDeleteAll :
    (junkMapDeleteAll inodeId tree).records = tree.records.filter (·.inodeId ≠ inodeId) := by
  rw [junkMapDeleteAll, foldl_remove hordered]
  refine List.filter_congr fun r hr ↦ ?_
  have hmem : r.inodeId = inodeId → r.offset ∈ (junkMapOffsets inodeId tree).reverse := fun hid ↦
    List.mem_reverse.mpr ((mem_junkMapOffsets hordered).mpr ⟨r, hr, hid, rfl⟩)
  simp only [ne_eq, decide_eq_decide, not_iff_not]
  exact and_iff_left_of_imp hmem

/-- The removals keep the order of the tree and bring no key. -/
theorem foldl_remove_keeps (offsets : List ℕ) :
    (offsets.foldl (fun tree offset ↦ tree.removeBy jmIndexFind JunkMapRecord.order
        (toLex (inodeId, offset))) tree).Ordered JunkMapRecord.order ∧
      ∀ k ∈ (offsets.foldl (fun tree offset ↦ tree.removeBy jmIndexFind JunkMapRecord.order
        (toLex (inodeId, offset))) tree).span JunkMapRecord.order,
        k ∈ tree.span JunkMapRecord.order := by
  induction offsets generalizing tree with
  | nil => exact ⟨hordered, fun _ hk ↦ hk⟩
  | cons offset offsets ih =>
    rw [List.foldl_cons, Root.removeBy_eq jmIndexFind_eq hordered]
    obtain ⟨hafter, hspan⟩ := ih (Root.remove_ordered hordered (toLex (inodeId, offset)))
    exact ⟨hafter, fun k hk ↦ Root.span_remove (hspan k hk)⟩

theorem junkMapDeleteAll_ordered : (junkMapDeleteAll inodeId tree).Ordered JunkMapRecord.order :=
  (foldl_remove_keeps hordered _).1

theorem span_junkMapDeleteAll {k : JunkMapKey}
    (hk : k ∈ (junkMapDeleteAll inodeId tree).span JunkMapRecord.order) :
    k ∈ tree.span JunkMapRecord.order :=
  (foldl_remove_keeps hordered _).2 k hk

end

end JunkMap

end Obmafs3
