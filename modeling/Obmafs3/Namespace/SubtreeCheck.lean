import Obmafs3.Library.BreadthSearch
import Obmafs3.Namespace.Callbacks

/-!
# The check for a move into the own subtree

Before a rename moves a directory to another one, `is_ancestor` climbs from there to the root and
looks for the directory. Each step asks `find_parent_of_dir`, a search in breadth from the root
with a queue of 256 places. The record of the root names the root itself, so that every level of
the search has the root again and with it all directories above: `near` is what finds room.
`checkExact_iff` says that the check is exact when every directory with subdirectories does.
-/

set_option autoImplicit false

namespace Obmafs3.NameStore

open Library.BreadthSearch Library.SearchTree Relation

variable {st st' : NameStore} {a b c p : ℕ}

/-! ### Directories -/

/-- The subdirectories that `find_parent_of_dir` takes from a directory. -/
def subdirectories (st : NameStore) (parentId : ℕ) : List ℕ :=
  ((st.catalogList parentId).filter (·.directoryFlag)).map CatalogRecord.inodeId

/-- A directory has an entry for another one. -/
def Subdirectory (st : NameStore) (parentId childId : ℕ) : Prop :=
  ∃ r ∈ st.catalog.records, r.directoryFlag = true ∧ r.parentId = parentId ∧ r.inodeId = childId

/-- The directories of a catalog form a tree: the root has its own record, and every other
directory has one parent and is below the root. -/
structure DirectoryTree (st : NameStore) : Prop where
  ordered : st.catalog.Ordered catalogKey
  root : rootRecord ∈ st.catalog.records
  one_parent : ∀ a b c, st.Subdirectory a c → st.Subdirectory b c → a = b
  below_root : ∀ a c, st.Subdirectory a c → ReflTransGen st.Subdirectory rootInodeId c

/-- A directory is another one, or above it. -/
def AtOrAbove (st : NameStore) : ℕ → ℕ → Prop := ReflTransGen st.Subdirectory

/-- The directories whose subdirectories are looked at. -/
def nearRoot (st : NameStore) : List ℕ := near st.subdirectories rootInodeId 256

/-- The directories with subdirectories are all near the root. -/
def ParentsNear (st : NameStore) : Prop :=
  ∀ p c, st.Subdirectory p c → c ≠ rootInodeId → p ∈ st.nearRoot

/-- `is_ancestor` says of each two directories whether the first is the second or above it. -/
def CheckExact (st : NameStore) : Prop :=
  ∀ a d, st.isAncestor a d = true ↔ st.AtOrAbove a d

theorem mem_subdirectories (hordered : st.catalog.Ordered catalogKey) :
    c ∈ st.subdirectories p ↔ st.Subdirectory p c := by
  rw [subdirectories, List.mem_map]
  constructor
  · rintro ⟨r, hr, rfl⟩
    obtain ⟨hlisted, hflag⟩ := List.mem_filter.mp hr
    obtain ⟨hmem, hparent⟩ := (mem_catalogList hordered).mp hlisted
    exact ⟨r, hmem, hflag, hparent, rfl⟩
  · rintro ⟨r, hmem, hflag, hparent, rfl⟩
    exact ⟨r, List.mem_filter.mpr ⟨(mem_catalogList hordered).mpr ⟨hmem, hparent⟩, hflag⟩, rfl⟩

/-! ### One step up -/

theorem findParentLoop_eq (childId fuel : ℕ) (queue : List ℕ) (entered : ℕ) :
    st.findParentLoop childId fuel queue entered =
      search st.subdirectories (fun p ↦ decide (childId ∈ st.subdirectories p)) 256 fuel queue
        entered := by
  induction fuel generalizing queue entered with
  | zero => rfl
  | succ fuel ih =>
    cases queue with
    | nil => rfl
    | cons p queue =>
      have hhit : (((st.catalogList p).filter (·.directoryFlag)).any (·.inodeId = childId)) =
          decide (childId ∈ st.subdirectories p) := by
        rw [Bool.eq_iff_iff, List.any_eq_true, decide_eq_true_iff, subdirectories, List.mem_map]
        exact exists_congr fun r ↦ and_congr_right fun _ ↦ decide_eq_true_iff
      rw [findParentLoop, search]
      simp only [hhit, ih]
      rfl

/-- The parent is found if it is near, and only then. -/
theorem findParentOfDir_eq (childId : ℕ) : st.findParentOfDir childId =
      st.nearRoot.find? fun p ↦ decide (childId ∈ st.subdirectories p) := by
  rw [findParentOfDir, findParentLoop_eq]
  exact search_eq _ (by decide)

namespace DirectoryTree

section

variable (h : st.DirectoryTree)
include h

theorem subdirectory_root : st.Subdirectory rootInodeId rootInodeId :=
  ⟨rootRecord, h.root, rfl, rfl, rfl⟩

/-- Only the root is above the root. -/
theorem eq_root (ha : ReflTransGen st.Subdirectory a rootInodeId) : a = rootInodeId := by
  induction ha using ReflTransGen.head_induction_on with
  | refl => rfl
  | head hstep _ ih =>
    subst ih
    exact h.one_parent _ _ _ hstep h.subdirectory_root

/-- Only the root is above itself. -/
theorem not_above_itself (hne : a ≠ rootInodeId) : ¬TransGen st.Subdirectory a a := by
  have hroot (c : ℕ) (hbelow : ReflTransGen st.Subdirectory rootInodeId c)
      (hloop : TransGen st.Subdirectory c c) : c = rootInodeId := by
    induction hbelow with
    | refl => rfl
    | tail _ hstep ih =>
      -- The loop comes back through the parent, so the parent is on it.
      obtain ⟨b, hb, hlast⟩ := TransGen.tail'_iff.mp hloop
      obtain rfl := h.one_parent _ _ _ hlast hstep
      obtain rfl := ih (TransGen.head' hlast hb)
      exact h.eq_root hb
  intro hloop
  obtain ⟨b, -, hlast⟩ := TransGen.tail'_iff.mp hloop
  exact hne (hroot a (h.below_root b a hlast) hloop)

theorem findParentOfDir_some :
    st.findParentOfDir c = some p ↔ st.Subdirectory p c ∧ p ∈ st.nearRoot := by
  have hsub {q : ℕ} (hfind : st.nearRoot.find? (fun p ↦ decide (c ∈ st.subdirectories p)) = some q) :
      st.Subdirectory q c := by
    have hhit := List.find?_some (p := fun p ↦ decide (c ∈ st.subdirectories p)) hfind
    exact (mem_subdirectories h.ordered).mp (of_decide_eq_true hhit)
  rw [findParentOfDir_eq]
  constructor
  · exact fun hfind ↦ ⟨hsub hfind, List.mem_of_find?_eq_some hfind⟩
  · rintro ⟨hp, hnear⟩
    cases hfind : st.nearRoot.find? fun p ↦ decide (c ∈ st.subdirectories p) with
    | none =>
      have hmem := (mem_subdirectories h.ordered).mpr hp
      exact absurd (decide_eq_true hmem) (List.find?_eq_none.mp hfind p hnear)
    | some q => rw [h.one_parent q p c (hsub hfind) hp]

/-- A climb finds only directories at or above its start. -/
theorem atOrAbove_of_loop {fuel : ℕ}
    (hloop : st.isAncestorLoop a fuel c = true) : st.AtOrAbove a c := by
  induction fuel generalizing c with
  | zero => cases hloop
  | succ fuel ih =>
    rw [isAncestorLoop] at hloop
    split_ifs at hloop with hfound hroot
    · exact hfound ▸ ReflTransGen.refl
    · cases hparent : st.findParentOfDir c with
      | none =>
        rw [hparent] at hloop
        cases hloop
      | some p =>
        rw [hparent] at hloop
        exact (ih hloop).tail (h.findParentOfDir_some.mp hparent).1

/-- A climb from the end of a walk of `n` steps takes no more than these. -/
theorem loop_of_atOrAbove (hnear : ParentsNear st) {n fuel : ℕ}
    (hlevel : c ∈ level st.subdirectories rootInodeId n) (hfuel : n < fuel)
    (habove : st.AtOrAbove a c) : st.isAncestorLoop a fuel c = true := by
  induction n generalizing c fuel with
  | zero =>
    obtain rfl : c = rootInodeId := List.mem_singleton.mp hlevel
    obtain ⟨fuel, rfl⟩ := Nat.exists_eq_succ_of_ne_zero (Nat.ne_of_gt hfuel)
    rw [isAncestorLoop, if_pos (h.eq_root habove).symm]
  | succ n ih =>
    obtain ⟨fuel, rfl⟩ := Nat.exists_eq_succ_of_ne_zero (Nat.ne_of_gt (Nat.zero_lt_of_lt hfuel))
    rw [isAncestorLoop]
    by_cases hfound : c = a
    · rw [if_pos hfound]
    · rw [if_neg hfound]
      by_cases hroot : c = rootInodeId
      · subst hroot
        exact absurd (h.eq_root habove).symm hfound
      · rw [if_neg hroot]
        obtain ⟨p, hp, hmem⟩ := List.mem_flatMap.mp hlevel
        have hsub := (mem_subdirectories h.ordered).mp hmem
        rw [h.findParentOfDir_some.mpr ⟨hsub, hnear p c hsub hroot⟩]
        rcases habove.cases_tail with rfl | ⟨q, hq, hlast⟩
        · exact absurd rfl hfound
        · obtain rfl := h.one_parent _ _ _ hlast hsub
          exact ih hp (Nat.lt_of_succ_lt_succ hfuel) hq

variable (hsub : st.Subdirectory rootInodeId c) (hne : c ≠ rootInodeId)
include hsub hne

/-- The root is on every level, with one of its subdirectories from the first level on. -/
theorem two_le_length_level (n : ℕ) : 2 ≤ (level st.subdirectories rootInodeId (n + 1)).length := by
  have hroot (n : ℕ) : rootInodeId ∈ level st.subdirectories rootInodeId n := by
    induction n with
    | zero => exact List.mem_singleton_self _
    | succ n ih =>
      exact List.mem_flatMap.mpr
        ⟨rootInodeId, ih, (mem_subdirectories h.ordered).mpr h.subdirectory_root⟩
  have hmem : c ∈ level st.subdirectories rootInodeId (n + 1) :=
    List.mem_flatMap.mpr ⟨rootInodeId, hroot n, (mem_subdirectories h.ordered).mpr hsub⟩
  have htwo : [rootInodeId, c] ⊆ level st.subdirectories rootInodeId (n + 1) :=
    List.cons_subset.mpr ⟨hroot _, List.cons_subset.mpr ⟨hmem, List.nil_subset _⟩⟩
  have hnodup : [rootInodeId, c].Nodup := by simpa using Ne.symm hne
  exact (List.subperm_of_subset hnodup htwo).length_le

theorem length_listing (n : ℕ) :
    2 * n < (listing st.subdirectories rootInodeId (n + 1)).length := by
  induction n with
  | zero => exact Nat.one_pos
  | succ n ih =>
    have hlevel := h.two_le_length_level hsub hne n
    rw [listing_append, List.length_append]
    omega

end

/-- A catalog with a directory below the root has one right below it. -/
theorem exists_below_root (hbelow : ReflTransGen st.Subdirectory rootInodeId c)
    (hne : c ≠ rootInodeId) : ∃ b, st.Subdirectory rootInodeId b ∧ b ≠ rootInodeId := by
  induction hbelow with
  | refl => exact absurd rfl hne
  | @tail b c _ hstep ih =>
    by_cases hb : b = rootInodeId
    · exact ⟨c, hb ▸ hstep, hne⟩
    · exact ih hb

/-! ### The whole check -/

theorem checkExact_of_parentsNear (h : st.DirectoryTree) (hnear : ParentsNear st) :
    CheckExact st := by
  refine fun a d ↦ ⟨h.atOrAbove_of_loop, fun habove ↦ ?_⟩
  by_cases hroot : d = rootInodeId
  · exact h.loop_of_atOrAbove hnear (n := 0) (List.mem_singleton.mpr hroot) (by decide) habove
  rcases habove.cases_tail with rfl | ⟨p, -, hlast⟩
  · rw [isAncestor, isAncestorLoop, if_pos rfl]
  · obtain ⟨n, hlevel, hroom⟩ := exists_level (hnear p d hlast hroot)
    obtain ⟨b, hb, hne⟩ := exists_below_root (h.below_root p d hlast) hroot
    have hdepth : n + 1 < 256 := by
      cases n with
      | zero => decide
      | succ n =>
        have hlength := h.length_listing hb hne n
        omega
    have hnext : d ∈ level st.subdirectories rootInodeId (n + 1) :=
      List.mem_flatMap.mpr ⟨p, hlevel, (mem_subdirectories h.ordered).mpr hlast⟩
    exact h.loop_of_atOrAbove hnear hnext hdepth habove

/-- A directory whose parent is not near is not seen below it. -/
theorem parentsNear_of_checkExact (h : st.DirectoryTree) (hexact : CheckExact st) :
    ParentsNear st := by
  intro p c hsub hroot
  have hself : c ≠ p := by
    rintro rfl
    exact h.not_above_itself hroot (TransGen.single hsub)
  have hclimb := (hexact p c).mpr (ReflTransGen.single hsub)
  rw [isAncestor, isAncestorLoop, if_neg hself, if_neg hroot] at hclimb
  cases hparent : st.findParentOfDir c with
  | none =>
    rw [hparent] at hclimb
    cases hclimb
  | some q =>
    obtain ⟨hq, hnear⟩ := h.findParentOfDir_some.mp hparent
    exact h.one_parent q p c hq hsub ▸ hnear

end DirectoryTree

/-! ### Renames -/

theorem mem_catalogInsert {record r : CatalogRecord} (hrun : st.catalogInsert record = .ok st')
    (hr : r ∈ st'.catalog.records) : r = record ∨ r ∈ st.catalog.records := by
  rw [catalogInsert, NameTable.put] at hrun
  split_ifs at hrun
  · cases hrun
  · cases hrun
    exact Root.mem_of_mem_put hr

theorem catalogDelete_subset {key : CatalogKey} (hrun : st.catalogDelete key = .ok st') :
    st'.catalog.records ⊆ st.catalog.records := by
  rw [catalogDelete, NameTable.delete] at hrun
  split_ifs at hrun
  · cases hrun
  · rcases hdelete : st.catalog.delete catalogTable.order key with ⟨tree, done⟩
    rw [hdelete] at hrun
    cases done with
    | false => cases hrun
    | true =>
      cases hrun
      intro r hr
      have hmem : r ∈ (st.catalog.delete catalogTable.order key).1.records := hdelete ▸ hr
      exact Root.mem_of_mem_delete hmem

theorem catalog_inodePut (inode : InodeEntry FileType) :
    (st.orEio (st.inodePut inode)).2.catalog = st.catalog := by
  rw [inodePut, NameTable.put]
  split_ifs <;> rfl

theorem catalog_inodeDelete (inodeId : ℕ) :
    (st.orEio (st.inodeDelete inodeId)).2.catalog = st.catalog := by
  rw [inodeDelete, NameTable.delete]
  split_ifs
  · rfl
  · rcases st.inodes.delete inodeTable.order inodeId with ⟨tree, done⟩
    cases done <;> rfl

theorem catalog_dropLink (inodeId : ℕ) : (st.dropLink inodeId).2.catalog = st.catalog := by
  rw [dropLink]
  cases st.inodeGet inodeId with
  | none => rfl
  | some inode =>
    simp only
    split_ifs
    · exact catalog_inodePut _
    · exact catalog_inodeDelete _

/-- Making room for a rename brings no entry. -/
theorem replaceDest_subset (dst : CatalogRecord) (key : CatalogKey) :
    (st.replaceDest dst key).2.catalog.records ⊆ st.catalog.records := by
  rw [replaceDest, dropDirectory]
  split_ifs
  · cases hdelete : st.catalogDelete key with
    | error e => exact List.Subset.refl _
    | ok st' =>
      simp only
      rw [catalog_inodeDelete]
      exact catalogDelete_subset hdelete
  · exact List.Subset.refl _
  · cases hdelete : st.catalogDelete key with
    | error e => exact List.Subset.refl _
    | ok st' =>
      simp only
      rw [catalog_dropLink]
      exact catalogDelete_subset hdelete

variable {oldKey newKey : CatalogKey} {src r : CatalogRecord} {depth : ℕ}

theorem mem_moveEntry (hr : r ∈ (st.moveEntry src oldKey newKey).2.catalog.records) :
    r = Mounted.newRecord src.inodeId newKey src.directoryFlag ∨ r ∈ st.catalog.records := by
  rw [moveEntry] at hr
  cases hdelete : st.catalogDelete oldKey with
  | error e =>
    rw [hdelete] at hr
    exact Or.inr hr
  | ok st₁ =>
    rw [hdelete] at hr
    simp only at hr
    have hsub := catalogDelete_subset hdelete
    cases hinsert : st₁.catalogInsert (Mounted.newRecord src.inodeId newKey src.directoryFlag) with
    | error e =>
      rw [hinsert] at hr
      exact Or.inr (hsub hr)
    | ok st₂ =>
      rw [hinsert] at hr
      exact (mem_catalogInsert hinsert hr).imp_right fun h ↦ hsub h

/-- The check of a rename. -/
def IntoItself (st : NameStore) (src : CatalogRecord) (oldKey newKey : CatalogKey) : Prop :=
  src.directoryFlag = true ∧ (ofLex oldKey).1 ≠ (ofLex newKey).1 ∧
    st.isAncestor src.inodeId (ofLex newKey).1 = true

/-- A rename that is no exchange brings the moved entry at most, and only if it passes the check. -/
theorem mem_renameEntry {flags : Mounted.RenameFlags} (hplain : flags.exchange = false)
    (hr : r ∈ (st.renameEntry flags src oldKey newKey).2.catalog.records) :
    r ∈ st.catalog.records ∨ r = Mounted.newRecord src.inodeId newKey src.directoryFlag ∧
        ¬st.IntoItself src oldKey newKey := by
  rw [renameEntry] at hr
  simp only [hplain, Bool.false_eq_true, if_false] at hr
  split_ifs at hr with hnoreplace hfile hdir hcheck
  · exact Or.inl hr
  · exact Or.inl hr
  · exact Or.inl hr
  · exact Or.inl hr
  · cases hfound : st.catalogLookup newKey with
    | none =>
      rw [hfound] at hr
      exact (mem_moveEntry hr).symm.imp_right fun h ↦ ⟨h, hcheck⟩
    | some dst =>
      rw [hfound] at hr
      simp only [replaceEntry] at hr
      have hsub := st.replaceDest_subset dst newKey
      rcases hdest : st.replaceDest dst newKey with ⟨status, st₁⟩
      rw [hdest] at hr hsub
      cases status with
      | some e => exact Or.inl (hsub hr)
      | none => exact ((mem_moveEntry hr).symm.imp_left fun h ↦ hsub h).imp_right fun h ↦ ⟨h, hcheck⟩

/-- A way over entries old and new that is none over the old ones leads from the parent of the new
entry to its child. -/
theorem transGen_of_new {a b n s : ℕ}
    (hstep : ∀ p c, st'.Subdirectory p c → st.Subdirectory p c ∨ p = n ∧ c = s)
    (hway : TransGen st'.Subdirectory a b) :
    TransGen st.Subdirectory a b ∨ st.AtOrAbove a n ∧ st.AtOrAbove s b := by
  induction hway with
  | single hlast =>
    rcases hstep _ _ hlast with hold | ⟨rfl, rfl⟩
    · exact Or.inl (TransGen.single hold)
    · exact Or.inr ⟨ReflTransGen.refl, ReflTransGen.refl⟩
  | tail _ hlast ih =>
    rcases hstep _ _ hlast with hold | ⟨rfl, rfl⟩
    · exact ih.imp (fun h ↦ h.tail hold) fun h ↦ ⟨h.1, h.2.tail hold⟩
    · refine Or.inr ⟨?_, ReflTransGen.refl⟩
      exact ih.elim (fun h ↦ h.to_reflTransGen) And.left

/-- No rename but an exchange brings a directory other than the root below itself. -/
def RenamesKeep (st : NameStore) : Prop :=
  ∀ (flags : Mounted.RenameFlags) (oldpath newpath : List ℕ), flags.exchange = false →
    ∀ a ≠ rootInodeId, ¬TransGen (st.fuseRename flags oldpath newpath).2.Subdirectory a a

namespace DirectoryTree

/-- A rename that passed the exact check. -/
theorem not_above_itself_rename (h : st.DirectoryTree) (hexact : CheckExact st)
    {flags : Mounted.RenameFlags} (hplain : flags.exchange = false) {src : CatalogRecord}
    {oldKey newKey : CatalogKey} (hsrc : st.catalogLookup oldKey = some src)
    (hne : a ≠ rootInodeId) :
    ¬TransGen (st.renameEntry flags src oldKey newKey).2.Subdirectory a a := by
  intro hloop
  have hold := h.not_above_itself hne
  obtain ⟨hmem, hkey⟩ := (Root.mem_lookup h.ordered).mp hsrc
  have hstep (p c : ℕ) (hsub : (st.renameEntry flags src oldKey newKey).2.Subdirectory p c) :
      st.Subdirectory p c ∨ p = (ofLex newKey).1 ∧ c = src.inodeId ∧
        src.directoryFlag = true ∧ ¬st.IntoItself src oldKey newKey := by
    obtain ⟨r, hr, hflag, rfl, rfl⟩ := hsub
    rcases mem_renameEntry hplain hr with hr | ⟨rfl, hcheck⟩
    · exact Or.inl ⟨r, hr, hflag, rfl, rfl⟩
    · exact Or.inr ⟨rfl, rfl, hflag, hcheck⟩
  by_cases hnew : src.directoryFlag = true ∧ (ofLex oldKey).1 ≠ (ofLex newKey).1 ∧
      ¬st.IntoItself src oldKey newKey
  · obtain ⟨hflag, hparent, hcheck⟩ := hnew
    rcases transGen_of_new (fun p c hsub ↦ (hstep p c hsub).imp_right fun h ↦ ⟨h.1, h.2.1⟩)
      hloop with hway | ⟨habove, hbelow⟩
    · exact hold hway
    · exact hcheck ⟨hflag, hparent, (hexact _ _).mpr (hbelow.trans habove)⟩
  · -- A move inside one directory brings no step that was not there.
    refine hold (TransGen.mono (fun p c hsub ↦ ?_) _ _ hloop)
    rcases hstep p c hsub with hsub | ⟨rfl, rfl, hflag, hcheck⟩
    · exact hsub
    · have hsame : (ofLex oldKey).1 = (ofLex newKey).1 := by
        by_contra hparent
        exact hnew ⟨hflag, hparent, hcheck⟩
      exact ⟨src, hmem, hflag, by rw [← hsame, ← hkey, catalogKey, ofLex_toLex], rfl⟩

theorem renamesKeep (h : st.DirectoryTree) (hexact : CheckExact st) : RenamesKeep st := by
  intro flags oldpath newpath hplain a hne hloop
  rw [fuseRename] at hloop
  have hold := h.not_above_itself hne
  split_ifs at hloop with hothers
  · exact hold hloop
  cases holdKey : st.resolvePath oldpath with
  | error e =>
    rw [holdKey] at hloop
    exact hold hloop
  | ok oldKey =>
    simp only [holdKey] at hloop
    cases hsrc : st.catalogLookup oldKey with
    | none =>
      rw [hsrc] at hloop
      exact hold hloop
    | some src =>
      simp only [hsrc] at hloop
      cases hnewKey : st.resolvePath newpath with
      | error e =>
        rw [hnewKey] at hloop
        exact hold hloop
      | ok newKey =>
        simp only [hnewKey] at hloop
        exact h.not_above_itself_rename hexact hplain hsrc hne hloop

/-- The check is exact when every directory with subdirectories is near the root, and then renames
keep the tree; it is not when a directory with subdirectories is not near. -/
theorem checkExact_iff (h : st.DirectoryTree) :
    CheckExact st ∧ RenamesKeep st ↔ ParentsNear st := by
  constructor
  · exact fun hclaim ↦ h.parentsNear_of_checkExact hclaim.1
  · intro hnear
    have hexact := h.checkExact_of_parentsNear hnear
    exact ⟨hexact, h.renamesKeep hexact⟩

end DirectoryTree

/-! ### A chain of directories -/

/-- The entry of a directory in a chain: its only name is `d`, and the one before it has it. -/
def chainRecord (i : ℕ) : CatalogRecord := ⟨i + 3, i + 2, true, [100]⟩

/-- A volume whose directories are the root and a chain below it. -/
def chain (depth : ℕ) : NameStore where
  blockSize := 8192
  catalog := .node 0 ((), rootRecord :: (List.range depth).map chainRecord)
  inodes := .empty
  nextInodeId := depth + 3
  diskImageMaps := []

theorem subdirectory_chain : (chain depth).Subdirectory p c ↔
      p = rootInodeId ∧ c = rootInodeId ∨ ∃ i < depth, p = i + 2 ∧ c = i + 3 := by
  constructor
  · rintro ⟨r, hr, -, rfl, rfl⟩
    rcases List.mem_cons.mp hr with rfl | hr
    · exact Or.inl ⟨rfl, rfl⟩
    · obtain ⟨i, hi, rfl⟩ := List.mem_map.mp hr
      exact Or.inr ⟨i, List.mem_range.mp hi, rfl, rfl⟩
  · rintro (⟨rfl, rfl⟩ | ⟨i, hi, rfl, rfl⟩)
    · exact ⟨rootRecord, List.mem_cons_self, rfl, rfl, rfl⟩
    · exact ⟨chainRecord i,
        List.mem_cons_of_mem _ (List.mem_map_of_mem (List.mem_range.mpr hi)), rfl, rfl, rfl⟩

theorem parent_chain (hsub : (chain depth).Subdirectory p c) : p = max 2 (c - 1) := by
  rcases subdirectory_chain.mp hsub with ⟨rfl, rfl⟩ | ⟨i, -, rfl, rfl⟩
  · rfl
  · omega

theorem above_chain {depth i : ℕ} (hi : i ≤ depth) : (chain depth).AtOrAbove rootInodeId (i + 2) := by
  induction i with
  | zero => exact ReflTransGen.refl
  | succ i ih => exact (ih (by omega)).tail (subdirectory_chain.mpr (Or.inr ⟨i, hi, rfl, rfl⟩))

theorem directoryTree_chain (depth : ℕ) : (chain depth).DirectoryTree where
  ordered := by
    refine List.Pairwise.cons (fun k hk ↦ ?_) ?_
    · obtain ⟨r, hr, rfl⟩ := List.mem_map.mp hk
      obtain ⟨i, -, rfl⟩ := List.mem_map.mp hr
      refine Prod.Lex.toLex_lt_toLex.mpr ?_
      rcases Nat.eq_zero_or_pos i with rfl | hpos
      · exact Or.inr ⟨rfl, by decide⟩
      · exact Or.inl (Nat.lt_add_of_pos_left hpos)
    · rw [List.pairwise_map, List.pairwise_map]
      exact List.pairwise_lt_range.imp fun hlt ↦
        Prod.Lex.toLex_lt_toLex.mpr (Or.inl (Nat.add_lt_add_right hlt 2))
  root := List.mem_cons_self
  one_parent a b c ha hb := by
    rw [parent_chain ha, parent_chain hb]
  below_root a c hac := by
    rcases subdirectory_chain.mp hac with ⟨rfl, rfl⟩ | ⟨i, hi, rfl, rfl⟩
    · exact ReflTransGen.refl
    · exact above_chain hi

theorem root_mem_nearRoot : rootInodeId ∈ st.nearRoot := by
  rw [nearRoot, near_eq (by decide)]
  exact List.mem_cons_self

/-- Below the root alone everything is near. -/
theorem checkExact_iff_one : CheckExact (chain 1) ∧ RenamesKeep (chain 1) := by
  refine (directoryTree_chain 1).checkExact_iff.mpr fun p c hsub _ ↦ ?_
  rcases subdirectory_chain.mp hsub with ⟨rfl, -⟩ | ⟨i, hi, rfl, -⟩
  · exact root_mem_nearRoot
  · obtain rfl : i = 0 := Nat.lt_one_iff.mp hi
    exact root_mem_nearRoot

/-- The path of the deepest directory of a chain, and a new name in it. -/
def deepPath (depth : ℕ) : List ℕ := (List.replicate depth [47, 100]).flatten ++ [47, 101]

/-- The chain after its first directory was moved into its last one. -/
def moved : NameStore := ((chain 23).fuseRename ⟨false, false, false⟩ [47, 100] (deepPath 23)).2

theorem records_moved : moved.catalog.records =
      rootRecord :: (List.range 22).map (fun i ↦ chainRecord (i + 1)) ++ [⟨3, 25, true, [101]⟩] := by
  decide +kernel

/-- In a chain of 23 directories the last but one is not near. The check does not see that the last
one is below the first, and the first can be moved into it. -/
theorem checkExact_iff_deep :
    (chain 23).DirectoryTree ∧ (chain 23).isAncestor 3 25 = false ∧ (chain 23).AtOrAbove 3 25 ∧
      ((chain 23).fuseRename ⟨false, false, false⟩ [47, 100] (deepPath 23)).1 = none ∧
      TransGen moved.Subdirectory 3 3 ∧ ¬(CheckExact (chain 23) ∧ RenamesKeep (chain 23)) := by
  have hblind : (chain 23).isAncestor 3 25 = false := by decide +kernel
  have habove (i : ℕ) (hi : i ≤ 22) : (chain 23).AtOrAbove 3 (i + 3) := by
    induction i with
    | zero => exact ReflTransGen.refl
    | succ i ih =>
      exact (ih (by omega)).tail (subdirectory_chain.mpr (Or.inr ⟨i + 1, by omega, rfl, rfl⟩))
  have hmoved (i : ℕ) (hi : i ≤ 22) : moved.AtOrAbove 3 (i + 3) := by
    induction i with
    | zero => exact ReflTransGen.refl
    | succ i ih =>
      refine (ih (by omega)).tail ⟨chainRecord (i + 1), ?_, rfl, rfl, rfl⟩
      rw [records_moved]
      refine List.mem_append_left _ (List.mem_cons_of_mem _ (List.mem_map.mpr ⟨i, ?_, rfl⟩))
      exact List.mem_range.mpr hi
  have hlast : moved.Subdirectory 25 3 := by
    refine ⟨⟨3, 25, true, [101]⟩, ?_, rfl, rfl, rfl⟩
    rw [records_moved]
    exact List.mem_append_right _ (List.mem_singleton_self _)
  refine ⟨directoryTree_chain 23, hblind, habove 22 le_rfl, by decide +kernel,
    TransGen.tail' (hmoved 22 le_rfl) hlast, fun hclaim ↦ ?_⟩
  have hseen := (hclaim.1 3 25).mpr (habove 22 le_rfl)
  rw [hblind] at hseen
  cases hseen

end Obmafs3.NameStore
