import Obmafs3.Namespace

/-!
# A rename that fails

A rename takes entries out of the catalog, and destroys the file it replaces, before it enters the
moved one. `rename_failed` says that a rename that returns an error leaves both names as they were
if and only if one of its checks failed: every later error comes after a name is gone.
-/

set_option autoImplicit false

namespace Obmafs3

open Library.SearchTree

namespace Mounted

variable {β : Type} {st st' : Mounted β} {key oldKey newKey : CatalogKey}

/-- An entry still resolves to the inode it named, and the inode still has its data. -/
def KeepsEntry (st st' : Mounted β) (key : CatalogKey) : Prop :=
  ∀ entry, st.catalogLookup key = some entry →
    (∃ entry', st'.catalogLookup key = some entry' ∧ entry'.inodeId = entry.inodeId) ∧
      ∀ inode, st.inodeGet entry.inodeId = some inode →
        ∃ inode', st'.inodeGet entry.inodeId = some inode' ∧ inode'.body = inode.body

/-- A refused insertion leaves records that were there, and perhaps the new one. -/
def RefusesWithin (st : Mounted β) : Prop :=
  ∀ catalog record left, st.catalogRefuses catalog record = some left →
    ∀ r ∈ left, r = record ∨ r ∈ catalog

/-- The check that a rename fails before it changes anything. -/
def renameCheck (st : Mounted β) (flags : RenameFlags) (oldKey newKey : CatalogKey) :
    Option Errno :=
  if flags.others then some .einval
  else
    match st.catalogLookup oldKey, st.catalogLookup newKey with
    | none, _ => some .enoent
    | some src, none =>
      if flags.exchange then some .enoent
      else if src.directoryFlag ∧ (ofLex oldKey).1 ≠ (ofLex newKey).1 ∧
          st.isAncestor src.inodeId (ofLex newKey).1 then some .einval
      else none
    | some src, some dst =>
      if flags.exchange then
        if src.directoryFlag ≠ dst.directoryFlag then some .enotdir else none
      else if flags.noreplace then some .eexist
      else if src.directoryFlag && !dst.directoryFlag then some .enotdir
      else if !src.directoryFlag && dst.directoryFlag then some .eisdir
      else if src.directoryFlag ∧ (ofLex oldKey).1 ≠ (ofLex newKey).1 ∧
          st.isAncestor src.inodeId (ofLex newKey).1 then some .einval
      else if dst.directoryFlag ∧ ¬(st.catalogList dst.inodeId).isEmpty then some .enotempty
      else none

theorem KeepsEntry.refl (st : Mounted β) (key : CatalogKey) : KeepsEntry st st key :=
  fun entry hentry ↦ ⟨⟨entry, hentry, rfl⟩, fun inode hinode ↦ ⟨inode, hinode, rfl⟩⟩

variable {src dst : CatalogRecord} {entry : CatalogRecord} {flags : RenameFlags} {e : Errno}

/-- A name that is gone is not kept. -/
theorem not_keepsEntry (hentry : st.catalogLookup key = some entry)
    (hgone : st'.catalogLookup key = none) : ¬KeepsEntry st st' key := by
  intro hkeeps
  obtain ⟨⟨entry', hentry', -⟩, -⟩ := hkeeps entry hentry
  rw [hgone] at hentry'
  cases hentry'

theorem find?_withoutKey (key other : CatalogKey) (catalog : List CatalogRecord) :
    (withoutKey key catalog).find? (catalogKey · = other) =
      if key = other then none else catalog.find? (catalogKey · = other) := by
  unfold withoutKey
  rw [List.find?_filter]
  split_ifs with hkey
  · subst hkey
    exact List.find?_eq_none.mpr fun r _ ↦ by simp
  · congr 1
    funext r
    by_cases hr : catalogKey r = other
    · simpa [hr] using Ne.symm hkey
    · simp [hr]

theorem mem_withoutKey {r : CatalogRecord} {catalog : List CatalogRecord} :
    r ∈ withoutKey key catalog ↔ r ∈ catalog ∧ catalogKey r ≠ key := by
  simp [withoutKey]

theorem catalogDelete_found (hfound : st.catalogLookup key = some entry) :
    st.catalogDelete key = .ok { st with catalog := withoutKey key st.catalog } := by
  rw [catalogDelete, hfound]

theorem catalogDelete_none (hnone : st.catalogLookup key = none) :
    st.catalogDelete key = .error st := by
  rw [catalogDelete, hnone]

theorem newRecord_key (inodeId : ℕ) (directoryFlag : Bool) (hname : (ofLex key).2.length ≤ 255) :
    catalogKey (newRecord inodeId key directoryFlag) = key := by
  rw [catalogKey, newRecord, List.take_of_length_le hname, Prod.mk.eta, toLex_ofLex]

variable {catalog left : List CatalogRecord} {record : CatalogRecord}

theorem catalogInsert_refused (hrefuses : st.catalogRefuses catalog record = some left) :
    Mounted.catalogInsert { st with catalog := catalog } record =
      .error { st with catalog := left } := by
  rw [catalogInsert]
  simp only [hrefuses]

theorem catalogInsert_accepted {catalog : List CatalogRecord}
    (haccepts : st.catalogRefuses catalog record = none) :
    Mounted.catalogInsert { st with catalog := catalog } record =
      .ok { st with catalog := upsert catalogKey record catalog } := by
  rw [catalogInsert]
  simp only [haccepts]

theorem inodeDelete_catalog (inodeId : ℕ) :
    (orEio (st.inodeDelete inodeId)).2.catalog = st.catalog := by
  unfold inodeDelete
  cases st.inodeGet inodeId <;> rfl

theorem inodePut_catalog (inode : InodeEntry β) :
    (orEio (st.inodePut inode)).2.catalog = st.catalog := by
  unfold inodePut
  cases st.inodeGet inode.inodeId with
  | some inode' => rfl
  | none => cases st.inodesRefuse st.inodes inode <;> rfl

/-- Lowering a link count or removing an inode leaves the names alone. -/
theorem dropLink_catalog (inodeId : ℕ) : (st.dropLink inodeId).2.catalog = st.catalog := by
  unfold dropLink
  cases st.inodeGet inodeId with
  | none => rfl
  | some inode =>
    simp only
    split_ifs
    · exact inodePut_catalog _
    · exact inodeDelete_catalog inodeId

theorem dropLink_catalogRefuses (inodeId : ℕ) :
    (st.dropLink inodeId).2.catalogRefuses = st.catalogRefuses := by
  unfold dropLink
  cases hget : st.inodeGet inodeId with
  | none => rfl
  | some inode =>
    simp only
    split_ifs
    · unfold inodePut
      simp only [show inode.inodeId = inodeId by simpa using List.find?_some hget, hget]
      rfl
    · unfold inodeDelete
      simp only [hget]
      rfl

/-! ### The steps of a rename -/

/-- A move that fails was refused its insertion, or did not find the old name. -/
theorem moveEntry_failed {src : CatalogRecord}
    (hrun : st.moveEntry src oldKey newKey = (some e, st')) :
    st.catalogLookup oldKey = none ∧ st' = st ∨ st.catalogLookup oldKey ≠ none ∧
        ∃ left, st.catalogRefuses (withoutKey oldKey st.catalog)
            (newRecord src.inodeId newKey src.directoryFlag) = some left ∧
          st' = { st with catalog := left } := by
  unfold moveEntry at hrun
  cases hlookup : st.catalogLookup oldKey with
  | none =>
    rw [catalogDelete_none hlookup] at hrun
    exact Or.inl ⟨rfl, (congrArg Prod.snd hrun).symm⟩
  | some entry =>
    right
    simp only [catalogDelete_found hlookup] at hrun
    cases hrefuses : st.catalogRefuses (withoutKey oldKey st.catalog)
        (newRecord src.inodeId newKey src.directoryFlag) with
    | none =>
      rw [catalogInsert_accepted hrefuses] at hrun
      exact absurd (congrArg Prod.fst hrun) (by simp [orEio])
    | some left =>
      rw [catalogInsert_refused hrefuses] at hrun
      exact ⟨by simp, left, rfl, (congrArg Prod.snd hrun).symm⟩

/-- A destination that is not a directory with entries is gone from the catalog. -/
theorem replaceDest_catalog {dst : CatalogRecord} (hfound : st.catalogLookup newKey = some dst)
    (hempty : ¬(dst.directoryFlag ∧ ¬(st.catalogList dst.inodeId).isEmpty)) :
    (st.replaceDest dst newKey).2.catalog = withoutKey newKey st.catalog := by
  unfold replaceDest
  split_ifs with hdir hchildren
  · simp only [catalogDelete_found hfound]
    exact inodeDelete_catalog _
  · exact absurd ⟨hdir, hchildren⟩ hempty
  · simp only [catalogDelete_found hfound]
    exact dropLink_catalog _

theorem replaceDest_catalogRefuses {dst : CatalogRecord}
    (hfound : st.catalogLookup newKey = some dst) :
    (st.replaceDest dst newKey).2.catalogRefuses = st.catalogRefuses := by
  unfold replaceDest
  split_ifs with hdir hchildren
  · simp only [catalogDelete_found hfound, inodeDelete]
    cases Mounted.inodeGet _ dst.inodeId <;> rfl
  · rfl
  · simp only [catalogDelete_found hfound]
    exact dropLink_catalogRefuses _

/-- What a refused last insertion of an exchange leaves. -/
def exchangeLeft (st : Mounted β) (src dst : CatalogRecord) (oldKey newKey : CatalogKey) :
    Option (List CatalogRecord) :=
  let deleted := withoutKey newKey (withoutKey oldKey st.catalog)
  let first := newRecord dst.inodeId oldKey dst.directoryFlag
  if oldKey ≠ newKey ∧ st.catalogRefuses deleted first = none then
    st.catalogRefuses (upsert catalogKey first deleted)
      (newRecord src.inodeId newKey src.directoryFlag)
  else none

/-- A failed exchange was refused its last insertion, or has lost one of the names. -/
theorem exchangeEntries_failed (hwithin : st.RefusesWithin) (hname : (ofLex oldKey).2.length ≤ 255)
    (hsrc : st.catalogLookup oldKey = some src) (hdst : st.catalogLookup newKey = some dst)
    (hrun : st.exchangeEntries src dst oldKey newKey = (some e, st')) :
    st.exchangeLeft src dst oldKey newKey = none ∧
        (st'.catalogLookup oldKey = none ∨ st'.catalogLookup newKey = none) ∨
      ∃ left, st.exchangeLeft src dst oldKey newKey = some left ∧
        st' = { st with catalog := left } := by
  unfold exchangeEntries at hrun
  simp only [catalogDelete_found hsrc] at hrun
  generalize hdeleted : withoutKey newKey (withoutKey oldKey st.catalog) = deleted at *
  generalize hfirst : newRecord dst.inodeId oldKey dst.directoryFlag = first at *
  by_cases hkeys : oldKey = newKey
  · left
    subst hkeys
    have hgone : Mounted.catalogLookup
        { st with catalog := withoutKey oldKey st.catalog } oldKey = none := by
      rw [catalogLookup, find?_withoutKey, if_pos rfl]
    rw [catalogDelete_none hgone] at hrun
    rw [← show _ = st' from congrArg Prod.snd hrun]
    exact ⟨if_neg fun h ↦ h.1 rfl, Or.inl hgone⟩
  · have hdst' : Mounted.catalogLookup
        { st with catalog := withoutKey oldKey st.catalog } newKey = some dst := by
      rw [catalogLookup, find?_withoutKey, if_neg hkeys]
      exact hdst
    rw [catalogDelete_found hdst'] at hrun
    simp only [hdeleted] at hrun
    cases hrefuses : st.catalogRefuses deleted first with
    | some left =>
      rw [catalogInsert_refused hrefuses] at hrun
      rw [← show _ = st' from congrArg Prod.snd hrun]
      refine Or.inl ⟨if_neg (by simp [hdeleted, hfirst, hrefuses]), Or.inr ?_⟩
      refine List.find?_eq_none.mpr fun r hr ↦ ?_
      rcases hwithin deleted first left hrefuses r hr with rfl | hr
      · simpa [← hfirst, newRecord_key _ _ hname] using hkeys
      · rw [← hdeleted] at hr
        simpa using (mem_withoutKey.mp hr).2
    | none =>
      right
      rw [catalogInsert_accepted hrefuses] at hrun
      have hleft : st.exchangeLeft src dst oldKey newKey =
          st.catalogRefuses (upsert catalogKey first deleted)
            (newRecord src.inodeId newKey src.directoryFlag) := by
        rw [exchangeLeft, hdeleted, hfirst]
        exact if_pos ⟨hkeys, hrefuses⟩
      rw [hleft]
      cases hsecond : st.catalogRefuses (upsert catalogKey first deleted)
          (newRecord src.inodeId newKey src.directoryFlag) with
      | none =>
        simp only [catalogInsert_accepted hsecond] at hrun
        exact absurd (congrArg Prod.fst hrun) (by simp [orEio])
      | some left =>
        simp only [catalogInsert_refused hsecond] at hrun
        exact ⟨left, rfl, (congrArg Prod.snd hrun).symm⟩

/-! ### Renames -/

/-- A rename that fails a check changes nothing, and one that passes them all goes on. -/
theorem fuseRename_of_check (hcheck : st.renameCheck flags oldKey newKey = some e) :
    st.fuseRename flags oldKey newKey = (some e, st) := by
  unfold renameCheck at hcheck
  unfold fuseRename
  cases hothers : flags.others with
  | true => simpa [hothers] using hcheck
  | false =>
    simp only [hothers, Bool.false_eq_true, if_false] at hcheck ⊢
    cases hsrc : st.catalogLookup oldKey with
    | none => simpa [hsrc] using hcheck
    | some src =>
      cases hdst : st.catalogLookup newKey with
      | none =>
        simp only [hsrc, hdst] at hcheck ⊢
        cases hexchange : flags.exchange with
        | true => simpa [hexchange] using hcheck
        | false =>
          simp only [hexchange, Bool.false_eq_true, if_false] at hcheck
          split_ifs at hcheck with hancestor
          simp only [Bool.false_eq_true, if_false, Option.isSome_none, and_false, Option.any_none,
            if_pos hancestor]
          simpa using hcheck
      | some dst =>
        simp only [hsrc, hdst] at hcheck ⊢
        cases hexchange : flags.exchange with
        | true =>
          simp only [hexchange, if_true] at hcheck ⊢
          split_ifs at hcheck ⊢
          simpa using hcheck
        | false =>
          simp only [hexchange, Bool.false_eq_true, if_false] at hcheck
          simp only [Bool.false_eq_true, if_false, Option.isSome_some, and_true, Option.any_some]
          split_ifs at hcheck ⊢ with h₁ h₂ h₃ h₄ h₅
          all_goals try simpa using hcheck
          obtain rfl := Option.some.inj hcheck
          simp only [replaceEntry, replaceDest, if_pos h₅.1, if_neg h₅.2]

/-- What a rename does once its checks have passed. -/
theorem fuseRename_of_passed (hcheck : st.renameCheck flags oldKey newKey = none) :
    ∃ src, st.catalogLookup oldKey = some src ∧
      ((∃ dst, st.catalogLookup newKey = some dst ∧ flags.exchange ∧
          st.fuseRename flags oldKey newKey = st.exchangeEntries src dst oldKey newKey) ∨
        (st.catalogLookup newKey = none ∧ ¬flags.exchange ∧
          st.fuseRename flags oldKey newKey = st.moveEntry src oldKey newKey) ∨
        ∃ dst, st.catalogLookup newKey = some dst ∧ ¬flags.exchange ∧
          ¬(dst.directoryFlag ∧ ¬(st.catalogList dst.inodeId).isEmpty) ∧
          st.fuseRename flags oldKey newKey = st.replaceEntry src dst oldKey newKey) := by
  unfold renameCheck at hcheck
  unfold fuseRename
  cases hothers : flags.others with
  | true => simp [hothers] at hcheck
  | false =>
    simp only [hothers, Bool.false_eq_true, if_false] at hcheck ⊢
    cases hsrc : st.catalogLookup oldKey with
    | none => simp [hsrc] at hcheck
    | some src =>
      refine ⟨src, rfl, ?_⟩
      cases hdst : st.catalogLookup newKey with
      | none =>
        simp only [hsrc, hdst] at hcheck ⊢
        cases hexchange : flags.exchange with
        | true => simp [hexchange] at hcheck
        | false =>
          simp only [hexchange, Bool.false_eq_true, if_false] at hcheck
          split_ifs at hcheck with hancestor
          refine Or.inr (Or.inl ⟨trivial, by simp, ?_⟩)
          simp only [Bool.false_eq_true, if_false, Option.isSome_none, and_false, Option.any_none,
            if_neg hancestor]
      | some dst =>
        simp only [hsrc, hdst] at hcheck ⊢
        cases hexchange : flags.exchange with
        | true =>
          simp only [hexchange, if_true] at hcheck ⊢
          split_ifs at hcheck with hflags
          exact Or.inl ⟨dst, rfl, trivial, if_neg hflags⟩
        | false =>
          simp only [hexchange, Bool.false_eq_true, if_false] at hcheck
          split_ifs at hcheck with hnoreplace hnotdir hisdir hancestor hempty
          refine Or.inr (Or.inr ⟨dst, rfl, by simp, hempty, ?_⟩)
          simp only [Bool.false_eq_true, if_false, Option.isSome_some, and_true, if_neg hnoreplace,
            Option.any_some, if_neg hnotdir, if_neg hisdir, if_neg hancestor]

/-- The names come back with a refused last insertion: the record was in its place before the
refusal, and the two names are of one inode, or the new name, cut to 255 bytes, is the old one. -/
def restoresNames (st : Mounted β) (flags : RenameFlags) (oldKey newKey : CatalogKey) : Bool :=
  match st.catalogLookup oldKey, st.catalogLookup newKey with
  | none, _ => false
  | some src, some dst =>
    flags.exchange && src.inodeId == dst.inodeId &&
      (st.exchangeLeft src dst oldKey newKey).any fun left ↦
        (left.find? (catalogKey · = oldKey)).isSome && (left.find? (catalogKey · = newKey)).isSome
  | some src, none =>
    catalogKey (newRecord src.inodeId newKey src.directoryFlag) == oldKey &&
      (st.catalogRefuses (withoutKey oldKey st.catalog)
        (newRecord src.inodeId newKey src.directoryFlag)).any fun left ↦
          (left.find? (catalogKey · = oldKey)).isSome

/-- Of the keys that were not there, a refused insertion can only bring its own. -/
theorem RefusesWithin.find? (hwithin : st.RefusesWithin) {record r : CatalogRecord}
    (hrefuses : st.catalogRefuses catalog record = some left)
    (hnone : catalog.find? (catalogKey · = key) = none)
    (hfound : left.find? (catalogKey · = key) = some r) : r = record ∧ catalogKey record = key := by
  have hkey : catalogKey r = key := by simpa using List.find?_some hfound
  rcases hwithin catalog record left hrefuses r (List.mem_of_find?_eq_some hfound) with rfl | hr
  · exact ⟨rfl, hkey⟩
  · exact absurd hkey (by simpa using List.find?_eq_none.mp hnone r hr)

theorem keepsEntry_with_catalog {left : List CatalogRecord}
    (hfound : st.catalogLookup key = some entry) : KeepsEntry st { st with catalog := left } key ↔
      ∃ r, left.find? (catalogKey · = key) = some r ∧ r.inodeId = entry.inodeId := by
  constructor
  · exact fun hkeeps ↦ (hkeeps entry hfound).1
  · intro hkept entry' hentry'
    obtain rfl := Option.some.inj (hfound.symm.trans hentry')
    exact ⟨hkept, fun inode hinode ↦ ⟨inode, hinode, rfl⟩⟩

theorem name_length_of_found (hnames : ∀ r ∈ st.catalog, r.name.length ≤ 255)
    (hfound : st.catalogLookup key = some entry) : (ofLex key).2.length ≤ 255 := by
  have hkey : catalogKey entry = key := by simpa using List.find?_some hfound
  rw [← hkey]
  exact hnames entry (List.mem_of_find?_eq_some hfound)

section

variable (hwithin : st.RefusesWithin)
include hwithin

/-- A move to a free name that fails has lost the old name, unless the record has come back. -/
theorem moveEntry_keeps {src : CatalogRecord}
    (hsrc : st.catalogLookup oldKey = some src) (hdst : st.catalogLookup newKey = none)
    (hrun : st.moveEntry src oldKey newKey = (some e, st')) :
    KeepsEntry st st' oldKey ∧ KeepsEntry st st' newKey ↔
      st.restoresNames flags oldKey newKey = true := by
  rcases moveEntry_failed hrun with ⟨hnone, -⟩ | ⟨-, left, hrefuses, rfl⟩
  · rw [hsrc] at hnone
    cases hnone
  · have hgone : (withoutKey oldKey st.catalog).find? (catalogKey · = oldKey) = none := by
      rw [find?_withoutKey, if_pos rfl]
    have hnew : KeepsEntry st { st with catalog := left } newKey := by
      intro entry hentry
      rw [hdst] at hentry
      cases hentry
    simp only [keepsEntry_with_catalog hsrc, hnew, and_true, restoresNames, hsrc, hdst, hrefuses,
      Option.any_some, Bool.and_eq_true, beq_iff_eq]
    constructor
    · rintro ⟨r, hr, -⟩
      obtain ⟨rfl, hkey⟩ := hwithin.find? hrefuses hgone hr
      exact ⟨hkey, by rw [hr]; rfl⟩
    · rintro ⟨-, hsome⟩
      obtain ⟨r, hr⟩ := Option.isSome_iff_exists.mp hsome
      obtain ⟨rfl, -⟩ := hwithin.find? hrefuses hgone hr
      exact ⟨_, hr, rfl⟩

/-- What the names of an exchange lead to after a refusal of its last insertion, if they do: each
to the inode of the other. -/
theorem exchangeLeft_find? {left : List CatalogRecord}
    (hold : (ofLex oldKey).2.length ≤ 255) (hnew : (ofLex newKey).2.length ≤ 255)
    (hleft : st.exchangeLeft src dst oldKey newKey = some left) (r : CatalogRecord) :
    (left.find? (catalogKey · = oldKey) = some r → r.inodeId = dst.inodeId) ∧
      (left.find? (catalogKey · = newKey) = some r → r.inodeId = src.inodeId) := by
  rw [exchangeLeft] at hleft
  obtain ⟨⟨hkeys, -⟩, hrefuses⟩ := Option.ite_none_right_eq_some.mp hleft
  have hcases (hr : r ∈ left) : catalogKey r = newKey ∧ r.inodeId = src.inodeId ∨
      catalogKey r = oldKey ∧ r.inodeId = dst.inodeId ∨
      catalogKey r ≠ oldKey ∧ catalogKey r ≠ newKey := by
    rcases hwithin _ _ left hrefuses r hr with rfl | hmem
    · exact Or.inl ⟨newRecord_key _ _ hnew, rfl⟩
    · rcases mem_of_mem_upsert hmem with rfl | hmem
      · exact Or.inr (Or.inl ⟨newRecord_key _ _ hold, rfl⟩)
      · obtain ⟨hmem, hne⟩ := mem_withoutKey.mp hmem
        exact Or.inr (Or.inr ⟨(mem_withoutKey.mp hmem).2, hne⟩)
  constructor
  · intro hfound
    have hr : catalogKey r = oldKey := by simpa using List.find?_some hfound
    rcases hcases (List.mem_of_find?_eq_some hfound) with ⟨hkey, -⟩ | ⟨-, hinode⟩ | ⟨hne, -⟩
    · exact absurd (hr.symm.trans hkey) hkeys
    · exact hinode
    · exact absurd hr hne
  · intro hfound
    have hr : catalogKey r = newKey := by simpa using List.find?_some hfound
    rcases hcases (List.mem_of_find?_eq_some hfound) with ⟨-, hinode⟩ | ⟨hkey, -⟩ | ⟨-, hne⟩
    · exact hinode
    · exact absurd (hkey.symm.trans hr) hkeys
    · exact absurd hr hne

variable (hnames : ∀ r ∈ st.catalog, r.name.length ≤ 255)
include hnames

/-- An exchange that fails has lost a name, unless both records have come back and name one
inode. -/
theorem exchangeEntries_keeps (hexchange : flags.exchange)
    (hsrc : st.catalogLookup oldKey = some src) (hdst : st.catalogLookup newKey = some dst)
    (hrun : st.exchangeEntries src dst oldKey newKey = (some e, st')) :
    KeepsEntry st st' oldKey ∧ KeepsEntry st st' newKey ↔
      st.restoresNames flags oldKey newKey = true := by
  have hname := name_length_of_found hnames hsrc
  rcases exchangeEntries_failed hwithin hname hsrc hdst hrun with
    ⟨hleft, hgone⟩ | ⟨left, hleft, rfl⟩
  · refine iff_of_false ?_ (by simp [restoresNames, hsrc, hdst, hleft])
    rintro ⟨hkeepsOld, hkeepsNew⟩
    rcases hgone with hgone | hgone
    · exact not_keepsEntry hsrc hgone hkeepsOld
    · exact not_keepsEntry hdst hgone hkeepsNew
  · have hrestores : st.restoresNames flags oldKey newKey =
        (src.inodeId == dst.inodeId && ((left.find? (catalogKey · = oldKey)).isSome &&
          (left.find? (catalogKey · = newKey)).isSome)) := by
      simp only [restoresNames, hsrc, hdst, hleft, hexchange, Option.any_some, Bool.true_and]
    have hfind := exchangeLeft_find? hwithin hname (name_length_of_found hnames hdst) hleft
    rw [keepsEntry_with_catalog hsrc, keepsEntry_with_catalog hdst, hrestores]
    simp only [Bool.and_eq_true, beq_iff_eq, Option.isSome_iff_exists]
    constructor
    · rintro ⟨⟨r, hr, hinode⟩, q, hq, -⟩
      exact ⟨hinode.symm.trans ((hfind r).1 hr), ⟨r, hr⟩, q, hq⟩
    · rintro ⟨hinode, ⟨r, hr⟩, q, hq⟩
      exact ⟨⟨r, hr, ((hfind r).1 hr).trans hinode.symm⟩, q, hq, ((hfind q).2 hq).trans hinode⟩

/-- A rename over another entry that fails has lost the new name or the old one. -/
theorem replaceEntry_loses (hsrc : st.catalogLookup oldKey = some src)
    (hdst : st.catalogLookup newKey = some dst)
    (hempty : ¬(dst.directoryFlag ∧ ¬(st.catalogList dst.inodeId).isEmpty))
    (hrun : st.replaceEntry src dst oldKey newKey = (some e, st')) :
    ¬(KeepsEntry st st' oldKey ∧ KeepsEntry st st' newKey) := by
  rintro ⟨hkeepsOld, hkeepsNew⟩
  have hcatalog := replaceDest_catalog hdst hempty
  have hrefuses := replaceDest_catalogRefuses hdst
  unfold replaceEntry at hrun
  rcases hreplace : st.replaceDest dst newKey with ⟨status, st₁⟩
  rw [hreplace] at hrun hcatalog hrefuses
  have hnew : st₁.catalogLookup newKey = none := by
    rw [catalogLookup, hcatalog, find?_withoutKey, if_pos rfl]
  cases status with
  | some e' =>
    obtain rfl := congrArg Prod.snd hrun
    exact not_keepsEntry hdst hnew hkeepsNew
  | none =>
    rcases moveEntry_failed hrun with ⟨-, rfl⟩ | ⟨hold, left, hleft, rfl⟩
    · exact not_keepsEntry hdst hnew hkeepsNew
    · refine not_keepsEntry hsrc ?_ hkeepsOld
      have hwithin' : st₁.RefusesWithin := by
        intro catalog record left
        rw [hrefuses]
        exact hwithin catalog record left
      have hgone : (withoutKey oldKey st₁.catalog).find? (catalogKey · = oldKey) = none := by
        rw [find?_withoutKey, if_pos rfl]
      rw [catalogLookup, Option.eq_none_iff_forall_ne_some]
      intro r hr
      have hkey := (hwithin'.find? hleft hgone hr).2
      rw [newRecord_key _ _ (name_length_of_found hnames hdst)] at hkey
      exact hold (hkey ▸ hnew)

end

/-- A rename that returns an error keeps both names and what they name if and only if it failed one
of its checks, or its last insertion, though refused, has brought the names back. -/
theorem rename_failed (hwithin : st.RefusesWithin) (hnames : ∀ r ∈ st.catalog, r.name.length ≤ 255)
    {flags : RenameFlags} {e : Errno} (hrun : st.fuseRename flags oldKey newKey = (some e, st')) :
    KeepsEntry st st' oldKey ∧ KeepsEntry st st' newKey ↔
      st.renameCheck flags oldKey newKey ≠ none ∨ st.restoresNames flags oldKey newKey = true := by
  cases hcheck : st.renameCheck flags oldKey newKey with
  | some e' =>
    rw [fuseRename_of_check hcheck] at hrun
    obtain rfl := congrArg Prod.snd hrun
    exact iff_of_true ⟨.refl st oldKey, .refl st newKey⟩ (Or.inl (by simp))
  | none =>
    simp only [ne_eq, not_true_eq_false, false_or]
    obtain ⟨src, hsrc, hcases⟩ := fuseRename_of_passed hcheck
    rcases hcases with ⟨dst, hdst, hexchange, heq⟩ | ⟨hdst, -, heq⟩ |
      ⟨dst, hdst, hexchange, hempty, heq⟩
    · exact exchangeEntries_keeps hwithin hnames hexchange hsrc hdst (heq ▸ hrun)
    · exact moveEntry_keeps hwithin hsrc hdst (heq ▸ hrun)
    · refine iff_of_false (replaceEntry_loses hwithin hnames hsrc hdst hempty (heq ▸ hrun)) ?_
      simp [restoresNames, hsrc, hdst, hexchange]

/-! ### A full directory -/

/-- A directory `/d` whose fourteen entries fill a leaf of 4096 bytes, on a volume without a free
block, and a file `/a`. -/
def crowded : Mounted Unit where
  catalog :=
    [⟨2, 2, true, [47]⟩, ⟨4, 2, false, [97]⟩, ⟨3, 2, true, [100]⟩] ++
      (List.range 14).map fun i ↦ ⟨5 + i, 3, false, [97 + i]⟩
  inodes := (List.range 17).map fun i ↦ ⟨2 + i, 1, ()⟩
  nextInodeId := 19
  handles := fun _ ↦ none
  catalogRefuses := fun catalog record ↦
    if record.parentId = 3 ∧ 14 ≤ (catalog.filter (·.parentId = 3)).length then some catalog
    else none
  inodesRefuse := fun _ _ ↦ none

/-- The keys of `/a` and `/d/z`. -/
def crowdedSource : CatalogKey := toLex (2, [97])
def crowdedTarget : CatalogKey := toLex (3, [122])

theorem crowded_refusesWithin : crowded.RefusesWithin := by
  intro catalog record left hleft r hr
  obtain ⟨-, hleft⟩ := Option.ite_none_right_eq_some.mp hleft
  exact Or.inr (Option.some.inj hleft ▸ hr)

theorem crowded_names : ∀ r ∈ crowded.catalog, r.name.length ≤ 255 := by
  decide

/-- `rename("/a", "/d/z")` passes its checks, is refused the new entry, and has lost the old one. -/
theorem rename_failed_crowded :
    (KeepsEntry crowded (crowded.fuseRename ⟨false, false, false⟩ crowdedSource crowdedTarget).2
          crowdedSource ∧
        KeepsEntry crowded (crowded.fuseRename ⟨false, false, false⟩ crowdedSource crowdedTarget).2
          crowdedTarget ↔
      crowded.renameCheck ⟨false, false, false⟩ crowdedSource crowdedTarget ≠ none ∨
        crowded.restoresNames ⟨false, false, false⟩ crowdedSource crowdedTarget = true) ∧
    crowded.renameCheck ⟨false, false, false⟩ crowdedSource crowdedTarget = none :=
  ⟨rename_failed crowded_refusesWithin crowded_names (e := .eio)
    (show _ = (some Errno.eio, _) from Prod.ext (by decide) rfl), by decide⟩

theorem rename_failed_lost :
    ∃ st', crowded.fuseRename ⟨false, false, false⟩ crowdedSource crowdedTarget = (some .eio, st') ∧
      crowded.catalogLookup crowdedSource = some ⟨4, 2, false, [97]⟩ ∧
      ¬KeepsEntry crowded st' crowdedSource := by
  refine ⟨_, Prod.ext (by decide) rfl, by decide, ?_⟩
  exact not_keepsEntry (show _ = some ⟨4, 2, false, [97]⟩ by decide) (by decide)

end Mounted

end Obmafs3
