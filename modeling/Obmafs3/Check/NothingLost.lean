import Obmafs3.Check.LostFound
import Obmafs3.Library.ParentChain

/-!
# When a namespace repair loses nothing

`NothingLost` is what the phase is for: the inodes are kept, every one has a name that directories
lead to from the root, every entry names an inode, and a second run finds nothing. `Repairable` says
of the volume before the phase what that takes, and `cross_references_keep` is that it takes no
less. The ids of new inodes are compared with those in use after the first repair has taken one.
-/

set_option autoImplicit false

namespace Obmafs3

open Library.ParentChain Library.Search Library.SearchTree

namespace CheckedNames

variable {st st' : CheckedNames} {e : CatalogRecord} {id now : ℕ}

/-- An entry of a directory: it says so, and the inode it names is one. -/
def IsDirectory (st : CheckedNames) (e : CatalogRecord) : Prop :=
  e.directoryFlag = true ∧ ∃ b, st.body e.inodeId = some b ∧ b.fileType = kFileTypeDirectory

/-- The chain of parent directories of an entry leads to the root. -/
def LedToRoot (st : CheckedNames) : CatalogRecord → Prop :=
  Led CatalogRecord.parentId CatalogRecord.inodeId
    (fun d ↦ d ∈ st.catalog.records ∧ st.IsDirectory d) (· = rootInodeId)

/-- What a repair keeps of the inodes, and what it makes of the names. -/
structure NamesKept (st st' : CheckedNames) : Prop where
  inodes : ∀ id b, st.body id = some b → ∃ b', st'.body id = some b' ∧
    b'.fileType = b.fileType ∧ b'.fileSize = b.fileSize ∧ b'.extents = b.extents
  named : ∀ id, st'.body id ≠ none → id ≠ rootInodeId →
    ∃ e ∈ st'.catalog.records, e.inodeId = id ∧ st'.LedToRoot e
  entries : ∀ e ∈ st'.catalog.records, st'.body e.inodeId ≠ none

/-- Moreover a second run of the phase finds nothing. -/
structure NothingLost (st st' : CheckedNames) : Prop extends NamesKept st st' where
  second : ∀ answers now, (st'.crossReferences answers now).1 = CrossReport.clean

/-- An entry that stays and leads on to the entries below its inode. -/
def Links (st : CheckedNames) (e : CatalogRecord) : Prop := st.Kept e ∧ st.IsDirectory e

/-- An inode below which the repair leads to the root: the root, a directory that is linked below
`lost+found`, and a new `lost+found` itself. -/
def Top (st : CheckedNames) (id : ℕ) : Prop :=
  id = rootInodeId ∨ (st.Moved id ∧ ∃ b, st.body id = some b ∧ b.fileType = kFileTypeDirectory) ∨
    st.Created ∧ id = st.lostFoundId

/-- What the names of a volume need for their repair to lose nothing. -/
structure Linkable (st : CheckedNames) : Prop where
  /-- Without entries there is no inode to link. -/
  catalog : st.catalog.records = [] → ∀ id, st.body id ≠ none → id = rootInodeId
  /-- Without inodes there is no entry to delete. -/
  inodes : (∀ id, st.body id = none) → st.catalog.records = []
  /-- A new `lost+found` takes an id that is free, or the one of an empty directory. -/
  fresh : st.Created → ∀ b, st.body st.lostFoundId = some b →
    b.fileType = kFileTypeDirectory ∧ b.fileSize = 0 ∧ b.extents = noExtents
  /-- The directory of an orphan is new, or the root, or led to the root by directories. -/
  home : ∀ id, st.Moved id → st.Created ∨ st.lostFoundId = rootInodeId ∨
    Led.Leads CatalogRecord.parentId CatalogRecord.inodeId st.Links (· = rootInodeId) st.lostFoundId
  /-- No dangling entry has the name that an orphan gets. -/
  clear : ∀ id, st.Moved id → ∀ d ∈ st.danglingRefs, catalogKey d ≠ linkKey st.lostFoundId id
  /-- An inode with a name keeps one that leads to the root, to an orphan or to `lost+found`. -/
  named : ∀ id, st.body id ≠ none → id ≠ rootInodeId → id ∉ st.orphanIds →
    ¬(st.Created ∧ id = st.lostFoundId) → ∃ e, st.Kept e ∧ e.inodeId = id ∧
        Led CatalogRecord.parentId CatalogRecord.inodeId st.Links st.Top e

/-- Moreover there is an id above those in use. -/
structure Repairable (st : CheckedNames) : Prop extends Linkable st where
  ids : ∀ id, st.body id ≠ none → id + 1 < 2 ^ 64
  next : st.Created → st.lostFoundId + 1 < 2 ^ 64

/-! ### What the phase did -/

namespace CrossChecked

variable (hchecked : CrossChecked now st st')

include hchecked

theorem isDirectory_iff (hold : ¬(st.Created ∧ e.inodeId = st.lostFoundId)) :
    st'.IsDirectory e ↔ st.IsDirectory e := by
  rw [IsDirectory, IsDirectory, hchecked.kept _ hold]

/-- Whoever names a new `lost+found` as a directory names one. -/
theorem isDirectory_made (hcreated : st.Created) (hid : e.inodeId = st.lostFoundId)
    (hflag : e.directoryFlag = true) : st'.IsDirectory e :=
  ⟨hflag, _, hid ▸ hchecked.made hcreated, rfl⟩

theorem mem_of_kept (hkept : st.Kept e) : e ∈ st'.catalog.records :=
  (hchecked.entries e).mpr (Or.inr (Or.inr hkept))

theorem mem_of_linking (hlinking : st.Linking id e) : e ∈ st'.catalog.records :=
  (hchecked.entries e).mpr (Or.inr (Or.inl ⟨id, hlinking⟩))

theorem links (hlinks : st.Links e) : e ∈ st'.catalog.records ∧ st'.IsDirectory e := by
  refine ⟨hchecked.mem_of_kept hlinks.1, ?_⟩
  by_cases hlf : st.Created ∧ e.inodeId = st.lostFoundId
  · exact hchecked.isDirectory_made hlf.1 hlf.2 hlinks.2.1
  · exact (hchecked.isDirectory_iff hlf).mpr hlinks.2

theorem body_ne_none (hid : st.body id ≠ none) : st'.body id ≠ none := by
  by_cases hlf : st.Created ∧ id = st.lostFoundId
  · rw [hlf.2, hchecked.made hlf.1]
    exact Option.some_ne_none _
  · rwa [hchecked.kept id hlf]

/-- An entry that names an orphan afterwards was made for it. -/
theorem linking_of_moved (hst : st.WellFormed) (hmoved : st.Moved id)
    (he : e ∈ st'.catalog.records) (hnames : e.inodeId = id) : st.Linking id e := by
  rcases (hchecked.entries e).mp he with ⟨-, rfl⟩ | ⟨id', hlinking⟩ | hkept
  · exact absurd hnames.symm hmoved.2
  · obtain ⟨b, -, rfl⟩ := hlinking.entry
    obtain rfl : id' = id := hnames
    exact hlinking
  · obtain ⟨-, -, -, hnot⟩ := hst.mem_orphanIds.mp hmoved.1
    exact absurd hnames (hnot e hkept.entry)

end CrossChecked

theorem Linking.parentId (hlinking : st.Linking id e) : e.parentId = st.lostFoundId := by
  obtain ⟨b, -, rfl⟩ := hlinking.entry
  rfl

/-! ### Necessity -/

section Necessary

variable (hst : st.WellFormed) (hchecked : CrossChecked now st st') (hnames : NamesKept st st')

include hst hchecked hnames

theorem NamesKept.linking (hmoved : st.Moved id) : ∃ e, st.Linking id e ∧ st'.LedToRoot e := by
  obtain ⟨-, hbody, hroot, -⟩ := hst.mem_orphanIds.mp hmoved.1
  obtain ⟨e, he, hid, hled⟩ := hnames.named id (hchecked.body_ne_none hbody) hroot
  exact ⟨e, hchecked.linking_of_moved hst hmoved he hid, hled⟩

theorem NamesKept.home (hmoved : st.Moved id) : st.Created ∨ st.lostFoundId = rootInodeId ∨
      Led.Leads CatalogRecord.parentId CatalogRecord.inodeId st.Links (· = rootInodeId)
        st.lostFoundId := by
  rw [or_iff_not_imp_left]
  intro hcreated
  obtain ⟨e, hlinking, hled⟩ := hnames.linking hst hchecked hmoved
  have hlinks (d : CatalogRecord) (hd : d ∈ st'.catalog.records ∧ st'.IsDirectory d) :
      st.Links d ∨ d.parentId = st.lostFoundId := by
    rcases (hchecked.entries d).mp hd.1 with ⟨h, -⟩ | ⟨id', hlinking'⟩ | hkept
    · exact absurd h hcreated
    · exact Or.inr hlinking'.parentId
    · exact Or.inl ⟨hkept, (hchecked.isDirectory_iff fun h ↦ hcreated h.1).mp hd.2⟩
  rcases hled.of_hub hlinks with hled | htop | hleads
  · cases hled with
    | top htop => exact Or.inl (hlinking.parentId ▸ htop)
    | step hlink hled hchild =>
      exact Or.inr ⟨_, hlink, hled, hchild.trans hlinking.parentId⟩
  · exact Or.inl htop
  · exact Or.inr hleads

omit hst in
theorem NamesKept.named_before (hid : st.body id ≠ none) (hroot : id ≠ rootInodeId)
    (horphan : id ∉ st.orphanIds) (hlf : ¬(st.Created ∧ id = st.lostFoundId)) :
    ∃ e, st.Kept e ∧ e.inodeId = id ∧
      Led CatalogRecord.parentId CatalogRecord.inodeId st.Links st.Top e := by
  obtain ⟨e, he, hname, hled⟩ := hnames.named id (hchecked.body_ne_none hid) hroot
  have hlinks (d : CatalogRecord) (hd : d ∈ st'.catalog.records ∧ st'.IsDirectory d) :
      st.Links d ∨ st.Top d.inodeId := by
    by_cases hmade : st.Created ∧ d.inodeId = st.lostFoundId
    · exact Or.inr (Or.inr (Or.inr hmade))
    · have hdir := (hchecked.isDirectory_iff hmade).mp hd.2
      rcases (hchecked.entries d).mp hd.1 with ⟨h, rfl⟩ | ⟨id', hlinking⟩ | hkept
      · exact absurd ⟨h, rfl⟩ hmade
      · obtain ⟨-, hdir⟩ := hdir
        obtain ⟨b, -, rfl⟩ := hlinking.entry
        exact Or.inr (Or.inr (Or.inl ⟨hlinking.moved, hdir⟩))
      · exact Or.inl ⟨hkept, hdir⟩
  refine ⟨e, ?_, hname, hled.trim hlinks fun t ht ↦ Or.inl ht⟩
  rcases (hchecked.entries e).mp he with ⟨h, rfl⟩ | ⟨id', hlinking⟩ | hkept
  · exact absurd ⟨h, hname.symm⟩ hlf
  · obtain ⟨b, -, rfl⟩ := hlinking.entry
    exact absurd (hname ▸ hlinking.moved.1) horphan
  · exact hkept

theorem NamesKept.linkable : st.Linkable where
  catalog := fun hempty id hid ↦ by
    by_contra hroot
    have horphan (id : ℕ) : id ∉ st.orphanIds := fun h ↦ (hst.mem_orphanIds.mp h).1 hempty
    have hlf : ¬(st.Created ∧ id = st.lostFoundId) := fun h ↦
      h.1.1 (List.eq_nil_iff_forall_not_mem.mpr horphan)
    obtain ⟨e, hkept, -⟩ := hnames.named_before hchecked hid hroot (horphan id) hlf
    exact List.not_mem_nil (hempty ▸ hkept.entry)
  inodes := fun hnone ↦ by
    have horphan (id : ℕ) : id ∉ st.orphanIds := fun h ↦ (hst.mem_orphanIds.mp h).2.1 (hnone id)
    have hcreated : ¬st.Created := fun h ↦ h.1 (List.eq_nil_iff_forall_not_mem.mpr horphan)
    refine List.eq_nil_iff_forall_not_mem.mpr fun e he ↦ ?_
    have hlive : e ∉ st.danglingRefs := fun h ↦
      have ⟨_, _, id, hid⟩ := hst.mem_danglingRefs.mp h
      hid (hnone id)
    have hkept : st.Kept e := ⟨he, hlive, fun id h ↦ absurd h.1 (horphan id)⟩
    have hbody := hnames.entries e (hchecked.mem_of_kept hkept)
    rw [hchecked.kept _ fun h ↦ hcreated h.1] at hbody
    exact hbody (hnone _)
  fresh := fun hcreated b hb ↦ by
    obtain ⟨b', hb', htype, hsize, hextents⟩ := hnames.inodes _ b hb
    rw [hchecked.made hcreated] at hb'
    obtain rfl := Option.some.inj hb'
    exact ⟨htype.symm, hsize.symm, hextents.symm⟩
  home := fun id hmoved ↦ hnames.home hst hchecked hmoved
  clear := fun id hmoved ↦ by
    obtain ⟨e, hlinking, -⟩ := hnames.linking hst hchecked hmoved
    exact hlinking.clear
  named := fun id hid hroot horphan hlf ↦ hnames.named_before hchecked hid hroot horphan hlf

end Necessary

/-! ### Sufficiency -/

section Sufficient

variable (hst : st.WellFormed) (hchecked : CrossChecked now st st') (hlinkable : st.Linkable)

include hchecked

theorem CrossChecked.ledToRoot (hled : Led CatalogRecord.parentId CatalogRecord.inodeId st.Links
    (· = rootInodeId) e) : st'.LedToRoot e :=
  hled.graft (fun _ hlinks ↦ hchecked.links hlinks) fun _ htop ↦ Or.inl htop

theorem CrossChecked.created_mem (hcreated : st.Created) :
    lostFoundEntry st.lostFoundId ∈ st'.catalog.records ∧
      st'.IsDirectory (lostFoundEntry st.lostFoundId) ∧
      st'.LedToRoot (lostFoundEntry st.lostFoundId) :=
  ⟨(hchecked.entries _).mpr (Or.inl ⟨hcreated, rfl⟩),
    hchecked.isDirectory_made hcreated rfl rfl, Led.top rfl⟩

include hlinkable

/-- An entry below the directory for orphans is led to the root. -/
theorem Linkable.led_home (hmoved : st.Moved id) (hparent : e.parentId = st.lostFoundId) :
    st'.LedToRoot e := by
  rcases hlinkable.home id hmoved with hcreated | hroot | ⟨d, hlinks, hled, hchild⟩
  · obtain ⟨hmem, hdir, hled⟩ := hchecked.created_mem hcreated
    exact Led.step ⟨hmem, hdir⟩ hled hparent.symm
  · exact Led.top (hparent.trans hroot)
  · exact Led.step (hchecked.links hlinks) (hchecked.ledToRoot hled) (hchild.trans hparent.symm)

theorem Linkable.linked (hmoved : st.Moved id) {b : InodeFields} (hbody : st.body id = some b) :
    linkEntry st.lostFoundId id b ∈ st'.catalog.records ∧
      st'.LedToRoot (linkEntry st.lostFoundId id b) :=
  ⟨hchecked.mem_of_linking ⟨hmoved, ⟨b, hbody, rfl⟩, hlinkable.clear id hmoved⟩,
    hlinkable.led_home hchecked hmoved rfl⟩

theorem Linkable.led_top
    (hled : Led CatalogRecord.parentId CatalogRecord.inodeId st.Links st.Top e) :
    st'.LedToRoot e := by
  refine hled.graft (fun _ hlinks ↦ hchecked.links hlinks) fun t htop ↦ ?_
  rcases htop with hroot | ⟨hmoved, b, hbody, hdir⟩ | ⟨hcreated, rfl⟩
  · exact Or.inl hroot
  · obtain ⟨hmem, hled'⟩ := hlinkable.linked hchecked hmoved hbody
    have hold : ¬(st.Created ∧ t = st.lostFoundId) := fun h ↦ hmoved.2 h.2
    have hdir' : st'.IsDirectory (linkEntry st.lostFoundId t b) :=
      ⟨decide_eq_true hdir, b, (hchecked.kept t hold).trans hbody, hdir⟩
    exact Or.inr ⟨_, ⟨hmem, hdir'⟩, hled', rfl⟩
  · obtain ⟨hmem, hdir, hled'⟩ := hchecked.created_mem hcreated
    exact Or.inr ⟨_, ⟨hmem, hdir⟩, hled', rfl⟩

include hst

theorem Linkable.named_after (hid : st'.body id ≠ none) (hroot : id ≠ rootInodeId) :
    ∃ e ∈ st'.catalog.records, e.inodeId = id ∧ st'.LedToRoot e := by
  by_cases hlf : st.Created ∧ id = st.lostFoundId
  · obtain ⟨hmem, -, hled⟩ := hchecked.created_mem hlf.1
    exact ⟨_, hmem, hlf.2.symm, hled⟩
  · rw [hchecked.kept id hlf] at hid
    by_cases horphan : id ∈ st.orphanIds
    · -- An orphan has no name, so it is not what an old `lost+found` names.
      have hmoved : st.Moved id := by
        refine ⟨horphan, fun heq ↦ ?_⟩
        cases hlookup : st.catalogLookup lostFoundKey with
        | none => exact hlf ⟨⟨List.ne_nil_of_mem horphan, hlookup⟩, heq⟩
        | some entry =>
          obtain ⟨-, -, -, hnot⟩ := hst.mem_orphanIds.mp horphan
          rw [lostFoundId, hlookup] at heq
          exact hnot entry ((Root.mem_lookup hst.catalog).mp hlookup).1 heq.symm
      obtain ⟨b, hbody⟩ := Option.ne_none_iff_exists'.mp hid
      obtain ⟨hmem, hled⟩ := hlinkable.linked hchecked hmoved hbody
      exact ⟨_, hmem, rfl, hled⟩
    · obtain ⟨e, hkept, hname, hled⟩ := hlinkable.named id hid hroot horphan hlf
      exact ⟨e, hchecked.mem_of_kept hkept, hname, hlinkable.led_top hchecked hled⟩

theorem Linkable.entries_after (he : e ∈ st'.catalog.records) : st'.body e.inodeId ≠ none := by
  rcases (hchecked.entries e).mp he with ⟨hcreated, rfl⟩ | ⟨id, hlinking⟩ | hkept
  · obtain ⟨-, ⟨-, b, hbody, -⟩, -⟩ := hchecked.created_mem hcreated
    rw [hbody]
    exact Option.some_ne_none b
  · obtain ⟨b, hbody, rfl⟩ := hlinking.entry
    exact hchecked.body_ne_none (hst.body_orphan hlinking.moved.1)
  · refine hchecked.body_ne_none fun hnone ↦ ?_
    by_cases hinodes : ∀ id, st.body id = none
    · exact List.not_mem_nil (hlinkable.inodes hinodes ▸ hkept.entry)
    · obtain ⟨id, hid⟩ := not_forall.mp hinodes
      exact hkept.live (hst.mem_danglingRefs.mpr ⟨hkept.entry, hnone, id, hid⟩)

theorem Linkable.namesKept : NamesKept st st' where
  inodes := fun id b hb ↦ by
    by_cases hlf : st.Created ∧ id = st.lostFoundId
    · obtain ⟨hcreated, rfl⟩ := hlf
      obtain ⟨htype, hsize, hextents⟩ := hlinkable.fresh hcreated b hb
      exact ⟨_, hchecked.made hcreated, htype.symm, hsize.symm, hextents.symm⟩
    · exact ⟨b, (hchecked.kept id hlf).trans hb, rfl, rfl, rfl⟩
  named := fun _ hid hroot ↦ hlinkable.named_after hst hchecked hid hroot
  entries := fun _ he ↦ hlinkable.entries_after hst hchecked he

end Sufficient

/-! ### The phase -/

/-- Names that are kept leave no orphan and no dangling entry. -/
theorem NamesKept.clean (hst' : st'.WellFormed) (hnames : NamesKept st st') :
    st'.orphanIds = [] ∧ st'.danglingRefs = [] := by
  constructor
  · refine List.eq_nil_iff_forall_not_mem.mpr fun id hid ↦ ?_
    obtain ⟨-, hbody, hroot, hnot⟩ := hst'.mem_orphanIds.mp hid
    obtain ⟨e, he, hname, -⟩ := hnames.named id hbody hroot
    exact hnot e he hname
  · refine List.eq_nil_iff_forall_not_mem.mpr fun e he ↦ ?_
    obtain ⟨hmem, hnone, -⟩ := hst'.mem_danglingRefs.mp he
    exact hnames.entries e hmem hnone

/-- What is kept is a matter of the entries and of the inode records. -/
theorem NamesKept.congr {st'' : CheckedNames} (hbody : st''.body = st'.body)
    (hcatalog : st''.catalog = st'.catalog) : NamesKept st st'' ↔ NamesKept st st' := by
  have hled : st''.LedToRoot = st'.LedToRoot := by
    simp only [LedToRoot, IsDirectory, hbody, hcatalog]
  constructor
  · rintro ⟨hinodes, hnamed, hentries⟩
    rw [hbody, hcatalog] at *
    exact ⟨hinodes, hled ▸ hnamed, hentries⟩
  · rintro ⟨hinodes, hnamed, hentries⟩
    exact ⟨hbody ▸ hinodes, by rwa [hbody, hcatalog, hled], by rwa [hbody, hcatalog]⟩

/-- Over every volume whose trees are well formed, with all repairs done: the phase loses nothing
exactly when the volume before it is one that it can repair. -/
theorem cross_references_keep (hst : st.WellFormed) (hfits : st.PhaseFits now) :
    NothingLost st (st.crossReferences allRepairs now).2 ↔ st.Repairable := by
  have hchecked := hst.crossCheck hfits
  rw [crossReferences_eq]
  generalize st.crossCheckInodesCatalog allRepairs now = run at hchecked ⊢
  obtain ⟨report, st₁⟩ := run
  obtain ⟨hwf, hbody, hcatalog, hnext⟩ := hchecked.wellFormed.validate report
  dsimp only at hchecked hbody hnext ⊢
  have hsecond (hnames : NamesKept st (st₁.validateNextInodeId allRepairs report).2)
      (answers : CrossAnswers) (now : ℕ) :
      ((st₁.validateNextInodeId allRepairs report).2.crossReferences answers now).1 =
          CrossReport.clean ↔
        ∀ id, st₁.body id ≠ none →
          id < (st₁.validateNextInodeId allRepairs report).2.nextInodeId := by
    obtain ⟨horphans, hdangling⟩ := hnames.clean hwf
    rw [crossReferences_eq, crossCheck_clean horphans hdangling, hwf.validate_report _ _ rfl, hbody]
  constructor
  · intro hlost
    have hnames := hlost.toNamesKept
    have hlinkable := ((NamesKept.congr hbody hcatalog).mp hnames).linkable hst hchecked
    have habove := (hsecond hnames allRepairs now).mp (hlost.second allRepairs now)
    refine ⟨hlinkable, fun id hid ↦ ?_, fun hcreated ↦ ?_⟩
    · exact (Nat.succ_le_of_lt (habove id (hchecked.body_ne_none hid))).trans_lt hwf.next
    · refine (Nat.succ_le_of_lt (habove st.lostFoundId ?_)).trans_lt hwf.next
      rw [hchecked.made hcreated]
      exact Option.some_ne_none _
  · intro hrepairable
    have hnames := (NamesKept.congr hbody hcatalog).mpr
      (hrepairable.toLinkable.namesKept hst hchecked)
    refine ⟨hnames, fun answers now ↦ (hsecond hnames answers now).mpr (hnext fun id hid ↦ ?_)⟩
    by_cases hlf : st.Created ∧ id = st.lostFoundId
    · rw [hlf.2]
      exact hrepairable.next hlf.1
    · rw [hchecked.kept id hlf] at hid
      exact hrepairable.ids id hid

/-- A file `f` of five bytes in the root, and another file without a name. -/
def orphaned (nextInodeId : ℕ) : CheckedNames where
  blockSize := 4096
  catalog := .node 0 ((), [rootRecord, ⟨3, rootInodeId, false, [102]⟩])
  inodes := .node 0 ((), [lostFoundInode 0 rootInodeId, ⟨3, 1, fiveBytes⟩, ⟨4, 0, fiveBytes⟩])
  nextInodeId := nextInodeId
where
  fiveBytes : InodeFields :=
    { (lostFoundInode 0 0).body with fileSize := 5, extents := [⟨9, 1, 1⟩], fileType := 0 }

theorem orphaned_wellFormed {nextInodeId : ℕ} (hnext : nextInodeId < 2 ^ 64) :
    (orphaned nextInodeId).WellFormed where
  catalogFits := catalogTable.fits_of_sizes (show 614 ≤ 4096 by decide) (show 4096 ≤ 2 ^ 16 by decide)
    (by decide) (by decide)
  inodesFit := checkedInodeTable.fits_of_sizes (show 614 ≤ 4096 by decide)
    (show 4096 ≤ 2 ^ 16 by decide) (by decide) (by decide)
  catalog := show List.Pairwise _ _ by decide
  inodes := show List.Pairwise _ _ by decide
  ids := show ∀ inode ∈ [lostFoundInode 0 rootInodeId, ⟨3, 1, orphaned.fiveBytes⟩,
    ⟨4, 0, orphaned.fiveBytes⟩], inode.inodeId < 2 ^ 64 by decide
  next := hnext

theorem orphaned_repairable : (orphaned 5).Repairable := by
  have hst : (orphaned 5).WellFormed := orphaned_wellFormed (by decide)
  have hids (id : ℕ) (hid : (orphaned 5).body id ≠ none) : id = 2 ∨ id = 3 ∨ id = 4 := by
    obtain ⟨inode, hinode, rfl⟩ := hst.body_ne_none.mp hid
    revert inode
    decide
  have hcreated : (orphaned 5).Created := ⟨by decide, by rfl⟩
  have hdangling : (orphaned 5).danglingRefs = [] := by decide
  refine ⟨⟨fun h ↦ ?_, fun h ↦ ?_, fun _ b hb ↦ ?_, fun _ _ ↦ Or.inl hcreated, fun _ _ d hd ↦ ?_,
    fun id hid hroot horphan _ ↦ ?_⟩, fun id hid ↦ ?_, fun _ ↦ by decide⟩
  · cases h
  · cases h 2
  · cases hb
  · rw [hdangling] at hd
    cases hd
  · rcases hids id hid with rfl | rfl | rfl
    · exact absurd rfl hroot
    · have hmoved (id : ℕ) (h : (orphaned 5).Moved id) : id = 4 := by
        have horphans : (orphaned 5).orphanIds = [4] := by decide
        exact List.mem_singleton.mp (horphans ▸ h.1)
      refine ⟨⟨3, rootInodeId, false, [102]⟩, ⟨by decide, by decide, fun id h ↦ ?_⟩, rfl,
        Led.top (Or.inl rfl)⟩
      obtain rfl := hmoved id h
      decide
    · exact absurd (by decide) horphan
  · rcases hids id hid with rfl | rfl | rfl <;> decide

/-- The orphan is linked below a new `lost+found`. -/
theorem cross_references_keep_one :
    NothingLost (orphaned 5) ((orphaned 5).crossReferences allRepairs 0).2 := by
  have hfits : (orphaned 5).PhaseFits 0 :=
    ⟨fun _ ↦ ⟨NameTable.accepts_leaf _, NameTable.accepts_leaf _⟩,
      fun _ ↦ ⟨fun _ _ ↦ ⟨NameTable.accepts_leaf _, fun _ ↦ NameTable.accepts_leaf _⟩, trivial⟩,
      trivial⟩
  exact (cross_references_keep (orphaned_wellFormed (by decide)) hfits).mpr orphaned_repairable

/-- The next id is one that is in use. -/
theorem cross_references_lose : (orphaned 3).WellFormed ∧ (orphaned 3).PhaseFits 0 ∧
      ¬NothingLost (orphaned 3) ((orphaned 3).crossReferences allRepairs 0).2 := by
  have hfits : (orphaned 3).PhaseFits 0 :=
    ⟨fun _ ↦ ⟨NameTable.accepts_leaf _, NameTable.accepts_leaf _⟩,
      fun _ ↦ ⟨fun _ _ ↦ ⟨NameTable.accepts_leaf _, fun _ ↦ NameTable.accepts_leaf _⟩, trivial⟩,
      trivial⟩
  refine ⟨orphaned_wellFormed (by decide), hfits, fun hlost ↦ ?_⟩
  obtain ⟨b, hb, htype, -⟩ := hlost.inodes 3 orphaned.fiveBytes rfl
  have hafter : ((orphaned 3).crossReferences allRepairs 0).2.body 3 =
    some (lostFoundInode 0 3).body := by rfl
  obtain rfl := Option.some.inj (hb.symm.trans hafter)
  exact absurd htype (by decide)

end CheckedNames

end Obmafs3
