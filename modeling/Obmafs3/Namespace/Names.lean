import Obmafs3.Namespace.Paths

/-!
# The names of a volume

What is left of the two search trees when only their records count: the list of the catalog records
and the inode that each id has. The callbacks make four changes to it, and combine them into a new
name, a removed one, a moved one and two exchanged ones. Each of these keeps `Names.Sound`, the
invariant of a namespace, and does to the mapping from paths to inodes what the operation of that
name does to a tree of names.
-/

set_option autoImplicit false

namespace Obmafs3

open Library.NameTree Library.SearchTree
open Function (update update_of_ne update_self)

/-- The records of the catalog and the stored inodes. -/
structure Names where
  catalog : List CatalogRecord
  inodes : ℕ → Option (InodeEntry FileType)
  nextInodeId : ℕ

/-- The entry of the root directory, in itself. -/
def rootRecord : CatalogRecord := ⟨rootInodeId, rootInodeId, true, [47]⟩

namespace Names

def find (s : Names) (key : CatalogKey) : Option CatalogRecord :=
  s.catalog.find? (catalogKey · = key)

def entries (s : Names) : Entries ℕ Component := fun d c ↦
  (s.find (toLex (d, c.bytes))).map CatalogRecord.target

def mapping (s : Names) : Mapping ℕ Component := resolve s.entries rootInodeId

def targets (s : Names) : List (ℕ × Bool) := s.catalog.map CatalogRecord.target

def refCounts (s : Names) (inodeId : ℕ) : Option ℕ :=
  (s.inodes inodeId).map InodeEntry.refCount

/-! ### Changes -/

/-- A record enters the catalog. -/
def enter (record : CatalogRecord) (s : Names) : Names :=
  { s with catalog := upsert catalogKey record s.catalog }

/-- A record leaves the catalog. -/
def leave (key : CatalogKey) (s : Names) : Names :=
  { s with catalog := withoutKey key s.catalog }

/-- An inode is stored. -/
def store (inode : InodeEntry FileType) (s : Names) : Names :=
  { s with inodes := Function.update s.inodes inode.inodeId (some inode) }

/-- An inode is deleted. -/
def discard (inodeId : ℕ) (s : Names) : Names :=
  { s with inodes := Function.update s.inodes inodeId none }

/-- One name less for an inode. -/
def dropLink (inodeId : ℕ) (s : Names) : Names :=
  match s.inodes inodeId with
  | none => s
  | some inode =>
    if 1 < inode.refCount then s.store { inode with refCount := inode.refCount - 1 }
    else s.discard inodeId

/-- A new inode with its first name. -/
def add (fileType : FileType) (key : CatalogKey) (s : Names) : Names :=
  { (s.store ⟨s.nextInodeId, 1, fileType⟩).enter
      (Mounted.newRecord s.nextInodeId key (fileType = .directory)) with
    nextInodeId := s.nextInodeId + 1 }

/-- One more name for an inode. -/
def link (inode : InodeEntry FileType) (key : CatalogKey) (s : Names) : Names :=
  (s.store { inode with refCount := inode.refCount + 1 }).enter
    (Mounted.newRecord inode.inodeId key false)

/-- A name goes, and its inode with the last one. -/
def drop (entry : CatalogRecord) (key : CatalogKey) (s : Names) : Names :=
  (s.leave key).dropLink entry.inodeId

/-- A name moves to another key. -/
def move (src : CatalogRecord) (oldKey newKey : CatalogKey) (s : Names) : Names :=
  (s.leave oldKey).enter (Mounted.newRecord src.inodeId newKey src.directoryFlag)

/-- Two names change places. -/
def exchange (src dst : CatalogRecord) (oldKey newKey : CatalogKey) (s : Names) : Names :=
  (((s.leave oldKey).leave newKey).enter
    (Mounted.newRecord dst.inodeId oldKey dst.directoryFlag)).enter
    (Mounted.newRecord src.inodeId newKey src.directoryFlag)

/-! ### What they change -/

variable {s : Names} {key other : CatalogKey} {record entry : CatalogRecord}

theorem find_enter (record : CatalogRecord) (key : CatalogKey) :
    (s.enter record).find key = if catalogKey record = key then some record else s.find key := by
  have hfind := @find?_upsert _ _ _ catalogKey record s.catalog key
  unfold find enter
  -- The two sides decide equality of keys by different instances.
  convert hfind

theorem find_leave (key other : CatalogKey) :
    (s.leave key).find other = if key = other then none else s.find other :=
  Mounted.find?_withoutKey key other s.catalog

theorem mem_of_find (hfind : s.find key = some entry) :
    entry ∈ s.catalog ∧ catalogKey entry = key :=
  ⟨List.mem_of_find?_eq_some hfind, by simpa using List.find?_some hfind⟩

theorem mem_enter_of_ne (hmem : entry ∈ s.catalog) (hne : catalogKey entry ≠ catalogKey record) :
    entry ∈ (s.enter record).catalog := by
  rcases lt_or_gt_of_ne hne with hlt | hgt
  · exact List.mem_append_left _ (List.mem_filter.mpr ⟨hmem, by simpa using hlt⟩)
  · exact List.mem_append_right _
      (List.mem_cons_of_mem _ (List.mem_filter.mpr ⟨hmem, by simpa using hgt⟩))

theorem mem_enter (hmem : entry ∈ (s.enter record).catalog) :
    entry = record ∨ entry ∈ s.catalog := mem_of_mem_upsert hmem

theorem mem_leave : entry ∈ (s.leave key).catalog ↔ entry ∈ s.catalog ∧ catalogKey entry ≠ key :=
  Mounted.mem_withoutKey

@[simp] theorem leave_inodes (key : CatalogKey) (s : Names) : (s.leave key).inodes = s.inodes := rfl

@[simp] theorem store_inodes (inode : InodeEntry FileType) (s : Names) :
    (s.store inode).inodes = update s.inodes inode.inodeId (some inode) := rfl

@[simp] theorem discard_inodes (inodeId : ℕ) (s : Names) :
    (s.discard inodeId).inodes = update s.inodes inodeId none := rfl

theorem refCounts_store (inode : InodeEntry FileType) (s : Names) : (s.store inode).refCounts =
      update s.refCounts inode.inodeId (some inode.refCount) :=
  Function.comp_update (Option.map InodeEntry.refCount) s.inodes inode.inodeId (some inode)

theorem refCounts_discard (inodeId : ℕ) (s : Names) :
    (s.discard inodeId).refCounts = update s.refCounts inodeId none :=
  Function.comp_update (Option.map InodeEntry.refCount) s.inodes inodeId none

theorem dropLink_catalog (inodeId : ℕ) (s : Names) : (s.dropLink inodeId).catalog = s.catalog := by
  unfold dropLink
  cases s.inodes inodeId with
  | none => rfl
  | some inode =>
    simp only
    split_ifs <;> rfl

theorem dropLink_nextInodeId (inodeId : ℕ) (s : Names) :
    (s.dropLink inodeId).nextInodeId = s.nextInodeId := by
  unfold dropLink
  cases s.inodes inodeId with
  | none => rfl
  | some inode =>
    simp only
    split_ifs <;> rfl

/-- The catalog and the inodes change apart from each other. -/
theorem drop_eq (entry : CatalogRecord) (key : CatalogKey) (s : Names) :
    s.drop entry key = (s.dropLink entry.inodeId).leave key := by
  unfold drop dropLink
  rw [leave_inodes]
  cases s.inodes entry.inodeId with
  | none => rfl
  | some inode =>
    simp only
    split_ifs <;> rfl

theorem find_drop (entry : CatalogRecord) (key other : CatalogKey) :
    (s.drop entry key).find other = if key = other then none else s.find other := by
  rw [find, drop, dropLink_catalog]
  exact find_leave key other

theorem key_ne {d e : ℕ} {x y : Component} (hne : (d, x) ≠ (e, y)) :
    toLex (e, y.bytes) ≠ toLex (d, x.bytes) := by
  intro heq
  obtain ⟨rfl, hbytes⟩ := Prod.mk.inj (toLex.injective heq)
  exact hne (Component.bytes_injective hbytes ▸ rfl)

/-- A change of the records with two keys shows in two entries. -/
theorem entries_congr (s t : Names) {a b : ℕ} {m n : Component}
    (hsame : ∀ other, toLex (a, m.bytes) ≠ other → toLex (b, n.bytes) ≠ other →
      t.find other = s.find other) (d : ℕ) (x : Component) (hold : (d, x) ≠ (a, m))
    (hnew : (d, x) ≠ (b, n)) : t.entries d x = s.entries d x :=
  congrArg (Option.map CatalogRecord.target) (hsame _ (key_ne hold) (key_ne hnew))

/-! ### The invariant -/

/-- The invariant of a namespace. Every inode counts its names and has one, the type of an inode is
that of its names, and every directory with entries is reached from the root. -/
structure Sound (s : Names) : Prop where
  sorted : (s.catalog.map catalogKey).Pairwise (· < ·)
  ids : ∀ inodeId inode, s.inodes inodeId = some inode →
    inode.inodeId = inodeId ∧ inodeId < s.nextInodeId ∧ 0 < inode.refCount
  counted : Counted s.targets s.refCounts
  typed : ∀ r ∈ s.catalog, ∀ inode, s.inodes r.inodeId = some inode →
    decide (inode.body = .directory) = r.directoryFlag
  root : rootRecord ∈ s.catalog
  spelled : ∀ r ∈ s.catalog, r ≠ rootRecord →
    ∃ c : Component, r.name = c.bytes ∧ c.bytes.length ≤ 255
  reached : Reached s.entries rootInodeId

/-- The key of a component is not that of the root. -/
theorem key_ne_root (d : ℕ) (c : Component) : toLex (d, c.bytes) ≠ catalogKey rootRecord := by
  intro heq
  have hbytes : c.bytes = [47] := (Prod.mk.inj (toLex.injective heq)).2
  exact c.slash_not_mem (hbytes ▸ List.mem_singleton_self 47)

namespace Sound

variable (hsound : s.Sound)
include hsound

/-- A name leads to a stored inode. -/
theorem named {r : CatalogRecord} (hr : r ∈ s.catalog) :
    ∃ inode, s.inodes r.inodeId = some inode ∧ inode.inodeId = r.inodeId ∧
      r.inodeId < s.nextInodeId ∧ 0 < inode.refCount := by
  have hcount := hsound.counted.named r.target (List.mem_map_of_mem hr)
  obtain ⟨c, hc⟩ := Option.ne_none_iff_exists'.mp hcount
  obtain ⟨inode, hinode, -⟩ := Option.map_eq_some_iff.mp hc
  exact ⟨inode, hinode, hsound.ids _ inode hinode⟩

/-- The one entry of a directory. -/
theorem eq_of_directory {r q : CatalogRecord} (hr : r ∈ s.catalog) (hq : q ∈ s.catalog)
    (hdir : r.directoryFlag = true) (hsame : q.inodeId = r.inodeId) : q = r := by
  have hone := hsound.counted.single r.target (List.mem_map_of_mem hr) hdir
  rw [links, targets, List.countP_map, List.countP_eq_length_filter] at hone
  obtain ⟨x, hx⟩ := List.length_eq_one_iff.mp hone
  have hall (e : CatalogRecord) (he : e ∈ s.catalog) (hid : e.inodeId = r.inodeId) : e = x := by
    refine List.mem_singleton.mp (hx ▸ List.mem_filter.mpr ⟨he, ?_⟩)
    exact decide_eq_true hid
  rw [hall q hq hsame, hall r hr rfl]

theorem single : Single s.entries rootInodeId where
  once := by
    intro d d' n n' c hentry hentry'
    obtain ⟨r, hr, htarget⟩ := Option.map_eq_some_iff.mp hentry
    obtain ⟨r', hr', htarget'⟩ := Option.map_eq_some_iff.mp hentry'
    obtain ⟨hmem, hkey⟩ := mem_of_find hr
    obtain ⟨hmem', hkey'⟩ := mem_of_find hr'
    obtain ⟨hid, hdir⟩ := Prod.mk.inj htarget
    obtain ⟨hid', -⟩ := Prod.mk.inj htarget'
    have heq := hsound.eq_of_directory hmem hmem' hdir (hid'.trans hid.symm)
    have hkeys := toLex.injective (hkey.symm.trans ((congrArg catalogKey heq.symm).trans hkey'))
    exact ⟨(Prod.mk.inj hkeys).1, Component.bytes_injective (Prod.mk.inj hkeys).2⟩
  unnamed := by
    intro d n hentry
    obtain ⟨r, hr, htarget⟩ := Option.map_eq_some_iff.mp hentry
    obtain ⟨hmem, hkey⟩ := mem_of_find hr
    obtain ⟨hid, hdir⟩ := Prod.mk.inj htarget
    have heq := hsound.eq_of_directory hmem hsound.root hdir hid.symm
    exact key_ne_root d n (hkey.symm.trans (congrArg catalogKey heq.symm))

/-- Whatever a path leads to has an id that was given out before. -/
theorem lt_of_mapping {p : List Component} {t : ℕ × Bool} (ht : s.mapping p = some t) :
    t.1 < s.nextInodeId := by
  rcases List.eq_nil_or_concat' p with rfl | ⟨p, n, rfl⟩
  · obtain rfl := Option.some.inj ht
    obtain ⟨-, -, -, hlt, -⟩ := hsound.named hsound.root
    exact hlt
  · rw [mapping, resolve_append] at ht
    obtain ⟨d, -, hentry⟩ := follow_eq_some.mp ht
    obtain ⟨r, hr, rfl⟩ := Option.map_eq_some_iff.mp hentry
    obtain ⟨-, -, -, hlt, -⟩ := hsound.named (mem_of_find hr).1
    exact hlt

theorem name_length {b : ℕ} {c : Component} (hfind : s.find (toLex (b, c.bytes)) = some entry) :
    c.bytes.length ≤ 255 := by
  obtain ⟨hmem, hkey⟩ := mem_of_find hfind
  have hname : entry.name = c.bytes := (Prod.mk.inj (toLex.injective hkey)).2
  have hne : entry ≠ rootRecord := by
    rintro rfl
    exact key_ne_root b c hkey.symm
  obtain ⟨c', hc', hlen⟩ := hsound.spelled entry hmem hne
  rw [← hname, hc']
  exact hlen

end Sound

/-- The inodes of a change are old ones, up to their link counts. -/
def KeepsBodies (s t : Names) : Prop :=
  ∀ x stored, t.inodes x = some stored → ∃ old, s.inodes x = some old ∧ old.body = stored.body

theorem keepsBodies_store {inodeId : ℕ} {inode : InodeEntry FileType}
    (hinode : s.inodes inodeId = some inode) (hid : inode.inodeId = inodeId) (refCount : ℕ) :
    s.KeepsBodies (s.store { inode with refCount := refCount }) := by
  intro x stored hstored
  rw [store_inodes] at hstored
  rcases eq_or_ne x inode.inodeId with rfl | hne
  · rw [update_self] at hstored
    obtain rfl := Option.some.inj hstored
    exact ⟨inode, hid ▸ hinode, rfl⟩
  · rw [update_of_ne hne] at hstored
    exact ⟨stored, hstored, rfl⟩

theorem keepsBodies_discard (s : Names) (inodeId : ℕ) : s.KeepsBodies (s.discard inodeId) := by
  intro x stored hstored
  rw [discard_inodes] at hstored
  rcases eq_or_ne x inodeId with rfl | hne
  · rw [update_self] at hstored
    cases hstored
  · rw [update_of_ne hne] at hstored
    exact ⟨stored, hstored, rfl⟩

theorem Sound.typed_of_keeps (hsound : s.Sound) {t : Names} (hkeeps : s.KeepsBodies t)
    {r : CatalogRecord} (hr : r ∈ s.catalog) {stored : InodeEntry FileType}
    (hstored : t.inodes r.inodeId = some stored) :
    decide (stored.body = .directory) = r.directoryFlag := by
  obtain ⟨old, hold, hbody⟩ := hkeeps _ _ hstored
  rw [← hbody]
  exact hsound.typed r hr old hold

theorem targets_enter (record : CatalogRecord) (hfree : s.find (catalogKey record) = none) :
    (s.enter record).targets.Perm (record.target :: s.targets) :=
  (perm_upsert hfree).map CatalogRecord.target

theorem targets_leave (hsorted : (s.catalog.map catalogKey).Pairwise (· < ·))
    (hfound : s.find key = some entry) : s.targets.Perm (entry.target :: (s.leave key).targets) :=
  (perm_withoutKey hsorted hfound).map CatalogRecord.target

/-- A record with a new name keeps all names but its own within the invariant. -/
theorem spelled_enter (hspelled : ∀ r ∈ s.catalog, r ≠ rootRecord →
      ∃ c : Component, r.name = c.bytes ∧ c.bytes.length ≤ 255) (inodeId b : ℕ) {c : Component}
    (dir : Bool) (hname : c.bytes.length ≤ 255) :
    ∀ r ∈ (s.enter (Mounted.newRecord inodeId (toLex (b, c.bytes)) dir)).catalog, r ≠ rootRecord →
      ∃ c : Component, r.name = c.bytes ∧ c.bytes.length ≤ 255 := by
  intro r hr hne
  rcases mem_enter hr with rfl | hr
  · exact ⟨c, List.take_of_length_le hname, hname⟩
  · exact hspelled r hr hne

/-! ### A new name -/

section Add

variable {dir : List Component} {b : ℕ} {c : Component}

/-- One more entry in a directory, for an object without entries. -/
theorem Sound.entered (hsound : s.Sound) {t : Names} (hdir : s.mapping dir = some (b, true))
    (hfree : s.find (toLex (b, c.bytes)) = none)
    (hfind : ∀ other, t.find other =
      if toLex (b, c.bytes) = other then some record else s.find other)
    (hbare : Library.NameTree.Bare t.entries record.target) :
    Reached t.entries rootInodeId ∧
      t.mapping = Library.NameTree.enter (dir ++ [c]) record.target s.mapping := by
  have hother := fun d x hne ↦ entries_congr s t
    (fun other hkey _ ↦ by rw [hfind, if_neg hkey]) d x hne hne
  have hold : s.entries b c = none := by rw [entries, hfree]; rfl
  have hnew : t.entries b c = some record.target := by rw [entries, hfind, if_pos rfl]; rfl
  exact ⟨hsound.reached.enter hsound.single hdir hother hold hnew hbare,
    resolve_enter hsound.single hdir hother hold hnew hbare⟩

/-- The keys of components are entered as they are. -/
theorem newRecord_key (inodeId : ℕ) (flag : Bool) (hname : c.bytes.length ≤ 255) :
    catalogKey (Mounted.newRecord inodeId (toLex (b, c.bytes)) flag) = toLex (b, c.bytes) :=
  Mounted.newRecord_key inodeId flag hname

theorem find_add (fileType : FileType) (hname : c.bytes.length ≤ 255) (other : CatalogKey) :
    (s.add fileType (toLex (b, c.bytes))).find other =
      if toLex (b, c.bytes) = other then
        some (Mounted.newRecord s.nextInodeId (toLex (b, c.bytes)) (fileType = .directory))
      else s.find other := by
  have hfind := find_enter (s := s.store ⟨s.nextInodeId, 1, fileType⟩)
    (Mounted.newRecord s.nextInodeId (toLex (b, c.bytes)) (fileType = .directory)) other
  rwa [newRecord_key _ _ hname] at hfind

/-- The entries of a new inode are empty. -/
theorem Sound.bare_add (hsound : s.Sound) (hdir : s.mapping dir = some (b, true))
    (hname : c.bytes.length ≤ 255) (fileType : FileType) :
    Library.NameTree.Bare (s.add fileType (toLex (b, c.bytes))).entries
      (s.nextInodeId, decide (fileType = .directory)) := by
  intro _ x
  have hne : toLex (b, c.bytes) ≠ toLex (s.nextInodeId, x.bytes) := by
    intro heq
    have hid := (Prod.mk.inj (toLex.injective heq)).1
    exact (hsound.lt_of_mapping hdir).ne hid
  refine Option.map_eq_none_iff.mpr ?_
  rw [find_add fileType hname, if_neg hne]
  by_contra hentry
  obtain ⟨r, hr⟩ := Option.ne_none_iff_exists'.mp hentry
  obtain ⟨p, hp⟩ := hsound.reached s.nextInodeId x r.target (by rw [entries, hr]; rfl)
  exact (hsound.lt_of_mapping hp).ne rfl

variable (hsound : s.Sound) (hdir : s.mapping dir = some (b, true))
  (hfree : s.find (toLex (b, c.bytes)) = none) (hname : c.bytes.length ≤ 255)
include hsound hdir hfree hname

/-- A new inode with its first name. -/
theorem Sound.add (fileType : FileType) : (s.add fileType (toLex (b, c.bytes))).Sound ∧
      (s.add fileType (toLex (b, c.bytes))).mapping =
        Library.NameTree.enter (dir ++ [c]) (s.nextInodeId, decide (fileType = .directory))
          s.mapping := by
  have hkey := newRecord_key (b := b) s.nextInodeId (decide (fileType = .directory)) hname
  have hfind := find_add (s := s) (b := b) fileType hname
  obtain ⟨hreached, hmapping⟩ := hsound.entered hdir hfree hfind
    (hsound.bare_add hdir hname fileType)
  have hunused : s.inodes s.nextInodeId = none := by
    by_contra hsome
    obtain ⟨inode, hinode⟩ := Option.ne_none_iff_exists'.mp hsome
    exact (hsound.ids _ _ hinode).2.1.ne rfl
  refine ⟨⟨?_, ?_, ?_, ?_, ?_, ?_, ?_⟩, ?_⟩
  · exact upsert_pairwise hsound.sorted
  · intro x inode hinode
    change update s.inodes s.nextInodeId _ x = some inode at hinode
    rcases eq_or_ne x s.nextInodeId with rfl | hne
    · rw [update_self] at hinode
      obtain rfl := Option.some.inj hinode
      exact ⟨rfl, Nat.lt_succ_self _, Nat.one_pos⟩
    · rw [update_of_ne hne] at hinode
      obtain ⟨hid, hlt, hpos⟩ := hsound.ids x inode hinode
      exact ⟨hid, hlt.trans (Nat.lt_succ_self _), hpos⟩
  · have hcounted := hsound.counted.create (n := (s.nextInodeId, decide (fileType = .directory)))
      (by rw [refCounts, hunused]; rfl)
    rw [← refCounts_store ⟨s.nextInodeId, 1, fileType⟩ s] at hcounted
    have hperm := targets_enter (s := s.store ⟨s.nextInodeId, 1, fileType⟩)
      (Mounted.newRecord s.nextInodeId (toLex (b, c.bytes)) (fileType = .directory))
      (hkey.symm ▸ hfree)
    exact hcounted.perm hperm.symm
  · intro r hr inode hinode
    change update s.inodes s.nextInodeId _ r.inodeId = some inode at hinode
    rcases mem_enter hr with rfl | hr
    · change update s.inodes s.nextInodeId _ s.nextInodeId = some inode at hinode
      rw [update_self] at hinode
      obtain rfl := Option.some.inj hinode
      rfl
    · obtain ⟨-, -, -, hlt, -⟩ := hsound.named hr
      rw [update_of_ne hlt.ne] at hinode
      exact hsound.typed r hr inode hinode
  · refine mem_enter_of_ne (s := s.store ⟨s.nextInodeId, 1, fileType⟩) hsound.root ?_
    rw [hkey]
    exact (key_ne_root b c).symm
  · exact spelled_enter (s := s.store ⟨s.nextInodeId, 1, fileType⟩) hsound.spelled _ b _ hname
  · exact hreached
  · exact hmapping

/-- One more name for a file. -/
theorem Sound.link (hentry : entry ∈ s.catalog) (hfile : entry.directoryFlag = false)
    {inode : InodeEntry FileType} (hinode : s.inodes entry.inodeId = some inode) :
    (s.link inode (toLex (b, c.bytes))).Sound ∧ (s.link inode (toLex (b, c.bytes))).mapping =
        Library.NameTree.enter (dir ++ [c]) (entry.inodeId, false) s.mapping := by
  obtain ⟨hid, hlt, -⟩ := hsound.ids _ _ hinode
  have hkey := newRecord_key (b := b) inode.inodeId false hname
  have hfind (other) : (s.link inode (toLex (b, c.bytes))).find other =
      if toLex (b, c.bytes) = other then
        some (Mounted.newRecord inode.inodeId (toLex (b, c.bytes)) false)
      else s.find other := by
    have henter := find_enter (s := s.store { inode with refCount := inode.refCount + 1 })
      (Mounted.newRecord inode.inodeId (toLex (b, c.bytes)) false) other
    rwa [hkey] at henter
  obtain ⟨hreached, hmapping⟩ := hsound.entered hdir hfree hfind fun h ↦ by cases h
  refine ⟨⟨?_, ?_, ?_, ?_, ?_, ?_, ?_⟩, ?_⟩
  · exact upsert_pairwise hsound.sorted
  · intro x stored hstored
    change update s.inodes inode.inodeId _ x = some stored at hstored
    rcases eq_or_ne x inode.inodeId with rfl | hne
    · rw [update_self] at hstored
      obtain rfl := Option.some.inj hstored
      exact ⟨rfl, hid ▸ hlt, Nat.succ_pos _⟩
    · rw [update_of_ne hne] at hstored
      exact hsound.ids x stored hstored
  · have hcount : s.refCounts entry.inodeId = some inode.refCount := by
      rw [refCounts, hinode]
      rfl
    have htarget : entry.target ∈ s.targets := List.mem_map_of_mem hentry
    have hcounted := hsound.counted.link htarget hfile hcount
    rw [CatalogRecord.target, hfile, ← hid] at hcounted
    rw [← refCounts_store { inode with refCount := inode.refCount + 1 } s] at hcounted
    have hperm := targets_enter (s := s.store { inode with refCount := inode.refCount + 1 })
      (Mounted.newRecord inode.inodeId (toLex (b, c.bytes)) false) (hkey.symm ▸ hfree)
    exact hcounted.perm hperm.symm
  · intro r hr stored hstored
    have hkeeps := keepsBodies_store hinode hid (inode.refCount + 1)
    rcases mem_enter hr with rfl | hr
    · have hsame : (s.store { inode with refCount := inode.refCount + 1 }).inodes entry.inodeId =
          some stored := hid ▸ hstored
      exact (hsound.typed_of_keeps hkeeps hentry hsame).trans hfile
    · exact hsound.typed_of_keeps hkeeps hr hstored
  · refine mem_enter_of_ne (s := s.store { inode with refCount := inode.refCount + 1 })
      hsound.root ?_
    rw [hkey]
    exact (key_ne_root b c).symm
  · exact spelled_enter (s := s.store { inode with refCount := inode.refCount + 1 })
      hsound.spelled _ b _ hname
  · exact hreached
  · rw [hmapping, CatalogRecord.target]
    exact congrArg (fun i ↦ Library.NameTree.enter (dir ++ [c]) (i, false) s.mapping) hid

end Add

/-! ### A removed name -/

section Drop

variable {dir : List Component} {b : ℕ} {c : Component}

variable (hsound : s.Sound)
include hsound

theorem keepsBodies_dropLink (inodeId : ℕ) : s.KeepsBodies (s.dropLink inodeId) := by
  unfold dropLink
  cases hinode : s.inodes inodeId with
  | none => exact fun x stored hstored ↦ ⟨stored, hstored, rfl⟩
  | some inode =>
    simp only
    split_ifs
    · exact keepsBodies_store hinode (hsound.ids _ _ hinode).1 _
    · exact keepsBodies_discard s inodeId

theorem ids_dropLink (removed inodeId : ℕ) (inode : InodeEntry FileType)
    (hinode : (s.dropLink removed).inodes inodeId = some inode) :
    inode.inodeId = inodeId ∧ inodeId < s.nextInodeId ∧ 0 < inode.refCount := by
  unfold dropLink at hinode
  cases hremoved : s.inodes removed with
  | none =>
    rw [hremoved] at hinode
    exact hsound.ids _ _ hinode
  | some old =>
    obtain ⟨hid, hlt, -⟩ := hsound.ids _ _ hremoved
    simp only [hremoved] at hinode
    split_ifs at hinode with hmore
    · rw [store_inodes, hid] at hinode
      rcases eq_or_ne inodeId removed with rfl | hne
      · rw [update_self] at hinode
        obtain rfl := Option.some.inj hinode
        exact ⟨rfl, hlt, Nat.sub_pos_of_lt hmore⟩
      · rw [update_of_ne hne] at hinode
        exact hsound.ids _ _ hinode
    · rw [discard_inodes] at hinode
      rcases eq_or_ne inodeId removed with rfl | hne
      · rw [update_self] at hinode
        cases hinode
      · rw [update_of_ne hne] at hinode
        exact hsound.ids _ _ hinode

/-- The counts after one name less. -/
theorem counted_dropLink {names : List (ℕ × Bool)} {n : ℕ × Bool}
    (hcounted : Counted (n :: names) s.refCounts) : Counted names (s.dropLink n.1).refCounts := by
  obtain ⟨count, hcount⟩ := Option.ne_none_iff_exists'.mp
    (hcounted.named n List.mem_cons_self)
  obtain ⟨inode, hinode, rfl⟩ := Option.map_eq_some_iff.mp hcount
  obtain ⟨hid, -⟩ := hsound.ids _ _ hinode
  unfold dropLink
  simp only [hinode]
  split_ifs with hmore
  · rw [refCounts_store, hid]
    exact hcounted.unlink hcount hmore
  · rw [refCounts_discard]
    refine hcounted.remove ?_
    have hlinks := hcounted.counts n.1 _ hcount
    rw [links_cons, if_pos rfl] at hlinks
    omega

/-- An entry of an object without entries goes. -/
theorem Sound.drop (hdir : s.mapping dir = some (b, true))
    (hfound : s.find (toLex (b, c.bytes)) = some entry)
    (hbare : Library.NameTree.Bare s.entries entry.target) :
    (s.drop entry (toLex (b, c.bytes))).Sound ∧ (s.drop entry (toLex (b, c.bytes))).mapping =
        Library.NameTree.remove (dir ++ [c]) s.mapping := by
  have hfind := find_drop (s := s) entry (toLex (b, c.bytes))
  have hother := fun d x hne ↦ entries_congr s (s.drop entry (toLex (b, c.bytes)))
    (fun other hkey _ ↦ by rw [hfind, if_neg hkey]) d x hne hne
  have hold : s.entries b c = some entry.target := by rw [entries, hfound]; rfl
  have hgone : (s.drop entry (toLex (b, c.bytes))).entries b c = none := by
    rw [entries, hfind, if_pos rfl]
    rfl
  have hreached := hsound.reached.remove hsound.single hdir hother hold hgone hbare
  have hmapping := resolve_remove hsound.single hdir hother hold hgone hbare
  rw [drop_eq] at hreached hmapping ⊢
  have hcatalog : ((s.dropLink entry.inodeId).leave (toLex (b, c.bytes))).catalog =
      (s.leave (toLex (b, c.bytes))).catalog := by
    rw [leave, dropLink_catalog]
    rfl
  have hsub : ∀ r ∈ ((s.dropLink entry.inodeId).leave (toLex (b, c.bytes))).catalog,
      r ∈ s.catalog := fun r hr ↦ (mem_leave.mp (hcatalog ▸ hr)).1
  refine ⟨⟨?_, ?_, ?_, ?_, ?_, fun r hr ↦ hsound.spelled r (hsub r hr), hreached⟩, hmapping⟩
  · rw [hcatalog]
    exact hsound.sorted.sublist (List.filter_sublist.map _)
  · intro x inode hinode
    exact dropLink_nextInodeId entry.inodeId s ▸ ids_dropLink hsound entry.inodeId x inode hinode
  · have hcounted := hsound.counted.perm (targets_leave hsound.sorted hfound)
    rw [targets, hcatalog]
    exact counted_dropLink hsound hcounted
  · intro r hr inode hinode
    exact hsound.typed_of_keeps (keepsBodies_dropLink hsound entry.inodeId) (hsub r hr) hinode
  · rw [hcatalog]
    exact mem_leave.mpr ⟨hsound.root, (key_ne_root b c).symm⟩

end Drop

/-! ### Names that change places -/

section Rename

variable {src dst : CatalogRecord} {p q : List Component} {a b : ℕ} {m n : Component}

/-- Keys on paths of which neither is below the other are different. -/
theorem keys_ne (hsound : s.Sound) (hapart : Separate s.entries rootInodeId a b p q m n) :
    toLex (a, m.bytes) ≠ toLex (b, n.bytes) := by
  intro heq
  obtain ⟨rfl, hbytes⟩ := Prod.mk.inj (toLex.injective heq)
  obtain rfl := Component.bytes_injective hbytes
  obtain rfl := hsound.single.resolve_injective hapart.old hapart.new
  exact hapart.notBelow List.prefix_rfl

theorem find_move (src : CatalogRecord) (oldKey other : CatalogKey)
    (hname : n.bytes.length ≤ 255) :
    (s.move src oldKey (toLex (b, n.bytes))).find other =
      if toLex (b, n.bytes) = other then
        some (Mounted.newRecord src.inodeId (toLex (b, n.bytes)) src.directoryFlag)
      else if oldKey = other then none else s.find other := by
  rw [move, find_enter, newRecord_key _ _ hname, find_leave]

/-- An entry moves to a key that is free. -/
theorem Sound.move (hsound : s.Sound) (hapart : Separate s.entries rootInodeId a b p q m n)
    (hsrc : s.find (toLex (a, m.bytes)) = some src) (hfree : s.find (toLex (b, n.bytes)) = none)
    (hname : n.bytes.length ≤ 255) :
    (s.move src (toLex (a, m.bytes)) (toLex (b, n.bytes))).Sound ∧
      (s.move src (toLex (a, m.bytes)) (toLex (b, n.bytes))).mapping =
        Library.NameTree.move (p ++ [m]) (q ++ [n]) s.mapping := by
  have hkeys := keys_ne hsound hapart
  have hkey := newRecord_key (b := b) src.inodeId src.directoryFlag hname
  have hfind := fun other ↦ find_move (s := s) (b := b) src (toLex (a, m.bytes)) other hname
  have hother := entries_congr s (s.move src (toLex (a, m.bytes)) (toLex (b, n.bytes)))
    fun other hold hnew ↦ by rw [hfind, if_neg hnew, if_neg hold]
  have hold : s.entries a m = some src.target := by rw [entries, hsrc]; rfl
  have hgone : (s.move src (toLex (a, m.bytes)) (toLex (b, n.bytes))).entries a m = none := by
    rw [entries, hfind, if_neg hkeys.symm, if_pos rfl]
    rfl
  have hnew : (s.move src (toLex (a, m.bytes)) (toLex (b, n.bytes))).entries b n =
      some src.target := by
    rw [entries, hfind, if_pos rfl]
    rfl
  obtain ⟨hmem, hsrcKey⟩ := mem_of_find hsrc
  refine ⟨⟨?_, hsound.ids, ?_, ?_, ?_, ?_, ?_⟩, ?_⟩
  · exact upsert_pairwise (hsound.sorted.sublist (List.filter_sublist.map _))
  · have hleave := targets_leave hsound.sorted hsrc
    have henter := targets_enter (s := s.leave (toLex (a, m.bytes)))
      (Mounted.newRecord src.inodeId (toLex (b, n.bytes)) src.directoryFlag) (by
        rw [hkey, find_leave, if_neg hkeys, hfree])
    exact hsound.counted.perm (hleave.trans henter.symm)
  · intro r hr inode hinode
    rcases mem_enter hr with rfl | hr
    · exact hsound.typed src hmem inode hinode
    · exact hsound.typed r (mem_leave.mp hr).1 inode hinode
  · refine mem_enter_of_ne (mem_leave.mpr ⟨hsound.root, (key_ne_root a m).symm⟩) ?_
    rw [hkey]
    exact (key_ne_root b n).symm
  · exact spelled_enter (fun r hr ↦ hsound.spelled r (mem_leave.mp hr).1) _ b _ hname
  · refine hsound.reached.move hapart hother hold hgone hnew fun t ht ↦ ?_
    rw [entries, hfree] at ht
    cases ht
  · exact resolve_move hapart hother hold hgone hnew

theorem find_exchange (src dst : CatalogRecord) (other : CatalogKey)
    (hold : m.bytes.length ≤ 255) (hnew : n.bytes.length ≤ 255) :
    (s.exchange src dst (toLex (a, m.bytes)) (toLex (b, n.bytes))).find other =
      if toLex (b, n.bytes) = other then
        some (Mounted.newRecord src.inodeId (toLex (b, n.bytes)) src.directoryFlag)
      else if toLex (a, m.bytes) = other then
        some (Mounted.newRecord dst.inodeId (toLex (a, m.bytes)) dst.directoryFlag)
      else s.find other := by
  rw [exchange, find_enter, newRecord_key _ _ hnew, find_enter, newRecord_key _ _ hold, find_leave,
    find_leave]
  split_ifs <;> rfl

/-- Two entries change places. -/
theorem Sound.exchange (hsound : s.Sound) (hapart : Separate s.entries rootInodeId a b p q m n)
    (hsrc : s.find (toLex (a, m.bytes)) = some src)
    (hdst : s.find (toLex (b, n.bytes)) = some dst) :
    (s.exchange src dst (toLex (a, m.bytes)) (toLex (b, n.bytes))).Sound ∧
      (s.exchange src dst (toLex (a, m.bytes)) (toLex (b, n.bytes))).mapping =
        Library.NameTree.exchange (p ++ [m]) (q ++ [n]) s.mapping := by
  have hkeys := keys_ne hsound hapart
  have hm := hsound.name_length hsrc
  have hn := hsound.name_length hdst
  have hfind := fun other ↦ find_exchange (s := s) (a := a) (b := b) src dst other hm hn
  have hother := entries_congr s (s.exchange src dst (toLex (a, m.bytes)) (toLex (b, n.bytes)))
    fun other hold hnew ↦ by rw [hfind, if_neg hnew, if_neg hold]
  have hsrc' : s.entries a m = some src.target := by rw [entries, hsrc]; rfl
  have hdst' : s.entries b n = some dst.target := by rw [entries, hdst]; rfl
  have hold : (s.exchange src dst (toLex (a, m.bytes)) (toLex (b, n.bytes))).entries a m =
      some dst.target := by
    rw [entries, hfind, if_neg hkeys.symm, if_pos rfl]
    rfl
  have hnew : (s.exchange src dst (toLex (a, m.bytes)) (toLex (b, n.bytes))).entries b n =
      some src.target := by
    rw [entries, hfind, if_pos rfl]
    rfl
  -- The two records that leave and the two that enter have the same targets.
  have hfirst := targets_leave hsound.sorted hsrc
  have hsorted : ((s.leave (toLex (a, m.bytes))).catalog.map catalogKey).Pairwise (· < ·) :=
    hsound.sorted.sublist (List.filter_sublist.map _)
  have hstill : (s.leave (toLex (a, m.bytes))).find (toLex (b, n.bytes)) = some dst := by
    rw [find_leave, if_neg hkeys, hdst]
  have hsecond := targets_leave hsorted hstill
  have hthird := targets_enter
    (s := (s.leave (toLex (a, m.bytes))).leave (toLex (b, n.bytes)))
    (Mounted.newRecord dst.inodeId (toLex (a, m.bytes)) dst.directoryFlag) (by
      rw [newRecord_key _ _ hm, find_leave, if_neg hkeys.symm, find_leave, if_pos rfl])
  have hfourth := targets_enter
    (s := ((s.leave (toLex (a, m.bytes))).leave (toLex (b, n.bytes))).enter
      (Mounted.newRecord dst.inodeId (toLex (a, m.bytes)) dst.directoryFlag))
    (Mounted.newRecord src.inodeId (toLex (b, n.bytes)) src.directoryFlag) (by
      rw [newRecord_key _ _ hn, find_enter, newRecord_key _ _ hm, if_neg hkeys, find_leave,
        if_pos rfl])
  obtain ⟨hsrcMem, -⟩ := mem_of_find hsrc
  obtain ⟨hdstMem, -⟩ := mem_of_find hdst
  refine ⟨⟨?_, hsound.ids, ?_, ?_, ?_, ?_, ?_⟩, ?_⟩
  · exact upsert_pairwise (upsert_pairwise (hsorted.sublist (List.filter_sublist.map _)))
  · exact hsound.counted.perm ((hfirst.trans (hsecond.cons _)).trans
      (hfourth.trans (hthird.cons _)).symm)
  · intro r hr inode hinode
    rcases mem_enter hr with rfl | hr
    · exact hsound.typed src hsrcMem inode hinode
    · rcases mem_enter hr with rfl | hr
      · exact hsound.typed dst hdstMem inode hinode
      · exact hsound.typed r (mem_leave.mp (mem_leave.mp hr).1).1 inode hinode
  · refine mem_enter_of_ne (mem_enter_of_ne (mem_leave.mpr
      ⟨mem_leave.mpr ⟨hsound.root, (key_ne_root a m).symm⟩, (key_ne_root b n).symm⟩) ?_) ?_
    · rw [newRecord_key _ _ hm]
      exact (key_ne_root a m).symm
    · rw [newRecord_key _ _ hn]
      exact (key_ne_root b n).symm
  · exact spelled_enter (spelled_enter
      (fun r hr ↦ hsound.spelled r (mem_leave.mp (mem_leave.mp hr).1).1) _ a _ hm) _ b _ hn
  · exact hsound.reached.exchange hapart hother hsrc' hdst' hold hnew
  · exact resolve_exchange hapart hother hsrc' hdst' hold hnew

end Rename

end Names

end Obmafs3
