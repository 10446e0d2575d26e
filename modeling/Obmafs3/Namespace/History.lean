import Obmafs3.Namespace.Callbacks

/-!
# The namespace under any history

A run of callbacks on paths. As long as every insertion and every deletion finds its tree fit for
it, a callback that returns an error leaves everything as it was, and one that succeeds does to the
paths what the operation does to a tree of names. A name of more than 255 bytes is looked up as it
is and entered without its end, so its callback succeeds and the path leads nowhere.
-/

set_option autoImplicit false

namespace Obmafs3

open Library.NameTree Library.Search Library.SearchTree

/-! ### The operations on a tree of names -/

/-- What the callbacks do to a tree of names when they succeed, and when they may. A new inode is
one to which nothing led. -/
inductive NameCall.OnTree (m : Mapping ℕ Component) : NameCall → Mapping ℕ Component → Prop
  | create {path : AbsolutePath} {b newId : ℕ} (hdir : m path.dir = some (b, true))
      (hfree : m path.parts = none) (hnew : ∀ q t, m q = some t → t.1 ≠ newId) :
      OnTree m (.create path) (enter path.parts (newId, false) m)
  | mkdir {path : AbsolutePath} {b newId : ℕ} (hdir : m path.dir = some (b, true))
      (hfree : m path.parts = none) (hnew : ∀ q t, m q = some t → t.1 ≠ newId) :
      OnTree m (.mkdir path) (enter path.parts (newId, true) m)
  | symlink {path : AbsolutePath} {b newId : ℕ} (hdir : m path.dir = some (b, true))
      (hfree : m path.parts = none) (hnew : ∀ q t, m q = some t → t.1 ≠ newId) :
      OnTree m (.symlink path) (enter path.parts (newId, false) m)
  | link {oldpath newpath : AbsolutePath} {b id : ℕ} (hfound : m oldpath.parts = some (id, false))
      (hdir : m newpath.dir = some (b, true)) (hfree : m newpath.parts = none) :
      OnTree m (.link oldpath newpath) (enter newpath.parts (id, false) m)
  | unlink {path : AbsolutePath} {id : ℕ} (hfound : m path.parts = some (id, false)) :
      OnTree m (.unlink path) (remove path.parts m)
  | rmdir {path : AbsolutePath} {id : ℕ} (hfound : m path.parts = some (id, true))
      (hempty : ∀ n, m (path.parts ++ [n]) = none) :
      OnTree m (.rmdir path) (remove path.parts m)
  | rename {flags : Mounted.RenameFlags} {oldpath newpath : AbsolutePath} {b : ℕ} {src : ℕ × Bool}
      (hexchange : flags.exchange = false) (hfound : m oldpath.parts = some src)
      (hdir : m newpath.dir = some (b, true))
      (hplace : ∀ dst, m newpath.parts = some dst →
        flags.noreplace = false ∧ dst.2 = src.2 ∧ ∀ n, m (newpath.parts ++ [n]) = none) :
      OnTree m (.rename flags oldpath newpath) (move oldpath.parts newpath.parts m)
  | exchange {flags : Mounted.RenameFlags} {oldpath newpath : AbsolutePath} {src dst : ℕ × Bool}
      (hexchange : flags.exchange = true) (hfound : m oldpath.parts = some src)
      (hplace : m newpath.parts = some dst) (hkind : src.2 = dst.2) :
      OnTree m (.rename flags oldpath newpath) (exchange oldpath.parts newpath.parts m)

/-- Every insertion and deletion that the callback comes to finds its tree fit for it. -/
def NameCall.Careful (st : NameStore) : NameCall → Prop
  | create path => ∀ key, st.resolvePath path.bytes = .ok key → st.catalogLookup key = none →
      st.AddFits (st.createType (ofLex key).2) key
  | mkdir path => ∀ key, st.resolvePath path.bytes = .ok key → st.catalogLookup key = none →
      st.AddFits .directory key
  | symlink linkpath => ∀ key, st.resolvePath linkpath.bytes = .ok key →
      st.catalogLookup key = none → st.AddFits .symlink key
  | link oldpath newpath => ∀ oldKey entry newKey inode, st.resolvePath oldpath.bytes = .ok oldKey →
      st.catalogLookup oldKey = some entry → entry.directoryFlag = false →
        st.resolvePath newpath.bytes = .ok newKey → st.catalogLookup newKey = none →
          st.inodeGet entry.inodeId = some inode → st.LinkFits inode newKey
  | unlink path => ∀ key entry, st.resolvePath path.bytes = .ok key →
      st.catalogLookup key = some entry → entry.directoryFlag = false → st.DropFits entry key
  | rmdir path => ∀ key entry, st.resolvePath path.bytes = .ok key →
      st.catalogLookup key = some entry → entry.directoryFlag = true →
        (st.catalogList entry.inodeId).isEmpty = true → st.DropFits entry key
  | rename flags oldpath newpath => ∀ oldKey src newKey, st.resolvePath oldpath.bytes = .ok oldKey →
      st.catalogLookup oldKey = some src → st.resolvePath newpath.bytes = .ok newKey →
        st.RenameFits flags src oldKey newKey

/-- What the kernel checks: neither of the paths of a rename lies inside the other. -/
def NameCall.Passed : NameCall → Prop
  | rename _ oldpath newpath => ¬oldpath.parts <+: newpath.parts ∧ ¬newpath.parts <+: oldpath.parts
  | _ => True

namespace NameStore

variable {st : NameStore}

/-- What a callback did: nothing when it returned an error, and what it does to a tree of names when
it succeeded. -/
def Did (st : NameStore) (call : NameCall) (result : Option Errno × NameStore) : Prop :=
  match result.1 with
  | some _ => result.2 = st
  | none => result.2.Sound ∧ call.OnTree st.mapping result.2.mapping

/-! ### The callbacks, one by one -/

namespace Sound

variable {path oldpath newpath : AbsolutePath} {key : CatalogKey} {entry src dst : CatalogRecord}
  {a b : ℕ}

variable {flags : Mounted.RenameFlags} {fileType : FileType} {call : NameCall}

section

variable (hsound : st.Sound)
include hsound

/-- A new inode with its first name. -/
theorem addInode (hdir : st.mapping path.dir = some (b, true))
    (hfree : st.catalogLookup (toLex (b, path.name.bytes)) = none)
    (hfits : st.AddFits fileType (toLex (b, path.name.bytes))) :
    ∃ st', st.addInode fileType (toLex (b, path.name.bytes)) = (none, st') ∧ st'.Sound ∧
      st'.mapping =
        enter path.parts (st.nextInodeId, decide (fileType = .directory)) st.mapping := by
  obtain ⟨st', hrun, hready, hnames⟩ :=
    hsound.ready.addInode hfree hfits.ids hfits.inodes hfits.catalog
  have hdir' : st.names.mapping path.dir = some (b, true) := hsound.mapping_eq ▸ hdir
  obtain ⟨hsound', hmapping⟩ := hsound.names.add hdir'
    (hsound.ready.catalogLookup_eq _ ▸ hfree) hfits.name fileType
  have hsound'' : st'.Sound := ⟨hready, hnames ▸ hsound'⟩
  refine ⟨st', hrun, hsound'', ?_⟩
  rw [hsound''.mapping_eq, hsound.mapping_eq, hnames, hmapping]
  rfl

theorem ne_nextInodeId (q : List Component) (t : ℕ × Bool)
    (ht : st.mapping q = some t) : t.1 ≠ st.nextInodeId :=
  (hsound.names.lt_of_mapping (hsound.mapping_eq ▸ ht)).ne

/-- A path that leads nowhere, in a directory. -/
theorem mapping_parts_none (hdir : st.mapping path.dir = some (b, true))
    (hfree : st.catalogLookup (toLex (b, path.name.bytes)) = none) :
    st.mapping path.parts = none := by
  rw [hsound.mapping_parts hdir, hfree]
  rfl

theorem mapping_parts_some (hdir : st.mapping path.dir = some (b, true))
    (hfound : st.catalogLookup (toLex (b, path.name.bytes)) = some entry) :
    st.mapping path.parts = some entry.target := by
  rw [hsound.mapping_parts hdir, hfound]
  rfl

/-- Nothing is below a path that leads to an object without entries. -/
theorem mapping_below (hparts : st.mapping path.parts = some entry.target)
    (hbare : Library.NameTree.Bare st.names.entries entry.target) (n : Component) :
    st.mapping (path.parts ++ [n]) = none := by
  rw [hsound.mapping_eq, Names.mapping] at hparts ⊢
  rw [resolve_append, hparts, walk_bare hbare (List.cons_ne_nil n [])]

/-- The stored inode of an entry. -/
theorem inode_of_entry (hfound : st.catalogLookup key = some entry) :
    ∃ inode, st.inodeGet entry.inodeId = some inode ∧ inode.inodeId = entry.inodeId := by
  obtain ⟨inode, hinode, hid, -⟩ := hsound.names.named
    (Names.mem_of_find (hsound.ready.catalogLookup_eq key ▸ hfound)).1
  exact ⟨inode, hinode, hid⟩

/-- A directory has one link. -/
theorem refCount_directory (hfound : st.catalogLookup key = some entry)
    (hdir : entry.directoryFlag = true) {inode : InodeEntry FileType}
    (hinode : st.inodeGet entry.inodeId = some inode) : inode.refCount = 1 := by
  have hmem := (Names.mem_of_find (hsound.ready.catalogLookup_eq key ▸ hfound)).1
  have hone := hsound.names.counted.single entry.target (List.mem_map_of_mem hmem) hdir
  have hcount : st.names.refCounts entry.inodeId = some inode.refCount := by
    rw [Names.refCounts]
    exact congrArg (Option.map InodeEntry.refCount) hinode
  exact (hsound.names.counted.counts _ _ hcount).trans hone

section

variable (hdir : st.mapping path.dir = some (b, true))
  (hfound : st.catalogLookup (toLex (b, path.name.bytes)) = some entry)
include hdir hfound

/-- An entry of an object without entries goes. -/
theorem dropEntry (hbare : Library.NameTree.Bare st.names.entries entry.target)
    (hfits : st.DropFits entry (toLex (b, path.name.bytes))) :
    ∃ st₁ st', st.catalogDelete (toLex (b, path.name.bytes)) = .ok st₁ ∧
      st₁.inodeGet entry.inodeId = st.inodeGet entry.inodeId ∧
      st₁.dropLink entry.inodeId = (none, st') ∧ st'.Sound ∧
      st'.names = st.names.drop entry (toLex (b, path.name.bytes)) ∧
      st'.mapping = remove path.parts st.mapping := by
  obtain ⟨inode, hinode, -⟩ := hsound.inode_of_entry hfound
  obtain ⟨st₁, st', hdelete, hget, hdrop, hready, hnames⟩ :=
    hsound.ready.dropEntry hfound hinode hfits
  have hdir' : st.names.mapping path.dir = some (b, true) := hsound.mapping_eq ▸ hdir
  obtain ⟨hsound', hmapping⟩ := hsound.names.drop hdir'
    (hsound.ready.catalogLookup_eq _ ▸ hfound) hbare
  have hsound'' : st'.Sound := ⟨hready, hnames ▸ hsound'⟩
  refine ⟨st₁, st', hdelete, hget.trans hinode.symm, hdrop, hsound'', hnames, ?_⟩
  rw [hsound''.mapping_eq, hsound.mapping_eq, hnames, hmapping]
  rfl

/-- A directory without entries goes. -/
theorem dropDirectory (hflag : entry.directoryFlag = true)
    (hempty : (st.catalogList entry.inodeId).isEmpty = true)
    (hfits : st.DropFits entry (toLex (b, path.name.bytes))) :
    ∃ st', st.dropDirectory entry (toLex (b, path.name.bytes)) = (none, st') ∧ st'.Sound ∧
      st'.names = st.names.drop entry (toLex (b, path.name.bytes)) ∧
      st'.mapping = remove path.parts st.mapping := by
  obtain ⟨inode, hinode, -⟩ := hsound.inode_of_entry hfound
  obtain ⟨st₁, st', hdelete, hget, hdrop, hafter⟩ :=
    hsound.dropEntry hdir hfound (hsound.bare fun _ ↦ hempty) hfits
  refine ⟨st', ?_, hafter⟩
  have hsingle : ¬1 < inode.refCount := (hsound.refCount_directory hfound hflag hinode).not_gt
  rw [NameStore.dropLink, hget, hinode] at hdrop
  simp only [if_neg hsingle] at hdrop
  rw [NameStore.dropDirectory, if_pos hempty, hdelete]
  exact hdrop

end

omit hsound in
theorem did_of_none {m : Mapping ℕ Component} {st' : NameStore} (hsound' : st'.Sound)
    (hmapping : st'.mapping = m) (hon : call.OnTree st.mapping m) : st.Did call (none, st') :=
  ⟨hsound', hmapping ▸ hon⟩

theorem did_addInode (hkey : st.resolvePath path.bytes = .ok key)
    (hfits : st.catalogLookup key = none → st.AddFits fileType key)
    (htree : ∀ b, st.mapping path.dir = some (b, true) → st.mapping path.parts = none →
      call.OnTree st.mapping
      (enter path.parts (st.nextInodeId, decide (fileType = .directory)) st.mapping)) :
    st.Did call (st.addInode fileType key) := by
  obtain ⟨b, rfl, hdir⟩ := hsound.resolvePath hkey
  cases hlookup : st.catalogLookup (toLex (b, path.name.bytes)) with
  | some entry =>
    rw [NameStore.addInode, hlookup]
    rfl
  | none =>
    obtain ⟨st', hrun, hsound', hmapping⟩ := hsound.addInode hdir hlookup (hfits hlookup)
    rw [hrun]
    exact did_of_none hsound' hmapping (htree b hdir (hsound.mapping_parts_none hdir hlookup))

theorem did_create (hcareful : NameCall.Careful st (.create path)) :
    st.Did (.create path) (st.fuseCreate path.bytes) := by
  unfold NameStore.fuseCreate
  cases hkey : st.resolvePath path.bytes with
  | error e => rfl
  | ok key =>
    refine hsound.did_addInode hkey (hcareful key hkey) fun b hdir hfree ↦ ?_
    have hfile : decide (st.createType (ofLex key).2 = .directory) = false := by
      rw [createType]
      split_ifs <;> rfl
    rw [hfile]
    exact .create hdir hfree hsound.ne_nextInodeId

theorem did_mkdir (hcareful : NameCall.Careful st (.mkdir path)) :
    st.Did (.mkdir path) (st.fuseMkdir path.bytes) := by
  unfold NameStore.fuseMkdir
  cases hkey : st.resolvePath path.bytes with
  | error e => rfl
  | ok key =>
    exact hsound.did_addInode hkey (hcareful key hkey) fun b hdir hfree ↦
      .mkdir hdir hfree hsound.ne_nextInodeId

theorem did_symlink (hcareful : NameCall.Careful st (.symlink path)) :
    st.Did (.symlink path) (st.fuseSymlink path.bytes) := by
  unfold NameStore.fuseSymlink
  cases hkey : st.resolvePath path.bytes with
  | error e => rfl
  | ok key =>
    exact hsound.did_addInode hkey (hcareful key hkey) fun b hdir hfree ↦
      .symlink hdir hfree hsound.ne_nextInodeId

theorem did_link (hcareful : NameCall.Careful st (.link oldpath newpath)) :
    st.Did (.link oldpath newpath) (st.fuseLink oldpath.bytes newpath.bytes) := by
  unfold NameStore.fuseLink
  cases hold : st.resolvePath oldpath.bytes with
  | error e => rfl
  | ok oldKey =>
    obtain ⟨a, rfl, holdDir⟩ := hsound.resolvePath hold
    simp only
    cases hentry : st.catalogLookup (toLex (a, oldpath.name.bytes)) with
    | none => rfl
    | some entry =>
      simp only
      cases hflag : entry.directoryFlag with
      | true => rfl
      | false =>
        simp only [Bool.false_eq_true, if_false]
        cases hnew : st.resolvePath newpath.bytes with
        | error e => rfl
        | ok newKey =>
          obtain ⟨b, rfl, hnewDir⟩ := hsound.resolvePath hnew
          simp only
          cases hfree : st.catalogLookup (toLex (b, newpath.name.bytes)) with
          | some other => rfl
          | none =>
            obtain ⟨inode, hinode, hid⟩ := hsound.inode_of_entry hentry
            have hfits := hcareful _ entry _ inode hold hentry hflag hnew hfree hinode
            obtain ⟨st₁, st', hput, hinsert, hready, hnames⟩ := hsound.ready.addLink hfits
            rw [hid] at hinsert
            simp only [hinode, hput, hinsert]
            have hdir' : st.names.mapping newpath.dir = some (b, true) :=
              hsound.mapping_eq ▸ hnewDir
            obtain ⟨hsound', hmapping⟩ := hsound.names.link hdir'
              (hsound.ready.catalogLookup_eq _ ▸ hfree) hfits.name
              (Names.mem_of_find (hsound.ready.catalogLookup_eq _ ▸ hentry)).1 hflag hinode
            have hsound'' : st'.Sound := ⟨hready, hnames ▸ hsound'⟩
            refine ⟨hsound'', ?_⟩
            change NameCall.OnTree st.mapping _ st'.mapping
            rw [hsound''.mapping_eq, hnames, hmapping, ← hsound.mapping_eq]
            have hfound : st.mapping oldpath.parts = some (entry.inodeId, false) := by
              rw [hsound.mapping_parts_some holdDir hentry, CatalogRecord.target, hflag]
            exact .link hfound hnewDir (hsound.mapping_parts_none hnewDir hfree)

theorem did_unlink (hcareful : NameCall.Careful st (.unlink path)) :
    st.Did (.unlink path) (st.fuseUnlink path.bytes) := by
  unfold NameStore.fuseUnlink
  cases hkey : st.resolvePath path.bytes with
  | error e => rfl
  | ok key =>
    obtain ⟨b, rfl, hdir⟩ := hsound.resolvePath hkey
    simp only
    cases hentry : st.catalogLookup (toLex (b, path.name.bytes)) with
    | none => rfl
    | some entry =>
      simp only
      cases hflag : entry.directoryFlag with
      | true => rfl
      | false =>
        have hbare : Library.NameTree.Bare st.names.entries entry.target := fun h ↦
          absurd (hflag.symm.trans h) Bool.false_ne_true
        obtain ⟨st₁, st', hdelete, -, hdrop, hsound', -, hmapping⟩ :=
          hsound.dropEntry hdir hentry hbare (hcareful _ entry hkey hentry hflag)
        simp only [Bool.false_eq_true, if_false, hdelete, hdrop]
        have hfound : st.mapping path.parts = some (entry.inodeId, false) := by
          rw [hsound.mapping_parts_some hdir hentry, CatalogRecord.target, hflag]
        exact did_of_none hsound' hmapping (.unlink hfound)

theorem did_rmdir (hcareful : NameCall.Careful st (.rmdir path)) :
    st.Did (.rmdir path) (st.fuseRmdir path.bytes) := by
  unfold NameStore.fuseRmdir
  cases hkey : st.resolvePath path.bytes with
  | error e => rfl
  | ok key =>
    obtain ⟨b, rfl, hdir⟩ := hsound.resolvePath hkey
    simp only
    cases hentry : st.catalogLookup (toLex (b, path.name.bytes)) with
    | none => rfl
    | some entry =>
      simp only
      cases hflag : entry.directoryFlag with
      | false => rfl
      | true =>
        simp only [if_true]
        cases hempty : (st.catalogList entry.inodeId).isEmpty with
        | false =>
          rw [NameStore.dropDirectory, hempty]
          rfl
        | true =>
          obtain ⟨st', hrun, hsound', -, hmapping⟩ := hsound.dropDirectory hdir hentry hflag hempty
            (hcareful _ entry hkey hentry hflag hempty)
          rw [hrun]
          refine did_of_none hsound' hmapping ?_
          have hparts := hsound.mapping_parts_some hdir hentry
          have hfound : st.mapping path.parts = some (entry.inodeId, true) := by
            rw [hparts, CatalogRecord.target, hflag]
          exact .rmdir hfound (hsound.mapping_below hparts (hsound.bare fun _ ↦ hempty))

/-- The two paths of a rename. -/
theorem apart (hpassed : NameCall.Passed (.rename flags oldpath newpath))
    (hold : st.mapping oldpath.dir = some (a, true))
    (hnew : st.mapping newpath.dir = some (b, true)) :
    Separate st.names.entries rootInodeId a b oldpath.dir newpath.dir oldpath.name newpath.name where
  single := hsound.names.single
  old := (congrFun hsound.mapping_eq _).symm.trans hold
  new := (congrFun hsound.mapping_eq _).symm.trans hnew
  notBelow := hpassed.1
  notAbove := hpassed.2

/-- What a rename replaces is of the kind of what replaces it, and nothing was below it. -/
theorem place (hnew : st.mapping newpath.dir = some (b, true))
    (hdst : st.catalogLookup (toLex (b, newpath.name.bytes)) = some dst)
    (hempty : dst.directoryFlag = true → (st.catalogList dst.inodeId).isEmpty = true)
    (hkind : src.directoryFlag = dst.directoryFlag) (t : ℕ × Bool)
    (ht : st.mapping newpath.parts = some t) :
    t.2 = src.target.2 ∧ ∀ n, st.mapping (newpath.parts ++ [n]) = none := by
  have hparts := hsound.mapping_parts_some hnew hdst
  obtain rfl := Option.some.inj (hparts.symm.trans ht)
  exact ⟨hkind.symm, hsound.mapping_below hparts (hsound.bare hempty)⟩

end

section Rename

variable {flags : Mounted.RenameFlags}
  (hpassed : NameCall.Passed (.rename flags oldpath newpath))
  (hold : st.mapping oldpath.dir = some (a, true)) (hnew : st.mapping newpath.dir = some (b, true))
  (hsrc : st.catalogLookup (toLex (a, oldpath.name.bytes)) = some src)
include hpassed hold hnew hsrc

variable (hsound : st.Sound)
include hsound

theorem did_exchange (hflag : flags.exchange = true)
    (hdst : st.catalogLookup (toLex (b, newpath.name.bytes)) = some dst)
    (hkind : src.directoryFlag = dst.directoryFlag)
    (hfits : st.ExchangeFits src dst (toLex (a, oldpath.name.bytes)) (toLex (b, newpath.name.bytes))) :
    st.Did (.rename flags oldpath newpath) (st.exchangeEntries src dst
      (toLex (a, oldpath.name.bytes)) (toLex (b, newpath.name.bytes))) := by
  have hapart := hsound.apart hpassed hold hnew
  obtain ⟨st', hrun, hready, hnames⟩ := hsound.ready.exchangeEntries
    (Names.keys_ne hsound.names hapart) hsrc hdst hfits
  obtain ⟨hsound', hmapping⟩ := hsound.names.exchange hapart
    (hsound.ready.catalogLookup_eq _ ▸ hsrc) (hsound.ready.catalogLookup_eq _ ▸ hdst)
  have hsound'' : st'.Sound := ⟨hready, hnames ▸ hsound'⟩
  rw [hrun]
  refine ⟨hsound'', ?_⟩
  change NameCall.OnTree st.mapping _ st'.mapping
  rw [hsound''.mapping_eq, hnames, hmapping, ← hsound.mapping_eq]
  exact .exchange hflag (hsound.mapping_parts_some hold hsrc)
    (hsound.mapping_parts_some hnew hdst) hkind

/-- A name moves to a path that leads nowhere. -/
theorem moveEntry (hfree : st.catalogLookup (toLex (b, newpath.name.bytes)) = none)
    (hfits : st.MoveFits src (toLex (a, oldpath.name.bytes)) (toLex (b, newpath.name.bytes))) :
    ∃ st', st.moveEntry src (toLex (a, oldpath.name.bytes)) (toLex (b, newpath.name.bytes)) =
        (none, st') ∧
      st'.Sound ∧ st'.mapping = move oldpath.parts newpath.parts st.mapping := by
  obtain ⟨st', hrun, hready, hnames⟩ := hsound.ready.moveEntry hsrc hfits
  obtain ⟨hsound', hmapping⟩ := hsound.names.move (hsound.apart hpassed hold hnew)
    (hsound.ready.catalogLookup_eq _ ▸ hsrc) (hsound.ready.catalogLookup_eq _ ▸ hfree) hfits.name
  have hsound'' : st'.Sound := ⟨hready, hnames ▸ hsound'⟩
  refine ⟨st', hrun, hsound'', ?_⟩
  rw [hsound''.mapping_eq, hsound.mapping_eq, hnames, hmapping]
  rfl

/-- A name moves over another. -/
theorem replaceEntry (hdst : st.catalogLookup (toLex (b, newpath.name.bytes)) = some dst)
    (hempty : dst.directoryFlag = true → (st.catalogList dst.inodeId).isEmpty = true)
    (hfits : st.DropFits dst (toLex (b, newpath.name.bytes)))
    (hmove : ∀ st', st.replaceDest dst (toLex (b, newpath.name.bytes)) = (none, st') →
      st'.MoveFits src (toLex (a, oldpath.name.bytes)) (toLex (b, newpath.name.bytes))) :
    ∃ st', st.replaceEntry src dst (toLex (a, oldpath.name.bytes))
        (toLex (b, newpath.name.bytes)) = (none, st') ∧
      st'.Sound ∧ st'.mapping = move oldpath.parts newpath.parts st.mapping := by
  have hreplaced : ∃ st₁, st.replaceDest dst (toLex (b, newpath.name.bytes)) = (none, st₁) ∧
      st₁.Sound ∧ st₁.names = st.names.drop dst (toLex (b, newpath.name.bytes)) ∧
      st₁.mapping = remove newpath.parts st.mapping := by
    unfold replaceDest
    cases hflag : dst.directoryFlag with
    | true =>
      simp only [if_true]
      exact hsound.dropDirectory hnew hdst hflag (hempty hflag) hfits
    | false =>
      obtain ⟨st₀, st₁, hdelete, -, hdrop, hafter⟩ :=
        hsound.dropEntry hnew hdst (hsound.bare hempty) hfits
      simp only [Bool.false_eq_true, if_false, hdelete]
      exact ⟨st₁, hdrop, hafter⟩
  obtain ⟨st₁, hrun, hsound₁, hnames₁, hmapping₁⟩ := hreplaced
  have hapart := hsound.apart hpassed hold hnew
  -- The directories and the source are where they were.
  have hstays {p : List Component} (hp : ¬newpath.parts <+: p) : st₁.mapping p = st.mapping p := by
    rw [hmapping₁]
    refine Function.update_of_ne ?_ _ _
    rintro rfl
    exact hp List.prefix_rfl
  have hold₁ : st₁.mapping oldpath.dir = some (a, true) :=
    (hstays (not_prefix_of_concat hpassed.2)).trans hold
  have hnew₁ : st₁.mapping newpath.dir = some (b, true) :=
    (hstays (not_prefix_self_concat newpath.dir newpath.name)).trans hnew
  have hsrc₁ : st₁.catalogLookup (toLex (a, oldpath.name.bytes)) = some src := by
    rw [hsound₁.ready.catalogLookup_eq, hnames₁, Names.find_drop,
      if_neg (Names.keys_ne hsound.names hapart).symm, ← hsound.ready.catalogLookup_eq, hsrc]
  have hfree₁ : st₁.catalogLookup (toLex (b, newpath.name.bytes)) = none := by
    rw [hsound₁.ready.catalogLookup_eq, hnames₁, Names.find_drop, if_pos rfl]
  obtain ⟨st', hrun', hsound', hmapping'⟩ :=
    moveEntry hpassed hold₁ hnew₁ hsrc₁ hsound₁ hfree₁ (hmove st₁ hrun)
  refine ⟨st', ?_, hsound', ?_⟩
  · rw [NameStore.replaceEntry, hrun]
    exact hrun'
  · rw [hmapping', hmapping₁, move_remove hpassed.1]

theorem did_renameEntry
    (hfits : st.RenameFits flags src (toLex (a, oldpath.name.bytes)) (toLex (b, newpath.name.bytes))) :
    st.Did (.rename flags oldpath newpath) (st.renameEntry flags src
      (toLex (a, oldpath.name.bytes)) (toLex (b, newpath.name.bytes))) := by
  unfold renameEntry
  have hfound := hsound.mapping_parts_some hold hsrc
  cases hflag : flags.exchange with
  | true =>
    simp only [if_true]
    cases hdst : st.catalogLookup (toLex (b, newpath.name.bytes)) with
    | none => rfl
    | some dst =>
      simp only
      split_ifs with hkind
      · rfl
      · exact did_exchange hpassed hold hnew hsrc hsound hflag hdst (not_not.mp hkind)
          (hfits.exchange hflag dst hdst (not_not.mp hkind))
  | false =>
    simp only [Bool.false_eq_true, if_false]
    split_ifs with hnoreplace hnotdir hisdir hancestor
    · rfl
    · rfl
    · rfl
    · rfl
    · cases hdst : st.catalogLookup (toLex (b, newpath.name.bytes)) with
      | none =>
        obtain ⟨st', hrun, hsound', hmapping⟩ :=
          moveEntry hpassed hold hnew hsrc hsound hdst (hfits.move hflag hdst)
        simp only [hrun]
        refine did_of_none hsound' hmapping (.rename hflag hfound hnew fun t ht ↦ ?_)
        rw [hsound.mapping_parts_none hnew hdst] at ht
        cases ht
      | some dst =>
        rw [hdst] at hnoreplace hnotdir hisdir
        have hreplaces : flags.noreplace = false := by simpa using hnoreplace
        have hkind : src.directoryFlag = dst.directoryFlag := by
          cases hs : src.directoryFlag <;> cases hd : dst.directoryFlag <;> simp_all
        simp only
        by_cases hempty : dst.directoryFlag = true → (st.catalogList dst.inodeId).isEmpty = true
        · obtain ⟨hdrop, hmove⟩ := hfits.replace hflag hreplaces dst hdst hkind hempty
          obtain ⟨st', hrun, hsound', hmapping⟩ :=
            replaceEntry hpassed hold hnew hsrc hsound hdst hempty hdrop hmove
          rw [hrun]
          exact did_of_none hsound' hmapping (.rename hflag hfound hnew fun t ht ↦
            ⟨hreplaces, hsound.place hnew hdst hempty hkind t ht⟩)
        · obtain ⟨hdir, hfull⟩ := Classical.not_imp.mp hempty
          rw [NameStore.replaceEntry, replaceDest, if_pos hdir, NameStore.dropDirectory, if_neg hfull]
          rfl

end Rename

theorem did_rename (hsound : st.Sound) (hpassed : NameCall.Passed (.rename flags oldpath newpath))
    (hcareful : NameCall.Careful st (.rename flags oldpath newpath)) :
    st.Did (.rename flags oldpath newpath) (st.fuseRename flags oldpath.bytes newpath.bytes) := by
  unfold fuseRename
  split_ifs with hothers
  · rfl
  cases hold : st.resolvePath oldpath.bytes with
  | error e => rfl
  | ok oldKey =>
    obtain ⟨a, rfl, holdDir⟩ := hsound.resolvePath hold
    simp only
    cases hsrc : st.catalogLookup (toLex (a, oldpath.name.bytes)) with
    | none => rfl
    | some src =>
      simp only
      cases hnew : st.resolvePath newpath.bytes with
      | error e => rfl
      | ok newKey =>
        obtain ⟨b, rfl, hnewDir⟩ := hsound.resolvePath hnew
        exact did_renameEntry hpassed holdDir hnewDir hsrc hsound (hcareful _ src _ hold hsrc hnew)

/-- One callback. -/
theorem did (hsound : st.Sound) (hpassed : call.Passed) (hcareful : call.Careful st) :
    st.Did call (call.run st) := by
  cases call with
  | create path => exact hsound.did_create hcareful
  | mkdir path => exact hsound.did_mkdir hcareful
  | symlink linkpath => exact hsound.did_symlink hcareful
  | link oldpath newpath => exact hsound.did_link hcareful
  | unlink path => exact hsound.did_unlink hcareful
  | rmdir path => exact hsound.did_rmdir hcareful
  | rename flags oldpath newpath => exact hsound.did_rename hpassed hcareful

end Sound

/-! ### Runs -/

/-- The namespace is a tree: no two records have one key, and every directory but the root has one
name and is reached from the root. -/
structure IsTree (st : NameStore) : Prop where
  keys : (st.catalog.records.map catalogKey).Nodup
  directories : ∀ inodeId inode, st.inodeGet inodeId = some inode → inode.body = .directory →
    inodeId ≠ rootInodeId → st.catalog.records.countP (·.inodeId = inodeId) = 1 ∧
      ∃ path : AbsolutePath, st.lookupPath path.bytes = some (inodeId, true)

/-- What a callback promises: on an error every path leads where it led, and on success the paths
change as they do in a tree of names. -/
def Refines (st : NameStore) (call : NameCall) : Prop :=
  match (call.run st).1 with
  | some _ => ∀ path, (call.run st).2.lookupPath path = st.lookupPath path
  | none => call.OnTree st.mapping (call.run st).2.mapping

/-- Every call of a run passes the kernel and is careful in the state it finds. -/
def AllCareful : List NameCall → NameStore → Prop
  | [], _ => True
  | call :: calls, st => call.Passed ∧ call.Careful st ∧ AllCareful calls (call.run st).2

/-- The one path of an entry. -/
theorem Sound.exists_path (hsound : st.Sound) {r : CatalogRecord} (hr : r ∈ st.names.catalog)
    (hroot : r.inodeId ≠ rootInodeId) :
    ∃ path : AbsolutePath, resolve st.names.entries rootInodeId path.dir = some (r.parentId, true) ∧
      catalogKey r = toLex (r.parentId, path.name.bytes) ∧
      st.lookupPath path.bytes = some r.target := by
  obtain ⟨c, hname, -⟩ := hsound.names.spelled r hr fun heq ↦ hroot (heq ▸ rfl)
  have hkey : catalogKey r = toLex (r.parentId, c.bytes) := by rw [catalogKey, hname]
  have hfind : st.names.entries r.parentId c = some r.target := by
    have hlookup : st.catalogLookup (toLex (r.parentId, c.bytes)) = some r :=
      (Root.mem_lookup hsound.ready.catalog).mpr ⟨hr, hkey⟩
    rw [Names.entries, ← hsound.ready.catalogLookup_eq, hlookup]
    rfl
  obtain ⟨p, hp⟩ := hsound.names.reached _ _ _ hfind
  refine ⟨⟨p, c⟩, hp, hkey, ?_⟩
  rw [lookupPath_bytes, hsound.ready.entries_eq]
  exact (resolve_concat hp c).trans hfind

theorem Sound.isTree (hsound : st.Sound) : st.IsTree where
  keys := (Root.records_pairwise hsound.ready.catalog).imp fun h ↦ h.ne
  directories := by
    intro inodeId inode hinode hdir hroot
    obtain ⟨-, -, hpos⟩ := hsound.names.ids inodeId inode hinode
    -- The inode has a name, which is one of a directory and then its only one.
    have hlinks := hsound.names.counted.counts _ _ (congrArg (Option.map InodeEntry.refCount) hinode)
    obtain ⟨t, ht, hid⟩ := List.countP_pos_iff.mp (hlinks ▸ hpos)
    obtain ⟨r, hr, rfl⟩ := List.mem_map.mp ht
    obtain rfl : r.target.1 = inodeId := by simpa using hid
    have hflag : r.directoryFlag = true := by
      rw [← hsound.names.typed r hr inode hinode, hdir]
      rfl
    have hone := hsound.names.counted.single r.target ht hflag
    refine ⟨?_, ?_⟩
    · rw [links, Names.targets, List.countP_map] at hone
      exact hone
    · obtain ⟨path, -, -, hpath⟩ := hsound.exists_path hr hroot
      rw [CatalogRecord.target, hflag] at hpath
      exact ⟨path, hpath⟩

/-- The paths that lead to an inode, each of them once. -/
def Lists (st : NameStore) (inodeId : ℕ) (paths : List AbsolutePath) : Prop :=
  paths.Nodup ∧ ∀ path, path ∈ paths ↔ ∃ dir, st.lookupPath path.bytes = some (inodeId, dir)

/-- A path determines its entry, and every path to an inode is the one of an entry. -/
theorem Sound.exists_lists (hsound : st.Sound) {inodeId : ℕ} {inode : InodeEntry FileType}
    (hinode : st.inodeGet inodeId = some inode) (hroot : inodeId ≠ rootInodeId) :
    ∃ paths, st.Lists inodeId paths ∧ paths.length = inode.refCount := by
  obtain ⟨named, hnamed⟩ : ∃ named, st.names.catalog.filter (·.inodeId = inodeId) = named :=
    ⟨_, rfl⟩
  have hmem (r : CatalogRecord) : r ∈ named ↔ r ∈ st.names.catalog ∧ r.inodeId = inodeId := by
    simp [← hnamed]
  have hkeys : (st.names.catalog.map catalogKey).Nodup := hsound.names.sorted.imp fun h ↦ h.ne
  have : Nonempty AbsolutePath := ⟨[], [100], by decide⟩
  choose! path hdir hkey hpath using fun r hr ↦
    hsound.exists_path ((hmem r).mp hr).1 (((hmem r).mp hr).2 ▸ hroot)
  refine ⟨named.map path, ⟨?_, fun ⟨dir, name⟩ ↦ ?_⟩, ?_⟩
  · refine List.Nodup.map_on (fun r hr r' hr' hsame ↦ ?_) (hnamed ▸ (hkeys.of_map _).filter _)
    have hparent := (hdir r hr).symm.trans (hsame ▸ hdir r' hr')
    refine List.inj_on_of_nodup_map hkeys ((hmem r).mp hr).1 ((hmem r').mp hr').1 ?_
    rw [hkey r hr, hkey r' hr', hsame, (Prod.mk.inj (Option.some.inj hparent)).1]
  · rw [List.mem_map]
    constructor
    · rintro ⟨r, hr, hr'⟩
      obtain ⟨-, rfl⟩ := (hmem r).mp hr
      exact ⟨_, hr' ▸ hpath r hr⟩
    · rintro ⟨flag, hto⟩
      rw [lookupPath_bytes, hsound.ready.entries_eq, AbsolutePath.parts, resolve_append] at hto
      obtain ⟨d, hd, hentry⟩ := follow_eq_some.mp hto
      obtain ⟨r, hfind, htarget⟩ := Option.map_eq_some_iff.mp hentry
      obtain ⟨hcatalog, hrkey⟩ := Names.mem_of_find hfind
      have hr := (hmem r).mpr ⟨hcatalog, (Prod.mk.inj htarget).1⟩
      obtain ⟨rfl, hbytes⟩ := Prod.mk.inj (toLex.injective ((hkey r hr).symm.trans hrkey))
      have hsame : (path r).dir = dir := hsound.names.single.resolve_injective (hdir r hr) hd
      have hname : (path r).name = name := Component.bytes_injective hbytes
      exact ⟨r, hr, by rw [← hsame, ← hname]⟩
  · have hlinks := hsound.names.counted.counts _ _ (congrArg (Option.map InodeEntry.refCount) hinode)
    rw [links, Names.targets, List.countP_map, List.countP_eq_length_filter] at hlinks
    rw [List.length_map, ← hnamed, hlinks]
    rfl

variable {call : NameCall}

theorem Sound.step (hsound : st.Sound) (hpassed : call.Passed) (hcareful : call.Careful st) :
    (call.run st).2.Sound := by
  have hdid := hsound.did hpassed hcareful
  unfold Did at hdid
  split at hdid
  · rw [hdid]
    exact hsound
  · exact hdid.1

theorem Sound.run {calls : List NameCall} (hsound : st.Sound) (hcareful : AllCareful calls st) :
    (runNames calls st).Sound := by
  induction calls generalizing st with
  | nil => exact hsound
  | cons call calls ih => exact ih (hsound.step hcareful.1 hcareful.2.1) hcareful.2.2

theorem Sound.refines (hsound : st.Sound) (hpassed : call.Passed) (hcareful : call.Careful st) :
    st.Refines call := by
  have hdid := hsound.did hpassed hcareful
  unfold Did at hdid
  unfold Refines
  split at hdid
  · exact fun path ↦ by rw [hdid]
  · exact hdid.2

/-- A volume as it is created: the root directory with its entry. -/
def fresh (blockSize : ℕ) (diskImageMaps : List (List ℕ × ℕ)) : NameStore where
  blockSize := blockSize
  catalog := .node 0 ((), [rootRecord])
  inodes := .node 0 ((), [⟨rootInodeId, 1, .directory⟩])
  nextInodeId := 3
  diskImageMaps := diskImageMaps

theorem fresh_sound {blockSize : ℕ} (hlow : 614 ≤ blockSize) (hhigh : blockSize ≤ 2 ^ 16)
    (diskImageMaps : List (List ℕ × ℕ)) : (fresh blockSize diskImageMaps).Sound where
  ready := by
    have hcatalog : catalogTable.Fits blockSize :=
      NameTable.fits_of_sizes hlow hhigh (by decide) (by decide)
    have hinodes : inodeTable.Fits blockSize :=
      NameTable.fits_of_sizes hlow hhigh (by decide) (by decide)
    exact ⟨hcatalog, hinodes, List.pairwise_singleton _ _, List.pairwise_singleton _ _⟩
  names := by
    have hinode (inodeId : ℕ) (inode : InodeEntry FileType)
        (hget : (fresh blockSize diskImageMaps).inodeGet inodeId = some inode) :
        inode = ⟨rootInodeId, 1, .directory⟩ ∧ inodeId = rootInodeId := by
      obtain ⟨hmem, hid⟩ := (Root.mem_lookup
        (show (fresh blockSize diskImageMaps).inodes.Ordered InodeEntry.inodeId from
          List.pairwise_singleton _ _)).mp hget
      obtain rfl := List.mem_singleton.mp hmem
      exact ⟨rfl, hid.symm⟩
    refine ⟨List.pairwise_singleton _ _, ?_, ⟨?_, ?_, ?_⟩, ?_, List.mem_singleton_self _, ?_, ?_⟩
    · intro inodeId inode hget
      obtain ⟨rfl, rfl⟩ := hinode inodeId inode hget
      exact ⟨rfl, Nat.lt_succ_self 2, Nat.one_pos⟩
    · intro inodeId c hc
      obtain ⟨inode, hget, rfl⟩ := Option.map_eq_some_iff.mp hc
      obtain ⟨rfl, rfl⟩ := hinode inodeId inode hget
      rfl
    · intro n hn
      obtain rfl := List.mem_singleton.mp hn
      exact Option.some_ne_none 1
    · intro n hn _
      obtain rfl := List.mem_singleton.mp hn
      rfl
    · intro r hr inode hget
      obtain rfl := List.mem_singleton.mp hr
      obtain ⟨rfl, -⟩ := hinode rootInodeId inode hget
      rfl
    · intro r hr hne
      exact absurd (List.mem_singleton.mp hr) hne
    · intro d c t hentry
      obtain ⟨r, hr, -⟩ := Option.map_eq_some_iff.mp hentry
      obtain ⟨hmem, hkey⟩ := Names.mem_of_find hr
      obtain rfl := List.mem_singleton.mp hmem
      exact absurd hkey.symm (Names.key_ne_root d c)

/-- After a run of careful callbacks from a fresh volume the namespace is a tree, and a further
careful callback does to it what the operation does to a tree of names, or nothing. -/
theorem namespace_tree {blockSize : ℕ} (hlow : 614 ≤ blockSize) (hhigh : blockSize ≤ 2 ^ 16)
    (diskImageMaps : List (List ℕ × ℕ)) {calls : List NameCall}
    (hcareful : AllCareful calls (fresh blockSize diskImageMaps)) :
    (runNames calls (fresh blockSize diskImageMaps)).IsTree ∧ ∀ call : NameCall, call.Passed →
        call.Careful (runNames calls (fresh blockSize diskImageMaps)) →
          (runNames calls (fresh blockSize diskImageMaps)).Refines call := by
  have hsound := (fresh_sound hlow hhigh diskImageMaps).run hcareful
  exact ⟨hsound.isTree, fun call hpassed hcall ↦ hsound.refines hpassed hcall⟩

/-! ### A directory with a file in it -/

def pathD : AbsolutePath := ⟨[], ⟨[100], by decide⟩⟩
def pathDF : AbsolutePath := ⟨[⟨[100], by decide⟩], ⟨[102], by decide⟩⟩

variable {path : AbsolutePath}

/-- A new name in trees of one leaf each. -/
theorem addFits_leaf {fileType : FileType} {key : CatalogKey}
    {catalogLeaf : Unit × List CatalogRecord} {inodeLeaf : Unit × List (InodeEntry FileType)}
    (hkey : st.resolvePath path.bytes = .ok key) (hname : path.name.bytes.length ≤ 255)
    (hids : st.nextInodeId + 1 < 2 ^ 64) (hcatalog : st.catalog = .node 0 catalogLeaf)
    (hinodes : st.inodes = .node 0 inodeLeaf) : st.AddFits fileType key := by
  obtain ⟨b, rfl, -⟩ := resolvePath_eq_ok.mp hkey
  exact ⟨hname, hids, hinodes ▸ NameTable.accepts_leaf _, hcatalog ▸ NameTable.accepts_leaf _⟩

theorem namespace_tree_two : (runNames [.mkdir pathD] (fresh 4096 [])).IsTree ∧
      (runNames [.mkdir pathD] (fresh 4096 [])).Refines (.create pathDF) := by
  have hcareful : AllCareful [.mkdir pathD] (fresh 4096 []) :=
    ⟨trivial, fun key hkey _ ↦ addFits_leaf hkey (by decide) (by decide) rfl rfl, trivial⟩
  have htree := namespace_tree (by decide) (by decide) [] hcareful
  refine ⟨htree.1, htree.2 (.create pathDF) trivial fun key hkey _ ↦ ?_⟩
  exact addFits_leaf hkey (by decide) (by decide) rfl rfl

/-- After a run of careful callbacks from a fresh volume an inode has as many links as there are
paths that lead to it. -/
theorem links_are_paths {blockSize : ℕ} (hlow : 614 ≤ blockSize) (hhigh : blockSize ≤ 2 ^ 16)
    (diskImageMaps : List (List ℕ × ℕ)) {calls : List NameCall}
    (hcareful : AllCareful calls (fresh blockSize diskImageMaps)) {inodeId : ℕ}
    {inode : InodeEntry FileType} (hroot : inodeId ≠ rootInodeId)
    (hinode : (runNames calls (fresh blockSize diskImageMaps)).inodeGet inodeId = some inode) :
    ∃ paths, (runNames calls (fresh blockSize diskImageMaps)).Lists inodeId paths ∧
      paths.length = inode.refCount :=
  ((fresh_sound hlow hhigh diskImageMaps).run hcareful).exists_lists hinode hroot

theorem links_are_paths_one :
    ∃ paths, (runNames [.mkdir pathD] (fresh 4096 [])).Lists 3 paths ∧ paths.length = 1 := by
  have hcareful : AllCareful [.mkdir pathD] (fresh 4096 []) :=
    ⟨trivial, fun key hkey _ ↦ addFits_leaf hkey (by decide) (by decide) rfl rfl, trivial⟩
  have hinode : (runNames [.mkdir pathD] (fresh 4096 [])).inodeGet 3 = some ⟨3, 1, .directory⟩ :=
    rfl
  exact links_are_paths (by decide) (by decide) [] hcareful (by decide) hinode

/-! ### A name that is cut -/

/-- No path with a name of more than 255 bytes leads anywhere. -/
theorem Ready.lookupPath_long (hready : st.Ready)
    (hnames : ∀ r ∈ st.names.catalog, r.name.length ≤ 255) (hlong : 255 < path.name.bytes.length) :
    st.lookupPath path.bytes = none := by
  rw [lookupPath_bytes]
  refine Option.eq_none_iff_forall_ne_some.mpr fun t hpath ↦ ?_
  rw [AbsolutePath.parts, resolve_append] at hpath
  obtain ⟨d, -, hentry⟩ := follow_eq_some.mp hpath
  rw [hready.entries_eq] at hentry
  obtain ⟨r, hr, -⟩ := Option.map_eq_some_iff.mp hentry
  obtain ⟨hmem, hkey⟩ := Names.mem_of_find hr
  have hname : r.name = path.name.bytes := (Prod.mk.inj (toLex.injective hkey)).2
  have hle := hnames r hmem
  rw [hname] at hle
  omega

theorem Sound.name_length (hsound : st.Sound) (r : CatalogRecord) (hr : r ∈ st.names.catalog) :
    r.name.length ≤ 255 := by
  by_cases hroot : r = rootRecord
  · rw [hroot]
    decide
  · obtain ⟨c, hname, hlen⟩ := hsound.names.spelled r hr hroot
    rw [hname]
    exact hlen

section

variable (hsound : st.Sound) (hlong : 255 < path.name.bytes.length)
include hsound hlong

/-- The creation of a file with a longer name succeeds, and its path leads nowhere. -/
theorem Sound.create_long {b : ℕ} (hdir : st.mapping path.dir = some (b, true))
    (hids : st.nextInodeId + 1 < 2 ^ 64)
    (hinodes : ∀ fileType, inodeTable.Accepts st.blockSize ⟨st.nextInodeId, 1, fileType⟩ st.inodes)
    (hcatalog : ∀ record, catalogTable.Accepts st.blockSize record st.catalog) :
    (st.fuseCreate path.bytes).1 = none ∧
      (st.fuseCreate path.bytes).2.lookupPath path.bytes = none := by
  have hkey : st.resolvePath path.bytes = .ok (toLex (b, path.name.bytes)) := by
    refine resolvePath_eq_ok.mpr ⟨b, rfl, ?_⟩
    rw [hsound.ready.entries_eq]
    exact (congrFun hsound.mapping_eq _).symm.trans hdir
  have hnone := hsound.ready.lookupPath_long hsound.name_length hlong
  have hfree : st.catalogLookup (toLex (b, path.name.bytes)) = none := by
    rw [lookupPath, hkey] at hnone
    exact Option.map_eq_none_iff.mp hnone
  obtain ⟨st', hrun, hready, hnames⟩ :=
    hsound.ready.addInode hfree hids (hinodes (st.createType path.name.bytes)) (hcatalog _)
  have hcreate : st.fuseCreate path.bytes = (none, st') := by
    rw [fuseCreate, hkey]
    exact hrun
  rw [hcreate]
  refine ⟨rfl, hready.lookupPath_long (fun r hr ↦ ?_) hlong⟩
  rw [hnames] at hr
  rcases Names.mem_enter hr with rfl | hr
  · exact List.length_take_le 255 _
  · exact hsound.name_length r hr

theorem Sound.not_refines_long {b : ℕ} (hdir : st.mapping path.dir = some (b, true))
    (hids : st.nextInodeId + 1 < 2 ^ 64)
    (hinodes : ∀ fileType, inodeTable.Accepts st.blockSize ⟨st.nextInodeId, 1, fileType⟩ st.inodes)
    (hcatalog : ∀ record, catalogTable.Accepts st.blockSize record st.catalog) :
    ¬st.Refines (.create path) := by
  obtain ⟨hdone, hnowhere⟩ := hsound.create_long hlong hdir hids hinodes hcatalog
  intro hrefines
  unfold Refines at hrefines
  change (st.fuseCreate path.bytes).2.lookupPath (bytesBelow path.parts) = none at hnowhere
  simp only [NameCall.run, hdone] at hrefines
  have hmapping : (st.fuseCreate path.bytes).2.mapping path.parts = none := by
    have hparts : path.parts ≠ [] := by simp [AbsolutePath.parts]
    rw [mapping, pathBytes, if_neg hparts, hnowhere]
  generalize (st.fuseCreate path.bytes).2.mapping = m at hmapping hrefines
  cases hrefines with
  | create =>
    rw [enter, Function.update_self] at hmapping
    cases hmapping

end

/-- A name of 256 bytes. -/
def longName : Component :=
  ⟨List.replicate 256 97, List.ne_nil_of_length_pos (by rw [List.length_replicate]; decide),
    fun b hb ↦ by
      obtain rfl := List.eq_of_mem_replicate hb
      decide⟩

theorem length_longName : longName.bytes.length = 256 := List.length_replicate

/-- `create` of a file with such a name in the root of a fresh volume. -/
theorem namespace_tree_cut : ¬(fresh 4096 []).Refines (.create ⟨[], longName⟩) := by
  have hsound : (fresh 4096 []).Sound := fresh_sound (by decide) (by decide) []
  have hlong : 255 < longName.bytes.length := by
    rw [length_longName]
    decide
  have hroot : (fresh 4096 []).mapping [] = some (rootInodeId, true) := by
    rw [hsound.mapping_eq]
    rfl
  exact hsound.not_refines_long hlong hroot (by decide) (fun _ ↦ NameTable.accepts_leaf _)
    fun _ ↦ NameTable.accepts_leaf _

end NameStore

end Obmafs3
