import Obmafs3.Namespace.Rename

/-!
# Link counts

The stored link count of an inode is the number of entries that name it. A callback that moves a
name takes it out of the catalog first, or raises the count before it enters a new one, so between
its steps some names are in transit: they count, but are not in the catalog. `Linked` is the
invariant with the names in transit as a parameter, and each step of a callback keeps it for a
parameter of its own.

A handle breaks it: it writes the inode back as it was when the file was opened, with the link
count of that time.
-/

set_option autoImplicit false

namespace Obmafs3

open Library.SearchTree
open Function (update update_of_ne update_self)

/-! ### Counting names -/

/-- The names of an inode. A name is an inode id with the directory flag. -/
def links (names : List (ℕ × Bool)) (inodeId : ℕ) : ℕ := names.countP (·.1 = inodeId)

/-- Every inode counts its names, every name has an inode, and the name of a directory is its only
one. -/
structure Counted (names : List (ℕ × Bool)) (refCount : ℕ → Option ℕ) : Prop where
  counts : ∀ inodeId c, refCount inodeId = some c → c = links names inodeId
  named : ∀ n ∈ names, refCount n.1 ≠ none
  single : ∀ n ∈ names, n.2 = true → links names n.1 = 1

@[simp] theorem links_cons (n : ℕ × Bool) (names : List (ℕ × Bool)) (inodeId : ℕ) :
    links (n :: names) inodeId = links names inodeId + if n.1 = inodeId then 1 else 0 := by
  simp [links, List.countP_cons]

theorem links_pos {names : List (ℕ × Bool)} {n : ℕ × Bool} (hn : n ∈ names) : 0 < links names n.1 :=
  List.countP_pos_iff.mpr ⟨n, hn, by simp⟩

namespace Counted

variable {names names' : List (ℕ × Bool)} {refCount : ℕ → Option ℕ} {n : ℕ × Bool} {c : ℕ}

section

variable (hcounted : Counted names refCount)
include hcounted

theorem perm (hperm : names.Perm names') : Counted names' refCount where
  counts := fun inodeId c hc ↦ (hcounted.counts inodeId c hc).trans (hperm.countP_eq _)
  named := fun n hn ↦ hcounted.named n (hperm.mem_iff.mpr hn)
  single := fun n hn hdir ↦
    (hperm.countP_eq _).symm.trans (hcounted.single n (hperm.mem_iff.mpr hn) hdir)

theorem links_eq_zero {inodeId : ℕ}
    (hnone : refCount inodeId = none) : links names inodeId = 0 := by
  refine List.countP_eq_zero.mpr fun m hm ↦ ?_
  simp only [decide_eq_true_eq]
  rintro rfl
  exact hcounted.named m hm hnone

/-- One more name for an inode that counts it. -/
theorem cons (hcount : c = links names n.1 + 1)
    (hsingle : ∀ m ∈ n :: names, m.2 = true → links (n :: names) m.1 = 1) :
    Counted (n :: names) (update refCount n.1 (some c)) where
  counts := by
    intro inodeId c' hc'
    rw [links_cons]
    rcases eq_or_ne inodeId n.1 with rfl | hne
    · rw [update_self] at hc'
      rw [if_pos rfl, ← hcount]
      exact (Option.some.inj hc').symm
    · rw [update_of_ne hne] at hc'
      rw [if_neg hne.symm]
      exact hcounted.counts inodeId c' hc'
  named := by
    intro m hm
    rcases eq_or_ne m.1 n.1 with heq | hne
    · simp [heq]
    · rw [update_of_ne hne]
      rcases List.mem_cons.mp hm with rfl | hm
      · exact absurd rfl hne
      · exact hcounted.named m hm
  single := hsingle

/-- A new inode with its first name. -/
theorem create (hnone : refCount n.1 = none) :
    Counted (n :: names) (update refCount n.1 (some 1)) := by
  have hzero := hcounted.links_eq_zero hnone
  refine hcounted.cons (by rw [hzero]) fun m hm hdir ↦ ?_
  rw [links_cons]
  rcases List.mem_cons.mp hm with rfl | hm
  · rw [if_pos rfl, hzero]
  · have hne : n.1 ≠ m.1 := fun heq ↦ hcounted.named m hm (heq ▸ hnone)
    rw [if_neg hne]
    exact hcounted.single m hm hdir

/-- One more name for a file. -/
theorem link (hn : n ∈ names) (hfile : n.2 = false) (hc : refCount n.1 = some c) :
    Counted (n :: names) (update refCount n.1 (some (c + 1))) := by
  refine hcounted.cons (by rw [hcounted.counts n.1 c hc]) fun m hm hdir ↦ ?_
  rw [links_cons]
  rcases List.mem_cons.mp hm with rfl | hm
  · rw [hfile] at hdir
    cases hdir
  · -- The name of a directory is its only one, so it is not of the file.
    have hne : n.1 ≠ m.1 := by
      intro heq
      have hone := hcounted.single m hm hdir
      have hperm : names.Perm (m :: names.erase m) := List.perm_cons_erase hm
      have hother : n ∈ names.erase m := by
        refine (List.mem_erase_of_ne ?_).mpr hn
        rintro rfl
        rw [hfile] at hdir
        cases hdir
      have hpos := links_pos hother
      rw [show links names m.1 = _ from hperm.countP_eq _] at hone
      change links (m :: names.erase m) m.1 = 1 at hone
      rw [links_cons, if_pos rfl, ← heq] at hone
      omega
    rw [if_neg hne]
    exact hcounted.single m hm hdir

end

variable (hcounted : Counted (n :: names) refCount)
include hcounted

/-- One name less for a file that has others. -/
theorem unlink (hc : refCount n.1 = some c) (hmore : 1 < c) :
    Counted names (update refCount n.1 (some (c - 1))) where
  counts := by
    intro inodeId c' hc'
    rcases eq_or_ne inodeId n.1 with rfl | hne
    · rw [update_self] at hc'
      have hcount := hcounted.counts n.1 c hc
      rw [links_cons, if_pos rfl] at hcount
      rw [← Option.some.inj hc']
      omega
    · rw [update_of_ne hne] at hc'
      have hcount := hcounted.counts inodeId c' hc'
      rwa [links_cons, if_neg hne.symm] at hcount
  named := by
    intro m hm
    rcases eq_or_ne m.1 n.1 with heq | hne
    · simp [heq]
    · rw [update_of_ne hne]
      exact hcounted.named m (List.mem_cons_of_mem _ hm)
  single := by
    intro m hm hdir
    have hone := hcounted.single m (List.mem_cons_of_mem _ hm) hdir
    have hpos := links_pos hm
    rw [links_cons] at hone
    omega

/-- The last name of an inode goes with it. -/
theorem remove (hlast : links names n.1 = 0) : Counted names (update refCount n.1 none) where
  counts := by
    intro inodeId c hc
    rcases eq_or_ne inodeId n.1 with rfl | hne
    · rw [update_self] at hc
      cases hc
    · rw [update_of_ne hne] at hc
      have hcount := hcounted.counts inodeId c hc
      rwa [links_cons, if_neg hne.symm] at hcount
  named := by
    intro m hm
    have hne : m.1 ≠ n.1 := by
      intro heq
      have hpos := links_pos hm
      rw [heq] at hpos
      omega
    rw [update_of_ne hne]
    exact hcounted.named m (List.mem_cons_of_mem _ hm)
  single := by
    intro m hm hdir
    have hone := hcounted.single m (List.mem_cons_of_mem _ hm) hdir
    have hpos := links_pos hm
    rw [links_cons] at hone
    omega

end Counted

/-! ### The two tables -/

/-- The name in a catalog entry. -/
def CatalogRecord.target (r : CatalogRecord) : ℕ × Bool := (r.inodeId, r.directoryFlag)

variable {catalog : List CatalogRecord}

variable {record : CatalogRecord} {key : CatalogKey}

/-- Taking an entry out of the catalog. -/
theorem perm_withoutKey {entry : CatalogRecord}
    (hsorted : (catalog.map catalogKey).Pairwise (· < ·))
    (hfound : catalog.find? (catalogKey · = key) = some entry) :
    catalog.Perm (entry :: withoutKey key catalog) := by
  have hkey : catalogKey entry = key := by simpa using List.find?_some hfound
  obtain ⟨before, after, rfl⟩ := List.append_of_mem (List.mem_of_find?_eq_some hfound)
  rw [List.map_append, List.map_cons] at hsorted
  obtain ⟨-, hafter, hbefore⟩ := List.pairwise_append.mp hsorted
  have hkeep (part : List CatalogRecord) (hpart : ∀ r ∈ part, catalogKey r ≠ key) :
      withoutKey key part = part :=
    List.filter_eq_self.mpr fun r hr ↦ by simpa using hpart r hr
  have hleft := hkeep before fun r hr ↦
    hkey ▸ (hbefore _ (List.mem_map_of_mem hr) _ List.mem_cons_self).ne
  have hright := hkeep after fun r hr ↦
    hkey ▸ (List.rel_of_pairwise_cons hafter (List.mem_map_of_mem hr)).ne'
  have heq : withoutKey key (before ++ entry :: after) = before ++ after := by
    unfold withoutKey at hleft hright ⊢
    rw [List.filter_append, List.filter_cons_of_neg (by simpa using hkey), hleft, hright]
  rw [heq]
  exact List.perm_middle

/-- Entering a record in the catalog. -/
theorem perm_upsert (hnone : catalog.find? (catalogKey · = catalogKey record) = none) :
    (upsert catalogKey record catalog).Perm (record :: catalog) := by
  have hne : ∀ r ∈ catalog, catalogKey r ≠ catalogKey record := by
    simpa using List.find?_eq_none.mp hnone
  have hright : catalog.filter (catalogKey record < catalogKey ·) =
      catalog.filter fun r ↦ !decide (catalogKey r < catalogKey record) := by
    refine List.filter_congr fun r hr ↦ ?_
    rw [← decide_not, decide_eq_decide, not_lt]
    exact (hne r hr).symm.le_iff_lt.symm
  refine List.perm_middle.trans (List.Perm.cons record ?_)
  rw [hright]
  exact List.filter_append_perm _ _

theorem find?_upsert_of_ne (hne : catalogKey record ≠ key) :
    (upsert catalogKey record catalog).find? (catalogKey · = key) =
      catalog.find? (catalogKey · = key) := by
  have hfind := @find?_upsert _ _ _ catalogKey record catalog key
  rw [if_neg hne] at hfind
  -- The two sides decide equality of keys by different instances.
  convert hfind

namespace Mounted

variable {β : Type} {st : Mounted β} {moving : List (ℕ × Bool)} {key oldKey newKey : CatalogKey}

/-- The link counts of the inode table. -/
def refCounts (st : Mounted β) (inodeId : ℕ) : Option ℕ :=
  (st.inodeGet inodeId).map InodeEntry.refCount

/-- The invariant of a volume on which nothing is refused, with the names in transit. -/
structure Linked (moving : List (ℕ × Bool)) (st : Mounted β) : Prop where
  catalogRoom : ∀ catalog record, st.catalogRefuses catalog record = none
  inodesRoom : ∀ inodes inode, st.inodesRefuse inodes inode = none
  sorted : (st.catalog.map catalogKey).Pairwise (· < ·)
  names : ∀ r ∈ st.catalog, r.name.length ≤ 255
  fresh : ∀ inode ∈ st.inodes, inode.inodeId < st.nextInodeId
  counted : Counted (moving ++ st.catalog.map CatalogRecord.target) st.refCounts

theorem refCounts_upsert (inode : InodeEntry β) :
    refCounts { st with inodes := upsert InodeEntry.inodeId inode st.inodes } =
      update st.refCounts inode.inodeId (some inode.refCount) := by
  funext inodeId
  rw [refCounts, inodeGet, find?_upsert]
  rcases eq_or_ne inodeId inode.inodeId with rfl | hne
  · rw [if_pos rfl, update_self]
    rfl
  · rw [if_neg hne.symm, update_of_ne hne]
    rfl

theorem refCounts_filter (inodeId : ℕ) :
    refCounts { st with inodes := st.inodes.filter (·.inodeId ≠ inodeId) } =
      update st.refCounts inodeId none := by
  funext x
  rw [refCounts, inodeGet, List.find?_filter]
  rcases eq_or_ne x inodeId with rfl | hne
  · rw [update_self, Option.map_eq_none_iff, List.find?_eq_none]
    intro inode _
    simp
  · rw [update_of_ne hne, refCounts, inodeGet]
    congr 2
    funext inode
    by_cases hx : inode.inodeId = x
    · simpa [hx] using hne
    · simp [hx]

theorem refCounts_eq {inodeId : ℕ} {inode : InodeEntry β} (hget : st.inodeGet inodeId = some inode) :
    st.refCounts inode.inodeId = some inode.refCount ∧ inode.inodeId = inodeId := by
  have hid : inode.inodeId = inodeId := by simpa using List.find?_some hget
  rw [hid, refCounts, hget]
  exact ⟨rfl, rfl⟩

namespace Linked

theorem not_mem_next (hlinked : Linked moving st) : st.refCounts st.nextInodeId = none := by
  rw [refCounts, Option.map_eq_none_iff, inodeGet, List.find?_eq_none]
  intro inode hinode
  simpa using (hlinked.fresh inode hinode).ne

/-- An entry leaves the catalog. -/
theorem delete (hlinked : Linked moving st) {entry : CatalogRecord}
    (hfound : st.catalogLookup key = some entry) :
    Linked (entry.target :: moving) { st with catalog := withoutKey key st.catalog } where
  catalogRoom := hlinked.catalogRoom
  inodesRoom := hlinked.inodesRoom
  sorted := hlinked.sorted.sublist (List.filter_sublist.map _)
  names := fun r hr ↦ hlinked.names r (mem_withoutKey.mp hr).1
  fresh := hlinked.fresh
  counted := by
    have hperm := (perm_withoutKey hlinked.sorted hfound).map CatalogRecord.target
    exact hlinked.counted.perm ((hperm.append_left moving).trans List.perm_middle)

/-- A name enters the catalog. -/
theorem insert (record : CatalogRecord) (hlinked : Linked (record.target :: moving) st)
    (hfree : st.catalogLookup (catalogKey record) = none) (hname : record.name.length ≤ 255) :
    Linked moving { st with catalog := upsert catalogKey record st.catalog } where
  catalogRoom := hlinked.catalogRoom
  inodesRoom := hlinked.inodesRoom
  sorted := upsert_pairwise hlinked.sorted
  names := by
    intro r hr
    rcases mem_of_mem_upsert hr with rfl | hr
    · exact hname
    · exact hlinked.names r hr
  fresh := hlinked.fresh
  counted := by
    have hperm := (perm_upsert hfree).map CatalogRecord.target
    exact hlinked.counted.perm (List.perm_middle.symm.trans (hperm.append_left moving).symm)

/-- An inode record is written. -/
theorem putInode (hlinked : Linked moving st) (moving' : List (ℕ × Bool)) (inode : InodeEntry β)
    (hid : inode.inodeId < st.nextInodeId)
    (hcounted : Counted (moving' ++ st.catalog.map CatalogRecord.target)
      (update st.refCounts inode.inodeId (some inode.refCount))) :
    Linked moving' { st with inodes := upsert InodeEntry.inodeId inode st.inodes } where
  catalogRoom := hlinked.catalogRoom
  inodesRoom := hlinked.inodesRoom
  sorted := hlinked.sorted
  names := hlinked.names
  fresh := by
    intro x hx
    rcases mem_of_mem_upsert hx with rfl | hx
    · exact hid
    · exact hlinked.fresh x hx
  counted := refCounts_upsert inode ▸ hcounted

/-- The last name of an inode goes, and the inode with it. -/
theorem deleteInode {n : ℕ × Bool} (hlinked : Linked (n :: moving) st)
    (hlast : links (moving ++ st.catalog.map CatalogRecord.target) n.1 = 0) :
    Linked moving { st with inodes := st.inodes.filter (·.inodeId ≠ n.1) } where
  catalogRoom := hlinked.catalogRoom
  inodesRoom := hlinked.inodesRoom
  sorted := hlinked.sorted
  names := hlinked.names
  fresh := fun inode hinode ↦ hlinked.fresh inode (List.mem_filter.mp hinode).1
  counted := by
    rw [refCounts_filter]
    exact hlinked.counted.remove hlast

theorem inodePut_eq (hlinked : Linked moving st) (inode : InodeEntry β) :
    st.inodePut inode = .ok { st with inodes := upsert InodeEntry.inodeId inode st.inodes } := by
  rw [inodePut, hlinked.inodesRoom]
  cases st.inodeGet inode.inodeId <;> rfl

theorem catalogInsert_eq (hlinked : Linked moving st) (record : CatalogRecord) :
    st.catalogInsert record = .ok { st with catalog := upsert catalogKey record st.catalog } := by
  rw [catalogInsert, hlinked.catalogRoom]

variable {inodeId : ℕ}

variable {inode : InodeEntry β}

section

variable (hlinked : Linked moving st)
include hlinked

theorem inodeGet_lt (hget : st.inodeGet inodeId = some inode) : inode.inodeId < st.nextInodeId :=
  hlinked.fresh inode (List.mem_of_find?_eq_some hget)

theorem setHandle (fh : ℕ) (handle : Option (Handle β)) : Linked moving (st.setHandle fh handle) :=
  ⟨hlinked.catalogRoom, hlinked.inodesRoom, hlinked.sorted, hlinked.names, hlinked.fresh,
    hlinked.counted⟩

/-- An inode is written back with the link count that is stored. -/
theorem writeBack (hcount : st.refCounts inode.inodeId = some inode.refCount) :
    Linked moving { st with inodes := upsert InodeEntry.inodeId inode st.inodes } := by
  refine hlinked.putInode moving inode ?_ ?_
  · obtain ⟨stored, hget, -⟩ := Option.map_eq_some_iff.mp hcount
    exact (refCounts_eq hget).2 ▸ hlinked.inodeGet_lt hget
  · rw [Function.update_eq_self_iff.mpr hcount.symm]
    exact hlinked.counted

end

/-- A name of a file goes. -/
theorem dropLink (hlinked : Linked ((inodeId, false) :: moving) st) :
    Linked moving (st.dropLink inodeId).2 := by
  obtain ⟨c, hc⟩ := Option.ne_none_iff_exists'.mp
    (hlinked.counted.named (inodeId, false) (by simp))
  obtain ⟨inode, hget, rfl⟩ := Option.map_eq_some_iff.mp hc
  have hid := (refCounts_eq hget).2
  unfold Mounted.dropLink
  simp only [hget]
  split_ifs with hmore
  · rw [hlinked.inodePut_eq]
    have hlt : inode.inodeId < st.nextInodeId := hlinked.inodeGet_lt hget
    refine hlinked.putInode moving _ hlt ?_
    exact hid ▸ hlinked.counted.unlink (hid.symm ▸ hc) hmore
  · simp only [inodeDelete, hget]
    refine hlinked.deleteInode (n := (inodeId, false)) ?_
    have hcount := hlinked.counted.counts inodeId _ hc
    rw [List.cons_append, links_cons, if_pos rfl] at hcount
    change links _ inodeId = 0
    omega

/-- The only name of a directory goes, and its inode. -/
theorem dropDirectory (hlinked : Linked ((inodeId, true) :: moving) st) :
    Linked moving (orEio (st.inodeDelete inodeId)).2 := by
  obtain ⟨c, hc⟩ := Option.ne_none_iff_exists'.mp
    (hlinked.counted.named (inodeId, true) (by simp))
  obtain ⟨inode, hget, rfl⟩ := Option.map_eq_some_iff.mp hc
  simp only [inodeDelete, hget]
  refine hlinked.deleteInode (n := (inodeId, true)) ?_
  have hone := hlinked.counted.single (inodeId, true) (by simp) rfl
  change links ((inodeId, true) :: (moving ++ st.catalog.map CatalogRecord.target)) inodeId = 1
    at hone
  rw [links_cons, if_pos rfl] at hone
  change links _ inodeId = 0
  omega

end Linked

/-! ### The callbacks -/

/-- The key under which a new name is entered. -/
def cutKey (key : CatalogKey) : CatalogKey := toLex ((ofLex key).1, (ofLex key).2.take 255)

/-- A new name is entered under its own key, or under a key that is free. -/
def NameFits (st : Mounted β) (key : CatalogKey) : Prop :=
  (ofLex key).2.length ≤ 255 ∨ st.catalogLookup (cutKey key) = none

theorem cutKey_eq (hname : (ofLex key).2.length ≤ 255) : cutKey key = key :=
  newRecord_key 0 false hname

theorem NameFits.free (hfits : st.NameFits key) (hnone : st.catalogLookup key = none) :
    st.catalogLookup (cutKey key) = none := by
  rcases hfits with hname | hfree
  · rwa [cutKey_eq hname]
  · exact hfree

theorem newRecord_name_length (inodeId : ℕ) (key : CatalogKey) (directoryFlag : Bool) :
    (newRecord inodeId key directoryFlag).name.length ≤ 255 :=
  List.length_take_le 255 _

namespace Linked

theorem fuseCreate (hlinked : Linked [] st) (fh : ℕ) (body : β) (hfits : st.NameFits key) :
    Linked [] (st.fuseCreate fh key body).2 := by
  unfold Mounted.fuseCreate
  cases hlookup : st.catalogLookup key with
  | some entry => exact hlinked
  | none =>
    have hnext : Linked [] { st with nextInodeId := st.nextInodeId + 1 } :=
      ⟨hlinked.catalogRoom, hlinked.inodesRoom, hlinked.sorted, hlinked.names,
        fun inode hinode ↦ (hlinked.fresh inode hinode).trans (Nat.lt_succ_self _),
        hlinked.counted⟩
    simp only [hnext.inodePut_eq]
    have hput := hnext.putInode [(newRecord st.nextInodeId key false).target]
      ⟨st.nextInodeId, 1, body⟩ (Nat.lt_succ_self _)
      (hlinked.counted.create (n := (st.nextInodeId, false)) hlinked.not_mem_next)
    simp only [hput.catalogInsert_eq]
    exact (insert _ hput (hfits.free hlookup) (newRecord_name_length _ _ _)).setHandle _ _

theorem fuseOpen (hlinked : Linked [] st) (fh : ℕ) : Linked [] (st.fuseOpen fh key).2 := by
  unfold Mounted.fuseOpen
  cases st.catalogLookup key with
  | none => exact hlinked
  | some entry =>
    simp only
    split_ifs
    · exact hlinked
    · cases st.inodeGet entry.inodeId with
      | none => exact hlinked
      | some inode => exact hlinked.setHandle _ _

/-- The inode that a call by path works on is the stored one. -/
theorem workingInode_path {inode : InodeEntry β} (hworking : st.workingInode none key = some inode) :
    st.refCounts inode.inodeId = some inode.refCount := by
  rw [workingInode] at hworking
  obtain ⟨entry, -, hget⟩ := Option.bind_eq_some_iff.mp hworking
  exact (refCounts_eq hget).1

section

variable (hlinked : Linked [] st)
include hlinked

theorem fuseWrite (fh : Option ℕ) (change : β → β) : Linked [] (st.fuseWrite fh key change).2 := by
  unfold Mounted.fuseWrite
  cases hworking : st.workingInode fh key with
  | none => exact hlinked
  | some inode =>
    cases fh with
    | some fh => exact hlinked.setHandle _ _
    | none =>
      simp only [hlinked.inodePut_eq]
      exact hlinked.writeBack
        (show st.refCounts inode.inodeId = some inode.refCount from workingInode_path hworking)

theorem fuseTruncate {fh : Option ℕ} (change : β → β)
    (hsame : st.catalogLookup key ≠ none → ∀ fh' handle, fh = some fh' →
      st.handles fh' = some handle →
        st.refCounts handle.inode.inodeId = some handle.inode.refCount) :
    Linked [] (st.fuseTruncate fh key change).2 := by
  unfold Mounted.fuseTruncate
  cases hlookup : st.catalogLookup key with
  | none => exact hlinked
  | some entry =>
    cases hworking : st.workingInode fh key with
    | none => exact hlinked
    | some inode =>
      have hcount : st.refCounts inode.inodeId = some inode.refCount := by
        cases fh with
        | none => exact workingInode_path hworking
        | some fh =>
          obtain ⟨handle, hhandle, rfl⟩ := Option.map_eq_some_iff.mp hworking
          exact hsame (by simp [hlookup]) fh handle rfl hhandle
      have hchanged : st.refCounts (InodeEntry.inodeId { inode with body := change inode.body }) =
          some inode.refCount := hcount
      have hput := hlinked.writeBack hchanged
      cases fh with
      | none =>
        simp only [hlinked.inodePut_eq]
        exact hput
      | some fh =>
        simp only [hlinked.inodePut_eq]
        exact hput.setHandle _ _

theorem fuseFlush {fh : ℕ} (hsame : ∀ handle, st.handles fh = some handle → handle.inodeDirty →
      st.refCounts handle.inode.inodeId = some handle.inode.refCount) :
    Linked [] (st.fuseFlush fh).2 := by
  unfold Mounted.fuseFlush
  cases hhandle : st.handles fh with
  | none => exact hlinked
  | some handle =>
    simp only
    split_ifs with hdirty
    · simp only [hlinked.inodePut_eq]
      exact (hlinked.writeBack (hsame handle hhandle hdirty)).setHandle _ _
    · exact hlinked

theorem fuseRelease {fh : ℕ} (hsame : ∀ handle, st.handles fh = some handle → handle.inodeDirty →
      st.refCounts handle.inode.inodeId = some handle.inode.refCount) :
    Linked [] (st.fuseRelease fh).2 := by
  unfold Mounted.fuseRelease
  cases hhandle : st.handles fh with
  | none => exact hlinked
  | some handle =>
    simp only
    split_ifs with hdirty
    · simp only [hlinked.inodePut_eq]
      exact (hlinked.writeBack (hsame handle hhandle hdirty)).setHandle _ _
    · exact hlinked.setHandle _ _

theorem fuseLink (hfits : st.NameFits newKey)
    (hroom : ∀ entry c, st.catalogLookup oldKey = some entry →
      st.refCounts entry.inodeId = some c → c + 1 < 2 ^ 32) :
    Linked [] (st.fuseLink oldKey newKey).2 := by
  unfold Mounted.fuseLink
  cases hold : st.catalogLookup oldKey with
  | none => exact hlinked
  | some entry =>
    simp only
    cases hdir : entry.directoryFlag with
    | true => exact hlinked
    | false =>
      cases hnew : st.catalogLookup newKey with
      | some other => exact hlinked
      | none =>
        cases hget : st.inodeGet entry.inodeId with
        | none => exact hlinked
        | some inode =>
          obtain ⟨hcount, hid⟩ := refCounts_eq hget
          have hlt : inode.inodeId < st.nextInodeId := hlinked.inodeGet_lt hget
          have hmod : (inode.refCount + 1) % 2 ^ 32 = inode.refCount + 1 :=
            Nat.mod_eq_of_lt (hroom entry _ hold (hid ▸ hcount))
          have htarget : entry.target ∈ [] ++ st.catalog.map CatalogRecord.target :=
            List.mem_map_of_mem (List.mem_of_find?_eq_some hold)
          have hput := hlinked.putInode [(newRecord entry.inodeId newKey false).target]
            { inode with refCount := inode.refCount + 1 } hlt (by
              have hlink := hlinked.counted.link htarget hdir (hid ▸ hcount)
              rw [CatalogRecord.target, hdir, ← hid] at hlink
              rw [← hid]
              exact hlink)
          simp only [hmod, hlinked.inodePut_eq, hput.catalogInsert_eq]
          exact insert _ hput (hfits.free hnew) (newRecord_name_length _ _ _)

theorem fuseUnlink : Linked [] (st.fuseUnlink key).2 := by
  unfold Mounted.fuseUnlink
  cases hlookup : st.catalogLookup key with
  | none => exact hlinked
  | some entry =>
    simp only
    cases hdir : entry.directoryFlag with
    | true => exact hlinked
    | false =>
      simp only [catalogDelete_found hlookup]
      have hdelete := hlinked.delete hlookup
      rw [CatalogRecord.target, hdir] at hdelete
      exact hdelete.dropLink

/-- A name moves to a key that is free once it has left its own. -/
theorem moveEntry {src : CatalogRecord} (hsrc : st.catalogLookup oldKey = some src)
    (hfree : st.catalogLookup (cutKey newKey) = none ∨ cutKey newKey = oldKey) :
    Linked [] (st.moveEntry src oldKey newKey).2 := by
  unfold Mounted.moveEntry
  simp only [catalogDelete_found hsrc]
  have hdelete := hlinked.delete hsrc
  rw [hdelete.catalogInsert_eq]
  refine insert _ hdelete ?_ (newRecord_name_length _ _ _)
  change (withoutKey oldKey st.catalog).find? (catalogKey · = cutKey newKey) = none
  rw [find?_withoutKey]
  split_ifs with hkey
  · rfl
  · exact hfree.resolve_right fun h ↦ hkey h.symm

end

variable {src dst : CatalogRecord}

variable (hlinked : Linked [] st)
include hlinked

theorem exchangeEntries (hkeys : oldKey ≠ newKey) (hsrc : st.catalogLookup oldKey = some src)
    (hdst : st.catalogLookup newKey = some dst) :
    Linked [] (st.exchangeEntries src dst oldKey newKey).2 := by
  have hold := newRecord_key dst.inodeId dst.directoryFlag
    (name_length_of_found hlinked.names hsrc)
  have hnew := newRecord_key src.inodeId src.directoryFlag
    (name_length_of_found hlinked.names hdst)
  unfold Mounted.exchangeEntries
  simp only [catalogDelete_found hsrc]
  have hfirst := hlinked.delete hsrc
  have hdst' : Mounted.catalogLookup
      { st with catalog := withoutKey oldKey st.catalog } newKey = some dst := by
    rw [catalogLookup, find?_withoutKey, if_neg hkeys]
    exact hdst
  simp only [catalogDelete_found hdst']
  have hsecond := hfirst.delete hdst'
  have hthird := insert (newRecord dst.inodeId oldKey dst.directoryFlag) hsecond (by
      rw [hold, catalogLookup, find?_withoutKey, if_neg hkeys.symm, find?_withoutKey, if_pos rfl])
    (newRecord_name_length _ _ _)
  rw [hsecond.catalogInsert_eq]
  simp only
  rw [hthird.catalogInsert_eq]
  refine insert _ hthird ?_ (newRecord_name_length _ _ _)
  rw [hnew]
  change (upsert catalogKey (newRecord dst.inodeId oldKey dst.directoryFlag)
    (withoutKey newKey (withoutKey oldKey st.catalog))).find? (catalogKey · = newKey) = none
  rw [find?_upsert_of_ne (hold.trans_ne hkeys), find?_withoutKey, if_pos rfl]

/-- A destination loses its name, and its inode when it was the last one. -/
theorem replaceDest {dst : CatalogRecord} (hdst : st.catalogLookup newKey = some dst) :
    Linked [] (st.replaceDest dst newKey).2 := by
  unfold Mounted.replaceDest
  have hdelete := hlinked.delete hdst
  rw [CatalogRecord.target] at hdelete
  cases hdir : dst.directoryFlag with
  | true =>
    rw [hdir] at hdelete
    simp only [if_true]
    split_ifs
    · simp only [catalogDelete_found hdst]
      exact hdelete.dropDirectory
    · exact hlinked
  | false =>
    rw [hdir] at hdelete
    simp only [Bool.false_eq_true, if_false, catalogDelete_found hdst]
    exact hdelete.dropLink

theorem replaceEntry (hsrc : st.catalogLookup oldKey = some src)
    (hdst : st.catalogLookup newKey = some dst)
    (hempty : ¬(dst.directoryFlag ∧ ¬(st.catalogList dst.inodeId).isEmpty)) :
    Linked [] (st.replaceEntry src dst oldKey newKey).2 := by
  have hcut := cutKey_eq (name_length_of_found hlinked.names hdst)
  have hreplaced := hlinked.replaceDest hdst
  have hcatalog := replaceDest_catalog hdst hempty
  unfold Mounted.replaceEntry
  rcases hrun : st.replaceDest dst newKey with ⟨status, st₁⟩
  rw [hrun] at hreplaced hcatalog
  cases status with
  | some e => exact hreplaced
  | none =>
    have hgone : st₁.catalogLookup newKey = none := by
      rw [catalogLookup, hcatalog, find?_withoutKey, if_pos rfl]
    by_cases hkeys : newKey = oldKey
    · simp only [Mounted.moveEntry, catalogDelete_none (hkeys ▸ hgone)]
      exact hreplaced
    · refine hreplaced.moveEntry ?_ (Or.inl (hcut.symm ▸ hgone))
      rw [catalogLookup, hcatalog, find?_withoutKey, if_neg hkeys]
      exact hsrc

theorem fuseRename {flags : RenameFlags} (hfits : st.NameFits newKey ∨ cutKey newKey = oldKey)
    (hkeys : flags.exchange → oldKey ≠ newKey) :
    Linked [] (st.fuseRename flags oldKey newKey).2 := by
  cases hcheck : st.renameCheck flags oldKey newKey with
  | some e =>
    rw [fuseRename_of_check hcheck]
    exact hlinked
  | none =>
    obtain ⟨src, hsrc, hcases⟩ := fuseRename_of_passed hcheck
    rcases hcases with ⟨dst, hdst, hexchange, heq⟩ | ⟨hdst, -, heq⟩ | ⟨dst, hdst, -, hempty, heq⟩
    · rw [heq]
      exact hlinked.exchangeEntries (hkeys hexchange) hsrc hdst
    · rw [heq]
      exact hlinked.moveEntry hsrc (hfits.imp_left fun h ↦ h.free hdst)
    · rw [heq]
      exact hlinked.replaceEntry hsrc hdst hempty

end Linked

/-! ### Runs -/

/-- The calls on names and open files. -/
inductive Call (β : Type)
  | create (fh : ℕ) (key : CatalogKey) (body : β)
  | open (fh : ℕ) (key : CatalogKey)
  | write (fh : Option ℕ) (key : CatalogKey) (change : β → β)
  | truncate (fh : Option ℕ) (key : CatalogKey) (change : β → β)
  | flush (fh : ℕ)
  | release (fh : ℕ)
  | link (oldKey newKey : CatalogKey)
  | unlink (key : CatalogKey)
  | rename (flags : RenameFlags) (oldKey newKey : CatalogKey)

/-- The volume after a call. -/
def call (st : Mounted β) : Call β → Mounted β
  | .create fh key body => (st.fuseCreate fh key body).2
  | .open fh key => (st.fuseOpen fh key).2
  | .write fh key change => (st.fuseWrite fh key change).2
  | .truncate fh key change => (st.fuseTruncate fh key change).2
  | .flush fh => (st.fuseFlush fh).2
  | .release fh => (st.fuseRelease fh).2
  | .link oldKey newKey => (st.fuseLink oldKey newKey).2
  | .unlink key => (st.fuseUnlink key).2
  | .rename flags oldKey newKey => (st.fuseRename flags oldKey newKey).2

/-- The inode is stored with the link count that the handle has. -/
def UpToDate (st : Mounted β) (handle : Handle β) : Prop :=
  st.refCounts handle.inode.inodeId = some handle.inode.refCount

/-- A call after which the counts are exact: it writes back no link count but the stored one, it
enters no name over another, and it counts no further than 32 bits. -/
def Careful (st : Mounted β) : Call β → Prop
  | .create _ key _ => st.NameFits key
  | .truncate (some fh) key _ =>
    st.catalogLookup key ≠ none → ∀ handle, st.handles fh = some handle → st.UpToDate handle
  | .flush fh | .release fh =>
    ∀ handle, st.handles fh = some handle → handle.inodeDirty → st.UpToDate handle
  | .link oldKey newKey =>
    st.NameFits newKey ∧ ∀ entry c, st.catalogLookup oldKey = some entry →
      st.refCounts entry.inodeId = some c → c + 1 < 2 ^ 32
  | .rename flags oldKey newKey =>
    (st.NameFits newKey ∨ cutKey newKey = oldKey) ∧ (flags.exchange → oldKey ≠ newKey)
  | _ => True

theorem Linked.call (hlinked : Linked [] st) {c : Call β} (hcareful : st.Careful c) :
    Linked [] (st.call c) := by
  cases c with
  | create fh key body => exact hlinked.fuseCreate fh body hcareful
  | «open» fh key => exact hlinked.fuseOpen fh
  | write fh key change => exact hlinked.fuseWrite fh change
  | truncate fh key change =>
    refine hlinked.fuseTruncate change ?_
    rintro hfound fh' handle rfl
    exact hcareful hfound handle
  | flush fh => exact hlinked.fuseFlush hcareful
  | release fh => exact hlinked.fuseRelease hcareful
  | link oldKey newKey => exact hlinked.fuseLink hcareful.1 hcareful.2
  | unlink key => exact hlinked.fuseUnlink
  | rename flags oldKey newKey => exact hlinked.fuseRename hcareful.1 hcareful.2

/-- Every call of a run is careful in the state it finds. -/
def AllCareful : List (Call β) → Mounted β → Prop
  | [], _ => True
  | c :: calls, st => st.Careful c ∧ AllCareful calls (st.call c)

theorem Linked.run {calls : List (Call β)} (hlinked : Linked [] st)
    (hcareful : AllCareful calls st) : Linked [] (calls.foldl Mounted.call st) := by
  induction calls generalizing st with
  | nil => exact hlinked
  | cons c calls ih => exact ih (hlinked.call hcareful.1) hcareful.2

/-- After a run of careful calls from a volume with exact counts, every stored link count is the
number of entries that name the inode, and every entry of a file names a stored inode. -/
theorem links_exact {calls : List (Call β)} (hlinked : Linked [] st)
    (hcareful : AllCareful calls st) :
    (∀ inodeId inode, (calls.foldl call st).inodeGet inodeId = some inode →
        inode.refCount = (calls.foldl call st).catalog.countP (·.inodeId = inodeId)) ∧
      ∀ entry ∈ (calls.foldl call st).catalog, entry.directoryFlag = false →
        ∃ inode, (calls.foldl call st).inodeGet entry.inodeId = some inode := by
  have hrun := hlinked.run hcareful
  constructor
  · intro inodeId inode hget
    have hcount := hrun.counted.counts inodeId inode.refCount (by rw [refCounts, hget]; rfl)
    rw [hcount, links, List.nil_append, List.countP_map]
    rfl
  · intro entry hentry _
    have hnamed := hrun.counted.named entry.target (List.mem_map_of_mem hentry)
    exact Option.ne_none_iff_exists'.mp fun hnone ↦ hnamed (Option.map_eq_none_iff.mpr hnone)

/-! ### A write between two links -/

/-- A volume as it is created: the root directory with its entry. -/
def blank : Mounted Unit where
  catalog := [⟨rootInodeId, rootInodeId, true, [47]⟩]
  inodes := [⟨rootInodeId, 1, ()⟩]
  nextInodeId := 3
  handles := fun _ ↦ none
  catalogRefuses := fun _ _ ↦ none
  inodesRefuse := fun _ _ ↦ none

theorem blank_linked : Linked [] blank where
  catalogRoom := fun _ _ ↦ rfl
  inodesRoom := fun _ _ ↦ rfl
  sorted := List.pairwise_singleton _ _
  names := by decide
  fresh := by decide
  counted := by
    refine ⟨fun inodeId c hc ↦ ?_, by decide, by decide⟩
    obtain ⟨inode, hget, rfl⟩ := Option.map_eq_some_iff.mp hc
    obtain rfl := List.mem_singleton.mp (List.mem_of_find?_eq_some hget)
    obtain rfl := (refCounts_eq hget).2
    rfl

/-- The keys of `/f` and `/g`. -/
def keyF : CatalogKey := toLex (rootInodeId, [102])
def keyG : CatalogKey := toLex (rootInodeId, [103])

/-- `create("/f")`, a write, and then a flush and `link("/f", "/g")` in one order or the other. -/
def flushedLink : List (Call Unit) :=
  [.create 0 keyF (), .write (some 0) keyF id, .flush 0, .link keyF keyG]
def linkedFlush : List (Call Unit) :=
  [.create 0 keyF (), .write (some 0) keyF id, .link keyF keyG, .flush 0]

theorem links_exact_flushed :
    (∀ inodeId inode, (flushedLink.foldl call blank).inodeGet inodeId = some inode →
        inode.refCount = (flushedLink.foldl call blank).catalog.countP (·.inodeId = inodeId)) ∧
      ∀ entry ∈ (flushedLink.foldl call blank).catalog, entry.directoryFlag = false →
        ∃ inode, (flushedLink.foldl call blank).inodeGet entry.inodeId = some inode := by
  refine links_exact blank_linked ⟨Or.inl (by decide), trivial, fun handle hhandle _ ↦ ?_,
    ⟨Or.inl (by decide), fun entry c hentry hc ↦ ?_⟩, trivial⟩
  · obtain rfl := Option.some.inj hhandle
    rfl
  · obtain rfl := Option.some.inj hentry
    obtain rfl := Option.some.inj hc
    decide

/-- No handle is dirty, two entries name the inode, and its count is one. -/
theorem links_lost : (∀ fh handle, (linkedFlush.foldl call blank).handles fh = some handle →
        handle.inodeDirty = false) ∧
      (linkedFlush.foldl call blank).inodeGet 3 = some ⟨3, 1, ()⟩ ∧
      (linkedFlush.foldl call blank).catalog.countP (·.inodeId = 3) = 2 := by
  refine ⟨fun fh handle hhandle ↦ ?_, by decide, by decide⟩
  cases fh with
  | zero =>
    obtain rfl := Option.some.inj hhandle
    rfl
  | succ fh => exact absurd (show none = some handle from hhandle) (by simp)

end Mounted

end Obmafs3
