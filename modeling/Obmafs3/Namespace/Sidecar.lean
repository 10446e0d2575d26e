import Obmafs3.Cd.Sector
import Obmafs3.Namespace.Links

/-!
# The subchannel sidecar of a CD image

A CD image is written sector by sector. The first sector with subchannel data looks for a file
beside the image, with the extension replaced by `.sub`, or makes one. From then on the open image
has a copy of the inode of that file, of which it keeps the size up to date, and flush and release
write the copy back.

What the file is that has the name is not looked at. `sidecar_only` says that nothing but the image
and subchannel files changes as long as the name is free or names one of these.
-/

set_option autoImplicit false

namespace Obmafs3

open Library.SearchTree

/-- `file_type`. -/
inductive FileType
  | regular
  | directory
  | mediaImage
  | symlink
  | compactDiscImage
  | subchannelFile
  | nintendo
  | ps3Image
  deriving DecidableEq, Repr

/-- An inode record without its id and link count. `rest` are the extents, the sizes of maps, the
owner and the times. -/
structure FileBody (δ : Type) where
  fileType : FileType
  fileSize : ℕ
  sectorCount : ℕ
  rest : δ
  deriving DecidableEq, Repr

/-- The fields of `struct fuse_file_ctx` for a CD image. -/
structure CdFile (δ : Type) where
  inode : InodeEntry (FileBody δ)
  inodeDirty : Bool
  subInodeId : ℕ
  subInode : InodeEntry (FileBody δ)
  subInodeDirty : Bool
  deriving DecidableEq, Repr

/-- Where a write fails: at the subchannel tree, or later, at the prefix, the suffix or the data. -/
inductive CdWriteFault
  | subchannel
  | data
  deriving DecidableEq, Repr

/-- A request to write a sector. `path` is the catalog key to which the path of the image resolves.
`rest` is what a new sidecar gets besides type and size, and `change` is what storing the data does
to the inode of the image. -/
structure CdWriteArg (δ : Type) where
  path : Option CatalogKey
  bufferSize : ℕ
  sectorMode : ℕ
  sector : ℤ
  fault : Option CdWriteFault
  rest : δ
  change : FileBody δ → FileBody δ

/-- The mounted volume and the open image. -/
structure CdState (δ : Type) where
  mounted : Mounted (FileBody δ)
  file : CdFile δ

/-- `kCdSectorMode2Form2`, the last of the modes. -/
def cdLastSectorMode : ℕ := 4

/-- The bytes of `.sub`. -/
def subSuffix : List ℕ := [46, 115, 117, 98]

/-- The name of the sidecar: the last dot and what follows it give way to `.sub`. -/
def sidecarName (name : List ℕ) : List ℕ :=
  if 46 ∈ name then (name.reverse.dropWhile (· ≠ 46)).tail.reverse ++ subSuffix
  else name ++ subSuffix

def sidecarKey (path : CatalogKey) : CatalogKey :=
  toLex ((ofLex path).1, sidecarName (ofLex path).2)

/-- The checks of the arguments of a request. -/
def CdWriteArg.Rejected {δ : Type} (arg : CdWriteArg δ) : Prop :=
  arg.bufferSize ≠ cdRawSectorSize ∧ arg.bufferSize ≠ cdRawSectorSize + cdSubchannelSize ∨
    cdLastSectorMode < arg.sectorMode ∨ arg.sector < 0

instance {δ : Type} (arg : CdWriteArg δ) : Decidable arg.Rejected :=
  inferInstanceAs (Decidable (_ ∨ _))

namespace CdState

variable {δ : Type}

/-- The part of `obmafs3_cd_write_long` that makes a new sidecar. -/
def createSidecar (key : CatalogKey) (rest : δ) (st : CdState δ) : CdState δ :=
  let inode : InodeEntry (FileBody δ) :=
    ⟨st.mounted.nextInodeId, 1, ⟨.subchannelFile, 0, st.file.inode.inodeId, rest⟩⟩
  let mounted := { st.mounted with nextInodeId := st.mounted.nextInodeId + 1 }
  let file := { st.file with subInode := inode }
  match mounted.inodePut inode with
  | .error mounted => ⟨mounted, file⟩
  | .ok mounted =>
    match mounted.catalogInsert (Mounted.newRecord inode.inodeId key false) with
    | .error mounted => ⟨Mounted.after (mounted.inodeDelete inode.inodeId), file⟩
    | .ok mounted => ⟨mounted, { file with subInodeId := inode.inodeId }⟩

/-- The part of `obmafs3_cd_write_long` that finds or makes the sidecar. The status of reading its
inode is not looked at. -/
def findSidecar (path : CatalogKey) (rest : δ) (st : CdState δ) : CdState δ :=
  match st.mounted.catalogLookup (sidecarKey path) with
  | some entry =>
    { st with
      file :=
        { st.file with
          subInodeId := entry.inodeId
          subInode := (st.mounted.inodeGet entry.inodeId).getD st.file.subInode } }
  | none => st.createSidecar (sidecarKey path) rest

/-- The subchannel part of a request, if it has one. -/
def subchannelPart (arg : CdWriteArg δ) (st : CdState δ) : CdState δ :=
  if arg.bufferSize = cdRawSectorSize + cdSubchannelSize ∧ st.file.subInodeId = 0 then
    match arg.path with
    | none => st
    | some path => st.findSidecar path arg.rest
  else st

/-- The last part of `obmafs3_cd_write_long`: the counts of the image and of its sidecar. -/
def countSector (arg : CdWriteArg δ) (st : CdState δ) : CdState δ :=
  let body := arg.change st.file.inode.body
  let sectorCount := max body.sectorCount (arg.sector + 1).toNat
  let inode :=
    { st.file.inode with
      body :=
        { body with
          sectorCount := sectorCount
          fileSize := sectorCount * cdRawSectorSize } }
  if st.file.subInodeId ≠ 0 then
    let subBody := { st.file.subInode.body with fileSize := sectorCount * cdSubchannelSize }
    { st with
      file :=
        { st.file with
          inode := inode
          inodeDirty := true
          subInode := { st.file.subInode with body := subBody }
          subInodeDirty := true } }
  else { st with file := { st.file with inode := inode, inodeDirty := true } }

/-- `obmafs3_cd_write_long`. -/
def cdWriteLong (arg : CdWriteArg δ) (st : CdState δ) : Option Errno × CdState δ :=
  if arg.Rejected then (some .einval, st)
  else if arg.fault = some .subchannel then (some .eio, st)
  else
    let st := st.subchannelPart arg
    if arg.fault = some .data then
      let body := arg.change st.file.inode.body
      (some .eio, { st with file := { st.file with inode := { st.file.inode with body := body } } })
    else (none, st.countSector arg)

/-- `obmafs3_fuse_flush_impl`, which `obmafs3_fuse_release_impl` repeats. `change` is what the flush
of cached map entries does to the inode of the image, if there are any. -/
def flushFile (change : Option (FileBody δ → FileBody δ)) (st : CdState δ) :
    Option Errno × CdState δ :=
  let inode := { st.file.inode with body := (change.getD id) st.file.inode.body }
  let (status, mounted) :=
    if st.file.inodeDirty ∨ change.isSome then Mounted.orEio (st.mounted.inodePut inode)
    else (none, st.mounted)
  let (subStatus, mounted) :=
    if st.file.subInodeDirty then Mounted.orEio (mounted.inodePut st.file.subInode)
    else (none, mounted)
  (status.or subStatus,
    ⟨mounted, { st.file with inode := inode, inodeDirty := false, subInodeDirty := false }⟩)

/-- What happens to an open image: a request, or a flush, of which the last is that of the release. -/
inductive Step (δ : Type)
  | writeLong (arg : CdWriteArg δ)
  | flush (change : Option (FileBody δ → FileBody δ))

def Step.run : Step δ → CdState δ → CdState δ
  | .writeLong arg, st => (st.cdWriteLong arg).2
  | .flush change, st => (st.flushFile change).2

def runSteps (steps : List (Step δ)) (st : CdState δ) : CdState δ :=
  steps.foldl (fun st step ↦ step.run st) st

/-! ### What should change, and when it does -/

/-- An inode that is there is a subchannel file. -/
def Subchannel (mounted : Mounted (FileBody δ)) (inodeId : ℕ) : Prop :=
  ∀ inode, mounted.inodeGet inodeId = some inode → inode.body.fileType = .subchannelFile

/-- Nothing changes but the image, and inodes that were and are subchannel files. -/
def SidecarOnly (imageId : ℕ) (before after : Mounted (FileBody δ)) : Prop :=
  ∀ inodeId, inodeId ≠ imageId → after.inodeGet inodeId = before.inodeGet inodeId ∨
    Subchannel before inodeId ∧ Subchannel after inodeId

/-- An insertion of an inode that is refused leaves the other inodes alone, and of the new one it
leaves all or nothing. -/
def RefusesQuietly (mounted : Mounted (FileBody δ)) : Prop :=
  ∀ inodes inode left, mounted.inodesRefuse inodes inode = some left → ∀ inodeId,
    left.find? (·.inodeId = inodeId) = inodes.find? (·.inodeId = inodeId) ∨
      inodeId = inode.inodeId ∧ left.find? (·.inodeId = inodeId) = some inode

/-- A request that looks for the sidecar finds no entry, or one of a subchannel file or of the image
itself. -/
def Step.Careful : Step δ → CdState δ → Prop
  | .writeLong arg, st =>
    ¬arg.Rejected → arg.fault ≠ some .subchannel →
      arg.bufferSize = cdRawSectorSize + cdSubchannelSize → st.file.subInodeId = 0 → ∀ path,
        arg.path = some path → ∀ entry,
          st.mounted.catalogLookup (sidecarKey path) = some entry →
            ∃ inode, st.mounted.inodeGet entry.inodeId = some inode ∧
            (inode.body.fileType = .subchannelFile ∨ entry.inodeId = st.file.inode.inodeId)
  | .flush _, _ => True

def AllCareful : List (Step δ) → CdState δ → Prop
  | [], _ => True
  | step :: steps, st => step.Careful st ∧ AllCareful steps (step.run st)

/-! ### One update -/

section Updates

variable {imageId inodeId : ℕ} {mounted mounted' : Mounted (FileBody δ)}
  {inode : InodeEntry (FileBody δ)}

theorem SidecarOnly.refl (imageId : ℕ) (mounted : Mounted (FileBody δ)) :
    SidecarOnly imageId mounted mounted := fun _ _ ↦ .inl rfl

theorem SidecarOnly.trans {mounted'' : Mounted (FileBody δ)}
    (hfirst : SidecarOnly imageId mounted mounted')
    (hsecond : SidecarOnly imageId mounted' mounted'') : SidecarOnly imageId mounted mounted'' := by
  intro inodeId hne
  rcases hfirst inodeId hne with hsame | ⟨hbefore, hafter⟩
  · rcases hsecond inodeId hne with hsame' | ⟨hbefore', hafter'⟩
    · exact .inl (hsame'.trans hsame)
    · refine .inr ⟨fun inode hget ↦ hbefore' inode (hsame.trans hget), hafter'⟩
  · rcases hsecond inodeId hne with hsame' | ⟨hbefore', hafter'⟩
    · exact .inr ⟨hbefore, fun inode hget ↦ hafter inode (hsame'.symm.trans hget)⟩
    · exact .inr ⟨hbefore, hafter'⟩

theorem Subchannel.mono (hsub : Subchannel mounted inodeId) (hne : inodeId ≠ imageId)
    (honly : SidecarOnly imageId mounted mounted') : Subchannel mounted' inodeId := by
  rcases honly inodeId hne with hsame | hboth
  · exact fun inode hget ↦ hsub inode (hsame.symm.trans hget)
  · exact hboth.2

/-- What an update of the inode table leaves alone. -/
structure SameNames (before after : Mounted (FileBody δ)) : Prop where
  catalog : after.catalog = before.catalog
  nextInodeId : after.nextInodeId = before.nextInodeId
  inodesRefuse : after.inodesRefuse = before.inodesRefuse

/-- A put, refused or not, changes the inode that it puts and no other. -/
theorem inodePut_get (hquiet : RefusesQuietly mounted) (inode : InodeEntry (FileBody δ)) :
    SameNames mounted (Mounted.after (mounted.inodePut inode)) ∧ ∀ inodeId,
      (Mounted.after (mounted.inodePut inode)).inodeGet inodeId = mounted.inodeGet inodeId ∨
        inodeId = inode.inodeId ∧
          (Mounted.after (mounted.inodePut inode)).inodeGet inodeId = some inode := by
  have hput (inodeId : ℕ) :
      (upsert InodeEntry.inodeId inode mounted.inodes).find? (·.inodeId = inodeId) =
        mounted.inodeGet inodeId ∨ inodeId = inode.inodeId ∧
          (upsert InodeEntry.inodeId inode mounted.inodes).find? (·.inodeId = inodeId) =
            some inode := by
    rw [find?_upsert]
    split_ifs with heq
    · exact .inr ⟨heq.symm, rfl⟩
    · exact .inl rfl
  unfold Mounted.inodePut
  cases mounted.inodeGet inode.inodeId with
  | some old => exact ⟨⟨rfl, rfl, rfl⟩, hput⟩
  | none =>
    cases hrefuse : mounted.inodesRefuse mounted.inodes inode with
    | none => exact ⟨⟨rfl, rfl, rfl⟩, hput⟩
    | some left => exact ⟨⟨rfl, rfl, rfl⟩, hquiet _ _ _ hrefuse⟩

theorem inodePut_only (hquiet : RefusesQuietly mounted) (hinode : inode.inodeId = imageId ∨
      inode.body.fileType = .subchannelFile ∧ Subchannel mounted inode.inodeId) :
    SidecarOnly imageId mounted (Mounted.after (mounted.inodePut inode)) := by
  obtain ⟨-, hput⟩ := inodePut_get hquiet inode
  intro inodeId hne
  rcases hput inodeId with hsame | ⟨rfl, hnew⟩
  · exact .inl hsame
  · rcases hinode with himage | ⟨htype, hsub⟩
    · exact absurd himage hne
    · refine .inr ⟨hsub, fun other hget ↦ ?_⟩
      rw [hnew] at hget
      exact Option.some.inj hget ▸ htype

theorem inodeDelete_only (hsub : Subchannel mounted inodeId) :
    SidecarOnly imageId mounted (Mounted.after (mounted.inodeDelete inodeId)) := by
  unfold Mounted.inodeDelete
  cases mounted.inodeGet inodeId with
  | none => exact .refl imageId mounted
  | some old =>
    intro other hne
    by_cases heq : other = inodeId
    · subst heq
      refine .inr ⟨hsub, fun inode hget ↦ ?_⟩
      have hid := List.find?_some hget
      have hmem := (List.mem_filter.mp (List.mem_of_find?_eq_some hget)).2
      simp only [decide_eq_true_eq] at hid hmem
      exact absurd hid hmem
    · refine .inl ?_
      simp only [Mounted.after, Mounted.inodeGet, List.find?_filter]
      congr 1
      funext inode
      by_cases hid : inode.inodeId = other
      · simp [hid, heq]
      · simp [hid]

end Updates

/-! ### The invariant -/

/-- A record that may be written back: of the image, or of a subchannel file over one. -/
def Harmless (imageId : ℕ) (mounted : Mounted (FileBody δ)) (inode : InodeEntry (FileBody δ)) :
    Prop :=
  inode.inodeId < mounted.nextInodeId ∧ (inode.inodeId = imageId ∨
    inode.body.fileType = .subchannelFile ∧ Subchannel mounted inode.inodeId)

/-- The inode table during a run: ids from the next one on are free, and since the run began nothing
has changed but the image and subchannel files. -/
structure TableSound (imageId : ℕ) (before mounted : Mounted (FileBody δ)) : Prop where
  image : imageId < mounted.nextInodeId
  fresh : ∀ inodeId, mounted.nextInodeId ≤ inodeId → mounted.inodeGet inodeId = none
  quiet : RefusesQuietly mounted
  only : SidecarOnly imageId before mounted

/-- The state during a run: the copy of the sidecar may be written back. -/
structure Sound (imageId : ℕ) (before : Mounted (FileBody δ)) (st : CdState δ) : Prop where
  table : TableSound imageId before st.mounted
  image : st.file.inode.inodeId = imageId
  dirty : st.file.subInodeDirty = true → st.file.subInodeId ≠ 0
  sub : st.file.subInodeId ≠ 0 → Harmless imageId st.mounted st.file.subInode

section Invariant

variable {imageId : ℕ} {before mounted mounted' : Mounted (FileBody δ)} {st : CdState δ}
  {inode : InodeEntry (FileBody δ)}

theorem Harmless.mono (hinode : Harmless imageId mounted inode)
    (honly : SidecarOnly imageId mounted mounted')
    (hnext : mounted.nextInodeId ≤ mounted'.nextInodeId) : Harmless imageId mounted' inode := by
  refine ⟨hinode.1.trans_le hnext, ?_⟩
  rcases eq_or_ne inode.inodeId imageId with himage | hne
  · exact .inl himage
  · obtain ⟨htype, hsub⟩ := hinode.2.resolve_left hne
    exact .inr ⟨htype, hsub.mono hne honly⟩

section

variable (htable : TableSound imageId before mounted)
include htable

theorem TableSound.put (hinode : Harmless imageId mounted inode) :
    TableSound imageId before (Mounted.after (mounted.inodePut inode)) ∧
      SidecarOnly imageId mounted (Mounted.after (mounted.inodePut inode)) ∧
      (Mounted.after (mounted.inodePut inode)).nextInodeId = mounted.nextInodeId := by
  obtain ⟨hnames, hput⟩ := inodePut_get htable.quiet inode
  have honly := inodePut_only htable.quiet hinode.2
  refine ⟨⟨?_, ?_, ?_, htable.only.trans honly⟩, honly, hnames.nextInodeId⟩
  · rw [hnames.nextInodeId]
    exact htable.image
  · intro inodeId hle
    rw [hnames.nextInodeId] at hle
    rcases hput inodeId with hsame | ⟨rfl, -⟩
    · rw [hsame, htable.fresh inodeId hle]
    · exact absurd hinode.1 (not_lt.mpr hle)
  · intro inodes other left hrefuse
    rw [hnames.inodesRefuse] at hrefuse
    exact htable.quiet inodes other left hrefuse

/-- The table does not depend on the catalog. -/
theorem TableSound.withCatalog (catalog : List CatalogRecord) :
    TableSound imageId before { mounted with catalog } :=
  ⟨htable.image, htable.fresh, htable.quiet, htable.only⟩

theorem TableSound.delete {inodeId : ℕ} (hsub : Subchannel mounted inodeId) :
    TableSound imageId before (Mounted.after (mounted.inodeDelete inodeId)) := by
  have honly : SidecarOnly imageId mounted (Mounted.after (mounted.inodeDelete inodeId)) :=
    inodeDelete_only hsub
  unfold Mounted.inodeDelete at honly ⊢
  cases hget : mounted.inodeGet inodeId with
  | none => exact htable
  | some old =>
    simp only [hget] at honly ⊢
    refine ⟨htable.image, fun other hle ↦ ?_, htable.quiet, htable.only.trans honly⟩
    have hnone := htable.fresh other hle
    simp only [Mounted.after, Mounted.inodeGet, List.find?_eq_none, List.mem_filter] at hnone ⊢
    exact fun inode hmem ↦ hnone inode hmem.1

end

section

variable (hsound : Sound imageId before st)
include hsound

/-- A new sidecar has an id that nothing else has. -/
theorem Sound.createSidecar (hnone : st.file.subInodeId = 0) (key : CatalogKey) (rest : δ) :
    Sound imageId before (st.createSidecar key rest) := by
  have hclean : ¬st.file.subInodeDirty = true := fun h ↦ hsound.dirty h hnone
  have htable := hsound.table
  unfold CdState.createSidecar
  generalize hnew : (⟨st.mounted.nextInodeId, 1,
    ⟨.subchannelFile, 0, st.file.inode.inodeId, rest⟩⟩ : InodeEntry (FileBody δ)) = inode
  have hid : inode.inodeId = st.mounted.nextInodeId := by rw [← hnew]
  have htype : inode.body.fileType = .subchannelFile := by rw [← hnew]
  have hnext : TableSound imageId before
      { st.mounted with nextInodeId := st.mounted.nextInodeId + 1 } :=
    ⟨htable.image.trans (Nat.lt_succ_self _),
      fun inodeId hle ↦ htable.fresh inodeId ((Nat.le_succ _).trans hle), htable.quiet, htable.only⟩
  generalize hmounted : ({ st.mounted with nextInodeId := st.mounted.nextInodeId + 1 } :
    Mounted (FileBody δ)) = mounted at hnext
  have hget : mounted.inodeGet inode.inodeId = none := by
    rw [hid, ← hmounted]
    exact htable.fresh _ le_rfl
  have hharmless : Harmless imageId mounted inode := by
    refine ⟨?_, .inr ⟨htype, fun other hother ↦ ?_⟩⟩
    · rw [hid, ← hmounted]
      exact Nat.lt_succ_self _
    · rw [hget] at hother
      exact absurd hother.symm (Option.some_ne_none _)
  obtain ⟨hput, honly, hsame⟩ := hnext.put hharmless
  have hafter := hharmless.mono honly hsame.ge
  have hne : inode.inodeId ≠ imageId := by
    rw [hid]
    exact htable.image.ne'
  have hsub := (hafter.2.resolve_left hne).2
  simp only
  cases hresult : mounted.inodePut inode with
  | error mounted' =>
    rw [hresult] at hput
    exact ⟨hput, hsound.image, fun h ↦ absurd h hclean, fun h ↦ absurd hnone h⟩
  | ok mounted' =>
    rw [hresult] at hput hafter hsub
    simp only [Mounted.after] at hput hafter hsub
    unfold Mounted.catalogInsert
    simp only
    cases mounted'.catalogRefuses mounted'.catalog
        (Mounted.newRecord inode.inodeId key false) with
    | some left =>
      simp only
      exact ⟨(hput.withCatalog left).delete hsub, hsound.image, fun h ↦ absurd h hclean,
        fun h ↦ absurd hnone h⟩
    | none =>
      simp only
      exact ⟨hput.withCatalog _, hsound.image, fun h ↦ absurd h hclean, fun _ ↦ hafter⟩

theorem Sound.subchannelPart {arg : CdWriteArg δ}
    (hcareful : arg.bufferSize = cdRawSectorSize + cdSubchannelSize → st.file.subInodeId = 0 →
      ∀ path, arg.path = some path → ∀ entry,
        st.mounted.catalogLookup (sidecarKey path) = some entry →
          ∃ inode, st.mounted.inodeGet entry.inodeId = some inode ∧
            (inode.body.fileType = .subchannelFile ∨ entry.inodeId = st.file.inode.inodeId)) :
    Sound imageId before (st.subchannelPart arg) := by
  unfold CdState.subchannelPart
  split_ifs with hfirst
  · obtain ⟨hsize, hnone⟩ := hfirst
    cases hpath : arg.path with
    | none => exact hsound
    | some path =>
      simp only [findSidecar]
      cases hentry : st.mounted.catalogLookup (sidecarKey path) with
      | none => exact hsound.createSidecar hnone _ _
      | some entry =>
        obtain ⟨inode, hget, hkind⟩ := hcareful hsize hnone path hpath entry hentry
        have hid : inode.inodeId = entry.inodeId := by simpa using List.find?_some hget
        simp only
        refine ⟨hsound.table, hsound.image, fun h ↦ absurd hnone (hsound.dirty h), fun _ ↦ ?_⟩
        simp only [hget, Option.getD_some]
        refine ⟨?_, ?_⟩
        · rw [hid]
          by_contra hle
          rw [hsound.table.fresh _ (not_lt.mp hle)] at hget
          exact Option.some_ne_none _ hget.symm
        · rw [hid]
          rcases hkind with htype | himage
          · refine .inr ⟨htype, fun other hother ↦ ?_⟩
            rw [hget] at hother
            exact Option.some.inj hother ▸ htype
          · exact .inl (himage.trans hsound.image)
  · exact hsound

theorem Sound.countSector (arg : CdWriteArg δ) : Sound imageId before (st.countSector arg) := by
  unfold CdState.countSector
  simp only
  split_ifs with hsub
  · exact ⟨hsound.table, hsound.image, fun _ ↦ hsub, fun _ ↦ hsound.sub hsub⟩
  · exact ⟨hsound.table, hsound.image, hsound.dirty, hsound.sub⟩

end

theorem orEio_snd (result : Except (Mounted (FileBody δ)) (Mounted (FileBody δ))) :
    (Mounted.orEio result).2 = Mounted.after result := by
  cases result <;> rfl

/-- A write-back that takes place only when the copy is dirty. -/
theorem TableSound.putIf (htable : TableSound imageId before mounted)
    (inode : InodeEntry (FileBody δ)) (dirty : Prop) [Decidable dirty]
    (hinode : dirty → Harmless imageId mounted inode) :
    TableSound imageId before
        (if dirty then Mounted.orEio (mounted.inodePut inode) else (none, mounted)).2 ∧
      SidecarOnly imageId mounted
        (if dirty then Mounted.orEio (mounted.inodePut inode) else (none, mounted)).2 ∧
      (if dirty then Mounted.orEio (mounted.inodePut inode) else (none, mounted)).2.nextInodeId =
        mounted.nextInodeId := by
  split_ifs with hdirty
  · rw [orEio_snd]
    exact htable.put (hinode hdirty)
  · exact ⟨htable, .refl imageId mounted, rfl⟩

section

variable (hsound : Sound imageId before st)
include hsound

theorem Sound.flushFile (change : Option (FileBody δ → FileBody δ)) :
    Sound imageId before (st.flushFile change).2 := by
  unfold CdState.flushFile
  simp only
  obtain ⟨hfirst, honly, hnext⟩ :=
    hsound.table.putIf { st.file.inode with body := (change.getD id) st.file.inode.body }
      (st.file.inodeDirty = true ∨ change.isSome = true) fun _ ↦
        ⟨(congrArg (· < st.mounted.nextInodeId) hsound.image).mpr hsound.table.image,
          .inl hsound.image⟩
  generalize (if st.file.inodeDirty = true ∨ change.isSome = true then _ else _ :
    Option Errno × Mounted (FileBody δ)) = first at hfirst honly hnext ⊢
  have hsub (hne : st.file.subInodeId ≠ 0) : Harmless imageId first.2 st.file.subInode :=
    (hsound.sub hne).mono honly hnext.ge
  obtain ⟨hsecond, honly', hnext'⟩ :=
    hfirst.putIf st.file.subInode (st.file.subInodeDirty = true) fun hdirty ↦
      hsub (hsound.dirty hdirty)
  exact ⟨hsecond, hsound.image, fun h ↦ absurd h Bool.false_ne_true,
    fun hne ↦ (hsub hne).mono honly' hnext'.ge⟩

theorem Step.run_sound {step : Step δ} (hcareful : step.Careful st) :
    Sound imageId before (step.run st) := by
  cases step with
  | flush change => exact hsound.flushFile change
  | writeLong arg =>
    simp only [Step.run, cdWriteLong]
    split_ifs with hrejected hfault hdata
    · exact hsound
    · exact hsound
    · have hpart := hsound.subchannelPart (hcareful hrejected hfault)
      exact ⟨hpart.table, hpart.image, hpart.dirty, hpart.sub⟩
    · exact (hsound.subchannelPart (hcareful hrejected hfault)).countSector arg

theorem runSteps_sound {steps : List (Step δ)} (hcareful : AllCareful steps st) :
    Sound imageId before (runSteps steps st) := by
  induction steps generalizing st with
  | nil => exact hsound
  | cons step steps ih => exact ih (step.run_sound hsound hcareful.1) hcareful.2

end

/-- An image just opened: nothing is dirty and no sidecar is known. -/
structure Opened (st : CdState δ) : Prop where
  image : st.file.inode.inodeId < st.mounted.nextInodeId
  fresh : ∀ inode ∈ st.mounted.inodes, inode.inodeId < st.mounted.nextInodeId
  quiet : RefusesQuietly st.mounted
  subInodeId : st.file.subInodeId = 0
  subInodeDirty : st.file.subInodeDirty = false

theorem Opened.sound (hopened : Opened st) : Sound st.file.inode.inodeId st.mounted st where
  table :=
    { image := hopened.image
      fresh := by
        intro inodeId hle
        rw [Mounted.inodeGet, List.find?_eq_none]
        intro inode hmem
        have hlt := (hopened.fresh inode hmem).trans_le hle
        simpa using hlt.ne
      quiet := hopened.quiet
      only := .refl _ _ }
  image := rfl
  dirty := fun h ↦ absurd (hopened.subInodeDirty.symm.trans h) Bool.false_ne_true
  sub := fun h ↦ absurd hopened.subInodeId h

end Invariant

/-! ### A directory with two files -/

/-- The image `a.i` with the inode 3, and the inode 4 of some type under the name of its sidecar. -/
def twoFiles (fileType : FileType) : CdState Unit where
  mounted :=
    { catalog := [⟨3, 2, false, [97, 46, 105]⟩, ⟨4, 2, false, [97, 46, 115, 117, 98]⟩]
      inodes := [⟨3, 1, ⟨.compactDiscImage, 0, 0, ()⟩⟩, ⟨4, 1, ⟨fileType, 700, 0, ()⟩⟩]
      nextInodeId := 5
      handles := fun _ ↦ none
      catalogRefuses := fun _ _ ↦ none
      inodesRefuse := fun _ _ ↦ none }
  file :=
    { inode := ⟨3, 1, ⟨.compactDiscImage, 0, 0, ()⟩⟩
      inodeDirty := false
      subInodeId := 0
      subInode := ⟨0, 0, ⟨.regular, 0, 0, ()⟩⟩
      subInodeDirty := false }

theorem twoFiles_opened (fileType : FileType) : Opened (twoFiles fileType) where
  image := show 3 < 5 by decide
  fresh := by
    intro inode hmem
    simp only [twoFiles, List.mem_cons, List.not_mem_nil, or_false] at hmem
    rcases hmem with rfl | rfl
    · exact show 3 < 5 by decide
    · exact show 4 < 5 by decide
  quiet := fun _ _ _ hrefuse ↦ absurd hrefuse.symm (Option.some_ne_none _)
  subInodeId := rfl
  subInodeDirty := rfl

/-- Sector 0 with subchannel data, and the flush at the close. -/
def writeAndFlush : List (Step Unit) :=
  [.writeLong ⟨some (toLex (2, [97, 46, 105])), 2448, 1, 0, none, (), id⟩, .flush none]

end CdState

end Obmafs3
