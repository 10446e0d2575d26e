import Obmafs3.Namespace.SubtreeCheck

/-!
# The path of an inode

`obmafs3_resolve_inode_path` climbs from an inode to the root. Every step scans the catalog from
its leftmost leaf for the first record of an inode and takes the name and the parent from it. The
climb has room for 256 names and reports success when it is full, wherever it then is: the path it
builds starts at the root all the same. `leadsTo_iff` says when the path leads back to the inode.
-/

set_option autoImplicit false

namespace Obmafs3.NameStore

open Library.SearchTree

variable {st : NameStore} {a b c i : ℕ} {name : List ℕ} {names : List (List ℕ)}

/-! ### The source -/

/-- What `obmafs3_resolve_inode_path` fails with. -/
inductive ResolveError
  | notFound
  | noMem
  deriving DecidableEq, Repr

/-- `catalog_find_by_inode_internal`: a scan from the leftmost leaf. -/
def findByInode (st : NameStore) (targetInode : ℕ) : Option CatalogRecord :=
  (st.catalog.recordsFrom fun _ ↦ 0).find? (·.inodeId = targetInode)

/-- `MAX_DEPTH`. -/
def resolveMaxDepth : ℕ := 256

/-- The loop of `obmafs3_resolve_inode_path` that collects the names, the last one first. -/
def collectComponents (st : NameStore) : (room cur : ℕ) → Except ResolveError (List (List ℕ))
  | 0, _ => .ok []
  | room + 1, cur =>
    if cur = rootInodeId then .ok []
    else
      match st.findByInode cur with
      | none => .error .notFound
      | some cat => (collectComponents st room cat.parentId).map (cat.name :: ·)

/-- The loop of `obmafs3_resolve_inode_path` that builds the path. The bytes, the slash and the NUL
that ends the path have to fit. -/
def buildPath (pathBufSize : ℕ) : (path : List ℕ) → List (List ℕ) → Except ResolveError (List ℕ)
  | path, [] => .ok path
  | path, component :: rest =>
    if pathBufSize < path.length + 1 + component.length + 1 then .error .noMem
    else buildPath pathBufSize (path ++ 47 :: component) rest

/-- `obmafs3_resolve_inode_path`: the bytes it writes in front of a NUL. -/
def resolveInodePath (st : NameStore) (inodeId pathBufSize : ℕ) : Except ResolveError (List ℕ) :=
  if pathBufSize = 0 then .error .noMem
  else if inodeId = rootInodeId then .ok [47]
  else
    match st.collectComponents resolveMaxDepth inodeId with
    | .error e => .error e
    | .ok components => buildPath pathBufSize [] components.reverse

/-- Look the names up one by one with `obmafs3_catalog_lookup`. -/
def followNames (st : NameStore) : (cur : ℕ) → List (List ℕ) → Option ℕ
  | cur, [] => some cur
  | cur, component :: rest =>
    match st.catalogLookup (toLex (cur, component)) with
    | none => none
    | some entry => followNames st entry.inodeId rest

/-- An absolute path whose names lead from the root to an inode. -/
def LeadsTo (st : NameStore) (path : List ℕ) (inodeId : ℕ) : Prop :=
  path.head? = some 47 ∧ st.followNames rootInodeId (strtok 47 path []) = some inodeId

/-! ### Names up and down -/

/-- The names on the way up from an inode, over the first record of each, the last one first. -/
inductive Climbs (st : NameStore) : ℕ → List (List ℕ) → ℕ → Prop
  | here (a : ℕ) : Climbs st a [] a
  | up {a b : ℕ} {cat : CatalogRecord} {names : List (List ℕ)} (hne : a ≠ rootInodeId)
      (hfind : st.findByInode a = some cat) (hrest : Climbs st cat.parentId names b) :
      Climbs st a (cat.name :: names) b

/-- The catalog has records for the names from one inode down to another. -/
inductive Named (st : NameStore) : ℕ → List (List ℕ) → ℕ → Prop
  | here (a : ℕ) : Named st a [] a
  | down {b : ℕ} {entry : CatalogRecord} {names : List (List ℕ)}
      (hmem : entry ∈ st.catalog.records) (hrest : Named st entry.inodeId names b) :
      Named st entry.parentId (entry.name :: names) b

/-- The root is at most 256 names above an inode. -/
def Near (st : NameStore) (inodeId : ℕ) : Prop :=
  ∃ names, names.length ≤ resolveMaxDepth ∧ st.Climbs inodeId names rootInodeId

/-- The 256 names next above an inode are names from the root down to it, too. -/
def NamedAgain (st : NameStore) (inodeId : ℕ) : Prop :=
  ∃ names b, names.length = resolveMaxDepth ∧ st.Climbs inodeId names b ∧
    st.Named rootInodeId names.reverse inodeId

/-- The names in a catalog, the one of the root apart, are components of paths. -/
def NamesPassed (st : NameStore) : Prop :=
  ∀ r ∈ st.catalog.records, r.inodeId ≠ rootInodeId → ∃ c : Component, r.name = c.bytes

theorem Named.append {below : List (List ℕ)} (h : st.Named a names b) (hbelow : st.Named b below c) :
    st.Named a (names ++ below) c := by
  induction h with
  | here => exact hbelow
  | down hmem _ ih => exact Named.down hmem (ih hbelow)

theorem Named.eq_of_nil (h : st.Named a [] b) : a = b := by
  cases h
  rfl

theorem Named.exists_entry (h : st.Named a (name :: names) b) :
    ∃ entry ∈ st.catalog.records, entry.parentId = a ∧ entry.name = name ∧
      st.Named entry.inodeId names b := by
  cases h with
  | down hmem hrest => exact ⟨_, hmem, rfl, rfl, hrest⟩

theorem followNames_eq_some (hordered : st.catalog.Ordered catalogKey) :
    st.followNames a names = some b ↔ st.Named a names b := by
  constructor
  · intro hfollow
    induction names generalizing a with
    | nil =>
      obtain rfl := Option.some.inj hfollow
      exact Named.here a
    | cons name names ih =>
      rw [followNames] at hfollow
      split at hfollow
      · cases hfollow
      · rename_i entry hentry
        obtain ⟨hmem, hkey⟩ := (Root.mem_lookup hordered).mp hentry
        obtain ⟨rfl, rfl⟩ := Prod.mk.inj (congrArg ofLex hkey)
        exact Named.down hmem (ih hfollow)
  · intro hnamed
    induction hnamed with
    | here => rfl
    | @down b entry names hmem _ ih =>
      have hlookup : st.catalogLookup (toLex (entry.parentId, entry.name)) = some entry :=
        (Root.mem_lookup hordered).mpr ⟨hmem, rfl⟩
      rw [followNames, hlookup]
      exact ih

/-! ### The climb -/

theorem mem_of_findByInode {cat : CatalogRecord} (hfind : st.findByInode a = some cat) :
    cat ∈ st.catalog.records ∧ cat.inodeId = a := by
  have hmem := (Root.recordsFrom_suffix (fun _ ↦ 0) st.catalog).subset
    (List.mem_of_find?_eq_some hfind)
  have hid := List.find?_some (p := fun r : CatalogRecord ↦ decide (r.inodeId = a)) hfind
  exact ⟨hmem, of_decide_eq_true hid⟩

theorem Climbs.named (h : st.Climbs a names b) : st.Named b names.reverse a := by
  induction h with
  | here a => exact Named.here a
  | @up a b cat names _ hfind _ ih =>
    obtain ⟨hmem, rfl⟩ := mem_of_findByInode hfind
    rw [List.reverse_cons]
    exact ih.append (Named.down hmem (Named.here _))

/-- The names that are collected go up to the root, or there is no room for more of them. -/
theorem collectComponents_eq_ok {room : ℕ} : st.collectComponents room a = .ok names ↔
      names.length ≤ room ∧ ∃ b, st.Climbs a names b ∧ (b = rootInodeId ∨ names.length = room) := by
  constructor
  · intro hcollect
    induction room generalizing a names with
    | zero =>
      obtain rfl := Except.ok.inj hcollect
      exact ⟨le_rfl, a, Climbs.here a, Or.inr rfl⟩
    | succ room ih =>
      rw [collectComponents] at hcollect
      split_ifs at hcollect with hroot
      · obtain rfl := Except.ok.inj hcollect
        exact ⟨Nat.zero_le _, a, Climbs.here a, Or.inl hroot⟩
      · cases hfind : st.findByInode a with
        | none =>
          rw [hfind] at hcollect
          cases hcollect
        | some cat =>
          rw [hfind] at hcollect
          cases hrest : st.collectComponents room cat.parentId with
          | error e =>
            simp only [hrest] at hcollect
            cases hcollect
          | ok rest =>
            simp only [hrest] at hcollect
            obtain rfl := Except.ok.inj hcollect
            obtain ⟨hroom, b, hclimb, hend⟩ := ih hrest
            exact ⟨Nat.succ_le_succ hroom, b, Climbs.up hroot hfind hclimb,
              hend.imp_right (congrArg (· + 1))⟩
  · rintro ⟨hroom, b, hclimb, hend⟩
    induction hclimb generalizing room with
    | here a =>
      cases room with
      | zero => rfl
      | succ room =>
        rcases hend with rfl | hfull
        · exact if_pos rfl
        · cases hfull
    | up hne hfind _ ih =>
      cases room with
      | zero => cases hroom
      | succ room =>
        have hrest := ih (Nat.le_of_succ_le_succ hroom) (hend.imp_right Nat.succ.inj)
        simp only [collectComponents, if_neg hne, hfind, hrest]
        rfl

/-- The names of a climb are components of paths. -/
theorem Climbs.components (hnames : st.NamesPassed) (h : st.Climbs a names b) :
    ∃ p : List Component, names = p.map Component.bytes := by
  induction h with
  | here => exact ⟨[], rfl⟩
  | up hne hfind _ ih =>
    obtain ⟨p, rfl⟩ := ih
    obtain ⟨hmem, rfl⟩ := mem_of_findByInode hfind
    obtain ⟨c, hc⟩ := hnames _ hmem hne
    exact ⟨c :: p, by rw [hc, List.map_cons]⟩

/-! ### The path -/

variable {depth j k : ℕ} {size : ℕ}

theorem buildPath_eq_ok {path built : List ℕ} : buildPath size built names = .ok path ↔
      path = built ++ names.flatMap (47 :: ·) ∧ (names = [] ∨ path.length < size) := by
  induction names generalizing built with
  | nil =>
    rw [buildPath, Except.ok.injEq, List.flatMap_nil, List.append_nil]
    exact ⟨fun h ↦ ⟨h.symm, Or.inl rfl⟩, fun h ↦ h.1.symm⟩
  | cons name names ih =>
    have hassoc : built ++ 47 :: name ++ names.flatMap (47 :: ·) =
        built ++ (name :: names).flatMap (47 :: ·) := by
      simp
    have hlength : (built ++ (name :: names).flatMap (47 :: ·)).length =
        built.length + 1 + name.length + (names.flatMap (47 :: ·)).length := by
      simp only [List.length_append, List.flatMap_cons, List.length_cons]
      omega
    rw [buildPath]
    split_ifs with hfull
    · refine ⟨nofun, ?_⟩
      rintro ⟨rfl, hnil | hfits⟩
      · cases hnil
      · omega
    · rw [ih, hassoc]
      refine and_congr_right fun hpath ↦ ?_
      subst hpath
      rw [hlength]
      constructor
      · rintro (rfl | hfits)
        · rw [List.flatMap_nil, List.length_nil]
          exact Or.inr (by omega)
        · exact Or.inr hfits
      · rintro (hnil | hfits)
        · cases hnil
        · exact Or.inr hfits

theorem strtok_path (p : List Component) :
    strtok 47 ((p.map Component.bytes).flatMap (47 :: ·)) [] = p.map Component.bytes := by
  cases p with
  | nil => rfl
  | cons c p =>
    have htokens : strtok 47 (c.bytes ++ bytesBelow p) [] = (c :: p).map Component.bytes := by
      rw [strtok_append c.slash_not_mem, List.nil_append, strtok_bytesBelow p c.bytes_ne_nil]
      rfl
    rw [List.flatMap_map]
    exact htokens

/-- What is reported with success: the names on the way up, to the root or to the end of the room. -/
theorem resolveInodePath_eq_ok {path : List ℕ} (hne : i ≠ rootInodeId) :
    st.resolveInodePath i size = .ok path ↔
      ∃ names b, names.length ≤ resolveMaxDepth ∧ st.Climbs i names b ∧
        (b = rootInodeId ∨ names.length = resolveMaxDepth) ∧
        path = names.reverse.flatMap (47 :: ·) ∧ path.length < size := by
  rw [resolveInodePath, if_neg hne]
  constructor
  · intro hok
    split_ifs at hok
    cases hcollect : st.collectComponents resolveMaxDepth i with
    | error e =>
      rw [hcollect] at hok
      cases hok
    | ok names =>
      rw [hcollect] at hok
      obtain ⟨hroom, b, hclimb, hend⟩ := collectComponents_eq_ok.mp hcollect
      obtain ⟨hpath, hfits⟩ := buildPath_eq_ok.mp hok
      refine ⟨names, b, hroom, hclimb, hend, hpath, hfits.resolve_left fun hnil ↦ ?_⟩
      -- Without a name the climb would have ended where it began.
      obtain rfl := List.reverse_eq_nil_iff.mp hnil
      cases hclimb
      exact hend.elim hne nofun
  · rintro ⟨names, b, hroom, hclimb, hend, hpath, hfits⟩
    have hcollect := collectComponents_eq_ok.mpr ⟨hroom, b, hclimb, hend⟩
    rw [if_neg (Nat.ne_of_gt (Nat.zero_lt_of_lt hfits)), hcollect]
    exact buildPath_eq_ok.mpr ⟨hpath, Or.inr hfits⟩

theorem Climbs.leadsTo_iff (hordered : st.catalog.Ordered catalogKey) (hnames : st.NamesPassed)
    (h : st.Climbs a names b) (hne : names ≠ []) :
    st.LeadsTo (names.reverse.flatMap (47 :: ·)) c ↔ st.Named rootInodeId names.reverse c := by
  obtain ⟨p, rfl⟩ := h.components hnames
  rw [LeadsTo, ← List.map_reverse, strtok_path, followNames_eq_some hordered]
  refine and_iff_right ?_
  cases hp : p.reverse with
  | nil => exact absurd (by rw [List.reverse_eq_nil_iff.mp hp]; rfl) hne
  | cons c q => rfl

/-- For every catalog and buffer: the path that the function reports with success leads to the
inode when the root is at most 256 names above it, or when the 256 names next above it happen to be
names from the root down to another record of it; and the path and its NUL fit, except those of the
root in a buffer of one byte. -/
theorem resolveInodePath_leads_iff (hordered : st.catalog.Ordered catalogKey)
    (hnames : st.NamesPassed) {size : ℕ} {path : List ℕ}
    (hok : st.resolveInodePath i size = .ok path) :
    (st.LeadsTo path i ↔ st.Near i ∨ st.NamedAgain i) ∧
      (path.length < size ↔ ¬(i = rootInodeId ∧ size = 1)) := by
  rcases eq_or_ne i rootInodeId with rfl | hne
  · have hnear : st.Near rootInodeId := ⟨[], Nat.zero_le _, Climbs.here _⟩
    rw [resolveInodePath, if_pos rfl] at hok
    split_ifs at hok with hsize
    obtain rfl := Except.ok.inj hok
    refine ⟨iff_of_true ⟨rfl, rfl⟩ (Or.inl hnear), ?_⟩
    rw [List.length_singleton, eq_self, true_and]
    omega
  · obtain ⟨names, b, hroom, hclimb, hend, rfl, hfits⟩ := (resolveInodePath_eq_ok hne).mp hok
    refine ⟨?_, iff_of_true hfits fun hroot ↦ hne hroot.1⟩
    have hnil : names ≠ [] := by
      rintro rfl
      cases hclimb
      exact hend.elim hne nofun
    rw [hclimb.leadsTo_iff hordered hnames hnil]
    constructor
    · intro hnamed
      rcases hend with rfl | hfull
      · exact Or.inl ⟨names, hroom, hclimb⟩
      · exact Or.inr ⟨names, b, hfull, hclimb, hnamed⟩
    · have hcollect := collectComponents_eq_ok.mpr ⟨hroom, b, hclimb, hend⟩
      rintro (⟨names', hroom', hclimb'⟩ | ⟨names', b', hfull', hclimb', hnamed'⟩)
      · have hcollect' := collectComponents_eq_ok.mpr ⟨hroom', _, hclimb', Or.inl rfl⟩
        obtain rfl := Except.ok.inj (hcollect.symm.trans hcollect')
        exact hclimb'.named
      · have hcollect' := collectComponents_eq_ok.mpr ⟨hfull'.le, _, hclimb', Or.inr hfull'⟩
        obtain rfl := Except.ok.inj (hcollect.symm.trans hcollect')
        exact hnamed'

/-! ### A chain that is too long -/

theorem namesPassed_chain (depth : ℕ) : (chain depth).NamesPassed := by
  intro r hr hne
  rcases List.mem_cons.mp hr with rfl | hr
  · exact absurd rfl hne
  · obtain ⟨j, -, rfl⟩ := List.mem_map.mp hr
    exact ⟨⟨[100], by decide⟩, rfl⟩

theorem findByInode_chain {depth j : ℕ} (hj : j < depth) :
    (chain depth).findByInode (j + 3) = some (chainRecord j) := by
  have hroot : ¬rootRecord.inodeId = j + 3 := fun h ↦ by
    change 2 = j + 3 at h
    omega
  have hfind : ((List.range depth).map chainRecord).find? (fun r ↦ decide (r.inodeId = j + 3)) =
      some (chainRecord j) := by
    rw [List.find?_map]
    refine congrArg (Option.map chainRecord) (List.find?_range_eq_some.mpr ⟨?_, ?_, ?_⟩)
    · exact decide_eq_true rfl
    · exact List.mem_range.mpr hj
    · intro k hk
      have hne : ¬(chainRecord k).inodeId = j + 3 := fun h ↦ by
        change k + 3 = j + 3 at h
        omega
      rw [Function.comp_apply, decide_eq_false hne]
      rfl
  change (rootRecord :: (List.range depth).map chainRecord).find? _ = _
  rw [List.find?_cons_of_neg (by simpa using hroot), hfind]

theorem climbs_chain (hj : k + j ≤ depth) :
    (chain depth).Climbs (k + j + 2) (List.replicate k [100]) (j + 2) := by
  induction k with
  | zero =>
    rw [Nat.zero_add]
    exact Climbs.here _
  | succ k ih =>
    have hstep := ih (by omega)
    have hfind : (chain depth).findByInode (k + 1 + j + 2) = some (chainRecord (k + j)) := by
      rw [show k + 1 + j + 2 = k + j + 3 by omega]
      exact findByInode_chain (by omega)
    exact Climbs.up (by change k + 1 + j + 2 ≠ 2; omega) hfind hstep

theorem named_chain (h : (chain depth).Named (j + 2) (List.replicate k [100]) b) :
    b = j + 2 + k := by
  induction k generalizing j with
  | zero => exact h.eq_of_nil.symm
  | succ k ih =>
    obtain ⟨entry, hmem, hparent, hname, hrest⟩ := h.exists_entry
    rcases List.mem_cons.mp hmem with rfl | hmem
    · cases hname
    · obtain ⟨i, -, rfl⟩ := List.mem_map.mp hmem
      obtain rfl : i = j := Nat.add_right_cancel hparent
      rw [ih (j := i + 1) hrest]
      omega

/-- Below the root the climb ends at the root. -/
theorem resolveInodePath_leads_one :
    (chain 1).resolveInodePath 3 4096 = .ok [47, 100] ∧ (chain 1).LeadsTo [47, 100] 3 := by
  have hok : (chain 1).resolveInodePath 3 4096 = .ok [47, 100] := by decide
  have hnear : (chain 1).Near 3 := ⟨[[100]], by decide, climbs_chain (k := 1) (j := 0) le_rfl⟩
  exact ⟨hok, (resolveInodePath_leads_iff (directoryTree_chain 1).ordered (namesPassed_chain 1)
    hok).1.mpr (Or.inl hnear)⟩

/-- From the last directory of a chain of 257 the climb stops one below the root. It is a success,
and the path is the one of the last directory but one. -/
theorem resolveInodePath_misleads : (chain 257).DirectoryTree ∧ (chain 257).NamesPassed ∧
      (∃ r ∈ (chain 257).catalog.records, r.inodeId = 259) ∧
      ∃ path, (chain 257).resolveInodePath 259 4096 = .ok path ∧ (chain 257).LeadsTo path 258 ∧
        ¬(chain 257).LeadsTo path 259 := by
  have hclimb : (chain 257).Climbs 259 (List.replicate resolveMaxDepth [100]) 3 :=
    climbs_chain (k := 256) (j := 1) le_rfl
  have hcut : (chain 257).Climbs 258 (List.replicate resolveMaxDepth [100]) rootInodeId :=
    climbs_chain (k := 256) (j := 0) (Nat.le_succ 256)
  have hordered := (directoryTree_chain 257).ordered
  have hnames := namesPassed_chain 257
  have hne : List.replicate resolveMaxDepth [100] ≠ [] := List.replicate_succ_ne_nil
  have hfits : ((List.replicate resolveMaxDepth [100]).reverse.flatMap (47 :: ·)).length < 4096 := by
    decide +kernel
  have hok := (resolveInodePath_eq_ok (i := 259) (by decide)).mpr
    ⟨_, 3, List.length_replicate.le, hclimb, Or.inr List.length_replicate, rfl, hfits⟩
  refine ⟨directoryTree_chain 257, hnames, ⟨chainRecord 256, ?_, rfl⟩, _, hok, ?_, ?_⟩
  · exact List.mem_cons_of_mem _ (List.mem_map_of_mem (List.mem_range.mpr (by omega)))
  · exact (hcut.leadsTo_iff hordered hnames hne).mpr hcut.named
  · rw [hclimb.leadsTo_iff hordered hnames hne, List.reverse_replicate]
    exact fun hnamed ↦ absurd (named_chain (j := 0) hnamed) (by decide)

end Obmafs3.NameStore
