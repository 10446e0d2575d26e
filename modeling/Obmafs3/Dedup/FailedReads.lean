import Obmafs3.Dedup.Tree
import Obmafs3.Library.SearchTreePatch

/-!
# Reads that fail during an insertion

An insertion repairs a node that it cannot read on the way down: an empty leaf takes the place of
the node, and the descent starts again and ends there. Nothing asks whether the node is bad on the
disk or the read alone was, so a read that fails once costs everything below the node.

The insert phase reads the right neighbour of a node that it divides, to correct its left link. It
passes over an error there, but it does not look at the magic, and writes bytes that are no node
back to the disk. What it read on the way down it finds in the node cache.

A read fails for this code when it returns an error or, on the way down, when the bytes do not begin
with the magic. Checksums are written and never compared.
-/

set_option autoImplicit false

namespace Obmafs3

open Library.Search Library.SearchTree

/-- How a read of a node fails: with an error, or with bytes that are no node. -/
inductive ReadFailure
  | io
  | badMagic
  deriving DecidableEq

/-- The reads of nodes from the disk during one insertion: on the way down, and of the right
neighbour of a node that is divided. -/
inductive NodeRead
  | down (depth : ℕ)
  | beside (level : ℕ)
  deriving DecidableEq

/-- A read that fails once. `stored` says whether the bytes on the disk are bad themselves. -/
structure ReadFault where
  read : NodeRead
  failure : ReadFailure
  stored : Bool

/-- What stands in place of the node at an LBA: a leaf, or bytes that are no node. -/
structure Patch where
  lba : ℕ
  leaf : Option (List DedupEntry)
  deriving DecidableEq

/-- A tree on disk and the place, if any, where it is not what its nodes spell. -/
structure PatchedTree where
  tree : DedupTree
  patch : Option Patch

/-- `obmafs3_dedup_lookup` in the tree. Bytes that are no node end it with an error. -/
def PatchedTree.lookup (patched : PatchedTree) (hash : ℕ) : Option DedupEntry :=
  match patched.patch with
  | none => dedupLookup patched.tree hash
  | some p => patched.tree.lookupPatched DedupEntry.hash p.lba (p.leaf.getD []) hash

/-- The LBA that a read is for. -/
def nodeRead (tree : DedupTree) (hash : ℕ) : NodeRead → Option ℕ
  | .down depth => tree.met hash depth
  | .beside level => tree.beside hash level

/-- The tree before the call. -/
def ReadFault.before (fault : ReadFault) (tree : DedupTree) (hash : ℕ) : PatchedTree :=
  ⟨tree, if fault.stored then
    (nodeRead tree hash fault.read).map fun lba ↦ ⟨lba, none⟩ else none⟩

/-- The node that the descent fails to read. The descent ends below
`DEDUP_BTREE_MAX_DEPTH` index nodes. -/
def ReadFault.struck (fault : ReadFault) (tree : DedupTree) (hash : ℕ) : Option ℕ :=
  match fault.read with
  | .down depth => if depth ≤ dedupBtreeMaxDepth then tree.met hash depth else none
  | .beside _ => none

/-- How the find phase ends. -/
inductive FindOutcome
  | failed (status : ErrorCode)
  | found (existing : DedupEntry)
  | absent
  /-- The descent that started again has ended in the empty leaf in place of the node. -/
  | healed (lba : ℕ)

/-- `dedup_upsert_find`. `spare` is the block that `obmafs3_alloc_blocks` hands out, if it does. -/
def dedupUpsertFindFailing (spare : Option ℕ) (fault : ReadFault) (tree : DedupTree) (hash : ℕ) :
    FindOutcome :=
  match fault.struck tree hash with
  | some lba =>
    match fault.failure with
    | .badMagic => .healed lba
    | .io =>
      -- `heal_bad_child`: the root cannot be replaced from here.
      if fault.read = .down 0 then .failed .io
      else
        match spare with
        | none => .failed .noSpc
        | some _ => .healed lba
  | none =>
    match dedupUpsertFind tree hash with
    | .error e => .failed e
    | .ok (some existing) => .found existing
    | .ok none => .absent

/-- Whether an insertion divides the node it meets at a level. -/
def Insertion.Divides (blockSize : ℕ) (i : Insertion) (tree : DedupTree) (level : ℕ) : Prop :=
  level < tree.demand DedupEntry.hash (dedupLeafMaxKeys blockSize) (dedupIndexMaxKeys blockSize)
      i.entry ∧
    ∀ below ≤ level, i.fresh below ≠ none

instance (blockSize : ℕ) (i : Insertion) (tree : DedupTree) (level : ℕ) :
    Decidable (i.Divides blockSize tree level) :=
  inferInstanceAs (Decidable (_ ∧ _))

/-- The neighbour over which the insert phase writes bytes that are no node. -/
def ReadFault.garbled (fault : ReadFault) (blockSize : ℕ) (i : Insertion) (tree : DedupTree) :
    Option ℕ :=
  match fault.read, fault.failure with
  | .beside level, .badMagic =>
    if i.Divides blockSize tree level then tree.beside i.entry.hash level else none
  | _, _ => none

/-- An insertion during which a read fails. An empty leaf has room for the entry. -/
def dedupUpsertFailing (blockSize : ℕ) (spare : Option ℕ) (fault : ReadFault) (i : Insertion)
    (tree : DedupTree) : Option ErrorCode × PatchedTree :=
  match dedupUpsertFindFailing spare fault tree i.entry.hash with
  | .failed e => (some e, fault.before tree i.entry.hash)
  | .found _ => (none, fault.before tree i.entry.hash)
  | .healed lba => (none, ⟨tree, some ⟨lba, some [i.entry]⟩⟩)
  | .absent =>
    let (status, tree') := dedupUpsertInsert blockSize i.fresh i.entry tree
    match fault.garbled blockSize i tree with
    | some lba => (status, ⟨tree', some ⟨lba, none⟩⟩)
    | none => (status, ⟨tree', (fault.before tree i.entry.hash).patch⟩)

/-- Every hash that was found before the call is found after it. -/
def FindableKept (blockSize : ℕ) (spare : Option ℕ) (fault : ReadFault) (i : Insertion)
    (tree : DedupTree) : Prop :=
  ∀ hash, (fault.before tree i.entry.hash).lookup hash ≠ none →
    (dedupUpsertFailing blockSize spare fault i tree).2.lookup hash ≠ none

/-- A read whose failure costs nothing: the bytes on the disk are bad as well, or the descent gives
up at once, or nothing is to be found below the node but the hash of the call. -/
def Spared (blockSize : ℕ) (spare : Option ℕ) (fault : ReadFault) (i : Insertion)
    (tree : DedupTree) : Prop :=
  fault.stored = true ∨
    match fault.struck tree i.entry.hash with
    | some lba =>
      fault.failure = .io ∧ (fault.read = .down 0 ∨ spare = none) ∨
        ∀ r ∈ tree.under lba, r.hash = i.entry.hash
    | none =>
      dedupUpsertFind tree i.entry.hash = .ok none →
        ∀ lba, fault.garbled blockSize i tree = some lba → tree.under lba = []

/-- A tree whose order a search can rely on and whose nodes are in blocks of their own, and blocks
for an insertion that are not among them. -/
structure ValidFor (i : Insertion) (tree : DedupTree) : Prop where
  ordered : tree.Ordered DedupEntry.hash
  distinct : tree.Distinct
  fresh : ∀ level lba, i.fresh level = some lba → ∀ other, lba ∉ tree.row other

section Kept

variable {blockSize : ℕ} {spare : Option ℕ} {fault : ReadFault} {i : Insertion} {tree : DedupTree}

variable {hash : ℕ}

theorem lookup_ne_none_iff {patched : PatchedTree} :
    patched.lookup hash ≠ none ↔ ∃ r, patched.lookup hash = some r :=
  Option.ne_none_iff_exists'

/-- What is found before the call is in the tree, and not below a node that is bad on the disk. -/
theorem lookup_before (hordered : tree.Ordered DedupEntry.hash) {r : DedupEntry} :
    (fault.before tree i.entry.hash).lookup hash = some r ↔ dedupLookup tree hash = some r ∧
        (fault.stored = true → ∀ lba, nodeRead tree i.entry.hash fault.read = some lba →
          r ∉ tree.under lba) := by
  unfold ReadFault.before PatchedTree.lookup
  cases hstored : fault.stored with
  | false => simp
  | true =>
    cases hread : nodeRead tree i.entry.hash fault.read with
    | none => simp
    | some lba => simpa [dedupLookup] using Root.lookupPatched_nil hordered

variable {lba : ℕ}

theorem struck_met (hstruck : fault.struck tree i.entry.hash = some lba) :
    ∃ depth, tree.met i.entry.hash depth = some lba ∧
      nodeRead tree i.entry.hash fault.read = some lba := by
  unfold ReadFault.struck at hstruck
  cases hread : fault.read with
  | down depth =>
    rw [hread] at hstruck
    simp only at hstruck
    split_ifs at hstruck
    exact ⟨depth, hstruck, hstruck⟩
  | beside level =>
    rw [hread] at hstruck
    cases hstruck

/-! ### Descents that start again -/

/-- After a repair the entry of the call is found, and what is below the node is not. -/
theorem healed_iff (hordered : tree.Ordered DedupEntry.hash)
    (hstruck : fault.struck tree i.entry.hash = some lba) :
    (∀ hash, (fault.before tree i.entry.hash).lookup hash ≠ none →
        (PatchedTree.mk tree (some ⟨lba, some [i.entry]⟩)).lookup hash ≠ none) ↔
      fault.stored = true ∨ ∀ r ∈ tree.under lba, r.hash = i.entry.hash := by
  obtain ⟨depth, hmet, hread⟩ := struck_met hstruck
  constructor
  · intro hkept
    refine or_iff_not_imp_left.mpr fun hstored r hr ↦ by_contra fun hne ↦ ?_
    have hbefore : (fault.before tree i.entry.hash).lookup r.hash = some r :=
      (lookup_before hordered).mpr
        ⟨Root.lookup_of_under hordered hr, fun h ↦ absurd h hstored⟩
    refine hkept r.hash (by rw [hbefore]; exact Option.some_ne_none r) ?_
    have hleaf : tree.lookupPatched DedupEntry.hash lba [i.entry] r.hash = _ :=
      Root.lookupPatched_of_mem hordered hr
    rw [leaf_lookup_singleton, if_neg (Ne.symm hne)] at hleaf
    exact hleaf
  · intro hspared hash hfound
    obtain ⟨r, hr⟩ := lookup_ne_none_iff.mp hfound
    obtain ⟨hlookup, hbad⟩ := (lookup_before hordered).mp hr
    refine lookup_ne_none_iff.mpr ?_
    by_cases hunder : r ∈ tree.under lba
    · have hhash : hash = i.entry.hash := by
        rcases hspared with hstored | hall
        · exact absurd hunder (hbad hstored lba hread)
        · rw [← hall r hunder, Root.lookup_key hlookup]
      have hleaf : tree.lookupPatched DedupEntry.hash lba [i.entry] i.entry.hash = _ :=
        Root.lookupPatched_of_met hmet
      rw [leaf_lookup_singleton, if_pos rfl] at hleaf
      exact ⟨i.entry, hhash ▸ hleaf⟩
    · exact ⟨r, Root.lookupPatched_of_notMem hlookup hunder⟩

/-! ### Neighbours -/

/-- What a harmless insertion of a hash that is not in the tree does: nothing when the allocator
refuses it, or it puts the entry in and keeps what is below every node that it does not meet. -/
theorem insert_cases (hroom : Roomful blockSize) (hvalid : ValidFor i tree)
    (hharmless : Harmless blockSize tree i) (habsent : dedupUpsertFind tree i.entry.hash = .ok none) :
    (i.fresh 0 = none ∧ (dedupUpsertInsert blockSize i.fresh i.entry tree).2 = tree) ∨
      (dedupUpsertInsert blockSize i.fresh i.entry tree).2.Ordered DedupEntry.hash ∧
        (∀ hash r, dedupLookup tree hash = some r →
          dedupLookup (dedupUpsertInsert blockSize i.fresh i.entry tree).2 hash = some r) ∧
        ∀ lba level, tree.beside i.entry.hash level = some lba →
          (dedupUpsertInsert blockSize i.fresh i.entry tree).2.under lba = tree.under lba := by
  have hnone : dedupLookup tree i.entry.hash = none := by
    unfold dedupUpsertFind at habsent
    split_ifs at habsent
    exact Except.ok.inj habsent
  unfold dedupUpsertInsert
  rcases hrun : tree.put DedupEntry.hash (dedupLeafMaxKeys blockSize)
    (dedupIndexMaxKeys blockSize) i.fresh i.entry with ⟨tree', done⟩
  have htree : (tree.put DedupEntry.hash (dedupLeafMaxKeys blockSize)
    (dedupIndexMaxKeys blockSize) i.fresh i.entry).1 = tree' := congrArg Prod.fst hrun
  have hdone : (tree.put DedupEntry.hash (dedupLeafMaxKeys blockSize)
    (dedupIndexMaxKeys blockSize) i.fresh i.entry).2 = done := congrArg Prod.snd hrun
  cases done with
  | false =>
    rcases hharmless.granted with hrefused | hgranted
    · exact Or.inl ⟨hrefused, htree ▸ Root.put_ungranted hrefused hdone⟩
    · rw [Root.put_granted hvalid.ordered.solid hgranted] at hdone
      cases hdone
  | true =>
    refine Or.inr ⟨?_, fun hash r hfound ↦ ?_, fun lba level hbeside ↦ ?_⟩
    · exact htree ▸ Root.put_ordered hroom.1 hroom.2 i.fresh hvalid.ordered hharmless.safe
    · have hlookup := Root.lookup_put hroom.1 hroom.2 hvalid.ordered hharmless.safe hdone hash
      have hne : i.entry.hash ≠ hash := by
        rintro rfl
        rw [hnone] at hfound
        cases hfound
      rw [if_neg hne, htree] at hlookup
      exact hlookup.trans hfound
    · have hrow : lba ∈ tree.row level := Root.beside_mem_row hbeside
      have hunder := Root.under_put hvalid.ordered.solid (Root.met_ne_beside hvalid.distinct hbeside)
        (fun below h ↦ hvalid.fresh below lba h level hrow) hdone
      rwa [htree] at hunder

theorem garbled_beside (hgarbled : fault.garbled blockSize i tree = some lba) :
    ∃ level, fault.read = .beside level ∧ i.fresh 0 ≠ none ∧
      tree.beside i.entry.hash level = some lba := by
  unfold ReadFault.garbled at hgarbled
  cases hread : fault.read with
  | down depth => simp [hread] at hgarbled
  | beside level =>
    cases hfailure : fault.failure with
    | io => simp [hread, hfailure] at hgarbled
    | badMagic =>
      simp only [hread, hfailure] at hgarbled
      split_ifs at hgarbled with hdivides
      exact ⟨level, rfl, hdivides.2 0 (Nat.zero_le level), hgarbled⟩

/-- A node that an insertion does not meet on the way down, and whose bytes are bad on the disk, is a
neighbour. -/
theorem nodeRead_beside (hstruck : fault.struck tree i.entry.hash = none)
    (habsent : dedupUpsertFind tree i.entry.hash = .ok none)
    (hread : nodeRead tree i.entry.hash fault.read = some lba) :
    ∃ level, tree.beside i.entry.hash level = some lba := by
  unfold ReadFault.struck at hstruck
  cases hplace : fault.read with
  | beside level =>
    rw [hplace] at hread
    exact ⟨level, hread⟩
  | down depth =>
    rw [hplace] at hread
    simp only [hplace] at hstruck
    have hmet : tree.met i.entry.hash depth = some lba := hread
    have hdepth : depth ≤ dedupBtreeMaxDepth := by
      unfold dedupUpsertFind at habsent
      split_ifs at habsent with hheight
      have hle := (Root.met_mem_row hmet).1
      omega
    rw [if_pos hdepth, hmet] at hstruck
    cases hstruck

/-- The insert phase loses what is below the neighbour that it writes back bad, and nothing else. -/
theorem inserted_iff (hroom : Roomful blockSize) (hvalid : ValidFor i tree)
    (hharmless : Harmless blockSize tree i) (hstruck : fault.struck tree i.entry.hash = none)
    (habsent : dedupUpsertFind tree i.entry.hash = .ok none) :
    FindableKept blockSize spare fault i tree ↔ fault.stored = true ∨
        ∀ lba, fault.garbled blockSize i tree = some lba → tree.under lba = [] := by
  have hrun : (dedupUpsertFailing blockSize spare fault i tree).2 =
      ⟨(dedupUpsertInsert blockSize i.fresh i.entry tree).2,
        match fault.garbled blockSize i tree with
        | some lba => some ⟨lba, none⟩
        | none => (fault.before tree i.entry.hash).patch⟩ := by
    simp only [dedupUpsertFailing, dedupUpsertFindFailing, hstruck, habsent]
    cases fault.garbled blockSize i tree <;> rfl
  unfold FindableKept
  rw [hrun]
  have hcases := insert_cases hroom hvalid hharmless habsent
  cases hgarbled : fault.garbled blockSize i tree with
  | none =>
    refine ⟨fun _ ↦ Or.inr (by simp), fun _ hash hfound ↦ ?_⟩
    rcases hcases with ⟨-, hsame⟩ | ⟨hordered, hkept, hunder⟩
    · rw [hsame]
      exact hfound
    · obtain ⟨r, hr⟩ := lookup_ne_none_iff.mp hfound
      obtain ⟨hlookup, hbad⟩ := (lookup_before hvalid.ordered).mp hr
      refine lookup_ne_none_iff.mpr ⟨r, ?_⟩
      unfold ReadFault.before PatchedTree.lookup
      cases hstored : fault.stored with
      | false => exact hkept hash r hlookup
      | true =>
        cases hread : nodeRead tree i.entry.hash fault.read with
        | none => exact hkept hash r hlookup
        | some lba =>
          obtain ⟨level, hbeside⟩ := nodeRead_beside hstruck habsent hread
          refine Root.lookupPatched_of_notMem (hkept hash r hlookup) ?_
          rw [hunder lba level hbeside]
          exact hbad hstored lba hread
  | some lba =>
    obtain ⟨level, hplace, hgranted, hbeside⟩ := garbled_beside hgarbled
    have hread : nodeRead tree i.entry.hash fault.read = some lba := by
      rw [hplace]
      exact hbeside
    rcases hcases with ⟨hrefused, -⟩ | ⟨hordered, hkept, hunder⟩
    · exact absurd hrefused hgranted
    · simp only [Option.some.injEq, forall_eq']
      constructor
      · intro hall
        refine or_iff_not_imp_left.mpr fun hstored ↦
          List.eq_nil_iff_forall_not_mem.mpr fun r hr ↦ ?_
        have hbefore : (fault.before tree i.entry.hash).lookup r.hash = some r :=
          (lookup_before hvalid.ordered).mpr
            ⟨Root.lookup_of_under hvalid.ordered hr, fun h ↦ absurd h hstored⟩
        refine hall r.hash (by rw [hbefore]; exact Option.some_ne_none r) ?_
        rw [← hunder lba level hbeside] at hr
        exact (Root.lookupPatched_of_mem hordered hr).trans (leaf_lookup_nil lba)
      · intro hspared hash hfound
        obtain ⟨r, hr⟩ := lookup_ne_none_iff.mp hfound
        obtain ⟨hlookup, hbad⟩ := (lookup_before hvalid.ordered).mp hr
        refine lookup_ne_none_iff.mpr
          ⟨r, Root.lookupPatched_of_notMem (hkept hash r hlookup) ?_⟩
        rw [hunder lba level hbeside]
        rcases hspared with hstored | hempty
        · exact hbad hstored lba hread
        · rw [hempty]
          exact List.not_mem_nil

end Kept

/-- The tree after insertions of the hashes `1` to `40`: two leaves of 20 entries below a root. -/
def twoLeaves : DedupTree :=
  upsertAll 1024 (fillLeaf ++ [⟨⟨40, 0, 39⟩, fun level ↦ some (level + 9)⟩]) (newDedupTree 8)

end Obmafs3
