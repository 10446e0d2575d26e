import Obmafs3.Btree

/-!
# The refcount table

The refcount table keeps a record for every block that more than one extent shares. A block without
a record has one reference. Lookups keep the last leaf they read, and answer from it every block
between the first and the last record of that leaf.
-/

set_option autoImplicit false

namespace Obmafs3

open Library.Search

/-- The refcount table as one of the trees. -/
def refcountKind : TreeKind ℕ RefcountRecord where
  key := RefcountRecord.lba
  recordSize := 12
  entrySize := 16
  toBlock := .refcountNode
  ofBlock
    | .refcountNode node => some node
    | _ => none
  ofBlock_toBlock _ := rfl
  ofBlock_header _ := rfl

/-- The cached leaf: `rc_leaf_min`, `rc_leaf_max` and the records of `rc_leaf_buf`. -/
structure RcLeaf where
  min : ℕ
  max : ℕ
  records : List RefcountRecord

/-- The part of the mounted context that the refcount functions use; `rcLeaf` is `none` when
`rc_leaf_valid` is zero. -/
structure RefcountCtx extends TreeCtx where
  refcountLba : ℕ
  rcLeaf : Option RcLeaf

/-- Run tree code on the refcount tree. -/
def onRefcountTree {α : Type} (op : Op TreeCtx α) : Op RefcountCtx α := fun ctx ↦
  match op ctx.toTreeCtx with
  | .ok a tree => .ok a { ctx with toTreeCtx := tree }
  | .error e tree => .error e { ctx with toTreeCtx := tree }

/-- The count that a leaf holds for a block. -/
def leafCount (records : List RefcountRecord) (lba : ℕ) : ℕ :=
  match leafFind (records.map RefcountRecord.lba) lba with
  | .found i => (records[i]?.map RefcountRecord.refCount).getD 1
  | .absent _ => 1

/-- The cache after a leaf was read. An empty leaf covers no block. -/
def RcLeaf.ofRecords (records : List RefcountRecord) : RcLeaf :=
  match records.head?, records.getLast? with
  | some first, some last => ⟨first.lba, last.lba, records⟩
  | _, _ => ⟨2 ^ 64 - 1, 0, records⟩

/-- Descend to the leaf for a block and cache it. -/
def readRcLeaf (lba : ℕ) : Op RefcountCtx ℕ := do
  let ctx ← get
  let leaf ← onRefcountTree
    (descend refcountKind .badMagic lba (ctx.vol.totalBlocks + 1) ctx.hdr.rootNodeLba)
  modify fun ctx ↦ { ctx with rcLeaf := some (RcLeaf.ofRecords leaf.records) }
  pure (leafCount leaf.records lba)

/-- `obmafs3_refcount_get`. -/
def refcountGet (lba : ℕ) : Op RefcountCtx ℕ := do
  let ctx ← get
  if ctx.hdr.rootNodeLba = 0 then pure 1
  else
    match ctx.rcLeaf with
    | some leaf =>
      if leaf.min ≤ lba ∧ lba ≤ leaf.max then pure (leafCount leaf.records lba)
      else readRcLeaf lba
    | none => readRcLeaf lba

/-- Take the record of a block out of its leaf. The leaf may be left empty. The descent does not
check the magic of the nodes it reads. -/
def refcountRemove (lba : ℕ) : Op TreeCtx Unit := do
  let ctx ← get
  if ctx.hdr.rootNodeLba = 0 then pure ()
  else
    let leaf ← descend refcountKind .corrupt lba (ctx.vol.totalBlocks + 1) ctx.hdr.rootNodeLba
    match leafFind (leaf.records.map RefcountRecord.lba) lba with
    | .absent _ => pure ()
    | .found i =>
      writeNode refcountKind leaf.lba
        (.leaf leaf.leftLink leaf.rightLink (leaf.records.eraseIdx i))

/-- `obmafs3_refcount_set`. -/
def refcountSet (lba refCount : ℕ) : Op RefcountCtx Unit := do
  modify fun ctx ↦ { ctx with rcLeaf := none }
  let refcountLba := (← get).refcountLba
  if refCount ≤ 1 then onRefcountTree (refcountRemove lba)
  else onRefcountTree (btreeInsert refcountKind refcountLba ⟨lba, refCount⟩)

/-- `obmafs3_refcount_inc`. -/
def refcountInc (lba : ℕ) : Op RefcountCtx Unit := do
  let cur ← refcountGet lba
  refcountSet lba ((cur + 1) % 2 ^ 32)

/-- `obmafs3_refcount_dec`, with the new count. -/
def refcountDec (lba : ℕ) : Op RefcountCtx ℕ := do
  let cur ← refcountGet lba
  if cur ≤ 1 then pure 1
  else
    refcountSet lba (cur - 1)
    pure (cur - 1)

end Obmafs3
