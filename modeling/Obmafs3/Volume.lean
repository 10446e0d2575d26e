import Mathlib.Data.List.Lex
import Mathlib.Data.Nat.Digits.Defs
import Mathlib.Data.Prod.Lex

/-!
# The volume: blocks, the allocation bitmap and node allocation

A mounted volume is its disk, one block for each LBA, and the in-memory allocation bitmap with the
hint where the next search for free blocks begins. Block reads and writes fail outside the volume
and nowhere else. What a block holds is kept in the form in which it was written: a node of one of
the trees, a tree header, a link of a chain of free nodes, or plain bytes.
-/

set_option autoImplicit false

namespace Obmafs3

/-- The error codes of the library that the modelled functions return. `hang` stands for a loop
that never ends and `corrupt` for a read outside a node, which the source leaves undefined. -/
inductive ErrorCode
  | io
  | badMagic
  | notFound
  | inval
  | noSpc
  | hang
  | corrupt
  deriving DecidableEq, Repr

/-- A function of the library over a state: on an error the state is left as it stands. -/
abbrev Op (σ : Type) := EStateM ErrorCode σ

/-! ### What the blocks hold -/

/-- A node of a tree with keys `κ` and records `ρ`. The entries of an index node pair a separator
with the LBA of a child. `spare` is the entry that slot zero still holds when the last entry is
removed: the count goes down to zero and the bytes stay. -/
inductive Node (κ ρ : Type)
  | leaf (leftLink rightLink : ℕ) (records : List ρ)
  | index (level leftLink rightLink : ℕ) (entries : List (κ × ℕ)) (spare : Option (κ × ℕ))
  deriving DecidableEq, Repr

/-- The fields of a tree header that the modelled functions read. -/
structure BtreeHeader where
  rootNodeLba : ℕ
  freeNodeLba : ℕ
  freeNodes : ℕ
  nodeSize : ℕ
  deduplication : Bool
  deriving DecidableEq, Repr

/-- A record of the refcount tree. -/
structure RefcountRecord where
  lba : ℕ
  refCount : ℕ
  deriving DecidableEq, Repr

/-- A catalog key: the parent directory and the bytes of the name without the closing NUL. The
lexicographic order is that of `catalog_key_cmp`. -/
abbrev CatalogKey := ℕ ×ₗ List ℕ

structure CatalogRecord where
  inodeId : ℕ
  parentId : ℕ
  directoryFlag : Bool
  name : List ℕ
  deriving DecidableEq, Repr

/-- A run of physical blocks. The run is compressed when it covers more logical blocks than it has
physical ones. -/
structure ExtentRun where
  startBlock : ℕ
  blockCount : ℕ
  logicalBlocks : ℕ
  deriving DecidableEq, Repr

/-- The fields of an inode record that the modelled functions read. -/
structure InodeRecord where
  inodeId : ℕ
  fileSize : ℕ
  extents : List ExtentRun
  refCount : ℕ
  deriving DecidableEq, Repr

/-- What a block holds. The checksums, record types and lengths that every write recomputes are not
kept, since no modelled function reads them back. -/
inductive Block
  | bytes (data : List ℕ)
  | freeNode (next : ℕ)
  | treeHeader (header : BtreeHeader)
  | catalogNode (node : Node CatalogKey CatalogRecord)
  | inodeNode (node : Node ℕ InodeRecord)
  | refcountNode (node : Node ℕ RefcountRecord)

/-- `OBMAFS3_BTREE_NODE_MAGIC`, the first eight bytes of every node. -/
def btreeNodeMagic : ℕ := 0x45444E4545525442

/-- `OBMAFS3_BTREE_HDR_MAGIC`, the first eight bytes of every tree header. -/
def btreeHdrMagic : ℕ := 0x5244484545525442

/-- The first eight bytes of a block as a little-endian number. -/
def Block.firstWord : Block → ℕ
  | .bytes data => Nat.ofDigits 256 (data.take 8)
  | .freeNode next => next
  | .treeHeader _ => btreeHdrMagic
  | .catalogNode _ => btreeNodeMagic
  | .inodeNode _ => btreeNodeMagic
  | .refcountNode _ => btreeNodeMagic

/-! ### The volume and its bitmap -/

structure Volume where
  blockSize : ℕ
  totalBytes : ℕ
  btreeClumpSize : ℕ
  dedupClumpSize : ℕ
  nextFreeLba : ℕ
  bitmap : ℕ → Bool
  disk : ℕ → Block

namespace Volume

def totalBlocks (vol : Volume) : ℕ := vol.totalBytes / vol.blockSize

/-- `obmafs3_block_read`; `none` is an I/O error. -/
def blockRead (vol : Volume) (lba : ℕ) : Option Block :=
  if lba < vol.totalBlocks then some (vol.disk lba) else none

/-- `obmafs3_block_write`; `none` is an I/O error. -/
def blockWrite (vol : Volume) (lba : ℕ) (block : Block) : Option Volume :=
  if lba < vol.totalBlocks then some { vol with disk := Function.update vol.disk lba block }
  else none

/-- `obmafs3_bitmap_set`. Bits past the end of the bitmap are left alone. -/
def bitmapSet (vol : Volume) (lba count : ℕ) : Volume :=
  { vol with bitmap := fun bit ↦
      if lba ≤ bit ∧ bit < lba + count ∧ bit / 8 < (vol.totalBlocks + 7) / 8 then true
      else vol.bitmap bit }

/-- `obmafs3_bitmap_clear`. -/
def bitmapClear (vol : Volume) (lba count : ℕ) : Volume :=
  { vol with bitmap := fun bit ↦
      if lba ≤ bit ∧ bit < lba + count ∧ bit / 8 < (vol.totalBlocks + 7) / 8 then false
      else vol.bitmap bit }

/-- One pass of `obmafs3_bitmap_find_free` over `bits` bits from `bit` on, with the run of free
bits that ends just before it. The words of the source only skip allocated bits faster. -/
def scanRun (bitmap : ℕ → Bool) (count : ℕ) : (bits bit runStart runLen : ℕ) → Option ℕ
  | 0, _, _, _ => none
  | bits + 1, bit, runStart, runLen =>
    if bitmap bit then scanRun bitmap count bits (bit + 1) 0 0
    else if count ≤ runLen + 1 then some (if runLen = 0 then bit else runStart)
    else scanRun bitmap count bits (bit + 1) (if runLen = 0 then bit else runStart) (runLen + 1)

/-- `obmafs3_bitmap_find_free`: first fit from the hint to the end, then from the start to the
hint. -/
def bitmapFindFree (vol : Volume) (count : ℕ) : Option ℕ :=
  let hint := if vol.totalBlocks ≤ vol.nextFreeLba then 0 else vol.nextFreeLba
  match scanRun vol.bitmap count (vol.totalBlocks - hint) hint 0 0 with
  | some start => some start
  | none => scanRun vol.bitmap count hint 0 0 0

/-- `obmafs3_alloc_blocks`; `none` is `OBMAFS3_ERR_NOSPC`. -/
def allocBlocks (vol : Volume) (count : ℕ) : Option (ℕ × Volume) :=
  match vol.bitmapFindFree count with
  | none => none
  | some start =>
    some (start,
      { vol.bitmapSet start count with nextFreeLba := max vol.nextFreeLba (start + count) })

/-- `obmafs3_free_blocks`. -/
def freeBlocks (vol : Volume) (lba count : ℕ) : Volume :=
  vol.bitmapClear lba count

/-! ### What the bitmap functions do -/

variable {bitmap : ℕ → Bool} {vol : Volume}

/-- A search that succeeds reports free bits only, all inside the pass. -/
theorem scanRun_some {count bits bit runStart runLen start : ℕ}
    (hrun : runLen ≠ 0 → runStart + runLen = bit)
    (hfree : ∀ i, runStart ≤ i → i < runStart + runLen → bitmap i = false)
    (hscan : scanRun bitmap count bits bit runStart runLen = some start) :
    (∀ i, start ≤ i → i < start + count → bitmap i = false) ∧ start + count ≤ bit + bits := by
  induction bits generalizing bit runStart runLen with
  | zero => simp [scanRun] at hscan
  | succ bits ih =>
    rw [scanRun] at hscan
    cases hbit : bitmap bit with
    | true =>
      simp only [hbit, if_true] at hscan
      obtain ⟨h, hle⟩ := ih (by simp) (by omega) hscan
      exact ⟨h, by omega⟩
    | false =>
      simp only [hbit, Bool.false_eq_true, if_false] at hscan
      have hend : (if runLen = 0 then bit else runStart) + (runLen + 1) = bit + 1 := by
        split_ifs with hzero
        · omega
        · have := hrun hzero
          omega
      have hfree' : ∀ i, (if runLen = 0 then bit else runStart) ≤ i → i < bit + 1 →
          bitmap i = false := by
        intro i hi hlt
        rcases Nat.lt_or_ge i bit with hib | hib
        · split_ifs at hi with hzero
          · omega
          · exact hfree i hi (by have := hrun hzero; omega)
        · obtain rfl : i = bit := by omega
          exact hbit
      generalize (if runLen = 0 then bit else runStart) = first at hscan hend hfree'
      split_ifs at hscan with hlong
      · simp only [Option.some.injEq] at hscan
        subst hscan
        exact ⟨fun i hi hlt ↦ hfree' i hi (by omega), by omega⟩
      · obtain ⟨h, hle⟩ := ih (fun _ ↦ hend) (fun i hi hlt ↦ hfree' i hi (by omega)) hscan
        exact ⟨h, by omega⟩

/-- A search for one block that fails has seen allocated bits only. -/
theorem scanRun_one_none {bits bit runStart runLen : ℕ}
    (hscan : scanRun bitmap 1 bits bit runStart runLen = none) :
    ∀ i, bit ≤ i → i < bit + bits → bitmap i = true := by
  induction bits generalizing bit runStart runLen with
  | zero => omega
  | succ bits ih =>
    intro i hi hlt
    rw [scanRun] at hscan
    cases hbit : bitmap bit with
    | true =>
      simp only [hbit, if_true] at hscan
      rcases Nat.eq_or_lt_of_le hi with rfl | hi
      · exact hbit
      · exact ih hscan i hi (by omega)
    | false => simp [hbit] at hscan

/-- A pass that starts with enough free bits for the run finds the run at once. -/
theorem scanRun_free {count bits bit runStart runLen : ℕ} (hrun : runLen < count)
    (hcount : count ≤ runLen + bits)
    (hfree : ∀ i, bit ≤ i → i + runLen < bit + count → bitmap i = false) :
    scanRun bitmap count bits bit runStart runLen =
      some (if runLen = 0 then bit else runStart) := by
  induction bits generalizing bit runStart runLen with
  | zero => omega
  | succ bits ih =>
    rw [scanRun, hfree bit le_rfl (by omega)]
    simp only [Bool.false_eq_true, if_false]
    by_cases hlong : count ≤ runLen + 1
    · rw [if_pos hlong]
    · rw [if_neg hlong, ih (by omega) (by omega) fun i hi hlt ↦ hfree i (by omega) (by omega),
        if_neg (Nat.succ_ne_zero runLen)]

theorem bitmapFindFree_some {count start : ℕ} (hfind : vol.bitmapFindFree count = some start) :
    (∀ i, start ≤ i → i < start + count → vol.bitmap i = false) ∧
      start + count ≤ vol.totalBlocks := by
  unfold bitmapFindFree at hfind
  simp only at hfind
  generalize hhint : (if vol.totalBlocks ≤ vol.nextFreeLba then 0 else vol.nextFreeLba) = hint
    at hfind
  have hle : hint ≤ vol.totalBlocks := by
    rw [← hhint]
    split_ifs <;> omega
  cases hfirst : scanRun vol.bitmap count (vol.totalBlocks - hint) hint 0 0 with
  | some first =>
    simp only [hfirst, Option.some.injEq] at hfind
    subst hfind
    obtain ⟨h, hend⟩ := scanRun_some (by simp) (by omega) hfirst
    exact ⟨h, by omega⟩
  | none =>
    simp only [hfirst] at hfind
    obtain ⟨h, hend⟩ := scanRun_some (by simp) (by omega) hfind
    exact ⟨h, by omega⟩

theorem bitmapFindFree_one_none (hfind : vol.bitmapFindFree 1 = none) :
    ∀ i < vol.totalBlocks, vol.bitmap i = true := by
  unfold bitmapFindFree at hfind
  simp only at hfind
  generalize (if vol.totalBlocks ≤ vol.nextFreeLba then 0 else vol.nextFreeLba) = hint at hfind
  cases hfirst : scanRun vol.bitmap 1 (vol.totalBlocks - hint) hint 0 0 with
  | some first => simp [hfirst] at hfind
  | none =>
    simp only [hfirst] at hfind
    intro i hi
    rcases Nat.lt_or_ge i hint with hlt | hge
    · exact scanRun_one_none hfind i (Nat.zero_le i) (by omega)
    · exact scanRun_one_none hfirst i hge (by omega)

/-- The `k` blocks from the hint on are free. -/
def Roomy (vol : Volume) (k : ℕ) : Prop :=
  (∀ i, vol.nextFreeLba ≤ i → i < vol.nextFreeLba + k → vol.bitmap i = false) ∧
    vol.nextFreeLba + k ≤ vol.totalBlocks

theorem Roomy.mono {k m : ℕ} (hroomy : vol.Roomy k) (hle : m ≤ k) : vol.Roomy m :=
  ⟨fun i hi hlt ↦ hroomy.1 i hi (by omega), (Nat.add_le_add_left hle _).trans hroomy.2⟩

theorem bitmapFindFree_roomy {count : ℕ} (hcount : 0 < count) (hroomy : vol.Roomy count) :
    vol.bitmapFindFree count = some vol.nextFreeLba := by
  obtain ⟨hfree, hle⟩ := hroomy
  have hscan : scanRun vol.bitmap count (vol.totalBlocks - vol.nextFreeLba) vol.nextFreeLba 0 0 =
      some vol.nextFreeLba :=
    scanRun_free hcount (by omega) fun i hi hlt ↦ hfree i hi (by omega)
  unfold bitmapFindFree
  simp only [show ¬vol.totalBlocks ≤ vol.nextFreeLba by omega, if_false, hscan]

end Volume

/-! ### What the allocator answers -/

theorem allocBlocks_eq_some {vol vol' : Volume} {count start : ℕ}
    (halloc : vol.allocBlocks count = some (start, vol')) :
    vol.bitmapFindFree count = some start ∧ vol' =
        { vol.bitmapSet start count with nextFreeLba := max vol.nextFreeLba (start + count) } := by
  unfold Volume.allocBlocks at halloc
  cases hfind : vol.bitmapFindFree count with
  | none => simp [hfind] at halloc
  | some first =>
    simp only [hfind, Option.some.injEq, Prod.mk.injEq] at halloc
    obtain ⟨rfl, rfl⟩ := halloc
    exact ⟨rfl, rfl⟩

theorem allocBlocks_eq_none {vol : Volume} {count : ℕ} (halloc : vol.allocBlocks count = none) :
    vol.bitmapFindFree count = none := by
  unfold Volume.allocBlocks at halloc
  cases hfind : vol.bitmapFindFree count with
  | none => rfl
  | some first => simp [hfind] at halloc

end Obmafs3
