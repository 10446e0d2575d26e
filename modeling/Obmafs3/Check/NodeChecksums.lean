import Obmafs3.Check.TreeWalks
import Obmafs3.Library.XxHash

/-!
# The checksums of the nodes of a tree

`verify_btree_node_checksums` and `verify_meta_node_checksums` of `fsck_btree.c`, which differ in
the size of a node. A first pass over a list of nodes counts the bad ones: those with another magic
and those whose checksum is not that of their bytes. Only the latter have their address stored, at
the index that the common counter gives. The repair reads the array of addresses up to that counter
and writes each node with a new checksum.
-/

set_option autoImplicit false

namespace Obmafs3.NodeChecksums

open Library.ByteImage

/-- How a function ends: with an access outside its buffers, with a read error, or well. -/
inductive Outcome (α : Type) where
  | fault
  | error
  | done (result : α)

namespace Outcome

variable {α β : Type}

def bind (o : Outcome α) (next : α → Outcome β) : Outcome β :=
  match o with
  | .fault => .fault
  | .error => .error
  | .done result => next result

@[simp]
theorem bind_done (a : α) (next : α → Outcome β) : (done a).bind next = next a := rfl

theorem bind_eq_done {o : Outcome α} {next : α → Outcome β} {b : β} :
    o.bind next = .done b ↔ ∃ a, o = .done a ∧ next a = .done b := by
  cases o with
  | fault => exact ⟨nofun, fun h ↦ nomatch h.choose_spec.1⟩
  | error => exact ⟨nofun, fun h ↦ nomatch h.choose_spec.1⟩
  | done a =>
    refine ⟨fun h ↦ ⟨a, rfl, h⟩, ?_⟩
    rintro ⟨_, heq, h⟩
    cases heq
    exact h

end Outcome

/-! ### A node -/

/-- `offsetof(struct btree_node_header, checksum)`. -/
def checksumOffset : ℕ := 38

def magic (buf : List UInt8) : ℕ := number (fieldBytes buf 0 8)

def keysLength (buf : List UInt8) : ℕ := number (fieldBytes buf 36 2)

def storedChecksum (buf : List UInt8) : List UInt8 := fieldBytes buf checksumOffset 32

def dataSize (buf : List UInt8) : ℕ := btreeNodeHeaderSize + keysLength buf

section Checksum

variable (xxh64 : List UInt8 → ℕ)

/-- `obmafs3_checksum_block`. -/
def checksumBlock (data : List UInt8) : List UInt8 :=
  bytesOf 8 (xxh64 data) ++ List.replicate 24 0

/-- The checksum of a node, taken with the field of the checksum cleared. -/
def computedChecksum (buf : List UInt8) : List UInt8 :=
  checksumBlock xxh64
    ((overwrite buf checksumOffset (List.replicate 32 0)).take (dataSize buf))

def BadChecksum (buf : List UInt8) : Prop := storedChecksum buf ≠ computedChecksum xxh64 buf

instance decidableBadChecksum : DecidablePred (BadChecksum xxh64) := fun _ ↦
  inferInstanceAs (Decidable (_ ≠ _))

/-- A node with its checksum in its field. -/
def fixNode (buf : List UInt8) : List UInt8 :=
  overwrite buf checksumOffset (computedChecksum xxh64 buf)

variable {xxh64} {buf : List UInt8}

@[simp]
theorem length_computedChecksum : (computedChecksum xxh64 buf).length = 32 := by
  rw [computedChecksum, checksumBlock, List.length_append, length_bytesOf, List.length_replicate]

section

variable (hheader : btreeNodeHeaderSize ≤ buf.length)
include hheader

theorem length_fixNode : (fixNode xxh64 buf).length = buf.length :=
  length_overwrite (by rw [length_computedChecksum]; exact hheader)

/-- A field in front of the checksum. -/
theorem fieldBytes_fixNode {off width : ℕ} (hfront : off + width ≤ checksumOffset) :
    fieldBytes (fixNode xxh64 buf) off width = fieldBytes buf off width :=
  fieldBytes_overwrite_apart (by rw [length_computedChecksum]; exact hheader) (Or.inl hfront)

theorem magic_fixNode : magic (fixNode xxh64 buf) = magic buf := by
  rw [magic, fieldBytes_fixNode hheader (by decide), magic]

theorem dataSize_fixNode : dataSize (fixNode xxh64 buf) = dataSize buf := by
  rw [dataSize, keysLength, fieldBytes_fixNode hheader (by decide), dataSize, keysLength]

/-- A node verifies with its checksum in its field. -/
theorem not_badChecksum_fixNode : ¬BadChecksum xxh64 (fixNode xxh64 buf) := by
  have hroom : checksumOffset + (computedChecksum xxh64 buf).length ≤ buf.length := by
    rw [length_computedChecksum]
    exact hheader
  have hstored : storedChecksum (fixNode xxh64 buf) = computedChecksum xxh64 buf :=
    fieldBytes_overwrite ((Nat.le_add_right _ _).trans hroom) length_computedChecksum
  have hcleared : overwrite (fixNode xxh64 buf) checksumOffset (List.replicate 32 0) =
      overwrite buf checksumOffset (List.replicate 32 0) :=
    overwrite_overwrite hroom (by rw [List.length_replicate, length_computedChecksum])
  refine not_not_intro ?_
  rw [hstored, computedChecksum, computedChecksum, hcleared, dataSize_fixNode hheader]

end

end Checksum

/-! ### Nodes on the disk -/

/-- The size of the nodes of a tree. -/
structure NodeShape where
  blockSize : ℕ
  blocks : ℕ

namespace NodeShape

variable (shape : NodeShape)

def nodeSize : ℕ := shape.blocks * shape.blockSize

/-- The place of a block, as a `uint64_t`. -/
def offset (lba : ℕ) : ℕ := lba * shape.blockSize % 2 ^ 64

/-- `obmafs3_block_read`: the place is passed as an `off_t`. -/
def blockRead (img : Image) (lba : ℕ) : Option (List UInt8) :=
  if shape.offset lba < 2 ^ 63 then img.pread (shape.offset lba) shape.nodeSize else none

def blockWrite (img : Image) (lba : ℕ) (buf : List UInt8) : Option Image :=
  if shape.offset lba < 2 ^ 63 then some (img.pwrite (shape.offset lba) buf) else none

/-- The bytes of a node. -/
def node (img : Image) (lba : ℕ) : List UInt8 := img.bytesAt (shape.offset lba) shape.nodeSize

/-- A node inside the image. -/
def Inside (img : Image) (lba : ℕ) : Prop :=
  shape.offset lba < 2 ^ 63 ∧ shape.offset lba + shape.nodeSize ≤ img.size

/-- Two nodes without a common byte. -/
def Apart (a b : ℕ) : Prop :=
  shape.offset a + shape.nodeSize ≤ shape.offset b ∨
    shape.offset b + shape.nodeSize ≤ shape.offset a

/-- A byte outside the field of the checksum of a node. -/
def OutsideField (lba i : ℕ) : Prop :=
  i < shape.offset lba + checksumOffset ∨ shape.offset lba + btreeNodeHeaderSize ≤ i

variable {shape} {img : Image} {lba : ℕ} {buf : List UInt8}

@[simp]
theorem length_node : (shape.node img lba).length = shape.nodeSize := Image.length_bytesAt

theorem blockRead_eq_some : shape.blockRead img lba = some buf ↔
    shape.Inside img lba ∧ shape.node img lba = buf := by
  rw [blockRead]
  split_ifs with hsmall
  · rw [Image.pread_eq_some, Inside, and_iff_right hsmall, node]
  · exact ⟨nofun, fun h ↦ absurd h.1.1 hsmall⟩

theorem Inside.blockRead (hin : shape.Inside img lba) :
    shape.blockRead img lba = some (shape.node img lba) :=
  blockRead_eq_some.mpr ⟨hin, rfl⟩

end NodeShape

/-! ### The first pass -/

/-- The array `bad_lbas`, up to its capacity, and the counter. -/
structure BadNodes where
  addresses : List ℕ
  bad : ℕ

namespace BadNodes

variable (heap : ℕ → ℕ) (found : BadNodes)

/-- The array, enlarged once when the counter has reached its capacity. What is new holds what the
heap had there. -/
def grow : List ℕ :=
  if found.bad < found.addresses.length then found.addresses
  else
    found.addresses ++ (List.range' found.addresses.length
        (if found.addresses.length = 0 then 16 else found.addresses.length)).map heap

/-- Store an address at the counter; `none` when that is outside the array. -/
def store (lba : ℕ) : Option BadNodes :=
  if found.bad < (found.grow heap).length then
    some ⟨(found.grow heap).set found.bad lba, found.bad + 1⟩
  else none

end BadNodes

section Passes

variable (xxh64 : List UInt8 → ℕ) (shape : NodeShape) (heap : ℕ → ℕ)

def scan (img : Image) : List ℕ → BadNodes → Outcome BadNodes
  | [], found => .done found
  | lba :: lbas, found =>
    match shape.blockRead img lba with
    | none => .error
    | some buf =>
      if magic buf ≠ btreeNodeMagic then scan img lbas { found with bad := found.bad + 1 }
      -- the checksum reads past the buffer
      else if buf.length < dataSize buf then .fault
      else if BadChecksum xxh64 buf then
        match found.store heap lba with
        | none => .fault
        | some found => scan img lbas found
      else scan img lbas found

/-! ### The repair -/

/-- The image, the nodes written to it and their number. -/
structure Repair where
  image : Image
  written : List ℕ
  fixes : ℕ

def repairNode (lba : ℕ) (r : Repair) : Outcome Repair :=
  match shape.blockRead r.image lba with
  | none => .done r
  | some buf =>
    if buf.length < dataSize buf then .fault
    else
      match shape.blockWrite r.image lba (fixNode xxh64 buf) with
      | none => .done r
      | some image => .done ⟨image, r.written ++ [lba], r.fixes + 1⟩

/-- The nodes of `count` elements of the array, from element `i` on. -/
def repairNodes (addresses : List ℕ) : (count i : ℕ) → Repair → Outcome Repair
  | 0, _, r => .done r
  | count + 1, i, r =>
    match addresses[i]? with
    | none => .fault
    | some lba => (repairNode xxh64 shape lba r).bind (repairNodes addresses count (i + 1))

/-- What is left behind and returned. -/
structure Report where
  image : Image
  written : List ℕ
  badCount : ℕ
  fixedCount : ℕ

/-- The two functions, for a size of nodes. `fix` is the answer to the question whether to fix. -/
def verifyNodeChecksums (fix : Bool) (img : Image) (lbas : List ℕ) : Outcome Report :=
  (scan xxh64 shape heap img lbas ⟨[], 0⟩).bind fun found ↦
    if 0 < found.bad ∧ fix = true then
      (repairNodes xxh64 shape found.addresses found.bad 0 ⟨img, [], 0⟩).bind fun r ↦
        .done ⟨r.image, r.written, found.bad, r.fixes⟩
    else .done ⟨img, [], found.bad, 0⟩

end Passes

/-- Nodes of a block. -/
def btreeShape (blockSize : ℕ) : NodeShape := ⟨blockSize, 1⟩

def metaShape (blockSize : ℕ) : NodeShape := ⟨blockSize, metadataNodeBlocks⟩

/-- `verify_btree_node_checksums`. -/
def verifyBtreeNodeChecksums (xxh64 : List UInt8 → ℕ) (blockSize : ℕ) :=
  verifyNodeChecksums xxh64 (btreeShape blockSize)

/-- `verify_meta_node_checksums`. -/
def verifyMetaNodeChecksums (xxh64 : List UInt8 → ℕ) (blockSize : ℕ) :=
  verifyNodeChecksums xxh64 (metaShape blockSize)

/-! ### What the repair may do -/

/-- A list of nodes of trees: they lie inside the image, and those that overlap are the same. -/
structure NodeList (shape : NodeShape) (img : Image) where
  lbas : List ℕ
  header_fits : btreeNodeHeaderSize ≤ shape.nodeSize
  inside : ∀ lba ∈ lbas, shape.Inside img lba
  apart : ∀ a ∈ lbas, ∀ b ∈ lbas, shape.offset a = shape.offset b ∨ shape.Apart a b

/-- Blocks inside the image are nodes of one block. -/
def NodeList.ofBlocks {blockSize : ℕ} {img : Image} (lbas : List ℕ)
    (hheader : btreeNodeHeaderSize ≤ blockSize) (hpower : blockSize ∣ 2 ^ 64)
    (hinside : ∀ lba ∈ lbas, (btreeShape blockSize).Inside img lba) :
    NodeList (btreeShape blockSize) img where
  lbas := lbas
  header_fits := by rwa [NodeShape.nodeSize, btreeShape, one_mul]
  inside := hinside
  apart a _ b _ := by
    have hmultiple (lba : ℕ) : blockSize ∣ (btreeShape blockSize).offset lba :=
      (Nat.dvd_mod_iff hpower).mpr (Nat.dvd_mul_left blockSize lba)
    obtain ⟨m, hm⟩ := hmultiple a
    obtain ⟨n, hn⟩ := hmultiple b
    rw [NodeShape.Apart, hm, hn, NodeShape.nodeSize, btreeShape, one_mul]
    rcases Nat.lt_trichotomy m n with hlt | rfl | hlt
    · exact Or.inr (Or.inl ((Nat.mul_succ blockSize m).ge.trans (Nat.mul_le_mul_left _ hlt)))
    · exact Or.inl rfl
    · exact Or.inr (Or.inr ((Nat.mul_succ blockSize n).ge.trans (Nat.mul_le_mul_left _ hlt)))

section Meaning

variable (xxh64 : List UInt8 → ℕ) (shape : NodeShape) (img : Image) (lbas : List ℕ)

/-- A node with the right magic and a bad checksum. -/
def Repairable (img : Image) (lba : ℕ) : Prop :=
  magic (shape.node img lba) = btreeNodeMagic ∧ BadChecksum xxh64 (shape.node img lba)

instance decidableRepairable : DecidablePred (Repairable xxh64 shape img) := fun _ ↦
  inferInstanceAs (Decidable (_ ∧ _))

/-- A node with the right magic and a good checksum. -/
def Verifies (img : Image) (lba : ℕ) : Prop :=
  magic (shape.node img lba) = btreeNodeMagic ∧ ¬BadChecksum xxh64 (shape.node img lba)

instance decidableVerifies : DecidablePred (Verifies xxh64 shape img) := fun _ ↦
  inferInstanceAs (Decidable (_ ∧ _))

/-- The nodes of a list with a bad checksum. -/
def badNodes : List ℕ := lbas.filter fun lba ↦ BadChecksum xxh64 (shape.node img lba)

/-- The places of the nodes of a list that needed a repair and verify in another image. -/
def repairedNodes (img' : Image) : Finset ℕ :=
  ((lbas.filter fun lba ↦ Repairable xxh64 shape img lba ∧ Verifies xxh64 shape img' lba).map
    shape.offset).toFinset

/-- The repair wrote only nodes of the list that needed it, which verify now, with nothing changed
but their checksums, and counts no more than it repaired. -/
structure TouchesOnlyBad (report : Report) : Prop where
  listed : ∀ lba ∈ report.written, lba ∈ lbas ∧ Repairable xxh64 shape img lba
  verifies : ∀ lba ∈ report.written, Verifies xxh64 shape report.image lba
  size_eq : report.image.size = img.size
  unchanged : ∀ i, (∀ lba ∈ report.written, shape.OutsideField lba i) →
    report.image.byte i = img.byte i
  counted : report.fixedCount ≤ (repairedNodes xxh64 shape img lbas report.image).card

/-- With the repair accepted, the function ends well and touches only bad nodes, whatever the heap
holds. -/
def RepairsOnlyBad : Prop :=
  ∀ heap, ∃ report, verifyNodeChecksums xxh64 shape heap true img lbas = .done report ∧
    TouchesOnlyBad xxh64 shape img lbas report

/-- Every node has its magic and a length that fits, and the nodes with a bad checksum are listed
once. -/
structure AllNodes : Prop where
  magic_eq : ∀ lba ∈ lbas, magic (shape.node img lba) = btreeNodeMagic
  fits : ∀ lba ∈ lbas, dataSize (shape.node img lba) ≤ shape.nodeSize
  once : ((badNodes xxh64 shape img lbas).map shape.offset).Nodup

end Meaning

variable {xxh64 : List UInt8 → ℕ} {shape : NodeShape} {img : Image} {lbas bads : List ℕ} {lba : ℕ}

theorem mem_badNodes : lba ∈ badNodes xxh64 shape img lbas ↔
    lba ∈ lbas ∧ BadChecksum xxh64 (shape.node img lba) := by
  rw [badNodes, List.mem_filter, decide_eq_true_iff]

/-! ### A repair of one node -/

variable {addresses : List ℕ} {buf : List UInt8} {count i : ℕ}

theorem getElem?_fixNode {j : ℕ} (hheader : btreeNodeHeaderSize ≤ buf.length)
    (hj : j < checksumOffset ∨ btreeNodeHeaderSize ≤ j) : (fixNode xxh64 buf)[j]? = buf[j]? :=
  getElem?_overwrite_apart (by rw [length_computedChecksum]; exact hheader)
    (by rwa [length_computedChecksum])

/-- A write of a whole node. -/
theorem node_pwrite (hlength : buf.length = shape.nodeSize) (hin : shape.Inside img lba) :
    shape.node (img.pwrite (shape.offset lba) buf) lba = buf :=
  (Image.pread_eq_some.mp (Image.pread_pwrite hlength hin.2)).2

theorem size_pwrite_fixNode (hheader : btreeNodeHeaderSize ≤ shape.nodeSize)
    (hin : shape.Inside img lba) :
    (img.pwrite (shape.offset lba) (fixNode xxh64 (shape.node img lba))).size = img.size :=
  Image.size_pwrite (by
    rw [length_fixNode (by rwa [NodeShape.length_node]), NodeShape.length_node]
    exact hin.2)

/-- The write of a repaired node changes its checksum only. -/
theorem byte_pwrite_fixNode {i : ℕ} (hheader : btreeNodeHeaderSize ≤ shape.nodeSize)
    (hi : shape.OutsideField lba i) :
    (img.pwrite (shape.offset lba) (fixNode xxh64 (shape.node img lba))).byte i = img.byte i := by
  have hlength : (fixNode xxh64 (shape.node img lba)).length = shape.nodeSize := by
    rw [length_fixNode (by rwa [NodeShape.length_node]), NodeShape.length_node]
  by_cases hin : shape.offset lba ≤ i ∧ i < shape.offset lba + shape.nodeSize
  · obtain ⟨j, rfl⟩ := Nat.exists_eq_add_of_le hin.1
    have hj : j < shape.nodeSize := Nat.add_lt_add_iff_left.mp hin.2
    have hfield : j < checksumOffset ∨ btreeNodeHeaderSize ≤ j :=
      hi.imp Nat.add_lt_add_iff_left.mp Nat.add_le_add_iff_left.mp
    rw [Image.byte_pwrite_in (hlength ▸ hj), List.getD_eq_getElem?_getD,
      getElem?_fixNode (by rwa [NodeShape.length_node]) hfield, NodeShape.node,
      Image.getElem?_bytesAt hj, Option.getD_some]
  · exact Image.byte_pwrite_apart (by omega)

variable {r r' : Repair}

/-- All that the repair of a node can do. -/
theorem repairNode_cases (hrepair : repairNode xxh64 shape lba r = .done r') :
    (¬shape.Inside r.image lba ∧ r' = r) ∨
      (shape.Inside r.image lba ∧ r' = ⟨r.image.pwrite (shape.offset lba)
        (fixNode xxh64 (shape.node r.image lba)), r.written ++ [lba], r.fixes + 1⟩) := by
  rw [repairNode] at hrepair
  split at hrepair
  · next hread =>
    cases hrepair
    refine Or.inl ⟨fun hin ↦ ?_, rfl⟩
    rw [hin.blockRead] at hread
    cases hread
  · next buf hread =>
    obtain ⟨hin, rfl⟩ := NodeShape.blockRead_eq_some.mp hread
    rw [NodeShape.blockWrite, if_pos hin.1] at hrepair
    split_ifs at hrepair
    cases hrepair
    exact Or.inr ⟨hin, rfl⟩

/-- A node that is read and whose length fits is repaired. -/
theorem repairNode_eq {r : Repair} (hin : shape.Inside r.image lba)
    (hfits : dataSize (shape.node r.image lba) ≤ shape.nodeSize) :
    repairNode xxh64 shape lba r = .done ⟨r.image.pwrite (shape.offset lba)
      (fixNode xxh64 (shape.node r.image lba)), r.written ++ [lba], r.fixes + 1⟩ := by
  rw [repairNode, hin.blockRead]
  simp only
  rw [NodeShape.length_node, if_neg hfits.not_gt, NodeShape.blockWrite, if_pos hin.1]

/-! ### The repair of different nodes -/

/-- An image in which some nodes are repaired. -/
structure Repaired (xxh64 : List UInt8 → ℕ) (shape : NodeShape) (img : Image) (bads : List ℕ)
    (r : Repair) : Prop where
  written_eq : r.written = bads
  fixes_eq : r.fixes = bads.length
  size_eq : r.image.size = img.size
  fixed : ∀ lba ∈ bads, shape.node r.image lba = fixNode xxh64 (shape.node img lba)
  unchanged : ∀ i, (∀ lba ∈ bads, shape.OutsideField lba i) → r.image.byte i = img.byte i

namespace Repaired

theorem start : Repaired xxh64 shape img [] ⟨img, [], 0⟩ where
  written_eq := rfl
  fixes_eq := rfl
  size_eq := rfl
  fixed := fun _ hlba ↦ absurd hlba List.not_mem_nil
  unchanged := fun _ _ ↦ rfl

variable {r : Repair}

section

variable (hdone : Repaired xxh64 shape img bads r) (hheader : btreeNodeHeaderSize ≤ shape.nodeSize)
include hdone hheader

/-- The repairs so far have not touched a node apart from theirs. -/
theorem node_eq (hapart : ∀ a ∈ bads, shape.Apart a lba) :
    shape.node r.image lba = shape.node img lba := by
  refine Image.bytesAt_eq_iff.mpr fun i hi ↦ hdone.unchanged _ fun a ha ↦ ?_
  have hfield : checksumOffset ≤ btreeNodeHeaderSize := by decide
  rcases hapart a ha with hbefore | hbehind
  · exact Or.inr (by omega)
  · exact Or.inl (by omega)

/-- One more node is repaired. -/
theorem step (hin : shape.Inside img lba) (hfits : dataSize (shape.node img lba) ≤ shape.nodeSize)
    (hapart : ∀ a ∈ bads, shape.Apart a lba) :
    ∃ r', repairNode xxh64 shape lba r = .done r' ∧
      Repaired xxh64 shape img (bads ++ [lba]) r' := by
  have hsame := hdone.node_eq hheader hapart
  have hinside : shape.Inside r.image lba := ⟨hin.1, hdone.size_eq ▸ hin.2⟩
  have hlength : (fixNode xxh64 (shape.node r.image lba)).length = shape.nodeSize := by
    rw [length_fixNode (by rwa [NodeShape.length_node]), NodeShape.length_node]
  refine ⟨_, repairNode_eq hinside (hsame ▸ hfits), ?_⟩
  exact
    { written_eq := congrArg (· ++ [lba]) hdone.written_eq
      fixes_eq := by rw [hdone.fixes_eq, List.length_append, List.length_singleton]
      size_eq := (size_pwrite_fixNode hheader hinside).trans hdone.size_eq
      fixed := fun a ha ↦ by
        rcases List.mem_append.mp ha with ha | ha
        · refine Eq.trans (Image.bytesAt_eq_iff.mpr fun i hi ↦ ?_) (hdone.fixed a ha)
          refine Image.byte_pwrite_apart ?_
          rw [hlength]
          rcases hapart a ha with hbefore | hbehind
          · exact Or.inl (by omega)
          · exact Or.inr (by omega)
        · obtain rfl := List.mem_singleton.mp ha
          rw [node_pwrite hlength hinside, hsame]
      unchanged := fun i hi ↦ by
        rw [byte_pwrite_fixNode hheader (hi lba (List.mem_append_right bads List.mem_cons_self))]
        exact hdone.unchanged i fun a ha ↦ hi a (List.mem_append_left [lba] ha) }

end

/-- The repair goes through nodes that are apart. -/
theorem run {addresses later rest : List ℕ} {i : ℕ}
    (hslots : addresses.drop i = later ++ rest) (hdone : Repaired xxh64 shape img bads r)
    (hheader : btreeNodeHeaderSize ≤ shape.nodeSize) (hin : ∀ lba ∈ later, shape.Inside img lba)
    (hfits : ∀ lba ∈ later, dataSize (shape.node img lba) ≤ shape.nodeSize)
    (hapart : (bads ++ later).Pairwise shape.Apart) :
    ∃ r', repairNodes xxh64 shape addresses later.length i r = .done r' ∧
      Repaired xxh64 shape img (bads ++ later) r' := by
  induction later generalizing bads i r with
  | nil => exact ⟨r, rfl, by rwa [List.append_nil]⟩
  | cons lba later ih =>
    have hslot : addresses[i]? = some lba := by
      rw [← Nat.add_zero i, ← List.getElem?_drop, hslots]
      rfl
    have hnext : addresses.drop (i + 1) = later ++ rest := by
      rw [← List.drop_drop, hslots]
      rfl
    have hbefore : ∀ a ∈ bads, shape.Apart a lba := fun a ha ↦
      (List.pairwise_append.mp hapart).2.2 a ha lba List.mem_cons_self
    obtain ⟨r', hrepair, hdone'⟩ :=
      hdone.step hheader (hin lba List.mem_cons_self) (hfits lba List.mem_cons_self) hbefore
    have happend : bads ++ lba :: later = bads ++ [lba] ++ later := by
      rw [List.append_assoc, List.singleton_append]
    rw [List.length_cons, repairNodes, hslot]
    simp only
    rw [hrepair, Outcome.bind_done, happend]
    exact ih hnext hdone' (fun a ha ↦ hin a (List.mem_cons_of_mem lba ha))
      (fun a ha ↦ hfits a (List.mem_cons_of_mem lba ha)) (happend ▸ hapart)

end Repaired

/-! ### The first pass without bad magics -/

/-- The nodes stored in the array, with nothing left out. -/
def BadNodes.Stores (bads : List ℕ) (found : BadNodes) : Prop :=
  found.bad = bads.length ∧ ∃ rest, found.addresses = bads ++ rest

variable {heap : ℕ → ℕ} {found found' : BadNodes}

/-- The counter is inside the enlarged array. -/
theorem BadNodes.Stores.grow (hstores : found.Stores bads) (heap : ℕ → ℕ) :
    ∃ a rest, found.grow heap = bads ++ a :: rest := by
  obtain ⟨hbad, rest, haddresses⟩ := hstores
  rw [BadNodes.grow, haddresses, hbad, List.length_append]
  cases rest with
  | cons a rest =>
    rw [if_pos (by rw [List.length_cons]; omega)]
    exact ⟨a, rest, rfl⟩
  | nil =>
    rw [List.length_nil, Nat.add_zero, if_neg (Nat.lt_irrefl _), List.append_nil]
    split_ifs with hempty
    · exact ⟨_, _, rfl⟩
    · obtain ⟨n, hn⟩ := Nat.exists_eq_succ_of_ne_zero hempty
      rw [hn]
      exact ⟨_, _, rfl⟩

theorem BadNodes.Stores.store (hstores : found.Stores bads) (heap : ℕ → ℕ) (lba : ℕ) :
    ∃ found', found.store heap lba = some found' ∧ found'.Stores (bads ++ [lba]) := by
  obtain ⟨a, rest, hgrow⟩ := hstores.grow heap
  have hroom : found.bad < (found.grow heap).length := by
    rw [hgrow, hstores.1, List.length_append, List.length_cons]
    omega
  refine ⟨_, if_pos hroom, ?_, rest, ?_⟩
  · rw [hstores.1, List.length_append, List.length_singleton]
  · rw [hgrow, hstores.1, List.set_append_right _ _ le_rfl, Nat.sub_self, List.set_cons_zero,
      List.append_assoc, List.singleton_append]

/-- What the first pass does at a node. -/
theorem scan_cons (hscan : scan xxh64 shape heap img (lba :: lbas) found = .done found') :
    ∃ next, scan xxh64 shape heap img lbas next = .done found' ∧
      ((magic (shape.node img lba) ≠ btreeNodeMagic ∧
          next = { found with bad := found.bad + 1 }) ∨
        (magic (shape.node img lba) = btreeNodeMagic ∧
          dataSize (shape.node img lba) ≤ shape.nodeSize ∧
          (found.store heap lba = some next ∨ next = found))) := by
  rw [scan] at hscan
  split at hscan
  · cases hscan
  · next buf hread =>
    obtain ⟨-, rfl⟩ := NodeShape.blockRead_eq_some.mp hread
    rw [NodeShape.length_node] at hscan
    split_ifs at hscan with hmagic hlong hsum
    · exact ⟨_, hscan, Or.inl ⟨hmagic, rfl⟩⟩
    · split at hscan
      · cases hscan
      · next next hstore =>
        exact ⟨next, hscan, Or.inr ⟨not_not.mp hmagic, Nat.not_lt.mp hlong, Or.inl hstore⟩⟩
    · exact ⟨found, hscan, Or.inr ⟨not_not.mp hmagic, Nat.not_lt.mp hlong, Or.inr rfl⟩⟩

section

variable (hin : ∀ lba ∈ lbas, shape.Inside img lba)
  (hmagic : ∀ lba ∈ lbas, magic (shape.node img lba) = btreeNodeMagic)
  (hfits : ∀ lba ∈ lbas, dataSize (shape.node img lba) ≤ shape.nodeSize)
include hin hmagic hfits

/-- Without bad magics the first pass stores all the nodes that it counts. -/
theorem scan_stores (hstores : found.Stores bads) :
    ∃ found', scan xxh64 shape heap img lbas found = .done found' ∧
      found'.Stores (bads ++ badNodes xxh64 shape img lbas) := by
  rw [badNodes]
  induction lbas generalizing found bads with
  | nil => exact ⟨found, rfl, by rwa [List.filter_nil, List.append_nil]⟩
  | cons lba lbas ih =>
    rw [List.forall_mem_cons] at hin hmagic hfits
    rw [scan, hin.1.blockRead]
    simp only
    rw [if_neg (not_not_intro hmagic.1), NodeShape.length_node, if_neg hfits.1.not_gt]
    split_ifs with hsum
    · obtain ⟨next, hstore, hnext⟩ := hstores.store heap lba
      rw [hstore, List.filter_cons_of_pos (by simpa using hsum), List.append_cons]
      exact ih hin.2 hmagic.2 hfits.2 hnext
    · rw [List.filter_cons_of_neg (by simpa using hsum)]
      exact ih hin.2 hmagic.2 hfits.2 hstores

theorem scan_start (heap : ℕ → ℕ) : ∃ found, scan xxh64 shape heap img lbas ⟨[], 0⟩ = .done found ∧
      found.Stores (badNodes xxh64 shape img lbas) := by
  have hnone : (⟨[], 0⟩ : BadNodes).Stores [] := ⟨rfl, [], rfl⟩
  exact scan_stores hin hmagic hfits hnone

end

/-! ### Lists that are repaired -/

/-- With the bad nodes repaired, the report is as it should be. -/
theorem Repaired.touchesOnlyBad {r : Repair} {badCount : ℕ}
    (hheader : btreeNodeHeaderSize ≤ shape.nodeSize) (hall : AllNodes xxh64 shape img lbas)
    (hdone : Repaired xxh64 shape img (badNodes xxh64 shape img lbas) r) :
    TouchesOnlyBad xxh64 shape img lbas ⟨r.image, r.written, badCount, r.fixes⟩ := by
  have hlisted : ∀ lba ∈ r.written, lba ∈ lbas ∧ Repairable xxh64 shape img lba := by
    intro lba hlba
    obtain ⟨hmem, hsum⟩ := mem_badNodes.mp (hdone.written_eq ▸ hlba)
    exact ⟨hmem, hall.magic_eq lba hmem, hsum⟩
  have hverifies : ∀ lba ∈ r.written, Verifies xxh64 shape r.image lba := by
    intro lba hlba
    have hbuffer : btreeNodeHeaderSize ≤ (shape.node img lba).length := by
      rwa [NodeShape.length_node]
    rw [Verifies, hdone.fixed lba (hdone.written_eq ▸ hlba), magic_fixNode hbuffer]
    exact ⟨(hlisted lba hlba).2.1, not_badChecksum_fixNode hbuffer⟩
  refine ⟨hlisted, hverifies, hdone.size_eq, ?_, ?_⟩
  · rw [hdone.written_eq]
    exact hdone.unchanged
  · have hcount : r.fixes = ((badNodes xxh64 shape img lbas).map shape.offset).toFinset.card := by
      rw [List.toFinset_card_of_nodup hall.once, List.length_map, hdone.fixes_eq]
    refine hcount.trans_le (Finset.card_le_card fun place hplace ↦ ?_)
    rw [List.mem_toFinset, List.mem_map] at hplace
    obtain ⟨lba, hlba, rfl⟩ := hplace
    have hwritten : lba ∈ r.written := by rwa [hdone.written_eq]
    have hrepaired : Repairable xxh64 shape img lba ∧ Verifies xxh64 shape r.image lba :=
      ⟨(hlisted lba hwritten).2, hverifies lba hwritten⟩
    exact List.mem_toFinset.mpr (List.mem_map_of_mem (List.mem_filter.mpr
      ⟨(hlisted lba hwritten).1, decide_eq_true hrepaired⟩))

theorem NodeList.repairsOnlyBad (list : NodeList shape img)
    (hall : AllNodes xxh64 shape img list.lbas) : RepairsOnlyBad xxh64 shape img list.lbas := by
  intro heap
  obtain ⟨found, hscan, hbad, rest, haddresses⟩ :=
    scan_start list.inside hall.magic_eq hall.fits heap
  rw [verifyNodeChecksums, hscan, Outcome.bind_done, hbad]
  split_ifs with hsome
  · have hmem : ∀ lba ∈ badNodes xxh64 shape img list.lbas, lba ∈ list.lbas := fun lba hlba ↦
      (mem_badNodes.mp hlba).1
    have hapart : (badNodes xxh64 shape img list.lbas).Pairwise shape.Apart :=
      (List.pairwise_map.mp hall.once).imp_of_mem fun ha hb hne ↦
        (list.apart _ (hmem _ ha) _ (hmem _ hb)).resolve_left hne
    have hslots : found.addresses.drop 0 = badNodes xxh64 shape img list.lbas ++ rest := haddresses
    obtain ⟨r, hrepair, hdone⟩ := Repaired.start.run hslots list.header_fits
      (fun lba hlba ↦ list.inside lba (hmem lba hlba))
      (fun lba hlba ↦ hall.fits lba (hmem lba hlba)) hapart
    rw [hrepair, Outcome.bind_done]
    exact ⟨_, rfl, hdone.touchesOnlyBad list.header_fits hall⟩
  · have hnone : badNodes xxh64 shape img list.lbas = [] :=
      List.eq_nil_of_length_eq_zero (by simpa using hsome)
    have hdone : Repaired xxh64 shape img (badNodes xxh64 shape img list.lbas) ⟨img, [], 0⟩ := by
      rw [hnone]
      exact Repaired.start
    exact ⟨_, rfl, hdone.touchesOnlyBad list.header_fits hall⟩

/-! ### Lists that are not -/

/-- The first pass ends at a checksum that is taken over more than the buffer. -/
theorem scan_fits (hscan : scan xxh64 shape heap img lbas found = .done found')
    (hmagic : ∀ lba ∈ lbas, magic (shape.node img lba) = btreeNodeMagic) :
    ∀ lba ∈ lbas, dataSize (shape.node img lba) ≤ shape.nodeSize := by
  induction lbas generalizing found with
  | nil => exact fun lba hlba ↦ absurd hlba List.not_mem_nil
  | cons lba lbas ih =>
    rw [List.forall_mem_cons] at hmagic ⊢
    obtain ⟨next, hnext, ⟨hbad, -⟩ | ⟨-, hfits, -⟩⟩ := scan_cons hscan
    · exact absurd hmagic.1 hbad
    · exact ⟨hfits, ih hnext hmagic.2⟩

namespace BadNodes

/-- What is in the array at an index can only be `m`. -/
def Holds (found : BadNodes) (m j : ℕ) : Prop := ∀ a, found.addresses[j]? = some a → a = m

/-- The array holds `m` wherever the counter has not been. -/
def Fresh (found : BadNodes) (m : ℕ) : Prop := ∀ j, found.bad ≤ j → found.Holds m j

/-- The counter has passed an index that was not stored. -/
def Passed (found : BadNodes) (m : ℕ) : Prop := ∃ j < found.bad, found.Holds m j

/-- A store changes one element, and what is new in the array is from the heap. -/
theorem store_holds {m : ℕ} (hstore : found.store (fun _ ↦ m) lba = some found') :
    found'.bad = found.bad + 1 ∧ ∀ j ≠ found.bad, found.Holds m j → found'.Holds m j := by
  rw [store] at hstore
  split_ifs at hstore
  cases hstore
  refine ⟨rfl, fun j hj hholds a ha ↦ ?_⟩
  rw [List.getElem?_set_ne hj.symm, grow] at ha
  split_ifs at ha
  · exact hholds a ha
  all_goals
    rcases Nat.lt_or_ge j found.addresses.length with hold | hnew
    · rw [List.getElem?_append_left hold] at ha
      exact hholds a ha
    · rw [List.getElem?_append_right hnew, List.getElem?_map] at ha
      obtain ⟨-, -, hm⟩ := Option.map_eq_some_iff.mp ha
      exact hm.symm

end BadNodes

/-- A bad magic leaves an index of the array without its address. -/
theorem scan_passed {m : ℕ}
    (hscan : scan xxh64 shape (fun _ ↦ m) img lbas found = .done found') (hfresh : found.Fresh m)
    (hbad : found.Passed m ∨ ∃ lba ∈ lbas, magic (shape.node img lba) ≠ btreeNodeMagic) :
    found'.Passed m := by
  induction lbas generalizing found with
  | nil =>
    cases hscan
    exact hbad.resolve_right fun h ↦ List.not_mem_nil h.choose_spec.1
  | cons lba lbas ih =>
    obtain ⟨next, hnext, ⟨-, rfl⟩ | ⟨hmagic, -, hcase⟩⟩ := scan_cons hscan
    · exact ih hnext (fun j hj ↦ hfresh j (Nat.le_of_succ_le hj))
        (Or.inl ⟨found.bad, Nat.lt_succ_self _, hfresh found.bad le_rfl⟩)
    · have hlater : found.Passed m ∨ ∃ a ∈ lbas, magic (shape.node img a) ≠ btreeNodeMagic := by
        refine hbad.imp_right ?_
        rintro ⟨a, ha, hne⟩
        exact ⟨a, (List.mem_cons.mp ha).resolve_left fun heq ↦ hne (heq ▸ hmagic), hne⟩
      rcases hcase with hstore | rfl
      · obtain ⟨hnextbad, hholds⟩ := BadNodes.store_holds hstore
        refine ih hnext (fun j hj ↦ ?_) (hlater.imp_left ?_)
        · rw [hnextbad] at hj
          exact hholds j (Nat.ne_of_gt hj) (hfresh j (Nat.le_of_succ_le hj))
        · rintro ⟨j, hj, hm⟩
          exact ⟨j, hnextbad ▸ Nat.lt_succ_of_lt hj, hholds j hj.ne hm⟩
      · exact ih hnext hfresh hlater

section

variable (hheader : btreeNodeHeaderSize ≤ shape.nodeSize)
  (hrepair : repairNodes xxh64 shape addresses count i r = .done r')
include hheader hrepair

/-- All that the repair reads is in the array, and all that it can read is written. -/
theorem repairNodes_writes : (∀ lba ∈ r.written, lba ∈ r'.written) ∧
      ∀ j < count, ∃ a, addresses[i + j]? = some a ∧ (shape.Inside r.image a → a ∈ r'.written) := by
  induction count generalizing i r with
  | zero =>
    cases hrepair
    exact ⟨fun _ hlba ↦ hlba, fun j hj ↦ absurd hj (Nat.not_lt_zero j)⟩
  | succ count ih =>
    rw [repairNodes] at hrepair
    split at hrepair
    · cases hrepair
    · next lba hslot =>
      obtain ⟨mid, hmid, hrest⟩ := Outcome.bind_eq_done.mp hrepair
      obtain ⟨hkept, hlater⟩ := ih hrest
      have hmid : (∀ a, shape.Inside r.image a → shape.Inside mid.image a) ∧
          (∀ a ∈ r.written, a ∈ mid.written) ∧ (shape.Inside r.image lba → lba ∈ mid.written) := by
        rcases repairNode_cases hmid with ⟨hout, rfl⟩ | ⟨hin, rfl⟩
        · exact ⟨fun _ h ↦ h, fun _ h ↦ h, fun h ↦ absurd h hout⟩
        · exact ⟨fun _ h ↦ ⟨h.1, (size_pwrite_fixNode hheader hin).symm ▸ h.2⟩,
            fun _ h ↦ List.mem_append_left _ h,
            fun _ ↦ List.mem_append_right _ List.mem_cons_self⟩
      refine ⟨fun a ha ↦ hkept a (hmid.2.1 a ha), fun j hj ↦ ?_⟩
      cases j with
      | zero => exact ⟨lba, hslot, fun hin ↦ hkept lba (hmid.2.2 hin)⟩
      | succ j =>
        obtain ⟨a, ha, hwritten⟩ := hlater j (Nat.lt_of_succ_lt_succ hj)
        refine ⟨a, ?_, fun hin ↦ hwritten (hmid.1 a hin)⟩
        rwa [Nat.add_succ, ← Nat.succ_add]

/-- The repair counts every node that it can read. -/
theorem repairNodes_fixes
    (hin : ∀ j < count, ∀ a, addresses[i + j]? = some a → shape.Inside r.image a) :
    r'.fixes = r.fixes + count := by
  induction count generalizing i r with
  | zero =>
    cases hrepair
    rfl
  | succ count ih =>
    rw [repairNodes] at hrepair
    split at hrepair
    · cases hrepair
    · next lba hslot =>
      obtain ⟨mid, hmid, hrest⟩ := Outcome.bind_eq_done.mp hrepair
      have hinside := hin 0 (Nat.succ_pos count) lba hslot
      obtain ⟨hout, -⟩ | ⟨-, rfl⟩ := repairNode_cases hmid
      · exact absurd hinside hout
      · rw [ih hrest fun j hj a ha ↦ ?_]
        · exact Nat.succ_add_eq_add_succ r.fixes count
        · have hread := hin (j + 1) (Nat.succ_lt_succ hj) a (by rwa [Nat.add_succ, ← Nat.succ_add])
          exact ⟨hread.1, (size_pwrite_fixNode hheader hinside).symm ▸ hread.2⟩

end

namespace NodeList

variable (list : NodeList shape img)

section

variable (hrepairs : RepairsOnlyBad xxh64 shape img list.lbas)
include hrepairs

theorem scan_of_repairsOnlyBad (heap : ℕ → ℕ) : ∃ found report,
      scan xxh64 shape heap img list.lbas ⟨[], 0⟩ = .done found ∧
      TouchesOnlyBad xxh64 shape img list.lbas report ∧ (0 < found.bad →
        repairNodes xxh64 shape found.addresses found.bad 0 ⟨img, [], 0⟩ =
          .done ⟨report.image, report.written, report.fixedCount⟩) := by
  obtain ⟨report, hverify, hreport⟩ := hrepairs heap
  obtain ⟨found, hscan, hrest⟩ := Outcome.bind_eq_done.mp hverify
  refine ⟨found, report, hscan, hreport, fun hsome ↦ ?_⟩
  rw [if_pos ⟨hsome, rfl⟩] at hrest
  obtain ⟨r, hrepair, hr⟩ := Outcome.bind_eq_done.mp hrest
  cases hr
  exact hrepair

/-- A node with a bad magic leaves an address to the heap, which can hold that of the node. -/
theorem magic_eq_of_repairsOnlyBad :
    ∀ lba ∈ list.lbas, magic (shape.node img lba) = btreeNodeMagic := by
  intro lba hlba
  by_contra hbad
  obtain ⟨found, report, hscan, hreport, hrepair⟩ :=
    list.scan_of_repairsOnlyBad hrepairs fun _ ↦ lba
  have hfresh : (⟨[], 0⟩ : BadNodes).Fresh lba := fun _ _ _ ha ↦ nomatch ha
  obtain ⟨j, hj, hholds⟩ := scan_passed hscan hfresh (Or.inr ⟨lba, hlba, hbad⟩)
  obtain ⟨-, hwrites⟩ := repairNodes_writes list.header_fits (hrepair (Nat.zero_lt_of_lt hj))
  obtain ⟨a, ha, hwritten⟩ := hwrites j hj
  rw [Nat.zero_add] at ha
  obtain rfl := hholds a ha
  exact hbad (hreport.listed a (hwritten (list.inside a hlba))).2.1

/-- A node that is repaired twice is counted twice. -/
theorem once_of_repairsOnlyBad
    (hmagic : ∀ lba ∈ list.lbas, magic (shape.node img lba) = btreeNodeMagic)
    (hfits : ∀ lba ∈ list.lbas, dataSize (shape.node img lba) ≤ shape.nodeSize) :
    ((badNodes xxh64 shape img list.lbas).map shape.offset).Nodup := by
  obtain ⟨found, report, hscan, hreport, hrepair⟩ := list.scan_of_repairsOnlyBad hrepairs fun _ ↦ 0
  obtain ⟨found', hscan', hbad, rest, haddresses⟩ := scan_start list.inside hmagic hfits fun _ ↦ 0
  obtain rfl : found = found' := by
    rw [hscan] at hscan'
    cases hscan'
    rfl
  rcases Nat.eq_zero_or_pos found.bad with hnone | hsome
  · rw [List.eq_nil_of_length_eq_zero (hbad.symm.trans hnone)]
    exact List.nodup_nil
  · have hfixes := repairNodes_fixes list.header_fits (hrepair hsome) fun j hj a ha ↦ by
      rw [Nat.zero_add, haddresses, List.getElem?_append_left (hbad ▸ hj)] at ha
      exact list.inside a (mem_badNodes.mp (List.mem_of_getElem? ha)).1
    rw [Nat.zero_add, hbad] at hfixes
    have hcounted := hreport.counted
    have hsubset : repairedNodes xxh64 shape img list.lbas report.image ⊆
        ((badNodes xxh64 shape img list.lbas).map shape.offset).toFinset := by
      intro place hplace
      rw [repairedNodes, List.mem_toFinset, List.mem_map] at hplace
      obtain ⟨lba, hlba, rfl⟩ := hplace
      rw [List.mem_filter, decide_eq_true_iff] at hlba
      exact List.mem_toFinset.mpr (List.mem_map_of_mem (mem_badNodes.mpr ⟨hlba.1, hlba.2.1.2⟩))
    refine Multiset.toFinset_card_eq_card_iff_nodup.mp ((List.toFinset_card_le _).antisymm ?_)
    calc ((badNodes xxh64 shape img list.lbas).map shape.offset).length
        = report.fixedCount := by rw [List.length_map, ← hfixes]
      _ ≤ (repairedNodes xxh64 shape img list.lbas report.image).card := hcounted
      _ ≤ _ := Finset.card_le_card hsubset

end

theorem repairsOnlyBad_iff :
    RepairsOnlyBad xxh64 shape img list.lbas ↔ AllNodes xxh64 shape img list.lbas := by
  refine ⟨fun hrepairs ↦ ?_, list.repairsOnlyBad⟩
  have hmagic := list.magic_eq_of_repairsOnlyBad hrepairs
  obtain ⟨found, -, hscan, -, -⟩ := list.scan_of_repairsOnlyBad hrepairs fun _ ↦ 0
  have hfits := scan_fits hscan hmagic
  exact ⟨hmagic, hfits, list.once_of_repairsOnlyBad hrepairs hmagic hfits⟩

end NodeList

/-- The repair touches only bad nodes, whatever the heap holds, if and only if all nodes of the list
have their magic and a length that fits, and those with a bad checksum are listed once. -/
theorem verifyNodeChecksums_iff (xxh64 : List UInt8 → ℕ) (blockSize : ℕ) (img : Image) :
    (∀ list : NodeList (btreeShape blockSize) img,
      (∀ heap, ∃ report,
        verifyBtreeNodeChecksums xxh64 blockSize heap true img list.lbas = .done report ∧
          TouchesOnlyBad xxh64 (btreeShape blockSize) img list.lbas report) ↔
        AllNodes xxh64 (btreeShape blockSize) img list.lbas) ∧
    ∀ list : NodeList (metaShape blockSize) img,
      (∀ heap, ∃ report,
        verifyMetaNodeChecksums xxh64 blockSize heap true img list.lbas = .done report ∧
          TouchesOnlyBad xxh64 (metaShape blockSize) img list.lbas report) ↔
        AllNodes xxh64 (metaShape blockSize) img list.lbas :=
  ⟨fun list ↦ list.repairsOnlyBad_iff, fun list ↦ list.repairsOnlyBad_iff⟩

/-- Block one of a volume of zeros. -/
def zeroNode : NodeList (btreeShape 4096) (Image.zeros 8192) :=
  .ofBlocks [1] (by decide) (by decide) (by
    intro lba hlba
    obtain rfl := List.mem_singleton.mp hlba
    exact ⟨by decide, by decide⟩)

/-- One node with a bad magic is counted and no address is stored: the repair reads an array that
was never allocated. -/
theorem zeroNode_fault : ¬∀ heap, ∃ report,
      verifyBtreeNodeChecksums (fun data ↦ (Library.XxHash.xxh64 data).toNat) 4096 heap true
          (Image.zeros 8192) zeroNode.lbas = .done report ∧
        TouchesOnlyBad (fun data ↦ (Library.XxHash.xxh64 data).toNat) (btreeShape 4096)
          (Image.zeros 8192) zeroNode.lbas report := by
  intro h
  obtain ⟨report, hverify, -⟩ := h fun _ ↦ 0
  have hin : (btreeShape 4096).Inside (Image.zeros 8192) 1 := zeroNode.inside 1 List.mem_cons_self
  have hmagic : magic ((btreeShape 4096).node (Image.zeros 8192) 1) ≠ btreeNodeMagic := by
    rw [NodeShape.node, Image.bytesAt_zeros, magic, fieldBytes, List.drop_replicate,
      List.take_replicate, number_replicate_zero]
    decide
  rw [verifyBtreeNodeChecksums, verifyNodeChecksums, zeroNode, NodeList.ofBlocks, scan,
    hin.blockRead] at hverify
  simp only at hverify
  rw [if_pos hmagic] at hverify
  cases hverify

end Obmafs3.NodeChecksums
