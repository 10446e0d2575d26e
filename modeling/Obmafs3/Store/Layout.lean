import Obmafs3.Store.Alloc

/-!
# Search trees on disk

`Holds` says that the nodes on disk spell a labelled search tree, the labels being LBAs. `Row` says
that the nodes of one level form a doubly linked list that starts and ends with link zero.
-/

set_option autoImplicit false

namespace Obmafs3

open Library.SearchTree

variable {κ ρ : Type}

/-! ### Nodes without their links -/

/-- The records of a leaf, or the level and the entries of an index node. -/
def Node.content : Node κ ρ → List ρ ⊕ ℕ × List (κ × ℕ)
  | .leaf _ _ records => .inl records
  | .index level _ _ entries _ => .inr (level, entries)

def Node.leftLink : Node κ ρ → ℕ
  | .leaf leftLink _ _ => leftLink
  | .index _ leftLink _ _ _ => leftLink

def Node.rightLink : Node κ ρ → ℕ
  | .leaf _ rightLink _ => rightLink
  | .index _ _ rightLink _ _ => rightLink

@[simp] theorem Node.content_setLeftLink (node : Node κ ρ) (lba : ℕ) :
    (node.setLeftLink lba).content = node.content := by
  cases node <;> rfl

@[simp] theorem Node.level_setLeftLink (node : Node κ ρ) (lba : ℕ) :
    (node.setLeftLink lba).level = node.level := by
  cases node <;> rfl

@[simp] theorem Node.leftLink_setLeftLink (node : Node κ ρ) (lba : ℕ) :
    (node.setLeftLink lba).leftLink = lba := by
  cases node <;> rfl

@[simp] theorem Node.rightLink_setLeftLink (node : Node κ ρ) (lba : ℕ) :
    (node.setLeftLink lba).rightLink = node.rightLink := by
  cases node <;> rfl

theorem Node.level_eq_of_content {node : Node κ ρ} {level : ℕ} {entries : List (κ × ℕ)}
    (hcontent : node.content = .inr (level, entries)) : node.level = level := by
  cases node with
  | leaf => cases hcontent
  | index => cases hcontent; rfl

theorem Node.level_eq_zero_of_content {node : Node κ ρ} {records : List ρ}
    (hcontent : node.content = .inl records) : node.level = 0 := by
  cases node with
  | leaf => rfl
  | index => cases hcontent

/-! ### Trees -/

/-- The nodes that a disk holds, as one tree reads them. -/
def TreeKind.view (kind : TreeKind κ ρ) (ctx : TreeCtx) (lba : ℕ) : Option (Node κ ρ) :=
  kind.ofBlock (ctx.vol.disk lba)

/-- What a node says apart from its links. -/
def contentAt (view : ℕ → Option (Node κ ρ)) (lba : ℕ) : Option (List ρ ⊕ ℕ × List (κ × ℕ)) :=
  (view lba).map Node.content

variable {view : ℕ → Option (Node κ ρ)} {height : ℕ} {t : Tree ℕ κ ρ height}

theorem contentAt_leaf {lba : ℕ} {rs : List ρ} (hcontent : contentAt view lba = some (.inl rs)) :
    ∃ left right, view lba = some (.leaf left right rs) := by
  obtain ⟨node, hnode, hnodecontent⟩ := Option.map_eq_some_iff.mp hcontent
  cases node with
  | leaf left right records =>
    cases hnodecontent
    exact ⟨left, right, hnode⟩
  | index => cases hnodecontent

theorem contentAt_index {lba level : ℕ} {entries : List (κ × ℕ)}
    (hcontent : contentAt view lba = some (.inr (level, entries))) :
    ∃ left right spare, view lba = some (.index level left right entries spare) := by
  obtain ⟨node, hnode, hnodecontent⟩ := Option.map_eq_some_iff.mp hcontent
  cases node with
  | leaf => cases hnodecontent
  | index level left right entries spare =>
    cases hnodecontent
    exact ⟨left, right, spare, hnode⟩

/-- The nodes spell a tree. -/
def Holds (view : ℕ → Option (Node κ ρ)) : (height : ℕ) → Tree ℕ κ ρ height → Prop
  | 0, (a, rs) => contentAt view a = some (.inl rs)
  | height + 1, (a, es) =>
    contentAt view a = some (.inr (height + 1, es.map fun e ↦ (e.1, label height e.2))) ∧
      ∀ e ∈ es, Holds view height e.2

theorem Holds.congr {view view' : ℕ → Option (Node κ ρ)} (hholds : Holds view height t)
    (hsame : ∀ level ≤ height, ∀ lba ∈ row height t level, contentAt view' lba = contentAt view lba)
    : Holds view' height t := by
  induction height with
  | zero =>
    obtain ⟨a, rs⟩ := t
    exact (hsame 0 le_rfl a (by simp [row])).trans hholds
  | succ height ih =>
    obtain ⟨a, es⟩ := t
    obtain ⟨hroot, hchildren⟩ := hholds
    refine ⟨(hsame (height + 1) le_rfl a (by simp [row])).trans hroot, fun e he ↦ ?_⟩
    refine ih (hchildren e he) fun level hlevel lba hlba ↦ ?_
    refine hsame level (by omega) lba ?_
    rw [row_index a es hlevel]
    exact List.mem_flatMap.mpr ⟨e, he, hlba⟩

/-- The level on disk is the height of the node in the tree. -/
theorem Holds.level (hholds : Holds view height t) {level lba : ℕ} (hlba : lba ∈ row height t level)
    : (view lba).map Node.level = some level := by
  induction height with
  | zero =>
    obtain ⟨a, rs⟩ := t
    simp only [row] at hlba
    split_ifs at hlba with hzero
    · obtain rfl : lba = a := by simpa using hlba
      obtain ⟨node, hnode, hcontent⟩ := Option.map_eq_some_iff.mp hholds
      rw [hnode, hzero, Option.map_some, Node.level_eq_zero_of_content hcontent]
    · simp at hlba
  | succ height ih =>
    obtain ⟨a, es⟩ := t
    simp only [row] at hlba
    split_ifs at hlba with htop
    · obtain rfl : lba = a := by simpa using hlba
      obtain ⟨node, hnode, hcontent⟩ := Option.map_eq_some_iff.mp hholds.1
      rw [hnode, htop, Option.map_some, Node.level_eq_of_content hcontent]
    · obtain ⟨e, he, hlba⟩ := List.mem_flatMap.mp hlba
      exact ih (hholds.2 e he) hlba

theorem Holds.level_label (hholds : Holds view height t) :
    (view (label height t)).map Node.level = some height :=
  hholds.level (by rw [row_self]; exact List.mem_singleton_self _)

/-! ### Rows -/

/-- Nodes linked to each other in both directions, after a node `prev` and up to link zero. -/
def Linked (view : ℕ → Option (Node κ ρ)) : (prev : ℕ) → List ℕ → Prop
  | _, [] => True
  | prev, lba :: rest =>
    (∃ node, view lba = some node ∧ node.leftLink = prev ∧ node.rightLink = rest.headD 0) ∧
      Linked view lba rest

/-- The nodes of one level from left to right. -/
structure Row (view : ℕ → Option (Node κ ρ)) (level : ℕ) (lbas : List ℕ) : Prop where
  linked : Linked view 0 lbas
  level_eq : ∀ lba ∈ lbas, (view lba).map Node.level = some level
  nodup : lbas.Nodup

/-- What a node says apart from its records or entries. -/
def linksAt (view : ℕ → Option (Node κ ρ)) (lba : ℕ) : Option (ℕ × ℕ × ℕ) :=
  (view lba).map fun node ↦ (node.level, node.leftLink, node.rightLink)

theorem Linked.congr {view view' : ℕ → Option (Node κ ρ)} {prev : ℕ} {lbas : List ℕ}
    (hlinked : Linked view prev lbas) (hsame : ∀ lba ∈ lbas, linksAt view' lba = linksAt view lba) :
    Linked view' prev lbas := by
  induction lbas generalizing prev with
  | nil => trivial
  | cons lba rest ih =>
    obtain ⟨⟨node, hnode, hleft, hright⟩, hrest⟩ := hlinked
    have hlinks := hsame lba List.mem_cons_self
    rw [linksAt, linksAt, hnode] at hlinks
    obtain ⟨node', hnode', hsamelinks⟩ := Option.map_eq_some_iff.mp hlinks
    simp only [Prod.mk.injEq] at hsamelinks
    exact ⟨⟨node', hnode', hsamelinks.2.1.trans hleft, hsamelinks.2.2.trans hright⟩,
      ih hrest fun lba hlba ↦ hsame lba (List.mem_cons_of_mem _ hlba)⟩

theorem Row.congr {view view' : ℕ → Option (Node κ ρ)} {level : ℕ} {lbas : List ℕ}
    (hrow : Row view level lbas) (hsame : ∀ lba ∈ lbas, linksAt view' lba = linksAt view lba) :
    Row view' level lbas := by
  refine ⟨hrow.linked.congr hsame, fun lba hlba ↦ ?_, hrow.nodup⟩
  have hlevel := congrArg (Option.map Prod.fst) (hsame lba hlba)
  simp only [linksAt, Option.map_map, Function.comp_def] at hlevel
  exact hlevel.trans (hrow.level_eq lba hlba)

/-- The links of a node inside a row. -/
theorem Linked.at {prev a : ℕ} {before after : List ℕ}
    (hlinked : Linked view prev (before ++ a :: after)) :
    ∃ node, view a = some node ∧ node.leftLink = before.getLastD prev ∧
      node.rightLink = after.headD 0 := by
  induction before generalizing prev with
  | nil => exact hlinked.1
  | cons lba before ih =>
    obtain ⟨node, hnode, hleft, hright⟩ := ih hlinked.2
    exact ⟨node, hnode, by rw [List.getLastD_cons, hleft], hright⟩

/-- A new node after `a`: `a` and the node after it name the new one, everything else stays. -/
theorem Linked.splice {view view' : ℕ → Option (Node κ ρ)} {prev a b : ℕ} {before after : List ℕ}
    (hlinked : Linked view prev (before ++ a :: after))
    (ha : ∃ node, view' a = some node ∧ node.leftLink = before.getLastD prev ∧ node.rightLink = b)
    (hb : ∃ node, view' b = some node ∧ node.leftLink = a ∧ node.rightLink = after.headD 0)
    (hbefore : ∀ lba ∈ before, view' lba = view lba)
    (hnext : ∀ lba rest, after = lba :: rest → view' lba = (view lba).map (·.setLeftLink b))
    (hafter : ∀ lba ∈ after.tail, view' lba = view lba) :
    Linked view' prev (before ++ a :: b :: after) := by
  induction before generalizing prev with
  | nil =>
    refine ⟨ha, hb, ?_⟩
    cases after with
    | nil => trivial
    | cons lba rest =>
      obtain ⟨-, ⟨node, hnode, hleft, hright⟩, hrest⟩ := hlinked
      refine ⟨⟨node.setLeftLink b, ?_, by simp, by simpa using hright⟩,
        hrest.congr fun other hother ↦ by rw [linksAt, linksAt, hafter other hother]⟩
      rw [hnext lba rest rfl, hnode, Option.map_some]
  | cons lba before ih =>
    obtain ⟨⟨node, hnode, hleft, hright⟩, hrest⟩ := hlinked
    refine ⟨⟨node, by rw [hbefore lba List.mem_cons_self, hnode], hleft, ?_⟩, ?_⟩
    · rw [hright]
      cases before <;> rfl
    · rw [List.getLastD_cons] at ha
      exact ih hrest ha fun lba hlba ↦ hbefore lba (List.mem_cons_of_mem _ hlba)

/-! ### The nodes of a tree and the volume around it -/

/-- The nodes of one tree. -/
def nodesOf (height : ℕ) (t : Tree ℕ κ ρ height) : Set ℕ :=
  {lba | ∃ level ≤ height, lba ∈ row height t level}

theorem label_mem_nodesOf (height : ℕ) (t : Tree ℕ κ ρ height) :
    label height t ∈ nodesOf height t :=
  ⟨height, le_rfl, by rw [row_self]; exact List.mem_singleton_self _⟩

theorem nodesOf_index_subset {height a : ℕ} {es : List (κ × Tree ℕ κ ρ height)} {used : Set ℕ}
    (ha : a ∈ used) (hes : ∀ e ∈ es, nodesOf height e.2 ⊆ used) :
    nodesOf (κ := κ) (ρ := ρ) (height + 1) (a, es) ⊆ used := by
  rintro lba ⟨level, hlevel, hlba⟩
  rcases Nat.eq_or_lt_of_le hlevel with rfl | hlt
  · rw [row_self] at hlba
    obtain rfl : lba = a := List.mem_singleton.mp hlba
    exact ha
  · rw [row_index _ _ (by omega)] at hlba
    obtain ⟨e, he, hlba⟩ := List.mem_flatMap.mp hlba
    exact hes e he ⟨level, by omega, hlba⟩

theorem nodesOf_child_subset {height a : ℕ} {es : List (κ × Tree ℕ κ ρ height)}
    {entry : κ × Tree ℕ κ ρ height} (hentry : entry ∈ es) :
    nodesOf height entry.2 ⊆ nodesOf (κ := κ) (ρ := ρ) (height + 1) (a, es) := by
  rintro lba ⟨level, hlevel, hlba⟩
  refine ⟨level, Nat.le_succ_of_le hlevel, ?_⟩
  rw [row_index _ _ hlevel]
  exact List.mem_flatMap.mpr ⟨entry, hentry, hlba⟩

/-- The volume around a tree. Block zero and the header hold no node. -/
structure Ready (kind : TreeKind κ ρ) (hdrLba : ℕ) (used : Set ℕ) (ctx : TreeCtx) : Prop where
  sound : Allocated ctx used
  header : hdrLba ∈ used
  reserved : ∀ lba, lba = 0 ∨ lba = hdrLba → kind.view ctx lba = none

end Obmafs3
