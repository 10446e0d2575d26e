import Obmafs3.Store.Tree

/-!
# Rewriting a leaf in place

A removal that leaves its leaf where it is writes one node and no other. The tree that the disk
holds afterwards is the one that `editLeaf` makes, and the invariant between calls stays.
-/

set_option autoImplicit false

namespace Obmafs3

open Library.Search Library.SearchTree

variable {κ ρ : Type} [LinearOrder κ] {kind : TreeKind κ ρ} {edit : List ρ → List ρ} {k : κ}

variable {height : ℕ} {t : Tree ℕ κ ρ height}

theorem map_entry_editLeaf {es before after : List (κ × Tree ℕ κ ρ height)}
    {entry : κ × Tree ℕ κ ρ height} (hslot : Slotted es k before entry after) {γ : Type}
    (f : κ × Tree ℕ κ ρ height → γ) (hf : f (entry.1, editLeaf edit k height entry.2) = f entry) :
    (before ++ (entry.1, editLeaf edit k height entry.2) :: after).map f = es.map f := by
  rw [hslot.eq, List.map_append, List.map_append, List.map_cons, List.map_cons, hf]

theorem row_editLeaf (height : ℕ) (t : Tree ℕ κ ρ height) (level : ℕ) :
    row height (editLeaf edit k height t) level = row height t level := by
  induction height with
  | zero => rfl
  | succ height ih =>
    obtain ⟨a, es⟩ := t
    rcases eq_or_ne es [] with rfl | hne
    · rfl
    · obtain ⟨before, entry, after, hslot⟩ := exists_slotted hne k
      rw [hslot.editLeaf, row, row]
      have hmap : (before ++ (entry.1, editLeaf edit k height entry.2) :: after).map
          (fun e ↦ row height e.2 level) = es.map fun e ↦ row height e.2 level :=
        map_entry_editLeaf hslot _ (ih entry.2)
      rw [List.flatMap_def, hmap, ← List.flatMap_def]

/-- An edit that leaves the leaf as it is leaves the tree as it is. -/
theorem editLeaf_self (hsolid : Solid height t)
    (hedit : edit (leafFor k height t).2 = (leafFor k height t).2) :
    editLeaf edit k height t = t := by
  induction height with
  | zero =>
    obtain ⟨a, rs⟩ := t
    exact congrArg (Prod.mk a) hedit
  | succ height ih =>
    obtain ⟨a, es⟩ := t
    obtain ⟨before, entry, after, hslot⟩ := exists_slotted hsolid.1 k
    simp only [leafFor, hslot.getElem?] at hedit
    rw [hslot.editLeaf, ih (hsolid.2 entry hslot.mem) hedit, hslot.eq]

/-- The nodes spell the edited tree once the leaf is rewritten. -/
theorem Holds.editLeaf {view view' : ℕ → Option (Node κ ρ)} (hholds : Holds view height t)
    (hsolid : Solid height t) (hnodup : (row height t 0).Nodup)
    (hleaf : contentAt view' (leafFor k height t).1 = some (.inl (edit (leafFor k height t).2)))
    (hsame : ∀ lba, lba ≠ (leafFor k height t).1 → contentAt view' lba = contentAt view lba) :
    Holds view' height (editLeaf edit k height t) := by
  induction height with
  | zero => exact hleaf
  | succ height ih =>
    obtain ⟨a, es⟩ := t
    obtain ⟨before, entry, after, hslot⟩ := exists_slotted hsolid.1 k
    simp only [leafFor, hslot.getElem?] at hleaf hsame
    have hentry := hholds.2 entry hslot.mem
    have hmem := leafFor_mem_row k (hsolid.2 entry hslot.mem)
    rw [row_index a es (Nat.zero_le _), hslot.eq, List.flatMap_append, List.flatMap_cons] at hnodup
    obtain ⟨-, hmiddle, hcross⟩ := List.nodup_append.mp hnodup
    obtain ⟨hentrynodup, -, hcross'⟩ := List.nodup_append.mp hmiddle
    -- Only the rewritten leaf has its label.
    have hbeside (e : κ × Tree ℕ κ ρ height) (he : e ∈ before ∨ e ∈ after) :
        Holds view' height e.2 := by
      have hes : e ∈ es := by
        rw [hslot.eq]
        simp only [List.mem_append, List.mem_cons]
        tauto
      refine (hholds.2 e hes).congr fun level hlevel lba hlba ↦ hsame lba ?_
      rintro rfl
      have hlevels := ((hholds.2 e hes).level hlba).symm.trans (hentry.level hmem)
      obtain rfl : level = 0 := Option.some.inj hlevels
      rcases he with he | he
      · exact hcross _ (List.mem_flatMap.mpr ⟨e, he, hlba⟩) _ (List.mem_append_left _ hmem) rfl
      · exact hcross' _ hmem _ (List.mem_flatMap.mpr ⟨e, he, hlba⟩) rfl
    rw [hslot.editLeaf]
    refine ⟨?_, List.forall_mem_append.mpr ⟨fun e he ↦ hbeside e (Or.inl he),
      List.forall_mem_cons.mpr ⟨ih hentry (hsolid.2 entry hslot.mem) hentrynodup hleaf hsame,
        fun e he ↦ hbeside e (Or.inr he)⟩⟩⟩
    have hne : a ≠ (leafFor k height entry.2).1 := by
      intro h
      have hroot := hholds.level_label
      rw [label_index, h, hentry.level hmem] at hroot
      cases hroot
    rw [hsame a hne, hholds.1, map_entry_editLeaf hslot]
    rw [label_editLeaf]

/-- The invariant after the leaf for a key was rewritten. -/
theorem Stored.writeLeaf {hdrLba : ℕ} {used : Set ℕ} {ctx : TreeCtx}
    (hstored : Stored kind hdrLba used ctx (.node height t)) {left right : ℕ}
    (hnode : kind.view ctx (leafFor k height t).1 = some (.leaf left right (leafFor k height t).2))
    (edit : List ρ → List ρ) :
    (leafFor k height t).1 ∈ used ∧ Stored kind hdrLba used (ctx.write (leafFor k height t).1
        (kind.toBlock (.leaf left right (edit (leafFor k height t).2))))
        (.node height (editLeaf edit k height t)) := by
  obtain ⟨⟨hsound, hheader, hreserved⟩, hroot, hplaced, hsolid⟩ := hstored
  have hmem := leafFor_mem_row k hsolid
  have hrowOf (level : ℕ) : nowhere level ++ rowOf [t] level ++ nowhere level =
      row height t level := by simp [nowhere, rowOf]
  have hused : (leafFor k height t).1 ∈ used :=
    hplaced.mem_used 0 (Nat.zero_le _) _ (by rwa [hrowOf])
  have hrow := hplaced.rows 0 (Nat.zero_le _)
  rw [hrowOf] at hrow
  have hne (lba : ℕ) (hlba : lba = 0 ∨ lba = hdrLba) : lba ≠ (leafFor k height t).1 := by
    rintro rfl
    rw [hreserved _ hlba] at hnode
    cases hnode
  refine ⟨hused, ⟨hsound.write hused _, hheader, fun lba hlba ↦ ?_⟩, ?_, ⟨?_, ?_, ?_⟩,
    editLeaf_solid hsolid⟩
  · rw [view_write_of_ne (hne lba hlba), hreserved lba hlba]
  · exact hroot.trans (label_editLeaf height t).symm
  · intro u hu
    obtain rfl := List.mem_singleton.mp hu
    refine (hplaced.holds t (by simp)).editLeaf hsolid hrow.nodup ?_ fun lba hlba ↦ ?_
    · rw [contentAt, view_write_self]
      rfl
    · rw [contentAt, contentAt, view_write_of_ne hlba]
  · intro level hlevel
    have hsame : rowOf [editLeaf edit k height t] level = rowOf [t] level := by
      simp [rowOf, row_editLeaf]
    rw [hsame]
    exact (hplaced.rows level hlevel).congr fun lba _ ↦ linksAt_write
      (.leaf left right (edit (leafFor k height t).2)) hnode rfl rfl rfl lba
  · intro level hlevel
    have hsame : rowOf [editLeaf edit k height t] level = rowOf [t] level := by
      simp [rowOf, row_editLeaf]
    rw [hsame]
    exact hplaced.mem_used level hlevel

end Obmafs3
