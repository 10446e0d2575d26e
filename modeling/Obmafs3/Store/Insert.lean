import Obmafs3.Store.Split

/-!
# An insertion on disk is an insertion in the tree

`btreeInsert` runs over blocks, with a path from the root and splits carried up along it, while
`put` recurses over a search tree. The two agree: `insertBelow_spec` says it for the part of an
insertion that happens below one node, by induction on the height of the node, with the rest of the
tree to its left and right as a context that only changes in one link for each level.
-/

set_option autoImplicit false
set_option linter.unusedSectionVars false

namespace Obmafs3

open Library.Search Library.SearchTree
open Function (update update_of_ne update_self)

variable {κ ρ : Type} [LinearOrder κ] {kind : TreeKind κ ρ}

/-! ### The part of an insertion below a node -/

theorem propagate_append (hdrLba : ℕ) (path path' : List (ℕ × ℕ)) (split : Split κ) :
    propagate kind hdrLba (path ++ path') split = (propagate kind hdrLba path split >>= fun
        | none => pure none
        | some split => propagate kind hdrLba path' split) := by
  induction path generalizing split with
  | nil => simp [propagate]
  | cons step path ih =>
    simp only [List.cons_append, propagate, bind_assoc]
    congr 1
    funext result
    cases result with
    | none => simp
    | some split => exact ih split

theorem propagate_singleton (hdrLba a slot : ℕ) (split : Split κ) :
    propagate kind hdrLba [(a, slot)] split = parentInsert kind hdrLba a slot split := by
  rw [propagate]
  refine Eq.trans ?_ (bind_pure (parentInsert kind hdrLba a slot split))
  congr 1
  funext result
  cases result <;> rfl

/-- An insertion from a leaf up along a path. -/
def insertBelow (kind : TreeKind κ ρ) (hdrLba : ℕ) (record : ρ) (leaf : LeafAt ρ)
    (path : List (ℕ × ℕ)) : Op TreeCtx (Option (Split κ)) := do
  match ← leafInsert kind record leaf with
  | none => pure none
  | some split => propagate kind hdrLba path split

theorem insertBelow_nil (hdrLba : ℕ) (record : ρ) (leaf : LeafAt ρ) :
    insertBelow kind hdrLba record leaf [] = leafInsert kind record leaf := by
  refine Eq.trans ?_ (bind_pure (leafInsert kind record leaf))
  unfold insertBelow
  congr 1
  funext result
  cases result <;> rfl

theorem insertBelow_snoc (hdrLba : ℕ) (record : ρ) (leaf : LeafAt ρ) (path : List (ℕ × ℕ))
    (a slot : ℕ) :
    insertBelow kind hdrLba record leaf (path ++ [(a, slot)]) =
      (insertBelow kind hdrLba record leaf path >>= fun
        | none => pure none
        | some split => parentInsert kind hdrLba a slot split) := by
  simp only [insertBelow, bind_assoc]
  congr 1
  funext result
  cases result with
  | none => simp
  | some split =>
    simp only [propagate_append]
    congr 1
    funext result
    cases result with
    | none => rfl
    | some split => exact propagate_singleton hdrLba a slot split

/-! ### A step below a node -/

variable {X Y : ℕ → List ℕ}

/-- The nodes around one child of an index node. -/
theorem levelsOf_child_subset {height a : ℕ} (before after : List (κ × Tree ℕ κ ρ height))
    (entry : κ × Tree ℕ κ ρ height) :
    levelsOf (fun level ↦ X level ++ rowOf (before.map Prod.snd) level)
        (fun level ↦ rowOf (after.map Prod.snd) level ++ Y level) height entry.2 ⊆
      levelsOf (κ := κ) (ρ := ρ) X Y (height + 1) (a, before ++ entry :: after) := by
  rintro lba ⟨level, hlevel, hlba⟩
  refine ⟨level, Nat.le_succ_of_le hlevel, ?_⟩
  rw [row_index _ _ hlevel, List.flatMap_append, List.flatMap_cons]
  simpa [rowOf, List.flatMap_map, List.append_assoc] using hlba

variable {hdrLba : ℕ} {height : ℕ}

/-- A tree that stands next to the one that changes keeps its nodes. -/
theorem Placed.holds_beside {used used' R : Set ℕ} {ctx ctx' : TreeCtx}
    {t sibling : Tree ℕ κ ρ height} (hplaced : Placed (kind.view ctx) used height X Y [t])
    (hevolves : Evolves kind hdrLba used used' R (nodesOf height t) ctx ctx')
    (hsibling : Holds (kind.view ctx) height sibling)
    (hbeside : ∀ level ≤ height, ∀ lba ∈ row height sibling level, lba ∈ X level ++ Y level) :
    Holds (kind.view ctx') height sibling := by
  refine hsibling.congr fun level hlevel lba hlba ↦ hevolves.content lba ?_ ?_
  · have hmem := hbeside level hlevel lba hlba
    refine hplaced.mem_used level hlevel lba ?_
    simp only [List.mem_append] at hmem ⊢
    tauto
  · rintro ⟨other, hother, hlba'⟩
    have hrow := hplaced.rows level hlevel
    have hlevels : some other = some level :=
      ((hplaced.holds t (by simp)).level hlba').symm.trans (hsibling.level hlba)
    obtain rfl := Option.some.inj hlevels
    exact hplaced.not_mem_row hlevel (hbeside _ hlevel lba hlba) (by simpa [rowOf] using hlba')

theorem insertBelow_spec {used : Set ℕ} {ctx : TreeCtx} (record : ρ)
    (hready : Ready kind hdrLba used ctx) {t : Tree ℕ κ ρ height}
    (hplaced : Placed (kind.view ctx) used height X Y [t]) (hsolid : Solid height t)
    {left right : ℕ} (hnode : kind.view ctx (leafFor (kind.key record) height t).1 =
      some (.leaf left right (leafFor (kind.key record) height t).2)) :
    Inserts kind hdrLba used X Y record height t ctx
      (insertBelow kind hdrLba record
        ⟨(leafFor (kind.key record) height t).1, left, right,
          (leafFor (kind.key record) height t).2⟩
        (trail (kind.key record) height t) ctx) := by
  induction height generalizing X Y with
  | zero =>
    obtain ⟨a, rs⟩ := t
    rw [trail, insertBelow_nil]
    exact leafInsert_spec record hready hplaced hnode
  | succ height ih =>
    obtain ⟨a, es⟩ := t
    obtain ⟨before, entry, after, hslot⟩ := exists_slotted hsolid.1 (kind.key record)
    simp only [leafFor, trail, hslot.getElem?] at hnode ⊢
    have hchildren : Placed (kind.view ctx) used height X Y
        (before.map Prod.snd ++ [entry.2] ++ after.map Prod.snd) := by
      have h := hplaced.down
      rw [hslot.eq] at h
      simpa [children] using h
    have hfocus := hchildren.focus
    have hrow : Row (kind.view ctx) (height + 1) (X (height + 1) ++ a :: Y (height + 1)) := by
      simpa [rowOf, row] using hplaced.rows (height + 1) le_rfl
    have hused : ∀ lba ∈ X (height + 1) ++ a :: Y (height + 1), lba ∈ used := by
      simpa [rowOf, row] using hplaced.mem_used (height + 1) le_rfl
    have hcontent := (hplaced.holds (a, es) (by simp)).1
    obtain ⟨fresh, used₁, ctx₁, hevolves, hruns, hfresh, hnone, hspacious, haccounts⟩ :=
      ih hfocus (hsolid.2 entry hslot.mem) hnode
    have hsubR := levelsOf_child_subset (X := X) (Y := Y) (a := a) before after entry
    rw [← hslot.eq] at hsubR
    have hsubO := nodesOf_child_subset (a := a) hslot.mem
    -- The nodes next to and above the child are those of before.
    have hbeside (e : κ × Tree ℕ κ ρ height) (he : e ∈ before ∨ e ∈ after) :
        Holds (kind.view ctx₁) height e.2 := by
      refine hfocus.holds_beside hevolves (hchildren.holds e.2 ?_) fun level hlevel lba hlba ↦ ?_
      · simp only [List.mem_append, List.mem_map]
        exact he.elim (fun h ↦ Or.inl (Or.inl ⟨e, h, rfl⟩)) fun h ↦ Or.inr ⟨e, h, rfl⟩
      · simp only [rowOf, List.mem_append, List.mem_flatMap, List.mem_map]
        exact he.elim (fun h ↦ Or.inl (Or.inr ⟨e.2, ⟨e, h, rfl⟩, hlba⟩))
          fun h ↦ Or.inr (Or.inl ⟨e.2, ⟨e, h, rfl⟩, hlba⟩)
    have hkept : ∀ lba ∈ X (height + 1) ++ a :: Y (height + 1),
        kind.view ctx₁ lba = kind.view ctx lba := by
      intro lba hlba
      rw [TreeKind.view, TreeKind.view, hevolves.frame lba (hused lba hlba)]
      · rintro rfl
        have hlevel := hrow.level_eq lba hlba
        rw [hready.reserved lba (Or.inr rfl)] at hlevel
        cases hlevel
      · rintro ⟨level, hlevel, hmem⟩
        exact hfocus.not_mem_row_succ hrow hlevel (by simpa [rowOf] using hmem) hlba
    have hrow₁ : Row (kind.view ctx₁) (height + 1) (X (height + 1) ++ a :: Y (height + 1)) :=
      hrow.congr fun lba hlba ↦ by rw [linksAt, linksAt, hkept lba hlba]
    have hcontent₁ : contentAt (kind.view ctx₁) a = some (.inr (height + 1, diskEntries es)) := by
      rw [contentAt, hkept a (by simp)]
      exact hcontent
    set leafMax := maxKeys ctx.vol.blockSize kind.recordSize
    set indexMax := maxKeys ctx.vol.blockSize kind.entrySize with hindexMax
    have hput (label' : Option ℕ) :
        put kind.key leafMax indexMax (update fresh (height + 1) label') record
            (height + 1) (a, es) =
          graft indexMax label' a before entry.1 after
            (put kind.key leafMax indexMax fresh record height entry.2) := by
      have hsame : ∀ level ≤ height, update fresh (height + 1) label' level =
          fresh level := fun level hlevel ↦ update_of_ne (by omega) _ _
      rw [hslot.put, update_self, put_congr hsame]
    have hfresh' (label' : Option ℕ) :
        update fresh (height + 1) label' 0 = none ↔ Exhausted ctx := by
      rw [update_of_ne (by omega), hfresh]
    have hnone' (label' : Option ℕ) (hlabel : label' = none → ¬Spacious ctx (height + 1 + 1)) :
        ∀ level ≤ height + 1, update fresh (height + 1) label' level = none →
          ¬Spacious ctx (height + 1 + 1) := by
      intro level hlevel hnone'
      rcases Nat.eq_or_lt_of_le hlevel with rfl | hlt
      · exact hlabel (by simpa using hnone')
      · rw [update_of_ne (by omega)] at hnone'
        exact fun h ↦ hnone level (by omega) hnone' (h.mono (Nat.le_succ _))
    have hasked (label' : Option ℕ)
        (hlabel : Balanced ctx used → label' = none → nodesAtHand ctx ≤ height + 1) :
        Balanced ctx used → ∀ level ≤ height + 1,
          update fresh (height + 1) label' level = none → nodesAtHand ctx ≤ level := by
      intro hbalanced level hlevel hnone'
      rcases Nat.eq_or_lt_of_le hlevel with rfl | hlt
      · exact hlabel hbalanced (by simpa using hnone')
      · rw [update_of_ne (by omega)] at hnone'
        exact haccounts.asked hbalanced level (by omega) hnone'
    have hspent (hbalanced : Balanced ctx used) :
        nodesAtHand ctx ≤ nodesAtHand ctx₁ + (height + 1 + 1) :=
      (haccounts.spent hbalanced).trans (by omega)
    have hcovers := haccounts.covers
    have hpersisted := haccounts.persisted
    rw [insertBelow_snoc]
    cases hresult : put kind.key leafMax indexMax fresh record height entry.2 with
    | kept t =>
      rw [hresult] at hruns hcovers
      obtain ⟨hrun, hlabel, hplaced₁⟩ := hruns
      refine ⟨update fresh (height + 1) (some 0), used₁, ctx₁,
        hevolves.mono hsubR hsubO, ?_, hfresh' _, hnone' _ (by simp),
        fun k hk ↦ hspacious k (hk.mono (by omega)), hspent, hasked _ (by simp), ?_,
        fun _ _ ↦ hpersisted t hresult⟩
      rotate_left
      · rw [hput, hresult, hslot.eq]
        change nodesOf height t = _ at hcovers
        have hgained : ∀ lba, (∃ e ∈ [(entry.1, t)], lba ∈ nodesOf height e.2) ↔
            (∃ e ∈ [entry], lba ∈ nodesOf height e.2) ∨ lba ∈ used₁ \ used := by simp [hcovers]
        have hnodes : nodesOf (height + 1) (a, before ++ [(entry.1, t)] ++ after) =
            nodesOf (height + 1) (a, before ++ [entry] ++ after) ∪ used₁ \ used :=
          nodesOf_replace hgained
        simpa [Covers, graft] using hnodes
      rw [hput, hresult, bind_ok hrun]
      refine ⟨rfl, rfl, Placed.up ?_ ?_ ?_ ?_⟩
      · have hback := hplaced₁.unfocus
          (List.forall_mem_map.mpr fun e he ↦ hbeside e (Or.inl he))
          (List.forall_mem_map.mpr fun e he ↦ hbeside e (Or.inr he))
        simpa [children] using hback
      · intro u hu
        obtain rfl := List.mem_singleton.mp hu
        rw [hcontent₁, hslot.eq, diskEntries_append]
        simp [diskEntries, hlabel]
      · simpa using hrow₁
      · simpa using fun lba hlba ↦ hevolves.grow (hused lba hlba)
    | refused t =>
      rw [hresult] at hruns
      obtain ⟨hrun, hlabel, hholds, hnodes⟩ := hruns
      refine ⟨update fresh (height + 1) (some 0), used₁, ctx₁,
        hevolves.mono hsubR hsubO, ?_, hfresh' _, hnone' _ (by simp),
        fun k hk ↦ hspacious k (hk.mono (by omega)), hspent, hasked _ (by simp),
        by rw [hput, hresult]; trivial, fun u hu ↦ by rw [hput, hresult] at hu; cases hu⟩
      rw [hput, hresult, bind_error hrun]
      refine ⟨rfl, rfl, ⟨?_, fun e he ↦ ?_⟩, nodesOf_index_subset
        (hevolves.grow (hused a (by simp))) fun e he ↦ ?_⟩
      · rw [hcontent₁, hslot.eq, diskEntries_append]
        simp [diskEntries, hlabel]
      · rcases List.mem_append.mp he with he | he
        · exact hbeside e (Or.inl he)
        · rcases List.mem_cons.mp he with rfl | he
          · exact hholds
          · exact hbeside e (Or.inr he)
      · rcases List.mem_append.mp he with he | he
        · exact (hchildren.nodesOf_subset (by simp [List.mem_map_of_mem he])).trans hevolves.grow
        · rcases List.mem_cons.mp he with rfl | he
          · exact hnodes
          · exact (hchildren.nodesOf_subset (by simp [List.mem_map_of_mem he])).trans hevolves.grow
    | split l low r push =>
      rw [hresult] at hruns hcovers
      obtain ⟨hrun, hlabel, hplaced₁⟩ := hruns
      have hback := hplaced₁.unfocus
        (List.forall_mem_map.mpr fun e he ↦ hbeside e (Or.inl he))
        (List.forall_mem_map.mpr fun e he ↦ hbeside e (Or.inr he))
      obtain ⟨label', used₂, ctx₂, hevolves₂, hruns₂, hnone₂, hspacious₂, hspent₂, hcovers₂,
          hpersisted₂⟩ :=
        parentInsert_spec (R := levelsOf X Y (height + 1) (a, es))
          (O := nodesOf (height + 1) (a, es))
          { sound := hevolves.sound
            header := hevolves.grow hready.header
            reserved := hevolves.reserved
            slot := hslot
            label_left := hlabel
            placed := hback
            content := hcontent₁
            row := hrow₁
            mem_used := fun lba hlba ↦ hevolves.grow (hused lba hlba) }
          low push (fun lba hlba ↦ mem_levelsOf le_rfl (by simpa [row] using hlba))
          (label_mem_nodesOf (height + 1) (a, es))
      rw [hevolves.block_size, ← hindexMax] at hruns₂ hcovers₂ hpersisted₂
      refine ⟨update fresh (height + 1) label', used₂, ctx₂,
        (hevolves.mono hsubR hsubO).trans hevolves₂, ?_, hfresh' _,
        hnone' _ fun hlabel' hk ↦ ?_, fun k hk ↦ ?_, fun hbalanced ↦ ?_,
        hasked _ fun hbalanced hlabel' ↦ ?_, ?_, fun u hu _ ↦ ?_⟩
      · rw [hput, hresult, bind_ok hrun]
        exact hruns₂
      · exact hnone₂ hlabel' (hspacious 1 (by rwa [Nat.add_comm 1]))
      · exact hspacious₂ k (hspacious (k + 1) (by rwa [Nat.add_right_comm, Nat.add_assoc]))
      · have hbelow := haccounts.spent hbalanced
        have habove := (hspent₂ (hevolves.balanced hbalanced)).1
        omega
      · have hbelow := haccounts.spent hbalanced
        have habove := (hspent₂ (hevolves.balanced hbalanced)).2 hlabel'
        omega
      · have hbelow : nodesOf (κ := κ) (ρ := ρ) (height + 1)
            (a, before ++ [(low, l), (push, r)] ++ after) =
              nodesOf (height + 1) (a, before ++ [entry] ++ after) ∪ used₁ \ used := by
          change nodesOf height l ∪ nodesOf height r = _ at hcovers
          refine nodesOf_replace fun lba ↦ ?_
          have hsame := congrArg (lba ∈ ·) hcovers
          simpa using hsame
        have hgained : used₁ \ used ∪ used₂ \ used₁ = used₂ \ used := by
          rw [Set.union_comm]
          exact sdiff_sup_sdiff_cancel hevolves₂.grow hevolves.grow
        rw [hbelow, Set.union_assoc, hgained] at hcovers₂
        rw [hput, hresult, hslot.eq]
        simpa using hcovers₂
      · rw [hput, hresult] at hu
        exact hpersisted₂ u hu

end Obmafs3
