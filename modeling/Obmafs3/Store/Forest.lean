import Obmafs3.Store.Layout

/-!
# Trees side by side on disk

An insertion works inside one subtree while the rest of the tree stands to its left and right. A
subtree is `Placed` between two contexts, the nodes left and right of it on each level. `focus` and
`unfocus` move trees between subject and context, and `down` and `up` move between the index nodes
and their children.
-/

set_option autoImplicit false

namespace Obmafs3

open Library.SearchTree

variable {κ ρ : Type}

/-- The labels of one level of several trees. -/
def rowOf {height : ℕ} (ts : List (Tree ℕ κ ρ height)) (level : ℕ) : List ℕ :=
  ts.flatMap fun t ↦ row height t level

/-- Trees of one height on disk, between other nodes of their levels. -/
structure Placed (view : ℕ → Option (Node κ ρ)) (used : Set ℕ) (height : ℕ) (X Y : ℕ → List ℕ)
    (ts : List (Tree ℕ κ ρ height)) : Prop where
  holds : ∀ t ∈ ts, Holds view height t
  rows : ∀ level ≤ height, Row view level (X level ++ rowOf ts level ++ Y level)
  mem_used : ∀ level ≤ height, ∀ lba ∈ X level ++ rowOf ts level ++ Y level, lba ∈ used

variable {height : ℕ}

theorem rowOf_append (ts us : List (Tree ℕ κ ρ height)) (level : ℕ) :
    rowOf (ts ++ us) level = rowOf ts level ++ rowOf us level :=
  List.flatMap_append

theorem rowOf_cons (t : Tree ℕ κ ρ height) (ts : List (Tree ℕ κ ρ height)) (level : ℕ) :
    rowOf (t :: ts) level = row height t level ++ rowOf ts level :=
  List.flatMap_cons

theorem rowOf_self (ts : List (Tree ℕ κ ρ height)) : rowOf ts height = ts.map (label height) := by
  induction ts with
  | nil => rfl
  | cons t ts ih => rw [rowOf_cons, row_self, ih, List.map_cons, List.singleton_append]

/-- The children of index nodes, from left to right. -/
def children {height : ℕ} (ts : List (Tree ℕ κ ρ (height + 1))) : List (Tree ℕ κ ρ height) :=
  ts.flatMap fun t ↦ t.2.map Prod.snd

theorem rowOf_children {height level : ℕ} (ts : List (Tree ℕ κ ρ (height + 1)))
    (hlevel : level ≤ height) : rowOf (children ts) level = rowOf ts level := by
  simp only [rowOf, children, List.flatMap_assoc, List.flatMap_map]
  congr 1
  funext t
  exact (row_index t.1 t.2 hlevel).symm

namespace Placed

variable {view view' : ℕ → Option (Node κ ρ)} {used used' : Set ℕ} {height : ℕ} {X Y : ℕ → List ℕ}
  {ts us vs : List (Tree ℕ κ ρ height)}

/-- Take the trees in the middle for the subject and the others for context. -/
theorem focus (hplaced : Placed view used height X Y (ts ++ us ++ vs)) :
    Placed view used height (fun level ↦ X level ++ rowOf ts level)
      (fun level ↦ rowOf vs level ++ Y level) us := by
  have hrow (level : ℕ) : X level ++ rowOf ts level ++ rowOf us level ++
      (rowOf vs level ++ Y level) = X level ++ rowOf (ts ++ us ++ vs) level ++ Y level := by
    simp only [rowOf_append, List.append_assoc]
  refine ⟨fun t ht ↦ hplaced.holds t (by simp [ht]), fun level hlevel ↦ ?_,
    fun level hlevel ↦ ?_⟩
  · rw [hrow]
    exact hplaced.rows level hlevel
  · rw [hrow]
    exact hplaced.mem_used level hlevel

/-- Put the trees in the middle back between the others. -/
theorem unfocus (hplaced : Placed view used height (fun level ↦ X level ++ rowOf ts level)
      (fun level ↦ rowOf vs level ++ Y level) us)
    (hts : ∀ t ∈ ts, Holds view height t) (hvs : ∀ t ∈ vs, Holds view height t) :
    Placed view used height X Y (ts ++ us ++ vs) := by
  have hrow (level : ℕ) : X level ++ rowOf ts level ++ rowOf us level ++
      (rowOf vs level ++ Y level) = X level ++ rowOf (ts ++ us ++ vs) level ++ Y level := by
    simp only [rowOf_append, List.append_assoc]
  refine ⟨fun t ht ↦ ?_, fun level hlevel ↦ ?_, fun level hlevel ↦ ?_⟩
  · rcases List.mem_append.mp ht with ht | ht
    · rcases List.mem_append.mp ht with ht | ht
      · exact hts t ht
      · exact hplaced.holds t ht
    · exact hvs t ht
  · rw [← hrow]
    exact hplaced.rows level hlevel
  · rw [← hrow]
    exact hplaced.mem_used level hlevel

theorem congr (hplaced : Placed view used height X Y ts) (hused : used ⊆ used')
    (hsame : ∀ level ≤ height, ∀ lba ∈ X level ++ rowOf ts level ++ Y level,
      view' lba = view lba) : Placed view' used' height X Y ts := by
  refine ⟨fun t ht ↦ (hplaced.holds t ht).congr fun level hlevel lba hlba ↦ ?_,
    fun level hlevel ↦ (hplaced.rows level hlevel).congr fun lba hlba ↦ by
      rw [linksAt, linksAt, hsame level hlevel lba hlba],
    fun level hlevel lba hlba ↦ hused (hplaced.mem_used level hlevel lba hlba)⟩
  have hmem : lba ∈ rowOf ts level := List.mem_flatMap.mpr ⟨t, ht, hlba⟩
  rw [contentAt, contentAt, hsame level hlevel lba (by simp [hmem])]

/-- Only the label of a tree can be shared by a node of the same level in the context. -/
theorem not_mem_row (hplaced : Placed view used height X Y ts) {level lba : ℕ}
    (hlevel : level ≤ height) (hlba : lba ∈ X level ++ Y level) : lba ∉ rowOf ts level := by
  have hnodup := (hplaced.rows level hlevel).nodup
  rw [List.append_assoc] at hnodup
  intro hmem
  rcases List.mem_append.mp hlba with h | h
  · exact (List.nodup_append.mp hnodup).2.2 lba h lba (by simp [hmem]) rfl
  · exact (List.nodup_append.mp (List.nodup_append.mp hnodup).2.1).2.2 lba hmem lba h rfl

theorem down {ts : List (Tree ℕ κ ρ (height + 1))}
    (hplaced : Placed view used (height + 1) X Y ts) :
    Placed view used height X Y (children ts) := by
  refine ⟨fun t ht ↦ ?_, fun level hlevel ↦ ?_, fun level hlevel ↦ ?_⟩
  · obtain ⟨u, hu, ht⟩ := List.mem_flatMap.mp ht
    obtain ⟨e, he, rfl⟩ := List.mem_map.mp ht
    exact (hplaced.holds u hu).2 e he
  · rw [rowOf_children ts hlevel]
    exact hplaced.rows level (by omega)
  · rw [rowOf_children ts hlevel]
    exact hplaced.mem_used level (by omega)

/-- Trees whose children are placed and whose own nodes form a row are placed. -/
theorem up {ts : List (Tree ℕ κ ρ (height + 1))}
    (hplaced : Placed view used height X Y (children ts)) (hcontent : ∀ t ∈ ts, contentAt view t.1 =
      some (.inr (height + 1, t.2.map fun e ↦ (e.1, label height e.2))))
    (hrow : Row view (height + 1) (X (height + 1) ++ ts.map Prod.fst ++ Y (height + 1)))
    (hused : ∀ lba ∈ X (height + 1) ++ ts.map Prod.fst ++ Y (height + 1), lba ∈ used) :
    Placed view used (height + 1) X Y ts := by
  have htop : rowOf ts (height + 1) = ts.map Prod.fst := by
    rw [rowOf_self]
    rfl
  refine ⟨fun t ht ↦ ⟨hcontent t ht, fun e he ↦ hplaced.holds e.2 ?_⟩, fun level hlevel ↦ ?_,
    fun level hlevel ↦ ?_⟩
  · exact List.mem_flatMap.mpr ⟨t, ht, List.mem_map_of_mem he⟩
  · rcases Nat.eq_or_lt_of_le hlevel with rfl | hlt
    · rwa [htop]
    · rw [← rowOf_children ts (by omega)]
      exact hplaced.rows level (by omega)
  · rcases Nat.eq_or_lt_of_le hlevel with rfl | hlt
    · rwa [htop]
    · rw [← rowOf_children ts (by omega)]
      exact hplaced.mem_used level (by omega)

end Placed

end Obmafs3
