import Obmafs3.Library.SearchTreeRefused
import Obmafs3.Refcounts.Table

/-!
# A refused update

`refcountSet` writes the halves of a divided leaf before it knows that the nodes above have room.
`refcount_refused` says when an update that was refused a node has changed nothing: exactly when
the first node it asked for was refused. After any later refusal the new count can be read, or the
count of a block whose record went to the right half cannot.
-/

set_option autoImplicit false

namespace Obmafs3

open Library.Search Library.SearchTree

/-- A table whose separators bound their subtrees, with records of shared blocks only. -/
structure ValidTable (root : RefcountTree) : Prop where
  bounded : root.Bounded RefcountRecord.lba
  shared : ∀ r ∈ root.records, 1 < r.refCount

/-- Every block has the same count in two states. -/
def SameCounts (ctx ctx' : RefcountCtx) : Prop :=
  ∀ lba, ∃ refCount after after', refcountGet lba ctx = .ok refCount after ∧
    refcountGet lba ctx' = .ok refCount after'

variable {root : RefcountTree}

/-- A block whose record is gone has one reference. -/
theorem rootCount_of_lost {lba : ℕ} (hlost : ∀ p ∈ root.records, p.lba ≠ lba) :
    rootCount root lba = 1 := by
  cases root with
  | empty => rfl
  | node height t =>
    rw [rootCount, Root.lookup]
    cases hfound : lookup RefcountRecord.lba lba height t with
    | none => rfl
    | some p => exact absurd (lookup_key hfound) (hlost p (lookup_mem hfound))

/-- A block with a record in a valid table has more than one reference. -/
theorem ValidTable.lt_rootCount (hvalid : ValidTable root) {q : RefcountRecord}
    (hq : q ∈ root.records) : 1 < rootCount root q.lba := by
  rw [rootCount, Root.lookup_eq hvalid.bounded.ordered]
  cases hfind : root.records.find? (RefcountRecord.lba · = q.lba) with
  | none => simpa using List.find?_eq_none.mp hfind q hq
  | some p => exact hvalid.shared p (List.mem_of_find?_eq_some hfind)

theorem sameCounts_iff {used : Set ℕ} {ctx ctx' : RefcountCtx} {root root' : RefcountTree}
    (hstored : RefcountStored used ctx root) (hordered : root.Ordered RefcountRecord.lba)
    (hreads : Reads refcountKind ctx'.toTreeCtx root') (hnone : ctx'.rcLeaf = none) :
    SameCounts ctx ctx' ↔ ∀ lba, rootCount root lba = rootCount root' lba := by
  refine forall_congr' fun lba ↦ ?_
  obtain ⟨cache, hget, -⟩ := refcountGet_spec hstored hordered lba
  obtain ⟨cache', hget', -⟩ := refcountGet_uncached hreads hnone lba
  rw [hget, hget']
  constructor
  · rintro ⟨refCount, after, after', hbefore, hafter⟩
    exact (EStateM.Result.ok.inj hbefore).1.trans (EStateM.Result.ok.inj hafter).1.symm
  · exact fun hsame ↦ ⟨_, _, _, rfl, by rw [hsame]⟩

/-- A refused update changes no count if and only if there was no node to be had at all. -/
theorem refcount_refused {used : Set ℕ} {ctx ctx' : RefcountCtx} {root : RefcountTree}
    (hstored : RefcountStored used ctx root) (hformatted : Formatted ctx.vol)
    (hvalid : ValidTable root) {lba refCount : ℕ}
    (hrun : refcountSet lba refCount ctx = .error .noSpc ctx') :
    SameCounts ctx ctx' ↔ Exhausted ctx.toTreeCtx := by
  have hordered := hvalid.bounded.ordered
  have hcount : 1 < refCount := by
    by_contra hle
    obtain ⟨ctx₁, hset, -⟩ := refcountSet_remove hstored lba (not_lt.mp hle)
    rw [hset] at hrun
    cases hrun
  have hdepth : root.height ≤ btreeMaxDepth := by
    by_contra hdeep
    rw [refcountSet_deep hstored (not_le.mp hdeep) lba hcount] at hrun
    cases hrun
  obtain ⟨fresh, used', ctx₁, -, huncached, hends, hexhausted, -⟩ :=
    refcountSet_insert hstored hformatted hdepth lba hcount
  have hleafMax : 3 ≤ maxKeys ctx.vol.blockSize refcountKind.recordSize := by
    have := hformatted.size_ge
    have := hformatted.size_le
    simp only [maxKeys, btreeNodeHeaderSize, refcountKind]
    omega
  have hrefused := Root.put_refused hleafMax
    (Nat.le_of_succ_le hformatted.maxKeys_refcount.2) fresh ⟨lba, refCount⟩ hvalid.bounded
  generalize root.put RefcountRecord.lba _ _ fresh _ = result at hends hrefused
  obtain ⟨root', done⟩ := result
  cases done with
  | true =>
    rw [hends.1] at hrun
    cases hrun
  | false =>
    obtain rfl : ctx₁ = ctx' := by
      have h := hends.1.symm.trans hrun
      exact (EStateM.Result.error.inj h).2
    obtain ⟨habsent, hcases⟩ := hrefused rfl
    rw [sameCounts_iff hstored hordered hends.2 huncached, ← hexhausted]
    rcases hcases with ⟨hnone, hsame⟩ | ⟨hsome, hfound | ⟨q, hq, hlost⟩⟩
    · obtain rfl : root' = root := hsame
      exact iff_of_true (fun _ ↦ rfl) hnone
    · refine iff_of_false (fun hsame ↦ ?_) hsome
      have hbefore : rootCount root lba = 1 := by rw [rootCount, habsent]; rfl
      have hafter : rootCount root' lba = refCount := by rw [rootCount, hfound]; rfl
      have := hsame lba
      omega
    · refine iff_of_false (fun hsame ↦ ?_) hsome
      have hbefore := hvalid.lt_rootCount hq
      have hafter : rootCount root' q.lba = 1 := rootCount_of_lost hlost
      have := hsame q.lba
      omega

/-! ### One free block -/

/-- Records of `n` shared blocks, every second one from block 100 on. -/
def everySecond (n : ℕ) : List RefcountRecord :=
  (List.range n).map fun i ↦ ⟨100 + 2 * i, 2⟩

/-- A volume of 1024 blocks, all of them taken but those from `free` on. The root of the refcount
table is a leaf in block 20 with the given records. -/
def crampedRefcounts (records : List RefcountRecord) (free : ℕ) : RefcountCtx where
  vol :=
    { blockSize := 4096
      totalBytes := 4096 * 1024
      btreeClumpSize := 64
      dedupClumpSize := 1024
      nextFreeLba := free
      bitmap := fun bit ↦ bit < free
      disk := fun lba ↦ if lba = 20 then .refcountNode (.leaf 0 0 records) else .bytes [] }
  hdr := ⟨20, 0, 0, 4096, false⟩
  refcountLba := 13
  rcLeaf := none

theorem crampedRefcounts_stored (records : List RefcountRecord) (free : ℕ) (hlow : 21 ≤ free)
    (hhigh : free ≤ 1024) :
    RefcountStored {lba | lba < 21} (crampedRefcounts records free) (.node 0 (20, records)) where
  stored :=
    { sound :=
        { zero_mem := by simp
          used_lt := fun lba hlba ↦ by
            have hlt : lba < 21 := hlba
            change lba < 4096 * 1024 / 4096
            omega
          used_set := fun lba hlba ↦ by
            have hlt : lba < 21 := hlba
            change decide (lba < free) = true
            exact decide_eq_true (by omega)
          node_size := (by decide : 4096 / 4096 ≤ 1)
          chain := ⟨[], rfl, List.nodup_nil, by simp⟩ }
      header := by simp [crampedRefcounts]
      reserved := fun lba hlba ↦ by
        rcases hlba with rfl | rfl <;> rfl
      root_lba := rfl
      on_disk := ⟨placed_leaf rfl (by simp), trivial⟩ }
  cached := caches_none _

theorem crampedRefcounts_formatted (records : List RefcountRecord) (free : ℕ) :
    Formatted (crampedRefcounts records free).vol :=
  ⟨(by decide : 512 ≤ 4096), (by decide : 4096 ≤ 65536)⟩

theorem crampedRefcounts_valid (n : ℕ) : ValidTable (.node 0 (20, everySecond n)) where
  bounded := by
    change ((everySecond n).map RefcountRecord.lba).Pairwise (· < ·)
    rw [everySecond, List.map_map]
    exact List.pairwise_map.mpr (List.pairwise_lt_range.imp fun h ↦ by simpa using h)
  shared := by
    intro r hr
    obtain ⟨i, -, rfl⟩ := List.mem_map.mp hr
    exact Nat.one_lt_two

/-- What a get answers after a call that was refused a node. -/
def countAfterRefusal (call : Op RefcountCtx Unit) (lba : ℕ) (ctx : RefcountCtx) : Option ℕ :=
  match call ctx with
  | .error .noSpc ctx' =>
    match refcountGet lba ctx' with
    | .ok refCount _ => some refCount
    | .error _ _ => none
  | _ => none

theorem countAfterRefusal_eq_some {call : Op RefcountCtx Unit} {lba refCount : ℕ} {ctx : RefcountCtx}
    (hcount : countAfterRefusal call lba ctx = some refCount) :
    ∃ ctx' after, call ctx = .error .noSpc ctx' ∧ refcountGet lba ctx' = .ok refCount after := by
  unfold countAfterRefusal at hcount
  cases hcall : call ctx with
  | ok a ctx' => simp [hcall] at hcount
  | error e ctx' =>
    cases e <;> simp only [hcall, reduceCtorEq] at hcount
    cases hget : refcountGet lba ctx' with
    | ok n after =>
      simp only [hget, Option.some.injEq] at hcount
      exact ⟨ctx', after, rfl, hcount ▸ hget⟩
    | error e after => simp [hget] at hcount

/-- With no block free the update of a full leaf changes nothing. -/
theorem refcount_refused_full : ∃ ctx',
    refcountSet 901 2 (crampedRefcounts (everySecond 335) 1024) = .error .noSpc ctx' ∧
      SameCounts (crampedRefcounts (everySecond 335) 1024) ctx' := by
  have hcount : countAfterRefusal (refcountSet 901 2) 700
      (crampedRefcounts (everySecond 335) 1024) = some 2 := by decide +kernel
  obtain ⟨ctx', -, hrun, -⟩ := countAfterRefusal_eq_some hcount
  have hexhausted : Exhausted (crampedRefcounts (everySecond 335) 1024).toTreeCtx :=
    ⟨fun h ↦ h.1 rfl, fun lba hlba ↦ decide_eq_true hlba⟩
  exact ⟨ctx', hrun, (refcount_refused
    (crampedRefcounts_stored _ _ (by decide) (by decide)) (crampedRefcounts_formatted _ _)
    (crampedRefcounts_valid _) hrun).mpr hexhausted⟩

/-- With one block free the leaf divides, its new right half takes the block, and the root above
the two is refused. The blocks of the right half read as unshared. -/
theorem refcount_refused_lost :
    RefcountStored {lba | lba < 21} (crampedRefcounts (everySecond 335) 1023)
        (.node 0 (20, everySecond 335)) ∧
      Formatted (crampedRefcounts (everySecond 335) 1023).vol ∧
      ValidTable (.node 0 (20, everySecond 335)) ∧
      ∃ ctx', refcountSet 901 2 (crampedRefcounts (everySecond 335) 1023) = .error .noSpc ctx' ∧
        ¬SameCounts (crampedRefcounts (everySecond 335) 1023) ctx' := by
  have hstored := crampedRefcounts_stored (everySecond 335) 1023 (by decide) (by decide)
  have hcount : countAfterRefusal (refcountSet 901 2) 700
      (crampedRefcounts (everySecond 335) 1023) = some 1 := by decide +kernel
  obtain ⟨ctx', after, hrun, hget⟩ := countAfterRefusal_eq_some hcount
  refine ⟨hstored, crampedRefcounts_formatted _ _, crampedRefcounts_valid _, ctx', hrun,
    fun hsame ↦ ?_⟩
  have hmem : (⟨700, 2⟩ : RefcountRecord) ∈ everySecond 335 := List.mem_map.mpr ⟨300, by simp, rfl⟩
  have hbefore := (crampedRefcounts_valid 335).lt_rootCount hmem
  dsimp only at hbefore
  obtain ⟨cache, hget', -⟩ := refcountGet_spec hstored (crampedRefcounts_valid 335).bounded.ordered 700
  obtain ⟨refCount, before, after', hsame, hsame'⟩ := hsame 700
  rw [hget'] at hsame
  rw [hget] at hsame'
  obtain rfl := (EStateM.Result.ok.inj hsame).1
  have := (EStateM.Result.ok.inj hsame').1
  omega

end Obmafs3
