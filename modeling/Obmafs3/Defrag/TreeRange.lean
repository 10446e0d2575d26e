import Obmafs3.Defrag.TreePhase
import Obmafs3.Defrag.Placement

/-!
# Dedup blocks leave the range of the trees

Evictions from the range keep dedup blocks whole and leave all other blocks in use as they are, if
each dedup block that is met finds a place and its header knows all its blocks.
-/

set_option autoImplicit false

namespace Obmafs3.Defrag

open Library.Runs

variable {dedup : List DedupBlock} {refcount : ℕ → ℕ} {st st' st'' : CompactState}

/-- Each dedup block that is met finds a place, and its header knows all its blocks. -/
def DestinationClears (dedup : List DedupBlock) (start finish : ℕ) :
    (fuel pos : ℕ) → CompactState → Prop
  | 0, _, _ => True
  | fuel + 1, pos, st =>
    if finish ≤ pos then True
    else if ¬st.isDedup pos then DestinationClears dedup start finish fuel (pos + 1) st
    else
      let base := runStart st.isDedup pos
      ∀ header, (st.disk base).header = some header →
        let blocks := physBlocks st.blockSize header
        (∀ d ∈ dedup, st.addressOf d = base → blocks = d.owned) ∧
          ∃ dst, placeBelow blocks st start = some dst ∧ dst + blocks ≤ st.totalBlocks ∧
            DestinationClears dedup start finish fuel (base + blocks) (st.evict base dst blocks)

/-- A place below a block is free. -/
theorem placeBelow_spec {count finish dst : ℕ} (hdst : placeBelow count st finish = some dst)
    (htotal : dst + count ≤ st.totalBlocks) : st.FreeRun dst count := by
  induction finish with
  | zero =>
    rw [placeBelow] at hdst
    split_ifs at hdst with hcount
    rintro lba ⟨hle, hlt⟩
    omega
  | succ finish ih =>
    rw [placeBelow] at hdst
    split_ifs at hdst with hroom hall
    · rw [Option.some.injEq] at hdst
      rw [hdst] at hall
      intro lba hlba
      obtain ⟨b, hb, rfl⟩ := hlba.exists_add
      have hfree := List.all_eq_true.mp hall b (List.mem_range.mpr hb)
      have hlt : dst + b < st.totalBlocks := by omega
      simp only [Bool.not_eq_true', decide_eq_false_iff_not, not_and, not_not] at hfree
      exact ⟨hlt, hfree hlt⟩
    · exact ih hdst

/-- What evictions keep: the dedup blocks, and the blocks in use for anything else. -/
structure EvictionKeeps (dedup : List DedupBlock) (st st' : CompactState) : Prop where
  total : st'.totalBlocks = st.totalBlocks
  dedup : ∀ d ∈ dedup, ∀ b < d.owned,
    st'.disk (st'.addressOf d + b) = st.disk (st.addressOf d + b)
  others : ∀ lba, st.blockTypes lba ≠ .free → st.blockTypes lba ≠ .dedup →
    st'.disk lba = st.disk lba ∧ st'.bitmap lba = st.bitmap lba ∧
      st'.blockTypes lba = st.blockTypes lba

theorem EvictionKeeps.refl (dedup : List DedupBlock) (st : CompactState) :
    EvictionKeeps dedup st st :=
  ⟨rfl, fun _ _ _ _ ↦ rfl, fun _ _ _ ↦ ⟨rfl, rfl, rfl⟩⟩

theorem EvictionKeeps.trans (hfirst : EvictionKeeps dedup st st')
    (hsecond : EvictionKeeps dedup st' st'') : EvictionKeeps dedup st st'' where
  total := hsecond.total.trans hfirst.total
  dedup := fun d hd b hb ↦ (hsecond.dedup d hd b hb).trans (hfirst.dedup d hd b hb)
  others := by
    intro lba hfree hdedup
    obtain ⟨hdisk, hbitmap, htype⟩ := hfirst.others lba hfree hdedup
    obtain ⟨hdisk', hbitmap', htype'⟩ :=
      hsecond.others lba (htype.symm ▸ hfree) (htype.symm ▸ hdedup)
    exact ⟨hdisk'.trans hdisk, hbitmap'.trans hbitmap, htype'.trans htype⟩

variable (hst : Consistent dedup refcount st)
include hst

theorem EvictionKeeps.evict {dst : ℕ} {d : DedupBlock} (hd : d ∈ dedup)
    (hfree : st.FreeRun dst d.owned) :
    EvictionKeeps dedup st (st.evict (st.addressOf d) dst d.owned) where
  total := rfl
  dedup := (hst.evict hd hfree).2.dedup
  others := by
    intro lba hfreeType hdedupType
    have hsource (b : ℕ) (hb : b < d.owned) : st.blockTypes (st.addressOf d + b) = .dedup :=
      (hst.home d hd _ (inRun_add hb)).2
    have hsrc : ¬InRun (st.addressOf d) d.owned lba := by
      intro h
      obtain ⟨b, hb, rfl⟩ := h.exists_add
      exact hdedupType (hsource b hb)
    have hdst : ¬InRun dst d.owned lba := fun h ↦ hfreeType (hfree lba h).2
    refine ⟨copy_out hdst, ?_, ?_⟩
    · rw [bitmap_evict, if_neg hsrc, if_neg hdst]
    · rw [blockTypes_evict (hfree.apart hsource), if_neg hsrc, if_neg hdst]

/-- The evictions, if they end. -/
theorem evictDestination_spec {start finish fuel pos : ℕ}
    (hclears : DestinationClears dedup start finish fuel pos st)
    (hrun : evictDestination start finish fuel pos st = some st') :
    Consistent dedup refcount st' ∧ EvictionKeeps dedup st st' := by
  induction fuel generalizing pos st with
  | zero => cases hrun
  | succ fuel ih =>
    rw [evictDestination] at hrun
    rw [DestinationClears] at hclears
    by_cases hend : finish ≤ pos
    · rw [if_pos hend, Option.some.injEq] at hrun
      subst hrun
      exact ⟨hst, EvictionKeeps.refl dedup st⟩
    rw [if_neg hend] at hrun hclears
    by_cases hdedup : st.isDedup pos = true
    · rw [if_neg (not_not.mpr hdedup)] at hrun hclears
      obtain ⟨d, hd, haddress⟩ := hst.base (of_decide_eq_true hdedup)
      obtain ⟨header, hheader, -⟩ := hst.header d hd
      rw [haddress] at hheader
      obtain ⟨howned, dst, hplace, htotal, hrest⟩ := hclears header hheader
      have hblocks := howned d hd haddress
      simp only [hheader, hplace] at hrun
      rw [hblocks] at hplace htotal hrest hrun
      rw [← haddress] at hrest hrun
      have hfree := placeBelow_spec hplace htotal
      obtain ⟨hst', hkeeps⟩ := ih (hst.evict hd hfree).1 hrest hrun
      exact ⟨hst', (EvictionKeeps.evict hst hd hfree).trans hkeeps⟩
    · rw [if_pos hdedup] at hrun hclears
      exact ih hst hclears hrun

end Obmafs3.Defrag
