import Obmafs3.Dedup.NodeCache

/-!
# The flush of the node cache

The dirty list is sorted and its slots are written in runs of consecutive LBAs. A slot may be in the
list twice, clean or given up; every dirty slot is in it. A run that cannot be written at once is
written block by block, and when one of these fails as well the list is rebuilt from the slots.
`runCache_store` puts the flush together with the other calls.
-/

set_option autoImplicit false

namespace Obmafs3

open Library.SlotLists
open Function (update update_of_ne update_self)

variable {β : Type}

namespace NodeCache

variable {nc : NodeCache β} {block store : ℕ → β} {used free ds lbas : List ℕ} {i lba : ℕ}

/-! ### The list and its runs -/

theorem rdropWhile_append_rtakeWhile (p : ℕ → Bool) (l : List ℕ) :
    l.rdropWhile p ++ l.rtakeWhile p = l := by
  rw [List.rdropWhile, List.rtakeWhile, ← List.reverse_append, List.takeWhile_append_dropWhile,
    List.reverse_reverse]

theorem sortIn_perm (nc : NodeCache β) (sorted : List ℕ) (key : ℕ) :
    (nc.sortIn sorted key).Perm (key :: sorted) := by
  refine List.perm_middle.trans (List.Perm.cons key ?_)
  rw [rdropWhile_append_rtakeWhile]

theorem sortDirty_perm (nc : NodeCache β) : nc.sortDirty.Perm nc.dirtyList := by
  have hsort (ds sorted : List ℕ) : (ds.foldl nc.sortIn sorted).Perm (sorted ++ ds) := by
    induction ds generalizing sorted with
    | nil => rw [List.append_nil]; rfl
    | cons key ds ih =>
      rw [List.foldl_cons]
      refine (ih _).trans (((nc.sortIn_perm sorted key).append_right ds).trans ?_)
      exact List.perm_middle.symm
  exact hsort nc.dirtyList []

/-- A run has the pending slots of consecutive LBAs, and no pending slot is lost. -/
theorem gather_spec (nc : NodeCache β) (room expectLba : ℕ) (ds : List ℕ) :
    (∀ ci ∈ (nc.gather room expectLba ds).1, nc.pending ci = true) ∧
      (nc.gather room expectLba ds).1.map nc.lba =
        List.range' expectLba (nc.gather room expectLba ds).1.length ∧
      (∀ i ∈ ds, nc.pending i = true →
        i ∈ (nc.gather room expectLba ds).1 ∨ i ∈ (nc.gather room expectLba ds).2) ∧
      (nc.gather room expectLba ds).1.length + (nc.gather room expectLba ds).2.length ≤
        ds.length := by
  induction ds generalizing room expectLba with
  | nil => cases room <;> exact ⟨nofun, rfl, nofun, le_rfl⟩
  | cons ci ds ih =>
    cases room with
    | zero => exact ⟨nofun, rfl, fun i hi _ ↦ Or.inr hi, (Nat.zero_add _).le⟩
    | succ room =>
      rw [gather]
      split_ifs with hpending hlba
      · obtain ⟨hall, hmap, hkept, hlength⟩ := ih room (expectLba + 1)
        refine ⟨fun j hj ↦ ?_, ?_, fun j hj hp ↦ ?_, ?_⟩
        · rcases List.mem_cons.mp hj with rfl | hj
          · exact hpending
          · exact hall j hj
        · rw [List.map_cons, hlba, hmap, List.length_cons, List.range'_succ]
        · rcases List.mem_cons.mp hj with rfl | hj
          · exact Or.inl List.mem_cons_self
          · exact (hkept j hj hp).imp_left (List.mem_cons_of_mem ci)
        · simp only [List.length_cons]
          omega
      · exact ⟨nofun, rfl, fun i hi _ ↦ Or.inr hi, (Nat.zero_add _).le⟩
      · obtain ⟨hall, hmap, hkept, hlength⟩ := ih (room + 1) expectLba
        refine ⟨hall, hmap, fun j hj hp ↦ ?_, hlength.trans (Nat.le_succ _)⟩
        rcases List.mem_cons.mp hj with rfl | hj
        · exact absurd hp hpending
        · exact hkept j hj hp

variable (ds) in
/-- The run that begins with a slot has it. -/
theorem gather_first {ci room : ℕ} (hpending : nc.pending ci = true) (hroom : 0 < room) :
    (nc.gather room (nc.lba ci) (ci :: ds)).1 ≠ [] := by
  cases room with
  | zero => cases hroom
  | succ room =>
    rw [gather, if_pos hpending, if_pos rfl]
    exact List.cons_ne_nil _ _

/-! ### Slots that become clean -/

/-- Only the dirty flags are others. -/
def withDirty (nc : NodeCache β) (dirty : ℕ → Bool) : NodeCache β := { nc with dirty := dirty }

theorem Coherent.withList (h : nc.Coherent block store used free) (dirtyList : List ℕ) :
    Coherent { nc with dirtyList := dirtyList } block store used free :=
  { h with }

theorem Coherent.markAll (h : nc.Coherent block store used free)
    (hlbas : ∀ lba ∈ lbas, block lba = store lba ∧ ∃ i ∈ used, nc.lba i = lba) :
    ∃ dirty, lbas.foldl NodeCache.markClean nc = nc.withDirty dirty ∧
      (nc.withDirty dirty).Coherent block store used free ∧
      ∀ i ∈ used, dirty i = true → nc.dirty i = true ∧ nc.lba i ∉ lbas := by
  induction lbas generalizing nc with
  | nil => exact ⟨nc.dirty, rfl, h, fun i _ hdirty ↦ ⟨hdirty, List.not_mem_nil⟩⟩
  | cons lba lbas ih =>
    obtain ⟨hstored, i, hi, rfl⟩ := hlbas lba List.mem_cons_self
    obtain ⟨hmark, hcoherent⟩ := h.markClean hi hstored
    obtain ⟨dirty, hfold, hafter, hleft⟩ := ih hcoherent fun lba hlba ↦
      hlbas lba (List.mem_cons_of_mem _ hlba)
    refine ⟨dirty, by rw [List.foldl_cons, hmark, hfold]; rfl, hafter, fun j hj hdirty ↦ ?_⟩
    obtain ⟨hold, hout⟩ := hleft j hj hdirty
    change update nc.dirty i false j = true at hold
    have hne : j ≠ i := by
      rintro rfl
      rw [update_self] at hold
      cases hold
    rw [update_of_ne hne] at hold
    refine ⟨hold, fun hmem ↦ ?_⟩
    rcases List.mem_cons.mp hmem with heq | hmem
    · exact hne (h.distinct j hj i hi heq)
    · exact hout hmem

theorem put_stored {n j : ℕ} : BlockDisk.put block lba ((List.range' lba n).map store) j =
      if lba ≤ j ∧ j < lba + n then store j else block j := by
  split_ifs with hin
  · rw [BlockDisk.put, if_pos hin.1, List.getElem?_map, List.getElem?_range' (by omega),
      Option.map_some, Option.getD_some]
    congr 1
    omega
  · exact put_apart (by rwa [List.length_map, List.length_range'])

end NodeCache

namespace CacheState

open NodeCache

variable {st : CacheState β} {store : ℕ → β} {used free ds : List ℕ} {lba n fuel iovCap : ℕ}
variable {faults : ℕ → Option (List β)}

variable {block : ℕ → β} {nc : NodeCache β}

/-- The blocks of dirty slots may be torn. -/
theorem coherent_torn (torn : List β) (h : nc.Coherent block store used free)
    (hlength : torn.length ≤ n)
    (hdirty : ∀ k ∈ List.range' lba n, ∃ i ∈ used, nc.dirty i = true ∧ nc.lba i = k) :
    nc.Coherent (BlockDisk.put block lba torn) store used free := by
  refine h.onVolume fun k ↦ ?_
  by_cases hin : lba ≤ k ∧ k < lba + torn.length
  · exact Or.inr (Or.inr (hdirty k (List.mem_range'_1.mpr (by omega))))
  · exact Or.inl (put_apart hin)

variable (faults) in
theorem writeEach_spec (anyFailed : Bool) (st : CacheState β)
    (h : st.cache.Coherent st.disk.block store used free)
    (hdirty : ∀ k ∈ List.range' lba n, ∃ i ∈ used, st.cache.dirty i = true ∧ st.cache.lba i = k) :
    ∃ dirty, (writeEach faults anyFailed lba ((List.range' lba n).map store) st).2.cache =
        st.cache.withDirty dirty ∧
      (st.cache.withDirty dirty).Coherent
        (writeEach faults anyFailed lba ((List.range' lba n).map store) st).2.disk.block store used
        free ∧
      (anyFailed = true →
        (writeEach faults anyFailed lba ((List.range' lba n).map store) st).1 = true) ∧
      ∀ i ∈ used, dirty i = true → st.cache.dirty i = true ∧
        ((writeEach faults anyFailed lba ((List.range' lba n).map store) st).1 = false →
          st.cache.lba i ∉ List.range' lba n) := by
  induction n generalizing st lba anyFailed with
  | zero =>
    exact ⟨st.cache.dirty, rfl, h, id, fun i _ hi ↦ ⟨hi, fun _ ↦ List.not_mem_nil⟩⟩
  | succ n ih =>
    obtain ⟨i, hi, hidirty, rfl⟩ := hdirty lba (List.mem_range'_1.mpr (by omega))
    have hrest (k : ℕ) (hk : k ∈ List.range' (st.cache.lba i + 1) n) :
        k ∈ List.range' (st.cache.lba i) (n + 1) ∧ k ≠ st.cache.lba i := by
      rw [List.mem_range'_1] at hk ⊢
      omega
    rw [List.range'_succ, List.map_cons, writeEach]
    cases hfault : faults st.disk.writes with
    | none =>
      have hblock : BlockDisk.put st.disk.block (st.cache.lba i) [store (st.cache.lba i)]
          (st.cache.lba i) = store (st.cache.lba i) := by
        rw [put_one, update_self]
      have hvolume : st.cache.Coherent
          (BlockDisk.put st.disk.block (st.cache.lba i) [store (st.cache.lba i)]) store used free := by
        refine h.onVolume fun k ↦ ?_
        rcases eq_or_ne k (st.cache.lba i) with rfl | hne
        · exact Or.inr (Or.inl hblock)
        · rw [put_one, update_of_ne hne]
          exact Or.inl rfl
      obtain ⟨hmark, hclean⟩ := hvolume.markClean hi hblock
      rw [pwrite_done _ hfault, hmark]
      obtain ⟨dirty, hcache, hcoherent, hfailed, hleft⟩ :=
        @ih _ anyFailed ⟨st.cache.withDirty (update st.cache.dirty i false),
          ⟨BlockDisk.put st.disk.block (st.cache.lba i) [store (st.cache.lba i)],
            st.disk.writes + 1⟩⟩ hclean fun k hk ↦ by
        obtain ⟨j, hj, hjdirty, hjlba⟩ := hdirty k (hrest k hk).1
        refine ⟨j, hj, ?_, hjlba⟩
        have hne : j ≠ i := by
          rintro rfl
          exact (hrest k hk).2 hjlba.symm
        rw [← hjdirty]
        exact update_of_ne hne ..
      refine ⟨dirty, hcache, hcoherent, hfailed, fun j hj hjdirty ↦ ?_⟩
      obtain ⟨hold, hout⟩ := hleft j hj hjdirty
      change update st.cache.dirty i false j = true at hold
      have hne : j ≠ i := by
        rintro rfl
        rw [update_self] at hold
        cases hold
      rw [update_of_ne hne] at hold
      refine ⟨hold, fun hok hmem ↦ ?_⟩
      rcases List.mem_cons.mp hmem with heq | hmem
      · exact hne (h.distinct j hj i hi heq)
      · exact hout hok hmem
    | some torn =>
      rw [pwrite_torn _ hfault]
      have htorn := coherent_torn (torn.take [store (st.cache.lba i)].length) h
        (by rw [List.length_take, List.length_singleton]; omega) hdirty
      obtain ⟨dirty, hcache, hcoherent, hfailed, hleft⟩ :=
        @ih _ true ⟨st.cache, ⟨BlockDisk.put st.disk.block (st.cache.lba i)
          (torn.take [store (st.cache.lba i)].length), st.disk.writes + 1⟩⟩ htorn
          fun k hk ↦ hdirty k (hrest k hk).1
      refine ⟨dirty, hcache, hcoherent, fun _ ↦ hfailed rfl, fun j hj hjdirty ↦ ?_⟩
      obtain ⟨hold, -⟩ := hleft j hj hjdirty
      exact ⟨hold, fun hok ↦ absurd (hok.symm.trans (hfailed rfl)) nofun⟩

theorem flatMap_buf {run : List ℕ} (h : nc.Coherent block store used free)
    (hrun : ∀ i ∈ run, i ∈ used) :
    run.flatMap (fun ci ↦ (nc.buf ci).toList) = (run.map nc.lba).map store := by
  induction run with
  | nil => rfl
  | cons i run ih =>
    rw [List.flatMap_cons, h.cached i (hrun i List.mem_cons_self),
      ih fun j hj ↦ hrun j (List.mem_cons_of_mem i hj)]
    rfl

section

variable (h : st.cache.Coherent st.disk.block store used free)
include h

/-- When the list is empty, nothing is dirty. -/
theorem Holds.flushed (hlisted : st.cache.Listed used []) :
    Holds ⟨{ st.cache with dirtyList := [] }, st.disk⟩ store used free ∧
      ∀ i ∈ used, st.cache.dirty i = false :=
  ⟨⟨h.withList [], hlisted⟩, fun i hi ↦
    Bool.eq_false_iff.mpr fun hdirty ↦ List.not_mem_nil (hlisted i hi hdirty)⟩

theorem Holds.rebuild : Holds ⟨CacheState.rebuild st.cache, st.disk⟩ store used free := by
  refine ⟨h.withList _, fun i hi hdirty ↦ ?_⟩
  exact List.mem_filter.mpr ⟨List.mem_range.mpr (h.inside i hi), h.pending_iff.mpr ⟨hi, hdirty⟩⟩

theorem flushLoop_spec (hlisted : st.cache.Listed used ds) (hfuel : ds.length ≤ fuel)
    (hcap : 0 < iovCap) :
    (flushLoop faults iovCap fuel ds st).2.Holds store used free ∧
      ((flushLoop faults iovCap fuel ds st).1 = .ok →
        ∀ i ∈ used, (flushLoop faults iovCap fuel ds st).2.cache.dirty i = false) := by
  induction fuel generalizing ds st with
  | zero =>
    obtain rfl := List.length_eq_zero_iff.mp (Nat.le_zero.mp hfuel)
    exact ⟨(Holds.flushed h hlisted).1, fun _ ↦ (Holds.flushed h hlisted).2⟩
  | succ fuel ih =>
    cases ds with
    | nil => exact ⟨(Holds.flushed h hlisted).1, fun _ ↦ (Holds.flushed h hlisted).2⟩
    | cons si ds =>
      rw [flushLoop]
      by_cases hpending : st.cache.pending si = true
      · rw [if_pos hpending]
        dsimp only
        obtain ⟨hall, hmap, hkept, hlength⟩ :=
          gather_spec st.cache iovCap (st.cache.lba si) (si :: ds)
        have hfirst := List.length_pos_of_ne_nil (gather_first ds hpending hcap)
        generalize (st.cache.gather iovCap (st.cache.lba si) (si :: ds)).1 = run at *
        generalize (st.cache.gather iovCap (st.cache.lba si) (si :: ds)).2 = rest at *
        generalize st.cache.lba si = start at *
        have hrest : rest.length ≤ fuel := by
          rw [List.length_cons] at hlength hfuel
          omega
        have hdirty : ∀ k ∈ List.range' start run.length,
            ∃ i ∈ used, st.cache.dirty i = true ∧ st.cache.lba i = k := fun k hk ↦ by
          rw [← hmap] at hk
          obtain ⟨i, hi, rfl⟩ := List.mem_map.mp hk
          exact ⟨i, (h.pending_iff.mp (hall i hi)).1, (h.pending_iff.mp (hall i hi)).2, rfl⟩
        -- What is dirty after the run was in it or is left in the list.
        have hleft {dirty : ℕ → Bool} (hdirty : ∀ i ∈ used, dirty i = true →
            st.cache.dirty i = true ∧ st.cache.lba i ∉ List.range' start run.length) :
            (st.cache.withDirty dirty).Listed used rest := fun i hi hd ↦ by
          obtain ⟨hold, hout⟩ := hdirty i hi hd
          refine (hkept i (hlisted i hi hold) (h.pending_iff.mpr ⟨hi, hold⟩)).resolve_left fun hrun ↦ ?_
          rw [← hmap] at hout
          exact hout (List.mem_map_of_mem hrun)
        rw [flatMap_buf h fun i hi ↦ (h.pending_iff.mp (hall i hi)).1, hmap]
        cases hfault : faults st.disk.writes with
        | none =>
          rw [pwrite_done _ hfault]
          have hvolume : st.cache.Coherent (BlockDisk.put st.disk.block start
              ((List.range' start run.length).map store)) store used free := by
            refine h.onVolume fun k ↦ ?_
            rw [put_stored]
            split_ifs
            · exact Or.inr (Or.inl rfl)
            · exact Or.inl rfl
          obtain ⟨dirty, hfold, hcoherent, hclean⟩ := hvolume.markAll fun k hk ↦ by
            obtain ⟨i, hi, -, hlba⟩ := hdirty k hk
            exact ⟨by rw [put_stored, if_pos (List.mem_range'_1.mp hk)], i, hi, hlba⟩
          rw [List.range'_eq_map_range, List.foldl_map] at hfold
          dsimp only
          rw [hfold]
          exact @ih ⟨st.cache.withDirty dirty, _⟩ _ hcoherent (hleft hclean) hrest
        | some torn =>
          have htorn := coherent_torn
            (torn.take ((List.range' start run.length).map store).length) h
            (by rw [List.length_take, List.length_map, List.length_range']; omega) hdirty
          obtain ⟨disk, hblock, hwrite⟩ : ∃ disk : BlockDisk β, disk.block =
              BlockDisk.put st.disk.block start
                (torn.take ((List.range' start run.length).map store).length) ∧
              st.disk.pwrite faults start ((List.range' start run.length).map store) =
                (false, disk) :=
            ⟨_, rfl, pwrite_torn _ hfault⟩
          rw [← hblock] at htorn
          rw [hwrite]
          dsimp only
          obtain ⟨dirty, hcache, hcoherent, -, hclean⟩ := writeEach_spec faults false
            ⟨st.cache, disk⟩ htorn hdirty
          rcases hresult : writeEach faults false start ((List.range' start run.length).map store)
            ⟨st.cache, disk⟩ with ⟨failed, st'⟩
          rw [hresult] at hcache hcoherent hclean
          dsimp only at hcache hcoherent hclean
          have hcoherent' : st'.cache.Coherent st'.disk.block store used free := hcache ▸ hcoherent
          cases failed with
          | true => exact ⟨Holds.rebuild hcoherent', nofun⟩
          | false =>
            refine ih hcoherent' ?_ hrest
            rw [hcache]
            exact hleft fun i hi hd ↦ ⟨(hclean i hi hd).1, (hclean i hi hd).2 rfl⟩
      · rw [if_neg hpending]
        refine ih h (fun i hi hdirty ↦ ?_) (Nat.le_of_succ_le_succ hfuel)
        refine (List.mem_cons.mp (hlisted i hi hdirty)).resolve_left ?_
        rintro rfl
        exact hpending (h.pending_iff.mpr ⟨hi, hdirty⟩)

end

variable (faults) in
theorem Holds.flush (h : st.Holds store used free) : (st.flush faults).2.Holds store used free ∧
      ((st.flush faults).1 = .ok → ∀ i ∈ used, (st.flush faults).2.cache.dirty i = false) := by
  obtain ⟨hcoherent, hlisted⟩ := h
  rw [CacheState.flush]
  split_ifs with hempty
  · rw [hempty] at hlisted
    exact ⟨⟨hcoherent, hempty ▸ hlisted⟩, fun _ ↦ (Holds.flushed hcoherent hlisted).2⟩
  · have hperm := sortDirty_perm st.cache
    refine flushLoop_spec hcoherent (fun i hi hdirty ↦ hperm.mem_iff.mpr (hlisted i hi hdirty))
      hperm.length_eq.le ?_
    have hpos := List.length_pos_of_ne_nil hempty
    unfold iovMax
    omega

/-- A cache without a slot in use over a volume. -/
def fresh (capacity : ℕ) (block : ℕ → β) : CacheState β := ⟨dedupCacheCreate capacity, ⟨block, 0⟩⟩

theorem fresh_stands {capacity : ℕ} (hcapacity : 0 < capacity) (block : ℕ → β) :
    (fresh capacity block).Stands block := by
  obtain ⟨n, rfl⟩ := Nat.exists_eq_add_of_le' hcapacity
  have hchain := Chain.fresh 0 n
  rw [Nat.zero_add] at hchain
  refine ⟨[], List.range' 0 (n + 1), ⟨⟨Links.holds_empty, fun b ↦ ⟨[], rfl, List.nodup_nil, ?_⟩, hchain,
    List.nodup_range'⟩, ?_, nofun, fun i hi ↦ ?_, nofun, nofun, fun i _ ↦ rfl, nofun,
    fun lba _ ↦ rfl⟩, nofun⟩
  · exact fun i ↦ iff_of_false List.not_mem_nil fun h ↦ List.not_mem_nil h.1
  · rw [List.length_nil, Nat.zero_add, List.length_range']
    rfl
  · have hlt := (List.mem_range'_1.mp hi).2
    rwa [Nat.zero_add] at hlt

/-- A flush that succeeds leaves nothing to write; one that fails leaves what is not written dirty
and in the list. -/
theorem Stands.flush (h : st.Stands store) : (st.flush faults).2.Stands store ∧
      ((st.flush faults).1 = .ok → ∀ lba, (st.flush faults).2.disk.block lba = store lba) ∧
      ∀ lba, (st.flush faults).2.disk.block lba ≠ store lba →
        ∃ i ∈ (st.flush faults).2.cache.dirtyList, (st.flush faults).2.cache.lba i = lba ∧
          (st.flush faults).2.cache.buf i = some (store lba) ∧
          (st.flush faults).2.cache.dirty i = true := by
  obtain ⟨used, free, h⟩ := h
  obtain ⟨hholds, hclean⟩ := h.flush faults
  generalize (st.flush faults).2 = st' at hholds hclean ⊢
  have hunwritten (lba : ℕ) (hne : st'.disk.block lba ≠ store lba) :
      ∃ i ∈ used, st'.cache.lba i = lba ∧ st'.cache.dirty i = true := by
    by_contra hnone
    push Not at hnone
    refine hne ?_
    by_cases hslot : ∃ i ∈ used, st'.cache.lba i = lba
    · obtain ⟨i, hi, rfl⟩ := hslot
      exact hholds.1.clean i hi (Bool.eq_false_iff.mpr (hnone i hi rfl))
    · exact hholds.1.absent lba fun i hi hlba ↦ hslot ⟨i, hi, hlba⟩
  refine ⟨⟨used, free, hholds⟩, fun hok lba ↦ ?_, fun lba hne ↦ ?_⟩
  · by_contra hne
    obtain ⟨i, hi, -, hdirty⟩ := hunwritten lba hne
    rw [hclean hok i hi] at hdirty
    cases hdirty
  · obtain ⟨i, hi, rfl, hdirty⟩ := hunwritten lba hne
    exact ⟨i, hholds.2 i hi hdirty, rfl, hholds.1.cached i hi, hdirty⟩

end CacheState

/-! ### Runs -/

/-- The calls of the cache. -/
inductive CacheCall (β : Type)
  | read (lba : ℕ) (readable : Bool)
  | insert (lba : ℕ) (data : β)
  | write (lba : ℕ) (data : β)
  | flush

namespace CacheCall

variable (faults : ℕ → Option (List β))

def run : CacheCall β → CacheState β → CacheState β
  | read lba readable, st => (st.read faults lba readable).2
  | insert lba data, st => ⟨st.cache.insert lba data, st.disk⟩
  | write lba data, st => (st.write faults lba data).2
  | flush, st => (st.flush faults).2

/-- The bytes that were written last, where only a write that succeeds counts. -/
def stored : CacheCall β → CacheState β → (ℕ → β) → ℕ → β
  | write lba data, st, store =>
    if (st.write faults lba data).1 = .ok then Function.update store lba data else store
  | _, _, store => store

/-- Who puts a block in that has no slot has read it from the volume. -/
def Honest : CacheCall β → CacheState β → Prop
  | insert lba data, st => st.cache.findSlot lba = none → data = st.disk.block lba
  | _, _ => True

end CacheCall

/-- A run of calls: the cache with its volume, and the bytes that were written last. -/
def runCache (faults : ℕ → Option (List β)) :
    List (CacheCall β) → CacheState β → (ℕ → β) → CacheState β × (ℕ → β)
  | [], st, store => (st, store)
  | call :: calls, st, store =>
    runCache faults calls (call.run faults st) (call.stored faults st store)

def HonestRun (faults : ℕ → Option (List β)) : List (CacheCall β) → CacheState β → Prop
  | [], _ => True
  | call :: calls, st => call.Honest st ∧ HonestRun faults calls (call.run faults st)

variable {faults : ℕ → Option (List β)} {st st' : CacheState β} {store store' : ℕ → β}

theorem CacheState.Stands.call (h : st.Stands store) {call : CacheCall β} (hhonest : call.Honest st) :
    (call.run faults st).Stands (call.stored faults st store) := by
  cases call with
  | read lba readable => exact (h.read readable).1
  | insert lba data => exact h.insert hhonest
  | write lba data =>
    rw [CacheCall.stored]
    split_ifs with hok
    · exact (h.write data).1 hok
    · exact (h.write data).2 hok
  | flush => exact h.flush.1

theorem CacheState.Stands.run (h : st.Stands store) {calls : List (CacheCall β)}
    (hhonest : HonestRun faults calls st)
    (hrun : runCache faults calls st store = (st', store')) : st'.Stands store' := by
  induction calls generalizing st store with
  | nil =>
    obtain ⟨rfl, rfl⟩ := Prod.mk.inj hrun
    exact h
  | cons call calls ih => exact ih (h.call hhonest.1) hhonest.2 hrun

/-- After every run of calls, over every volume and whichever writes fail: a read gives the bytes
that were written last, a flush that succeeds leaves them on the volume, and after one that fails
those that are not there are in a dirty slot of the dirty list. -/
theorem runCache_store {capacity : ℕ} (hcapacity : 0 < capacity) (block : ℕ → β)
    {calls : List (CacheCall β)}
    (hhonest : HonestRun faults calls (CacheState.fresh capacity block))
    (hrun : runCache faults calls (CacheState.fresh capacity block) block = (st, store)) :
    (∀ lba, (st.read faults lba true).1 = some (store lba)) ∧
      (∀ lba readable data, (st.read faults lba readable).1 = some data → data = store lba) ∧
      ((st.flush faults).1 = .ok → ∀ lba, (st.flush faults).2.disk.block lba = store lba) ∧
      ∀ lba, (st.flush faults).2.disk.block lba ≠ store lba →
        ∃ i ∈ (st.flush faults).2.cache.dirtyList, (st.flush faults).2.cache.lba i = lba ∧
          (st.flush faults).2.cache.buf i = some (store lba) ∧
          (st.flush faults).2.cache.dirty i = true := by
  have hstands := (CacheState.fresh_stands hcapacity block).run hhonest hrun
  exact ⟨fun lba ↦ (hstands.read true).2.2 rfl, fun lba readable ↦ (hstands.read readable).2.1,
    hstands.flush.2.1, hstands.flush.2.2⟩

/-- One slot for two blocks: the first is written when the second comes, and put in again. -/
theorem runCache_store_two : ((runCache (fun _ ↦ none) [.write 5 7, .write 6 8, .insert 5 7]
      (CacheState.fresh 1 fun _ ↦ 0) fun _ ↦ 0).1.read (fun _ ↦ none) 5 true).1 = some 7 := by
  have hhonest : HonestRun (fun _ ↦ none) [.write 5 7, .write 6 8, .insert 5 7]
      (CacheState.fresh 1 fun _ ↦ 0) := ⟨trivial, trivial, fun _ ↦ by decide, trivial⟩
  exact (runCache_store (by decide) _ hhonest rfl).1 5

/-- A block that has a slot is not put in: a read does not give the bytes that were inserted
last. -/
theorem runCache_insert_cached : ((runCache (fun _ ↦ none) [.write 5 7, .insert 5 8]
      (CacheState.fresh 2048 fun _ ↦ 0) fun _ ↦ 0).1.read (fun _ ↦ none) 5 true).1 = some 7 := by
  decide +kernel

end Obmafs3
