import Mathlib.Data.List.Nodup
import Mathlib.Data.List.Perm.Basic
import Mathlib.Order.Nat

/-!
# Tables with open addressing

A table of slots in which a record is looked for from the home slot of its key onward, one slot
after the other and around the end, until a slot with the key or an empty slot turns up. The home
of a key depends on the capacity. Records are never removed. `Settled` is the invariant: every slot
between the home of a record and its place holds a record with another key. Under it
`find_eq_some_iff` says that a search finds exactly the records of the table, and `put_spec` and
`putAll_spec` what insertions do to them.
-/

set_option autoImplicit false

namespace Obmafs3.Library.Probing

variable {κ ρ : Type} [DecidableEq κ]

structure Table (ρ : Type) where
  capacity : ℕ
  slot : ℕ → Option ρ

namespace Table

/-- The first slot from the `j`-th one after `start` that is empty or whose record is wanted. -/
def seek (t : Table ρ) (wanted : ρ → Bool) (start : ℕ) : (fuel j : ℕ) → Option ℕ
  | 0, _ => none
  | fuel + 1, j =>
    match t.slot ((start + j) % t.capacity) with
    | none => some ((start + j) % t.capacity)
    | some r =>
      if wanted r then some ((start + j) % t.capacity) else seek t wanted start fuel (j + 1)

/-- The records, in the order of their slots. -/
def entries (t : Table ρ) : List ρ := (List.range t.capacity).filterMap t.slot

def empty (capacity : ℕ) : Table ρ := ⟨capacity, fun _ ↦ none⟩

def store (t : Table ρ) (s : ℕ) (r : ρ) : Table ρ :=
  { t with slot := Function.update t.slot s (some r) }

/-- Put a record in the first empty slot. -/
def place (t : Table ρ) (start : ℕ) (r : ρ) : Table ρ :=
  match t.seek (fun _ ↦ false) start t.capacity 0 with
  | none => t
  | some s => t.store s r

section Search

variable (key : ρ → κ) (home : ℕ → κ → ℕ)

/-- The record with a key. -/
def find (t : Table ρ) (k : κ) : Option ρ :=
  (t.seek (key · = k) (home t.capacity k) t.capacity 0).bind t.slot

/-- Put a record in the table, unless there is one with its key or no room. -/
def put (t : Table ρ) (r : ρ) : Table ρ :=
  match t.seek (key · = key r) (home t.capacity (key r)) t.capacity 0 with
  | none => t
  | some s =>
    match t.slot s with
    | none => t.store s r
    | some _ => t

def putAll (t : Table ρ) (rs : List ρ) : Table ρ := rs.foldl (put key home) t

/-- A slot is the next one to look at after slots with records that are not wanted. -/
def Reaches (t : Table ρ) (wanted : ρ → Bool) (start s : ℕ) : Prop :=
  ∃ i < t.capacity, s = (start + i) % t.capacity ∧
    ∀ j < i, ∃ q, t.slot ((start + j) % t.capacity) = some q ∧ wanted q = false

/-- A search for the key of a record gets to the slot of the record. -/
def Settled (t : Table ρ) : Prop :=
  ∀ s < t.capacity, ∀ r, t.slot s = some r → t.Reaches (key · = key r) (home t.capacity (key r)) s

end Search

variable {t : Table ρ} {wanted : ρ → Bool} {start s : ℕ} {r : ρ}

theorem Reaches.lt (hreaches : t.Reaches wanted start s) : s < t.capacity := by
  obtain ⟨i, hi, rfl, -⟩ := hreaches
  exact Nat.mod_lt _ (Nat.zero_lt_of_lt hi)

/-! ### Seeking -/

variable {fuel j : ℕ}

theorem seek_eq_some (hseek : t.seek wanted start fuel j = some s) :
    ∃ i, j ≤ i ∧ i < j + fuel ∧ s = (start + i) % t.capacity ∧
      (∀ r, t.slot s = some r → wanted r = true) ∧
      ∀ j', j ≤ j' → j' < i →
        ∃ q, t.slot ((start + j') % t.capacity) = some q ∧ wanted q = false := by
  induction fuel generalizing j with
  | zero => cases hseek
  | succ fuel ih =>
    rw [seek] at hseek
    cases hslot : t.slot ((start + j) % t.capacity) with
    | none =>
      simp only [hslot, Option.some.injEq] at hseek
      subst hseek
      refine ⟨j, Nat.le_refl _, by omega, rfl, fun r hr ↦ ?_, fun j' hle hlt ↦ by omega⟩
      rw [hslot] at hr
      cases hr
    | some q =>
      simp only [hslot] at hseek
      split_ifs at hseek with hwanted
      · obtain rfl := Option.some.inj hseek
        refine ⟨j, Nat.le_refl _, by omega, rfl, fun r hr ↦ ?_, fun j' hle hlt ↦ by omega⟩
        obtain rfl := Option.some.inj (hslot.symm.trans hr)
        exact hwanted
      · obtain ⟨i, hle, hlt, hs, hr, hbefore⟩ := ih hseek
        refine ⟨i, by omega, by omega, hs, hr, fun j' hj' hlt' ↦ ?_⟩
        rcases Nat.eq_or_lt_of_le hj' with rfl | hj'
        · exact ⟨q, hslot, by simpa using hwanted⟩
        · exact hbefore j' hj' hlt'

theorem seek_eq_none (hseek : t.seek wanted start fuel j = none) {j' : ℕ} (hle : j ≤ j')
    (hlt : j' < j + fuel) :
    ∃ q, t.slot ((start + j') % t.capacity) = some q ∧ wanted q = false := by
  induction fuel generalizing j with
  | zero => omega
  | succ fuel ih =>
    rw [seek] at hseek
    cases hslot : t.slot ((start + j) % t.capacity) with
    | none => simp [hslot] at hseek
    | some q =>
      simp only [hslot] at hseek
      split_ifs at hseek with hwanted
      rcases Nat.eq_or_lt_of_le hle with rfl | hle
      · exact ⟨q, hslot, by simpa using hwanted⟩
      · exact ih hseek hle (by omega)

/-- A search from the start ends at a slot that it reaches and that stops it. -/
theorem seek_start (hseek : t.seek wanted start t.capacity 0 = some s) :
    t.Reaches wanted start s ∧ ∀ r, t.slot s = some r → wanted r = true := by
  obtain ⟨i, -, hlt, hs, hr, hbefore⟩ := seek_eq_some hseek
  exact ⟨⟨i, by simpa using hlt, hs, fun j hj ↦ hbefore j (Nat.zero_le j) hj⟩, hr⟩

/-- The slot that stops a search is the only one. -/
theorem Reaches.seek (hreaches : t.Reaches wanted start s)
    (hstops : ∀ r, t.slot s = some r → wanted r = true) :
    t.seek wanted start t.capacity 0 = some s := by
  obtain ⟨i, hi, rfl, hbefore⟩ := hreaches
  cases hseek : t.seek wanted start t.capacity 0 with
  | none =>
    obtain ⟨q, hq, hwanted⟩ := seek_eq_none hseek (Nat.zero_le i) (by simpa using hi)
    rw [hstops q hq] at hwanted
    cases hwanted
  | some s' =>
    obtain ⟨⟨i', hi', rfl, hbefore'⟩, hstops'⟩ := seek_start hseek
    rcases Nat.lt_trichotomy i i' with hlt | rfl | hlt
    · obtain ⟨q, hq, hwanted⟩ := hbefore' i hlt
      rw [hstops q hq] at hwanted
      cases hwanted
    · rfl
    · obtain ⟨q, hq, hwanted⟩ := hbefore i' hlt
      rw [hstops' q hq] at hwanted
      cases hwanted

/-- From any start the slots are all looked at. -/
theorem exists_probe (start : ℕ) (hs : s < t.capacity) :
    ∃ i < t.capacity, s = (start + i) % t.capacity := by
  have hlt := Nat.mod_lt start (Nat.zero_lt_of_lt hs)
  refine ⟨(s + t.capacity - start % t.capacity) % t.capacity, Nat.mod_lt _ (by omega), ?_⟩
  have hsum : start % t.capacity + (s + t.capacity - start % t.capacity) = s + t.capacity := by
    omega
  rw [Nat.add_mod_mod, ← Nat.mod_add_mod, hsum, Nat.add_mod_right, Nat.mod_eq_of_lt hs]

/-! ### The records of a table -/

theorem mem_entries : r ∈ t.entries ↔ ∃ s < t.capacity, t.slot s = some r := by
  simp [entries]

@[simp] theorem entries_empty (capacity : ℕ) : (empty capacity : Table ρ).entries = [] := by
  simp [entries, empty]

/-- A table with fewer records than slots has an empty slot. -/
theorem exists_vacant (hroom : t.entries.length < t.capacity) :
    ∃ s < t.capacity, t.slot s = none := by
  by_contra hfull
  have hslots (part : List ℕ) (hpart : ∀ s ∈ part, t.slot s ≠ none) :
      (part.filterMap t.slot).length = part.length := by
    induction part with
    | nil => rfl
    | cons s part ih =>
      obtain ⟨r, hr⟩ := Option.ne_none_iff_exists'.mp (hpart s List.mem_cons_self)
      rw [List.filterMap_cons_some hr, List.length_cons, List.length_cons,
        ih fun s' hs' ↦ hpart s' (List.mem_cons_of_mem s hs')]
  have hlength : t.entries.length = (List.range t.capacity).length :=
    hslots (List.range t.capacity) fun s hs hempty ↦ hfull ⟨s, List.mem_range.mp hs, hempty⟩
  rw [List.length_range] at hlength
  omega

/-- A record in an empty slot is one more record. -/
theorem entries_store (hs : s < t.capacity) (hempty : t.slot s = none) (r : ρ) :
    (t.store s r).entries.Perm (r :: t.entries) := by
  obtain ⟨before, after, hsplit⟩ := List.append_of_mem (List.mem_range.mpr hs)
  have hnodup := List.nodup_range (n := t.capacity)
  rw [hsplit] at hnodup
  have hsame (part : List ℕ) (hpart : s ∉ part) :
      part.filterMap (Function.update t.slot s (some r)) = part.filterMap t.slot := by
    refine List.filterMap_congr fun x hx ↦ ?_
    rw [Function.update_of_ne]
    rintro rfl
    exact hpart hx
  obtain ⟨hbefore, hafter, hcross⟩ := List.nodup_append.mp hnodup
  have hbefore' : s ∉ before := fun hmem ↦ hcross s hmem s (List.mem_cons_self) rfl
  have hafter' : s ∉ after := (List.nodup_cons.mp hafter).1
  unfold entries
  simp only [store]
  rw [hsplit, List.filterMap_append, List.filterMap_append, List.filterMap_cons_some
    (Function.update_self s _ _), List.filterMap_cons_none hempty, hsame before hbefore',
    hsame after hafter']
  exact List.perm_middle

/-! ### Searches -/

section Search

variable {κ : Type} [DecidableEq κ] {key : ρ → κ} {home : ℕ → κ → ℕ} {k : κ}

section

variable (hsettled : t.Settled key home)
include hsettled

theorem find_eq_some_iff : t.find key home k = some r ↔ r ∈ t.entries ∧ key r = k := by
  constructor
  · intro hfind
    obtain ⟨s, hseek, hslot⟩ := Option.bind_eq_some_iff.mp hfind
    obtain ⟨hreaches, hwanted⟩ := seek_start hseek
    exact ⟨mem_entries.mpr ⟨s, hreaches.lt, hslot⟩, of_decide_eq_true (hwanted r hslot)⟩
  · rintro ⟨hmem, rfl⟩
    obtain ⟨s, hs, hslot⟩ := mem_entries.mp hmem
    refine Option.bind_eq_some_iff.mpr ⟨s, (hsettled s hs r hslot).seek fun q hq ↦ ?_, hslot⟩
    obtain rfl := Option.some.inj (hq.symm.trans hslot)
    exact decide_eq_true rfl

theorem find_eq_none_iff : t.find key home k = none ↔ ∀ r ∈ t.entries, key r ≠ k := by
  rw [Option.eq_none_iff_forall_ne_some]
  constructor
  · intro hnone r hmem hkey
    exact hnone r ((find_eq_some_iff hsettled).mpr ⟨hmem, hkey⟩)
  · intro habsent r hfind
    obtain ⟨hmem, hkey⟩ := (find_eq_some_iff hsettled).mp hfind
    exact habsent r hmem hkey

/-- No two slots hold records with one key. -/
theorem Settled.nodup : (t.entries.map key).Nodup := by
  rw [List.Nodup, List.pairwise_map, entries, List.pairwise_filterMap]
  refine List.pairwise_lt_range.imp_of_mem ?_
  intro s s' hs hs' hlt r hr r' hr' hkey
  have hseek := (hsettled s (List.mem_range.mp hs) r hr).seek fun q hq ↦ by
    obtain rfl := Option.some.inj (hq.symm.trans hr)
    exact decide_eq_true rfl
  have hseek' := (hsettled s' (List.mem_range.mp hs') r' hr').seek fun q hq ↦ by
    obtain rfl := Option.some.inj (hq.symm.trans hr')
    exact decide_eq_true rfl
  rw [hkey, hseek'] at hseek
  obtain rfl := Option.some.inj hseek
  exact Nat.lt_irrefl _ hlt

end

theorem settled_empty (capacity : ℕ) : (empty capacity : Table ρ).Settled key home := by
  intro s hs r hr
  cases hr

/-! ### Insertions -/

/-- Paths do not change when an empty slot is filled. -/
theorem Reaches.store {s' : ℕ} (hreaches : t.Reaches wanted start s') (hempty : t.slot s = none)
    (r : ρ) : (t.store s r).Reaches wanted start s' := by
  obtain ⟨i, hi, hs', hbefore⟩ := hreaches
  refine ⟨i, hi, hs', fun j hj ↦ ?_⟩
  obtain ⟨q, hq, hwanted⟩ := hbefore j hj
  refine ⟨q, ?_, hwanted⟩
  have hne : (start + j) % t.capacity ≠ s := by
    rintro hs
    rw [hs, hempty] at hq
    cases hq
  exact (Function.update_of_ne hne _ _).trans hq

theorem Settled.store (hsettled : t.Settled key home) (hempty : t.slot s = none)
    (hreaches : t.Reaches (key · = key r) (home t.capacity (key r)) s) :
    (t.store s r).Settled key home := by
  intro s' hs' r' hr'
  by_cases hsame : s' = s
  · subst hsame
    obtain rfl : r = r' := by simpa [Table.store] using hr'
    exact hreaches.store hempty r
  · have hold : t.slot s' = some r' := by
      simpa [Table.store, Function.update_of_ne hsame] using hr'
    exact (hsettled s' hs' r' hold).store hempty r

theorem seek_ne_none (hroom : t.entries.length < t.capacity) (wanted : ρ → Bool) (start : ℕ) :
    t.seek wanted start t.capacity 0 ≠ none := by
  intro hseek
  obtain ⟨s, hs, hempty⟩ := exists_vacant hroom
  obtain ⟨i, hi, rfl⟩ := exists_probe start hs
  obtain ⟨q, hq, -⟩ := seek_eq_none hseek (Nat.zero_le i) (by simpa using hi)
  rw [hempty] at hq
  cases hq

section

variable (hsettled : t.Settled key home) (hroom : t.entries.length < t.capacity)
include hsettled hroom

/-- In a table with room a search for a key that no record has ends at an empty slot. -/
theorem exists_seek_vacant (habsent : t.find key home k = none) :
    ∃ s, t.seek (key · = k) (home t.capacity k) t.capacity 0 = some s ∧ t.slot s = none := by
  obtain ⟨s, hseek⟩ := Option.ne_none_iff_exists'.mp
    (seek_ne_none hroom (key · = k) (home t.capacity k))
  refine ⟨s, hseek, Option.eq_none_iff_forall_ne_some.mpr fun q hq ↦ ?_⟩
  obtain ⟨hreaches, hwanted⟩ := seek_start hseek
  exact (find_eq_none_iff hsettled).mp habsent q (mem_entries.mpr ⟨s, hreaches.lt, hq⟩)
    (of_decide_eq_true (hwanted q hq))

/-- What an insertion does to a table with room and without the key. -/
theorem put_spec (habsent : t.find key home (key r) = none) :
    (t.put key home r).Settled key home ∧ (t.put key home r).capacity = t.capacity ∧
      (t.put key home r).entries.Perm (r :: t.entries) := by
  obtain ⟨s, hseek, hempty⟩ := exists_seek_vacant hsettled hroom habsent
  have hput : t.put key home r = t.store s r := by simp only [put, hseek, hempty]
  obtain ⟨hreaches, -⟩ := seek_start hseek
  rw [hput]
  exact ⟨hsettled.store hempty hreaches, rfl, entries_store hreaches.lt hempty r⟩

end

variable {rs : List ρ}

/-- Insertions of records with different keys into a table with room for all of them. -/
theorem putAll_spec (hsettled : t.Settled key home)
    (hroom : t.entries.length + rs.length ≤ t.capacity)
    (hdistinct : ((t.entries ++ rs).map key).Nodup) :
    (putAll key home t rs).Settled key home ∧ (putAll key home t rs).capacity = t.capacity ∧
      (putAll key home t rs).entries.Perm (t.entries ++ rs) := by
  induction rs generalizing t with
  | nil => exact ⟨hsettled, rfl, by simp [putAll]⟩
  | cons r rs ih =>
    rw [List.length_cons] at hroom
    have habsent : t.find key home (key r) = none := by
      refine (find_eq_none_iff hsettled).mpr fun q hq hkey ↦ ?_
      rw [List.map_append, List.nodup_append] at hdistinct
      exact hdistinct.2.2 (key q) (List.mem_map_of_mem hq) (key r)
        (List.mem_map_of_mem List.mem_cons_self) hkey
    obtain ⟨hsettled', hcapacity, hperm⟩ := put_spec hsettled (by omega) habsent
    have hmiddle : ((t.put key home r).entries ++ rs).Perm (t.entries ++ r :: rs) :=
      (hperm.append_right rs).trans List.perm_middle.symm
    obtain ⟨hall, hsame, hentries⟩ := ih hsettled'
      (by rw [hcapacity, hperm.length_eq, List.length_cons]; omega)
      ((hmiddle.map key).nodup_iff.mpr hdistinct)
    exact ⟨hall, hsame.trans hcapacity, hentries.trans hmiddle⟩

/-! ### Growing -/

/-- Where no record has the key, an insertion takes the first empty slot. -/
theorem place_eq_put (habsent : ∀ q ∈ t.entries, key q ≠ key r) :
    t.place (home t.capacity (key r)) r = t.put key home r := by
  have hseek : t.seek (key · = key r) (home t.capacity (key r)) t.capacity 0 =
      t.seek (fun _ ↦ false) (home t.capacity (key r)) t.capacity 0 := by
    cases hblind : t.seek (fun _ ↦ false) (home t.capacity (key r)) t.capacity 0 with
    | none =>
      by_contra hfound
      obtain ⟨s, hs⟩ := Option.ne_none_iff_exists'.mp hfound
      obtain ⟨i, -, hlt, rfl, hwanted, -⟩ := seek_eq_some hs
      obtain ⟨q, hq, -⟩ := seek_eq_none hblind (Nat.zero_le i) hlt
      exact habsent q (mem_entries.mpr ⟨_, Nat.mod_lt _ (by omega), hq⟩)
        (of_decide_eq_true (hwanted q hq))
    | some s =>
      obtain ⟨⟨i, hi, hs, hbefore⟩, hwanted⟩ := seek_start hblind
      refine Reaches.seek ⟨i, hi, hs, fun j hj ↦ ?_⟩ fun q hq ↦ absurd (hwanted q hq) (by simp)
      obtain ⟨q, hq, -⟩ := hbefore j hj
      exact ⟨q, hq, decide_eq_false (habsent q (mem_entries.mpr
        ⟨_, Nat.mod_lt _ (Nat.zero_lt_of_lt hi), hq⟩))⟩
  unfold place put
  rw [hseek]
  cases hblind : t.seek (fun _ ↦ false) (home t.capacity (key r)) t.capacity 0 with
  | none => rfl
  | some s =>
    have hempty : t.slot s = none :=
      Option.eq_none_iff_forall_ne_some.mpr fun q hq ↦
        absurd ((seek_start hblind).2 q hq) (by simp)
    simp only [hempty]

/-- Placing records with different keys is inserting them. -/
theorem foldl_place_eq_putAll (hsettled : t.Settled key home)
    (hroom : t.entries.length + rs.length ≤ t.capacity)
    (hdistinct : ((t.entries ++ rs).map key).Nodup) :
    rs.foldl (fun t r ↦ t.place (home t.capacity (key r)) r) t = putAll key home t rs := by
  induction rs generalizing t with
  | nil => rfl
  | cons r rs ih =>
    rw [List.length_cons] at hroom
    have habsent : ∀ q ∈ t.entries, key q ≠ key r := by
      intro q hq hkey
      rw [List.map_append, List.nodup_append] at hdistinct
      exact hdistinct.2.2 (key q) (List.mem_map_of_mem hq) (key r)
        (List.mem_map_of_mem List.mem_cons_self) hkey
    obtain ⟨hsettled', hcapacity, hperm⟩ :=
      put_spec hsettled (by omega) ((find_eq_none_iff hsettled).mpr habsent)
    have hmiddle : ((t.put key home r).entries ++ rs).Perm (t.entries ++ r :: rs) :=
      (hperm.append_right rs).trans List.perm_middle.symm
    rw [List.foldl_cons, place_eq_put habsent, ih hsettled'
      (by rw [hcapacity, hperm.length_eq, List.length_cons]; omega)
      ((hmiddle.map key).nodup_iff.mpr hdistinct)]
    rfl

end Search

end Table

end Obmafs3.Library.Probing
