import Obmafs3.Dedup.Tree
import Obmafs3.Library.Probing

/-!
# The pending buffer

Entries that wait for their insertion into a dedup tree are kept in a hash table with open
addressing. The table doubles at three quarters of its capacity. Its capacity and its count are
32-bit numbers, so a table of `2 ^ 31` slots is doubled to one without slots, which holds nothing.
`Sound` is what is true of a buffer after any insertions, `Whole` what is true of one that has not
come to that.
-/

set_option autoImplicit false

namespace Obmafs3

open Library.Probing

/-- `PENDING_INIT_CAP`. -/
def pendingInitCap : ℕ := 4096

/-- `struct dedup_pending_buf`. The slots that hold `KEYSET_EMPTY` are the empty slots. -/
structure PendingBuf where
  slots : Table DedupEntry
  count : ℕ
  sectorSize : ℕ

/-- `pending_hash`. The mask keeps the remainder by the capacity, which is a power of two. -/
def pendingHash (capacity key : ℕ) : ℕ := key * 0x9E3779B97F4A7C15 % 2 ^ 64 / 2 ^ 32 % capacity

namespace PendingBuf

def entries (pb : PendingBuf) : List DedupEntry := pb.slots.entries

end PendingBuf

/-- `pending_create`, where there is memory. -/
def pendingCreate : PendingBuf := ⟨Table.empty pendingInitCap, 0, 0⟩

/-- The loop of `pending_create_presized`. Its counter runs out at the largest capacity. -/
def presizedCap (target : ℕ) : (fuel cap : ℕ) → ℕ
  | 0, cap => cap
  | fuel + 1, cap =>
    if cap < target ∧ cap < (2 ^ 32 - 1) / 2 then presizedCap target fuel (cap * 2) else cap

/-- `pending_create_presized`, where there is memory. -/
def pendingCreatePresized (minEntries : ℕ) : PendingBuf :=
  ⟨Table.empty (presizedCap (max ((minEntries * 4 + 2) / 3) pendingInitCap) 32 pendingInitCap), 0, 0⟩

/-- `pending_grow`. `calloc` tells whether there is memory for a number of slots. -/
def pendingGrow (calloc : ℕ → Bool) (pb : PendingBuf) : Option PendingBuf :=
  let newCap := pb.slots.capacity * 2 % 2 ^ 32
  if calloc newCap then
    some { pb with
      slots := pb.entries.foldl (fun slots e ↦ slots.place (pendingHash slots.capacity e.hash) e)
        (Table.empty newCap) }
  else none

/-- The loop of `pending_insert`. -/
def pendingStore (pb : PendingBuf) (entry : DedupEntry) : PendingBuf :=
  match pb.slots.seek (·.hash = entry.hash) (pendingHash pb.slots.capacity entry.hash)
      pb.slots.capacity 0 with
  | none => pb
  | some s =>
    match pb.slots.slot s with
    | none => { pb with slots := pb.slots.store s entry, count := pb.count + 1 }
    | some _ => pb

/-- `pending_insert`. The comparison of the load is one of 32-bit numbers. -/
def pendingInsert (calloc : ℕ → Bool) (pb : PendingBuf) (entry : DedupEntry) : PendingBuf :=
  if entry.hash = 0 then pb
  else if pb.slots.capacity * 3 % 2 ^ 32 ≤ pb.count * 4 % 2 ^ 32 then
    match pendingGrow calloc pb with
    | none => pb
    | some grown => pendingStore grown entry
  else pendingStore pb entry

/-- A presized buffer for the entries of a list, with all of them inserted. -/
def presizedWith (calloc : ℕ → Bool) (sectorSize : ℕ) (entries : List DedupEntry) : PendingBuf :=
  entries.foldl (pendingInsert calloc) { pendingCreatePresized entries.length with sectorSize }

/-- `pending_lookup`. -/
def pendingLookup (pb : PendingBuf) (hash : ℕ) : Option DedupEntry :=
  if hash = 0 then none else pb.slots.find DedupEntry.hash pendingHash hash

/-- The entries of a buffer, if there is one. -/
def bufEntries (pb : Option PendingBuf) : List DedupEntry := pb.elim [] PendingBuf.entries

@[simp] theorem bufEntries_some (pb : PendingBuf) : bufEntries (some pb) = pb.entries := rfl

def bufCount (pb : Option PendingBuf) : ℕ := pb.elim 0 PendingBuf.count

def bufSectorSize (pb : Option PendingBuf) : ℕ := pb.elim 0 PendingBuf.sectorSize

namespace PendingBuf

/-- `memset` and `count = 0` at the end of a flush. -/
def cleared (pb : PendingBuf) : PendingBuf :=
  { pb with slots := Table.empty pb.slots.capacity, count := 0 }

/-- The buffers that there are: new ones, and what insertions, a flush and a change of the sector
size make of them. -/
inductive Reached : PendingBuf → Prop
  | create : Reached pendingCreate
  | presized (minEntries : ℕ) : Reached (pendingCreatePresized minEntries)
  | insert (calloc : ℕ → Bool) {pb : PendingBuf} (entry : DedupEntry) :
    Reached pb → Reached (pendingInsert calloc pb entry)
  | clear {pb : PendingBuf} : Reached pb → Reached pb.cleared
  | label (sectorSize : ℕ) {pb : PendingBuf} : Reached pb → Reached { pb with sectorSize }

/-- What is true of every buffer. A buffer that has collapsed to no slots still has its count. -/
structure Sound (pb : PendingBuf) : Prop where
  settled : pb.slots.Settled DedupEntry.hash pendingHash
  nonzero : ∀ e ∈ pb.entries, e.hash ≠ 0
  length_le : pb.entries.length ≤ pb.count
  load : (∃ k, 12 ≤ k ∧ k ≤ 30 ∧ pb.slots.capacity = 2 ^ k ∧ pb.count * 4 ≤ pb.slots.capacity * 3) ∨
    (pb.slots.capacity = 2 ^ 31 ∨ pb.slots.capacity = 0) ∧ pb.count ≤ 3 * 2 ^ 28 + 1

/-- What is true of a buffer that holds what was put in it. -/
structure Whole (pb : PendingBuf) : Prop where
  settled : pb.slots.Settled DedupEntry.hash pendingHash
  nonzero : ∀ e ∈ pb.entries, e.hash ≠ 0
  length_eq : pb.entries.length = pb.count
  load : ∃ k, 12 ≤ k ∧ k ≤ 30 ∧ pb.slots.capacity = 2 ^ k ∧ pb.count * 4 ≤ pb.slots.capacity * 3

/-- An insertion has room in the table or can double it, to no more than `2 ^ 30` slots. -/
def Roomy (calloc : ℕ → Bool) (pb : PendingBuf) : Prop :=
  pb.count * 4 < pb.slots.capacity * 3 ∨
    pb.slots.capacity ≤ 2 ^ 29 ∧ calloc (pb.slots.capacity * 2) = true

end PendingBuf

/-! ### One insertion -/

section Steps

variable {pb : PendingBuf} {e : DedupEntry} {calloc : ℕ → Bool}

/-- What the loop of an insertion does: nothing, or it stores the entry in an empty slot. -/
theorem pendingStore_cases (hsettled : pb.slots.Settled DedupEntry.hash pendingHash) :
    pendingStore pb e = pb ∨ (pendingStore pb e).slots.Settled DedupEntry.hash pendingHash ∧
        (pendingStore pb e).slots.capacity = pb.slots.capacity ∧
        (pendingStore pb e).entries.Perm (e :: pb.entries) ∧
        (pendingStore pb e).count = pb.count + 1 ∧
        (pendingStore pb e).sectorSize = pb.sectorSize := by
  unfold pendingStore
  cases hseek : pb.slots.seek (·.hash = e.hash) (pendingHash pb.slots.capacity e.hash)
      pb.slots.capacity 0 with
  | none => exact .inl rfl
  | some s =>
    cases hslot : pb.slots.slot s with
    | some r => simp only [hslot, true_or]
    | none =>
      simp only [hslot, and_true]
      obtain ⟨hreaches, -⟩ := Table.seek_start hseek
      exact .inr ⟨hsettled.store hslot hreaches, rfl, Table.entries_store hreaches.lt hslot e⟩

/-- The loop stores as an insertion into the table does. -/
theorem pendingStore_slots :
    (pendingStore pb e).slots = pb.slots.put DedupEntry.hash pendingHash e := by
  unfold pendingStore Table.put
  cases hseek : pb.slots.seek (·.hash = e.hash) (pendingHash pb.slots.capacity e.hash)
      pb.slots.capacity 0 with
  | none => rfl
  | some s =>
    cases hslot : pb.slots.slot s with
    | none => simp only [hslot]
    | some r => simp only [hslot]

variable {grown : PendingBuf}

/-- Growth to a table with room keeps the entries. -/
theorem pendingGrow_spec (hsettled : pb.slots.Settled DedupEntry.hash pendingHash)
    (hroom : pb.entries.length ≤ pb.slots.capacity * 2 % 2 ^ 32)
    (hgrow : pendingGrow calloc pb = some grown) :
    grown.slots.Settled DedupEntry.hash pendingHash ∧
      grown.slots.capacity = pb.slots.capacity * 2 % 2 ^ 32 ∧
      grown.entries.Perm pb.entries ∧ grown.count = pb.count ∧
      grown.sectorSize = pb.sectorSize := by
  unfold pendingGrow at hgrow
  simp only at hgrow
  split_ifs at hgrow with hmemory
  obtain rfl := Option.some.inj hgrow
  have hnone : (Table.empty (pb.slots.capacity * 2 % 2 ^ 32) : Table DedupEntry).entries = [] :=
    Table.entries_empty _
  have hdistinct : (((Table.empty (pb.slots.capacity * 2 % 2 ^ 32)).entries ++
      pb.entries).map DedupEntry.hash).Nodup := by
    rw [hnone, List.nil_append]
    exact hsettled.nodup
  have hfits : (Table.empty (pb.slots.capacity * 2 % 2 ^ 32) : Table DedupEntry).entries.length +
      pb.entries.length ≤ pb.slots.capacity * 2 % 2 ^ 32 := by
    rw [hnone, List.length_nil, Nat.zero_add]
    exact hroom
  obtain ⟨hnew, hcapacity, hperm⟩ := Table.putAll_spec (Table.settled_empty _) hfits hdistinct
  rw [← Table.foldl_place_eq_putAll (Table.settled_empty _) hfits hdistinct] at hnew hcapacity hperm
  rw [hnone, List.nil_append] at hperm
  exact ⟨hnew, hcapacity, hperm, rfl, rfl⟩

/-- Growth to a table without slots loses the entries. -/
theorem pendingGrow_collapse (hcap : pb.slots.capacity * 2 % 2 ^ 32 = 0)
    (hgrow : pendingGrow calloc pb = some grown) :
    grown.slots.capacity = 0 ∧ grown.count = pb.count ∧ grown.sectorSize = pb.sectorSize := by
  unfold pendingGrow at hgrow
  simp only at hgrow
  split_ifs at hgrow with hmemory
  obtain rfl := Option.some.inj hgrow
  refine ⟨?_, rfl, rfl⟩
  have hplace (rs : List DedupEntry) (t : Table DedupEntry) :
      (rs.foldl (fun slots e ↦ slots.place (pendingHash slots.capacity e.hash) e) t).capacity =
        t.capacity := by
    induction rs generalizing t with
    | nil => rfl
    | cons r rs ih =>
      rw [List.foldl_cons, ih]
      unfold Table.place
      split <;> rfl
  exact (hplace _ _).trans hcap

section

variable (hcap : pb.slots.capacity = 0)
include hcap

theorem PendingBuf.entries_of_capacity : pb.entries = [] := by
  simp [PendingBuf.entries, Table.entries, hcap]

theorem PendingBuf.settled_of_capacity : pb.slots.Settled DedupEntry.hash pendingHash := by
  intro s hs
  omega

theorem PendingBuf.Sound.of_capacity (hcount : pb.count ≤ 3 * 2 ^ 28 + 1) : pb.Sound where
  settled := PendingBuf.settled_of_capacity hcap
  nonzero := by simp [PendingBuf.entries_of_capacity hcap]
  length_le := by simp [PendingBuf.entries_of_capacity hcap]
  load := .inr ⟨.inr hcap, hcount⟩

end

/-- The loop keeps a buffer sound when the count stays below the next growth. -/
theorem PendingBuf.Sound.store (hsound : pb.Sound) (hhash : e.hash ≠ 0)
    (hload : (∃ k, 12 ≤ k ∧ k ≤ 30 ∧ pb.slots.capacity = 2 ^ k ∧
        (pb.count + 1) * 4 ≤ pb.slots.capacity * 3) ∨
      (pb.slots.capacity = 2 ^ 31 ∨ pb.slots.capacity = 0) ∧ pb.count + 1 ≤ 3 * 2 ^ 28 + 1) :
    (pendingStore pb e).Sound := by
  rcases pendingStore_cases (e := e) hsound.settled with
    hsame | ⟨hsettled, hcapacity, hperm, hcount, -⟩
  · rw [hsame]
    exact hsound
  · refine ⟨hsettled, fun e' he' ↦ ?_, ?_, ?_⟩
    · rcases List.mem_cons.mp (hperm.mem_iff.mp he') with rfl | he'
      · exact hhash
      · exact hsound.nonzero e' he'
    · rw [hperm.length_eq, List.length_cons, hcount]
      exact Nat.succ_le_succ hsound.length_le
    · rw [hcapacity, hcount]
      exact hload

theorem PendingBuf.Sound.insert (hsound : pb.Sound) : (pendingInsert calloc pb e).Sound := by
  unfold pendingInsert
  split_ifs with hhash hfull
  · exact hsound
  · cases hgrow : pendingGrow calloc pb with
    | none => exact hsound
    | some grown =>
      rcases hsound.load with ⟨k, hk, hk', hcap, hload⟩ | ⟨hcap, hcount⟩
      · have hpow : 2 ^ k ≤ 2 ^ 30 := Nat.pow_le_pow_right (by omega) hk'
        have hnew : pb.slots.capacity * 2 % 2 ^ 32 = 2 ^ (k + 1) := by
          rw [hcap, ← pow_succ, Nat.mod_eq_of_lt]
          exact Nat.pow_lt_pow_right (by omega) (by omega)
        have hlength := hsound.length_le
        have hdouble : 2 ^ (k + 1) = 2 ^ k * 2 := pow_succ 2 k
        have hlarge : 2 ^ 12 ≤ 2 ^ k := Nat.pow_le_pow_right (by omega) hk
        obtain ⟨hsettled, hcapacity, hperm, hcount, -⟩ :=
          pendingGrow_spec hsound.settled (by omega) hgrow
        have hgrown : grown.Sound := by
          refine ⟨hsettled, fun e' he' ↦ hsound.nonzero e' (hperm.mem_iff.mp he'), ?_, ?_⟩
          · rw [hperm.length_eq, hcount]
            exact hlength
          · rw [hcapacity, hnew, hcount]
            rcases Nat.lt_or_ge k 30 with hlt | hge
            · exact .inl ⟨k + 1, by omega, by omega, rfl, by omega⟩
            · obtain rfl : k = 30 := by omega
              exact .inr ⟨.inl rfl, by omega⟩
        refine hgrown.store hhash ?_
        rw [hcapacity, hnew, hcount]
        rcases Nat.lt_or_ge k 30 with hlt | hge
        · exact .inl ⟨k + 1, by omega, by omega, rfl, by omega⟩
        · obtain rfl : k = 30 := by omega
          exact .inr ⟨.inl rfl, by omega⟩
      · obtain ⟨hzero, hsame, -⟩ := pendingGrow_collapse (by omega) hgrow
        have hnothing : pendingStore grown e = grown := by
          simp [pendingStore, hzero, Table.seek]
        simp only [hnothing]
        exact .of_capacity hzero (hsame ▸ hcount)
  · rcases hsound.load with ⟨k, hk, hk', hcap, hload⟩ | ⟨hcap, hcount⟩
    · obtain ⟨m, rfl⟩ := Nat.exists_eq_add_of_le hk
      have hpow : 2 ^ (12 + m) ≤ 2 ^ 30 := Nat.pow_le_pow_right (by omega) hk'
      have hfour : 2 ^ (12 + m) = 2 ^ m * 4096 := by rw [Nat.add_comm, pow_add]; norm_num
      exact hsound.store hhash (.inl ⟨12 + m, hk, hk', hcap, by omega⟩)
    · rcases hcap with hcap | hcap
      · exact hsound.store hhash (.inr ⟨.inl hcap, by omega⟩)
      · omega

end Steps

/-! ### Every buffer -/

theorem presizedCap_spec (target fuel : ℕ) {k : ℕ} (hk : 12 ≤ k) (hk' : k ≤ 31) :
    ∃ k', k ≤ k' ∧ k' ≤ 31 ∧ presizedCap target fuel (2 ^ k) = 2 ^ k' := by
  induction fuel generalizing k with
  | zero => exact ⟨k, Nat.le_refl k, hk', rfl⟩
  | succ fuel ih =>
    rw [presizedCap]
    split_ifs with hmore
    · have hlt : k < 31 := by
        rcases Nat.lt_or_ge k 31 with hlt | hge
        · exact hlt
        · obtain rfl : k = 31 := by omega
          omega
      obtain ⟨k', hle, hle', hcap⟩ := ih (k := k + 1) (by omega) (by omega)
      exact ⟨k', by omega, hle', by rw [← pow_succ, hcap]⟩
    · exact ⟨k, Nat.le_refl k, hk', rfl⟩

namespace PendingBuf

theorem sound_empty {k : ℕ} (hk : 12 ≤ k) (hk' : k ≤ 31) (sectorSize : ℕ) :
    Sound ⟨Table.empty (2 ^ k), 0, sectorSize⟩ where
  settled := Table.settled_empty _
  nonzero := by simp [entries]
  length_le := by simp [entries]
  load := by
    rcases Nat.lt_or_ge k 31 with hlt | hge
    · exact .inl ⟨k, hk, by omega, rfl, by simp⟩
    · obtain rfl : k = 31 := by omega
      exact .inr ⟨.inl rfl, by simp⟩

theorem Reached.sound {pb : PendingBuf} (hreached : pb.Reached) : pb.Sound := by
  induction hreached with
  | create => exact sound_empty (k := 12) (by omega) (by omega) 0
  | presized minEntries =>
    obtain ⟨k, hk, hk', hcap⟩ := presizedCap_spec
      (max ((minEntries * 4 + 2) / 3) pendingInitCap) 32 (k := 12) (by omega) (by omega)
    have hsound := sound_empty hk hk' 0
    rw [← hcap] at hsound
    exact hsound
  | insert calloc entry _ ih => exact ih.insert
  | @clear pb _ ih =>
    refine ⟨Table.settled_empty _, by simp [entries, cleared], by simp [entries, cleared], ?_⟩
    rcases ih.load with ⟨k, hk, hk', hcap, -⟩ | ⟨hcap, -⟩
    · exact .inl ⟨k, hk, hk', hcap, by simp [cleared]⟩
    · exact .inr ⟨hcap, by simp [cleared]⟩
  | label sectorSize _ ih => exact ⟨ih.settled, ih.nonzero, ih.length_le, ih.load⟩

/-- Whatever was done to a buffer, even after it has collapsed, its entries have different hashes,
and a lookup finds the one with the hash. -/
theorem Reached.pendingLookup_exact {pb : PendingBuf} (hreached : pb.Reached) :
    (pb.entries.map DedupEntry.hash).Nodup ∧
      ∀ hash e, pendingLookup pb hash = some e ↔ e ∈ pb.entries ∧ e.hash = hash := by
  refine ⟨hreached.sound.settled.nodup, fun hash e ↦ ?_⟩
  unfold pendingLookup
  split_ifs with hzero
  · refine iff_of_false nofun ?_
    rintro ⟨he, rfl⟩
    exact hreached.sound.nonzero e he hzero
  · exact Table.find_eq_some_iff hreached.sound.settled

theorem Reached.pendingLookup_exact_one :
    pendingLookup (pendingInsert (fun _ ↦ true) pendingCreate ⟨5, 1, 0⟩) 5 = some ⟨5, 1, 0⟩ ↔
      ⟨5, 1, 0⟩ ∈ (pendingInsert (fun _ ↦ true) pendingCreate ⟨5, 1, 0⟩).entries ∧ 5 = 5 :=
  (pendingLookup_exact (.insert _ _ .create)).2 5 ⟨5, 1, 0⟩

end PendingBuf

/-! ### Buffers that hold what was put in them -/

section Whole

variable {pb : PendingBuf} {e : DedupEntry} {calloc : ℕ → Bool}

theorem PendingBuf.Whole.capacity_lt (hwhole : pb.Whole) : pb.slots.capacity ≤ 2 ^ 30 := by
  obtain ⟨k, -, hk, hcap, -⟩ := hwhole.load
  rw [hcap]
  exact Nat.pow_le_pow_right (by omega) hk

section

variable (hwhole : pb.Whole) (hhash : e.hash ≠ 0) (habsent : ∀ q ∈ pb.entries, q.hash ≠ e.hash)
include hwhole hhash habsent

/-- The loop puts a new entry in a buffer with room. -/
theorem PendingBuf.Whole.store (hroom : pb.count * 4 < pb.slots.capacity * 3) :
    (pendingStore pb e).Whole ∧ (pendingStore pb e).entries.Perm (e :: pb.entries) ∧
      (pendingStore pb e).sectorSize = pb.sectorSize ∧
      (pendingStore pb e).slots.capacity = pb.slots.capacity ∧
      (pendingStore pb e).count = pb.count + 1 := by
  have hvacant : pb.slots.entries.length < pb.slots.capacity := by
    have : pb.slots.entries.length = pb.count := hwhole.length_eq
    omega
  obtain ⟨-, -, hput⟩ := Table.put_spec hwhole.settled hvacant
    ((Table.find_eq_none_iff hwhole.settled).mpr habsent)
  rw [← pendingStore_slots] at hput
  rcases pendingStore_cases (e := e) hwhole.settled with
    hsame | ⟨hsettled, hcapacity, hperm, hcount, hsize⟩
  · have := hput.length_eq
    rw [hsame, List.length_cons] at this
    omega
  · refine ⟨⟨hsettled, fun e' he' ↦ ?_, ?_, ?_⟩, hperm, hsize, hcapacity, hcount⟩
    · rcases List.mem_cons.mp (hperm.mem_iff.mp he') with rfl | he'
      · exact hhash
      · exact hwhole.nonzero e' he'
    · rw [hperm.length_eq, List.length_cons, hcount, hwhole.length_eq]
    · obtain ⟨k, hk, hk', hcap, -⟩ := hwhole.load
      obtain ⟨m, rfl⟩ := Nat.exists_eq_add_of_le hk
      have hfour : 2 ^ (12 + m) = 2 ^ m * 4096 := by rw [Nat.add_comm, pow_add]; norm_num
      rw [hcapacity, hcount]
      exact ⟨12 + m, hk, hk', hcap, by omega⟩

/-- An insertion puts a new entry in a buffer that has room or can be doubled. -/
theorem PendingBuf.Whole.insert (hroom : pb.Roomy calloc) : (pendingInsert calloc pb e).Whole ∧
      (pendingInsert calloc pb e).entries.Perm (e :: pb.entries) ∧
      (pendingInsert calloc pb e).sectorSize = pb.sectorSize := by
  have hcapacity := hwhole.capacity_lt
  obtain ⟨k, hk, hk', hcap, hload⟩ := hwhole.load
  unfold pendingInsert
  rw [if_neg hhash, Nat.mod_eq_of_lt (by omega), Nat.mod_eq_of_lt (by omega)]
  by_cases hfull : pb.slots.capacity * 3 ≤ pb.count * 4
  · rw [if_pos hfull]
    have hsmall : pb.slots.capacity ≤ 2 ^ 29 ∧ calloc (pb.slots.capacity * 2) = true :=
      hroom.resolve_left (by omega)
    have hnew : pb.slots.capacity * 2 % 2 ^ 32 = pb.slots.capacity * 2 :=
      Nat.mod_eq_of_lt (by omega)
    have hk30 : k < 30 := by
      rcases Nat.lt_or_ge k 30 with hlt | hge
      · exact hlt
      · obtain rfl : k = 30 := by omega
        omega
    cases hgrow : pendingGrow calloc pb with
    | none =>
      rw [pendingGrow, hnew] at hgrow
      simp only [hsmall.2, if_true] at hgrow
      cases hgrow
    | some grown =>
      have hlength := hwhole.length_eq
      have hlarge : 2 ^ 12 ≤ 2 ^ k := Nat.pow_le_pow_right (by omega) hk
      obtain ⟨hsettled, hdouble, hperm, hcount, hsize⟩ :=
        pendingGrow_spec hwhole.settled (by omega) hgrow
      rw [hnew] at hdouble
      have hgrown : grown.Whole := by
        refine ⟨hsettled, fun e' he' ↦ hwhole.nonzero e' (hperm.mem_iff.mp he'), ?_, ?_⟩
        · rw [hperm.length_eq, hcount, hlength]
        · exact ⟨k + 1, by omega, by omega, by rw [hdouble, hcap, pow_succ], by omega⟩
      obtain ⟨hnext, hentries, hlabel, -⟩ := hgrown.store hhash
        (fun q hq ↦ habsent q (hperm.mem_iff.mp hq)) (by omega)
      exact ⟨hnext, hentries.trans (hperm.cons e), hlabel.trans hsize⟩
  · rw [if_neg hfull]
    obtain ⟨hnext, hentries, hlabel, -⟩ := hwhole.store hhash habsent (by omega)
    exact ⟨hnext, hentries, hlabel⟩

end

theorem pendingCreate_whole : pendingCreate.Whole where
  settled := Table.settled_empty _
  nonzero := by simp [PendingBuf.entries, pendingCreate]
  length_eq := by simp [PendingBuf.entries, pendingCreate]
  load := ⟨12, by omega, by omega, rfl, by simp [pendingCreate]⟩

/-- Insertions of entries with different hashes that do not fill three quarters of the slots. -/
theorem PendingBuf.Whole.foldl (calloc : ℕ → Bool) {es : List DedupEntry} (hwhole : pb.Whole)
    (hroom : (pb.count + es.length) * 4 ≤ pb.slots.capacity * 3)
    (hnonzero : ∀ e ∈ es, e.hash ≠ 0) (hdistinct : ((pb.entries ++ es).map DedupEntry.hash).Nodup) :
    (es.foldl (pendingInsert calloc) pb).Whole ∧
      (es.foldl (pendingInsert calloc) pb).entries.Perm (pb.entries ++ es) := by
  induction es generalizing pb with
  | nil => exact ⟨hwhole, by simp⟩
  | cons e es ih =>
    rw [List.length_cons] at hroom
    have hcapacity := hwhole.capacity_lt
    have hhash := hnonzero e List.mem_cons_self
    have habsent : ∀ q ∈ pb.entries, q.hash ≠ e.hash := by
      intro q hq hkey
      rw [List.map_append, List.nodup_append] at hdistinct
      exact hdistinct.2.2 q.hash (List.mem_map_of_mem hq) e.hash
        (List.mem_map_of_mem List.mem_cons_self) hkey
    have hinsert : pendingInsert calloc pb e = pendingStore pb e := by
      unfold pendingInsert
      rw [if_neg hhash, if_neg]
      rw [Nat.mod_eq_of_lt (by omega), Nat.mod_eq_of_lt (by omega)]
      omega
    obtain ⟨hnext, hperm, -, hcap, hcount⟩ := hwhole.store hhash habsent (by omega)
    have hmiddle : ((pendingStore pb e).entries ++ es).Perm (pb.entries ++ e :: es) :=
      (hperm.append_right es).trans List.perm_middle.symm
    obtain ⟨hall, hentries⟩ := ih hnext (by rw [hcap, hcount]; omega)
      (fun e' he' ↦ hnonzero e' (List.mem_cons_of_mem e he'))
      ((hmiddle.map _).nodup_iff.mpr hdistinct)
    rw [List.foldl_cons, hinsert]
    exact ⟨hall, hentries.trans hmiddle⟩

end Whole

/-! ### Presized buffers -/

/-- Up to the largest capacity, the capacity of a presized buffer reaches its target. -/
theorem presizedCap_reaches {target k m : ℕ} (fuel : ℕ) (htarget : target ≤ 2 ^ m) (hk : k ≤ m)
    (hm : m ≤ 31) (hfuel : m ≤ k + fuel) :
    ∃ k', k ≤ k' ∧ k' ≤ m ∧ presizedCap target fuel (2 ^ k) = 2 ^ k' ∧ target ≤ 2 ^ k' := by
  induction fuel generalizing k with
  | zero =>
    obtain rfl : k = m := by omega
    exact ⟨k, Nat.le_refl k, Nat.le_refl k, rfl, htarget⟩
  | succ fuel ih =>
    rw [presizedCap]
    split_ifs with hmore
    · have hlt : k < m := by
        rcases Nat.lt_or_ge k m with hlt | hge
        · exact hlt
        · obtain rfl : k = m := by omega
          omega
      obtain ⟨k', hle, hle', hcap, hreach⟩ := ih (k := k + 1) hlt (by omega)
      exact ⟨k', by omega, hle', by rw [← pow_succ, hcap], hreach⟩
    · refine ⟨k, Nat.le_refl k, hk, rfl, ?_⟩
      by_contra hshort
      have hlarge : 2 ^ 31 ≤ 2 ^ k := by
        have : ¬2 ^ k < (2 ^ 32 - 1) / 2 := fun hlt ↦ hmore ⟨by omega, hlt⟩
        rcases Nat.lt_or_ge k 31 with hlt | hge
        · have := Nat.pow_le_pow_right (n := 2) (by omega) (show k ≤ 30 by omega)
          omega
        · exact Nat.pow_le_pow_right (by omega) hge
      have := Nat.pow_le_pow_right (n := 2) (by omega) hm
      omega

/-- Beyond it, a presized buffer has the largest capacity. -/
theorem presizedCap_largest {target k : ℕ} (fuel : ℕ) (htarget : 2 ^ 30 < target) (hk : k ≤ 31)
    (hfuel : 31 ≤ k + fuel) : presizedCap target fuel (2 ^ k) = 2 ^ 31 := by
  induction fuel generalizing k with
  | zero =>
    obtain rfl : k = 31 := by omega
    rfl
  | succ fuel ih =>
    rw [presizedCap]
    rcases Nat.lt_or_ge k 31 with hlt | hge
    · have := Nat.pow_le_pow_right (n := 2) (by omega) (show k ≤ 30 by omega)
      rw [if_pos ⟨by omega, by omega⟩, ← pow_succ, ih (by omega) (by omega)]
    · obtain rfl : k = 31 := by omega
      rw [if_neg (by omega)]

section Presized

variable {es : List DedupEntry}

/-- A presized buffer holds its entries when they are few and have different hashes. -/
theorem presizedWith_spec (calloc : ℕ → Bool) (sectorSize : ℕ) (hfew : es.length ≤ 3 * 2 ^ 28)
    (hnonzero : ∀ e ∈ es, e.hash ≠ 0) (hdistinct : (es.map DedupEntry.hash).Nodup) :
    (presizedWith calloc sectorSize es).Whole ∧
      (presizedWith calloc sectorSize es).entries.Perm es := by
  obtain ⟨k, hk, hk', hcap, hreach⟩ := presizedCap_reaches (k := 12) (m := 30) 32
    (show max ((es.length * 4 + 2) / 3) pendingInitCap ≤ 2 ^ 30 by rw [pendingInitCap]; omega)
    (by omega) (by omega) (by omega)
  have hcapacity : (pendingCreatePresized es.length).slots.capacity = 2 ^ k := hcap
  have hnone : (pendingCreatePresized es.length).entries = [] := Table.entries_empty _
  unfold presizedWith
  generalize hstart : ({ pendingCreatePresized es.length with sectorSize } : PendingBuf) = pb
  have hslots : pb.slots.capacity = 2 ^ k := by rw [← hstart]; exact hcapacity
  have hempty : pb.entries = [] := by rw [← hstart]; exact hnone
  have hzero : pb.count = 0 := by rw [← hstart]; rfl
  have hwhole : pb.Whole := by
    refine ⟨?_, by simp [hempty], by simp [hempty, hzero], ⟨k, hk, hk', hslots, by simp [hzero]⟩⟩
    rw [← hstart]
    exact Table.settled_empty _
  obtain ⟨hall, hperm⟩ := hwhole.foldl calloc
    (by rw [hslots, hzero]; omega) hnonzero (by rw [hempty]; exact hdistinct)
  rw [hempty, List.nil_append] at hperm
  exact ⟨hall, hperm⟩

theorem presizedWith_reached (calloc : ℕ → Bool) (sectorSize : ℕ) (es : List DedupEntry) :
    (presizedWith calloc sectorSize es).Reached := by
  unfold presizedWith
  generalize hstart : ({ pendingCreatePresized es.length with sectorSize } : PendingBuf) = pb
  have hreached : pb.Reached := by
    rw [← hstart]
    exact .label _ (.presized _)
  clear hstart
  induction es generalizing pb with
  | nil => exact hreached
  | cons e es ih => exact ih _ (.insert calloc e hreached)

theorem pendingStore_sectorSize (pb : PendingBuf) (e : DedupEntry) :
    (pendingStore pb e).sectorSize = pb.sectorSize := by
  unfold pendingStore
  split
  · rfl
  · split <;> rfl

theorem pendingInsert_sectorSize (calloc : ℕ → Bool) (pb : PendingBuf) (e : DedupEntry) :
    (pendingInsert calloc pb e).sectorSize = pb.sectorSize := by
  unfold pendingInsert
  split_ifs
  · rfl
  · cases hgrow : pendingGrow calloc pb with
    | none => rfl
    | some grown =>
      refine (pendingStore_sectorSize grown e).trans ?_
      unfold pendingGrow at hgrow
      simp only at hgrow
      split_ifs at hgrow
      obtain rfl := Option.some.inj hgrow
      rfl
  · exact pendingStore_sectorSize pb e

theorem presizedWith_sectorSize (calloc : ℕ → Bool) (sectorSize : ℕ) (es : List DedupEntry) :
    (presizedWith calloc sectorSize es).sectorSize = sectorSize := by
  unfold presizedWith
  generalize hstart : ({ pendingCreatePresized es.length with sectorSize } : PendingBuf) = pb
  have hsize : pb.sectorSize = sectorSize := by rw [← hstart]
  clear hstart
  induction es generalizing pb with
  | nil => exact hsize
  | cons e es ih => exact ih _ ((pendingInsert_sectorSize calloc pb e).trans hsize)

/-- A buffer of the largest capacity takes no more than `2 ^ 29` entries and then collapses. -/
theorem foldl_pendingInsert_largest (calloc : ℕ → Bool) (es : List DedupEntry) {pb : PendingBuf}
    (hsound : pb.Sound) (hcapacity : pb.slots.capacity = 2 ^ 31 ∨ pb.slots.capacity = 0)
    (hcount : pb.slots.capacity = 2 ^ 31 → pb.count ≤ 2 ^ 29) :
    (es.foldl (pendingInsert calloc) pb).entries.length ≤ 2 ^ 29 := by
  induction es generalizing pb with
  | nil =>
    rcases hcapacity with hcap | hcap
    · exact hsound.length_le.trans (hcount hcap)
    · simp [PendingBuf.entries_of_capacity hcap]
  | cons e es ih =>
    suffices hnext : ((pendingInsert calloc pb e).slots.capacity = 2 ^ 31 ∨
        (pendingInsert calloc pb e).slots.capacity = 0) ∧
        ((pendingInsert calloc pb e).slots.capacity = 2 ^ 31 →
          (pendingInsert calloc pb e).count ≤ 2 ^ 29) from
      ih hsound.insert hnext.1 hnext.2
    unfold pendingInsert
    split_ifs with hhash hfull
    · exact ⟨hcapacity, hcount⟩
    · cases hgrow : pendingGrow calloc pb with
      | none => exact ⟨hcapacity, hcount⟩
      | some grown =>
        obtain ⟨hzero, -, -⟩ := pendingGrow_collapse (by omega) hgrow
        have hnothing : pendingStore grown e = grown := by
          simp [pendingStore, hzero, Table.seek]
        simp only [hnothing]
        exact ⟨.inr hzero, fun hcap ↦ by omega⟩
    · rcases pendingStore_cases (e := e) hsound.settled with
        hsame | ⟨-, hcapacity', -, hcount', -⟩
      · rw [hsame]
        exact ⟨hcapacity, hcount⟩
      · rw [hcapacity', hcount']
        refine ⟨hcapacity, fun hcap ↦ ?_⟩
        have := hcount hcap
        omega

/-- A presized buffer for more entries does not hold all of them. -/
theorem length_presizedWith_lt (calloc : ℕ → Bool) (sectorSize : ℕ)
    (hmany : 3 * 2 ^ 28 < es.length) :
    (presizedWith calloc sectorSize es).entries.length < es.length := by
  have hcap := presizedCap_largest (k := 12) 32
    (show 2 ^ 30 < max ((es.length * 4 + 2) / 3) pendingInitCap by omega) (by omega) (by omega)
  unfold presizedWith
  generalize hstart : ({ pendingCreatePresized es.length with sectorSize } : PendingBuf) = pb
  have hsound : pb.Sound := by
    rw [← hstart]
    exact PendingBuf.Reached.sound (.label _ (.presized _))
  have hcapacity : pb.slots.capacity = 2 ^ 31 := by
    rw [← hstart]
    exact hcap
  have hzero : pb.count = 0 := by
    rw [← hstart]
    rfl
  have hle := foldl_pendingInsert_largest calloc es hsound
    (.inl hcapacity) (fun _ ↦ by rw [hzero]; exact Nat.zero_le _)
  omega

end Presized

end Obmafs3
