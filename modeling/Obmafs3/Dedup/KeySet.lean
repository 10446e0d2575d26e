import Mathlib.Algebra.Group.Nat.Defs
import Obmafs3.Library.SlotLists

/-!
# The key set

The set of the dedup keys in memory: a hash table of a fixed number of slots with a list of the
slots in use, the most recently used one first. `runKeyset_eq` says that its answers are those of a
list of keys that drops its last one when it is full. The key 0 marks an empty slot and is never in
the set.
-/

set_option autoImplicit false

namespace Obmafs3

open Library.SlotLists

/-! ### The source -/

/-- `KEYSET_EMPTY`. -/
def keysetEmpty : UInt64 := 0

/-- `DEDUP_KS_DEFAULT_BYTES`. -/
def keysetDefaultBytes : ℕ := 4 * 1024 * 1024 * 1024

/-- `ks_bucket`. -/
def ksBucket (key : UInt64) (bucketCount : ℕ) : ℕ :=
  ((key * 0x9E3779B97F4A7C15) >>> 32).toUInt32.toNat % bucketCount

/-- `struct dedup_key_set`: the keys of the slots and their links. -/
structure KeySet where
  key : ℕ → UInt64
  pool : Pool
  capacity : ℕ
  bucketCount : ℕ
  count : ℕ

/-- The number of slots for a budget; a slot takes 24 bytes and its two buckets take 8. -/
def keysetCapacity (maxBytes : ℕ) : ℕ :=
  min (max ((if maxBytes = 0 then keysetDefaultBytes else maxBytes) / 32) 1) (2 ^ 32 - 1)

/-- The number of buckets, or all of them where twice the slots overflow. -/
def keysetBucketCount (capacity : ℕ) : ℕ :=
  if capacity * 2 % 2 ^ 32 < capacity then 2 ^ 32 - 1 else capacity * 2 % 2 ^ 32

/-- `keyset_create`. -/
def keysetCreate (maxBytes : ℕ) : KeySet where
  key _ := keysetEmpty
  pool :=
    { next := fun i ↦ if i + 1 < keysetCapacity maxBytes then some (i + 1) else none
      buckets := fun _ ↦ none
      freeHead := some 0
      lru := Links.empty }
  capacity := keysetCapacity maxBytes
  bucketCount := keysetBucketCount (keysetCapacity maxBytes)
  count := 0

/-- `ks_lru_touch`. -/
def ksLruTouch (lru : Links) (idx : ℕ) : Links :=
  if lru.head = some idx then lru
  else
    Links.pushFront
      { prev := store lru.prev (lru.next idx) (lru.prev idx)
        next := store lru.next (lru.prev idx) (lru.next idx)
        head := lru.head
        tail := if lru.next idx = none then lru.prev idx else lru.tail } idx

/-- The tail of the list is taken off it. -/
def ksLruDrop (lru : Links) (idx : ℕ) : Links :=
  { lru with
    next := store lru.next (lru.prev idx) none
    head := if lru.head = some idx then none else lru.head
    tail := lru.prev idx }

namespace KeySet

/-- The bucket of the key in a slot. -/
def bucketOf (ks : KeySet) (idx : ℕ) : ℕ := ksBucket (ks.key idx) ks.bucketCount

/-- The loop along a bucket. -/
def findSlot (ks : KeySet) (key : UInt64) : Option ℕ :=
  ks.pool.find (fun cur ↦ decide (ks.key cur = key)) (ks.capacity + 1)
    (ksBucket key ks.bucketCount)

/-- The least recently used slot is given up, from the list and with `ks_chain_remove` from its
bucket. -/
def evict (ks : KeySet) (idx : ℕ) : KeySet :=
  { ks with
    pool := ks.pool.leave (ks.capacity + 1) (ks.bucketOf idx) idx (ksLruDrop ks.pool.lru idx)
    count := ks.count - 1 }

/-- A slot gets a key. -/
def populate (ks : KeySet) (idx : ℕ) (key : UInt64) : KeySet :=
  { ks with
    key := Function.update ks.key idx key
    pool := ks.pool.enter (ksBucket key ks.bucketCount) idx
    count := ks.count + 1 }

/-- `keyset_insert`. -/
def insert (ks : KeySet) (key : UInt64) : KeySet :=
  if key = keysetEmpty then ks
  else
    match ks.findSlot key with
    | some cur => { ks with pool := { ks.pool with lru := ksLruTouch ks.pool.lru cur } }
    | none =>
      match ks.pool.freeHead with
      | some idx => populate { ks with pool := ks.pool.popFree idx } idx key
      | none =>
        match ks.pool.lru.tail with
        | none => ks
        | some idx => (ks.evict idx).populate idx key

/-- `keyset_contains`. -/
def contains (ks : KeySet) (key : UInt64) : Bool :=
  if key = keysetEmpty then false else (ks.findSlot key).isSome

end KeySet

/-- What is asked of a key set. -/
inductive KeysetCall
  | insert (key : UInt64)
  | contains (key : UInt64)

/-- A run of calls, with the answers to the questions. -/
def runKeyset : List KeysetCall → KeySet → List Bool × KeySet
  | [], ks => ([], ks)
  | .insert key :: calls, ks => runKeyset calls (ks.insert key)
  | .contains key :: calls, ks => ((ks.contains key) :: (runKeyset calls ks).1, (runKeyset calls ks).2)

/-! ### The reference -/

/-- A key comes to the front. When it is new to a full list the last key is dropped. -/
def lruInsert (capacity : ℕ) (key : UInt64) (keys : List UInt64) : List UInt64 :=
  if key ∈ keys then key :: keys.erase key
  else key :: if keys.length < capacity then keys else keys.dropLast

/-- The answers of a list of keys to a run of calls, where `stored` says which keys it takes. -/
def runLru (capacity : ℕ) (stored : UInt64 → Bool) :
    List KeysetCall → List UInt64 → List Bool × List UInt64
  | [], keys => ([], keys)
  | .insert key :: calls, keys =>
    runLru capacity stored calls (if stored key then lruInsert capacity key keys else keys)
  | .contains key :: calls, keys =>
    (decide (key ∈ keys) :: (runLru capacity stored calls keys).1,
      (runLru capacity stored calls keys).2)

/-! ### The links -/

variable {lru : Links} {before after : List ℕ} {i : ℕ}

theorem ksLruTouch_holds (h : lru.Holds (before ++ i :: after)) :
    (ksLruTouch lru i).Holds (i :: (before ++ after)) := by
  obtain ⟨hi, -⟩ := List.nodup_cons.mp (List.nodup_middle.mp h.nodup)
  obtain ⟨hp, hn⟩ := h.around before i after rfl
  rw [ksLruTouch]
  by_cases hhead : lru.head = some i
  · rw [if_pos hhead]
    have hfirst : (before ++ i :: after).head? = some i := h.head ▸ hhead
    cases before with
    | nil => exact h
    | cons k before =>
      obtain rfl := Option.some.inj hfirst
      exact absurd (by simp) hi
  · rw [if_neg hhead]
    refine Links.Holds.pushFront (h.detach ?_ ?_ (fun j _ ↦ ?_) fun j _ ↦ ?_) hi
    · change lru.head = _
      rw [h.head]
      cases before with
      | nil => exact absurd h.head hhead
      | cons k before => rfl
    · change (if lru.next i = none then lru.prev i else lru.tail) = _
      rw [hp, hn, h.tail]
      cases after with
      | nil => simp
      | cons k after =>
        rw [if_neg (by simp)]
        simp
    · rw [← hp, ← hn]
      exact store_apply ..
    · rw [← hp, ← hn]
      exact store_apply ..

theorem ksLruDrop_holds (h : lru.Holds (before ++ [i])) : (ksLruDrop lru i).Holds before := by
  obtain ⟨hp, hn⟩ := h.around before i [] rfl
  have hdrop : (ksLruDrop lru i).Holds (before ++ []) := by
    refine h.detach ?_ ?_ (fun j _ ↦ ?_) fun j _ ↦ ?_
    · change (if lru.head = some i then none else lru.head) = _
      obtain ⟨hi, -⟩ := List.nodup_cons.mp (List.nodup_middle.mp h.nodup)
      rw [h.head]
      cases before with
      | nil => exact if_pos rfl
      | cons k before =>
        refine if_neg fun hk ↦ hi ?_
        obtain rfl := Option.some.inj hk
        simp
    · rw [List.append_nil]
      exact hp
    · rfl
    · rw [← hp]
      exact store_apply ..
  rwa [List.append_nil] at hdrop

/-! ### What a set holds -/

namespace KeySet

variable {ks : KeySet} {slots free : List ℕ} {key : UInt64} {keys : List UInt64}

/-- The slots in use, the most recently used one first, and the free slots. -/
structure Holds (ks : KeySet) (slots free : List ℕ) : Prop where
  pool : ks.pool.Holds ks.bucketOf slots free
  room : slots.length + free.length = ks.capacity
  count : ks.count = slots.length
  distinct : (slots.map ks.key).Nodup
  stored : ∀ i ∈ slots, ks.key i ≠ keysetEmpty

/-- A set with its keys, the most recently used one first. -/
def Stands (ks : KeySet) (keys : List UInt64) : Prop :=
  ∃ slots free, ks.Holds slots free ∧ slots.map ks.key = keys

section

variable (h : ks.Holds slots free)
include h

theorem Holds.fuel : slots.length < ks.capacity + 1 := by
  have hroom := h.room
  omega

theorem Holds.findSlot_some (hfind : ks.findSlot key = some i) : i ∈ slots ∧ ks.key i = key := by
  obtain ⟨hi, hkey⟩ := h.pool.find_some h.fuel hfind
  exact ⟨hi, of_decide_eq_true hkey⟩

theorem Holds.findSlot_none (hfind : ks.findSlot key = none) : key ∉ slots.map ks.key := by
  intro hmem
  obtain ⟨i, hi, rfl⟩ := List.mem_map.mp hmem
  exact absurd (h.pool.find_none h.fuel hfind hi rfl) (by simp)

end

theorem Stands.contains (h : ks.Stands keys) (key : UInt64) :
    ks.contains key = decide (key ∈ keys) := by
  obtain ⟨slots, free, h, rfl⟩ := h
  rw [KeySet.contains]
  split_ifs with hempty
  · subst hempty
    refine (decide_eq_false fun hmem ↦ ?_).symm
    obtain ⟨i, hi, hkey⟩ := List.mem_map.mp hmem
    exact h.stored i hi hkey
  · cases hfind : ks.findSlot key with
    | none => exact (decide_eq_false (h.findSlot_none hfind)).symm
    | some i =>
      obtain ⟨hi, rfl⟩ := h.findSlot_some hfind
      exact (decide_eq_true (List.mem_map_of_mem hi)).symm

/-- A set with a slot that is neither in use nor free. -/
structure Vacant (ks : KeySet) (slots free : List ℕ) (i : ℕ) : Prop where
  pool : ks.pool.Holds ks.bucketOf slots free
  new : i ∉ slots ++ free
  room : slots.length + free.length + 1 = ks.capacity
  count : ks.count = slots.length
  distinct : (slots.map ks.key).Nodup
  stored : ∀ i ∈ slots, ks.key i ≠ keysetEmpty

theorem Holds.popFree (h : ks.Holds slots (i :: free)) :
    Vacant { ks with pool := ks.pool.popFree i } slots free i where
  pool := h.pool.popFree.1
  new := h.pool.popFree.2
  room := h.room
  count := h.count
  distinct := h.distinct
  stored := h.stored

theorem Holds.evict (h : ks.Holds (before ++ [i]) []) : (ks.evict i).Vacant before [] i := by
  have hroom := h.room
  have hcount := h.count
  simp only [List.length_append, List.length_singleton, List.length_nil] at hroom hcount
  have hlru : (ksLruDrop ks.pool.lru i).Holds (before ++ []) := by
    rw [List.append_nil]
    exact ksLruDrop_holds h.pool.lru
  obtain ⟨hpool, hnew⟩ := h.pool.leave hlru (Nat.le_of_lt h.fuel)
  rw [List.append_nil] at hpool hnew
  refine ⟨hpool, hnew, by rw [List.length_nil]; exact hroom, ?_, ?_, fun j hj ↦ ?_⟩
  · change ks.count - 1 = _
    omega
  · have hdistinct := h.distinct
    rw [List.map_append] at hdistinct
    exact (List.nodup_append.mp hdistinct).1
  · exact h.stored j (List.mem_append_left _ hj)

theorem Vacant.populate (h : ks.Vacant slots free i) (hkey : key ∉ slots.map ks.key)
    (hne : key ≠ keysetEmpty) :
    (ks.populate i key).Holds (i :: slots) free ∧
      (i :: slots).map (ks.populate i key).key = key :: slots.map ks.key := by
  have hi : i ∉ slots := fun hi ↦ h.new (List.mem_append_left _ hi)
  have hsame (j : ℕ) (hj : j ∈ slots) : (ks.populate i key).key j = ks.key j := by
    refine Function.update_of_ne ?_ _ _
    rintro rfl
    exact hi hj
  have hself : (ks.populate i key).key i = key := Function.update_self ..
  have hkeys : (i :: slots).map (ks.populate i key).key = key :: slots.map ks.key := by
    rw [List.map_cons, hself, List.map_congr_left hsame]
  refine ⟨⟨?_, ?_, ?_, ?_, ?_⟩, hkeys⟩
  · refine (h.pool.enter (b := ksBucket key ks.bucketCount) h.new).congr fun j hj ↦ ?_
    rw [bucketOf, Function.update_apply]
    split_ifs with hji
    · rw [hji, hself]
      rfl
    · rw [hsame j ((List.mem_cons.mp hj).resolve_left hji)]
      rfl
  · rw [List.length_cons, Nat.add_right_comm]
    exact h.room
  · change ks.count + 1 = _
    rw [h.count, List.length_cons]
  · rw [hkeys]
    exact List.nodup_cons.mpr ⟨hkey, h.distinct⟩
  · intro j hj
    rcases List.mem_cons.mp hj with rfl | hj
    · rwa [hself]
    · rw [hsame j hj]
      exact h.stored j hj

theorem Holds.touch (h : ks.Holds (before ++ i :: after) free) :
    Holds { ks with pool := { ks.pool with lru := ksLruTouch ks.pool.lru i } }
      (i :: (before ++ after)) free where
  pool := h.pool.reorder (ksLruTouch_holds h.pool.lru) fun j ↦ by simp [or_left_comm]
  room := by
    have hroom := h.room
    simp only [List.length_append, List.length_cons] at hroom ⊢
    omega
  count := by
    have hcount := h.count
    simp only [List.length_append, List.length_cons] at hcount ⊢
    omega
  distinct := by
    have hdistinct := h.distinct
    rw [List.map_append, List.map_cons, List.nodup_middle, ← List.map_append] at hdistinct
    exact hdistinct
  stored j hj := h.stored j (by simpa [or_left_comm] using hj)

theorem map_erase {f : ℕ → UInt64} (hdistinct : ((before ++ i :: after).map f).Nodup) :
    ((before ++ i :: after).map f).erase (f i) = (before ++ after).map f := by
  rw [List.map_append, List.map_cons] at hdistinct ⊢
  have hnew : f i ∉ before.map f := fun hmem ↦
    (List.nodup_append.mp hdistinct).2.2 _ hmem _ List.mem_cons_self rfl
  rw [List.erase_append_right _ hnew, List.erase_cons_head, List.map_append]

theorem Stands.insert (h : ks.Stands keys) (hcapacity : 0 < ks.capacity) (hne : key ≠ keysetEmpty) :
    (ks.insert key).Stands (lruInsert ks.capacity key keys) := by
  obtain ⟨slots, free, h, rfl⟩ := h
  rw [KeySet.insert, if_neg hne, lruInsert]
  cases hfind : ks.findSlot key with
  | some i =>
    obtain ⟨hi, rfl⟩ := h.findSlot_some hfind
    obtain ⟨before, after, rfl⟩ := List.append_of_mem hi
    refine ⟨_, free, h.touch, ?_⟩
    rw [if_pos (List.mem_map_of_mem hi), map_erase h.distinct]
    rfl
  | none =>
    have hnew := h.findSlot_none hfind
    have hroom := h.room
    rw [if_neg hnew, List.length_map]
    dsimp only
    rw [h.pool.freeHead_eq]
    cases free with
    | cons i free =>
      rw [List.length_cons] at hroom
      rw [if_pos (by omega)]
      obtain ⟨hholds, hkeys⟩ := h.popFree.populate hnew hne
      exact ⟨_, free, hholds, hkeys⟩
    | nil =>
      rw [List.length_nil] at hroom
      rw [if_neg (by omega)]
      dsimp only [List.head?_nil]
      rw [h.pool.lru.tail]
      rcases List.eq_nil_or_concat slots with rfl | ⟨before, i, rfl⟩
      · rw [List.length_nil] at hroom
        omega
      · rw [List.concat_eq_append] at h hnew ⊢
        rw [List.getLast?_concat, List.map_append, List.map_singleton, List.dropLast_concat]
        have hkept : key ∉ before.map ks.key := fun hmem ↦ hnew (by
          rw [List.map_append]
          exact List.mem_append_left _ hmem)
        obtain ⟨hholds, hkeys⟩ := h.evict.populate hkept hne
        exact ⟨_, [], hholds, hkeys⟩

theorem capacity_insert (ks : KeySet) (key : UInt64) : (ks.insert key).capacity = ks.capacity := by
  rw [KeySet.insert]
  split_ifs
  · rfl
  · cases ks.findSlot key with
    | some i => rfl
    | none =>
      dsimp only
      cases ks.pool.freeHead with
      | some i => rfl
      | none => cases ks.pool.lru.tail <;> rfl

end KeySet

/-! ### Runs -/

theorem keysetCapacity_pos (maxBytes : ℕ) : 0 < keysetCapacity maxBytes := by
  unfold keysetCapacity
  omega

theorem keysetCreate_stands (maxBytes : ℕ) : (keysetCreate maxBytes).Stands [] := by
  obtain ⟨n, hn⟩ := Nat.exists_eq_add_of_le' (keysetCapacity_pos maxBytes)
  refine ⟨[], List.range' 0 (n + 1), ⟨⟨Links.holds_empty, fun b ↦ ⟨[], rfl, List.nodup_nil, ?_⟩, ?_,
    ?_⟩, ?_, rfl, List.nodup_nil, nofun⟩, rfl⟩
  · exact fun i ↦ iff_of_false List.not_mem_nil fun h ↦ List.not_mem_nil h.1
  · change Chain (fun i ↦ if i + 1 < keysetCapacity maxBytes then some (i + 1) else none) _ _
    have hfresh := Chain.fresh 0 n
    rw [Nat.zero_add] at hfresh
    rw [hn]
    exact hfresh
  · exact List.nodup_range'
  · rw [List.length_nil, Nat.zero_add, List.length_range']
    exact hn.symm

/-- The set answers like the list, for every run and from every set that stands for a list. -/
theorem KeySet.Stands.run {ks : KeySet} {keys : List UInt64} (h : ks.Stands keys)
    (hcapacity : 0 < ks.capacity) (calls : List KeysetCall) :
    (runKeyset calls ks).1 = (runLru ks.capacity (· ≠ keysetEmpty) calls keys).1 ∧
      (runKeyset calls ks).2.Stands (runLru ks.capacity (· ≠ keysetEmpty) calls keys).2 ∧
      (runKeyset calls ks).2.capacity = ks.capacity := by
  induction calls generalizing ks keys with
  | nil => exact ⟨rfl, h, rfl⟩
  | cons call calls ih =>
    cases call with
    | insert key =>
      rw [runKeyset, runLru]
      by_cases hempty : key = keysetEmpty
      · rw [KeySet.insert, if_pos hempty, if_neg (by simpa using hempty)]
        exact ih h hcapacity
      · rw [if_pos (by simpa using hempty)]
        have hrest := ih (h.insert hcapacity hempty) (ks.capacity_insert key ▸ hcapacity)
        rwa [ks.capacity_insert key] at hrest
    | contains key =>
      obtain ⟨hanswers, hrest⟩ := ih h hcapacity
      exact ⟨congrArg₂ List.cons (h.contains key) hanswers, hrest⟩

end Obmafs3
