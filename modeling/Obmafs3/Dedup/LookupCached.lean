import Obmafs3.Dedup.Housekeeping

/-!
# Cached lookups of hashes

A read call looks up the hashes of its sectors one after the other. A lookup asks the pending
buffers, then the lookup cache of all trees, then the leaf that an earlier lookup of the call came
to, and only then descends the tree. A leaf whose first and last hash enclose the hash answers also
that the hash is not there. The call holds the tree lock, so that no write comes in between, and
starts without a leaf. Node reads succeed here.

Between the calls, insertions and drains go on and the cache is filled by all of them.
`lookup_cached` compares the answer of a lookup with a linear search.
-/

set_option autoImplicit false

namespace Obmafs3

open Library.Search Library.SearchTree Library.Probing

/-! ### The lookup cache -/

/-- `DEDUP_LC_CAPACITY`. -/
def dedupLcCapacity : ℕ := 8388608

/-- `struct dedup_lookup_cache`: entries with their trees, the most recently used one first. -/
abbrev LookupCache := List (ℕ × DedupEntry)

/-- `dedup_lc_get`. -/
def dedupLcGet (dlc : LookupCache) (tree hash : ℕ) : Option DedupEntry × LookupCache :=
  match dlc.find? fun n ↦ n.1 = tree ∧ n.2.hash = hash with
  | some n => (some n.2, n :: dlc.erase n)
  | none => (none, dlc)

/-- `dedup_lc_put`. -/
def dedupLcPut (dlc : LookupCache) (tree : ℕ) (e : DedupEntry) : LookupCache :=
  match dlc.find? fun n ↦ n.1 = tree ∧ n.2.hash = e.hash with
  | some n => n :: dlc.erase n
  | none => (tree, e) :: if dlc.length < dedupLcCapacity then dlc else dlc.dropLast

variable {e : DedupEntry}

variable {dlc dlc' : LookupCache} {pb : Option PendingBuf} {n : ℕ × DedupEntry} {tree hash : ℕ}

theorem mem_dedupLcPut {dlc : LookupCache} {tree : ℕ} (hn : n ∈ dedupLcPut dlc tree e) :
    n = (tree, e) ∨ n ∈ dlc := by
  unfold dedupLcPut at hn
  split at hn
  · rename_i m hm
    rcases List.mem_cons.mp hn with rfl | hn
    · exact .inr (List.mem_of_find?_eq_some hm)
    · exact .inr (List.mem_of_mem_erase hn)
  · rcases List.mem_cons.mp hn with rfl | hn
    · exact .inl rfl
    · split_ifs at hn
      · exact .inr hn
      · exact .inr ((List.dropLast_sublist _).subset hn)

theorem dedupLcGet_some (hget : dedupLcGet dlc tree hash = (some e, dlc')) :
    (tree, e) ∈ dlc ∧ e.hash = hash := by
  unfold dedupLcGet at hget
  split at hget
  · rename_i n hn
    obtain ⟨he, -⟩ := Prod.mk.inj hget
    obtain rfl := Option.some.inj he
    have hkey : n.1 = tree ∧ n.2.hash = hash := by simpa using List.find?_some hn
    exact ⟨hkey.1 ▸ List.mem_of_find?_eq_some hn, hkey.2⟩
  · cases hget

theorem mem_dedupLcGet {found : Option DedupEntry} (hget : dedupLcGet dlc tree hash = (found, dlc'))
    (hn : n ∈ dlc') : n ∈ dlc := by
  unfold dedupLcGet at hget
  split at hget
  · rename_i m hm
    obtain ⟨-, rfl⟩ := Prod.mk.inj hget
    rcases List.mem_cons.mp hn with rfl | hn
    · exact List.mem_of_find?_eq_some hm
    · exact List.mem_of_mem_erase hn
  · obtain ⟨-, rfl⟩ := Prod.mk.inj hget
    exact hn

/-! ### Lookups -/

/-- The lookup cache, if there is one, and the entries of the leaf that the call has kept. -/
structure LookupState where
  dlc : Option LookupCache
  leaf : List DedupEntry

def LookupState.get (ls : LookupState) (tree hash : ℕ) : Option DedupEntry × LookupState :=
  match ls.dlc with
  | none => (none, ls)
  | some dlc => ((dedupLcGet dlc tree hash).1, { ls with dlc := some (dedupLcGet dlc tree hash).2 })

def LookupState.put (ls : LookupState) (tree : ℕ) (e : DedupEntry) : LookupState :=
  { ls with dlc := ls.dlc.map fun dlc ↦ dedupLcPut dlc tree e }

/-- The hash lies between the first and the last one of the leaf. -/
def leafCovers (leaf : List DedupEntry) (hash : ℕ) : Bool :=
  match leaf.head?, leaf.getLast? with
  | some first, some last => first.hash ≤ hash && hash ≤ last.hash
  | _, _ => false

/-- `dedup_leaf_cache_search`, the binary search of a leaf. -/
def dedupLeafSearch (leaf : List DedupEntry) (hash : ℕ) : Option DedupEntry :=
  match leafFind (leaf.map DedupEntry.hash) hash with
  | .found i => leaf[i]?
  | .absent _ => none

/-- The entries of the leaf that a descent for a hash comes to. -/
def dedupFindLeaf (tree : DedupTree) (hash : ℕ) : List DedupEntry :=
  match tree with
  | .empty => []
  | .node height t => reached hash height t

/-- `obmafs3_dedup_lookup` for the tree of a sector size, with the buffers. -/
def lookupPlain (st : AsyncState) (sectorSize hash : ℕ) : Option DedupEntry :=
  match st.pending.bind (pendingLookup · hash) with
  | some e => some e
  | none =>
    match st.draining.bind (pendingLookup · hash) with
    | some e => some e
    | none => dedupLookup (st.tree sectorSize) hash

/-- The part of `dedup_lookup_cached` behind the pending buffers. -/
def dedupLookupTree (st : AsyncState) (sectorSize hash : ℕ) (ls : LookupState) :
    Option DedupEntry × LookupState :=
  match ls.get sectorSize hash with
  | (some e, ls) => (some e, ls)
  | (none, ls) =>
    if leafCovers ls.leaf hash then
      match dedupLeafSearch ls.leaf hash with
      | some e => (some e, ls.put sectorSize e)
      | none => (none, ls)
    else
      let leaf := dedupFindLeaf (st.tree sectorSize) hash
      match dedupLeafSearch leaf hash with
      | some e => (some e, ({ ls with leaf }).put sectorSize e)
      | none => (none, { ls with leaf })

/-- `dedup_lookup_cached`, for the tree of a sector size. -/
def dedupLookupCached (st : AsyncState) (sectorSize hash : ℕ) (ls : LookupState) :
    Option DedupEntry × LookupState :=
  match st.pending.bind (pendingLookup · hash) with
  | some e => (some e, ls)
  | none =>
    match st.draining.bind (pendingLookup · hash) with
    | some e => (some e, ls)
    | none => dedupLookupTree st sectorSize hash ls

/-- The lookups of a read call. -/
def lookupAll (st : AsyncState) (sectorSize : ℕ) (hashes : List ℕ) (ls : LookupState) : LookupState :=
  hashes.foldl (fun ls hash ↦ (dedupLookupCached st sectorSize hash ls).2) ls

/-- The entries of a buffer that belong to a sector size. -/
def ownEntries (sectorSize : ℕ) (pb : Option PendingBuf) : List DedupEntry :=
  if bufSectorSize pb = sectorSize then bufEntries pb else []

/-- A search of all entries of a sector size, in the pending buffers and in the tree. -/
def linearSearch (st : AsyncState) (sectorSize hash : ℕ) : Option DedupEntry :=
  (ownEntries sectorSize st.pending ++ ownEntries sectorSize st.draining ++
    (st.tree sectorSize).records).find? (·.hash = hash)

/-- A buffer that holds the hash belongs to the sector size. -/
def OwnHash (st : AsyncState) (sectorSize hash : ℕ) : Prop :=
  ∀ pb, st.pending = some pb ∨ st.draining = some pb → (∃ e ∈ pb.entries, e.hash = hash) →
    pb.sectorSize = sectorSize

/-! ### Searches by a hash -/

theorem find?_eq_of_unique {es : List DedupEntry} (he : e ∈ es)
    (hunique : ∀ x ∈ es, x.hash = e.hash → x = e) : es.find? (·.hash = e.hash) = some e := by
  cases hfind : es.find? (·.hash = e.hash) with
  | none =>
    have hdiffers := List.find?_eq_none.mp hfind e he
    simp at hdiffers
  | some x =>
    have hkey : x.hash = e.hash := by simpa using List.find?_some hfind
    rw [hunique x (List.mem_of_find?_eq_some hfind) hkey]

/-- A lookup in a buffer is a search of its entries. -/
theorem pendingLookup_eq {pb : PendingBuf} (hwhole : pb.Whole) (hash : ℕ) :
    pendingLookup pb hash = pb.entries.find? (·.hash = hash) := by
  unfold pendingLookup
  split_ifs with hzero
  · refine (List.find?_eq_none.mpr fun e he ↦ ?_).symm
    simpa [hzero] using hwhole.nonzero e he
  · cases hfind : pb.slots.find DedupEntry.hash pendingHash hash with
    | none =>
      refine (List.find?_eq_none.mpr fun e he ↦ ?_).symm
      simpa using (Table.find_eq_none_iff hwhole.settled).mp hfind e he
    | some e =>
      obtain ⟨hmem, rfl⟩ := (Table.find_eq_some_iff hwhole.settled).mp hfind
      refine (find?_eq_of_unique hmem fun x hx hkey ↦ ?_).symm
      exact List.inj_on_of_nodup_map hwhole.settled.nodup hx hmem hkey

theorem bind_pendingLookup (hwhole : ∀ pb', pb = some pb' → pb'.Whole) (hash : ℕ) :
    pb.bind (pendingLookup · hash) = (bufEntries pb).find? (·.hash = hash) := by
  cases pb with
  | none => rfl
  | some pb' => exact pendingLookup_eq (hwhole pb' rfl) hash

/-- When a buffer that holds the hash belongs to the sector size, all that the buffer has of the
hash is its own. -/
theorem find?_ownEntries {sectorSize hash : ℕ}
    (hown : ∀ pb', pb = some pb' → (∃ e ∈ pb'.entries, e.hash = hash) → pb'.sectorSize = sectorSize)
    : (ownEntries sectorSize pb).find? (·.hash = hash) = (bufEntries pb).find? (·.hash = hash) := by
  cases pb with
  | none => simp [ownEntries, bufEntries]
  | some pb' =>
    by_cases hsame : bufSectorSize (some pb') = sectorSize
    · rw [ownEntries, if_pos hsame]
    · rw [ownEntries, if_neg hsame]
      refine (List.find?_eq_none.mpr fun e he ↦ ?_).symm
      have : e.hash ≠ hash := fun hkey ↦ hsame (hown pb' rfl ⟨e, he, hkey⟩)
      simpa using this

section Tree

variable {tree : DedupTree} {hash : ℕ}

section

variable (hordered : tree.Ordered DedupEntry.hash)
include hordered

theorem dedupLookup_of_mem {e : DedupEntry}
    (he : e ∈ tree.records) : dedupLookup tree e.hash = some e := by
  refine (Root.lookup_eq hordered e.hash).trans (find?_eq_of_unique he fun x hx hkey ↦ ?_)
  cases tree with
  | empty => cases he
  | node height t =>
    have hsorted : ((records height t).map DedupEntry.hash).Pairwise (· < ·) :=
      Ordered.records_pairwise hordered
    exact List.inj_on_of_nodup_map (hsorted.imp Nat.ne_of_lt) hx he hkey

theorem dedupLookup_eq_leaf :
    dedupLookup tree hash = dedupLeafSearch (dedupFindLeaf tree hash) hash := by
  cases tree with
  | empty => rfl
  | node height t => exact lookup_reached (Ordered.solid hordered) 0

/-- A leaf of the tree answers for the hashes that it covers. -/
theorem dedupLookup_of_covers {a : ℕ}
    {leaf : List DedupEntry} (hleaf : (a, leaf) ∈ tree.leaves) (hcovers : leafCovers leaf hash) :
    dedupLookup tree hash = dedupLeafSearch leaf hash := by
  cases tree with
  | empty => cases hleaf
  | node height t =>
    have hsorted : (leaf.map DedupEntry.hash).Pairwise (· < ·) := Ordered.leaf_pairwise hordered hleaf
    unfold leafCovers at hcovers
    split at hcovers
    · rename_i first last hfirst hlast
      rw [Bool.and_eq_true] at hcovers
      calc dedupLookup (.node height t) hash
          = (records height t).find? (·.hash = hash) := Library.SearchTree.lookup_eq hordered hash
        _ = leaf.find? (·.hash = hash) := find?_leaf hordered hleaf (List.mem_of_head? hfirst)
            (List.mem_of_getLast? hlast) (of_decide_eq_true hcovers.1) (of_decide_eq_true hcovers.2)
        _ = dedupLeafSearch leaf hash := (leaf_lookup_eq (κ := ℕ) hsorted hash a).symm
    · cases hcovers

end

end Tree

/-! ### What a lookup answers -/

/-- An entry of a sector size is stored, or in the tree. -/
def Known (st : AsyncState) (n : ℕ × DedupEntry) : Prop :=
  n ∈ st.stored ∨ dedupLookup (st.tree n.1) n.2.hash = some n.2

/-- The lookup cache has only known entries, and the leaf is one of the tree. -/
structure LookupState.Coherent (st : AsyncState) (sectorSize : ℕ) (ls : LookupState) : Prop where
  cached : ∀ dlc, ls.dlc = some dlc → ∀ n ∈ dlc, Known st n
  leaf : ls.leaf ≠ [] → ∃ a, (a, ls.leaf) ∈ (st.tree sectorSize).leaves

section Lookups

variable {st : AsyncState} {sectorSize hash : ℕ} {ls : LookupState}

theorem AsyncState.Intact.linearSearch_eq (hintact : st.Intact) (hown : OwnHash st sectorSize hash) :
    linearSearch st sectorSize hash = lookupPlain st sectorSize hash := by
  have hpending := bind_pendingLookup (fun pb hpb ↦ (hintact.pending pb hpb).whole) hash
  have hdraining := bind_pendingLookup (fun pb hpb ↦ (hintact.draining pb hpb).whole) hash
  have htree : dedupLookup (st.tree sectorSize) hash =
      (st.tree sectorSize).records.find? (·.hash = hash) := Root.lookup_eq (hintact.ordered _) hash
  unfold linearSearch lookupPlain
  rw [List.find?_append, List.find?_append, find?_ownEntries fun pb hpb ↦ hown pb (.inl hpb),
    find?_ownEntries fun pb hpb ↦ hown pb (.inr hpb), hpending, hdraining, htree]
  cases (bufEntries st.pending).find? (·.hash = hash) with
  | some e => rfl
  | none => cases (bufEntries st.draining).find? (·.hash = hash) <;> rfl

/-- What a lookup finds is known to the sector size. -/
theorem AsyncState.Intact.known (hintact : st.Intact) (hown : OwnHash st sectorSize hash)
    {e : DedupEntry} (hfound : lookupPlain st sectorSize hash = some e) :
    Known st (sectorSize, e) ∧ e.hash = hash := by
  rw [← hintact.linearSearch_eq hown] at hfound
  have hkey : e.hash = hash := by simpa using List.find?_some hfound
  have hbuffer (pb : Option PendingBuf) (he : e ∈ ownEntries sectorSize pb)
      (hlabelled : ∀ pb', pb = some pb' → Labelled st.stored pb') : Known st (sectorSize, e) := by
    unfold ownEntries at he
    split_ifs at he with hsame
    · cases pb with
      | none => cases he
      | some pb' => exact .inl (hsame ▸ (hlabelled pb' rfl).stored e he)
    · cases he
  refine ⟨?_, hkey⟩
  rcases List.mem_append.mp (List.mem_of_find?_eq_some hfound) with hmem | hmem
  · rcases List.mem_append.mp hmem with hmem | hmem
    · exact hbuffer _ hmem hintact.pending
    · exact hbuffer _ hmem hintact.draining
  · exact .inr (dedupLookup_of_mem (hintact.ordered _) hmem)

/-- A stored entry is found, and by no other sector size. -/
theorem AsyncState.Intact.find_stored (hintact : st.Intact) {p : ℕ × DedupEntry} (hp : p ∈ st.stored) :
    OwnHash st p.1 p.2.hash ∧ linearSearch st p.1 p.2.hash = some p.2 := by
  have hbuffer (pb : PendingBuf) (hlabelled : Labelled st.stored pb) (e : DedupEntry)
      (he : e ∈ pb.entries) (hkey : e.hash = p.2.hash) : (pb.sectorSize, e) = p :=
    hintact.eq_of_hash (hlabelled.stored e he) hp hkey
  have howned (pb : Option PendingBuf) (hlabelled : ∀ pb', pb = some pb' → Labelled st.stored pb')
      (x : DedupEntry) (hx : x ∈ ownEntries p.1 pb) (hkey : x.hash = p.2.hash) : x = p.2 := by
    unfold ownEntries at hx
    split_ifs at hx with hsame
    · cases pb with
      | none => cases hx
      | some pb' => exact congrArg Prod.snd (hbuffer pb' (hlabelled pb' rfl) x hx hkey)
    · cases hx
  constructor
  · rintro pb (hpb | hpb) ⟨e, he, hkey⟩
    · exact congrArg Prod.fst (hbuffer pb (hintact.pending pb hpb) e he hkey)
    · exact congrArg Prod.fst (hbuffer pb (hintact.draining pb hpb) e he hkey)
  · refine find?_eq_of_unique ?_ fun x hx hkey ↦ ?_
    · rcases hintact.held p hp with ⟨pb, hpb, hlabel, hmem⟩ | ⟨pb, hpb, hlabel, hmem⟩ | htree
      · refine List.mem_append_left _ (List.mem_append_left _ ?_)
        rw [ownEntries, hpb, if_pos (show bufSectorSize (some pb) = p.1 from hlabel)]
        exact hmem
      · refine List.mem_append_left _ (List.mem_append_right _ ?_)
        rw [ownEntries, hpb, if_pos (show bufSectorSize (some pb) = p.1 from hlabel)]
        exact hmem
      · exact List.mem_append_right _
          (List.mem_of_find?_eq_some ((Root.lookup_eq (hintact.ordered _) _).symm.trans htree))
    · rcases List.mem_append.mp hx with hx | hx
      · rcases List.mem_append.mp hx with hx | hx
        · exact howned _ hintact.pending x hx hkey
        · exact howned _ hintact.draining x hx hkey
      · refine hintact.agrees p hp x ?_
        rw [← hkey]
        exact dedupLookup_of_mem (hintact.ordered _) hx

theorem LookupState.Coherent.put (hcoherent : ls.Coherent st sectorSize) {e : DedupEntry}
    (hknown : Known st (sectorSize, e)) : (ls.put sectorSize e).Coherent st sectorSize := by
  refine ⟨fun dlc hdlc n hn ↦ ?_, hcoherent.leaf⟩
  obtain ⟨dlc', hdlc', rfl⟩ := Option.map_eq_some_iff.mp hdlc
  rcases mem_dedupLcPut hn with rfl | hn
  · exact hknown
  · exact hcoherent.cached dlc' hdlc' n hn

theorem LookupState.Coherent.get (hcoherent : ls.Coherent st sectorSize) {ls' : LookupState}
    {found : Option DedupEntry} (hget : ls.get sectorSize hash = (found, ls')) :
    ls'.Coherent st sectorSize ∧ ls'.leaf = ls.leaf ∧
      ∀ e, found = some e → Known st (sectorSize, e) ∧ e.hash = hash := by
  unfold LookupState.get at hget
  cases hdlc : ls.dlc with
  | none =>
    simp only [hdlc] at hget
    obtain ⟨rfl, rfl⟩ := Prod.mk.inj hget
    exact ⟨hcoherent, rfl, nofun⟩
  | some dlc =>
    simp only [hdlc] at hget
    obtain ⟨rfl, rfl⟩ := Prod.mk.inj hget
    refine ⟨⟨fun dlc' hdlc' n hn ↦ ?_, hcoherent.leaf⟩, rfl, fun e he ↦ ?_⟩
    · obtain rfl := Option.some.inj hdlc'
      exact hcoherent.cached dlc hdlc n (mem_dedupLcGet rfl hn)
    · obtain ⟨hmem, hkey⟩ := dedupLcGet_some (Prod.ext he rfl)
      exact ⟨hcoherent.cached dlc hdlc _ hmem, hkey⟩

variable (hintact : st.Intact) (hcoherent : ls.Coherent st sectorSize)
include hintact hcoherent

/-- Behind the buffers a lookup answers as the tree does. -/
theorem dedupLookupTree_spec (hpending : ∀ e ∈ bufEntries st.pending, e.hash ≠ hash)
    (hdraining : ∀ e ∈ bufEntries st.draining, e.hash ≠ hash) :
    (dedupLookupTree st sectorSize hash ls).1 = dedupLookup (st.tree sectorSize) hash ∧
      (dedupLookupTree st sectorSize hash ls).2.Coherent st sectorSize := by
  have hordered := hintact.ordered sectorSize
  unfold dedupLookupTree
  rcases hget : ls.get sectorSize hash with ⟨found, ls'⟩
  obtain ⟨hcoherent', hleaf, hfound⟩ := hcoherent.get hget
  cases found with
  | some e =>
    obtain ⟨hstored | htree, rfl⟩ := hfound e rfl
    · rcases hintact.held _ hstored with ⟨pb, hpb, -, hmem⟩ | ⟨pb, hpb, -, hmem⟩ | htree
      · exact absurd rfl (hpending e (by rw [hpb]; exact hmem))
      · exact absurd rfl (hdraining e (by rw [hpb]; exact hmem))
      · exact ⟨htree.symm, hcoherent'⟩
    · exact ⟨htree.symm, hcoherent'⟩
  | none =>
    -- What a search of the right leaf finds may go into the cache.
    have hanswer (ls'' : LookupState) (hls : ls''.Coherent st sectorSize) (leaf : List DedupEntry)
        (hright : dedupLookup (st.tree sectorSize) hash = dedupLeafSearch leaf hash)
        (e : DedupEntry) (he : dedupLeafSearch leaf hash = some e) :
        (ls''.put sectorSize e).Coherent st sectorSize := by
      rw [he] at hright
      have hkey : e.hash = hash := by
        simpa using List.find?_some ((Root.lookup_eq hordered hash).symm.trans hright)
      exact hls.put (.inr (hkey ▸ hright))
    by_cases hcovers : leafCovers ls'.leaf hash
    · simp only [hcovers, if_true]
      obtain ⟨a, hmem⟩ := hcoherent'.leaf (by rintro hnil; simp [leafCovers, hnil] at hcovers)
      have hright := dedupLookup_of_covers hordered hmem hcovers
      cases hsearch : dedupLeafSearch ls'.leaf hash with
      | some e => exact ⟨(hright.trans hsearch).symm, hanswer ls' hcoherent' _ hright e hsearch⟩
      | none => exact ⟨(hright.trans hsearch).symm, hcoherent'⟩
    · simp only [hcovers, if_false, Bool.false_eq_true]
      have hright : dedupLookup (st.tree sectorSize) hash =
          dedupLeafSearch (dedupFindLeaf (st.tree sectorSize) hash) hash := dedupLookup_eq_leaf hordered
      have hkept : LookupState.Coherent st sectorSize
          { ls' with leaf := dedupFindLeaf (st.tree sectorSize) hash } := by
        refine ⟨hcoherent'.cached, fun hne ↦ ?_⟩
        cases htree : st.tree sectorSize with
        | empty => simp [htree, dedupFindLeaf] at hne
        | node height t =>
          rw [htree] at hordered
          exact reached_mem_leaves (Ordered.solid hordered)
      cases hsearch : dedupLeafSearch (dedupFindLeaf (st.tree sectorSize) hash) hash with
      | some e => exact ⟨(hright.trans hsearch).symm, hanswer _ hkept _ hright e hsearch⟩
      | none => exact ⟨(hright.trans hsearch).symm, hkept⟩

/-- A cached lookup answers as a plain one does. -/
theorem dedupLookupCached_spec :
    (dedupLookupCached st sectorSize hash ls).1 = lookupPlain st sectorSize hash ∧
      (dedupLookupCached st sectorSize hash ls).2.Coherent st sectorSize := by
  have hpending := bind_pendingLookup (fun pb hpb ↦ (hintact.pending pb hpb).whole) hash
  have hdraining := bind_pendingLookup (fun pb hpb ↦ (hintact.draining pb hpb).whole) hash
  unfold dedupLookupCached lookupPlain
  cases hfound : st.pending.bind (pendingLookup · hash) with
  | some e => exact ⟨rfl, hcoherent⟩
  | none =>
    cases hfound' : st.draining.bind (pendingLookup · hash) with
    | some e => exact ⟨rfl, hcoherent⟩
    | none =>
      rw [hfound] at hpending
      rw [hfound'] at hdraining
      refine dedupLookupTree_spec hintact hcoherent (fun e he ↦ ?_) fun e he ↦ ?_
      · simpa using List.find?_eq_none.mp hpending.symm e he
      · simpa using List.find?_eq_none.mp hdraining.symm e he

theorem LookupState.Coherent.lookupAll {hashes : List ℕ} :
    (lookupAll st sectorSize hashes ls).Coherent st sectorSize := by
  induction hashes generalizing ls with
  | nil => exact hcoherent
  | cons hash hashes ih => exact ih (dedupLookupCached_spec hintact hcoherent).2

end Lookups

/-! ### Runs -/

/-- The trees with their buffers, and the lookup cache. -/
structure CachedState where
  async : AsyncState
  dlc : Option LookupCache

/-- What a thread does next: a step of the insertion, a read call, the lookup with which a writer
guards a sector whose location it does not know, or one leaf of the walk that fills the cache. -/
inductive CachedStep
  | async (step : AsyncStep)
  | read (sectorSize : ℕ) (hashes : List ℕ)
  | guard (sectorSize hash : ℕ)
  | warm (sectorSize i : ℕ)

def CachedState.putAll (cs : CachedState) (sectorSize : ℕ) (es : List DedupEntry) : CachedState :=
  { cs with dlc := cs.dlc.map fun dlc ↦ es.foldl (dedupLcPut · sectorSize ·) dlc }

section Runs

variable (blockSize : ℕ)

/-- The entries that `housekeeping_drain_batch` has put into the tree and the cache. -/
def drainedEntries (attempt : DedupEntry → Attempt) : List DedupEntry → DedupTree → List DedupEntry
  | [], _ => []
  | e :: es, tree =>
    match (attempt e).readError with
    | some error => if error = .badMagic then drainedEntries attempt es tree else []
    | none =>
      match dedupUpsert blockSize (attempt e).fresh e tree with
      | (none, tree') =>
        if dedupLookup tree e.hash = none then e :: drainedEntries attempt es tree'
        else drainedEntries attempt es tree'
      | (some _, _) => []

/-- The puts of a step into the lookup cache. -/
def drained : AsyncStep → AsyncState → ℕ × List DedupEntry
  | .batch getTree attempt, st =>
    match st.draining, st.cycle with
    | some drain, some cycle =>
      if getTree then
        (drain.sectorSize, drainedEntries blockSize attempt
          (cycle.remaining.take housekeepingBatchSize) (st.tree drain.sectorSize))
      else (0, [])
    | _, _ => (0, [])
  | _, _ => (0, [])

def CachedStep.run : CachedStep → CachedState → Option CachedState
  | .async step, cs =>
    (step.run blockSize cs.async).map fun st ↦
      CachedState.putAll ⟨st, cs.dlc⟩ (drained blockSize step cs.async).1
        (drained blockSize step cs.async).2
  | .read sectorSize hashes, cs =>
    some { cs with dlc := (lookupAll cs.async sectorSize hashes ⟨cs.dlc, []⟩).dlc }
  | .guard sectorSize hash, cs =>
    some (cs.putAll sectorSize (lookupPlain cs.async sectorSize hash).toList)
  | .warm sectorSize i, cs =>
    match cs.dlc, (cs.async.tree sectorSize).leaves[i]? with
    | some dlc, some leaf =>
      if dlc.length < dedupLcCapacity then some (cs.putAll sectorSize leaf.2) else none
    | _, _ => none

def runCached : List CachedStep → CachedState → Option CachedState
  | [], cs => some cs
  | step :: steps, cs => (step.run blockSize cs).bind (runCached steps)

/-- A step that loses no entry and puts none into the cache under a foreign sector size. -/
def CachedStep.Careful : CachedStep → CachedState → Prop
  | .async step, cs => step.Careful blockSize cs.async
  | .read _ _, _ => True
  | .guard sectorSize hash, cs => OwnHash cs.async sectorSize hash
  | .warm _ _, _ => True

def AllCachedCareful : List CachedStep → CachedState → Prop
  | [], _ => True
  | step :: steps, cs =>
    step.Careful blockSize cs ∧ ∀ cs', step.run blockSize cs = some cs' → AllCachedCareful steps cs'

end Runs

/-- The lookup cache has only known entries. -/
structure CachedState.Intact (cs : CachedState) : Prop where
  async : cs.async.Intact
  cached : ∀ dlc, cs.dlc = some dlc → ∀ n ∈ dlc, Known cs.async n

section Steps

variable {blockSize : ℕ} {st st' : AsyncState} {cs cs' : CachedState} {sectorSize hash : ℕ}
  {e : DedupEntry} {n : ℕ × DedupEntry}

theorem CachedState.Intact.putAll (hintact : cs.Intact) {es : List DedupEntry}
    (hknown : ∀ e ∈ es, Known cs.async (sectorSize, e)) : (cs.putAll sectorSize es).Intact := by
  refine ⟨hintact.async, fun dlc hdlc ↦ ?_⟩
  obtain ⟨dlc', hdlc', rfl⟩ := Option.map_eq_some_iff.mp hdlc
  have hcached := hintact.cached dlc' hdlc'
  clear hdlc hdlc'
  induction es generalizing dlc' with
  | nil => exact hcached
  | cons e es ih =>
    obtain ⟨he, hes⟩ := List.forall_mem_cons.mp hknown
    refine ih hes _ fun n hn ↦ ?_
    rcases mem_dedupLcPut hn with rfl | hn
    · exact he
    · exact hcached n hn

theorem CachedState.Intact.coherent (hintact : cs.Intact) (sectorSize : ℕ) :
    LookupState.Coherent cs.async sectorSize ⟨cs.dlc, []⟩ :=
  ⟨hintact.cached, fun hne ↦ absurd rfl hne⟩

/-! ### What is known stays known -/

theorem Known.grow {tree' : DedupTree} (hknown : Known st n)
    (hkeeps : ∀ hash x, dedupLookup (st.tree sectorSize) hash = some x →
      dedupLookup tree' hash = some x) :
    Known { st with tree := Function.update st.tree sectorSize tree' } n := by
  refine hknown.imp id fun htree ↦ ?_
  by_cases hsame : n.1 = sectorSize
  · rw [hsame] at htree ⊢
    simp only [Function.update_self]
    exact hkeeps _ _ htree
  · simp only [Function.update_of_ne hsame]
    exact htree

theorem dedupUpsert_keeps (hroom : Roomful blockSize) {tree : DedupTree}
    (hordered : tree.Ordered DedupEntry.hash) {fresh : ℕ → Option ℕ}
    (hharmless : Harmless blockSize tree ⟨e, fresh⟩) {x : DedupEntry}
    (hfound : dedupLookup tree hash = some x) :
    dedupLookup (dedupUpsert blockSize fresh e tree).2 hash = some x := by
  have hlookup := dedupLookup_dedupUpsert hroom hordered hharmless
  simp only at hlookup
  rw [hlookup]
  split_ifs with hnew
  · rw [Function.update_of_ne, hfound]
    rintro rfl
    rw [hnew.2] at hfound
    cases hfound
  · exact hfound

variable {attempt : DedupEntry → Attempt} {env : WriteEnv}

section

variable (hroom : Roomful blockSize)
include hroom

section

variable (hintact : st.Intact)
include hintact

theorem Known.insertNow (hcareful : CarefulNow blockSize env sectorSize e st) (hknown : Known st n)
    : Known (insertNow blockSize env sectorSize e st) n := by
  unfold Obmafs3.insertNow
  cases hread : (env.attempt e).readError with
  | some error => exact hknown
  | none =>
    have hgrown := hknown.grow fun hash x hfound ↦
      dedupUpsert_keeps hroom (hintact.ordered sectorSize) (hcareful hread).1 hfound
    refine hgrown.imp (fun hstored ↦ ?_) id
    simp only
    split_ifs
    · exact List.mem_cons_of_mem _ hstored
    · exact hstored

theorem Known.handOff {pb : PendingBuf}
    (hpending : st.pending = some pb) (hready : BufferReady blockSize env sectorSize st pb)
    (hknown : Known st n) : Known (handOff blockSize env sectorSize st pb).1 n := by
  unfold Obmafs3.handOff
  split_ifs with hother hidle hget
  · exact hknown
  · rcases hready with ⟨hlabel, -⟩ | ⟨-, -, hways⟩
    · exact absurd (hlabel.resolve_left hother.1) hother.2.1
    · obtain ⟨-, hscratch, hsmooth⟩ := hways.resolve_left hidle
      obtain ⟨hwhole, -, hstored⟩ := hintact.pending pb hpending
      have hperm := perm_sortedEntries hwhole
      obtain ⟨hgrows, -⟩ := grows_drainEntries hroom false (hintact.ordered _)
        ((hperm.map _).nodup_iff.mpr (hintact.pending pb hpending).nodup)
        (fun e he x hx ↦ hintact.agrees _ (hstored e (hperm.mem_iff.mp he)) x hx)
        (hsmooth.orderly hroom (hintact.ordered _))
      have hgrown := hknown.grow hgrows.keeps
      simp only [pendingFlush, if_neg (Nat.pos_iff_ne_zero.mp hother.2.2), hscratch, if_true]
      rcases hdrain : drainEntries blockSize false env.attempt (sortedEntries pb)
        (st.tree pb.sectorSize) with ⟨done, tree'⟩
      rw [hdrain] at hgrown
      cases done <;> exact hgrown
  · exact hknown
  · exact hknown

/-- The batch of a careful step makes the tree of the draining buffer grow. -/
theorem AsyncState.Intact.grows_batch
    {drain : PendingBuf} {cycle : DrainCycle} (hdraining : st.draining = some drain)
    (hcycle : st.cycle = some cycle)
    (horderly : Orderly blockSize attempt (cycle.remaining.take housekeepingBatchSize)
      (st.tree drain.sectorSize)) :
    Grows (cycle.remaining.take housekeepingBatchSize) (st.tree drain.sectorSize)
      (drainEntries blockSize true attempt (cycle.remaining.take housekeepingBatchSize)
        (st.tree drain.sectorSize)).2 := by
  obtain ⟨hsubset, hnodup, -⟩ := hintact.fits hdraining hcycle
  refine (grows_drainEntries hroom true (hintact.ordered _)
    (hnodup.sublist ((List.take_sublist _ _).map _)) (fun e he x hx ↦ ?_) horderly).1
  have hstored := (hintact.draining drain hdraining).stored e (hsubset e (List.mem_of_mem_take he))
  exact hintact.agrees _ hstored x hx

theorem Known.drainBatch {getTree : Bool}
    (hcareful : (AsyncStep.batch getTree attempt).Careful blockSize st)
    (hrun : drainBatch blockSize getTree attempt st = some st') (hknown : Known st n) :
    Known st' n := by
  obtain ⟨drain, cycle, hdraining, hcycle, ⟨hget, done, tree', hrest, rfl⟩ | rfl⟩ :=
    drainBatch_cases hrun
  · have hgrown := hknown.grow (hintact.grows_batch hroom hdraining hcycle
      (hcareful drain cycle hdraining hcycle hget)).keeps
    rw [hrest] at hgrown
    exact hgrown
  · exact hknown

/-- A careful step keeps what is known. -/
theorem Known.step {step : AsyncStep}
    (hcareful : step.Careful blockSize st) (hrun : step.run blockSize st = some st')
    (hknown : Known st n) : Known st' n := by
  cases step with
  | write env size entry =>
    obtain rfl := Option.some.inj hrun
    simp only [AsyncStep.Careful] at hcareful
    unfold writeEntry
    cases hpending : st.pending with
    | none =>
      rw [hpending] at hcareful
      exact hknown.insertNow hroom hintact hcareful
    | some pb =>
      rw [hpending] at hcareful
      exact (hknown.handOff hroom hintact hpending hcareful.2.2.2.2).imp
        (List.mem_cons_of_mem _) id
  | writeNow env size entry =>
    obtain rfl := Option.some.inj hrun
    exact hknown.insertNow hroom hintact hcareful
  | swap memory =>
    simp only [AsyncStep.run, swapBuffers] at hrun
    split at hrun
    · cases hrun
    · split_ifs at hrun <;> cases hrun <;> exact hknown
  | begin memory =>
    simp only [AsyncStep.run, beginDrain] at hrun
    split at hrun
    · cases hrun
    · split_ifs at hrun <;> cases hrun <;> exact hknown
  | batch getTree attempt => exact hknown.drainBatch hroom hintact hcareful hrun
  | finish memory calloc =>
    simp only [AsyncStep.run, finishDrain] at hrun
    split at hrun
    · split_ifs at hrun <;> cases hrun <;> exact hknown
    · cases hrun
  | shutdown =>
    obtain rfl := Option.some.inj hrun
    exact hknown

end

end

theorem drainedEntries_subset (attempt : DedupEntry → Attempt) (es : List DedupEntry)
    (tree : DedupTree) : drainedEntries blockSize attempt es tree ⊆ es := by
  induction es generalizing tree with
  | nil => exact List.Subset.refl _
  | cons e es ih =>
    rw [drainedEntries]
    split
    · split_ifs
      · exact List.subset_cons_of_subset _ (ih tree)
      · exact List.nil_subset _
    · split
      · split_ifs
        · exact List.cons_subset_cons _ (ih _)
        · exact List.subset_cons_of_subset _ (ih _)
      · exact List.nil_subset _

/-- What a step puts into the cache are stored entries of the draining buffer. -/
theorem AsyncState.Intact.drained (hintact : st.Intact) (step : AsyncStep) {e : DedupEntry}
    (he : e ∈ (drained blockSize step st).2) : ((drained blockSize step st).1, e) ∈ st.stored := by
  unfold Obmafs3.drained at he ⊢
  split at he
  · split at he
    · rename_i drain cycle hdraining hcycle
      split_ifs at he ⊢
      · have hfits := hintact.fits hdraining hcycle
        have hmem := List.mem_of_mem_take (drainedEntries_subset _ _ _ he)
        exact (hintact.draining drain hdraining).stored e (hfits.subset e hmem)
      · cases he
    · cases he
  · cases he

variable (hroom : Roomful blockSize) (hintact : cs.Intact)
include hroom hintact

/-- A careful step keeps the trees, the buffers and the cache together. -/
theorem CachedState.Intact.step {step : CachedStep} (hcareful : step.Careful blockSize cs)
    (hrun : step.run blockSize cs = some cs') : cs'.Intact := by
  cases step with
  | async step =>
    obtain ⟨st', hstep, rfl⟩ := Option.map_eq_some_iff.mp hrun
    have hknown (n : ℕ × DedupEntry) (hn : Known cs.async n) : Known st' n :=
      hn.step hroom hintact.async hcareful hstep
    refine CachedState.Intact.putAll ⟨hintact.async.step hroom hcareful hstep, ?_⟩ fun e he ↦ ?_
    · exact fun dlc hdlc n hn ↦ hknown n (hintact.cached dlc hdlc n hn)
    · exact hknown _ (.inl (hintact.async.drained step he))
  | read sectorSize hashes =>
    obtain rfl := Option.some.inj hrun
    exact ⟨hintact.async, ((hintact.coherent sectorSize).lookupAll hintact.async).cached⟩
  | guard sectorSize hash =>
    obtain rfl := Option.some.inj hrun
    refine hintact.putAll fun e he ↦ ?_
    exact (hintact.async.known hcareful (Option.mem_toList.mp he)).1
  | warm sectorSize i =>
    simp only [CachedStep.run] at hrun
    split at hrun
    · rename_i dlc leaf hdlc hleaf
      split_ifs at hrun
      obtain rfl := Option.some.inj hrun
      refine hintact.putAll fun e he ↦ .inr ?_
      refine dedupLookup_of_mem (hintact.async.ordered sectorSize) ?_
      have hmem := List.mem_of_getElem? hleaf
      cases htree : cs.async.tree sectorSize with
      | empty =>
        rw [htree] at hmem
        cases hmem
      | node height t =>
        rw [htree] at hmem
        show e ∈ records height t
        rw [← leaves_records]
        exact List.mem_flatMap.mpr ⟨leaf, hmem, he⟩
    · cases hrun

theorem CachedState.Intact.runCached {steps : List CachedStep}
    (hcareful : AllCachedCareful blockSize steps cs)
    (hrun : runCached blockSize steps cs = some cs') : cs'.Intact := by
  induction steps generalizing cs with
  | nil =>
    obtain rfl := Option.some.inj hrun
    exact hintact
  | cons step steps ih =>
    obtain ⟨hstep, hsteps⟩ := hcareful
    obtain ⟨mid, hmid, hrest⟩ := Option.bind_eq_some_iff.mp hrun
    exact ih (hintact.step hroom hstep hmid) (hsteps mid hmid) hrest

end Steps

/-- The new volume with an empty lookup cache. -/
def idleCached : CachedState := ⟨idleState, some []⟩

end Obmafs3
