import Obmafs3.Metadata.Text
import Mathlib.Algebra.Group.Nat.Defs
import Mathlib.Data.List.Sort

/-!
# Paged queries

The answer of a query is handed out in pages, from a list of inodes that is kept under a cursor. A
page begins at the offset the client names and skips the inodes that no path leads to; the client
moves on by the number of paths it was given. So the two count the same things only as long as no
inode was skipped, and only as long as the cursor is not one of those that later queries pushed out.
-/

set_option autoImplicit false

namespace Obmafs3

/-! ### Pages -/

/-- `METADATA_QUERY_PATH_MAX`. -/
def metadataQueryPathMax : ℕ := 1024

/-- `METADATA_QUERY_MAX_RESULTS`. -/
def metadataQueryMaxResults : ℕ := 8

/-- `OBMAFS3_QUERY_MAX_FILTERS`. -/
def queryMaxFilters : ℕ := 4

/-- Where the page that begins at an offset ends. The sum is one of 32 bits. -/
def pageEnd (idCount offset limit : ℕ) : ℕ :=
  if 0 < limit ∧ (offset + limit) % 2 ^ 32 < idCount then (offset + limit) % 2 ^ 32 else idCount

/-- What is answered for a list of inodes: those that have a path, each with it. -/
def resolved (resolve : ℕ → Option Text) (ids : List ℕ) : List (ℕ × Text) :=
  ids.filterMap fun id ↦ (resolve id).map fun path ↦ (id, path)

/-- `obmafs3_metadata_query_resolve_page`. A path is kept with the inode it was found for. -/
def queryResolvePage (resolve : ℕ → Option Text) (ids : List ℕ) (offset limit : ℕ) :
    List (ℕ × Text) :=
  if ids.length ≤ offset then []
  else resolved resolve ((ids.take (pageEnd ids.length offset limit)).drop offset)

/-- A path as it is copied into the reply, which has no room for a longer one. -/
def replyPath (entry : ℕ × Text) : ℕ × Text :=
  (entry.1, entry.2.take (metadataQueryPathMax - 1))

/-! ### Cursors -/

/-- `struct query_cursor`. The number of inodes is the length of the list, an id of zero is a slot
that is free. -/
structure QueryCursor where
  id : ℕ
  ids : List ℕ
  lastUse : ℕ

/-- `MAX_QUERY_CURSORS`. -/
def maxQueryCursors : ℕ := 4

/-- `g_cursors`, `g_next_cursor_id` and `g_cursor_use_seq`. -/
structure CursorCache where
  cursors : Fin maxQueryCursors → QueryCursor
  nextId : ℕ
  useSeq : ℕ

/-- The cache when the file system is mounted. -/
def CursorCache.initial : CursorCache := ⟨fun _ ↦ ⟨0, [], 0⟩, 1, 0⟩

/-- `cursor_find`. -/
def cursorFind (id : ℕ) (c : CursorCache) : Option (Fin maxQueryCursors) :=
  (List.finRange maxQueryCursors).find? fun i ↦ (c.cursors i).id = id

/-- The slot that was used longest ago, the first of several. -/
def leastRecentlyUsed (c : CursorCache) : Fin maxQueryCursors :=
  (List.finRange maxQueryCursors).foldl
    (fun lru i ↦ if (c.cursors i).lastUse < (c.cursors lru).lastUse then i else lru)
    ⟨0, by decide⟩

/-- `cursor_alloc`: a free slot, else the one that was used longest ago. -/
def cursorAlloc (c : CursorCache) : Fin maxQueryCursors :=
  (cursorFind 0 c).getD (leastRecentlyUsed c)

/-- The id of the next cursor, never zero, and the counter after it. -/
def nextCursorId (next : ℕ) : ℕ × ℕ :=
  if next = 0 then ((next + 1) % 2 ^ 32, (next + 2) % 2 ^ 32) else (next, (next + 1) % 2 ^ 32)

/-- The time of use is noted in a slot. -/
def CursorCache.touch (i : Fin maxQueryCursors) (c : CursorCache) : CursorCache :=
  let useSeq := (c.useSeq + 1) % 2 ^ 64
  { c with
    cursors := Function.update c.cursors i { c.cursors i with lastUse := useSeq }
    useSeq }

/-- The answer of a new query is put into a slot. -/
def CursorCache.insert (ids : List ℕ) (c : CursorCache) : Fin maxQueryCursors × CursorCache :=
  let i := cursorAlloc c
  let (id, nextId) := nextCursorId c.nextId
  (i, CursorCache.touch i
    { c with cursors := Function.update c.cursors i ⟨id, ids, 0⟩, nextId })

/-- `cursor_release`. -/
def CursorCache.release (i : Fin maxQueryCursors) (c : CursorCache) : CursorCache :=
  { c with cursors := Function.update c.cursors i ⟨0, [], 0⟩ }

/-! ### The request -/

/-- What the request reads of `struct obmafs3_ioctl_metadata_query_arg`, and the inodes that
`obmafs3_metadata_query_collect_ids` finds for its filters. -/
structure QueryRequest where
  cursorId : ℕ
  offset : ℕ
  filterCount : ℕ
  combine : ℕ
  collected : List ℕ

/-- The reply: refused with `EINVAL`, or the total, the cursor and the paths. -/
inductive QueryReply where
  | einval
  | page (total cursorId : ℕ) (paths : List (ℕ × Text))

/-- The slot a request is answered from. -/
def queryCursor (request : QueryRequest) (c : CursorCache) :
    Option (Fin maxQueryCursors × CursorCache) :=
  if request.cursorId ≠ 0 then
    (cursorFind request.cursorId c).map fun i ↦ (i, c.touch i)
  else if request.filterCount = 0 ∨ queryMaxFilters < request.filterCount ∨ 1 < request.combine then
    none
  else some (c.insert request.collected)

/-- `OBMAFS3_IOC_QUERY_METADATA`, for pages of a size. -/
def queryMetadata (resolve : ℕ → Option Text) (pageSize : ℕ) (request : QueryRequest)
    (c : CursorCache) : QueryReply × CursorCache :=
  match queryCursor request c with
  | none => (.einval, c)
  | some (i, c) =>
    let cursor := c.cursors i
    -- only the number of matches is asked for, the cursor stays
    if request.offset = 2 ^ 32 - 1 then (.page cursor.ids.length cursor.id [], c)
    else
      let paths := queryResolvePage resolve cursor.ids request.offset pageSize
      (.page cursor.ids.length cursor.id (paths.map replyPath),
        if cursor.ids.length ≤ (request.offset + paths.length) % 2 ^ 32 then c.release i else c)

/-! ### The client -/

/-- A query as the tool sends it, with its answer: a set of inodes in ascending order. -/
structure PagedQuery where
  filterCount : ℕ
  combine : ℕ
  ids : List ℕ
  filterCount_mem : 0 < filterCount ∧ filterCount ≤ queryMaxFilters
  combine_le : combine ≤ 1
  ids_sorted : ids.Pairwise (· < ·)
  ids_lt : ids.length < 2 ^ 32

inductive QueryStatus where
  | paging
  | finished
  | failed
deriving DecidableEq

/-- The variables of `execute_query_collect`, with the totals it was told and how often it called. -/
structure QueryClient where
  query : PagedQuery
  cursorId : ℕ
  offset : ℕ
  results : List (ℕ × Text)
  totals : List ℕ
  calls : ℕ
  status : QueryStatus

/-- The client before its first call. -/
def QueryClient.fresh (query : PagedQuery) : QueryClient := ⟨query, 0, 0, [], [], 0, .paging⟩

def QueryClient.request (client : QueryClient) : QueryRequest :=
  ⟨client.cursorId, client.offset, client.query.filterCount, client.query.combine,
    client.query.ids⟩

/-- One turn of the loop of `execute_query_collect` after the call, with no bound on the results. -/
def QueryClient.receive (reply : QueryReply) (client : QueryClient) : QueryClient :=
  match reply with
  | .einval => { client with calls := client.calls + 1, status := .failed }
  | .page total cursorId paths =>
    let client :=
      { client with cursorId, totals := client.totals ++ [total], calls := client.calls + 1 }
    if paths.length = 0 then { client with status := .finished }
    else
      let offset := (client.offset + paths.length) % 2 ^ 32
      { client with
        results := client.results ++ paths
        offset
        status := if total ≤ offset then .finished else .paging }

/-! ### The system -/

/-- The cache and the clients that page through queries. -/
structure QuerySystem where
  cache : CursorCache
  clients : ℕ → Option QueryClient

def QuerySystem.initial : QuerySystem := ⟨.initial, fun _ ↦ none⟩

/-- What can happen next: a client sends the first call of a query, a client that is paging sends
its next call, or somebody asks for the number of matches of a query. -/
inductive QueryEvent where
  | start (client : ℕ) (query : PagedQuery)
  | next (client : ℕ)
  | count (query : PagedQuery)

section System

variable (resolve : ℕ → Option Text) (pageSize : ℕ)

/-- A client calls and takes the reply. -/
def QuerySystem.call (k : ℕ) (client : QueryClient) (s : QuerySystem) : QuerySystem :=
  let (reply, cache) := queryMetadata resolve pageSize client.request s.cache
  ⟨cache, Function.update s.clients k (some (client.receive reply))⟩

def QuerySystem.step (s : QuerySystem) : QueryEvent → QuerySystem
  | .start k query => s.call resolve pageSize k (.fresh query)
  | .next k =>
    match s.clients k with
    | none => s
    | some client => if client.status = .paging then s.call resolve pageSize k client else s
  | .count query =>
    let request : QueryRequest := ⟨0, 2 ^ 32 - 1, query.filterCount, query.combine, query.ids⟩
    ⟨(queryMetadata resolve pageSize request s.cache).2, s.clients⟩

def QuerySystem.run (s : QuerySystem) (events : List QueryEvent) : QuerySystem :=
  events.foldl (QuerySystem.step resolve pageSize) s

end System

/-! ### What the claim asks of a client -/

/-- The answer that a client should receive. -/
def PagedQuery.answer (resolve : ℕ → Option Text) (query : PagedQuery) : List (ℕ × Text) :=
  resolved resolve query.ids

/-- The client received every match that has a path, each once. -/
def QueryClient.Served (resolve : ℕ → Option Text) (client : QueryClient) : Prop :=
  client.results.Perm (client.query.answer resolve)

/-- A query whose pages are pages of its answer: the matches that no path leads to come after all
the others, no path is too long for the reply, and no page that is needed ends past 32 bits. -/
structure CarefulQuery (resolve : ℕ → Option Text) (pageSize : ℕ) (query : PagedQuery) : Prop where
  resolvable_first : query.ids.Pairwise fun a b ↦ (resolve b).isSome → (resolve a).isSome
  paths_fit : ∀ id ∈ query.ids, ∀ path ∈ resolve id, path.length < metadataQueryPathMax
  offsets_fit : (query.answer resolve).length ≤ (2 ^ 32 - 1) / pageSize * pageSize

/-- The cursor of a client is still in the cache, with the answer it was made for. -/
def CursorHeld (client : QueryClient) (c : CursorCache) : Prop :=
  ∃ i, cursorFind client.cursorId c = some i ∧ (c.cursors i).ids = client.query.ids

/-- A client that goes on with a query finds its cursor. -/
def HeldEvent (s : QuerySystem) : QueryEvent → Prop
  | .next k => ∀ client, s.clients k = some client → client.status = .paging →
      CursorHeld client s.cache
  | _ => True

/-- A run in which no cursor is pushed out while its client still needs it. -/
def HeldRun (resolve : ℕ → Option Text) (pageSize : ℕ) (s : QuerySystem) : List QueryEvent → Prop
  | [] => True
  | event :: events =>
    HeldEvent s event ∧ HeldRun resolve pageSize (s.step resolve pageSize event) events

/-! ### Pages of a list -/

section Pages

variable {resolve : ℕ → Option Text} {ids : List ℕ}

theorem resolved_append (resolve : ℕ → Option Text) (ids ids' : List ℕ) :
    resolved resolve (ids ++ ids') = resolved resolve ids ++ resolved resolve ids' := by
  simp [resolved]

theorem mem_resolved {entry : ℕ × Text} :
    entry ∈ resolved resolve ids ↔ entry.1 ∈ ids ∧ resolve entry.1 = some entry.2 := by
  obtain ⟨id, path⟩ := entry
  simp only [resolved, List.mem_filterMap, Option.map_eq_some_iff, Prod.mk.injEq]
  constructor
  · rintro ⟨_, hid, _, hpath, rfl, rfl⟩
    exact ⟨hid, hpath⟩
  · rintro ⟨hid, hpath⟩
    exact ⟨id, hid, path, hpath, rfl, rfl⟩

theorem resolved_eq_nil_iff : resolved resolve ids = [] ↔ ∀ id ∈ ids, resolve id = none := by
  simp [resolved, List.filterMap_eq_nil_iff]

theorem resolved_length_le : (resolved resolve ids).length ≤ ids.length :=
  List.length_filterMap_le _ _

section

variable (hfirst : ids.Pairwise fun a b ↦ (resolve b).isSome → (resolve a).isSome)
include hfirst

/-- If all that can be resolved comes first, the first of it are answers to the first inodes. -/
theorem resolved_take (n : ℕ) : resolved resolve (ids.take n) = (resolved resolve ids).take n := by
  induction ids generalizing n with
  | nil => simp [resolved]
  | cons id ids ih =>
    obtain ⟨hid, hids⟩ := List.pairwise_cons.mp hfirst
    cases n with
    | zero => simp [resolved]
    | succ n =>
      cases hres : resolve id with
      | some path =>
        have := ih hids n
        simp_all [resolved]
      | none =>
        have hnone : resolved resolve ids = [] := by
          refine resolved_eq_nil_iff.mpr fun b hb ↦ ?_
          have := hid b hb
          simpa [hres] using this
        have htake := ih hids n
        rw [hnone] at htake
        simp_all [resolved]

theorem resolved_drop (n : ℕ) : resolved resolve (ids.drop n) = (resolved resolve ids).drop n := by
  have hsplit := resolved_append resolve (ids.take n) (ids.drop n)
  rw [List.take_append_drop, resolved_take hfirst] at hsplit
  apply @List.append_cancel_left _ ((resolved resolve ids).take n)
  rw [← hsplit, List.take_append_drop]

end

/-- Where the first inodes can all be resolved and no other, all that can be resolved is first. -/
theorem first_of_resolved_take {n : ℕ} (hlength : (resolved resolve (ids.take n)).length = n)
    (hdrop : resolved resolve (ids.drop n) = []) :
    ids.Pairwise fun a b ↦ (resolve b).isSome → (resolve a).isSome := by
  induction ids generalizing n with
  | nil => exact List.Pairwise.nil
  | cons id ids ih =>
    cases n with
    | zero =>
      simp only [List.drop_zero] at hdrop
      refine List.pairwise_of_forall_mem_list fun a _ b hb hsome ↦ ?_
      simp [resolved_eq_nil_iff.mp hdrop b hb] at hsome
    | succ n =>
      cases hres : resolve id with
      | none =>
        have hle := @resolved_length_le resolve (ids.take n)
        have := List.length_take_le n ids
        simp only [resolved, List.take_succ_cons, List.filterMap_cons, hres, Option.map_none]
          at hlength hle
        omega
      | some path =>
        refine List.pairwise_cons.mpr ⟨fun b _ _ ↦ by simp [hres], ih (n := n) ?_ ?_⟩
        · simpa [resolved, hres] using hlength
        · simpa using hdrop

/-- A page of a query whose matches come in order is a page of the answer. -/
theorem CarefulQuery.queryResolvePage_eq {pageSize offset : ℕ} {query : PagedQuery}
    (hcareful : CarefulQuery resolve pageSize query)
    (hoffset : offset = (query.answer resolve).length ∨
      offset < (query.answer resolve).length ∧ pageSize ∣ offset) :
    queryResolvePage resolve query.ids offset pageSize =
      ((query.answer resolve).drop offset).take pageSize := by
  have hle : (query.answer resolve).length ≤ query.ids.length := resolved_length_le
  have hpage (e : ℕ) : resolved resolve ((query.ids.take e).drop offset) =
      ((query.answer resolve).take e).drop offset := by
    rw [resolved_drop (hcareful.resolvable_first.sublist (List.take_sublist _ _)),
      resolved_take hcareful.resolvable_first]
    rfl
  unfold queryResolvePage
  rw [hpage]
  rcases hoffset with rfl | ⟨hlt, pages, rfl⟩
  · have hnil (e : ℕ) : ((query.answer resolve).take e).drop (query.answer resolve).length = [] :=
      List.drop_eq_nil_of_le (List.length_take_le' _ _)
    simp [hnil]
  · have hpages : pageSize * pages + pageSize ≤ (2 ^ 32 - 1) / pageSize * pageSize := by
      have hmul : pageSize * pages < (2 ^ 32 - 1) / pageSize * pageSize :=
        hlt.trans_le hcareful.offsets_fit
      rw [Nat.mul_comm _ pageSize] at hmul ⊢
      have := Nat.lt_of_mul_lt_mul_left hmul
      rw [← Nat.mul_succ]
      exact Nat.mul_le_mul_left _ this
    have hfits : pageSize * pages + pageSize < 2 ^ 32 := by
      have := Nat.div_mul_le_self (2 ^ 32 - 1) pageSize
      omega
    rw [if_neg (by omega), List.drop_take]
    unfold pageEnd
    rw [Nat.mod_eq_of_lt hfits]
    split_ifs with hend
    · rw [Nat.add_sub_cancel_left]
    · have hsize : 0 < pageSize := by
        rcases Nat.eq_zero_or_pos pageSize with rfl | hpos
        · have hfit := hcareful.offsets_fit
          rw [Nat.mul_zero] at hfit
          omega
        · exact hpos
      have : (query.answer resolve).length ≤ pageSize * pages + pageSize := by omega
      rw [List.take_of_length_le (by simp; omega), List.take_of_length_le (by simp; omega)]

end Pages

/-! ### One call -/

section Call

variable {resolve : ℕ → Option Text} {pageSize : ℕ}

variable {client : QueryClient} {id : ℕ} {c : CursorCache} {s : QuerySystem}

theorem cursorFind_id {i : Fin maxQueryCursors} (hfind : cursorFind id c = some i) :
    (c.cursors i).id = id := by
  simpa using List.find?_some hfind

theorem nextCursorId_ne_zero (next : ℕ) : (nextCursorId next).1 ≠ 0 := by
  unfold nextCursorId
  split_ifs with h
  · simp [h]
  · exact h

/-- The page of a client's query at its offset, as the reply carries it. -/
def QueryClient.nextPage (resolve : ℕ → Option Text) (pageSize : ℕ) (client : QueryClient) :
    List (ℕ × Text) :=
  (queryResolvePage resolve client.query.ids client.offset pageSize).map replyPath

/-- A first call is answered from a new cursor. -/
theorem queryMetadata_first (hid : client.cursorId = 0) (hoffset : client.offset ≠ 2 ^ 32 - 1) :
    ∃ id, id ≠ 0 ∧ (queryMetadata resolve pageSize client.request c).1 =
      .page client.query.ids.length id (client.nextPage resolve pageSize) := by
  have hvalid : ¬(client.query.filterCount = 0 ∨ queryMaxFilters < client.query.filterCount ∨
      1 < client.query.combine) := by
    have := client.query.filterCount_mem
    have := client.query.combine_le
    omega
  refine ⟨(nextCursorId c.nextId).1, nextCursorId_ne_zero _, ?_⟩
  simp only [queryMetadata, queryCursor, QueryClient.request, hid, if_neg hvalid, if_neg hoffset]
  simp [CursorCache.insert, CursorCache.touch, QueryClient.nextPage]

/-- A later call is answered from the cursor that is found. -/
theorem queryMetadata_next (hid : client.cursorId ≠ 0) (hheld : CursorHeld client c)
    (hoffset : client.offset ≠ 2 ^ 32 - 1) :
    (queryMetadata resolve pageSize client.request c).1 =
      .page client.query.ids.length client.cursorId (client.nextPage resolve pageSize) := by
  obtain ⟨i, hfind, hids⟩ := hheld
  have hcursor := cursorFind_id hfind
  have hoffset' : client.request.offset ≠ 2 ^ 32 - 1 := hoffset
  have hasked : queryCursor client.request c = some (i, c.touch i) := by
    simp [queryCursor, QueryClient.request, hid, hfind]
  rw [queryMetadata, hasked]
  simp only [if_neg hoffset']
  simp [CursorCache.touch, QueryClient.nextPage, QueryClient.request, hids, hcursor]

theorem QueryClient.nextPage_length_le (hoffset : client.offset ≤ client.query.ids.length) :
    client.offset + (client.nextPage resolve pageSize).length ≤ client.query.ids.length := by
  have hpage : (queryResolvePage resolve client.query.ids client.offset pageSize).length ≤
      client.query.ids.length - client.offset := by
    unfold queryResolvePage
    split_ifs with h
    · exact Nat.zero_le _
    · refine resolved_length_le.trans ?_
      rw [List.length_drop]
      exact Nat.sub_le_sub_right (List.length_take_le' _ _) _
  rw [QueryClient.nextPage, List.length_map]
  omega

theorem QueryClient.receive_nil {total id : ℕ} : client.receive (.page total id []) = { client with
        cursorId := id
        totals := client.totals ++ [total]
        calls := client.calls + 1
        status := .finished } := by
  simp [QueryClient.receive]

theorem QueryClient.receive_page {total id : ℕ} {paths : List (ℕ × Text)} (hpaths : paths ≠ [])
    (hfits : client.offset + paths.length < 2 ^ 32) :
    client.receive (.page total id paths) = { client with
        cursorId := id
        totals := client.totals ++ [total]
        calls := client.calls + 1
        results := client.results ++ paths
        offset := client.offset + paths.length
        status := if total ≤ client.offset + paths.length then .finished else .paging } := by
  have hlength : paths.length ≠ 0 := by simpa using hpaths
  have hoffset := Nat.mod_eq_of_lt hfits
  simp only [QueryClient.receive, if_neg hlength, hoffset]

/-- What holds of every client whose cursor is never pushed out. -/
structure QueryClient.Going (client : QueryClient) : Prop where
  not_failed : client.status ≠ .failed
  totals_eq : ∀ total ∈ client.totals, total = client.query.ids.length
  calls_le : client.calls ≤ client.results.length + if client.status = .paging then 0 else 1
  offset_eq : client.offset = client.results.length
  offset_le : client.offset ≤ client.query.ids.length
  offset_lt : client.status = .paging → client.offset = 0 ∨ client.offset < client.query.ids.length

theorem QueryClient.going_fresh (query : PagedQuery) : (QueryClient.fresh query).Going := by
  constructor <;> simp [QueryClient.fresh]

/-- The client after a page of its own query. -/
def QueryClient.advance (resolve : ℕ → Option Text) (pageSize id : ℕ) (client : QueryClient) :
    QueryClient :=
  client.receive (.page client.query.ids.length id (client.nextPage resolve pageSize))

theorem QueryClient.advance_of_nil (hpage : client.nextPage resolve pageSize = []) :
    client.advance resolve pageSize id = { client with
        cursorId := id
        totals := client.totals ++ [client.query.ids.length]
        calls := client.calls + 1
        status := .finished } := by
  rw [QueryClient.advance, hpage, QueryClient.receive_nil]

theorem QueryClient.advance_of_ne_nil (hoffset : client.offset ≤ client.query.ids.length)
    (hpage : client.nextPage resolve pageSize ≠ []) :
    client.advance resolve pageSize id = { client with
        cursorId := id
        totals := client.totals ++ [client.query.ids.length]
        calls := client.calls + 1
        results := client.results ++ client.nextPage resolve pageSize
        offset := client.offset + (client.nextPage resolve pageSize).length
        status :=
          if client.query.ids.length ≤ client.offset + (client.nextPage resolve pageSize).length
          then .finished else .paging } :=
  QueryClient.receive_page hpage
    ((QueryClient.nextPage_length_le hoffset).trans_lt client.query.ids_lt)

@[simp] theorem QueryClient.advance_query :
    (client.advance resolve pageSize id).query = client.query := by
  simp only [QueryClient.advance, QueryClient.receive]
  split <;> rfl

@[simp] theorem QueryClient.advance_cursorId :
    (client.advance resolve pageSize id).cursorId = id := by
  simp only [QueryClient.advance, QueryClient.receive]
  split <;> rfl

theorem QueryClient.Going.advance (hgoing : client.Going) (hpaging : client.status = .paging)
    (id : ℕ) : (client.advance resolve pageSize id).Going := by
  have hcalls := hgoing.calls_le
  rw [if_pos hpaging] at hcalls
  have htotals : ∀ total ∈ client.totals ++ [client.query.ids.length],
      total = client.query.ids.length := by
    simpa [or_imp, forall_and] using hgoing.totals_eq
  have hle := @QueryClient.nextPage_length_le resolve pageSize client hgoing.offset_le
  have hoffset := hgoing.offset_eq
  by_cases hpage : client.nextPage resolve pageSize = []
  · rw [QueryClient.advance_of_nil hpage]
    exact
      { not_failed := by simp
        totals_eq := htotals
        calls_le := by simpa using hcalls
        offset_eq := hoffset
        offset_le := hgoing.offset_le
        offset_lt := by simp }
  · rw [QueryClient.advance_of_ne_nil hgoing.offset_le hpage]
    have hpos := List.length_pos_iff.mpr hpage
    exact
      { not_failed := by
          dsimp only
          split_ifs <;> simp
        totals_eq := htotals
        calls_le := by
          dsimp only
          rw [List.length_append]
          omega
        offset_eq := by
          dsimp only
          rw [List.length_append, hoffset]
        offset_le := hle
        offset_lt := by
          dsimp only
          split_ifs with h
          · simp
          · exact fun _ ↦ .inr (not_le.mp h) }

/-! ### Careful queries -/

/-- What a client of a careful query has received is the front of the answer. -/
structure QueryClient.InOrder (resolve : ℕ → Option Text) (pageSize : ℕ) (client : QueryClient) :
    Prop where
  results_eq : client.results = (client.query.answer resolve).take client.offset
  place : client.offset = (client.query.answer resolve).length ∨
    client.offset < (client.query.answer resolve).length ∧ pageSize ∣ client.offset
  done : client.status = .finished → client.offset = (client.query.answer resolve).length

theorem QueryClient.inOrder_fresh (query : PagedQuery) :
    (QueryClient.fresh query).InOrder resolve pageSize where
  results_eq := by simp [QueryClient.fresh]
  place := by
    rcases Nat.eq_zero_or_pos (query.answer resolve).length with h | h
    · exact .inl h.symm
    · exact .inr ⟨h, Nat.dvd_zero _⟩
  done := by simp [QueryClient.fresh]

theorem CarefulQuery.map_replyPath {query : PagedQuery}
    (hcareful : CarefulQuery resolve pageSize query) {entries : List (ℕ × Text)}
    (hentries : entries.Sublist (query.answer resolve)) : entries.map replyPath = entries := by
  conv_rhs => rw [← List.map_id entries]
  refine List.map_congr_left fun entry hmem ↦ ?_
  obtain ⟨hid, hpath⟩ := mem_resolved.mp (hentries.subset hmem)
  have hfits := hcareful.paths_fit _ hid _ hpath
  rw [replyPath, List.take_of_length_le (by omega)]
  rfl

theorem QueryClient.InOrder.advance (hcareful : CarefulQuery resolve pageSize client.query)
    (horder : client.InOrder resolve pageSize) (hle : client.offset ≤ client.query.ids.length)
    (id : ℕ) : (client.advance resolve pageSize id).InOrder resolve pageSize := by
  have hnext : client.nextPage resolve pageSize =
      ((client.query.answer resolve).drop client.offset).take pageSize := by
    rw [QueryClient.nextPage, hcareful.queryResolvePage_eq horder.place]
    exact hcareful.map_replyPath ((List.take_sublist _ _).trans (List.drop_sublist _ _))
  have hanswer : (client.query.answer resolve).length ≤ client.query.ids.length :=
    resolved_length_le
  by_cases hpage : client.nextPage resolve pageSize = []
  · rw [QueryClient.advance_of_nil hpage]
    have hend : client.offset = (client.query.answer resolve).length := by
      rcases horder.place with h | ⟨hlt, -⟩
      · exact h
      · rw [hnext, List.take_eq_nil_iff] at hpage
        rcases hpage with rfl | hdrop
        · have hfit := hcareful.offsets_fit
          omega
        · rw [List.drop_eq_nil_iff] at hdrop
          omega
    exact ⟨horder.results_eq, .inl hend, fun _ ↦ hend⟩
  · rw [QueryClient.advance_of_ne_nil hle hpage]
    have hlength : (client.nextPage resolve pageSize).length =
        min pageSize ((client.query.answer resolve).length - client.offset) := by
      rw [hnext, List.length_take, List.length_drop]
    have hpos := List.length_pos_iff.mpr hpage
    refine ⟨?_, ?_, ?_⟩
    · dsimp only
      rw [List.take_add, horder.results_eq]
      congr 1
      conv_lhs => rw [hnext, List.take_eq_take_min, List.length_drop]
      rw [hlength]
    · dsimp only
      rcases horder.place with h | ⟨hlt, hdvd⟩
      · omega
      · by_cases hfull : client.offset + pageSize < (client.query.answer resolve).length
        · rw [hlength, min_eq_left (by omega)]
          exact .inr ⟨hfull, Nat.dvd_add hdvd (Nat.dvd_refl _)⟩
        · exact .inl (by omega)
    · dsimp only
      split_ifs with hlast
      · intro _
        rcases horder.place with h | ⟨hlt, -⟩ <;> omega
      · simp

/-! ### Queries that are not careful -/

/-- A page before 32 bits run out. -/
theorem queryResolvePage_eq_window {ids : List ℕ} {offset : ℕ}
    (hfits : ids.length + pageSize ≤ 2 ^ 32) (hoffset : offset < ids.length)
    (hsize : 0 < pageSize) :
    queryResolvePage resolve ids offset pageSize =
      resolved resolve ((ids.drop offset).take pageSize) := by
  have hmod : (offset + pageSize) % 2 ^ 32 = offset + pageSize := Nat.mod_eq_of_lt (by omega)
  rw [queryResolvePage, if_neg (by omega), pageEnd, hmod, List.drop_take]
  congr 1
  split_ifs with hend
  · rw [Nat.add_sub_cancel_left]
  · rw [List.take_of_length_le (by simp), List.take_of_length_le (by rw [List.length_drop]; omega)]

/-- What a client of any query has received. As long as it is in step, that is the answer to the
inodes it has passed. Out of step, it is about to be given a match again, or was given one twice. -/
inductive QueryClient.Trace (resolve : ℕ → Option Text) (pageSize : ℕ) (client : QueryClient) : Prop
  | inStep
    (hresults : client.results =
      (resolved resolve (client.query.ids.take client.offset)).map replyPath)
  | again (entry : ℕ × Text) (hpaging : client.status = .paging)
    (hentry : replyPath entry ∈ client.results)
    (hwindow : entry ∈ resolved resolve ((client.query.ids.drop client.offset).take pageSize))
  | twice (hresults : ¬client.results.Nodup)

theorem QueryClient.Trace.advance (hfits : client.query.ids.length + pageSize ≤ 2 ^ 32)
    (hsize : 0 < pageSize) (hle : client.offset ≤ client.query.ids.length)
    (htrace : client.Trace resolve pageSize) (id : ℕ) :
    (client.advance resolve pageSize id).Trace resolve pageSize := by
  obtain ⟨window, hwindow⟩ :
      ∃ window, (client.query.ids.drop client.offset).take pageSize = window := ⟨_, rfl⟩
  have hpage : client.nextPage resolve pageSize = (resolved resolve window).map replyPath := by
    rw [QueryClient.nextPage, ← hwindow]
    rcases hle.eq_or_lt with heq | hlt
    · simp [queryResolvePage, heq, resolved]
    · rw [queryResolvePage_eq_window hfits hlt hsize]
  by_cases hnil : client.nextPage resolve pageSize = []
  · rw [QueryClient.advance_of_nil hnil]
    cases htrace with
    | inStep hresults => exact .inStep hresults
    | again entry _ _ hentry =>
      rw [hpage, List.map_eq_nil_iff] at hnil
      rw [hwindow, hnil] at hentry
      exact absurd hentry List.not_mem_nil
    | twice hresults => exact .twice hresults
  · rw [QueryClient.advance_of_ne_nil hle hnil]
    cases htrace with
    | inStep hresults =>
      obtain ⟨c, hc⟩ : ∃ c, (resolved resolve window).length = c := ⟨_, rfl⟩
      have hlength : (client.nextPage resolve pageSize).length = c := by
        rw [hpage, List.length_map, hc]
      have hcle : c ≤ window.length := hc ▸ resolved_length_le
      have hsplit : client.results ++ client.nextPage resolve pageSize =
          (resolved resolve (client.query.ids.take client.offset ++ window)).map replyPath := by
        rw [hresults, hpage, resolved_append, List.map_append]
      rw [← List.take_append_drop c window, ← List.append_assoc, resolved_append] at hsplit
      have hrest : window.drop c =
          (client.query.ids.drop (client.offset + c)).take (pageSize - c) := by
        rw [← hwindow, List.drop_take, List.drop_drop]
      rw [hlength]
      by_cases hbehind : resolved resolve (window.drop c) = []
      · -- what could be resolved came first, so the client has passed just these inodes
        refine .inStep ?_
        have hsize : c ≤ pageSize := by
          have := List.length_take_le pageSize (client.query.ids.drop client.offset)
          rw [hwindow] at this
          omega
        have htake : window.take c = (client.query.ids.drop client.offset).take c := by
          rw [← hwindow, List.take_take, min_eq_left hsize]
        rw [hbehind, List.append_nil, htake, ← List.take_add] at hsplit
        exact hsplit
      · -- a match behind one that was skipped is on the next page too
        obtain ⟨entry, hentry⟩ := List.exists_mem_of_ne_nil _ hbehind
        have hlt : c < window.length := by
          by_contra h
          rw [List.drop_eq_nil_of_le (not_lt.mp h)] at hbehind
          exact hbehind rfl
        have hbound : client.offset + window.length ≤ client.query.ids.length := by
          rw [← hwindow, List.length_take, List.length_drop]
          omega
        refine .again entry (if_neg (by omega)) ?_ ?_
        · dsimp only
          rw [hsplit]
          exact List.mem_map_of_mem (List.mem_append_right _ hentry)
        · obtain ⟨hmem, hpath⟩ := mem_resolved.mp hentry
          rw [hrest] at hmem
          exact mem_resolved.mpr
            ⟨(List.take_subset_take_left _ (Nat.sub_le pageSize c)) hmem, hpath⟩
    | again entry _ hgiven hentry =>
      refine .twice fun hnodup ↦ ?_
      have hdisjoint := List.disjoint_of_nodup_append hnodup
      refine hdisjoint hgiven ?_
      rw [hpage]
      exact List.mem_map_of_mem (hwindow ▸ hentry)
    | twice hresults =>
      exact .twice fun hnodup ↦ hresults (List.Nodup.of_append_left hnodup)

theorem PagedQuery.answer_nodup (query : PagedQuery) : (query.answer resolve).Nodup := by
  refine List.Nodup.filterMap (fun a b entry ha hb ↦ ?_)
    (query.ids_sorted.imp fun h ↦ Nat.ne_of_lt h)
  simp only [Option.mem_def, Option.map_eq_some_iff] at ha hb
  obtain ⟨_, _, rfl⟩ := ha
  obtain ⟨_, _, hb⟩ := hb
  exact (congrArg Prod.fst hb).symm

/-- Only the client of a careful query can end with every match once. -/
theorem QueryClient.Trace.careful_of_served (hfits : client.query.ids.length + pageSize ≤ 2 ^ 32)
    (hsize : 0 < pageSize) (hgoing : client.Going) (htrace : client.Trace resolve pageSize)
    (hfinished : client.status = .finished) (hserved : client.Served resolve) :
    CarefulQuery resolve pageSize client.query := by
  cases htrace with
  | again _ hpaging =>
    rw [hfinished] at hpaging
    cases hpaging
  | twice hresults => exact absurd (hserved.nodup_iff.mpr client.query.answer_nodup) hresults
  | inStep hresults =>
    have hlength := hserved.length_eq
    have htaken : (resolved resolve (client.query.ids.take client.offset)).length =
        client.offset := by
      have hcount := congrArg List.length hresults
      rw [List.length_map] at hcount
      exact hcount.symm.trans hgoing.offset_eq.symm
    have hsplit : client.query.answer resolve =
        resolved resolve (client.query.ids.take client.offset) ++
          resolved resolve (client.query.ids.drop client.offset) := by
      rw [← resolved_append, List.take_append_drop]
      rfl
    have hrest : resolved resolve (client.query.ids.drop client.offset) = [] := by
      have := congrArg List.length hsplit
      rw [List.length_append, htaken, ← hlength, ← hgoing.offset_eq] at this
      exact List.eq_nil_of_length_eq_zero (by omega)
    rw [hrest, List.append_nil] at hsplit
    refine ⟨first_of_resolved_take htaken hrest, fun id hid path hpath ↦ ?_, ?_⟩
    · have hmem : (id, path) ∈ client.results := hserved.symm.subset (mem_resolved.mpr ⟨hid, hpath⟩)
      rw [hresults, List.mem_map] at hmem
      obtain ⟨entry, _, heq⟩ := hmem
      have := congrArg (fun e : ℕ × Text ↦ e.2.length) heq
      simp only [replyPath, List.length_take, metadataQueryPathMax] at this ⊢
      omega
    · have hanswer : (client.query.answer resolve).length ≤ client.query.ids.length :=
        resolved_length_le
      have := Nat.div_add_mod (2 ^ 32 - 1) pageSize
      have := Nat.mod_lt (2 ^ 32 - 1) hsize
      rw [Nat.mul_comm]
      omega

/-! ### Runs -/

/-- What every client in the system satisfies. -/
structure QueryClient.Kept (resolve : ℕ → Option Text) (pageSize : ℕ) (client : QueryClient) :
    Prop where
  going : client.Going
  inOrder : CarefulQuery resolve pageSize client.query → client.InOrder resolve pageSize
  trace : client.query.ids.length + pageSize ≤ 2 ^ 32 → 0 < pageSize → client.Trace resolve pageSize

theorem QueryClient.kept_fresh (query : PagedQuery) :
    (QueryClient.fresh query).Kept resolve pageSize where
  going := QueryClient.going_fresh query
  inOrder _ := QueryClient.inOrder_fresh query
  trace _ _ := .inStep (by simp [QueryClient.fresh, resolved])

theorem QueryClient.Kept.advance (hkept : client.Kept resolve pageSize)
    (hpaging : client.status = .paging) (id : ℕ) :
    (client.advance resolve pageSize id).Kept resolve pageSize where
  going := hkept.going.advance hpaging id
  inOrder hcareful := by
    rw [QueryClient.advance_query] at hcareful
    exact (hkept.inOrder hcareful).advance hcareful hkept.going.offset_le id
  trace hfits hsize := by
    rw [QueryClient.advance_query] at hfits
    exact (hkept.trace hfits hsize).advance hfits hsize hkept.going.offset_le id

theorem QueryClient.Going.offset_ne (hgoing : client.Going) (hpaging : client.status = .paging) :
    client.offset ≠ 2 ^ 32 - 1 := by
  have := client.query.ids_lt
  rcases hgoing.offset_lt hpaging with h | h <;> omega

/-- Every client in the system is kept, and one that is paging has a cursor. -/
def QuerySystem.Kept (resolve : ℕ → Option Text) (pageSize : ℕ) (s : QuerySystem) : Prop :=
  ∀ k client, s.clients k = some client →
    client.Kept resolve pageSize ∧ (client.status = .paging → client.cursorId ≠ 0)

variable (hkept : s.Kept resolve pageSize)
include hkept

theorem QuerySystem.Kept.call (k : ℕ) (hclient : client.Kept resolve pageSize)
    (hpaging : client.status = .paging) (hid : id ≠ 0)
    (hreply : (queryMetadata resolve pageSize client.request s.cache).1 =
      .page client.query.ids.length id (client.nextPage resolve pageSize)) :
    (s.call resolve pageSize k client).Kept resolve pageSize := by
  intro k' client' hclient'
  have hcall : (s.call resolve pageSize k client).clients =
      Function.update s.clients k (some (client.advance resolve pageSize id)) := by
    simp only [QuerySystem.call, hreply]
    rfl
  rw [hcall] at hclient'
  by_cases hk : k' = k
  · rw [hk, Function.update_self, Option.some.injEq] at hclient'
    subst hclient'
    exact ⟨hclient.advance hpaging id, fun _ ↦ by rwa [QueryClient.advance_cursorId]⟩
  · rw [Function.update_of_ne hk] at hclient'
    exact hkept k' client' hclient'

theorem QuerySystem.Kept.step {event : QueryEvent} (hheld : HeldEvent s event) :
    (s.step resolve pageSize event).Kept resolve pageSize := by
  cases event with
  | start k query =>
    obtain ⟨id, hid, hreply⟩ := @queryMetadata_first resolve pageSize (.fresh query) s.cache rfl
      (by simp [QueryClient.fresh])
    exact hkept.call k (QueryClient.kept_fresh query) rfl hid hreply
  | next k =>
    cases hclient : s.clients k with
    | none => simpa only [QuerySystem.step, hclient] using hkept
    | some client =>
      obtain ⟨hkeptClient, hcursor⟩ := hkept k client hclient
      by_cases hpaging : client.status = .paging
      · have hreply := @queryMetadata_next resolve pageSize client s.cache (hcursor hpaging)
          (hheld client hclient hpaging) (hkeptClient.going.offset_ne hpaging)
        have hcall := hkept.call k hkeptClient hpaging (hcursor hpaging) hreply
        simpa only [QuerySystem.step, hclient, if_pos hpaging] using hcall
      · simpa only [QuerySystem.step, hclient, if_neg hpaging] using hkept
  | count query => exact hkept

theorem QuerySystem.Kept.run {events : List QueryEvent} (hheld : HeldRun resolve pageSize s events) :
    (s.run resolve pageSize events).Kept resolve pageSize := by
  induction events generalizing s with
  | nil => exact hkept
  | cons event events ih => exact ih (hkept.step hheld.1) hheld.2

end Call

/-- In every run in which no cursor is pushed out while its client still needs it, every client is
told the number of matches at every call and is done after at most one call for each path and one
more. One whose query is careful has received every match that has a path once, and as long as the
offsets stay within 32 bits no other has. -/
theorem pages_cover_answer_once (resolve : ℕ → Option Text) (pageSize : ℕ)
    (events : List QueryEvent) (hheld : HeldRun resolve pageSize .initial events) (k : ℕ)
    (client : QueryClient)
    (hclient : (QuerySystem.initial.run resolve pageSize events).clients k = some client) :
    client.status ≠ .failed ∧ (∀ total ∈ client.totals, total = client.query.ids.length) ∧
      client.calls ≤ client.results.length + 1 ∧
      (CarefulQuery resolve pageSize client.query →
        client.results <+: client.query.answer resolve ∧
          (client.status = .finished → client.Served resolve)) ∧
      (client.query.ids.length + pageSize ≤ 2 ^ 32 → 0 < pageSize → client.status = .finished →
        client.Served resolve → CarefulQuery resolve pageSize client.query) := by
  have hinitial : QuerySystem.initial.Kept resolve pageSize := fun k client h ↦ by
    simp [QuerySystem.initial] at h
  obtain ⟨hkept, -⟩ := hinitial.run hheld k client hclient
  refine ⟨hkept.going.not_failed, hkept.going.totals_eq, ?_, fun hcareful ↦ ?_,
    fun hfits hsize hfinished hserved ↦
      (hkept.trace hfits hsize).careful_of_served hfits hsize hkept.going hfinished hserved⟩
  · have hcalls := hkept.going.calls_le
    split_ifs at hcalls <;> omega
  · have horder := hkept.inOrder hcareful
    refine ⟨horder.results_eq ▸ List.take_prefix _ _, fun hfinished ↦ ?_⟩
    rw [QueryClient.Served, horder.results_eq, horder.done hfinished, List.take_length]

/-- A query with the answer `1, …, n`. -/
def queryUpTo (n : ℕ) (hn : n < 2 ^ 32) : PagedQuery where
  filterCount := 1
  combine := 0
  ids := List.range' 1 n
  filterCount_mem := by decide
  combine_le := by decide
  ids_sorted := List.pairwise_lt_range'
  ids_lt := by simpa using hn

/-- Nine matches are two pages, with another query asked between them. -/
theorem pages_cover_answer_once_nine :
    ∃ client, (QuerySystem.initial.run (fun id ↦ some [id]) metadataQueryMaxResults
        [.start 0 (queryUpTo 9 (by decide)), .start 1 (queryUpTo 3 (by decide)), .next 0]).clients 0 =
          some client ∧
      client.status = .finished ∧ client.totals = [9, 9] ∧ client.Served (fun id ↦ some [id]) := by
  refine ⟨_, rfl, by decide, by decide, ?_⟩
  have hheld : HeldRun (fun id ↦ some [id]) metadataQueryMaxResults .initial
      [.start 0 (queryUpTo 9 (by decide)), .start 1 (queryUpTo 3 (by decide)), .next 0] := by
    refine ⟨trivial, trivial, fun client hclient _ ↦ ?_, trivial⟩
    obtain rfl := Option.some.inj hclient
    exact ⟨⟨0, by decide⟩, by decide, by decide⟩
  have hmain := pages_cover_answer_once _ _ _ hheld 0 _ rfl
  refine (hmain.2.2.2.1 ⟨by decide, by decide, by decide⟩).2 (by decide)

/-- Two matches, the first without a path: the second is received twice. And nine matches of which
eight are received: four other queries come before the next call, which is refused. -/
theorem page_repeated_or_refused :
    (∃ client, (QuerySystem.initial.run (fun id ↦ if id = 1 then none else some [id])
        metadataQueryMaxResults [.start 0 (queryUpTo 2 (by decide)), .next 0]).clients 0 =
          some client ∧
      client.status = .finished ∧ client.results = [(2, [2]), (2, [2])] ∧
      ¬client.Served (fun id ↦ if id = 1 then none else some [id])) ∧
    ∃ client, (QuerySystem.initial.run (fun id ↦ some [id]) metadataQueryMaxResults
        [.start 0 (queryUpTo 9 (by decide)), .count (queryUpTo 9 (by decide)),
          .count (queryUpTo 9 (by decide)), .count (queryUpTo 9 (by decide)),
          .count (queryUpTo 9 (by decide)), .next 0]).clients 0 = some client ∧
      client.status = .failed ∧ client.results.length = 8 ∧
      ¬client.Served (fun id ↦ some [id]) := by
  refine ⟨⟨_, rfl, by decide, by decide, ?_⟩, _, rfl, by decide, by decide, ?_⟩
  · intro hserved
    have := hserved.length_eq
    revert this
    decide
  · intro hserved
    have := hserved.length_eq
    revert this
    decide

end Obmafs3
