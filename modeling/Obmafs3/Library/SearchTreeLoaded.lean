import Obmafs3.Library.SearchTreeAscending
import Obmafs3.Library.SearchTreeScan
import Mathlib.Data.List.Perm.Subperm

/-!
# Trees that insertions alone have made

When nothing is ever taken out, a separator outside the first slots is the least key below it, and
the key of a record: `Sound`. Only the way through the first slots leads to keys below their
separators. `Loaded` is this invariant. An insertion in a loaded tree is safe whatever its key, and
one that is refused loses a record.
-/

set_option autoImplicit false

namespace Obmafs3.Library.SearchTree

open Search

variable {α κ ρ : Type} [LinearOrder κ] (key : ρ → κ)

/-- The separator of an entry is the least key below it, and the key of a record. -/
def Least {height : ℕ} (e : κ × Tree α κ ρ height) : Prop :=
  (∃ q ∈ records height e.2, key q = e.1) ∧ ∀ x ∈ span key height e.2, e.1 ≤ x

/-- Every separator is the least key below it. -/
def Exact : (height : ℕ) → Tree α κ ρ height → Prop
  | 0, _ => True
  | height + 1, (_, es) => ∀ e ∈ es, Least key e ∧ Exact height e.2

def Sound {height : ℕ} (e : κ × Tree α κ ρ height) : Prop := Least key e ∧ Exact key height e.2

/-- All entries but the first are sound. -/
def Row {height : ℕ} (P : κ × Tree α κ ρ height → Prop) : List (κ × Tree α κ ρ height) → Prop
  | [] => True
  | e :: es => P e ∧ ∀ f ∈ es, Sound key f

/-- Every separator outside the first slots is the least key below it. -/
def Loaded : (height : ℕ) → Tree α κ ρ height → Prop
  | 0, _ => True
  | height + 1, (_, es) => Row key (fun e ↦ Loaded height e.2) es

variable {key}

variable {height : ℕ} {t : Tree α κ ρ height} {rs : List ρ} {r : ρ} {a : α}

theorem Exact.floored (hexact : Exact key height t) : Floored key height t := by
  induction height with
  | zero => trivial
  | succ height ih => exact fun e he ↦ ⟨ih (hexact e he).2, (hexact e he).1.2⟩

/-- A tree with a record at or below a key admits the key. -/
theorem Exact.admits {k : κ} (hordered : Ordered key height t) (hexact : Exact key height t)
    (hbelow : ∃ q ∈ records height t, key q ≤ k) : Admits k height t := by
  induction height with
  | zero => trivial
  | succ height ih =>
    obtain ⟨a, es⟩ := t
    obtain ⟨before, entry, after, hrouted⟩ := hordered.route k
    intro e he
    obtain rfl : entry = e := Option.some.inj (hrouted.getElem?.symm.trans he)
    obtain ⟨hleast, hentry⟩ := hexact entry hrouted.mem
    have hle : entry.1 ≤ k := by
      by_cases hbefore : before = []
      · obtain ⟨q, hq, hqk⟩ := hbelow
        obtain ⟨f, hf, hq⟩ := List.mem_flatMap.mp hq
        have hfq := (hexact f hf).1.2 _ (mem_span_of_record hq)
        rw [hrouted.eq, hbefore] at hf
        rcases List.mem_cons.mp hf with rfl | hf
        · exact hfq.trans hqk
        · exact absurd (hfq.trans hqk) (not_le.mpr (hrouted.lt f hf))
      · exact hrouted.le hbefore
    obtain ⟨q, hq, hqk⟩ := hleast.1
    exact ⟨hle, ih (hordered.2.1 entry hrouted.mem) hentry ⟨q, hq, hqk.trans_le hle⟩⟩

variable {leafMax indexMax : ℕ}

/-- Insertions in a loaded tree are safe. -/
theorem Loaded.safe (hordered : Ordered key height t) (hloaded : Loaded key height t) :
    Safe key leafMax indexMax r height t := by
  induction height with
  | zero => trivial
  | succ height ih =>
    obtain ⟨a, es⟩ := t
    obtain ⟨before, entry, after, hrouted⟩ := hordered.route (key r)
    intro e he
    obtain rfl : entry = e := Option.some.inj (hrouted.getElem?.symm.trans he)
    have hchild := hordered.2.1 entry hrouted.mem
    have hrow := hloaded
    rw [Loaded, hrouted.eq] at hrow
    cases before with
    | nil => exact ⟨ih hchild hrow.1, fun _ hslot ↦ absurd hrouted.slot hslot⟩
    | cons b before =>
      obtain ⟨hleast, hexact⟩ := hrow.2 entry (List.mem_append_right _ List.mem_cons_self)
      have hle := hrouted.le (List.cons_ne_nil b before)
      obtain ⟨q, hq, hqk⟩ := hleast.1
      refine ⟨safe_of_floored hchild hexact.floored
        (hexact.admits hchild ⟨q, hq, hqk.trans_le hle⟩), fun _ _ ↦ ?_⟩
      rw [hrouted.take]
      exact separates_of_floored hordered hrouted hle hexact.floored hleast.2

/-! ### Nodes that divide -/

/-- A node of sound entries under its first separator. -/
theorem sound_node {d : κ} {es : List (κ × Tree α κ ρ height)}
    (hordered : Ordered key (height + 1) (a, es)) (hsound : ∀ e ∈ es, Sound key e) :
    @Sound α κ ρ _ key (height + 1) (firstKey d (es.map Prod.fst), (a, es)) := by
  obtain ⟨hne, -, hapart⟩ := hordered
  obtain ⟨e, es, rfl⟩ := List.exists_cons_of_ne_nil hne
  obtain ⟨q, hq, hqk⟩ := (hsound e List.mem_cons_self).1.1
  refine ⟨⟨⟨q, List.mem_flatMap.mpr ⟨e, List.mem_cons_self, hq⟩, hqk⟩, ?_⟩, hsound⟩
  exact firstKey_le_span (d := d) hapart fun f hf ↦ (hsound f hf).1.2

/-- A leaf under its first key. -/
theorem sound_leaf {d : κ} (hsorted : (rs.map key).Pairwise (· < ·)) (hne : rs ≠ []) :
    @Sound α κ ρ _ key 0 (firstKey d (rs.map key), (a, rs)) := by
  obtain ⟨r, rs, rfl⟩ := List.exists_cons_of_ne_nil hne
  exact ⟨⟨⟨r, List.mem_cons_self, rfl⟩, fun x hx ↦ firstKey_le_of_sorted (d := d) hsorted hx⟩,
    trivial⟩

section Rows

variable {height : ℕ} {P : κ × Tree α κ ρ height → Prop}

variable {es : List (κ × Tree α κ ρ height)}

theorem Row.take (hrow : Row key P es) (n : ℕ) : Row key P (es.take n) := by
  cases es with
  | nil => rwa [List.take_nil]
  | cons e es =>
    cases n with
    | zero => trivial
    | succ n => exact ⟨hrow.1, fun f hf ↦ hrow.2 f (List.mem_of_mem_take hf)⟩

theorem Row.drop (hrow : Row key P es) {n : ℕ} (hn : 0 < n) : ∀ e ∈ es.drop n, Sound key e := by
  cases es with
  | nil => simp
  | cons e es =>
    obtain ⟨n, rfl⟩ := Nat.exists_eq_succ_of_ne_zero hn.ne'
    exact fun f hf ↦ hrow.2 f (List.mem_of_mem_drop hf)

/-- What an entry must be to stand behind these. -/
def Placed (key : ρ → κ) (P : κ × Tree α κ ρ height → Prop)
    (before : List (κ × Tree α κ ρ height)) : κ × Tree α κ ρ height → Prop :=
  match before with
  | [] => P
  | _ :: _ => Sound key

theorem Row.placed {before after : List (κ × Tree α κ ρ height)} {e : κ × Tree α κ ρ height}
    (hrow : Row key P (before ++ e :: after)) : Placed key P before e := by
  cases before with
  | nil => exact hrow.1
  | cons b before => exact hrow.2 e (List.mem_append_right _ List.mem_cons_self)

/-- New entries in the place of one. -/
theorem Row.replace {before after new : List (κ × Tree α κ ρ height)}
    {e f : κ × Tree α κ ρ height} (hrow : Row key P (before ++ e :: after))
    (hf : Placed key P before f) (hnew : ∀ g ∈ new, Sound key g) :
    Row key P (before ++ f :: (new ++ after)) := by
  cases before with
  | nil => exact ⟨hf, List.forall_mem_append.mpr ⟨hnew, hrow.2⟩⟩
  | cons b before =>
    obtain ⟨hbefore, hrest⟩ := List.forall_mem_append.mp hrow.2
    exact ⟨hrow.1, List.forall_mem_append.mpr ⟨hbefore, List.forall_mem_cons.mpr
      ⟨hf, List.forall_mem_append.mpr ⟨hnew, (List.forall_mem_cons.mp hrest).2⟩⟩⟩⟩

end Rows

/-- The entries that a parent makes of an outcome, and that a refused one has no more records than
were there. -/
def Outcome.Entries {height : ℕ} (key : ρ → κ) (P : κ × Tree α κ ρ height → Prop) (k : κ) (n : ℕ) :
    Outcome α κ ρ height → Prop
  | .kept t => P (k, t)
  | .split left low right push => P (low, left) ∧ Sound key (push, right)
  | .refused t => (records height t).length ≤ n

/-- The entries of an index node and of the halves it divides into. -/
def Outcome.Rows {height : ℕ} (key : ρ → κ) (P : κ × Tree α κ ρ height → Prop) (n : ℕ) :
    Outcome α κ ρ (height + 1) → Prop
  | .kept t => Row key P t.2
  | .split left low right push =>
    Row key P left.2 ∧ firstKey push (left.2.map Prod.fst) = low ∧
      @Sound α κ ρ _ key (height + 1) (push, right)
  | .refused t => (records (height + 1) t).length ≤ n

theorem graft_rows {indexMax height : ℕ} (hindexMax : 1 ≤ indexMax) {fresh : Option α}
    {before after : List (κ × Tree α κ ρ height)} {e : κ × Tree α κ ρ height}
    {P : κ × Tree α κ ρ height → Prop} (hrow : Row key P (before ++ e :: after))
    {o : Outcome α κ ρ height}
    (ho : o.Entries key (Placed key P before) e.1 (records height e.2).length)
    (hrecords : o.Records rs) (hlength : rs.length ≤ (records height e.2).length + 1)
    (hordered : (graft indexMax fresh a before e.1 after o).Ordered key) :
    (graft indexMax fresh a before e.1 after o).Rows key P
      ((before ++ e :: after).flatMap fun e ↦ records height e.2).length := by
  cases o with
  | kept t => exact hrow.replace ho (List.forall_mem_nil _)
  | refused t =>
    simp only [Outcome.Entries] at ho
    simp only [graft, Outcome.Rows, records_index, List.flatMap_append, List.flatMap_cons,
      List.length_append]
    omega
  | split left low right push =>
    obtain ⟨hleft, hright⟩ := ho
    have hes : Row key P (before ++ (low, left) :: (push, right) :: after) :=
      hrow.replace hleft (List.forall_mem_singleton.mpr hright)
    simp only [graft] at hordered ⊢
    split_ifs at hordered ⊢ with hroom
    · exact hes
    · cases fresh with
      | none =>
        obtain ⟨q, hq, -⟩ := hright.1.1
        have hpos : 0 < (records height right).length := List.length_pos_of_mem hq
        have hboth := congrArg List.length hrecords
        simp only [List.length_append] at hboth
        simp only [Outcome.Rows, records_index, List.flatMap_append, List.flatMap_cons,
          List.length_append]
        omega
      | some b =>
        have hhalf : 0 < half indexMax := half_pos hindexMax
        refine ⟨hes.take _, ?_, sound_node hordered.right_ordered (hes.drop hhalf)⟩
        have hne := hordered.left_ordered.1
        conv_rhs => rw [← List.take_append_drop (half indexMax)
          (before ++ (low, left) :: (push, right) :: after), List.map_append]
        rw [firstKey_append_of_ne (by simpa using hne)]
        exact firstKey_eq_of_ne (by simpa using hne)

/-! ### Insertions -/

theorem length_upsert_le : (upsert key r rs).length ≤ rs.length + 1 := by
  have hdisjoint : (rs.filter (key · < key r)).length + (rs.filter (key r < key ·)).length ≤
      rs.length := by
    induction rs with
    | nil => exact le_rfl
    | cons q rs ih =>
      simp only [List.filter_cons, decide_eq_true_eq]
      split_ifs with hlt hgt
      · exact absurd hgt hlt.not_gt
      all_goals
        simp only [List.length_cons]
        omega
  rw [upsert, List.length_append, List.length_cons]
  omega

/-- A key that is there stays there. -/
theorem exists_mem_upsert {k : κ} (hk : ∃ q ∈ rs, key q = k) :
    ∃ q ∈ upsert key r rs, key q = k := by
  obtain ⟨q, hq, hqk⟩ := hk
  by_cases hsame : key q = key r
  · exact ⟨r, mem_upsert.mpr (Or.inl rfl), hsame.symm.trans hqk⟩
  · exact ⟨q, mem_upsert.mpr (Or.inr ⟨hq, hsame⟩), hqk⟩

/-- The entry of a node that was not divided. -/
theorem put_least {fresh : ℕ → Option α} {e : κ × Tree α κ ρ height} {u : Tree α κ ρ height}
    (hordered : Ordered key height e.2) (hleast : Least key e) (hle : e.1 ≤ key r)
    (hput : put key leafMax indexMax fresh r height e.2 = .kept u) : Least key (e.1, u) := by
  have hrecords : (put key leafMax indexMax fresh r height e.2).Records _ := put_records hordered
  have hspan : All (fun x ↦ e.1 ≤ x) (fun q ↦ e.1 ≤ key q) height e.2 := forall_span_iff.mp hleast.2
  have hall : (put key leafMax indexMax fresh r height e.2).All (fun x ↦ e.1 ≤ x)
      fun q ↦ e.1 ≤ key q := put_all (Q := fun q ↦ e.1 ≤ key q) (fun _ h ↦ h) hle hspan
  rw [hput] at hrecords hall
  refine ⟨?_, forall_span_iff.mpr hall⟩
  obtain ⟨q, hq, hqk⟩ := exists_mem_upsert (r := r) hleast.1
  exact ⟨q, hrecords ▸ hq, hqk⟩

section Put

variable {leafMax indexMax : ℕ} {fresh : ℕ → Option α} {r : ρ}

/-- The halves of a leaf are sound. -/
theorem put_leaf (hleafMax : 1 ≤ leafMax) {t : Tree α κ ρ 0} (hordered : Ordered key 0 t) {k : κ}
    {P : κ × Tree α κ ρ 0 → Prop}
    (hkept : ∀ u, put key leafMax indexMax fresh r 0 t = .kept u → P (k, u))
    (hsound : ∀ e, Sound key e → P e) :
    (put key leafMax indexMax fresh r 0 t).Entries key P k (records 0 t).length := by
  obtain ⟨a, rs⟩ := t
  rw [put] at hkept ⊢
  cases hfind : leafFind (rs.map key) (key r) with
  | found i =>
    rw [hfind] at hkept
    exact hkept _ rfl
  | absent i =>
    rw [hfind] at hkept
    dsimp only at hkept ⊢
    obtain ⟨hle, hbefore, hafter⟩ := leafFind_absent hordered hfind
    have hnew := upsert_pairwise (r := r) hordered
    rw [← insertIdx_eq_upsert (by simpa using hle) hbefore hafter] at hnew
    generalize rs.insertIdx i r = new at hkept hnew ⊢
    unfold settleLeaf at hkept ⊢
    split_ifs at hkept ⊢ with hroom
    · exact hkept _ rfl
    · cases fresh 0 with
      | none => exact le_rfl
      | some b =>
        have htake : new.take (half leafMax) ≠ [] := by
          have := half_pos hleafMax
          rw [Ne, List.take_eq_nil_iff]
          rintro (hzero | rfl)
          · omega
          · simp at hroom
        have hdrop : new.drop (half leafMax) ≠ [] := by
          have := half_le leafMax
          rw [Ne, List.drop_eq_nil_iff]
          omega
        have hlow : firstKey (key r) (new.map key) =
            firstKey (key r) ((new.take (half leafMax)).map key) := by
          conv_lhs => rw [← List.take_append_drop (half leafMax) new, List.map_append]
          exact firstKey_append_of_ne (by simpa using htake)
        dsimp only
        rw [hlow]
        refine ⟨hsound _ (sound_leaf ?_ htake), sound_leaf ?_ hdrop⟩
        · rw [List.map_take]
          exact hnew.sublist (List.take_sublist _ _)
        · rw [List.map_drop]
          exact hnew.sublist (List.drop_sublist _ _)

theorem row_sound {height : ℕ} {es : List (κ × Tree α κ ρ height)} :
    Row key (Sound key) es ↔ ∀ e ∈ es, Sound key e := by
  cases es with
  | nil => exact ⟨fun _ ↦ List.forall_mem_nil _, fun _ ↦ trivial⟩
  | cons e es => exact List.forall_mem_cons.symm

variable (hleafMax : 1 ≤ leafMax) (hindexMax : 1 ≤ indexMax)
include hleafMax hindexMax

/-- An insertion at or above the separator of a sound entry. -/
theorem put_sound {height : ℕ} {e : κ × Tree α κ ρ height} (hordered : Ordered key height e.2)
    (hsound : Sound key e) (hle : e.1 ≤ key r) :
    (put key leafMax indexMax fresh r height e.2).Entries key (Sound key) e.1
      (records height e.2).length := by
  obtain ⟨hleast, hexact⟩ := hsound
  induction height with
  | zero =>
    exact put_leaf hleafMax hordered (fun u hput ↦ ⟨put_least hordered hleast hle hput, trivial⟩)
      fun _ h ↦ h
  | succ height ih =>
    obtain ⟨q, hq, hqk⟩ := hleast.1
    have hadmits := hexact.admits hordered ⟨q, hq, hqk.trans_le hle⟩
    have hafter : (put key leafMax indexMax fresh r (height + 1) e.2).Ordered key :=
      put_ordered hleafMax hindexMax hordered (safe_of_floored hordered hexact.floored hadmits)
    have hkept (u : Tree α κ ρ (height + 1))
        (hput : put key leafMax indexMax fresh r (height + 1) e.2 = .kept u) :=
      put_least hordered hleast hle hput
    obtain ⟨k, a, es⟩ := e
    dsimp only at hordered hexact hadmits hafter hkept ⊢
    obtain ⟨before, entry, after, hrouted⟩ := hordered.route (key r)
    have hentry := hordered.2.1 entry hrouted.mem
    obtain ⟨hleast', hexact'⟩ := hexact entry hrouted.mem
    have hrow : Row key (Sound key) (before ++ entry :: after) := by
      rw [← hrouted.eq]
      exact row_sound.mpr hexact
    have hplaced : Placed key (Sound key) before = Sound key := by cases before <;> rfl
    have ho : (put key leafMax indexMax fresh r height entry.2).Entries key
        (Placed key (Sound key) before) entry.1 (records height entry.2).length := by
      rw [hplaced]
      exact ih hentry (hadmits entry hrouted.getElem?).1 hleast' hexact'
    have hrecords : (put key leafMax indexMax fresh r height entry.2).Records _ :=
      put_records hentry
    rw [hrouted.put] at hafter hkept ⊢
    have hrows := graft_rows hindexMax hrow ho hrecords length_upsert_le hafter
    rw [← hrouted.eq] at hrows
    cases hout : graft indexMax (fresh (height + 1)) a before entry.1 after
        (put key leafMax indexMax fresh r height entry.2) with
    | kept u =>
      rw [hout] at hrows
      exact ⟨hkept u hout, row_sound.mp hrows⟩
    | refused u =>
      rw [hout] at hrows
      exact hrows
    | split left low right push =>
      rw [hout] at hrows hafter
      obtain ⟨hleft, rfl, hright⟩ := hrows
      exact ⟨sound_node hafter.left_ordered (row_sound.mp hleft), hright⟩

/-- An insertion in a loaded tree. -/
theorem put_loaded {height : ℕ} {t : Tree α κ ρ height} (hordered : Ordered key height t)
    (hloaded : Loaded key height t) (k : κ) :
    (put key leafMax indexMax fresh r height t).Entries key (fun e ↦ Loaded key height e.2) k
      (records height t).length := by
  induction height generalizing k with
  | zero => exact put_leaf hleafMax hordered (fun _ _ ↦ trivial) fun _ _ ↦ trivial
  | succ height ih =>
    have hafter : (put key leafMax indexMax fresh r (height + 1) t).Ordered key :=
      put_ordered hleafMax hindexMax hordered (hloaded.safe hordered)
    obtain ⟨a, es⟩ := t
    obtain ⟨before, entry, after, hrouted⟩ := hordered.route (key r)
    have hentry := hordered.2.1 entry hrouted.mem
    have hrow : Row key (fun e ↦ Loaded key height e.2) (before ++ entry :: after) := by
      rw [← hrouted.eq]
      exact hloaded
    have ho : (put key leafMax indexMax fresh r height entry.2).Entries key
        (Placed key (fun e ↦ Loaded key height e.2) before) entry.1
          (records height entry.2).length := by
      have hplaced := hrow.placed
      cases before with
      | nil => exact ih hentry hplaced entry.1
      | cons b before =>
        exact put_sound hleafMax hindexMax hentry hplaced (hrouted.le (List.cons_ne_nil b before))
    have hrecords : (put key leafMax indexMax fresh r height entry.2).Records _ :=
      put_records hentry
    rw [hrouted.put] at hafter ⊢
    have hrows := graft_rows hindexMax hrow ho hrecords length_upsert_le hafter
    rw [← hrouted.eq] at hrows
    cases hout : graft indexMax (fresh (height + 1)) a before entry.1 after
        (put key leafMax indexMax fresh r height entry.2) with
    | kept u =>
      rw [hout] at hrows
      exact hrows
    | refused u =>
      rw [hout] at hrows
      exact hrows
    | split left low right push =>
      rw [hout] at hrows
      exact ⟨hrows.1, hrows.2.2⟩

end Put

/-! ### Whole trees -/

namespace Root

def Loaded (key : ρ → κ) : Root α κ ρ → Prop
  | empty => True
  | node height t => SearchTree.Loaded key height t

variable {leafMax indexMax : ℕ} {fresh : ℕ → Option α} {r : ρ} {root : Root α κ ρ}

theorem Loaded.safe (hordered : root.Ordered key) (hloaded : root.Loaded key) :
    root.Safe key leafMax indexMax r := by
  cases root with
  | empty => trivial
  | node height t => exact SearchTree.Loaded.safe hordered hloaded

variable (hleafMax : 1 ≤ leafMax) (hindexMax : 1 ≤ indexMax) (hordered : root.Ordered key)
  (hloaded : root.Loaded key)
include hleafMax hindexMax hordered hloaded

/-- An insertion that is done keeps a tree loaded, and one that is refused adds no record. -/
theorem Loaded.put :
    if (root.put key leafMax indexMax fresh r).2 then
      (root.put key leafMax indexMax fresh r).1.Loaded key
    else (root.put key leafMax indexMax fresh r).1.records.length ≤ root.records.length := by
  cases root with
  | empty =>
    rw [Root.put]
    cases fresh 0 with
    | none => exact le_rfl
    | some a => trivial
  | node height t =>
    have hentries : (SearchTree.put key leafMax indexMax fresh r height t).Entries key
        (fun e ↦ SearchTree.Loaded key height e.2) (key r) (SearchTree.records height t).length :=
      put_loaded hleafMax hindexMax hordered hloaded (key r)
    have hrecords : (SearchTree.put key leafMax indexMax fresh r height t).Records _ :=
      put_records hordered
    rw [Root.put]
    generalize SearchTree.put key leafMax indexMax fresh r height t = out at hentries hrecords ⊢
    cases out with
    | kept u => exact hentries
    | refused u => exact hentries
    | split left low right push =>
      obtain ⟨hleft, hright⟩ := hentries
      cases fresh (height + 1) with
      | none =>
        obtain ⟨q, hq, -⟩ := hright.1.1
        have hpos : 0 < (SearchTree.records height right).length := List.length_pos_of_mem hq
        have hboth := congrArg List.length hrecords
        have hupsert : (upsert key r (SearchTree.records height t)).length ≤
            (SearchTree.records height t).length + 1 := length_upsert_le
        simp only [List.length_append] at hboth
        change (SearchTree.records height left).length ≤ (SearchTree.records height t).length
        omega
      | some b => exact ⟨hleft, List.forall_mem_singleton.mpr hright⟩

/-- A new record that is refused, or one that was there, is missing afterwards. -/
theorem Loaded.lost (hnew : ∀ q ∈ root.records, key q ≠ key r)
    (hrefused : (root.put key leafMax indexMax fresh r).2 = false) :
    ∃ q, (q = r ∨ q ∈ root.records) ∧ q ∉ (root.put key leafMax indexMax fresh r).1.records := by
  have hlength : if (root.put key leafMax indexMax fresh r).2 then _ else
      (root.put key leafMax indexMax fresh r).1.records.length ≤ root.records.length :=
    hloaded.put hleafMax hindexMax hordered
  rw [hrefused, if_neg Bool.false_ne_true] at hlength
  by_contra! hall
  have hnodup : (r :: root.records).Nodup :=
    List.nodup_cons.mpr ⟨fun hr ↦ hnew r hr rfl, (records_pairwise hordered).of_map key
      fun _ _ hlt hsame ↦ hlt.ne (congrArg key hsame)⟩
  have hsubset : r :: root.records ⊆ (root.put key leafMax indexMax fresh r).1.records :=
    fun q hq ↦ hall q (List.mem_cons.mp hq)
  have hle := (List.subperm_of_subset hnodup hsubset).length_le
  rw [List.length_cons] at hle
  omega

end Root

end Obmafs3.Library.SearchTree
