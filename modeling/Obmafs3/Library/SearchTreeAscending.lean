import Obmafs3.Library.SearchTreeRefused

/-!
# Trees that grow at their end

A store that hands out ascending keys puts every new record behind all others. In such a tree each
separator is at or below everything in its subtree, in the first slot of a node too: `Floored`. An
insertion that no first slot catches below its separator keeps this, and it is a safe one, so the
order needs no further condition. `Ascending` is the invariant of a whole tree, with a bound above
all of its keys: a record at or above the bound may enter, a record may be replaced under its key,
and a record may leave.
-/

set_option autoImplicit false

namespace Obmafs3.Library.SearchTree

open Search

variable {α κ ρ : Type} [LinearOrder κ] {key : ρ → κ}

/-- Every separator is at or below every key in its subtree. -/
def Floored (key : ρ → κ) : (height : ℕ) → Tree α κ ρ height → Prop
  | 0, _ => True
  | height + 1, (_, es) => ∀ e ∈ es, Floored key height e.2 ∧ ∀ x ∈ span key height e.2, e.1 ≤ x

/-- No slot on the way of a search catches the key below its separator. -/
def Admits (k : κ) : (height : ℕ) → Tree α κ ρ height → Prop
  | 0, _ => True
  | height + 1, (_, es) => ∀ e, es[route es k]? = some e → e.1 ≤ k ∧ Admits k height e.2

/-! ### Keys that a tree admits -/

variable {height : ℕ} {t : Tree α κ ρ height} {r : ρ} {k : κ} {a : α}

theorem admits_above (habove : ∀ x ∈ span key height t, x ≤ k) : Admits k height t := by
  induction height with
  | zero => trivial
  | succ height ih =>
    obtain ⟨a, es⟩ := t
    intro e he
    have hmem := List.mem_of_getElem? he
    exact ⟨habove e.1 (List.mem_flatMap.mpr ⟨e, hmem, List.mem_cons_self⟩),
      ih fun x hx ↦ habove x (List.mem_flatMap.mpr ⟨e, hmem, List.mem_cons_of_mem _ hx⟩)⟩

theorem admits_found (hfloored : Floored key height t) {q : ρ}
    (hfound : lookup key k height t = some q) : Admits k height t := by
  induction height with
  | zero => trivial
  | succ height ih =>
    obtain ⟨a, es⟩ := t
    intro e he
    rw [lookup, he] at hfound
    obtain ⟨hentry, hfloor⟩ := hfloored e (List.mem_of_getElem? he)
    have hle := hfloor _ (mem_span_of_record (lookup_mem hfound))
    rw [lookup_key hfound] at hle
    exact ⟨hle, ih hentry hfound⟩

/-! ### Insertions -/

theorem firstKey_le_of_sorted {d : κ} {keys : List κ} (hsorted : keys.Pairwise (· < ·))
    (hk : k ∈ keys) : firstKey d keys ≤ k := by
  obtain ⟨k₀, keys, rfl⟩ := List.exists_cons_of_ne_nil (List.ne_nil_of_mem hk)
  rcases List.mem_cons.mp hk with rfl | hk
  · exact le_rfl
  · exact (List.rel_of_pairwise_cons hsorted hk).le

/-- The first separator of a floored node is at or below every key in it. -/
theorem firstKey_le_span {d : κ} {es : List (κ × Tree α κ ρ height)}
    (hapart : es.Pairwise (Apart key)) (hfloor : ∀ e ∈ es, ∀ x ∈ span key height e.2, e.1 ≤ x) :
    ∀ x ∈ es.flatMap fun e ↦ e.1 :: span key height e.2, firstKey d (es.map Prod.fst) ≤ x := by
  intro x hx
  obtain ⟨e, he, hx⟩ := List.mem_flatMap.mp hx
  have hfirst : firstKey d (es.map Prod.fst) ≤ e.1 :=
    firstKey_le_of_sorted (separators_pairwise hapart) (List.mem_map_of_mem he)
  rcases List.mem_cons.mp hx with rfl | hx
  · exact hfirst
  · exact hfirst.trans (hfloor e he x hx)

theorem le_lowKey {c : κ} (hr : c ≤ key r) (ht : ∀ x ∈ span key height t, c ≤ x) :
    c ≤ lowKey key r height t := by
  induction height with
  | zero => exact le_min hr (firstKey_of_forall hr ht)
  | succ height ih =>
    obtain ⟨a, es⟩ := t
    rw [lowKey]
    split_ifs
    · cases hslot : es[route es (key r)]? with
      | none => exact hr
      | some e =>
        exact ih fun x hx ↦ ht x (List.mem_flatMap.mpr
          ⟨e, List.mem_of_getElem? hslot, List.mem_cons_of_mem _ hx⟩)
    · refine firstKey_of_forall hr (List.forall_mem_map.mpr fun e he ↦ ?_)
      exact ht e.1 (List.mem_flatMap.mpr ⟨e, he, List.mem_cons_self⟩)

theorem lowKey_le_records (hordered : Ordered key height t) (hfloored : Floored key height t) :
    ∀ q ∈ records height t, lowKey key r height t ≤ key q := by
  induction height with
  | zero =>
    obtain ⟨a, rs⟩ := t
    intro q hq
    exact (min_le_right _ _).trans (firstKey_le_of_sorted hordered (List.mem_map_of_mem hq))
  | succ height ih =>
    obtain ⟨a, es⟩ := t
    intro q hq
    obtain ⟨before, entry, after, hrouted⟩ := hordered.route (key r)
    obtain ⟨hne, hchildren, hapart⟩ := hordered
    rw [lowKey, hrouted.getElem?, hrouted.slot]
    split_ifs with hzero
    · obtain rfl : before = [] := List.length_eq_zero_iff.mp hzero
      obtain ⟨e, he, hq⟩ := List.mem_flatMap.mp hq
      rw [hrouted.eq] at he
      rcases List.mem_cons.mp he with rfl | he
      · exact ih (hchildren e hrouted.mem) (hfloored e hrouted.mem).1 q hq
      · exact (lowKey_le (hchildren entry hrouted.mem)).trans
          (hrouted.lt_after hapart he hq).le
    · exact firstKey_le_span hapart (fun e he ↦ (hfloored e he).2) _ (mem_span_of_record hq)

/-- A floored child at or below the new key hands up a separator that separates. -/
theorem separates_of_floored {es before after : List (κ × Tree α κ ρ height)}
    {entry : κ × Tree α κ ρ height} (hordered : Ordered key (height + 1) (a, es))
    (hrouted : Routed es (key r) before entry after) (hle : entry.1 ≤ key r)
    (hentry : Floored key height entry.2) (hfloor : ∀ x ∈ span key height entry.2, entry.1 ≤ x) :
    (∀ f ∈ before, f.1 < lowKey key r height entry.2 ∧
      ∀ x ∈ span key height f.2, x < lowKey key r height entry.2) ∧
        ∀ q ∈ records height entry.2, lowKey key r height entry.2 ≤ key q := by
  obtain ⟨-, hchildren, hapart⟩ := hordered
  refine ⟨fun f hf ↦ ?_, lowKey_le_records (hchildren entry hrouted.mem) hentry⟩
  rw [hrouted.eq] at hapart
  have happart := (List.pairwise_append.mp hapart).2.2 f hf entry List.mem_cons_self
  have hlow := le_lowKey hle hfloor
  exact ⟨happart.1.trans_le hlow, fun x hx ↦ (happart.2.1 x hx).trans_le hlow⟩

variable {leafMax indexMax : ℕ} {fresh : Option α}

/-- In a floored tree an insertion that every slot admits is safe. -/
theorem safe_of_floored (hordered : Ordered key height t) (hfloored : Floored key height t)
    (hadmits : Admits (key r) height t) : Safe key leafMax indexMax r height t := by
  induction height with
  | zero => trivial
  | succ height ih =>
    obtain ⟨a, es⟩ := t
    obtain ⟨before, entry, after, hrouted⟩ := hordered.route (key r)
    intro e he
    obtain rfl : entry = e := Option.some.inj (hrouted.getElem?.symm.trans he)
    obtain ⟨hle, hbelow⟩ := hadmits entry he
    obtain ⟨hentry, hfloor⟩ := hfloored entry hrouted.mem
    refine ⟨ih (hordered.2.1 entry hrouted.mem) hentry hbelow, fun _ _ ↦ ?_⟩
    rw [hrouted.take]
    exact separates_of_floored hordered hrouted hle hentry hfloor

/-- The trees of an outcome are floored, and so are the entries that a parent makes of two
halves. -/
def Outcome.Floored {height : ℕ} (key : ρ → κ) : Outcome α κ ρ height → Prop
  | .kept t => SearchTree.Floored key height t
  | .split left low right push =>
    (SearchTree.Floored key height left ∧ ∀ x ∈ span key height left, low ≤ x) ∧
      SearchTree.Floored key height right ∧ ∀ x ∈ span key height right, push ≤ x
  | .refused t => SearchTree.Floored key height t

theorem settleLeaf_floored {leafMax : ℕ} {old new : List ρ} (hnew : (new.map key).Pairwise (· < ·))
    : (settleLeaf (κ := κ) key leafMax fresh r a old new).Floored key := by
  unfold settleLeaf
  split_ifs
  · trivial
  · cases fresh with
    | none => trivial
    | some b =>
      refine ⟨⟨trivial, fun x hx ↦ firstKey_le_of_sorted hnew ?_⟩, trivial, fun x hx ↦ ?_⟩
      · rw [span_leaf, List.map_take] at hx
        exact List.mem_of_mem_take hx
      · refine firstKey_le_of_sorted ?_ hx
        rw [List.map_drop]
        exact hnew.sublist (List.drop_sublist _ _)

theorem graft_floored {indexMax height : ℕ} {before after : List (κ × Tree α κ ρ height)}
    {o : Outcome α κ ρ height}
    (hbefore : ∀ e ∈ before, Floored key height e.2 ∧ ∀ x ∈ span key height e.2, e.1 ≤ x)
    (hafter : ∀ e ∈ after, Floored key height e.2 ∧ ∀ x ∈ span key height e.2, e.1 ≤ x)
    (ho : o.Floored key) (hall : o.All (fun x ↦ k ≤ x) fun q ↦ k ≤ key q)
    (hordered : (graft indexMax fresh a before k after o).Ordered key) :
    (graft indexMax fresh a before k after o).Floored key := by
  have hkeep (t : Tree α κ ρ height) (ht : Floored key height t)
      (hk : All (fun x ↦ k ≤ x) (fun q ↦ k ≤ key q) height t) :
      Floored key (height + 1) (a, before ++ (k, t) :: after) :=
    List.forall_mem_append.mpr ⟨hbefore, List.forall_mem_cons.mpr
      ⟨⟨ht, forall_span_iff.mpr hk⟩, hafter⟩⟩
  cases o with
  | kept t => exact hkeep t ho hall
  | refused t => exact hkeep t ho hall
  | split left low right push =>
    obtain ⟨hleft, hright⟩ := ho
    have hes : ∀ e ∈ before ++ (low, left) :: (push, right) :: after,
        Floored key height e.2 ∧ ∀ x ∈ span key height e.2, e.1 ≤ x :=
      List.forall_mem_append.mpr ⟨hbefore, List.forall_mem_cons.mpr
        ⟨hleft, List.forall_mem_cons.mpr ⟨hright, hafter⟩⟩⟩
    simp only [graft] at hordered ⊢
    split_ifs at hordered ⊢ with hroom
    · exact hes
    · cases fresh with
      | none => exact hkeep left hleft.1 hall.2.2.1
      | some b =>
        have htake := hordered.left_ordered
        have hdrop := hordered.right_ordered
        have hleft' (e) (he : e ∈ List.take (half indexMax)
            (before ++ (low, left) :: (push, right) :: after)) := hes e (List.mem_of_mem_take he)
        have hright' (e) (he : e ∈ List.drop (half indexMax)
            (before ++ (low, left) :: (push, right) :: after)) := hes e (List.mem_of_mem_drop he)
        refine ⟨⟨hleft', ?_⟩, hright', ?_⟩
        · have hfirst : firstKey low ((before ++ (low, left) :: (push, right) :: after).map
              Prod.fst) = firstKey low ((List.take (half indexMax)
                (before ++ (low, left) :: (push, right) :: after)).map Prod.fst) := by
            conv_lhs => rw [← List.take_append_drop (half indexMax)
              (before ++ (low, left) :: (push, right) :: after), List.map_append]
            exact firstKey_append_of_ne (by simpa using htake.1)
          rw [hfirst]
          exact firstKey_le_span htake.2.2 fun e he ↦ (hleft' e he).2
        · exact firstKey_le_span hdrop.2.2 fun e he ↦ (hright' e he).2

/-- An insertion that every slot admits keeps the floor. -/
theorem put_floored (hleafMax : 1 ≤ leafMax) (hindexMax : 1 ≤ indexMax) {fresh : ℕ → Option α}
    (hordered : Ordered key height t) (hfloored : Floored key height t)
    (hadmits : Admits (key r) height t) :
    (put key leafMax indexMax fresh r height t).Floored key := by
  induction height with
  | zero =>
    obtain ⟨a, rs⟩ := t
    have hsorted := upsert_pairwise (r := r) hordered
    rw [put]
    cases hfind : leafFind (rs.map key) (key r) with
    | found i => trivial
    | absent i =>
      obtain ⟨hle, hbefore, hafter⟩ := leafFind_absent hordered hfind
      rw [← insertIdx_eq_upsert (by simpa using hle) hbefore hafter] at hsorted
      exact settleLeaf_floored hsorted
  | succ height ih =>
    have hafter : (put key leafMax indexMax fresh r (height + 1) t).Ordered key :=
      put_ordered hleafMax hindexMax hordered (safe_of_floored hordered hfloored hadmits)
    obtain ⟨a, es⟩ := t
    obtain ⟨before, entry, after, hrouted⟩ := hordered.route (key r)
    have hentry := hordered.2.1 entry hrouted.mem
    obtain ⟨hle, hbelow⟩ := hadmits entry hrouted.getElem?
    obtain ⟨hchild, hfloor⟩ := hfloored entry hrouted.mem
    have hentries := hfloored
    rw [Floored, hrouted.eq] at hentries
    obtain ⟨hbefore, hrest⟩ := List.forall_mem_append.mp hentries
    rw [hrouted.put] at hafter ⊢
    have hspan : All (fun x ↦ entry.1 ≤ x) (fun q ↦ entry.1 ≤ key q) height entry.2 :=
      forall_span_iff.mp hfloor
    have hall : (put key leafMax indexMax fresh r height entry.2).All (fun x ↦ entry.1 ≤ x)
        fun q ↦ entry.1 ≤ key q := put_all (Q := fun q ↦ entry.1 ≤ key q) (fun _ h ↦ h) hle hspan
    exact graft_floored hbefore (List.forall_mem_cons.mp hrest).2 (ih hentry hchild hbelow) hall
      hafter

/-! ### Removals -/

theorem editLeaf_floored {edit : List ρ → List ρ} (hedit : ∀ rs, (edit rs).Sublist rs)
    (hsolid : Solid height t) (hfloored : Floored key height t) :
    Floored key height (editLeaf edit k height t) := by
  induction height with
  | zero => trivial
  | succ height ih =>
    obtain ⟨a, es⟩ := t
    obtain ⟨before, entry, after, hslot⟩ := exists_slotted hsolid.1 k
    obtain ⟨hentry, hfloor⟩ := hfloored entry hslot.mem
    have hchild := ih (hsolid.2 entry hslot.mem) hentry
    rw [Floored, hslot.eq] at hfloored
    obtain ⟨hbefore, hrest⟩ := List.forall_mem_append.mp hfloored
    rw [hslot.editLeaf]
    refine List.forall_mem_append.mpr ⟨hbefore, List.forall_mem_cons.mpr
      ⟨⟨hchild, forall_span_iff.mpr ?_⟩, (List.forall_mem_cons.mp hrest).2⟩⟩
    exact editLeaf_all hedit (forall_span_iff.mp hfloor)

/-! ### Whole trees -/

namespace Root

def Floored (key : ρ → κ) : Root α κ ρ → Prop
  | empty => True
  | node height t => SearchTree.Floored key height t

/-- Every key of the tree, those of the separators included. -/
def span (key : ρ → κ) : Root α κ ρ → List κ
  | empty => []
  | node height t => SearchTree.span key height t

/-- Ordered and floored, with every key below a bound. -/
structure Ascending (key : ρ → κ) (bound : κ) (root : Root α κ ρ) : Prop where
  ordered : root.Ordered key
  floored : root.Floored key
  bounded : ∀ x ∈ root.span key, x < bound

namespace Ascending

variable {bound : κ} {root new : Root α κ ρ} {leafMax indexMax : ℕ} {fresh : ℕ → Option α} {r : ρ}
  {done : Bool}

variable {bound' : κ}

section

variable (hascending : root.Ascending key bound)
include hascending

theorem mono (hle : bound ≤ bound') : root.Ascending key bound' :=
  ⟨hascending.ordered, hascending.floored, fun x hx ↦ (hascending.bounded x hx).trans_le hle⟩

theorem record_lt {q : ρ} (hq : q ∈ root.records) : key q < bound := by
  cases root with
  | empty => exact absurd hq List.not_mem_nil
  | node height t => exact hascending.bounded _ (mem_span_of_record hq)

/-- Nothing is stored under a key at or above the bound. -/
theorem lookup_eq_none {k : κ} (hk : bound ≤ k) : root.lookup key k = none := by
  rw [Root.lookup_eq hascending.ordered]
  exact find?_eq_none_of_ne fun q hq ↦ ((hascending.record_lt hq).trans_le hk).ne

end

section

variable (hleafMax : 1 ≤ leafMax) (hindexMax : 1 ≤ indexMax) (hascending : root.Ascending key bound)
include hleafMax hindexMax hascending

/-- An insertion that every slot admits. -/
theorem put_admitted (hr : key r < bound)
    (hadmits : ∀ height t, root = node height t → Admits (key r) height t) :
    (root.put key leafMax indexMax fresh r).1.Ascending key bound := by
  obtain ⟨hordered, hfloored, hbounded⟩ := hascending
  cases root with
  | empty =>
    rw [put]
    cases fresh 0 with
    | none => exact ⟨trivial, trivial, hbounded⟩
    | some a => exact ⟨List.pairwise_singleton _ _, trivial, by simpa [span] using hr⟩
  | node height t =>
    have hadmits' := hadmits height t rfl
    have hsafe : SearchTree.Safe key leafMax indexMax r height t := safe_of_floored hordered hfloored hadmits'
    have hafter := put_ordered hleafMax hindexMax fresh hordered hsafe
    have hfloor : (SearchTree.put key leafMax indexMax fresh r height t).Floored key :=
      put_floored hleafMax hindexMax hordered hfloored hadmits'
    have hspan : All (fun x ↦ x < bound) (fun q ↦ key q < bound) height t :=
      forall_span_iff.mp hbounded
    have hall : (SearchTree.put key leafMax indexMax fresh r height t).All (fun x ↦ x < bound)
        fun q ↦ key q < bound :=
      put_all (Q := fun q ↦ key q < bound) (fun _ h ↦ h) hr hspan
    suffices h : (put key leafMax indexMax fresh r (node height t)).1.Floored key ∧
        ∀ x ∈ (put key leafMax indexMax fresh r (node height t)).1.span key, x < bound from
      ⟨hafter, h.1, h.2⟩
    rw [put]
    generalize SearchTree.put key leafMax indexMax fresh r height t = out at hfloor hall ⊢
    cases out with
    | kept u => exact ⟨hfloor, forall_span_iff.mpr hall⟩
    | refused u => exact ⟨hfloor, forall_span_iff.mpr hall⟩
    | split left low right push =>
      obtain ⟨hleft, hright⟩ := hfloor
      obtain ⟨hlow, hpush, hleft', hright'⟩ := hall
      cases fresh (height + 1) with
      | none => exact ⟨hleft.1, forall_span_iff.mpr hleft'⟩
      | some b =>
        refine ⟨List.forall_mem_cons.mpr ⟨hleft, List.forall_mem_singleton.mpr hright⟩, ?_⟩
        have hentries : All (α := α) (fun x ↦ x < bound) (fun q ↦ key q < bound) (height + 1)
            (b, [(low, left), (push, right)]) :=
          List.forall_mem_cons.mpr ⟨⟨hlow, hleft'⟩, List.forall_mem_singleton.mpr ⟨hpush, hright'⟩⟩
        exact forall_span_iff.mpr hentries

/-- A record at or above the bound enters. -/
theorem put_new (hr : bound ≤ key r) (hlt : key r < bound')
    (hput : root.put key leafMax indexMax fresh r = (new, done)) : new.Ascending key bound' := by
  suffices h : (root.put key leafMax indexMax fresh r).1.Ascending key bound' by rwa [hput] at h
  refine put_admitted hleafMax hindexMax (hascending.mono (hr.trans hlt.le)) hlt
    fun height t hroot ↦ ?_
  subst hroot
  have habove : ∀ x ∈ SearchTree.span key height t, x ≤ key r := fun x hx ↦
    (hascending.bounded x hx).le.trans hr
  exact admits_above habove

/-- A record is replaced in place. -/
theorem put_found {q : ρ} (hfound : root.lookup key (key r) = some q)
    (hput : root.put key leafMax indexMax fresh r = (new, done)) : new.Ascending key bound := by
  suffices h : (root.put key leafMax indexMax fresh r).1.Ascending key bound by rwa [hput] at h
  have hmem : q ∈ root.records := by
    rw [Root.lookup_eq hascending.ordered] at hfound
    exact List.mem_of_find?_eq_some hfound
  have hkey : key q = key r := by
    rw [Root.lookup_eq hascending.ordered] at hfound
    simpa using List.find?_some hfound
  refine put_admitted hleafMax hindexMax hascending (hkey ▸ hascending.record_lt hmem)
    fun height t hroot ↦ ?_
  subst hroot
  exact admits_found hascending.floored hfound

end

/-- What a search finds after an insertion that is done. -/
theorem lookup_put (hascending : root.Ascending key bound)
    (hput : root.put key leafMax indexMax fresh r = (new, true)) (hafter : new.Ordered key) (k : κ) :
    new.lookup key k = if key r = k then some r else root.lookup key k := by
  have hrecords := records_put hascending.ordered (congrArg Prod.snd hput)
  rw [hput] at hrecords
  rw [Root.lookup_eq hafter, hrecords, find?_upsert, Root.lookup_eq hascending.ordered]

/-- A record leaves. -/
theorem remove (hascending : root.Ascending key bound) (k : κ) :
    (root.remove key k).Ascending key bound := by
  refine ⟨remove_ordered hascending.ordered k, ?_, ?_⟩
  · cases root with
    | empty => trivial
    | node height t =>
      exact editLeaf_floored (dropKey_sublist k) (SearchTree.Ordered.solid hascending.ordered)
        hascending.floored
  · cases root with
    | empty => exact hascending.bounded
    | node height t =>
      exact forall_span_iff.mpr
        (editLeaf_all (dropKey_sublist k) (forall_span_iff.mp hascending.bounded))

end Ascending

end Root

end Obmafs3.Library.SearchTree
