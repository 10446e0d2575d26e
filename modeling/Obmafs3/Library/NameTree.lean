import Mathlib.Data.List.Infix

/-!
# Trees of names

Directories whose entries lead to objects, some of them directories again. A path is resolved from a
root, one name after the other. As long as no directory has two names, a path to a directory is the
only one to it, so a change of one or two entries shows in the paths through these entries and
nowhere else. The changes are stated on the mapping from paths to objects: a name is entered or
removed, and what is at and below one path moves to another or changes places with it.
-/

set_option autoImplicit false

namespace Obmafs3.Library.NameTree

variable {ι ν : Type}

/-! ### Paths -/

/-- What a name in a directory leads to, and whether that is a directory. -/
abbrev Entries (ι ν : Type) := ι → ν → Option (ι × Bool)

/-- What paths lead to. -/
abbrev Mapping (ι ν : Type) := List ν → Option (ι × Bool)

def follow (entries : Entries ι ν) (at? : Option (ι × Bool)) (n : ν) : Option (ι × Bool) :=
  at?.bind fun d ↦ if d.2 then entries d.1 n else none

def walk (entries : Entries ι ν) (at? : Option (ι × Bool)) (p : List ν) : Option (ι × Bool) :=
  p.foldl (follow entries) at?

def resolve (entries : Entries ι ν) (root : ι) : Mapping ι ν := walk entries (some (root, true))

/-- No directory has two names, and the root has none. -/
structure Single (entries : Entries ι ν) (root : ι) : Prop where
  once : ∀ {d d' : ι} {n n' : ν} {c : ι}, entries d n = some (c, true) →
    entries d' n' = some (c, true) → d = d' ∧ n = n'
  unnamed : ∀ d n, entries d n ≠ some (root, true)

/-- Every directory with entries is reached from the root. -/
def Reached (entries : Entries ι ν) (root : ι) : Prop :=
  ∀ d n t, entries d n = some t → ∃ p, resolve entries root p = some (d, true)

/-- Nothing is below an object. -/
def Bare (entries : Entries ι ν) (t : ι × Bool) : Prop := t.2 = true → ∀ n, entries t.1 n = none

section Walk

variable {entries : Entries ι ν} {root : ι}

@[simp] theorem walk_nil (at? : Option (ι × Bool)) : walk entries at? [] = at? := rfl

theorem walk_append (at? : Option (ι × Bool)) (p r : List ν) :
    walk entries at? (p ++ r) = walk entries (walk entries at? p) r :=
  List.foldl_append ..

theorem walk_concat (at? : Option (ι × Bool)) (p : List ν) (n : ν) :
    walk entries at? (p ++ [n]) = follow entries (walk entries at? p) n :=
  walk_append at? p [n]

theorem resolve_append (p r : List ν) :
    resolve entries root (p ++ r) = walk entries (resolve entries root p) r :=
  walk_append _ p r

theorem walk_none (r : List ν) : walk entries none r = none := by
  induction r with
  | nil => rfl
  | cons n r ih => exact ih

variable {t : ι × Bool}

theorem walk_bare (hbare : Bare entries t) {r : List ν} (hr : r ≠ []) :
    walk entries (some t) r = none := by
  obtain ⟨n, r, rfl⟩ := List.exists_cons_of_ne_nil hr
  have hfirst : follow entries (some t) n = none := by
    simp only [follow, Option.bind_some]
    split_ifs with hdir
    · exact hbare hdir n
    · rfl
  change walk entries (follow entries (some t) n) r = none
  rw [hfirst, walk_none]

theorem follow_eq_some {at? : Option (ι × Bool)} {n : ν} :
    follow entries at? n = some t ↔ ∃ d, at? = some (d, true) ∧ entries d n = some t := by
  constructor
  · intro hfollow
    obtain ⟨⟨d, dir⟩, rfl, hentry⟩ := Option.bind_eq_some_iff.mp hfollow
    cases dir with
    | true => exact ⟨d, rfl, hentry⟩
    | false => cases hentry
  · rintro ⟨d, rfl, hentry⟩
    exact hentry

/-- The entry through which a path ends. -/
theorem resolve_concat {p : List ν} {d : ι} (hp : resolve entries root p = some (d, true)) (n : ν) :
    resolve entries root (p ++ [n]) = entries d n := by
  rw [resolve_append, hp]
  rfl

/-- A directory has one path. -/
theorem Single.resolve_injective (hsingle : Single entries root) {p q : List ν} {c : ι}
    (hp : resolve entries root p = some (c, true)) (hq : resolve entries root q = some (c, true)) :
    p = q := by
  -- The last names of both paths are the one entry that leads to the directory.
  induction p using List.reverseRecOn generalizing q c with
  | nil =>
    obtain rfl : root = c := by simpa [resolve] using hp
    rcases List.eq_nil_or_concat' q with rfl | ⟨q, n, rfl⟩
    · rfl
    · rw [resolve_append] at hq
      obtain ⟨d, -, hentry⟩ := follow_eq_some.mp hq
      exact absurd hentry (hsingle.unnamed d n)
  | append_singleton p m ih =>
    rw [resolve_append] at hp
    obtain ⟨d, hd, hentry⟩ := follow_eq_some.mp hp
    rcases List.eq_nil_or_concat' q with rfl | ⟨q, n, rfl⟩
    · obtain rfl : root = c := by simpa [resolve] using hq
      exact absurd hentry (hsingle.unnamed d m)
    · rw [resolve_append] at hq
      obtain ⟨d', hd', hentry'⟩ := follow_eq_some.mp hq
      obtain ⟨rfl, rfl⟩ := hsingle.once hentry hentry'
      rw [ih hd hd']

end Walk

theorem not_prefix_self_concat (p : List ν) (n : ν) : ¬p ++ [n] <+: p := by
  intro hbelow
  have hlen := hbelow.length_le
  rw [List.length_append, List.length_singleton] at hlen
  omega

theorem not_prefix_of_concat {old q : List ν} {n : ν} (hapart : ¬old <+: q ++ [n]) : ¬old <+: q :=
  fun hbelow ↦ hapart (hbelow.trans (List.prefix_append q [n]))

/-! ### Changed entries -/

section Changed

variable {entries entries' : Entries ι ν} {root a b : ι} {p q : List ν} {m n : ν}

/-- Paths that go through neither of two changed entries lead where they led. -/
theorem resolve_aside (hsingle : Single entries root) (hp : resolve entries root p = some (a, true))
    (hq : resolve entries root q = some (b, true))
    (hother : ∀ d x, (d, x) ≠ (a, m) → (d, x) ≠ (b, n) → entries' d x = entries d x) {s : List ν}
    (hold : ¬p ++ [m] <+: s) (hnew : ¬q ++ [n] <+: s) :
    resolve entries' root s = resolve entries root s := by
  induction s using List.reverseRecOn with
  | nil => rfl
  | append_singleton s x ih =>
    have hs := ih (not_prefix_of_concat hold) (not_prefix_of_concat hnew)
    rw [resolve_append, hs, resolve_append]
    cases hat : resolve entries root s with
    | none => rfl
    | some t =>
      obtain ⟨d, dir⟩ := t
      cases dir with
      | false => rfl
      | true =>
        refine hother d x ?_ ?_
        · rintro ⟨⟩
          exact hold (hsingle.resolve_injective hat hp ▸ List.prefix_rfl)
        · rintro ⟨⟩
          exact hnew (hsingle.resolve_injective hat hq ▸ List.prefix_rfl)

/-- A walk that comes to neither of the two directories does not see the change. -/
theorem walk_aside (hother : ∀ d x, (d, x) ≠ (a, m) → (d, x) ≠ (b, n) → entries' d x = entries d x)
    {at? : Option (ι × Bool)} (ha : ∀ r, walk entries at? r ≠ some (a, true))
    (hb : ∀ r, walk entries at? r ≠ some (b, true)) (r : List ν) :
    walk entries' at? r = walk entries at? r := by
  induction r using List.reverseRecOn with
  | nil => rfl
  | append_singleton r x ih =>
    rw [walk_concat, walk_concat, ih]
    cases hat : walk entries at? r with
    | none => rfl
    | some t =>
      obtain ⟨d, dir⟩ := t
      cases dir with
      | false => rfl
      | true =>
        refine hother d x ?_ ?_
        · rintro ⟨⟩
          exact ha r hat
        · rintro ⟨⟩
          exact hb r hat

/-- Below an entry that changed, paths are walks from what it leads to now. -/
theorem resolve_below (hq : resolve entries' root q = some (b, true)) (r : List ν) :
    resolve entries' root (q ++ [n] ++ r) = walk entries' (entries' b n) r := by
  rw [resolve_append, resolve_concat hq]

end Changed

/-! ### One entry -/

section OneEntry

/-- A path leads to a new object. -/
def enter [DecidableEq ν] (p : List ν) (t : ι × Bool) (mapping : Mapping ι ν) : Mapping ι ν :=
  Function.update mapping p (some t)

/-- A path leads nowhere any more. -/
def remove [DecidableEq ν] (p : List ν) (mapping : Mapping ι ν) : Mapping ι ν := Function.update mapping p none

variable {entries entries' : Entries ι ν} {root b : ι} {q : List ν} {n : ν} {t : ι × Bool}

variable (hsingle : Single entries root) (hq : resolve entries root q = some (b, true))
  (hother : ∀ d x, (d, x) ≠ (b, n) → entries' d x = entries d x)
include hsingle hq hother

theorem resolve_parent : resolve entries' root q = some (b, true) := by
  rw [resolve_aside (m := n) (n := n) hsingle hq hq (fun d x _ hne ↦ hother d x hne)
    (not_prefix_self_concat q n) (not_prefix_self_concat q n), hq]

variable [DecidableEq ν]

theorem resolve_update (hbelow : ∀ r, r ≠ [] → walk entries' (entries' b n) r = none)
    (hbefore : ∀ r, r ≠ [] → walk entries (entries b n) r = none) :
    resolve entries' root = Function.update (resolve entries root) (q ++ [n]) (entries' b n) := by
  funext s
  by_cases hs : q ++ [n] <+: s
  · obtain ⟨r, rfl⟩ := hs
    rw [resolve_below (resolve_parent hsingle hq hother)]
    rcases eq_or_ne r [] with rfl | hr
    · rw [List.append_nil, Function.update_self, walk_nil]
    · rw [Function.update_of_ne (by simpa using hr), hbelow r hr, resolve_below hq, hbefore r hr]
  · have hne : s ≠ q ++ [n] := fun heq ↦ hs (heq ▸ List.prefix_rfl)
    rw [Function.update_of_ne hne]
    exact resolve_aside hsingle hq hq (fun d x _ hne ↦ hother d x hne) hs hs

theorem resolve_enter (hfree : entries b n = none) (hnew : entries' b n = some t)
    (hbare : Bare entries' t) :
    resolve entries' root = enter (q ++ [n]) t (resolve entries root) := by
  rw [enter, ← hnew]
  refine resolve_update hsingle hq hother (fun r hr ↦ ?_) fun r _ ↦ ?_
  · rw [hnew]
    exact walk_bare hbare hr
  · rw [hfree, walk_none]

theorem resolve_remove (hfound : entries b n = some t) (hgone : entries' b n = none)
    (hbare : Bare entries t) :
    resolve entries' root = remove (q ++ [n]) (resolve entries root) := by
  rw [remove, ← hgone]
  refine resolve_update hsingle hq hother (fun r _ ↦ ?_) fun r hr ↦ ?_
  · rw [hgone, walk_none]
  · rw [hfound]
    exact walk_bare hbare hr

theorem Reached.enter (hreached : Reached entries root) (hfree : entries b n = none)
    (hnew : entries' b n = some t) (hbare : Bare entries' t) : Reached entries' root := by
  intro d x u hentry
  by_cases hkey : (d, x) = (b, n)
  · obtain ⟨rfl, rfl⟩ := Prod.mk.inj hkey
    exact ⟨q, resolve_parent hsingle hq hother⟩
  · obtain ⟨p, hp⟩ := hreached d x u (hother d x hkey ▸ hentry)
    refine ⟨p, ?_⟩
    rw [resolve_enter hsingle hq hother hfree hnew hbare, NameTree.enter, Function.update_of_ne, hp]
    rintro rfl
    rw [resolve_concat hq, hfree] at hp
    cases hp

theorem Reached.remove (hreached : Reached entries root) (hfound : entries b n = some t)
    (hgone : entries' b n = none) (hbare : Bare entries t) : Reached entries' root := by
  intro d x u hentry
  by_cases hkey : (d, x) = (b, n)
  · obtain ⟨rfl, rfl⟩ := Prod.mk.inj hkey
    exact ⟨q, resolve_parent hsingle hq hother⟩
  · have hentry' : entries d x = some u := hother d x hkey ▸ hentry
    obtain ⟨p, hp⟩ := hreached d x u hentry'
    refine ⟨p, ?_⟩
    rw [resolve_remove hsingle hq hother hfound hgone hbare, NameTree.remove,
      Function.update_of_ne, hp]
    rintro rfl
    -- The removed object is no directory with entries.
    rw [resolve_concat hq, hfound] at hp
    obtain rfl := Option.some.inj hp
    rw [hbare rfl x] at hentry'
    cases hentry'

end OneEntry

/-! ### Two entries -/

section TwoEntries

/-- What is at and below a path moves to another one, in the place of what was there. -/
def move [DecidableEq ν] (old new : List ν) (mapping : Mapping ι ν) : Mapping ι ν := fun s ↦
  if new <+: s then mapping (old ++ s.drop new.length)
  else if old <+: s then none
  else mapping s

/-- What is at and below one path changes places with what is at and below another. -/
def exchange [DecidableEq ν] (old new : List ν) (mapping : Mapping ι ν) : Mapping ι ν := fun s ↦
  if new <+: s then mapping (old ++ s.drop new.length)
  else if old <+: s then mapping (new ++ s.drop old.length)
  else mapping s

variable {entries entries' : Entries ι ν} {root a b : ι} {p q : List ν} {m n : ν}
  {src dst : ι × Bool}

/-- Two entries of directories that are reached, on paths of which neither is below the other. -/
structure Separate (entries : Entries ι ν) (root a b : ι) (p q : List ν) (m n : ν) : Prop where
  single : Single entries root
  old : resolve entries root p = some (a, true)
  new : resolve entries root q = some (b, true)
  notBelow : ¬p ++ [m] <+: q ++ [n]
  notAbove : ¬q ++ [n] <+: p ++ [m]

namespace Separate

variable (hapart : Separate entries root a b p q m n)
  (hother : ∀ d x, (d, x) ≠ (a, m) → (d, x) ≠ (b, n) → entries' d x = entries d x)

include hapart

theorem symm : Separate entries root b a q p n m :=
  ⟨hapart.single, hapart.new, hapart.old, hapart.notAbove, hapart.notBelow⟩

/-- What an entry leads to does not contain the directory of the entry, or of the other. -/
theorem walk_ne (hsrc : entries a m = some src) (r : List ν) :
    walk entries (some src) r ≠ some (a, true) ∧ walk entries (some src) r ≠ some (b, true) := by
  have hwalk : walk entries (some src) r = resolve entries root (p ++ [m] ++ r) := by
    rw [resolve_below hapart.old, hsrc]
  rw [hwalk]
  constructor
  · intro hat
    have hpath := hapart.single.resolve_injective hat hapart.old
    exact not_prefix_self_concat p m ⟨r, hpath⟩
  · intro hat
    have hpath := hapart.single.resolve_injective hat hapart.new
    exact not_prefix_of_concat hapart.notBelow ⟨r, hpath⟩

include hother

theorem resolve_new : resolve entries' root q = some (b, true) := by
  rw [resolve_aside hapart.single hapart.old hapart.new hother
    (not_prefix_of_concat hapart.notBelow) (not_prefix_self_concat q n), hapart.new]

theorem resolve_old : resolve entries' root p = some (a, true) :=
  hapart.symm.resolve_new fun d x hnew hold ↦ hother d x hold hnew

/-- An object whose entry moved is reached by its new path, with all that is below it. -/
theorem resolve_moved (hsrc : entries a m = some src) (hnew : entries' b n = some src)
    (r : List ν) :
    resolve entries' root (q ++ [n] ++ r) = resolve entries root (p ++ [m] ++ r) := by
  rw [resolve_below (hapart.resolve_new hother), hnew, resolve_below hapart.old, hsrc]
  exact walk_aside hother (fun r ↦ (hapart.walk_ne hsrc r).1) (fun r ↦ (hapart.walk_ne hsrc r).2) r

end Separate

variable {old new : List ν}

/-- Of two paths of which neither is below the other, none is above a path below the other. -/
theorem not_prefix_below (hbelow : ¬old <+: new) (habove : ¬new <+: old) (r : List ν) :
    ¬new <+: old ++ r := by
  intro hlonger
  rcases List.prefix_or_prefix_of_prefix hlonger (List.prefix_append old r) with h | h
  · exact habove h
  · exact hbelow h

variable [DecidableEq ν]

/-- What a path led to before something moves there does not matter. -/
theorem move_remove (hbelow : ¬old <+: new) (mapping : Mapping ι ν) :
    move old new (remove new mapping) = move old new mapping := by
  funext s
  unfold move remove
  split_ifs with hat
  · refine Function.update_of_ne (fun heq ↦ hbelow ?_) _ _
    exact heq ▸ List.prefix_append old _
  · rfl
  · have hne : s ≠ new := by
      rintro rfl
      exact hat List.prefix_rfl
    exact Function.update_of_ne hne _ _

variable (hapart : Separate entries root a b p q m n)
  (hother : ∀ d x, (d, x) ≠ (a, m) → (d, x) ≠ (b, n) → entries' d x = entries d x)
include hapart hother

theorem resolve_move (hsrc : entries a m = some src) (hgone : entries' a m = none)
    (hnew : entries' b n = some src) :
    resolve entries' root = move (p ++ [m]) (q ++ [n]) (resolve entries root) := by
  funext s
  unfold move
  split_ifs with hat hgoing
  · obtain ⟨r, rfl⟩ := hat
    rw [List.drop_left, hapart.resolve_moved hother hsrc hnew]
  · obtain ⟨r, rfl⟩ := hgoing
    rw [resolve_below (hapart.resolve_old hother), hgone, walk_none]
  · exact resolve_aside hapart.single hapart.old hapart.new hother hgoing hat

theorem resolve_exchange (hsrc : entries a m = some src) (hdst : entries b n = some dst)
    (hold : entries' a m = some dst) (hnew : entries' b n = some src) :
    resolve entries' root = exchange (p ++ [m]) (q ++ [n]) (resolve entries root) := by
  funext s
  unfold exchange
  split_ifs with hat hgoing
  · obtain ⟨r, rfl⟩ := hat
    rw [List.drop_left, hapart.resolve_moved hother hsrc hnew]
  · obtain ⟨r, rfl⟩ := hgoing
    rw [List.drop_left,
      hapart.symm.resolve_moved (fun d x hnew hold ↦ hother d x hold hnew) hdst hold]
  · exact resolve_aside hapart.single hapart.old hapart.new hother hgoing hat

variable (hreached : Reached entries root) (hsrc : entries a m = some src)
include hreached hsrc

theorem Reached.move (hgone : entries' a m = none) (hnew : entries' b n = some src)
    (hbare : ∀ t, entries b n = some t → Bare entries t) : Reached entries' root := by
  intro d x u hentry
  by_cases hold : (d, x) = (a, m)
  · obtain ⟨rfl, rfl⟩ := Prod.mk.inj hold
    exact ⟨p, hapart.resolve_old hother⟩
  by_cases hkey : (d, x) = (b, n)
  · obtain ⟨rfl, rfl⟩ := Prod.mk.inj hkey
    exact ⟨q, hapart.resolve_new hother⟩
  have hentry' : entries d x = some u := hother d x hold hkey ▸ hentry
  obtain ⟨s, hs⟩ := hreached d x u hentry'
  rw [resolve_move hapart hother hsrc hgone hnew]
  by_cases hgoing : p ++ [m] <+: s
  · -- The directory moves with what is above it.
    obtain ⟨r, rfl⟩ := hgoing
    refine ⟨q ++ [n] ++ r, ?_⟩
    rw [NameTree.move, if_pos (List.prefix_append _ r), List.drop_left, hs]
  · refine ⟨s, ?_⟩
    have hat : ¬q ++ [n] <+: s := by
      rintro ⟨r, rfl⟩
      rw [resolve_below hapart.new] at hs
      cases hdst : entries b n with
      | none =>
        rw [hdst, walk_none] at hs
        cases hs
      | some t =>
        rw [hdst] at hs
        rcases eq_or_ne r [] with rfl | hr
        · obtain rfl := Option.some.inj hs
          rw [hbare _ hdst rfl x] at hentry'
          cases hentry'
        · rw [walk_bare (hbare t hdst) hr] at hs
          cases hs
    rw [NameTree.move, if_neg hat, if_neg hgoing, hs]

theorem Reached.exchange (hdst : entries b n = some dst) (hold : entries' a m = some dst)
    (hnew : entries' b n = some src) : Reached entries' root := by
  intro d x u hentry
  by_cases hfirst : (d, x) = (a, m)
  · obtain ⟨rfl, rfl⟩ := Prod.mk.inj hfirst
    exact ⟨p, hapart.resolve_old hother⟩
  by_cases hsecond : (d, x) = (b, n)
  · obtain ⟨rfl, rfl⟩ := Prod.mk.inj hsecond
    exact ⟨q, hapart.resolve_new hother⟩
  obtain ⟨s, hs⟩ := hreached d x u (hother d x hfirst hsecond ▸ hentry)
  rw [resolve_exchange hapart hother hsrc hdst hold hnew]
  by_cases hat : q ++ [n] <+: s
  · obtain ⟨r, rfl⟩ := hat
    refine ⟨p ++ [m] ++ r, ?_⟩
    rw [NameTree.exchange, if_neg (not_prefix_below hapart.notBelow hapart.notAbove r),
      if_pos (List.prefix_append _ r), List.drop_left, hs]
  · by_cases hgoing : p ++ [m] <+: s
    · obtain ⟨r, rfl⟩ := hgoing
      refine ⟨q ++ [n] ++ r, ?_⟩
      rw [NameTree.exchange, if_pos (List.prefix_append _ r), List.drop_left, hs]
    · refine ⟨s, ?_⟩
      rw [NameTree.exchange, if_neg hat, if_neg hgoing, hs]

end TwoEntries

end Obmafs3.Library.NameTree
