import Mathlib.Order.Basic

/-!
# Chains of parents

Entries that each name a child below a parent. An entry is led when the chain of its parents, over
entries that may lead on, ends at a top. The results compare the chains of two sets of entries:
`Led.graft` when every old top stays one or is named by an entry that is led, `Led.trim` when every
new entry that may lead on names an old top, and `Led.of_hub` when the new entries have one parent.
-/

set_option autoImplicit false

namespace Obmafs3.Library.ParentChain

variable {ε ι : Type} {parent child : ε → ι} {links links' : ε → Prop} {tops tops' : ι → Prop}

/-- The chain of parents of an entry leads to a top over entries that may lead on. -/
inductive Led (parent child : ε → ι) (links : ε → Prop) (tops : ι → Prop) : ε → Prop
  | top {e : ε} (htop : tops (parent e)) : Led parent child links tops e
  | step {d e : ε} (hlink : links d) (hled : Led parent child links tops d)
      (hchild : child d = parent e) : Led parent child links tops e

namespace Led

variable {e : ε}

/-- Something is named below a top or by an entry that leads on and is led. -/
def Leads (parent child : ε → ι) (links : ε → Prop) (tops : ι → Prop) (t : ι) : Prop :=
  ∃ d, links d ∧ Led parent child links tops d ∧ child d = t

theorem graft (hlinks : ∀ d, links d → links' d)
    (htops : ∀ t, tops t → tops' t ∨ Leads parent child links' tops' t)
    (hled : Led parent child links tops e) : Led parent child links' tops' e := by
  induction hled with
  | top htop =>
    rcases htops _ htop with htop' | ⟨d, hlink, hled, hchild⟩
    · exact top htop'
    · exact step hlink hled hchild
  | step hlink _ hchild ih => exact step (hlinks _ hlink) ih hchild

theorem trim (hlinks : ∀ d, links' d → links d ∨ tops (child d)) (htops : ∀ t, tops' t → tops t)
    (hled : Led parent child links' tops' e) : Led parent child links tops e := by
  induction hled with
  | top htop => exact top (htops _ htop)
  | step hlink _ hchild ih =>
    rcases hlinks _ hlink with hold | htop
    · exact step hold ih hchild
    · exact top (hchild ▸ htop)

/-- When the entries that are new to `links'` all have the parent `hub`, a chain that needs one of
them finds the hub led without them. -/
theorem of_hub {hub : ι} (hlinks : ∀ d, links' d → links d ∨ parent d = hub)
    (hled : Led parent child links' tops e) :
    Led parent child links tops e ∨ tops hub ∨ Leads parent child links tops hub := by
  induction hled with
  | top htop => exact Or.inl (top htop)
  | step hlink _ hchild ih =>
    rcases ih with hled | hhub
    · rcases hlinks _ hlink with hold | rfl
      · exact Or.inl (step hold hled hchild)
      · cases hled with
        | top htop => exact Or.inr (Or.inl htop)
        | step hlink' hled' hchild' => exact Or.inr (Or.inr ⟨_, hlink', hled', hchild'⟩)
    · exact Or.inr hhub

end Led

end Obmafs3.Library.ParentChain
