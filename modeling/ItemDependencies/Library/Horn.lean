import Mathlib.Order.Bounds.Basic

/-!
# Rules and their least model

A rule says that a conclusion holds when all of its premises do.  An agenda is
what an event-driven computation maintains: the facts that it knows, the facts
among them whose consequences it has drawn, and the invariant that a rule with
all premises drawn has a known conclusion.  Nothing is left to draw exactly
when the known facts are closed under the rules.
-/

namespace ItemDependencies.Library

universe u

variable {F : Type u}

/-- A set of rules: which conclusions follow from which premises. -/
abbrev Rules (F : Type u) := List F → F → Prop

/-- A set of facts that no rule leaves. -/
def Closed (rules : Rules F) (facts : Set F) : Prop :=
  ∀ premises conclusion, rules premises conclusion → (∀ p ∈ premises, p ∈ facts) →
    conclusion ∈ facts

/-- Every rule whose premises have been drawn has a known conclusion. -/
def Agenda (rules : Rules F) (drawn known : Set F) : Prop :=
  ∀ premises conclusion, rules premises conclusion → (∀ p ∈ premises, p ∈ drawn) →
    conclusion ∈ known

namespace Agenda

variable {rules : Rules F} {drawn known known' : Set F} {x : F}

theorem mono (h : Agenda rules drawn known) (hk : known ⊆ known') : Agenda rules drawn known' :=
  fun ps c hr hp => hk (h ps c hr hp)

/-- Drawing one more fact: only the rules that have it as a premise matter. -/
theorem draw (h : Agenda rules drawn known)
    (hx : ∀ premises conclusion, rules premises conclusion → x ∈ premises →
      (∀ p ∈ premises, p = x ∨ p ∈ drawn) → conclusion ∈ known) :
    Agenda rules (insert x drawn) known := by
  intro ps c hr hp
  by_cases hmem : x ∈ ps
  · exact hx ps c hr hmem hp
  · refine h ps c hr fun p hpp => (hp p hpp).resolve_left ?_
    rintro rfl
    exact hmem hpp

/-- When everything known has been drawn, the facts are closed. -/
theorem closed (h : Agenda rules drawn known) (hd : known ⊆ drawn) : Closed rules known :=
  fun ps c hr hp => h ps c hr fun p hpp => hd (hp p hpp)

end Agenda

/-- The facts that follow from some inputs. -/
inductive Derives (rules : Rules F) (inputs : Set F) : F → Prop
  | input {f : F} (h : f ∈ inputs) : Derives rules inputs f
  | rule {premises : List F} {conclusion : F} (h : rules premises conclusion)
      (hp : ∀ p ∈ premises, Derives rules inputs p) : Derives rules inputs conclusion

/-- What follows is the least closed set that contains the inputs. -/
theorem isLeast_derives (rules : Rules F) (inputs : Set F) :
    IsLeast {X | inputs ⊆ X ∧ Closed rules X} {f | Derives rules inputs f} := by
  refine ⟨⟨fun f hf => .input hf, fun ps c hr hp => .rule hr hp⟩, fun X ⟨hin, hclosed⟩ f hf => ?_⟩
  induction hf with
  | input h => exact hin h
  | rule h _ ih => exact hclosed _ _ h ih

/-- A closed set between the inputs and their consequences is what follows from them. -/
theorem isLeast_of_closed {rules : Rules F} {inputs facts : Set F} (hin : inputs ⊆ facts)
    (hclosed : Closed rules facts)
    (hsound : ∀ X, inputs ⊆ X → Closed rules X → facts ⊆ X) :
    IsLeast {X | inputs ⊆ X ∧ Closed rules X} facts :=
  ⟨⟨hin, hclosed⟩, fun X ⟨hX, hc⟩ => hsound X hX hc⟩

end ItemDependencies.Library
