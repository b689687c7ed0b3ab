import Mathlib.Order.Monotone.Defs

/-!
# Lists under an embedding

A function that tells apart, or keeps in order, the elements that stand in a list does so for the
lists that they make up.
-/

namespace ItemDependencies.Library

open List

universe u v

variable {α : Type u} {β : Type v} {g : α → β} {l l' : List α}

theorem map_injOn (hg : ∀ a ∈ l, ∀ b ∈ l', g a = g b → a = b) (h : l.map g = l'.map g) :
    l = l' := by
  induction l generalizing l' with
  | nil => exact (map_eq_nil_iff.mp h.symm).symm
  | cons a l ih =>
    obtain ⟨b, rest, rfl, hhead, htail⟩ := map_eq_cons_iff.mp h.symm
    have hrest : l = rest := ih (fun x hx y hy =>
      hg x (mem_cons_of_mem _ hx) y (mem_cons_of_mem _ hy)) htail.symm
    rw [hg a mem_cons_self b mem_cons_self hhead.symm, hrest]

theorem optionMap_injOn {o o' : Option α} (hg : ∀ a ∈ o, ∀ b ∈ o', g a = g b → a = b)
    (h : o.map g = o'.map g) : o = o' := by
  cases o with
  | none => exact (Option.map_eq_none_iff.mp h.symm).symm
  | some a =>
    obtain ⟨b, rfl, hb⟩ := Option.map_eq_some_iff.mp h.symm
    rw [hg a rfl b rfl hb.symm]

/-- Lists are compared as before if the elements that stand at the same place are. -/
theorem compare_map [Ord α] [Ord β]
    (h : ∀ pair ∈ l.zip l', compare (g pair.1) (g pair.2) = compare pair.1 pair.2) :
    compare (l.map g) (l'.map g) = compare l l' := by
  induction l generalizing l' with
  | nil => cases l' <;> rfl
  | cons a l ih =>
    cases l' with
    | nil => rfl
    | cons b l' =>
      have hhead : compare (g a) (g b) = compare a b := h (a, b) mem_cons_self
      have hrest := ih fun pair hpair => h pair (mem_cons_of_mem _ hpair)
      show List.compareLex compare (g a :: l.map g) (g b :: l'.map g) =
        List.compareLex compare (a :: l) (b :: l')
      unfold List.compareLex
      rw [hhead]
      cases compare a b with
      | lt => rfl
      | eq => exact hrest
      | gt => rfl

theorem pairwise_map_of_strictMonoOn [Preorder α] [Preorder β] {s : Set α}
    (hg : StrictMonoOn g s) (hl : ∀ a ∈ l, a ∈ s) (h : l.Pairwise (· < ·)) :
    (l.map g).Pairwise (· < ·) := by
  rw [pairwise_map]
  exact h.imp_of_mem fun ha hb hlt => hg (hl _ ha) (hl _ hb) hlt

end ItemDependencies.Library
