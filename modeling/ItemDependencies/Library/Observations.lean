import Mathlib.Data.List.Basic

/-!
# Partial observations

What is known of something arrives in pieces.  A piece is a partial function from attributes to
values; pieces are put together as long as they do not contradict each other, and the result does
not depend on the order in which they arrived.
-/

namespace ItemDependencies.Library

universe u v w

variable {σ : Type u} {ν : Type v}

/-- The last of three optional values is known where one of the others is. -/
def Joins (x y z : Option ν) : Prop := ∀ v, z = some v ↔ x = some v ∨ y = some v

theorem Joins.map {μ : Type w} {x y z : Option ν} (h : Joins x y z) (f : ν → μ) :
    Joins (x.map f) (y.map f) (z.map f) := by
  intro w
  simp only [Option.map_eq_some_iff, h _, or_and_right, exists_or]

theorem Joins.self (x : Option ν) : Joins x x x := fun _ => (or_self_iff).symm

theorem Joins.none_right (x : Option ν) : Joins x none x := fun _ => by simp

/-- Two pieces contradict each other. -/
def Clashes (f g : σ → Option ν) : Prop := ∃ s v w, f s = some v ∧ g s = some w ∧ v ≠ w

/-- What is known from a list of pieces. -/
def Gathers (l : List (σ → Option ν)) (f : σ → Option ν) : Prop :=
  ∀ s v, f s = some v ↔ ∃ g ∈ l, g s = some v

namespace Gathers

variable {l l' : List (σ → Option ν)} {f f' g g' : σ → Option ν}

theorem nil : Gathers [] fun _ : σ => (none : Option ν) := fun _ _ => by simp

/-- One more piece. -/
theorem concat (h : Gathers l f) (hjoins : ∀ s, Joins (f s) (g s) (f' s)) :
    Gathers (l ++ [g]) f' := by
  intro s v
  rw [hjoins s v, h s v]
  simp [or_and_right, exists_or]

/-- The order of the pieces and their repetitions are of no importance. -/
theorem unique (h : Gathers l f) (h' : Gathers l' f') (hmem : ∀ g, g ∈ l ↔ g ∈ l') : f = f' := by
  funext s
  apply Option.ext
  intro v
  rw [h s v, h' s v]
  simp only [hmem]

/-- Pieces that were put together do not contradict each other. -/
theorem not_clashes (h : Gathers l f) (hg : g ∈ l) (hg' : g' ∈ l) : ¬Clashes g g' := by
  rintro ⟨s, v, w, hv, hw, hne⟩
  have hfv := (h s v).mpr ⟨g, hg, hv⟩
  have hfw := (h s w).mpr ⟨g', hg', hw⟩
  exact hne (Option.some.inj (hfv.symm.trans hfw))

/-- What contradicts the whole contradicts one of the pieces. -/
theorem clashes (h : Gathers l f) (hclash : Clashes f g) : ∃ g' ∈ l, Clashes g' g := by
  obtain ⟨s, v, w, hv, hw, hne⟩ := hclash
  obtain ⟨g', hg', hv⟩ := (h s v).mp hv
  exact ⟨g', hg', s, v, w, hv, hw, hne⟩

end Gathers

end ItemDependencies.Library
