import Mathlib.Order.Nat

/-!
# Filling a list position by position

Values are stored one after the other, each at its own position.
-/

namespace ItemDependencies.Library

open List

universe u v

variable {α : Type u} {β : Type v} {place : α → Nat} {value : α → β} {l : List α}

theorem length_foldl_set (v : List β) :
    (l.foldl (fun v a => v.set (place a) (value a)) v).length = v.length := by
  induction l generalizing v with
  | nil => rfl
  | cons a l ih => exact (ih _).trans (length_set ..)

theorem getElem?_foldl_set_of_ne {i : Nat} (h : ∀ a ∈ l, place a ≠ i) (v : List β) :
    (l.foldl (fun v a => v.set (place a) (value a)) v)[i]? = v[i]? := by
  induction l generalizing v with
  | nil => rfl
  | cons a l ih =>
    obtain ⟨ha, hl⟩ := forall_mem_cons.mp h
    exact (ih hl _).trans (getElem?_set_ne ha)

/-- A value is found where it was stored, if nothing else was stored there. -/
theorem getElem?_foldl_set (hnodup : (l.map place).Nodup) {a : α} (ha : a ∈ l) {v : List β}
    (hlt : place a < v.length) :
    (l.foldl (fun v a => v.set (place a) (value a)) v)[place a]? = some (value a) := by
  induction l generalizing v with
  | nil => cases ha
  | cons b l ih =>
    obtain ⟨hfirst, hnodup⟩ := nodup_cons.mp hnodup
    rw [foldl_cons]
    rcases mem_cons.mp ha with rfl | ha
    · have hother : ∀ c ∈ l, place c ≠ place a := fun c hc heq =>
        hfirst (mem_map.mpr ⟨c, hc, heq⟩)
      exact (getElem?_foldl_set_of_ne hother _).trans (getElem?_set_self hlt)
    · exact ih hnodup ha (by rwa [length_set])

/-- Writing one value at several positions. -/
theorem getElem?_foldl_set_const {b : β} {positions : List Nat} {v : List β} {i : Nat} :
    (positions.foldl (fun v position => v.set position b) v)[i]? =
      if i ∈ positions ∧ i < v.length then some b else v[i]? := by
  induction positions generalizing v with
  | nil => simp
  | cons position positions ih =>
    rw [foldl_cons, ih, length_set, getElem?_set]
    rcases eq_or_ne position i with rfl | hne
    · rcases lt_or_ge position v.length with hlt | hge
      · simp [hlt]
      · simp [hge.not_gt]
    · simp [hne, hne.symm]

end ItemDependencies.Library
