import ItemDependencies.Library.Fallible

/-!
# Folds that write into a list

A step that writes some places of a list and leaves the others alone.  What one step of a fold
writes is there at the end if no later step writes the same places.
-/

namespace ItemDependencies.Library

open List

universe u v

variable {ε : Type} {α : Type u} {β : Type v} {f : List β → α → Except ε (List β)}
  {writes : α → Nat → Prop} {l before after : List α} {s t : List β} {a : α}

/-- A step writes only its places. -/
def WritesOnly (f : List β → α → Except ε (List β)) (writes : α → Nat → Prop) : Prop :=
  ∀ s a t, f s a = .ok t → t.length = s.length ∧ ∀ i, ¬writes a i → t[i]? = s[i]?

theorem WritesOnly.foldlM (h : WritesOnly f writes) (hrun : l.foldlM f s = .ok t) :
    t.length = s.length ∧ ∀ i, (∀ a ∈ l, ¬writes a i) → t[i]? = s[i]? := by
  refine foldlM_ok (P := fun done t =>
    t.length = s.length ∧ ∀ i, (∀ a ∈ done, ¬writes a i) → t[i]? = s[i]?)
    (fun done a s' t' hdone hstep => ?_) ⟨rfl, fun _ _ => rfl⟩ hrun
  obtain ⟨hlength, hkept⟩ := h s' a t' hstep
  refine ⟨hlength.trans hdone.1, fun i hi => ?_⟩
  rw [hkept i (hi a (mem_append_right _ mem_cons_self))]
  exact hdone.2 i fun b hb => hi b (mem_append_left _ hb)

/-- One step of a fold. -/
theorem foldlM_append_ok (h : (before ++ a :: after).foldlM f s = .ok t) : ∃ s' t',
    before.foldlM f s = .ok s' ∧ f s' a = .ok t' ∧ after.foldlM f t' = .ok t := by
  rw [foldlM_append] at h
  obtain ⟨s', hbefore, h⟩ := bind_ok h
  rw [foldlM_cons] at h
  obtain ⟨t', hstep, hafter⟩ := bind_ok h
  exact ⟨s', t', hbefore, hstep, hafter⟩

end ItemDependencies.Library
