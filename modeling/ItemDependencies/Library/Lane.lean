import Mathlib.Data.Finset.Lattice.Lemmas

/-!
# Sets with a log

A set that only grows, together with the list of what has been added to it.
The consumers of such a set read the list from where they stopped reading
before, so that they see every element exactly once.
-/

namespace ItemDependencies.Library

open List

universe u

/-- A set and the list of its new elements. -/
structure Lane (α : Type u) where
  required : Finset α
  newly : List α

namespace Lane

variable {α : Type u} [DecidableEq α]

/-- Add an element to the set, and to the list if it is new. -/
def insert (lane : Lane α) (a : α) : Lane α :=
  if a ∈ lane.required then lane else ⟨Insert.insert a lane.required, lane.newly ++ [a]⟩

/-- Add some elements, in order. -/
def insertAll (lane : Lane α) (as : List α) : Lane α := as.foldl insert lane

/-- What one lane has gained over an earlier one: elements that were not in the earlier set, each
of them once, and the same in the set and in the list. -/
structure Grows (before after : Lane α) (gained : List α) : Prop where
  newly : after.newly = before.newly ++ gained
  required : after.required = before.required ∪ gained.toFinset
  nodup : gained.Nodup
  fresh : ∀ a ∈ gained, a ∉ before.required

/-- One lane continues another. -/
def Extends (before after : Lane α) : Prop := ∃ gained, Grows before after gained

variable {lane before after last : Lane α} {a : α}

theorem Extends.refl (lane : Lane α) : Extends lane lane :=
  ⟨[], by simp, by simp, nodup_nil, by simp⟩

theorem Extends.trans (h₁ : Extends before after) (h₂ : Extends after last) :
    Extends before last := by
  obtain ⟨g₁, h₁⟩ := h₁
  obtain ⟨g₂, h₂⟩ := h₂
  refine ⟨g₁ ++ g₂, ⟨?_, ?_, ?_, ?_⟩⟩
  · rw [h₂.newly, h₁.newly, append_assoc]
  · rw [h₂.required, h₁.required, toFinset_append, Finset.union_assoc]
  · refine nodup_append'.mpr ⟨h₁.nodup, h₂.nodup, fun a ha₁ ha₂ => ?_⟩
    refine h₂.fresh a ha₂ ?_
    rw [h₁.required]
    exact Finset.mem_union_right _ (mem_toFinset.mpr ha₁)
  · intro a ha
    rcases mem_append.mp ha with ha | ha
    · exact h₁.fresh a ha
    · refine fun hb => h₂.fresh a ha ?_
      rw [h₁.required]
      exact Finset.mem_union_left _ hb

theorem Extends.insert (lane : Lane α) (a : α) : Extends lane (lane.insert a) := by
  unfold Lane.insert
  split
  · exact Extends.refl lane
  · rename_i ha
    refine ⟨[a], ⟨rfl, ?_, nodup_singleton a, by simpa using ha⟩⟩
    ext b
    simp

theorem Extends.insertAll (lane : Lane α) (as : List α) : Extends lane (lane.insertAll as) := by
  induction as generalizing lane with
  | nil => exact Extends.refl lane
  | cons a as ih => exact (Extends.insert lane a).trans (ih _)

theorem Extends.subset (h : Extends before after) : before.required ⊆ after.required := by
  obtain ⟨gained, h⟩ := h
  rw [h.required]
  exact Finset.subset_union_left

@[simp] theorem mem_required_insert {b : α} :
    b ∈ (lane.insert a).required ↔ b = a ∨ b ∈ lane.required := by
  unfold Lane.insert
  split
  · rename_i ha
    constructor
    · exact Or.inr
    · rintro (rfl | hb)
      · exact ha
      · exact hb
  · exact Finset.mem_insert

@[simp] theorem mem_required_insertAll {as : List α} {b : α} :
    b ∈ (lane.insertAll as).required ↔ b ∈ as ∨ b ∈ lane.required := by
  induction as generalizing lane with
  | nil => simp [insertAll]
  | cons a as ih =>
    have := @ih (lane.insert a)
    rw [insertAll] at this
    rw [insertAll, foldl_cons, this, mem_required_insert, mem_cons]
    tauto

end Lane

end ItemDependencies.Library
