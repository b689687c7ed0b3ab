import Mathlib.Data.Finset.Image

/-!
# Least representatives

The classes of a relation, each given by its least element.  When all classes
that meet a set are merged, it is enough to relabel them with the least of their
representatives.
-/

namespace ItemDependencies.Library

open Relation Finset

universe u

variable {α : Type u} [LinearOrder α]

/-- Elements have the same representative exactly if a chain connects them. -/
structure LeastRepresentative (r : α → α → Prop) (rep : α → α) : Prop where
  same : ∀ a b, rep a = rep b ↔ ReflTransGen r a b
  idem : ∀ a, rep (rep a) = rep a
  le : ∀ a, rep a ≤ a

namespace LeastRepresentative

variable {r r' : α → α → Prop} {rep rep' : α → α}

theorem rep_refl (h : LeastRepresentative r rep) (a : α) : ReflTransGen r (rep a) a :=
  (h.same (rep a) a).mp (h.idem a)

/-- Without any relation each element represents itself. -/
theorem empty (h : ∀ a b, ¬r a b) : LeastRepresentative r id where
  same a b := by
    constructor
    · rintro rfl
      exact .refl
    · intro hchain
      cases hchain with
      | refl => rfl
      | tail _ hstep => exact absurd hstep (h _ _)
  idem _ := rfl
  le _ := le_rfl

theorem rep_le_rep (h : LeastRepresentative r rep) (h' : LeastRepresentative r rep') (a : α) :
    rep a ≤ rep' a := by
  have hsame : rep (rep' a) = rep a := (h.same _ _).mpr (h'.rep_refl a)
  calc rep a = rep (rep' a) := hsame.symm
    _ ≤ rep' a := h.le _

/-- The relation determines the representatives. -/
theorem unique (h : LeastRepresentative r rep) (h' : LeastRepresentative r rep') : rep = rep' := by
  funext a
  exact le_antisymm (h.rep_le_rep h' a) (h'.rep_le_rep h a)

/-- Merging all classes that meet a set. -/
theorem merge (h : LeastRepresentative r rep) {s : Finset α} {least : α}
    (hmem : least ∈ s.image rep) (hleast : ∀ c ∈ s.image rep, least ≤ c) :
    LeastRepresentative (fun a b => r a b ∨ a ∈ s ∧ b ∈ s)
      (fun a => if rep a ∈ s.image rep then least else rep a) := by
  have hmono : ∀ {a b}, ReflTransGen r a b → ReflTransGen (fun a b => r a b ∨ a ∈ s ∧ b ∈ s) a b :=
    ReflTransGen.mono (fun _ _ h => Or.inl h) _ _
  have hfix : rep least = least := by
    obtain ⟨t, -, rfl⟩ := mem_image.mp hmem
    exact h.idem t
  refine ⟨fun a b => ⟨fun heq => ?_, fun hchain => ?_⟩, fun a => ?_, fun a => ?_⟩
  · by_cases ha : rep a ∈ s.image rep <;> by_cases hb : rep b ∈ s.image rep
    · obtain ⟨s₁, hs₁, heq₁⟩ := mem_image.mp ha
      obtain ⟨s₂, hs₂, heq₂⟩ := mem_image.mp hb
      have ha' := hmono ((h.same a s₁).mp heq₁.symm)
      have hb' := hmono ((h.same s₂ b).mp heq₂)
      exact (ha'.tail (.inr ⟨hs₁, hs₂⟩)).trans hb'
    · rw [if_pos ha, if_neg hb] at heq
      exact absurd (heq ▸ hmem) hb
    · rw [if_neg ha, if_pos hb] at heq
      exact absurd (heq ▸ hmem) ha
    · rw [if_neg ha, if_neg hb] at heq
      exact hmono ((h.same a b).mp heq)
  · induction hchain with
    | refl => rfl
    | tail _ hstep ih =>
      rw [ih]
      rcases hstep with hstep | ⟨hb, hc⟩
      · rw [(h.same _ _).mpr (.single hstep)]
      · rw [if_pos (mem_image_of_mem rep hb), if_pos (mem_image_of_mem rep hc)]
  · by_cases ha : rep a ∈ s.image rep
    · rw [if_pos ha, hfix, if_pos hmem]
    · rw [if_neg ha, h.idem, if_neg ha]
  · split
    · rename_i ha
      exact (hleast _ ha).trans (h.le a)
    · exact h.le a

theorem congr (h : LeastRepresentative r rep) (hr : ∀ a b, r a b ↔ r' a b) :
    LeastRepresentative r' rep := by
  have heq : r = r' := by
    funext a b
    exact propext (hr a b)
  exact heq ▸ h

/-- Merging the classes of a relation further, by what relates elements of them. -/
theorem comp {s t : α → α → Prop} (h : LeastRepresentative r rep) (h' : LeastRepresentative s rep')
    (hs : ∀ a b, s a b ↔ ∃ x y, t x y ∧ rep x = a ∧ rep y = b) :
    LeastRepresentative (fun a b => r a b ∨ t a b) (rep' ∘ rep) := by
  have hmono : ∀ {a b}, ReflTransGen r a b → ReflTransGen (fun a b => r a b ∨ t a b) a b :=
    ReflTransGen.mono (fun _ _ h => Or.inl h) _ _
  refine ⟨fun a b => (h'.same _ _).trans ⟨fun hchain => ?_, fun hchain => ?_⟩, fun a => ?_,
    fun a => (h'.le _).trans (h.le a)⟩
  · have key : ∀ c, ReflTransGen s (rep a) c → ∀ b, rep b = c →
        ReflTransGen (fun a b => r a b ∨ t a b) a b := by
      intro c hchain
      induction hchain with
      | refl => exact fun b hb => hmono ((h.same a b).mp hb.symm)
      | tail _ hstep ih =>
        intro b hb
        obtain ⟨x, y, hxy, rfl, rfl⟩ := (hs _ _).mp hstep
        exact ((ih x rfl).tail (.inr hxy)).trans (hmono ((h.same y b).mp hb.symm))
    exact key _ hchain b rfl
  · induction hchain with
    | refl => exact .refl
    | @tail b c _ hstep ih =>
      rcases hstep with hstep | hstep
      · rwa [← (h.same b c).mpr (.single hstep)]
      · exact ih.tail ((hs _ _).mpr ⟨b, c, hstep, rfl, rfl⟩)
  · -- the representative is the first one, or what represents something
    have hfix : rep (rep' (rep a)) = rep' (rep a) := by
      rcases ReflTransGen.cases_head (h'.rep_refl (rep a)) with heq | ⟨c, hstep, -⟩
      · rw [heq, h.idem]
      · obtain ⟨x, -, -, hx, -⟩ := (hs _ _).mp hstep
        rw [← hx, h.idem]
    rw [Function.comp_apply, Function.comp_apply, hfix, h'.idem]

end LeastRepresentative

end ItemDependencies.Library
