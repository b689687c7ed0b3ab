import Mathlib.Data.Finset.Max

/-!
# Antichains in Euler order

The positions of a forest in preorder.  The tree of a position goes from there to where it stops,
and a position of a tree has its own tree inside.  Of a set of positions those are the deepest that
have no other position of the set in their trees.
-/

namespace ItemDependencies.Library

open Finset

variable {stop : Nat → Nat} {count e m p q r : Nat} {A U V : Finset Nat}

/-- The position is in the tree of the other one. -/
def Inside (stop : Nat → Nat) (q p : Nat) : Prop := p ≤ q ∧ q < stop p

instance : Decidable (Inside stop q p) := inferInstanceAs (Decidable (_ ∧ _))

/-- The trees of so many positions. -/
structure EulerOrder (count : Nat) (stop : Nat → Nat) : Prop where
  lt : ∀ p < count, p < stop p
  nested : ∀ p q, q < count → Inside stop q p → stop q ≤ stop p

/-- No position of the set is in the tree of another one. -/
def EulerAntichain (stop : Nat → Nat) (A : Finset Nat) : Prop :=
  ∀ p ∈ A, ∀ q ∈ A, Inside stop q p → q = p

/-- The positions of the set without another one in their trees. -/
def deepest (stop : Nat → Nat) (U : Finset Nat) : Finset Nat :=
  U.filter fun p => ∀ q ∈ U, Inside stop q p → q = p

theorem mem_deepest : p ∈ deepest stop U ↔ p ∈ U ∧ ∀ q ∈ U, Inside stop q p → q = p :=
  mem_filter

theorem deepest_subset : deepest stop U ⊆ U := filter_subset _ _

theorem antichain_deepest : EulerAntichain stop (deepest stop U) := fun _ hp q hq hin =>
  (mem_deepest.mp hp).2 q (deepest_subset hq) hin

theorem EulerAntichain.deepest_eq (h : EulerAntichain stop A) : deepest stop A = A :=
  filter_true_of_mem fun p hp q hq => h p hp q hq

theorem EulerAntichain.subset (h : EulerAntichain stop A) (hsub : U ⊆ A) : EulerAntichain stop U :=
  fun p hp q hq => h p (hsub hp) q (hsub hq)

namespace EulerOrder

variable (h : EulerOrder count stop)

include h

theorem inside_self (hp : p < count) : Inside stop p p := ⟨le_rfl, h.lt p hp⟩

theorem inside_trans (hq : q < count) (hrq : Inside stop r q) (hqp : Inside stop q p) :
    Inside stop r p :=
  ⟨hqp.1.trans hrq.1, hrq.2.trans_le (h.nested p q hq hqp)⟩

theorem exists_deepest (hU : ∀ p ∈ U, p < count) (hp : p ∈ U) :
    ∃ q ∈ deepest stop U, Inside stop q p := by
  -- the last position of the set that is in the tree
  have hne : (U.filter fun q => Inside stop q p).Nonempty :=
    ⟨p, mem_filter.mpr ⟨hp, h.inside_self (hU p hp)⟩⟩
  obtain ⟨q, hq, hlast⟩ := exists_max_image _ id hne
  obtain ⟨hqU, hqp⟩ := mem_filter.mp hq
  refine ⟨q, mem_deepest.mpr ⟨hqU, fun r hr hrq => ?_⟩, hqp⟩
  have hrp := h.inside_trans (hU q hqU) hrq hqp
  exact le_antisymm (hlast r (mem_filter.mpr ⟨hr, hrp⟩)) hrq.1

/-- Positions that have one of the set in their trees can be left out. -/
theorem deepest_eq_of_inside (hV : ∀ p ∈ V, p < count) (hsub : U ⊆ V)
    (hinside : ∀ p ∈ V, ∃ q ∈ U, Inside stop q p) : deepest stop U = deepest stop V := by
  ext p
  rw [mem_deepest, mem_deepest]
  constructor
  · rintro ⟨hp, hdeepest⟩
    refine ⟨hsub hp, fun r hr hrp => ?_⟩
    obtain ⟨q, hq, hqr⟩ := hinside r hr
    have hqp := hdeepest q hq (h.inside_trans (hV r hr) hqr hrp)
    exact le_antisymm (hqp ▸ hqr.1) hrp.1
  · rintro ⟨hp, hdeepest⟩
    obtain ⟨q, hq, hqp⟩ := hinside p hp
    cases hdeepest q (hsub hq) hqp
    exact ⟨hq, fun r hr => hdeepest r (hsub hr)⟩

theorem deepest_union_deepest (hU : ∀ p ∈ U, p < count) (hV : ∀ p ∈ V, p < count) :
    deepest stop (V ∪ deepest stop U) = deepest stop (V ∪ U) := by
  refine h.deepest_eq_of_inside (fun p hp => (mem_union.mp hp).elim (hV p) (hU p))
    (union_subset_union_right deepest_subset) fun p hp => ?_
  rcases mem_union.mp hp with hp | hp
  · exact ⟨p, mem_union_left _ hp, h.inside_self (hV p hp)⟩
  · obtain ⟨q, hq, hqp⟩ := h.exists_deepest hU hp
    exact ⟨q, mem_union_right _ hq, hqp⟩

theorem deepest_insert_deepest (hU : ∀ p ∈ U, p < count) (he : e < count) :
    deepest stop (insert e (deepest stop U)) = deepest stop (insert e U) := by
  rw [insert_eq, insert_eq]
  exact h.deepest_union_deepest hU fun p hp => by rwa [mem_singleton.mp hp]

/-! ## One more position -/

section Insert

variable (hantichain : EulerAntichain stop A) (hA : ∀ p ∈ A, p < count) (he : e < count)

include hantichain hA he

/-- A position with one of the antichain in its tree is not needed. -/
theorem deepest_insert_of_inside (hp : p ∈ A) (hpe : Inside stop p e) :
    deepest stop (insert e A) = A := by
  rw [← h.deepest_eq_of_inside (U := A) ?_ (subset_insert e A) fun q hq => ?_,
    hantichain.deepest_eq]
  · exact fun q hq => (mem_insert.mp hq).elim (fun heq => heq ▸ he) (hA q)
  · rcases mem_insert.mp hq with rfl | hq
    · exact ⟨p, hp, hpe⟩
    · exact ⟨q, hq, h.inside_self (hA q hq)⟩

theorem deepest_insert_filter (hnone : ∀ p ∈ A, ¬Inside stop p e) :
    deepest stop (insert e A) = insert e (A.filter fun p => ¬Inside stop e p) := by
  have hkept : EulerAntichain stop (insert e (A.filter fun p => ¬Inside stop e p)) := by
    intro p hp q hq hqp
    rcases mem_insert.mp hp with rfl | hp
    · rcases mem_insert.mp hq with rfl | hq
      · rfl
      · exact absurd hqp (hnone q (mem_filter.mp hq).1)
    · obtain ⟨hp, hep⟩ := mem_filter.mp hp
      rcases mem_insert.mp hq with rfl | hq
      · exact absurd hqp hep
      · exact hantichain p hp q (mem_filter.mp hq).1 hqp
  rw [← hkept.deepest_eq]
  refine (h.deepest_eq_of_inside ?_ ?_ fun q hq => ?_).symm
  · exact fun q hq => (mem_insert.mp hq).elim (fun heq => heq ▸ he) (hA q)
  · exact insert_subset_insert e (filter_subset _ _)
  · rcases mem_insert.mp hq with rfl | hq
    · exact ⟨q, mem_insert_self _ _, h.inside_self he⟩
    · by_cases heq : Inside stop e q
      · exact ⟨e, mem_insert_self _ _, heq⟩
      · exact ⟨q, mem_insert_of_mem (mem_filter.mpr ⟨hq, heq⟩), h.inside_self (hA q hq)⟩

/-- In an antichain only the last position before the new one can have it in its tree. -/
theorem deepest_insert_of_last (hnone : ∀ p ∈ A, ¬Inside stop p e) (hm : m ∈ A) (hme : m < e)
    (hlast : ∀ p ∈ A, p < e → p ≤ m) : deepest stop (insert e A) =
      insert e (if Inside stop e m then A.erase m else A) := by
  rw [h.deepest_insert_filter hantichain hA he hnone]
  congr 1
  have honly : ∀ p ∈ A, Inside stop e p → p = m := by
    intro p hp hep
    have hpe : p < e := hep.1.lt_of_ne fun heq => hnone p hp (heq ▸ h.inside_self (hA p hp))
    exact (hantichain p hp m hm ⟨hlast p hp hpe, hme.trans hep.2⟩).symm
  split
  case isTrue hem =>
    ext p
    rw [mem_filter, mem_erase, and_comm]
    refine and_congr_left fun hp => ⟨?_, fun hne hep => hne (honly p hp hep)⟩
    rintro hep rfl
    exact hep hem
  case isFalse hem =>
    exact filter_true_of_mem fun p hp hep => hem (honly p hp hep ▸ hep)

theorem deepest_insert_of_first (hnone : ∀ p ∈ A, ¬Inside stop p e) (hfirst : ∀ p ∈ A, ¬p < e) :
    deepest stop (insert e A) = insert e A := by
  rw [h.deepest_insert_filter hantichain hA he hnone, filter_true_of_mem]
  intro p hp hep
  have heq : p = e := le_antisymm hep.1 (not_lt.mp (hfirst p hp))
  exact hnone p hp (heq ▸ h.inside_self (hA p hp))

end Insert

end EulerOrder

end ItemDependencies.Library
