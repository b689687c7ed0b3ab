import ItemDependencies.Library.PartitionPoint
import Mathlib.Data.List.Chain
import Mathlib.Data.List.Sort

/-!
# Laminar families of spans

Spans are given by a start and a stop, which does not belong to them.  A family
is laminar if any two of its spans are apart or nested.  One pass over the spans
in order of their starts, outermost first, decides this with a stack of the
spans that are still open.
-/

namespace ItemDependencies.Library

open List

universe u

variable {α : Type u} (start stop : α → Nat)

/-- No position belongs to both spans. -/
def Apart (a b : α) : Prop := stop a ≤ start b ∨ stop b ≤ start a

/-- The second span lies in the first. -/
def Encloses (a b : α) : Prop := start a ≤ start b ∧ stop b ≤ stop a

def Laminar (a b : α) : Prop :=
  Apart start stop a b ∨ Encloses start stop a b ∨ Encloses start stop b a

/-- By their starts, and the longest first among those with the same start. -/
def OuterFirst (a b : α) : Prop := start a < start b ∨ start a = start b ∧ stop b ≤ stop a

instance : DecidableRel (OuterFirst start stop) := fun a b =>
  inferInstanceAs (Decidable (start a < start b ∨ start a = start b ∧ stop b ≤ stop a))

instance : Std.Total (OuterFirst start stop) := ⟨fun a b => by
  unfold OuterFirst
  omega⟩

instance : IsTrans α (OuterFirst start stop) := ⟨fun a b c hab hbc => by
  unfold OuterFirst at hab hbc ⊢
  omega⟩

/-- Whether each span fits into the innermost one that is open at its start.  The open spans are
given with the innermost first. -/
def stackNests : List α → List α → Bool
  | _, [] => true
  | ancestors, span :: spans =>
    let ancestors := ancestors.dropWhile fun ancestor => stop ancestor ≤ start span
    if ancestors.head?.any fun ancestor => stop ancestor < stop span then false
    else stackNests (span :: ancestors) spans

variable {start stop}

theorem Apart.symm {a b : α} (h : Apart start stop a b) : Apart start stop b a := Or.symm h

theorem Laminar.symm {a b : α} (h : Laminar start stop a b) : Laminar start stop b a := by
  rcases h with h | h | h
  · exact .inl h.symm
  · exact .inr (.inr h)
  · exact .inr (.inl h)

instance : Std.Symm (Laminar start stop) := ⟨fun _ _ => Laminar.symm⟩

/-- Of two spans in order, the later one starts after the first or lies in it. -/
theorem OuterFirst.laminar_iff {a b : α} (h : OuterFirst start stop a b)
    (ha : start a < stop a) : Laminar start stop a b ↔ stop a ≤ start b ∨ stop b ≤ stop a := by
  unfold OuterFirst at h
  unfold Laminar Apart Encloses
  omega

theorem stackNests_iff {ancestors spans : List α}
    (hopen : ancestors.Pairwise fun a b => stop a ≤ stop b)
    (hsorted : spans.Pairwise (OuterFirst start stop)) :
    stackNests start stop ancestors spans = true ↔
      (∀ a ∈ ancestors, ∀ b ∈ spans, stop a ≤ start b ∨ stop b ≤ stop a) ∧
        spans.Pairwise fun a b => stop a ≤ start b ∨ stop b ≤ stop a := by
  induction spans generalizing ancestors with
  | nil => simp [stackNests]
  | cons span spans ih =>
    obtain ⟨hfirst, hsorted⟩ := pairwise_cons.mp hsorted
    have hle : ∀ b ∈ spans, start span ≤ start b := fun b hmem =>
      (hfirst b hmem).elim Nat.le_of_lt fun h => h.1.le
    set left := ancestors.dropWhile fun ancestor => stop ancestor ≤ start span with hleft
    have hpartitioned : Partitioned (fun ancestor => stop ancestor ≤ start span) ancestors :=
      hopen.imp fun h hb => by
        simp only [decide_eq_true_eq] at hb ⊢
        exact h.trans hb
    have hmem : ∀ a, a ∈ left ↔ a ∈ ancestors ∧ start span < stop a := fun a => by
      rw [hleft, mem_dropWhile_iff hpartitioned, decide_eq_false_iff_not, not_le]
    have hopen' : left.Pairwise fun a b => stop a ≤ stop b :=
      hopen.sublist (dropWhile_suffix _).sublist
    -- the innermost open span decides for all of them, since their stops ascend
    have hhead : (left.head?.any fun ancestor => stop ancestor < stop span) = false ↔
        ∀ a ∈ ancestors, stop a ≤ start span ∨ stop span ≤ stop a := by
      have hall : (∀ a ∈ ancestors, stop a ≤ start span ∨ stop span ≤ stop a) ↔
          ∀ a ∈ left, stop span ≤ stop a := by
        refine ⟨fun h a ha => ?_, fun h a ha => ?_⟩
        · obtain ⟨ha, hlive⟩ := (hmem a).mp ha
          exact (h a ha).resolve_left (by omega)
        · rcases le_or_gt (stop a) (start span) with hclosed | hlive
          · exact .inl hclosed
          · exact .inr (h a ((hmem a).mpr ⟨ha, hlive⟩))
      rw [hall]
      cases hcons : left with
      | nil => simp
      | cons inner outer =>
        rw [hcons] at hopen'
        have hinner := (pairwise_cons.mp hopen').1
        simp only [forall_mem_cons, head?_cons, Option.any_some, decide_eq_false_iff_not, not_lt]
        exact ⟨fun h => ⟨h, fun a ha => h.trans (hinner a ha)⟩, And.left⟩
    have hsplit : (∀ a ∈ ancestors, ∀ b ∈ span :: spans, stop a ≤ start b ∨ stop b ≤ stop a) ↔
        (∀ a ∈ ancestors, stop a ≤ start span ∨ stop span ≤ stop a) ∧
          ∀ a ∈ left, ∀ b ∈ spans, stop a ≤ start b ∨ stop b ≤ stop a := by
      constructor
      · intro h
        exact ⟨fun a ha => h a ha span (by simp),
          fun a ha b hb => h a ((hmem a).mp ha).1 b (by simp [hb])⟩
      · rintro ⟨hspan, hspans⟩ a ha b hb
        rcases mem_cons.mp hb with rfl | hb
        · exact hspan a ha
        · rcases le_or_gt (stop a) (start span) with hclosed | hlive
          · exact .inl (hclosed.trans (hle b hb))
          · exact hspans a ((hmem a).mpr ⟨ha, hlive⟩) b hb
    rw [stackNests, ← hleft, hsplit, ← hhead, pairwise_cons]
    cases hfits : left.head?.any fun ancestor => stop ancestor < stop span with
    | true => simp
    | false =>
      have hnested := hhead.mp hfits
      have hpush : (span :: left).Pairwise fun a b => stop a ≤ stop b := by
        refine pairwise_cons.mpr ⟨fun a ha => ?_, hopen'⟩
        obtain ⟨ha, hlive⟩ := (hmem a).mp ha
        exact (hnested a ha).resolve_left (by omega)
      rw [if_neg Bool.false_ne_true, ih hpush hsorted, forall_mem_cons]
      tauto

/-- The pass decides whether a family is laminar. -/
theorem stackNests_insertionSort {spans : List α} (hne : ∀ a ∈ spans, start a < stop a) :
    stackNests start stop [] (spans.insertionSort (OuterFirst start stop)) = true ↔
      spans.Pairwise (Laminar start stop) := by
  have hsorted := pairwise_insertionSort (OuterFirst start stop) spans
  rw [stackNests_iff .nil hsorted, and_iff_right (by simp)]
  have hperm := perm_insertionSort (OuterFirst start stop) spans
  have hsymm : ∀ {a b : α}, Laminar start stop a b → Laminar start stop b a := Laminar.symm
  rw [← hperm.pairwise_iff hsymm]
  have hiff : ∀ {a b : α}, a ∈ spans.insertionSort (OuterFirst start stop) →
      OuterFirst start stop a b →
      (Laminar start stop a b ↔ stop a ≤ start b ∨ stop b ≤ stop a) := fun ha h =>
    h.laminar_iff (hne _ (hperm.mem_iff.mp ha))
  constructor
  · exact fun h => (h.and hsorted).imp_of_mem fun ha _ h => (hiff ha h.2).mpr h.1
  · exact fun h => (h.and hsorted).imp_of_mem fun ha _ h => (hiff ha h.2).mp h.1

/-! ## Spans one after the other -/

/-- Spans that do not overlap follow one another once they are sorted. -/
theorem pairwise_apart_iff {spans : List α} (hne : ∀ a ∈ spans, start a < stop a)
    (hsorted : spans.Pairwise fun a b => start a ≤ start b) :
    spans.Pairwise (Apart start stop) ↔ spans.Pairwise fun a b => stop a ≤ start b := by
  constructor
  · intro h
    refine (h.and hsorted).imp_of_mem fun {a b} _ hb h => ?_
    have := hne b hb
    exact h.1.resolve_right (by omega)
  · exact fun h => h.imp fun h => .inl h

/-- It is enough to compare neighbours. -/
theorem isChain_iff_pairwise_apart {spans : List α} (hne : ∀ a ∈ spans, start a < stop a) :
    spans.IsChain (fun a b => stop a ≤ start b) ↔ spans.Pairwise fun a b => stop a ≤ start b := by
  refine ⟨fun h => ?_, List.Pairwise.isChain⟩
  let Before (a b : α) : Prop := start a < stop a ∧ stop a ≤ start b
  have htrans : Trans Before Before Before :=
    ⟨fun hab hbc => ⟨hab.1, hab.2.trans (hbc.1.le.trans hbc.2)⟩⟩
  have hchain : spans.IsChain Before :=
    h.imp_of_mem_imp fun a b ha _ h => ⟨hne a ha, h⟩
  exact (isChain_iff_pairwise.mp hchain).imp And.right

end ItemDependencies.Library
