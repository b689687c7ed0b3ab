import Mathlib.Data.Finset.Card

/-!
# Chains of parents

Nodes with at most one parent each.  A node is grounded when its chain of
parents ends at a node without one, and every node of the chain is known.  The
nodes of a finite set are all grounded exactly when no parent is missing and no
chain is a cycle, and then the nodes below a node can be reached by induction.
-/

namespace ItemDependencies.Library

open Finset

universe u

variable {α : Type u}

/-- One step up. -/
def Up (parent : α → Option α) (a b : α) : Prop := parent a = some b

/-- The first node is the second one, or below it. -/
abbrev Below (parent : α → Option α) : α → α → Prop := Relation.ReflTransGen (Up parent)

/-- The chain of parents ends, and all its nodes are known. -/
inductive Grounded (parent : α → Option α) (nodes : Finset α) : α → Prop
  | root {a : α} (h : a ∈ nodes) (hp : parent a = none) : Grounded parent nodes a
  | child {a p : α} (h : a ∈ nodes) (hp : parent a = some p) (hg : Grounded parent nodes p) :
      Grounded parent nodes a

variable {parent : α → Option α} {nodes : Finset α} {a b c p : α}

theorem rightUnique_up : Relator.RightUnique (Up parent) := fun _ _ _ hb hc =>
  Option.some.inj (hb.symm.trans hc)

theorem Grounded.mem (h : Grounded parent nodes a) : a ∈ nodes := by
  cases h with
  | root h => exact h
  | child h => exact h

/-- What is above a grounded node is grounded. -/
theorem Grounded.above (h : Grounded parent nodes a) (hab : Below parent a b) :
    Grounded parent nodes b := by
  induction hab with
  | refl => exact h
  | tail _ hup ih =>
    cases ih with
    | root _ hp => cases hp.symm.trans hup
    | child _ hp hg =>
      cases hp.symm.trans hup
      exact hg

/-- A grounded node is below a root. -/
theorem Grounded.exists_root (h : Grounded parent nodes a) :
    ∃ r ∈ nodes, parent r = none ∧ Below parent a r := by
  induction h with
  | @root a ha hp => exact ⟨a, ha, hp, .refl⟩
  | child _ hp _ ih =>
    obtain ⟨r, hr, hroot, hbelow⟩ := ih
    exact ⟨r, hr, hroot, .head hp hbelow⟩

/-- A grounded node is not above itself. -/
theorem Grounded.irrefl (h : Grounded parent nodes a) : ¬Relation.TransGen (Up parent) a a := by
  induction h with
  | root _ hp =>
    intro hcycle
    obtain ⟨x, hup, -⟩ := Relation.TransGen.head'_iff.mp hcycle
    cases hp.symm.trans hup
  | child _ hp _ ih =>
    intro hcycle
    obtain ⟨x, hup, hrest⟩ := Relation.TransGen.head'_iff.mp hcycle
    cases hp.symm.trans hup
    exact ih (.tail' hrest hp)

section Finite

variable (hmissing : ∀ a ∈ nodes, ∀ p, parent a = some p → p ∈ nodes)
  (hacyclic : ∀ a ∈ nodes, ¬Relation.TransGen (Up parent) a a)

include hmissing hacyclic in
/-- A chain of known nodes that never comes back to a node ends. -/
theorem grounded_of_acyclic (ha : a ∈ nodes) : Grounded parent nodes a := by
  classical
  -- the induction is on the number of nodes above
  induction hn : (nodes.filter (Below parent a ·)).card using Nat.strong_induction_on
    generalizing a with
  | h n ih =>
    cases hp : parent a with
    | none => exact .root ha hp
    | some p =>
      have hmem := hmissing a ha p hp
      refine .child ha hp (ih _ ?_ hmem rfl)
      rw [← hn]
      refine card_lt_card (ssubset_iff_of_subset ?_ |>.mpr ⟨a, ?_, ?_⟩)
      · intro x hx
        obtain ⟨hx, hpx⟩ := mem_filter.mp hx
        exact mem_filter.mpr ⟨hx, .head hp hpx⟩
      · exact mem_filter.mpr ⟨ha, .refl⟩
      · exact fun hx => hacyclic a ha (.head' hp (mem_filter.mp hx).2)

include hacyclic in
/-- Induction from the leaves up: what holds of a node whenever it holds of its known children
holds of every node. -/
theorem child_induction {P : α → Prop}
    (step : ∀ a, (∀ c ∈ nodes, parent c = some a → P c) → P a) (a : α) : P a := by
  classical
  -- the induction is on the number of nodes below
  induction hn : (nodes.filter (Relation.TransGen (Up parent) · a)).card using
    Nat.strong_induction_on generalizing a with
  | h n ih =>
    refine step a fun c hc hp => ih _ ?_ c rfl
    rw [← hn]
    refine card_lt_card (ssubset_iff_of_subset ?_ |>.mpr ⟨c, ?_, ?_⟩)
    · intro x hx
      obtain ⟨hx, hxc⟩ := mem_filter.mp hx
      exact mem_filter.mpr ⟨hx, hxc.tail hp⟩
    · exact mem_filter.mpr ⟨hc, .single hp⟩
    · exact fun hx => hacyclic c hc (mem_filter.mp hx).2

end Finite

/-- The nodes of a finite set are grounded if and only if no parent is missing and no chain is
cyclic. -/
theorem forall_grounded_iff (parent : α → Option α) (nodes : Finset α) :
    (∀ a ∈ nodes, Grounded parent nodes a) ↔
      (∀ a ∈ nodes, ∀ p, parent a = some p → p ∈ nodes) ∧
        ∀ a ∈ nodes, ¬Relation.TransGen (Up parent) a a := by
  constructor
  · refine fun h => ⟨fun a ha p hp => ?_, fun a ha => (h a ha).irrefl⟩
    exact ((h a ha).above (.single hp)).mem
  · exact fun h a ha => grounded_of_acyclic h.1 h.2 ha

/-- Of two nodes above the same node, one is below the other. -/
theorem below_total (hb : Below parent a b) (hc : Below parent a c) :
    Below parent b c ∨ Below parent c b :=
  Relation.ReflTransGen.total_of_right_unique rightUnique_up hb hc

/-- Two children of one node have nothing below them in common. -/
theorem siblings_disjoint (hacyclic : ¬Relation.TransGen (Up parent) p p)
    (hb : parent b = some p) (hc : parent c = some p) (hab : Below parent a b)
    (hac : Below parent a c) : b = c := by
  -- one of the two would be below the other, and so below their common parent's child
  have key : ∀ {x y : α}, parent x = some p → parent y = some p → Below parent x y → x = y := by
    intro x y hx hy hxy
    rcases Relation.ReflTransGen.cases_head hxy with rfl | ⟨z, hup, hzy⟩
    · rfl
    · cases hx.symm.trans hup
      exact absurd (.tail' hzy hy) hacyclic
  rcases below_total hab hac with h | h
  · exact key hb hc h
  · exact (key hc hb h).symm

/-- Nothing is above a root. -/
theorem eq_of_below_root (hb : parent b = none) (h : Below parent b c) : b = c := by
  rcases Relation.ReflTransGen.cases_head h with rfl | ⟨z, hup, -⟩
  · rfl
  · cases hb.symm.trans hup

theorem roots_disjoint (hb : parent b = none) (hc : parent c = none) (hab : Below parent a b)
    (hac : Below parent a c) : b = c := by
  rcases below_total hab hac with h | h
  · exact eq_of_below_root hb h
  · exact (eq_of_below_root hc h).symm

/-! ## Following a chain -/

section Following

variable [DecidableEq α]

/-- Follow the parents until there is none, or until one comes up again, for at most the given
number of steps.  The flag says whether the chain ended. -/
def followAcyclic (parent : α → Option α) : Nat → Finset α → Option α → Bool
  | _, _, none => true
  | 0, _, some _ => false
  | limit + 1, seen, some a =>
    if a ∈ seen then false else followAcyclic parent limit (insert a seen) (parent a)

theorem Grounded.of_followAcyclic (hmissing : ∀ a ∈ nodes, ∀ p, parent a = some p → p ∈ nodes)
    {limit : Nat} {seen : Finset α} (ha : a ∈ nodes)
    (h : followAcyclic parent limit seen (some a) = true) : Grounded parent nodes a := by
  induction limit generalizing seen a with
  | zero => cases h
  | succ limit ih =>
    rw [followAcyclic] at h
    split at h
    · cases h
    cases hp : parent a with
    | none => exact .root ha hp
    | some p =>
      rw [hp] at h
      exact .child ha hp (ih (hmissing a ha p hp) h)

omit [DecidableEq α] in
theorem exists_eq_succ_of_notMem {seen : Finset α} (ha : a ∈ nodes) (hseen : seen ⊆ nodes)
    (hnew : a ∉ seen) {limit : Nat} (hlimit : nodes.card ≤ limit + seen.card) :
    ∃ n, limit = n + 1 := by
  have hlt : seen.card < nodes.card :=
    card_lt_card ((ssubset_iff_of_subset hseen).mpr ⟨a, ha, hnew⟩)
  exact ⟨limit - 1, by omega⟩

theorem Grounded.followAcyclic (h : Grounded parent nodes a) {limit : Nat} {seen : Finset α}
    (hseen : seen ⊆ nodes) (hbelow : ∀ x ∈ seen, ¬Below parent a x)
    (hlimit : nodes.card ≤ limit + seen.card) :
    Library.followAcyclic parent limit seen (some a) = true := by
  -- the induction follows the chain; what has been seen is not above
  induction h generalizing limit seen with
  | @root a ha hp =>
    obtain ⟨limit, rfl⟩ := exists_eq_succ_of_notMem ha hseen (fun h => hbelow a h .refl) hlimit
    rw [Library.followAcyclic, if_neg fun h => hbelow a h .refl, hp]
    cases limit <;> rfl
  | @child a p ha hp hg ih =>
    have hnew : a ∉ seen := fun h => hbelow a h .refl
    obtain ⟨limit, rfl⟩ := exists_eq_succ_of_notMem ha hseen hnew hlimit
    rw [Library.followAcyclic, if_neg hnew, hp]
    refine ih (insert_subset ha hseen) (fun x hx hpx => ?_) ?_
    · rcases mem_insert.mp hx with rfl | hx
      · exact (Grounded.child ha hp hg).irrefl (.head' hp hpx)
      · exact hbelow x hx (.head hp hpx)
    · rw [card_insert_of_notMem hnew]
      omega

/-- With as many steps as there are nodes, the chain of a node ends if and only if it does not lead
to a cycle. -/
theorem followAcyclic_iff (hmissing : ∀ a ∈ nodes, ∀ p, parent a = some p → p ∈ nodes)
    {limit : Nat} (ha : a ∈ nodes) (hlimit : nodes.card ≤ limit) :
    followAcyclic parent limit ∅ (some a) = true ↔
      ∀ b, Below parent a b → ¬Relation.TransGen (Up parent) b b := by
  classical
  constructor
  · exact fun h b hb => ((Grounded.of_followAcyclic hmissing ha h).above hb).irrefl
  · intro hacyclic
    have hground : Grounded parent (nodes.filter (Below parent a)) a := by
      refine grounded_of_acyclic (fun b hb p hp => ?_)
        (fun b hb => hacyclic b (mem_filter.mp hb).2) (mem_filter.mpr ⟨ha, .refl⟩)
      obtain ⟨hb, hab⟩ := mem_filter.mp hb
      exact mem_filter.mpr ⟨hmissing b hb p hp, hab.tail hp⟩
    refine hground.followAcyclic (empty_subset _) (fun _ h => absurd h (notMem_empty _)) ?_
    rw [card_empty, Nat.add_zero]
    exact (card_filter_le _ _).trans hlimit

end Following

end ItemDependencies.Library
