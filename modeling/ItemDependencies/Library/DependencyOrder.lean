import Mathlib.Logic.Relation

/-!
# Orders of dependencies

A node either has no answer or answers with its dependencies.  In a dependency order every node has
an answer and comes after all its dependencies, so that no node in it depends on itself.
-/

namespace ItemDependencies.Library

open List

universe u

variable {α : Type u}

def DependsOn (dependencies : α → Option (List α)) (a b : α) : Prop :=
  ∃ found, dependencies a = some found ∧ b ∈ found

/-- A node is reached from one of the starts. -/
def ReachedFrom (dependencies : α → Option (List α)) (starts : List α) (a : α) : Prop :=
  ∃ start ∈ starts, Relation.ReflTransGen (DependsOn dependencies) start a

def IsDependencyOrder (dependencies : α → Option (List α)) (order : List α) : Prop :=
  ∀ before a after, order = before ++ a :: after →
    ∃ found, dependencies a = some found ∧ found ⊆ before

variable {dependencies : α → Option (List α)} {starts order found : List α} {a b : α}

theorem ReachedFrom.tail (h : ReachedFrom dependencies starts a)
    (hab : DependsOn dependencies a b) : ReachedFrom dependencies starts b := by
  obtain ⟨start, hstart, hreach⟩ := h
  exact ⟨start, hstart, hreach.tail hab⟩

theorem ReachedFrom.mono {starts' : List α} (h : ReachedFrom dependencies starts a)
    (hsub : starts ⊆ starts') : ReachedFrom dependencies starts' a := by
  obtain ⟨start, hstart, hreach⟩ := h
  exact ⟨start, hsub hstart, hreach⟩

namespace IsDependencyOrder

theorem nil : IsDependencyOrder dependencies [] := by
  intro before a after h
  exact absurd h.symm (append_ne_nil_of_right_ne_nil _ (cons_ne_nil _ _))

/-- A node is added after its dependencies. -/
theorem concat (h : IsDependencyOrder dependencies order) (ha : dependencies a = some found)
    (hsub : found ⊆ order) : IsDependencyOrder dependencies (order ++ [a]) := by
  intro before b after hsplit
  rcases eq_nil_or_concat after with rfl | ⟨after, c, rfl⟩
  · obtain ⟨rfl, heq⟩ := append_inj' hsplit rfl
    cases heq
    exact ⟨found, ha, hsub⟩
  · have hsplit' : order ++ [a] = before ++ b :: after ++ [c] := by
      rw [hsplit, concat_eq_append, append_assoc, cons_append]
    exact h before b after (append_inj' hsplit' rfl).1

variable (h : IsDependencyOrder dependencies order)

include h

theorem exists_found (ha : a ∈ order) : ∃ found, dependencies a = some found ∧ found ⊆ order := by
  obtain ⟨before, after, rfl⟩ := append_of_mem ha
  obtain ⟨found, hfound, hsub⟩ := h before a after rfl
  exact ⟨found, hfound, List.Subset.trans hsub (subset_append_left _ _)⟩

/-- What is reached from an order is in it. -/
theorem mem_of_reachedFrom (hstarts : starts ⊆ order) (ha : ReachedFrom dependencies starts a) :
    a ∈ order := by
  obtain ⟨start, hstart, hreach⟩ := ha
  induction hreach with
  | refl => exact hstarts hstart
  | tail _ hstep ih =>
    obtain ⟨found, hfound, hmem⟩ := hstep
    obtain ⟨found', hfound', hsub⟩ := h.exists_found ih
    cases hfound.symm.trans hfound'
    exact hsub hmem

/-- What a node depends on, at once or through others, comes before it. -/
theorem mem_of_transGen {before after : List α} (hsplit : order = before ++ a :: after)
    (hreach : Relation.TransGen (DependsOn dependencies) a b) : b ∈ before := by
  induction hreach with
  | single hstep =>
    obtain ⟨found, hfound, hmem⟩ := hstep
    obtain ⟨found', hfound', hsub⟩ := h before a after hsplit
    cases hfound.symm.trans hfound'
    exact hsub hmem
  | @tail b c _ hstep ih =>
    obtain ⟨found, hfound, hmem⟩ := hstep
    obtain ⟨first, second, rfl⟩ := append_of_mem ih
    obtain ⟨found', hfound', hsub⟩ := h first b (second ++ a :: after)
      (hsplit.trans (append_assoc _ _ _))
    cases hfound.symm.trans hfound'
    exact mem_append_left _ (hsub hmem)

theorem irrefl (hnodup : order.Nodup) (ha : a ∈ order) :
    ¬Relation.TransGen (DependsOn dependencies) a a := by
  intro hcycle
  obtain ⟨before, after, rfl⟩ := append_of_mem ha
  have hbefore := h.mem_of_transGen rfl hcycle
  exact (nodup_append.mp hnodup).2.2 a hbefore a mem_cons_self rfl

end IsDependencyOrder

end ItemDependencies.Library
