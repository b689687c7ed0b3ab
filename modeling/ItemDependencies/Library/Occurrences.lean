import ItemDependencies.Library.Grouping
import Mathlib.Data.Set.Finite.Lattice

/-!
# First occurrences

The values of a list without repetitions, in the order in which they first occur, and the numbers
that the values of each class get in this order.  A repetition gets the number of a later place, so
that numbers tell apart only the values at their first occurrences.
-/

namespace ItemDependencies.Library

open List

universe u v

variable {α : Type u} {κ : Type v} [DecidableEq α] {l l' : List α} {a b : α}

def addNew (seen : List α) (a : α) : List α := if a ∈ seen then seen else seen ++ [a]

def distinct (l : List α) : List α := l.foldl addNew []

theorem distinct_concat : distinct (l ++ [a]) = addNew (distinct l) a := foldl_concat ..

@[simp] theorem mem_addNew : b ∈ addNew l a ↔ b ∈ l ∨ b = a := by
  unfold addNew
  split
  case isTrue h =>
    refine ⟨.inl, fun hb => hb.elim id ?_⟩
    rintro rfl
    exact h
  case isFalse => simp

theorem nodup_addNew (h : l.Nodup) : (addNew l a).Nodup := by
  unfold addNew
  split
  case isTrue => exact h
  case isFalse ha =>
    rw [← concat_eq_append]
    exact h.concat ha

theorem prefix_addNew : l <+: addNew l a := by
  unfold addNew
  split
  case isTrue => exact prefix_rfl
  case isFalse => exact prefix_append l [a]

@[simp] theorem mem_distinct : a ∈ distinct l ↔ a ∈ l := by
  induction l using List.reverseRecOn with
  | nil => rfl
  | append_singleton l b ih => simp [distinct_concat, ih]

theorem nodup_distinct (l : List α) : (distinct l).Nodup := by
  induction l using List.reverseRecOn with
  | nil => exact nodup_nil
  | append_singleton l b ih =>
    rw [distinct_concat]
    exact nodup_addNew ih

theorem length_distinct_le (l : List α) : (distinct l).length ≤ l.length :=
  ((nodup_distinct l).subperm fun _ ha => mem_distinct.mp ha).length_le

omit [DecidableEq α] in
/-- A list without repetitions that lies in another one is as long only if it has all of it. -/
theorem length_eq_iff_subset (h : l.Nodup) (h' : l'.Nodup) (hsub : l ⊆ l') :
    l.length = l'.length ↔ l' ⊆ l := by
  constructor
  · exact fun heq => ((h.subperm hsub).perm_of_length_le heq.ge).symm.subset
  · exact fun hsub' => (h.subperm hsub).length_le.antisymm (h'.subperm hsub').length_le

theorem distinct_initial (h : l <+: l') : distinct l <+: distinct l' := by
  obtain ⟨rest, rfl⟩ := h
  induction rest using List.reverseRecOn with
  | nil => rw [append_nil]
  | append_singleton rest b ih =>
    rw [← append_assoc, distinct_concat]
    exact ih.trans prefix_addNew

/-- A value stands at the place that was free before its first occurrence. -/
theorem getElem?_distinct_of_notMem (h : a ∉ l) (h' : l ++ [a] <+: l') :
    (distinct l')[(distinct l).length]? = some a := by
  have hfirst : distinct (l ++ [a]) = distinct l ++ [a] := by
    rw [distinct_concat, addNew, if_neg (mt mem_distinct.mp h)]
  obtain ⟨rest, hrest⟩ := hfirst ▸ distinct_initial h'
  rw [← hrest, append_assoc, getElem?_append_right le_rfl, Nat.sub_self]
  rfl

/-! ## Numbers within a class -/

section Numbered

variable [DecidableEq κ] {pushes : List (κ × α)} {c : κ} {m n : Nat}

/-- How many values the class has had. -/
def classOrdinal (before : List (κ × α)) (c : κ) : Nat := (distinct (valuesAt before c)).length

omit [DecidableEq κ] in
/-- Going through the items and counting what they push counts what is pushed in all. -/
theorem foldl_addNew_valuesAt [DecidableEq κ] {β : Type*} (push : β → Option (κ × α)) (c : κ)
    (items : List β) (seen : List α) :
    items.foldl (fun seen b => (valuesAt (push b).toList c).foldl addNew seen) seen =
      (valuesAt (items.filterMap push) c).foldl addNew seen := by
  induction items generalizing seen with
  | nil => rfl
  | cons b items ih =>
    rw [foldl_cons, ih]
    cases hpush : push b with
    | none =>
      rw [filterMap_cons_none hpush]
      rfl
    | some entry =>
      have hcons : valuesAt (entry :: items.filterMap push) c =
          valuesAt [entry] c ++ valuesAt (items.filterMap push) c := by
        rw [← singleton_append, valuesAt, filter_append, map_append]
        rfl
      rw [filterMap_cons_some hpush, hcons, foldl_append]
      rfl

theorem classOrdinal_le (before : List (κ × α)) (c : κ) : classOrdinal before c ≤ before.length :=
  calc classOrdinal before c ≤ (valuesAt before c).length := length_distinct_le _
    _ = (before.filter fun push => push.1 = c).length := length_map _
    _ ≤ before.length := length_filter_le ..

/-- Values that are all different have all been counted. -/
theorem classOrdinal_map (h : l.Nodup) (c : κ) :
    classOrdinal (l.map fun a => (c, a)) c = l.length := by
  have hvalues : valuesAt (l.map fun a => (c, a)) c = l := by
    simp [valuesAt, filter_map, Function.comp_def]
  rw [classOrdinal, hvalues]
  exact (length_distinct_le l).antisymm ((h.subperm fun _ ha => mem_distinct.mpr ha).length_le)

/-- Some occurrence of the value has the number. -/
def Numbered (pushes : List (κ × α)) (c : κ) (a : α) (n : Nat) : Prop :=
  ∃ before after, pushes = before ++ (c, a) :: after ∧ n = classOrdinal before c

/-- The first occurrence of the value has the number. -/
def FirstNumbered (pushes : List (κ × α)) (c : κ) (a : α) (n : Nat) : Prop :=
  ∃ before after, pushes = before ++ (c, a) :: after ∧ a ∉ valuesAt before c ∧
    n = classOrdinal before c

theorem FirstNumbered.numbered (h : FirstNumbered pushes c a n) : Numbered pushes c a n := by
  obtain ⟨before, after, heq, -, hn⟩ := h
  exact ⟨before, after, heq, hn⟩

omit [DecidableEq α] in
theorem valuesAt_initial {before : List (κ × α)} (h : before <+: pushes) :
    valuesAt before c <+: valuesAt pushes c :=
  (h.filter _).map Prod.snd

theorem FirstNumbered.getElem? (h : FirstNumbered pushes c a n) :
    (distinct (valuesAt pushes c))[n]? = some a := by
  obtain ⟨before, after, rfl, hnew, rfl⟩ := h
  refine getElem?_distinct_of_notMem hnew ?_
  have hconcat : valuesAt before c ++ [a] = valuesAt (before ++ [(c, a)]) c := by simp [valuesAt]
  rw [hconcat]
  exact valuesAt_initial (by simp)

theorem FirstNumbered.mem (h : FirstNumbered pushes c a n) : a ∈ valuesAt pushes c := by
  obtain ⟨before, after, rfl, -, -⟩ := h
  simp

theorem FirstNumbered.unique (h : FirstNumbered pushes c a n) (h' : FirstNumbered pushes c b n) :
    a = b :=
  Option.some.inj (h.getElem?.symm.trans h'.getElem?)

theorem FirstNumbered.lt_length (h : FirstNumbered pushes c a n) :
    n < (distinct (valuesAt pushes c)).length :=
  (List.getElem?_eq_some_iff.mp h.getElem?).1

/-- No occurrence has a smaller number than the first one. -/
theorem Numbered.exists_first (h : Numbered pushes c a n) :
    ∃ m ≤ n, FirstNumbered pushes c a m := by
  obtain ⟨before, after, rfl, rfl⟩ := h
  by_cases hnew : a ∈ valuesAt before c
  · obtain ⟨first, rest, rfl, hfirst⟩ := eq_append_cons_of_mem (mem_valuesAt.mp hnew)
    refine ⟨classOrdinal first c, ?_, first, rest ++ (c, a) :: after, by simp,
      mt mem_valuesAt.mp hfirst, rfl⟩
    exact (distinct_initial (valuesAt_initial (prefix_append first _))).length_le
  · exact ⟨_, le_rfl, before, after, rfl, hnew, rfl⟩

theorem finite_numbered (pushes : List (κ × α)) :
    Set.Finite {entry : (κ × α) × Nat | Numbered pushes entry.1.1 entry.1.2 entry.2} := by
  refine ((Set.finite_lt_nat pushes.length).image fun i =>
    pushes[i]?.map fun push => (push, classOrdinal (pushes.take i) push.1)).preimage
      (Option.some_injective _).injOn |>.subset ?_
  rintro ⟨⟨c, a⟩, n⟩ ⟨before, after, heq, hn⟩
  dsimp only at heq hn
  subst heq hn
  exact ⟨before.length, by simp, by simp⟩

end Numbered

end ItemDependencies.Library
