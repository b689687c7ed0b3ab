import Mathlib.Data.List.TakeWhile

/-!
# Partition points

A list is partitioned by a predicate if no element that has it comes after one
that has not.  The elements before the partition point, which a binary search
finds, are then exactly those that have the predicate.
-/

namespace ItemDependencies.Library

open List

universe u

variable {α : Type u} {l : List α} {p q : α → Bool} {x : α} {i : Nat}

/-- No element with the predicate comes after one without. -/
def Partitioned (p : α → Bool) (l : List α) : Prop := l.Pairwise fun a b => p b = true → p a = true

/-- Positions before the partition point. -/
theorem lt_length_takeWhile_iff (h : Partitioned p l) (hi : l[i]? = some x) :
    i < (l.takeWhile p).length ↔ p x = true := by
  induction l generalizing i with
  | nil => cases hi
  | cons a l ih =>
    obtain ⟨ha, hl⟩ := pairwise_cons.mp h
    by_cases hp : p a = true
    · rw [takeWhile_cons_of_pos hp, length_cons]
      cases i with
      | zero =>
        cases hi
        simp [hp]
      | succ i =>
        rw [Nat.succ_lt_succ_iff]
        exact ih hl hi
    · rw [takeWhile_cons_of_neg hp]
      cases i with
      | zero =>
        cases hi
        simp [hp]
      | succ i =>
        have hx := ha x (mem_of_getElem? hi)
        simpa using fun h => hp (hx h)

theorem mem_takeWhile_iff (h : Partitioned p l) : x ∈ l.takeWhile p ↔ x ∈ l ∧ p x = true := by
  constructor
  · exact fun hx => ⟨(List.takeWhile_prefix p).subset hx, mem_takeWhile_imp hx⟩
  · rintro ⟨hx, hp⟩
    obtain ⟨i, hi⟩ := getElem?_of_mem hx
    have hlt := (lt_length_takeWhile_iff h hi).mpr hp
    obtain ⟨m, hm⟩ := takeWhile_prefix p (l := l)
    rw [← hm, getElem?_append_left hlt] at hi
    exact mem_of_getElem? hi

theorem mem_dropWhile_iff (h : Partitioned p l) : x ∈ l.dropWhile p ↔ x ∈ l ∧ p x = false := by
  induction l with
  | nil => simp
  | cons a l ih =>
    obtain ⟨ha, hl⟩ := pairwise_cons.mp h
    by_cases hp : p a = true
    · rw [dropWhile_cons_of_pos hp, ih hl, mem_cons]
      constructor
      · exact fun ⟨hx, hpx⟩ => ⟨Or.inr hx, hpx⟩
      · rintro ⟨rfl | hx, hpx⟩
        · rw [hp] at hpx
          cases hpx
        · exact ⟨hx, hpx⟩
    · rw [dropWhile_cons_of_neg hp]
      refine ⟨fun hx => ⟨hx, ?_⟩, And.left⟩
      rcases mem_cons.mp hx with rfl | hx
      · simpa using hp
      · simpa using fun hpx => hp (ha x hx hpx)

/-- Dropping in two steps. -/
theorem dropWhile_dropWhile (h : ∀ x ∈ l, p x = true → q x = true) :
    (l.dropWhile p).dropWhile q = l.dropWhile q := by
  induction l with
  | nil => rfl
  | cons a l ih =>
    by_cases hp : p a = true
    · rw [dropWhile_cons_of_pos hp, dropWhile_cons_of_pos (h a (by simp) hp),
        ih fun x hx => h x (by simp [hx])]
    · rw [dropWhile_cons_of_neg hp]

/-- The list at the partition point: the first element without the predicate, if there is one. -/
theorem at_partitionPoint (p : α → Bool) (l : List α) :
    (l[(l.takeWhile p).length]? = none ∧ ∀ x ∈ l, p x = true) ∨
      ∃ before a rest, l = before ++ a :: rest ∧ l[(l.takeWhile p).length]? = some a ∧
        (∀ x ∈ before, p x = true) ∧ p a = false := by
  induction l with
  | nil => exact .inl ⟨rfl, by simp⟩
  | cons a l ih =>
    cases hp : p a with
    | false => exact .inr ⟨[], a, l, rfl, by simp [hp], by simp, hp⟩
    | true =>
      rw [takeWhile_cons_of_pos hp, length_cons, getElem?_cons_succ]
      rcases ih with ⟨hnone, hall⟩ | ⟨before, b, rest, rfl, hget, hall, hb⟩
      · exact .inl ⟨hnone, by simpa [hp] using hall⟩
      · exact .inr ⟨a :: before, b, rest, rfl, hget, by simpa [hp] using hall, hb⟩

theorem Partitioned.sublist {l' : List α} (h : Partitioned p l) (hs : l'.Sublist l) :
    Partitioned p l' := List.Pairwise.sublist hs h

/-- The elements from one partition point to another. -/
theorem mem_slice_iff (hp : Partitioned p l) (hq : Partitioned q l) :
    x ∈ (l.dropWhile p).takeWhile q ↔ x ∈ l ∧ p x = false ∧ q x = true := by
  rw [mem_takeWhile_iff (hq.sublist (dropWhile_suffix p).sublist), mem_dropWhile_iff hp, and_assoc]

/-- The element before the partition point, if there is one. -/
theorem getElem?_length_takeWhile_sub_one (h : l.takeWhile p ≠ []) :
    l[(l.takeWhile p).length - 1]? = (l.takeWhile p).getLast? := by
  obtain ⟨rest, hrest⟩ := takeWhile_prefix p (l := l)
  have hpos := length_pos_iff.mpr h
  have hleft : (l.takeWhile p ++ rest)[(l.takeWhile p).length - 1]? =
      (l.takeWhile p)[(l.takeWhile p).length - 1]? := getElem?_append_left (by omega)
  rw [hrest] at hleft
  rw [hleft, getLast?_eq_getElem?]

/-- All other elements come before the last one. -/
theorem rel_getLast? {r : α → α → Prop} (h : l.Pairwise r) {last : α}
    (hlast : l.getLast? = some last)
    (hx : x ∈ l) : x = last ∨ r x last := by
  obtain ⟨before, rfl⟩ := getLast?_eq_some_iff.mp hlast
  rcases mem_append.mp hx with hx | hx
  · exact .inr ((pairwise_append.mp h).2.2 x hx last (by simp))
  · exact .inl (mem_singleton.mp hx)

end ItemDependencies.Library
