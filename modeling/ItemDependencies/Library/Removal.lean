import Mathlib.Data.List.Nodup
import Mathlib.Order.Nat

/-!
# Removing positions from a list

A predicate says which positions of a list are removed.  The positions that are
kept ascend, the `i`th remaining element comes from the `i`th of them, and a
stretch between two of them is what remains of a stretch of the list.
-/

namespace ItemDependencies.Library

open List

universe u v

variable {α : Type u} {β : Type v} {removed removed' : Nat → Bool} {k n : Nat} {l : List α}

/-- The elements whose positions, counted from `k`, are not removed. -/
def remaining (removed : Nat → Bool) : Nat → List α → List α
  | _, [] => []
  | k, a :: l =>
    if removed k then remaining removed (k + 1) l else a :: remaining removed (k + 1) l

/-- The positions below `n` that are not removed. -/
def kept (removed : Nat → Bool) (n : Nat) : List Nat := (List.range n).filter fun i => !removed i

theorem remaining_append (l₁ l₂ : List α) : remaining removed k (l₁ ++ l₂) =
    remaining removed k l₁ ++ remaining removed (k + l₁.length) l₂ := by
  induction l₁ generalizing k with
  | nil => rfl
  | cons a l₁ ih =>
    have hk : k + (a :: l₁).length = k + 1 + l₁.length := by
      rw [length_cons, Nat.add_assoc, Nat.add_comm 1]
    simp only [cons_append, remaining, ih, hk]
    split <;> rfl

theorem remaining_congr (h : ∀ i < l.length, removed (k + i) = removed' (k + i)) :
    remaining removed k l = remaining removed' k l := by
  induction l generalizing k with
  | nil => rfl
  | cons a l ih =>
    have hrest : remaining removed (k + 1) l = remaining removed' (k + 1) l := by
      apply ih
      intro i hi
      rw [Nat.add_assoc, Nat.add_comm 1]
      exact h (i + 1) (Nat.succ_lt_succ hi)
    have hfirst := h 0 (Nat.succ_pos _)
    rw [Nat.add_zero] at hfirst
    rw [remaining, remaining, hfirst, hrest]

theorem remaining_eq_self (h : ∀ i < l.length, removed (k + i) = false) :
    remaining removed k l = l := by
  have hnone : ∀ (l : List α) (k : Nat), remaining (fun _ => false) k l = l := by
    intro l
    induction l with
    | nil => exact fun _ => rfl
    | cons a l ih => exact fun k => congrArg (a :: ·) (ih (k + 1))
  exact (remaining_congr h).trans (hnone l k)

theorem remaining_eq_nil (h : ∀ i < l.length, removed (k + i) = true) :
    remaining removed k l = [] := by
  have hall : ∀ (l : List α) (k : Nat), remaining (fun _ => true) k l = [] := by
    intro l
    induction l with
    | nil => exact fun _ => rfl
    | cons a l ih => exact fun k => ih (k + 1)
  exact (remaining_congr h).trans (hall l k)

/-- How many elements remain depends on the length only. -/
theorem length_remaining :
    (remaining removed k l).length = (List.range' k l.length).countP fun i => !removed i := by
  induction l generalizing k with
  | nil => rfl
  | cons a l ih =>
    rw [remaining, length_cons, range'_succ, countP_cons]
    cases removed k with
    | true => simp [ih]
    | false => simp [ih]

theorem length_kept : (kept removed n).length = (List.range' 0 n).countP fun i => !removed i := by
  rw [kept, ← countP_eq_length_filter, range_eq_range']

theorem length_remaining_zero :
    (remaining removed 0 l).length = (kept removed l.length).length := by
  rw [length_remaining, length_kept]

theorem mem_kept {i : Nat} : i ∈ kept removed n ↔ i < n ∧ removed i = false := by
  rw [kept, mem_filter, mem_range, Bool.not_eq_true']

theorem pairwise_kept : (kept removed n).Pairwise (· < ·) := pairwise_lt_range.filter _

theorem kept_lt {i j p q : Nat} (hp : (kept removed n)[i]? = some p)
    (hq : (kept removed n)[j]? = some q) (hij : i < j) : p < q := by
  obtain ⟨hi, rfl⟩ := List.getElem?_eq_some_iff.mp hp
  obtain ⟨hj, rfl⟩ := List.getElem?_eq_some_iff.mp hq
  exact pairwise_iff_getElem.mp pairwise_kept i j hi hj hij

theorem kept_le {i j p q : Nat} (hp : (kept removed n)[i]? = some p)
    (hq : (kept removed n)[j]? = some q) (hij : i ≤ j) : p ≤ q := by
  rcases hij.eq_or_lt with rfl | hij
  · rw [hp, Option.some.injEq] at hq
    exact hq.le
  · exact (kept_lt hp hq hij).le

theorem kept_lt_iff {i j p q : Nat} (hp : (kept removed n)[i]? = some p)
    (hq : (kept removed n)[j]? = some q) : p < q ↔ i < j :=
  ⟨fun hlt => lt_of_not_ge fun hle => absurd hlt (kept_le hq hp hle).not_gt, kept_lt hp hq⟩

theorem nodup_kept : (kept removed n).Nodup := nodup_range.filter _

/-- The positions that are kept come in stretches. -/
theorem kept_add (m : Nat) :
    kept removed (n + m) = kept removed n ++ (List.range' n m).filter fun i => !removed i := by
  rw [kept, kept, range_eq_range', range_eq_range', ← filter_append]
  congr 1
  rw [← range'_append_1, Nat.zero_add]

theorem kept_congr (h : ∀ i < n, removed i = removed' i) : kept removed n = kept removed' n := by
  apply filter_congr
  intro i hi
  rw [h i (mem_range.mp hi)]

/-- A stretch without removed positions is kept. -/
theorem kept_add_of_kept {m : Nat} (h : ∀ i, n ≤ i → i < n + m → removed i = false) :
    kept removed (n + m) = kept removed n ++ List.range' n m := by
  rw [kept_add, filter_eq_self.mpr]
  intro i hi
  obtain ⟨hn, hm⟩ := mem_range'_1.mp hi
  rw [h i hn hm]
  rfl

/-- A stretch of removed positions leaves nothing. -/
theorem kept_add_of_removed {m : Nat} (h : ∀ i, n ≤ i → i < n + m → removed i = true) :
    kept removed (n + m) = kept removed n := by
  rw [kept_add, filter_eq_nil_iff.mpr, append_nil]
  intro i hi
  obtain ⟨hn, hm⟩ := mem_range'_1.mp hi
  rw [h i hn hm]
  decide

/-- The number of kept positions below a kept position is its place among them. -/
theorem length_kept_of_getElem? {i p : Nat} (h : (kept removed n)[i]? = some p) :
    (kept removed p).length = i := by
  obtain ⟨hp, hkept⟩ := mem_kept.mp (mem_of_getElem? h)
  have hsplit : kept removed n = kept removed p ++
      p :: (List.range' (p + 1) (n - p - 1)).filter fun i => !removed i := by
    have hn : n = p + (n - p - 1 + 1) := by omega
    conv_lhs => rw [hn, kept_add, range'_succ, filter_cons_of_pos (by simp [hkept])]
  have hat : (kept removed n)[(kept removed p).length]? = some p := by
    rw [hsplit, getElem?_append_right le_rfl, Nat.sub_self]
    rfl
  obtain ⟨hlt, hget⟩ := List.getElem?_eq_some_iff.mp h
  obtain ⟨hlt', hget'⟩ := List.getElem?_eq_some_iff.mp hat
  exact (nodup_kept.getElem_inj_iff).mp (hget'.trans hget.symm)

/-- Right after a kept position there is one more. -/
theorem length_kept_succ {i p : Nat} (h : (kept removed n)[i]? = some p) :
    (kept removed (p + 1)).length = i + 1 := by
  obtain ⟨-, hkept⟩ := mem_kept.mp (mem_of_getElem? h)
  rw [kept_add_of_kept fun j hj hlt => ?_, length_append, length_kept_of_getElem? h, length_range']
  obtain rfl : j = p := by omega
  exact hkept

/-- What remains of a stretch is the stretch of what remains. -/
theorem remaining_extract {s e : Nat} (hse : s ≤ e) (he : e ≤ l.length) :
    remaining removed s (l.extract s e) = (remaining removed 0 l).extract (kept removed s).length
      (kept removed e).length := by
  have hsplit : l = l.take s ++ (l.extract s e ++ l.drop e) := by
    rw [extract_eq_take_drop, ← append_assoc]
    conv_lhs => rw [← take_append_drop e l]
    congr 1
    conv_lhs => rw [← take_append_drop s (l.take e)]
    rw [take_take, Nat.min_eq_left hse, drop_take]
  have hs : (l.take s).length = s := by rw [length_take]; omega
  have hm : (l.extract s e).length = e - s := by
    rw [extract_eq_take_drop, length_take, length_drop]
    omega
  have hbefore : (remaining removed 0 (l.take s)).length = (kept removed s).length := by
    rw [length_remaining_zero, hs]
  have hinside : (remaining removed s (l.extract s e)).length =
      (kept removed e).length - (kept removed s).length := by
    have he' : e = s + (e - s) := by omega
    rw [length_remaining, hm]
    conv_rhs => rw [he', kept_add, length_append]
    rw [Nat.add_sub_cancel_left, countP_eq_length_filter]
  have hparts : remaining removed 0 l = remaining removed 0 (l.take s) ++
      (remaining removed s (l.extract s e) ++ remaining removed (s + (e - s)) (l.drop e)) := by
    conv_lhs => rw [hsplit, remaining_append, remaining_append, hs, Nat.zero_add, hm]
  change _ = List.take ((kept removed e).length - (kept removed s).length)
    (List.drop (kept removed s).length (remaining removed 0 l))
  rw [hparts, ← hinside, ← hbefore, drop_left, take_left]

end ItemDependencies.Library
