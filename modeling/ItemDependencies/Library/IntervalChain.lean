import Mathlib.Order.GaloisConnection.Defs

/-!
# Consecutive intervals

Intervals of natural numbers that follow one another without a gap, each given
by its two ends.  Every number lies in one of them, and the number of that
interval is adjoint to both ends.
-/

namespace ItemDependencies.Library

/-- Interval `n` goes from `left n` to `right n`, both included. -/
structure IntervalChain (left right : Nat → Nat) : Prop where
  zero : left 0 = 0
  succ : ∀ n, left (n + 1) = right n + 1
  le : ∀ n, left n ≤ right n

namespace IntervalChain

variable {left right : Nat → Nat}

theorem strictMono_left (h : IntervalChain left right) : StrictMono left := by
  apply strictMono_nat_of_lt_succ
  intro n
  have := h.le n
  rw [h.succ n]
  omega

theorem strictMono_right (h : IntervalChain left right) : StrictMono right := by
  apply strictMono_nat_of_lt_succ
  intro n
  have := h.succ n
  have := h.le (n + 1)
  omega

/-- An interval ends before any later one starts. -/
theorem right_lt_left (h : IntervalChain left right) {m n : Nat} (hlt : m < n) :
    right m < left n := by
  have := h.strictMono_left.monotone (Nat.succ_le_of_lt hlt)
  rw [h.succ m] at this
  exact this

/-- No number lies in two intervals. -/
theorem unique (h : IntervalChain left right) {m n x : Nat} (hm : left m ≤ x ∧ x ≤ right m)
    (hn : left n ≤ x ∧ x ≤ right n) : m = n := by
  rcases lt_trichotomy m n with hlt | heq | hgt
  · have := h.right_lt_left hlt
    omega
  · exact heq
  · have := h.right_lt_left hgt
    omega

variable {index : Nat → Nat}

/-- A function that finds an interval of each number finds the only one. -/
theorem index_eq_iff (h : IntervalChain left right)
    (hindex : ∀ x, left (index x) ≤ x ∧ x ≤ right (index x)) {x n : Nat} :
    index x = n ↔ left n ≤ x ∧ x ≤ right n := by
  constructor
  · rintro rfl
    exact hindex x
  · exact h.unique (hindex x)

theorem gc_left (h : IntervalChain left right)
    (hindex : ∀ x, left (index x) ≤ x ∧ x ≤ right (index x)) : GaloisConnection left index := by
  intro n x
  have hx := hindex x
  constructor
  · intro hle
    by_contra hlt
    have := h.right_lt_left (not_le.mp hlt)
    omega
  · intro hle
    exact (h.strictMono_left.monotone hle).trans hx.1

theorem gc_right (h : IntervalChain left right)
    (hindex : ∀ x, left (index x) ≤ x ∧ x ≤ right (index x)) : GaloisConnection index right := by
  intro x n
  have hx := hindex x
  constructor
  · intro hle
    exact hx.2.trans (h.strictMono_right.monotone hle)
  · intro hle
    by_contra hlt
    have := h.right_lt_left (not_le.mp hlt)
    omega

end IntervalChain

end ItemDependencies.Library
