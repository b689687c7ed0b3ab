import Mathlib.Data.List.Induction
import Mathlib.Data.List.TakeWhile
import Mathlib.Order.MinMax

/-!
# Unions of intervals

Half-open intervals that come in the order of their starts are collected into a
list of separated intervals: one that touches or overlaps the last is merged
into it.  A position is in the union exactly when it is in the last interval
that starts at or before it, which a binary search finds.
-/

namespace ItemDependencies.Library

open List

/-- The positions from `start` up to, but not including, `stop`. -/
structure IndexRange where
  start : Nat
  stop : Nat
deriving DecidableEq

namespace IndexRange

def Mem (position : Nat) (r : IndexRange) : Prop := r.start ≤ position ∧ position < r.stop

/-- Add an interval at the end, or merge it into the last one. -/
def push (ranges : List IndexRange) (range : IndexRange) : List IndexRange :=
  match ranges.getLast? with
  | none => [range]
  | some previous =>
    if range.start ≤ previous.stop then
      ranges.dropLast ++ [⟨previous.start, max previous.stop range.stop⟩]
    else ranges ++ [range]

/-- How many of the intervals, which are sorted, start at or before a position. -/
def insertion (ranges : List IndexRange) (position : Nat) : Nat :=
  (ranges.takeWhile fun range => range.start ≤ position).length

/-- Intervals in order, none of which touches the next. -/
def Separated (ranges : List IndexRange) : Prop :=
  (∀ r ∈ ranges, r.start ≤ r.stop) ∧ ranges.Pairwise fun a b => a.stop < b.start

variable {ranges : List IndexRange} {range r : IndexRange} {position : Nat}

/-- A list is empty, or has a last element. -/
theorem push_append_singleton (ranges : List IndexRange) (previous range : IndexRange) :
    push (ranges ++ [previous]) range =
      if range.start ≤ previous.stop then
        ranges ++ [⟨previous.start, max previous.stop range.stop⟩]
      else ranges ++ [previous, range] := by
  simp [push]

theorem separated_append_singleton :
    Separated (ranges ++ [range]) ↔ Separated ranges ∧ range.start ≤ range.stop ∧
      ∀ r ∈ ranges, r.stop < range.start := by
  simp only [Separated, pairwise_append, forall_mem_append, forall_mem_singleton,
    pairwise_singleton, true_and]
  tauto

/-- An interval that starts no earlier than those that are there joins the union. -/
theorem push_spec (h : Separated ranges) (hrange : range.start ≤ range.stop)
    (horder : ∀ r ∈ ranges, r.start ≤ range.start) :
    Separated (push ranges range) ∧ (∀ r ∈ push ranges range, r.start ≤ range.start) ∧
      ∀ position, (∃ r ∈ push ranges range, Mem position r) ↔
        (∃ r ∈ ranges, Mem position r) ∨ Mem position range := by
  rcases ranges.eq_nil_or_concat with rfl | ⟨ranges, previous, hconcat⟩
  · simp [push, Separated, hrange]
  · rw [concat_eq_append] at hconcat
    subst hconcat
    obtain ⟨hsep, hprevious, hbefore⟩ := separated_append_singleton.mp h
    have hstart := horder previous (by simp)
    rw [push_append_singleton]
    split
    · rename_i htouch
      refine ⟨separated_append_singleton.mpr ⟨hsep, ?_, hbefore⟩, ?_, fun position => ?_⟩
      · exact hprevious.trans (le_max_left ..)
      · intro r hr
        rcases mem_append.mp hr with hr | hr
        · exact horder r (by simp [hr])
        · rw [mem_singleton.mp hr]
          exact hstart
      · -- the last interval grows by the new one
        have hunion : Mem position ⟨previous.start, max previous.stop range.stop⟩ ↔
            Mem position previous ∨ Mem position range := by
          simp only [Mem, lt_max_iff]
          omega
        simp only [mem_append, mem_singleton, or_and_right, exists_or, exists_eq_left,
          hunion, or_assoc]
    · rename_i hgap
      have happend : ranges ++ [previous, range] = (ranges ++ [previous]) ++ [range] := by simp
      rw [happend]
      refine ⟨separated_append_singleton.mpr ⟨h, hrange, ?_⟩, ?_, fun position => ?_⟩
      · intro r hr
        rcases mem_append.mp hr with hr | hr
        · have := hbefore r hr
          omega
        · rw [mem_singleton.mp hr]
          exact not_le.mp hgap
      · intro r hr
        rcases mem_append.mp hr with hr | hr
        · exact horder r hr
        · rw [mem_singleton.mp hr]
      · simp only [mem_append, mem_singleton, or_and_right, exists_or, exists_eq_left]

/-- Collecting intervals in the order of their starts. -/
theorem foldl_push_spec {new : List IndexRange} (hnew : ∀ r ∈ new, r.start ≤ r.stop)
    (hsorted : new.Pairwise fun a b => a.start ≤ b.start) :
    Separated (new.foldl push []) ∧
      ∀ position, (∃ r ∈ new.foldl push [], Mem position r) ↔ ∃ r ∈ new, Mem position r := by
  have key : Separated (new.foldl push []) ∧
      (∀ last ∈ new.getLast?, ∀ r ∈ new.foldl push [], r.start ≤ last.start) ∧
      ∀ position, (∃ r ∈ new.foldl push [], Mem position r) ↔ ∃ r ∈ new, Mem position r := by
    induction new using List.reverseRecOn with
    | nil => simp [Separated]
    | append_singleton new last ih =>
      obtain ⟨hsorted, -, hlast⟩ := pairwise_append.mp hsorted
      obtain ⟨hsep, horder, hmem⟩ := ih (fun r hr => hnew r (by simp [hr])) hsorted
      rw [foldl_append]
      have hbefore : ∀ r ∈ new.foldl push [], r.start ≤ last.start := by
        intro r hr
        cases hl : new.getLast? with
        | none =>
          rw [getLast?_eq_none_iff.mp hl] at hr
          cases hr
        | some l =>
          exact (horder l hl r hr).trans (hlast l (mem_of_getLast? hl) last (by simp))
      obtain ⟨hsep', horder', hmem'⟩ := push_spec hsep (hnew last (by simp)) hbefore
      refine ⟨hsep', ?_, fun position => ?_⟩
      · simpa using horder'
      · refine (hmem' position).trans ?_
        simp only [hmem, mem_append, mem_singleton, or_and_right, exists_or, exists_eq_left]
  exact ⟨key.1, key.2.2⟩

/-- Behind the first interval that starts after a position all of them do. -/
theorem lt_start_of_dropWhile (h : Separated ranges) (position : Nat) :
    ∀ r ∈ ranges.dropWhile fun range => range.start ≤ position, position < r.start := by
  induction ranges with
  | nil => simp
  | cons first rest ih =>
    obtain ⟨hle, hpairwise⟩ := h
    obtain ⟨hfirst, hrest⟩ := pairwise_cons.mp hpairwise
    by_cases hstart : first.start ≤ position
    · rw [dropWhile_cons_of_pos (by simpa using hstart)]
      exact ih ⟨fun r hr => hle r (by simp [hr]), hrest⟩
    · rw [dropWhile_cons_of_neg (by simpa using hstart)]
      intro r hr
      rcases mem_cons.mp hr with rfl | hr
      · exact not_le.mp hstart
      · have := hle first (by simp)
        have := hfirst r hr
        omega

/-- Only the last interval that starts at or before a position can have it. -/
theorem mem_iff_insertion (h : Separated ranges) :
    (∃ r ∈ ranges, Mem position r) ↔ insertion ranges position ≠ 0 ∧
      ∃ r, ranges[insertion ranges position - 1]? = some r ∧ position < r.stop := by
  have hafter := lt_start_of_dropWhile h position
  have hbefore : ∀ r ∈ ranges.takeWhile fun range => range.start ≤ position, r.start ≤ position :=
    fun r hr => by simpa using mem_takeWhile_imp hr
  have hsplit := takeWhile_append_dropWhile (p := fun range : IndexRange =>
    decide (range.start ≤ position)) (l := ranges)
  rw [insertion]
  generalize ranges.takeWhile (fun range => decide (range.start ≤ position)) = early at *
  generalize ranges.dropWhile (fun range => decide (range.start ≤ position)) = late at *
  subst hsplit
  cases early using List.reverseRecOn with
  | nil =>
    simp only [nil_append, length_nil, ne_eq, not_true_eq_false, false_and, iff_false]
    rintro ⟨r, hr, hstart, -⟩
    have := hafter r hr
    omega
  | append_singleton early last =>
    have hget : (early ++ [last] ++ late)[(early ++ [last]).length - 1]? = some last := by simp
    rw [hget]
    simp only [length_append, length_singleton, ne_eq, Nat.add_eq_zero_iff, Nat.one_ne_zero,
      and_false, not_false_eq_true, true_and, Option.some.injEq, exists_eq_left']
    constructor
    · rintro ⟨r, hr, hstart, hstop⟩
      rcases mem_append.mp hr with hr | hr
      · rcases mem_append.mp hr with hr | hr
        · -- an earlier interval ends before the last one starts
          have hsep := (pairwise_append.mp (pairwise_append.mp h.2).1).2.2 r hr last (by simp)
          have := hbefore last (by simp)
          omega
        · rwa [← mem_singleton.mp hr]
      · have := hafter r hr
        omega
    · exact fun hstop => ⟨last, by simp, hbefore last (by simp), hstop⟩

end IndexRange

end ItemDependencies.Library
