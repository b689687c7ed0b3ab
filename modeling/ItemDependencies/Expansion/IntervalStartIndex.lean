import ItemDependencies.Expansion.OutputClasses
import ItemDependencies.Library.MaximumTree

/-!
# Intervals by their starts

Intervals in the order of their starts, with a tree of the maxima of their ends.
It finds the last of the intervals that start up to a position and end no
earlier than another one.
-/

namespace ItemDependencies

open Library List Option

universe u

structure IndexedInterval (α : Type u) where
  start : Nat
  stop : Nat
  value : α
deriving DecidableEq

/-- The intervals are not empty and in order, and the maxima are those of their ends. -/
structure IntervalStartIndex (α : Type u) where
  intervals : List (IndexedInterval α)
  leafCount : Nat
  maximumEnds : List Nat
  sorted : intervals.Pairwise fun a b => a.start ≤ b.start
  nonempty : ∀ interval ∈ intervals, interval.start < interval.stop
  leafCount_eq : ∃ k, leafCount = 2 ^ k ∧ intervals.length ≤ 2 ^ k
  maximumEnds_eq : maximumEnds = buildMaxima leafCount (intervals.map IndexedInterval.stop)

/-- Intervals that may be indexed. -/
def StartOrdered {α : Type u} (intervals : List (IndexedInterval α)) : Prop :=
  (intervals.IsChain fun a b => a.start ≤ b.start) ∧
    ∀ interval ∈ intervals, interval.start < interval.stop

instance {α : Type u} (intervals : List (IndexedInterval α)) : Decidable (StartOrdered intervals) :=
  inferInstanceAs (Decidable (_ ∧ _))

namespace IntervalStartIndex

variable {α : Type u}

theorem pairwise_of_chain {intervals : List (IndexedInterval α)}
    (h : intervals.IsChain fun a b => a.start ≤ b.start) :
    intervals.Pairwise fun a b => a.start ≤ b.start := by
  have htrans : Trans (fun a b : IndexedInterval α => a.start ≤ b.start)
      (fun a b : IndexedInterval α => a.start ≤ b.start)
      (fun a b : IndexedInterval α => a.start ≤ b.start) := ⟨Nat.le_trans⟩
  exact isChain_iff_pairwise.mp h

def fromStartOrdered (intervals : List (IndexedInterval α)) :
    Except ExpansionError (IntervalStartIndex α) :=
  if h : StartOrdered intervals then
    .ok {
      intervals := intervals
      leafCount := nextPowerOfTwo intervals.length
      maximumEnds := buildMaxima (nextPowerOfTwo intervals.length)
        (intervals.map IndexedInterval.stop)
      sorted := pairwise_of_chain h.1
      nonempty := h.2
      leafCount_eq := nextPowerOfTwo_spec _
      maximumEnds_eq := rfl }
  else .error .incompleteOrigin

variable (index : IntervalStartIndex α)

def lowerBoundStart (start : Nat) : Nat :=
  (index.intervals.takeWhile fun interval => interval.start < start).length

def upperBoundStart (start : Nat) : Nat :=
  (index.intervals.takeWhile fun interval => interval.start ≤ start).length

def maximumEnd (start stop : Nat) : Option Nat :=
  if stop ≤ start ∨ index.intervals.length < stop then none
  else some (maximumLoop index.maximumEnds (stop + index.leafCount) (start + index.leafCount)
    (stop + index.leafCount) 0)

def rightmostWithEndAtLeast (start stop minimumEnd : Nat) : Option Nat :=
  if stop ≤ start ∨ index.intervals.length < stop then none
  else rightmostInNode index.maximumEnds index.intervals.length start stop minimumEnd
    index.leafCount 1 0 index.leafCount

def innermostContainer (start stop : Nat) : Option α :=
  if stop ≤ start then none
  else (index.rightmostWithEndAtLeast 0 (index.upperBoundStart start) stop).bind fun found =>
    index.intervals[found]?.map IndexedInterval.value

/-! ## What the queries find -/

variable {index} {start stop : Nat} {intervals : List (IndexedInterval α)}

theorem fromStartOrdered_ok (h : fromStartOrdered intervals = .ok index) :
    index.intervals = intervals ∧ StartOrdered intervals := by
  unfold fromStartOrdered at h
  split at h
  case isTrue hordered =>
    cases h
    exact ⟨rfl, hordered⟩
  case isFalse => cases h

theorem fromStartOrdered_total (h : StartOrdered intervals) :
    ∃ index : IntervalStartIndex α, fromStartOrdered intervals = .ok index := by
  rw [fromStartOrdered, dif_pos h]
  exact ⟨_, rfl⟩

theorem maxima (index : IntervalStartIndex α) : ∃ k, index.leafCount = 2 ^ k ∧
    MaximaFrom (2 ^ k) (index.intervals.map IndexedInterval.stop) 1 index.maximumEnds := by
  obtain ⟨k, hk, hle⟩ := index.leafCount_eq
  refine ⟨k, hk, ?_⟩
  rw [index.maximumEnds_eq, hk]
  exact buildMaxima_maxima (Nat.two_pow_pos k) (by rwa [length_map])

theorem length_le_leafCount (index : IntervalStartIndex α) :
    index.intervals.length ≤ index.leafCount := by
  obtain ⟨k, hk, hle⟩ := index.leafCount_eq
  rwa [hk]

theorem getD_stop {i : Nat} (hi : i < index.intervals.length) :
    (index.intervals.map IndexedInterval.stop)[i]?.getD 0 = index.intervals[i].stop := by
  rw [getElem?_map, getElem?_eq_getElem hi, map_some, getD_some]

/-- Some end in a range of positions is beyond a bound. -/
theorem maximumEnd_any (hstop : stop ≤ index.intervals.length) (bound : Nat) :
    (index.maximumEnd start stop).any (bound < ·) = true ↔
      ∃ i interval, start ≤ i ∧ i < stop ∧ index.intervals[i]? = some interval ∧
        bound < interval.stop := by
  obtain ⟨k, hk, hmaxima⟩ := index.maxima
  have hle := index.length_le_leafCount
  rw [maximumEnd]
  split
  case isTrue hempty =>
    refine ⟨fun h => (by cases h), ?_⟩
    rintro ⟨i, interval, hi, hi', -⟩
    omega
  case isFalse hlt =>
    have hloop := hmaxima.maximumLoop_le_iff start (hk ▸ hstop.trans hle) le_rfl bound
    rw [any_some, decide_eq_true_eq, ← not_le, hk, hloop]
    push Not
    constructor
    · rintro ⟨i, hi, hi', hbound⟩
      rw [getD_stop (by omega)] at hbound
      exact ⟨i, _, hi, hi', getElem?_eq_getElem (by omega), hbound⟩
    · rintro ⟨i, interval, hi, hi', hget, hbound⟩
      refine ⟨i, hi, hi', ?_⟩
      rwa [getElem?_map, hget, map_some, getD_some]

theorem rightmostWithEndAtLeast_isLast (hstop : stop ≤ index.intervals.length) (minimumEnd : Nat) :
    IsLast (fun i => start ≤ i ∧ i < stop ∧ ∃ interval, index.intervals[i]? = some interval ∧
      minimumEnd ≤ interval.stop) (index.rightmostWithEndAtLeast start stop minimumEnd) := by
  obtain ⟨k, hk, hmaxima⟩ := index.maxima
  have hle := index.length_le_leafCount
  rw [rightmostWithEndAtLeast]
  split
  case isTrue hempty =>
    rintro i ⟨hi, hi', -⟩
    omega
  case isFalse hlt =>
    have hfuel : k < index.leafCount := by
      rw [hk]
      exact Nat.lt_two_pow_self
    have hlast := hmaxima.rightmostInNode_isLast start minimumEnd hstop k 1 0 hfuel (by omega)
      (by omega)
    rw [Nat.zero_add, ← hk] at hlast
    refine hlast.congr fun i => ?_
    unfold Reaches
    constructor
    · rintro ⟨-, ⟨hi, hi'⟩, hreach⟩
      rw [getD_stop (by omega)] at hreach
      exact ⟨hi, hi', _, getElem?_eq_getElem (by omega), hreach⟩
    · rintro ⟨hi, hi', interval, hget, hreach⟩
      refine ⟨by omega, ⟨hi, hi'⟩, ?_⟩
      rwa [getElem?_map, hget, map_some, getD_some]

theorem lowerBoundStart_le : index.lowerBoundStart start ≤ index.intervals.length :=
  (List.takeWhile_prefix _).length_le

theorem upperBoundStart_le : index.upperBoundStart start ≤ index.intervals.length :=
  (List.takeWhile_prefix _).length_le

theorem lt_lowerBoundStart_iff (start : Nat) {i : Nat} {interval : IndexedInterval α}
    (hget : index.intervals[i]? = some interval) :
    i < index.lowerBoundStart start ↔ interval.start < start := by
  have hpartitioned : Partitioned (fun interval => decide (interval.start < start))
      index.intervals := index.sorted.imp fun h hb => by
    rw [decide_eq_true_eq] at hb ⊢
    omega
  rw [lowerBoundStart, lt_length_takeWhile_iff hpartitioned hget, decide_eq_true_eq]

theorem lt_upperBoundStart_iff {i : Nat} {interval : IndexedInterval α}
    (hget : index.intervals[i]? = some interval) :
    i < index.upperBoundStart start ↔ interval.start ≤ start := by
  have hpartitioned : Partitioned (fun interval => decide (interval.start ≤ start))
      index.intervals := index.sorted.imp fun h hb => by
    rw [decide_eq_true_eq] at hb ⊢
    omega
  rw [upperBoundStart, lt_length_takeWhile_iff hpartitioned hget, decide_eq_true_eq]

/-- The last interval that starts up to a position and ends no earlier than another one. -/
theorem rightmost_isLast (minimumEnd : Nat) :
    IsLast (fun i => ∃ interval, index.intervals[i]? = some interval ∧ interval.start ≤ start ∧
      minimumEnd ≤ interval.stop)
      (index.rightmostWithEndAtLeast 0 (index.upperBoundStart start) minimumEnd) := by
  refine (rightmostWithEndAtLeast_isLast upperBoundStart_le minimumEnd).congr fun i => ?_
  constructor
  · rintro ⟨-, hi, interval, hget, hreach⟩
    exact ⟨interval, hget, (lt_upperBoundStart_iff hget).mp hi, hreach⟩
  · rintro ⟨interval, hget, hstart, hreach⟩
    exact ⟨Nat.zero_le _, (lt_upperBoundStart_iff hget).mpr hstart, interval, hget, hreach⟩

end IntervalStartIndex

end ItemDependencies
