import ItemDependencies.Library.RangeTree

/-!
# Maxima of ranges

A complete binary tree over a list of numbers, stored level by level: the node
at a position has its children at twice the position and the next one, and
holds their maximum.  It answers in logarithmic time what the maximum of a range
of the list is, and where the last number of a range is that reaches a bound.
-/

namespace ItemDependencies.Library

open List

/-- The maximum of its children is stored at a node. -/
def storeMaximum (index : Nat) (maxima : List Nat) : List Nat :=
  maxima.set index (max (maxima[2 * index]?.getD 0) (maxima[2 * index + 1]?.getD 0))

/-- The leaves of the tree, on its last level. -/
def leafLevel (leafCount : Nat) (leaves : List Nat) : List Nat :=
  List.replicate leafCount 0 ++ leaves ++ List.replicate (leafCount - leaves.length) 0

/-- All levels, from the last inner node to the root. -/
def buildMaxima (leafCount : Nat) (leaves : List Nat) : List Nat :=
  (List.range' 1 (leafCount - 1)).foldr storeMaximum (leafLevel leafCount leaves)

/-- The nodes that cover a range, level by level from below: where the range starts or stops
inside a pair of siblings, the sibling that belongs to it is taken. -/
def maximumLoop (maxima : List Nat) : Nat → Nat → Nat → Nat → Nat
  | 0, _, _, maximum => maximum
  | fuel + 1, start, stop, maximum =>
    if start < stop then
      let maximum := if start % 2 = 1 then max maximum (maxima[start]?.getD 0) else maximum
      let start := if start % 2 = 1 then start + 1 else start
      let maximum := if stop % 2 = 1 then max maximum (maxima[stop - 1]?.getD 0) else maximum
      let stop := if stop % 2 = 1 then stop - 1 else stop
      maximumLoop maxima fuel (start / 2) (stop / 2) maximum
    else maximum

/-- The last position in a query below a node whose leaf reaches the bound. -/
def rightmostInNode (maxima : List Nat) (count queryStart queryStop minimum : Nat) :
    Nat → Nat → Nat → Nat → Option Nat
  | 0, _, _, _ => none
  | fuel + 1, node, nodeStart, nodeStop =>
    if nodeStop ≤ queryStart ∨ queryStop ≤ nodeStart ∨ maxima[node]?.getD 0 < minimum then none
    else if nodeStop - nodeStart = 1 then
      if nodeStart < count then some nodeStart else none
    else
      let middle := nodeStart + (nodeStop - nodeStart) / 2
      (rightmostInNode maxima count queryStart queryStop minimum fuel (node * 2 + 1) middle
        nodeStop).or
        (rightmostInNode maxima count queryStart queryStop minimum fuel (node * 2) nodeStart middle)

/-! ## The tree -/

/-- The leaves and the inner nodes from a position on. -/
structure MaximaFrom (leafCount : Nat) (leaves : List Nat) (m : Nat) (maxima : List Nat) :
    Prop where
  length : maxima.length = 2 * leafCount
  leaf : ∀ j < leafCount, maxima[leafCount + j]?.getD 0 = leaves[j]?.getD 0
  inner : ∀ i, m ≤ i → i < leafCount →
    maxima[i]?.getD 0 = max (maxima[2 * i]?.getD 0) (maxima[2 * i + 1]?.getD 0)

section Tree

variable {leafCount m : Nat} {leaves maxima : List Nat}

theorem leafLevel_maxima (hle : leaves.length ≤ leafCount) :
    MaximaFrom leafCount leaves leafCount (leafLevel leafCount leaves) where
  length := by
    simp [leafLevel]
    omega
  leaf j hj := by
    rw [leafLevel, append_assoc, getElem?_append_right (by simp), length_replicate,
      Nat.add_sub_cancel_left]
    rcases lt_or_ge j leaves.length with hlt | hge
    · rw [getElem?_append_left hlt]
    · rw [getElem?_append_right hge, getElem?_eq_none hge, getElem?_replicate]
      split <;> rfl
  inner i hi hlt := absurd hi (by omega)

theorem MaximaFrom.store (h : MaximaFrom leafCount leaves (m + 1) maxima) (hpos : 0 < m)
    (hm : m < leafCount) : MaximaFrom leafCount leaves m (storeMaximum m maxima) := by
  have hset : ∀ {i : Nat}, i ≠ m → (storeMaximum m maxima)[i]? = maxima[i]? := fun hi =>
    getElem?_set_ne hi.symm
  refine ⟨by rw [storeMaximum, length_set, h.length], fun j hj => ?_, fun i hi hlt => ?_⟩
  · rw [hset (by omega : leafCount + j ≠ m)]
    exact h.leaf j hj
  · rw [hset (i := 2 * i) (by omega), hset (i := 2 * i + 1) (by omega)]
    rcases hi.eq_or_lt with rfl | hi
    · rw [storeMaximum, getElem?_set_self (by rw [h.length]; omega), Option.getD_some]
    · rw [hset hi.ne']
      exact h.inner i hi hlt

theorem buildMaxima_maxima (hpos : 0 < leafCount) (hle : leaves.length ≤ leafCount) :
    MaximaFrom leafCount leaves 1 (buildMaxima leafCount leaves) := by
  have key : ∀ n m, 0 < m → m + n = leafCount →
      MaximaFrom leafCount leaves m
        ((List.range' m n).foldr storeMaximum (leafLevel leafCount leaves)) := by
    intro n
    induction n with
    | zero =>
      intro m _ hm
      obtain rfl : m = leafCount := by omega
      exact leafLevel_maxima hle
    | succ n ih =>
      intro m hm hn
      rw [range'_succ, foldr_cons]
      exact (ih (m + 1) (by omega) (by omega)).store hm (by omega)
  exact key (leafCount - 1) 1 Nat.one_pos (by omega)

end Tree

/-! ## Queries -/

/-- The last position of a kind, if there is one. -/
def IsLast (P : Nat → Prop) : Option Nat → Prop
  | none => ∀ i, ¬P i
  | some i => P i ∧ ∀ j, i < j → ¬P j

theorem IsLast.eq_some_iff {P : Nat → Prop} {last : Option Nat} (h : IsLast P last) {i : Nat} :
    last = some i ↔ P i ∧ ∀ j, i < j → ¬P j := by
  cases last with
  | none => exact ⟨fun h => (by cases h), fun hi => absurd hi.1 (h i)⟩
  | some j =>
    rw [Option.some.injEq]
    constructor
    · rintro rfl
      exact h
    · rintro ⟨hi, hlast⟩
      rcases lt_trichotomy j i with hlt | heq | hlt
      · exact absurd hi (h.2 i hlt)
      · exact heq
      · exact absurd h.1 (hlast j hlt)

theorem IsLast.eq_none_iff {P : Nat → Prop} {last : Option Nat} (h : IsLast P last) :
    last = none ↔ ∀ i, ¬P i := by
  cases last with
  | none => exact ⟨fun _ => h, fun _ => rfl⟩
  | some j => exact ⟨fun h => (by cases h), fun hno => absurd h.1 (hno j)⟩

theorem IsLast.congr {P Q : Nat → Prop} {last : Option Nat} (h : IsLast P last)
    (hPQ : ∀ i, P i ↔ Q i) : IsLast Q last := by
  rwa [show Q = P from funext fun i => propext (hPQ i).symm]

/-- The last position is the one in the right part, or else the one in the left part. -/
theorem IsLast.or {P left right : Nat → Prop} {l r : Option Nat} (hr : IsLast right r)
    (hl : IsLast left l) (hP : ∀ i, P i ↔ left i ∨ right i)
    (hlt : ∀ i j, left i → right j → i < j) : IsLast P (r.or l) := by
  cases r with
  | none =>
    have hleft : ∀ i, P i ↔ left i := fun i => (hP i).trans (or_iff_left (hr i))
    cases l with
    | none => exact fun i hi => hl i ((hleft i).mp hi)
    | some i => exact ⟨(hleft i).mpr hl.1, fun j hj hPj => hl.2 j hj ((hleft j).mp hPj)⟩
  | some i =>
    refine ⟨(hP i).mpr (.inr hr.1), fun j hj hPj => ?_⟩
    rcases (hP j).mp hPj with hleft | hright
    · exact absurd (hlt j i hleft hr.1) hj.asymm
    · exact hr.2 j hj hright

section Queries

variable {k : Nat} {leaves maxima : List Nat} (h : MaximaFrom (2 ^ k) leaves 1 maxima)

include h in
/-- A node exceeds the bounds that one of its leaves exceeds. -/
theorem MaximaFrom.carries : Carries k (fun j bound => bound < leaves[j]?.getD 0)
    (fun i bound => bound < maxima[i]?.getD 0) where
  leaf j hj bound := by rw [h.leaf j hj]
  inner i hpos hlt bound := by rw [h.inner i hpos hlt, lt_max_iff]

include h in
/-- A node on some level bounds exactly the leaves below it. -/
theorem MaximaFrom.node_le_iff (l node lo : Nat) (hnode : node * 2 ^ l = 2 ^ k + lo)
    (hlo : lo + 2 ^ l ≤ 2 ^ k) (bound : Nat) :
    maxima[node]?.getD 0 ≤ bound ↔ ∀ i, lo ≤ i → i < lo + 2 ^ l → leaves[i]?.getD 0 ≤ bound := by
  rw [← not_lt, h.carries.node_iff l node lo hnode hlo bound]
  simp only [not_exists, not_and, not_lt]

/-- The loop takes the maximum of the nodes that cover the range. -/
theorem maximumLoop_le_iff {fuel : Nat} (start stop maximum bound : Nat) :
    maximumLoop maxima fuel start stop maximum ≤ bound ↔ maximum ≤ bound ∧
      ∀ i ∈ coverNodes fuel start stop, maxima[i]?.getD 0 ≤ bound := by
  induction fuel generalizing start stop maximum with
  | zero => simp [maximumLoop, coverNodes]
  | succ fuel ih =>
    rw [maximumLoop, coverNodes]
    split
    · dsimp only
      have hhalf : (if start % 2 = 1 then start + 1 else start) / 2 = (start + 1) / 2 := by
        split <;> omega
      have hhalf' : (if stop % 2 = 1 then stop - 1 else stop) / 2 = stop / 2 := by
        split <;> omega
      rw [ih, hhalf, hhalf', forall_mem_append, forall_mem_append, ← and_assoc, ← and_assoc]
      refine and_congr_left fun _ => ?_
      split <;> split <;> simp [and_assoc]
    · simp

include h in
/-- The loop over a range of leaves bounds exactly these leaves. -/
theorem MaximaFrom.maximumLoop_le_iff (start : Nat) {stop fuel : Nat} (hstop : stop ≤ 2 ^ k)
    (hfuel : stop + 2 ^ k ≤ fuel) (bound : Nat) :
    maximumLoop maxima fuel (start + 2 ^ k) (stop + 2 ^ k) 0 ≤ bound ↔
      ∀ i, start ≤ i → i < stop → leaves[i]?.getD 0 ≤ bound := by
  have hcover := h.carries.cover_iff start hstop hfuel bound
  rw [Library.maximumLoop_le_iff, and_iff_right (Nat.zero_le _), ← not_iff_not]
  push Not
  exact hcover

/-- A position in the query and below the node whose leaf reaches the bound. -/
def Reaches (leaves : List Nat) (queryStart queryStop minimum lo hi i : Nat) : Prop :=
  (lo ≤ i ∧ i < hi) ∧ (queryStart ≤ i ∧ i < queryStop) ∧ minimum ≤ leaves[i]?.getD 0

include h in
/-- The search below a node finds the last leaf of the query that reaches the bound. -/
theorem MaximaFrom.rightmostInNode_isLast {count queryStop : Nat} (queryStart minimum : Nat)
    (hquery : queryStop ≤ count) (l node lo : Nat) {fuel : Nat} (hfuel : l < fuel)
    (hnode : node * 2 ^ l = 2 ^ k + lo) (hlo : lo + 2 ^ l ≤ 2 ^ k) :
    IsLast (Reaches leaves queryStart queryStop minimum lo (lo + 2 ^ l))
      (rightmostInNode maxima count queryStart queryStop minimum fuel node lo (lo + 2 ^ l)) := by
  induction fuel generalizing l node lo with
  | zero => exact absurd hfuel (Nat.not_lt_zero _)
  | succ fuel ih =>
    have hpow : 0 < 2 ^ l := Nat.two_pow_pos l
    rw [rightmostInNode]
    split
    case isTrue hout =>
      rintro i ⟨hi, hiquery, hreach⟩
      rcases hout with hout | hout | hout
      · omega
      · omega
      · have hle : maxima[node]?.getD 0 ≤ minimum - 1 := by omega
        have := (h.node_le_iff l node lo hnode hlo (minimum - 1)).mp hle i hi.1 hi.2
        omega
    case isFalse hin =>
      push Not at hin
      obtain ⟨hstart, hstop, hmax⟩ := hin
      cases l with
      | zero =>
        rw [Nat.pow_zero, Nat.mul_one] at hnode
        rw [Nat.pow_zero] at hlo hstart ⊢
        rw [if_pos (by omega), if_pos (by omega)]
        rw [hnode, h.leaf lo (by omega)] at hmax
        exact ⟨⟨by omega, by omega, hmax⟩, fun j hj hreach => absurd hreach.1.2 (by omega)⟩
      | succ l =>
        rw [Nat.pow_succ] at hnode hlo ⊢
        have hpow' : 0 < 2 ^ l := Nat.two_pow_pos l
        have hmiddle : lo + (lo + 2 ^ l * 2 - lo) / 2 = lo + 2 ^ l := by omega
        have hstop' : lo + 2 ^ l * 2 = lo + 2 ^ l + 2 ^ l := by omega
        rw [if_neg (by omega)]
        dsimp only
        rw [hmiddle]
        have hleft : node * 2 * 2 ^ l = 2 ^ k + lo := by
          rw [← hnode]
          ring
        have hright : (node * 2 + 1) * 2 ^ l = 2 ^ k + (lo + 2 ^ l) := by
          rw [Nat.add_mul, hleft]
          ring
        have hlast := ih _ _ _ (by omega) hright (by omega)
        rw [← hstop'] at hlast
        refine hlast.or (ih _ _ _ (by omega) hleft (by omega)) (fun i => ?_) fun i j hi hj => ?_
        · unfold Reaches
          omega
        · unfold Reaches at hi hj
          omega

end Queries

end ItemDependencies.Library
