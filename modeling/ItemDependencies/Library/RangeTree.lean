import Mathlib.Tactic.Ring

/-!
# Trees over ranges

A complete binary tree is stored level by level: the node at a position has its children at twice
the position and the next one, and the leaves are the last level.  A node carries what its children
carry.  Few nodes cover a range of leaves, and they carry just what these leaves do.
-/

namespace ItemDependencies.Library

open List

universe u v

/-- The first power of two from the given one that reaches the bound. -/
def doubleUntil (bound : Nat) : Nat → Nat → Nat
  | 0, power => power
  | fuel + 1, power => if power < bound then doubleUntil bound fuel (2 * power) else power

def nextPowerOfTwo (bound : Nat) : Nat := doubleUntil bound bound 1

variable {γ : Type u}

/-- The leaves carry what they are given, every inner node what its children carry. -/
structure Carries (k : Nat) (leaf node : Nat → γ → Prop) : Prop where
  leaf : ∀ j < 2 ^ k, ∀ x, node (2 ^ k + j) x ↔ leaf j x
  inner : ∀ i, 1 ≤ i → i < 2 ^ k → ∀ x, node i x ↔ node (2 * i) x ∨ node (2 * i + 1) x

/-- The nodes that cover a range, level by level from below: where the range starts or stops
inside a pair of siblings, the sibling that belongs to it is taken. -/
def coverNodes : Nat → Nat → Nat → List Nat
  | 0, _, _ => []
  | fuel + 1, start, stop =>
    if start < stop then
      (if start % 2 = 1 then [start] else []) ++ (if stop % 2 = 1 then [stop - 1] else []) ++
        coverNodes fuel ((start + 1) / 2) (stop / 2)
    else []

/-! ## Powers of two -/

theorem doubleUntil_spec {bound fuel : Nat} (power : Nat) (hpos : 0 < power)
    (hfuel : bound ≤ power + fuel) :
    ∃ k, doubleUntil bound fuel power = 2 ^ k * power ∧ bound ≤ 2 ^ k * power := by
  induction fuel generalizing power with
  | zero => exact ⟨0, by simp [doubleUntil], by simpa using hfuel⟩
  | succ fuel ih =>
    rw [doubleUntil]
    split
    · obtain ⟨k, hk, hle⟩ := ih (2 * power) (by omega) (by omega)
      have hpow : 2 ^ (k + 1) * power = 2 ^ k * (2 * power) := by ring
      exact ⟨k + 1, hk.trans hpow.symm, hpow ▸ hle⟩
    · exact ⟨0, by simp, by omega⟩

theorem nextPowerOfTwo_spec (bound : Nat) : ∃ k, nextPowerOfTwo bound = 2 ^ k ∧ bound ≤ 2 ^ k := by
  obtain ⟨k, hk, hle⟩ := doubleUntil_spec 1 Nat.one_pos (Nat.le_add_left bound 1)
  rw [Nat.mul_one] at hk hle
  exact ⟨k, hk, hle⟩

theorem doubleUntil_le {bound fuel : Nat} (power : Nat) :
    doubleUntil bound fuel power ≤ max power (2 * bound) := by
  induction fuel generalizing power with
  | zero => exact le_max_left _ _
  | succ fuel ih =>
    rw [doubleUntil]
    split
    · exact (ih _).trans (by omega)
    · exact le_max_left _ _

/-- The next power of two is not far. -/
theorem nextPowerOfTwo_le (bound : Nat) : nextPowerOfTwo bound ≤ max 1 (2 * bound) :=
  doubleUntil_le 1

/-! ## Nodes and their leaves -/

variable {k : Nat} {leaf node : Nat → γ → Prop}

/-- A node on some level carries what the leaves below it carry. -/
theorem Carries.node_iff (h : Carries k leaf node) (l i lo : Nat) (hi : i * 2 ^ l = 2 ^ k + lo)
    (hlo : lo + 2 ^ l ≤ 2 ^ k) (x : γ) :
    node i x ↔ ∃ j, lo ≤ j ∧ j < lo + 2 ^ l ∧ leaf j x := by
  induction l generalizing i lo with
  | zero =>
    rw [Nat.pow_zero, Nat.mul_one] at hi
    rw [Nat.pow_zero] at hlo
    rw [hi, h.leaf lo (by omega), Nat.pow_zero]
    constructor
    · exact fun hx => ⟨lo, le_rfl, by omega, hx⟩
    · rintro ⟨j, hj, hj', hx⟩
      obtain rfl : j = lo := by omega
      exact hx
  | succ l ih =>
    rw [Nat.pow_succ] at hi hlo
    have hpow : 0 < 2 ^ l := Nat.two_pow_pos l
    have hleft : 2 * i * 2 ^ l = 2 ^ k + lo := by
      rw [← hi]
      ring
    have hright : (2 * i + 1) * 2 ^ l = 2 ^ k + (lo + 2 ^ l) := by
      rw [Nat.add_mul, hleft]
      ring
    have hpos : 1 ≤ i := by
      rcases Nat.eq_zero_or_pos i with rfl | hpos
      · rw [Nat.zero_mul] at hi
        have := Nat.two_pow_pos k
        omega
      · exact hpos
    have hlt : i < 2 ^ k := by
      by_contra hge
      have hmul : 2 ^ k * (2 ^ l * 2) ≤ i * (2 ^ l * 2) := Nat.mul_le_mul_right _ (by omega)
      have htwo : 2 ^ k * 2 ≤ 2 ^ k * (2 ^ l * 2) := Nat.mul_le_mul_left _ (by omega)
      omega
    rw [h.inner i hpos hlt, ih _ _ hleft (by omega), ih _ _ hright (by omega), Nat.pow_succ]
    constructor
    · rintro (⟨j, hj, hj', hx⟩ | ⟨j, hj, hj', hx⟩)
      · exact ⟨j, hj, by omega, hx⟩
      · exact ⟨j, by omega, by omega, hx⟩
    · rintro ⟨j, hj, hj', hx⟩
      rcases lt_or_ge j (lo + 2 ^ l) with hlt | hge
      · exact .inl ⟨j, hj, hlt, hx⟩
      · exact .inr ⟨j, hge, by omega, hx⟩

/-- The nodes of a cover, on the level of the range or above, lie within the range. -/
theorem exists_level_of_mem_coverNodes {fuel : Nat} (l start stop : Nat) {i : Nat}
    (hi : i ∈ coverNodes fuel start stop) :
    ∃ m, start * 2 ^ l ≤ i * 2 ^ m ∧ (i + 1) * 2 ^ m ≤ stop * 2 ^ l := by
  induction fuel generalizing l start stop with
  | zero => cases hi
  | succ fuel ih =>
    rw [coverNodes] at hi
    split at hi
    · rename_i hlt
      rcases mem_append.mp hi with hi | hi
      · rcases mem_append.mp hi with hi | hi
        · split at hi
          · cases mem_singleton.mp hi
            exact ⟨l, le_rfl, Nat.mul_le_mul_right _ hlt⟩
          · cases hi
        · split at hi
          · cases mem_singleton.mp hi
            exact ⟨l, Nat.mul_le_mul_right _ (by omega), Nat.mul_le_mul_right _ (by omega)⟩
          · cases hi
      · obtain ⟨m, hfirst, hlast⟩ := ih (l + 1) _ _ hi
        have hup : ∀ n : Nat, n * 2 ^ (l + 1) = 2 * n * 2 ^ l := fun n => by ring
        rw [hup] at hfirst hlast
        refine ⟨m, le_trans ?_ hfirst, le_trans hlast ?_⟩
        · exact Nat.mul_le_mul_right _ (by omega)
        · exact Nat.mul_le_mul_right _ (by omega)
    · cases hi

/-- Every position of the range is below a node of the cover. -/
theorem exists_mem_coverNodes {fuel : Nat} (l start stop : Nat) (hfuel : stop ≤ fuel) {p : Nat}
    (hstart : start * 2 ^ l ≤ p) (hstop : p < stop * 2 ^ l) :
    ∃ i ∈ coverNodes fuel start stop, ∃ m, start * 2 ^ l ≤ i * 2 ^ m ∧
      (i + 1) * 2 ^ m ≤ stop * 2 ^ l ∧ i * 2 ^ m ≤ p ∧ p < (i + 1) * 2 ^ m := by
  induction fuel generalizing l start stop with
  | zero =>
    obtain rfl := Nat.le_zero.mp hfuel
    rw [Nat.zero_mul] at hstop
    exact absurd hstop (Nat.not_lt_zero _)
  | succ fuel ih =>
    have hlt : start < stop := by
      by_contra hge
      have := Nat.mul_le_mul_right (2 ^ l) (not_lt.mp hge)
      omega
    rw [coverNodes, if_pos hlt]
    have hnext : (start + 1) * 2 ^ l = start * 2 ^ l + 2 ^ l := by ring
    rcases lt_or_ge p ((start + 1) / 2 * 2 ^ (l + 1)) with hlow | hlow
    · -- the position is below the first node, which is a second sibling
      have hodd : start % 2 = 1 := by
        by_contra heven
        have hhalf : (start + 1) / 2 * 2 ^ (l + 1) = start * 2 ^ l := by
          have hdouble : start = 2 * ((start + 1) / 2) := by omega
          calc (start + 1) / 2 * 2 ^ (l + 1) = 2 * ((start + 1) / 2) * 2 ^ l := by ring
            _ = start * 2 ^ l := by rw [← hdouble]
        omega
      refine ⟨start, by simp [hodd], l, le_rfl, Nat.mul_le_mul_right _ hlt, hstart, ?_⟩
      have hdouble : start + 1 = 2 * ((start + 1) / 2) := by omega
      calc p < (start + 1) / 2 * 2 ^ (l + 1) := hlow
        _ = 2 * ((start + 1) / 2) * 2 ^ l := by ring
        _ = (start + 1) * 2 ^ l := by rw [← hdouble]
    · rcases lt_or_ge p (stop / 2 * 2 ^ (l + 1)) with hhigh | hhigh
      · obtain ⟨i, hi, m, hfirst, hlast, hin⟩ := ih (l + 1) _ _ (by omega) hlow hhigh
        have hup : ∀ n : Nat, n * 2 ^ (l + 1) = 2 * n * 2 ^ l := fun n => by ring
        rw [hup] at hfirst hlast
        refine ⟨i, mem_append_right _ hi, m, le_trans ?_ hfirst, le_trans hlast ?_, hin⟩
        · exact Nat.mul_le_mul_right _ (by omega)
        · exact Nat.mul_le_mul_right _ (by omega)
      · -- the position is below the last node, which is a first sibling
        have hodd : stop % 2 = 1 := by
          by_contra heven
          have hhalf : stop / 2 * 2 ^ (l + 1) = stop * 2 ^ l := by
            have hdouble : stop = 2 * (stop / 2) := by omega
            calc stop / 2 * 2 ^ (l + 1) = 2 * (stop / 2) * 2 ^ l := by ring
              _ = stop * 2 ^ l := by rw [← hdouble]
          omega
        refine ⟨stop - 1, by simp [hodd], l, Nat.mul_le_mul_right _ (by omega),
          Nat.mul_le_mul_right _ (by omega), ?_, ?_⟩
        · have hdouble : stop - 1 = 2 * (stop / 2) := by omega
          calc (stop - 1) * 2 ^ l = 2 * (stop / 2) * 2 ^ l := by rw [← hdouble]
            _ = stop / 2 * 2 ^ (l + 1) := by ring
            _ ≤ p := hhigh
        · have hsucc : stop - 1 + 1 = stop := by omega
          rwa [hsucc]

/-- A node within a range of leaves carries what the leaves below it carry. -/
theorem Carries.within_iff (h : Carries k leaf node) {start stop i m : Nat} (hstop : stop ≤ 2 ^ k)
    (hlo : start + 2 ^ k ≤ i * 2 ^ m) (hhi : (i + 1) * 2 ^ m ≤ stop + 2 ^ k) (x : γ) :
    node i x ↔ ∃ j, 2 ^ k + j < (i + 1) * 2 ^ m ∧ i * 2 ^ m ≤ 2 ^ k + j ∧ leaf j x := by
  have hsucc : (i + 1) * 2 ^ m = i * 2 ^ m + 2 ^ m := by ring
  rw [h.node_iff m i (i * 2 ^ m - 2 ^ k) (by omega) (by omega)]
  refine exists_congr fun j => ?_
  constructor
  · rintro ⟨hj, hj', hx⟩
    exact ⟨by omega, by omega, hx⟩
  · rintro ⟨hj, hj', hx⟩
    exact ⟨by omega, by omega, hx⟩

/-- The cover of a range of leaves carries what these leaves carry. -/
theorem Carries.cover_iff (h : Carries k leaf node) (start : Nat) {stop fuel : Nat}
    (hstop : stop ≤ 2 ^ k) (hfuel : stop + 2 ^ k ≤ fuel) (x : γ) :
    (∃ i ∈ coverNodes fuel (start + 2 ^ k) (stop + 2 ^ k), node i x) ↔
      ∃ j, start ≤ j ∧ j < stop ∧ leaf j x := by
  constructor
  · rintro ⟨i, hi, hx⟩
    obtain ⟨m, hlo, hhi⟩ := exists_level_of_mem_coverNodes 0 _ _ hi
    rw [Nat.pow_zero, Nat.mul_one] at hlo hhi
    obtain ⟨j, hj, hj', hx⟩ := (h.within_iff hstop hlo hhi x).mp hx
    exact ⟨j, by omega, by omega, hx⟩
  · rintro ⟨j, hj, hj', hx⟩
    obtain ⟨i, hi, m, hfirst, hlast, hlo, hhi⟩ := exists_mem_coverNodes (p := 2 ^ k + j) 0
      (start + 2 ^ k) (stop + 2 ^ k) hfuel (by omega) (by omega)
    rw [Nat.pow_zero, Nat.mul_one] at hfirst hlast
    exact ⟨i, hi, (h.within_iff hstop hfirst hlast x).mpr ⟨j, hhi, hlo, hx⟩⟩

/-- What all leaves of a range carry, every node of its cover carries. -/
theorem Carries.forall_cover (h : Carries k leaf node) (start fuel : Nat) {stop : Nat}
    (hstop : stop ≤ 2 ^ k) {x : γ} (hall : ∀ j, start ≤ j → j < stop → leaf j x) :
    ∀ i ∈ coverNodes fuel (start + 2 ^ k) (stop + 2 ^ k), node i x := by
  intro i hi
  obtain ⟨m, hlo, hhi⟩ := exists_level_of_mem_coverNodes 0 _ _ hi
  rw [Nat.pow_zero, Nat.mul_one] at hlo hhi
  have hsucc : (i + 1) * 2 ^ m = i * 2 ^ m + 2 ^ m := by ring
  have hpow : 0 < 2 ^ m := Nat.two_pow_pos m
  exact (h.within_iff hstop hlo hhi x).mpr
    ⟨i * 2 ^ m - 2 ^ k, by omega, by omega, hall _ (by omega) (by omega)⟩

/-! ## Combined values

The value at an inner node is combined from those of its children.  What is asked of a value holds
of a combined one if it holds of a part, so that a loop over the cover of a range asks the leaves of
the range. -/

section Values

variable {V : Type v} (combine : V → V → V) (unit : V)

def storeNode (index : Nat) (values : List V) : List V :=
  values.set index (combine (values[2 * index]?.getD unit) (values[2 * index + 1]?.getD unit))

/-- From the last inner node to the root. -/
def buildNodes (leafCount : Nat) (values : List V) : List V :=
  (List.range' 1 (leafCount - 1)).foldr (storeNode combine unit) values

def coverLoop (values : List V) : Nat → Nat → Nat → V → V
  | 0, _, _, combined => combined
  | fuel + 1, start, stop, combined =>
    if start < stop then
      let combined :=
        if start % 2 = 1 then combine combined (values[start]?.getD unit) else combined
      let combined :=
        if stop % 2 = 1 then combine combined (values[stop - 1]?.getD unit) else combined
      coverLoop values fuel ((start + 1) / 2) (stop / 2) combined
    else combined

variable {combine unit} {P : V → γ → Prop} {values : List V} {leafCount : Nat}

/-- The leaves are kept, and every inner node is combined from its children. -/
theorem getElem?_buildNodes (hlength : values.length = 2 * leafCount) :
    (∀ i, leafCount ≤ i → (buildNodes combine unit leafCount values)[i]? = values[i]?) ∧
      ∀ i, 1 ≤ i → i < leafCount →
        (buildNodes combine unit leafCount values)[i]?.getD unit =
          combine ((buildNodes combine unit leafCount values)[2 * i]?.getD unit)
            ((buildNodes combine unit leafCount values)[2 * i + 1]?.getD unit) := by
  -- the nodes from some position on are done
  have key : ∀ n m, 0 < m → m + n = leafCount →
      ((List.range' m n).foldr (storeNode combine unit) values).length = 2 * leafCount ∧
      (∀ i, leafCount ≤ i →
        ((List.range' m n).foldr (storeNode combine unit) values)[i]? = values[i]?) ∧
      ∀ i, m ≤ i → i < leafCount →
        ((List.range' m n).foldr (storeNode combine unit) values)[i]?.getD unit = combine
          (((List.range' m n).foldr (storeNode combine unit) values)[2 * i]?.getD unit)
          (((List.range' m n).foldr (storeNode combine unit) values)[2 * i + 1]?.getD unit) := by
    intro n
    induction n with
    | zero => exact fun m _ hm => ⟨hlength, fun _ _ => rfl, fun i hi hlt => absurd hi (by omega)⟩
    | succ n ih =>
      intro m hpos hm
      rw [range'_succ, foldr_cons]
      obtain ⟨hlen, hleaf, hinner⟩ := ih (m + 1) (Nat.succ_pos m) (by omega)
      generalize (List.range' (m + 1) n).foldr (storeNode combine unit) values = next at *
      have hset : ∀ i, i ≠ m → (storeNode combine unit m next)[i]? = next[i]? := fun i hi =>
        getElem?_set_ne hi.symm
      refine ⟨(length_set ..).trans hlen, fun i hi => ?_, fun i hi hlt => ?_⟩
      · rw [hset i (by omega), hleaf i hi]
      · rw [hset (2 * i) (by omega), hset (2 * i + 1) (by omega)]
        rcases hi.eq_or_lt with rfl | hi
        · rw [storeNode, getElem?_set_self (by omega), Option.getD_some]
        · rw [hset i hi.ne']
          exact hinner i hi hlt
  rcases Nat.eq_zero_or_pos leafCount with rfl | hpos
  · exact ⟨fun i _ => rfl, fun i _ hlt => absurd hlt (Nat.not_lt_zero i)⟩
  · obtain ⟨-, hleaf, hinner⟩ := key (leafCount - 1) 1 Nat.one_pos (by omega)
    exact ⟨hleaf, hinner⟩

variable (hcombine : ∀ a b x, P (combine a b) x ↔ P a x ∨ P b x)

include hcombine

theorem carries_buildNodes (hlength : values.length = 2 * 2 ^ k) :
    Carries k (fun j x => P (values[2 ^ k + j]?.getD unit) x)
      (fun i x => P ((buildNodes combine unit (2 ^ k) values)[i]?.getD unit) x) where
  leaf j _ x := by rw [(getElem?_buildNodes hlength).1 _ (Nat.le_add_right _ _)]
  inner i hpos hlt x := by rw [(getElem?_buildNodes hlength).2 i hpos hlt, hcombine]

/-- The loop combines the nodes that cover the range. -/
theorem holds_coverLoop {fuel : Nat} (start stop : Nat) (combined : V) (x : γ) :
    P (coverLoop combine unit values fuel start stop combined) x ↔ P combined x ∨
      ∃ i ∈ coverNodes fuel start stop, P (values[i]?.getD unit) x := by
  induction fuel generalizing start stop combined with
  | zero => simp [coverLoop, coverNodes]
  | succ fuel ih =>
    rw [coverLoop, coverNodes]
    split
    · dsimp only
      rw [ih]
      split <;> split <;> simp [hcombine, or_assoc]
    · simp

/-- The loop over a range of leaves asks just these leaves. -/
theorem holds_coverLoop_buildNodes (hlength : values.length = 2 * 2 ^ k) (start : Nat)
    {stop fuel : Nat} (hstop : stop ≤ 2 ^ k) (hfuel : stop + 2 ^ k ≤ fuel) (combined : V) (x : γ) :
    P (coverLoop combine unit (buildNodes combine unit (2 ^ k) values) fuel (start + 2 ^ k)
      (stop + 2 ^ k) combined) x ↔
      P combined x ∨ ∃ j, start ≤ j ∧ j < stop ∧ P (values[2 ^ k + j]?.getD unit) x := by
  rw [holds_coverLoop hcombine, (carries_buildNodes hcombine hlength).cover_iff start hstop hfuel]

end Values

end ItemDependencies.Library
