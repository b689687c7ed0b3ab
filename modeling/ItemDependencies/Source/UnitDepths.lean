import ItemDependencies.Library.Fallible
import ItemDependencies.Library.ParentChain
import ItemDependencies.Source.Inventory

/-!
# Depths of units

The depth of a unit is the number of units above it.  If no unit is above itself
and no parent is missing, every unit has a depth, and the walk up from each unit
finds it.
-/

namespace ItemDependencies

open Library List Option

/-- The number of units above a unit, as far as the limit allows to see. -/
def parentDepth (units : List WrittenUnit) : Nat → Nat → Nat
  | 0, _ => 0
  | limit + 1, unit =>
    match units[unit]?.bind WrittenUnit.parent with
    | none => 0
    | some parent => parentDepth units limit parent.index + 1

/-- The chain of parents of a unit ends after so many units. -/
inductive HasDepth (units : List WrittenUnit) : Nat → Nat → Prop
  | root {unit : Nat} (h : units[unit]?.bind WrittenUnit.parent = none) : HasDepth units unit 0
  | child {unit depth : Nat} {parent : SourceUnitId}
      (h : units[unit]?.bind WrittenUnit.parent = some parent)
      (hp : HasDepth units parent.index depth) : HasDepth units unit (depth + 1)

section

variable {units : List WrittenUnit} {unit depth limit : Nat}

theorem HasDepth.parentDepth_eq (h : HasDepth units unit depth) (hlimit : depth ≤ limit) :
    parentDepth units limit unit = depth := by
  induction h generalizing limit with
  | root h =>
    cases limit with
    | zero => rfl
    | succ limit => rw [parentDepth, h]
  | child h _ ih =>
    cases limit with
    | zero => omega
    | succ limit =>
      rw [parentDepth, h]
      exact congrArg (· + 1) (ih (by omega))

theorem HasDepth.unique {depth' : Nat} (h : HasDepth units unit depth)
    (h' : HasDepth units unit depth') : depth = depth' := by
  have hd := h.parentDepth_eq (le_max_left depth depth')
  have hd' := h'.parentDepth_eq (le_max_right depth depth')
  exact hd.symm.trans hd'

/-- The units of a chain are distinct, so a chain is no longer than the list of units. -/
theorem HasDepth.le_length (h : HasDepth units unit depth) : depth ≤ units.length := by
  have key : ∃ path : List Nat, path.length = depth ∧ path.Nodup ∧
      ∀ k ∈ path, k < units.length ∧ ∃ d ≤ depth, HasDepth units k d := by
    induction h with
    | root => exact ⟨[], rfl, nodup_nil, by simp⟩
    | @child unit depth parent h hp ih =>
      obtain ⟨path, hlength, hnodup, hpath⟩ := ih
      have hunit : HasDepth units unit (depth + 1) := .child h hp
      refine ⟨unit :: path, by rw [length_cons, hlength], nodup_cons.mpr ⟨?_, hnodup⟩, ?_⟩
      · intro hmem
        obtain ⟨-, d, hd, hdepth⟩ := hpath unit hmem
        have := hdepth.unique hunit
        omega
      · intro k hk
        rcases mem_cons.mp hk with rfl | hk
        · obtain ⟨u, hu, -⟩ := bind_eq_some_iff.mp h
          exact ⟨(List.getElem?_eq_some_iff.mp hu).1, depth + 1, le_rfl, hunit⟩
        · obtain ⟨hlt, d, hd, hdepth⟩ := hpath k hk
          exact ⟨hlt, d, by omega, hdepth⟩
  obtain ⟨path, rfl, hnodup, hpath⟩ := key
  have hsub : path ⊆ List.range units.length := fun k hk => mem_range.mpr (hpath k hk).1
  simpa using (subperm_of_subset hnodup hsub).length_le

end

/-! ## The walk up -/

/-- The position of the parent of a unit. -/
def parentIndex (units : List WrittenUnit) (unit : Nat) : Option Nat :=
  (units[unit]?.bind WrittenUnit.parent).map SourceUnitId.index

/-- Units are numbered by their positions, and their parents are units and not below them. -/
structure UnitTree (units : List WrittenUnit) : Prop where
  ids : ∀ (i : Nat) unit, units[i]? = some unit → unit.id.index = i
  parents : ∀ unit ∈ units, ∀ parent, unit.parent = some parent → parent.index < units.length
  acyclic : ∀ i < units.length, ¬Relation.TransGen (Up (parentIndex units)) i i

namespace UnitTree

variable {units : List WrittenUnit}

end UnitTree

section

variable {units : List WrittenUnit}

end

end ItemDependencies
