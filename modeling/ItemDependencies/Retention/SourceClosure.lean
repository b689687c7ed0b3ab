import ItemDependencies.Library.Grouping
import ItemDependencies.Library.Horn
import ItemDependencies.Library.Lane
import ItemDependencies.Library.Worklist
import ItemDependencies.Retention.SourceSites

/-!
# Closing the retained source units

A retained unit brings its atomic group with it, what it requires, and what it requires together
with another retained unit.  The closure looks at each unit once; whatever the order in which the
units are fed, it ends with the least set of units that the requirements allow.
-/

namespace ItemDependencies

open Library List

structure SourceRequirement where
  trigger : SourceUnitId
  required : SourceUnitId

structure ConditionalSourceRequirement where
  left : SourceUnitId
  right : SourceUnitId
  required : SourceUnitId

structure SourceRequirementIndex where
  atomicGroups : List (List SourceUnitId)
  atomicGroupByUnit : List (Option Nat)
  byTrigger : List (List SourceUnitId)
  byJointTrigger : List (List (SourceUnitId ×ₗ SourceUnitId))

namespace SourceRequirementIndex

/-- The slot of a unit holds `none`, for `usize::MAX`, until its group is found. -/
def placeMember (group : Nat) (slots : List (Option Nat)) (member : SourceUnitId) :
    Except RetentionError (List (Option Nat)) :=
  match slots[member.index]? with
  | some none => .ok (slots.set member.index (some group))
  | _ => .error .invalidConstraint

def placeGroup (slots : List (Option Nat)) (group : List SourceUnitId × Nat) :
    Except RetentionError (List (Option Nat)) :=
  if group.1.isEmpty then throw .invalidConstraint
  else group.1.foldlM (placeMember group.2) slots

/-- A list for each number below the bound, filled by pushes and then sorted without repetition. -/
def buckets {α : Type} [LinearOrder α] (count : Nat) (pushes : List (Nat × α)) : List (List α) :=
  (List.range count).map fun i => sortDedup (valuesAt pushes i)

def new (unitCount : Nat) (atomicGroups : List (List SourceUnitId))
    (ancestorRequirements shellRequirements deriveRequirements macroRuleRequirements :
      List SourceRequirement) (jointRequirements : List ConditionalSourceRequirement) :
    Except RetentionError SourceRequirementIndex := do
  let slots ← atomicGroups.zipIdx.foldlM placeGroup (List.replicate unitCount none)
  if none ∈ slots then throw .invalidConstraint
  let requirements :=
    ancestorRequirements ++ shellRequirements ++ deriveRequirements ++ macroRuleRequirements
  if ∃ requirement ∈ requirements,
      unitCount ≤ requirement.trigger.index ∨ unitCount ≤ requirement.required.index then
    throw .invalidConstraint
  if ∃ requirement ∈ jointRequirements, unitCount ≤ requirement.left.index ∨
      unitCount ≤ requirement.right.index ∨ unitCount ≤ requirement.required.index then
    throw .invalidConstraint
  return {
    atomicGroups := atomicGroups
    atomicGroupByUnit := slots
    byTrigger := buckets unitCount <| requirements.map fun requirement =>
      (requirement.trigger.index, requirement.required)
    byJointTrigger := buckets unitCount <| jointRequirements.flatMap fun requirement =>
      [(requirement.left.index, toLex (requirement.right, requirement.required)),
        (requirement.right.index, toLex (requirement.left, requirement.required))] }

end SourceRequirementIndex

/-! ## What the index holds -/

/-- What is required of the units of a source. -/
structure SourceRequirements where
  unitCount : Nat
  groups : List (List SourceUnitId)
  single : List SourceRequirement
  joint : List ConditionalSourceRequirement

inductive SourceRequirements.Rule (r : SourceRequirements) : Rules SourceUnitId
  | group {members : List SourceUnitId} {unit member : SourceUnitId} (hgroup : members ∈ r.groups)
      (hunit : unit ∈ members) (hmember : member ∈ members) : Rule r [unit] member
  | single {requirement : SourceRequirement} (h : requirement ∈ r.single) :
      Rule r [requirement.trigger] requirement.required
  | joint {requirement : ConditionalSourceRequirement} (h : requirement ∈ r.joint) :
      Rule r [requirement.left, requirement.right] requirement.required

namespace SourceRequirementIndex

/-- The index holds the rules by the units that trigger them. -/
structure Describes (index : SourceRequirementIndex) (r : SourceRequirements) : Prop where
  groups : index.atomicGroups = r.groups
  length : index.atomicGroupByUnit.length = r.unitCount
  slot : ∀ (unit : SourceUnitId) (group : Nat),
    index.atomicGroupByUnit[unit.index]? = some (some group) ↔
      ∃ members, r.groups[group]? = some members ∧ unit ∈ members
  placed : none ∉ index.atomicGroupByUnit
  trigger : ∀ unit required : SourceUnitId, required ∈ index.byTrigger.getD unit.index [] ↔
    ⟨unit, required⟩ ∈ r.single
  trigger_lt : ∀ requirement ∈ r.single, requirement.required.index < r.unitCount
  joint : ∀ unit other required : SourceUnitId,
    toLex (other, required) ∈ index.byJointTrigger.getD unit.index [] ↔
      ⟨unit, other, required⟩ ∈ r.joint ∨ ⟨other, unit, required⟩ ∈ r.joint
  joint_lt : ∀ requirement ∈ r.joint, requirement.required.index < r.unitCount

variable {unitCount : Nat} {index : SourceRequirementIndex} {slots slots' : List (Option Nat)}
  {placed : List (SourceUnitId × Nat)}

/-- The slots hold the groups of the units that have been placed. -/
def Placed (unitCount : Nat) (placed : List (SourceUnitId × Nat)) (slots : List (Option Nat)) :
    Prop :=
  slots.length = unitCount ∧ ∀ (unit : SourceUnitId) (group : Nat),
    slots[unit.index]? = some (some group) ↔ (unit, group) ∈ placed

theorem Placed.placeMember {group : Nat} {member : SourceUnitId}
    (h : Placed unitCount placed slots) (hok : placeMember group slots member = .ok slots') :
    Placed unitCount (placed ++ [(member, group)]) slots' := by
  unfold SourceRequirementIndex.placeMember at hok
  split at hok
  case h_2 => cases hok
  case h_1 hfree =>
    cases hok
    refine ⟨length_set.trans h.1, fun unit other => ?_⟩
    rw [mem_append, mem_singleton, ← h.2, getElem?_set]
    by_cases hsame : member.index = unit.index
    · have hunit : unit = member := congrArg SourceUnitId.mk hsame.symm
      subst hunit
      have hlt : unit.index < slots.length := (List.getElem?_eq_some_iff.mp hfree).1
      rw [if_pos rfl, if_pos hlt, hfree]
      simp only [Option.some.injEq, reduceCtorEq, false_or, Prod.mk.injEq, true_and]
      exact eq_comm
    · have hunit : unit ≠ member := fun heq => hsame (heq ▸ rfl)
      simp [hsame, hunit]

theorem Placed.placeGroup {group : List SourceUnitId × Nat} (h : Placed unitCount placed slots)
    (hok : placeGroup slots group = .ok slots') :
    Placed unitCount (placed ++ group.1.map (·, group.2)) slots' := by
  refine foldlM_ok (P := fun done => Placed unitCount (placed ++ done.map (·, group.2)))
    (fun done member s t hs hstep => ?_) (by simpa using h) (guard_ok hok).2
  rw [map_append, ← append_assoc]
  exact hs.placeMember hstep

theorem mem_getD_buckets {α : Type} [LinearOrder α] {count i : Nat} {pushes : List (Nat × α)}
    {a : α} (h : ∀ push ∈ pushes, push.1 < count) :
    a ∈ (buckets count pushes).getD i [] ↔ (i, a) ∈ pushes := by
  rw [buckets, getD_eq_getElem?_getD, getElem?_map]
  by_cases hi : i < count
  · rw [getElem?_range hi, Option.map_some, Option.getD_some, mem_sortDedup, mem_valuesAt]
  · rw [getElem?_eq_none (by simpa using hi)]
    exact ⟨fun hin => absurd hin not_mem_nil, fun hin => absurd (h _ hin) hi⟩

theorem new_describes {groups : List (List SourceUnitId)}
    {ancestorRequirements shellRequirements deriveRequirements macroRuleRequirements :
      List SourceRequirement} {jointRequirements : List ConditionalSourceRequirement}
    (h : new unitCount groups ancestorRequirements shellRequirements deriveRequirements
      macroRuleRequirements jointRequirements = .ok index) :
    index.Describes ⟨unitCount, groups,
      ancestorRequirements ++ shellRequirements ++ deriveRequirements ++ macroRuleRequirements,
      jointRequirements⟩ := by
  obtain ⟨slots, hslots, h⟩ := bind_ok h
  obtain ⟨hplaced, h⟩ := guard_ok h
  obtain ⟨hsingle, h⟩ := guard_ok h
  obtain ⟨hjoint, h⟩ := guard_ok h
  cases h
  push Not at hsingle hjoint
  have hgroups : Placed unitCount (groups.zipIdx.flatMap fun group => group.1.map (·, group.2))
      slots := by
    refine foldlM_ok (P := fun done => Placed unitCount
      (done.flatMap fun group : List SourceUnitId × Nat => group.1.map (·, group.2)))
      (fun done group s t hs hstep => ?_) ⟨length_replicate, fun unit group => ?_⟩ hslots
    · rw [flatMap_append, flatMap_singleton]
      exact hs.placeGroup hstep
    · simp [getElem?_replicate]
  have hindex : ∀ a b : SourceUnitId, a.index = b.index ↔ a = b := fun a b =>
    ⟨congrArg SourceUnitId.mk, congrArg SourceUnitId.index⟩
  refine ⟨rfl, hgroups.1, fun unit group => ?_, hplaced, fun unit required => ?_,
    fun requirement hin => (hsingle requirement hin).2, fun unit other required => ?_,
    fun requirement hin => (hjoint requirement hin).2.2⟩
  · rw [hgroups.2]
    simp only [mem_flatMap, mem_map, Prod.mk.injEq, Prod.exists, mem_zipIdx_iff_getElem?]
    constructor
    · rintro ⟨members, place, hgroup, member, hmember, rfl, rfl⟩
      exact ⟨members, hgroup, hmember⟩
    · rintro ⟨members, hgroup, hmember⟩
      exact ⟨members, group, hgroup, unit, hmember, rfl, rfl⟩
  · rw [mem_getD_buckets (forall_mem_map.mpr fun requirement hin => (hsingle requirement hin).1)]
    simp only [mem_map, Prod.mk.injEq, hindex]
    constructor
    · rintro ⟨requirement, hin, rfl, rfl⟩
      exact hin
    · exact fun hin => ⟨_, hin, rfl, rfl⟩
  · rw [mem_getD_buckets]
    · simp only [mem_flatMap, mem_cons, not_mem_nil, or_false, Prod.mk.injEq, toLex_inj, hindex]
      constructor
      · rintro ⟨requirement, hin, ⟨rfl, rfl, rfl⟩ | ⟨rfl, rfl, rfl⟩⟩
        · exact .inl hin
        · exact .inr hin
      · rintro (hin | hin)
        · exact ⟨_, hin, .inl ⟨rfl, rfl, rfl⟩⟩
        · exact ⟨_, hin, .inr ⟨rfl, rfl, rfl⟩⟩
    · intro push hpush
      obtain ⟨requirement, hin, hpush⟩ := mem_flatMap.mp hpush
      simp only [mem_cons, not_mem_nil, or_false] at hpush
      rcases hpush with rfl | rfl
      · exact (hjoint requirement hin).1
      · exact (hjoint requirement hin).2.1

end SourceRequirementIndex

/-! ## The closure -/

structure SourceRequirementClosure where
  initialized : Bool
  units : Worklist SourceUnitId
  openedGroups : Finset Nat

/-- The closure, and the caller's retained units with those that are newly retained. -/
structure SourceRetention where
  closure : SourceRequirementClosure
  retained : Lane SourceUnitId

namespace SourceRequirementClosure

def new : SourceRequirementClosure := ⟨false, .empty, ∅⟩

variable (index : SourceRequirementIndex)

def add (c : SourceRequirementClosure) (units : List SourceUnitId) :
    Except RetentionError SourceRequirementClosure :=
  units.foldlM (fun c unit =>
    if index.atomicGroupByUnit.length ≤ unit.index then throw .invalidConstraint
    else return { c with units := c.units.add unit }) c

def seed (c : SourceRequirementClosure) (retained : Finset SourceUnitId) :
    Except RetentionError SourceRequirementClosure :=
  if c.initialized then throw .invalidConstraint
  else add index { c with initialized := true } (ascending retained)

/-- `if retain_source_unit(..) { self.add([unit])? }` -/
def retain (s : SourceRetention) (unit : SourceUnitId) : Except RetentionError SourceRetention :=
  if unit ∈ s.retained.required then return s
  else do
    let closure ← add index s.closure [unit]
    return ⟨closure, s.retained.insert unit⟩

/-- Every unit that is queued has a slot, and the slot holds its group. -/
def openGroup (s : SourceRetention) (unit : SourceUnitId) : Except RetentionError SourceRetention :=
  match index.atomicGroupByUnit[unit.index]? with
  | some (some group) =>
    if group ∈ s.closure.openedGroups then return s
    else
      (index.atomicGroups.getD group []).foldlM (retain index)
        { s with closure := { s.closure with openedGroups := insert group s.closure.openedGroups } }
  | _ => return s

def retainJoint (s : SourceRetention) (requirement : SourceUnitId ×ₗ SourceUnitId) :
    Except RetentionError SourceRetention :=
  if (ofLex requirement).1 ∈ s.retained.required then retain index s (ofLex requirement).2
  else return s

/-- The body of the loop. -/
def closeUnit (s : SourceRetention) : Except RetentionError SourceRetention :=
  match s.closure.units.pop with
  | none => return s
  | some (unit, units) =>
    if unit ∉ s.retained.required then throw .invalidConstraint
    else do
      let s ← openGroup index { s with closure := { s.closure with units := units } } unit
      let s ← (index.byTrigger.getD unit.index []).foldlM (retain index) s
      (index.byJointTrigger.getD unit.index []).foldlM (retainJoint index) s

def close (s : SourceRetention) : Except RetentionError SourceRetention :=
  whileTry (fun s => !s.closure.units.pending.isEmpty) (closeUnit index)
    (index.atomicGroupByUnit.length + s.closure.units.pending.length) s

end SourceRequirementClosure

/-! ## What the closure keeps -/

namespace SourceRetention

open SourceRequirementIndex SourceRequirementClosure

variable {r : SourceRequirements} {index : SourceRequirementIndex} {fed : Set SourceUnitId}
  {s t u : SourceRetention}

/-- Work that is left: units that have not been seen, and units that are queued. -/
def left (r : SourceRequirements) (s : SourceRetention) : Nat :=
  s.closure.units.left ((List.range r.unitCount).map SourceUnitId.mk)

/-- What holds at each moment, with the units that have been fed. -/
structure Good (r : SourceRequirements) (fed : Set SourceUnitId) (s : SourceRetention) : Prop where
  seen : s.closure.units.seen = s.retained.required
  lt : ∀ unit ∈ s.retained.required, unit.index < r.unitCount
  sound : ∀ unit ∈ s.retained.required, Derives r.Rule fed unit
  listed : Lane.Extends ⟨∅, []⟩ s.retained

/-- Retaining units only adds to what is retained and queued. -/
structure Grows (r : SourceRequirements) (s t : SourceRetention) : Prop where
  required : s.retained.required ⊆ t.retained.required
  processed : t.closure.units.processed = s.closure.units.processed
  opened : t.closure.openedGroups = s.closure.openedGroups
  left : t.left r ≤ s.left r

theorem Grows.refl : Grows r s s := ⟨subset_rfl, rfl, rfl, le_rfl⟩

theorem Grows.trans (h : Grows r s t) (h' : Grows r t u) : Grows r s u :=
  ⟨h.required.trans h'.required, h'.processed.trans h.processed, h'.opened.trans h.opened,
    h'.left.trans h.left⟩

/-- What holds between two units. -/
structure Inv (r : SourceRequirements) (fed : Set SourceUnitId) (s : SourceRetention) : Prop
    extends Good r fed s where
  fed_subset : fed ⊆ s.retained.required
  agenda : Agenda r.Rule s.closure.units.processed s.retained.required
  opened : ∀ group ∈ s.closure.openedGroups, ∀ members, r.groups[group]? = some members →
    ∀ member ∈ members, member ∈ s.retained.required

theorem add_eq {c : SourceRequirementClosure} {units : List SourceUnitId}
    (h : ∀ unit ∈ units, unit.index < index.atomicGroupByUnit.length) :
    add index c units = .ok { c with units := c.units.addAll units } := by
  induction units generalizing c with
  | nil => rfl
  | cons unit units ih =>
    obtain ⟨hunit, hunits⟩ := forall_mem_cons.mp h
    rw [add, foldlM_cons, if_neg (Nat.not_le.mpr hunit)]
    exact ih hunits

/-- Some units are retained, each of them under a condition. -/
theorem Good.foldlM {α : Type} {f : SourceRetention → α → Except RetentionError SourceRetention}
    (items : List α) (goal : α → SourceRetention → Prop)
    (hf : ∀ item ∈ items, ∀ t, Grows r s t → Good r fed t →
      ∃ u, f t item = .ok u ∧ Good r fed u ∧ Grows r t u ∧ goal item u)
    (hgoal : ∀ item t u, Grows r t u → goal item t → goal item u) (h : Good r fed s) :
    ∃ t, items.foldlM f s = .ok t ∧ Good r fed t ∧ Grows r s t ∧ ∀ item ∈ items, goal item t := by
  refine foldlM_total (P := fun done t => Good r fed t ∧ Grows r s t ∧
    ∀ item ∈ done, goal item t) ?_ ⟨h, .refl, by simp⟩
  rintro done item rest t rfl ⟨hgood, hgrows, hdone⟩
  obtain ⟨u, hu, hgood', hgrows', hitem⟩ := hf item (by simp) t hgrows hgood
  refine ⟨u, hu, hgood', hgrows.trans hgrows', fun other hother => ?_⟩
  rcases mem_append.mp hother with hother | hother
  · exact hgoal other t u hgrows' (hdone other hother)
  · exact mem_singleton.mp hother ▸ hitem

section Retain

variable (hlength : index.atomicGroupByUnit.length = r.unitCount)

include hlength

theorem Good.retain {unit : SourceUnitId} (h : Good r fed s)
    (hlt : unit.index < r.unitCount) (hderives : Derives r.Rule fed unit) :
    ∃ t, retain index s unit = .ok t ∧ Good r fed t ∧ Grows r s t ∧ unit ∈ t.retained.required := by
  by_cases hmem : unit ∈ s.retained.required
  · exact ⟨s, by rw [SourceRequirementClosure.retain, if_pos hmem]; rfl, h, .refl, hmem⟩
  have hadd : add index s.closure [unit] =
      .ok { s.closure with units := s.closure.units.add unit } := add_eq (by simpa [hlength])
  refine ⟨⟨{ s.closure with units := s.closure.units.add unit }, s.retained.insert unit⟩,
    ?_, ?_, ?_, Lane.mem_required_insert.mpr (.inl rfl)⟩
  · rw [SourceRequirementClosure.retain, if_neg hmem, hadd]
    rfl
  · refine ⟨?_, fun other hother => ?_, fun other hother => ?_,
      h.listed.trans (Lane.Extends.insert ..)⟩
    · ext other
      rw [Worklist.mem_seen_add, Lane.mem_required_insert, h.seen]
    · rcases Lane.mem_required_insert.mp hother with rfl | hother
      · exact hlt
      · exact h.lt other hother
    · rcases Lane.mem_required_insert.mp hother with rfl | hother
      · exact hderives
      · exact h.sound other hother
  · refine ⟨fun other hother => Lane.mem_required_insert.mpr (.inr hother),
      Worklist.processed_add, rfl, Worklist.left_add (.inl ?_)⟩
    exact mem_map.mpr ⟨unit.index, mem_range.mpr hlt, rfl⟩

theorem Good.retainAll (units : List SourceUnitId) (h : Good r fed s)
    (hunits : ∀ unit ∈ units, unit.index < r.unitCount ∧ Derives r.Rule fed unit) :
    ∃ t, units.foldlM (SourceRequirementClosure.retain index) s = .ok t ∧
      Good r fed t ∧ Grows r s t ∧ ∀ unit ∈ units, unit ∈ t.retained.required :=
  Good.foldlM units (fun unit t => unit ∈ t.retained.required)
    (fun unit hunit _ _ hgood => hgood.retain hlength (hunits unit hunit).1 (hunits unit hunit).2)
    (fun _ _ _ hgrows hmem => hgrows.required hmem) h

/-- What the joint requirements of a unit require if the other unit is retained already. -/
theorem Good.retainJoints (items : List (SourceUnitId ×ₗ SourceUnitId)) (h : Good r fed s)
    (hitems : ∀ item ∈ items, (ofLex item).2.index < r.unitCount ∧
      (Derives r.Rule fed (ofLex item).1 → Derives r.Rule fed (ofLex item).2)) :
    ∃ t, items.foldlM (retainJoint index) s = .ok t ∧ Good r fed t ∧ Grows r s t ∧
      ∀ item ∈ items, (ofLex item).1 ∈ s.retained.required →
        (ofLex item).2 ∈ t.retained.required := by
  refine Good.foldlM items (fun item t => (ofLex item).1 ∈ s.retained.required →
    (ofLex item).2 ∈ t.retained.required) (fun item hin t hgrows hgood => ?_)
    (fun _ _ _ hgrows hgoal hin => hgrows.required (hgoal hin)) h
  obtain ⟨hlt, hderives⟩ := hitems item hin
  rw [retainJoint]
  by_cases hother : (ofLex item).1 ∈ t.retained.required
  · obtain ⟨u, hu, hgood', hgrows', hmem⟩ :=
      hgood.retain hlength hlt (hderives (hgood.sound _ hother))
    exact ⟨u, by rw [if_pos hother, hu], hgood', hgrows', fun _ => hmem⟩
  · exact ⟨t, by rw [if_neg hother]; rfl, hgood, .refl,
      fun hin => absurd (hgrows.required hin) hother⟩

theorem Good.openGroup {unit : SourceUnitId} {group : Nat} {members : List SourceUnitId}
    (h : Good r fed s) (hslot : index.atomicGroupByUnit[unit.index]? = some (some group))
    (hgroup : index.atomicGroups[group]? = some members)
    (hmembers : ∀ member ∈ members, member.index < r.unitCount ∧ Derives r.Rule fed member)
    (hopened : group ∈ s.closure.openedGroups → ∀ member ∈ members, member ∈ s.retained.required) :
    ∃ t, openGroup index s unit = .ok t ∧ Good r fed t ∧ s.retained.required ⊆ t.retained.required ∧
      t.closure.units.processed = s.closure.units.processed ∧ t.left r ≤ s.left r ∧
      t.closure.openedGroups = insert group s.closure.openedGroups ∧
      ∀ member ∈ members, member ∈ t.retained.required := by
  rw [SourceRequirementClosure.openGroup, hslot]
  dsimp only
  by_cases hin : group ∈ s.closure.openedGroups
  · rw [if_pos hin]
    exact ⟨s, rfl, h, subset_rfl, rfl, le_rfl, (Finset.insert_eq_of_mem hin).symm, hopened hin⟩
  · have hgood : Good r fed { s with closure := { s.closure with
        openedGroups := insert group s.closure.openedGroups } } :=
      ⟨h.seen, h.lt, h.sound, h.listed⟩
    obtain ⟨t, ht, htgood, hgrows, hall⟩ := hgood.retainAll hlength members hmembers
    rw [if_neg hin, getD_eq_getElem?_getD, hgroup]
    exact ⟨t, ht, htgood, hgrows.required, hgrows.processed, hgrows.left, hgrows.opened, hall⟩

end Retain

/-- The slot of a unit leads to its group, which comes with it. -/
theorem Good.group (hd : index.Describes r) (h : Good r fed s) {unit : SourceUnitId}
    (hunit : unit ∈ s.retained.required) :
    ∃ group members, index.atomicGroupByUnit[unit.index]? = some (some group) ∧
      r.groups[group]? = some members ∧
      ∀ member ∈ members, member.index < r.unitCount ∧ Derives r.Rule fed member := by
  have hlt : unit.index < index.atomicGroupByUnit.length := hd.length ▸ h.lt unit hunit
  cases hget : index.atomicGroupByUnit[unit.index] with
  | none => exact absurd (hget ▸ getElem_mem hlt) hd.placed
  | some group =>
    have hslot : index.atomicGroupByUnit[unit.index]? = some (some group) := by
      rw [getElem?_eq_getElem hlt, hget]
    obtain ⟨members, hgroup, hmember⟩ := (hd.slot unit group).mp hslot
    refine ⟨group, members, hslot, hgroup, fun member hin => ⟨?_, ?_⟩⟩
    · have hother := (hd.slot member group).mpr ⟨members, hgroup, hin⟩
      exact hd.length ▸ (List.getElem?_eq_some_iff.mp hother).1
    · exact .rule (.group (mem_of_getElem? hgroup) hmember hin) (by simpa using h.sound unit hunit)

/-- One unit is taken from the queue: the rules that have it as a premise are applied. -/
theorem Inv.closeUnit (hd : index.Describes r) (h : Inv r fed s)
    (hbusy : s.closure.units.pending ≠ []) :
    ∃ t, closeUnit index s = .ok t ∧ Inv r fed t ∧ t.left r < s.left r := by
  obtain ⟨⟨unit, units⟩, hpop⟩ := Option.ne_none_iff_exists'.mp
    (fun hnone => hbusy (Worklist.pop_eq_none.mp hnone))
  obtain ⟨hseen, -, hprocessed⟩ := Worklist.processed_pop hpop
  have hleft := Worklist.left_pop ((List.range r.unitCount).map SourceUnitId.mk) hpop
  rw [h.seen] at hseen
  have hunit : Derives r.Rule fed unit := h.sound unit hseen
  -- the group of the unit
  obtain ⟨group, members, hslot, hgroup, hmembers⟩ := h.toGood.group hd hseen
  have hgood : Good r fed ⟨{ s.closure with units := units }, s.retained⟩ :=
    ⟨(Worklist.pop_eq_some hpop).2.trans h.seen, h.lt, h.sound, h.listed⟩
  obtain ⟨t₁, ht₁, hgood₁, hrequired₁, hprocessed₁, hleft₁, hopened₁, hmembers₁⟩ :=
    hgood.openGroup hd.length hslot (hd.groups ▸ hgroup) hmembers
      fun hopened => h.opened group hopened members hgroup
  -- what the unit requires
  obtain ⟨t₂, ht₂, hgood₂, hgrows₂, hall₂⟩ := hgood₁.retainAll hd.length
    (index.byTrigger.getD unit.index []) fun required hin => by
      have hsingle := (hd.trigger unit required).mp hin
      exact ⟨hd.trigger_lt _ hsingle, .rule (.single hsingle) (by simpa using hunit)⟩
  -- what it requires together with a unit that is retained
  obtain ⟨t, ht, hgood', hgrows, hall⟩ := hgood₂.retainJoints hd.length
    (index.byJointTrigger.getD unit.index []) fun item hin => by
      rcases (hd.joint unit (ofLex item).1 (ofLex item).2).mp hin with hin | hin
      · exact ⟨hd.joint_lt _ hin, fun hother => .rule (.joint hin) (by simpa using ⟨hunit, hother⟩)⟩
      · exact ⟨hd.joint_lt _ hin, fun hother => .rule (.joint hin) (by simpa using ⟨hother, hunit⟩)⟩
  have hrequired : t₁.retained.required ⊆ t.retained.required :=
    hgrows₂.required.trans hgrows.required
  refine ⟨t, ?_, ⟨hgood', h.fed_subset.trans (Finset.coe_subset.mpr (hrequired₁.trans hrequired)),
    ?_, fun other hother members' hmembers' member hin => ?_⟩,
    Nat.lt_of_le_of_lt (hgrows.left.trans (hgrows₂.left.trans hleft₁)) (Nat.lt_of_succ_le hleft.le)⟩
  · rw [SourceRequirementClosure.closeUnit, hpop]
    dsimp only
    rw [if_neg (not_not_intro hseen), ht₁]
    dsimp only [bind, Except.bind]
    rw [ht₂]
    exact ht
  · rw [hgrows.processed, hgrows₂.processed, hprocessed₁, hprocessed, Finset.coe_insert]
    refine (h.agenda.mono (Finset.coe_subset.mpr (hrequired₁.trans hrequired))).draw ?_
    rintro premises conclusion
      (⟨hgroup', hin, hconclusion⟩ | hin | @⟨requirement, hin⟩) hpremise hdrawn
    · -- the unit is in one group only
      rw [mem_singleton] at hpremise
      subst hpremise
      obtain ⟨other, hother⟩ := mem_iff_getElem?.mp hgroup'
      have hsame := (hd.slot unit other).mpr ⟨_, hother, hin⟩
      rw [hslot] at hsame
      cases hsame
      rw [hgroup] at hother
      cases hother
      exact hrequired (hmembers₁ conclusion hconclusion)
    · rw [mem_singleton] at hpremise
      subst hpremise
      exact hgrows.required (hall₂ _ ((hd.trigger _ _).mpr hin))
    · have hheld : ∀ premise ∈ [requirement.left, requirement.right],
          premise ∈ t₂.retained.required := fun premise hp => by
        refine hgrows₂.required (hrequired₁ ?_)
        rcases hdrawn premise hp with rfl | hp
        · exact hseen
        · exact h.seen ▸ Worklist.processed_subset hp
      simp only [mem_cons, not_mem_nil, or_false] at hpremise
      rcases hpremise with rfl | rfl
      · exact hall (toLex (requirement.right, requirement.required))
          ((hd.joint _ _ _).mpr (.inl hin)) (hheld _ (by simp))
      · exact hall (toLex (requirement.left, requirement.required))
          ((hd.joint _ _ _).mpr (.inr hin)) (hheld _ (by simp))
  · rw [hgrows.opened, hgrows₂.opened, hopened₁, Finset.mem_insert] at hother
    rcases hother with rfl | hother
    · rw [hgroup] at hmembers'
      cases hmembers'
      exact hrequired (hmembers₁ member hin)
    · exact hrequired (hrequired₁ (h.opened other hother members' hmembers' member hin))

theorem Inv.close (hd : index.Describes r) (h : Inv r fed s) :
    ∃ t, close index s = .ok t ∧ Inv r fed t ∧ t.closure.units.pending = [] := by
  have hbusy : ∀ s : SourceRetention, (!s.closure.units.pending.isEmpty) = true →
      s.closure.units.pending ≠ [] := fun s hs hnil => by simp [hnil] at hs
  have hlimit : s.left r ≤ index.atomicGroupByUnit.length + s.closure.units.pending.length := by
    refine Nat.add_le_add_right (countP_le_length.trans ?_) _
    rw [length_map, length_range, hd.length]
  rcases whileTry_total (left r) (P := Inv r fed) (E := fun _ _ => False)
    (fun s _ hs => Nat.add_pos_right _ (length_pos_iff.mpr (hbusy s hs)))
    (fun s hinv hs => .inr (hinv.closeUnit hd (hbusy s hs))) h hlimit
    with ⟨_, _, _, _, hno⟩ | ⟨t, ht, hinv, hidle⟩
  · exact hno.elim
  · exact ⟨t, ht, hinv, by simpa using hidle⟩

theorem Inv.feed (hd : index.Describes r) (h : Inv r fed s) (units : List SourceUnitId)
    (hlt : ∀ unit ∈ units, unit.index < r.unitCount) :
    ∃ c, add index s.closure units = .ok c ∧
      Inv r (fed ∪ {unit | unit ∈ units}) ⟨c, s.retained.insertAll units⟩ := by
  refine ⟨_, add_eq (hd.length ▸ hlt), ⟨?_, fun unit hunit => ?_, fun unit hunit => ?_,
    h.listed.trans (Lane.Extends.insertAll ..)⟩, fun unit hunit => ?_, ?_,
    fun group hgroup members hmembers member hmember =>
      Lane.mem_required_insertAll.mpr
        (.inr (h.opened group hgroup members hmembers member hmember))⟩
  · ext unit
    rw [Worklist.mem_seen_addAll, Lane.mem_required_insertAll, h.seen]
  · exact (Lane.mem_required_insertAll.mp hunit).elim (hlt unit) (h.lt unit)
  · rcases Lane.mem_required_insertAll.mp hunit with hunit | hunit
    · exact .input (.inr hunit)
    · exact (isLeast_derives _ _).2 ⟨fun _ hin => .input (.inl hin), (isLeast_derives _ _).1.2⟩
        (h.sound unit hunit)
  · exact Lane.mem_required_insertAll.mpr (hunit.elim (fun hin => .inr (h.fed_subset hin)) .inl)
  · rw [Worklist.processed_addAll]
    exact h.agenda.mono fun unit hunit => Lane.mem_required_insertAll.mpr (.inr hunit)

end SourceRetention

/-! ## Runs -/

/-- One use of the closure by its caller, who tells it of each unit that it retains. -/
inductive SourceRequirementCall where
  | retain (units : List SourceUnitId)
  | close

namespace SourceRequirementCall

open SourceRequirementIndex

def run (index : SourceRequirementIndex) (s : SourceRetention) :
    SourceRequirementCall → Except RetentionError SourceRetention
  | retain units => do
    let closure ← s.closure.add index units
    return ⟨closure, s.retained.insertAll units⟩
  | close => SourceRequirementClosure.close index s

/-- Some calls, from a new closure that is seeded with nothing. -/
def runAll (index : SourceRequirementIndex) (calls : List SourceRequirementCall) :
    Except RetentionError SourceRetention := do
  let closure ← SourceRequirementClosure.new.seed index ∅
  calls.foldlM (run index) ⟨closure, ⟨∅, []⟩⟩

/-- The units that the caller retains. -/
def fed (calls : List SourceRequirementCall) : Set SourceUnitId :=
  {unit | ∃ units, retain units ∈ calls ∧ unit ∈ units}

variable {r : SourceRequirements} {index : SourceRequirementIndex}

theorem inv_start : SourceRetention.Inv r (fed []) ⟨⟨true, .empty, ∅⟩, ⟨∅, []⟩⟩ where
  seen := rfl
  lt _ h := absurd h (Finset.notMem_empty _)
  sound _ h := absurd h (Finset.notMem_empty _)
  listed := .refl _
  fed_subset _ h := by simp [fed] at h
  agenda _ _ hrule hpremises := by
    cases hrule <;> exact absurd (hpremises _ mem_cons_self) (Finset.notMem_empty _)
  opened _ h := absurd h (Finset.notMem_empty _)

/-- Each call succeeds and keeps the invariant. -/
theorem exists_runAll (hd : index.Describes r) {calls : List SourceRequirementCall}
    (hlt : ∀ unit ∈ fed calls, unit.index < r.unitCount) :
    ∃ s, runAll index calls = .ok s ∧ SourceRetention.Inv r (fed calls) s := by
  refine foldlM_total (P := fun done s => SourceRetention.Inv r (fed done) s)
    (fun done call rest s heq hs => ?_) inv_start
  cases call with
  | retain units =>
    obtain ⟨c, hc, hinv⟩ := hs.feed hd units fun unit hunit =>
      hlt unit ⟨units, by simp [heq], hunit⟩
    have hfed : fed (done ++ [retain units]) = fed done ∪ {unit | unit ∈ units} := by
      ext unit
      simp [fed, or_and_right, exists_or]
    refine ⟨_, ?_, hfed ▸ hinv⟩
    rw [run, hc]
    rfl
  | close =>
    obtain ⟨t, ht, hinv, -⟩ := hs.close hd
    exact ⟨t, ht, by simpa [fed] using hinv⟩

/-- However the units are fed, the closure does not fail, and after `close` the retained units are
the least set that contains them, consists of whole atomic groups and meets the requirements. Each
of them is reported once. -/
theorem retained_isLeast {unitCount : Nat} {groups : List (List SourceUnitId)}
    {ancestorRequirements shellRequirements deriveRequirements macroRuleRequirements :
      List SourceRequirement} {jointRequirements : List ConditionalSourceRequirement}
    (hindex : SourceRequirementIndex.new unitCount groups ancestorRequirements shellRequirements
      deriveRequirements macroRuleRequirements jointRequirements = .ok index)
    (calls : List SourceRequirementCall) (hlt : ∀ unit ∈ fed calls, unit.index < unitCount) :
    ∃ s, runAll index (calls ++ [close]) = .ok s ∧
      IsLeast {X | fed calls ⊆ X ∧ Closed (SourceRequirements.Rule ⟨unitCount, groups,
        ancestorRequirements ++ shellRequirements ++ deriveRequirements ++ macroRuleRequirements,
        jointRequirements⟩) X} ↑s.retained.required ∧
      s.retained.newly.Nodup ∧ s.retained.newly.toFinset = s.retained.required := by
  have hd := new_describes hindex
  obtain ⟨s, hrun, hinv⟩ := exists_runAll hd hlt
  obtain ⟨t, ht, hinv', hidle⟩ := hinv.close hd
  refine ⟨t, ?_, ⟨⟨hinv'.fed_subset, hinv'.agenda.closed ?_⟩,
    fun X ⟨hfed, hclosed⟩ unit hunit => ?_⟩, ?_⟩
  · obtain ⟨c, hc, hcalls⟩ := bind_ok hrun
    rw [runAll, hc]
    dsimp only [bind, Except.bind]
    rw [foldlM_append, hcalls]
    dsimp only [bind, Except.bind]
    rw [foldlM_cons, run, ht]
    rfl
  · rw [Worklist.processed_eq_seen hidle, hinv'.seen]
  · exact (isLeast_derives _ _).2 ⟨hfed, hclosed⟩ (hinv'.sound unit hunit)
  · obtain ⟨gained, hgained⟩ := hinv'.listed
    rw [hgained.newly, hgained.required]
    exact ⟨hgained.nodup, (Finset.empty_union _).symm⟩

theorem retained_isLeast_small :
    ∃ index s, SourceRequirementIndex.new 3 [[⟨0⟩], [⟨1⟩, ⟨2⟩]] [⟨⟨0⟩, ⟨1⟩⟩] [] [] [] [] =
        .ok index ∧ runAll index ([retain [⟨0⟩]] ++ [close]) = .ok s ∧
      IsLeast {X | fed [retain [⟨0⟩]] ⊆ X ∧ Closed (SourceRequirements.Rule
        ⟨3, [[⟨0⟩], [⟨1⟩, ⟨2⟩]], [⟨⟨0⟩, ⟨1⟩⟩], []⟩) X} ↑s.retained.required := by
  have hindex : SourceRequirementIndex.new 3 [[⟨0⟩], [⟨1⟩, ⟨2⟩]] [⟨⟨0⟩, ⟨1⟩⟩] [] [] [] [] =
      .ok _ := rfl
  obtain ⟨s, hrun, hleast, -⟩ := retained_isLeast hindex [retain [⟨0⟩]] (by simp [fed])
  exact ⟨_, s, hindex, hrun, hleast⟩

end SourceRequirementCall

end ItemDependencies
