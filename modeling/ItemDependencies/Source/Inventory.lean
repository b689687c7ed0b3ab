import ItemDependencies.Library.Ascending
import ItemDependencies.Library.Grouping
import ItemDependencies.Source.Rewrite

/-!
# Valid inventories

The checks that an inventory passes before and after its atomic groups are
changed: the tree of the units, the pieces of the text, and the facts about
derives, declarative macros and attributes without an owner.
-/

namespace ItemDependencies

open Library

/-! ## Units and pieces -/

/-- Count the parents of a unit.  More steps than there are units mean a cycle. -/
def parentCount (units : List WrittenUnit) : Nat → Nat → Option SourceUnitId →
    Except SourceError Nat
  | _, depth, none => return depth
  | 0, _, some _ => throw .invalidInventory
  | limit + 1, depth, some parent =>
    match units[parent.index]? with
    | none => throw .invalidInventory
    | some parent => parentCount units limit (depth + 1) parent.parent

def recordDepth (units : List WrittenUnit) (depths : List (Option Nat)) (unit : WrittenUnit) :
    Except SourceError (List (Option Nat)) := do
  let depth ← parentCount units units.length 0 unit.parent
  return depths.set unit.id.index (some depth)

def unitDepths (units : List WrittenUnit) : Except SourceError (List Nat) := do
  let depths ← units.foldlM (recordDepth units) (List.replicate units.length none)
  depths.mapM fun depth =>
    match depth with
    | some depth => return depth
    | none => throw .invalidInventory

def validateParent (units : List WrittenUnit) (unit : WrittenUnit) (parent : SourceUnitId) :
    Except SourceError Unit :=
  match units[parent.index]? with
  | none => throw .invalidInventory
  | some parent =>
    if !parent.fullRange.contains unit.fullRange then throw .invalidInventory
    else if parent.cfgState = .inactive ∧ unit.cfgState ≠ .inactive then throw .invalidInventory
    else if unit.kind = .inactiveCfgComponent ∧
        (unit.cfgState ≠ .inactive ∨ parent.cfgState ≠ .active) then throw .invalidInventory
    else return ()

def validateUnit (original : List Char) (units : List WrittenUnit) (entry : WrittenUnit × Nat) :
    Except SourceError Unit :=
  let unit := entry.1
  if unit.id.index ≠ entry.2 ∨ unit.fullRange.stop < unit.fullRange.start ∨
      utf8Len original < unit.fullRange.stop ∨ !isCharBoundary original unit.fullRange.start ∨
      !isCharBoundary original unit.fullRange.stop then throw .invalidInventory
  else
    match unit.parent with
    | none => return ()
    | some parent => validateParent units unit parent

def validateUnits (original : List Char) (units : List WrittenUnit) : Except SourceError Unit :=
  if u32Size ≤ utf8Len original then throw .sourceTooLarge
  else
    match units.filter fun unit => unit.parent.isNone with
    | [root] =>
      if root.kind ≠ .crateRoot ∨ root.fullRange ≠ ⟨0, utf8Len original⟩ then
        throw .invalidInventory
      else do
        units.zipIdx.forM (validateUnit original units)
        let _ ← unitDepths units
        return ()
    | _ => throw .invalidInventory

def validatePiece (original : List Char) (units : List WrittenUnit) (cursor : Nat)
    (piece : OwnedPiece) : Except SourceError Nat :=
  if piece.range.start ≠ cursor ∨ piece.range.stop ≤ piece.range.start ∨
      utf8Len original < piece.range.stop ∨ !isCharBoundary original piece.range.start ∨
      !isCharBoundary original piece.range.stop ∨
      !(units[piece.owner.index]?.any fun owner => owner.fullRange.contains piece.range) then
    throw .invalidInventory
  else return piece.range.stop

def validateInventory (original : List Char) (units : List WrittenUnit)
    (pieces : List OwnedPiece) : Except SourceError Unit := do
  validateUnits original units
  let cursor ← pieces.foldlM (validatePiece original units) 0
  if cursor ≠ utf8Len original then throw .invalidInventory else return ()

/-! ## Derives -/

namespace DeriveTargetSourceFacts

def target : DeriveTargetSourceFacts → SourceUnitId
  | opaqueTarget target .. => target
  | complete target .. => target

def attributes : DeriveTargetSourceFacts → List DeriveAttributeSourceFacts
  | opaqueTarget _ attributes .. => attributes
  | complete _ attributes .. => attributes

def helperCandidates : DeriveTargetSourceFacts → List ByteRange
  | opaqueTarget _ _ candidates => candidates
  | complete _ _ candidates .. => candidates

end DeriveTargetSourceFacts

/-- Ranges share a byte. -/
def ByteRange.overlaps (r other : ByteRange) : Bool := r.start < other.stop && other.start < r.stop

/-- The only one of the shortest active units with a property. -/
def smallestUniqueActiveUnit (units : List WrittenUnit) (p : WrittenUnit → Bool) :
    Except SourceError WrittenUnit :=
  let candidates := units.filter fun unit => unit.cfgState = .active && p unit
  match (candidates.map fun unit => unit.fullRange.len).min? with
  | none => throw .incompleteAttributeObservation
  | some smallest =>
    match candidates.filter fun unit => unit.fullRange.len = smallest with
    | [unit] => return unit
    | _ => throw .incompleteAttributeObservation

def deriveHelperOwner (units : List WrittenUnit) (deriveTarget : SourceUnitId)
    (helperRange : ByteRange) (helper : Option SourceUnitId) : Except SourceError SourceUnitId :=
  match units[deriveTarget.index]?.filter fun unit =>
      unit.id = deriveTarget && unit.cfgState = .active with
  | none => throw .invalidInventory
  | some target => do
    let owner ← smallestUniqueActiveUnit units fun unit =>
      some unit.id ≠ helper && target.fullRange.contains unit.fullRange &&
        unit.fullRange.contains helperRange
    return owner.id

/-- The units that have been seen in the facts about derives. -/
structure DeriveUnitsSeen where
  attributesSeen : Finset SourceUnitId
  elementsSeen : Finset SourceUnitId
  helperAttributes : Finset SourceUnitId

/-- What has been seen of one derive target. -/
structure DeriveTargetSeen where
  seen : DeriveUnitsSeen
  previousAttribute : Option ByteRange
  refinedGroups : Finset AtomicGroupId
  targetElements : Finset SourceUnitId

section

variable (units : List WrittenUnit)

/-- One element of a derive list, behind the previous one. -/
def validateDeriveElement (target attribute' : WrittenUnit)
    (state : DeriveTargetSeen × Option ByteRange) (elementId : SourceUnitId) :
    Except SourceError (DeriveTargetSeen × Option ByteRange) :=
  match units[elementId.index]? with
  | none => throw .invalidInventory
  | some element =>
    if element.kind ≠ .macroInvocation ∨ element.parent ≠ some attribute'.id ∨
        element.cfgState ≠ target.cfgState ∨ element.fullRange.isEmpty = true ∨
        element.id ∈ state.1.seen.elementsSeen ∨ element.id ∈ state.1.targetElements ∨
        (state.2.any fun previous => element.fullRange.start < previous.stop) = true then
      throw .invalidInventory
    else return (
      { state.1 with
        seen := { state.1.seen with
          elementsSeen := insert element.id state.1.seen.elementsSeen }
        targetElements := insert element.id state.1.targetElements },
      some element.fullRange)

/-- A refined unit has an atomic group of its own. -/
def refineGroup (groups : Finset AtomicGroupId) (unit : WrittenUnit) :
    Except SourceError (Finset AtomicGroupId) :=
  if unit.atomicGroup ∈ groups then throw .invalidInventory
  else return insert unit.atomicGroup groups

def validateDeriveAttribute (facts : DeriveTargetSourceFacts) (target : WrittenUnit)
    (state : DeriveTargetSeen) (attributeFacts : DeriveAttributeSourceFacts) :
    Except SourceError DeriveTargetSeen :=
  match units[attributeFacts.attr.index]? with
  | none => throw .invalidInventory
  | some attribute' =>
    if attribute'.kind ≠ .macroInvocation ∨ attribute'.parent ≠ some target.id ∨
        attribute'.cfgState ≠ target.cfgState ∨ attribute'.id ∈ state.seen.attributesSeen ∨
        (state.previousAttribute.any fun previous =>
          attribute'.fullRange.start < previous.stop) = true ∨
        (!attributeFacts.directlyWritten && !attributeFacts.elements.isEmpty) = true then
      throw .invalidInventory
    else if facts.helperCandidates.any fun candidate =>
        candidate.overlaps attribute'.fullRange then throw .invalidInventory
    else do
      let state : DeriveTargetSeen := { state with
        seen := { state.seen with attributesSeen := insert attribute'.id state.seen.attributesSeen }
        previousAttribute := some attribute'.fullRange }
      let (state, _) ← attributeFacts.elements.foldlM
        (validateDeriveElement units target attribute') (state, none)
      let elements := attributeFacts.elements.filterMap fun element => units[element.index]?
      match facts with
      | .opaqueTarget .. =>
        if attribute'.atomicGroup ≠ target.atomicGroup ∨
            (elements.any fun element => element.atomicGroup ≠ target.atomicGroup) = true then
          throw .invalidInventory
        else return state
      | .complete .. =>
        if target.cfgState ≠ .active ∨ !attributeFacts.directlyWritten then
          throw .invalidInventory
        else
          let groups ← (attribute' :: elements).foldlM refineGroup state.refinedGroups
          return { state with refinedGroups := groups }

def validateDeriveHelper (facts : DeriveTargetSourceFacts) (target : WrittenUnit)
    (targetElements : Finset SourceUnitId) (seen : DeriveUnitsSeen)
    (helper : DeriveHelperSourceFacts) : Except SourceError DeriveUnitsSeen :=
  match units[helper.attr.index]?.filter fun unit => unit.id = helper.attr with
  | none => throw .invalidInventory
  | some attribute' =>
    match deriveHelperOwner units target.id attribute'.fullRange (some attribute'.id) with
    | .error _ => throw .invalidInventory
    | .ok owner =>
      if helper.provider ∉ targetElements ∨ attribute'.kind ≠ .macroInvocation ∨
          attribute'.parent ≠ some owner ∨ attribute'.cfgState ≠ .active ∨
          some attribute'.atomicGroup = units[owner.index]?.map WrittenUnit.atomicGroup ∨
          target.fullRange.contains attribute'.fullRange = false ∨
          facts.helperCandidates.contains attribute'.fullRange = false ∨
          attribute'.id ∈ seen.helperAttributes then throw .invalidInventory
      else return { seen with helperAttributes := insert attribute'.id seen.helperAttributes }

/-- The requirements of a derive target ascend strictly. -/
def strictlySorted {α : Type} (key : α → Nat × Nat) (facts : List α) : Bool :=
  (neighbours facts).all fun pair => toLex (key pair.1) < toLex (key pair.2)

def validateDeriveTarget (seen : DeriveUnitsSeen) (facts : DeriveTargetSourceFacts) :
    Except SourceError DeriveUnitsSeen :=
  match units[facts.target.index]?.filter fun unit => unit.id = facts.target with
  | none => throw .invalidInventory
  | some target =>
    if (!(target.kind = .item || target.kind = .nestedItem || target.kind = .inlineModule ||
          target.kind = .macroInvocation) || facts.attributes.isEmpty ||
        ((neighbours facts.helperCandidates).any fun pair => pair.2 ≤ pair.1) ||
        facts.helperCandidates.any fun candidate =>
          candidate.isEmpty || !target.fullRange.contains candidate) = true then
      throw .invalidInventory
    else do
      let state ← facts.attributes.foldlM (validateDeriveAttribute units facts target)
        ⟨seen, none, {target.atomicGroup}, ∅⟩
      match facts with
      | .opaqueTarget .. => return state.seen
      | .complete _ _ _ influences helpers =>
        if (!strictlySorted (fun r : DeriveSourceRequirement => (r.trigger.index, r.required.index))
              influences ||
            !strictlySorted (fun h : DeriveHelperSourceFacts => (h.attr.index, h.provider.index))
              helpers ||
            influences.any fun requirement =>
              decide (requirement.trigger ∉ state.targetElements) ||
                decide (requirement.required ∉ state.targetElements)) = true then
          throw .invalidInventory
        else
          helpers.foldlM (validateDeriveHelper units facts target state.targetElements) state.seen

def validateDeriveTargetFacts (deriveTargets : List DeriveTargetSourceFacts) :
    Except SourceError Unit :=
  if (neighbours deriveTargets).any fun pair => pair.2.target ≤ pair.1.target then
    throw .invalidInventory
  else do
    let _ ← deriveTargets.foldlM (validateDeriveTarget units) ⟨∅, ∅, ∅⟩
    return ()

/-! ## Declarative macros -/

def MacroRuleSourceFacts.definition : MacroRuleSourceFacts → SourceUnitId
  | whole definition => definition
  | refined definition .. => definition

/-- One rule of a refined macro definition. -/
def classifyRule (definition : WrittenUnit) (classified : Finset SourceUnitId)
    (rule : SourceUnitId) : Except SourceError (Finset SourceUnitId) :=
  match units[rule.index]? with
  | none => throw .invalidInventory
  | some unit =>
    if unit.kind ≠ .macroRule ∨ unit.cfgState ≠ .active ∨ unit.parent ≠ some definition.id ∨
        rule ∈ classified then throw .invalidInventory
    else return insert rule classified

/-- The definitions and the rules that have been seen. -/
def validateMacroRules (seen : Finset SourceUnitId × Finset SourceUnitId)
    (facts : MacroRuleSourceFacts) :
    Except SourceError (Finset SourceUnitId × Finset SourceUnitId) :=
  match units[facts.definition.index]? with
  | none => throw .invalidInventory
  | some definition =>
    if definition.kind ≠ .macroDefinition ∨ definition.cfgState ≠ .active ∨
        definition.id ∈ seen.1 then throw .invalidInventory
    else
      match facts with
      | .whole _ => return (insert definition.id seen.1, seen.2)
      | .refined _ rules observedSelections =>
        if rules.isEmpty = true ∨ rules.toFinset.card ≠ rules.length ∨
            ¬observedSelections.toFinset ⊆ rules.toFinset ∨
            ((neighbours observedSelections).any fun pair => pair.2 < pair.1) = true then
          throw .invalidInventory
        else do
          let classified ← (sortDedup rules).foldlM (classifyRule units definition) seen.2
          return (insert definition.id seen.1, classified)

def validateMacroRuleFacts (macroRules : List MacroRuleSourceFacts) : Except SourceError Unit := do
  let seen ← macroRules.foldlM (validateMacroRules units) (∅, ∅)
  let expected := (units.filter fun unit => unit.kind = .macroRule).map WrittenUnit.id
  let expectedDefinitions := (units.filter fun unit =>
    unit.kind = .macroDefinition && unit.cfgState = .active).map WrittenUnit.id
  if seen.2 ≠ expected.toFinset then throw .invalidInventory
  else if seen.1 ≠ expectedDefinitions.toFinset then throw .invalidInventory
  else return ()

/-! ## Attributes without an owner -/

/-- The target of an attribute invocation, unless it is another invocation. -/
def ownerlessAttributeTarget (invocationId : SourceUnitId) :
    Except SourceError (Option (SourceUnitId × SourceUnitId)) :=
  match units[invocationId.index]? with
  | none => throw .invalidInventory
  | some invocation =>
    match invocation.parent with
    | none => throw .invalidInventory
    | some targetId =>
      match units[targetId.index]? with
      | none => throw .invalidInventory
      | some target =>
        if invocation.kind ≠ .macroInvocation ∨ invocation.cfgState ≠ .active ∨
            invocation.parent ≠ some target.id ∨ invocation.atomicGroup ≠ target.atomicGroup ∨
            target.cfgState ≠ .active ∨
            (target.kind ≠ .macroInvocation ∧ target.kind ≠ .item ∧ target.kind ≠ .nestedItem ∧
              target.kind ≠ .inlineModule) then throw .invalidInventory
        else if target.kind = .macroInvocation then return none
        else return some (target.id, invocation.id)

def validateOwnerlessAttributeInvocations (invocations : List SourceUnitId) :
    Except SourceError Unit :=
  if (neighbours invocations).any fun pair => pair.2 ≤ pair.1 then throw .invalidInventory
  else do
    let found ← invocations.mapM (ownerlessAttributeTarget units)
    let targets := found.filterMap id
    if targets.any fun entry =>
        let allowed := valuesAt targets entry.1
        units.any fun unit => unit.parent = some entry.1 && !allowed.contains unit.id ||
          unit.parent.any allowed.contains then throw .invalidInventory
    else return ()

end

end ItemDependencies
