import ItemDependencies.Source.TupleLists

/-!
# The elements of a tuple expression

The walk over the source files an inactive element of a list as a unit that takes
the comma behind it along.  The elements of a tuple are observed one by one, and
when all of them are known the tuple may have to keep one more of them.
-/

namespace ItemDependencies

/-- A unit that has been found. -/
structure PendingUnit where
  temporaryId : Nat
  kind : WrittenUnitKind
  fullRange : ByteRange
  parent : Option Nat
  cfgState : CfgState
  atomicRepresentative : Nat
  syntaxOrdinal : Nat
deriving DecidableEq

structure CfgComponentObservation where
  sourceRange : ByteRange
  active : Bool
  component : Option Nat
deriving DecidableEq

structure PendingTupleElement where
  sourceRange : ByteRange
  observation : Option CfgComponentObservation
deriving DecidableEq

structure PendingTupleLayout where
  parentAtomicRepresentative : Nat
  elements : List PendingTupleElement
deriving DecidableEq

namespace PendingTupleLayout

/-- The elements of a tuple with a range. -/
def positions (tuple : PendingTupleLayout) (range : ByteRange) : List Nat :=
  (List.range tuple.elements.length).filter fun index =>
    (tuple.elements[index]?.map PendingTupleElement.sourceRange) = some range

def observe (tuple : PendingTupleLayout) (index : Nat)
    (observation : CfgComponentObservation) : PendingTupleLayout :=
  { tuple with
    elements := tuple.elements.modify index fun element =>
      { element with observation := some observation } }

def activePositions (tuple : PendingTupleLayout) : List Nat :=
  (List.range tuple.elements.length).filter fun index =>
    (tuple.elements[index]?.bind PendingTupleElement.observation).any CfgComponentObservation.active

/-- The unit of an element, if it is known to be inactive. -/
def inactiveComponent (tuple : PendingTupleLayout) (index : Nat) : Option Nat :=
  ((tuple.elements[index]?.bind PendingTupleElement.observation).filter fun observation =>
    !observation.active).bind CfgComponentObservation.component

end PendingTupleLayout

/-- What the walk has found.  The innermost entries of the stacks come first. -/
structure UnitCollector where
  sourceTokens : List SourceToken
  tupleStack : List PendingTupleLayout
  units : List PendingUnit
  parentStack : List Nat
  activeStack : List Bool
  nextSyntaxOrdinal : Nat
  error : Option SourceError
deriving DecidableEq

inductive InactiveComponentLayout where
  | standalone
  | commaSeparated
deriving DecidableEq

/-- Each unit goes with one that has been found, and so does each parent. -/
structure UnitCollector.Numbered (c : UnitCollector) : Prop where
  representatives : ∀ unit ∈ c.units, unit.atomicRepresentative < c.units.length
  parents : ∀ parent ∈ c.parentStack, parent < c.units.length

/-- What is found at one place of the source: units, such as those of macro calls and of attributes
without an effect, or an error. -/
structure Recording where
  run : UnitCollector → UnitCollector
  sourceTokens : ∀ c, (run c).sourceTokens = c.sourceTokens
  tupleStack : ∀ c, (run c).tupleStack = c.tupleStack
  parentStack : ∀ c, (run c).parentStack = c.parentStack
  activeStack : ∀ c, (run c).activeStack = c.activeStack
  units : ∀ c, c.units <+: (run c).units
  numbered : ∀ c, c.Numbered → (run c).Numbered

def Recording.nothing : Recording where
  run c := c
  sourceTokens _ := rfl
  tupleStack _ := rfl
  parentStack _ := rfl
  activeStack _ := rfl
  units _ := List.prefix_rfl
  numbered _ h := h

/-- A node of the syntax tree that may have attributes: its range with them, whether one of them is
`cfg` or `cfg_attr`, whether the compiler keeps the node, and what is recorded for the attributes
and for the node itself. -/
structure CfgNode where
  sourceRange : Except SourceError ByteRange
  hasCfg : Bool
  configured : Bool
  recordAttributes : Recording
  record : Recording

/-- How the walk visits a node: as an expression, perhaps a tuple; as another part of the syntax
that may be inactive, like a statement or a parameter; as an item with a unit of its own; as a scope
for what is active; or only for what is inside. -/
inductive VisitKind where
  | expression (isTuple : Bool)
  | component (layout : InactiveComponentLayout)
  | item (kind : WrittenUnitKind)
  | scope
  | inside

/-- A node with what the walk visits in its attributes and behind them. -/
inductive SyntaxNode where
  | mk (node : CfgNode) (kind : VisitKind) (attributes children : List SyntaxNode)

namespace SyntaxNode

def node : SyntaxNode → CfgNode
  | mk node _ _ _ => node

def ownRanges : VisitKind → Except SourceError ByteRange → List ByteRange
  | .expression _, .ok range => [range]
  | _, _ => []

mutual

/-- The ranges of the expressions of a tree. -/
def expressionRanges : SyntaxNode → List ByteRange
  | mk node kind attributes children => ownRanges kind node.sourceRange ++
      (expressionRangesAll attributes ++ expressionRangesAll children)

def expressionRangesAll : List SyntaxNode → List ByteRange
  | [] => []
  | node :: nodes => expressionRanges node ++ expressionRangesAll nodes

end

end SyntaxNode

namespace UnitCollector

/-- The crate root is at the bottom of the stack. -/
def currentParent (c : UnitCollector) : Nat := c.parentStack.headD 0

def currentActive (c : UnitCollector) : Bool := c.activeStack.headD false

/-- The first error counts. -/
def fail (c : UnitCollector) (error : SourceError) : UnitCollector :=
  { c with error := c.error.or (some error) }

/-- The first token behind a range that is not trivia. -/
def followingNontrivia (c : UnitCollector) (range : ByteRange) : Option SourceToken :=
  (c.sourceTokens.dropWhile fun token => token.range.start < range.stop).find? fun token =>
    !isTrivia token.kind

/-- A range of whole tokens, with the comma behind it. -/
def commaSeparatedRange (c : UnitCollector) (core : ByteRange) : Except SourceError ByteRange :=
  if core.isEmpty then throw .invalidInventory
  else if ((c.sourceTokens.dropWhile fun token => token.range.stop ≤ core.start).head?).any
      fun token => token.range.start < core.start then throw .invalidInventory
  else if ((c.sourceTokens.dropWhile fun token => token.range.stop ≤ core.stop).head?).any
      fun token => token.range.start < core.stop then throw .invalidInventory
  else
    match (c.followingNontrivia core).filter fun token => token.kind = .comma with
    | some comma => return ⟨core.start, comma.range.stop⟩
    | none => return core

def addUnit (c : UnitCollector) (kind : WrittenUnitKind) (range : ByteRange) (active : Bool)
    (parent : Nat) (atomicRepresentative : Option Nat) : UnitCollector :=
  { c with
    units := c.units ++ [⟨c.units.length, kind, range, some parent,
      if active then .active else .inactive, atomicRepresentative.getD c.units.length,
      c.nextSyntaxOrdinal⟩]
    nextSyntaxOrdinal := c.nextSyntaxOrdinal + 1 }

/-! ## Walking over a node -/

/-- The range of the unit of an inactive node. -/
def componentRange (c : UnitCollector) (layout : InactiveComponentLayout)
    (sourceRange : ByteRange) : Except SourceError ByteRange := do
  let range ← match layout with
    | .standalone => pure sourceRange
    | .commaSeparated => c.commaSeparatedRange sourceRange
  if (c.units[c.currentParent]?).any fun unit => unit.fullRange.contains range then return range
  else throw .invalidInventory

/-- The unit of a node that is inactive where its parent is active. -/
def addComponent (c : UnitCollector) (layout : InactiveComponentLayout)
    (sourceRange : ByteRange) : UnitCollector × Option Nat :=
  match c.componentRange layout sourceRange with
  | .ok range => (c.addUnit .inactiveCfgComponent range false c.currentParent none,
      some c.units.length)
  | .error error => (c.fail error, none)

def pushNode (c : UnitCollector) (active : Bool) (component : Option Nat) : UnitCollector :=
  { c with
    parentStack := component.toList ++ c.parentStack
    activeStack := active :: c.activeStack }

def popNode (c : UnitCollector) (component : Option Nat) : UnitCollector :=
  { c with
    parentStack := c.parentStack.drop component.toList.length
    activeStack := c.activeStack.tail }

def walkCfgComponent (c : UnitCollector) (node : CfgNode) (layout : InactiveComponentLayout)
    (walk : CfgComponentObservation → UnitCollector → UnitCollector) : UnitCollector :=
  match node.sourceRange with
  | .error error => c.fail error
  | .ok sourceRange =>
    let active := c.currentActive && node.configured
    let found := if c.currentActive && !active then c.addComponent layout sourceRange else (c, none)
    let pushed := found.1.pushNode active found.2
    let recorded := if active then node.recordAttributes.run pushed else pushed
    (walk ⟨sourceRange, active, found.2⟩ recorded).popNode found.2

/-! ## Tuples -/

def pendingElements : List CfgNode → Except SourceError (List PendingTupleElement) :=
  List.mapM fun node => node.sourceRange.map fun sourceRange => ⟨sourceRange, none⟩

/-- Begin with a tuple, if one of its elements may be inactive. -/
def beginTupleLayout (c : UnitCollector) (elements : List CfgNode) : UnitCollector × Bool :=
  if elements.length < 2 ∨ ¬elements.any CfgNode.hasCfg then (c, false)
  else
    match pendingElements elements, c.units[c.currentParent]? with
    | .ok pending, some parent =>
      ({ c with tupleStack := ⟨parent.atomicRepresentative, pending⟩ :: c.tupleStack }, true)
    | .error error, _ => (c.fail error, false)
    | _, none => (c, false)

/-- Note an observation at the element of the innermost tuple that has its range. -/
def recordTupleElement (c : UnitCollector) (observation : CfgComponentObservation) :
    UnitCollector :=
  match c.tupleStack with
  | [] => c
  | tuple :: stack =>
    match tuple.positions observation.sourceRange with
    | [] => c
    | [index] =>
      let observed := { c with tupleStack := tuple.observe index observation :: stack }
      if (tuple.elements[index]?.bind PendingTupleElement.observation).isSome then
        observed.fail .invalidInventory
      else observed
    | _ => c.fail .invalidInventory

/-- A tuple without a comma behind its last element that has no other active element keeps the
element before it as well, since a comma must stay. -/
def tiedComponent (c : UnitCollector) (tuple : PendingTupleLayout) :
    Except SourceError (Option Nat) :=
  match tuple.activePositions with
  | [active] =>
    if active + 1 ≠ tuple.elements.length ∨
        ((tuple.elements[active]?.bind fun element => c.followingNontrivia element.sourceRange).any
          fun token => token.kind = .comma) then return none
    else if active = 0 then return none
    else
      match tuple.inactiveComponent (active - 1) with
      | some component => return some component
      | none => throw .invalidInventory
  | _ => return none

/-- Units that went with a component, if there is one, go with the parent of its tuple. -/
def tie (c : UnitCollector) (component : Option Nat) (parentRepresentative : Nat) : UnitCollector :=
  match component.bind fun component => c.units[component]? with
  | none => c
  | some unit =>
    { c with
      units := c.units.map fun other =>
        if other.atomicRepresentative = unit.atomicRepresentative then
          { other with atomicRepresentative := parentRepresentative }
        else other }

def finishTupleLayout (c : UnitCollector) : UnitCollector :=
  match c.tupleStack with
  | [] => c.fail .invalidInventory
  | tuple :: stack =>
    let popped := { c with tupleStack := stack }
    if tuple.elements.any fun element => element.observation.isNone then
      popped.fail .invalidInventory
    else
      match popped.tiedComponent tuple with
      | .error error => popped.fail error
      | .ok tied => popped.tie tied tuple.parentAtomicRepresentative

/-! ## The walk -/

mutual

def visit (c : UnitCollector) : SyntaxNode → UnitCollector
  | .mk node (.expression isTuple) attributes children =>
    c.walkCfgComponent node .commaSeparated fun observation recorded =>
      let found := node.record.run (recorded.recordTupleElement observation)
      let begun := if isTuple && found.currentActive then
        found.beginTupleLayout (children.map SyntaxNode.node) else (found, false)
      let walked := visitAll (visitAll begun.1 attributes) children
      if begun.2 then walked.finishTupleLayout else walked
  | .mk node (.component layout) attributes children =>
    c.walkCfgComponent node layout fun _ recorded =>
      visitAll (visitAll (node.record.run recorded) attributes) children
  | .mk node (.item kind) attributes children =>
    match node.sourceRange with
    | .error error => c.fail error
    | .ok range =>
      let active := c.currentActive && node.configured
      let found := node.record.run (c.addUnit kind range active c.currentParent none)
      let pushed := found.pushNode active (some c.units.length)
      let recorded := if active then node.recordAttributes.run pushed else pushed
      (visitAll (visitAll recorded attributes) children).popNode (some c.units.length)
  | .mk node .scope attributes children =>
    let active := c.currentActive && node.configured
    let pushed := c.pushNode active none
    let recorded := if active then node.recordAttributes.run pushed else pushed
    (visitAll (visitAll recorded attributes) children).popNode none
  | .mk node .inside attributes children =>
    visitAll (visitAll (node.record.run c) attributes) children

def visitAll (c : UnitCollector) : List SyntaxNode → UnitCollector
  | [] => c
  | node :: nodes => visitAll (visit c node) nodes

end

/-- A tuple expression, up to the end of its last element. -/
def walkTuple (c : UnitCollector) (attributes elements : List SyntaxNode) : UnitCollector × Bool :=
  let begun := if c.currentActive then c.beginTupleLayout (elements.map SyntaxNode.node)
    else (c, false)
  (visitAll (visitAll begun.1 attributes) elements, begun.2)

/-- A tuple expression. -/
def visitTuple (c : UnitCollector) (attributes elements : List SyntaxNode) : UnitCollector :=
  let walked := c.walkTuple attributes elements
  if walked.2 then walked.1.finishTupleLayout else walked.1

/-- What the walk does inside an expression. -/
def visitExpression (c : UnitCollector) (isTuple : Bool) (attributes children : List SyntaxNode) :
    UnitCollector :=
  if isTuple then c.visitTuple attributes children else visitAll (visitAll c attributes) children

theorem visit_expression (c : UnitCollector) (node : CfgNode) (isTuple : Bool)
    (attributes children : List SyntaxNode) :
    c.visit (.mk node (.expression isTuple) attributes children) =
      c.walkCfgComponent node .commaSeparated fun observation recorded =>
        (node.record.run (recorded.recordTupleElement observation)).visitExpression isTuple
          attributes children := by
  rw [visit]
  cases isTuple <;> rfl

end UnitCollector

end ItemDependencies
