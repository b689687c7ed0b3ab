import ItemDependencies.Expansion.SourceAncestry
import ItemDependencies.Library.RangeTree
import ItemDependencies.Library.StackSearch
import ItemDependencies.Library.StoreRuns

/-!
# Persistent frontier sets

Frontiers are kept as sets of the positions that the units of a source have in preorder.  A set is a
binary tree over the positions, and equal trees are stored once, so that an identifier tells sets
apart and a frontier shares what it has in common with others.
-/

namespace ItemDependencies

open Library

structure PersistentFrontierSetId where
  index : Nat

instance : LinearOrder PersistentFrontierSetId :=
  LinearOrder.lift' PersistentFrontierSetId.index fun a b h => by
    cases a
    cases b
    simpa using h

structure PersistentFrontierSetNode where
  height : Nat
  left : PersistentFrontierSetId
  right : PersistentFrontierSetId
  count : Nat
  first : Nat

structure PersistentFrontierSets where
  sourceCount : Nat
  height : Nat
  nodes : List PersistentFrontierSetNode
  canonical : SortedMap (Nat ×ₗ PersistentFrontierSetId ×ₗ PersistentFrontierSetId)
    PersistentFrontierSetId
  unions : SortedMap (PersistentFrontierSetId ×ₗ PersistentFrontierSetId) PersistentFrontierSetId

namespace SourceAncestryIndex

def interval (index : SourceAncestryIndex) (unit : SourceUnitId) :
    Except ExpansionError (Nat × Nat) := do
  let position ← index.position unit
  return (index.entryAt position, index.exitAt position)

def unitAtEntry (index : SourceAncestryIndex) (entry : Nat) : Except ExpansionError SourceUnitId :=
  match index.byEntry[entry]? with
  | none => .error .incompleteOrigin
  | some unit => .ok unit

end SourceAncestryIndex

/-- A method of the store. -/
abbrev FrontierStore (α : Type) := Store PersistentFrontierSets ExpansionError α

namespace PersistentFrontierSets

/-- The empty set, at every height. -/
def emptyId : PersistentFrontierSetId := ⟨0⟩

/-- The position of a leaf. -/
def leafId : PersistentFrontierSetId := ⟨1⟩

/-- The height is the number of trailing zeros of the number of leaves, which is a power of two. -/
def new (sourceCount : Nat) : Except ExpansionError PersistentFrontierSets :=
  let leafCount := nextPowerOfTwo sourceCount
  if u64Size ≤ leafCount then .error .incompleteOrigin
  else .ok {
    sourceCount := sourceCount
    height := Nat.log2 (max leafCount 1)
    nodes := []
    canonical := .empty
    unions := .empty }

/-! ## Nodes -/

section Reading

variable (sets : PersistentFrontierSets)

/-- The first two identifiers have no node. -/
def nodeAt (id : PersistentFrontierSetId) : Option PersistentFrontierSetNode :=
  if id.index < 2 then none else sets.nodes[id.index - 2]?

def node (id : PersistentFrontierSetId) (height : Nat) :
    Except ExpansionError PersistentFrontierSetNode :=
  match (sets.nodeAt id).filter fun node => node.height = height with
  | none => .error .incompleteOrigin
  | some node => .ok node

def children (id : PersistentFrontierSetId) (height : Nat) :
    Except ExpansionError (PersistentFrontierSetId × PersistentFrontierSetId) :=
  if height = 0 ∨ id = leafId then .error .incompleteOrigin
  else if id = emptyId then .ok (emptyId, emptyId)
  else (sets.node id height).map fun node => (node.left, node.right)

def count (id : PersistentFrontierSetId) : Except ExpansionError Nat :=
  if id = emptyId then .ok 0
  else if id = leafId then .ok 1
  else
    match sets.nodeAt id with
    | none => .error .incompleteOrigin
    | some node => .ok node.count

def first (id : PersistentFrontierSetId) (height : Nat) : Except ExpansionError Nat :=
  if id = emptyId then .error .incompleteOrigin
  else if id = leafId then if height = 0 then .ok 0 else .error .incompleteOrigin
  else (sets.node id height).map PersistentFrontierSetNode.first

/-- The first position of the left half, or else of the right half behind the left one. -/
def branchFirst (height : Nat) (left right : PersistentFrontierSetId) : Except ExpansionError Nat :=
  if left ≠ emptyId then sets.first left (height - 1)
  else do
    let first ← sets.first right (height - 1)
    if u64Size ≤ 2 ^ (height - 1) + first then throw .incompleteOrigin
    else return 2 ^ (height - 1) + first

def newNode (height : Nat) (left right : PersistentFrontierSetId) :
    Except ExpansionError PersistentFrontierSetNode := do
  let leftCount ← sets.count left
  let rightCount ← sets.count right
  if u64Size ≤ leftCount + rightCount then throw .incompleteOrigin
  else do
    let first ← sets.branchFirst height left right
    return ⟨height, left, right, leftCount + rightCount, first⟩

def nextId : Except ExpansionError PersistentFrontierSetId :=
  if u32Size ≤ sets.nodes.length + 2 then .error .incompleteOrigin
  else .ok ⟨sets.nodes.length + 2⟩

def canonicalKey (height : Nat) (left right : PersistentFrontierSetId) :
    Nat ×ₗ PersistentFrontierSetId ×ₗ PersistentFrontierSetId :=
  toLex (height, toLex (left, right))

def push (node : PersistentFrontierSetNode) (id : PersistentFrontierSetId) :
    PersistentFrontierSets :=
  { sets with
    nodes := sets.nodes ++ [node]
    canonical := sets.canonical.insert (canonicalKey node.height node.left node.right) id }

end Reading

/-- A node that is not there yet. -/
def branchNew (height : Nat) (left right : PersistentFrontierSetId) :
    FrontierStore PersistentFrontierSetId := do
  let node ← Store.reading fun sets => sets.newNode height left right
  let id ← Store.reading nextId
  Store.changing fun sets => sets.push node id
  return id

def branch (height : Nat) (left right : PersistentFrontierSetId) :
    FrontierStore PersistentFrontierSetId :=
  if height = 0 then Store.fail .incompleteOrigin
  else if left = emptyId ∧ right = emptyId then return emptyId
  else do
    let known ← Store.reading fun sets => .ok (sets.canonical.get (canonicalKey height left right))
    match known with
    | some id => return id
    | none => branchNew height left right

/-! ## Queries -/

section Queries

variable (sets : PersistentFrontierSets)

/-- An identifier with its height and the positions from which and up to which it stands. -/
abbrev RangeItem := PersistentFrontierSetId × Nat × Nat × Nat

def visitRange (start stop : Nat) (item : RangeItem) :
    Except ExpansionError (Visit RangeItem Unit) :=
  let (current, height, nodeStart, nodeStop) := item
  if current = emptyId ∨ nodeStop ≤ start ∨ stop ≤ nodeStart then .ok .skip
  else if start ≤ nodeStart ∧ nodeStop ≤ stop then .ok (.answer ())
  else if height = 0 then
    if current ≠ leafId then .error .incompleteOrigin else .ok (.answer ())
  else (sets.children current height).map fun children =>
    let middle := nodeStart + 2 ^ (height - 1)
    .push [(children.1, height - 1, nodeStart, middle), (children.2, height - 1, middle, nodeStop)]

def containsInRange (root : PersistentFrontierSetId) (start stop : Nat) :
    Except ExpansionError Bool :=
  if stop ≤ start ∨ sets.sourceCount < stop then .error .incompleteOrigin
  else
    (searchStack (sets.visitRange start stop) (2 ^ (sets.height + 1))
      [(root, sets.height, 0, 2 ^ sets.height)]).map Option.isSome

/-- An identifier with its height and the position from which it stands. -/
abbrev StartItem := PersistentFrontierSetId × Nat × Nat

def visitBefore (before : Nat) (item : StartItem) : Except ExpansionError (Visit StartItem Nat) :=
  let (current, height, start) := item
  if current = emptyId ∨ before ≤ start then .ok .skip
  else if height = 0 then
    if current ≠ leafId ∨ sets.sourceCount ≤ start then .error .incompleteOrigin
    else .ok (.answer start)
  else (sets.children current height).map fun children =>
    .push [(children.2, height - 1, start + 2 ^ (height - 1)), (children.1, height - 1, start)]

def predecessor (root : PersistentFrontierSetId) (before : Nat) :
    Except ExpansionError (Option Nat) :=
  if before = 0 ∨ root = emptyId then .ok none
  else searchStack (sets.visitBefore before) (2 ^ (sets.height + 1)) [(root, sets.height, 0)]

def visitMember (ancestry : SourceAncestryIndex) (item : StartItem) :
    Except ExpansionError (Visit StartItem SourceUnitId) :=
  let (current, height, start) := item
  if current = emptyId then .ok .skip
  else do
    let count ← sets.count current
    if count = 1 then do
      let first ← sets.first current height
      if u64Size ≤ start + first ∨ sets.sourceCount ≤ start + first then throw .incompleteOrigin
      else (ancestry.unitAtEntry (start + first)).map .answer
    else if height = 0 then
      if current ≠ leafId ∨ sets.sourceCount ≤ start then throw .incompleteOrigin
      else (ancestry.unitAtEntry start).map .answer
    else (sets.children current height).map fun children =>
      .push [(children.1, height - 1, start), (children.2, height - 1, start + 2 ^ (height - 1))]

def enumerate (ancestry : SourceAncestryIndex) (root : PersistentFrontierSetId) :
    Except ExpansionError (List SourceUnitId) := do
  let _ ← sets.count root
  collectStack (sets.visitMember ancestry) (2 ^ (sets.height + 1)) [(root, sets.height, 0)] []

end Queries

/-! ## Changes -/

/-- A step down the tree: the height, whether it went right, and the half beside it. -/
abbrev PathStep := Nat × Bool × PersistentFrontierSetId

/-- Go down to a position, the last step first. -/
def descend (sets : PersistentFrontierSets) (position : Nat) :
    Nat → PersistentFrontierSetId → List PathStep →
      Except ExpansionError (PersistentFrontierSetId × List PathStep)
  | 0, current, path => .ok (current, path)
  | below + 1, current, path => do
    let children ← sets.children current (below + 1)
    if position.testBit below then
      descend sets position below children.2 ((below + 1, true, children.1) :: path)
    else descend sets position below children.1 ((below + 1, false, children.2) :: path)

def pathTo (sets : PersistentFrontierSets) (root : PersistentFrontierSetId) (position : Nat) :
    Except ExpansionError (List PathStep) :=
  if sets.sourceCount ≤ position then .error .incompleteOrigin
  else do
    let reached ← sets.descend position sets.height root []
    if reached.1 ≠ emptyId ∧ reached.1 ≠ leafId then throw .incompleteOrigin
    else return reached.2

/-- Go up again with another half. -/
def ascend (result : PersistentFrontierSetId) (step : PathStep) :
    FrontierStore PersistentFrontierSetId :=
  let (height, wentRight, sibling) := step
  if wentRight then branch height sibling result else branch height result sibling

def setPosition (root : PersistentFrontierSetId) (position : Nat) (present : Bool) :
    FrontierStore PersistentFrontierSetId := do
  let path ← Store.reading fun sets => sets.pathTo root position
  path.foldlM ascend (if present then leafId else emptyId)

/-- The set without the ancestor of the source, if it has one. -/
def withoutAncestor (ancestry : SourceAncestryIndex) (root : PersistentFrontierSetId)
    (source : SourceUnitId) (entry : Nat) : FrontierStore PersistentFrontierSetId := do
  let found ← Store.reading fun sets => sets.predecessor root entry
  match found with
  | none => return root
  | some ancestorEntry => do
    let ancestor ← Store.reading fun _ => ancestry.unitAtEntry ancestorEntry
    let above ← Store.reading fun _ => ancestry.isAncestor ancestor source
    if above then setPosition root ancestorEntry false else return root

def insertSource (ancestry : SourceAncestryIndex) (root : PersistentFrontierSetId)
    (source : SourceUnitId) : FrontierStore PersistentFrontierSetId := do
  let interval ← Store.reading fun _ => ancestry.interval source
  let covered ← Store.reading fun sets => sets.containsInRange root interval.1 interval.2
  if covered then return root
  else do
    let result ← withoutAncestor ancestry root source interval.1
    setPosition result interval.1 true

/-- What is common to the two sets, what is only in the left one, and what is only in the right one,
where no node has to be opened to tell. -/
def partitionAlike (left right : PersistentFrontierSetId) :
    Option (PersistentFrontierSetId × PersistentFrontierSetId × PersistentFrontierSetId) :=
  if left = right then some (left, emptyId, emptyId)
  else if left = emptyId then some (emptyId, emptyId, right)
  else if right = emptyId then some (emptyId, left, emptyId)
  else none

def partitionFrontiers : Nat → PersistentFrontierSetId → PersistentFrontierSetId →
    FrontierStore (PersistentFrontierSetId × PersistentFrontierSetId × PersistentFrontierSetId)
  | 0, left, right =>
    match partitionAlike left right with
    | some parts => return parts
    | none => Store.fail .incompleteOrigin
  | below + 1, left, right =>
    match partitionAlike left right with
    | some parts => return parts
    | none => do
      let leftChildren ← Store.reading fun sets => sets.children left (below + 1)
      let rightChildren ← Store.reading fun sets => sets.children right (below + 1)
      let lower ← partitionFrontiers below leftChildren.1 rightChildren.1
      let upper ← partitionFrontiers below leftChildren.2 rightChildren.2
      let common ← branch (below + 1) lower.1 upper.1
      let leftOnly ← branch (below + 1) lower.2.1 upper.2.1
      let rightOnly ← branch (below + 1) lower.2.2 upper.2.2
      return (common, leftOnly, rightOnly)

/-- Partition two roots. -/
def partitionRoots (left right : PersistentFrontierSetId) :
    FrontierStore
      (PersistentFrontierSetId × PersistentFrontierSetId × PersistentFrontierSetId) := do
  let height ← Store.reading fun sets => .ok sets.height
  partitionFrontiers height left right

/-- The sources of the smaller difference are inserted into the other set. -/
def unionNew (ancestry : SourceAncestryIndex) (left right : PersistentFrontierSetId) :
    FrontierStore PersistentFrontierSetId := do
  let parts ← partitionRoots left right
  let leftCount ← Store.reading fun sets => sets.count parts.2.1
  let rightCount ← Store.reading fun sets => sets.count parts.2.2
  let additional := if leftCount ≤ rightCount then parts.2.1 else parts.2.2
  let sources ← Store.reading fun sets => sets.enumerate ancestry additional
  sources.foldlM (insertSource ancestry) (if leftCount ≤ rightCount then right else left)

def unionPair (left right : PersistentFrontierSetId) :
    PersistentFrontierSetId ×ₗ PersistentFrontierSetId :=
  if left < right then toLex (left, right) else toLex (right, left)

def union (ancestry : SourceAncestryIndex) (left right : PersistentFrontierSetId) :
    FrontierStore PersistentFrontierSetId :=
  if left = emptyId ∨ left = right then return right
  else if right = emptyId then return left
  else do
    let known ← Store.reading fun sets => .ok (sets.unions.get (unionPair left right))
    match known with
    | some union => return union
    | none => do
      let result ← unionNew ancestry left right
      Store.changing fun sets =>
        { sets with unions := sets.unions.insert (unionPair left right) result }
      return result

def intersection (ancestry : SourceAncestryIndex) (excluded : SourceAncestorExclusions)
    (left right : PersistentFrontierSetId) : FrontierStore PersistentFrontierSetId :=
  if left = right ∨ left = emptyId ∨ right = emptyId then
    return if left = right then left else emptyId
  else do
    let parts ← partitionRoots left right
    let leftOnly ← Store.reading fun sets => sets.enumerate ancestry parts.2.1
    let rightOnly ← Store.reading fun sets => sets.enumerate ancestry parts.2.2
    let sources ← Store.reading fun _ => ancestry.intersectFrontiers leftOnly rightOnly excluded
    sources.foldlM (insertSource ancestry) parts.1

end PersistentFrontierSets

end ItemDependencies
