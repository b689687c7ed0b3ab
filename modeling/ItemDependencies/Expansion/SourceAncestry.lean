import ItemDependencies.Expansion.OutputClasses
import ItemDependencies.Library.Lifting
import ItemDependencies.Library.Loop
import ItemDependencies.Library.Nesting
import ItemDependencies.Library.Preorder
import Mathlib.Data.List.Iterate

/-!
# Ancestry of source units

The units of a source form a forest, given by their parents.  A walk through it numbers the units in
preorder, so that the units below one have the numbers of an interval, and tables of jumps lead up
from each unit.  With them the deepest common units of two frontiers are found.
-/

namespace ItemDependencies

open Library

/-- The position of a parent in a list of parents. -/
def parentPosition (parents : List (Option SourceUnitId)) (index : Nat) : Option Nat :=
  parents[index]?.join.map SourceUnitId.index

/-- The first unit is the second one, or below it. -/
abbrev Within (parents : List (Option SourceUnitId)) (unit ancestor : SourceUnitId) : Prop :=
  Below (parentPosition parents) unit.index ancestor.index

structure SourceAncestryIndex where
  parents : List (Option SourceUnitId)
  depths : List Nat
  roots : List SourceUnitId
  entries : List Nat
  exits : List Nat
  byEntry : List SourceUnitId
  jumps : List (List SourceUnitId)

/-! ## Construction -/

/-- The entry and the exit of a unit that the walk has not reached. -/
def unsetEntry : Nat := u32Size * u32Size - 1

/-- The unit that stands where no unit is known. -/
def unsetUnit : SourceUnitId := ⟨u32Size - 1⟩

def unitId (index : Nat) : Except ExpansionError SourceUnitId :=
  if index < u32Size then .ok ⟨index⟩ else .error .incompleteOrigin

/-- The walk through one tree.  A pending unit is either to be entered or to be left. -/
structure AncestryWalk where
  depths : List Nat
  roots : List SourceUnitId
  entries : List Nat
  exits : List Nat
  nextEntry : Nat
  pending : List (Nat × Bool)

namespace AncestryWalk

def enter (children : Nat → List Nat) (root : SourceUnitId) (index : Nat)
    (rest : List (Nat × Bool)) (walk : AncestryWalk) : AncestryWalk where
  depths := (children index).foldl
    (fun depths child => depths.set child (walk.depths[index]?.getD 0 + 1)) walk.depths
  roots := walk.roots.set index root
  entries := walk.entries.set index walk.nextEntry
  exits := walk.exits
  nextEntry := walk.nextEntry + 1
  pending := (children index).map (·, false) ++ (index, true) :: rest

def step (children : Nat → List Nat) (root : SourceUnitId) (walk : AncestryWalk) :
    Except ExpansionError AncestryWalk :=
  match walk.pending with
  | [] => .ok walk
  | (index, true) :: rest =>
    .ok { walk with exits := walk.exits.set index walk.nextEntry, pending := rest }
  | (index, false) :: rest =>
    if walk.entries[index]? ≠ some unsetEntry then .error .incompleteOrigin
    else .ok (walk.enter children root index rest)

/-- Nothing is entered yet. -/
def start (count : Nat) : AncestryWalk where
  depths := List.replicate count 0
  roots := List.replicate count unsetUnit
  entries := List.replicate count unsetEntry
  exits := List.replicate count unsetEntry
  nextEntry := 0
  pending := []

end AncestryWalk

section Parents

variable (parents : List (Option SourceUnitId))

def validParents : Bool :=
  parents.zipIdx.all fun entry =>
    entry.1.all fun parent => parent.index < parents.length && parent.index ≠ entry.2

def unitChildren (index : Nat) : List Nat :=
  (List.range parents.length).filter fun child => parentPosition parents child = some index

def forestRoots : List Nat :=
  (List.range parents.length).filter fun unit => parentPosition parents unit = none

/-- The walk through the tree of one root. -/
def walkTree (walk : AncestryWalk) (root : Nat) : Except ExpansionError AncestryWalk := do
  let rootId ← unitId root
  whileTry (fun walk => !walk.pending.isEmpty) (AncestryWalk.step (unitChildren parents) rootId)
    (2 * parents.length) { walk with pending := [(root, false)] }

/-- A unit with its entry takes its place, if no other unit has it. -/
def placeUnit (byEntry : List SourceUnitId) (entry : Nat × Nat) :
    Except ExpansionError (List SourceUnitId) := do
  let unit ← unitId entry.2
  if byEntry[entry.1]? ≠ some unsetUnit then throw .incompleteOrigin
  else return byEntry.set entry.1 unit

/-- A root jumps to itself. -/
def firstJump (entry : Option SourceUnitId × Nat) : Except ExpansionError SourceUnitId := do
  let unit ← unitId entry.2
  return entry.1.getD unit

/-- Two jumps in a row. -/
def doubleJumps (previous : List SourceUnitId) : List SourceUnitId :=
  previous.map fun ancestor => previous[ancestor.index]?.getD ancestor

/-- The bit length of the number of units. -/
def jumpLevels (count : Nat) : Nat := Nat.log2 (max count 1) + 1

def SourceAncestryIndex.fromParents : Except ExpansionError SourceAncestryIndex :=
  if !validParents parents then .error .incompleteOrigin
  else do
    let walk ← (forestRoots parents).foldlM (walkTree parents) (.start parents.length)
    if walk.nextEntry ≠ parents.length ∨ unsetEntry ∈ walk.exits then throw .incompleteOrigin
    else
      let byEntry ← walk.entries.zipIdx.foldlM placeUnit (List.replicate parents.length unsetUnit)
      let jumps ← parents.zipIdx.mapM firstJump
      return { parents := parents
               depths := walk.depths
               roots := walk.roots
               entries := walk.entries
               exits := walk.exits
               byEntry := byEntry
               jumps := List.iterate doubleJumps jumps (jumpLevels parents.length) }

end Parents

/-! ## Queries -/

namespace SourceAncestryIndex

variable (index : SourceAncestryIndex)

/-- The position of a unit of the forest. -/
def position (unit : SourceUnitId) : Except ExpansionError Nat :=
  if unit.index < index.parents.length then .ok unit.index else .error .incompleteOrigin

def entryAt (position : Nat) : Nat := index.entries[position]?.getD 0

def exitAt (position : Nat) : Nat := index.exits[position]?.getD 0

def depthAt (position : Nat) : Nat := index.depths[position]?.getD 0

def entryOf (unit : SourceUnitId) : Nat := index.entryAt unit.index

/-- The interval of the first unit holds the entry of the second one. -/
def covers (ancestor descendant : SourceUnitId) : Bool :=
  index.entryOf ancestor ≤ index.entryOf descendant &&
    index.entryOf descendant < index.exitAt ancestor.index

def isAncestor (ancestor descendant : SourceUnitId) : Except ExpansionError Bool := do
  let _ ← index.position ancestor
  let _ ← index.position descendant
  return index.covers ancestor descendant

def jumpAt (level position : Nat) : Nat :=
  ((index.jumps[level]?.bind (·[position]?)).map SourceUnitId.index).getD position

/-- The common ancestor of two units of one tree, the first of which is not higher. -/
def lift (left right : Nat) : Except ExpansionError (Option SourceUnitId) :=
  let left :=
    liftBits index.jumpAt (index.depthAt left - index.depthAt right) index.jumps.length left
  if left = right then do return some (← unitId left)
  else return index.parents[(liftApart index.jumpAt index.jumps.length (left, right)).1]?.join

def lca (left right : SourceUnitId) : Except ExpansionError (Option SourceUnitId) := do
  let left ← index.position left
  let right ← index.position right
  if index.roots[left]? ≠ index.roots[right]? then return none
  else if index.depthAt left < index.depthAt right then index.lift right left
  else index.lift left right

def sortByEntry (units : List SourceUnitId) : List SourceUnitId :=
  units.insertionSort fun a b => index.entryOf a ≤ index.entryOf b

/-- Units in the order of their entries, each once. -/
def orderUnits (units : List SourceUnitId) : List SourceUnitId :=
  (index.sortByEntry units).destutter (· ≠ ·)

/-- A unit replaces those at the end that it is below. -/
def pushDeepest (deepest : List SourceUnitId) (unit : SourceUnitId) : List SourceUnitId :=
  unit :: deepest.dropWhile (index.covers · unit)

def deepestAntichain (units : List SourceUnitId) : Except ExpansionError (List SourceUnitId) := do
  units.forM fun unit => discard (index.position unit)
  return ((index.orderUnits units).foldl index.pushDeepest []).reverse

end SourceAncestryIndex

/-- The ancestors of some units are left out. -/
structure SourceAncestorExclusions where
  ancestry : SourceAncestryIndex
  descendants : List SourceUnitId

namespace SourceAncestorExclusions

def new (ancestry : SourceAncestryIndex) (descendants : List SourceUnitId) :
    Except ExpansionError SourceAncestorExclusions := do
  descendants.forM fun unit => discard (ancestry.position unit)
  return ⟨ancestry, sortDedup descendants⟩

def contains (exclusions : SourceAncestorExclusions) (unit : SourceUnitId) :
    Except ExpansionError Bool :=
  exclusions.descendants.anyM (exclusions.ancestry.isAncestor unit)

end SourceAncestorExclusions

/-- The frontiers that a unit belongs to, or that have units below it. -/
structure FrontierMask where
  left : Bool
  right : Bool
deriving DecidableEq

namespace FrontierMask

def uncolored : FrontierMask := ⟨false, false⟩

def join (mask other : FrontierMask) : FrontierMask :=
  ⟨mask.left || other.left, mask.right || other.right⟩

def isCommon (mask : FrontierMask) : Bool := mask.left && mask.right

end FrontierMask

/-- The pass over the nodes, from the last one to the first. -/
structure FrontierPass where
  masks : List FrontierMask
  hasCommonChild : List Bool
  result : List SourceUnitId

namespace SourceAncestryIndex

variable (index : SourceAncestryIndex)

def colorUnit (mask : FrontierMask) (colored : SortedMap SourceUnitId FrontierMask)
    (unit : SourceUnitId) : Except ExpansionError (SortedMap SourceUnitId FrontierMask) := do
  let _ ← index.position unit
  return colored.insert unit (((colored.get unit).getD .uncolored).join mask)

/-- The colored units and the common ancestors of those next to each other. -/
def frontierNodes (colored : List SourceUnitId) : Except ExpansionError (List SourceUnitId) := do
  let lcas ← (neighbours colored).mapM fun pair => index.lca pair.1 pair.2
  return index.orderUnits (colored ++ lcas.reduceOption)

/-- The node above each node.  What is left of the stack covers the node, so this never fails. -/
def nodeParents (nodes : List SourceUnitId) : List (Option Nat) :=
  (nestingParents
    (fun ancestor unit => !index.covers ancestor unit) index.covers [] 0 nodes).getD []

/-- Whether a node is left out of the result. -/
def skipsNode (excluded : SourceAncestorExclusions) (pass : FrontierPass)
    (entry : SourceUnitId × Nat) : Except ExpansionError Bool :=
  if (pass.masks[entry.2]?.getD .uncolored).isCommon &&
      !pass.hasCommonChild[entry.2]?.getD false then
    excluded.contains entry.1
  else return true

/-- A node passes what it has to its parent. -/
def passOn (parents : List (Option Nat)) (pass : FrontierPass) (position : Nat) : FrontierPass :=
  let mask := pass.masks[position]?.getD .uncolored
  match parentAt parents position with
  | none => pass
  | some parent =>
    { masks := pass.masks.modify parent (·.join mask)
      hasCommonChild := if mask.isCommon then pass.hasCommonChild.set parent true
        else pass.hasCommonChild
      result := pass.result }

def visitNode (excluded : SourceAncestorExclusions) (parents : List (Option Nat))
    (pass : FrontierPass) (entry : SourceUnitId × Nat) : Except ExpansionError FrontierPass := do
  let skipped ← skipsNode excluded pass entry
  let result := if skipped then pass.result else pass.result ++ [entry.1]
  return passOn parents { pass with result := result } entry.2

def intersectFrontiers (left right : List SourceUnitId) (excluded : SourceAncestorExclusions) :
    Except ExpansionError (List SourceUnitId) :=
  if left.isEmpty || right.isEmpty then return []
  else do
    let colored ← left.foldlM (index.colorUnit ⟨true, false⟩) .empty
    let colored ← right.foldlM (index.colorUnit ⟨false, true⟩) colored
    let nodes ← index.frontierNodes (index.sortByEntry colored.keys)
    let pass ← nodes.zipIdx.reverse.foldlM (visitNode excluded (index.nodeParents nodes))
      { masks := nodes.map fun unit => (colored.get unit).getD .uncolored
        hasCommonChild := List.replicate nodes.length false
        result := [] }
    return index.sortByEntry pass.result

end SourceAncestryIndex

end ItemDependencies
