import ItemDependencies.Graph.Basic
import ItemDependencies.Library.Ascending

/-!
# The owners of an observation range

A compiler observation belongs to the innermost active units that contain its
range.  The index answers this without scanning all units: the units are put in
order of their starts, and each prefix of that order has a version of a
segment tree over the ends, which gives the best rank among the units that end
late enough.
-/

namespace ItemDependencies

open Library

/-- Why a retention is refused. -/
inductive RetentionError where
  | invalidSource
  | invalidGraph
  | invalidConstraint
  | incompleteMemberConstraints
  | incompleteExternalCrateConstraints
  | incompleteOpaqueSourceConstraints
  | incompleteMacroProductConstraints
  | unsupportedExternalNativeLink
deriving DecidableEq

/-- Short units come first, and among units of equal length the deepest. -/
abbrev OwnerRank := Nat ×ₗ Natᵒᵈ

structure OwnerRecord where
  id : SourceUnitId
  range : ByteRange

/-- A node of the segment tree.  Node 0 is the empty tree. -/
structure MinNode where
  left : Nat
  right : Nat
  best : Option OwnerRank

def MinNode.empty : MinNode := ⟨0, 0, none⟩

structure SourceSiteOwnerIndex where
  starts : List Nat
  roots : List Nat
  ends : List Nat
  nodes : List MinNode
  ownersByRank : OwnerRank → List OwnerRecord

def minRank : Option OwnerRank → Option OwnerRank → Option OwnerRank
  | some left, some right => some (min left right)
  | some rank, none | none, some rank => some rank
  | none, none => none

/-! ## Depths -/

/-- The largest number that a `u32` holds. -/
def maxU32 : Nat := 2 ^ 32 - 1

/-- Depths of the units.  A unit is marked while the path from it to a known depth is followed. -/
structure UnitDepths where
  depths : Nat → Option Nat
  onPath : Nat → Bool

/-- Give the units of a path, lowest last, the depths below the given one. -/
def UnitDepths.assign (s : UnitDepths) : Nat → List Nat → Except RetentionError UnitDepths
  | _, [] => .ok s
  | depth, unit :: path =>
    if maxU32 < depth + 1 then .error .invalidGraph
    else
      assign
        { depths := Function.update s.depths unit (some (depth + 1))
          onPath := Function.update s.onPath unit false }
        (depth + 1) path

/-- Follow the parents from one unit until a known depth or the root. -/
def UnitDepths.climb (units : List WrittenUnit) (s : UnitDepths) :
    Nat → Nat → List Nat → Except RetentionError UnitDepths
  | 0, _, _ => .error .invalidGraph
  | limit + 1, cursor, path =>
    match s.depths cursor with
    | some depth => s.assign depth path
    | none =>
      if s.onPath cursor then .error .invalidGraph
      else
        let s := { s with onPath := Function.update s.onPath cursor true }
        match (units[cursor]?.bind WrittenUnit.parent) with
        | none =>
          assign
            { depths := Function.update s.depths cursor (some 0)
              onPath := Function.update s.onPath cursor false }
            0 path
        | some parent =>
          if units.length ≤ parent.index || parent.index == cursor then .error .invalidGraph
          else climb units s limit parent.index (cursor :: path)

/-- The depth of each unit below the root. -/
def sourceUnitDepths (source : SourceInventory) : Except RetentionError (List Nat) := do
  if source.units.zipIdx.any fun (unit, index) =>
      unit.id.index != index || unit.fullRange.stop < unit.fullRange.start ||
        utf8Len source.original < unit.fullRange.stop then
    throw .invalidGraph
  let s ← (List.range source.units.length).foldlM
    (fun s start =>
      if (s.depths start).isSome then pure s
      else s.climb source.units (source.units.length + 1) start [])
    (⟨fun _ => none, fun _ => false⟩ : UnitDepths)
  (List.range source.units.length).mapM fun unit =>
    match s.depths unit with
    | some depth => pure depth
    | none => throw .invalidGraph

/-! ## The index -/

namespace SourceSiteOwnerIndex

/-- Insert a rank at a position of a version of the tree.  The result is the root of the new
version. -/
def insert (index : SourceSiteOwnerIndex) (position : Nat) (rank : OwnerRank) :
    Nat → Nat → Nat → Nat → SourceSiteOwnerIndex × Nat
  | 0, previous, _, _ => (index, previous)
  | limit + 1, previous, first, last =>
    let node := index.nodes.getD previous .empty
    if last - first = 1 then
      let node := { node with best := some (node.best.elim rank (min rank)) }
      ({ index with nodes := index.nodes ++ [node] }, index.nodes.length)
    else
      let middle := first + (last - first) / 2
      if position < middle then
        let (index, left) := insert index position rank limit node.left first middle
        let best := minRank (index.nodes.getD left .empty).best
          (index.nodes.getD node.right .empty).best
        ({ index with nodes := index.nodes ++ [⟨left, node.right, best⟩] }, index.nodes.length)
      else
        let (index, right) := insert index position rank limit node.right middle last
        let best := minRank (index.nodes.getD node.left .empty).best
          (index.nodes.getD right .empty).best
        ({ index with nodes := index.nodes ++ [⟨node.left, right, best⟩] }, index.nodes.length)

/-- The best rank among the positions from `start` on. -/
def suffixBest (index : SourceSiteOwnerIndex) (start : Nat) :
    Nat → Nat → Nat → Nat → Option OwnerRank
  | 0, _, _, _ => none
  | limit + 1, node, first, last =>
    if node = 0 ∨ last ≤ start then none
    else if start ≤ first then (index.nodes.getD node .empty).best
    else
      let middle := first + (last - first) / 2
      minRank (suffixBest index start limit (index.nodes.getD node .empty).left first middle)
        (suffixBest index start limit (index.nodes.getD node .empty).right middle last)

/-- An active unit with its rank, as it is sorted before it is indexed. -/
structure Entry where
  start : Nat
  stop : Nat
  rank : OwnerRank
  id : SourceUnitId

instance : LinearOrder Entry :=
  LinearOrder.lift' (fun e => toLex (e.start, toLex (e.stop, toLex (e.rank, e.id)))) fun a b h => by
    cases a
    cases b
    simpa using h

/-- The active units, ordered by their starts. -/
def entries (source : SourceInventory) (depths : List Nat) : List Entry :=
  ((source.units.filter fun unit => unit.cfgState = .active).map fun unit =>
    { start := unit.fullRange.start
      stop := unit.fullRange.stop
      rank := toLex (unit.fullRange.len, OrderDual.toDual (depths.getD unit.id.index 0))
      id := unit.id }).insertionSort (· ≤ ·)

/-- Index one more unit.  Units of equal start share a version. -/
def addEntry (index : SourceSiteOwnerIndex) (entry : Entry) : SourceSiteOwnerIndex :=
  let (index, root) := index.insert (index.ends.idxOf entry.stop) entry.rank
    (index.ends.length + 1) (index.roots.getLastD 0) 0 index.ends.length
  let record : OwnerRecord := ⟨entry.id, ⟨entry.start, entry.stop⟩⟩
  let index :=
    { index with
      ownersByRank := Function.update index.ownersByRank entry.rank
        (index.ownersByRank entry.rank ++ [record]) }
  if index.starts.getLast? = some entry.start then
    { index with roots := index.roots.dropLast ++ [root] }
  else { index with starts := index.starts ++ [entry.start], roots := index.roots ++ [root] }

/-- The owners of one rank, ordered by their starts. -/
def sortOwners (owners : List OwnerRecord) : List OwnerRecord :=
  owners.insertionSort fun a b => toLex (a.range.start, a.id) ≤ toLex (b.range.start, b.id)

def new (source : SourceInventory) : Except RetentionError SourceSiteOwnerIndex := do
  let depths ← sourceUnitDepths source
  let entries := entries source depths
  let index := entries.foldl addEntry
    { starts := []
      roots := []
      ends := sortDedup (entries.map Entry.stop)
      nodes := [.empty]
      ownersByRank := fun _ => [] }
  return { index with ownersByRank := fun rank => sortOwners (index.ownersByRank rank) }

/-- The innermost active units that contain a range. -/
def owners (index : SourceSiteOwnerIndex) (site : ByteRange) :
    Except RetentionError (List SourceUnitId) := do
  let version := (index.starts.takeWhile (· ≤ site.start)).length
  if version = 0 then throw .invalidGraph
  let firstEnd := (index.ends.takeWhile (· < site.stop)).length
  if firstEnd = index.ends.length then throw .invalidGraph
  match index.suffixBest firstEnd (index.ends.length + 1) (index.roots.getD (version - 1) 0) 0
      index.ends.length with
  | none => throw .invalidGraph
  | some rank =>
    let candidates := index.ownersByRank rank
    let firstStart := site.stop - (ofLex rank).1
    let containing := ((candidates.dropWhile fun owner => owner.range.start < firstStart).takeWhile
      fun owner => owner.range.start ≤ site.start).filter fun owner => owner.range.contains site
    if containing.isEmpty then throw .invalidGraph
    return (containing.map OwnerRecord.id).insertionSort (· ≤ ·)

end SourceSiteOwnerIndex

end ItemDependencies
