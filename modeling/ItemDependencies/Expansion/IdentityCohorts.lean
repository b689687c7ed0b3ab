import ItemDependencies.Expansion.ContributorUnions
import ItemDependencies.Expansion.OutputDemands
import ItemDependencies.Library.UnionFind

/-!
# Merging the groups of identity cohorts

Expanded definitions that nothing but their number tells apart are a cohort.  The
output groups of one producer that hold members of one cohort are merged, and
merged groups that share cohorts across producers share a root.
-/

namespace ItemDependencies

open Library

inductive MacroOutputClass where
  | products (products : List GraphNode)
  | ownerEffect (owner : DefinitionId) (members : List GraphNode) (effect : MacroOwnerEffect)
deriving DecidableEq

/-- The products or members of a class. -/
def MacroOutputClass.nodes : MacroOutputClass → List GraphNode
  | .products nodes => nodes
  | .ownerEffect _ members _ => members

structure MacroOutputSlice where
  outputRanges : List MacroOutputRange
  outputClass : MacroOutputClass
deriving DecidableEq

structure MacroOutputMaterializationGroup where
  contributorRoots : List MacroContributorSetId
  identityCohortRoot : Option MacroContributorSetId
  outputDemands : List MacroOutputDemand
  outputSlices : List MacroOutputSlice
deriving DecidableEq

structure MacroProducerCoverage where
  producer : ExpansionId
  outputTokenCount : Nat
  discardedOutputs : List MacroOutputRange
  materializationGroups : List MacroOutputMaterializationGroup
deriving DecidableEq

/-! ## Cohorts -/

def DefinitionOrigin.isExpanded : DefinitionOrigin → Bool
  | expanded _ _ _ _ => true
  | _ => false

def GraphNode.definition? : GraphNode → Option DefinitionId
  | definition id => some id
  | _ => none

/-- What the members of a cohort have in common. -/
structure DefinitionCohortKey where
  parent : Option DefinitionId
  origin : DefinitionOriginKey
  productBasis : Option (List MacroProductSource)
  kind : DefinitionKind
  name : Option String
deriving DecidableEq, Ord

def cohortMember (productBases : List (Option (List MacroProductSource)))
    (definition : Definition) :
    Except ExpansionError (DefinitionCohortKey × DefinitionId) :=
  match definition.key.parts.getLast?, productBases[definition.id.index]? with
  | some leaf, some basis =>
    return (⟨definition.parent, leaf.origin, basis, definition.kind, leaf.name⟩, definition.id)
  | _, _ => throw .incompleteOrigin

def membersByCohort (definitions : DefinitionGraph)
    (productBases : List (Option (List MacroProductSource))) :
    Except ExpansionError (List (DefinitionCohortKey × DefinitionId)) :=
  (definitions.definitions.filter fun definition => definition.origin.isExpanded).mapM
    (cohortMember productBases)

/-- The members of the cohorts. -/
def cohortsOf (members : List (DefinitionCohortKey × DefinitionId)) : List (List DefinitionId) :=
  (Library.groups (fun a b => (compare a b).isLE) Prod.fst members).map fun cohort =>
    cohort.map Prod.snd

/-! ## Groups of all producers -/

def MacroOutputMaterializationGroup.definitions (group : MacroOutputMaterializationGroup) :
    List DefinitionId :=
  group.outputSlices.flatMap fun slice => slice.outputClass.nodes.filterMap GraphNode.definition?

/-- The groups of all producers, each with the position of its producer. -/
def flatGroups (coverage : List MacroProducerCoverage) :
    List (Nat × MacroOutputMaterializationGroup) :=
  coverage.zipIdx.flatMap fun producer => producer.1.materializationGroups.map (producer.2, ·)

def addProductGroup (flat : Nat) (productGroups : SortedMap DefinitionId Nat)
    (definition : DefinitionId) : Except ExpansionError (SortedMap DefinitionId Nat) :=
  if productGroups.contains definition then throw .incompleteOrigin
  else return productGroups.insert definition flat

def addProductGroups (productGroups : SortedMap DefinitionId Nat)
    (entry : (Nat × MacroOutputMaterializationGroup) × Nat) :
    Except ExpansionError (SortedMap DefinitionId Nat) :=
  if entry.1.2.contributorRoots = [] ∨ entry.1.2.outputSlices = [] then throw .incompleteOrigin
  else entry.1.2.definitions.foldlM (addProductGroup entry.2) productGroups

def orIncomplete {α : Type} : Option α → Except ExpansionError α
  | none => throw .incompleteOrigin
  | some a => return a

/-- The links of the first element with each of the others. -/
def starLinks : List Nat → List (Nat × Nat)
  | [] => []
  | first :: rest => rest.map (first, ·)

/-- The links of the groups of a cohort, and those of them that stay inside one producer. -/
def cohortLinks (groups : List (Nat × MacroOutputMaterializationGroup))
    (productGroups : SortedMap DefinitionId Nat) (members : List DefinitionId) :
    Except ExpansionError (List (Nat × Nat) × List (Nat × Nat)) :=
  let observed := members.countP productGroups.contains
  if members.length ≤ 1 ∨ observed = 0 then return ([], [])
  else if observed ≠ members.length then throw .incompleteOrigin
  else do
    let materializations ← members.mapM fun member => orIncomplete (productGroups.get member)
    let byProducer ← materializations.mapM fun materialization =>
      orIncomplete (groups[materialization]?.map fun group => (group.1, materialization))
    return (starLinks materializations,
      (Library.groups (fun a b => decide (a ≤ b)) Prod.fst byProducer).flatMap
        fun materializations => starLinks (materializations.map Prod.snd))

/-! ## Merging -/

/-- A group with its number and the roots of its classes. -/
structure PlacedGroup where
  flat : Nat
  producer : Nat
  group : MacroOutputMaterializationGroup
  localRoot : Nat
  identity : Nat
deriving DecidableEq

def placeGroups (groups : List (Nat × MacroOutputMaterializationGroup))
    (localRoots identities : List Nat) : List PlacedGroup :=
  (groups.zip (localRoots.zip identities)).zipIdx.map fun entry =>
    ⟨entry.2, entry.1.1.1, entry.1.1.2, entry.1.2.1, entry.1.2.2⟩

/-- A component across producers, if it has several merged groups. -/
def identityComponent (groups : List PlacedGroup) : Option (Nat × List MacroContributorSetId) :=
  match groups with
  | [] => none
  | first :: _ =>
    if 1 < (groups.map fun group => (group.producer, group.localRoot)).dedup.length then
      some (first.identity, sortDedup (groups.flatMap fun group => group.group.contributorRoots))
    else none

def identityComponents (groups : List PlacedGroup) : List (Nat × List MacroContributorSetId) :=
  (Library.groups (fun a b => decide (a ≤ b)) PlacedGroup.identity groups).filterMap
    identityComponent

/-- One root for all groups that are merged. -/
def mergedRoot (existing identityRoot : Option MacroContributorSetId) :
    Except ExpansionError (Option MacroContributorSetId) :=
  if existing.isSome ∧ existing ≠ identityRoot then throw .incompleteOrigin
  else return identityRoot.or existing

def firstStart (slice : MacroOutputSlice) : Nat :=
  (slice.outputRanges.head?.map MacroOutputRange.start).getD (u32Size - 1)

def minimumStart (group : MacroOutputMaterializationGroup) : Nat :=
  (((group.outputSlices.flatMap MacroOutputSlice.outputRanges).map
    MacroOutputRange.start).min?).getD (u32Size - 1)

/-- Merge the groups that have one local root; the roots of the components are known. -/
def mergeGroups (identityRoots : List (Nat × MacroContributorSetId)) (groups : List PlacedGroup) :
    Except ExpansionError MacroOutputMaterializationGroup := do
  let identityRoot ← (groups.map fun group => identityRoots.lookup group.identity).foldlM
    mergedRoot none
  return {
    contributorRoots := sortDedup (groups.flatMap fun group => group.group.contributorRoots)
    identityCohortRoot := identityRoot
    outputDemands := sortDedup (groups.flatMap fun group => group.group.outputDemands)
    outputSlices := (groups.flatMap fun group => group.group.outputSlices).insertionSort
      fun a b => firstStart a ≤ firstStart b }

/-- The groups of a producer that are merged, by their local roots. -/
def producerGroups (groups : List PlacedGroup) (producer : Nat) : List (List PlacedGroup) :=
  Library.groups (fun a b => decide (a ≤ b)) PlacedGroup.localRoot
    (groups.filter fun group => group.producer = producer)

def mergeProducer (identityRoots : List (Nat × MacroContributorSetId)) (groups : List PlacedGroup)
    (producer : MacroProducerCoverage × Nat) : Except ExpansionError MacroProducerCoverage := do
  let merged ← (producerGroups groups producer.2).mapM (mergeGroups identityRoots)
  let sorted := merged.insertionSort fun a b => minimumStart a ≤ minimumStart b
  if sorted.any fun group => group.outputSlices.isEmpty then throw .incompleteOrigin
  return { producer.1 with materializationGroups := sorted }

def coalesceDefinitionIdentityCohorts (hash : MacroContributorNode → Nat)
    (coverage : List MacroProducerCoverage) (definitions : DefinitionGraph)
    (productBases : List (Option (List MacroProductSource)))
    (contributorDag : MacroContributorDag) :
    Except ExpansionError (List MacroProducerCoverage × MacroContributorDag) := do
  if productBases.length ≠ definitions.definitions.length then throw .incompleteOrigin
  let members ← membersByCohort definitions productBases
  let groups := flatGroups coverage
  let productGroups ← groups.zipIdx.foldlM addProductGroups .empty
  let links ← (cohortsOf members).mapM (cohortLinks groups productGroups)
  let identityParents := (links.flatMap Prod.fst).foldl link (List.range groups.length)
  let localParents := (links.flatMap Prod.snd).foldl link (List.range groups.length)
  let identities := rootsOf identityParents (List.range groups.length)
  let localRoots := rootsOf localParents (List.range groups.length)
  let components := identityComponents (placeGroups groups localRoots.2 identities.2)
  let (dag, unions) ← contributorDag.withParentUnions hash (components.map Prod.snd)
  let identityRoots := (components.map Prod.fst).zip unions
  -- the groups are merged in a second pass over them
  let localRoots := rootsOf localRoots.1 (List.range groups.length)
  let identities := rootsOf identities.1 (List.range groups.length)
  let placed := placeGroups groups localRoots.2 identities.2
  let merged ← coverage.zipIdx.mapM (mergeProducer identityRoots placed)
  return (merged, dag)

end ItemDependencies
