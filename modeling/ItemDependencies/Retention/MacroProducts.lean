import ItemDependencies.Retention.SourceSites
import ItemDependencies.Library.Grouping

/-!
# Macro products and their contributors

A declarative macro transcribes groups of products.  Each group has contributor
roots: nodes of a shared graph whose source units must all be retained before
the group exists.  The output of a macro has a meaning of its own, or inherits
one from the products that it depends on.
-/

namespace ItemDependencies

open Library

/-- Number of a node of the contributor graph. -/
structure MacroContributorSetId where
  index : Nat

instance : LinearOrder MacroContributorSetId :=
  LinearOrder.lift' MacroContributorSetId.index fun a b h => by
    cases a
    cases b
    simpa using h

structure MacroContributorNode where
  localSources : List SourceUnitId
  parents : List MacroContributorSetId
deriving DecidableEq

/-- The contributor graph.  A node is known by its position. -/
structure MacroContributorDag where
  nodes : List MacroContributorNode
deriving DecidableEq

/-- What the output of an owner means. -/
inductive MacroOwnerEffect where
  | semantic
  | transparentShell (dependentProducts : List GraphNode)
deriving DecidableEq

structure MacroOwnerRequirement where
  owner : DefinitionId
  members : List DefinitionId
  effect : MacroOwnerEffect
deriving DecidableEq

/-- The products and owner effects that one expansion transcribes from one set of contributors. -/
structure MacroMaterialization where
  producer : ExpansionId
  products : List GraphNode
  ownerRequirements : List MacroOwnerRequirement
  contributorRoots : List MacroContributorSetId
  identityCohortRoot : Option MacroContributorSetId
deriving DecidableEq

def MacroMaterialization.retentionRoots (materialization : MacroMaterialization) :
    List MacroContributorSetId :=
  match materialization.identityCohortRoot with
  | some root => [root]
  | none => materialization.contributorRoots

structure MacroGroupDemand where
  carriers : List DefinitionId
  dependentExpansions : List ExpansionId
  requiredExpansions : List ExpansionId
deriving DecidableEq

structure CompleteMacroOutputMeaningRecord where
  intrinsic : Bool
  residualIntrinsic : Bool
  dependentExpansions : List ExpansionId
  actualDemandDefinitions : List DefinitionId
  outputDemands : List MacroGroupDemand
deriving DecidableEq

/-- The producers whose output is known completely, and what is known of those that are not
directly without output, by producer. -/
structure ValidatedCompleteMacroOutputMeaning where
  producers : Finset ExpansionId
  records : List (ExpansionId × CompleteMacroOutputMeaningRecord)
  sorted : (records.map Prod.fst).Pairwise (· < ·)

/-- Neighbours are in strict order. -/
def StrictlySorted {α : Type} [LinearOrder α] (l : List α) : Prop :=
  ∀ pair ∈ neighbours l, pair.1 < pair.2

instance {α : Type} [LinearOrder α] (l : List α) : Decidable (StrictlySorted l) :=
  inferInstanceAs (Decidable (∀ pair ∈ neighbours l, pair.1 < pair.2))

/-! ## The meaning of output -/

/-- The producers, and the reverse dependencies along which meaning spreads. -/
structure MacroOutputMeaningIndex where
  producers : List ExpansionId
  producerByGroup : Nat → Nat
  groupHasIntrinsicOutput : Nat → Bool
  dependentGroupsByProduct : GraphNode → List Nat
  dependentGroupsByProductGroup : Nat → List Nat
  staticIntrinsicProducers : Nat → Bool
  dependentProducersByChild : Nat → List Nat
  demandProducersByTrigger : DefinitionId → List Nat
  producerDemandFacts : List (Nat × MacroGroupDemand)

namespace MacroOutputMeaningIndex

/-- The position of a producer. -/
def indexIn (producers : List ExpansionId) (expansion : ExpansionId) : Option Nat :=
  producers.findIdx? fun producer => producer = expansion

def producerIndex (meaning : MacroOutputMeaningIndex) (expansion : ExpansionId) : Option Nat :=
  indexIn meaning.producers expansion

section New

variable (producers : List ExpansionId) (refined : Finset ExpansionId)
  (complete : ValidatedCompleteMacroOutputMeaning) (materializations : List MacroMaterialization)
  (productGroups : GraphNode → Option Nat)

/-- The records of producers that are not refined: a refined producer is described by its
groups. -/
def unrefinedRecords : List (ExpansionId × CompleteMacroOutputMeaningRecord) :=
  complete.records.filter fun record => record.1 ∉ refined

/-- A child outside the producers is output in itself: it cannot be known to be empty. -/
def staticIntrinsic (producer : Nat) : Bool :=
  (unrefinedRecords refined complete).any fun record =>
    indexIn producers record.1 == some producer &&
      (record.2.intrinsic ||
        record.2.dependentExpansions.any fun child => (indexIn producers child).isNone)

def dependentProducers (child : Nat) : List Nat :=
  sortDedup (valuesAt ((unrefinedRecords refined complete).flatMap fun record =>
    record.2.dependentExpansions.filterMap fun dependent =>
      match indexIn producers record.1, indexIn producers dependent with
      | some producer, some child => some (child, producer)
      | _, _ => none) child)

def demandProducers (trigger : DefinitionId) : List Nat :=
  sortDedup (valuesAt (complete.records.flatMap fun record =>
    record.2.actualDemandDefinitions.filterMap fun definition =>
      (indexIn producers record.1).map fun producer => (definition, producer)) trigger)

def demandFacts : List (Nat × MacroGroupDemand) :=
  complete.records.flatMap fun record =>
    record.2.outputDemands.filterMap fun demand =>
      (indexIn producers record.1).map fun producer => (producer, demand)

/-- A product that is the expansion of a producer. -/
def isProducer (product : GraphNode) : Bool :=
  match product with
  | .expansion child => (indexIn producers child).isSome
  | _ => false

/-- A product on which a shell depends is an expansion, or a definition that some group has. -/
def validShellProduct (product : GraphNode) : Bool :=
  match product with
  | .expansion _ => true
  | .definition _ => (productGroups product).isSome
  | _ => false

def validOwnerEffect (requirement : MacroOwnerRequirement) : Bool :=
  match requirement.effect with
  | .semantic => true
  | .transparentShell dependentProducts =>
    requirement.members = [] && dependentProducts ≠ [] && StrictlySorted dependentProducts &&
      dependentProducts.all (validShellProduct productGroups)

/-- The product of a shell gives its group a meaning at once if it is opaque, or a definition of
the group itself. -/
def shellProductIsIntrinsic (group : Nat) (product : GraphNode) : Bool :=
  match product with
  | .expansion child => (indexIn producers child).isNone
  | _ => productGroups product == some group

def ownerIsIntrinsic (group : Nat) (requirement : MacroOwnerRequirement) : Bool :=
  match requirement.effect with
  | .semantic => true
  | .transparentShell dependentProducts =>
    dependentProducts.any (shellProductIsIntrinsic producers productGroups group)

def groupIsIntrinsic (group : Nat) (materialization : MacroMaterialization) : Bool :=
  materialization.products.any (fun product => !isProducer producers product) ||
    materialization.ownerRequirements.any (ownerIsIntrinsic producers productGroups group)

/-- The products of a shell on which its group depends. -/
def shellDependencies (group : Nat) (requirement : MacroOwnerRequirement) : List GraphNode :=
  match requirement.effect with
  | .semantic => []
  | .transparentShell dependentProducts => dependentProducts.filter fun product =>
    match product with
    | .expansion _ => true
    | _ => productGroups product != some group

def groupDependencies (group : Nat) (materialization : MacroMaterialization) : List GraphNode :=
  materialization.products.filter (isProducer producers) ++
    materialization.ownerRequirements.flatMap (shellDependencies productGroups group)

def dependencyPushes : List (GraphNode × Nat) :=
  materializations.zipIdx.flatMap fun m =>
    (groupDependencies producers productGroups m.2 m.1).map fun product => (product, m.2)

def dependentGroups (product : GraphNode) : List Nat :=
  sortDedup (valuesAt (dependencyPushes producers materializations productGroups) product)

/-- The groups that depend on a definition of a product group. -/
def dependentGroupsOfGroup (productGroup : Nat) : List Nat :=
  sortDedup (valuesAt ((dependencyPushes producers materializations productGroups).filterMap
    fun push =>
      if push.1.isDefinition then (productGroups push.1).map fun group => (group, push.2)
      else none) productGroup)

end New

def new (materializations : List MacroMaterialization) (productGroups : GraphNode → Option Nat)
    (refined : Finset ExpansionId) (complete : ValidatedCompleteMacroOutputMeaning) :
    Except RetentionError MacroOutputMeaningIndex := do
  if ¬refined ⊆ complete.producers then throw .invalidConstraint
  let producers := ascending complete.producers
  if complete.records.any fun record => (indexIn producers record.1).isNone then
    throw .invalidConstraint
  if materializations.any fun materialization =>
      materialization.producer ∉ refined ||
        !materialization.ownerRequirements.all (validOwnerEffect productGroups) then
    throw .invalidConstraint
  return {
    producers := producers
    producerByGroup := fun group =>
      (materializations[group]?.bind fun m => indexIn producers m.producer).getD 0
    groupHasIntrinsicOutput := fun group =>
      materializations[group]?.any (groupIsIntrinsic producers productGroups group)
    dependentGroupsByProduct := dependentGroups producers materializations productGroups
    dependentGroupsByProductGroup :=
      dependentGroupsOfGroup producers materializations productGroups
    staticIntrinsicProducers := staticIntrinsic producers refined complete
    dependentProducersByChild := dependentProducers producers refined complete
    demandProducersByTrigger := demandProducers producers complete
    producerDemandFacts := demandFacts producers complete }

end MacroOutputMeaningIndex

/-! ## Contributors -/

/-- The contributor graph by positions: parents come before their children. -/
structure ValidatedContributorDag where
  localSources : List (List SourceUnitId)
  parents : List (List Nat)

namespace ValidatedContributorDag

variable (dag : ValidatedContributorDag)

def count : Nat := dag.parents.length

def sourcesAt (node : Nat) : List SourceUnitId := dag.localSources.getD node []

def parentsAt (node : Nat) : List Nat := dag.parents.getD node []

def nodeIndex (id : MacroContributorSetId) : Option Nat :=
  if id.index < dag.count then some id.index else none

def children (node : Nat) : List Nat :=
  valuesAt (dag.parents.zipIdx.flatMap fun p => p.1.map fun parent => (parent, p.2)) node

def nodesBySource (unit : SourceUnitId) : List Nat :=
  valuesAt (dag.localSources.zipIdx.flatMap fun p => p.1.map fun source => (source, p.2)) unit

/-- Whether a node has a source unit, itself or through its parents. -/
def nodeHasSource : List Bool :=
  dag.localSources.zipIdx.foldl (fun known p =>
    known ++ [!p.1.isEmpty || (dag.parentsAt p.2).any fun parent => known.getD parent false]) []

end ValidatedContributorDag

/-- The parents of a node, by position.  Only earlier nodes are known. -/
def contributorParents (position : Nat) (node : MacroContributorNode) :
    Except RetentionError (List Nat) :=
  node.parents.mapM fun parent =>
    if parent.index < position then return parent.index else throw .invalidConstraint

def contributorParentsOf (sourceUnitCount : Nat) (node : MacroContributorNode × Nat) :
    Except RetentionError (List Nat) := do
  if ¬StrictlySorted node.1.localSources ∨
      node.1.localSources.any (fun unit => sourceUnitCount ≤ unit.index) ∨
      ¬StrictlySorted node.1.parents then
    throw .invalidConstraint
  contributorParents node.2 node.1

/-- Positions that do not fit into the numbers of the nodes would be numbered twice. -/
def validateContributorDag (dag : MacroContributorDag) (sourceUnitCount : Nat) :
    Except RetentionError ValidatedContributorDag := do
  if u32Size < dag.nodes.length then throw .invalidConstraint
  let parents ← dag.nodes.zipIdx.mapM (contributorParentsOf sourceUnitCount)
  return { localSources := dag.nodes.map MacroContributorNode.localSources, parents := parents }

/-! ## Validated macro products -/

/-- What a demand asks for: a producer, or the sources of a group. -/
inductive MacroDemandTarget where
  | producer (index : Nat)
  | group (index : Nat)
deriving DecidableEq

structure MacroDemandClause where
  target : MacroDemandTarget
  requiredExpansions : List ExpansionId
  opaqueDependent : Bool
deriving DecidableEq

/-- Product classes and demands, by group. -/
structure MacroGroupFacts where
  productClasses : List (List (List GraphNode))
  requireCompleteClasses : Bool
  outputDemands : List (List MacroGroupDemand)
  requireCompleteDemands : Bool

structure ValidatedMacroProducts where
  contributorIndex : ValidatedContributorDag
  materializations : List MacroMaterialization
  delegatedMacroExpansions : Finset ExpansionId
  productGroups : GraphNode → Option Nat
  actualDefinitionClasses : List (List GraphNode)
  compileTriggerGroups : GraphNode → List Nat
  demandClauses : List MacroDemandClause
  demandClausesByCarrier : DefinitionId → List Nat
  dependentDemandClausesByChild : ExpansionId → List Nat
  groupsByRoot : Nat → List Nat
  outputMeaning : MacroOutputMeaningIndex

def MacroGroupDemand.roleExpansions (demand : MacroGroupDemand) : List ExpansionId :=
  demand.dependentExpansions ++ demand.requiredExpansions

/-- The expansions that have a role in the demands of a group. -/
def roleExpansions (demands : List MacroGroupDemand) : List ExpansionId :=
  demands.flatMap MacroGroupDemand.roleExpansions

def validDemand (demand : MacroGroupDemand) : Bool :=
  demand.carriers ≠ [] && StrictlySorted demand.carriers &&
    !(demand.dependentExpansions.isEmpty && demand.requiredExpansions.isEmpty) &&
    StrictlySorted demand.dependentExpansions && StrictlySorted demand.requiredExpansions &&
    demand.dependentExpansions.all fun child => child ∉ demand.requiredExpansions

namespace ValidatedMacroProducts

section New

variable (dag : ValidatedContributorDag) (materializations : List MacroMaterialization)
  (meaning : MacroOutputMeaningIndex) (facts : MacroGroupFacts)

def classesOf (group : Nat) : List (List GraphNode) := facts.productClasses.getD group []

def demandsOf (group : Nat) : List MacroGroupDemand := facts.outputDemands.getD group []

/-- The definitions of each product class that has some. -/
def definitionClasses : List (List GraphNode) :=
  ((facts.productClasses.flatMap fun classes => classes).map fun products =>
    products.filter GraphNode.isDefinition).filter fun definitions =>
      !definitions.isEmpty

/-- Roots that are nodes of the graph and have a source. -/
def validRoots (roots : List MacroContributorSetId) : Bool :=
  roots.all fun root =>
    (dag.nodeIndex root).any fun node => dag.nodeHasSource.getD node false

/-- The contributor roots of the groups of one identity cohort. -/
def cohortRoots (root : MacroContributorSetId) : List MacroContributorSetId :=
  sortDedup ((materializations.filter fun m => m.identityCohortRoot = some root).flatMap
    MacroMaterialization.contributorRoots)

/-- The gate of an identity cohort: the only root, or a node without sources below all roots. -/
def validGate (gate : Nat) (expected : List Nat) : Bool :=
  match expected with
  | [] => false
  | [node] => gate == node
  | _ => (dag.sourcesAt gate).isEmpty && dag.parentsAt gate == expected

def validCohort (root : MacroContributorSetId) : Bool :=
  2 ≤ materializations.countP (fun m => m.identityCohortRoot = some root) &&
    (cohortRoots materializations root).all (fun local_ => (dag.nodeIndex local_).isSome) &&
    (dag.nodeIndex root).any fun gate =>
      validGate dag gate ((cohortRoots materializations root).filterMap dag.nodeIndex)

def validClasses (group : Nat) (materialization : MacroMaterialization) : Bool :=
  let classes := classesOf facts group
  classes.all (fun products => !products.isEmpty && StrictlySorted products &&
      products.all fun product => product ∈ materialization.products) &&
    classes.flatten.Nodup &&
    (!facts.requireCompleteClasses || sortDedup classes.flatten = materialization.products)

def validGroupDemands (group : Nat) (materialization : MacroMaterialization) : Bool :=
  let roles := roleExpansions (demandsOf facts group)
  roles.all (fun expansion => .expansion expansion ∈ materialization.products) && roles.Nodup &&
    (demandsOf facts group).all validDemand &&
    (!facts.requireCompleteDemands || materialization.products.all fun product =>
      match product with
      | .expansion expansion => expansion ∈ roles
      | _ => true)

def validGroup (m : MacroMaterialization × Nat) : Bool :=
  !(m.1.products.isEmpty && m.1.ownerRequirements.isEmpty) && StrictlySorted m.1.products &&
    !m.1.contributorRoots.isEmpty && StrictlySorted m.1.contributorRoots &&
    validClasses facts m.2 m.1 && validRoots dag m.1.contributorRoots &&
    validRoots dag m.1.retentionRoots && validGroupDemands facts m.2 m.1

/-- All demands, those of the producers first. -/
def clauseFacts : List (MacroDemandTarget × MacroGroupDemand) :=
  meaning.producerDemandFacts.map (fun f => (.producer f.1, f.2)) ++
    materializations.zipIdx.flatMap fun m =>
      (demandsOf facts m.2).map fun demand => (.group m.2, demand)

def demandClause (clause : MacroDemandTarget × MacroGroupDemand) : MacroDemandClause where
  target := clause.1
  requiredExpansions := clause.2.requiredExpansions
  opaqueDependent :=
    clause.2.dependentExpansions.any fun child => (meaning.producerIndex child).isNone

def clausesByCarrier (carrier : DefinitionId) : List Nat :=
  valuesAt ((clauseFacts materializations meaning facts).zipIdx.flatMap fun clause =>
    clause.1.2.carriers.map fun carrier => (carrier, clause.2)) carrier

def clausesByChild (child : ExpansionId) : List Nat :=
  valuesAt ((clauseFacts materializations meaning facts).zipIdx.flatMap fun clause =>
    (clause.1.2.dependentExpansions.filter fun child => (meaning.producerIndex child).isSome).map
      fun child => (child, clause.2)) child

/-- The definitions and products whose retention opens the sources of a group. -/
def ownTriggers (m : MacroMaterialization × Nat) : List GraphNode :=
  m.1.products.filter (fun product =>
    match product with
    | .expansion expansion => expansion ∉ roleExpansions (demandsOf facts m.2)
    | _ => true) ++
  m.1.ownerRequirements.flatMap fun requirement =>
    match requirement.effect with
    | .semantic => .definition requirement.owner :: requirement.members.map .definition
    | .transparentShell _ => []

def triggerGroups (node : GraphNode) : List Nat :=
  sortDedup (valuesAt (materializations.zipIdx.flatMap fun m =>
      (ownTriggers facts m).map fun trigger => (trigger, m.2)) node ++
    (meaning.dependentGroupsByProduct node).filter fun group => (demandsOf facts group).isEmpty)

def rootGroups (node : Nat) : List Nat :=
  valuesAt (materializations.zipIdx.flatMap fun m =>
    (m.1.retentionRoots.filterMap dag.nodeIndex).map fun root => (root, m.2)) node

end New

def newWithDagAndOutputMeaning (dag : MacroContributorDag) (sourceUnitCount : Nat)
    (materializations : List MacroMaterialization)
    (delegatedMacroExpansions : Finset ExpansionId) (productGroups : GraphNode → Option Nat)
    (meaning : MacroOutputMeaningIndex) (facts : MacroGroupFacts) :
    Except RetentionError ValidatedMacroProducts := do
  if facts.outputDemands.length ≠ materializations.length ∨
      facts.productClasses.length ≠ materializations.length then throw .invalidConstraint
  let dag ← validateContributorDag dag sourceUnitCount
  if !meaning.producerDemandFacts.all (fun f => validDemand f.2) then throw .invalidConstraint
  if !materializations.all (fun m =>
      m.identityCohortRoot.all (validCohort dag materializations)) then throw .invalidConstraint
  if !materializations.zipIdx.all (validGroup dag facts) then throw .invalidConstraint
  if ¬(definitionClasses facts).flatten.Nodup then throw .invalidConstraint
  return {
    contributorIndex := dag
    materializations := materializations
    delegatedMacroExpansions := delegatedMacroExpansions
    productGroups := productGroups
    actualDefinitionClasses := definitionClasses facts
    compileTriggerGroups := triggerGroups materializations meaning facts
    demandClauses := (clauseFacts materializations meaning facts).map (demandClause meaning)
    demandClausesByCarrier := clausesByCarrier materializations meaning facts
    dependentDemandClausesByChild := clausesByChild materializations meaning facts
    groupsByRoot := rootGroups dag materializations
    outputMeaning := meaning }

end ValidatedMacroProducts

/-- The group of each product.  No product has two groups. -/
def macroProductGroups (materializations : List MacroMaterialization) :
    Except RetentionError (GraphNode → Option Nat) := do
  if ¬(materializations.flatMap MacroMaterialization.products).Nodup then throw .invalidConstraint
  return fun product => materializations.findIdx? fun m => product ∈ m.products

/-- How every caller makes validated macro products: with the product groups and the meaning of
the materializations themselves. -/
def ValidatedMacroProducts.new (dag : MacroContributorDag) (sourceUnitCount : Nat)
    (materializations : List MacroMaterialization)
    (delegatedMacroExpansions : Finset ExpansionId) (refined : Finset ExpansionId)
    (complete : ValidatedCompleteMacroOutputMeaning) (facts : MacroGroupFacts) :
    Except RetentionError ValidatedMacroProducts := do
  let productGroups ← macroProductGroups materializations
  let meaning ← MacroOutputMeaningIndex.new materializations productGroups refined complete
  newWithDagAndOutputMeaning dag sourceUnitCount materializations delegatedMacroExpansions
    productGroups meaning facts

end ItemDependencies
