import ItemDependencies.Library.Lane
import ItemDependencies.Library.Worklist
import ItemDependencies.Retention.CompilerMembers
import ItemDependencies.Retention.MacroProducts

/-!
# The closure of macro products and compiler members

Every retained node and source unit is consumed once.  A node triggers its
member requirements and the groups that it needs; a group opens its
contributors; when all contributors of a group are retained the group
materializes and its products are present.  Meaning and demand spread over the
producers in the same way.
-/

namespace ItemDependencies

open Library

structure RetentionClosure where
  presence : Worklist GraphNode
  actualDefinitions : Worklist DefinitionId
  actualProducts : Worklist GraphNode
  source : Worklist SourceUnitId
  initialized : Bool
  macroSourcesOpened : Finset Nat
  requestedContributors : Worklist Nat
  contributorComplete : Finset Nat
  pendingCompleteContributors : List Nat
  contributorMissingSources : Nat → Nat
  contributorMissingParents : Nat → Nat
  groupMissingRoots : Nat → Nat
  macroMaterialized : Finset Nat
  groupHasMeaningfulDependency : Finset Nat
  meaningfulProducers : Worklist Nat
  demandedProducers : Worklist Nat
  processedDemandedChildren : Finset ExpansionId
  pendingRequiredExpansions : List ExpansionId
  demandClauseHasCarrier : Finset Nat
  demandClauseHasDependentChild : Finset Nat
  demandClauseSatisfied : Finset Nat
  conditionalCompileMemberState : Nat → Finset MemberSide
  conditionalActualMemberState : Nat → Finset MemberSide
  actualDefinitionClassProcessed : Finset Nat

/-- The closure together with the caller's sets, which it extends. -/
structure RetentionState where
  closure : RetentionClosure
  compilePresent : Lane GraphNode
  actualRequired : Lane GraphNode
  retainedUnits : Lane SourceUnitId

namespace RetentionClosure

variable (products : ValidatedMacroProducts) (members : ValidatedCompilerMemberConstraints)

/-- The positions of the retention roots of a group. -/
def groupRoots (group : Nat) : List Nat :=
  match products.materializations[group]? with
  | none => []
  | some m => m.retentionRoots.filterMap products.contributorIndex.nodeIndex

def staticProducers : List Nat :=
  (List.range products.outputMeaning.producers.length).filter
    products.outputMeaning.staticIntrinsicProducers

theorem nodup_staticProducers : (staticProducers products).Nodup := List.nodup_range.filter _

/-- Nodes that need neither sources nor parents. -/
def freeContributors : List Nat :=
  (List.range products.contributorIndex.count).filter fun node =>
    (products.contributorIndex.parentsAt node).isEmpty &&
      (products.contributorIndex.sourcesAt node).isEmpty

def new : RetentionClosure where
  presence := .empty
  actualDefinitions := .empty
  actualProducts := .empty
  source := .empty
  initialized := false
  macroSourcesOpened := ∅
  requestedContributors := .empty
  contributorComplete := ∅
  pendingCompleteContributors := freeContributors products
  contributorMissingSources := fun node => (products.contributorIndex.sourcesAt node).length
  contributorMissingParents := fun node => (products.contributorIndex.parentsAt node).length
  groupMissingRoots := fun group => (groupRoots products group).length
  macroMaterialized := ∅
  groupHasMeaningfulDependency := ∅
  meaningfulProducers := .ofList (staticProducers products) (nodup_staticProducers products)
  demandedProducers := .empty
  processedDemandedChildren := ∅
  pendingRequiredExpansions := []
  demandClauseHasCarrier := ∅
  demandClauseHasDependentChild := ∅
  demandClauseSatisfied := ∅
  conditionalCompileMemberState := fun _ => ∅
  conditionalActualMemberState := fun _ => ∅
  actualDefinitionClassProcessed := ∅

/-! ## Feeding the closure -/

def addPresence (c : RetentionClosure) (nodes : List GraphNode) : RetentionClosure :=
  { c with presence := c.presence.addAll nodes }

/-- A node that is a definition is also a trigger of actual requirements. -/
def addActualNode (c : RetentionClosure) (node : GraphNode) : RetentionClosure :=
  let c :=
    match node with
    | .definition definition =>
      { c with actualDefinitions := c.actualDefinitions.add definition }
    | _ => c
  { c with actualProducts := c.actualProducts.add node }

def addActual (c : RetentionClosure) (nodes : List GraphNode) : RetentionClosure :=
  nodes.foldl addActualNode c

def addSource (c : RetentionClosure) (units : List SourceUnitId) : RetentionClosure :=
  { c with source := c.source.addAll units }

/-! ## Contributors, producers and clauses -/

def requestContributor (c : RetentionClosure) (node : Nat) : RetentionClosure :=
  { c with requestedContributors := c.requestedContributors.add node }

def queueContributorIfComplete (c : RetentionClosure) (node : Nat) : RetentionClosure :=
  if node ∉ c.contributorComplete ∧ c.contributorMissingSources node = 0 ∧
      c.contributorMissingParents node = 0 then
    { c with pendingCompleteContributors := c.pendingCompleteContributors ++ [node] }
  else c

def activateProducer (c : RetentionClosure) (producer : Nat) : RetentionClosure :=
  { c with meaningfulProducers := c.meaningfulProducers.add producer }

def activateDemandedProducer (c : RetentionClosure) (producer : Nat) : RetentionClosure :=
  { c with demandedProducers := c.demandedProducers.add producer }

def requestGroupSources (c : RetentionClosure) (group : Nat) : RetentionClosure :=
  if group ∈ c.macroSourcesOpened then c
  else
    (groupRoots products group).foldl requestContributor
      { c with macroSourcesOpened := insert group c.macroSourcesOpened }

def activateRequiredChild (c : RetentionClosure) (child : ExpansionId) : RetentionClosure :=
  match products.outputMeaning.producerIndex child with
  | some producer => c.activateDemandedProducer producer
  | none =>
    if child ∈ c.processedDemandedChildren then c
    else
      { c with
        processedDemandedChildren := insert child c.processedDemandedChildren
        pendingRequiredExpansions := c.pendingRequiredExpansions ++ [child] }

def activateTarget (c : RetentionClosure) (target : MacroDemandTarget) : RetentionClosure :=
  match target with
  | .producer producer => c.activateDemandedProducer producer
  | .group group => requestGroupSources products c group

def requestDemandClauseIfReady (c : RetentionClosure) (clause : Nat) : RetentionClosure :=
  match products.demandClauses[clause]? with
  | none => c
  | some demand =>
    if clause ∉ c.demandClauseSatisfied ∧ clause ∈ c.demandClauseHasCarrier ∧
        (demand.requiredExpansions ≠ [] ∨ demand.opaqueDependent ∨
          clause ∈ c.demandClauseHasDependentChild) then
      activateTarget products
        (demand.requiredExpansions.foldl (activateRequiredChild products)
          { c with demandClauseSatisfied := insert clause c.demandClauseSatisfied })
        demand.target
    else c

def addCarrier (c : RetentionClosure) (clause : Nat) : RetentionClosure :=
  if clause ∈ c.demandClauseHasCarrier then c
  else
    requestDemandClauseIfReady products
      { c with demandClauseHasCarrier := insert clause c.demandClauseHasCarrier } clause

def processDemandTrigger (c : RetentionClosure) (definition : DefinitionId) : RetentionClosure :=
  (products.demandClausesByCarrier definition).foldl (addCarrier products)
    ((products.outputMeaning.demandProducersByTrigger definition).foldl activateDemandedProducer c)

def addDependentChild (c : RetentionClosure) (clause : Nat) : RetentionClosure :=
  if clause ∈ c.demandClauseHasDependentChild then c
  else
    requestDemandClauseIfReady products { c with
      demandClauseHasDependentChild := insert clause c.demandClauseHasDependentChild } clause

def processDemandedChild (c : RetentionClosure) (child : ExpansionId) : RetentionClosure :=
  (products.dependentDemandClausesByChild child).foldl (addDependentChild products) c

def activateGroupMeaning (c : RetentionClosure) (group : Nat) : RetentionClosure :=
  if products.outputMeaning.groupHasIntrinsicOutput group ∨
      group ∈ c.groupHasMeaningfulDependency then
    c.activateProducer (products.outputMeaning.producerByGroup group)
  else c

/-- Whether a node has output that means something. -/
def productIsMeaningful (c : RetentionClosure) (node : GraphNode) : Bool :=
  match node with
  | .expansion expansion =>
    (products.outputMeaning.producerIndex expansion).all fun producer =>
      producer ∈ c.meaningfulProducers.seen
  | _ => true

end RetentionClosure

namespace RetentionState

open RetentionClosure

variable (products : ValidatedMacroProducts) (members : ValidatedCompilerMemberConstraints)

/-- Apply a step of the closure that leaves the caller's sets alone. -/
def onClosure (s : RetentionState) (f : RetentionClosure → RetentionClosure) : RetentionState :=
  { s with closure := f s.closure }

def requireMaterializedCompile (s : RetentionState) (node : GraphNode) : RetentionState :=
  if node ∈ s.compilePresent.required then s
  else
    { s with
      compilePresent := s.compilePresent.insert node
      closure := s.closure.addPresence [node] }

def requireActual (s : RetentionState) (node : GraphNode) : RetentionState :=
  let s := s.requireMaterializedCompile node
  if node ∈ s.actualRequired.required then s
  else
    { s with
      actualRequired := s.actualRequired.insert node
      closure := s.closure.addActual [node] }

def retainSource (s : RetentionState) (unit : SourceUnitId) : RetentionState :=
  if unit ∈ s.retainedUnits.required then s
  else
    { s with
      retainedUnits := s.retainedUnits.insert unit
      closure := s.closure.addSource [unit] }

/-! ## Processing one item -/

def processActualProduct (product : GraphNode) (s : RetentionState) : RetentionState :=
  match products.actualDefinitionClasses.findIdx? fun definitions =>
    definitions.contains product with
  | none => s
  | some definitionClass =>
    if definitionClass ∈ s.closure.actualDefinitionClassProcessed then s
    else
      (products.actualDefinitionClasses.getD definitionClass []).foldl requireActual
        (s.onClosure fun c =>
          { c with
            actualDefinitionClassProcessed :=
              insert definitionClass c.actualDefinitionClassProcessed })

/-- The required definition of a conditional requirement, once both sides have triggered. -/
def conditionalRequired (index : Nat) (sides : Finset MemberSide) : List GraphNode :=
  match members.conditionalRequirements[index]? with
  | none => []
  | some conditional =>
    if sides = {.left, .right} then [.definition conditional.required] else []

def processCompileConditional (s : RetentionState) (conditional : Nat × MemberSide) :
    RetentionState :=
  let sides := insert conditional.2 (s.closure.conditionalCompileMemberState conditional.1)
  (conditionalRequired members conditional.1 sides).foldl requireMaterializedCompile
    (s.onClosure fun c =>
      { c with
        conditionalCompileMemberState :=
          Function.update c.conditionalCompileMemberState conditional.1 sides })

def processActualConditional (s : RetentionState) (conditional : Nat × MemberSide) :
    RetentionState :=
  let sides := insert conditional.2 (s.closure.conditionalActualMemberState conditional.1)
  (conditionalRequired members conditional.1 sides).foldl requireActual
    (s.onClosure fun c =>
      { c with
        conditionalActualMemberState :=
          Function.update c.conditionalActualMemberState conditional.1 sides })

def processCompileMembers (trigger : DefinitionId) (s : RetentionState) : RetentionState :=
  (members.conditionalByTrigger trigger).foldl (processCompileConditional members)
    ((members.requirementsByTrigger trigger).foldl
      (fun s required => s.requireMaterializedCompile (.definition required)) s)

def processActualMembers (trigger : DefinitionId) (s : RetentionState) : RetentionState :=
  (members.conditionalByTrigger trigger).foldl (processActualConditional members)
    ((members.requirementsByTrigger trigger).foldl
      (fun s required => s.requireActual (.definition required)) s)

/-- The members that a group adds to one of its owners. -/
def ownerMembers (group : Nat) (owner : GraphNode) : List GraphNode :=
  match products.materializations[group]? with
  | none => []
  | some m => (m.ownerRequirements.filter fun requirement =>
      owner = .definition requirement.owner).flatMap fun requirement =>
        requirement.members.map .definition

def triggerGroup (node : GraphNode) (s : RetentionState) (group : Nat) : RetentionState :=
  let s := s.onClosure fun c =>
    requestGroupSources products
      { c with groupHasMeaningfulDependency := insert group c.groupHasMeaningfulDependency } group
  if group ∈ s.closure.macroMaterialized then
    (ownerMembers products group node).foldl requireMaterializedCompile s
  else s

def processMacroTrigger (node : GraphNode) (s : RetentionState) : RetentionState :=
  if productIsMeaningful products s.closure node then
    (products.compileTriggerGroups node).foldl (triggerGroup products node) s
  else s

def processPresence (node : GraphNode) (s : RetentionState) : RetentionState :=
  processMacroTrigger products node <|
    match node with
    | .definition trigger => processCompileMembers members trigger s
    | _ => s

def processActualDefinition (trigger : DefinitionId) (s : RetentionState) : RetentionState :=
  (processActualMembers members trigger s).onClosure fun c =>
    processDemandTrigger products c trigger

/-- A contributor misses one source less. -/
def countSource (c : RetentionClosure) (node : Nat) : RetentionClosure :=
  { c with
    contributorMissingSources :=
      Function.update c.contributorMissingSources node (c.contributorMissingSources node - 1)
  }.queueContributorIfComplete node

def processSource (unit : SourceUnitId) (s : RetentionState) : RetentionState :=
  s.onClosure ((products.contributorIndex.nodesBySource unit).foldl countSource ·)

def processRequestedContributor (node : Nat) (s : RetentionState) : RetentionState :=
  ((products.contributorIndex.sourcesAt node).foldl retainSource s).onClosure fun c =>
    (products.contributorIndex.parentsAt node).foldl requestContributor c

/-- A child of a complete contributor misses one parent less. -/
def countParent (c : RetentionClosure) (child : Nat) : RetentionClosure :=
  { c with
    contributorMissingParents :=
      Function.update c.contributorMissingParents child (c.contributorMissingParents child - 1)
  }.queueContributorIfComplete child

/-- The products of a group, and its members for the owners that are present. -/
def groupOutputs (group : Nat) (present : Finset GraphNode) : List GraphNode :=
  match products.materializations[group]? with
  | none => []
  | some m => m.products ++ (m.ownerRequirements.filter fun requirement =>
      .definition requirement.owner ∈ present).flatMap fun requirement =>
        requirement.members.map .definition

def materializeGroupOutputs (group : Nat) (s : RetentionState) : RetentionState :=
  (groupOutputs products group s.compilePresent.required).foldl requireMaterializedCompile s

/-- A group misses one root less, and materializes when it misses none. -/
def countRoot (s : RetentionState) (group : Nat) : RetentionState :=
  let s := s.onClosure fun c =>
    { c with
      groupMissingRoots :=
        Function.update c.groupMissingRoots group (c.groupMissingRoots group - 1) }
  if s.closure.groupMissingRoots group = 0 ∧ group ∉ s.closure.macroMaterialized then
    materializeGroupOutputs products group (s.onClosure fun c =>
      activateGroupMeaning products
        { c with macroMaterialized := insert group c.macroMaterialized } group)
  else s

def processCompleteContributor (node : Nat) (s : RetentionState) : RetentionState :=
  if node ∈ s.closure.contributorComplete ∨ s.closure.contributorMissingSources node ≠ 0 ∨
      s.closure.contributorMissingParents node ≠ 0 then s
  else
    (products.groupsByRoot node).foldl (countRoot products) (s.onClosure fun c =>
      (products.contributorIndex.children node).foldl countParent
        { c with contributorComplete := insert node c.contributorComplete })

/-- A group learns that one of its dependencies is meaningful. -/
def addMeaningfulDependency (c : RetentionClosure) (group : Nat) : RetentionClosure :=
  let newly := group ∉ c.groupHasMeaningfulDependency
  let c := { c with groupHasMeaningfulDependency := insert group c.groupHasMeaningfulDependency }
  if newly ∧ group ∈ c.macroMaterialized then
    c.activateProducer (products.outputMeaning.producerByGroup group)
  else c

/-- The expansion of a producer. -/
def producerAt (producer : Nat) : ExpansionId := products.outputMeaning.producers.getD producer ⟨0⟩

def processMeaningfulProducer (child : Nat) (s : RetentionState) : RetentionState :=
  let node : GraphNode := .expansion (producerAt products child)
  let s := s.onClosure fun c =>
    (products.outputMeaning.dependentGroupsByProduct node).foldl (addMeaningfulDependency products)
      ((products.outputMeaning.dependentProducersByChild child).foldl activateProducer c)
  if node ∈ s.closure.presence.processed then
    processMacroTrigger products node s
  else s

def processDemandedProducer (producer : Nat) (s : RetentionState) : RetentionState :=
  let child := producerAt products producer
  if child ∈ s.closure.processedDemandedChildren then s
  else
    ((s.onClosure fun c =>
        { c with processedDemandedChildren := insert child c.processedDemandedChildren }
      ).requireActual (.expansion child)).onClosure fun c => processDemandedChild products c child

def processRequiredExpansion (child : ExpansionId) (s : RetentionState) : RetentionState :=
  (s.requireActual (.expansion child)).onClosure fun c => processDemandedChild products c child

/-! ## The queues -/

def popActualProduct (s : RetentionState) : Option (GraphNode × RetentionState) :=
  s.closure.actualProducts.pop.map fun p =>
    (p.1, s.onClosure fun c => { c with actualProducts := p.2 })

def popPresence (s : RetentionState) : Option (GraphNode × RetentionState) :=
  s.closure.presence.pop.map fun p => (p.1, s.onClosure fun c => { c with presence := p.2 })

def popActualDefinition (s : RetentionState) : Option (DefinitionId × RetentionState) :=
  s.closure.actualDefinitions.pop.map fun p =>
    (p.1, s.onClosure fun c => { c with actualDefinitions := p.2 })

def popSource (s : RetentionState) : Option (SourceUnitId × RetentionState) :=
  s.closure.source.pop.map fun p => (p.1, s.onClosure fun c => { c with source := p.2 })

def popRequestedContributor (s : RetentionState) : Option (Nat × RetentionState) :=
  s.closure.requestedContributors.pop.map fun p =>
    (p.1, s.onClosure fun c => { c with requestedContributors := p.2 })

def popCompleteContributor (s : RetentionState) : Option (Nat × RetentionState) :=
  match s.closure.pendingCompleteContributors with
  | [] => none
  | node :: rest => some (node, s.onClosure fun c => { c with pendingCompleteContributors := rest })

def popMeaningfulProducer (s : RetentionState) : Option (Nat × RetentionState) :=
  s.closure.meaningfulProducers.pop.map fun p =>
    (p.1, s.onClosure fun c => { c with meaningfulProducers := p.2 })

def popDemandedProducer (s : RetentionState) : Option (Nat × RetentionState) :=
  s.closure.demandedProducers.pop.map fun p =>
    (p.1, s.onClosure fun c => { c with demandedProducers := p.2 })

def popRequiredExpansion (s : RetentionState) : Option (ExpansionId × RetentionState) :=
  match s.closure.pendingRequiredExpansions with
  | [] => none
  | child :: rest => some (child, s.onClosure fun c => { c with pendingRequiredExpansions := rest })

/-! ## The loop -/

/-- The nodes that the rules mention. -/
def mentionedNodes : List GraphNode :=
  products.materializations.flatMap (fun m =>
      m.products ++ m.ownerRequirements.flatMap fun r => r.members.map .definition) ++
    products.actualDefinitionClasses.flatten ++
    members.requirements.map (fun r => .definition r.required) ++
    members.conditionalRequirements.map (fun r => .definition r.required) ++
    products.outputMeaning.producers.map .expansion ++
    products.demandClauses.flatMap fun clause => clause.requiredExpansions.map .expansion

def mentionedDefinitions : List DefinitionId :=
  (mentionedNodes products members).filterMap fun node =>
    match node with
    | .definition definition => some definition
    | _ => none

def mentionedSources : List SourceUnitId := products.contributorIndex.localSources.flatten

def contributors : List Nat := List.range products.contributorIndex.count

def producers : List Nat := List.range products.outputMeaning.producers.length

def requiredExpansions : List ExpansionId :=
  products.demandClauses.flatMap MacroDemandClause.requiredExpansions

def requiredLeft (processed : Finset ExpansionId) (pending : List ExpansionId) : Nat :=
  (requiredExpansions products).countP (fun child => child ∉ processed) + pending.length

/-- What is queued, and what may still be queued. -/
def work (s : RetentionState) : Nat :=
  s.closure.presence.left (mentionedNodes products members) +
    s.closure.actualProducts.left (mentionedNodes products members) +
    s.closure.actualDefinitions.left (mentionedDefinitions products members) +
    s.closure.source.left (mentionedSources products) +
    s.closure.requestedContributors.left (contributors products) +
    (total s.closure.contributorMissingSources (contributors products) +
      total s.closure.contributorMissingParents (contributors products) +
      s.closure.pendingCompleteContributors.length) +
    s.closure.meaningfulProducers.left (producers products) +
    s.closure.demandedProducers.left (producers products) +
    requiredLeft products s.closure.processedDemandedChildren s.closure.pendingRequiredExpansions

def busy (s : RetentionState) : Bool :=
  !s.closure.presence.pending.isEmpty || !s.closure.actualDefinitions.pending.isEmpty ||
    !s.closure.actualProducts.pending.isEmpty || !s.closure.source.pending.isEmpty ||
    !s.closure.requestedContributors.pending.isEmpty ||
    !s.closure.pendingCompleteContributors.isEmpty ||
    !s.closure.meaningfulProducers.pending.isEmpty ||
    !s.closure.demandedProducers.pending.isEmpty || !s.closure.pendingRequiredExpansions.isEmpty

/-- One pass over the nine queues.  Each of them is drained. -/
def closeRound (limit : Nat) (s : RetentionState) : RetentionState :=
  let s := drain popActualProduct (processActualProduct products) limit s
  let s := drain popPresence (processPresence products members) limit s
  let s := drain popActualDefinition (processActualDefinition products members) limit s
  let s := drain popSource (processSource products) limit s
  let s := drain popRequestedContributor (processRequestedContributor products) limit s
  let s := drain popCompleteContributor (processCompleteContributor products) limit s
  let s := drain popMeaningfulProducer (processMeaningfulProducer products) limit s
  let s := drain popDemandedProducer (processDemandedProducer products) limit s
  drain popRequiredExpansion (processRequiredExpansion products) limit s

def close (s : RetentionState) : RetentionState :=
  let limit := work products members s
  whileDo busy (closeRound products members limit) limit s

end RetentionState

end ItemDependencies
