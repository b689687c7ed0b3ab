import ItemDependencies.Library.Lane
import ItemDependencies.Library.StrongComponents
import ItemDependencies.Retention.SourceSites

/-!
# Compiler reachability

The nodes that the compiler needs, computed incrementally.  An edge of the
dependency graph fires once its origin is reachable, its site gate is open (a
place where the dependency was observed is retained) and the expansion that it
leads to survives (all written invocations it depends on are retained).

Survival is a greatest fixed point over the parents of expansions, which may be
cyclic.  The strong components of the parent relation turn it into a least
fixed point: a component survives once all of its written invocations are
retained and all components above it survive.
-/

namespace ItemDependencies

open Library

/-- An edge of the graph, as the closure sees it. -/
structure IndexedCompilerEdge where
  fromNode : GraphNode
  toNode : GraphNode
  siteUnconditional : Bool
  targetComponent : Option Nat
deriving DecidableEq

/-- An observation range: its owners and the edges that wait for it. -/
structure IndexedSourceSite where
  owners : List SourceUnitId
  edges : List Nat
deriving DecidableEq

/-- A strong component of the expansions. -/
structure ExpansionComponent where
  sourceUnits : List SourceUnitId
  parents : List Nat
  children : List Nat
  targetEdges : List Nat
deriving DecidableEq

/-- What the presence and the demand closures share. -/
structure CompilerReachabilityIndex where
  edges : List IndexedCompilerEdge
  edgesByFrom : GraphNode → List Nat
  sourceSites : List IndexedSourceSite
  sitesBySource : List (List Nat)
  components : List ExpansionComponent
  componentsBySource : List (List Nat)

/-! ## Components of expansions -/

/-- The parents of an expansion by number. -/
def expansionParents (graph : DependencyGraph) (expansion : Nat) : List Nat :=
  (graph.expansions[expansion]?.map fun node =>
    sortDedup (node.parents.map ExpansionId.index)).getD []

/-- The expansions that have an expansion among their parents, by number. -/
def expansionChildren (graph : DependencyGraph) (expansion : Nat) : List Nat :=
  (List.range graph.expansions.length).filter fun child =>
    decide (expansion ∈ expansionParents graph child)

/-- Expansions are numbered densely, and their parents are other expansions. -/
def validExpansions (graph : DependencyGraph) : Bool :=
  graph.expansions.zipIdx.all fun (node, index) =>
    node.id.index == index && node.parents.all fun parent =>
      decide (parent.index < graph.expansions.length) && parent.index != index

/-- The written invocation of an expansion, if it is one that can be retained. -/
def writtenInvocationUnit (source : SourceInventory) (unit : SourceUnitId) :
    Except RetentionError SourceUnitId :=
  match source.units[unit.index]? with
  | some written =>
    if written.id = unit ∧ written.kind = .macroInvocation ∧ written.cfgState = .active then
      .ok written.id
    else .error .invalidGraph
  | none => .error .invalidGraph

/-- The facts of one component but for its children. -/
def expansionComponent (source : SourceInventory) (graph : DependencyGraph)
    (componentByExpansion : Nat → Option Nat) (component : Nat) (members : List Nat) :
    Except RetentionError ExpansionComponent := do
  let written := (members.filterMap fun expansion => graph.expansions[expansion]?).filterMap
    ExpansionNode.writtenInvocation
  let sourceUnits ← written.mapM (writtenInvocationUnit source)
  let parents := (members.flatMap (expansionParents graph)).filterMap componentByExpansion
  return {
    sourceUnits := sortDedup sourceUnits
    parents := sortDedup (parents.filter (· ≠ component))
    children := []
    targetEdges := [] }

/-- The components below a component. -/
def componentChildren (components : List ExpansionComponent) (parent : Nat) : List Nat :=
  (List.range components.length).filter fun child =>
    decide (∃ facts ∈ components[child]?, parent ∈ facts.parents)

/-- The component of each expansion, and the facts about the components. -/
def expansionComponents (source : SourceInventory) (graph : DependencyGraph) :
    Except RetentionError ((Nat → Option Nat) × List ExpansionComponent) := do
  if !validExpansions graph then throw .invalidGraph
  let found := StrongComponents.components (expansionParents graph) graph.expansions.length
    (expansionChildren graph)
  let components ← found.members.zipIdx.mapM fun (members, component) =>
    expansionComponent source graph found.component component (sortDedup members)
  return (found.component, components.zipIdx.map fun (facts, component) =>
    { facts with children := componentChildren components component })

/-! ## The index -/

/-- All kinds of edges count as compiler dependencies. -/
def isCompilerDependency : DependencyKind → Bool
  | .definition _
  | .expansionDiscoveredIn
  | .expansionSemanticParent
  | .expansionSourceCallParent
  | .macroDefinition
  | .generatedBy
  | .selectionProof _ _
  | .proofRelation _ _
  | .materializesDefinition
  | .mono _ _
  | .expansionUse => true

/-- Whether an edge is followed by the closure.  Uses of delegated expansions are not: those are
reached through their validated outputs. -/
def DependencyEdge.isIndexed (delegated : Finset ExpansionId) (edge : DependencyEdge) : Bool :=
  isCompilerDependency edge.kind &&
    !(edge.kind = .expansionUse &&
      match edge.toNode with
      | .expansion expansion => decide (expansion ∈ delegated)
      | _ => false)

def ObservationSite.isSource : ObservationSite → Bool
  | .source _ => true
  | _ => false

/-- An edge without a site gate. -/
def DependencyEdge.siteUnconditional (edge : DependencyEdge) : Bool :=
  edge.sites.isEmpty || !edge.fromNode.isDefinition || edge.sites.any fun site => !site.isSource

/-- The ranges of the sites of an edge. -/
def DependencyEdge.sourceRanges (edge : DependencyEdge) : List ByteRange :=
  edge.sites.filterMap fun
    | .source range => some range
    | _ => none

/-- The expansion whose survival an edge waits for. -/
def DependencyEdge.targetExpansion (edge : DependencyEdge) : Option ExpansionId :=
  match edge.kind, edge.toNode with
  | .expansionUse, .expansion expansion => some expansion
  | .generatedBy, .expansion expansion => some expansion
  | _, _ => none

/-- What `CompilerReachabilityIndex.new` has built after some of the edges. -/
structure IndexBuilder where
  edges : List IndexedCompilerEdge
  edgesByFrom : GraphNode → List Nat
  sourceSites : List IndexedSourceSite
  sourceSiteIds : ByteRange → Option Nat
  sitesBySource : Nat → List Nat
  targetEdges : Nat → List Nat

def IndexBuilder.empty : IndexBuilder :=
  ⟨[], fun _ => [], [], fun _ => none, fun _ => [], fun _ => []⟩

/-- The site number of a range, which is new when the range has not been seen before. -/
def IndexBuilder.siteId (source : SourceInventory) (sites : SourceSiteOwnerIndex)
    (b : IndexBuilder) (range : ByteRange) : Except RetentionError (IndexBuilder × Nat) := do
  match b.sourceSiteIds range with
  | some site => return (b, site)
  | none =>
    let owners := sortDedup (← sites.owners range)
    if owners.isEmpty || owners.any (fun owner =>
        decide (source.units[owner.index]?.map WrittenUnit.id ≠ some owner)) then
      throw .invalidGraph
    let site := b.sourceSites.length
    return ({ b with
      sourceSites := b.sourceSites ++ [⟨owners, []⟩]
      sourceSiteIds := Function.update b.sourceSiteIds range (some site)
      sitesBySource := fun unit =>
        if unit ∈ owners.map SourceUnitId.index then b.sitesBySource unit ++ [site]
        else b.sitesBySource unit }, site)

/-- The site numbers of some ranges. -/
def IndexBuilder.siteIds (source : SourceInventory) (sites : SourceSiteOwnerIndex) :
    IndexBuilder → List ByteRange → Except RetentionError (IndexBuilder × List Nat)
  | b, [] => .ok (b, [])
  | b, range :: ranges => do
    let (b, site) ← b.siteId source sites range
    let (b, rest) ← siteIds source sites b ranges
    return (b, site :: rest)

/-- The site numbers of an edge, which has some only when it waits for them. -/
def IndexBuilder.edgeSiteIds (source : SourceInventory) (sites : SourceSiteOwnerIndex)
    (b : IndexBuilder) (edge : DependencyEdge) : Except RetentionError (IndexBuilder × List Nat) :=
  if edge.siteUnconditional then .ok (b, []) else b.siteIds source sites edge.sourceRanges

/-- Index one more edge. -/
def IndexBuilder.addEdge (source : SourceInventory) (sites : SourceSiteOwnerIndex)
    (delegated : Finset ExpansionId) (componentByExpansion : Nat → Option Nat) (b : IndexBuilder)
    (edge : DependencyEdge) : Except RetentionError IndexBuilder := do
  if !edge.isIndexed delegated then return b
  let (b, edgeSites) ← b.edgeSiteIds source sites edge
  let edgeSites := sortDedup edgeSites
  let targetComponent := edge.targetExpansion.bind fun expansion =>
    componentByExpansion expansion.index
  if edge.targetExpansion.isSome && targetComponent.isNone then throw .invalidGraph
  let edgeId := b.edges.length
  if !edge.siteUnconditional && edgeSites.isEmpty then throw .invalidGraph
  return { b with
    edges := b.edges ++ [⟨edge.fromNode, edge.toNode, edge.siteUnconditional, targetComponent⟩]
    edgesByFrom := Function.update b.edgesByFrom edge.fromNode
      (b.edgesByFrom edge.fromNode ++ [edgeId])
    sourceSites := b.sourceSites.zipIdx.map fun (facts, site) =>
      if site ∈ edgeSites then { facts with edges := facts.edges ++ [edgeId] } else facts
    targetEdges := match targetComponent with
      | some component =>
        Function.update b.targetEdges component (b.targetEdges component ++ [edgeId])
      | none => b.targetEdges }

def CompilerReachabilityIndex.new (source : SourceInventory) (sites : SourceSiteOwnerIndex)
    (graph : DependencyGraph) (delegated : Finset ExpansionId) :
    Except RetentionError CompilerReachabilityIndex := do
  let (componentByExpansion, components) ← expansionComponents source graph
  let b ← graph.edges.foldlM (IndexBuilder.addEdge source sites delegated componentByExpansion)
    .empty
  return {
    edges := b.edges
    edgesByFrom := fun node => sortDedup (b.edgesByFrom node)
    sourceSites := b.sourceSites
    sitesBySource := (List.range source.units.length).map fun unit =>
      sortDedup (b.sitesBySource unit)
    components := components.zipIdx.map fun (facts, component) =>
      { facts with targetEdges := sortDedup (b.targetEdges component) }
    componentsBySource := (List.range source.units.length).map fun unit =>
      (List.range components.length).filter fun component =>
        decide (∃ facts ∈ components[component]?, unit ∈ facts.sourceUnits.map SourceUnitId.index) }

/-! ## The closure -/

/-- State of the closure.  Every unit, component, node and edge is consumed only when one of its
gates opens. -/
structure CompilerReachabilityClosure where
  initialized : Bool
  retainedSources : Nat → Bool
  reachableNodes : Finset GraphNode
  siteRetainedOwners : Nat → Nat
  siteStates : Nat → Nat
  dirtySites : Finset Nat
  componentMissingSources : Nat → Nat
  componentMissingParents : Nat → Nat
  componentSurvives : Nat → Bool
  edgeSiteOpen : Nat → Bool
  edgePartialSites : Nat → Nat
  edgeFired : Nat → Bool
  edgePending : Nat → Bool
  pendingNodes : List GraphNode
  pendingComponents : List Nat
  pendingEdges : List Nat

namespace CompilerReachabilityClosure

variable (index : CompilerReachabilityIndex)

/-- The source units of a component of the index. -/
def componentSources (component : Nat) : List SourceUnitId :=
  (index.components[component]?.map ExpansionComponent.sourceUnits).getD []

def componentParents (component : Nat) : List Nat :=
  (index.components[component]?.map ExpansionComponent.parents).getD []

def componentChildren (component : Nat) : List Nat :=
  (index.components[component]?.map ExpansionComponent.children).getD []

def targetEdges (component : Nat) : List Nat :=
  (index.components[component]?.map ExpansionComponent.targetEdges).getD []

def siteOwners (site : Nat) : List SourceUnitId :=
  (index.sourceSites[site]?.map IndexedSourceSite.owners).getD []

def siteEdges (site : Nat) : List Nat :=
  (index.sourceSites[site]?.map IndexedSourceSite.edges).getD []

def queueComponentIfReady (c : CompilerReachabilityClosure) (component : Nat) :
    CompilerReachabilityClosure :=
  if !c.componentSurvives component && c.componentMissingSources component == 0 &&
      c.componentMissingParents component == 0 then
    { c with pendingComponents := c.pendingComponents ++ [component] }
  else c

def queueEdge (c : CompilerReachabilityClosure) (edge : Nat) : CompilerReachabilityClosure :=
  if !c.edgeFired edge && !c.edgePending edge then
    { c with
      edgePending := Function.update c.edgePending edge true
      pendingEdges := c.pendingEdges ++ [edge] }
  else c

def new : CompilerReachabilityClosure :=
  (List.range index.components.length).foldl queueComponentIfReady
    { initialized := false
      retainedSources := fun _ => false
      reachableNodes := ∅
      siteRetainedOwners := fun _ => 0
      siteStates := fun _ => 0
      dirtySites := ∅
      componentMissingSources := fun component => (componentSources index component).length
      componentMissingParents := fun component => (componentParents index component).length
      componentSurvives := fun _ => false
      edgeSiteOpen := fun edge =>
        (index.edges[edge]?.map IndexedCompilerEdge.siteUnconditional).getD false
      edgePartialSites := fun _ => 0
      edgeFired := fun _ => false
      edgePending := fun _ => false
      pendingNodes := []
      pendingComponents := []
      pendingEdges := [] }

def addNode (c : CompilerReachabilityClosure) (node : GraphNode) : CompilerReachabilityClosure :=
  if node ∈ c.reachableNodes then c
  else
    { c with
      reachableNodes := insert node c.reachableNodes
      pendingNodes := c.pendingNodes ++ [node] }

def addReachable (c : CompilerReachabilityClosure) (nodes : List GraphNode) :
    CompilerReachabilityClosure :=
  nodes.foldl addNode c

/-- One more owner of a site is retained. -/
def countSiteOwner (c : CompilerReachabilityClosure) (site : Nat) : CompilerReachabilityClosure :=
  { c with
    siteRetainedOwners :=
      Function.update c.siteRetainedOwners site (c.siteRetainedOwners site + 1)
    dirtySites := insert site c.dirtySites }

/-- One more written invocation of a component is retained. -/
def countComponentSource (c : CompilerReachabilityClosure) (component : Nat) :
    Except RetentionError CompilerReachabilityClosure :=
  if c.componentMissingSources component = 0 then .error .invalidGraph
  else
    .ok { c with
      componentMissingSources := Function.update c.componentMissingSources component
        (c.componentMissingSources component - 1) }

/-- Retain one unit.  The components that it belongs to are collected on the way. -/
def addSource (state : CompilerReachabilityClosure × Finset Nat) (unit : SourceUnitId) :
    Except RetentionError (CompilerReachabilityClosure × Finset Nat) := do
  let (c, affected) := state
  if index.sitesBySource.length ≤ unit.index then throw .invalidGraph
  if c.retainedSources unit.index then return (c, affected)
  let c := { c with retainedSources := Function.update c.retainedSources unit.index true }
  let c := (index.sitesBySource.getD unit.index []).foldl countSiteOwner c
  let components := index.componentsBySource.getD unit.index []
  let c ← components.foldlM countComponentSource c
  return (c, affected ∪ components.toFinset)

def addSources (c : CompilerReachabilityClosure) (units : List SourceUnitId) :
    Except RetentionError CompilerReachabilityClosure := do
  let (c, affected) ← units.foldlM (addSource index) (c, ∅)
  return (ascending affected).foldl queueComponentIfReady c

/-- The state of a site: without retained owners (0), with some of them (1) or with all (2). -/
def siteState (retained owners : Nat) : Nat :=
  if retained = 0 then 0 else if retained = owners then 2 else 1

/-- An edge learns that one of its sites has changed its state. -/
def updateEdgeSite (previous state : Nat) (c : CompilerReachabilityClosure) (edge : Nat) :
    Except RetentionError CompilerReachabilityClosure := do
  if previous = 1 ∧ c.edgePartialSites edge = 0 then throw .invalidGraph
  let c :=
    if previous = 1 then
      { c with
        edgePartialSites := Function.update c.edgePartialSites edge (c.edgePartialSites edge - 1) }
    else c
  let c :=
    if state = 1 then
      { c with
        edgePartialSites := Function.update c.edgePartialSites edge (c.edgePartialSites edge + 1) }
    else if state = 2 then { c with edgeSiteOpen := Function.update c.edgeSiteOpen edge true }
    else c
  return c.queueEdge edge

/-- Bring the state of a site up to date. -/
def updateSite (c : CompilerReachabilityClosure) (site : Nat) :
    Except RetentionError CompilerReachabilityClosure := do
  let retained := c.siteRetainedOwners site
  let owners := (siteOwners index site).length
  if owners < retained then throw .invalidGraph
  let state := siteState retained owners
  let previous := c.siteStates site
  if state = previous then return c
  (siteEdges index site).foldlM (updateEdgeSite previous state)
    { c with siteStates := Function.update c.siteStates site state }

/-- A component below a surviving component waits for one parent less. -/
def countParent (c : CompilerReachabilityClosure) (child : Nat) : CompilerReachabilityClosure :=
  let missing := c.componentMissingParents child
  { c with
    componentMissingParents := Function.update c.componentMissingParents child (missing - 1)
  }.queueComponentIfReady child

/-- Take the next component from the queue. -/
def closeComponent (c : CompilerReachabilityClosure) : CompilerReachabilityClosure :=
  match c.pendingComponents with
  | [] => c
  | component :: pending =>
    let c := { c with pendingComponents := pending }
    if c.componentSurvives component || c.componentMissingSources component != 0 ||
        c.componentMissingParents component != 0 then c
    else
      let c := { c with componentSurvives := Function.update c.componentSurvives component true }
      let c := (targetEdges index component).foldl queueEdge c
      (componentChildren index component).foldl countParent c

/-- Rounds that are always enough to empty the queue of components. -/
def componentWork (c : CompilerReachabilityClosure) : Nat :=
  c.pendingComponents.length +
    ∑ k ∈ Finset.range index.components.length, (componentChildren index k).length

def closeComponents (c : CompilerReachabilityClosure) : CompilerReachabilityClosure :=
  whileDo (fun c => !c.pendingComponents.isEmpty) (closeComponent index) (componentWork index c) c

/-- Queue the edges of all pending nodes.  No round adds to the queue of nodes, so that the loop
is a fold. -/
def closeNodes (c : CompilerReachabilityClosure) : CompilerReachabilityClosure :=
  c.pendingNodes.foldl (fun c node => (index.edgesByFrom node).foldl queueEdge c)
    { c with pendingNodes := [] }

/-- Take one edge: fire it if its gates are open.  The lane is the caller's set of nodes. -/
def closeEdge (state : CompilerReachabilityClosure × Lane GraphNode) (edge : Nat) :
    Except RetentionError (CompilerReachabilityClosure × Lane GraphNode) := do
  let (c, lane) := state
  let c := { c with edgePending := Function.update c.edgePending edge false }
  if c.edgeFired edge then return (c, lane)
  match index.edges[edge]? with
  | none => throw .invalidGraph
  | some facts =>
    if facts.fromNode ∉ c.reachableNodes ∨
        ∃ component ∈ facts.targetComponent, c.componentSurvives component = false then
      return (c, lane)
    if !c.edgeSiteOpen edge then
      if c.edgePartialSites edge ≠ 0 then throw .invalidGraph
      return (c, lane)
    let c := { c with edgeFired := Function.update c.edgeFired edge true }
    return (c.addNode facts.toNode, lane.insert facts.toNode)

/-- Take all pending edges.  No round adds to the queue of edges, so that the loop is a fold. -/
def closeEdges (state : CompilerReachabilityClosure × Lane GraphNode) :
    Except RetentionError (CompilerReachabilityClosure × Lane GraphNode) :=
  state.1.pendingEdges.foldlM (closeEdge index) ({ state.1 with pendingEdges := [] }, state.2)

/-- One round over the three queues. -/
def closeRound (state : CompilerReachabilityClosure × Lane GraphNode) :
    Except RetentionError (CompilerReachabilityClosure × Lane GraphNode) :=
  closeEdges index (closeNodes index (closeComponents index state.1), state.2)

def busy (state : CompilerReachabilityClosure × Lane GraphNode) : Bool :=
  !state.1.pendingComponents.isEmpty || !state.1.pendingNodes.isEmpty ||
    !state.1.pendingEdges.isEmpty

/-- Follow all edges that can fire. -/
def close (c : CompilerReachabilityClosure) (lane : Lane GraphNode) :
    Except RetentionError (CompilerReachabilityClosure × Lane GraphNode) := do
  let c ← (ascending c.dirtySites).foldlM (updateSite index) { c with dirtySites := ∅ }
  whileTry busy (closeRound index) (index.edges.length + 1) (c, lane)

end CompilerReachabilityClosure

end ItemDependencies
