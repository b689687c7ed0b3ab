import ItemDependencies.Graph.ExpansionOrder
import ItemDependencies.Library.Grouping
import ItemDependencies.Library.SortedMap
import ItemDependencies.Retention.ExpansionSurvival
import ItemDependencies.Snapshot.CollectionEdges

/-!
# Keys of expansions in a snapshot

Two sessions may find the same sibling expansions in different orders.  A snapshot numbers siblings
of one role by what makes them different: the definitions that they generate, that their subtrees
generate or that use them, or else the shapes of their subtrees.  Where none of these tells all of
them apart, they keep the order of the session.
-/

namespace ItemDependencies

open Library

/-- What the keys of the expansions are made from. -/
structure KeyedGraph where
  definitions : List Definition
  expansions : List KeyedExpansion
  edges : List DependencyEdge

/-- The owners of source sites, and the units that a reduction retains. -/
abbrev SourceFilter := SourceSiteOwnerIndex × Finset SourceUnitId

def ExpansionKeyPart.withoutOrdinal (part : ExpansionKeyPart) : ExpansionKeyPart :=
  { part with sameRoleOrdinal := 0 }

namespace KeyedGraph

variable (graph : KeyedGraph) (selected : Finset GraphNode)

def expansionNode (id : ExpansionId) : Except SnapshotError KeyedExpansion :=
  match (graph.expansions[id.index]?).filter fun node => node.id = id with
  | none => .error .invalidNode
  | some node => .ok node

def expansionKey (id : ExpansionId) : Except SnapshotError ExpansionKey :=
  (graph.expansionNode id).map KeyedExpansion.key

def definitionKey (id : DefinitionId) : Except SnapshotError DefinitionKey :=
  match (graph.definitions[id.index]?).filter fun definition => definition.id = id with
  | none => .error .invalidNode
  | some definition => .ok definition.key

/-! ## Witnesses -/

def edgeDefinition (edge : DependencyEdge) : Except SnapshotError DefinitionKey :=
  match edge.fromNode with
  | .definition id => graph.definitionKey id
  | _ => .error .invalidEdge

/-- The definitions that the expansion generates. -/
def generatedByWitness (expansion : ExpansionId) : Except SnapshotError (Finset DefinitionKey) := do
  let keys ← (graph.edges.filter fun edge => edge.toNode = .expansion expansion ∧
    edge.kind = .generatedBy ∧ edge.fromNode ∈ selected).mapM graph.edgeDefinition
  return keys.toFinset

def edgeExpansion (edge : DependencyEdge) : Except SnapshotError ExpansionId :=
  match edge.toNode with
  | .expansion id => .ok id
  | _ => .error .invalidEdge

/-- The expansion is selected, and its key starts with the other one. -/
def isBelow (above : ExpansionKey) (id : ExpansionId) : Except SnapshotError Bool :=
  if GraphNode.expansion id ∈ selected then
    (graph.expansionKey id).map fun key => above.parts.isPrefixOf key.parts
  else .ok false

def generatedBelow (above : ExpansionKey) (edge : DependencyEdge) :
    Except SnapshotError (Option DefinitionKey) := do
  let target ← edgeExpansion edge
  let below ← graph.isBelow selected above target
  if below then
    match edge.fromNode with
    | .definition id =>
      if edge.fromNode ∈ selected then (graph.definitionKey id).map some else return none
    | _ => throw .invalidEdge
  else return none

/-- The definitions that the expansion and those below it generate. -/
def generatedBySubtreeWitness (expansion : ExpansionId) :
    Except SnapshotError (Finset DefinitionKey) := do
  let above ← graph.expansionKey expansion
  let keys ← (graph.edges.filter fun edge => edge.kind = .generatedBy).mapM
    (graph.generatedBelow selected above)
  return keys.reduceOption.toFinset

end KeyedGraph

/-! ### Sites -/

def sourceSiteIsRetained (sourceSites : SourceSiteOwnerIndex) (retainedUnits : Finset SourceUnitId)
    (site : ByteRange) : Except RetentionError Bool := do
  let owners ← sourceSites.owners site
  match (owners.map fun unit => decide (unit ∈ retainedUnits)).dedup with
  | [state] => return state
  | _ => throw .invalidGraph

def snapshotObservationSite : ObservationSite → SnapshotObservationSite
  | .source range => .source range
  | .externalSource => .externalSource
  | .allocationOffset _ => .allocationReference
  | .vTableSlot slot => .vTableSlot slot
  | .compilerGenerated => .compilerGenerated

/-- A source site is observed where its owners are retained. -/
def isObserved (sourceFilter : Option SourceFilter) (site : ObservationSite) :
    Except SnapshotError Bool :=
  match site, sourceFilter with
  | .source range, some filter =>
    (sourceSiteIsRetained filter.1 filter.2 range).mapError fun _ => .invalidSourceSite
  | _, _ => .ok true

def snapshotObservationSites (observations : List ObservationSite)
    (sourceFilter : Option SourceFilter) :
    Except SnapshotError (Option (Finset SnapshotObservationSite)) := do
  let observed ← observations.filterM (isObserved sourceFilter)
  let sites := (observed.map snapshotObservationSite).toFinset
  return if observations = [] ∨ sites ≠ ∅ then some sites else none

namespace KeyedGraph

variable (graph : KeyedGraph) (selected : Finset GraphNode)

def observedUse (sourceFilter : Option SourceFilter) (edge : DependencyEdge) :
    Except SnapshotError (Option DefinitionKey) := do
  let sites ← snapshotObservationSites edge.sites sourceFilter
  if sites.isNone then return none
  else (graph.edgeDefinition edge).map some

/-- The definitions that use the expansion at an observed site. -/
def expansionUseWitness (sourceFilter : Option SourceFilter) (expansion : ExpansionId) :
    Except SnapshotError (Finset DefinitionKey) := do
  let keys ← (graph.edges.filter fun edge => edge.toNode = .expansion expansion ∧
    edge.kind = .expansionUse ∧ edge.fromNode ∈ selected).mapM (graph.observedUse sourceFilter)
  return keys.reduceOption.toFinset

end KeyedGraph

/-! ## Subtrees -/

/-- The depth of an expansion, which is the length of its key, and its number. -/
abbrev DepthEntry := Nat ×ₗ ExpansionId

structure ExpansionSubtreeShape where
  leaf : ExpansionKeyPart
  children : List Nat

instance : LinearOrder ExpansionSubtreeShape :=
  LinearOrder.lift' (fun shape => toLex (shape.leaf, shape.children)) fun a b h => by
    cases a
    cases b
    simpa using h

def subtreeRank (ranks : List (Option Nat)) (id : ExpansionId) : Except SnapshotError Nat :=
  match ranks[id.index]?.join with
  | none => .error .invalidNode
  | some rank => .ok rank

structure SubtreeChildren where
  children : List (List ExpansionId)
  idsByDepth : SortedMap Nat (List ExpansionId)

namespace KeyedGraph

variable (graph : KeyedGraph) (selected : Finset GraphNode)

/-- The selected expansion whose key is the path above. -/
def selectedParent (rawIds : SortedMap ExpansionKey ExpansionId) (raw : ExpansionKey)
    (depth : Nat) : Except SnapshotError ExpansionId :=
  match (rawIds.get ⟨raw.parts.take (depth - 1)⟩).filter fun parent =>
    GraphNode.expansion parent ∈ selected with
  | none => .error .invalidNode
  | some parent => .ok parent

/-- The last part of a key.  The depth is the length of the key, so the part is there. -/
def leafPart (id : ExpansionId) (depth : Nat) : Except SnapshotError ExpansionKeyPart := do
  let key ← graph.expansionKey id
  match key.parts[depth - 1]? with
  | none => throw .invalidNode
  | some leaf => return leaf

def collectChild (rawIds : SortedMap ExpansionKey ExpansionId) (collected : SubtreeChildren)
    (entry : DepthEntry) : Except SnapshotError SubtreeChildren := do
  let (depth, id) := ofLex entry
  let idsByDepth := collected.idsByDepth.insert depth
    ((collected.idsByDepth.get depth).getD [] ++ [id])
  if depth = 1 then return { collected with idsByDepth := idsByDepth }
  else do
    let raw ← graph.expansionKey id
    let parent ← selectedParent selected rawIds raw depth
    return ⟨collected.children.modify parent.index (· ++ [id]), idsByDepth⟩

def subtreeShape (children : List (List ExpansionId)) (ranks : List (Option Nat)) (depth : Nat)
    (id : ExpansionId) : Except SnapshotError (ExpansionId × ExpansionSubtreeShape) := do
  let leaf ← graph.leafPart id depth
  let childRanks ← (children[id.index]?.getD []).mapM (subtreeRank ranks)
  return (id, ⟨leaf.withoutOrdinal, childRanks.insertionSort (· ≤ ·)⟩)

/-- The rank of a shape is its place among those of its depth. -/
def storeRank (sorted : List ExpansionSubtreeShape) (ranks : List (Option Nat))
    (shape : ExpansionId × ExpansionSubtreeShape) : List (Option Nat) :=
  ranks.set shape.1.index (sorted.findIdx? fun other => other = shape.2)

def rankDepth (children : List (List ExpansionId)) (ranks : List (Option Nat))
    (entry : Nat × List ExpansionId) : Except SnapshotError (List (Option Nat)) := do
  let shapes ← entry.2.mapM (graph.subtreeShape children ranks entry.1)
  let sorted := sortDedup (shapes.map Prod.snd)
  if u32Size < sorted.length then throw .invalidNode
  else return shapes.foldl (storeRank sorted) ranks

def expansionSubtreeRanks (rawIds : SortedMap ExpansionKey ExpansionId)
    (byDepth : List DepthEntry) : Except SnapshotError (List (Option Nat)) := do
  let collected ← byDepth.foldlM (graph.collectChild selected rawIds)
    ⟨List.replicate graph.expansions.length [], .empty⟩
  collected.idsByDepth.entries.reverse.foldlM (graph.rankDepth collected.children)
    (List.replicate graph.expansions.length none)

end KeyedGraph

/-! ## Ordinals without some expansions -/

/-- The fields are those of the key part, without its ordinal. -/
structure ExpansionSiblingRole where
  parent : Option ExpansionId
  part : ExpansionKeyPart
deriving DecidableEq

def ExpansionSiblingRole.rank (role : ExpansionSiblingRole) :
    WithBot ExpansionId ×ₗ ExpansionKeyPart := toLex (role.parent, role.part)

def KeyedExpansion.siblingRole (node : KeyedExpansion) :
    Except SnapshotError ExpansionSiblingRole :=
  match node.key.parts.getLast? with
  | none => .error .invalidNode
  | some leaf => .ok ⟨node.identityParent, leaf.withoutOrdinal⟩

/-- An expansion with its role and its raw ordinal. -/
structure SiblingRecord where
  role : ExpansionSiblingRole
  rawOrdinal : Nat
  id : ExpansionId

structure FilteredOrdinals where
  ordinals : List (Option Nat)
  excludedBefore : Nat
  previous : Option Nat

namespace KeyedGraph

variable (graph : KeyedGraph) (outputless : Finset ExpansionId)

def siblingRecord (node : KeyedExpansion) : Except SnapshotError SiblingRecord :=
  match node.key.parts.getLast? with
  | none => .error .invalidNode
  | some leaf =>
    if graph.expansions.length ≤ node.id.index then .error .invalidNode
    else node.siblingRole.map fun role => ⟨role, leaf.sameRoleOrdinal, node.id⟩

def filterOrdinal (state : FilteredOrdinals) (record : SiblingRecord) :
    Except SnapshotError FilteredOrdinals :=
  if state.previous = some record.rawOrdinal ∨
      (graph.expansions[record.id.index]?).all (fun node => node.id ≠ record.id) then
    .error .invalidNode
  else if record.id ∈ outputless then
    if u32Size ≤ state.excludedBefore + 1 then .error .invalidNode
    else .ok ⟨state.ordinals.set record.id.index none, state.excludedBefore + 1,
      some record.rawOrdinal⟩
  else if record.rawOrdinal < state.excludedBefore then .error .invalidNode
  else .ok { state with
    ordinals := state.ordinals.set record.id.index (some (record.rawOrdinal - state.excludedBefore))
    previous := some record.rawOrdinal }

def filterGroup (ordinals : List (Option Nat)) (members : List SiblingRecord) :
    Except SnapshotError (List (Option Nat)) :=
  ((members.insertionSort fun a b => toLex (a.rawOrdinal, a.id) ≤ toLex (b.rawOrdinal, b.id)).foldlM
    (graph.filterOrdinal outputless) ⟨ordinals, 0, none⟩).map FilteredOrdinals.ordinals

def outputlessFilteredExpansionOrdinals : Except SnapshotError (List (Option Nat)) := do
  let affected ← (ascending outputless).mapM fun id => do
    let node ← graph.expansionNode id
    node.siblingRole
  let records ← graph.expansions.mapM graph.siblingRecord
  let ordinals := records.foldl
    (fun ordinals record => ordinals.set record.id.index (some record.rawOrdinal))
    (List.replicate graph.expansions.length none)
  let members := records.filter fun record => record.role ∈ affected
  (groups (fun a b => decide (a.rank ≤ b.rank)) SiblingRecord.role members).foldlM
    (graph.filterGroup outputless) ordinals

end KeyedGraph

/-! ## Keys -/

/-- A sibling with its raw ordinal and what has been seen of it so far. -/
structure WitnessedSibling where
  witness : Finset DefinitionKey
  rawOrdinal : Nat
  id : ExpansionId

/-- Siblings of one role, and what is known of their witnesses. -/
structure WitnessedGroup where
  members : List WitnessedSibling
  witnessesAreCanonical : Bool
  subtreeShapeIsAdmissible : Bool

/-- The parent in the snapshot and the last part without its ordinal. -/
abbrev SiblingGroupKey := WithBot ExpansionKey ×ₗ ExpansionKeyPart

namespace WitnessedGroup

variable (group : WitnessedGroup)

def noneWitnessed : Bool := group.members.all fun member => decide (member.witness = ∅)

def allWitnessed : Bool := group.members.all fun member => decide (member.witness ≠ ∅)

/-- No witness is empty, and none is there twice. -/
def toldApart : Bool :=
  group.allWitnessed && decide (group.members.map WitnessedSibling.witness).Nodup

def refine (witness : ExpansionId → Except SnapshotError (Finset DefinitionKey)) :
    Except SnapshotError WitnessedGroup := do
  let members ← group.members.mapM fun member =>
    (witness member.id).map fun seen => { member with witness := seen }
  return { group with members := members }

/-- The definitions below are only asked for where there are none above. -/
def refineBySubtree (witness : ExpansionId → Except SnapshotError (Finset DefinitionKey)) :
    Except SnapshotError WitnessedGroup :=
  if !group.witnessesAreCanonical && group.noneWitnessed then do
    let refined ← group.refine witness
    return { refined with witnessesAreCanonical := refined.toldApart }
  else .ok group

def refineByUse (witness : ExpansionId → Except SnapshotError (Finset DefinitionKey)) :
    Except SnapshotError WitnessedGroup :=
  if !group.witnessesAreCanonical && group.noneWitnessed then do
    let refined ← group.refine witness
    return { refined with
      subtreeShapeIsAdmissible := refined.noneWitnessed || refined.allWitnessed
      witnessesAreCanonical := refined.toldApart }
  else .ok group

def subtreeIsCanonical (subtreeRanks : List (Option Nat)) : Except SnapshotError Bool :=
  if group.subtreeShapeIsAdmissible && !group.witnessesAreCanonical then do
    let ranks ← group.members.mapM fun member => subtreeRank subtreeRanks member.id
    return decide ranks.Nodup
  else .ok false

/-- A missing rank comes before all others. -/
def rankOf (subtreeRanks : List (Option Nat)) (member : WitnessedSibling) : WithBot Nat :=
  subtreeRanks[member.id.index]?.join

def witnessRank (member : WitnessedSibling) :
    List (List DefinitionPartRank) ×ₗ Nat ×ₗ ExpansionId :=
  toLex (ascending (member.witness.image DefinitionKey.rank), toLex (member.rawOrdinal, member.id))

def sortMembers (subtreeRanks : List (Option Nat)) (subtreeIsCanonical : Bool) :
    List WitnessedSibling :=
  if group.witnessesAreCanonical then
    group.members.insertionSort fun a b => witnessRank a ≤ witnessRank b
  else if subtreeIsCanonical then
    group.members.insertionSort fun a b => rankOf subtreeRanks a ≤ rankOf subtreeRanks b
  else group.members.insertionSort fun a b => a.rawOrdinal ≤ b.rawOrdinal

end WitnessedGroup

namespace KeyedGraph

variable (graph : KeyedGraph) (selected : Finset GraphNode) (sourceFilter : Option SourceFilter)

def snapshotExpansionKey (keys : List ExpansionKey) (id : ExpansionId) :
    Except SnapshotError ExpansionKey :=
  match keys[id.index]? with
  | none => .error .invalidNode
  | some key => .ok key

def initialKeys : Except SnapshotError (List ExpansionKey) :=
  graph.expansions.zipIdx.mapM fun entry =>
    if entry.1.id.index = entry.2 ∧ entry.1.key.parts ≠ [] then .ok entry.1.key
    else .error .invalidNode

def rawIds : SortedMap ExpansionKey ExpansionId :=
  graph.expansions.foldl (fun ids node => ids.insert node.key node.id) .empty

def byDepth : List DepthEntry :=
  ((graph.expansions.filter fun node => GraphNode.expansion node.id ∈ selected).map fun node =>
    toLex (node.key.parts.length, node.id)).insertionSort (· ≤ ·)

/-- The key of the parent, as far as the parts above have been keyed. -/
def snapshotParent (keys : List ExpansionKey) (depth : Nat) (raw : ExpansionKey) :
    Except SnapshotError (Option ExpansionKey) :=
  if depth = 1 then .ok none
  else do
    let parent ← selectedParent selected graph.rawIds raw depth
    (snapshotExpansionKey keys parent).map some

def groupKey (keys : List ExpansionKey) (depth : Nat) (id : ExpansionId) :
    Except SnapshotError (SiblingGroupKey × ExpansionId) := do
  let raw ← graph.expansionKey id
  let parent ← graph.snapshotParent selected keys depth raw
  let leaf ← graph.leafPart id depth
  return (toLex (parent, leaf.withoutOrdinal), id)

def witnessSibling (depth : Nat) (id : ExpansionId) : Except SnapshotError WitnessedSibling := do
  let witness ← graph.generatedByWitness selected id
  let leaf ← graph.leafPart id depth
  return ⟨witness, leaf.sameRoleOrdinal, id⟩

/-- What tells siblings of one role apart: what they generate, what is generated below them, and
what uses them. -/
def witnessGroup (depth : Nat) (members : List ExpansionId) :
    Except SnapshotError WitnessedGroup := do
  let witnessed ← members.mapM (graph.witnessSibling selected depth)
  let group : WitnessedGroup := ⟨witnessed, false, false⟩
  let group := { group with
    witnessesAreCanonical := decide (witnessed.length = 1) || group.toldApart }
  let group ← group.refineBySubtree (graph.generatedBySubtreeWitness selected)
  group.refineByUse (graph.expansionUseWitness selected sourceFilter)

/-- Siblings that are told apart are numbered anew. -/
def memberOrdinal (filteredRawOrdinals : Option (List (Option Nat))) (numbered : Bool)
    (ordinal : Nat) (rawOrdinal : Nat) (id : ExpansionId) : Except SnapshotError Nat :=
  if numbered then if u32Size ≤ ordinal then .error .invalidNode else .ok ordinal
  else
    match filteredRawOrdinals with
    | none => .ok rawOrdinal
    | some ordinals =>
      match ordinals[id.index]?.join with
      | none => .error .invalidNode
      | some ordinal => .ok ordinal

def keyMember (depth : Nat) (parent : Option ExpansionKey)
    (filteredRawOrdinals : Option (List (Option Nat))) (numbered : Bool) (keys : List ExpansionKey)
    (entry : WitnessedSibling × Nat) : Except SnapshotError (List ExpansionKey) := do
  let leaf ← graph.leafPart entry.1.id depth
  let ordinal ← memberOrdinal filteredRawOrdinals numbered entry.2 leaf.sameRoleOrdinal entry.1.id
  let parts := (parent.map ExpansionKey.parts).getD []
  return keys.set entry.1.id.index ⟨parts ++ [{ leaf with sameRoleOrdinal := ordinal }]⟩

def keyGroup (depth : Nat) (subtreeRanks : List (Option Nat))
    (filteredRawOrdinals : Option (List (Option Nat))) (keys : List ExpansionKey)
    (members : List (SiblingGroupKey × ExpansionId)) :
    Except SnapshotError (List ExpansionKey) := do
  let group ← graph.witnessGroup selected sourceFilter depth (members.map Prod.snd)
  let subtreeIsCanonical ← group.subtreeIsCanonical subtreeRanks
  let parent := (members.head?.bind fun member => (ofLex member.1).1)
  (group.sortMembers subtreeRanks subtreeIsCanonical).zipIdx.foldlM
    (graph.keyMember depth parent filteredRawOrdinals
      (group.witnessesAreCanonical || subtreeIsCanonical)) keys

/-- The expansions of one depth, after those above have their keys. -/
def keyDepth (subtreeRanks : List (Option Nat)) (filteredRawOrdinals : Option (List (Option Nat)))
    (keys : List ExpansionKey) (entries : List DepthEntry) :
    Except SnapshotError (List ExpansionKey) := do
  let depth := (entries.head?.map fun entry => (ofLex entry).1).getD 0
  let members ← entries.mapM fun entry => graph.groupKey selected keys depth (ofLex entry).2
  (groups (fun a b => decide (a ≤ b)) Prod.fst members).foldlM
    (graph.keyGroup selected sourceFilter depth subtreeRanks filteredRawOrdinals) keys

def filteredRawOrdinals (outputless : Finset ExpansionId) :
    Except SnapshotError (Option (List (Option Nat))) :=
  if outputless = ∅ then .ok none
  else (graph.outputlessFilteredExpansionOrdinals outputless).map some

def snapshotExpansionKeys (outputless : Finset ExpansionId) :
    Except SnapshotError (List ExpansionKey) := do
  let initial ← graph.initialKeys
  if graph.rawIds.entries.length ≠ graph.expansions.length then throw .invalidNode
  else do
    let filtered ← graph.filteredRawOrdinals outputless
    let subtreeRanks ← graph.expansionSubtreeRanks selected graph.rawIds (graph.byDepth selected)
    let keys ← (runs (fun entry => (ofLex entry).1) (graph.byDepth selected)).foldlM
      (graph.keyDepth selected sourceFilter subtreeRanks filtered) initial
    let selectedKeys ← (graph.byDepth selected).mapM fun entry =>
      snapshotExpansionKey keys (ofLex entry).2
    if ¬selectedKeys.Nodup then throw .invalidNode
    else return keys

end KeyedGraph

end ItemDependencies
