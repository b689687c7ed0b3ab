import ItemDependencies.Library.Loop
import ItemDependencies.Monomorphization.AllocationKeys

/-!
# Paths of allocations

The observer reports which node of the trace refers to which other one.  An allocation gets the key
of a path that leads to it from an item or a vtable.  The keys are lowered, in rounds over all the
reports, until no report gives a smaller key to any allocation.
-/

namespace ItemDependencies

open Library

inductive MonomorphizationError where
  | incompleteObservation
  | queryFailed
  | cacheMismatch
  | stockEndpointMismatch
  | invalidRoot
  | invalidNode
  | invalidEdge
  | tooManyNodes
  | compilerTerm
  | definition
  | selection
  | allocationIdentity
deriving DecidableEq

/-- The number of an allocation in the compiler session. -/
structure AllocId where
  index : Nat
deriving DecidableEq

/-- A node of the trace.  Items and vtables are values of the compiler. -/
inductive MonoTraceNode (ν : Type) where
  | other (node : ν)
  | allocation (id : AllocId)
deriving DecidableEq

inductive MonoUseCause where
  | directCall
  | functionPointer
  | closureFunctionPointer
  | inlineAsmSymbol
  | staticReference
  | threadLocalReference
  | dropGlue
  | vTableConstruction
  | vTableMethod
  | vTableDrop
  | supertraitVTable
  | constAllocation
  | allocationReference
  | threadLocalShim
  | compilerRequirement
  | preOptimizationDirectCall
  | preOptimizationFunctionPointer
  | preOptimizationInlineAsmSymbol
deriving DecidableEq

def MonoUseCause.dependencyKind : MonoUseCause → MonoDependencyKind
  | directCall => .directCall
  | functionPointer => .functionPointer
  | closureFunctionPointer => .closureFunctionPointer
  | inlineAsmSymbol => .inlineAsmSymbol
  | staticReference => .staticReference
  | threadLocalReference => .threadLocalReference
  | dropGlue => .dropGlue
  | vTableConstruction => .vTableConstruction
  | vTableMethod => .vTableMethod
  | vTableDrop => .vTableDrop
  | supertraitVTable => .supertraitVTable
  | constAllocation => .constAllocation
  | allocationReference => .allocationReference
  | threadLocalShim => .threadLocalShim
  | compilerRequirement => .compilerRequirement
  | preOptimizationDirectCall | preOptimizationFunctionPointer
  | preOptimizationInlineAsmSymbol => .sourceAssociatedItem

/-- The causes of a reference to an allocation. -/
def MonoUseCause.refersToAllocation (cause : MonoUseCause) : Bool :=
  cause = .constAllocation || cause = .allocationReference

inductive MonoTraceCollection where
  | used
  | mentioned
deriving DecidableEq

def MonoTraceCollection.collection : MonoTraceCollection → MonoCollection
  | used => .used
  | mentioned => .mentioned

inductive MonoTraceSite (σ : Type) where
  | source (span : σ)
  | allocationOffset (offset : Nat)
  | vTableSlot (slot : Nat)
  | compilerGenerated
deriving DecidableEq

/-- A report of the observer. -/
structure MonoUseFact (ν σ : Type) where
  fromNode : MonoTraceNode ν
  toNode : MonoTraceNode ν
  cause : MonoUseCause
  collection : MonoTraceCollection
  site : MonoTraceSite σ
deriving DecidableEq

/-- What the collector asks the compiler about the nodes and the spans of the trace. -/
structure TraceReader (ν σ : Type) where
  nonallocationKey : ν → Except MonomorphizationError MonoKey
  nonallocation : ∀ node key, nonallocationKey node = .ok key → ∀ path, key ≠ .allocation path
  spanSite : σ → Except MonomorphizationError ObservationSite

variable {ν σ : Type}

namespace TraceReader

variable (reader : TraceReader ν σ)

def observationSite : MonoTraceSite σ → Except MonomorphizationError ObservationSite
  | .source span => reader.spanSite span
  | .allocationOffset offset => .ok (.allocationOffset offset)
  | .vTableSlot slot => .ok (.vTableSlot slot)
  | .compilerGenerated => .ok .compilerGenerated

def allocationPathSite (site : MonoTraceSite σ) :
    Except MonomorphizationError AllocationPathSite := do
  match ← reader.observationSite site with
  | .source range => return .source range
  | .externalSource => return .externalSource
  | .allocationOffset _ => return .allocationReference
  | .compilerGenerated => return .compilerGenerated
  | .vTableSlot _ => throw .invalidEdge

def allocationRoot (node : ν) : Except MonomorphizationError AllocationRootKey := do
  match ← reader.nonallocationKey node with
  | .instance key role => return .instance key role
  | .static definition => return .static definition
  | .globalAsm _ => throw .incompleteObservation
  | .vTable concreteType traitReference => return .vTable concreteType traitReference
  | .allocation _ => throw .invalidNode

/-! ## Ordinals -/

variable [DecidableEq ν]

/-- Count the target of an earlier fact, if it is one of the same role and has not been seen. -/
def addTarget (fact : MonoUseFact ν σ) (site : AllocationPathSite) (targets : List AllocId)
    (previous : MonoUseFact ν σ) : Except MonomorphizationError (List AllocId) :=
  if previous.fromNode = fact.fromNode ∧ previous.cause = fact.cause ∧
      previous.collection = fact.collection then do
    let found ← reader.allocationPathSite previous.site
    match previous.toNode with
    | .allocation target =>
      return if found = site ∧ target ∉ targets then targets ++ [target] else targets
    | .other _ => return targets
  else return targets

def allocationOrdinal (before : List (MonoUseFact ν σ)) (fact : MonoUseFact ν σ)
    (site : AllocationPathSite) : Except MonomorphizationError Nat := do
  let targets ← before.foldlM (reader.addTarget fact site) []
  if targets.length < u32Size then return targets.length else throw .tooManyNodes

end TraceReader

/-! ## Rounds -/

abbrev AllocationPaths := List (AllocId × AllocationKey)

def pathOf (paths : AllocationPaths) (id : AllocId) : Option AllocationKey :=
  (paths.find? fun entry => entry.1 = id).map Prod.snd

/-- Give an allocation a key, if it has none or a larger one; also say whether that changes
anything. -/
def lowerPath (target : AllocId) (candidate : AllocationKey) :
    AllocationPaths → AllocationPaths × Bool
  | [] => ([(target, candidate)], true)
  | (id, existing) :: paths =>
    if id = target then
      if candidate < existing then ((id, candidate) :: paths, true)
      else ((id, existing) :: paths, false)
    else
      let rest := lowerPath target candidate paths
      ((id, existing) :: rest.1, rest.2)

variable [DecidableEq ν] (reader : TraceReader ν σ)

/-- The key of the source of a fact, if there is one yet. -/
def sourcePath (paths : AllocationPaths) :
    MonoTraceNode ν → Except MonomorphizationError (Option AllocationKey)
  | .allocation source => return pathOf paths source
  | .other node => do
    let root ← reader.allocationRoot node
    return some ⟨root, []⟩

/-- The work of a round for the fact at an index. -/
def relaxFact (facts : List (MonoUseFact ν σ)) (state : AllocationPaths × Bool)
    (entry : MonoUseFact ν σ × Nat) : Except MonomorphizationError (AllocationPaths × Bool) :=
  match entry.1.toNode with
  | .other _ => return state
  | .allocation target =>
    if !entry.1.cause.refersToAllocation then throw .invalidEdge
    else do
      match ← sourcePath reader state.1 entry.1.fromNode with
      | none => return state
      | some source =>
        let site ← reader.allocationPathSite entry.1.site
        let sameRoleOrdinal ← reader.allocationOrdinal (facts.take entry.2) entry.1 site
        let part : AllocationPathPart :=
          ⟨entry.1.cause.dependencyKind, entry.1.collection.collection, site, sameRoleOrdinal⟩
        let lowered := lowerPath target ⟨source.root, source.path ++ [part]⟩ state.1
        return (lowered.1, state.2 || lowered.2)

def relaxFacts (facts : List (MonoUseFact ν σ)) (paths : AllocationPaths) :
    Except MonomorphizationError (AllocationPaths × Bool) :=
  facts.zipIdx.foldlM (relaxFact reader facts) (paths, false)

omit [DecidableEq ν] in
def MonoTraceNode.allocation? : MonoTraceNode ν → Option AllocId
  | .allocation id => some id
  | .other _ => none

/-- The keys of the allocations among the nodes of the trace.  Nothing is returned when the loop
does not end within the given number of rounds. -/
def allocationPaths (facts : List (MonoUseFact ν σ)) (nodes : List (MonoTraceNode ν))
    (limit : Nat) :
    Option (Except MonomorphizationError AllocationPaths) :=
  (untilStable (relaxFacts reader facts) limit []).map fun result => do
    let paths ← result
    if paths.length ≠ (nodes.filter fun node => node.allocation?.isSome).length then
      throw .allocationIdentity
    else return paths

/-! ## Nodes and edges of the graph -/

/-- The key of a node of the trace, once the allocations have their keys. -/
def ownedKey (paths : AllocationPaths) : MonoTraceNode ν → Except MonomorphizationError MonoKey
  | .allocation id =>
    match pathOf paths id with
    | some key => return .allocation key
    | none => throw .allocationIdentity
  | .other node => reader.nonallocationKey node

/-- The edge that reports a fact, between nodes that have been numbered. -/
def factEdge (nodeId : MonoTraceNode ν → MonoId) (fact : MonoUseFact ν σ) :
    Except MonomorphizationError ObservedEdge := do
  let site ← reader.observationSite fact.site
  return {
    fromNode := .mono (nodeId fact.fromNode)
    toNode := .mono (nodeId fact.toNode)
    kind := .mono fact.cause.dependencyKind fact.collection.collection
    sites := [site]
    evidence := .patchedObserver }

end ItemDependencies
