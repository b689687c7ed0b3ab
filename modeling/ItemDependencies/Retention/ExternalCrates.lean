import ItemDependencies.Library.Loop
import ItemDependencies.Retention.SourceSites

/-!
# The loads of external crates

Written definitions and units load external crates, and so do the compiler's own
settings.  The compiler injects further loads once a crate is present.  What the
loaded crates provide has to stay available when written source is deleted, so
each provision becomes a disjunction over the carriers that bring it in.
-/

namespace ItemDependencies

open Library

/-- How strongly a crate depends on another one, weakest first. -/
inductive ExternalDependencyKind where
  | macrosOnly
  | conditional
  | unconditional
deriving DecidableEq

namespace ExternalDependencyKind

def rank : ExternalDependencyKind → Nat
  | macrosOnly => 0
  | conditional => 1
  | unconditional => 2

instance : LinearOrder ExternalDependencyKind :=
  LinearOrder.lift' rank fun a b h => by
    cases a <;> cases b <;> simp_all [rank]

end ExternalDependencyKind

structure ExternalCrateDependency where
  crateIdentity : Nat
  kind : ExternalDependencyKind

instance : LinearOrder ExternalCrateDependency :=
  LinearOrder.lift' (fun d => toLex (d.crateIdentity, d.kind)) fun a b h => by
    cases a
    cases b
    simpa using h

/-- One crate that is loaded, and everything that is loaded with it. -/
structure ExternalCrateLoad where
  direct : ExternalCrateDependency
  closure : List ExternalCrateDependency
deriving DecidableEq

inductive ExternalCrateBindingTarget where
  | selfCrate
  | external (load : ExternalCrateLoad)
deriving DecidableEq

/-- What an `extern crate` definition binds. -/
structure ExternalCrateBinding where
  definition : DefinitionId
  target : ExternalCrateBindingTarget
deriving DecidableEq

/-- A load that a written unit causes, or that is caused by no unit. -/
structure ExternalCrateActivation where
  source : Option SourceUnitId
  load : ExternalCrateLoad
deriving DecidableEq

/-- A load that the compiler injects, always or once a crate is present. -/
structure CompilerGeneratedCrateActivation where
  load : ExternalCrateLoad
  condition : Option Nat
deriving DecidableEq

inductive ExternalMetadataProviderKind where
  | compilerBuiltins
  | panicRuntime
  | profilerRuntime
  | externalNativeLink
  | globalAllocator
  | allocErrorHandler
  | defaultLibAllocator
  | weakLangItem (item : Nat)
  | externallyImplementableItemImplementation
deriving DecidableEq

structure ExternalMetadataProvider where
  crateIdentity : Nat
  kind : ExternalMetadataProviderKind
deriving DecidableEq

inductive ExternalMetadataRequirementKind where
  | allocator
  | panicRuntime
  | missingLangItem (item : Nat)

namespace ExternalMetadataRequirementKind

def rank : ExternalMetadataRequirementKind → Nat ×ₗ Nat
  | allocator => toLex (0, 0)
  | panicRuntime => toLex (1, 0)
  | missingLangItem item => toLex (2, item)

instance : LinearOrder ExternalMetadataRequirementKind :=
  LinearOrder.lift' rank fun a b h => by
    cases a <;> cases b <;> simp_all [rank]

end ExternalMetadataRequirementKind

structure ExternalMetadataRequirement where
  crateIdentity : Nat
  kind : ExternalMetadataRequirementKind
deriving DecidableEq

structure LocalMetadataRequirement where
  source : Option SourceUnitId
  kind : ExternalMetadataRequirementKind
deriving DecidableEq

structure ExternalCrateFacts where
  loadedCrates : List ExternalCrateDependency
  userArtifactCrates : List Nat
  bindings : List ExternalCrateBinding
  activations : List ExternalCrateActivation
  compilerGeneratedActivations : List CompilerGeneratedCrateActivation
  providers : List ExternalMetadataProvider
  requirements : List ExternalMetadataRequirement
  localRequirements : List LocalMetadataRequirement

/-- What keeps a load alive. -/
inductive CompilerCrateLoadCarrier where
  | definition (id : DefinitionId)
  | source (id : SourceUnitId)

namespace CompilerCrateLoadCarrier

def rank : CompilerCrateLoadCarrier → Nat ×ₗ Nat
  | definition id => toLex (0, id.index)
  | source id => toLex (1, id.index)

instance : LinearOrder CompilerCrateLoadCarrier :=
  LinearOrder.lift' rank fun a b h => by
    rcases a with ⟨⟨_⟩⟩ | ⟨⟨_⟩⟩ <;> rcases b with ⟨⟨_⟩⟩ | ⟨⟨_⟩⟩ <;> simp_all [rank]

end CompilerCrateLoadCarrier

/-- Once the trigger is kept, one of the choices has to be. -/
structure CompilerCrateLoadDisjunction where
  trigger : Option GraphNode
  choices : List CompilerCrateLoadCarrier

namespace CompilerCrateLoadDisjunction

/-- No trigger comes first. -/
def rank (disjunction : CompilerCrateLoadDisjunction) :
    WithBot GraphNode ×ₗ List CompilerCrateLoadCarrier :=
  toLex (disjunction.trigger, disjunction.choices)

instance : LinearOrder CompilerCrateLoadDisjunction :=
  LinearOrder.lift' rank fun a b h => by
    obtain ⟨htrigger, hchoices⟩ := Prod.mk.inj (toLex.injective h)
    cases a
    cases b
    exact congrArg₂ CompilerCrateLoadDisjunction.mk htrigger hchoices

end CompilerCrateLoadDisjunction

/-! ## Validation -/

/-- The kind that a list of dependencies gives to a crate.  Later entries win. -/
def kindOf (dependencies : List ExternalCrateDependency) (identity : Nat) :
    Option ExternalDependencyKind :=
  (dependencies.reverse.find? fun dependency => dependency.crateIdentity = identity).map
    ExternalCrateDependency.kind

/-- The crates that a list of dependencies mentions. -/
def identities (dependencies : List ExternalCrateDependency) : Finset Nat :=
  (dependencies.map ExternalCrateDependency.crateIdentity).toFinset

/-- Whether a load brings in a crate, through a dependency of any kind. -/
def ExternalCrateLoad.mentions (load : ExternalCrateLoad) (identity : Nat) : Bool :=
  load.closure.any fun dependency => dependency.crateIdentity = identity

/-- Whether a load brings in a crate with at least the required kind. -/
def ExternalCrateLoad.satisfies (load : ExternalCrateLoad) (required : ExternalCrateDependency) :
    Bool :=
  load.closure.any fun dependency =>
    dependency.crateIdentity = required.crateIdentity && required.kind ≤ dependency.kind

/-- Whether a unit exists and is part of the compiled source. -/
def SourceInventory.isActive (source : SourceInventory) (unit : SourceUnitId) : Bool :=
  (source.units[unit.index]?).any fun unit => unit.cfgState = .active

/-- The loads found so far: those with a carrier, and those that are always there. -/
structure CrateLoads where
  source : Finset (CompilerCrateLoadCarrier × ExternalCrateLoad)
  sourceFree : Finset ExternalCrateLoad

namespace ExternalCrateFacts

variable (facts : ExternalCrateFacts)

def validateLoad (load : ExternalCrateLoad) : Except RetentionError Unit := do
  if load.closure.isEmpty || (identities load.closure).card != load.closure.length ||
      kindOf load.closure load.direct.crateIdentity != some load.direct.kind ||
      load.closure.count load.direct != 1 ||
      -- the identities are distinct here, so the list and the map have the same entries
      load.closure.any fun dependency =>
        (kindOf facts.loadedCrates dependency.crateIdentity).all (· < dependency.kind) then
    throw .incompleteExternalCrateConstraints

def validateLoadedCrates (graph : DependencyGraph) : Except RetentionError Unit := do
  if (identities facts.loadedCrates).card != facts.loadedCrates.length ||
      graph.definitions.externalDefinitions.any fun definition =>
        definition.key.crateIdentity ∉ identities facts.loadedCrates then
    throw .incompleteExternalCrateConstraints

def validateBindings (graph : DependencyGraph) : Except RetentionError Unit := do
  let expected := ((graph.definitions.definitions.filter fun definition =>
    definition.kind = .externCrate).map Definition.id).toFinset
  let actual := (facts.bindings.map ExternalCrateBinding.definition).toFinset
  if expected != actual || actual.card != facts.bindings.length then
    throw .incompleteExternalCrateConstraints

/-- The loads of the `extern crate` definitions. -/
def bindingLoads (definitionUnits : List SourceUnitId) (loads : CrateLoads) :
    Except RetentionError CrateLoads :=
  facts.bindings.foldlM (fun loads binding => do
    if definitionUnits.length ≤ binding.definition.index then
      throw .incompleteExternalCrateConstraints
    match binding.target with
    | .selfCrate => return loads
    | .external load =>
      facts.validateLoad load
      return { loads with source := insert (.definition binding.definition, load) loads.source })
    loads

/-- The loads of the written units, and those without a unit. -/
def activationLoads (source : SourceInventory) (loads : CrateLoads) :
    Except RetentionError CrateLoads := do
  if facts.activations.toFinset.card != facts.activations.length then
    throw .incompleteExternalCrateConstraints
  facts.activations.foldlM (fun loads activation => do
    facts.validateLoad activation.load
    match activation.source with
    | some unit =>
      if !source.isActive unit then throw .incompleteExternalCrateConstraints
      return { loads with source := insert (.source unit, activation.load) loads.source }
    | none => return { loads with sourceFree := insert activation.load loads.sourceFree })
    loads

def validateGeneratedActivations : Except RetentionError Unit := do
  if facts.compilerGeneratedActivations.toFinset.card !=
      facts.compilerGeneratedActivations.length then
    throw .incompleteExternalCrateConstraints
  facts.compilerGeneratedActivations.forM fun activation => do
    facts.validateLoad activation.load
    if activation.condition.any fun identity => identity ∉ identities facts.loadedCrates then
      throw .incompleteExternalCrateConstraints

/-- Every loaded crate has been brought in by some load, and nothing else has. -/
def validateClassifiedCrates : Except RetentionError Unit := do
  let bound := facts.bindings.filterMap fun binding =>
    match binding.target with
    | .selfCrate => none
    | .external load => some load
  let loads := bound ++ facts.activations.map ExternalCrateActivation.load ++
    facts.compilerGeneratedActivations.map CompilerGeneratedCrateActivation.load
  if identities (loads.flatMap ExternalCrateLoad.closure) != identities facts.loadedCrates then
    throw .incompleteExternalCrateConstraints

/-- The compiler uses the first crate of these kinds that it meets, so there is at most one. -/
def orderSensitiveProviderIdentitiesAreUnique : Bool :=
  [ExternalMetadataProviderKind.compilerBuiltins, .profilerRuntime, .defaultLibAllocator].all
    fun kind =>
      ((facts.providers.filter fun provider => provider.kind = kind).map
        ExternalMetadataProvider.crateIdentity).toFinset.card ≤ 1

def validateMetadata (source : SourceInventory) : Except RetentionError Unit := do
  if facts.providers.toFinset.card != facts.providers.length ||
      !facts.orderSensitiveProviderIdentitiesAreUnique ||
      facts.providers.any fun provider =>
        provider.crateIdentity ∉ identities facts.loadedCrates then
    throw .incompleteExternalCrateConstraints
  if facts.userArtifactCrates.toFinset.card != facts.userArtifactCrates.length ||
      facts.userArtifactCrates.any fun identity => identity ∉ identities facts.loadedCrates then
    throw .incompleteExternalCrateConstraints
  if facts.providers.any fun provider =>
      provider.kind = .externalNativeLink &&
        facts.userArtifactCrates.contains provider.crateIdentity then
    throw .unsupportedExternalNativeLink
  if facts.requirements.toFinset.card != facts.requirements.length ||
      facts.requirements.any fun requirement =>
        requirement.crateIdentity ∉ identities facts.loadedCrates then
    throw .incompleteExternalCrateConstraints
  if facts.localRequirements.toFinset.card != facts.localRequirements.length ||
      facts.localRequirements.any fun requirement =>
        requirement.source.any fun unit => !source.isActive unit then
    throw .incompleteExternalCrateConstraints

/-! ## Propagation -/

end ExternalCrateFacts

/-- Inject one load of the compiler: into the loads that are always there, and for each carrier
whose loads bring in the condition. -/
def CrateLoads.inject (loads : CrateLoads) (activation : CompilerGeneratedCrateActivation) :
    CrateLoads :=
  match activation.condition with
  | none => { loads with sourceFree := insert activation.load loads.sourceFree }
  | some condition =>
    let sourceFree :=
      if ∃ load ∈ loads.sourceFree, load.mentions condition then
        insert activation.load loads.sourceFree
      else loads.sourceFree
    let triggering := loads.source.filter fun entry => entry.2.mentions condition
    { source := loads.source ∪ triggering.image fun entry => (entry.1, activation.load)
      sourceFree }

namespace ExternalCrateFacts

variable (facts : ExternalCrateFacts)

/-- One round of the propagation. -/
def propagationRound (loads : CrateLoads) : CrateLoads :=
  facts.compilerGeneratedActivations.foldl CrateLoads.inject loads

/-- Whether a round adds a load. -/
def propagationAdds (loads : CrateLoads) : Bool :=
  (facts.propagationRound loads).source.card != loads.source.card ||
    (facts.propagationRound loads).sourceFree.card != loads.sourceFree.card

/-- The propagation loop: rounds until one adds nothing.  Each injected load can be new once for
each carrier, and once without one. -/
def propagate (loads : CrateLoads) : CrateLoads :=
  facts.propagationRound <|
    whileDo facts.propagationAdds facts.propagationRound
      ((loads.source.card + 1) * facts.compilerGeneratedActivations.length) loads

/-! ## Disjunctions -/

end ExternalCrateFacts

/-- Require one of the carriers of the suitable loads, or one of the given carriers.  A suitable
load that is always there leaves nothing to require. -/
def CrateLoads.require (loads : CrateLoads) (trigger : Option GraphNode)
    (carriers : Finset CompilerCrateLoadCarrier) (suitable : ExternalCrateLoad → Bool)
    (disjunctions : Finset CompilerCrateLoadDisjunction) :
    Except RetentionError (Finset CompilerCrateLoadDisjunction) :=
  if ∃ load ∈ loads.sourceFree, suitable load then return disjunctions
  else
    let choices := carriers ∪ (loads.source.filter fun entry => suitable entry.2).image Prod.fst
    if choices = ∅ then throw .incompleteExternalCrateConstraints
    else return insert ⟨trigger, ascending choices⟩ disjunctions

namespace ExternalCrateFacts

variable (facts : ExternalCrateFacts)

/-- A crate with the kind at which it was loaded. -/
def requiredCrate (identity : Nat) : Except RetentionError ExternalCrateDependency :=
  match kindOf facts.loadedCrates identity with
  | some kind => return ⟨identity, kind⟩
  | none => throw .incompleteExternalCrateConstraints

/-- The crates of the external definitions are required with the definitions, those of the
providers always.  All requirements fail alike, so their order does not show. -/
def crateRequirements (graph : DependencyGraph) :
    Except RetentionError (List (Option GraphNode × ExternalCrateDependency)) := do
  let definitions ← graph.definitions.externalDefinitions.mapM fun definition => do
    return (some (GraphNode.externalDefinition definition.id),
      ← facts.requiredCrate definition.key.crateIdentity)
  let providers ← facts.providers.mapM fun provider => do
    return (none, ← facts.requiredCrate provider.crateIdentity)
  return definitions ++ providers

def crateDisjunctions (graph : DependencyGraph) (loads : CrateLoads) :
    Except RetentionError (Finset CompilerCrateLoadDisjunction) := do
  let requirements ← facts.crateRequirements graph
  requirements.foldlM (fun disjunctions requirement =>
    loads.require requirement.1 ∅ (·.satisfies requirement.2) disjunctions) ∅

/-- The crates whose metadata carries a requirement. -/
def requirementCarriers (kind : ExternalMetadataRequirementKind) : Finset Nat :=
  ((facts.requirements.filter fun requirement => requirement.kind = kind).map
    ExternalMetadataRequirement.crateIdentity).toFinset

/-- The units that carry a requirement themselves. -/
def localCarriers (kind : ExternalMetadataRequirementKind) : Finset CompilerCrateLoadCarrier :=
  (facts.localRequirements.filterMap fun requirement =>
    if requirement.kind = kind then requirement.source.map .source else none).toFinset

def requirementKinds : List ExternalMetadataRequirementKind :=
  sortDedup (facts.requirements.map ExternalMetadataRequirement.kind ++
    facts.localRequirements.map LocalMetadataRequirement.kind)

def metadataDisjunctions (loads : CrateLoads) (disjunctions : Finset CompilerCrateLoadDisjunction) :
    Except RetentionError (Finset CompilerCrateLoadDisjunction) :=
  facts.requirementKinds.foldlM (fun disjunctions kind =>
    if facts.localRequirements.any fun requirement =>
        requirement.kind = kind && requirement.source.isNone then
      return disjunctions
    else
      loads.require none (facts.localCarriers kind) (fun load =>
        load.closure.any fun dependency =>
          dependency.crateIdentity ∈ facts.requirementCarriers kind) disjunctions)
    disjunctions

end ExternalCrateFacts

/-- The disjunctions that keep the crate loads of the written source, or the first defect of the
facts. -/
def validateExternalCrateFacts (source : SourceInventory) (graph : DependencyGraph)
    (definitionUnits : List SourceUnitId) (facts : ExternalCrateFacts) :
    Except RetentionError (List CompilerCrateLoadDisjunction) := do
  facts.validateLoadedCrates graph
  facts.validateBindings graph
  let loads ← facts.bindingLoads definitionUnits ⟨∅, ∅⟩
  let loads ← facts.activationLoads source loads
  facts.validateGeneratedActivations
  facts.validateClassifiedCrates
  let loads := facts.propagate loads
  facts.validateMetadata source
  let disjunctions ← facts.crateDisjunctions graph loads
  let disjunctions ← facts.metadataDisjunctions loads disjunctions
  return ascending disjunctions

end ItemDependencies
