import ItemDependencies.Source.Basic

/-!
# The compiler dependency graph

Definitions, macro expansions, proofs and monomorphic items are the nodes, and
the edges carry the places at which the compiler observed them.
-/

namespace ItemDependencies

structure DefinitionId where
  index : Nat

instance : LinearOrder DefinitionId :=
  LinearOrder.lift' DefinitionId.index fun a b h => by
    cases a
    cases b
    simpa using h

structure ExternalDefinitionId where
  index : Nat

instance : LinearOrder ExternalDefinitionId :=
  LinearOrder.lift' ExternalDefinitionId.index fun a b h => by
    cases a
    cases b
    simpa using h

structure ExpansionId where
  index : Nat

instance : LinearOrder ExpansionId :=
  LinearOrder.lift' ExpansionId.index fun a b h => by
    cases a
    cases b
    simpa using h

structure ProofId where
  index : Nat

instance : LinearOrder ProofId :=
  LinearOrder.lift' ProofId.index fun a b h => by
    cases a
    cases b
    simpa using h

structure MonoId where
  index : Nat

instance : LinearOrder MonoId :=
  LinearOrder.lift' MonoId.index fun a b h => by
    cases a
    cases b
    simpa using h

/-- A node of the dependency graph. -/
inductive GraphNode where
  | definition (id : DefinitionId)
  | externalDefinition (id : ExternalDefinitionId)
  | expansion (id : ExpansionId)
  | proof (id : ProofId)
  | mono (id : MonoId)

namespace GraphNode

def isDefinition : GraphNode → Bool
  | .definition _ => true
  | _ => false

/-- The declaration order of the constructors, then the number. -/
def rank : GraphNode → Nat ×ₗ Nat
  | definition id => toLex (0, id.index)
  | externalDefinition id => toLex (1, id.index)
  | expansion id => toLex (2, id.index)
  | proof id => toLex (3, id.index)
  | mono id => toLex (4, id.index)

theorem rank_injective : Function.Injective rank := by
  intro a b h
  rcases a with ⟨⟨_⟩⟩ | ⟨⟨_⟩⟩ | ⟨⟨_⟩⟩ | ⟨⟨_⟩⟩ | ⟨⟨_⟩⟩ <;>
    rcases b with ⟨⟨_⟩⟩ | ⟨⟨_⟩⟩ | ⟨⟨_⟩⟩ | ⟨⟨_⟩⟩ | ⟨⟨_⟩⟩ <;> simp_all [rank]

instance : LinearOrder GraphNode := LinearOrder.lift' rank rank_injective

end GraphNode

inductive DefinitionKind where
  | crateRoot
  | module
  | function
  | static
  | const
  | typeAlias
  | opaqueType
  | struct
  | enum
  | union
  | variant
  | field
  | constructor
  | traitDefinition
  | traitAlias
  | associatedType
  | associatedFunction
  | associatedConst
  | impl
  | typeParameter
  | constParameter
  | lifetimeParameter
  | externCrate
  | use
  | foreignModule
  | foreignType
  | globalAsm
  | closure
  | coroutine
  | coroutineClosure
  | syntheticCoroutineBody
  | anonymousConst
  | inlineConst
  | macroDefinition
deriving DecidableEq, Ord

inductive GeneratedRole where
  | anonymousAssociatedType
  | anonymousConst
  | coroutine
  | coroutineBody
  | coroutineClosure
  | elidedLifetime
  | nestedStatic
  | opaqueLifetime
  | opaqueType
deriving DecidableEq, Ord

inductive InjectedRole where
  | externCrate
  | preludeImport
deriving DecidableEq, Ord

/-- Where a definition comes from. -/
inductive DefinitionOrigin where
  | written (unit : SourceUnitId) (unitRange anchor : ByteRange) (unitKind : WrittenUnitKind)
      (unitOrdinal : Nat)
  | expanded (invocation : SourceUnitId) (invocationRange : ByteRange)
      (generatedRole : Option GeneratedRole) (ordinal : Nat)
  | compilerGenerated (role : GeneratedRole) (ordinal : Nat)
  | injected (role : InjectedRole) (ordinal : Nat)
deriving DecidableEq

/-- Source-derived identity of a definition: its origin without dense numbers. -/
inductive DefinitionOriginKey where
  | written (anchor : ByteRange) (unitKind : WrittenUnitKind)
  | expanded (invocationRange : ByteRange) (generatedRole : Option GeneratedRole)
  | compilerGenerated (role : GeneratedRole)
  | injected (role : InjectedRole)
deriving DecidableEq, Ord

def DefinitionOrigin.key : DefinitionOrigin → DefinitionOriginKey
  | written _ _ anchor unitKind _ => .written anchor unitKind
  | expanded _ invocationRange generatedRole _ => .expanded invocationRange generatedRole
  | compilerGenerated role _ => .compilerGenerated role
  | injected role _ => .injected role

structure DefinitionKeyPart where
  kind : DefinitionKind
  origin : DefinitionOriginKey
  name : Option String
  sameRoleOrdinal : Nat
deriving DecidableEq

/-- The path of a definition, outermost part first. -/
structure DefinitionKey where
  parts : List DefinitionKeyPart
deriving DecidableEq

structure Definition where
  id : DefinitionId
  key : DefinitionKey
  kind : DefinitionKind
  parent : Option DefinitionId
  origin : DefinitionOrigin
deriving DecidableEq

inductive DefinitionTarget where
  | localTarget (id : DefinitionId)
  | externalTarget (id : ExternalDefinitionId)
deriving DecidableEq

inductive DefinitionDependencyKind where
  | parent
  | signatureType
  | returnType
  | genericDefault
  | predicate
  | fieldType
  | discriminant
  | visibilityPath
  | superTrait
  | implSelfType
  | implementedTrait
  | associatedTypeBound
  | opaqueHiddenType
  | constExpression
  | valuePath
  | typePath
  | macroPath
  | patternConstructor
  | importLeaf
  | methodTarget
  | associatedItemTarget
  | overloadedOperator
  | derefTarget
  | indexTarget
  | callableTrait
  | resolvedGenericArgument
  | adjustmentType
  | closureCaptureType
  | fieldTarget
  | opaqueSource
deriving DecidableEq

inductive MonoCollection where
  | used
  | mentioned
deriving DecidableEq

inductive MonoDependencyKind where
  | directCall
  | functionPointer
  | closureFunctionPointer
  | inlineAsmSymbol
  | staticReference
  | threadLocalReference
  | dropGlue
  | vTableConstruction
  | vTableMethod
  | vTableDrop
  | supertraitVTable
  | constAllocation
  | allocationReference
  | threadLocalShim
  | compilerRequirement
  | sourceAssociatedItem
deriving DecidableEq

inductive ProofRelationKind where
  | traceObligation
  | traceTraitSelection
  | traceProjection
  | traceFulfillment
  | traceCycle
  | queryTraceRoot
  | traitSelectionNested
  | projectionOwner
  | projectionSelectedTrait
  | projectionNested
  | fulfillmentNested
  | cycleMember
  | associatedSelection
  | associatedLeaf
  | associatedDefining
  | associatedFinalizing
  | specializationAncestor
  | selectedImpl
  | selectedTraitItem
  | autoTraitProof
  | traitDefinition
deriving DecidableEq

/-- What an edge of the dependency graph says. -/
inductive DependencyKind where
  | definition (kind : DefinitionDependencyKind)
  | expansionDiscoveredIn
  | expansionSemanticParent
  | expansionSourceCallParent
  | macroDefinition
  | expansionUse
  | generatedBy
  | selectionProof (relation : MonoDependencyKind) (collection : MonoCollection)
  | proofRelation (relation : ProofRelationKind) (ordinal : Nat)
  | materializesDefinition
  | mono (relation : MonoDependencyKind) (collection : MonoCollection)
deriving DecidableEq

/-- Where the compiler observed a dependency. -/
inductive ObservationSite where
  | source (range : ByteRange)
  | externalSource
  | allocationOffset (offset : Nat)
  | vTableSlot (slot : Nat)
  | compilerGenerated
deriving DecidableEq

structure DependencyEdge where
  fromNode : GraphNode
  toNode : GraphNode
  kind : DependencyKind
  sites : List ObservationSite
deriving DecidableEq

inductive MacroStyle where
  | bang
  | attr
  | derive
deriving DecidableEq

inductive AstPassKind where
  | standardImports
  | testHarness
  | procMacroHarness
deriving DecidableEq

inductive DesugaringKind where
  | questionMark
  | tryBlock
  | yeetExpression
  | opaqueType
  | async
  | await
  | forLoop
  | whileLoop
  | boundModifier
  | contract
  | patternTypeRange
  | writtenFormatLiteral
  | expandedFormatLiteral
  | rangeExpression
deriving DecidableEq

inductive ExpansionKind where
  | macroCall (style : MacroStyle) (name : String)
  | astPass (kind : AstPassKind)
  | desugaring (kind : DesugaringKind)
deriving DecidableEq

inductive MacroImplementationKind where
  | builtin
  | declarative
  | procedural
  | legacy
  | inertAttribute
  | globDelegation
deriving DecidableEq

/-- One macro expansion and the expansions that it depends on. -/
structure ExpansionNode where
  id : ExpansionId
  kind : ExpansionKind
  implementation : Option MacroImplementationKind
  discoveredIn : Option ExpansionId
  semanticParent : Option ExpansionId
  sourceCallParent : Option ExpansionId
  writtenInvocation : Option SourceUnitId
  sourceOwner : Option DefinitionId
  macroDefinition : Option DefinitionTarget
deriving DecidableEq

/-- The parent in the key of an expansion. -/
def ExpansionNode.identityParent (node : ExpansionNode) : Option ExpansionId :=
  (node.discoveredIn.or node.sourceCallParent).or node.semanticParent

/-- The expansions without which an expansion does not exist. -/
def ExpansionNode.parents (node : ExpansionNode) : List ExpansionId :=
  [node.discoveredIn, node.semanticParent, node.sourceCallParent].filterMap fun parent => parent

/-- A compiler term, encoded independently of the compiler session. -/
structure CanonicalCompilerTerm where
  schemaVersion : Nat
  bytes : List UInt8
deriving DecidableEq

structure ExternalDefinitionKey where
  crateIdentity : Nat
  crateName : String
  defPathHash : List UInt8
deriving DecidableEq

/-- The path is a label for readers: the identity is the key. -/
structure ExternalDefinition where
  id : ExternalDefinitionId
  key : ExternalDefinitionKey
  path : String
deriving DecidableEq

inductive DefinitionReferenceKey where
  | localKey (key : DefinitionKey)
  | externalKey (key : ExternalDefinitionKey)
deriving DecidableEq

structure MonoInstanceKey where
  definition : DefinitionReferenceKey
  arguments : CanonicalCompilerTerm
  kind : CanonicalCompilerTerm
deriving DecidableEq

inductive MonoInstanceRole where
  | callable
  | const (promoted : Option Nat)
deriving DecidableEq

inductive AllocationRootKey where
  | instance (key : MonoInstanceKey) (role : MonoInstanceRole)
  | static (definition : DefinitionKey)
  | vTable (concreteType : CanonicalCompilerTerm) (traitReference : Option CanonicalCompilerTerm)
deriving DecidableEq

inductive AllocationPathSite where
  | source (range : ByteRange)
  | externalSource
  | allocationReference
  | compilerGenerated
deriving DecidableEq

structure AllocationPathPart where
  relation : MonoDependencyKind
  collection : MonoCollection
  site : AllocationPathSite
  sameRoleOrdinal : Nat
deriving DecidableEq

structure AllocationKey where
  root : AllocationRootKey
  path : List AllocationPathPart
deriving DecidableEq

/-- Identity of a monomorphic item. -/
inductive MonoKey where
  | instance (key : MonoInstanceKey) (role : MonoInstanceRole)
  | static (definition : DefinitionKey)
  | globalAsm (definition : DefinitionKey)
  | vTable (concreteType : CanonicalCompilerTerm) (traitReference : Option CanonicalCompilerTerm)
  | allocation (key : AllocationKey)
deriving DecidableEq

structure MonoNode where
  id : MonoId
  key : MonoKey
  materializedDefinition : Option DefinitionTarget
deriving DecidableEq

/-- A proof of the trait solver, known here by its number only. -/
structure ProofNode where
  id : ProofId
deriving DecidableEq

structure DefinitionEdge where
  fromDefinition : DefinitionId
  toTarget : DefinitionTarget
  kind : DefinitionDependencyKind
  sites : List ByteRange
deriving DecidableEq

structure DefinitionGraph where
  definitions : List Definition
  externalDefinitions : List ExternalDefinition
  edges : List DefinitionEdge
deriving DecidableEq

inductive RootReason where
  | main
  | explicitEntry
  | downstreamSelection
  | startInstance
  | usedAttribute
  | externalSymbol
  | nativeLink
  | globalAssembly
deriving DecidableEq

structure RootRecord where
  node : GraphNode
  reason : RootReason
deriving DecidableEq

structure DependencyGraph where
  definitions : DefinitionGraph
  expansions : List ExpansionNode
  proofs : List ProofNode
  monoNodes : List MonoNode
  edges : List DependencyEdge
  roots : List RootRecord
deriving DecidableEq

end ItemDependencies
