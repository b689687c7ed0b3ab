import ItemDependencies.Graph.Basic
import ItemDependencies.Library.Fallible
import ItemDependencies.Library.Grouping
import ItemDependencies.Source.Rewrite
import Mathlib.Data.Finset.Card

/-!
# Structural ordinals and identities of definitions

The compiler numbers the definitions of one program as it meets them, and the
numbers change when a part of the program is deleted.  An identity is the path
of a definition from the crate root, in the coordinates of the original source,
with a private rank where several definitions look alike.  The first run ranks
the definitions in the order of the compiler; a later run looks up in its
universe what the first one gave to the same identity.
-/

namespace ItemDependencies

open Library

inductive DefinitionError where
  | incompleteDefinition
  | incompleteDependency
  | incompleteHirDependency
  | incompleteTypeckDependency
  | incompleteImportDependency
  | invalidSource
  | invalidGraph
deriving DecidableEq

/-- A definition as the compiler lists it. -/
structure RawDefinition where
  compilerId : Nat
  parent : Option Nat
  kind : DefinitionKind
  origin : DefinitionOrigin
  productBasis : Option (List MacroProductSource)
  name : Option String
  structuralOrdinal : Nat
deriving DecidableEq

structure DefinitionIdentityPart where
  kind : DefinitionKind
  origin : DefinitionOriginKey
  productBasis : Option (List MacroProductSource)
  name : Option String
  cohortOrdinal : Nat
deriving DecidableEq, Ord

/-- The parts of a definition and of all its parents, outermost part first. -/
structure DefinitionIdentityKey where
  parts : List DefinitionIdentityPart
deriving DecidableEq, Ord

/-- The structural ordinals that a run has given, by identity. -/
structure DefinitionIdentityUniverse where
  ordinals : DefinitionIdentityKey → Option Nat

/-! ## Origins in the coordinates of the original source -/

/-- A failed mapping of a range makes the source invalid. -/
def invalidSource {α : Type} : Except SourceRewriteError α → Except DefinitionError α
  | .ok a => .ok a
  | .error _ => .error .invalidSource

def normalizeIdentityOrigin (origin : DefinitionOriginKey) (kind : DefinitionKind)
    (coordinates : SourceRewrite) : Except DefinitionError DefinitionOriginKey :=
  match origin with
  | .written anchor unitKind => do
    let anchor ← invalidSource <|
      if kind = .crateRoot then coordinates.originalCrateRange anchor
      else coordinates.originalRange anchor
    return .written anchor unitKind
  | .expanded invocationRange generatedRole => do
    let invocationRange ← invalidSource (coordinates.originalRange invocationRange)
    return .expanded invocationRange generatedRole
  | .compilerGenerated role => return .compilerGenerated role
  | .injected role => return .injected role

def normalizeProductSource (coordinates : SourceRewrite) (source : MacroProductSource) :
    Except DefinitionError MacroProductSource := do
  let range ← invalidSource (coordinates.originalRange source.range)
  return { source with range := range }

/-- The sources of a product are not empty, and listed in strict order. -/
def validProductBasis (basis : List MacroProductSource) : Bool :=
  basis.all (fun source => !source.range.isEmpty) &&
    (neighbours basis).all fun pair => (compare pair.1 pair.2).isLT

/-- A definition with the origin and the product basis that enter its identity. -/
structure LocatedDefinition where
  definition : RawDefinition
  origin : DefinitionOriginKey
  basis : Option (List MacroProductSource)

def identityOrigin (coordinates : Option SourceRewrite) (definition : RawDefinition) :
    Except DefinitionError DefinitionOriginKey :=
  match coordinates with
  | none => return definition.origin.key
  | some coordinates => normalizeIdentityOrigin definition.origin.key definition.kind coordinates

def identityBasis (coordinates : Option SourceRewrite) (definition : RawDefinition) :
    Except DefinitionError (Option (List MacroProductSource)) :=
  match coordinates, definition.productBasis with
  | some coordinates, some basis => do
    let basis ← basis.mapM (normalizeProductSource coordinates)
    return some basis
  | _, basis => return basis

def locate (coordinates : Option SourceRewrite) (definition : RawDefinition) :
    Except DefinitionError LocatedDefinition := do
  let origin ← identityOrigin coordinates definition
  let basis ← identityBasis coordinates definition
  if basis.any fun basis => !validProductBasis basis then throw .incompleteDefinition
  return { definition := definition, origin := origin, basis := basis }

/-! ## Private ordinals -/

/-- What the definitions of one product cohort have in common. -/
structure Cohort where
  parent : Option Nat
  origin : DefinitionOriginKey
  basis : Option (List MacroProductSource)
  kind : DefinitionKind
  name : Option String
deriving DecidableEq, Ord

def LocatedDefinition.cohort (located : LocatedDefinition) : Cohort where
  parent := located.definition.parent
  origin := located.origin
  basis := located.basis
  kind := located.definition.kind
  name := located.definition.name

def compilerOrdinal (definitions : List LocatedDefinition) (index : Nat) : Nat :=
  (definitions[index]?.map fun located => located.definition.structuralOrdinal).getD 0

/-- The members of a cohort, by compiler ordinal and then by index. -/
def sortMembers (definitions : List LocatedDefinition) (members : List Nat) : List Nat :=
  members.insertionSort fun i j =>
    toLex (compilerOrdinal definitions i, i) ≤ toLex (compilerOrdinal definitions j, j)

def rankOrdinal (ordinals : Nat → Nat) (member : Nat × Nat) :
    Except DefinitionError (Nat → Nat) := do
  if u32Size ≤ member.2 then throw .incompleteDefinition
  return Function.update ordinals member.1 member.2

/-- Two members with one compiler ordinal cannot be told apart. -/
def rankCohort (definitions : List LocatedDefinition) (ordinals : Nat → Nat) (members : List Nat) :
    Except DefinitionError (Nat → Nat) := do
  let members := sortMembers definitions members
  if (neighbours members).any fun pair =>
      compilerOrdinal definitions pair.1 == compilerOrdinal definitions pair.2 then
    throw .incompleteDefinition
  members.zipIdx.foldlM rankOrdinal ordinals

def cohorts (definitions : List LocatedDefinition) : List (List Nat) :=
  groups (fun a b => (compare a b).isLE) (fun i => definitions[i]?.map LocatedDefinition.cohort)
    (List.range definitions.length)

def privateCohortOrdinals (definitions : List LocatedDefinition) :
    Except DefinitionError (Nat → Nat) :=
  (cohorts definitions).foldlM (rankCohort definitions) fun _ => 0

/-! ## Identities -/

/-- Among definitions with one compiler id the last one counts. -/
def byCompilerId (definitions : List LocatedDefinition) (compilerId : Nat) : Option Nat :=
  (List.range definitions.length).reverse.find? fun i =>
    definitions[i]?.any fun located => located.definition.compilerId == compilerId

def LocatedDefinition.identityPart (located : LocatedDefinition) (cohortOrdinal : Nat) :
    DefinitionIdentityPart where
  kind := located.definition.kind
  origin := located.origin
  productBasis := located.basis
  name := located.definition.name
  cohortOrdinal := cohortOrdinal

/-- The identities that are known, and the definitions whose identity is being computed. -/
structure IdentityState where
  identities : Nat → Option DefinitionIdentityKey
  active : Finset Nat

/-- The parts of the parent, which a search for its identity finds. -/
def parentParts (definitions : List LocatedDefinition)
    (search : Nat → IdentityState → Except DefinitionError (DefinitionIdentityKey × IdentityState))
    (located : LocatedDefinition) (state : IdentityState) :
    Except DefinitionError (List DefinitionIdentityPart × IdentityState) :=
  match located.definition.parent with
  | none => return ([], state)
  | some parent =>
    match byCompilerId definitions parent with
    | none => throw .incompleteDefinition
    | some parent => do
      let (key, state) ← search parent state
      return (key.parts, state)

/-- Without an entry for its parent, or on a cycle of parents, a definition has no identity.
The active definitions are distinct, so the fuel of one call for each definition is enough. -/
def identity (definitions : List LocatedDefinition) (ordinals : Nat → Nat) :
    Nat → Nat → IdentityState → Except DefinitionError (DefinitionIdentityKey × IdentityState)
  | 0, _, _ => throw .incompleteDefinition
  | fuel + 1, index, state =>
    match state.identities index, definitions[index]? with
    | some key, _ => return (key, state)
    | none, none => throw .incompleteDefinition
    | none, some located => do
      if index ∈ state.active then throw .incompleteDefinition
      let state := { state with active := insert index state.active }
      let (parts, state) ← parentParts definitions
        (identity definitions ordinals fuel) located state
      let key : DefinitionIdentityKey := ⟨parts ++ [located.identityPart (ordinals index)]⟩
      return (key,
        { identities := Function.update state.identities index (some key)
          active := state.active.erase index })

def identityStep (definitions : List LocatedDefinition) (ordinals : Nat → Nat)
    (state : IdentityState) (index : Nat) : Except DefinitionError IdentityState := do
  let (_, state) ← identity definitions ordinals (definitions.length + 1) index state
  return state

def identityOf (state : IdentityState) (index : Nat) :
    Except DefinitionError DefinitionIdentityKey :=
  match state.identities index with
  | none => throw .incompleteDefinition
  | some key => return key

/-- The identities of the definitions, in the order of the list. -/
def locatedIdentities (definitions : List LocatedDefinition) (ordinals : Nat → Nat) :
    Except DefinitionError (List DefinitionIdentityKey) := do
  let state ← (List.range definitions.length).foldlM (identityStep definitions ordinals)
    { identities := fun _ => none, active := ∅ }
  (List.range definitions.length).mapM (identityOf state)

/-! ## Public ordinals -/

/-- What the definitions that are numbered together have in common. -/
structure PublicCohort where
  parent : Option DefinitionIdentityKey
  origin : DefinitionOriginKey
  kind : DefinitionKind
  name : Option String
deriving DecidableEq, Ord

def parentIdentity (definitions : List LocatedDefinition) (identities : List DefinitionIdentityKey)
    (located : LocatedDefinition) : Except DefinitionError (Option DefinitionIdentityKey) :=
  match located.definition.parent with
  | none => return none
  | some parent =>
    match (byCompilerId definitions parent).bind fun parent => identities[parent]? with
    | none => throw .incompleteDefinition
    | some key => return some key

def publicCohort (definitions : List LocatedDefinition) (identities : List DefinitionIdentityKey)
    (located : LocatedDefinition) : Except DefinitionError PublicCohort := do
  let parent ← parentIdentity definitions identities located
  return {
    parent := parent
    origin := located.origin
    kind := located.definition.kind
    name := located.definition.name }

/-- The ordinals given so far, by index and by identity. -/
structure Assignment where
  ordinals : Nat → Nat
  identityUniverse : DefinitionIdentityKey → Option Nat

/-- The ordinal of a member is the expected one, or its rank where nothing is expected. -/
def assignedOrdinal (expected : Option DefinitionIdentityUniverse) (key : DefinitionIdentityKey)
    (rank : Nat) : Except DefinitionError Nat :=
  match expected with
  | some expected =>
    match expected.ordinals key with
    | none => throw .incompleteDefinition
    | some ordinal => return ordinal
  | none => if u32Size ≤ rank then throw .incompleteDefinition else return rank

def assignMember (identities : List DefinitionIdentityKey)
    (expected : Option DefinitionIdentityUniverse) (state : Finset Nat × Assignment)
    (member : Nat × Nat) : Except DefinitionError (Finset Nat × Assignment) :=
  match identities[member.1]? with
  | none => throw .incompleteDefinition
  | some key => do
    let ordinal ← assignedOrdinal expected key member.2
    if ordinal ∈ state.1 ∨ (state.2.identityUniverse key).isSome then throw .incompleteDefinition
    return (insert ordinal state.1, {
      ordinals := Function.update state.2.ordinals member.1 ordinal
      identityUniverse := Function.update state.2.identityUniverse key (some ordinal) })

/-- The order in which the members of a public cohort are numbered. -/
def sortPublicMembers (definitions : List LocatedDefinition)
    (identities : List DefinitionIdentityKey) (expected : Option DefinitionIdentityUniverse)
    (members : List Nat) : List Nat :=
  match expected with
  | none => members.insertionSort fun i j =>
      compilerOrdinal definitions i ≤ compilerOrdinal definitions j
  | some _ => members.insertionSort fun i j => (compare identities[i]? identities[j]?).isLE

def assignCohort (definitions : List LocatedDefinition) (identities : List DefinitionIdentityKey)
    (expected : Option DefinitionIdentityUniverse) (state : Assignment) (members : List Nat) :
    Except DefinitionError Assignment := do
  let members := sortPublicMembers definitions identities expected members
  if expected.isNone && (neighbours members).any fun pair =>
      compilerOrdinal definitions pair.1 == compilerOrdinal definitions pair.2 then
    throw .incompleteDefinition
  let (_, state) ← members.zipIdx.foldlM (assignMember identities expected) (∅, state)
  return state

def publicOrdinals (definitions : List LocatedDefinition) (identities : List DefinitionIdentityKey)
    (expected : Option DefinitionIdentityUniverse) : Except DefinitionError Assignment := do
  let keys ← definitions.mapM (publicCohort definitions identities)
  (groups (fun a b => (compare a b).isLE) (fun i => keys[i]?)
    (List.range definitions.length)).foldlM
    (assignCohort definitions identities expected)
    { ordinals := fun _ => 0, identityUniverse := fun _ => none }

def DefinitionOrigin.withOrdinal (ordinal : Nat) : DefinitionOrigin → DefinitionOrigin
  | written unit unitRange anchor unitKind unitOrdinal =>
    written unit unitRange anchor unitKind unitOrdinal
  | expanded invocation invocationRange generatedRole _ =>
    expanded invocation invocationRange generatedRole ordinal
  | compilerGenerated role _ => compilerGenerated role ordinal
  | injected role _ => injected role ordinal

def RawDefinition.withOrdinal (definition : RawDefinition) (ordinal : Nat) : RawDefinition :=
  { definition with
    structuralOrdinal := ordinal
    origin := definition.origin.withOrdinal ordinal }

/-! ## The whole assignment -/

/-- The identities of the definitions, before ordinals are assigned. -/
def structuralIdentities (definitions : List RawDefinition) (coordinates : Option SourceRewrite) :
    Except DefinitionError (List LocatedDefinition × List DefinitionIdentityKey) := do
  let located ← definitions.mapM (locate coordinates)
  let ordinals ← privateCohortOrdinals located
  let identities ← locatedIdentities located ordinals
  return (located, identities)

def assignStructuralOrdinals (definitions : List RawDefinition)
    (coordinates : Option SourceRewrite) (expected : Option DefinitionIdentityUniverse) :
    Except DefinitionError (List RawDefinition × DefinitionIdentityUniverse) := do
  let (located, identities) ← structuralIdentities definitions coordinates
  let assignment ← publicOrdinals located identities expected
  return (definitions.mapIdx fun i definition => definition.withOrdinal (assignment.ordinals i),
    { ordinals := assignment.identityUniverse })

end ItemDependencies
