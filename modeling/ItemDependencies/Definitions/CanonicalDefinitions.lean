import ItemDependencies.Definitions.Identity
import ItemDependencies.Library.Ascending
import ItemDependencies.Library.Preorder
import Mathlib.Data.String.Basic

/-!
# Canonical definitions

The definitions of a crate are taken from the root down, each before its children and the children
in the order of their origins, kinds, names and ordinals.  A definition gets the next number, and
its key is the key of its parent with its own part at the end.
-/

namespace ItemDependencies

open Library

/-- The compiler id of the crate root. -/
def crateDefId : Nat := 0

/-- What the derived order of origins compares, one field after the other. -/
def DefinitionOrigin.rank : DefinitionOrigin → List Nat
  | written unit unitRange anchor unitKind unitOrdinal =>
    [0, unit.index, unitRange.start, unitRange.stop, anchor.start, anchor.stop, unitKind.ctorIdx,
      unitOrdinal]
  | expanded invocation invocationRange generatedRole ordinal =>
    [1, invocation.index, invocationRange.start, invocationRange.stop,
      generatedRole.elim 0 fun role => role.ctorIdx + 1, ordinal]
  | compilerGenerated role ordinal => [2, role.ctorIdx, ordinal]
  | injected role ordinal => [3, role.ctorIdx, ordinal]

/-- What siblings are ordered by. -/
def RawDefinition.siblingKey (definition : RawDefinition) :
    List Nat ×ₗ Nat ×ₗ WithBot String ×ₗ Nat :=
  toLex (definition.origin.rank, toLex (definition.kind.ctorIdx,
    toLex (definition.name, definition.structuralOrdinal)))

/-- The definitions with a parent, in the order of their keys. -/
def definitionChildren (definitions : List RawDefinition) (compilerId : Nat) : List RawDefinition :=
  (definitions.filter fun definition => definition.parent = some compilerId).insertionSort
    fun left right => left.siblingKey ≤ right.siblingKey

/-- The part that a definition adds to the key of its parent. -/
def RawDefinition.keyPart (definition : RawDefinition) : DefinitionKeyPart where
  kind := definition.kind
  origin := definition.origin.key
  name := definition.name
  sameRoleOrdinal := definition.structuralOrdinal

structure CanonicalDefinitions where
  definitions : List Definition
  localIds : Nat → Option DefinitionId
  productBases : List (Option (List MacroProductSource))

/-- No definition has been taken. -/
def CanonicalDefinitions.empty : CanonicalDefinitions where
  definitions := []
  localIds := fun _ => none
  productBases := []

/-- One more definition gets the next number.  There are no more numbers than compiler ids. -/
def CanonicalDefinitions.push (state : CanonicalDefinitions) (raw : RawDefinition) :
    CanonicalDefinitions :=
  let id : DefinitionId := ⟨state.definitions.length⟩
  let parent := raw.parent.bind state.localIds
  let parts := (parent.bind fun parent => state.definitions[parent.index]?).elim []
    fun parent => parent.key.parts
  { definitions := state.definitions ++ [{
      id := id
      key := ⟨parts ++ [raw.keyPart]⟩
      kind := raw.kind
      parent := parent
      origin := raw.origin }]
    localIds := Function.update state.localIds raw.compilerId (some id)
    productBases := state.productBases ++ [raw.productBasis] }

/-- A definition and all that is below it, for at most so many levels. -/
def appendDefinition (definitions : List RawDefinition) :
    Nat → CanonicalDefinitions → RawDefinition → Option CanonicalDefinitions :=
  depthFirst (fun raw => definitionChildren definitions raw.compilerId) CanonicalDefinitions.push

/-- A definition other than the root has no parent that is listed. -/
def lacksParent (definitions : List RawDefinition) (root : Nat) : Bool :=
  definitions.zipIdx.any fun entry => entry.2 ≠ root && entry.1.parent.all fun parent =>
    definitions.all fun definition => definition.compilerId ≠ parent

/-- Definitions that the root does not reach are missing. -/
def completeDefinitions (definitions : List RawDefinition) (state : CanonicalDefinitions) :
    Except DefinitionError CanonicalDefinitions :=
  if state.definitions.length ≠ definitions.length then .error .incompleteDefinition
  else .ok state

/-- There are no more levels than definitions. -/
def canonicalizeDefinitions (definitions : List RawDefinition) :
    Option (Except DefinitionError CanonicalDefinitions) :=
  match definitions.findIdx? fun definition => definition.compilerId = crateDefId with
  | none => some (.error .incompleteDefinition)
  | some root =>
    if lacksParent definitions root then some (.error .incompleteDefinition)
    else (definitions[root]?.bind (appendDefinition definitions definitions.length .empty)).map
      (completeDefinitions definitions)

/-! ## Keys in the coordinates of the original source -/

/-- The range of the crate root keeps what a deletion at its ends took away. -/
def normalizeAnchor (coordinates : SourceRewrite) (kind : DefinitionKind) (anchor : ByteRange) :
    Except SourceRewriteError ByteRange :=
  if kind = .crateRoot then coordinates.originalCrateRange anchor
  else coordinates.originalRange anchor

def normalizeKeyOrigin (coordinates : SourceRewrite) (kind : DefinitionKind) :
    DefinitionOriginKey → Except SourceRewriteError DefinitionOriginKey
  | .written anchor unitKind => do
    let anchor ← normalizeAnchor coordinates kind anchor
    return .written anchor unitKind
  | .expanded invocationRange generatedRole => do
    let invocationRange ← coordinates.originalRange invocationRange
    return .expanded invocationRange generatedRole
  | .compilerGenerated role => return .compilerGenerated role
  | .injected role => return .injected role

def normalizeKeyPart (coordinates : SourceRewrite) (part : DefinitionKeyPart) :
    Except SourceRewriteError DefinitionKeyPart := do
  let origin ← normalizeKeyOrigin coordinates part.kind part.origin
  return { part with origin := origin }

def normalizeDefinitionKey (coordinates : SourceRewrite) (key : DefinitionKey) :
    Except SourceRewriteError DefinitionKey := do
  let parts ← key.parts.mapM (normalizeKeyPart coordinates)
  return ⟨parts⟩

end ItemDependencies
