import ItemDependencies.Graph.Basic

/-!
# Keys of expansions

An expansion is identified by what it and all its parents are, independently of the numbers that one
compiler session gave them.
-/

namespace ItemDependencies

inductive ExpansionFragmentKind where
  | optionalExpression
  | methodReceiverExpression
  | expression
  | pattern
  | type
  | statements
  | items
  | traitItems
  | implItems
  | traitImplItems
  | foreignItems
  | arms
  | expressionFields
  | patternFields
  | genericParameters
  | parameters
  | fieldDefinitions
  | variants
  | wherePredicates
  | crate
deriving DecidableEq

structure ExpansionKeyPart where
  kind : ExpansionKind
  fragment : Option ExpansionFragmentKind
  implementation : Option MacroImplementationKind
  invocationRange : Option ByteRange
  nodeRange : Option ByteRange
  targetRange : Option ByteRange
  macroDefinition : Option DefinitionReferenceKey
  selectedMacroRule : Option ByteRange
  sameRoleOrdinal : Nat
deriving DecidableEq

/-- The path of an expansion, outermost part first. -/
structure ExpansionKey where
  parts : List ExpansionKeyPart
deriving DecidableEq

/-- An expansion together with its key and the fragment that it stands for. -/
structure KeyedExpansion extends ExpansionNode where
  key : ExpansionKey
  fragment : Option ExpansionFragmentKind
deriving DecidableEq

end ItemDependencies
