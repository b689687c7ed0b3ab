import ItemDependencies.Retention.SourceSites
import ItemDependencies.Library.Grouping

/-!
# Compiler members

Relations between traits, implementations and their members.  They are facts
about definitions, not about written source: several expanded definitions may
share one macro invocation.
-/

namespace ItemDependencies

open Library

structure DefinitionRequirement where
  trigger : DefinitionId
  required : DefinitionId
deriving DecidableEq

/-- `required` is needed as soon as both `left` and `right` are. -/
structure ConditionalDefinitionRequirement where
  left : DefinitionId
  right : DefinitionId
  required : DefinitionId
deriving DecidableEq

structure DefinitionDisjunction where
  trigger : DefinitionId
  choices : List DefinitionId
deriving DecidableEq

/-- The side of a conditional requirement on which a definition triggers it. -/
inductive MemberSide where
  | left
  | right
deriving DecidableEq

/-- Member constraints in order and without repetitions.  They are looked up by their triggers. -/
structure ValidatedCompilerMemberConstraints where
  requirements : List DefinitionRequirement
  conditionalRequirements : List ConditionalDefinitionRequirement
  disjunctions : List DefinitionDisjunction
deriving DecidableEq

namespace ValidatedCompilerMemberConstraints

variable (members : ValidatedCompilerMemberConstraints)

def requirementsByTrigger (trigger : DefinitionId) : List DefinitionId :=
  valuesAt (members.requirements.map fun r => (r.trigger, r.required)) trigger

def conditionalByTrigger (trigger : DefinitionId) : List (Nat × MemberSide) :=
  valuesAt (members.conditionalRequirements.zipIdx.flatMap fun r =>
    [(r.1.left, (r.2, MemberSide.left)), (r.1.right, (r.2, MemberSide.right))]) trigger

end ValidatedCompilerMemberConstraints

end ItemDependencies
