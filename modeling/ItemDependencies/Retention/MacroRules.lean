import ItemDependencies.Library.Horn
import ItemDependencies.Retention.MacroClosure

/-!
# The rules of macro retention

What the closure computes, stated without queues: facts about nodes, source
units, contributors and producers, and the rules by which one follows from
others.
-/

namespace ItemDependencies

open Library RetentionClosure RetentionState

inductive MacroFact where
  | present (node : GraphNode)
  | actual (node : GraphNode)
  | actualDefinition (definition : DefinitionId)
  | retained (unit : SourceUnitId)
  | requested (contributor : Nat)
  | complete (contributor : Nat)
  | materialized (group : Nat)
  | meaningful (producer : Nat)
  | demanded (expansion : ExpansionId)

/-- What a ready demand clause asks for. -/
inductive ClauseAsks (products : ValidatedMacroProducts) (clause : MacroDemandClause) :
    MacroFact → Prop
  | required {child : ExpansionId} (h : child ∈ clause.requiredExpansions) :
      ClauseAsks products clause (.demanded child)
  | producer {producer : Nat} (h : clause.target = .producer producer) :
      ClauseAsks products clause (.demanded (producerAt products producer))
  | group {group root : Nat} (h : clause.target = .group group)
      (hroot : root ∈ groupRoots products group) : ClauseAsks products clause (.requested root)

/-- A node in the lane of actual definitions, or in that of present ones. -/
inductive InLane (node : GraphNode) : MacroFact → Prop
  | present : InLane node (.present node)
  | actual : InLane node (.actual node)

/-- The rules of macro retention, but for the meaning that a group inherits. -/
inductive MacroRule (products : ValidatedMacroProducts)
    (members : ValidatedCompilerMemberConstraints) : Rules MacroFact
  -- member requirements, in both lanes
  | requirement {r : DefinitionRequirement} (h : r ∈ members.requirements) :
      MacroRule products members [.present (.definition r.trigger)]
        (.present (.definition r.required))
  | conditional {r : ConditionalDefinitionRequirement} (h : r ∈ members.conditionalRequirements) :
      MacroRule products members [.present (.definition r.left), .present (.definition r.right)]
        (.present (.definition r.required))
  | actualRequirement {r : DefinitionRequirement} {f : MacroFact} (h : r ∈ members.requirements)
      (hf : InLane (.definition r.required) f) :
      MacroRule products members [.actualDefinition r.trigger] f
  | actualConditional {r : ConditionalDefinitionRequirement} {f : MacroFact}
      (h : r ∈ members.conditionalRequirements) (hf : InLane (.definition r.required) f) :
      MacroRule products members [.actualDefinition r.left, .actualDefinition r.right] f
  | actualDefinition {definition : DefinitionId} :
      MacroRule products members [.actual (.definition definition)] (.actualDefinition definition)
  -- the definitions of a class are kept together
  | actualClass {definitions : List GraphNode} {a b : GraphNode} {f : MacroFact}
      (h : definitions ∈ products.actualDefinitionClasses) (ha : a ∈ definitions)
      (hb : b ∈ definitions) (hf : InLane b f) : MacroRule products members [.actual a] f
  -- a meaningful trigger opens the contributors of its groups
  | trigger {node : GraphNode} {group root : Nat}
      (hnode : ∀ expansion, node = .expansion expansion →
        products.outputMeaning.producerIndex expansion = none)
      (hgroup : group ∈ products.compileTriggerGroups node)
      (hroot : root ∈ groupRoots products group) :
      MacroRule products members [.present node] (.requested root)
  | producerTrigger {expansion : ExpansionId} {producer group root : Nat}
      (hproducer : products.outputMeaning.producerIndex expansion = some producer)
      (hgroup : group ∈ products.compileTriggerGroups (.expansion expansion))
      (hroot : root ∈ groupRoots products group) :
      MacroRule products members [.present (.expansion expansion), .meaningful producer]
        (.requested root)
  | requestedSource {node : Nat} {unit : SourceUnitId}
      (h : unit ∈ products.contributorIndex.sourcesAt node) :
      MacroRule products members [.requested node] (.retained unit)
  | requestedParent {node parent : Nat} (h : parent ∈ products.contributorIndex.parentsAt node) :
      MacroRule products members [.requested node] (.requested parent)
  -- a group whose contributors are complete materializes
  | complete {node : Nat} (h : node < products.contributorIndex.count) :
      MacroRule products members
        ((products.contributorIndex.sourcesAt node).map .retained ++
          (products.contributorIndex.parentsAt node).map .complete) (.complete node)
  | materialized {group : Nat} (h : group < products.materializations.length) :
      MacroRule products members ((groupRoots products group).map .complete) (.materialized group)
  | product {m : MacroMaterialization} {group : Nat} {node : GraphNode}
      (hm : products.materializations[group]? = some m) (h : node ∈ m.products) :
      MacroRule products members [.materialized group] (.present node)
  | ownerMember {m : MacroMaterialization} {group : Nat} {requirement : MacroOwnerRequirement}
      {member : DefinitionId} (hm : products.materializations[group]? = some m)
      (hr : requirement ∈ m.ownerRequirements) (h : member ∈ requirement.members) :
      MacroRule products members [.materialized group, .present (.definition requirement.owner)]
        (.present (.definition member))
  -- meaning
  | staticMeaning {producer : Nat} (h : producer ∈ staticProducers products) :
      MacroRule products members [] (.meaningful producer)
  | intrinsicMeaning {group : Nat} (h : products.outputMeaning.groupHasIntrinsicOutput group = true)
      (hlt : group < products.materializations.length) :
      MacroRule products members [.materialized group]
        (.meaningful (products.outputMeaning.producerByGroup group))
  | dependentProducer {child producer : Nat}
      (h : producer ∈ products.outputMeaning.dependentProducersByChild child) :
      MacroRule products members [.meaningful child] (.meaningful producer)
  -- demand
  | demandedProducer {definition : DefinitionId} {producer : Nat}
      (h : producer ∈ products.outputMeaning.demandProducersByTrigger definition) :
      MacroRule products members [.actualDefinition definition]
        (.demanded (producerAt products producer))
  | clause {definition : DefinitionId} {index : Nat} {clause : MacroDemandClause} {f : MacroFact}
      (hcarrier : index ∈ products.demandClausesByCarrier definition)
      (hclause : products.demandClauses[index]? = some clause)
      (hready : clause.requiredExpansions ≠ [] ∨ clause.opaqueDependent = true)
      (hf : ClauseAsks products clause f) :
      MacroRule products members [.actualDefinition definition] f
  | dependentClause {definition : DefinitionId} {child : ExpansionId} {index : Nat}
      {clause : MacroDemandClause} {f : MacroFact}
      (hcarrier : index ∈ products.demandClausesByCarrier definition)
      (hchild : index ∈ products.dependentDemandClausesByChild child)
      (hclause : products.demandClauses[index]? = some clause)
      (hf : ClauseAsks products clause f) :
      MacroRule products members [.actualDefinition definition, .demanded child] f
  | demandedActual {expansion : ExpansionId} {f : MacroFact}
    (hf : InLane (.expansion expansion) f) :
      MacroRule products members [.demanded expansion] f

/-- A materialized group inherits meaning from a meaningful child on which it depends. -/
inductive InheritedMeaning (products : ValidatedMacroProducts) : Rules MacroFact
  | child {child group : Nat}
      (h : group ∈ products.outputMeaning.dependentGroupsByProduct
        (.expansion (producerAt products child))) :
      InheritedMeaning products [.meaningful child, .materialized group]
        (.meaningful (products.outputMeaning.producerByGroup group))

/-- All rules of macro retention. -/
def RetentionRule (products : ValidatedMacroProducts)
    (members : ValidatedCompilerMemberConstraints) : Rules MacroFact := fun premises conclusion =>
  MacroRule products members premises conclusion ∨ InheritedMeaning products premises conclusion

end ItemDependencies
