import ItemDependencies.Graph.ProofRelations
import ItemDependencies.Library.ParentChain

/-!
# Relations of expansions

The relations between expansions are said twice, in the records of the expansions and by edges.  The
key of an expansion goes on from that of its identity parent.
-/

namespace ItemDependencies.DependencyGraph

open Library List

/-- The key of a definition.  A missing target has been refused before, by
`invalid_definition_target`, so that none is looked up. -/
def definitionReferenceKey (definitions : DefinitionGraph) :
    DefinitionTarget → Option DefinitionReferenceKey
  | .localTarget id => definitions.definitions[id.index]?.map fun definition =>
      .localKey definition.key
  | .externalTarget id => definitions.externalDefinitions[id.index]?.map fun definition =>
      .externalKey definition.key

/-- The last part of the key says what the expansion is. -/
def leafMatches (definitions : DefinitionGraph) (node : KeyedExpansion) : Bool :=
  match node.key.parts.getLast? with
  | some leaf =>
    leaf.kind = node.kind && leaf.fragment = node.fragment &&
      leaf.implementation = node.implementation &&
        leaf.macroDefinition = node.macroDefinition.bind (definitionReferenceKey definitions)
  | none => false

def extendsIdentityParent (expansions : List KeyedExpansion) (node : KeyedExpansion) : Bool :=
  match node.identityParent with
  | some parent =>
    match expansions[parent.index]? with
    | some parent =>
      parent.id ≠ node.id && node.key.parts.length = parent.key.parts.length + 1 &&
        parent.key.parts <+: node.key.parts
    | none => false
  | none => node.key.parts.length = 1

/-- The edges are one that has the target at its end, or there are none if there is no target. -/
def areExactly (found : List ObservedEdge) (endpoint : DependencyEdge → GraphNode)
    (target : Option GraphNode) : Bool :=
  match target with
  | some target =>
    found.length = 1 && found.head?.any fun edge => endpoint edge.toDependencyEdge = target
  | none => found.isEmpty

def leadsExactlyTo (edges : List ObservedEdge) (node : KeyedExpansion) (kind : DependencyKind)
    (target : Option GraphNode) : Bool :=
  areExactly (edges.filter fun edge => edge.fromNode = .expansion node.id && edge.kind = kind)
    DependencyEdge.toNode target

def usedExactlyBy (edges : List ObservedEdge) (node : KeyedExpansion) : Bool :=
  areExactly (edges.filter fun edge =>
      edge.toNode = .expansion node.id && edge.kind = .expansionUse)
    DependencyEdge.fromNode (node.sourceOwner.map .definition)

def validExpansionEdges (definitions : DefinitionGraph) (expansions : List KeyedExpansion)
    (edges : List ObservedEdge) (node : KeyedExpansion) : Bool :=
  leafMatches definitions node && extendsIdentityParent expansions node &&
    leadsExactlyTo edges node .expansionDiscoveredIn (node.discoveredIn.map .expansion) &&
    leadsExactlyTo edges node .expansionSemanticParent (node.semanticParent.map .expansion) &&
    leadsExactlyTo edges node .expansionSourceCallParent (node.sourceCallParent.map .expansion) &&
    leadsExactlyTo edges node .macroDefinition (node.macroDefinition.map definitionNode) &&
    usedExactlyBy edges node

/-- The expansion that a relation leads to. -/
def relatedExpansion (expansions : List KeyedExpansion)
    (relation : ExpansionNode → Option ExpansionId) (id : ExpansionId) : Option ExpansionId :=
  expansions[id.index]?.bind fun node => relation node.toExpansionNode

/-- The chain of each expansion ends. -/
def isAcyclic (expansions : List KeyedExpansion) (relation : ExpansionNode → Option ExpansionId) :
    Bool :=
  expansions.all fun start =>
    followAcyclic (relatedExpansion expansions relation) (2 * expansions.length) ∅ (some start.id)

def expansionRelationsAreAcyclic (expansions : List KeyedExpansion) : Bool :=
  isAcyclic expansions ExpansionNode.discoveredIn &&
    isAcyclic expansions ExpansionNode.semanticParent &&
    isAcyclic expansions ExpansionNode.sourceCallParent

variable {definitions : DefinitionGraph} {expansions : List KeyedExpansion}
  {edges : List ObservedEdge} {node : KeyedExpansion} {edge : ObservedEdge}

/-! ## Relations that end -/

variable {relation : ExpansionNode → Option ExpansionId}

theorem isAcyclic_iff : isAcyclic expansions relation = true ↔ ∀ node ∈ expansions, ∀ id,
    Below (relatedExpansion expansions relation) node.id id →
      ¬Relation.TransGen (Up (relatedExpansion expansions relation)) id id := by
  -- the expansions of the list, and those that the relation names
  let nodes : List ExpansionId :=
    expansions.map (fun node => node.id) ++ expansions.filterMap fun node =>
      relation node.toExpansionNode
  have hmissing : ∀ a ∈ nodes.toFinset, ∀ p,
      relatedExpansion expansions relation a = some p → p ∈ nodes.toFinset := by
    intro a _ p hp
    obtain ⟨node, hnode, hrelation⟩ := Option.bind_eq_some_iff.mp hp
    rw [mem_toFinset]
    exact mem_append_right _ (mem_filterMap.mpr ⟨node, mem_of_getElem? hnode, hrelation⟩)
  have hcard : nodes.toFinset.card ≤ 2 * expansions.length := by
    refine (toFinset_card_le _).trans ?_
    rw [length_append, length_map, Nat.two_mul]
    exact Nat.add_le_add_left (length_filterMap_le _ _) _
  rw [isAcyclic, all_eq_true]
  refine forall₂_congr fun node hnode => followAcyclic_iff hmissing ?_ hcard
  rw [mem_toFinset]
  exact mem_append_left _ (mem_map_of_mem hnode)

/-- The check passes if and only if no chain of discoverers, of semantic parents or of source calls
leads to a cycle, whatever the numbers of the expansions are. -/
theorem expansionRelationsAreAcyclic_iff (expansions : List KeyedExpansion) :
    expansionRelationsAreAcyclic expansions = true ↔ ∀ relation ∈
      [ExpansionNode.discoveredIn, ExpansionNode.semanticParent, ExpansionNode.sourceCallParent],
      ∀ node ∈ expansions, ∀ id, Below (relatedExpansion expansions relation) node.id id →
        ¬Relation.TransGen (Up (relatedExpansion expansions relation)) id id := by
  simp only [expansionRelationsAreAcyclic, Bool.and_eq_true, isAcyclic_iff, forall_mem_cons,
    not_mem_nil, false_imp_iff, forall_const, and_true, and_assoc]

/-! ## Edges that say what the records say -/

theorem areExactly_ok {found : List ObservedEdge} {endpoint : DependencyEdge → GraphNode}
    {target : Option GraphNode} (h : areExactly found endpoint target = true) (toNode : GraphNode) :
    target = some toNode ↔ ∃ edge ∈ found, endpoint edge.toDependencyEdge = toNode := by
  unfold areExactly at h
  split at h
  · rename_i target
    rw [Bool.and_eq_true, decide_eq_true_eq] at h
    obtain ⟨hlength, hend⟩ := h
    obtain ⟨edge, rfl⟩ := length_eq_one_iff.mp hlength
    have hedge : endpoint edge.toDependencyEdge = target := of_decide_eq_true hend
    simp [hedge]
  · rw [isEmpty_iff.mp h]
    simp

theorem leadsExactlyTo_ok {kind : DependencyKind} {target : Option GraphNode}
    (h : leadsExactlyTo edges node kind target = true) (toNode : GraphNode) :
    target = some toNode ↔ ∃ edge ∈ edges,
      edge.fromNode = .expansion node.id ∧ edge.kind = kind ∧ edge.toNode = toNode := by
  rw [areExactly_ok h]
  simp [and_assoc]

/-! ## Keys of expansions -/

/-- Following identity parents takes one part from the key at each step and ends at a key with one
part. -/
inductive StripsToOnePart (expansions : List KeyedExpansion) : KeyedExpansion → Prop
  | onePart {node : KeyedExpansion} {part : ExpansionKeyPart}
      (hparent : node.identityParent = none) (hkey : node.key.parts = [part]) :
      StripsToOnePart expansions node
  | strip {node parent : KeyedExpansion} {id : ExpansionId} {part : ExpansionKeyPart}
      (hid : node.identityParent = some id)
      (hparent : expansions[id.index]? = some parent)
      (hkey : node.key.parts = parent.key.parts ++ [part])
      (hrest : StripsToOnePart expansions parent) : StripsToOnePart expansions node

theorem stripsToOnePart (h : ∀ node ∈ expansions, extendsIdentityParent expansions node = true)
    (hnode : node ∈ expansions) : StripsToOnePart expansions node := by
  -- the induction is on the number of parts
  induction hlength : node.key.parts.length using Nat.strongRecOn generalizing node with
  | ind n ih =>
    have hextends := h node hnode
    unfold extendsIdentityParent at hextends
    split at hextends
    · rename_i id hid
      split at hextends
      · rename_i parent hparent
        simp only [Bool.and_eq_true, decide_eq_true_eq] at hextends
        obtain ⟨⟨-, hcount⟩, rest, hrest⟩ := hextends
        rw [← hrest, length_append] at hcount
        obtain ⟨part, rfl⟩ := length_eq_one_iff.mp (Nat.add_left_cancel hcount)
        refine .strip hid hparent hrest.symm
          (ih parent.key.parts.length ?_ (mem_of_getElem? hparent) rfl)
        rw [← hlength, ← hrest, length_append, length_singleton]
        exact Nat.lt_succ_self _
      · cases hextends
    · rename_i hid
      obtain ⟨part, hpart⟩ := length_eq_one_iff.mp (of_decide_eq_true hextends)
      exact .onePart hid hpart

/-- The edges between expansions and what their records name, by kind. -/
def recordedTargets (node : KeyedExpansion) : List (DependencyKind × Option GraphNode) :=
  [(.expansionDiscoveredIn, node.discoveredIn.map .expansion),
    (.expansionSemanticParent, node.semanticParent.map .expansion),
    (.expansionSourceCallParent, node.sourceCallParent.map .expansion),
    (.macroDefinition, node.macroDefinition.map definitionNode)]

/-- What valid edges say: taking parts from the key of an expansion follows its identity parents to
a key with one part, the edges from the expansion lead to what its record names and nowhere else,
and it is used by its owner alone. -/
theorem validExpansionEdges_spelled (definitions : DefinitionGraph)
    (expansions : List KeyedExpansion) (edges : List ObservedEdge)
    (h : ∀ node ∈ expansions, validExpansionEdges definitions expansions edges node = true) :
    ∀ node ∈ expansions, StripsToOnePart expansions node ∧
      (∀ entry ∈ recordedTargets node, ∀ toNode,
        (∃ edge ∈ edges, edge.fromNode = .expansion node.id ∧ edge.kind = entry.1 ∧
          edge.toNode = toNode) ↔ entry.2 = some toNode) ∧
      ∀ fromNode, (∃ edge ∈ edges, edge.toNode = .expansion node.id ∧ edge.kind = .expansionUse ∧
        edge.fromNode = fromNode) ↔ node.sourceOwner.map .definition = some fromNode := by
  intro node hnode
  have hvalid := h node hnode
  simp only [validExpansionEdges, Bool.and_eq_true] at hvalid
  obtain ⟨⟨⟨⟨⟨-, hdiscovered⟩, hsemantic⟩, hcall⟩, hmacro⟩, huse⟩ := hvalid
  refine ⟨stripsToOnePart (fun node hnode => ?_) hnode, fun entry hentry toNode => ?_,
    fun fromNode => ?_⟩
  · have hvalid := h node hnode
    simp only [validExpansionEdges, Bool.and_eq_true] at hvalid
    exact hvalid.1.1.1.1.1.2
  · simp only [recordedTargets, mem_cons, not_mem_nil, or_false] at hentry
    rcases hentry with rfl | rfl | rfl | rfl
    · exact (leadsExactlyTo_ok hdiscovered toNode).symm
    · exact (leadsExactlyTo_ok hsemantic toNode).symm
    · exact (leadsExactlyTo_ok hcall toNode).symm
    · exact (leadsExactlyTo_ok hmacro toNode).symm
  · rw [areExactly_ok huse]
    simp [and_assoc]

def callPart (name : String) : ExpansionKeyPart :=
  ⟨.macroCall .bang name, none, none, none, none, none, none, none, 0⟩

/-- A macro that is called inside another one. -/
def nestedCalls : List KeyedExpansion :=
  [⟨⟨⟨0⟩, .macroCall .bang "outer", none, none, none, none, none, some ⟨0⟩, none⟩,
      ⟨[callPart "outer"]⟩, none⟩,
    ⟨⟨⟨1⟩, .macroCall .bang "inner", none, some ⟨0⟩, none, none, none, none, none⟩,
      ⟨[callPart "outer", callPart "inner"]⟩, none⟩]

def nestedCallEdges : List ObservedEdge :=
  [⟨⟨.definition ⟨0⟩, .expansion ⟨0⟩, .expansionUse, [.externalSource]⟩, .compiler⟩,
    ⟨⟨.expansion ⟨1⟩, .expansion ⟨0⟩, .expansionDiscoveredIn, []⟩, .compiler⟩]

theorem validExpansionEdges_spelled_nested :
    (∀ node ∈ nestedCalls, StripsToOnePart nestedCalls node) ∧
      ∀ node ∈ nestedCalls, ∀ fromNode, (∃ edge ∈ nestedCallEdges,
        edge.toNode = .expansion node.id ∧ edge.kind = .expansionUse ∧ edge.fromNode = fromNode) ↔
          node.sourceOwner.map .definition = some fromNode := by
  have h := validExpansionEdges_spelled ⟨[], [], []⟩ nestedCalls nestedCallEdges (by decide +kernel)
  exact ⟨fun node hnode => (h node hnode).1, fun node hnode => (h node hnode).2.2⟩

end ItemDependencies.DependencyGraph
