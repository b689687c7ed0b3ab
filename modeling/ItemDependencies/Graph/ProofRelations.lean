import ItemDependencies.Graph.EdgeGroups
import ItemDependencies.Selection.ProofMerging

/-!
# Relations of proofs

What a proof rests on is said twice: in its payload, and by edges with ordinals.  A graph is
accepted only if the edges of each proof spell out its payload.
-/

namespace ItemDependencies

open Library List

/-- The declaration order. -/
instance : LinearOrder ProofRelationKind :=
  LinearOrder.lift' ProofRelationKind.ctorIdx
    (Function.LeftInverse.injective ProofRelationKind.ofNat_ctorIdx)

namespace DependencyGraph

def definitionNode : DefinitionTarget → GraphNode
  | .localTarget id => .definition id
  | .externalTarget id => .externalDefinition id

/-! ## What is expected of a proof -/

abbrev Expected := SortedMap ProofRelationKind (List GraphNode)

/-- No targets for any relation. -/
def nothingExpected : Expected :=
  [.traceObligation, .traceTraitSelection, .traceProjection, .traceFulfillment, .traceCycle,
    .queryTraceRoot, .traitSelectionNested, .projectionOwner, .projectionSelectedTrait,
    .projectionNested, .fulfillmentNested, .cycleMember, .associatedSelection, .associatedLeaf,
    .associatedDefining, .associatedFinalizing, .specializationAncestor, .selectedImpl,
    .selectedTraitItem, .autoTraitProof, .traitDefinition].foldl
      (fun expected relation => expected.insert relation []) .empty

def insertTraceExpectations (expected : Expected) : Option (SolverTracePayload ProofId) → Expected
  | none => expected
  | some trace =>
    [(.traceObligation, trace.obligations), (.traceTraitSelection, trace.traitSelections),
      (.traceProjection, trace.projections), (.traceFulfillment, trace.fulfillments),
      (.traceCycle, trace.cycles)].foldl
        (fun expected entry => expected.insert entry.1 (entry.2.map .proof))
        (expected.insert .queryTraceRoot [.proof trace.root])

def relationOfBuiltin : BuiltinTraitTargetKind → ProofRelationKind
  | .traitDefinition => .traitDefinition
  | .autoTrait => .autoTraitProof

def expectedRelations : ProofNodeKind ProofId → Expected
  | .obligation _ _ source selectionNested fulfillmentNested queryTrace =>
    let expected := nothingExpected.insert .selectedImpl
      ((source.bind SelectionSource.implementation).map definitionNode).toList
    let expected := expected.insert .traitSelectionNested ((selectionNested.getD []).map .proof)
    let expected := expected.insert .fulfillmentNested ((fulfillmentNested.getD []).map .proof)
    let expected :=
      match source.bind SelectionSource.builtinTrait with
      | some builtin =>
        expected.insert (relationOfBuiltin builtin.kind) [definitionNode builtin.target]
      | none => expected
    insertTraceExpectations expected queryTrace
  | .projection _ _ _ _ _ selectedTrait selectedImpl selectedItem owners nested queryTrace _ =>
    let expected := nothingExpected.insert .projectionOwner (owners.map .proof)
    let expected := expected.insert .projectionSelectedTrait (selectedTrait.map .proof).toList
    let expected := expected.insert .projectionNested (nested.map .proof)
    let expected := expected.insert .selectedImpl (selectedImpl.map definitionNode).toList
    let expected := expected.insert .selectedTraitItem (selectedItem.map definitionNode).toList
    insertTraceExpectations expected queryTrace
  | .associatedItem _ _ _ selection _ leaf definingNode finalizingNode ancestorPath =>
    let expected := nothingExpected.insert .associatedSelection [.proof selection]
    let expected := expected.insert .associatedLeaf (leaf.map definitionNode).toList
    let expected := expected.insert .associatedDefining
      (definingNode.map fun node => definitionNode node.target).toList
    let expected := expected.insert .associatedFinalizing
      (finalizingNode.map fun node => definitionNode node.target).toList
    expected.insert .specializationAncestor
      (ancestorPath.map fun node => definitionNode node.target)
  | .cycle members _ => nothingExpected.insert .cycleMember (members.map .proof)

/-- The slot of a proof that an edge fills. -/
def proofRelationSlot (edge : ObservedEdge) : Option (GraphNode × ProofRelationKind × Nat) :=
  match edge.kind with
  | .proofRelation relation ordinal => some (edge.fromNode, relation, ordinal)
  | _ => none

def proofRelationSlotsAreUnique (edges : List ObservedEdge) : Bool :=
  (edges.filterMap proofRelationSlot).Nodup

def relationPush (edge : ObservedEdge) :
    Option ((GraphNode ×ₗ ProofRelationKind) × (Nat × GraphNode)) :=
  match edge.kind with
  | .proofRelation relation ordinal =>
    some (toLex (edge.fromNode, relation), (ordinal, edge.toNode))
  | _ => none

/-- The edges of each relation, by ordinal. -/
def relationGroups (edges : List ObservedEdge) :
    SortedMap (GraphNode ×ₗ ProofRelationKind) (List (Nat × GraphNode)) :=
  (SortedMap.gather [] (fun targets target => targets ++ [target])
    (edges.filterMap relationPush)).mapValues fun targets =>
      targets.insertionSort fun a b => a.1 ≤ b.1

def relationTargets (edges : List ObservedEdge) (node : GraphNode) (relation : ProofRelationKind) :
    List (Nat × GraphNode) :=
  ((relationGroups edges).get (toLex (node, relation))).getD []

def validProofRelations (proofs : List KeyedProof) (edges : List ObservedEdge) : Bool :=
  ((relationGroups edges).entries.all fun entry => DefinitionGraph.isDense Prod.fst entry.2) &&
    proofs.all fun proof => (expectedRelations proof.kind).entries.all fun entry =>
      (relationTargets edges (.proof proof.id) entry.1).map Prod.snd = entry.2

/-! ## The payload -/

/-- The proofs that a query went through. -/
def tracePayload (queryTrace : Option (SolverTracePayload ProofId)) :
    ProofRelationKind → List GraphNode
  | .queryTraceRoot => queryTrace.toList.map fun trace => .proof trace.root
  | .traceObligation => queryTrace.toList.flatMap fun trace => trace.obligations.map .proof
  | .traceTraitSelection => queryTrace.toList.flatMap fun trace => trace.traitSelections.map .proof
  | .traceProjection => queryTrace.toList.flatMap fun trace => trace.projections.map .proof
  | .traceFulfillment => queryTrace.toList.flatMap fun trace => trace.fulfillments.map .proof
  | .traceCycle => queryTrace.toList.flatMap fun trace => trace.cycles.map .proof
  | _ => []

/-- The builtin trait of a selection, if it is of the kind. -/
def builtinPayload (source : Option SelectionSource) (kind : BuiltinTraitTargetKind) :
    List GraphNode :=
  ((source.bind SelectionSource.builtinTrait).toList.filter fun builtin =>
    builtin.kind = kind).map fun builtin => definitionNode builtin.target

/-- The proofs and definitions that a proof rests on, in order, by the way it does. -/
def payload : ProofNodeKind ProofId → ProofRelationKind → List GraphNode
  | .obligation _ _ source selectionNested fulfillmentNested queryTrace, relation =>
    match relation with
    | .selectedImpl => ((source.bind SelectionSource.implementation).map definitionNode).toList
    | .traitDefinition => builtinPayload source .traitDefinition
    | .autoTraitProof => builtinPayload source .autoTrait
    | .traitSelectionNested => (selectionNested.getD []).map .proof
    | .fulfillmentNested => (fulfillmentNested.getD []).map .proof
    | relation => tracePayload queryTrace relation
  | .projection _ _ _ _ _ selectedTrait selectedImpl selectedItem owners nested queryTrace _,
    relation =>
    match relation with
    | .projectionSelectedTrait => (selectedTrait.map .proof).toList
    | .selectedImpl => (selectedImpl.map definitionNode).toList
    | .selectedTraitItem => (selectedItem.map definitionNode).toList
    | .projectionOwner => owners.map .proof
    | .projectionNested => nested.map .proof
    | relation => tracePayload queryTrace relation
  | .associatedItem _ _ _ selection _ leaf definingNode finalizingNode ancestorPath, relation =>
    match relation with
    | .associatedSelection => [.proof selection]
    | .associatedLeaf => (leaf.map definitionNode).toList
    | .associatedDefining => (definingNode.map fun node => definitionNode node.target).toList
    | .associatedFinalizing => (finalizingNode.map fun node => definitionNode node.target).toList
    | .specializationAncestor => ancestorPath.map fun node => definitionNode node.target
    | _ => []
  | .cycle members _, relation =>
    match relation with
    | .cycleMember => members.map .proof
    | _ => []

theorem get_nothingExpected (relation : ProofRelationKind) :
    nothingExpected.get relation = some [] := by
  cases relation <;> rfl

/-- What is expected of a proof is its payload. -/
theorem get_expectedRelations (kind : ProofNodeKind ProofId) (relation : ProofRelationKind) :
    (expectedRelations kind).get relation = some (payload kind relation) := by
  cases kind with
  | obligation environment predicate source selectionNested fulfillmentNested queryTrace =>
    cases hbuiltin : source.bind SelectionSource.builtinTrait with
    | none =>
      cases queryTrace <;> cases relation <;>
        simp [expectedRelations, insertTraceExpectations, SortedMap.get_insert, tracePayload,
          get_nothingExpected, payload, builtinPayload, hbuiltin]
    | some builtin =>
      obtain ⟨kind, target⟩ := builtin
      cases queryTrace <;> cases kind <;> cases relation <;>
        simp [expectedRelations, insertTraceExpectations, SortedMap.get_insert, tracePayload,
          get_nothingExpected, payload, builtinPayload, hbuiltin, relationOfBuiltin]
  | projection =>
    rename_i queryTrace _
    cases queryTrace <;> cases relation <;>
      simp [expectedRelations, insertTraceExpectations, SortedMap.get_insert, tracePayload,
        get_nothingExpected, payload]
  | associatedItem | cycle =>
    cases relation <;>
      simp [expectedRelations, SortedMap.get_insert, get_nothingExpected, payload]

/-! ## What the edges spell -/

variable {proofs : List KeyedProof} {proof : KeyedProof} {edges : List ObservedEdge}
  {relation : ProofRelationKind} {ordinal : Nat} {node target : GraphNode}

theorem relationTargets_eq : relationTargets edges node relation =
    (((SortedMap.gather [] (fun targets target => targets ++ [target])
      (edges.filterMap relationPush)).get (toLex (node, relation))).getD []).insertionSort
        fun a b => a.1 ≤ b.1 := by
  rw [relationTargets, relationGroups, SortedMap.get_mapValues]
  cases (SortedMap.gather _ _ _).get (toLex (node, relation)) <;> rfl

theorem mem_relationTargets : (ordinal, target) ∈ relationTargets edges node relation ↔
    ∃ edge ∈ edges, edge.fromNode = node ∧ edge.toNode = target ∧
      edge.kind = .proofRelation relation ordinal := by
  rw [relationTargets_eq, mem_insertionSort, SortedMap.getD_gather_concat, mem_valuesAt,
    mem_filterMap]
  refine exists_congr fun edge => and_congr_right fun _ => ?_
  unfold relationPush
  split
  case h_1 relation' ordinal' hkind =>
    rw [hkind]
    simp only [Option.some.injEq, Prod.mk.injEq, EmbeddingLike.apply_eq_iff_eq,
      DependencyKind.proofRelation.injEq]
    tauto
  case h_2 hkind =>
    exact ⟨fun h => absurd h.symm (Option.some_ne_none _), fun h => absurd h.2.2 (hkind _ _)⟩

/-- No ordinal of a relation comes up twice. -/
theorem pairwise_relationTargets (h : proofRelationSlotsAreUnique edges = true) :
    (relationTargets edges node relation).Pairwise fun a b => a.1 < b.1 := by
  have hslots : edges.filterMap proofRelationSlot = (edges.filterMap relationPush).map fun push =>
      ((ofLex push.1).1, (ofLex push.1).2, push.2.1) := by
    rw [map_filterMap]
    refine filterMap_congr fun edge _ => ?_
    unfold proofRelationSlot relationPush
    split <;> rfl
  have hnodup := of_decide_eq_true h
  rw [hslots, List.Nodup, pairwise_map] at hnodup
  rw [relationTargets_eq, SortedMap.getD_gather_concat]
  set targets := valuesAt (edges.filterMap relationPush) (toLex (node, relation)) with htargets
  have hordinals : (targets.map Prod.fst).Nodup := by
    rw [htargets, valuesAt, map_map, List.Nodup, pairwise_map]
    refine (hnodup.filter _).imp_of_mem fun {a b} ha hb hne heq => hne ?_
    have hkey : a.1 = toLex (node, relation) := of_decide_eq_true (mem_filter.mp ha).2
    have hkey' : b.1 = toLex (node, relation) := of_decide_eq_true (mem_filter.mp hb).2
    rw [hkey, hkey']
    exact Prod.ext rfl (Prod.ext rfl heq)
  have hperm := (perm_insertionSort (fun a b : Nat × GraphNode => a.1 ≤ b.1) targets).map Prod.fst
  have hne := pairwise_map.mp (hperm.nodup_iff.mpr hordinals)
  exact ((pairwise_insertionSort_key Prod.fst targets).and hne).imp fun h => lt_of_le_of_ne h.1 h.2

/-- In dense groups the position of a target is its ordinal. -/
theorem ordinal_eq {i : Nat} {entry : Nat × GraphNode}
    (hdense : ∀ entry ∈ (relationGroups edges).entries,
      DefinitionGraph.isDense Prod.fst entry.2 = true)
    (hi : (relationTargets edges node relation)[i]? = some entry) : entry.1 = i := by
  rw [relationTargets] at hi
  cases hget : (relationGroups edges).get (toLex (node, relation)) with
  | none =>
    rw [hget] at hi
    cases hi
  | some targets =>
    rw [hget] at hi
    exact DefinitionGraph.isDense_iff.mp (hdense _ (SortedMap.get_eq_some.mp hget)) i entry hi

/-- Sorted by ordinals, targets that are those of a list are the list with its positions. -/
theorem relationTargets_eq_zipIdx {targets : List GraphNode}
    (hunique : proofRelationSlotsAreUnique edges = true)
    (h : ∀ ordinal target, (∃ edge ∈ edges, edge.fromNode = node ∧ edge.toNode = target ∧
      edge.kind = .proofRelation relation ordinal) ↔ targets[ordinal]? = some target) :
    relationTargets edges node relation = targets.zipIdx.map Prod.swap := by
  refine eq_of_pairwise_key_lt Prod.fst (pairwise_relationTargets hunique) ?_ fun entry => ?_
  · rw [pairwise_map]
    exact pairwise_map.mp (zipIdx_map_snd 0 _ ▸ pairwise_lt_range')
  · obtain ⟨ordinal, target⟩ := entry
    rw [mem_relationTargets, h]
    simp [mem_zipIdx_iff_getElem?]

/-- With edges that fill different slots of the proofs, the relations are valid if and only if the
edges of each proof spell out its payload. -/
theorem validProofRelations_iff (proofs : List KeyedProof) (edges : List ObservedEdge)
    (hunique : proofRelationSlotsAreUnique edges = true)
    (hfrom : ∀ edge ∈ edges, ∀ relation ordinal, edge.kind = .proofRelation relation ordinal →
      ∃ proof ∈ proofs, edge.fromNode = .proof proof.id) :
    validProofRelations proofs edges = true ↔
      ∀ proof ∈ proofs, ∀ relation ordinal target,
        (∃ edge ∈ edges, edge.fromNode = .proof proof.id ∧ edge.toNode = target ∧
          edge.kind = .proofRelation relation ordinal) ↔
            (payload proof.kind relation)[ordinal]? = some target := by
  have hexpected : ∀ proof : KeyedProof,
      ((expectedRelations proof.kind).entries.all fun entry =>
        (relationTargets edges (.proof proof.id) entry.1).map Prod.snd = entry.2) = true ↔
      ∀ relation, (relationTargets edges (.proof proof.id) relation).map Prod.snd =
        payload proof.kind relation := fun proof => by
    simp only [all_eq_true, decide_eq_true_eq, Prod.forall, ← SortedMap.get_eq_some,
      get_expectedRelations, Option.some.injEq, forall_eq']
  rw [validProofRelations, Bool.and_eq_true, all_eq_true, all_eq_true]
  simp only [hexpected]
  constructor
  · rintro ⟨hdense, hexact⟩ proof hproof relation ordinal target
    rw [← mem_relationTargets, ← hexact proof hproof, getElem?_map, Option.map_eq_some_iff]
    constructor
    · intro hmem
      obtain ⟨i, hi⟩ := getElem?_of_mem hmem
      obtain rfl := ordinal_eq hdense hi
      exact ⟨_, hi, rfl⟩
    · rintro ⟨⟨ordinal', _⟩, hi, rfl⟩
      obtain rfl : ordinal' = ordinal := ordinal_eq hdense hi
      exact mem_of_getElem? hi
  · intro h
    have hslots : ∀ proof ∈ proofs, ∀ relation, relationTargets edges (.proof proof.id) relation =
        (payload proof.kind relation).zipIdx.map Prod.swap := fun proof hproof relation =>
      relationTargets_eq_zipIdx hunique (h proof hproof relation)
    refine ⟨fun entry hentry => ?_, fun proof hproof relation => ?_⟩
    · obtain ⟨key, targets⟩ := entry
      have hget := SortedMap.get_eq_some.mpr hentry
      -- an edge has been pushed under the key, so that the key is of a proof
      have hheld := hget
      rw [relationGroups, SortedMap.get_mapValues, Option.map_eq_some_iff] at hheld
      obtain ⟨held, hheld, -⟩ := hheld
      obtain ⟨⟨value, hvalue⟩, -⟩ := SortedMap.get_gather_eq_some.mp hheld
      obtain ⟨edge, hedge, hpush⟩ := mem_filterMap.mp hvalue
      unfold relationPush at hpush
      split at hpush
      case h_2 => cases hpush
      case h_1 relation ordinal hkind =>
        cases hpush
        obtain ⟨proof, hproof, hnode⟩ := hfrom edge hedge relation ordinal hkind
        have htargets : relationTargets edges (.proof proof.id) relation = targets := by
          rw [relationTargets, ← hnode, hget, Option.getD_some]
        rw [← htargets, hslots proof hproof]
        refine DefinitionGraph.isDense_iff.mpr fun i entry hi => ?_
        simp only [getElem?_map, getElem?_zipIdx, Option.map_map] at hi
        obtain ⟨target, -, rfl⟩ := Option.map_eq_some_iff.mp hi
        exact Nat.zero_add i
    · rw [hslots proof hproof, map_map]
      exact zipIdx_map_fst 0 _

def nestedProofs : List KeyedProof :=
  [⟨⟨⟨0⟩⟩, .obligation ⟨0, []⟩ ⟨0, []⟩,
      .obligation ⟨0, []⟩ ⟨0, []⟩ none none (some [⟨1⟩, ⟨0⟩]) none⟩,
    ⟨⟨⟨1⟩⟩, .obligation ⟨0, []⟩ ⟨0, [1]⟩, .obligation ⟨0, []⟩ ⟨0, [1]⟩ none none none none⟩]

def nestedEdges : List ObservedEdge :=
  [⟨⟨.proof ⟨0⟩, .proof ⟨0⟩, .proofRelation .fulfillmentNested 1, []⟩, .compiler⟩,
    ⟨⟨.proof ⟨0⟩, .proof ⟨1⟩, .proofRelation .fulfillmentNested 0, []⟩, .compiler⟩]

theorem validProofRelations_iff_nested :
    validProofRelations nestedProofs nestedEdges = true ∧
      ∀ proof ∈ nestedProofs, ∀ relation ordinal target,
        (∃ edge ∈ nestedEdges, edge.fromNode = .proof proof.id ∧ edge.toNode = target ∧
          edge.kind = .proofRelation relation ordinal) ↔
            (payload proof.kind relation)[ordinal]? = some target := by
  have hvalid : validProofRelations nestedProofs nestedEdges = true := by decide +kernel
  refine ⟨hvalid, (validProofRelations_iff nestedProofs nestedEdges (by decide +kernel) ?_).mp
    hvalid⟩
  intro edge hedge _ _ _
  simp only [nestedEdges, mem_cons, not_mem_nil, or_false] at hedge
  rcases hedge with rfl | rfl <;> exact ⟨_, mem_cons_self, rfl⟩

end DependencyGraph

end ItemDependencies
