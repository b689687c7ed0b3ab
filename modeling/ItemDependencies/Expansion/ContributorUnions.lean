import ItemDependencies.Expansion.OutputClasses
import ItemDependencies.Retention.MacroProducts

/-!
# Unions in the contributor graph

The builder of the contributor graph gives one number to equal nodes.  A union of
nodes is a node without sources of its own, and adding unions leaves all nodes
that were there.
-/

namespace ItemDependencies

open Library List

/-- The nodes that have been built, and their numbers by hash. -/
structure MacroContributorDagBuilder where
  nodes : List MacroContributorNode
  canonical : SortedMap Nat (List MacroContributorSetId)

namespace MacroContributorDagBuilder

def empty : MacroContributorDagBuilder := ⟨[], .empty⟩

/-- The first of some numbers that belongs to an equal node. -/
def findEqual (nodes : List MacroContributorNode) (node : MacroContributorNode) :
    List MacroContributorSetId → Except ExpansionError (Option MacroContributorSetId)
  | [] => return none
  | id :: ids =>
    match nodes[id.index]? with
    | none => throw .incompleteOrigin
    | some other => if other = node then return some id else findEqual nodes node ids

/-- Add a node unless it is known.  The numbers are 32-bit. -/
def push (builder : MacroContributorDagBuilder) (key : Nat) (node : MacroContributorNode) :
    Except ExpansionError (MacroContributorDagBuilder × MacroContributorSetId) :=
  if u32Size ≤ builder.nodes.length then throw .incompleteOrigin
  else
    let id : MacroContributorSetId := ⟨builder.nodes.length⟩
    return (⟨builder.nodes ++ [node],
      builder.canonical.insert key ((builder.canonical.get key).getD [] ++ [id])⟩, id)

/-- The number of a node, in order and without repetitions, for some hash function. -/
def intern (hash : MacroContributorNode → Nat) (builder : MacroContributorDagBuilder)
    (localSources : List SourceUnitId) (parents : List MacroContributorSetId) :
    Except ExpansionError (MacroContributorDagBuilder × MacroContributorSetId) :=
  let node : MacroContributorNode := ⟨sortDedup localSources, sortDedup parents⟩
  if node.parents.any fun parent => builder.nodes.length ≤ parent.index then
    throw .incompleteOrigin
  else do
    let known ← findEqual builder.nodes node ((builder.canonical.get (hash node)).getD [])
    match known with
    | some id => return (builder, id)
    | none => builder.push (hash node) node

def fromNode (hash : MacroContributorNode → Nat) (builder : MacroContributorDagBuilder)
    (entry : MacroContributorNode × Nat) : Except ExpansionError MacroContributorDagBuilder := do
  let interned ← builder.intern hash entry.1.localSources entry.1.parents
  if interned.2.index ≠ entry.2 then throw .incompleteOrigin
  return interned.1

def fromDag (hash : MacroContributorNode → Nat) (dag : MacroContributorDag) :
    Except ExpansionError MacroContributorDagBuilder :=
  dag.nodes.zipIdx.foldlM (fromNode hash) empty

def finish (builder : MacroContributorDagBuilder) : MacroContributorDag := ⟨builder.nodes⟩

/-- One more union; the union of one node is the node. -/
def addUnion (hash : MacroContributorNode → Nat)
    (state : MacroContributorDagBuilder × List MacroContributorSetId)
    (parents : List MacroContributorSetId) :
    Except ExpansionError (MacroContributorDagBuilder × List MacroContributorSetId) :=
  match parents with
  | [] => throw .incompleteOrigin
  | [root] => return (state.1, state.2 ++ [root])
  | parents => do
    let interned ← state.1.intern hash [] parents
    return (interned.1, state.2 ++ [interned.2])

/-- What the builder can build. -/
inductive Interned (hash : MacroContributorNode → Nat) : MacroContributorDagBuilder → Prop
  | empty : Interned hash .empty
  | intern {builder builder' : MacroContributorDagBuilder} {localSources : List SourceUnitId}
      {parents : List MacroContributorSetId} {id : MacroContributorSetId}
      (h : Interned hash builder)
      (hintern : builder.intern hash localSources parents = .ok (builder', id)) :
      Interned hash builder'

end MacroContributorDagBuilder

namespace MacroContributorDag

/-- The graph with union nodes behind its own ones, and the nodes of the unions. -/
def withParentUnions (hash : MacroContributorNode → Nat) (dag : MacroContributorDag)
    (unions : List (List MacroContributorSetId)) :
    Except ExpansionError (MacroContributorDag × List MacroContributorSetId) := do
  let builder ← MacroContributorDagBuilder.fromDag hash dag
  let state ← unions.foldlM (MacroContributorDagBuilder.addUnion hash) (builder, [])
  return (state.1.finish, state.2)

/-- A graph that the builder has made. -/
def Built (hash : MacroContributorNode → Nat) (dag : MacroContributorDag) : Prop :=
  ∃ builder, MacroContributorDagBuilder.Interned hash builder ∧ builder.finish = dag

/-- The sources of a node are its own ones and those of its parents. -/
inductive Reaches (dag : MacroContributorDag) : MacroContributorSetId → SourceUnitId → Prop
  | own {id : MacroContributorSetId} {unit : SourceUnitId} {node : MacroContributorNode}
      (hnode : dag.nodes[id.index]? = some node) (hunit : unit ∈ node.localSources) :
      Reaches dag id unit
  | parent {id parent : MacroContributorSetId} {unit : SourceUnitId} {node : MacroContributorNode}
      (hnode : dag.nodes[id.index]? = some node) (hparent : parent ∈ node.parents)
      (hreaches : Reaches dag parent unit) : Reaches dag id unit

end MacroContributorDag

section

variable {hash : MacroContributorNode → Nat} {builder builder' : MacroContributorDagBuilder}
  {localSources : List SourceUnitId} {parents : List MacroContributorSetId}
  {id : MacroContributorSetId} {dag dag' : MacroContributorDag}

namespace MacroContributorDagBuilder

theorem findEqual_some {nodes : List MacroContributorNode} {node : MacroContributorNode}
    {ids : List MacroContributorSetId} (h : findEqual nodes node ids = .ok (some id)) :
    nodes[id.index]? = some node := by
  induction ids with
  | nil => cases h
  | cons first ids ih =>
    unfold findEqual at h
    split at h
    · cases h
    · rename_i other hother
      split at h
      · rename_i heq
        cases h
        exact heq ▸ hother
      · exact ih h

/-- The number that is given belongs to the node, which is new only if it is the last one. -/
theorem intern_ok (h : builder.intern hash localSources parents = .ok (builder', id)) :
    builder'.nodes[id.index]? = some ⟨sortDedup localSources, sortDedup parents⟩ ∧
      (builder'.nodes = builder.nodes ∨ id.index = builder.nodes.length ∧
        builder'.nodes = builder.nodes ++ [⟨sortDedup localSources, sortDedup parents⟩]) := by
  unfold intern at h
  obtain ⟨-, h⟩ := guard_ok h
  obtain ⟨known, hknown, h⟩ := bind_ok h
  cases known with
  | some found =>
    cases h
    exact ⟨findEqual_some hknown, .inl rfl⟩
  | none =>
    unfold push at h
    obtain ⟨-, h⟩ := guard_ok h
    cases h
    refine ⟨?_, .inr ⟨rfl, rfl⟩⟩
    dsimp only
    rw [getElem?_append_right le_rfl, Nat.sub_self]
    rfl

theorem intern_extends (h : builder.intern hash localSources parents = .ok (builder', id)) :
    builder.nodes <+: builder'.nodes := by
  obtain ⟨-, heq | ⟨-, heq⟩⟩ := intern_ok h
  · exact heq ▸ prefix_rfl
  · exact heq ▸ prefix_append _ _

/-- The nodes that are built are in order and have no repetitions. -/
theorem Interned.canonical (h : Interned hash builder) :
    ∀ node ∈ builder.nodes, sortDedup node.localSources = node.localSources ∧
      sortDedup node.parents = node.parents := by
  have hsort :
      ∀ {α : Type} [LinearOrder α] (l : List α), sortDedup (sortDedup l) = sortDedup l := by
    intro α _ l
    rw [sortDedup, toFinset_sortDedup, ← sortDedup]
  induction h with
  | empty =>
    intro node hnode
    cases hnode
  | intern _ hintern ih =>
    obtain ⟨-, heq | ⟨-, heq⟩⟩ := intern_ok hintern
    · rwa [heq]
    · rw [heq]
      intro node hnode
      rcases mem_append.mp hnode with hnode | hnode
      · exact ih node hnode
      · rw [mem_singleton.mp hnode]
        exact ⟨hsort _, hsort _⟩

/-- Building a graph again gives the graph, if its nodes are in order. -/
theorem fromDag_nodes (hcanonical : ∀ node ∈ dag.nodes, sortDedup node.localSources =
    node.localSources ∧ sortDedup node.parents = node.parents)
    (h : fromDag hash dag = .ok builder) : builder.nodes = dag.nodes := by
  have hsteps : ∀ (nodes done : List MacroContributorNode) (state : MacroContributorDagBuilder),
      (∀ node ∈ nodes, sortDedup node.localSources = node.localSources ∧
        sortDedup node.parents = node.parents) → state.nodes = done →
      (nodes.zipIdx done.length).foldlM (fromNode hash) state = .ok builder →
      builder.nodes = done ++ nodes := by
    intro nodes
    induction nodes with
    | nil =>
      intro done state _ hstate hrun
      cases hrun
      rw [hstate, append_nil]
    | cons node nodes ih =>
      intro done state hnodes hstate hrun
      obtain ⟨⟨hlocal, hparents⟩, hnodes⟩ := forall_mem_cons.mp hnodes
      rw [zipIdx_cons, foldlM_cons] at hrun
      obtain ⟨next, hnext, hrun⟩ := bind_ok hrun
      unfold fromNode at hnext
      obtain ⟨interned, hintern, hnext⟩ := bind_ok hnext
      obtain ⟨hid, hnext⟩ := guard_ok hnext
      cases hnext
      obtain ⟨hnode, heq⟩ := intern_ok hintern
      rw [hlocal, hparents, hstate] at heq
      rw [not_not] at hid
      have hpush : interned.1.nodes = done ++ [node] := by
        rcases heq with heq | ⟨-, heq⟩
        · have hlt := (List.getElem?_eq_some_iff.mp hnode).1
          rw [hid, heq] at hlt
          exact absurd hlt (Nat.lt_irrefl _)
        · exact heq
      have hlength : (done ++ [node]).length = done.length + 1 := by simp
      rw [← hlength] at hrun
      rw [ih (done ++ [node]) interned.1 hnodes hpush hrun, append_assoc]
      rfl
  exact hsteps dag.nodes [] empty hcanonical rfl h

/-- A union is a node of its own, or the only one of its nodes. -/
theorem addUnions_ok {unions : List (List MacroContributorSetId)}
    {state final : MacroContributorDagBuilder × List MacroContributorSetId}
    (h : unions.foldlM (addUnion hash) state = .ok final) :
    ∃ roots, final.2 = state.2 ++ roots ∧ state.1.nodes <+: final.1.nodes ∧
      List.Forall₂ (fun parents root => parents = [root] ∨
        final.1.nodes[root.index]? = some ⟨[], sortDedup parents⟩) unions roots := by
  induction unions generalizing state with
  | nil =>
    cases h
    exact ⟨[], (append_nil _).symm, prefix_rfl, .nil⟩
  | cons parents unions ih =>
    rw [foldlM_cons] at h
    obtain ⟨next, hnext, h⟩ := bind_ok h
    obtain ⟨roots, hroots, hextends, hall⟩ := ih h
    unfold addUnion at hnext
    split at hnext
    · cases hnext
    · rename_i root
      cases hnext
      refine ⟨root :: roots, ?_, hextends, .cons (.inl rfl) hall⟩
      rw [hroots, append_assoc]
      rfl
    · obtain ⟨interned, hintern, hnext⟩ := bind_ok hnext
      cases hnext
      obtain ⟨hnode, -⟩ := intern_ok hintern
      refine ⟨interned.2 :: roots, ?_, (intern_extends hintern).trans hextends,
        .cons (.inr ?_) hall⟩
      · rw [hroots, append_assoc]
        rfl
      · obtain ⟨added, hadded⟩ := hextends
        rw [← hadded, getElem?_append_left (List.getElem?_eq_some_iff.mp hnode).1]
        exact hnode

end MacroContributorDagBuilder

namespace MacroContributorDag

/-- A node without sources of its own reaches what its parents reach. -/
theorem reaches_union {dag : MacroContributorDag} {parents : List MacroContributorSetId}
    {root : MacroContributorSetId} (h : parents = [root] ∨
      dag.nodes[root.index]? = some ⟨[], sortDedup parents⟩) (unit : SourceUnitId) :
    dag.Reaches root unit ↔ ∃ parent ∈ parents, dag.Reaches parent unit := by
  rcases h with rfl | hnode
  · simp
  · constructor
    · intro hreaches
      cases hreaches with
      | own hother hunit =>
        cases hnode.symm.trans hother
        cases hunit
      | parent hother hparent hreaches =>
        cases hnode.symm.trans hother
        exact ⟨_, mem_sortDedup.mp hparent, hreaches⟩
    · rintro ⟨parent, hparent, hreaches⟩
      exact .parent hnode (mem_sortDedup.mpr hparent) hreaches

/-- All nodes stay, and each union reaches what its nodes reach. -/
theorem withParentUnions_ok {unions : List (List MacroContributorSetId)}
    {roots : List MacroContributorSetId} (hbuilt : dag.Built hash)
    (h : dag.withParentUnions hash unions = .ok (dag', roots)) :
    dag.nodes <+: dag'.nodes ∧ List.Forall₂ (fun parents root => ∀ unit,
      dag'.Reaches root unit ↔ ∃ parent ∈ parents, dag'.Reaches parent unit) unions roots := by
  obtain ⟨built, hinterned, rfl⟩ := hbuilt
  unfold withParentUnions at h
  obtain ⟨builder, hbuilder, h⟩ := bind_ok h
  obtain ⟨state, hstate, h⟩ := bind_ok h
  cases h
  have hnodes := MacroContributorDagBuilder.fromDag_nodes hinterned.canonical hbuilder
  obtain ⟨roots, hroots, hextends, hall⟩ := MacroContributorDagBuilder.addUnions_ok hstate
  rw [hnodes] at hextends
  rw [hroots, nil_append]
  exact ⟨hextends, hall.imp fun _ _ h => reaches_union h⟩

end MacroContributorDag

end

end ItemDependencies
