import ItemDependencies.Monomorphization.AllocationRounds

/-!
# Canonical paths

The keys that the collector gives to allocations are the least ones of the walks to them.  They go
on from each other, so that the dependency graph accepts the nodes with these keys and the edges of
the facts.
-/

namespace ItemDependencies

open Library DependencyGraph List

variable {ν σ : Type} {reader : TraceReader ν σ}
  {facts : List (MonoUseFact ν σ)} {nodes : List (MonoTraceNode ν)} {paths : AllocationPaths}
  {key : AllocationKey} {id : AllocId}

/-- The nodes of the graph: those of the trace, with their keys, and perhaps others that are not
allocations.  The number of a node is its position. -/
structure NumberedNodes (reader : TraceReader ν σ) (nodes : List (MonoTraceNode ν))
    (paths : AllocationPaths) (numbered : List MonoNode) (nodeId : MonoTraceNode ν → MonoId) :
    Prop where
  dense : ∀ (i : Nat) node, numbered[i]? = some node → node.id.index = i
  keys : (numbered.map MonoNode.key).Nodup
  node : ∀ raw ∈ nodes, ∃ node ∈ numbered, node.id = nodeId raw ∧
    ownedKey reader paths raw = .ok node.key
  only : ∀ node ∈ numbered, ∀ key, node.key = .allocation key →
    ∃ id, .allocation id ∈ nodes ∧ pathOf paths id = some key

/-- Every allocation has the least key of the walks to it that visit no allocation twice; no two
have the same; the key goes on from that of the allocation before on the walk; and the graph accepts
the keys. -/
structure CanonicalPaths [DecidableEq ν] (reader : TraceReader ν σ) (facts : List (MonoUseFact ν σ))
    (nodes : List (MonoTraceNode ν)) (paths : AllocationPaths) : Prop where
  least : ∀ id, .allocation id ∈ nodes → ∃ key, pathOf paths id = some key ∧
    IsLeast {key : AllocationKey | key.walkKey ∈ simpleKeys (allocationArcs reader facts) id} key
  injective : ∀ id id' key, pathOf paths id = some key → pathOf paths id' = some key → id = id'
  parent : ∀ id key visited, pathOf paths id = some key →
    Walk (allocationArcs reader facts) key.walkKey (id :: visited) → (id :: visited).Nodup →
    ∃ front last, key.path = front ++ [last] ∧ (visited = [] ∧ front = [] ∨
      ∃ before rest, visited = before :: rest ∧ pathOf paths before = some ⟨key.root, front⟩)
  accepted : ∀ numbered nodeId edges, NumberedNodes reader nodes paths numbered nodeId →
    facts.mapM (factEdge reader nodeId) = .ok edges →
    validAllocationPaths numbered ((groupedEdges edges).map ObservedEdge.toDependencyEdge) = true

/-! ## Least keys -/

theorem keyTable_eq_some : keyTable paths id = some key.walkKey ↔ pathOf paths id = some key := by
  rw [keyTable, Option.map_eq_some_iff]
  constructor
  · rintro ⟨found, hfound, heq⟩
    rwa [← AllocationKey.walkKey_injective heq]
  · exact fun h => ⟨key, h, rfl⟩

theorem exists_pathOf {k : WalkKey AllocationRootKey AllocationPathPart}
    (h : keyTable paths id = some k) : ∃ key, pathOf paths id = some key ∧ key.walkKey = k :=
  Option.map_eq_some_iff.mp h

section Settled

variable [DecidableEq ν] (hvalid : ValidFacts reader facts)
  (hsettled : Settled (allocationArcs reader facts) (keyTable paths))

include hvalid hsettled

theorem isLeast_pathOf (h : pathOf paths id = some key) :
    IsLeast {key : AllocationKey | key.walkKey ∈ simpleKeys (allocationArcs reader facts) id}
      key := by
  have hleast := hsettled.isLeast hvalid.distinguishes (keyTable_eq_some.mpr h)
  exact ⟨hleast.1, fun other hother => hleast.2 hother⟩

theorem pathOf_inj {id id' : AllocId} (h : pathOf paths id = some key)
    (h' : pathOf paths id' = some key) : id = id' :=
  hsettled.injective hvalid.distinguishes (keyTable_eq_some.mpr h) (keyTable_eq_some.mpr h')

/-- The last arc of a walk with the key of an allocation starts at the root or at an allocation
whose key the key goes on from. -/
theorem pathOf_parent {visited : List AllocId} (h : pathOf paths id = some key)
    (hw : Walk (allocationArcs reader facts) key.walkKey (id :: visited))
    (hnodup : (id :: visited).Nodup) : ∃ front last, key.path = front ++ [last] ∧
      (visited = [] ∧ front = [] ∨
        ∃ before rest, visited = before :: rest ∧
          pathOf paths before = some ⟨key.root, front⟩) := by
  obtain ⟨root, path⟩ := key
  generalize hkey : AllocationKey.walkKey ⟨root, path⟩ = k at hw
  cases hw with
  | @start r _ l _ =>
    obtain ⟨rfl, rfl⟩ := Prod.mk.inj (toLex.injective hkey)
    exact ⟨[], l, rfl, .inl ⟨rfl, rfl⟩⟩
  | @step k before rest _ l hw he =>
    obtain ⟨rfl, rfl⟩ := Prod.mk.inj (toLex.injective hkey)
    refine ⟨k.labels, l, rfl, .inr ⟨before, rest, rfl, ?_⟩⟩
    have hbefore := hsettled.parent hvalid.distinguishes (.step hw he) hnodup
      (keyTable_eq_some.mpr h)
    exact keyTable_eq_some.mp hbefore

end Settled

/-! ## Nodes and edges -/

variable {numbered : List MonoNode} {nodeId : MonoTraceNode ν → MonoId} {edges : List ObservedEdge}

section Numbered

variable (hn : NumberedNodes reader nodes paths numbered nodeId) {node node' : MonoNode}
  {raw : MonoTraceNode ν}

include hn

theorem NumberedNodes.getElem? (hnode : node ∈ numbered) :
    numbered[node.id.index]? = some node := by
  obtain ⟨i, hi⟩ := getElem?_of_mem hnode
  rw [hn.dense i node hi, hi]

theorem NumberedNodes.id_inj (hnode : node ∈ numbered) (hnode' : node' ∈ numbered)
    (h : node.id = node'.id) : node = node' := by
  have := hn.getElem? hnode
  rw [h, hn.getElem? hnode'] at this
  exact (Option.some.inj this).symm

theorem NumberedNodes.allocation (hid : .allocation id ∈ nodes) :
    ∃ node ∈ numbered, node.id = nodeId (.allocation id) ∧
      ∃ key, pathOf paths id = some key ∧ node.key = .allocation key := by
  obtain ⟨node, hnode, hnodeId, howned⟩ := hn.node _ hid
  refine ⟨node, hnode, hnodeId, ?_⟩
  rw [ownedKey] at howned
  split at howned
  · rename_i key hkey
    exact ⟨key, hkey, (Except.ok.inj howned).symm⟩
  · cases howned

/-- What is an allocation in the graph is one in the trace. -/
theorem NumberedNodes.exists_allocation (hraw : raw ∈ nodes) {target : AllocationKey}
    (h : numbered[(nodeId raw).index]?.map MonoNode.key = some (.allocation target)) :
    ∃ id, raw = .allocation id := by
  obtain ⟨node, hnode, hid, hkey⟩ := hn.node raw hraw
  rw [← hid, hn.getElem? hnode] at h
  rw [Option.some.inj h] at hkey
  cases raw with
  | allocation id => exact ⟨id, rfl⟩
  | other other => exact absurd rfl (reader.nonallocation other _ hkey target)

end Numbered

/-- The edge reports the fact. -/
structure Reports (nodeId : MonoTraceNode ν → MonoId) (edge : DependencyEdge)
    (fact : MonoUseFact ν σ) : Prop where
  fromNode : edge.fromNode = .mono (nodeId fact.fromNode)
  toNode : edge.toNode = .mono (nodeId fact.toNode)
  kind : edge.kind = .mono fact.cause.dependencyKind fact.collection.collection

/-- The edges of the graph for the facts. -/
abbrev pathEdges (edges : List ObservedEdge) : List DependencyEdge :=
  (groupedEdges edges).map ObservedEdge.toDependencyEdge

theorem factEdge_ok {fact : MonoUseFact ν σ} {edge : ObservedEdge}
    (h : factEdge reader nodeId fact = .ok edge) : Reports nodeId edge.toDependencyEdge fact ∧
      ∃ site, reader.observationSite fact.site = .ok site ∧ edge.sites = [site] := by
  obtain ⟨site, hsite, h⟩ := bind_ok h
  obtain rfl := Except.ok.inj h
  exact ⟨⟨rfl, rfl, rfl⟩, site, hsite, rfl⟩

section Edges

variable (hedges : facts.mapM (factEdge reader nodeId) = .ok edges) {edge edge' : DependencyEdge}
  {fact : MonoUseFact ν σ} {site : ObservationSite}

include hedges

theorem exists_fact_of_edge (hedge : edge ∈ pathEdges edges) :
    ∃ fact ∈ facts, Reports nodeId edge fact := by
  obtain ⟨grouped, hgrouped, rfl⟩ := mem_map.mp hedge
  obtain ⟨first, hfirst, hkey⟩ := exists_groupedEdges.mp ⟨grouped, hgrouped, rfl⟩
  obtain ⟨fact, hfact, hrun⟩ := (mem_mapM hedges).mp hfirst
  obtain ⟨hreports, -⟩ := factEdge_ok hrun
  obtain ⟨hfrom, hto, hkind⟩ := edgeKey_eq_iff.mp hkey
  exact ⟨fact, hfact, hfrom ▸ hreports.fromNode, hto ▸ hreports.toNode, hkind ▸ hreports.kind⟩

theorem exists_fact_of_site (hedge : edge ∈ pathEdges edges) (hsite : site ∈ edge.sites) :
    ∃ fact ∈ facts, Reports nodeId edge fact ∧ reader.observationSite fact.site = .ok site := by
  obtain ⟨grouped, hgrouped, rfl⟩ := mem_map.mp hedge
  obtain ⟨first, hfirst, hkey, hsite⟩ := (mem_sites_groupedEdges hgrouped).mp hsite
  obtain ⟨fact, hfact, hrun⟩ := (mem_mapM hedges).mp hfirst
  obtain ⟨hreports, observed, hobserved, hsites⟩ := factEdge_ok hrun
  obtain ⟨hfrom, hto, hkind⟩ := edgeKey_eq_iff.mp hkey
  rw [hsites, mem_singleton] at hsite
  exact ⟨fact, hfact, ⟨hfrom ▸ hreports.fromNode, hto ▸ hreports.toNode, hkind ▸ hreports.kind⟩,
    hsite ▸ hobserved⟩

theorem exists_edge_of_fact (hfact : fact ∈ facts)
    (hsite : reader.observationSite fact.site = .ok site) :
    ∃ edge ∈ pathEdges edges, Reports nodeId edge fact ∧ site ∈ edge.sites := by
  obtain ⟨first, hrun⟩ : ∃ first, factEdge reader nodeId fact = .ok first := by
    rw [factEdge, hsite]
    exact ⟨_, rfl⟩
  have hfirst := (mem_mapM hedges).mpr ⟨fact, hfact, hrun⟩
  obtain ⟨hreports, observed, hobserved, hsites⟩ := factEdge_ok hrun
  obtain rfl := Except.ok.inj (hsite.symm.trans hobserved)
  obtain ⟨grouped, hgrouped, hkey⟩ := exists_groupedEdges.mpr ⟨first, hfirst, rfl⟩
  obtain ⟨hfrom, hto, hkind⟩ := edgeKey_eq_iff.mp hkey
  refine ⟨_, mem_map_of_mem hgrouped,
    ⟨hfrom.trans hreports.fromNode, hto.trans hreports.toNode, hkind.trans hreports.kind⟩, ?_⟩
  refine (mem_sites_groupedEdges hgrouped).mpr ⟨first, hfirst, hkey.symm, ?_⟩
  rw [hsites]
  exact mem_singleton_self _

omit hedges in
theorem pathEdges_inj (hedge : edge ∈ pathEdges edges) (hedge' : edge' ∈ pathEdges edges)
    (hfrom : edge.fromNode = edge'.fromNode) (hto : edge.toNode = edge'.toNode)
    (hkind : edge.kind = edge'.kind) : edge = edge' := by
  obtain ⟨grouped, hgrouped, rfl⟩ := mem_map.mp hedge
  obtain ⟨grouped', hgrouped', rfl⟩ := mem_map.mp hedge'
  rw [groupedEdges_inj hgrouped hgrouped' (edgeKey_eq_iff.mpr ⟨hfrom, hto, hkind⟩)]

omit hedges in
theorem nodup_pathEdges (edges : List ObservedEdge) : (pathEdges edges).Nodup :=
  pairwise_map.mpr ((pairwise_groupedEdges edges).imp fun hlt heq =>
    (heq ▸ hlt).ne rfl)

end Edges

/-! ## Sources of keys -/

section Sources

variable {raw : MonoTraceNode ν} {key : MonoKey} {root : AllocationRootKey}
  {front path : List AllocationPathPart}

theorem isAllocationParent_of_root (hsource : arcSource reader raw = some (.inl root))
    (howned : ownedKey reader paths raw = .ok key) :
    isAllocationParent ⟨root, path⟩ [] key = true := by
  cases raw with
  | allocation id => cases Option.some.inj hsource
  | other node =>
    have hkey : reader.nonallocationKey node = .ok key := howned
    rw [arcSource, TraceReader.allocationRoot, hkey] at hsource
    cases key <;> cases hsource <;> simp [isAllocationParent, keyMatchesAllocationRoot]

theorem isAllocationParent_of_allocation {before : AllocId}
    (hsource : arcSource reader raw = some (.inr before))
    (hbefore : pathOf paths before = some ⟨root, front⟩) (hne : front ≠ [])
    (howned : ownedKey reader paths raw = .ok key) :
    isAllocationParent ⟨root, path⟩ front key = true := by
  cases raw with
  | allocation id =>
    obtain rfl := Sum.inr.inj (Option.some.inj hsource)
    rw [ownedKey, hbefore] at howned
    rw [← Except.ok.inj howned]
    simp [isAllocationParent, hne]
  | other node =>
    rw [arcSource] at hsource
    split at hsource <;> cases hsource

end Sources

/-! ## Acceptance -/

section Accepted

variable [DecidableEq ν] (hvalid : ValidFacts reader facts)
  (hends : ∀ fact ∈ facts, fact.fromNode ∈ nodes ∧ fact.toNode ∈ nodes)
  (hn : NumberedNodes reader nodes paths numbered nodeId)
  (hedges : facts.mapM (factEdge reader nodeId) = .ok edges)

include hvalid hends hn

omit [DecidableEq ν] in
include hedges in
/-- The edges to allocations are those of facts that end at allocations. -/
theorem targetsFit_of_facts {edge : DependencyEdge} (hedge : edge ∈ pathEdges edges) :
    TargetsFit numbered edge := by
  rintro ⟨target, allocation, hto, hkey⟩
  have hcause : ∀ fact ∈ facts, Reports nodeId edge fact →
      fact.cause.refersToAllocation = true := fun fact hfact hreports => by
    obtain rfl := GraphNode.mono.inj (hto.symm.trans hreports.toNode)
    obtain ⟨id, hid⟩ := hn.exists_allocation (hends fact hfact).2 hkey
    exact hvalid.cause fact hfact id hid
  obtain ⟨fact, hfact, hreports⟩ := exists_fact_of_edge hedges hedge
  refine ⟨_, _, _, hreports.kind, hreports.fromNode, fun site hsite => ?_⟩
  obtain ⟨fact', hfact', hreports', hobserved⟩ := exists_fact_of_site hedges hedge hsite
  obtain ⟨observed, hobserved', hfit⟩ := hvalid.site fact' hfact' (hcause fact' hfact' hreports')
  obtain rfl := Except.ok.inj (hobserved.symm.trans hobserved')
  obtain ⟨hrelation, -⟩ :=
    DependencyKind.mono.inj (hreports.kind.symm.trans hreports'.kind)
  rwa [hrelation]

variable (hsettled : Settled (allocationArcs reader facts) (keyTable paths))

include hsettled

/-- The key of an allocation goes on, with the part of the first fact of a role, from the key of the
node that is the source of the role. -/
theorem exists_first_of_pathOf (h : pathOf paths id = some key) :
    ∃ front role n, key.path = front ++ [pathPart role n] ∧
      FirstNumbered (facts.filterMap (rolePush reader)) role id n ∧
      ∃ parent ∈ numbered, parent.id = nodeId role.fromNode ∧
        isAllocationParent key front parent.key = true := by
  obtain ⟨visited, hw, hnodup⟩ := hsettled.sound id _ (keyTable_eq_some.mpr h)
  have hfirstWalk := hw.of_isLeast hvalid.distinguishes hnodup
    (hsettled.isLeast hvalid.distinguishes (keyTable_eq_some.mpr h))
  obtain ⟨root, path⟩ := key
  generalize hkey : AllocationKey.walkKey ⟨root, path⟩ = k at hw hfirstWalk
  cases hfirstWalk with
  | @start r _ l he =>
    obtain ⟨rfl, rfl⟩ := Prod.mk.inj (toLex.injective hkey)
    obtain ⟨role, n, hfirst, hsource, rfl⟩ := he
    obtain ⟨fact, hfact, -, site, -, rfl⟩ := exists_fact_of_numbered hfirst.numbered
    obtain ⟨parent, hparent, hid, howned⟩ := hn.node _ (hends fact hfact).1
    refine ⟨[], _, n, rfl, hfirst, parent, hparent, hid, ?_⟩
    exact isAllocationParent_of_root hsource howned
  | @step k before rest _ l hw' he =>
    obtain ⟨rfl, rfl⟩ := Prod.mk.inj (toLex.injective hkey)
    obtain ⟨role, n, hfirst, hsource, rfl⟩ := he
    obtain ⟨fact, hfact, -, site, -, rfl⟩ := exists_fact_of_numbered hfirst.numbered
    obtain ⟨parent, hparent, hid, howned⟩ := hn.node _ (hends fact hfact).1
    refine ⟨k.labels, _, n, rfl, hfirst, parent, hparent, hid, ?_⟩
    have hbefore := hsettled.parent hvalid.distinguishes hw hnodup (keyTable_eq_some.mpr h)
    have hne : k.labels ≠ [] := by
      rw [← length_pos_iff, hw'.length_labels]
      exact Nat.succ_pos _
    exact isAllocationParent_of_allocation hsource (keyTable_eq_some.mp hbefore) hne howned

/-- An allocation of the graph, with the first fact of a role that its key ends with. -/
theorem exists_first_of_node {node : MonoNode} (hnode : node ∈ numbered)
    (hkey : node.key = .allocation key) : ∃ id front role n, node.id = nodeId (.allocation id) ∧
      key.path = front ++ [pathPart role n] ∧
      FirstNumbered (facts.filterMap (rolePush reader)) role id n ∧
      ∃ parent ∈ numbered, parent.id = nodeId role.fromNode ∧
        (numbered.filter fun candidate => isAllocationParent key front candidate.key) =
          [parent] := by
  obtain ⟨id, hid, hpath⟩ := hn.only node hnode key hkey
  obtain ⟨front, role, n, hparts, hfirst, parent, hparent, hparentId, hfits⟩ :=
    exists_first_of_pathOf hvalid hends hn hsettled hpath
  obtain ⟨found, hfound, hfoundId, key', hpath', hkey'⟩ := hn.allocation hid
  have hsame : found = node := by
    refine inj_on_of_nodup_map hn.keys hfound hnode ?_
    rw [hkey, hkey', Option.some.inj (hpath.symm.trans hpath')]
  refine ⟨id, front, role, n, hsame ▸ hfoundId, hparts, hfirst, parent, hparent, hparentId, ?_⟩
  refine filter_eq_singleton (List.Nodup.of_map _ hn.keys) hparent fun candidate hcandidate => ?_
  constructor
  · exact fun h => inj_on_of_nodup_map hn.keys hcandidate hparent
      (isAllocationParent_unique h hfits)
  · rintro rfl
    exact hfits

include hedges

theorem placed_of_facts {node : MonoNode} (hnode : node ∈ numbered) :
    Placed numbered (pathEdges edges) node := by
  intro key hkey
  obtain ⟨id, front, role, n, hid, hparts, hfirst, parent, hparent, hparentId, hfilter⟩ :=
    exists_first_of_node hvalid hends hn hsettled hnode hkey
  refine ⟨front, _, parent, hparts, hfilter, ?_⟩
  obtain ⟨fact, hfact, htarget, site, hsite, rfl⟩ := exists_fact_of_numbered hfirst.numbered
  obtain ⟨observed, hobserved, hfit⟩ := hvalid.site fact hfact (hvalid.cause fact hfact id htarget)
  obtain ⟨found, hfound, hfound'⟩ := allocationPathSite_eq hobserved hfit
  obtain rfl := Except.ok.inj (hsite.symm.trans hfound')
  obtain ⟨edge, hedge, hreports, hin⟩ := exists_edge_of_fact hedges hfact hobserved
  have hends' : edge.fromNode = .mono parent.id ∧ edge.toNode = .mono node.id := by
    rw [hparentId, hid, ← htarget]
    exact ⟨hreports.fromNode, hreports.toNode⟩
  rw [filter_eq_singleton (a := edge) (nodup_pathEdges edges) hedge fun other hother => ?_]
  · rfl
  · simp only [isPathEdge, Bool.and_eq_true, decide_eq_true_eq, any_eq_true]
    constructor
    · rintro ⟨⟨⟨hfrom, hto⟩, hkind⟩, -⟩
      exact pathEdges_inj hother hedge (hfrom.trans hends'.1.symm) (hto.trans hends'.2.symm)
        (hkind.trans hreports.kind.symm)
    · rintro rfl
      exact ⟨⟨hends', hreports.kind⟩, observed, hin, allocationSiteMatches_of_eq hfound⟩

/-- The ordinals of allocations are below the numbers of targets of their roles. -/
theorem ordinal_lt_card {node : MonoNode} (hnode : node ∈ numbered) {role : AllocationRole}
    {ordinal : Nat} (hplace : placeOf numbered node = some (role, ordinal)) :
    ∃ ids, (roleTargets numbered (pathEdges edges)).get role = some ids ∧ ordinal < ids.card := by
  obtain ⟨key, front, last, parent, hkey, hparts, hfind, rfl, rfl⟩ := placeOf_eq_some.mp hplace
  obtain ⟨id, front', role, n, hid, hparts', hfirst, parent', hparent, hparentId, hfilter⟩ :=
    exists_first_of_node hvalid hends hn hsettled hnode hkey
  obtain ⟨rfl, hlast⟩ := append_inj' (hparts.symm.trans hparts') rfl
  obtain rfl := (List.cons.inj hlast).1
  obtain rfl : parent = parent' := by
    rw [← head?_filter, hfilter] at hfind
    exact (Option.some.inj hfind).symm
  -- the targets of the role in the trace are targets of the role in the graph
  have htarget : ∀ target, target ∈ valuesAt (facts.filterMap (rolePush reader)) role →
      ∃ edge ∈ pathEdges edges, (allocationRole parent.id role.cause.dependencyKind
        role.collection.collection role.site, nodeId (.allocation target)) ∈
          targetsOf numbered edge := by
    intro target hmem
    obtain ⟨fact, hfact, hpush⟩ := mem_filterMap.mp (mem_valuesAt.mp hmem)
    obtain ⟨hto, site, hsite, rfl⟩ := rolePush_eq_some.mp hpush
    obtain ⟨observed, hobserved, hfit⟩ :=
      hvalid.site fact hfact (hvalid.cause fact hfact target hto)
    obtain ⟨found, hfound, hfound'⟩ := allocationPathSite_eq hobserved hfit
    obtain rfl := Except.ok.inj (hsite.symm.trans hfound')
    obtain ⟨edge, hedge, hreports, hin⟩ := exists_edge_of_fact hedges hfact hobserved
    obtain ⟨targetNode, htargetNode, htargetId, allocation, -, hallocation⟩ :=
      hn.allocation (hto ▸ (hends fact hfact).2)
    refine ⟨edge, hedge, mem_targetsOf.mpr ⟨hto ▸ hreports.toNode, ⟨allocation, ?_⟩, _, _, _,
      hreports.kind, hreports.fromNode, observed, hin, site, hfound, ?_⟩⟩
    · rw [← htargetId, hn.getElem? htargetNode, Option.map_some, hallocation]
    · rw [hparentId]
      rfl
  have hlisted : ∀ target, target ∈ valuesAt (facts.filterMap (rolePush reader)) role →
      .allocation target ∈ nodes := fun target hmem => by
    obtain ⟨fact, hfact, hpush⟩ := mem_filterMap.mp (mem_valuesAt.mp hmem)
    exact (rolePush_eq_some.mp hpush).1 ▸ (hends fact hfact).2
  obtain ⟨first, hfirstEdge, hfirstTarget⟩ := htarget id hfirst.mem
  obtain ⟨ids, hids⟩ : ∃ ids, (roleTargets numbered (pathEdges edges)).get (allocationRole parent.id
      role.cause.dependencyKind role.collection.collection role.site) = some ids :=
    ⟨_, SortedMap.get_gather_eq_some.mpr
      ⟨⟨_, mem_flatMap.mpr ⟨first, hfirstEdge, hfirstTarget⟩⟩, rfl⟩⟩
  refine ⟨ids, hids, ?_⟩
  have hnodup : ((distinct (valuesAt (facts.filterMap (rolePush reader)) role)).map fun target =>
      nodeId (.allocation target)).Nodup := by
    refine (nodup_distinct _).map_on fun a ha b hb heq => ?_
    obtain ⟨nodeA, hnodeA, hidA, keyA, hpathA, hkeyA⟩ :=
      hn.allocation (hlisted a (mem_distinct.mp ha))
    obtain ⟨nodeB, hnodeB, hidB, keyB, hpathB, hkeyB⟩ :=
      hn.allocation (hlisted b (mem_distinct.mp hb))
    have hnodes : nodeA = nodeB := hn.id_inj hnodeA hnodeB (hidA.trans (heq.trans hidB.symm))
    have hkeys : keyA = keyB := MonoKey.allocation.inj (hkeyA.symm.trans (hnodes ▸ hkeyB))
    exact pathOf_inj hvalid hsettled hpathA (hkeys ▸ hpathB)
  calc n < (distinct (valuesAt (facts.filterMap (rolePush reader)) role)).length := hfirst.lt_length
    _ = _ := (length_map _).symm
    _ = _ := (toFinset_card_of_nodup hnodup).symm
    _ ≤ ids.card := Finset.card_le_card fun target hmem => by
      obtain ⟨raw, hraw, rfl⟩ := mem_map.mp (mem_toFinset.mp hmem)
      exact (get_roleTargets hids).mpr (htarget raw (mem_distinct.mp hraw))

theorem validAllocationPaths_of_facts : validAllocationPaths numbered (pathEdges edges) = true := by
  refine validAllocationPaths_iff.mpr ⟨fun node hnode => ?_, fun edge hedge => ?_, ?_⟩
  · exact placed_of_facts hvalid hends hn hedges hsettled hnode
  · exact targetsFit_of_facts hvalid hends hn hedges hedge
  · exact possibleOrdinals_of (fun a ha b hb => hn.id_inj ha hb) hn.keys fun node hnode _ _ =>
      ordinal_lt_card hvalid hends hn hedges hsettled hnode

end Accepted

/-! ## The result -/

section Result

variable [DecidableEq ν]

theorem canonicalPaths_of_settled (hvalid : ValidFacts reader facts)
    (hends : ∀ fact ∈ facts, fact.fromNode ∈ nodes ∧ fact.toNode ∈ nodes)
    (hsettled : Settled (allocationArcs reader facts) (keyTable paths))
    (hreach : ∀ id, .allocation id ∈ nodes → Reachable (allocationArcs reader facts) id) :
    CanonicalPaths reader facts nodes paths where
  least id hid := by
    obtain ⟨k, hk⟩ := hsettled.isSome_iff.mpr (hreach id hid)
    obtain ⟨key, hkey, -⟩ := exists_pathOf hk
    exact ⟨key, hkey, isLeast_pathOf hvalid hsettled hkey⟩
  injective id id' key h h' := pathOf_inj hvalid hsettled h h'
  parent id key visited h hw hnodup := pathOf_parent hvalid hsettled h hw hnodup
  accepted numbered nodeId edges hn hedges :=
    validAllocationPaths_of_facts hvalid hends hn hedges hsettled

/-- All allocations have keys if and only if all of them are reached. -/
theorem Tracked.length_eq_iff (ht : Tracked reader facts paths)
    (hends : ∀ fact ∈ facts, fact.fromNode ∈ nodes ∧ fact.toNode ∈ nodes) (hnodup : nodes.Nodup)
    (hsettled : Settled (allocationArcs reader facts) (keyTable paths)) :
    paths.length = (nodes.filter fun node => node.allocation?.isSome).length ↔
      ∀ id, .allocation id ∈ nodes → Reachable (allocationArcs reader facts) id := by
  have hmem : ∀ id, id ∈ nodes.filterMap MonoTraceNode.allocation? ↔ .allocation id ∈ nodes := by
    intro id
    rw [mem_filterMap]
    constructor
    · rintro ⟨node, hnode, hid⟩
      cases node with
      | other other => cases hid
      | allocation other => exact Option.some.inj hid ▸ hnode
    · exact fun hid => ⟨_, hid, rfl⟩
  have hlisted : (nodes.filterMap MonoTraceNode.allocation?).Nodup := by
    refine hnodup.filterMap fun a b id ha hb => ?_
    cases a <;> cases ha
    cases b <;> cases hb
    rfl
  have hsub : paths.map Prod.fst ⊆ nodes.filterMap MonoTraceNode.allocation? := fun id hid => by
    obtain ⟨fact, hfact, hto⟩ := ht.targets id hid
    exact (hmem id).mpr (hto ▸ (hends fact hfact).2)
  have hlength : (nodes.filter fun node => node.allocation?.isSome).length =
      (nodes.filterMap MonoTraceNode.allocation?).length := by
    rw [length_filterMap_eq_countP, countP_eq_length_filter]
  rw [hlength, ← length_map Prod.fst, length_eq_iff_subset ht.nodup hlisted hsub]
  have hkeys : ∀ id, (∃ k, keyTable paths id = some k) ↔ ∃ key, pathOf paths id = some key := by
    intro id
    constructor
    · rintro ⟨k, hk⟩
      obtain ⟨key, hkey, -⟩ := exists_pathOf hk
      exact ⟨key, hkey⟩
    · rintro ⟨key, hkey⟩
      exact ⟨_, keyTable_eq_some.mpr hkey⟩
  refine forall_congr' fun id => ?_
  rw [hmem, ← pathOf_isSome, ← hsettled.isSome_iff, hkeys]

/-- The result is settled after enough rounds. -/
theorem exists_result (hvalid : ValidFacts reader facts)
    (hends : ∀ fact ∈ facts, fact.fromNode ∈ nodes ∧ fact.toNode ∈ nodes) (hnodup : nodes.Nodup) :
    ∃ rounds result, (∀ limit, rounds ≤ limit →
        allocationPaths reader facts nodes limit = some result) ∧
      (Overflows (allocationArcs reader facts) → result = .error .tooManyNodes) ∧
      (¬Overflows (allocationArcs reader facts) →
        (∃ id, .allocation id ∈ nodes ∧ ¬Reachable (allocationArcs reader facts) id) ∧
            result = .error .allocationIdentity ∨
          ∃ paths, result = .ok paths ∧ CanonicalPaths reader facts nodes paths) := by
  obtain ⟨rounds, ⟨hover, hloop⟩ | ⟨paths, ht, hidle, hloop⟩⟩ := untilStable_relaxFacts hvalid
  · refine
      ⟨rounds, .error .tooManyNodes, fun limit hlimit => ?_, fun _ => rfl, fun h => absurd hover h⟩
    rw [allocationPaths, hloop limit hlimit]
    rfl
  · have hsettled := ht.settled hidle
    by_cases hreach : ∀ id, .allocation id ∈ nodes → Reachable (allocationArcs reader facts) id
    · refine ⟨rounds, .ok paths, fun limit hlimit => ?_, fun h => absurd h (ht.not_overflows hidle),
        fun _ => .inr ⟨paths, rfl, canonicalPaths_of_settled hvalid hends hsettled hreach⟩⟩
      rw [allocationPaths, hloop limit hlimit]
      show some (if paths.length ≠ _ then _ else _) = _
      rw [if_neg (not_not.mpr ((ht.length_eq_iff hends hnodup hsettled).mpr hreach))]
      rfl
    · refine ⟨rounds, .error .allocationIdentity, fun limit hlimit => ?_,
        fun h => absurd h (ht.not_overflows hidle), fun _ => .inl ⟨by simpa using hreach, rfl⟩⟩
      rw [allocationPaths, hloop limit hlimit]
      show some (if paths.length ≠ _ then _ else _) = _
      rw [if_pos (mt (ht.length_eq_iff hends hnodup hsettled).mp hreach)]
      rfl

theorem CanonicalPaths.reachable (h : CanonicalPaths reader facts nodes paths)
    (hid : .allocation id ∈ nodes) : Reachable (allocationArcs reader facts) id := by
  obtain ⟨key, -, ⟨visited, hw, -⟩, -⟩ := h.least id hid
  exact ⟨_, visited, hw⟩

/-- The loop ends.  An ordinal that is too large, on an arc that is reached, is an error.  Otherwise
it is an error exactly when an allocation is not reached from an item or a vtable, and the keys are
canonical when all are reached. -/
theorem allocationPaths_canonical (hvalid : ValidFacts reader facts)
    (hends : ∀ fact ∈ facts, fact.fromNode ∈ nodes ∧ fact.toNode ∈ nodes) (hnodup : nodes.Nodup) :
    ∃ rounds result, (∀ limit, rounds ≤ limit →
        allocationPaths reader facts nodes limit = some result) ∧
      (Overflows (allocationArcs reader facts) → result = .error .tooManyNodes) ∧
      (¬Overflows (allocationArcs reader facts) →
        (result = .error .allocationIdentity ↔
          ∃ id, .allocation id ∈ nodes ∧ ¬Reachable (allocationArcs reader facts) id) ∧
        ((∀ id, .allocation id ∈ nodes → Reachable (allocationArcs reader facts) id) →
          ∃ paths, result = .ok paths ∧ CanonicalPaths reader facts nodes paths)) := by
  obtain ⟨rounds, result, hloop, hover, hresult⟩ := exists_result hvalid hends hnodup
  refine ⟨rounds, result, hloop, hover, fun hfits => ⟨?_, ?_⟩⟩
  · rcases hresult hfits with ⟨hunreached, rfl⟩ | ⟨paths, rfl, hpaths⟩
    · exact ⟨fun _ => hunreached, fun _ => rfl⟩
    · refine ⟨nofun, ?_⟩
      rintro ⟨id, hid, hunreached⟩
      exact absurd (hpaths.reachable hid) hunreached
  · intro hreach
    rcases hresult hfits with ⟨⟨id, hid, hunreached⟩, -⟩ | hpaths
    · exact absurd (hreach id hid) hunreached
    · exact hpaths

end Result

/-! ## Few facts -/

/-- Ordinals are too large only where there are very many facts. -/
theorem not_overflows_of_length [DecidableEq ν] (h : facts.length ≤ u32Size) :
    ¬Overflows (allocationArcs reader facts) := by
  rintro ⟨arc, ⟨before, fact, after, rfl, harc⟩, -, hlarge⟩
  obtain ⟨site, -, hlabel⟩ := harc.label
  have hordinal : arc.label.sameRoleOrdinal ≤ before.length := by
    rw [hlabel]
    exact (classOrdinal_le _ _).trans (length_filterMap_le ..)
  rw [length_append, length_cons] at h
  omega

/-! ## References from one item -/

/-- A compiler whose only item is a static. -/
def staticReader : TraceReader Unit Unit where
  nonallocationKey _ := .ok (.static ⟨[]⟩)
  nonallocation _ _ h _ := by
    rw [← Except.ok.inj h]
    exact MonoKey.noConfusion
  spanSite _ := .ok .externalSource

def staticFact (id : AllocId) : MonoUseFact Unit Unit :=
  ⟨.other (), .allocation id, .constAllocation, .used, .compilerGenerated⟩

def referenceFact (id id' : AllocId) : MonoUseFact Unit Unit :=
  ⟨.allocation id, .allocation id', .allocationReference, .used, .allocationOffset 8⟩

theorem validFacts_static {facts : List (MonoUseFact Unit Unit)}
    (h : ∀ fact ∈ facts, (∃ id, fact = staticFact id) ∨ ∃ id id', fact = referenceFact id id') :
    ValidFacts staticReader facts where
  cause fact hfact id _ := by rcases h fact hfact with ⟨_, rfl⟩ | ⟨_, _, rfl⟩ <;> rfl
  site fact hfact _ := by
    rcases h fact hfact with ⟨_, rfl⟩ | ⟨_, _, rfl⟩ <;> exact ⟨_, rfl, rfl⟩
  root _ _ _ _ _ _ := ⟨_, rfl⟩
  root_injective _ _ _ _ _ _ _ _ _ _ _ _ _ _ _ := rfl

theorem reachable_of_fact [DecidableEq ν] (hvalid : ValidFacts reader facts)
    (fact : MonoUseFact ν σ) (hfact : fact ∈ facts) (hto : fact.toNode = .allocation id)
    (hfrom : ∀ before, fact.fromNode = .allocation before →
      Reachable (allocationArcs reader facts) before) :
    Reachable (allocationArcs reader facts) id := by
  obtain ⟨before, after, hsplit⟩ := append_of_mem hfact
  obtain ⟨⟨source, target, label⟩, harc⟩ := hvalid.exists_arc before hfact hto
  obtain rfl := MonoTraceNode.allocation.inj (hto.symm.trans harc.target)
  have hin : (⟨source, id, label⟩ : Arc _ _ _) ∈ allocationArcs reader facts :=
    ⟨before, fact, after, hsplit, harc⟩
  cases source with
  | inl root => exact ⟨_, _, .start hin⟩
  | inr previous =>
    have hprevious : fact.fromNode = .allocation previous := by
      have hsource := harc.source
      cases hnode : fact.fromNode with
      | allocation found =>
        rw [hnode] at hsource
        rw [Sum.inr.inj (Option.some.inj hsource)]
      | other node =>
        rw [hnode, arcSource] at hsource
        split at hsource <;> cases hsource
    obtain ⟨k, visited, hw⟩ := hfrom previous hprevious
    exact ⟨_, _, .step hw hin⟩

/-- Two allocations that refer to each other and one of them to itself; the static refers to that
one twice. -/
theorem allocationPaths_canonical_cycle :
    let a : AllocId := ⟨0⟩
    let b : AllocId := ⟨1⟩
    let facts :=
      [referenceFact b a, referenceFact a a, staticFact a, referenceFact a b, staticFact a]
    let nodes := [.other (), .allocation a, .allocation b]
    ∃ rounds paths, (∀ limit, rounds ≤ limit →
        allocationPaths staticReader facts nodes limit = some (.ok paths)) ∧
      CanonicalPaths staticReader facts nodes paths := by
  intro a b facts nodes
  have hvalid : ValidFacts staticReader facts := validFacts_static (by simp [facts])
  obtain ⟨rounds, result, hloop, -, hresult⟩ := allocationPaths_canonical hvalid
    (by decide : ∀ fact ∈ facts, fact.fromNode ∈ nodes ∧ fact.toNode ∈ nodes) (by decide)
  have ha : Reachable (allocationArcs staticReader facts) a :=
    reachable_of_fact hvalid (staticFact a) (by decide) rfl nofun
  have hb : Reachable (allocationArcs staticReader facts) b :=
    reachable_of_fact hvalid (referenceFact a b) (by decide) rfl fun before hbefore => by
      obtain rfl := MonoTraceNode.allocation.inj hbefore
      exact ha
  obtain ⟨-, hpaths⟩ := hresult (not_overflows_of_length (by decide))
  obtain ⟨paths, rfl, hcanonical⟩ := hpaths fun id hid => by
    simp only [nodes, mem_cons, reduceCtorEq, MonoTraceNode.allocation.injEq, not_mem_nil,
      or_false, false_or] at hid
    rcases hid with rfl | rfl
    · exact ha
    · exact hb
  exact ⟨rounds, paths, hloop, hcanonical⟩

/-- More allocations than ordinals, all of them referred to by the static. -/
theorem overflows_static {l : List AllocId} (hnodup : l.Nodup) (hlarge : u32Size < l.length) :
    Overflows (allocationArcs staticReader (l.map staticFact)) := by
  obtain ⟨front, last, rfl⟩ : ∃ front last, l = front ++ [last] := by
    rcases eq_nil_or_concat l with rfl | ⟨front, last, rfl⟩
    · exact absurd hlarge (Nat.not_lt_zero _)
    · exact ⟨front, last, concat_eq_append⟩
  have hfront : u32Size ≤ front.length := by
    rw [length_append, length_singleton] at hlarge
    exact Nat.le_of_lt_succ hlarge
  let role : FactRole Unit := factRole (staticFact last) .compilerGenerated
  have hpushes : (front.map staticFact).filterMap (rolePush staticReader) =
      front.map fun id => (role, id) := by
    rw [filterMap_map]
    exact congrFun filterMap_eq_map' front
  refine ⟨⟨.inl (.static ⟨[]⟩), last, pathPart role front.length⟩,
    ⟨front.map staticFact, staticFact last, [], by simp, rfl, rfl, .compilerGenerated, rfl, ?_⟩,
    nofun, hfront⟩
  rw [hpushes, classOrdinal_map (nodup_append.mp hnodup).1]

/-- With too many targets of one role no allocation gets a key, although all are reached. -/
theorem allocationPaths_above_u32 :
    let ids := (List.range (u32Size + 1)).map AllocId.mk
    let facts := ids.map staticFact
    let nodes := .other () :: ids.map .allocation
    ValidFacts staticReader facts ∧ (∀ fact ∈ facts, fact.fromNode ∈ nodes ∧ fact.toNode ∈ nodes) ∧
      nodes.Nodup ∧ (∀ id, .allocation id ∈ nodes →
        Reachable (allocationArcs staticReader facts) id) ∧
      ∃ rounds, ∀ limit, rounds ≤ limit →
        allocationPaths staticReader facts nodes limit = some (.error .tooManyNodes) := by
  intro ids facts nodes
  have hids : ids.Nodup := nodup_range.map fun a b h => congrArg AllocId.index h
  have hvalid : ValidFacts staticReader facts := validFacts_static fun fact hfact => by
    obtain ⟨id, -, rfl⟩ := mem_map.mp hfact
    exact .inl ⟨id, rfl⟩
  have hends : ∀ fact ∈ facts, fact.fromNode ∈ nodes ∧ fact.toNode ∈ nodes := fun fact hfact => by
    obtain ⟨id, hid, rfl⟩ := mem_map.mp hfact
    exact ⟨mem_cons_self, mem_cons_of_mem _ (mem_map_of_mem hid)⟩
  have hnodes : nodes.Nodup := by
    refine nodup_cons.mpr ⟨by simp, hids.map fun a b h => MonoTraceNode.allocation.inj h⟩
  obtain ⟨rounds, result, hloop, hover, -⟩ := exists_result hvalid hends hnodes
  refine ⟨hvalid, hends, hnodes, fun id hid => ?_, rounds, fun limit hlimit => ?_⟩
  · have hmem : id ∈ ids := by simpa [nodes] using hid
    exact reachable_of_fact hvalid (staticFact id) (mem_map_of_mem hmem) rfl nofun
  · rw [hloop limit hlimit, hover (overflows_static hids (by simp [ids]))]

end ItemDependencies
