import ItemDependencies.Graph.DefinitionGraph
import ItemDependencies.Library.Gathering

/-!
# Grouped edges

The collectors report an edge each time that they observe it.  The dependency graph has one edge for
each source, target and kind, with the sites of all observations.
-/

namespace ItemDependencies

open Library List

/-! ## The order of edges -/

theorem MonoCollection.ctorIdx_injective : Function.Injective MonoCollection.ctorIdx :=
  Function.LeftInverse.injective MonoCollection.ofNat_ctorIdx

theorem MonoDependencyKind.ctorIdx_injective : Function.Injective MonoDependencyKind.ctorIdx :=
  Function.LeftInverse.injective MonoDependencyKind.ofNat_ctorIdx

instance : LinearOrder MonoCollection :=
  LinearOrder.lift' MonoCollection.ctorIdx MonoCollection.ctorIdx_injective

instance : LinearOrder MonoDependencyKind :=
  LinearOrder.lift' MonoDependencyKind.ctorIdx MonoDependencyKind.ctorIdx_injective

/-- The declaration order of the constructors, then their fields. -/
def DependencyKind.rank : DependencyKind → Nat ×ₗ Nat ×ₗ Nat
  | definition kind => toLex (0, toLex (kind.ctorIdx, 0))
  | expansionDiscoveredIn => toLex (1, toLex (0, 0))
  | expansionSemanticParent => toLex (2, toLex (0, 0))
  | expansionSourceCallParent => toLex (3, toLex (0, 0))
  | macroDefinition => toLex (4, toLex (0, 0))
  | expansionUse => toLex (5, toLex (0, 0))
  | generatedBy => toLex (6, toLex (0, 0))
  | selectionProof relation collection => toLex (7, toLex (relation.ctorIdx, collection.ctorIdx))
  | proofRelation relation ordinal => toLex (8, toLex (relation.ctorIdx, ordinal))
  | materializesDefinition => toLex (9, toLex (0, 0))
  | mono relation collection => toLex (10, toLex (relation.ctorIdx, collection.ctorIdx))

theorem DependencyKind.rank_injective : Function.Injective DependencyKind.rank := by
  intro a b h
  obtain ⟨hvariant, h⟩ := Prod.mk.inj (toLex.injective h)
  cases a <;> cases b <;> cases hvariant <;>
    obtain ⟨hfirst, hsecond⟩ := Prod.mk.inj (toLex.injective h)
  case definition.definition => rw [DefinitionDependencyKind.ctorIdx_injective hfirst]
  case selectionProof.selectionProof | mono.mono =>
    rw [MonoDependencyKind.ctorIdx_injective hfirst, MonoCollection.ctorIdx_injective hsecond]
  case proofRelation.proofRelation =>
    rw [Function.LeftInverse.injective ProofRelationKind.ofNat_ctorIdx hfirst, hsecond]
  all_goals rfl

instance : LinearOrder DependencyKind :=
  LinearOrder.lift' DependencyKind.rank DependencyKind.rank_injective

def ObservationSite.rank : ObservationSite → Nat ×ₗ WithBot ByteRange ×ₗ Nat
  | source range => toLex (0, toLex (some range, 0))
  | externalSource => toLex (1, toLex (none, 0))
  | allocationOffset offset => toLex (2, toLex (none, offset))
  | vTableSlot slot => toLex (3, toLex (none, slot))
  | compilerGenerated => toLex (4, toLex (none, 0))

theorem ObservationSite.rank_injective : Function.Injective ObservationSite.rank := by
  intro a b h
  obtain ⟨hvariant, h⟩ := Prod.mk.inj (toLex.injective h)
  cases a <;> cases b <;> cases hvariant <;>
    obtain ⟨hrange, hnumber⟩ := Prod.mk.inj (toLex.injective h)
  case source.source => cases hrange; rfl
  case allocationOffset.allocationOffset | vTableSlot.vTableSlot => rw [hnumber]
  all_goals rfl

instance : LinearOrder ObservationSite :=
  LinearOrder.lift' ObservationSite.rank ObservationSite.rank_injective

inductive EvidenceOrigin where
  | compiler
  | patchedObserver
  | derived
  | multiple
deriving DecidableEq

instance : LinearOrder EvidenceOrigin :=
  LinearOrder.lift' EvidenceOrigin.ctorIdx
    (Function.LeftInverse.injective EvidenceOrigin.ofNat_ctorIdx)

/-- An edge and who observed it. -/
structure ObservedEdge extends DependencyEdge where
  evidence : EvidenceOrigin
deriving DecidableEq

namespace DependencyGraph

abbrev EdgeKey := GraphNode ×ₗ GraphNode ×ₗ DependencyKind

def edgeKey (edge : DependencyEdge) : EdgeKey :=
  toLex (edge.fromNode, toLex (edge.toNode, edge.kind))

theorem edgeKey_eq_iff {a b : DependencyEdge} :
    edgeKey a = edgeKey b ↔ a.fromNode = b.fromNode ∧ a.toNode = b.toNode ∧ a.kind = b.kind := by
  simp [edgeKey]

/-! ## Grouping -/

/-- What has been observed of one edge. -/
structure EdgeGroup where
  sites : Finset ObservationSite
  evidence : Finset EvidenceOrigin

def EdgeGroup.empty : EdgeGroup := ⟨∅, ∅⟩

def EdgeGroup.add (group : EdgeGroup) (edge : ObservedEdge) : EdgeGroup :=
  ⟨group.sites ∪ edge.sites.toFinset, group.evidence ∪ {edge.evidence}⟩

def groupEdges (edges : List ObservedEdge) : SortedMap EdgeKey EdgeGroup :=
  .gather .empty EdgeGroup.add (edges.map fun edge => (edgeKey edge.toDependencyEdge, edge))

/-- The only origin of the evidence, if there is only one. -/
def EdgeGroup.origin (group : EdgeGroup) : EvidenceOrigin :=
  match ascending group.evidence with
  | [origin] => origin
  | _ => .multiple

def groupedEdge (entry : EdgeKey × EdgeGroup) : ObservedEdge where
  fromNode := (ofLex entry.1).1
  toNode := (ofLex (ofLex entry.1).2).1
  kind := (ofLex (ofLex entry.1).2).2
  sites := ascending entry.2.sites
  evidence := entry.2.origin

def groupedEdges (edges : List ObservedEdge) : List ObservedEdge :=
  (groupEdges edges).entries.map groupedEdge

variable {edges : List ObservedEdge} {edge : ObservedEdge} {key : EdgeKey} {group : EdgeGroup}
  {site : ObservationSite} {origin : EvidenceOrigin}

@[simp] theorem edgeKey_groupedEdge {entry : EdgeKey × EdgeGroup} :
    edgeKey (groupedEdge entry).toDependencyEdge = entry.1 := rfl

theorem mem_sites_foldl_add {start : EdgeGroup} (l : List ObservedEdge) :
    site ∈ (l.foldl EdgeGroup.add start).sites ↔
      site ∈ start.sites ∨ ∃ edge ∈ l, site ∈ edge.sites := by
  induction l generalizing start with
  | nil => simp
  | cons edge l ih =>
    rw [foldl_cons, ih]
    simp [EdgeGroup.add, or_assoc]

theorem mem_evidence_foldl_add {start : EdgeGroup} (l : List ObservedEdge) :
    origin ∈ (l.foldl EdgeGroup.add start).evidence ↔
      origin ∈ start.evidence ∨ ∃ edge ∈ l, origin = edge.evidence := by
  induction l generalizing start with
  | nil => simp
  | cons edge l ih =>
    rw [foldl_cons, ih]
    simp [EdgeGroup.add, or_assoc, or_left_comm]

/-- A group has the sites and the origins of all edges with its key. -/
theorem mem_groupEdges (h : (key, group) ∈ (groupEdges edges).entries) :
    (∃ edge ∈ edges, edgeKey edge.toDependencyEdge = key) ∧
    (∀ site, site ∈ group.sites ↔
      ∃ edge ∈ edges, edgeKey edge.toDependencyEdge = key ∧ site ∈ edge.sites) ∧
    ∀ origin, origin ∈ group.evidence ↔
      ∃ edge ∈ edges, edgeKey edge.toDependencyEdge = key ∧ origin = edge.evidence := by
  obtain ⟨⟨value, hvalue⟩, rfl⟩ := SortedMap.mem_entries_gather.mp h
  obtain ⟨edge, hedge, heq⟩ := mem_map.mp hvalue
  obtain ⟨rfl, -⟩ := Prod.mk.inj heq
  refine ⟨⟨edge, hedge, rfl⟩, fun site => ?_, fun origin => ?_⟩
  · rw [mem_sites_foldl_add]
    simp [EdgeGroup.empty, and_assoc]
  · rw [mem_evidence_foldl_add]
    simp [EdgeGroup.empty, and_assoc]

theorem mem_keys_groupEdges : key ∈ (groupEdges edges).keys ↔
    ∃ edge ∈ edges, edgeKey edge.toDependencyEdge = key := by
  constructor
  · intro h
    obtain ⟨group, hgroup⟩ := SortedMap.mem_keys.mp h
    exact (mem_groupEdges (SortedMap.get_eq_some.mp hgroup)).1
  · rintro ⟨edge, hedge, rfl⟩
    refine SortedMap.mem_keys.mpr ⟨_, SortedMap.get_gather_eq_some.mpr ⟨⟨edge, ?_⟩, rfl⟩⟩
    exact mem_map_of_mem hedge

/-- The grouped edges are told apart by their keys, and in order. -/
theorem pairwise_groupedEdges (edges : List ObservedEdge) :
    (groupedEdges edges).Pairwise fun a b =>
      edgeKey a.toDependencyEdge < edgeKey b.toDependencyEdge :=
  pairwise_map.mpr (pairwise_map.mp (groupEdges edges).sorted)

theorem groupedEdges_inj {edge' : ObservedEdge} (h : edge ∈ groupedEdges edges)
    (h' : edge' ∈ groupedEdges edges)
    (hkey : edgeKey edge.toDependencyEdge = edgeKey edge'.toDependencyEdge) : edge = edge' :=
  inj_on_of_nodup_map (f := fun edge : ObservedEdge => edgeKey edge.toDependencyEdge)
    ((pairwise_map.mpr (pairwise_groupedEdges edges)).imp fun hlt => hlt.ne) h h' hkey

theorem mem_sites_groupedEdges (h : edge ∈ groupedEdges edges) : site ∈ edge.sites ↔
    ∃ other ∈ edges, edgeKey other.toDependencyEdge = edgeKey edge.toDependencyEdge ∧
      site ∈ other.sites := by
  obtain ⟨⟨key, group⟩, hentry, rfl⟩ := mem_map.mp h
  rw [edgeKey_groupedEdge, ← (mem_groupEdges hentry).2.1 site]
  exact mem_ascending

/-- The keys of the grouped edges are those of the edges. -/
theorem exists_groupedEdges :
    (∃ edge ∈ groupedEdges edges, edgeKey edge.toDependencyEdge = key) ↔
      ∃ edge ∈ edges, edgeKey edge.toDependencyEdge = key := by
  have hkeys : key ∈ (groupEdges edges).keys ↔ _ := mem_keys_groupEdges
  rw [← hkeys, SortedMap.mem_keys]
  constructor
  · rintro ⟨edge, hedge, rfl⟩
    obtain ⟨⟨key, group⟩, hentry, rfl⟩ := mem_map.mp hedge
    exact ⟨group, SortedMap.get_eq_some.mpr hentry⟩
  · rintro ⟨group, hgroup⟩
    exact ⟨_, mem_map_of_mem (SortedMap.get_eq_some.mp hgroup), rfl⟩

end DependencyGraph

end ItemDependencies
