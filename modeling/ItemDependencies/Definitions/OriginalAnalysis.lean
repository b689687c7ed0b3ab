import ItemDependencies.Definitions.OriginalGraph
import ItemDependencies.Graph.ExpansionKeys

/-!
# A reduced analysis in original coordinates

The expansions, the monomorphic items and the edges of the dependency graph carry ranges of their
own.  Together with the definition graph they are mapped back to the original, and nothing but the
ranges changes.
-/

namespace ItemDependencies

open Library List

/-! ## Expansions, items and observations -/

def normalizeOptionalRange (coordinates : SourceRewrite) :
    Option ByteRange → Except SourceRewriteError (Option ByteRange)
  | none => return none
  | some range => do
    let range ← coordinates.originalRange range
    return some range

def normalizeExpansionPart (coordinates : SourceRewrite) (part : ExpansionKeyPart) :
    Except SourceRewriteError ExpansionKeyPart := do
  let invocationRange ← normalizeOptionalRange coordinates part.invocationRange
  let nodeRange ← normalizeOptionalRange coordinates part.nodeRange
  let targetRange ← normalizeOptionalRange coordinates part.targetRange
  let selectedMacroRule ← normalizeOptionalRange coordinates part.selectedMacroRule
  return { part with
    invocationRange := invocationRange
    nodeRange := nodeRange
    targetRange := targetRange
    selectedMacroRule := selectedMacroRule }

def normalizeExpansion (coordinates : SourceRewrite) (expansion : KeyedExpansion) :
    Except SourceRewriteError KeyedExpansion := do
  let parts ← expansion.key.parts.mapM (normalizeExpansionPart coordinates)
  return { expansion with key := ⟨parts⟩ }

def normalizeExpansionRanges (expansions : List KeyedExpansion) (coordinates : SourceRewrite) :
    Except SourceRewriteError (List KeyedExpansion) :=
  expansions.mapM (normalizeExpansion coordinates)

def normalizePathPart (coordinates : SourceRewrite) (part : AllocationPathPart) :
    Except SourceRewriteError AllocationPathPart :=
  match part.site with
  | .source range => do
    let range ← coordinates.originalRange range
    return { part with site := .source range }
  | .externalSource | .allocationReference | .compilerGenerated => return part

def normalizeMonoNode (coordinates : SourceRewrite) (node : MonoNode) :
    Except SourceRewriteError MonoNode :=
  match node.key with
  | .allocation allocation => do
    let path ← allocation.path.mapM (normalizePathPart coordinates)
    return { node with key := .allocation { allocation with path := path } }
  | .instance .. | .static _ | .globalAsm _ | .vTable .. => return node

def normalizeMonoRanges (nodes : List MonoNode) (coordinates : SourceRewrite) :
    Except SourceRewriteError (List MonoNode) :=
  nodes.mapM (normalizeMonoNode coordinates)

def normalizeSite (coordinates : SourceRewrite) :
    ObservationSite → Except SourceRewriteError ObservationSite
  | .source range => do
    let range ← coordinates.originalRange range
    return .source range
  | .externalSource => return .externalSource
  | .allocationOffset offset => return .allocationOffset offset
  | .vTableSlot slot => return .vTableSlot slot
  | .compilerGenerated => return .compilerGenerated

def normalizeObservedEdge (coordinates : SourceRewrite) (edge : DependencyEdge) :
    Except SourceRewriteError DependencyEdge := do
  let sites ← edge.sites.mapM (normalizeSite coordinates)
  return { edge with sites := sites }

def normalizeObservationRanges (edges : List DependencyEdge) (coordinates : SourceRewrite) :
    Except SourceRewriteError (List DependencyEdge) :=
  edges.mapM (normalizeObservedEdge coordinates)

/-! ## The changes of coordinates -/

namespace RangeMap

variable (f : RangeMap)

def expansionPart (part : ExpansionKeyPart) : ExpansionKeyPart :=
  { part with
    invocationRange := part.invocationRange.map f.range
    nodeRange := part.nodeRange.map f.range
    targetRange := part.targetRange.map f.range
    selectedMacroRule := part.selectedMacroRule.map f.range }

def expansion (expansion : KeyedExpansion) : KeyedExpansion :=
  { expansion with key := ⟨expansion.key.parts.map f.expansionPart⟩ }

def pathSite : AllocationPathSite → AllocationPathSite
  | .source range => .source (f.range range)
  | .externalSource => .externalSource
  | .allocationReference => .allocationReference
  | .compilerGenerated => .compilerGenerated

def pathPart (part : AllocationPathPart) : AllocationPathPart :=
  { part with site := f.pathSite part.site }

def monoKey : MonoKey → MonoKey
  | .allocation allocation => .allocation { allocation with path := allocation.path.map f.pathPart }
  | .instance key role => .instance key role
  | .static definition => .static definition
  | .globalAsm definition => .globalAsm definition
  | .vTable concreteType traitReference => .vTable concreteType traitReference

def monoNode (node : MonoNode) : MonoNode := { node with key := f.monoKey node.key }

def site : ObservationSite → ObservationSite
  | .source range => .source (f.range range)
  | .externalSource => .externalSource
  | .allocationOffset offset => .allocationOffset offset
  | .vTableSlot slot => .vTableSlot slot
  | .compilerGenerated => .compilerGenerated

def observedEdge (edge : DependencyEdge) : DependencyEdge :=
  { edge with sites := edge.sites.map f.site }

end RangeMap

/-! ## The ranges of the output -/

def ExpansionKeyPart.ranges (part : ExpansionKeyPart) : List (Option ByteRange) :=
  [part.invocationRange, part.nodeRange, part.targetRange, part.selectedMacroRule]

def MonoKey.sites : MonoKey → List AllocationPathSite
  | .allocation key => key.path.map AllocationPathPart.site
  | .instance .. | .static _ | .globalAsm _ | .vTable .. => []

namespace SourceRewrite

variable (rewrite : SourceRewrite)

def IsOutputExpansion (expansion : KeyedExpansion) : Prop :=
  ∀ part ∈ expansion.key.parts, ∀ range ∈ part.ranges, ∀ r ∈ range, rewrite.IsOutputRange r

def IsOutputMono (node : MonoNode) : Prop :=
  ∀ r, .source r ∈ node.key.sites → rewrite.IsOutputRange r

def IsOutputEdge (edge : DependencyEdge) : Prop :=
  ∀ r, .source r ∈ edge.sites → rewrite.IsOutputRange r

namespace IsEmbedding

variable {rewrite} {f : RangeMap} (hf : rewrite.IsEmbedding f)
include hf

theorem normalizeOptionalRange_eq {range : Option ByteRange}
    (h : ∀ r ∈ range, rewrite.IsOutputRange r) :
    normalizeOptionalRange rewrite range = .ok (range.map f.range) := by
  cases range with
  | none => rfl
  | some r =>
    rw [normalizeOptionalRange, hf.range r (h r rfl)]
    rfl

theorem normalizeExpansion_eq {expansion : KeyedExpansion}
    (h : rewrite.IsOutputExpansion expansion) :
    normalizeExpansion rewrite expansion = .ok (f.expansion expansion) := by
  have hparts : expansion.key.parts.mapM (normalizeExpansionPart rewrite) =
      .ok (expansion.key.parts.map f.expansionPart) := by
    refine mapM_eq_map fun part hpart => ?_
    have hranges := h part hpart
    simp only [ExpansionKeyPart.ranges, forall_mem_cons] at hranges
    obtain ⟨hinvocation, hnode, htarget, hrule, -⟩ := hranges
    rw [normalizeExpansionPart, hf.normalizeOptionalRange_eq hinvocation,
      hf.normalizeOptionalRange_eq hnode, hf.normalizeOptionalRange_eq htarget,
      hf.normalizeOptionalRange_eq hrule]
    rfl
  rw [normalizeExpansion, hparts]
  rfl

theorem normalizePathPart_eq {part : AllocationPathPart}
    (h : ∀ r, part.site = .source r → rewrite.IsOutputRange r) :
    normalizePathPart rewrite part = .ok (f.pathPart part) := by
  obtain ⟨relation, collection, site, ordinal⟩ := part
  cases site with
  | source range =>
    unfold normalizePathPart
    dsimp only
    rw [hf.range range (h range rfl)]
    rfl
  | externalSource => rfl
  | allocationReference => rfl
  | compilerGenerated => rfl

theorem normalizeMonoNode_eq {node : MonoNode} (h : rewrite.IsOutputMono node) :
    normalizeMonoNode rewrite node = .ok (f.monoNode node) := by
  obtain ⟨id, key, materialized⟩ := node
  cases key with
  | allocation allocation =>
    have hpath : allocation.path.mapM (normalizePathPart rewrite) =
        .ok (allocation.path.map f.pathPart) :=
      mapM_eq_map fun part hpart => hf.normalizePathPart_eq fun r hr =>
        h r (mem_map.mpr ⟨part, hpart, hr⟩)
    unfold normalizeMonoNode
    dsimp only
    rw [hpath]
    rfl
  | _ => rfl

theorem normalizeObservedEdge_eq {edge : DependencyEdge} (h : rewrite.IsOutputEdge edge) :
    normalizeObservedEdge rewrite edge = .ok (f.observedEdge edge) := by
  have hsites : edge.sites.mapM (normalizeSite rewrite) = .ok (edge.sites.map f.site) := by
    refine mapM_eq_map fun site hsite => ?_
    cases site with
    | source range =>
      rw [normalizeSite, hf.range range (h range hsite)]
      rfl
    | _ => rfl
  rw [normalizeObservedEdge, hsites]
  rfl

/-! ### Nothing falls together -/

theorem optionalRange_injOn {range range' : Option ByteRange}
    (h : ∀ r ∈ range, rewrite.IsOutputRange r) (h' : ∀ r ∈ range', rewrite.IsOutputRange r)
    (heq : range.map f.range = range'.map f.range) : range = range' :=
  optionMap_injOn (fun _ hr _ hs => hf.strictMono.injOn (h _ hr) (h' _ hs)) heq

theorem expansion_injOn :
    Set.InjOn f.expansion {expansion | rewrite.IsOutputExpansion expansion} := by
  rintro ⟨node, ⟨parts⟩, fragment⟩ h ⟨node', ⟨parts'⟩, fragment'⟩ h' heq
  obtain ⟨hnode, hkey, hfragment⟩ := KeyedExpansion.mk.inj heq
  have hparts : parts = parts' := by
    refine map_injOn (fun part hpart part' hpart' hparts => ?_) (ExpansionKey.mk.inj hkey)
    have hranges := h part hpart
    have hranges' := h' part' hpart'
    simp only [ExpansionKeyPart.ranges, forall_mem_cons] at hranges hranges'
    obtain ⟨hinvocation, hnode, htarget, hrule, -⟩ := hranges
    obtain ⟨hinvocation', hnode', htarget', hrule', -⟩ := hranges'
    obtain ⟨hkind, hfragment, himplementation, hi, hn, ht, hmacro, hr, hordinal⟩ :=
      ExpansionKeyPart.mk.inj hparts
    cases part
    cases part'
    cases hkind
    cases hfragment
    cases himplementation
    cases hmacro
    cases hordinal
    cases hf.optionalRange_injOn hinvocation hinvocation' hi
    cases hf.optionalRange_injOn hnode hnode' hn
    cases hf.optionalRange_injOn htarget htarget' ht
    cases hf.optionalRange_injOn hrule hrule' hr
    rfl
  cases hnode
  cases hfragment
  cases hparts
  rfl

theorem pathPart_injOn {part part' : AllocationPathPart}
    (h : ∀ r, part.site = .source r → rewrite.IsOutputRange r)
    (h' : ∀ r, part'.site = .source r → rewrite.IsOutputRange r)
    (heq : f.pathPart part = f.pathPart part') : part = part' := by
  obtain ⟨relation, collection, site, ordinal⟩ := part
  obtain ⟨relation', collection', site', ordinal'⟩ := part'
  obtain ⟨hrelation, hcollection, hsite, hordinal⟩ := AllocationPathPart.mk.inj heq
  cases hrelation
  cases hcollection
  cases hordinal
  have hsame : site = site' := by
    cases site with
    | source range =>
      cases site' with
      | source range' =>
        rw [hf.strictMono.injOn (h range rfl) (h' range' rfl) (AllocationPathSite.source.inj hsite)]
      | _ => cases hsite
    | _ => cases site' <;> first | rfl | cases hsite
  rw [hsame]

theorem monoNode_injOn : Set.InjOn f.monoNode {node | rewrite.IsOutputMono node} := by
  intro node h node' h' heq
  obtain ⟨id, key, materialized⟩ := node
  obtain ⟨id', key', materialized'⟩ := node'
  obtain ⟨hid, hkey, hmaterialized⟩ := MonoNode.mk.inj heq
  cases hid
  cases hmaterialized
  have hsame : key = key' := by
    cases key with
    | allocation allocation =>
      cases key' with
      | allocation allocation' =>
        obtain ⟨hroot, hpath⟩ := AllocationKey.mk.inj (MonoKey.allocation.inj hkey)
        have hpaths : allocation.path = allocation'.path :=
          map_injOn (fun part hpart part' hpart' => hf.pathPart_injOn
            (fun r hr => h r (mem_map.mpr ⟨part, hpart, hr⟩))
            fun r hr => h' r (mem_map.mpr ⟨part', hpart', hr⟩)) hpath
        cases allocation
        cases allocation'
        cases hroot
        cases hpaths
        rfl
      | _ => cases hkey
    | _ => cases key' <;> first | exact hkey | cases hkey
  rw [hsame]

theorem observedEdge_injOn : Set.InjOn f.observedEdge {edge | rewrite.IsOutputEdge edge} := by
  intro edge h edge' h' heq
  obtain ⟨hfrom, hto, hkind, hsites⟩ := DependencyEdge.mk.inj heq
  have hsame : edge.sites = edge'.sites := by
    refine map_injOn (fun site hsite site' hsite' hsame => ?_) hsites
    cases site with
    | source range =>
      cases site' with
      | source range' =>
        rw [hf.strictMono.injOn (h range hsite) (h' range' hsite')
          (ObservationSite.source.inj hsame)]
      | _ => cases hsame
    | _ => cases site' <;> first | exact hsame | cases hsame
  cases edge
  cases edge'
  cases hfrom
  cases hto
  cases hkind
  cases hsame
  rfl

end IsEmbedding

end SourceRewrite

/-- Switching a reduced analysis to the coordinates of the original is an isomorphism.  Every range
of the output on character boundaries has an original range, and their order is kept.  A graph that
was accepted in the coordinates of the output is accepted in those of the original; only its ranges
differ, every origin agrees with the last part of its key, and the keys are compared as before.  The
same is done to expansions, monomorphic items and observed edges, and no two of them fall
together. -/
theorem normalize_original {source : List Char} {deletions : List ByteRange}
    {rewrite : SourceRewrite} (h : splice source deletions = .ok rewrite) :
    (∀ r, rewrite.IsOutputRange r → rewrite.originalRange r = .ok (rewrite.rangeMap.range r)) ∧
    StrictMonoOn rewrite.rangeMap.range {r | rewrite.IsOutputRange r} ∧
    (∀ definitions externalDefinitions edges graph,
      DefinitionGraph.new definitions externalDefinitions edges = .ok graph →
        rewrite.IsOutputGraph graph →
          normalizeDefinitionGraph graph rewrite = .ok (rewrite.rangeMap.graph graph) ∧
          (∀ definition ∈ (rewrite.rangeMap.graph graph).definitions, ∃ part,
            definition.key.parts.getLast? = some part ∧ part.kind = definition.kind ∧
              part.origin = definition.origin.key) ∧
          ∀ a ∈ graph.definitions, ∀ b ∈ graph.definitions,
            compare (rewrite.rangeMap.key a.key) (rewrite.rangeMap.key b.key) =
              compare a.key b.key) ∧
    (∀ expansions, (∀ expansion ∈ expansions, rewrite.IsOutputExpansion expansion) →
      normalizeExpansionRanges expansions rewrite =
        .ok (expansions.map rewrite.rangeMap.expansion)) ∧
    Set.InjOn rewrite.rangeMap.expansion {expansion | rewrite.IsOutputExpansion expansion} ∧
    (∀ nodes, (∀ node ∈ nodes, rewrite.IsOutputMono node) →
      normalizeMonoRanges nodes rewrite = .ok (nodes.map rewrite.rangeMap.monoNode)) ∧
    Set.InjOn rewrite.rangeMap.monoNode {node | rewrite.IsOutputMono node} ∧
    (∀ edges, (∀ edge ∈ edges, rewrite.IsOutputEdge edge) →
      normalizeObservationRanges edges rewrite = .ok (edges.map rewrite.rangeMap.observedEdge)) ∧
    Set.InjOn rewrite.rangeMap.observedEdge {edge | rewrite.IsOutputEdge edge} := by
  have hf := splice_isEmbedding h
  refine ⟨hf.range, hf.strictMono, ?_, fun expansions hall => ?_, hf.expansion_injOn,
    fun nodes hall => ?_, hf.monoNode_injOn, fun edges hall => ?_, hf.observedEdge_injOn⟩
  · intro definitions externalDefinitions edges graph hnew hgraph
    have haccepts := DefinitionGraph.new_ok_iff.mp hnew
    refine ⟨haccepts.normalize_eq hgraph hf, fun definition hmem => ?_, fun a ha b hb => ?_⟩
    · exact DefinitionGraph.last_part (haccepts.mapRanges hgraph hf).checked hmem
    · exact haccepts.compare_key hgraph hf ha hb
  · exact mapM_eq_map fun expansion hmem => hf.normalizeExpansion_eq (hall expansion hmem)
  · exact mapM_eq_map fun node hmem => hf.normalizeMonoNode_eq (hall node hmem)
  · exact mapM_eq_map fun edge hmem => hf.normalizeObservedEdge_eq (hall edge hmem)

/-- A function behind a seam, with a site that is empty and lies on the seam. -/
theorem normalize_original_seam :
    let root : DefinitionKeyPart := ⟨.crateRoot, .written ⟨0, 4⟩ .crateRoot, none, 0⟩
    let child : DefinitionKeyPart := ⟨.function, .expanded ⟨1, 3⟩ none, none, 0⟩
    let graph : DefinitionGraph :=
      ⟨[⟨⟨0⟩, ⟨[root]⟩, .crateRoot, none, .written ⟨0⟩ ⟨0, 4⟩ ⟨0, 4⟩ .crateRoot 0⟩,
        ⟨⟨1⟩, ⟨[root, child]⟩, .function, some ⟨0⟩, .expanded ⟨1⟩ ⟨1, 3⟩ none 0⟩], [],
        [⟨⟨1⟩, .localTarget ⟨0⟩, .parent, [⟨1, 3⟩]⟩,
          ⟨⟨1⟩, .localTarget ⟨0⟩, .valuePath, [⟨1, 1⟩, ⟨3, 4⟩]⟩]⟩
    ∃ rewrite, splice ['a', 'X', 'é', 'Y', 'b'] [⟨1, 2⟩, ⟨4, 5⟩] = .ok rewrite ∧
      normalizeDefinitionGraph graph rewrite = .ok (rewrite.rangeMap.graph graph) ∧
      normalizeObservationRanges [⟨.definition ⟨1⟩, .definition ⟨0⟩, .generatedBy,
          [.source ⟨1, 1⟩]⟩] rewrite =
        .ok [rewrite.rangeMap.observedEdge ⟨.definition ⟨1⟩, .definition ⟨0⟩, .generatedBy,
          [.source ⟨1, 1⟩]⟩] := by
  intro root child graph
  have hrun : ∃ rewrite, splice ['a', 'X', 'é', 'Y', 'b'] [⟨1, 2⟩, ⟨4, 5⟩] = .ok rewrite ∧
      rewrite.source = ['a', 'é', 'b'] := ⟨_, rfl, rfl⟩
  obtain ⟨rewrite, hrun, hsource⟩ := hrun
  have hboundaries : ∀ r ∈ ([⟨1, 1⟩, ⟨1, 3⟩, ⟨3, 4⟩] : List ByteRange), r.start ≤ r.stop ∧
      isCharBoundary ['a', 'é', 'b'] r.start = true ∧
      isCharBoundary ['a', 'é', 'b'] r.stop = true := by decide
  have hrange : ∀ r ∈ ([⟨1, 1⟩, ⟨1, 3⟩, ⟨3, 4⟩] : List ByteRange), rewrite.IsOutputRange r := by
    rw [← hsource] at hboundaries
    exact fun r hr => ⟨(hboundaries r hr).1, (hboundaries r hr).2.1, (hboundaries r hr).2.2⟩
  have hnew : DefinitionGraph.new graph.definitions [] graph.edges = .ok graph := by
    have hsome : (DefinitionGraph.new graph.definitions [] graph.edges).toOption = some graph := by
      decide +kernel
    cases hrun : DefinitionGraph.new graph.definitions [] graph.edges with
    | error => rw [hrun] at hsome; cases hsome
    | ok found => rw [hrun] at hsome; exact congrArg Except.ok (Option.some.inj hsome)
  have hwhole : rewrite.IsAnchor .crateRoot ⟨0, 4⟩ := by
    unfold SourceRewrite.IsAnchor
    rw [if_pos rfl, hsource]
    rfl
  have hgraph : rewrite.IsOutputGraph graph := by
    refine ⟨by decide, ?_, ?_⟩
    · refine forall_mem_cons.mpr ⟨⟨hwhole, hwhole⟩, forall_mem_singleton.mpr ?_⟩
      exact hrange ⟨1, 3⟩ (by decide)
    · refine forall_mem_cons.mpr ⟨fun site hsite => hrange site ?_,
        forall_mem_singleton.mpr fun site hsite => hrange site ?_⟩
      · rw [mem_singleton.mp hsite]
        decide
      · rcases mem_pair.mp hsite with rfl | rfl <;> decide
  obtain ⟨-, -, hgraphs, -, -, -, -, hedges, -⟩ := normalize_original hrun
  refine ⟨rewrite, hrun, (hgraphs _ _ _ graph hnew hgraph).1,
    hedges [_] (forall_mem_singleton.mpr fun r hr => ?_)⟩
  rw [ObservationSite.source.inj (mem_singleton.mp hr)]
  exact hrange ⟨1, 1⟩ (by decide)

end ItemDependencies
