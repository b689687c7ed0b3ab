import ItemDependencies.Definitions.OriginalKeys
import ItemDependencies.Graph.DefinitionNormalForm

/-!
# The definition graph in original coordinates

After its ranges have been mapped back the graph is validated and grouped again.  It is accepted,
and nothing but its ranges has changed.
-/

namespace ItemDependencies

open Library List

/-- Only the root is a crate, and it stands on the whole output.  The other definitions and the
sites of the edges are on ranges of the output. -/
structure SourceRewrite.IsOutputGraph (rewrite : SourceRewrite) (graph : DefinitionGraph) :
    Prop where
  crates : ∀ definition ∈ graph.definitions, definition.kind = .crateRoot → definition.parent = none
  origins : ∀ definition ∈ graph.definitions, rewrite.IsOrigin definition.kind definition.origin
  sites : ∀ edge ∈ graph.edges, ∀ site ∈ edge.sites, rewrite.IsOutputRange site

namespace DefinitionGraph

variable {rewrite : SourceRewrite} {graph : DefinitionGraph} {definitions : List Definition}
  {externalDefinitions : List ExternalDefinition} {edges : List DefinitionEdge}
  {definition : Definition}

/-- Edges in order with sites in order are what grouping them gives. -/
theorem exists_grouped (hedges : edges.Pairwise fun a b => edgeKey a < edgeKey b)
    (hsites : ∀ edge ∈ edges, edge.sites.Pairwise (· < ·)) :
    ∃ grouped, Grouped edges grouped ∧ edges = edgesOf grouped := by
  let entry (edge : DefinitionEdge) := (edgeKey edge, edge.sites.toFinset)
  have hsorted : ((edges.map entry).map Prod.fst).Pairwise (· < ·) := by
    rw [map_map]
    exact pairwise_map.mpr hedges
  let grouped : SortedMap EdgeKey (Finset ByteRange) := ⟨edges.map entry, hsorted⟩
  have hget : ∀ key sites, grouped.get key = some sites ↔
      ∃ edge ∈ edges, edgeKey edge = key ∧ edge.sites.toFinset = sites := by
    intro key sites
    rw [SortedMap.get_eq_some, mem_map]
    exact exists_congr fun edge => and_congr_right fun _ => Prod.mk_inj
  have hone : ∀ edge ∈ edges, ∀ other ∈ edges, edgeKey edge = edgeKey other → edge = other := by
    refine inj_on_of_nodup_map ?_
    exact pairwise_map.mpr (hedges.imp ne_of_lt)
  refine ⟨grouped, ⟨fun key => ?_, fun key sites hsome site => ?_⟩, ?_⟩
  · rw [SortedMap.mem_keys]
    constructor
    · rintro ⟨sites, hsome⟩
      obtain ⟨edge, hedge, hkey, -⟩ := (hget key sites).mp hsome
      exact ⟨edge, hedge, hkey⟩
    · rintro ⟨edge, hedge, hkey⟩
      exact ⟨_, (hget key _).mpr ⟨edge, hedge, hkey, rfl⟩⟩
  · obtain ⟨edge, hedge, rfl, rfl⟩ := (hget key sites).mp hsome
    rw [mem_toFinset]
    constructor
    · intro hsite
      exact ⟨edge, hedge, rfl, hsite⟩
    · rintro ⟨other, hother, hkey, hsite⟩
      rw [hone edge hedge other hother hkey.symm]
      exact hsite
  · have hsame : ∀ edge ∈ edges, ({ edge with sites := ascending edge.sites.toFinset } :
        DefinitionEdge) = edge := by
      intro edge hedge
      have hsorted : ascending edge.sites.toFinset = edge.sites :=
        (eq_sortDedup (hsites edge hedge) fun _ => Iff.rfl).symm
      rw [hsorted]
    rw [edgesOf, map_map]
    exact ((map_congr_left hsame).trans (map_id edges)).symm

/-! ## The checks -/

theorem isWrittenRoot_map (f : RangeMap) {root : Definition} (h : isWrittenRoot root = true) :
    isWrittenRoot (f.definition root) = true := by
  obtain ⟨hkind, hkey, unit, unitRange, anchor, ordinal, horigin⟩ := isWrittenRoot_iff.mp h
  refine isWrittenRoot_iff.mpr ⟨hkind, ?_, unit, f.anchor root.kind unitRange,
    f.anchor root.kind anchor, ordinal, ?_⟩
  · show (root.key.parts.map f.keyPart).length = 1
    rw [length_map, hkey]
  · show f.origin root.kind root.origin = _
    rw [horigin]
    rfl

theorem extendsParent_map (f : RangeMap) {parent : DefinitionId}
    (h : extendsParent definitions definition parent = true) :
    extendsParent (definitions.map f.definition) (f.definition definition) parent = true := by
  unfold extendsParent at h ⊢
  rw [getElem?_map]
  cases hrecord : definitions[parent.index]? with
  | none => rw [hrecord] at h; cases h
  | some record =>
    rw [hrecord] at h
    dsimp only [Option.map_some] at h ⊢
    rw [Bool.and_eq_true, Bool.and_eq_true, decide_eq_true_eq, decide_eq_true_eq,
      decide_eq_true_eq] at h ⊢
    obtain ⟨⟨hlt, hlength⟩, hprefix⟩ := h
    refine ⟨⟨hlt, ?_⟩, hprefix.map f.keyPart⟩
    rw [RangeMap.definition, RangeMap.definition, RangeMap.key, RangeMap.key, length_map,
      length_map]
    exact hlength

theorem validDefinition_map (f : RangeMap) (h : validDefinition definitions definition = true) :
    validDefinition (definitions.map f.definition) (f.definition definition) = true := by
  unfold validDefinition at h ⊢
  have hgetLast : (f.definition definition).key.parts.getLast? =
      definition.key.parts.getLast?.map f.keyPart := getLast?_map
  rw [hgetLast]
  cases hlast : definition.key.parts.getLast? with
  | none => rw [hlast] at h; cases h
  | some part =>
    rw [hlast] at h
    dsimp only [Option.map_some] at h ⊢
    rw [Bool.and_eq_true, Bool.and_eq_true, Bool.and_eq_true, decide_eq_true_eq,
      decide_eq_true_eq] at h ⊢
    obtain ⟨⟨hparent, hkind, horigin⟩, hordinal⟩ := h
    refine ⟨⟨?_, hkind, ?_⟩, ?_⟩
    · rw [Option.all_eq_true] at hparent ⊢
      exact fun parent hsome => extendsParent_map f (hparent parent hsome)
    · show f.originKey part.kind part.origin = (f.origin definition.kind definition.origin).key
      rw [RangeMap.key_origin, hkind, horigin]
    · exact (f.matchesOrdinal_origin definition.origin part).trans hordinal

theorem checkDefinitions_map (f : RangeMap) (h : checkDefinitions definitions = .ok ⟨⟩)
    (hkeys : ((definitions.map f.definition).map Definition.key).Nodup) :
    checkDefinitions (definitions.map f.definition) = .ok ⟨⟩ := by
  obtain ⟨-, hvalid, -⟩ := checkDefinitions_ok h
  have hroots : (definitions.map f.definition).filter (fun definition => definition.parent = none) =
      (definitions.filter fun definition => definition.parent = none).map f.definition :=
    filter_map
  unfold checkDefinitions at h ⊢
  rw [hroots]
  cases hfilter : definitions.filter fun definition => definition.parent = none with
  | nil => rw [hfilter] at h; cases h
  | cons root rest =>
    rw [hfilter] at h
    cases rest with
    | cons => cases h
    | nil =>
      obtain ⟨hroot, -⟩ := guard_ok h
      rw [Bool.not_eq_true', Bool.not_eq_false] at hroot
      have hall : (definitions.map f.definition).all
          (validDefinition (definitions.map f.definition)) = true := by
        rw [all_map, all_eq_true]
        exact fun definition hmem => validDefinition_map f (hvalid definition hmem)
      rw [map_cons, map_nil]
      dsimp only
      rw [isWrittenRoot_map f hroot, hall, if_neg (not_not.mpr hkeys)]
      rfl

theorem validParentEdges_map (f : RangeMap) (h : validParentEdges edges definition = true)
    (hkind : definition.parent ≠ none → definition.kind ≠ .crateRoot) :
    validParentEdges (edges.map f.edge) (f.definition definition) = true := by
  have hfilter : (edges.map f.edge).filter (fun edge =>
        edge.fromDefinition = (f.definition definition).id && edge.kind = .parent) =
      (edges.filter fun edge =>
        edge.fromDefinition = definition.id && edge.kind = .parent).map f.edge := filter_map
  have hparent' : (f.definition definition).parent = definition.parent := rfl
  unfold validParentEdges at h ⊢
  dsimp only at h ⊢
  rw [hfilter, hparent']
  cases hparent : definition.parent with
  | none =>
    rw [hparent] at h
    dsimp only at h ⊢
    rw [isEmpty_map]
    exact h
  | some parent =>
    rw [hparent] at h
    dsimp only at h ⊢
    have hwritten : definition.kind ≠ .crateRoot :=
      hkind (by rw [hparent]; exact Option.some_ne_none _)
    have htargets (l : List DefinitionEdge) :
        (l.map f.edge).filter (fun edge => edge.toTarget = .localTarget parent) =
          (l.filter fun edge => edge.toTarget = .localTarget parent).map f.edge := filter_map
    rw [Bool.and_eq_true, decide_eq_true_eq, all_eq_true] at h ⊢
    refine ⟨?_, forall_mem_map.mpr fun edge hedge => ?_⟩
    · rw [htargets, length_map]
      exact h.1
    · have hends := h.2 edge hedge
      rw [Bool.and_eq_true, decide_eq_true_eq, decide_eq_true_eq] at hends ⊢
      refine ⟨hends.1, ?_⟩
      show edge.sites.map f.range = expectedSites (f.origin definition.kind definition.origin)
      rw [hends.2, RangeMap.expectedSites_origin f hwritten]

/-! ## The keys of an accepted graph -/

/-- A key begins with the part of the root, and goes on with parts of definitions that have a
parent. -/
def IsPathKey (definitions : List Definition) (key : DefinitionKey) : Prop :=
  ∃ first rest, key.parts = first :: rest ∧
    (∃ root ∈ definitions, root.parent = none ∧ first.kind = root.kind ∧
      first.origin = root.origin.key) ∧
    ∀ part ∈ rest, ∃ definition ∈ definitions, definition.parent ≠ none ∧
      part.kind = definition.kind ∧ part.origin = definition.origin.key

theorem last_part (h : checkDefinitions definitions = .ok ⟨⟩) (hmem : definition ∈ definitions) :
    ∃ part, definition.key.parts.getLast? = some part ∧
      part.kind = definition.kind ∧ part.origin = definition.origin.key := by
  have hvalid := (checkDefinitions_ok h).2.1 definition hmem
  unfold validDefinition at hvalid
  cases hlast : definition.key.parts.getLast? with
  | none => rw [hlast] at hvalid; cases hvalid
  | some part =>
    rw [hlast] at hvalid
    dsimp only at hvalid
    rw [Bool.and_eq_true, Bool.and_eq_true, Bool.and_eq_true, decide_eq_true_eq,
      decide_eq_true_eq] at hvalid
    exact ⟨part, rfl, hvalid.1.2⟩

/-- By induction on the number of the definition: the parent has a smaller one. -/
theorem Accepts.isPathKey (h : Accepts definitions externalDefinitions edges graph) (n : Nat) :
    ∀ definition ∈ graph.definitions, definition.id.index = n →
      IsPathKey graph.definitions definition.key := by
  have hcanonical := h.canonical
  induction n using Nat.strong_induction_on with
  | _ n ih =>
    intro definition hmem hid
    cases hparent : definition.parent with
    | none =>
      obtain ⟨part, hlast, hkind, horigin⟩ := last_part h.checked hmem
      obtain ⟨root, -, hroot, hroots⟩ := hcanonical.root
      rw [← (hroots definition hmem).mp hparent] at hroot
      obtain ⟨only', honly⟩ := length_eq_one_iff.mp hroot.key
      rw [honly, getLast?_singleton] at hlast
      cases hlast
      exact ⟨part, [], honly, ⟨definition, hmem, hparent, hkind, horigin⟩,
        fun _ hnil => absurd hnil not_mem_nil⟩
    | some parent =>
      obtain ⟨hlt, record, part, hrecord, hparts, hkind, horigin⟩ :=
        hcanonical.extendsKey definition hmem parent hparent
      have hindex : record.id.index = parent.index :=
        congrArg DefinitionId.index (hcanonical.ids parent.index record hrecord)
      obtain ⟨first, rest, hfirst, hroot, hrest⟩ :=
        ih parent.index (hid ▸ hlt) record (mem_of_getElem? hrecord) hindex
      refine ⟨first, rest ++ [part], by rw [hparts, hfirst, cons_append], hroot,
        fun other hother => ?_⟩
      rcases mem_append.mp hother with hother | hother
      · exact hrest other hother
      · rw [mem_singleton.mp hother]
        exact ⟨definition, hmem, by rw [hparent]; exact Option.some_ne_none parent, hkind, horigin⟩

/-! ## The graph that comes out -/

section Embedding

variable (h : Accepts definitions externalDefinitions edges graph)
  (hgraph : rewrite.IsOutputGraph graph)
include h hgraph

theorem Accepts.isKey (hmem : definition ∈ graph.definitions) : rewrite.IsKey definition.key := by
  obtain ⟨first, rest, hparts, ⟨root, hroot, -, hkind, horigin⟩, hrest⟩ :=
    h.isPathKey _ definition hmem rfl
  intro part hpart
  rw [hparts, mem_cons] at hpart
  rcases hpart with rfl | hpart
  · rw [hkind, horigin]
    exact (hgraph.origins root hroot).key
  · obtain ⟨other, hother, -, hkind, horigin⟩ := hrest part hpart
    rw [hkind, horigin]
    exact (hgraph.origins other hother).key

variable {f : RangeMap} (hf : rewrite.IsEmbedding f)
include hf

theorem Accepts.nodup_keys : ((graph.definitions.map f.definition).map Definition.key).Nodup := by
  have hkeys : (graph.definitions.map f.definition).map Definition.key =
      (graph.definitions.map Definition.key).map f.key := by
    rw [map_map, map_map]
    rfl
  rw [hkeys]
  refine h.canonical.keys.map_on fun key hkey key' hkey' => ?_
  obtain ⟨definition, hmem, rfl⟩ := mem_map.mp hkey
  obtain ⟨definition', hmem', rfl⟩ := mem_map.mp hkey'
  exact hf.key_injOn (h.isKey hgraph hmem) (h.isKey hgraph hmem')

theorem Accepts.compare_key {definition definition' : Definition}
    (hmem : definition ∈ graph.definitions) (hmem' : definition' ∈ graph.definitions) :
    compare (f.key definition.key) (f.key definition'.key) =
      compare definition.key definition'.key := by
  refine hf.compare_key (h.isKey hgraph hmem) (h.isKey hgraph hmem') ?_
  obtain ⟨first, rest, hparts, ⟨root, hroot, hnone, hkind, -⟩, hrest⟩ :=
    h.isPathKey _ definition hmem rfl
  obtain ⟨first', rest', hparts', ⟨root', hroot', hnone', hkind', -⟩, hrest'⟩ :=
    h.isPathKey _ definition' hmem' rfl
  obtain ⟨crate, -, hcrate, hroots⟩ := h.canonical.root
  rw [hparts, hparts', zip_cons_cons]
  intro pair hpair
  rcases mem_cons.mp hpair with rfl | hpair
  · rw [hkind, hkind', (hroots root hroot).mp hnone, (hroots root' hroot').mp hnone']
  · -- behind the root no part is a crate
    obtain ⟨hleft, hright⟩ := of_mem_zip hpair
    obtain ⟨other, hother, hsome, hkind, -⟩ := hrest _ hleft
    obtain ⟨other', hother', hsome', hkind', -⟩ := hrest' _ hright
    rw [hkind, hkind']
    exact iff_of_false (fun hcrate => hsome (hgraph.crates other hother hcrate))
      fun hcrate => hsome' (hgraph.crates other' hother' hcrate)

theorem Accepts.mapRanges : Accepts (graph.definitions.map f.definition) graph.externalDefinitions
    (graph.edges.map f.edge) (f.graph graph) := by
  have hagain := h.again
  have hdense : isDense (fun definition => definition.id.index)
      (graph.definitions.map f.definition) = true := by
    have hdense := isDense_iff.mp h.dense
    refine isDense_iff.mpr fun i definition hi => ?_
    rw [getElem?_map] at hi
    obtain ⟨record, hrecord, rfl⟩ := Option.map_eq_some_iff.mp hi
    exact hdense i record hrecord
  have hedges : (graph.edges.map f.edge).Pairwise fun a b => edgeKey a < edgeKey b := by
    rw [pairwise_map]
    exact h.canonical.edges
  have hsites : ∀ edge ∈ graph.edges.map f.edge, edge.sites.Pairwise (· < ·) := by
    rw [forall_mem_map]
    intro edge hedge
    exact pairwise_map_of_strictMonoOn hf.strictMono (hgraph.sites edge hedge)
      (h.canonical.sites edge hedge)
  exact {
    definitions_eq := (sort_of_isDense
      (fun a b (hlt : a.id.index < b.id.index) => show a.id ≤ b.id from le_of_lt hlt) hdense).symm
    external_eq := hagain.external_eq
    dense := hdense
    denseExternal := h.denseExternal
    checked := checkDefinitions_map f h.checked (h.nodup_keys hgraph hf)
    externalKeys := h.externalKeys
    valid := by
      rw [forall_mem_map]
      intro edge hedge
      obtain ⟨⟨hfrom, hto⟩, -, hkind⟩ := validEdge_iff.mp (hagain.valid edge hedge)
      have hlength : (f.graph graph).definitions.length = graph.definitions.length :=
        length_map _
      refine validEdge_iff.mpr ⟨⟨?_, ?_⟩, ?_, ?_⟩
      · rw [hlength]
        exact hfrom
      · show validTarget (f.graph graph).definitions graph.externalDefinitions edge.toTarget = true
        unfold validTarget at hto ⊢
        rw [hlength]
        exact hto
      · refine forall_mem_map.mpr fun site hsite => ?_
        exact hf.le site (hgraph.sites edge hedge site hsite)
      · exact hkind.imp_right fun hne hnil => hne (map_eq_nil_iff.mp hnil)
    parentEdges := by
      rw [all_eq_true]
      refine forall_mem_map.mpr fun definition hmem => ?_
      exact validParentEdges_map f (all_eq_true.mp h.parentEdges definition hmem)
        fun hparent hcrate => hparent (hgraph.crates definition hmem hcrate)
    grouped := exists_grouped hedges hsites }

/-- The normalized graph is accepted. -/
theorem Accepts.normalize_eq : normalizeDefinitionGraph graph rewrite = .ok (f.graph graph) := by
  have hdefinitions : graph.definitions.mapM (normalizeDefinition rewrite) =
      .ok (graph.definitions.map f.definition) := by
    refine mapM_eq_map fun definition hmem => ?_
    rw [normalizeDefinition, hf.normalizeDefinitionKey_eq (h.isKey hgraph hmem)]
    show (normalizeOrigin rewrite definition.kind definition.origin >>= _) = _
    rw [hf.normalizeOrigin_eq (hgraph.origins definition hmem)]
    rfl
  have hedges : graph.edges.mapM (normalizeDefinitionEdge rewrite) =
      .ok (graph.edges.map f.edge) := by
    refine mapM_eq_map fun edge hedge => ?_
    rw [normalizeDefinitionEdge,
      mapM_eq_map fun site hsite => hf.range site (hgraph.sites edge hedge site hsite)]
    rfl
  rw [normalizeDefinitionGraph, hdefinitions, hedges]
  show (new (graph.definitions.map f.definition) graph.externalDefinitions
    (graph.edges.map f.edge)).mapError _ = _
  rw [new_ok_iff.mpr (h.mapRanges hgraph hf)]
  rfl

end Embedding

end DefinitionGraph

end ItemDependencies
