import ItemDependencies.Graph.DefinitionGraph

/-!
# The normal form of a definition graph

The graph does not depend on the order of the lists it is built from, nor on how its edges are
split, and it is built from its own parts.
-/

namespace ItemDependencies

open Library List

namespace DefinitionGraph

variable {definitions definitions' : List Definition}
  {externalDefinitions externalDefinitions' : List ExternalDefinition}
  {edges edges' : List DefinitionEdge} {grouped grouped' : SortedMap EdgeKey (Finset ByteRange)}
  {graph : DefinitionGraph}

/-! ## The same lists in another order -/

theorem SameEdges.symm (h : SameEdges edges edges') : SameEdges edges' edges :=
  ⟨fun d x => (h.valid d x).symm, fun key => (h.keys key).symm,
    fun key site => (h.sites key site).symm⟩

theorem SameEdges.trans {edges'' : List DefinitionEdge} (h : SameEdges edges edges')
    (h' : SameEdges edges' edges'') : SameEdges edges edges'' :=
  ⟨fun d x => (h.valid d x).trans (h'.valid d x), fun key => (h.keys key).trans (h'.keys key),
    fun key site => (h.sites key site).trans (h'.sites key site)⟩

theorem sameEdges_of_mem (h : ∀ edge, edge ∈ edges ↔ edge ∈ edges') : SameEdges edges edges' := by
  refine ⟨fun d x => ?_, fun key => ?_, fun key site => ?_⟩ <;> simp only [h]

/-- The edges in another order, with an edge once more, or with an edge split into several. -/
inductive Rearranged : List DefinitionEdge → List DefinitionEdge → Prop
  | perm {edges edges' : List DefinitionEdge} (h : edges.Perm edges') : Rearranged edges edges'
  | again {edge : DefinitionEdge} {edges : List DefinitionEdge} (h : edge ∈ edges) :
      Rearranged edges (edge :: edges)
  | split {edge : DefinitionEdge} {edges : List DefinitionEdge} {parts : List (List ByteRange)}
      (hparts : parts ≠ []) (hne : ∀ sites ∈ parts, sites ≠ [])
      (hsites : ∀ site, site ∈ edge.sites ↔ ∃ sites ∈ parts, site ∈ sites) :
      Rearranged (edge :: edges) ((parts.map fun sites => { edge with sites := sites }) ++ edges)
  | symm {edges edges' : List DefinitionEdge} (h : Rearranged edges edges') :
      Rearranged edges' edges
  | trans {edges edges' edges'' : List DefinitionEdge} (h : Rearranged edges edges')
      (h' : Rearranged edges' edges'') : Rearranged edges edges''

theorem exists_mem_map {α β : Type} {f : α → β} {l : List α} {P : β → Prop} :
    (∃ b ∈ l.map f, P b) ↔ ∃ a ∈ l, P (f a) := by simp

theorem exists_mem_append {α : Type} {l l' : List α} {P : α → Prop} :
    (∃ a ∈ l ++ l', P a) ↔ (∃ a ∈ l, P a) ∨ ∃ a ∈ l', P a := by
  simp [or_and_right, exists_or]

theorem sameEdges_split {edge : DefinitionEdge} {parts : List (List ByteRange)}
    (hparts : parts ≠ []) (hne : ∀ sites ∈ parts, sites ≠ [])
    (hsites : ∀ site, site ∈ edge.sites ↔ ∃ sites ∈ parts, site ∈ sites) :
    SameEdges (edge :: edges) ((parts.map fun sites => { edge with sites := sites }) ++ edges) := by
  obtain ⟨first, hfirst⟩ := exists_mem_of_ne_nil parts hparts
  refine ⟨fun d x => ?_, fun key => ?_, fun key site => ?_⟩
  · rw [forall_mem_cons, forall_mem_append, forall_mem_map]
    refine and_congr_left fun _ => ?_
    simp only [validEdge_iff]
    constructor
    · rintro ⟨hends, hall, -⟩ sites hmem
      exact ⟨hends, fun site hsite => hall site ((hsites site).mpr ⟨sites, hmem, hsite⟩),
        .inr (hne sites hmem)⟩
    · intro h
      refine ⟨(h first hfirst).1, fun site hsite => ?_, .inr ?_⟩
      · obtain ⟨sites, hmem, hsite'⟩ := (hsites site).mp hsite
        exact (h sites hmem).2.1 site hsite'
      · obtain ⟨site, hsite⟩ := exists_mem_of_ne_nil first (hne first hfirst)
        exact ne_nil_of_mem ((hsites site).mpr ⟨first, hfirst, hsite⟩)
  · have hkey : (∃ e ∈ parts.map fun sites => { edge with sites := sites }, edgeKey e = key) ↔
        edgeKey edge = key := by
      rw [exists_mem_map]
      exact ⟨fun ⟨_, _, h⟩ => h, fun h => ⟨first, hfirst, h⟩⟩
    rw [exists_mem_cons_iff, exists_mem_append, hkey]
  · have hkey : (∃ e ∈ parts.map fun sites => { edge with sites := sites },
        edgeKey e = key ∧ site ∈ e.sites) ↔ edgeKey edge = key ∧ site ∈ edge.sites := by
      rw [exists_mem_map, hsites]
      constructor
      · rintro ⟨sites, hmem, heq, hsite⟩
        exact ⟨heq, sites, hmem, hsite⟩
      · rintro ⟨heq, sites, hmem, hsite⟩
        exact ⟨sites, hmem, heq, hsite⟩
    rw [exists_mem_cons_iff, exists_mem_append, hkey]

theorem Rearranged.same (h : Rearranged edges edges') : SameEdges edges edges' := by
  induction h with
  | perm h => exact sameEdges_of_mem fun _ => h.mem_iff
  | again h =>
    refine sameEdges_of_mem fun other => ?_
    rw [mem_cons]
    exact ⟨.inr, fun hor => hor.elim (fun heq => heq ▸ h) id⟩
  | split hparts hne hsites => exact sameEdges_split hparts hne hsites
  | symm _ ih => exact ih.symm
  | trans _ _ ih ih' => exact ih.trans ih'

theorem Accepts.congr (h : Accepts definitions externalDefinitions edges graph)
    (hdefinitions : definitions.Perm definitions')
    (hexternal : externalDefinitions.Perm externalDefinitions') (hedges : SameEdges edges edges') :
    Accepts definitions' externalDefinitions' edges' graph where
  definitions_eq := h.definitions_eq.trans (sort_perm (fun _ _ => congrArg DefinitionId.index)
    hdefinitions (show isDense _ (sortById definitions) = true from h.definitions_eq ▸ h.dense))
  external_eq := h.external_eq.trans (sort_perm (fun _ _ => congrArg ExternalDefinitionId.index)
    hexternal (show isDense _ (sortExternalById externalDefinitions) = true from
      h.external_eq ▸ h.denseExternal))
  dense := h.dense
  denseExternal := h.denseExternal
  checked := h.checked
  externalKeys := h.externalKeys
  valid := (hedges.valid _ _).mp h.valid
  parentEdges := h.parentEdges
  grouped := by
    obtain ⟨grouped, hgrouped, heq⟩ := h.grouped
    exact ⟨grouped, ⟨fun key => (hgrouped.keys key).trans (hedges.keys key),
      fun key sites hget site =>
        (hgrouped.sites key sites hget site).trans (hedges.sites key site)⟩, heq⟩

theorem new_congr (hdefinitions : definitions.Perm definitions')
    (hexternal : externalDefinitions.Perm externalDefinitions') (hedges : SameEdges edges edges') :
    (new definitions externalDefinitions edges).toOption =
      (new definitions' externalDefinitions' edges').toOption := by
  have hsome : ∀ {x : Except GraphError DefinitionGraph} {graph : DefinitionGraph},
      x.toOption = some graph ↔ x = .ok graph := by
    intro x graph
    cases x <;> simp [Except.toOption]
  apply Option.ext
  intro graph
  rw [hsome, hsome, new_ok_iff, new_ok_iff]
  exact ⟨fun h => h.congr hdefinitions hexternal hedges,
    fun h => h.congr hdefinitions.symm hexternal.symm hedges.symm⟩

/-- A graph is built from its own parts. -/
theorem Accepts.again (h : Accepts definitions externalDefinitions edges graph) :
    Accepts graph.definitions graph.externalDefinitions graph.edges graph where
  definitions_eq := (sort_of_isDense
    (fun a b (hlt : a.id.index < b.id.index) => show a.id ≤ b.id from le_of_lt hlt) h.dense).symm
  external_eq := (sort_of_isDense
    (fun a b (hlt : a.id.index < b.id.index) => show a.id ≤ b.id from le_of_lt hlt)
    h.denseExternal).symm
  dense := h.dense
  denseExternal := h.denseExternal
  checked := h.checked
  externalKeys := h.externalKeys
  valid := by
    obtain ⟨grouped, hgrouped, heq⟩ := h.grouped
    rw [heq]
    exact hgrouped.valid h.valid
  parentEdges := h.parentEdges
  grouped := by
    obtain ⟨grouped, hgrouped, heq⟩ := h.grouped
    rw [heq]
    exact ⟨grouped, hgrouped.again, rfl⟩

/-! ## The normal form -/

/-- The crate root is written, and its key has one part. -/
structure WrittenRoot (root : Definition) : Prop where
  kind : root.kind = .crateRoot
  key : root.key.parts.length = 1
  origin : ∃ unit unitRange anchor ordinal,
    root.origin = .written unit unitRange anchor .crateRoot ordinal

/-- The key goes on from that of the parent with one part for the definition. -/
structure ExtendsKey (definitions : List Definition) (definition : Definition)
    (parent : DefinitionId) : Prop where
  lt : parent < definition.id
  key : ∃ record part, definitions[parent.index]? = some record ∧
    definition.key.parts = record.key.parts ++ [part] ∧ part.kind = definition.kind ∧
      part.origin = definition.origin.key

structure Canonical (graph : DefinitionGraph) : Prop where
  ids : ∀ (i : Nat) definition, graph.definitions[i]? = some definition → definition.id = ⟨i⟩
  externalIds : ∀ (i : Nat) definition, graph.externalDefinitions[i]? = some definition →
    definition.id = ⟨i⟩
  root : ∃ root ∈ graph.definitions, WrittenRoot root ∧
    ∀ definition ∈ graph.definitions, definition.parent = none ↔ definition = root
  extendsKey : ∀ definition ∈ graph.definitions, ∀ parent, definition.parent = some parent →
    ExtendsKey graph.definitions definition parent
  keys : (graph.definitions.map Definition.key).Nodup
  externalKeys : (graph.externalDefinitions.map ExternalDefinition.key).Nodup
  parentEdge : ∀ definition ∈ graph.definitions, ∀ parent, definition.parent = some parent →
    ∀ edge, edge ∈ graph.edges ∧ edge.fromDefinition = definition.id ∧ edge.kind = .parent ↔
      edge = ⟨definition.id, .localTarget parent, .parent, expectedSites definition.origin⟩
  noParentEdge : ∀ definition ∈ graph.definitions, definition.parent = none →
    ∀ edge ∈ graph.edges, ¬(edge.fromDefinition = definition.id ∧ edge.kind = .parent)
  edges : graph.edges.Pairwise fun a b => edgeKey a < edgeKey b
  sites : ∀ edge ∈ graph.edges, edge.sites.Pairwise (· < ·)

theorem isWrittenRoot_iff {root : Definition} : isWrittenRoot root = true ↔ WrittenRoot root := by
  unfold isWrittenRoot
  rw [Bool.and_eq_true, Bool.and_eq_true, decide_eq_true_eq, decide_eq_true_eq]
  constructor
  · rintro ⟨⟨hkind, hkey⟩, horigin⟩
    refine ⟨hkind, hkey, ?_⟩
    split at horigin
    · rename_i unit unitRange anchor ordinal heq
      exact ⟨unit, unitRange, anchor, ordinal, heq⟩
    · cases horigin
  · rintro ⟨hkind, hkey, unit, unitRange, anchor, ordinal, horigin⟩
    rw [horigin]
    exact ⟨⟨hkind, hkey⟩, rfl⟩

theorem extendsKey_of_valid {definition : Definition} {parent : DefinitionId}
    (h : validDefinition definitions definition = true)
    (hparent : definition.parent = some parent) :
    ExtendsKey definitions definition parent := by
  unfold validDefinition at h
  cases hlast : definition.key.parts.getLast? with
  | none => rw [hlast] at h; cases h
  | some part =>
    rw [hlast] at h
    dsimp only at h
    rw [Bool.and_eq_true, Bool.and_eq_true, Bool.and_eq_true, hparent, Option.all_some,
      decide_eq_true_eq, decide_eq_true_eq] at h
    obtain ⟨⟨hextends, hkind, horigin⟩, -⟩ := h
    unfold extendsParent at hextends
    cases hrecord : definitions[parent.index]? with
    | none => rw [hrecord] at hextends; cases hextends
    | some record =>
      rw [hrecord] at hextends
      dsimp only at hextends
      rw [Bool.and_eq_true, Bool.and_eq_true, decide_eq_true_eq, decide_eq_true_eq,
        decide_eq_true_eq] at hextends
      obtain ⟨⟨hlt, hlength⟩, rest, hrest⟩ := hextends
      refine ⟨hlt, record, part, hrecord, ?_, hkind, horigin⟩
      -- what is left of the key is its last part
      rw [← hrest, length_append] at hlength
      obtain ⟨last, rfl⟩ := length_eq_one_iff.mp (by omega : rest.length = 1)
      rw [← hrest, getLast?_append, getLast?_singleton] at hlast
      cases hlast
      exact hrest.symm

theorem checkDefinitions_ok (h : checkDefinitions definitions = .ok ⟨⟩) :
    (∃ root ∈ definitions, WrittenRoot root ∧
      ∀ definition ∈ definitions, definition.parent = none ↔ definition = root) ∧
    (∀ definition ∈ definitions, validDefinition definitions definition = true) ∧
      (definitions.map Definition.key).Nodup := by
  unfold checkDefinitions at h
  split at h
  · rename_i root hroots
    obtain ⟨hroot, h⟩ := guard_ok h
    obtain ⟨hvalid, h⟩ := guard_ok h
    obtain ⟨hkeys, h⟩ := guard_ok h
    rw [Bool.not_eq_true', Bool.not_eq_false] at hroot hvalid
    have hmem : ∀ definition, definition ∈ definitions ∧ definition.parent = none ↔
        definition = root := fun definition => by
      have hfilter : definition ∈ definitions.filter (fun definition => definition.parent = none) ↔
          definition ∈ definitions ∧ definition.parent = none := by simp
      rw [hroots, mem_singleton] at hfilter
      exact hfilter.symm
    refine ⟨⟨root, ((hmem root).mpr rfl).1, isWrittenRoot_iff.mp hroot, fun definition hdef => ?_⟩,
      all_eq_true.mp hvalid, not_not.mp hkeys⟩
    rw [← hmem definition]
    exact ⟨fun hnone => ⟨hdef, hnone⟩, And.right⟩
  · cases h

theorem validParentEdges_iff {definition : Definition}
    (h : validParentEdges edges definition = true) :
    (∀ parent, definition.parent = some parent → ∀ edge,
      edge ∈ edges ∧ edge.fromDefinition = definition.id ∧ edge.kind = .parent ↔
        edge = ⟨definition.id, .localTarget parent, .parent, expectedSites definition.origin⟩) ∧
    (definition.parent = none → ∀ edge ∈ edges,
      ¬(edge.fromDefinition = definition.id ∧ edge.kind = .parent)) := by
  unfold validParentEdges at h
  dsimp only at h
  set parentEdges := edges.filter fun edge =>
    edge.fromDefinition = definition.id && edge.kind = .parent with hparentEdges
  have hmem : ∀ edge, edge ∈ parentEdges ↔
      edge ∈ edges ∧ edge.fromDefinition = definition.id ∧ edge.kind = .parent := fun edge => by
    rw [hparentEdges, mem_filter, Bool.and_eq_true, decide_eq_true_eq, decide_eq_true_eq]
  cases hparent : definition.parent with
  | none =>
    rw [hparent] at h
    refine ⟨fun _ hsome => (by cases hsome), fun _ edge hedge hno => ?_⟩
    rw [isEmpty_iff.mp h] at hmem
    exact absurd ((hmem edge).mpr ⟨hedge, hno⟩) not_mem_nil
  | some parent =>
    rw [hparent] at h
    dsimp only at h
    rw [Bool.and_eq_true, decide_eq_true_eq] at h
    obtain ⟨hone, hall⟩ := h
    refine ⟨fun parent' hsome edge => ?_, fun hnone => (by cases hnone)⟩
    cases hsome
    have heq : ∀ edge ∈ parentEdges, edge =
        ⟨definition.id, .localTarget parent, .parent, expectedSites definition.origin⟩ := by
      intro edge hedge
      have hends := all_eq_true.mp hall edge hedge
      rw [Bool.and_eq_true, decide_eq_true_eq, decide_eq_true_eq] at hends
      obtain ⟨-, hfrom, hkind⟩ := (hmem edge).mp hedge
      cases edge
      cases hfrom
      cases hkind
      cases hends.1
      cases hends.2
      rfl
    rw [← hmem]
    refine ⟨heq edge, fun hedge => ?_⟩
    obtain ⟨found, hfound⟩ := length_eq_one_iff.mp hone
    have hfound' : found ∈ parentEdges :=
      (mem_filter.mp (hfound ▸ mem_singleton.mpr rfl)).1
    rw [hedge, ← heq found hfound']
    exact hfound'

theorem Accepts.canonical (h : Accepts definitions externalDefinitions edges graph) :
    Canonical graph := by
  obtain ⟨hroot, hvalid, hkeys⟩ := checkDefinitions_ok h.checked
  obtain ⟨grouped, -, hgrouped⟩ := h.grouped
  have hparents := fun definition hdefinition =>
    validParentEdges_iff (all_eq_true.mp h.parentEdges definition hdefinition)
  refine ⟨fun i definition hi => ?_, fun i definition hi => ?_, hroot,
    fun definition hdefinition parent hparent =>
      extendsKey_of_valid (hvalid definition hdefinition) hparent, hkeys, h.externalKeys,
    fun definition hdefinition => (hparents definition hdefinition).1,
    fun definition hdefinition => (hparents definition hdefinition).2, ?_, fun edge hedge => ?_⟩
  · exact congrArg DefinitionId.mk (isDense_iff.mp h.dense i definition hi)
  · exact congrArg ExternalDefinitionId.mk (isDense_iff.mp h.denseExternal i definition hi)
  · rw [hgrouped]
    exact pairwise_edgesOf grouped
  · rw [hgrouped] at hedge
    obtain ⟨sites, -, hsites⟩ := mem_edgesOf.mp hedge
    rw [hsites]
    exact ((pairwise_ascending sites).and (nodup_ascending sites)).imp fun h =>
      lt_of_le_of_ne h.1 h.2

end DefinitionGraph

open DefinitionGraph in
/-- A definition graph is a normal form of what it is built from: it has the same records and says
the same about each source, target and kind, it does not depend on the order of the lists or on how
the edges are split, and it is built from its own parts. -/
theorem definitionGraph_new_normalForm :
    (∀ definitions externalDefinitions edges graph,
      DefinitionGraph.new definitions externalDefinitions edges = .ok graph →
        Canonical graph ∧ graph.definitions.Perm definitions ∧
          graph.externalDefinitions.Perm externalDefinitions ∧
        (∀ key site, (∃ edge ∈ graph.edges, edgeKey edge = key ∧ site ∈ edge.sites) ↔
          ∃ edge ∈ edges, edgeKey edge = key ∧ site ∈ edge.sites) ∧
        (∀ key, (∃ edge ∈ graph.edges, edgeKey edge = key) ↔ ∃ edge ∈ edges, edgeKey edge = key) ∧
        DefinitionGraph.new graph.definitions graph.externalDefinitions graph.edges = .ok graph) ∧
    ∀ definitions definitions' externalDefinitions externalDefinitions' edges edges',
      definitions.Perm definitions' → externalDefinitions.Perm externalDefinitions' →
        Rearranged edges edges' →
          (DefinitionGraph.new definitions externalDefinitions edges).toOption =
            (DefinitionGraph.new definitions' externalDefinitions' edges').toOption := by
  refine ⟨fun definitions externalDefinitions edges graph h => ?_,
    fun _ _ _ _ _ _ hdefinitions hexternal hedges =>
      new_congr hdefinitions hexternal hedges.same⟩
  have haccepts := new_ok_iff.mp h
  obtain ⟨grouped, hgrouped, hedges⟩ := haccepts.grouped
  refine ⟨haccepts.canonical, ?_, ?_, ?_, ?_, new_ok_iff.mpr haccepts.again⟩
  · rw [haccepts.definitions_eq]
    exact perm_insertionSort _ _
  · rw [haccepts.external_eq]
    exact perm_insertionSort _ _
  · rw [hedges]
    exact hgrouped.facts.2
  · rw [hedges]
    exact hgrouped.facts.1

/-- A root with one definition in it, and a path that was seen at two sites. -/
theorem definitionGraph_new_normalForm_child :
    let root : DefinitionKeyPart := ⟨.crateRoot, .written ⟨0, 10⟩ .crateRoot, none, 0⟩
    let child : DefinitionKeyPart := ⟨.function, .compilerGenerated .opaqueType, none, 0⟩
    let definitions : List Definition :=
      [⟨⟨1⟩, ⟨[root, child]⟩, .function, some ⟨0⟩, .compilerGenerated .opaqueType 0⟩,
        ⟨⟨0⟩, ⟨[root]⟩, .crateRoot, none, .written ⟨0⟩ ⟨0, 10⟩ ⟨0, 10⟩ .crateRoot 0⟩]
    let edges : List DefinitionEdge :=
      [⟨⟨1⟩, .localTarget ⟨0⟩, .valuePath, [⟨8, 9⟩]⟩, ⟨⟨1⟩, .localTarget ⟨0⟩, .parent, []⟩,
        ⟨⟨1⟩, .localTarget ⟨0⟩, .valuePath, [⟨3, 4⟩, ⟨8, 9⟩]⟩]
    (∃ graph, DefinitionGraph.new definitions [] edges = .ok graph ∧
      DefinitionGraph.Canonical graph ∧ graph.definitions.Perm definitions) ∧
    (DefinitionGraph.new definitions [] edges).toOption =
      (DefinitionGraph.new definitions.reverse [] edges.reverse).toOption := by
  intro root child definitions edges
  refine ⟨?_, definitionGraph_new_normalForm.2 _ _ _ _ _ _ (reverse_perm definitions).symm
    (List.Perm.refl []) (.perm (reverse_perm edges).symm)⟩
  have hok : (DefinitionGraph.new definitions [] edges).isOk = true := by decide +kernel
  cases h : DefinitionGraph.new definitions [] edges with
  | error => rw [h] at hok; cases hok
  | ok graph =>
    obtain ⟨hcanonical, hperm, -⟩ := definitionGraph_new_normalForm.1 _ _ _ _ h
    exact ⟨graph, rfl, hcanonical, hperm⟩

end ItemDependencies
