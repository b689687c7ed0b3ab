import ItemDependencies.Retention.MacroRules

/-!
# Validated macro products are well formed

What the checks of the constructor establish about the indexes that the closure
reads: positions are in range, parents come before their children, reverse
indexes are exact and list nothing twice, and a group is opened by its own
products and semantic owners.
-/

namespace ItemDependencies

open Library RetentionClosure RetentionState List

/-- What the closure relies on. -/
structure ValidatedMacroProducts.WellFormed (products : ValidatedMacroProducts) : Prop where
  localSources_length : products.contributorIndex.localSources.length =
    products.contributorIndex.count
  parent_lt : ∀ node parent, parent ∈ products.contributorIndex.parentsAt node → parent < node
  nodup_sources : ∀ node, (products.contributorIndex.sourcesAt node).Nodup
  nodup_parents : ∀ node, (products.contributorIndex.parentsAt node).Nodup
  mem_groupsByRoot : ∀ node group, group ∈ products.groupsByRoot node ↔
    node ∈ groupRoots products group
  nodup_groupsByRoot : ∀ node, (products.groupsByRoot node).Nodup
  root_lt : ∀ group root, root ∈ groupRoots products group → root < products.contributorIndex.count
  nodup_groupRoots : ∀ group, (groupRoots products group).Nodup
  groupRoots_ne_nil : ∀ group < products.materializations.length, groupRoots products group ≠ []
  trigger_lt : ∀ node group, group ∈ products.compileTriggerGroups node →
    group < products.materializations.length
  dependent_lt : ∀ node group, group ∈ products.outputMeaning.dependentGroupsByProduct node →
    group < products.materializations.length
  /-- A trigger of a group gives it a meaning, or is something that it depends on. -/
  trigger_meaning : ∀ node group, group ∈ products.compileTriggerGroups node →
    products.outputMeaning.groupHasIntrinsicOutput group = true ∨
      group ∈ products.outputMeaning.dependentGroupsByProduct node
  /-- A group depends on expansions of producers, or on definitions of other groups. -/
  dependency : ∀ node group, group ∈ products.outputMeaning.dependentGroupsByProduct node →
    products.outputMeaning.groupHasIntrinsicOutput group = true ∨
      (∃ expansion producer, node = .expansion expansion ∧
        products.outputMeaning.producerIndex expansion = some producer) ∨
      ∃ definition other, node = .definition definition ∧ products.productGroups node = some other
  /-- A definition that is a product opens its group and gives it a meaning. -/
  product_trigger :
    ∀ definition group, products.productGroups (.definition definition) = some group →
    group < products.materializations.length ∧
      group ∈ products.compileTriggerGroups (.definition definition) ∧
      products.outputMeaning.groupHasIntrinsicOutput group = true
  owner_trigger : ∀ (m : MacroMaterialization) (group : Nat) (requirement : MacroOwnerRequirement),
    products.materializations[group]? = some m → requirement ∈ m.ownerRequirements →
    requirement.members ≠ [] → group ∈ products.compileTriggerGroups (.definition requirement.owner)
  producerByGroup_lt : ∀ group < products.materializations.length,
    products.outputMeaning.producerByGroup group < products.outputMeaning.producers.length
  dependentProducer_lt : ∀ child producer,
    producer ∈ products.outputMeaning.dependentProducersByChild child →
    producer < products.outputMeaning.producers.length
  demandProducer_lt : ∀ definition producer,
    producer ∈ products.outputMeaning.demandProducersByTrigger definition →
    producer < products.outputMeaning.producers.length
  target_lt : ∀ clause ∈ products.demandClauses, ∀ producer, clause.target = .producer producer →
    producer < products.outputMeaning.producers.length
  nodup_producers : products.outputMeaning.producers.Nodup
  nodup_classes : products.actualDefinitionClasses.flatten.Nodup

theorem mem_groupRoots {products : ValidatedMacroProducts} {group root : Nat} :
    root ∈ groupRoots products group ↔ ∃ m, products.materializations[group]? = some m ∧
      root ∈ m.retentionRoots.filterMap products.contributorIndex.nodeIndex := by
  simp only [groupRoots]
  cases products.materializations[group]? with
  | none => simp
  | some m => simp

namespace ValidatedContributorDag

variable {dag : ValidatedContributorDag}

theorem mem_children {node child : Nat} :
    child ∈ dag.children node ↔ child < dag.count ∧ node ∈ dag.parentsAt child := by
  simp only [children, mem_valuesAt, mem_flatMap, mem_map, Prod.mk.injEq, count, parentsAt]
  constructor
  · rintro ⟨⟨parents, i⟩, hp, parent, hparent, rfl, rfl⟩
    have hi := mk_mem_zipIdx_iff_getElem?.mp hp
    refine ⟨(List.getElem?_eq_some_iff.mp hi).1, ?_⟩
    rw [getD_eq_getElem?_getD, hi]
    exact hparent
  · rintro ⟨hlt, hmem⟩
    rw [getD_eq_getElem?_getD, getElem?_eq_getElem hlt] at hmem
    exact ⟨(dag.parents[child], child),
      mk_mem_zipIdx_iff_getElem?.mpr (getElem?_eq_getElem hlt), node, hmem, rfl, rfl⟩

theorem mem_nodesBySource {unit : SourceUnitId} {node : Nat} :
    node ∈ dag.nodesBySource unit ↔ unit ∈ dag.sourcesAt node := by
  simp only [nodesBySource, mem_valuesAt, mem_flatMap, mem_map, Prod.mk.injEq, sourcesAt]
  constructor
  · rintro ⟨⟨sources, i⟩, hp, source, hsource, rfl, rfl⟩
    have hi := mk_mem_zipIdx_iff_getElem?.mp hp
    rw [getD_eq_getElem?_getD, hi]
    exact hsource
  · intro hmem
    rw [getD_eq_getElem?_getD] at hmem
    cases hi : dag.localSources[node]? with
    | none => simp [hi] at hmem
    | some sources =>
      rw [hi] at hmem
      exact ⟨(sources, node), mk_mem_zipIdx_iff_getElem?.mpr hi, unit, hmem, rfl, rfl⟩

end ValidatedContributorDag

section Checks

theorem nodup_of_strictlySorted {α : Type} [LinearOrder α] {l : List α} (h : StrictlySorted l) :
    l.Nodup :=
  ((isChain_iff_neighbours.mpr h).pairwise).imp fun h => h.ne

/-- Parents that have been found are earlier nodes, in the order in which they are listed. -/
theorem contributorParents_ok {position : Nat} {node : MacroContributorNode} {parents : List Nat}
    (h : contributorParents position node = .ok parents) :
    parents = node.parents.map MacroContributorSetId.index ∧
      ∀ parent ∈ parents, parent < position := by
  rw [contributorParents] at h
  have hmap := mapM_ok h
  clear h
  generalize node.parents = listed at hmap
  induction hmap with
  | nil => simp
  | cons hp _ ih =>
    split at hp
    · rename_i hlt
      cases hp
      refine ⟨by rw [map_cons, ← ih.1], fun parent hparent => ?_⟩
      rcases mem_cons.mp hparent with rfl | hparent
      · exact hlt
      · exact ih.2 parent hparent
    · cases hp

/-- What has been checked about one node of the contributor graph. -/
theorem contributorParentsOf_ok {sourceUnitCount : Nat} {node : MacroContributorNode × Nat}
    {parents : List Nat} (h : contributorParentsOf sourceUnitCount node = .ok parents) :
    node.1.localSources.Nodup ∧ parents.Nodup ∧ ∀ parent ∈ parents, parent < node.2 := by
  obtain ⟨hcheck, h⟩ := guard_ok h
  simp only [not_or, not_not] at hcheck
  obtain ⟨heq, hlt⟩ := contributorParents_ok h
  refine ⟨nodup_of_strictlySorted hcheck.1, ?_, hlt⟩
  rw [heq]
  refine (nodup_of_strictlySorted hcheck.2.2).map fun a b hab => ?_
  cases a
  cases b
  exact congrArg _ hab

theorem validateContributorDag_ok {dag : MacroContributorDag} {sourceUnitCount : Nat}
    {validated : ValidatedContributorDag}
    (h : validateContributorDag dag sourceUnitCount = .ok validated) :
    validated.localSources.length = validated.count ∧
      (∀ node parent, parent ∈ validated.parentsAt node → parent < node) ∧
      (∀ node, (validated.sourcesAt node).Nodup) ∧ ∀ node, (validated.parentsAt node).Nodup := by
  obtain ⟨-, h⟩ := guard_ok h
  obtain ⟨parents, hparents, h⟩ := bind_ok h
  cases h
  have hmap := mapM_ok hparents
  have hat : ∀ {i : Nat} {ps : List Nat}, parents[i]? = some ps →
      ∃ node : MacroContributorNode, dag.nodes[i]? = some node ∧ node.localSources.Nodup ∧
        ps.Nodup ∧ ∀ parent ∈ ps, parent < i := by
    intro i ps hi
    obtain ⟨⟨node, j⟩, hnode, hok⟩ := getElem?_of_forall₂_right hmap hi
    rw [getElem?_zipIdx, Option.map_eq_some_iff] at hnode
    obtain ⟨node', hd, heq⟩ := hnode
    simp only [Nat.zero_add, Prod.mk.injEq] at heq
    obtain ⟨rfl, rfl⟩ := heq
    obtain ⟨h₁, h₂, h₃⟩ := contributorParentsOf_ok hok
    exact ⟨_, hd, h₁, h₂, h₃⟩
  have hlen : dag.nodes.length = parents.length := by
    have := hmap.length_eq
    rwa [length_zipIdx] at this
  refine ⟨?_, fun node parent hp => ?_, fun node => ?_, fun node => ?_⟩
  · rw [length_map]
    exact hlen
  · rw [ValidatedContributorDag.parentsAt, getD_eq_getElem?_getD] at hp
    cases hi : parents[node]? with
    | none => simp [hi] at hp
    | some ps =>
      obtain ⟨-, -, -, -, hlt⟩ := hat hi
      rw [hi] at hp
      exact hlt parent hp
  · rw [ValidatedContributorDag.sourcesAt, getD_eq_getElem?_getD, getElem?_map]
    cases hd : dag.nodes[node]? with
    | none => simp
    | some n =>
      have hlt : node < parents.length := hlen ▸ (List.getElem?_eq_some_iff.mp hd).1
      obtain ⟨n', hn', hnd, -⟩ := hat (getElem?_eq_getElem hlt)
      obtain rfl := Option.some.inj (hd.symm.trans hn')
      exact hnd
  · rw [ValidatedContributorDag.parentsAt, getD_eq_getElem?_getD]
    cases hi : parents[node]? with
    | none => simp
    | some ps =>
      obtain ⟨-, -, -, hnd, -⟩ := hat hi
      exact hnd

end Checks

variable {complete : ValidatedCompleteMacroOutputMeaning}

section Meaning

open MacroOutputMeaningIndex

variable {producers : List ExpansionId} {materializations : List MacroMaterialization}
  {productGroups : GraphNode → Option Nat}

theorem indexIn_lt {expansion : ExpansionId} {i : Nat} (h : indexIn producers expansion = some i) :
    i < producers.length := (findIdx?_eq_some_iff_getElem.mp h).1

theorem indexIn_eq_some (hnd : producers.Nodup) {expansion : ExpansionId} {i : Nat} :
    indexIn producers expansion = some i ↔ producers[i]? = some expansion := by
  constructor
  · intro h
    obtain ⟨hlt, heq, -⟩ := findIdx?_eq_some_iff_getElem.mp h
    rw [getElem?_eq_getElem hlt]
    simpa using heq
  · intro h
    obtain ⟨hlt, rfl⟩ := List.getElem?_eq_some_iff.mp h
    cases hi : indexIn producers producers[i] with
    | none =>
      have := findIdx?_eq_none_iff.mp hi _ (getElem_mem hlt)
      simp at this
    | some j =>
      obtain ⟨hj, heq, -⟩ := findIdx?_eq_some_iff_getElem.mp hi
      have heq : producers[j] = producers[i] := by simpa using heq
      rw [(List.Nodup.getElem_inj_iff hnd).mp heq]

/-- The groups that depend on a product. -/
theorem mem_dependentGroups {product : GraphNode} {group : Nat} :
    group ∈ dependentGroups producers materializations productGroups product ↔
      ∃ m, materializations[group]? = some m ∧
        product ∈ groupDependencies producers productGroups group m := by
  simp only [dependentGroups, mem_sortDedup, mem_valuesAt, dependencyPushes, mem_flatMap,
    mem_map, Prod.mk.injEq]
  constructor
  · rintro ⟨⟨m, i⟩, hm, p, hp, rfl, rfl⟩
    exact ⟨m, mk_mem_zipIdx_iff_getElem?.mp hm, hp⟩
  · rintro ⟨m, hm, hp⟩
    exact ⟨(m, group), mk_mem_zipIdx_iff_getElem?.mpr hm, product, hp, rfl, rfl⟩

theorem mem_dependentProducers {refined : Finset ExpansionId} {child producer : Nat}
    (h : producer ∈ dependentProducers producers refined complete child) :
    producer < producers.length := by
  simp only [dependentProducers, mem_sortDedup, mem_valuesAt, mem_flatMap, mem_filterMap] at h
  obtain ⟨record, -, dependent, -, heq⟩ := h
  cases hp : indexIn producers record.1 with
  | none => simp [hp] at heq
  | some i =>
    cases hc : indexIn producers dependent with
    | none => simp [hp, hc] at heq
    | some j =>
      simp only [hp, hc, Option.some.injEq, Prod.mk.injEq] at heq
      exact heq.2 ▸ indexIn_lt hp

theorem mem_demandProducers {definition : DefinitionId} {producer : Nat}
    (h : producer ∈ demandProducers producers complete definition) :
    producer < producers.length := by
  simp only [demandProducers, mem_sortDedup, mem_valuesAt, mem_flatMap, mem_filterMap,
    Option.map_eq_some_iff, Prod.mk.injEq] at h
  obtain ⟨record, -, d, -, i, hi, -, rfl⟩ := h
  exact indexIn_lt hi

theorem mem_demandFacts {fact : Nat × MacroGroupDemand}
    (h : fact ∈ demandFacts producers complete) : fact.1 < producers.length := by
  simp only [demandFacts, mem_flatMap, mem_filterMap, Option.map_eq_some_iff] at h
  obtain ⟨record, -, demand, -, i, hi, rfl⟩ := h
  exact indexIn_lt hi

end Meaning

/-- What the constructor of the product groups has established. -/
theorem macroProductGroups_ok {materializations : List MacroMaterialization}
    {productGroups : GraphNode → Option Nat}
    (h : macroProductGroups materializations = .ok productGroups) :
    ∀ product group, productGroups product = some group ↔
      ∃ m, materializations[group]? = some m ∧ product ∈ m.products := by
  obtain ⟨hnd, h⟩ := guard_ok h
  cases h
  simp only [not_not] at hnd
  intro product group
  constructor
  · intro h
    obtain ⟨hlt, hmem, -⟩ := findIdx?_eq_some_iff_getElem.mp h
    exact ⟨_, getElem?_eq_getElem hlt, by simpa using hmem⟩
  · rintro ⟨m, hm, hmem⟩
    cases hi : materializations.findIdx? fun m => product ∈ m.products with
    | none =>
      have := findIdx?_eq_none_iff.mp hi m (mem_of_getElem? hm)
      simp [hmem] at this
    | some i =>
      obtain ⟨hlt, hmem', -⟩ := findIdx?_eq_some_iff_getElem.mp hi
      obtain ⟨hlt', rfl⟩ := List.getElem?_eq_some_iff.mp hm
      have hdisj := (nodup_flatMap.mp hnd).2
      show materializations.findIdx? (fun m => product ∈ m.products) = some group
      rw [hi]
      by_contra hne
      have hne : i ≠ group := fun heq => hne (by rw [heq])
      have hat := pairwise_iff_getElem.mp hdisj
      rcases lt_or_gt_of_ne hne with hlt'' | hlt''
      · exact hat i group hlt hlt' hlt'' (by simpa using hmem') hmem
      · exact hat group i hlt' hlt hlt'' hmem (by simpa using hmem')

/-! ## The constructor -/

section New

open MacroOutputMeaningIndex ValidatedMacroProducts

variable {dag : ValidatedContributorDag} {materializations : List MacroMaterialization}
  {meaning : MacroOutputMeaningIndex} {facts : MacroGroupFacts}

theorem nodup_retentionRoots {m : MacroMaterialization} (h : StrictlySorted m.contributorRoots) :
    (m.retentionRoots.filterMap dag.nodeIndex).Nodup := by
  have hnd : m.retentionRoots.Nodup := by
    unfold MacroMaterialization.retentionRoots
    split
    · exact nodup_singleton _
    · exact nodup_of_strictlySorted h
  refine hnd.filterMap fun a b i ha hb => ?_
  simp only [ValidatedContributorDag.nodeIndex, Option.mem_def, Option.ite_none_right_eq_some,
    Option.some.injEq] at ha hb
  cases a
  cases b
  exact congrArg _ (ha.2.trans hb.2.symm)

theorem mem_rootGroups {node group : Nat} : group ∈ rootGroups dag materializations node ↔
    ∃ m, materializations[group]? = some m ∧ node ∈ m.retentionRoots.filterMap dag.nodeIndex := by
  simp only [rootGroups, mem_valuesAt, mem_flatMap, mem_map, Prod.mk.injEq]
  constructor
  · rintro ⟨⟨m, i⟩, hm, root, hroot, rfl, rfl⟩
    exact ⟨m, mk_mem_zipIdx_iff_getElem?.mp hm, hroot⟩
  · rintro ⟨m, hm, hroot⟩
    exact ⟨(m, group), mk_mem_zipIdx_iff_getElem?.mpr hm, node, hroot, rfl, rfl⟩

theorem nodup_rootGroups (h : ∀ m ∈ materializations, StrictlySorted m.contributorRoots)
    (node : Nat) : (rootGroups dag materializations node).Nodup :=
  nodup_valuesAt_zipIdx _ (fun m hm => nodup_retentionRoots (h m hm)) node

theorem mem_triggerGroups {node : GraphNode} {group : Nat} :
    group ∈ triggerGroups materializations meaning facts node ↔
      (∃ m, materializations[group]? = some m ∧ node ∈ ownTriggers facts (m, group)) ∨
        group ∈ meaning.dependentGroupsByProduct node ∧ (demandsOf facts group).isEmpty = true := by
  simp only [triggerGroups, mem_sortDedup, mem_append, mem_valuesAt, mem_flatMap,
    mem_map, Prod.mk.injEq, mem_filter]
  refine or_congr_left ⟨?_, ?_⟩
  · rintro ⟨⟨m, i⟩, hm, trigger, htrigger, rfl, rfl⟩
    exact ⟨m, mk_mem_zipIdx_iff_getElem?.mp hm, htrigger⟩
  · rintro ⟨m, hm, htrigger⟩
    exact ⟨(m, group), mk_mem_zipIdx_iff_getElem?.mpr hm, node, htrigger, rfl, rfl⟩

variable {producers : List ExpansionId} {productGroups : GraphNode → Option Nat}
  {m : MacroMaterialization} {group : Nat} {node : GraphNode}

/-- A group's own trigger gives it a meaning, or is a producer among its products. -/
theorem meaning_of_mem_ownTriggers (h : node ∈ ownTriggers facts (m, group)) :
    groupIsIntrinsic producers productGroups group m = true ∨
      node ∈ groupDependencies producers productGroups group m := by
  simp only [groupIsIntrinsic, Bool.or_eq_true, any_eq_true, groupDependencies,
    mem_append, mem_filter]
  rcases mem_append.mp h with h | h
  · have hproduct := (mem_filter.mp h).1
    by_cases hp : isProducer producers node = true
    · exact Or.inr (Or.inl ⟨hproduct, hp⟩)
    · exact Or.inl (Or.inl ⟨node, hproduct, by simpa using hp⟩)
  · obtain ⟨requirement, hr, h⟩ := mem_flatMap.mp h
    refine Or.inl (Or.inr ⟨requirement, hr, ?_⟩)
    unfold ownerIsIntrinsic
    cases heffect : requirement.effect with
    | semantic => rfl
    | transparentShell products => simp [heffect] at h

/-- What a group can depend on, unless it has a meaning of its own. -/
theorem dependency_cases (hvalid : m.ownerRequirements.all (validOwnerEffect productGroups) = true)
    (h : node ∈ groupDependencies producers productGroups group m) :
    groupIsIntrinsic producers productGroups group m = true ∨
      (∃ expansion producer, node = .expansion expansion ∧
        indexIn producers expansion = some producer) ∨
      ∃ definition other, node = .definition definition ∧ productGroups node = some other := by
  rcases mem_append.mp h with h | h
  · obtain ⟨-, hp⟩ := mem_filter.mp h
    cases node with
    | expansion expansion =>
      obtain ⟨producer, hp⟩ := Option.isSome_iff_exists.mp hp
      exact Or.inr (Or.inl ⟨expansion, producer, rfl, hp⟩)
    | _ => simp [isProducer] at hp
  · obtain ⟨requirement, hr, h⟩ := mem_flatMap.mp h
    have hv := all_eq_true.mp hvalid requirement hr
    cases heffect : requirement.effect with
    | semantic => simp [shellDependencies, heffect] at h
    | transparentShell dependent =>
      simp only [validOwnerEffect, heffect, Bool.and_eq_true, all_eq_true] at hv
      simp only [shellDependencies, heffect, mem_filter] at h
      have hshell := hv.2 node h.1
      cases node with
      | expansion expansion =>
        cases hp : indexIn producers expansion with
        | some producer => exact Or.inr (Or.inl ⟨expansion, producer, rfl, hp⟩)
        | none =>
          refine Or.inl (Bool.or_eq_true_iff.mpr (Or.inr (any_eq_true.mpr ⟨requirement, hr, ?_⟩)))
          simp only [ownerIsIntrinsic, heffect, any_eq_true]
          exact ⟨_, h.1, by simp [shellProductIsIntrinsic, hp]⟩
      | definition definition =>
        obtain ⟨other, ho⟩ := Option.isSome_iff_exists.mp hshell
        exact Or.inr (Or.inr ⟨definition, other, rfl, ho⟩)
      | _ => simp [validShellProduct] at hshell

/-- A definition among the products of a group opens it and gives it a meaning. -/
theorem product_opens {definition : DefinitionId} (h : .definition definition ∈ m.products) :
    .definition definition ∈ ownTriggers facts (m, group) ∧
      groupIsIntrinsic producers productGroups group m = true := by
  refine ⟨mem_append_left _ (mem_filter.mpr ⟨h, rfl⟩), ?_⟩
  rw [groupIsIntrinsic, Bool.or_eq_true, any_eq_true]
  exact Or.inl ⟨_, h, rfl⟩

/-- An owner that has members opens the group. -/
theorem owner_opens {requirement : MacroOwnerRequirement}
    (hvalid : m.ownerRequirements.all (validOwnerEffect productGroups) = true)
    (hr : requirement ∈ m.ownerRequirements) (hmembers : requirement.members ≠ []) :
    .definition requirement.owner ∈ ownTriggers facts (m, group) := by
  have hv := all_eq_true.mp hvalid requirement hr
  refine mem_append_right _ (mem_flatMap.mpr ⟨requirement, hr, ?_⟩)
  cases heffect : requirement.effect with
  | semantic => exact mem_cons_self
  | transparentShell dependent =>
    simp only [validOwnerEffect, heffect, Bool.and_eq_true, decide_eq_true_eq] at hv
    exact absurd hv.1.1.1 hmembers

end New

/-- What the constructor accepts is well formed. -/
theorem ValidatedMacroProducts.new_wellFormed {dag : MacroContributorDag} {sourceUnitCount : Nat}
    {materializations : List MacroMaterialization}
    {delegatedMacroExpansions refined : Finset ExpansionId} {facts : MacroGroupFacts}
    {products : ValidatedMacroProducts}
    (h : ValidatedMacroProducts.new dag sourceUnitCount materializations delegatedMacroExpansions
      refined complete facts = .ok products) :
    products.WellFormed := by
  obtain ⟨productGroups, hgroups, h⟩ := bind_ok h
  obtain ⟨meaning, hmeaning, h⟩ := bind_ok h
  replace hgroups := macroProductGroups_ok hgroups
  obtain ⟨hrefined, hmeaning⟩ := guard_ok hmeaning
  obtain ⟨-, hmeaning⟩ := guard_ok hmeaning
  obtain ⟨howners, hmeaning⟩ := guard_ok hmeaning
  cases hmeaning
  obtain ⟨-, h⟩ := guard_ok h
  obtain ⟨dag, hdag, h⟩ := bind_ok h
  obtain ⟨hlength, hlt, hsources, hparents⟩ := validateContributorDag_ok hdag
  obtain ⟨-, h⟩ := guard_ok h
  obtain ⟨-, h⟩ := guard_ok h
  obtain ⟨hvalid, h⟩ := guard_ok h
  obtain ⟨hclasses, h⟩ := guard_ok h
  cases h
  simp only [not_not, Bool.not_eq_true', Bool.not_eq_false] at hrefined hclasses hvalid
  have howners : ∀ m ∈ materializations, m.producer ∈ refined ∧
      m.ownerRequirements.all (MacroOutputMeaningIndex.validOwnerEffect productGroups) = true := by
    intro m hm
    simp only [any_eq_true, not_exists, not_and] at howners
    have := howners m hm
    simpa using this
  have hgroup : ∀ {m : MacroMaterialization} {group : Nat}, materializations[group]? = some m →
      StrictlySorted m.contributorRoots ∧ validRoots dag m.retentionRoots = true ∧
        m.contributorRoots ≠ [] := by
    intro m group hm
    have := all_eq_true.mp hvalid (m, group) (mk_mem_zipIdx_iff_getElem?.mpr hm)
    simp only [validGroup, Bool.and_eq_true, decide_eq_true_eq] at this
    exact ⟨this.1.1.1.1.2, this.1.2, by simpa using this.1.1.1.1.1.2⟩
  have hlen : ∀ {m : MacroMaterialization} {group : Nat}, materializations[group]? = some m →
      group < materializations.length := fun hm => (List.getElem?_eq_some_iff.mp hm).1
  have hproducer : ∀ m ∈ materializations,
      ∃ i, MacroOutputMeaningIndex.indexIn (ascending complete.producers) m.producer = some i := by
    intro m hm
    obtain ⟨i, hi⟩ := getElem?_of_mem (mem_ascending.mpr (hrefined (howners m hm).1))
    exact ⟨i, (indexIn_eq_some (nodup_ascending _)).mpr hi⟩
  constructor
  case localSources_length => exact hlength
  case parent_lt => exact hlt
  case nodup_sources => exact hsources
  case nodup_parents => exact hparents
  case mem_groupsByRoot =>
    exact fun node group => ⟨fun h => mem_groupRoots.mpr (mem_rootGroups.mp h),
      fun h => mem_rootGroups.mpr (mem_groupRoots.mp h)⟩
  case nodup_groupsByRoot =>
    refine nodup_rootGroups fun m hm => ?_
    obtain ⟨i, hi⟩ := getElem?_of_mem hm
    exact (hgroup hi).1
  case root_lt =>
    intro group root h
    obtain ⟨m, hm, hroot⟩ := mem_groupRoots.mp h
    obtain ⟨id, -, hid⟩ := mem_filterMap.mp hroot
    simp only [ValidatedContributorDag.nodeIndex, Option.ite_none_right_eq_some,
      Option.some.injEq] at hid
    exact hid.2 ▸ hid.1
  case nodup_groupRoots =>
    intro group
    simp only [groupRoots]
    cases hm : materializations[group]? with
    | none => exact nodup_nil
    | some m => exact nodup_retentionRoots (hgroup hm).1
  case groupRoots_ne_nil =>
    intro group hgr
    have hm := getElem?_eq_getElem hgr
    obtain ⟨-, hv, hne⟩ := hgroup hm
    have hne : materializations[group].retentionRoots ≠ [] := by
      unfold MacroMaterialization.retentionRoots
      split
      · simp
      · exact hne
    obtain ⟨root, hroot⟩ := exists_mem_of_ne_nil _ hne
    obtain ⟨node, hnode, -⟩ := (Option.any_eq_true _ _).mp (all_eq_true.mp hv root hroot)
    exact ne_nil_of_mem (mem_groupRoots.mpr ⟨_, hm, mem_filterMap.mpr ⟨root, hroot, hnode⟩⟩)
  case trigger_lt =>
    intro node group h
    rcases mem_triggerGroups.mp h with ⟨m, hm, -⟩ | ⟨h, -⟩
    · exact hlen hm
    · obtain ⟨m, hm, -⟩ := mem_dependentGroups.mp h
      exact hlen hm
  case dependent_lt =>
    intro node group h
    obtain ⟨m, hm, -⟩ := mem_dependentGroups.mp h
    exact hlen hm
  case trigger_meaning =>
    intro node group h
    rcases mem_triggerGroups.mp h with ⟨m, hm, hnode⟩ | ⟨h, -⟩
    · refine (meaning_of_mem_ownTriggers hnode).imp (fun h => ?_)
        fun h => mem_dependentGroups.mpr ⟨m, hm, h⟩
      exact (congrArg (Option.any _) hm).trans h
    · exact Or.inr h
  case dependency =>
    intro node group h
    obtain ⟨m, hm, hnode⟩ := mem_dependentGroups.mp h
    refine (dependency_cases (howners m (mem_of_getElem? hm)).2 hnode).imp_left fun h => ?_
    exact (congrArg (Option.any _) hm).trans h
  case product_trigger =>
    intro definition group h
    obtain ⟨m, hm, hmem⟩ := (hgroups _ _).mp h
    obtain ⟨htrigger, hintrinsic⟩ := product_opens hmem
    exact ⟨hlen hm, mem_triggerGroups.mpr (Or.inl ⟨m, hm, htrigger⟩),
      (congrArg (Option.any _) hm).trans hintrinsic⟩
  case owner_trigger =>
    intro m group requirement hm hr hmembers
    exact mem_triggerGroups.mpr (Or.inl
      ⟨m, hm, owner_opens (howners m (mem_of_getElem? hm)).2 hr hmembers⟩)
  case producerByGroup_lt =>
    intro group hgr
    have hm := getElem?_eq_getElem hgr
    obtain ⟨i, hi⟩ := hproducer _ (getElem_mem hgr)
    simp only [hm, Option.bind_some, hi, Option.getD_some]
    exact indexIn_lt hi
  case dependentProducer_lt => exact fun child producer h => mem_dependentProducers h
  case demandProducer_lt => exact fun definition producer h => mem_demandProducers h
  case target_lt =>
    intro clause hclause producer htarget
    obtain ⟨⟨target, demand⟩, hfact, rfl⟩ := mem_map.mp hclause
    obtain rfl : target = .producer producer := htarget
    simp only [clauseFacts, mem_append, mem_map, mem_flatMap, Prod.mk.injEq,
      reduceCtorEq, false_and, and_false, exists_false, or_false] at hfact
    obtain ⟨fact, hfact, heq, -⟩ := hfact
    cases heq
    exact mem_demandFacts hfact
  case nodup_producers => exact nodup_ascending _
  case nodup_classes => exact hclasses

end ItemDependencies
