import ItemDependencies.Retention.ReachabilityInvariant

/-!
# What the reachability index says about the graph

An index that `CompilerReachabilityIndex.new` returns lists the followed edges
of the graph, with their site gates and the components of the expansions they
lead to, and its reverse tables agree with its forward tables.
-/

namespace ItemDependencies

open Library Relation List Function

/-! ## Components -/

variable {graph : DependencyGraph}

theorem mem_expansionParents {x y : Nat} :
    y ∈ expansionParents graph x ↔
      ∃ node, graph.expansions[x]? = some node ∧ ⟨y⟩ ∈ node.parents := by
  unfold expansionParents
  cases hx : graph.expansions[x]? with
  | none => simp
  | some node =>
    simp only [Option.map_some, Option.getD_some, mem_sortDedup, mem_map, Option.some.injEq,
      exists_eq_left']
    constructor
    · rintro ⟨p, hp, rfl⟩
      exact hp
    · exact fun h => ⟨_, h, rfl⟩

theorem mem_expansionChildren {x y : Nat} :
    y ∈ expansionChildren graph x ↔ y < graph.expansions.length ∧ x ∈ expansionParents graph y := by
  simp [expansionChildren]

/-- The expansions are numbered densely, and their parents are other expansions. -/
theorem validExpansions_iff (h : validExpansions graph = true) {x : Nat} {node : ExpansionNode}
    (hx : graph.expansions[x]? = some node) :
    node.id = ⟨x⟩ ∧ ∀ p ∈ node.parents, p.index < graph.expansions.length ∧ p.index ≠ x := by
  unfold validExpansions at h
  rw [all_eq_true] at h
  have := h (node, x) (mem_zipIdx_iff_getElem?.mpr hx)
  simp only [Bool.and_eq_true, beq_iff_eq, all_eq_true, decide_eq_true_eq, bne_iff_ne,
    ne_eq] at this
  refine ⟨?_, this.2⟩
  rw [← this.1]

theorem parents_lt_of_valid (h : validExpansions graph = true) {x y : Nat}
    (hy : y ∈ expansionParents graph x) : y < graph.expansions.length := by
  obtain ⟨node, hx, hp⟩ := mem_expansionParents.mp hy
  exact ((validExpansions_iff h hx).2 _ hp).1

variable {source : SourceInventory} {componentOf : Nat → Option Nat}

/-- A written invocation is checked and returned as it is. -/
theorem writtenInvocationUnit_ok {unit u : SourceUnitId}
    (h : writtenInvocationUnit source unit = .ok u) :
    u = unit ∧ ∃ written, source.units[unit.index]? = some written ∧ written.id = unit := by
  unfold writtenInvocationUnit at h
  split at h
  · rename_i written hw
    split at h
    · rename_i hc
      cases h
      exact ⟨hc.1, written, hw, hc.1⟩
    · cases h
  · cases h

theorem forall₂_writtenInvocationUnit {units us : List SourceUnitId}
    (h : List.Forall₂ (fun unit u => writtenInvocationUnit source unit = .ok u) units us) :
    units = us := by
  induction h with
  | nil => rfl
  | cons hu _ ih => rw [(writtenInvocationUnit_ok hu).1, ih]

/-- What the components say about the expansions. -/
structure ComponentsDescribe (source : SourceInventory) (graph : DependencyGraph)
    (componentOf : Nat → Option Nat) (components : List ExpansionComponent) : Prop where
  valid : validExpansions graph = true
  bound : ∀ x k, componentOf x = some k → x < graph.expansions.length ∧ k < components.length
  total : ∀ x < graph.expansions.length, ∃ k, componentOf x = some k
  reach : ∀ x y k, componentOf x = some k → componentOf y = some k →
    StrongComponents.Reach (expansionParents graph) x y
  up : ∀ x y k, componentOf x = some k → y ∈ expansionParents graph x →
    ∃ p, componentOf y = some p ∧ k ≤ p
  sources : ∀ (k : Nat) (facts : ExpansionComponent), components[k]? = some facts →
    ∀ u, u ∈ facts.sourceUnits ↔
    ∃ x node, componentOf x = some k ∧ graph.expansions[x]? = some node ∧
      node.writtenInvocation = some u
  sources_ok : ∀ (k : Nat) (facts : ExpansionComponent), components[k]? = some facts →
    ∀ u ∈ facts.sourceUnits, writtenInvocationUnit source u = .ok u
  sources_nodup : ∀ facts ∈ components, facts.sourceUnits.Nodup
  parents : ∀ (k : Nat) (facts : ExpansionComponent), components[k]? = some facts →
    ∀ p, p ∈ facts.parents ↔
    p ≠ k ∧ ∃ x y, componentOf x = some k ∧ y ∈ expansionParents graph x ∧ componentOf y = some p
  parents_nodup : ∀ facts ∈ components, facts.parents.Nodup
  children : ∀ (k : Nat) (facts : ExpansionComponent), components[k]? = some facts →
    ∀ d : Nat, d ∈ facts.children ↔
    ∃ below : ExpansionComponent, components[d]? = some below ∧ k ∈ below.parents
  children_nodup : ∀ facts ∈ components, facts.children.Nodup

/-- The written invocations of a component are units of the inventory. -/
theorem ComponentsDescribe.sources_lt {components : List ExpansionComponent}
    (h : ComponentsDescribe source graph componentOf components) (k : Nat)
    (facts : ExpansionComponent) (hk : components[k]? = some facts) (u : SourceUnitId)
    (hu : u ∈ facts.sourceUnits) : u.index < source.units.length := by
  obtain ⟨-, written, hwritten, -⟩ := writtenInvocationUnit_ok (h.sources_ok k facts hk u hu)
  exact (List.getElem?_eq_some_iff.mp hwritten).1

theorem expansionComponent_ok {k : Nat} {members : List Nat} {facts : ExpansionComponent}
    (h : expansionComponent source graph componentOf k members = .ok facts) :
    (∀ u, u ∈ facts.sourceUnits ↔ ∃ x ∈ members, ∃ node, graph.expansions[x]? = some node ∧
      node.writtenInvocation = some u) ∧
    (∀ u ∈ facts.sourceUnits, writtenInvocationUnit source u = .ok u) ∧ facts.sourceUnits.Nodup ∧
    (∀ p, p ∈ facts.parents ↔ p ≠ k ∧ ∃ x ∈ members, ∃ y ∈ expansionParents graph x,
      componentOf y = some p) ∧ facts.parents.Nodup := by
  obtain ⟨units, hunits, hfacts⟩ := bind_ok h
  cases hfacts
  have hmap := mapM_ok hunits
  set written := (members.filterMap fun expansion => graph.expansions[expansion]?).filterMap
    ExpansionNode.writtenInvocation with hwritten
  have hsame : units = written := (forall₂_writtenInvocationUnit hmap).symm
  have hmem : ∀ u, u ∈ written ↔ ∃ x ∈ members, ∃ node, graph.expansions[x]? = some node ∧
      node.writtenInvocation = some u := by
    intro u
    simp only [hwritten, mem_filterMap]
    constructor
    · rintro ⟨node, ⟨x, hx, hnode⟩, hu⟩
      exact ⟨x, hx, node, hnode, hu⟩
    · rintro ⟨x, hx, node, hnode, hu⟩
      exact ⟨node, ⟨x, hx, hnode⟩, hu⟩
  refine ⟨fun u => ?_, fun u hu => ?_, nodup_sortDedup _, fun p => ?_, nodup_sortDedup _⟩
  · rw [mem_sortDedup, hsame, hmem]
  · rw [mem_sortDedup, hsame] at hu
    obtain ⟨i, hi⟩ := getElem?_of_mem hu
    rw [hsame] at hmap
    have := (forall₂_iff_get.mp hmap).2 i (List.getElem?_eq_some_iff.mp hi).1
      (List.getElem?_eq_some_iff.mp hi).1
    simpa only [get_eq_getElem, (List.getElem?_eq_some_iff.mp hi).2] using this
  · simp only [mem_sortDedup, mem_filter, mem_filterMap, mem_flatMap, decide_eq_true_eq]
    constructor
    · rintro ⟨⟨y, ⟨x, hx, hy⟩, hp⟩, hne⟩
      exact ⟨hne, x, hx, y, hy, hp⟩
    · rintro ⟨hne, x, hx, y, hy, hp⟩
      exact ⟨⟨y, ⟨x, hx, hy⟩, hp⟩, hne⟩

theorem expansionComponents_ok {components : List ExpansionComponent}
    (h : expansionComponents source graph = .ok (componentOf, components)) :
    ComponentsDescribe source graph componentOf components := by
  unfold expansionComponents at h
  by_cases hvalid : validExpansions graph = true
  swap
  · simp only [hvalid, Bool.not_false] at h
    cases h
  simp only [hvalid, Bool.not_true, Bool.false_eq_true, if_false] at h
  obtain ⟨facts, hfacts, heq⟩ := bind_ok h
  cases heq
  have hspec := StrongComponents.components_spec (expansionParents graph) graph.expansions.length
    (expansionChildren graph)
    (fun u _ v hv => parents_lt_of_valid hvalid hv) fun v _ u => mem_expansionChildren
  set found := StrongComponents.components (expansionParents graph) graph.expansions.length
    (expansionChildren graph) with hfound
  have hmap := forall₂_iff_get.mp (mapM_ok hfacts)
  have hlen : facts.length = found.members.length := by
    rw [← hmap.1, length_zipIdx]
  -- each component is computed from the list of its members
  have hcomp : ∀ k f, facts[k]? = some f → ∃ ms, found.members[k]? = some ms ∧
      expansionComponent source graph found.component k (sortDedup ms) = .ok f := by
    intro k f hk
    obtain ⟨hkl, hkf⟩ := List.getElem?_eq_some_iff.mp hk
    have hkm : k < found.members.length := hlen ▸ hkl
    have := hmap.2 k (by simpa using hkm) hkl
    simp only [get_eq_getElem, getElem_zipIdx, Nat.zero_add, hkf] at this
    exact ⟨_, getElem?_eq_getElem hkm, this⟩
  have hget :
      ∀ (k : Nat) (f : ExpansionComponent), (facts.zipIdx.map fun p : ExpansionComponent × Nat =>
      { p.1 with children := componentChildren facts p.2 })[k]? = some f →
      ∃ f₀ : ExpansionComponent, facts[k]? = some f₀ ∧
        f = { f₀ with children := componentChildren facts k } := by
    intro k f hk
    simp only [getElem?_map, getElem?_zipIdx, Nat.zero_add] at hk
    cases hf : facts[k]? with
    | none => simp [hf] at hk
    | some f₀ =>
      refine ⟨f₀, rfl, ?_⟩
      simpa [hf] using hk.symm
  have hget' :
      ∀ (k : Nat) (f₀ : ExpansionComponent), facts[k]? = some f₀ →
      (facts.zipIdx.map fun p : ExpansionComponent × Nat =>
      { p.1 with children := componentChildren facts p.2 })[k]? =
        some { f₀ with children := componentChildren facts k } := by
    intro k f₀ hk
    simp [getElem?_map, getElem?_zipIdx, hk]
  have hmem : ∀ k f₀, facts[k]? = some f₀ → ∀ x ms, found.members[k]? = some ms →
      (x ∈ sortDedup ms ↔ found.component x = some k) := by
    intro k f₀ _ x ms hms
    rw [mem_sortDedup, hspec.mem_iff]
    constructor
    · exact fun hx => ⟨ms, hms, hx⟩
    · rintro ⟨ms', hms', hx⟩
      rw [hms] at hms'
      cases hms'
      exact hx
  have hall :
      ∀ (k : Nat) (f : ExpansionComponent), (facts.zipIdx.map fun p : ExpansionComponent × Nat =>
      { p.1 with children := componentChildren facts p.2 })[k]? = some f →
      (∀ u, u ∈ f.sourceUnits ↔ ∃ x node, found.component x = some k ∧
        graph.expansions[x]? = some node ∧ node.writtenInvocation = some u) ∧
      (∀ u ∈ f.sourceUnits, writtenInvocationUnit source u = .ok u) ∧ f.sourceUnits.Nodup ∧
      (∀ p, p ∈ f.parents ↔ p ≠ k ∧ ∃ x y, found.component x = some k ∧
        y ∈ expansionParents graph x ∧ found.component y = some p) ∧ f.parents.Nodup ∧
      f.children = componentChildren facts k := by
    intro k f hk
    obtain ⟨f₀, hf₀, rfl⟩ := hget k f hk
    obtain ⟨ms, hms, hrun⟩ := hcomp k f₀ hf₀
    obtain ⟨h₁, h₂, h₃, h₄, h₅⟩ := expansionComponent_ok hrun
    have hm := hmem k f₀ hf₀
    refine ⟨fun u => ?_, h₂, h₃, fun p => ?_, h₅, rfl⟩
    · rw [h₁]
      simp only [hm _ ms hms]
      constructor
      · rintro ⟨x, hx, node, hn, hu⟩
        exact ⟨x, node, hx, hn, hu⟩
      · rintro ⟨x, node, hx, hn, hu⟩
        exact ⟨x, hx, node, hn, hu⟩
    · rw [h₄]
      simp only [hm _ ms hms]
      constructor
      · rintro ⟨hne, x, hx, y, hy, hp⟩
        exact ⟨hne, x, y, hx, hy, hp⟩
      · rintro ⟨hne, x, y, hx, hy, hp⟩
        exact ⟨hne, x, hx, y, hy, hp⟩
  refine ⟨hvalid, fun x k hk => ⟨hspec.bound x k hk, ?_⟩, fun x hx => ?_, hspec.reach,
    fun x y k hk hy => ?_, fun k f hk => (hall k f hk).1, fun k f hk => (hall k f hk).2.1,
    fun f hf => ?_, fun k f hk => (hall k f hk).2.2.2.1, fun f hf => ?_, fun k f hk d => ?_,
    fun f hf => ?_⟩
  · obtain ⟨ms, hms, -⟩ := (hspec.mem_iff x k).mp hk
    have := (List.getElem?_eq_some_iff.mp hms).1
    simpa [hlen] using this
  · exact Option.ne_none_iff_exists'.mp (hspec.total x (mem_range.mpr hx))
  · obtain ⟨p, hp⟩ := Option.ne_none_iff_exists'.mp
      (hspec.total y (mem_range.mpr (parents_lt_of_valid hvalid hy)))
    refine ⟨p, hp, ?_⟩
    obtain ⟨k', hle, hk'⟩ := hspec.mono y p hp x
      (mem_expansionChildren.mpr ⟨hspec.bound x k hk, hy⟩)
    rw [hk] at hk'
    cases hk'
    exact hle
  · obtain ⟨k, hk⟩ := getElem?_of_mem hf
    exact (hall k f hk).2.2.1
  · obtain ⟨k, hk⟩ := getElem?_of_mem hf
    exact (hall k f hk).2.2.2.2.1
  · rw [(hall k f hk).2.2.2.2.2]
    simp only [componentChildren, mem_filter, mem_range, decide_eq_true_eq]
    constructor
    · rintro ⟨-, below, hb, hkb⟩
      exact ⟨_, hget' d below hb, hkb⟩
    · rintro ⟨below, hb, hkb⟩
      obtain ⟨f₀, hf₀, rfl⟩ := hget d below hb
      exact ⟨(List.getElem?_eq_some_iff.mp hf₀).1, f₀, hf₀, hkb⟩
  · obtain ⟨k, hk⟩ := getElem?_of_mem hf
    rw [(hall k f hk).2.2.2.2.2]
    exact nodup_range.filter _

/-! ## Edges -/

/-- The indexed form of an edge. -/
def DependencyEdge.indexed (componentOf : Nat → Option Nat) (edge : DependencyEdge) :
    IndexedCompilerEdge :=
  ⟨edge.fromNode, edge.toNode, edge.siteUnconditional,
    edge.targetExpansion.bind fun expansion => componentOf expansion.index⟩

/-- What the sites of a builder say about the ranges that have been seen. -/
structure SitesInv (source : SourceInventory) (sites : SourceSiteOwnerIndex) (b : IndexBuilder) :
    Prop where
  known : ∀ r s, b.sourceSiteIds r = some s → ∃ site owners, b.sourceSites[s]? = some site ∧
    sites.owners r = .ok owners ∧ site.owners = sortDedup owners
  inj : ∀ r r' s, b.sourceSiteIds r = some s → b.sourceSiteIds r' = some s → r = r'
  surj : ∀ s < b.sourceSites.length, ∃ r, b.sourceSiteIds r = some s
  owners : ∀ site ∈ b.sourceSites, site.owners ≠ [] ∧ site.owners.Nodup ∧
    ∀ o ∈ site.owners, o.index < source.units.length
  bySource : ∀ u s, s ∈ b.sitesBySource u ↔
    ∃ site, b.sourceSites[s]? = some site ∧ ⟨u⟩ ∈ site.owners

/-- A builder that knows more ranges. -/
structure SitesExtend (b b' : IndexBuilder) : Prop where
  edges : b'.edges = b.edges
  edgesByFrom : b'.edgesByFrom = b.edgesByFrom
  targetEdges : b'.targetEdges = b.targetEdges
  keeps : ∀ r s, b.sourceSiteIds r = some s → b'.sourceSiteIds r = some s
  old : ∀ s < b.sourceSites.length, b'.sourceSites[s]? = b.sourceSites[s]?
  fresh : ∀ (s : Nat) (site : IndexedSourceSite), b.sourceSites.length ≤ s →
    b'.sourceSites[s]? = some site → site.edges = []
  longer : b.sourceSites.length ≤ b'.sourceSites.length

theorem SitesExtend.refl (b : IndexBuilder) : SitesExtend b b :=
  ⟨rfl, rfl, rfl, fun _ _ h => h, fun _ _ => rfl,
    fun s site hs h => by simp [getElem?_eq_none_iff.mpr hs] at h, le_rfl⟩

theorem SitesExtend.trans {b b' b'' : IndexBuilder} (h : SitesExtend b b')
    (h' : SitesExtend b' b'') : SitesExtend b b'' where
  edges := h'.edges.trans h.edges
  edgesByFrom := h'.edgesByFrom.trans h.edgesByFrom
  targetEdges := h'.targetEdges.trans h.targetEdges
  keeps r s hr := h'.keeps r s (h.keeps r s hr)
  old s hs := (h'.old s (hs.trans_le h.longer)).trans (h.old s hs)
  fresh s site hs hsite := by
    by_cases hlt : s < b'.sourceSites.length
    · rw [h'.old s hlt] at hsite
      exact h.fresh s site hs hsite
    · exact h'.fresh s site (Nat.le_of_not_lt hlt) hsite
  longer := h.longer.trans h'.longer

theorem siteId_ok {sites : SourceSiteOwnerIndex} {b b' : IndexBuilder} {r : ByteRange} {s : Nat}
    (hI : SitesInv source sites b) (h : b.siteId source sites r = .ok (b', s)) :
    SitesInv source sites b' ∧ SitesExtend b b' ∧ b'.sourceSiteIds r = some s := by
  unfold IndexBuilder.siteId at h
  cases hr : b.sourceSiteIds r with
  | some s' =>
    simp only [hr] at h
    cases h
    exact ⟨hI, SitesExtend.refl b, hr⟩
  | none =>
    simp only [hr] at h
    obtain ⟨found, hfound, h⟩ := bind_ok h
    obtain ⟨hgood, h⟩ := guard_ok h
    cases h
    set owners := sortDedup found with howners
    simp only [Bool.or_eq_true, List.isEmpty_iff, any_eq_true, decide_eq_true_eq, not_or,
      not_exists, not_and, not_not] at hgood
    have hlt : ∀ o ∈ owners, o.index < source.units.length := by
      intro o ho
      have := hgood.2 o ho
      by_contra hno
      rw [getElem?_eq_none_iff.mpr (Nat.le_of_not_lt hno)] at this
      cases this
    have hne : ∀ r' s', b.sourceSiteIds r' = some s' → r' ≠ r := by
      rintro r' s' hs' rfl
      rw [hr] at hs'
      cases hs'
    have hbound : ∀ r' s', b.sourceSiteIds r' = some s' → s' < b.sourceSites.length := by
      intro r' s' hs'
      obtain ⟨site, -, hsite, -⟩ := hI.known r' s' hs'
      exact (List.getElem?_eq_some_iff.mp hsite).1
    refine ⟨⟨fun r' s' hs' => ?_, fun r₁ r₂ s' h₁ h₂ => ?_, fun s' hs' => ?_, fun site hsite => ?_,
      fun u s' => ?_⟩,
        ⟨rfl, rfl, rfl, fun r' s' hs' => ?_, fun s' hs' => ?_, fun s' site hs' hsite => ?_,
      by simp⟩, by simp⟩
    · by_cases hrr : r' = r
      · subst hrr
        simp only [update_self, Option.some.injEq] at hs'
        subst hs'
        exact ⟨⟨owners, []⟩, found, by simp, hfound, rfl⟩
      · simp only [update_of_ne hrr] at hs'
        obtain ⟨site, os, hsite, hos, he⟩ := hI.known r' s' hs'
        exact ⟨site, os, by simp [getElem?_append_left (hbound r' s' hs'), hsite], hos, he⟩
    · by_cases hr₁ : r₁ = r <;> by_cases hr₂ : r₂ = r
      · rw [hr₁, hr₂]
      · simp only [hr₁, update_self, Option.some.injEq] at h₁
        simp only [update_of_ne hr₂] at h₂
        have := hbound r₂ s' h₂
        omega
      · simp only [hr₂, update_self, Option.some.injEq] at h₂
        simp only [update_of_ne hr₁] at h₁
        have := hbound r₁ s' h₁
        omega
      · simp only [update_of_ne hr₁] at h₁
        simp only [update_of_ne hr₂] at h₂
        exact hI.inj r₁ r₂ s' h₁ h₂
    · simp only [length_append, length_singleton] at hs'
      rcases Nat.lt_succ_iff_lt_or_eq.mp hs' with hs' | rfl
      · obtain ⟨r', hr'⟩ := hI.surj s' hs'
        exact ⟨r', by simp [update_of_ne (hne r' s' hr'), hr']⟩
      · exact ⟨r, by simp⟩
    · rcases mem_append.mp hsite with hsite | hsite
      · exact hI.owners site hsite
      · rw [mem_singleton] at hsite
        subst hsite
        exact ⟨hgood.1, nodup_sortDedup _, hlt⟩
    · have hnew : (u ∈ owners.map SourceUnitId.index) ↔ (⟨u⟩ : SourceUnitId) ∈ owners := by
        rw [mem_map]
        constructor
        · rintro ⟨o, ho, rfl⟩
          exact ho
        · exact fun ho => ⟨_, ho, rfl⟩
      have hold : s' ∈ b.sitesBySource u → s' < b.sourceSites.length := by
        intro hs'
        obtain ⟨site, hsite, -⟩ := (hI.bySource u s').mp hs'
        exact (List.getElem?_eq_some_iff.mp hsite).1
      have hmem : s' ∈ (if u ∈ owners.map SourceUnitId.index then
          b.sitesBySource u ++ [b.sourceSites.length] else b.sitesBySource u) ↔
          s' ∈ b.sitesBySource u ∨ s' = b.sourceSites.length ∧ (⟨u⟩ : SourceUnitId) ∈ owners := by
        rw [← hnew]
        split_ifs with hu <;> simp [hu]
      rw [hmem, hI.bySource]
      constructor
      · rintro (⟨site, hsite, hu⟩ | ⟨rfl, hu⟩)
        · have := (List.getElem?_eq_some_iff.mp hsite).1
          exact ⟨site, by rw [getElem?_append_left this]; exact hsite, hu⟩
        · exact ⟨⟨owners, []⟩, by simp, hu⟩
      · rintro ⟨site, hsite, hu⟩
        rcases Nat.lt_trichotomy s' b.sourceSites.length with hlt' | rfl | hgt
        · rw [getElem?_append_left hlt'] at hsite
          exact Or.inl ⟨site, hsite, hu⟩
        · simp only [getElem?_concat_length, Option.some.injEq] at hsite
          subst hsite
          exact Or.inr ⟨rfl, hu⟩
        · rw [getElem?_eq_none_iff.mpr (by simp; omega)] at hsite
          cases hsite
    · simp [update_of_ne (hne r' s' hs'), hs']
    · simp [getElem?_append_left hs']
    · rcases Nat.lt_trichotomy s' b.sourceSites.length with hlt' | rfl | hgt
      · omega
      · simp only [getElem?_concat_length, Option.some.injEq] at hsite
        subst hsite
        rfl
      · rw [getElem?_eq_none_iff.mpr (by simp; omega)] at hsite
        cases hsite

theorem siteIds_ok {sites : SourceSiteOwnerIndex} {b b' : IndexBuilder} {ranges : List ByteRange}
    {ids : List Nat} (hI : SitesInv source sites b)
    (h : b.siteIds source sites ranges = .ok (b', ids)) :
    SitesInv source sites b' ∧ SitesExtend b b' ∧
      (∀ r ∈ ranges, ∃ s ∈ ids, b'.sourceSiteIds r = some s) ∧
      ∀ s ∈ ids, ∃ r ∈ ranges, b'.sourceSiteIds r = some s := by
  induction ranges generalizing b b' ids with
  | nil =>
    cases h
    exact ⟨hI, SitesExtend.refl b, by simp, by simp⟩
  | cons r ranges ih =>
    unfold IndexBuilder.siteIds at h
    obtain ⟨⟨b₁, s⟩, h₁, h⟩ := bind_ok h
    obtain ⟨⟨b₂, rest⟩, h₂, h⟩ := bind_ok h
    cases h
    obtain ⟨hI₁, hE₁, hs⟩ := siteId_ok hI h₁
    obtain ⟨hI₂, hE₂, hall, hex⟩ := ih hI₁ h₂
    have hs₂ := hE₂.keeps r s hs
    refine ⟨hI₂, hE₁.trans hE₂, fun r' hr' => ?_, fun s' hs' => ?_⟩
    · rcases mem_cons.mp hr' with rfl | hr'
      · exact ⟨s, by simp, hs₂⟩
      · obtain ⟨s', hs', hr's'⟩ := hall r' hr'
        exact ⟨s', by simp [hs'], hr's'⟩
    · rcases mem_cons.mp hs' with rfl | hs'
      · exact ⟨r, by simp, hs₂⟩
      · obtain ⟨r', hr', hr's'⟩ := hex s' hs'
        exact ⟨r', by simp [hr'], hr's'⟩

/-- What a builder says about the edges that it has been given. -/
structure BuilderInv (source : SourceInventory) (sites : SourceSiteOwnerIndex)
    (delegated : Finset ExpansionId) (componentOf : Nat → Option Nat) (done : List DependencyEdge)
    (b : IndexBuilder) : Prop where
  sites : SitesInv source sites b
  edges : b.edges = (done.filter (DependencyEdge.isIndexed delegated)).map
    (DependencyEdge.indexed componentOf)
  targets : ∀ edge ∈ done, edge.isIndexed delegated = true → edge.targetExpansion.isSome = true →
    (edge.indexed componentOf).targetComponent.isSome = true
  byFrom : ∀ n e, e ∈ b.edgesByFrom n ↔ ∃ facts, b.edges[e]? = some facts ∧ facts.fromNode = n
  byTarget : ∀ k e, e ∈ b.targetEdges k ↔
    ∃ facts, b.edges[e]? = some facts ∧ facts.targetComponent = some k
  ranges : ∀ edge ∈ done, edge.isIndexed delegated = true → edge.siteUnconditional = false →
    ∀ r ∈ edge.sourceRanges, b.sourceSiteIds r ≠ none
  siteEdges : ∀ s (site : IndexedSourceSite), b.sourceSites[s]? = some site → site.edges.Nodup ∧
    ∀ e, e ∈ site.edges ↔ ∃ edge : DependencyEdge,
      (done.filter (DependencyEdge.isIndexed delegated))[e]? = some edge ∧
      edge.siteUnconditional = false ∧ ∃ r ∈ edge.sourceRanges, b.sourceSiteIds r = some s

section AddEdge

variable {source : SourceInventory} {sites : SourceSiteOwnerIndex}
variable {delegated : Finset ExpansionId} {componentOf : Nat → Option Nat}
variable {done : List DependencyEdge} {b b' : IndexBuilder}

/-- Knowing more ranges changes nothing for the edges that have been indexed. -/
theorem BuilderInv.extend (h : BuilderInv source sites delegated componentOf done b)
    (hI : SitesInv source sites b') (hE : SitesExtend b b') :
    BuilderInv source sites delegated componentOf done b' where
  sites := hI
  edges := hE.edges.trans h.edges
  targets := h.targets
  byFrom n e := by
    rw [hE.edgesByFrom, hE.edges]
    exact h.byFrom n e
  byTarget k e := by
    rw [hE.targetEdges, hE.edges]
    exact h.byTarget k e
  ranges edge hm hi hu r hr hnone := by
    obtain ⟨s, hs⟩ := Option.ne_none_iff_exists'.mp (h.ranges edge hm hi hu r hr)
    rw [hE.keeps r s hs] at hnone
    cases hnone
  siteEdges s site hs := by
    have hids : ∀ e : Nat,
        (∃ edge, (done.filter (DependencyEdge.isIndexed delegated))[e]? = some edge ∧
          edge.siteUnconditional = false ∧
            ∃ r ∈ edge.sourceRanges, b'.sourceSiteIds r = some s) ↔
        ∃ edge, (done.filter (DependencyEdge.isIndexed delegated))[e]? = some edge ∧
          edge.siteUnconditional = false ∧ ∃ r ∈ edge.sourceRanges, b.sourceSiteIds r = some s := by
      intro e
      constructor
      · rintro ⟨edge, he, hu, r, hr, hrs⟩
        obtain ⟨hm, hi⟩ := mem_filter.mp (mem_of_getElem? he)
        obtain ⟨s', hs'⟩ := Option.ne_none_iff_exists'.mp (h.ranges edge hm hi hu r hr)
        have := hE.keeps r s' hs'
        rw [hrs] at this
        cases this
        exact ⟨edge, he, hu, r, hr, hs'⟩
      · rintro ⟨edge, he, hu, r, hr, hrs⟩
        exact ⟨edge, he, hu, r, hr, hE.keeps r s hrs⟩
    simp only [hids]
    by_cases hlt : s < b.sourceSites.length
    · rw [hE.old s hlt] at hs
      exact h.siteEdges s site hs
    · -- a new site has no edges yet, since all ranges of indexed edges were known
      have hempty := hE.fresh s site (Nat.le_of_not_lt hlt) hs
      refine ⟨by rw [hempty]; exact nodup_nil, fun e => ?_⟩
      rw [hempty]
      refine ⟨fun he => absurd he not_mem_nil, ?_⟩
      rintro ⟨edge, -, -, r, -, hrs⟩
      obtain ⟨site', -, hsite', -⟩ := h.sites.known r s hrs
      exact absurd (List.getElem?_eq_some_iff.mp hsite').1 hlt

/-- Appending a position to the table of a key. -/
theorem mem_append_position {κ : Type} {P : IndexedCompilerEdge → κ → Prop}
    {edges : List IndexedCompilerEdge} {new : IndexedCompilerEdge} {k : κ} {table table' : List Nat}
    (h : ∀ e, e ∈ table ↔ ∃ facts, edges[e]? = some facts ∧ P facts k)
    (htable : ∀ e, e ∈ table' ↔ e ∈ table ∨ e = edges.length ∧ P new k) (e : Nat) :
    e ∈ table' ↔ ∃ facts, (edges ++ [new])[e]? = some facts ∧ P facts k := by
  rw [htable, h]
  constructor
  · rintro (⟨facts, hf, hP⟩ | ⟨rfl, hP⟩)
    · exact ⟨facts, by rw [getElem?_append_left (List.getElem?_eq_some_iff.mp hf).1, hf], hP⟩
    · exact ⟨new, by simp, hP⟩
  · rintro ⟨facts, hf, hP⟩
    rcases Nat.lt_trichotomy e edges.length with hlt | rfl | hgt
    · rw [getElem?_append_left hlt] at hf
      exact Or.inl ⟨facts, hf, hP⟩
    · simp only [getElem?_concat_length, Option.some.injEq] at hf
      exact Or.inr ⟨rfl, hf ▸ hP⟩
    · rw [getElem?_eq_none_iff.mpr (by simp; omega)] at hf
      cases hf

/-- Indexing one more edge. -/
theorem BuilderInv.addEdge {edge : DependencyEdge}
    (h : BuilderInv source sites delegated componentOf done b)
    (run : b.addEdge source sites delegated componentOf edge = .ok b') :
    BuilderInv source sites delegated componentOf (done ++ [edge]) b' := by
  unfold IndexBuilder.addEdge at run
  by_cases hi : edge.isIndexed delegated = true
  swap
  · -- the edge is not followed
    simp only [hi, Bool.not_false, if_true] at run
    cases run
    rw [Bool.not_eq_true] at hi
    have hfilter : (done ++ [edge]).filter (DependencyEdge.isIndexed delegated) =
        done.filter (DependencyEdge.isIndexed delegated) := by simp [hi]
    have hmem : ∀ x ∈ done ++ [edge], x.isIndexed delegated = true → x ∈ done := by
      intro x hx hxi
      rcases mem_append.mp hx with hx | hx
      · exact hx
      · rw [mem_singleton.mp hx, hi] at hxi
        cases hxi
    refine ⟨h.sites, by rw [hfilter]; exact h.edges,
      fun x hx hxi => h.targets x (hmem x hx hxi) hxi,
      h.byFrom, h.byTarget, fun x hx hxi => h.ranges x (hmem x hx hxi) hxi, ?_⟩
    rw [hfilter]
    exact h.siteEdges
  simp only [hi, Bool.not_true, Bool.false_eq_true, if_false] at run
  obtain ⟨⟨b₁, ids⟩, hids, run⟩ := bind_ok run
  obtain ⟨htarget, run⟩ := guard_ok run
  obtain ⟨hsome, run⟩ := guard_ok run
  cases run
  -- the ranges of the edge get their numbers first
  have hstep : SitesInv source sites b₁ ∧ SitesExtend b b₁ ∧
      (edge.siteUnconditional = false → ∀ r ∈ edge.sourceRanges, ∃ s ∈ ids,
        b₁.sourceSiteIds r = some s) ∧
      (∀ s ∈ ids, edge.siteUnconditional = false ∧ ∃ r ∈ edge.sourceRanges,
        b₁.sourceSiteIds r = some s) := by
    unfold IndexBuilder.edgeSiteIds at hids
    by_cases hu : edge.siteUnconditional = true
    · simp only [hu, if_true] at hids
      cases hids
      refine ⟨h.sites, SitesExtend.refl b, fun hu' => ?_, by simp⟩
      rw [hu] at hu'
      cases hu'
    · rw [Bool.not_eq_true] at hu
      simp only [hu, Bool.false_eq_true, if_false] at hids
      obtain ⟨hI, hE, hall, hex⟩ := siteIds_ok h.sites hids
      exact ⟨hI, hE, fun _ => hall, fun s hs => ⟨hu, hex s hs⟩⟩
  obtain ⟨hI, hE, hall, hex⟩ := hstep
  have h₁ := h.extend hI hE
  have hlen : b₁.edges.length = (done.filter (DependencyEdge.isIndexed delegated)).length := by
    rw [h₁.edges, length_map]
  have hfilter : (done ++ [edge]).filter (DependencyEdge.isIndexed delegated) =
      done.filter (DependencyEdge.isIndexed delegated) ++ [edge] := by simp [hi]
  -- the sites keep their owners
  have hsite : ∀ s, (b₁.sourceSites.zipIdx.map fun p : IndexedSourceSite × Nat =>
      if p.2 ∈ sortDedup ids then { p.1 with edges := p.1.edges ++ [b₁.edges.length] }
      else p.1)[s]? =
      (b₁.sourceSites[s]?).map fun site =>
        if s ∈ ids then { site with edges := site.edges ++ [b₁.edges.length] } else site := by
    intro s
    rw [getElem?_map, getElem?_zipIdx]
    cases b₁.sourceSites[s]? <;> simp
  refine ⟨⟨fun r s hrs => ?_, hI.inj, fun s hs => ?_, fun site hs => ?_, fun u s => ?_⟩, ?_,
    fun x hx hxi ht => ?_, fun n => ?_, fun k => ?_, fun x hx hxi hu r hr => ?_,
      fun s site hs => ?_⟩
  · obtain ⟨site, owners, hs, ho, he⟩ := hI.known r s hrs
    refine ⟨_, owners, by rw [hsite, hs]; rfl, ho, ?_⟩
    split_ifs <;> exact he
  · exact hI.surj s (by simpa using hs)
  · obtain ⟨s, hs⟩ := getElem?_of_mem hs
    rw [hsite] at hs
    cases hb : b₁.sourceSites[s]? with
    | none => simp [hb] at hs
    | some site₀ =>
      have := hI.owners site₀ (mem_of_getElem? hb)
      simp only [hb, Option.map_some, Option.some.injEq] at hs
      subst hs
      split_ifs <;> exact this
  · rw [hI.bySource]
    simp only [hsite]
    cases b₁.sourceSites[s]? with
    | none => simp
    | some site₀ =>
      simp only [Option.some.injEq, exists_eq_left', Option.map_some]
      split_ifs <;> exact Iff.rfl
  · rw [hfilter, map_append, ← h₁.edges]
    rfl
  · rcases mem_append.mp hx with hx | hx
    · exact h.targets x hx hxi ht
    · rw [mem_singleton] at hx
      subst hx
      simp only [ht, Bool.true_and, Option.isNone_iff_eq_none] at htarget
      exact Option.isSome_iff_ne_none.mpr htarget
  · refine mem_append_position (P := fun facts n => facts.fromNode = n) (h₁.byFrom n) fun e => ?_
    by_cases hn : n = edge.fromNode
    · subst hn
      simp
    · have hn' : edge.fromNode ≠ n := fun h => hn h.symm
      simp [hn, hn']
  · refine mem_append_position (P := fun facts k => facts.targetComponent = some k) (h₁.byTarget k)
      fun e => ?_
    cases ht : edge.targetExpansion.bind fun expansion => componentOf expansion.index with
    | none => simp
    | some k' =>
      by_cases hk : k = k'
      · subst hk
        simp
      · have hk' : k' ≠ k := fun h => hk h.symm
        simp [hk, hk']
  · rcases mem_append.mp hx with hx | hx
    · exact h₁.ranges x hx hxi hu r hr
    · rw [mem_singleton] at hx
      subst hx
      obtain ⟨s, -, hs⟩ := hall hu r hr
      exact Option.ne_none_iff_exists'.mpr ⟨s, hs⟩
  · rw [hsite] at hs
    cases hb : b₁.sourceSites[s]? with
    | none => simp [hb] at hs
    | some site₀ =>
      obtain ⟨hnodup, hmem⟩ := h₁.siteEdges s site₀ hb
      simp only [hb, Option.map_some, Option.some.injEq] at hs
      subst hs
      have hin : s ∈ ids ↔ edge.siteUnconditional = false ∧ ∃ r ∈ edge.sourceRanges,
          b₁.sourceSiteIds r = some s := by
        refine ⟨hex s, ?_⟩
        rintro ⟨hu, r, hr, hrs⟩
        obtain ⟨s', hs', hrs'⟩ := hall hu r hr
        rw [hrs] at hrs'
        cases hrs'
        exact hs'
      have hlt : ∀ e ∈ site₀.edges, e < b₁.edges.length := by
        intro e he
        obtain ⟨x, hx, -⟩ := (hmem e).mp he
        rw [hlen]
        exact (List.getElem?_eq_some_iff.mp hx).1
      have hedges : (if s ∈ ids then { site₀ with edges := site₀.edges ++ [b₁.edges.length] }
          else site₀).edges =
          if s ∈ ids then site₀.edges ++ [b₁.edges.length] else site₀.edges := by
        split_ifs <;> rfl
      refine ⟨?_, fun e => ?_⟩
      · rw [hedges]
        split_ifs
        · refine nodup_append'.mpr ⟨hnodup, nodup_singleton _, fun e he he' => ?_⟩
          rw [mem_singleton] at he'
          have := hlt e he
          omega
        · exact hnodup
      · have hsplit : e ∈ (if s ∈ ids then site₀.edges ++ [b₁.edges.length] else site₀.edges) ↔
            e ∈ site₀.edges ∨ e = b₁.edges.length ∧ s ∈ ids := by
          split_ifs with hids' <;> simp [hids']
        rw [hedges, hsplit, hmem, hin, hfilter, hlen]
        constructor
        · rintro (⟨x, hx, hrest⟩ | ⟨rfl, hrest⟩)
          · refine ⟨x, ?_, hrest⟩
            rw [getElem?_append_left (List.getElem?_eq_some_iff.mp hx).1, hx]
          · exact ⟨edge, by simp, hrest⟩
        · rintro ⟨x, hx, hrest⟩
          rcases Nat.lt_trichotomy e
            (done.filter (DependencyEdge.isIndexed delegated)).length with hlt' | rfl | hgt
          · rw [getElem?_append_left hlt'] at hx
            exact Or.inl ⟨x, hx, hrest⟩
          · simp only [getElem?_concat_length, Option.some.injEq] at hx
            exact Or.inr ⟨rfl, hx ▸ hrest⟩
          · rw [getElem?_eq_none_iff.mpr (by simp; omega)] at hx
            cases hx

end AddEdge

/-! ## The index -/

open CompilerReachabilityClosure

/-- The indexed form of an edge, with the owners of its sites. -/
structure EdgeDescribes (sites : SourceSiteOwnerIndex) (index : CompilerReachabilityIndex)
    (componentOf : Nat → Option Nat) (e : Nat) (edge : DependencyEdge) : Prop where
  facts : index.edges[e]? = some (edge.indexed componentOf)
  target : edge.targetExpansion.isSome = true →
    (edge.indexed componentOf).targetComponent.isSome = true
  site_range : ∀ s, e ∈ siteEdges index s → edge.siteUnconditional = false ∧
    ∃ r ∈ edge.sourceRanges, ∃ owners, sites.owners r = .ok owners ∧
      siteOwners index s = sortDedup owners
  range_site : edge.siteUnconditional = false → ∀ r ∈ edge.sourceRanges, ∃ s owners,
    e ∈ siteEdges index s ∧ sites.owners r = .ok owners ∧ siteOwners index s = sortDedup owners

/-- What an index says about a graph. -/
structure CompilerReachabilityIndex.Describes (source : SourceInventory)
    (sites : SourceSiteOwnerIndex) (graph : DependencyGraph) (delegated : Finset ExpansionId)
    (componentOf : Nat → Option Nat) (index : CompilerReachabilityIndex) : Prop where
  wellFormed : index.WellFormed
  sourceCount : index.sitesBySource.length = source.units.length
  components : ComponentsDescribe source graph componentOf index.components
  edge_of : ∀ e < index.edges.length, ∃ edge ∈ graph.edges, edge.isIndexed delegated = true ∧
    EdgeDescribes sites index componentOf e edge
  edge_to : ∀ edge ∈ graph.edges, edge.isIndexed delegated = true →
    ∃ e < index.edges.length, EdgeDescribes sites index componentOf e edge

section New

variable {source : SourceInventory} {sites : SourceSiteOwnerIndex} {graph : DependencyGraph}
variable {delegated : Finset ExpansionId} {index : CompilerReachabilityIndex}

theorem mem_getElem?_getD {α β : Type} {f : α → List β} {xs : List α} {i : Nat} {b : β} :
    b ∈ (xs[i]?.map f).getD [] ↔ ∃ x, xs[i]? = some x ∧ b ∈ f x := by
  cases xs[i]? <;> simp

/-- What holds of the lists of all elements holds of the list at any position. -/
theorem getD_of_forall {α β : Type} {f : α → List β} {xs : List α} {P : List β → Prop}
    (hnil : P []) (h : ∀ x ∈ xs, P (f x)) (i : Nat) : P ((xs[i]?.map f).getD []) := by
  cases hx : xs[i]? with
  | none => exact hnil
  | some x => exact h x (mem_of_getElem? hx)

theorem CompilerReachabilityIndex.new_ok
    (h : CompilerReachabilityIndex.new source sites graph delegated = .ok index) :
    ∃ componentOf components, expansionComponents source graph = .ok (componentOf, components) ∧
      index.Describes source sites graph delegated componentOf := by
  unfold CompilerReachabilityIndex.new at h
  obtain ⟨⟨componentOf, components⟩, hcomp, h⟩ := bind_ok h
  obtain ⟨b, hb, h⟩ := bind_ok h
  cases h
  have hC := expansionComponents_ok hcomp
  have hempty : BuilderInv source sites delegated componentOf [] .empty := by
    constructor
    · constructor <;> simp [IndexBuilder.empty]
    all_goals simp [IndexBuilder.empty]
  have hB : BuilderInv source sites delegated componentOf graph.edges b :=
    foldlM_ok (P := BuilderInv source sites delegated componentOf)
      (fun _ _ _ _ hI hrun => hI.addEdge hrun) hempty hb
  clear hb hempty
  -- the tables of the index in terms of the components and of the builder
  have hcomps : ∀ k : Nat, (components.zipIdx.map fun p : ExpansionComponent × Nat =>
      { p.1 with targetEdges := sortDedup (b.targetEdges p.2) })[k]? =
      components[k]?.map fun facts =>
        { facts with targetEdges := sortDedup (b.targetEdges k) } := by
    intro k
    rw [getElem?_map, getElem?_zipIdx]
    cases components[k]? <;> simp
  have hfield : ∀ {β : Type} (field : ExpansionComponent → List β),
      (∀ facts edges, field { facts with targetEdges := edges } = field facts) → ∀ k : Nat,
        ((components.zipIdx.map fun p : ExpansionComponent × Nat =>
          { p.1 with targetEdges := sortDedup (b.targetEdges p.2) })[k]?.map field).getD [] =
        (components[k]?.map field).getD [] := by
    intro β field hsame k
    rw [hcomps]
    cases components[k]? <;> simp [hsame]
  have hsources := hfield ExpansionComponent.sourceUnits fun _ _ => rfl
  have hparents := hfield ExpansionComponent.parents fun _ _ => rfl
  have hchildren := hfield ExpansionComponent.children fun _ _ => rfl
  have hsiteLists : ∀ u : Nat, ((List.range source.units.length).map fun unit =>
      sortDedup (b.sitesBySource unit)).getD u [] =
      if u < source.units.length then sortDedup (b.sitesBySource u) else [] := by
    intro u
    by_cases hu : u < source.units.length <;> simp [getD_eq_getElem?_getD, hu]
  have hcompLists : ∀ u : Nat, ((List.range source.units.length).map fun unit =>
      (List.range components.length).filter fun component =>
        decide (∃ facts ∈ components[component]?,
          unit ∈ facts.sourceUnits.map SourceUnitId.index)).getD u [] =
      if u < source.units.length then (List.range components.length).filter fun component =>
        decide (∃ facts ∈ components[component]?, u ∈ facts.sourceUnits.map SourceUnitId.index)
      else [] := by
    intro u
    by_cases hu : u < source.units.length <;> simp [getD_eq_getElem?_getD, hu]
  have hmapIndex : ∀ (us : List SourceUnitId) (u : Nat),
      u ∈ us.map SourceUnitId.index ↔ (⟨u⟩ : SourceUnitId) ∈ us := by
    intro us u
    rw [mem_map]
    constructor
    · rintro ⟨o, ho, rfl⟩
      exact ho
    · exact fun ho => ⟨_, ho, rfl⟩
  have hsiteEdges_lt : ∀ s e : Nat, e ∈ (b.sourceSites[s]?.map IndexedSourceSite.edges).getD [] →
      e < b.edges.length := by
    intro s e he
    obtain ⟨site, hs, he⟩ := mem_getElem?_getD.mp he
    obtain ⟨edge, hedge, -⟩ := ((hB.siteEdges s site hs).2 e).mp he
    rw [hB.edges, length_map]
    exact (List.getElem?_eq_some_iff.mp hedge).1
  -- an edge and the owners of its sites
  have hdescribe : ∀ (e : Nat) (edge : DependencyEdge),
      (graph.edges.filter (DependencyEdge.isIndexed delegated))[e]? = some edge →
      EdgeDescribes sites
        { edges := b.edges
          edgesByFrom := fun node => sortDedup (b.edgesByFrom node)
          sourceSites := b.sourceSites
          sitesBySource := (List.range source.units.length).map fun unit =>
            sortDedup (b.sitesBySource unit)
          components := components.zipIdx.map fun p : ExpansionComponent × Nat =>
            { p.1 with targetEdges := sortDedup (b.targetEdges p.2) }
          componentsBySource := (List.range source.units.length).map fun unit =>
            (List.range components.length).filter fun component =>
              decide (∃ facts ∈ components[component]?,
                unit ∈ facts.sourceUnits.map SourceUnitId.index) } componentOf e edge := by
    intro e edge he
    obtain ⟨hm, hi⟩ := mem_filter.mp (mem_of_getElem? he)
    refine ⟨by simp [hB.edges, he], hB.targets edge hm hi, fun s hs => ?_, fun hu r hr => ?_⟩
    · obtain ⟨site, hsite, hes⟩ := mem_getElem?_getD.mp hs
      obtain ⟨edge', he', hu, r, hr, hrs⟩ := ((hB.siteEdges s site hsite).2 e).mp hes
      rw [he] at he'
      cases he'
      obtain ⟨site', owners, hsite', howners, heq⟩ := hB.sites.known r s hrs
      refine ⟨hu, r, hr, owners, howners, ?_⟩
      simpa [siteOwners, hsite'] using heq
    · obtain ⟨s, hs⟩ := Option.ne_none_iff_exists'.mp (hB.ranges edge hm hi hu r hr)
      obtain ⟨site, owners, hsite, howners, heq⟩ := hB.sites.known r s hs
      refine ⟨s, owners, ?_, howners, by simpa [siteOwners, hsite] using heq⟩
      exact mem_getElem?_getD.mpr ⟨site, hsite, ((hB.siteEdges s site hsite).2 e).mpr
        ⟨edge, he, hu, r, hr, hs⟩⟩
  refine ⟨componentOf, components,
    hcomp, ⟨⟨?_, fun s hs => ?_, fun s o ho => ?_, ?_, hsiteEdges_lt, fun u => ?_,
    fun u s => ?_, fun k => ?_, fun u => ?_, fun u k => ?_, fun k => ?_, fun k p hp => ?_,
      fun k => ?_,
    fun p k => ?_, fun n e => ?_, fun k e => ?_⟩, by simp, ?_, fun e he => ?_,
    fun edge hedge hi => ?_⟩⟩
  · exact getD_of_forall nodup_nil fun site hs => (hB.sites.owners site hs).2.1
  · have : b.sourceSites[s]? = some b.sourceSites[s] := getElem?_eq_getElem hs
    simp only [siteOwners, this, Option.map_some, Option.getD_some]
    exact (hB.sites.owners _ (getElem_mem hs)).1
  · obtain ⟨site, hs, ho⟩ := mem_getElem?_getD.mp ho
    simpa using (hB.sites.owners site (mem_of_getElem? hs)).2.2 o ho
  · intro s
    cases hs : b.sourceSites[s]? with
    | none => simp [siteEdges, hs]
    | some site =>
      simp only [siteEdges, hs, Option.map_some, Option.getD_some]
      exact (hB.siteEdges s site hs).1
  · rw [hsiteLists]
    split_ifs
    · exact nodup_sortDedup _
    · exact nodup_nil
  · simp only [hsiteLists]
    have hiff : s ∈ b.sitesBySource u ↔ (⟨u⟩ : SourceUnitId) ∈
        (b.sourceSites[s]?.map IndexedSourceSite.owners).getD [] := by
      rw [hB.sites.bySource, mem_getElem?_getD]
    split_ifs with hu
    · rw [mem_sortDedup]
      exact hiff
    · constructor
      · exact fun h => absurd h not_mem_nil
      · intro ho
        obtain ⟨site, hs, ho⟩ := mem_getElem?_getD.mp ho
        exact absurd ((hB.sites.owners site (mem_of_getElem? hs)).2.2 _ ho) hu
  · simp only [componentSources, hsources]
    exact getD_of_forall nodup_nil (fun f hf => hC.sources_nodup f hf) k
  · rw [hcompLists]
    split_ifs
    · exact nodup_range.filter _
    · exact nodup_nil
  · simp only [hcompLists, componentSources, hsources]
    rw [mem_getElem?_getD]
    split_ifs with hu
    · simp only [mem_filter, mem_range, decide_eq_true_eq, hmapIndex]
      constructor
      · rintro ⟨-, f, hf, hm⟩
        exact ⟨f, hf, hm⟩
      · rintro ⟨f, hf, hm⟩
        exact ⟨(List.getElem?_eq_some_iff.mp hf).1, f, hf, hm⟩
    · constructor
      · exact fun h => absurd h not_mem_nil
      · rintro ⟨f, hf, hm⟩
        exact absurd (hC.sources_lt k f hf _ hm) hu
  · simp only [componentParents, hparents]
    exact getD_of_forall nodup_nil (fun f hf => hC.parents_nodup f hf) k
  · simp only [componentParents, hparents] at hp
    obtain ⟨f, hf, hp⟩ := mem_getElem?_getD.mp hp
    obtain ⟨hne, x, y, hx, hy, hyp⟩ := (hC.parents k f hf p).mp hp
    obtain ⟨p', hp', hle⟩ := hC.up x y k hx hy
    rw [hyp] at hp'
    cases hp'
    exact ⟨lt_of_le_of_ne hle (Ne.symm hne), by simpa using (hC.bound y p hyp).2⟩
  · simp only [CompilerReachabilityClosure.componentChildren, hchildren]
    exact getD_of_forall nodup_nil (fun f hf => hC.children_nodup f hf) k
  · simp only [CompilerReachabilityClosure.componentChildren, hchildren, componentParents, hparents]
    rw [mem_getElem?_getD, mem_getElem?_getD]
    constructor
    · rintro ⟨f, hf, hk⟩
      exact (hC.children p f hf k).mp hk
    · rintro ⟨below, hb', hp⟩
      obtain ⟨-, x, y, -, -, hyp⟩ := (hC.parents k below hb' p).mp hp
      have hlt := (hC.bound y p hyp).2
      exact ⟨_, getElem?_eq_getElem hlt,
        (hC.children p _ (getElem?_eq_getElem hlt) k).mpr ⟨below, hb', hp⟩⟩
  · simp only [mem_sortDedup]
    exact hB.byFrom n e
  · simp only [targetEdges, hcomps]
    have hiff : e ∈ ((components[k]?.map fun facts =>
        { facts with targetEdges := sortDedup (b.targetEdges k) }).map
          ExpansionComponent.targetEdges).getD [] ↔
        k < components.length ∧ e ∈ b.targetEdges k := by
      by_cases hk : k < components.length <;> simp [hk]
    rw [hiff, hB.byTarget]
    constructor
    · exact And.right
    · rintro ⟨facts, hf, ht⟩
      refine ⟨?_, facts, hf, ht⟩
      rw [hB.edges, getElem?_map] at hf
      obtain ⟨edge, -, rfl⟩ := Option.map_eq_some_iff.mp hf
      obtain ⟨x, -, hx⟩ := Option.bind_eq_some_iff.mp ht
      exact (hC.bound x.index k hx).2
  · refine ⟨hC.valid, fun x k hk => by simpa using hC.bound x k hk, hC.total, hC.reach, hC.up,
      fun k f hf => ?_, fun k f hf => ?_, fun f hf => ?_, fun k f hf => ?_, fun f hf => ?_,
      fun k f hf d => ?_, fun f hf => ?_⟩
    · rw [hcomps] at hf
      obtain ⟨f₀, hf₀, rfl⟩ := Option.map_eq_some_iff.mp hf
      exact hC.sources k f₀ hf₀
    · rw [hcomps] at hf
      obtain ⟨f₀, hf₀, rfl⟩ := Option.map_eq_some_iff.mp hf
      exact hC.sources_ok k f₀ hf₀
    · obtain ⟨k, hk⟩ := getElem?_of_mem hf
      rw [hcomps] at hk
      obtain ⟨f₀, hf₀, rfl⟩ := Option.map_eq_some_iff.mp hk
      exact hC.sources_nodup f₀ (mem_of_getElem? hf₀)
    · rw [hcomps] at hf
      obtain ⟨f₀, hf₀, rfl⟩ := Option.map_eq_some_iff.mp hf
      exact hC.parents k f₀ hf₀
    · obtain ⟨k, hk⟩ := getElem?_of_mem hf
      rw [hcomps] at hk
      obtain ⟨f₀, hf₀, rfl⟩ := Option.map_eq_some_iff.mp hk
      exact hC.parents_nodup f₀ (mem_of_getElem? hf₀)
    · rw [hcomps] at hf
      obtain ⟨f₀, hf₀, rfl⟩ := Option.map_eq_some_iff.mp hf
      simp only [hcomps]
      rw [hC.children k f₀ hf₀]
      constructor
      · rintro ⟨below, hb', hp⟩
        exact ⟨{ below with targetEdges := sortDedup (b.targetEdges d) }, by simp [hb'], hp⟩
      · rintro ⟨below, hb', hp⟩
        obtain ⟨f₁, hf₁, rfl⟩ := Option.map_eq_some_iff.mp hb'
        exact ⟨f₁, hf₁, hp⟩
    · obtain ⟨k, hk⟩ := getElem?_of_mem hf
      rw [hcomps] at hk
      obtain ⟨f₀, hf₀, rfl⟩ := Option.map_eq_some_iff.mp hk
      exact hC.children_nodup f₀ (mem_of_getElem? hf₀)
  · have hlt : e < (graph.edges.filter (DependencyEdge.isIndexed delegated)).length := by
      simpa [hB.edges] using he
    obtain ⟨hm, hi⟩ := mem_filter.mp (getElem_mem hlt)
    exact ⟨_, hm, hi, hdescribe e _ (getElem?_eq_getElem hlt)⟩
  · obtain ⟨e, he⟩ := getElem?_of_mem (mem_filter.mpr ⟨hedge, hi⟩)
    refine ⟨e, ?_, hdescribe e edge he⟩
    rw [hB.edges, length_map]
    exact (List.getElem?_eq_some_iff.mp he).1

end New

end ItemDependencies
