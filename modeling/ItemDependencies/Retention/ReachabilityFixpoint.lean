import ItemDependencies.Retention.ReachabilityClose
import ItemDependencies.Retention.ReachabilityIndex

/-!
# The reachability closure against the graph

What the closure is for, said without counters and queues: the survivors are
the greatest set of expansions that keep all their written invocations and
parents, and the reachable nodes are the least set that is closed under the
edges that lead to survivors through an open site gate.
-/

namespace ItemDependencies

open Library Relation List

/-! ## The abstract closure -/

/-- A set of expansions each of which is kept by the written source and by its parents. -/
def SurvivorSet (graph : DependencyGraph) (sources : Set SourceUnitId) (S : Set ExpansionId) :
    Prop :=
  ∀ x ∈ S, ∃ node, graph.expansions[x.index]? = some node ∧
    (∀ unit, node.writtenInvocation = some unit → unit ∈ sources) ∧ ∀ p ∈ node.parents, p ∈ S

/-- The expansions that survive when some source units are retained. -/
def survivors (graph : DependencyGraph) (sources : Set SourceUnitId) : Set ExpansionId :=
  ⋃₀ {S | SurvivorSet graph sources S}

/-- An edge has no site gate, or one of its source sites has all its owners among the sources. -/
def SiteGateOpen (sites : SourceSiteOwnerIndex) (sources : Set SourceUnitId)
    (edge : DependencyEdge) : Prop :=
  edge.siteUnconditional = true ∨ ∃ r, ObservationSite.source r ∈ edge.sites ∧
    ∃ owners, sites.owners r = .ok owners ∧ ∀ o ∈ owners, o ∈ sources

/-- A set of nodes is closed under the followed edges that lead to surviving expansions through
an open site gate. -/
def ReachabilityClosed (sites : SourceSiteOwnerIndex) (graph : DependencyGraph)
    (delegated : Finset ExpansionId) (sources : Set SourceUnitId) (surviving : Set ExpansionId)
    (R : Set GraphNode) : Prop :=
  ∀ edge ∈ graph.edges, edge.isIndexed delegated = true → edge.fromNode ∈ R →
    SiteGateOpen sites sources edge →
    (∀ x, edge.targetExpansion = some x → x ∈ surviving) → edge.toNode ∈ R

theorem mem_sourceRanges {edge : DependencyEdge} {r : ByteRange} :
    r ∈ edge.sourceRanges ↔ ObservationSite.source r ∈ edge.sites := by
  simp only [DependencyEdge.sourceRanges, mem_filterMap]
  constructor
  · rintro ⟨site, hs, h⟩
    cases site <;> simp_all
  · exact fun h => ⟨_, h, rfl⟩

section Survivors

variable {graph : DependencyGraph} {sources : Set SourceUnitId} {S : Set ExpansionId}

theorem survivorSet_survivors : SurvivorSet graph sources (survivors graph sources) := by
  rintro x ⟨S, hS, hx⟩
  obtain ⟨node, hnode, hwritten, hparents⟩ := hS x hx
  exact ⟨node, hnode, hwritten, fun p hp => ⟨S, hS, hparents p hp⟩⟩

theorem isGreatest_survivors :
    IsGreatest {S | SurvivorSet graph sources S} (survivors graph sources) :=
  ⟨survivorSet_survivors, fun _ hS _ hx => ⟨_, hS, hx⟩⟩

/-- The parents of an expansion as a relation. -/
def ParentOf (graph : DependencyGraph) (x p : ExpansionId) : Prop :=
  ∃ node, graph.expansions[x.index]? = some node ∧ p ∈ node.parents

/-- A survivor set contains all ancestors of its members. -/
theorem SurvivorSet.mem_of_reach (h : SurvivorSet graph sources S) {x y : ExpansionId} (hx : x ∈ S)
    (hxy : ReflTransGen (ParentOf graph) x y) : y ∈ S := by
  induction hxy with
  | refl => exact hx
  | tail _ hp ih =>
    obtain ⟨node, hnode, hp⟩ := hp
    obtain ⟨node', hnode', -, hparents⟩ := h _ ih
    rw [hnode] at hnode'
    cases hnode'
    exact hparents _ hp

/-- An expansion with a missing written invocation takes all its descendants with it. -/
theorem not_mem_survivors_of_missing {x y : ExpansionId} {node : ExpansionNode}
    {unit : SourceUnitId} (hxy : ReflTransGen (ParentOf graph) x y)
    (hnode : graph.expansions[y.index]? = some node) (hwritten : node.writtenInvocation = some unit)
    (hmissing : unit ∉ sources) : x ∉ survivors graph sources := by
  intro hx
  obtain ⟨node', hnode', hw, -⟩ :=
    survivorSet_survivors y (survivorSet_survivors.mem_of_reach hx hxy)
  rw [hnode] at hnode'
  cases hnode'
  exact hmissing (hw unit hwritten)

/-- Expansions that depend on no written source and only on each other survive, cycles of parents
included. -/
theorem mem_survivors_of_sourceFree
    (hfree : ∀ x ∈ S, ∃ node, graph.expansions[x.index]? = some node ∧
      node.writtenInvocation = none ∧ ∀ p ∈ node.parents, p ∈ S) : S ⊆ survivors graph sources := by
  refine fun x hx => ⟨S, fun y hy => ?_, hx⟩
  obtain ⟨node, hnode, hnone, hparents⟩ := hfree y hy
  refine ⟨node, hnode, fun unit hunit => ?_, hparents⟩
  rw [hnone] at hunit
  cases hunit

end Survivors

/-! ## The closure at rest -/

namespace CompilerReachabilityClosure

variable {source : SourceInventory} {sites : SourceSiteOwnerIndex} {graph : DependencyGraph}
variable {delegated : Finset ExpansionId} {componentOf : Nat → Option Nat}
variable {index : CompilerReachabilityIndex} {c : CompilerReachabilityClosure}
variable {nodes : Set GraphNode} {sources : Set SourceUnitId} {dirty late : Finset Nat}
variable {queue : List Nat}

/-- A component that misses nothing survives, once no component is queued. -/
theorem ComponentInv.survives_iff (h : ComponentInv index ∅ c) (hidle : c.pendingComponents = [])
    {k : Nat} (hk : k < index.components.length) : c.componentSurvives k = true ↔
      (∀ u ∈ componentSources index k, c.retainedSources u.index = true) ∧
        ∀ p ∈ componentParents index k, c.componentSurvives p = true := by
  have hs : c.componentMissingSources k = 0 ↔
      ∀ u ∈ componentSources index k, c.retainedSources u.index = true := by
    rw [h.sources, countP_eq_zero]
    simp
  have hp : c.componentMissingParents k = 0 ↔
      ∀ p ∈ componentParents index k, c.componentSurvives p = true := by
    rw [h.parents, countP_eq_zero]
    simp
  rw [← hs, ← hp]
  constructor
  · exact h.sound k
  · rintro ⟨hs, hp⟩
    by_contra hno
    have := h.ready k hk (by simpa using hno) hs hp
    simp [hidle] at this

/-- The components that survive hold the surviving expansions. -/
theorem ComponentInv.mem_survivors (hd : index.Describes source sites graph delegated componentOf)
    (h : ComponentInv index ∅ c) (hidle : c.pendingComponents = [])
    (hsources : ∀ u, c.retainedSources u = true ↔ ⟨u⟩ ∈ sources) (x : ExpansionId) :
    x ∈ survivors graph sources ↔
      ∃ k, componentOf x.index = some k ∧ c.componentSurvives k = true := by
  have hC := hd.components
  -- sources and parents of a component of the index, by its members
  have hsrc : ∀ k u, u ∈ componentSources index k ↔ ∃ y node, componentOf y = some k ∧
      graph.expansions[y]? = some node ∧ node.writtenInvocation = some u := by
    intro k u
    unfold componentSources
    rw [mem_getElem?_getD]
    constructor
    · rintro ⟨f, hf, hu⟩
      exact (hC.sources k f hf u).mp hu
    · rintro ⟨y, node, hy, hnode, hu⟩
      have hf := getElem?_eq_getElem (hC.bound y k hy).2
      exact ⟨_, hf, (hC.sources k _ hf u).mpr ⟨y, node, hy, hnode, hu⟩⟩
  have hpar : ∀ k p, p ∈ componentParents index k ↔ p ≠ k ∧ ∃ y z, componentOf y = some k ∧
      z ∈ expansionParents graph y ∧ componentOf z = some p := by
    intro k p
    unfold componentParents
    rw [mem_getElem?_getD]
    constructor
    · rintro ⟨f, hf, hp⟩
      exact (hC.parents k f hf p).mp hp
    · rintro ⟨hne, y, z, hy, hz, hzp⟩
      have hf := getElem?_eq_getElem (hC.bound y k hy).2
      exact ⟨_, hf, (hC.parents k _ hf p).mpr ⟨hne, y, z, hy, hz, hzp⟩⟩
  have hsucc : ∀ y z, z ∈ expansionParents graph y ↔ ParentOf graph ⟨y⟩ ⟨z⟩ :=
    fun y z => mem_expansionParents
  constructor
  · rintro ⟨S, hS, hx⟩
    obtain ⟨node, hnode, -⟩ := hS x hx
    obtain ⟨k, hk⟩ := hC.total x.index (List.getElem?_eq_some_iff.mp hnode).1
    refine ⟨k, hk, ?_⟩
    -- parents have larger component numbers: induction from the largest number down
    obtain ⟨n, hn⟩ : ∃ n, index.components.length - k = n := ⟨_, rfl⟩
    induction n using Nat.strong_induction_on generalizing x k node with
    | _ n ih =>
      have hmember : ∀ y, componentOf y = some k → (⟨y⟩ : ExpansionId) ∈ S := by
        intro y hy
        refine hS.mem_of_reach hx ?_
        have hreach := hC.reach x.index y k hk hy
        exact hreach.lift ExpansionId.mk fun a b hab => (hsucc a b).mp hab
      rw [h.survives_iff hidle (hC.bound x.index k hk).2]
      constructor
      · intro u hu
        obtain ⟨y, ynode, hy, hynode, hyu⟩ := (hsrc k u).mp hu
        obtain ⟨node', hnode', hwritten, -⟩ := hS _ (hmember y hy)
        rw [hynode] at hnode'
        cases hnode'
        exact (hsources u.index).mpr (hwritten u hyu)
      · intro p hp
        obtain ⟨hne, y, z, hy, hz, hzp⟩ := (hpar k p).mp hp
        obtain ⟨hlt, hplt⟩ := hd.wellFormed.parents_lt k p hp
        have hzS : (⟨z⟩ : ExpansionId) ∈ S :=
          hS.mem_of_reach (hmember y hy) (ReflTransGen.single ((hsucc y z).mp hz))
        obtain ⟨znode, hznode, -⟩ := hS _ hzS
        exact ih (index.components.length - p) (by omega) ⟨z⟩ hzS znode hznode p hzp rfl
  · rintro ⟨k, hk, hs⟩
    refine ⟨{y | ∃ k, componentOf y.index = some k ∧ c.componentSurvives k = true}, ?_, k, hk, hs⟩
    rintro y ⟨k, hk, hs⟩
    obtain ⟨hlt, hklt⟩ := hC.bound y.index k hk
    obtain ⟨hsources', hparents'⟩ := (h.survives_iff hidle hklt).mp hs
    refine ⟨_, getElem?_eq_getElem hlt, fun unit hunit => ?_, fun p hp => ?_⟩
    · exact (hsources unit.index).mp (hsources' unit
        ((hsrc k unit).mpr ⟨_, _, hk, getElem?_eq_getElem hlt, hunit⟩))
    · have hz : p.index ∈ expansionParents graph y.index :=
        mem_expansionParents.mpr ⟨_, getElem?_eq_getElem hlt, hp⟩
      obtain ⟨k', hk', -⟩ := hC.up y.index p.index k hk hz
      refine ⟨k', hk', ?_⟩
      by_cases hkk : k' = k
      · exact hkk ▸ hs
      · exact hparents' k' ((hpar k k').mpr ⟨hkk, _, _, hk, hz, hk'⟩)

/-- The state of a site tells whether all its owners are retained. -/
theorem SiteInv.state_eq_two (hw : index.WellFormed) (h : SiteInv index ∅ c) {s e : Nat}
    (he : e ∈ siteEdges index s) :
    c.siteStates s = 2 ↔ ∀ o ∈ siteOwners index s, c.retainedSources o.index = true := by
  have hlt : s < index.sourceSites.length := by
    by_contra hlt
    simp [siteEdges, getElem?_eq_none_iff.mpr (Nat.le_of_not_lt hlt)] at he
  have hne := length_pos_iff.mpr (hw.owners_ne_nil s hlt)
  have hall : c.siteRetainedOwners s = (siteOwners index s).length ↔
      ∀ o ∈ siteOwners index s, c.retainedSources o.index = true := by
    rw [h.count, countP_eq_length]
  rw [h.current s (Finset.notMem_empty s), ← hall, siteState]
  by_cases h0 : c.siteRetainedOwners s = 0
  · rw [if_pos h0, h0]
    omega
  · by_cases h1 : c.siteRetainedOwners s = (siteOwners index s).length
    · rw [if_neg h0, if_pos h1]
      exact iff_of_true rfl h1
    · rw [if_neg h0, if_neg h1]
      exact iff_of_false (by decide) h1

/-- The site gate of an indexed edge is the site gate of the edge. -/
theorem InvAt.siteGateOpen_iff (hd : index.Describes source sites graph delegated componentOf)
    (h : InvAt index nodes ∅ late queue c)
    (hsources : ∀ u, c.retainedSources u = true ↔ ⟨u⟩ ∈ sources) {e : Nat} {edge : DependencyEdge}
    (he : EdgeDescribes sites index componentOf e edge) :
    c.edgeSiteOpen e = true ↔ SiteGateOpen sites sources edge := by
  rw [h.gate.open_iff e _ he.facts]
  by_cases hu : edge.siteUnconditional = true
  · exact iff_of_true (Or.inl hu) (Or.inl hu)
  refine or_congr_right ?_
  constructor
  · rintro ⟨s, hes, h2⟩
    obtain ⟨-, r, hr, owners, howners, heq⟩ := he.site_range s hes
    refine ⟨r, mem_sourceRanges.mp hr, owners, howners, fun o ho => (hsources o.index).mp ?_⟩
    refine (h.site.state_eq_two hd.wellFormed hes).mp h2 o ?_
    rw [heq, mem_sortDedup]
    exact ho
  · rintro ⟨r, hr, owners, howners, hall⟩
    obtain ⟨s, owners', hes, howners', heq⟩ :=
      he.range_site (by simpa using hu) r (mem_sourceRanges.mpr hr)
    rw [howners] at howners'
    cases howners'
    refine ⟨s, hes, (h.site.state_eq_two hd.wellFormed hes).mpr fun o ho => ?_⟩
    rw [heq, mem_sortDedup] at ho
    exact (hsources o.index).mpr (hall o ho)

/-- The gates of an indexed edge are open when the edge leads to a survivor through an open site
gate. -/
theorem InvAt.enabled_iff (hd : index.Describes source sites graph delegated componentOf)
    (h : InvAt index nodes ∅ ∅ queue c) (hidle : c.pendingComponents = [])
    (hsources : ∀ u, c.retainedSources u = true ↔ ⟨u⟩ ∈ sources) {e : Nat} {edge : DependencyEdge}
    (he : EdgeDescribes sites index componentOf e edge) :
    c.Enabled e (edge.indexed componentOf) ↔ SiteGateOpen sites sources edge ∧
      ∀ x, edge.targetExpansion = some x → x ∈ survivors graph sources := by
  refine and_congr (h.siteGateOpen_iff hd hsources he) ?_
  cases ht : edge.targetExpansion with
  | none => simp [DependencyEdge.indexed, ht]
  | some x =>
    obtain ⟨k, hk⟩ := Option.isSome_iff_exists.mp (he.target (by simp [ht]))
    have hkx : componentOf x.index = some k := by simpa [DependencyEdge.indexed, ht] using hk
    simp only [hk, Option.mem_def, Option.some.injEq, forall_eq']
    rw [h.component.mem_survivors hd hidle hsources x]
    simp [hkx]

/-- At rest, the reachable nodes are the least closed set. -/
theorem Inv.isLeast (hd : index.Describes source sites graph delegated componentOf)
    (h : Inv index nodes c) (hdirty : c.dirtySites = ∅) (hcomponents : c.pendingComponents = [])
    (hnodes : c.pendingNodes = []) (hedges : c.pendingEdges = [])
    (hsources : ∀ u, c.retainedSources u = true ↔ ⟨u⟩ ∈ sources) :
    IsLeast {R | nodes ⊆ R ∧
      ReachabilityClosed sites graph delegated sources (survivors graph sources) R}
      ↑c.reachableNodes := by
  unfold Inv at h
  rw [hdirty] at h
  refine ⟨⟨fun n hn => h.reach.nodes_subset n hn, fun edge hedge hi hfrom hgate hsurv => ?_⟩,
    fun R hR => h.reach.least R hR.1 fun e facts hfacts hfrom hen => ?_⟩
  · obtain ⟨e, -, he⟩ := hd.edge_to edge hedge hi
    have hen := (h.enabled_iff hd hcomponents hsources he).mpr ⟨hgate, hsurv⟩
    rcases h.reach.waiting e _ he.facts hfrom hen.woken with hf | hw | hw
    · exact h.reach.fired e _ he.facts hf
    · simp [hedges] at hw
    · simp [hnodes] at hw
  · obtain ⟨edge, hedge, hi, he⟩ := hd.edge_of e (List.getElem?_eq_some_iff.mp hfacts).1
    rw [he.facts] at hfacts
    cases hfacts
    obtain ⟨hgate, hsurv⟩ := (h.enabled_iff hd hcomponents hsources he).mp hen
    exact hR.2 edge hedge hi hfrom hgate hsurv

end CompilerReachabilityClosure

/-! ## Runs -/

/-- One use of the closure by its caller. -/
inductive ReachabilityCall where
  | addReachable (nodes : List GraphNode)
  | addSources (units : List SourceUnitId)
  | close

namespace ReachabilityCall

/-- The effect of one call on the closure and on the caller's lane. -/
def run (index : CompilerReachabilityIndex) (state : CompilerReachabilityClosure × Lane GraphNode) :
    ReachabilityCall → Except RetentionError (CompilerReachabilityClosure × Lane GraphNode)
  | addReachable nodes => .ok (state.1.addReachable nodes, state.2)
  | addSources units => do
    let c ← CompilerReachabilityClosure.addSources index state.1 units
    return (c, state.2)
  | close => CompilerReachabilityClosure.close index state.1 state.2

/-- Some calls, from the empty closure and an empty lane. -/
def runAll (index : CompilerReachabilityIndex) (calls : List ReachabilityCall) :
    Except RetentionError (CompilerReachabilityClosure × Lane GraphNode) :=
  calls.foldlM (run index) (CompilerReachabilityClosure.new index, ⟨∅, []⟩)

/-- The nodes that the calls add. -/
def addedNodes (calls : List ReachabilityCall) : Set GraphNode :=
  {n | ∃ nodes, addReachable nodes ∈ calls ∧ n ∈ nodes}

/-- The source units that the calls add. -/
def addedSources (calls : List ReachabilityCall) : Set SourceUnitId :=
  {u | ∃ units, addSources units ∈ calls ∧ u ∈ units}

variable {calls : List ReachabilityCall} {call : ReachabilityCall}

@[simp] theorem mem_addedNodes_concat {n : GraphNode} : n ∈ addedNodes (calls ++ [call]) ↔
      n ∈ addedNodes calls ∨ ∃ nodes, call = addReachable nodes ∧ n ∈ nodes := by
  simp only [addedNodes, Set.mem_ofPred_eq, mem_append, mem_singleton, or_and_right, exists_or,
    @eq_comm _ call]

@[simp] theorem mem_addedSources_concat {u : SourceUnitId} : u ∈ addedSources (calls ++ [call]) ↔
      u ∈ addedSources calls ∨ ∃ units, call = addSources units ∧ u ∈ units := by
  simp only [addedSources, Set.mem_ofPred_eq, mem_append, mem_singleton, or_and_right, exists_or,
    @eq_comm _ call]

/-- What holds after some calls. -/
structure RunInv (index : CompilerReachabilityIndex) (calls : List ReachabilityCall)
    (state : CompilerReachabilityClosure × Lane GraphNode) : Prop where
  inv : CompilerReachabilityClosure.Inv index (addedNodes calls) state.1
  sources : ∀ u, state.1.retainedSources u = true ↔ ⟨u⟩ ∈ addedSources calls
  reachable : ∀ n ∈ state.1.reachableNodes, n ∈ addedNodes calls ∨ n ∈ state.2.required
  required : ∀ n ∈ state.2.required, n ∈ state.1.reachableNodes

theorem runInv_nil (index : CompilerReachabilityIndex) :
    RunInv index [] (CompilerReachabilityClosure.new index, ⟨∅, []⟩) := by
  have hnodes : addedNodes [] = ∅ := by simp [addedNodes]
  have hframe : (CompilerReachabilityClosure.new index).retainedSources = (fun _ => false) ∧
      (CompilerReachabilityClosure.new index).reachableNodes = ∅ := by
    unfold CompilerReachabilityClosure.new
    rw [(CompilerReachabilityClosure.QueuedComponents.foldl _ _).frame]
    exact ⟨rfl, rfl⟩
  refine ⟨?_, fun u => ?_, fun n hn => ?_, fun n hn => ?_⟩
  · rw [hnodes]
    exact CompilerReachabilityClosure.inv_new
  · simp [hframe.1, addedSources]
  · simp [hframe.2] at hn
  · simp at hn

variable {index : CompilerReachabilityIndex}

/-- Units that are added are units of the inventory. -/
theorem addSources_ok_lt {c c' : CompilerReachabilityClosure} {units : List SourceUnitId}
    (h : CompilerReachabilityClosure.addSources index c units = .ok c') :
    ∀ u ∈ units, u.index < index.sitesBySource.length := by
  obtain ⟨⟨c₁, late⟩, hrun, -⟩ := bind_ok h
  refine foldlM_ok (P := fun done _ => ∀ u ∈ done, u.index < index.sitesBySource.length) ?_
    (by simp) hrun
  intro done a s t hdone hstep u hu
  rcases mem_append.mp hu with hu | hu
  · exact hdone u hu
  · rw [mem_singleton] at hu
    subst hu
    unfold CompilerReachabilityClosure.addSource at hstep
    exact Nat.not_le.mp (guard_ok hstep).1

/-- Each call keeps the invariant. -/
theorem RunInv.step (hw : index.WellFormed)
    {state state' : CompilerReachabilityClosure × Lane GraphNode} (h : RunInv index calls state)
    (run : call.run index state = .ok state') : RunInv index (calls ++ [call]) state' := by
  cases call with
  | addReachable nodes =>
    cases run
    obtain ⟨r, p, hframe⟩ := CompilerReachabilityClosure.addReachable_frame state.1 nodes
    have hnodes : addedNodes (calls ++ [addReachable nodes]) =
        addedNodes calls ∪ {n | n ∈ nodes} := by
      ext n
      simp
    refine ⟨?_, fun u => ?_, fun n hn => ?_, fun n hn => ?_⟩
    · rw [hnodes]
      exact h.inv.addReachable nodes
    · rw [hframe]
      simpa using h.sources u
    · rw [CompilerReachabilityClosure.mem_reachableNodes_addReachable] at hn
      rcases hn with hn | hn
      · exact Or.inl (by simp [hn])
      · rcases h.reachable n hn with hn | hn
        · exact Or.inl (by simp [hn])
        · exact Or.inr hn
    · rw [CompilerReachabilityClosure.mem_reachableNodes_addReachable]
      exact Or.inr (h.required n hn)
  | addSources units =>
    obtain ⟨c, hc, hrun⟩ := bind_ok run
    cases hrun
    have hnodes : addedNodes (calls ++ [addSources units]) = addedNodes calls := by
      ext n
      simp
    obtain ⟨c', hc', hI, hret, hreach⟩ := h.inv.addSources hw units (addSources_ok_lt hc)
    rw [hc] at hc'
    cases hc'
    refine ⟨by rw [hnodes]; exact hI, fun u => ?_, fun n hn => ?_, fun n hn => ?_⟩
    · simp [hret, h.sources]
    · rw [hnodes]
      exact h.reachable n (hreach ▸ hn)
    · exact hreach ▸ h.required n hn
  | close =>
    have hnodes : addedNodes (calls ++ [close]) = addedNodes calls := by
      ext n
      simp
    rcases h.inv.close hw state.2 with ⟨herr, -⟩ | ⟨s', hs', hI, -, -, hC⟩
    · rw [ReachabilityCall.run, herr] at run
      cases run
    · rw [ReachabilityCall.run, hs'] at run
      cases run
      refine ⟨by rw [hnodes]; exact hI, fun u => ?_, fun n hn => ?_, fun n hn => ?_⟩
      · rw [hC.retained]
        simpa using h.sources u
      · rw [hnodes]
        rcases hC.reachable n hn with hn | hn
        · exact (h.reachable n hn).imp_right fun hn => hC.lane.subset hn
        · exact Or.inr hn
      · rcases hC.required n hn with hn | hn
        · exact hC.grows (h.required n hn)
        · exact hn

/-- After any calls that end with `close` the queues are empty. -/
theorem runAll_close_idle (hw : index.WellFormed) (calls : List ReachabilityCall)
    {c : CompilerReachabilityClosure} {lane : Lane GraphNode}
    (run : runAll index (calls ++ [close]) = .ok (c, lane)) :
    RunInv index (calls ++ [close]) (c, lane) ∧ c.dirtySites = ∅ ∧ c.pendingComponents = [] ∧
      c.pendingNodes = [] ∧ c.pendingEdges = [] := by
  unfold runAll at run
  rw [foldlM_append] at run
  obtain ⟨state, hrun, hlast⟩ := bind_ok run
  have hI : RunInv index calls state :=
    foldlM_ok (P := RunInv index) (fun done a s t hs hstep => hs.step hw hstep) (runInv_nil index)
      hrun
  rw [foldlM_cons] at hlast
  obtain ⟨last, hlast, heq⟩ := bind_ok hlast
  cases heq
  refine ⟨hI.step hw hlast, ?_⟩
  rcases hI.inv.close hw state.2 with ⟨herr, -⟩ | ⟨s', hs', hinv, hidle, hdirty, -⟩
  · rw [ReachabilityCall.run, herr] at hlast
    cases hlast
  · rw [ReachabilityCall.run, hs'] at hlast
    cases hlast
    simp only [CompilerReachabilityClosure.busy, Bool.or_eq_false_iff, Bool.not_eq_false',
      List.isEmpty_iff] at hidle
    exact ⟨hdirty, hidle.1.1, hidle.1.2, hidle.2⟩

theorem addedNodes_close (calls : List ReachabilityCall) :
    addedNodes (calls ++ [close]) = addedNodes calls := by
  ext n
  simp

theorem addedSources_close (calls : List ReachabilityCall) :
    addedSources (calls ++ [close]) = addedSources calls := by
  ext u
  simp

/-- After any calls that end with `close`, the reachable nodes are the least set that contains the
added nodes and is closed under the edges with open gates into surviving expansions, and the
caller's lane has gained all of them that were not added.  Survival is a greatest fixed point: a
set of expansions that depends on no written source survives, and a missing written invocation
takes all descendants of its expansion with it. -/
theorem runAll_close_isLeast {source : SourceInventory} {sites : SourceSiteOwnerIndex}
    {graph : DependencyGraph} {delegated : Finset ExpansionId} {index : CompilerReachabilityIndex}
    (hindex : CompilerReachabilityIndex.new source sites graph delegated = .ok index)
    (calls : List ReachabilityCall) {c : CompilerReachabilityClosure} {lane : Lane GraphNode}
    (run : runAll index (calls ++ [close]) = .ok (c, lane)) :
    IsGreatest {S | SurvivorSet graph (addedSources calls) S}
        (survivors graph (addedSources calls)) ∧
      IsLeast {R | addedNodes calls ⊆ R ∧ ReachabilityClosed sites graph delegated
          (addedSources calls) (survivors graph (addedSources calls)) R} ↑c.reachableNodes ∧
      (∀ n, n ∈ c.reachableNodes ↔ n ∈ addedNodes calls ∨ n ∈ lane.required) ∧
      (∀ S : Set ExpansionId, (∀ x ∈ S, ∃ node, graph.expansions[x.index]? = some node ∧
          node.writtenInvocation = none ∧ ∀ p ∈ node.parents, p ∈ S) →
        S ⊆ survivors graph (addedSources calls)) ∧
      ∀ x y node unit, ReflTransGen (ParentOf graph) x y → graph.expansions[y.index]? = some node →
        node.writtenInvocation = some unit → unit ∉ addedSources calls →
        x ∉ survivors graph (addedSources calls) := by
  obtain ⟨componentOf, -, -, hd⟩ := CompilerReachabilityIndex.new_ok hindex
  obtain ⟨hI, hdirty, hcomponents, hnodes, hedges⟩ := runAll_close_idle hd.wellFormed calls run
  have hinv := hI.inv
  rw [addedNodes_close] at hinv
  have hsources := hI.sources
  rw [addedSources_close] at hsources
  refine ⟨isGreatest_survivors, hinv.isLeast hd hdirty hcomponents hnodes hedges hsources,
    fun n => ⟨fun hn => ?_, ?_⟩, fun S hS => mem_survivors_of_sourceFree hS,
    fun x y node unit hxy hnode hu hm => not_mem_survivors_of_missing hxy hnode hu hm⟩
  · rw [← addedNodes_close calls]
    exact hI.reachable n hn
  · rintro (hn | hn)
    · exact hinv.reach.nodes_subset n hn
    · exact hI.required n hn

/-- A source with one macro invocation. -/
def invocationSource : SourceInventory :=
  { original := ['m', '!']
    units := [
      ⟨⟨0⟩, .crateRoot, ⟨0, 2⟩, none, .active, ⟨0⟩, 0⟩,
      ⟨⟨1⟩, .macroInvocation, ⟨0, 1⟩, some ⟨0⟩, .active, ⟨1⟩, 0⟩]
    pieces := []
    deriveTargets := []
    macroRules := []
    macroTemplates := []
    macroCaptureSlots := []
    macroRepetitions := []
    ownerlessAttributeInvocations := [] }

/-- A definition that uses the expansion of the invocation. -/
def invocationGraph : DependencyGraph :=
  { definitions := ⟨[], [], []⟩
    expansions := [⟨⟨0⟩, .macroCall .bang "m", none, none, none, none, some ⟨1⟩, none, none⟩]
    proofs := []
    monoNodes := []
    edges := [⟨.definition ⟨0⟩, .expansion ⟨0⟩, .expansionUse, [.source ⟨0, 1⟩]⟩]
    roots := [] }

theorem invocation_runAll_close : ∃ sites index c lane,
    SourceSiteOwnerIndex.new invocationSource = .ok sites ∧
    CompilerReachabilityIndex.new invocationSource sites invocationGraph ∅ = .ok index ∧
    runAll index ([addReachable [.definition ⟨0⟩], addSources [⟨1⟩]] ++ [close]) = .ok (c, lane) ∧
    lane.newly = [.expansion ⟨0⟩] ∧
    IsLeast {R | addedNodes [addReachable [.definition ⟨0⟩], addSources [⟨1⟩]] ⊆ R ∧
      ReachabilityClosed sites invocationGraph ∅
        (addedSources [addReachable [.definition ⟨0⟩], addSources [⟨1⟩]])
        (survivors invocationGraph
          (addedSources [addReachable [.definition ⟨0⟩], addSources [⟨1⟩]])) R}
      ↑c.reachableNodes := by
  have hrun : ∃ sites index c lane, SourceSiteOwnerIndex.new invocationSource = .ok sites ∧
      CompilerReachabilityIndex.new invocationSource sites invocationGraph ∅ = .ok index ∧
      runAll index ([addReachable [.definition ⟨0⟩], addSources [⟨1⟩]] ++ [close]) =
        .ok (c, lane) ∧ lane.newly = [.expansion ⟨0⟩] := ⟨_, _, _, _, rfl, rfl, rfl, rfl⟩
  obtain ⟨sites, index, c, lane, hsites, hindex, hrun, hlane⟩ := hrun
  exact ⟨sites, index, c, lane, hsites, hindex, hrun, hlane,
    (runAll_close_isLeast hindex _ hrun).2.1⟩

end ReachabilityCall

end ItemDependencies
