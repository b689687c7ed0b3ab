import ItemDependencies.Library.Counting
import ItemDependencies.Retention.Reachability

/-!
# What the reachability closure maintains

Each counter of the closure is the number of missing facts of its kind, each
gate that has opened has been noticed or waits in a queue, and the reachable
nodes are justified by edges that have fired.
-/

namespace ItemDependencies

open Library List CompilerReachabilityClosure

/-- The reverse tables of an index agree with its forward tables. -/
structure CompilerReachabilityIndex.WellFormed (index : CompilerReachabilityIndex) : Prop where
  owners_nodup : ∀ s, (siteOwners index s).Nodup
  owners_ne_nil : ∀ s < index.sourceSites.length, siteOwners index s ≠ []
  owners_lt : ∀ s, ∀ o ∈ siteOwners index s, o.index < index.sitesBySource.length
  siteEdges_nodup : ∀ s, (siteEdges index s).Nodup
  siteEdges_lt : ∀ s, ∀ e ∈ siteEdges index s, e < index.edges.length
  sites_nodup : ∀ u, (index.sitesBySource.getD u []).Nodup
  mem_sites : ∀ u s, s ∈ index.sitesBySource.getD u [] ↔ ⟨u⟩ ∈ siteOwners index s
  componentSources_nodup : ∀ k, (componentSources index k).Nodup
  componentsBySource_nodup : ∀ u, (index.componentsBySource.getD u []).Nodup
  mem_componentsBySource : ∀ u k, k ∈ index.componentsBySource.getD u [] ↔
    ⟨u⟩ ∈ componentSources index k
  parents_nodup : ∀ k, (componentParents index k).Nodup
  parents_lt : ∀ k, ∀ p ∈ componentParents index k, k < p ∧ p < index.components.length
  children_nodup : ∀ k, (CompilerReachabilityClosure.componentChildren index k).Nodup
  mem_children : ∀ p k, k ∈ CompilerReachabilityClosure.componentChildren index p ↔
    p ∈ componentParents index k
  mem_edgesByFrom : ∀ n e, e ∈ index.edgesByFrom n ↔
    ∃ facts, index.edges[e]? = some facts ∧ facts.fromNode = n
  mem_targetEdges : ∀ k e, e ∈ targetEdges index k ↔
    ∃ facts, index.edges[e]? = some facts ∧ facts.targetComponent = some k

namespace CompilerReachabilityClosure

variable {index : CompilerReachabilityIndex} {c c' : CompilerReachabilityClosure}

/-! ## Queueing edges -/

/-- Some edges have been queued, unless they had fired or were waiting already. -/
structure Queued (edges : List Nat) (c c' : CompilerReachabilityClosure) : Prop where
  frame : c' = { c with edgePending := c'.edgePending, pendingEdges := c'.pendingEdges }
  keeps : ∀ e ∈ c.pendingEdges, e ∈ c'.pendingEdges
  only : ∀ e ∈ c'.pendingEdges, e ∈ c.pendingEdges ∨ e ∈ edges
  queued : (∀ e, c.edgePending e = true ↔ e ∈ c.pendingEdges) →
    ∀ e ∈ edges, c.edgeFired e = true ∨ e ∈ c'.pendingEdges
  flags : (∀ e, c.edgePending e = true ↔ e ∈ c.pendingEdges) →
    ∀ e, c'.edgePending e = true ↔ e ∈ c'.pendingEdges
  nodup : (∀ e, c.edgePending e = true ↔ e ∈ c.pendingEdges) → c.pendingEdges.Nodup →
    c'.pendingEdges.Nodup

theorem Queued.nil (c : CompilerReachabilityClosure) : Queued [] c c :=
  ⟨rfl, fun _ h => h, fun _ h => Or.inl h, fun _ _ h => absurd h not_mem_nil, fun h => h,
    fun _ h => h⟩

theorem Queued.queueEdge (c : CompilerReachabilityClosure) (e : Nat) :
    Queued [e] c (c.queueEdge e) := by
  unfold CompilerReachabilityClosure.queueEdge
  split
  · rename_i he
    simp only [Bool.and_eq_true, Bool.not_eq_true'] at he
    refine ⟨rfl, fun d hd => mem_append_left _ hd, fun d hd => mem_append.mp hd,
      fun _ d hd => Or.inr (mem_append_right _ hd), fun h d => ?_, fun h hn => ?_⟩
    · by_cases hde : d = e <;> simp [hde, h d]
    · refine nodup_append'.mpr ⟨hn, nodup_singleton e, fun d hd hde => ?_⟩
      rw [mem_singleton] at hde
      rw [hde, ← h, he.2] at hd
      cases hd
  · rename_i he
    refine ⟨rfl, fun _ h => h, fun _ h => Or.inl h, fun h d hd => ?_, fun h => h, fun _ h => h⟩
    rw [mem_singleton] at hd
    subst hd
    rw [← h]
    simp only [Bool.and_eq_true, Bool.not_eq_true', not_and, Bool.not_eq_false] at he
    cases hf : c.edgeFired d with
    | true => exact Or.inl rfl
    | false => exact Or.inr (he hf)

theorem Queued.append {es ds : List Nat} {c'' : CompilerReachabilityClosure}
    (h : Queued es c c') (h' : Queued ds c' c'') : Queued (es ++ ds) c c'' where
  frame := by rw [h'.frame, h.frame]
  keeps e he := h'.keeps e (h.keeps e he)
  only e he := by
    rcases h'.only e he with he | he
    · exact (h.only e he).imp_right (mem_append_left _)
    · exact Or.inr (mem_append_right _ he)
  queued hf e he := by
    rcases mem_append.mp he with he | he
    · exact (h.queued hf e he).imp_right (h'.keeps e)
    · have hfired : c'.edgeFired = c.edgeFired := by rw [h.frame]
      rw [← hfired]
      exact h'.queued (h.flags hf) e he
  flags hf := h'.flags (h.flags hf)
  nodup hf hn := h'.nodup (h.flags hf) (h.nodup hf hn)

theorem Queued.foldl (edges : List Nat) (c : CompilerReachabilityClosure) :
    Queued edges c (edges.foldl CompilerReachabilityClosure.queueEdge c) := by
  induction edges generalizing c with
  | nil => exact Queued.nil c
  | cons e edges ih => exact (Queued.queueEdge c e).append (ih _)

/-! ## The invariant -/

/-- The retained owners of the sites are counted, and the states of all sites but the dirty ones
are up to date. -/
structure SiteInv (index : CompilerReachabilityIndex) (dirty : Finset Nat)
    (c : CompilerReachabilityClosure) : Prop where
  count : ∀ s, c.siteRetainedOwners s =
    (siteOwners index s).countP fun o => c.retainedSources o.index
  current : ∀ s, s ∉ dirty →
    c.siteStates s = siteState (c.siteRetainedOwners s) (siteOwners index s).length
  le_current : ∀ s, c.siteStates s ≤ siteState (c.siteRetainedOwners s) (siteOwners index s).length

/-- The edges know the states of their sites. -/
structure GateInv (index : CompilerReachabilityIndex) (c : CompilerReachabilityClosure) : Prop where
  open_iff : ∀ e facts, index.edges[e]? = some facts → (c.edgeSiteOpen e = true ↔
    facts.siteUnconditional = true ∨ ∃ s, e ∈ siteEdges index s ∧ c.siteStates s = 2)
  partialCount : ∀ e, c.edgePartialSites e =
    (List.range index.sourceSites.length).countP fun s =>
      decide (e ∈ siteEdges index s) && c.siteStates s == 1

/-- The components know what they miss, and those that miss nothing survive, are queued or are
about to be queued (`late`). -/
structure ComponentInv (index : CompilerReachabilityIndex) (late : Finset Nat)
    (c : CompilerReachabilityClosure) : Prop where
  sources : ∀ k, c.componentMissingSources k =
    (componentSources index k).countP fun u => !c.retainedSources u.index
  parents : ∀ k, c.componentMissingParents k =
    (componentParents index k).countP fun p => !c.componentSurvives p
  sound : ∀ k, c.componentSurvives k = true →
    c.componentMissingSources k = 0 ∧ c.componentMissingParents k = 0
  ready : ∀ k < index.components.length, c.componentSurvives k = false →
    c.componentMissingSources k = 0 → c.componentMissingParents k = 0 →
    k ∈ c.pendingComponents ∨ k ∈ late
  bound : ∀ k ∈ c.pendingComponents, k < index.components.length

/-- The flags of waiting edges agree with the queue. -/
structure QueueInv (index : CompilerReachabilityIndex) (queue : List Nat)
    (c : CompilerReachabilityClosure) : Prop where
  flags : ∀ e, c.edgePending e = true ↔ e ∈ queue
  nodup : queue.Nodup
  bound : ∀ e ∈ queue, e < index.edges.length

/-- The gates of an edge are open. -/
def Enabled (c : CompilerReachabilityClosure) (e : Nat) (facts : IndexedCompilerEdge) : Prop :=
  c.edgeSiteOpen e = true ∧ ∀ k ∈ facts.targetComponent, c.componentSurvives k = true

/-- An edge that has to be looked at: its target survives, and one of its sites is retained, if
only in part. -/
def Woken (c : CompilerReachabilityClosure) (e : Nat) (facts : IndexedCompilerEdge) : Prop :=
  (c.edgeSiteOpen e = true ∨ c.edgePartialSites e ≠ 0) ∧
    ∀ k ∈ facts.targetComponent, c.componentSurvives k = true

theorem Enabled.woken {e : Nat} {facts : IndexedCompilerEdge} (h : c.Enabled e facts) :
    c.Woken e facts := ⟨Or.inl h.1, h.2⟩

/-- A set of nodes is closed under the edges whose gates are open. -/
def ClosedUnder (index : CompilerReachabilityIndex) (c : CompilerReachabilityClosure)
    (R : Set GraphNode) : Prop :=
  ∀ e facts, index.edges[e]? = some facts → facts.fromNode ∈ R → c.Enabled e facts →
    facts.toNode ∈ R

/-- The reachable nodes are those that the added nodes lead to, up to the edges that wait. -/
structure ReachInv (index : CompilerReachabilityIndex) (nodes : Set GraphNode) (queue : List Nat)
    (c : CompilerReachabilityClosure) : Prop where
  nodes_subset : ∀ n ∈ nodes, n ∈ c.reachableNodes
  least : ∀ R : Set GraphNode, nodes ⊆ R → ClosedUnder index c R → ↑c.reachableNodes ⊆ R
  fired : ∀ e facts, index.edges[e]? = some facts → c.edgeFired e = true →
    facts.toNode ∈ c.reachableNodes
  waiting : ∀ e facts, index.edges[e]? = some facts → facts.fromNode ∈ c.reachableNodes →
    c.Woken e facts → c.edgeFired e = true ∨ e ∈ queue ∨ facts.fromNode ∈ c.pendingNodes

/-- Everything that the closure maintains, while some sites are dirty, some components are about
to be queued and some edges wait. -/
structure InvAt (index : CompilerReachabilityIndex) (nodes : Set GraphNode)
    (dirty late : Finset Nat) (queue : List Nat) (c : CompilerReachabilityClosure) : Prop where
  site : SiteInv index dirty c
  gate : GateInv index c
  component : ComponentInv index late c
  pending : QueueInv index queue c
  reach : ReachInv index nodes queue c

/-- What the closure maintains between two of its operations. -/
def Inv (index : CompilerReachabilityIndex) (nodes : Set GraphNode)
    (c : CompilerReachabilityClosure) : Prop :=
  InvAt index nodes c.dirtySites ∅ c.pendingEdges c

variable {nodes : Set GraphNode} {dirty late : Finset Nat} {queue : List Nat}

/-- A set that is closed under many edges is closed under fewer. -/
theorem ClosedUnder.mono {R : Set GraphNode} (h : ClosedUnder index c' R)
    (hopen : ∀ e, c.edgeSiteOpen e = true → c'.edgeSiteOpen e = true)
    (hsurvives : ∀ k, c.componentSurvives k = true → c'.componentSurvives k = true) :
    ClosedUnder index c R :=
  fun e facts he hR hen => h e facts he hR ⟨hopen e hen.1, fun k hk => hsurvives k (hen.2 k hk)⟩

/-! ## The empty closure -/

/-- Some components have been queued if they miss nothing. -/
structure QueuedComponents (ks : List Nat) (c c' : CompilerReachabilityClosure) : Prop where
  frame : c' = { c with pendingComponents := c'.pendingComponents }
  keeps : ∀ k ∈ c.pendingComponents, k ∈ c'.pendingComponents
  only : ∀ k ∈ c'.pendingComponents, k ∈ c.pendingComponents ∨ k ∈ ks
  queued : ∀ k ∈ ks, c.componentSurvives k = false → c.componentMissingSources k = 0 →
    c.componentMissingParents k = 0 → k ∈ c'.pendingComponents

theorem QueuedComponents.foldl (ks : List Nat) (c : CompilerReachabilityClosure) :
    QueuedComponents ks c (ks.foldl queueComponentIfReady c) := by
  induction ks generalizing c with
  | nil => exact ⟨rfl, fun _ h => h, fun _ h => Or.inl h, fun _ h => absurd h not_mem_nil⟩
  | cons k ks ih =>
    have h := ih (c.queueComponentIfReady k)
    rw [foldl_cons]
    by_cases hk : c.componentSurvives k = false ∧ c.componentMissingSources k = 0 ∧
        c.componentMissingParents k = 0
    · have he : c.queueComponentIfReady k =
          { c with pendingComponents := c.pendingComponents ++ [k] } := by
        simp [queueComponentIfReady, hk]
      rw [he] at h ⊢
      refine ⟨h.frame, fun d hd => h.keeps d (by simp [hd]), fun d hd => ?_,
        fun d hd h₁ h₂ h₃ => ?_⟩
      · have := h.only d hd
        simp only [mem_append, mem_singleton] at this
        simp only [mem_cons]
        tauto
      · rcases mem_cons.mp hd with rfl | hd
        · exact h.keeps _ (by simp)
        · exact h.queued d hd h₁ h₂ h₃
    · have he : c.queueComponentIfReady k = c := by
        unfold queueComponentIfReady
        rw [if_neg]
        simpa [and_assoc] using hk
      rw [he] at h ⊢
      refine ⟨h.frame, h.keeps, fun d hd => (h.only d hd).imp_right (mem_cons_of_mem _),
        fun d hd h₁ h₂ h₃ => ?_⟩
      rcases mem_cons.mp hd with rfl | hd
      · exact absurd ⟨h₁, h₂, h₃⟩ hk
      · exact h.queued d hd h₁ h₂ h₃

theorem InvAt.queueComponents (ks : List Nat) (hks : ∀ k ∈ ks, k < index.components.length)
    (h : InvAt index nodes dirty ks.toFinset queue c) :
    InvAt index nodes dirty ∅ queue (ks.foldl queueComponentIfReady c) := by
  have hq := QueuedComponents.foldl ks c
  generalize ks.foldl queueComponentIfReady c = c' at hq
  rw [hq.frame]
  refine ⟨⟨h.site.count, h.site.current, h.site.le_current⟩, ⟨h.gate.open_iff, h.gate.partialCount⟩,
    ⟨h.component.sources, h.component.parents, h.component.sound, fun k hk h₁ h₂ h₃ => ?_,
      fun k hk => ?_⟩, ⟨h.pending.flags, h.pending.nodup, h.pending.bound⟩,
    ⟨h.reach.nodes_subset, h.reach.least, h.reach.fired, h.reach.waiting⟩⟩
  · refine Or.inl ?_
    rcases h.component.ready k hk h₁ h₂ h₃ with hp | hl
    · exact hq.keeps k hp
    · exact hq.queued k (mem_toFinset.mp hl) h₁ h₂ h₃
  · rcases hq.only k hk with hp | hl
    · exact h.component.bound k hp
    · exact hks k hl

theorem inv_new : Inv index ∅ (new index) := by
  have hlist : (List.range index.components.length).foldl queueComponentIfReady _ = new index := rfl
  unfold Inv
  have hdirty : (new index).dirtySites = ∅ := by
    rw [← hlist, (QueuedComponents.foldl _ _).frame]
  have hqueue : (new index).pendingEdges = [] := by
    rw [← hlist, (QueuedComponents.foldl _ _).frame]
  rw [hdirty, hqueue, ← hlist]
  refine InvAt.queueComponents _ (fun k hk => mem_range.mp hk) ?_
  refine ⟨⟨fun s => ?_, fun s _ => ?_, fun s => ?_⟩, ⟨fun e facts he => ?_, fun e => ?_⟩,
    ⟨fun k => ?_, fun k => ?_, fun k hk => ?_, fun k hk _ _ _ => ?_, fun k hk => ?_⟩,
    ⟨fun e => ?_, nodup_nil, fun e he => ?_⟩, ⟨fun n hn => ?_, fun R _ _ n hn => ?_,
      fun e facts _ hf => ?_, fun e facts _ hn _ => ?_⟩⟩
  · simp
  · simp [siteState]
  · simp
  · simp [he]
  · simp
  · simp
  · simp
  · simp at hk
  · exact Or.inr (mem_toFinset.mpr (mem_range.mpr hk))
  · simp at hk
  · simp
  · simp at he
  · simp at hn
  · simp at hn
  · simp at hf
  · simp at hn

/-! ## Adding nodes -/

theorem InvAt.addNode (h : InvAt index nodes dirty late queue c) (n : GraphNode) :
    InvAt index (insert n nodes) dirty late queue (c.addNode n) := by
  by_cases hn : n ∈ c.reachableNodes
  · have he : c.addNode n = c := if_pos hn
    rw [he]
    refine ⟨h.site, h.gate, h.component, h.pending, fun m hm => ?_,
      fun R hR hc => ?_, h.reach.fired,
      h.reach.waiting⟩
    · rcases hm with rfl | hm
      · exact hn
      · exact h.reach.nodes_subset m hm
    · exact h.reach.least R (fun m hm => hR (Or.inr hm)) hc
  · have he : c.addNode n =
        { c with
          reachableNodes := insert n c.reachableNodes
          pendingNodes := c.pendingNodes ++ [n] } := if_neg hn
    rw [he]
    refine ⟨⟨h.site.count, h.site.current, h.site.le_current⟩,
      ⟨h.gate.open_iff, h.gate.partialCount⟩,
      ⟨h.component.sources, h.component.parents, h.component.sound, h.component.ready,
        h.component.bound⟩, ⟨h.pending.flags, h.pending.nodup, h.pending.bound⟩, fun m hm => ?_,
      fun R hR hc m hm => ?_, fun e facts hf hfired => ?_, fun e facts hf hm hen => ?_⟩
    · rcases hm with rfl | hm
      · exact Finset.mem_insert_self _ _
      · exact Finset.mem_insert_of_mem (h.reach.nodes_subset m hm)
    · rcases Finset.mem_insert.mp (Finset.mem_coe.mp hm) with rfl | hm
      · exact hR (Or.inl rfl)
      · exact h.reach.least R (fun m hm => hR (Or.inr hm)) hc hm
    · exact Finset.mem_insert_of_mem (h.reach.fired e facts hf hfired)
    · rcases Finset.mem_insert.mp hm with hm | hm
      · exact Or.inr (Or.inr (by simp [hm]))
      · rcases h.reach.waiting e facts hf hm hen with hw | hw | hw
        · exact Or.inl hw
        · exact Or.inr (Or.inl hw)
        · exact Or.inr (Or.inr (by simp [hw]))

/-- Adding a node leaves all but the nodes alone. -/
theorem addNode_frame (c : CompilerReachabilityClosure) (n : GraphNode) :
    ∃ reachable pending,
      c.addNode n = { c with reachableNodes := reachable, pendingNodes := pending } := by
  unfold addNode
  split
  · exact ⟨_, _, rfl⟩
  · exact ⟨_, _, rfl⟩

theorem addReachable_frame (c : CompilerReachabilityClosure) (ns : List GraphNode) :
    ∃ reachable pending,
      c.addReachable ns = { c with reachableNodes := reachable, pendingNodes := pending } := by
  induction ns generalizing c with
  | nil => exact ⟨_, _, rfl⟩
  | cons n ns ih =>
    obtain ⟨r, p, h⟩ := addNode_frame c n
    obtain ⟨r', p', h'⟩ := ih (c.addNode n)
    rw [h] at h'
    exact ⟨r', p', by rw [addReachable, foldl_cons, h]; exact h'⟩

@[simp] theorem mem_reachableNodes_addNode {n m : GraphNode} :
    m ∈ (c.addNode n).reachableNodes ↔ m = n ∨ m ∈ c.reachableNodes := by
  unfold addNode
  split
  · rename_i hn
    constructor
    · exact Or.inr
    · rintro (rfl | hm)
      · exact hn
      · exact hm
  · exact Finset.mem_insert

@[simp] theorem mem_reachableNodes_addReachable {ns : List GraphNode} {m : GraphNode} :
    m ∈ (c.addReachable ns).reachableNodes ↔ m ∈ ns ∨ m ∈ c.reachableNodes := by
  induction ns generalizing c with
  | nil => simp [addReachable]
  | cons n ns ih =>
    have := ih (c := c.addNode n)
    rw [addReachable] at this
    rw [addReachable, foldl_cons, this, mem_reachableNodes_addNode, mem_cons]
    tauto

theorem Inv.addReachable (h : Inv index nodes c) (ns : List GraphNode) :
    Inv index (nodes ∪ {n | n ∈ ns}) (c.addReachable ns) := by
  have key : InvAt index (nodes ∪ {n | n ∈ ns}) c.dirtySites ∅ c.pendingEdges
      (c.addReachable ns) := by
    unfold Inv at h
    generalize c.dirtySites = dirty, c.pendingEdges = queue at h
    induction ns generalizing c nodes with
    | nil => simpa [addReachable] using h
    | cons n ns ih =>
      have := ih (h.addNode n)
      have he : nodes ∪ {m | m ∈ n :: ns} = insert n nodes ∪ {m | m ∈ ns} := by
        ext m
        simp only [Set.mem_union, Set.mem_ofPred_eq, mem_cons, Set.mem_insert_iff]
        tauto
      rw [he]
      exact this
  obtain ⟨r, p, hf⟩ := addReachable_frame c ns
  rw [hf] at key ⊢
  exact key

/-! ## Adding sources -/

theorem foldl_countSiteOwner {l : List Nat} (hl : l.Nodup) (c : CompilerReachabilityClosure) :
    l.foldl countSiteOwner c =
      { c with
        siteRetainedOwners := fun s => c.siteRetainedOwners s + if s ∈ l then 1 else 0
        dirtySites := c.dirtySites ∪ l.toFinset } := by
  induction l generalizing c with
  | nil => simp
  | cons a l ih =>
    obtain ⟨ha, hl⟩ := nodup_cons.mp hl
    rw [foldl_cons, ih hl]
    simp only [countSiteOwner, CompilerReachabilityClosure.mk.injEq, true_and, and_true]
    refine ⟨funext fun s => ?_, ?_⟩
    · by_cases hs : s = a
      · subst hs
        simp [ha]
      · simp [hs]
    · ext s
      simp

theorem foldlM_countComponentSource {l : List Nat} (hl : l.Nodup)
    (c : CompilerReachabilityClosure) (h : ∀ k ∈ l, c.componentMissingSources k ≠ 0) :
    l.foldlM countComponentSource c = .ok
      { c with
        componentMissingSources := fun k =>
          c.componentMissingSources k - if k ∈ l then 1 else 0 } := by
  induction l generalizing c with
  | nil => simp [pure, Except.pure]
  | cons a l ih =>
    obtain ⟨ha, hl⟩ := nodup_cons.mp hl
    have hstep : countComponentSource c a = .ok
        { c with
          componentMissingSources := Function.update c.componentMissingSources a
            (c.componentMissingSources a - 1) } := if_neg (h a (by simp))
    rw [foldlM_cons, hstep]
    refine (ih hl _ fun k hk => ?_).trans ?_
    · have hka : k ≠ a := fun hka => ha (hka ▸ hk)
      simpa [hka] using h k (by simp [hk])
    · congr 2
      funext k
      by_cases hk : k = a
      · subst hk
        simp [ha]
      · simp [hk]

theorem siteState_mono {a b n : Nat} (hab : a ≤ b) (hb : b ≤ n) :
    siteState a n ≤ siteState b n := by
  unfold siteState
  split_ifs <;> omega

/-- A site has no more retained owners than owners. -/
theorem SiteInv.count_le (h : SiteInv index dirty c) (s : Nat) :
    c.siteRetainedOwners s ≤ (siteOwners index s).length := by
  rw [h.count]
  exact countP_le_length

theorem sourceUnitId_injective : Function.Injective SourceUnitId.index := by
  intro a b h
  cases a
  cases b
  exact congrArg _ h

/-- Retaining a unit that is in range cannot fail, and keeps the invariant. -/
theorem InvAt.addSource (hw : index.WellFormed) (h : InvAt index nodes c.dirtySites late queue c)
    {unit : SourceUnitId} (hu : unit.index < index.sitesBySource.length) :
    ∃ c' late', CompilerReachabilityClosure.addSource index (c, late) unit = .ok (c', late') ∧
      InvAt index nodes c'.dirtySites late' queue c' ∧
      c'.retainedSources = Function.update c.retainedSources unit.index true ∧
      late ⊆ late' ∧ (∀ k ∈ late', k ∈ late ∨ k < index.components.length) ∧
      c'.reachableNodes = c.reachableNodes ∧ c'.pendingEdges = c.pendingEdges := by
  have hnot : ¬index.sitesBySource.length ≤ unit.index := by omega
  by_cases hr : c.retainedSources unit.index = true
  · refine ⟨c, late, by simp [CompilerReachabilityClosure.addSource, hnot, hr, pure, Except.pure],
      h, ?_, subset_rfl, fun k hk => Or.inl hk, rfl, rfl⟩
    rw [← hr, Function.update_eq_self]
  rw [Bool.not_eq_true] at hr
  set sites := index.sitesBySource.getD unit.index [] with hsites
  set components := index.componentsBySource.getD unit.index [] with hcomponents
  have hmiss : ∀ k ∈ components, c.componentMissingSources k ≠ 0 := by
    intro k hk
    rw [h.component.sources k]
    refine countP_pos_iff.mpr ?_ |>.ne'
    exact ⟨unit, (hw.mem_componentsBySource unit.index k).mp hk, by simp [hr]⟩
  have hrun : CompilerReachabilityClosure.addSource index (c, late) unit = .ok
      ({ c with
        retainedSources := Function.update c.retainedSources unit.index true
        siteRetainedOwners := fun s => c.siteRetainedOwners s + if s ∈ sites then 1 else 0
        dirtySites := c.dirtySites ∪ sites.toFinset
        componentMissingSources := fun k =>
          c.componentMissingSources k - if k ∈ components then 1 else 0 },
        late ∪ components.toFinset) := by
    unfold CompilerReachabilityClosure.addSource
    simp only [hnot, hr, if_false, Bool.false_eq_true]
    rw [foldl_countSiteOwner (hw.sites_nodup _),
      foldlM_countComponentSource (hw.componentsBySource_nodup _)]
    · rfl
    · exact hmiss
  refine ⟨_, _, hrun, ⟨⟨fun s => ?_, fun s hs => ?_, fun s => ?_⟩,
    ⟨h.gate.open_iff, h.gate.partialCount⟩, ⟨fun k => ?_, h.component.parents, fun k hk => ?_,
      fun k hk h₁ h₂ h₃ => ?_, h.component.bound⟩,
    ⟨h.pending.flags, h.pending.nodup, h.pending.bound⟩,
    ⟨h.reach.nodes_subset, h.reach.least, h.reach.fired, h.reach.waiting⟩⟩, rfl,
    Finset.subset_union_left, fun k hk => ?_, rfl, rfl⟩
  · have := countP_arrived (hw.owners_nodup s) _ sourceUnitId_injective hr
    rw [this, ← h.site.count]
    simp only [hsites, hw.mem_sites]
  · simp only [Finset.mem_union, mem_toFinset, not_or] at hs
    simpa [hs.2] using h.site.current s hs.1
  · refine (h.site.le_current s).trans (siteState_mono (Nat.le_add_right _ _) ?_)
    have := countP_arrived (hw.owners_nodup s) _ sourceUnitId_injective hr
    rw [← h.site.count] at this
    simp only [hsites, hw.mem_sites]
    rw [← this]
    exact countP_le_length
  · have := countP_missing (hw.componentSources_nodup k) _ sourceUnitId_injective hr
    rw [this, ← h.component.sources]
    simp only [hcomponents, hw.mem_componentsBySource]
  · obtain ⟨h₁, h₂⟩ := h.component.sound k hk
    exact ⟨by simp [h₁], h₂⟩
  · by_cases hkc : k ∈ components
    · exact Or.inr (by simp [hkc])
    · rcases h.component.ready k hk h₁ (by simpa [hkc] using h₂) h₃ with hp | hl
      · exact Or.inl hp
      · exact Or.inr (Finset.mem_union_left _ hl)
  · rcases Finset.mem_union.mp hk with hk | hk
    · exact Or.inl hk
    · refine Or.inr ?_
      have := (hw.mem_componentsBySource unit.index k).mp (mem_toFinset.mp hk)
      by_contra hlt
      simp [componentSources, getElem?_eq_none_iff.mpr (Nat.le_of_not_lt hlt)] at this

/-- Retaining units that are in range cannot fail. -/
theorem InvAt.addSources (hw : index.WellFormed) (units : List SourceUnitId)
    (hu : ∀ u ∈ units, u.index < index.sitesBySource.length)
    (hlate : ∀ k ∈ late, k < index.components.length)
    (h : InvAt index nodes c.dirtySites late c.pendingEdges c) :
    ∃ c' late', units.foldlM (CompilerReachabilityClosure.addSource index) (c, late) =
        .ok (c', late') ∧
      InvAt index nodes c'.dirtySites late' c'.pendingEdges c' ∧
      (∀ u, c'.retainedSources u = true ↔ c.retainedSources u = true ∨ ⟨u⟩ ∈ units) ∧
      (∀ k ∈ late', k < index.components.length) ∧ c'.reachableNodes = c.reachableNodes := by
  induction units generalizing c late with
  | nil => exact ⟨c, late, rfl, h, by simp, hlate, rfl⟩
  | cons unit units ih =>
    obtain ⟨c₁, late₁, hrun, hI, hret, -, hlate₁, hreach, hedges⟩ :=
      h.addSource hw (hu unit (by simp))
    rw [← hedges] at hI
    obtain ⟨c₂, late₂, hrun₂, hI₂, hret₂, hlate₂, hreach₂⟩ :=
      ih (fun u hm => hu u (by simp [hm])) (fun k hk => (hlate₁ k hk).elim (hlate k) id) hI
    refine ⟨c₂, late₂, ?_, hI₂, fun u => ?_, hlate₂, hreach₂.trans hreach⟩
    · rw [foldlM_cons, hrun]
      exact hrun₂
    · rw [hret₂, hret]
      by_cases hu' : u = unit.index
      · subst hu'
        simp
      · have hne : (⟨u⟩ : SourceUnitId) ≠ unit := fun he => hu' (by rw [← he])
        simp [hu', hne]

theorem Inv.addSources (hw : index.WellFormed) (h : Inv index nodes c) (units : List SourceUnitId)
    (hu : ∀ u ∈ units, u.index < index.sitesBySource.length) :
    ∃ c', CompilerReachabilityClosure.addSources index c units = .ok c' ∧ Inv index nodes c' ∧
      (∀ u, c'.retainedSources u = true ↔ c.retainedSources u = true ∨ ⟨u⟩ ∈ units) ∧
      c'.reachableNodes = c.reachableNodes := by
  obtain ⟨c₁, late, hrun, hI, hret, hlate, hreach⟩ := InvAt.addSources hw units hu (by simp) h
  have hq := QueuedComponents.foldl (ascending late) c₁
  refine ⟨(ascending late).foldl queueComponentIfReady c₁, ?_, ?_, ?_, ?_⟩
  · unfold CompilerReachabilityClosure.addSources
    rw [hrun]
    rfl
  · have := InvAt.queueComponents (ascending late) (by simpa using hlate) (by simpa using hI)
    rw [hq.frame] at this ⊢
    exact this
  · rw [hq.frame]
    exact hret
  · rw [hq.frame]
    exact hreach

end CompilerReachabilityClosure

end ItemDependencies
