import ItemDependencies.Retention.MacroSteps

/-!
# Counting contributors and materializing groups

The steps that change counters: a retained source unit, a complete contributor
and a meaningful producer.
-/

namespace ItemDependencies

open Library RetentionClosure RetentionState List Function

variable {products : ValidatedMacroProducts} {members : ValidatedCompilerMemberConstraints}
  {loud : Prop} {facts bound done added : Set MacroFact} {s t u : RetentionState} {x : MacroFact}
  {complete : Finset Nat} {node group : Nat}

/-! ## Loops over counters -/

/-- What a loop does that takes one from a counter of each node and queues the nodes that are ready
then. -/
theorem foldl_count {step : RetentionClosure → Nat → RetentionClosure}
    (get : RetentionClosure → Nat → Nat) (ready : RetentionClosure → Nat → Nat → Bool)
    (set : (Nat → Nat) → List Nat → RetentionClosure → RetentionClosure)
    (hset : ∀ f p c, get (set f p c) = f ∧ (set f p c).pendingCompleteContributors = p ∧
      ready (set f p c) = ready c ∧ ∀ f' p', set f' p' (set f p c) = set f' p' c)
    (hself : ∀ c, set (get c) c.pendingCompleteContributors c = c)
    (hstep : ∀ c a, step c a = set (Function.update (get c) a (get c a - 1))
      (c.pendingCompleteContributors ++ [a].filter fun n => ready c n (get c n - 1)) c)
    {nodes : List Nat} (hnodup : nodes.Nodup) (c : RetentionClosure) :
    nodes.foldl step c = set (fun n => get c n - if n ∈ nodes then 1 else 0)
      (c.pendingCompleteContributors ++ nodes.filter fun n => ready c n (get c n - 1)) c := by
  induction nodes generalizing c with
  | nil => simpa using (hself c).symm
  | cons a nodes ih =>
    obtain ⟨hnot, hnodup⟩ := nodup_cons.mp hnodup
    obtain ⟨hget, hpending, hready, hagain⟩ := hset (Function.update (get c) a (get c a - 1))
      (c.pendingCompleteContributors ++ [a].filter fun n => ready c n (get c n - 1)) c
    have hfilter : (nodes.filter fun n =>
          ready c n (Function.update (get c) a (get c a - 1) n - 1)) =
        nodes.filter fun n => ready c n (get c n - 1) :=
      filter_congr fun n hn => by
        rw [update_of_ne (ne_of_mem_of_not_mem hn hnot)]
    rw [foldl_cons, ih hnodup, hstep, hget, hpending, hready, hagain, hfilter,
      update_pred_sub hnot, append_assoc, ← filter_append]
    rfl

/-- What a loop over counters of missing sources does. -/
theorem foldl_countSource {nodes : List Nat} (hnodup : nodes.Nodup) (c : RetentionClosure) :
    nodes.foldl countSource c = { c with
      contributorMissingSources := fun n =>
        c.contributorMissingSources n - if n ∈ nodes then 1 else 0
      pendingCompleteContributors := c.pendingCompleteContributors ++ nodes.filter fun n =>
        n ∉ c.contributorComplete ∧ c.contributorMissingSources n - 1 = 0 ∧
          c.contributorMissingParents n = 0 } := by
  refine foldl_count contributorMissingSources
    (fun c n missing =>
      n ∉ c.contributorComplete ∧ missing = 0 ∧ c.contributorMissingParents n = 0)
    (fun missing pending c => { c with
      contributorMissingSources := missing, pendingCompleteContributors := pending })
    (fun _ _ _ => ⟨rfl, rfl, rfl, fun _ _ => rfl⟩) (fun _ => rfl) (fun c a => ?_) hnodup c
  unfold countSource queueContributorIfComplete
  by_cases h : a ∉ c.contributorComplete ∧ c.contributorMissingSources a - 1 = 0 ∧
      c.contributorMissingParents a = 0
  · simp [h]
  · simp [h]

/-- What a loop over counters of missing parents does. -/
theorem foldl_countParent {nodes : List Nat} (hnodup : nodes.Nodup) (c : RetentionClosure) :
    nodes.foldl countParent c = { c with
      contributorMissingParents := fun n =>
        c.contributorMissingParents n - if n ∈ nodes then 1 else 0
      pendingCompleteContributors := c.pendingCompleteContributors ++ nodes.filter fun n =>
        n ∉ c.contributorComplete ∧ c.contributorMissingSources n = 0 ∧
          c.contributorMissingParents n - 1 = 0 } := by
  refine foldl_count contributorMissingParents
    (fun c n missing =>
      n ∉ c.contributorComplete ∧ c.contributorMissingSources n = 0 ∧ missing = 0)
    (fun missing pending c => { c with
      contributorMissingParents := missing, pendingCompleteContributors := pending })
    (fun _ _ _ => ⟨rfl, rfl, rfl, fun _ _ => rfl⟩) (fun _ => rfl) (fun c a => ?_) hnodup c
  unfold countParent queueContributorIfComplete
  by_cases h : a ∉ c.contributorComplete ∧ c.contributorMissingSources a = 0 ∧
      c.contributorMissingParents a - 1 = 0
  · simp [h]
  · simp [h]

/-! ## Retained source units -/

section Steps

variable (hwf : products.WellFormed) (hclosed : Closed (RetentionRule products members) bound)

include hwf in
theorem nodup_nodesBySource (unit : SourceUnitId) :
    (products.contributorIndex.nodesBySource unit).Nodup := by
  refine nodup_valuesAt_zipIdx id (fun sources hs => ?_) unit
  obtain ⟨node, hnode⟩ := getElem?_of_mem hs
  have := hwf.nodup_sources node
  rwa [ValidatedContributorDag.sourcesAt, getD_eq_getElem?_getD, hnode] at this

include hwf in
theorem nodup_children (node : Nat) : (products.contributorIndex.children node).Nodup := by
  refine nodup_valuesAt_zipIdx id (fun parents hp => ?_) node
  obtain ⟨child, hchild⟩ := getElem?_of_mem hp
  have := hwf.nodup_parents child
  rwa [ValidatedContributorDag.parentsAt, getD_eq_getElem?_getD, hchild] at this

include hwf in
theorem lt_count_of_source {unit : SourceUnitId}
    (h : unit ∈ products.contributorIndex.sourcesAt node) :
    node < products.contributorIndex.count := by
  rw [ValidatedContributorDag.sourcesAt, getD_eq_getElem?_getD] at h
  cases hn : products.contributorIndex.localSources[node]? with
  | none => simp [hn] at h
  | some sources => exact hwf.localSources_length ▸ (List.getElem?_eq_some_iff.mp hn).1

theorem countP_notMem_pos {α : Type} [DecidableEq α] {l : List α} {items : Finset α} {a : α}
    (hl : a ∈ l) (ha : a ∉ items) : 0 < l.countP fun b => b ∉ items :=
  countP_pos_iff.mpr ⟨a, hl, by simpa using ha⟩

theorem countP_notMem_eq_zero {α : Type} [DecidableEq α] {l : List α} {items : Finset α}
    (h : (l.countP fun b => b ∉ items) = 0) : ∀ a ∈ l, a ∈ items := by
  simpa using countP_eq_zero.mp h

/-- A contributor without missing sources and parents is complete, or about to be. -/
theorem ContributorCounters.complete_known {sources : Finset SourceUnitId} {c : RetentionClosure}
    (h : ContributorCounters products sources complete c)
    (hlt : node < products.contributorIndex.count)
    (hsources : ∀ unit ∈ products.contributorIndex.sourcesAt node, unit ∈ sources)
    (hparents : ∀ parent ∈ products.contributorIndex.parentsAt node, parent ∈ complete) :
    node ∈ c.pendingCompleteContributors ∨ node ∈ c.contributorComplete := by
  refine h.ready node hlt ?_ ?_
  · rw [h.missingSources, countP_eq_zero]
    simpa using hsources
  · rw [h.missingParents, countP_eq_zero]
    simpa using hparents

include hclosed in
/-- That a contributor misses nothing follows from what has been counted. -/
theorem ContributorCounters.complete_bound {sources : Finset SourceUnitId} {c : RetentionClosure}
    (h : ContributorCounters products sources complete c)
    (hsources : ∀ unit ∈ sources, .retained unit ∈ bound)
    (hcomplete : ∀ parent ∈ complete, .complete parent ∈ bound)
    (hlt : node < products.contributorIndex.count) (hs : c.contributorMissingSources node = 0)
    (hp : c.contributorMissingParents node = 0) : .complete node ∈ bound := by
  rw [h.missingSources] at hs
  rw [h.missingParents] at hp
  refine hclosed _ _ (Or.inl (.complete hlt)) fun p hmem => ?_
  rcases mem_append.mp hmem with hmem | hmem
  · obtain ⟨unit, hunit, rfl⟩ := mem_map.mp hmem
    exact hsources unit (countP_notMem_eq_zero hs unit hunit)
  · obtain ⟨parent, hparent, rfl⟩ := mem_map.mp hmem
    exact hcomplete parent (countP_notMem_eq_zero hp parent hparent)

include hwf hclosed in
theorem ready_processSource {unit : SourceUnitId} (h : Ready products members bound s)
    (hpop : popSource s = some (unit, t)) :
    Processed products members bound s (processSource products unit t) := by
  have hp : Popped products members bound (.retained unit) s t := popped_source h hpop
  obtain ⟨hnew, hprocessed⟩ : unit ∉ s.closure.source.processed ∧
      t.closure.source.processed = insert unit s.closure.source.processed := by
    obtain ⟨⟨_, w⟩, hw, heq⟩ := Option.map_eq_some_iff.mp hpop
    cases heq
    exact (Worklist.processed_pop hw).2
  have hnodup := nodup_nodesBySource hwf unit
  have hmem : ∀ node, node ∈ products.contributorIndex.nodesBySource unit ↔
      unit ∈ products.contributorIndex.sourcesAt node :=
    fun node => ValidatedContributorDag.mem_nodesBySource
  have heq : processSource products unit t = t.onClosure fun c => { c with
      contributorMissingSources := fun n => c.contributorMissingSources n -
        if n ∈ products.contributorIndex.nodesBySource unit then 1 else 0
      pendingCompleteContributors := c.pendingCompleteContributors ++
        (products.contributorIndex.nodesBySource unit).filter fun n =>
          n ∉ c.contributorComplete ∧ c.contributorMissingSources n - 1 = 0 ∧
            c.contributorMissingParents n = 0 } := by
    simp only [processSource, onClosure, foldl_countSource hnodup]
  -- the counters count the new unit
  have hcounters : Counters products (insert unit s.closure.source.processed)
      s.closure.contributorComplete (processSource products unit t).closure := by
    rw [heq]
    refine { hp.counters with
      missingSources := fun node => ?_
      ready := fun node hlt hs hpar => ?_
      pending := fun node hn => ?_ }
    · show t.closure.contributorMissingSources node - _ = _
      rw [countP_notMem_insert (hwf.nodup_sources node) hnew, hp.counters.missingSources node]
      simp only [hmem]
    · show node ∈ t.closure.pendingCompleteContributors ++ _ ∨ node ∈ t.closure.contributorComplete
      by_cases hnode : node ∈ products.contributorIndex.nodesBySource unit
      · by_cases hcomplete : node ∈ t.closure.contributorComplete
        · exact Or.inr hcomplete
        · simp only [onClosure, hnode, if_true] at hs
          exact Or.inl (mem_append_right _ (mem_filter.mpr
            ⟨hnode, by simpa using ⟨hcomplete, hs, hpar⟩⟩))
      · simp only [onClosure, hnode, if_false] at hs
        exact (hp.counters.ready node hlt hs hpar).imp_left (mem_append_left _)
    · show t.closure.contributorMissingSources node - _ = 0 ∧
        t.closure.contributorMissingParents node = 0
      rcases mem_append.mp hn with hn | hn
      · obtain ⟨hs, hpar⟩ := hp.counters.pending node hn
        exact ⟨by rw [hs, Nat.zero_sub], hpar⟩
      · obtain ⟨hnode, hn⟩ := mem_filter.mp hn
        simp only [decide_eq_true_eq] at hn
        rw [if_pos hnode]
        exact hn.2
  have hknown : known products t ⊆ known products (processSource products unit t) := by
    rw [heq]
    intro f hf
    cases f with
    | complete node => exact hf.imp_left (mem_append_left _)
    | _ => exact hf
  have hdrawn : drawn (processSource products unit t) = insert (.retained unit) (drawn s) := by
    rw [heq, ← hp.drawn_eq]
    ext f
    cases f <;> exact Iff.rfl
  have hinv : Inv products members (known products (processSource products unit t))
      (insert (.retained unit) (drawn s)) t := by
    refine (hp.good.inv.mono hknown).draw (hknown hp.mem) (fun ps c hr hx hdone => ?_) (by simp)
      (by simp)
      (by simp) (by simp) (by simp)
    cases hr with
    | complete hlt =>
      refine hcounters.complete_known hlt (fun unit' hunit => ?_) fun parent hparent => ?_
      · rcases hdone (.retained unit') (by simp [hunit]) with heq | hd
        · exact Finset.mem_insert.mpr (Or.inl (MacroFact.retained.inj heq))
        · exact Finset.mem_insert_of_mem hd
      · exact (hdone (.complete parent) (by simp [hparent])).resolve_left (by simp)
    | _ => simp at hx
  have hsources : ∀ unit' ∈ insert unit s.closure.source.processed, .retained unit' ∈ bound := by
    intro unit' hunit
    exact hp.good.sound ((hp.good.inv.source unit').mp
      (Worklist.processed_subset (hprocessed ▸ hunit)))
  have hcomplete : ∀ parent ∈ s.closure.contributorComplete, .complete parent ∈ bound :=
    fun parent hparent => hp.good.sound (Or.inr (hp.complete ▸ hparent))
  refine ⟨⟨hp.progress.known.trans hknown, lt_of_le_of_lt ?_ hp.progress.work⟩,
    ⟨⟨?_, fun f hf => ?_, fun f hf => (hp.good.mentioned f hf).imp_left (hknown ·)⟩, ?_,
      heq ▸ hp.demanded⟩, heq ▸ hp.calm⟩
  · have hpos : ∀ node ∈ products.contributorIndex.nodesBySource unit,
        0 < t.closure.contributorMissingSources node := by
      intro node hnode
      rw [hp.counters.missingSources]
      exact countP_notMem_pos ((hmem node).mp hnode) hnew
    have htotal := total_sub (l := contributors products) nodup_range hnodup
      (fun node hnode => mem_range.mpr (lt_count_of_source hwf ((hmem node).mp hnode))) hpos
    rw [heq]
    refine work_le le_rfl le_rfl le_rfl le_rfl le_rfl ?_ le_rfl le_rfl le_rfl
    have hlength := length_filter_le (fun n => decide (n ∉ t.closure.contributorComplete ∧
      t.closure.contributorMissingSources n - 1 = 0 ∧ t.closure.contributorMissingParents n = 0))
        (products.contributorIndex.nodesBySource unit)
    simp only [onClosure, length_append]
    omega
  · rw [hdrawn]
    rw [heq] at hinv ⊢
    exact { hinv with }
  · rw [heq] at hf
    cases f with
    | complete node =>
      rcases hf with hf | hf
      · rcases mem_append.mp hf with hf | hf
        · exact hp.good.sound (Or.inl hf)
        · have hpend :
            node ∈ (processSource products unit t).closure.pendingCompleteContributors := by
            rw [heq]
            exact mem_append_right _ hf
          obtain ⟨hs, hpar⟩ := hcounters.pending node hpend
          have hlt := lt_count_of_source hwf ((hmem node).mp (mem_filter.mp hf).1)
          exact hcounters.complete_bound hclosed hsources hcomplete hlt hs hpar
      · exact hp.good.sound (Or.inr hf)
    | _ => exact hp.good.sound hf
  · have hsame : (processSource products unit t).closure.contributorComplete =
        s.closure.contributorComplete := by
      rw [heq]
      exact hp.complete
    rw [hsame]
    rw [heq] at hcounters ⊢
    show Counters products t.closure.source.processed _ _
    rw [hprocessed]
    exact hcounters

/-! ## What a requested group leads to -/

end Steps

section Closed

variable {X : Set MacroFact} (hwf : products.WellFormed)
  (hclosed : Closed (MacroRule products members) X)

include hwf hclosed in
/-- A requested contributor completes: its parents come before it. -/
theorem complete_of_requested (node : Nat) (hlt : node < products.contributorIndex.count)
    (h : .requested node ∈ X) : .complete node ∈ X := by
  induction node using Nat.strong_induction_on with
  | h node ih =>
    refine hclosed _ _ (.complete hlt) fun p hp => ?_
    rcases mem_append.mp hp with hp | hp
    · obtain ⟨unit, hunit, rfl⟩ := mem_map.mp hp
      exact hclosed _ _ (.requestedSource hunit) (by simpa using h)
    · obtain ⟨parent, hparent, rfl⟩ := mem_map.mp hp
      have hearlier := hwf.parent_lt node parent hparent
      exact ih parent hearlier (hearlier.trans hlt)
        (hclosed _ _ (.requestedParent hparent) (by simpa using h))

include hwf hclosed in
theorem materialized_of_requested (hlt : group < products.materializations.length)
    (h : ∀ root ∈ groupRoots products group, .requested root ∈ X) : .materialized group ∈ X := by
  refine hclosed _ _ (.materialized hlt) fun p hp => ?_
  obtain ⟨root, hroot, rfl⟩ := mem_map.mp hp
  exact complete_of_requested hwf hclosed root (hwf.root_lt group root hroot) (h root hroot)

include hwf hclosed in
/-- The producer of a present definition has output that means something. -/
theorem meaningful_of_definition {definition : DefinitionId}
    (hgroup : products.productGroups (.definition definition) = some group)
    (h : .present (.definition definition) ∈ X) :
    .meaningful (products.outputMeaning.producerByGroup group) ∈ X := by
  obtain ⟨hlt, htrigger, hintrinsic⟩ := hwf.product_trigger definition group hgroup
  have hm := materialized_of_requested hwf hclosed hlt fun root hroot =>
    hclosed _ _ (.trigger (fun _ heq => by cases heq) htrigger hroot) (by simpa using h)
  exact hclosed _ _ (.intrinsicMeaning hintrinsic hlt) (by simpa using hm)

end Closed

/-- A shell depends on definitions of its own producer only. -/
def SameProducer (products : ValidatedMacroProducts) : Prop :=
  ∀ (definition : DefinitionId) (other group : Nat),
    products.productGroups (.definition definition) = some other →
    group ∈ products.outputMeaning.dependentGroupsByProduct (.definition definition) →
    products.outputMeaning.producerByGroup group = products.outputMeaning.producerByGroup other

/-! ## Meaningful producers -/

section Steps

variable (hwf : products.WellFormed) (hclosed : Closed (RetentionRule products members) bound)

include hwf hclosed in
theorem ready_processMeaningfulProducer {child : Nat} (h : Ready products members bound s)
    (hpop : popMeaningfulProducer s = some (child, t)) :
    Ready products members bound (processMeaningfulProducer products child t) ∧
      Progress products members s (processMeaningfulProducer products child t) := by
  have hp : Popped products members bound (.meaningful child) s t :=
    popped_meaningfulProducer h hpop
  have hk₁ : Keeps products members True bound (drawn s)
      {f | ∃ producer ∈ products.outputMeaning.dependentProducersByChild child,
        f ∈ ({.meaningful producer} : Set MacroFact)} t
      (t.onClosure fun c => (products.outputMeaning.dependentProducersByChild child).foldl
        activateProducer c) := by
    rw [onClosure_foldl]
    exact Keeps.foldl hp.good fun t' producer hproducer ht _ => keeps_activateProducer trivial ht
      (hclosed _ _ (Or.inl (.dependentProducer hproducer)) (by simpa using hp.good.sound hp.mem))
  have hchild := hk₁.advance.known hp.mem
  have hsplit : (t.onClosure fun c =>
      (products.outputMeaning.dependentGroupsByProduct
        (.expansion (producerAt products child))).foldl (addMeaningfulDependency products)
          ((products.outputMeaning.dependentProducersByChild child).foldl activateProducer c)) =
      (t.onClosure fun c => (products.outputMeaning.dependentProducersByChild child).foldl
        activateProducer c).onClosure fun c => (products.outputMeaning.dependentGroupsByProduct
          (.expansion (producerAt products child))).foldl
            (addMeaningfulDependency products) c := rfl
  unfold processMeaningfulProducer
  simp only [hsplit]
  generalize (t.onClosure fun c => (products.outputMeaning.dependentProducersByChild child).foldl
    activateProducer c) = mid at hk₁ hchild
  rw [onClosure_foldl]
  obtain ⟨hk₂, hflags⟩ : Keeps products members True bound (drawn s) _ mid _ ∧ _ :=
    Keeps.foldl_lasting (T := fun _ => ∅)
      (Q := fun group t => group ∈ t.closure.groupHasMeaningfulDependency) hk₁.good
      (fun group s t ha hq => ha.dependencies hq) fun t group hgroup ht ha =>
        keeps_addMeaningfulDependency trivial hclosed ht (ha.known hchild) hgroup
  generalize (products.outputMeaning.dependentGroupsByProduct
    (.expansion (producerAt products child))).foldl
      (fun s a => s.onClosure fun c => addMeaningfulDependency products c a) mid = mid'
        at hk₂ hflags
  have hk₁₂ := hk₁.trans hk₂
  -- if its expansion has been drawn as a present node, it triggers its groups now
  obtain ⟨last, hlast, hk₃⟩ : ∃ last,
      (if .expansion (producerAt products child) ∈ mid'.closure.presence.processed then
        processMacroTrigger products (.expansion (producerAt products child)) mid' else mid') =
          last ∧
      Keeps products members True bound (drawn s)
        {f | .present (.expansion (producerAt products child)) ∈ drawn s ∧
          (∃ producer, products.outputMeaning.producerIndex (producerAt products child) =
            some producer ∧ .meaningful producer ∈ known products mid') ∧
          ∃ group ∈ products.compileTriggerGroups (.expansion (producerAt products child)),
            ∃ root ∈ groupRoots products group, f = .requested root} mid' last := by
    have hiff : .present (.expansion (producerAt products child)) ∈ drawn s ↔
        .expansion (producerAt products child) ∈ mid'.closure.presence.processed := by
      have hdrawn := hk₁₂.advance.drawn.trans hp.drawn_eq
      have : .present (.expansion (producerAt products child)) ∈ drawn s ↔
          .present (.expansion (producerAt products child)) ∈ drawn mid' := by
        rw [hdrawn]
        exact ⟨Or.inr, fun h => h.resolve_left (by simp)⟩
      exact this
    refine ⟨_, rfl, ?_⟩
    split
    · rename_i hseen
      have hpresent := hk₁₂.good.inv.done_known (hiff.mpr hseen)
      have hk : Keeps products members True bound (drawn s) _ mid' _ :=
        keeps_processMacroTrigger hwf hclosed hk₂.good hpresent fun group hgroup hm _ =>
          (hwf.trigger_meaning _ group hgroup).imp_right fun hdep => Or.inl (hflags group hdep)
      refine hk.weaken fun f hf => Or.inl ?_
      obtain ⟨-, ⟨producer, hproducer, hmeaningful⟩, group, hgroup, root, hroot, rfl⟩ := hf
      refine ⟨fun expansion producer' heq hp' => ?_, group, hgroup, Or.inl ⟨root, hroot, rfl⟩⟩
      cases heq
      obtain rfl := Option.some.inj (hproducer.symm.trans hp')
      exact hmeaningful
    · rename_i hseen
      exact (Keeps.refl hk₂.good).weaken fun f hf => absurd (hiff.mp hf.1) hseen
  rw [hlast]
  have hk := hk₁₂.trans hk₃
  refine hp.finish (by simp) hk fun inv => inv.draw (hk.advance.known hp.mem)
    (fun ps c hr hx hdone => ?_) (by simp) (by simp) ?_ (by simp) (by simp)
  · cases hr with
    | @producerTrigger expansion producer group root hproducer hgroup hroot =>
      obtain rfl : child = producer := by simpa using hx
      obtain rfl := (producerAt_of_index hproducer).2
      have hpresent := (hdone (.present (.expansion (producerAt products child)))
        (by simp)).resolve_left (by simp)
      exact hk.added (Or.inr ⟨hpresent, ⟨child, hproducer, hk₂.advance.known hchild⟩, group,
        hgroup, root, hroot, rfl⟩)
    | dependentProducer hproducer =>
      obtain rfl : child = _ := by simpa using hx
      exact hk.added (Or.inl (Or.inl ⟨_, hproducer, rfl⟩))
    | _ => simp at hx
  · rintro child' ⟨⟩ group hgroup
    exact hk₃.advance.dependencies (hflags group hgroup)

/-! ## Complete contributors -/

include hwf hclosed in
/-- A contributor becomes complete, and its children miss one parent less. -/
theorem popped_completeContributor {rest : List Nat} (h : Ready products members bound s)
    (hpending : s.closure.pendingCompleteContributors = node :: rest)
    (hnew : node ∉ s.closure.contributorComplete)
    (hu : u = s.onClosure fun c => (products.contributorIndex.children node).foldl countParent
      { c with
        pendingCompleteContributors := rest
        contributorComplete := insert node c.contributorComplete }) :
    Good products members bound (drawn s) u ∧ drawn u = insert (.complete node) (drawn s) ∧
      known products s ⊆ known products u ∧
      ContributorCounters products s.closure.source.processed
        (insert node s.closure.contributorComplete) u.closure ∧
      work products members u < work products members s ∧
      u.closure.contributorComplete = insert node s.closure.contributorComplete ∧
      u.closure.source = s.closure.source ∧
      u.closure.demandedProducers = s.closure.demandedProducers ∧
      u.closure.processedDemandedChildren = s.closure.processedDemandedChildren ∧
      u.closure.groupMissingRoots = s.closure.groupMissingRoots ∧
      u.closure.macroMaterialized = s.closure.macroMaterialized := by
  have hnodup := nodup_children hwf node
  have hmem : ∀ child, child ∈ products.contributorIndex.children node ↔
      child < products.contributorIndex.count ∧ node ∈ products.contributorIndex.parentsAt child :=
    fun child => ValidatedContributorDag.mem_children
  have heq : u = s.onClosure fun c => { c with
      contributorComplete := insert node c.contributorComplete
      contributorMissingParents := fun n => c.contributorMissingParents n -
        if n ∈ products.contributorIndex.children node then 1 else 0
      pendingCompleteContributors := rest ++
        (products.contributorIndex.children node).filter fun n =>
          n ∉ insert node c.contributorComplete ∧ c.contributorMissingSources n = 0 ∧
            c.contributorMissingParents n - 1 = 0 } := by
    rw [hu]
    simp only [onClosure, foldl_countParent hnodup]
  have hcounters : ContributorCounters products s.closure.source.processed
      (insert node s.closure.contributorComplete) u.closure := by
    rw [heq]
    refine {
      missingSources := h.counters.missingSources
      missingParents := fun n => ?_
      ready := fun n hlt hs hpar => ?_
      pending := fun n hn => ?_ }
    · show s.closure.contributorMissingParents n - _ = _
      rw [countP_notMem_insert (hwf.nodup_parents n) hnew, h.counters.missingParents n]
      by_cases hn : n < products.contributorIndex.count
      · simp only [hmem, hn, true_and]
      · have hnone : products.contributorIndex.parentsAt n = [] := by
          rw [ValidatedContributorDag.parentsAt, getD_eq_getElem?_getD,
            getElem?_eq_none (not_lt.mp hn)]
          rfl
        simp [hmem, hn, hnone]
    · show n ∈ rest ++ _ ∨ n ∈ insert node s.closure.contributorComplete
      by_cases hcomplete : n ∈ insert node s.closure.contributorComplete
      · exact Or.inr hcomplete
      · refine Or.inl (mem_append.mpr ?_)
        by_cases hchild : n ∈ products.contributorIndex.children node
        · simp only [onClosure, hchild, if_true] at hpar
          exact Or.inr (mem_filter.mpr ⟨hchild, by
            simp only [decide_eq_true_eq]
            exact ⟨hcomplete, hs, hpar⟩⟩)
        · simp only [onClosure, hchild, if_false] at hpar
          rcases h.counters.ready n hlt hs hpar with hn | hn
          · rw [hpending] at hn
            rcases mem_cons.mp hn with rfl | hn
            · exact absurd (Finset.mem_insert_self ..) hcomplete
            · exact Or.inl hn
          · exact absurd (Finset.mem_insert_of_mem hn) hcomplete
    · show s.closure.contributorMissingSources n = 0 ∧ s.closure.contributorMissingParents n - _ = 0
      rcases mem_append.mp hn with hn | hn
      · obtain ⟨hs, hpar⟩ := h.counters.pending n (by simp [hpending, hn])
        exact ⟨hs, by rw [hpar, Nat.zero_sub]⟩
      · obtain ⟨hchild, hn⟩ := mem_filter.mp hn
        simp only [decide_eq_true_eq] at hn
        rw [if_pos hchild]
        exact hn.2
  have hknown : known products s ⊆ known products u := by
    rw [heq]
    intro f hf
    cases f with
    | complete n =>
      show n ∈ rest ++ _ ∨ n ∈ insert node s.closure.contributorComplete
      rcases hf with hf | hf
      · rw [hpending] at hf
        rcases mem_cons.mp hf with rfl | hf
        · exact Or.inr (Finset.mem_insert_self ..)
        · exact Or.inl (mem_append_left _ hf)
      · exact Or.inr (Finset.mem_insert_of_mem hf)
    | _ => exact hf
  have hbound : .complete node ∈ bound := h.good.sound (Or.inl (by simp [hpending]))
  have hsources : ∀ unit ∈ s.closure.source.processed, .retained unit ∈ bound := fun unit hunit =>
    h.good.sound ((h.good.inv.source unit).mp (Worklist.processed_subset hunit))
  have hcomplete : ∀ parent ∈ insert node s.closure.contributorComplete,
      .complete parent ∈ bound := by
    intro parent hparent
    rcases Finset.mem_insert.mp hparent with rfl | hparent
    · exact hbound
    · exact h.good.sound (Or.inr hparent)
  refine ⟨⟨?_, fun f hf => ?_, fun f hf => (h.good.mentioned f hf).imp_left (hknown ·)⟩, ?_, hknown,
    hcounters, ?_, by rw [heq]; exact ⟨rfl, rfl, rfl, rfl, rfl, rfl⟩⟩
  · have hinv := h.good.inv.mono hknown
    rw [heq] at hinv ⊢
    exact { hinv with }
  · cases f with
    | complete n =>
      rcases hf with hf | hf
      · have hzero := hcounters.pending n hf
        rw [heq] at hf
        rcases mem_append.mp hf with hf | hf
        · exact h.good.sound (Or.inl (by simp [hpending, hf]))
        · have hlt := ((hmem n).mp (mem_filter.mp hf).1).1
          exact hcounters.complete_bound hclosed hsources hcomplete hlt hzero.1 hzero.2
      · rw [heq] at hf
        exact hcomplete n hf
    | _ =>
      rw [heq] at hf
      exact h.good.sound hf
  · rw [heq]
    ext f
    cases f with
    | complete n =>
      show n ∈ insert node s.closure.contributorComplete ↔ _
      rw [Finset.mem_insert, Set.mem_insert_iff, MacroFact.complete.injEq]
      exact Iff.rfl
    | _ => exact ⟨Or.inr, fun hf => hf.resolve_left (by simp)⟩
  · have hpos : ∀ child ∈ products.contributorIndex.children node,
        0 < s.closure.contributorMissingParents child := by
      intro child hchild
      rw [h.counters.missingParents]
      exact countP_notMem_pos ((hmem child).mp hchild).2 hnew
    have htotal := total_sub (l := contributors products) nodup_range hnodup
      (fun child hchild => mem_range.mpr ((hmem child).mp hchild).1) hpos
    have hlength := length_filter_le (fun n => decide (n ∉ insert node
      s.closure.contributorComplete ∧ s.closure.contributorMissingSources n = 0 ∧
        s.closure.contributorMissingParents n - 1 = 0)) (products.contributorIndex.children node)
    rw [heq]
    simp only [work, onClosure, hpending, length_append, length_cons]
    omega

/-! ## Materializing groups -/

/-- What holds while the roots of the groups below a complete contributor `node` are counted.  `u`
is the state before, `counted` are the groups that have been visited. -/
structure Rooting (products : ValidatedMacroProducts) (members : ValidatedCompilerMemberConstraints)
    (bound : Set MacroFact) (node : Nat) (u : RetentionState) (counted : List Nat)
    (v : RetentionState) : Prop where
  good : Good products members bound {f | f ∈ drawn v ∧ f ≠ .complete node} v
  known : known products u ⊆ known products v
  sourceProcessed : v.closure.source.processed = u.closure.source.processed
  contributorComplete : v.closure.contributorComplete = u.closure.contributorComplete
  pendingComplete : v.closure.pendingCompleteContributors = u.closure.pendingCompleteContributors
  missingSources : v.closure.contributorMissingSources = u.closure.contributorMissingSources
  missingParents : v.closure.contributorMissingParents = u.closure.contributorMissingParents
  demanded : ∀ producer ∈ v.closure.demandedProducers.processed,
    producerAt products producer ∈ v.closure.processedDemandedChildren
  missingRoots : ∀ group, v.closure.groupMissingRoots group =
    u.closure.groupMissingRoots group - if group ∈ counted then 1 else 0
  materialized : ∀ group, group ∈ v.closure.macroMaterialized ↔
    group < products.materializations.length ∧ v.closure.groupMissingRoots group = 0
  work : work products members v ≤ work products members u

/-- The outputs of a group: its products, and its members for the owners that are present. -/
theorem mem_groupOutputs {present : Finset GraphNode} {node : GraphNode} :
    node ∈ groupOutputs products group present ↔
      ∃ m, products.materializations[group]? = some m ∧ (node ∈ m.products ∨
        ∃ requirement ∈ m.ownerRequirements, .definition requirement.owner ∈ present ∧
          ∃ member ∈ requirement.members, node = .definition member) := by
  unfold groupOutputs
  cases products.materializations[group]? with
  | none => simp
  | some m =>
    simp only [mem_append, mem_flatMap, mem_filter, decide_eq_true_eq, mem_map,
      Option.some.injEq, exists_eq_left']
    refine or_congr_right ⟨?_, ?_⟩
    · rintro ⟨requirement, ⟨hr, ho⟩, member, hm, rfl⟩
      exact ⟨requirement, hr, ho, member, hm, rfl⟩
    · rintro ⟨requirement, hr, ho, member, hm, rfl⟩
      exact ⟨requirement, ⟨hr, ho⟩, member, hm, rfl⟩

include hwf hclosed in
/-- A group that has a meaning, or a meaningful dependency, tells its producer. -/
theorem meaningful_bound (hsame : SameProducer products) (h : Good products members bound done s)
    (hlt : group < products.materializations.length) (hm : .materialized group ∈ bound)
    (hreason : products.outputMeaning.groupHasIntrinsicOutput group = true ∨
      group ∈ s.closure.groupHasMeaningfulDependency) :
    .meaningful (products.outputMeaning.producerByGroup group) ∈ bound := by
  have hintrinsic : products.outputMeaning.groupHasIntrinsicOutput group = true →
      .meaningful (products.outputMeaning.producerByGroup group) ∈ bound := fun hi =>
    hclosed _ _ (Or.inl (.intrinsicMeaning hi hlt)) (by simpa using hm)
  rcases hreason with hi | hdep
  · exact hintrinsic hi
  · rcases h.inv.dependencies_known group hdep with hi | ⟨child, hchild, hmem⟩ |
      ⟨definition, other, hother, hmem, hpresent⟩
    · exact hintrinsic hi
    · refine hclosed _ _ (Or.inr (.child hmem)) fun p hp => ?_
      rcases mem_pair.mp hp with rfl | rfl
      · exact h.sound hchild
      · exact hm
    · rw [hsame definition other group hother hmem]
      exact meaningful_of_definition hwf (fun ps c hr => hclosed ps c (Or.inl hr)) hother
        (h.sound hpresent)

include hwf hclosed in
/-- A group that misses no root any more materializes. -/
theorem good_materialize (hsame : SameProducer products) (h : Good products members bound done s)
    (hnew : group ∉ s.closure.macroMaterialized) (hlt : group < products.materializations.length)
    (hm : .materialized group ∈ bound)
    (hu : u = materializeGroupOutputs products group (s.onClosure fun c =>
      activateGroupMeaning products
        { c with macroMaterialized := insert group c.macroMaterialized } group)) :
    ∃ mid, Advance products members True s mid ∧ Advance products members True
        (mid.onClosure fun c =>
          { c with macroMaterialized := insert group c.macroMaterialized }) u ∧
      Good products members bound (insert (.materialized group) done) u := by
  -- the meaning first: it does not depend on whether the group counts as materialized
  obtain ⟨mid, hmid, hdependency, hk₁⟩ : ∃ mid, (s.onClosure fun c => activateGroupMeaning products
        { c with macroMaterialized := insert group c.macroMaterialized } group) =
        mid.onClosure (fun c =>
          { c with macroMaterialized := insert group c.macroMaterialized }) ∧
      mid.closure.groupHasMeaningfulDependency = s.closure.groupHasMeaningfulDependency ∧
      Keeps products members True bound done
        {f | (products.outputMeaning.groupHasIntrinsicOutput group = true ∨
            group ∈ s.closure.groupHasMeaningfulDependency) ∧
          f = .meaningful (products.outputMeaning.producerByGroup group)} s mid := by
    by_cases hreason : products.outputMeaning.groupHasIntrinsicOutput group = true ∨
        group ∈ s.closure.groupHasMeaningfulDependency
    · refine ⟨s.onClosure fun c =>
        c.activateProducer (products.outputMeaning.producerByGroup group), ?_, rfl, ?_⟩
      · simp only [onClosure, activateGroupMeaning, hreason, if_true]
        rfl
      · exact (keeps_activateProducer trivial h
          (meaningful_bound hwf hclosed hsame h hlt hm hreason)).weaken fun f hf => Or.inl hf.2
    · refine ⟨s, ?_, rfl, (Keeps.refl h).weaken fun f hf => absurd hf.1 hreason⟩
      simp only [onClosure, activateGroupMeaning, hreason, if_false]
  rw [hmid] at hu
  -- then the group counts as materialized
  obtain ⟨v, hv⟩ : ∃ v, v = mid.onClosure fun c =>
      { c with macroMaterialized := insert group c.macroMaterialized } := ⟨_, rfl⟩
  rw [← hv] at hu
  have hmaterialized :
      v.closure.macroMaterialized = insert group mid.closure.macroMaterialized := by
    rw [hv]
    rfl
  have hknown : known products mid ⊆ known products v := by
    rw [hv]
    intro f hf
    cases f with
    | materialized g => exact Finset.mem_insert_of_mem hf
    | _ => exact hf
  have hgood : Good products members bound done v := by
    refine ⟨?_, fun f hf => ?_, fun f hf => (hk₁.good.mentioned f hf).imp_left (hknown ·)⟩
    · have hinv := hk₁.good.inv.mono hknown
      have hadded := fun hreason => hknown (hk₁.added ⟨hreason, rfl⟩)
      rw [hv] at hinv hadded ⊢
      refine { hinv with
        inherited := fun g hg hgm => ?_
        intrinsic := fun g hgm hi => ?_
        materialized_lt := fun g hgm => ?_ }
      · rcases Finset.mem_insert.mp hgm with rfl | hgm
        · exact Or.inl (hadded (Or.inr (hdependency ▸ hg)))
        · exact hinv.inherited g hg hgm
      · rcases Finset.mem_insert.mp hgm with rfl | hgm
        · exact hadded (Or.inl hi)
        · exact hinv.intrinsic g hgm hi
      · rcases Finset.mem_insert.mp hgm with rfl | hgm
        · exact hlt
        · exact hinv.materialized_lt g hgm
    · rw [hv] at hf
      cases f with
      | materialized g =>
        rcases Finset.mem_insert.mp hf with rfl | hf
        · exact hm
        · exact hk₁.good.sound hf
      | _ => exact hk₁.good.sound hf
  have hmat : .materialized group ∈ known products v := by
    show group ∈ v.closure.macroMaterialized
    rw [hmaterialized]
    exact Finset.mem_insert_self ..
  -- and its outputs are present
  have hk₂ : Keeps products members True bound done
      {f | ∃ node ∈ groupOutputs products group v.compilePresent.required,
        f ∈ ({.present node} : Set MacroFact)} v u := by
    rw [hu]
    refine Keeps.foldl hgood fun t node hnode ht _ => keeps_requireMaterializedCompile ht ?_
    obtain ⟨m, hgr, hproduct | ⟨requirement, hr, howner, member, hmember, rfl⟩⟩ :=
      mem_groupOutputs.mp hnode
    · exact hclosed _ _ (Or.inl (.product hgr hproduct)) (by simpa using hm)
    · refine hclosed _ _ (Or.inl (.ownerMember hgr hr hmember)) fun p hp => ?_
      rcases mem_pair.mp hp with rfl | rfl
      · exact hm
      · exact hgood.sound howner
  refine ⟨mid, hk₁.advance, hv ▸ hk₂.advance, { hk₂.good with inv := ?_ }⟩
  refine hk₂.good.inv.draw (hk₂.advance.known hmat) (fun ps c hr hx hdone => ?_) (by simp) (by simp)
    (by simp)
    (by simp) (by simp)
  cases hr with
  | @product m g node hgr hproduct =>
    obtain rfl : group = g := by simpa using hx
    exact hk₂.added ⟨node, mem_groupOutputs.mpr ⟨m, hgr, Or.inl hproduct⟩, rfl⟩
  | @ownerMember m g requirement member hgr hr hmember =>
    obtain rfl : group = g := by simpa using hx
    have howner := hgood.inv.done_known
      ((hdone (.present (.definition requirement.owner)) (by simp)).resolve_left (by simp))
    exact hk₂.added ⟨.definition member, mem_groupOutputs.mpr
      ⟨m, hgr, Or.inr ⟨requirement, hr, howner, member, hmember, rfl⟩⟩, rfl⟩
  | @intrinsicMeaning g hi hglt =>
    obtain rfl : group = g := by simpa using hx
    exact hk₂.good.inv.intrinsic group (hk₂.advance.known hmat) hi
  | _ => simp at hx

include hwf hclosed in
/-- Counting the root of one more group. -/
theorem rooting_countRoot {node group : Nat} {counted : List Nat} {v : RetentionState}
    (hsame : SameProducer products) (h : Rooting products members bound node u counted v)
    (hcounted : group ∉ counted) (hnew : node ∉ complete) (hroot : node ∈ groupRoots products group)
    (hcount : u.closure.groupMissingRoots group =
      (groupRoots products group).countP fun root => root ∉ complete)
    (hbound : ∀ root ∈ insert node complete, .complete root ∈ bound) :
    Rooting products members bound node u (counted ++ [group]) (countRoot products v group) := by
  have hlt : group < products.materializations.length := by
    obtain ⟨m, hm, -⟩ := mem_groupRoots.mp hroot
    exact (List.getElem?_eq_some_iff.mp hm).1
  have hmissing : v.closure.groupMissingRoots group =
      (groupRoots products group).countP fun root => root ∉ complete := by
    rw [h.missingRoots, if_neg hcounted, Nat.sub_zero, hcount]
  have hpos : 0 < v.closure.groupMissingRoots group := by
    rw [hmissing]
    exact countP_notMem_pos hroot hnew
  have hunmaterialized : group ∉ v.closure.macroMaterialized := fun hm => by
    have := ((h.materialized group).mp hm).2
    omega
  -- the counter alone
  obtain ⟨w, hw⟩ : ∃ w, w = v.onClosure fun c => { c with
      groupMissingRoots :=
        Function.update c.groupMissingRoots group (c.groupMissingRoots group - 1) } := ⟨_, rfl⟩
  have hknown : known products w = known products v := by
    rw [hw]
    ext f
    cases f <;> exact Iff.rfl
  have hdrawn : drawn w = drawn v := by
    rw [hw]
    ext f
    cases f <;> exact Iff.rfl
  have hgood : Good products members bound {f | f ∈ drawn v ∧ f ≠ .complete node} w := by
    refine ⟨?_, hknown ▸ h.good.sound, hknown ▸ h.good.mentioned⟩
    rw [hknown, hw]
    exact { h.good.inv with }
  have hroots : ∀ g, w.closure.groupMissingRoots g =
      u.closure.groupMissingRoots g - if g ∈ counted ++ [group] then 1 else 0 := by
    intro g
    rw [hw]
    show Function.update v.closure.groupMissingRoots group _ g = _
    by_cases hg : g = group
    · subst hg
      rw [update_self, h.missingRoots g, if_neg hcounted]
      simp
    · rw [update_of_ne hg, h.missingRoots g]
      simp [hg]
  have hother : ∀ g, g ≠ group → w.closure.groupMissingRoots g = v.closure.groupMissingRoots g := by
    intro g hg
    rw [hw]
    exact update_of_ne hg _ _
  by_cases hfire : w.closure.groupMissingRoots group = 0 ∧ group ∉ w.closure.macroMaterialized
  · have heq : countRoot products v group = materializeGroupOutputs products group
        (w.onClosure fun c => activateGroupMeaning products
          { c with macroMaterialized := insert group c.macroMaterialized } group) := by
      rw [hw] at hfire ⊢
      exact if_pos hfire
    have hm : .materialized group ∈ bound := by
      refine hclosed _ _ (Or.inl (.materialized hlt)) fun p hp => ?_
      obtain ⟨root, hr, rfl⟩ := mem_map.mp hp
      refine hbound root (countP_notMem_eq_zero ?_ root hr)
      rw [countP_notMem_insert (hwf.nodup_groupRoots group) hnew, if_pos hroot, ← hmissing]
      have : w.closure.groupMissingRoots group = v.closure.groupMissingRoots group - 1 := by
        rw [hw]
        exact update_self ..
      omega
    obtain ⟨mid, h₁, h₂, hgood'⟩ := good_materialize hwf hclosed hsame hgood hfire.2 hlt hm heq
    generalize countRoot products v group = last at h₂ hgood'
    have hM : last.closure.macroMaterialized = insert group v.closure.macroMaterialized := by
      rw [h₂.materialized]
      show insert group mid.closure.macroMaterialized = _
      rw [h₁.materialized, hw]
      rfl
    have hlast : last.closure.groupMissingRoots = w.closure.groupMissingRoots :=
      h₂.missingRoots.trans h₁.missingRoots
    have hknown' : known products v ⊆ known products last := by
      rw [← hknown]
      refine (h₁.known.trans fun f hf => ?_).trans h₂.known
      cases f with
      | materialized g => exact Finset.mem_insert_of_mem hf
      | _ => exact hf
    have hdrawn' : {f | f ∈ drawn last ∧ f ≠ .complete node} =
        insert (.materialized group) {f | f ∈ drawn v ∧ f ≠ .complete node} := by
      have hmid := h₁.drawn.trans hdrawn
      rw [h₂.drawn, ← hmid]
      ext f
      cases f with
      | materialized g =>
        show g ∈ insert group mid.closure.macroMaterialized ∧ _ ↔ _
        simp only [Finset.mem_insert, ne_eq, reduceCtorEq, not_false_eq_true, and_true,
          Set.mem_insert_iff, MacroFact.materialized.injEq, Set.mem_ofPred_eq]
        exact Iff.rfl
      | _ => exact ⟨Or.inr, fun hf => hf.resolve_left (by simp)⟩
    refine {
      good := hdrawn' ▸ hgood'
      known := h.known.trans hknown'
      sourceProcessed := ?_
      contributorComplete := ?_
      pendingComplete := ?_
      missingSources := ?_
      missingParents := ?_
      demanded := fun producer hp => ?_
      missingRoots := fun g => by rw [hlast, hroots]
      materialized := fun g => ?_
      work := ?_ }
    · rw [← h.sourceProcessed, h₂.sourceProcessed]
      exact h₁.sourceProcessed.trans (hw ▸ rfl)
    · rw [← h.contributorComplete, h₂.contributorComplete]
      exact h₁.contributorComplete.trans (hw ▸ rfl)
    · rw [← h.pendingComplete, h₂.pendingComplete]
      exact h₁.pendingComplete.trans (hw ▸ rfl)
    · rw [← h.missingSources, h₂.missingSources]
      exact h₁.missingSources.trans (hw ▸ rfl)
    · rw [← h.missingParents, h₂.missingParents]
      exact h₁.missingParents.trans (hw ▸ rfl)
    · rw [h₂.demandedProcessed] at hp
      refine h₂.demandedChildren (h₁.demandedChildren ?_)
      have hp : producer ∈ w.closure.demandedProducers.processed := h₁.demandedProcessed ▸ hp
      rw [hw] at hp ⊢
      exact h.demanded producer hp
    · rw [hM, hlast]
      by_cases hg : g = group
      · subst hg
        simp [hlt, hfire.1]
      · rw [Finset.mem_insert, or_iff_right hg, h.materialized g, hother g hg]
    · refine h₂.work.trans ((h₁.work.trans ?_).trans h.work)
      rw [hw]
      exact le_refl _
  · have heq : countRoot products v group = w := by
      rw [hw] at hfire ⊢
      exact if_neg hfire
    have hwM : w.closure.macroMaterialized = v.closure.macroMaterialized := by
      rw [hw]
      rfl
    rw [heq]
    refine {
      good := hdrawn ▸ hgood
      known := hknown ▸ h.known
      sourceProcessed := ?_
      contributorComplete := ?_
      pendingComplete := ?_
      missingSources := ?_
      missingParents := ?_
      demanded := ?_
      missingRoots := hroots
      materialized := fun g => ?_
      work := ?_ }
    · rw [hw]
      exact h.sourceProcessed
    · rw [hw]
      exact h.contributorComplete
    · rw [hw]
      exact h.pendingComplete
    · rw [hw]
      exact h.missingSources
    · rw [hw]
      exact h.missingParents
    · rw [hw]
      exact h.demanded
    · rw [hwM]
      by_cases hg : g = group
      · subst hg
        have hne : w.closure.groupMissingRoots g ≠ 0 := fun h0 =>
          hfire ⟨h0, hwM ▸ hunmaterialized⟩
        simp [hunmaterialized, hne]
      · rw [h.materialized g, hother g hg]
    · rw [hw]
      exact h.work

include hwf hclosed in
theorem rooting_foldl {groups counted : List Nat} {v : RetentionState}
    (hsame : SameProducer products) (h : Rooting products members bound node u counted v)
    (hnodup : groups.Nodup) (hcounted : ∀ group ∈ groups, group ∉ counted) (hnew : node ∉ complete)
    (hroot : ∀ group ∈ groups, node ∈ groupRoots products group)
    (hcount : ∀ group, u.closure.groupMissingRoots group =
      (groupRoots products group).countP fun root => root ∉ complete)
    (hbound : ∀ root ∈ insert node complete, .complete root ∈ bound) :
    Rooting products members bound node u (counted ++ groups)
      (groups.foldl (countRoot products) v) := by
  induction groups generalizing counted v with
  | nil => simpa using h
  | cons group groups ih =>
    obtain ⟨hnot, hnodup⟩ := nodup_cons.mp hnodup
    have hstep := rooting_countRoot hwf hclosed hsame h (hcounted group (by simp)) hnew
      (hroot group (by simp)) (hcount group) hbound
    have := ih hstep hnodup (fun g hg => ?_) fun g hg => hroot g (by simp [hg])
    · rwa [append_assoc, singleton_append] at this
    · simp only [mem_append, mem_singleton, not_or]
      exact ⟨hcounted g (by simp [hg]), fun heq => hnot (heq ▸ hg)⟩

include hwf hclosed in
theorem ready_processCompleteContributor (hsame : SameProducer products)
    (h : Ready products members bound s) (hpop : popCompleteContributor s = some (node, t)) :
    Ready products members bound (processCompleteContributor products node t) ∧
      Progress products members s (processCompleteContributor products node t) := by
  unfold popCompleteContributor at hpop
  cases hpending : s.closure.pendingCompleteContributors with
  | nil => simp [hpending] at hpop
  | cons first rest =>
    rw [hpending] at hpop
    cases hpop
    obtain ⟨hsources, hparents⟩ := h.counters.pending node (by simp [hpending])
    by_cases hnew : node ∈ s.closure.contributorComplete
    · -- it has been complete before
      have heq : processCompleteContributor products node (s.onClosure fun c =>
          { c with pendingCompleteContributors := rest }) = s.onClosure fun c =>
          { c with pendingCompleteContributors := rest } := if_pos (Or.inl hnew)
      have hknown : known products (s.onClosure fun c =>
          { c with pendingCompleteContributors := rest }) = known products s := by
        ext f
        cases f with
        | complete n =>
          show n ∈ rest ∨ n ∈ s.closure.contributorComplete ↔
            n ∈ s.closure.pendingCompleteContributors ∨ n ∈ s.closure.contributorComplete
          rw [hpending, mem_cons]
          refine ⟨Or.imp_left Or.inr, ?_⟩
          rintro ((rfl | hn) | hn)
          · exact Or.inr hnew
          · exact Or.inl hn
          · exact Or.inr hn
        | _ => exact Iff.rfl
      have hdrawn : drawn (s.onClosure fun c =>
          { c with pendingCompleteContributors := rest }) = drawn s := by
        ext f
        cases f <;> exact Iff.rfl
      rw [heq]
      refine ⟨⟨⟨?_, hknown ▸ h.good.sound, hknown ▸ h.good.mentioned⟩, { h.counters with
        ready := fun n hlt hs hp => ?_
        pending := fun n hn => h.counters.pending n (by simp [hpending, show n ∈ rest from hn]) },
        h.demanded⟩, ⟨hknown.symm.subset, ?_⟩⟩
      · rw [hknown, hdrawn]
        exact { h.good.inv with }
      · rcases h.counters.ready n hlt hs hp with hn | hn
        · rw [hpending] at hn
          rcases mem_cons.mp hn with rfl | hn
          · exact Or.inr hnew
          · exact Or.inl hn
        · exact Or.inr hn
      · simp only [work, onClosure, hpending, length_cons]
        omega
    · obtain ⟨u, hu⟩ : ∃ u, u = s.onClosure fun c =>
          (products.contributorIndex.children node).foldl countParent { c with
            pendingCompleteContributors := rest
            contributorComplete := insert node c.contributorComplete } := ⟨_, rfl⟩
      have heq : processCompleteContributor products node (s.onClosure fun c =>
          { c with pendingCompleteContributors := rest }) =
          (products.groupsByRoot node).foldl (countRoot products) u := by
        rw [hu]
        exact if_neg (by simp [onClosure, hnew, hsources, hparents])
      obtain ⟨hgood, hdrawn, hknown, hcounters, hwork, hcomplete, hsource, hdemanded, hchildren,
        hroots, hmaterialized⟩ := popped_completeContributor hwf hclosed h hpending hnew hu
      have hbefore : {f | f ∈ drawn u ∧ f ≠ .complete node} = drawn s := by
        rw [hdrawn]
        ext f
        refine ⟨fun hf => hf.1.resolve_left hf.2, fun hf => ⟨Or.inr hf, ?_⟩⟩
        rintro rfl
        exact hnew hf
      have hstart : Rooting products members bound node u [] u := {
        good := hbefore ▸ hgood
        known := subset_rfl
        sourceProcessed := rfl
        contributorComplete := rfl
        pendingComplete := rfl
        missingSources := rfl
        missingParents := rfl
        demanded := by
          rw [hdemanded, hchildren]
          exact h.demanded
        missingRoots := fun g => by simp
        materialized := by
          rw [hmaterialized, hroots]
          exact h.counters.materialized
        work := le_refl _ }
      have hbound : ∀ root ∈ insert node s.closure.contributorComplete, .complete root ∈ bound :=
        fun root hr => hgood.sound (Or.inr (hcomplete ▸ hr))
      have hlast := rooting_foldl hwf hclosed hsame hstart (hwf.nodup_groupsByRoot node)
        (fun _ _ => not_mem_nil) hnew (fun g hg => (hwf.mem_groupsByRoot node g).mp hg)
        (hroots ▸ h.counters.missingRoots) hbound
      rw [heq]
      rw [nil_append] at hlast
      generalize (products.groupsByRoot node).foldl (countRoot products) u = v at hlast
      have hvcomplete : v.closure.contributorComplete =
          insert node s.closure.contributorComplete := hlast.contributorComplete.trans hcomplete
      have hgroups : GroupCounters products (insert node s.closure.contributorComplete)
          v.closure := by
        refine ⟨fun g => ?_, hlast.materialized⟩
        rw [hlast.missingRoots, hroots, h.counters.missingRoots,
          countP_notMem_insert (hwf.nodup_groupRoots g) hnew]
        simp only [hwf.mem_groupsByRoot]
      have hcontributors : ContributorCounters products s.closure.source.processed
          (insert node s.closure.contributorComplete) v.closure := {
        missingSources := hlast.missingSources ▸ hcounters.missingSources
        missingParents := hlast.missingParents ▸ hcounters.missingParents
        ready := by
          rw [hlast.missingSources, hlast.missingParents, hlast.pendingComplete,
            hlast.contributorComplete]
          exact hcounters.ready
        pending := by
          rw [hlast.missingSources, hlast.missingParents, hlast.pendingComplete]
          exact hcounters.pending }
      have hnode : .complete node ∈ drawn v := by
        show node ∈ v.closure.contributorComplete
        rw [hvcomplete]
        exact Finset.mem_insert_self ..
      have hafter : insert (.complete node) {f | f ∈ drawn v ∧ f ≠ .complete node} = drawn v := by
        ext f
        refine ⟨?_, fun hf => ?_⟩
        · rintro (rfl | hf)
          · exact hnode
          · exact hf.1
        · by_cases hf' : f = .complete node
          · exact Or.inl hf'
          · exact Or.inr ⟨hf, hf'⟩
      refine ⟨⟨{ hlast.good with inv := ?_ }, ?_, hlast.demanded⟩,
        ⟨hknown.trans hlast.known, hlast.work.trans_lt hwork⟩⟩
      · rw [← hafter]
        have hknown' : .complete node ∈ known products v := Or.inr hnode
        refine hlast.good.inv.draw hknown' (fun ps c hr hx hdone => ?_) (by simp) (by simp)
          (by simp) (by simp) (by simp)
        have hdrawn' : ∀ p ∈ ps, p ∈ drawn v := fun p hp =>
          (hdone p hp).elim (fun heq => heq ▸ hnode) And.left
        cases hr with
        | @complete n hlt =>
          refine hcontributors.complete_known hlt (fun unit hunit => ?_) fun parent hparent => ?_
          · have : unit ∈ v.closure.source.processed := hdrawn' (.retained unit) (by simp [hunit])
            rw [hlast.sourceProcessed, hsource] at this
            exact this
          · rw [← hvcomplete]
            exact hdrawn' (.complete parent) (by simp [hparent])
        | @materialized group hlt =>
          refine (hgroups.materialized group).mpr ⟨hlt, ?_⟩
          rw [hgroups.missingRoots, countP_eq_zero]
          intro root hroot
          have : root ∈ v.closure.contributorComplete :=
            hdrawn' (.complete root) (by simp [hroot])
          rw [hvcomplete] at this
          exact decide_eq_false (not_not.mpr this) ▸ Bool.false_ne_true
        | _ => simp at hx
      · rw [hlast.sourceProcessed, hsource, hvcomplete]
        exact { hcontributors, hgroups with }

end Steps

end ItemDependencies
