import ItemDependencies.Retention.MacroFixpoint

/-!
# Feeding the closure of macro products

However the nodes and source units are fed to the closure, after a call of
`close` it knows exactly what follows from them by the rules of macro
retention, provided that a shell depends on definitions of its own producer
only.  Without the proviso the order of the calls matters.
-/

namespace ItemDependencies

open Library RetentionClosure RetentionState List

variable {products : ValidatedMacroProducts} {members : ValidatedCompilerMemberConstraints}
  {s t : RetentionState} {f : MacroFact}

/-! ## Inputs -/

/-- Nodes and source units that have been fed to the closure. -/
structure RetentionInputs where
  present : Set GraphNode
  actual : Set GraphNode
  retained : Set SourceUnitId

namespace RetentionInputs

/-- The facts that the inputs are. -/
def facts (inputs : RetentionInputs) : Set MacroFact := fun
  | .present node => node ∈ inputs.present
  | .actual node => node ∈ inputs.actual
  | .retained unit => unit ∈ inputs.retained
  | _ => False

/-- What follows from the inputs. -/
def consequences (products : ValidatedMacroProducts) (members : ValidatedCompilerMemberConstraints)
    (inputs : RetentionInputs) : Set MacroFact :=
  {f | Derives (RetentionRule products members) inputs.facts f}

variable {inputs : RetentionInputs}

theorem mem_facts : f ∈ inputs.facts ↔
    (∃ node ∈ inputs.present, f = .present node) ∨ (∃ node ∈ inputs.actual, f = .actual node) ∨
      ∃ unit ∈ inputs.retained, f = .retained unit := by
  constructor
  · intro hf
    cases f with
    | present node => exact Or.inl ⟨node, hf, rfl⟩
    | actual node => exact Or.inr (Or.inl ⟨node, hf, rfl⟩)
    | retained unit => exact Or.inr (Or.inr ⟨unit, hf, rfl⟩)
    | _ => exact hf.elim
  · rintro (⟨node, hnode, rfl⟩ | ⟨node, hnode, rfl⟩ | ⟨unit, hunit, rfl⟩)
    · exact hnode
    · exact hnode
    · exact hunit

/-- What follows is an input, or mentioned by a rule. -/
theorem mentioned_of_derives (hwf : products.WellFormed)
    (h : Derives (RetentionRule products members) inputs.facts f) :
    f ∈ inputs.facts ∨ Mentioned products members f ∨
      ∃ definition, f = .actualDefinition definition ∧
        .actual (.definition definition) ∈ inputs.facts := by
  induction h with
  | input h => exact Or.inl h
  | @rule premises conclusion hr hp ih =>
    refine Or.inr ?_
    have hnode : ∀ {node : GraphNode} {f : MacroFact}, node ∈ mentionedNodes products members →
        InLane node f → Mentioned products members f := by
      rintro node f hnode (_ | _) <;> exact hnode
    have hproducer : ∀ {producer : Nat}, producer < products.outputMeaning.producers.length →
        producerAt products producer ∈ products.outputMeaning.producers := by
      intro producer hlt
      rw [producerAt, getD_eq_getElem?_getD, getElem?_eq_getElem hlt]
      exact getElem_mem hlt
    have hasks : ∀ {index : Nat} {clause : MacroDemandClause},
        products.demandClauses[index]? = some clause → ∀ f, ClauseAsks products clause f →
        Mentioned products members f := by
      intro index clause hclause f hf
      have hmem := mem_of_getElem? hclause
      cases hf with
      | required h => exact Or.inl (mem_flatMap.mpr ⟨clause, hmem, h⟩)
      | producer h => exact Or.inr ⟨_, hwf.target_lt clause hmem _ h, rfl⟩
      | group h hroot => exact hwf.root_lt _ _ hroot
    rcases hr with hr | hr
    · cases hr with
      | requirement h =>
        refine Or.inl ?_
        simp only [Mentioned, mentionedNodes, mem_append, mem_map]
        exact Or.inl (Or.inl (Or.inl (Or.inr ⟨_, h, rfl⟩)))
      | conditional h =>
        refine Or.inl ?_
        simp only [Mentioned, mentionedNodes, mem_append, mem_map]
        exact Or.inl (Or.inl (Or.inr ⟨_, h, rfl⟩))
      | actualRequirement h hf =>
        refine Or.inl (hnode ?_ hf)
        simp only [mentionedNodes, mem_append, mem_map]
        exact Or.inl (Or.inl (Or.inl (Or.inr ⟨_, h, rfl⟩)))
      | actualConditional h hf =>
        refine Or.inl (hnode ?_ hf)
        simp only [mentionedNodes, mem_append, mem_map]
        exact Or.inl (Or.inl (Or.inr ⟨_, h, rfl⟩))
      | @actualDefinition definition =>
        rcases ih (.actual (.definition definition)) (by simp) with hin | hm | ⟨_, heq, -⟩
        · exact Or.inr ⟨definition, rfl, hin⟩
        · exact Or.inl hm
        · cases heq
      | actualClass h ha hb hf =>
        refine Or.inl (hnode ?_ hf)
        simp only [mentionedNodes, mem_append, mem_flatten]
        exact Or.inl (Or.inl (Or.inl (Or.inl (Or.inr ⟨_, h, hb⟩))))
      | trigger _ _ hroot => exact Or.inl (hwf.root_lt _ _ hroot)
      | producerTrigger _ _ hroot => exact Or.inl (hwf.root_lt _ _ hroot)
      | @requestedSource node unit hunit =>
        refine Or.inl (mem_flatten.mpr ?_)
        rw [ValidatedContributorDag.sourcesAt, getD_eq_getElem?_getD] at hunit
        cases hn : products.contributorIndex.localSources[node]? with
        | none => simp [hn] at hunit
        | some sources => exact ⟨sources, mem_of_getElem? hn, by rwa [hn] at hunit⟩
      | @requestedParent node parent hparent =>
        have hlt : node < products.contributorIndex.count := by
          by_contra hge
          rw [ValidatedContributorDag.parentsAt, getD_eq_getElem?_getD,
            getElem?_eq_none (not_lt.mp hge)] at hparent
          exact absurd hparent not_mem_nil
        exact Or.inl ((hwf.parent_lt node parent hparent).trans hlt)
      | complete h => exact Or.inl h
      | materialized h => exact Or.inl h
      | product hm h =>
        refine Or.inl ?_
        simp only [Mentioned, mentionedNodes, mem_append, mem_flatMap]
        exact Or.inl (Or.inl (Or.inl (Or.inl (Or.inl ⟨_, mem_of_getElem? hm, Or.inl h⟩))))
      | ownerMember hm hr h =>
        refine Or.inl ?_
        simp only [Mentioned, mentionedNodes, mem_append, mem_flatMap, mem_map]
        exact Or.inl (Or.inl (Or.inl (Or.inl (Or.inl
          ⟨_, mem_of_getElem? hm, Or.inr ⟨_, hr, _, h, rfl⟩⟩))))
      | staticMeaning h =>
        exact Or.inl (mem_range.mp (mem_filter.mp h).1)
      | intrinsicMeaning _ hlt => exact Or.inl (hwf.producerByGroup_lt _ hlt)
      | dependentProducer h => exact Or.inl (hwf.dependentProducer_lt _ _ h)
      | demandedProducer h => exact Or.inl (Or.inr ⟨_, hwf.demandProducer_lt _ _ h, rfl⟩)
      | clause _ hclause _ hf => exact Or.inl (hasks hclause _ hf)
      | dependentClause _ _ hclause hf => exact Or.inl (hasks hclause _ hf)
      | @demandedActual expansion _ hf =>
        refine Or.inl (hnode ?_ hf)
        simp only [mentionedNodes, mem_append, mem_flatMap, mem_map]
        rcases ih (.demanded expansion) (by simp) with hin | (hm | ⟨producer, hlt, rfl⟩) |
          ⟨_, heq, -⟩
        · exact hin.elim
        · obtain ⟨clause, hclause, he⟩ := mem_flatMap.mp hm
          exact Or.inr ⟨clause, hclause, expansion, he, rfl⟩
        · exact Or.inl (Or.inr ⟨_, hproducer hlt, rfl⟩)
        · cases heq
    · cases hr with
      | child h => exact Or.inl (hwf.producerByGroup_lt _ (hwf.dependent_lt _ _ h))

end RetentionInputs

/-! ## Runs -/

/-- A call of the closure.  The nodes and units that are fed join the caller's sets. -/
inductive RetentionCall where
  | addPresence (nodes : List GraphNode)
  | addActual (nodes : List GraphNode)
  | addSource (units : List SourceUnitId)
  | close

namespace RetentionCall

section Definitions

variable (products : ValidatedMacroProducts) (members : ValidatedCompilerMemberConstraints)

def run (s : RetentionState) : RetentionCall → RetentionState
  | addPresence nodes =>
    { s with
      compilePresent := s.compilePresent.insertAll nodes
      closure := s.closure.addPresence nodes }
  | addActual nodes =>
    { s with
      actualRequired := s.actualRequired.insertAll nodes
      closure := s.closure.addActual nodes }
  | addSource units =>
    { s with
      retainedUnits := s.retainedUnits.insertAll units
      closure := s.closure.addSource units }
  | close => s.close products members

def start : RetentionState where
  closure := .new products
  compilePresent := ⟨∅, []⟩
  actualRequired := ⟨∅, []⟩
  retainedUnits := ⟨∅, []⟩

/-- The state after some calls of a new closure. -/
def runAll (calls : List RetentionCall) : RetentionState :=
  calls.foldl (run products members) (start products)

/-- What the calls have fed. -/
def fed (calls : List RetentionCall) : RetentionInputs where
  present := {node | ∃ nodes, addPresence nodes ∈ calls ∧ node ∈ nodes}
  actual := {node | ∃ nodes, addActual nodes ∈ calls ∧ node ∈ nodes}
  retained := {unit | ∃ units, addSource units ∈ calls ∧ unit ∈ units}

/-- What holds between two calls. -/
structure RunInv (calls : List RetentionCall) (s : RetentionState) : Prop where
  ready : Ready products members ((fed calls).consequences products members) s
  calm : Calm s
  fed_known : (fed calls).facts ⊆ known products s

end Definitions

theorem fed_append_close (calls : List RetentionCall) : fed (calls ++ [close]) = fed calls := by
  simp [fed]

theorem facts_fed_nil : (fed []).facts = ∅ := by
  ext f
  simp [RetentionInputs.mem_facts, fed]

/-- What one more call feeds. -/
theorem mem_facts_fed_append {calls : List RetentionCall} {call : RetentionCall} :
    f ∈ (fed (calls ++ [call])).facts ↔ f ∈ (fed calls).facts ∨ f ∈ (fed [call]).facts := by
  simp only [RetentionInputs.mem_facts, fed, Set.mem_ofPred_eq, mem_append, or_and_right, exists_or]
  grind

/-- Feeding more, as far as the facts are concerned. -/
theorem RunInv.feed {calls : List RetentionCall} {call : RetentionCall} (hwf : products.WellFormed)
    (h : RunInv products members calls s) (hknown : known products s ⊆ known products t)
    (hfed : (fed [call]).facts ⊆ known products t)
    (honly : ∀ f ∈ known products t, f ∈ known products s ∨ f ∈ (fed [call]).facts ∨
      ∃ definition, f = .actualDefinition definition ∧
        .actual (.definition definition) ∈ (fed [call]).facts)
    (hdrawn : drawn t = drawn s)
    (hinv : Inv products members (known products t) (drawn s) s →
      Inv products members (known products t) (drawn s) t)
    (hcounters : Counters products t.closure.source.processed t.closure.contributorComplete
      t.closure)
    (hdemanded : ∀ producer ∈ t.closure.demandedProducers.processed,
      producerAt products producer ∈ t.closure.processedDemandedChildren) (hcalm : Calm t) :
    RunInv products members (calls ++ [call]) t := by
  have hinv' := hinv (h.ready.good.inv.mono hknown)
  have hall : (fed (calls ++ [call])).facts ⊆ known products t := fun f hf =>
    (mem_facts_fed_append.mp hf).elim (fun hf => hknown (h.fed_known hf)) (hfed ·)
  refine ⟨⟨⟨hdrawn ▸ hinv', fun f hf => ?_, fun f hf => ?_⟩, hcounters, hdemanded⟩, hcalm, hall⟩
  · rcases honly f hf with hf | hf | ⟨definition, rfl, hd⟩
    · refine (isLeast_derives _ _).2 ⟨?_, (isLeast_derives _ _).1.2⟩ (h.ready.good.sound hf)
      exact fun f hf => .input (mem_facts_fed_append.mpr (Or.inl hf))
    · exact .input (mem_facts_fed_append.mpr (Or.inr hf))
    · refine .rule (Or.inl .actualDefinition) ?_
      simpa using .input (mem_facts_fed_append.mpr (Or.inr hd))
  · rcases RetentionInputs.mentioned_of_derives hwf hf with hin | hm | ⟨definition, rfl, hd⟩
    · exact Or.inl (hall hin)
    · exact Or.inr hm
    · exact Or.inl ((hinv'.actualDefinitions definition).mpr (hall hd))

/-! ### The start -/

theorem processed_ofList {α : Type} [DecidableEq α] {items : List α} (h : items.Nodup) :
    (Worklist.ofList items h).processed = ∅ := by
  ext x
  simp [Worklist.mem_processed, Worklist.ofList]

theorem drawn_start : drawn (start products) = ∅ := by
  refine Set.eq_empty_of_forall_notMem fun f hf => ?_
  cases f with
  | meaningful producer =>
    have hmem : producer ∈ (Worklist.ofList (staticProducers products)
      (nodup_staticProducers products)).processed := hf
    rw [processed_ofList] at hmem
    exact Finset.notMem_empty _ hmem
  | demanded expansion => exact Finset.notMem_empty _ hf.1
  | _ => exact Finset.notMem_empty _ hf

/-- A new closure knows what holds without premises. -/
theorem known_start (h : f ∈ known products (start products)) :
    MacroRule products members [] f := by
  cases f with
  | complete node =>
    have hfree : node ∈ freeContributors products := h.resolve_right (Finset.notMem_empty _)
    obtain ⟨hlt, hempty⟩ := mem_filter.mp hfree
    have hrule : MacroRule products members _ (.complete node) :=
      .complete (mem_range.mp hlt)
    simp only [Bool.and_eq_true, List.isEmpty_iff] at hempty
    rwa [hempty.1, hempty.2] at hrule
  | meaningful producer => exact .staticMeaning (mem_toFinset.mp h)
  | demanded expansion =>
    rcases h with h | ⟨producer, h, -⟩
    · exact (Finset.notMem_empty _ h).elim
    · exact (Finset.notMem_empty _ h).elim
  | _ => exact (Finset.notMem_empty _ h).elim

theorem known_start_of_rule (hwf : products.WellFormed) (h : MacroRule products members [] f) :
    f ∈ known products (start products) := by
  generalize hps : ([] : List MacroFact) = ps at h
  cases h with
  | @complete node hlt =>
    obtain ⟨hs, hp⟩ := append_eq_nil_iff.mp hps.symm
    refine Or.inl (mem_filter.mpr ⟨mem_range.mpr hlt, ?_⟩)
    simp [map_eq_nil_iff.mp hs, map_eq_nil_iff.mp hp]
  | @materialized group hlt =>
    exact absurd (map_eq_nil_iff.mp hps.symm) (hwf.groupRoots_ne_nil group hlt)
  | staticMeaning h => exact mem_toFinset.mpr h
  | _ => cases hps

theorem counters_start (hwf : products.WellFormed) :
    Counters products ∅ ∅ (RetentionClosure.new products) where
  missingSources node := by simp [RetentionClosure.new]
  missingParents node := by simp [RetentionClosure.new]
  ready node hlt hs hp := by
    refine Or.inl (mem_filter.mpr ⟨mem_range.mpr hlt, ?_⟩)
    simp [length_eq_zero_iff.mp hs, length_eq_zero_iff.mp hp]
  pending node hmem := by
    obtain ⟨-, hempty⟩ := mem_filter.mp hmem
    simp only [Bool.and_eq_true, List.isEmpty_iff] at hempty
    exact ⟨length_eq_zero_iff.mpr hempty.2, length_eq_zero_iff.mpr hempty.1⟩
  missingRoots group := by simp [RetentionClosure.new]
  materialized group := by
    refine ⟨fun h => (Finset.notMem_empty _ h).elim, fun ⟨hlt, hzero⟩ => ?_⟩
    exact absurd (length_eq_zero_iff.mp hzero) (hwf.groupRoots_ne_nil group hlt)

theorem inv_start (hwf : products.WellFormed) :
    Inv products members (known products (start products)) ∅ (start products) where
  agenda premises conclusion hr hp := by
    have hnil : premises = [] := eq_nil_iff_forall_not_mem.mpr hp
    exact known_start_of_rule hwf (hnil ▸ hr)
  done_known := Set.empty_subset _
  presence _ := Iff.rfl
  actualProducts _ := Iff.rfl
  actualDefinitions definition :=
    ⟨fun h => (Finset.notMem_empty _ h).elim, fun h => (Finset.notMem_empty _ h).elim⟩
  source _ := Iff.rfl
  compileMembers :=
    ⟨fun _ _ _ h => h.elim, fun _ _ h => (Finset.notMem_empty _ h).elim,
      fun _ _ _ h => (Finset.insert_ne_empty _ _ h.symm).elim⟩
  actualMembers :=
    ⟨fun _ _ _ h => h.elim, fun _ _ h => (Finset.notMem_empty _ h).elim,
      fun _ _ _ h => (Finset.insert_ne_empty _ _ h.symm).elim⟩
  classes _ h := (Finset.notMem_empty _ h).elim
  opened _ h := (Finset.notMem_empty _ h).elim
  dependencies _ h := h.elim
  dependencies_known _ h := (Finset.notMem_empty _ h).elim
  inherited _ h := (Finset.notMem_empty _ h).elim
  intrinsic _ h := (Finset.notMem_empty _ h).elim
  materialized_lt _ h := (Finset.notMem_empty _ h).elim
  carriers _ _ _ h := h.elim
  carriers_known _ h := (Finset.notMem_empty _ h).elim
  children _ _ _ h := h.elim
  children_known _ h := (Finset.notMem_empty _ h).elim
  ready _ _ _ h := (Finset.notMem_empty _ h).elim
  satisfied _ h := (Finset.notMem_empty _ h).elim
  demandedProducers_lt _ h := (Finset.notMem_empty _ h).elim
  required_nodup := nodup_nil
  required_demanded _ h := (not_mem_nil h).elim

theorem runInv_start (hwf : products.WellFormed) : RunInv products members [] (start products) where
  ready := {
    good := {
      inv := by
        rw [drawn_start]
        exact inv_start hwf
      sound := fun f hf => .rule (Or.inl (known_start hf)) (by simp)
      mentioned := fun f hf => by
        rcases RetentionInputs.mentioned_of_derives hwf hf with hin | hm | ⟨definition, rfl, hd⟩
        · rw [facts_fed_nil] at hin
          exact hin.elim
        · exact Or.inr hm
        · rw [facts_fed_nil] at hd
          exact hd.elim }
    counters := counters_start hwf
    demanded := fun _ h => (Finset.notMem_empty _ h).elim }
  calm := Or.inl rfl
  fed_known := by
    rw [facts_fed_nil]
    exact Set.empty_subset _

/-! ### The calls -/

section Calls

variable {calls : List RetentionCall} (hwf : products.WellFormed)

/-- Queueing nodes and units does not change the counters. -/
theorem Counters.queue {sources : Finset SourceUnitId} {complete : Finset Nat}
    {c : RetentionClosure} (h : Counters products sources complete c)
    (presence actualProducts : Worklist GraphNode) (actualDefinitions : Worklist DefinitionId)
    (source : Worklist SourceUnitId) :
    Counters products sources complete { c with
      presence := presence
      actualProducts := actualProducts
      actualDefinitions := actualDefinitions
      source := source } :=
  ⟨⟨h.missingSources, h.missingParents, h.ready, h.pending⟩, ⟨h.missingRoots, h.materialized⟩⟩

theorem mem_fed_present {nodes : List GraphNode} :
    f ∈ (fed [addPresence nodes]).facts ↔ ∃ node ∈ nodes, f = .present node := by
  simp [fed, RetentionInputs.mem_facts]

theorem mem_fed_actual {nodes : List GraphNode} :
    f ∈ (fed [addActual nodes]).facts ↔ ∃ node ∈ nodes, f = .actual node := by
  simp [fed, RetentionInputs.mem_facts]

theorem mem_fed_source {units : List SourceUnitId} :
    f ∈ (fed [addSource units]).facts ↔ ∃ unit ∈ units, f = .retained unit := by
  simp [fed, RetentionInputs.mem_facts]

include hwf in
theorem runInv_addPresence (h : RunInv products members calls s) (nodes : List GraphNode) :
    RunInv products members (calls ++ [addPresence nodes])
      (run products members s (addPresence nodes)) := by
  have hdrawn : drawn (run products members s (addPresence nodes)) = drawn s := by
    funext f
    cases f with
    | present node => exact congrArg (node ∈ ·) Worklist.processed_addAll
    | _ => rfl
  refine h.feed hwf ?_ ?_ ?_ hdrawn (fun inv => { inv with presence := fun n => ?_ })
    (Counters.queue h.ready.counters ..) h.ready.demanded h.calm
  · intro f hf
    cases f with
    | present node => exact Lane.mem_required_insertAll.mpr (Or.inr hf)
    | _ => exact hf
  · intro f hf
    obtain ⟨node, hnode, rfl⟩ := mem_fed_present.mp hf
    exact Lane.mem_required_insertAll.mpr (Or.inl hnode)
  · intro f hf
    cases f with
    | present node =>
      refine (Lane.mem_required_insertAll.mp hf).elim (fun hn => ?_) Or.inl
      exact Or.inr (Or.inl (mem_fed_present.mpr ⟨node, hn, rfl⟩))
    | _ => exact Or.inl hf
  · show n ∈ (s.closure.presence.addAll nodes).seen ↔
      n ∈ (s.compilePresent.insertAll nodes).required
    rw [Worklist.mem_seen_addAll, Lane.mem_required_insertAll, inv.presence]

include hwf in
theorem runInv_addSource (h : RunInv products members calls s) (units : List SourceUnitId) :
    RunInv products members (calls ++ [addSource units])
      (run products members s (addSource units)) := by
  have hprocessed : (s.closure.source.addAll units).processed = s.closure.source.processed :=
    Worklist.processed_addAll
  have hdrawn : drawn (run products members s (addSource units)) = drawn s := by
    funext f
    cases f with
    | retained unit => exact congrArg (unit ∈ ·) hprocessed
    | _ => rfl
  have hcounters : Counters products (s.closure.source.addAll units).processed
      s.closure.contributorComplete (s.closure.addSource units) := by
    rw [hprocessed]
    exact Counters.queue h.ready.counters ..
  refine h.feed hwf ?_ ?_ ?_ hdrawn (fun inv => { inv with source := fun u => ?_ }) hcounters
    h.ready.demanded h.calm
  · intro f hf
    cases f with
    | retained unit => exact Lane.mem_required_insertAll.mpr (Or.inr hf)
    | _ => exact hf
  · intro f hf
    obtain ⟨unit, hunit, rfl⟩ := mem_fed_source.mp hf
    exact Lane.mem_required_insertAll.mpr (Or.inl hunit)
  · intro f hf
    cases f with
    | retained unit =>
      refine (Lane.mem_required_insertAll.mp hf).elim (fun hu => ?_) Or.inl
      exact Or.inr (Or.inl (mem_fed_source.mpr ⟨unit, hu, rfl⟩))
    | _ => exact Or.inl hf
  · show u ∈ (s.closure.source.addAll units).seen ↔ u ∈ (s.retainedUnits.insertAll units).required
    rw [Worklist.mem_seen_addAll, Lane.mem_required_insertAll, inv.source]

/-- What feeding some actual nodes does to the closure. -/
theorem addActual_eq (c : RetentionClosure) (nodes : List GraphNode) :
    ∃ definitions : Worklist DefinitionId,
      c.addActual nodes = { c with
        actualDefinitions := definitions
        actualProducts := c.actualProducts.addAll nodes } ∧
      (∀ definition, definition ∈ definitions.seen ↔
        .definition definition ∈ nodes ∨ definition ∈ c.actualDefinitions.seen) ∧
      definitions.processed = c.actualDefinitions.processed := by
  induction nodes generalizing c with
  | nil => exact ⟨c.actualDefinitions, rfl, by simp, rfl⟩
  | cons node nodes ih =>
    obtain ⟨first, heq, hseen, hprocessed, -⟩ := addActual_singleton c node
    obtain ⟨definitions, heq', hseen', hprocessed'⟩ := ih (c.addActual [node])
    refine ⟨definitions, ?_, fun d => ?_, ?_⟩
    · show (c.addActual [node]).addActual nodes = _
      rw [heq', heq]
      rfl
    · rw [hseen', heq]
      show _ ∨ d ∈ first.seen ↔ _
      rw [hseen, mem_cons, eq_comm]
      tauto
    · rw [hprocessed', heq]
      exact hprocessed

include hwf in
theorem runInv_addActual (h : RunInv products members calls s) (nodes : List GraphNode) :
    RunInv products members (calls ++ [addActual nodes])
      (run products members s (addActual nodes)) := by
  obtain ⟨definitions, heq, hseen, hprocessed⟩ := addActual_eq s.closure nodes
  simp only [run]
  rw [heq]
  refine h.feed hwf ?_ ?_ ?_ ?_
    (fun inv => { inv with actualProducts := fun n => ?_, actualDefinitions := fun d => ?_ })
    (Counters.queue h.ready.counters ..) h.ready.demanded h.calm
  · intro f hf
    cases f with
    | actual node => exact Lane.mem_required_insertAll.mpr (Or.inr hf)
    | actualDefinition definition => exact (hseen definition).mpr (Or.inr hf)
    | _ => exact hf
  · intro f hf
    obtain ⟨node, hnode, rfl⟩ := mem_fed_actual.mp hf
    exact Lane.mem_required_insertAll.mpr (Or.inl hnode)
  · intro f hf
    cases f with
    | actual node =>
      refine (Lane.mem_required_insertAll.mp hf).elim (fun hn => ?_) Or.inl
      exact Or.inr (Or.inl (mem_fed_actual.mpr ⟨node, hn, rfl⟩))
    | actualDefinition definition =>
      refine ((hseen definition).mp hf).elim (fun hn => ?_) Or.inl
      exact Or.inr (Or.inr ⟨definition, rfl, mem_fed_actual.mpr ⟨_, hn, rfl⟩⟩)
    | _ => exact Or.inl hf
  · funext f
    cases f with
    | actual node => exact congrArg (node ∈ ·) Worklist.processed_addAll
    | actualDefinition definition => exact congrArg (definition ∈ ·) hprocessed
    | _ => rfl
  · show n ∈ (s.closure.actualProducts.addAll nodes).seen ↔
      n ∈ (s.actualRequired.insertAll nodes).required
    rw [Worklist.mem_seen_addAll, Lane.mem_required_insertAll, inv.actualProducts]
  · show d ∈ definitions.seen ↔ .definition d ∈ (s.actualRequired.insertAll nodes).required
    rw [hseen, Lane.mem_required_insertAll, inv.actualDefinitions]

variable (hsame : SameProducer products)

include hwf hsame in
theorem runInv_close (h : RunInv products members calls s) :
    RunInv products members (calls ++ [close]) (run products members s close) ∧
      busy (run products members s close) = false := by
  obtain ⟨hready, hcalm, hknown, hidle⟩ :=
    ready_close hwf (isLeast_derives _ _).1.2 hsame h.ready h.calm
  refine ⟨⟨?_, hcalm, ?_⟩, hidle⟩
  · rw [fed_append_close]
    exact hready
  · rw [fed_append_close]
    exact h.fed_known.trans hknown

include hwf hsame in
/-- Every call keeps the invariant. -/
theorem runInv_run (h : RunInv products members calls s) (call : RetentionCall) :
    RunInv products members (calls ++ [call]) (run products members s call) := by
  cases call with
  | addPresence nodes => exact runInv_addPresence hwf h nodes
  | addActual nodes => exact runInv_addActual hwf h nodes
  | addSource units => exact runInv_addSource hwf h units
  | close => exact (runInv_close hwf hsame h).1

theorem runAll_append (calls : List RetentionCall) (call : RetentionCall) :
    runAll products members (calls ++ [call]) =
      run products members (runAll products members calls) call := foldl_append ..

include hwf hsame in
theorem runInv_runAll (calls : List RetentionCall) :
    RunInv products members calls (runAll products members calls) := by
  induction calls using List.reverseRecOn with
  | nil => exact runInv_start hwf
  | append_singleton calls call ih =>
    rw [runAll_append]
    exact runInv_run hwf hsame ih call

include hwf hsame in
/-- After a call of `close` the closure knows what follows from what it has been fed. -/
theorem known_runAll_close (calls : List RetentionCall) :
    known products (runAll products members (calls ++ [close])) =
      (fed calls).consequences products members := by
  rw [runAll_append]
  have hcalls : RunInv products members calls (runAll products members calls) :=
    runInv_runAll hwf hsame calls
  obtain ⟨h, hidle⟩ := runInv_close hwf hsame hcalls
  rw [← fed_append_close]
  refine subset_antisymm h.ready.good.sound ?_
  exact (isLeast_derives _ _).2 ⟨h.fed_known, h.ready.closed hwf hsame hidle⟩

end Calls

/-- However the nodes and units are fed, the closure ends with the least set of facts that has them
and is closed under the rules. -/
theorem runAll_close_consequences (members : ValidatedCompilerMemberConstraints)
    {dag : MacroContributorDag} {sourceUnitCount : Nat}
    {materializations : List MacroMaterialization} {delegated refined : Finset ExpansionId}
    {complete : ValidatedCompleteMacroOutputMeaning} {facts : MacroGroupFacts}
    (h : ValidatedMacroProducts.new dag sourceUnitCount materializations delegated refined complete
      facts = .ok products)
    (hsame : SameProducer products) (calls calls' : List RetentionCall)
    (hfed : fed calls = fed calls') :
    IsLeast {X | (fed calls).facts ⊆ X ∧ Closed (RetentionRule products members) X}
        (known products (runAll products members (calls ++ [close]))) ∧
      (runAll products members (calls ++ [close])).compilePresent.required =
        (runAll products members (calls' ++ [close])).compilePresent.required ∧
      (runAll products members (calls ++ [close])).actualRequired.required =
        (runAll products members (calls' ++ [close])).actualRequired.required ∧
      (runAll products members (calls ++ [close])).retainedUnits.required =
        (runAll products members (calls' ++ [close])).retainedUnits.required := by
  have hwf := ValidatedMacroProducts.new_wellFormed h
  have hleast : known products (runAll products members (calls ++ [close])) =
      (fed calls).consequences products members := known_runAll_close hwf hsame calls
  have heq : known products (runAll products members (calls ++ [close])) =
      known products (runAll products members (calls' ++ [close])) := by
    rw [hleast, known_runAll_close hwf hsame calls', hfed]
  refine ⟨hleast ▸ isLeast_derives _ _, ?_, ?_, ?_⟩
  · ext node
    exact iff_of_eq (congrFun heq (.present node))
  · ext node
    exact iff_of_eq (congrFun heq (.actual node))
  · ext unit
    exact iff_of_eq (congrFun heq (.retained unit))

/-- A group with a definition, a group whose shell depends on it, and a group with the expansion of
the shell's producer. -/
def shellMaterializations (producer : ExpansionId) : List MacroMaterialization :=
  [{ producer := producer
     products := [.definition ⟨0⟩]
     ownerRequirements := []
     contributorRoots := [⟨0⟩]
     identityCohortRoot := none },
   { producer := ⟨0⟩
     products := []
     ownerRequirements := [⟨⟨1⟩, [], .transparentShell [.definition ⟨0⟩]⟩]
     contributorRoots := [⟨1⟩]
     identityCohortRoot := none },
   { producer := producer
     products := [.expansion ⟨0⟩]
     ownerRequirements := []
     contributorRoots := [⟨2⟩]
     identityCohortRoot := none }]

def shellProducts (producer : ExpansionId) : Except RetentionError ValidatedMacroProducts :=
  ValidatedMacroProducts.new ⟨[⟨[⟨0⟩], []⟩, ⟨[⟨1⟩], []⟩, ⟨[⟨2⟩], []⟩]⟩ 3
    (shellMaterializations producer) ∅ {⟨0⟩, producer} ⟨{⟨0⟩, producer}, [], List.Pairwise.nil⟩
    ⟨[[], [], []], false, [[], [], []], false⟩

theorem runAll_close_consequences_shell :
    ∃ products, shellProducts ⟨0⟩ = .ok products ∧
      (runAll products ⟨[], [], []⟩
          [.addPresence [.definition ⟨0⟩, .expansion ⟨0⟩], .addSource [⟨1⟩],
            .close]).retainedUnits.required =
        (runAll products ⟨[], [], []⟩
          [.addSource [⟨1⟩], .close, .addPresence [.definition ⟨0⟩, .expansion ⟨0⟩],
            .close]).retainedUnits.required := by
  refine ⟨_, rfl, ?_⟩
  refine (runAll_close_consequences ⟨[], [], []⟩
    (show shellProducts ⟨0⟩ = .ok _ from rfl) (fun _ other group _ _ => ?_)
    [.addPresence [.definition ⟨0⟩, .expansion ⟨0⟩], .addSource [⟨1⟩]]
    [.addSource [⟨1⟩], .close, .addPresence [.definition ⟨0⟩, .expansion ⟨0⟩]] ?_).2.2.2
  · -- there is one producer
    have hone : ∀ group, ((shellMaterializations ⟨0⟩)[group]?.bind fun m : MacroMaterialization =>
        MacroOutputMeaningIndex.indexIn (ascending {⟨0⟩}) m.producer).getD 0 = 0
      | 0 => rfl
      | 1 => rfl
      | 2 => rfl
      | _ + 3 => rfl
    exact (hone group).trans (hone other).symm
  · simp [fed, or_comm]

/-- The shell of another producer learns of the definition only before its group materializes. -/
theorem runAll_close_shell_order :
    ∃ products, shellProducts ⟨1⟩ = .ok products ∧
      fed [.addPresence [.definition ⟨0⟩, .expansion ⟨0⟩], .addSource [⟨1⟩], .close] =
        fed [.addSource [⟨1⟩], .close, .addPresence [.definition ⟨0⟩, .expansion ⟨0⟩], .close] ∧
      (runAll products ⟨[], [], []⟩
          [.addPresence [.definition ⟨0⟩, .expansion ⟨0⟩], .addSource [⟨1⟩],
            .close]).retainedUnits.required ≠
        (runAll products ⟨[], [], []⟩
          [.addSource [⟨1⟩], .close, .addPresence [.definition ⟨0⟩, .expansion ⟨0⟩],
            .close]).retainedUnits.required := by
  refine ⟨_, rfl, ?_, by decide +kernel⟩
  simp [fed, or_comm]

end RetentionCall

end ItemDependencies
