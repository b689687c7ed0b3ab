import ItemDependencies.Retention.MacroInvariant

/-!
# The operations of the closure keep its invariant

One lemma for each operation by which an item that is processed adds facts.
-/

namespace ItemDependencies

open Library RetentionClosure RetentionState List

variable {products : ValidatedMacroProducts} {members : ValidatedCompilerMemberConstraints}
  {loud : Prop} {bound done added added' : Set MacroFact} {s t : RetentionState}
  {child : ExpansionId} {definition : DefinitionId}

/-- A step that adds some facts of the bound and no others. -/
theorem Keeps.of_advance (h : Good products members bound done s)
    (advance : Advance products members loud s t) (added_known : added ⊆ known products t)
    (only : ∀ f ∈ known products t, f ∈ known products s ∨ f ∈ added) (hadded : added ⊆ bound)
    (inv : Inv products members (known products t) done s →
      Inv products members (known products t) done t) :
    Keeps products members loud bound done added s t where
  good := {
    inv := inv (h.inv.mono advance.known)
    sound := fun f hf => (only f hf).elim (h.sound ·) (hadded ·)
    mentioned := fun f hf => (h.mentioned f hf).imp_left (advance.known ·) }
  advance := advance
  added := added_known

/-- A step that sets flags only. -/
theorem Keeps.of_flags (f : RetentionClosure → RetentionClosure)
    (h : Good products members bound done s)
    (advance : Advance products members loud s (s.onClosure f))
    (only : ∀ x, x ∈ known products (s.onClosure f) → x ∈ known products s)
    (inv : Inv products members (known products s) done (s.onClosure f)) :
    Keeps products members loud bound done ∅ s (s.onClosure f) :=
  Keeps.of_advance h advance (Set.empty_subset _) (fun x hx => Or.inl (only x hx))
    (Set.empty_subset _) fun _ => inv.mono advance.known

/-- The parts of the work that is left. -/
theorem work_le
    (presence : t.closure.presence.left (mentionedNodes products members) ≤
      s.closure.presence.left (mentionedNodes products members))
    (actualProducts : t.closure.actualProducts.left (mentionedNodes products members) ≤
      s.closure.actualProducts.left (mentionedNodes products members))
    (actualDefinitions : t.closure.actualDefinitions.left (mentionedDefinitions products members) ≤
      s.closure.actualDefinitions.left (mentionedDefinitions products members))
    (source : t.closure.source.left (mentionedSources products) ≤
      s.closure.source.left (mentionedSources products))
    (requested : t.closure.requestedContributors.left (contributors products) ≤
      s.closure.requestedContributors.left (contributors products))
    (complete : total t.closure.contributorMissingSources (contributors products) +
        total t.closure.contributorMissingParents (contributors products) +
        t.closure.pendingCompleteContributors.length ≤
      total s.closure.contributorMissingSources (contributors products) +
        total s.closure.contributorMissingParents (contributors products) +
        s.closure.pendingCompleteContributors.length)
    (meaningful : t.closure.meaningfulProducers.left (producers products) ≤
      s.closure.meaningfulProducers.left (producers products))
    (demanded : t.closure.demandedProducers.left (producers products) ≤
      s.closure.demandedProducers.left (producers products))
    (required : requiredLeft products t.closure.processedDemandedChildren
        t.closure.pendingRequiredExpansions ≤
      requiredLeft products s.closure.processedDemandedChildren
        s.closure.pendingRequiredExpansions) :
    work products members t ≤ work products members s := by
  simp only [work]
  omega

/-! ## Nodes and source units -/

theorem keeps_requireMaterializedCompile {node : GraphNode}
    (h : Good products members bound done s) (hb : .present node ∈ bound) :
    Keeps products members loud bound done {.present node} s
      (s.requireMaterializedCompile node) := by
  unfold requireMaterializedCompile
  split
  · rename_i hmem
    exact (Keeps.refl h).weaken fun f hf => Or.inr (hf ▸ hmem)
  · rename_i hmem
    have hseen : node ∉ s.closure.presence.seen := fun hs => hmem ((h.inv.presence node).mp hs)
    refine Keeps.of_advance h ?_ ?_ ?_ (Set.singleton_subset_iff.mpr hb) fun inv => ?_
    · refine { Advance.refl products members loud s with
        compilePresent := ?_, presenceProcessed := ?_, work := ?_ }
      · exact fun n hn => Lane.mem_required_insert.mpr (Or.inr hn)
      · exact Worklist.processed_addAll
      · have hwork : (s.closure.presence.addAll [node]).left (mentionedNodes products members) ≤
            s.closure.presence.left (mentionedNodes products members) :=
          Worklist.left_add (Or.inl ((h.mentioned _ hb).resolve_left hmem))
        exact work_le hwork le_rfl le_rfl le_rfl le_rfl le_rfl le_rfl le_rfl le_rfl
    · exact Set.singleton_subset_iff.mpr (Lane.mem_required_insert.mpr (Or.inl rfl))
    · intro f hf
      cases f with
      | present n =>
        rcases Lane.mem_required_insert.mp hf with rfl | hn
        · exact Or.inr rfl
        · exact Or.inl hn
      | _ => exact Or.inl hf
    · refine { inv with presence := fun n => ?_ }
      show n ∈ (s.closure.presence.addAll [node]).seen ↔ n ∈ (s.compilePresent.insert node).required
      simp [h.inv.presence n]

/-- What feeding one actual node does to the closure. -/
theorem addActual_singleton (c : RetentionClosure) (node : GraphNode) :
    ∃ definitions : Worklist DefinitionId,
      c.addActual [node] = { c with
        actualDefinitions := definitions
        actualProducts := c.actualProducts.add node } ∧
      (∀ definition, definition ∈ definitions.seen ↔
        node = .definition definition ∨ definition ∈ c.actualDefinitions.seen) ∧
      definitions.processed = c.actualDefinitions.processed ∧
      ∀ items, (∀ definition, node = .definition definition → definition ∈ items) →
        definitions.left items ≤ c.actualDefinitions.left items := by
  cases node with
  | definition definition =>
    refine ⟨c.actualDefinitions.add definition, rfl, fun d => ?_, Worklist.processed_add,
      fun items h => Worklist.left_add (Or.inl (h definition rfl))⟩
    rw [Worklist.mem_seen_add, GraphNode.definition.injEq, eq_comm]
  | _ => exact ⟨c.actualDefinitions, rfl, by simp, rfl, fun _ _ => le_refl _⟩

theorem mem_mentionedDefinitions :
    definition ∈ mentionedDefinitions products members ↔
      .definition definition ∈ mentionedNodes products members := by
  simp only [mentionedDefinitions, mem_filterMap]
  constructor
  · rintro ⟨node, hnode, heq⟩
    cases node <;> simp_all
  · exact fun h => ⟨_, h, rfl⟩

/-- A node becomes actual. -/
theorem keeps_addActual {node : GraphNode} (h : Good products members bound done s)
    (hmem : node ∉ s.actualRequired.required) (hb : .actual node ∈ bound)
    (hdefinition : ∀ definition, node = .definition definition →
      .actualDefinition definition ∈ bound) :
    Keeps products members loud bound done
      {f | f = .actual node ∨ ∃ definition, node = .definition definition ∧
        f = .actualDefinition definition} s
      { s with
        actualRequired := s.actualRequired.insert node
        closure := s.closure.addActual [node] } := by
  have hnode : node ∈ mentionedNodes products members := (h.mentioned _ hb).resolve_left hmem
  obtain ⟨definitions, heq, hseen, hprocessed, hleft⟩ := addActual_singleton s.closure node
  rw [heq]
  refine Keeps.of_advance h ?_ ?_ ?_ ?_ fun inv => ?_
  · refine { Advance.refl products members loud s with
      actualRequired := ?_, actualDefinitions := ?_, actualProcessed := ?_,
      definitionsProcessed := ?_, work := ?_ }
    · exact fun n hn => Lane.mem_required_insert.mpr (Or.inr hn)
    · exact fun d hd => (hseen d).mpr (Or.inr hd)
    · exact Worklist.processed_add
    · exact hprocessed
    · have hproducts :
          (s.closure.actualProducts.add node).left (mentionedNodes products members) ≤
            s.closure.actualProducts.left (mentionedNodes products members) :=
        Worklist.left_add (Or.inl hnode)
      have hdefinitions := hleft (mentionedDefinitions products members) fun d hd =>
        mem_mentionedDefinitions.mpr (hd ▸ hnode)
      exact work_le le_rfl hproducts hdefinitions le_rfl le_rfl le_rfl le_rfl le_rfl le_rfl
  · rintro f (rfl | ⟨d, hd, rfl⟩)
    · exact Lane.mem_required_insert.mpr (Or.inl rfl)
    · exact (hseen d).mpr (Or.inl hd)
  · intro f hf
    cases f with
    | actual n =>
      rcases Lane.mem_required_insert.mp hf with rfl | hn
      · exact Or.inr (Or.inl rfl)
      · exact Or.inl hn
    | actualDefinition d =>
      rcases (hseen d).mp hf with hd | hd
      · exact Or.inr (Or.inr ⟨d, hd, rfl⟩)
      · exact Or.inl hd
    | _ => exact Or.inl hf
  · rintro f (rfl | ⟨d, hd, rfl⟩)
    · exact hb
    · exact hdefinition d hd
  · refine { inv with actualProducts := fun n => ?_, actualDefinitions := fun d => ?_ }
    · show n ∈ (s.closure.actualProducts.add node).seen ↔
        n ∈ (s.actualRequired.insert node).required
      rw [Worklist.mem_seen_add, Lane.mem_required_insert, h.inv.actualProducts]
    · show d ∈ definitions.seen ↔ .definition d ∈ (s.actualRequired.insert node).required
      rw [hseen, Lane.mem_required_insert, h.inv.actualDefinitions, eq_comm]

/-- The facts that make a node actual. -/
theorem keeps_requireActual {node : GraphNode}
    (hclosed : Closed (RetentionRule products members) bound)
    (h : Good products members bound done s) (hb : ∀ f, InLane node f → f ∈ bound) :
    Keeps products members loud bound done {f | InLane node f} s (s.requireActual node) := by
  have hdefinition : ∀ definition, node = .definition definition →
      .actualDefinition definition ∈ bound := by
    rintro definition rfl
    exact hclosed _ _ (Or.inl .actualDefinition) (by simpa using hb _ .actual)
  have h₁ : Keeps products members loud bound done {.present node} s
      (s.requireMaterializedCompile node) := keeps_requireMaterializedCompile h (hb _ .present)
  simp only [requireActual]
  split
  · rename_i hmem
    refine ⟨h₁.good, h₁.advance, fun f hf => ?_⟩
    cases hf with
    | present => exact h₁.added rfl
    | actual => exact hmem
  · rename_i hmem
    refine (h₁.trans (keeps_addActual h₁.good hmem (hb _ .actual) hdefinition)).weaken
      fun f hf => Or.inl ?_
    cases hf with
    | present => exact Or.inl rfl
    | actual => exact Or.inr (Or.inl rfl)

theorem keeps_retainSource {unit : SourceUnitId} (h : Good products members bound done s)
    (hb : .retained unit ∈ bound) :
    Keeps products members loud bound done {.retained unit} s (s.retainSource unit) := by
  unfold retainSource
  split
  · rename_i hmem
    exact (Keeps.refl h).weaken fun f hf => Or.inr (hf ▸ hmem)
  · rename_i hmem
    refine Keeps.of_advance h ?_ ?_ ?_ (Set.singleton_subset_iff.mpr hb) fun inv => ?_
    · refine { Advance.refl products members loud s with
        retainedUnits := ?_, sourceProcessed := ?_, work := ?_ }
      · exact fun n hn => Lane.mem_required_insert.mpr (Or.inr hn)
      · exact Worklist.processed_addAll
      · have hwork : (s.closure.source.addAll [unit]).left (mentionedSources products) ≤
            s.closure.source.left (mentionedSources products) :=
          Worklist.left_add (Or.inl ((h.mentioned _ hb).resolve_left hmem))
        exact work_le le_rfl le_rfl le_rfl hwork le_rfl le_rfl le_rfl le_rfl le_rfl
    · exact Set.singleton_subset_iff.mpr (Lane.mem_required_insert.mpr (Or.inl rfl))
    · intro f hf
      cases f with
      | retained u =>
        rcases Lane.mem_required_insert.mp hf with rfl | hu
        · exact Or.inr rfl
        · exact Or.inl hu
      | _ => exact Or.inl hf
    · refine { inv with source := fun u => ?_ }
      show u ∈ (s.closure.source.addAll [unit]).seen ↔ u ∈ (s.retainedUnits.insert unit).required
      simp [h.inv.source u]

/-! ## Contributors -/

theorem keeps_requestContributor {node : Nat} (h : Good products members bound done s)
    (hb : .requested node ∈ bound) :
    Keeps products members loud bound done {.requested node} s
      (s.onClosure fun c => c.requestContributor node) := by
  refine Keeps.of_advance h ?_ ?_ ?_ (Set.singleton_subset_iff.mpr hb) fun inv => ?_
  · refine { Advance.refl products members loud s with
      requested := ?_, requestedProcessed := ?_, work := ?_ }
    · exact Worklist.seen_subset_add
    · exact Worklist.processed_add
    · have hwork : (s.closure.requestedContributors.add node).left (contributors products) ≤
          s.closure.requestedContributors.left (contributors products) := by
        refine Worklist.left_add ?_
        rcases h.mentioned _ hb with hk | hm
        · exact Or.inr hk
        · exact Or.inl (mem_range.mpr hm)
      exact work_le le_rfl le_rfl le_rfl le_rfl hwork le_rfl le_rfl le_rfl le_rfl
  · exact Set.singleton_subset_iff.mpr (Worklist.mem_seen_add.mpr (Or.inl rfl))
  · intro f hf
    cases f with
    | requested n =>
      rcases Worklist.mem_seen_add.mp hf with rfl | hn
      · exact Or.inr rfl
      · exact Or.inl hn
    | _ => exact Or.inl hf
  · exact { inv with }

theorem onClosure_foldl {α : Type} (f : RetentionClosure → α → RetentionClosure) (l : List α)
    (s : RetentionState) :
    (s.onClosure fun c => l.foldl f c) = l.foldl (fun s a => s.onClosure fun c => f c a) s := by
  induction l generalizing s with
  | nil => rfl
  | cons a l ih => exact ih (s.onClosure fun c => f c a)

theorem keeps_requestContributors {nodes : List Nat} (h : Good products members bound done s)
    (hb : ∀ node ∈ nodes, .requested node ∈ bound) :
    Keeps products members loud bound done {f | ∃ node ∈ nodes, f = .requested node} s
      (s.onClosure fun c => nodes.foldl requestContributor c) := by
  rw [onClosure_foldl]
  exact Keeps.foldl h fun s node hnode hs _ => keeps_requestContributor hs (hb node hnode)

theorem keeps_requestGroupSources {group : Nat} (h : Good products members bound done s)
    (hb : ∀ root ∈ groupRoots products group, .requested root ∈ bound) :
    Keeps products members loud bound done
      {f | ∃ root ∈ groupRoots products group, f = .requested root} s
      (s.onClosure fun c => requestGroupSources products c group) := by
  by_cases hopen : group ∈ s.closure.macroSourcesOpened
  · have heq : (s.onClosure fun c => requestGroupSources products c group) = s := by
      simp only [onClosure, requestGroupSources, hopen, if_true]
    rw [heq]
    refine (Keeps.refl h).weaken fun f hf => Or.inr ?_
    obtain ⟨root, hroot, rfl⟩ := hf
    exact h.inv.opened group hopen root hroot
  · -- the roots are requested before the flag is set, so that the flag is right throughout
    have hflag : ∀ (nodes : List Nat) (c : RetentionClosure),
        nodes.foldl requestContributor
            { c with macroSourcesOpened := insert group c.macroSourcesOpened } =
          { nodes.foldl requestContributor c with
            macroSourcesOpened :=
              insert group (nodes.foldl requestContributor c).macroSourcesOpened } := by
      intro nodes
      induction nodes with
      | nil => exact fun _ => rfl
      | cons node nodes ih => exact fun c => ih (c.requestContributor node)
    have heq : (s.onClosure fun c => requestGroupSources products c group) =
        (s.onClosure fun c => (groupRoots products group).foldl requestContributor c).onClosure
          fun c => { c with macroSourcesOpened := insert group c.macroSourcesOpened } := by
      simp only [onClosure, requestGroupSources, hopen, if_false, hflag]
    have h₁ : Keeps products members loud bound done
        {f | ∃ root ∈ groupRoots products group, f = .requested root} s
        (s.onClosure fun c => (groupRoots products group).foldl requestContributor c) :=
      keeps_requestContributors h hb
    rw [heq]
    generalize (s.onClosure fun c => (groupRoots products group).foldl requestContributor c) = mid
      at h₁
    have h₂ : Keeps products members loud bound done ∅ mid (mid.onClosure fun c =>
        { c with macroSourcesOpened := insert group c.macroSourcesOpened }) := by
      refine Keeps.of_flags _ h₁.good { Advance.refl products members loud mid with }
        (fun f hf => by cases f <;> exact hf)
        { h₁.good.inv with opened := fun g hg root hroot => ?_ }
      rcases Finset.mem_insert.mp hg with rfl | hg
      · exact h₁.added ⟨root, hroot, rfl⟩
      · exact h₁.good.inv.opened g hg root hroot
    exact (h₁.trans h₂).weaken fun f hf => Or.inl (Or.inl hf)

/-! ## Demand -/

theorem keeps_activateDemandedProducer {producer : Nat} (h : Good products members bound done s)
    (hlt : producer < products.outputMeaning.producers.length)
    (hb : .demanded (producerAt products producer) ∈ bound) :
    Keeps products members loud bound done {.demanded (producerAt products producer)} s
      (s.onClosure fun c => c.activateDemandedProducer producer) := by
  refine Keeps.of_advance h ?_ ?_ ?_ (Set.singleton_subset_iff.mpr hb) fun inv => ?_
  · refine { Advance.refl products members loud s with
      demandedProducers := ?_, demandedProcessed := ?_, work := ?_ }
    · exact Worklist.seen_subset_add
    · exact Worklist.processed_add
    · have hwork : (s.closure.demandedProducers.add producer).left (producers products) ≤
          s.closure.demandedProducers.left (producers products) :=
        Worklist.left_add (Or.inl (mem_range.mpr hlt))
      exact work_le le_rfl le_rfl le_rfl le_rfl le_rfl le_rfl le_rfl hwork le_rfl
  · exact Set.singleton_subset_iff.mpr
      (Or.inr ⟨producer, Worklist.mem_seen_add.mpr (Or.inl rfl), rfl⟩)
  · intro f hf
    cases f with
    | demanded expansion =>
      rcases hf with hf | ⟨p, hp, rfl⟩
      · exact Or.inl (Or.inl hf)
      · rcases Worklist.mem_seen_add.mp hp with rfl | hp
        · exact Or.inr rfl
        · exact Or.inl (Or.inr ⟨p, hp, rfl⟩)
    | _ => exact Or.inl hf
  · refine { inv with demandedProducers_lt := fun p hp => ?_ }
    rcases Worklist.mem_seen_add.mp hp with rfl | hp
    · exact hlt
    · exact h.inv.demandedProducers_lt p hp

theorem producerAt_of_index {expansion : ExpansionId} {producer : Nat}
    (h : products.outputMeaning.producerIndex expansion = some producer) :
    producer < products.outputMeaning.producers.length ∧
      producerAt products producer = expansion := by
  obtain ⟨hlt, heq, -⟩ := findIdx?_eq_some_iff_getElem.mp h
  refine ⟨hlt, ?_⟩
  rw [producerAt, getD_eq_getElem?_getD, getElem?_eq_getElem hlt]
  simpa using heq

theorem keeps_activateRequiredChild (h : Good products members bound done s)
    (hmem : child ∈ requiredExpansions products) (hb : .demanded child ∈ bound) :
    Keeps products members loud bound done {.demanded child} s
      (s.onClosure fun c => activateRequiredChild products c child) := by
  cases hp : products.outputMeaning.producerIndex child with
  | some producer =>
    obtain ⟨hlt, rfl⟩ := producerAt_of_index hp
    have heq : (s.onClosure fun c =>
        activateRequiredChild products c (producerAt products producer)) =
        s.onClosure fun c => c.activateDemandedProducer producer := by
      simp only [onClosure, activateRequiredChild, hp]
    rw [heq]
    exact keeps_activateDemandedProducer h hlt hb
  | none =>
    by_cases hchild : child ∈ s.closure.processedDemandedChildren
    · have heq : (s.onClosure fun c => activateRequiredChild products c child) = s := by
        simp only [onClosure, activateRequiredChild, hp, hchild, if_true]
      rw [heq]
      exact (Keeps.refl h).weaken fun f hf => Or.inr (hf ▸ Or.inl hchild)
    · have heq : (s.onClosure fun c => activateRequiredChild products c child) =
          s.onClosure fun c => { c with
            processedDemandedChildren := insert child c.processedDemandedChildren
            pendingRequiredExpansions := c.pendingRequiredExpansions ++ [child] } := by
        simp only [onClosure, activateRequiredChild, hp, hchild, if_false]
      rw [heq]
      have hpending : child ∉ s.closure.pendingRequiredExpansions := fun hc =>
        hchild (h.inv.required_demanded child hc).1
      refine Keeps.of_advance h ?_ ?_ ?_ (Set.singleton_subset_iff.mpr hb) fun inv => ?_
      · refine { Advance.refl products members loud s with
          demandedChildren := ?_, childrenProcessed := fun e => ?_, work := ?_ }
        · exact Finset.subset_insert ..
        · show e ∈ insert child s.closure.processedDemandedChildren ∧
            e ∉ s.closure.pendingRequiredExpansions ++ [child] ↔ _
          simp only [Finset.mem_insert, mem_append, mem_singleton, not_or]
          constructor
          · rintro ⟨he, hpend, hne⟩
            exact ⟨he.resolve_left hne, hpend⟩
          · rintro ⟨he, hpend⟩
            refine ⟨Or.inr he, hpend, ?_⟩
            rintro rfl
            exact hchild he
        · have hlt := countP_notMem_lt hmem hchild
          have hwork : requiredLeft products (insert child s.closure.processedDemandedChildren)
                (s.closure.pendingRequiredExpansions ++ [child]) ≤
              requiredLeft products s.closure.processedDemandedChildren
                s.closure.pendingRequiredExpansions := by
            simp only [requiredLeft, length_append, length_singleton]
            omega
          exact work_le le_rfl le_rfl le_rfl le_rfl le_rfl le_rfl le_rfl le_rfl hwork
      · exact Set.singleton_subset_iff.mpr (Or.inl (Finset.mem_insert_self ..))
      · intro f hf
        cases f with
        | demanded expansion =>
          rcases hf with hf | hf
          · rcases Finset.mem_insert.mp hf with rfl | hf
            · exact Or.inr rfl
            · exact Or.inl (Or.inl hf)
          · exact Or.inl (Or.inr hf)
        | _ => exact Or.inl hf
      · refine { inv with required_nodup := ?_, required_demanded := fun e he => ?_ }
        · exact nodup_append'.mpr ⟨h.inv.required_nodup, nodup_singleton _,
            fun e he hec => hpending (mem_singleton.mp hec ▸ he)⟩
        · rcases mem_append.mp he with he | he
          · exact (h.inv.required_demanded e he).imp_left (Finset.mem_insert_of_mem ·)
          · obtain rfl := mem_singleton.mp he
            exact ⟨Finset.mem_insert_self .., hp⟩

/-- Activate what a clause asks for. -/
def activateClause (products : ValidatedMacroProducts) (clause : MacroDemandClause)
    (c : RetentionClosure) : RetentionClosure :=
  activateTarget products (clause.requiredExpansions.foldl (activateRequiredChild products) c)
    clause.target

/-- Set the flags of the clauses and ask one of them. -/
def askClause (products : ValidatedMacroProducts) (carriers children : Finset Nat) (index : Nat)
    (c : RetentionClosure) : RetentionClosure :=
  requestDemandClauseIfReady products { c with
    demandClauseHasCarrier := carriers
    demandClauseHasDependentChild := children } index

/-- What a ready clause asks for becomes known. -/
theorem keeps_activateClause {clause : MacroDemandClause} (h : Good products members bound done s)
    (hmem : clause ∈ products.demandClauses)
    (hlt : ∀ producer, clause.target = .producer producer →
      producer < products.outputMeaning.producers.length)
    (hb : ∀ f, ClauseAsks products clause f → f ∈ bound) :
    Keeps products members loud bound done {f | ClauseAsks products clause f} s
      (s.onClosure (activateClause products clause)) := by
  have h₁ : Keeps products members loud bound done
      {x | ∃ child ∈ clause.requiredExpansions, x ∈ ({.demanded child} : Set MacroFact)} s
      (s.onClosure fun c =>
        clause.requiredExpansions.foldl (activateRequiredChild products) c) := by
    rw [onClosure_foldl]
    exact Keeps.foldl h fun s child hchild hs _ => keeps_activateRequiredChild hs
      (mem_flatMap.mpr ⟨clause, hmem, hchild⟩) (hb _ (.required hchild))
  generalize hmid : (s.onClosure fun c =>
    clause.requiredExpansions.foldl (activateRequiredChild products) c) = mid at h₁
  have hmid : s.onClosure (activateClause products clause) =
      mid.onClosure fun c => activateTarget products c clause.target := by
    rw [← hmid]
    rfl
  rw [hmid]
  cases htarget : clause.target with
  | producer producer =>
    refine (h₁.trans (keeps_activateDemandedProducer h₁.good (hlt producer htarget)
      (hb _ (.producer htarget)))).weaken fun f hf => Or.inl ?_
    cases hf with
    | required hchild => exact Or.inl ⟨_, hchild, rfl⟩
    | producer hp => rw [htarget] at hp; cases hp; exact Or.inr rfl
    | group hg => rw [htarget] at hg; cases hg
  | group group =>
    refine (h₁.trans (keeps_requestGroupSources h₁.good fun root hroot =>
      hb _ (.group htarget hroot))).weaken fun f hf => Or.inl ?_
    cases hf with
    | required hchild => exact Or.inl ⟨_, hchild, rfl⟩
    | producer hp => rw [htarget] at hp; cases hp
    | group hg hroot => rw [htarget] at hg; cases hg; exact Or.inr ⟨_, hroot, rfl⟩

/-- Set the flags of the clauses. -/
def setClauseFlags (carriers children satisfied : Finset Nat) (c : RetentionClosure) :
    RetentionClosure :=
  { c with
    demandClauseHasCarrier := carriers
    demandClauseHasDependentChild := children
    demandClauseSatisfied := satisfied }

section Commute

variable {carriers children satisfied : Finset Nat} {c : RetentionClosure}

theorem requestGroupSources_setClauseFlags {group : Nat} :
    requestGroupSources products (setClauseFlags carriers children satisfied c) group =
      setClauseFlags carriers children satisfied (requestGroupSources products c group) := by
  have hfold : ∀ (nodes : List Nat) (c : RetentionClosure),
      nodes.foldl requestContributor (setClauseFlags carriers children satisfied c) =
        setClauseFlags carriers children satisfied (nodes.foldl requestContributor c) := by
    intro nodes
    induction nodes with
    | nil => exact fun _ => rfl
    | cons node nodes ih => exact fun c => ih (c.requestContributor node)
  by_cases h : group ∈ c.macroSourcesOpened
  · have h' : group ∈ (setClauseFlags carriers children satisfied c).macroSourcesOpened := h
    simp only [requestGroupSources, h, h', if_true]
  · have h' : group ∉ (setClauseFlags carriers children satisfied c).macroSourcesOpened := h
    simp only [requestGroupSources, h, h', if_false]
    exact hfold (groupRoots products group)
      { c with macroSourcesOpened := insert group c.macroSourcesOpened }

theorem activateRequiredChild_setClauseFlags :
    activateRequiredChild products (setClauseFlags carriers children satisfied c) child =
      setClauseFlags carriers children satisfied (activateRequiredChild products c child) := by
  cases hp : products.outputMeaning.producerIndex child with
  | some producer => simp only [activateRequiredChild, hp]; rfl
  | none =>
    by_cases h : child ∈ c.processedDemandedChildren
    · have h' : child ∈
        (setClauseFlags carriers children satisfied c).processedDemandedChildren := h
      simp only [activateRequiredChild, hp, h, h', if_true]
    · have h' : child ∉
        (setClauseFlags carriers children satisfied c).processedDemandedChildren := h
      simp only [activateRequiredChild, hp, h, h', if_false]
      rfl

/-- What a clause asks for does not depend on the flags of the clauses. -/
theorem activateClause_setClauseFlags {clause : MacroDemandClause} :
    activateClause products clause (setClauseFlags carriers children satisfied c) =
      setClauseFlags carriers children satisfied (activateClause products clause c) := by
  have hfold : ∀ (required : List ExpansionId) (c : RetentionClosure),
      activateTarget products (required.foldl (activateRequiredChild products)
          (setClauseFlags carriers children satisfied c)) clause.target =
        setClauseFlags carriers children satisfied (activateTarget products
          (required.foldl (activateRequiredChild products) c) clause.target) := by
    intro required
    induction required with
    | nil =>
      intro c
      cases clause.target with
      | producer producer => rfl
      | group group => exact requestGroupSources_setClauseFlags
    | cons child required ih =>
      intro c
      rw [foldl_cons, activateRequiredChild_setClauseFlags]
      exact ih _
  exact hfold _ c

end Commute

/-- A clause that gets a carrier or a child asks for what it needs as soon as it is ready. -/
theorem keeps_clauseFlags (loud : Prop) (index : Nat) (carriers children : Finset Nat)
    (hwf : products.WellFormed) (hclosed : Closed (RetentionRule products members) bound)
    (h : Good products members bound done s)
    (hcarriers : s.closure.demandClauseHasCarrier ⊆ carriers)
    (hchildren : s.closure.demandClauseHasDependentChild ⊆ children)
    (hcarriers' : ∀ i ∈ carriers, i ∈ s.closure.demandClauseHasCarrier ∨ i = index)
    (hchildren' : ∀ i ∈ children, i ∈ s.closure.demandClauseHasDependentChild ∨ i = index)
    (hcarriers_known : ∀ i ∈ carriers, ∃ definition,
      i ∈ products.demandClausesByCarrier definition ∧
        .actualDefinition definition ∈ known products s)
    (hchildren_known : ∀ i ∈ children, ∃ child,
      i ∈ products.dependentDemandClausesByChild child ∧ .demanded child ∈ known products s) :
    Keeps products members loud bound done ∅ s
        (s.onClosure (askClause products carriers children index)) ∧
      (askClause products carriers children index s.closure).demandClauseHasCarrier = carriers ∧
      (askClause products carriers children index s.closure).demandClauseHasDependentChild =
        children := by
  show Keeps products members loud bound done ∅ s
        (s.onClosure (askClause products carriers children index)) ∧
      (s.onClosure (askClause products carriers children index)).closure.demandClauseHasCarrier =
        carriers ∧
      (s.onClosure
        (askClause products carriers children index)).closure.demandClauseHasDependentChild =
          children
  -- unless the clause fires, only the flags change
  have hquiet : (∀ clause : MacroDemandClause, products.demandClauses[index]? = some clause →
      index ∈ carriers → (clause.requiredExpansions ≠ [] ∨ clause.opaqueDependent = true ∨
        index ∈ children) → index ∈ s.closure.demandClauseSatisfied) →
      Keeps products members loud bound done ∅ s (s.onClosure
        (setClauseFlags carriers children s.closure.demandClauseSatisfied)) := by
    intro hready
    refine Keeps.of_flags _ h { Advance.refl products members loud s with
      carriers := hcarriers, children := hchildren } (fun f hf => by cases f <;> exact hf)
      { h.inv with
        carriers := fun d i hi hd => hcarriers (h.inv.carriers d i hi hd)
        carriers_known := hcarriers_known
        children := fun e i hi he => hchildren (h.inv.children e i hi he)
        children_known := hchildren_known
        ready := fun i clause hi hc hr => ?_ }
    by_cases hidx : i = index
    · subst hidx
      exact hready clause hi hc hr
    · refine h.inv.ready i clause hi ((hcarriers' i hc).resolve_right hidx) ?_
      exact hr.imp_right fun hr => hr.imp_right fun hr => (hchildren' i hr).resolve_right hidx
  cases hclause : products.demandClauses[index]? with
  | none =>
    have heq : s.onClosure (askClause products carriers children index) =
        s.onClosure (setClauseFlags carriers children s.closure.demandClauseSatisfied) := by
      simp only [onClosure, askClause, requestDemandClauseIfReady, hclause]
      rfl
    rw [heq]
    refine ⟨hquiet fun clause hc => ?_, rfl, rfl⟩
    cases hclause.symm.trans hc
  | some clause =>
    by_cases hfire : index ∉ s.closure.demandClauseSatisfied ∧ index ∈ carriers ∧
        (clause.requiredExpansions ≠ [] ∨ clause.opaqueDependent = true ∨ index ∈ children)
    · have hcarrier := hfire.2.1
      have hready := hfire.2.2
      have hb : ∀ f, ClauseAsks products clause f → f ∈ bound := by
        intro f hf
        obtain ⟨definition, hd, hknown⟩ := hcarriers_known index hcarrier
        have hd' := h.sound hknown
        rcases or_assoc.mpr hready with hready | hready
        · exact hclosed _ _ (Or.inl (.clause hd hclause hready hf)) (by simpa using hd')
        · obtain ⟨child, hc, hknown⟩ := hchildren_known index hready
          have hc' := h.sound hknown
          exact hclosed _ _ (Or.inl (.dependentClause hd hc hclause hf)) (by simp [hd', hc'])
      have hmem := mem_of_getElem? hclause
      have h₁ : Keeps products members loud bound done {f | ClauseAsks products clause f} s
          (s.onClosure (activateClause products clause)) :=
        keeps_activateClause h hmem (hwf.target_lt clause hmem) hb
      have heq : s.onClosure (askClause products carriers children index) =
        (s.onClosure (activateClause products clause)).onClosure
            (setClauseFlags carriers children (insert index s.closure.demandClauseSatisfied)) := by
        simp only [onClosure, askClause, requestDemandClauseIfReady, hclause, hfire, if_true,
          not_false_eq_true, and_self]
        exact congrArg (fun c => { s with closure := c }) activateClause_setClauseFlags
      have hflags : (s.onClosure (activateClause products clause)).closure =
          setClauseFlags s.closure.demandClauseHasCarrier s.closure.demandClauseHasDependentChild
            s.closure.demandClauseSatisfied
              (s.onClosure (activateClause products clause)).closure :=
        activateClause_setClauseFlags (c := s.closure)
      rw [heq]
      generalize (s.onClosure (activateClause products clause)) = mid
        at h₁ hflags
      have hcarrier_eq : mid.closure.demandClauseHasCarrier = s.closure.demandClauseHasCarrier := by
        rw [hflags]
        rfl
      have hchild_eq : mid.closure.demandClauseHasDependentChild =
          s.closure.demandClauseHasDependentChild := by
        rw [hflags]
        rfl
      have hknown := h₁.advance.known
      have h₂ : Keeps products members loud bound done ∅ mid (mid.onClosure
          (setClauseFlags carriers children (insert index s.closure.demandClauseSatisfied))) := by
        refine Keeps.of_flags _ h₁.good { Advance.refl products members loud mid with
          carriers := hcarrier_eq ▸ hcarriers, children := hchild_eq ▸ hchildren }
          (fun f hf => by cases f <;> exact hf)
          { h₁.good.inv with
            carriers := fun d i hi hd => hcarriers (h.inv.carriers d i hi hd)
            carriers_known := fun i hi => ?_
            children := fun e i hi he => hchildren (h.inv.children e i hi he)
            children_known := fun i hi => ?_
            ready := fun i clause' hi hc hr => ?_
            satisfied := fun i hi clause' hc f hf => ?_ }
        · obtain ⟨definition, hd, hk⟩ := hcarriers_known i hi
          exact ⟨definition, hd, hknown hk⟩
        · obtain ⟨child, hc, hk⟩ := hchildren_known i hi
          exact ⟨child, hc, hknown hk⟩
        · by_cases hidx : i = index
          · exact hidx ▸ Finset.mem_insert_self ..
          · refine Finset.mem_insert_of_mem (h.inv.ready i clause' hi
              ((hcarriers' i hc).resolve_right hidx) ?_)
            exact hr.imp_right fun hr => hr.imp_right fun hr => (hchildren' i hr).resolve_right hidx
        · rcases Finset.mem_insert.mp hi with rfl | hi
          · obtain rfl := Option.some.inj (hclause.symm.trans hc)
            exact h₁.added hf
          · exact hknown (h.inv.satisfied i hi clause' hc f hf)
      exact ⟨(h₁.trans h₂).weaken fun f hf => absurd hf (Set.notMem_empty f), rfl, rfl⟩
    · have heq : s.onClosure (askClause products carriers children index) =
        s.onClosure (setClauseFlags carriers children s.closure.demandClauseSatisfied) := by
        simp only [onClosure, askClause, requestDemandClauseIfReady, hclause, hfire, if_false]
        rfl
      rw [heq]
      refine ⟨hquiet fun clause' hc hcarrier hready => ?_, rfl, rfl⟩
      obtain rfl := Option.some.inj (hclause.symm.trans hc)
      by_contra hs
      exact hfire ⟨hs, hcarrier, hready⟩

section Clauses

variable (hwf : products.WellFormed) (hclosed : Closed (RetentionRule products members) bound)
  (h : Good products members bound done s)

include hwf hclosed h

theorem keeps_addCarrier {clause : Nat}
    (hclause : clause ∈ products.demandClausesByCarrier definition)
    (hdefinition : .actualDefinition definition ∈ known products s) :
    Keeps products members loud bound done ∅ s (s.onClosure fun c => addCarrier products c clause) ∧
      clause ∈ (addCarrier products s.closure clause).demandClauseHasCarrier := by
  by_cases hmem : clause ∈ s.closure.demandClauseHasCarrier
  · simp only [onClosure, addCarrier, hmem, if_true, and_true]
    exact Keeps.refl h
  · have hknown : ∀ i ∈ insert clause s.closure.demandClauseHasCarrier, ∃ definition,
        i ∈ products.demandClausesByCarrier definition ∧
          .actualDefinition definition ∈ known products s := by
      intro i hi
      rcases Finset.mem_insert.mp hi with rfl | hi
      · exact ⟨definition, hclause, hdefinition⟩
      · exact h.inv.carriers_known i hi
    obtain ⟨hkeeps, hcarriers, -⟩ := keeps_clauseFlags loud clause
      (insert clause s.closure.demandClauseHasCarrier) s.closure.demandClauseHasDependentChild hwf
      hclosed h (Finset.subset_insert ..) subset_rfl (fun i hi => (Finset.mem_insert.mp hi).symm)
      (fun i hi => Or.inl hi) hknown h.inv.children_known
    simp only [onClosure, addCarrier, hmem, if_false]
    exact ⟨hkeeps, hcarriers.symm ▸ Finset.mem_insert_self ..⟩

theorem keeps_addDependentChild {clause : Nat}
    (hclause : clause ∈ products.dependentDemandClausesByChild child)
    (hchild : .demanded child ∈ known products s) :
    Keeps products members loud bound done ∅ s
        (s.onClosure fun c => addDependentChild products c clause) ∧
      clause ∈ (addDependentChild products s.closure clause).demandClauseHasDependentChild := by
  by_cases hmem : clause ∈ s.closure.demandClauseHasDependentChild
  · simp only [onClosure, addDependentChild, hmem, if_true, and_true]
    exact Keeps.refl h
  · have hknown : ∀ i ∈ insert clause s.closure.demandClauseHasDependentChild, ∃ child,
        i ∈ products.dependentDemandClausesByChild child ∧ .demanded child ∈ known products s := by
      intro i hi
      rcases Finset.mem_insert.mp hi with rfl | hi
      · exact ⟨child, hclause, hchild⟩
      · exact h.inv.children_known i hi
    obtain ⟨hkeeps, -, hchildren⟩ := keeps_clauseFlags loud clause
      s.closure.demandClauseHasCarrier (insert clause s.closure.demandClauseHasDependentChild) hwf
      hclosed h subset_rfl (Finset.subset_insert ..) (fun i hi => Or.inl hi)
      (fun i hi => (Finset.mem_insert.mp hi).symm) h.inv.carriers_known hknown
    simp only [onClosure, addDependentChild, hmem, if_false]
    exact ⟨hkeeps, hchildren.symm ▸ Finset.mem_insert_self ..⟩

/-- A definition that becomes actual demands producers, and is a carrier of clauses. -/
theorem keeps_processDemandTrigger (hdefinition : .actualDefinition definition ∈ known products s) :
    Keeps products members loud bound done
        {f | ∃ producer ∈ products.outputMeaning.demandProducersByTrigger definition,
          f = .demanded (producerAt products producer)} s
        (s.onClosure fun c => processDemandTrigger products c definition) ∧
      ∀ clause ∈ products.demandClausesByCarrier definition,
        clause ∈ (processDemandTrigger products s.closure definition).demandClauseHasCarrier := by
  have h₁ : Keeps products members loud bound done
      {f | ∃ producer ∈ products.outputMeaning.demandProducersByTrigger definition,
        f = .demanded (producerAt products producer)} s
      (s.onClosure fun c => (products.outputMeaning.demandProducersByTrigger definition).foldl
        activateDemandedProducer c) := by
    rw [onClosure_foldl]
    refine Keeps.foldl h fun s producer hp hs _ =>
      keeps_activateDemandedProducer hs (hwf.demandProducer_lt _ _ hp) ?_
    exact hclosed _ _ (Or.inl (.demandedProducer hp)) (by simpa using h.sound hdefinition)
  have hsplit : (s.onClosure fun c => processDemandTrigger products c definition) =
      (s.onClosure fun c => (products.outputMeaning.demandProducersByTrigger definition).foldl
        activateDemandedProducer c).onClosure
          fun c => (products.demandClausesByCarrier definition).foldl (addCarrier products) c := rfl
  have hclosure : processDemandTrigger products s.closure definition =
      (s.onClosure fun c => processDemandTrigger products c definition).closure := rfl
  rw [hclosure, hsplit]
  generalize (s.onClosure fun c =>
    (products.outputMeaning.demandProducersByTrigger definition).foldl activateDemandedProducer c) =
      mid at h₁
  have hd := h₁.advance.known hdefinition
  rw [onClosure_foldl]
  obtain ⟨h₂, hflags⟩ := Keeps.foldl_lasting (T := fun _ => ∅)
    (Q := fun clause t => clause ∈ t.closure.demandClauseHasCarrier) h₁.good
    (fun clause s t ha hq => ha.carriers hq) fun t clause hclause ht ha =>
      keeps_addCarrier hwf hclosed ht hclause (ha.known hd)
  exact ⟨(h₁.trans h₂).weaken fun f hf => Or.inl (Or.inl hf), hflags⟩

theorem keeps_processDemandedChild (hchild : .demanded child ∈ known products s) :
    Keeps products members loud bound done ∅ s
        (s.onClosure fun c => processDemandedChild products c child) ∧
      ∀ clause ∈ products.dependentDemandClausesByChild child,
        clause ∈ (processDemandedChild products s.closure child).demandClauseHasDependentChild := by
  have hclosure : processDemandedChild products s.closure child =
      (s.onClosure fun c => processDemandedChild products c child).closure := rfl
  have hfold : (s.onClosure fun c => processDemandedChild products c child) =
      s.onClosure fun c => (products.dependentDemandClausesByChild child).foldl
        (addDependentChild products) c := rfl
  rw [hclosure, hfold, onClosure_foldl]
  obtain ⟨h₁, hflags⟩ := Keeps.foldl_lasting (T := fun _ => ∅)
    (Q := fun clause t => clause ∈ t.closure.demandClauseHasDependentChild) h
    (fun clause s t ha hq => ha.children hq) fun t clause hclause ht ha =>
      keeps_addDependentChild hwf hclosed ht hclause (ha.known hchild)
  exact ⟨h₁.weaken fun f hf => absurd hf (Set.notMem_empty f), hflags⟩

end Clauses

end ItemDependencies
