import ItemDependencies.Retention.MacroWellFormed

/-!
# What the closure of macro products maintains

The facts that a state knows, the facts among them whose consequences it has
drawn, and the invariant that connects both with the flags of the closure.
-/

namespace ItemDependencies

open Library RetentionClosure RetentionState Function

section Facts

variable (products : ValidatedMacroProducts) (members : ValidatedCompilerMemberConstraints)

/-- The facts that a state knows. -/
def known (s : RetentionState) : Set MacroFact := fun
  | .present node => node ∈ s.compilePresent.required
  | .actual node => node ∈ s.actualRequired.required
  | .actualDefinition definition => definition ∈ s.closure.actualDefinitions.seen
  | .retained unit => unit ∈ s.retainedUnits.required
  | .requested node => node ∈ s.closure.requestedContributors.seen
  | .complete node =>
    node ∈ s.closure.pendingCompleteContributors ∨ node ∈ s.closure.contributorComplete
  | .materialized group => group ∈ s.closure.macroMaterialized
  | .meaningful producer => producer ∈ s.closure.meaningfulProducers.seen
  | .demanded expansion => expansion ∈ s.closure.processedDemandedChildren ∨
      ∃ producer ∈ s.closure.demandedProducers.seen, producerAt products producer = expansion

/-- The facts whose consequences a state knows. -/
def drawn (s : RetentionState) : Set MacroFact := fun
  | .present node => node ∈ s.closure.presence.processed
  | .actual node => node ∈ s.closure.actualProducts.processed
  | .actualDefinition definition => definition ∈ s.closure.actualDefinitions.processed
  | .retained unit => unit ∈ s.closure.source.processed
  | .requested node => node ∈ s.closure.requestedContributors.processed
  | .complete node => node ∈ s.closure.contributorComplete
  | .materialized group => group ∈ s.closure.macroMaterialized
  | .meaningful producer => producer ∈ s.closure.meaningfulProducers.processed
  | .demanded expansion => expansion ∈ s.closure.processedDemandedChildren ∧
      expansion ∉ s.closure.pendingRequiredExpansions

/-- Facts that some rule may conclude. -/
def Mentioned : MacroFact → Prop
  | .present node => node ∈ mentionedNodes products members
  | .actual node => node ∈ mentionedNodes products members
  | .actualDefinition definition => .definition definition ∈ mentionedNodes products members
  | .retained unit => unit ∈ mentionedSources products
  | .requested node => node < products.contributorIndex.count
  | .complete node => node < products.contributorIndex.count
  | .materialized group => group < products.materializations.length
  | .meaningful producer => producer < products.outputMeaning.producers.length
  | .demanded expansion => expansion ∈ requiredExpansions products ∨
      ∃ producer < products.outputMeaning.producers.length, producerAt products producer = expansion

/-- The flags of the conditional requirements in one lane: the sides of the definitions whose
consequences have been drawn (`done`) are set, no side is set but by a definition that is `known`,
and what both sides need is `required`. -/
structure SidesInv (done known required : DefinitionId → Prop) (state : Nat → Finset MemberSide) :
    Prop where
  set : ∀ definition conditional, conditional ∈ members.conditionalByTrigger definition →
    done definition → conditional.2 ∈ state conditional.1
  known : ∀ index side, side ∈ state index →
    ∃ definition, (index, side) ∈ members.conditionalByTrigger definition ∧ known definition
  required : ∀ (index : Nat) (r : ConditionalDefinitionRequirement),
    members.conditionalRequirements[index]? = some r → state index = {.left, .right} →
    required r.required

/-- A present definition of some group on which a group depends. -/
def DefinitionDependency (facts : Set MacroFact) (group : Nat) : Prop :=
  ∃ definition other, products.productGroups (.definition definition) = some other ∧
    group ∈ products.outputMeaning.dependentGroupsByProduct (.definition definition) ∧
    .present (.definition definition) ∈ facts

/-- The flags of the closure say what they are meant to say.  `facts` are the facts that are known,
`done` those whose consequences have been drawn. -/
structure Inv (facts done : Set MacroFact) (s : RetentionState) : Prop where
  agenda : Agenda (MacroRule products members) done facts
  done_known : done ⊆ facts
  -- what has been seen is what the caller's sets have
  presence : ∀ node, node ∈ s.closure.presence.seen ↔ node ∈ s.compilePresent.required
  actualProducts : ∀ node, node ∈ s.closure.actualProducts.seen ↔ node ∈ s.actualRequired.required
  actualDefinitions : ∀ definition, definition ∈ s.closure.actualDefinitions.seen ↔
    .definition definition ∈ s.actualRequired.required
  source : ∀ unit, unit ∈ s.closure.source.seen ↔ unit ∈ s.retainedUnits.required
  -- members
  compileMembers : SidesInv members (fun definition => .present (.definition definition) ∈ done)
    (fun definition => .present (.definition definition) ∈ facts)
    (fun definition => .present (.definition definition) ∈ facts)
    s.closure.conditionalCompileMemberState
  actualMembers : SidesInv members (fun definition => .actualDefinition definition ∈ done)
    (fun definition => .actualDefinition definition ∈ facts)
    (fun definition => ∀ f, InLane (.definition definition) f → f ∈ facts)
    s.closure.conditionalActualMemberState
  -- product classes and contributors
  classes : ∀ definitionClass ∈ s.closure.actualDefinitionClassProcessed,
    ∀ node ∈ products.actualDefinitionClasses.getD definitionClass [],
      .present node ∈ facts ∧ .actual node ∈ facts
  opened : ∀ group ∈ s.closure.macroSourcesOpened, ∀ root ∈ groupRoots products group,
    .requested root ∈ facts
  -- meaning
  dependencies : ∀ child, .meaningful child ∈ done →
    ∀ group ∈ products.outputMeaning.dependentGroupsByProduct
      (.expansion (producerAt products child)),
      group ∈ s.closure.groupHasMeaningfulDependency
  dependencies_known : ∀ group ∈ s.closure.groupHasMeaningfulDependency,
    products.outputMeaning.groupHasIntrinsicOutput group = true ∨
      (∃ child, .meaningful child ∈ facts ∧
        group ∈ products.outputMeaning.dependentGroupsByProduct
          (.expansion (producerAt products child))) ∨ DefinitionDependency products facts group
  inherited : ∀ group ∈ s.closure.groupHasMeaningfulDependency,
    group ∈ s.closure.macroMaterialized →
    .meaningful (products.outputMeaning.producerByGroup group) ∈ facts ∨
      DefinitionDependency products facts group
  intrinsic : ∀ group ∈ s.closure.macroMaterialized,
    products.outputMeaning.groupHasIntrinsicOutput group = true →
    .meaningful (products.outputMeaning.producerByGroup group) ∈ facts
  materialized_lt : ∀ group ∈ s.closure.macroMaterialized, group < products.materializations.length
  -- demand
  carriers : ∀ definition, ∀ clause ∈ products.demandClausesByCarrier definition,
    .actualDefinition definition ∈ done → clause ∈ s.closure.demandClauseHasCarrier
  carriers_known : ∀ clause ∈ s.closure.demandClauseHasCarrier,
    ∃ definition, clause ∈ products.demandClausesByCarrier definition ∧
      .actualDefinition definition ∈ facts
  children : ∀ child, ∀ clause ∈ products.dependentDemandClausesByChild child,
    .demanded child ∈ done → clause ∈ s.closure.demandClauseHasDependentChild
  children_known : ∀ clause ∈ s.closure.demandClauseHasDependentChild,
    ∃ child, clause ∈ products.dependentDemandClausesByChild child ∧ .demanded child ∈ facts
  ready :
    ∀ (index : Nat) (clause : MacroDemandClause), products.demandClauses[index]? = some clause →
    index ∈ s.closure.demandClauseHasCarrier →
    (clause.requiredExpansions ≠ [] ∨ clause.opaqueDependent = true ∨
      index ∈ s.closure.demandClauseHasDependentChild) → index ∈ s.closure.demandClauseSatisfied
  satisfied : ∀ index ∈ s.closure.demandClauseSatisfied, ∀ clause : MacroDemandClause,
    products.demandClauses[index]? = some clause → ∀ f, ClauseAsks products clause f → f ∈ facts
  demandedProducers_lt : ∀ producer ∈ s.closure.demandedProducers.seen,
    producer < products.outputMeaning.producers.length
  required_nodup : s.closure.pendingRequiredExpansions.Nodup
  required_demanded : ∀ child ∈ s.closure.pendingRequiredExpansions,
    child ∈ s.closure.processedDemandedChildren ∧ products.outputMeaning.producerIndex child = none

/-- The invariant together with bounds on the facts: all of them follow from the inputs (`bound`),
and what follows is known already or mentioned by a rule. -/
structure Good (bound done : Set MacroFact) (s : RetentionState) : Prop where
  inv : Inv products members (known products s) done s
  sound : known products s ⊆ bound
  mentioned : ∀ f ∈ bound, f ∈ known products s ∨ Mentioned products members f

/-- What every step of processing an item does: facts are added, no other item is taken from its
queue, and no work is made.  Only a `loud` step tells producers that they are meaningful. -/
structure Advance (loud : Prop) (s t : RetentionState) : Prop where
  compilePresent : s.compilePresent.required ⊆ t.compilePresent.required
  actualRequired : s.actualRequired.required ⊆ t.actualRequired.required
  retainedUnits : s.retainedUnits.required ⊆ t.retainedUnits.required
  actualDefinitions : s.closure.actualDefinitions.seen ⊆ t.closure.actualDefinitions.seen
  requested : s.closure.requestedContributors.seen ⊆ t.closure.requestedContributors.seen
  demandedProducers : s.closure.demandedProducers.seen ⊆ t.closure.demandedProducers.seen
  demandedChildren : s.closure.processedDemandedChildren ⊆ t.closure.processedDemandedChildren
  meaningful : t.closure.meaningfulProducers = s.closure.meaningfulProducers ∨ loud ∧
    s.closure.meaningfulProducers.seen ⊆ t.closure.meaningfulProducers.seen ∧
    t.closure.meaningfulProducers.processed = s.closure.meaningfulProducers.processed
  presenceProcessed : t.closure.presence.processed = s.closure.presence.processed
  actualProcessed : t.closure.actualProducts.processed = s.closure.actualProducts.processed
  definitionsProcessed :
    t.closure.actualDefinitions.processed = s.closure.actualDefinitions.processed
  sourceProcessed : t.closure.source.processed = s.closure.source.processed
  requestedProcessed :
    t.closure.requestedContributors.processed = s.closure.requestedContributors.processed
  demandedProcessed : t.closure.demandedProducers.processed = s.closure.demandedProducers.processed
  childrenProcessed : ∀ child, (child ∈ t.closure.processedDemandedChildren ∧
      child ∉ t.closure.pendingRequiredExpansions) ↔
    child ∈ s.closure.processedDemandedChildren ∧ child ∉ s.closure.pendingRequiredExpansions
  contributorComplete : t.closure.contributorComplete = s.closure.contributorComplete
  pendingComplete : t.closure.pendingCompleteContributors = s.closure.pendingCompleteContributors
  missingSources : t.closure.contributorMissingSources = s.closure.contributorMissingSources
  missingParents : t.closure.contributorMissingParents = s.closure.contributorMissingParents
  missingRoots : t.closure.groupMissingRoots = s.closure.groupMissingRoots
  materialized : t.closure.macroMaterialized = s.closure.macroMaterialized
  compileSides : ∀ index, s.closure.conditionalCompileMemberState index ⊆
    t.closure.conditionalCompileMemberState index
  actualSides : ∀ index, s.closure.conditionalActualMemberState index ⊆
    t.closure.conditionalActualMemberState index
  dependencies : s.closure.groupHasMeaningfulDependency ⊆ t.closure.groupHasMeaningfulDependency
  carriers : s.closure.demandClauseHasCarrier ⊆ t.closure.demandClauseHasCarrier
  children : s.closure.demandClauseHasDependentChild ⊆ t.closure.demandClauseHasDependentChild
  work : work products members t ≤ work products members s

/-- A step keeps the invariant, and adds some facts. -/
structure Keeps (loud : Prop) (bound done added : Set MacroFact) (s t : RetentionState) : Prop where
  good : Good products members bound done t
  advance : Advance products members loud s t
  added : added ⊆ known products t

end Facts

variable {products : ValidatedMacroProducts} {members : ValidatedCompilerMemberConstraints}
  {loud : Prop} {facts facts' bound done added added' : Set MacroFact} {s t u : RetentionState}

namespace SidesInv

variable {done done' known known' required required' : DefinitionId → Prop}
  {state : Nat → Finset MemberSide}

theorem mono (h : SidesInv members done known required state)
    (hdone : ∀ definition, done' definition → done definition)
    (hknown : ∀ definition, known definition → known' definition)
    (hrequired : ∀ definition, required definition → required' definition) :
    SidesInv members done' known' required' state where
  set definition conditional hc hd := h.set definition conditional hc (hdone _ hd)
  known index side hs := by
    obtain ⟨definition, hmem, hd⟩ := h.known index side hs
    exact ⟨definition, hmem, hknown _ hd⟩
  required index r hr hs := hrequired _ (h.required index r hr hs)

/-- A known definition sets its side. -/
theorem update (h : SidesInv members done known required state) {definition : DefinitionId}
    {index : Nat} {side : MemberSide}
    (hmem : (index, side) ∈ members.conditionalByTrigger definition) (hknown : known definition)
    (hrequired : ∀ r : ConditionalDefinitionRequirement,
      members.conditionalRequirements[index]? = some r →
      insert side (state index) = {.left, .right} → required r.required) :
    SidesInv members done known required
      (Function.update state index (insert side (state index))) where
  set d conditional hc hd := by
    have hold := h.set d conditional hc hd
    by_cases hi : conditional.1 = index
    · rw [hi] at hold ⊢
      rw [update_self]
      exact Finset.mem_insert_of_mem hold
    · rwa [update_of_ne hi]
  known i side' hs := by
    by_cases hi : i = index
    · subst hi
      rw [update_self] at hs
      rcases Finset.mem_insert.mp hs with rfl | hs
      · exact ⟨definition, hmem, hknown⟩
      · exact h.known i side' hs
    · rw [update_of_ne hi] at hs
      exact h.known i side' hs
  required i r hr hs := by
    by_cases hi : i = index
    · subst hi
      rw [update_self] at hs
      exact hrequired r hr hs
    · rw [update_of_ne hi] at hs
      exact h.required i r hr hs

end SidesInv

theorem DefinitionDependency.mono {group : Nat} (hf : facts ⊆ facts')
    (h : DefinitionDependency products facts group) :
    DefinitionDependency products facts' group := by
  obtain ⟨definition, other, hother, hgroup, hpresent⟩ := h
  exact ⟨definition, other, hother, hgroup, hf hpresent⟩

/-- More facts may be known. -/
theorem Inv.mono (h : Inv products members facts done s) (hf : facts ⊆ facts') :
    Inv products members facts' done s where
  __ := h
  agenda := h.agenda.mono hf
  done_known := h.done_known.trans hf
  compileMembers := h.compileMembers.mono (fun _ => id) (fun _ hd => hf hd) fun _ hd => hf hd
  actualMembers := h.actualMembers.mono (fun _ => id) (fun _ hd => hf hd)
    fun _ hd f hf' => hf (hd f hf')
  classes k hk node hnode := (h.classes k hk node hnode).imp (hf ·) (hf ·)
  opened group hg root hr := hf (h.opened group hg root hr)
  dependencies_known group hg := by
    refine (h.dependencies_known group hg).imp_right fun h =>
      h.imp ?_ (DefinitionDependency.mono hf)
    rintro ⟨child, hchild, hmem⟩
    exact ⟨child, hf hchild, hmem⟩
  inherited group hg hm := (h.inherited group hg hm).imp (hf ·) (DefinitionDependency.mono hf)
  intrinsic group hg hi := hf (h.intrinsic group hg hi)
  carriers_known clause hc := by
    obtain ⟨definition, hmem, hknown⟩ := h.carriers_known clause hc
    exact ⟨definition, hmem, hf hknown⟩
  children_known clause hc := by
    obtain ⟨child, hmem, hknown⟩ := h.children_known clause hc
    exact ⟨child, hmem, hf hknown⟩
  satisfied index hi clause hc f hf' := hf (h.satisfied index hi clause hc f hf')

namespace Advance

theorem refl (products : ValidatedMacroProducts) (members : ValidatedCompilerMemberConstraints)
    (loud : Prop) (s : RetentionState) : Advance products members loud s s :=
  ⟨subset_rfl, subset_rfl, subset_rfl, subset_rfl, subset_rfl, subset_rfl, subset_rfl, .inl rfl,
    rfl, rfl, rfl, rfl, rfl, rfl, fun _ => Iff.rfl, rfl, rfl, rfl, rfl, rfl, rfl,
    fun _ => subset_rfl, fun _ => subset_rfl, subset_rfl, subset_rfl, subset_rfl, le_refl _⟩

theorem trans (h : Advance products members loud s t) (h' : Advance products members loud t u) :
    Advance products members loud s u where
  compilePresent := h.compilePresent.trans h'.compilePresent
  actualRequired := h.actualRequired.trans h'.actualRequired
  retainedUnits := h.retainedUnits.trans h'.retainedUnits
  actualDefinitions := h.actualDefinitions.trans h'.actualDefinitions
  requested := h.requested.trans h'.requested
  demandedProducers := h.demandedProducers.trans h'.demandedProducers
  demandedChildren := h.demandedChildren.trans h'.demandedChildren
  meaningful := by
    rcases h.meaningful with h₁ | ⟨hl, h₁, h₂⟩
    · rcases h'.meaningful with h₁' | ⟨hl, h₁', h₂'⟩
      · exact .inl (h₁'.trans h₁)
      · exact .inr ⟨hl, h₁ ▸ h₁', h₁ ▸ h₂'⟩
    · rcases h'.meaningful with h₁' | ⟨-, h₁', h₂'⟩
      · exact .inr ⟨hl, h₁' ▸ h₁, h₁' ▸ h₂⟩
      · exact .inr ⟨hl, h₁.trans h₁', h₂'.trans h₂⟩
  presenceProcessed := h'.presenceProcessed.trans h.presenceProcessed
  actualProcessed := h'.actualProcessed.trans h.actualProcessed
  definitionsProcessed := h'.definitionsProcessed.trans h.definitionsProcessed
  sourceProcessed := h'.sourceProcessed.trans h.sourceProcessed
  requestedProcessed := h'.requestedProcessed.trans h.requestedProcessed
  demandedProcessed := h'.demandedProcessed.trans h.demandedProcessed
  childrenProcessed child := (h'.childrenProcessed child).trans (h.childrenProcessed child)
  contributorComplete := h'.contributorComplete.trans h.contributorComplete
  pendingComplete := h'.pendingComplete.trans h.pendingComplete
  missingSources := h'.missingSources.trans h.missingSources
  missingParents := h'.missingParents.trans h.missingParents
  missingRoots := h'.missingRoots.trans h.missingRoots
  materialized := h'.materialized.trans h.materialized
  compileSides index := (h.compileSides index).trans (h'.compileSides index)
  actualSides index := (h.actualSides index).trans (h'.actualSides index)
  dependencies := h.dependencies.trans h'.dependencies
  carriers := h.carriers.trans h'.carriers
  children := h.children.trans h'.children
  work := h'.work.trans h.work

theorem known (h : Advance products members loud s t) : known products s ⊆ known products t := by
  intro f hf
  cases f with
  | present node => exact h.compilePresent hf
  | actual node => exact h.actualRequired hf
  | actualDefinition definition => exact h.actualDefinitions hf
  | retained unit => exact h.retainedUnits hf
  | requested node => exact h.requested hf
  | complete node =>
    show _ ∈ t.closure.pendingCompleteContributors ∨ _
    rw [h.pendingComplete, h.contributorComplete]
    exact hf
  | materialized group =>
    show _ ∈ t.closure.macroMaterialized
    rw [h.materialized]
    exact hf
  | meaningful producer =>
    rcases h.meaningful with heq | ⟨-, hsub, -⟩
    · show _ ∈ t.closure.meaningfulProducers.seen
      rw [heq]
      exact hf
    · exact hsub hf
  | demanded expansion =>
    refine Or.imp (h.demandedChildren ·) ?_ hf
    rintro ⟨producer, hp, heq⟩
    exact ⟨producer, h.demandedProducers hp, heq⟩

/-- No item has been taken from its queue. -/
theorem drawn (h : Advance products members loud s t) : drawn t = drawn s := by
  funext f
  cases f with
  | present node => exact congrArg (node ∈ ·) h.presenceProcessed
  | actual node => exact congrArg (node ∈ ·) h.actualProcessed
  | actualDefinition definition => exact congrArg (definition ∈ ·) h.definitionsProcessed
  | retained unit => exact congrArg (unit ∈ ·) h.sourceProcessed
  | requested node => exact congrArg (node ∈ ·) h.requestedProcessed
  | complete node => exact congrArg (node ∈ ·) h.contributorComplete
  | materialized group => exact congrArg (group ∈ ·) h.materialized
  | meaningful producer =>
    rcases h.meaningful with heq | ⟨-, -, heq⟩
    · exact congrArg (fun w : Worklist Nat => producer ∈ w.processed) heq
    · exact congrArg (producer ∈ ·) heq
  | demanded expansion => exact propext (h.childrenProcessed expansion)

end Advance

namespace Keeps

theorem refl (h : Good products members bound done s) :
    Keeps products members loud bound done ∅ s s :=
  ⟨h, Advance.refl products members loud s, Set.empty_subset _⟩

/-- The facts that were there before, or that are among the added ones. -/
theorem weaken (h : Keeps products members loud bound done added s t)
    (hadded : ∀ f ∈ added', f ∈ added ∨ f ∈ known products s) :
    Keeps products members loud bound done added' s t :=
  ⟨h.good, h.advance, fun f hf => (hadded f hf).elim (h.added ·) (h.advance.known ·)⟩

theorem trans (h : Keeps products members loud bound done added s t)
    (h' : Keeps products members loud bound done added' t u) :
    Keeps products members loud bound done (added ∪ added') s u :=
  ⟨h'.good, h.advance.trans h'.advance, Set.union_subset (h.added.trans h'.advance.known) h'.added⟩

/-- A loop adds what its rounds add, and each of its rounds has the effect that lasts. -/
theorem foldl_lasting {α : Type} {f : RetentionState → α → RetentionState} {T : α → Set MacroFact}
    {Q : α → RetentionState → Prop} {l : List α} (h : Good products members bound done s)
    (lasting : ∀ a s t, Advance products members loud s t → Q a s → Q a t)
    (step : ∀ t, ∀ a ∈ l, Good products members bound done t → Advance products members loud s t →
      Keeps products members loud bound done (T a) t (f t a) ∧ Q a (f t a)) :
    Keeps products members loud bound done {x | ∃ a ∈ l, x ∈ T a} s (l.foldl f s) ∧
      ∀ a ∈ l, Q a (l.foldl f s) := by
  induction l generalizing s with
  | nil => exact ⟨(refl h).weaken (by simp), by simp⟩
  | cons a l ih =>
    obtain ⟨h₁, hq₁⟩ := step s a (by simp) h (Advance.refl products members loud s)
    obtain ⟨h₂, hq₂⟩ := ih h₁.good fun t b hb ht hadvance =>
      step t b (by simp [hb]) ht (h₁.advance.trans hadvance)
    refine ⟨(h₁.trans h₂).weaken fun x hx => Or.inl ?_, fun b hb => ?_⟩
    · obtain ⟨b, hb, hx⟩ := hx
      rcases List.mem_cons.mp hb with rfl | hb
      · exact Or.inl hx
      · exact Or.inr ⟨b, hb, hx⟩
    · rcases List.mem_cons.mp hb with rfl | hb
      · exact lasting _ _ _ h₂.advance hq₁
      · exact hq₂ b hb

/-- A loop adds what its rounds add. -/
theorem foldl {α : Type} {f : RetentionState → α → RetentionState} {T : α → Set MacroFact}
    {l : List α} (h : Good products members bound done s)
    (step : ∀ t, ∀ a ∈ l, Good products members bound done t → Advance products members loud s t →
      Keeps products members loud bound done (T a) t (f t a)) :
    Keeps products members loud bound done {x | ∃ a ∈ l, x ∈ T a} s (l.foldl f s) :=
  (foldl_lasting (Q := fun _ _ => True) h (fun _ _ _ _ h => h) fun t a ha ht hadvance =>
    ⟨step t a ha ht hadvance, trivial⟩).1

end Keeps

end ItemDependencies
