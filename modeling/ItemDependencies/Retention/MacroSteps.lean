import ItemDependencies.Retention.MacroTriggers

/-!
# Processing one item keeps the invariant

An item is taken from its queue, its consequences become known, and from then on
it counts as drawn.
-/

namespace ItemDependencies

open Library RetentionClosure RetentionState List

section Definitions

variable (products : ValidatedMacroProducts) (members : ValidatedCompilerMemberConstraints)

/-- The counters of the contributors.  `sources` and `complete` are the source units and
contributors that have been counted. -/
structure ContributorCounters (sources : Finset SourceUnitId) (complete : Finset Nat)
    (c : RetentionClosure) : Prop where
  missingSources : ∀ node, c.contributorMissingSources node =
    (products.contributorIndex.sourcesAt node).countP fun unit => unit ∉ sources
  missingParents : ∀ node, c.contributorMissingParents node =
    (products.contributorIndex.parentsAt node).countP fun parent => parent ∉ complete
  ready : ∀ node < products.contributorIndex.count, c.contributorMissingSources node = 0 →
    c.contributorMissingParents node = 0 →
    node ∈ c.pendingCompleteContributors ∨ node ∈ c.contributorComplete
  pending : ∀ node ∈ c.pendingCompleteContributors,
    c.contributorMissingSources node = 0 ∧ c.contributorMissingParents node = 0

/-- The counters of the groups. -/
structure GroupCounters (complete : Finset Nat) (c : RetentionClosure) : Prop where
  missingRoots : ∀ group, c.groupMissingRoots group =
    (groupRoots products group).countP fun root => root ∉ complete
  materialized : ∀ group, group ∈ c.macroMaterialized ↔
    group < products.materializations.length ∧ c.groupMissingRoots group = 0

structure Counters (sources : Finset SourceUnitId) (complete : Finset Nat)
    (c : RetentionClosure) : Prop extends ContributorCounters products sources complete c,
    GroupCounters products complete c

/-- What holds whenever an item is taken from a queue. -/
structure Ready (bound : Set MacroFact) (s : RetentionState) : Prop where
  good : Good products members bound (drawn s) s
  counters : Counters products s.closure.source.processed s.closure.contributorComplete s.closure
  demanded : ∀ producer ∈ s.closure.demandedProducers.processed,
    producerAt products producer ∈ s.closure.processedDemandedChildren

/-- No producer waits to spread its meaning while a group has materialized. -/
def Calm (s : RetentionState) : Prop :=
  s.closure.macroMaterialized = ∅ ∨ s.closure.meaningfulProducers.pending = []

/-- Facts have been added and work has been done. -/
structure Progress (s t : RetentionState) : Prop where
  known : known products s ⊆ known products t
  work : work products members t < work products members s

/-- An item has been taken from its queue. -/
structure Popped (bound : Set MacroFact) (x : MacroFact) (s t : RetentionState) : Prop where
  good : Good products members bound (drawn s) t
  drawn_eq : drawn t = insert x (drawn s)
  mem : x ∈ known products t
  progress : Progress products members s t
  counters : Counters products s.closure.source.processed s.closure.contributorComplete t.closure
  demanded : ∀ producer ∈ t.closure.demandedProducers.processed,
    producerAt products producer ∈ t.closure.processedDemandedChildren
  calm : Calm s → Calm t
  source : (∀ unit, x ≠ .retained unit) → t.closure.source.processed = s.closure.source.processed
  complete : t.closure.contributorComplete = s.closure.contributorComplete

/-- An item has been taken and processed, and the calm has been left as it was. -/
structure Processed (bound : Set MacroFact) (s t : RetentionState) : Prop
    extends Progress products members s t where
  ready : Ready products members bound t
  calm : Calm s → Calm t

end Definitions

variable {products : ValidatedMacroProducts} {members : ValidatedCompilerMemberConstraints}
  {loud : Prop} {facts bound done added : Set MacroFact} {s t u : RetentionState} {x : MacroFact}
  {node : GraphNode}

/-- One more fact has been drawn. -/
theorem Inv.draw (h : Inv products members facts done s) (hx : x ∈ facts)
    (hagenda : ∀ premises conclusion, MacroRule products members premises conclusion →
      x ∈ premises → (∀ p ∈ premises, p = x ∨ p ∈ done) → conclusion ∈ facts)
    (hcompile : ∀ definition, x = .present (.definition definition) →
      ∀ conditional ∈ members.conditionalByTrigger definition,
        conditional.2 ∈ s.closure.conditionalCompileMemberState conditional.1)
    (hactual : ∀ definition, x = .actualDefinition definition →
      ∀ conditional ∈ members.conditionalByTrigger definition,
        conditional.2 ∈ s.closure.conditionalActualMemberState conditional.1)
    (hdependencies : ∀ child, x = .meaningful child →
      ∀ group ∈ products.outputMeaning.dependentGroupsByProduct
        (.expansion (producerAt products child)), group ∈ s.closure.groupHasMeaningfulDependency)
    (hcarriers : ∀ definition, x = .actualDefinition definition →
      ∀ clause ∈ products.demandClausesByCarrier definition,
        clause ∈ s.closure.demandClauseHasCarrier)
    (hchildren : ∀ child, x = .demanded child →
      ∀ clause ∈ products.dependentDemandClausesByChild child,
        clause ∈ s.closure.demandClauseHasDependentChild) :
    Inv products members facts (insert x done) s where
  __ := h
  agenda := h.agenda.draw hagenda
  done_known := Set.insert_subset hx h.done_known
  compileMembers := { h.compileMembers with
    set := fun definition conditional hc hd => hd.elim
      (fun heq => hcompile definition heq.symm conditional hc)
      (h.compileMembers.set definition conditional hc) }
  actualMembers := { h.actualMembers with
    set := fun definition conditional hc hd => hd.elim
      (fun heq => hactual definition heq.symm conditional hc)
      (h.actualMembers.set definition conditional hc) }
  dependencies child hc group hg := hc.elim (fun heq => hdependencies child heq.symm group hg)
    fun hc => h.dependencies child hc group hg
  carriers definition clause hc hd := hd.elim
    (fun heq => hcarriers definition heq.symm clause hc) (h.carriers definition clause hc)
  children child clause hc hd := hd.elim
    (fun heq => hchildren child heq.symm clause hc) (h.children child clause hc)

/-- The counters do not change while an item adds facts. -/
theorem Counters.of_advance {sources : Finset SourceUnitId} {complete : Finset Nat}
    (h : Counters products sources complete s.closure) (ha : Advance products members loud s t) :
    Counters products sources complete t.closure where
  missingSources node := ha.missingSources ▸ h.missingSources node
  missingParents node := ha.missingParents ▸ h.missingParents node
  missingRoots group := ha.missingRoots ▸ h.missingRoots group
  ready node hlt hs hp := by
    rw [ha.pendingComplete, ha.contributorComplete]
    exact h.ready node hlt (ha.missingSources ▸ hs) (ha.missingParents ▸ hp)
  pending node hn := by
    rw [ha.missingSources, ha.missingParents]
    exact h.pending node (ha.pendingComplete ▸ hn)
  materialized group := by
    rw [ha.materialized, ha.missingRoots]
    exact h.materialized group

/-- A step that is not loud keeps the calm. -/
theorem Calm.of_advance (h : Calm s) (ha : Advance products members loud s t) (hquiet : ¬loud) :
    Calm t := by
  rw [Calm, ha.materialized, ha.meaningful.resolve_right fun h => hquiet h.1]
  exact h

/-- What has been added while an item is processed includes its consequences. -/
theorem Popped.finish (hp : Popped products members bound x s t) (hx : ∀ unit, x ≠ .retained unit)
    (hk : Keeps products members loud bound (drawn s) added t u)
    (hinv : Inv products members (known products u) (drawn s) u →
      Inv products members (known products u) (insert x (drawn s)) u) :
    Ready products members bound u ∧ Progress products members s u := by
  refine ⟨⟨{ hk.good with inv := ?_ }, ?_, fun producer hproducer => ?_⟩,
    hp.progress.known.trans hk.advance.known, hk.advance.work.trans_lt hp.progress.work⟩
  · rw [hk.advance.drawn, hp.drawn_eq]
    exact hinv hk.good.inv
  · rw [hk.advance.sourceProcessed, hk.advance.contributorComplete, hp.source hx, hp.complete]
    exact hp.counters.of_advance hk.advance
  · rw [hk.advance.demandedProcessed] at hproducer
    exact hk.advance.demandedChildren (hp.demanded producer hproducer)

theorem Popped.processed (hp : Popped products members bound x s t)
    (hx : ∀ unit, x ≠ .retained unit)
    (hk : Keeps products members False bound (drawn s) added t u)
    (hinv : Inv products members (known products u) (drawn s) u →
      Inv products members (known products u) (insert x (drawn s)) u) :
    Processed products members bound s u := by
  obtain ⟨hready, hprogress⟩ := hp.finish hx hk hinv
  exact ⟨hprogress, hready, fun h => (hp.calm h).of_advance hk.advance not_false⟩

/-! ## Taking items from the queues -/

theorem Popped.of_pop (h : Ready products members bound s)
    (hknown : ∀ f, f ∈ known products t ↔ f ∈ known products s)
    (hinv : Inv products members (known products s) (drawn s) t)
    (hdrawn : ∀ f, f ∈ drawn t ↔ f = x ∨ f ∈ drawn s) (hx : x ∈ known products s)
    (hwork : work products members t < work products members s)
    (hcounters : Counters products s.closure.source.processed s.closure.contributorComplete
      t.closure)
    (hdemanded : ∀ producer ∈ t.closure.demandedProducers.processed,
      producerAt products producer ∈ t.closure.processedDemandedChildren) (hcalm : Calm s → Calm t)
    (hsource : (∀ unit, x ≠ .retained unit) →
      t.closure.source.processed = s.closure.source.processed)
    (hcomplete : t.closure.contributorComplete = s.closure.contributorComplete) :
    Popped products members bound x s t := by
  have heq : known products t = known products s := Set.ext hknown
  refine ⟨⟨?_, ?_, ?_⟩, Set.ext hdrawn, (hknown x).mpr hx, ⟨heq.symm.subset, hwork⟩, hcounters,
    hdemanded, hcalm, hsource, hcomplete⟩
  · rw [heq]
    exact hinv
  · rw [heq]
    exact h.good.sound
  · rw [heq]
    exact h.good.mentioned

/-- An item is taken from one of the work lists. -/
theorem Popped.of_worklist {α : Type} [DecidableEq α] {w w' : Worklist α} {fact : α → MacroFact}
    {a : α} (items : List α) (h : Ready products members bound s) (hpop : w.pop = some (a, w'))
    (hinjective : Function.Injective fact)
    (hqueue : ∀ b, (fact b ∈ drawn s ↔ b ∈ w.processed) ∧ (fact b ∈ drawn t ↔ b ∈ w'.processed))
    (hothers : ∀ f, (∀ b, f ≠ fact b) → (f ∈ drawn t ↔ f ∈ drawn s))
    (hknown : w'.seen = w.seen → ∀ f, f ∈ known products t ↔ f ∈ known products s)
    (hinv : w'.seen = w.seen → Inv products members (known products s) (drawn s) t)
    (hx : a ∈ w.seen → fact a ∈ known products s)
    (hwork : w'.left items < w.left items → work products members t < work products members s)
    (hcounters : Counters products s.closure.source.processed s.closure.contributorComplete
      t.closure)
    (hdemanded : ∀ producer ∈ t.closure.demandedProducers.processed,
      producerAt products producer ∈ t.closure.processedDemandedChildren)
    (hcalm : w.pending ≠ [] → Calm s → Calm t)
    (hsource : (∀ unit, fact a ≠ .retained unit) →
      t.closure.source.processed = s.closure.source.processed)
    (hcomplete : t.closure.contributorComplete = s.closure.contributorComplete) :
    Popped products members bound (fact a) s t := by
  obtain ⟨hpending, hseen⟩ := Worklist.pop_eq_some hpop
  obtain ⟨hmem, -, hprocessed⟩ := Worklist.processed_pop hpop
  refine Popped.of_pop h (hknown hseen) (hinv hseen) (fun f => ?_) (hx hmem)
    (hwork (Worklist.left_pop items hpop).le) hcounters hdemanded
        (hcalm (by simp [hpending])) hsource
    hcomplete
  by_cases hf : ∃ b, f = fact b
  · obtain ⟨b, rfl⟩ := hf
    rw [(hqueue b).2, (hqueue b).1, hprocessed, Finset.mem_insert, hinjective.eq_iff]
  · have hne := not_exists.mp hf
    rw [hothers f hne, or_iff_right (hne a)]

theorem popped_presence (h : Ready products members bound s)
    (hpop : popPresence s = some (node, t)) :
    Popped products members bound (.present node) s t := by
  obtain ⟨⟨_, w⟩, hw, heq⟩ := Option.map_eq_some_iff.mp hpop
  cases heq
  refine .of_worklist (mentionedNodes products members) h hw (fun _ _ => MacroFact.present.inj)
    (fun _ => ⟨.rfl, .rfl⟩)
    (fun f hf => by cases f <;> first | exact .rfl | exact absurd rfl (hf _))
    (fun _ f => by cases f <;> exact .rfl)
    (fun hseen => { h.good.inv with presence := fun n => hseen ▸ h.good.inv.presence n })
    (h.good.inv.presence _).mp (fun _ => ?_) { h.counters with } h.demanded (fun _ => id)
    (fun _ => rfl) rfl
  simp only [work, onClosure]
  omega

theorem popped_actualProduct (h : Ready products members bound s)
    (hpop : popActualProduct s = some (node, t)) :
    Popped products members bound (.actual node) s t := by
  obtain ⟨⟨_, w⟩, hw, heq⟩ := Option.map_eq_some_iff.mp hpop
  cases heq
  refine .of_worklist (mentionedNodes products members) h hw (fun _ _ => MacroFact.actual.inj)
    (fun _ => ⟨.rfl, .rfl⟩)
    (fun f hf => by cases f <;> first | exact .rfl | exact absurd rfl (hf _))
    (fun _ f => by cases f <;> exact .rfl)
    (fun hseen => { h.good.inv with
      actualProducts := fun n => hseen ▸ h.good.inv.actualProducts n })
    (h.good.inv.actualProducts _).mp (fun _ => ?_) { h.counters with } h.demanded (fun _ => id)
    (fun _ => rfl) rfl
  simp only [work, onClosure]
  omega

theorem popped_actualDefinition {definition : DefinitionId} (h : Ready products members bound s)
    (hpop : popActualDefinition s = some (definition, t)) :
    Popped products members bound (.actualDefinition definition) s t := by
  obtain ⟨⟨_, w⟩, hw, heq⟩ := Option.map_eq_some_iff.mp hpop
  cases heq
  refine .of_worklist (mentionedDefinitions products members) h hw
    (fun _ _ => MacroFact.actualDefinition.inj) (fun _ => ⟨.rfl, .rfl⟩)
    (fun f hf => by cases f <;> first | exact .rfl | exact absurd rfl (hf _))
    (fun hseen f => by cases f <;> first | exact .rfl | exact Finset.ext_iff.mp hseen _)
    (fun hseen => { h.good.inv with
      actualDefinitions := fun d => hseen ▸ h.good.inv.actualDefinitions d })
    id (fun _ => ?_) { h.counters with } h.demanded (fun _ => id) (fun _ => rfl) rfl
  simp only [work, onClosure]
  omega

theorem popped_source {unit : SourceUnitId} (h : Ready products members bound s)
    (hpop : popSource s = some (unit, t)) :
    Popped products members bound (.retained unit) s t := by
  obtain ⟨⟨_, w⟩, hw, heq⟩ := Option.map_eq_some_iff.mp hpop
  cases heq
  refine .of_worklist (mentionedSources products) h hw (fun _ _ => MacroFact.retained.inj)
    (fun _ => ⟨.rfl, .rfl⟩)
    (fun f hf => by cases f <;> first | exact .rfl | exact absurd rfl (hf _))
    (fun _ f => by cases f <;> exact .rfl)
    (fun hseen => { h.good.inv with source := fun n => hseen ▸ h.good.inv.source n })
    (h.good.inv.source _).mp (fun _ => ?_) { h.counters with } h.demanded (fun _ => id)
    (fun hne => absurd rfl (hne _)) rfl
  simp only [work, onClosure]
  omega

theorem popped_requestedContributor {node : Nat} (h : Ready products members bound s)
    (hpop : popRequestedContributor s = some (node, t)) :
    Popped products members bound (.requested node) s t := by
  obtain ⟨⟨_, w⟩, hw, heq⟩ := Option.map_eq_some_iff.mp hpop
  cases heq
  refine .of_worklist (contributors products) h hw (fun _ _ => MacroFact.requested.inj)
    (fun _ => ⟨.rfl, .rfl⟩)
    (fun f hf => by cases f <;> first | exact .rfl | exact absurd rfl (hf _))
    (fun hseen f => by cases f <;> first | exact .rfl | exact Finset.ext_iff.mp hseen _)
    (fun _ => { h.good.inv with }) id (fun _ => ?_) { h.counters with } h.demanded (fun _ => id)
    (fun _ => rfl) rfl
  simp only [work, onClosure]
  omega

theorem popped_meaningfulProducer {producer : Nat} (h : Ready products members bound s)
    (hpop : popMeaningfulProducer s = some (producer, t)) :
    Popped products members bound (.meaningful producer) s t := by
  obtain ⟨⟨_, w⟩, hw, heq⟩ := Option.map_eq_some_iff.mp hpop
  cases heq
  refine .of_worklist (producers products) h hw (fun _ _ => MacroFact.meaningful.inj)
    (fun _ => ⟨.rfl, .rfl⟩)
    (fun f hf => by cases f <;> first | exact .rfl | exact absurd rfl (hf _))
    (fun hseen f => by cases f <;> first | exact .rfl | exact Finset.ext_iff.mp hseen _)
    (fun _ => { h.good.inv with }) id
    (fun _ => ?_) { h.counters with } h.demanded
        (fun hne => Or.imp_right fun hnil => absurd hnil hne)
    (fun _ => rfl) rfl
  simp only [work, onClosure]
  omega

theorem popped_requiredExpansion {child : ExpansionId} (h : Ready products members bound s)
    (hpop : popRequiredExpansion s = some (child, t)) :
    Popped products members bound (.demanded child) s t := by
  unfold popRequiredExpansion at hpop
  cases hp : s.closure.pendingRequiredExpansions with
  | nil => simp [hp] at hpop
  | cons first rest =>
    rw [hp] at hpop
    cases hpop
    have hnodup := nodup_cons.mp (hp ▸ h.good.inv.required_nodup)
    have hdemanded := h.good.inv.required_demanded
    rw [hp] at hdemanded
    refine Popped.of_pop h (fun f => by cases f <;> exact Iff.rfl)
      { h.good.inv with
        required_nodup := hnodup.2
        required_demanded := fun e he => hdemanded e (mem_cons_of_mem _ he) } (fun f => ?_)
      (Or.inl (hdemanded _ (by simp)).1) ?_ { h.counters with } h.demanded id (fun _ => rfl) rfl
    · cases f with
      | demanded e =>
        show e ∈ s.closure.processedDemandedChildren ∧ e ∉ rest ↔
          MacroFact.demanded e = .demanded child ∨ e ∈ s.closure.processedDemandedChildren ∧
            e ∉ s.closure.pendingRequiredExpansions
        rw [hp, MacroFact.demanded.injEq, mem_cons, not_or]
        constructor
        · rintro ⟨he, hr⟩
          by_cases hec : e = child
          · exact Or.inl hec
          · exact Or.inr ⟨he, hec, hr⟩
        · rintro (rfl | ⟨he, -, hr⟩)
          · exact ⟨(hdemanded _ (by simp)).1, hnodup.1⟩
          · exact ⟨he, hr⟩
      | _ => exact ⟨Or.inr, fun hf => hf.resolve_left (by simp)⟩
    · have hlt : requiredLeft products s.closure.processedDemandedChildren rest <
          requiredLeft products s.closure.processedDemandedChildren
            s.closure.pendingRequiredExpansions := by
        rw [hp]
        exact Nat.lt_succ_self _
      simp only [work, onClosure]
      omega

/-! ## Nodes -/

section Steps

variable (hwf : products.WellFormed) (hclosed : Closed (RetentionRule products members) bound)

/-- The class of a node is the only one that has it. -/
theorem class_eq {definitions : List GraphNode} {k : Nat} (hwf : products.WellFormed)
    (hmem : definitions ∈ products.actualDefinitionClasses) (hnode : node ∈ definitions)
    (hk : (products.actualDefinitionClasses.findIdx? fun definitions => definitions.contains node) =
      some k) :
    products.actualDefinitionClasses.getD k [] = definitions := by
  obtain ⟨hlt, hmem', -⟩ := findIdx?_eq_some_iff_getElem.mp hk
  obtain ⟨i, hi, rfl⟩ := getElem_of_mem hmem
  rw [getD_eq_getElem?_getD, getElem?_eq_getElem hlt]
  by_contra hne
  have hne' : k ≠ i := fun h => hne (by subst h; rfl)
  have hdisjoint := pairwise_iff_getElem.mp (nodup_flatten.mp hwf.nodup_classes).2
  have hk : node ∈ products.actualDefinitionClasses[k] := by simpa using hmem'
  rcases lt_or_gt_of_ne hne' with h | h
  · exact hdisjoint k i hlt hi h hk hnode
  · exact hdisjoint i k hi hlt h hnode hk

include hwf hclosed in
theorem keeps_processActualProduct (h : Good products members bound done s)
    (hactual : .actual node ∈ known products s) :
    Keeps products members loud bound done
      {f | ∃ definitions ∈ products.actualDefinitionClasses, node ∈ definitions ∧
        ∃ b ∈ definitions, InLane b f} s (processActualProduct products node s) := by
  unfold processActualProduct
  cases hk :
    products.actualDefinitionClasses.findIdx? fun definitions => definitions.contains node with
  | none =>
    refine (Keeps.refl h).weaken ?_
    rintro f ⟨definitions, hmem, hnode, -⟩
    have := findIdx?_eq_none_iff.mp hk definitions hmem
    simp [hnode] at this
  | some k =>
    have hlt := (findIdx?_eq_some_iff_getElem.mp hk).1
    by_cases hdone : k ∈ s.closure.actualDefinitionClassProcessed
    · simp only [hdone, if_true]
      refine (Keeps.refl h).weaken fun f hf => Or.inr ?_
      obtain ⟨definitions, hmem, hnode, b, hb, hf⟩ := hf
      rw [← class_eq hwf hmem hnode hk] at hb
      cases hf with
      | present => exact (h.inv.classes k hdone b hb).1
      | actual => exact (h.inv.classes k hdone b hb).2
    · simp only [hdone, if_false]
      have hget : products.actualDefinitionClasses.getD k [] =
          products.actualDefinitionClasses[k] := by
        rw [getD_eq_getElem?_getD, getElem?_eq_getElem hlt]
        rfl
      have hnode : node ∈ products.actualDefinitionClasses.getD k [] := by
        rw [hget]
        simpa using (findIdx?_eq_some_iff_getElem.mp hk).2.1
      have hmem : products.actualDefinitionClasses.getD k [] ∈ products.actualDefinitionClasses :=
        hget ▸ getElem_mem hlt
      -- the flag is set before the class is actual, which makes no difference
      rw [foldl_onClosure (requireActual_onClosure (fun _ _ => rfl) fun _ n => by cases n <;> rfl)]
      have h₁ : Keeps products members loud bound done
          {f | ∃ b ∈ products.actualDefinitionClasses.getD k [], f ∈ {f | InLane b f}} s
          ((products.actualDefinitionClasses.getD k []).foldl requireActual s) :=
        Keeps.foldl h fun t b hb ht _ => keeps_requireActual hclosed ht fun f hf =>
          hclosed _ _ (Or.inl (.actualClass hmem hnode hb hf)) (by simpa using h.sound hactual)
      generalize (products.actualDefinitionClasses.getD k []).foldl requireActual s = mid at h₁
      have h₂ : Keeps products members loud bound done ∅ mid (mid.onClosure fun c =>
          { c with
            actualDefinitionClassProcessed := insert k c.actualDefinitionClassProcessed }) := by
        refine Keeps.of_flags _ h₁.good { Advance.refl products members loud mid with }
          (fun f hf => by cases f <;> exact hf) { h₁.good.inv with classes := fun i hi b hb => ?_ }
        rcases Finset.mem_insert.mp hi with rfl | hi
        · exact ⟨h₁.added ⟨b, hb, .present⟩, h₁.added ⟨b, hb, .actual⟩⟩
        · exact h₁.good.inv.classes i hi b hb
      refine (h₁.trans h₂).weaken fun f hf => Or.inl (Or.inl ?_)
      obtain ⟨definitions, hmem, hnode, b, hb, hf⟩ := hf
      exact ⟨b, (class_eq hwf hmem hnode hk).symm ▸ hb, hf⟩

include hwf hclosed in
theorem ready_processActualProduct (h : Ready products members bound s)
    (hpop : popActualProduct s = some (node, t)) :
    Processed products members bound s (processActualProduct products node t) := by
  have hp : Popped products members bound (.actual node) s t := popped_actualProduct h hpop
  have hk :
      Keeps products members False bound (drawn s) _ t (processActualProduct products node t) :=
    keeps_processActualProduct hwf hclosed hp.good hp.mem
  refine hp.processed (by simp) hk fun inv => ?_
  refine inv.draw (hk.advance.known hp.mem) (fun ps c hr hx _ => ?_) (by simp) (by simp) (by simp)
    (by simp) (by simp)
  cases hr with
  | actualDefinition =>
    obtain rfl : node = .definition _ := by simpa using hx
    exact (inv.actualDefinitions _).mpr (hk.advance.known hp.mem)
  | actualClass hclass ha hb hf =>
    obtain rfl : node = _ := by simpa using hx
    exact hk.added ⟨_, hclass, ha, _, hb, hf⟩
  | _ => simp at hx

/-- Both sides. -/
theorem eq_both {sides : Finset MemberSide} (h : ∀ side, side ∈ sides) :
    sides = {.left, .right} := by
  ext side
  cases side <;> simp [h]

include hwf in
/-- While nothing waits to spread its meaning, a trigger tells a materialized group nothing new. -/
theorem Calm.inherit (hcalm : Calm s) (h : Good products members bound done s)
    (hdone : ∀ producer ∈ s.closure.meaningfulProducers.processed, .meaningful producer ∈ done)
    (hpresent : .present node ∈ known products s) {group : Nat}
    (hgroup : group ∈ products.compileTriggerGroups node) (hm : group ∈ s.closure.macroMaterialized)
    (hmeaningful : OutputMeaningful products (known products s) node) :
    ReasonSeen products s group := by
  rcases hwf.trigger_meaning node group hgroup with hi | hdep
  · exact Or.inl hi
  · rcases hwf.dependency node group hdep with hi | ⟨expansion, producer, rfl, hp⟩ |
      ⟨definition, other, rfl, ho⟩
    · exact Or.inl hi
    · have hseen := hmeaningful expansion producer rfl hp
      rcases hcalm with hnone | hpending
      · simp [hnone] at hm
      · have hprocessed : producer ∈ s.closure.meaningfulProducers.processed := by
          rw [Worklist.processed_eq_seen hpending]
          exact hseen
        refine Or.inr (Or.inl (h.inv.dependencies producer (hdone producer hprocessed) group ?_))
        rwa [(producerAt_of_index hp).2]
    · exact Or.inr (Or.inr ⟨definition, other, ho, hdep, hpresent⟩)

include hwf hclosed in
theorem ready_processPresence (h : Ready products members bound s) (hcalm : Calm s)
    (hpop : popPresence s = some (node, t)) :
    Processed products members bound s (processPresence products members node t) := by
  have hp : Popped products members bound (.present node) s t := popped_presence h hpop
  -- first the members of a definition
  obtain ⟨mid, hmid, hk₁, hsides⟩ : ∃ mid, processPresence products members node t =
      processMacroTrigger products node mid ∧
      Keeps products members False bound (drawn s)
        {f | ∃ trigger required, node = .definition trigger ∧
          ⟨trigger, required⟩ ∈ members.requirements ∧ f = .present (.definition required)} t mid ∧
      ∀ definition, node = .definition definition →
        ∀ conditional ∈ members.conditionalByTrigger definition,
          conditional.2 ∈ mid.closure.conditionalCompileMemberState conditional.1 := by
    cases node with
    | definition trigger =>
      obtain ⟨hk, hsides⟩ := keeps_processCompileMembers hclosed hp.good hp.mem
      refine ⟨_, rfl, hk.weaken fun f hf => Or.inl ?_, fun d hd => by cases hd; exact hsides⟩
      obtain ⟨trigger', required, htrigger, hr, rfl⟩ := hf
      cases htrigger
      exact ⟨required, hr, rfl⟩
    | _ => exact ⟨t, rfl, (Keeps.refl hp.good).weaken (by simp), (by simp)⟩
  have hpresent := hk₁.advance.known hp.mem
  -- then the groups that it opens
  have hdrawn : drawn mid = insert (.present node) (drawn s) := hk₁.advance.drawn.trans hp.drawn_eq
  have hk₂ : Keeps products members False bound (drawn s) _ mid
      (processMacroTrigger products node mid) :=
    keeps_processMacroTrigger hwf hclosed hk₁.good hpresent fun group hgroup hm hmeaningful =>
      ((hp.calm hcalm).of_advance hk₁.advance not_false).inherit hwf hk₁.good
        (fun producer hproducer => (hdrawn.subset (show .meaningful producer ∈ drawn mid from
          hproducer)).resolve_left (by simp)) hpresent hgroup hm hmeaningful
  have hk := hk₁.trans hk₂
  rw [hmid]
  refine hp.processed (by simp) hk fun inv => ?_
  have hset : ∀ definition, node = .definition definition →
      ∀ conditional ∈ members.conditionalByTrigger definition,
        conditional.2 ∈ (processMacroTrigger products node mid
          ).closure.conditionalCompileMemberState conditional.1 :=
    fun d hd conditional hc => hk₂.advance.compileSides _ (hsides d hd conditional hc)
  refine inv.draw (hk.advance.known hp.mem) (fun ps c hr hx hdone => ?_)
    (fun d hd => hset d (MacroFact.present.inj hd)) (by simp) (by simp) (by simp) (by simp)
  cases hr with
  | requirement hr =>
    obtain rfl : node = .definition _ := by simpa using hx
    exact hk.added (Or.inl ⟨_, _, rfl, hr, rfl⟩)
  | @conditional r hr =>
    obtain ⟨index, hindex⟩ := getElem?_of_mem hr
    have hside : ∀ side, side ∈ (processMacroTrigger products node mid
        ).closure.conditionalCompileMemberState index := by
      intro side
      have hmem : (index, side) ∈ members.conditionalByTrigger (r.trigger side) :=
        mem_conditionalByTrigger.mpr ⟨r, hindex, rfl⟩
      rcases hdone (.present (.definition (r.trigger side))) (by cases side <;> simp [
        ConditionalDefinitionRequirement.trigger]) with heq | hd
      · exact hset _ (MacroFact.present.inj heq).symm _ hmem
      · exact inv.compileMembers.set _ _ hmem hd
    exact inv.compileMembers.required index r hindex (eq_both hside)
  | trigger hnode hgroup hroot =>
    obtain rfl : node = _ := by simpa using hx
    refine hk.added (Or.inr ⟨fun expansion producer heq hp => ?_, _, hgroup,
      Or.inl ⟨_, hroot, rfl⟩⟩)
    cases (hnode expansion heq).symm.trans hp
  | @producerTrigger expansion producer group root hproducer hgroup hroot =>
    obtain rfl : node = .expansion expansion := by simpa using hx
    have hmeaningful : .meaningful producer ∈ known products mid :=
      hk₁.good.inv.done_known ((hdone (.meaningful producer) (by simp)).resolve_left (by simp))
    refine hk.added (Or.inr ⟨fun expansion' producer' heq hp => ?_, _, hgroup,
      Or.inl ⟨_, hroot, rfl⟩⟩)
    cases heq
    obtain rfl := Option.some.inj (hproducer.symm.trans hp)
    exact hmeaningful
  | @ownerMember m group requirement member hm hr hmember =>
    obtain rfl : node = .definition requirement.owner := by simpa using hx
    have hmat : .materialized group ∈ known products mid :=
      hk₁.good.inv.done_known ((hdone (.materialized group) (by simp)).resolve_left (by simp))
    refine hk.added (Or.inr ⟨(fun _ _ heq => by cases heq), group,
      hwf.owner_trigger m group requirement hm hr (ne_nil_of_mem hmember),
        Or.inr ⟨hmat, .definition member, ?_, rfl⟩⟩)
    exact mem_ownerMembers.mpr ⟨m, requirement, member, hm, hr, rfl, hmember, rfl⟩
  | _ => simp at hx

/-! ## Actual definitions and demand -/

/-- A clause that has a carrier and whatever else it waits for has asked for what it needs. -/
theorem Inv.clause_asked (inv : Inv products members facts done s) {index : Nat}
    {clause : MacroDemandClause} {f : MacroFact}
    (hclause : products.demandClauses[index]? = some clause)
    (hcarrier : index ∈ s.closure.demandClauseHasCarrier)
    (hready : clause.requiredExpansions ≠ [] ∨ clause.opaqueDependent = true ∨
      index ∈ s.closure.demandClauseHasDependentChild)
    (hf : ClauseAsks products clause f) : f ∈ facts :=
  inv.satisfied index (inv.ready index clause hclause hcarrier hready) clause hclause f hf

include hwf hclosed in
theorem ready_processActualDefinition {definition : DefinitionId}
    (h : Ready products members bound s) (hpop : popActualDefinition s = some (definition, t)) :
    Processed products members bound s (processActualDefinition products members definition t) := by
  have hp : Popped products members bound (.actualDefinition definition) s t :=
    popped_actualDefinition h hpop
  obtain ⟨hk₁, hsides⟩ : Keeps products members False bound (drawn s) _ t _ ∧ _ :=
    keeps_processActualMembers hclosed hp.good hp.mem
  obtain ⟨hk₂, hcarriers⟩ : Keeps products members False bound (drawn s) _ _ _ ∧ _ :=
    keeps_processDemandTrigger hwf hclosed hk₁.good (hk₁.advance.known hp.mem)
  have hk := hk₁.trans hk₂
  refine hp.processed (by simp) hk fun inv => ?_
  have hset : ∀ d, MacroFact.actualDefinition definition = .actualDefinition d →
      ∀ conditional ∈ members.conditionalByTrigger d,
        conditional.2 ∈ (processActualDefinition products members definition t
          ).closure.conditionalActualMemberState conditional.1 := by
    rintro d ⟨⟩ conditional hc
    exact hk₂.advance.actualSides _ (hsides conditional hc)
  have hcarried : ∀ d, MacroFact.actualDefinition definition = .actualDefinition d →
      ∀ clause ∈ products.demandClausesByCarrier d,
        clause ∈ (processActualDefinition products members definition t
          ).closure.demandClauseHasCarrier := by
    rintro d ⟨⟩
    exact hcarriers
  refine inv.draw (hk.advance.known hp.mem) (fun ps c hr hx hdone => ?_) (by simp) hset
    (by simp) hcarried
    (by simp)
  cases hr with
  | actualRequirement hr hf =>
    obtain rfl : definition = _ := by simpa using hx
    exact hk.added (Or.inl ⟨_, hr, hf⟩)
  | @actualConditional r f hr hf =>
    obtain ⟨index, hindex⟩ := getElem?_of_mem hr
    have hside : ∀ side, side ∈ (processActualDefinition products members definition t
        ).closure.conditionalActualMemberState index := by
      intro side
      have hmem : (index, side) ∈ members.conditionalByTrigger (r.trigger side) :=
        mem_conditionalByTrigger.mpr ⟨r, hindex, rfl⟩
      rcases hdone (.actualDefinition (r.trigger side)) (by cases side <;> simp [
        ConditionalDefinitionRequirement.trigger]) with heq | hd
      · exact hset _ heq.symm _ hmem
      · exact inv.actualMembers.set _ _ hmem hd
    exact inv.actualMembers.required index r hindex (eq_both hside) _ hf
  | demandedProducer hproducer =>
    obtain rfl : definition = _ := by simpa using hx
    exact hk.added (Or.inr ⟨_, hproducer, rfl⟩)
  | clause hcarrier hclause hready hf =>
    obtain rfl : definition = _ := by simpa using hx
    exact inv.clause_asked hclause (hcarried _ rfl _ hcarrier) (or_assoc.mp (Or.inl hready)) hf
  | @dependentClause d child index clause f hcarrier hchild hclause hf =>
    obtain rfl : definition = d := by simpa using hx
    have hd := (hdone (.demanded child) (by simp)).resolve_left (by simp)
    exact inv.clause_asked hclause (hcarried _ rfl _ hcarrier)
      (Or.inr (Or.inr (inv.children child index hchild hd))) hf
  | _ => simp at hx

include hwf hclosed in
/-- A demanded expansion is actual, and may be what some clauses wait for. -/
theorem ready_demanded {child : ExpansionId}
    (hp : Popped products members bound (.demanded child) s t) :
    Processed products members bound s ((t.requireActual (.expansion child)).onClosure fun c =>
      processDemandedChild products c child) := by
  have hk₁ : Keeps products members False bound (drawn s) {f | InLane (.expansion child) f} t
      (t.requireActual (.expansion child)) :=
    keeps_requireActual hclosed hp.good fun f hf =>
      hclosed _ _ (Or.inl (.demandedActual hf)) (by simpa using hp.good.sound hp.mem)
  obtain ⟨hk₂, hchildren⟩ : Keeps products members False bound (drawn s) _ _ _ ∧ _ :=
    keeps_processDemandedChild hwf hclosed hk₁.good (hk₁.advance.known hp.mem)
  have hk := hk₁.trans hk₂
  refine hp.processed (by simp) hk fun inv => ?_
  have hset : ∀ e, MacroFact.demanded child = .demanded e →
      ∀ clause ∈ products.dependentDemandClausesByChild e,
        clause ∈ ((t.requireActual (.expansion child)).onClosure fun c =>
          processDemandedChild products c child).closure.demandClauseHasDependentChild := by
    rintro e ⟨⟩
    exact hchildren
  refine inv.draw (hk.advance.known hp.mem) (fun ps c hr hx hdone => ?_) (by simp) (by simp)
    (by simp) (by simp)
    hset
  cases hr with
  | @dependentClause d e index clause f hcarrier hchild hclause hf =>
    obtain rfl : child = e := by simpa using hx
    have hd := (hdone (.actualDefinition d) (by simp)).resolve_left (by simp)
    exact inv.clause_asked hclause (inv.carriers d index hcarrier hd)
      (Or.inr (Or.inr (hset _ rfl _ hchild))) hf
  | demandedActual hf =>
    obtain rfl : child = _ := by simpa using hx
    exact hk.added (Or.inl hf)
  | _ => simp at hx

include hwf hclosed in
theorem ready_processRequiredExpansion {child : ExpansionId} (h : Ready products members bound s)
    (hpop : popRequiredExpansion s = some (child, t)) :
    Processed products members bound s (processRequiredExpansion products child t) :=
  ready_demanded hwf hclosed (popped_requiredExpansion h hpop)

include hwf hclosed in
theorem ready_processDemandedProducer {producer : Nat} (h : Ready products members bound s)
    (hpop : popDemandedProducer s = some (producer, t)) :
    Processed products members bound s (processDemandedProducer products producer t) := by
  obtain ⟨⟨producer, w⟩, hw, heq⟩ := Option.map_eq_some_iff.mp hpop
  cases heq
  obtain ⟨-, hseen⟩ := Worklist.pop_eq_some hw
  obtain ⟨hmem, -, hprocessed⟩ := Worklist.processed_pop hw
  have hleft := Worklist.left_pop (producers products) hw
  by_cases hchild : producerAt products producer ∈ s.closure.processedDemandedChildren
  · -- its expansion has been demanded before
    have heq : processDemandedProducer products producer
        (s.onClosure fun c => { c with demandedProducers := w }) =
        s.onClosure fun c => { c with demandedProducers := w } := if_pos hchild
    have hknown : known products (s.onClosure fun c => { c with demandedProducers := w }) =
        known products s := by
      ext f
      cases f with
      | demanded e =>
        show _ ∨ (∃ p ∈ w.seen, _) ↔ _
        rw [hseen]
        exact Iff.rfl
      | _ => exact Iff.rfl
    have hdrawn : drawn (s.onClosure fun c => { c with demandedProducers := w }) = drawn s := by
      ext f
      cases f <;> exact Iff.rfl
    rw [heq]
    refine ⟨⟨hknown.symm.subset, ?_⟩, ⟨⟨?_, hknown ▸ h.good.sound, hknown ▸ h.good.mentioned⟩,
      { h.counters with }, fun p hp => ?_⟩, id⟩
    · simp only [work, onClosure]
      omega
    · rw [hknown, hdrawn]
      exact { h.good.inv with demandedProducers_lt := hseen ▸ h.good.inv.demandedProducers_lt }
    · rcases Finset.mem_insert.mp (hprocessed ▸ hp) with rfl | hp
      · exact hchild
      · exact h.demanded p hp
  · have heq : processDemandedProducer products producer
        (s.onClosure fun c => { c with demandedProducers := w }) =
        (((s.onClosure fun c => { c with
          demandedProducers := w
          processedDemandedChildren :=
            insert (producerAt products producer) c.processedDemandedChildren }).requireActual
            (.expansion (producerAt products producer))).onClosure
              fun c => processDemandedChild products c (producerAt products producer)) :=
      if_neg hchild
    have hpending : producerAt products producer ∉ s.closure.pendingRequiredExpansions :=
      fun hc => hchild (h.good.inv.required_demanded _ hc).1
    have hp : Popped products members bound (.demanded (producerAt products producer)) s
        (s.onClosure fun c => { c with
          demandedProducers := w
          processedDemandedChildren :=
            insert (producerAt products producer) c.processedDemandedChildren }) := by
      refine Popped.of_pop h (fun f => ?_)
        { h.good.inv with
          demandedProducers_lt := hseen ▸ h.good.inv.demandedProducers_lt
          required_demanded := fun e he =>
            (h.good.inv.required_demanded e he).imp_left (Finset.mem_insert_of_mem ·) }
        (fun f => ?_) (Or.inr ⟨producer, hmem, rfl⟩) ?_ { h.counters with } (fun p hp => ?_) id
        (fun _ => rfl) rfl
      · cases f with
        | demanded e =>
          show e ∈ insert (producerAt products producer) s.closure.processedDemandedChildren ∨
            (∃ p ∈ w.seen, producerAt products p = e) ↔
              e ∈ s.closure.processedDemandedChildren ∨
                ∃ p ∈ s.closure.demandedProducers.seen, producerAt products p = e
          rw [hseen, Finset.mem_insert, or_assoc]
          refine ⟨fun hf => hf.elim (fun heq => Or.inr ⟨producer, hmem, heq.symm⟩) id, Or.inr⟩
        | _ => exact Iff.rfl
      · cases f with
        | demanded e =>
          show e ∈ insert (producerAt products producer) s.closure.processedDemandedChildren ∧
            e ∉ s.closure.pendingRequiredExpansions ↔
              MacroFact.demanded e = .demanded (producerAt products producer) ∨
                e ∈ s.closure.processedDemandedChildren ∧ e ∉ s.closure.pendingRequiredExpansions
          rw [Finset.mem_insert, MacroFact.demanded.injEq]
          constructor
          · rintro ⟨rfl | he, hp⟩
            · exact Or.inl rfl
            · exact Or.inr ⟨he, hp⟩
          · rintro (rfl | ⟨he, hp⟩)
            · exact ⟨Or.inl rfl, hpending⟩
            · exact ⟨Or.inr he, hp⟩
        | _ => exact ⟨Or.inr, fun hf => hf.resolve_left (by simp)⟩
      · have hrequired : requiredLeft products
              (insert (producerAt products producer) s.closure.processedDemandedChildren)
              s.closure.pendingRequiredExpansions ≤
            requiredLeft products s.closure.processedDemandedChildren
              s.closure.pendingRequiredExpansions :=
          Nat.add_le_add_right (countP_mono_left fun e _ he => by
            simp only [Finset.mem_insert, not_or, decide_eq_true_eq] at he ⊢
            exact he.2) _
        simp only [work, onClosure]
        omega
      · rcases Finset.mem_insert.mp (hprocessed ▸ hp) with rfl | hp
        · exact Finset.mem_insert_self ..
        · exact Finset.mem_insert_of_mem (h.demanded p hp)
    rw [heq]
    exact ready_demanded hwf hclosed hp

/-! ## Contributors -/

include hclosed in
theorem ready_processRequestedContributor {node : Nat} (h : Ready products members bound s)
    (hpop : popRequestedContributor s = some (node, t)) :
    Processed products members bound s (processRequestedContributor products node t) := by
  have hp : Popped products members bound (.requested node) s t :=
    popped_requestedContributor h hpop
  have hk₁ : Keeps products members False bound (drawn s)
      {f | ∃ unit ∈ products.contributorIndex.sourcesAt node,
        f ∈ ({.retained unit} : Set MacroFact)} t
      ((products.contributorIndex.sourcesAt node).foldl retainSource t) :=
    Keeps.foldl hp.good fun t' unit hunit ht _ => keeps_retainSource ht
      (hclosed _ _ (Or.inl (.requestedSource hunit)) (by simpa using hp.good.sound hp.mem))
  have hk₂ : Keeps products members False bound (drawn s) _ _
      (processRequestedContributor products node t) :=
    keeps_requestContributors hk₁.good fun parent hparent =>
      hclosed _ _ (Or.inl (.requestedParent hparent)) (by simpa using hp.good.sound hp.mem)
  have hk := hk₁.trans hk₂
  refine hp.processed (by simp) hk fun inv => ?_
  refine inv.draw (hk.advance.known hp.mem) (fun ps c hr hx hdone => ?_) (by simp) (by simp)
    (by simp) (by simp)
    (by simp)
  cases hr with
  | requestedSource hunit =>
    obtain rfl : node = _ := by simpa using hx
    exact hk.added (Or.inl ⟨_, hunit, rfl⟩)
  | requestedParent hparent =>
    obtain rfl : node = _ := by simpa using hx
    exact hk.added (Or.inr ⟨_, hparent, rfl⟩)
  | _ => simp at hx

end Steps

end ItemDependencies
