import ItemDependencies.Retention.MacroContributors

/-!
# The closure of macro products reaches a fixed point

A pass over the queues does some of the work that is left, so the loop ends,
and what is known once the queues are empty is closed under the rules.
-/

namespace ItemDependencies

open Library RetentionClosure RetentionState List Option

variable {products : ValidatedMacroProducts} {members : ValidatedCompilerMemberConstraints}
  {bound : Set MacroFact} {s t : RetentionState}

/-! ## One pass over the queues -/

section Queues

theorem popPresence_eq_none : popPresence s = none ↔ s.closure.presence.pending = [] :=
  map_eq_none_iff.trans Worklist.pop_eq_none

theorem popActualProduct_eq_none :
    popActualProduct s = none ↔ s.closure.actualProducts.pending = [] :=
  map_eq_none_iff.trans Worklist.pop_eq_none

theorem popActualDefinition_eq_none :
    popActualDefinition s = none ↔ s.closure.actualDefinitions.pending = [] :=
  map_eq_none_iff.trans Worklist.pop_eq_none

theorem popSource_eq_none : popSource s = none ↔ s.closure.source.pending = [] :=
  map_eq_none_iff.trans Worklist.pop_eq_none

theorem popRequestedContributor_eq_none :
    popRequestedContributor s = none ↔ s.closure.requestedContributors.pending = [] :=
  map_eq_none_iff.trans Worklist.pop_eq_none

theorem popCompleteContributor_eq_none :
    popCompleteContributor s = none ↔ s.closure.pendingCompleteContributors = [] := by
  unfold popCompleteContributor
  cases s.closure.pendingCompleteContributors <;> simp

theorem popMeaningfulProducer_eq_none :
    popMeaningfulProducer s = none ↔ s.closure.meaningfulProducers.pending = [] :=
  map_eq_none_iff.trans Worklist.pop_eq_none

theorem popDemandedProducer_eq_none :
    popDemandedProducer s = none ↔ s.closure.demandedProducers.pending = [] :=
  map_eq_none_iff.trans Worklist.pop_eq_none

theorem popRequiredExpansion_eq_none :
    popRequiredExpansion s = none ↔ s.closure.pendingRequiredExpansions = [] := by
  unfold popRequiredExpansion
  cases s.closure.pendingRequiredExpansions <;> simp

theorem busy_eq_false : busy s = false ↔
    popPresence s = none ∧ popActualDefinition s = none ∧ popActualProduct s = none ∧
      popSource s = none ∧ popRequestedContributor s = none ∧ popCompleteContributor s = none ∧
      popMeaningfulProducer s = none ∧ popDemandedProducer s = none ∧
      popRequiredExpansion s = none := by
  simp only [busy, Bool.or_eq_false_iff, Bool.not_eq_false', List.isEmpty_iff, popPresence_eq_none,
    popActualDefinition_eq_none, popActualProduct_eq_none, popSource_eq_none,
    popRequestedContributor_eq_none, popCompleteContributor_eq_none, popMeaningfulProducer_eq_none,
    popDemandedProducer_eq_none, popRequiredExpansion_eq_none, and_assoc]

end Queues

section Round

variable (hwf : products.WellFormed) (hclosed : Closed (RetentionRule products members) bound)
  (hsame : SameProducer products)

/-- What draining a queue leads to. -/
structure Drained {α : Type} (products : ValidatedMacroProducts)
    (members : ValidatedCompilerMemberConstraints) (P : RetentionState → Prop)
    (pop : RetentionState → Option (α × RetentionState)) (s t : RetentionState) : Prop where
  holds : P t
  empty : pop t = none
  known : known products s ⊆ known products t
  work_le : work products members t ≤ work products members s
  worked : pop s = none ∧ t = s ∨ work products members t < work products members s

variable {α : Type} {pop : RetentionState → Option (α × RetentionState)}
  {body : α → RetentionState → RetentionState} {P : RetentionState → Prop}

/-- Draining one queue. -/
theorem drain_progress (limit : Nat)
    (step : ∀ s x t, P s → pop s = some (x, t) →
      P (body x t) ∧ Progress products members s (body x t)) (h : P s)
    (hlimit : work products members s ≤ limit) :
    Drained products members P pop s (drain pop body limit s) := by
  have hP : P (drain pop body limit s) ∧
      known products s ⊆ known products (drain pop body limit s) ∧
      work products members (drain pop body limit s) ≤ work products members s :=
    drain_induct (P := fun t => P t ∧ known products s ⊆ known products t ∧
      work products members t ≤ work products members s)
      (fun s' x t hs hpop => by
        obtain ⟨hP, hk, hw⟩ := hs
        obtain ⟨hP', hprogress⟩ := step s' x t hP hpop
        exact ⟨hP', hk.trans hprogress.known, hprogress.work.le.trans hw⟩)
      limit ⟨h, subset_rfl, le_refl _⟩
  refine ⟨hP.1, drain_idle (work products members) (fun s x t hs hpop => ?_) limit h hlimit, hP.2.1,
    hP.2.2, ?_⟩
  · obtain ⟨hP', hprogress⟩ := step s x t hs hpop
    exact ⟨hP', hprogress.work⟩
  · cases hpop : pop s with
    | none =>
      refine Or.inl ⟨rfl, ?_⟩
      cases limit with
      | zero => rfl
      | succ limit => rw [drain, hpop]
    | some p =>
      obtain ⟨x, t⟩ := p
      obtain ⟨hP', hprogress⟩ := step s x t h hpop
      refine Or.inr ?_
      cases limit with
      | zero =>
        have := hprogress.work
        omega
      | succ limit =>
        rw [drain, hpop]
        refine lt_of_le_of_lt ?_ hprogress.work
        exact (drain_induct (P := fun u => P u ∧
          work products members u ≤ work products members (body x t))
          (fun s' x' t' hs hpop' => by
            obtain ⟨hs', hprogress'⟩ := step s' x' t' hs.1 hpop'
            exact ⟨hs', hprogress'.work.le.trans hs.2⟩) limit ⟨hP', le_refl _⟩).2

/-- Draining a queue that leaves the calm alone. -/
theorem drain_processed (limit : Nat) (h : Ready products members bound s ∧ Calm s)
    (hlimit : work products members s ≤ limit)
    (step : ∀ s x t, Ready products members bound s → Calm s → pop s = some (x, t) →
      Processed products members bound s (body x t)) :
    Drained products members (fun s => Ready products members bound s ∧ Calm s) pop s
      (drain pop body limit s) :=
  drain_progress limit (fun s x t hs hpop =>
    have hp := step s x t hs.1 hs.2 hpop
    ⟨⟨hp.ready, hp.calm hs.2⟩, hp.toProgress⟩) h hlimit

include hwf hclosed hsame in
/-- One pass over the queues: it does some of the work, if there is any. -/
theorem ready_closeRound {limit : Nat} (h : Ready products members bound s) (hcalm : Calm s)
    (hlimit : work products members s ≤ limit) :
    (Ready products members bound (closeRound products members limit s) ∧
        Calm (closeRound products members limit s)) ∧
      known products s ⊆ known products (closeRound products members limit s) ∧
      work products members (closeRound products members limit s) ≤ work products members s ∧
      (busy s = true →
        work products members (closeRound products members limit s) < work products members s) := by
  simp only [closeRound]
  -- five queues that leave the calm alone
  obtain ⟨h₁, -, k₁, w₁, p₁⟩ := drain_processed limit ⟨h, hcalm⟩ hlimit
    fun _ _ _ hs _ => ready_processActualProduct hwf hclosed hs
  generalize drain popActualProduct (processActualProduct products) limit s = s₁ at *
  obtain ⟨h₂, -, k₂, w₂, p₂⟩ := drain_processed limit h₁ (w₁.trans hlimit)
    fun _ _ _ hs hc => ready_processPresence hwf hclosed hs hc
  generalize drain popPresence (processPresence products members) limit s₁ = s₂ at *
  obtain ⟨h₃, -, k₃, w₃, p₃⟩ := drain_processed limit h₂ (by omega)
    fun _ _ _ hs _ => ready_processActualDefinition hwf hclosed hs
  generalize drain popActualDefinition (processActualDefinition products members) limit s₂ = s₃ at *
  obtain ⟨h₄, -, k₄, w₄, p₄⟩ := drain_processed limit h₃ (by omega)
    fun _ _ _ hs _ => ready_processSource hwf hclosed hs
  generalize drain popSource (processSource products) limit s₃ = s₄ at *
  obtain ⟨h₅, -, k₅, w₅, p₅⟩ := drain_processed limit h₄ (by omega)
    fun _ _ _ hs _ => ready_processRequestedContributor hclosed hs
  generalize drain popRequestedContributor (processRequestedContributor products) limit s₄ = s₅ at *
  -- groups materialize, and the producers that they make meaningful spread it at once
  obtain ⟨h₆, -, k₆, w₆, p₆⟩ := drain_progress limit
    (fun s x t hs hpop => ready_processCompleteContributor hwf hclosed hsame hs hpop) h₅.1
        (by omega)
  generalize drain popCompleteContributor (processCompleteContributor products) limit s₅ = s₆ at *
  obtain ⟨h₇, hempty, k₇, w₇, p₇⟩ := drain_progress limit
    (fun s x t hs hpop => ready_processMeaningfulProducer hwf hclosed hs hpop) h₆ (by omega)
  generalize drain popMeaningfulProducer (processMeaningfulProducer products) limit s₆ = s₇ at *
  have c₇ : Calm s₇ := Or.inr (popMeaningfulProducer_eq_none.mp hempty)
  obtain ⟨h₈, -, k₈, w₈, p₈⟩ := drain_processed limit ⟨h₇, c₇⟩ (by omega)
    fun _ _ _ hs _ => ready_processDemandedProducer hwf hclosed hs
  generalize drain popDemandedProducer (processDemandedProducer products) limit s₇ = s₈ at *
  obtain ⟨h₉, -, k₉, w₉, p₉⟩ := drain_processed limit h₈ (by omega)
    fun _ _ _ hs _ => ready_processRequiredExpansion hwf hclosed hs
  generalize drain popRequiredExpansion (processRequiredExpansion products) limit s₈ = s₉ at *
  refine ⟨h₉, k₁.trans (k₂.trans (k₃.trans (k₄.trans (k₅.trans (k₆.trans (k₇.trans
    (k₈.trans k₉))))))), by omega, fun hbusy => ?_⟩
  -- if no queue has done any work, all of them were empty from the start
  rcases p₁ with ⟨e₁, rfl⟩ | p₁
  swap; · omega
  rcases p₂ with ⟨e₂, rfl⟩ | p₂
  swap; · omega
  rcases p₃ with ⟨e₃, rfl⟩ | p₃
  swap; · omega
  rcases p₄ with ⟨e₄, rfl⟩ | p₄
  swap; · omega
  rcases p₅ with ⟨e₅, rfl⟩ | p₅
  swap; · omega
  rcases p₆ with ⟨e₆, rfl⟩ | p₆
  swap; · omega
  rcases p₇ with ⟨e₇, rfl⟩ | p₇
  swap; · omega
  rcases p₈ with ⟨e₈, rfl⟩ | p₈
  swap; · omega
  rcases p₉ with ⟨e₉, -⟩ | p₉
  swap; · exact p₉
  rw [busy_eq_false.mpr ⟨e₂, e₃, e₁, e₄, e₅, e₆, e₇, e₈, e₉⟩] at hbusy
  cases hbusy

include hwf hclosed hsame in
/-- The closure ends, and it ends with nothing left in its queues. -/
theorem ready_close (h : Ready products members bound s) (hcalm : Calm s) :
    Ready products members bound (close products members s) ∧ Calm (close products members s) ∧
      known products s ⊆ known products (close products members s) ∧
      busy (close products members s) = false := by
  have hstep : ∀ t, (Ready products members bound t ∧ Calm t ∧ known products s ⊆ known products t ∧
      work products members t ≤ work products members s) → busy t = true →
      Ready products members bound (closeRound products members (work products members s) t) ∧
        Calm (closeRound products members (work products members s) t) ∧
        known products s ⊆
          known products (closeRound products members (work products members s) t) ∧
        work products members (closeRound products members (work products members s) t) ≤
          work products members s := fun t ⟨ht, hc, hk, hw⟩ _ => by
    obtain ⟨⟨ht', hc'⟩, hk', hw', -⟩ := ready_closeRound hwf hclosed hsame ht hc hw
    exact ⟨ht', hc', hk.trans hk', hw'.trans hw⟩
  have hstart : Ready products members bound s ∧ Calm s ∧ known products s ⊆ known products s ∧
      work products members s ≤ work products members s := ⟨h, hcalm, subset_rfl, le_refl _⟩
  obtain ⟨hr, hc, hk, -⟩ := whileDo_induct hstep (work products members s) hstart
  refine ⟨hr, hc, hk, whileDo_idle (work products members) hstep (fun t ⟨ht, hc, _, hw⟩ hbusy => ?_)
    (work products members s) hstart (le_refl _)⟩
  exact (ready_closeRound hwf hclosed hsame ht hc hw).2.2.2 hbusy

/-! ## Quiescence -/

/-- With empty queues everything that is known has been drawn. -/
theorem Ready.known_subset_drawn (h : Ready products members bound s) (hidle : busy s = false) :
    known products s ⊆ drawn s := by
  obtain ⟨e₁, e₂, e₃, e₄, e₅, e₆, e₇, e₈, e₉⟩ := busy_eq_false.mp hidle
  intro f hf
  cases f with
  | present node =>
    refine Worklist.mem_processed.mpr ⟨(h.good.inv.presence node).mpr hf, ?_⟩
    rw [popPresence_eq_none.mp e₁]
    exact not_mem_nil
  | actual node =>
    refine Worklist.mem_processed.mpr ⟨(h.good.inv.actualProducts node).mpr hf, ?_⟩
    rw [popActualProduct_eq_none.mp e₃]
    exact not_mem_nil
  | actualDefinition definition =>
    refine Worklist.mem_processed.mpr ⟨hf, ?_⟩
    rw [popActualDefinition_eq_none.mp e₂]
    exact not_mem_nil
  | retained unit =>
    refine Worklist.mem_processed.mpr ⟨(h.good.inv.source unit).mpr hf, ?_⟩
    rw [popSource_eq_none.mp e₄]
    exact not_mem_nil
  | requested node =>
    refine Worklist.mem_processed.mpr ⟨hf, ?_⟩
    rw [popRequestedContributor_eq_none.mp e₅]
    exact not_mem_nil
  | complete node =>
    refine Or.resolve_left hf ?_
    rw [popCompleteContributor_eq_none.mp e₆]
    exact not_mem_nil
  | materialized group => exact hf
  | meaningful producer =>
    refine Worklist.mem_processed.mpr ⟨hf, ?_⟩
    rw [popMeaningfulProducer_eq_none.mp e₇]
    exact not_mem_nil
  | demanded expansion =>
    refine ⟨?_, ?_⟩
    · rcases hf with hf | ⟨producer, hproducer, rfl⟩
      · exact hf
      · refine h.demanded producer (Worklist.mem_processed.mpr ⟨hproducer, ?_⟩)
        rw [popDemandedProducer_eq_none.mp e₈]
        exact not_mem_nil
    · rw [popRequiredExpansion_eq_none.mp e₉]
      exact not_mem_nil

include hwf hsame in
/-- With empty queues the facts are closed under all rules.  For the meaning that a group inherits
this takes all of the closure: a definition on which the group depends has made its own group
meaningful, and that has the same producer. -/
theorem Ready.closed (h : Ready products members bound s) (hidle : busy s = false) :
    Closed (RetentionRule products members) (known products s) := by
  have hdrawn := h.known_subset_drawn hidle
  have hmacro : Closed (MacroRule products members) (known products s) :=
    h.good.inv.agenda.closed hdrawn
  rintro ps c (hr | hr) hp
  · exact hmacro ps c hr hp
  · cases hr with
    | @child child group hgroup =>
      have hchild := hdrawn (hp (.meaningful child) (by simp))
      have hm : group ∈ s.closure.macroMaterialized := hp (.materialized group) (by simp)
      rcases h.good.inv.inherited group (h.good.inv.dependencies child hchild group hgroup) hm with
        hknown | ⟨definition, other, hother, hmem, hpresent⟩
      · exact hknown
      · rw [hsame definition other group hother hmem]
        exact meaningful_of_definition hwf hmacro hother hpresent

end Round

end ItemDependencies
