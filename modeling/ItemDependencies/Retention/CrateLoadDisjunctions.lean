import ItemDependencies.Library.Horn
import ItemDependencies.Retention.ExternalCrates
import Mathlib.Data.Finset.Prod

/-!
# What the crate load disjunctions say

For any choice of kept carriers, the loads that the compiler will perform are the
least set that its own injections do not leave.  The disjunctions are computed
once, before any choice is made: an injection passes a load on to the carrier of
its condition, so the loads of a set of carriers are the union of the loads of
each.
-/

namespace ItemDependencies

open Library List

/-! ## Loads with their origins -/

/-- A load, with the carrier that causes it if there is one. -/
abbrev CrateLoadFact := Option CompilerCrateLoadCarrier × ExternalCrateLoad

variable {fact : CrateLoadFact}

namespace CrateLoads

variable {loads loads' : CrateLoads} {carrier : CompilerCrateLoadCarrier}
  {load : ExternalCrateLoad} {activation : CompilerGeneratedCrateActivation}

/-- Less is loaded. -/
instance : PartialOrder CrateLoads :=
  PartialOrder.lift (fun loads => (loads.source, loads.sourceFree)) fun a b h => by
    cases a
    cases b
    simpa using h

theorem le_iff : loads ≤ loads' ↔
    loads.source ⊆ loads'.source ∧ loads.sourceFree ⊆ loads'.sourceFree := Iff.rfl

theorem card_source_le (h : loads ≤ loads') : loads.source.card ≤ loads'.source.card :=
  Finset.card_le_card (le_iff.mp h).1

theorem card_sourceFree_le (h : loads ≤ loads') : loads.sourceFree.card ≤ loads'.sourceFree.card :=
  Finset.card_le_card (le_iff.mp h).2

def known (loads : CrateLoads) : Set CrateLoadFact :=
  {fact | match fact.1 with
    | none => fact.2 ∈ loads.sourceFree
    | some carrier => (carrier, fact.2) ∈ loads.source}

@[simp] theorem none_mem_known : (none, load) ∈ loads.known ↔ load ∈ loads.sourceFree := Iff.rfl

@[simp] theorem some_mem_known : (some carrier, load) ∈ loads.known ↔
    (carrier, load) ∈ loads.source := Iff.rfl

/-- The loads whose origin is kept, or that have none. -/
def presentWith (loads : CrateLoads) (kept : Set CompilerCrateLoadCarrier) :
    Set ExternalCrateLoad :=
  {load | ∃ origin : Option CompilerCrateLoadCarrier,
    (∀ carrier ∈ origin, carrier ∈ kept) ∧ (origin, load) ∈ loads.known}

theorem mem_known_insert_source :
    fact ∈ ({ loads with source := insert (carrier, load) loads.source } : CrateLoads).known ↔
      fact ∈ loads.known ∨ load = fact.2 ∧ fact.1 = some carrier := by
  obtain ⟨_ | other, other'⟩ := fact
  · simp
  · simp [or_comm, and_comm, eq_comm]

theorem mem_known_insert_sourceFree :
    fact ∈ ({ loads with sourceFree := insert load loads.sourceFree } : CrateLoads).known ↔
      fact ∈ loads.known ∨ load = fact.2 ∧ fact.1 = none := by
  obtain ⟨_ | other, other'⟩ := fact
  · simp [or_comm, eq_comm]
  · simp

theorem le_iff_known : loads ≤ loads' ↔ loads.known ⊆ loads'.known := by
  constructor
  · rintro ⟨hsource, hfree⟩ ⟨_ | carrier, load⟩ h
    · exact hfree h
    · exact hsource h
  · intro h
    refine ⟨fun entry hentry => ?_, fun load hload => ?_⟩
    · exact h (some_mem_known.mpr hentry : (some entry.1, entry.2) ∈ loads.known)
    · exact h (none_mem_known.mpr hload : (none, load) ∈ loads.known)

/-- The rule of one injection: without a condition it has no premise, and otherwise it passes its
load on to the origin of the condition. -/
def Injects (activation : CompilerGeneratedCrateActivation) (premises : List CrateLoadFact)
    (fact : CrateLoadFact) : Prop :=
  fact.2 = activation.load ∧
    match activation.condition with
    | none => premises = [] ∧ fact.1 = none
    | some condition => ∃ load : ExternalCrateLoad,
        premises = [(fact.1, load)] ∧ load.mentions condition = true

theorem mem_known_inject : fact ∈ (loads.inject activation).known ↔
    fact ∈ loads.known ∨
      ∃ premises, Injects activation premises fact ∧ ∀ p ∈ premises, p ∈ loads.known := by
  obtain ⟨injected, condition⟩ := activation
  obtain ⟨origin, load⟩ := fact
  cases condition with
  | none => cases origin <;> simp [inject, Injects, or_comm]
  | some condition =>
    cases origin with
    | none =>
      simp only [inject, Injects, none_mem_known]
      split <;> aesop
    | some carrier =>
      simp only [inject, Injects, some_mem_known]
      aesop

theorem le_inject : loads ≤ loads.inject activation :=
  le_iff_known.mpr fun _ h => mem_known_inject.mpr (.inl h)

end CrateLoads

/-! ## The propagation loop -/

namespace ExternalCrateFacts

open CrateLoads

variable (facts : ExternalCrateFacts)

/-- The injections of the compiler. -/
def injections : Rules CrateLoadFact := fun premises fact =>
  ∃ activation ∈ facts.compilerGeneratedActivations, Injects activation premises fact

/-- All that the injections can add to some loads. -/
def reach (loads : CrateLoads) : CrateLoads :=
  let injected :=
    (facts.compilerGeneratedActivations.map CompilerGeneratedCrateActivation.load).toFinset
  { source := loads.source ∪ loads.source.image Prod.fst ×ˢ injected
    sourceFree := loads.sourceFree ∪ injected }

variable {facts} {loads loads' : CrateLoads}

theorem le_propagationRound : loads ≤ facts.propagationRound loads :=
  le_foldl (fun _ _ => le_inject) _ _

theorem closed_reach : Closed facts.injections (facts.reach loads).known := by
  rintro premises ⟨origin, load⟩ ⟨activation, hmem, rfl, h⟩ hpremises
  cases origin with
  | none => simp [reach, mem_map_of_mem hmem]
  | some carrier =>
    cases hcondition : activation.condition with
    | none => simp [hcondition] at h
    | some condition =>
      simp only [hcondition] at h
      obtain ⟨load, rfl, -⟩ := h
      have hcarrier : (some carrier, load) ∈ (facts.reach loads).known := hpremises _ (by simp)
      simp only [reach, some_mem_known, Finset.mem_union, Finset.mem_product, Finset.mem_image,
        mem_toFinset, mem_map] at hcarrier ⊢
      refine .inr ⟨?_, activation, hmem, rfl⟩
      rcases hcarrier with hsource | ⟨hcarrier, -⟩
      · exact ⟨_, hsource, rfl⟩
      · exact hcarrier

theorem le_reach : loads ≤ facts.reach loads :=
  ⟨Finset.subset_union_left, Finset.subset_union_left⟩

/-- What the loop maintains: it only adds, and only what follows. -/
structure Propagated (facts : ExternalCrateFacts) (start loads : CrateLoads) : Prop where
  above : start ≤ loads
  sound : loads.known ⊆ {fact | Derives facts.injections start.known fact}

namespace Propagated

variable {start : CrateLoads}

theorem refl : Propagated facts start start := ⟨le_rfl, fun _ h => .input h⟩

theorem inject {activation : CompilerGeneratedCrateActivation}
    (h : Propagated facts start loads) (hmem : activation ∈ facts.compilerGeneratedActivations) :
    Propagated facts start (loads.inject activation) := by
  refine ⟨h.above.trans le_inject, fun fact hfact => ?_⟩
  rcases mem_known_inject.mp hfact with hold | ⟨premises, hrule, hpremises⟩
  · exact h.sound hold
  · exact .rule ⟨activation, hmem, hrule⟩ fun p hp => h.sound (hpremises p hp)

theorem round (h : Propagated facts start loads) :
    Propagated facts start (facts.propagationRound loads) :=
  List.foldlRecOn _ _ h fun _ h _ hmem => h.inject hmem

theorem le_reach (h : Propagated facts start loads) : loads ≤ facts.reach start :=
  le_iff_known.mpr fun _ hfact =>
    (isLeast_derives _ _).2 ⟨le_iff_known.mp ExternalCrateFacts.le_reach, closed_reach⟩
      (h.sound hfact)

end Propagated

theorem card_reach (facts : ExternalCrateFacts) (loads : CrateLoads) :
    (facts.reach loads).source.card + (facts.reach loads).sourceFree.card ≤
      loads.source.card + loads.sourceFree.card +
      (loads.source.card + 1) * facts.compilerGeneratedActivations.length := by
  set injected :=
    (facts.compilerGeneratedActivations.map CompilerGeneratedCrateActivation.load).toFinset
    with hinj
  have hinjected : injected.card ≤ facts.compilerGeneratedActivations.length := by
    have := toFinset_card_le
      (facts.compilerGeneratedActivations.map CompilerGeneratedCrateActivation.load)
    rwa [length_map] at this
  have hsource : (facts.reach loads).source.card ≤ loads.source.card +
      loads.source.card * facts.compilerGeneratedActivations.length := by
    apply (Finset.card_union_le _ _).trans
    rw [Finset.card_product]
    exact Nat.add_le_add_left (Nat.mul_le_mul Finset.card_image_le hinjected) _
  have hfree : (facts.reach loads).sourceFree.card ≤ loads.sourceFree.card +
      facts.compilerGeneratedActivations.length :=
    (Finset.card_union_le _ _).trans (Nat.add_le_add_left hinjected _)
  rw [Nat.add_mul]
  omega

/-- A round that adds nothing changes nothing. -/
theorem propagationRound_eq (h : facts.propagationAdds loads = false) :
    facts.propagationRound loads = loads := by
  simp only [propagationAdds, Bool.or_eq_false_iff, bne_eq_false_iff_eq] at h
  have hle : loads ≤ facts.propagationRound loads := le_propagationRound
  refine le_antisymm (le_iff.mpr ⟨?_, ?_⟩) hle
  · exact (Finset.eq_of_subset_of_card_le (le_iff.mp hle).1 h.1.le).ge
  · exact (Finset.eq_of_subset_of_card_le (le_iff.mp hle).2 h.2.le).ge

theorem card_lt_card_propagationRound (h : facts.propagationAdds loads = true) :
    loads.source.card + loads.sourceFree.card <
      (facts.propagationRound loads).source.card +
        (facts.propagationRound loads).sourceFree.card := by
  have hle : loads ≤ facts.propagationRound loads := le_propagationRound
  have hsource := card_source_le hle
  have hfree := card_sourceFree_le hle
  simp only [propagationAdds, Bool.or_eq_true, bne_iff_ne] at h
  omega

/-- The loop has enough rounds: it ends because a round adds nothing. -/
theorem propagationAdds_whileDo (facts : ExternalCrateFacts) (loads : CrateLoads) :
    facts.propagationAdds
    (whileDo facts.propagationAdds facts.propagationRound
      ((loads.source.card + 1) * facts.compilerGeneratedActivations.length) loads) = false := by
  apply whileDo_idle (P := Propagated facts loads)
    (fun s => (facts.reach loads).source.card + (facts.reach loads).sourceFree.card -
      (s.source.card + s.sourceFree.card))
  · exact fun s h _ => h.round
  · intro s h hbusy
    have hgrows := card_lt_card_propagationRound hbusy
    have hsource := card_source_le h.round.le_reach
    have hfree := card_sourceFree_le h.round.le_reach
    omega
  · exact .refl
  · have := card_reach facts loads
    omega

theorem propagationRound_propagate :
    facts.propagationRound (facts.propagate loads) = facts.propagate loads := by
  have h := propagationRound_eq (propagationAdds_whileDo facts loads)
  rw [propagate, h, h]

theorem propagationAdds_propagate : facts.propagationAdds (facts.propagate loads) = false := by
  rw [propagationAdds, propagationRound_propagate, bne_self_eq_false, bne_self_eq_false]
  rfl

theorem propagated_propagate : Propagated facts loads (facts.propagate loads) :=
  (whileDo_induct (P := Propagated facts loads) (fun _ h _ => h.round) _ .refl).round

theorem closed_propagate : Closed facts.injections (facts.propagate loads).known := by
  rintro premises fact ⟨activation, hmem, hrule⟩ hpremises
  have hfixed : (facts.propagate loads).inject activation = facts.propagate loads :=
    eq_of_foldl_le (fun _ _ => le_inject) propagationRound_propagate.le activation hmem
  rw [← hfixed]
  exact mem_known_inject.mpr (.inr ⟨premises, hrule, hpremises⟩)

/-- The loop computes the consequences of the loads it starts with. -/
theorem isLeast_propagate : IsLeast
    {X | loads.known ⊆ X ∧ Closed facts.injections X} (facts.propagate loads).known := by
  apply isLeast_of_closed (le_iff_known.mp propagated_propagate.above) closed_propagate
  intro X hloads hclosed fact hfact
  exact (isLeast_derives _ _).2 ⟨hloads, hclosed⟩ (propagated_propagate.sound hfact)

/-! ## The loads of a choice of carriers -/

/-- The loads that follow from the kept carriers: those that a kept carrier causes, those that
nothing written causes, and those that the compiler injects. -/
structure LoadsWith (facts : ExternalCrateFacts) (kept : Set CompilerCrateLoadCarrier)
    (present : Set ExternalCrateLoad) : Prop where
  bound : ∀ binding ∈ facts.bindings, ∀ load, binding.target = .external load →
    .definition binding.definition ∈ kept → load ∈ present
  activated : ∀ activation ∈ facts.activations, ∀ unit, activation.source = some unit →
    .source unit ∈ kept → activation.load ∈ present
  sourceFree : ∀ activation ∈ facts.activations, activation.source = none →
    activation.load ∈ present
  unconditional : ∀ activation ∈ facts.compilerGeneratedActivations,
    activation.condition = none → activation.load ∈ present
  conditional : ∀ activation ∈ facts.compilerGeneratedActivations, ∀ condition,
    activation.condition = some condition →
    (∃ load ∈ present, ∃ dependency ∈ load.closure, dependency.crateIdentity = condition) →
    activation.load ∈ present

/-- A binding causes a load. -/
def BindingFact (facts : ExternalCrateFacts) (fact : CrateLoadFact) : Prop :=
  ∃ binding ∈ facts.bindings, binding.target = .external fact.2 ∧
    fact.1 = some (.definition binding.definition)

/-- An activation causes a load, or is one that nothing causes. -/
def ActivationFact (facts : ExternalCrateFacts) (fact : CrateLoadFact) : Prop :=
  ∃ activation ∈ facts.activations, activation.load = fact.2 ∧
    fact.1 = activation.source.map .source

end ExternalCrateFacts

variable {identity : Nat}

theorem ExternalCrateLoad.mentions_iff {load : ExternalCrateLoad} :
    load.mentions identity = true ↔
      ∃ dependency ∈ load.closure, dependency.crateIdentity = identity := by
  simp [mentions]

namespace ExternalCrateFacts

open CrateLoads

variable {facts : ExternalCrateFacts} {kept : Set CompilerCrateLoadCarrier} {start : CrateLoads}

/-- Nothing the kept carriers bring in leaves a set of loads that has what they cause and what the
compiler injects. -/
theorem LoadsWith.of_derives
    (hstart : ∀ fact ∈ start.known, facts.BindingFact fact ∨ facts.ActivationFact fact)
    {present : Set ExternalCrateLoad} (h : facts.LoadsWith kept present)
    (hfact : Derives facts.injections start.known fact)
    (hkept : ∀ carrier ∈ fact.1, carrier ∈ kept) : fact.2 ∈ present := by
  induction hfact with
  | @input fact hfact =>
    rcases hstart fact hfact with ⟨binding, hmem, htarget, horigin⟩ |
      ⟨activation, hmem, hload, horigin⟩
    · exact h.bound binding hmem _ htarget (hkept _ (by simp [horigin]))
    · rw [← hload]
      cases hsource : activation.source with
      | none => exact h.sourceFree activation hmem hsource
      | some unit =>
        exact h.activated activation hmem unit hsource (hkept _ (by simp [horigin, hsource]))
  | @rule premises fact hrule hpremises ih =>
    obtain ⟨activation, hmem, hload, hrule⟩ := hrule
    rw [hload]
    cases hcondition : activation.condition with
    | none => exact h.unconditional activation hmem hcondition
    | some condition =>
      simp only [hcondition] at hrule
      obtain ⟨load, rfl, hmentions⟩ := hrule
      have hpresent : load ∈ present := ih (fact.1, load) (by simp) hkept
      exact h.conditional activation hmem condition hcondition
        ⟨load, hpresent, ExternalCrateLoad.mentions_iff.mp hmentions⟩

/-- The loads of a set of carriers are those that the loop has found for any of them. -/
theorem isLeast_presentWith (hstart : ∀ fact, fact ∈ start.known ↔
    facts.BindingFact fact ∨ facts.ActivationFact fact) :
    IsLeast {present | facts.LoadsWith kept present}
      ((facts.propagate start).presentWith kept) := by
  have hinput : ∀ fact, facts.BindingFact fact ∨ facts.ActivationFact fact →
      fact ∈ (facts.propagate start).known := fun fact h =>
    isLeast_propagate.1.1 ((hstart fact).mpr h)
  have hinject : ∀ activation ∈ facts.compilerGeneratedActivations, ∀ premises fact,
      Injects activation premises fact →
      (∀ p ∈ premises, p ∈ (facts.propagate start).known) →
      fact ∈ (facts.propagate start).known := fun activation hmem premises fact hrule =>
    closed_propagate premises fact ⟨activation, hmem, hrule⟩
  refine ⟨⟨?_, ?_, ?_, ?_, ?_⟩, ?_⟩
  · intro binding hmem load htarget hkept
    refine ⟨some (.definition binding.definition), by simpa using hkept, hinput _ (.inl ?_)⟩
    exact ⟨binding, hmem, htarget, rfl⟩
  · intro activation hmem unit hsource hkept
    refine ⟨some (.source unit), by simpa using hkept, hinput _ (.inr ?_)⟩
    exact ⟨activation, hmem, rfl, by simp [hsource]⟩
  · intro activation hmem hsource
    refine ⟨none, by simp, hinput _ (.inr ?_)⟩
    exact ⟨activation, hmem, rfl, by simp [hsource]⟩
  · intro activation hmem hcondition
    refine ⟨none, by simp, hinject activation hmem [] _ ⟨rfl, ?_⟩ (by simp)⟩
    simp [hcondition]
  · rintro activation hmem condition hcondition ⟨load, ⟨origin, horigin, hknown⟩, hmentions⟩
    refine ⟨origin, horigin, hinject activation hmem [(origin, load)] _ ⟨rfl, ?_⟩ (by simpa)⟩
    simp only [hcondition]
    exact ⟨load, rfl, ExternalCrateLoad.mentions_iff.mpr hmentions⟩
  · rintro present h load ⟨origin, horigin, hknown⟩
    exact h.of_derives (fun fact => (hstart fact).mp) (propagated_propagate.sound hknown) horigin

/-! ## The loads that the facts name -/

theorem known_bindingLoads {definitionUnits : List SourceUnitId} {loads : CrateLoads}
    (h : facts.bindingLoads definitionUnits start = .ok loads) (fact : CrateLoadFact) :
    fact ∈ loads.known ↔ fact ∈ start.known ∨ facts.BindingFact fact := by
  let Invariant (done : List ExternalCrateBinding) (loads : CrateLoads) : Prop :=
    ∀ fact : CrateLoadFact, fact ∈ loads.known ↔ fact ∈ start.known ∨
      ∃ binding ∈ done, binding.target = .external fact.2 ∧
        fact.1 = some (.definition binding.definition)
  refine foldlM_ok (P := Invariant) ?_ (fun fact => by simp) h fact
  intro done binding loads loads' hloads hstep fact
  obtain ⟨-, hstep⟩ := guard_ok hstep
  cases htarget : binding.target with
  | selfCrate =>
    simp only [htarget] at hstep
    cases hstep
    rw [hloads fact]
    simp [or_and_right, exists_or, htarget]
  | external load =>
    simp only [htarget] at hstep
    obtain ⟨-, -, hstep⟩ := bind_ok hstep
    cases hstep
    rw [mem_known_insert_source, hloads fact]
    simp only [mem_append, mem_singleton, or_and_right, exists_or, exists_eq_left,
      htarget, or_assoc, ExternalCrateBindingTarget.external.injEq]

theorem known_activationLoads {source : SourceInventory} {loads : CrateLoads}
    (h : facts.activationLoads source start = .ok loads) (fact : CrateLoadFact) :
    fact ∈ loads.known ↔ fact ∈ start.known ∨ facts.ActivationFact fact := by
  let Invariant (done : List ExternalCrateActivation) (loads : CrateLoads) : Prop :=
    ∀ fact : CrateLoadFact, fact ∈ loads.known ↔ fact ∈ start.known ∨
      ∃ activation ∈ done, activation.load = fact.2 ∧ fact.1 = activation.source.map .source
  obtain ⟨-, h⟩ := guard_ok h
  refine foldlM_ok (P := Invariant) ?_ (fun fact => by simp) h fact
  intro done activation loads loads' hloads hstep fact
  obtain ⟨-, -, hstep⟩ := bind_ok hstep
  have hinsert : fact ∈ loads'.known ↔ fact ∈ loads.known ∨
      activation.load = fact.2 ∧ fact.1 = activation.source.map .source := by
    cases hsource : activation.source with
    | none =>
      simp only [hsource] at hstep
      cases hstep
      exact mem_known_insert_sourceFree
    | some unit =>
      simp only [hsource] at hstep
      obtain ⟨-, hstep⟩ := guard_ok hstep
      cases hstep
      exact mem_known_insert_source
  rw [hinsert, hloads fact]
  simp only [mem_append, mem_singleton, or_and_right, exists_or, exists_eq_left, or_assoc]

end ExternalCrateFacts

/-! ## Disjunctions -/

/-- A disjunction that is respected by the kept carriers and nodes. -/
def CompilerCrateLoadDisjunction.Holds (disjunction : CompilerCrateLoadDisjunction)
    (kept : Set CompilerCrateLoadCarrier) (nodes : Set GraphNode) : Prop :=
  (∀ node ∈ disjunction.trigger, node ∈ nodes) → ∃ choice ∈ disjunction.choices, choice ∈ kept

section

variable {loads : CrateLoads} {kept : Set CompilerCrateLoadCarrier} {nodes : Set GraphNode}

/-- One more requirement: what is already loaded needs no carrier, and else the choices are the
carriers that satisfy it. -/
theorem CrateLoads.holds_require {trigger : Option GraphNode}
    {carriers : Finset CompilerCrateLoadCarrier} {suitable : ExternalCrateLoad → Bool}
    {disjunctions disjunctions' : Finset CompilerCrateLoadDisjunction}
    (h : loads.require trigger carriers suitable disjunctions = .ok disjunctions') :
    (∀ d ∈ disjunctions', d.Holds kept nodes) ↔ (∀ d ∈ disjunctions, d.Holds kept nodes) ∧
      ((∀ node ∈ trigger, node ∈ nodes) → (∃ carrier ∈ carriers, carrier ∈ kept) ∨
        ∃ load ∈ loads.presentWith kept, suitable load = true) := by
  rw [require] at h
  split at h
  case isTrue hfree =>
    obtain ⟨load, hload, hsuitable⟩ := hfree
    cases h
    have hpresent : load ∈ loads.presentWith kept := ⟨none, by simp, hload⟩
    exact ⟨fun h => ⟨h, fun _ => .inr ⟨load, hpresent, hsuitable⟩⟩, fun h => h.1⟩
  case isFalse hfree =>
    obtain ⟨-, h⟩ := guard_ok h
    cases h
    have hchoice : (∃ choice ∈ carriers ∪
          (loads.source.filter fun entry => suitable entry.2).image Prod.fst, choice ∈ kept) ↔
        (∃ carrier ∈ carriers, carrier ∈ kept) ∨
          ∃ load ∈ loads.presentWith kept, suitable load = true := by
      constructor
      · rintro ⟨choice, hmem, hkept⟩
        rcases Finset.mem_union.mp hmem with hmem | hmem
        · exact .inl ⟨choice, hmem, hkept⟩
        · obtain ⟨entry, hentry, rfl⟩ := Finset.mem_image.mp hmem
          obtain ⟨hentry, hsuitable⟩ := Finset.mem_filter.mp hentry
          exact .inr ⟨entry.2, ⟨some entry.1, by simpa using hkept, hentry⟩, hsuitable⟩
      · rintro (⟨carrier, hmem, hkept⟩ | ⟨load, ⟨_ | carrier, horigin, hknown⟩, hsuitable⟩)
        · exact ⟨carrier, Finset.mem_union_left _ hmem, hkept⟩
        · exact absurd ⟨load, hknown, hsuitable⟩ hfree
        · refine ⟨carrier, Finset.mem_union_right _ ?_, horigin carrier rfl⟩
          exact Finset.mem_image.mpr
            ⟨(carrier, load), Finset.mem_filter.mpr ⟨hknown, hsuitable⟩, rfl⟩
    simp only [Finset.forall_mem_insert, CompilerCrateLoadDisjunction.Holds, mem_ascending]
    rw [hchoice, and_comm]

end

namespace ExternalCrateFacts

/-- A crate that is present in some load, at least with the kind at which it was loaded. -/
def CratePresent (facts : ExternalCrateFacts) (present : Set ExternalCrateLoad) (identity : Nat) :
    Prop :=
  ∃ required ∈ facts.loadedCrates, required.crateIdentity = identity ∧
    ∃ load ∈ present, ∃ dependency ∈ load.closure,
      dependency.crateIdentity = identity ∧ required.kind ≤ dependency.kind

/-- A metadata requirement that is still made: by no unit in particular, by a kept unit, or by a
crate of a load that is present. -/
def RequirementMet (facts : ExternalCrateFacts) (kept : Set CompilerCrateLoadCarrier)
    (present : Set ExternalCrateLoad) (kind : ExternalMetadataRequirementKind) : Prop :=
  (∃ requirement ∈ facts.localRequirements, requirement.kind = kind ∧ requirement.source = none) ∨
  (∃ requirement ∈ facts.localRequirements, requirement.kind = kind ∧
    ∃ unit, requirement.source = some unit ∧ .source unit ∈ kept) ∨
  ∃ load ∈ present, ∃ dependency ∈ load.closure, ∃ requirement ∈ facts.requirements,
    requirement.kind = kind ∧ requirement.crateIdentity = dependency.crateIdentity

/-- Everything that the compiler found in external crates is there as before. -/
structure Preserved (facts : ExternalCrateFacts) (graph : DependencyGraph)
    (kept : Set CompilerCrateLoadCarrier) (nodes : Set GraphNode)
    (present : Set ExternalCrateLoad) : Prop where
  provided : ∀ provider ∈ facts.providers, facts.CratePresent present provider.crateIdentity
  defined : ∀ definition ∈ graph.definitions.externalDefinitions,
    .externalDefinition definition.id ∈ nodes →
      facts.CratePresent present definition.key.crateIdentity
  required : ∀ kind,
    (∃ requirement ∈ facts.requirements, requirement.kind = kind) ∨
      (∃ requirement ∈ facts.localRequirements, requirement.kind = kind) →
    facts.RequirementMet kept present kind

variable {facts : ExternalCrateFacts} {graph : DependencyGraph} {loads : CrateLoads}
  {kept : Set CompilerCrateLoadCarrier} {nodes : Set GraphNode}
  {kind : ExternalMetadataRequirementKind}

theorem kindOf_eq_some {dependencies : List ExternalCrateDependency} {kind : ExternalDependencyKind}
    (hnodup : (dependencies.map ExternalCrateDependency.crateIdentity).Nodup) :
    kindOf dependencies identity = some kind ↔ ⟨identity, kind⟩ ∈ dependencies := by
  rw [kindOf, Option.map_eq_some_iff]
  constructor
  · rintro ⟨dependency, hfind, rfl⟩
    obtain rfl : dependency.crateIdentity = identity := by simpa using find?_some hfind
    exact mem_reverse.mp (mem_of_find?_eq_some hfind)
  · intro hmem
    cases hfind : dependencies.reverse.find? fun dependency =>
        dependency.crateIdentity = identity with
    | none => simpa using find?_eq_none.mp hfind _ (mem_reverse.mpr hmem)
    | some dependency =>
      have hidentity : dependency.crateIdentity = identity := by simpa using find?_some hfind
      have hdependency := mem_reverse.mp (mem_of_find?_eq_some hfind)
      rw [inj_on_of_nodup_map hnodup hdependency hmem hidentity]
      exact ⟨_, rfl, rfl⟩

theorem requiredCrate_eq_ok
    (hnodup : (facts.loadedCrates.map ExternalCrateDependency.crateIdentity).Nodup)
    {required : ExternalCrateDependency} : facts.requiredCrate identity = .ok required ↔
      required ∈ facts.loadedCrates ∧ required.crateIdentity = identity := by
  have hkind : ∀ kind, kindOf facts.loadedCrates identity = some kind ↔
      ⟨identity, kind⟩ ∈ facts.loadedCrates := fun _ => kindOf_eq_some hnodup
  obtain ⟨identity', kind'⟩ := required
  rw [requiredCrate]
  split
  case h_1 kind hkindOf =>
    have hmem := (hkind kind).mp hkindOf
    constructor
    · rintro ⟨⟩
      exact ⟨hmem, rfl⟩
    · rintro ⟨hmem', rfl⟩
      rw [Option.some.inj ((hkindOf.symm.trans ((hkind kind').mpr hmem')))]
      rfl
  case h_2 hnone =>
    constructor
    · rintro ⟨⟩
    · rintro ⟨hmem', rfl⟩
      rw [(hkind kind').mpr hmem'] at hnone
      cases hnone

theorem nodup_of_validateLoadedCrates (h : facts.validateLoadedCrates graph = .ok ()) :
    (facts.loadedCrates.map ExternalCrateDependency.crateIdentity).Nodup := by
  obtain ⟨h, -⟩ := guard_ok h
  simp only [Bool.or_eq_true, not_or, bne_iff_ne, not_not, identities] at h
  have hcard := h.1
  rw [card_toFinset, ← length_map ExternalCrateDependency.crateIdentity] at hcard
  exact dedup_eq_self.mp ((dedup_sublist _).eq_of_length hcard)

theorem satisfies_iff {load : ExternalCrateLoad} {required : ExternalCrateDependency} :
    load.satisfies required = true ↔ ∃ dependency ∈ load.closure,
      dependency.crateIdentity = required.crateIdentity ∧ required.kind ≤ dependency.kind := by
  simp [ExternalCrateLoad.satisfies]

theorem exists_requiredCrate
    (hnodup : (facts.loadedCrates.map ExternalCrateDependency.crateIdentity).Nodup)
    {trigger : Option GraphNode} {Q : Option GraphNode × ExternalCrateDependency → Prop} :
    (∃ requirement, (do return (trigger, ← facts.requiredCrate identity)) =
      (.ok requirement : Except RetentionError _) ∧ Q requirement) ↔
    ∃ required ∈ facts.loadedCrates, required.crateIdentity = identity ∧ Q (trigger, required) := by
  rw [exists_bind_ok]
  simp only [requiredCrate_eq_ok hnodup, and_assoc]
  refine exists_congr fun required => and_congr_right fun _ => and_congr_right fun _ => ?_
  constructor
  · rintro ⟨_, ⟨⟩, h⟩
    exact h
  · exact fun h => ⟨_, rfl, h⟩

/-- The disjunctions over the crates say that the crates stay present. -/
theorem holds_crateDisjunctions
    (hnodup : (facts.loadedCrates.map ExternalCrateDependency.crateIdentity).Nodup)
    {disjunctions : Finset CompilerCrateLoadDisjunction}
    (h : facts.crateDisjunctions graph loads = .ok disjunctions) :
    (∀ d ∈ disjunctions, d.Holds kept nodes) ↔
      (∀ definition ∈ graph.definitions.externalDefinitions,
        .externalDefinition definition.id ∈ nodes →
          facts.CratePresent (loads.presentWith kept) definition.key.crateIdentity) ∧
      ∀ provider ∈ facts.providers,
        facts.CratePresent (loads.presentWith kept) provider.crateIdentity := by
  obtain ⟨requirements, hrequirements, h⟩ := bind_ok h
  obtain ⟨definitions, hdefinitions, hrequirements⟩ := bind_ok hrequirements
  obtain ⟨providers, hproviders, hrequirements⟩ := bind_ok hrequirements
  cases hrequirements
  let Met (requirement : Option GraphNode × ExternalCrateDependency) : Prop :=
    (∀ node ∈ requirement.1, node ∈ nodes) →
      ∃ load ∈ loads.presentWith kept, load.satisfies requirement.2 = true
  have hstep : ∀ requirement ∈ definitions ++ providers,
      ∀ disjunctions disjunctions', loads.require requirement.1 ∅ (·.satisfies requirement.2)
        disjunctions = .ok disjunctions' → ((∀ d ∈ disjunctions', d.Holds kept nodes) ↔
          (∀ d ∈ disjunctions, d.Holds kept nodes) ∧ Met requirement) := by
    intro requirement _ _ _ hstep
    rw [CrateLoads.holds_require hstep]
    simp [Met]
  have hmet : ∀ (trigger : Option GraphNode) (identity : Nat),
      (∃ required ∈ facts.loadedCrates, required.crateIdentity = identity) →
      ((∃ required ∈ facts.loadedCrates, required.crateIdentity = identity ∧
          Met (trigger, required)) ↔
        ((∀ node ∈ trigger, node ∈ nodes) →
          facts.CratePresent (loads.presentWith kept) identity)) := by
    rintro trigger identity ⟨loaded, hloaded, hidentity⟩
    constructor
    · rintro ⟨required, hmem, rfl, h⟩ htrigger
      obtain ⟨load, hload, hsatisfies⟩ := h htrigger
      exact ⟨required, hmem, rfl, load, hload, satisfies_iff.mp hsatisfies⟩
    · intro h
      by_cases htrigger : ∀ node ∈ trigger, node ∈ nodes
      · obtain ⟨required, hmem, rfl, load, hload, hsatisfies⟩ := h htrigger
        exact ⟨required, hmem, rfl, fun _ => ⟨load, hload, satisfies_iff.mpr hsatisfies⟩⟩
      · exact ⟨loaded, hloaded, hidentity, fun h => absurd h htrigger⟩
  have hdefined : ∀ definition ∈ graph.definitions.externalDefinitions,
      ∃ required ∈ facts.loadedCrates, required.crateIdentity = definition.key.crateIdentity :=
    fun definition hmem => by
      have hreturns := (forall_mem_mapM (Q := fun _ => True) hdefinitions).mp
        (fun _ _ => trivial) _ hmem
      obtain ⟨required, hmem, hidentity, -⟩ := (exists_requiredCrate hnodup).mp hreturns
      exact ⟨required, hmem, hidentity⟩
  have hprovided : ∀ provider ∈ facts.providers,
      ∃ required ∈ facts.loadedCrates, required.crateIdentity = provider.crateIdentity :=
    fun provider hmem => by
      have hreturns := (forall_mem_mapM (Q := fun _ => True) hproviders).mp
        (fun _ _ => trivial) _ hmem
      obtain ⟨required, hmem, hidentity, -⟩ := (exists_requiredCrate hnodup).mp hreturns
      exact ⟨required, hmem, hidentity⟩
  rw [foldlM_iff (P := fun s : Finset CompilerCrateLoadDisjunction => ∀ d ∈ s, d.Holds kept nodes)
    hstep h, forall_mem_append, forall_mem_mapM hdefinitions, forall_mem_mapM hproviders]
  simp only [exists_requiredCrate hnodup]
  rw [and_iff_right (by simp)]
  apply and_congr
  · refine forall₂_congr fun definition hmem => ?_
    rw [hmet _ _ (hdefined definition hmem)]
    simp
  · refine forall₂_congr fun provider hmem => ?_
    rw [hmet _ _ (hprovided provider hmem)]
    simp

theorem mem_localCarriers :
    (∃ carrier ∈ facts.localCarriers kind, carrier ∈ kept) ↔
      ∃ requirement ∈ facts.localRequirements, requirement.kind = kind ∧
        ∃ unit, requirement.source = some unit ∧ .source unit ∈ kept := by
  simp only [localCarriers, mem_toFinset, mem_filterMap]
  constructor
  · rintro ⟨carrier, ⟨requirement, hmem, h⟩, hkept⟩
    split at h
    case isTrue hkind =>
      obtain ⟨unit, hunit, rfl⟩ := Option.map_eq_some_iff.mp h
      exact ⟨requirement, hmem, hkind, unit, hunit, hkept⟩
    case isFalse => cases h
  · rintro ⟨requirement, hmem, hkind, unit, hunit, hkept⟩
    exact ⟨.source unit, ⟨requirement, hmem, by simp [hkind, hunit]⟩, hkept⟩

theorem mem_requirementCarriers :
    identity ∈ facts.requirementCarriers kind ↔ ∃ requirement ∈ facts.requirements,
      requirement.kind = kind ∧ requirement.crateIdentity = identity := by
  simp [requirementCarriers, and_assoc]

theorem mem_requirementKinds :
    kind ∈ facts.requirementKinds ↔ (∃ requirement ∈ facts.requirements, requirement.kind = kind) ∨
      ∃ requirement ∈ facts.localRequirements, requirement.kind = kind := by
  simp [requirementKinds]

/-- The disjunctions over the metadata say that the requirements are still made. -/
theorem holds_metadataDisjunctions
    {disjunctions disjunctions' : Finset CompilerCrateLoadDisjunction}
    (h : facts.metadataDisjunctions loads disjunctions = .ok disjunctions') :
    (∀ d ∈ disjunctions', d.Holds kept nodes) ↔ (∀ d ∈ disjunctions, d.Holds kept nodes) ∧
      ∀ kind ∈ facts.requirementKinds, facts.RequirementMet kept (loads.presentWith kept) kind := by
  refine foldlM_iff (P := fun s : Finset CompilerCrateLoadDisjunction =>
    ∀ d ∈ s, d.Holds kept nodes) (fun kind _ s t hstep => ?_) h
  split at hstep
  case isTrue hlocal =>
    cases hstep
    obtain ⟨requirement, hmem, hrequirement⟩ := any_eq_true.mp hlocal
    have hmet : facts.RequirementMet kept (loads.presentWith kept) kind :=
      .inl ⟨requirement, hmem, by simpa using hrequirement⟩
    exact ⟨fun h => ⟨h, hmet⟩, fun h => h.1⟩
  case isFalse hlocal =>
    have hnone : ¬∃ requirement ∈ facts.localRequirements,
        requirement.kind = kind ∧ requirement.source = none := by
      simpa using hlocal
    rw [CrateLoads.holds_require hstep, mem_localCarriers, RequirementMet, or_iff_right hnone]
    simp only [any_eq_true, decide_eq_true_eq, mem_requirementCarriers, Option.not_mem_none,
      false_imp_iff, implies_true, true_imp_iff]

/-! ## Exactness -/

end ExternalCrateFacts

open ExternalCrateFacts in
/-- The propagation of the injected loads ends because a round adds nothing.  When the facts are
accepted, keeping some carriers and nodes respects the disjunctions exactly if the loads that the
compiler then performs preserve what it found in external crates. -/
theorem validateExternalCrateFacts_exact (source : SourceInventory) (graph : DependencyGraph)
    (definitionUnits : List SourceUnitId) (facts : ExternalCrateFacts) :
    (∀ loads, facts.propagationAdds (facts.propagate loads) = false) ∧
    ∀ disjunctions, validateExternalCrateFacts source graph definitionUnits facts =
      .ok disjunctions →
      ∀ (kept : Set CompilerCrateLoadCarrier) (nodes : Set GraphNode),
        ∃ present, IsLeast {present | facts.LoadsWith kept present} present ∧
          ((∀ d ∈ disjunctions, d.Holds kept nodes) ↔
            facts.Preserved graph kept nodes present) := by
  refine ⟨fun loads => propagationAdds_propagate, fun disjunctions h kept nodes => ?_⟩
  obtain ⟨⟨⟩, hloaded, h⟩ := bind_ok h
  obtain ⟨-, -, h⟩ := bind_ok h
  obtain ⟨bound, hbound, h⟩ := bind_ok h
  obtain ⟨start, hstart, h⟩ := bind_ok h
  obtain ⟨-, -, h⟩ := bind_ok h
  obtain ⟨-, -, h⟩ := bind_ok h
  obtain ⟨-, -, h⟩ := bind_ok h
  obtain ⟨crates, hcrates, h⟩ := bind_ok h
  obtain ⟨all, hall, h⟩ := bind_ok h
  cases h
  have hknown : ∀ fact, fact ∈ start.known ↔
      facts.BindingFact fact ∨ facts.ActivationFact fact := fun fact => by
    rw [known_activationLoads hstart, known_bindingLoads hbound]
    obtain ⟨_ | carrier, load⟩ := fact <;> simp
  refine ⟨_, isLeast_presentWith hknown, ?_⟩
  simp only [mem_ascending]
  rw [holds_metadataDisjunctions hall,
    holds_crateDisjunctions (nodup_of_validateLoadedCrates hloaded) hcrates]
  constructor
  · rintro ⟨⟨hdefined, hprovided⟩, hrequired⟩
    exact ⟨hprovided, hdefined, fun kind hkind => hrequired kind (mem_requirementKinds.mpr hkind)⟩
  · rintro ⟨hprovided, hdefined, hrequired⟩
    exact ⟨⟨hdefined, hprovided⟩, fun kind hkind => hrequired kind (mem_requirementKinds.mp hkind)⟩

def rootSource : SourceInventory where
  original := []
  units := [⟨⟨0⟩, .crateRoot, ⟨0, 0⟩, none, .active, ⟨0⟩, 0⟩]
  pieces := []
  deriveTargets := []
  macroRules := []
  macroTemplates := []
  macroCaptureSlots := []
  macroRepetitions := []
  ownerlessAttributeInvocations := []

def rootGraph : DependencyGraph where
  definitions := ⟨[], [], []⟩
  expansions := []
  proofs := []
  monoNodes := []
  edges := []
  roots := []

def plainLoad (identity : Nat) : ExternalCrateLoad :=
  ⟨⟨identity, .unconditional⟩, [⟨identity, .unconditional⟩]⟩

/-- The root unit loads the first crate, and the compiler then injects the second. -/
def injectedFacts : ExternalCrateFacts where
  loadedCrates := [⟨1, .unconditional⟩, ⟨2, .unconditional⟩]
  userArtifactCrates := []
  bindings := []
  activations := [⟨some ⟨0⟩, plainLoad 1⟩]
  compilerGeneratedActivations := [⟨plainLoad 2, some 1⟩]
  providers := [⟨2, .panicRuntime⟩]
  requirements := [⟨2, .allocator⟩]
  localRequirements := []

/-- What the injected crate provides hangs on the unit that causes the injection. -/
theorem validateExternalCrateFacts_exact_injected :
    validateExternalCrateFacts rootSource rootGraph [] injectedFacts = .ok [⟨none, [.source ⟨0⟩]⟩] ∧
    ∃ present, IsLeast {present | injectedFacts.LoadsWith ∅ present} present ∧
      ¬injectedFacts.Preserved rootGraph ∅ ∅ present := by
  have h : validateExternalCrateFacts rootSource rootGraph [] injectedFacts =
      .ok [⟨none, [.source ⟨0⟩]⟩] := rfl
  obtain ⟨present, hleast, hexact⟩ :=
    (validateExternalCrateFacts_exact rootSource rootGraph [] injectedFacts).2 _ h ∅ ∅
  refine ⟨h, present, hleast, fun hpreserved => ?_⟩
  obtain ⟨choice, -, hchoice⟩ := hexact.mpr hpreserved _ (mem_singleton_self _) (by simp)
  exact hchoice

end ItemDependencies
