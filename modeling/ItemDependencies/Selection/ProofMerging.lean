import ItemDependencies.Library.Observations
import ItemDependencies.Selection.ProofNodes

/-!
# Merging what is known of a proof

The solver reports the same proof several times, each time with a part of what there is to know.
Some parts must be the same in each report, some are filled in once, and the owners of a projection
add up.
-/

namespace ItemDependencies

open Library List Option

variable {α ι κ : Type}

section Optional

variable [DecidableEq α]

def optionalCompatible : Option α → Option α → Bool
  | some left, some right => left == right
  | _, _ => true

/-- The flag says whether the parts agree. -/
def mergeOptionalOption : Option α → Option α → Option α × Bool
  | some left, some right => (some left, left == right)
  | none, some right => (some right, true)
  | existing, none => (existing, true)

variable {x y : Option α}

theorem joins_mergeOptionalOption (h : optionalCompatible x y = true) :
    Joins x y (mergeOptionalOption x y).1 := by
  intro v
  cases x with
  | none => cases y <;> simp [mergeOptionalOption]
  | some a =>
    cases y with
    | none => simp [mergeOptionalOption]
    | some b =>
      obtain rfl : a = b := by simpa [optionalCompatible] using h
      simp [mergeOptionalOption]

theorem ne_of_not_optionalCompatible (h : optionalCompatible x y = false) :
    ∃ v w, x = some v ∧ y = some w ∧ v ≠ w := by
  cases x with
  | none => cases y <;> cases h
  | some a =>
    cases y with
    | none => cases h
    | some b => exact ⟨a, b, rfl, rfl, by simpa [optionalCompatible] using h⟩

end Optional

/-! ## Proofs with their keys -/

/-- A proof of the solver together with its key and with what is known of it. -/
structure KeyedProof extends ProofNode where
  key : ProofKey
  kind : ProofNodeKind ProofId

/-- What is known after another report.  The flag says whether the reports agree; if they do not,
then the first is left as it is. -/
def mergeKind [DecidableEq ι] (existing incoming : ProofNodeKind ι) : ProofNodeKind ι × Bool :=
  match existing, incoming with
  | .obligation leftEnvironment leftPredicate leftSource leftSelectionNested leftFulfillmentNested
      leftQueryTrace,
    .obligation rightEnvironment rightPredicate rightSource rightSelectionNested
      rightFulfillmentNested rightQueryTrace =>
    if leftEnvironment = rightEnvironment ∧ leftPredicate = rightPredicate then
      if !optionalCompatible leftSource rightSource ||
          !optionalCompatible leftSelectionNested rightSelectionNested ||
          !optionalCompatible leftFulfillmentNested rightFulfillmentNested ||
          !optionalCompatible leftQueryTrace rightQueryTrace then
        (existing, false)
      else
        (.obligation leftEnvironment leftPredicate (mergeOptionalOption leftSource rightSource).1
          (mergeOptionalOption leftSelectionNested rightSelectionNested).1
          (mergeOptionalOption leftFulfillmentNested rightFulfillmentNested).1
          (mergeOptionalOption leftQueryTrace rightQueryTrace).1, true)
    else (existing, existing == incoming)
  | .projection leftEnvironment leftAlias leftSourceKind leftSource leftOutcome leftSelectedTrait
      leftSelectedImpl leftSelectedItem leftOwners leftNested leftQueryTrace leftNormalizedResult,
    .projection rightEnvironment rightAlias rightSourceKind rightSource rightOutcome
      rightSelectedTrait rightSelectedImpl rightSelectedItem rightOwners rightNested rightQueryTrace
      rightNormalizedResult =>
    if leftEnvironment = rightEnvironment ∧ leftAlias = rightAlias ∧
        leftSourceKind = rightSourceKind ∧ leftSource = rightSource ∧ leftOutcome = rightOutcome ∧
        leftSelectedTrait = rightSelectedTrait ∧ leftSelectedImpl = rightSelectedImpl ∧
        leftSelectedItem = rightSelectedItem ∧ leftNested = rightNested then
      if !optionalCompatible leftQueryTrace rightQueryTrace ||
          !optionalCompatible leftNormalizedResult rightNormalizedResult then
        (existing, false)
      else
        (.projection leftEnvironment leftAlias leftSourceKind leftSource leftOutcome
          leftSelectedTrait leftSelectedImpl leftSelectedItem (leftOwners ++ rightOwners) leftNested
          (mergeOptionalOption leftQueryTrace rightQueryTrace).1
          (mergeOptionalOption leftNormalizedResult rightNormalizedResult).1, true)
    else (existing, existing == incoming)
  | _, _ => (existing, existing == incoming)

def mergeNode (existing incoming : KeyedProof) : KeyedProof × Bool :=
  if existing.key ≠ incoming.key then (existing, false)
  else
    ({ existing with kind := (mergeKind existing.kind incoming.kind).1 },
      (mergeKind existing.kind incoming.kind).2)

/-! ## Reports as partial observations -/

/-- What can be observed of a proof.  The owners of a projection are observed one by one. -/
inductive ProofPart where
  | required
  | source
  | selectionNested
  | fulfillmentNested
  | queryTrace
  | normalizedResult

inductive ProofObservation (ι : Type) where
  | required (kind : ProofNodeKind ι)
  | source (source : SelectionSource)
  | nested (ids : List ι)
  | trace (trace : SolverTracePayload ι)
  | term (term : CanonicalCompilerTerm)

namespace ProofObservation

theorem source_injective : Function.Injective (source : _ → ProofObservation ι) :=
  fun _ _ => source.inj

theorem nested_injective : Function.Injective (nested : _ → ProofObservation ι) :=
  fun _ _ => nested.inj

theorem trace_injective : Function.Injective (trace : _ → ProofObservation ι) :=
  fun _ _ => trace.inj

theorem term_injective : Function.Injective (term : _ → ProofObservation ι) :=
  fun _ _ => term.inj

def ids : ProofObservation ι → List ι
  | required kind => kind.ids
  | source _ => []
  | nested ids => ids
  | trace payload => payload.ids
  | term _ => []

def map (f : ι → κ) : ProofObservation ι → ProofObservation κ
  | required kind => required (kind.map f)
  | source selected => source selected
  | nested ids => nested (ids.map f)
  | trace payload => trace (payload.map f)
  | term result => term result

end ProofObservation

open ProofObservation (source_injective nested_injective trace_injective term_injective)

namespace ProofNodeKind

/-- The parts that all reports of a proof must have in common. -/
def required : ProofNodeKind ι → ProofNodeKind ι
  | obligation environment predicate _ _ _ _ => obligation environment predicate none none none none
  | projection environment aliasTerm sourceKind source outcome selectedTrait selectedImpl
      selectedItem _ nested _ _ =>
    projection environment aliasTerm sourceKind source outcome selectedTrait selectedImpl
      selectedItem [] nested none none
  | associatedItem request rawInstance codegenInstance selection sourceKind leaf definingNode
      finalizingNode ancestorPath =>
    associatedItem request rawInstance codegenInstance selection sourceKind leaf definingNode
      finalizingNode ancestorPath
  | cycle members isCoinductive => cycle members isCoinductive

def owners : ProofNodeKind ι → List ι
  | projection _ _ _ _ _ _ _ _ owners _ _ _ => owners
  | _ => []

def observe : ProofNodeKind ι → ProofPart → Option (ProofObservation ι)
  | kind, .required => some (.required kind.required)
  | obligation _ _ source _ _ _, .source => source.map .source
  | obligation _ _ _ selectionNested _ _, .selectionNested => selectionNested.map .nested
  | obligation _ _ _ _ fulfillmentNested _, .fulfillmentNested => fulfillmentNested.map .nested
  | obligation _ _ _ _ _ queryTrace, .queryTrace => queryTrace.map .trace
  | projection _ _ _ _ _ _ _ _ _ _ queryTrace _, .queryTrace => queryTrace.map .trace
  | projection _ _ _ _ _ _ _ _ _ _ _ normalizedResult, .normalizedResult =>
    normalizedResult.map .term
  | _, _ => none

variable {a b : ProofNodeKind ι}

theorem observe_map (f : ι → κ) (kind : ProofNodeKind ι) (part : ProofPart) :
    (kind.map f).observe part = (kind.observe part).map (ProofObservation.map f) := by
  cases kind <;> cases part <;>
    simp [observe, map, required, ProofObservation.map, Function.comp_def]

theorem owners_map (f : ι → κ) (kind : ProofNodeKind ι) :
    (kind.map f).owners = kind.owners.map f := by
  cases kind <;> rfl

/-- A report consists of what is observed. -/
theorem ext_observe (hobserve : a.observe = b.observe) (howners : a.owners = b.owners) : a = b := by
  have hrequired : a.required = b.required :=
    ProofObservation.required.inj (Option.some.inj (congrFun hobserve .required))
  have hsource := congrFun hobserve .source
  have hselection := congrFun hobserve .selectionNested
  have hfulfillment := congrFun hobserve .fulfillmentNested
  have hquery := congrFun hobserve .queryTrace
  have hresult := congrFun hobserve .normalizedResult
  cases a with
  | obligation =>
    cases b with
    | obligation =>
      cases hrequired
      cases map_injective source_injective hsource
      cases map_injective nested_injective hselection
      cases map_injective nested_injective hfulfillment
      cases map_injective trace_injective hquery
      rfl
    | projection | associatedItem | cycle => cases hrequired
  | projection =>
    cases b with
    | projection =>
      cases hrequired
      cases howners
      cases map_injective trace_injective hquery
      cases map_injective term_injective hresult
      rfl
    | obligation | associatedItem | cycle => cases hrequired
  | associatedItem =>
    cases b with
    | associatedItem => exact hrequired
    | obligation | projection | cycle => cases hrequired
  | cycle =>
    cases b with
    | cycle => exact hrequired
    | obligation | projection | associatedItem => cases hrequired

theorem mem_getD_nil {l : Option (List ι)} {id : ι} :
    id ∈ l.getD [] ↔ ∃ ids, l = some ids ∧ id ∈ ids := by
  cases l <;> simp

theorem mem_getD_map_ids {trace : Option (SolverTracePayload ι)} {id : ι} :
    id ∈ (trace.map (·.ids)).getD [] ↔ ∃ payload, trace = some payload ∧ id ∈ payload.ids := by
  cases trace <;> simp

/-- The proofs that a report names are those of the observations and the owners. -/
theorem mem_ids {kind : ProofNodeKind ι} {id : ι} : id ∈ kind.ids ↔
    id ∈ kind.owners ∨ ∃ part seen, kind.observe part = some seen ∧ id ∈ seen.ids := by
  constructor
  · intro hid
    cases kind with
    | obligation environment predicate source selectionNested fulfillmentNested queryTrace =>
      simp only [ids, mem_append, mem_getD_map_ids] at hid
      simp only [mem_getD_nil] at hid
      rcases hid with (⟨ids, rfl, hid⟩ | ⟨ids, rfl, hid⟩) | ⟨payload, rfl, hid⟩
      · exact .inr ⟨.selectionNested, .nested ids, rfl, hid⟩
      · exact .inr ⟨.fulfillmentNested, .nested ids, rfl, hid⟩
      · exact .inr ⟨.queryTrace, .trace payload, rfl, hid⟩
    | projection environment aliasTerm sourceKind source outcome selectedTrait selectedImpl
        selectedItem owners nested queryTrace normalizedResult =>
      simp only [ids, mem_append, mem_getD_map_ids] at hid
      rcases hid with ((hid | hid) | hid) | ⟨payload, rfl, hid⟩
      · exact .inr ⟨.required, _, rfl, by simp [ProofObservation.ids, required, ids, hid]⟩
      · exact .inl hid
      · exact .inr ⟨.required, _, rfl, by simp [ProofObservation.ids, required, ids, hid]⟩
      · exact .inr ⟨.queryTrace, .trace payload, rfl, hid⟩
    | associatedItem => exact .inr ⟨.required, _, rfl, hid⟩
    | cycle => exact .inr ⟨.required, _, rfl, hid⟩
  · rintro (hid | ⟨part, seen, hseen, hid⟩)
    · cases kind with
      | projection => simp only [ids, mem_append]; exact .inl (.inl (.inr hid))
      | obligation | associatedItem | cycle => cases hid
    · have hfrom : ∀ {α : Type} {x : Option α} {f : α → ProofObservation ι}, x.map f = some seen →
          ∃ v, x = some v ∧ id ∈ (f v).ids := fun hx => by
        obtain ⟨v, hv, rfl⟩ := map_eq_some_iff.mp hx
        exact ⟨v, hv, hid⟩
      cases kind with
      | obligation environment predicate source selectionNested fulfillmentNested queryTrace =>
        simp only [ids, mem_append, mem_getD_map_ids]
        simp only [mem_getD_nil]
        cases part with
        | required => cases hseen; cases hid
        | source => obtain ⟨v, -, hv⟩ := hfrom hseen; cases hv
        | selectionNested => exact .inl (.inl (hfrom hseen))
        | fulfillmentNested => exact .inl (.inr (hfrom hseen))
        | queryTrace => exact .inr (hfrom hseen)
        | normalizedResult => cases hseen
      | projection environment aliasTerm sourceKind source outcome selectedTrait selectedImpl
          selectedItem owners nested queryTrace normalizedResult =>
        simp only [ids, mem_append, mem_getD_map_ids]
        cases part with
        | required =>
          cases hseen
          have : id ∈ selectedTrait.toList ∨ id ∈ nested := by
            simpa [ProofObservation.ids, required, ids] using hid
          tauto
        | queryTrace => exact .inr (hfrom hseen)
        | normalizedResult => obtain ⟨v, -, hv⟩ := hfrom hseen; cases hv
        | source | selectionNested | fulfillmentNested => cases hseen
      | associatedItem =>
        cases part with
        | required => cases hseen; exact hid
        | source | selectionNested | fulfillmentNested | queryTrace | normalizedResult =>
          cases hseen
      | cycle =>
        cases part with
        | required => cases hseen; exact hid
        | source | selectionNested | fulfillmentNested | queryTrace | normalizedResult =>
          cases hseen

end ProofNodeKind

/-! ## What merging does -/

section Merging

variable {a b : ProofNodeKind ι}

/-- Reports that do not agree in what they must have in common. -/
theorem clashes_of_required (h : a.required ≠ b.required) : Clashes a.observe b.observe :=
  ⟨.required, _, _, rfl, rfl, fun heq => h (ProofObservation.required.inj heq)⟩

theorem clashes_of_part (part : ProofPart) {x y : Option α} [DecidableEq α]
    {f : α → ProofObservation ι} (hf : Function.Injective f) (hx : a.observe part = x.map f)
    (hy : b.observe part = y.map f) (h : optionalCompatible x y = false) :
    Clashes a.observe b.observe := by
  obtain ⟨v, w, rfl, rfl, hne⟩ := ne_of_not_optionalCompatible h
  exact ⟨part, f v, f w, hx, hy, fun heq => hne (hf heq)⟩

/-- Reports that clash still do so under names that can be traced back. -/
theorem clashes_map (h : Clashes a.observe b.observe) {f : ι → κ} {g : κ → ι}
    (ha : ∀ id ∈ a.ids, g (f id) = id) (hb : ∀ id ∈ b.ids, g (f id) = id) :
    Clashes (a.map f).observe (b.map f).observe := by
  have hback : ∀ {kind : ProofNodeKind ι} {part : ProofPart} {seen : ProofObservation ι},
      (∀ id ∈ kind.ids, g (f id) = id) → kind.observe part = some seen →
      (seen.map f).map g = seen := by
    intro kind part seen hids hseen
    have htwice := ProofNodeKind.observe_map g (kind.map f) part
    rw [ProofNodeKind.map_map_eq_self hids, ProofNodeKind.observe_map, hseen] at htwice
    exact (Option.some.inj htwice).symm
  obtain ⟨part, v, w, hv, hw, hne⟩ := h
  refine ⟨part, v.map f, w.map f, ?_, ?_, fun heq => hne ?_⟩
  · rw [ProofNodeKind.observe_map, hv, map_some]
  · rw [ProofNodeKind.observe_map, hw, map_some]
  · rw [← hback ha hv, heq, hback hb hw]

/-- What is merged of two reports: all that is observed of one of them, and the owners of both. -/
structure ProofNodeKind.Merged (a b c : ProofNodeKind ι) : Prop where
  observe : ∀ part, Joins (a.observe part) (b.observe part) (c.observe part)
  owners : c.owners = a.owners ++ b.owners

namespace ProofNodeKind.Merged

variable {c : ProofNodeKind ι}

theorem map (h : Merged a b c) (f : ι → κ) : Merged (a.map f) (b.map f) (c.map f) where
  observe part := by
    rw [observe_map, observe_map, observe_map]
    exact (h.observe part).map _
  owners := by rw [owners_map, owners_map, owners_map, h.owners, map_append]

theorem mem_ids (h : Merged a b c) {id : ι} (hid : id ∈ c.ids) : id ∈ a.ids ∨ id ∈ b.ids := by
  rcases ProofNodeKind.mem_ids.mp hid with howner | ⟨part, seen, hseen, hid⟩
  · rw [h.owners, mem_append] at howner
    exact howner.imp (fun h => ProofNodeKind.mem_ids.mpr (.inl h))
      fun h => ProofNodeKind.mem_ids.mpr (.inl h)
  · exact ((h.observe part seen).mp hseen).imp
      (fun h => ProofNodeKind.mem_ids.mpr (.inr ⟨part, seen, h, hid⟩))
      fun h => ProofNodeKind.mem_ids.mpr (.inr ⟨part, seen, h, hid⟩)

end ProofNodeKind.Merged

variable [DecidableEq ι]

/-- Reports that are compared as a whole. -/
theorem mergeKind_cases_of_eq (h : mergeKind a b = (a, a == b)) (howners : a.owners = [])
    (hrequired : a.required = b.required → a = b) :
    ((mergeKind a b).2 = true ∧ ProofNodeKind.Merged a b (mergeKind a b).1) ∨
      (mergeKind a b = (a, false) ∧ Clashes a.observe b.observe) := by
  rw [h]
  by_cases hab : a = b
  · subst hab
    refine .inl ⟨beq_self_eq_true a, fun part => .self _, ?_⟩
    rw [howners]
    rfl
  · refine .inr ⟨?_, clashes_of_required fun heq => hab (hrequired heq)⟩
    rw [beq_eq_false_iff_ne.mpr hab]

theorem mergeKind_of_required_ne (h : mergeKind a b = (a, a == b)) (hne : a.required ≠ b.required) :
    mergeKind a b = (a, false) ∧ Clashes a.observe b.observe := by
  refine ⟨?_, clashes_of_required hne⟩
  rw [h, beq_eq_false_iff_ne.mpr fun hab => hne (congrArg ProofNodeKind.required hab)]

/-- Either the reports are merged, or they clash and the first is left as it is. -/
theorem mergeKind_cases (a b : ProofNodeKind ι) :
    ((mergeKind a b).2 = true ∧ ProofNodeKind.Merged a b (mergeKind a b).1) ∨
      (mergeKind a b = (a, false) ∧ Clashes a.observe b.observe) := by
  cases a with
  | obligation environment predicate source selectionNested fulfillmentNested queryTrace =>
    cases b with
    | obligation environment' predicate' source' selectionNested' fulfillmentNested' queryTrace' =>
      by_cases hguard : environment = environment' ∧ predicate = predicate'
      · obtain ⟨rfl, rfl⟩ := hguard
        rw [mergeKind, if_pos ⟨rfl, rfl⟩]
        split
        case isTrue hconflict =>
          simp only [Bool.or_eq_true, Bool.not_eq_true'] at hconflict
          refine .inr ⟨rfl, ?_⟩
          rcases hconflict with ((hsource | hselection) | hfulfillment) | hquery
          · exact clashes_of_part .source source_injective rfl rfl hsource
          · exact clashes_of_part .selectionNested nested_injective rfl rfl hselection
          · exact clashes_of_part .fulfillmentNested nested_injective rfl rfl hfulfillment
          · exact clashes_of_part .queryTrace trace_injective rfl rfl hquery
        case isFalse hagree =>
          simp only [Bool.or_eq_true, Bool.not_eq_true', not_or, Bool.not_eq_false] at hagree
          obtain ⟨⟨⟨hsource, hselection⟩, hfulfillment⟩, hquery⟩ := hagree
          refine .inl ⟨rfl, fun part => ?_, rfl⟩
          cases part with
          | required => exact .self _
          | source => exact (joins_mergeOptionalOption hsource).map _
          | selectionNested => exact (joins_mergeOptionalOption hselection).map _
          | fulfillmentNested => exact (joins_mergeOptionalOption hfulfillment).map _
          | queryTrace => exact (joins_mergeOptionalOption hquery).map _
          | normalizedResult => exact .self none
      · refine .inr (mergeKind_of_required_ne (if_neg hguard) fun heq => hguard ?_)
        obtain ⟨henvironment, hpredicate, -⟩ := ProofNodeKind.obligation.inj heq
        exact ⟨henvironment, hpredicate⟩
    | projection | associatedItem | cycle =>
      exact .inr (mergeKind_of_required_ne rfl fun heq => by cases heq)
  | projection environment aliasTerm sourceKind source outcome selectedTrait selectedImpl
      selectedItem owners nested queryTrace normalizedResult =>
    cases b with
    | projection environment' aliasTerm' sourceKind' source' outcome' selectedTrait' selectedImpl'
        selectedItem' owners' nested' queryTrace' normalizedResult' =>
      by_cases hguard : environment = environment' ∧ aliasTerm = aliasTerm' ∧
          sourceKind = sourceKind' ∧ source = source' ∧ outcome = outcome' ∧
          selectedTrait = selectedTrait' ∧ selectedImpl = selectedImpl' ∧
          selectedItem = selectedItem' ∧ nested = nested'
      · obtain ⟨rfl, rfl, rfl, rfl, rfl, rfl, rfl, rfl, rfl⟩ := hguard
        rw [mergeKind, if_pos ⟨rfl, rfl, rfl, rfl, rfl, rfl, rfl, rfl, rfl⟩]
        split
        case isTrue hconflict =>
          simp only [Bool.or_eq_true, Bool.not_eq_true'] at hconflict
          refine .inr ⟨rfl, ?_⟩
          rcases hconflict with hquery | hresult
          · exact clashes_of_part .queryTrace trace_injective rfl rfl hquery
          · exact clashes_of_part .normalizedResult term_injective rfl rfl hresult
        case isFalse hagree =>
          simp only [Bool.or_eq_true, Bool.not_eq_true', not_or, Bool.not_eq_false] at hagree
          obtain ⟨hquery, hresult⟩ := hagree
          refine .inl ⟨rfl, fun part => ?_, rfl⟩
          cases part with
          | required => exact .self _
          | queryTrace => exact (joins_mergeOptionalOption hquery).map _
          | normalizedResult => exact (joins_mergeOptionalOption hresult).map _
          | source | selectionNested | fulfillmentNested => exact .self none
      · refine .inr (mergeKind_of_required_ne (if_neg hguard) fun heq => hguard ?_)
        obtain ⟨h₁, h₂, h₃, h₄, h₅, h₆, h₇, h₈, -, h₉, -⟩ := ProofNodeKind.projection.inj heq
        exact ⟨h₁, h₂, h₃, h₄, h₅, h₆, h₇, h₈, h₉⟩
    | obligation | associatedItem | cycle =>
      exact .inr (mergeKind_of_required_ne rfl fun heq => by cases heq)
  | associatedItem =>
    cases b with
    | associatedItem => exact mergeKind_cases_of_eq rfl rfl id
    | obligation | projection | cycle =>
      exact .inr (mergeKind_of_required_ne rfl fun heq => by cases heq)
  | cycle =>
    cases b with
    | cycle => exact mergeKind_cases_of_eq rfl rfl id
    | obligation | projection | associatedItem =>
      exact .inr (mergeKind_of_required_ne rfl fun heq => by cases heq)

end Merging

end ItemDependencies
