import ItemDependencies.Library.Fallible
import ItemDependencies.Selection.ProofKeys

/-!
# Proofs of the trait solver

What is known of a proof: the terms it is about, what it was selected from, and the proofs it rests
on.  The type of the numbers of proofs is a parameter, so that a node can also be written with keys.
-/

namespace ItemDependencies

open Library List

universe u v

inductive SelectionSourceKind where
  | userDefined
  | parameter
  | builtin
deriving DecidableEq

inductive BuiltinTraitTargetKind where
  | traitDefinition
  | autoTrait
deriving DecidableEq

structure BuiltinTraitTarget where
  kind : BuiltinTraitTargetKind
  target : DefinitionTarget
deriving DecidableEq

structure SelectionSource where
  kind : SelectionSourceKind
  term : CanonicalCompilerTerm
  implementation : Option DefinitionTarget
  builtinTrait : Option BuiltinTraitTarget
deriving DecidableEq

inductive ProjectionOutcome where
  | progress (rawTerm : CanonicalCompilerTerm)
  | noProgress (term : CanonicalCompilerTerm)
deriving DecidableEq

inductive ProjectionSourceKind where
  | parameterEnvironment
  | traitDefinition
  | object
  | selectedUserDefined
  | selectedParameter
  | selectedBuiltin
  | noApplicableCandidate
deriving DecidableEq

inductive SpecializationNodeKind where
  | impl
  | trait
deriving DecidableEq

structure SpecializationNode where
  kind : SpecializationNodeKind
  target : DefinitionTarget
deriving DecidableEq

/-- The proofs that a query to the solver went through. -/
structure SolverTracePayload (ι : Type) where
  root : ι
  obligations : List ι
  traitSelections : List ι
  projections : List ι
  fulfillments : List ι
  cycles : List ι
deriving DecidableEq

inductive ProofNodeKind (ι : Type) where
  | obligation (environment predicate : CanonicalCompilerTerm) (source : Option SelectionSource)
      (selectionNested fulfillmentNested : Option (List ι))
      (queryTrace : Option (SolverTracePayload ι))
  | projection (environment aliasTerm : CanonicalCompilerTerm) (sourceKind : ProjectionSourceKind)
      (source : CanonicalCompilerTerm) (outcome : ProjectionOutcome) (selectedTrait : Option ι)
      (selectedImpl selectedItem : Option DefinitionTarget) (owners nested : List ι)
      (queryTrace : Option (SolverTracePayload ι)) (normalizedResult : Option CanonicalCompilerTerm)
  | associatedItem (request : CanonicalCompilerTerm) (rawInstance codegenInstance : MonoInstanceKey)
      (selection : ι) (sourceKind : SelectionSourceKind) (leaf : Option DefinitionTarget)
      (definingNode finalizingNode : Option SpecializationNode)
      (ancestorPath : List SpecializationNode)
  | cycle (members : List ι) (isCoinductive : Bool)
deriving DecidableEq

variable {ι κ ε : Type}

/-! ## Renaming the proofs inside a node -/

section Renaming

variable (rename : ι → Except ε κ)

def remapIds (ids : List ι) : Except ε (List κ) := ids.mapM rename

def remapOptionalIds : Option (List ι) → Except ε (Option (List κ))
  | none => .ok none
  | some ids => do
    let ids ← remapIds rename ids
    return some ids

def remapTrace (trace : SolverTracePayload ι) : Except ε (SolverTracePayload κ) := do
  let root ← rename trace.root
  let obligations ← remapIds rename trace.obligations
  let traitSelections ← remapIds rename trace.traitSelections
  let projections ← remapIds rename trace.projections
  let fulfillments ← remapIds rename trace.fulfillments
  let cycles ← remapIds rename trace.cycles
  return { root, obligations, traitSelections, projections, fulfillments, cycles }

def remapOptionalTrace : Option (SolverTracePayload ι) → Except ε (Option (SolverTracePayload κ))
  | none => .ok none
  | some trace => do
    let trace ← remapTrace rename trace
    return some trace

def remapOptionalId : Option ι → Except ε (Option κ)
  | none => .ok none
  | some id => do
    let id ← rename id
    return some id

def remapNodeReferences : ProofNodeKind ι → Except ε (ProofNodeKind κ)
  | .obligation environment predicate source selectionNested fulfillmentNested queryTrace => do
    let selectionNested ← remapOptionalIds rename selectionNested
    let fulfillmentNested ← remapOptionalIds rename fulfillmentNested
    let queryTrace ← remapOptionalTrace rename queryTrace
    return .obligation environment predicate source selectionNested fulfillmentNested queryTrace
  | .projection environment aliasTerm sourceKind source outcome selectedTrait selectedImpl
      selectedItem owners nested queryTrace normalizedResult => do
    let selectedTrait ← remapOptionalId rename selectedTrait
    let owners ← remapIds rename owners
    let nested ← remapIds rename nested
    let queryTrace ← remapOptionalTrace rename queryTrace
    return .projection environment aliasTerm sourceKind source outcome selectedTrait selectedImpl
      selectedItem owners nested queryTrace normalizedResult
  | .associatedItem request rawInstance codegenInstance selection sourceKind leaf definingNode
      finalizingNode ancestorPath => do
    let selection ← rename selection
    return .associatedItem request rawInstance codegenInstance selection sourceKind leaf
      definingNode finalizingNode ancestorPath
  | .cycle members isCoinductive => do
    let members ← members.mapM rename
    return .cycle members isCoinductive

end Renaming

/-! ## Naming the proofs inside a node -/

namespace SolverTracePayload

/-- The proofs that a trace names. -/
def ids (trace : SolverTracePayload ι) : List ι :=
  trace.root :: (trace.obligations ++ trace.traitSelections ++ trace.projections ++
    trace.fulfillments ++ trace.cycles)

def map (f : ι → κ) (trace : SolverTracePayload ι) : SolverTracePayload κ where
  root := f trace.root
  obligations := trace.obligations.map f
  traitSelections := trace.traitSelections.map f
  projections := trace.projections.map f
  fulfillments := trace.fulfillments.map f
  cycles := trace.cycles.map f

end SolverTracePayload

namespace ProofNodeKind

/-- The proofs that a node names. -/
def ids : ProofNodeKind ι → List ι
  | obligation _ _ _ selectionNested fulfillmentNested queryTrace =>
    selectionNested.getD [] ++ fulfillmentNested.getD [] ++ (queryTrace.map (·.ids)).getD []
  | projection _ _ _ _ _ selectedTrait _ _ owners nested queryTrace _ =>
    selectedTrait.toList ++ owners ++ nested ++ (queryTrace.map (·.ids)).getD []
  | associatedItem _ _ _ selection _ _ _ _ _ => [selection]
  | cycle members _ => members

def map (f : ι → κ) : ProofNodeKind ι → ProofNodeKind κ
  | obligation environment predicate source selectionNested fulfillmentNested queryTrace =>
    obligation environment predicate source (selectionNested.map (List.map f))
      (fulfillmentNested.map (List.map f)) (queryTrace.map (SolverTracePayload.map f))
  | projection environment aliasTerm sourceKind source outcome selectedTrait selectedImpl
      selectedItem owners nested queryTrace normalizedResult =>
    projection environment aliasTerm sourceKind source outcome (selectedTrait.map f) selectedImpl
      selectedItem (owners.map f) (nested.map f) (queryTrace.map (SolverTracePayload.map f))
      normalizedResult
  | associatedItem request rawInstance codegenInstance selection sourceKind leaf definingNode
      finalizingNode ancestorPath =>
    associatedItem request rawInstance codegenInstance (f selection) sourceKind leaf definingNode
      finalizingNode ancestorPath
  | cycle members isCoinductive => cycle (members.map f) isCoinductive

end ProofNodeKind

namespace SolverTracePayload

variable {trace : SolverTracePayload ι}

theorem map_congr {f g : ι → κ} (h : ∀ id ∈ trace.ids, f id = g id) :
    trace.map f = trace.map g := by
  have hlist : ∀ l : List ι, l ⊆ trace.ids → l.map f = l.map g := fun l hl =>
    map_congr_left fun id hid => h id (hl hid)
  rw [map, map, h trace.root mem_cons_self, hlist trace.obligations, hlist trace.traitSelections,
    hlist trace.projections, hlist trace.fulfillments, hlist trace.cycles]
  all_goals intro id hid
  all_goals simp [ids, hid]

theorem map_map {μ : Type} (f : ι → κ) (g : κ → μ) :
    (trace.map f).map g = trace.map fun id => g (f id) := by
  simp [map, Function.comp_def]

theorem ids_map (f : ι → κ) : (trace.map f).ids = trace.ids.map f := by
  simp [ids, map]

theorem map_self : SolverTracePayload.map (fun id : ι => id) = id := by
  funext trace
  simp [map]

end SolverTracePayload

namespace ProofNodeKind

variable {kind : ProofNodeKind ι}

theorem map_congr {f g : ι → κ} (h : ∀ id ∈ kind.ids, f id = g id) : kind.map f = kind.map g := by
  have hlist : ∀ l : List ι, l ⊆ kind.ids → l.map f = l.map g := fun l hl =>
    map_congr_left fun id hid => h id (hl hid)
  have htrace : ∀ trace : SolverTracePayload ι, trace.ids ⊆ kind.ids → trace.map f = trace.map g :=
    fun trace htrace => SolverTracePayload.map_congr fun id hid => h id (htrace hid)
  cases kind with
  | obligation environment predicate source selectionNested fulfillmentNested queryTrace =>
    have hselection : selectionNested.map (List.map f) = selectionNested.map (List.map g) := by
      apply Option.map_congr
      rintro l rfl
      exact hlist l fun id hid => by simp [ids, hid]
    have hfulfillment : fulfillmentNested.map (List.map f) =
        fulfillmentNested.map (List.map g) := by
      apply Option.map_congr
      rintro l rfl
      exact hlist l fun id hid => by simp [ids, hid]
    have hquery : queryTrace.map (SolverTracePayload.map f) =
        queryTrace.map (SolverTracePayload.map g) := by
      apply Option.map_congr
      rintro trace rfl
      exact htrace trace fun id hid => by simp [ids, hid]
    rw [map, map, hselection, hfulfillment, hquery]
  | projection environment aliasTerm sourceKind source outcome selectedTrait selectedImpl
      selectedItem owners nested queryTrace normalizedResult =>
    have hselected : selectedTrait.map f = selectedTrait.map g := by
      apply Option.map_congr
      rintro id rfl
      exact h id (by simp [ids])
    have hquery : queryTrace.map (SolverTracePayload.map f) =
        queryTrace.map (SolverTracePayload.map g) := by
      apply Option.map_congr
      rintro trace rfl
      exact htrace trace fun id hid => by simp [ids, hid]
    rw [map, map, hselected, hquery, hlist owners fun id hid => by simp [ids, hid],
      hlist nested fun id hid => by simp [ids, hid]]
  | associatedItem request rawInstance codegenInstance selection sourceKind leaf definingNode
      finalizingNode ancestorPath =>
    rw [map, map, h selection (by simp [ids])]
  | cycle members isCoinductive => rw [map, map, hlist members (List.Subset.refl members)]

theorem map_map {μ : Type} (f : ι → κ) (g : κ → μ) :
    (kind.map f).map g = kind.map fun id => g (f id) := by
  cases kind <;> simp [map, Function.comp_def, SolverTracePayload.map_map]

theorem ids_map (f : ι → κ) : (kind.map f).ids = kind.ids.map f := by
  cases kind with
  | obligation environment predicate source selectionNested fulfillmentNested queryTrace =>
    cases selectionNested <;> cases fulfillmentNested <;> cases queryTrace <;>
      simp [map, ids, SolverTracePayload.ids_map]
  | projection environment aliasTerm sourceKind source outcome selectedTrait selectedImpl
      selectedItem owners nested queryTrace normalizedResult =>
    cases selectedTrait <;> cases queryTrace <;> simp [map, ids, SolverTracePayload.ids_map]
  | associatedItem => rfl
  | cycle => rfl

theorem map_self (kind : ProofNodeKind ι) : (kind.map fun id => id) = kind := by
  cases kind <;> simp [map, SolverTracePayload.map_self]

/-- Names that can be traced back lose nothing. -/
theorem map_map_eq_self {f : ι → κ} {g : κ → ι} (h : ∀ id ∈ kind.ids, g (f id) = id) :
    (kind.map f).map g = kind := by
  rw [map_map, map_congr h, map_self]

end ProofNodeKind

/-! ## What renaming does -/

section Renaming

variable {rename : ι → Except ε κ} {f : ι → κ} {kind : ProofNodeKind ι}

theorem remapIds_eq {l : List ι} (h : ∀ id ∈ l, rename id = .ok (f id)) :
    remapIds rename l = .ok (l.map f) :=
  mapM_eq_map h

theorem remapOptionalIds_eq {l : Option (List ι)} (h : ∀ id ∈ l.getD [], rename id = .ok (f id)) :
    remapOptionalIds rename l = .ok (l.map (List.map f)) := by
  cases l with
  | none => rfl
  | some l =>
    rw [remapOptionalIds, remapIds_eq (l := l) h]
    rfl

theorem remapOptionalId_eq {id : Option ι} (h : ∀ i ∈ id.toList, rename i = .ok (f i)) :
    remapOptionalId rename id = .ok (id.map f) := by
  cases id with
  | none => rfl
  | some id =>
    rw [remapOptionalId, h id (by simp)]
    rfl

theorem remapTrace_eq {trace : SolverTracePayload ι}
    (h : ∀ id ∈ trace.ids, rename id = .ok (f id)) :
    remapTrace rename trace = .ok (trace.map f) := by
  simp only [SolverTracePayload.ids, forall_mem_cons, forall_mem_append] at h
  obtain ⟨hroot, ⟨⟨⟨hobligations, hselections⟩, hprojections⟩, hfulfillments⟩, hcycles⟩ := h
  rw [remapTrace, hroot, remapIds_eq hobligations, remapIds_eq hselections,
    remapIds_eq hprojections, remapIds_eq hfulfillments, remapIds_eq hcycles]
  rfl

theorem remapOptionalTrace_eq {trace : Option (SolverTracePayload ι)}
    (h : ∀ id ∈ (trace.map (·.ids)).getD [], rename id = .ok (f id)) :
    remapOptionalTrace rename trace = .ok (trace.map (SolverTracePayload.map f)) := by
  cases trace with
  | none => rfl
  | some trace =>
    rw [remapOptionalTrace, remapTrace_eq h]
    rfl

/-- If each proof has a new name, then the node gets the new names. -/
theorem remapNodeReferences_eq (h : ∀ id ∈ kind.ids, rename id = .ok (f id)) :
    remapNodeReferences rename kind = .ok (kind.map f) := by
  cases kind with
  | obligation environment predicate source selectionNested fulfillmentNested queryTrace =>
    simp only [ProofNodeKind.ids, forall_mem_append] at h
    rw [remapNodeReferences, remapOptionalIds_eq h.1.1, remapOptionalIds_eq h.1.2,
      remapOptionalTrace_eq h.2]
    rfl
  | projection environment aliasTerm sourceKind source outcome selectedTrait selectedImpl
      selectedItem owners nested queryTrace normalizedResult =>
    simp only [ProofNodeKind.ids, forall_mem_append] at h
    rw [remapNodeReferences, remapOptionalId_eq h.1.1.1, remapIds_eq h.1.1.2, remapIds_eq h.1.2,
      remapOptionalTrace_eq h.2]
    rfl
  | associatedItem request rawInstance codegenInstance selection sourceKind leaf definingNode
      finalizingNode ancestorPath =>
    rw [remapNodeReferences, h selection (by simp [ProofNodeKind.ids])]
    rfl
  | cycle members isCoinductive =>
    rw [remapNodeReferences, mapM_eq_map (l := members) h]
    rfl

theorem forall_of_remapIds {l : List ι} {l' : List κ} (h : remapIds rename l = .ok l') :
    ∀ id ∈ l, ∃ name, rename id = .ok name := by
  intro id hid
  obtain ⟨name, hname, -⟩ := (forall_mem_mapM (Q := fun _ => True) h).mp (fun _ _ => trivial) id hid
  exact ⟨name, hname⟩

theorem forall_of_remapOptionalIds {l : Option (List ι)} {l' : Option (List κ)}
    (h : remapOptionalIds rename l = .ok l') : ∀ id ∈ l.getD [], ∃ name, rename id = .ok name := by
  cases l with
  | none => exact fun id hid => absurd hid not_mem_nil
  | some l =>
    obtain ⟨l', hl, -⟩ := bind_ok h
    exact forall_of_remapIds hl

theorem forall_of_remapOptionalId {id : Option ι} {id' : Option κ}
    (h : remapOptionalId rename id = .ok id') : ∀ i ∈ id.toList, ∃ name, rename i = .ok name := by
  cases id with
  | none => exact fun i hi => absurd hi not_mem_nil
  | some id =>
    obtain ⟨name, hname, -⟩ := bind_ok h
    exact forall_mem_singleton.mpr ⟨name, hname⟩

theorem forall_of_remapTrace {trace : SolverTracePayload ι} {trace' : SolverTracePayload κ}
    (h : remapTrace rename trace = .ok trace') :
    ∀ id ∈ trace.ids, ∃ name, rename id = .ok name := by
  obtain ⟨root, hroot, h⟩ := bind_ok h
  obtain ⟨obligations, hobligations, h⟩ := bind_ok h
  obtain ⟨selections, hselections, h⟩ := bind_ok h
  obtain ⟨projections, hprojections, h⟩ := bind_ok h
  obtain ⟨fulfillments, hfulfillments, h⟩ := bind_ok h
  obtain ⟨cycles, hcycles, -⟩ := bind_ok h
  simp only [SolverTracePayload.ids, forall_mem_cons, forall_mem_append]
  exact ⟨⟨root, hroot⟩, ⟨⟨⟨forall_of_remapIds hobligations, forall_of_remapIds hselections⟩,
    forall_of_remapIds hprojections⟩, forall_of_remapIds hfulfillments⟩, forall_of_remapIds hcycles⟩

theorem forall_of_remapOptionalTrace {trace : Option (SolverTracePayload ι)}
    {trace' : Option (SolverTracePayload κ)} (h : remapOptionalTrace rename trace = .ok trace') :
    ∀ id ∈ (trace.map (·.ids)).getD [], ∃ name, rename id = .ok name := by
  cases trace with
  | none => exact fun id hid => absurd hid not_mem_nil
  | some trace =>
    obtain ⟨trace', htrace, -⟩ := bind_ok h
    exact forall_of_remapTrace htrace

/-- A node that was renamed names only proofs that have a new name. -/
theorem forall_of_remapNodeReferences {kind' : ProofNodeKind κ}
    (h : remapNodeReferences rename kind = .ok kind') :
    ∀ id ∈ kind.ids, ∃ name, rename id = .ok name := by
  cases kind with
  | obligation environment predicate source selectionNested fulfillmentNested queryTrace =>
    obtain ⟨selection', hselection, h⟩ := bind_ok h
    obtain ⟨fulfillment', hfulfillment, h⟩ := bind_ok h
    obtain ⟨query', hquery, -⟩ := bind_ok h
    simp only [ProofNodeKind.ids, forall_mem_append]
    exact ⟨⟨forall_of_remapOptionalIds hselection, forall_of_remapOptionalIds hfulfillment⟩,
      forall_of_remapOptionalTrace hquery⟩
  | projection environment aliasTerm sourceKind source outcome selectedTrait selectedImpl
      selectedItem owners nested queryTrace normalizedResult =>
    obtain ⟨selected', hselected, h⟩ := bind_ok h
    obtain ⟨owners', howners, h⟩ := bind_ok h
    obtain ⟨nested', hnested, h⟩ := bind_ok h
    obtain ⟨query', hquery, -⟩ := bind_ok h
    simp only [ProofNodeKind.ids, forall_mem_append]
    exact ⟨⟨⟨forall_of_remapOptionalId hselected, forall_of_remapIds howners⟩,
      forall_of_remapIds hnested⟩, forall_of_remapOptionalTrace hquery⟩
  | associatedItem request rawInstance codegenInstance selection sourceKind leaf definingNode
      finalizingNode ancestorPath =>
    obtain ⟨name, hname, -⟩ := bind_ok h
    exact forall_mem_singleton.mpr ⟨name, hname⟩
  | cycle members isCoinductive =>
    obtain ⟨members', hmembers, -⟩ := bind_ok h
    exact forall_of_remapIds hmembers

/-- A node that was renamed has got the new names. -/
theorem eq_map_of_remapNodeReferences {kind' : ProofNodeKind κ}
    (h : remapNodeReferences rename kind = .ok kind')
    (hf : ∀ id name, rename id = .ok name → f id = name) : kind' = kind.map f := by
  have hall : ∀ id ∈ kind.ids, rename id = .ok (f id) := fun id hid => by
    obtain ⟨name, hname⟩ := forall_of_remapNodeReferences h id hid
    rw [hname, hf id name hname]
  rw [remapNodeReferences_eq hall] at h
  exact (Except.ok.inj h).symm

end Renaming

end ItemDependencies
