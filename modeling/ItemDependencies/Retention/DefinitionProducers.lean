import ItemDependencies.Expansion.DefinitionProducts
import ItemDependencies.Library.PathMemo

/-!
# The macro producers of the definitions

The producer of a definition is the expansion that generated it, or the first definition on its
chain of compiler-made parents that an expansion wrote.  A subordinate definition belongs to a
root of its producer, or to the owner in which the products of the producer stand.  Both are found
by walks up the parents that leave their result with every definition they passed.
-/

namespace ItemDependencies

open Library List

inductive MacroDefinitionParent where
  | root (id : DefinitionId)
  | owner (id : DefinitionId)
deriving DecidableEq

structure IndexedMacroDefinitionParent where
  producer : ExpansionId
  parent : MacroDefinitionParent
deriving DecidableEq

/-- The producer and the parent of each definition, or why it has none. -/
structure DefinitionMacroProducerIndex where
  producers : List (Except RetentionError ExpansionId)
  parents : List (Except RetentionError IndexedMacroDefinitionParent)

/-! ## Producers -/

/-- The target of a generated-by edge from the definition. -/
def generatedTarget (index : Nat) (edge : DependencyEdge) : Option GraphNode :=
  if edge.kind ≠ .generatedBy then none
  else
    match edge.fromNode with
    | .definition definition => if definition.index = index then some edge.toNode else none
    | _ => none

/-- What the graph says to have generated a definition. -/
def directProducts (graph : DependencyGraph) (index : Nat) : Finset GraphNode :=
  (graph.edges.filterMap (generatedTarget index)).toFinset

def onlyProducer : List GraphNode → Except RetentionError ExpansionId
  | [.expansion producer] => .ok producer
  | _ => .error .incompleteMacroProductConstraints

def producerSeen (graph : DependencyGraph)
    (producers : List (Option (Except RetentionError ExpansionId))) (path : List Nat)
    (current : Nat) : Option (Except RetentionError ExpansionId) :=
  if graph.definitions.definitions.length ≤ current then
    some (.error .incompleteMacroProductConstraints)
  else
    match producers[current]?.join with
    | some resolved => some resolved
    | none => if current ∈ path then some (.error .invalidGraph) else none

def producerStep (graph : DependencyGraph) (current : Nat) :
    WalkStep Nat (Except RetentionError ExpansionId) :=
  match graph.definitions.definitions[current]? with
  | none => .stop (.error .incompleteMacroProductConstraints)
  | some definition =>
    if definition.id.index ≠ current then .stop (.error .invalidGraph)
    else
      match definition.origin with
      | .expanded .. => .stop (onlyProducer (ascending (directProducts graph current)))
      | .compilerGenerated .. | .injected .. =>
        match definition.parent with
        | none => .stop (.error .incompleteMacroProductConstraints)
        | some parent =>
          if (definitionOf graph.definitions.definitions parent).isNone then
            .stop (.error .incompleteMacroProductConstraints)
          else .up parent.index
      | .written .. => .stop (.error .incompleteMacroProductConstraints)

/-- Walk up from a definition without a result, and leave the result with the path. -/
def resolveProducer (graph : DependencyGraph)
    (producers : List (Option (Except RetentionError ExpansionId))) (start : Nat) :
    List (Option (Except RetentionError ExpansionId)) :=
  match producers[start]?.join with
  | some _ => producers
  | none =>
    let (resolved, path) := climbPath (producerSeen graph producers) (producerStep graph)
      (.error .invalidGraph) (graph.definitions.definitions.length + 1) [] start
    settlePath (fun _ resolved => resolved) resolved path producers

/-- The producers, when the walks start at the definitions in this order. -/
def resolveProducers (graph : DependencyGraph) (starts : List Nat) :
    List (Except RetentionError ExpansionId) :=
  (starts.foldl (resolveProducer graph)
    (List.replicate graph.definitions.definitions.length none)).map (·.getD (.error .invalidGraph))

/-! ## Parents -/

section Parents

variable (graph : DependencyGraph) (producers : List (Except RetentionError ExpansionId))

def isProducedBy (producer : ExpansionId) (index : Nat) : Bool :=
  match producers[index]? with
  | some (.ok found) => found = producer
  | _ => false

/-- Only a result for the same producer is taken over. -/
def forProducer (producer : ExpansionId) (parent : IndexedMacroDefinitionParent) :
    Except RetentionError IndexedMacroDefinitionParent :=
  if parent.producer = producer then .ok parent else .error .invalidConstraint

def parentSeen (producer : ExpansionId)
    (parents : List (Option (Except RetentionError IndexedMacroDefinitionParent)))
    (path : List Nat) (current : Nat) :
    Option (Except RetentionError IndexedMacroDefinitionParent) :=
  if !isProducedBy producers producer current then some (.error .invalidConstraint)
  else
    match parents[current]?.join with
    | some resolved => some (resolved.bind (forProducer producer))
    | none => if current ∈ path then some (.error .invalidConstraint) else none

/-- The parent has a role, but another producer than its child or none. -/
def foreignParent (producer : ExpansionId) (parent : DefinitionId) :
    Except RetentionError IndexedMacroDefinitionParent :=
  match producers[parent.index]? with
  | some resolved => resolved.map fun _ => ⟨producer, .owner parent⟩
  | none => .error .invalidConstraint

def parentStep (producer : ExpansionId) (current : Nat) :
    WalkStep Nat (Except RetentionError IndexedMacroDefinitionParent) :=
  match graph.definitions.definitions[current]? with
  | none => .stop (.error .invalidConstraint)
  | some definition =>
    if macroDefinitionProductRole definition ≠ some .subordinate then
      .stop (.error .invalidConstraint)
    else
      match definition.parent with
      | none => .stop (.error .invalidConstraint)
      | some parent =>
        match definitionOf graph.definitions.definitions parent with
        | none => .stop (.error .invalidConstraint)
        | some parentDefinition =>
          match macroDefinitionProductRole parentDefinition with
          | none => .stop (.ok ⟨producer, .owner parent⟩)
          | some role =>
            if !isProducedBy producers producer parent.index then
              .stop (foreignParent producers producer parent)
            else
              match role with
              | .root => .stop (.ok ⟨producer, .root parent⟩)
              | .subordinate => .up parent.index

def walkParent (producer : ExpansionId)
    (parents : List (Option (Except RetentionError IndexedMacroDefinitionParent)))
    (start : Nat) : List (Option (Except RetentionError IndexedMacroDefinitionParent)) :=
  let (resolved, path) := climbPath (parentSeen producers producer parents)
    (parentStep graph producers producer) (.error .invalidConstraint)
    (graph.definitions.definitions.length + 1) [] start
  settlePath (fun _ resolved => resolved) resolved path parents

/-- Only subordinate definitions with a producer start a walk. -/
def resolveParent (parents : List (Option (Except RetentionError IndexedMacroDefinitionParent)))
    (start : Nat) : List (Option (Except RetentionError IndexedMacroDefinitionParent)) :=
  match parents[start]?.join with
  | some _ => parents
  | none =>
    if (graph.definitions.definitions[start]?.bind macroDefinitionProductRole) ≠
        some .subordinate then
      parents.set start (some (.error .invalidConstraint))
    else
      match producers[start]? with
      | some (.ok producer) => walkParent graph producers producer parents start
      | some (.error error) => parents.set start (some (.error error))
      | none => parents

def resolveParents (starts : List Nat) :
    List (Except RetentionError IndexedMacroDefinitionParent) :=
  (starts.foldl (resolveParent graph producers)
    (List.replicate graph.definitions.definitions.length none)).map
      (·.getD (.error .invalidConstraint))

end Parents

namespace DefinitionMacroProducerIndex

/-- The index, when both kinds of walks start at the definitions in this order. -/
def newInOrder (graph : DependencyGraph) (starts : List Nat) : DefinitionMacroProducerIndex :=
  let producers := resolveProducers graph starts
  { producers, parents := resolveParents graph producers starts }

def new (graph : DependencyGraph) : DefinitionMacroProducerIndex :=
  newInOrder graph (List.range graph.definitions.definitions.length)

def producer (index : DefinitionMacroProducerIndex) (definition : DefinitionId) :
    Except RetentionError ExpansionId :=
  index.producers[definition.index]?.getD (.error .incompleteMacroProductConstraints)

def parent (index : DefinitionMacroProducerIndex) (producer : ExpansionId)
    (definition : DefinitionId) : Except RetentionError MacroDefinitionParent :=
  (index.parents[definition.index]?.getD (.error .invalidConstraint)).bind fun parent =>
    if parent.producer = producer then .ok parent.parent else .error .invalidConstraint

end DefinitionMacroProducerIndex

/-! ## Walks for producers -/

variable {id : DefinitionId} {producer : ExpansionId} {current : Nat}
  {result : MacroDefinitionParent} {done : List Nat}

section Producers

variable {graph : DependencyGraph} {starts : List Nat} {definition : Definition}

/-- What a walk for a producer finds without any earlier walk. -/
abbrev ProducerOutcome (graph : DependencyGraph) : Nat → Except RetentionError ExpansionId → Prop :=
  Outcome (beyond graph.definitions.definitions.length (.error .incompleteMacroProductConstraints))
    (producerStep graph) (fun _ resolved => resolved) (.error .invalidGraph)

theorem producerSeen_eq (producers : List (Option (Except RetentionError ExpansionId))) :
    producerSeen graph producers =
      seenOf (beyond graph.definitions.definitions.length
          (.error .incompleteMacroProductConstraints))
        (fun current => producers[current]?.join) (.error .invalidGraph) := by
  funext path current
  unfold producerSeen seenOf beyond
  split
  · rfl
  · rw [Option.none_or]
    dsimp only
    cases producers[current]?.join <;> rfl

/-- The results that the walks have left. -/
structure Filled {γ : Type} (outcome : Nat → γ → Prop) (n : Nat) (done : List Nat)
    (table : List (Option γ)) : Prop where
  length : table.length = n
  sound : ∀ b value, table[b]?.join = some value → outcome b value
  done : ∀ b ∈ done, b < n → ∃ value, table[b]?.join = some value

theorem Filled.start {γ : Type} {outcome : Nat → γ → Prop} {n : Nat} :
    Filled outcome n [] (List.replicate n none) where
  length := length_replicate
  sound b value h := by
    rw [Option.join_eq_some_iff, getElem?_replicate] at h
    split at h <;> cases h
  done := by simp

/-- A step fills in the outcomes of some nodes, and of the node it is for. -/
theorem Filled.step {γ : Type} {outcome : Nat → γ → Prop} {n start : Nat}
    {table table' : List (Option γ)} (h : Filled outcome n done table) (hlength : table'.length = n)
    (hnew : ∀ b, table'[b]? = table[b]? ∨ ∃ value, table'[b]? = some (some value) ∧ outcome b value)
    (hstart : start < n → ∃ value, table'[start]?.join = some value) :
    Filled outcome n (done ++ [start]) table' where
  length := hlength
  sound b value hb := by
    rcases hnew b with heq | ⟨value', hvalue', houtcome⟩
    · exact h.sound b value (heq ▸ hb)
    · rw [hvalue'] at hb
      cases hb
      exact houtcome
  done b hb hlt := by
    rcases mem_append.mp hb with hb | hb
    · rcases hnew b with heq | ⟨value', hvalue', -⟩
      · exact heq ▸ h.done b hb hlt
      · exact ⟨value', by rw [hvalue']; rfl⟩
    · cases mem_singleton.mp hb
      exact hstart hlt

/-- When all nodes are filled in, the table lists the outcomes. -/
theorem Filled.getElem?_map {γ : Type} {outcome : Nat → γ → Prop} {n : Nat}
    {table : List (Option γ)} (h : Filled outcome n done table) (hall : ∀ b < n, b ∈ done)
    (default : γ) {b : Nat} (hb : b < n) :
    ∃ value, (table.map (·.getD default))[b]? = some value ∧ outcome b value := by
  obtain ⟨value, hvalue⟩ := h.done b (hall b hb) hb
  refine ⟨value, ?_, h.sound b value hvalue⟩
  rw [List.getElem?_map, Option.join_eq_some_iff.mp hvalue]
  rfl

theorem Filled.resolveProducer {start : Nat}
    {producers : List (Option (Except RetentionError ExpansionId))}
    (h : Filled (ProducerOutcome graph) graph.definitions.definitions.length done producers) :
    Filled (ProducerOutcome graph) graph.definitions.definitions.length (done ++ [start])
      (resolveProducer graph producers start) := by
  unfold ItemDependencies.resolveProducer
  cases hknown : producers[start]?.join with
  | some value => exact h.step h.length (fun b => .inl rfl) fun _ => ⟨value, hknown⟩
  | none =>
    rw [producerSeen_eq]
    dsimp only
    generalize hclimb : climbPath _ _ _ _ _ _ = found
    obtain ⟨value, path⟩ := found
    dsimp only
    by_cases hstart : start < graph.definitions.definitions.length
    · obtain ⟨hmem, hpath, hother⟩ := climbPath_settlePath
        (fun b hb => h.length ▸ beyond_eq_none.mp hb) (fun _ _ => rfl)
          (fun b w _ hb => h.sound b w hb)
        (by rw [h.length]; omega) (beyond_eq_none.mpr hstart) hknown hclimb
      refine h.step (by rw [length_settlePath, h.length]) (fun b => ?_) fun _ => ?_
      · by_cases hb : b ∈ path
        · obtain ⟨-, w, hw, houtcome⟩ := hpath b hb
          exact .inr ⟨w, hw, houtcome⟩
        · exact .inl (hother b hb)
      · obtain ⟨-, w, hw, -⟩ := hpath start hmem
        exact ⟨w, by rw [hw]; rfl⟩
    · -- a walk from outside the table leaves nothing
      have hnil : path = [] := by
        have hout : ∀ value : Except RetentionError ExpansionId,
            beyond graph.definitions.definitions.length value start = some value :=
          fun _ => if_pos (not_lt.mp hstart)
        rw [climbPath, seenOf_out [] (hout _)] at hclimb
        cases hclimb
        rfl
      rw [hnil]
      exact h.step h.length (fun b => .inl rfl) fun hlt => absurd hlt hstart

/-- A generated-by edge leads from the definition to the target. -/
def GeneratedBy (graph : DependencyGraph) (definition : DefinitionId) (target : GraphNode) : Prop :=
  ∃ edge ∈ graph.edges,
    edge.kind = .generatedBy ∧ edge.fromNode = .definition definition ∧ edge.toNode = target

/-- An expansion wrote the definition. -/
def IsExpanded (definition : Definition) : Prop :=
  ∃ invocation range role ordinal, definition.origin = .expanded invocation range role ordinal

/-- The compiler made the definition for its parent. -/
def IsCompilerMade (definition : Definition) : Prop :=
  (∃ role ordinal, definition.origin = .compilerGenerated role ordinal) ∨
    ∃ role ordinal, definition.origin = .injected role ordinal

/-- The expansion is the only one that generated the first definition on the chain of
compiler-made parents that an expansion wrote. -/
inductive IsProducer (graph : DependencyGraph) (producer : ExpansionId) : DefinitionId → Prop
  | expanded {id : DefinitionId} {definition : Definition}
      (hget : definitionOf graph.definitions.definitions id = some definition)
      (horigin : IsExpanded definition)
      (honly : ∀ target, GeneratedBy graph id target ↔ target = .expansion producer) :
      IsProducer graph producer id
  | inherited {id parent : DefinitionId} {definition : Definition}
      (hget : definitionOf graph.definitions.definitions id = some definition)
      (horigin : IsCompilerMade definition) (hparent : definition.parent = some parent)
      (habove : IsProducer graph producer parent) : IsProducer graph producer id

theorem definitionOf_eq_some {definitions : List Definition} :
    definitionOf definitions id = some definition ↔
      definitions[id.index]? = some definition ∧ definition.id = id := by
  rw [definitionOf, Option.filter_eq_some_iff, decide_eq_true_iff]

theorem IsProducer.exists_definition (h : IsProducer graph producer id) :
    ∃ definition, definitionOf graph.definitions.definitions id = some definition := by
  cases h with
  | expanded hget => exact ⟨_, hget⟩
  | inherited hget => exact ⟨_, hget⟩

theorem mem_directProducts {target : GraphNode} :
    target ∈ directProducts graph id.index ↔ GeneratedBy graph id target := by
  rw [directProducts, mem_toFinset, mem_filterMap]
  refine exists_congr fun edge => and_congr_right fun _ => ?_
  unfold generatedTarget
  split
  · rename_i hkind
    exact ⟨fun h => (by cases h), fun h => absurd h.1 hkind⟩
  · rename_i hkind
    rw [ne_eq, not_not] at hkind
    split
    · rename_i definition hfrom
      rw [hfrom]
      split
      · rename_i hindex
        have hid : definition = id := by
          cases definition
          cases id
          cases hindex
          rfl
        exact ⟨fun h => ⟨hkind, by rw [hid], Option.some.inj h⟩, fun h => congrArg some h.2.2⟩
      · rename_i hindex
        refine ⟨fun h => (by cases h), fun h => ?_⟩
        cases h.2.1
        exact absurd rfl hindex
    · rename_i hfrom
      exact ⟨fun h => (by cases h), fun h => absurd h.2.1 (hfrom id)⟩

/-- The list of targets names a producer if it is the only target. -/
theorem onlyProducer_ok {targets : Finset GraphNode} :
    onlyProducer (ascending targets) = .ok producer ↔
      ∀ target, target ∈ targets ↔ target = .expansion producer := by
  have hok : ∀ {l : List GraphNode}, onlyProducer l = .ok producer ↔ l = [.expansion producer] := by
    intro l
    constructor
    · intro h
      unfold onlyProducer at h
      split at h
      · cases h
        rfl
      · cases h
    · rintro rfl
      rfl
  rw [hok]
  constructor
  · intro h target
    rw [← mem_ascending, h, mem_singleton]
  · intro h
    have htargets : targets = {.expansion producer} := by
      ext target
      rw [h, Finset.mem_singleton]
    obtain ⟨target, hlist⟩ := length_eq_one_iff.mp
      ((length_ascending targets).trans (by rw [htargets, Finset.card_singleton]))
    have hmem : target ∈ targets := mem_ascending.mp (by rw [hlist, mem_singleton])
    rw [hlist, (h target).mp hmem]

/-- The step at a definition that a walk has not refused. -/
theorem producerStep_of_get
    (hget : definitionOf graph.definitions.definitions id = some definition) :
    (IsExpanded definition → producerStep graph id.index =
      .stop (onlyProducer (ascending (directProducts graph id.index)))) ∧
    (IsCompilerMade definition → ∀ parent, definition.parent = some parent →
      ∀ above, definitionOf graph.definitions.definitions parent = some above →
      producerStep graph id.index = .up parent.index) := by
  obtain ⟨hat, hid⟩ := definitionOf_eq_some.mp hget
  have hindex : ¬definition.id.index ≠ id.index := not_not.mpr (congrArg _ hid)
  unfold producerStep
  rw [hat]
  dsimp only
  rw [if_neg hindex]
  constructor
  · rintro ⟨invocation, range, role, ordinal, horigin⟩
    rw [horigin]
  · intro hmade parent hparent above habove
    rcases hmade with ⟨role, ordinal, horigin⟩ | ⟨role, ordinal, horigin⟩
    · rw [horigin, hparent]
      dsimp only
      rw [habove]
      rfl
    · rw [horigin, hparent]
      dsimp only
      rw [habove]
      rfl

theorem producerStep_stop (h : producerStep graph current = .stop (.ok producer)) :
    ∃ definition, definitionOf graph.definitions.definitions ⟨current⟩ = some definition ∧
      IsExpanded definition ∧
      onlyProducer (ascending (directProducts graph current)) = .ok producer := by
  unfold producerStep at h
  split at h
  · cases h
  · rename_i definition hat
    split at h
    · cases h
    · rename_i hindex
      have hget : definitionOf graph.definitions.definitions ⟨current⟩ = some definition :=
        definitionOf_eq_some.mpr ⟨hat, by rw [← not_not.mp hindex]⟩
      split at h
      · rename_i horigin
        exact ⟨definition, hget, ⟨_, _, _, _, horigin⟩, WalkStep.stop.inj h⟩
      · split at h
        · cases h
        · split at h <;> cases h
      · split at h
        · cases h
        · split at h <;> cases h
      · cases h

theorem producerStep_up {current next : Nat} (h : producerStep graph current = .up next) :
    ∃ definition parent, definitionOf graph.definitions.definitions ⟨current⟩ = some definition ∧
      IsCompilerMade definition ∧ definition.parent = some parent ∧ parent.index = next := by
  unfold producerStep at h
  split at h
  · cases h
  · rename_i definition hat
    split at h
    · cases h
    · rename_i hindex
      have hget : definitionOf graph.definitions.definitions ⟨current⟩ = some definition :=
        definitionOf_eq_some.mpr ⟨hat, by rw [← not_not.mp hindex]⟩
      split at h
      · cases h
      · rename_i horigin
        split at h
        · cases h
        · rename_i parent hparent
          split at h
          · cases h
          · exact ⟨definition, parent, hget, .inl ⟨_, _, horigin⟩, hparent, WalkStep.up.inj h⟩
      · rename_i horigin
        split at h
        · cases h
        · rename_i parent hparent
          split at h
          · cases h
          · exact ⟨definition, parent, hget, .inr ⟨_, _, horigin⟩, hparent, WalkStep.up.inj h⟩
      · cases h

theorem lt_of_definitionOf {definitions : List Definition}
    (h : definitionOf definitions id = some definition) : id.index < definitions.length :=
  (List.getElem?_eq_some_iff.mp (definitionOf_eq_some.mp h).1).1

/-- A walk finds the producer. -/
theorem producerOutcome_ok :
    ProducerOutcome graph id.index (.ok producer) ↔ IsProducer graph producer id := by
  constructor
  · rintro (h | ⟨-, h⟩)
    · generalize hvalue : (Except.ok producer : Except RetentionError ExpansionId) = value at h
      generalize hindex : id.index = current at h
      induction h generalizing id with
      | out hout =>
        subst hvalue
        unfold beyond at hout
        split at hout <;> cases hout
      | stop _ hstep =>
        subst hvalue hindex
        obtain ⟨definition, hget, horigin, honly⟩ := producerStep_stop hstep
        exact .expanded hget horigin fun target => by
          rw [← mem_directProducts, onlyProducer_ok.mp honly]
      | up _ hstep _ ih =>
        subst hindex
        obtain ⟨definition, parent, hget, hmade, hparent, hnext⟩ := producerStep_up hstep
        exact .inherited hget hmade hparent (ih hvalue hnext)
    · cases h
  · intro h
    refine .inl ?_
    induction h with
    | @expanded id definition hget horigin honly =>
      have hstep := (producerStep_of_get hget).1 horigin
      have hok : onlyProducer (ascending (directProducts graph id.index)) = .ok producer :=
        onlyProducer_ok.mpr fun target => by rw [mem_directProducts, honly]
      rw [hok] at hstep
      exact .stop (beyond_eq_none.mpr (lt_of_definitionOf hget)) hstep
    | @inherited id parent definition hget hmade hparent habove ih =>
      obtain ⟨above, hgetAbove⟩ := habove.exists_definition
      have hstep := (producerStep_of_get hget).2 hmade parent hparent above hgetAbove
      exact .up (beyond_eq_none.mpr (lt_of_definitionOf hget)) hstep ih

/-- The producers are the outcomes, in whatever order the walks start. -/
theorem resolveProducers_outcome
    (hstarts : ∀ b < graph.definitions.definitions.length, b ∈ starts) :
    (resolveProducers graph starts).length = graph.definitions.definitions.length ∧
      ∀ b < graph.definitions.definitions.length, ∃ resolved,
        (resolveProducers graph starts)[b]? = some resolved ∧ ProducerOutcome graph b resolved := by
  have key : ∀ (rest done : List Nat) (producers : List (Option _)),
      Filled (ProducerOutcome graph) graph.definitions.definitions.length done producers →
      Filled (ProducerOutcome graph) graph.definitions.definitions.length (done ++ rest)
        (rest.foldl (resolveProducer graph) producers) := by
    intro rest
    induction rest with
    | nil =>
      intro done producers h
      rwa [append_nil]
    | cons start rest ih =>
      intro done producers h
      rw [foldl_cons, append_cons]
      exact ih _ _ h.resolveProducer
  have h := key starts [] _ Filled.start
  rw [nil_append] at h
  refine ⟨?_, fun b hb => h.getElem?_map hstarts _ hb⟩
  rw [resolveProducers, length_map, h.length]

end Producers

/-! ## Walks for parents -/

section Parents

variable {graph : DependencyGraph} {producers : List (Except RetentionError ExpansionId)}
  {producer : ExpansionId} {id : DefinitionId}

theorem isProducedBy_iff {index : Nat} :
    isProducedBy producers producer index = true ↔ producers[index]? = some (.ok producer) := by
  unfold isProducedBy
  split
  · rename_i found hfound
    rw [hfound, decide_eq_true_iff]
    exact ⟨fun h => by rw [h], fun h => by cases h; rfl⟩
  · rename_i hnone
    exact ⟨fun h => (by cases h), fun h => absurd h (hnone producer)⟩

/-- A definition with another producer ends a walk for this one. -/
def otherProducer (producers : List (Except RetentionError ExpansionId)) (producer : ExpansionId)
    (current : Nat) : Option (Except RetentionError IndexedMacroDefinitionParent) :=
  if !isProducedBy producers producer current then some (.error .invalidConstraint) else none

theorem otherProducer_eq_none : otherProducer producers producer current = none ↔
    producers[current]? = some (.ok producer) := by
  rw [← isProducedBy_iff]
  unfold otherProducer
  cases isProducedBy producers producer current <;> simp

/-- What a walk for a parent finds without any earlier walk. -/
abbrev ParentOutcome (graph : DependencyGraph)
    (producers : List (Except RetentionError ExpansionId)) (producer : ExpansionId) :
    Nat → Except RetentionError IndexedMacroDefinitionParent → Prop :=
  Outcome (otherProducer producers producer) (parentStep graph producers producer)
    (fun _ resolved => resolved) (.error .invalidConstraint)

theorem parentSeen_eq
    (parents : List (Option (Except RetentionError IndexedMacroDefinitionParent))) :
    parentSeen producers producer parents =
      seenOf (otherProducer producers producer)
        (fun current => parents[current]?.join.map (·.bind (forProducer producer)))
        (.error .invalidConstraint) := by
  funext path current
  unfold parentSeen seenOf otherProducer
  split
  · rfl
  · rw [Option.none_or]
    dsimp only
    cases parents[current]?.join <;> rfl

/-- The definition is subordinate. -/
def IsSubordinate (graph : DependencyGraph) (index : Nat) : Prop :=
  graph.definitions.definitions[index]?.bind macroDefinitionProductRole = some .subordinate

theorem parentStep_of_not_subordinate (h : ¬IsSubordinate graph current) :
    parentStep graph producers producer current = .stop (.error .invalidConstraint) := by
  unfold IsSubordinate at h
  unfold parentStep
  split
  · rfl
  · rename_i definition hat
    rw [hat, Option.bind_some] at h
    rw [if_pos h]

/-- A result is for the producer of the walk. -/
theorem parentStep_stop {parent : IndexedMacroDefinitionParent}
    (h : parentStep graph producers producer current = .stop (.ok parent)) :
    parent.producer = producer := by
  unfold parentStep at h
  split at h
  · cases h
  · split at h
    · cases h
    · split at h
      · cases h
      · split at h
        · cases h
        · split at h
          · cases h
            rfl
          · split at h
            · unfold foreignParent at h
              split at h
              · rename_i found _
                cases found <;> cases h
                rfl
              · cases h
            · split at h <;> cases h
              rfl

theorem ParentOutcome.producer_eq {parent : IndexedMacroDefinitionParent}
    (h : ParentOutcome graph producers producer current (.ok parent)) :
    parent.producer = producer := by
  rcases h with h | ⟨-, h⟩
  · generalize hvalue : (Except.ok parent : Except RetentionError _) = value at h
    induction h with
    | out hout =>
      subst hvalue
      unfold otherProducer at hout
      split at hout <;> cases hout
    | stop _ hstep =>
      subst hvalue
      exact parentStep_stop hstep
    | up _ _ _ ih => exact ih hvalue
  · cases h

/-- What stands in the table for a definition. -/
inductive ParentSettled (graph : DependencyGraph)
    (producers : List (Except RetentionError ExpansionId)) (index : Nat) :
    Except RetentionError IndexedMacroDefinitionParent → Prop
  | notSubordinate (h : ¬IsSubordinate graph index) :
      ParentSettled graph producers index (.error .invalidConstraint)
  | noProducer {error : RetentionError} (h : IsSubordinate graph index)
      (herror : producers[index]? = some (.error error)) :
      ParentSettled graph producers index (.error error)
  | walked {producer : ExpansionId} {resolved : Except RetentionError IndexedMacroDefinitionParent}
      (hproducer : producers[index]? = some (.ok producer))
      (houtcome : ParentOutcome graph producers producer index resolved) :
      ParentSettled graph producers index resolved

theorem ParentSettled.unique {index : Nat}
    {resolved resolved' : Except RetentionError IndexedMacroDefinitionParent}
    (h : ParentSettled graph producers index resolved)
    (h' : ParentSettled graph producers index resolved') : resolved = resolved' := by
  have hstop : ∀ {producer resolved}, ¬IsSubordinate graph index →
      producers[index]? = some (.ok producer) →
      ParentOutcome graph producers producer index resolved →
      resolved = .error .invalidConstraint :=
    fun hsub hproducer houtcome => houtcome.unique
      (outcome_stop (otherProducer_eq_none.mpr hproducer) (parentStep_of_not_subordinate hsub))
  cases h with
  | notSubordinate h =>
    cases h' with
    | notSubordinate => rfl
    | noProducer h' => exact absurd h' h
    | walked hproducer houtcome => exact (hstop h hproducer houtcome).symm
  | noProducer h herror =>
    cases h' with
    | notSubordinate h' => exact absurd h h'
    | noProducer _ herror' =>
      cases herror.symm.trans herror'
      rfl
    | walked hproducer => cases herror.symm.trans hproducer
  | walked hproducer houtcome =>
    cases h' with
    | notSubordinate h' => exact hstop h' hproducer houtcome
    | noProducer _ herror => cases herror.symm.trans hproducer
    | walked hproducer' houtcome' =>
      cases hproducer.symm.trans hproducer'
      exact houtcome.unique houtcome'

/-- What a walk takes over from the table is the outcome of the definition. -/
theorem ParentSettled.outcome {index : Nat}
    {resolved : Except RetentionError IndexedMacroDefinitionParent}
    (h : ParentSettled graph producers index resolved)
    (hproducer : producers[index]? = some (.ok producer)) :
    ParentOutcome graph producers producer index (resolved.bind (forProducer producer)) := by
  cases h with
  | notSubordinate h =>
    exact outcome_stop (otherProducer_eq_none.mpr hproducer) (parentStep_of_not_subordinate h)
  | noProducer _ herror => cases herror.symm.trans hproducer
  | walked hproducer' houtcome =>
    cases hproducer.symm.trans hproducer'
    cases resolved with
    | error e => exact houtcome
    | ok parent =>
      have hself : (Except.ok parent).bind (forProducer producer) =
          (.ok parent : Except RetentionError _) := if_pos houtcome.producer_eq
      rw [hself]
      exact houtcome

theorem Filled.resolveParent {start : Nat}
    {parents : List (Option (Except RetentionError IndexedMacroDefinitionParent))}
    (hlength : producers.length = graph.definitions.definitions.length)
    (h : Filled (ParentSettled graph producers) graph.definitions.definitions.length done parents) :
    Filled (ParentSettled graph producers) graph.definitions.definitions.length (done ++ [start])
      (resolveParent graph producers parents start) := by
  have hset : ∀ resolved, ParentSettled graph producers start resolved →
      Filled (ParentSettled graph producers) graph.definitions.definitions.length (done ++ [start])
        (parents.set start (some resolved)) := fun resolved hresolved => by
    refine h.step (by rw [length_set, h.length]) (fun b => ?_) fun hlt => ⟨resolved, ?_⟩
    · by_cases hb : b = start
      · subst hb
        by_cases hlt : b < parents.length
        · exact .inr ⟨resolved, getElem?_set_self hlt, hresolved⟩
        · exact .inl (by rw [set_eq_of_length_le (not_lt.mp hlt)])
      · exact .inl (getElem?_set_ne (Ne.symm hb))
    · rw [getElem?_set_self (h.length ▸ hlt)]
      rfl
  unfold ItemDependencies.resolveParent
  cases hknown : parents[start]?.join with
  | some value => exact h.step h.length (fun b => .inl rfl) fun _ => ⟨value, hknown⟩
  | none =>
    dsimp only
    split
    · rename_i hrole
      exact hset _ (.notSubordinate hrole)
    · rename_i hrole
      cases hproducer : producers[start]? with
      | none =>
        refine h.step h.length (fun b => .inl rfl) fun hlt => ?_
        rw [getElem?_eq_none_iff, hlength] at hproducer
        exact absurd hlt (by omega)
      | some found =>
        cases found with
        | error error => exact hset _ (.noProducer (not_not.mp hrole) hproducer)
        | ok producer =>
          dsimp only
          unfold walkParent
          rw [parentSeen_eq]
          generalize hclimb : climbPath _ _ _ _ _ _ = found
          obtain ⟨value, path⟩ := found
          dsimp only
          have hrange : ∀ b, otherProducer producers producer b = none → b < parents.length :=
            fun b hb => by
              rw [h.length, ← hlength]
              exact (List.getElem?_eq_some_iff.mp (otherProducer_eq_none.mp hb)).1
          obtain ⟨hmem, hpath, hother⟩ := climbPath_settlePath hrange (fun _ _ => rfl)
            (fun b w hb hw => by
              obtain ⟨resolved, hresolved, rfl⟩ := Option.map_eq_some_iff.mp hw
              exact (h.sound b resolved hresolved).outcome (otherProducer_eq_none.mp hb))
            (by rw [h.length]; omega) (otherProducer_eq_none.mpr hproducer)
            (by rw [hknown]; rfl) hclimb
          refine h.step (by rw [length_settlePath, h.length]) (fun b => ?_) fun _ => ?_
          · by_cases hb : b ∈ path
            · obtain ⟨hout, w, hw, houtcome⟩ := hpath b hb
              exact .inr ⟨w, hw, .walked (otherProducer_eq_none.mp hout) houtcome⟩
            · exact .inl (hother b hb)
          · obtain ⟨-, w, hw, -⟩ := hpath start hmem
            exact ⟨w, by rw [hw]; rfl⟩

theorem resolveParents_settled {starts : List Nat}
    (hlength : producers.length = graph.definitions.definitions.length)
    (hstarts : ∀ b < graph.definitions.definitions.length, b ∈ starts) :
    (resolveParents graph producers starts).length = graph.definitions.definitions.length ∧
      ∀ b < graph.definitions.definitions.length, ∃ resolved,
        (resolveParents graph producers starts)[b]? = some resolved ∧
          ParentSettled graph producers b resolved := by
  have key : ∀ (rest done : List Nat) (parents : List (Option _)),
      Filled (ParentSettled graph producers) graph.definitions.definitions.length done parents →
      Filled (ParentSettled graph producers) graph.definitions.definitions.length (done ++ rest)
        (rest.foldl (resolveParent graph producers) parents) := by
    intro rest
    induction rest with
    | nil =>
      intro done parents h
      rwa [append_nil]
    | cons start rest ih =>
      intro done parents h
      rw [foldl_cons, append_cons]
      exact ih _ _ (h.resolveParent hlength)
  have h := key starts [] _ Filled.start
  rw [nil_append] at h
  refine ⟨?_, fun b hb => h.getElem?_map hstarts _ hb⟩
  rw [resolveParents, length_map, h.length]

/-- The definition is a subordinate of the producer, and stands below the other one. -/
def StandsBelow (graph : DependencyGraph) (producer : ExpansionId) (id parent : DefinitionId)
    (above : Definition) : Prop :=
  ∃ definition, definitionOf graph.definitions.definitions id = some definition ∧
    macroDefinitionProductRole definition = some .subordinate ∧
    definition.parent = some parent ∧
    definitionOf graph.definitions.definitions parent = some above ∧
    IsProducer graph producer id

/-- The nearest root of the producer above a definition, if only subordinates of the producer are
between them, and otherwise the first definition above that is no product or has another
producer. -/
inductive IsMacroParent (graph : DependencyGraph) (producer : ExpansionId) :
    DefinitionId → MacroDefinitionParent → Prop
  | root {id parent : DefinitionId} {above : Definition}
      (h : StandsBelow graph producer id parent above)
      (hrole : macroDefinitionProductRole above = some .root)
      (hsame : IsProducer graph producer parent) : IsMacroParent graph producer id (.root parent)
  | noProduct {id parent : DefinitionId} {above : Definition}
      (h : StandsBelow graph producer id parent above)
      (hrole : macroDefinitionProductRole above = none) :
      IsMacroParent graph producer id (.owner parent)
  | otherProducer {id parent : DefinitionId} {above : Definition} {other : ExpansionId}
      (h : StandsBelow graph producer id parent above)
      (hrole : macroDefinitionProductRole above ≠ none)
      (hother : IsProducer graph other parent) (hne : other ≠ producer) :
      IsMacroParent graph producer id (.owner parent)
  | subordinate {id parent : DefinitionId} {above : Definition} {result : MacroDefinitionParent}
      (h : StandsBelow graph producer id parent above)
      (hrole : macroDefinitionProductRole above = some .subordinate)
      (habove : IsMacroParent graph producer parent result) :
      IsMacroParent graph producer id result

theorem IsMacroParent.isProducer (h : IsMacroParent graph producer id result) :
    IsProducer graph producer id := by
  cases h with
  | root h => exact h.choose_spec.2.2.2.2
  | noProduct h => exact h.choose_spec.2.2.2.2
  | otherProducer h => exact h.choose_spec.2.2.2.2
  | subordinate h => exact h.choose_spec.2.2.2.2

section Spec

variable (hproducers : ∀ id producer,
  producers[id.index]? = some (.ok producer) ↔ IsProducer graph producer id)

include hproducers in
/-- What a step does at a definition that stands below another one. -/
theorem StandsBelow.step {parent : DefinitionId} {above : Definition}
    (h : StandsBelow graph producer id parent above) :
    producers[id.index]? = some (.ok producer) ∧
      (macroDefinitionProductRole above = none →
        parentStep graph producers producer id.index = .stop (.ok ⟨producer, .owner parent⟩)) ∧
      (∀ other, macroDefinitionProductRole above ≠ none → IsProducer graph other parent →
        other ≠ producer →
        parentStep graph producers producer id.index = .stop (.ok ⟨producer, .owner parent⟩)) ∧
      (macroDefinitionProductRole above = some .root → IsProducer graph producer parent →
        parentStep graph producers producer id.index = .stop (.ok ⟨producer, .root parent⟩)) ∧
      (macroDefinitionProductRole above = some .subordinate → IsProducer graph producer parent →
        parentStep graph producers producer id.index = .up parent.index) := by
  obtain ⟨definition, hget, hrole, hparent, habove, hproducer⟩ := h
  refine ⟨(hproducers id producer).mpr hproducer, ?_⟩
  have hsame : IsProducer graph producer parent →
      ¬(!isProducedBy producers producer parent.index) = true := fun h => by
    rw [isProducedBy_iff.mpr ((hproducers parent producer).mpr h)]
    exact Bool.false_ne_true
  unfold parentStep
  rw [(definitionOf_eq_some.mp hget).1]
  dsimp only
  rw [if_neg (not_not.mpr hrole), hparent]
  dsimp only
  rw [habove]
  dsimp only
  refine ⟨fun hnone => ?_, fun other hne hother hdiff => ?_, fun hroot h => ?_, fun hsub h => ?_⟩
  · rw [hnone]
  · have hother' := (hproducers parent other).mpr hother
    have hnot : (!isProducedBy producers producer parent.index) = true := by
      rw [Bool.not_eq_true', Bool.eq_false_iff]
      intro h
      cases hother'.symm.trans (isProducedBy_iff.mp h)
      exact hdiff rfl
    obtain ⟨role, hrole⟩ := Option.ne_none_iff_exists'.mp hne
    rw [hrole]
    dsimp only
    rw [if_pos hnot, foreignParent, hother']
    rfl
  · rw [hroot]
    dsimp only
    rw [if_neg (hsame h)]
  · rw [hsub]
    dsimp only
    rw [if_neg (hsame h)]

include hproducers in
/-- A walk that stops with a parent has seen what the definition stands below. -/
theorem exists_standsBelow (hcurrent : producers[current]? = some (.ok producer))
    (result : MacroDefinitionParent) :
    (parentStep graph producers producer current = .stop (.ok ⟨producer, result⟩) →
      IsMacroParent graph producer ⟨current⟩ result) ∧
    ∀ next, parentStep graph producers producer current = .up next →
      ∃ above, StandsBelow graph producer ⟨current⟩ ⟨next⟩ above ∧
        macroDefinitionProductRole above = some .subordinate := by
  have hproducer : IsProducer graph producer ⟨current⟩ :=
    (hproducers ⟨current⟩ producer).mp hcurrent
  obtain ⟨definition, hget⟩ := hproducer.exists_definition
  unfold parentStep
  rw [(definitionOf_eq_some.mp hget).1]
  dsimp only
  split
  · exact ⟨fun h => (by cases h), fun next h => (by cases h)⟩
  · rename_i hrole
    split
    · exact ⟨fun h => (by cases h), fun next h => (by cases h)⟩
    · rename_i parent hparent
      split
      · exact ⟨fun h => (by cases h), fun next h => (by cases h)⟩
      · rename_i above habove
        have hbelow : StandsBelow graph producer ⟨current⟩ parent above :=
          ⟨definition, hget, not_not.mp hrole, hparent, habove, hproducer⟩
        split
        · rename_i hnone
          refine ⟨fun h => ?_, fun next h => (by cases h)⟩
          cases h
          exact .noProduct hbelow hnone
        · rename_i role hsome
          split
          · rename_i hother
            refine ⟨fun h => ?_, fun next h => (by cases h)⟩
            have h := WalkStep.stop.inj h
            unfold foreignParent at h
            split at h
            · rename_i found hfound
              cases found with
              | error e => cases h
              | ok other =>
                cases h
                refine .otherProducer hbelow (by rw [hsome]; exact Option.some_ne_none role)
                  ((hproducers parent other).mp hfound) fun heq => ?_
                rw [heq, ← isProducedBy_iff] at hfound
                rw [hfound] at hother
                exact Bool.false_ne_true hother
            · cases h
          · rename_i hsame
            rw [Bool.not_eq_true', Bool.not_eq_false] at hsame
            have hsame := (hproducers parent producer).mp (isProducedBy_iff.mp hsame)
            split
            · refine ⟨fun h => ?_, fun next h => (by cases h)⟩
              cases h
              exact .root hbelow hsome hsame
            · refine ⟨fun h => (by cases h), fun next h => ?_⟩
              cases h
              exact ⟨above, hbelow, hsome⟩

include hproducers in
/-- A walk finds the parent. -/
theorem parentOutcome_ok :
    producers[id.index]? = some (.ok producer) ∧
        ParentOutcome graph producers producer id.index (.ok ⟨producer, result⟩) ↔
      IsMacroParent graph producer id result := by
  constructor
  · rintro ⟨-, h | ⟨-, h⟩⟩
    · generalize hvalue : (Except.ok ⟨producer, result⟩ :
        Except RetentionError IndexedMacroDefinitionParent) = value at h
      generalize hindex : id.index = current at h
      induction h generalizing id with
      | out hout =>
        subst hvalue
        unfold otherProducer at hout
        split at hout <;> cases hout
      | stop hno hstep =>
        subst hvalue hindex
        exact (exists_standsBelow hproducers (otherProducer_eq_none.mp hno) result).1 hstep
      | up hno hstep _ ih =>
        subst hindex
        obtain ⟨above, hbelow, hrole⟩ :=
          (exists_standsBelow hproducers (otherProducer_eq_none.mp hno) result).2 _ hstep
        exact .subordinate hbelow hrole (ih hvalue rfl)
    · cases h
  · intro h
    refine ⟨(hproducers id producer).mpr h.isProducer, .inl ?_⟩
    induction h with
    | root h hrole hsame =>
      obtain ⟨hat, -, -, hroot, -⟩ := h.step hproducers
      exact .stop (otherProducer_eq_none.mpr hat) (hroot hrole hsame)
    | noProduct h hrole =>
      obtain ⟨hat, hnone, -⟩ := h.step hproducers
      exact .stop (otherProducer_eq_none.mpr hat) (hnone hrole)
    | otherProducer h hrole hother hne =>
      obtain ⟨hat, -, hforeign, -⟩ := h.step hproducers
      exact .stop (otherProducer_eq_none.mpr hat) (hforeign _ hrole hother hne)
    | subordinate h hrole habove ih =>
      obtain ⟨hat, -, -, -, hup⟩ := h.step hproducers
      exact .up (otherProducer_eq_none.mpr hat) (hup hrole habove.isProducer) ih

end Spec

end Parents

/-! ## The index -/

namespace DefinitionMacroProducerIndex

section Index

variable {graph : DependencyGraph} {starts : List Nat}

theorem producers_getElem? (hstarts : ∀ b < graph.definitions.definitions.length, b ∈ starts)
    (id : DefinitionId) (producer : ExpansionId) :
    (newInOrder graph starts).producers[id.index]? = some (.ok producer) ↔
      IsProducer graph producer id := by
  obtain ⟨hlength, houtcome⟩ := resolveProducers_outcome hstarts
  rw [← producerOutcome_ok]
  constructor
  · intro h
    have hlt := (List.getElem?_eq_some_iff.mp h).1
    obtain ⟨resolved, hresolved, hout⟩ := houtcome id.index (hlength ▸ hlt)
    cases h.symm.trans hresolved
    exact hout
  · intro h
    obtain ⟨definition, hget⟩ := (producerOutcome_ok.mp h).exists_definition
    obtain ⟨resolved, hresolved, hout⟩ := houtcome id.index (lt_of_definitionOf hget)
    rw [h.unique hout]
    exact hresolved

theorem parents_getElem? (hstarts : ∀ b < graph.definitions.definitions.length, b ∈ starts)
    (id : DefinitionId) (producer : ExpansionId) (result : MacroDefinitionParent) :
    (newInOrder graph starts).parents[id.index]? = some (.ok ⟨producer, result⟩) ↔
      IsMacroParent graph producer id result := by
  have hproducers := producers_getElem? hstarts
  have hlength := (resolveProducers_outcome hstarts).1
  obtain ⟨hlength', hsettled⟩ := resolveParents_settled hlength hstarts
  constructor
  · intro h
    have hlt := (List.getElem?_eq_some_iff.mp h).1
    obtain ⟨resolved, hresolved, hout⟩ := hsettled id.index (hlength' ▸ hlt)
    cases h.symm.trans hresolved
    cases hout with
    | walked hproducer houtcome =>
      cases houtcome.producer_eq
      exact (parentOutcome_ok hproducers).mp ⟨hproducer, houtcome⟩
  · intro h
    obtain ⟨hproducer, houtcome⟩ := (parentOutcome_ok hproducers).mpr h
    obtain ⟨definition, hget⟩ := h.isProducer.exists_definition
    obtain ⟨resolved, hresolved, hout⟩ := hsettled id.index (lt_of_definitionOf hget)
    rw [(ParentSettled.walked hproducer houtcome).unique hout]
    exact hresolved

theorem producer_ok_iff {index : DefinitionMacroProducerIndex} :
    index.producer id = .ok producer ↔
      index.producers[id.index]? = some (.ok producer) := by
  unfold DefinitionMacroProducerIndex.producer
  cases index.producers[id.index]? with
  | none => exact ⟨fun h => (by cases h), fun h => (by cases h)⟩
  | some found => exact ⟨congrArg some, Option.some.inj⟩

theorem parent_ok_iff {index : DefinitionMacroProducerIndex} :
    index.parent producer id = .ok result ↔
      index.parents[id.index]? = some (.ok ⟨producer, result⟩) := by
  unfold DefinitionMacroProducerIndex.parent
  cases index.parents[id.index]? with
  | none => exact ⟨fun h => (by cases h), fun h => (by cases h)⟩
  | some found =>
    cases found with
    | error e => exact ⟨fun h => (by cases h), fun h => (by cases h)⟩
    | ok found =>
      obtain ⟨producer', parent⟩ := found
      show (if producer' = producer then _ else _) = _ ↔ _
      split
      · rename_i heq
        subst heq
        exact ⟨fun h => (by cases h; rfl), fun h => (by cases h; rfl)⟩
      · rename_i hne
        refine ⟨fun h => (by cases h), fun h => ?_⟩
        cases h
        exact absurd rfl hne

/-- Tables with the same outcomes are equal. -/
theorem eq_of_outcomes {γ : Type} {outcome : Nat → γ → Prop} {n : Nat} {l l' : List γ}
    (hunique : ∀ b value value', outcome b value → outcome b value' → value = value')
    (h : l.length = n ∧ ∀ b < n, ∃ value, l[b]? = some value ∧ outcome b value)
    (h' : l'.length = n ∧ ∀ b < n, ∃ value, l'[b]? = some value ∧ outcome b value) : l = l' := by
  refine ext_getElem? fun b => ?_
  by_cases hb : b < n
  · obtain ⟨value, hvalue, hout⟩ := h.2 b hb
    obtain ⟨value', hvalue', hout'⟩ := h'.2 b hb
    rw [hvalue, hvalue', hunique b value value' hout hout']
  · rw [getElem?_eq_none (by omega), getElem?_eq_none (by omega)]

/-- The order in which the walks start leaves no trace, the kinds of errors included. -/
theorem newInOrder_eq {starts' : List Nat}
    (hstarts : ∀ b < graph.definitions.definitions.length, b ∈ starts)
    (hstarts' : ∀ b < graph.definitions.definitions.length, b ∈ starts') :
    newInOrder graph starts = newInOrder graph starts' := by
  have hunique : ∀ b resolved resolved', ProducerOutcome graph b resolved →
      ProducerOutcome graph b resolved' → resolved = resolved' := fun _ _ _ => Outcome.unique
  have hproducers : resolveProducers graph starts = resolveProducers graph starts' :=
    eq_of_outcomes hunique (resolveProducers_outcome hstarts) (resolveProducers_outcome hstarts')
  have hlength := (resolveProducers_outcome hstarts').1
  unfold newInOrder
  rw [hproducers]
  dsimp only
  have hunique' : ∀ b resolved resolved',
      ParentSettled graph (resolveProducers graph starts') b resolved →
      ParentSettled graph (resolveProducers graph starts') b resolved' → resolved = resolved' :=
    fun _ _ _ => ParentSettled.unique
  have hparents := eq_of_outcomes hunique' (resolveParents_settled hlength hstarts)
    (resolveParents_settled hlength hstarts')
  rw [hparents]

end Index

/-- For every graph the index knows exactly the producers and the parents that walks up the parents
find, whatever the order in which the definitions are visited. -/
theorem new_eq_walks (graph : DependencyGraph) :
    (∀ id producer, (new graph).producer id = .ok producer ↔ IsProducer graph producer id) ∧
      (∀ producer id result, (new graph).parent producer id = .ok result ↔
        IsMacroParent graph producer id result) ∧
      ∀ starts, (∀ b < graph.definitions.definitions.length, b ∈ starts) →
        newInOrder graph starts = new graph := by
  have hall : ∀ b < graph.definitions.definitions.length,
      b ∈ List.range graph.definitions.definitions.length := fun b hb => mem_range.mpr hb
  refine ⟨fun id producer => ?_, fun producer id result => ?_, fun starts hstarts => ?_⟩
  · rw [producer_ok_iff]
    exact producers_getElem? hall id producer
  · rw [parent_ok_iff]
    exact parents_getElem? hall id producer result
  · exact newInOrder_eq hstarts hall

end DefinitionMacroProducerIndex

end ItemDependencies
