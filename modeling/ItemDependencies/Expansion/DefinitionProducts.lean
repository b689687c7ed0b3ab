import ItemDependencies.Expansion.OutputClasses
import ItemDependencies.Library.MemoWalk

/-!
# The products of an expansion

The definitions that an expansion generates are its products, each filed under the output of the
syntax node that it belongs to, or members of the definition in which the expansion stands.
-/

namespace ItemDependencies

open Library List

inductive MacroDefinitionProductRole where
  | root
  | subordinate
deriving DecidableEq

/-- Whether a generated definition is a syntax node of its own. -/
def macroDefinitionProductRole (definition : Definition) : Option MacroDefinitionProductRole :=
  match definition.origin with
  | .expanded _ _ (some _) _ | .compilerGenerated _ _ => some .subordinate
  | .written .. | .injected .. => none
  | .expanded _ _ none _ =>
    match definition.kind with
    | .crateRoot => none
    | .module | .function | .static | .const | .typeAlias | .struct | .enum | .union
    | .traitDefinition | .traitAlias | .associatedType | .associatedFunction | .associatedConst
    | .impl | .externCrate | .use | .foreignModule | .foreignType | .globalAsm
    | .macroDefinition => some .root
    | .opaqueType | .variant | .field | .constructor | .typeParameter | .constParameter
    | .lifetimeParameter | .closure | .coroutine | .coroutineClosure | .syntheticCoroutineBody
    | .anonymousConst | .inlineConst => some .subordinate

/-- The compiler made the definition, which has no tokens of its own. -/
def mayInheritOutput (definition : Definition) : Bool :=
  match definition.origin with
  | .compilerGenerated _ _ | .expanded _ _ (some _) _ =>
    macroDefinitionProductRole definition = some .subordinate
  | _ => false

inductive DefinitionProductContainer where
  | root (id : DefinitionId)
  | owner (id : DefinitionId)
deriving DecidableEq

structure ClassifiedDefinitionProducts where
  products : List ObservedProduct
  ownerMembers : List ObservedProduct
  owner : Option DefinitionId
deriving DecidableEq

def definitionOf (definitions : List Definition) (id : DefinitionId) : Option Definition :=
  definitions[id.index]?.filter fun definition => definition.id = id

section Classify

variable (definitions : List Definition) (generated : Finset DefinitionId)
  (observedOutputs : SortedMap DefinitionId MacroOutputRange)

/-- A definition without an output of its own has that of its parent. -/
def outputStep (current : DefinitionId) : Option (WalkStep DefinitionId MacroOutputRange) :=
  match definitionOf definitions current with
  | none => none
  | some definition =>
    if current ∉ generated ∨ !mayInheritOutput definition then none
    else definition.parent.map .up

def rootContainer (containers : SortedMap DefinitionId DefinitionProductContainer)
    (id : DefinitionId) :
    Except ExpansionError (SortedMap DefinitionId DefinitionProductContainer) :=
  match definitionOf definitions id with
  | none => throw .incompleteOrigin
  | some definition =>
    if macroDefinitionProductRole definition = some .root then
      return containers.insert id (.root id)
    else return containers

/-- A definition belongs where its parent does, unless it is a root or another expansion made
it. -/
def containerStep (current : DefinitionId) :
    Option (WalkStep DefinitionId DefinitionProductContainer) :=
  match definitionOf definitions current with
  | none => none
  | some definition =>
    if current ∉ generated then some (.stop (.owner current))
    else
      match macroDefinitionProductRole definition with
      | none => none
      | some .root => some (.stop (.root current))
      | some .subordinate => definition.parent.map .up

def fileDefinition (outputs : SortedMap DefinitionId MacroOutputRange)
    (containers : SortedMap DefinitionId DefinitionProductContainer)
    (filed : ClassifiedDefinitionProducts) (id : DefinitionId) :
    Except ExpansionError ClassifiedDefinitionProducts :=
  match outputs.get id with
  | none => throw .incompleteOrigin
  | some output =>
    match containers.get id with
    | none => throw .incompleteOrigin
    | some (.root root) =>
      match outputs.get root with
      | none => throw .incompleteOrigin
      | some rootOutput =>
        if !rootOutput.contains output then throw .incompleteOrigin
        else return { filed with products := filed.products ++ [⟨rootOutput, .definition id⟩] }
    | some (.owner memberOwner) =>
      if filed.owner.any (· ≠ memberOwner) then throw .incompleteOrigin
      else return {
        filed with
        owner := some memberOwner
        ownerMembers := filed.ownerMembers ++ [⟨output, .definition id⟩] }

/-- The products are sorted by their output, the members by their node. -/
def sortFiled (filed : ClassifiedDefinitionProducts) :
    Except ExpansionError ClassifiedDefinitionProducts :=
  let ownerMembers := filed.ownerMembers.insertionSort fun a b => a.product ≤ b.product
  if ¬ownerMembers.IsChain fun a b => a.product < b.product then throw .incompleteOrigin
  else return {
    filed with
    products := filed.products.insertionSort fun a b =>
      toLex (a.output, a.product) ≤ toLex (b.output, b.product)
    ownerMembers := ownerMembers }

/-- Classify the definitions in the order of the visits.  No walk passes more nodes than there are
generated definitions. -/
def classifyVisits (visits : List DefinitionId) :
    Except ExpansionError ClassifiedDefinitionProducts := do
  if observedOutputs.keys.any (· ∉ generated) then throw .incompleteOrigin
  else
    let resolvedOutputs ← visits.foldlM
      (memoize .incompleteOrigin (outputStep definitions generated) (generated.card + 1))
      observedOutputs
    let roots ← visits.foldlM (rootContainer definitions) .empty
    let containers ← visits.foldlM
      (memoize .incompleteOrigin (containerStep definitions generated) (generated.card + 1)) roots
    let filed ← visits.foldlM (fileDefinition resolvedOutputs containers) ⟨[], [], none⟩
    sortFiled filed

def classifyDefinitionProducts : Except ExpansionError ClassifiedDefinitionProducts :=
  classifyVisits definitions generated observedOutputs (ascending generated)

end Classify

/-! ## The parent chain -/

section Chain

variable (definitions : List Definition) (generated : Finset DefinitionId)
  (observedOutputs : SortedMap DefinitionId MacroOutputRange)

/-- The output of a definition is its own, or that of the nearest definition above it that has one,
with only generated definitions that the compiler made in between. -/
inductive HasOutput : DefinitionId → MacroOutputRange → Prop
  | observed {id : DefinitionId} {output : MacroOutputRange}
      (h : observedOutputs.get id = some output) : HasOutput id output
  | inherited {id parent : DefinitionId} {definition : Definition} {output : MacroOutputRange}
      (hno : observedOutputs.get id = none) (hid : id ∈ generated)
      (hdefinition : definitionOf definitions id = some definition)
      (hmay : mayInheritOutput definition = true) (hparent : definition.parent = some parent)
      (h : HasOutput parent output) : HasOutput id output

/-- A definition belongs to the nearest root from itself on up, or to the definition at which its
chain leaves the generated ones. -/
inductive HasContainer : DefinitionId → DefinitionProductContainer → Prop
  | root {id : DefinitionId} {definition : Definition} (hid : id ∈ generated)
      (hdefinition : definitionOf definitions id = some definition)
      (hrole : macroDefinitionProductRole definition = some .root) : HasContainer id (.root id)
  | owner {id : DefinitionId} {definition : Definition} (hid : id ∉ generated)
      (hdefinition : definitionOf definitions id = some definition) : HasContainer id (.owner id)
  | subordinate {id parent : DefinitionId} {definition : Definition}
      {container : DefinitionProductContainer} (hid : id ∈ generated)
      (hdefinition : definitionOf definitions id = some definition)
      (hrole : macroDefinitionProductRole definition = some .subordinate)
      (hparent : definition.parent = some parent) (h : HasContainer parent container) :
      HasContainer id container

variable {definitions generated observedOutputs} {id next : DefinitionId}
  {visits : List DefinitionId}

theorem outputStep_up : outputStep definitions generated id = some (.up next) ↔
    id ∈ generated ∧ ∃ definition, definitionOf definitions id = some definition ∧
      mayInheritOutput definition = true ∧ definition.parent = some next := by
  unfold outputStep
  cases hdefinition : definitionOf definitions id with
  | none => simp
  | some definition =>
    dsimp only
    split
    · rename_i hguard
      constructor
      · intro h
        cases h
      · rintro ⟨hid, _, h, hmay, -⟩
        cases h
        rcases hguard with hno | hno
        · exact absurd hid hno
        · rw [hmay] at hno
          cases hno
    · rename_i hguard
      rw [not_or, not_not, Bool.not_eq_true', Bool.not_eq_false] at hguard
      simp [hguard.1, hguard.2]

theorem outputStep_stop {output : MacroOutputRange} :
    outputStep definitions generated id ≠ some (.stop output) := by
  unfold outputStep
  cases definitionOf definitions id with
  | none => simp
  | some definition =>
    dsimp only
    split <;> simp

/-- The walks for outputs go along the parents. -/
theorem walksTo_output_iff {output : MacroOutputRange} :
    WalksTo observedOutputs (outputStep definitions generated) id output ↔
      HasOutput definitions generated observedOutputs id output := by
  constructor
  · intro h
    induction h with
    | out h => exact .observed h
    | stop _ h => exact absurd h outputStep_stop
    | up hno h _ ih =>
      obtain ⟨hid, definition, hdefinition, hmay, hparent⟩ := outputStep_up.mp h
      exact .inherited hno hid hdefinition hmay hparent ih
  · intro h
    induction h with
    | observed h => exact .out h
    | inherited hno hid hdefinition hmay hparent _ ih =>
      exact .up hno (outputStep_up.mpr ⟨hid, _, hdefinition, hmay, hparent⟩) ih

theorem containerStep_up : containerStep definitions generated id = some (.up next) ↔
    id ∈ generated ∧ ∃ definition, definitionOf definitions id = some definition ∧
      macroDefinitionProductRole definition = some .subordinate ∧
        definition.parent = some next := by
  unfold containerStep
  cases hdefinition : definitionOf definitions id with
  | none => simp
  | some definition =>
    dsimp only
    split
    · rename_i hid
      simp [hid]
    · rename_i hid
      rw [not_not] at hid
      cases hrole : macroDefinitionProductRole definition with
      | none => simp [hrole]
      | some role => cases role <;> simp [hid, hrole]

theorem containerStep_stop {container : DefinitionProductContainer} :
    containerStep definitions generated id = some (.stop container) ↔
      ∃ definition, definitionOf definitions id = some definition ∧
        (id ∉ generated ∧ container = .owner id ∨
          id ∈ generated ∧ macroDefinitionProductRole definition = some .root ∧
            container = .root id) := by
  unfold containerStep
  cases hdefinition : definitionOf definitions id with
  | none => simp
  | some definition =>
    dsimp only
    split
    · rename_i hid
      simp [hid, eq_comm]
    · rename_i hid
      rw [not_not] at hid
      cases hrole : macroDefinitionProductRole definition with
      | none => simp [hid, hrole]
      | some role => cases role <;> simp [hid, hrole, eq_comm]

/-- The roots are their own containers. -/
structure AreRoots (definitions : List Definition) (visited : List DefinitionId)
    (roots : SortedMap DefinitionId DefinitionProductContainer) : Prop where
  known : ∀ id ∈ visited, ∃ definition, definitionOf definitions id = some definition
  get : ∀ id container, roots.get id = some container ↔ id ∈ visited ∧ container = .root id ∧
    ∃ definition, definitionOf definitions id = some definition ∧
      macroDefinitionProductRole definition = some .root

theorem rootContainers_ok {roots : SortedMap DefinitionId DefinitionProductContainer}
    (h : visits.foldlM (rootContainer definitions) .empty = .ok roots) :
    AreRoots definitions visits roots := by
  refine foldlM_ok (P := AreRoots definitions) (fun done id s t hs hok => ?_) ⟨by simp, by simp⟩ h
  unfold rootContainer at hok
  cases hdefinition : definitionOf definitions id with
  | none => rw [hdefinition] at hok; cases hok
  | some definition =>
    rw [hdefinition] at hok
    dsimp only at hok
    refine ⟨fun other hother => ?_, fun other container => ?_⟩
    · rcases mem_append.mp hother with hother | hother
      · exact hs.known other hother
      · cases mem_singleton.mp hother
        exact ⟨definition, hdefinition⟩
    · rw [mem_append, mem_singleton, or_and_right, ← hs.get]
      split at hok
      · rename_i hrole
        cases hok
        rw [SortedMap.get_insert]
        split
        case isTrue heq =>
          subst heq
          rw [hs.get]
          simp [hdefinition, hrole, eq_comm]
        case isFalse heq => simp [heq]
      · rename_i hrole
        cases hok
        refine (or_iff_left ?_).symm
        rintro ⟨rfl, -, found, hfound, hfound'⟩
        cases hdefinition.symm.trans hfound
        exact hrole hfound'

theorem rootContainers_total
    (h : ∀ id ∈ visits, ∃ definition, definitionOf definitions id = some definition) :
    ∃ roots, visits.foldlM (rootContainer definitions) .empty = .ok roots := by
  obtain ⟨roots, hrun, -⟩ := foldlM_total (f := rootContainer definitions) (l := visits)
    (P := fun _ _ => True) (fun done id rest s hsplit _ => by
      obtain ⟨definition, hdefinition⟩ := h id (by simp [hsplit])
      unfold rootContainer
      rw [hdefinition]
      dsimp only
      split
      · exact ⟨_, rfl, trivial⟩
      · exact ⟨_, rfl, trivial⟩) trivial
  exact ⟨roots, hrun⟩

/-- The walks for containers go along the parents. -/
theorem walksTo_container_iff {roots : SortedMap DefinitionId DefinitionProductContainer}
    (hroots : AreRoots definitions visits roots) (hvisits : ∀ id, id ∈ visits ↔ id ∈ generated)
    {container : DefinitionProductContainer} :
    WalksTo roots (containerStep definitions generated) id container ↔
      HasContainer definitions generated id container := by
  constructor
  · intro h
    induction h with
    | out h =>
      obtain ⟨hid, rfl, definition, hdefinition, hrole⟩ := (hroots.get _ _).mp h
      exact .root ((hvisits _).mp hid) hdefinition hrole
    | stop _ h =>
      obtain ⟨definition, hdefinition, ⟨hid, rfl⟩ | ⟨hid, hrole, rfl⟩⟩ := containerStep_stop.mp h
      · exact .owner hid hdefinition
      · exact .root hid hdefinition hrole
    | up _ h _ ih =>
      obtain ⟨hid, definition, hdefinition, hrole, hparent⟩ := containerStep_up.mp h
      exact .subordinate hid hdefinition hrole hparent ih
  · intro h
    induction h with
    | root hid hdefinition hrole =>
      exact .out ((hroots.get _ _).mpr ⟨(hvisits _).mpr hid, rfl, _, hdefinition, hrole⟩)
    | @owner id definition hid hdefinition =>
      refine .stop ?_ (containerStep_stop.mpr ⟨definition, hdefinition, .inl ⟨hid, rfl⟩⟩)
      cases hget : roots.get id with
      | none => rfl
      | some container => exact absurd ((hvisits id).mp ((hroots.get _ _).mp hget).1) hid
    | @subordinate id parent definition container hid hdefinition hrole hparent _ ih =>
      refine .up ?_ (containerStep_up.mpr ⟨hid, definition, hdefinition, hrole, hparent⟩) ih
      cases hget : roots.get id with
      | none => rfl
      | some container =>
        obtain ⟨-, -, found, hfound, hfound'⟩ := (hroots.get _ _).mp hget
        cases hdefinition.symm.trans hfound
        cases hrole.symm.trans hfound'

end Chain

end ItemDependencies
