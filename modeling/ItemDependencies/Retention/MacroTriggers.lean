import ItemDependencies.Retention.MacroOperations

/-!
# Members, triggers and meaning

What a retained definition requires of its members, what a retained node opens,
and how meaning spreads.
-/

namespace ItemDependencies

open Library RetentionClosure RetentionState List

variable {products : ValidatedMacroProducts} {members : ValidatedCompilerMemberConstraints}
  {loud : Prop} {bound done added added' : Set MacroFact} {s t : RetentionState}

/-! ## Members -/

/-- The definition that triggers a conditional requirement on one side. -/
def ConditionalDefinitionRequirement.trigger (r : ConditionalDefinitionRequirement) :
    MemberSide → DefinitionId
  | .left => r.left
  | .right => r.right

theorem mem_requirementsByTrigger {trigger required : DefinitionId} :
    required ∈ members.requirementsByTrigger trigger ↔
      ⟨trigger, required⟩ ∈ members.requirements := by
  simp only [ValidatedCompilerMemberConstraints.requirementsByTrigger, mem_valuesAt, mem_map,
    Prod.mk.injEq]
  constructor
  · rintro ⟨r, hr, rfl, rfl⟩
    exact hr
  · exact fun h => ⟨_, h, rfl, rfl⟩

variable {trigger : DefinitionId}

theorem mem_conditionalByTrigger {index : Nat} {side : MemberSide} :
    (index, side) ∈ members.conditionalByTrigger trigger ↔
      ∃ r, members.conditionalRequirements[index]? = some r ∧ r.trigger side = trigger := by
  simp only [ValidatedCompilerMemberConstraints.conditionalByTrigger, mem_valuesAt,
    mem_flatMap, mem_cons, Prod.mk.injEq, not_mem_nil, or_false]
  constructor
  · rintro ⟨⟨r, i⟩, hr, ⟨rfl, rfl, rfl⟩ | ⟨rfl, rfl, rfl⟩⟩
    · exact ⟨r, mk_mem_zipIdx_iff_getElem?.mp hr, rfl⟩
    · exact ⟨r, mk_mem_zipIdx_iff_getElem?.mp hr, rfl⟩
  · rintro ⟨r, hr, rfl⟩
    refine ⟨(r, index), mk_mem_zipIdx_iff_getElem?.mpr hr, ?_⟩
    cases side with
    | left => exact Or.inl ⟨rfl, rfl, rfl⟩
    | right => exact Or.inr ⟨rfl, rfl, rfl⟩

section Commute

variable {f : RetentionClosure → RetentionClosure}

/-- Requiring a node does not depend on the flags. -/
theorem requireMaterializedCompile_onClosure
    (hf : ∀ c nodes, f (c.addPresence nodes) = (f c).addPresence nodes) (s : RetentionState)
    (node : GraphNode) :
    (s.onClosure f).requireMaterializedCompile node =
      (s.requireMaterializedCompile node).onClosure f := by
  by_cases h : node ∈ s.compilePresent.required
  · have h' : node ∈ (s.onClosure f).compilePresent.required := h
    simp only [requireMaterializedCompile, h, h', if_true]
  · simp only [requireMaterializedCompile, h, if_false, onClosure, hf]

theorem requireActual_onClosure (hf : ∀ c nodes, f (c.addPresence nodes) = (f c).addPresence nodes)
    (hf' : ∀ c node, f (c.addActual [node]) = (f c).addActual [node]) (s : RetentionState)
    (node : GraphNode) :
    (s.onClosure f).requireActual node = (s.requireActual node).onClosure f := by
  simp only [requireActual, requireMaterializedCompile_onClosure hf]
  generalize s.requireMaterializedCompile node = s
  by_cases h : node ∈ s.actualRequired.required
  · have h' : node ∈ (s.onClosure f).actualRequired.required := h
    simp only [h, h', if_true]
  · simp only [h, if_false, onClosure, hf']

theorem foldl_onClosure {α : Type} {g : RetentionState → α → RetentionState}
    (hg : ∀ s a, g (s.onClosure f) a = (g s a).onClosure f) (l : List α) (s : RetentionState) :
    l.foldl g (s.onClosure f) = (l.foldl g s).onClosure f := by
  induction l generalizing s with
  | nil => rfl
  | cons a l ih => rw [foldl_cons, foldl_cons, hg, ih]

end Commute

variable {node : GraphNode}

/-- Both sides of a conditional requirement have triggered. -/
theorem mem_conditionalRequired {index : Nat} {sides : Finset MemberSide} :
    node ∈ conditionalRequired members index sides ↔
      ∃ r, members.conditionalRequirements[index]? = some r ∧ sides = {.left, .right} ∧
        node = .definition r.required := by
  unfold conditionalRequired
  cases members.conditionalRequirements[index]? with
  | none => simp
  | some r => by_cases h : sides = {.left, .right} <;> simp [h]

/-- When both sides of a conditional requirement are set, both of its triggers are known. -/
theorem SidesInv.triggered {done known required : DefinitionId → Prop}
    {state : Nat → Finset MemberSide} (h : SidesInv members done known required state)
    {definition : DefinitionId} {index : Nat} {side : MemberSide}
    (hmem : (index, side) ∈ members.conditionalByTrigger definition) (hknown : known definition)
    {r : ConditionalDefinitionRequirement} (hr : members.conditionalRequirements[index]? = some r)
    (hboth : insert side (state index) = {.left, .right}) (side' : MemberSide) :
    known (r.trigger side') := by
  have hside : side' ∈ insert side (state index) := by
    rw [hboth]
    cases side' <;> simp
  obtain ⟨d, hd, hk⟩ : ∃ d, (index, side') ∈ members.conditionalByTrigger d ∧ known d := by
    rcases Finset.mem_insert.mp hside with rfl | hside
    · exact ⟨definition, hmem, hknown⟩
    · exact h.known index side' hside
  obtain ⟨r', hr', rfl⟩ := mem_conditionalByTrigger.mp hd
  obtain rfl := Option.some.inj (hr.symm.trans hr')
  exact hk

def setCompileSides (sides : Nat → Finset MemberSide) (c : RetentionClosure) : RetentionClosure :=
  { c with conditionalCompileMemberState := sides }

def setActualSides (sides : Nat → Finset MemberSide) (c : RetentionClosure) : RetentionClosure :=
  { c with conditionalActualMemberState := sides }

theorem subset_update {state : Nat → Finset MemberSide} {index : Nat} {side : MemberSide}
    (i : Nat) :
    state i ⊆ Function.update state index (insert side (state index)) i := by
  by_cases hi : i = index
  · subst hi
    rw [Function.update_self]
    exact Finset.subset_insert ..
  · rw [Function.update_of_ne hi]

/-- The nodes that are present, or those that are actual: how a node gets there and which facts it
makes then, which fact a trigger is, and the flags of the conditional requirements. -/
structure MemberLane (products : ValidatedMacroProducts)
    (members : ValidatedCompilerMemberConstraints) (loud : Prop) (bound : Set MacroFact) where
  require : RetentionState → GraphNode → RetentionState
  required : GraphNode → Set MacroFact
  trigger : DefinitionId → MacroFact
  sides : RetentionClosure → Nat → Finset MemberSide
  setSides : (Nat → Finset MemberSide) → RetentionClosure → RetentionClosure
  sides_setSides : ∀ c state, sides (setSides state c) = state
  setSides_sides : ∀ c, setSides (sides c) c = c
  require_onClosure : ∀ state s node,
    require (s.onClosure (setSides state)) node = (require s node).onClosure (setSides state)
  sides_subset : ∀ {s t}, Advance products members loud s t →
    ∀ i, sides s.closure i ⊆ sides t.closure i
  sidesInv : ∀ {facts done s}, Inv products members facts done s →
    SidesInv members (trigger · ∈ done) (trigger · ∈ facts)
      (fun d => required (.definition d) ⊆ facts)
      (sides s.closure)
  keeps_require : ∀ {done s node}, Good products members bound done s → required node ⊆ bound →
    Keeps products members loud bound done (required node) s (require s node)
  keeps_setSides : ∀ {done s state}, Good products members bound done s →
    (∀ i, sides s.closure i ⊆ state i) →
    SidesInv members (trigger · ∈ done) (trigger · ∈ known products s)
      (fun d => required (.definition d) ⊆ known products s) state →
    Keeps products members loud bound done ∅ s (s.onClosure (setSides state))
  requirement : ∀ {r}, r ∈ members.requirements → trigger r.trigger ∈ bound →
    required (.definition r.required) ⊆ bound
  conditional : ∀ {r}, r ∈ members.conditionalRequirements → trigger r.left ∈ bound →
    trigger r.right ∈ bound → required (.definition r.required) ⊆ bound

namespace MemberLane

variable (lane : MemberLane products members loud bound)

def processConditional (s : RetentionState) (conditional : Nat × MemberSide) : RetentionState :=
  let sides := insert conditional.2 (lane.sides s.closure conditional.1)
  (conditionalRequired members conditional.1 sides).foldl lane.require
    (s.onClosure (lane.setSides (Function.update (lane.sides s.closure) conditional.1 sides)))

def processMembers (trigger : DefinitionId) (s : RetentionState) : RetentionState :=
  (members.conditionalByTrigger trigger).foldl lane.processConditional
    ((members.requirementsByTrigger trigger).foldl
      (fun s required => lane.require s (.definition required)) s)

/-- A side of a conditional requirement triggers it. -/
theorem keeps_processConditional {definition : DefinitionId} {conditional : Nat × MemberSide}
    (h : Good products members bound done s)
    (hmem : conditional ∈ members.conditionalByTrigger definition)
    (hdefinition : lane.trigger definition ∈ known products s) :
    Keeps products members loud bound done ∅ s (lane.processConditional s conditional) ∧
      conditional.2 ∈ lane.sides (lane.processConditional s conditional).closure conditional.1 := by
  obtain ⟨index, side⟩ := conditional
  have hcommute := fun state => foldl_onClosure (lane.require_onClosure state)
    (conditionalRequired members index (insert side (lane.sides s.closure index))) s
  have hsides := lane.sidesInv h.inv
  have h₁ : Keeps products members loud bound done
      {f | ∃ node ∈ conditionalRequired members index (insert side (lane.sides s.closure index)),
        f ∈ lane.required node} s
      ((conditionalRequired members index (insert side (lane.sides s.closure index))).foldl
        lane.require s) := by
    refine Keeps.foldl h fun t node hnode ht _ => lane.keeps_require ht ?_
    obtain ⟨r, hr, hboth, rfl⟩ := mem_conditionalRequired.mp hnode
    have htriggered := hsides.triggered hmem hdefinition hr hboth
    exact lane.conditional (mem_of_getElem? hr) (h.sound (htriggered .left))
      (h.sound (htriggered .right))
  have hadded : ∀ r : ConditionalDefinitionRequirement,
      members.conditionalRequirements[index]? = some r →
      insert side (lane.sides s.closure index) = {.left, .right} →
      lane.required (.definition r.required) ⊆ known products _ := fun r hr hboth _ hf =>
    h₁.added ⟨_, mem_conditionalRequired.mpr ⟨r, hr, hboth, rfl⟩, hf⟩
  have hsame := congrArg (fun t => lane.sides t.closure) (hcommute (lane.sides s.closure))
  simp only [onClosure, lane.setSides_sides, lane.sides_setSides] at hsame
  have heq : lane.processConditional s (index, side) = _ := hcommute _
  rw [heq]
  generalize (conditionalRequired members index (insert side (lane.sides s.closure index))).foldl
    lane.require s = mid at h₁ hsame hadded
  have h₂ :=
    lane.keeps_setSides h₁.good (fun i => (congrFun hsame i).subset.trans (subset_update i))
    ((lane.sidesInv (h.inv.mono h₁.advance.known)).update hmem (h₁.advance.known hdefinition)
      hadded)
  refine ⟨(h₁.trans h₂).weaken fun f hf => absurd hf (Set.notMem_empty f), ?_⟩
  rw [onClosure, lane.sides_setSides, Function.update_self]
  exact Finset.mem_insert_self ..

/-- What a definition requires of its members. -/
theorem keeps_processMembers (h : Good products members bound done s)
    (htrigger : lane.trigger trigger ∈ known products s) :
    Keeps products members loud bound done
        {f | ∃ required, ⟨trigger, required⟩ ∈ members.requirements ∧
          f ∈ lane.required (.definition required)} s (lane.processMembers trigger s) ∧
      ∀ conditional ∈ members.conditionalByTrigger trigger,
        conditional.2 ∈ lane.sides (lane.processMembers trigger s).closure conditional.1 := by
  have h₁ : Keeps products members loud bound done
      {f | ∃ required ∈ members.requirementsByTrigger trigger,
        f ∈ lane.required (.definition required)} s
      ((members.requirementsByTrigger trigger).foldl
        (fun s required => lane.require s (.definition required)) s) :=
    Keeps.foldl h fun t required hrequired ht _ => lane.keeps_require ht
      (lane.requirement (mem_requirementsByTrigger.mp hrequired) (h.sound htrigger))
  unfold processMembers
  generalize (members.requirementsByTrigger trigger).foldl
    (fun s required => lane.require s (.definition required)) s = mid at h₁
  obtain ⟨h₂, hsides⟩ := Keeps.foldl_lasting (T := fun _ => ∅)
    (Q := fun conditional t => conditional.2 ∈ lane.sides t.closure conditional.1) h₁.good
    (fun conditional s t ha hq => lane.sides_subset ha conditional.1 hq)
        fun t conditional hc ht ha =>
      lane.keeps_processConditional ht hc (ha.known (h₁.advance.known htrigger))
  refine ⟨(h₁.trans h₂).weaken fun f hf => Or.inl (Or.inl ?_), hsides⟩
  obtain ⟨required, hr, hf⟩ := hf
  exact ⟨required, mem_requirementsByTrigger.mpr hr, hf⟩

end MemberLane

/-- The lane of present nodes. -/
def compileLane (loud : Prop) (hclosed : Closed (RetentionRule products members) bound) :
    MemberLane products members loud bound where
  require := requireMaterializedCompile
  required node := {.present node}
  trigger definition := .present (.definition definition)
  sides := conditionalCompileMemberState
  setSides := setCompileSides
  sides_setSides _ _ := rfl
  setSides_sides _ := rfl
  require_onClosure _ := requireMaterializedCompile_onClosure fun _ _ => rfl
  sides_subset ha := ha.compileSides
  sidesInv h := h.compileMembers.mono (fun _ => id) (fun _ => id)
    fun _ => Set.singleton_subset_iff.mpr
  keeps_require h hb := keeps_requireMaterializedCompile h (hb rfl)
  keeps_setSides {_ s _} h hsub hsides := Keeps.of_flags _ h
    { Advance.refl products members loud s with compileSides := hsub }
    (fun f hf => by cases f <;> exact hf)
    { h.inv with
      compileMembers := hsides.mono (fun _ => id) (fun _ => id)
        fun _ => Set.singleton_subset_iff.mp }
  requirement hr ht := Set.singleton_subset_iff.mpr
    (hclosed _ _ (Or.inl (.requirement hr)) (by simpa using ht))
  conditional hr hl hr' := Set.singleton_subset_iff.mpr
    (hclosed _ _ (Or.inl (.conditional hr)) (by simp [hl, hr']))

/-- The lane of actual nodes. -/
def actualLane (loud : Prop) (hclosed : Closed (RetentionRule products members) bound) :
    MemberLane products members loud bound where
  require := requireActual
  required node := {f | InLane node f}
  trigger := .actualDefinition
  sides := conditionalActualMemberState
  setSides := setActualSides
  sides_setSides _ _ := rfl
  setSides_sides _ := rfl
  require_onClosure _ :=
    requireActual_onClosure (fun _ _ => rfl) fun _ node => by cases node <;> rfl
  sides_subset ha := ha.actualSides
  sidesInv h := h.actualMembers
  keeps_require h hb := keeps_requireActual hclosed h hb
  keeps_setSides {_ s _} h hsub hsides := Keeps.of_flags _ h
    { Advance.refl products members loud s with actualSides := hsub }
    (fun f hf => by cases f <;> exact hf) { h.inv with actualMembers := hsides }
  requirement hr ht _ hf :=
    hclosed _ _ (Or.inl (.actualRequirement hr hf)) (by simpa using ht)
  conditional hr hl hr' _ hf :=
    hclosed _ _ (Or.inl (.actualConditional hr hf)) (by simp [hl, hr'])

/-- What a present definition requires of its members. -/
theorem keeps_processCompileMembers (hclosed : Closed (RetentionRule products members) bound)
    (h : Good products members bound done s)
    (htrigger : .present (.definition trigger) ∈ known products s) :
    Keeps products members loud bound done
        {f | ∃ required, ⟨trigger, required⟩ ∈ members.requirements ∧
          f = .present (.definition required)} s (processCompileMembers members trigger s) ∧
      ∀ conditional ∈ members.conditionalByTrigger trigger,
        conditional.2 ∈ (processCompileMembers members trigger s
          ).closure.conditionalCompileMemberState conditional.1 :=
  (compileLane loud hclosed).keeps_processMembers h htrigger

/-- What an actual definition requires of its members. -/
theorem keeps_processActualMembers (hclosed : Closed (RetentionRule products members) bound)
    (h : Good products members bound done s)
    (htrigger : .actualDefinition trigger ∈ known products s) :
    Keeps products members loud bound done
        {f | ∃ required, ⟨trigger, required⟩ ∈ members.requirements ∧
          InLane (.definition required) f} s (processActualMembers members trigger s) ∧
      ∀ conditional ∈ members.conditionalByTrigger trigger,
        conditional.2 ∈ (processActualMembers members trigger s
          ).closure.conditionalActualMemberState conditional.1 :=
  (actualLane loud hclosed).keeps_processMembers h htrigger

/-! ## Triggers -/

/-- The producer of a node, if it has one, is meaningful. -/
def OutputMeaningful (products : ValidatedMacroProducts) (facts : Set MacroFact)
    (node : GraphNode) : Prop :=
  ∀ expansion producer, node = .expansion expansion →
    products.outputMeaning.producerIndex expansion = some producer → .meaningful producer ∈ facts

/-- A group has a reason to be meaningful. -/
def HasReason (products : ValidatedMacroProducts) (facts : Set MacroFact) (group : Nat) : Prop :=
  products.outputMeaning.groupHasIntrinsicOutput group = true ∨
    (∃ child, .meaningful child ∈ facts ∧
      group ∈ products.outputMeaning.dependentGroupsByProduct
        (.expansion (producerAt products child))) ∨ DefinitionDependency products facts group

/-- The reason for which a group is meaningful has been seen. -/
def ReasonSeen (products : ValidatedMacroProducts) (s : RetentionState) (group : Nat) : Prop :=
  products.outputMeaning.groupHasIntrinsicOutput group = true ∨
    group ∈ s.closure.groupHasMeaningfulDependency ∨
      DefinitionDependency products (known products s) group

/-- A present trigger whose output means something gives its groups a reason to be meaningful. -/
theorem trigger_reason {facts : Set MacroFact} (hwf : products.WellFormed) {group : Nat}
    (hgroup : group ∈ products.compileTriggerGroups node) (hpresent : .present node ∈ facts)
    (hmeaningful : OutputMeaningful products facts node) : HasReason products facts group := by
  rcases hwf.trigger_meaning node group hgroup with h | h
  · exact Or.inl h
  · rcases hwf.dependency node group h with h' | ⟨expansion, producer, rfl, hp⟩ |
      ⟨definition, other, rfl, ho⟩
    · exact Or.inl h'
    · refine Or.inr (Or.inl ⟨producer, hmeaningful expansion producer rfl hp, ?_⟩)
      rwa [(producerAt_of_index hp).2]
    · exact Or.inr (Or.inr ⟨definition, other, ho, h, hpresent⟩)

theorem productIsMeaningful_iff {c : RetentionClosure} :
    productIsMeaningful products c node = true ↔ ∀ expansion producer, node = .expansion expansion →
      products.outputMeaning.producerIndex expansion = some producer →
      producer ∈ c.meaningfulProducers.seen := by
  cases node with
  | expansion expansion =>
    simp only [productIsMeaningful, Option.all_eq_true, decide_eq_true_eq,
      GraphNode.expansion.injEq]
    constructor
    · rintro h _ producer rfl hp
      exact h producer hp
    · exact fun h producer hp => h expansion producer rfl hp
  | _ => simp [productIsMeaningful]

/-- A group learns that something on which it depends is meaningful. -/
def markDependency (group : Nat) (c : RetentionClosure) : RetentionClosure :=
  { c with groupHasMeaningfulDependency := insert group c.groupHasMeaningfulDependency }

theorem keeps_markDependency {group : Nat} (h : Good products members bound done s)
    (hreason : HasReason products (known products s) group)
    (hseen : group ∈ s.closure.macroMaterialized →
      group ∈ s.closure.groupHasMeaningfulDependency ∨
        .meaningful (products.outputMeaning.producerByGroup group) ∈ known products s ∨
          DefinitionDependency products (known products s) group) :
    Keeps products members loud bound done ∅ s (s.onClosure (markDependency group)) := by
  refine Keeps.of_flags _ h { Advance.refl products members loud s with
    dependencies := Finset.subset_insert .. } (fun f hf => by cases f <;> exact hf)
    { h.inv with
      dependencies := fun child hc g hg =>
        Finset.mem_insert_of_mem (h.inv.dependencies child hc g hg)
      dependencies_known := fun g hg => ?_
      inherited := fun g hg hm => ?_ }
  · rcases Finset.mem_insert.mp hg with rfl | hg
    · exact hreason
    · exact h.inv.dependencies_known g hg
  · rcases Finset.mem_insert.mp hg with rfl | hg
    · exact (hseen hm).elim (h.inv.inherited g · hm) id
    · exact h.inv.inherited g hg hm

/-- What a present node asks of a group that it triggers. -/
def triggered (products : ValidatedMacroProducts) (materialized : Finset Nat) (node : GraphNode)
    (group : Nat) : Set MacroFact :=
  {f | (∃ root ∈ groupRoots products group, f = .requested root) ∨
    group ∈ materialized ∧ ∃ member ∈ ownerMembers products group node, f = .present member}

theorem mem_ownerMembers {group : Nat} {owner member : GraphNode} :
    member ∈ ownerMembers products group owner ↔ ∃ m requirement definition,
      products.materializations[group]? = some m ∧ requirement ∈ m.ownerRequirements ∧
        owner = .definition requirement.owner ∧ definition ∈ requirement.members ∧
        member = .definition definition := by
  unfold ownerMembers
  cases products.materializations[group]? with
  | none => simp
  | some m =>
    simp only [mem_flatMap, mem_filter, decide_eq_true_eq, mem_map, Option.some.injEq]
    constructor
    · rintro ⟨requirement, ⟨hr, ho⟩, definition, hd, rfl⟩
      exact ⟨m, requirement, definition, rfl, hr, ho, hd, rfl⟩
    · rintro ⟨_, requirement, definition, rfl, hr, ho, hd, rfl⟩
      exact ⟨requirement, ⟨hr, ho⟩, definition, hd, rfl⟩

theorem keeps_triggerGroup {group : Nat} (hwf : products.WellFormed)
    (hclosed : Closed (RetentionRule products members) bound)
    (h : Good products members bound done s) (hgroup : group ∈ products.compileTriggerGroups node)
    (hpresent : .present node ∈ known products s)
    (hmeaningful : OutputMeaningful products (known products s) node)
    (hinherit : group ∈ s.closure.macroMaterialized → ReasonSeen products s group) :
    Keeps products members loud bound done
      (triggered products s.closure.macroMaterialized node group)
      s (triggerGroup products node s group) := by
  -- the group learns that it has a meaningful trigger
  have h₁ : Keeps products members loud bound done ∅ s (s.onClosure (markDependency group)) := by
    refine keeps_markDependency h (trigger_reason hwf hgroup hpresent hmeaningful) fun hm => ?_
    rcases hinherit hm with hi | hg | hd
    · exact Or.inr (Or.inl (h.inv.intrinsic group hm hi))
    · exact Or.inl hg
    · exact Or.inr (Or.inr hd)
  -- its contributors are requested
  have hroots : ∀ root ∈ groupRoots products group, .requested root ∈ bound := by
    intro root hroot
    by_cases hp : ∃ expansion producer, node = .expansion expansion ∧
        products.outputMeaning.producerIndex expansion = some producer
    · obtain ⟨expansion, producer, rfl, hp⟩ := hp
      have hp' := h.sound (hmeaningful expansion producer rfl hp)
      exact hclosed _ _ (Or.inl (.producerTrigger hp hgroup hroot))
        (by simp [hp', h.sound hpresent])
    · refine hclosed _ _ (Or.inl (.trigger (fun expansion hnode => ?_) hgroup hroot))
        (by simpa using h.sound hpresent)
      exact Option.eq_none_iff_forall_ne_some.mpr fun producer heq =>
        hp ⟨expansion, producer, hnode, heq⟩
  have h₂ := h₁.trans (keeps_requestGroupSources h₁.good hroots)
  have heq : triggerGroup products node s group =
      if group ∈ s.closure.macroMaterialized then
        (ownerMembers products group node).foldl requireMaterializedCompile
          ((s.onClosure (markDependency group)).onClosure fun c =>
            requestGroupSources products c group)
      else (s.onClosure (markDependency group)).onClosure fun c =>
        requestGroupSources products c group := by
    rw [← h₂.advance.materialized]
    rfl
  rw [heq]
  generalize ((s.onClosure (markDependency group)).onClosure fun c =>
    requestGroupSources products c group) = mid at h₂
  split
  · rename_i hm
    -- a group that has materialized gives the members of its new owner
    refine (h₂.trans (Keeps.foldl (T := fun member => {.present member}) h₂.good
      fun t member hmember ht _ => keeps_requireMaterializedCompile ht ?_)).weaken
        fun f hf => Or.inl ?_
    · obtain ⟨m, requirement, definition, hgr, hr, rfl, hd, rfl⟩ := mem_ownerMembers.mp hmember
      refine hclosed _ _ (Or.inl (.ownerMember hgr hr hd)) fun p hp => ?_
      rcases mem_pair.mp hp with rfl | rfl
      · exact h.sound hm
      · exact h.sound hpresent
    · rcases hf with hf | ⟨-, member, hmember, rfl⟩
      · exact Or.inl (Or.inr hf)
      · exact Or.inr ⟨member, hmember, rfl⟩
  · rename_i hm
    refine h₂.weaken fun f hf => Or.inl ?_
    rcases hf with hf | ⟨hm', -⟩
    · exact Or.inr hf
    · exact absurd hm' hm

/-- What a present node asks for, if its output means something. -/
theorem keeps_processMacroTrigger (hwf : products.WellFormed)
    (hclosed : Closed (RetentionRule products members) bound)
    (h : Good products members bound done s) (hpresent : .present node ∈ known products s)
    (hinherit : ∀ group ∈ products.compileTriggerGroups node, group ∈ s.closure.macroMaterialized →
      OutputMeaningful products (known products s) node → ReasonSeen products s group) :
    Keeps products members loud bound done
      {f | OutputMeaningful products (known products s) node ∧
        ∃ group ∈ products.compileTriggerGroups node,
          f ∈ triggered products s.closure.macroMaterialized node group} s
      (processMacroTrigger products node s) := by
  unfold processMacroTrigger
  split
  · rename_i hmeaningful
    have hmeaningful := productIsMeaningful_iff.mp hmeaningful
    refine (Keeps.foldl (T := triggered products s.closure.macroMaterialized node) h
      fun t group hgroup ht ha => ?_).weaken fun f hf => Or.inl hf.2
    rw [← ha.materialized]
    refine keeps_triggerGroup hwf hclosed ht hgroup (ha.known hpresent)
      (fun expansion producer hnode hp => ha.known (hmeaningful expansion producer hnode hp))
      fun hm => ?_
    refine (hinherit group hgroup (ha.materialized ▸ hm) hmeaningful).imp_right fun h =>
      h.imp (ha.dependencies ·) (DefinitionDependency.mono ha.known)
  · rename_i hmeaningful
    refine (Keeps.refl h).weaken fun f hf => absurd (productIsMeaningful_iff.mpr hf.1) hmeaningful

/-! ## Meaning -/

theorem keeps_activateProducer {producer : Nat} (hloud : loud)
    (h : Good products members bound done s) (hb : .meaningful producer ∈ bound) :
    Keeps products members loud bound done {.meaningful producer} s
      (s.onClosure fun c => c.activateProducer producer) := by
  refine Keeps.of_advance h ?_ ?_ ?_ (Set.singleton_subset_iff.mpr hb) fun inv => { inv with }
  · refine { Advance.refl products members loud s with
      meaningful := Or.inr ⟨hloud, ?_, ?_⟩, work := ?_ }
    · exact Worklist.seen_subset_add
    · exact Worklist.processed_add
    · have hwork : (s.closure.meaningfulProducers.add producer).left (producers products) ≤
          s.closure.meaningfulProducers.left (producers products) := by
        refine Worklist.left_add ?_
        rcases h.mentioned _ hb with hk | hm
        · exact Or.inr hk
        · exact Or.inl (mem_range.mpr hm)
      exact work_le le_rfl le_rfl le_rfl le_rfl le_rfl le_rfl hwork le_rfl le_rfl
  · exact Set.singleton_subset_iff.mpr (Worklist.mem_seen_add.mpr (Or.inl rfl))
  · intro f hf
    cases f with
    | meaningful p =>
      rcases Worklist.mem_seen_add.mp hf with rfl | hp
      · exact Or.inr rfl
      · exact Or.inl hp
    | _ => exact Or.inl hf

/-- A group learns that one of its children is meaningful. -/
theorem keeps_addMeaningfulDependency {child group : Nat} (hloud : loud)
    (hclosed : Closed (RetentionRule products members) bound)
    (h : Good products members bound done s) (hchild : .meaningful child ∈ known products s)
    (hgroup : group ∈ products.outputMeaning.dependentGroupsByProduct
      (.expansion (producerAt products child))) :
    Keeps products members loud bound done ∅ s
        (s.onClosure fun c => addMeaningfulDependency products c group) ∧
      group ∈ (addMeaningfulDependency products s.closure group).groupHasMeaningfulDependency := by
  -- the flag alone may be set when the producer is meaningful, or the group has not materialized
  have hflag : ∀ {t : RetentionState}, Good products members bound done t →
      .meaningful child ∈ known products t →
      (group ∈ t.closure.macroMaterialized → group ∈ t.closure.groupHasMeaningfulDependency ∨
        .meaningful (products.outputMeaning.producerByGroup group) ∈ known products t) →
      Keeps products members loud bound done ∅ t (t.onClosure (markDependency group)) :=
    fun ht hchild hm => keeps_markDependency ht (Or.inr (Or.inl ⟨child, hchild, hgroup⟩))
      fun hm' => (hm hm').imp_right Or.inl
  by_cases hnew : group ∉ s.closure.groupHasMeaningfulDependency ∧
    group ∈ s.closure.macroMaterialized
  · have hb : .meaningful (products.outputMeaning.producerByGroup group) ∈ bound := by
      refine hclosed _ _ (Or.inr (.child hgroup)) fun p hp => ?_
      rcases mem_pair.mp hp with rfl | rfl
      · exact h.sound hchild
      · exact h.sound hnew.2
    have h₁ : Keeps products members loud bound done
        {.meaningful (products.outputMeaning.producerByGroup group)} s (s.onClosure fun c =>
          c.activateProducer (products.outputMeaning.producerByGroup group)) :=
      keeps_activateProducer hloud h hb
    have heq : (s.onClosure fun c => addMeaningfulDependency products c group) =
        (s.onClosure fun c => c.activateProducer
          (products.outputMeaning.producerByGroup group)).onClosure (markDependency group) := by
      simp only [onClosure, addMeaningfulDependency, hnew, if_true, not_false_eq_true, and_self]
      rfl
    have hmem : group ∈ (s.onClosure fun c => addMeaningfulDependency products c group
        ).closure.groupHasMeaningfulDependency := by
      rw [heq]
      exact Finset.mem_insert_self ..
    refine ⟨?_, hmem⟩
    rw [heq]
    exact (h₁.trans (hflag h₁.good (h₁.advance.known hchild) fun _ => Or.inr (h₁.added rfl))).weaken
      fun f hf => absurd hf (Set.notMem_empty f)
  · have heq : (s.onClosure fun c => addMeaningfulDependency products c group) =
        s.onClosure (markDependency group) := by
      simp only [onClosure, addMeaningfulDependency, hnew, if_false]
      rfl
    have hmem : group ∈ (s.onClosure fun c => addMeaningfulDependency products c group
        ).closure.groupHasMeaningfulDependency := by
      rw [heq]
      exact Finset.mem_insert_self ..
    refine ⟨?_, hmem⟩
    rw [heq]
    exact hflag h hchild fun hm => Or.inl (by simpa [hm] using hnew)

end ItemDependencies
