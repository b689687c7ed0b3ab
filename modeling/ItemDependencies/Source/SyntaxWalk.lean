import ItemDependencies.Source.TupleSpans

/-!
# The walk over a part of the syntax

Whatever the walk finds in a tree, it leaves the stacks and the units that were there as they were.
Only the innermost tuple that is open may change: an element is observed where an expression of
the tree has its range, and its unit is new.
-/

namespace ItemDependencies

open Library List

/-- The unit of an element that is deleted with a range. -/
def HasComponent (units : List PendingUnit) (range : ByteRange) (component : Nat) : Prop :=
  ∃ unit, units[component]? = some unit ∧ unit.fullRange = range ∧
    unit.atomicRepresentative = component

/-- The unit of an element. -/
def PendingTupleElement.component (element : PendingTupleElement) : Option Nat :=
  element.observation.bind CfgComponentObservation.component

/-- A unit that has been found since a time and goes with no other one. -/
def NewComponent (bound : Nat) (units : List PendingUnit) (component : Option Nat) : Prop :=
  ∀ number ∈ component, bound ≤ number ∧ ∃ range, HasComponent units range number

/-- An element stays as it is, or is observed with a new unit if an expression has its range. -/
def ElementKept (ranges : List ByteRange) (bound : Nat) (units : List PendingUnit)
    (element element' : PendingTupleElement) : Prop :=
  element' = element ∨ element.sourceRange ∈ ranges ∧
    element'.sourceRange = element.sourceRange ∧ NewComponent bound units element'.component

/-- Only the elements of the innermost tuple are observed. -/
inductive StackKept (ranges : List ByteRange) (bound : Nat) (units : List PendingUnit) :
    List PendingTupleLayout → List PendingTupleLayout → Prop
  | nil : StackKept ranges bound units [] []
  | cons {representative : Nat} {elements elements' : List PendingTupleElement}
      {stack : List PendingTupleLayout}
      (h : List.Forall₂ (ElementKept ranges bound units) elements elements') :
      StackKept ranges bound units (⟨representative, elements⟩ :: stack)
        (⟨representative, elements'⟩ :: stack)

/-- What a walk that visits expressions with some ranges does to what has been found before. -/
structure Walks (ranges : List ByteRange) (bound : Nat) (c c' : UnitCollector) : Prop where
  sourceTokens : c'.sourceTokens = c.sourceTokens
  parentStack : c'.parentStack = c.parentStack
  activeStack : c'.activeStack = c.activeStack
  units : c.units <+: c'.units
  numbered : c'.Numbered
  tupleStack : StackKept ranges bound c'.units c.tupleStack c'.tupleStack

section

variable {c c' c'' : UnitCollector} {node : CfgNode} {range : ByteRange}
  {ranges ranges' : List ByteRange} {bound bound' number : Nat} {component : Option Nat}
  {units units' : List PendingUnit} {stack stack' stack'' : List PendingTupleLayout}
  {elements : List PendingTupleElement}

theorem HasComponent.mono (h : HasComponent units range number) (hextends : units <+: units') :
    HasComponent units' range number := by
  obtain ⟨unit, hunit, hrange⟩ := h
  obtain ⟨more, rfl⟩ := hextends
  refine ⟨unit, ?_, hrange⟩
  rw [getElem?_append_left (List.getElem?_eq_some_iff.mp hunit).1]
  exact hunit

theorem NewComponent.mono (h : NewComponent bound units component) (hbound : bound' ≤ bound)
    (hextends : units <+: units') : NewComponent bound' units' component := fun number hnumber =>
  (h number hnumber).imp hbound.trans fun ⟨range, hrange⟩ => ⟨range, hrange.mono hextends⟩

theorem ElementKept.mono {element element' : PendingTupleElement}
    (h : ElementKept ranges bound units element element') (hranges : ranges ⊆ ranges')
    (hbound : bound' ≤ bound) (hextends : units <+: units') :
    ElementKept ranges' bound' units' element element' :=
  h.imp_right fun ⟨hmem, hsame, hnew⟩ => ⟨hranges hmem, hsame, hnew.mono hbound hextends⟩

theorem ElementKept.trans {element element' element'' : PendingTupleElement}
    (h : ElementKept ranges bound units element element')
    (h' : ElementKept ranges bound units element' element'') :
    ElementKept ranges bound units element element'' := by
  rcases h' with rfl | ⟨hmem', hsame', hnew'⟩
  · exact h
  · rcases h with rfl | ⟨hmem, hsame, -⟩
    · exact .inr ⟨hmem', hsame', hnew'⟩
    · exact .inr ⟨hmem, hsame'.trans hsame, hnew'⟩

namespace StackKept

theorem mono (h : StackKept ranges bound units stack stack') (hranges : ranges ⊆ ranges')
    (hbound : bound' ≤ bound) (hextends : units <+: units') :
    StackKept ranges' bound' units' stack stack' := by
  cases h with
  | nil => exact .nil
  | cons h => exact .cons (h.imp fun _ _ hkept => hkept.mono hranges hbound hextends)

theorem refl (stack : List PendingTupleLayout) : StackKept ranges bound units stack stack := by
  cases stack with
  | nil => exact .nil
  | cons tuple stack => exact .cons (forall₂_same.mpr fun _ _ => .inl rfl)

theorem trans (h : StackKept ranges bound units stack stack')
    (h' : StackKept ranges bound units stack' stack'') :
    StackKept ranges bound units stack stack'' := by
  cases h with
  | nil => exact h'
  | cons h =>
    cases h' with
    | @cons _ _ elements'' _ h' =>
      refine .cons ?_
      induction h generalizing elements'' with
      | nil => exact h'
      | cons hfirst _ ih =>
        cases h' with
        | cons hfirst' h' => exact .cons (hfirst.trans hfirst') (ih h')

theorem exists_elements {representative : Nat}
    (h : StackKept ranges bound units (⟨representative, elements⟩ :: stack) stack') :
    ∃ elements', stack' = ⟨representative, elements'⟩ :: stack ∧
      List.Forall₂ (ElementKept ranges bound units) elements elements' := by
  cases h with
  | cons h => exact ⟨_, rfl, h⟩

/-- A tuple is left alone by expressions that are not among its elements. -/
theorem eq_of_notMem {tuple : PendingTupleLayout}
    (h : StackKept ranges bound units (tuple :: stack) stack')
    (hnone : ∀ element ∈ tuple.elements, element.sourceRange ∉ ranges) :
    stack' = tuple :: stack := by
  cases h with
  | cons h =>
    have heq : List.Forall₂ (· = ·) _ _ := (forall₂_iff_zip.mpr ⟨h.length_eq,
      fun {element element'} hzip => ((forall₂_iff_zip.mp h).2 hzip).elim Eq.symm
        fun hkept => absurd hkept.1 (hnone element (of_mem_zip hzip).1)⟩)
    rw [forall₂_eq_eq_eq] at heq
    rw [heq]

end StackKept

namespace Walks

theorem refl (h : c.Numbered) : Walks ranges bound c c :=
  ⟨rfl, rfl, rfl, prefix_rfl, h, .refl _⟩

theorem mono (h : Walks ranges bound c c') (hranges : ranges ⊆ ranges') (hbound : bound' ≤ bound) :
    Walks ranges' bound' c c' :=
  { h with tupleStack := h.tupleStack.mono hranges hbound prefix_rfl }

theorem trans (h : Walks ranges bound c c') (h' : Walks ranges bound c' c'') :
    Walks ranges bound c c'' where
  sourceTokens := h'.sourceTokens.trans h.sourceTokens
  parentStack := h'.parentStack.trans h.parentStack
  activeStack := h'.activeStack.trans h.activeStack
  units := h.units.trans h'.units
  numbered := h'.numbered
  tupleStack := (h.tupleStack.mono (List.Subset.refl _) le_rfl h'.units).trans h'.tupleStack

theorem fail (h : c.Numbered) (error : SourceError) : Walks ranges bound c (c.fail error) :=
  ⟨rfl, rfl, rfl, prefix_rfl, ⟨h.representatives, h.parents⟩, .refl _⟩

theorem run (h : c.Numbered) (recording : Recording) : Walks ranges bound c (recording.run c) where
  sourceTokens := recording.sourceTokens c
  parentStack := recording.parentStack c
  activeStack := recording.activeStack c
  units := recording.units c
  numbered := recording.numbered c h
  tupleStack := by
    rw [recording.tupleStack]
    exact .refl _

theorem addUnit (h : c.Numbered) (kind : WrittenUnitKind) (range : ByteRange) (active : Bool)
    (parent : Nat) : Walks ranges bound c (c.addUnit kind range active parent none) where
  sourceTokens := rfl
  parentStack := rfl
  activeStack := rfl
  units := prefix_append _ _
  numbered := by
    constructor
    · intro unit hunit
      rw [UnitCollector.addUnit, length_append, length_singleton]
      rcases mem_append.mp hunit with hunit | hunit
      · exact (h.representatives unit hunit).trans (Nat.lt_succ_self _)
      · rw [mem_singleton.mp hunit]
        exact Nat.lt_succ_self _
    · intro parent hparent
      rw [UnitCollector.addUnit, length_append, length_singleton]
      exact (h.parents parent hparent).trans (Nat.lt_succ_self _)
  tupleStack := .refl _

/-! ## Nodes -/

theorem numbered_pushNode (h : c.Numbered) (active : Bool) (component : Option Nat)
    (hcomponent : ∀ number ∈ component, number < c.units.length) :
    (c.pushNode active component).Numbered := by
  refine ⟨h.representatives, fun parent hparent => ?_⟩
  rcases mem_append.mp hparent with hparent | hparent
  · exact hcomponent parent (Option.mem_toList.mp hparent)
  · exact h.parents parent hparent

/-- What happens at a node that is pushed and popped. -/
theorem popNode (active : Bool) (h : Walks ranges bound (c.pushNode active component) c') :
    Walks ranges bound c (c'.popNode component) where
  sourceTokens := h.sourceTokens
  parentStack := by
    show c'.parentStack.drop _ = _
    rw [h.parentStack]
    exact drop_left
  activeStack := by
    show c'.activeStack.tail = _
    rw [h.activeStack]
    rfl
  units := h.units
  numbered := ⟨h.numbered.representatives, fun parent hparent =>
    h.numbered.parents parent (mem_of_mem_drop hparent)⟩
  tupleStack := h.tupleStack

/-- An expression is observed at most at the element that has its range. -/
theorem recordTupleElement {observation : CfgComponentObservation} (h : c.Numbered)
    (hrange : observation.sourceRange ∈ ranges)
    (hnew : NewComponent bound c.units observation.component) :
    Walks ranges bound c (c.recordTupleElement observation) := by
  unfold UnitCollector.recordTupleElement
  cases hstack : c.tupleStack with
  | nil => exact refl h
  | cons tuple stack =>
    dsimp only
    split
    · exact refl h
    · rename_i index hposition
      have hindex : index ∈ tuple.positions observation.sourceRange := by
        rw [hposition]
        exact mem_singleton_self _
      have hsame := of_decide_eq_true (mem_filter.mp hindex).2
      have hobserved : Walks ranges bound c
          { c with tupleStack := tuple.observe index observation :: stack } := by
        refine ⟨rfl, rfl, rfl, prefix_rfl, ⟨h.representatives, h.parents⟩, ?_⟩
        rw [hstack]
        refine .cons (forall₂_iff_get.mpr ⟨(length_modify ..).symm, fun i hi hi' => ?_⟩)
        rw [get_eq_getElem, get_eq_getElem, getElem_modify]
        split
        · rename_i heq
          subst heq
          rw [getElem?_eq_getElem hi, Option.map_some, Option.some.injEq] at hsame
          exact .inr ⟨hsame ▸ hrange, rfl, hnew⟩
        · exact .inl rfl
      split
      · exact hobserved.trans (fail hobserved.numbered _)
      · exact hobserved
    · exact fail h _

theorem addComponent (h : c.Numbered) (layout : InactiveComponentLayout) (range : ByteRange) :
    Walks ranges bound c (c.addComponent layout range).1 ∧
      NewComponent c.units.length (c.addComponent layout range).1.units
        (c.addComponent layout range).2 := by
  unfold UnitCollector.addComponent
  split
  · refine ⟨addUnit h .., ?_⟩
    rintro number ⟨⟩
    exact ⟨le_rfl, _, _, getElem?_concat_length, rfl, rfl⟩
  · exact ⟨fail h _, by rintro number ⟨⟩⟩

theorem walkCfgComponent {layout : InactiveComponentLayout}
    {walk : CfgComponentObservation → UnitCollector → UnitCollector} (h : c.Numbered)
    (hwalk : ∀ range active component d, node.sourceRange = .ok range → d.Numbered →
      c.units.length ≤ d.units.length → NewComponent c.units.length d.units component →
      Walks ranges c.units.length d (walk ⟨range, active, component⟩ d)) :
    Walks ranges c.units.length c (c.walkCfgComponent node layout walk) := by
  unfold UnitCollector.walkCfgComponent
  split
  · exact fail h _
  · rename_i range hrange
    dsimp only
    generalize (c.currentActive && node.configured) = active
    obtain ⟨hfound, hnew⟩ : Walks ranges c.units.length c
        (if c.currentActive && !active then c.addComponent layout range else (c, none)).1 ∧
        NewComponent c.units.length
          (if c.currentActive && !active then c.addComponent layout range else (c, none)).1.units
          (if c.currentActive && !active then c.addComponent layout range else (c, none)).2 := by
      split
      · exact addComponent h layout range
      · exact ⟨refl h, by rintro number ⟨⟩⟩
    generalize (if c.currentActive && !active then c.addComponent layout range else (c, none)) =
      found at hfound hnew
    have hpushed := numbered_pushNode hfound.numbered active _ fun number hnumber => by
      obtain ⟨-, _, _, hunit, -⟩ := hnew number hnumber
      exact (List.getElem?_eq_some_iff.mp hunit).1
    have hrecorded : Walks ranges c.units.length (found.1.pushNode active found.2)
        (if active then node.recordAttributes.run (found.1.pushNode active found.2)
          else found.1.pushNode active found.2) := by
      split
      · exact run hpushed _
      · exact refl hpushed
    refine hfound.trans (popNode active (hrecorded.trans (hwalk _ _ _ _ hrange
      hrecorded.numbered ?_ ?_)))
    · exact hfound.units.length_le.trans hrecorded.units.length_le
    · exact hnew.mono le_rfl hrecorded.units

/-! ## Tuples -/

/-- A tie takes a component of one of the elements. -/
theorem exists_tied {tuple : PendingTupleLayout} (h : c.tiedComponent tuple = .ok (some number)) :
    ∃ element ∈ tuple.elements, element.component = some number := by
  unfold UnitCollector.tiedComponent at h
  split at h
  · rename_i active _
    split at h
    · cases h
    · split at h
      · cases h
      · split at h
        · rename_i found hfound
          cases h
          obtain ⟨observation, hobservation, hcomponent⟩ := Option.bind_eq_some_iff.mp hfound
          obtain ⟨element, helement, hobserved⟩ := Option.bind_eq_some_iff.mp
            (Option.filter_eq_some_iff.mp hobservation).1
          refine ⟨element, mem_of_getElem? helement, ?_⟩
          rw [PendingTupleElement.component, hobserved]
          exact hcomponent
        · cases h
  · cases h

/-- Units that go with a new one are new. -/
theorem tie {representative : Nat} (h : Walks ranges bound c c') (hc : c.Numbered)
    (hstack : c'.tupleStack = c.tupleStack) (hrepresentative : representative < c.units.length)
    (hnew : NewComponent c.units.length c'.units component) :
    Walks ranges bound c (c'.tie component representative) := by
  unfold UnitCollector.tie
  split
  · exact h
  · rename_i unit hunit
    obtain ⟨number, hnumber, hunit⟩ := Option.bind_eq_some_iff.mp hunit
    obtain ⟨hbound, range, unit', hunit', -, hown⟩ := hnew number hnumber
    cases hunit.symm.trans hunit'
    have hlength := h.units.length_le
    have hmap : ∀ other ∈ c.units, (if other.atomicRepresentative = unit.atomicRepresentative then
        { other with atomicRepresentative := representative } else other) = other := by
      intro other hother
      have hlt := hc.representatives other hother
      rw [if_neg (by omega)]
    refine { h with units := ?_, numbered := ⟨?_, fun parent hparent => ?_⟩, tupleStack := ?_ }
    · obtain ⟨more, hmore⟩ := h.units
      dsimp only
      rw [← hmore, map_append, map_congr_left hmap, map_id']
      exact prefix_append _ _
    · intro other hother
      dsimp only at hother ⊢
      rw [length_map]
      obtain ⟨old, hold, rfl⟩ := mem_map.mp hother
      split
      · exact hrepresentative.trans_le hlength
      · exact h.numbered.representatives old hold
    · dsimp only at hparent ⊢
      rw [length_map]
      exact h.numbered.parents parent hparent
    · dsimp only
      rw [hstack]
      exact .refl _

/-- When a tuple is finished, the tuples around it are as they were before it. -/
theorem finishTupleLayout {representative : Nat} (hc : c.Numbered)
    (hrepresentative : representative < c.units.length)
    (helements : ∀ element ∈ elements, element.observation = none)
    (h : Walks ranges c.units.length
      { c with tupleStack := ⟨representative, elements⟩ :: c.tupleStack } c') :
    Walks ranges bound c c'.finishTupleLayout := by
  obtain ⟨elements', hstack, hkept⟩ := h.tupleStack.exists_elements
  have hpopped : Walks ranges bound c { c' with tupleStack := c.tupleStack } :=
    ⟨h.sourceTokens, h.parentStack, h.activeStack, h.units,
      ⟨h.numbered.representatives, h.numbered.parents⟩, .refl _⟩
  unfold UnitCollector.finishTupleLayout
  rw [hstack]
  dsimp only
  split
  · exact hpopped.trans (fail hpopped.numbered _)
  · split
    · exact hpopped.trans (fail hpopped.numbered _)
    · rename_i tied htied
      refine hpopped.tie hc rfl hrepresentative ?_
      rintro number ⟨⟩
      obtain ⟨element', helement', hcomponent⟩ := exists_tied htied
      obtain ⟨index, hindex⟩ := getElem?_of_mem helement'
      obtain ⟨element, helement, rfl | ⟨-, -, hnew⟩⟩ := getElem?_of_forall₂_right hkept hindex
      · rw [PendingTupleElement.component, helements _ (mem_of_getElem? helement)] at hcomponent
        cases hcomponent
      · exact hnew number hcomponent

theorem pendingElements_observation {nodes : List CfgNode}
    (h : UnitCollector.pendingElements nodes = .ok elements) :
    ∀ element ∈ elements, element.observation = none := by
  intro element helement
  obtain ⟨index, hindex⟩ := getElem?_of_mem helement
  obtain ⟨node, -, hnode⟩ := getElem?_of_forall₂_right (mapM_ok h) hindex
  cases hrange : node.sourceRange with
  | error error =>
    rw [hrange] at hnode
    cases hnode
  | ok range =>
    rw [hrange] at hnode
    cases hnode
    rfl

variable {attributes children : List SyntaxNode}

/-- What the walk finds in the attributes and behind them, in the order of the two. -/
theorem inside (hc : c.Numbered)
    (hattributes : ∀ d : UnitCollector, d.Numbered →
      Walks ranges d.units.length d (d.visitAll attributes))
    (hchildren : ∀ d : UnitCollector, d.Numbered →
      Walks ranges' d.units.length d (d.visitAll children)) :
    Walks (ranges ++ ranges') c.units.length c ((c.visitAll attributes).visitAll children) := by
  have hfirst := hattributes c hc
  exact (hfirst.mono (subset_append_left ..) le_rfl).trans
    ((hchildren _ hfirst.numbered).mono (subset_append_right ..) hfirst.units.length_le)

theorem visitTuple (hc : c.Numbered)
    (hinside : ∀ d : UnitCollector, d.Numbered →
      Walks ranges d.units.length d ((d.visitAll attributes).visitAll children)) :
    Walks ranges c.units.length c (c.visitTuple attributes children) := by
  unfold UnitCollector.visitTuple UnitCollector.walkTuple
  dsimp only
  split
  · unfold UnitCollector.beginTupleLayout
    split
    · exact hinside c hc
    · split
      · rename_i pending parent hpending hparent
        dsimp only
        rw [if_pos rfl]
        exact finishTupleLayout hc (hc.representatives parent (mem_of_getElem? hparent))
          (pendingElements_observation hpending)
          (hinside { c with tupleStack := _ :: c.tupleStack } ⟨hc.representatives, hc.parents⟩)
      · rename_i error _
        have hfailed : Walks ranges c.units.length c (c.fail error) := fail hc error
        exact hfailed.trans (hinside _ hfailed.numbered)
      · exact hinside c hc
  · exact hinside c hc

theorem visitExpression (isTuple : Bool) (hc : c.Numbered)
    (hinside : ∀ d : UnitCollector, d.Numbered →
      Walks ranges d.units.length d ((d.visitAll attributes).visitAll children)) :
    Walks ranges c.units.length c (c.visitExpression isTuple attributes children) := by
  unfold UnitCollector.visitExpression
  split
  · exact visitTuple hc hinside
  · exact hinside c hc

/-- What is inside a node that the walk pushes. -/
theorem pushed (hc : c.Numbered) (node : CfgNode) (active : Bool)
    (hcomponent : ∀ number ∈ component, number < c.units.length)
    (hinside : ∀ d : UnitCollector, d.Numbered →
      Walks ranges d.units.length d ((d.visitAll attributes).visitAll children)) :
    Walks ranges c.units.length c ((((if active then
        node.recordAttributes.run (c.pushNode active component)
      else c.pushNode active component).visitAll attributes).visitAll children).popNode
        component) := by
  have hpushed := numbered_pushNode hc active _ hcomponent
  refine popNode active ?_
  split
  · exact (run hpushed _).trans ((hinside _ (node.recordAttributes.numbered _ hpushed)).mono
      (List.Subset.refl _) (node.recordAttributes.units (c.pushNode active component)).length_le)
  · exact hinside _ hpushed

end Walks

/-! ## Trees -/

open SyntaxNode

mutual

/-- By induction on the tree: what holds of the walk over a node follows from what holds inside. -/
theorem visit_walks (node : SyntaxNode) (c : UnitCollector) (h : c.Numbered) :
    Walks node.expressionRanges c.units.length c (c.visit node) := by
  obtain ⟨node, kind, attributes, children⟩ := node
  have hinside : ∀ d : UnitCollector, d.Numbered →
      Walks (expressionRangesAll attributes ++ expressionRangesAll children) d.units.length d
        ((d.visitAll attributes).visitAll children) := fun d hd =>
    .inside hd (visitAll_walks attributes) (visitAll_walks children)
  cases kind with
  | expression isTuple =>
    rw [UnitCollector.visit_expression]
    refine .walkCfgComponent h fun range active component d hrange hd hlength hnew => ?_
    rw [SyntaxNode.expressionRanges, hrange]
    have hobserved : Walks [range] c.units.length d
        (d.recordTupleElement ⟨range, active, component⟩) :=
          .recordTupleElement hd (mem_singleton_self _) hnew
    have hrecorded := hobserved.trans (.run hobserved.numbered node.record)
    exact (hrecorded.mono (subset_append_left [range] _) le_rfl).trans
      ((Walks.visitExpression isTuple hrecorded.numbered hinside).mono (subset_append_right ..)
        (hlength.trans hrecorded.units.length_le))
  | component layout =>
    rw [UnitCollector.visit]
    refine .walkCfgComponent h fun range active component d _ hd hlength _ => ?_
    exact (Walks.run hd node.record).trans (.mono (hinside _ (node.record.numbered d hd))
      (subset_append_right ..) (hlength.trans (node.record.units d).length_le))
  | item kind =>
    rw [UnitCollector.visit]
    split
    · exact .fail h _
    · rename_i range _
      have hadded : Walks [] c.units.length c (c.addUnit kind range
          (c.currentActive && node.configured) c.currentParent none) := .addUnit h ..
      have hfound := hadded.trans (.run hadded.numbered node.record)
      have hlength : c.units.length < (c.addUnit kind range (c.currentActive && node.configured)
          c.currentParent none).units.length := by
        rw [UnitCollector.addUnit, length_append]
        exact Nat.lt_succ_self _
      have hlength := hlength.trans_le (node.record.units (c.addUnit kind range
        (c.currentActive && node.configured) c.currentParent none)).length_le
      refine (hfound.mono (nil_subset _) le_rfl).trans (.mono (.pushed hfound.numbered node _
        (fun number hnumber => ?_) hinside) (subset_append_right ..) hlength.le)
      cases hnumber
      exact hlength
  | scope =>
    rw [UnitCollector.visit]
    exact .mono (.pushed h node _ (fun _ hnumber => nomatch hnumber) hinside)
      (subset_append_right ..) le_rfl
  | inside =>
    rw [UnitCollector.visit]
    exact (Walks.run h node.record).trans (.mono (hinside _ (node.record.numbered c h))
      (subset_append_right ..) (node.record.units c).length_le)

theorem visitAll_walks (nodes : List SyntaxNode) (c : UnitCollector) (h : c.Numbered) :
    Walks (expressionRangesAll nodes) c.units.length c (c.visitAll nodes) := by
  match nodes with
  | [] =>
    exact .refl h
  | node :: nodes =>
    have hfirst := visit_walks node c h
    exact (hfirst.mono (subset_append_left ..) le_rfl).trans
      ((visitAll_walks nodes _ hfirst.numbered).mono (subset_append_right ..)
        hfirst.units.length_le)

end

end

end ItemDependencies
