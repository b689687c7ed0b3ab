import ItemDependencies.Source.SyntaxWalk

/-!
# The walk over a tuple

Each element of a tuple is observed at its place, and an inactive one gets a unit
of its own for the range that it is deleted with.
-/

namespace ItemDependencies

open Library SyntaxNode List

def SyntaxNode.configured (node : SyntaxNode) : Bool := node.node.configured

/-- An expression with a range, where the expressions inside have smaller ones. -/
inductive SyntaxNode.Stands : SyntaxNode → ByteRange → Prop
  | mk {node : CfgNode} {isTuple : Bool} {attributes children : List SyntaxNode} {range : ByteRange}
      (sourceRange : node.sourceRange = .ok range)
      (hasCfg : node.configured = false → node.hasCfg = true)
      (inside : ∀ inner ∈ expressionRangesAll attributes ++ expressionRangesAll children,
        range.contains inner = true ∧ inner ≠ range) :
      Stands (.mk node (.expression isTuple) attributes children) range

/-- What is known of an element: its range, whether it is active and, if it is not, its unit. -/
structure Observed (units : List PendingUnit) (entry : Bool × (ByteRange × ByteRange))
    (element : PendingTupleElement) : Prop where
  range : element.sourceRange = entry.2.1
  observation : ∃ component, element.observation = some ⟨entry.2.1, entry.1, component⟩ ∧
    (entry.1 = true → component = none) ∧
    (entry.1 = false → ∃ number, component = some number ∧ HasComponent units entry.2.2 number)

section

variable {c c' : UnitCollector} {node : SyntaxNode} {range whole : ByteRange}
  {tuple : PendingTupleLayout} {stack : List PendingTupleLayout} {index : Nat}
  {units units' : List PendingUnit} {entry : Bool × (ByteRange × ByteRange)}
  {element : PendingTupleElement} {entries : List (Bool × (ByteRange × ByteRange))}
  {representative : Nat} {done : List PendingTupleElement}

theorem Observed.mono (h : Observed units entry element) (hextends : units <+: units') :
    Observed units' entry element := by
  obtain ⟨hrange, component, hobservation, hactive, hinactive⟩ := h
  refine ⟨hrange, component, hobservation, hactive, fun hflag => ?_⟩
  obtain ⟨number, hnumber, hcomponent⟩ := hinactive hflag
  exact ⟨number, hnumber, hcomponent.mono hextends⟩

/-! ## One element -/

/-- An element of the innermost tuple is observed at its place. -/
theorem recordTupleElement_eq {observation : CfgComponentObservation}
    (htuple : c.tupleStack = tuple :: stack)
    (hposition : tuple.positions observation.sourceRange = [index])
    (hnew : tuple.elements[index]?.bind PendingTupleElement.observation = none) :
    c.recordTupleElement observation =
      { c with tupleStack := tuple.observe index observation :: stack } := by
  unfold UnitCollector.recordTupleElement
  rw [htuple]
  dsimp only
  rw [hposition]
  dsimp only
  rw [hnew]
  rfl

theorem exists_of_mem_observe {observation : CfgComponentObservation}
    (h : element ∈ (tuple.observe index observation).elements) :
    ∃ element' ∈ tuple.elements, element'.sourceRange = element.sourceRange := by
  obtain ⟨i, hi⟩ := getElem?_of_mem h
  rw [PendingTupleLayout.observe, getElem?_modify] at hi
  obtain ⟨element', helement', rfl⟩ := Option.map_eq_some_iff.mp hi
  refine ⟨element', mem_of_getElem? helement', ?_⟩
  split <;> rfl

/-- Inside an element the walk finds only units. -/
theorem visitExpression_walked (first second : Recording) {d : UnitCollector} {isTuple : Bool}
    {component : Option Nat} {active : Bool} {attributes children : List SyntaxNode}
    (hd : d.Numbered) (htuple : d.tupleStack = tuple :: stack)
    (hposition : tuple.positions range = [index])
    (hnew : tuple.elements[index]?.bind PendingTupleElement.observation = none)
    (hinside : ∀ element ∈ tuple.elements,
      element.sourceRange ∉ expressionRangesAll attributes ++ expressionRangesAll children) :
    ∃ c', (second.run ((first.run d).recordTupleElement ⟨range, active, component⟩)).visitExpression
        isTuple attributes children = c' ∧ d.units <+: c'.units ∧
      c'.tupleStack = tuple.observe index ⟨range, active, component⟩ :: stack := by
  refine ⟨_, rfl, ?_⟩
  have hfirst := first.numbered d hd
  have hunits := first.units d
  have hstack := (first.tupleStack d).trans htuple
  rw [recordTupleElement_eq hstack hposition hnew]
  generalize first.run d = d at hfirst hunits
  have hobserved : { d with
      tupleStack := tuple.observe index ⟨range, active, component⟩ :: stack }.Numbered :=
    ⟨hfirst.representatives, hfirst.parents⟩
  have hsecond := second.numbered _ hobserved
  have hwalk := Walks.visitExpression isTuple hsecond fun _ hd =>
    .inside hd (visitAll_walks attributes) (visitAll_walks children)
  refine ⟨hunits.trans (List.IsPrefix.trans (second.units { d with
    tupleStack := tuple.observe index ⟨range, active, component⟩ :: stack }) hwalk.units), ?_⟩
  have hkept := hwalk.tupleStack
  rw [second.tupleStack] at hkept
  refine hkept.eq_of_notMem fun element helement => ?_
  obtain ⟨element', helement', hsame⟩ := exists_of_mem_observe helement
  exact hsame ▸ hinside element' helement'

/-- The walk over an element observes it, and gives it a unit if it is inactive. -/
theorem visitElement_walked (hc : c.Numbered) (hactive : c.currentActive = true)
    (hnode : node.Stands range) (hrange : c.commaSeparatedRange range = .ok whole)
    (hparent : (c.units[c.currentParent]?).any (fun unit => unit.fullRange.contains whole) = true)
    (htuple : c.tupleStack = tuple :: stack) (hposition : tuple.positions range = [index])
    (hnew : tuple.elements[index]?.bind PendingTupleElement.observation = none)
    (hother : ∀ element ∈ tuple.elements, range.contains element.sourceRange = true →
      element.sourceRange = range) :
    ∃ component,
      (c.visit node).tupleStack = tuple.observe index ⟨range, node.configured, component⟩ :: stack ∧
      (node.configured = true → component = none) ∧
      (node.configured = false → component = some c.units.length ∧
        HasComponent (c.visit node).units whole c.units.length) := by
  obtain ⟨hsource, hcfg, hinside⟩ := hnode
  rename_i node isTuple attributes children
  have hnone : ∀ element ∈ tuple.elements,
      element.sourceRange ∉ expressionRangesAll attributes ++ expressionRangesAll children :=
    fun element helement hmem => (hinside _ hmem).2 (hother element helement (hinside _ hmem).1)
  rw [UnitCollector.visit_expression, UnitCollector.walkCfgComponent, hsource,
    show (SyntaxNode.mk node _ _ _).configured = node.configured from rfl]
  dsimp only
  rw [hactive]
  cases hconfigured : node.configured with
  | true =>
    refine ⟨none, ?_, fun _ => rfl, fun h => absurd h Bool.true_eq_false_eq_False⟩
    simp only [Bool.and_true, Bool.not_true, Bool.and_false, Bool.false_eq_true, if_true, if_false]
    obtain ⟨c', hwalk, -, hstack⟩ := visitExpression_walked node.recordAttributes node.record
      (Walks.numbered_pushNode hc true none (by rintro _ ⟨⟩)) htuple hposition hnew hnone
    rw [hwalk]
    exact hstack
  | false =>
    have hcomponent : c.addComponent .commaSeparated range =
        (c.addUnit .inactiveCfgComponent whole false c.currentParent none,
          some c.units.length) := by
      have hfound : c.componentRange .commaSeparated range = .ok whole := by
        unfold UnitCollector.componentRange
        dsimp only [bind, Except.bind]
        rw [hrange]
        dsimp only
        rw [if_pos hparent]
        rfl
      rw [UnitCollector.addComponent, hfound]
    simp only [Bool.and_false, Bool.not_false, Bool.and_true, Bool.false_eq_true, if_true, if_false]
    rw [hcomponent]
    have hadded : HasComponent (c.addUnit .inactiveCfgComponent whole false c.currentParent
        none).units whole c.units.length := ⟨_, getElem?_concat_length, rfl, rfl⟩
    have hwalks : Walks [] 0 c (c.addUnit .inactiveCfgComponent whole false c.currentParent none) :=
      .addUnit hc ..
    have hpushed := Walks.numbered_pushNode hwalks.numbered false (some c.units.length)
      fun number hnumber => by
        cases hnumber
        exact (List.getElem?_eq_some_iff.mp hadded.choose_spec.1).1
    obtain ⟨c', hwalk, hunits, hstack⟩ :=
      visitExpression_walked .nothing node.record hpushed htuple hposition hnew hnone
    refine ⟨some c.units.length, ?_, fun h => h.elim, fun _ => ⟨rfl, ?_⟩⟩
    · exact (congrArg UnitCollector.tupleStack hwalk).trans hstack
    · exact (hadded.mono hunits).mono (hwalk ▸ prefix_rfl)

/-! ## All elements -/

/-- The tuple while its elements are walked over: those that are done are observed. -/
structure TupleWalked (start c : UnitCollector) (representative : Nat)
    (stack : List PendingTupleLayout) (entries : List (Bool × (ByteRange × ByteRange)))
    (done : List PendingTupleElement) (rest : List (ByteRange × ByteRange)) : Prop where
  sourceTokens : c.sourceTokens = start.sourceTokens
  parentStack : c.parentStack = start.parentStack
  activeStack : c.activeStack = start.activeStack
  units : start.units <+: c.units
  numbered : c.Numbered
  tupleStack : c.tupleStack = ⟨representative, done ++ rest.map fun span => ⟨span.1, none⟩⟩ :: stack
  observed : List.Forall₂ (Observed c.units) entries done
  ascending : (done.filterMap PendingTupleElement.component).Pairwise (· < ·)
  fresh : ∀ number ∈ done.filterMap PendingTupleElement.component,
    start.units.length ≤ number ∧ number < c.units.length

/-- A range belongs to one element. -/
theorem positions_eq {element : PendingTupleElement} {elements : List PendingTupleElement}
    (hnodup : (elements.map PendingTupleElement.sourceRange).Nodup)
    (hindex : elements[index]? = some element) :
    (⟨representative, elements⟩ : PendingTupleLayout).positions element.sourceRange = [index] := by
  have hlt := (List.getElem?_eq_some_iff.mp hindex).1
  have hperm : ((⟨representative, elements⟩ : PendingTupleLayout).positions
      element.sourceRange).Perm [index] := by
    refine (perm_ext_iff_of_nodup (nodup_range.filter _) (nodup_singleton index)).mpr fun k => ?_
    rw [mem_filter, mem_range, decide_eq_true_eq, mem_singleton]
    constructor
    · rintro ⟨hk, hsame⟩
      refine (getElem?_inj (by simpa using hk) hnodup).mp ?_
      rw [getElem?_map, getElem?_map, hsame, hindex, Option.map_some]
    · rintro rfl
      exact ⟨hlt, by rw [hindex, Option.map_some]⟩
  exact perm_singleton.mp hperm

theorem commaSeparatedRange_congr (h : c'.sourceTokens = c.sourceTokens) (range : ByteRange) :
    c'.commaSeparatedRange range = c.commaSeparatedRange range := by
  rw [UnitCollector.commaSeparatedRange, UnitCollector.commaSeparatedRange,
    UnitCollector.followingNontrivia, UnitCollector.followingNontrivia, h]

theorem modify_length (f : PendingTupleElement → PendingTupleElement)
    (done rest : List PendingTupleElement) (element : PendingTupleElement) :
    (done ++ element :: rest).modify done.length f = done ++ [f element] ++ rest := by
  induction done with
  | nil => rfl
  | cons first done ih =>
    rw [cons_append, length_cons, modify_succ_cons, ih]
    rfl

theorem observed_ranges (h : List.Forall₂ (Observed units) entries done) :
    done.map PendingTupleElement.sourceRange = (entries.map Prod.snd).map Prod.fst := by
  induction h with
  | nil => rfl
  | cons hfirst _ ih => rw [map_cons, map_cons, map_cons, hfirst.range, ih]

/-- One more element. -/
theorem TupleWalked.step {start : UnitCollector} {span : ByteRange × ByteRange}
    {rest : List (ByteRange × ByteRange)}
    (h : TupleWalked start c representative stack entries done (span :: rest))
    (hapart : Apart (entries.map Prod.snd ++ span :: rest)) (hactive : start.currentActive = true)
    (hnode : node.Stands span.1) (hrange : start.commaSeparatedRange span.1 = .ok span.2)
    (hparent : (start.units[start.currentParent]?).any
      (fun unit => unit.fullRange.contains span.2) = true) :
    ∃ element, TupleWalked start (c.visit node) representative stack
      (entries ++ [(node.configured, span)]) (done ++ [element]) rest := by
  have htuple := h.tupleStack
  rw [map_cons] at htuple
  have hindex : (done ++ ⟨span.1, none⟩ :: rest.map fun span =>
      (⟨span.1, none⟩ : PendingTupleElement))[done.length]? = some ⟨span.1, none⟩ := by
    rw [getElem?_append_right le_rfl, Nat.sub_self]
    rfl
  have hranges : (done ++ ⟨span.1, none⟩ :: rest.map fun span =>
      (⟨span.1, none⟩ : PendingTupleElement)).map PendingTupleElement.sourceRange =
        (entries.map Prod.snd ++ span :: rest).map Prod.fst := by
    have hrest : (rest.map fun span => (⟨span.1, none⟩ : PendingTupleElement)).map
        PendingTupleElement.sourceRange = rest.map Prod.fst := by
      rw [map_map]
      rfl
    rw [map_append, observed_ranges h.observed, map_cons, hrest, map_append, map_cons]
  have hparent' : (c.units[c.currentParent]?).any
      (fun unit => unit.fullRange.contains span.2) = true := by
    have hsame : c.currentParent = start.currentParent := by
      rw [UnitCollector.currentParent, h.parentStack, UnitCollector.currentParent]
    obtain ⟨more, hmore⟩ := h.units
    cases hunit : start.units[start.currentParent]? with
    | none =>
      rw [hunit] at hparent
      cases hparent
    | some unit =>
      rw [hsame, ← hmore, getElem?_append_left (List.getElem?_eq_some_iff.mp hunit).1]
      exact hparent
  have hactive' : c.currentActive = true := by
    rw [UnitCollector.currentActive, h.activeStack]
    exact hactive
  have hnew : (done ++ ⟨span.1, none⟩ :: rest.map fun span =>
      (⟨span.1, none⟩ : PendingTupleElement))[done.length]?.bind
        PendingTupleElement.observation = none := by
    rw [hindex]
    rfl
  have hwalked := visit_walks node c h.numbered
  obtain ⟨component, hstack, hkept, hunit⟩ := visitElement_walked h.numbered hactive' hnode
    ((commaSeparatedRange_congr h.sourceTokens _).trans hrange) hparent' htuple
    (positions_eq (hranges ▸ hapart.nodup) hindex) hnew fun element helement hcontains => by
      have hmem := mem_map_of_mem (f := PendingTupleElement.sourceRange) helement
      rw [hranges] at hmem
      obtain ⟨other, hmem, hsame⟩ := mem_map.mp hmem
      rw [← hsame] at hcontains ⊢
      exact hapart.eq_of_contains span (mem_append_right _ mem_cons_self) other hmem hcontains
  have hnumbers : ∀ number ∈ component, number = c.units.length ∧
      c.units.length < (c.visit node).units.length := by
    intro number hnumber
    cases hflag : node.configured with
    | true =>
      rw [hkept hflag] at hnumber
      cases hnumber
    | false =>
      obtain ⟨hcomponent, unit, hhas, -⟩ := hunit hflag
      rw [hcomponent] at hnumber
      cases hnumber
      exact ⟨rfl, (List.getElem?_eq_some_iff.mp hhas).1⟩
  have hlength := hwalked.units.length_le
  refine ⟨⟨span.1, some ⟨span.1, node.configured, component⟩⟩, ?_⟩
  have hsingle : ∀ number, number ∈ [(⟨span.1, some ⟨span.1, node.configured, component⟩⟩ :
      PendingTupleElement)].filterMap PendingTupleElement.component → number ∈ component := by
    intro number hnumber
    obtain ⟨element, helement, hcomponent⟩ := mem_filterMap.mp hnumber
    rw [mem_singleton.mp helement] at hcomponent
    exact hcomponent
  constructor
  case sourceTokens => exact hwalked.sourceTokens.trans h.sourceTokens
  case parentStack => exact hwalked.parentStack.trans h.parentStack
  case activeStack => exact hwalked.activeStack.trans h.activeStack
  case units => exact h.units.trans hwalked.units
  case numbered => exact hwalked.numbered
  case tupleStack =>
    rw [hstack, PendingTupleLayout.observe]
    dsimp only
    rw [modify_length]
  case observed =>
    refine rel_append (h.observed.imp fun _ _ hobserved => hobserved.mono hwalked.units)
      (.cons ⟨rfl, component, rfl, hkept, fun hflag => ?_⟩ .nil)
    obtain ⟨hcomponent, hhas⟩ := hunit hflag
    exact ⟨_, hcomponent, hhas⟩
  case ascending =>
    rw [filterMap_append, pairwise_append]
    refine ⟨h.ascending, ?_, fun number hnumber other hother => ?_⟩
    · cases component with
      | none => exact .nil
      | some number => exact pairwise_singleton _ _
    · rw [(hnumbers other (hsingle other hother)).1]
      exact (h.fresh number hnumber).2
  case fresh =>
    intro number hnumber
    rw [filterMap_append, mem_append] at hnumber
    rcases hnumber with hnumber | hnumber
    · exact (h.fresh number hnumber).imp_right fun hlt => hlt.trans_le hlength
    · obtain ⟨rfl, hlt⟩ := hnumbers number (hsingle number hnumber)
      exact ⟨h.units.length_le, hlt⟩

/-- The attributes of the tuple come first. -/
theorem TupleWalked.start {start : UnitCollector} {attributes : List SyntaxNode}
    {spans : List (ByteRange × ByteRange)} (hstart : start.Numbered)
    (htuple : start.tupleStack = ⟨representative, spans.map fun span => ⟨span.1, none⟩⟩ :: stack)
    (hnone : ∀ span ∈ spans, span.1 ∉ expressionRangesAll attributes) :
    TupleWalked start (start.visitAll attributes) representative stack [] [] spans := by
  have hwalks := visitAll_walks attributes start hstart
  have hkept := hwalks.tupleStack
  rw [htuple] at hkept
  refine ⟨hwalks.sourceTokens, hwalks.parentStack, hwalks.activeStack, hwalks.units,
    hwalks.numbered, hkept.eq_of_notMem fun element helement => ?_, .nil, .nil,
    fun _ h => nomatch h⟩
  obtain ⟨span, hspan, rfl⟩ := mem_map.mp helement
  exact hnone span hspan

/-- All elements are observed one after the other. -/
theorem TupleWalked.run {start : UnitCollector} {nodes : List SyntaxNode}
    {spans : List (ByteRange × ByteRange)}
    (h : TupleWalked start c representative stack entries done spans)
    (hapart : Apart (entries.map Prod.snd ++ spans)) (hactive : start.currentActive = true)
    (hnodes : List.Forall₂ (fun node span => node.Stands span.1) nodes spans)
    (hspans : ∀ span ∈ spans, start.commaSeparatedRange span.1 = .ok span.2 ∧
      (start.units[start.currentParent]?).any (fun unit => unit.fullRange.contains span.2) = true) :
    ∃ elements, TupleWalked start (c.visitAll nodes) representative stack
      (entries ++ (nodes.map SyntaxNode.configured).zip spans) elements [] := by
  induction hnodes generalizing c entries done with
  | nil =>
    refine ⟨done, ?_⟩
    rw [map_nil, zip_nil_left, append_nil]
    exact h
  | @cons node span nodes spans hnode _ ih =>
    obtain ⟨⟨hrange, hparent⟩, hspans⟩ := forall_mem_cons.mp hspans
    obtain ⟨element, hstep⟩ := h.step hapart hactive hnode hrange hparent
    have hspans' : (entries ++ [(node.configured, span)]).map Prod.snd ++ spans =
        entries.map Prod.snd ++ span :: spans := by
      rw [map_append, append_assoc]
      rfl
    obtain ⟨elements, hrun⟩ := ih hstep (hspans' ▸ hapart) hspans
    refine ⟨elements, ?_⟩
    rw [append_assoc] at hrun
    exact hrun

end

end ItemDependencies
