import ItemDependencies.Source.DeriveRewrite
import ItemDependencies.Source.TupleWalk

/-!
# What is left of a tuple

Deleting the inactive elements of a tuple, but for the one that is tied to its
parent, leaves a tuple with the same active elements.
-/

namespace ItemDependencies

open Library RawToken List

/-- The positions of the flags that are set. -/
def truePositions (flags : List Bool) : List Nat :=
  (List.range flags.length).filter fun index => flags[index]? = some true

/-- The elements that stay when only the inactive ones are deleted that need not be kept. -/
def keepFlags (flags : List Bool) (comma : Bool) : List Bool :=
  if truePositions flags = [flags.length - 1] ∧ comma = false then flags.set (flags.length - 2) true
  else flags

/-- The ranges of the inactive elements of a tuple that are not tied to its parent. -/
def untiedRanges (tuple : PendingTupleLayout) (units : List PendingUnit) : List ByteRange :=
  (tuple.elements.filterMap PendingTupleElement.component).filterMap fun component =>
    (units[component]?.filter fun unit =>
      unit.atomicRepresentative ≠ tuple.parentAtomicRepresentative).map PendingUnit.fullRange

/-- The elements of a tuple that are deleted. -/
def UnitCollector.tupleDeletions (c : UnitCollector) (attributes nodes : List SyntaxNode) :
    List ByteRange :=
  match (c.walkTuple attributes nodes).2, (c.walkTuple attributes nodes).1.tupleStack with
  | true, tuple :: _ => untiedRanges tuple (c.visitTuple attributes nodes).units
  | _, _ => []

/-- The active elements of a list. -/
def activeTokens (elements : List ListedElement) (flags : List Bool) : List (List RawToken) :=
  (staying elements flags).map ListedElement.tokens

section

variable {flags keep : List Bool} {elements : List ListedElement} {comma : Bool}

/-! ## Flags -/

theorem mem_truePositions {index : Nat} : index ∈ truePositions flags ↔
    flags[index]? = some true := by
  rw [truePositions, mem_filter, mem_range, decide_eq_true_eq, and_iff_right_iff_imp]
  exact fun h => (List.getElem?_eq_some_iff.mp h).1

theorem length_keepFlags : (keepFlags flags comma).length = flags.length := by
  rw [keepFlags]
  split
  · exact length_set
  · rfl

/-- Active elements stay. -/
theorem keepFlags_of_active {index : Nat} (h : flags[index]? = some true) :
    (keepFlags flags comma)[index]? = some true := by
  rw [keepFlags]
  split
  · rw [getElem?_set]
    split
    · rename_i heq
      have hlt := (List.getElem?_eq_some_iff.mp h).1
      rw [if_pos (by omega)]
    · exact h
  · exact h

/-- The elements that stay stand at the positions whose flags are set. -/
theorem staying_eq (hlength : flags.length = elements.length) :
    staying elements flags = (truePositions flags).filterMap fun index => elements[index]? := by
  induction elements generalizing flags with
  | nil =>
    rw [length_nil, length_eq_zero_iff] at hlength
    subst hlength
    rfl
  | cons element elements ih =>
    obtain ⟨flag, flags, rfl⟩ := exists_cons_of_length_eq_add_one hlength
    have hrest := ih (Nat.succ.inj hlength)
    have hpositions : truePositions (flag :: flags) =
        (if flag = true then [0] else []) ++ (truePositions flags).map Nat.succ := by
      rw [truePositions, length_cons, range_succ_eq_map, filter_cons, filter_map]
      cases flag <;> rfl
    have hstaying : staying (element :: elements) (flag :: flags) =
        (if flag = true then [element] else []) ++ staying elements flags := by
      cases flag <;> rfl
    rw [hstaying, hrest, hpositions, filterMap_append, filterMap_map]
    cases flag <;> rfl

/-- A single element that stays has a comma. -/
theorem stop_ne_nil_of_staying (hlength : flags.length = elements.length)
    (hmany : 2 ≤ elements.length)
    (hcommas : ∀ index element, elements[index]? = some element → index + 1 < elements.length →
      element.stop ≠ [])
    (hcomma : elements.getLast?.any (fun element => !element.stop.isEmpty) = comma)
    {element : ListedElement} (h : staying elements (keepFlags flags comma) = [element]) :
    element.stop ≠ [] := by
  rw [staying_eq (length_keepFlags.trans hlength)] at h
  have hone : (truePositions (keepFlags flags comma)).length = 1 := by
    have hall := length_filterMap_eq_countP (f := fun index => elements[index]?)
      (l := truePositions (keepFlags flags comma))
    rw [h, countP_eq_length.mpr] at hall
    · exact hall.symm
    · intro k hk
      have hlt := (List.getElem?_eq_some_iff.mp (mem_truePositions.mp hk)).1
      rw [length_keepFlags, hlength] at hlt
      rw [getElem?_eq_getElem hlt]
      rfl
  obtain ⟨index, hindex⟩ := length_eq_one_iff.mp hone
  have helement : elements[index]? = some element := by
    rw [hindex] at h
    cases hget : elements[index]? with
    | none =>
      rw [filterMap_cons_none hget] at h
      cases h
    | some other =>
      rw [filterMap_cons_some hget] at h
      cases h
      rfl
  have hlt := (List.getElem?_eq_some_iff.mp helement).1
  rw [keepFlags] at hindex
  split at hindex
  · rename_i htied
    -- the last element and the one before it
    have hlast : flags.length - 1 ∈ truePositions flags := by
      rw [htied.1]
      exact mem_singleton_self _
    have hmem : flags.length - 1 ∈ truePositions (flags.set (flags.length - 2) true) := by
      refine mem_truePositions.mpr ?_
      rw [getElem?_set_ne (by omega)]
      exact mem_truePositions.mp hlast
    have hmem' : flags.length - 2 ∈ truePositions (flags.set (flags.length - 2) true) := by
      refine mem_truePositions.mpr ?_
      rw [getElem?_set_self (by omega)]
    rw [hindex, mem_singleton] at hmem hmem'
    omega
  · rename_i hfree
    by_cases hlast : index + 1 < elements.length
    · exact hcommas index element helement hlast
    · intro hstop
      have hend : index = elements.length - 1 := by omega
      subst hend
      rw [getLast?_eq_getElem?, helement, Option.any_some, hstop] at hcomma
      refine hfree ⟨?_, hcomma.symm⟩
      rw [hindex, hlength]

/-- What stays is not a single expression without a comma. -/
theorem isTuple_staying (hlength : flags.length = elements.length) (hmany : 2 ≤ elements.length)
    (hcommas : ∀ index element, elements[index]? = some element → index + 1 < elements.length →
      element.stop ≠ [])
    (hcomma : elements.getLast?.any (fun element => !element.stop.isEmpty) = comma)
    {left : List ListedElement}
    (hleft : left.map ListedElement.core =
      (staying elements (keepFlags flags comma)).map ListedElement.core) (last : List RawToken) :
    (⟨left, last⟩ : ExpressionList).isTuple = true := by
  cases left with
  | nil => rfl
  | cons element rest =>
    cases rest with
    | cons _ _ => rfl
    | nil =>
      obtain ⟨other, hother⟩ : ∃ other, staying elements (keepFlags flags comma) = [other] := by
        rw [← length_eq_one_iff, ← length_map ListedElement.core, ← hleft]
        rfl
      have hne := stop_ne_nil_of_staying hlength hmany hcommas hcomma hother
      rw [hother] at hleft
      have hcore : element.core = other.core := head_eq_of_cons_eq hleft
      have hstop : element.stop = other.stop := congrArg Prod.snd hcore
      show (!element.stop.isEmpty) = true
      rw [hstop, Bool.not_eq_true', isEmpty_eq_false_iff]
      exact hne

/-! ## The tied element -/

section

variable {c : UnitCollector} {units : List PendingUnit} {spans : List (ByteRange × ByteRange)}
  {observed : List PendingTupleElement} {representative : Nat}
  (hobserved : List.Forall₂ (Observed units) (flags.zip spans) observed)
  (hspans : flags.length = spans.length)

include hobserved hspans

theorem length_observed : observed.length = flags.length := by
  rw [← hobserved.length_eq, length_zip, ← hspans, Nat.min_self]

theorem observed_at {index : Nat} {flag : Bool} (h : flags[index]? = some flag) :
    ∃ span element, spans[index]? = some span ∧ observed[index]? = some element ∧
      Observed units (flag, span) element := by
  have hlt := (List.getElem?_eq_some_iff.mp h).1
  obtain ⟨span, hspan⟩ : ∃ span, spans[index]? = some span :=
    ⟨_, getElem?_eq_getElem (hspans ▸ hlt)⟩
  have hzip : (flags.zip spans)[index]? = some (flag, span) :=
    getElem?_zip_eq_some.mpr ⟨h, hspan⟩
  obtain ⟨element, helement, hrelated⟩ := getElem?_of_forall₂ hobserved hzip
  exact ⟨span, element, hspan, helement, hrelated⟩

theorem activePositions_eq :
    (⟨representative, observed⟩ : PendingTupleLayout).activePositions = truePositions flags := by
  rw [PendingTupleLayout.activePositions, truePositions]
  dsimp only
  rw [length_observed hobserved hspans]
  refine filter_congr fun index hindex => ?_
  have hlt := mem_range.mp hindex
  obtain ⟨span, element, -, helement, -, component, hobservation, -⟩ :=
    observed_at hobserved hspans (getElem?_eq_getElem hlt)
  rw [helement, Option.bind_some, hobservation, Option.any_some, getElem?_eq_getElem hlt]
  cases flags[index] <;> rfl

/-- The last element needs the one before it if it is the only active one and has no comma. -/
theorem tiedComponent_eq (hmany : 2 ≤ flags.length)
    (hcomma : ∀ span, spans[flags.length - 1]? = some span →
      (c.followingNontrivia span.1).any (fun token => token.kind = .comma) = comma) :
    ∃ tied, c.tiedComponent ⟨representative, observed⟩ = .ok tied ∧
      ((truePositions flags = [flags.length - 1] ∧ comma = false) →
        ∃ element, observed[flags.length - 2]? = some element ∧ tied = element.component ∧
          tied ≠ none) ∧
      (¬(truePositions flags = [flags.length - 1] ∧ comma = false) → tied = none) := by
  have hactive : (⟨representative, observed⟩ : PendingTupleLayout).activePositions =
      truePositions flags := activePositions_eq hobserved hspans
  by_cases htied : truePositions flags = [flags.length - 1] ∧ comma = false
  · have hfree : flags[flags.length - 2]? = some false := by
      cases hflag : flags[flags.length - 2]? with
      | none =>
        rw [getElem?_eq_none_iff] at hflag
        omega
      | some flag =>
        cases flag with
        | false => rfl
        | true =>
          have hmem := mem_truePositions.mpr hflag
          rw [htied.1, mem_singleton] at hmem
          omega
    have hset : flags[flags.length - 1]? = some true := by
      rw [← mem_truePositions, htied.1]
      exact mem_singleton_self _
    obtain ⟨span, element, -, helement, -, component, hobservation, -, hinactive⟩ :=
      observed_at hobserved hspans hfree
    obtain ⟨number, rfl, -⟩ := hinactive rfl
    obtain ⟨lastSpan, last, hlastSpan, hlast, hrange, -⟩ := observed_at hobserved hspans hset
    have hcomponent : (⟨representative, observed⟩ : PendingTupleLayout).inactiveComponent
        (flags.length - 2) = some number := by
      rw [PendingTupleLayout.inactiveComponent]
      dsimp only
      rw [helement, Option.bind_some, hobservation]
      rfl
    refine ⟨some number, ?_, fun _ => ⟨element, helement, ?_, by simp⟩, fun h => absurd htied h⟩
    · unfold UnitCollector.tiedComponent
      rw [hactive, htied.1]
      dsimp only
      rw [length_observed hobserved hspans, hlast, Option.bind_some, hrange,
        hcomma lastSpan hlastSpan, htied.2, if_neg (by simp; omega), if_neg (by omega)]
      have hpreceding : flags.length - 1 - 1 = flags.length - 2 := by omega
      rw [hpreceding, hcomponent]
      rfl
    · rw [PendingTupleElement.component, hobservation]
      rfl
  · refine ⟨none, ?_, fun h => absurd h htied, fun _ => rfl⟩
    unfold UnitCollector.tiedComponent
    rw [hactive]
    split
    · rename_i active hone
      rw [if_pos]
      · rfl
      · rw [length_observed hobserved hspans]
        by_cases hlast : active + 1 = flags.length
        · right
          have hpos : active = flags.length - 1 := by omega
          have hset : flags[flags.length - 1]? = some true := by
            rw [← mem_truePositions, hone, hpos]
            exact mem_singleton_self _
          obtain ⟨span, element, hspan, helement, hrange, -⟩ := observed_at hobserved hspans hset
          have hcommaTrue : comma = true := by
            by_contra hne
            exact htied ⟨hpos ▸ hone, Bool.not_eq_true _ ▸ hne⟩
          dsimp only
          rw [hpos, helement, Option.bind_some, hrange, hcomma span hspan, hcommaTrue]
        · exact .inl hlast
    · rfl

omit hobserved hspans in
theorem filterMap_eq_deletedSpans {f : PendingTupleElement → Option ByteRange}
    (hobservedLength : observed.length = spans.length) (hkeep : keep.length = spans.length)
    (h : ∀ (index : Nat) element span flag, observed[index]? = some element →
      spans[index]? = some span → keep[index]? = some flag →
      f element = if flag = true then none else some span.2) :
    observed.filterMap f = deletedSpans spans keep := by
  induction spans generalizing observed keep with
  | nil =>
    rw [length_nil, length_eq_zero_iff] at hobservedLength
    subst hobservedLength
    rfl
  | cons span spans ih =>
    obtain ⟨element, observed, rfl⟩ := exists_cons_of_length_eq_add_one hobservedLength
    obtain ⟨flag, keep, rfl⟩ := exists_cons_of_length_eq_add_one hkeep
    have hrest := ih (Nat.succ.inj hobservedLength) (Nat.succ.inj hkeep)
      fun index element' span' flag' helement hspan hflag =>
        h (index + 1) element' span' flag' helement hspan hflag
    have hfirst := h 0 element span flag rfl rfl rfl
    cases flag with
    | true =>
      rw [filterMap_cons_none hfirst, hrest]
      rfl
    | false =>
      rw [filterMap_cons_some hfirst, hrest]
      rfl

omit hobserved hspans in
theorem component_ne {number number' index index' : Nat} {element element' : PendingTupleElement}
    (hascending : (observed.filterMap PendingTupleElement.component).Pairwise (· < ·))
    (hindex : observed[index]? = some element) (hindex' : observed[index']? = some element')
    (hnumber : element.component = some number) (hnumber' : element'.component = some number')
    (hne : index ≠ index') : number ≠ number' := by
  rw [pairwise_filterMap, pairwise_iff_getElem] at hascending
  obtain ⟨hlt, rfl⟩ := List.getElem?_eq_some_iff.mp hindex
  obtain ⟨hlt', rfl⟩ := List.getElem?_eq_some_iff.mp hindex'
  rcases Nat.lt_or_gt_of_ne hne with hless | hless
  · exact (hascending index index' hlt hlt' hless number hnumber number' hnumber').ne
  · exact (hascending index' index hlt' hlt hless number' hnumber' number hnumber).ne'

end

/-- When the tuple is finished, what is not tied to its parent are the elements that need not be
kept. -/
theorem finishTupleLayout_ok {c : UnitCollector} {spans : List (ByteRange × ByteRange)}
    {observed : List PendingTupleElement} {representative : Nat} {stack : List PendingTupleLayout}
    (hobserved : List.Forall₂ (Observed c.units) (flags.zip spans) observed)
    (hspans : flags.length = spans.length) (hmany : 2 ≤ flags.length)
    (hcomma : ∀ span, spans[flags.length - 1]? = some span →
      (c.followingNontrivia span.1).any (fun token => token.kind = .comma) = comma)
    (hascending : (observed.filterMap PendingTupleElement.component).Pairwise (· < ·))
    (hfresh : ∀ number ∈ observed.filterMap PendingTupleElement.component, number ≠ representative)
    (htuple : c.tupleStack = ⟨representative, observed⟩ :: stack) :
    untiedRanges ⟨representative, observed⟩ c.finishTupleLayout.units =
      deletedSpans spans (keepFlags flags comma) := by
  have hlength := length_observed hobserved hspans
  have hknown : (observed.any fun element => element.observation.isNone) = false := by
    rw [any_eq_false]
    intro element helement
    obtain ⟨index, hindex⟩ := getElem?_of_mem helement
    obtain ⟨entry, -, -, component, hobservation, -⟩ := getElem?_of_forall₂_right hobserved hindex
    rw [hobservation]
    exact Bool.false_ne_true
  obtain ⟨tied, htied, hone, hnone⟩ : ∃ tied,
      UnitCollector.tiedComponent { c with tupleStack := stack } ⟨representative, observed⟩ =
        .ok tied ∧ _ ∧ _ := tiedComponent_eq hobserved hspans hmany hcomma
  have hfinish : c.finishTupleLayout =
      UnitCollector.tie { c with tupleStack := stack } tied representative := by
    unfold UnitCollector.finishTupleLayout
    rw [htuple]
    dsimp only
    rw [hknown, htied]
    rfl
  have hdeletions : untiedRanges ⟨representative, observed⟩ c.finishTupleLayout.units =
      observed.filterMap fun element => element.component.bind fun component =>
        (c.finishTupleLayout.units[component]?.filter fun unit =>
          unit.atomicRepresentative ≠ representative).map PendingUnit.fullRange := by
    rw [untiedRanges, filterMap_filterMap]
  have hinactive : ∀ (index : Nat) element span, observed[index]? = some element →
      spans[index]? = some span → flags[index]? = some false → ∃ number,
        element.component = some number ∧ HasComponent c.units span.2 number ∧
          number ≠ representative := by
    intro index element span helement hspan hflag
    obtain ⟨span', element', hspan', helement', -, component, hobservation, -, hcomponent⟩ :=
      observed_at hobserved hspans hflag
    cases hspan'.symm.trans hspan
    cases helement'.symm.trans helement
    obtain ⟨number, rfl, hhas⟩ := hcomponent rfl
    have hnumber : element.component = some number := by
      rw [PendingTupleElement.component, hobservation]
      rfl
    exact ⟨number, hnumber, hhas, hfresh number (mem_filterMap.mpr
      ⟨element, mem_of_getElem? helement, hnumber⟩)⟩
  have hactive : ∀ (index : Nat) element, observed[index]? = some element →
      flags[index]? = some true → element.component = none := by
    intro index element helement hflag
    obtain ⟨span', element', -, helement', -, component, hobservation, hcomponent, -⟩ :=
      observed_at hobserved hspans hflag
    cases helement'.symm.trans helement
    rw [PendingTupleElement.component, hobservation, hcomponent rfl]
    rfl
  have hflags : ∀ (index : Nat) element, observed[index]? = some element →
      ∃ flag, flags[index]? = some flag := by
    intro index element helement
    have hlt := (List.getElem?_eq_some_iff.mp helement).1
    exact ⟨_, getElem?_eq_getElem (hlength ▸ hlt)⟩
  rw [hdeletions]
  by_cases hcond : truePositions flags = [flags.length - 1] ∧ comma = false
  · obtain ⟨tiedElement, htiedElement, rfl, hsome⟩ := hone hcond
    have hfree : flags[flags.length - 2]? = some false := by
      obtain ⟨flag, hflag⟩ := hflags _ _ htiedElement
      cases flag with
      | false => exact hflag
      | true => exact absurd (hactive _ _ htiedElement hflag) hsome
    obtain ⟨tiedSpan, htiedSpan⟩ : ∃ span, spans[flags.length - 2]? = some span :=
      ⟨_, getElem?_eq_getElem (by omega)⟩
    obtain ⟨tiedNumber, htiedNumber, ⟨tiedUnit, htiedUnit, -, htiedOwn⟩, -⟩ :=
      hinactive _ _ _ htiedElement htiedSpan hfree
    have htie : c.finishTupleLayout = { c with
        tupleStack := stack
        units := c.units.map fun other =>
          if other.atomicRepresentative = tiedNumber then
            { other with atomicRepresentative := representative }
          else other } := by
      rw [hfinish]
      unfold UnitCollector.tie
      rw [htiedNumber, Option.bind_some]
      dsimp only
      rw [htiedUnit]
      dsimp only
      rw [htiedOwn]
    rw [htie]
    refine filterMap_eq_deletedSpans (hlength.trans hspans) (length_keepFlags.trans hspans)
      fun index element span flag helement hspan hflag => ?_
    dsimp only
    rw [keepFlags, if_pos hcond, getElem?_set] at hflag
    by_cases hindex : flags.length - 2 = index
    · -- the element that is tied
      rw [if_pos hindex, if_pos (by omega)] at hflag
      cases hflag
      rw [hindex] at htiedElement
      cases htiedElement.symm.trans helement
      rw [htiedNumber, Option.bind_some, getElem?_map, htiedUnit, Option.map_some,
        if_pos htiedOwn, Option.filter_some_neg (by simp)]
      rfl
    · rw [if_neg hindex] at hflag
      cases flag with
      | true =>
        rw [hactive index element helement hflag]
        rfl
      | false =>
        obtain ⟨number, hnumber, ⟨unit, hunit, hrange, hown⟩, hne⟩ :=
          hinactive index element span helement hspan hflag
        have hother : unit.atomicRepresentative ≠ tiedNumber := by
          rw [hown]
          exact component_ne hascending helement htiedElement hnumber htiedNumber (Ne.symm hindex)
        rw [hnumber, Option.bind_some, getElem?_map, hunit, Option.map_some, if_neg hother,
          Option.filter_some_pos (by simpa [hown] using hne), Option.map_some, hrange]
        rfl
  · obtain rfl := hnone hcond
    have hsame : c.finishTupleLayout = { c with tupleStack := stack } := hfinish
    rw [hsame]
    refine filterMap_eq_deletedSpans (hlength.trans hspans) (length_keepFlags.trans hspans)
      fun index element span flag helement hspan hflag => ?_
    rw [keepFlags, if_neg hcond] at hflag
    cases flag with
    | true =>
      rw [hactive index element helement hflag]
      rfl
    | false =>
      obtain ⟨number, hnumber, ⟨unit, hunit, hrange, hown⟩, hne⟩ :=
        hinactive index element span helement hspan hflag
      dsimp only
      rw [hnumber, Option.bind_some, hunit, Option.filter_some_pos (by simpa [hown] using hne),
        Option.map_some, hrange]
      rfl

end

/-! ## The tuple that is left -/

section

variable {tk : Tokenizer} {parse : ExpressionParser} {front opened behind : List RawToken}
  {list : ExpressionList} {flags keep : List Bool} {elements : List ListedElement}

theorem exists_kept (hflags : flags.length = elements.length)
    (hkeep : keep.length = elements.length)
    (hactive : ∀ index : Nat, flags[index]? = some true → keep[index]? = some true) :
    ∃ kept : List (ListedElement × Bool), kept.Sublist (elements.zip flags) ∧
      kept.map Prod.fst = staying elements keep ∧
      kept.filter Prod.snd = (elements.zip flags).filter Prod.snd := by
  induction elements generalizing flags keep with
  | nil => exact ⟨[], .slnil, rfl, rfl⟩
  | cons element elements ih =>
    obtain ⟨flag, flags, rfl⟩ := exists_cons_of_length_eq_add_one hflags
    obtain ⟨stays, keep, rfl⟩ := exists_cons_of_length_eq_add_one hkeep
    obtain ⟨kept, hsublist, hkept, hfilter⟩ := ih (Nat.succ.inj hflags) (Nat.succ.inj hkeep)
      fun index hindex => hactive (index + 1) hindex
    cases stays with
    | true =>
      refine ⟨(element, flag) :: kept, hsublist.cons_cons _, ?_, ?_⟩
      · rw [map_cons, hkept]
        rfl
      · rw [zip_cons_cons, filter_cons, filter_cons, hfilter]
    | false =>
      cases flag with
      | true =>
        have hstays := hactive 0 rfl
        cases hstays
      | false => exact ⟨kept, hsublist.cons _, hkept, hfilter⟩

theorem activeTokens_eq (elements : List ListedElement) (flags : List Bool) :
    activeTokens elements flags =
      (((elements.map ListedElement.tokens).zip flags).filter Prod.snd).map Prod.fst := by
  rw [activeTokens, staying, zip_map_left, filter_map, map_map, map_map]
  rfl

/-- The elements that stay are some of the elements, among them all active ones. -/
theorem staying_active (hflags : flags.length = elements.length)
    (hkeep : keep.length = elements.length)
    (hactive : ∀ index : Nat, flags[index]? = some true → keep[index]? = some true)
    {left : List ListedElement}
    (hleft : left.map ListedElement.core = (staying elements keep).map ListedElement.core) :
    ∃ leftFlags : List Bool, leftFlags.length = left.length ∧
      ((left.map ListedElement.tokens).zip leftFlags).Sublist
        ((elements.map ListedElement.tokens).zip flags) ∧
      activeTokens left leftFlags = activeTokens elements flags := by
  obtain ⟨kept, hsublist, hkept, hfilter⟩ := exists_kept hflags hkeep hactive
  have htokens : left.map ListedElement.tokens = kept.map fun entry => entry.1.tokens := by
    have hmapped := congrArg (List.map Prod.fst) hleft
    rw [← hkept, map_map, map_map, map_map] at hmapped
    exact hmapped
  have hzip : (left.map ListedElement.tokens).zip (kept.map Prod.snd) =
      kept.map (Prod.map ListedElement.tokens id) := by
    rw [htokens, zip_map']
    rfl
  refine ⟨kept.map Prod.snd, ?_, ?_, ?_⟩
  · rw [length_map, ← length_map ListedElement.tokens, htokens, length_map]
  · rw [hzip, zip_map_left]
    exact hsublist.map _
  · rw [activeTokens_eq, activeTokens_eq, hzip, zip_map_left, filter_map, filter_map]
    have hsame : (Prod.snd ∘ Prod.map ListedElement.tokens id : ListedElement × Bool → Bool) =
        Prod.snd := rfl
    rw [hsame, hfilter]

/-- The list behind an opening parenthesis. -/
theorem lists_of_parseParenthesized (hends : parse.EndsAtSeparators)
    (h : parseParenthesized parse opened = some (list, behind)) :
    ∃ first raws closing, opened = first :: raws ∧ first.kind = .openParen ∧
      Lists parse raws list.elements list.last closing behind := by
  cases opened with
  | nil => cases h
  | cons first raws =>
    obtain ⟨hfirst, h⟩ := Option.ite_none_right_eq_some.mp h
    obtain ⟨closing, hlists⟩ := lists_of_parseElements hends h
    exact ⟨first, raws, closing, rfl, hfirst, hlists⟩

theorem elementParts_raws (hkeep : keep.length = elements.length) :
    (elementParts elements keep).flatMap Prod.fst = elements.flatMap ListedElement.raws := by
  induction elements generalizing keep with
  | nil => rfl
  | cons element elements ih =>
    obtain ⟨flag, keep, rfl⟩ := exists_cons_of_length_eq_add_one hkeep
    have hparts : elementParts (element :: elements) (flag :: keep) =
        (element.before, true) :: (element.tokens ++ element.stop, flag) ::
          elementParts elements keep := rfl
    rw [hparts, flatMap_cons, flatMap_cons, flatMap_cons,
      ih (Nat.succ.inj hkeep), ListedElement.raws]
    simp only [append_assoc]

/-- The deletions of some elements leave the list of the others. -/
theorem leave_elements (hsep : tk.Separates) (hjoins : tk.TriviaJoins)
    (hends : parse.EndsAtSeparators) (hlexes : Lexes tk (front ++ opened))
    (hparse : parseParenthesized parse opened = some (list, behind))
    (hkeep : keep.length = list.elements.length) :
    ∃ opened' list', Lexes tk (front ++ opened') ∧
      utf8Bytes (textOf (front ++ opened')) =
        remaining (removedBy (deletedSpans
          (elementSpans (utf8Len (textOf front) + 1) list.elements) keep)) 0
          (utf8Bytes (textOf (front ++ opened))) ∧
      parseParenthesized parse opened' = some (list', behind) ∧
      list'.elements.map ListedElement.core =
        (staying list.elements keep).map ListedElement.core := by
  obtain ⟨first, raws, closing, rfl, hfirst, hlists⟩ := lists_of_parseParenthesized hends hparse
  have hopen : Lexes tk ([first] ++ raws) := hlexes.of_append
  have hfirstText := hopen.text_eq hsep openParen_mem hfirst
  obtain ⟨raws', elements', last', hlexes', hlists', hcores, htext⟩ :=
    hlists.leave hsep hjoins hends hopen.of_append hkeep
  have hstarts : ∀ raws, textOf (first :: raws) = '(' :: textOf raws := by
    intro raws
    rw [textOf_cons, hfirstText]
    rfl
  refine ⟨first :: raws', ⟨elements', last'⟩, ?_, ?_, ?_, hcores⟩
  · refine hlexes.replace ?_ hsep openParen_mem openParen_mem (hstarts raws) (hstarts raws')
    have hfirst' : first = ⟨.openParen, ['(']⟩ := by
      cases first
      cases hfirst
      cases hfirstText
      rfl
    rw [hfirst']
    exact hlexes'.cons_punctuation hsep openParen_mem
  · have hone : utf8Len (textOf (front ++ [first])) = utf8Len (textOf front) + 1 := by
      rw [textOf_append, utf8Len_append, hstarts]
      rfl
    have hinside :
        ∀ d ∈ deletedSpans (elementSpans (utf8Len (textOf front) + 1) list.elements) keep,
        utf8Len (textOf front) + 1 ≤ d.start ∧ d.stop ≤ utf8Len (textOf front) + 1 +
          utf8Len (textOf (list.elements.flatMap ListedElement.raws)) := by
      intro d hd
      refine ⟨le_start_of_mem_deletedSpans hd, ?_⟩
      obtain ⟨entry, hentry, rfl⟩ := mem_map.mp hd
      exact stop_le_of_mem_elementSpans (of_mem_zip (mem_of_mem_filter hentry)).1
    have houtside : ∀ i, i < utf8Len (textOf front) + 1 ∨ utf8Len (textOf front) + 1 +
        utf8Len (textOf (list.elements.flatMap ListedElement.raws)) ≤ i →
        removedBy (deletedSpans (elementSpans (utf8Len (textOf front) + 1) list.elements) keep) i =
          false := by
      intro i hi
      refine any_eq_false.mpr fun d hd => ?_
      have := hinside d hd
      simp only [Bool.and_eq_true, decide_eq_true_eq]
      omega
    have hleft : PartsLeft (removedBy (deletedSpans
        (elementSpans (utf8Len (textOf front) + 1) list.elements) keep)) 0
        ((front ++ [first], true) :: (elementParts list.elements keep ++
          [(list.last ++ closing :: behind, true)])) := by
      refine ⟨fun i _ hi => ?_, ?_⟩
      · rw [Nat.zero_add] at hi
        dsimp only at hi
        exact houtside i (.inl (hone ▸ hi))
      · dsimp only
        rw [Nat.zero_add, hone, partsLeft_append, elementParts_raws hkeep]
        exact ⟨partsLeft_deletedSpans, fun i hi _ => houtside i (.inr hi), trivial⟩
    have hremaining := hleft.remaining
    rw [flatMap_cons, flatMap_append, elementParts_raws hkeep, flatMap_singleton,
      ← hlists.raws_eq, append_assoc] at hremaining
    rw [filter_cons_of_pos rfl, filter_append, flatMap_cons, flatMap_append] at hremaining
    rw [show front ++ first :: raws = front ++ ([first] ++ raws) from rfl, hremaining,
      textOf_append, textOf_append, textOf_append, textOf_append, hstarts, htext]
    simp [hfirstText]
  · rw [parseParenthesized, if_pos hfirst]
    exact hlists'.parseElements (Nat.lt_succ_self _)

/-- A tuple that is walked over where the parent is active. -/
structure TupleVisit (c : UnitCollector) (front opened behind : List RawToken)
    (list : ExpressionList) (attributes nodes : List SyntaxNode) : Prop where
  source : c.sourceTokens = placeTokens 0 (front ++ opened)
  numbered : c.Numbered
  active : c.currentActive = true
  parent : ∃ unit, c.units[c.currentParent]? = some unit ∧
    unit.fullRange.contains ⟨utf8Len (textOf front),
      utf8Len (textOf (front ++ opened)) - utf8Len (textOf behind)⟩ = true
  attributes : ∀ range ∈ SyntaxNode.expressionRangesAll attributes,
    range.start < utf8Len (textOf front)
  nodes : List.Forall₂ (fun node span => node.Stands span.1) nodes
    (elementSpans (utf8Len (textOf front) + 1) list.elements)

theorem pendingElements_eq {nodes : List SyntaxNode} {spans : List (ByteRange × ByteRange)}
    (h : List.Forall₂ (fun node span => node.Stands span.1) nodes spans) :
    UnitCollector.pendingElements (nodes.map SyntaxNode.node) =
      .ok (spans.map fun span => ⟨span.1, none⟩) := by
  refine mapM_total ?_
  rw [forall₂_map_left_iff, forall₂_map_right_iff]
  refine h.imp fun node span hnode => ?_
  obtain ⟨hrange, -, -⟩ := hnode
  dsimp only [SyntaxNode.node]
  rw [hrange]
  rfl

/-- Which elements the walk deletes. -/
theorem TupleVisit.deletions {c : UnitCollector} {attributes nodes : List SyntaxNode}
    (hsep : tk.Separates)
    (hends : parse.EndsAtSeparators) (hlexes : Lexes tk (front ++ opened))
    (hparse : parseParenthesized parse opened = some (list, behind))
    (hmany : 2 ≤ list.elements.length)
    (hvisit : TupleVisit c front opened behind list attributes nodes) :
    ∃ keep : List Bool, keep.length = list.elements.length ∧
      (∀ index : Nat, (nodes.map SyntaxNode.configured)[index]? = some true →
        keep[index]? = some true) ∧
      c.tupleDeletions attributes nodes =
        deletedSpans (elementSpans (utf8Len (textOf front) + 1) list.elements) keep ∧
      ∀ left : List ListedElement, left.map ListedElement.core =
          (staying list.elements keep).map ListedElement.core →
        ∀ last, (⟨left, last⟩ : ExpressionList).isTuple = true := by
  obtain ⟨first, raws, closing, rfl, hfirst, hlists⟩ := lists_of_parseParenthesized hends hparse
  have hopen : Lexes tk ([first] ++ raws) := hlexes.of_append
  have hfirstText := hopen.text_eq hsep openParen_mem hfirst
  have hsource : c.sourceTokens = placeTokens 0 (front ++ [first] ++ raws) := by
    rw [append_assoc]
    exact hvisit.source
  have hfound := hlists.findsElements hsource (by
    rw [append_assoc]
    exact hlexes.text_ne_nil)
  have hone : utf8Len (textOf (front ++ [first])) = utf8Len (textOf front) + 1 := by
    rw [textOf_append, utf8Len_append, textOf_cons, hfirstText]
    rfl
  rw [hone] at hfound
  obtain ⟨unit, hunit, hcontains⟩ := hvisit.parent
  have hrepresentative := hvisit.numbered.representatives unit (mem_of_getElem? hunit)
  have hlengths : nodes.length = list.elements.length := by
    rw [hvisit.nodes.length_eq, length_elementSpans]
  have hlengthFlags : (nodes.map SyntaxNode.configured).length = list.elements.length := by
    rw [length_map, hlengths]
  have hspansLength : (nodes.map SyntaxNode.configured).length =
      (elementSpans (utf8Len (textOf front) + 1) list.elements).length := by
    rw [hlengthFlags, length_elementSpans]
  have hspans : ∀ span ∈ elementSpans (utf8Len (textOf front) + 1) list.elements,
      c.commaSeparatedRange span.1 = .ok span.2 ∧
      (c.units[c.currentParent]?).any (fun unit => unit.fullRange.contains span.2) = true := by
    intro span hspan
    obtain ⟨index, hindex⟩ := getElem?_of_mem hspan
    obtain ⟨element, -, hfinds⟩ := getElem?_of_forall₂_right hfound hindex
    refine ⟨hfinds.range, ?_⟩
    obtain ⟨hstart, hsame⟩ := le_start_of_mem_elementSpans hspan
    have hstop := stop_le_of_mem_elementSpans hspan
    rw [ByteRange.contains_iff] at hcontains
    dsimp only at hcontains
    rw [textOf_append, utf8Len_append, textOf_cons, utf8Len_append, hfirstText, hlists.raws_eq,
      textOf_append, utf8Len_append, textOf_append, utf8Len_append, textOf_cons, utf8Len_append]
      at hcontains
    have hopening : utf8Len [('(', TokenKind.openParen).1] = 1 := rfl
    rw [hunit, Option.any_some, ByteRange.contains_iff]
    omega
  by_cases hcfg : (nodes.map SyntaxNode.node).any CfgNode.hasCfg = true
  · obtain ⟨comma, hcomma⟩ : ∃ comma, list.elements.getLast?.any
        (fun element => !element.stop.isEmpty) = comma := ⟨_, rfl⟩
    have hbegin : c.beginTupleLayout (nodes.map SyntaxNode.node) = ({ c with
        tupleStack := ⟨unit.atomicRepresentative,
          (elementSpans (utf8Len (textOf front) + 1) list.elements).map
            fun span => ⟨span.1, none⟩⟩ :: c.tupleStack }, true) := by
      unfold UnitCollector.beginTupleLayout
      rw [if_neg (by rw [not_or, not_not, length_map]; exact ⟨by omega, hcfg⟩),
        pendingElements_eq hvisit.nodes, hunit]
    generalize hbegun : { c with
      tupleStack := ⟨unit.atomicRepresentative,
        (elementSpans (utf8Len (textOf front) + 1) list.elements).map
          fun (span : ByteRange × ByteRange) => ⟨span.1, none⟩⟩ :: c.tupleStack } = begun at hbegin
    have hstart : TupleWalked begun (begun.visitAll attributes) unit.atomicRepresentative
        c.tupleStack [] [] (elementSpans (utf8Len (textOf front) + 1) list.elements) := by
      subst hbegun
      refine .start ⟨hvisit.numbered.representatives, hvisit.numbered.parents⟩ rfl ?_
      intro span hspan hmem
      have := (le_start_of_mem_elementSpans hspan).1
      have := hvisit.attributes _ hmem
      omega
    obtain ⟨observed, hwalked⟩ := hstart.run (apart_elementSpans hfound)
      (hbegun ▸ hvisit.active) hvisit.nodes (hbegun ▸ hspans)
    rw [nil_append] at hwalked
    have hwalk : c.walkTuple attributes nodes =
        ((begun.visitAll attributes).visitAll nodes, true) := by
      simp only [UnitCollector.walkTuple, hvisit.active, hbegin, if_true]
    have hstack := hwalked.tupleStack
    rw [map_nil, append_nil] at hstack
    have hlast : ∀ span, (elementSpans (utf8Len (textOf front) + 1) list.elements)[
        (nodes.map SyntaxNode.configured).length - 1]? = some span →
        (((begun.visitAll attributes).visitAll nodes).followingNontrivia span.1).any
          (fun token => token.kind = .comma) = comma := by
      intro span hspan
      obtain ⟨element, helement, hfinds⟩ := getElem?_of_forall₂_right hfound hspan
      have hsource : ((begun.visitAll attributes).visitAll nodes).sourceTokens =
          c.sourceTokens := by
        rw [hwalked.sourceTokens, ← hbegun]
      rw [UnitCollector.followingNontrivia, hsource, ← UnitCollector.followingNontrivia,
        hfinds.comma, ← hcomma, getLast?_eq_getElem?, ← hlengthFlags, helement, Option.any_some]
    have hfresh : ∀ number ∈ observed.filterMap PendingTupleElement.component,
        number ≠ unit.atomicRepresentative := by
      intro number hnumber
      have hle := (hwalked.fresh number hnumber).1
      rw [← hbegun] at hle
      exact (hrepresentative.trans_le hle).ne'
    have hdeletions := finishTupleLayout_ok hwalked.observed hspansLength (by omega) hlast
      hwalked.ascending hfresh hstack
    · refine ⟨keepFlags (nodes.map SyntaxNode.configured) comma,
        length_keepFlags.trans hlengthFlags,
        fun _ => keepFlags_of_active, ?_, fun left hleft last => ?_⟩
      · rw [UnitCollector.tupleDeletions, UnitCollector.visitTuple, hwalk]
        dsimp only
        rw [hstack]
        exact hdeletions
      · exact isTuple_staying hlengthFlags hmany (fun _ _ => hlists.stop_ne_nil) hcomma hleft last
  · have hall : ∀ flag ∈ nodes.map SyntaxNode.configured, flag = true := by
      intro flag hflag
      obtain ⟨node, hnode, rfl⟩ := mem_map.mp hflag
      obtain ⟨index, hindex⟩ := getElem?_of_mem hnode
      obtain ⟨span, -, hstands⟩ := getElem?_of_forall₂ hvisit.nodes hindex
      obtain ⟨-, hhas, -⟩ := hstands
      by_contra hinactive
      exact hcfg (any_eq_true.mpr ⟨_, mem_map_of_mem hnode, hhas (Bool.not_eq_true _ ▸ hinactive)⟩)
    have hflags : ∀ {α : Type} (l : List α), ∀ entry ∈ l.zip (nodes.map SyntaxNode.configured),
        entry.2 = true := fun l entry hentry => hall _ (of_mem_zip hentry).2
    refine ⟨nodes.map SyntaxNode.configured, hlengthFlags, fun _ h => h, ?_,
      fun left hleft last => ?_⟩
    · have hnone : (c.walkTuple attributes nodes).2 = false := by
        rw [UnitCollector.walkTuple, hvisit.active, if_pos rfl, UnitCollector.beginTupleLayout,
          if_pos (.inr hcfg)]
      have hdeleted : deletedSpans (elementSpans (utf8Len (textOf front) + 1) list.elements)
          (nodes.map SyntaxNode.configured) = [] := by
        rw [deletedSpans, map_eq_nil_iff, filter_eq_nil_iff]
        intro entry hentry
        rw [hflags _ entry hentry]
        exact Bool.false_ne_true
      rw [UnitCollector.tupleDeletions, hnone, hdeleted]
    · have hstaying : staying list.elements (nodes.map SyntaxNode.configured) = list.elements := by
        rw [staying, filter_eq_self.mpr (hflags _), map_fst_zip hlengthFlags.ge]
      have hlength := congrArg List.length hleft
      rw [hstaying, length_map, length_map] at hlength
      cases left with
      | nil => rfl
      | cons element rest =>
        cases rest with
        | nil =>
          rw [← hlength, length_singleton] at hmany
          omega
        | cons => rfl

/-- Deleting the inactive elements of a tuple but the tied one leaves a tuple, whose active elements
are those of the tuple in their order. -/
theorem visitTuple_leavesTuple {c : UnitCollector} {attributes nodes : List SyntaxNode}
    (hsep : tk.Separates)
    (hjoins : tk.TriviaJoins) (hends : parse.EndsAtSeparators)
    (hlexes : Lexes tk (front ++ opened))
    (hparse : parseParenthesized parse opened = some (list, behind))
    (hmany : 2 ≤ list.elements.length)
    (hvisit : TupleVisit c front opened behind list attributes nodes) :
    ∃ opened' list' flags', Lexes tk (front ++ opened') ∧
      utf8Bytes (textOf (front ++ opened')) =
        remaining (removedBy (c.tupleDeletions attributes nodes)) 0
        (utf8Bytes (textOf (front ++ opened))) ∧
      parseParenthesized parse opened' = some (list', behind) ∧ list'.isTuple = true ∧
      flags'.length = list'.elements.length ∧
      ((list'.elements.map ListedElement.tokens).zip flags').Sublist
        ((list.elements.map ListedElement.tokens).zip (nodes.map SyntaxNode.configured)) ∧
      activeTokens list'.elements flags' =
        activeTokens list.elements (nodes.map SyntaxNode.configured) := by
  obtain ⟨keep, hkeep, hactive, hdeletions, htuple⟩ :=
    hvisit.deletions hsep hends hlexes hparse hmany
  obtain ⟨opened', list', hlexes', hbytes, hparse', hcores⟩ :=
    leave_elements hsep hjoins hends hlexes hparse hkeep
  have hflags : (nodes.map SyntaxNode.configured).length = list.elements.length := by
    rw [length_map, hvisit.nodes.length_eq, length_elementSpans]
  obtain ⟨flags', hlength, hsublist, hsame⟩ := staying_active hflags hkeep hactive hcores
  rw [← hdeletions] at hbytes
  exact ⟨opened', list', flags', hlexes', hbytes, hparse', htuple _ hcores _, hlength, hsublist,
    hsame⟩

end

/-! ## A tuple whose first element is inactive -/

theorem triviaJoins_parenTokenizer : parenTokenizer.TriviaJoins := by
  intro trivia raw rest raws htrivia hraw hlexes hraws
  refine ⟨trivia ++ raws, ?_, textOf_append .., dropWhile_append_of_pos htrivia⟩
  induction trivia with
  | nil => exact hraws
  | cons first trivia ih =>
    obtain ⟨hfirst, htrivia⟩ := forall_mem_cons.mp htrivia
    rw [cons_append] at hlexes ⊢
    have hne := hlexes.text_ne_nil first mem_cons_self
    cases hlexes with
    | cons hnext hlexes =>
      refine .cons ?_ (ih htrivia hlexes)
      obtain ⟨c, text, htext⟩ := exists_cons_of_ne_nil hne
      have hsame : ∀ text text', parenTokenizer.next (c :: text) =
          parenTokenizer.next (c :: text') := by
        intro text text'
        unfold parenTokenizer
        dsimp only
        split <;> simp_all
      rw [textOf_cons, htext, cons_append] at hnext ⊢
      rw [← hnext]
      exact hsame _ _

def RawToken.isOther : RawToken → Bool
  | ⟨.other _, _⟩ => true
  | _ => false

/-- Expressions without parentheses and commas. -/
def tokenExpression : ExpressionParser := fun raws =>
  if raws.takeWhile RawToken.isOther = [] then none
  else some (raws.takeWhile RawToken.isOther, raws.dropWhile RawToken.isOther)

theorem endsAtSeparators_tokenExpression : tokenExpression.EndsAtSeparators where
  splits raw rest tokens behind h := by
    unfold tokenExpression at h
    split at h
    · cases h
    · rename_i hne
      cases h
      cases hraw : raw.isOther with
      | true =>
        rw [takeWhile_cons_of_pos hraw, dropWhile_cons_of_pos hraw]
        exact ⟨_, rfl, takeWhile_append_dropWhile.symm⟩
      | false =>
        exact absurd (takeWhile_cons_of_neg (Bool.eq_false_iff.mp hraw)) hne
  ended tokens trivia stop rest rest' h htrivia hstop := by
    have hbehind : ∀ more, (trivia ++ stop :: more).takeWhile RawToken.isOther = [] := by
      intro more
      cases trivia with
      | nil =>
        refine takeWhile_cons_of_neg ?_
        obtain ⟨kind, text⟩ := stop
        rcases hstop with rfl | rfl <;> exact Bool.false_ne_true
      | cons raw trivia =>
        refine takeWhile_cons_of_neg fun hraw => ?_
        obtain ⟨kind, text⟩ := raw
        have hraws := htrivia _ mem_cons_self
        cases kind <;>
          first | exact absurd hraw Bool.false_ne_true | exact absurd hraws Bool.false_ne_true
    have hdrop : ∀ more, (trivia ++ stop :: more).dropWhile RawToken.isOther =
        trivia ++ stop :: more := by
      intro more
      conv_rhs =>
        rw [← takeWhile_append_dropWhile (p := RawToken.isOther) (l := trivia ++ stop :: more),
          hbehind, nil_append]
    unfold tokenExpression at h ⊢
    split at h
    · cases h
    · rename_i hne
      have htokens := congrArg Prod.fst (Option.some.inj h)
      dsimp only at htokens
      have hother : ∀ raw ∈ tokens, raw.isOther = true := fun raw hraw =>
        mem_takeWhile_imp (htokens ▸ hraw)
      rw [htokens] at hne
      rw [takeWhile_append_of_pos hother, dropWhile_append_of_pos hother, hbehind, hdrop,
        append_nil, if_neg hne]

/-- The tokens of `(a,-b,)`. -/
def pairTokens : List RawToken :=
  [openToken, ⟨.other 0, ['a']⟩, commaToken, ⟨.other 0, ['-']⟩, ⟨.other 0, ['b']⟩, commaToken,
    closeToken]

def pairCollector : UnitCollector :=
  ⟨placeTokens 0 pairTokens, [], [⟨0, .crateRoot, ⟨0, 7⟩, none, .active, 0, 0⟩], [0], [true], 1,
    none⟩

def pairNode (range : ByteRange) (configured : Bool) (children : List SyntaxNode) : SyntaxNode :=
  .mk ⟨.ok range, !configured, configured, .nothing, .nothing⟩ (.expression false) [] children

def pairNodes : List SyntaxNode :=
  [pairNode ⟨1, 2⟩ false [], pairNode ⟨3, 5⟩ true [pairNode ⟨4, 5⟩ true []]]

/-- The first element and its comma are deleted. -/
theorem visitTuple_leavesTuple_pair : pairCollector.tupleDeletions [] pairNodes = [⟨1, 3⟩] ∧
    ∃ opened' list' flags', Lexes parenTokenizer ([] ++ opened') ∧
      utf8Bytes (textOf ([] ++ opened')) = remaining (removedBy [⟨1, 3⟩]) 0
        (utf8Bytes (textOf ([] ++ pairTokens))) ∧
      parseParenthesized tokenExpression opened' = some (list', []) ∧ list'.isTuple = true ∧
      flags'.length = list'.elements.length ∧
      ((list'.elements.map ListedElement.tokens).zip flags').Sublist
        [([⟨.other 0, ['a']⟩], false), ([⟨.other 0, ['-']⟩, ⟨.other 0, ['b']⟩], true)] ∧
      activeTokens list'.elements flags' = [[⟨.other 0, ['-']⟩, ⟨.other 0, ['b']⟩]] := by
  have hlexes : Lexes parenTokenizer ([] ++ pairTokens) :=
    .cons rfl (.cons rfl (.cons rfl (.cons rfl (.cons rfl (.cons rfl (.cons rfl (.nil rfl)))))))
  have hparse : parseParenthesized tokenExpression pairTokens =
      some (⟨[⟨[], [⟨.other 0, ['a']⟩], [commaToken]⟩,
        ⟨[], [⟨.other 0, ['-']⟩, ⟨.other 0, ['b']⟩], [commaToken]⟩], []⟩, []) := rfl
  have hvisit : TupleVisit pairCollector [] pairTokens []
      ⟨[⟨[], [⟨.other 0, ['a']⟩], [commaToken]⟩,
        ⟨[], [⟨.other 0, ['-']⟩, ⟨.other 0, ['b']⟩], [commaToken]⟩], []⟩ [] pairNodes :=
    ⟨rfl, ⟨by decide, by decide⟩, rfl, ⟨_, rfl, rfl⟩, fun _ h => (not_mem_nil h).elim,
      .cons (.mk rfl (fun _ => rfl) (by decide))
        (.cons (.mk rfl (fun h => nomatch h) (by decide)) .nil)⟩
  have hdeletions : pairCollector.tupleDeletions [] pairNodes = [⟨1, 3⟩] := by decide +kernel
  have hleft := visitTuple_leavesTuple separates_parenTokenizer triviaJoins_parenTokenizer
    endsAtSeparators_tokenExpression hlexes hparse le_rfl hvisit
  rw [hdeletions] at hleft
  exact ⟨hdeletions, hleft⟩

end ItemDependencies
