import ItemDependencies.Library.Ascending
import ItemDependencies.Library.Nesting
import ItemDependencies.Library.SortedMap
import ItemDependencies.Source.Basic

/-!
# Source units in a macro template

The expansions of a macro rule show which ranges of its template are items, and
which of them are parts of a use tree.  The nested ranges become source units:
the whole use item and its leaves, and every other item.
-/

namespace ItemDependencies

open Library List

structure TemplateCandidate where
  rule : SourceUnitId
  range : ByteRange
  isUse : Bool

instance : LinearOrder TemplateCandidate :=
  LinearOrder.lift' (fun c => toLex (c.rule, toLex (c.range, c.isUse))) fun a b h => by
    cases a
    cases b
    simpa using h

/-- A unit with its kind and the range of its parent. -/
abbrev ClassifiedTemplate := TemplateCandidate × WrittenUnitKind × Option ByteRange

namespace TemplateCandidate

/-- By rule and start, and the longest first. -/
def outerKey (candidate : TemplateCandidate) : SourceUnitId ×ₗ Nat ×ₗ Natᵒᵈ :=
  toLex (candidate.rule, toLex (candidate.range.start, OrderDual.toDual candidate.range.stop))

def closedAt (ancestor candidate : TemplateCandidate) : Bool :=
  decide (ancestor.rule ≠ candidate.rule) || decide (ancestor.range.stop ≤ candidate.range.start)

def encloses (parent candidate : TemplateCandidate) : Bool :=
  decide (parent.rule = candidate.rule) && parent.range.contains candidate.range

end TemplateCandidate

/-- Intermediate prefixes of a use tree get no kind. -/
def templateKind (isUse containsUseChild containedByUseChild : Bool) : Option WrittenUnitKind :=
  if isUse && containsUseChild && !containedByUseChild then some .useItem
  else if isUse && !containsUseChild && containedByUseChild then some .useLeaf
  else if isUse && (containsUseChild || containedByUseChild) then none
  else some .nestedItem

/-- The emitted candidates with their kinds and the ranges of their parents. -/
def templateLayout (candidates : List TemplateCandidate) (parents : List (Option Nat)) :
    List ClassifiedTemplate :=
  let isUse (index : Nat) : Bool := candidates[index]?.any TemplateCandidate.isUse
  let containsUseDescendant := markAncestors isUse parents
  let outermostUseAncestor := inheritMarks
    (fun parent outer => outer.or (if isUse parent then some parent else none)) parents
  let kinds := candidates.zipIdx.map fun entry =>
    templateKind entry.1.isUse (containsUseDescendant[entry.2]?.getD false)
      outermostUseAncestor[entry.2]?.join.isSome
  let nearestEmittedAncestor := inheritMarks
    (fun parent nearest => if kinds[parent]?.join.isSome then some parent else nearest) parents
  let layout := candidates.zipIdx.filterMap fun entry => kinds[entry.2]?.join.map fun kind =>
    (entry.1, kind, nearestEmittedAncestor[entry.2]?.join.bind fun parent =>
      candidates[parent]?.map TemplateCandidate.range)
  layout.insertionSort fun a b =>
    toLex (a.1.outerKey, a.2.1.rank) ≤ toLex (b.1.outerKey, b.2.1.rank)

/-- The entries of the map from the ranges of the candidates to their kinds. -/
def rangeEntries (candidates : Finset TemplateCandidate) :
    List ((SourceUnitId ×ₗ ByteRange) × Bool) :=
  (ascending candidates).map fun candidate =>
    (toLex (candidate.rule, candidate.range), candidate.isUse)

/-- The candidates of the map, by rule and start and the longest first. -/
def candidatesOf (byRange : SortedMap (SourceUnitId ×ₗ ByteRange) Bool) : List TemplateCandidate :=
  (byRange.entries.map fun entry =>
    (⟨(ofLex entry.1).1, (ofLex entry.1).2, entry.2⟩ : TemplateCandidate)).insertionSort
      fun a b => a.outerKey ≤ b.outerKey

def classifyTemplateCandidates (candidates : Finset TemplateCandidate) :
    Except SourceError (List ClassifiedTemplate) := do
  let byRange ← (rangeEntries candidates).foldlM
    (SortedMap.insertNew SourceError.incompleteDeclarativeMacroObservation) SortedMap.empty
  let candidates := candidatesOf byRange
  match nestingParents TemplateCandidate.closedAt TemplateCandidate.encloses [] 0 candidates with
  | none => throw .incompleteDeclarativeMacroObservation
  | some parents => return templateLayout candidates parents

/-! ## What is emitted -/

namespace TemplateCandidate

variable (candidates : Finset TemplateCandidate)

/-- The first candidate lies strictly inside the second one. -/
def Inside (inner outer : TemplateCandidate) : Prop :=
  inner.rule = outer.rule ∧ outer.range.contains inner.range = true ∧ inner.range ≠ outer.range

def HasUseBelow (candidate : TemplateCandidate) : Prop :=
  ∃ other ∈ candidates, other.isUse = true ∧ other.Inside candidate

def HasUseAbove (candidate : TemplateCandidate) : Prop :=
  ∃ other ∈ candidates, other.isUse = true ∧ candidate.Inside other

/-- The kind of the unit that a candidate becomes. -/
inductive Emitted (candidate : TemplateCandidate) : WrittenUnitKind → Prop
  | other (huse : candidate.isUse = false) : Emitted candidate .nestedItem
  | alone (huse : candidate.isUse = true) (hbelow : ¬HasUseBelow candidates candidate)
      (habove : ¬HasUseAbove candidates candidate) : Emitted candidate .nestedItem
  | outermost (huse : candidate.isUse = true) (hbelow : HasUseBelow candidates candidate)
      (habove : ¬HasUseAbove candidates candidate) : Emitted candidate .useItem
  | innermost (huse : candidate.isUse = true) (hbelow : ¬HasUseBelow candidates candidate)
      (habove : HasUseAbove candidates candidate) : Emitted candidate .useLeaf

/-- A unit around the candidate. -/
def EmittedAround (candidate outer : TemplateCandidate) : Prop :=
  outer ∈ candidates ∧ (∃ kind, Emitted candidates outer kind) ∧ candidate.Inside outer

/-- The range of the smallest unit around the candidate. -/
def IsParentRange (candidate : TemplateCandidate) : Option ByteRange → Prop
  | none => ∀ outer, ¬EmittedAround candidates candidate outer
  | some range => ∃ parent, EmittedAround candidates candidate parent ∧ parent.range = range ∧
      ∀ outer, EmittedAround candidates candidate outer → outer.range.contains range = true

/-- The ranges overlap, and neither contains the other. -/
def PartlyOverlap (a b : TemplateCandidate) : Prop :=
  a.range.start < b.range.start ∧ b.range.start < a.range.stop ∧ a.range.stop < b.range.stop

/-- One range with two kinds, or ranges that overlap partly. -/
def Conflict (a b : TemplateCandidate) : Prop :=
  a.rule = b.rule ∧ (a.range = b.range ∧ a.isUse ≠ b.isUse ∨ PartlyOverlap a b)

variable {candidates} {a b c : TemplateCandidate} {kind : WrittenUnitKind}

theorem rule_eq_iff : a.rule = b.rule ↔ a.rule.index = b.rule.index := by
  refine ⟨congrArg _, fun h => ?_⟩
  obtain ⟨⟨i⟩, _, _⟩ := a
  obtain ⟨⟨j⟩, _, _⟩ := b
  exact congrArg SourceUnitId.mk h

theorem range_eq_iff : a.range = b.range ↔
    a.range.start = b.range.start ∧ a.range.stop = b.range.stop := by
  refine ⟨fun h => h ▸ ⟨rfl, rfl⟩, fun h => ?_⟩
  obtain ⟨_, ⟨i, j⟩, _⟩ := a
  obtain ⟨_, ⟨k, l⟩, _⟩ := b
  obtain ⟨rfl, rfl⟩ := h
  rfl

theorem outerKey_lt_iff : a.outerKey < b.outerKey ↔ a.rule.index < b.rule.index ∨
    a.rule.index = b.rule.index ∧ (a.range.start < b.range.start ∨
      a.range.start = b.range.start ∧ b.range.stop < a.range.stop) := by
  rw [outerKey, outerKey, Prod.Lex.toLex_lt_toLex, Prod.Lex.toLex_lt_toLex, ← rule_eq_iff]
  rfl

theorem closedAt_iff : a.closedAt b = true ↔
    a.rule.index ≠ b.rule.index ∨ a.range.stop ≤ b.range.start := by
  rw [closedAt, Bool.or_eq_true, decide_eq_true_eq, decide_eq_true_eq, ne_eq, rule_eq_iff]

theorem encloses_iff : a.encloses b = true ↔ a.rule.index = b.rule.index ∧
    a.range.start ≤ b.range.start ∧ b.range.stop ≤ a.range.stop := by
  rw [encloses, Bool.and_eq_true, decide_eq_true_eq, rule_eq_iff, ByteRange.contains_iff]

theorem inside_iff : a.Inside b ↔ b.encloses a = true ∧
    ¬(a.range.start = b.range.start ∧ a.range.stop = b.range.stop) := by
  rw [Inside, encloses_iff, ← ByteRange.contains_iff, ← rule_eq_iff, ← range_eq_iff, and_assoc,
    eq_comm]

/-- In the order of the candidates, with ranges that are not empty. -/
def Before (a b : TemplateCandidate) : Prop :=
  a.outerKey < b.outerKey ∧ a.range.start < a.range.stop ∧ b.range.start < b.range.stop

theorem nestingOrder : NestingOrder Before closedAt encloses where
  stays {a b c} hab hbc hclosed := by
    rw [Before, outerKey_lt_iff] at hab hbc
    rw [closedAt_iff] at hclosed ⊢
    omega
  inside {a b c} hab hbc hencl hclosed := by
    rw [Before, outerKey_lt_iff] at hab hbc
    rw [encloses_iff] at hencl
    rw [closedAt_iff] at hclosed ⊢
    omega
  trans {a b c} hab hbc := by
    rw [encloses_iff] at *
    omega
  alive {a b} hab hencl := by
    rw [Before, outerKey_lt_iff] at hab
    rw [encloses_iff] at hencl
    rw [← Bool.not_eq_true, closedAt_iff]
    omega

/-- Of two candidates in order, the later one is closed off, or inside, or there is a conflict. -/
theorem Before.nested_iff (h : Before a b) :
    (a.closedAt b = true ∨ a.encloses b = true) ↔
      ¬(a.rule = b.rule ∧ (PartlyOverlap a b ∨ PartlyOverlap b a)) := by
  rw [Before, outerKey_lt_iff] at h
  rw [closedAt_iff, encloses_iff, rule_eq_iff, PartlyOverlap, PartlyOverlap]
  omega

theorem IsParentRange.unique {range range' : Option ByteRange}
    (h : IsParentRange candidates c range) (h' : IsParentRange candidates c range') :
    range = range' := by
  cases range with
  | none =>
    cases range' with
    | none => rfl
    | some r =>
      obtain ⟨outer, houter, -⟩ := h'
      exact absurd houter (h outer)
  | some r =>
    obtain ⟨outer, houter, rfl, hleast⟩ := h
    cases range' with
    | none => exact absurd houter (h' outer)
    | some r' =>
      obtain ⟨outer', houter', rfl, hleast'⟩ := h'
      have hle := ByteRange.contains_iff.mp (hleast outer' houter')
      have hle' := ByteRange.contains_iff.mp (hleast' outer houter)
      have heq : outer.range = outer'.range := range_eq_iff.mpr ⟨by omega, by omega⟩
      rw [heq]

/-- The two flags decide the kind. -/
theorem templateKind_eq_some {below above : Bool} (hbelow : below = true ↔ HasUseBelow candidates c)
    (habove : above = true ↔ HasUseAbove candidates c) :
    templateKind c.isUse below above = some kind ↔ Emitted candidates c kind := by
  constructor
  · intro h
    cases huse : c.isUse <;> cases below <;> cases above <;> rw [huse] at h <;> cases h
    all_goals simp only [Bool.false_eq_true, false_iff, true_iff] at hbelow habove
    · exact .other huse
    · exact .other huse
    · exact .other huse
    · exact .other huse
    · exact .alone huse hbelow habove
    · exact .innermost huse hbelow habove
    · exact .outermost huse hbelow habove
  · intro h
    cases h with
    | other huse =>
      rw [huse]
      rfl
    | alone huse hno hno' =>
      rw [huse, Bool.eq_false_iff.mpr (mt hbelow.mp hno), Bool.eq_false_iff.mpr (mt habove.mp hno')]
      rfl
    | outermost huse hyes hno =>
      rw [huse, hbelow.mpr hyes, Bool.eq_false_iff.mpr (mt habove.mp hno)]
      rfl
    | innermost huse hno hyes =>
      rw [huse, Bool.eq_false_iff.mpr (mt hbelow.mp hno), habove.mpr hyes]
      rfl

end TemplateCandidate

/-! ## The layout -/

section Layout

open TemplateCandidate

variable {candidates : Finset TemplateCandidate} {items : List TemplateCandidate}
  {parents : List (Option Nat)} (hmem : ∀ c, c ∈ items ↔ c ∈ candidates)
  (hsorted : items.Pairwise Before) (hnesting : IsNesting closedAt encloses items parents)

include hsorted in
/-- What comes earlier and encloses a candidate is what it lies inside. -/
theorem inside_iff_earlier {i j : Nat} {a b : TemplateCandidate} (ha : items[i]? = some a)
    (hb : items[j]? = some b) : a.Inside b ↔ j < i ∧ b.encloses a = true := by
  have hpairs := pairwise_iff_getElem.mp hsorted
  obtain ⟨hi, rfl⟩ := List.getElem?_eq_some_iff.mp ha
  obtain ⟨hj, rfl⟩ := List.getElem?_eq_some_iff.mp hb
  rw [inside_iff, and_comm (a := j < i)]
  refine and_congr_right fun hencl => ?_
  rw [encloses_iff] at hencl
  rcases lt_trichotomy i j with hlt | rfl | hlt
  · have hbefore := hpairs i j hi hj hlt
    rw [Before, outerKey_lt_iff] at hbefore
    omega
  · simp
  · have hbefore := hpairs j i hj hi hlt
    rw [Before, outerKey_lt_iff] at hbefore
    omega

include hsorted hnesting in
theorem above_iff_inside {i j : Nat} : Relation.TransGen (Up (parentAt parents)) i j ↔
    ∃ a b, items[i]? = some a ∧ items[j]? = some b ∧ a.Inside b := by
  rw [hnesting.above_iff nestingOrder hsorted]
  constructor
  · rintro ⟨hlt, b, a, hb, ha, hencl⟩
    exact ⟨a, b, ha, hb, (inside_iff_earlier hsorted ha hb).mpr ⟨hlt, hencl⟩⟩
  · rintro ⟨a, b, ha, hb, hinside⟩
    obtain ⟨hlt, hencl⟩ := (inside_iff_earlier hsorted ha hb).mp hinside
    exact ⟨hlt, b, a, hb, ha, hencl⟩

/-- Whether the candidate at a position is part of a use tree. -/
abbrev isUseAt (items : List TemplateCandidate) (index : Nat) : Bool :=
  items[index]?.any TemplateCandidate.isUse

theorem isUseAt_iff {i : Nat} : isUseAt items i = true ↔
    ∃ c, items[i]? = some c ∧ c.isUse = true := Option.any_eq_true _ _

include hmem hsorted hnesting in
theorem markAncestors_isUse_iff {i : Nat} {c : TemplateCandidate} (hc : items[i]? = some c) :
    (markAncestors (isUseAt items) parents)[i]?.getD false = true ↔ HasUseBelow candidates c := by
  rw [markAncestors_iff fun _ _ => hnesting.parent_lt]
  constructor
  · rintro ⟨j, hji, huse⟩
    obtain ⟨d, hd, huse⟩ := isUseAt_iff.mp huse
    obtain ⟨a, b, ha, hb, hinside⟩ := (above_iff_inside hsorted hnesting).mp hji
    cases hd.symm.trans ha
    cases hc.symm.trans hb
    exact ⟨d, (hmem d).mp (mem_of_getElem? hd), huse, hinside⟩
  · rintro ⟨d, hd, huse, hinside⟩
    obtain ⟨j, hj⟩ := getElem?_of_mem ((hmem d).mpr hd)
    exact ⟨j, (above_iff_inside hsorted hnesting).mpr ⟨d, c, hj, hc, hinside⟩,
      isUseAt_iff.mpr ⟨d, hj, huse⟩⟩

include hmem hsorted hnesting in
theorem inheritMarks_isUse_iff {i : Nat} {c : TemplateCandidate} (hc : items[i]? = some c) :
    (inheritMarks (fun parent outer =>
      outer.or (if isUseAt items parent then some parent else none))
      parents)[i]?.join.isSome = true ↔ HasUseAbove candidates c := by
  have hstep : ∀ (p : Nat) (outer : Option Nat),
      (outer.or (if isUseAt items p then some p else none)).isSome =
        (outer.isSome || isUseAt items p) := fun p outer => by
    rw [Option.isSome_or]
    cases isUseAt items p <;> rfl
  rw [inheritMarks_isSome_iff (isUseAt items) (fun _ _ => hnesting.parent_lt) hstep]
  constructor
  · rintro ⟨j, hij, huse⟩
    obtain ⟨d, hd, huse⟩ := isUseAt_iff.mp huse
    obtain ⟨a, b, ha, hb, hinside⟩ := (above_iff_inside hsorted hnesting).mp hij
    cases hc.symm.trans ha
    cases hd.symm.trans hb
    exact ⟨d, (hmem d).mp (mem_of_getElem? hd), huse, hinside⟩
  · rintro ⟨d, hd, huse, hinside⟩
    obtain ⟨j, hj⟩ := getElem?_of_mem ((hmem d).mpr hd)
    exact ⟨j, (above_iff_inside hsorted hnesting).mpr ⟨c, d, hc, hj, hinside⟩,
      isUseAt_iff.mpr ⟨d, hj, huse⟩⟩

/-- The kinds of the candidates. -/
abbrev templateKinds (items : List TemplateCandidate) (parents : List (Option Nat)) :
    List (Option WrittenUnitKind) :=
  items.zipIdx.map fun entry =>
    templateKind entry.1.isUse ((markAncestors (isUseAt items) parents)[entry.2]?.getD false)
      (inheritMarks (fun parent outer =>
        outer.or (if isUseAt items parent then some parent else none))
        parents)[entry.2]?.join.isSome

include hmem hsorted hnesting in
theorem templateKinds_eq_some {i : Nat} {kind : WrittenUnitKind} :
    (templateKinds items parents)[i]?.join = some kind ↔
      ∃ c, items[i]? = some c ∧ Emitted candidates c kind := by
  rw [templateKinds, getElem?_map, getElem?_zipIdx]
  cases hc : items[i]? with
  | none => simp
  | some c =>
    simp only [Option.map_some, Option.join_some, Nat.zero_add, Option.some.injEq, exists_eq_left']
    exact templateKind_eq_some (markAncestors_isUse_iff hmem hsorted hnesting hc)
      (inheritMarks_isUse_iff hmem hsorted hnesting hc)

include hmem hsorted hnesting in
/-- The range of the nearest emitted candidate above is the one of the smallest unit around. -/
theorem nearest_isParentRange {i : Nat} {c : TemplateCandidate} (hc : items[i]? = some c) :
    IsParentRange candidates c ((inheritMarks (fun parent nearest =>
      if (templateKinds items parents)[parent]?.join.isSome then some parent else nearest)
      parents)[i]?.join.bind fun parent => items[parent]?.map TemplateCandidate.range) := by
  set nearest := (inheritMarks (fun parent nearest =>
      if (templateKinds items parents)[parent]?.join.isSome then some parent else nearest)
      parents)[i]?.join with hnearest
  have haround : ∀ d, EmittedAround candidates c d ↔
      ∃ j : Nat, items[j]? = some d ∧ Relation.TransGen (Up (parentAt parents)) i j ∧
        (templateKinds items parents)[j]?.join.isSome = true := by
    intro d
    simp only [Option.isSome_iff_exists, templateKinds_eq_some hmem hsorted hnesting,
      above_iff_inside hsorted hnesting]
    constructor
    · rintro ⟨hd, ⟨kind, hkind⟩, hinside⟩
      obtain ⟨j, hj⟩ := getElem?_of_mem ((hmem d).mpr hd)
      exact ⟨j, hj, ⟨c, d, hc, hj, hinside⟩, kind, d, hj, hkind⟩
    · rintro ⟨j, hj, ⟨a, b, ha, hb, hinside⟩, kind, e, he, hkind⟩
      cases hc.symm.trans ha
      cases hj.symm.trans hb
      cases hj.symm.trans he
      exact ⟨(hmem d).mp (mem_of_getElem? hj), ⟨kind, hkind⟩, hinside⟩
  let emitted (j : Nat) : Bool := (templateKinds items parents)[j]?.join.isSome
  have hlt : ∀ i p, Up (parentAt parents) i p → p < i := fun _ _ => hnesting.parent_lt
  cases hn : nearest with
  | none =>
    intro d hd
    obtain ⟨j, -, habove, hemitted⟩ := (haround d).mp hd
    have hstep : ∀ (p : Nat) (above : Option Nat),
        (if emitted p then some p else above).isSome = (above.isSome || emitted p) :=
      fun p above => by cases emitted p <;> simp
    have hisSome := (inheritMarks_isSome_iff emitted hlt hstep).mpr ⟨j, habove, hemitted⟩
    rw [← hnearest, hn] at hisSome
    cases hisSome
  | some j =>
    obtain ⟨⟨habove, hemitted⟩, hbest⟩ :=
      (inheritMarks_eq_some_iff emitted hlt fun _ _ => rfl).mp (hnearest ▸ hn)
    obtain ⟨a, d, ha, hd, hinside⟩ := (above_iff_inside hsorted hnesting).mp habove
    cases hc.symm.trans ha
    rw [Option.bind_some, hd]
    refine ⟨d, (haround d).mpr ⟨j, hd, habove, hemitted⟩, rfl, fun e he => ?_⟩
    obtain ⟨k, hk, habove', hemitted'⟩ := (haround e).mp he
    rcases (hbest k habove' hemitted').eq_or_lt with rfl | hkj
    · cases hd.symm.trans hk
      exact ByteRange.contains_iff.mpr ⟨le_rfl, le_rfl⟩
    · -- both are around the candidate, so the earlier one cannot be closed before the later one
      obtain ⟨hi, rfl⟩ := List.getElem?_eq_some_iff.mp hc
      obtain ⟨hj, rfl⟩ := List.getElem?_eq_some_iff.mp hd
      obtain ⟨hlt', rfl⟩ := List.getElem?_eq_some_iff.mp hk
      have hpairs := pairwise_iff_getElem.mp hsorted
      have hji := ((hnesting.above_iff nestingOrder hsorted).mp habove).1
      have hnested := pairwise_iff_getElem.mp hnesting.nested k j hlt' hj hkj
      have hlive := nestingOrder.alive (hpairs k i hlt' hi (hkj.trans hji)) (inside_iff.mp he.2.2).1
      refine ByteRange.contains_iff.mpr (encloses_iff.mp (hnested.resolve_left fun hclosed => ?_)).2
      rw [nestingOrder.stays (hpairs k j hlt' hj hkj) (hpairs j i hj hi hji) hclosed] at hlive
      cases hlive

include hmem hsorted hnesting in
/-- The layout holds the emitted candidates with their kinds and parents. -/
theorem mem_templateLayout {entry : ClassifiedTemplate} :
    entry ∈ templateLayout items parents ↔ entry.1 ∈ candidates ∧
      Emitted candidates entry.1 entry.2.1 ∧ IsParentRange candidates entry.1 entry.2.2 := by
  obtain ⟨c, kind, range⟩ := entry
  rw [templateLayout]
  dsimp only
  rw [mem_insertionSort, mem_filterMap]
  constructor
  · rintro ⟨⟨d, i⟩, hd, hentry⟩
    have hd := mem_zipIdx_iff_getElem?.mp hd
    obtain ⟨kind', hkind, hentry⟩ := Option.map_eq_some_iff.mp hentry
    cases hentry
    obtain ⟨e, he, hemitted⟩ := (templateKinds_eq_some hmem hsorted hnesting).mp hkind
    cases he.symm.trans hd
    exact ⟨(hmem _).mp (mem_of_getElem? he), hemitted,
      nearest_isParentRange hmem hsorted hnesting he⟩
  · rintro ⟨hc, hemitted, hrange⟩
    obtain ⟨i, hi⟩ := getElem?_of_mem ((hmem c).mpr hc)
    refine ⟨(c, i), mem_zipIdx_iff_getElem?.mpr hi, Option.map_eq_some_iff.mpr ⟨kind,
      (templateKinds_eq_some hmem hsorted hnesting).mpr ⟨c, hi, hemitted⟩, ?_⟩⟩
    rw [hrange.unique (nearest_isParentRange hmem hsorted hnesting hi)]

include hsorted in
theorem templateLayout_sorted : (templateLayout items parents).Pairwise fun a b =>
    a.1.outerKey < b.1.outerKey := by
  have hne : (templateLayout items parents).Pairwise fun a b => a.1.outerKey ≠ b.1.outerKey := by
    rw [templateLayout]
    refine (List.Perm.pairwise_iff Ne.symm (perm_insertionSort _ _)).mpr ?_
    rw [pairwise_filterMap]
    have hitems : items.zipIdx.Pairwise fun x y => x.1.outerKey < y.1.outerKey := by
      have hfst : (items.zipIdx.map Prod.fst).Pairwise fun a b => a.outerKey < b.outerKey := by
        rw [zipIdx_map_fst]
        exact hsorted.imp And.left
      exact (pairwise_map (R := fun a b : TemplateCandidate => a.outerKey < b.outerKey)).mp hfst
    refine hitems.imp fun {x y} hxy a ha b hb => ?_
    obtain ⟨_, -, rfl⟩ := Option.map_eq_some_iff.mp ha
    obtain ⟨_, -, rfl⟩ := Option.map_eq_some_iff.mp hb
    exact hxy.ne
  refine ((pairwise_insertionSort_key (fun a : ClassifiedTemplate =>
    toLex (a.1.outerKey, a.2.1.rank)) _).and hne).imp fun {a b} h => ?_
  rcases (Prod.Lex.toLex_le_toLex.mp h.1) with hlt | ⟨heq, -⟩
  · exact hlt
  · exact absurd heq h.2

end Layout

/-! ## Conflicts -/

section Conflicts

open TemplateCandidate

variable {candidates : Finset TemplateCandidate}

theorem nodup_rangeEntries_iff : ((rangeEntries candidates).map Prod.fst).Nodup ↔
    ∀ a ∈ candidates, ∀ b ∈ candidates, a.rule = b.rule → a.range = b.range →
      a.isUse = b.isUse := by
  rw [rangeEntries, map_map, nodup_map_iff_inj_on (nodup_ascending candidates)]
  simp only [mem_ascending, Function.comp_apply]
  constructor
  · intro h a ha b hb hrule hrange
    rw [h a ha b hb (by rw [hrule, hrange])]
  · intro h a ha b hb hkey
    obtain ⟨hrule, hrange⟩ := Prod.mk.inj (toLex.injective hkey)
    have huse := h a ha b hb hrule hrange
    cases a
    cases b
    cases hrule
    cases hrange
    cases huse
    rfl

theorem mem_candidatesOf {byRange : SortedMap (SourceUnitId ×ₗ ByteRange) Bool}
    (hentries : ∀ entry, entry ∈ byRange.entries ↔ entry ∈ rangeEntries candidates)
    (c : TemplateCandidate) : c ∈ candidatesOf byRange ↔ c ∈ candidates := by
  rw [candidatesOf, mem_insertionSort, mem_map]
  constructor
  · rintro ⟨entry, hentry, rfl⟩
    obtain ⟨d, hd, rfl⟩ := mem_map.mp ((hentries entry).mp hentry)
    exact mem_ascending.mp hd
  · intro hc
    exact ⟨(toLex (c.rule, c.range), c.isUse), (hentries _).mpr
      (mem_map_of_mem (mem_ascending.mpr hc)), rfl⟩

theorem candidatesOf_sorted {byRange : SortedMap (SourceUnitId ×ₗ ByteRange) Bool}
    (hentries : ∀ entry, entry ∈ byRange.entries ↔ entry ∈ rangeEntries candidates)
    (hne : ∀ c ∈ candidates, c.range.start < c.range.stop) :
    (candidatesOf byRange).Pairwise Before := by
  have hkeys : (candidatesOf byRange).Pairwise fun a b => a.outerKey ≠ b.outerKey := by
    refine (List.Perm.pairwise_iff Ne.symm (perm_insertionSort _ _)).mpr ?_
    refine pairwise_map.mpr ((pairwise_map.mp byRange.sorted).imp fun {x y} hxy heq => ?_)
    obtain ⟨hrule, hrest⟩ := Prod.mk.inj (toLex.injective heq)
    obtain ⟨hstart, hstop⟩ := Prod.mk.inj (toLex.injective hrest)
    refine hxy.ne (ofLex.injective (Prod.ext hrule ?_))
    have hranges : ∀ {r s : ByteRange}, r.start = s.start → r.stop = s.stop → r = s := by
      rintro ⟨_, _⟩ ⟨_, _⟩ rfl rfl
      rfl
    exact hranges hstart (OrderDual.toDual.injective hstop)
  have hmem := mem_candidatesOf hentries
  refine ((pairwise_insertionSort_key outerKey _).and hkeys).imp_of_mem fun {a b} ha hb h => ?_
  exact ⟨lt_of_le_of_ne h.1 h.2, hne a ((hmem a).mp ha), hne b ((hmem b).mp hb)⟩

/-- Candidates with distinct ranges are nested if and only if none of them conflict. -/
theorem nested_iff_no_conflict {items : List TemplateCandidate}
    (hmem : ∀ c, c ∈ items ↔ c ∈ candidates) (hsorted : items.Pairwise Before)
    (hdistinct : ∀ a ∈ candidates, ∀ b ∈ candidates, a.rule = b.rule → a.range = b.range →
      a.isUse = b.isUse) :
    (items.Pairwise fun a b => a.closedAt b = true ∨ a.encloses b = true) ↔
      ¬∃ a ∈ candidates, ∃ b ∈ candidates, a.Conflict b := by
  constructor
  · rintro hnested ⟨a, ha, b, hb, hrule, ⟨hrange, huse⟩ | hoverlap⟩
    · exact huse (hdistinct a ha b hb hrule hrange)
    · have hboth := hnested.and hsorted
      let Apart (x y : TemplateCandidate) : Prop :=
        ¬(x.rule = y.rule ∧ (PartlyOverlap x y ∨ PartlyOverlap y x))
      have hsymm : Std.Symm Apart := ⟨fun x y h ⟨hrule, hxy⟩ => h ⟨hrule.symm, hxy.symm⟩⟩
      have hapart : items.Pairwise Apart := (hnested.and hsorted).imp fun h => h.2.nested_iff.mp h.1
      refine hapart.forall ((hmem a).mpr ha) ((hmem b).mpr hb) ?_ ⟨hrule, .inl hoverlap⟩
      rintro rfl
      exact absurd hoverlap.1 (lt_irrefl _)
  · intro hno
    refine hsorted.imp_of_mem fun {a b} ha hb h => h.nested_iff.mpr ?_
    rintro ⟨hrule, hoverlap | hoverlap⟩
    · exact hno ⟨a, (hmem a).mp ha, b, (hmem b).mp hb, hrule, .inr hoverlap⟩
    · exact hno ⟨b, (hmem b).mp hb, a, (hmem a).mp ha, hrule.symm, .inr hoverlap⟩

end Conflicts

/-- The candidates become the units of the use trees and the other items, unless they conflict. -/
theorem classifyTemplateCandidates_emits (candidates : Finset TemplateCandidate)
    (hne : ∀ c ∈ candidates, c.range.start < c.range.stop) :
    (classifyTemplateCandidates candidates = .error .incompleteDeclarativeMacroObservation ↔
      ∃ a ∈ candidates, ∃ b ∈ candidates, a.Conflict b) ∧
    ((¬∃ a ∈ candidates, ∃ b ∈ candidates, a.Conflict b) →
      ∃ layout, classifyTemplateCandidates candidates = .ok layout ∧
        (layout.Pairwise fun x y => x.1.outerKey < y.1.outerKey) ∧
        ∀ candidate kind parent, (candidate, kind, parent) ∈ layout ↔ candidate ∈ candidates ∧
          TemplateCandidate.Emitted candidates candidate kind ∧
            TemplateCandidate.IsParentRange candidates candidate parent) := by
  obtain ⟨herror, hok⟩ := SortedMap.foldlM_insertNew
    SourceError.incompleteDeclarativeMacroObservation (rangeEntries candidates)
  by_cases hnodup : ((rangeEntries candidates).map Prod.fst).Nodup
  · obtain ⟨byRange, hrun, hentries⟩ := hok hnodup
    have hmem := mem_candidatesOf hentries
    have hsorted := candidatesOf_sorted hentries hne
    have hnested := nested_iff_no_conflict hmem hsorted (nodup_rangeEntries_iff.mp hnodup)
    obtain ⟨hspec, hiff⟩ := nestingParents_eq_some TemplateCandidate.nestingOrder hsorted
    rw [hnested] at hiff
    rw [classifyTemplateCandidates, hrun]
    dsimp only [bind, Except.bind]
    cases hparents : nestingParents TemplateCandidate.closedAt TemplateCandidate.encloses [] 0
      (candidatesOf byRange) with
    | none =>
      have hconflict : ∃ a ∈ candidates, ∃ b ∈ candidates, a.Conflict b := by
        by_contra hno
        obtain ⟨parents, hsome⟩ := hiff.mpr hno
        cases hparents.symm.trans hsome
      exact ⟨⟨fun _ => hconflict, fun _ => rfl⟩, fun hno => absurd hconflict hno⟩
    | some parents =>
      have hno := hiff.mp ⟨parents, hparents⟩
      have hnesting := hspec parents hparents
      refine ⟨⟨fun h => (by cases h), fun h => absurd h hno⟩, fun _ => ⟨_, rfl, ?_, ?_⟩⟩
      · exact templateLayout_sorted hsorted
      · exact fun candidate kind parent => mem_templateLayout hmem hsorted hnesting
  · have hconflict : ∃ a ∈ candidates, ∃ b ∈ candidates, a.Conflict b := by
      rw [nodup_rangeEntries_iff] at hnodup
      push Not at hnodup
      obtain ⟨a, ha, b, hb, hrule, hrange, huse⟩ := hnodup
      exact ⟨a, ha, b, hb, hrule, .inl ⟨hrange, huse⟩⟩
    rw [classifyTemplateCandidates, herror.mpr hnodup]
    exact ⟨⟨fun _ => hconflict, fun _ => rfl⟩, fun hno => absurd hconflict hno⟩

/-- A use tree of three levels and an item with another one inside it. -/
def nestedUses : Finset TemplateCandidate :=
  {⟨⟨1⟩, ⟨0, 20⟩, true⟩, ⟨⟨1⟩, ⟨5, 19⟩, true⟩, ⟨⟨1⟩, ⟨6, 9⟩, true⟩, ⟨⟨1⟩, ⟨20, 30⟩, false⟩,
    ⟨⟨1⟩, ⟨22, 28⟩, false⟩, ⟨⟨2⟩, ⟨5, 25⟩, true⟩}

theorem classifyTemplateCandidates_emits_nestedUses :
    classifyTemplateCandidates nestedUses = .ok
      [(⟨⟨1⟩, ⟨0, 20⟩, true⟩, .useItem, none), (⟨⟨1⟩, ⟨6, 9⟩, true⟩, .useLeaf, some ⟨0, 20⟩),
        (⟨⟨1⟩, ⟨20, 30⟩, false⟩, .nestedItem, none),
        (⟨⟨1⟩, ⟨22, 28⟩, false⟩, .nestedItem, some ⟨20, 30⟩),
        (⟨⟨2⟩, ⟨5, 25⟩, true⟩, .nestedItem, none)] ∧
      ¬∃ a ∈ nestedUses, ∃ b ∈ nestedUses, a.Conflict b := by
  have hrun : classifyTemplateCandidates nestedUses = .ok
      [(⟨⟨1⟩, ⟨0, 20⟩, true⟩, .useItem, none), (⟨⟨1⟩, ⟨6, 9⟩, true⟩, .useLeaf, some ⟨0, 20⟩),
        (⟨⟨1⟩, ⟨20, 30⟩, false⟩, .nestedItem, none),
        (⟨⟨1⟩, ⟨22, 28⟩, false⟩, .nestedItem, some ⟨20, 30⟩),
        (⟨⟨2⟩, ⟨5, 25⟩, true⟩, .nestedItem, none)] := rfl
  refine ⟨hrun, fun hconflict => ?_⟩
  have herror := (classifyTemplateCandidates_emits nestedUses (by decide)).1.mpr hconflict
  rw [hrun] at herror
  cases herror

end ItemDependencies
