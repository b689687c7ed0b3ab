import ItemDependencies.Library.Fallible
import ItemDependencies.Library.Laminar
import ItemDependencies.Library.SortedMap
import ItemDependencies.Source.Basic

/-!
# The rule that an invocation selects

The compiler reports the range of the selected rule.  It is the range of a
refined rule, or it lies in exactly one macro definition that is kept whole.
The index answers without going through all definitions: these are put in order
of their starts, and each prefix of that order keeps its two largest ends.
-/

namespace ItemDependencies

open Library List

inductive ExactRuleMatch where
  | unique (rule : SourceUnitId)
  | ambiguous
deriving DecidableEq

/-- The two largest ends, the largest first. -/
abbrev LargestEnds := Option Nat × Option Nat

structure WholeDefinitionPrefix where
  start : Nat
  largestEnds : LargestEnds
deriving DecidableEq

structure MacroRuleSelectionIndex where
  exactRules : SortedMap ByteRange ExactRuleMatch
  wholePrefixes : List WholeDefinitionPrefix

namespace LargestEnds

def push (ends : LargestEnds) (stop : Nat) : LargestEnds :=
  if ends.1.all (· ≤ stop) then (some stop, ends.1)
  else if ends.2.all (· < stop) then (ends.1, some stop)
  else ends

/-- How many of the two are not before a position. -/
def countFrom (ends : LargestEnds) (stop : Nat) : Nat :=
  ([ends.1, ends.2].filterMap fun stop => stop).countP (stop ≤ ·)

end LargestEnds

namespace MacroRuleSelectionIndex

def isActiveRule (unit : WrittenUnit) : Bool := unit.kind = .macroRule && unit.cfgState = .active

/-- Note the range of one more rule. -/
def addRule (rules : SortedMap ByteRange ExactRuleMatch) (unit : WrittenUnit) :
    SortedMap ByteRange ExactRuleMatch :=
  match rules.get unit.fullRange with
  | none => rules.insert unit.fullRange (.unique unit.id)
  | some _ => rules.insert unit.fullRange .ambiguous

/-- The definition that is kept whole, if the facts say so. -/
def wholeDefinition : MacroRuleSourceFacts → Option SourceUnitId
  | .whole definition => some definition
  | .refined _ _ _ => none

def wholeRange (units : List WrittenUnit) (definition : SourceUnitId) :
    Except SourceError ByteRange :=
  match units[definition.index]? with
  | some unit =>
    if unit.id = definition ∧ unit.kind = .macroDefinition ∧ unit.cfgState = .active then
      return unit.fullRange
    else throw .invalidInventory
  | none => throw .invalidInventory

def prefixes : LargestEnds → List ByteRange → List WholeDefinitionPrefix
  | _, [] => []
  | ends, range :: ranges =>
    let ends := ends.push range.stop
    ⟨range.start, ends⟩ :: prefixes ends ranges

def new (units : List WrittenUnit) (macroRules : List MacroRuleSourceFacts) :
    Except SourceError MacroRuleSelectionIndex := do
  let exactRules := (units.filter isActiveRule).foldl addRule .empty
  let wholeRanges ← (macroRules.filterMap wholeDefinition).mapM (wholeRange units)
  return {
    exactRules := exactRules
    wholePrefixes :=
      prefixes (none, none)
        (wholeRanges.insertionSort (OuterFirst ByteRange.start ByteRange.stop)) }

/-- How many whole definitions contain a range, up to two. -/
def enclosing (index : MacroRuleSelectionIndex) (selectedRange : ByteRange) : Nat :=
  let prefixCount := (index.wholePrefixes.takeWhile (·.start ≤ selectedRange.start)).length
  if prefixCount = 0 then 0
  else (index.wholePrefixes[prefixCount - 1]?.map fun found =>
    found.largestEnds.countFrom selectedRange.stop).getD 0

def selectedRule (index : MacroRuleSelectionIndex) (selectedRange : ByteRange) :
    Except SourceError (Option SourceUnitId) :=
  match index.exactRules.get selectedRange with
  | some (.unique rule) => return some rule
  | some .ambiguous => throw .invalidInventory
  | none =>
    if index.enclosing selectedRange = 1 then return none
    else throw .incompleteMacroRuleObservation

/-! ## The full scan -/

/-- The active rules with a range. -/
def rulesAt (units : List WrittenUnit) (range : ByteRange) : List WrittenUnit :=
  units.filter fun unit => isActiveRule unit && unit.fullRange = range

/-- The facts that keep a definition whole whose range contains a range. -/
def wholeAround (units : List WrittenUnit) (macroRules : List MacroRuleSourceFacts)
    (range : ByteRange) : List MacroRuleSourceFacts :=
  macroRules.filter fun facts => (wholeDefinition facts).any fun definition =>
    units[definition.index]?.any fun unit => unit.fullRange.contains range

/-- What the facts say about a selected range. -/
def scanSelectedRule (units : List WrittenUnit) (macroRules : List MacroRuleSourceFacts)
    (range : ByteRange) : Except SourceError (Option SourceUnitId) :=
  match rulesAt units range with
  | [rule] => return some rule.id
  | _ :: _ :: _ => throw .invalidInventory
  | [] =>
    if (wholeAround units macroRules range).length = 1 then return none
    else throw .incompleteMacroRuleObservation

end MacroRuleSelectionIndex

/-! ## The two largest ends -/

namespace LargestEnds

/-- The two ends answer for all of them: how many are not before a position, up to two. -/
structure Covers (ends : LargestEnds) (stops : List Nat) : Prop where
  ordered : ∀ second ∈ ends.2, ∃ first ∈ ends.1, second ≤ first
  count : ∀ stop, ends.countFrom stop = min 2 (stops.countP (stop ≤ ·))

theorem covers_nil : Covers (none, none) [] := ⟨by simp, fun _ => rfl⟩

@[simp] theorem countFrom_none {bound : Nat} : countFrom (none, none) bound = 0 := rfl

@[simp] theorem countFrom_one {first bound : Nat} :
    countFrom (some first, none) bound = if bound ≤ first then 1 else 0 := by
  simp [countFrom, countP_singleton]

@[simp] theorem countFrom_two {first second bound : Nat} :
    countFrom (some first, some second) bound =
      (if bound ≤ second then 1 else 0) + if bound ≤ first then 1 else 0 := by
  simp [countFrom, countP_cons]

theorem Covers.push {ends : LargestEnds} {stops : List Nat} (h : ends.Covers stops) (stop : Nat) :
    (ends.push stop).Covers (stops ++ [stop]) := by
  have hcounts : ∀ bound, (stops ++ [stop]).countP (bound ≤ ·) =
      stops.countP (bound ≤ ·) + if bound ≤ stop then 1 else 0 := by
    simp [countP_append, countP_singleton]
  obtain ⟨_ | first, _ | second⟩ := ends
  case none.none =>
    refine ⟨by simp [LargestEnds.push], fun bound => ?_⟩
    have hcount := h.count bound
    simp only [LargestEnds.push, Option.all_none, if_true, countFrom_one, countFrom_none,
      hcounts] at hcount ⊢
    split_ifs <;> omega
  case none.some => simpa using h.ordered second rfl
  case some.none =>
    rcases le_or_gt first stop with hle | hlt
    · have hpush : LargestEnds.push (some first, none) stop = (some stop, some first) := by
        simp [LargestEnds.push, hle]
      rw [hpush]
      refine ⟨by simpa using hle, fun bound => ?_⟩
      have hcount := h.count bound
      simp only [countFrom_one, countFrom_two, hcounts] at hcount ⊢
      split_ifs at hcount ⊢ <;> omega
    · have hpush : LargestEnds.push (some first, none) stop = (some first, some stop) := by
        simp [LargestEnds.push, hlt]
      rw [hpush]
      refine ⟨by simpa using hlt.le, fun bound => ?_⟩
      have hcount := h.count bound
      simp only [countFrom_one, countFrom_two, hcounts] at hcount ⊢
      split_ifs at hcount ⊢ <;> omega
  case some.some =>
    have hordered : second ≤ first := by simpa using h.ordered second rfl
    have hcount := h.count
    simp only [countFrom_two] at hcount
    rcases le_or_gt first stop with hle | hlt
    · have hpush : LargestEnds.push (some first, some second) stop = (some stop, some first) := by
        simp [LargestEnds.push, hle]
      rw [hpush]
      refine ⟨by simpa using hle, fun bound => ?_⟩
      have hcount := hcount bound
      simp only [countFrom_two, hcounts]
      split_ifs at hcount ⊢ <;> omega
    · rcases lt_or_ge second stop with hsecond | hsecond
      · have hpush : LargestEnds.push (some first, some second) stop = (some first, some stop) := by
          simp [LargestEnds.push, hlt, hsecond]
        rw [hpush]
        refine ⟨by simpa using hlt.le, fun bound => ?_⟩
        have hcount := hcount bound
        simp only [countFrom_two, hcounts]
        split_ifs at hcount ⊢ <;> omega
      · have hpush : LargestEnds.push (some first, some second) stop =
            (some first, some second) := by
          simp [LargestEnds.push, not_le.mpr hlt, not_lt.mpr hsecond]
        rw [hpush]
        refine ⟨by simpa using hordered, fun bound => ?_⟩
        have hcount := hcount bound
        simp only [countFrom_two, hcounts]
        split_ifs at hcount ⊢ <;> omega

theorem covers_foldl {ends : LargestEnds} {stops : List Nat} (h : ends.Covers stops)
    (more : List Nat) : (more.foldl push ends).Covers (stops ++ more) := by
  induction more generalizing ends stops with
  | nil => rwa [append_nil]
  | cons stop more ih =>
    have := ih (h.push stop)
    rwa [append_assoc, singleton_append] at this

end LargestEnds

namespace MacroRuleSelectionIndex

/-! ## The rules -/

section

variable {units : List WrittenUnit} {macroRules : List MacroRuleSourceFacts} {range : ByteRange}

/-- What is noted for a range that some rules have. -/
def matchOf : List WrittenUnit → Option ExactRuleMatch
  | [] => none
  | [rule] => some (.unique rule.id)
  | _ :: _ :: _ => some .ambiguous

theorem matchOf_append_singleton (rules : List WrittenUnit) (rule : WrittenUnit) :
    matchOf (rules ++ [rule]) =
      if matchOf rules = none then some (.unique rule.id) else some .ambiguous := by
  rcases rules with _ | ⟨first, _ | ⟨second, rules⟩⟩ <;> rfl

theorem get_foldl_addRule (rules : List WrittenUnit) :
    (rules.foldl addRule .empty).get range =
      matchOf (rules.filter fun unit => unit.fullRange = range) := by
  induction rules using List.reverseRecOn with
  | nil => rfl
  | append_singleton rules rule ih =>
    rw [foldl_append, filter_append]
    show (addRule _ rule).get range = _
    by_cases hrange : rule.fullRange = range
    · subst hrange
      rw [filter_singleton, decide_eq_true rfl, cond_true, matchOf_append_singleton, ← ih, addRule]
      cases hget : (rules.foldl addRule .empty).get rule.fullRange with
      | none => simp [SortedMap.get_insert]
      | some found => simp [SortedMap.get_insert]
    · have hother : (addRule (rules.foldl addRule .empty) rule).get range =
          (rules.foldl addRule .empty).get range := by
        rw [addRule]
        cases (rules.foldl addRule .empty).get rule.fullRange <;>
          simp [SortedMap.get_insert, Ne.symm hrange]
      rw [hother, ih, filter_singleton, decide_eq_false hrange, cond_false, append_nil]

/-! ## The whole definitions -/

theorem prefixes_takeWhile (ends : LargestEnds) (ranges : List ByteRange) (start : Nat) :
    (prefixes ends ranges).takeWhile (·.start ≤ start) =
      prefixes ends (ranges.takeWhile (·.start ≤ start)) := by
  induction ranges generalizing ends with
  | nil => rfl
  | cons range ranges ih =>
    simp only [prefixes, takeWhile_cons]
    split
    · rw [ih]
      rfl
    · rfl

theorem getLast?_prefixes (ends : LargestEnds) {ranges : List ByteRange} (hne : ranges ≠ []) :
    ((prefixes ends ranges).getLast?.map WholeDefinitionPrefix.largestEnds) =
      some ((ranges.map ByteRange.stop).foldl LargestEnds.push ends) := by
  induction ranges generalizing ends with
  | nil => exact absurd rfl hne
  | cons range ranges ih =>
    cases ranges with
    | nil => rfl
    | cons next ranges => exact ih _ (by simp)

/-- The table of the prefixes counts the ranges that contain one. -/
theorem enclosing_eq {index : MacroRuleSelectionIndex} {ranges : List ByteRange}
    (hsorted : ranges.Pairwise (OuterFirst ByteRange.start ByteRange.stop))
    (hextendses : index.wholePrefixes = prefixes (none, none) ranges) :
    index.enclosing range = min 2 (ranges.countP fun whole => whole.contains range) := by
  have hpartitioned : Partitioned (fun whole : ByteRange => whole.start ≤ range.start) ranges :=
    hsorted.imp fun {a b} h hb => by
      simp only [decide_eq_true_eq] at hb ⊢
      rcases h with h | h <;> omega
  set before := ranges.takeWhile fun whole : ByteRange => whole.start ≤ range.start with hbefore
  have hcount : ranges.countP (fun whole => whole.contains range) =
      (before.map ByteRange.stop).countP (range.stop ≤ ·) := by
    have hafter : (ranges.dropWhile fun whole : ByteRange => whole.start ≤ range.start).countP
        (fun whole => whole.contains range) = 0 := by
      rw [countP_eq_zero]
      intro whole hwhole hcontains
      have hstart := ((mem_dropWhile_iff hpartitioned).mp hwhole).2
      simp only [ByteRange.contains, Bool.and_eq_true, decide_eq_true_eq] at hcontains
      simp [hcontains.1] at hstart
    rw [← takeWhile_append_dropWhile (p := fun whole : ByteRange => whole.start ≤ range.start)
      (l := ranges), countP_append, hafter, Nat.add_zero, countP_map]
    apply countP_congr
    intro whole hwhole
    have hstart := ((mem_takeWhile_iff hpartitioned).mp hwhole).2
    simp only [decide_eq_true_eq] at hstart
    simp [ByteRange.contains, hstart]
  have hcovers := LargestEnds.covers_foldl LargestEnds.covers_nil (before.map ByteRange.stop)
  have htake := prefixes_takeWhile (none, none) ranges range.start
  simp only [enclosing, hextendses, htake, ← hbefore]
  rw [hcount, ← nil_append (before.map ByteRange.stop), ← hcovers.count]
  rcases eq_or_ne before [] with hnil | hne
  · simp [hnil, prefixes]
  · have hlast : (prefixes (none, none) ranges)[(prefixes (none, none) before).length - 1]? =
        (prefixes (none, none) before).getLast? := by
      rw [hbefore, ← htake]
      apply getElem?_length_takeWhile_sub_one
      rw [htake, ← hbefore]
      cases hcons : before with
      | nil => exact absurd hcons hne
      | cons first others => simp [prefixes]
    have hends := getLast?_prefixes (none, none) hne
    obtain ⟨found, hfound, hends⟩ := Option.map_eq_some_iff.mp hends
    have hlength : (prefixes (none, none) before).length ≠ 0 := by
      intro hzero
      rw [length_eq_zero_iff.mp hzero] at hfound
      cases hfound
    rw [if_neg hlength, hlast, hfound, Option.map_some, Option.getD_some, hends]

/-! ## Agreement -/

theorem new_ok {index : MacroRuleSelectionIndex} (h : new units macroRules = .ok index)
    (range : ByteRange) :
    ∃ ranges : List ByteRange, ranges.Pairwise (OuterFirst ByteRange.start ByteRange.stop) ∧
      index.exactRules = (units.filter isActiveRule).foldl addRule .empty ∧
      index.wholePrefixes = prefixes (none, none) ranges ∧
      ranges.countP (fun whole => whole.contains range) =
        (wholeAround units macroRules range).length := by
  obtain ⟨ranges, hranges, h⟩ := bind_ok h
  cases h
  refine ⟨_, pairwise_insertionSort _ _, rfl, rfl, ?_⟩
  rw [(perm_insertionSort _ ranges).countP_eq, wholeAround, ← countP_eq_length_filter]
  have hcount : ∀ (definitions : List SourceUnitId) (ranges : List ByteRange),
      definitions.mapM (wholeRange units) = .ok ranges →
      ranges.countP (fun whole => whole.contains range) = definitions.countP fun definition =>
        units[definition.index]?.any fun unit => unit.fullRange.contains range := by
    intro definitions ranges h
    induction mapM_ok h with
    | nil => rfl
    | @cons definition whole definitions ranges hwhole htail ih =>
      have hunit : (units[definition.index]?.any fun unit => unit.fullRange.contains range) =
          whole.contains range := by
        rw [wholeRange] at hwhole
        split at hwhole
        · rename_i unit hunit
          split at hwhole
          · cases hwhole
            rw [hunit, Option.any_some]
          · cases hwhole
        · cases hwhole
      rw [countP_cons, countP_cons, hunit, ih (mapM_total htail)]
  rw [hcount _ _ hranges, countP_filterMap]
  apply countP_congr
  intro facts _
  cases wholeDefinition facts <;> simp

end

/-- The index answers like a scan of all units and facts. -/
theorem selectedRule_eq_scan {units : List WrittenUnit} {macroRules : List MacroRuleSourceFacts}
    {index : MacroRuleSelectionIndex} (h : new units macroRules = .ok index) (range : ByteRange) :
    index.selectedRule range = scanSelectedRule units macroRules range := by
  obtain ⟨ranges, hsorted, hrules, hextendses, hcount⟩ := new_ok h range
  have hget : index.exactRules.get range = matchOf (rulesAt units range) := by
    rw [hrules, get_foldl_addRule, filter_filter, rulesAt]
    simp only [Bool.and_comm]
  rw [selectedRule, scanSelectedRule, hget, enclosing_eq hsorted hextendses, hcount]
  rcases rulesAt units range with _ | ⟨first, _ | ⟨second, rules⟩⟩
  · simp only [matchOf]
    congr 1
    exact propext (by omega)
  · rfl
  · rfl

/-- Two definitions that are kept whole, one inside the other. -/
def nestedDefinitions : List WrittenUnit :=
  [⟨⟨0⟩, .macroDefinition, ⟨0, 10⟩, none, .active, ⟨0⟩, 0⟩,
    ⟨⟨1⟩, .macroDefinition, ⟨2, 8⟩, none, .active, ⟨1⟩, 0⟩]

/-- A range in the outer definition only is found there, and one in both is refused. -/
theorem selectedRule_eq_scan_nested :
    ∃ index, new nestedDefinitions [.whole ⟨0⟩, .whole ⟨1⟩] = .ok index ∧
      index.selectedRule ⟨8, 9⟩ = .ok none ∧
      index.selectedRule ⟨3, 4⟩ = .error .incompleteMacroRuleObservation := by
  obtain ⟨index, h⟩ : ∃ index, new nestedDefinitions [.whole ⟨0⟩, .whole ⟨1⟩] = .ok index :=
    ⟨_, rfl⟩
  refine ⟨index, h, ?_, ?_⟩
  · rw [selectedRule_eq_scan h]
    rfl
  · rw [selectedRule_eq_scan h]
    rfl

end MacroRuleSelectionIndex

end ItemDependencies
