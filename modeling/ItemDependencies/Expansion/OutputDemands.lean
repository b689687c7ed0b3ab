import ItemDependencies.Expansion.IntervalStartIndex

/-!
# Demands for a macro's output

An expansion among the products of a macro is demanded by the definitions around
it: those of the smallest definition range that contains it, or the owner of the
macro if there is none.  The demands are grouped by their carriers.
-/

namespace ItemDependencies

open Library List

inductive MacroOutputDemandRole where
  | dependent
  | required
deriving DecidableEq

structure IndexedMacroOutputDemand where
  carrierClass : Nat
  role : MacroOutputDemandRole
deriving DecidableEq

/-- Child products that are needed when one of their carriers is. -/
structure MacroOutputDemand where
  carriers : List DefinitionId
  dependentExpansions : List ExpansionId
  requiredExpansions : List ExpansionId

instance : LinearOrder MacroOutputDemand :=
  LinearOrder.lift' (fun d => toLex (d.carriers, toLex (d.dependentExpansions,
    d.requiredExpansions))) fun a b h => by
    cases a
    cases b
    simpa using h

structure MacroOutputDemandIndex where
  carrierClasses : List (List DefinitionId)
  byChild : SortedMap ExpansionId IndexedMacroOutputDemand

namespace MacroOutputDemandIndex

/-! ## Groups of children -/

/-- The dependent and the required children of one class of carriers. -/
abbrev DemandGroup := Finset ExpansionId × Finset ExpansionId

/-- The children of a role. -/
def side (group : DemandGroup) : MacroOutputDemandRole → Finset ExpansionId
  | .dependent => group.1
  | .required => group.2

def addToSide (group : DemandGroup) (child : ExpansionId) : MacroOutputDemandRole → DemandGroup
  | .dependent => (insert child group.1, group.2)
  | .required => (group.1, insert child group.2)

structure Grouping where
  seen : Finset ExpansionId
  grouped : SortedMap Nat DemandGroup

def addChild (index : MacroOutputDemandIndex) (state : Grouping) (child : ExpansionId) :
    Except ExpansionError Grouping :=
  if child ∈ state.seen then throw .incompleteOrigin
  else
    match index.byChild.get child with
    | none => throw .incompleteOrigin
    | some demand =>
      let group := (state.grouped.get demand.carrierClass).getD (∅, ∅)
      if child ∈ side group demand.role then throw .incompleteOrigin
      else return ⟨insert child state.seen,
        state.grouped.insert demand.carrierClass (addToSide group child demand.role)⟩

def demandGroups (index : MacroOutputDemandIndex) (children : List ExpansionId) :
    Except ExpansionError (SortedMap Nat DemandGroup) :=
  (children.foldlM (addChild index) ⟨∅, .empty⟩).map Grouping.grouped

def lowerGroup (index : MacroOutputDemandIndex) (entry : Nat × DemandGroup) :
    Except ExpansionError MacroOutputDemand :=
  match index.carrierClasses[entry.1]? with
  | none => throw .incompleteOrigin
  | some carriers => return ⟨carriers, ascending entry.2.1, ascending entry.2.2⟩

/-- The demands of some groups, in order. -/
def lowerGroups (index : MacroOutputDemandIndex) (grouped : SortedMap Nat DemandGroup) :
    Except ExpansionError (List MacroOutputDemand) :=
  (grouped.entries.mapM (lowerGroup index)).map (List.insertionSort (· ≤ ·))

def groupChildren (index : MacroOutputDemandIndex) (children : List ExpansionId) :
    Except ExpansionError (List MacroOutputDemand) :=
  index.demandGroups children >>= index.lowerGroups

def allDemands (index : MacroOutputDemandIndex) : Except ExpansionError (List MacroOutputDemand) :=
  index.groupChildren index.byChild.keys

/-- The expansions among some nodes. -/
def childrenOf (products : List GraphNode) : List ExpansionId :=
  products.filterMap fun
    | .expansion expansion => some expansion
    | _ => none

def demandsForProducts (index : MacroOutputDemandIndex) (products : List GraphNode) :
    Except ExpansionError (List MacroOutputDemand) :=
  index.groupChildren (childrenOf products)

end MacroOutputDemandIndex

/-! ## Carriers -/

/-- The definitions of each output range. -/
def definitionsByOutput (products : List ObservedProduct) :
    SortedMap MacroOutputRange (Finset DefinitionId) :=
  products.foldl (fun known product =>
    match product.product with
    | .definition definition =>
      known.insert product.output (insert definition ((known.get product.output).getD ∅))
    | _ => known) .empty

/-- The classes of carriers so far. -/
structure DemandState where
  carrierClasses : List (List DefinitionId)
  fallbackClass : Option Nat
  byChild : SortedMap ExpansionId IndexedMacroOutputDemand

section

variable (definitions : SortedMap MacroOutputRange (Finset DefinitionId))
  (carrierIndex : IntervalStartIndex Nat)
  (rolesByOutput : SortedMap MacroOutputRange MacroOutputDemandRole)
  (fallbackOwner : Option DefinitionId)

/-- The class of the carriers around a range.  The class of the owner is made when it is needed. -/
def carrierClassFor (state : DemandState) (output : MacroOutputRange) :
    Except ExpansionError (Nat × DemandState) :=
  match carrierIndex.innermostContainer output.start output.stop with
  | some carrierClass => return (carrierClass, state)
  | none =>
    match state.fallbackClass with
    | some carrierClass => return (carrierClass, state)
    | none =>
      match fallbackOwner with
      | none => throw .incompleteOrigin
      | some owner => return (state.carrierClasses.length, {
          state with
          carrierClasses := state.carrierClasses ++ [[owner]]
          fallbackClass := some state.carrierClasses.length })

def demandChild (state : DemandState) (output : MacroOutputRange) (child : ExpansionId) :
    Except ExpansionError DemandState := do
  let found ← carrierClassFor carrierIndex fallbackOwner state output
  match rolesByOutput.get output with
  | none => throw .incompleteOrigin
  | some role =>
    if definitions.contains output && decide (role ≠ .dependent) then throw .incompleteOrigin
    else if found.2.byChild.contains child then throw .incompleteOrigin
    else return { found.2 with byChild := found.2.byChild.insert child ⟨found.1, role⟩ }

def demandProduct (state : DemandState) (product : ObservedProduct) :
    Except ExpansionError DemandState :=
  match product.product with
  | .expansion child =>
    demandChild definitions carrierIndex rolesByOutput fallbackOwner state product.output child
  | _ => return state

end

def carriersOf (definitions : SortedMap MacroOutputRange (Finset DefinitionId))
    (output : MacroOutputRange) : Except ExpansionError (List DefinitionId) :=
  match definitions.get output with
  | none => throw .incompleteOrigin
  | some found => return ascending found

def carrierIntervals (ranges : List MacroOutputRange) : List (IndexedInterval Nat) :=
  ranges.zipIdx.map fun entry => ⟨entry.1.start, entry.1.stop, entry.2⟩

def macroOutputDemands (products : List ObservedProduct)
    (rolesByOutput : SortedMap MacroOutputRange MacroOutputDemandRole)
    (fallbackOwner : Option DefinitionId) : Except ExpansionError MacroOutputDemandIndex := do
  let definitions := definitionsByOutput products
  let ranges := definitions.keys.insertionSort MacroOutputRange.OuterFirst
  if !laminarOutputRanges ranges then throw .incompleteOrigin
  else
    let carrierClasses ← ranges.mapM (carriersOf definitions)
    let carrierIndex ← IntervalStartIndex.fromStartOrdered (carrierIntervals ranges)
    let state ← products.foldlM (demandProduct definitions carrierIndex rolesByOutput fallbackOwner)
      ⟨carrierClasses, none, .empty⟩
    return ⟨state.carrierClasses, state.byChild⟩

/-! ## The groups of some children -/

namespace MacroOutputDemandIndex

variable {index : MacroOutputDemandIndex} {role role' : MacroOutputDemandRole}
  {child : ExpansionId} {k : Nat} {children : ExpansionId → Prop}

theorem mem_addToSide {group : DemandGroup} {other : ExpansionId} :
    other ∈ side (addToSide group child role) role' ↔
      role' = role ∧ other = child ∨ other ∈ side group role' := by
  cases role <;> cases role' <;> simp [side, addToSide]

/-- The group of a class, which may be empty. -/
def groupAt (grouped : SortedMap Nat DemandGroup) (k : Nat) : DemandGroup :=
  (grouped.get k).getD (∅, ∅)

/-- The children of a set are grouped by their carriers and their roles. -/
structure IsGrouping (index : MacroOutputDemandIndex) (children : ExpansionId → Prop)
    (grouped : SortedMap Nat DemandGroup) : Prop where
  known : ∀ child, children child → child ∈ index.byChild.keys
  keys : ∀ k, k ∈ grouped.keys ↔ ∃ child, children child ∧ ∃ demand,
    index.byChild.get child = some demand ∧ demand.carrierClass = k
  mem : ∀ k role child, child ∈ side (groupAt grouped k) role ↔
    children child ∧ index.byChild.get child = some ⟨k, role⟩

theorem side_empty : side (∅, ∅) role = ∅ := by cases role <;> rfl

theorem isGrouping_empty : IsGrouping index (fun _ => False) .empty where
  known _ h := h.elim
  keys k := by simp [SortedMap.keys, SortedMap.empty]
  mem k role child := by simp [groupAt, side_empty]

/-- There is one grouping of a set. -/
theorem IsGrouping.unique {grouped grouped' : SortedMap Nat DemandGroup}
    (h : IsGrouping index children grouped) (h' : IsGrouping index children grouped') :
    grouped = grouped' := by
  refine SortedMap.ext_get fun k => ?_
  have hkeys : k ∈ grouped.keys ↔ k ∈ grouped'.keys := (h.keys k).trans (h'.keys k).symm
  have hat : groupAt grouped k = groupAt grouped' k := by
    have hside : ∀ role, side (groupAt grouped k) role = side (groupAt grouped' k) role := by
      intro role
      ext child
      rw [h.mem, h'.mem]
    exact Prod.ext (hside .dependent) (hside .required)
  rw [SortedMap.mem_keys, SortedMap.mem_keys] at hkeys
  unfold groupAt at hat
  cases hget : grouped.get k with
  | none =>
    cases hget' : grouped'.get k with
    | none => rfl
    | some group =>
      obtain ⟨_, hsome⟩ := hkeys.mpr ⟨group, hget'⟩
      cases hget.symm.trans hsome
  | some group =>
    obtain ⟨group', hget'⟩ := hkeys.mp ⟨group, hget⟩
    rw [hget, hget'] at hat
    rw [hget']
    exact congrArg some hat

/-- One more child. -/
theorem IsGrouping.add {grouped : SortedMap Nat DemandGroup} (h : IsGrouping index children grouped)
    {demand : IndexedMacroOutputDemand} (hdemand : index.byChild.get child = some demand) :
    IsGrouping index (fun other => children other ∨ other = child)
      (grouped.insert demand.carrierClass
        (addToSide (groupAt grouped demand.carrierClass) child demand.role)) where
  known other := by
    rintro (hother | rfl)
    · exact h.known other hother
    · exact SortedMap.mem_keys.mpr ⟨demand, hdemand⟩
  keys k := by
    rw [SortedMap.mem_keys_insert, h.keys]
    constructor
    · rintro (rfl | ⟨other, hother, hk⟩)
      · exact ⟨child, .inr rfl, demand, hdemand, rfl⟩
      · exact ⟨other, .inl hother, hk⟩
    · rintro ⟨other, hother | rfl, found, hfound, rfl⟩
      · exact .inr ⟨other, hother, found, hfound, rfl⟩
      · cases hdemand.symm.trans hfound
        exact .inl rfl
  mem k role other := by
    have hat : groupAt (grouped.insert demand.carrierClass
        (addToSide (groupAt grouped demand.carrierClass) child demand.role)) k =
          if k = demand.carrierClass then
            addToSide (groupAt grouped demand.carrierClass) child demand.role
          else groupAt grouped k := by
      rw [groupAt, SortedMap.get_insert]
      split <;> rfl
    rw [hat]
    split
    case isTrue hk =>
      subst hk
      rw [mem_addToSide, h.mem]
      constructor
      · rintro (⟨rfl, rfl⟩ | ⟨hother, hget⟩)
        · exact ⟨.inr rfl, hdemand⟩
        · exact ⟨.inl hother, hget⟩
      · rintro ⟨hother | rfl, hget⟩
        · exact .inr ⟨hother, hget⟩
        · have hrole := congrArg IndexedMacroOutputDemand.role
            (Option.some.inj (hdemand.symm.trans hget))
          exact .inl ⟨hrole.symm, rfl⟩
    case isFalse hk =>
      rw [h.mem]
      refine and_congr_left fun hget => (or_iff_left ?_).symm
      rintro rfl
      cases hdemand.symm.trans hget
      exact hk rfl

theorem demandGroups_ok {children : List ExpansionId} (hnodup : children.Nodup)
    (hknown : ∀ child ∈ children, child ∈ index.byChild.keys) :
    ∃ grouped, index.demandGroups children = .ok grouped ∧
      IsGrouping index (· ∈ children) grouped := by
  let P (done : List ExpansionId) (state : Grouping) : Prop :=
    (∀ child, child ∈ state.seen ↔ child ∈ done) ∧ IsGrouping index (· ∈ done) state.grouped
  have hstep : ∀ done child rest state, children = done ++ child :: rest → P done state →
      ∃ state', addChild index state child = .ok state' ∧ P (done ++ [child]) state' := by
    rintro done child rest state hsplit ⟨hseen, hgrouping⟩
    obtain ⟨demand, hdemand⟩ := SortedMap.mem_keys.mp (hknown child (by simp [hsplit]))
    have hnew : child ∉ done := by
      rw [hsplit] at hnodup
      exact fun hmem => (nodup_append.mp hnodup).2.2 child hmem child (by simp) rfl
    have hside : child ∉ side (groupAt state.grouped demand.carrierClass) demand.role :=
      fun hmem => hnew ((hgrouping.mem _ _ _).mp hmem).1
    refine ⟨⟨insert child state.seen, state.grouped.insert demand.carrierClass
      (addToSide (groupAt state.grouped demand.carrierClass) child demand.role)⟩, ?_,
      fun other => ?_, ?_⟩
    · rw [addChild, if_neg (fun hmem => hnew ((hseen child).mp hmem)), hdemand]
      dsimp only
      rw [groupAt] at hside
      rw [if_neg hside]
      rfl
    · simp [hseen, or_comm]
    · simpa using hgrouping.add hdemand
  obtain ⟨state, hrun, -, hgrouping⟩ := foldlM_total (P := P) hstep (s := ⟨∅, .empty⟩)
    ⟨by simp, by simpa using isGrouping_empty⟩
  refine ⟨state.grouped, ?_, hgrouping⟩
  rw [demandGroups, hrun]
  rfl

/-! ## Merging groups -/

/-- Add the children of a class to what has been merged so far. -/
def mergeGroup (merged : SortedMap Nat DemandGroup) (entry : Nat × DemandGroup) :
    SortedMap Nat DemandGroup :=
  merged.insert entry.1
    ((groupAt merged entry.1).1 ∪ entry.2.1, (groupAt merged entry.1).2 ∪ entry.2.2)

/-- The groups of several sets of children, class by class. -/
def mergeParts (parts : List (SortedMap Nat DemandGroup)) : SortedMap Nat DemandGroup :=
  parts.foldl (fun merged part => part.entries.foldl mergeGroup merged) .empty

theorem groupAt_mergeGroup {merged : SortedMap Nat DemandGroup} {entry : Nat × DemandGroup} :
    child ∈ side (groupAt (mergeGroup merged entry) k) role ↔
      child ∈ side (groupAt merged k) role ∨ entry.1 = k ∧ child ∈ side entry.2 role := by
  have hat : groupAt (mergeGroup merged entry) k = if k = entry.1 then
      ((groupAt merged entry.1).1 ∪ entry.2.1, (groupAt merged entry.1).2 ∪ entry.2.2)
      else groupAt merged k := by
    rw [groupAt, mergeGroup, SortedMap.get_insert]
    split <;> rfl
  rw [hat]
  split
  case isTrue hk =>
    subst hk
    cases role <;> simp [side]
  case isFalse hk => simp [Ne.symm hk]

theorem foldl_mergeGroup (entries : List (Nat × DemandGroup)) (merged : SortedMap Nat DemandGroup) :
    (∀ k, k ∈ (entries.foldl mergeGroup merged).keys ↔ k ∈ merged.keys ∨ k ∈ entries.map Prod.fst) ∧
    ∀ k role child, child ∈ side (groupAt (entries.foldl mergeGroup merged) k) role ↔
      child ∈ side (groupAt merged k) role ∨
        ∃ entry ∈ entries, entry.1 = k ∧ child ∈ side entry.2 role := by
  induction entries generalizing merged with
  | nil => simp
  | cons entry entries ih =>
    obtain ⟨hkeys, hmem⟩ := ih (mergeGroup merged entry)
    refine ⟨fun k => ?_, fun k role child => ?_⟩
    · rw [foldl_cons, hkeys, mergeGroup, SortedMap.mem_keys_insert, map_cons,
        mem_cons, or_comm (a := k = entry.1), or_assoc]
    · rw [foldl_cons, hmem, groupAt_mergeGroup, or_assoc]
      simp

theorem IsGrouping.merge {children children' : ExpansionId → Prop}
    {merged part : SortedMap Nat DemandGroup} (h : IsGrouping index children merged)
    (h' : IsGrouping index children' part) :
    IsGrouping index (fun child => children child ∨ children' child)
      (part.entries.foldl mergeGroup merged) where
  known child hchild := hchild.elim (h.known child) (h'.known child)
  keys k := by
    rw [(foldl_mergeGroup part.entries merged).1, h.keys, show part.entries.map Prod.fst = part.keys
      from rfl, h'.keys]
    simp only [or_and_right, exists_or]
  mem k role child := by
    have hpart : (∃ entry ∈ part.entries, entry.1 = k ∧ child ∈ side entry.2 role) ↔
        child ∈ side (groupAt part k) role := by
      rw [groupAt]
      constructor
      · rintro ⟨⟨_, group⟩, hentry, rfl, hchild⟩
        rw [SortedMap.get_eq_some.mpr hentry]
        exact hchild
      · intro hchild
        cases hget : part.get k with
        | none =>
          rw [hget, Option.getD_none, side_empty] at hchild
          exact absurd hchild (Finset.notMem_empty child)
        | some group =>
          rw [hget] at hchild
          exact ⟨(k, group), SortedMap.get_eq_some.mp hget, rfl, hchild⟩
    rw [(foldl_mergeGroup part.entries merged).2, hpart, h.mem, h'.mem, or_and_right]

/-- The groups of the parts of a set are merged into those of the set. -/
theorem isGrouping_mergeParts {lists : List (List ExpansionId)}
    {parts : List (SortedMap Nat DemandGroup)}
    (h : List.Forall₂ (fun list part => IsGrouping index (· ∈ list) part) lists parts) :
    IsGrouping index (· ∈ lists.flatten) (mergeParts parts) := by
  have key : ∀ (children : ExpansionId → Prop) (merged : SortedMap Nat DemandGroup),
      IsGrouping index children merged →
        IsGrouping index (fun child => children child ∨ child ∈ lists.flatten)
          (parts.foldl (fun merged part => part.entries.foldl mergeGroup merged) merged) := by
    induction h with
    | nil => exact fun children merged hmerged => by simpa using hmerged
    | cons hpart _ ih =>
      intro children merged hmerged
      have := ih _ _ (hmerged.merge hpart)
      simpa [or_assoc] using this
  simpa [mergeParts] using key _ _ isGrouping_empty

/-! ## The demands of groups -/

theorem lowerGroups_ok {grouped : SortedMap Nat DemandGroup} (h : IsGrouping index children grouped)
    (hclasses : ∀ child demand, index.byChild.get child = some demand →
      demand.carrierClass < index.carrierClasses.length) :
    ∃ demands, index.lowerGroups grouped = .ok demands ∧
      ∃ lowered : List MacroOutputDemand, demands.Perm lowered ∧
        List.Forall₂ (fun entry demand => index.carrierClasses[entry.1]? = some demand.carriers ∧
          demand.dependentExpansions = ascending entry.2.1 ∧
          demand.requiredExpansions = ascending entry.2.2) grouped.entries lowered := by
  have hlower : ∀ entry ∈ grouped.entries, ∃ demand, lowerGroup index entry = .ok demand := by
    intro entry hentry
    have hkey : entry.1 ∈ grouped.keys := mem_map_of_mem hentry
    obtain ⟨child, -, demand, hdemand, hk⟩ := (h.keys _).mp hkey
    have hlt := hclasses child demand hdemand
    rw [hk] at hlt
    rw [lowerGroup, getElem?_eq_getElem hlt]
    exact ⟨_, rfl⟩
  obtain ⟨lowered, hlowered⟩ := exists_forall₂ hlower
  refine ⟨lowered.insertionSort (· ≤ ·), ?_, lowered, perm_insertionSort _ _,
    hlowered.imp fun entry demand hdemand => ?_⟩
  · rw [lowerGroups, mapM_total hlowered]
    rfl
  · rw [lowerGroup] at hdemand
    split at hdemand
    · cases hdemand
    · cases hdemand
      exact ⟨‹_›, rfl, rfl⟩

end MacroOutputDemandIndex

end ItemDependencies
