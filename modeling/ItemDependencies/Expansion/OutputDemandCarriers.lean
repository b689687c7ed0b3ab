import ItemDependencies.Expansion.OutputDemands

/-!
# The carriers of a macro's output

The demands that are read from the products of a macro are assigned to the definitions of the
smallest range around each child, and no child is lost or demanded twice.
-/

namespace ItemDependencies

open Library List

/-! ## The definitions around a range -/

section Carriers

variable {products : List ObservedProduct} {output range : MacroOutputRange}

theorem mem_definitionsByOutput :
    (∀ range, range ∈ (definitionsByOutput products).keys ↔
      ∃ definition, ⟨range, .definition definition⟩ ∈ products) ∧
    ∀ range definition, definition ∈ ((definitionsByOutput products).get range).getD ∅ ↔
      ⟨range, .definition definition⟩ ∈ products := by
  induction products using List.reverseRecOn with
  | nil => simp [definitionsByOutput, SortedMap.keys, SortedMap.empty, SortedMap.get]
  | append_singleton products product ih =>
    obtain ⟨hkeys, hmem⟩ := ih
    obtain ⟨output, node⟩ := product
    rw [definitionsByOutput] at hkeys hmem
    rw [definitionsByOutput, foldl_append, foldl_cons, foldl_nil]
    cases node with
    | definition definition =>
      refine ⟨fun range => ?_, fun range other => ?_⟩
      · rw [SortedMap.mem_keys_insert, hkeys]
        simp only [mem_append, mem_singleton, ObservedProduct.mk.injEq,
          GraphNode.definition.injEq, exists_or, exists_and_left, exists_eq, and_true]
        exact or_comm
      · rw [SortedMap.get_insert]
        split
        case isTrue heq =>
          subst heq
          simp [hmem, or_comm]
        case isFalse hne => simp [hmem, hne]
    | externalDefinition => simpa using ⟨hkeys, hmem⟩
    | expansion => simpa using ⟨hkeys, hmem⟩
    | proof => simpa using ⟨hkeys, hmem⟩
    | mono => simpa using ⟨hkeys, hmem⟩

/-- Some definition was made from the range. -/
def IsDefinitionRange (products : List ObservedProduct) (range : MacroOutputRange) : Prop :=
  ∃ definition, ⟨range, .definition definition⟩ ∈ products

/-- The smallest range of a definition around another range. -/
def IsCarrierRange (products : List ObservedProduct) (output range : MacroOutputRange) : Prop :=
  (IsDefinitionRange products range ∧ range.contains output = true) ∧
    ∀ other, IsDefinitionRange products other → other.contains output = true →
      other.contains range = true

/-- The definitions of the smallest range around a range that is not empty, or else the owner. -/
inductive IsCarriers (products : List ObservedProduct) (fallbackOwner : Option DefinitionId)
    (output : MacroOutputRange) (carriers : List DefinitionId) : Prop
  | definitions (range : MacroOutputRange) (hne : output.start < output.stop)
      (hrange : IsCarrierRange products output range) (hsorted : carriers.Pairwise (· < ·))
      (hmem : ∀ definition, definition ∈ carriers ↔ ⟨range, .definition definition⟩ ∈ products)
  | owner (hno : output.stop ≤ output.start ∨
        ∀ range, IsDefinitionRange products range → range.contains output = false)
      (howner : ∃ owner, fallbackOwner = some owner ∧ carriers = [owner])

variable {ranges : List MacroOutputRange} {carrierIndex : IntervalStartIndex Nat}

theorem getElem?_carrierIntervals {i : Nat} {interval : IndexedInterval Nat} :
    (carrierIntervals ranges)[i]? = some interval ↔
      ∃ range, ranges[i]? = some range ∧ interval = ⟨range.start, range.stop, i⟩ := by
  rw [carrierIntervals, getElem?_map, getElem?_zipIdx, Nat.zero_add]
  cases ranges[i]? <;> simp [eq_comm]

/-- A range around another one that no later one is around is the smallest. -/
theorem isCarrierRange_of_last
    (hranges : ∀ range, range ∈ ranges ↔ IsDefinitionRange products range)
    (hsorted : ranges.Pairwise MacroOutputRange.OuterFirst)
    (hlaminar : ∀ a ∈ ranges, ∀ b ∈ ranges,
      Laminar MacroOutputRange.start MacroOutputRange.stop a b)
    (hne : output.start < output.stop) {k : Nat} (hk : ranges[k]? = some range)
    (hcontains : range.contains output = true)
    (hlast : ∀ j other, k < j → ranges[j]? = some other → other.contains output = false) :
    IsCarrierRange products output range := by
  have hmem := mem_of_getElem? hk
  refine ⟨⟨(hranges range).mp hmem, hcontains⟩, fun other hother hother' => ?_⟩
  obtain ⟨j, hj⟩ := getElem?_of_mem ((hranges other).mpr hother)
  rcases lt_trichotomy k j with hlt | rfl | hlt
  · rw [hlast j other hlt hj] at hother'
    cases hother'
  · cases hk.symm.trans hj
    exact MacroOutputRange.contains_iff.mpr ⟨le_rfl, le_rfl⟩
  · -- the earlier one is longer, and both are around the range, so they are nested
    have houter : MacroOutputRange.OuterFirst other range := by
      obtain ⟨hj', rfl⟩ := List.getElem?_eq_some_iff.mp hj
      obtain ⟨hk', rfl⟩ := List.getElem?_eq_some_iff.mp hk
      exact pairwise_iff_getElem.mp hsorted j k hj' hk' hlt
    have hnested := hlaminar other (mem_of_getElem? hj) range hmem
    rw [MacroOutputRange.contains_iff] at hcontains hother' ⊢
    unfold Laminar Apart Encloses at hnested
    unfold Encloses at hcontains hother' ⊢
    unfold MacroOutputRange.OuterFirst Library.OuterFirst at houter
    omega

variable (hranges : ∀ range, range ∈ ranges ↔ IsDefinitionRange products range)
  (hsorted : ranges.Pairwise MacroOutputRange.OuterFirst)
  (hlaminar : ∀ a ∈ ranges, ∀ b ∈ ranges, Laminar MacroOutputRange.start MacroOutputRange.stop a b)
  (hindex : carrierIndex.intervals = carrierIntervals ranges)

include hindex in
theorem rightmost_isLast_carrier : IsLast
    (fun i => ∃ range, ranges[i]? = some range ∧ range.contains output = true)
    (carrierIndex.rightmostWithEndAtLeast 0 (carrierIndex.upperBoundStart output.start)
      output.stop) := by
  refine (IntervalStartIndex.rightmost_isLast output.stop).congr fun i => ?_
  rw [hindex]
  constructor
  · rintro ⟨interval, hget, hstart, hstop⟩
    obtain ⟨range, hrange, rfl⟩ := getElem?_carrierIntervals.mp hget
    exact ⟨range, hrange, MacroOutputRange.contains_iff.mpr ⟨hstart, hstop⟩⟩
  · rintro ⟨range, hrange, hcontains⟩
    obtain ⟨hstart, hstop⟩ := MacroOutputRange.contains_iff.mp hcontains
    exact ⟨_, getElem?_carrierIntervals.mpr ⟨range, hrange, rfl⟩, hstart, hstop⟩

include hranges hsorted hlaminar hindex in
/-- The index finds the position of the smallest range around. -/
theorem innermostContainer_eq_some {k : Nat}
    (h : carrierIndex.innermostContainer output.start output.stop = some k) :
    output.start < output.stop ∧ ∃ range, ranges[k]? = some range ∧
      IsCarrierRange products output range := by
  rw [IntervalStartIndex.innermostContainer] at h
  split at h
  · cases h
  · have hne : output.start < output.stop := not_le.mp ‹_›
    obtain ⟨i, hi, h⟩ := Option.bind_eq_some_iff.mp h
    obtain ⟨⟨range, hrange, hcontains⟩, hlast⟩ :=
      (rightmost_isLast_carrier hindex).eq_some_iff.mp hi
    rw [hindex, getElem?_carrierIntervals.mpr ⟨range, hrange, rfl⟩] at h
    cases h
    refine ⟨hne, range, hrange, isCarrierRange_of_last hranges hsorted hlaminar hne hrange hcontains
      fun j other hj hother => ?_⟩
    exact Bool.eq_false_iff.mpr fun hcontains => hlast j hj ⟨other, hother, hcontains⟩

include hranges hindex in
theorem innermostContainer_eq_none
    (h : carrierIndex.innermostContainer output.start output.stop = none) :
    output.stop ≤ output.start ∨
      ∀ range, IsDefinitionRange products range → range.contains output = false := by
  rw [IntervalStartIndex.innermostContainer] at h
  split at h
  · exact .inl ‹_›
  · refine .inr fun range hrange => Bool.eq_false_iff.mpr fun hcontains => ?_
    have hlast : IsLast _ (carrierIndex.rightmostWithEndAtLeast 0
      (carrierIndex.upperBoundStart output.start) output.stop) := rightmost_isLast_carrier hindex
    obtain ⟨i, hi⟩ := getElem?_of_mem ((hranges range).mpr hrange)
    cases hfound : carrierIndex.rightmostWithEndAtLeast 0
        (carrierIndex.upperBoundStart output.start) output.stop with
    | none => exact hlast.eq_none_iff.mp hfound i ⟨range, hi, hcontains⟩
    | some j =>
      obtain ⟨⟨other, hother, -⟩, -⟩ := hlast.eq_some_iff.mp hfound
      rw [hfound, hindex, Option.bind_some, getElem?_carrierIntervals.mpr ⟨other, hother, rfl⟩] at h
      cases h

end Carriers

/-! ## The children of a macro -/

section Children

open MacroOutputDemandIndex

variable {definitions : SortedMap MacroOutputRange (Finset DefinitionId)}
  {carrierIndex : IntervalStartIndex Nat}
  {rolesByOutput : SortedMap MacroOutputRange MacroOutputDemandRole}
  {fallbackOwner : Option DefinitionId} {base : List (List DefinitionId)}
  {done : List ObservedProduct} {state state' : DemandState}

/-- The class of the owner comes after those of the definitions, if it has been made. -/
def ClassesOf (base : List (List DefinitionId)) (fallbackOwner : Option DefinitionId)
    (state : DemandState) : Prop :=
  state.fallbackClass = none ∧ state.carrierClasses = base ∨
    ∃ owner, fallbackOwner = some owner ∧ state.fallbackClass = some base.length ∧
      state.carrierClasses = base ++ [[owner]]

/-- The class of the carriers around a range. -/
def classAround (base : List (List DefinitionId)) (carrierIndex : IntervalStartIndex Nat)
    (output : MacroOutputRange) : Nat :=
  (carrierIndex.innermostContainer output.start output.stop).getD base.length

/-- The children so far have their carriers and their roles. -/
structure DemandsAssigned (base : List (List DefinitionId)) (carrierIndex : IntervalStartIndex Nat)
    (rolesByOutput : SortedMap MacroOutputRange MacroOutputDemandRole)
    (fallbackOwner : Option DefinitionId) (done : List ObservedProduct) (state : DemandState) :
    Prop where
  classes : ClassesOf base fallbackOwner state
  children : ∀ child demand, state.byChild.get child = some demand ↔
    ∃ output, ⟨output, .expansion child⟩ ∈ done ∧
      rolesByOutput.get output = some demand.role ∧
        demand.carrierClass = classAround base carrierIndex output
  fallback : ∀ output child, ⟨output, .expansion child⟩ ∈ done →
    carrierIndex.innermostContainer output.start output.stop = none → state.fallbackClass ≠ none
  roles : ∀ output child, ⟨output, .expansion child⟩ ∈ done →
    ∃ role, rolesByOutput.get output = some role
  nodup : (childrenOf (done.map ObservedProduct.product)).Nodup

theorem mem_childrenOf {nodes : List GraphNode} {child : ExpansionId} :
    child ∈ childrenOf nodes ↔ .expansion child ∈ nodes := by
  rw [childrenOf, mem_filterMap]
  constructor
  · rintro ⟨node, hnode, hchild⟩
    cases node with
    | expansion =>
      cases hchild
      exact hnode
    | definition => cases hchild
    | externalDefinition => cases hchild
    | proof => cases hchild
    | mono => cases hchild
  · exact fun hnode => ⟨_, hnode, rfl⟩

theorem mem_childrenOf_products {child : ExpansionId} :
    child ∈ childrenOf (done.map ObservedProduct.product) ↔
      ∃ output, ⟨output, .expansion child⟩ ∈ done := by
  rw [mem_childrenOf, mem_map]
  constructor
  · rintro ⟨⟨output, node⟩, hmem, rfl⟩
    exact ⟨output, hmem⟩
  · rintro ⟨output, hmem⟩
    exact ⟨_, hmem, rfl⟩

theorem carrierClassFor_ok {output : MacroOutputRange} {found : Nat × DemandState}
    (h : ClassesOf base fallbackOwner state)
    (hfound : carrierClassFor carrierIndex fallbackOwner state output = .ok found) :
    found.1 = classAround base carrierIndex output ∧ ClassesOf base fallbackOwner found.2 ∧
      found.2.byChild = state.byChild ∧
      (carrierIndex.innermostContainer output.start output.stop = none ∨
        state.fallbackClass ≠ none → found.2.fallbackClass ≠ none) := by
  unfold carrierClassFor at hfound
  rw [classAround]
  cases hinner : carrierIndex.innermostContainer output.start output.stop with
  | some k =>
    rw [hinner] at hfound
    cases hfound
    exact ⟨rfl, h, rfl, fun hor => hor.resolve_left fun hno => (by cases hno)⟩
  | none =>
    rw [hinner] at hfound
    dsimp only at hfound
    rcases h with ⟨hnone, hclasses⟩ | ⟨owner, howner, hsome, hclasses⟩
    · rw [hnone] at hfound
      cases howner : fallbackOwner with
      | none =>
        rw [howner] at hfound
        cases hfound
      | some owner =>
        rw [howner] at hfound
        cases hfound
        refine ⟨by rw [hclasses]; rfl, .inr ⟨owner, rfl, ?_, ?_⟩, rfl, fun _ => by simp⟩
        · rw [hclasses]
        · rw [hclasses]
    · rw [hsome] at hfound
      cases hfound
      exact ⟨rfl, .inr ⟨owner, howner, hsome, hclasses⟩, rfl, fun _ => by simp [hsome]⟩

theorem DemandsAssigned.demandProduct
    (h : DemandsAssigned base carrierIndex rolesByOutput fallbackOwner done state)
    {product : ObservedProduct}
    (hok : demandProduct definitions carrierIndex rolesByOutput fallbackOwner state product =
      .ok state') :
    DemandsAssigned base carrierIndex rolesByOutput fallbackOwner (done ++ [product]) state' := by
  obtain ⟨output, node⟩ := product
  have hother : (∀ child, node ≠ .expansion child) → state' = state →
      DemandsAssigned base carrierIndex rolesByOutput fallbackOwner (done ++ [⟨output, node⟩])
        state' := by
    rintro hnode rfl
    have hmem : ∀ output' child, (⟨output', .expansion child⟩ : ObservedProduct) ∈
        done ++ [⟨output, node⟩] ↔ ⟨output', .expansion child⟩ ∈ done := by
      intro output' child
      have hne := hnode child
      simp [Ne.symm hne]
    refine ⟨h.classes, fun child demand => ?_, fun output' child hmem' => ?_,
      fun output' child hmem' => ?_, ?_⟩
    · rw [h.children]
      simp only [hmem]
    · exact h.fallback output' child ((hmem _ _).mp hmem')
    · exact h.roles output' child ((hmem _ _).mp hmem')
    · have hnone : childrenOf [node] = [] := by
        cases node with
        | expansion child => exact absurd rfl (hnode child)
        | definition => rfl
        | externalDefinition => rfl
        | proof => rfl
        | mono => rfl
      rw [map_append, childrenOf, filterMap_append]
      rw [childrenOf] at hnone
      rw [map_singleton, hnone, append_nil]
      exact h.nodup
  cases node with
  | expansion child =>
    unfold ItemDependencies.demandProduct demandChild at hok
    obtain ⟨found, hfound, hok⟩ := bind_ok hok
    obtain ⟨hclass, hclasses, hbyChild, hfallback⟩ := carrierClassFor_ok h.classes hfound
    cases hrole : rolesByOutput.get output with
    | none =>
      rw [hrole] at hok
      cases hok
    | some role =>
      rw [hrole] at hok
      obtain ⟨-, hok⟩ := guard_ok hok
      obtain ⟨hnew, hok⟩ := guard_ok hok
      cases hok
      rw [hbyChild] at hnew
      have hold : state.byChild.get child = none := by
        rw [Option.eq_none_iff_forall_ne_some]
        exact fun demand hget => hnew (SortedMap.contains_iff.mpr
          (SortedMap.mem_keys.mpr ⟨demand, hget⟩))
      have hfresh : ∀ output', (⟨output', .expansion child⟩ : ObservedProduct) ∉ done := by
        intro output' hmem
        obtain ⟨role', hrole'⟩ := h.roles output' child hmem
        have hget := (h.children child ⟨classAround base carrierIndex output', role'⟩).mpr
          ⟨output', hmem, hrole', rfl⟩
        cases hold.symm.trans hget
      refine ⟨hclasses, fun other demand => ?_, fun output' other hmem hnone => ?_,
        fun output' other hmem => ?_, ?_⟩
      · rw [SortedMap.get_insert]
        split
        case isTrue heq =>
          subst heq
          constructor
          · rintro ⟨⟩
            exact ⟨output, by simp, hrole, hclass⟩
          · rintro ⟨output', hmem, hrole', hclass'⟩
            rcases mem_append.mp hmem with hmem | hmem
            · exact absurd hmem (hfresh output')
            · cases mem_singleton.mp hmem
              rw [hclass, ← hclass', Option.some.inj (hrole.symm.trans hrole')]
        case isFalse hne =>
          rw [hbyChild, h.children]
          simp [hne]
      · rcases mem_append.mp hmem with hmem | hmem
        · exact hfallback (.inr (h.fallback output' other hmem hnone))
        · cases mem_singleton.mp hmem
          exact hfallback (.inl hnone)
      · rcases mem_append.mp hmem with hmem | hmem
        · exact h.roles output' other hmem
        · cases mem_singleton.mp hmem
          exact ⟨role, hrole⟩
      · have hsplit : childrenOf
            ((done ++ [(⟨output, .expansion child⟩ : ObservedProduct)]).map
              ObservedProduct.product) =
              childrenOf (done.map ObservedProduct.product) ++ [child] := by
          rw [map_append, childrenOf, filterMap_append]
          rfl
        rw [hsplit]
        refine nodup_append.mpr ⟨h.nodup, by simp, ?_⟩
        rintro a ha b hb rfl
        obtain rfl := mem_singleton.mp hb
        obtain ⟨output', hmem⟩ := mem_childrenOf_products.mp ha
        exact hfresh output' hmem
  | definition => exact hother (fun _ => by simp) (by cases hok; rfl)
  | externalDefinition => exact hother (fun _ => by simp) (by cases hok; rfl)
  | proof => exact hother (fun _ => by simp) (by cases hok; rfl)
  | mono => exact hother (fun _ => by simp) (by cases hok; rfl)

/-- What an index has to satisfy that macro output demands are read from. -/
structure IndexOf (products : List ObservedProduct)
    (rolesByOutput : SortedMap MacroOutputRange MacroOutputDemandRole)
    (fallbackOwner : Option DefinitionId) (index : MacroOutputDemandIndex) : Prop where
  child : ∀ output child, ⟨output, .expansion child⟩ ∈ products →
    ∃ demand carriers, index.byChild.get child = some demand ∧
      rolesByOutput.get output = some demand.role ∧
        index.carrierClasses[demand.carrierClass]? = some carriers ∧
          IsCarriers products fallbackOwner output carriers
  keys : index.byChild.keys.Perm (childrenOf (products.map ObservedProduct.product))

theorem macroOutputDemands_indexOf {products : List ObservedProduct}
    {index : MacroOutputDemandIndex}
    (h : macroOutputDemands products rolesByOutput fallbackOwner = .ok index) :
    IndexOf products rolesByOutput fallbackOwner index := by
  unfold macroOutputDemands at h
  obtain ⟨hlaminar, h⟩ := guard_ok h
  rw [Bool.not_eq_true', Bool.not_eq_false] at hlaminar
  obtain ⟨base, hbase, h⟩ := bind_ok h
  obtain ⟨carrierIndex, hindex, h⟩ := bind_ok h
  obtain ⟨state, hstate, h⟩ := bind_ok h
  cases h
  set ranges := (definitionsByOutput products).keys.insertionSort MacroOutputRange.OuterFirst
    with hranges
  have hmem : ∀ range, range ∈ ranges ↔ IsDefinitionRange products range := fun range => by
    rw [hranges, mem_insertionSort]
    exact mem_definitionsByOutput.1 range
  have hsorted : ranges.Pairwise MacroOutputRange.OuterFirst := pairwise_insertionSort _ _
  obtain ⟨-, hlaminar⟩ := laminarOutputRanges_iff.mp hlaminar
  obtain ⟨hintervals, -⟩ := IntervalStartIndex.fromStartOrdered_ok hindex
  have hassigned :
      DemandsAssigned base carrierIndex rolesByOutput fallbackOwner products state := by
    refine foldlM_ok (fun done product s t h hok => h.demandProduct hok) ?_ hstate
    exact ⟨.inl ⟨rfl, rfl⟩, by simp [SortedMap.get, SortedMap.empty], by simp, by simp,
      by simp [childrenOf]⟩
  -- the carriers of a class
  have hcarriers : ∀ (k : Nat) range, ranges[k]? = some range →
      ∃ carriers : List DefinitionId, base[k]? = some carriers ∧ carriers.Pairwise (· < ·) ∧
        ∀ definition, definition ∈ carriers ↔ ⟨range, .definition definition⟩ ∈ products := by
    intro k range hk
    obtain ⟨carriers, hget, hok⟩ := getElem?_of_forall₂ (mapM_ok hbase) hk
    unfold carriersOf at hok
    split at hok
    · cases hok
    · rename_i found hfound
      cases hok
      refine ⟨_, hget, ?_, fun definition => ?_⟩
      · exact ((pairwise_ascending found).and (nodup_ascending found)).imp fun h =>
          lt_of_le_of_ne h.1 h.2
      · rw [mem_ascending, ← mem_definitionsByOutput.2, hfound, Option.getD_some]
  refine ⟨fun output child hchild => ?_, ?_⟩
  · obtain ⟨role, hrole⟩ := hassigned.roles output child hchild
    have hget := (hassigned.children child ⟨classAround base carrierIndex output, role⟩).mpr
      ⟨output, hchild, hrole, rfl⟩
    cases hinner : carrierIndex.innermostContainer output.start output.stop with
    | some k =>
      obtain ⟨hne, range, hk, hrange⟩ :=
        innermostContainer_eq_some hmem hsorted hlaminar hintervals hinner
      obtain ⟨carriers, hbase, hpairwise, hdefinitions⟩ := hcarriers k range hk
      refine ⟨_, carriers, hget, hrole, ?_, .definitions range hne hrange hpairwise hdefinitions⟩
      dsimp only
      rw [classAround, hinner, Option.getD_some]
      have hlt := (List.getElem?_eq_some_iff.mp hbase).1
      rcases hassigned.classes with ⟨-, hclasses⟩ | ⟨owner, -, -, hclasses⟩
      · rwa [hclasses]
      · rwa [hclasses, getElem?_append_left hlt]
    | none =>
      have hno := innermostContainer_eq_none hmem hintervals hinner
      have hmade := hassigned.fallback output child hchild hinner
      rcases hassigned.classes with ⟨hnone, -⟩ | ⟨owner, howner, -, hclasses⟩
      · exact absurd hnone hmade
      · refine ⟨_, [owner], hget, hrole, ?_, .owner hno ⟨owner, howner, rfl⟩⟩
        dsimp only
        rw [classAround, hinner, Option.getD_none, hclasses]
        simp
  · refine (perm_ext_iff_of_nodup SortedMap.nodup_keys hassigned.nodup).mpr fun child => ?_
    rw [mem_childrenOf_products, SortedMap.mem_keys]
    constructor
    · rintro ⟨demand, hget⟩
      obtain ⟨output, houtput, -⟩ := (hassigned.children child demand).mp hget
      exact ⟨output, houtput⟩
    · rintro ⟨output, houtput⟩
      obtain ⟨role, hrole⟩ := hassigned.roles output child houtput
      exact ⟨_, (hassigned.children child ⟨_, role⟩).mpr ⟨output, houtput, hrole, rfl⟩⟩

/-- The child belongs to the demand, on one side. -/
structure MacroOutputDemand.Has (demand : MacroOutputDemand) (child : ExpansionId)
    (role : MacroOutputDemandRole) : Prop where
  dependent : child ∈ demand.dependentExpansions ↔ role = .dependent
  required : child ∈ demand.requiredExpansions ↔ role = .required
  nodup : demand.dependentExpansions.Nodup ∧ demand.requiredExpansions.Nodup

theorem IndexOf.lt_length {products : List ObservedProduct} {index : MacroOutputDemandIndex}
    (h : IndexOf products rolesByOutput fallbackOwner index) {child : ExpansionId}
    {demand : IndexedMacroOutputDemand} (hget : index.byChild.get child = some demand) :
    demand.carrierClass < index.carrierClasses.length := by
  obtain ⟨output, houtput⟩ := mem_childrenOf_products.mp
    (h.keys.mem_iff.mp (SortedMap.mem_keys.mpr ⟨demand, hget⟩))
  obtain ⟨found, carriers, hfound, -, hcarriers, -⟩ := h.child output child houtput
  cases hget.symm.trans hfound
  exact (List.getElem?_eq_some_iff.mp hcarriers).1

/-- The demand that a group becomes. -/
abbrev LoweredTo (index : MacroOutputDemandIndex) (entry : Nat × DemandGroup)
    (demand : MacroOutputDemand) : Prop :=
  index.carrierClasses[entry.1]? = some demand.carriers ∧
    demand.dependentExpansions = ascending entry.2.1 ∧
      demand.requiredExpansions = ascending entry.2.2

section Lowered

variable {index : MacroOutputDemandIndex} {children : ExpansionId → Prop}
  {grouped : SortedMap Nat DemandGroup} (hgrouping : IsGrouping index children grouped)
  {entry : Nat × DemandGroup} {demand : MacroOutputDemand} {child : ExpansionId}

include hgrouping in
/-- The children of a demand are those of its class. -/
theorem mem_lowered (hentry : entry ∈ grouped.entries) (hlowered : LoweredTo index entry demand)
    (child : ExpansionId) :
    (child ∈ demand.dependentExpansions ↔
      children child ∧ index.byChild.get child = some ⟨entry.1, .dependent⟩) ∧
    (child ∈ demand.requiredExpansions ↔
      children child ∧ index.byChild.get child = some ⟨entry.1, .required⟩) := by
  have hat : groupAt grouped entry.1 = entry.2 := by
    rw [groupAt, SortedMap.get_eq_some.mpr hentry, Option.getD_some]
  rw [hlowered.2.1, hlowered.2.2, mem_ascending, mem_ascending, ← hgrouping.mem, ← hgrouping.mem,
    hat]
  exact ⟨Iff.rfl, Iff.rfl⟩

include hgrouping in
theorem has_lowered (hentry : entry ∈ grouped.entries) (hlowered : LoweredTo index entry demand)
    (hchild : children child) {role : MacroOutputDemandRole}
    (hget : index.byChild.get child = some ⟨entry.1, role⟩) : demand.Has child role := by
  obtain ⟨hdependent, hrequired⟩ := mem_lowered hgrouping hentry hlowered child
  rw [hget, Option.some.injEq, IndexedMacroOutputDemand.mk.injEq] at hdependent hrequired
  refine ⟨by simpa [hchild] using hdependent, by simpa [hchild] using hrequired, ?_⟩
  rw [hlowered.2.1, hlowered.2.2]
  exact ⟨nodup_ascending _, nodup_ascending _⟩

include hgrouping in
/-- No child is in two demands. -/
theorem pairwise_lowered {lowered : List MacroOutputDemand}
    (hlowered : List.Forall₂ (LoweredTo index) grouped.entries lowered) (child : ExpansionId) :
    lowered.Pairwise fun a b =>
      ¬((child ∈ a.dependentExpansions ∨ child ∈ a.requiredExpansions) ∧
        (child ∈ b.dependentExpansions ∨ child ∈ b.requiredExpansions)) := by
  have hclass : ∀ {i : Nat} {demand}, lowered[i]? = some demand →
      child ∈ demand.dependentExpansions ∨ child ∈ demand.requiredExpansions →
        ∃ entry, grouped.entries[i]? = some entry ∧
          ∃ found, index.byChild.get child = some found ∧ found.carrierClass = entry.1 := by
    intro i demand hi hchild
    obtain ⟨entry, hentry, hlowered⟩ := getElem?_of_forall₂_right hlowered hi
    obtain ⟨hdependent, hrequired⟩ :=
      mem_lowered hgrouping (mem_of_getElem? hentry) hlowered child
    rcases hchild with hchild | hchild
    · exact ⟨entry, hentry, _, (hdependent.mp hchild).2, rfl⟩
    · exact ⟨entry, hentry, _, (hrequired.mp hchild).2, rfl⟩
  rw [pairwise_iff_getElem]
  rintro i j hi hj hlt ⟨hchild, hchild'⟩
  obtain ⟨entry, hentry, found, hfound, hk⟩ := hclass (getElem?_eq_getElem hi) hchild
  obtain ⟨entry', hentry', found', hfound', hk'⟩ := hclass (getElem?_eq_getElem hj) hchild'
  cases hfound.symm.trans hfound'
  obtain ⟨hi', rfl⟩ := List.getElem?_eq_some_iff.mp hentry
  obtain ⟨hj', rfl⟩ := List.getElem?_eq_some_iff.mp hentry'
  have hsorted := pairwise_map.mp grouped.sorted
  have hne := pairwise_iff_getElem.mp hsorted i j hi' hj' hlt
  rw [← hk, ← hk'] at hne
  exact absurd hne (lt_irrefl _)

end Lowered

/-- Every child of the macro is in one demand, on the side of its role, and the demand has the
carriers around its range.  The demands of several lists of products are the parts of all demands,
which are merged class by class. -/
theorem macroOutputDemands_assigns {products : List ObservedProduct}
    {index : MacroOutputDemandIndex}
    (h : macroOutputDemands products rolesByOutput fallbackOwner = .ok index) :
    (∃ demands, index.allDemands = .ok demands ∧
      ∀ output child, ⟨output, .expansion child⟩ ∈ products →
        ∃ (i : Nat) (demand : MacroOutputDemand) (role : MacroOutputDemandRole),
          demands[i]? = some demand ∧ rolesByOutput.get output = some role ∧
          demand.Has child role ∧ IsCarriers products fallbackOwner output demand.carriers ∧
          ∀ (j : Nat) (other : MacroOutputDemand), demands[j]? = some other →
            child ∈ other.dependentExpansions ∨ child ∈ other.requiredExpansions → j = i) ∧
    ∀ classes : List (List GraphNode),
      (classes.flatMap childrenOf).Perm (childrenOf (products.map ObservedProduct.product)) →
      ∃ parts : List (SortedMap Nat DemandGroup),
        List.Forall₂ (fun nodes part => index.demandGroups (childrenOf nodes) = .ok part ∧
          index.demandsForProducts nodes = index.lowerGroups part ∧
          ∃ demands, index.demandsForProducts nodes = .ok demands) classes parts ∧
        index.allDemands = index.lowerGroups (mergeParts parts) := by
  have hindex := macroOutputDemands_indexOf h
  have hclasses : ∀ child demand, index.byChild.get child = some demand →
      demand.carrierClass < index.carrierClasses.length := fun _ _ => hindex.lt_length
  obtain ⟨grouped, hgrouped, hgrouping⟩ :=
    demandGroups_ok SortedMap.nodup_keys fun child hchild => hchild
  have hall : index.allDemands = index.lowerGroups grouped := by
    rw [allDemands, groupChildren, hgrouped]
    rfl
  constructor
  · obtain ⟨demands, hdemands, lowered, hperm, hlowered⟩ := lowerGroups_ok hgrouping hclasses
    refine ⟨demands, hall.trans hdemands, fun output child houtput => ?_⟩
    obtain ⟨found, carriers, hget, hrole, hcarriers, haround⟩ := hindex.child output child houtput
    have hchild : child ∈ index.byChild.keys := SortedMap.mem_keys.mpr ⟨found, hget⟩
    have hkey := (hgrouping.keys found.carrierClass).mpr ⟨child, hchild, found, hget, rfl⟩
    obtain ⟨entry, hentry, hclass⟩ := mem_map.mp hkey
    obtain ⟨p, hp⟩ := getElem?_of_mem hentry
    obtain ⟨demand, hdemand, hlower⟩ := getElem?_of_forall₂ hlowered hp
    obtain ⟨i, hi⟩ := getElem?_of_mem (hperm.mem_iff.mpr (mem_of_getElem? hdemand))
    have hhas : demand.Has child found.role :=
      has_lowered hgrouping hentry hlower hchild (by rw [hget, hclass])
    refine ⟨i, demand, found.role, hi, hrole, hhas, ?_, fun j other hj hother => ?_⟩
    · have hlower := hlower.1
      rw [hclass, hcarriers] at hlower
      cases hlower
      exact haround
    · have hsymm : ∀ {a b : MacroOutputDemand},
          ¬((child ∈ a.dependentExpansions ∨ child ∈ a.requiredExpansions) ∧
            (child ∈ b.dependentExpansions ∨ child ∈ b.requiredExpansions)) →
          ¬((child ∈ b.dependentExpansions ∨ child ∈ b.requiredExpansions) ∧
            (child ∈ a.dependentExpansions ∨ child ∈ a.requiredExpansions)) :=
        fun h hba => h hba.symm
      have hpairs := pairwise_iff_getElem.mp
        ((hperm.pairwise_iff hsymm).mpr (pairwise_lowered hgrouping hlowered child))
      have hmine : child ∈ demand.dependentExpansions ∨ child ∈ demand.requiredExpansions := by
        rw [hhas.dependent, hhas.required]
        cases found.role <;> simp
      obtain ⟨hi', rfl⟩ := List.getElem?_eq_some_iff.mp hi
      obtain ⟨hj', rfl⟩ := List.getElem?_eq_some_iff.mp hj
      rcases lt_trichotomy i j with hlt | heq | hlt
      · exact absurd ⟨hmine, hother⟩ (hpairs i j hi' hj' hlt)
      · exact heq.symm
      · exact absurd ⟨hother, hmine⟩ (hpairs j i hj' hi' hlt)
  · intro classes hpartition
    have hperm : (classes.flatMap childrenOf).Perm index.byChild.keys :=
      hpartition.trans hindex.keys.symm
    have hnodup := hperm.nodup_iff.mpr SortedMap.nodup_keys
    have hparts : ∀ nodes ∈ classes, ∃ part, index.demandGroups (childrenOf nodes) = .ok part ∧
        IsGrouping index (· ∈ childrenOf nodes) part := by
      intro nodes hnodes
      refine demandGroups_ok ((nodup_flatMap.mp hnodup).1 nodes hnodes) fun child hchild => ?_
      exact hperm.mem_iff.mp (mem_flatMap.mpr ⟨nodes, hnodes, hchild⟩)
    obtain ⟨parts, hparts⟩ := exists_forall₂ hparts
    refine ⟨parts, hparts.imp fun nodes part hpart => ?_, ?_⟩
    · have hlower : index.demandsForProducts nodes = index.lowerGroups part := by
        rw [demandsForProducts, groupChildren, hpart.1]
        rfl
      obtain ⟨demands, hdemands, -⟩ := lowerGroups_ok hpart.2 hclasses
      exact ⟨hpart.1, hlower, demands, hlower.trans hdemands⟩
    · have hmerged := isGrouping_mergeParts (forall₂_map_left_iff.mpr (hparts.imp fun _ _ h => h.2))
      have hsame : (fun child => child ∈ (classes.map childrenOf).flatten) =
          fun child => child ∈ index.byChild.keys := by
        funext child
        rw [← flatMap_def]
        exact propext hperm.mem_iff
      rw [hsame] at hmerged
      rw [hall, hgrouping.unique hmerged]

/-- The nearest definition around a child demands it. -/
theorem macroOutputDemands_assigns_nearest :
    ∃ index demands, macroOutputDemands
        [⟨⟨0, 10⟩, .definition ⟨1⟩⟩, ⟨⟨2, 8⟩, .definition ⟨2⟩⟩, ⟨⟨3, 4⟩, .expansion ⟨10⟩⟩,
          ⟨⟨8, 9⟩, .expansion ⟨11⟩⟩, ⟨⟨10, 11⟩, .expansion ⟨12⟩⟩]
        (((SortedMap.empty.insert ⟨3, 4⟩ .required).insert ⟨8, 9⟩ .dependent).insert ⟨10, 11⟩
          .required) (some ⟨0⟩) = .ok index ∧
      index.allDemands = .ok demands ∧
      ∃ (i : Nat) (demand : MacroOutputDemand), demands[i]? = some demand ∧
        demand.Has ⟨10⟩ .required := by
  let products : List ObservedProduct := [⟨⟨0, 10⟩, .definition ⟨1⟩⟩, ⟨⟨2, 8⟩, .definition ⟨2⟩⟩,
    ⟨⟨3, 4⟩, .expansion ⟨10⟩⟩, ⟨⟨8, 9⟩, .expansion ⟨11⟩⟩, ⟨⟨10, 11⟩, .expansion ⟨12⟩⟩]
  let roles : SortedMap MacroOutputRange MacroOutputDemandRole :=
    ((SortedMap.empty.insert ⟨3, 4⟩ .required).insert ⟨8, 9⟩ .dependent).insert ⟨10, 11⟩ .required
  have hok : (macroOutputDemands products roles (some ⟨0⟩)).isOk = true := by decide +kernel
  cases h : macroOutputDemands products roles (some ⟨0⟩) with
  | error => rw [h] at hok; cases hok
  | ok index =>
    obtain ⟨⟨demands, hdemands, hchildren⟩, -⟩ := macroOutputDemands_assigns h
    obtain ⟨i, demand, role, hi, hrole, hhas, -⟩ := hchildren ⟨3, 4⟩ ⟨10⟩ (by simp [products])
    cases hrole
    exact ⟨index, demands, rfl, hdemands, i, demand, hi, hhas⟩

/-- A child without tokens is given to the owner, also inside a definition. -/
theorem macroOutputDemands_empty_range :
    (macroOutputDemands [⟨⟨2, 8⟩, .definition ⟨2⟩⟩, ⟨⟨3, 3⟩, .expansion ⟨10⟩⟩]
        (SortedMap.empty.insert ⟨3, 3⟩ .required) (some ⟨0⟩) >>=
      MacroOutputDemandIndex.allDemands) = .ok [⟨[⟨0⟩], [], [⟨10⟩]⟩] ∧
    IsCarrierRange [⟨⟨2, 8⟩, .definition ⟨2⟩⟩, ⟨⟨3, 3⟩, .expansion ⟨10⟩⟩] ⟨3, 3⟩ ⟨2, 8⟩ := by
  refine ⟨rfl, ⟨⟨⟨2⟩, by simp⟩, rfl⟩, ?_⟩
  rintro other ⟨definition, hmem⟩ -
  simp only [mem_cons, ObservedProduct.mk.injEq, reduceCtorEq, and_false, not_mem_nil,
    or_false] at hmem
  rw [hmem.1]
  rfl

end Children

end ItemDependencies
