import ItemDependencies.Library.Fallible
import ItemDependencies.Library.LeastRepresentatives
import ItemDependencies.Library.SortedMap
import ItemDependencies.Source.Inventory

/-!
# The atomic groups of procedural macros

A procedural macro reads what it is applied to as one stream of tokens, so all
units inside are kept or deleted together.  Each anchor merges the groups of the
units that it contains and observes, and nothing else is merged.
-/

namespace ItemDependencies

open Library Relation List

inductive ProceduralMacroAnchorKind where
  | invocation
  | attributeTarget (targetRange : ByteRange)
  | deriveTarget
deriving DecidableEq

namespace ProceduralMacroAnchorKind

def rank : ProceduralMacroAnchorKind → Nat ×ₗ Nat ×ₗ Nat
  | invocation => toLex (0, toLex (0, 0))
  | attributeTarget range => toLex (1, toLex (range.start, range.stop))
  | deriveTarget => toLex (2, toLex (0, 0))

theorem rank_injective : Function.Injective rank := by
  intro a b h
  cases a <;> cases b <;> simp [rank, Prod.ext_iff] at h ⊢
  rename_i r r'
  cases r
  cases r'
  simpa using h

end ProceduralMacroAnchorKind

/-- A range that a procedural macro reads. -/
structure ProceduralMacroAnchor where
  range : ByteRange
  kind : ProceduralMacroAnchorKind
deriving DecidableEq

/-- Anchors are compared by their range, then by their kind. -/
instance : LinearOrder ProceduralMacroAnchor :=
  LinearOrder.lift' (fun anchor => toLex (anchor.range, anchor.kind.rank)) fun a b h => by
    cases a
    cases b
    simpa [ProceduralMacroAnchorKind.rank_injective.eq_iff] using h

def proceduralMacroObservesUnit (anchor : ProceduralMacroAnchor) (unit : WrittenUnit) : Bool :=
  if unit.kind = .noEffectCfgAttr then
    match anchor.kind with
    | .invocation => false
    | .attributeTarget targetRange => targetRange.contains unit.fullRange
    | .deriveTarget => true
  else true

/-- The current representative of each group. -/
abbrev Representatives := SortedMap AtomicGroupId AtomicGroupId

namespace AtomicGroups

def initialRepresentatives (units : List WrittenUnit) : Representatives :=
  units.foldl (fun representatives unit =>
    representatives.insert unit.atomicGroup unit.atomicGroup) .empty

/-- The groups of the units are the keys, so the lookup always finds something. -/
def representativeOf (representatives : Representatives) (group : AtomicGroupId) : AtomicGroupId :=
  (representatives.get group).getD group

/-- The units that an anchor contains and observes. -/
def observedUnits (units : List WrittenUnit) (anchor : ProceduralMacroAnchor) : List WrittenUnit :=
  units.filter fun unit =>
    anchor.range.contains unit.fullRange && proceduralMacroObservesUnit anchor unit

def mergeAnchor (units : List WrittenUnit) (representatives : Representatives)
    (anchor : ProceduralMacroAnchor) : Except SourceError Representatives :=
  if (units.find? fun unit => unit.fullRange = anchor.range).isNone then
    throw .incompleteProceduralMacroObservation
  else
    let components := ((observedUnits units anchor).map fun unit =>
      representativeOf representatives unit.atomicGroup).toFinset
    match (ascending components).head? with
    | none => throw .incompleteProceduralMacroObservation
    | some representative => return representatives.mapValues fun current =>
        if current ∈ components then representative else current

/-- Merge for one anchor after the other. -/
def mergeInOrder (inventory : SourceInventory) (anchors : List ProceduralMacroAnchor) :
    Except SourceError SourceInventory := do
  validateInventory inventory.original inventory.units inventory.pieces
  validateDeriveTargetFacts inventory.units inventory.deriveTargets
  validateMacroRuleFacts inventory.units inventory.macroRules
  validateOwnerlessAttributeInvocations inventory.units inventory.ownerlessAttributeInvocations
  let representatives ← anchors.foldlM (mergeAnchor inventory.units)
    (initialRepresentatives inventory.units)
  let units := inventory.units.map fun unit =>
    { unit with atomicGroup := representativeOf representatives unit.atomicGroup }
  validateOwnerlessAttributeInvocations units inventory.ownerlessAttributeInvocations
  return { inventory with units := units }

end AtomicGroups

def mergeProceduralMacroAtomicGroups (inventory : SourceInventory)
    (anchors : Finset ProceduralMacroAnchor) : Except SourceError SourceInventory :=
  AtomicGroups.mergeInOrder inventory (ascending anchors)

/-! ## Representatives -/

namespace AtomicGroups

variable {units : List WrittenUnit} {anchors : List ProceduralMacroAnchor}
  {anchor : ProceduralMacroAnchor} {representatives : Representatives}

/-- Two groups that one anchor has units of. -/
def Linked (units : List WrittenUnit) (anchors : List ProceduralMacroAnchor)
    (a b : AtomicGroupId) : Prop :=
  ∃ anchor ∈ anchors, (∃ unit ∈ observedUnits units anchor, unit.atomicGroup = a) ∧
    ∃ unit ∈ observedUnits units anchor, unit.atomicGroup = b

/-- What has been merged for some anchors. -/
structure Merged (units : List WrittenUnit) (anchors : List ProceduralMacroAnchor)
    (representatives : Representatives) : Prop where
  keys : ∀ group, group ∈ representatives.keys ↔ ∃ unit ∈ units, unit.atomicGroup = group
  values : ∀ group ∈ representatives.keys,
    representativeOf representatives group ∈ representatives.keys
  least : LeastRepresentative (Linked units anchors) (representativeOf representatives)

theorem representativeOf_of_notMem {group : AtomicGroupId} (h : group ∉ representatives.keys) :
    representativeOf representatives group = group := by
  rw [representativeOf]
  cases hget : representatives.get group with
  | none => rfl
  | some value => exact absurd (SortedMap.mem_keys.mpr ⟨value, hget⟩) h

theorem initialRepresentatives_spec (units : List WrittenUnit) (group : AtomicGroupId) :
    (group ∈ (initialRepresentatives units).keys ↔ ∃ unit ∈ units, unit.atomicGroup = group) ∧
      representativeOf (initialRepresentatives units) group = group := by
  induction units using List.reverseRecOn with
  | nil => exact ⟨by simp [initialRepresentatives, SortedMap.keys, SortedMap.empty], rfl⟩
  | append_singleton units unit ih =>
    have hinsert : initialRepresentatives (units ++ [unit]) =
        (initialRepresentatives units).insert unit.atomicGroup unit.atomicGroup := by
      simp [initialRepresentatives]
    rw [hinsert]
    refine ⟨?_, ?_⟩
    · rw [SortedMap.mem_keys_insert, ih.1]
      simp [or_and_right, exists_or, or_comm, eq_comm]
    · rw [representativeOf, SortedMap.get_insert]
      split
      · rename_i heq
        rw [heq]
        rfl
      · exact ih.2

theorem merged_initial : Merged units [] (initialRepresentatives units) where
  keys group := (initialRepresentatives_spec units group).1
  values group hgroup := by rwa [(initialRepresentatives_spec units group).2]
  least := by
    have hid : representativeOf (initialRepresentatives units) = id := by
      funext group
      exact (initialRepresentatives_spec units group).2
    rw [hid]
    apply LeastRepresentative.empty
    rintro a b ⟨anchor, hanchor, -⟩
    cases hanchor

/-- The groups that an anchor has units of. -/
def observedGroups (units : List WrittenUnit) (anchor : ProceduralMacroAnchor) :
    Finset AtomicGroupId :=
  ((observedUnits units anchor).map WrittenUnit.atomicGroup).toFinset

theorem linked_append_singleton {a b : AtomicGroupId} : Linked units (anchors ++ [anchor]) a b ↔
    Linked units anchors a b ∨
      a ∈ observedGroups units anchor ∧ b ∈ observedGroups units anchor := by
  simp [Linked, observedGroups, or_and_right, exists_or]

/-- An anchor is known if it is the range of a unit, and if it observes something. -/
def Known (units : List WrittenUnit) (anchor : ProceduralMacroAnchor) : Prop :=
  (units.find? fun unit => unit.fullRange = anchor.range).isSome ∧ observedUnits units anchor ≠ []

/-- The current representatives of the observed units. -/
theorem components_eq : ((observedUnits units anchor).map fun unit =>
    representativeOf representatives unit.atomicGroup).toFinset =
      (observedGroups units anchor).image (representativeOf representatives) := by
  ext group
  simp [observedGroups]

theorem known_of_mergeAnchor {next : Representatives}
    (h : mergeAnchor units representatives anchor = .ok next) : Known units anchor := by
  obtain ⟨hfound, h⟩ := guard_ok h
  refine ⟨by simpa using hfound, fun hnil => ?_⟩
  rw [hnil] at h
  cases h

theorem mergeAnchor_total (h : Known units anchor)
    (hmerged : Merged units anchors representatives) :
    ∃ next, mergeAnchor units representatives anchor = .ok next ∧
      Merged units (anchors ++ [anchor]) next := by
  obtain ⟨hfound, hne⟩ := h
  obtain ⟨unit, others, hunits⟩ := exists_cons_of_ne_nil hne
  set components := (observedGroups units anchor).image (representativeOf representatives)
    with hcomponents
  have hsome : unit.atomicGroup ∈ observedGroups units anchor := by
    simp [observedGroups, hunits]
  have hnonempty : components ≠ ∅ :=
    Finset.ne_empty_of_mem (Finset.mem_image_of_mem _ hsome)
  -- the components are representatives of groups that units have
  have hkeys : ∀ group ∈ components, group ∈ representatives.keys := by
    intro group hgroup
    obtain ⟨observed, hobserved, rfl⟩ := Finset.mem_image.mp hgroup
    apply hmerged.values
    obtain ⟨unit, hunit, rfl⟩ := mem_map.mp (mem_toFinset.mp hobserved)
    exact (hmerged.keys _).mpr ⟨unit, (mem_filter.mp hunit).1, rfl⟩
  cases hhead : (ascending components).head? with
  | none => exact absurd (head?_ascending_eq_none.mp hhead) hnonempty
  | some least =>
    obtain ⟨hmem, hleast⟩ := head?_ascending hhead
    set next := representatives.mapValues fun current =>
      if current ∈ components then least else current with hnext
    have hrep : representativeOf next = fun group =>
        if representativeOf representatives group ∈ components then least
        else representativeOf representatives group := by
      funext group
      by_cases hgroup : group ∈ representatives.keys
      · obtain ⟨value, hvalue⟩ := SortedMap.mem_keys.mp hgroup
        simp [representativeOf, hnext, SortedMap.get_mapValues, hvalue]
      · have hself := representativeOf_of_notMem hgroup
        have hgroup' : group ∉ next.keys := by rwa [hnext, SortedMap.keys_mapValues]
        rw [representativeOf_of_notMem hgroup', hself, if_neg fun h => hgroup (hkeys _ h)]
    refine ⟨next, ?_, ?_, ?_, ?_⟩
    · rw [mergeAnchor, if_neg (by simpa using hfound)]
      dsimp only
      rw [components_eq, ← hcomponents, hhead]
      rfl
    · intro group
      rw [hnext, SortedMap.keys_mapValues, hmerged.keys]
    · intro group hgroup
      rw [hnext, SortedMap.keys_mapValues] at hgroup
      rw [hrep, hnext, SortedMap.keys_mapValues]
      dsimp only
      split
      · exact hkeys least hmem
      · exact hmerged.values group hgroup
    · rw [hrep]
      exact (hmerged.least.merge hmem hleast).congr fun a b => linked_append_singleton.symm

/-! ## The whole merge -/

theorem foldlM_mergeAnchor_total (h : ∀ anchor ∈ anchors, Known units anchor) :
    ∃ representatives, anchors.foldlM (mergeAnchor units) (initialRepresentatives units) =
      .ok representatives ∧ Merged units anchors representatives := by
  apply foldlM_total
  · intro done anchor rest representatives hsplit hmerged
    exact mergeAnchor_total (h anchor (by simp [hsplit])) hmerged
  · exact merged_initial

theorem known_of_foldlM {start representatives : Representatives}
    (h : anchors.foldlM (mergeAnchor units) start = .ok representatives) :
    ∀ anchor ∈ anchors, Known units anchor := by
  induction anchors generalizing start with
  | nil => simp
  | cons anchor anchors ih =>
    rw [foldlM_cons] at h
    obtain ⟨next, hnext, h⟩ := bind_ok h
    exact forall_mem_cons.mpr ⟨known_of_mergeAnchor hnext, ih h⟩

theorem linked_congr {anchors' : List ProceduralMacroAnchor}
    (h : ∀ anchor, anchor ∈ anchors ↔ anchor ∈ anchors') (a b : AtomicGroupId) :
    Linked units anchors a b ↔ Linked units anchors' a b :=
  exists_congr fun anchor => and_congr_left fun _ => h anchor

end AtomicGroups

/-- Two units of a group, or two units that one anchor contains and observes. -/
def AtomicNeighbours (units : List WrittenUnit) (anchors : Finset ProceduralMacroAnchor)
    (u v : WrittenUnit) : Prop :=
  u ∈ units ∧ v ∈ units ∧ (u.atomicGroup = v.atomicGroup ∨ ∃ anchor ∈ anchors,
    (anchor.range.contains u.fullRange = true ∧ proceduralMacroObservesUnit anchor u = true) ∧
      anchor.range.contains v.fullRange = true ∧ proceduralMacroObservesUnit anchor v = true)

variable {order : List ProceduralMacroAnchor}

namespace AtomicGroups

variable {units : List WrittenUnit} {anchors : Finset ProceduralMacroAnchor}

theorem mem_observedUnits {anchor : ProceduralMacroAnchor} {unit : WrittenUnit} :
    unit ∈ observedUnits units anchor ↔ unit ∈ units ∧
      anchor.range.contains unit.fullRange = true ∧
        proceduralMacroObservesUnit anchor unit = true := by
  simp [observedUnits]

/-- A chain of groups is a chain of units. -/
theorem linked_chain_iff (horder : ∀ anchor, anchor ∈ order ↔ anchor ∈ anchors) {u v : WrittenUnit}
    (hu : u ∈ units) (hv : v ∈ units) :
    ReflTransGen (Linked units order) u.atomicGroup v.atomicGroup ↔
      ReflTransGen (AtomicNeighbours units anchors) u v := by
  constructor
  · intro hchain
    have key : ∀ group, ReflTransGen (Linked units order) u.atomicGroup group →
        ∀ w ∈ units, w.atomicGroup = group → ReflTransGen (AtomicNeighbours units anchors) u w := by
      intro group hchain
      induction hchain with
      | refl => exact fun w hw heq => .single ⟨hu, hw, .inl heq.symm⟩
      | tail _ hstep ih =>
        intro w hw heq
        obtain ⟨anchor, hanchor, ⟨x, hx, hgroup⟩, y, hy, rfl⟩ := hstep
        obtain ⟨hxmem, hxseen⟩ := mem_observedUnits.mp hx
        obtain ⟨hymem, hyseen⟩ := mem_observedUnits.mp hy
        have hxy : AtomicNeighbours units anchors x y :=
          ⟨hxmem, hymem, .inr ⟨anchor, (horder anchor).mp hanchor, hxseen, hyseen⟩⟩
        exact ((ih x hxmem hgroup).tail hxy).tail ⟨hymem, hw, .inl heq.symm⟩
    exact key _ hchain v hv rfl
  · intro hchain
    clear hv
    induction hchain with
    | refl => exact .refl
    | tail _ hstep ih =>
      obtain ⟨hw, hv, hsame | ⟨anchor, hanchor, hseen, hseen'⟩⟩ := hstep
      · rwa [← hsame]
      · exact ih.tail ⟨anchor, (horder anchor).mpr hanchor,
          ⟨_, mem_observedUnits.mpr ⟨hw, hseen⟩, rfl⟩, _, mem_observedUnits.mpr ⟨hv, hseen'⟩, rfl⟩

/-- Merging in one order merges in any other order, with the same representatives. -/
theorem mergeInOrder_eq {inventory result : SourceInventory}
    {order order' : List ProceduralMacroAnchor}
    (h : mergeInOrder inventory order = .ok result)
    (horder : ∀ anchor, anchor ∈ order ↔ anchor ∈ order') :
    mergeInOrder inventory order' = .ok result ∧
      ∃ representatives, Merged inventory.units order representatives ∧
        result = { inventory with units := inventory.units.map fun unit =>
          { unit with atomicGroup := representativeOf representatives unit.atomicGroup } } := by
  rw [mergeInOrder] at h
  obtain ⟨⟨⟩, hinventory, h⟩ := bind_ok h
  obtain ⟨⟨⟩, hderives, h⟩ := bind_ok h
  obtain ⟨⟨⟩, hmacros, h⟩ := bind_ok h
  obtain ⟨⟨⟩, hownerless, h⟩ := bind_ok h
  obtain ⟨found, hfound, h⟩ := bind_ok h
  have hknown := known_of_foldlM hfound
  obtain ⟨representatives, hrepresentatives, hmerged⟩ := foldlM_mergeAnchor_total hknown
  rw [hfound] at hrepresentatives
  cases hrepresentatives
  obtain ⟨representatives', hrepresentatives', hmerged'⟩ :=
    foldlM_mergeAnchor_total fun anchor hanchor => hknown anchor ((horder anchor).mpr hanchor)
  have hsame : representativeOf found = representativeOf representatives' :=
    hmerged.least.unique (hmerged'.least.congr (linked_congr fun anchor => (horder anchor).symm))
  have hresult := h
  obtain ⟨⟨⟩, -, hresult⟩ := bind_ok hresult
  cases hresult
  refine ⟨?_, found, hmerged, rfl⟩
  rw [mergeInOrder, hinventory, hderives, hmacros, hownerless, hrepresentatives']
  rw [hsame] at h
  rw [hsame]
  exact h

end AtomicGroups

/-- The merge is the finest one, whatever the order of the anchors. -/
theorem mergeProceduralMacroAtomicGroups_finest {inventory result : SourceInventory}
    {anchors : Finset ProceduralMacroAnchor}
    (h : mergeProceduralMacroAtomicGroups inventory anchors = .ok result) :
    (∃ groupOf : AtomicGroupId → AtomicGroupId,
      result = { inventory with units := inventory.units.map fun unit =>
        { unit with atomicGroup := groupOf unit.atomicGroup } } ∧
      ∀ u ∈ inventory.units, ∀ v ∈ inventory.units,
        groupOf u.atomicGroup = groupOf v.atomicGroup ↔
          ReflTransGen (AtomicNeighbours inventory.units anchors) u v) ∧
      ∀ order : List ProceduralMacroAnchor, order.toFinset = anchors →
        AtomicGroups.mergeInOrder inventory order = .ok result := by
  have hmem : ∀ anchor, anchor ∈ ascending anchors ↔ anchor ∈ anchors := fun _ => mem_ascending
  constructor
  · obtain ⟨-, representatives, hmerged, hresult⟩ :=
      AtomicGroups.mergeInOrder_eq h fun _ => Iff.rfl
    refine ⟨_, hresult, fun u hu v hv => ?_⟩
    rw [hmerged.least.same, AtomicGroups.linked_chain_iff hmem hu hv]
  · rintro order rfl
    apply (AtomicGroups.mergeInOrder_eq h fun anchor => ?_).1
    rw [hmem, mem_toFinset]

/-- An item with a nested item, and one beside it. -/
def nestedItems (nestedGroup : AtomicGroupId) : SourceInventory where
  original := ['a', 'b', 'c']
  units := [⟨⟨0⟩, .crateRoot, ⟨0, 3⟩, none, .active, ⟨0⟩, 0⟩,
    ⟨⟨1⟩, .item, ⟨0, 2⟩, some ⟨0⟩, .active, ⟨1⟩, 0⟩,
    ⟨⟨2⟩, .nestedItem, ⟨0, 1⟩, some ⟨1⟩, .active, nestedGroup, 0⟩,
    ⟨⟨3⟩, .item, ⟨2, 3⟩, some ⟨0⟩, .active, ⟨3⟩, 1⟩]
  pieces := [⟨⟨0, 1⟩, ⟨2⟩, .token⟩, ⟨⟨1, 2⟩, ⟨1⟩, .token⟩, ⟨⟨2, 3⟩, ⟨3⟩, .token⟩]
  deriveTargets := []
  macroRules := []
  macroTemplates := []
  macroCaptureSlots := []
  macroRepetitions := []
  ownerlessAttributeInvocations := []

/-- The macro that reads the outer item merges the nested one with it. -/
theorem mergeProceduralMacroAtomicGroups_nested :
    (∃ groupOf : AtomicGroupId → AtomicGroupId,
      ∀ u ∈ (nestedItems ⟨2⟩).units, ∀ v ∈ (nestedItems ⟨2⟩).units,
        groupOf u.atomicGroup = groupOf v.atomicGroup ↔
          ReflTransGen (AtomicNeighbours (nestedItems ⟨2⟩).units {⟨⟨0, 2⟩, .invocation⟩}) u v) ∧
      ∀ order : List ProceduralMacroAnchor, order.toFinset = {⟨⟨0, 2⟩, .invocation⟩} →
        AtomicGroups.mergeInOrder (nestedItems ⟨2⟩) order = .ok (nestedItems ⟨1⟩) := by
  have hmerge : mergeProceduralMacroAtomicGroups (nestedItems ⟨2⟩) {⟨⟨0, 2⟩, .invocation⟩} =
      .ok (nestedItems ⟨1⟩) := rfl
  obtain ⟨⟨groupOf, -, hgroups⟩, horder⟩ := mergeProceduralMacroAtomicGroups_finest hmerge
  exact ⟨⟨groupOf, hgroups⟩, horder⟩

/-! ## Merging in steps -/

namespace AtomicGroups

def regroup (groupOf : AtomicGroupId → AtomicGroupId) (units : List WrittenUnit) :
    List WrittenUnit :=
  units.map fun unit => { unit with atomicGroup := groupOf unit.atomicGroup }

section Regroup

variable {units : List WrittenUnit} {anchor : ProceduralMacroAnchor}
  {groupOf : AtomicGroupId → AtomicGroupId}

theorem observedUnits_regroup :
    observedUnits (regroup groupOf units) anchor = regroup groupOf (observedUnits units anchor) :=
  filter_map ..

theorem known_of_regroup (h : Known (regroup groupOf units) anchor) : Known units anchor := by
  obtain ⟨hfound, hne⟩ := h
  refine ⟨?_, fun hnil => hne ?_⟩
  · rw [regroup, find?_map, Option.isSome_map] at hfound
    exact hfound
  · rw [observedUnits_regroup, hnil]
    rfl

/-- Regrouped units are linked by the anchors that link the units. -/
theorem linked_regroup {anchors : List ProceduralMacroAnchor} {a b : AtomicGroupId} :
    Linked (regroup groupOf units) anchors a b ↔
      ∃ x y, Linked units anchors x y ∧ groupOf x = a ∧ groupOf y = b := by
  simp only [Linked, observedUnits_regroup]
  simp only [regroup, mem_map]
  constructor
  · rintro ⟨anchor, hanchor, ⟨_, ⟨u, hu, rfl⟩, rfl⟩, _, ⟨v, hv, rfl⟩, rfl⟩
    exact ⟨_, _, ⟨anchor, hanchor, ⟨u, hu, rfl⟩, v, hv, rfl⟩, rfl, rfl⟩
  · rintro ⟨_, _, ⟨anchor, hanchor, ⟨u, hu, rfl⟩, v, hv, rfl⟩, rfl, rfl⟩
    exact ⟨anchor, hanchor, ⟨_, ⟨u, hu, rfl⟩, rfl⟩, _, ⟨v, hv, rfl⟩, rfl⟩

end Regroup

theorem merged_of_foldlM {units : List WrittenUnit} {representatives : Representatives}
    (h : order.foldlM (mergeAnchor units) (initialRepresentatives units) = .ok representatives) :
    Merged units order representatives := by
  obtain ⟨_, hfound, hmerged⟩ := foldlM_mergeAnchor_total (known_of_foldlM h)
  rw [h] at hfound
  cases hfound
  exact hmerged

/-- What is checked before the merge, whatever the anchors are. -/
def checks (inventory : SourceInventory) : Except SourceError Unit := do
  validateInventory inventory.original inventory.units inventory.pieces
  validateDeriveTargetFacts inventory.units inventory.deriveTargets
  validateMacroRuleFacts inventory.units inventory.macroRules
  validateOwnerlessAttributeInvocations inventory.units inventory.ownerlessAttributeInvocations

theorem mergeInOrder_ok_iff {inventory result : SourceInventory} :
    mergeInOrder inventory order = .ok result ↔
      checks inventory = .ok () ∧ ∃ representatives,
        order.foldlM (mergeAnchor inventory.units) (initialRepresentatives inventory.units) =
          .ok representatives ∧
        validateOwnerlessAttributeInvocations
          (regroup (representativeOf representatives) inventory.units)
          inventory.ownerlessAttributeInvocations = .ok () ∧
        result = { inventory with
          units := regroup (representativeOf representatives) inventory.units } := by
  have hsplit : mergeInOrder inventory order = (do
      checks inventory
      let representatives ← order.foldlM (mergeAnchor inventory.units)
        (initialRepresentatives inventory.units)
      let units := regroup (representativeOf representatives) inventory.units
      validateOwnerlessAttributeInvocations units inventory.ownerlessAttributeInvocations
      return { inventory with units := units }) := by
    simp only [mergeInOrder, checks, bind_assoc]
    rfl
  rw [hsplit]
  constructor
  · intro h
    obtain ⟨⟨⟩, hchecks, h⟩ := bind_ok h
    obtain ⟨representatives, hfound, h⟩ := bind_ok h
    obtain ⟨⟨⟩, hlast, h⟩ := bind_ok h
    cases h
    exact ⟨hchecks, representatives, hfound, hlast, rfl⟩
  · rintro ⟨hchecks, representatives, hfound, hlast, rfl⟩
    rw [hchecks, hfound]
    dsimp only [bind, Except.bind]
    rw [hlast]
    rfl

end AtomicGroups

open AtomicGroups

/-- Merging for some anchors and then for more is merging for all of them at once. -/
theorem mergeProceduralMacroAtomicGroups_union {inventory first result : SourceInventory}
    {anchors anchors' : Finset ProceduralMacroAnchor}
    (h : mergeProceduralMacroAtomicGroups inventory anchors = .ok first)
    (h' : mergeProceduralMacroAtomicGroups first anchors' = .ok result) :
    mergeProceduralMacroAtomicGroups inventory (anchors ∪ anchors') = .ok result := by
  obtain ⟨hvalid, representatives, hfound, -, rfl⟩ := mergeInOrder_ok_iff.mp h
  obtain ⟨-, representatives', hfound', hlast, hresult⟩ := mergeInOrder_ok_iff.mp h'
  have hknown : ∀ anchor ∈ ascending (anchors ∪ anchors'), Known inventory.units anchor := by
    intro anchor hanchor
    rcases Finset.mem_union.mp (mem_ascending.mp hanchor) with hanchor | hanchor
    · exact known_of_foldlM hfound anchor (mem_ascending.mpr hanchor)
    · exact known_of_regroup (known_of_foldlM hfound' anchor (mem_ascending.mpr hanchor))
  obtain ⟨all, hall, hmerged⟩ := foldlM_mergeAnchor_total hknown
  -- the two steps together give the representatives of all anchors
  have hsteps := (merged_of_foldlM hfound).least.comp (merged_of_foldlM hfound').least
    fun a b => linked_regroup
  have hsame := hmerged.least.unique (hsteps.congr fun a b => by
    simp only [Linked, mem_ascending, Finset.mem_union, or_and_right, exists_or])
  have hunits : regroup (representativeOf all) inventory.units = regroup
      (representativeOf representatives')
        (regroup (representativeOf representatives) inventory.units) := by
    simp only [hsame, regroup, List.map_map]
    rfl
  refine mergeInOrder_ok_iff.mpr ⟨hvalid, all, hall, ?_, ?_⟩
  · rw [hunits]
    exact hlast
  · rw [hunits, hresult]

/-- The nested item is merged with the outer one, and then all with the crate. -/
theorem mergeProceduralMacroAtomicGroups_union_nested :
    mergeProceduralMacroAtomicGroups (nestedItems ⟨2⟩)
      ({⟨⟨0, 2⟩, .invocation⟩} ∪ {⟨⟨0, 3⟩, .attributeTarget ⟨0, 3⟩⟩}) =
        .ok { nestedItems ⟨2⟩ with
          units := (nestedItems ⟨2⟩).units.map fun unit => { unit with atomicGroup := ⟨0⟩ } } := by
  have hfirst : mergeProceduralMacroAtomicGroups (nestedItems ⟨2⟩) {⟨⟨0, 2⟩, .invocation⟩} =
      .ok (nestedItems ⟨1⟩) := rfl
  exact mergeProceduralMacroAtomicGroups_union hfirst rfl

end ItemDependencies
