import ItemDependencies.Expansion.IntervalStartIndex
import ItemDependencies.Library.Preorder

/-!
# The units around a range

Some units below a root are indexed for the question which of them are around a
range of the source.  Template components are looked up in a flat index of all
units, matcher elements by a descent through the children.
-/

namespace ItemDependencies

open Library List

structure IndexedSourceUnit where
  unit : SourceUnitId
  range : ByteRange
deriving DecidableEq

/-- Siblings are sorted by their range. -/
def IndexedSourceUnit.siblingKey (entry : IndexedSourceUnit) : Nat ×ₗ Nat ×ₗ SourceUnitId :=
  toLex (entry.range.start, toLex (entry.range.stop, entry.unit))

def IndexedSourceUnit.interval (entry : IndexedSourceUnit) : IndexedInterval SourceUnitId :=
  ⟨entry.range.start, entry.range.stop, entry.unit⟩

/-- The unit of an inventory that has the number. -/
def SourceInventory.unitOf (source : SourceInventory) (id : SourceUnitId) : Option WrittenUnit :=
  source.units[id.index]?.filter fun unit => unit.id = id

structure SourceUnitIntervalIndex where
  root : SourceUnitId
  children : SortedMap SourceUnitId (List IndexedSourceUnit)
  flat : IntervalStartIndex SourceUnitId

/-- The only child that overlaps a range has to contain it, or else the smallest of the last two
children that start before the range is taken. -/
def containingChild (children : List IndexedSourceUnit) (range : ByteRange)
    (rejectPartialOverlap : Bool) : Except ExpansionError (Option IndexedSourceUnit) :=
  if rejectPartialOverlap && !range.isEmpty then
    match children[(children.takeWhile fun child =>
        child.range.stop ≤ range.start).length]?.filter fun child =>
          child.range.start < range.stop with
    | none => return none
    | some child =>
      if !child.range.contains range then throw .incompleteOrigin
      else return some child
  else
    let afterStart := (children.takeWhile fun child => child.range.start ≤ range.start).length
    let candidates := [1, 2].filterMap fun back =>
      if back ≤ afterStart then
        children[afterStart - back]?.filter fun child => child.range.contains range
      else none
    match candidates.insertionSort fun a b =>
        toLex (a.range.len, a.unit) ≤ toLex (b.range.len, b.unit) with
    | [] => return none
    | [child] => return some child
    | first :: second :: _ =>
      if first.range.len ≠ second.range.len then return some first else throw .incompleteOrigin

namespace SourceUnitIntervalIndex

section

variable (source : SourceInventory) (root : SourceUnitId) (units : List SourceUnitId)

/-- Enter a unit as a child of its parent. -/
def addUnit (children : SortedMap SourceUnitId (List IndexedSourceUnit)) (id : SourceUnitId) :
    Except ExpansionError (SortedMap SourceUnitId (List IndexedSourceUnit)) :=
  match source.unitOf id with
  | none => throw .incompleteOrigin
  | some unit =>
    match unit.parent with
    | none => throw .incompleteOrigin
    | some parent =>
      if parent ≠ root ∧ parent ∉ units then throw .incompleteOrigin
      else
        let siblings := (children.get parent).getD []
        return children.insert parent (siblings ++ [⟨id, unit.fullRange⟩])

def sortSiblings (siblings : List IndexedSourceUnit) : List IndexedSourceUnit :=
  siblings.insertionSort fun a b => a.siblingKey ≤ b.siblingKey

/-- Siblings do not overlap, and lie in their parent. -/
def checkSiblings (entry : SourceUnitId × List IndexedSourceUnit) : Except ExpansionError Unit :=
  if ¬entry.2.IsChain fun a b => a.range.stop ≤ b.range.start then throw .incompleteOrigin
  else
    match source.unitOf entry.1 with
    | none => throw .incompleteOrigin
    | some parent =>
      if entry.2.any fun child => !parent.fullRange.contains child.range then
        throw .incompleteOrigin
      else return ⟨⟩

/-- The children of a node. -/
def kidsOf (children : SortedMap SourceUnitId (List IndexedSourceUnit)) (id : SourceUnitId) :
    List IndexedSourceUnit := (children.get id).getD []

/-- The units in preorder.  A walk that takes more nodes than there are units is refused: the
source compares the numbers after the walk. -/
def ordered (children : SortedMap SourceUnitId (List IndexedSourceUnit)) :
    Except ExpansionError (List IndexedSourceUnit) :=
  match preorder (fun entry => kidsOf children entry.unit) units.length (kidsOf children root) with
  | none => throw .incompleteOrigin
  | some found => if found.length ≠ units.length then throw .incompleteOrigin else return found

def new : Except ExpansionError SourceUnitIntervalIndex := do
  if ¬units.Nodup ∨ source.unitOf root = none then throw .incompleteOrigin
  else
    let added ← units.foldlM (addUnit source root units) .empty
    let children := added.mapValues sortSiblings
    children.entries.forM (checkSiblings source)
    let found ← ordered root units children
    let flat ← IntervalStartIndex.fromStartOrdered (found.map IndexedSourceUnit.interval)
    return ⟨root, children, flat⟩

end

section

variable (index : SourceUnitIntervalIndex)

/-- From a unit down to the first child whose range is the given one. -/
def descend (range : ByteRange) (rejectPartialOverlap : Bool) :
    Nat → SourceUnitId → List SourceUnitId → Except ExpansionError (List SourceUnitId)
  | 0, _, _ => throw .incompleteOrigin
  | fuel + 1, parent, result =>
    match index.children.get parent with
    | none => return result
    | some children =>
      match containingChild children range rejectPartialOverlap with
      | .error error => throw error
      | .ok none => return result
      | .ok (some child) =>
        if child.range = range then return result ++ [child.unit]
        else descend range rejectPartialOverlap fuel child.unit (result ++ [child.unit])

def containers (range : ByteRange) (rejectPartialOverlap : Bool) :
    Except ExpansionError (List SourceUnitId) :=
  index.descend range rejectPartialOverlap (index.flat.intervals.length + 1) index.root []

/-- An exact range is found at its first interval, any other one at the last interval around. -/
def innermostContainer (range : ByteRange) : Except ExpansionError (Option SourceUnitId) :=
  if range.stop < range.start then throw .incompleteOrigin
  else
    let exact := (index.flat.intervals.takeWhile fun interval =>
      interval.start < range.start ∨
        interval.start = range.start ∧ range.stop < interval.stop).length
    match index.flat.intervals[exact]?.filter fun interval =>
        interval.start = range.start ∧ interval.stop = range.stop with
    | some interval => return some interval.value
    | none => return (index.flat.rightmostWithEndAtLeast 0
        (index.flat.upperBoundStart range.start) range.stop).bind fun found =>
          index.flat.intervals[found]?.map IndexedInterval.value

end

end SourceUnitIntervalIndex

/-! ## What is indexed -/

/-- The range of a unit, empty for one that the inventory does not have. -/
def SourceInventory.unitRange (source : SourceInventory) (id : SourceUnitId) : ByteRange :=
  ((source.unitOf id).map WrittenUnit.fullRange).getD ⟨0, 0⟩

/-- The first node is the parent of the second, which is one of the units. -/
def ListedParent (source : SourceInventory) (units : List SourceUnitId) (parent id : SourceUnitId) :
    Prop := id ∈ units ∧ (source.unitOf id).bind WrittenUnit.parent = some parent

namespace SourceUnitIntervalIndex

/-- The numbers of the children of a node. -/
def childIds (children : SortedMap SourceUnitId (List IndexedSourceUnit)) (id : SourceUnitId) :
    List SourceUnitId := (kidsOf children id).map IndexedSourceUnit.unit

/-- The index holds the units in preorder, each after its parent and in its range. -/
structure Indexes (source : SourceInventory) (root : SourceUnitId) (units : List SourceUnitId)
    (index : SourceUnitIntervalIndex) : Prop where
  root_eq : index.root = root
  mem_kids : ∀ p e, e ∈ kidsOf index.children p ↔
    ListedParent source units p e.unit ∧ e.range = source.unitRange e.unit
  intervals : ∀ interval ∈ index.flat.intervals,
    interval.start = (source.unitRange interval.value).start ∧
      interval.stop = (source.unitRange interval.value).stop
  tree : Traversal (childIds index.children) (childIds index.children root)
    (index.flat.intervals.map IndexedInterval.value)
  nests : ∀ id ∈ index.flat.intervals.map IndexedInterval.value, Nests (childIds index.children)
    (fun id => (source.unitRange id).start) (fun id => (source.unitRange id).stop) id
  level : (childIds index.children root).Pairwise fun a b =>
    (source.unitRange a).stop ≤ (source.unitRange b).start
  mem : ∀ id, id ∈ index.flat.intervals.map IndexedInterval.value ↔ id ∈ units

section New

variable {source : SourceInventory} {root : SourceUnitId} {units : List SourceUnitId}
  {children : SortedMap SourceUnitId (List IndexedSourceUnit)}

theorem addUnit_ok {done : List SourceUnitId} {id : SourceUnitId}
    {children' : SortedMap SourceUnitId (List IndexedSourceUnit)}
    (h : ∀ p e, e ∈ kidsOf children p ↔
      ListedParent source done p e.unit ∧ e.range = source.unitRange e.unit)
    (hok : addUnit source root units children id = .ok children') (p : SourceUnitId)
    (e : IndexedSourceUnit) : e ∈ kidsOf children' p ↔
      ListedParent source (done ++ [id]) p e.unit ∧ e.range = source.unitRange e.unit := by
  unfold addUnit at hok
  cases hunit : source.unitOf id with
  | none => rw [hunit] at hok; cases hok
  | some unit =>
    rw [hunit] at hok
    dsimp only at hok
    cases hparent : unit.parent with
    | none => rw [hparent] at hok; cases hok
    | some parent =>
      rw [hparent] at hok
      obtain ⟨-, hok⟩ := guard_ok hok
      cases hok
      have hrange : source.unitRange id = unit.fullRange := by
        rw [SourceInventory.unitRange, hunit, Option.map_some, Option.getD_some]
      have hup : (source.unitOf id).bind WrittenUnit.parent = some parent := by
        rw [hunit, Option.bind_some, hparent]
      -- the unit is a child of its parent only
      have hnew : ListedParent source (done ++ [id]) p e.unit ↔
          ListedParent source done p e.unit ∨ e.unit = id ∧ parent = p := by
        unfold ListedParent
        rw [mem_append, mem_singleton, or_and_right]
        refine or_congr_right (and_congr_right fun he => ?_)
        rw [he, hup, Option.some.injEq]
      have hkids : e ∈ kidsOf (children.insert parent (kidsOf children parent ++
          [⟨id, unit.fullRange⟩])) p ↔
            e ∈ kidsOf children p ∨ parent = p ∧ e = ⟨id, unit.fullRange⟩ := by
        rw [kidsOf, SortedMap.get_insert]
        split
        case isTrue hp =>
          subst hp
          simp
        case isFalse hp => simp [kidsOf, Ne.symm hp]
      refine hkids.trans ?_
      rw [hnew, h, or_and_right]
      refine or_congr_right ?_
      constructor
      · rintro ⟨rfl, rfl⟩
        exact ⟨⟨rfl, rfl⟩, hrange.symm⟩
      · rintro ⟨⟨hid, hp⟩, he⟩
        refine ⟨hp, ?_⟩
        cases e
        cases hid
        rw [hrange] at he
        cases he
        rfl

theorem mem_kidsOf_sorted {p : SourceUnitId} {e : IndexedSourceUnit} :
    e ∈ kidsOf (children.mapValues sortSiblings) p ↔ e ∈ kidsOf children p := by
  unfold kidsOf
  rw [SortedMap.get_mapValues]
  cases children.get p with
  | none => rfl
  | some siblings => exact mem_insertionSort _

theorem checkSiblings_ok {p : SourceUnitId} {siblings : List IndexedSourceUnit}
    (h : checkSiblings source (p, siblings) = .ok ⟨⟩) :
    siblings.IsChain (fun a b => a.range.stop ≤ b.range.start) ∧
      ∀ child ∈ siblings, (source.unitRange p).contains child.range = true := by
  unfold checkSiblings at h
  obtain ⟨hchain, h⟩ := guard_ok h
  refine ⟨not_not.mp hchain, fun child hchild => ?_⟩
  cases hparent : source.unitOf p with
  | none => rw [hparent] at h; cases h
  | some parent =>
    rw [hparent] at h
    obtain ⟨hall, -⟩ := guard_ok h
    rw [SourceInventory.unitRange, hparent, Option.map_some, Option.getD_some]
    by_contra hno
    exact hall (any_eq_true.mpr ⟨child, hchild, by simpa using hno⟩)

theorem new_indexes {index : SourceUnitIntervalIndex} (h : new source root units = .ok index) :
    Indexes source root units index := by
  unfold new at h
  obtain ⟨hguard, h⟩ := guard_ok h
  rw [not_or, not_not] at hguard
  obtain ⟨added, hadded, h⟩ := bind_ok h
  obtain ⟨⟨⟩, hchecked, h⟩ := bind_ok h
  obtain ⟨found, hfound, h⟩ := bind_ok h
  obtain ⟨flat, hflat, h⟩ := bind_ok h
  cases h
  set children := added.mapValues sortSiblings with hchildren
  -- the children of a node
  have hmem : ∀ p e, e ∈ kidsOf children p ↔
      ListedParent source units p e.unit ∧ e.range = source.unitRange e.unit := by
    intro p e
    rw [hchildren, mem_kidsOf_sorted]
    refine foldlM_ok (P := fun done children => ∀ p e, e ∈ kidsOf children p ↔
      ListedParent source done p e.unit ∧ e.range = source.unitRange e.unit)
      (fun done id s t h hok => addUnit_ok h hok) ?_ hadded p e
    simp [kidsOf, ListedParent]
  have hcheck : ∀ p, (kidsOf children p).IsChain (fun a b => a.range.stop ≤ b.range.start) ∧
      ∀ child ∈ kidsOf children p, (source.unitRange p).contains child.range = true := by
    intro p
    unfold kidsOf
    cases hget : children.get p with
    | none => exact ⟨.nil, by simp⟩
    | some siblings =>
      exact checkSiblings_ok (forM_ok.mp hchecked _ (SortedMap.get_eq_some.mp hget))
  -- the nodes in preorder
  unfold ordered at hfound
  cases hwalk : preorder (fun entry => kidsOf children entry.unit) units.length
      (kidsOf children root) with
  | none => rw [hwalk] at hfound; cases hfound
  | some walked =>
    rw [hwalk] at hfound
    obtain ⟨hlength, hok⟩ := guard_ok hfound
    cases hok
    have hpre := preorder_ok hwalk
    obtain ⟨hintervals, -, hne⟩ := IntervalStartIndex.fromStartOrdered_ok hflat
    have hvalues : flat.intervals.map IndexedInterval.value = found.map IndexedSourceUnit.unit := by
      rw [hintervals, map_map]
      rfl
    have hparent : ∀ e ∈ found, ∃ p, e ∈ kidsOf children p := by
      intro e he
      obtain ⟨top, htop, habove⟩ := hpre.mem_iff.mp he
      rcases Relation.ReflTransGen.cases_tail habove with rfl | ⟨above, -, hchild⟩
      · exact ⟨root, htop⟩
      · exact ⟨above.unit, hchild⟩
    have hrange : ∀ e ∈ found, e.range = source.unitRange e.unit := fun e he => by
      obtain ⟨p, hp⟩ := hparent e he
      exact ((hmem p e).mp hp).2
    have hnonempty : ∀ e ∈ found, e.range.start < e.range.stop := fun e he =>
      hne _ (mem_map_of_mem he)
    have hsiblings : ∀ p, (∀ e ∈ kidsOf children p, e ∈ found) →
        (childIds children p).Pairwise fun a b =>
          (source.unitRange a).stop ≤ (source.unitRange b).start := by
      intro p hsub
      have hpairwise := (isChain_iff_pairwise_apart
        (fun e he => hnonempty e (hsub e he))).mp (hcheck p).1
      refine pairwise_map.mpr (hpairwise.imp_of_mem fun {a b} ha hb hab => ?_)
      rwa [← hrange a (hsub a ha), ← hrange b (hsub b hb)]
    have hkids :
        ∀ e ∈ found, ∀ child ∈ kidsOf children e.unit, child ∈ found := fun e he child hc =>
      hpre.mem_iff.mpr (inTrees_of_child (hpre.mem_iff.mp he) hc)
    have hnests : ∀ id ∈ found.map IndexedSourceUnit.unit, Nests (childIds children)
        (fun id => (source.unitRange id).start) (fun id => (source.unitRange id).stop) id := by
      intro id hid
      obtain ⟨e, he, rfl⟩ := mem_map.mp hid
      refine ⟨?_, hsiblings _ (hkids e he), fun id hid => ?_⟩
      · rw [← hrange e he]
        exact hnonempty e he
      · obtain ⟨child, hchild, rfl⟩ := mem_map.mp hid
        have hcontains := (hcheck e.unit).2 child hchild
        rw [hrange child (hkids e he child hchild)] at hcontains
        exact ByteRange.contains_iff.mp hcontains
    have htree : Traversal (childIds children) (childIds children root)
        (found.map IndexedSourceUnit.unit) := hpre.map fun _ => rfl
    have hlevel := hsiblings root hpre.subset
    have hunits : (found.map IndexedSourceUnit.unit).Perm units := by
      refine (subperm_of_subset (htree.nodup hnests hlevel) fun id hid => ?_).perm_of_length_le
        (by rw [length_map]; exact (not_not.mp hlength).ge)
      obtain ⟨e, he, rfl⟩ := mem_map.mp hid
      obtain ⟨p, hp⟩ := hparent e he
      exact ((hmem p e).mp hp).1.1
    refine ⟨rfl, hmem, fun interval hinterval => ?_, ?_, ?_, hlevel, fun id => ?_⟩
    · rw [hintervals] at hinterval
      obtain ⟨e, he, rfl⟩ := mem_map.mp hinterval
      exact ⟨congrArg ByteRange.start (hrange e he), congrArg ByteRange.stop (hrange e he)⟩
    · rw [hvalues]
      exact htree
    · rw [hvalues]
      exact hnests
    · rw [hvalues]
      exact hunits.mem_iff

end New

end SourceUnitIntervalIndex

end ItemDependencies
