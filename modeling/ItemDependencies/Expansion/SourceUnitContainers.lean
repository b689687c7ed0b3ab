import ItemDependencies.Expansion.SourceUnitIntervals

/-!
# What the unit index answers

The flat index finds the outermost unit with the given range, or else the deepest one around it.
The descent finds the units around the range from the outside in.
-/

namespace ItemDependencies

open Library List Option

/-- The outermost unit whose range is the given one, or else the deepest around it, or else none. -/
inductive InnermostUnit (source : SourceInventory) (units : List SourceUnitId)
    (range : ByteRange) : Option SourceUnitId → Prop
  | exact {u : SourceUnitId} (hu : u ∈ units) (hrange : source.unitRange u = range)
      (houtermost : ∀ v ∈ units, source.unitRange v = range →
        Relation.ReflTransGen (ListedParent source units) u v) :
      InnermostUnit source units range (some u)
  | deepest {u : SourceUnitId} (hu : u ∈ units) (hno : ∀ v ∈ units, source.unitRange v ≠ range)
      (hcontains : (source.unitRange u).contains range = true)
      (hdeepest : ∀ v ∈ units, (source.unitRange v).contains range = true →
        Relation.ReflTransGen (ListedParent source units) v u) :
      InnermostUnit source units range (some u)
  | none (hno : ∀ v ∈ units, (source.unitRange v).contains range = false) :
      InnermostUnit source units range none

/-- The units around the range from the root on, up to the first whose range is the given one. -/
structure Descent (source : SourceInventory) (root : SourceUnitId) (units : List SourceUnitId)
    (range : ByteRange) (path : List SourceUnitId) : Prop where
  chain : (root :: path).IsChain (ListedParent source units)
  mem : ∀ u, u ∈ path ↔ u ∈ units ∧ (source.unitRange u).contains range = true ∧
    ∀ v ∈ units, Relation.TransGen (ListedParent source units) v u → source.unitRange v ≠ range

/-- The two ranges have a position in common, and the second does not lie in the first. -/
def PartlyOverlaps (unit range : ByteRange) : Prop :=
  (range.start < unit.stop ∧ unit.start < range.stop) ∧ unit.contains range = false

/-- The path does not end at the range itself, and the range partly overlaps a child of its last
unit, or of the root. -/
def OverlapsBelow (source : SourceInventory) (root : SourceUnitId) (units : List SourceUnitId)
    (range : ByteRange) (path : List SourceUnitId) : Prop :=
  (∀ u, path.getLast? = some u → source.unitRange u ≠ range) ∧
    ∃ child, ListedParent source units (path.getLast?.getD root) child ∧
      PartlyOverlaps (source.unitRange child) range

namespace SourceUnitIntervalIndex

variable {source : SourceInventory} {root : SourceUnitId} {units : List SourceUnitId}
  {index : SourceUnitIntervalIndex} {range : ByteRange}

theorem Indexes.child_eq (h : Indexes source root units index) :
    Child (childIds index.children) = ListedParent source units := by
  funext p u
  refine propext ⟨fun hchild => ?_, fun hparent => ?_⟩
  · obtain ⟨e, he, rfl⟩ := mem_map.mp hchild
    exact ((h.mem_kids p e).mp he).1
  · exact mem_map.mpr ⟨⟨u, source.unitRange u⟩, (h.mem_kids p _).mpr ⟨hparent, rfl⟩, rfl⟩

/-- Of two units around a range that is not empty, the later one is below the earlier one. -/
theorem Indexes.below (h : Indexes source root units index) (hne : range.start < range.stop) :
    (index.flat.intervals.map IndexedInterval.value).Pairwise fun u v =>
      (source.unitRange u).contains range = true → (source.unitRange v).contains range = true →
        Relation.ReflTransGen (ListedParent source units) u v := by
  refine (h.tree.pairwise h.nests h.level).imp fun {u v} huv hu hv => ?_
  rw [ByteRange.contains_iff] at hu hv
  rcases huv with hafter | hbelow
  · omega
  · rw [h.child_eq] at hbelow
    exact hbelow.to_reflTransGen

theorem Indexes.outerFirst (h : Indexes source root units index) :
    index.flat.intervals.Pairwise (OuterFirst IndexedInterval.start IndexedInterval.stop) := by
  refine (pairwise_map.mp (h.tree.outerFirst h.nests h.level)).imp_of_mem
    fun {a b} ha hb hab => ?_
  unfold OuterFirst at hab ⊢
  rwa [(h.intervals a ha).1, (h.intervals a ha).2, (h.intervals b hb).1, (h.intervals b hb).2]

/-- The first interval that is the range, if there is one, is at the partition point. -/
theorem exact_spec (range : ByteRange) {intervals : List (IndexedInterval SourceUnitId)}
    (houter : intervals.Pairwise (OuterFirst IndexedInterval.start IndexedInterval.stop)) :
    (∃ before interval rest, intervals = before ++ interval :: rest ∧
      interval.start = range.start ∧ interval.stop = range.stop ∧
      (∀ other ∈ before, ¬(other.start = range.start ∧ other.stop = range.stop)) ∧
      (intervals[(intervals.takeWhile fun interval => interval.start < range.start ∨
        interval.start = range.start ∧ range.stop < interval.stop).length]?.filter fun interval =>
          interval.start = range.start ∧ interval.stop = range.stop) = some interval) ∨
    (∀ other ∈ intervals, ¬(other.start = range.start ∧ other.stop = range.stop)) ∧
      (intervals[(intervals.takeWhile fun interval => interval.start < range.start ∨
        interval.start = range.start ∧ range.stop < interval.stop).length]?.filter fun interval =>
          interval.start = range.start ∧ interval.stop = range.stop) = none := by
  rcases at_partitionPoint (fun interval : IndexedInterval SourceUnitId =>
    interval.start < range.start ∨ interval.start = range.start ∧ range.stop < interval.stop)
    intervals with ⟨hnone, hall⟩ | ⟨before, interval, rest, hsplit, hget, hbefore, hinterval⟩
  · refine .inr ⟨fun other hother heq => ?_, by rw [hnone]; rfl⟩
    have := hall other hother
    rw [decide_eq_true_eq] at this
    omega
  · have hno : ∀ other ∈ before, ¬(other.start = range.start ∧ other.stop = range.stop) := by
      intro other hother heq
      have := hbefore other hother
      rw [decide_eq_true_eq] at this
      omega
    rw [hget]
    by_cases heq : interval.start = range.start ∧ interval.stop = range.stop
    · refine .inl ⟨before, interval, rest, hsplit, heq.1, heq.2, hno, ?_⟩
      rw [filter_some, if_pos (decide_eq_true heq)]
    · refine .inr ⟨fun other hother hother' => ?_, ?_⟩
      · -- a later interval is not longer than the one at the partition point
        rw [hsplit] at hother houter
        rcases mem_append.mp hother with hmem | hmem
        · exact hno other hmem hother'
        · rcases mem_cons.mp hmem with rfl | hmem
          · exact heq hother'
          · have hfirst := (pairwise_cons.mp (pairwise_append.mp houter).2.1).1 other hmem
            rw [decide_eq_false_iff_not] at hinterval
            unfold OuterFirst at hfirst
            omega
      · rw [filter_some, if_neg (by simpa using heq)]

theorem innermostContainer_spec (h : Indexes source root units index)
    (hne : range.start < range.stop) :
    ∃ found, index.innermostContainer range = .ok found ∧
      InnermostUnit source units range found := by
  have hmem : ∀ interval ∈ index.flat.intervals, interval.value ∈ units := fun interval hi =>
    (h.mem _).mp (mem_map_of_mem hi)
  have hposition : ∀ v ∈ units, ∃ interval ∈ index.flat.intervals, interval.value = v ∧
      interval.start = (source.unitRange v).start ∧ interval.stop = (source.unitRange v).stop := by
    intro v hv
    obtain ⟨interval, hinterval, rfl⟩ := mem_map.mp ((h.mem v).mpr hv)
    exact ⟨interval, hinterval, rfl, h.intervals interval hinterval⟩
  have hbelow := pairwise_map.mp (h.below hne)
  rw [innermostContainer, if_neg (not_lt.mpr hne.le)]
  rcases exact_spec range h.outerFirst with
    ⟨before, interval, rest, hsplit, hstart, hstop, hbefore, hfound⟩ | ⟨hno, hfound⟩
  · have hinterval : interval ∈ index.flat.intervals := by simp [hsplit]
    have hrange : source.unitRange interval.value = range := by
      obtain ⟨hstart', hstop'⟩ := h.intervals interval hinterval
      rw [hstart] at hstart'
      rw [hstop] at hstop'
      exact ByteRange.eq_of_bounds hstart'.symm hstop'.symm
    refine ⟨some interval.value, by dsimp only; rw [hfound]; rfl,
      .exact (hmem _ hinterval) hrange fun v hv hv' => ?_⟩
    obtain ⟨other, hother, rfl, hstart', hstop'⟩ := hposition v hv
    rw [hsplit] at hother hbelow
    rw [hv'] at hstart' hstop'
    rcases mem_append.mp hother with hmem | hmem
    · exact absurd ⟨hstart', hstop'⟩ (hbefore other hmem)
    · rcases mem_cons.mp hmem with rfl | hmem
      · exact .refl
      · have hlater := (pairwise_cons.mp (pairwise_append.mp hbelow).2.1).1 other hmem
        rw [hrange, hv', ByteRange.contains_iff] at hlater
        exact hlater ⟨le_rfl, le_rfl⟩ ⟨le_rfl, le_rfl⟩
  · have hno' : ∀ v ∈ units, source.unitRange v ≠ range := by
      rintro v hv rfl
      obtain ⟨other, hother, -, heq⟩ := hposition v hv
      exact hno other hother heq
    have hlast : IsLast (fun i => ∃ interval, index.flat.intervals[i]? = some interval ∧
        (source.unitRange interval.value).contains range = true)
        (index.flat.rightmostWithEndAtLeast 0 (index.flat.upperBoundStart range.start)
          range.stop) := by
      refine (IntervalStartIndex.rightmost_isLast range.stop).congr fun i => ?_
      refine exists_congr fun interval => and_congr_right fun hget => ?_
      obtain ⟨hstart, hstop⟩ := h.intervals interval (mem_of_getElem? hget)
      rw [ByteRange.contains_iff, hstart, hstop]
    dsimp only
    rw [hfound]
    cases hfind : index.flat.rightmostWithEndAtLeast 0
        (index.flat.upperBoundStart range.start) range.stop with
    | none =>
      refine ⟨none, rfl, .none fun v hv => Bool.eq_false_iff.mpr fun hcontains => ?_⟩
      obtain ⟨interval, hinterval, rfl, -⟩ := hposition v hv
      obtain ⟨i, hi⟩ := getElem?_of_mem hinterval
      exact hlast.eq_none_iff.mp hfind i ⟨interval, hi, hcontains⟩
    | some i =>
      obtain ⟨⟨interval, hi, hcontains⟩, hafter⟩ := hlast.eq_some_iff.mp hfind
      refine ⟨some interval.value, by dsimp only; rw [bind_some, hi]; rfl,
        .deepest (hmem _ (mem_of_getElem? hi)) hno' hcontains fun v hv hv' => ?_⟩
      obtain ⟨other, hother, rfl, -⟩ := hposition v hv
      obtain ⟨j, hj⟩ := getElem?_of_mem hother
      rcases lt_trichotomy j i with hlt | rfl | hlt
      · obtain ⟨hj', rfl⟩ := List.getElem?_eq_some_iff.mp hj
        obtain ⟨hi', rfl⟩ := List.getElem?_eq_some_iff.mp hi
        exact pairwise_iff_getElem.mp hbelow j i hj' hi' hlt hv' hcontains
      · cases hi.symm.trans hj
        exact .refl
      · exact absurd ⟨other, hj, hv'⟩ (hafter j hlt)

/-! ## The descent -/

/-- What a level of siblings has to say about a range. -/
inductive ChildAround (children : List IndexedSourceUnit) (range : ByteRange) :
    Except ExpansionError (Option IndexedSourceUnit) → Prop
  | apart (h : ∀ child ∈ children, child.range.stop ≤ range.start ∨
      range.stop ≤ child.range.start) : ChildAround children range (.ok none)
  | around {child : IndexedSourceUnit} (hmem : child ∈ children)
      (hcontains : child.range.contains range = true)
      (hother : ∀ other ∈ children, other ≠ child → other.range.stop ≤ range.start ∨
        range.stop ≤ other.range.start) : ChildAround children range (.ok (some child))
  | partly {child : IndexedSourceUnit} (hmem : child ∈ children)
      (hpartly : PartlyOverlaps child.range range)
      (hno : ∀ other ∈ children, other.range.contains range = false) :
      ChildAround children range (.error .incompleteOrigin)

theorem containingChild_spec {children : List IndexedSourceUnit}
    (hsiblings : children.Pairwise fun a b => a.range.stop ≤ b.range.start)
    (hnonempty : ∀ child ∈ children, child.range.start < child.range.stop)
    (hne : range.start < range.stop) :
    ChildAround children range (containingChild children range true) := by
  have hguard : (true && !range.isEmpty) = true := by simp [ByteRange.isEmpty, hne.ne]
  rw [containingChild, if_pos hguard]
  rcases at_partitionPoint (fun child : IndexedSourceUnit =>
    child.range.stop ≤ range.start) children with
    ⟨hnone, hall⟩ | ⟨before, child, rest, hsplit, hget, hbefore, hchild⟩
  · rw [hnone]
    exact .apart fun child hmem => .inl (of_decide_eq_true (hall child hmem))
  · have hstop := of_decide_eq_false hchild
    have hmem : child ∈ children := by simp [hsplit]
    have hsorted := hsiblings
    rw [hsplit] at hsorted
    obtain ⟨-, hlater, -⟩ := pairwise_append.mp hsorted
    have hafter := (pairwise_cons.mp hlater).1
    -- those before stop before the range, and those after start after the child
    have hcases : ∀ other ∈ children, other.range.stop ≤ range.start ∨ other = child ∨
        child.range.stop ≤ other.range.start := by
      intro other hother
      rw [hsplit] at hother
      rcases mem_append.mp hother with hother | hother
      · exact .inl (of_decide_eq_true (hbefore other hother))
      · rcases mem_cons.mp hother with rfl | hother
        · exact .inr (.inl rfl)
        · exact .inr (.inr (hafter other hother))
    rw [hget]
    by_cases hoverlap : child.range.start < range.stop
    · rw [filter_some, if_pos (decide_eq_true hoverlap)]
      dsimp only
      cases hcontains : child.range.contains range with
      | true =>
        refine .around hmem hcontains fun other hother hne' => ?_
        have hle := ByteRange.contains_iff.mp hcontains
        rcases hcases other hother with h | h | h
        · exact .inl h
        · exact absurd h hne'
        · exact .inr (hle.2.trans h)
      | false =>
        refine .partly hmem ⟨⟨not_le.mp hstop, hoverlap⟩, hcontains⟩ fun other hother => ?_
        refine Bool.eq_false_iff.mpr fun hother' => ?_
        have hle := ByteRange.contains_iff.mp hother'
        rcases hcases other hother with h | rfl | h
        · omega
        · rw [hcontains] at hother'
          cases hother'
        · omega
    · rw [filter_some, if_neg (by simpa using hoverlap)]
      refine .apart fun other hother => ?_
      rcases hcases other hother with h | rfl | h
      · exact .inl h
      · exact .inr (not_lt.mp hoverlap)
      · have := hnonempty child hmem
        exact .inr (by omega)

theorem overlapsBelow_cons {p u : SourceUnitId} {path : List SourceUnitId}
    (hu : source.unitRange u ≠ range) :
    OverlapsBelow source p units range (u :: path) ↔ OverlapsBelow source u units range path := by
  unfold OverlapsBelow
  cases path with
  | nil => simp [hu]
  | cons v path =>
    rw [getLast?_cons_cons, getLast?_cons, getD_some, getD_some]

/-- The descent from a node finds the path below it.  A node has more units below it than each of
its children has, so that the fuel is enough. -/
theorem descend_spec (h : Indexes source root units index) (hne : range.start < range.stop)
    (fuel : Nat) (p : SourceUnitId) (below result : List SourceUnitId)
    (htree : Traversal (childIds index.children) (childIds index.children p) below)
    (hsub : below ⊆ index.flat.intervals.map IndexedInterval.value)
    (hlevel : (childIds index.children p).Pairwise fun a b =>
      (source.unitRange a).stop ≤ (source.unitRange b).start)
    (hfuel : below.length < fuel) :
    ∃ path, Path (childIds index.children) (childIds index.children p)
        (fun u => (source.unitRange u).contains range = true) (fun u => source.unitRange u = range)
        path ∧
      (index.descend range true fuel p result = .error .incompleteOrigin ∧
          OverlapsBelow source p units range path ∨
        index.descend range true fuel p result = .ok (result ++ path) ∧
          ¬OverlapsBelow source p units range path) := by
  induction fuel generalizing p below result with
  | zero => omega
  | succ fuel ih =>
    have hparent : ∀ u,
        ListedParent source units p u ↔ ∃ e ∈ kidsOf index.children p, e.unit = u := by
      intro u
      rw [← h.child_eq]
      exact mem_map
    have hrange : ∀ e ∈ kidsOf index.children p, e.range = source.unitRange e.unit := fun e he =>
      ((h.mem_kids p e).mp he).2
    have hnests : ∀ u ∈ below, Nests (childIds index.children)
        (fun id => (source.unitRange id).start) (fun id => (source.unitRange id).stop) u :=
          fun u hu =>
      h.nests u (hsub hu)
    have hmem : ∀ e ∈ kidsOf index.children p, e.unit ∈ below := fun e he =>
      htree.subset (mem_map_of_mem he)
    -- a child is around what a unit below it is around
    have houter : ∀ e ∈ kidsOf index.children p, ∀ x,
        Relation.ReflTransGen (Child (childIds index.children)) e.unit x →
          (source.unitRange x).contains range = true → e.range.contains range = true := by
      intro e he x hx hcontains
      rw [hrange e he]
      exact ByteRange.contains_trans (ByteRange.contains_iff.mpr
        (htree.encloses _ _ hnests (hmem e he) hx)) hcontains
    have hempty : (∀ e ∈ kidsOf index.children p, e.range.contains range = false) →
        Path (childIds index.children) (childIds index.children p)
          (fun u => (source.unitRange u).contains range = true)
          (fun u => source.unitRange u = range) [] := by
      intro hno
      refine path_nil fun u hu x hx hcontains => ?_
      obtain ⟨e, he, rfl⟩ := mem_map.mp hu
      have := houter e he x hx hcontains
      rw [hno e he] at this
      cases this
    have hapart : ∀ {r : ByteRange}, r.stop ≤ range.start ∨ range.stop ≤ r.start →
        r.contains range = false := by
      intro r hr
      refine Bool.eq_false_iff.mpr fun hcontains => ?_
      have := ByteRange.contains_iff.mp hcontains
      omega
    rw [descend]
    cases hget : index.children.get p with
    | none =>
      have hkids : kidsOf index.children p = [] := by rw [kidsOf, hget, getD_none]
      refine ⟨[], hempty (by simp [hkids]), .inr ⟨by rw [append_nil]; rfl, ?_⟩⟩
      rintro ⟨-, child, hchild, -⟩
      obtain ⟨e, he, -⟩ := (hparent child).mp hchild
      rw [hkids] at he
      cases he
    | some children =>
      have hkids : kidsOf index.children p = children := by rw [kidsOf, hget, getD_some]
      rw [hkids] at hparent hrange hmem houter hempty
      have hspec : ChildAround children range (containingChild children range true) := by
        rw [childIds, hkids] at hlevel
        refine containingChild_spec ((pairwise_map.mp hlevel).imp_of_mem
          fun {a b} ha hb hab => ?_) (fun e he => ?_) hne
        · rwa [hrange a ha, hrange b hb]
        · rw [hrange e he]
          exact (hnests e.unit (hmem e he)).nonempty
      dsimp only
      generalize containingChild children range true = found at hspec ⊢
      cases hspec with
      | apart hno =>
        refine ⟨[], hempty fun e he => hapart (hno e he), .inr ⟨by rw [append_nil]; rfl, ?_⟩⟩
        rintro ⟨-, child, hchild, hpartly⟩
        obtain ⟨e, he, rfl⟩ := (hparent child).mp hchild
        have := hno e he
        have := hpartly.1
        rw [hrange e he] at *
        omega
      | @partly child hchild hpartly hno =>
        refine ⟨[], hempty hno, .inl ⟨rfl, by simp, child.unit,
          (hparent _).mpr ⟨child, hchild, rfl⟩, ?_⟩⟩
        rwa [← hrange child hchild]
      | @around child hchild hcontains hother =>
        have hkind := hcontains
        rw [hrange child hchild] at hkind
        have hunit : child.unit ∈ childIds index.children p := by
          rw [childIds, hkids]
          exact mem_map_of_mem hchild
        have hothers : ∀ u ∈ childIds index.children p, u ≠ child.unit → ∀ x,
            Relation.ReflTransGen (Child (childIds index.children)) u x →
              ¬(source.unitRange x).contains range = true := by
          intro u hu hne' x hx hcontains
          rw [childIds, hkids] at hu
          obtain ⟨e, he, rfl⟩ := mem_map.mp hu
          have := houter e he x hx hcontains
          rw [hapart (hother e he fun heq => hne' (congrArg IndexedSourceUnit.unit heq))] at this
          cases this
        have hirrefl := htree.irrefl (hmem child hchild)
        dsimp only
        split
        · rename_i hexact
          refine ⟨[child.unit], path_end hunit hkind hothers hirrefl ?_, .inr ⟨rfl, ?_⟩⟩
          · rw [← hrange child hchild]
            exact hexact
          · rintro ⟨hlast, -⟩
            refine hlast child.unit rfl ?_
            rw [← hrange child hchild]
            exact hexact
        · rename_i hexact
          rw [hrange child hchild] at hexact
          obtain ⟨inner, hinner, hlt, hinner'⟩ := htree.exists_below (hmem child hchild)
          obtain ⟨path, hpath, hresult⟩ := ih child.unit inner (result ++ [child.unit]) hinner
            (fun u hu => hsub (hinner' hu)) (hnests child.unit (hmem child hchild)).siblings
            (by omega)
          refine ⟨child.unit :: path, path_cons hunit hkind hothers hirrefl hexact hpath, ?_⟩
          rw [overlapsBelow_cons hexact]
          rwa [append_assoc, singleton_append] at hresult

theorem containers_spec (h : Indexes source root units index) (hne : range.start < range.stop) :
    ∃ path, Descent source root units range path ∧
      (index.containers range true = .error .incompleteOrigin ∧
          OverlapsBelow source root units range path ∨
        index.containers range true = .ok path ∧ ¬OverlapsBelow source root units range path) := by
  obtain ⟨path, hpath, hresult⟩ := descend_spec h hne (index.flat.intervals.length + 1) root
    (index.flat.intervals.map IndexedInterval.value) [] h.tree (List.Subset.refl _) h.level
    (by simp)
  refine ⟨path, ⟨isChain_cons.mpr ⟨fun u hu => ?_, ?_⟩, fun u => ?_⟩, ?_⟩
  · rw [← h.child_eq]
    exact hpath.head u hu
  · rw [← h.child_eq]
    exact hpath.chain
  · have hin : ∀ v, InTrees (childIds index.children) (childIds index.children root) v ↔
        v ∈ units := fun v => h.tree.mem_iff.symm.trans (h.mem v)
    rw [hpath.mem, hin, h.child_eq]
    refine and_congr_right fun _ => and_congr_right fun _ => ?_
    exact forall_congr' fun v => by rw [hin]
  · rw [containers, h.root_eq]
    exact hresult

end SourceUnitIntervalIndex

/-- For a range that is not empty, an index of some units below a root finds the innermost unit and
the path down to it. -/
theorem sourceUnitIntervalIndex_answers {source : SourceInventory} {root : SourceUnitId}
    {units : List SourceUnitId} {index : SourceUnitIntervalIndex}
    (h : SourceUnitIntervalIndex.new source root units = .ok index) (range : ByteRange)
    (hne : range.start < range.stop) :
    (∃ found, index.innermostContainer range = .ok found ∧ InnermostUnit source units range found) ∧
    ∃ path, Descent source root units range path ∧
      (index.containers range true = .error .incompleteOrigin ↔
        OverlapsBelow source root units range path) ∧
      (∀ result, index.containers range true = .ok result ↔
        ¬OverlapsBelow source root units range path ∧ result = path) := by
  have hindexes := SourceUnitIntervalIndex.new_indexes h
  refine ⟨SourceUnitIntervalIndex.innermostContainer_spec hindexes hne, ?_⟩
  obtain ⟨path, hdescent, ⟨hresult, hoverlaps⟩ | ⟨hresult, hno⟩⟩ :=
    SourceUnitIntervalIndex.containers_spec hindexes hne
  · refine ⟨path, hdescent, ⟨fun _ => hoverlaps, fun _ => hresult⟩, fun result => ?_⟩
    rw [hresult]
    exact ⟨fun h => (by cases h), fun h => absurd hoverlaps h.1⟩
  · refine ⟨path, hdescent, ⟨fun h => ?_, fun h => absurd h hno⟩, fun result => ?_⟩
    · rw [hresult] at h
      cases h
    · rw [hresult]
      exact ⟨fun h => ⟨hno, by cases h; rfl⟩, fun h => by rw [h.2]⟩

/-- Two units beside each other, each with one unit in it. -/
def nestedUnits : SourceInventory where
  original := []
  units := [⟨⟨0⟩, .crateRoot, ⟨0, 20⟩, none, .active, ⟨0⟩, 0⟩,
    ⟨⟨1⟩, .item, ⟨0, 10⟩, some ⟨0⟩, .active, ⟨1⟩, 0⟩,
    ⟨⟨2⟩, .nestedItem, ⟨2, 5⟩, some ⟨1⟩, .active, ⟨2⟩, 0⟩,
    ⟨⟨3⟩, .item, ⟨10, 20⟩, some ⟨0⟩, .active, ⟨3⟩, 1⟩,
    ⟨⟨4⟩, .nestedItem, ⟨12, 14⟩, some ⟨3⟩, .active, ⟨4⟩, 0⟩]
  pieces := []
  deriveTargets := []
  macroRules := []
  macroTemplates := []
  macroCaptureSlots := []
  macroRepetitions := []
  ownerlessAttributeInvocations := []

theorem sourceUnitIntervalIndex_answers_nested :
    ∃ index, SourceUnitIntervalIndex.new nestedUnits ⟨0⟩ [⟨1⟩, ⟨2⟩, ⟨3⟩, ⟨4⟩] = .ok index ∧
      ∃ found, index.innermostContainer ⟨3, 4⟩ = .ok found ∧
        InnermostUnit nestedUnits [⟨1⟩, ⟨2⟩, ⟨3⟩, ⟨4⟩] ⟨3, 4⟩ found := by
  have hok : (SourceUnitIntervalIndex.new nestedUnits ⟨0⟩ [⟨1⟩, ⟨2⟩, ⟨3⟩, ⟨4⟩]).isOk = true := by
    decide +kernel
  cases h : SourceUnitIntervalIndex.new nestedUnits ⟨0⟩ [⟨1⟩, ⟨2⟩, ⟨3⟩, ⟨4⟩] with
  | error => rw [h] at hok; cases hok
  | ok index => exact ⟨index, rfl, (sourceUnitIntervalIndex_answers h ⟨3, 4⟩ (by decide)).1⟩

/-- The descent stops at a unit that is the range, whatever is in that unit.  Elsewhere a child in
the range is an overlap as well. -/
theorem containers_at_exact_unit :
    (SourceUnitIntervalIndex.new nestedUnits ⟨0⟩ [⟨1⟩, ⟨2⟩, ⟨3⟩, ⟨4⟩] >>= fun index =>
        index.containers ⟨0, 10⟩ true) = .ok [⟨1⟩] ∧
      ListedParent nestedUnits [⟨1⟩, ⟨2⟩, ⟨3⟩, ⟨4⟩] ⟨1⟩ ⟨2⟩ ∧
      PartlyOverlaps (nestedUnits.unitRange ⟨2⟩) ⟨0, 10⟩ ∧
    (SourceUnitIntervalIndex.new nestedUnits ⟨0⟩ [⟨1⟩, ⟨2⟩, ⟨3⟩, ⟨4⟩] >>= fun index =>
        index.containers ⟨11, 15⟩ true) = .error .incompleteOrigin ∧
      (⟨11, 15⟩ : ByteRange).contains (nestedUnits.unitRange ⟨4⟩) = true := by
  refine ⟨rfl, ⟨by decide, rfl⟩, ⟨by decide, rfl⟩, rfl, rfl⟩

end ItemDependencies
