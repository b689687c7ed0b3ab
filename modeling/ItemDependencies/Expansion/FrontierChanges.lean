import ItemDependencies.Expansion.FrontierQueries
import ItemDependencies.Expansion.SourceFrontiers

/-!
# Changes of frontier sets

An insertion leaves the deepest units, since in an antichain only the last position before the new
one can be above it.  Unions and intersections insert unit after unit.
-/

namespace ItemDependencies

open Library List

namespace PersistentFrontierSets

variable {s t : PersistentFrontierSets} {id left right : PersistentFrontierSetId}
  {A B : Finset Nat} {parents : List (Option SourceUnitId)} {index : SourceAncestryIndex}

theorem isRoot_empty : s.IsRoot index emptyId ∅ :=
  ⟨.empty _, fun p hp => absurd hp (Finset.notMem_empty p),
    fun p hp => absurd hp (Finset.notMem_empty p)⟩

theorem IsRoot.subset (hA : s.IsRoot index id A) (hB : s.Holds s.height left B) (hsub : B ⊆ A) :
    s.IsRoot index left B :=
  ⟨hB, fun p hp => hA.lt p (hsub hp), hA.antichain.subset hsub⟩

theorem IsRoot.known (h : s.IsFrontierStore parents index) (hA : s.IsRoot index id A) :
    ∀ p ∈ A, p < parents.length := h.count_eq ▸ hA.lt

theorem isRoot_deepest (h : s.IsFrontierStore parents index) {U : Finset Nat}
    (hU : ∀ p ∈ U, p < parents.length) (hholds : s.Holds s.height id (deepest index.treeStop U)) :
    s.IsRoot index id (deepest index.treeStop U) :=
  ⟨hholds, fun p hp => h.count_eq ▸ hU p (deepest_subset hp), antichain_deepest⟩

theorem grows_unions
    (unions : SortedMap (PersistentFrontierSetId ×ₗ PersistentFrontierSetId)
      PersistentFrontierSetId) :
    s.Grows { s with unions := unions } := ⟨rfl, rfl, prefix_refl _⟩

/-! ## Insertion -/

section Insert

variable (hindex : EntersUnits parents index)

include hindex

/-- Only the last unit before the new one may be above it. -/
theorem withoutAncestor_runs (h : s.IsFrontierStore parents index) (hA : s.IsRoot index id A)
    {source : SourceUnitId} (hsource : source.index < parents.length)
    (hnone : ∀ p ∈ A, ¬Inside index.treeStop p (index.entryOf source)) :
    Runs (growth parents index) (withoutAncestor index id source (index.entryOf source)) s
      fun id t => ∃ B, t.Holds t.height id B ∧
        insert (index.entryOf source) B =
          deepest index.treeStop (insert (index.entryOf source) A) := by
  obtain ⟨hentry, hunit⟩ := hindex.entry source hsource
  have hknown := IsRoot.known h hA
  obtain ⟨last, hlast, hisLast⟩ := predecessor_eq h.toIsStore hA.holds hA.lt (index.entryOf source)
  unfold withoutAncestor
  refine Runs.read hlast ?_
  cases last with
  | none =>
    refine Runs.pure h ⟨A, hA.holds, ?_⟩
    rw [hindex.order.deepest_insert_of_first hA.antichain hknown hentry hnone]
    exact fun p hp hlt => hisLast p ⟨hp, hlt⟩
  | some m =>
    obtain ⟨⟨hm, hme⟩, hbehind⟩ := hisLast
    have hdeepest := hindex.order.deepest_insert_of_last hA.antichain hknown hentry hnone hm hme
      fun p hp hpe => not_lt.mp fun hmp => hbehind p hmp ⟨hp, hpe⟩
    have habove : index.isAncestor (index.unitAt m) source =
        .ok (decide (Inside index.treeStop (index.entryOf source) m)) := by
      rw [← hindex.isAncestor_eq (hknown m hm) hentry, hunit]
    refine Runs.read (hindex.unitAtEntry_eq (hknown m hm)) (Runs.read habove ?_)
    by_cases hinside : Inside index.treeStop (index.entryOf source) m
    · rw [if_pos (decide_eq_true hinside)]
      rw [if_pos hinside] at hdeepest
      refine (setPosition_runs false h hA.holds (hA.lt m hm)).imp fun id t _ hle hholds => ?_
      exact ⟨A.erase m, hle.height_eq ▸ hholds, hdeepest.symm⟩
    · rw [if_neg (ne_of_eq_of_ne (decide_eq_false hinside) Bool.false_ne_true)]
      rw [if_neg hinside] at hdeepest
      exact Runs.pure h ⟨A, hA.holds, hdeepest.symm⟩

theorem insertSource_runs (h : s.IsFrontierStore parents index) (hA : s.IsRoot index id A)
    {source : SourceUnitId} (hsource : source.index < parents.length) :
    Runs (growth parents index) (insertSource index id source) s
      fun id t => t.IsRoot index id (deepest index.treeStop (insert (index.entryOf source) A)) := by
  obtain ⟨hentry, -⟩ := hindex.entry source hsource
  have hknown := IsRoot.known h hA
  have hinserted : ∀ p ∈ insert (index.entryOf source) A, p < parents.length := fun p hp =>
    (Finset.mem_insert.mp hp).elim (fun heq => heq ▸ hentry) (hknown p)
  obtain ⟨found, hfound, hiff⟩ := containsInRange_eq h.toIsStore hA.holds
    (hindex.order.lt _ hentry) (h.count_eq ▸ hindex.stop_le _ hentry)
  unfold insertSource
  refine Runs.read (hindex.interval_eq hsource) (Runs.read hfound ?_)
  cases found with
  | true =>
    obtain ⟨p, hp, hinside⟩ := hiff.mp rfl
    refine Runs.pure h ?_
    rwa [hindex.order.deepest_insert_of_inside hA.antichain hknown hentry hp hinside]
  | false =>
    have hnone : ∀ p ∈ A, ¬Inside index.treeStop p (index.entryOf source) := fun p hp hinside =>
      Bool.false_ne_true (hiff.mpr ⟨p, hp, hinside⟩)
    refine (withoutAncestor_runs hindex h hA hsource hnone).bind fun id t ht _ hB => ?_
    obtain ⟨B, hB, hdeepest⟩ := hB
    refine (setPosition_runs true ht hB (ht.count_eq ▸ hentry)).imp fun id r hr hle hholds => ?_
    refine isRoot_deepest hr hinserted ?_
    rw [← hdeepest]
    exact hle.height_eq ▸ hholds

/-- The entries of units. -/
def entriesOf (index : SourceAncestryIndex) (units : List SourceUnitId) : Finset Nat :=
  (units.map index.entryOf).toFinset

omit hindex in
theorem mem_entriesOf {units : List SourceUnitId} {p : Nat} :
    p ∈ entriesOf index units ↔ ∃ u ∈ units, index.entryOf u = p := by
  rw [entriesOf, mem_toFinset, mem_map]

theorem entriesOf_lt {units : List SourceUnitId} (hunits : ∀ u ∈ units, u.index < parents.length) :
    ∀ p ∈ entriesOf index units, p < parents.length := by
  intro p hp
  obtain ⟨u, hu, rfl⟩ := mem_entriesOf.mp hp
  exact (hindex.entry u (hunits u hu)).1

theorem insertSources_runs (h : s.IsFrontierStore parents index) (hA : s.IsRoot index id A)
    {sources : List SourceUnitId} (hsources : ∀ u ∈ sources, u.index < parents.length) :
    Runs (growth parents index) (sources.foldlM (insertSource index) id) s
      fun id t => t.IsRoot index id (deepest index.treeStop (entriesOf index sources ∪ A)) := by
  have hknown := IsRoot.known h hA
  refine Runs.foldlM (G := growth parents index) (P := fun done id t =>
      t.IsRoot index id (deepest index.treeStop (entriesOf index done ∪ A)))
    (fun done source rest id t hl ht _ hroot => ?_) h ?_
  · have hdone : ∀ u ∈ done, u.index < parents.length := fun u hu =>
      hsources u (hl ▸ mem_append_left _ hu)
    have hsource : source.index < parents.length :=
      hsources source (hl ▸ mem_append_right _ mem_cons_self)
    have hunion : ∀ p ∈ entriesOf index done ∪ A, p < parents.length := fun p hp =>
      (Finset.mem_union.mp hp).elim (entriesOf_lt hindex hdone p) (hknown p)
    have hentries : entriesOf index (done ++ [source]) ∪ A =
        insert (index.entryOf source) (entriesOf index done ∪ A) := by
      rw [← Finset.insert_union]
      congr 1
      ext p
      rw [Finset.mem_insert, mem_entriesOf, mem_entriesOf]
      simp [or_comm, eq_comm]
    rw [hentries, ← hindex.order.deepest_insert_deepest hunion (hindex.entry source hsource).1]
    exact insertSource_runs hindex ht hroot hsource
  · rw [show entriesOf index [] = ∅ from rfl, Finset.empty_union, hA.antichain.deepest_eq]
    exact hA

/-! ## Unions -/

/-- The entries of the units at some positions are the positions. -/
theorem entriesOf_unitsOf (hA : ∀ p ∈ A, p < parents.length) :
    entriesOf index (unitsOf index A) = A := by
  ext p
  rw [mem_entriesOf]
  constructor
  · rintro ⟨u, hu, rfl⟩
    obtain ⟨q, hq, rfl⟩ := mem_map.mp hu
    rw [(hindex.unit q (hA q (mem_ascending.mp hq))).2.2]
    exact mem_ascending.mp hq
  · intro hp
    exact ⟨_, mem_map_of_mem (mem_ascending.mpr hp), (hindex.unit p (hA p hp)).2.2⟩

theorem unitsOf_known (hA : ∀ p ∈ A, p < parents.length) :
    ∀ u ∈ unitsOf index A, u.index < parents.length := by
  intro u hu
  obtain ⟨q, hq, rfl⟩ := mem_map.mp hu
  exact (hindex.unit q (hA q (mem_ascending.mp hq))).2.1

/-- The units of a root. -/
theorem enumerate_root (h : s.IsFrontierStore parents index) (hA : s.IsRoot index id A) :
    s.enumerate index id = .ok (unitsOf index A) :=
  enumerate_eq h.toIsStore hindex h.count_eq hA.holds hA.lt

theorem unionNew_runs (h : s.IsFrontierStore parents index) (hA : s.IsRoot index left A)
    (hB : s.IsRoot index right B) : Runs (growth parents index) (unionNew index left right) s
      fun id t => t.IsRoot index id (deepest index.treeStop (A ∪ B)) := by
  refine (partitionRoots_runs h hA.holds hB.holds).bind fun parts t ht hle hparts => ?_
  rw [← hle.height_eq] at hparts
  have hA' := hA.mono hle
  have hB' := hB.mono hle
  have hleft := hA'.subset hparts.2.1 Finset.sdiff_subset
  have hright := hB'.subset hparts.2.2 Finset.sdiff_subset
  refine Runs.read (ht.toIsStore.count_eq hleft.holds)
    (Runs.read (ht.toIsStore.count_eq hright.holds) ?_)
  by_cases hcount : (A \ B).card ≤ (B \ A).card
  · rw [if_pos hcount, if_pos hcount]
    refine Runs.read (enumerate_root hindex ht hleft) ?_
    have hruns := insertSources_runs hindex ht hB' (unitsOf_known hindex (IsRoot.known ht hleft))
    rwa [entriesOf_unitsOf hindex (IsRoot.known ht hleft), Finset.sdiff_union_self_eq_union]
      at hruns
  · rw [if_neg hcount, if_neg hcount]
    refine Runs.read (enumerate_root hindex ht hright) ?_
    have hruns := insertSources_runs hindex ht hA' (unitsOf_known hindex (IsRoot.known ht hright))
    rwa [entriesOf_unitsOf hindex (IsRoot.known ht hright), Finset.sdiff_union_self_eq_union,
      Finset.union_comm] at hruns

omit hindex in
/-- A pair of roots has the two of them in some order. -/
theorem unionPair_cases (left right : PersistentFrontierSetId) :
    unionPair left right = toLex (left, right) ∨ unionPair left right = toLex (right, left) := by
  unfold unionPair
  split
  · exact .inl rfl
  · exact .inr rfl

omit hindex in
theorem known_union (h : s.IsFrontierStore parents index) (hA : s.IsRoot index left A)
    (hB : s.IsRoot index right B) (hknown : s.unions.get (unionPair left right) = some id) :
    s.IsRoot index id (deepest index.treeStop (A ∪ B)) := by
  obtain ⟨C, D, hC, hD, hunion⟩ := h.unions _ id hknown
  rcases unionPair_cases left right with hpair | hpair
  · rw [hpair] at hC hD
    rwa [h.toIsStore.unique hA.holds hC.holds, h.toIsStore.unique hB.holds hD.holds]
  · rw [hpair] at hC hD
    rwa [h.toIsStore.unique hA.holds hD.holds, h.toIsStore.unique hB.holds hC.holds,
      Finset.union_comm]

omit hindex in
/-- The new union is remembered. -/
theorem addUnion (h : s.IsFrontierStore parents index) (hA : s.IsRoot index left A)
    (hB : s.IsRoot index right B) (hunion : s.IsRoot index id (deepest index.treeStop (A ∪ B))) :
    IsFrontierStore parents index
      { s with unions := s.unions.insert (unionPair left right) id } := by
  refine ⟨⟨h.distinct, h.nodes, h.canonical, h.fits, h.small⟩,
    h.count_eq, fun pair other hget => ?_⟩
  rw [SortedMap.get_insert] at hget
  split at hget
  case isTrue heq =>
    cases hget
    rw [heq]
    rcases unionPair_cases left right with hpair | hpair
    · rw [hpair]
      exact ⟨A, B, hA.mono (grows_unions _), hB.mono (grows_unions _), hunion.mono (grows_unions _)⟩
    · rw [hpair]
      exact ⟨B, A, hB.mono (grows_unions _), hA.mono (grows_unions _),
        Finset.union_comm A B ▸ hunion.mono (grows_unions _)⟩
  case isFalse =>
    obtain ⟨C, D, hC, hD, hunion⟩ := h.unions pair other hget
    exact ⟨C, D, hC.mono (grows_unions _), hD.mono (grows_unions _), hunion.mono (grows_unions _)⟩

theorem union_runs (h : s.IsFrontierStore parents index) (hA : s.IsRoot index left A)
    (hB : s.IsRoot index right B) : Runs (growth parents index) (union index left right) s
      fun id t => t.IsRoot index id (deepest index.treeStop (A ∪ B)) := by
  unfold union
  by_cases hleft : left = emptyId ∨ left = right
  · rw [if_pos hleft]
    refine Runs.pure h ?_
    have hsub : A ⊆ B := by
      rcases hleft with hempty | rfl
      · rw [(h.toIsStore.eq_empty_iff hA.holds).mpr hempty]
        exact Finset.empty_subset B
      · rw [h.toIsStore.unique hA.holds hB.holds]
    rwa [Finset.union_eq_right.mpr hsub, hB.antichain.deepest_eq]
  rw [if_neg hleft]
  by_cases hright : right = emptyId
  · rw [if_pos hright]
    refine Runs.pure h ?_
    rwa [(h.toIsStore.eq_empty_iff hB.holds).mpr hright, Finset.union_empty,
      hA.antichain.deepest_eq]
  rw [if_neg hright]
  refine Runs.read rfl ?_
  cases hknown : s.unions.get (unionPair left right) with
  | some id => exact Runs.pure h (known_union h hA hB hknown)
  | none =>
    refine (unionNew_runs hindex h hA hB).bind fun id t ht hle hunion => ?_
    have hadded := addUnion ht (hA.mono hle) (hB.mono hle) hunion
    refine (Runs.changing (Q := fun _ r => r.IsRoot index id (deepest index.treeStop (A ∪ B)))
      hadded (grows_unions _) (hunion.mono (grows_unions _))).bind fun _ r hr _ hroot => ?_
    exact Runs.pure hr hroot

end Insert

end PersistentFrontierSets

end ItemDependencies
