import ItemDependencies.Expansion.FrontierChanges

/-!
# Runs of a frontier store

The calls on a store with the roots they are given and those they return.  In whatever order the
calls come, a root stands for one frontier and a frontier has one root.
-/

namespace ItemDependencies

open Library List

namespace PersistentFrontierSets

variable {s t : PersistentFrontierSets} {id left right : PersistentFrontierSetId}
  {A B : Finset Nat} {parents : List (Option SourceUnitId)} {index : SourceAncestryIndex}

/-! ## A new store -/

theorem nodeAt_of_nil (h : s.nodes = []) (id : PersistentFrontierSetId) : s.nodeAt id = none := by
  unfold nodeAt
  rw [h]
  split <;> rfl

theorem isStore_of_nil (hnodes : s.nodes = []) (hcanonical : s.canonical = .empty)
    (hfits : s.sourceCount ≤ 2 ^ s.height) (hsmall : 2 ^ s.height < u64Size) : s.IsStore := by
  have htable : ∀ id, s.table.node id = none := fun id => by
    show Option.map _ _ = none
    rw [nodeAt_of_nil hnodes, Option.map_none]
  have hdistinct : s.table.Distinct := by
    refine ⟨fun h => (by cases h), htable _, htable _, fun {id _ _ _} h => ?_, fun {a _ _} h => ?_⟩
    · cases h.symm.trans (htable id)
    · cases h.symm.trans (htable a)
  refine ⟨hdistinct, fun id node hnode => ?_, fun height left right id => ?_, hfits, hsmall⟩
  · cases hnode.symm.trans (nodeAt_of_nil hnodes id)
  · rw [hcanonical, htable]
    exact iff_of_false (fun h => (by cases h)) fun h => (by cases h)

theorem new_isFrontierStore (hindex : EntersUnits parents index) :
    ∃ s, PersistentFrontierSets.new parents.length = .ok s ∧ s.IsFrontierStore parents index := by
  obtain ⟨k, hk, hfits⟩ := nextPowerOfTwo_spec parents.length
  have hsmall : 2 ^ k < u64Size := by
    have hle := nextPowerOfTwo_le parents.length
    have hcount := hindex.ancestry.small
    rw [hk] at hle
    simp only [u64Size, u32Size] at hcount ⊢
    omega
  have hheight : Nat.log2 (max (2 ^ k) 1) = k := by
    rw [max_eq_left Nat.one_le_two_pow, Nat.log2_two_pow]
  unfold PersistentFrontierSets.new
  rw [hk]
  refine ⟨_, if_neg (not_le.mpr hsmall), isStore_of_nil rfl rfl ?_ ?_, rfl, fun pair id hget => ?_⟩
  · rwa [hheight]
  · rwa [hheight]
  · cases hget

/-! ## Intersections -/

section Intersections

variable {excluded : List SourceUnitId} {exclusions : SourceAncestorExclusions}

theorem excluded_known (h : IsAncestryIndex parents index)
    (hnew : SourceAncestorExclusions.new index excluded = .ok exclusions) :
    ∀ u ∈ excluded, u.index < parents.length := by
  unfold SourceAncestorExclusions.new at hnew
  obtain ⟨⟨⟩, hall, -⟩ := bind_ok hnew
  intro u hu
  have hposition := forM_ok.mp hall u hu
  unfold SourceAncestryIndex.position at hposition
  split at hposition
  case isTrue hlt => rwa [h.parents_eq] at hlt
  case isFalse => cases hposition

/-- The units that two sets have in common above their units, apart from what they share. -/
def CommonBelow (parents : List (Option SourceUnitId)) (index : SourceAncestryIndex)
    (excluded : List SourceUnitId) (A B : Finset Nat) (unit : SourceUnitId) : Prop :=
  IsCommon parents (unitsOf index (A \ B)) (unitsOf index (B \ A)) unit ∧
    ¬Reaches parents excluded unit

theorem not_commonBelow (h : A ⊆ B ∨ B ⊆ A) (unit : SourceUnitId) :
    ¬CommonBelow parents index excluded A B unit := by
  rintro ⟨⟨⟨l, hl, -⟩, ⟨r, hr, -⟩⟩, -⟩
  rcases h with h | h
  · rw [Finset.sdiff_eq_empty_iff_subset.mpr h] at hl
    cases hl
  · rw [Finset.sdiff_eq_empty_iff_subset.mpr h] at hr
    cases hr

theorem intersection_runs (hindex : EntersUnits parents index) (h : s.IsFrontierStore parents index)
    (hA : s.IsRoot index left A) (hB : s.IsRoot index right B)
    (hnew : SourceAncestorExclusions.new index excluded = .ok exclusions) :
    Runs (growth parents index) (intersection index exclusions left right) s fun id t =>
      ∃ units, IsDeepest parents index (CommonBelow parents index excluded A B) units ∧
        (∀ u ∈ units, u.index < parents.length) ∧
        t.IsRoot index id (deepest index.treeStop (entriesOf index units ∪ A ∩ B)) := by
  have hexcluded := excluded_known hindex.ancestry hnew
  unfold intersection
  by_cases halike : left = right ∨ left = emptyId ∨ right = emptyId
  · rw [if_pos halike]
    -- one of the sets is part of the other, and only what they share is common
    have hroot : s.IsRoot index (if left = right then left else emptyId) (A ∩ B) ∧
        (A ⊆ B ∨ B ⊆ A) := by
      by_cases heq : left = right
      · rw [if_pos heq]
        cases heq
        cases h.toIsStore.unique hA.holds hB.holds
        rw [Finset.inter_self]
        exact ⟨hA, .inl (Finset.Subset.refl A)⟩
      · rw [if_neg heq]
        rcases halike.resolve_left heq with hempty | hempty
        · rw [(h.toIsStore.eq_empty_iff hA.holds).mpr hempty, Finset.empty_inter]
          exact ⟨isRoot_empty, .inl (Finset.empty_subset B)⟩
        · rw [(h.toIsStore.eq_empty_iff hB.holds).mpr hempty, Finset.inter_empty]
          exact ⟨isRoot_empty, .inr (Finset.empty_subset A)⟩
    refine Runs.pure h ⟨[], ⟨.nil, fun u => iff_of_false not_mem_nil fun hu =>
      not_commonBelow hroot.2 u hu.1⟩, fun u hu => absurd hu not_mem_nil, ?_⟩
    rw [show entriesOf index [] = ∅ from rfl, Finset.empty_union, hroot.1.antichain.deepest_eq]
    exact hroot.1
  rw [if_neg halike]
  refine (partitionRoots_runs h hA.holds hB.holds).bind fun parts t ht hle hparts => ?_
  rw [← hle.height_eq] at hparts
  have hcommon := (hA.mono hle).subset hparts.1 Finset.inter_subset_left
  have hleft := (hA.mono hle).subset hparts.2.1 Finset.sdiff_subset
  have hright := (hB.mono hle).subset hparts.2.2 Finset.sdiff_subset
  have hleftKnown := unitsOf_known hindex (IsRoot.known ht hleft)
  have hrightKnown := unitsOf_known hindex (IsRoot.known ht hright)
  obtain ⟨exclusions', hnew', hexcludes⟩ := exclusions_new hindex.ancestry hexcluded
  cases hnew.symm.trans hnew'
  obtain ⟨units, hunits, hdeepest⟩ :=
    intersectFrontiers_eq hindex.ancestry hleftKnown hrightKnown hexcludes
  have hknown : ∀ u ∈ units, u.index < parents.length := by
    intro u hu
    obtain ⟨⟨⟨⟨l, hl, hlu⟩, -⟩, -⟩, -⟩ := (hdeepest.2 u).mp hu
    exact hindex.ancestry.lt_of_within (hleftKnown l hl) hlu
  refine Runs.read (enumerate_root hindex ht hleft)
    (Runs.read (enumerate_root hindex ht hright) (Runs.read hunits ?_))
  refine (insertSources_runs hindex ht hcommon hknown).imp fun id r _ _ hroot => ?_
  exact ⟨units, hdeepest, hknown, hroot⟩

end Intersections

/-! ## Calls -/

/-- A call with the roots it is given. -/
inductive FrontierCall where
  | insertSource (root : PersistentFrontierSetId) (source : SourceUnitId)
  | union (left right : PersistentFrontierSetId)
  | intersection (excluded : List SourceUnitId) (left right : PersistentFrontierSetId)
  | partitionFrontiers (left right : PersistentFrontierSetId)

namespace FrontierCall

def roots : FrontierCall → List PersistentFrontierSetId
  | insertSource root _ => [root]
  | union left right => [left, right]
  | intersection _ left right => [left, right]
  | partitionFrontiers left right => [left, right]

/-- The call, with the roots that it returns. -/
def run (index : SourceAncestryIndex) : FrontierCall → FrontierStore (List PersistentFrontierSetId)
  | insertSource root source => do
    let id ← PersistentFrontierSets.insertSource index root source
    return [id]
  | union left right => do
    let id ← PersistentFrontierSets.union index left right
    return [id]
  | intersection excluded left right => do
    let exclusions ← Store.reading fun _ => SourceAncestorExclusions.new index excluded
    let id ← PersistentFrontierSets.intersection index exclusions left right
    return [id]
  | partitionFrontiers left right => do
    let parts ← partitionRoots left right
    return [parts.1, parts.2.1, parts.2.2]

/-- The units of the call are units of the forest. -/
def Known (parents : List (Option SourceUnitId)) : FrontierCall → Prop
  | insertSource _ source => source.index < parents.length
  | union _ _ => True
  | intersection excluded _ _ => ∀ u ∈ excluded, u.index < parents.length
  | partitionFrontiers _ _ => True

end FrontierCall

/-- The root stands for these positions. -/
def Stands (sets : PersistentFrontierSets) (id : PersistentFrontierSetId) (A : Finset Nat) : Prop :=
  sets.Holds sets.height id A

/-- The root stands for the positions of the deepest of these units. -/
def StandsDeepest (parents : List (Option SourceUnitId)) (index : SourceAncestryIndex)
    (sets : PersistentFrontierSets) (id : PersistentFrontierSetId) (units : SourceUnitId → Prop) :
    Prop :=
  ∃ A, sets.Stands id A ∧ IsDeepest parents index units (unitsOf index A)

/-- What the returned roots stand for. -/
def FrontierCall.Returns (parents : List (Option SourceUnitId)) (index : SourceAncestryIndex)
    (sets : PersistentFrontierSets) : FrontierCall → List PersistentFrontierSetId → Prop
  | .insertSource root source, ids => ∃ id, ids = [id] ∧ ∀ A, sets.Stands root A →
      StandsDeepest parents index sets id fun u => u = source ∨ u ∈ unitsOf index A
  | .union left right, ids => ∃ id, ids = [id] ∧ ∀ A B, sets.Stands left A → sets.Stands right B →
      StandsDeepest parents index sets id fun u => u ∈ unitsOf index A ∨ u ∈ unitsOf index B
  | .intersection excluded left right, ids => ∃ id, ids = [id] ∧
      ∀ A B, sets.Stands left A → sets.Stands right B → ∃ units,
        IsDeepest parents index (CommonBelow parents index excluded A B) units ∧
        StandsDeepest parents index sets id fun u => u ∈ units ∨ u ∈ unitsOf index (A ∩ B)
  | .partitionFrontiers left right, ids => ∃ common leftOnly rightOnly,
      ids = [common, leftOnly, rightOnly] ∧ ∀ A B, sets.Stands left A → sets.Stands right B →
        sets.Stands common (A ∩ B) ∧ sets.Stands leftOnly (A \ B) ∧ sets.Stands rightOnly (B \ A)

/-! ### Each call -/

section Calls

variable (hindex : EntersUnits parents index)

include hindex

theorem mem_unitsOf (hA : ∀ p ∈ A, p < parents.length) {u : SourceUnitId} :
    u ∈ unitsOf index A ↔ u.index < parents.length ∧ index.entryOf u ∈ A := by
  constructor
  · intro hu
    refine ⟨unitsOf_known hindex hA u hu, ?_⟩
    rw [← entriesOf_unitsOf hindex hA]
    exact mem_entriesOf.mpr ⟨u, hu, rfl⟩
  · rintro ⟨hu, hentry⟩
    rw [← (hindex.entry u hu).2]
    exact mem_map_of_mem (mem_ascending.mpr hentry)

/-- The units at the deepest positions are the deepest units. -/
theorem isDeepest_unitsOf {U : Finset Nat} (hU : ∀ p ∈ U, p < parents.length) :
    IsDeepest parents index (· ∈ unitsOf index U) (unitsOf index (deepest index.treeStop U)) := by
  have hdeepest : ∀ p ∈ deepest index.treeStop U, p < parents.length := fun p hp =>
    hU p (deepest_subset hp)
  constructor
  · refine pairwise_map.mpr ((pairwise_lt_ascending _).imp_of_mem fun {p q} hp hq hlt => ?_)
    rwa [(hindex.unit p (hdeepest p (mem_ascending.mp hp))).2.2,
      (hindex.unit q (hdeepest q (mem_ascending.mp hq))).2.2]
  · intro u
    refine (mem_unitsOf hindex hdeepest).trans
      (Iff.trans ?_ (and_congr_left' (mem_unitsOf hindex hU).symm))
    rw [and_assoc]
    refine and_congr_right fun hu => ?_
    rw [mem_deepest]
    refine and_congr_right fun hentry => ?_
    have hinside : ∀ v : SourceUnitId, v.index < parents.length →
        (Inside index.treeStop (index.entryOf v) (index.entryOf u) ↔ Within parents v u) := by
      intro v hv
      rw [hindex.inside_iff (hindex.entry u hu).1 (hindex.entry v hv).1, (hindex.entry v hv).2,
        (hindex.entry u hu).2]
    constructor
    · intro hlast v hv hwithin
      obtain ⟨hknown, hmem⟩ := (mem_unitsOf hindex hU).mp hv
      have heq := hlast _ hmem ((hinside v hknown).mpr hwithin)
      rw [← (hindex.entry v hknown).2, heq, (hindex.entry u hu).2]
    · intro hlast q hq hin
      obtain ⟨-, hknown, hentered⟩ := hindex.unit q (hU q hq)
      rw [← hentered] at hq hin
      have heq := hlast _ ((mem_unitsOf hindex hU).mpr ⟨hknown, hq⟩) ((hinside _ hknown).mp hin)
      rw [← hentered, heq]

theorem IsRoot.standsDeepest {U : Finset Nat} (hU : ∀ p ∈ U, p < parents.length)
    (hroot : s.IsRoot index id (deepest index.treeStop U)) {units : SourceUnitId → Prop}
    (hunits : ∀ u, units u ↔ u ∈ unitsOf index U) : StandsDeepest parents index s id units := by
  rw [show units = (· ∈ unitsOf index U) from funext fun u => propext (hunits u)]
  exact ⟨_, hroot.holds, isDeepest_unitsOf hindex hU⟩

/-- A call on roots that a store knows. -/
theorem call_runs (h : s.IsFrontierStore parents index) (call : FrontierCall)
    (hroots : ∀ root ∈ call.roots, ∃ A, s.IsRoot index root A) (hknown : call.Known parents) :
    Runs (growth parents index) (call.run index) s fun ids t =>
      (∀ root ∈ ids, ∃ A, t.IsRoot index root A) ∧ call.Returns parents index t ids := by
  cases call with
  | insertSource root source =>
    obtain ⟨A, hA⟩ := hroots root (mem_singleton_self root)
    refine (insertSource_runs hindex h hA hknown).bind fun id t ht hle hroot => Runs.pure ht ?_
    refine ⟨fun other hother => ⟨_, mem_singleton.mp hother ▸ hroot⟩, id, rfl, fun B hB => ?_⟩
    cases ht.toIsStore.unique hB (hA.mono hle).holds
    have hA' := IsRoot.known h hA
    have hentry := (hindex.entry source hknown).1
    have hU : ∀ p ∈ insert (index.entryOf source) A, p < parents.length := fun p hp =>
      (Finset.mem_insert.mp hp).elim (fun heq => heq ▸ hentry) (hA' p)
    refine IsRoot.standsDeepest hindex hU hroot fun u => ?_
    rw [mem_unitsOf hindex hA', mem_unitsOf hindex hU, Finset.mem_insert, and_or_left]
    refine or_congr_left ⟨?_, fun hu => ?_⟩
    · rintro rfl
      exact ⟨hknown, rfl⟩
    · rw [← (hindex.entry u hu.1).2, hu.2, (hindex.entry source hknown).2]
  | union left right =>
    obtain ⟨A, hA⟩ := hroots left mem_cons_self
    obtain ⟨B, hB⟩ := hroots right (mem_cons_of_mem _ (mem_singleton_self right))
    refine (union_runs hindex h hA hB).bind fun id t ht hle hroot => Runs.pure ht ?_
    refine ⟨fun other hother => ⟨_, mem_singleton.mp hother ▸ hroot⟩, id,
      rfl, fun A' B' hA' hB' => ?_⟩
    cases ht.toIsStore.unique hA' (hA.mono hle).holds
    cases ht.toIsStore.unique hB' (hB.mono hle).holds
    have hU : ∀ p ∈ A ∪ B, p < parents.length := fun p hp =>
      (Finset.mem_union.mp hp).elim (IsRoot.known h hA p) (IsRoot.known h hB p)
    refine IsRoot.standsDeepest hindex hU hroot fun u => ?_
    rw [mem_unitsOf hindex (IsRoot.known h hA), mem_unitsOf hindex (IsRoot.known h hB),
      mem_unitsOf hindex hU, Finset.mem_union, and_or_left]
  | intersection excluded left right =>
    obtain ⟨A, hA⟩ := hroots left mem_cons_self
    obtain ⟨B, hB⟩ := hroots right (mem_cons_of_mem _ (mem_singleton_self right))
    obtain ⟨exclusions, hnew, -⟩ := exclusions_new hindex.ancestry hknown
    refine Runs.read hnew ((intersection_runs hindex h hA hB hnew).bind
      fun id t ht hle hcommon => Runs.pure ht ?_)
    obtain ⟨units, hdeepest, hunits, hroot⟩ := hcommon
    refine ⟨fun other hother => ⟨_, mem_singleton.mp hother ▸ hroot⟩, id,
      rfl, fun A' B' hA' hB' => ?_⟩
    cases ht.toIsStore.unique hA' (hA.mono hle).holds
    cases ht.toIsStore.unique hB' (hB.mono hle).holds
    have hshared : ∀ p ∈ A ∩ B, p < parents.length := fun p hp =>
      IsRoot.known h hA p (Finset.mem_inter.mp hp).1
    have hU : ∀ p ∈ entriesOf index units ∪ A ∩ B, p < parents.length := fun p hp =>
      (Finset.mem_union.mp hp).elim (entriesOf_lt hindex hunits p) (hshared p)
    refine ⟨units, hdeepest, IsRoot.standsDeepest hindex hU hroot fun u => ?_⟩
    rw [mem_unitsOf hindex hshared, mem_unitsOf hindex hU, Finset.mem_union, and_or_left]
    refine or_congr_left ⟨fun hu => ⟨hunits u hu, mem_entriesOf.mpr ⟨u, hu, rfl⟩⟩, ?_⟩
    rintro ⟨hu, hentry⟩
    obtain ⟨v, hv, heq⟩ := mem_entriesOf.mp hentry
    rwa [← (hindex.entry u hu).2, ← heq, (hindex.entry v (hunits v hv)).2]
  | partitionFrontiers left right =>
    obtain ⟨A, hA⟩ := hroots left mem_cons_self
    obtain ⟨B, hB⟩ := hroots right (mem_cons_of_mem _ (mem_singleton_self right))
    refine (partitionRoots_runs h hA.holds hB.holds).bind fun parts t ht hle hparts =>
      Runs.pure ht ?_
    rw [← hle.height_eq] at hparts
    have hA' := hA.mono hle
    have hB' := hB.mono hle
    refine ⟨fun other hother => ?_, parts.1, parts.2.1, parts.2.2, rfl, fun A' B' hA'' hB'' => ?_⟩
    · rcases mem_cons.mp hother with rfl | hother
      · exact ⟨_, hA'.subset hparts.1 Finset.inter_subset_left⟩
      rcases mem_cons.mp hother with rfl | hother
      · exact ⟨_, hA'.subset hparts.2.1 Finset.sdiff_subset⟩
      · cases mem_singleton.mp hother
        exact ⟨_, hB'.subset hparts.2.2 Finset.sdiff_subset⟩
    · cases ht.toIsStore.unique hA'' hA'.holds
      cases ht.toIsStore.unique hB'' hB'.holds
      exact hparts

omit hindex in
/-- A call with a unit that is not in the forest changes nothing. -/
theorem call_unknown (h : IsAncestryIndex parents index) {call : FrontierCall}
    (hunknown : ¬call.Known parents) : ∃ e, (call.run index).run s = (.error e, s) := by
  cases call with
  | insertSource root source =>
    have hposition : index.position source = .error .incompleteOrigin := by
      refine if_neg ?_
      rw [h.parents_eq]
      exact hunknown
    have hinterval : index.interval source = .error .incompleteOrigin := by
      unfold SourceAncestryIndex.interval
      rw [hposition]
      rfl
    have hreading :
        (Store.reading fun _ : PersistentFrontierSets => index.interval source).run s =
          (.error .incompleteOrigin, s) := congrArg (·, s) hinterval
    exact ⟨_, Store.run_bind_error (Store.run_bind_error hreading)⟩
  | union left right => exact absurd trivial hunknown
  | intersection excluded left right =>
    cases hnew : SourceAncestorExclusions.new index excluded with
    | ok exclusions => exact absurd (excluded_known h hnew) hunknown
    | error e =>
      refine ⟨e, Store.run_bind_error (congrArg (·, s) hnew)⟩
  | partitionFrontiers left right => exact absurd trivial hunknown

end Calls

/-! ## Runs -/

/-- The store and the roots after some calls on roots that came before. -/
inductive FrontierReached (index : SourceAncestryIndex) (start : PersistentFrontierSets) :
    PersistentFrontierSets → List PersistentFrontierSetId → Prop
  | new : FrontierReached index start start [emptyId]
  | returned {s t : PersistentFrontierSets} {roots ids : List PersistentFrontierSetId}
      (call : FrontierCall) (h : FrontierReached index start s roots)
      (hroots : ∀ root ∈ call.roots, root ∈ roots) (hrun : (call.run index).run s = (.ok ids, t)) :
      FrontierReached index start t (ids ++ roots)
  | failed {s t : PersistentFrontierSets} {roots : List PersistentFrontierSetId}
      {e : ExpansionError} (call : FrontierCall) (h : FrontierReached index start s roots)
      (hroots : ∀ root ∈ call.roots, root ∈ roots) (hrun : (call.run index).run s = (.error e, t)) :
      FrontierReached index start t roots

section Reached

variable {start : PersistentFrontierSets} {roots : List PersistentFrontierSetId}
  (hindex : EntersUnits parents index)

include hindex

/-- A call keeps the store and its roots, and returns what it should or fails for a reason. -/
theorem call_step (h : s.IsFrontierStore parents index)
    (hroots : ∀ root ∈ roots, ∃ A, s.IsRoot index root A) {call : FrontierCall}
    (hcall : ∀ root ∈ call.roots, root ∈ roots) : ∃ result t,
      (call.run index).run s = (result, t) ∧ t.IsFrontierStore parents index ∧ s.Grows t ∧
        ((∃ ids, result = .ok ids ∧ (∀ root ∈ ids, ∃ A, t.IsRoot index root A) ∧
            call.Returns parents index t ids) ∨
          (∃ e, result = .error e) ∧ (t.Full ∨ t = s ∧ ¬call.Known parents)) := by
  by_cases hknown : call.Known parents
  · obtain ⟨result, t, hrun, ht, hle, hresult⟩ :=
      call_runs hindex h call (fun root hroot => hroots root (hcall root hroot)) hknown
    exact ⟨result, t, hrun, ht, hle, hresult.imp_right (And.imp_right .inl)⟩
  · obtain ⟨e, hrun⟩ := call_unknown (s := s) hindex.ancestry hknown
    exact ⟨_, s, hrun, h, Grows.refl s, .inr ⟨⟨e, rfl⟩, .inr ⟨rfl, hknown⟩⟩⟩

/-- By induction on the calls. -/
theorem FrontierReached.isFrontierStore (hstart : start.IsFrontierStore parents index)
    (h : FrontierReached index start s roots) :
    s.IsFrontierStore parents index ∧ ∀ root ∈ roots, ∃ A, s.IsRoot index root A := by
  induction h with
  | new => exact ⟨hstart, fun root hroot => ⟨∅, mem_singleton.mp hroot ▸ isRoot_empty⟩⟩
  | returned call h hroots hrun ih =>
    obtain ⟨result, t, hrun', ht, hle, hresult⟩ := call_step hindex ih.1 ih.2 hroots
    cases hrun.symm.trans hrun'
    refine ⟨ht, fun root hroot => ?_⟩
    rcases hresult with ⟨ids, hids, hnew, -⟩ | ⟨⟨e, he⟩, -⟩
    · cases hids
      rcases mem_append.mp hroot with hroot | hroot
      · exact hnew root hroot
      · obtain ⟨A, hA⟩ := ih.2 root hroot
        exact ⟨A, hA.mono hle⟩
    · cases he
  | failed call h hroots hrun ih =>
    obtain ⟨result, t, hrun', ht, hle, -⟩ := call_step hindex ih.1 ih.2 hroots
    cases hrun.symm.trans hrun'
    refine ⟨ht, fun root hroot => ?_⟩
    obtain ⟨A, hA⟩ := ih.2 root hroot
    exact ⟨A, hA.mono hle⟩

end Reached

/-- No unit of the list is below another one. -/
def IsAntichainOf (parents : List (Option SourceUnitId)) (units : List SourceUnitId) : Prop :=
  ∀ u ∈ units, ∀ v ∈ units, Within parents v u → v = u

/-- In whatever order sources are inserted and sets united, intersected and partitioned, a root
stands for one antichain and an antichain has one root, nodes know their sizes and first positions,
and the calls return what they should. -/
theorem frontierSets_canonical (parents : List (Option SourceUnitId)) (index : SourceAncestryIndex)
    (hparents : SourceAncestryIndex.fromParents parents = .ok index) :
    ∃ start, PersistentFrontierSets.new parents.length = .ok start ∧
      ∀ s roots, FrontierReached index start s roots →
        (∀ root ∈ roots, ∃ A, s.Stands root A ∧ (∀ p ∈ A, p < parents.length) ∧
          IsAntichainOf parents (unitsOf index A) ∧
          s.enumerate index root = .ok (unitsOf index A)) ∧
        (∀ a ∈ roots, ∀ b ∈ roots, ∀ A B, s.Stands a A → s.Stands b B → (a = b ↔ A = B)) ∧
        (∀ id node, s.nodeAt id = some node → ∃ A, s.Holds node.height id A ∧
          node.count = A.card ∧ IsLeast (A : Set Nat) node.first) ∧
        ∀ call : FrontierCall, (∀ root ∈ call.roots, root ∈ roots) → ∃ result t,
          (call.run index).run s = (result, t) ∧ (∀ root A, s.Stands root A → t.Stands root A) ∧
            ((∃ ids, result = .ok ids ∧ call.Returns parents index t ids) ∨
              (∃ e, result = .error e) ∧ (t.Full ∨ t = s ∧ ¬call.Known parents)) := by
  have hindex := entersUnits hparents
  obtain ⟨start, hstart, hstore⟩ := new_isFrontierStore hindex
  refine ⟨start, hstart, fun s roots hreached => ?_⟩
  obtain ⟨h, hroots⟩ := hreached.isFrontierStore hindex hstore
  refine ⟨fun root hroot => ?_, fun a _ b _ A B hA hB => ⟨?_, ?_⟩, h.nodes, fun call hcall => ?_⟩
  · obtain ⟨A, hA⟩ := hroots root hroot
    have hknown := IsRoot.known h hA
    refine ⟨A, hA.holds, hknown, fun u hu v hv hwithin => ?_, enumerate_root hindex h hA⟩
    obtain ⟨p, hp, rfl⟩ := mem_map.mp hu
    obtain ⟨q, hq, rfl⟩ := mem_map.mp hv
    have hp := mem_ascending.mp hp
    have hq := mem_ascending.mp hq
    rw [hA.antichain p hp q hq ((hindex.inside_iff (hknown p hp) (hknown q hq)).mpr hwithin)]
  · rintro rfl
    exact h.toIsStore.unique hA hB
  · rintro rfl
    exact h.toIsStore.injective hA hB
  · obtain ⟨result, t, hrun, -, hle, hresult⟩ := call_step hindex h hroots hcall
    refine ⟨result, t, hrun, fun root A hA => ?_, hresult.imp_left ?_⟩
    · show t.Holds t.height root A
      rw [hle.height_eq]
      exact hle.holds hA
    · rintro ⟨ids, hids, -, hreturns⟩
      exact ⟨ids, hids, hreturns⟩

/-- The sets of two units are united. -/
theorem frontierSets_canonical_small : ∃ index start s left right ids t,
    SourceAncestryIndex.fromParents smallForest = .ok index ∧
      PersistentFrontierSets.new smallForest.length = .ok start ∧
      FrontierReached index start s [right, left, emptyId] ∧
      ((FrontierCall.union left right).run index).run s = (.ok ids, t) ∧
      (FrontierCall.union left right).Returns smallForest index t ids := by
  have hok : (SourceAncestryIndex.fromParents smallForest >>= fun index =>
      PersistentFrontierSets.new smallForest.length >>= fun start =>
        let first := ((FrontierCall.insertSource emptyId ⟨3⟩).run index).run start
        first.1 >>= fun left =>
          let second := ((FrontierCall.insertSource emptyId ⟨2⟩).run index).run first.2
          second.1 >>= fun right =>
            (((FrontierCall.union (left.headD emptyId) (right.headD emptyId)).run index).run
              second.2).1).isOk = true := by
    decide +kernel
  cases hindex : SourceAncestryIndex.fromParents smallForest with
  | error e =>
    rw [hindex] at hok
    cases hok
  | ok index =>
    obtain ⟨start, hstart, hreached⟩ := frontierSets_canonical smallForest index hindex
    rw [hindex, hstart] at hok
    dsimp only [bind, Except.bind] at hok
    obtain ⟨_, s, hfirst, -, ⟨_, rfl, left, rfl, -⟩ | ⟨⟨e, rfl⟩, -⟩⟩ :=
      (hreached start [emptyId] .new).2.2.2 (.insertSource emptyId ⟨3⟩) fun _ h => h
    · rw [hfirst] at hok
      have hone := FrontierReached.returned (.insertSource emptyId ⟨3⟩) .new (fun _ h => h) hfirst
      obtain ⟨_, s', hsecond, -, ⟨_, rfl, right, rfl, -⟩ | ⟨⟨e, rfl⟩, -⟩⟩ :=
        (hreached s _ hone).2.2.2 (.insertSource emptyId ⟨2⟩) fun _ h => .tail _ h
      · dsimp only at hok
        rw [hsecond] at hok
        have htwo := FrontierReached.returned (.insertSource emptyId ⟨2⟩) hone
          (fun _ h => .tail _ h) hsecond
        obtain ⟨_, t, hrun, -, ⟨ids, rfl, hreturns⟩ | ⟨⟨e, rfl⟩, -⟩⟩ :=
          (hreached s' _ htwo).2.2.2 (.union left right) (by
            rintro root (_ | ⟨_, _ | ⟨_, ⟨⟩⟩⟩)
            · exact .tail _ (.head _)
            · exact .head _)
        · exact ⟨index, start, s', left, right, ids, t, rfl, hstart, htwo, hrun, hreturns⟩
        · dsimp only [headD_cons] at hok
          rw [hrun] at hok
          cases hok
      · dsimp only at hok
        rw [hsecond] at hok
        cases hok
    · rw [hfirst] at hok
      cases hok

end PersistentFrontierSets

end ItemDependencies
