import ItemDependencies.Expansion.SourceAncestryIndex

/-!
# Questions to the ancestry index

The intervals tell which units are below a unit, the jumps lead to the deepest common ancestor, and
one pass over units in the order of their entries leaves the deepest of them.
-/

namespace ItemDependencies

open Library List

variable {parents : List (Option SourceUnitId)} {index : SourceAncestryIndex} {u v w : SourceUnitId}
  {units : List SourceUnitId}

namespace IsAncestryIndex

variable (h : IsAncestryIndex parents index)

include h

theorem lt_of_within (hu : u.index < parents.length) (huv : Within parents u v) :
    v.index < parents.length := h.known.below_lt hu huv

theorem within_antisymm (huv : Within parents u v) (hvu : Within parents v u) : u = v := by
  have heq := below_antisymm h.depth huv hvu
  cases u
  cases v
  cases heq
  rfl

theorem covers_iff (hu : u.index < parents.length) (hv : v.index < parents.length) :
    index.covers u v = true ↔ Within parents v u := by
  obtain ⟨out, htraversal, hnodup, hall, hentry, hexit⟩ := h.order
  obtain ⟨k, hk⟩ := getElem?_of_mem ((hall _).mpr hu)
  obtain ⟨m, hm⟩ := getElem?_of_mem ((hall _).mpr hv)
  obtain ⟨below, -, hbelow, -⟩ := htraversal.drop_eq hk
  rw [SourceAncestryIndex.covers, SourceAncestryIndex.entryOf, SourceAncestryIndex.entryOf,
    hentry k _ hk, hentry m _ hm, hexit k _ below hk hbelow, Bool.and_eq_true, decide_eq_true_eq,
    decide_eq_true_eq, ← htraversal.reach_iff hnodup hk hm hbelow]
  exact reach_iff_below

theorem covers_trans (huv : index.covers u v = true) (hvw : index.covers v w = true) :
    index.covers u w = true := by
  have hlt : ∀ {a b : SourceUnitId}, index.covers a b = true → a.index < parents.length := by
    intro a b hab
    by_contra hge
    rw [SourceAncestryIndex.covers, (h.outside _ (not_lt.mp hge)).2] at hab
    simp at hab
  have hu := hlt huv
  have hv := hlt hvw
  rcases lt_or_ge w.index parents.length with hw | hw
  · rw [h.covers_iff hu hv] at huv
    rw [h.covers_iff hv hw] at hvw
    exact (h.covers_iff hu hw).mpr (hvw.trans huv)
  · -- a unit that is not known has the entry zero
    have hzero : index.entryOf w = 0 := (h.outside _ hw).1
    rw [SourceAncestryIndex.covers, Bool.and_eq_true, decide_eq_true_eq, decide_eq_true_eq]
      at huv hvw ⊢
    omega

/-- Units are told apart by their entries. -/
theorem eq_of_entryOf (hu : u.index < parents.length) (hv : v.index < parents.length)
    (heq : index.entryOf u = index.entryOf v) : u = v := by
  obtain ⟨out, -, -, hall, hentry, -⟩ := h.order
  obtain ⟨k, hk⟩ := getElem?_of_mem ((hall _).mpr hu)
  obtain ⟨m, hm⟩ := getElem?_of_mem ((hall _).mpr hv)
  rw [SourceAncestryIndex.entryOf, SourceAncestryIndex.entryOf, hentry k _ hk, hentry m _ hm] at heq
  rw [heq, hm] at hk
  cases u
  cases v
  exact congrArg SourceUnitId.mk (Option.some.inj hk).symm

theorem position_eq (hu : u.index < parents.length) : index.position u = .ok u.index := by
  rw [← h.parents_eq] at hu
  exact if_pos hu

theorem isAncestor_eq (hu : u.index < parents.length) (hv : v.index < parents.length) :
    index.isAncestor u v = .ok (index.covers u v) := by
  rw [SourceAncestryIndex.isAncestor, h.position_eq hu, h.position_eq hv]
  rfl

/-! ## Common ancestors -/

theorem depth_lt {i : Nat} (hi : i < parents.length) :
    index.depthAt i < 2 ^ index.jumps.length := by
  have hlt : index.depthAt i < (Finset.range parents.length).card :=
    depth_lt_card h.depth fun k => Finset.mem_range.mpr (h.known.below_lt hi (below_climb k i))
  rw [Finset.card_range] at hlt
  exact hlt.trans h.levels

theorem lift_eq {left right root : Nat} (hleft : left < parents.length)
    (hright : right < parents.length) (hle : index.depthAt right ≤ index.depthAt left)
    (hroot : parentPosition parents root = none) (hal : Below (parentPosition parents) left root)
    (har : Below (parentPosition parents) right root) :
    ∃ a, index.lift left right = .ok (some a) ∧
      IsLowest (parentPosition parents) left right a.index := by
  have hbits := liftBits_eq h.jump
    ((Nat.sub_le _ (index.depthAt right)).trans_lt (h.depth_lt hleft)) left
  rw [SourceAncestryIndex.lift, hbits]
  set high :=
    climb (parentPosition parents) (index.depthAt left - index.depthAt right) left with hhigh
  have hbelow : Below (parentPosition parents) left high := below_climb _ _
  by_cases heq : high = right
  · rw [if_pos heq]
    have hsmall : high < u32Size := (heq ▸ hright).trans_le h.small
    refine ⟨⟨high⟩, by rw [unitId_of_lt hsmall]; rfl, ?_⟩
    apply isLowest_climb h.depth hle
    rw [← hhigh, heq]
    exact isLowest_of_below .refl
  · have hdeep : index.depthAt high = index.depthAt right := by
      rw [hhigh, depth_climb h.depth]
      omega
    have hcommon : Below (parentPosition parents) high root := by
      rcases below_total hbelow hal with hup | hdown
      · exact hup
      · exact eq_of_below_root hroot hdown ▸ .refl
    obtain ⟨k, c, hk, hapart, hmeet, hparent, hlowest⟩ :=
      exists_meeting h.depth hdeep heq ⟨root, hcommon, har⟩
    have hlt := h.depth_lt (h.known.below_lt hleft hbelow)
    have hapartEq := liftApart_eq h.jump (hk.trans hlt) hapart hmeet
    refine ⟨⟨c⟩, ?_, isLowest_climb h.depth hle hlowest⟩
    rw [if_neg heq, hapartEq, h.parents_eq, parentPosition_eq_some.mp hparent]
    rfl

theorem lca_eq (hu : u.index < parents.length) (hv : v.index < parents.length) :
    (∃ a, index.lca u v = .ok (some a) ∧
      IsLowest (parentPosition parents) u.index v.index a.index) ∨
    index.lca u v = .ok none ∧ ∀ a, Within parents u a → ¬Within parents v a := by
  obtain ⟨left, hleft, hrootl, hbelowl⟩ := h.root _ hu
  obtain ⟨right, hright, hrootr, hbelowr⟩ := h.root _ hv
  rw [SourceAncestryIndex.lca, h.position_eq hu, h.position_eq hv]
  show (∃ a, (if index.roots[u.index]? ≠ index.roots[v.index]? then _ else _) = _ ∧ _) ∨
    (if index.roots[u.index]? ≠ index.roots[v.index]? then _ else _) = _ ∧ _
  by_cases heq : left = right
  · subst heq
    left
    rw [if_neg (not_not.mpr (hleft.trans hright.symm))]
    rcases lt_or_ge (index.depthAt u.index) (index.depthAt v.index) with hlt | hge
    · rw [if_pos hlt]
      obtain ⟨a, ha, hlowest⟩ := h.lift_eq hv hu hlt.le hrootl hbelowr hbelowl
      exact ⟨a, ha, hlowest.right, hlowest.left, fun d hd hd' => hlowest.lowest d hd' hd⟩
    · rw [if_neg hge.not_gt]
      exact h.lift_eq hu hv hge hrootl hbelowl hbelowr
  · right
    rw [hleft, hright, if_pos fun hsame => heq (Option.some.inj hsame)]
    refine ⟨rfl, fun a hua hva => heq ?_⟩
    -- the root above a common ancestor would be the root of both
    have habove : ∀ {x root : Nat}, parentPosition parents root = none →
        Below (parentPosition parents) x root → Below (parentPosition parents) x a.index →
          Below (parentPosition parents) a.index root := by
      intro x root hroot hxr hxa
      rcases below_total hxa hxr with hup | hdown
      · exact hup
      · exact eq_of_below_root hroot hdown ▸ .refl
    have hsame := roots_disjoint hrootl hrootr (habove hrootl hbelowl hua)
      (habove hrootr hbelowr hva)
    cases left
    cases right
    exact congrArg SourceUnitId.mk hsame

/-! ## The deepest units -/

/-- Units that are given once are strictly sorted. -/
theorem sortByEntry_sorted (hunits : ∀ u ∈ units, u.index < parents.length) (hnodup : units.Nodup) :
    (index.sortByEntry units).Pairwise fun a b => index.entryOf a < index.entryOf b := by
  have hnodup' : (index.sortByEntry units).Nodup :=
    (perm_insertionSort _ _).nodup_iff.mpr hnodup
  refine ((pairwise_insertionSort_key index.entryOf _).and hnodup').imp_of_mem
    fun {a b} ha hb hab => lt_of_le_of_ne hab.1 fun heq => hab.2 ?_
  exact h.eq_of_entryOf (hunits a ((mem_insertionSort _).mp ha))
    (hunits b ((mem_insertionSort _).mp hb)) heq

theorem orderUnits_spec (hunits : ∀ u ∈ units, u.index < parents.length) :
    (index.orderUnits units).Pairwise (fun a b => index.entryOf a < index.entryOf b) ∧
      ∀ u, u ∈ index.orderUnits units ↔ u ∈ units := by
  have hmem : ∀ u, u ∈ index.sortByEntry units ↔ u ∈ units := fun u => mem_insertionSort _
  obtain ⟨hsorted, hordered⟩ := destutter_sorted (pairwise_insertionSort_key index.entryOf units)
    fun a ha b hb heq => h.eq_of_entryOf (hunits a ((hmem a).mp ha)) (hunits b ((hmem b).mp hb)) heq
  exact ⟨hsorted, fun u => (hordered u).trans (hmem u)⟩

end IsAncestryIndex

/-- The deepest of some units, in the order of their entries. -/
def IsDeepest (parents : List (Option SourceUnitId)) (index : SourceAncestryIndex)
    (units : SourceUnitId → Prop) (deepest : List SourceUnitId) : Prop :=
  deepest.Pairwise (fun a b => index.entryOf a < index.entryOf b) ∧
    ∀ u, u ∈ deepest ↔ units u ∧ ∀ v, units v → Within parents v u → v = u

theorem IsDeepest.unique {units : SourceUnitId → Prop} {l l' : List SourceUnitId}
    (h : IsDeepest parents index units l) (h' : IsDeepest parents index units l') : l = l' := by
  have hnodup : ∀ {m : List SourceUnitId},
      m.Pairwise (fun a b => index.entryOf a < index.entryOf b) → m.Nodup := fun hm =>
    hm.imp fun {a b} hlt heq => absurd (congrArg index.entryOf heq) hlt.ne
  have hperm : l.Perm l' := (perm_ext_iff_of_nodup (hnodup h.1) (hnodup h'.1)).mpr fun u =>
    (h.2 u).trans (h'.2 u).symm
  exact hperm.eq_of_pairwise (fun _ _ _ _ hab hba => absurd hab hba.not_gt) h.1 h'.1

namespace IsAncestryIndex

variable (h : IsAncestryIndex parents index)

include h

/-- The stack after some units: the deepest of them, the last one first. -/
theorem pushDeepest_spec (rest done deepest : List SourceUnitId)
    (hknown : ∀ u ∈ done ++ rest, u.index < parents.length)
    (hsorted : (done ++ rest).Pairwise fun a b => index.entryOf a < index.entryOf b)
    (hdeepest : IsDeepest parents index (· ∈ done) deepest.reverse) :
    IsDeepest parents index (· ∈ done ++ rest) (rest.foldl index.pushDeepest deepest).reverse := by
  induction rest generalizing done deepest with
  | nil =>
    rw [append_nil]
    exact hdeepest
  | cons w rest ih =>
    rw [append_cons] at hknown hsorted ⊢
    refine ih _ _ hknown hsorted ?_
    obtain ⟨horder, hmem⟩ := hdeepest
    have hlt : ∀ u ∈ done, index.entryOf u < index.entryOf w := fun u hu =>
      (pairwise_append.mp (pairwise_append.mp hsorted).1).2.2 u hu w mem_cons_self
    have hwknown : w.index < parents.length := hknown w (by simp)
    have hdone : ∀ u ∈ done, u.index < parents.length := fun u hu => hknown u (by simp [hu])
    have hnotBelow : ∀ u ∈ done, ¬Within parents u w := by
      intro u hu huw
      have hcovers := (h.covers_iff hwknown (hdone u hu)).mpr huw
      rw [SourceAncestryIndex.covers, Bool.and_eq_true, decide_eq_true_eq] at hcovers
      exact (hlt u hu).not_ge hcovers.1
    have hin : ∀ {u}, u ∈ deepest → u ∈ done := fun hu =>
      ((hmem _).mp (mem_reverse.mpr hu)).1
    -- only the unit on top can be above the new one
    have hpart : Partitioned (index.covers · w) deepest := by
      refine (pairwise_reverse.mp horder).imp_of_mem fun {a b} ha hb hab hcovers => ?_
      replace hcovers : index.covers b w = true := hcovers
      have hinside : index.covers b a = true := by
        rw [SourceAncestryIndex.covers, Bool.and_eq_true, decide_eq_true_eq,
          decide_eq_true_eq] at hcovers ⊢
        exact ⟨hab.le, (hlt a (hin ha)).trans hcovers.2⟩
      have hbelow := (h.covers_iff (hdone b (hin hb)) (hdone a (hin ha))).mp hinside
      have heq := ((hmem b).mp (mem_reverse.mpr hb)).2 a (hin ha) hbelow
      exact absurd (congrArg index.entryOf heq) hab.ne'
    rw [SourceAncestryIndex.pushDeepest, reverse_cons]
    refine ⟨pairwise_append.mpr ⟨?_, pairwise_singleton _ _, fun u hu v hv => ?_⟩,
      fun u => ?_⟩
    · exact horder.sublist (reverse_sublist.mpr (dropWhile_suffix _).sublist)
    · cases mem_singleton.mp hv
      exact hlt u (hin ((mem_dropWhile_iff hpart).mp (mem_reverse.mp hu)).1)
    · rw [mem_append, mem_reverse, mem_dropWhile_iff hpart, mem_singleton, ← mem_reverse, hmem]
      constructor
      · rintro (⟨⟨hu, hleast⟩, hcovers⟩ | rfl)
        · refine ⟨by simp [hu], fun v hv hvu => ?_⟩
          rcases mem_append.mp hv with hv | hv
          · exact hleast v hv hvu
          · cases mem_singleton.mp hv
            rw [(h.covers_iff (hdone u hu) hwknown).mpr hvu] at hcovers
            cases hcovers
        · refine ⟨by simp, fun v hv hvu => ?_⟩
          rcases mem_append.mp hv with hv | hv
          · exact absurd hvu (hnotBelow v hv)
          · exact mem_singleton.mp hv
      · rintro ⟨hu, hleast⟩
        rcases mem_append.mp hu with hu | hu
        · refine .inl ⟨⟨hu, fun v hv => hleast v (by simp [hv])⟩, ?_⟩
          rw [← Bool.not_eq_true, h.covers_iff (hdone u hu) hwknown]
          intro hwu
          have heq := hleast w (by simp) hwu
          exact absurd (congrArg index.entryOf heq) (hlt u hu).ne'
        · exact .inr (mem_singleton.mp hu)

theorem deepestAntichain_eq (hunits : ∀ u ∈ units, u.index < parents.length) :
    ∃ deepest, index.deepestAntichain units = .ok deepest ∧
      IsDeepest parents index (· ∈ units) deepest := by
  have hcheck : (units.forM fun unit => discard (index.position unit)) = .ok ⟨⟩ := by
    refine forM_ok.mpr fun u hu => ?_
    rw [h.position_eq (hunits u hu)]
    rfl
  obtain ⟨hsorted, hmem⟩ := h.orderUnits_spec hunits
  have hspec := h.pushDeepest_spec (index.orderUnits units) [] []
    (fun u hu => hunits u ((hmem u).mp hu)) hsorted ⟨.nil, by simp⟩
  refine ⟨_, by rw [SourceAncestryIndex.deepestAntichain, hcheck]; rfl, hspec.1, fun u => ?_⟩
  rw [hspec.2]
  simp only [nil_append, hmem]

end IsAncestryIndex

end ItemDependencies
