import ItemDependencies.Expansion.SourceAncestryQueries
import Mathlib.Data.List.ReduceOption

/-!
# Intersecting frontiers

A frontier stands for all units above its own.  What two frontiers have in common is found among
their units and the common ancestors of those that follow each other in preorder, and one pass from
the last of them to the first tells which of them have a common unit below.
-/

namespace ItemDependencies

open Library List

variable {parents : List (Option SourceUnitId)} {index : SourceAncestryIndex}
  {left right excluded : List SourceUnitId} {exclusions : SourceAncestorExclusions}
  {pass : FrontierPass} {colored nodes units : List SourceUnitId}

/-- A unit of the list is the unit or below it. -/
def Reaches (parents : List (Option SourceUnitId)) (units : List SourceUnitId)
    (unit : SourceUnitId) : Prop := ∃ u ∈ units, Within parents u unit

/-- The units above a unit of each of the two lists. -/
def IsCommon (parents : List (Option SourceUnitId)) (left right : List SourceUnitId)
    (unit : SourceUnitId) : Prop := Reaches parents left unit ∧ Reaches parents right unit

theorem Reaches.mono {u v : SourceUnitId} (h : Reaches parents units u) (huv : Within parents u v) :
    Reaches parents units v := by
  obtain ⟨w, hw, hwu⟩ := h
  exact ⟨w, hw, hwu.trans huv⟩

/-! ## Excluded units -/

theorem anyM_ok {α ε : Type} {f : α → Except ε Bool} {g : α → Bool} {l : List α}
    (h : ∀ a ∈ l, f a = .ok (g a)) : l.anyM f = .ok (l.any g) := by
  induction l with
  | nil => rfl
  | cons a l ih =>
    rw [List.anyM, h a mem_cons_self, any_cons]
    cases g a with
    | true => rfl
    | false => exact ih fun b hb => h b (mem_cons_of_mem _ hb)

/-- The exclusions know the units that are above one of theirs. -/
def Excludes (parents : List (Option SourceUnitId)) (exclusions : SourceAncestorExclusions)
    (units : List SourceUnitId) : Prop :=
  ∀ u : SourceUnitId, u.index < parents.length → ∃ answer, exclusions.contains u = .ok answer ∧
    (answer = true ↔ Reaches parents units u)

section Index

variable (h : IsAncestryIndex parents index)

include h

theorem exclusions_new (hexcluded : ∀ u ∈ excluded, u.index < parents.length) :
    ∃ exclusions, SourceAncestorExclusions.new index excluded = .ok exclusions ∧
      Excludes parents exclusions excluded := by
  have hcheck : (excluded.forM fun unit => discard (index.position unit)) = .ok ⟨⟩ := by
    refine forM_ok.mpr fun u hu => ?_
    rw [h.position_eq (hexcluded u hu)]
    rfl
  refine ⟨⟨index, sortDedup excluded⟩, by rw [SourceAncestorExclusions.new, hcheck]; rfl,
    fun u hu => ⟨_, anyM_ok fun d hd => h.isAncestor_eq hu (hexcluded d (mem_sortDedup.mp hd)), ?_⟩⟩
  rw [any_eq_true]
  constructor
  · rintro ⟨d, hd, hcovers⟩
    have hd := mem_sortDedup.mp hd
    exact ⟨d, hd, (h.covers_iff hu (hexcluded d hd)).mp hcovers⟩
  · rintro ⟨d, hd, hwithin⟩
    exact ⟨d, mem_sortDedup.mpr hd, (h.covers_iff hu (hexcluded d hd)).mpr hwithin⟩

/-! ## Colours -/

def colorOf (colored : SortedMap SourceUnitId FrontierMask) (unit : SourceUnitId) : FrontierMask :=
  (colored.get unit).getD .uncolored

theorem colorUnits_total (mask : FrontierMask) (colored : SortedMap SourceUnitId FrontierMask)
    (hunits : ∀ u ∈ units, u.index < parents.length) :
    ∃ result, units.foldlM (index.colorUnit mask) colored = .ok result ∧
      (∀ u, u ∈ result.keys ↔ u ∈ colored.keys ∨ u ∈ units) ∧
      ∀ u, ((colorOf result u).left = true ↔
          (colorOf colored u).left = true ∨ mask.left = true ∧ u ∈ units) ∧
        ((colorOf result u).right = true ↔
          (colorOf colored u).right = true ∨ mask.right = true ∧ u ∈ units) := by
  refine foldlM_total (f := index.colorUnit mask) (l := units) (s := colored)
    (P := fun done result => (∀ u, u ∈ result.keys ↔ u ∈ colored.keys ∨ u ∈ done) ∧
      ∀ u, ((colorOf result u).left = true ↔
          (colorOf colored u).left = true ∨ mask.left = true ∧ u ∈ done) ∧
        ((colorOf result u).right = true ↔
          (colorOf colored u).right = true ∨ mask.right = true ∧ u ∈ done))
    (fun done u rest result hsplit hresult => ?_) (by simp)
  have hu : u.index < parents.length := hunits u (by simp [hsplit])
  refine ⟨result.insert u ((colorOf result u).join mask), ?_, fun v => ?_, fun v => ?_⟩
  · rw [SourceAncestryIndex.colorUnit, h.position_eq hu]
    rfl
  · rw [SortedMap.mem_keys_insert, hresult.1, mem_append, mem_singleton, or_comm, or_assoc]
  · have hget : colorOf (result.insert u ((colorOf result u).join mask)) v =
        if v = u then (colorOf result u).join mask else colorOf result v := by
      rw [colorOf, SortedMap.get_insert]
      split <;> rfl
    rw [hget, mem_append, mem_singleton]
    split
    case isTrue heq =>
      subst heq
      obtain ⟨hleft, hright⟩ := hresult.2 v
      have habsorb : ∀ {a b : Prop}, (a ∧ b) ∨ a ↔ a := or_iff_right_of_imp And.left
      simp only [FrontierMask.join, Bool.or_eq_true, hleft, hright, or_assoc, or_true, and_true,
        habsorb, and_self]
    case isFalse hne =>
      obtain ⟨hleft, hright⟩ := hresult.2 v
      rw [hleft, hright]
      simp only [hne, or_false, and_self]

/-! ## Nodes -/

/-- The nodes are in preorder, and with two neighbours among the units with a colour they have the
deepest common ancestor. -/
structure FrontierNodes (parents : List (Option SourceUnitId)) (index : SourceAncestryIndex)
    (colored nodes : List SourceUnitId) : Prop where
  known : ∀ u ∈ nodes, u.index < parents.length
  sorted : nodes.Pairwise fun a b => index.entryOf a < index.entryOf b
  subset : colored ⊆ nodes
  lowest : ∀ pair ∈ neighbours colored, ∀ a : SourceUnitId,
    IsLowest (parentPosition parents) pair.1.index pair.2.index a.index → a ∈ nodes

theorem frontierNodes_total {colored : List SourceUnitId}
    (hknown : ∀ u ∈ colored, u.index < parents.length) :
    ∃ nodes, index.frontierNodes colored = .ok nodes ∧
      FrontierNodes parents index colored nodes := by
  have hmem : ∀ pair ∈ neighbours colored, pair.1 ∈ colored ∧ pair.2 ∈ colored := by
    rintro ⟨a, b⟩ hpair
    exact ⟨(of_mem_zip hpair).1, mem_of_mem_tail (of_mem_zip hpair).2⟩
  have hlca : ∀ pair ∈ neighbours colored, ∃ answer, index.lca pair.1 pair.2 = .ok answer ∧
      (∀ a ∈ answer, a.index < parents.length) ∧
      ∀ a : SourceUnitId,
        IsLowest (parentPosition parents) pair.1.index pair.2.index a.index → answer = some a := by
    intro pair hpair
    obtain ⟨hfirst, hsecond⟩ := hmem pair hpair
    rcases h.lca_eq (hknown _ hfirst) (hknown _ hsecond) with ⟨a, ha, hlowest⟩ | ⟨hnone, hapart⟩
    · refine ⟨some a, ha, fun b hb => ?_, fun b hb => ?_⟩
      · cases hb
        exact h.lt_of_within (hknown _ hfirst) hlowest.left
      · have heq := IsLowest.unique h.depth hlowest hb
        cases a
        cases b
        cases heq
        rfl
    · exact ⟨none, hnone, by simp, fun a ha => absurd ha.right (hapart a ha.left)⟩
  obtain ⟨lcas, hall⟩ := exists_forall₂ hlca
  have hunits : ∀ u ∈ colored ++ lcas.reduceOption, u.index < parents.length := by
    intro u hu
    rcases mem_append.mp hu with hu | hu
    · exact hknown u hu
    · obtain ⟨k, hk⟩ := getElem?_of_mem (reduceOption_mem_iff.mp hu)
      obtain ⟨pair, -, hpair⟩ := getElem?_of_forall₂_right hall hk
      exact hpair.2.1 u rfl
  obtain ⟨hsorted, hnodes⟩ := h.orderUnits_spec hunits
  refine ⟨_, ?_, fun u hu => hunits u ((hnodes u).mp hu), hsorted, fun u hu => ?_,
    fun pair hpair a ha => ?_⟩
  · rw [SourceAncestryIndex.frontierNodes, mapM_total (hall.imp fun _ _ hpair => hpair.1)]
    rfl
  · exact (hnodes u).mpr (mem_append_left _ hu)
  · obtain ⟨k, hk⟩ := getElem?_of_mem hpair
    obtain ⟨answer, hanswer, hfound⟩ := getElem?_of_forall₂ hall hk
    cases hfound.2.2 a ha
    exact (hnodes a).mpr (mem_append_right _ (reduceOption_mem_iff.mpr (mem_of_getElem? hanswer)))

/-- Below each common unit there is a node that is common. -/
theorem exists_common_node {x : SourceUnitId} (hknown : ∀ u ∈ colored, u.index < parents.length)
    (hsorted : colored.Pairwise fun a b => index.entryOf a < index.entryOf b)
    (hmem : ∀ u, u ∈ colored ↔ u ∈ left ∨ u ∈ right)
    (hnodes : FrontierNodes parents index colored nodes) (hx : IsCommon parents left right x) :
    ∃ z ∈ nodes, IsCommon parents left right z ∧ Within parents z x := by
  obtain ⟨⟨l, hl, hlx⟩, ⟨r, hr, hrx⟩⟩ := hx
  have hxknown := h.lt_of_within (hknown l ((hmem l).mpr (.inl hl))) hlx
  -- what lies between two units below a unit is below it
  have hbetween : ∀ {i j k : Nat} {a b c : SourceUnitId}, colored[i]? = some a →
      colored[j]? = some b → colored[k]? = some c → i ≤ k → k ≤ j → Within parents a x →
        Within parents b x → Within parents c x := by
    intro i j k a b c ha hb hc hik hkj hax hbx
    have hle : ∀ {m n : Nat} {p q : SourceUnitId}, colored[m]? = some p → colored[n]? = some q →
        m ≤ n → index.entryOf p ≤ index.entryOf q := by
      intro m n p q hp hq hmn
      obtain ⟨hm, rfl⟩ := List.getElem?_eq_some_iff.mp hp
      obtain ⟨hn, rfl⟩ := List.getElem?_eq_some_iff.mp hq
      rcases hmn.eq_or_lt with rfl | hlt
      · exact le_rfl
      · exact (pairwise_iff_getElem.mp hsorted m n hm hn hlt).le
    have hac := hle ha hc hik
    have hcb := hle hc hb hkj
    rw [← h.covers_iff hxknown (hknown _ (mem_of_getElem? ‹_›)), SourceAncestryIndex.covers,
      Bool.and_eq_true, decide_eq_true_eq, decide_eq_true_eq] at hax hbx ⊢
    exact ⟨hax.1.trans hac, hcb.trans_lt hbx.2⟩
  -- two neighbours below the unit, one from each list, have a common ancestor below it
  have hpair : ∀ {k : Nat} {c d : SourceUnitId}, colored[k]? = some c → colored[k + 1]? = some d →
      Within parents c x → Within parents d x → ∃ z ∈ nodes, Within parents c z ∧
        Within parents d z ∧ Within parents z x := by
    intro k c d hc hd hcx hdx
    rcases h.lca_eq (hknown c (mem_of_getElem? hc)) (hknown d (mem_of_getElem? hd)) with
      ⟨z, -, hlowest⟩ | ⟨-, hapart⟩
    · exact ⟨z, hnodes.lowest _ (mem_neighbours_of_getElem? hc hd) z hlowest, hlowest.left,
        hlowest.right, hlowest.lowest _ hcx hdx⟩
    · exact absurd hdx (hapart x hcx)
  obtain ⟨i, hi⟩ := getElem?_of_mem ((hmem l).mpr (.inl hl))
  obtain ⟨j, hj⟩ := getElem?_of_mem ((hmem r).mpr (.inr hr))
  wlog hij : i ≤ j generalizing left right l r i j
  · obtain ⟨z, hz, hcommon, hzx⟩ :=
      this (fun u => (hmem u).trans or_comm) r hr hrx l hl hlx j hj i hi (le_of_not_ge hij)
    exact ⟨z, hz, ⟨hcommon.right, hcommon.left⟩, hzx⟩
  rcases exists_meeting_neighbours (P := (· ∈ left)) (Q := (· ∈ right))
    (fun u hu => (hmem u).mp hu) hij hi hl hj hr with
    ⟨k, c, hik, hkj, hc, hcl, hcr⟩ | ⟨k, c, d, hik, hkj, hc, hd, hcl, hdr⟩
  · exact ⟨c, hnodes.subset (mem_of_getElem? hc), ⟨⟨c, hcl, .refl⟩, ⟨c, hcr, .refl⟩⟩,
      hbetween hi hj hc hik hkj hlx hrx⟩
  · obtain ⟨z, hz, hcz, hdz, hzx⟩ := hpair hc hd (hbetween hi hj hc hik hkj.le hlx hrx)
      (hbetween hi hj hd (hik.trans (Nat.le_succ k)) hkj hlx hrx)
    exact ⟨z, hz, ⟨⟨c, hcl, hcz⟩, ⟨d, hdr, hdz⟩⟩, hzx⟩

/-! ## The pass over the nodes -/

/-- The forest of the nodes. -/
structure NodeForest (parents : List (Option SourceUnitId)) (nodes : List SourceUnitId)
    (above : List (Option Nat)) : Prop where
  length : above.length = nodes.length
  lt : ∀ i p, Up (parentAt above) i p → p < i
  below_iff : ∀ (i j : Nat) (x y : SourceUnitId), nodes[i]? = some x → nodes[j]? = some y →
    (Relation.TransGen (Up (parentAt above)) j i ↔ Within parents y x ∧ y ≠ x)

theorem nodeParents_forest (hnodes : FrontierNodes parents index colored nodes) :
    NodeForest parents nodes (index.nodeParents nodes) := by
  let before (a b : SourceUnitId) : Prop := (a.index < parents.length ∧ b.index < parents.length) ∧
    index.entryOf a < index.entryOf b
  have horder : NestingOrder before (fun a b => !index.covers a b) index.covers := by
    refine ⟨fun {a b c} hab hbc hclosed => ?_, fun {a b c} hab hbc hcovers hclosed => ?_,
      h.covers_trans, fun {a b} _ hcovers => by rw [hcovers]; rfl⟩
    · rw [Bool.not_eq_true', ← Bool.not_eq_true] at hclosed ⊢
      intro hac
      rw [SourceAncestryIndex.covers, Bool.and_eq_true, decide_eq_true_eq,
        decide_eq_true_eq] at hac hclosed
      exact hclosed ⟨hab.2.le, hbc.2.trans hac.2⟩
    · rw [Bool.not_eq_true', ← Bool.not_eq_true] at hclosed ⊢
      exact fun hbc' => hclosed (h.covers_trans hcovers hbc')
  have hsorted : nodes.Pairwise before := hnodes.sorted.imp_of_mem fun ha hb hlt =>
    ⟨⟨hnodes.known _ ha, hnodes.known _ hb⟩, hlt⟩
  obtain ⟨hspec, htotal⟩ := nestingParents_eq_some horder hsorted
  obtain ⟨above, habove⟩ := htotal.mpr <| pairwise_iff_getElem.mpr fun i j hi hj _ => by
    cases index.covers nodes[i] nodes[j] <;> simp
  have heq : index.nodeParents nodes = above := by
    rw [SourceAncestryIndex.nodeParents, habove]
    rfl
  have hnesting := hspec above habove
  rw [heq]
  refine ⟨hnesting.length, fun i p => hnesting.parent_lt, fun i j x y hx hy => ?_⟩
  rw [hnesting.above_iff horder hsorted]
  have hxknown := hnodes.known x (mem_of_getElem? hx)
  have hyknown := hnodes.known y (mem_of_getElem? hy)
  constructor
  · rintro ⟨hij, a, b, ha, hb, hcovers⟩
    cases hx.symm.trans ha
    cases hy.symm.trans hb
    refine ⟨(h.covers_iff hxknown hyknown).mp hcovers, ?_⟩
    rintro rfl
    obtain ⟨hi, hix⟩ := List.getElem?_eq_some_iff.mp hx
    obtain ⟨hj, hjx⟩ := List.getElem?_eq_some_iff.mp hy
    have hlt := pairwise_iff_getElem.mp hnodes.sorted i j hi hj hij
    rw [hix, hjx] at hlt
    exact lt_irrefl _ hlt
  · rintro ⟨hwithin, hne⟩
    have hcovers := (h.covers_iff hxknown hyknown).mpr hwithin
    refine ⟨?_, x, y, hx, hy, hcovers⟩
    rw [SourceAncestryIndex.covers, Bool.and_eq_true, decide_eq_true_eq] at hcovers
    by_contra hge
    obtain ⟨hi, hix⟩ := List.getElem?_eq_some_iff.mp hx
    obtain ⟨hj, hjy⟩ := List.getElem?_eq_some_iff.mp hy
    rcases (not_lt.mp hge).eq_or_lt with heq | hlt
    · subst heq
      exact hne (Option.some.inj (hy.symm.trans hx))
    · have hlt := pairwise_iff_getElem.mp hnodes.sorted j i hj hi hlt
      rw [hix, hjy] at hlt
      exact hlt.not_ge hcovers.1

end Index

section Pass

variable {nodes : List SourceUnitId} {above : List (Option Nat)} {i : Nat} {x : SourceUnitId}

/-- Something reaches a node if it has the colour itself or reaches a node right below. -/
theorem NodeForest.reaches_iff (hforest : NodeForest parents nodes above)
    (hsub : ∀ u ∈ units, u ∈ nodes) (hx : nodes[i]? = some x) :
    Reaches parents units x ↔ x ∈ units ∨ ∃ (c : Nat) (y : SourceUnitId),
      Up (parentAt above) c i ∧ nodes[c]? = some y ∧ Reaches parents units y := by
  constructor
  · rintro ⟨u, hu, hux⟩
    rcases eq_or_ne u x with rfl | hne
    · exact .inl hu
    right
    obtain ⟨j, hj⟩ := getElem?_of_mem (hsub u hu)
    obtain ⟨c, hjc, hup⟩ :=
      Relation.TransGen.tail'_iff.mp ((hforest.below_iff i j x u hx hj).mpr ⟨hux, hne⟩)
    obtain ⟨y, hy⟩ : ∃ y, nodes[c]? = some y :=
      ⟨_, getElem?_eq_getElem (hforest.length ▸ lt_length_of_up hup)⟩
    refine ⟨c, y, hup, hy, u, hu, ?_⟩
    rcases Relation.reflTransGen_iff_eq_or_transGen.mp hjc with rfl | hbelow
    · cases hj.symm.trans hy
      exact .refl
    · exact ((hforest.below_iff c j y u hy hj).mp hbelow).1
  · rintro (hmem | ⟨c, y, hup, hy, hreach⟩)
    · exact ⟨x, hmem, .refl⟩
    · exact hreach.mono ((hforest.below_iff i c x y hx hy).mp (.single hup)).1

/-- The pass when the nodes from a position on have passed on what they have. -/
structure PassedFrom (parents : List (Option SourceUnitId))
    (left right excluded nodes : List SourceUnitId) (above : List (Option Nat)) (m : Nat)
    (pass : FrontierPass) : Prop where
  masks_length : pass.masks.length = nodes.length
  common_length : pass.hasCommonChild.length = nodes.length
  leftMask : ∀ (i : Nat) (x : SourceUnitId), nodes[i]? = some x →
    ((pass.masks[i]?.getD .uncolored).left = true ↔ x ∈ left ∨ ∃ (c : Nat) (y : SourceUnitId),
      m ≤ c ∧ Up (parentAt above) c i ∧ nodes[c]? = some y ∧ Reaches parents left y)
  rightMask : ∀ (i : Nat) (x : SourceUnitId), nodes[i]? = some x →
    ((pass.masks[i]?.getD .uncolored).right = true ↔ x ∈ right ∨ ∃ (c : Nat) (y : SourceUnitId),
      m ≤ c ∧ Up (parentAt above) c i ∧ nodes[c]? = some y ∧ Reaches parents right y)
  common : ∀ i : Nat, pass.hasCommonChild[i]?.getD false = true ↔
    ∃ (c : Nat) (y : SourceUnitId), m ≤ c ∧ Up (parentAt above) c i ∧ nodes[c]? = some y ∧
      IsCommon parents left right y
  nodup : pass.result.Nodup
  result : ∀ u, u ∈ pass.result ↔ ∃ i : Nat, m ≤ i ∧ nodes[i]? = some u ∧
    IsCommon parents left right u ∧ (∀ (c : Nat) (y : SourceUnitId), Up (parentAt above) c i →
      nodes[c]? = some y → ¬IsCommon parents left right y) ∧ ¬Reaches parents excluded u

/-- What is passed on by the nodes from a position on. -/
theorem exists_from_iff {Q : Nat → SourceUnitId → Prop} {m : Nat} {y : SourceUnitId}
    (hy : nodes[m]? = some y) :
    (∃ (c : Nat) (z : SourceUnitId), m ≤ c ∧ Up (parentAt above) c i ∧ nodes[c]? = some z ∧ Q c z) ↔
      (Up (parentAt above) m i ∧ Q m y) ∨ ∃ (c : Nat) (z : SourceUnitId),
        m + 1 ≤ c ∧ Up (parentAt above) c i ∧ nodes[c]? = some z ∧ Q c z := by
  constructor
  · rintro ⟨c, z, hc, hup, hz, hQ⟩
    rcases hc.eq_or_lt with rfl | hlt
    · cases hy.symm.trans hz
      exact .inl ⟨hup, hQ⟩
    · exact .inr ⟨c, z, hlt, hup, hz, hQ⟩
  · rintro (⟨hup, hQ⟩ | ⟨c, z, hc, hrest⟩)
    · exact ⟨m, y, le_rfl, hup, hy, hQ⟩
    · exact ⟨c, z, by omega, hrest⟩

/-- All children of a node have passed on what they have when it is visited. -/
theorem NodeForest.exists_from (hforest : NodeForest parents nodes above)
    {Q : Nat → SourceUnitId → Prop} :
    (∃ (c : Nat) (z : SourceUnitId), i + 1 ≤ c ∧ Up (parentAt above) c i ∧ nodes[c]? = some z ∧
      Q c z) ↔
      ∃ (c : Nat) (z : SourceUnitId), Up (parentAt above) c i ∧ nodes[c]? = some z ∧ Q c z := by
  constructor
  · rintro ⟨c, z, -, hrest⟩
    exact ⟨c, z, hrest⟩
  · rintro ⟨c, z, hup, hrest⟩
    exact ⟨c, z, hforest.lt c i hup, hup, hrest⟩

/-- A node is taken if it is common, nothing below it is, and it is not excluded. -/
theorem PassedFrom.skipsNode_eq (hforest : NodeForest parents nodes above)
    (hexcludes : Excludes parents exclusions excluded) (hx' : x.index < parents.length) {m : Nat}
    (h : PassedFrom parents left right excluded nodes above (m + 1) pass)
    (hcommon : (pass.masks[m]?.getD .uncolored).isCommon = true ↔ IsCommon parents left right x) :
    ∃ skipped, SourceAncestryIndex.skipsNode exclusions pass (x, m) = .ok skipped ∧
      (skipped = false ↔ IsCommon parents left right x ∧
        (∀ (c : Nat) (y : SourceUnitId), Up (parentAt above) c m → nodes[c]? = some y →
          ¬IsCommon parents left right y) ∧ ¬Reaches parents excluded x) := by
  have hchild : pass.hasCommonChild[m]?.getD false = true ↔ ∃ (c : Nat) (y : SourceUnitId),
      Up (parentAt above) c m ∧ nodes[c]? = some y ∧ IsCommon parents left right y := by
    rw [h.common, hforest.exists_from]
  have hasked : ((pass.masks[m]?.getD .uncolored).isCommon &&
      !pass.hasCommonChild[m]?.getD false) = true ↔ IsCommon parents left right x ∧
        ∀ (c : Nat) (y : SourceUnitId), Up (parentAt above) c m → nodes[c]? = some y →
          ¬IsCommon parents left right y := by
    rw [Bool.and_eq_true, hcommon, Bool.not_eq_true', ← Bool.not_eq_true, hchild]
    simp only [not_exists, not_and]
  obtain ⟨answer, hanswer, hreach⟩ := hexcludes x hx'
  rw [← and_assoc, ← hasked, ← hreach, SourceAncestryIndex.skipsNode]
  cases (pass.masks[m]?.getD .uncolored).isCommon && !pass.hasCommonChild[m]?.getD false with
  | true => exact ⟨answer, hanswer, by simp⟩
  | false => exact ⟨true, rfl, by simp⟩

/-- The result once one more node is taken or left out. -/
theorem result_step {R : Nat → SourceUnitId → Prop} {m : Nat} {result : List SourceUnitId}
    {skipped : Bool} (hnodes : nodes.Nodup) (hx : nodes[m]? = some x)
    (hnodup : result.Nodup)
    (hmem : ∀ u, u ∈ result ↔ ∃ i : Nat, m + 1 ≤ i ∧ nodes[i]? = some u ∧ R i u)
    (hskipped : skipped = false ↔ R m x) :
    (if skipped then result else result ++ [x]).Nodup ∧
      ∀ u, u ∈ (if skipped then result else result ++ [x]) ↔
        ∃ i : Nat, m ≤ i ∧ nodes[i]? = some u ∧ R i u := by
  have hsplit : ∀ u, (∃ i : Nat, m ≤ i ∧ nodes[i]? = some u ∧ R i u) ↔
      (u = x ∧ R m x) ∨ u ∈ result := by
    intro u
    rw [hmem]
    constructor
    · rintro ⟨i, hi, hu, hR⟩
      rcases hi.eq_or_lt with rfl | hlt
      · cases hx.symm.trans hu
        exact .inl ⟨rfl, hR⟩
      · exact .inr ⟨i, hlt, hu, hR⟩
    · rintro (⟨rfl, hR⟩ | ⟨i, hi, hrest⟩)
      · exact ⟨m, le_rfl, hx, hR⟩
      · exact ⟨i, by omega, hrest⟩
  simp only [hsplit, ← hskipped]
  cases skipped with
  | true => exact ⟨hnodup, fun u => by simp⟩
  | false =>
    refine ⟨nodup_append.mpr ⟨hnodup, nodup_singleton x, fun a ha b hb => ?_⟩,
      fun u => by simp [or_comm]⟩
    intro heq
    rw [mem_singleton.mp hb] at heq
    subst heq
    -- the node stands at one position only
    obtain ⟨i, hi, hget, -⟩ := (hmem a).mp ha
    have hlt := (List.getElem?_eq_some_iff.mp hx).1
    have heq := (getElem?_inj hlt hnodes).mp (hx.trans hget.symm)
    omega

/-- A node passes its colours and the common units to its parent. -/
theorem PassedFrom.passOn {m : Nat} {result : List SourceUnitId}
    (hforest : NodeForest parents nodes above)
    (h : PassedFrom parents left right excluded nodes above (m + 1) pass) (hx : nodes[m]? = some x)
    (hleft : (pass.masks[m]?.getD .uncolored).left = true ↔ Reaches parents left x)
    (hright : (pass.masks[m]?.getD .uncolored).right = true ↔ Reaches parents right x)
    (hresult : result.Nodup ∧ ∀ u, u ∈ result ↔ ∃ i : Nat, m ≤ i ∧ nodes[i]? = some u ∧
      IsCommon parents left right u ∧ (∀ (c : Nat) (y : SourceUnitId), Up (parentAt above) c i →
        nodes[c]? = some y → ¬IsCommon parents left right y) ∧ ¬Reaches parents excluded u) :
    PassedFrom parents left right excluded nodes above m
      (SourceAncestryIndex.passOn above { pass with result := result } m) := by
  have hcommon : (pass.masks[m]?.getD .uncolored).isCommon = true ↔
      IsCommon parents left right x := by
    rw [FrontierMask.isCommon, Bool.and_eq_true, hleft, hright]
    rfl
  rw [SourceAncestryIndex.passOn]
  cases hparent : parentAt above m with
  | none =>
    have hnot : ∀ i, ¬Up (parentAt above) m i := fun i hup => by cases hparent.symm.trans hup
    refine ⟨h.masks_length, h.common_length, fun i y hy => ?_, fun i y hy => ?_, fun i => ?_,
      hresult.1, hresult.2⟩
    · rw [exists_from_iff hx, h.leftMask i y hy]
      simp only [hnot, false_and, false_or]
    · rw [exists_from_iff hx, h.rightMask i y hy]
      simp only [hnot, false_and, false_or]
    · rw [exists_from_iff hx, h.common]
      simp only [hnot, false_and, false_or]
  | some p =>
    have hpm : p < m := hforest.lt m p hparent
    have hp : p < nodes.length := hpm.trans (List.getElem?_eq_some_iff.mp hx).1
    have hup : ∀ i, Up (parentAt above) m i ↔ i = p := fun i =>
      ⟨fun hup => Option.some.inj (hup.symm.trans hparent), fun heq => heq ▸ hparent⟩
    have hmask : ∀ (mask : FrontierMask) (i : Nat), i < nodes.length →
        (pass.masks.modify p (·.join mask))[i]?.getD .uncolored =
          if i = p then (pass.masks[i]?.getD .uncolored).join mask
          else pass.masks[i]?.getD .uncolored := by
      intro mask i hi
      obtain ⟨old, hold⟩ : ∃ old, pass.masks[i]? = some old :=
        ⟨_, getElem?_eq_getElem (h.masks_length ▸ hi)⟩
      rw [getElem?_modify, hold]
      rcases eq_or_ne p i with rfl | hne
      · simp
      · simp [hne, hne.symm]
    have hlength : (if (pass.masks[m]?.getD .uncolored).isCommon then pass.hasCommonChild.set p true
        else pass.hasCommonChild).length = nodes.length := by
      split
      · rw [length_set, h.common_length]
      · exact h.common_length
    have hin : ∀ {a b e q : Prop}, q → ((a ∨ e) ∨ b ↔ a ∨ q ∧ b ∨ e) := fun {a b e q} hq => by
      simp only [hq, true_and, or_assoc, or_comm (a := e)]
    have hout : ∀ {a b e q : Prop}, ¬q → (a ∨ e ↔ a ∨ q ∧ b ∨ e) := fun {a b e q} hq => by
      simp only [hq, false_and, false_or]
    refine ⟨by rw [length_modify]; exact h.masks_length, hlength, fun i y hy => ?_,
      fun i y hy => ?_, fun i => ?_, hresult.1, hresult.2⟩
    · dsimp only
      rw [exists_from_iff hx, hmask _ i (List.getElem?_eq_some_iff.mp hy).1, hup]
      split
      case isTrue heq =>
        rw [FrontierMask.join, Bool.or_eq_true, h.leftMask i y hy, hleft]
        exact hin heq
      case isFalse hne =>
        rw [h.leftMask i y hy]
        exact hout hne
    · dsimp only
      rw [exists_from_iff hx, hmask _ i (List.getElem?_eq_some_iff.mp hy).1, hup]
      split
      case isTrue heq =>
        rw [FrontierMask.join, Bool.or_eq_true, h.rightMask i y hy, hright]
        exact hin heq
      case isFalse hne =>
        rw [h.rightMask i y hy]
        exact hout hne
    · dsimp only
      rw [exists_from_iff hx, ← h.common i, hup, ← hcommon]
      cases (pass.masks[m]?.getD .uncolored).isCommon with
      | false => simp
      | true =>
        rw [if_pos rfl, getElem?_set]
        rcases eq_or_ne p i with rfl | hne
        · simp [h.common_length, hp]
        · simp [hne, hne.symm]

theorem PassedFrom.visitNode (hforest : NodeForest parents nodes above)
    (hexcludes : Excludes parents exclusions excluded)
    (hknown : ∀ u ∈ nodes, u.index < parents.length) (hnodup : nodes.Nodup)
    (hleft : ∀ u ∈ left, u ∈ nodes) (hright : ∀ u ∈ right, u ∈ nodes) {m : Nat}
    (h : PassedFrom parents left right excluded nodes above (m + 1) pass)
    (hx : nodes[m]? = some x) :
    ∃ next, SourceAncestryIndex.visitNode exclusions above pass (x, m) = .ok next ∧
      PassedFrom parents left right excluded nodes above m next := by
  -- what the node has got from its children is all there is
  have hmaskLeft : (pass.masks[m]?.getD .uncolored).left = true ↔ Reaches parents left x := by
    rw [hforest.reaches_iff hleft hx, h.leftMask m x hx, hforest.exists_from]
  have hmaskRight : (pass.masks[m]?.getD .uncolored).right = true ↔ Reaches parents right x := by
    rw [hforest.reaches_iff hright hx, h.rightMask m x hx, hforest.exists_from]
  have hcommon : (pass.masks[m]?.getD .uncolored).isCommon = true ↔
      IsCommon parents left right x := by
    rw [FrontierMask.isCommon, Bool.and_eq_true, hmaskLeft, hmaskRight]
    rfl
  obtain ⟨skipped, hskip, htaken⟩ :=
    h.skipsNode_eq hforest hexcludes (hknown x (mem_of_getElem? hx)) hcommon
  refine ⟨_, by rw [SourceAncestryIndex.visitNode, hskip]; rfl, ?_⟩
  exact h.passOn hforest hx hmaskLeft hmaskRight (result_step hnodup hx h.nodup h.result htaken)

/-- The whole pass. -/
theorem passNodes (hforest : NodeForest parents nodes above)
    (hexcludes : Excludes parents exclusions excluded)
    (hknown : ∀ u ∈ nodes, u.index < parents.length) (hnodup : nodes.Nodup)
    (hleft : ∀ u ∈ left, u ∈ nodes) (hright : ∀ u ∈ right, u ∈ nodes)
    (h : PassedFrom parents left right excluded nodes above nodes.length pass) :
    ∃ last, nodes.zipIdx.reverse.foldlM (SourceAncestryIndex.visitNode exclusions above) pass =
      .ok last ∧ PassedFrom parents left right excluded nodes above 0 last := by
  have key := foldlM_total (f := SourceAncestryIndex.visitNode exclusions above)
    (l := nodes.zipIdx.reverse) (s := pass)
    (P := fun done pass => PassedFrom parents left right excluded nodes above
      (nodes.length - done.length) pass) (fun done entry rest pass hsplit hpass => ?_) h
  · obtain ⟨last, hrun, hlast⟩ := key
    refine ⟨last, hrun, ?_⟩
    rwa [length_reverse, length_zipIdx, Nat.sub_self] at hlast
  · have hentry : nodes.zipIdx.reverse[done.length]? = some entry := by
      rw [hsplit, getElem?_append_right le_rfl, Nat.sub_self]
      rfl
    have hlt : done.length < nodes.length := by
      have hlt := (List.getElem?_eq_some_iff.mp hentry).1
      rwa [length_reverse, length_zipIdx] at hlt
    rw [getElem?_reverse (by rwa [length_zipIdx]), length_zipIdx] at hentry
    obtain ⟨x, i⟩ := entry
    rw [getElem?_zipIdx, Option.map_eq_some_iff] at hentry
    obtain ⟨y, hy, heq⟩ := hentry
    cases heq
    have hsucc : nodes.length - done.length = nodes.length - 1 - done.length + 1 := by omega
    have hprev : nodes.length - (done ++ [(x, 0 + (nodes.length - 1 - done.length))]).length =
        nodes.length - 1 - done.length := by
      rw [length_append, length_singleton]
      omega
    rw [hsucc] at hpass
    rw [hprev, Nat.zero_add]
    exact hpass.visitNode hforest hexcludes hknown hnodup hleft hright hy

end Pass

/-! ## The result -/

section Result

variable (h : IsAncestryIndex parents index)

include h

/-- The nodes that are taken are the deepest common units that are not excluded. -/
theorem deepest_of_passed {above : List (Option Nat)}
    (hknown : ∀ u ∈ colored, u.index < parents.length)
    (hsorted : colored.Pairwise fun a b => index.entryOf a < index.entryOf b)
    (hmem : ∀ u, u ∈ colored ↔ u ∈ left ∨ u ∈ right)
    (hnodes : FrontierNodes parents index colored nodes) (hforest : NodeForest parents nodes above)
    (hpass : PassedFrom parents left right excluded nodes above 0 pass) (u : SourceUnitId) :
    u ∈ pass.result ↔
      (IsCommon parents left right u ∧ ¬Reaches parents excluded u) ∧
        ∀ v, IsCommon parents left right v ∧ ¬Reaches parents excluded v →
          Within parents v u → v = u := by
  rw [hpass.result]
  constructor
  · rintro ⟨i, -, hu, hcommon, hchildren, hexcluded⟩
    refine ⟨⟨hcommon, hexcluded⟩, fun v ⟨hv, _⟩ hvu => ?_⟩
    obtain ⟨z, hz, hzcommon, hzv⟩ := exists_common_node h hknown hsorted hmem hnodes hv
    by_contra hne
    have hzu : z ≠ u := by
      rintro rfl
      exact hne (h.within_antisymm hvu hzv)
    obtain ⟨j, hj⟩ := getElem?_of_mem hz
    -- the node below gives a common child
    obtain ⟨c, hjc, hup⟩ := Relation.TransGen.tail'_iff.mp
      ((hforest.below_iff i j u z hu hj).mpr ⟨hzv.trans hvu, hzu⟩)
    obtain ⟨y, hy⟩ : ∃ y, nodes[c]? = some y :=
      ⟨_, getElem?_eq_getElem (hforest.length ▸ lt_length_of_up hup)⟩
    refine hchildren c y hup hy ?_
    rcases Relation.reflTransGen_iff_eq_or_transGen.mp hjc with rfl | hbelow
    · cases hj.symm.trans hy
      exact hzcommon
    · have hzy := ((hforest.below_iff c j y z hy hj).mp hbelow).1
      exact ⟨hzcommon.1.mono hzy, hzcommon.2.mono hzy⟩
  · rintro ⟨⟨hcommon, hexcluded⟩, hleast⟩
    -- an excluded unit has only excluded units above it
    have hdeepest : ∀ v, IsCommon parents left right v → Within parents v u → v = u :=
      fun v hv hvu => hleast v ⟨hv, fun hreach => hexcluded (hreach.mono hvu)⟩ hvu
    obtain ⟨z, hz, hzcommon, hzu⟩ := exists_common_node h hknown hsorted hmem hnodes hcommon
    cases hdeepest z hzcommon hzu
    obtain ⟨i, hi⟩ := getElem?_of_mem hz
    refine ⟨i, Nat.zero_le i, hi, hcommon, fun c y hup hy hycommon => ?_, hexcluded⟩
    obtain ⟨hyu, hne⟩ := (hforest.below_iff i c _ y hi hy).mp (.single hup)
    exact hne (hdeepest y hycommon hyu)

theorem intersectFrontiers_eq (hleft : ∀ u ∈ left, u.index < parents.length)
    (hright : ∀ u ∈ right, u.index < parents.length)
    (hexcludes : Excludes parents exclusions excluded) :
    ∃ result, index.intersectFrontiers left right exclusions = .ok result ∧
      IsDeepest parents index
        (fun u => IsCommon parents left right u ∧ ¬Reaches parents excluded u) result := by
  rw [SourceAncestryIndex.intersectFrontiers]
  by_cases hempty : (left.isEmpty || right.isEmpty) = true
  · rw [if_pos hempty]
    refine ⟨[], rfl, .nil, fun u => ⟨fun hu => absurd hu not_mem_nil, ?_⟩⟩
    rintro ⟨⟨⟨⟨l, hl, -⟩, ⟨r, hr, -⟩⟩, -⟩, -⟩
    rw [Bool.or_eq_true, List.isEmpty_iff, List.isEmpty_iff] at hempty
    rcases hempty with rfl | rfl
    · cases hl
    · cases hr
  rw [if_neg hempty]
  obtain ⟨first, hfirst, hkeys, hcolors⟩ := colorUnits_total h ⟨true, false⟩ .empty hleft
  obtain ⟨colored, hcolored, hkeys', hcolors'⟩ := colorUnits_total h ⟨false, true⟩ first hright
  have hunit : ∀ u, u ∈ colored.keys ↔ u ∈ left ∨ u ∈ right := fun u => by
    rw [hkeys', hkeys]
    simp [SortedMap.keys, SortedMap.empty]
  have hcolorLeft : ∀ u, (colorOf colored u).left = true ↔ u ∈ left := fun u => by
    rw [(hcolors' u).1, (hcolors u).1]
    simp [colorOf, SortedMap.get_empty, FrontierMask.uncolored]
  have hcolorRight : ∀ u, (colorOf colored u).right = true ↔ u ∈ right := fun u => by
    rw [(hcolors' u).2, (hcolors u).2]
    simp [colorOf, SortedMap.get_empty, FrontierMask.uncolored]
  have hmem : ∀ u, u ∈ index.sortByEntry colored.keys ↔ u ∈ left ∨ u ∈ right := fun u =>
    (mem_insertionSort _).trans (hunit u)
  have hknown : ∀ u ∈ index.sortByEntry colored.keys, u.index < parents.length := fun u hu =>
    ((hmem u).mp hu).elim (hleft u) (hright u)
  have hsorted := h.sortByEntry_sorted
    (fun u hu => hknown u ((mem_insertionSort _).mpr hu)) colored.nodup_keys
  obtain ⟨nodes, hrun, hnodes⟩ := frontierNodes_total h hknown
  have hforest := nodeParents_forest h hnodes
  have hdistinct : nodes.Nodup := hnodes.sorted.imp fun {a b} hlt heq =>
    hlt.ne (congrArg index.entryOf heq)
  have hstart : PassedFrom parents left right excluded nodes (index.nodeParents nodes) nodes.length
      ⟨nodes.map fun unit => (colored.get unit).getD .uncolored,
        List.replicate nodes.length false, []⟩ := by
    have hmask : ∀ (i : Nat) (x : SourceUnitId), nodes[i]? = some x →
        (nodes.map fun unit => (colored.get unit).getD .uncolored)[i]?.getD .uncolored =
          colorOf colored x := fun i x hx => by
      rw [getElem?_map, hx]
      rfl
    have hnone : ∀ c i : Nat, nodes.length ≤ c → ¬Up (parentAt (index.nodeParents nodes)) c i :=
      fun c i hc hup => absurd (hforest.length ▸ lt_length_of_up hup) hc.not_gt
    refine ⟨length_map _, length_replicate, fun i x hx => ?_, fun i x hx => ?_,
      fun i => ?_, .nil, fun u => ?_⟩
    · rw [hmask i x hx, hcolorLeft, iff_self_or]
      rintro ⟨c, y, hc, hup, -⟩
      exact absurd hup (hnone c i hc)
    · rw [hmask i x hx, hcolorRight, iff_self_or]
      rintro ⟨c, y, hc, hup, -⟩
      exact absurd hup (hnone c i hc)
    · constructor
      · intro hset
        rw [getElem?_replicate] at hset
        split at hset <;> cases hset
      · rintro ⟨c, y, hc, hup, -⟩
        exact absurd hup (hnone c i hc)
    · refine ⟨fun hu => absurd hu not_mem_nil, ?_⟩
      rintro ⟨i, hi, hu, -⟩
      exact absurd (List.getElem?_eq_some_iff.mp hu).1 hi.not_gt
  obtain ⟨last, hpass, hlast⟩ := passNodes hforest hexcludes hnodes.known hdistinct
    (fun u hu => hnodes.subset ((hmem u).mpr (.inl hu)))
    (fun u hu => hnodes.subset ((hmem u).mpr (.inr hu))) hstart
  refine ⟨index.sortByEntry last.result, ?_, ?_, fun u => ?_⟩
  · rw [hfirst]
    show (right.foldlM (index.colorUnit ⟨false, true⟩) first >>= _) = _
    rw [hcolored]
    show (index.frontierNodes _ >>= _) = _
    rw [hrun]
    show (nodes.zipIdx.reverse.foldlM
      (SourceAncestryIndex.visitNode exclusions (index.nodeParents nodes)) _ >>= _) = _
    rw [hpass]
    rfl
  · refine h.sortByEntry_sorted (fun u hu => ?_) hlast.nodup
    obtain ⟨i, -, hget, -⟩ := (hlast.result u).mp hu
    exact hnodes.known u (mem_of_getElem? hget)
  · exact (mem_insertionSort _).trans
      (deepest_of_passed h hknown hsorted hmem hnodes hforest hlast u)

end Result

/-- The index answers as walks along the parents do. -/
theorem sourceAncestry_agrees :
    (∀ parents, (∃ index, SourceAncestryIndex.fromParents parents = .ok index) ↔
      parents.length ≤ u32Size ∧ ParentsKnown parents ∧
        ∀ i, ¬Relation.TransGen (Up (parentPosition parents)) i i) ∧
    ∀ parents index, SourceAncestryIndex.fromParents parents = .ok index →
      (∀ u v : SourceUnitId, u.index < parents.length → v.index < parents.length →
        (∃ answer, index.isAncestor u v = .ok answer ∧ (answer = true ↔ Within parents v u)) ∧
        ∃ answer, index.lca u v = .ok answer ∧
          (∀ a : SourceUnitId, answer = some a ↔
            IsLowest (parentPosition parents) u.index v.index a.index) ∧
          (answer = none ↔ ∀ a, Within parents u a → ¬Within parents v a)) ∧
      (∀ units : List SourceUnitId, (∀ u ∈ units, u.index < parents.length) →
        ∃ deepest, index.deepestAntichain units = .ok deepest ∧
          IsDeepest parents index (· ∈ units) deepest) ∧
      ∀ left right excluded : List SourceUnitId, (∀ u ∈ left, u.index < parents.length) →
        (∀ u ∈ right, u.index < parents.length) → (∀ u ∈ excluded, u.index < parents.length) →
        ∃ exclusions result, SourceAncestorExclusions.new index excluded = .ok exclusions ∧
          index.intersectFrontiers left right exclusions = .ok result ∧
          IsDeepest parents index
            (fun u => IsCommon parents left right u ∧ ¬Reaches parents excluded u) result ∧
          ∀ common : List SourceUnitId,
            (∀ u, u ∈ common ↔ IsCommon parents left right u ∧ ¬Reaches parents excluded u) →
              index.deepestAntichain common = .ok result := by
  constructor
  · intro parents
    constructor
    · rintro ⟨index, hindex⟩
      obtain ⟨h, hacyclic⟩ := SourceAncestryIndex.fromParents_ok hindex
      exact ⟨h.small, h.known, hacyclic⟩
    · rintro ⟨hcount, hknown, hacyclic⟩
      exact SourceAncestryIndex.fromParents_total hcount hknown hacyclic
  intro parents index hindex
  have h := (SourceAncestryIndex.fromParents_ok hindex).1
  refine ⟨fun u v hu hv => ⟨⟨_, h.isAncestor_eq hu hv, h.covers_iff hu hv⟩, ?_⟩,
    fun units hunits => h.deepestAntichain_eq hunits,
    fun left right excluded hleft hright hexcluded => ?_⟩
  · rcases h.lca_eq hu hv with ⟨a, ha, hlowest⟩ | ⟨hnone, hapart⟩
    · refine ⟨some a, ha, fun b => ⟨?_, fun hb => ?_⟩, ?_⟩
      · rintro ⟨⟩
        exact hlowest
      · have heq := IsLowest.unique h.depth hlowest hb
        cases a
        cases b
        cases heq
        rfl
      · exact iff_of_false (Option.some_ne_none a) fun hapart =>
          hapart a hlowest.left hlowest.right
    · refine ⟨none, hnone, fun a => ⟨fun ha => (by cases ha), fun ha => ?_⟩, iff_of_true rfl hapart⟩
      exact absurd ha.right (hapart a ha.left)
  · obtain ⟨exclusions, hexclusions, hexcludes⟩ := exclusions_new h hexcluded
    obtain ⟨result, hresult, hdeepest⟩ := intersectFrontiers_eq h hleft hright hexcludes
    refine ⟨exclusions, result, hexclusions, hresult, hdeepest, fun common hcommon => ?_⟩
    have hknown : ∀ u ∈ common, u.index < parents.length := fun u hu => by
      obtain ⟨⟨⟨l, hl, hlu⟩, -⟩, -⟩ := (hcommon u).mp hu
      exact h.lt_of_within (hleft l hl) hlu
    obtain ⟨deepest, hok, hdeepest'⟩ := h.deepestAntichain_eq hknown
    have hsame : (fun u => u ∈ common) =
        fun u => IsCommon parents left right u ∧ ¬Reaches parents excluded u := by
      funext u
      exact propext (hcommon u)
    rw [hsame] at hdeepest'
    rw [hok, hdeepest'.unique hdeepest]

/-- Two trees, in one of which two units are below one. -/
def smallForest : List (Option SourceUnitId) := [none, some ⟨0⟩, some ⟨0⟩, some ⟨1⟩, none]

theorem sourceAncestry_agrees_small : ∃ index exclusions result,
    SourceAncestryIndex.fromParents smallForest = .ok index ∧
      SourceAncestorExclusions.new index [⟨4⟩] = .ok exclusions ∧
      index.intersectFrontiers [⟨3⟩] [⟨2⟩] exclusions = .ok result ∧
      IsDeepest smallForest index
        (fun u => IsCommon smallForest [⟨3⟩] [⟨2⟩] u ∧ ¬Reaches smallForest [⟨4⟩] u) result := by
  have hok : (SourceAncestryIndex.fromParents smallForest).isOk = true := by decide +kernel
  cases h : SourceAncestryIndex.fromParents smallForest with
  | error => rw [h] at hok; cases hok
  | ok index =>
    obtain ⟨exclusions, result, hexclusions, hresult, hdeepest, -⟩ :=
      (sourceAncestry_agrees.2 smallForest index h).2.2 [⟨3⟩] [⟨2⟩] [⟨4⟩]
        (by simp [smallForest]) (by simp [smallForest]) (by simp [smallForest])
    exact ⟨index, exclusions, result, rfl, hexclusions, hresult, hdeepest⟩

/-- More units than there are numbers. -/
theorem fromParents_above_u32 :
    ¬∀ parents, (∃ index, SourceAncestryIndex.fromParents parents = .ok index) ↔
      ParentsKnown parents ∧ ∀ i, ¬Relation.TransGen (Up (parentPosition parents)) i i := by
  intro hclaim
  have hroots : ∀ i, parentPosition (List.replicate (u32Size + 1) none) i = none := fun i => by
    rw [parentPosition, getElem?_replicate]
    split <;> rfl
  obtain ⟨index, hindex⟩ := (hclaim (List.replicate (u32Size + 1) none)).mpr
    ⟨fun parent hparent => (by cases eq_of_mem_replicate hparent), fun i hcycle => by
      obtain ⟨p, hup, -⟩ := Relation.TransGen.head'_iff.mp hcycle
      cases (hroots i).symm.trans hup⟩
  have hsmall := (SourceAncestryIndex.fromParents_ok hindex).1.small
  rw [length_replicate] at hsmall
  omega

end ItemDependencies
