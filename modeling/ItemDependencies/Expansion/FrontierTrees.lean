import ItemDependencies.Expansion.SourceEntries
import ItemDependencies.Library.SharedTree

/-!
# Frontier sets as shared trees

The nodes of the store are a table of shared trees, in which each set of positions has one
identifier.  The store only grows, and nothing fails before it is full.
-/

namespace ItemDependencies

open Library List Option Finset

namespace PersistentFrontierSets

/-! ## The table of the nodes -/

def table (sets : PersistentFrontierSets) : SharedTable PersistentFrontierSetId where
  empty := emptyId
  leaf := leafId
  node id := (sets.nodeAt id).map fun node => (node.height, node.left, node.right)

/-- The identifier stands for these positions, at a height. -/
abbrev Holds (sets : PersistentFrontierSets) (height : Nat) (id : PersistentFrontierSetId)
    (A : Finset Nat) : Prop := sets.table.Represents height id A

/-- Equal nodes are one node, and nodes know how many positions they stand for, and the first. -/
structure IsStore (sets : PersistentFrontierSets) : Prop where
  distinct : sets.table.Distinct
  nodes : ∀ id node, sets.nodeAt id = some node → ∃ A, sets.Holds node.height id A ∧
    node.count = A.card ∧ IsLeast (A : Set Nat) node.first
  canonical : ∀ height left right id,
    sets.canonical.get (canonicalKey height left right) = some id ↔
      sets.table.node id = some (height, left, right)
  fits : sets.sourceCount ≤ 2 ^ sets.height
  small : 2 ^ sets.height < u64Size

/-- The identifier is the root of an antichain of positions of the source. -/
structure IsRoot (index : SourceAncestryIndex) (sets : PersistentFrontierSets)
    (id : PersistentFrontierSetId) (A : Finset Nat) : Prop where
  holds : sets.Holds sets.height id A
  lt : ∀ p ∈ A, p < sets.sourceCount
  antichain : EulerAntichain index.treeStop A

/-- A store for the units of a source, in which known unions are right. -/
structure IsFrontierStore (parents : List (Option SourceUnitId)) (index : SourceAncestryIndex)
    (sets : PersistentFrontierSets) : Prop extends IsStore sets where
  count_eq : sets.sourceCount = parents.length
  unions : ∀ pair id, sets.unions.get pair = some id → ∃ A B,
    sets.IsRoot index (ofLex pair).1 A ∧ sets.IsRoot index (ofLex pair).2 B ∧
      sets.IsRoot index id (deepest index.treeStop (A ∪ B))

/-- Nodes are added behind the others. -/
structure Grows (s t : PersistentFrontierSets) : Prop where
  sourceCount_eq : t.sourceCount = s.sourceCount
  height_eq : t.height = s.height
  nodes : s.nodes <+: t.nodes

/-- No further node gets a number. -/
def Full (sets : PersistentFrontierSets) : Prop := u32Size ≤ sets.nodes.length + 2

variable {s t r : PersistentFrontierSets} {height : Nat} {id left right : PersistentFrontierSetId}
  {A B : Finset Nat} {parents : List (Option SourceUnitId)} {index : SourceAncestryIndex}

theorem Grows.refl (s : PersistentFrontierSets) : s.Grows s := ⟨rfl, rfl, prefix_refl _⟩

theorem Grows.trans (h : s.Grows t) (h' : t.Grows r) : s.Grows r :=
  ⟨h'.sourceCount_eq.trans h.sourceCount_eq, h'.height_eq.trans h.height_eq, h.nodes.trans h'.nodes⟩

theorem Grows.nodeAt (h : s.Grows t) {node : PersistentFrontierSetNode}
    (hnode : s.nodeAt id = some node) : t.nodeAt id = some node := by
  unfold PersistentFrontierSets.nodeAt at hnode ⊢
  split at hnode
  case isTrue => cases hnode
  case isFalse hid =>
    obtain ⟨added, hadded⟩ := h.nodes
    rw [if_neg hid, ← hadded, getElem?_append_left (List.getElem?_eq_some_iff.mp hnode).1]
    exact hnode

theorem Grows.holds (h : s.Grows t) (hA : s.Holds height id A) : t.Holds height id A := by
  refine hA.mono rfl rfl fun id node hnode => ?_
  obtain ⟨record, hrecord, rfl⟩ := map_eq_some_iff.mp hnode
  exact map_eq_some_iff.mpr ⟨record, h.nodeAt hrecord, rfl⟩

theorem IsRoot.mono (h : s.IsRoot index id A) (hle : s.Grows t) : t.IsRoot index id A :=
  ⟨hle.height_eq ▸ hle.holds h.holds, hle.sourceCount_eq ▸ h.lt, h.antichain⟩

/-- What the store keeps while it grows. -/
def growth (parents : List (Option SourceUnitId)) (index : SourceAncestryIndex) :
    GrowingStore PersistentFrontierSets where
  inv := IsFrontierStore parents index
  le := Grows
  full := Full
  refl := Grows.refl
  trans := Grows.trans

/-! ## Reading a node -/

theorem holds_zero (hA : s.Holds 0 id A) : id = emptyId ∧ A = ∅ ∨ id = leafId ∧ A = {0} := by
  rcases hA.cases with hempty | ⟨-, hleaf⟩ | ⟨below, -, -, -, -, hheight, -⟩
  · exact .inl hempty
  · exact .inr hleaf
  · cases hheight

namespace IsStore

variable (h : s.IsStore)

include h

theorem unique (hA : s.Holds height id A) (hB : s.Holds height id B) : A = B :=
  hA.unique h.distinct hB

theorem injective {other : PersistentFrontierSetId} (hA : s.Holds height id A)
    (hA' : s.Holds height other A) : id = other := hA.injective h.distinct hA'

theorem eq_empty_iff (hA : s.Holds height id A) : A = ∅ ↔ id = emptyId :=
  hA.eq_empty_iff h.distinct

/-- A set is empty, a leaf or kept by a node. -/
theorem node_of_ne (hA : s.Holds height id A) (hempty : id ≠ emptyId) (hleaf : id ≠ leafId) :
    ∃ node, s.nodeAt id = some node ∧ node.height = height ∧ node.count = A.card ∧
      IsLeast (A : Set Nat) node.first := by
  rcases hA.cases with ⟨heq, -⟩ | ⟨-, heq, -⟩ | ⟨below, left, right, B, C, -, hnode, -⟩
  · exact absurd heq hempty
  · exact absurd heq hleaf
  · obtain ⟨node, hget, hnode⟩ := map_eq_some_iff.mp hnode
    obtain ⟨A', hA', hcount, hfirst⟩ := h.nodes id node hget
    have hheight : node.height = height := congrArg Prod.fst hnode
    rw [hheight] at hA'
    cases h.unique hA hA'
    exact ⟨node, hget, hheight, hcount, hfirst⟩

theorem count_eq (hA : s.Holds height id A) : s.count id = .ok A.card := by
  unfold count
  by_cases hempty : id = emptyId
  · rw [if_pos hempty, (h.eq_empty_iff hA).mpr hempty, card_empty]
  by_cases hleaf : id = leafId
  · rw [if_neg hempty, if_pos hleaf]
    rcases hA.cases with ⟨heq, -⟩ | ⟨-, -, rfl⟩ | ⟨below, left, right, B, C, -, hnode, -⟩
    · exact absurd heq hempty
    · rfl
    · rw [hleaf, show s.table.node leafId = none from h.distinct.leaf] at hnode
      cases hnode
  · obtain ⟨node, hget, -, hcount, -⟩ := h.node_of_ne hA hempty hleaf
    rw [if_neg hempty, if_neg hleaf, hget, ← hcount]

theorem first_eq (hA : s.Holds height id A) (hne : id ≠ emptyId) :
    ∃ first, s.first id height = .ok first ∧ IsLeast (A : Set Nat) first := by
  unfold PersistentFrontierSets.first
  rw [if_neg hne]
  by_cases hleaf : id = leafId
  · rw [if_pos hleaf]
    rcases hA.cases with ⟨heq, -⟩ | ⟨hzero, -, rfl⟩ | ⟨below, left, right, B, C, -, hnode, -⟩
    · exact absurd heq hne
    · rw [if_pos hzero]
      refine ⟨0, rfl, ?_⟩
      rw [coe_singleton]
      exact isLeast_singleton
    · rw [hleaf, show s.table.node leafId = none from h.distinct.leaf] at hnode
      cases hnode
  · obtain ⟨node, hget, hheight, -, hfirst⟩ := h.node_of_ne hA hne hleaf
    rw [if_neg hleaf, PersistentFrontierSets.node, hget, filter_some,
      if_pos (decide_eq_true hheight)]
    exact ⟨node.first, rfl, hfirst⟩

theorem children_eq (hA : s.Holds (height + 1) id A) :
    ∃ left right B C, s.children id (height + 1) = .ok (left, right) ∧ s.Holds height left B ∧
      s.Holds height right C ∧ A = halves height B C := by
  unfold children
  rcases hA.cases with ⟨hid, rfl⟩ | ⟨hzero, -⟩ |
    ⟨below, left, right, B, C, hheight, hnode, hB, hC, hA'⟩
  · refine ⟨emptyId, emptyId, ∅, ∅, ?_, .empty height, .empty height, halves_empty.symm⟩
    have hleaf : id ≠ leafId := fun hleaf => h.distinct.apart (hleaf.symm.trans hid)
    rw [if_neg (not_or.mpr ⟨Nat.succ_ne_zero height, hleaf⟩), if_pos (show id = emptyId from hid)]
  · cases hzero
  · cases hheight
    have hempty : id ≠ emptyId := by
      rintro rfl
      rw [show s.table.node emptyId = none from h.distinct.empty] at hnode
      cases hnode
    have hleaf : id ≠ leafId := by
      rintro rfl
      rw [show s.table.node leafId = none from h.distinct.leaf] at hnode
      cases hnode
    obtain ⟨node, hget, hnode⟩ := map_eq_some_iff.mp hnode
    obtain ⟨hheight, hhalves⟩ := Prod.mk.inj hnode
    refine ⟨left, right, B, C, ?_, hB, hC, hA'⟩
    rw [if_neg (not_or.mpr ⟨Nat.succ_ne_zero height, hleaf⟩), if_neg hempty,
      PersistentFrontierSets.node, hget, filter_some, if_pos (decide_eq_true hheight)]
    exact congrArg Except.ok hhalves

end IsStore

/-! ## A new node -/

theorem nodeAt_push (node : PersistentFrontierSetNode) (new id : PersistentFrontierSetId) :
    (s.push node new).nodeAt id =
      if id = ⟨s.nodes.length + 2⟩ then some node else s.nodeAt id := by
  obtain ⟨i⟩ := id
  show (if i < 2 then none else (s.nodes ++ [node])[i - 2]?) = _
  by_cases hnew : (⟨i⟩ : PersistentFrontierSetId) = ⟨s.nodes.length + 2⟩
  · rw [if_pos hnew]
    cases hnew
    rw [if_neg (Nat.not_lt.mpr (Nat.le_add_left 2 _)), Nat.add_sub_cancel,
      getElem?_append_right le_rfl, Nat.sub_self]
    rfl
  · rw [if_neg hnew]
    show _ = if i < 2 then none else s.nodes[i - 2]?
    by_cases hlow : i < 2
    · rw [if_pos hlow, if_pos hlow]
    · rw [if_neg hlow, if_neg hlow]
      have hne : i - 2 ≠ s.nodes.length := by
        rintro heq
        exact hnew (congrArg PersistentFrontierSetId.mk (by omega))
      rcases lt_or_gt_of_ne hne with hlt | hgt
      · rw [getElem?_append_left hlt]
      · rw [getElem?_eq_none (by rw [length_append, length_singleton]; omega),
          getElem?_eq_none hgt.le]

theorem grows_push (node : PersistentFrontierSetNode) (new : PersistentFrontierSetId) :
    s.Grows (s.push node new) := ⟨rfl, rfl, prefix_append _ _⟩

/-- A node with halves that the store knows, and that no node has yet. -/
theorem IsStore.push (h : s.IsStore) (node : PersistentFrontierSetNode)
    (hA : s.Holds height node.left A) (hB : s.Holds height node.right B)
    (hheight : node.height = height + 1) (hne : node.left ≠ emptyId ∨ node.right ≠ emptyId)
    (hcount : node.count = (halves height A B).card)
    (hfirst : IsLeast (halves height A B : Set Nat) node.first)
    (hnew : ∀ id, s.table.node id ≠ some (node.height, node.left, node.right)) :
    (s.push node ⟨s.nodes.length + 2⟩).IsStore := by
  have hgrows := s.grows_push node ⟨s.nodes.length + 2⟩
  have hnode : ∀ id, (s.push node ⟨s.nodes.length + 2⟩).table.node id =
      if id = ⟨s.nodes.length + 2⟩ then some (node.height, node.left, node.right)
      else s.table.node id := by
    intro id
    show Option.map _ _ = _
    rw [nodeAt_push]
    split <;> rfl
  have hself : s.table.node ⟨s.nodes.length + 2⟩ = none := by
    show Option.map _ (if s.nodes.length + 2 < 2 then none else _) = none
    rw [if_neg (Nat.not_lt.mpr (Nat.le_add_left 2 _)), Nat.add_sub_cancel,
      getElem?_eq_none le_rfl, map_none]
  refine ⟨⟨h.distinct.apart, ?_, ?_, ?_, ?_⟩, fun id record hget => ?_,
    fun height' left' right' id => ?_, h.fits, h.small⟩
  · rw [hnode]
    exact h.distinct.empty
  · rw [hnode]
    exact h.distinct.leaf
  · intro id height' left' right' hget
    rw [hnode] at hget
    split at hget
    case isTrue =>
      cases hget
      exact hne
    case isFalse => exact h.distinct.inhabited hget
  · intro a b entry ha hb
    rw [hnode] at ha hb
    split at ha
    case isTrue haNew =>
      cases ha
      split at hb
      case isTrue hbNew => rw [haNew, hbNew]
      case isFalse => exact absurd hb (hnew b)
    case isFalse =>
      split at hb
      case isTrue =>
        cases hb
        exact absurd ha (hnew a)
      case isFalse => exact h.distinct.injective ha hb
  · rw [nodeAt_push] at hget
    split at hget
    case isTrue hid =>
      cases hget
      refine ⟨halves height A B, ?_, hcount, hfirst⟩
      rw [hheight]
      refine .join ?_ (hgrows.holds hA) (hgrows.holds hB)
      rw [hnode, if_pos hid, hheight]
    case isFalse =>
      obtain ⟨C, hC, hrest⟩ := h.nodes id record hget
      exact ⟨C, hgrows.holds hC, hrest⟩
  · show (s.canonical.insert _ _).get _ = _ ↔ _
    rw [SortedMap.get_insert, hnode]
    by_cases hkey :
      canonicalKey height' left' right' = canonicalKey node.height node.left node.right
    · rw [if_pos hkey]
      obtain ⟨hh, hlr⟩ := Prod.mk.inj (toLex.injective hkey)
      obtain ⟨hl, hr⟩ := Prod.mk.inj (toLex.injective hlr)
      rw [hh, hl, hr]
      by_cases hid : id = ⟨s.nodes.length + 2⟩
      · rw [if_pos hid, hid]
        exact iff_of_true rfl rfl
      · rw [if_neg hid]
        exact iff_of_false (fun heq => hid (Option.some.inj heq).symm) (hnew id)
    · rw [if_neg hkey, h.canonical]
      by_cases hid : id = ⟨s.nodes.length + 2⟩
      · rw [if_pos hid, hid, hself]
        refine iff_of_false (fun hnone => (by cases hnone)) fun heq => hkey ?_
        obtain ⟨hh, hlr⟩ := Prod.mk.inj (Option.some.inj heq)
        obtain ⟨hl, hr⟩ := Prod.mk.inj hlr
        rw [hh, hl, hr]
      · rw [if_neg hid]

theorem IsFrontierStore.grow (h : s.IsFrontierStore parents index) (hle : s.Grows t)
    (ht : t.IsStore) (hunions : t.unions = s.unions) : t.IsFrontierStore parents index := by
  refine ⟨ht, hle.sourceCount_eq.trans h.count_eq, fun pair id hget => ?_⟩
  rw [hunions] at hget
  obtain ⟨A, B, hA, hB, hunion⟩ := h.unions pair id hget
  exact ⟨A, B, hA.mono hle, hB.mono hle, hunion.mono hle⟩

/-! ## Branches -/

theorem newNode_eq (h : s.IsStore) (hheight : height + 1 ≤ s.height) (hA : s.Holds height left A)
    (hB : s.Holds height right B) (hne : left ≠ emptyId ∨ right ≠ emptyId) :
    ∃ first, s.newNode (height + 1) left right =
        .ok ⟨height + 1, left, right, (halves height A B).card, first⟩ ∧
      IsLeast (halves height A B : Set Nat) first := by
  have hpow : 2 ^ (height + 1) < u64Size :=
    (Nat.pow_le_pow_right Nat.two_pos hheight).trans_lt h.small
  have hsmall : A.card + B.card < u64Size := by
    rw [← card_halves hA.lt]
    have hsub : halves height A B ⊆ Finset.range (2 ^ (height + 1)) := fun x hx =>
      Finset.mem_range.mpr (halves_lt hB.lt x hx)
    exact ((card_le_card hsub).trans (card_range _).le).trans_lt hpow
  have hfirst : ∃ first, s.branchFirst (height + 1) left right = .ok first ∧
      IsLeast (halves height A B : Set Nat) first := by
    unfold branchFirst
    by_cases hleft : left = emptyId
    · obtain ⟨first, hfirst, hleast⟩ := h.first_eq hB (hne.resolve_left fun h => h hleft)
      have hempty : A = ∅ := (h.eq_empty_iff hA).mpr hleft
      have hlt : 2 ^ height + first < u64Size := by
        have := hB.lt first hleast.1
        rw [Nat.pow_succ] at hpow
        omega
      rw [if_neg (not_not.mpr hleft), Nat.add_sub_cancel, hfirst, hempty]
      refine ⟨2 ^ height + first, ?_, isLeast_halves_right hleast⟩
      show (if _ then _ else _) = _
      rw [if_neg (not_le.mpr hlt)]
      rfl
    · obtain ⟨first, hfirst, hleast⟩ := h.first_eq hA hleft
      rw [if_pos hleft, Nat.add_sub_cancel]
      exact ⟨first, hfirst, isLeast_halves_left hA.lt hleast⟩
  obtain ⟨first, hfirst, hleast⟩ := hfirst
  refine ⟨first, ?_, hleast⟩
  rw [newNode, h.count_eq hA, h.count_eq hB]
  show (if _ then _ else _) = _
  rw [if_neg (not_le.mpr hsmall), hfirst, card_halves hA.lt]
  rfl

theorem branchNew_runs (h : s.IsFrontierStore parents index) (hheight : height + 1 ≤ s.height)
    (hA : s.Holds height left A) (hB : s.Holds height right B)
    (hne : left ≠ emptyId ∨ right ≠ emptyId)
    (hnew : ∀ id, s.table.node id ≠ some (height + 1, left, right)) :
    Runs (growth parents index) (branchNew (height + 1) left right) s
      fun id t => t.Holds (height + 1) id (halves height A B) := by
  obtain ⟨first, hnode, hleast⟩ := newNode_eq h.toIsStore hheight hA hB hne
  refine Runs.read hnode ?_
  by_cases hfull : u32Size ≤ s.nodes.length + 2
  · exact Runs.read_full (if_pos hfull) h hfull
  refine Runs.read (if_neg hfull) ?_
  have hgrows := s.grows_push ⟨height + 1, left, right, (halves height A B).card, first⟩
    ⟨s.nodes.length + 2⟩
  have hpush := h.toIsStore.push ⟨height + 1, left, right, (halves height A B).card, first⟩
    hA hB rfl hne rfl hleast hnew
  refine (Runs.changing (Q := fun _ t => t = s.push _ _)
    (h.grow hgrows hpush rfl) hgrows rfl).bind ?_
  rintro _ _ ht - rfl
  refine Runs.pure ht (.join ?_ (hgrows.holds hA) (hgrows.holds hB))
  show Option.map _ (nodeAt _ _) = _
  rw [nodeAt_push, if_pos rfl]
  rfl

/-- The identifier of two halves. -/
theorem branch_runs (h : s.IsFrontierStore parents index) (hheight : height + 1 ≤ s.height)
    (hA : s.Holds height left A) (hB : s.Holds height right B) :
    Runs (growth parents index) (branch (height + 1) left right) s
      fun id t => t.Holds (height + 1) id (halves height A B) := by
  unfold branch
  rw [if_neg (Nat.succ_ne_zero height)]
  by_cases hempty : left = emptyId ∧ right = emptyId
  · rw [if_pos hempty, (h.eq_empty_iff hA).mpr hempty.1, (h.eq_empty_iff hB).mpr hempty.2,
      halves_empty]
    exact Runs.pure h (.empty _)
  rw [if_neg hempty]
  refine Runs.read rfl ?_
  cases hknown : s.canonical.get (canonicalKey (height + 1) left right) with
  | some id => exact Runs.pure h (.join ((h.canonical _ _ _ _).mp hknown) hA hB)
  | none =>
    refine branchNew_runs h hheight hA hB (not_and_or.mp hempty) fun id hnode => ?_
    cases hknown.symm.trans ((h.canonical _ _ _ _).mpr hnode)

/-! ## One position -/

theorem mod_two_pow_succ (position height : Nat) : position % 2 ^ (height + 1) =
    if position.testBit height then 2 ^ height + position % 2 ^ height
    else position % 2 ^ height := by
  rw [Nat.mod_pow_succ, Nat.testBit_eq_decide_div_mod_eq]
  rcases Nat.mod_two_eq_zero_or_one (position / 2 ^ height) with hbit | hbit
  · rw [hbit, Nat.mul_zero, Nat.add_zero]
    rfl
  · rw [hbit, Nat.mul_one, Nat.add_comm]
    rfl

/-- By induction on the height: going down leaves the halves beside the path, from which going up
makes the other set. -/
theorem descend_runs (position : Nat) (present : Bool) (h : s.IsFrontierStore parents index)
    (hheight : height ≤ s.height) (hA : s.Holds height id A) (path : List PathStep) :
    ∃ reached steps, s.descend position height id path = .ok (reached, steps ++ path) ∧
      (reached = emptyId ∨ reached = leafId) ∧
      ∀ t, t.IsFrontierStore parents index → s.Grows t →
        Runs (growth parents index) (steps.foldlM ascend (if present then leafId else emptyId)) t
          fun id r => r.Holds height id (setAt present (position % 2 ^ height) A) := by
  induction height generalizing id A path with
  | zero =>
    refine ⟨id, [], rfl, (holds_zero hA).imp And.left And.left, fun t ht _ => Runs.pure ht ?_⟩
    rw [Nat.pow_zero, Nat.mod_one]
    have hset : setAt present 0 A = if present then {0} else ∅ := by
      rcases holds_zero hA with ⟨-, rfl⟩ | ⟨-, rfl⟩ <;> cases present <;> rfl
    rw [hset]
    cases present with
    | false => exact .empty 0
    | true => exact .leaf
  | succ height ih =>
    obtain ⟨left, right, B, C, hchildren, hB, hC, rfl⟩ := h.children_eq hA
    have hbelow : height ≤ s.height := (Nat.le_succ height).trans hheight
    rw [descend, hchildren, mod_two_pow_succ]
    by_cases hbit : position.testBit height = true
    · obtain ⟨reached, steps, hdescend, hreached, hruns⟩ :=
        ih hbelow hC ((height + 1, true, left) :: path)
      refine ⟨reached, steps ++ [(height + 1, true, left)], ?_, hreached, fun t ht hgrows => ?_⟩
      · show (if _ then _ else _) = _
        rw [if_pos hbit, hdescend, append_assoc]
        rfl
      rw [foldlM_append, if_pos hbit, ← halves_setAt_right]
      refine (hruns t ht hgrows).bind fun other r hr hgrows' hother => ?_
      rw [foldlM_cons, bind_congr fun _ => foldlM_nil, bind_pure]
      have hall := hgrows.trans hgrows'
      exact branch_runs hr (hall.height_eq ▸ hheight) (hall.holds hB) hother
    · obtain ⟨reached, steps, hdescend, hreached, hruns⟩ :=
        ih hbelow hB ((height + 1, false, right) :: path)
      refine ⟨reached, steps ++ [(height + 1, false, right)], ?_, hreached, fun t ht hgrows => ?_⟩
      · show (if _ then _ else _) = _
        rw [if_neg hbit, hdescend, append_assoc]
        rfl
      rw [foldlM_append, if_neg hbit,
        ← halves_setAt_left (Nat.mod_lt position (Nat.two_pow_pos height))]
      refine (hruns t ht hgrows).bind fun other r hr hgrows' hother => ?_
      rw [foldlM_cons, bind_congr fun _ => foldlM_nil, bind_pure]
      have hall := hgrows.trans hgrows'
      exact branch_runs hr (hall.height_eq ▸ hheight) hother (hall.holds hC)

theorem setPosition_runs {position : Nat} (present : Bool) (h : s.IsFrontierStore parents index)
    (hA : s.Holds s.height id A) (hposition : position < s.sourceCount) :
    Runs (growth parents index) (setPosition id position present) s
      fun id t => t.Holds s.height id (setAt present position A) := by
  obtain ⟨reached, steps, hdescend, hreached, hruns⟩ := descend_runs position present h le_rfl hA []
  have hpath : s.pathTo id position = .ok steps := by
    unfold pathTo
    rw [if_neg (not_le.mpr hposition), hdescend, append_nil]
    show (if _ then _ else _) = _
    rw [if_neg]
    · rfl
    · exact fun hno => hreached.elim hno.1 hno.2
  refine Runs.read hpath ?_
  have hrun := hruns s h (Grows.refl s)
  rwa [Nat.mod_eq_of_lt (hposition.trans_le h.fits)] at hrun

/-! ## Partitions -/

/-- Three sets: what two sets share, and what each of them has alone. -/
def Parts (sets : PersistentFrontierSets) (height : Nat) (A B : Finset Nat)
    (parts : PersistentFrontierSetId × PersistentFrontierSetId × PersistentFrontierSetId) : Prop :=
  sets.Holds height parts.1 (A ∩ B) ∧ sets.Holds height parts.2.1 (A \ B) ∧
    sets.Holds height parts.2.2 (B \ A)

theorem partitionAlike_some (h : s.IsStore) (hA : s.Holds height left A)
    (hB : s.Holds height right B)
    {parts : PersistentFrontierSetId × PersistentFrontierSetId × PersistentFrontierSetId}
    (halike : partitionAlike left right = some parts) : Parts s height A B parts := by
  unfold partitionAlike at halike
  split at halike
  case isTrue heq =>
    cases halike
    cases heq
    cases h.unique hA hB
    rw [Parts, inter_self, sdiff_self]
    exact ⟨hA, .empty height, .empty height⟩
  case isFalse =>
    split at halike
    case isTrue hleft =>
      cases halike
      rw [Parts, (h.eq_empty_iff hA).mpr hleft, empty_inter, empty_sdiff, sdiff_empty]
      exact ⟨.empty height, .empty height, hB⟩
    case isFalse =>
      split at halike
      case isTrue hright =>
        cases halike
        rw [Parts, (h.eq_empty_iff hB).mpr hright, inter_empty, empty_sdiff, sdiff_empty]
        exact ⟨.empty height, hA, .empty height⟩
      case isFalse => cases halike

theorem partitionAlike_none (halike : partitionAlike left right = none) :
    left ≠ right ∧ left ≠ emptyId ∧ right ≠ emptyId := by
  unfold partitionAlike at halike
  split at halike
  · cases halike
  · split at halike
    · cases halike
    · split at halike
      · cases halike
      · exact ⟨by assumption, by assumption, by assumption⟩

theorem Parts.mono (hle : s.Grows t)
    {parts : PersistentFrontierSetId × PersistentFrontierSetId × PersistentFrontierSetId}
    (h : Parts s height A B parts) : Parts t height A B parts :=
  ⟨hle.holds h.1, hle.holds h.2.1, hle.holds h.2.2⟩

theorem partitionFrontiers_runs (h : s.IsFrontierStore parents index) (hheight : height ≤ s.height)
    (hA : s.Holds height left A) (hB : s.Holds height right B) :
    Runs (growth parents index) (partitionFrontiers height left right) s
      fun parts t => Parts t height A B parts := by
  induction height generalizing s left right A B with
  | zero =>
    unfold partitionFrontiers
    cases halike : partitionAlike left right with
    | some parts => exact Runs.pure h (partitionAlike_some h.toIsStore hA hB halike)
    | none =>
      -- two leaves are the same
      obtain ⟨hne, hleft, hright⟩ := partitionAlike_none halike
      have hleaf := ((holds_zero hA).resolve_left fun hempty => hleft hempty.1).1
      have hleaf' := ((holds_zero hB).resolve_left fun hempty => hright hempty.1).1
      exact absurd (hleaf.trans hleaf'.symm) hne
  | succ height ih =>
    unfold partitionFrontiers
    cases halike : partitionAlike left right with
    | some parts => exact Runs.pure h (partitionAlike_some h.toIsStore hA hB halike)
    | none =>
      obtain ⟨ll, lr, A₁, A₂, hchildren, hA₁, hA₂, rfl⟩ := h.children_eq hA
      obtain ⟨rl, rr, B₁, B₂, hchildren', hB₁, hB₂, rfl⟩ := h.children_eq hB
      have hbelow : height ≤ s.height := (Nat.le_succ height).trans hheight
      refine Runs.read hchildren (Runs.read hchildren' ?_)
      refine (ih h hbelow hA₁ hB₁).bind fun lower t ht hst hlower => ?_
      refine (ih ht (hst.height_eq ▸ hbelow) (hst.holds hA₂) (hst.holds hB₂)).bind
        fun upper t₁ ht₁ htt₁ hupper => ?_
      have hlower₁ := hlower.mono htt₁
      have hst₁ := hst.trans htt₁
      refine (branch_runs ht₁ (hst₁.height_eq ▸ hheight) hlower₁.1 hupper.1).bind
        fun common t₂ ht₂ ht₁₂ hcommon => ?_
      have hlower₂ := hlower₁.mono ht₁₂
      have hupper₂ := hupper.mono ht₁₂
      have hst₂ := hst₁.trans ht₁₂
      refine (branch_runs ht₂ (hst₂.height_eq ▸ hheight) hlower₂.2.1 hupper₂.2.1).bind
        fun leftOnly t₃ ht₃ ht₂₃ hleftOnly => ?_
      have hlower₃ := hlower₂.mono ht₂₃
      have hupper₃ := hupper₂.mono ht₂₃
      have hst₃ := hst₂.trans ht₂₃
      refine (branch_runs ht₃ (hst₃.height_eq ▸ hheight) hlower₃.2.2 hupper₃.2.2).bind
        fun rightOnly t₄ ht₄ ht₃₄ hrightOnly => ?_
      refine Runs.pure ht₄ ?_
      rw [Parts, halves_inter, halves_sdiff, halves_sdiff]
      exact ⟨(ht₂₃.trans ht₃₄).holds hcommon, ht₃₄.holds hleftOnly, hrightOnly⟩

theorem partitionRoots_runs (h : s.IsFrontierStore parents index)
    (hA : s.Holds s.height left A) (hB : s.Holds s.height right B) :
    Runs (growth parents index) (partitionRoots left right) s
      fun parts t => Parts t s.height A B parts :=
  Runs.read rfl (partitionFrontiers_runs h le_rfl hA hB)

end PersistentFrontierSets

end ItemDependencies
