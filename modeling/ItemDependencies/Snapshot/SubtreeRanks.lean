import ItemDependencies.Library.Placing
import ItemDependencies.Library.UnorderedTrees
import ItemDependencies.Snapshot.SiblingKeys

/-!
# Ranks of expansion subtrees

The selected expansions make up a forest, in which an expansion is a child of the one whose key is
its own without the last part.  The ranks of a depth are those of a ranked forest.
-/

namespace ItemDependencies

open Library List

namespace KeyedGraph

/-- What the construction of a dependency graph ensures: expansions are numbered by their places,
their keys are different, and a key extends the key of the identity parent by one part. -/
structure Accepted (graph : KeyedGraph) : Prop where
  dense : ∀ (i : Nat) node, graph.expansions[i]? = some node → node.id = ⟨i⟩
  distinct : (graph.expansions.map KeyedExpansion.key).Nodup
  root : ∀ node ∈ graph.expansions, node.identityParent = none → node.key.parts.length = 1
  extends_parent : ∀ node ∈ graph.expansions, ∀ id, node.identityParent = some id →
    ∃ parent ∈ graph.expansions, parent.id = id ∧
      ∃ leaf, node.key.parts = parent.key.parts ++ [leaf]
  nonempty : ∀ node ∈ graph.expansions, node.key.parts ≠ []
  small : graph.expansions.length ≤ u32Size

/-- The parents of selected expansions are selected. -/
def ClosedUnderParents (graph : KeyedGraph) (selected : Finset GraphNode) : Prop :=
  ∀ node ∈ graph.expansions, GraphNode.expansion node.id ∈ selected →
    ∀ id ∈ node.parents, GraphNode.expansion id ∈ selected

section Forest

variable (graph : KeyedGraph) (selected : Finset GraphNode)

def keyOf (id : ExpansionId) : List ExpansionKeyPart :=
  (graph.expansions[id.index]?.map fun node => node.key.parts).getD []

/-- The last part of the key without its ordinal. -/
def labelOf (id : ExpansionId) : WithBot ExpansionKeyPart :=
  (graph.keyOf id).getLast?.map ExpansionKeyPart.withoutOrdinal

def selectedIds : List ExpansionId :=
  (graph.expansions.filter fun node => GraphNode.expansion node.id ∈ selected).map
    fun node => node.id

def selectedChildren (id : ExpansionId) : List ExpansionId :=
  (graph.selectedIds selected).filter fun child => (graph.keyOf child).dropLast = graph.keyOf id

/-- The depth of the last expansions. -/
def maxDepth : Nat := (graph.expansions.map fun node => node.key.parts.length).foldr max 0

end Forest

variable {graph : KeyedGraph} {selected : Finset GraphNode} {id : ExpansionId} {depth : Nat}

/-! ## Keys -/

theorem identityParent_mem_parents {node : ExpansionNode} {parent : ExpansionId}
    (h : node.identityParent = some parent) : parent ∈ node.parents := by
  unfold ExpansionNode.identityParent at h
  unfold ExpansionNode.parents
  rw [mem_filterMap]
  rcases Option.or_eq_some_iff.mp h with h | ⟨-, h⟩
  · rcases Option.or_eq_some_iff.mp h with h | ⟨-, h⟩
    · exact ⟨_, mem_cons_self, h⟩
    · exact ⟨node.sourceCallParent, by simp, h⟩
  · exact ⟨node.semanticParent, by simp, h⟩

namespace Accepted

variable (h : graph.Accepted)

include h

theorem getElem?_id {node : KeyedExpansion} (hnode : node ∈ graph.expansions) :
    graph.expansions[node.id.index]? = some node := by
  obtain ⟨i, hi⟩ := getElem?_of_mem hnode
  rw [h.dense i node hi]
  exact hi

theorem keyOf_id {node : KeyedExpansion} (hnode : node ∈ graph.expansions) :
    graph.keyOf node.id = node.key.parts := by
  rw [keyOf, h.getElem?_id hnode]
  rfl

theorem expansionKey_eq {node : KeyedExpansion} (hnode : node ∈ graph.expansions) :
    graph.expansionKey node.id = .ok node.key := by
  rw [expansionKey, expansionNode, h.getElem?_id hnode, Option.filter_some, if_pos (by simp)]
  rfl

theorem key_injective {a b : KeyedExpansion} (ha : a ∈ graph.expansions)
    (hb : b ∈ graph.expansions) (heq : a.key.parts = b.key.parts) : a = b := by
  refine inj_on_of_nodup_map h.distinct ha hb ?_
  cases hka : a.key
  cases hkb : b.key
  rw [hka, hkb] at heq
  exact congrArg ExpansionKey.mk heq

theorem rawIds_get (key : ExpansionKey) : graph.rawIds.get key = some id ↔
    ∃ node ∈ graph.expansions, node.key = key ∧ node.id = id := by
  have hfold : ∀ (l done : List KeyedExpansion) (ids : SortedMap ExpansionKey ExpansionId),
      done ++ l = graph.expansions →
      (∀ key id, ids.get key = some id ↔ ∃ node ∈ done, node.key = key ∧ node.id = id) →
      ∀ key id, (l.foldl (fun ids node => ids.insert node.key node.id) ids).get key = some id ↔
        ∃ node ∈ graph.expansions, node.key = key ∧ node.id = id := by
    intro l
    induction l with
    | nil =>
      intro done ids hdone hids
      rw [append_nil] at hdone
      exact hdone ▸ hids
    | cons node l ih =>
      intro done ids hdone hids
      refine ih (done ++ [node]) _ ((append_assoc _ _ _).trans hdone) fun key id => ?_
      have hnodup := h.distinct
      rw [← hdone, map_append, map_cons, nodup_append] at hnodup
      rw [SortedMap.get_insert]
      by_cases hkey : key = node.key
      · rw [if_pos hkey, Option.some.injEq]
        constructor
        · rintro rfl
          exact ⟨node, mem_append_right _ (mem_singleton_self node), hkey.symm, rfl⟩
        · rintro ⟨other, hother, hotherKey, rfl⟩
          rcases mem_append.mp hother with hother | hother
          · exact absurd (hotherKey.trans hkey) (hnodup.2.2 _ (mem_map_of_mem hother) _
              mem_cons_self)
          · rw [mem_singleton.mp hother]
      · rw [if_neg hkey, hids]
        constructor
        · rintro ⟨other, hother, hrest⟩
          exact ⟨other, mem_append_left _ hother, hrest⟩
        · rintro ⟨other, hother, hotherKey, hid⟩
          rcases mem_append.mp hother with hother | hother
          · exact ⟨other, hother, hotherKey, hid⟩
          · rw [mem_singleton.mp hother] at hotherKey
            exact absurd hotherKey.symm hkey
  refine hfold graph.expansions [] .empty rfl (fun key id => ?_) key id
  exact iff_of_false (fun h => (by cases h)) fun ⟨_, hmem, _⟩ => absurd hmem not_mem_nil

end Accepted

/-! ## The forest -/

theorem mem_selectedIds : id ∈ graph.selectedIds selected ↔
    ∃ node ∈ graph.expansions, node.id = id ∧ GraphNode.expansion id ∈ selected := by
  rw [selectedIds, mem_map]
  constructor
  · rintro ⟨node, hnode, rfl⟩
    obtain ⟨hnode, hselected⟩ := mem_filter.mp hnode
    exact ⟨node, hnode, rfl, of_decide_eq_true hselected⟩
  · rintro ⟨node, hnode, rfl, hselected⟩
    exact ⟨node, mem_filter.mpr ⟨hnode, decide_eq_true hselected⟩, rfl⟩

theorem mem_selectedChildren {child : ExpansionId} : child ∈ graph.selectedChildren selected id ↔
    child ∈ graph.selectedIds selected ∧ (graph.keyOf child).dropLast = graph.keyOf id := by
  rw [selectedChildren, mem_filter, decide_eq_true_eq]

theorem length_keyOf_le (id : ExpansionId) : (graph.keyOf id).length ≤ graph.maxDepth := by
  unfold keyOf maxDepth
  cases hnode : graph.expansions[id.index]? with
  | none => exact Nat.zero_le _
  | some node =>
    have hmem := mem_map_of_mem (f := fun node : KeyedExpansion => node.key.parts.length)
      (mem_of_getElem? hnode)
    have hle : ∀ {l : List Nat} {n}, n ∈ l → n ≤ l.foldr max 0 := by
      intro l n hn
      induction l with
      | nil => cases hn
      | cons m l ih =>
        rcases mem_cons.mp hn with rfl | hn
        · exact le_max_left _ _
        · exact (ih hn).trans (le_max_right _ _)
    exact hle hmem

def depthEntry (graph : KeyedGraph) (id : ExpansionId) : DepthEntry :=
  toLex ((graph.keyOf id).length, id)

/-- The selected expansions by their keys. -/
structure IsForest (graph : KeyedGraph) (selected : Finset GraphNode) : Prop where
  key : ∀ id ∈ graph.selectedIds selected, graph.expansionKey id = .ok ⟨graph.keyOf id⟩
  lt : ∀ id ∈ graph.selectedIds selected, id.index < graph.expansions.length
  nonempty : ∀ id ∈ graph.selectedIds selected, graph.keyOf id ≠ []
  injective : ∀ a ∈ graph.selectedIds selected, ∀ b ∈ graph.selectedIds selected,
    graph.keyOf a = graph.keyOf b → a = b
  nodup : (graph.selectedIds selected).Nodup
  entries : (graph.byDepth selected).Perm ((graph.selectedIds selected).map graph.depthEntry)
  parent : ∀ id ∈ graph.selectedIds selected, (graph.keyOf id).length ≠ 1 →
    ∃ parent ∈ graph.selectedIds selected, graph.keyOf parent = (graph.keyOf id).dropLast ∧
      selectedParent selected graph.rawIds ⟨graph.keyOf id⟩ (graph.keyOf id).length = .ok parent

theorem isForest (h : graph.Accepted) (hclosed : graph.ClosedUnderParents selected) :
    graph.IsForest selected := by
  refine ⟨fun id hid => ?_, fun id hid => ?_, fun id hid => ?_, fun a ha b hb heq => ?_, ?_, ?_,
    fun id hid hdepth => ?_⟩
  · obtain ⟨node, hnode, rfl, -⟩ := mem_selectedIds.mp hid
    rw [h.keyOf_id hnode]
    exact h.expansionKey_eq hnode
  · obtain ⟨node, hnode, rfl, -⟩ := mem_selectedIds.mp hid
    exact (List.getElem?_eq_some_iff.mp (h.getElem?_id hnode)).1
  · obtain ⟨node, hnode, rfl, -⟩ := mem_selectedIds.mp hid
    rw [h.keyOf_id hnode]
    exact h.nonempty node hnode
  · obtain ⟨node, hnode, rfl, -⟩ := mem_selectedIds.mp ha
    obtain ⟨other, hother, rfl, -⟩ := mem_selectedIds.mp hb
    rw [h.keyOf_id hnode, h.keyOf_id hother] at heq
    rw [h.key_injective hnode hother heq]
  · have hids : (graph.expansions.map fun node => node.id).Nodup := by
      refine List.Nodup.map_on (fun a ha b hb heq => ?_) (List.Nodup.of_map _ h.distinct)
      have hget := h.getElem?_id ha
      rw [heq, h.getElem?_id hb] at hget
      exact (Option.some.inj hget).symm
    exact (filter_sublist.map _).nodup hids
  · refine (perm_insertionSort _ _).trans (.of_eq ?_)
    rw [selectedIds, map_map]
    refine map_congr_left fun node hnode => ?_
    show _ = graph.depthEntry node.id
    rw [depthEntry, h.keyOf_id (mem_filter.mp hnode).1]
  · obtain ⟨node, hnode, rfl, hselected⟩ := mem_selectedIds.mp hid
    rw [h.keyOf_id hnode] at hdepth ⊢
    cases hparent : node.identityParent with
    | none => exact absurd (h.root node hnode hparent) hdepth
    | some parentId =>
      obtain ⟨parent, hmem, rfl, leaf, hkey⟩ := h.extends_parent node hnode parentId hparent
      have hselectedParent := hclosed node hnode hselected _ (identityParent_mem_parents hparent)
      have hdrop : node.key.parts.dropLast = parent.key.parts := by
        rw [hkey, dropLast_concat]
      have htake : node.key.parts.take (node.key.parts.length - 1) = parent.key.parts := by
        rw [← hdrop, dropLast_eq_take]
      refine ⟨parent.id, mem_selectedIds.mpr ⟨parent, hmem, rfl, hselectedParent⟩, ?_, ?_⟩
      · rw [h.keyOf_id hmem, hdrop]
      · have hget : graph.rawIds.get ⟨node.key.parts.take (node.key.parts.length - 1)⟩ =
            some parent.id := (h.rawIds_get _).mpr ⟨parent, hmem, by rw [htake], rfl⟩
        rw [selectedParent, hget, Option.filter_some, if_pos (decide_eq_true hselectedParent)]

/-! ## Children and depths -/

/-- The children and the depths of the expansions that have been collected. -/
structure CollectedFrom (graph : KeyedGraph) (selected : Finset GraphNode)
    (done : List ExpansionId) (collected : SubtreeChildren) : Prop where
  length_eq : collected.children.length = graph.expansions.length
  children : ∀ p ∈ graph.selectedIds selected, collected.children[p.index]?.getD [] =
    done.filter fun child => (graph.keyOf child).dropLast = graph.keyOf p
  ids : ∀ depth, (collected.idsByDepth.get depth).getD [] =
    done.filter fun id => (graph.keyOf id).length = depth
  inhabited : ∀ depth, collected.idsByDepth.get depth ≠ some []

namespace IsForest

variable (h : graph.IsForest selected) {done : List ExpansionId} {collected : SubtreeChildren}

include h

theorem collectChild_total (hcollected : CollectedFrom graph selected done collected)
    (hid : id ∈ graph.selectedIds selected) : ∃ next,
      graph.collectChild selected graph.rawIds collected (graph.depthEntry id) = .ok next ∧
        CollectedFrom graph selected (done ++ [id]) next := by
  have hids : ∀ depth,
      ((collected.idsByDepth.insert (graph.keyOf id).length
        ((collected.idsByDepth.get (graph.keyOf id).length).getD [] ++ [id])).get depth).getD [] =
        (done ++ [id]).filter fun id => (graph.keyOf id).length = depth := by
    intro depth
    rw [SortedMap.get_insert, filter_append]
    by_cases hdepth : depth = (graph.keyOf id).length
    · rw [if_pos hdepth, Option.getD_some, hcollected.ids, hdepth, filter_singleton,
        decide_eq_true rfl]
      rfl
    · rw [if_neg hdepth, hcollected.ids, filter_singleton,
        decide_eq_false fun heq => hdepth heq.symm]
      exact (append_nil _).symm
  have hinhabited : ∀ depth, (collected.idsByDepth.insert (graph.keyOf id).length
      ((collected.idsByDepth.get (graph.keyOf id).length).getD [] ++
        [id])).get depth ≠ some [] := by
    intro depth
    rw [SortedMap.get_insert]
    split
    · exact fun heq => append_ne_nil_of_right_ne_nil _ (cons_ne_nil _ _) (Option.some.inj heq)
    · exact hcollected.inhabited depth
  have hkey := h.key id hid
  unfold collectChild
  by_cases hroot : (graph.keyOf id).length = 1
  · refine ⟨_, if_pos hroot, hcollected.length_eq, fun p hp => ?_, hids, hinhabited⟩
    have hne : (graph.keyOf id).dropLast ≠ graph.keyOf p := by
      intro heq
      have hnil : (graph.keyOf p).length = 0 := by
        rw [← heq, length_dropLast, hroot]
      exact h.nonempty p hp (length_eq_zero_iff.mp hnil)
    rw [filter_append, filter_singleton, decide_eq_false hne, hcollected.children p hp]
    exact (append_nil _).symm
  · obtain ⟨parent, hparent, hpath, hselected⟩ := h.parent id hid hroot
    refine ⟨⟨collected.children.modify parent.index (· ++ [id]), collected.idsByDepth.insert
      (graph.keyOf id).length ((collected.idsByDepth.get (graph.keyOf id).length).getD [] ++ [id])⟩,
      ?_, ?_, fun p hp => ?_, hids, hinhabited⟩
    · refine (if_neg hroot).trans ?_
      show (graph.expansionKey id >>= _) = _
      rw [hkey]
      show (selectedParent selected graph.rawIds ⟨graph.keyOf id⟩ (graph.keyOf id).length >>= _) = _
      rw [hselected]
      rfl
    · exact (length_modify _ _ _).trans hcollected.length_eq
    · have hlt : p.index < collected.children.length := hcollected.length_eq ▸ h.lt p hp
      have hchildren := hcollected.children p hp
      rw [getElem?_eq_getElem hlt, Option.getD_some] at hchildren
      rw [getElem?_modify, getElem?_eq_getElem hlt, filter_append, filter_singleton, ← hchildren]
      show (if parent.index = p.index then collected.children[p.index] ++ [id]
        else collected.children[p.index]) = _
      by_cases heq : parent.index = p.index
      · have hsame : parent = p := congrArg ExpansionId.mk heq
        rw [if_pos heq, decide_eq_true (by rw [← hpath, hsame])]
        rfl
      · rw [if_neg heq, decide_eq_false]
        · exact (append_nil _).symm
        · intro hchild
          rw [← hpath] at hchild
          exact heq (congrArg ExpansionId.index (h.injective parent hparent p hp hchild))

theorem exists_byDepth_eq : ∃ ids : List ExpansionId, ids.Perm (graph.selectedIds selected) ∧
    graph.byDepth selected = ids.map graph.depthEntry := by
  refine ⟨(graph.byDepth selected).map fun entry => (ofLex entry).2, ?_, ?_⟩
  · refine (h.entries.map _).trans (.of_eq ?_)
    exact map_map.trans (map_id _)
  · rw [map_map]
    refine (map_id _).symm.trans (map_congr_left fun entry hentry => ?_)
    obtain ⟨id, -, rfl⟩ := mem_map.mp (h.entries.subset hentry)
    rfl

/-- All expansions are collected. -/
theorem collect_total : ∃ collected,
    (graph.byDepth selected).foldlM (graph.collectChild selected graph.rawIds)
        ⟨List.replicate graph.expansions.length [], .empty⟩ = .ok collected ∧
      ∃ done : List ExpansionId, done.Perm (graph.selectedIds selected) ∧
        CollectedFrom graph selected done collected := by
  obtain ⟨ids, hperm, hids⟩ := h.exists_byDepth_eq
  have hstart : CollectedFrom graph selected []
      ⟨List.replicate graph.expansions.length [], .empty⟩ := by
    refine ⟨length_replicate, fun p hp => ?_, fun _ => rfl, fun _ heq => (by cases heq)⟩
    rw [getElem?_replicate, if_pos (h.lt p hp)]
    rfl
  obtain ⟨collected, hrun, hcollected⟩ := foldlM_total (l := ids)
    (f := fun collected id =>
      graph.collectChild selected graph.rawIds collected (graph.depthEntry id))
    (P := CollectedFrom graph selected)
    (fun done id rest collected hl hdone => h.collectChild_total hdone
      (hperm.subset (hl ▸ mem_append_right _ mem_cons_self))) hstart
  refine ⟨collected, ?_, ids, hperm, hcollected⟩
  rw [hids, foldlM_map]
  exact hrun

/-! ## Ranks -/

end IsForest

/-- The rank that has been stored for an expansion. -/
def rankAt (ranks : List (Option Nat)) (id : ExpansionId) : Nat := (ranks[id.index]?.join).getD 0

theorem subtreeRank_eq {ranks : List (Option Nat)} (h : (ranks[id.index]?.join).isSome) :
    subtreeRank ranks id = .ok (rankAt ranks id) := by
  obtain ⟨rank, hrank⟩ := Option.isSome_iff_exists.mp h
  unfold subtreeRank rankAt
  rw [hrank]
  rfl

/-- What is compared at a node. -/
def shapeAt (graph : KeyedGraph) (selected : Finset GraphNode) (ranks : List (Option Nat))
    (id : ExpansionId) : WithBot ExpansionKeyPart ×ₗ List Nat :=
  shapeOf graph.labelOf (graph.selectedChildren selected) (rankAt ranks) id

/-- The depths so far are ranked. -/
structure RankedFrom (graph : KeyedGraph) (selected : Finset GraphNode) (Done : Nat → Prop)
    (ranks : List (Option Nat)) : Prop where
  length_eq : ranks.length = graph.expansions.length
  isSome : ∀ id ∈ graph.selectedIds selected, Done (graph.keyOf id).length →
    (ranks[id.index]?.join).isSome
  rank_lt_iff : ∀ a ∈ graph.selectedIds selected, ∀ b ∈ graph.selectedIds selected,
    (graph.keyOf a).length = (graph.keyOf b).length → Done (graph.keyOf a).length →
      (rankAt ranks a < rankAt ranks b ↔
        shapeAt graph selected ranks a < shapeAt graph selected ranks b)

/-- In a sorted list the places of elements are ordered as the elements are. -/
theorem exists_findIdx {α : Type} [LinearOrder α] {l : List α} {a : α} (ha : a ∈ l) :
    ∃ i, l.findIdx? (fun other => other = a) = some i ∧ l[i]? = some a := by
  cases h : l.findIdx? fun other => other = a with
  | none => exact absurd rfl (of_decide_eq_false (findIdx?_eq_none_iff.mp h a ha))
  | some i =>
    obtain ⟨hlt, hi, -⟩ := findIdx?_eq_some_iff_getElem.mp h
    exact ⟨i, rfl, (getElem?_eq_getElem hlt).trans (congrArg some (of_decide_eq_true hi))⟩

section Store

variable {sorted : List ExpansionSubtreeShape} {shapes : List (ExpansionId × ExpansionSubtreeShape)}
  {ranks : List (Option Nat)}

theorem length_storeRanks : (shapes.foldl (storeRank sorted) ranks).length = ranks.length :=
  length_foldl_set ranks

theorem getElem?_storeRanks_of_ne (h : ∀ shape ∈ shapes, shape.1 ≠ id) :
    (shapes.foldl (storeRank sorted) ranks)[id.index]? = ranks[id.index]? := by
  apply getElem?_foldl_set_of_ne
  exact fun shape hshape heq => h shape hshape (congrArg ExpansionId.mk heq)

theorem getElem?_storeRanks {shape : ExpansionId × ExpansionSubtreeShape} (hshape : shape ∈ shapes)
    (hnodup : (shapes.map Prod.fst).Nodup) (hlt : shape.1.index < ranks.length) :
    (shapes.foldl (storeRank sorted) ranks)[shape.1.index]? =
      some (sorted.findIdx? fun other => other = shape.2) := by
  have hplaces : (shapes.map fun shape => shape.1.index).Nodup := by
    have hindex : Function.Injective ExpansionId.index := fun a b heq => congrArg ExpansionId.mk heq
    have hnodup := hnodup.map hindex
    rwa [map_map] at hnodup
  exact getElem?_foldl_set hplaces hshape hlt

end Store

namespace IsForest

variable (h : graph.IsForest selected) {children : List (List ExpansionId)}
  {ranks : List (Option Nat)} {Done : Nat → Prop}
  (hchildren : ∀ p ∈ graph.selectedIds selected,
    (children[p.index]?.getD []).Perm (graph.selectedChildren selected p))

include h

theorem leafPart_eq (hid : id ∈ graph.selectedIds selected) : ∃ leaf,
    graph.leafPart id (graph.keyOf id).length = .ok leaf ∧
      graph.keyOf id = (graph.keyOf id).dropLast ++ [leaf] ∧
      graph.labelOf id = leaf.withoutOrdinal := by
  obtain ⟨leaf, hleaf⟩ : ∃ leaf, (graph.keyOf id).getLast? = some leaf :=
    Option.isSome_iff_exists.mp (getLast?_isSome.mpr (h.nonempty id hid))
  refine ⟨leaf, ?_, ?_, ?_⟩
  · have hlast : (graph.keyOf id)[(graph.keyOf id).length - 1]? = some leaf := by
      rw [← getLast?_eq_getElem?, hleaf]
    rw [leafPart, h.key id hid]
    dsimp only [bind, Except.bind]
    rw [hlast]
    rfl
  · exact (dropLast_append_getLast? leaf hleaf).symm
  · rw [labelOf, hleaf]
    rfl

theorem length_child {child : ExpansionId} (hchild : child ∈ graph.selectedChildren selected id) :
    (graph.keyOf child).length = (graph.keyOf id).length + 1 := by
  obtain ⟨hmem, hdrop⟩ := mem_selectedChildren.mp hchild
  have hlength := congrArg List.length hdrop
  rw [length_dropLast] at hlength
  have hpos := length_pos_iff.mpr (h.nonempty child hmem)
  omega

include hchildren

theorem subtreeShape_eq (hranks : RankedFrom graph selected Done ranks)
    (hid : id ∈ graph.selectedIds selected)
    (hdone : ∀ child ∈ graph.selectedChildren selected id, Done (graph.keyOf child).length) :
    ∃ shape, graph.subtreeShape children ranks (graph.keyOf id).length id = .ok (id, shape) ∧
      shapeAt graph selected ranks id = toLex (↑shape.leaf, shape.children) := by
  obtain ⟨leaf, hleaf, -, hlabel⟩ := h.leafPart_eq hid
  have hperm := hchildren id hid
  have hall : (children[id.index]?.getD []).mapM (subtreeRank ranks) =
      .ok ((children[id.index]?.getD []).map (rankAt ranks)) := by
    refine mapM_eq_map fun child hchild => ?_
    have hchild := hperm.subset hchild
    exact subtreeRank_eq
      (hranks.isSome child (mem_selectedChildren.mp hchild).1 (hdone child hchild))
  refine ⟨⟨leaf.withoutOrdinal, ((children[id.index]?.getD []).map (rankAt ranks)).insertionSort
    (· ≤ ·)⟩, ?_, ?_⟩
  · rw [subtreeShape, hleaf]
    show (_ >>= _) = _
    rw [hall]
    rfl
  · rw [shapeAt, shapeOf, hlabel, insertionSort_eq_of_perm (hperm.map _)]

/-- One more depth is ranked, after all depths below. -/
theorem rankDepth_total (hranks : RankedFrom graph selected Done ranks) {ids : List ExpansionId}
    (hids : ∀ id, id ∈ ids ↔ id ∈ graph.selectedIds selected ∧ (graph.keyOf id).length = depth)
    (hnodup : ids.Nodup) (hsmall : ids.length ≤ u32Size)
    (hbelow : ∀ id ∈ graph.selectedIds selected, depth < (graph.keyOf id).length →
      Done (graph.keyOf id).length)
    (habove : ∀ d, Done d → depth < d) : ∃ next,
      graph.rankDepth children ranks (depth, ids) = .ok next ∧
        RankedFrom graph selected (fun d => Done d ∨ d = depth) next := by
  have hshapes : ∀ id ∈ ids, ∃ shape, graph.subtreeShape children ranks depth id = .ok shape ∧
      shape.1 = id ∧ shapeAt graph selected ranks id = toLex (↑shape.2.leaf, shape.2.children) := by
    intro id hid
    obtain ⟨hmem, rfl⟩ := (hids id).mp hid
    obtain ⟨shape, hshape, heq⟩ := h.subtreeShape_eq hchildren hranks hmem fun child hchild =>
      hbelow child (mem_selectedChildren.mp hchild).1 (h.length_child hchild ▸ Nat.lt_succ_self _)
    exact ⟨(id, shape), hshape, rfl, heq⟩
  obtain ⟨shapes, hforall⟩ := exists_forall₂ hshapes
  have hrun : ids.mapM (graph.subtreeShape children ranks depth) = .ok shapes :=
    mapM_total (hforall.imp fun _ _ h => h.1)
  have hfst : shapes.map Prod.fst = ids :=
    (map_eq_map_of_forall₂ (f := id) (hforall.imp fun _ _ h => h.2.1)).trans (map_id _)
  have hshape : ∀ shape ∈ shapes, shape.1 ∈ ids ∧
      shapeAt graph selected ranks shape.1 = toLex (↑shape.2.leaf, shape.2.children) := by
    intro shape hshape
    obtain ⟨i, hi⟩ := getElem?_of_mem hshape
    obtain ⟨id, hid, -, rfl, heq⟩ := getElem?_of_forall₂_right hforall hi
    exact ⟨mem_of_getElem? hid, heq⟩
  have hlength : (sortDedup (shapes.map Prod.snd)).length ≤ u32Size := by
    rw [sortDedup, length_ascending]
    refine (toFinset_card_le _).trans ?_
    rw [length_map, ← length_map (f := Prod.fst), hfst]
    exact hsmall
  refine ⟨shapes.foldl (storeRank (sortDedup (shapes.map Prod.snd))) ranks, ?_, ?_⟩
  · rw [rankDepth, hrun]
    exact if_neg (not_lt.mpr hlength)
  -- the ranks of this depth are places in the sorted list, the others are as before
  have hplace : ∀ id ∈ ids, ∃ shape ∈ shapes, shape.1 = id ∧ ∃ i,
      (shapes.foldl (storeRank (sortDedup (shapes.map Prod.snd))) ranks)[id.index]? =
        some (some i) ∧ (sortDedup (shapes.map Prod.snd))[i]? = some shape.2 := by
    intro id hid
    obtain ⟨shape, hmem, rfl⟩ := mem_map.mp (hfst ▸ hid)
    have hin : shape.2 ∈ sortDedup (shapes.map Prod.snd) :=
      mem_sortDedup.mpr (mem_map_of_mem hmem)
    obtain ⟨i, hfind, hi⟩ := exists_findIdx hin
    refine ⟨shape, hmem, rfl, i, ?_, hi⟩
    rw [getElem?_storeRanks hmem (hfst ▸ hnodup) (hranks.length_eq ▸ h.lt _ ((hids _).mp hid).1),
      hfind]
  have hother : ∀ id ∈ graph.selectedIds selected, (graph.keyOf id).length ≠ depth →
      (shapes.foldl (storeRank (sortDedup (shapes.map Prod.snd))) ranks)[id.index]? =
        ranks[id.index]? := fun id hid hdepth =>
    getElem?_storeRanks_of_ne fun shape hmem heq =>
      hdepth ((hids id).mp (heq ▸ (hshape shape hmem).1)).2
  have hshapeAt : ∀ id ∈ graph.selectedIds selected, depth ≤ (graph.keyOf id).length →
      shapeAt graph selected (shapes.foldl (storeRank (sortDedup (shapes.map Prod.snd))) ranks) id =
        shapeAt graph selected ranks id := by
    intro id hid hdepth
    unfold shapeAt shapeOf
    congr 3
    refine map_congr_left fun child hchild => ?_
    unfold rankAt
    rw [hother child (mem_selectedChildren.mp hchild).1]
    rw [h.length_child hchild]
    exact (Nat.lt_succ_of_le hdepth).ne'
  refine ⟨length_storeRanks.trans hranks.length_eq, fun id hid hdone => ?_,
    fun a ha b hb hlevel hdone => ?_⟩
  · by_cases hdepth : (graph.keyOf id).length = depth
    · obtain ⟨-, -, -, i, hi, -⟩ := hplace id ((hids id).mpr ⟨hid, hdepth⟩)
      rw [hi]
      rfl
    · rw [hother id hid hdepth]
      exact hranks.isSome id hid (hdone.resolve_right hdepth)
  · rcases hdone with hdone | hdepth
    · have hlt := habove _ hdone
      rw [hshapeAt a ha hlt.le, hshapeAt b hb (hlevel ▸ hlt.le),
        ← hranks.rank_lt_iff a ha b hb hlevel hdone]
      unfold rankAt
      rw [hother a ha hlt.ne', hother b hb (hlevel ▸ hlt.ne')]
    · obtain ⟨shape, hmem, rfl, i, hi, hsorted⟩ := hplace a ((hids a).mpr ⟨ha, hdepth⟩)
      obtain ⟨shape', hmem', rfl, j, hj, hsorted'⟩ := hplace b ((hids b).mpr ⟨hb, hlevel ▸ hdepth⟩)
      rw [hshapeAt _ ha hdepth.ge, hshapeAt _ hb (hlevel ▸ hdepth.ge), (hshape shape hmem).2,
        (hshape shape' hmem').2]
      unfold rankAt
      rw [hi, hj]
      refine (getElem?_lt_iff (pairwise_sortDedup _) hsorted hsorted').trans ?_
      rw [Prod.Lex.toLex_lt_toLex, WithBot.coe_lt_coe, WithBot.coe_inj]
      exact Prod.Lex.toLex_lt_toLex

omit hchildren in
/-- By induction on the depths from the last one. -/
theorem expansionSubtreeRanks_total (hsmall : graph.expansions.length ≤ u32Size) : ∃ ranks,
    graph.expansionSubtreeRanks selected graph.rawIds (graph.byDepth selected) = .ok ranks ∧
      RankedFrom graph selected (fun _ => True) ranks := by
  obtain ⟨collected, hrun, done, hperm, hcollected⟩ := h.collect_total
  have hchildren : ∀ p ∈ graph.selectedIds selected,
      (collected.children[p.index]?.getD []).Perm (graph.selectedChildren selected p) := by
    intro p hp
    rw [hcollected.children p hp]
    exact hperm.filter _
  have hentry : ∀ entry ∈ collected.idsByDepth.entries,
      entry.2 = done.filter fun id => (graph.keyOf id).length = entry.1 := by
    rintro ⟨depth, ids⟩ hentry
    have hids := hcollected.ids depth
    rwa [SortedMap.get_eq_some.mpr hentry] at hids
  have hkey : ∀ id ∈ graph.selectedIds selected,
      (graph.keyOf id).length ∈ collected.idsByDepth.entries.map Prod.fst := by
    intro id hid
    refine SortedMap.mem_keys.mpr ?_
    cases hget : collected.idsByDepth.get (graph.keyOf id).length with
    | some ids => exact ⟨ids, rfl⟩
    | none =>
      have hids := hcollected.ids (graph.keyOf id).length
      rw [hget] at hids
      have hmem :
          id ∈ done.filter fun other => (graph.keyOf other).length = (graph.keyOf id).length :=
        mem_filter.mpr ⟨hperm.mem_iff.mpr hid, decide_eq_true rfl⟩
      rw [← hids] at hmem
      cases hmem
  have hsorted := collected.idsByDepth.sorted
  have hlength : done.length ≤ u32Size := by
    rw [hperm.length_eq, selectedIds, length_map]
    exact (length_filter_le _ _).trans hsmall
  have hstart : RankedFrom graph selected (· ∈ ([] : List (Nat × List ExpansionId)).map Prod.fst)
      (List.replicate graph.expansions.length none) :=
    ⟨length_replicate, fun _ _ hdone => absurd hdone not_mem_nil,
      fun _ _ _ _ _ hdone => absurd hdone not_mem_nil⟩
  have hstep : ∀ (before : List (Nat × List ExpansionId)) entry rest ranks,
      collected.idsByDepth.entries.reverse = before ++ entry :: rest →
      RankedFrom graph selected (· ∈ before.map Prod.fst) ranks → ∃ next,
        graph.rankDepth collected.children ranks entry = .ok next ∧
          RankedFrom graph selected (· ∈ (before ++ [entry]).map Prod.fst) next := by
    rintro before ⟨depth, ids⟩ rest ranks hl hbefore
    have hmem : (depth, ids) ∈ collected.idsByDepth.entries :=
      mem_reverse.mp (hl ▸ mem_append_right _ mem_cons_self)
    have hids : ids = done.filter fun id => (graph.keyOf id).length = depth := hentry _ hmem
    -- the depths before are those below, and the rest are above
    have hdepths : (collected.idsByDepth.entries.reverse.map Prod.fst).Pairwise (· > ·) := by
      rw [map_reverse]
      exact pairwise_reverse.mpr hsorted
    rw [hl, map_append, map_cons, pairwise_append, pairwise_cons] at hdepths
    obtain ⟨-, ⟨hrest, -⟩, hbefore'⟩ := hdepths
    have hmembers : ∀ id, id ∈ ids ↔
        id ∈ graph.selectedIds selected ∧ (graph.keyOf id).length = depth := fun id => by
      rw [hids, mem_filter, decide_eq_true_eq, hperm.mem_iff]
    have hnodup : ids.Nodup := hids ▸ (hperm.nodup_iff.mpr h.nodup).filter _
    have hfew : ids.length ≤ u32Size := hids ▸ (length_filter_le _ _).trans hlength
    have hbelow : ∀ id ∈ graph.selectedIds selected, depth < (graph.keyOf id).length →
        (graph.keyOf id).length ∈ before.map Prod.fst := by
      intro id hid hlt
      have hin := hkey id hid
      rw [← mem_reverse, ← map_reverse, hl, map_append, mem_append, map_cons, mem_cons] at hin
      rcases hin with hin | heq | hin
      · exact hin
      · exact absurd heq hlt.ne'
      · exact absurd (hrest _ hin) hlt.asymm
    obtain ⟨next, hnext, hranked⟩ := h.rankDepth_total hchildren hbefore hmembers hnodup hfew hbelow
      fun d hd => hbefore' d hd depth mem_cons_self
    have hdone : ∀ {d}, d ∈ (before ++ [(depth, ids)]).map Prod.fst →
        d ∈ before.map Prod.fst ∨ d = depth := fun {d} hd => by
      rw [map_append, mem_append] at hd
      exact hd.imp_right mem_singleton.mp
    exact ⟨next, hnext, hranked.length_eq, fun id hid hd => hranked.isSome id hid (hdone hd),
      fun a ha b hb hlevel hd => hranked.rank_lt_iff a ha b hb hlevel (hdone hd)⟩
  obtain ⟨ranks, hranks, hall⟩ := foldlM_total
    (P := fun done ranks => RankedFrom graph selected (· ∈ done.map Prod.fst) ranks) hstep hstart
  refine ⟨ranks, ?_, hall.length_eq, fun id hid _ => hall.isSome id hid ?_,
    fun a ha b hb hlevel _ => hall.rank_lt_iff a ha b hb hlevel ?_⟩
  · rw [expansionSubtreeRanks, hrun]
    exact hranks
  · rw [map_reverse, mem_reverse]
    exact hkey id hid
  · rw [map_reverse, mem_reverse]
    exact hkey a ha

end IsForest

/-! ## The ranked forest -/

/-- The selected expansions with their ranks. -/
def rankedForest (h : graph.IsForest selected) {ranks : List (Option Nat)}
    (hranks : RankedFrom graph selected (fun _ => True) ranks) :
    RankedForest ExpansionId (WithBot ExpansionKeyPart) where
  label := graph.labelOf
  children := graph.selectedChildren selected
  rank := rankAt ranks
  level id := (graph.keyOf id).length
  top := graph.maxDepth
  Node id := id ∈ graph.selectedIds selected
  level_le _ := length_keyOf_le _
  child _ hchild := ⟨(mem_selectedChildren.mp hchild).1, h.length_child hchild⟩
  rank_lt_iff ha hb hlevel := hranks.rank_lt_iff _ ha _ hb hlevel trivial

/-- The selected subtrees are the same, but for the order of siblings and their ordinals. -/
def SameSubtree (graph : KeyedGraph) (selected : Finset GraphNode) (graph' : KeyedGraph)
    (selected' : Finset GraphNode) (a b : ExpansionId) : Prop :=
  SameTree graph.labelOf (graph.selectedChildren selected) graph'.labelOf
    (graph'.selectedChildren selected') a b

end KeyedGraph

end ItemDependencies
