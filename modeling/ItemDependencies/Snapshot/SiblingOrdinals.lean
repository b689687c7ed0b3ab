import ItemDependencies.Snapshot.SiblingGroups
import Mathlib.Data.List.ReduceOption

/-!
# Ordinals of siblings

Where nothing but their subtrees tells siblings of one role apart, their ordinals in a snapshot are
the ranks of the subtrees among them.
-/

namespace ItemDependencies

open Library List

namespace KeyedGraph

variable {graph : KeyedGraph} {selected : Finset GraphNode} {sourceFilter : Option SourceFilter}
  {depth : Nat} {parent : Option ExpansionKey} {filtered : Option (List (Option Nat))}
  {numbered : Bool} {keys next : List ExpansionKey} {ranks : List (Option Nat)}
  {a b : ExpansionId} {ids : List ExpansionId} {group refined : WitnessedGroup}
  {witness : ExpansionId → Except SnapshotError (Finset DefinitionKey)}
  {siblings : List ExpansionId}

/-! ## Siblings without witnesses -/

/-- All siblings of one label. -/
structure IsSiblingGroup (graph : KeyedGraph) (selected : Finset GraphNode)
    (siblings : List ExpansionId) : Prop where
  nodup : siblings.Nodup
  mem_iff : ∀ a ∈ siblings, ∀ b, b ∈ siblings ↔ b ∈ graph.selectedIds selected ∧
    (graph.keyOf b).dropLast = (graph.keyOf a).dropLast ∧ graph.labelOf b = graph.labelOf a

/-- Nothing is generated below the siblings.  All of them are used or none is, and their uses do not
tell them apart. -/
structure Unwitnessed (graph : KeyedGraph) (selected : Finset GraphNode)
    (sourceFilter : Option SourceFilter) (siblings : List ExpansionId) : Prop where
  generated : ∀ a ∈ siblings, graph.generatedBySubtreeWitness selected a = .ok ∅
  used : ∃ use : ExpansionId → Finset DefinitionKey,
    (∀ a ∈ siblings, graph.expansionUseWitness selected sourceFilter a = .ok (use a)) ∧
      ((∀ a ∈ siblings, use a = ∅) ∨ (∀ a ∈ siblings, use a ≠ ∅) ∧
        (siblings.length = 1 ∨ ¬(siblings.map use).Nodup))

/-- What an expansion generates is among what its subtree generates. -/
theorem IsForest.generatedByWitness_eq_empty (h : graph.IsForest selected)
    (ha : a ∈ graph.selectedIds selected)
    (hwitness : graph.generatedBySubtreeWitness selected a = .ok ∅) :
    graph.generatedByWitness selected a = .ok ∅ := by
  unfold generatedBySubtreeWitness at hwitness
  obtain ⟨above, habove, hwitness⟩ := bind_ok hwitness
  cases habove.symm.trans (h.key a ha)
  obtain ⟨found, hfound, hwitness⟩ := bind_ok hwitness
  have hempty : found.reduceOption.toFinset = ∅ := Except.ok.inj hwitness
  have hnone : graph.edges.filter (fun edge => edge.toNode = .expansion a ∧
      edge.kind = .generatedBy ∧ edge.fromNode ∈ selected) = [] := by
    refine filter_eq_nil_iff.mpr fun edge hedge hgenerated => ?_
    obtain ⟨htarget, hkind, hfrom⟩ := of_decide_eq_true hgenerated
    have hin : edge ∈ graph.edges.filter fun edge => edge.kind = .generatedBy :=
      mem_filter.mpr ⟨hedge, decide_eq_true hkind⟩
    obtain ⟨i, hi⟩ := getElem?_of_mem hin
    obtain ⟨key, hkey, hbelow⟩ := getElem?_of_forall₂ (mapM_ok hfound) hi
    unfold generatedBelow at hbelow
    obtain ⟨target, htargetId, hbelow⟩ := bind_ok hbelow
    rw [edgeExpansion, htarget] at htargetId
    cases htargetId
    obtain ⟨below, hisBelow, hbelow⟩ := bind_ok hbelow
    rw [isBelow, if_pos (mem_selectedIds.mp ha).choose_spec.2.2, h.key a ha] at hisBelow
    have hself : below = true :=
      (Except.ok.inj hisBelow).symm.trans (List.isPrefixOf_iff_prefix.mpr (prefix_refl _))
    rw [if_pos hself] at hbelow
    cases hsource : edge.fromNode with
    | definition id =>
      rw [hsource] at hbelow hfrom
      dsimp only at hbelow
      rw [if_pos hfrom] at hbelow
      -- a generating definition would be among those found
      cases hdefinition : graph.definitionKey id with
      | error e =>
        rw [hdefinition] at hbelow
        cases hbelow
      | ok found' =>
        rw [hdefinition] at hbelow
        cases hbelow
        have hmem : found' ∈ found.reduceOption :=
          reduceOption_mem_iff.mpr (mem_of_getElem? hkey)
        exact absurd (mem_toFinset.mpr hmem) (hempty ▸ Finset.notMem_empty _)
    | _ =>
      rw [hsource] at hbelow
      cases hbelow
  rw [generatedByWitness, hnone]
  rfl

/-! ### What is known of the group -/

theorem allWitnessed_iff : group.allWitnessed = true ↔
    ∀ member ∈ group.members, member.witness ≠ ∅ := by
  simp [WitnessedGroup.allWitnessed]

theorem noneWitnessed_iff : group.noneWitnessed = true ↔
    ∀ member ∈ group.members, member.witness = ∅ := by
  simp [WitnessedGroup.noneWitnessed]

/-- The members get the new witnesses and keep everything else. -/
theorem refine_ok {use : ExpansionId → Finset DefinitionKey}
    (h : group.refine witness = .ok refined)
    (huse : ∀ a ∈ group.members.map WitnessedSibling.id, witness a = .ok (use a)) :
    refined.members.map WitnessedSibling.witness = (group.members.map WitnessedSibling.id).map use ∧
      refined.witnessesAreCanonical = group.witnessesAreCanonical ∧
      refined.subtreeShapeIsAdmissible = group.subtreeShapeIsAdmissible := by
  unfold WitnessedGroup.refine at h
  obtain ⟨members, hmembers, h⟩ := bind_ok h
  cases h
  refine ⟨?_, rfl, rfl⟩
  have hrun : group.members.mapM (fun member =>
      (witness member.id).map fun seen => { member with witness := seen }) =
        .ok (group.members.map fun member => { member with witness := use member.id }) :=
    mapM_eq_map fun member hmember => by
      rw [huse member.id (mem_map_of_mem hmember)]
      rfl
  cases hmembers.symm.trans hrun
  rw [map_map, map_map]
  rfl

theorem toldApart_of_noneWitnessed (hne : group.members ≠ []) (h : group.noneWitnessed = true) :
    group.toldApart = false := by
  obtain ⟨member, hmember⟩ := exists_mem_of_ne_nil _ hne
  have hall : group.allWitnessed = false := Bool.eq_false_iff.mpr fun hall =>
    allWitnessed_iff.mp hall member hmember (noneWitnessed_iff.mp h member hmember)
  rw [WitnessedGroup.toldApart, hall, Bool.false_and]

theorem refineBySubtree_canonical (h : group.refineBySubtree witness = .ok refined)
    (hcanonical : group.witnessesAreCanonical = true) : refined = group := by
  unfold WitnessedGroup.refineBySubtree at h
  rw [hcanonical] at h
  cases h
  rfl

theorem refineByUse_canonical (h : group.refineByUse witness = .ok refined)
    (hcanonical : group.witnessesAreCanonical = true) : refined = group := by
  unfold WitnessedGroup.refineByUse at h
  rw [hcanonical] at h
  cases h
  rfl

/-- Where nothing is generated below, the members stay as they are. -/
theorem refineBySubtree_none (h : group.refineBySubtree witness = .ok refined)
    (hne : group.members ≠ []) (hcanonical : group.witnessesAreCanonical = false)
    (hnone : group.noneWitnessed = true)
    (hwitness : ∀ a ∈ group.members.map WitnessedSibling.id, witness a = .ok ∅) :
    refined.witnessesAreCanonical = false ∧ refined.noneWitnessed = true ∧
      refined.members ≠ [] := by
  unfold WitnessedGroup.refineBySubtree at h
  rw [hcanonical, hnone] at h
  obtain ⟨next, hnext, h⟩ := bind_ok h
  obtain ⟨hmap, -⟩ := refine_ok hnext hwitness
  have hnextNone : next.noneWitnessed = true := noneWitnessed_iff.mpr fun member hmember => by
    have hin := mem_map_of_mem (f := WitnessedSibling.witness) hmember
    rw [hmap] at hin
    obtain ⟨_, -, heq⟩ := mem_map.mp hin
    exact heq.symm
  have hnextNe : next.members ≠ [] := fun hnil => hne <| by
    have hids := map_id_refine hnext
    rw [hnil, map_nil] at hids
    exact map_eq_nil_iff.mp hids.symm
  cases h
  exact ⟨toldApart_of_noneWitnessed hnextNe hnextNone, hnextNone, hnextNe⟩

/-- A sibling alone is told apart.  Other siblings without witnesses are compared by their
subtrees. -/
theorem IsForest.witnessGroup_unwitnessed (h : graph.IsForest selected) (hne : ids ≠ [])
    (hids : ∀ a ∈ ids, a ∈ graph.selectedIds selected)
    (hun : Unwitnessed graph selected sourceFilter ids)
    (hgroup : graph.witnessGroup selected sourceFilter depth ids = .ok group) :
    (ids.length = 1 → group.witnessesAreCanonical = true) ∧
      (ids.length ≠ 1 → group.witnessesAreCanonical = false ∧
        group.subtreeShapeIsAdmissible = true) := by
  unfold witnessGroup at hgroup
  obtain ⟨witnessed, hwitnessed, hgroup⟩ := bind_ok hgroup
  obtain ⟨subtree, hsubtree, hgroup⟩ := bind_ok hgroup
  have hmap := map_id_witnessSiblings hwitnessed
  have hlength : witnessed.length = ids.length := by rw [← hmap, length_map]
  constructor
  · intro hone
    have hcanonical : (decide (witnessed.length = 1) ||
        (⟨witnessed, false, false⟩ : WitnessedGroup).toldApart) = true := by
      rw [decide_eq_true (hlength.trans hone), Bool.true_or]
    cases refineBySubtree_canonical hsubtree hcanonical
    cases refineByUse_canonical hgroup hcanonical
    exact hcanonical
  intro hmany
  have hnone : ∀ member ∈ witnessed, member.witness = ∅ := by
    intro member hmember
    obtain ⟨i, hi⟩ := getElem?_of_mem hmember
    obtain ⟨id, hid, hsibling⟩ := getElem?_of_forall₂_right (mapM_ok hwitnessed) hi
    have hmem := mem_of_getElem? hid
    have hempty := h.generatedByWitness_eq_empty (hids id hmem) (hun.generated id hmem)
    exact Except.ok.inj ((witnessSibling_ok hsibling).2.symm.trans hempty)
  have hwitnessedNe : witnessed ≠ [] := by
    rintro rfl
    exact hne hmap.symm
  have hcanonical : (decide (witnessed.length = 1) ||
      (⟨witnessed, false, false⟩ : WitnessedGroup).toldApart) = false := by
    rw [decide_eq_false (hlength ▸ hmany), Bool.false_or]
    exact toldApart_of_noneWitnessed hwitnessedNe (noneWitnessed_iff.mpr hnone)
  obtain ⟨hsubtreeCanonical, hsubtreeNone, hsubtreeNe⟩ := refineBySubtree_none hsubtree hwitnessedNe
    hcanonical (noneWitnessed_iff.mpr hnone) fun a ha => hun.generated a (hmap ▸ ha)
  have hsubtreeMap : subtree.members.map WitnessedSibling.id = ids :=
    (map_id_refineBySubtree hsubtree).trans hmap
  unfold WitnessedGroup.refineByUse at hgroup
  rw [hsubtreeCanonical, hsubtreeNone] at hgroup
  obtain ⟨next, hnext, hgroup⟩ := bind_ok hgroup
  obtain ⟨use, huse, hused⟩ := hun.used
  obtain ⟨hwitness, -⟩ := refine_ok hnext fun a ha => huse a (hsubtreeMap ▸ ha)
  rw [hsubtreeMap] at hwitness
  have hmembers : ∀ member ∈ next.members, ∃ a ∈ ids, use a = member.witness := by
    intro member hmember
    have hin := mem_map_of_mem (f := WitnessedSibling.witness) hmember
    rw [hwitness] at hin
    exact mem_map.mp hin
  cases hgroup
  have hnextNe : next.members ≠ [] := fun hnil => hne <| by
    rw [hnil, map_nil] at hwitness
    exact map_eq_nil_iff.mp hwitness.symm
  rcases hused with hempty | ⟨hall, hapart⟩
  · have hnextNone : next.noneWitnessed = true := noneWitnessed_iff.mpr fun member hmember => by
      obtain ⟨a, ha, heq⟩ := hmembers member hmember
      exact heq.symm.trans (hempty a ha)
    refine ⟨toldApart_of_noneWitnessed hnextNe hnextNone, ?_⟩
    show (next.noneWitnessed || next.allWitnessed) = true
    rw [hnextNone, Bool.true_or]
  · have hnextAll : next.allWitnessed = true := allWitnessed_iff.mpr fun member hmember => by
      obtain ⟨a, ha, heq⟩ := hmembers member hmember
      exact heq ▸ hall a ha
    refine ⟨?_, ?_⟩
    · show next.toldApart = false
      rw [WitnessedGroup.toldApart, hwitness, decide_eq_false (hapart.resolve_left hmany),
        Bool.and_false]
    · show (next.noneWitnessed || next.allWitnessed) = true
      rw [hnextAll, Bool.or_true]

/-! ### What is written -/

/-- The ordinal at the end of a key. -/
def ordinalAt (keys : List ExpansionKey) (a : ExpansionId) : Option Nat :=
  keys[a.index]?.bind fun key => key.parts.getLast?.map ExpansionKeyPart.sameRoleOrdinal

/-- A member gets its place in the sorted group. -/
theorem foldlM_keyMember {sorted : List WitnessedSibling} {s t : List ExpansionKey}
    (hrun : sorted.zipIdx.foldlM (graph.keyMember depth parent filtered true) s = .ok t)
    (hnodup : (sorted.map WitnessedSibling.id).Nodup) {place : Nat} {member : WitnessedSibling}
    (hplace : sorted[place]? = some member) (hlt : member.id.index < t.length) :
    ordinalAt t member.id = some place := by
  obtain ⟨hbound, hget⟩ := List.getElem?_eq_some_iff.mp hplace
  have hsplit : sorted = sorted.take place ++ member :: sorted.drop (place + 1) := by
    rw [← hget, ← drop_eq_getElem_cons hbound, take_append_drop]
  have hlength : (sorted.take place).length = place := length_take_of_le hbound.le
  rw [hsplit, zipIdx_append, zipIdx_cons, hlength, Nat.zero_add] at hrun
  obtain ⟨s', t', -, hstep, hafter⟩ := foldlM_append_ok hrun
  obtain ⟨hafterLength, hkept⟩ := keyMember_keeps.foldlM hafter
  have hsame : t[member.id.index]? = t'[member.id.index]? := by
    refine hkept _ fun entry hentry heq => ?_
    rw [hsplit, map_append, map_cons, nodup_append, nodup_cons] at hnodup
    refine hnodup.2.1.1 ?_
    rw [show member.id = entry.1.id from congrArg ExpansionId.mk heq.symm]
    exact mem_map_of_mem (fst_mem_of_mem_zipIdx hentry)
  unfold keyMember at hstep
  obtain ⟨leaf, -, hstep⟩ := bind_ok hstep
  obtain ⟨ordinal, hordinal, hstep⟩ := bind_ok hstep
  have hplaceOrdinal : ordinal = place := by
    unfold memberOrdinal at hordinal
    rw [if_pos rfl] at hordinal
    split at hordinal
    · cases hordinal
    · exact (Except.ok.inj hordinal).symm
  cases hstep
  rw [length_set] at hafterLength
  rw [ordinalAt, hsame, getElem?_set_self (hafterLength ▸ hlt), Option.bind_some,
    getLast?_concat, hplaceOrdinal]
  rfl

/-- Siblings without witnesses and with different subtrees are written in the order of their
ranks. -/
theorem IsForest.keyGroup_sorted (h : graph.IsForest selected)
    {members : List (SiblingGroupKey × ExpansionId)} {s t : List ExpansionKey}
    (hids : ∀ a ∈ members.map Prod.snd, a ∈ graph.selectedIds selected)
    (hne : members ≠ []) (hun : Unwitnessed graph selected sourceFilter (members.map Prod.snd))
    (hranks : RankedFrom graph selected (fun _ => True) ranks)
    (hapart : (members.map Prod.snd).Pairwise fun a b => rankAt ranks a ≠ rankAt ranks b)
    (hrun : graph.keyGroup selected sourceFilter depth ranks filtered s members = .ok t) :
    ∃ sorted : List WitnessedSibling, (sorted.map WitnessedSibling.id).Perm (members.map Prod.snd) ∧
      (sorted.map WitnessedSibling.id).Pairwise (fun a b => rankAt ranks a < rankAt ranks b) ∧
      sorted.zipIdx.foldlM (graph.keyMember depth
        (members.head?.bind fun member => (ofLex member.1).1) filtered true) s = .ok t := by
  unfold keyGroup at hrun
  obtain ⟨group, hgroup, hrun⟩ := bind_ok hrun
  obtain ⟨canonical, hcanonical, hrun⟩ := bind_ok hrun
  have hmap := map_id_witnessGroup hgroup
  have hidsNe : members.map Prod.snd ≠ [] := fun hnil => hne (map_eq_nil_iff.mp hnil)
  obtain ⟨hone, hmany⟩ := h.witnessGroup_unwitnessed hidsNe hids hun hgroup
  have hsortPerm : (group.sortMembers ranks canonical).Perm group.members :=
    sortMembers_perm canonical
  have hperm := hsortPerm.map WitnessedSibling.id
  rw [hmap] at hperm
  by_cases hlength : (members.map Prod.snd).length = 1
  · rw [hone hlength, Bool.true_or] at hrun
    refine ⟨_, hperm, ?_, hrun⟩
    obtain ⟨a, ha⟩ := length_eq_one_iff.mp (hperm.length_eq.trans hlength)
    rw [ha]
    exact pairwise_singleton _ _
  · obtain ⟨hnotCanonical, hadmissible⟩ := hmany hlength
    have hrank : ∀ member ∈ group.members,
        (ranks[member.id.index]?.join).isSome ∧ member.id ∈ members.map Prod.snd := by
      intro member hmember
      have hid : member.id ∈ members.map Prod.snd := hmap ▸ mem_map_of_mem hmember
      exact ⟨hranks.isSome _ (hids _ hid) trivial, hid⟩
    have hdistinct : (group.members.map fun member => rankAt ranks member.id).Nodup := by
      rw [← hmap, pairwise_map] at hapart
      exact pairwise_map.mpr hapart
    have htrue : canonical = true := by
      unfold WitnessedGroup.subtreeIsCanonical at hcanonical
      rw [hnotCanonical, hadmissible] at hcanonical
      obtain ⟨found, hfound, hcanonical⟩ := bind_ok hcanonical
      have hall : group.members.mapM (fun member => subtreeRank ranks member.id) =
          .ok (group.members.map fun member => rankAt ranks member.id) :=
        mapM_eq_map fun member hmember => subtreeRank_eq (hrank member hmember).1
      cases hfound.symm.trans hall
      exact (Except.ok.inj hcanonical).symm.trans (decide_eq_true hdistinct)
    subst htrue
    rw [hnotCanonical, Bool.or_true] at hrun
    refine ⟨_, hperm, ?_, hrun⟩
    have hsorted : group.sortMembers ranks true =
        group.members.insertionSort fun a b =>
          WitnessedGroup.rankOf ranks a ≤ WitnessedGroup.rankOf ranks b := by
      rw [WitnessedGroup.sortMembers, hnotCanonical]
      rfl
    have hle := pairwise_insertionSort_key (WitnessedGroup.rankOf ranks) group.members
    rw [← hsorted] at hle
    have hne' := (hsortPerm.map fun member => rankAt ranks member.id).nodup_iff.mpr hdistinct
    rw [List.Nodup, pairwise_map] at hne'
    rw [pairwise_map]
    refine (hle.and hne').imp_of_mem fun {a b} ha hb hboth => ?_
    refine lt_of_le_of_ne ?_ hboth.2
    obtain ⟨x, hx⟩ := Option.isSome_iff_exists.mp (hrank a (hsortPerm.subset ha)).1
    obtain ⟨y, hy⟩ := Option.isSome_iff_exists.mp (hrank b (hsortPerm.subset hb)).1
    have hxy := hboth.1
    unfold WitnessedGroup.rankOf at hxy
    rw [hx, hy] at hxy
    unfold rankAt
    rw [hx, hy]
    exact WithBot.coe_le_coe.mp hxy

/-! ### Ordinals at the end of a run -/

theorem Unwitnessed.perm {siblings siblings' : List ExpansionId}
    (h : Unwitnessed graph selected sourceFilter siblings) (hperm : siblings'.Perm siblings) :
    Unwitnessed graph selected sourceFilter siblings' := by
  obtain ⟨use, huse, hused⟩ := h.used
  refine ⟨fun a ha => h.generated a (hperm.subset ha), use,
    fun a ha => huse a (hperm.subset ha), ?_⟩
  refine hused.imp (fun hempty a ha => hempty a (hperm.subset ha)) fun ⟨hall, hapart⟩ => ?_
  rw [hperm.length_eq, (hperm.map use).nodup_iff]
  exact ⟨fun a ha => hall a (hperm.subset ha), hapart⟩

/-- The ordinal of a sibling is the rank of its subtree among those of its siblings. -/
theorem IsForest.ordinalAt_eq_rankIn (h : graph.IsForest selected) {outputless : Finset ExpansionId}
    (hrun : graph.snapshotExpansionKeys selected sourceFilter outputless = .ok keys)
    (hgroup : IsSiblingGroup graph selected siblings)
    (hun : Unwitnessed graph selected sourceFilter siblings)
    (hranks : graph.expansionSubtreeRanks selected graph.rawIds (graph.byDepth selected) =
        .ok ranks)
    (hranked : RankedFrom graph selected (fun _ => True) ranks)
    (hapart : siblings.Pairwise fun a b => rankAt ranks a ≠ rankAt ranks b) (ha : a ∈ siblings) :
    ordinalAt keys a = some (rankIn (rankAt ranks) siblings a) := by
  have haSelected := ((hgroup.mem_iff a ha a).mp ha).1
  obtain ⟨filtered, ranks', members, s, t, hranks', hkeyGroup, hnodup, hmem, hkept⟩ :=
    h.exists_keyGroup hrun haSelected
  cases hranks'.symm.trans hranks
  have hperm : (members.map Prod.snd).Perm siblings :=
    (perm_ext_iff_of_nodup hnodup hgroup.nodup).mpr fun b =>
      (hmem b).trans (hgroup.mem_iff a ha b).symm
  have hin : a ∈ members.map Prod.snd := hperm.mem_iff.mpr ha
  have hne : members ≠ [] := by
    rintro rfl
    cases hin
  obtain ⟨sorted, hsorted, hpairwise, hfold⟩ := h.keyGroup_sorted (fun b hb => ((hmem b).mp hb).1)
    hne (hun.perm hperm) hranked ((hperm.pairwise_iff fun h => h.symm).mpr hapart) hkeyGroup
  obtain ⟨place, hplace⟩ := getElem?_of_mem (hsorted.mem_iff.mpr hin)
  have hrank := rankIn_eq_of_pairwise hpairwise hplace
  rw [rankIn_perm (hsorted.trans hperm)] at hrank
  rw [getElem?_map, Option.map_eq_some_iff] at hplace
  obtain ⟨member, hplace, rfl⟩ := hplace
  obtain ⟨-, -, -, -, -, selectedKeys, hselected, -⟩ := snapshotExpansionKeys_ok hrun
  obtain ⟨-, key, -, -, hkey⟩ := h.exists_selectedKey hselected haSelected
  have hlt : member.id.index < t.length :=
    (List.getElem?_eq_some_iff.mp ((hkept _ hin).symm.trans hkey)).1
  have hordinal := foldlM_keyMember hfold (hsorted.nodup_iff.mpr hnodup) hplace hlt
  rw [ordinalAt, hkept _ hin, hrank]
  exact hordinal

/-! ## Two graphs -/

theorem IsSiblingGroup.length_eq (h : graph.IsForest selected)
    (hgroup : IsSiblingGroup graph selected siblings) (ha : a ∈ siblings) (hb : b ∈ siblings) :
    (graph.keyOf a).length = (graph.keyOf b).length := by
  obtain ⟨hbSelected, hdrop, -⟩ := (hgroup.mem_iff a ha b).mp hb
  have haSelected := ((hgroup.mem_iff a ha a).mp ha).1
  have hlength := congrArg List.length hdrop
  rw [length_dropLast, length_dropLast] at hlength
  have hpos := length_pos_iff.mpr (h.nonempty a haSelected)
  have hpos' := length_pos_iff.mpr (h.nonempty b hbSelected)
  omega

/-- Subtrees are compared by their shapes alone, and so are the ordinals of siblings that have
nothing else to be told apart by. -/
theorem subtreeRanks_by_shape {graph graph' : KeyedGraph} {selected selected' : Finset GraphNode}
    (h : graph.Accepted) (hclosed : graph.ClosedUnderParents selected) (h' : graph'.Accepted)
    (hclosed' : graph'.ClosedUnderParents selected') : ∃ ranks ranks',
      graph.expansionSubtreeRanks selected graph.rawIds (graph.byDepth selected) = .ok ranks ∧
      graph'.expansionSubtreeRanks selected' graph'.rawIds (graph'.byDepth selected') = .ok ranks' ∧
      (∀ a ∈ graph.selectedIds selected, subtreeRank ranks a = .ok (rankAt ranks a)) ∧
      (∀ a' ∈ graph'.selectedIds selected', subtreeRank ranks' a' = .ok (rankAt ranks' a')) ∧
      (∀ a ∈ graph.selectedIds selected, ∀ b ∈ graph.selectedIds selected,
        (graph.keyOf a).length = (graph.keyOf b).length →
          (rankAt ranks a = rankAt ranks b ↔ SameSubtree graph selected graph selected a b) ∧
          ∀ a' ∈ graph'.selectedIds selected', ∀ b' ∈ graph'.selectedIds selected',
            (graph'.keyOf a').length = (graph'.keyOf b').length →
            SameSubtree graph selected graph' selected' a a' →
            SameSubtree graph selected graph' selected' b b' →
              (rankAt ranks a < rankAt ranks b ↔ rankAt ranks' a' < rankAt ranks' b')) ∧
      ∀ sourceFilter outputless keys sourceFilter' outputless' keys',
        graph.snapshotExpansionKeys selected sourceFilter outputless = .ok keys →
        graph'.snapshotExpansionKeys selected' sourceFilter' outputless' = .ok keys' →
        ∀ pairs : List (ExpansionId × ExpansionId),
          IsSiblingGroup graph selected (pairs.map Prod.fst) →
          IsSiblingGroup graph' selected' (pairs.map Prod.snd) →
          Unwitnessed graph selected sourceFilter (pairs.map Prod.fst) →
          Unwitnessed graph' selected' sourceFilter' (pairs.map Prod.snd) →
          (∀ pair ∈ pairs, SameSubtree graph selected graph' selected' pair.1 pair.2) →
          pairs.Pairwise (fun p q => ¬SameSubtree graph selected graph selected p.1 q.1) →
          ∀ pair ∈ pairs, ∃ ordinal,
            ordinalAt keys pair.1 = some ordinal ∧ ordinalAt keys' pair.2 = some ordinal := by
  have hforest := isForest h hclosed
  have hforest' := isForest h' hclosed'
  obtain ⟨ranks, hranks, hranked⟩ := hforest.expansionSubtreeRanks_total h.small
  obtain ⟨ranks', hranks', hranked'⟩ := hforest'.expansionSubtreeRanks_total h'.small
  have hcompare : ∀ a ∈ graph.selectedIds selected, ∀ b ∈ graph.selectedIds selected,
      (graph.keyOf a).length = (graph.keyOf b).length →
      ∀ a' ∈ graph'.selectedIds selected', ∀ b' ∈ graph'.selectedIds selected',
        (graph'.keyOf a').length = (graph'.keyOf b').length →
        SameSubtree graph selected graph' selected' a a' →
        SameSubtree graph selected graph' selected' b b' →
          (rankAt ranks a < rankAt ranks b ↔ rankAt ranks' a' < rankAt ranks' b') :=
    fun a ha b hb hlevel a' ha' b' hb' hlevel' hsame hsame' =>
      (rankedForest hforest hranked).rank_lt_rank_iff (rankedForest hforest' hranked') ha hb hlevel
        ha' hb' hlevel' hsame hsame'
  refine ⟨ranks, ranks', hranks, hranks', fun a ha => subtreeRank_eq (hranked.isSome a ha trivial),
    fun a' ha' => subtreeRank_eq (hranked'.isSome a' ha' trivial), fun a ha b hb hlevel => ⟨?_, ?_⟩,
    ?_⟩
  · exact (rankedForest hforest hranked).rank_eq_rank_iff ha hb hlevel
  · exact hcompare a ha b hb hlevel
  intro sourceFilter outputless keys sourceFilter' outputless' keys' hrun hrun' pairs hgroup hgroup'
    hun hun' hsame hdistinct pair hpair
  have hmem : ∀ p ∈ pairs, p.1 ∈ pairs.map Prod.fst ∧ p.2 ∈ pairs.map Prod.snd := fun p hp =>
    ⟨mem_map_of_mem hp, mem_map_of_mem hp⟩
  have hselected : ∀ p ∈ pairs, p.1 ∈ graph.selectedIds selected := fun p hp =>
    ((hgroup.mem_iff p.1 (hmem p hp).1 p.1).mp (hmem p hp).1).1
  have hselected' : ∀ p ∈ pairs, p.2 ∈ graph'.selectedIds selected' := fun p hp =>
    ((hgroup'.mem_iff p.2 (hmem p hp).2 p.2).mp (hmem p hp).2).1
  have hlt : ∀ p ∈ pairs, ∀ q ∈ pairs,
      (rankAt ranks p.1 < rankAt ranks q.1 ↔ rankAt ranks' p.2 < rankAt ranks' q.2) :=
    fun p hp q hq => hcompare p.1 (hselected p hp) q.1 (hselected q hq)
      (hgroup.length_eq hforest (hmem p hp).1 (hmem q hq).1) p.2 (hselected' p hp) q.2
      (hselected' q hq) (hgroup'.length_eq hforest' (hmem p hp).2 (hmem q hq).2) (hsame p hp)
      (hsame q hq)
  have hne : pairs.Pairwise fun p q => rankAt ranks p.1 ≠ rankAt ranks q.1 := by
    refine hdistinct.imp_of_mem fun {p q} hp hq hdiffer heq => hdiffer ?_
    exact ((rankedForest hforest hranked).rank_eq_rank_iff (hselected p hp) (hselected q hq)
      (hgroup.length_eq hforest (hmem p hp).1 (hmem q hq).1)).mp heq
  have hne' : pairs.Pairwise fun p q => rankAt ranks' p.2 ≠ rankAt ranks' q.2 := by
    refine hne.imp_of_mem fun {p q} hp hq hdiffer heq => hdiffer (le_antisymm ?_ ?_)
    · exact not_lt.mp fun hlow => ((hlt q hq p hp).mp hlow).ne heq.symm
    · exact not_lt.mp fun hlow => ((hlt p hp q hq).mp hlow).ne heq
  refine ⟨_, hforest.ordinalAt_eq_rankIn hrun hgroup hun hranks hranked
    (pairwise_map.mpr hne) (hmem pair hpair).1, ?_⟩
  rw [hforest'.ordinalAt_eq_rankIn hrun' hgroup' hun' hranks' hranked'
    (pairwise_map.mpr hne') (hmem pair hpair).2, Option.some.injEq]
  exact (rankIn_map_eq_map fun p hp => hlt p hp pair hpair).symm

/-! ### Siblings that have changed places -/

/-- Two siblings of one kind.  The one with the given number has a child. -/
def siblingGraph (parent : Nat) : KeyedGraph where
  definitions := []
  expansions :=
    let part (kind : DesugaringKind) (ordinal : Nat) : ExpansionKeyPart :=
      ⟨.desugaring kind, none, none, none, none, none, none, none, ordinal⟩
    let node (id : Nat) (discoveredIn : Option Nat) (key : List ExpansionKeyPart) :
        KeyedExpansion :=
      ⟨⟨⟨id⟩, .desugaring .await, none, discoveredIn.map ExpansionId.mk, none, none, none, none,
        none⟩, ⟨key⟩, none⟩
    [node 0 none [part .await 0], node 1 none [part .await 1],
      node 2 (some parent) [part .await parent, part .questionMark 0]]
  edges := []

def siblingSelection : Finset GraphNode :=
  {.expansion ⟨0⟩, .expansion ⟨1⟩, .expansion ⟨2⟩}

theorem siblingGraph_accepted {parent : Nat} (h : parent < 2) : (siblingGraph parent).Accepted where
  dense := by
    rintro (_ | _ | _ | i) node hnode <;> cases hnode <;> rfl
  distinct := by
    obtain rfl | rfl : parent = 0 ∨ parent = 1 := by omega
    · decide +kernel
    · decide +kernel
  root := by
    intro node hnode hroot
    rcases mem_cons.mp hnode with rfl | hnode
    · rfl
    rcases mem_cons.mp hnode with rfl | hnode
    · rfl
    cases mem_singleton.mp hnode
    cases hroot
  extends_parent := by
    intro node hnode id hid
    rcases mem_cons.mp hnode with rfl | hnode
    · cases hid
    rcases mem_cons.mp hnode with rfl | hnode
    · cases hid
    cases mem_singleton.mp hnode
    cases hid
    obtain rfl | rfl : parent = 0 ∨ parent = 1 := by omega
    · exact ⟨_, mem_cons_self, rfl, _, rfl⟩
    · exact ⟨_, mem_cons_of_mem _ mem_cons_self, rfl, _, rfl⟩
  nonempty := by
    intro node hnode
    rcases mem_cons.mp hnode with rfl | hnode
    · exact cons_ne_nil _ _
    rcases mem_cons.mp hnode with rfl | hnode
    · exact cons_ne_nil _ _
    cases mem_singleton.mp hnode
    exact cons_ne_nil _ _
  small := by
    show 3 ≤ u32Size
    decide

theorem siblingGraph_closed {parent : Nat} (h : parent < 2) :
    (siblingGraph parent).ClosedUnderParents siblingSelection := by
  unfold ClosedUnderParents
  obtain rfl | rfl : parent = 0 ∨ parent = 1 := by omega
  · decide +kernel
  · decide +kernel

theorem siblingGraph_isSiblingGroup {parent : Nat} (hsiblings : siblings.Perm [⟨0⟩, ⟨1⟩]) :
    IsSiblingGroup (siblingGraph parent) siblingSelection siblings where
  nodup := hsiblings.nodup_iff.mpr (by decide)
  mem_iff := by
    have hkey : ∀ a ∈ siblings, ((siblingGraph parent).keyOf a).dropLast = [] ∧
        (siblingGraph parent).labelOf a = (siblingGraph parent).labelOf ⟨0⟩ := by
      intro a ha
      rcases mem_cons.mp (hsiblings.subset ha) with rfl | ha
      · exact ⟨rfl, rfl⟩
      · cases mem_singleton.mp ha
        exact ⟨rfl, rfl⟩
    intro a ha b
    rw [(hkey a ha).1, (hkey a ha).2]
    constructor
    · intro hb
      have hselected : b ∈ (siblingGraph parent).selectedIds siblingSelection := by
        rcases mem_cons.mp (hsiblings.subset hb) with rfl | hb
        · exact mem_cons_self
        · cases mem_singleton.mp hb
          exact mem_cons_of_mem _ mem_cons_self
      exact ⟨hselected, hkey b hb⟩
    · rintro ⟨hb, hdrop, -⟩
      refine hsiblings.mem_iff.mpr ?_
      rcases mem_cons.mp hb with rfl | hb
      · exact mem_cons_self
      rcases mem_cons.mp hb with rfl | hb
      · exact mem_cons_of_mem _ mem_cons_self
      cases mem_singleton.mp hb
      cases hdrop

theorem siblingGraph_unwitnessed {parent : Nat} (hsiblings : siblings.Perm [⟨0⟩, ⟨1⟩]) :
    Unwitnessed (siblingGraph parent) siblingSelection none siblings where
  generated a ha := by
    rcases mem_cons.mp (hsiblings.subset ha) with rfl | ha
    · rfl
    · cases mem_singleton.mp ha
      rfl
  used := ⟨fun _ => ∅, fun _ _ => rfl, .inl fun _ _ => rfl⟩

/-- The siblings get their ordinals by what is below them, whichever of them came first. -/
theorem subtreeRanks_by_shape_swapped : ∃ keys keys',
    (siblingGraph 0).snapshotExpansionKeys siblingSelection none ∅ = .ok keys ∧
    (siblingGraph 1).snapshotExpansionKeys siblingSelection none ∅ = .ok keys' ∧
    (∃ ordinal, ordinalAt keys ⟨0⟩ = some ordinal ∧ ordinalAt keys' ⟨1⟩ = some ordinal) ∧
    ∃ ordinal, ordinalAt keys ⟨1⟩ = some ordinal ∧ ordinalAt keys' ⟨0⟩ = some ordinal := by
  have hok : ((siblingGraph 0).snapshotExpansionKeys siblingSelection none ∅).isOk = true := by
    decide +kernel
  have hok' : ((siblingGraph 1).snapshotExpansionKeys siblingSelection none ∅).isOk = true := by
    decide +kernel
  cases hkeys : (siblingGraph 0).snapshotExpansionKeys siblingSelection none ∅ with
  | error e => rw [hkeys] at hok; cases hok
  | ok keys =>
  cases hkeys' : (siblingGraph 1).snapshotExpansionKeys siblingSelection none ∅ with
  | error e => rw [hkeys'] at hok'; cases hok'
  | ok keys' =>
  obtain ⟨-, -, -, -, -, -, -, hordinals⟩ := subtreeRanks_by_shape
    (siblingGraph_accepted Nat.zero_lt_two) (siblingGraph_closed Nat.zero_lt_two)
    (siblingGraph_accepted Nat.one_lt_two) (siblingGraph_closed Nat.one_lt_two)
  have hleaf : SameSubtree (siblingGraph 0) siblingSelection (siblingGraph 1) siblingSelection
      ⟨2⟩ ⟨2⟩ := .node [] rfl .nil .nil fun _ hpair => absurd hpair not_mem_nil
  have hsame : ∀ pair ∈ [((⟨0⟩, ⟨1⟩) : ExpansionId × ExpansionId), (⟨1⟩, ⟨0⟩)],
      SameSubtree (siblingGraph 0) siblingSelection (siblingGraph 1) siblingSelection pair.1
        pair.2 := by
    intro pair hpair
    rcases mem_cons.mp hpair with rfl | hpair
    · refine .node [(⟨2⟩, ⟨2⟩)] rfl (.refl _) (.refl _) fun pair hpair => ?_
      cases mem_singleton.mp hpair
      exact hleaf
    · cases mem_singleton.mp hpair
      exact .node [] rfl .nil .nil fun _ hpair => absurd hpair not_mem_nil
  have hdistinct : [((⟨0⟩, ⟨1⟩) : ExpansionId × ExpansionId), (⟨1⟩, ⟨0⟩)].Pairwise fun p q =>
      ¬SameSubtree (siblingGraph 0) siblingSelection (siblingGraph 0) siblingSelection p.1 q.1 := by
    refine pairwise_pair.mpr fun ⟨pairs, _, hleft, hright, _⟩ => ?_
    have hone := hleft.length_eq
    have hnone := hright.length_eq
    rw [length_map] at hone hnone
    cases hone.symm.trans hnone
  have hall := hordinals none ∅ keys none ∅ keys' hkeys hkeys' [(⟨0⟩, ⟨1⟩), (⟨1⟩, ⟨0⟩)]
    (siblingGraph_isSiblingGroup (.refl _)) (siblingGraph_isSiblingGroup (.swap _ _ _))
    (siblingGraph_unwitnessed (.refl _)) (siblingGraph_unwitnessed (.swap _ _ _)) hsame hdistinct
  exact ⟨keys, keys', rfl, rfl, hall _ mem_cons_self, hall _ (mem_cons_of_mem _ mem_cons_self)⟩

end KeyedGraph

end ItemDependencies
