import ItemDependencies.Library.Placing
import ItemDependencies.Selection.ProofLedger

/-!
# Finishing the collection of proofs

The owners of each projection are put in order and become relations, and all proofs get the numbers
that the order of their keys gives them.
-/

namespace ItemDependencies

open Library List

variable {ι κ : Type} {node : KeyedProof} {nodes : List KeyedProof}

/-! ## Owners -/

/-- The owners of a projection in the order of their keys, without repetition. -/
def canonicalOwners (nodes : List KeyedProof) (ids : List ProofId) : List ProofId :=
  (ids.insertionSort fun left right => keyAt nodes left ≤ keyAt nodes right).destutter (· ≠ ·)

def canonicalNode (nodes : List KeyedProof) (node : KeyedProof) : KeyedProof :=
  { node with kind := node.kind.withOwners (canonicalOwners nodes node.kind.owners) }

/-- What a projection has to do with its owners. -/
def ownerRelations (node : KeyedProof) : List (SolverRelation ProofId) :=
  node.kind.owners.zipIdx.map fun entry => ⟨node.id, .proof entry.1, .projectionOwner, entry.2⟩

theorem mem_ownerRelations {relation : SolverRelation ProofId} :
    relation ∈ ownerRelations node ↔ ∃ owner index, node.kind.owners[index]? = some owner ∧
      relation = ⟨node.id, .proof owner, .projectionOwner, index⟩ := by
  simp [ownerRelations, mem_zipIdx_iff_getElem?, eq_comm]

section Owners

variable {nodes : List KeyedProof} {ids : List ProofId}

theorem keyAt_of_lt {id : ProofId} (h : id.index < nodes.length) :
    keyAt nodes id = (nameOf (nodes.map KeyedProof.key) id : ProofKey) := by
  rw [keyAt, ← getElem?_map, getElem?_nameOf (by rwa [length_map])]
  rfl

theorem keyAt_congr {nodes' : List KeyedProof}
    (h : nodes.map KeyedProof.key = nodes'.map KeyedProof.key) : keyAt nodes = keyAt nodes' := by
  funext id
  rw [keyAt, keyAt, ← getElem?_map, ← getElem?_map, h]

theorem canonicalOwners_spec (hnodup : (nodes.map KeyedProof.key).Nodup)
    (hids : ∀ id ∈ ids, id.index < nodes.length) :
    ((canonicalOwners nodes ids).Pairwise fun a b => keyAt nodes a < keyAt nodes b) ∧
      ∀ id, id ∈ canonicalOwners nodes ids ↔ id ∈ ids := by
  have hmem :
      ∀ {id}, id ∈ ids.insertionSort (fun left right => keyAt nodes left ≤ keyAt nodes right) ↔
      id ∈ ids := (perm_insertionSort _ ids).mem_iff
  obtain ⟨hsorted, hsame⟩ := destutter_sorted (pairwise_insertionSort_key (keyAt nodes) ids)
    fun a ha b hb hkey => by
      have hlta := hids a (hmem.mp ha)
      have hltb := hids b (hmem.mp hb)
      rw [keyAt_of_lt hlta, keyAt_of_lt hltb, WithBot.coe_inj] at hkey
      rw [← length_map KeyedProof.key] at hlta hltb
      exact nameOf_injective hnodup hlta hltb hkey
  exact ⟨hsorted, fun id => (hsame id).trans hmem⟩

theorem canonicalizeProofIds_eq (hids : ∀ id ∈ ids, id.index < nodes.length) :
    canonicalizeProofIds nodes ids = .ok (canonicalOwners nodes ids) := by
  refine if_neg fun hany => ?_
  obtain ⟨id, hid, hout⟩ := any_eq_true.mp hany
  exact absurd (hids id hid) (Nat.not_lt.mpr (of_decide_eq_true hout))

theorem canonicalOwners_nil : canonicalOwners nodes [] = [] := rfl

theorem length_canonicalOwners (hnodup : (nodes.map KeyedProof.key).Nodup)
    (hids : ∀ id ∈ ids, id.index < nodes.length) :
    (canonicalOwners nodes ids).length ≤ nodes.length := by
  obtain ⟨hsorted, hmem⟩ := canonicalOwners_spec hnodup hids
  have hinjective : Function.Injective ProofId.index := fun a b h => by
    cases a
    cases b
    cases h
    rfl
  have hdistinct : ((canonicalOwners nodes ids).map ProofId.index).Nodup :=
    List.Nodup.map hinjective (hsorted.imp fun hlt heq => (heq ▸ hlt).false)
  have hsubset : (canonicalOwners nodes ids).map ProofId.index ⊆ List.range nodes.length := by
    intro index hindex
    obtain ⟨id, hid, rfl⟩ := mem_map.mp hindex
    exact mem_range.mpr (hids id ((hmem id).mp hid))
  have hlength := (hdistinct.subperm hsubset).length_le
  rwa [length_map, length_range] at hlength

end Owners

namespace ProofNodeKind

variable {kind : ProofNodeKind ι} {owners : List ι}

theorem observe_withOwners : (kind.withOwners owners).observe = kind.observe := by
  funext part
  cases kind <;> cases part <;> rfl

theorem owners_withOwners (h : kind.owners = [] → owners = []) :
    (kind.withOwners owners).owners = owners := by
  cases kind with
  | projection => rfl
  | obligation | associatedItem | cycle => exact (h rfl).symm

theorem withOwners_of_not_projection (h : kind.isProjection = false) :
    kind.withOwners owners = kind := by
  cases kind with
  | projection => cases h
  | obligation | associatedItem | cycle => rfl

theorem owners_of_not_projection (h : kind.isProjection = false) : kind.owners = [] := by
  cases kind with
  | projection => cases h
  | obligation | associatedItem | cycle => rfl

end ProofNodeKind

theorem owners_canonicalNode :
    (canonicalNode nodes node).kind.owners = canonicalOwners nodes node.kind.owners :=
  ProofNodeKind.owners_withOwners fun h => by rw [h, canonicalOwners_nil]

namespace SelectionCollector

variable {collector : SelectionCollector}

/-! ## The relations to owners -/

theorem ordinal_eq {index : Nat} (h : index < u32Size) : ordinal index = .ok index := if_pos h

/-- Relations that are inserted one after the other. -/
theorem exists_insertRelations {α : Type} {relationOf : α → SolverRelation ProofId}
    {step : SelectionCollector → α → Except SelectionCollectionError SelectionCollector}
    {l : List α}
    (hstep : ∀ a ∈ l, ∀ c, step c a = .ok (c.insertRelation (relationOf a)))
    (start : SelectionCollector) :
    ∃ next, l.foldlM step start = .ok next ∧ next.nodes = start.nodes ∧
      ∀ relation, relation ∈ next.relations ↔
        relation ∈ start.relations ∨ relation ∈ l.map relationOf := by
  induction l generalizing start with
  | nil => exact ⟨start, rfl, rfl, fun relation => by simp⟩
  | cons a l ih =>
    obtain ⟨next, hrun, hnodes, hrelations⟩ := ih (fun b hb => hstep b (mem_cons_of_mem _ hb))
      (start.insertRelation (relationOf a))
    refine ⟨next, ?_, hnodes, fun relation => ?_⟩
    · rw [foldlM_cons, hstep a mem_cons_self]
      exact hrun
    · rw [hrelations, map_cons, mem_cons, insertRelation, Finset.mem_insert, or_assoc, or_left_comm]

/-- One projection is finished. -/
theorem exists_insertOwnersOf {id : ProofId} (hnode : collector.nodes[id.index]? = some node)
    (hid : node.id = id) (hnodup : collector.keys.Nodup)
    (howners : ∀ owner ∈ node.kind.owners, owner.index < collector.nodes.length)
    (hsize : collector.nodes.length ≤ u32Size) :
    ∃ next, collector.insertOwnersOf id = .ok next ∧
      next.nodes = collector.nodes.set id.index (canonicalNode collector.nodes node) ∧
      ∀ relation, relation ∈ next.relations ↔ relation ∈ collector.relations ∨
        relation ∈ ownerRelations (canonicalNode collector.nodes node) := by
  subst hid
  have hlength : (canonicalOwners collector.nodes node.kind.owners).length ≤
      collector.nodes.length :=
    length_canonicalOwners hnodup howners
  have hstep : ∀ entry ∈ (canonicalOwners collector.nodes node.kind.owners).zipIdx,
      ∀ c : SelectionCollector, (do
        let index ← ordinal entry.2
        return c.insertRelation ⟨node.id, .proof entry.1, .projectionOwner, index⟩) =
      .ok (c.insertRelation ⟨node.id, .proof entry.1, .projectionOwner, entry.2⟩) := by
    intro entry hentry c
    have hlt := (List.getElem?_eq_some_iff.mp (mem_zipIdx_iff_getElem?.mp hentry)).1
    rw [ordinal_eq (Nat.lt_of_lt_of_le hlt (hlength.trans hsize))]
    rfl
  obtain ⟨next, hrun, hnodes, hrelations⟩ := exists_insertRelations hstep
    (collector.withNode node.id (canonicalNode collector.nodes node))
  refine ⟨next, ?_, hnodes, fun relation => ?_⟩
  · rw [insertOwnersOf, hnode]
    dsimp only
    rw [canonicalizeProofIds_eq howners]
    exact hrun
  · rw [hrelations, ownerRelations, owners_canonicalNode]
    rfl

theorem Valid.eq_of_id (h : collector.Valid) {a b : KeyedProof} (ha : a ∈ collector.nodes)
    (hb : b ∈ collector.nodes) (hid : a.id = b.id) : a = b := by
  obtain ⟨i, hi⟩ := mem_iff_getElem?.mp ha
  obtain ⟨j, hj⟩ := mem_iff_getElem?.mp hb
  rw [h.numbered hi, h.numbered hj] at hid
  cases hid
  exact Option.some.inj (hi.symm.trans hj)

theorem Valid.nodup_ids (h : collector.Valid) : (collector.nodes.map fun node => node.id).Nodup :=
  (nodup_map_iff_inj_on (List.Nodup.of_map _ h.nodup)).mpr fun _ ha _ hb hid =>
    h.eq_of_id ha hb hid

/-- What is left of the collection while the projections are finished. -/
structure OwnersPass (base : SelectionCollector) (done : List ProofId) (next : SelectionCollector) :
    Prop where
  nodes : next.nodes = base.nodes.map fun node =>
    if node.id ∈ done then canonicalNode base.nodes node else node
  relations : ∀ relation, relation ∈ next.relations ↔ relation ∈ base.relations ∨
    ∃ node ∈ base.nodes, node.id ∈ done ∧ relation ∈ ownerRelations (canonicalNode base.nodes node)

theorem canonicalNode_key (node : KeyedProof) :
    (canonicalNode nodes node).key = node.key := rfl

theorem canonicalNode_congr {nodes nodes' : List KeyedProof}
    (h : nodes.map KeyedProof.key = nodes'.map KeyedProof.key) :
    canonicalNode nodes = canonicalNode nodes' := by
  funext node
  rw [canonicalNode, canonicalNode, canonicalOwners, canonicalOwners, keyAt_congr h]

theorem OwnersPass.keys {base next : SelectionCollector} {done : List ProofId}
    (h : OwnersPass base done next) : next.keys = base.keys := by
  rw [SelectionCollector.keys, h.nodes, map_map]
  refine map_congr_left fun node _ => ?_
  rw [Function.comp_apply]
  split <;> rfl

/-- One projection more. -/
theorem OwnersPass.step (hvalid : collector.Valid) {done : List ProofId}
    {start : SelectionCollector} (h : OwnersPass collector done start)
    (hnode : node ∈ collector.nodes) (hnew : node.id ∉ done) :
    ∃ next, start.insertOwnersOf node.id = .ok next ∧
      OwnersPass collector (done ++ [node.id]) next := by
  have hkeys := h.keys
  have hlength : start.nodes.length = collector.nodes.length := by
    rw [h.nodes, length_map]
  have hkeysLength : collector.keys.length = collector.nodes.length := length_map _
  obtain ⟨i, hi⟩ := mem_iff_getElem?.mp hnode
  have hid : node.id = ⟨i⟩ := hvalid.numbered hi
  have hat : start.nodes[node.id.index]? = some node := by
    rw [h.nodes, getElem?_map, hid, hi, Option.map_some, if_neg hnew]
  obtain ⟨next, hrun, hnodes, hrelations⟩ := exists_insertOwnersOf hat rfl (hkeys ▸ hvalid.nodup)
    (fun owner howner => by
      rw [hlength, ← hkeysLength]
      exact hvalid.references node hnode owner (ProofNodeKind.mem_ids.mpr (.inl howner)))
    (hlength ▸ hkeysLength ▸ hvalid.size)
  rw [canonicalNode_congr hkeys] at hnodes hrelations
  refine ⟨next, hrun, ?_, fun relation => ?_⟩
  · rw [hnodes, h.nodes]
    apply ext_getElem?
    intro j
    rw [getElem?_set, getElem?_map, length_map, hid]
    split
    case isTrue hj =>
      subst hj
      have hmem : node.id ∈ done ++ [⟨i⟩] := by simp [hid]
      rw [if_pos (List.getElem?_eq_some_iff.mp hi).1, getElem?_map, hi, Option.map_some,
        if_pos hmem]
    case isFalse hj =>
      rw [getElem?_map]
      refine Option.map_congr fun other hother => ?_
      have hne : other.id ≠ ⟨i⟩ := by
        rw [hvalid.numbered hother]
        exact fun heq => hj (congrArg ProofId.index heq).symm
      simp [hne]
  · have hunique : ∀ other ∈ collector.nodes, other.id = node.id → other = node :=
      fun other hother heq => hvalid.eq_of_id hother hnode heq
    rw [hrelations, h.relations, or_assoc]
    refine or_congr_right ⟨?_, ?_⟩
    · rintro (⟨other, hother, hdone, hrelation⟩ | hrelation)
      · exact ⟨other, hother, mem_append_left _ hdone, hrelation⟩
      · exact ⟨node, hnode, mem_append_right _ mem_cons_self, hrelation⟩
    · rintro ⟨other, hother, hdone, hrelation⟩
      rcases mem_append.mp hdone with hdone | hdone
      · exact .inl ⟨other, hother, hdone, hrelation⟩
      · obtain rfl := hunique other hother (mem_singleton.mp hdone)
        exact .inr hrelation

theorem canonicalNode_of_not_projection (h : node.kind.isProjection = false) :
    canonicalNode nodes node = node ∧ ownerRelations (canonicalNode nodes node) = [] := by
  have hsame : canonicalNode nodes node = node := by
    rw [canonicalNode, ProofNodeKind.withOwners_of_not_projection h]
  refine ⟨hsame, ?_⟩
  rw [hsame, ownerRelations, ProofNodeKind.owners_of_not_projection h]
  rfl

/-- All projections are finished. -/
theorem exists_insertProjectionOwnerRelations (h : collector.Valid) :
    ∃ next, collector.insertProjectionOwnerRelations = .ok next ∧
      next.nodes = collector.nodes.map (canonicalNode collector.nodes) ∧
      ∀ relation, relation ∈ next.relations ↔ relation ∈ collector.relations ∨
        ∃ node ∈ collector.nodes,
          relation ∈ ownerRelations (canonicalNode collector.nodes node) := by
  have hprojections : ∀ {id}, id ∈ (collector.nodes.filter fun node => node.kind.isProjection).map
      (fun node => node.id) ↔
        ∃ node ∈ collector.nodes, node.kind.isProjection = true ∧ node.id = id := by
    simp [and_assoc]
  have hnodup : ((collector.nodes.filter fun node => node.kind.isProjection).map
      fun node => node.id).Nodup :=
    h.nodup_ids.sublist (filter_sublist.map _)
  obtain ⟨next, hrun, hpass⟩ := foldlM_total (P := OwnersPass collector)
    (l := (collector.nodes.filter fun node => node.kind.isProjection).map fun node => node.id)
    (f := insertOwnersOf) (s := collector)
    (fun done id rest start hsplit hstart => by
      have hid : id ∈ done ++ id :: rest := by simp
      obtain ⟨node, hnode, -, rfl⟩ := hprojections.mp (hsplit ▸ hid)
      rw [hsplit] at hnodup
      exact hstart.step h hnode fun hdone =>
        (nodup_append.mp hnodup).2.2 _ hdone _ mem_cons_self rfl)
    ⟨by simp, by simp⟩
  refine ⟨next, hrun, ?_, fun relation => ?_⟩
  · rw [hpass.nodes]
    refine map_congr_left fun node hnode => ?_
    cases hkind : node.kind.isProjection with
    | true => exact if_pos (hprojections.mpr ⟨node, hnode, hkind, rfl⟩)
    | false =>
      rw [(canonicalNode_of_not_projection hkind).1]
      exact ite_self _
  · rw [hpass.relations]
    refine or_congr_right (exists_congr fun node => and_congr_right fun hnode => ?_)
    refine and_iff_right_of_imp fun hrelation => ?_
    cases hkind : node.kind.isProjection with
    | true => exact hprojections.mpr ⟨node, hnode, hkind, rfl⟩
    | false =>
      rw [(canonicalNode_of_not_projection hkind).2] at hrelation
      cases hrelation

/-! ## The new numbers -/

/-- The proofs in the order of their keys, with their old numbers, and the new number of each. -/
structure Numbering (nodes : List KeyedProof) (order : List (KeyedProof × Nat))
    (remap : List ProofId) : Prop where
  length : order.length = nodes.length
  remap_length : remap.length = nodes.length
  ascending : (order.map fun entry => entry.1.key).Pairwise (· < ·)
  placed : ∀ {new : Nat} {node : KeyedProof} {old : Nat}, order[new]? = some (node, old) →
    nodes[old]? = some node ∧ remap[old]? = some ⟨new⟩
  total : ∀ {old : Nat} {node : KeyedProof}, nodes[old]? = some node →
    ∃ new : Nat, order[new]? = some (node, old)

theorem exists_numbering (hnodup : (nodes.map KeyedProof.key).Nodup)
    (hsize : nodes.length ≤ u32Size) :
    ∃ remap,
      canonicalNumbers (nodes.zipIdx.insertionSort fun left right => left.1.key ≤ right.1.key) =
        .ok remap ∧
      Numbering nodes (nodes.zipIdx.insertionSort fun left right => left.1.key ≤ right.1.key)
        remap := by
  have hperm := perm_insertionSort
    (fun left right : KeyedProof × Nat => left.1.key ≤ right.1.key) nodes.zipIdx
  have hsorted :=
    pairwise_insertionSort_key (fun entry : KeyedProof × Nat => entry.1.key) nodes.zipIdx
  generalize nodes.zipIdx.insertionSort (fun left right => left.1.key ≤ right.1.key) = order
    at hperm hsorted
  have hmem : ∀ {node old}, (node, old) ∈ order ↔ nodes[old]? = some node :=
    hperm.mem_iff.trans mem_zipIdx_iff_getElem?
  have hlength : order.length = nodes.length := hperm.length_eq.trans length_zipIdx
  have holds : (order.zipIdx.map fun entry => entry.1.2).Nodup := by
    have hfst : order.zipIdx.map (fun entry => entry.1.2) = order.map Prod.snd := by
      rw [← zipIdx_map_fst 0 order, map_map, zipIdx_map_fst]
      rfl
    rw [hfst]
    refine (hperm.map Prod.snd).nodup_iff.mpr ?_
    rw [zipIdx_map_snd]
    exact nodup_range'
  have hkeys : (order.map fun entry => entry.1.key).Nodup := by
    refine (hperm.map _).nodup_iff.mpr ?_
    have hfst : nodes.zipIdx.map (fun entry => entry.1.key) = nodes.map KeyedProof.key := by
      rw [← zipIdx_map_fst 0 nodes, map_map, zipIdx_map_fst]
      rfl
    rwa [hfst]
  have hstep : ∀ entry ∈ order.zipIdx, ∀ remap : List ProofId, (do
      let index ← ordinal entry.2
      return remap.set entry.1.2 ⟨index⟩) =
      Except.ok (ε := SelectionCollectionError) (remap.set entry.1.2 ⟨entry.2⟩) := by
    intro entry hentry remap
    have hlt := (List.getElem?_eq_some_iff.mp (mem_zipIdx_iff_getElem?.mp hentry)).1
    rw [ordinal_eq (Nat.lt_of_lt_of_le (hlength ▸ hlt) hsize)]
    rfl
  refine ⟨_, foldlM_eq_foldl hstep _, hlength, ?_, ?_, ?_, ?_⟩
  case refine_1 =>
    rw [length_foldl_set, length_replicate, hlength]
  case refine_2 =>
    exact ((pairwise_map.mpr hsorted).and hkeys).imp fun h => lt_of_le_of_ne h.1 h.2
  case refine_3 =>
    intro new node old hnew
    have hnode := hmem.mp (mem_of_getElem? hnew)
    refine ⟨hnode, ?_⟩
    have hentry : ((node, old), new) ∈ order.zipIdx := mem_zipIdx_iff_getElem?.mpr hnew
    refine getElem?_foldl_set holds hentry ?_
    rw [length_replicate, hlength]
    exact (List.getElem?_eq_some_iff.mp hnode).1
  case refine_4 =>
    exact fun hnode => mem_iff_getElem?.mp (hmem.mpr hnode)

/-! ## Finishing -/

/-- The new number of a proof; numbers that were not returned have an arbitrary one. -/
def newNumber (remap : List ProofId) (id : ProofId) : ProofId := remap[id.index]?.getD ⟨0⟩

theorem remapped_eq {remap : List ProofId} {id : ProofId} (h : id.index < remap.length) :
    remapped remap id = .ok (newNumber remap id) := by
  rw [remapped_eq_ok, newNumber, getElem?_eq_getElem h]
  rfl

/-- The relations that were reported and those to the owners. -/
def Related (collector : SelectionCollector) (relation : SolverRelation ProofId) : Prop :=
  relation ∈ collector.relations ∨
    ∃ node ∈ collector.nodes, relation ∈ ownerRelations (canonicalNode collector.nodes node)

/-- What `finish` makes of the collector: the same proofs and relations under their new numbers. -/
structure Finished (collector : SelectionCollector) (out : CollectedSelectionProofs) : Prop where
  length : out.nodes.length = collector.nodes.length
  remap_length : out.observedToCanonical.length = collector.nodes.length
  ascending : (out.nodes.map KeyedProof.key).Pairwise (· < ·)
  nodes : ∀ {old : Nat} {node : KeyedProof}, collector.nodes[old]? = some node →
    ∃ new : Nat, out.observedToCanonical[old]? = some ⟨new⟩ ∧ out.nodes[new]? = some
      { id := ⟨new⟩
        key := node.key
        kind := (canonicalNode collector.nodes node).kind.map (newNumber out.observedToCanonical) }
  origin : ∀ {new : Nat} {node : KeyedProof}, out.nodes[new]? = some node →
    ∃ old : Nat, old < collector.nodes.length ∧ out.observedToCanonical[old]? = some ⟨new⟩
  relations : ∀ relation, relation ∈ out.relations ↔ ∃ reported, collector.Related reported ∧
    reported.map (newNumber out.observedToCanonical) = relation
  sorted : out.relations.Pairwise fun left right => left.sortKey ≤ right.sortKey
  nodup : out.relations.Nodup

theorem Valid.references_canonicalNode (h : collector.Valid) (hnode : node ∈ collector.nodes) :
    ∀ id ∈ (canonicalNode collector.nodes node).kind.ids, id.index < collector.nodes.length := by
  have hold : ∀ id ∈ node.kind.ids, id.index < collector.nodes.length := fun id hid => by
    have hlt := h.references node hnode id hid
    rwa [SelectionCollector.keys, length_map] at hlt
  intro id hid
  rcases ProofNodeKind.mem_ids.mp hid with howner | hseen
  · rw [owners_canonicalNode] at howner
    have hmem := canonicalOwners_spec h.nodup fun owner howner =>
      hold owner (ProofNodeKind.mem_ids.mpr (.inl howner))
    exact hold id (ProofNodeKind.mem_ids.mpr (.inl ((hmem.2 id).mp howner)))
  · rw [canonicalNode, ProofNodeKind.observe_withOwners] at hseen
    exact hold id (ProofNodeKind.mem_ids.mpr (.inr hseen))

theorem Valid.references_related (h : collector.Valid) {relation : SolverRelation ProofId}
    (hrelation : collector.Related relation) :
    ∀ id ∈ relation.ids, id.index < collector.nodes.length := by
  intro id hid
  rcases hrelation with hrelation | ⟨node, hnode, hrelation⟩
  · have hlt := h.relationReferences relation hrelation id hid
    rwa [SelectionCollector.keys, length_map] at hlt
  · obtain ⟨owner, index, howner, rfl⟩ := mem_ownerRelations.mp hrelation
    rcases SolverRelation.mem_ids.mp hid with rfl | htarget
    · obtain ⟨i, hi⟩ := mem_iff_getElem?.mp hnode
      have hnumber := h.numbered hi
      show node.id.index < _
      rw [hnumber]
      exact (List.getElem?_eq_some_iff.mp hi).1
    · obtain rfl := SolverRelationTarget.proof.inj htarget
      exact h.references_canonicalNode hnode _
        (ProofNodeKind.mem_ids.mpr (.inl (mem_of_getElem? howner)))

/-- The proofs in their order, and their relations, under the new numbers. -/
def renumbered (order : List (KeyedProof × Nat)) (relations : Finset (SolverRelation ProofId))
    (remap : List ProofId) : CollectedSelectionProofs where
  nodes := order.zipIdx.map fun entry =>
    { id := ⟨entry.2⟩
      key := entry.1.1.key
      kind := entry.1.1.kind.map (newNumber remap) }
  relations := ((ascending relations).map (SolverRelation.map (newNumber remap))).insertionSort
    fun left right => left.sortKey ≤ right.sortKey
  observedToCanonical := remap

theorem finished_renumbered (h : collector.Valid) {order : List (KeyedProof × Nat)}
    {relations : Finset (SolverRelation ProofId)} {remap : List ProofId}
    (hnumbering : Numbering (collector.nodes.map (canonicalNode collector.nodes)) order remap)
    (hrelations : ∀ relation, relation ∈ relations ↔ collector.Related relation) :
    Finished collector (renumbered order relations remap) := by
  have hplaced : ∀ {id : ProofId}, id.index < collector.nodes.length → ∃ node, ∃ new : Nat,
      order[new]? = some (node, id.index) ∧ newNumber remap id = ⟨new⟩ := by
    intro id hid
    have hnode : (collector.nodes.map (canonicalNode collector.nodes))[id.index]? =
        some (canonicalNode collector.nodes collector.nodes[id.index]) := by
      rw [getElem?_map, getElem?_eq_getElem hid, Option.map_some]
    obtain ⟨new, hnew⟩ := hnumbering.total hnode
    refine ⟨_, new, hnew, ?_⟩
    rw [newNumber, (hnumbering.placed hnew).2]
    rfl
  have hback : ∀ id : ProofId, id.index < collector.nodes.length →
      ProofId.mk ((order[(newNumber remap id).index]?.map Prod.snd).getD 0) = id := by
    intro id hid
    obtain ⟨node, new, hnew, hnumber⟩ := hplaced hid
    rw [hnumber, hnew]
    rfl
  constructor
  case length =>
    rw [renumbered, length_map, length_zipIdx, hnumbering.length, length_map]
  case remap_length =>
    rw [renumbered, hnumbering.remap_length, length_map]
  case ascending =>
    have hkeys : (renumbered order relations remap).nodes.map KeyedProof.key =
        order.map fun entry => entry.1.key := by
      have hfst := congrArg (List.map fun entry : KeyedProof × Nat => entry.1.key)
        (zipIdx_map_fst 0 order)
      rw [map_map] at hfst
      rw [renumbered, map_map]
      exact hfst
    rw [hkeys]
    exact hnumbering.ascending
  case nodes =>
    intro old node hnode
    have hcanonical : (collector.nodes.map (canonicalNode collector.nodes))[old]? =
        some (canonicalNode collector.nodes node) := by
      rw [getElem?_map, hnode, Option.map_some]
    obtain ⟨new, hnew⟩ := hnumbering.total hcanonical
    refine ⟨new, (hnumbering.placed hnew).2, ?_⟩
    rw [renumbered, getElem?_map, getElem?_zipIdx, hnew]
    simp [canonicalNode_key]
  case origin =>
    intro new node hnode
    rw [renumbered, getElem?_map, getElem?_zipIdx, Option.map_map, Option.map_eq_some_iff] at hnode
    obtain ⟨⟨canonical, old⟩, hnew, -⟩ := hnode
    obtain ⟨hold, hremap⟩ := hnumbering.placed hnew
    have hlt := (List.getElem?_eq_some_iff.mp hold).1
    rw [length_map] at hlt
    exact ⟨old, hlt, hremap⟩
  case relations =>
    intro relation
    rw [renumbered, (perm_insertionSort _ _).mem_iff, mem_map]
    simp only [mem_ascending, hrelations]
  case sorted => exact pairwise_insertionSort_key SolverRelation.sortKey _
  case nodup =>
    refine (perm_insertionSort _ _).nodup_iff.mpr ?_
    refine (nodup_map_iff_inj_on (nodup_ascending _)).mpr fun a ha b hb hab => ?_
    have hself : ∀ relation ∈ ascending relations, (relation.map (newNumber remap)).map (fun id =>
        ProofId.mk ((order[id.index]?.map Prod.snd).getD 0)) = relation := fun relation hrelation =>
      SolverRelation.map_map_eq_self fun id hid => hback id
        (h.references_related ((hrelations relation).mp (mem_ascending.mp hrelation)) id hid)
    rw [← hself a ha, hab, hself b hb]

theorem exists_finish (h : collector.Valid) (hconflict : collector.conflictingRelation = false) :
    ∃ out, collector.finish = .ok out ∧ Finished collector out := by
  obtain ⟨pass, hpass, hnodes, hrelations⟩ := exists_insertProjectionOwnerRelations h
  have hkeys : pass.nodes.map KeyedProof.key = collector.keys := by
    rw [hnodes, map_map]
    rfl
  have hlength : pass.nodes.length = collector.nodes.length := by rw [hnodes, length_map]
  have hsize : pass.nodes.length ≤ u32Size := by
    have hsize := h.size
    rwa [SelectionCollector.keys, length_map, ← hlength] at hsize
  obtain ⟨remap, hremap, hnumbering⟩ := exists_numbering (hkeys ▸ h.nodup) hsize
  have hremapLength : remap.length = collector.nodes.length := hnumbering.remap_length.trans hlength
  have hvalid : ∀ node ∈ pass.nodes, ∀ id ∈ node.kind.ids, remapped remap id =
      .ok (newNumber remap id) := by
    intro node hnode id hid
    obtain ⟨old, hold, rfl⟩ := mem_map.mp (hnodes ▸ hnode)
    exact remapped_eq (hremapLength ▸ h.references_canonicalNode hold id hid)
  have hrelated : ∀ relation ∈ pass.relations, ∀ id ∈ relation.ids, remapped remap id =
      .ok (newNumber remap id) := fun relation hrelation id hid =>
    remapped_eq (hremapLength ▸ h.references_related ((hrelations relation).mp hrelation) id hid)
  generalize horder : pass.nodes.zipIdx.insertionSort (fun left right => left.1.key ≤ right.1.key) =
    order at hremap hnumbering
  have hrunNodes : order.zipIdx.mapM (remapNode remap) = .ok (order.zipIdx.map fun entry =>
      { id := ⟨entry.2⟩
        key := entry.1.1.key
        kind := entry.1.1.kind.map (newNumber remap) }) := by
    refine mapM_eq_map fun entry hentry => ?_
    have hnew := mem_zipIdx_iff_getElem?.mp hentry
    have hlt := (List.getElem?_eq_some_iff.mp hnew).1
    have hnode := mem_of_getElem? (hnumbering.placed hnew).1
    rw [remapNode, ordinal_eq (Nat.lt_of_lt_of_le (hnumbering.length ▸ hlt) hsize)]
    dsimp only [bind, Except.bind]
    rw [remapNodeReferences_eq (hvalid _ hnode)]
    rfl
  have hrunRelations : (ascending pass.relations).mapM (remapRelation (remapped remap)) =
      .ok ((ascending pass.relations).map (SolverRelation.map (newNumber remap))) :=
    mapM_eq_map fun relation hrelation =>
      remapRelation_eq (hrelated relation (mem_ascending.mp hrelation))
  refine ⟨renumbered order pass.relations remap, ?_, ?_⟩
  · rw [finish, hconflict]
    dsimp only
    rw [if_neg Bool.false_ne_true, hpass]
    dsimp only [bind, Except.bind]
    rw [horder, hremap]
    dsimp only
    rw [hrunNodes, hrunRelations]
    rfl
  · rw [hnodes] at hnumbering
    exact finished_renumbered h hnumbering hrelations

end SelectionCollector

end ItemDependencies
