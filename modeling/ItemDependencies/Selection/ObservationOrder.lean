import ItemDependencies.Selection.ProofInventory

/-!
# The order of observation

What comes out of the collector is determined by what was reported, in whatever order.
-/

namespace ItemDependencies

open Library List

/-- The collection that belongs to a list of calls, in which the calls have no order. -/
structure CollectedSelectionProofs.Inventory (out : CollectedSelectionProofs)
    (calls : List (SelectionCall ProofKey)) : Prop where
  numbered : ∀ {i : Nat} {node : KeyedProof}, out.nodes[i]? = some node → node.id = ⟨i⟩
  ascending : (out.nodes.map KeyedProof.key).Pairwise (· < ·)
  references : ∀ node ∈ out.nodes, ∀ id ∈ node.kind.ids, id.index < out.nodes.length
  relationReferences : ∀ relation ∈ out.relations, ∀ id ∈ relation.ids, id.index < out.nodes.length
  facts : Gathers (calls.map SelectionCall.facts) (knownFacts out.nodes)
  owners : ∀ key owner, OwnedBy out.nodes key owner ↔ ∃ call ∈ calls, call.Owns key owner
  ownersAscending : ∀ node ∈ out.nodes, node.kind.owners.Pairwise (· < ·)
  relations : ∀ relation,
    (∃ reported ∈ out.relations, reported.map (nameOf (out.nodes.map KeyedProof.key)) = relation) ↔
      .insertRelation relation ∈ calls ∨ ∃ node ∈ out.nodes, ∃ reported ∈ ownerRelations node,
        reported.map (nameOf (out.nodes.map KeyedProof.key)) = relation
  sorted : out.relations.Pairwise fun left right => left.sortKey ≤ right.sortKey
  nodup : out.relations.Nodup

variable {node : KeyedProof}

namespace SelectionCollector

namespace Finished

variable {collector : SelectionCollector} {out : CollectedSelectionProofs}

section

variable (h : Finished collector out)
include h

theorem newNumber_eq {id : ProofId} (hid : id.index < collector.nodes.length) : ∃ new : Nat,
    newNumber out.observedToCanonical id = ⟨new⟩ ∧
      (out.nodes.map KeyedProof.key)[new]? = some (nameOf collector.keys id) := by
  obtain ⟨new, hremap, hnode⟩ := h.nodes (getElem?_eq_getElem hid)
  refine ⟨new, ?_, ?_⟩
  · rw [newNumber, hremap]
    rfl
  · have hname : collector.keys[id.index]? = some (nameOf collector.keys id) :=
      getElem?_nameOf (by rwa [length_map])
    rw [getElem?_map, getElem?_eq_getElem hid] at hname
    rw [getElem?_map, hnode, ← hname]
    rfl

/-- A proof keeps its name. -/
theorem nameOf_newNumber {id : ProofId} (hid : id.index < collector.nodes.length) :
    nameOf (out.nodes.map KeyedProof.key) (newNumber out.observedToCanonical id) =
      nameOf collector.keys id := by
  obtain ⟨new, hnew, hkey⟩ := h.newNumber_eq hid
  rw [hnew, nameOf, hkey]
  rfl

theorem newNumber_lt {id : ProofId} (hid : id.index < collector.nodes.length) :
    (newNumber out.observedToCanonical id).index < out.nodes.length := by
  obtain ⟨new, hnew, hkey⟩ := h.newNumber_eq hid
  have hlt := (List.getElem?_eq_some_iff.mp hkey).1
  rw [length_map] at hlt
  rwa [hnew]

theorem map_newNumber {kind : ProofNodeKind ProofId}
    (hkind : ∀ id ∈ kind.ids, id.index < collector.nodes.length) :
    (kind.map (newNumber out.observedToCanonical)).map (nameOf (out.nodes.map KeyedProof.key)) =
      kind.map (nameOf collector.keys) := by
  rw [ProofNodeKind.map_map]
  exact ProofNodeKind.map_congr fun id hid => h.nameOf_newNumber (hkind id hid)

variable (hvalid : collector.Valid)
include hvalid

/-- What has become of a proof. -/
theorem exists_new (hnode : node ∈ collector.nodes) :
    { id := newNumber out.observedToCanonical node.id
      key := node.key
      kind := (canonicalNode collector.nodes node).kind.map (newNumber out.observedToCanonical) } ∈
        out.nodes := by
  obtain ⟨old, hold⟩ := mem_iff_getElem?.mp hnode
  obtain ⟨new, hremap, hnew⟩ := h.nodes hold
  have hid := hvalid.numbered hold
  rw [hid, newNumber, hremap]
  exact mem_of_getElem? hnew

theorem exists_old (hnode : node ∈ out.nodes) :
    ∃ old ∈ collector.nodes, node =
      { id := newNumber out.observedToCanonical old.id
        key := old.key
        kind := (canonicalNode collector.nodes old).kind.map
          (newNumber out.observedToCanonical) } := by
  obtain ⟨new, hnew⟩ := mem_iff_getElem?.mp hnode
  obtain ⟨old, hlt, hremap⟩ := h.origin hnew
  obtain ⟨new', hremap', hnew'⟩ := h.nodes (getElem?_eq_getElem hlt)
  rw [hremap] at hremap'
  cases hremap'
  refine ⟨collector.nodes[old], getElem_mem hlt, ?_⟩
  have hid := hvalid.numbered (getElem?_eq_getElem hlt)
  rw [hid, newNumber, hremap]
  exact Option.some.inj (hnew.symm.trans hnew')

theorem named (hnode : node ∈ collector.nodes) :
    ((canonicalNode collector.nodes node).kind.map (newNumber out.observedToCanonical)).map
        (nameOf (out.nodes.map KeyedProof.key)) =
      (canonicalNode collector.nodes node).kind.map (nameOf collector.keys) :=
  h.map_newNumber (hvalid.references_canonicalNode hnode)

/-- What holds of a key and what is known under it holds before and after. -/
theorem exists_node_iff {P : ProofKey → ProofNodeKind ProofKey → Prop} :
    (∃ node ∈ out.nodes, P node.key (node.kind.map (nameOf (out.nodes.map KeyedProof.key)))) ↔
      ∃ node ∈ collector.nodes, P node.key
        ((canonicalNode collector.nodes node).kind.map (nameOf collector.keys)) := by
  constructor
  · rintro ⟨node, hnode, hP⟩
    obtain ⟨old, hold, rfl⟩ := h.exists_old hvalid hnode
    rw [h.named hvalid hold] at hP
    exact ⟨old, hold, hP⟩
  · rintro ⟨old, hold, hP⟩
    refine ⟨_, h.exists_new hvalid hold, ?_⟩
    rwa [h.named hvalid hold]

theorem knownFacts_eq : knownFacts out.nodes = knownFacts collector.nodes := by
  funext site
  apply Option.ext
  intro seen
  have hobserve : ∀ node : KeyedProof,
      ((canonicalNode collector.nodes node).kind.map (nameOf collector.keys)).observe =
        (node.kind.map (nameOf collector.keys)).observe := fun node => by
    funext part
    rw [ProofNodeKind.observe_map, ProofNodeKind.observe_map, canonicalNode,
      ProofNodeKind.observe_withOwners]
  rw [knownFacts_eq_some (h.ascending.imp ne_of_lt), knownFacts_eq_some hvalid.nodup,
    h.exists_node_iff hvalid (P := fun key kind => key = site.1 ∧ kind.observe site.2 = some seen)]
  simp only [hobserve]

theorem ownedBy_iff {key owner : ProofKey} :
    OwnedBy out.nodes key owner ↔ OwnedBy collector.nodes key owner := by
  rw [OwnedBy, h.exists_node_iff hvalid (P := fun other kind => other = key ∧ owner ∈ kind.owners)]
  refine exists_congr fun node => and_congr_right fun hnode => and_congr_right fun _ => ?_
  have hids : ∀ id ∈ node.kind.owners, id.index < collector.nodes.length := fun id hid => by
    have hlt := hvalid.references node hnode id (ProofNodeKind.mem_ids.mpr (.inl hid))
    rwa [SelectionCollector.keys, length_map] at hlt
  rw [ProofNodeKind.owners_map, ProofNodeKind.owners_map, owners_canonicalNode]
  simp only [mem_map, (canonicalOwners_spec hvalid.nodup hids).2]

theorem owners_ascending (hnode : node ∈ out.nodes) : node.kind.owners.Pairwise (· < ·) := by
  obtain ⟨old, hold, rfl⟩ := h.exists_old hvalid hnode
  have hids : ∀ id ∈ old.kind.owners, id.index < collector.nodes.length := fun id hid => by
    have hlt := hvalid.references old hold id (ProofNodeKind.mem_ids.mpr (.inl hid))
    rwa [SelectionCollector.keys, length_map] at hlt
  obtain ⟨hsorted, hmem⟩ := canonicalOwners_spec hvalid.nodup hids
  rw [ProofNodeKind.owners_map, owners_canonicalNode, pairwise_map]
  refine hsorted.imp_of_mem fun {a b} ha hb hlt => ?_
  have hlta := hids a ((hmem a).mp ha)
  have hltb := hids b ((hmem b).mp hb)
  rw [keyAt_of_lt hlta, keyAt_of_lt hltb, WithBot.coe_lt_coe] at hlt
  obtain ⟨i, hi, hkeyi⟩ := h.newNumber_eq hlta
  obtain ⟨j, hj, hkeyj⟩ := h.newNumber_eq hltb
  rw [hi, hj]
  exact (getElem?_lt_iff h.ascending hkeyi hkeyj).mpr hlt

omit h hvalid in
theorem ownerRelations_eq {old : KeyedProof} :
    ownerRelations
      { id := newNumber out.observedToCanonical old.id
        key := old.key
        kind := (canonicalNode collector.nodes old).kind.map (newNumber out.observedToCanonical) } =
      (ownerRelations (canonicalNode collector.nodes old)).map
        (SolverRelation.map (newNumber out.observedToCanonical)) := by
  rw [ownerRelations, ownerRelations, ProofNodeKind.owners_map, zipIdx_map, map_map, map_map]
  rfl

/-- The finished collection is the one that belongs to the calls. -/
theorem inventory {calls : List (SelectionCall ProofKey)} (hrecords : collector.Records calls) :
    out.Inventory calls := by
  constructor
  case numbered =>
    intro i node hnode
    obtain ⟨old, hlt, hremap⟩ := h.origin hnode
    obtain ⟨new, hremap', hnew⟩ := h.nodes (getElem?_eq_getElem hlt)
    rw [hremap] at hremap'
    cases hremap'
    rw [hnode] at hnew
    cases hnew
    rfl
  case ascending => exact h.ascending
  case references =>
    intro node hnode id hid
    obtain ⟨old, hold, rfl⟩ := h.exists_old hvalid hnode
    rw [ProofNodeKind.ids_map] at hid
    obtain ⟨oldId, holdId, rfl⟩ := mem_map.mp hid
    exact h.newNumber_lt (hvalid.references_canonicalNode hold oldId holdId)
  case relationReferences =>
    intro relation hrelation id hid
    obtain ⟨reported, hreported, rfl⟩ := (h.relations relation).mp hrelation
    rw [SolverRelation.ids_map] at hid
    obtain ⟨oldId, holdId, rfl⟩ := mem_map.mp hid
    exact h.newNumber_lt (hvalid.references_related hreported oldId holdId)
  case facts =>
    rw [h.knownFacts_eq hvalid]
    exact hrecords.facts
  case owners => exact fun key owner => (h.ownedBy_iff hvalid).trans (hrecords.owners key owner)
  case ownersAscending => exact fun node hnode => h.owners_ascending hvalid hnode
  case relations =>
    intro relation
    have hname : ∀ reported, collector.Related reported →
        (reported.map (newNumber out.observedToCanonical)).map
          (nameOf (out.nodes.map KeyedProof.key)) =
          reported.map (nameOf collector.keys) := by
      intro reported hreported
      rw [SolverRelation.map_map]
      exact SolverRelation.map_congr fun id hid =>
        h.nameOf_newNumber (hvalid.references_related hreported id hid)
    rw [hrecords.relations]
    constructor
    · rintro ⟨_, hrelation, rfl⟩
      obtain ⟨reported, hreported, rfl⟩ := (h.relations _).mp hrelation
      rw [hname reported hreported]
      rcases hreported with hreported | ⟨old, hold, hreported⟩
      · exact .inl ⟨reported, hreported, rfl⟩
      · refine .inr
          ⟨_, h.exists_new hvalid hold, reported.map (newNumber out.observedToCanonical), ?_,
          hname reported (.inr ⟨old, hold, hreported⟩)⟩
        rw [ownerRelations_eq]
        exact mem_map_of_mem hreported
    · rintro (⟨reported, hreported, rfl⟩ | ⟨node, hnode, _, hrelation, rfl⟩)
      · exact
          ⟨_, (h.relations _).mpr ⟨reported, .inl hreported, rfl⟩, hname reported (.inl hreported)⟩
      · obtain ⟨old, hold, rfl⟩ := h.exists_old hvalid hnode
        rw [ownerRelations_eq] at hrelation
        obtain ⟨reported, hreported, rfl⟩ := mem_map.mp hrelation
        exact ⟨_, (h.relations _).mpr ⟨reported, .inr ⟨old, hold, hreported⟩, rfl⟩, rfl⟩
  case sorted => exact h.sorted
  case nodup => exact h.nodup

end

end Finished

end SelectionCollector

/-! ## The collection is determined -/

namespace CollectedSelectionProofs.Inventory

variable {out out' : CollectedSelectionProofs} {calls calls' : List (SelectionCall ProofKey)}

theorem nodup_keys (h : out.Inventory calls) : (out.nodes.map KeyedProof.key).Nodup :=
  h.ascending.imp ne_of_lt

/-- Numbers and keys have the same order. -/
theorem nameOf_lt (h : out.Inventory calls) {a b : ProofId} (ha : a.index < out.nodes.length)
    (hb : b.index < out.nodes.length) (hab : a < b) :
    nameOf (out.nodes.map KeyedProof.key) a < nameOf (out.nodes.map KeyedProof.key) b := by
  have hname : ∀ id : ProofId, id.index < out.nodes.length →
      (out.nodes.map KeyedProof.key)[id.index]? = some (nameOf (out.nodes.map KeyedProof.key) id) :=
    fun id hid => getElem?_nameOf (by rwa [length_map])
  obtain ⟨hi, hkeyi⟩ := List.getElem?_eq_some_iff.mp (hname a ha)
  obtain ⟨hj, hkeyj⟩ := List.getElem?_eq_some_iff.mp (hname b hb)
  rw [← hkeyi, ← hkeyj]
  exact pairwise_iff_getElem.mp h.ascending _ _ hi hj hab

theorem references_owners (h : out.Inventory calls) (hnode : node ∈ out.nodes) :
    ∀ owner ∈ node.kind.owners, owner.index < out.nodes.length := fun owner howner =>
  h.references node hnode owner (ProofNodeKind.mem_ids.mpr (.inl howner))

theorem owners_sorted (h : out.Inventory calls) (hnode : node ∈ out.nodes) :
    (node.kind.map (nameOf (out.nodes.map KeyedProof.key))).owners.Pairwise (· < ·) := by
  rw [ProofNodeKind.owners_map, pairwise_map]
  exact (h.ownersAscending node hnode).imp_of_mem fun ha hb hab =>
    h.nameOf_lt (h.references_owners hnode _ ha) (h.references_owners hnode _ hb) hab

theorem back (h : out.Inventory calls) {id : ProofId} (hid : id.index < out.nodes.length) :
    numberOf (out.nodes.map KeyedProof.key) (nameOf (out.nodes.map KeyedProof.key) id) = id :=
  numberOf_nameOf h.nodup_keys (by rwa [length_map])

section

variable (h : out.Inventory calls) (h' : out'.Inventory calls')
  (hcalls : ∀ call, call ∈ calls ↔ call ∈ calls')
include h h' hcalls

theorem keys_eq : out.nodes.map KeyedProof.key = out'.nodes.map KeyedProof.key := by
  have hmem : ∀ key, key ∈ out.nodes.map KeyedProof.key ↔ key ∈ out'.nodes.map KeyedProof.key :=
    fun key => by
      rw [mem_keys_iff_reported h.nodup_keys h.facts, mem_keys_iff_reported h'.nodup_keys h'.facts]
      simp only [hcalls]
  exact (eq_sortDedup h.ascending hmem).trans (eq_sortDedup h'.ascending fun key => Iff.rfl).symm

/-- Nodes with the same key are the same. -/
theorem kind_eq {node node' : KeyedProof} (hnode : node ∈ out.nodes) (hnode' : node' ∈ out'.nodes)
    (hkey : node.key = node'.key) : node.kind = node'.kind := by
  have hfacts : knownFacts out.nodes = knownFacts out'.nodes := h.facts.unique h'.facts fun g => by
    simp only [mem_map, hcalls]
  have hnamed : node.kind.map (nameOf (out.nodes.map KeyedProof.key)) =
      node'.kind.map (nameOf (out'.nodes.map KeyedProof.key)) := by
    apply ProofNodeKind.ext_observe
    · funext part
      rw [← knownFacts_of_mem h.nodup_keys hnode, ← knownFacts_of_mem h'.nodup_keys hnode', hfacts,
        hkey]
    · refine (eq_sortDedup (h.owners_sorted hnode) fun owner => ?_).trans
        (eq_sortDedup (h'.owners_sorted hnode') fun owner => Iff.rfl).symm
      rw [← ownedBy_of_mem h.nodup_keys hnode, ← ownedBy_of_mem h'.nodup_keys hnode', h.owners,
        h'.owners, hkey]
      simp only [hcalls]
  have hback := ProofNodeKind.map_map_eq_self fun id hid => h.back (h.references node hnode id hid)
  have hback' :=
    ProofNodeKind.map_map_eq_self fun id hid => h'.back (h'.references node' hnode' id hid)
  rw [← hback, ← hback', hnamed, keys_eq h h' hcalls]

/-- The same calls in any order give the same proofs. -/
theorem nodes_eq : out.nodes = out'.nodes := by
  apply ext_getElem?
  intro i
  have hkeys : (out.nodes.map KeyedProof.key)[i]? = (out'.nodes.map KeyedProof.key)[i]? := by
    rw [keys_eq h h' hcalls]
  rw [getElem?_map, getElem?_map] at hkeys
  cases hnode : out.nodes[i]? with
  | none =>
    rw [hnode] at hkeys
    exact (Option.map_eq_none_iff.mp hkeys.symm).symm
  | some node =>
    rw [hnode] at hkeys
    obtain ⟨node', hnode', hkey⟩ := Option.map_eq_some_iff.mp hkeys.symm
    have hkind :=
      kind_eq h h' hcalls (mem_of_getElem? hnode) (mem_of_getElem? hnode') hkey.symm
    have hid := h.numbered hnode
    have hid' := h'.numbered hnode'
    rw [hnode']
    obtain ⟨⟨id⟩, key, kind⟩ := node
    obtain ⟨⟨id'⟩, key', kind'⟩ := node'
    cases hid
    cases hid'
    cases hkey
    cases hkind
    rfl

theorem mem_relations {relation : SolverRelation ProofId} (hrelation : relation ∈ out.relations) :
    relation ∈ out'.relations := by
  have hnamed := (h.relations _).mp ⟨relation, hrelation, rfl⟩
  rw [nodes_eq h h' hcalls, hcalls] at hnamed
  obtain ⟨other, hother, hsame⟩ := (h'.relations _).mpr hnamed
  have hback := SolverRelation.map_map_eq_self fun id hid =>
    h.back (h.relationReferences relation hrelation id hid)
  have hback' := SolverRelation.map_map_eq_self fun id hid =>
    h'.back (h'.relationReferences other hother id hid)
  rw [nodes_eq h h' hcalls] at hback
  rwa [← hback, ← hsame, hback']

end

/-- The same calls in any order give the same relations. -/
theorem relations_eq (h : out.Inventory calls) (h' : out'.Inventory calls')
    (hcalls : ∀ call, call ∈ calls ↔ call ∈ calls') : out.relations = out'.relations := by
  have hperm : out.relations.Perm out'.relations :=
    (perm_ext_iff_of_nodup h.nodup h'.nodup).mpr fun relation =>
      ⟨mem_relations h h' hcalls, mem_relations h' h fun call => (hcalls call).symm⟩
  exact hperm.eq_of_pairwise (fun a b _ _ hab hba =>
    SolverRelation.sortKey_injective (le_antisymm hab hba)) h.sorted h'.sorted

end CollectedSelectionProofs.Inventory

end ItemDependencies
