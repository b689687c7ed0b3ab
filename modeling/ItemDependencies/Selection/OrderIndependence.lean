import ItemDependencies.Selection.ObservationOrder

/-!
# Runs of the collector

Two runs whose calls are, written with keys, permutations of each other end in the same way.
-/

namespace ItemDependencies

open Library List

/-- No two calls of a finished run contradict each other. -/
def Consistent (calls : List (SelectionCall ProofKey)) : Prop :=
  ∀ a ∈ calls, ∀ b ∈ calls, ¬a.Conflicts b

namespace SelectionCollector

variable {collector : SelectionCollector} {calls : List (SelectionCall ProofKey)}

theorem Valid.nameOf_relation (h : collector.Valid) {a b : SolverRelation ProofId}
    (ha : a ∈ collector.relations) (hb : b ∈ collector.relations)
    (hab : a.map (nameOf collector.keys) = b.map (nameOf collector.keys)) : a = b := by
  have hback : ∀ {relation}, relation ∈ collector.relations →
      (relation.map (nameOf collector.keys)).map (numberOf collector.keys) = relation :=
    fun hrelation => SolverRelation.map_map_eq_self fun id hid =>
      numberOf_nameOf h.nodup (h.relationReferences _ hrelation id hid)
  rw [← hback ha, hab, hback hb]

theorem slot_map {ι κ : Type} {f : ι → κ} {a b : SolverRelation ι} (hslot : a.slot = b.slot) :
    (a.map f).slot = (b.map f).slot := by
  obtain ⟨hfrom, hrest⟩ := Prod.mk.inj (toLex.injective hslot)
  exact congrArg toLex (Prod.ext (congrArg f hfrom) hrest)

theorem Valid.slot_of_map (h : collector.Valid) {a b : SolverRelation ProofId}
    (ha : a ∈ collector.relations) (hb : b ∈ collector.relations)
    (hslot : (a.map (nameOf collector.keys)).slot = (b.map (nameOf collector.keys)).slot) :
    a.slot = b.slot := by
  have hfrom : ∀ {relation}, relation ∈ collector.relations →
      relation.fromProof.index < collector.keys.length := fun hrelation =>
    h.relationReferences _ hrelation _ (SolverRelation.mem_ids.mpr (.inl rfl))
  obtain ⟨hname, hrest⟩ := Prod.mk.inj (toLex.injective hslot)
  exact congrArg toLex (Prod.ext (nameOf_injective h.nodup (hfrom ha) (hfrom hb) hname) hrest)

theorem slots_eq_some {call : SelectionCall ProofKey} {slot : RelationSlot ProofKey}
    {target : SolverRelationTarget ProofKey} : call.slots slot = some target ↔
      ∃ relation, call = .insertRelation relation ∧ relation.slot = slot ∧
        relation.target = target := by
  cases call with
  | internNode key kind => simp [SelectionCall.slots]
  | insertRelation relation => simp [SelectionCall.slots, eq_comm]

/-- The collector has noticed whether a slot was filled with two things. -/
theorem slots_clash_iff (h : collector.Valid) (hrecords : collector.Records calls) :
    collector.conflictingRelation = true ↔ ∃ a ∈ calls, ∃ b ∈ calls, Clashes a.slots b.slots := by
  constructor
  · intro hconflict
    obtain ⟨a, ha, b, hb, hslot, htarget⟩ := h.conflict hconflict
    have hmap := slot_map (f := nameOf collector.keys) hslot
    refine
      ⟨_, (hrecords.relations _).mpr ⟨a, ha, rfl⟩, _, (hrecords.relations _).mpr ⟨b, hb, rfl⟩, _, _,
      _, slots_eq_some.mpr ⟨_, rfl, hmap, rfl⟩, slots_eq_some.mpr ⟨_, rfl, rfl, rfl⟩, fun heq => ?_⟩
    exact htarget (congrArg _ (h.nameOf_relation ha hb (SolverRelation.eq_of_slot hmap heq)))
  · rintro ⟨_, ha, _, hb, slot, v, w, hv, hw, hne⟩
    obtain ⟨_, rfl, hslota, rfl⟩ := slots_eq_some.mp hv
    obtain ⟨_, rfl, hslotb, rfl⟩ := slots_eq_some.mp hw
    obtain ⟨a, ha', rfl⟩ := (hrecords.relations _).mp ha
    obtain ⟨b, hb', rfl⟩ := (hrecords.relations _).mp hb
    by_contra hquiet
    have hfilled : collector.conflictingRelation = false := Bool.eq_false_iff.mpr hquiet
    have hslot := h.slot_of_map ha' hb' (hslota.trans hslotb.symm)
    have hgeta := (h.slots hfilled).mpr ⟨a, ha', rfl, rfl⟩
    have hgetb := (h.slots hfilled).mpr ⟨b, hb', hslot.symm, rfl⟩
    exact hne (congrArg (SolverRelationTarget.map _) (Option.some.inj (hgeta.symm.trans hgetb)))

/-- A run ends with the collection that belongs to its calls, or two calls contradict each other, or
there are too many proofs. -/
theorem inventory_cases {calls : List (SelectionCall ProofId)}
    {keyed : List (SelectionCall ProofKey)}
    (hkeyed : writeKeys [] calls = .ok keyed) :
    (∃ out, inventory calls = .ok out ∧ out.Inventory keyed ∧ Consistent keyed ∧
      (reportedKeys keyed).card ≤ u32Size) ∨
    (inventory calls = .error .conflictingProof ∧ ¬Consistent keyed) ∨
    (inventory calls = .error .tooManyProofs ∧ u32Size < (reportedKeys keyed).card) := by
  rcases collect_cases valid_new records_new hkeyed with
    ⟨collector, hrun, hvalid, hrecords⟩ | ⟨hrun, a, ha, b, hb, hconflict⟩ | ⟨hrun, hmany⟩
  · rw [nil_append] at hrecords
    cases hconflict : collector.conflictingRelation with
    | true =>
      obtain ⟨a, ha, b, hb, hclash⟩ := (slots_clash_iff hvalid hrecords).mp hconflict
      refine .inr (.inl ⟨?_, fun hconsistent => hconsistent a ha b hb (.inr hclash)⟩)
      rw [inventory, collect, hrun]
      dsimp only [bind, Except.bind]
      rw [finish, hconflict]
      rfl
    | false =>
      obtain ⟨out, hfinish, hout⟩ := exists_finish hvalid hconflict
      refine .inl ⟨out, ?_, hout.inventory hvalid hrecords, fun a ha b hb hab => ?_, ?_⟩
      · rw [inventory, collect, hrun]
        exact hfinish
      · rcases hab with hfacts | hslots
        · exact hrecords.facts.not_clashes (mem_map_of_mem ha) (mem_map_of_mem hb) hfacts
        · have hnoticed := (slots_clash_iff hvalid hrecords).mpr ⟨a, ha, b, hb, hslots⟩
          rw [hconflict] at hnoticed
          cases hnoticed
      · have hkeys : reportedKeys keyed = collector.keys.toFinset := by
          ext key
          rw [mem_reportedKeys, mem_toFinset, mem_keys_iff_reported hvalid.nodup hrecords.facts]
        rw [hkeys, toFinset_card_of_nodup hvalid.nodup]
        exact hvalid.size
  · refine .inr (.inl ⟨?_, fun hconsistent => hconsistent a ha b hb hconflict⟩)
    rw [inventory, collect, hrun]
    rfl
  · refine .inr (.inr ⟨?_, hmany⟩)
    rw [inventory, collect, hrun]
    rfl

/-- How a finished collection comes from what was reported. -/
structure Canonical (collector : SelectionCollector) (calls : List (SelectionCall ProofKey))
    (out : CollectedSelectionProofs) : Prop where
  /-- The numbers are dense in the order of the keys. -/
  numbered : ∀ {i : Nat} {node : KeyedProof}, out.nodes[i]? = some node → node.id = ⟨i⟩
  ascending : (out.nodes.map KeyedProof.key).Pairwise (· < ·)
  /-- The new numbers are a rearrangement of the old ones. -/
  length : out.observedToCanonical.length = collector.nodes.length
  nodup : out.observedToCanonical.Nodup
  mem_remap : ∀ id, id ∈ out.observedToCanonical ↔ id.index < collector.nodes.length
  /-- Every node is in the place of its new number, with all proofs that it names renamed. -/
  nodes : ∀ {old : Nat} {node : KeyedProof}, collector.nodes[old]? = some node →
    ∃ id owners renamed,
    out.observedToCanonical[old]? = some id ∧ out.nodes[id.index]? = some renamed ∧
    renamed.key = node.key ∧ (∀ owner, owner ∈ owners ↔ owner ∈ node.kind.owners) ∧
    remapNodeReferences (remapped out.observedToCanonical) (node.kind.withOwners owners) =
      .ok renamed.kind
  /-- The relations are those that were reported, renamed. -/
  relations : ∀ relation, relation.kind ≠ .projectionOwner → (relation ∈ out.relations ↔
    ∃ reported ∈ collector.relations,
      remapRelation (remapped out.observedToCanonical) reported = .ok relation)
  /-- The owners of a projection are sorted by key without repetition, and are all that were
  reported. -/
  owners_sorted : ∀ node ∈ out.nodes,
    node.kind.owners.Pairwise fun a b => keyAt out.nodes a < keyAt out.nodes b
  owners : ∀ node ∈ out.nodes, ∀ owner,
    owner ∈ node.kind.owners.map (nameOf (out.nodes.map KeyedProof.key)) ↔
      ∃ call ∈ calls, call.Owns node.key owner
  /-- The relations of a projection to its owners count them. -/
  ownerRelations : ∀ relation, relation.kind = .projectionOwner → (relation ∈ out.relations ↔
    ∃ node ∈ out.nodes, ∃ owner, node.kind.owners[relation.ordinal]? = some owner ∧
      relation.fromProof = node.id ∧ relation.target = .proof owner)
  /-- No slot is filled twice. -/
  slots : ∀ a ∈ out.relations, ∀ b ∈ out.relations, a.slot = b.slot → a = b

namespace Finished

variable {out : CollectedSelectionProofs}

section

variable (h : Finished collector out)
include h

theorem remapped_of_lt {id : ProofId} (hid : id.index < collector.nodes.length) :
    remapped out.observedToCanonical id = .ok (newNumber out.observedToCanonical id) :=
  remapped_eq (h.remap_length ▸ hid)

theorem mem_remap_iff {id : ProofId} :
    id ∈ out.observedToCanonical ↔ id.index < collector.nodes.length := by
  constructor
  · intro hid
    obtain ⟨old, hold⟩ := mem_iff_getElem?.mp hid
    have hlt := (List.getElem?_eq_some_iff.mp hold).1
    have hnew := @newNumber_lt _ _ h ⟨old⟩ (h.remap_length ▸ hlt)
    rw [newNumber, hold, h.length] at hnew
    exact hnew
  · intro hlt
    obtain ⟨old, -, hremap⟩ := h.origin (getElem?_eq_getElem (h.length.symm ▸ hlt))
    exact mem_of_getElem? hremap

variable (hvalid : collector.Valid)
include hvalid

theorem newNumber_injective {a b : ProofId} (ha : a.index < collector.nodes.length)
    (hb : b.index < collector.nodes.length)
    (hab : newNumber out.observedToCanonical a = newNumber out.observedToCanonical b) : a = b := by
  have hname : nameOf collector.keys a = nameOf collector.keys b := by
    rw [← h.nameOf_newNumber ha, hab, h.nameOf_newNumber hb]
  exact nameOf_injective hvalid.nodup (by rwa [length_map]) (by rwa [length_map]) hname

theorem remapRelation_of_mem {reported : SolverRelation ProofId}
    (hreported : collector.Related reported) :
    remapRelation (remapped out.observedToCanonical) reported =
      .ok (reported.map (newNumber out.observedToCanonical)) :=
  remapRelation_eq fun id hid => h.remapped_of_lt (hvalid.references_related hreported id hid)

theorem nodup_remap : out.observedToCanonical.Nodup := by
  rw [nodup_iff_getElem?_ne_getElem?]
  intro i j hij hj heq
  rw [h.remap_length] at hj
  have hi := hij.trans hj
  have hnumber : newNumber out.observedToCanonical ⟨i⟩ = newNumber out.observedToCanonical ⟨j⟩ := by
    rw [newNumber, newNumber, heq]
  exact hij.ne (congrArg ProofId.index (h.newNumber_injective hvalid hi hj hnumber))

/-- Relations to owners come only from `finish`. -/
theorem mem_relations_iff
    (hreported : ∀ relation ∈ collector.relations, relation.kind ≠ .projectionOwner)
    {relation : SolverRelation ProofId} (hkind : relation.kind = .projectionOwner) :
    relation ∈ out.relations ↔ ∃ node ∈ out.nodes, relation ∈ ownerRelations node := by
  rw [h.relations]
  constructor
  · rintro ⟨reported, hmem | ⟨old, hold, hmem⟩, rfl⟩
    · exact absurd hkind (hreported reported hmem)
    · refine ⟨_, h.exists_new hvalid hold, ?_⟩
      rw [ownerRelations_eq]
      exact mem_map_of_mem hmem
  · rintro ⟨node, hnode, hmem⟩
    obtain ⟨old, hold, rfl⟩ := h.exists_old hvalid hnode
    rw [ownerRelations_eq] at hmem
    obtain ⟨reported, hold', rfl⟩ := mem_map.mp hmem
    exact ⟨reported, .inr ⟨old, hold, hold'⟩, rfl⟩

theorem canonical (hrecords : collector.Records calls)
    (hconflict : collector.conflictingRelation = false)
    (howner : ∀ relation, .insertRelation relation ∈ calls → relation.kind ≠ .projectionOwner) :
    Canonical collector calls out := by
  have hinventory := h.inventory hvalid hrecords
  have hreported : ∀ relation ∈ collector.relations, relation.kind ≠ .projectionOwner :=
    fun relation hrelation => howner _ ((hrecords.relations _).mpr ⟨relation, hrelation, rfl⟩)
  have hownerRelations : ∀ relation, relation.kind = .projectionOwner → (relation ∈ out.relations ↔
      ∃ node ∈ out.nodes, ∃ owner, node.kind.owners[relation.ordinal]? = some owner ∧
        relation.fromProof = node.id ∧ relation.target = .proof owner) := by
    intro relation hkind
    rw [h.mem_relations_iff hvalid hreported hkind]
    refine exists_congr fun node => and_congr_right fun _ => mem_ownerRelations.trans ?_
    constructor
    · rintro ⟨owner, index, howner, rfl⟩
      exact ⟨owner, howner, rfl, rfl⟩
    · rintro ⟨owner, howner, hfrom, htarget⟩
      refine ⟨owner, relation.ordinal, howner, ?_⟩
      obtain ⟨fromProof, target, kind, ordinal⟩ := relation
      cases hkind
      cases hfrom
      cases htarget
      rfl
  constructor
  case numbered => exact hinventory.numbered
  case ascending => exact hinventory.ascending
  case length => exact h.remap_length
  case nodup => exact h.nodup_remap hvalid
  case mem_remap => exact fun id => h.mem_remap_iff
  case nodes =>
    intro old node hnode
    obtain ⟨new, hremap, hnew⟩ := h.nodes hnode
    have hmember := mem_of_getElem? hnode
    have hids : ∀ id ∈ node.kind.owners, id.index < collector.nodes.length := fun id hid => by
      have hlt := hvalid.references node hmember id (ProofNodeKind.mem_ids.mpr (.inl hid))
      rwa [SelectionCollector.keys, length_map] at hlt
    refine ⟨⟨new⟩, canonicalOwners collector.nodes node.kind.owners, _, hremap, hnew, rfl,
      (canonicalOwners_spec hvalid.nodup hids).2, ?_⟩
    exact remapNodeReferences_eq fun id hid =>
      h.remapped_of_lt (hvalid.references_canonicalNode hmember id hid)
  case relations =>
    intro relation hkind
    rw [h.relations]
    constructor
    · rintro ⟨reported, hrelated, rfl⟩
      refine ⟨reported, hrelated.resolve_right ?_, h.remapRelation_of_mem hvalid hrelated⟩
      rintro ⟨node, -, hmem⟩
      obtain ⟨owner, index, -, rfl⟩ := mem_ownerRelations.mp hmem
      exact hkind rfl
    · rintro ⟨reported, hmem, hrun⟩
      rw [h.remapRelation_of_mem hvalid (.inl hmem)] at hrun
      exact ⟨reported, .inl hmem, Except.ok.inj hrun⟩
  case owners_sorted =>
    intro node hnode
    refine (hinventory.ownersAscending node hnode).imp_of_mem fun {a b} ha hb hab => ?_
    have hlta := hinventory.references_owners hnode a ha
    have hltb := hinventory.references_owners hnode b hb
    rw [keyAt_of_lt hlta, keyAt_of_lt hltb, WithBot.coe_lt_coe]
    exact hinventory.nameOf_lt hlta hltb hab
  case owners =>
    intro node hnode owner
    rw [← ProofNodeKind.owners_map, ← ownedBy_of_mem hinventory.nodup_keys hnode, hinventory.owners]
  case ownerRelations => exact hownerRelations
  case slots =>
    intro a ha b hb hslot
    obtain ⟨hfrom, hrest⟩ := Prod.mk.inj (toLex.injective hslot)
    obtain ⟨hkind, hordinal⟩ := Prod.mk.inj (toLex.injective hrest)
    refine SolverRelation.eq_of_slot hslot ?_
    by_cases howned : a.kind = .projectionOwner
    · obtain ⟨node, hnode, owner, howner, hnodeId, htarget⟩ := (hownerRelations a howned).mp ha
      obtain ⟨node', hnode', owner', howner', hnodeId', htarget'⟩ :=
        (hownerRelations b (hkind ▸ howned)).mp hb
      obtain ⟨i, hi⟩ := mem_iff_getElem?.mp hnode
      obtain ⟨j, hj⟩ := mem_iff_getElem?.mp hnode'
      have hsame : node.id = node'.id := by rw [← hnodeId, ← hnodeId', hfrom]
      rw [hinventory.numbered hi, hinventory.numbered hj] at hsame
      cases hsame
      cases Option.some.inj (hi.symm.trans hj)
      rw [hordinal, howner'] at howner
      rw [htarget, htarget', Option.some.inj howner]
    · obtain ⟨reported, hmem, rfl⟩ := (h.relations a).mp ha
      obtain ⟨reported', hmem', rfl⟩ := (h.relations b).mp hb
      have hold : ∀ {relation}, collector.Related relation → relation.kind ≠ .projectionOwner →
          relation ∈ collector.relations := fun hrelated hne => hrelated.resolve_right (by
        rintro ⟨node, -, hmem⟩
        obtain ⟨owner, index, -, rfl⟩ := mem_ownerRelations.mp hmem
        exact hne rfl)
      have hreferences := hvalid.references_related hmem _ (SolverRelation.mem_ids.mpr (.inl rfl))
      have hreferences' := hvalid.references_related hmem' _ (SolverRelation.mem_ids.mpr (.inl rfl))
      have hslots : reported.slot = reported'.slot :=
        congrArg toLex
          (Prod.ext (h.newNumber_injective hvalid hreferences hreferences' hfrom) hrest)
      have hget := (hvalid.slots hconflict).mpr ⟨reported, hold hmem howned, hslots, rfl⟩
      have hget' := (hvalid.slots hconflict).mpr
        ⟨reported', hold hmem' fun heq => howned (hkind.trans heq), rfl, rfl⟩
      exact congrArg (SolverRelationTarget.map _) (Option.some.inj (hget.symm.trans hget'))

end

end Finished

/-- A finished run comes from what was reported in the way that is described above. -/
theorem canonical_of_finish {calls : List (SelectionCall ProofId)}
    {keyed : List (SelectionCall ProofKey)} (hkeyed : writeKeys [] calls = .ok keyed)
    (howner : ∀ relation, .insertRelation relation ∈ keyed → relation.kind ≠ .projectionOwner)
    {out : CollectedSelectionProofs} (hrun : collect calls = .ok collector)
    (hfinish : collector.finish = .ok out) : Canonical collector keyed out := by
  rcases collect_cases valid_new records_new hkeyed with
    ⟨final, hfinal, hvalid, hrecords⟩ | ⟨hfinal, -⟩ | ⟨hfinal, -⟩
  · obtain rfl : final = collector := Except.ok.inj (hfinal.symm.trans hrun)
    have hconflict : final.conflictingRelation = false := by
      cases hflag : final.conflictingRelation with
      | true =>
        rw [finish, hflag] at hfinish
        cases hfinish
      | false => rfl
    obtain ⟨out', hfinish', hfinished⟩ := exists_finish hvalid hconflict
    obtain rfl : out' = out := Except.ok.inj (hfinish'.symm.trans hfinish)
    exact hfinished.canonical hvalid hrecords hconflict howner
  · cases hfinal.symm.trans hrun
  · cases hfinal.symm.trans hrun

theorem mergeNode_of_conflict {existing incoming : KeyedProof}
    (h : (mergeNode existing incoming).2 = false) : (mergeNode existing incoming).1 = existing := by
  unfold mergeNode at h ⊢
  split
  case isTrue => rfl
  case isFalse hkey =>
    rw [if_neg hkey] at h
    rcases mergeKind_cases existing.kind incoming.kind with ⟨hagree, -⟩ | ⟨hconflict, -⟩
    · cases hagree.symm.trans h
    · rw [hconflict]

theorem consistent_congr {a b : List (SelectionCall ProofKey)} (h : ∀ call, call ∈ a ↔ call ∈ b) :
    Consistent a ↔ Consistent b := by
  simp only [Consistent, h]

theorem reportedKeys_congr {a b : List (SelectionCall ProofKey)} (h : ∀ call, call ∈ a ↔ call ∈ b) :
    reportedKeys a = reportedKeys b := by
  ext key
  simp only [mem_reportedKeys, h]

/-- Two runs whose calls are, written with keys, permutations of each other both fail or end with
the same proofs and relations, unless there are more proofs than numbers. -/
theorem inventory_order_independent {calls calls' : List (SelectionCall ProofId)}
    {keyed keyed' : List (SelectionCall ProofKey)} (hkeyed : writeKeys [] calls = .ok keyed)
    (hkeyed' : writeKeys [] calls' = .ok keyed') (hperm : keyed.Perm keyed')
    (howner : ∀ relation, .insertRelation relation ∈ keyed → relation.kind ≠ .projectionOwner) :
    ((reportedKeys keyed).card ≤ u32Size →
      (inventory calls = .error .conflictingProof ∧ inventory calls' = .error .conflictingProof) ∨
      ∃ out out', inventory calls = .ok out ∧ inventory calls' = .ok out' ∧
        out.nodes = out'.nodes ∧ out.relations = out'.relations) ∧
    (u32Size < (reportedKeys keyed).card →
      (inventory calls = .error .conflictingProof ∨ inventory calls = .error .tooManyProofs) ∧
      (inventory calls' = .error .conflictingProof ∨ inventory calls' = .error .tooManyProofs)) ∧
    (∀ collector out, collect calls = .ok collector → collector.finish = .ok out →
      Canonical collector keyed out) ∧
    ∀ existing incoming : KeyedProof, (mergeNode existing incoming).2 = false →
      (mergeNode existing incoming).1 = existing := by
  have hmem : ∀ call, call ∈ keyed ↔ call ∈ keyed' := fun call => hperm.mem_iff
  have hconsistent := consistent_congr hmem
  have hcases := inventory_cases hkeyed
  have hcases' := inventory_cases hkeyed'
  rw [← reportedKeys_congr hmem, ← hconsistent] at hcases'
  refine
    ⟨fun hfew => ?_, fun hmany => ⟨?_, ?_⟩, fun collector out => canonical_of_finish hkeyed howner,
    fun existing incoming => mergeNode_of_conflict⟩
  · rcases hcases with ⟨out, hrun, hout, hgood, -⟩ | ⟨hrun, hbad⟩ | ⟨-, hmany⟩
    · rcases hcases' with ⟨out', hrun', hout', -, -⟩ | ⟨-, hbad⟩ | ⟨-, hmany⟩
      · exact .inr ⟨out, out', hrun, hrun', hout.nodes_eq hout' hmem, hout.relations_eq hout' hmem⟩
      · exact absurd hgood hbad
      · exact absurd hfew hmany.not_ge
    · rcases hcases' with ⟨-, -, -, hgood, -⟩ | ⟨hrun', -⟩ | ⟨-, hmany⟩
      · exact absurd hgood hbad
      · exact .inl ⟨hrun, hrun'⟩
      · exact absurd hfew hmany.not_ge
    · exact absurd hfew hmany.not_ge
  · rcases hcases with ⟨-, -, -, -, hfew⟩ | ⟨hrun, -⟩ | ⟨hrun, -⟩
    · exact absurd hfew hmany.not_ge
    · exact .inl hrun
    · exact .inr hrun
  · rcases hcases' with ⟨-, -, -, -, hfew⟩ | ⟨hrun, -⟩ | ⟨hrun, -⟩
    · exact absurd hfew hmany.not_ge
    · exact .inl hrun
    · exact .inr hrun

section Examples

variable {ι : Type}

/-- An obligation of which nothing else is known. -/
def plainKey (n : Nat) : ProofKey := .obligation ⟨n % u32Size, []⟩ ⟨n / u32Size, []⟩

def plainIntern (n : Nat) : SelectionCall ι :=
  .internNode (plainKey n) (.obligation ⟨n % u32Size, []⟩ ⟨n / u32Size, []⟩ none none none none)

/-- A projection that was requested by one proof. -/
def ownedIntern (owner : ι) : SelectionCall ι :=
  .internNode (.projection ⟨0, []⟩ ⟨1, []⟩)
    (.projection ⟨0, []⟩ ⟨1, []⟩ .object ⟨2, []⟩ (.noProgress ⟨3, []⟩) none none none [owner] []
      none none)

end Examples

/-- Two owners of a projection are reported in both orders. -/
theorem inventory_order_independent_owners : ∃ out out',
    inventory [plainIntern 1, plainIntern 2, ownedIntern ⟨1⟩, ownedIntern ⟨0⟩] = .ok out ∧
    inventory [plainIntern 2, ownedIntern ⟨0⟩, plainIntern 1, ownedIntern ⟨2⟩] = .ok out' ∧
    out.nodes = out'.nodes ∧ out.relations = out'.relations := by
  have hkeyed : writeKeys [] [plainIntern 1, plainIntern 2, ownedIntern ⟨1⟩, ownedIntern ⟨0⟩] =
      .ok [plainIntern 1, plainIntern 2, ownedIntern (plainKey 2), ownedIntern (plainKey 1)] := by
    rfl
  have hkeyed' : writeKeys [] [plainIntern 2, ownedIntern ⟨0⟩, plainIntern 1, ownedIntern ⟨2⟩] =
      .ok [plainIntern 2, ownedIntern (plainKey 2), plainIntern 1, ownedIntern (plainKey 1)] := by
    rfl
  have hperm :
      [plainIntern 1, plainIntern 2, ownedIntern (plainKey 2), ownedIntern (plainKey 1)].Perm
      [plainIntern 2, ownedIntern (plainKey 2), plainIntern 1, ownedIntern (plainKey 1)] :=
    (List.Perm.swap _ _ _).trans ((List.Perm.swap _ _ _).cons _)
  have hrun :
      (inventory [plainIntern 1, plainIntern 2, ownedIntern ⟨1⟩, ownedIntern ⟨0⟩]).isOk = true := by
    decide +kernel
  have hboth := (inventory_order_independent hkeyed hkeyed' hperm (by
    intro relation hrelation
    simp [plainIntern, ownedIntern] at hrelation)).1 ?_
  · refine hboth.resolve_left fun h => ?_
    rw [h.1] at hrun
    cases hrun
  · refine (toFinset_card_le _).trans ?_
    decide +kernel

theorem writeKeys_plainIntern (l : List Nat) (keys : List ProofKey) :
    writeKeys keys (l.map plainIntern) = .ok (l.map plainIntern) := by
  induction l generalizing keys with
  | nil => rfl
  | cons n l ih =>
    show (writeKeys _ (l.map plainIntern) >>= fun calls => Except.ok (_ :: calls)) = _
    rw [ih]
    rfl

theorem plainKey_injective : Function.Injective plainKey := by
  intro m n hmn
  obtain ⟨hlow, hhigh⟩ := ProofKey.obligation.inj hmn
  rw [← Nat.div_add_mod m u32Size, ← Nat.div_add_mod n u32Size,
    (CanonicalCompilerTerm.mk.inj hlow).1, (CanonicalCompilerTerm.mk.inj hhigh).1]

theorem card_plainIntern {l : List Nat} (hnodup : l.Nodup) :
    (reportedKeys (l.map plainIntern)).card = l.length := by
  have hreported : (l.map plainIntern).filterMap SelectionCall.reported = l.map plainKey := by
    rw [filterMap_map]
    exact congrFun filterMap_eq_map' l
  rw [reportedKeys, hreported, toFinset_card_of_nodup (hnodup.map plainKey_injective), length_map]

/-- Different proofs do not contradict each other. -/
theorem consistent_plainIntern (l : List Nat) : Consistent (l.map plainIntern) := by
  intro a ha b hb hconflict
  obtain ⟨m, -, rfl⟩ := mem_map.mp ha
  obtain ⟨n, -, rfl⟩ := mem_map.mp hb
  rcases hconflict with ⟨site, v, w, hv, hw, hne⟩ | ⟨slot, v, w, hv, -, -⟩
  · rw [plainIntern, SelectionCall.facts] at hv hw
    split at hv
    case isTrue hm =>
      split at hw
      case isTrue hn =>
        cases plainKey_injective (hm.symm.trans hn)
        exact hne (Option.some.inj (hv.symm.trans hw))
      case isFalse => cases hw
    case isFalse => cases hv
  · cases hv

theorem inventory_plainIntern {l : List Nat} (hnodup : l.Nodup) (hmany : u32Size < l.length) :
    inventory (l.map plainIntern) = .error .tooManyProofs := by
  rcases inventory_cases (writeKeys_plainIntern l []) with
    ⟨-, -, -, -, hfew⟩ | ⟨-, hbad⟩ | ⟨hrun, -⟩
  · rw [card_plainIntern hnodup] at hfew
    exact absurd hfew hmany.not_ge
  · exact absurd (consistent_plainIntern l) hbad
  · exact hrun

/-- With more proofs than there are numbers, a run neither returns nor reports a conflict. -/
theorem inventory_above_u32 :
    writeKeys [] ((List.range (u32Size + 1)).map plainIntern) =
      .ok ((List.range (u32Size + 1)).map plainIntern) ∧
    inventory ((List.range (u32Size + 1)).map plainIntern) = .error .tooManyProofs := by
  refine ⟨writeKeys_plainIntern _ _, inventory_plainIntern nodup_range ?_⟩
  rw [length_range]
  exact Nat.lt_succ_self _

end SelectionCollector

end ItemDependencies
