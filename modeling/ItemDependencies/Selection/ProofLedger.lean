import ItemDependencies.Library.Grouping
import ItemDependencies.Selection.SelectionCollector

/-!
# What the collector knows

Written with keys instead of numbers, what the collector holds after any run is what was reported:
the observations put together, all owners, and the relations.
-/

namespace ItemDependencies

open Library List

variable {ι κ : Type} {key : ProofKey} {relation : SolverRelation ι} {id : ProofId}

/-! ## Names -/

/-- The key of a number that was returned; numbers that were not have an arbitrary name. -/
def nameOf (keys : List ProofKey) (id : ProofId) : ProofKey :=
  keys[id.index]?.getD (.cycle [] false)

def numberOf (keys : List ProofKey) (key : ProofKey) : ProofId := ⟨keys.idxOf key⟩

section Names

variable {keys : List ProofKey} {key : ProofKey} {id : ProofId}

theorem getElem?_nameOf (h : id.index < keys.length) : keys[id.index]? = some (nameOf keys id) := by
  rw [nameOf, getElem?_eq_getElem h]
  rfl

theorem nameOf_append (h : id.index < keys.length) (more : List ProofKey) :
    nameOf (keys ++ more) id = nameOf keys id := by
  rw [nameOf, getElem?_append_left h]
  rfl

theorem numberOf_nameOf (hnodup : keys.Nodup) (h : id.index < keys.length) :
    numberOf keys (nameOf keys id) = id := by
  have hname : nameOf keys id = keys[id.index] := by
    rw [nameOf, getElem?_eq_getElem h]
    rfl
  rw [numberOf, hname, hnodup.idxOf_getElem]

theorem nameOf_injective (hnodup : keys.Nodup) {a b : ProofId} (ha : a.index < keys.length)
    (hb : b.index < keys.length) (h : nameOf keys a = nameOf keys b) : a = b := by
  rw [← numberOf_nameOf hnodup ha, h, numberOf_nameOf hnodup hb]

end Names

namespace SolverRelation

variable {relation : SolverRelation ι}

theorem mem_ids {id : ι} :
    id ∈ relation.ids ↔ id = relation.fromProof ∨ relation.target = .proof id := by
  rw [ids, mem_cons]
  cases relation.target <;> simp [eq_comm]

theorem ids_map (f : ι → κ) : (relation.map f).ids = relation.ids.map f := by
  rw [ids, ids, map_cons, map]
  cases relation.target <;> rfl

theorem map_congr {f g : ι → κ} (h : ∀ id ∈ relation.ids, f id = g id) :
    relation.map f = relation.map g := by
  have hfrom := h relation.fromProof (mem_ids.mpr (.inl rfl))
  have htarget : relation.target.map f = relation.target.map g := by
    cases hcase : relation.target with
    | proof id => exact congrArg _ (h id (mem_ids.mpr (.inr hcase)))
    | definition target => rfl
  rw [map, map, hfrom, htarget]

theorem map_map {μ : Type} (f : ι → κ) (g : κ → μ) :
    (relation.map f).map g = relation.map fun id => g (f id) := by
  cases htarget : relation.target <;> simp [map, SolverRelationTarget.map, htarget]

theorem map_self (relation : SolverRelation ι) : (relation.map fun id => id) = relation := by
  obtain ⟨fromProof, target, kind, ordinal⟩ := relation
  cases target <;> rfl

theorem map_map_eq_self {f : ι → κ} {g : κ → ι} (h : ∀ id ∈ relation.ids, g (f id) = id) :
    (relation.map f).map g = relation := by
  rw [map_map, map_congr h, map_self]

end SolverRelation

theorem remapRelation_eq {ε : Type} {rename : ι → Except ε κ} {f : ι → κ}
    (h : ∀ id ∈ relation.ids, rename id = .ok (f id)) :
    remapRelation rename relation = .ok (relation.map f) := by
  have hfrom := h relation.fromProof (SolverRelation.mem_ids.mpr (.inl rfl))
  rw [remapRelation, hfrom, SolverRelation.map]
  dsimp only [bind, Except.bind]
  cases hcase : relation.target with
  | proof id =>
    dsimp only
    rw [h id (SolverRelation.mem_ids.mpr (.inr hcase))]
    rfl
  | definition target => rfl

theorem remapped_eq_ok {names : List κ} {name : κ} :
    remapped names id = .ok name ↔ names[id.index]? = some name := by
  rw [remapped]
  split <;> simp_all

theorem lt_of_remapped {names : List κ} (h : ∃ name, remapped names id = .ok name) :
    id.index < names.length := by
  obtain ⟨name, hname⟩ := h
  exact (List.getElem?_eq_some_iff.mp (remapped_eq_ok.mp hname)).1

theorem nameOf_of_remapped {keys : List ProofKey} (h : remapped keys id = .ok key) :
    nameOf keys id = key := by
  rw [nameOf, remapped_eq_ok.mp h]
  rfl

theorem forall_of_remapRelation {ε : Type} {rename : ι → Except ε κ} {relation' : SolverRelation κ}
    (h : remapRelation rename relation = .ok relation') :
    ∀ id ∈ relation.ids, ∃ name, rename id = .ok name := by
  obtain ⟨name, hname, h⟩ := bind_ok h
  rw [SolverRelation.ids, forall_mem_cons]
  refine ⟨⟨name, hname⟩, ?_⟩
  cases htarget : relation.target with
  | proof id =>
    rw [htarget] at h
    obtain ⟨name', hname', -⟩ := bind_ok h
    exact forall_mem_singleton.mpr ⟨name', hname'⟩
  | definition target => exact fun id hid => absurd hid not_mem_nil

theorem eq_map_of_remapRelation {ε : Type} {rename : ι → Except ε κ} {f : ι → κ}
    {relation' : SolverRelation κ} (h : remapRelation rename relation = .ok relation')
    (hf : ∀ id name, rename id = .ok name → f id = name) : relation' = relation.map f := by
  have hall : ∀ id ∈ relation.ids, rename id = .ok (f id) := fun id hid => by
    obtain ⟨name, hname⟩ := forall_of_remapRelation h id hid
    rw [hname, hf id name hname]
  rw [remapRelation_eq hall] at h
  exact (Except.ok.inj h).symm

/-! ## Calls -/

/-- A call to the collector.  Callers leave the number of a node to the collector. -/
inductive SelectionCall (ι : Type) where
  | internNode (key : ProofKey) (kind : ProofNodeKind ι)
  | insertRelation (relation : SolverRelation ι)

namespace SelectionCollector

def perform (collector : SelectionCollector) :
    SelectionCall ProofId → Except SelectionCollectionError SelectionCollector
  | .internNode key kind => do
    let (collector, _) ← collector.internNode { id := ⟨0⟩, key, kind }
    return collector
  | .insertRelation relation => return collector.insertRelation relation

def collect (calls : List (SelectionCall ProofId)) :
    Except SelectionCollectionError SelectionCollector :=
  calls.foldlM perform new

/-- All calls and then `finish`. -/
def inventory (calls : List (SelectionCall ProofId)) :
    Except SelectionCollectionError CollectedSelectionProofs := do
  let collector ← collect calls
  collector.finish

end SelectionCollector

/-- The calls with proof keys written for numbers, if they use only numbers that were returned
before. `keys` has the key of each number that was returned. -/
def writeKeys (keys : List ProofKey) : List (SelectionCall ProofId) →
    Except SelectionCollectionError (List (SelectionCall ProofKey))
  | [] => .ok []
  | .internNode key kind :: calls => do
    let kind ← remapNodeReferences (remapped keys) kind
    let calls ← writeKeys (if key ∈ keys then keys else keys ++ [key]) calls
    return .internNode key kind :: calls
  | .insertRelation relation :: calls => do
    let relation ← remapRelation (remapped keys) relation
    let calls ← writeKeys keys calls
    return .insertRelation relation :: calls

namespace SelectionCall

/-- What a call says about the parts of proofs. -/
def facts : SelectionCall ProofKey → ProofKey × ProofPart → Option (ProofObservation ProofKey)
  | internNode key kind, site => if site.1 = key then kind.observe site.2 else none
  | insertRelation _, _ => none

/-- What a call says about the owners of projections. -/
def Owns (key owner : ProofKey) : SelectionCall ProofKey → Prop
  | internNode key' kind => key' = key ∧ owner ∈ kind.owners
  | insertRelation _ => False

/-- What a call says about the slots of relations. -/
def slots : SelectionCall ProofKey → RelationSlot ProofKey → Option (SolverRelationTarget ProofKey)
  | internNode _ _, _ => none
  | insertRelation relation, slot => if slot = relation.slot then some relation.target else none

/-- The proof that a call reports. -/
def reported : SelectionCall ProofKey → Option ProofKey
  | internNode key _ => some key
  | insertRelation _ => none

/-- Two calls that contradict each other. -/
def Conflicts (a b : SelectionCall ProofKey) : Prop :=
  Clashes a.facts b.facts ∨ Clashes a.slots b.slots

end SelectionCall

/-! ## What nodes say -/

section Facts

variable (nodes : List KeyedProof)

/-- What is known of the parts of proofs. -/
def knownFacts (site : ProofKey × ProofPart) : Option (ProofObservation ProofKey) :=
  (nodes.find? fun node => node.key = site.1).bind fun node =>
    (node.kind.map (nameOf (nodes.map KeyedProof.key))).observe site.2

def OwnedBy (key owner : ProofKey) : Prop :=
  ∃ node ∈ nodes, node.key = key ∧
    owner ∈ (node.kind.map (nameOf (nodes.map KeyedProof.key))).owners

variable {nodes}

theorem knownFacts_eq_some (hnodup : (nodes.map KeyedProof.key).Nodup) {site : ProofKey × ProofPart}
    {seen : ProofObservation ProofKey} : knownFacts nodes site = some seen ↔ ∃ node ∈ nodes,
      node.key = site.1 ∧
        (node.kind.map (nameOf (nodes.map KeyedProof.key))).observe site.2 = some seen := by
  rw [knownFacts, Option.bind_eq_some_iff]
  constructor
  · rintro ⟨node, hfind, hseen⟩
    exact ⟨node, mem_of_find?_eq_some hfind, by simpa using find?_some hfind, hseen⟩
  · rintro ⟨node, hnode, hkey, hseen⟩
    refine ⟨node, ?_, hseen⟩
    cases hfind : nodes.find? fun node => node.key = site.1 with
    | none =>
      have := find?_eq_none.mp hfind node hnode
      simp [hkey] at this
    | some other =>
      have hother : other.key = site.1 := by simpa using find?_some hfind
      rw [inj_on_of_nodup_map hnodup (mem_of_find?_eq_some hfind) hnode (hother.trans hkey.symm)]

theorem knownFacts_of_mem (hnodup : (nodes.map KeyedProof.key).Nodup) {node : KeyedProof}
    (hnode : node ∈ nodes) (part : ProofPart) : knownFacts nodes (node.key, part) =
      (node.kind.map (nameOf (nodes.map KeyedProof.key))).observe part := by
  apply Option.ext
  intro seen
  rw [knownFacts_eq_some hnodup]
  constructor
  · rintro ⟨other, hother, hkey, hseen⟩
    rwa [inj_on_of_nodup_map hnodup hother hnode hkey] at hseen
  · exact fun hseen => ⟨node, hnode, rfl, hseen⟩

theorem ownedBy_of_mem (hnodup : (nodes.map KeyedProof.key).Nodup) {node : KeyedProof}
    (hnode : node ∈ nodes) {owner : ProofKey} : OwnedBy nodes node.key owner ↔
      owner ∈ (node.kind.map (nameOf (nodes.map KeyedProof.key))).owners := by
  constructor
  · rintro ⟨other, hother, hkey, howner⟩
    rwa [inj_on_of_nodup_map hnodup hother hnode hkey] at howner
  · exact fun howner => ⟨node, hnode, rfl, howner⟩

theorem exists_facts_required {call : SelectionCall ProofKey} :
    (∃ seen, call.facts (key, .required) = some seen) ↔ call.reported = some key := by
  cases call with
  | internNode other kind =>
    simp [SelectionCall.facts, SelectionCall.reported, ProofNodeKind.observe, eq_comm]
  | insertRelation relation => simp [SelectionCall.facts, SelectionCall.reported]

/-- The proofs that are known are those that were reported. -/
theorem mem_keys_iff_reported (hnodup : (nodes.map KeyedProof.key).Nodup)
    {calls : List (SelectionCall ProofKey)}
    (hfacts : Gathers (calls.map SelectionCall.facts) (knownFacts nodes)) :
    key ∈ nodes.map KeyedProof.key ↔ ∃ call ∈ calls, call.reported = some key := by
  have hrequired : (∃ seen, knownFacts nodes (key, .required) = some seen) ↔
      key ∈ nodes.map KeyedProof.key := by
    simp only [knownFacts_eq_some hnodup, mem_map]
    constructor
    · rintro ⟨seen, node, hnode, hkey, -⟩
      exact ⟨node, hnode, hkey⟩
    · rintro ⟨node, hnode, hkey⟩
      exact ⟨_, node, hnode, hkey, rfl⟩
  rw [← hrequired]
  simp only [hfacts _ _, mem_map, ← exists_facts_required]
  constructor
  · rintro ⟨seen, -, ⟨call, hcall, rfl⟩, hseen⟩
    exact ⟨call, hcall, seen, hseen⟩
  · rintro ⟨call, hcall, seen, hseen⟩
    exact ⟨seen, _, ⟨call, hcall, rfl⟩, hseen⟩

end Facts

/-! ## The invariant -/

namespace SelectionCollector

variable (collector : SelectionCollector)

abbrev keys : List ProofKey := collector.nodes.map KeyedProof.key

/-- What holds of the collector after any calls. -/
structure Valid : Prop where
  numbered : ∀ {i : Nat} {node : KeyedProof}, collector.nodes[i]? = some node → node.id = ⟨i⟩
  nodup : collector.keys.Nodup
  size : collector.keys.length ≤ u32Size
  lookup : ∀ {key id}, collector.ids.get key = some id ↔ collector.keys[id.index]? = some key
  references : ∀ node ∈ collector.nodes, ∀ id ∈ node.kind.ids, id.index < collector.keys.length
  relationReferences : ∀ relation ∈ collector.relations, ∀ id ∈ relation.ids,
    id.index < collector.keys.length
  slots : collector.conflictingRelation = false → ∀ {slot target},
    collector.relationSlots.get slot = some target ↔
      ∃ relation ∈ collector.relations, relation.slot = slot ∧ relation.target = target
  conflict : collector.conflictingRelation = true → ∃ a ∈ collector.relations,
    ∃ b ∈ collector.relations, a.slot = b.slot ∧ a.target ≠ b.target

/-- The collector knows what the calls have said. -/
structure Records (calls : List (SelectionCall ProofKey)) : Prop where
  facts : Gathers (calls.map SelectionCall.facts) (knownFacts collector.nodes)
  owners : ∀ key owner, OwnedBy collector.nodes key owner ↔ ∃ call ∈ calls, call.Owns key owner
  relations : ∀ relation, .insertRelation relation ∈ calls ↔
    ∃ reported ∈ collector.relations, reported.map (nameOf collector.keys) = relation

variable {collector} {calls : List (SelectionCall ProofKey)}

theorem valid_new : Valid new where
  numbered h := by cases h
  nodup := .nil
  size := Nat.zero_le _
  lookup := by simp [new]
  references node hnode := absurd hnode not_mem_nil
  relationReferences relation hrelation := absurd hrelation (Finset.notMem_empty _)
  slots _ := by simp [new]
  conflict h := by cases h

theorem records_new : Records new [] where
  facts := .nil
  owners key owner := by simp [OwnedBy, new]
  relations relation := by simp [new]

/-! ## One call -/

theorem Valid.nodes_key (h : collector.Valid) (hget : collector.ids.get key = some id) :
    ∃ node, collector.nodes[id.index]? = some node ∧ node.key = key := by
  have hkey := h.lookup.mp hget
  rw [getElem?_map] at hkey
  exact Option.map_eq_some_iff.mp hkey

theorem Valid.get_eq_none (h : collector.Valid) :
    collector.ids.get key = none ↔ key ∉ collector.keys := by
  rw [mem_iff_getElem?, Option.eq_none_iff_forall_ne_some]
  constructor
  · rintro hnone ⟨i, hi⟩
    exact hnone ⟨i⟩ (h.lookup.mpr hi)
  · exact fun hnot id hid => hnot ⟨id.index, h.lookup.mp hid⟩

theorem exists_owns_concat {call : SelectionCall ProofKey} {key owner : ProofKey} :
    (∃ other ∈ calls ++ [call], other.Owns key owner) ↔
      (∃ other ∈ calls, other.Owns key owner) ∨ call.Owns key owner := by
  simp [or_and_right, exists_or]

section Relation

variable {relation : SolverRelation ProofId}

theorem Valid.insertRelation (h : collector.Valid)
    (hreferences : ∀ id ∈ relation.ids, id.index < collector.keys.length) :
    (collector.insertRelation relation).Valid where
  numbered := h.numbered
  nodup := h.nodup
  size := h.size
  lookup := h.lookup
  references := h.references
  relationReferences other hother := by
    rcases Finset.mem_insert.mp hother with rfl | hother
    · exact hreferences
    · exact h.relationReferences other hother
  slots hconflict slot target := by
    obtain ⟨hold, hsame⟩ := Bool.or_eq_false_iff.mp hconflict
    show (collector.relationSlots.insert relation.slot relation.target).get slot = some target ↔
      ∃ other ∈ insert relation collector.relations, _
    rw [SortedMap.get_insert, Finset.exists_mem_insert]
    split
    case isTrue hslot =>
      subst hslot
      constructor
      · rintro ⟨⟩
        exact .inl ⟨rfl, rfl⟩
      · rintro (⟨-, rfl⟩ | ⟨other, hother, hslot, rfl⟩)
        · rfl
        · have hget := (h.slots hold).mpr ⟨other, hother, hslot, rfl⟩
          rw [hget] at hsame
          exact congrArg some (by simpa using hsame : other.target = relation.target).symm
    case isFalse hslot =>
      rw [h.slots hold]
      exact ⟨.inr, fun hor => hor.resolve_left fun hleft => hslot hleft.1.symm⟩
  conflict hconflict := by
    cases hold : collector.conflictingRelation with
    | true =>
      obtain ⟨a, ha, b, hb, hab⟩ := h.conflict hold
      exact ⟨a, Finset.mem_insert_of_mem ha, b, Finset.mem_insert_of_mem hb, hab⟩
    | false =>
      have hany := (Bool.or_eq_true_iff.mp hconflict).resolve_left
        (by rw [hold]; exact Bool.false_ne_true)
      cases hget : collector.relationSlots.get relation.slot with
      | none =>
        rw [hget] at hany
        cases hany
      | some existing =>
        obtain ⟨other, hother, hslot, rfl⟩ := (h.slots hold).mp hget
        rw [hget] at hany
        exact ⟨other, Finset.mem_insert_of_mem hother, relation, Finset.mem_insert_self _ _, hslot,
          by simpa using hany⟩

theorem Records.insertRelation (h : collector.Records calls) :
    (collector.insertRelation relation).Records
      (calls ++ [.insertRelation (relation.map (nameOf collector.keys))]) where
  facts := by
    rw [map_append]
    exact h.facts.concat fun site => .none_right _
  owners key owner := by
    rw [exists_owns_concat]
    exact (h.owners key owner).trans (or_iff_left id).symm
  relations other := by
    show _ ↔ ∃ reported ∈ insert relation collector.relations, _
    rw [Finset.exists_mem_insert, mem_append, h.relations, mem_singleton,
      SelectionCall.insertRelation.injEq, or_comm, eq_comm]
    rfl

end Relation

section Merge

variable {existing : KeyedProof} {id : ProofId} {kind : ProofNodeKind ProofId}
  {nodes : List KeyedProof}

theorem index_unique (hnodup : (nodes.map KeyedProof.key).Nodup) {i j : Nat} {a b : KeyedProof}
    (ha : nodes[i]? = some a) (hb : nodes[j]? = some b) (hkey : a.key = b.key) : i = j := by
  have hlt : i < (nodes.map KeyedProof.key).length := by
    rw [length_map]
    exact (List.getElem?_eq_some_iff.mp ha).1
  refine (getElem?_inj hlt hnodup).mp ?_
  rw [getElem?_map, getElem?_map, ha, hb, Option.map_some, Option.map_some, hkey]

/-- What is in the list after a node was replaced by one with the same key. -/
theorem mem_set (hnodup : (nodes.map KeyedProof.key).Nodup) {i : Nat}
    (hexisting : nodes[i]? = some existing) {new node : KeyedProof} :
    node ∈ nodes.set i new ↔ node = new ∨ node ∈ nodes ∧ node.key ≠ existing.key := by
  have hlt := (List.getElem?_eq_some_iff.mp hexisting).1
  rw [mem_iff_getElem?]
  constructor
  · rintro ⟨j, hj⟩
    rw [getElem?_set] at hj
    split at hj
    case isTrue => exact .inl (Option.some.inj hj).symm
    case isFalse hne =>
      refine .inr ⟨mem_of_getElem? hj, fun hkey => hne ?_⟩
      exact index_unique hnodup hexisting hj hkey.symm
  · rintro (rfl | ⟨hnode, hkey⟩)
    · exact ⟨i, by rw [getElem?_set_self hlt]⟩
    · obtain ⟨j, hj⟩ := mem_iff_getElem?.mp hnode
      refine ⟨j, ?_⟩
      rw [getElem?_set_ne, hj]
      rintro rfl
      exact hkey (congrArg KeyedProof.key (Option.some.inj (hj.symm.trans hexisting)))

theorem keys_set {i : Nat} (hexisting : nodes[i]? = some existing) {new : KeyedProof}
    (hkey : new.key = existing.key) :
    (nodes.set i new).map KeyedProof.key = nodes.map KeyedProof.key := by
  obtain ⟨hlt, rfl⟩ := List.getElem?_eq_some_iff.mp hexisting
  have hlt' : i < (nodes.map KeyedProof.key).length := by rwa [length_map]
  have hself : new.key = (nodes.map KeyedProof.key)[i] := by rw [hkey, getElem_map]
  rw [map_set, hself, set_getElem_self]

variable {merged : ProofNodeKind ProofId}

/-- The collector with another node in the place of one that has the same key. -/
def withNode (collector : SelectionCollector) (id : ProofId) (node : KeyedProof) :
    SelectionCollector :=
  { collector with nodes := collector.nodes.set id.index node }

theorem keys_withNode (hexisting : collector.nodes[id.index]? = some existing) :
    (collector.withNode id { existing with kind := merged }).keys = collector.keys :=
  keys_set hexisting rfl

theorem Valid.withNode (h : collector.Valid)
    (hexisting : collector.nodes[id.index]? = some existing)
    (hreferences : ∀ id ∈ merged.ids, id.index < collector.keys.length) :
    (collector.withNode id { existing with kind := merged }).Valid := by
  constructor
  case numbered =>
    intro i node hnode
    rw [SelectionCollector.withNode, getElem?_set] at hnode
    split at hnode
    case isTrue hi =>
      subst hi
      split at hnode
      · cases hnode
        have hnumber := h.numbered hexisting
        exact hnumber
      · cases hnode
    case isFalse => exact h.numbered hnode
  case nodup =>
    rw [keys_withNode hexisting]
    exact h.nodup
  case size =>
    rw [keys_withNode hexisting]
    exact h.size
  case lookup =>
    rw [keys_withNode hexisting]
    exact h.lookup
  case references =>
    rw [keys_withNode hexisting]
    intro node hnode
    rcases (mem_set h.nodup hexisting).mp hnode with rfl | ⟨hnode, -⟩
    · exact hreferences
    · exact h.references node hnode
  case relationReferences =>
    rw [keys_withNode hexisting]
    exact h.relationReferences
  case slots => exact h.slots
  case conflict => exact h.conflict

theorem Records.withNode (h : collector.Records calls) (hnodup : collector.keys.Nodup)
    (hexisting : collector.nodes[id.index]? = some existing)
    (hmerged : ProofNodeKind.Merged existing.kind kind merged) :
    (collector.withNode id { existing with kind := merged }).Records
      (calls ++ [.internNode existing.key (kind.map (nameOf collector.keys))]) := by
  have hkeys : (collector.nodes.set id.index { existing with kind := merged }).map KeyedProof.key =
      collector.keys := keys_withNode hexisting
  have hmember := mem_of_getElem? hexisting
  have hunique : ∀ node ∈ collector.nodes, node.key = existing.key → node = existing :=
    fun node hnode hkey => inj_on_of_nodup_map hnodup hnode hmember hkey
  have hnamed := hmerged.map (nameOf collector.keys)
  constructor
  case facts =>
    rw [map_append]
    refine h.facts.concat fun site seen => ?_
    show knownFacts (collector.nodes.set id.index _) site = some seen ↔ _
    rw [knownFacts_eq_some (hkeys ▸ hnodup), knownFacts_eq_some hnodup, hkeys]
    simp only [mem_set hnodup hexisting, SelectionCall.facts]
    constructor
    · rintro ⟨node, rfl | ⟨hnode, -⟩, hkey, hseen⟩
      · rw [if_pos hkey.symm]
        exact ((hnamed.observe site.2 seen).mp hseen).imp_left fun hseen =>
          ⟨existing, hmember, hkey, hseen⟩
      · exact .inl ⟨node, hnode, hkey, hseen⟩
    · rintro (⟨node, hnode, hkey, hseen⟩ | hseen)
      · by_cases hsame : node.key = existing.key
        · obtain rfl := hunique node hnode hsame
          exact ⟨_, .inl rfl, hkey, (hnamed.observe site.2 seen).mpr (.inl hseen)⟩
        · exact ⟨node, .inr ⟨hnode, hsame⟩, hkey, hseen⟩
      · split at hseen
        case isTrue hkey =>
          exact ⟨_, .inl rfl, hkey.symm, (hnamed.observe site.2 seen).mpr (.inr hseen)⟩
        case isFalse => cases hseen
  case owners =>
    intro key owner
    rw [exists_owns_concat, ← h.owners]
    show OwnedBy (collector.nodes.set id.index _) key owner ↔ _
    simp only [OwnedBy, hkeys, mem_set hnodup hexisting]
    constructor
    · rintro ⟨node, rfl | ⟨hnode, -⟩, hkey, howner⟩
      · rw [hnamed.owners, mem_append] at howner
        exact howner.imp (fun howner => ⟨existing, hmember, hkey, howner⟩)
          fun howner => ⟨hkey, howner⟩
      · exact .inl ⟨node, hnode, hkey, howner⟩
    · rintro (⟨node, hnode, hkey, howner⟩ | ⟨hkey, howner⟩)
      · by_cases hsame : node.key = existing.key
        · obtain rfl := hunique node hnode hsame
          refine ⟨_, .inl rfl, hkey, ?_⟩
          rw [hnamed.owners]
          exact mem_append_left _ howner
        · exact ⟨node, .inr ⟨hnode, hsame⟩, hkey, howner⟩
      · refine ⟨_, .inl rfl, hkey, ?_⟩
        rw [hnamed.owners]
        exact mem_append_right _ howner
  case relations =>
    intro relation
    rw [keys_withNode hexisting, mem_append, h.relations, mem_singleton]
    exact or_iff_left fun heq => by cases heq

end Merge

section Append

variable {key : ProofKey} {kind : ProofNodeKind ProofId}

/-- The collector with one more proof. -/
def withNew (collector : SelectionCollector) (key : ProofKey) (kind : ProofNodeKind ProofId) :
    SelectionCollector :=
  { collector with
    nodes := collector.nodes ++ [{ id := ⟨collector.nodes.length⟩, key, kind }]
    ids := collector.ids.insert key ⟨collector.nodes.length⟩ }

theorem keys_withNew : (collector.withNew key kind).keys = collector.keys ++ [key] :=
  map_append

theorem nameOf_withNew (h : id.index < collector.keys.length) :
    nameOf (collector.withNew key kind).keys id = nameOf collector.keys id := by
  rw [keys_withNew, nameOf_append h]

theorem Valid.withNew (h : collector.Valid) (hnew : key ∉ collector.keys)
    (hsize : collector.keys.length < u32Size)
    (hreferences : ∀ id ∈ kind.ids, id.index < collector.keys.length) :
    (collector.withNew key kind).Valid := by
  have hgrow : ∀ {i : Nat}, i < collector.keys.length →
      i < (collector.withNew key kind).keys.length :=
    fun hi => by
      rw [keys_withNew, length_append]
      exact Nat.lt_add_right _ hi
  have hlength : collector.keys.length = collector.nodes.length := length_map _
  constructor
  case numbered =>
    intro i node hnode
    rcases getElem?_concat_eq_some.mp hnode with hnode | ⟨rfl, rfl⟩
    · exact h.numbered hnode
    · rfl
  case nodup =>
    rw [keys_withNew, ← concat_eq_append]
    exact h.nodup.concat hnew
  case size =>
    rw [keys_withNew, length_append]
    exact hsize
  case lookup =>
    intro other id
    rw [keys_withNew]
    show (collector.ids.insert key ⟨collector.nodes.length⟩).get other = some id ↔ _
    rw [SortedMap.get_insert, getElem?_concat_eq_some, hlength]
    split
    case isTrue heq =>
      subst heq
      have hnone : collector.keys[id.index]? ≠ some other := fun hkey =>
        hnew (mem_of_getElem? hkey)
      constructor
      · rintro ⟨⟩
        exact .inr ⟨rfl, rfl⟩
      · intro hor
        obtain ⟨hindex, -⟩ := hor.resolve_left hnone
        rw [← hindex]
    case isFalse hne =>
      rw [h.lookup]
      exact (or_iff_left fun hlast => hne hlast.2.symm).symm
  case references =>
    intro node hnode id hid
    rcases mem_append.mp hnode with hnode | hnode
    · exact hgrow (h.references node hnode id hid)
    · obtain rfl := mem_singleton.mp hnode
      exact hgrow (hreferences id hid)
  case relationReferences =>
    exact fun relation hrelation id hid => hgrow (h.relationReferences relation hrelation id hid)
  case slots => exact h.slots
  case conflict => exact h.conflict

theorem Records.withNew (h : collector.Records calls) (hvalid : collector.Valid)
    (hnew : key ∉ collector.keys) (hsize : collector.keys.length < u32Size)
    (hreferences : ∀ id ∈ kind.ids, id.index < collector.keys.length) :
    (collector.withNew key kind).Records
      (calls ++ [.internNode key (kind.map (nameOf collector.keys))]) := by
  have hnodup : (collector.withNew key kind).keys.Nodup :=
    (hvalid.withNew hnew hsize hreferences).nodup
  have hold : ∀ node ∈ collector.nodes, node.kind.map (nameOf (collector.withNew key kind).keys) =
      node.kind.map (nameOf collector.keys) := fun node hnode =>
    ProofNodeKind.map_congr fun id hid => nameOf_withNew (hvalid.references node hnode id hid)
  have hkind : kind.map (nameOf (collector.withNew key kind).keys) =
      kind.map (nameOf collector.keys) :=
    ProofNodeKind.map_congr fun id hid => nameOf_withNew (hreferences id hid)
  have hmem : ∀ {P : KeyedProof → Prop}, (∃ node ∈ (collector.withNew key kind).nodes, P node) ↔
      (∃ node ∈ collector.nodes, P node) ∨ P { id := ⟨collector.nodes.length⟩, key, kind } := by
    intro P
    simp [SelectionCollector.withNew, or_and_right, exists_or]
  constructor
  case facts =>
    rw [map_append]
    refine h.facts.concat fun site seen => ?_
    rw [knownFacts_eq_some hnodup, knownFacts_eq_some hvalid.nodup, hmem]
    refine or_congr (exists_congr fun node => and_congr_right fun hnode => ?_) ?_
    · rw [hold node hnode]
    · show key = site.1 ∧
        (kind.map (nameOf (collector.withNew key kind).keys)).observe site.2 = _ ↔ _
      rw [hkind, SelectionCall.facts]
      split
      case isTrue hkey => exact and_iff_right hkey.symm
      case isFalse hkey => simp [Ne.symm hkey]
  case owners =>
    intro other owner
    rw [exists_owns_concat, ← h.owners, OwnedBy, hmem]
    refine or_congr (exists_congr fun node => and_congr_right fun hnode => ?_) ?_
    · rw [hold node hnode]
    · show key = other ∧ owner ∈ (kind.map (nameOf (collector.withNew key kind).keys)).owners ↔ _
      rw [hkind]
      rfl
  case relations =>
    intro relation
    rw [mem_append, h.relations, mem_singleton, or_iff_left fun heq => by cases heq]
    refine exists_congr fun reported => and_congr_right fun hreported => ?_
    rw [SolverRelation.map_congr fun id hid =>
      nameOf_withNew (hvalid.relationReferences reported hreported id hid)]

end Append

/-! ## Runs of calls -/

/-- A proof is new, or is merged with what is known of it, or contradicts it. -/
theorem perform_internNode (hvalid : collector.Valid) (h : collector.Records calls) (key : ProofKey)
    {kind : ProofNodeKind ProofId}
    (hreferences : ∀ id ∈ kind.ids, id.index < collector.keys.length) :
    (∃ next, collector.perform (.internNode key kind) = .ok next ∧ next.Valid ∧
      next.Records (calls ++ [.internNode key (kind.map (nameOf collector.keys))]) ∧
      next.keys = if key ∈ collector.keys then collector.keys else collector.keys ++ [key]) ∨
    (collector.perform (.internNode key kind) = .error .conflictingProof ∧
      ∃ call ∈ calls, call.Conflicts (.internNode key (kind.map (nameOf collector.keys)))) ∨
    (collector.perform (.internNode key kind) = .error .tooManyProofs ∧
      key ∉ collector.keys ∧ u32Size ≤ collector.keys.length) := by
  cases hget : collector.ids.get key with
  | some id =>
    obtain ⟨existing, hexisting, rfl⟩ := hvalid.nodes_key hget
    have hmember : existing.key ∈ collector.keys :=
      mem_map_of_mem (mem_of_getElem? hexisting)
    have hmerge : mergeNode existing { id := ⟨0⟩, key := existing.key, kind } =
        ({ existing with kind := (mergeKind existing.kind kind).1 },
          (mergeKind existing.kind kind).2) := if_neg fun hne => hne rfl
    have hrun : collector.internNode { id := ⟨0⟩, key := existing.key, kind } =
        if (mergeKind existing.kind kind).2 then
          .ok (collector.withNode id { existing with kind := (mergeKind existing.kind kind).1 }, id)
        else .error .conflictingProof := by
      simp only [internNode, hget, hexisting, hmerge, SelectionCollector.withNode]
    have hexists := hvalid.references existing (mem_of_getElem? hexisting)
    rcases mergeKind_cases existing.kind kind with ⟨hagree, hmerged⟩ | ⟨hconflict, hclash⟩
    · refine .inl ⟨_, ?_, hvalid.withNode hexisting fun id hid => ?_,
        h.withNode hvalid.nodup hexisting hmerged, ?_⟩
      · rw [perform, hrun, if_pos hagree]
        rfl
      · exact (hmerged.mem_ids hid).elim (hexists id) (hreferences id)
      · rw [if_pos hmember, keys_withNode hexisting]
    · refine .inr (.inl ⟨?_, ?_⟩)
      · rw [perform, hrun, hconflict]
        rfl
      · have hback : ∀ id : ProofId, id.index < collector.keys.length →
            numberOf collector.keys (nameOf collector.keys id) = id := fun id hid =>
          numberOf_nameOf hvalid.nodup hid
        obtain ⟨part, v, w, hv, hw, hne⟩ :=
          clashes_map hclash (fun id hid => hback id (hexists id hid))
          fun id hid => hback id (hreferences id hid)
        have hknown : knownFacts collector.nodes (existing.key, part) = some v :=
          (knownFacts_eq_some hvalid.nodup).mpr ⟨existing, mem_of_getElem? hexisting, rfl, hv⟩
        have hsaid :
            (SelectionCall.internNode existing.key (kind.map (nameOf collector.keys))).facts
            (existing.key, part) = some w := (if_pos rfl).trans hw
        obtain ⟨_, hfacts, hclash⟩ := h.facts.clashes ⟨_, v, w, hknown, hsaid, hne⟩
        obtain ⟨call, hcall, rfl⟩ := mem_map.mp hfacts
        exact ⟨call, hcall, .inl hclash⟩
  | none =>
    have hnew := hvalid.get_eq_none.mp hget
    have hlength : collector.keys.length = collector.nodes.length := length_map _
    have hrun : collector.internNode { id := ⟨0⟩, key, kind } = do
        let index ← ordinal collector.nodes.length
        return ({ collector with
          nodes := collector.nodes ++ [{ id := ⟨index⟩, key, kind }]
          ids := collector.ids.insert key ⟨index⟩ }, ⟨index⟩) := by
      simp only [internNode, hget]
    by_cases hsize : collector.keys.length < u32Size
    · refine .inl
        ⟨_, ?_, hvalid.withNew hnew hsize hreferences, h.withNew hvalid hnew hsize hreferences, ?_⟩
      · rw [perform, hrun, ordinal, if_pos (hlength ▸ hsize)]
        rfl
      · rw [if_neg hnew, keys_withNew]
    · refine .inr (.inr ⟨?_, hnew, Nat.le_of_not_lt hsize⟩)
      rw [perform, hrun, ordinal, if_neg (hlength ▸ hsize)]
      rfl

/-- The proofs that calls report. -/
def reportedKeys (calls : List (SelectionCall ProofKey)) : Finset ProofKey :=
  (calls.filterMap SelectionCall.reported).toFinset

theorem mem_reportedKeys : key ∈ reportedKeys calls ↔ ∃ call ∈ calls, call.reported = some key := by
  rw [reportedKeys, mem_toFinset, mem_filterMap]

/-- After calls that only use what was returned, the collector knows what the calls have said, or it
has noticed that two of them contradict each other, or there are too many proofs. -/
theorem collect_cases {calls : List (SelectionCall ProofId)} {keyed : List (SelectionCall ProofKey)}
    {done : List (SelectionCall ProofKey)} (hvalid : collector.Valid) (h : collector.Records done)
    (hkeyed : writeKeys collector.keys calls = .ok keyed) :
    (∃ final, calls.foldlM perform collector = .ok final ∧ final.Valid ∧
      final.Records (done ++ keyed)) ∨
    (calls.foldlM perform collector = .error .conflictingProof ∧
      ∃ a ∈ done ++ keyed, ∃ b ∈ done ++ keyed, a.Conflicts b) ∨
    (calls.foldlM perform collector = .error .tooManyProofs ∧
      u32Size < (reportedKeys (done ++ keyed)).card) := by
  induction calls generalizing collector keyed done with
  | nil =>
    cases hkeyed
    rw [append_nil]
    exact .inl ⟨collector, rfl, hvalid, h⟩
  | cons call calls ih =>
    rw [foldlM_cons]
    cases call with
    | internNode key kind =>
      obtain ⟨kind', hkind, hkeyed⟩ := bind_ok hkeyed
      obtain ⟨rest, hrest, hkeyed⟩ := bind_ok hkeyed
      cases hkeyed
      obtain rfl := eq_map_of_remapNodeReferences hkind fun _ _ => nameOf_of_remapped
      rw [append_cons]
      rcases perform_internNode hvalid h key fun id hid =>
          lt_of_remapped (forall_of_remapNodeReferences hkind id hid) with
        ⟨next, hrun, hnext, hrecords, hkeys⟩ | ⟨hrun, call, hcall, hconflict⟩ | ⟨hrun, hnew, hfull⟩
      · rw [hrun]
        exact ih hnext hrecords (hkeys ▸ hrest)
      · rw [hrun]
        exact .inr (.inl ⟨rfl, call, by simp [hcall], _, by simp, hconflict⟩)
      · rw [hrun]
        refine .inr (.inr ⟨rfl, ?_⟩)
        have hsubset : insert key collector.keys.toFinset ⊆ reportedKeys
            (done ++ [.internNode key (kind.map (nameOf collector.keys))] ++ rest) := by
          intro other hother
          rw [mem_reportedKeys]
          rcases Finset.mem_insert.mp hother with rfl | hother
          · exact ⟨.internNode other (kind.map (nameOf collector.keys)), by simp, rfl⟩
          · obtain ⟨call, hcall, hreported⟩ :=
              (mem_keys_iff_reported hvalid.nodup h.facts).mp (mem_toFinset.mp hother)
            exact ⟨call, by simp [hcall], hreported⟩
        have hcard := Finset.card_le_card hsubset
        rw [Finset.card_insert_of_notMem (fun hmem => hnew (mem_toFinset.mp hmem)),
          toFinset_card_of_nodup hvalid.nodup] at hcard
        exact Nat.lt_of_lt_of_le (Nat.lt_succ_of_le hfull) hcard
    | insertRelation relation =>
      obtain ⟨relation', hrelation, hkeyed⟩ := bind_ok hkeyed
      obtain ⟨rest, hrest, hkeyed⟩ := bind_ok hkeyed
      cases hkeyed
      obtain rfl := eq_map_of_remapRelation hrelation fun _ _ => nameOf_of_remapped
      rw [append_cons]
      exact ih (hvalid.insertRelation fun id hid =>
        lt_of_remapped (forall_of_remapRelation hrelation id hid)) h.insertRelation hrest

end SelectionCollector

end ItemDependencies
