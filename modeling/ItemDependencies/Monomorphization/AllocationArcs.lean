import ItemDependencies.Library.Occurrences
import ItemDependencies.Monomorphization.AllocationPaths
import ItemDependencies.Monomorphization.PathValidation

/-!
# The arcs of a trace

Each fact that ends at an allocation is an arc from a root or from another allocation, and the part
that it adds to a path is the label of the arc.  Facts of one role are numbered by the order in
which their targets first occur, so that the first facts for each target are told apart by their
labels.
-/

namespace ItemDependencies

open Library List

variable {ν σ : Type} [DecidableEq ν] (reader : TraceReader ν σ)

/-- What the facts have in common whose targets are numbered together. -/
structure FactRole (ν : Type) where
  fromNode : MonoTraceNode ν
  cause : MonoUseCause
  collection : MonoTraceCollection
  site : AllocationPathSite
deriving DecidableEq

def factRole (fact : MonoUseFact ν σ) (site : AllocationPathSite) : FactRole ν :=
  ⟨fact.fromNode, fact.cause, fact.collection, site⟩

/-- The role of a fact that ends at an allocation, and the allocation. -/
def rolePush (fact : MonoUseFact ν σ) : Option (FactRole ν × AllocId) :=
  match fact.toNode, reader.allocationPathSite fact.site with
  | .allocation target, .ok site => some (factRole fact site, target)
  | _, _ => none

/-- Where a path that goes on with a fact from this node comes from. -/
def arcSource : MonoTraceNode ν → Option (AllocationRootKey ⊕ AllocId)
  | .allocation id => some (.inr id)
  | .other node =>
    match reader.allocationRoot node with
    | .ok root => some (.inl root)
    | .error _ => none

def pathPart (role : FactRole ν) (ordinal : Nat) : AllocationPathPart :=
  ⟨role.cause.dependencyKind, role.collection.collection, role.site, ordinal⟩

/-- The fact, after these ones, is the arc. -/
structure FactArc (before : List (MonoUseFact ν σ)) (fact : MonoUseFact ν σ)
    (arc : Arc AllocationRootKey AllocId AllocationPathPart) : Prop where
  target : fact.toNode = .allocation arc.target
  source : arcSource reader fact.fromNode = some arc.source
  label : ∃ site, reader.allocationPathSite fact.site = .ok site ∧
    arc.label = pathPart (factRole fact site)
      (classOrdinal (before.filterMap (rolePush reader)) (factRole fact site))

def allocationArcs (facts : List (MonoUseFact ν σ)) :
    Set (Arc AllocationRootKey AllocId AllocationPathPart) :=
  {arc | ∃ before fact after, facts = before ++ fact :: after ∧ FactArc reader before fact arc}

/-- The facts are as the observer gives them: those that end at allocations have one of two causes,
facts with these causes have a site that fits the cause, and those that end at allocations start at
allocations or at nodes with root keys of their own. -/
structure ValidFacts (facts : List (MonoUseFact ν σ)) : Prop where
  cause : ∀ fact ∈ facts, ∀ id, fact.toNode = .allocation id → fact.cause.refersToAllocation = true
  site : ∀ fact ∈ facts, fact.cause.refersToAllocation = true →
    ∃ site, reader.observationSite fact.site = .ok site ∧
      (DependencyGraph.allocationPathSite fact.cause.dependencyKind site).isSome = true
  root : ∀ fact ∈ facts, ∀ id node, fact.toNode = .allocation id → fact.fromNode = .other node →
    ∃ root, reader.allocationRoot node = .ok root
  root_injective : ∀ fact ∈ facts, ∀ fact' ∈ facts, ∀ id id' node node' root,
    fact.toNode = .allocation id → fact'.toNode = .allocation id' → fact.fromNode = .other node →
    fact'.fromNode = .other node' → reader.allocationRoot node = .ok root →
    reader.allocationRoot node' = .ok root → node = node'

variable {reader} {facts before after : List (MonoUseFact ν σ)} {fact : MonoUseFact ν σ}
  {role : FactRole ν} {target : AllocId} {n : Nat}
  {arc : Arc AllocationRootKey AllocId AllocationPathPart}

/-! ## Sites -/

omit [DecidableEq ν] in
/-- The collector and the graph agree on the class of a site that fits its cause. -/
theorem allocationPathSite_eq {site : MonoTraceSite σ} {observed : ObservationSite}
    {relation : MonoDependencyKind} (h : reader.observationSite site = .ok observed)
    (hfit : (DependencyGraph.allocationPathSite relation observed).isSome = true) :
    ∃ found, DependencyGraph.allocationPathSite relation observed = some found ∧
      reader.allocationPathSite site = .ok found := by
  obtain ⟨found, hfound⟩ := Option.isSome_iff_exists.mp hfit
  refine ⟨found, hfound, ?_⟩
  rw [TraceReader.allocationPathSite, h]
  cases relation <;> cases observed <;> cases hfound <;> rfl

omit [DecidableEq ν] in
theorem ValidFacts.pathSite (hvalid : ValidFacts reader facts) (hfact : fact ∈ facts)
    (hcause : fact.cause.refersToAllocation = true) :
    ∃ site, reader.allocationPathSite fact.site = .ok site := by
  obtain ⟨observed, hobserved, hfit⟩ := hvalid.site fact hfact hcause
  obtain ⟨found, -, hfound⟩ := allocationPathSite_eq hobserved hfit
  exact ⟨found, hfound⟩

omit [DecidableEq ν] in
theorem rolePush_eq_some : rolePush reader fact = some (role, target) ↔
    fact.toNode = .allocation target ∧ ∃ site, reader.allocationPathSite fact.site = .ok site ∧
      role = factRole fact site := by
  unfold rolePush
  cases fact.toNode with
  | other node => simp
  | allocation id =>
    cases reader.allocationPathSite fact.site with
    | error e => simp
    | ok site => simp [and_comm, eq_comm]

/-! ## Ordinals -/

/-- The targets that the collector counts are those of the earlier facts of the same role. -/
theorem addTarget_eq (hvalid : ValidFacts reader facts) {previous : MonoUseFact ν σ}
    (hprevious : previous ∈ facts) (hcause : fact.cause.refersToAllocation = true)
    (site : AllocationPathSite) (targets : List AllocId) :
    reader.addTarget fact site targets previous =
      .ok ((valuesAt (rolePush reader previous).toList (factRole fact site)).foldl addNew
        targets) := by
  unfold TraceReader.addTarget
  split
  case isTrue hsame =>
    obtain ⟨hfrom, hsameCause, hcollection⟩ := hsame
    obtain ⟨found, hfound⟩ := hvalid.pathSite hprevious (hsameCause ▸ hcause)
    rw [hfound]
    cases hto : previous.toNode with
    | other node =>
      have hpush : rolePush reader previous = none := by
        unfold rolePush
        rw [hto]
      rw [hpush]
      rfl
    | allocation id =>
      have hpush : rolePush reader previous = some (factRole previous found, id) :=
        rolePush_eq_some.mpr ⟨hto, found, hfound, rfl⟩
      have hrole : factRole previous found = factRole fact site ↔ found = site := by
        simp [factRole, hfrom, hsameCause, hcollection]
      rw [hpush]
      by_cases hsite : found = site
      · subst hsite
        by_cases hmem : id ∈ targets <;>
          simp [valuesAt, hrole, addNew, hmem, bind, Except.bind, pure, Except.pure]
      · simp [valuesAt, hrole, hsite, bind, Except.bind, pure, Except.pure]
  case isFalse hother =>
    have hvalues : valuesAt (rolePush reader previous).toList (factRole fact site) = [] := by
      refine eq_nil_iff_forall_not_mem.mpr fun id hid => hother ?_
      rw [mem_valuesAt, Option.mem_toList, rolePush_eq_some] at hid
      obtain ⟨-, found, -, hrole⟩ := hid
      simp only [factRole, FactRole.mk.injEq] at hrole
      exact ⟨hrole.1.symm, hrole.2.1.symm, hrole.2.2.1.symm⟩
    rw [hvalues]
    rfl

theorem allocationOrdinal_eq (hvalid : ValidFacts reader facts) (hbefore : ∀ f ∈ before, f ∈ facts)
    (hcause : fact.cause.refersToAllocation = true) (site : AllocationPathSite) :
    reader.allocationOrdinal before fact site =
      if classOrdinal (before.filterMap (rolePush reader)) (factRole fact site) < u32Size then
        .ok (classOrdinal (before.filterMap (rolePush reader)) (factRole fact site))
      else .error .tooManyNodes := by
  have hfold : before.foldlM (reader.addTarget fact site) [] =
      .ok (distinct (valuesAt (before.filterMap (rolePush reader)) (factRole fact site))) := by
    rw [foldlM_eq_foldl fun previous hprevious targets =>
      addTarget_eq hvalid (hbefore previous hprevious) hcause site targets,
      foldl_addNew_valuesAt (rolePush reader)]
    rfl
  rw [TraceReader.allocationOrdinal, hfold]
  rfl

/-! ## Arcs -/

/-- The arcs are the numbered pushes. -/
theorem mem_allocationArcs : arc ∈ allocationArcs reader facts ↔
    ∃ role n, Numbered (facts.filterMap (rolePush reader)) role arc.target n ∧
      arcSource reader role.fromNode = some arc.source ∧ arc.label = pathPart role n := by
  constructor
  · rintro ⟨before, fact, after, rfl, htarget, hsource, site, hsite, hlabel⟩
    refine ⟨factRole fact site, _, ⟨_, after.filterMap (rolePush reader), ?_, rfl⟩, hsource, hlabel⟩
    rw [filterMap_append, filterMap_cons_some (rolePush_eq_some.mpr ⟨htarget, site, hsite, rfl⟩)]
  · rintro ⟨role, n, ⟨pushed, rest, hsplit, rfl⟩, hsource, hlabel⟩
    obtain ⟨before, facts', rfl, rfl, hrest⟩ := filterMap_eq_append_iff.mp hsplit
    obtain ⟨skipped, fact, after, rfl, hskipped, hpush, -⟩ := filterMap_eq_cons_iff.mp hrest
    obtain ⟨htarget, site, hsite, rfl⟩ := rolePush_eq_some.mp hpush
    refine ⟨before ++ skipped, fact, after, by simp, htarget, hsource, site, hsite, ?_⟩
    rw [hlabel, filterMap_append, filterMap_eq_nil_iff.mpr hskipped, append_nil]

theorem finite_allocationArcs (reader : TraceReader ν σ) (facts : List (MonoUseFact ν σ)) :
    (allocationArcs reader facts).Finite := by
  refine ((finite_numbered (facts.filterMap (rolePush reader))).image fun entry =>
    (arcSource reader entry.1.1.fromNode).map fun source =>
      (⟨source, entry.1.2, pathPart entry.1.1 entry.2⟩ : Arc _ _ _)).preimage
        (Option.some_injective _).injOn |>.subset ?_
  intro arc harc
  obtain ⟨role, n, hnumber, hsource, hlabel⟩ := mem_allocationArcs.mp harc
  refine ⟨((role, arc.target), n), hnumber, ?_⟩
  dsimp only
  rw [hsource, ← hlabel]
  rfl

/-- The arcs of the first facts for each target of a role. -/
def firstArcs (reader : TraceReader ν σ) (facts : List (MonoUseFact ν σ)) :
    Set (Arc AllocationRootKey AllocId AllocationPathPart) :=
  {arc | ∃ role n, FirstNumbered (facts.filterMap (rolePush reader)) role arc.target n ∧
    arcSource reader role.fromNode = some arc.source ∧ arc.label = pathPart role n}

theorem MonoUseCause.dependencyKind_inj {a b : MonoUseCause} (ha : a.refersToAllocation = true)
    (hb : b.refersToAllocation = true) (h : a.dependencyKind = b.dependencyKind) : a = b := by
  cases a <;> cases ha <;> cases b <;> cases hb <;> first | rfl | cases h

theorem MonoTraceCollection.collection_injective :
    Function.Injective MonoTraceCollection.collection := by
  intro a b h
  cases a <;> cases b <;> first | rfl | cases h

theorem exists_fact_of_numbered (h : Numbered (facts.filterMap (rolePush reader)) role target n) :
    ∃ fact ∈ facts, fact.toNode = .allocation target ∧
      ∃ site, reader.allocationPathSite fact.site = .ok site ∧ role = factRole fact site := by
  obtain ⟨pushed, rest, hsplit, -⟩ := h
  have hmem : (role, target) ∈ facts.filterMap (rolePush reader) := by simp [hsplit]
  obtain ⟨fact, hfact, hpush⟩ := mem_filterMap.mp hmem
  exact ⟨fact, hfact, rolePush_eq_some.mp hpush⟩

/-- The source of an arc tells the node. -/
theorem ValidFacts.source_inj (hvalid : ValidFacts reader facts) {role' : FactRole ν}
    {target' : AllocId} {n' : Nat} {source : AllocationRootKey ⊕ AllocId}
    (h : Numbered (facts.filterMap (rolePush reader)) role target n)
    (h' : Numbered (facts.filterMap (rolePush reader)) role' target' n')
    (hs : arcSource reader role.fromNode = some source)
    (hs' : arcSource reader role'.fromNode = some source) : role.fromNode = role'.fromNode := by
  obtain ⟨fact, hfact, htarget, site, -, hrole⟩ := exists_fact_of_numbered h
  obtain ⟨fact', hfact', htarget', site', -, hrole'⟩ := exists_fact_of_numbered h'
  have hfrom : fact.fromNode = role.fromNode := by rw [hrole]; rfl
  have hfrom' : fact'.fromNode = role'.fromNode := by rw [hrole']; rfl
  cases hnode : role.fromNode with
  | allocation id =>
    cases hnode' : role'.fromNode with
    | allocation id' =>
      rw [hnode] at hs
      rw [hnode', ← hs] at hs'
      cases hs'
      rfl
    | other node' =>
      obtain ⟨root, hroot⟩ := hvalid.root fact' hfact' _ _ htarget' (hfrom'.trans hnode')
      rw [hnode] at hs
      rw [hnode', arcSource, hroot, ← hs] at hs'
      cases hs'
  | other node =>
    obtain ⟨root, hroot⟩ := hvalid.root fact hfact _ _ htarget (hfrom.trans hnode)
    rw [hnode, arcSource, hroot] at hs
    cases hs
    cases hnode' : role'.fromNode with
    | allocation id' =>
      rw [hnode'] at hs'
      cases hs'
    | other node' =>
      obtain ⟨root', hroot'⟩ := hvalid.root fact' hfact' _ _ htarget' (hfrom'.trans hnode')
      rw [hnode', arcSource, hroot'] at hs'
      cases hs'
      rw [hvalid.root_injective fact hfact fact' hfact' _ _ _ _ _ htarget htarget'
        (hfrom.trans hnode) (hfrom'.trans hnode') hroot hroot']

omit [DecidableEq ν] in
theorem pathPart_mono (role : FactRole ν) : Monotone (pathPart role) := by
  intro m n h
  show (pathPart role m).rank ≤ (pathPart role n).rank
  simp [AllocationPathPart.rank, pathPart, Prod.Lex.le_iff, h]

theorem ValidFacts.distinguishes (hvalid : ValidFacts reader facts) :
    Distinguishes (firstArcs reader facts) (allocationArcs reader facts) where
  subset := fun arc ⟨role, n, hfirst, harc⟩ =>
    mem_allocationArcs.mpr ⟨role, n, hfirst.numbered, harc⟩
  target_eq s a b l ha hb := by
    obtain ⟨role, n, hfirst, hsource, hlabel⟩ := ha
    obtain ⟨role', n', hfirst', hsource', hlabel'⟩ := hb
    have hfrom := hvalid.source_inj hfirst.numbered hfirst'.numbered hsource hsource'
    obtain ⟨fact, hfact, htarget, site, -, hfactRole⟩ := exists_fact_of_numbered hfirst.numbered
    obtain ⟨fact', hfact', htarget', site', -, hfactRole'⟩ :=
      exists_fact_of_numbered hfirst'.numbered
    have hreaches : role.cause.refersToAllocation = true :=
      hfactRole ▸ hvalid.cause fact hfact _ htarget
    have hreaches' : role'.cause.refersToAllocation = true :=
      hfactRole' ▸ hvalid.cause fact' hfact' _ htarget'
    have hpart : pathPart role n = pathPart role' n' := hlabel.symm.trans hlabel'
    simp only [pathPart, AllocationPathPart.mk.injEq] at hpart
    obtain ⟨hrelation, hcollection, hsite, rfl⟩ := hpart
    have hrole : role = role' := by
      cases role
      cases role'
      cases hfrom
      cases MonoUseCause.dependencyKind_inj hreaches hreaches' hrelation
      cases MonoTraceCollection.collection_injective hcollection
      cases hsite
      rfl
    exact hfirst.unique (hrole ▸ hfirst')
  exists_le s a l ha := by
    obtain ⟨role, n, hnumber, hsource, hlabel⟩ := mem_allocationArcs.mp ha
    obtain ⟨m, hle, hfirst⟩ := hnumber.exists_first
    refine ⟨pathPart role m, ?_, role, m, hfirst, hsource, rfl⟩
    rw [show l = pathPart role n from hlabel]
    exact pathPart_mono role hle

end ItemDependencies
