import ItemDependencies.Graph.Basic
import Mathlib.Data.Finset.Option

/-!
# Collection edges of a snapshot

A snapshot compares what the compiler decided, not where its optimizer put it.  What an edge says
is a set of facts, one for each site.  A mentioned item that is also used is only a used one, and an
associated item that was selected in the source belongs to its site in place of the function into
which it was inlined.
-/

namespace ItemDependencies

open List

universe u

inductive SnapshotObservationSite where
  | source (range : ByteRange)
  | externalSource
  | allocationReference
  | vTableSlot (slot : Nat)
  | compilerGenerated
deriving DecidableEq

inductive SnapshotEdgeFrom (K : Type u) where
  | node (key : K)
  | sourceAssociatedItem
deriving DecidableEq

/-- An edge between nodes that are known by their keys. -/
structure SnapshotEdge (K : Type u) where
  fromNode : SnapshotEdgeFrom K
  toNode : K
  kind : DependencyKind
  sites : List SnapshotObservationSite
deriving DecidableEq

structure SnapshotCollectionEdgeKey (K : Type u) where
  fromNode : SnapshotEdgeFrom K
  toNode : K
  usedKind : DependencyKind
deriving DecidableEq

structure SnapshotCollectionObservations where
  sourceFree : Bool
  sites : Finset SnapshotObservationSite

section Model

variable {K : Type u}

/-- The site is a place in some source. -/
def SnapshotObservationSite.isSource : SnapshotObservationSite → Bool
  | .source _ | .externalSource => true
  | _ => false

/-- The kind of an associated item that was selected in the source. -/
def isSourceAssociatedItem : DependencyKind → Bool
  | .selectionProof .sourceAssociatedItem .mentioned => true
  | _ => false

/-- The edges that stand for one edge: its source sites are detached from their owner. -/
def projectSourceAssociatedItem (edge : SnapshotEdge K) : List (SnapshotEdge K) :=
  if !isSourceAssociatedItem edge.kind then [edge]
  else
    let sourceSites := edge.sites.filter SnapshotObservationSite.isSource
    let otherSites := edge.sites.filter fun site => !site.isSource
    if sourceSites = [] then [{ edge with sites := otherSites }]
    else
      (if otherSites = [] then [] else [{ edge with sites := otherSites }]) ++
        sourceSites.map fun site => ⟨.sourceAssociatedItem, edge.toNode, edge.kind, [site]⟩

def snapshotCollectionEdgeKey (edge : SnapshotEdge K) :
    Option (MonoCollection × SnapshotCollectionEdgeKey K) :=
  match edge.kind with
  | .mono relation collection =>
    some (collection, ⟨edge.fromNode, edge.toNode, .mono relation .used⟩)
  | .selectionProof relation collection =>
    some (collection, ⟨edge.fromNode, edge.toNode, .selectionProof relation .used⟩)
  | _ => none

variable [DecidableEq K]

/-- What the used edges with a key have observed, if there are any. -/
def usedObservations (edges : Finset (SnapshotEdge K)) (key : SnapshotCollectionEdgeKey K) :
    Option SnapshotCollectionObservations :=
  let used := edges.filter fun edge => snapshotCollectionEdgeKey edge = some (.used, key)
  if used = ∅ then none
  else some {
    sourceFree := decide (∃ edge ∈ used, edge.sites = [])
    sites := used.biUnion fun edge => edge.sites.toFinset }

/-- What is left of a mentioned edge beside used ones. -/
def withoutUsed (used : SnapshotCollectionObservations) (edge : SnapshotEdge K) :
    Option (SnapshotEdge K) :=
  if edge.sites = [] then (if used.sourceFree then none else some edge)
  else
    let sites := edge.sites.filter fun site => site ∉ used.sites
    if sites = [] then none else some { edge with sites := sites }

def canonicalEdge (edges : Finset (SnapshotEdge K)) (edge : SnapshotEdge K) :
    Option (SnapshotEdge K) :=
  match snapshotCollectionEdgeKey edge with
  | some (.mentioned, key) =>
    match usedObservations edges key with
    | none => some edge
    | some used => withoutUsed used edge
  | _ => some edge

def canonicalizeCollectionEdges (edges : Finset (SnapshotEdge K)) : Finset (SnapshotEdge K) :=
  edges.biUnion fun edge => (canonicalEdge edges edge).toFinset

/-- The edges of a snapshot: all edges are projected, and the result is made canonical. -/
def snapshotEdges (edges : List (SnapshotEdge K)) : Finset (SnapshotEdge K) :=
  canonicalizeCollectionEdges (edges.flatMap projectSourceAssociatedItem).toFinset

end Model

/-! ## Facts -/

/-- One observation, or the edge as such. -/
structure SnapshotFact (K : Type u) where
  fromNode : SnapshotEdgeFrom K
  toNode : K
  kind : DependencyKind
  site : Option SnapshotObservationSite

section Facts

variable {K : Type u}

/-- What an edge has observed.  An edge without sites is a fact of its own. -/
def SnapshotEdge.observed (edge : SnapshotEdge K) : List (Option SnapshotObservationSite) :=
  if edge.sites = [] then [none] else edge.sites.map some

def SnapshotEdge.facts (edge : SnapshotEdge K) : List (SnapshotFact K) :=
  edge.observed.map fun site => ⟨edge.fromNode, edge.toNode, edge.kind, site⟩

def factsOf (edges : Finset (SnapshotEdge K)) : Set (SnapshotFact K) :=
  {fact | ∃ edge ∈ edges, fact ∈ edge.facts}

/-- The used kind in place of the mentioned one. -/
def usedTwin : DependencyKind → Option DependencyKind
  | .mono relation .mentioned => some (.mono relation .used)
  | .selectionProof relation .mentioned => some (.selectionProof relation .used)
  | _ => none

/-- The same observation of a used item is a fact. -/
def Subsumed (facts : Set (SnapshotFact K)) (fact : SnapshotFact K) : Prop :=
  ∃ kind, usedTwin fact.kind = some kind ∧ { fact with kind } ∈ facts

variable {edge : SnapshotEdge K} {fact : SnapshotFact K}

theorem mem_facts_iff : fact ∈ edge.facts ↔ fact.fromNode = edge.fromNode ∧
    fact.toNode = edge.toNode ∧ fact.kind = edge.kind ∧ fact.site ∈ edge.observed := by
  unfold SnapshotEdge.facts
  rw [mem_map]
  constructor
  · rintro ⟨site, hsite, rfl⟩
    exact ⟨rfl, rfl, rfl, hsite⟩
  · rintro ⟨hfrom, hto, hkind, hsite⟩
    exact ⟨fact.site, hsite, by rw [← hfrom, ← hto, ← hkind]⟩

theorem none_mem_observed : none ∈ edge.observed ↔ edge.sites = [] := by
  unfold SnapshotEdge.observed
  split
  · simp [*]
  · simp [*]

theorem some_mem_observed {site : SnapshotObservationSite} :
    some site ∈ edge.observed ↔ site ∈ edge.sites := by
  unfold SnapshotEdge.observed
  split
  · simp [*]
  · simp

end Facts

/-! ## The canonical edges -/

variable {kind : DependencyKind}

section Canonical

variable {K : Type u} {edge edge' : SnapshotEdge K} {key : SnapshotCollectionEdgeKey K}

theorem snapshotCollectionEdgeKey_mentioned :
    snapshotCollectionEdgeKey edge = some (.mentioned, key) ↔
      key.fromNode = edge.fromNode ∧ key.toNode = edge.toNode ∧
        usedTwin edge.kind = some key.usedKind := by
  obtain ⟨fromNode, toNode, kind, sites⟩ := edge
  obtain ⟨fromNode', toNode', usedKind⟩ := key
  cases kind with
  | mono relation collection =>
    cases collection <;> simp [snapshotCollectionEdgeKey, usedTwin, eq_comm]
  | selectionProof relation collection =>
    cases collection <;> simp [snapshotCollectionEdgeKey, usedTwin, eq_comm]
  | _ => simp [snapshotCollectionEdgeKey, usedTwin]

/-- The used kind of a mentioned one is used. -/
theorem snapshotCollectionEdgeKey_used (h : usedTwin kind = some key.usedKind) :
    snapshotCollectionEdgeKey edge = some (.used, key) ↔
      edge.fromNode = key.fromNode ∧ edge.toNode = key.toNode ∧ edge.kind = key.usedKind := by
  obtain ⟨fromNode, toNode, kind', sites⟩ := edge
  obtain ⟨fromNode', toNode', usedKind⟩ := key
  have hused : ∃ relation, usedKind = .mono relation .used ∨
      usedKind = .selectionProof relation .used := by
    unfold usedTwin at h
    split at h
    · cases h
      exact ⟨_, .inl rfl⟩
    · cases h
      exact ⟨_, .inr rfl⟩
    · cases h
  obtain ⟨relation, rfl | rfl⟩ := hused
  · cases kind' with
    | mono relation' collection => cases collection <;> simp [snapshotCollectionEdgeKey]
    | selectionProof relation' collection => simp [snapshotCollectionEdgeKey]
    | _ => simp [snapshotCollectionEdgeKey]
  · cases kind' with
    | mono relation' collection => simp [snapshotCollectionEdgeKey]
    | selectionProof relation' collection => cases collection <;> simp [snapshotCollectionEdgeKey]
    | _ => simp [snapshotCollectionEdgeKey]

variable [DecidableEq K] {edges : Finset (SnapshotEdge K)} {left : SnapshotEdge K}
  {used : SnapshotCollectionObservations}

/-- The fact that a used edge with the key makes of a site. -/
def SnapshotCollectionEdgeKey.factAt (key : SnapshotCollectionEdgeKey K)
    (site : Option SnapshotObservationSite) : SnapshotFact K :=
  ⟨key.fromNode, key.toNode, key.usedKind, site⟩

omit [DecidableEq K] in
theorem factAt_mem_facts {site : Option SnapshotObservationSite}
    (h : usedTwin kind = some key.usedKind) : key.factAt site ∈ edge.facts ↔
      snapshotCollectionEdgeKey edge = some (.used, key) ∧ site ∈ edge.observed := by
  rw [mem_facts_iff, snapshotCollectionEdgeKey_used h]
  unfold SnapshotCollectionEdgeKey.factAt
  constructor
  · rintro ⟨hfrom, hto, hkind, hsite⟩
    exact ⟨⟨hfrom.symm, hto.symm, hkind.symm⟩, hsite⟩
  · rintro ⟨⟨hfrom, hto, hkind⟩, hsite⟩
    exact ⟨hfrom.symm, hto.symm, hkind.symm, hsite⟩

/-- Without used edges there are no used facts with the key. -/
theorem usedObservations_none (h : usedTwin kind = some key.usedKind)
    (hnone : usedObservations edges key = none) (site : Option SnapshotObservationSite) :
    key.factAt site ∉ factsOf edges := by
  unfold usedObservations at hnone
  dsimp only at hnone
  split at hnone
  · rename_i hempty
    rintro ⟨edge, hedge, hfact⟩
    have hmem : edge ∈ edges.filter fun edge =>
        snapshotCollectionEdgeKey edge = some (.used, key) :=
      Finset.mem_filter.mpr ⟨hedge, ((factAt_mem_facts h).mp hfact).1⟩
    rw [hempty] at hmem
    exact Finset.notMem_empty _ hmem
  · cases hnone

/-- The observations of the used edges are the used facts with the key. -/
theorem usedObservations_some (h : usedTwin kind = some key.usedKind)
    (hused : usedObservations edges key = some used) :
    (used.sourceFree = true ↔ key.factAt none ∈ factsOf edges) ∧
      ∀ site, site ∈ used.sites ↔ key.factAt (some site) ∈ factsOf edges := by
  unfold usedObservations at hused
  dsimp only at hused
  split at hused
  · cases hused
  · cases hused
    constructor
    · rw [decide_eq_true_iff]
      refine exists_congr fun edge => ?_
      rw [Finset.mem_filter, factAt_mem_facts h, none_mem_observed, and_assoc]
    · intro site
      rw [Finset.mem_biUnion]
      refine exists_congr fun edge => ?_
      rw [Finset.mem_filter, factAt_mem_facts h, some_mem_observed, mem_toFinset, and_assoc]

omit [DecidableEq K] in
theorem subsumed_iff {facts : Set (SnapshotFact K)} {fact : SnapshotFact K}
    (hkey : snapshotCollectionEdgeKey edge = some (.mentioned, key)) (hfact : fact ∈ edge.facts) :
    Subsumed facts fact ↔ key.factAt fact.site ∈ facts := by
  obtain ⟨hfrom, hto, hkind⟩ := snapshotCollectionEdgeKey_mentioned.mp hkey
  obtain ⟨hfrom', hto', hkind', -⟩ := mem_facts_iff.mp hfact
  unfold Subsumed SnapshotCollectionEdgeKey.factAt
  rw [hkind', hkind, hfrom, hto, ← hfrom', ← hto']
  constructor
  · rintro ⟨kind, heq, hmem⟩
    cases heq
    exact hmem
  · exact fun hmem => ⟨_, rfl, hmem⟩

omit [DecidableEq K] in
theorem not_subsumed {facts : Set (SnapshotFact K)} {fact : SnapshotFact K}
    (hkey : ∀ key, snapshotCollectionEdgeKey edge ≠ some (.mentioned, key))
    (hfact : fact ∈ edge.facts) : ¬Subsumed facts fact := by
  rintro ⟨kind, hkind, -⟩
  rw [(mem_facts_iff.mp hfact).2.2.1] at hkind
  exact hkey ⟨edge.fromNode, edge.toNode, kind⟩
    (snapshotCollectionEdgeKey_mentioned.mpr ⟨rfl, rfl, hkind⟩)

theorem canonicalEdge_of_not_mentioned
    (hkey : ∀ key, snapshotCollectionEdgeKey edge ≠ some (.mentioned, key)) :
    canonicalEdge edges edge = some edge := by
  unfold canonicalEdge
  split
  · rename_i key heq
    exact absurd heq (hkey key)
  · rfl

omit [DecidableEq K] in
/-- What is left of a mentioned edge: its facts without those that a used edge makes as well. -/
theorem withoutUsed_facts {facts : Set (SnapshotFact K)}
    (hkey : snapshotCollectionEdgeKey edge = some (.mentioned, key))
    (hsourceFree : used.sourceFree = true ↔ key.factAt none ∈ facts)
    (hsites : ∀ site, site ∈ used.sites ↔ key.factAt (some site) ∈ facts) (fact : SnapshotFact K) :
    (∃ left, withoutUsed used edge = some left ∧ fact ∈ left.facts) ↔
      fact ∈ edge.facts ∧ ¬Subsumed facts fact := by
  unfold withoutUsed
  by_cases hempty : edge.sites = []
  · rw [if_pos hempty]
    have hnone : fact ∈ edge.facts → fact.site = none := fun hfact => by
      have hsite := (mem_facts_iff.mp hfact).2.2.2
      unfold SnapshotEdge.observed at hsite
      rw [if_pos hempty] at hsite
      exact mem_singleton.mp hsite
    by_cases hfree : used.sourceFree = true
    · rw [if_pos hfree]
      refine ⟨fun ⟨_, h, _⟩ => (by cases h), fun ⟨hfact, hnot⟩ => ?_⟩
      rw [subsumed_iff hkey hfact, hnone hfact] at hnot
      exact absurd (hsourceFree.mp hfree) hnot
    · rw [if_neg hfree]
      constructor
      · rintro ⟨left, hleft, hfact⟩
        cases hleft
        refine ⟨hfact, ?_⟩
        rw [subsumed_iff hkey hfact, hnone hfact]
        exact fun h => hfree (hsourceFree.mpr h)
      · exact fun h => ⟨edge, rfl, h.1⟩
  · rw [if_neg hempty]
    dsimp only
    have hsome : fact ∈ edge.facts → ∃ site ∈ edge.sites, fact.site = some site := fun hfact => by
      have hsite := (mem_facts_iff.mp hfact).2.2.2
      unfold SnapshotEdge.observed at hsite
      rw [if_neg hempty] at hsite
      obtain ⟨site, hsite, heq⟩ := mem_map.mp hsite
      exact ⟨site, hsite, heq.symm⟩
    have hkept : ∀ site ∈ edge.sites, fact ∈ edge.facts → fact.site = some site →
        (site ∈ (edge.sites.filter fun site => site ∉ used.sites) ↔ ¬Subsumed facts fact) := by
      intro site hsite hfact heq
      rw [subsumed_iff hkey hfact, heq, ← hsites, mem_filter, decide_eq_true_iff]
      exact and_iff_right hsite
    have hmem : fact ∈ edge.facts → ∀ site ∈ edge.sites.filter fun site => site ∉ used.sites,
        fact.site = some site → fact ∈ ({ edge with
          sites := edge.sites.filter fun site => site ∉ used.sites } : SnapshotEdge K).facts := by
      intro hfact site hsite heq
      obtain ⟨hfrom, hto, hkind, -⟩ := mem_facts_iff.mp hfact
      refine mem_facts_iff.mpr ⟨hfrom, hto, hkind, ?_⟩
      rw [heq]
      exact some_mem_observed.mpr hsite
    constructor
    · split
      · rintro ⟨left, hleft, -⟩
        cases hleft
      · rename_i hne
        rintro ⟨left, hleft, hfact⟩
        cases hleft
        obtain ⟨hfrom, hto, hkind, hsite⟩ := mem_facts_iff.mp hfact
        unfold SnapshotEdge.observed at hsite
        rw [if_neg hne] at hsite
        obtain ⟨site, hsite, heq⟩ := mem_map.mp hsite
        have hsite' := mem_of_mem_filter hsite
        have hold : fact ∈ edge.facts := by
          refine mem_facts_iff.mpr ⟨hfrom, hto, hkind, ?_⟩
          rw [← heq]
          exact some_mem_observed.mpr hsite'
        exact ⟨hold, (hkept site hsite' hold heq.symm).mp hsite⟩
    · rintro ⟨hfact, hnot⟩
      obtain ⟨site, hsite, heq⟩ := hsome hfact
      have hleft := (hkept site hsite hfact heq).mpr hnot
      rw [if_neg (ne_nil_of_mem hleft)]
      exact ⟨_, rfl, hmem hfact site hleft heq⟩

/-- What is left of an edge: its facts that no used edge makes. -/
theorem canonicalEdge_facts (fact : SnapshotFact K) :
    (∃ left, canonicalEdge edges edge = some left ∧ fact ∈ left.facts) ↔
      fact ∈ edge.facts ∧ ¬Subsumed (factsOf edges) fact := by
  by_cases hmentioned : ∃ key, snapshotCollectionEdgeKey edge = some (.mentioned, key)
  · obtain ⟨key, hkey⟩ := hmentioned
    have htwin := (snapshotCollectionEdgeKey_mentioned.mp hkey).2.2
    unfold canonicalEdge
    rw [hkey]
    dsimp only
    cases hused : usedObservations edges key with
    | none =>
      constructor
      · rintro ⟨left, hleft, hfact⟩
        cases hleft
        refine ⟨hfact, ?_⟩
        rw [subsumed_iff hkey hfact]
        exact usedObservations_none htwin hused _
      · exact fun h => ⟨edge, rfl, h.1⟩
    | some used =>
      obtain ⟨hsourceFree, hsites⟩ := usedObservations_some htwin hused
      exact withoutUsed_facts hkey hsourceFree hsites fact
  · have hnot : ∀ key, snapshotCollectionEdgeKey edge ≠ some (.mentioned, key) :=
      fun key h => hmentioned ⟨key, h⟩
    rw [canonicalEdge_of_not_mentioned hnot]
    constructor
    · rintro ⟨left, hleft, hfact⟩
      cases hleft
      exact ⟨hfact, not_subsumed hnot hfact⟩
    · exact fun h => ⟨edge, rfl, h.1⟩

theorem mem_canonicalizeCollectionEdges :
    left ∈ canonicalizeCollectionEdges edges ↔
      ∃ edge ∈ edges, canonicalEdge edges edge = some left := by
  unfold canonicalizeCollectionEdges
  simp only [Finset.mem_biUnion, Option.mem_toFinset, Option.mem_def]

theorem factsOf_canonicalizeCollectionEdges : factsOf (canonicalizeCollectionEdges edges) =
    factsOf edges \ {fact | Subsumed (factsOf edges) fact} := by
  ext fact
  constructor
  · rintro ⟨left, hleft, hfact⟩
    obtain ⟨edge, hedge, heq⟩ := mem_canonicalizeCollectionEdges.mp hleft
    obtain ⟨hold, hnot⟩ := (canonicalEdge_facts fact).mp ⟨left, heq, hfact⟩
    exact ⟨⟨edge, hedge, hold⟩, hnot⟩
  · rintro ⟨⟨edge, hedge, hfact⟩, hnot⟩
    obtain ⟨left, heq, hleft⟩ := (canonicalEdge_facts fact).mpr ⟨hfact, hnot⟩
    exact ⟨left, mem_canonicalizeCollectionEdges.mpr ⟨edge, hedge, heq⟩, hleft⟩

/-- What is left of an edge has its ends, its kind and some of its sites, and not none of them. -/
theorem canonicalEdge_sites (h : canonicalEdge edges edge = some left) :
    left.fromNode = edge.fromNode ∧ left.toNode = edge.toNode ∧ left.kind = edge.kind ∧
      left.sites.Sublist edge.sites ∧ (left.sites = [] → edge.sites = []) := by
  unfold canonicalEdge at h
  split at h
  · split at h
    · cases h
      exact ⟨rfl, rfl, rfl, List.Sublist.refl _, id⟩
    · unfold withoutUsed at h
      split at h
      · split at h
        · cases h
        · cases h
          exact ⟨rfl, rfl, rfl, List.Sublist.refl _, id⟩
      · dsimp only at h
        split at h
        · cases h
        · rename_i hne
          cases h
          exact ⟨rfl, rfl, rfl, filter_sublist, fun h => absurd h hne⟩
  · cases h
    exact ⟨rfl, rfl, rfl, List.Sublist.refl _, id⟩

/-! ### A second time -/

theorem snapshotCollectionEdgeKey_canonicalEdge (h : canonicalEdge edges edge = some left) :
    snapshotCollectionEdgeKey left = snapshotCollectionEdgeKey edge := by
  obtain ⟨hfrom, hto, hkind, -, -⟩ := canonicalEdge_sites h
  unfold snapshotCollectionEdgeKey
  rw [hfrom, hto, hkind]

/-- Used edges are all kept, and what is left of others is not used. -/
theorem usedObservations_canonicalizeCollectionEdges :
    usedObservations (canonicalizeCollectionEdges edges) key = usedObservations edges key := by
  have hsame : ((canonicalizeCollectionEdges edges).filter fun edge =>
      snapshotCollectionEdgeKey edge = some (.used, key)) =
        edges.filter fun edge => snapshotCollectionEdgeKey edge = some (.used, key) := by
    have hkept : ∀ edge : SnapshotEdge K, snapshotCollectionEdgeKey edge = some (.used, key) →
        canonicalEdge edges edge = some edge := by
      intro edge hkey
      refine canonicalEdge_of_not_mentioned fun key' h => ?_
      rw [hkey] at h
      cases h
    ext edge
    rw [Finset.mem_filter, Finset.mem_filter, mem_canonicalizeCollectionEdges]
    constructor
    · rintro ⟨⟨edge', hedge', heq⟩, hkey⟩
      rw [snapshotCollectionEdgeKey_canonicalEdge heq] at hkey
      rw [hkept edge' hkey] at heq
      cases heq
      exact ⟨hedge', hkey⟩
    · exact fun ⟨hedge, hkey⟩ => ⟨⟨edge, hedge, hkept edge hkey⟩, hkey⟩
  unfold usedObservations
  rw [hsame]

omit [DecidableEq K] in
theorem withoutUsed_withoutUsed (h : withoutUsed used edge = some left) :
    withoutUsed used left = some left := by
  unfold withoutUsed at h
  split at h
  · rename_i hempty
    split at h
    · cases h
    · rename_i hfree
      cases h
      unfold withoutUsed
      rw [if_pos hempty, if_neg hfree]
  · dsimp only at h
    split at h
    · cases h
    · rename_i hne
      cases h
      unfold withoutUsed
      dsimp only
      rw [if_neg hne, filter_filter]
      simp only [Bool.and_self]
      rw [if_neg hne]

theorem canonicalEdge_canonicalEdge (h : canonicalEdge edges edge = some left) :
    canonicalEdge (canonicalizeCollectionEdges edges) left = some left := by
  have hkey := snapshotCollectionEdgeKey_canonicalEdge h
  unfold canonicalEdge at h ⊢
  rw [hkey]
  split
  · rename_i key heq
    rw [heq] at h
    dsimp only at h
    rw [usedObservations_canonicalizeCollectionEdges]
    cases hused : usedObservations edges key with
    | none => rfl
    | some used =>
      rw [hused] at h
      exact withoutUsed_withoutUsed h
  · rfl

theorem canonicalizeCollectionEdges_idem :
    canonicalizeCollectionEdges (canonicalizeCollectionEdges edges) =
      canonicalizeCollectionEdges edges := by
  ext edge
  rw [mem_canonicalizeCollectionEdges]
  constructor
  · rintro ⟨left, hleft, heq⟩
    obtain ⟨edge', -, heq'⟩ := mem_canonicalizeCollectionEdges.mp hleft
    rw [canonicalEdge_canonicalEdge heq'] at heq
    cases heq
    exact hleft
  · intro hedge
    obtain ⟨edge', -, heq⟩ := mem_canonicalizeCollectionEdges.mp hedge
    exact ⟨edge, hedge, canonicalEdge_canonicalEdge heq⟩

end Canonical

/-! ## Items that were selected in the source -/

section Projection

variable {K : Type u}

/-- The fact is about an associated item that was selected at a place in some source. -/
def SnapshotFact.Detached (fact : SnapshotFact K) : Prop :=
  isSourceAssociatedItem fact.kind = true ∧ ∃ site, fact.site = some site ∧ site.isSource = true

/-- The fact as it is told of no owner. -/
def SnapshotFact.detach (fact : SnapshotFact K) : SnapshotFact K :=
  { fact with fromNode := .sourceAssociatedItem }

/-- The facts with those about source items detached. -/
def detachedFacts (facts : Set (SnapshotFact K)) : Set (SnapshotFact K) :=
  {fact | fact ∈ facts ∧ ¬fact.Detached} ∪ SnapshotFact.detach '' {fact ∈ facts | fact.Detached}

/-- Which items were selected in the source, and where. -/
def sourceItems (facts : Set (SnapshotFact K)) : Set (K × Option SnapshotObservationSite) :=
  (fun fact => (fact.toNode, fact.site)) '' {fact ∈ facts | fact.Detached}

theorem isSourceAssociatedItem_iff : isSourceAssociatedItem kind = true ↔
    kind = .selectionProof .sourceAssociatedItem .mentioned := by
  constructor
  · intro h
    unfold isSourceAssociatedItem at h
    split at h
    · rfl
    · cases h
  · rintro rfl
    rfl

theorem detached_iff {edge : SnapshotEdge K} {fact : SnapshotFact K}
    (hkind : isSourceAssociatedItem edge.kind = true) (hfact : fact ∈ edge.facts) :
    fact.Detached ↔ ∃ site ∈ edge.sites, fact.site = some site ∧ site.isSource = true := by
  obtain ⟨-, -, hkind', hsite⟩ := mem_facts_iff.mp hfact
  unfold SnapshotFact.Detached
  rw [hkind', and_iff_right hkind]
  refine exists_congr fun site => ⟨fun h => ⟨?_, h⟩, fun h => h.2⟩
  rw [h.1] at hsite
  exact some_mem_observed.mp hsite

/-- What stays with the owner.  An edge that had a site keeps no fact without one. -/
theorem otherSites_facts {edge : SnapshotEdge K} (fact : SnapshotFact K)
    (hkind : isSourceAssociatedItem edge.kind = true)
    (hlast : (edge.sites.filter fun site => !site.isSource) = [] → edge.sites = []) :
    fact ∈ ({ edge with sites := edge.sites.filter fun site => !site.isSource } :
        SnapshotEdge K).facts ↔ fact ∈ edge.facts ∧ ¬fact.Detached := by
  constructor
  · intro hfact
    obtain ⟨hfrom, hto, hkind', hsite⟩ := mem_facts_iff.mp hfact
    have hold : fact.site ∈ edge.observed := by
      cases heq : fact.site with
      | none =>
        rw [heq] at hsite
        exact none_mem_observed.mpr (hlast (none_mem_observed.mp hsite))
      | some site =>
        rw [heq] at hsite
        exact some_mem_observed.mpr (mem_of_mem_filter (some_mem_observed.mp hsite))
    refine ⟨mem_facts_iff.mpr ⟨hfrom, hto, hkind', hold⟩, ?_⟩
    rintro ⟨-, site, heq, hsource⟩
    rw [heq] at hsite
    have hother := (mem_filter.mp (some_mem_observed.mp hsite)).2
    rw [hsource] at hother
    cases hother
  · rintro ⟨hfact, hnot⟩
    obtain ⟨hfrom, hto, hkind', hsite⟩ := mem_facts_iff.mp hfact
    refine mem_facts_iff.mpr ⟨hfrom, hto, hkind', ?_⟩
    cases heq : fact.site with
    | none =>
      rw [heq] at hsite
      refine none_mem_observed.mpr ?_
      show edge.sites.filter _ = []
      rw [none_mem_observed.mp hsite]
      rfl
    | some site =>
      rw [heq] at hsite
      have hmem := some_mem_observed.mp hsite
      refine some_mem_observed.mpr (mem_filter.mpr ⟨hmem, ?_⟩)
      cases hsource : site.isSource
      · rfl
      · exact absurd ((detached_iff hkind hfact).mpr ⟨site, hmem, heq, hsource⟩) hnot

/-- The edges of no owner say what the owner's facts at source sites said. -/
theorem sourceSites_facts {edge : SnapshotEdge K} (fact : SnapshotFact K)
    (hkind : isSourceAssociatedItem edge.kind = true) :
    (∃ site ∈ edge.sites.filter SnapshotObservationSite.isSource,
        fact = ⟨.sourceAssociatedItem, edge.toNode, edge.kind, some site⟩) ↔
      fact ∈ SnapshotFact.detach '' {fact | fact ∈ edge.facts ∧ fact.Detached} := by
  constructor
  · rintro ⟨site, hsite, rfl⟩
    obtain ⟨hmem, hsource⟩ := mem_filter.mp hsite
    have hfact : (⟨edge.fromNode, edge.toNode, edge.kind, some site⟩ : SnapshotFact K) ∈
        edge.facts := mem_facts_iff.mpr ⟨rfl, rfl, rfl, some_mem_observed.mpr hmem⟩
    exact ⟨_, ⟨hfact, hkind, site, rfl, hsource⟩, rfl⟩
  · rintro ⟨old, ⟨hold, hdetached⟩, rfl⟩
    obtain ⟨site, hmem, heq, hsource⟩ := (detached_iff hkind hold).mp hdetached
    obtain ⟨-, hto, hkind', -⟩ := mem_facts_iff.mp hold
    refine ⟨site, mem_filter.mpr ⟨hmem, hsource⟩, ?_⟩
    unfold SnapshotFact.detach
    rw [hto, hkind', heq]

/-- Every site is a source site or stays. -/
theorem sites_eq_nil_iff {sites : List SnapshotObservationSite} :
    sites = [] ↔ sites.filter SnapshotObservationSite.isSource = [] ∧
      (sites.filter fun site => !site.isSource) = [] := by
  constructor
  · rintro rfl
    exact ⟨rfl, rfl⟩
  · rintro ⟨hsource, hother⟩
    refine eq_nil_iff_forall_not_mem.mpr fun site hsite => ?_
    have h := filter_eq_nil_iff.mp hsource site hsite
    have h' := filter_eq_nil_iff.mp hother site hsite
    rw [Bool.not_eq_true] at h
    rw [h] at h'
    exact h' rfl

theorem mem_projectSourceAssociatedItem {edge edge' : SnapshotEdge K}
    (hkind : isSourceAssociatedItem edge.kind = true) :
    edge' ∈ projectSourceAssociatedItem edge ↔
      (edge' = { edge with sites := edge.sites.filter fun site => !site.isSource } ∧
        ((edge.sites.filter fun site => !site.isSource) = [] → edge.sites = [])) ∨
      ∃ site ∈ edge.sites.filter SnapshotObservationSite.isSource,
        edge' = ⟨.sourceAssociatedItem, edge.toNode, edge.kind, [site]⟩ := by
  unfold projectSourceAssociatedItem
  rw [if_neg (by rw [hkind]; exact Bool.false_ne_true)]
  dsimp only
  by_cases hsource : edge.sites.filter SnapshotObservationSite.isSource = []
  · rw [if_pos hsource, mem_singleton, hsource]
    constructor
    · exact fun h => .inl ⟨h, fun hother => sites_eq_nil_iff.mpr ⟨hsource, hother⟩⟩
    · rintro (h | ⟨_, hmem, -⟩)
      · exact h.1
      · cases hmem
  · rw [if_neg hsource, mem_append, mem_map]
    refine or_congr ?_ (exists_congr fun site => and_congr_right fun _ => eq_comm)
    have hne : edge.sites ≠ [] := fun h => hsource (sites_eq_nil_iff.mp h).1
    split
    · rename_i hother
      exact ⟨fun h => (by cases h), fun h => absurd (h.2 hother) hne⟩
    · rename_i hother
      rw [mem_singleton]
      exact ⟨fun h => ⟨h, fun h => absurd h hother⟩, And.left⟩

/-- The edge keeps its other facts, and its source sites become edges of no owner. -/
theorem projectSourceAssociatedItem_facts (edge : SnapshotEdge K) (fact : SnapshotFact K) :
    (∃ edge' ∈ projectSourceAssociatedItem edge, fact ∈ edge'.facts) ↔
      (fact ∈ edge.facts ∧ ¬fact.Detached) ∨
        fact ∈ SnapshotFact.detach '' {fact | fact ∈ edge.facts ∧ fact.Detached} := by
  by_cases hkind : isSourceAssociatedItem edge.kind = true
  · rw [← sourceSites_facts fact hkind]
    constructor
    · rintro ⟨edge', hedge', hfact⟩
      obtain ⟨rfl, hlast⟩ | ⟨site, hsite, rfl⟩ := (mem_projectSourceAssociatedItem hkind).mp hedge'
      · exact .inl ((otherSites_facts fact hkind hlast).mp hfact)
      · exact .inr ⟨site, hsite, mem_singleton.mp hfact⟩
    · rintro (⟨hfact, hnot⟩ | ⟨site, hsite, rfl⟩)
      · have hlast : (edge.sites.filter fun site => !site.isSource) = [] → edge.sites = [] := by
          intro hother
          have hsite := (mem_facts_iff.mp hfact).2.2.2
          cases heq : fact.site with
          | none =>
            rw [heq] at hsite
            exact none_mem_observed.mp hsite
          | some site =>
            rw [heq] at hsite
            have hmem := some_mem_observed.mp hsite
            refine absurd ((detached_iff hkind hfact).mpr ⟨site, hmem, heq, ?_⟩) hnot
            have hkept := filter_eq_nil_iff.mp hother site hmem
            rwa [Bool.not_eq_true, Bool.not_eq_false'] at hkept
        exact ⟨_, (mem_projectSourceAssociatedItem hkind).mpr (.inl ⟨rfl, hlast⟩),
          (otherSites_facts fact hkind hlast).mpr ⟨hfact, hnot⟩⟩
      · exact ⟨_, (mem_projectSourceAssociatedItem hkind).mpr (.inr ⟨site, hsite, rfl⟩),
          mem_singleton.mpr rfl⟩
  · have hnot : ∀ fact ∈ edge.facts, ¬fact.Detached := fun fact hfact h => by
      refine hkind ?_
      rw [← (mem_facts_iff.mp hfact).2.2.1]
      exact h.1
    unfold projectSourceAssociatedItem
    rw [if_pos (by rw [Bool.not_eq_true] at hkind; rw [hkind]; rfl)]
    simp only [mem_singleton, exists_eq_left]
    constructor
    · exact fun hfact => .inl ⟨hfact, hnot fact hfact⟩
    · rintro (⟨hfact, -⟩ | ⟨old, ⟨hold, hdetached⟩, -⟩)
      · exact hfact
      · exact absurd hdetached (hnot old hold)

/-- Nothing that was used is detached. -/
theorem not_detached_of_usedTwin {fact : SnapshotFact K} (h : usedTwin fact.kind = some kind) :
    ¬({ fact with kind } : SnapshotFact K).Detached := by
  rintro ⟨hkind, -⟩
  dsimp only at hkind
  rw [isSourceAssociatedItem_iff.mp hkind] at h
  unfold usedTwin at h
  split at h
  · cases h
  · cases h
  · cases h

theorem mem_detachedFacts_of_not_detached {facts : Set (SnapshotFact K)} {fact : SnapshotFact K}
    (h : ¬fact.Detached) : fact ∈ detachedFacts facts ↔ fact ∈ facts := by
  constructor
  · rintro (hfact | ⟨old, ⟨-, hdetached⟩, rfl⟩)
    · exact hfact.1
    · exact absurd hdetached h
  · exact fun hfact => .inl ⟨hfact, h⟩

theorem subsumed_detachedFacts {facts : Set (SnapshotFact K)} {fact : SnapshotFact K} :
    Subsumed (detachedFacts facts) fact ↔ Subsumed facts fact :=
  exists_congr fun _ => and_congr_right fun hkind =>
    mem_detachedFacts_of_not_detached (not_detached_of_usedTwin hkind)

/-- A detached fact is known by its item and its site. -/
theorem mem_detachedFacts_of_detached {facts : Set (SnapshotFact K)} {fact : SnapshotFact K}
    (h : fact.Detached) : fact ∈ detachedFacts facts ↔
      fact.fromNode = .sourceAssociatedItem ∧ (fact.toNode, fact.site) ∈ sourceItems facts := by
  constructor
  · rintro (hfact | ⟨old, hold, rfl⟩)
    · exact absurd h hfact.2
    · exact ⟨rfl, old, hold, rfl⟩
  · rintro ⟨hfrom, old, hold, heq⟩
    obtain ⟨hto, hsite⟩ := Prod.mk.inj heq
    refine .inr ⟨old, hold, ?_⟩
    unfold SnapshotFact.detach
    have hkind : old.kind = fact.kind :=
      (isSourceAssociatedItem_iff.mp hold.2.1).trans (isSourceAssociatedItem_iff.mp h.1).symm
    rw [← hfrom, hto, hkind, hsite]

variable [DecidableEq K]

theorem factsOf_project (edges : List (SnapshotEdge K)) :
    factsOf (edges.flatMap projectSourceAssociatedItem).toFinset =
      detachedFacts (factsOf edges.toFinset) := by
  ext fact
  have hleft : fact ∈ factsOf (edges.flatMap projectSourceAssociatedItem).toFinset ↔
      ∃ edge ∈ edges, ∃ edge' ∈ projectSourceAssociatedItem edge, fact ∈ edge'.facts := by
    unfold factsOf
    simp only [Set.mem_ofPred_eq, mem_toFinset, mem_flatMap]
    constructor
    · rintro ⟨edge', ⟨edge, hedge, hedge'⟩, hfact⟩
      exact ⟨edge, hedge, edge', hedge', hfact⟩
    · rintro ⟨edge, hedge, edge', hedge', hfact⟩
      exact ⟨edge', ⟨edge, hedge, hedge'⟩, hfact⟩
  rw [hleft]
  simp only [projectSourceAssociatedItem_facts]
  constructor
  · rintro ⟨edge, hedge, ⟨hfact, hnot⟩ | ⟨old, ⟨hold, hdetached⟩, rfl⟩⟩
    · exact .inl ⟨⟨edge, mem_toFinset.mpr hedge, hfact⟩, hnot⟩
    · exact .inr ⟨old, ⟨⟨edge, mem_toFinset.mpr hedge, hold⟩, hdetached⟩, rfl⟩
  · rintro (⟨⟨edge, hedge, hfact⟩, hnot⟩ | ⟨old, ⟨⟨edge, hedge, hold⟩, hdetached⟩, rfl⟩)
    · exact ⟨edge, mem_toFinset.mp hedge, .inl ⟨hfact, hnot⟩⟩
    · exact ⟨edge, mem_toFinset.mp hedge, .inr ⟨old, ⟨hold, hdetached⟩, rfl⟩⟩

theorem mem_factsOf_snapshotEdges {edges : List (SnapshotEdge K)} {fact : SnapshotFact K} :
    fact ∈ factsOf (snapshotEdges edges) ↔
      fact ∈ detachedFacts (factsOf edges.toFinset) ∧ ¬Subsumed (factsOf edges.toFinset) fact := by
  unfold snapshotEdges
  rw [factsOf_canonicalizeCollectionEdges, factsOf_project, Set.mem_sdiff, Set.mem_ofPred_eq,
    subsumed_detachedFacts]

/-- Where every edge has an owner, no detached fact is one of a used item. -/
theorem not_subsumed_of_owned {edges : List (SnapshotEdge K)}
    (howned : ∀ edge ∈ edges, edge.fromNode ≠ .sourceAssociatedItem) {fact : SnapshotFact K}
    (hfrom : fact.fromNode = .sourceAssociatedItem) :
    ¬Subsumed (factsOf edges.toFinset) fact := by
  rintro ⟨kind, -, edge, hedge, hfact⟩
  refine howned edge (mem_toFinset.mp hedge) ?_
  rw [← (mem_facts_iff.mp hfact).1]
  exact hfrom

end Projection

/-- Canonical edges say all that the edges said, but not that a used item is mentioned where it is
used.  Of the associated items that were selected in the source they say which and where, whoever
owned them, and no more; all others keep their owner. -/
theorem canonicalizeCollectionEdges_facts (K : Type u) [DecidableEq K] :
    (∀ edges : Finset (SnapshotEdge K),
      factsOf (canonicalizeCollectionEdges edges) =
        factsOf edges \ {fact | Subsumed (factsOf edges) fact} ∧
      (∀ left ∈ canonicalizeCollectionEdges edges, ∃ edge ∈ edges,
        left.fromNode = edge.fromNode ∧ left.toNode = edge.toNode ∧ left.kind = edge.kind ∧
          left.sites.Sublist edge.sites ∧ (left.sites = [] → edge.sites = [])) ∧
      canonicalizeCollectionEdges (canonicalizeCollectionEdges edges) =
        canonicalizeCollectionEdges edges) ∧
    (∀ edges edges' : List (SnapshotEdge K),
      (∀ fact : SnapshotFact K, ¬fact.Detached →
        (fact ∈ factsOf edges.toFinset ↔ fact ∈ factsOf edges'.toFinset)) →
      sourceItems (factsOf edges.toFinset) = sourceItems (factsOf edges'.toFinset) →
      factsOf (snapshotEdges edges) = factsOf (snapshotEdges edges')) ∧
    (∀ edges : List (SnapshotEdge K), (∀ edge ∈ edges, edge.fromNode ≠ .sourceAssociatedItem) →
      sourceItems (factsOf (snapshotEdges edges)) = sourceItems (factsOf edges.toFinset)) ∧
    ∀ (edges : List (SnapshotEdge K)) (fact : SnapshotFact K),
      (fact.Detached → fact ∈ factsOf (snapshotEdges edges) →
        fact.fromNode = .sourceAssociatedItem) ∧
      (¬fact.Detached → (fact ∈ factsOf (snapshotEdges edges) ↔
        fact ∈ factsOf edges.toFinset ∧ ¬Subsumed (factsOf edges.toFinset) fact)) := by
  refine ⟨fun edges => ⟨factsOf_canonicalizeCollectionEdges, ?_, canonicalizeCollectionEdges_idem⟩,
    ?_, ?_, ?_⟩
  · intro left hleft
    obtain ⟨edge, hedge, heq⟩ := mem_canonicalizeCollectionEdges.mp hleft
    exact ⟨edge, hedge, canonicalEdge_sites heq⟩
  · intro edges edges' hrest hitems
    ext fact
    have hsubsumed : Subsumed (factsOf edges.toFinset) fact ↔
        Subsumed (factsOf edges'.toFinset) fact :=
      exists_congr fun _ => and_congr_right fun hkind => hrest _ (not_detached_of_usedTwin hkind)
    rw [mem_factsOf_snapshotEdges, mem_factsOf_snapshotEdges, hsubsumed]
    refine and_congr_left fun _ => ?_
    by_cases hdetached : fact.Detached
    · rw [mem_detachedFacts_of_detached hdetached, mem_detachedFacts_of_detached hdetached, hitems]
    · rw [mem_detachedFacts_of_not_detached hdetached, mem_detachedFacts_of_not_detached hdetached]
      exact hrest fact hdetached
  · intro edges howned
    ext ⟨toNode, site⟩
    constructor
    · rintro ⟨fact, ⟨hfact, hdetached⟩, heq⟩
      rw [← heq]
      exact ((mem_detachedFacts_of_detached hdetached).mp (mem_factsOf_snapshotEdges.mp hfact).1).2
    · rintro ⟨old, hold, heq⟩
      have hdetached : old.detach.Detached := hold.2
      refine ⟨old.detach, ⟨mem_factsOf_snapshotEdges.mpr ⟨?_, ?_⟩, hdetached⟩, heq⟩
      · exact (mem_detachedFacts_of_detached hdetached).mpr ⟨rfl, old, hold, rfl⟩
      · exact not_subsumed_of_owned howned rfl
  · intro edges fact
    constructor
    · intro hdetached hfact
      exact ((mem_detachedFacts_of_detached hdetached).mp (mem_factsOf_snapshotEdges.mp hfact).1).1
    · intro hdetached
      rw [mem_factsOf_snapshotEdges, mem_detachedFacts_of_not_detached hdetached]

/-- An owner has selected item 3 at one place of the source. -/
def ownedItem (owner : Nat) : SnapshotEdge Nat :=
  ⟨.node owner, 3, .selectionProof .sourceAssociatedItem .mentioned, [.source ⟨0, 1⟩]⟩

/-- Which of two owners has selected an item makes no difference. -/
theorem canonicalizeCollectionEdges_facts_owners :
    factsOf (snapshotEdges [ownedItem 1]) = factsOf (snapshotEdges [ownedItem 2]) := by
  have hfacts : ∀ owner (fact : SnapshotFact Nat), fact ∈ factsOf [ownedItem owner].toFinset ↔
      fact = ⟨.node owner, 3, .selectionProof .sourceAssociatedItem .mentioned,
        some (.source ⟨0, 1⟩)⟩ := by
    intro owner fact
    simp [factsOf, SnapshotEdge.facts, SnapshotEdge.observed, ownedItem]
  refine (canonicalizeCollectionEdges_facts Nat).2.1 _ _ (fun fact hfact => ?_) ?_
  · rw [hfacts, hfacts]
    constructor <;> rintro rfl <;> exact absurd ⟨rfl, _, rfl, rfl⟩ hfact
  · ext ⟨toNode, site⟩
    constructor <;> rintro ⟨fact, ⟨hfact, hdetached⟩, heq⟩
    · obtain rfl := (hfacts 1 fact).mp hfact
      exact ⟨_, ⟨(hfacts 2 _).mpr rfl, hdetached⟩, heq⟩
    · obtain rfl := (hfacts 2 fact).mp hfact
      exact ⟨_, ⟨(hfacts 1 _).mpr rfl, hdetached⟩, heq⟩

end ItemDependencies
