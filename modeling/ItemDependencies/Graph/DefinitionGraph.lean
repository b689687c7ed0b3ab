import ItemDependencies.Graph.Basic
import ItemDependencies.Library.Ascending
import ItemDependencies.Library.Fallible
import ItemDependencies.Library.SortedMap

/-!
# The definition graph

A definition graph is built from lists in any order.  What comes out is a normal form: the records
in the order of their numbers, and one edge for each source, target and kind, with all its sites.
-/

namespace ItemDependencies

open Library List

inductive GraphError where
  | invalidDefinition
  | invalidExternalDefinition
  | invalidEdge
deriving DecidableEq

theorem DefinitionDependencyKind.ctorIdx_injective :
    Function.Injective DefinitionDependencyKind.ctorIdx := fun a b h => by
  rw [← DefinitionDependencyKind.ofNat_ctorIdx a, h, DefinitionDependencyKind.ofNat_ctorIdx]

/-- The declaration order. -/
instance : LinearOrder DefinitionDependencyKind :=
  LinearOrder.lift' DefinitionDependencyKind.ctorIdx DefinitionDependencyKind.ctorIdx_injective

/-- Local targets come before external ones. -/
def DefinitionTarget.rank : DefinitionTarget → Nat ×ₗ Nat
  | localTarget id => toLex (0, id.index)
  | externalTarget id => toLex (1, id.index)

theorem DefinitionTarget.rank_injective : Function.Injective DefinitionTarget.rank := by
  intro a b h
  rcases a with ⟨⟨_⟩⟩ | ⟨⟨_⟩⟩ <;> rcases b with ⟨⟨_⟩⟩ | ⟨⟨_⟩⟩ <;> simp_all [rank]

instance : LinearOrder DefinitionTarget :=
  LinearOrder.lift' DefinitionTarget.rank DefinitionTarget.rank_injective

namespace DefinitionGraph

/-! ## Construction -/

/-- Edges with the same source, target and kind are one edge. -/
abbrev EdgeKey := DefinitionId ×ₗ DefinitionTarget ×ₗ DefinitionDependencyKind

def edgeKey (edge : DefinitionEdge) : EdgeKey :=
  toLex (edge.fromDefinition, toLex (edge.toTarget, edge.kind))

def sortById (definitions : List Definition) : List Definition :=
  definitions.insertionSort fun a b => a.id ≤ b.id

def sortExternalById (definitions : List ExternalDefinition) : List ExternalDefinition :=
  definitions.insertionSort fun a b => a.id ≤ b.id

/-- Every record has its position as its number. -/
def isDense {α : Type} (index : α → Nat) (records : List α) : Bool :=
  records.zipIdx.all fun entry => index entry.1 = entry.2

def isWrittenRoot (root : Definition) : Bool :=
  root.kind = .crateRoot && root.key.parts.length = 1 &&
    match root.origin with
    | .written _ _ _ .crateRoot _ => true
    | _ => false

/-- The parent comes before the definition, and its key is continued by one part. -/
def extendsParent (definitions : List Definition) (definition : Definition)
    (parent : DefinitionId) : Bool :=
  match definitions[parent.index]? with
  | none => false
  | some record =>
    parent < definition.id && definition.key.parts.length = record.key.parts.length + 1 &&
      record.key.parts <+: definition.key.parts

def matchesOrdinal (origin : DefinitionOrigin) (part : DefinitionKeyPart) : Bool :=
  match origin with
  | .expanded _ _ _ ordinal | .compilerGenerated _ ordinal | .injected _ ordinal =>
    ordinal = part.sameRoleOrdinal
  | .written .. => true

def validDefinition (definitions : List Definition) (definition : Definition) : Bool :=
  match definition.key.parts.getLast? with
  | none => false
  | some part =>
    definition.parent.all (extendsParent definitions definition) &&
      (part.kind = definition.kind && part.origin = definition.origin.key) &&
        matchesOrdinal definition.origin part

def checkDefinitions (definitions : List Definition) : Except GraphError Unit :=
  match definitions.filter fun definition => definition.parent = none with
  | [root] =>
    if !isWrittenRoot root then throw .invalidDefinition
    else if !definitions.all (validDefinition definitions) then throw .invalidDefinition
    else if ¬(definitions.map Definition.key).Nodup then throw .invalidDefinition
    else return ⟨⟩
  | _ => throw .invalidDefinition

def validTarget (definitions : List Definition) (externalDefinitions : List ExternalDefinition) :
    DefinitionTarget → Bool
  | .localTarget target => target.index < definitions.length
  | .externalTarget target => target.index < externalDefinitions.length

def validEdge (definitions : List Definition) (externalDefinitions : List ExternalDefinition)
    (edge : DefinitionEdge) : Bool :=
  (edge.fromDefinition.index < definitions.length &&
    validTarget definitions externalDefinitions edge.toTarget) &&
    (edge.sites.all (fun site => site.start ≤ site.stop) &&
      (edge.kind = .parent || !edge.sites.isEmpty))

def addEdge (definitions : List Definition) (externalDefinitions : List ExternalDefinition)
    (grouped : SortedMap EdgeKey (Finset ByteRange)) (edge : DefinitionEdge) :
    Except GraphError (SortedMap EdgeKey (Finset ByteRange)) :=
  if !validEdge definitions externalDefinitions edge then throw .invalidEdge
  else
    let known := (grouped.get (edgeKey edge)).getD ∅
    return grouped.insert (edgeKey edge) (known ∪ edge.sites.toFinset)

def edgesOf (grouped : SortedMap EdgeKey (Finset ByteRange)) : List DefinitionEdge :=
  grouped.entries.map fun entry =>
    ⟨(ofLex entry.1).1, (ofLex (ofLex entry.1).2).1, (ofLex (ofLex entry.1).2).2, ascending entry.2⟩

/-- The sites of the edge to the parent. -/
def expectedSites : DefinitionOrigin → List ByteRange
  | .written _ _ anchor _ _ => [anchor]
  | .expanded _ invocationRange _ _ => [invocationRange]
  | .compilerGenerated _ _ | .injected _ _ => []

/-- The edges of kind parent of a definition are the one to its parent. -/
def validParentEdges (edges : List DefinitionEdge) (definition : Definition) : Bool :=
  let parentEdges := edges.filter fun edge =>
    edge.fromDefinition = definition.id && edge.kind = .parent
  match definition.parent with
  | none => parentEdges.isEmpty
  | some parent =>
    (parentEdges.filter fun edge => edge.toTarget = .localTarget parent).length = 1 &&
      parentEdges.all fun edge =>
        edge.toTarget = .localTarget parent && edge.sites = expectedSites definition.origin

def new (definitions : List Definition) (externalDefinitions : List ExternalDefinition)
    (edges : List DefinitionEdge) : Except GraphError DefinitionGraph := do
  let definitions := sortById definitions
  let externalDefinitions := sortExternalById externalDefinitions
  if !isDense (fun definition => definition.id.index) definitions then throw .invalidDefinition
  else if !isDense (fun definition => definition.id.index) externalDefinitions then
    throw .invalidExternalDefinition
  else
    checkDefinitions definitions
    if ¬(externalDefinitions.map ExternalDefinition.key).Nodup then
      throw .invalidExternalDefinition
    else
      let grouped ← edges.foldlM (addEdge definitions externalDefinitions) .empty
      let edges := edgesOf grouped
      if !definitions.all (validParentEdges edges) then throw .invalidEdge
      else return ⟨definitions, externalDefinitions, edges⟩

/-! ## Records in order -/

theorem isDense_iff {α : Type} {index : α → Nat} {records : List α} :
    isDense index records = true ↔
      ∀ (i : Nat) record, records[i]? = some record → index record = i := by
  rw [isDense, all_eq_true]
  constructor
  · intro h i record hi
    have hentry : (record, i) ∈ records.zipIdx := mem_zipIdx_iff_getElem?.mpr hi
    exact of_decide_eq_true (h _ hentry)
  · rintro h ⟨record, i⟩ hentry
    exact decide_eq_true (h i record (mem_zipIdx_iff_getElem?.mp hentry))

/-- The records are told apart by their numbers. -/
theorem inj_of_isDense {α : Type} {index : α → Nat} {records : List α}
    (h : isDense index records = true) {a b : α} (ha : a ∈ records) (hb : b ∈ records)
    (heq : index a = index b) : a = b := by
  rw [isDense_iff] at h
  obtain ⟨i, hi⟩ := getElem?_of_mem ha
  obtain ⟨j, hj⟩ := getElem?_of_mem hb
  rw [h i a hi, h j b hj] at heq
  rw [heq, hj] at hi
  exact (Option.some.inj hi).symm

section Sorting

variable {α κ : Type} [LinearOrder κ] {key : α → κ} {index : α → Nat} {l l' : List α}

/-- Records with dense numbers have one order. -/
theorem sort_perm (hkey : ∀ a b, key a = key b → index a = index b) (hperm : l.Perm l')
    (h : isDense index (l.insertionSort fun a b => key a ≤ key b) = true) :
    (l.insertionSort fun a b => key a ≤ key b) = l'.insertionSort fun a b => key a ≤ key b := by
  refine insertionSort_key_perm key hperm fun a ha b hb heq => ?_
  exact inj_of_isDense h ((mem_insertionSort _).mpr ha) ((mem_insertionSort _).mpr hb)
    (hkey a b heq)

/-- Records in the order of their numbers are sorted already. -/
theorem sort_of_isDense (hkey : ∀ a b, index a < index b → key a ≤ key b)
    (h : isDense index l = true) : (l.insertionSort fun a b => key a ≤ key b) = l := by
  have htotal : Std.Total fun a b : α => key a ≤ key b := ⟨fun a b => le_total _ _⟩
  have htrans : IsTrans α fun a b => key a ≤ key b := ⟨fun a b c => le_trans⟩
  rw [isDense_iff] at h
  refine List.Pairwise.insertionSort_eq (pairwise_iff_getElem.mpr fun i j hi hj hij => ?_)
  refine hkey _ _ ?_
  rw [h i _ (getElem?_eq_getElem hi), h j _ (getElem?_eq_getElem hj)]
  exact hij

end Sorting

/-! ## Grouping the edges -/

/-- Each key of an edge has the sites of all edges with this key. -/
structure Grouped (edges : List DefinitionEdge) (grouped : SortedMap EdgeKey (Finset ByteRange)) :
    Prop where
  keys : ∀ key, key ∈ grouped.keys ↔ ∃ edge ∈ edges, edgeKey edge = key
  sites : ∀ key sites, grouped.get key = some sites → ∀ site, site ∈ sites ↔
    ∃ edge ∈ edges, edgeKey edge = key ∧ site ∈ edge.sites

variable {definitions definitions' : List Definition}
  {externalDefinitions externalDefinitions' : List ExternalDefinition}
  {edges edges' : List DefinitionEdge} {grouped grouped' : SortedMap EdgeKey (Finset ByteRange)}

theorem Grouped.add (h : Grouped edges grouped) (edge : DefinitionEdge) :
    Grouped (edges ++ [edge]) (grouped.insert (edgeKey edge)
      ((grouped.get (edgeKey edge)).getD ∅ ∪ edge.sites.toFinset)) where
  keys key := by
    rw [SortedMap.mem_keys_insert, h.keys]
    simp [or_and_right, exists_or, or_comm, eq_comm]
  sites key sites hget site := by
    have hlast : (∃ e ∈ edges ++ [edge], edgeKey e = key ∧ site ∈ e.sites) ↔
        (∃ e ∈ edges, edgeKey e = key ∧ site ∈ e.sites) ∨
          edgeKey edge = key ∧ site ∈ edge.sites := by
      simp [or_and_right, exists_or]
    rw [hlast]
    rw [SortedMap.get_insert] at hget
    split at hget
    case isTrue heq =>
      subst heq
      cases hget
      rw [Finset.mem_union, mem_toFinset]
      refine or_congr ?_ (by simp)
      cases hknown : grouped.get (edgeKey edge) with
      | some known => exact h.sites _ known hknown site
      | none =>
        refine ⟨fun hmem => absurd hmem (Finset.notMem_empty _), ?_⟩
        rintro ⟨other, hother, heq, -⟩
        obtain ⟨known, hknown'⟩ := SortedMap.mem_keys.mp ((h.keys _).mpr ⟨other, hother, heq⟩)
        cases hknown.symm.trans hknown'
    case isFalse hne =>
      rw [h.sites key sites hget]
      exact (or_iff_left fun hlast => hne hlast.1.symm).symm

theorem grouped_ok
    (h : edges.foldlM (addEdge definitions externalDefinitions) .empty = .ok grouped) :
    (∀ edge ∈ edges, validEdge definitions externalDefinitions edge = true) ∧
      Grouped edges grouped := by
  refine foldlM_ok (P := fun done grouped =>
    (∀ edge ∈ done, validEdge definitions externalDefinitions edge = true) ∧ Grouped done grouped)
    (fun done edge s t hs hok => ?_) ⟨by simp, by simp [SortedMap.keys, SortedMap.empty], by simp⟩ h
  unfold addEdge at hok
  obtain ⟨hvalid, hok⟩ := guard_ok hok
  cases hok
  rw [Bool.not_eq_true', Bool.not_eq_false] at hvalid
  refine ⟨fun other hother => ?_, hs.2.add edge⟩
  rcases mem_append.mp hother with hother | hother
  · exact hs.1 other hother
  · cases mem_singleton.mp hother
    exact hvalid

theorem grouped_total (h : ∀ edge ∈ edges, validEdge definitions externalDefinitions edge = true) :
    ∃ grouped, edges.foldlM (addEdge definitions externalDefinitions) .empty = .ok grouped := by
  obtain ⟨grouped, hrun, -⟩ := foldlM_total (f := addEdge definitions externalDefinitions)
    (l := edges) (s := .empty) (P := fun _ _ => True) (fun done edge rest s hsplit _ => by
      unfold addEdge
      rw [h edge (by simp [hsplit])]
      exact ⟨_, rfl, trivial⟩) trivial
  exact ⟨grouped, hrun⟩

theorem validEdge_iff {edge : DefinitionEdge} :
    validEdge definitions externalDefinitions edge = true ↔
      (edge.fromDefinition.index < definitions.length ∧
        validTarget definitions externalDefinitions edge.toTarget = true) ∧
      (∀ site ∈ edge.sites, site.start ≤ site.stop) ∧ (edge.kind = .parent ∨ edge.sites ≠ []) := by
  simp [validEdge]

/-- Two lists of edges say the same. -/
structure SameEdges (edges edges' : List DefinitionEdge) : Prop where
  valid : ∀ definitions externalDefinitions,
    (∀ edge ∈ edges, validEdge definitions externalDefinitions edge = true) ↔
      ∀ edge ∈ edges', validEdge definitions externalDefinitions edge = true
  keys : ∀ key, (∃ edge ∈ edges, edgeKey edge = key) ↔ ∃ edge ∈ edges', edgeKey edge = key
  sites : ∀ key site, (∃ edge ∈ edges, edgeKey edge = key ∧ site ∈ edge.sites) ↔
    ∃ edge ∈ edges', edgeKey edge = key ∧ site ∈ edge.sites

theorem Grouped.unique (h : Grouped edges grouped) (h' : Grouped edges' grouped')
    (hkeys : ∀ key, (∃ edge ∈ edges, edgeKey edge = key) ↔ ∃ edge ∈ edges', edgeKey edge = key)
    (hsites : ∀ key site, (∃ edge ∈ edges, edgeKey edge = key ∧ site ∈ edge.sites) ↔
      ∃ edge ∈ edges', edgeKey edge = key ∧ site ∈ edge.sites) : grouped = grouped' := by
  refine SortedMap.ext_get fun key => ?_
  have hmem : key ∈ grouped.keys ↔ key ∈ grouped'.keys := by rw [h.keys, h'.keys, hkeys]
  rw [SortedMap.mem_keys, SortedMap.mem_keys] at hmem
  cases hget : grouped.get key with
  | none =>
    cases hget' : grouped'.get key with
    | none => rfl
    | some sites =>
      obtain ⟨_, hsome⟩ := hmem.mpr ⟨sites, hget'⟩
      cases hget.symm.trans hsome
  | some sites =>
    obtain ⟨sites', hget'⟩ := hmem.mp ⟨sites, hget⟩
    rw [hget', Option.some.injEq]
    ext site
    rw [h.sites key sites hget, h'.sites key sites' hget', hsites]

theorem mem_edgesOf {edge : DefinitionEdge} : edge ∈ edgesOf grouped ↔
    ∃ sites, grouped.get (edgeKey edge) = some sites ∧ edge.sites = ascending sites := by
  rw [edgesOf, mem_map]
  constructor
  · rintro ⟨⟨key, sites⟩, hentry, rfl⟩
    exact ⟨sites, SortedMap.get_eq_some.mpr hentry, rfl⟩
  · rintro ⟨sites, hget, hsites⟩
    refine ⟨(edgeKey edge, sites), SortedMap.get_eq_some.mp hget, ?_⟩
    cases edge
    cases hsites
    rfl

theorem pairwise_edgesOf (grouped : SortedMap EdgeKey (Finset ByteRange)) :
    (edgesOf grouped).Pairwise fun a b => edgeKey a < edgeKey b :=
  pairwise_map.mpr (pairwise_map.mp grouped.sorted)

/-- The edges that come out say what those say that have been put in. -/
theorem Grouped.facts (h : Grouped edges grouped) :
    (∀ key, (∃ edge ∈ edgesOf grouped, edgeKey edge = key) ↔ ∃ edge ∈ edges, edgeKey edge = key) ∧
    ∀ key site, (∃ edge ∈ edgesOf grouped, edgeKey edge = key ∧ site ∈ edge.sites) ↔
      ∃ edge ∈ edges, edgeKey edge = key ∧ site ∈ edge.sites := by
  have hkeys : ∀ key, (∃ edge ∈ edgesOf grouped, edgeKey edge = key) ↔ key ∈ grouped.keys := by
    intro key
    rw [SortedMap.mem_keys]
    constructor
    · rintro ⟨edge, hedge, rfl⟩
      obtain ⟨sites, hget, -⟩ := mem_edgesOf.mp hedge
      exact ⟨sites, hget⟩
    · rintro ⟨sites, hget⟩
      exact ⟨_, mem_map_of_mem (SortedMap.get_eq_some.mp hget), rfl⟩
  refine ⟨fun key => (hkeys key).trans (h.keys key), fun key site => ⟨?_, ?_⟩⟩
  · rintro ⟨edge, hedge, rfl, hsite⟩
    obtain ⟨sites, hget, hsites⟩ := mem_edgesOf.mp hedge
    rw [hsites, mem_ascending] at hsite
    exact (h.sites _ sites hget site).mp hsite
  · rintro ⟨edge, hedge, rfl, hsite⟩
    obtain ⟨found, hfound, hkey⟩ := (hkeys (edgeKey edge)).mpr ((h.keys _).mpr ⟨edge, hedge, rfl⟩)
    obtain ⟨sites, hget, hsites⟩ := mem_edgesOf.mp hfound
    refine ⟨found, hfound, hkey, ?_⟩
    rw [hsites, mem_ascending, h.sites _ sites hget]
    exact ⟨edge, hedge, hkey.symm, hsite⟩

theorem Grouped.again (h : Grouped edges grouped) : Grouped (edgesOf grouped) grouped where
  keys key := (h.keys key).trans (h.facts.1 key).symm
  sites key sites hget site := (h.sites key sites hget site).trans (h.facts.2 key site).symm

theorem Grouped.valid (h : Grouped edges grouped)
    (hvalid : ∀ edge ∈ edges, validEdge definitions externalDefinitions edge = true) :
    ∀ edge ∈ edgesOf grouped, validEdge definitions externalDefinitions edge = true := by
  intro edge hedge
  obtain ⟨first, hfirst, hkey⟩ := (h.facts.1 (edgeKey edge)).mp ⟨edge, hedge, rfl⟩
  have hfrom : first.fromDefinition = edge.fromDefinition := congrArg (fun k => (ofLex k).1) hkey
  have hto : first.toTarget = edge.toTarget := congrArg (fun k => (ofLex (ofLex k).2).1) hkey
  have hkind : first.kind = edge.kind := congrArg (fun k => (ofLex (ofLex k).2).2) hkey
  have hends := validEdge_iff.mp (hvalid first hfirst)
  rw [hfrom, hto, hkind] at hends
  refine validEdge_iff.mpr ⟨hends.1, fun site hsite => ?_, hends.2.2.imp_right fun hne => ?_⟩
  · obtain ⟨other, hother, -, hsite'⟩ :=
      (h.facts.2 (edgeKey edge) site).mp ⟨edge, hedge, rfl, hsite⟩
    exact (validEdge_iff.mp (hvalid other hother)).2.1 site hsite'
  · -- the edge has the sites of the first edge with its key
    obtain ⟨site, hsite⟩ := exists_mem_of_ne_nil first.sites hne
    obtain ⟨found, hfound, hkey', hsite'⟩ :=
      (h.facts.2 (edgeKey edge) site).mpr ⟨first, hfirst, hkey, hsite⟩
    obtain ⟨sites, hget, hsites⟩ := mem_edgesOf.mp hfound
    obtain ⟨sites', hget', hsites'⟩ := mem_edgesOf.mp hedge
    rw [hkey', hget'] at hget
    cases hget
    rw [hsites, ← hsites'] at hsite'
    exact ne_nil_of_mem hsite'

/-! ## What is accepted -/

/-- The lists are accepted, and the graph is made of them. -/
structure Accepts (definitions : List Definition) (externalDefinitions : List ExternalDefinition)
    (edges : List DefinitionEdge) (graph : DefinitionGraph) : Prop where
  definitions_eq : graph.definitions = sortById definitions
  external_eq : graph.externalDefinitions = sortExternalById externalDefinitions
  dense : isDense (fun definition => definition.id.index) graph.definitions = true
  denseExternal : isDense (fun definition => definition.id.index) graph.externalDefinitions = true
  checked : checkDefinitions graph.definitions = .ok ⟨⟩
  externalKeys : (graph.externalDefinitions.map ExternalDefinition.key).Nodup
  valid : ∀ edge ∈ edges, validEdge graph.definitions graph.externalDefinitions edge = true
  parentEdges : graph.definitions.all (validParentEdges graph.edges) = true
  grouped : ∃ grouped, Grouped edges grouped ∧ graph.edges = edgesOf grouped

theorem new_ok_iff {graph : DefinitionGraph} :
    new definitions externalDefinitions edges = .ok graph ↔
      Accepts definitions externalDefinitions edges graph := by
  constructor
  · intro h
    unfold new at h
    obtain ⟨hdense, h⟩ := guard_ok h
    obtain ⟨hdense', h⟩ := guard_ok h
    obtain ⟨⟨⟩, hchecked, h⟩ := bind_ok h
    obtain ⟨hkeys, h⟩ := guard_ok h
    obtain ⟨grouped, hgrouped, h⟩ := bind_ok h
    obtain ⟨hparents, h⟩ := guard_ok h
    cases h
    rw [Bool.not_eq_true', Bool.not_eq_false] at hdense hdense' hparents
    obtain ⟨hvalid, hsame⟩ := grouped_ok hgrouped
    exact ⟨rfl, rfl, hdense, hdense', hchecked, not_not.mp hkeys, hvalid, hparents, grouped, hsame,
      rfl⟩
  · rintro ⟨hdefinitions, hexternal, hdense, hdense', hchecked, hkeys, hvalid, hparents, grouped,
      hgrouped, hedges⟩
    obtain ⟨found, hfound⟩ := grouped_total hvalid
    have hsame := (grouped_ok hfound).2.unique hgrouped (fun _ => Iff.rfl) fun _ _ => Iff.rfl
    subst hsame
    cases graph
    dsimp only at *
    subst hdefinitions hexternal hedges
    unfold new
    dsimp only
    rw [hdense, hdense']
    rw [Bool.not_true, if_neg Bool.false_ne_true, if_neg Bool.false_ne_true, hchecked]
    show (if _ then _ else _) = _
    rw [if_neg (not_not.mpr hkeys), hfound]
    show (if _ then _ else _) = _
    rw [hparents]
    rfl

end DefinitionGraph

end ItemDependencies
