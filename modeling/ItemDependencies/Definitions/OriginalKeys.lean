import ItemDependencies.Definitions.CanonicalDefinitions
import ItemDependencies.Graph.DefinitionGraph
import ItemDependencies.Library.ListEmbedding
import ItemDependencies.Source.OriginalRanges

/-!
# Definition keys in original coordinates

The definitions of a reduced source are read in the ranges of the output.  Their keys and their
origins are mapped back to the original by two functions, the ranges of the crate root by a rule of
their own.  An embedding tells the keys apart and keeps their order.
-/

namespace ItemDependencies

open Library

-- keys are compared part by part, and parts field by field
deriving instance Ord for DefinitionKeyPart
deriving instance Ord for DefinitionKey

/-- Errors of the dependency graph that a change of coordinates can raise. -/
inductive DependencyError where
  | definition (error : DefinitionError)
  | rewrite (error : SourceRewriteError)
deriving DecidableEq

def normalizeOrigin (coordinates : SourceRewrite) (kind : DefinitionKind) :
    DefinitionOrigin → Except SourceRewriteError DefinitionOrigin
  | .written unit unitRange anchor unitKind unitOrdinal => do
    let unitRange ← normalizeAnchor coordinates kind unitRange
    let anchor ← normalizeAnchor coordinates kind anchor
    return .written unit unitRange anchor unitKind unitOrdinal
  | .expanded invocation invocationRange generatedRole ordinal => do
    let invocationRange ← coordinates.originalRange invocationRange
    return .expanded invocation invocationRange generatedRole ordinal
  | .compilerGenerated role ordinal => return .compilerGenerated role ordinal
  | .injected role ordinal => return .injected role ordinal

def normalizeDefinition (coordinates : SourceRewrite) (definition : Definition) :
    Except SourceRewriteError Definition := do
  let key ← normalizeDefinitionKey coordinates definition.key
  let origin ← normalizeOrigin coordinates definition.kind definition.origin
  return { definition with key := key, origin := origin }

def normalizeDefinitionEdge (coordinates : SourceRewrite) (edge : DefinitionEdge) :
    Except SourceRewriteError DefinitionEdge := do
  let sites ← edge.sites.mapM coordinates.originalRange
  return { edge with sites := sites }

def normalizeDefinitionGraph (graph : DefinitionGraph) (coordinates : SourceRewrite) :
    Except DependencyError DefinitionGraph := do
  let definitions ← (graph.definitions.mapM (normalizeDefinition coordinates)).mapError .rewrite
  let edges ← (graph.edges.mapM (normalizeDefinitionEdge coordinates)).mapError .rewrite
  (DefinitionGraph.new definitions graph.externalDefinitions edges).mapError
    fun _ => .definition .invalidGraph

namespace RangeMap

variable (f : RangeMap)

def anchor (kind : DefinitionKind) (range : ByteRange) : ByteRange :=
  if kind = .crateRoot then f.crateRange else f.range range

def originKey (kind : DefinitionKind) : DefinitionOriginKey → DefinitionOriginKey
  | .written anchor unitKind => .written (f.anchor kind anchor) unitKind
  | .expanded invocationRange generatedRole => .expanded (f.range invocationRange) generatedRole
  | .compilerGenerated role => .compilerGenerated role
  | .injected role => .injected role

def keyPart (part : DefinitionKeyPart) : DefinitionKeyPart :=
  { part with origin := f.originKey part.kind part.origin }

def key (key : DefinitionKey) : DefinitionKey := ⟨key.parts.map f.keyPart⟩

def origin (kind : DefinitionKind) : DefinitionOrigin → DefinitionOrigin
  | .written unit unitRange anchor unitKind unitOrdinal =>
    .written unit (f.anchor kind unitRange) (f.anchor kind anchor) unitKind unitOrdinal
  | .expanded invocation invocationRange generatedRole ordinal =>
    .expanded invocation (f.range invocationRange) generatedRole ordinal
  | .compilerGenerated role ordinal => .compilerGenerated role ordinal
  | .injected role ordinal => .injected role ordinal

def definition (definition : Definition) : Definition :=
  { definition with
    key := f.key definition.key
    origin := f.origin definition.kind definition.origin }

def edge (edge : DefinitionEdge) : DefinitionEdge :=
  { edge with sites := edge.sites.map f.range }

/-- The graph with the ranges in other coordinates, and everything else as it was. -/
def graph (graph : DefinitionGraph) : DefinitionGraph where
  definitions := graph.definitions.map f.definition
  externalDefinitions := graph.externalDefinitions
  edges := graph.edges.map f.edge

@[simp] theorem key_origin (kind : DefinitionKind) (origin : DefinitionOrigin) :
    (f.origin kind origin).key = f.originKey kind origin.key := by
  cases origin <;> rfl

theorem matchesOrdinal_origin {kind : DefinitionKind} (origin : DefinitionOrigin)
    (part : DefinitionKeyPart) : DefinitionGraph.matchesOrdinal (f.origin kind origin)
      (f.keyPart part) = DefinitionGraph.matchesOrdinal origin part := by
  cases origin <;> rfl

theorem expectedSites_origin {kind : DefinitionKind} (hkind : kind ≠ .crateRoot)
    (origin : DefinitionOrigin) : DefinitionGraph.expectedSites (f.origin kind origin) =
      (DefinitionGraph.expectedSites origin).map f.range := by
  cases origin with
  | written unit unitRange anchor unitKind ordinal =>
    show [f.anchor kind anchor] = [f.range anchor]
    rw [RangeMap.anchor, if_neg hkind]
  | expanded => rfl
  | compilerGenerated => rfl
  | injected => rfl

end RangeMap

/-! ## Keys and origins -/

namespace SourceRewrite

variable (rewrite : SourceRewrite)

/-- The crate root stands on the whole output, other definitions on ranges of it. -/
def IsAnchor (kind : DefinitionKind) (r : ByteRange) : Prop :=
  if kind = .crateRoot then r = ⟨0, utf8Len rewrite.source⟩ else rewrite.IsOutputRange r

def IsOriginKey (kind : DefinitionKind) : DefinitionOriginKey → Prop
  | .written anchor _ => rewrite.IsAnchor kind anchor
  | .expanded invocationRange _ => rewrite.IsOutputRange invocationRange
  | .compilerGenerated _ | .injected _ => True

def IsOrigin (kind : DefinitionKind) : DefinitionOrigin → Prop
  | .written _ unitRange anchor _ _ =>
    rewrite.IsAnchor kind unitRange ∧ rewrite.IsAnchor kind anchor
  | .expanded _ invocationRange _ _ => rewrite.IsOutputRange invocationRange
  | .compilerGenerated _ _ | .injected _ _ => True

def IsKey (key : DefinitionKey) : Prop :=
  ∀ part ∈ key.parts, rewrite.IsOriginKey part.kind part.origin

variable {rewrite} {kind kind' : DefinitionKind}

theorem IsOrigin.key {origin : DefinitionOrigin} (h : rewrite.IsOrigin kind origin) :
    rewrite.IsOriginKey kind origin.key := by
  cases origin with
  | written => exact h.2
  | expanded => exact h
  | compilerGenerated => trivial
  | injected => trivial

namespace IsEmbedding

variable {f : RangeMap} (hf : rewrite.IsEmbedding f)
include hf

theorem normalizeAnchor_eq {r : ByteRange} (h : rewrite.IsAnchor kind r) :
    normalizeAnchor rewrite kind r = .ok (f.anchor kind r) := by
  unfold normalizeAnchor RangeMap.anchor
  unfold IsAnchor at h
  split at h
  case isTrue hkind =>
    rw [if_pos hkind, if_pos hkind, h]
    exact hf.crate
  case isFalse hkind =>
    rw [if_neg hkind, if_neg hkind]
    exact hf.range r h

theorem normalizeKeyOrigin_eq {origin : DefinitionOriginKey} (h : rewrite.IsOriginKey kind origin) :
    normalizeKeyOrigin rewrite kind origin = .ok (f.originKey kind origin) := by
  cases origin with
  | written anchor unitKind =>
    rw [normalizeKeyOrigin, hf.normalizeAnchor_eq h]
    rfl
  | expanded invocationRange role =>
    rw [normalizeKeyOrigin, hf.range _ h]
    rfl
  | compilerGenerated => rfl
  | injected => rfl

theorem normalizeDefinitionKey_eq {key : DefinitionKey} (h : rewrite.IsKey key) :
    normalizeDefinitionKey rewrite key = .ok (f.key key) := by
  have hparts : key.parts.mapM (normalizeKeyPart rewrite) = .ok (key.parts.map f.keyPart) := by
    refine mapM_eq_map fun part hpart => ?_
    rw [normalizeKeyPart, hf.normalizeKeyOrigin_eq (h part hpart)]
    rfl
  rw [normalizeDefinitionKey, hparts]
  rfl

theorem normalizeOrigin_eq {origin : DefinitionOrigin} (h : rewrite.IsOrigin kind origin) :
    normalizeOrigin rewrite kind origin = .ok (f.origin kind origin) := by
  cases origin with
  | written unit unitRange anchor unitKind ordinal =>
    rw [normalizeOrigin, hf.normalizeAnchor_eq h.1, hf.normalizeAnchor_eq h.2]
    rfl
  | expanded invocation invocationRange role ordinal =>
    rw [normalizeOrigin, hf.range _ h]
    rfl
  | compilerGenerated => rfl
  | injected => rfl

/-- Anchors of definitions of one kind are told apart. -/
theorem anchor_injOn {r s : ByteRange} (hr : rewrite.IsAnchor kind r) (hs : rewrite.IsAnchor kind s)
    (h : f.anchor kind r = f.anchor kind s) : r = s := by
  unfold IsAnchor at hr hs
  unfold RangeMap.anchor at h
  split at h
  case isTrue hkind =>
    rw [if_pos hkind] at hr hs
    exact hr.trans hs.symm
  case isFalse hkind =>
    rw [if_neg hkind] at hr hs
    exact hf.strictMono.injOn hr hs h

theorem originKey_injOn {origin origin' : DefinitionOriginKey}
    (h : rewrite.IsOriginKey kind origin) (h' : rewrite.IsOriginKey kind origin')
    (heq : f.originKey kind origin = f.originKey kind origin') : origin = origin' := by
  cases origin with
  | written anchor unitKind =>
    cases origin' with
    | written anchor' unitKind' =>
      obtain ⟨hanchor, rfl⟩ := DefinitionOriginKey.written.inj heq
      rw [hf.anchor_injOn h h' hanchor]
    | _ => cases heq
  | expanded invocationRange role =>
    cases origin' with
    | expanded invocationRange' role' =>
      obtain ⟨hrange, rfl⟩ := DefinitionOriginKey.expanded.inj heq
      rw [hf.strictMono.injOn h h' hrange]
    | _ => cases heq
  | compilerGenerated role =>
    cases origin' with
    | compilerGenerated => exact heq
    | _ => cases heq
  | injected role =>
    cases origin' with
    | injected => exact heq
    | _ => cases heq

theorem key_injOn {key key' : DefinitionKey} (h : rewrite.IsKey key) (h' : rewrite.IsKey key')
    (heq : f.key key = f.key key') : key = key' := by
  refine congrArg DefinitionKey.mk (map_injOn (fun part hpart part' hpart' hparts => ?_)
    (DefinitionKey.mk.inj heq))
  obtain ⟨hkind, horigin, hname, hordinal⟩ := DefinitionKeyPart.mk.inj hparts
  obtain ⟨kind, origin, name, ordinal⟩ := part
  obtain ⟨kind', origin', name', ordinal'⟩ := part'
  cases hkind
  cases hname
  cases hordinal
  have hfits := h _ hpart
  have hfits' := h' _ hpart'
  cases hf.originKey_injOn hfits hfits' horigin
  rfl

/-! ### The order of the keys -/

theorem compare_range {r s : ByteRange} (hr : rewrite.IsOutputRange r)
    (hs : rewrite.IsOutputRange s) : compare (f.range r) (f.range s) = compare r s := by
  rw [← cmp_eq_compare, ← cmp_eq_compare]
  exact hf.strictMono.cmp_map_eq hr hs

theorem compare_anchor (hkinds : kind = .crateRoot ↔ kind' = .crateRoot) {r s : ByteRange}
    (hr : rewrite.IsAnchor kind r) (hs : rewrite.IsAnchor kind' s) :
    compare (f.anchor kind r) (f.anchor kind' s) = compare r s := by
  unfold IsAnchor at hr hs
  unfold RangeMap.anchor
  by_cases hkind : kind = .crateRoot
  · have hkind' := hkinds.mp hkind
    rw [if_pos hkind] at hr
    rw [if_pos hkind'] at hs
    rw [if_pos hkind, if_pos hkind', hr, hs, compare_eq_iff_eq.mpr rfl, compare_eq_iff_eq.mpr rfl]
  · have hkind' := fun h => hkind (hkinds.mpr h)
    rw [if_neg hkind] at hr
    rw [if_neg hkind'] at hs
    rw [if_neg hkind, if_neg hkind']
    exact hf.compare_range hr hs

theorem compare_originKey (hkinds : kind = .crateRoot ↔ kind' = .crateRoot)
    {origin origin' : DefinitionOriginKey} (h : rewrite.IsOriginKey kind origin)
    (h' : rewrite.IsOriginKey kind' origin') :
    compare (f.originKey kind origin) (f.originKey kind' origin') = compare origin origin' := by
  cases origin with
  | written anchor unitKind =>
    cases origin' with
    | written anchor' unitKind' =>
      exact congrArg (Ordering.then · _) (hf.compare_anchor hkinds h h')
    | _ => rfl
  | expanded invocationRange role =>
    cases origin' with
    | expanded invocationRange' role' =>
      exact congrArg (Ordering.then · _) (hf.compare_range h h')
    | _ => rfl
  | compilerGenerated role => cases origin' <;> rfl
  | injected role => cases origin' <;> rfl

theorem compare_keyPart {part part' : DefinitionKeyPart}
    (hkinds : part.kind = .crateRoot ↔ part'.kind = .crateRoot)
    (h : rewrite.IsOriginKey part.kind part.origin)
    (h' : rewrite.IsOriginKey part'.kind part'.origin) :
    compare (f.keyPart part) (f.keyPart part') = compare part part' := by
  obtain ⟨kind, origin, name, ordinal⟩ := part
  obtain ⟨kind', origin', name', ordinal'⟩ := part'
  exact congrArg (fun o => (compare kind kind').then (Ordering.then o _))
    (hf.compare_originKey hkinds h h')

/-- Keys whose crate roots stand at the same places are compared as before. -/
theorem compare_key {key key' : DefinitionKey} (h : rewrite.IsKey key) (h' : rewrite.IsKey key')
    (hkinds : ∀ pair ∈ key.parts.zip key'.parts,
      pair.1.kind = .crateRoot ↔ pair.2.kind = .crateRoot) :
    compare (f.key key) (f.key key') = compare key key' := by
  have hparts : compare (key.parts.map f.keyPart) (key'.parts.map f.keyPart) =
      compare key.parts key'.parts := by
    refine compare_map fun pair hpair => ?_
    have hmem := List.of_mem_zip hpair
    exact hf.compare_keyPart (hkinds pair hpair) (h _ hmem.1) (h' _ hmem.2)
  exact congrArg (Ordering.then · _) hparts

end IsEmbedding

end SourceRewrite

end ItemDependencies
