import ItemDependencies.Graph.DefinitionGraph
import ItemDependencies.Selection.ProofMerging

/-!
# The collector of proofs

Proofs are numbered in the order in which they were first reported; `finish` numbers them in the
order of their keys.
-/

namespace ItemDependencies

open Library

variable {ι κ : Type}

/-! ## Relations -/

inductive SolverRelationKind where
  | traceObligation
  | traceTraitSelection
  | traceProjection
  | traceFulfillment
  | traceCycle
  | queryTraceRoot
  | traitSelectionNested
  | projectionOwner
  | projectionSelectedTrait
  | projectionNested
  | fulfillmentNested
  | cycleMember
  | associatedSelection
  | associatedLeaf
  | associatedDefining
  | associatedFinalizing
  | specializationAncestor
  | selectedImplementation
  | selectedProjectionItem
  | autoTraitProof
  | traitDefinition
deriving DecidableEq

instance : LinearOrder SolverRelationKind :=
  LinearOrder.lift' SolverRelationKind.ctorIdx
    (Function.LeftInverse.injective SolverRelationKind.ofNat_ctorIdx)

inductive SolverRelationTarget (ι : Type) where
  | proof (id : ι)
  | definition (target : DefinitionTarget)

namespace SolverRelationTarget

def rank : SolverRelationTarget ι → ι ⊕ₗ DefinitionTarget
  | proof id => toLex (.inl id)
  | definition target => toLex (.inr target)

theorem rank_injective : Function.Injective (rank : SolverRelationTarget ι → _) := by
  intro a b h
  cases a <;> cases b <;> cases toLex.injective h <;> rfl

instance [LinearOrder ι] : LinearOrder (SolverRelationTarget ι) :=
  LinearOrder.lift' rank rank_injective

def map (f : ι → κ) : SolverRelationTarget ι → SolverRelationTarget κ
  | proof id => proof (f id)
  | definition target => definition target

end SolverRelationTarget

structure SolverRelation (ι : Type) where
  fromProof : ι
  target : SolverRelationTarget ι
  kind : SolverRelationKind
  ordinal : Nat

/-- A place for one relation: the proof it starts from, what it says and its number. -/
abbrev RelationSlot (ι : Type) := ι ×ₗ SolverRelationKind ×ₗ Nat

namespace SolverRelation

def slot (relation : SolverRelation ι) : RelationSlot ι :=
  toLex (relation.fromProof, toLex (relation.kind, relation.ordinal))

theorem eq_of_slot {a b : SolverRelation ι} (hslot : a.slot = b.slot)
    (htarget : a.target = b.target) : a = b := by
  obtain ⟨hfrom, hrest⟩ := Prod.mk.inj (toLex.injective hslot)
  obtain ⟨hkind, hordinal⟩ := Prod.mk.inj (toLex.injective hrest)
  cases a
  cases b
  cases hfrom
  cases htarget
  cases hkind
  cases hordinal
  rfl

def rank (relation : SolverRelation ι) : ι ×ₗ SolverRelationTarget ι ×ₗ SolverRelationKind ×ₗ Nat :=
  toLex (relation.fromProof, toLex (relation.target, toLex (relation.kind, relation.ordinal)))

theorem rank_injective : Function.Injective (rank : SolverRelation ι → _) := by
  intro a b h
  obtain ⟨hfrom, hrest⟩ := Prod.mk.inj (toLex.injective h)
  obtain ⟨htarget, hrest⟩ := Prod.mk.inj (toLex.injective hrest)
  exact eq_of_slot (congrArg toLex (Prod.ext hfrom hrest)) htarget

instance [LinearOrder ι] : LinearOrder (SolverRelation ι) := LinearOrder.lift' rank rank_injective

/-- The key by which the finished relations are sorted. -/
def sortKey (relation : SolverRelation ι) :
    ι ×ₗ SolverRelationKind ×ₗ Nat ×ₗ SolverRelationTarget ι :=
  toLex (relation.fromProof, toLex (relation.kind, toLex (relation.ordinal, relation.target)))

theorem sortKey_injective : Function.Injective (sortKey : SolverRelation ι → _) := by
  intro a b h
  obtain ⟨hfrom, hrest⟩ := Prod.mk.inj (toLex.injective h)
  obtain ⟨hkind, hrest⟩ := Prod.mk.inj (toLex.injective hrest)
  obtain ⟨hordinal, htarget⟩ := Prod.mk.inj (toLex.injective hrest)
  exact eq_of_slot
    (congrArg toLex (Prod.ext hfrom (congrArg toLex (Prod.ext hkind hordinal)))) htarget

def map (f : ι → κ) (relation : SolverRelation ι) : SolverRelation κ :=
  { relation with fromProof := f relation.fromProof, target := relation.target.map f }

/-- The proofs that a relation names. -/
def ids (relation : SolverRelation ι) : List ι :=
  relation.fromProof :: match relation.target with
    | .proof id => [id]
    | .definition _ => []

end SolverRelation

/-! ## Collecting -/

/-- The errors of the functions below. -/
inductive SelectionCollectionError where
  | invalidTrace
  | conflictingProof
  | tooManyProofs

structure SelectionCollector where
  nodes : List KeyedProof
  ids : SortedMap ProofKey ProofId
  relations : Finset (SolverRelation ProofId)
  relationSlots : SortedMap (RelationSlot ProofId) (SolverRelationTarget ProofId)
  conflictingRelation : Bool

structure CollectedSelectionProofs where
  nodes : List KeyedProof
  relations : List (SolverRelation ProofId)
  observedToCanonical : List ProofId

namespace SelectionCollector

/-- Positions are converted to `u32`, which is checked. -/
def ordinal (index : Nat) : Except SelectionCollectionError Nat :=
  if index < u32Size then .ok index else .error .tooManyProofs

def new : SelectionCollector where
  nodes := []
  ids := .empty
  relations := ∅
  relationSlots := .empty
  conflictingRelation := false

variable (collector : SelectionCollector)

/-- A number that the map holds is a position of the list, so the error of the lookup is not
reached. -/
def internNode (node : KeyedProof) :
    Except SelectionCollectionError (SelectionCollector × ProofId) :=
  match collector.ids.get node.key with
  | some id =>
    match collector.nodes[id.index]? with
    | some existing =>
      if (mergeNode existing node).2 then
        .ok ({ collector with
          nodes := collector.nodes.set id.index (mergeNode existing node).1 }, id)
      else .error .conflictingProof
    | none => .error .invalidTrace
  | none => do
    let index ← ordinal collector.nodes.length
    let id : ProofId := ⟨index⟩
    return ({ collector with
      nodes := collector.nodes ++ [{ node with id := id }]
      ids := collector.ids.insert node.key id }, id)

/-- A slot that is filled again with something else is noticed when the collection is finished. -/
def insertRelation (relation : SolverRelation ProofId) : SelectionCollector :=
  { collector with
    relations := insert relation collector.relations
    relationSlots := collector.relationSlots.insert relation.slot relation.target
    conflictingRelation := collector.conflictingRelation ||
      (collector.relationSlots.get relation.slot).any fun existing => existing ≠ relation.target }

end SelectionCollector

/-! ## Finishing -/

/-- The key of a proof that was reported, for comparisons. -/
def keyAt (nodes : List KeyedProof) (id : ProofId) : WithBot ProofKey :=
  nodes[id.index]?.map KeyedProof.key

def canonicalizeProofIds (nodes : List KeyedProof) (ids : List ProofId) :
    Except SelectionCollectionError (List ProofId) :=
  if ids.any fun id => nodes.length ≤ id.index then .error .invalidTrace
  else .ok
    ((ids.insertionSort fun left right => keyAt nodes left ≤ keyAt nodes right).destutter (· ≠ ·))

def ProofNodeKind.isProjection : ProofNodeKind ι → Bool
  | projection .. => true
  | _ => false

def ProofNodeKind.withOwners (owners : List ι) : ProofNodeKind ι → ProofNodeKind ι
  | projection environment aliasTerm sourceKind source outcome selectedTrait selectedImpl
      selectedItem _ nested queryTrace normalizedResult =>
    projection environment aliasTerm sourceKind source outcome selectedTrait selectedImpl
      selectedItem owners nested queryTrace normalizedResult
  | kind => kind

namespace SelectionCollector

variable (collector : SelectionCollector)

/-- The owners of one projection are put in order and related to it. -/
def insertOwnersOf (projection : ProofId) : Except SelectionCollectionError SelectionCollector :=
  match collector.nodes[projection.index]? with
  | none => .error .invalidTrace
  | some node => do
    let owners ← canonicalizeProofIds collector.nodes node.kind.owners
    let stored := { collector with
      nodes := collector.nodes.set projection.index
        { node with kind := node.kind.withOwners owners } }
    owners.zipIdx.foldlM (fun collector entry => do
      let index ← ordinal entry.2
      return collector.insertRelation ⟨projection, .proof entry.1, .projectionOwner, index⟩) stored

def insertProjectionOwnerRelations : Except SelectionCollectionError SelectionCollector :=
  let projections := (collector.nodes.filter fun node => node.kind.isProjection).map fun node =>
    node.id
  projections.foldlM insertOwnersOf collector

end SelectionCollector

def remapped (remap : List κ) (old : ProofId) : Except SelectionCollectionError κ :=
  match remap[old.index]? with
  | some name => .ok name
  | none => .error .invalidTrace

def remapRelation {ε : Type} (rename : ι → Except ε κ) (relation : SolverRelation ι) :
    Except ε (SolverRelation κ) := do
  let fromProof ← rename relation.fromProof
  match relation.target with
  | .proof id => do
    let id ← rename id
    return { relation with fromProof := fromProof, target := .proof id }
  | .definition target =>
    return { relation with fromProof := fromProof, target := .definition target }

namespace SelectionCollector

/-- The new number of each proof.  `order` has the proofs with their old numbers. -/
def canonicalNumbers (order : List (KeyedProof × Nat)) :
    Except SelectionCollectionError (List ProofId) :=
  order.zipIdx.foldlM (fun remap entry => do
    let index ← ordinal entry.2
    return remap.set entry.1.2 ⟨index⟩) (List.replicate order.length ⟨0⟩)

def remapNode (remap : List ProofId) (entry : (KeyedProof × Nat) × Nat) :
    Except SelectionCollectionError KeyedProof := do
  let index ← ordinal entry.2
  let kind ← remapNodeReferences (remapped remap) entry.1.1.kind
  return { entry.1.1 with id := ⟨index⟩, kind }

def finish (collector : SelectionCollector) :
    Except SelectionCollectionError CollectedSelectionProofs := do
  if collector.conflictingRelation then throw .conflictingProof
  let collector ← collector.insertProjectionOwnerRelations
  let order := collector.nodes.zipIdx.insertionSort fun left right => left.1.key ≤ right.1.key
  let remap ← canonicalNumbers order
  let nodes ← order.zipIdx.mapM (remapNode remap)
  let relations ← (ascending collector.relations).mapM (remapRelation (remapped remap))
  return {
    nodes
    relations := relations.insertionSort fun left right => left.sortKey ≤ right.sortKey
    observedToCanonical := remap }

end SelectionCollector

end ItemDependencies
