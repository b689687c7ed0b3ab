import ItemDependencies.Definitions.Identity
import ItemDependencies.Expansion.OutputLedger
import ItemDependencies.Library.SortedMap
import ItemDependencies.Retention.SourceSites

/-!
# The classes of a macro's output

Every token that a macro puts out belongs to the smallest product around it, or
to the effect of the owner if there is none.  One sweep over the positions at
which a range starts or ends finds the intervals of equal class.
-/

namespace ItemDependencies

open Library

inductive ExpansionError where
  | incompleteOrigin
  | invalidSpan
  | definition (error : DefinitionError)
deriving DecidableEq

/-- A node of the graph, and the output range from which the compiler made it. -/
@[ext]
structure ObservedProduct where
  output : MacroOutputRange
  product : GraphNode
deriving DecidableEq

/-- The class of a token: the products of one range, by their number, or the effect of an owner. -/
inductive PendingOutputClass where
  | products (id : Nat)
  | ownerEffect (owner : DefinitionId)
deriving DecidableEq

structure PendingOutputClasses where
  intervals : List (MacroOutputRange × PendingOutputClass)
  productClasses : List (List GraphNode)
deriving DecidableEq

namespace OutputClasses

/-- File one product under its range. -/
def addProduct (ledger : ValidatedMacroOutputLedger)
    (productsByRange : SortedMap MacroOutputRange (Finset GraphNode)) (product : ObservedProduct) :
    Except ExpansionError (SortedMap MacroOutputRange (Finset GraphNode)) :=
  let known := (productsByRange.get product.output).getD ∅
  if !ledger.containsLiveOutput product.output || decide (product.product ∈ known) then
    throw .incompleteOrigin
  else return productsByRange.insert product.output (insert product.product known)

structure ProductClasses where
  classByRange : SortedMap MacroOutputRange Nat
  productClasses : List (List GraphNode)

/-- Number one more range.  The numbers are 32-bit. -/
def ProductClasses.add (classes : ProductClasses) (entry : MacroOutputRange × Finset GraphNode) :
    Except ExpansionError ProductClasses :=
  if u32Size ≤ classes.productClasses.length then throw .incompleteOrigin
  else if classes.classByRange.contains entry.1 then throw .incompleteOrigin
  else return {
    classByRange := classes.classByRange.insert entry.1 classes.productClasses.length
    productClasses := classes.productClasses ++ [ascending entry.2] }

/-- The ranges that are open, shortest first. -/
abbrev ActiveRange := Nat ×ₗ Nat ×ₗ Nat

def activeRange (range : MacroOutputRange) : ActiveRange :=
  toLex (range.len, toLex (range.start, range.stop))

structure OutputSweep where
  active : Finset ActiveRange
  /-- The discarded ranges from the one that is looked at on. -/
  discarded : List MacroOutputRange
  classified : List (MacroOutputRange × PendingOutputClass)

section

variable (classByRange : SortedMap MacroOutputRange Nat) (sourceOwner : Option DefinitionId)

def startsAt (position : Nat) : List MacroOutputRange :=
  valuesAt (classByRange.keys.map fun range => (range.start, range)) position

def endsAt (position : Nat) : List MacroOutputRange :=
  valuesAt (classByRange.keys.map fun range => (range.stop, range)) position

def closeRange (active : Finset ActiveRange) (range : MacroOutputRange) :
    Except ExpansionError (Finset ActiveRange) :=
  if activeRange range ∉ active then throw .incompleteOrigin
  else return active.erase (activeRange range)

def openRange (active : Finset ActiveRange) (range : MacroOutputRange) :
    Except ExpansionError (Finset ActiveRange) :=
  if activeRange range ∈ active then throw .incompleteOrigin
  else return insert (activeRange range) active

/-- The class of the tokens that some ranges are open at. -/
def classOf (active : Finset ActiveRange) : Except ExpansionError PendingOutputClass :=
  match (ascending active).head? with
  | some smallest =>
    match classByRange.get ⟨smallest.2.1, smallest.2.2⟩ with
    | some id => return .products id
    | none => throw .incompleteOrigin
  | none =>
    match sourceOwner with
    | some owner => return .ownerEffect owner
    | none => throw .incompleteOrigin

/-- From one position to the next. -/
def sweepStep (sweep : OutputSweep) (pair : Nat × Nat) : Except ExpansionError OutputSweep := do
  let active ← (endsAt classByRange pair.1).foldlM closeRange sweep.active
  let active ← (startsAt classByRange pair.1).foldlM openRange active
  let range : MacroOutputRange := ⟨pair.1, pair.2⟩
  if range.start = range.stop then return { sweep with active := active }
  else
    let discarded := sweep.discarded.dropWhile fun discarded => discarded.stop ≤ pair.1
    if discarded.head?.any fun discarded => discarded.contains range then
      return { sweep with active := active, discarded := discarded }
    else
      let found ← classOf classByRange sourceOwner active
      return {
        active := active
        discarded := discarded
        classified := sweep.classified ++ [(range, found)] }

/-- The positions at which the class may change. -/
def positions (ledger : ValidatedMacroOutputLedger) : List Nat :=
  sortDedup ([0, ledger.outputTokenCount] ++
    classByRange.keys.flatMap (fun range => [range.start, range.stop]) ++
    ledger.discardedOutputs.flatMap fun range => [range.start, range.stop])

end

end OutputClasses

open OutputClasses in
def outputClasses (products : List ObservedProduct) (ledger : ValidatedMacroOutputLedger)
    (sourceOwner : Option DefinitionId) : Except ExpansionError PendingOutputClasses := do
  let productsByRange ← products.foldlM (addProduct ledger) .empty
  let classes ← productsByRange.entries.foldlM ProductClasses.add ⟨.empty, []⟩
  let sweep ← (neighbours (positions classes.classByRange ledger)).foldlM
    (sweepStep classes.classByRange sourceOwner) ⟨∅, ledger.discardedOutputs, []⟩
  let active ← (endsAt classes.classByRange ledger.outputTokenCount).foldlM closeRange sweep.active
  if active ≠ ∅ then throw .incompleteOrigin
  else return ⟨sweep.classified, classes.productClasses⟩

/-! ## The consumer's checks -/

def validateMacroOutputRanges (ranges : List MacroOutputRange) (outputTokenCount : Nat) :
    Except RetentionError Unit :=
  if ranges.isEmpty ||
      (ranges.any fun range => range.stop ≤ range.start || outputTokenCount < range.stop) ||
      (neighbours ranges).any fun pair => pair.2.start ≤ pair.1.stop then
    throw .invalidConstraint
  else return ()

def censusStep (cursor : Nat) (range : MacroOutputRange) : Except RetentionError Nat :=
  if range.start < cursor then throw .invalidConstraint
  else if cursor < range.start then throw .incompleteMacroProductConstraints
  else return range.stop

def validateMacroOutputCensus (outputTokenCount : Nat) (ranges : List MacroOutputRange) :
    Except RetentionError Unit := do
  let cursor ← (ranges.insertionSort (· ≤ ·)).foldlM censusStep 0
  if cursor ≠ outputTokenCount then throw .incompleteMacroProductConstraints
  else return ()

end ItemDependencies
