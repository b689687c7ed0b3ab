import ItemDependencies.Source.Delimiters
import Mathlib.Data.Finset.Basic
import Mathlib.Data.List.Sort

/-!
# Rewriting a derive attribute

The elements of a derive attribute lie in a list between parentheses, one in each
segment.  An element that is dropped takes its segment and the comma behind it
with it, or the comma before it where the list ends without a comma.
-/

namespace ItemDependencies

structure DeriveListEntryLayout where
  element : ByteRange
  segment : ByteRange
  previousComma : Option ByteRange
  followingComma : Option ByteRange
deriving DecidableEq

/-- The pairs of parentheses around all elements, with their sizes, the smallest first. -/
def deriveContainers (tokens : List SourceToken) (pairs : List DelimiterPair)
    (elements : List ByteRange) : List (Nat × DelimiterPair) :=
  let containers := pairs.filterMap fun pair =>
    if pair.delimiter ≠ .parenthesis then none
    else
      let interior : ByteRange :=
        ⟨(tokenRange tokens pair.opening).stop, (tokenRange tokens pair.closing).start⟩
      if elements.all interior.contains then some (interior.len, pair) else none
  let key : Nat × DelimiterPair → Nat ×ₗ Nat ×ₗ Nat := fun container =>
    toLex (container.1, toLex (container.2.opening, container.2.closing))
  containers.insertionSort fun a b => key a ≤ key b

/-- The parentheses of the list. -/
def deriveList (tokens : List SourceToken) (pairs : List DelimiterPair)
    (elements : List ByteRange) : Except SourceError DelimiterPair :=
  match deriveContainers tokens pairs elements with
  | [] => throw .incompleteDeriveObservation
  | (smallest, pair) :: rest =>
    if rest.head?.any fun candidate => candidate.1 = smallest then
      throw .incompleteDeriveObservation
    else return pair

def TokenKind.isSpace : TokenKind → Bool
  | .whitespace | .lineComment _ | .blockComment _ _ => true
  | _ => false

/-- A segment holds a token that is neither space nor a part of its element. -/
def strayToken (tokens : List SourceToken) (segment : ByteRange) (element : Option ByteRange) :
    Bool :=
  tokens.any fun token => segment.contains token.range && !token.kind.isSpace &&
    element.all fun element => !element.contains token.range

/-- The element of a segment; only a segment behind the last comma may have none. -/
def segmentElement (elements : List ByteRange) (commaCount index : Nat) (segment : ByteRange) :
    Except SourceError (Option ByteRange) :=
  match elements.filter segment.contains with
  | [] =>
    if index = elements.length ∧ commaCount = elements.length then return none
    else throw .incompleteDeriveObservation
  | [element] => return some element
  | _ => throw .incompleteDeriveObservation

/-- One segment; the elements of the segments before it are known. -/
def deriveLayoutStep (tokens : List SourceToken) (elements : List ByteRange) (commaCount : Nat)
    (state : List ByteRange × List DeriveListEntryLayout) (entry : CommaListSegment × Nat) :
    Except SourceError (List ByteRange × List DeriveListEntryLayout) := do
  let segment := entry.1.range
  let element ← segmentElement elements commaCount entry.2 segment
  if element.any state.1.contains then throw .incompleteDeriveObservation
  else if strayToken tokens segment element then throw .incompleteDeriveObservation
  else
    return (state.1 ++ element.toList, state.2 ++ element.toList.map fun element =>
      ⟨element, segment, entry.1.previousComma, entry.1.followingComma⟩)

def deriveListLayout (tokens : List SourceToken) (elements : List ByteRange)
    (segments : List CommaListSegment) : Except SourceError (List DeriveListEntryLayout) :=
  let commaCount := segments.length - 1
  if segments = [] ∨ ¬(commaCount = elements.length - 1 ∨ commaCount = elements.length) then
    throw .incompleteDeriveObservation
  else do
    let (assigned, layout) ← segments.zipIdx.foldlM
      (deriveLayoutStep tokens elements commaCount) ([], [])
    if assigned.length ≠ elements.length then throw .incompleteDeriveObservation
    return layout.insertionSort fun a b => a.element ≤ b.element

/-- Elements with some text that lie in the attribute, each behind the one before it. -/
def elementsValid (source : List Char) (attribute' : ByteRange) (elements : List ByteRange) :
    Bool :=
  validRange source attribute' && !attribute'.isEmpty &&
    (elements.all fun element => !element.isEmpty && attribute'.contains element &&
      validRange source element) &&
    (elements.zip elements.tail).all fun pair => pair.1.stop ≤ pair.2.start

def deriveAttributeLayout (tk : Tokenizer) (source : List Char) (attribute' : ByteRange)
    (elements : List ByteRange) : Except SourceError (List DeriveListEntryLayout) :=
  if !elementsValid source attribute' elements then throw .incompleteDeriveObservation
  else
    match tk.tokenizeBalancedRange source attribute' with
    | .error .sourceTooLarge => throw .sourceTooLarge
    | .error _ => throw .incompleteDeriveObservation
    | .ok (tokens, pairs) => do
      let pair ← deriveList tokens pairs elements
      match commaListSegments tokens pair with
      | .error _ => throw .incompleteDeriveObservation
      | .ok segments => deriveListLayout tokens elements segments

/-! ## Deletions -/

/-- The deletion of a run of entries, which is behind all others or not. -/
def deriveDeletion (atEnd : Bool) (first last : DeriveListEntryLayout) :
    Except SourceRewriteError ByteRange := do
  let deletion : ByteRange ←
    match last.followingComma, first.previousComma with
    | some comma, _ => pure ⟨first.segment.start, comma.stop⟩
    | none, some comma =>
      if atEnd then pure ⟨comma.start, last.segment.stop⟩ else throw .invalidInventory
    | none, none => throw (if atEnd then .invalidRetention else .invalidInventory)
  if deletion.isEmpty then throw .invalidInventory else return deletion

/-- The deletions of the runs of entries that are dropped, behind the run that has begun. -/
def deriveDeletions : Option (DeriveListEntryLayout × DeriveListEntryLayout) →
    List (DeriveListEntryLayout × Bool) → Except SourceRewriteError (List ByteRange)
  | none, [] => return []
  | some run, [] => do
    let deletion ← deriveDeletion true run.1 run.2
    return [deletion]
  | none, (_, true) :: entries => deriveDeletions none entries
  | some run, (_, true) :: entries => do
    let deletion ← deriveDeletion false run.1 run.2
    let deletions ← deriveDeletions none entries
    return deletion :: deletions
  | none, (entry, false) :: entries => deriveDeletions (some (entry, entry)) entries
  | some run, (entry, false) :: entries => deriveDeletions (some (run.1, entry)) entries

/-- A unit that has its id. -/
def unitById (units : List WrittenUnit) (id : SourceUnitId) :
    Except SourceRewriteError WrittenUnit :=
  match units[id.index]?.filter fun unit => unit.id = id with
  | none => throw .invalidInventory
  | some unit => return unit

/-- An entry is retained if the last unit with the range of its element is. -/
def entryRetained (elements : List WrittenUnit) (retained : Finset SourceUnitId)
    (entry : DeriveListEntryLayout) : Except SourceRewriteError Bool :=
  match elements.reverse.find? fun unit => unit.fullRange = entry.element with
  | none => throw .invalidInventory
  | some unit => return decide (unit.id ∈ retained)

def rewriteDeriveAttribute (tk : Tokenizer) (inventory : SourceInventory)
    (facts : DeriveAttributeSourceFacts) (retained : Finset SourceUnitId) :
    Except SourceRewriteError (List ByteRange) := do
  let attribute' ← unitById inventory.units facts.attr
  let elements ← facts.elements.mapM (unitById inventory.units)
  let retainedCount := elements.countP fun element => element.id ∈ retained
  if retainedCount = elements.length then return []
  else if retainedCount = 0 then throw .invalidRetention
  else
    match deriveAttributeLayout tk inventory.original attribute'.fullRange
        (elements.map WrittenUnit.fullRange) with
    | .error _ => throw .invalidInventory
    | .ok layout => do
      let flags ← layout.mapM (entryRetained elements retained)
      deriveDeletions none (layout.zip flags)

end ItemDependencies
