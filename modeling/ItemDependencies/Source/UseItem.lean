import ItemDependencies.Source.Delimiters
import ItemDependencies.Source.Splice
import ItemDependencies.Source.TokenGuard
import Mathlib.Data.List.MinMax
import Mathlib.Data.List.Sort

/-!
# Rewriting a use item

A use item whose leaves are kept in part loses the segments of its lists that
hold no leaf which is kept.  The lists are found from the smallest brace around
all leaves inwards: a segment in which some leaves are kept and others are not
must have them in a list of its own.
-/

namespace ItemDependencies

open Library

/-- The smallest brace around some leaves. -/
def enclosingBrace (tokens : List SourceToken) (pairs : List DelimiterPair)
    (leaves : List ByteRange) (within : Option ByteRange) : Option DelimiterPair :=
  let candidates := (pairs.filter fun pair => pair.delimiter == .brace).filterMap fun pair =>
    let range := pair.interior tokens
    if within.any (fun outer => !outer.contains range) || !leaves.all range.contains then none
    else some (range.len, pair)
  (candidates.argmin fun entry => toLex (entry.1, toLex (entry.2.opening, entry.2.closing))).map
    Prod.snd

/-- The leaves inside a range. -/
def leavesIn (leaves : List WrittenUnit) (range : ByteRange) : List WrittenUnit :=
  leaves.filter fun leaf => range.contains leaf.fullRange

def isRetained (retained : List SourceUnitId) (leaf : WrittenUnit) : Bool :=
  retained.contains leaf.id

/-- A segment is deleted with the comma behind it, or else with the one before it. -/
def CommaListSegment.deletion (segment : CommaListSegment) : Except SourceRewriteError ByteRange :=
  let deletion : Option ByteRange := match segment.followingComma with
    | some comma => some ⟨segment.range.start, comma.stop⟩
    | none => segment.previousComma.map fun comma => ⟨comma.start, segment.range.stop⟩
  match deletion with
  | none => throw .invalidUseTree
  | some deletion =>
    if deletion.start = deletion.stop then throw .invalidUseTree else return deletion

section Group

variable (tokens : List SourceToken) (pairs : List DelimiterPair) (retained : List SourceUnitId)

/-- What is deleted in one segment, where `nested` rewrites the lists inside it. -/
def segmentDeletions
    (nested : DelimiterPair → List WrittenUnit → Except SourceRewriteError (List ByteRange))
    (pair : DelimiterPair) (leaves : List WrittenUnit) (segment : CommaListSegment) :
    Except SourceRewriteError (List ByteRange) :=
  let segmentLeaves := leavesIn leaves segment.range
  let kept := segmentLeaves.countP (isRetained retained)
  if segmentLeaves.isEmpty then return []
  else if kept = segmentLeaves.length then return []
  else if kept = 0 then do
    let deletion ← segment.deletion
    return [deletion]
  else
    let child := (enclosingBrace tokens pairs (segmentLeaves.map WrittenUnit.fullRange)
      (some segment.range)).filter fun child => child ≠ pair
    match child with
    | none => throw .invalidUseTree
    | some child => nested child segmentLeaves

/-- A leaf belongs to one segment. -/
def assignLeaf (assigned : List SourceUnitId) (leaf : WrittenUnit) :
    Except SourceRewriteError (List SourceUnitId) :=
  if assigned.contains leaf.id then throw .invalidUseTree else return assigned ++ [leaf.id]

structure GroupState where
  assigned : List SourceUnitId
  deletions : List ByteRange

def segmentStep (part : CommaListSegment → Except SourceRewriteError (List ByteRange))
    (leaves : List WrittenUnit) (s : GroupState) (segment : CommaListSegment) :
    Except SourceRewriteError GroupState := do
  let assigned ← (leavesIn leaves segment.range).foldlM assignLeaf s.assigned
  let deletions ← part segment
  return ⟨assigned, s.deletions ++ deletions⟩

/-- What is deleted in a list and the lists inside it, which are nested less than `depth` deep. -/
def rewriteGroup : Nat → DelimiterPair → List WrittenUnit →
    Except SourceRewriteError (List ByteRange)
  | 0, _, _ => throw .invalidUseTree
  | depth + 1, pair, leaves =>
    match commaListSegments tokens pair with
    | .error _ => throw .invalidUseTree
    | .ok segments => do
      let part := segmentDeletions tokens pairs retained (rewriteGroup depth) pair leaves
      let s ← segments.foldlM (segmentStep part leaves) ⟨[], []⟩
      if s.assigned.length ≠ leaves.length then throw .invalidUseTree
      return s.deletions

end Group

/-- The leaves of a use item, in the order of their ranges. -/
def useLeaves (inventory : SourceInventory) (item : WrittenUnit) : List WrittenUnit :=
  (inventory.units.filter fun unit =>
    unit.kind == .useLeaf && unit.parent == some item.id).insertionSort fun a b =>
      a.fullRange ≤ b.fullRange

def rewriteUseItem (tk : Tokenizer) (inventory : SourceInventory) (item : WrittenUnit)
    (retained : List SourceUnitId) : Except SourceRewriteError (List ByteRange) :=
  let leaves := useLeaves inventory item
  let ranges := leaves.map WrittenUnit.fullRange
  if ParserTokenRewriteGuard.overlap ranges then throw .invalidUseTree
  else if leaves.isEmpty then return []
  else
    let retainedCount := leaves.countP (isRetained retained)
    if retainedCount = leaves.length then return []
    else if retainedCount = 0 then throw .invalidRetention
    else
      match tk.tokenizeBalancedRange inventory.original item.fullRange with
      | .error .invalidRange => throw .invalidInventory
      | .error _ => throw .invalidUseTree
      | .ok (tokens, pairs) =>
        match enclosingBrace tokens pairs ranges none with
        | none => throw .invalidUseTree
        | some pair => rewriteGroup tokens pairs retained tokens.length pair leaves

/-! ## What is left of an item -/

/-- Two ranges have a position in common. -/
def ByteRange.Meets (r other : ByteRange) : Prop := r.start < other.stop ∧ other.start < r.stop

def isDeleted (deletions : List ByteRange) (range : ByteRange) : Bool :=
  deletions.any fun deletion => deletion.contains range

/-- The tokens that no deletion takes. -/
def leftTokens (tokens : List SourceToken) (deletions : List ByteRange) : List SourceToken :=
  tokens.filter fun token => !isDeleted deletions token.range

/-- The tokens inside a range. -/
def tokensIn (tokens : List SourceToken) (range : ByteRange) : List SourceToken :=
  tokens.filter fun token => range.contains token.range

/-- The pieces between the commas of a list. -/
def commaPieces (tokens : List SourceToken) : List (List SourceToken) :=
  Brackets.splitTop SourceToken.mark (fun token => token.kind == .comma) [] tokens

/-- A segment that holds a leaf which is kept, or no leaf at all. -/
def CommaListSegment.survives (leaves : List WrittenUnit) (retained : List SourceUnitId)
    (segment : CommaListSegment) : Bool :=
  (leavesIn leaves segment.range).any (isRetained retained) ||
    (leavesIn leaves segment.range).isEmpty

/-- Some text is not only trivia. -/
def NotBlank (tokens : List SourceToken) : Prop := ∃ token ∈ tokens, isTrivia token.kind = false

/-- A token shares with a leaf every segment that the leaf lies in of a list around both: it
belongs to the leaf or to the path that leads to it. -/
def LeadsTo (tokens : List SourceToken) (pairs : List DelimiterPair) (token leaf : ByteRange) :
    Prop :=
  ∀ pair ∈ pairs, pair.delimiter = .brace → (pair.interior tokens).contains leaf = true →
    (pair.interior tokens).contains token = true →
    ∀ segments, commaListSegments tokens pair = .ok segments → ∀ segment ∈ segments,
      segment.range.contains leaf = true → segment.range.contains token = true

/-- What is left of a list: its pieces are what is left of the segments that survive, in their
order.  Behind the last of them a comma may be left. -/
structure GroupLeft (tokens : List SourceToken) (leaves : List WrittenUnit)
    (retained : List SourceUnitId) (left : List SourceToken) (pair : DelimiterPair)
    (segments : List CommaListSegment) : Prop where
  pieces_eq :
    let pieces := commaPieces (tokensIn left (pair.interior tokens))
    let survivors := (segments.filter (CommaListSegment.survives leaves retained)).map
      fun segment =>
      tokensIn left segment.range
    pieces = survivors ∨ pieces = survivors ++ [[]]
  separated : (∀ segment ∈ segments.dropLast, NotBlank (tokensIn tokens segment.range)) →
    ∀ piece ∈ (commaPieces (tokensIn left (pair.interior tokens))).dropLast, NotBlank piece

/-- What is left of a use item of which some leaves are kept. -/
structure UseItemLeft (tokens : List SourceToken) (pairs : List DelimiterPair)
    (leaves : List WrittenUnit) (retained : List SourceUnitId) (left : List SourceToken) :
    Prop where
  balanced : Brackets.Balanced SourceToken.mark left
  retained_left : ∀ leaf ∈ leaves, isRetained retained leaf = true → ∀ token ∈ tokens,
    token.range.Meets leaf.fullRange → token ∈ left
  path_left : ∀ leaf ∈ leaves, isRetained retained leaf = true → ∀ token ∈ tokens,
    LeadsTo tokens pairs token.range leaf.fullRange → token ∈ left
  unretained_gone : ∀ leaf ∈ leaves, isRetained retained leaf = false → ∀ token ∈ left,
    ¬token.range.Meets leaf.fullRange
  groups : ∀ pair ∈ pairs, pair.delimiter = .brace → (∃ token ∈ left, tokens[pair.opening]? =
    some token) → ∃ segments, commaListSegments tokens pair = .ok segments ∧
      GroupLeft tokens leaves retained left pair segments

end ItemDependencies
