import ItemDependencies.Source.Basic

/-!
# The rewritten source and its coordinates

A rewrite deletes ranges of the original text.  What is left is a sequence of
pieces, and a position of the output is mapped back through the piece that it
lies in.
-/

namespace ItemDependencies

/-- A run of text that the rewrite kept. -/
structure SourcePiece where
  outputRange : ByteRange
  originalRange : ByteRange
deriving DecidableEq

structure SourceRewrite where
  source : List Char
  pieces : List SourcePiece
  originalLen : Nat
deriving DecidableEq

inductive SourceRewriteError where
  | invalidInventory
  | invalidRetention
  | invalidUseTree
deriving DecidableEq

/-- An offset lies on a character boundary if some prefix of the text has this many bytes. -/
def isCharBoundary : List Char → Nat → Bool
  | _, 0 => true
  | [], _ + 1 => false
  | c :: text, offset + 1 =>
    c.utf8Size ≤ offset + 1 && isCharBoundary text (offset + 1 - c.utf8Size)

namespace SourceRewrite

/-- The piece through which an offset of the output is mapped back.  At a seam the bias says
which of the two pieces it is. -/
def pieceAt (rewrite : SourceRewrite) (offset : Nat) (rightBiased : Bool) : Option SourcePiece :=
  if rightBiased then
    (rewrite.pieces.find? fun piece =>
      piece.outputRange.start ≤ offset && offset < piece.outputRange.stop).orElse fun _ =>
    (rewrite.pieces.find? fun piece => piece.outputRange.start == offset).orElse fun _ =>
    rewrite.pieces.getLast?.filter fun piece => piece.outputRange.stop == offset
  else
    (rewrite.pieces.find? fun piece =>
      piece.outputRange.start < offset && offset ≤ piece.outputRange.stop).orElse fun _ =>
    rewrite.pieces.reverse.find? fun piece => piece.outputRange.stop == offset

def originalOffset (rewrite : SourceRewrite) (offset : Nat) (rightBiased : Bool) :
    Except SourceRewriteError Nat :=
  match rewrite.pieceAt offset rightBiased with
  | none =>
    if offset = 0 ∧ rewrite.pieces = [] then return 0 else throw .invalidInventory
  | some piece =>
    let original := piece.originalRange.start + (offset - piece.outputRange.start)
    if original < u32Size then return original else throw .invalidInventory

def originalRange (rewrite : SourceRewrite) (range : ByteRange) :
    Except SourceRewriteError ByteRange := do
  let sourceLen := utf8Len rewrite.source
  if u32Size ≤ sourceLen then throw .invalidInventory
  if range.stop < range.start ∨ sourceLen < range.stop ∨
      ¬isCharBoundary rewrite.source range.start ∨ ¬isCharBoundary rewrite.source range.stop then
    throw .invalidInventory
  let start ← rewrite.originalOffset range.start true
  let stop ← rewrite.originalOffset range.stop (range.start == range.stop)
  if start ≤ stop then return ⟨start, stop⟩ else throw .invalidInventory

/-- The range of the crate root is the whole output, and is mapped to the whole original. -/
def originalCrateRange (rewrite : SourceRewrite) (range : ByteRange) :
    Except SourceRewriteError ByteRange := do
  let sourceLen := utf8Len rewrite.source
  if u32Size ≤ sourceLen then throw .invalidInventory
  if range ≠ ⟨0, sourceLen⟩ then throw .invalidInventory
  return ⟨0, rewrite.originalLen⟩

end SourceRewrite

end ItemDependencies
