import ItemDependencies.Source.ParserTokens
import ItemDependencies.Source.UnitDepths
import ItemDependencies.Source.Utf8

/-!
# Lexical pieces and their owners

The text is cut into the tokens of the lexer, and each piece belongs to one of
the units around it.  A line comment ends before its CR, which goes with the LF.
-/

namespace ItemDependencies

open Library

/-- What the compiler provides: the length of a leading shebang, and the tokens of a text. -/
structure SourceLexer where
  stripShebang : List Char → Option Nat
  tokenize : List Char → List Token

/-- A piece of the text that has no owner yet. -/
structure RawPiece where
  range : ByteRange
  kind : PieceKind
deriving DecidableEq

def sliceBytes (bytes : List UInt8) (range : ByteRange) : List UInt8 :=
  (bytes.drop range.start).take range.len

/-- The pieces up to an offset. -/
structure RawPieces where
  pieces : List RawPiece
  offset : Nat

def Token.pieceKind (token : Token) : PieceKind := if isTrivia token.kind then .trivia else .token

def TokenKind.isLineComment : TokenKind → Bool
  | .lineComment _ => true
  | _ => false

section

variable (bytes : List UInt8)

/-- Whether the last piece is a CR that has been cut off a comment. -/
def RawPieces.endsWithReturn (raw : RawPieces) : Bool :=
  raw.pieces.getLast?.any fun piece =>
    piece.kind = .trivia && piece.range.stop = raw.offset && sliceBytes bytes piece.range = [13]

/-- Cut off the next token. -/
def RawPieces.push (raw : RawPieces) (token : Token) : RawPieces :=
  let stop := raw.offset + token.len
  let tokenBytes := sliceBytes bytes ⟨raw.offset, stop⟩
  if token.kind.isLineComment ∧ tokenBytes.getLast? = some 13 then
    ⟨raw.pieces ++ [⟨⟨raw.offset, stop - 1⟩, token.pieceKind⟩, ⟨⟨stop - 1, stop⟩, .trivia⟩], stop⟩
  else if token.kind = .whitespace ∧ tokenBytes.head? = some 10 ∧ raw.endsWithReturn bytes then
    let joined := raw.pieces.modifyLast fun piece =>
      { piece with range := ⟨piece.range.start, piece.range.stop + 1⟩ }
    if raw.offset + 1 < stop then ⟨joined ++ [⟨⟨raw.offset + 1, stop⟩, .trivia⟩], stop⟩
    else ⟨joined, stop⟩
  else ⟨raw.pieces ++ [⟨⟨raw.offset, stop⟩, token.pieceKind⟩], stop⟩

end

/-- The pieces for a byte-order mark and a shebang, and the text behind them. -/
def leadingPieces (lexer : SourceLexer) (source : List Char) : RawPieces × List Char :=
  let (mark, input) : RawPieces × List Char :=
    if byteOrderMark.isPrefixOf (utf8Bytes source) then
      (⟨[⟨⟨0, 3⟩, .trivia⟩], 3⟩, (dropBytes source 3).getD [])
    else (⟨[], 0⟩, source)
  match lexer.stripShebang input with
  | none => (mark, input)
  | some length =>
    (⟨mark.pieces ++ [⟨⟨mark.offset, mark.offset + length⟩, .trivia⟩], mark.offset + length⟩,
      (dropBytes input length).getD [])

/-- Deep units come first, then short ones, then those of a high kind, then those of a low id. -/
abbrev OwnerKey := Nat ×ₗ Natᵒᵈ ×ₗ Nat ×ₗ Natᵒᵈ

def ownerKey (depth : Nat) (unit : WrittenUnit) : OwnerKey :=
  toLex (depth, toLex (OrderDual.toDual unit.fullRange.len,
    toLex (unit.kind.rank, OrderDual.toDual unit.id.index)))

def OwnerKey.owner (key : OwnerKey) : SourceUnitId :=
  ⟨OrderDual.ofDual (ofLex (ofLex (ofLex key).2).2).2⟩

/-- The units that have not begun yet, in order of their starts, and a heap of those that have:
their keys and their ends, the greatest first. -/
structure OwnerSweep where
  pending : List WrittenUnit
  active : List (OwnerKey ×ₗ Nat)

section

variable (depths : List Nat)

def openUnit (range : ByteRange) (active : List (OwnerKey ×ₗ Nat)) (unit : WrittenUnit) :
    List (OwnerKey ×ₗ Nat) :=
  if unit.fullRange.stop < range.stop then active
  else active.orderedInsert (· ≥ ·)
    (toLex (ownerKey (depths[unit.id.index]?.getD 0) unit, unit.fullRange.stop))

end

end ItemDependencies
