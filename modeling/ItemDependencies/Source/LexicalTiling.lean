import ItemDependencies.Source.LexicalPieces
import Mathlib.Data.List.ModifyLast

/-!
# The pieces tile the text

Each token is cut off at the end of the pieces.  Only a CR that has been cut off
a comment is changed afterwards, and only when an LF follows.
-/

namespace ItemDependencies

open Library List

/-- Ranges that follow one another without gaps, and none of which is empty. -/
def Tiles : Nat → List ByteRange → Nat → Prop
  | start, [], stop => start = stop
  | start, range :: ranges, stop =>
    range.start = start ∧ range.start < range.stop ∧ Tiles range.stop ranges stop

def RawPieces.ranges (raw : RawPieces) : List ByteRange := raw.pieces.map RawPiece.range

/-- A piece that a later token may still change. -/
def Unsettled (bytes : List UInt8) (range : ByteRange) : Prop :=
  sliceBytes bytes range = [13] ∧ bytes[range.stop]? = some 10

/-- The tokens with their ranges. -/
def placed : Nat → List Token → List (Token × ByteRange)
  | _, [] => []
  | offset, token :: tokens =>
    (token, ⟨offset, offset + token.len⟩) :: placed (offset + token.len) tokens

/-- Tokens that tile the text from an offset on.  A line comment begins with two slashes, and an LF
behind it begins a token of whitespace. -/
structure TokenStream (bytes : List UInt8) (offset : Nat) (tokens : List Token) : Prop where
  tiles : Tiles offset ((placed offset tokens).map Prod.snd) bytes.length
  comment : ∀ entry ∈ placed offset tokens, entry.1.kind.isLineComment = true →
    [47, 47] <+: sliceBytes bytes entry.2
  newline : (placed offset tokens).IsChain fun entry next => entry.1.kind.isLineComment = true →
    bytes[next.2.start]? = some 10 → next.1.kind = .whitespace

section

variable {bytes : List UInt8} {start mid stop offset : Nat} {ranges ranges' : List ByteRange}
  {range : ByteRange} {token : Token} {tokens : List Token} {raw : RawPieces}

theorem Tiles.append (h : Tiles start ranges mid) (h' : Tiles mid ranges' stop) :
    Tiles start (ranges ++ ranges') stop := by
  induction ranges generalizing start with
  | nil =>
    cases h
    exact h'
  | cons range ranges ih => exact ⟨h.1, h.2.1, ih h.2.2⟩

theorem Tiles.le (h : Tiles start ranges stop) : start ≤ stop := by
  induction ranges generalizing start with
  | nil => exact h.le
  | cons range ranges ih =>
    have := ih h.2.2
    have := h.1
    have := h.2.1
    omega

theorem sliceBytes_length (start : Nat) (h : stop ≤ bytes.length) :
    (sliceBytes bytes ⟨start, stop⟩).length = stop - start := by
  rw [sliceBytes, length_take, length_drop, ByteRange.len]
  dsimp only
  omega

theorem sliceBytes_head? (bytes : List UInt8) (hne : start < stop) :
    (sliceBytes bytes ⟨start, stop⟩).head? = bytes[start]? := by
  rw [sliceBytes, head?_take, ByteRange.len, if_neg (by dsimp only; omega), head?_drop]

theorem sliceBytes_getLast? (hne : start < stop) (h : stop ≤ bytes.length) :
    (sliceBytes bytes ⟨start, stop⟩).getLast? = bytes[stop - 1]? := by
  rw [getLast?_eq_getElem?, sliceBytes_length start h, sliceBytes, getElem?_take,
    ByteRange.len, if_pos (by dsimp only; omega), getElem?_drop]
  congr 1
  dsimp only
  omega

theorem TokenStream.next (h : TokenStream bytes offset (token :: tokens)) :
    TokenStream bytes (offset + token.len) tokens where
  tiles := h.tiles.2.2
  comment entry hentry := h.comment entry (mem_cons_of_mem _ hentry)
  newline := h.newline.tail

/-- The range of the first token. -/
theorem TokenStream.first (h : TokenStream bytes offset (token :: tokens)) :
    0 < token.len ∧ offset + token.len ≤ bytes.length := by
  have hne : offset < offset + token.len := h.tiles.2.1
  exact ⟨by omega, h.tiles.2.2.le⟩

theorem endsWithReturn_iff : raw.endsWithReturn bytes = true ↔ ∃ front last,
    raw.pieces = front ++ [last] ∧ last.kind = .trivia ∧ last.range.stop = raw.offset ∧
      sliceBytes bytes last.range = [13] := by
  rw [RawPieces.endsWithReturn, Option.any_eq_true]
  constructor
  · rintro ⟨last, hlast, h⟩
    obtain ⟨front, hfront⟩ := getLast?_eq_some_iff.mp hlast
    exact ⟨front, last, hfront, by simpa [and_assoc] using h⟩
  · rintro ⟨front, last, hpieces, h⟩
    exact ⟨last, by simp [hpieces], by simpa [and_assoc] using h⟩

theorem push_comment (hcomment : token.kind.isLineComment = true)
    (h : TokenStream bytes raw.offset (token :: tokens))
    (hreturn : bytes[raw.offset + token.len - 1]? = some 13) :
    raw.push bytes token = ⟨raw.pieces ++
      [⟨⟨raw.offset, raw.offset + token.len - 1⟩, token.pieceKind⟩,
        ⟨⟨raw.offset + token.len - 1, raw.offset + token.len⟩, .trivia⟩],
      raw.offset + token.len⟩ := by
  obtain ⟨hpos, hle⟩ := h.first
  have hlast := sliceBytes_getLast? (Nat.lt_add_of_pos_right hpos) hle
  rw [RawPieces.push]
  exact if_pos ⟨hcomment, hlast.trans hreturn⟩

/-- Where an LF follows a CR that has been cut off, the two are joined. -/
theorem push_join {front : List RawPiece} {last : RawPiece} (hkind : token.kind = .whitespace)
    (h : TokenStream bytes raw.offset (token :: tokens)) (hfeed : bytes[raw.offset]? = some 10)
    (hpieces : raw.pieces = front ++ [last]) (hlast : last.kind = .trivia)
    (hstop : last.range.stop = raw.offset) (hreturn : sliceBytes bytes last.range = [13]) :
    raw.push bytes token = ⟨front ++ ⟨⟨last.range.start, raw.offset + 1⟩, .trivia⟩ ::
      (if raw.offset + 1 < raw.offset + token.len then
        [⟨⟨raw.offset + 1, raw.offset + token.len⟩, .trivia⟩] else []),
      raw.offset + token.len⟩ := by
  obtain ⟨hpos, hle⟩ := h.first
  have hhead := sliceBytes_head? bytes (Nat.lt_add_of_pos_right (n := raw.offset) hpos)
  have hends := endsWithReturn_iff.mpr ⟨front, last, hpieces, hlast, hstop, hreturn⟩
  rw [RawPieces.push]
  dsimp only
  rw [if_neg (by simp [hkind, TokenKind.isLineComment]),
    if_pos ⟨hkind, hhead.trans hfeed, hends⟩, hpieces, modifyLast_concat]
  split <;> simp [hlast, hstop]

theorem push_plain (h : TokenStream bytes raw.offset (token :: tokens))
    (hcomment : token.kind.isLineComment = true → bytes[raw.offset + token.len - 1]? ≠ some 13)
    (hfeed : token.kind = .whitespace → bytes[raw.offset]? = some 10 →
      raw.endsWithReturn bytes = false) :
    raw.push bytes token = ⟨raw.pieces ++
      [⟨⟨raw.offset, raw.offset + token.len⟩, token.pieceKind⟩], raw.offset + token.len⟩ := by
  obtain ⟨hpos, hle⟩ := h.first
  have hhead := sliceBytes_head? bytes (Nat.lt_add_of_pos_right (n := raw.offset) hpos)
  have hlast := sliceBytes_getLast? (Nat.lt_add_of_pos_right hpos) hle
  rw [RawPieces.push]
  dsimp only
  rw [if_neg, if_neg]
  · rintro ⟨hkind, hten, hends⟩
    rw [hfeed hkind (hhead.symm.trans hten)] at hends
    cases hends
  · rintro ⟨hkind, hthirteen⟩
    exact hcomment hkind (hlast.symm.trans hthirteen)

/-- What happens to the pieces when the next token is cut off. -/
inductive Pushed (bytes : List UInt8) (raw : RawPieces) (token : Token) : Prop
  | comment (hcomment : token.kind.isLineComment = true)
      (hreturn : bytes[raw.offset + token.len - 1]? = some 13)
      (h : (raw.push bytes token).ranges = raw.ranges ++
        [⟨raw.offset, raw.offset + token.len - 1⟩,
          ⟨raw.offset + token.len - 1, raw.offset + token.len⟩])
  | join (front : List ByteRange) (last : ByteRange) (hranges : raw.ranges = front ++ [last])
      (hstop : last.stop = raw.offset) (hunsettled : Unsettled bytes last)
      (h : (raw.push bytes token).ranges = front ++ ⟨last.start, raw.offset + 1⟩ ::
        if raw.offset + 1 < raw.offset + token.len then
          [⟨raw.offset + 1, raw.offset + token.len⟩] else [])
  | plain (hcomment : token.kind.isLineComment = true →
      bytes[raw.offset + token.len - 1]? ≠ some 13)
      (hfeed : token.kind = .whitespace → bytes[raw.offset]? = some 10 →
        raw.endsWithReturn bytes = false)
      (h : (raw.push bytes token).ranges = raw.ranges ++ [⟨raw.offset, raw.offset + token.len⟩])

theorem pushed (h : TokenStream bytes raw.offset (token :: tokens)) :
    Pushed bytes raw token ∧ (raw.push bytes token).offset = raw.offset + token.len := by
  by_cases hcomment : token.kind.isLineComment = true ∧ bytes[raw.offset + token.len - 1]? = some 13
  · have heq := push_comment hcomment.1 h hcomment.2
    exact ⟨.comment hcomment.1 hcomment.2 (by simp [heq, RawPieces.ranges]), by rw [heq]⟩
  · have hcomment : token.kind.isLineComment = true →
        bytes[raw.offset + token.len - 1]? ≠ some 13 := fun hkind hreturn =>
      hcomment ⟨hkind, hreturn⟩
    by_cases hjoin : token.kind = .whitespace ∧ bytes[raw.offset]? = some 10 ∧
        raw.endsWithReturn bytes = true
    · obtain ⟨hkind, hfeed, hends⟩ := hjoin
      obtain ⟨front, last, hpieces, hlast, hstop, hreturn⟩ := endsWithReturn_iff.mp hends
      have heq := push_join hkind h hfeed hpieces hlast hstop hreturn
      refine ⟨.join (front.map RawPiece.range) last.range (by simp [RawPieces.ranges, hpieces])
        hstop ⟨hreturn, by rwa [hstop]⟩ ?_, by rw [heq]⟩
      rw [heq]
      dsimp only [RawPieces.ranges]
      split <;> simp
    · have hfeed : token.kind = .whitespace → bytes[raw.offset]? = some 10 →
          raw.endsWithReturn bytes = false := fun hkind hfeed => by
        simpa [hkind, hfeed] using hjoin
      have heq := push_plain h hcomment hfeed
      exact ⟨.plain hcomment hfeed (by simp [heq, RawPieces.ranges]), by rw [heq]⟩

/-- What the lexer guarantees for a text. -/
structure SourceLexer.Reads (lexer : SourceLexer) (source : List Char) : Prop where
  shebang : ∀ text length, lexer.stripShebang text = some length → 0 < length
  stream : TokenStream (utf8Bytes source) (leadingPieces lexer source).1.offset
    (lexer.tokenize (leadingPieces lexer source).2)

section

variable {lexer : SourceLexer} {source : List Char}

end

end

end ItemDependencies
