import ItemDependencies.Library.Fallible
import ItemDependencies.Source.Text
import Mathlib.Data.List.Chain

/-!
# Parser tokens

The text as the parser's token trees see it: the tokens of the lexer without
the trivia between them, with adjacent punctuation glued.  The lexer and the
rule for gluing belong to the compiler and are parameters.

The proofs cut the tokens of the lexer into chunks, which are either trivia or
the parts of one parser token, and the parser tokens of a list of chunks are
found one chunk after the other.
-/

namespace ItemDependencies

open Library List Option

/-! ## Tokens of the lexer -/

/-- The kinds of tokens that are told apart; a lexer may have others. -/
inductive TokenKind where
  | whitespace
  | lineComment (doc : Bool)
  | blockComment (doc terminated : Bool)
  | pound
  | comma
  | openParen
  | closeParen
  | openBrace
  | closeBrace
  | openBracket
  | closeBracket
  | other (code : Nat)
deriving DecidableEq

def isTrivia : TokenKind → Bool
  | .whitespace => true
  | .lineComment doc => !doc
  | .blockComment doc _ => !doc
  | _ => false

/-- A token of the lexer, with its length in bytes. -/
structure Token where
  kind : TokenKind
  len : Nat
deriving DecidableEq

/-- The punctuation of the parser; gluing makes other kinds. -/
inductive AstTokenKind where
  | eq
  | lt
  | gt
  | bang
  | tilde
  | plus
  | minus
  | star
  | slash
  | percent
  | caret
  | and
  | or
  | at
  | dot
  | comma
  | semi
  | colon
  | pound
  | dollar
  | question
  | singleQuote
  | glued (code : Nat)
deriving DecidableEq

/-- What the compiler provides: the next token of a text, and which punctuation is glued. -/
structure Tokenizer where
  next : List Char → Option Token
  glue : AstTokenKind → AstTokenKind → Option AstTokenKind
  next_pos : ∀ text token, next text = some token → 0 < token.len

/-- The punctuation of one character. -/
def punctuationTable : List (Char × AstTokenKind) :=
  [('=', .eq), ('<', .lt), ('>', .gt), ('!', .bang), ('~', .tilde), ('+', .plus), ('-', .minus),
    ('*', .star), ('/', .slash), ('%', .percent), ('^', .caret), ('&', .and), ('|', .or),
    ('@', .at), ('.', .dot), (',', .comma), (';', .semi), (':', .colon), ('#', .pound),
    ('$', .dollar), ('?', .question), ('\'', .singleQuote)]

def parserPunctuation : List Char → Option AstTokenKind
  | [c] => punctuationTable.lookup c
  | _ => none

inductive SourceSyntaxError where
  | invalidRange
  | sourceTooLarge
  | invalidSyntax
deriving DecidableEq

structure ParserToken where
  range : ByteRange
  text : List Char
  lexerKind : TokenKind
  punctuation : Option AstTokenKind
deriving DecidableEq

def ParserToken.sameIdentity (token other : ParserToken) : Bool :=
  token.text == other.text && token.lexerKind == other.lexerKind &&
    token.punctuation == other.punctuation

namespace Tokenizer

variable (tk : Tokenizer)

/-- The tokens of a text, each the next one of what the earlier ones leave. -/
def tokenizeFrom : Nat → List Char → List Token
  | 0, _ => []
  | limit + 1, text =>
    match tk.next text with
    | none => []
    | some token =>
      token :: match dropBytes text token.len with
        | none => []
        | some rest => tokenizeFrom limit rest

/-- The tokens of a text; each has at least one character. -/
def tokenize (text : List Char) : List Token := tk.tokenizeFrom (text.length + 1) text

/-! ## Parser tokens -/

structure ParserTokenState where
  tokens : List ParserToken
  offset : Nat
  separated : Bool

/-- The last token and the punctuation that it becomes with the text that follows it. -/
def glued (s : ParserTokenState) (text : List Char) : Option (ParserToken × AstTokenKind) :=
  if s.separated then none
  else
    s.tokens.getLast?.bind fun previous =>
      if previous.range.stop = s.offset then
        previous.punctuation.bind fun previousKind =>
          (parserPunctuation text).bind fun currentKind =>
            (tk.glue previousKind currentKind).map fun kind => (previous, kind)
      else none

def pushToken (s : ParserTokenState) (kind : TokenKind) (text : List Char) (stop : Nat) :
    List ParserToken :=
  match tk.glued s text with
  | some (previous, punctuation) =>
    s.tokens.dropLast ++ [⟨⟨previous.range.start, stop⟩, previous.text ++ text,
      previous.lexerKind, some punctuation⟩]
  | none => s.tokens ++ [⟨⟨s.offset, stop⟩, text, kind, parserPunctuation text⟩]

def parserTokenStep (source : List Char) (s : ParserTokenState) (token : Token) :
    Except SourceSyntaxError ParserTokenState :=
  let stop := s.offset + token.len
  if u32Size ≤ stop then throw .sourceTooLarge
  else
    match textRange source s.offset stop with
    | none => throw .invalidSyntax
    | some text =>
      if isTrivia token.kind then return { s with separated := true, offset := stop }
      else return ⟨tk.pushToken s token.kind text stop, stop, false⟩

def tokenizeParserTokens (source : List Char) : Except SourceSyntaxError (List ParserToken) := do
  let s ← (tk.tokenize source).foldlM (tk.parserTokenStep source) ⟨[], 0, true⟩
  if s.offset ≠ utf8Len source then throw .invalidSyntax
  return s.tokens

end Tokenizer

/-! ## Lexing as a relation -/

/-- A token of the lexer with its text. -/
structure RawToken where
  kind : TokenKind
  text : List Char

namespace RawToken

def token (raw : RawToken) : Token := ⟨raw.kind, utf8Len raw.text⟩

/-- The text of some tokens. -/
def textOf (raws : List RawToken) : List Char := raws.flatMap RawToken.text

@[simp] theorem textOf_nil : textOf [] = [] := rfl

@[simp] theorem textOf_cons (raw : RawToken) (raws : List RawToken) :
    textOf (raw :: raws) = raw.text ++ textOf raws := rfl

@[simp] theorem textOf_append (raws raws' : List RawToken) :
    textOf (raws ++ raws') = textOf raws ++ textOf raws' := flatMap_append

end RawToken

open RawToken

/-- The lexer cuts the whole text into some tokens. -/
inductive Lexes (tk : Tokenizer) : List RawToken → Prop
  | nil (h : tk.next [] = none) : Lexes tk []
  | cons {raw : RawToken} {raws : List RawToken}
      (h : tk.next (textOf (raw :: raws)) = some raw.token) (hrest : Lexes tk raws) :
      Lexes tk (raw :: raws)

section Lexing

variable {tk : Tokenizer}

theorem Lexes.text_ne_nil {raws : List RawToken} (h : Lexes tk raws) :
    ∀ raw ∈ raws, raw.text ≠ [] := by
  induction h with
  | nil => simp
  | cons hnext _ ih =>
    intro raw hraw
    rcases mem_cons.mp hraw with rfl | hraw
    · intro hnil
      have := tk.next_pos _ _ hnext
      simp [RawToken.token, hnil] at this
    · exact ih raw hraw

theorem Lexes.next_nil {raws : List RawToken} (h : Lexes tk raws) : tk.next [] = none := by
  induction h with
  | nil hnext => exact hnext
  | cons _ _ ih => exact ih

theorem splitBytes_append (front rest : List Char) :
    dropBytes (front ++ rest) (utf8Len front) = some rest ∧
      takeBytes (front ++ rest) (utf8Len front) = some front := by
  induction front with
  | nil => cases rest <;> exact ⟨rfl, rfl⟩
  | cons c front ih =>
    have hpos : 0 < c.utf8Size := Char.utf8Size_pos c
    obtain ⟨n, hn⟩ : ∃ n, utf8Len (c :: front) = n + 1 :=
      ⟨c.utf8Size - 1 + utf8Len front, by rw [utf8Len_cons]; omega⟩
    have hsize : c.utf8Size ≤ n + 1 := by rw [utf8Len_cons] at hn; omega
    have hrest : n + 1 - c.utf8Size = utf8Len front := by rw [utf8Len_cons] at hn; omega
    rw [hn, cons_append, dropBytes, takeBytes, if_pos hsize, if_pos hsize, hrest, ih.1, ih.2]
    exact ⟨rfl, rfl⟩

theorem dropBytes_append (front rest : List Char) :
    dropBytes (front ++ rest) (utf8Len front) = some rest :=
  (splitBytes_append front rest).1

theorem takeBytes_append (front rest : List Char) :
    takeBytes (front ++ rest) (utf8Len front) = some front :=
  (splitBytes_append front rest).2

theorem textRange_append (front mid rest : List Char) :
    textRange (front ++ (mid ++ rest)) (utf8Len front) (utf8Len front + utf8Len mid) =
      some mid := by
  rw [textRange, if_pos (Nat.le_add_right _ _), dropBytes_append, bind_some,
    Nat.add_sub_cancel_left, takeBytes_append]

theorem length_le_length_textOf {raws : List RawToken} (h : ∀ raw ∈ raws, raw.text ≠ []) :
    raws.length ≤ (textOf raws).length := by
  induction raws with
  | nil => exact le_rfl
  | cons raw raws ih =>
    have hraw := length_pos_iff.mpr (h raw (by simp))
    have hrest := ih fun r hr => h r (by simp [hr])
    rw [textOf_cons, length_append, length_cons]
    omega

/-- Enough rounds find all the tokens. -/
theorem Lexes.tokenizeFrom {raws : List RawToken} (h : Lexes tk raws) (limit : Nat)
    (hlimit : raws.length < limit) :
    tk.tokenizeFrom limit (textOf raws) = raws.map RawToken.token := by
  induction h generalizing limit with
  | nil hnext =>
    obtain ⟨limit, rfl⟩ := Nat.exists_eq_add_one.mpr hlimit
    rw [textOf_nil, Tokenizer.tokenizeFrom, hnext]
    rfl
  | cons hnext _ ih =>
    rename_i raw raws _
    obtain ⟨limit, rfl⟩ := Nat.exists_eq_add_one.mpr (Nat.zero_lt_of_lt hlimit)
    rw [Tokenizer.tokenizeFrom, hnext, textOf_cons]
    simp only [RawToken.token, dropBytes_append]
    rw [ih limit (Nat.lt_of_succ_lt_succ hlimit)]
    rfl

theorem Lexes.tokenize {raws : List RawToken} (h : Lexes tk raws) :
    tk.tokenize (textOf raws) = raws.map RawToken.token :=
  h.tokenizeFrom _ (Nat.lt_succ_of_le (length_le_length_textOf h.text_ne_nil))

theorem eq_nil_of_utf8Len_eq_zero {text : List Char} (h : utf8Len text = 0) : text = [] := by
  cases text with
  | nil => rfl
  | cons c text =>
    have hpos : 0 < c.utf8Size := Char.utf8Size_pos c
    rw [utf8Len_cons] at h
    omega

end Lexing

variable {tokens : List ParserToken}

namespace Tokenizer

variable (tk : Tokenizer)

/-- One token of the lexer, without the checks that it passes. -/
def advance (s : ParserTokenState) (raw : RawToken) : ParserTokenState :=
  let stop := s.offset + utf8Len raw.text
  if isTrivia raw.kind then { s with separated := true, offset := stop }
  else ⟨tk.pushToken s raw.kind raw.text stop, stop, false⟩

/-- The parser tokens of some tokens of the lexer. -/
def parse (raws : List RawToken) : List ParserToken := (raws.foldl tk.advance ⟨[], 0, true⟩).tokens

variable {tk} {source : List Char} {s s' : ParserTokenState} {raw : RawToken}

@[simp] theorem offset_advance : (tk.advance s raw).offset = s.offset + utf8Len raw.text := by
  unfold advance
  simp only
  split <;> rfl

theorem parserTokenStep_eq {front rest : List Char} (hsource : source = front ++ (raw.text ++ rest))
    (hoffset : s.offset = utf8Len front) (hsize : utf8Len source < u32Size) :
    tk.parserTokenStep source s raw.token = .ok (tk.advance s raw) := by
  have hstop : ¬u32Size ≤ s.offset + raw.token.len := by
    rw [hsource, utf8Len_append, utf8Len_append] at hsize
    simp only [RawToken.token]
    omega
  have hrange : textRange source s.offset (s.offset + raw.token.len) = some raw.text := by
    rw [hsource, hoffset]
    exact textRange_append front raw.text rest
  unfold parserTokenStep advance
  simp only [hstop, if_false, hrange]
  by_cases ht : isTrivia raw.kind = true
  · simp only [RawToken.token, ht, if_true]
    rfl
  · simp only [RawToken.token, ht]
    rfl

/-- A text that the lexer cuts up has the parser tokens of its pieces. -/
theorem tokenizeParserTokens_of_lexes {raws : List RawToken} (h : Lexes tk raws)
    (hsize : utf8Len (textOf raws) < u32Size) :
    tk.tokenizeParserTokens (textOf raws) = .ok (tk.parse raws) := by
  have key : ∀ (rest done : List RawToken) (s : ParserTokenState), raws = done ++ rest →
      s.offset = utf8Len (textOf done) →
      (rest.map RawToken.token).foldlM (tk.parserTokenStep (textOf raws)) s =
        .ok (rest.foldl tk.advance s) ∧
      (rest.foldl tk.advance s).offset = utf8Len (textOf raws) := by
    intro rest
    induction rest with
    | nil =>
      intro done s hraws hoffset
      rw [append_nil] at hraws
      exact ⟨rfl, hraws ▸ hoffset⟩
    | cons raw rest ih =>
      intro done s hraws hoffset
      have hstep : tk.parserTokenStep (textOf raws) s raw.token = .ok (tk.advance s raw) :=
        parserTokenStep_eq (by rw [hraws, textOf_append, textOf_cons]) hoffset hsize
      rw [map_cons, foldlM_cons, hstep]
      refine ih (done ++ [raw]) _ (by simp [hraws]) ?_
      rw [offset_advance, hoffset, textOf_append, utf8Len_append]
      simp
  obtain ⟨hrun, hoffset⟩ := key raws [] ⟨[], 0, true⟩ rfl rfl
  unfold tokenizeParserTokens
  rw [h.tokenize, hrun]
  simp only [bind, Except.bind, hoffset, ne_eq, not_true_eq_false, if_false]
  rfl

/-- A text that has parser tokens is cut up by the lexer. -/
theorem tokenizeParserTokens_ok (h : tk.tokenizeParserTokens source = .ok tokens) :
    utf8Len source < u32Size ∧
      ∃ raws, Lexes tk raws ∧ textOf raws = source ∧ tk.parse raws = tokens := by
  unfold tokenizeParserTokens at h
  obtain ⟨final, hrun, h⟩ := bind_ok h
  obtain ⟨hend, h⟩ := guard_ok h
  cases h
  have key :
      ∀ (limit : Nat) (front text : List Char) (s : ParserTokenState), source = front ++ text →
      s.offset = utf8Len front → s.offset < u32Size → text.length < limit →
      (tk.tokenizeFrom limit text).foldlM (tk.parserTokenStep source) s = .ok final →
      final.offset < u32Size ∧
        ∃ raws, Lexes tk raws ∧ textOf raws = text ∧ raws.foldl tk.advance s = final := by
    intro limit
    induction limit with
    | zero => exact fun _ _ _ _ _ _ hlimit _ => absurd hlimit (Nat.not_lt_zero _)
    | succ limit ih =>
      intro front text s hsource hoffset hsize hlimit hrun
      rw [tokenizeFrom] at hrun
      cases hnext : tk.next text with
      | none =>
        simp only [hnext] at hrun
        cases hrun
        have htext : text = [] := by
          apply eq_nil_of_utf8Len_eq_zero
          have hlen := not_not.mp hend
          rw [hsource, utf8Len_append] at hlen
          omega
        subst htext
        exact ⟨hsize, [], .nil hnext, rfl, rfl⟩
      | some token =>
        simp only [hnext, foldlM_cons] at hrun
        obtain ⟨t, hstep, hrun⟩ := bind_ok hrun
        have hpos := tk.next_pos text token hnext
        unfold parserTokenStep at hstep
        simp only at hstep
        obtain ⟨hstop, hstep⟩ := guard_ok hstep
        cases hpiece : textRange source s.offset (s.offset + token.len) with
        | none =>
          simp only [hpiece] at hstep
          cases hstep
        | some piece =>
          simp only [hpiece] at hstep
          rw [hsource, hoffset, textRange, if_pos (Nat.le_add_right _ _), dropBytes_append,
            bind_some, Nat.add_sub_cancel_left] at hpiece
          obtain ⟨rest, rfl, hlen⟩ := takeBytes_eq_some hpiece
          have hraw : (⟨token.kind, piece⟩ : RawToken).token = token := by
            rw [RawToken.token, hlen]
          have ht : t = tk.advance s ⟨token.kind, piece⟩ := by
            unfold advance
            simp only [hlen]
            split at hstep <;> cases hstep <;> simp_all
          have hne : piece ≠ [] := by
            rintro rfl
            simp at hlen
            omega
          rw [← hlen, dropBytes_append] at hrun
          have hoffset' : t.offset = s.offset + token.len := by
            rw [ht, offset_advance, hlen]
          obtain ⟨hfinal, raws, hlexes, htext, hfold⟩ := ih (front ++ piece) rest t
            (by simp [hsource]) (by rw [hoffset', hoffset, utf8Len_append, hlen])
            (by rw [hoffset']; exact Nat.not_le.mp hstop) (by
              have := length_pos_iff.mpr hne
              rw [length_append] at hlimit
              omega) hrun
          refine ⟨hfinal, ⟨token.kind, piece⟩ :: raws, .cons ?_ hlexes, ?_, ?_⟩
          · rw [textOf_cons, htext, hraw]
            exact hnext
          · rw [textOf_cons, htext]
          · rw [foldl_cons, ← ht]
            exact hfold
  obtain ⟨hfinal, raws, hlexes, htext, hfold⟩ := key _ [] source ⟨[], 0, true⟩ rfl rfl (by decide)
    (Nat.lt_succ_self _) hrun
  refine ⟨?_, raws, hlexes, htext, by rw [parse, hfold]⟩
  rw [← not_not.mp hend]
  exact hfinal

end Tokenizer

/-! ## Chunks -/

/-- Trivia, or the tokens of the lexer that make one parser token. -/
inductive Chunk where
  | trivia (raw : RawToken)
  | token (first : RawToken) (parts : List RawToken)

namespace Chunk

variable (tk : Tokenizer)

def raws : Chunk → List RawToken
  | trivia raw => [raw]
  | token first parts => first :: parts

def len (c : Chunk) : Nat := utf8Len (textOf c.raws)

/-- The punctuation that a token becomes when the text after it is glued. -/
def glueText (previous : Option AstTokenKind) (text : List Char) : Option AstTokenKind :=
  previous.bind fun previousKind => (parserPunctuation text).bind fun currentKind =>
    tk.glue previousKind currentKind

def punctuation (first : RawToken) (parts : List RawToken) : Option AstTokenKind :=
  parts.foldl (fun previous part => glueText tk previous part.text) (parserPunctuation first.text)

/-- The parser token of a chunk at an offset. -/
def parserToken (offset : Nat) : Chunk → Option ParserToken
  | trivia _ => none
  | token first parts => some ⟨⟨offset, offset + utf8Len (textOf (first :: parts))⟩,
      textOf (first :: parts), first.kind, punctuation tk first parts⟩

/-- The parts of a token have been glued one after the other. -/
def Valid : Chunk → Prop
  | trivia raw => isTrivia raw.kind = true
  | token first parts =>
    isTrivia first.kind = false ∧ (∀ part ∈ parts, isTrivia part.kind = false) ∧
      (parts = [] ∨ (punctuation tk first parts).isSome = true)

/-- Two chunks that are not glued. -/
def Apart : Chunk → Chunk → Prop
  | token first parts, token next _ => glueText tk (punctuation tk first parts) next.text = none
  | _, _ => True

/-- The tokens of the lexer in some chunks. -/
def rawsOf (cs : List Chunk) : List RawToken := cs.flatMap raws

/-- The parser tokens of some chunks that start at an offset. -/
def tokensOf (offset : Nat) : List Chunk → List ParserToken
  | [] => []
  | c :: cs => (c.parserToken tk offset).toList ++ tokensOf (offset + c.len) cs

/-- Chunks as gluing makes them. -/
structure Chunked (cs : List Chunk) : Prop where
  valid : ∀ c ∈ cs, c.Valid tk
  apart : cs.IsChain (Apart tk)

variable {tk} {cs cs' : List Chunk} {c : Chunk} {first raw : RawToken} {parts : List RawToken}

@[simp] theorem rawsOf_append : rawsOf (cs ++ cs') = rawsOf cs ++ rawsOf cs' := flatMap_append

@[simp] theorem rawsOf_cons : rawsOf (c :: cs) = c.raws ++ rawsOf cs := rfl

@[simp] theorem rawsOf_nil : rawsOf [] = [] := rfl

theorem tokensOf_append (offset : Nat) : tokensOf tk offset (cs ++ cs') =
    tokensOf tk offset cs ++ tokensOf tk (offset + utf8Len (textOf (rawsOf cs))) cs' := by
  induction cs generalizing offset with
  | nil => rfl
  | cons c cs ih =>
    rw [cons_append, tokensOf, tokensOf, ih, append_assoc, rawsOf_cons, textOf_append,
      utf8Len_append, len, Nat.add_assoc]

theorem foldl_glueText_none (parts : List RawToken) :
    parts.foldl (fun previous part => glueText tk previous part.text) none = none := by
  induction parts with
  | nil => rfl
  | cons part parts ih => exact ih

/-- What is glued in a state whose last token ends at the offset. -/
theorem glued_append {last : ParserToken} {offset : Nat} (hlast : last.range.stop = offset)
    (text : List Char) :
    tk.glued ⟨tokens ++ [last], offset, false⟩ text =
      (glueText tk last.punctuation text).map fun kind => (last, kind) := by
  unfold Tokenizer.glued glueText
  simp only [Bool.false_eq_true, if_false, getLast?_concat, bind_some, hlast, if_true]
  cases last.punctuation with
  | none => rfl
  | some kind => cases parserPunctuation text <;> rfl

/-- The parts of a token are glued to it. -/
theorem foldl_advance_parts (tokens : List ParserToken) (start offset : Nat) (text : List Char)
    (kind : TokenKind) (previous : Option AstTokenKind)
    (htrivia : ∀ part ∈ parts, isTrivia part.kind = false)
    (hglue : parts = [] ∨
      (parts.foldl (fun p part => glueText tk p part.text) previous).isSome = true) :
    parts.foldl tk.advance ⟨tokens ++ [⟨⟨start, offset⟩, text, kind, previous⟩], offset, false⟩ =
      ⟨tokens ++ [⟨⟨start, offset + utf8Len (textOf parts)⟩, text ++ textOf parts, kind,
        parts.foldl (fun p part => glueText tk p part.text) previous⟩],
        offset + utf8Len (textOf parts), false⟩ := by
  induction parts generalizing offset text previous with
  | nil => simp
  | cons part parts ih =>
    have hsome := hglue.resolve_left (by simp)
    rw [foldl_cons] at hsome
    cases hp : glueText tk previous part.text with
    | none =>
      rw [hp, foldl_glueText_none] at hsome
      cases hsome
    | some glued =>
      have hstep : tk.advance ⟨tokens ++ [⟨⟨start, offset⟩, text, kind, previous⟩], offset, false⟩
          part = ⟨tokens ++ [⟨⟨start, offset + utf8Len part.text⟩, text ++ part.text, kind,
            some glued⟩], offset + utf8Len part.text, false⟩ := by
        unfold Tokenizer.advance Tokenizer.pushToken
        simp only [htrivia part (by simp), Bool.false_eq_true, if_false, glued_append, hp,
          map_some, dropLast_concat]
      rw [foldl_cons, hstep, ih _ _ _ (fun p hmem => htrivia p (by simp [hmem]))
        (Or.inr (hp ▸ hsome)), foldl_cons, hp]
      simp [Nat.add_assoc]

/-- A chunk that is not glued to what is before it adds its token. -/
theorem foldl_advance_chunk (hvalid : c.Valid tk) (s : Tokenizer.ParserTokenState)
    (hapart : ∀ first parts, c = token first parts → tk.glued s first.text = none) :
    c.raws.foldl tk.advance s =
      ⟨s.tokens ++ (c.parserToken tk s.offset).toList, s.offset + c.len,
        (c.parserToken tk s.offset).isNone⟩ := by
  cases c with
  | trivia raw =>
    have hkind : isTrivia raw.kind = true := hvalid
    simp [raws, len, parserToken, Tokenizer.advance, hkind]
  | token first parts =>
    obtain ⟨hfirst, hparts, hglue⟩ := hvalid
    have hstep : tk.advance s first = ⟨s.tokens ++ [⟨⟨s.offset, s.offset + utf8Len first.text⟩,
        first.text, first.kind, parserPunctuation first.text⟩], s.offset + utf8Len first.text,
        false⟩ := by
      unfold Tokenizer.advance Tokenizer.pushToken
      simp only [hfirst, Bool.false_eq_true, if_false, hapart first parts rfl]
    rw [raws, foldl_cons, hstep, foldl_advance_parts _ _ _ _ _ _ hparts hglue]
    simp [len, raws, parserToken, punctuation, Nat.add_assoc]

/-- A chunk is not glued to the state after a chunk that it is apart from. -/
theorem glued_of_apart {offset : Nat} (hapart : Apart tk c (token first parts)) :
    tk.glued ⟨tokens ++ (c.parserToken tk offset).toList, offset + c.len,
      (c.parserToken tk offset).isNone⟩ first.text = none := by
  cases c with
  | trivia raw => rfl
  | token first' parts' =>
    have hnone : glueText tk (punctuation tk first' parts') first.text = none := hapart
    have hoffset : offset + (token first' parts').len =
        offset + utf8Len (textOf (first' :: parts')) := rfl
    simp only [parserToken, toList_some, isNone_some, hoffset]
    rw [glued_append rfl, hnone]
    rfl

/-- The chunks add their tokens one after the other. -/
theorem foldl_advance (h : Chunked tk cs) (s : Tokenizer.ParserTokenState)
    (hapart : ∀ first parts, cs.head? = some (token first parts) → tk.glued s first.text = none) :
    ((rawsOf cs).foldl tk.advance s).tokens = s.tokens ++ tokensOf tk s.offset cs := by
  induction cs generalizing s with
  | nil => simp [tokensOf]
  | cons c cs ih =>
    have hc := h.valid c (by simp)
    rw [rawsOf_cons, foldl_append, foldl_advance_chunk hc s fun first parts hcs =>
      hapart first parts (by rw [hcs]; rfl), tokensOf, ← append_assoc]
    refine ih ⟨fun c' hc' => h.valid c' (by simp [hc']), h.apart.tail⟩ _ fun first parts hhead => ?_
    apply glued_of_apart
    obtain ⟨cs', rfl⟩ : ∃ cs', cs = token first parts :: cs' := by
      cases cs with
      | nil => cases hhead
      | cons c' cs' =>
        cases hhead
        exact ⟨cs', rfl⟩
    exact h.apart.rel

theorem parse_rawsOf (h : Chunked tk cs) : tk.parse (rawsOf cs) = tokensOf tk 0 cs := by
  rw [Tokenizer.parse, foldl_advance h _ fun _ _ _ => rfl, nil_append]

theorem Chunked.append (h : Chunked tk cs) (h' : Chunked tk cs')
    (hapart : ∀ c ∈ cs.getLast?, ∀ c' ∈ cs'.head?, Apart tk c c') : Chunked tk (cs ++ cs') where
  valid c hc := (mem_append.mp hc).elim (h.valid c) (h'.valid c)
  apart := isChain_append.mpr ⟨h.apart, h'.apart, hapart⟩

theorem Chunked.left (h : Chunked tk (cs ++ cs')) : Chunked tk cs where
  valid c hc := h.valid c (mem_append_left _ hc)
  apart := h.apart.left_of_append

theorem Chunked.right (h : Chunked tk (cs ++ cs')) : Chunked tk cs' where
  valid c hc := h.valid c (mem_append_right _ hc)
  apart := h.apart.right_of_append

/-- All tokens of the lexer come in chunks. -/
theorem exists_chunked (tk : Tokenizer) (raws : List RawToken) :
    ∃ cs, Chunked tk cs ∧ rawsOf cs = raws := by
  induction raws using List.reverseRecOn with
  | nil => exact ⟨[], ⟨by simp, isChain_nil⟩, rfl⟩
  | append_singleton raws raw ih =>
    obtain ⟨cs, hcs, rfl⟩ := ih
    by_cases htrivia : isTrivia raw.kind = true
    · refine ⟨cs ++ [trivia raw], hcs.append ⟨?_, isChain_singleton _⟩ ?_, ?_⟩
      · simpa [Valid] using htrivia
      · intro c _ c' hc'
        cases hc'
        cases c <;> trivial
      · rw [rawsOf_append]
        rfl
    have hsingle : Chunked tk [token raw []] :=
      ⟨by simpa [Valid] using htrivia, isChain_singleton _⟩
    -- the token is glued to a token before it, or starts one of its own
    by_cases hglue : ∃ cs' first parts, cs = cs' ++ [token first parts] ∧
        (glueText tk (punctuation tk first parts) raw.text).isSome = true
    · obtain ⟨cs', first, parts, rfl, hsome⟩ := hglue
      obtain ⟨hfirst, hparts, -⟩ := hcs.right.valid (token first parts) (by simp)
      refine ⟨cs' ++ [token first (parts ++ [raw])], hcs.left.append ⟨?_, ?_⟩ ?_, ?_⟩
      · simp only [mem_singleton, forall_eq]
        refine ⟨hfirst, fun part hpart => ?_, Or.inr ?_⟩
        · rcases mem_append.mp hpart with hpart | hpart
          · exact hparts part hpart
          · rw [mem_singleton] at hpart
            exact hpart ▸ Bool.eq_false_iff.mpr htrivia
        · rw [punctuation, foldl_concat]
          exact hsome
      · exact isChain_singleton _
      · intro c hc c' hc'
        cases hc'
        have happly := (isChain_append.mp hcs.apart).2.2 c hc _ rfl
        cases c with
        | trivia _ => trivial
        | token _ _ => exact happly
      · simp [rawsOf, raws]
    · refine ⟨cs ++ [token raw []], hcs.append hsingle ?_, ?_⟩
      · intro c hc c' hc'
        cases hc'
        cases c with
        | trivia _ => trivial
        | token first parts =>
          obtain ⟨cs', rfl⟩ := getLast?_eq_some_iff.mp hc
          have hno := not_exists.mp (not_exists.mp (not_exists.mp hglue cs') first) parts
          simpa [Apart] using hno
      · rw [rawsOf_append]
        rfl

/-- A parser token is that of a chunk; the tokens before and behind it are those of the chunks
before and behind. -/
theorem split_at_token {offset i : Nat} {t : ParserToken} (h : tokensOf tk offset cs = tokens)
    (hi : tokens[i]? = some t) :
    ∃ before first parts behind, cs = before ++ token first parts :: behind ∧
      tokensOf tk offset before = tokens.take i ∧
      (token first parts).parserToken tk (offset + utf8Len (textOf (rawsOf before))) = some t ∧
      tokensOf tk t.range.stop behind = tokens.drop (i + 1) := by
  induction cs generalizing offset i tokens with
  | nil =>
    subst h
    cases hi
  | cons c cs ih =>
    cases c with
    | trivia raw =>
      have hrest : tokensOf tk (offset + (trivia raw).len) cs = tokens := h
      obtain ⟨before, first, parts, behind, rfl, hbefore, htoken, hbehind⟩ := ih hrest hi
      refine ⟨trivia raw :: before, first, parts, behind, rfl, hbefore, ?_, hbehind⟩
      rw [← htoken, rawsOf_cons, textOf_append, utf8Len_append, ← Nat.add_assoc]
      rfl
    | token first parts =>
      have hcons : tokens = ⟨⟨offset, offset + utf8Len (textOf (first :: parts))⟩,
          textOf (first :: parts), first.kind, punctuation tk first parts⟩ ::
          tokensOf tk (offset + (token first parts).len) cs := h.symm
      cases i with
      | zero =>
        rw [hcons, getElem?_cons_zero, Option.some.injEq] at hi
        subst hi
        refine ⟨[], first, parts, cs, rfl, rfl, rfl, ?_⟩
        rw [hcons]
        rfl
      | succ i =>
        rw [hcons, getElem?_cons_succ] at hi
        obtain ⟨before, first', parts', behind, rfl, hbefore, htoken, hbehind⟩ := ih rfl hi
        refine ⟨token first parts :: before, first', parts', behind, rfl, ?_, ?_, ?_⟩
        · rw [hcons, take_succ_cons, ← hbefore]
          rfl
        · rw [← htoken, rawsOf_cons, textOf_append, utf8Len_append, ← Nat.add_assoc]
          rfl
        · rw [hcons, drop_succ_cons]
          exact hbehind

end Chunk

end ItemDependencies
