import ItemDependencies.Library.BracketPieces
import ItemDependencies.Source.Delimiters

/-!
# Cutting a text again

The tokens of a range are those of a text whose delimiters match.  Where a part
of the text before a comma or a parenthesis stays, its tokens stay.
-/

namespace ItemDependencies

open Library Library.Brackets RawToken List

/-- The characters that make and end lists. -/
def listPunctuation : List (Char × TokenKind) :=
  [(',', .comma), ('(', .openParen), (')', .closeParen)]

theorem comma_mem : (',', TokenKind.comma) ∈ listPunctuation := by decide

theorem openParen_mem : ('(', TokenKind.openParen) ∈ listPunctuation := by decide

theorem closeParen_mem : (')', TokenKind.closeParen) ∈ listPunctuation := by decide

/-- Commas and parentheses are tokens by themselves, and the lexer need not read them to know a
token that ends before one. -/
structure Tokenizer.Separates (tk : Tokenizer) : Prop where
  single : ∀ entry ∈ listPunctuation, ∀ rest, tk.next (entry.1 :: rest) = some ⟨entry.2, 1⟩
  starts : ∀ entry ∈ listPunctuation, ∀ text token, tk.next text = some token →
    token.kind = entry.2 → text.head? = some entry.1
  before : ∀ entry ∈ listPunctuation, ∀ entry' ∈ listPunctuation, ∀ text rest rest' token,
    tk.next (text ++ entry.1 :: rest) = some token → token.len ≤ utf8Len text →
      tk.next (text ++ entry'.1 :: rest') = some token

def RawToken.mark (raw : RawToken) : Mark Delimiter := SourceToken.mark ⟨raw.kind, ⟨0, 0⟩⟩

/-- The tokens with their ranges in the text. -/
def placeTokens : Nat → List RawToken → List SourceToken
  | _, [] => []
  | offset, raw :: raws =>
    ⟨raw.kind, ⟨offset, offset + utf8Len raw.text⟩⟩ :: placeTokens (offset + utf8Len raw.text) raws

section

variable {tk : Tokenizer} {raw : RawToken} {raws raws' front back : List RawToken}
  {text : List Char} {offset : Nat} {entry : Char × TokenKind}

/-! ## Editing a text -/

theorem Lexes.of_append (h : Lexes tk (front ++ back)) : Lexes tk back := by
  induction front with
  | nil => exact h
  | cons raw front ih =>
    cases h with
    | cons _ hrest => exact ih hrest

/-- The characters of lists are the tokens of their kinds. -/
theorem Lexes.text_eq (h : Lexes tk (raw :: raws)) (hsep : tk.Separates)
    (hentry : entry ∈ listPunctuation) (hkind : raw.kind = entry.2) : raw.text = [entry.1] := by
  have hne := h.text_ne_nil raw mem_cons_self
  cases h with
  | cons hnext _ =>
    obtain ⟨c, rest, hc⟩ := exists_cons_of_ne_nil hne
    have hhead := hsep.starts entry hentry _ _ hnext hkind
    rw [textOf_cons, hc] at hhead
    cases hhead
    rw [textOf_cons, hc, cons_append, hsep.single entry hentry] at hnext
    have hlen := congrArg Token.len (Option.some.inj hnext)
    have hpos := Char.utf8Size_pos entry.1
    rw [RawToken.token, hc, utf8Len_cons] at hlen
    dsimp only at hlen
    have hrest : utf8Len rest = 0 := by omega
    rw [hc, eq_nil_of_utf8Len_eq_zero hrest]

theorem Lexes.cons_punctuation (h : Lexes tk raws) (hsep : tk.Separates)
    (hentry : entry ∈ listPunctuation) : Lexes tk (⟨entry.2, [entry.1]⟩ :: raws) := by
  refine .cons ?_ h
  have hsize : entry.1.utf8Size = 1 := by
    simp only [listPunctuation, mem_cons, not_mem_nil, or_false] at hentry
    rcases hentry with rfl | rfl | rfl <;> rfl
  rw [textOf_cons, singleton_append, hsep.single entry hentry, RawToken.token, utf8Len_cons, hsize]
  rfl

/-- What is behind a comma or a parenthesis may be replaced, and that character by another one. -/
theorem Lexes.replace (h : Lexes tk (front ++ raws)) (h' : Lexes tk raws') (hsep : tk.Separates)
    {entry' : Char × TokenKind} {rest rest' : List Char} (hentry : entry ∈ listPunctuation)
    (hentry' : entry' ∈ listPunctuation) (htext : textOf raws = entry.1 :: rest)
    (htext' : textOf raws' = entry'.1 :: rest') : Lexes tk (front ++ raws') := by
  induction front with
  | nil => exact h'
  | cons raw front ih =>
    rw [cons_append] at h ⊢
    cases h with
    | cons hnext hrest =>
      refine .cons ?_ (ih hrest)
      rw [textOf_cons, textOf_append, htext, ← append_assoc] at hnext
      rw [textOf_cons, textOf_append, htext', ← append_assoc]
      refine hsep.before entry hentry entry' hentry' _ _ _ _ hnext ?_
      rw [utf8Len_append]
      exact Nat.le_add_right _ _

/-! ## The tokens of a range -/

/-- Tokens that make up the whole text cut it. -/
theorem lexes_of_tokenizeFrom {limit : Nat} (hlimit : text.length < limit)
    (hlen : (tk.tokenizeFrom limit text).foldr (fun token n => token.len + n) 0 = utf8Len text) :
    ∃ raws, Lexes tk raws ∧ textOf raws = text ∧
      tk.tokenizeFrom limit text = raws.map RawToken.token := by
  induction limit generalizing text with
  | zero => exact absurd hlimit (Nat.not_lt_zero _)
  | succ limit ih =>
    rw [Tokenizer.tokenizeFrom] at hlen ⊢
    cases hnext : tk.next text with
    | none =>
      rw [hnext] at hlen
      obtain rfl := eq_nil_of_utf8Len_eq_zero hlen.symm
      exact ⟨[], .nil hnext, rfl, rfl⟩
    | some token =>
      have hpos := tk.next_pos text token hnext
      simp only [hnext, foldr_cons] at hlen ⊢
      cases hdrop : dropBytes text token.len with
      | none =>
        simp only [hdrop, foldr_nil, Nat.add_zero] at hlen
        have hall := dropBytes_append text []
        rw [append_nil, ← hlen, hdrop] at hall
        cases hall
      | some rest =>
        simp only [hdrop] at hlen ⊢
        obtain ⟨piece, rfl, hpiece⟩ := dropBytes_eq_some hdrop
        have hne : piece ≠ [] := by
          rintro rfl
          rw [utf8Len_nil] at hpiece
          omega
        have hshort := length_pos_iff.mpr hne
        rw [length_append] at hlimit
        rw [utf8Len_append, ← hpiece] at hlen
        have hsum : (tk.tokenizeFrom limit rest).foldr (fun token n => token.len + n) 0 =
            utf8Len rest := by omega
        obtain ⟨raws, hlexes, rfl, htokens⟩ := ih (by omega) hsum
        have hraw : (⟨token.kind, piece⟩ : RawToken).token = token := by
          rw [RawToken.token, hpiece]
        refine ⟨⟨token.kind, piece⟩ :: raws, .cons ?_ hlexes, rfl, ?_⟩
        · rw [textOf_cons, hraw]
          exact hnext
        · rw [map_cons, hraw, htokens]

theorem placeTokens_append :
    placeTokens offset (front ++ back) =
      placeTokens offset front ++ placeTokens (offset + utf8Len (textOf front)) back := by
  induction front generalizing offset with
  | nil => rfl
  | cons raw front ih =>
    rw [cons_append, placeTokens, placeTokens, ih, textOf_cons, utf8Len_append, ← Nat.add_assoc]
    rfl

@[simp] theorem length_placeTokens : (placeTokens offset raws).length = raws.length := by
  induction raws generalizing offset with
  | nil => rfl
  | cons raw raws ih => rw [placeTokens, length_cons, length_cons, ih]

theorem reads_placeTokens {stack stack' : List Delimiter} :
    Reads SourceToken.mark stack (placeTokens offset raws) stack' ↔
      Reads RawToken.mark stack raws stack' := by
  induction raws generalizing offset stack with
  | nil => exact Iff.rfl
  | cons raw raws ih =>
    rw [placeTokens, reads_cons, reads_cons]
    exact exists_congr fun next => and_congr Iff.rfl ih

theorem placeTokens_middle (front back : List RawToken) (raw : RawToken) (offset : Nat) :
    (placeTokens offset (front ++ raw :: back))[front.length]? =
      some ⟨raw.kind, ⟨offset + utf8Len (textOf front),
        offset + utf8Len (textOf front) + utf8Len raw.text⟩⟩ := by
  rw [placeTokens_append, getElem?_append_right (by simp), length_placeTokens, Nat.sub_self]
  rfl

theorem tokenRange_placeTokens (front back : List RawToken) (raw : RawToken) (offset : Nat) :
    tokenRange (placeTokens offset (front ++ raw :: back)) front.length =
      ⟨offset + utf8Len (textOf front), offset + utf8Len (textOf front) + utf8Len raw.text⟩ :=
  tokenRange_of_getElem? (placeTokens_middle front back raw offset)

open Tokenizer

theorem balancedStep_spec {s t : BalancedState} {token : Token} (h : balancedStep s token = .ok t) :
    t.offset < u32Size ∧ t.offset = s.offset + token.len ∧
      t.tokens = s.tokens ++ [⟨token.kind, ⟨s.offset, s.offset + token.len⟩⟩] ∧
      Brackets.read (s.stack.map Prod.fst) (SourceToken.mark ⟨token.kind, ⟨0, 0⟩⟩) =
        some (t.stack.map Prod.fst) := by
  unfold balancedStep at h
  simp only at h
  obtain ⟨hlt, h⟩ := guard_ok h
  have hlt := Nat.lt_of_not_le hlt
  split at h
  · rename_i delimiter hopening
    cases h
    refine ⟨hlt, rfl, rfl, ?_⟩
    rw [SourceToken.mark_eq_opening hopening]
    rfl
  · rename_i hopening
    split at h
    · rename_i delimiter hclosing
      split at h
      · cases h
      · rename_i openDelimiter first stack hstack
        obtain ⟨heq, h⟩ := guard_ok h
        cases h
        refine ⟨hlt, rfl, rfl, ?_⟩
        rw [SourceToken.mark_eq_closing hopening hclosing, hstack, not_not.mp heq]
        simp [Brackets.read]
    · rename_i hclosing
      cases h
      refine ⟨hlt, rfl, rfl, ?_⟩
      rw [SourceToken.mark_eq_plain hopening hclosing]
      rfl

theorem balancedStep_total {s : BalancedState} {token : Token} {stack : List Delimiter}
    (hlt : s.offset + token.len < u32Size)
    (h : Brackets.read (s.stack.map Prod.fst) (SourceToken.mark ⟨token.kind, ⟨0, 0⟩⟩) =
        some stack) :
    ∃ t, balancedStep s token = .ok t := by
  unfold balancedStep
  simp only
  rw [if_neg (Nat.not_le.mpr hlt)]
  split
  · exact ⟨_, rfl⟩
  · rename_i hopening
    split
    · rename_i delimiter hclosing
      rw [SourceToken.mark_eq_closing hopening hclosing, Brackets.read] at h
      obtain ⟨hhead, -⟩ := Option.ite_none_right_eq_some.mp h
      split
      · rename_i hstack
        rw [hstack] at hhead
        cases hhead
      · rename_i openDelimiter first stack hstack
        rw [hstack] at hhead
        rw [if_neg (not_not.mpr (Option.some.inj hhead))]
        exact ⟨_, rfl⟩
    · exact ⟨_, rfl⟩

/-- The tokens of a text are read in order. -/
theorem foldlM_balancedStep {s t : BalancedState}
    (h : (raws.map RawToken.token).foldlM balancedStep s = .ok t) :
    (raws ≠ [] → t.offset < u32Size) ∧ t.offset = s.offset + utf8Len (textOf raws) ∧
      t.tokens = s.tokens ++ placeTokens s.offset raws ∧
      Reads RawToken.mark (s.stack.map Prod.fst) raws (t.stack.map Prod.fst) := by
  induction raws generalizing s with
  | nil =>
    cases h
    exact ⟨fun hne => absurd rfl hne, rfl, (append_nil _).symm, reads_nil.mpr rfl⟩
  | cons raw raws ih =>
    rw [map_cons, foldlM_cons] at h
    obtain ⟨next, hstep, h⟩ := bind_ok h
    obtain ⟨hlt, hoffset, htokens, hread⟩ := balancedStep_spec hstep
    obtain ⟨hlast, hend, hall, hreads⟩ := ih h
    refine ⟨fun _ => ?_, ?_, ?_, reads_cons.mpr ⟨_, hread, hreads⟩⟩
    · by_cases hnil : raws = []
      · subst hnil
        rwa [hend, textOf_nil, utf8Len_nil, Nat.add_zero]
      · exact hlast hnil
    · rw [hend, hoffset, textOf_cons, utf8Len_append, RawToken.token, Nat.add_assoc]
    · rw [hall, htokens, hoffset, append_assoc]
      rfl

theorem foldlM_balancedStep_total {s : BalancedState} {stack : List Delimiter}
    (hlt : s.offset + utf8Len (textOf raws) < u32Size)
    (h : Reads RawToken.mark (s.stack.map Prod.fst) raws stack) :
    ∃ t, (raws.map RawToken.token).foldlM balancedStep s = .ok t := by
  induction raws generalizing s with
  | nil => exact ⟨s, rfl⟩
  | cons raw raws ih =>
    obtain ⟨next, hread, h⟩ := reads_cons.mp h
    rw [textOf_cons, utf8Len_append] at hlt
    have hnext : s.offset + raw.token.len < u32Size := by
      rw [RawToken.token]
      dsimp only
      omega
    obtain ⟨t, ht⟩ := balancedStep_total hnext hread
    obtain ⟨-, hoffset, -, hread'⟩ := balancedStep_spec ht
    rw [map_cons, foldlM_cons, ht]
    refine ih (s := t) ?_ ?_
    · rw [hoffset, RawToken.token]
      dsimp only
      omega
    · rw [Option.some.inj (hread'.symm.trans hread)]
      exact h

/-- A range that is cut into tokens whose delimiters match. -/
structure CutsRange (tk : Tokenizer) (source : List Char) (range : ByteRange)
    (raws : List RawToken) : Prop where
  lexes : Lexes tk raws
  text : textRange source range.start range.stop = some (textOf raws)
  reads : Reads RawToken.mark [] raws []

theorem CutsRange.stop_eq {source : List Char} {range : ByteRange}
    (h : CutsRange tk source range raws) :
    range.stop = range.start + utf8Len (textOf raws) := by
  obtain ⟨front, rest, -, -, hstop⟩ := textRange_eq_some h.text
  exact hstop.symm

theorem tokenizeBalancedRange_cuts {source : List Char} {range : ByteRange}
    {tokens : List SourceToken} {pairs : List DelimiterPair}
    (h : tk.tokenizeBalancedRange source range = .ok (tokens, pairs)) :
    ∃ raws, CutsRange tk source range raws ∧ tokens = placeTokens range.start raws ∧
      (raws ≠ [] → range.stop < u32Size) := by
  unfold tokenizeBalancedRange at h
  split at h
  · cases h
  · rename_i input hinput
    obtain ⟨s, hrun, h⟩ := bind_ok h
    obtain ⟨hend, h⟩ := guard_ok h
    cases h
    have hstop := not_not.mp fun hne => hend (.inl hne)
    have hstack : s.stack = [] := not_not.mp fun hne => hend (.inr hne)
    have htotal : ∀ (tokens : List Token) (s t : BalancedState),
        tokens.foldlM balancedStep s = .ok t →
        t.offset = s.offset + tokens.foldr (fun token n => token.len + n) 0 := by
      intro tokens
      induction tokens with
      | nil =>
        intro s t h
        cases h
        rfl
      | cons token tokens ih =>
        intro s t h
        rw [foldlM_cons] at h
        obtain ⟨next, hstep, h⟩ := bind_ok h
        rw [ih next t h, (balancedStep_spec hstep).2.1, foldr_cons, Nat.add_assoc]
    obtain ⟨front, rest, -, -, hrange⟩ := textRange_eq_some hinput
    have hlen := htotal _ _ _ hrun
    dsimp only at hlen
    have hinputLen : (tk.tokenizeFrom (input.length + 1) input).foldr
        (fun token n => token.len + n) 0 = utf8Len input := by
      rw [tokenize] at hlen
      omega
    obtain ⟨raws, hlexes, rfl, htokens⟩ := lexes_of_tokenizeFrom (Nat.lt_succ_self _) hinputLen
    rw [hlexes.tokenize] at hrun
    obtain ⟨hsize, -, hall, hreads⟩ := foldlM_balancedStep hrun
    rw [hstack] at hreads
    rw [hstop] at hsize
    exact ⟨raws, ⟨hlexes, hinput, hreads⟩, hall, hsize⟩

theorem CutsRange.tokenizeBalancedRange {source : List Char} {range : ByteRange}
    (h : CutsRange tk source range raws) (hsize : range.stop < u32Size) :
    ∃ pairs, tk.tokenizeBalancedRange source range = .ok (placeTokens range.start raws, pairs) := by
  have hstop := h.stop_eq
  have hlt : (⟨[], range.start, [], []⟩ : BalancedState).offset + utf8Len (textOf raws) <
      u32Size := by
    dsimp only
    omega
  obtain ⟨t, ht⟩ := foldlM_balancedStep_total hlt h.reads
  obtain ⟨-, hend, hall, hreads⟩ := foldlM_balancedStep ht
  have hstack : t.stack = [] := map_eq_nil_iff.mp (hreads.unique h.reads)
  refine ⟨t.pairs, ?_⟩
  unfold Tokenizer.tokenizeBalancedRange
  rw [h.text]
  dsimp only
  rw [h.lexes.tokenize, ht]
  dsimp only [bind, Except.bind]
  rw [if_neg (by simp [hstack, hend, hstop]), hall]
  rfl

end

end ItemDependencies
