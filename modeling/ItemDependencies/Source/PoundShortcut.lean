import ItemDependencies.Source.TokenGuard

/-!
# The shortcut for a single pound

The shortcut does not lex the window again.  It agrees with the full check on a
pound that it does not take, and on one without which the lexer still finds the
tokens of the window.  That is so where the lexer takes no notice of the deletion:
where each token of the window is the next token of what is left from there on.
-/

namespace ItemDependencies

open Library RawToken List Option

namespace ParserToken

/-- What two tokens have in common that are the same. -/
def identity (token : ParserToken) : List Char × TokenKind × Option AstTokenKind :=
  (token.text, token.lexerKind, token.punctuation)

theorem sameIdentity_iff {token other : ParserToken} :
    token.sameIdentity other = true ↔ other.identity = token.identity := by
  rw [sameIdentity, Bool.and_eq_true, Bool.and_eq_true, beq_iff_eq, beq_iff_eq, beq_iff_eq,
    and_assoc, eq_comm (a := other.identity), identity, identity, Prod.mk.injEq, Prod.mk.injEq]

end ParserToken

/-! ## Lexing without the deletion -/

/-- A blank that meets blanks behind the deletion runs on over some of them. -/
def RunsOn (tk : Tokenizer) (raw : RawToken) (behind : List RawToken) : Prop :=
  isTrivia raw.kind = true ∧ ∃ kind blanks rest, behind = blanks ++ rest ∧
    (∀ blank ∈ blanks, isTrivia blank.kind = true) ∧ isTrivia kind = true ∧
    tk.next (raw.text ++ textOf behind) = some (RawToken.mk kind (raw.text ++ textOf blanks)).token

/-- Some tokens before and behind a deletion are each the next token of what is left from there on;
the text ends with them. -/
structure LexesAlike (tk : Tokenizer) (before behind : List RawToken) : Prop where
  before : ∀ done raw rest, before = done ++ raw :: rest →
    tk.next (textOf (raw :: rest) ++ textOf behind) = some raw.token ∨
      rest = [] ∧ RunsOn tk raw behind
  behind : ∀ done raw rest, behind = done ++ raw :: rest →
    tk.next (textOf (raw :: rest)) = some raw.token

/-- Without what is between some tokens the lexer finds the same parser tokens. -/
def ReadsAlike (tk : Tokenizer) (before behind : List RawToken) : Prop :=
  ∃ raws, Lexes tk raws ∧ textOf raws = textOf before ++ textOf behind ∧
    (tk.parse raws).map ParserToken.identity =
        (tk.parse (before ++ behind)).map ParserToken.identity

/-- The tokens of the source, cut at the ends of a deletion and of its window. -/
structure TokenCut (tk : Tokenizer) (guard : ParserTokenRewriteGuard) (deletion : ByteRange)
    (front before deleted behind rest : List RawToken) : Prop where
  lexes : Lexes tk (front ++ (before ++ (deleted ++ (behind ++ rest))))
  text : textOf (front ++ (before ++ (deleted ++ (behind ++ rest)))) = guard.source
  start : utf8Len (textOf front) + utf8Len (textOf before) = deletion.start
  stop : deletion.start + utf8Len (textOf deleted) = deletion.stop
  window : guard.deletionDependencyWindow deletion =
    some ⟨utf8Len (textOf front), deletion.stop + utf8Len (textOf behind)⟩

/-- What holds of the tokens in the window of a deletion, before and behind the deletion. -/
def AroundDeletion (tk : Tokenizer) (guard : ParserTokenRewriteGuard) (deletion : ByteRange)
    (P : List RawToken → List RawToken → Prop) : Prop :=
  ∃ front before deleted behind rest, TokenCut tk guard deletion front before deleted behind rest ∧
    P before behind

section Relex

variable {tk : Tokenizer} {before behind : List RawToken}

/-- Blanks are blanks, however they are divided. -/
theorem foldl_advance_blanks (s : Tokenizer.ParserTokenState) {raw : RawToken}
    {blanks : List RawToken} {kind : TokenKind} (hraw : isTrivia raw.kind = true)
    (hblanks : ∀ blank ∈ blanks, isTrivia blank.kind = true) (hkind : isTrivia kind = true) :
    (raw :: blanks).foldl tk.advance s = tk.advance s ⟨kind, raw.text ++ textOf blanks⟩ := by
  have hadvance : ∀ (s : Tokenizer.ParserTokenState) (raw : RawToken), isTrivia raw.kind = true →
      tk.advance s raw = { s with separated := true, offset := s.offset + utf8Len raw.text } := by
    intro s raw hraw
    unfold Tokenizer.advance
    simp only [hraw, if_true]
  have hfold : ∀ (blanks : List RawToken) (s : Tokenizer.ParserTokenState), s.separated = true →
      (∀ blank ∈ blanks, isTrivia blank.kind = true) →
      blanks.foldl tk.advance s = { s with offset := s.offset + utf8Len (textOf blanks) } := by
    intro blanks
    induction blanks with
    | nil => exact fun _ _ _ => rfl
    | cons blank blanks ih =>
      intro s hs hall
      rw [foldl_cons, hadvance s blank (hall blank (by simp)),
        ih _ rfl fun b hb => hall b (by simp [hb])]
      cases s
      cases hs
      simp [Nat.add_assoc]
  rw [foldl_cons, hadvance s raw hraw, hfold blanks _ rfl hblanks, hadvance s _ hkind]
  simp [Nat.add_assoc]

/-- The lexer cuts the text behind the deletion as it did. -/
theorem LexesAlike.lexes_behind (h : LexesAlike tk before behind) (hnil : tk.next [] = none) :
    ∀ rest done, behind = done ++ rest → Lexes tk rest := by
  intro rest
  induction rest with
  | nil => exact fun _ _ => .nil hnil
  | cons raw rest ih =>
    intro done hsplit
    exact .cons (h.behind done raw rest hsplit) (ih (done ++ [raw]) (by simp [hsplit]))

/-- Without the deletion the lexer finds the same tokens, but for how blanks are divided. -/
theorem LexesAlike.readsAlike (h : LexesAlike tk before behind) (hnil : tk.next [] = none) :
    ReadsAlike tk before behind := by
  have key : ∀ rest done, before = done ++ rest →
      ∃ raws, Lexes tk raws ∧ textOf raws = textOf rest ++ textOf behind ∧
        ∀ s, raws.foldl tk.advance s = (rest ++ behind).foldl tk.advance s := by
    intro rest
    induction rest with
    | nil => exact fun _ _ => ⟨behind, h.lexes_behind hnil behind [] rfl, rfl, fun _ => rfl⟩
    | cons raw rest ih =>
      intro done hsplit
      rcases h.before done raw rest hsplit with hnext | ⟨hlast, hraw, kind, blanks, tail, hbehind,
        hblanks, hkind, hnext⟩
      · obtain ⟨raws, hlexes, htext, hfold⟩ := ih (done ++ [raw]) (by simp [hsplit])
        refine ⟨raw :: raws, .cons ?_ hlexes, by simp [htext], fun s => ?_⟩
        · rw [textOf_cons, htext, ← append_assoc]
          exact hnext
        · rw [foldl_cons, hfold]
          rfl
      · subst hlast
        refine ⟨⟨kind, raw.text ++ textOf blanks⟩ :: tail, .cons ?_
          (h.lexes_behind hnil tail blanks hbehind), by simp [hbehind], fun s => ?_⟩
        · rw [hbehind, textOf_append, ← append_assoc] at hnext
          exact hnext
        · rw [foldl_cons, ← foldl_advance_blanks s hraw hblanks hkind, ← foldl_append, hbehind]
          rfl
  obtain ⟨raws, hlexes, htext, hfold⟩ := key before [] rfl
  exact ⟨raws, hlexes, htext, by rw [Tokenizer.parse, Tokenizer.parse, hfold]⟩

/-- The tokens of a text are determined. -/
theorem Lexes.unique {raws raws' : List RawToken} (h : Lexes tk raws) (h' : Lexes tk raws')
    (htext : textOf raws = textOf raws') : raws = raws' := by
  induction h generalizing raws' with
  | nil hnil =>
    cases h' with
    | nil => rfl
    | cons hnext hrest =>
      rw [← htext, textOf_nil, hnil] at hnext
      cases hnext
  | @cons raw raws hnext hrest ih =>
    cases h' with
    | nil hnil =>
      rw [htext, textOf_nil, hnil] at hnext
      cases hnext
    | @cons raw' raws' hnext' hrest' =>
      rw [htext, hnext'] at hnext
      obtain ⟨hkind, hlen⟩ : raw'.kind = raw.kind ∧ utf8Len raw'.text = utf8Len raw.text := by
        simpa [RawToken.token] using hnext
      have hfirst : raw.text = raw'.text := by
        have htake := takeBytes_append raw.text (textOf raws)
        rw [← textOf_cons, htext, ← hlen, textOf_cons, takeBytes_append] at htake
        exact (Option.some.inj htake).symm
      have hraw : raw = raw' := by
        cases raw
        cases raw'
        simp_all
      subst hraw
      rw [ih hrest' (by simpa using htext)]

/-- A list of tokens is cut in one way at a given offset. -/
theorem split_unique {front back front' back' : List RawToken}
    (hne : ∀ raw ∈ front ++ back, raw.text ≠ []) (h : front ++ back = front' ++ back')
    (hlen : utf8Len (textOf front) = utf8Len (textOf front')) : front = front' ∧ back = back' := by
  induction front generalizing front' with
  | nil =>
    cases front' with
    | nil => exact ⟨rfl, h⟩
    | cons raw front' =>
      rw [nil_append, cons_append] at h
      have hraw := hne raw (by simp [h])
      rw [textOf_nil, textOf_cons, utf8Len_append] at hlen
      exact absurd (eq_nil_of_utf8Len_eq_zero (by simp at hlen; omega)) hraw
  | cons raw front ih =>
    cases front' with
    | nil =>
      have hraw := hne raw (by simp)
      rw [textOf_nil, textOf_cons, utf8Len_append] at hlen
      exact absurd (eq_nil_of_utf8Len_eq_zero (by simp at hlen; omega)) hraw
    | cons raw' front' =>
      rw [cons_append, cons_append, List.cons.injEq] at h
      obtain ⟨rfl, h⟩ := h
      rw [textOf_cons, textOf_cons, utf8Len_append, utf8Len_append] at hlen
      obtain ⟨rfl, rfl⟩ := ih (fun r hr => hne r (by
        rw [cons_append]
        exact mem_cons_of_mem _ hr)) h (Nat.add_left_cancel hlen)
      exact ⟨rfl, rfl⟩

/-- There is one way of cutting the tokens. -/
theorem TokenCut.unique {guard : ParserTokenRewriteGuard} {deletion : ByteRange}
    {front deleted rest front' before' deleted' behind' rest' : List RawToken}
    (h : TokenCut tk guard deletion front before deleted behind rest)
    (h' : TokenCut tk guard deletion front' before' deleted' behind' rest') :
    before = before' ∧ behind = behind' := by
  have hwindow := h.window.symm.trans h'.window
  rw [Option.some.injEq, ByteRange.mk.injEq] at hwindow
  have hne := h.lexes.text_ne_nil
  have hne₂ := fun raw hraw => hne raw (mem_append_right _ hraw)
  have hne₃ := fun raw hraw => hne₂ raw (mem_append_right _ hraw)
  have hne₄ := fun raw hraw => hne₃ raw (mem_append_right _ hraw)
  obtain ⟨rfl, hback⟩ := split_unique hne (h.lexes.unique h'.lexes (h.text.trans h'.text.symm))
    hwindow.1
  obtain ⟨rfl, hback₂⟩ := split_unique hne₂ hback
    (Nat.add_left_cancel (h.start.trans h'.start.symm))
  obtain ⟨-, hback₃⟩ := split_unique hne₃ hback₂ (Nat.add_left_cancel (h.stop.trans h'.stop.symm))
  obtain ⟨rfl, -⟩ := split_unique hne₄ hback₃ (Nat.add_left_cancel hwindow.2)
  exact ⟨rfl, rfl⟩

end Relex

/-! ## Tokens of chunks -/

variable {tokens : List ParserToken}

namespace Chunk

variable {tk : Tokenizer} {cs : List Chunk} {offset offset' : Nat}

/-- The identity of a token does not depend on where it is. -/
theorem tokensOf_identity (tk : Tokenizer) (cs : List Chunk) (offset offset' : Nat) :
    (tokensOf tk offset cs).map ParserToken.identity =
      (tokensOf tk offset' cs).map ParserToken.identity := by
  induction cs generalizing offset offset' with
  | nil => rfl
  | cons c cs ih =>
    cases c with
    | trivia raw => exact ih _ _
    | token first parts => exact congrArg (_ :: ·) (ih _ _)

/-- The tokens lie in the text of their chunks, and none is empty. -/
theorem mem_tokensOf (hraws : ∀ raw ∈ rawsOf cs, raw.text ≠ []) {token : ParserToken}
    (ht : token ∈ tokensOf tk offset cs) : offset ≤ token.range.start ∧
      token.range.start < token.range.stop ∧
      token.range.stop ≤ offset + utf8Len (textOf (rawsOf cs)) := by
  induction cs generalizing offset with
  | nil => cases ht
  | cons c cs ih =>
    have hrest : ∀ raw ∈ rawsOf cs, raw.text ≠ [] := fun raw hraw =>
      hraws raw (by rw [rawsOf_cons]; exact mem_append_right _ hraw)
    have hlen : utf8Len (textOf (rawsOf (c :: cs))) = c.len + utf8Len (textOf (rawsOf cs)) := by
      rw [rawsOf_cons, textOf_append, utf8Len_append]
      rfl
    rw [tokensOf, mem_append] at ht
    rcases ht with ht | ht
    · cases c with
      | trivia raw => cases ht
      | token first parts =>
        rw [parserToken, toList_some, mem_singleton] at ht
        subst ht
        have hfirst : first.text ≠ [] := hraws first (by simp [raws])
        have hpos : 0 < utf8Len first.text :=
          Nat.pos_of_ne_zero fun h0 => hfirst (eq_nil_of_utf8Len_eq_zero h0)
        have hlenToken : (Chunk.token first parts).len = utf8Len (textOf (first :: parts)) := rfl
        simp only [textOf_cons, utf8Len_append] at hlenToken ⊢
        omega
    · obtain ⟨h₁, h₂, h₃⟩ := ih hrest ht
      omega

/-- Chunks without tokens are blank. -/
theorem eq_trivia_of_tokensOf_eq_nil (h : tokensOf tk offset cs = []) :
    ∀ c ∈ cs, ∃ raw, c = trivia raw := by
  induction cs generalizing offset with
  | nil => simp
  | cons c cs ih =>
    rw [tokensOf, append_eq_nil_iff] at h
    intro c' hc'
    rcases mem_cons.mp hc' with rfl | hc'
    · cases c' with
      | trivia raw => exact ⟨raw, rfl⟩
      | token first parts => cases h.1
    · exact ih h.2 c' hc'

theorem apart_trivia_left (raw : RawToken) (c : Chunk) : Apart tk (trivia raw) c := by
  cases c <;> trivial

theorem apart_trivia_right (c : Chunk) (raw : RawToken) : Apart tk c (trivia raw) := by
  cases c <;> trivial

/-- The chunks can be cut where a token starts. -/
theorem split_before {i : Nat} {t : ParserToken} (h : tokensOf tk offset cs = tokens)
    (hi : tokens[i]? = some t) :
    ∃ front back, cs = front ++ back ∧ offset + utf8Len (textOf (rawsOf front)) = t.range.start ∧
      tokensOf tk offset front = tokens.take i ∧
      tokensOf tk t.range.start back = tokens.drop i ∧ back ≠ [] := by
  obtain ⟨front, first, parts, behind, rfl, hfront, htoken, hbehind⟩ := split_at_token h hi
  have hstart : offset + utf8Len (textOf (rawsOf front)) = t.range.start := by
    rw [parserToken, Option.some.injEq] at htoken
    rw [← htoken]
  refine ⟨front, token first parts :: behind, rfl, hstart, hfront, ?_, by simp⟩
  rw [tokensOf_append, hfront, hstart] at h
  exact append_cancel_left (h.trans (take_append_drop i tokens).symm)

/-- The chunks can be cut where a token ends. -/
theorem split_after {i : Nat} {t : ParserToken} (h : tokensOf tk offset cs = tokens)
    (hi : tokens[i]? = some t) :
    ∃ front back, cs = front ++ back ∧ offset + utf8Len (textOf (rawsOf front)) = t.range.stop ∧
      tokensOf tk offset front = tokens.take (i + 1) ∧
      tokensOf tk t.range.stop back = tokens.drop (i + 1) ∧ front ≠ [] := by
  obtain ⟨front, first, parts, behind, rfl, hfront, htoken, hbehind⟩ := split_at_token h hi
  refine ⟨front ++ [token first parts], behind, by simp, ?_, ?_, hbehind, by simp⟩
  · rw [parserToken, Option.some.injEq] at htoken
    rw [← htoken]
    simp [raws, Nat.add_assoc]
  · rw [tokensOf_append, hfront, tokensOf, tokensOf, append_nil, htoken,
      toList_some, take_add_one, hi, toList_some]

end Chunk

/-! ## The window of a lone pound -/

namespace ParserTokenRewriteGuard

open Chunk

variable {guard : ParserTokenRewriteGuard} {tk : Tokenizer} {deletion : ByteRange} {index : Nat}
  {cs : List Chunk}

/-- The chunks before a token, from the start of the window on. -/
theorem exists_leftWindow (hcs : tokensOf tk 0 cs = guard.tokens.take index)
    (hlen : utf8Len (textOf (rawsOf cs)) = deletion.start) (hindex : index < guard.tokens.length) :
    ∃ front before, cs = front ++ before ∧
      utf8Len (textOf (rawsOf front)) = (if guard.leftStart index < index then
        (guard.tokens[guard.leftStart index]?.map fun token => token.range.start).getD
          deletion.start
        else deletion.start) ∧
      tokensOf tk (utf8Len (textOf (rawsOf front))) before =
        (guard.tokens.take index).drop (guard.leftStart index) ∧ (before = [] → index = 0) := by
  by_cases hlt : guard.leftStart index < index
  · have hget := getElem?_eq_getElem (hlt.trans hindex)
    have hget' : (guard.tokens.take index)[guard.leftStart index]? =
        some guard.tokens[guard.leftStart index] := by
      rw [getElem?_take_of_lt hlt, hget]
    obtain ⟨front, before, rfl, hstart, -, hbefore, hne⟩ := split_before hcs hget'
    rw [Nat.zero_add] at hstart
    refine ⟨front, before, rfl, ?_, hstart ▸ hbefore, fun h => absurd h hne⟩
    rw [if_pos hlt, hget, hstart]
    rfl
  · have hzero : index = 0 := by
      by_contra hne
      exact hlt (leftStart_lt hne)
    refine ⟨cs, [], by simp, by rw [if_neg hlt, hlen], ?_, fun _ => hzero⟩
    simp [hzero, tokensOf]

/-- The chunks behind a token, up to the end of the window. -/
theorem exists_rightWindow (hcs : tokensOf tk deletion.stop cs = guard.tokens.drop (index + 1))
    (hindex : index < guard.tokens.length) :
    ∃ behind rest, cs = behind ++ rest ∧
      deletion.stop + utf8Len (textOf (rawsOf behind)) =
        (if index + 1 < guard.rightEnd (index + 1) then
          (guard.tokens[guard.rightEnd (index + 1) - 1]?.map fun token => token.range.stop).getD
            deletion.stop
        else deletion.stop) ∧
      tokensOf tk deletion.stop behind =
        (guard.tokens.drop (index + 1)).take (guard.rightEnd (index + 1) - (index + 1)) ∧
      (behind = [] → index + 1 = guard.tokens.length) := by
  by_cases hlt : index + 1 < guard.tokens.length
  · have hright := lt_rightEnd hlt
    have hle := rightEnd_le hlt.le
    obtain ⟨j, hj⟩ : ∃ j, guard.rightEnd (index + 1) - 1 = index + 1 + j :=
      ⟨_, (Nat.add_sub_of_le (Nat.le_sub_one_of_lt hright)).symm⟩
    have hget : guard.tokens[index + 1 + j]? = some guard.tokens[index + 1 + j] :=
      getElem?_eq_getElem (by omega)
    have hget' : (guard.tokens.drop (index + 1))[j]? = some guard.tokens[index + 1 + j] := by
      rw [getElem?_drop, hget]
    obtain ⟨behind, rest, rfl, hstop, hbehind, -, hne⟩ := split_after hcs hget'
    refine ⟨behind, rest, rfl, ?_, ?_, fun h => absurd h hne⟩
    · rw [if_pos hright, hj, hget, hstop]
      rfl
    · rw [hbehind]
      congr 1
      omega
  · have hnone : ¬index + 1 < guard.rightEnd (index + 1) := by
      have hle : guard.rightEnd (index + 1) ≤ guard.tokens.length := rightEnd_le hindex
      omega
    refine ⟨[], cs, rfl, by rw [if_neg hnone]; rfl, ?_, fun _ => by omega⟩
    rw [Nat.sub_eq_zero_of_le (Nat.le_of_not_lt hnone), take_zero]
    rfl

/-- The chunks next to the pound on its left end with a blank if the token before it ends
earlier. -/
theorem getLast?_trivia {i : Nat} {previous : ParserToken}
    (hcs : tokensOf tk 0 cs = guard.tokens.take (i + 1)) (hget : guard.tokens[i]? = some previous)
    (hgap : previous.range.stop < utf8Len (textOf (rawsOf cs))) :
    ∃ raw, cs.getLast? = some (trivia raw) := by
  have hget' : (guard.tokens.take (i + 1))[i]? = some previous := by
    rw [getElem?_take_of_lt (Nat.lt_succ_self i), hget]
  obtain ⟨front, back, rfl, hstop, -, hback, -⟩ := split_after hcs hget'
  rw [drop_eq_nil_of_le (length_take_le _ _)] at hback
  have hne : back ≠ [] := by
    rintro rfl
    rw [append_nil] at hgap
    omega
  obtain ⟨raw, hraw⟩ := eq_trivia_of_tokensOf_eq_nil hback _ (getLast_mem hne)
  refine ⟨raw, ?_⟩
  rw [getLast?_append_of_ne_nil _ hne, getLast?_eq_some_getLast hne, hraw]

/-- The chunks next to the pound on its right start with a blank if the token behind it starts
later. -/
theorem head?_trivia {following : ParserToken}
    (hcs : tokensOf tk deletion.stop cs = guard.tokens.drop (index + 1))
    (hget : guard.tokens[index + 1]? = some following)
    (hgap : deletion.stop < following.range.start) : ∃ raw, cs.head? = some (trivia raw) := by
  have hget' : (guard.tokens.drop (index + 1))[0]? = some following := by
    rw [getElem?_drop, Nat.add_zero, hget]
  obtain ⟨front, back, rfl, hstart, hfront, -, -⟩ := split_before hcs hget'
  cases front with
  | nil =>
    simp at hstart
    omega
  | cons c front =>
    obtain ⟨raw, rfl⟩ := eq_trivia_of_tokensOf_eq_nil hfront c (by simp)
    exact ⟨raw, rfl⟩

theorem sameTokens_nil_iff {originals actual : List ParserToken} :
    sameTokens [] originals actual = true ↔
      actual.map ParserToken.identity = originals.map ParserToken.identity := by
  induction originals generalizing actual with
  | nil => cases actual <;> simp [sameTokens]
  | cons original originals ih =>
    cases actual with
    | nil => simp [sameTokens]
    | cons token actual =>
      simp [sameTokens, ParserToken.sameIdentity_iff, ih]

/-- The tokens around a deleted one are compared with those that have been found. -/
theorem sameTokens_around_iff {before behind actual : List ParserToken} {t : ParserToken}
    (hdeletion : deletion.start < deletion.stop) (ht : t.range = deletion)
    (hbefore : ∀ token ∈ before, token.range.start < deletion.start)
    (hbehind : ∀ token ∈ behind, deletion.stop ≤ token.range.start) :
    sameTokens [deletion] (before ++ t :: behind) actual = true ↔
      actual.map ParserToken.identity = (before ++ behind).map ParserToken.identity := by
  induction before generalizing actual with
  | nil =>
    have hskip : sameTokens [deletion] (t :: behind) actual =
        sameTokens [deletion] behind actual := by
      simp [sameTokens, ht, ByteRange.contains, Nat.not_le.mpr hdeletion]
    have hdone : sameTokens [deletion] behind actual = sameTokens [] behind actual := by
      cases behind with
      | nil => rfl
      | cons token behind => simp [sameTokens, hbehind token mem_cons_self]
    rw [nil_append, nil_append, hskip, hdone, sameTokens_nil_iff]
  | cons token before ih =>
    obtain ⟨hlt, hbefore⟩ := forall_mem_cons.mp hbefore
    cases actual with
    | nil => simp [sameTokens, ByteRange.contains, Nat.not_le.mpr (hlt.trans hdeletion),
        Nat.not_le.mpr hlt]
    | cons other actual =>
      simp [sameTokens, ByteRange.contains, Nat.not_le.mpr (hlt.trans hdeletion),
        Nat.not_le.mpr hlt, ParserToken.sameIdentity_iff, ih hbefore]

/-- The tokens of a window are those before the deleted token, that token, and those behind. -/
theorem window_tokens {token : ParserToken} (htoken : guard.tokens[index]? = some token) :
    (guard.tokens.drop (guard.leftStart index)).take
        (guard.rightEnd (index + 1) - guard.leftStart index) =
      (guard.tokens.take index).drop (guard.leftStart index) ++
        token :: (guard.tokens.drop (index + 1)).take
          (guard.rightEnd (index + 1) - (index + 1)) := by
  have hleft : guard.leftStart index ≤ index := leftStart_le index
  obtain ⟨hlt, hget⟩ := List.getElem?_eq_some_iff.mp htoken
  have hright : index + 1 ≤ guard.rightEnd (index + 1) := by
    rcases Nat.lt_or_eq_of_le (Nat.succ_le_of_lt hlt) with h | h
    · exact (lt_rightEnd h).le
    · unfold rightEnd
      rw [if_neg (by omega)]
  have hsplit :
      guard.tokens = guard.tokens.take index ++ token :: guard.tokens.drop (index + 1) := by
    conv_lhs => rw [← take_append_drop index guard.tokens, drop_eq_getElem_cons hlt, hget]
  have hlen : ((guard.tokens.take index).drop (guard.leftStart index)).length =
      index - guard.leftStart index := by
    rw [length_drop, length_take, Nat.min_eq_left hlt.le]
  have hcount : guard.rightEnd (index + 1) - guard.leftStart index =
      (index - guard.leftStart index) + (guard.rightEnd (index + 1) - (index + 1) + 1) := by omega
  conv_lhs => rw [hsplit]
  rw [drop_append_of_le_length (by rw [length_take]; omega), hcount, take_append,
    hlen, take_of_length_le (by omega), Nat.add_sub_cancel_left, take_succ_cons]

theorem countDeleted_eq_zero (h : ∀ token ∈ tokens, deletion.stop ≤ token.range.start) :
    countDeleted deletion tokens = some 0 := by
  cases tokens with
  | nil => rfl
  | cons token tokens => rw [countDeleted, if_pos (h token mem_cons_self)]

/-- The boundary of a deletion that is a token. -/
theorem deletionBoundary_of_token {cs₁ cs₂ : List Chunk} {first : RawToken} {parts : List RawToken}
    {token : ParserToken} (htoken : guard.tokens[index]? = some token)
    (hrange : token.range = deletion)
    (hsource : textOf (rawsOf (cs₁ ++ Chunk.token first parts :: cs₂)) = guard.source)
    (hne : ∀ raw ∈ rawsOf (cs₁ ++ Chunk.token first parts :: cs₂), raw.text ≠ [])
    (hstart : utf8Len (textOf (rawsOf cs₁)) = deletion.start)
    (hstop : deletion.start + utf8Len (textOf (first :: parts)) = deletion.stop)
    (hcs₁ : tokensOf tk 0 cs₁ = guard.tokens.take index)
    (hcs₂ : tokensOf tk deletion.stop cs₂ = guard.tokens.drop (index + 1)) :
    guard.deletionBoundary deletion = some (guard.boundaryAt deletion index) := by
  obtain ⟨hindex, hget⟩ := List.getElem?_eq_some_iff.mp htoken
  have hraws : rawsOf (cs₁ ++ Chunk.token first parts :: cs₂) =
      rawsOf cs₁ ++ ((first :: parts) ++ rawsOf cs₂) := by simp [raws]
  rw [hraws] at hsource hne
  rw [textOf_append, textOf_append] at hsource
  have hpos : 0 < utf8Len first.text := Nat.pos_of_ne_zero fun h0 =>
    hne first (by simp) (eq_nil_of_utf8Len_eq_zero h0)
  have hlt : deletion.start < deletion.stop := by
    rw [textOf_cons, utf8Len_append] at hstop
    omega
  have hbefore : ∀ t ∈ guard.tokens.take index, t.range.stop ≤ deletion.start := by
    intro t ht
    rw [← hcs₁] at ht
    obtain ⟨-, -, hle⟩ := mem_tokensOf (fun raw hraw => hne raw (by simp [hraw])) ht
    rwa [Nat.zero_add, hstart] at hle
  have hbehind : ∀ t ∈ guard.tokens.drop (index + 1), deletion.stop ≤ t.range.start := by
    intro t ht
    rw [← hcs₂] at ht
    exact (mem_tokensOf (fun raw hraw => hne raw (by simp [hraw])) ht).1
  have hcount : (guard.tokens.takeWhile fun token => token.range.stop ≤ deletion.start).length =
      index := by
    conv_lhs => rw [← take_append_drop index guard.tokens, drop_eq_getElem_cons hindex]
    rw [takeWhile_append_of_pos (by simpa using hbefore), takeWhile_cons_of_neg,
      append_nil, length_take, Nat.min_eq_left hindex.le]
    rw [hget, hrange, decide_eq_true_eq]
    exact hlt.not_ge
  have hdeleted : countDeleted deletion (guard.tokens.drop index) = some 1 := by
    rw [drop_eq_getElem_cons hindex, countDeleted, hget, hrange, if_neg hlt.not_ge,
      if_neg (by rw [Bool.not_eq_true', ByteRange.contains_iff.mpr ⟨le_rfl, le_rfl⟩]; decide),
      countDeleted_eq_zero hbehind]
    rfl
  have hleft : isCharBoundary guard.source deletion.start = true := by
    rw [← hsource, ← hstart, ← Nat.add_zero (utf8Len _), isCharBoundary_append]
    exact isCharBoundary_zero
  have hright : isCharBoundary guard.source deletion.stop = true := by
    rw [← hsource, ← hstop, ← hstart, ← append_assoc, ← utf8Len_append,
      ← Nat.add_zero (utf8Len _), isCharBoundary_append]
    exact isCharBoundary_zero
  have hin : ¬(deletion.stop ≤ deletion.start ∨ utf8Len guard.source < deletion.stop ∨
      ¬isCharBoundary guard.source deletion.start ∨
        ¬isCharBoundary guard.source deletion.stop) := by
    simpa [hleft, hright] using ⟨hlt, le_utf8Len_of_isCharBoundary hright⟩
  unfold deletionBoundary
  rw [if_neg hin]
  dsimp only
  rw [hcount, hdeleted]
  rfl

/-- Around a separated pound the full check reads the tokens again that are left in the window. -/
theorem exists_cut {source : List Char} (hnew : new tk source = .ok guard)
    (hpound : SeparatedPound guard deletion) :
    guard.triviaSeparatedPoundDeletionPreservesIdentity deletion = true ∧
    ∃ front before deleted behind rest,
      TokenCut tk guard deletion front before deleted behind rest ∧
      (guard.deletionsPreserveIdentity tk [deletion] = true ↔ ReadsAlike tk before behind) := by
  obtain ⟨rfl, htokens⟩ := new_ok hnew
  obtain ⟨hsize, raws, hlexes, htext, hparse⟩ := Tokenizer.tokenizeParserTokens_ok htokens
  obtain ⟨cs, hchunked, rfl⟩ := exists_chunked tk raws
  rw [parse_rawsOf hchunked] at hparse
  obtain ⟨index, token, htoken, hrange, hseparated⟩ := hpound
  have hindex := (List.getElem?_eq_some_iff.mp htoken).1
  obtain ⟨cs₁, first, parts, cs₂, rfl, hcs₁, hpound, hcs₂⟩ := split_at_token hparse htoken
  rw [parserToken, Option.some.injEq, Nat.zero_add] at hpound
  have hstart : utf8Len (textOf (rawsOf cs₁)) = deletion.start := by rw [← hrange, ← hpound]
  have hstop : deletion.start + utf8Len (textOf (first :: parts)) = deletion.stop := by
    rw [← hrange, ← hpound]
  rw [hrange] at hcs₂
  have hboundary := deletionBoundary_of_token htoken hrange htext hlexes.text_ne_nil hstart hstop
    hcs₁ hcs₂
  refine ⟨(shortcut_iff_of_boundary hboundary rfl htoken hrange).mpr hseparated, ?_⟩
  obtain ⟨front, before, rfl, hfront, hbefore, hbeforeNil⟩ :=
    exists_leftWindow hcs₁ hstart hindex
  obtain ⟨behind, rest, rfl, hbehind, hbehindTokens, hbehindNil⟩ :=
    exists_rightWindow hcs₂ hindex
  -- one of the two sides ends with a blank
  have hseam : ∀ c ∈ before.getLast?, ∀ c' ∈ behind.head?, Apart tk c c' := by
    rcases hseparated.2 with ⟨i, previous, rfl, hprevious, -, hgap⟩ |
      ⟨following, hfollowing, -, hgap⟩
    · obtain ⟨raw, hraw⟩ := getLast?_trivia hcs₁ hprevious (hstart ▸ hgap)
      have hne : before ≠ [] := fun h => absurd (hbeforeNil h) (Nat.succ_ne_zero i)
      rw [getLast?_append_of_ne_nil _ hne] at hraw
      rw [hraw]
      rintro c ⟨⟩ c' -
      exact apart_trivia_left raw c'
    · obtain ⟨raw, hraw⟩ := head?_trivia hcs₂ hfollowing hgap
      have hne : behind ≠ [] := fun h =>
        absurd (hbehindNil h) (List.getElem?_eq_some_iff.mp hfollowing).1.ne
      rw [head?_append_of_ne_nil _ hne] at hraw
      rw [hraw]
      rintro c - c' ⟨⟩
      exact apart_trivia_right c raw
  have hwindow : guard.deletionDependencyWindow deletion = some
      ⟨utf8Len (textOf (rawsOf front)), deletion.stop + utf8Len (textOf (rawsOf behind))⟩ := by
    rw [deletionDependencyWindow, hboundary, hfront, hbehind]
    rfl
  have hraws : rawsOf (front ++ before ++ Chunk.token first parts :: (behind ++ rest)) =
      rawsOf front ++ (rawsOf before ++ ((first :: parts) ++ (rawsOf behind ++ rawsOf rest))) := by
    simp [raws]
  have hne := hlexes.text_ne_nil
  rw [hraws] at hlexes htext hne
  rw [rawsOf_append, textOf_append, utf8Len_append] at hstart
  refine ⟨rawsOf front, rawsOf before, first :: parts, rawsOf behind, rawsOf rest,
    ⟨hlexes, htext, hstart, hstop, hwindow⟩, ?_⟩
  -- the tokens of the rewritten window
  have hback : Chunked tk ([Chunk.token first parts] ++ (behind ++ rest)) := hchunked.right
  have hjoined : Chunked tk (before ++ behind) :=
    hchunked.left.right.append hback.right.left hseam
  -- the text of the rewritten window
  have hcut : cutText guard.source (deletion.stop + utf8Len (textOf (rawsOf behind)))
      (utf8Len (textOf (rawsOf front))) [deletion] =
        some (textOf (rawsOf before) ++ textOf (rawsOf behind)) := by
    have hleft : textRange guard.source (utf8Len (textOf (rawsOf front))) deletion.start =
        some (textOf (rawsOf before)) := by
      rw [← htext, ← hstart, textOf_append, textOf_append]
      exact textRange_append _ _ _
    have hright : textRange guard.source deletion.stop
        (deletion.stop + utf8Len (textOf (rawsOf behind))) = some (textOf (rawsOf behind)) := by
      have hfrontLen : deletion.stop = utf8Len (textOf (rawsOf front) ++
          (textOf (rawsOf before) ++ textOf (first :: parts))) := by
        rw [utf8Len_append, utf8Len_append, ← hstop, ← hstart, Nat.add_assoc]
      rw [← htext, hfrontLen, textOf_append, textOf_append, textOf_append, textOf_append]
      have happend := textRange_append (textOf (rawsOf front) ++
        (textOf (rawsOf before) ++ textOf (first :: parts))) (textOf (rawsOf behind))
        (textOf (rawsOf rest))
      simpa only [append_assoc] using happend
    rw [cutText, hleft, bind_some, cutText, hright]
    rfl
  have hdeletion : deletion.start < deletion.stop := by
    have hpos : 0 < utf8Len first.text := Nat.pos_of_ne_zero fun h0 =>
      hne first (by simp) (eq_nil_of_utf8Len_eq_zero h0)
    rw [textOf_cons, utf8Len_append] at hstop
    omega
  have hbeforeRange : ∀ t ∈ tokensOf tk (utf8Len (textOf (rawsOf front))) before,
      t.range.start < deletion.start := by
    intro t ht
    obtain ⟨-, hlt, hle⟩ := mem_tokensOf (fun raw hraw => hne raw (by simp [hraw])) ht
    exact hlt.trans_le (hle.trans hstart.le)
  have hbehindRange : ∀ t ∈ tokensOf tk deletion.stop behind, deletion.stop ≤ t.range.start :=
    fun t ht => (mem_tokensOf (fun raw hraw => hne raw (by simp [hraw])) ht).1
  have hsame : ∀ actual, sameTokens [deletion] ((guard.tokens.drop (guard.leftStart index)).take
      (guard.rightEnd (index + 1) - guard.leftStart index)) actual = true ↔
        actual.map ParserToken.identity =
          (tk.parse (rawsOf before ++ rawsOf behind)).map ParserToken.identity := by
    intro actual
    rw [window_tokens htoken, ← hbefore, ← hbehindTokens,
      sameTokens_around_iff hdeletion hrange hbeforeRange hbehindRange, ← rawsOf_append,
      parse_rawsOf hjoined, tokensOf_append, map_append, map_append,
      tokensOf_identity tk before _ 0,
      tokensOf_identity tk behind deletion.stop (0 + utf8Len (textOf (rawsOf before)))]
  unfold deletionsPreserveIdentity
  simp only [overlap, Bool.false_eq_true, if_false, hboundary, any_nil, boundaryAt, ← hfront,
    ← hbehind, hcut]
  constructor
  · intro h
    cases hactual : tk.tokenizeParserTokens (textOf (rawsOf before) ++ textOf (rawsOf behind)) with
    | error error =>
      rw [hactual] at h
      exact absurd h Bool.false_ne_true
    | ok actual =>
      rw [hactual] at h
      obtain ⟨-, raws, hraws, htextRaws, rfl⟩ := Tokenizer.tokenizeParserTokens_ok hactual
      exact ⟨raws, hraws, htextRaws, (hsame _).mp h⟩
  · rintro ⟨raws, hraws, htextRaws, hidentity⟩
    have hshort : utf8Len (textOf raws) < u32Size := by
      rw [htextRaws, utf8Len_append]
      rw [← htext] at hsize
      simp only [textOf_append, utf8Len_append] at hsize
      omega
    rw [← htextRaws, Tokenizer.tokenizeParserTokens_of_lexes hraws hshort]
    exact (hsame _).mpr hidentity

/-- The shortcut agrees with the full check on a deletion just if it is no separated pound or the
lexer finds the tokens of the window without it, as it does where it takes no notice of it. -/
theorem deletionsPreserveIdentity_of_shortcut {source : List Char}
    (hnew : new tk source = .ok guard) :
    ((guard.triviaSeparatedPoundDeletionPreservesIdentity deletion = true →
        guard.deletionsPreserveIdentity tk [deletion] = true) ↔
      (SeparatedPound guard deletion → AroundDeletion tk guard deletion (ReadsAlike tk))) ∧
    ((SeparatedPound guard deletion → AroundDeletion tk guard deletion (LexesAlike tk)) →
      guard.triviaSeparatedPoundDeletionPreservesIdentity deletion = true →
        guard.deletionsPreserveIdentity tk [deletion] = true) := by
  have hreads : SeparatedPound guard deletion →
      (guard.deletionsPreserveIdentity tk [deletion] = true ↔
        AroundDeletion tk guard deletion (ReadsAlike tk)) := by
    intro hpound
    obtain ⟨-, front, before, deleted, behind, rest, hcut, hiff⟩ := exists_cut hnew hpound
    rw [hiff]
    refine ⟨fun h => ⟨front, before, deleted, behind, rest, hcut, h⟩, ?_⟩
    rintro ⟨_, before', _, behind', _, hcut', h⟩
    obtain ⟨rfl, rfl⟩ := hcut.unique hcut'
    exact h
  have hshort : guard.triviaSeparatedPoundDeletionPreservesIdentity deletion = true ↔
      SeparatedPound guard deletion :=
    ⟨separatedPound_of_shortcut, fun hpound => (exists_cut hnew hpound).1⟩
  rw [hshort]
  refine ⟨forall_congr' hreads, fun h hpound => (hreads hpound).mpr ?_⟩
  obtain ⟨front, before, deleted, behind, rest, hcut, halike⟩ := h hpound
  exact ⟨front, before, deleted, behind, rest, hcut, halike.readsAlike hcut.lexes.next_nil⟩

/-- Identifiers, pounds and spaces: an identifier that a pound follows directly is a prefix. -/
def prefixTokenizer : Tokenizer where
  next
    | [] => none
    | ' ' :: text => some ⟨.whitespace, 1 + (text.takeWhile (· == ' ')).length⟩
    | '#' :: _ => some ⟨.pound, 1⟩
    | c :: '#' :: _ => some ⟨.other 1, c.utf8Size⟩
    | c :: _ => some ⟨.other 0, c.utf8Size⟩
  glue _ _ := none
  next_pos text token h := by
    split at h
    · cases h
    · cases h
      exact Nat.lt_add_right _ Nat.one_pos
    · cases h
      exact Nat.one_pos
    · cases h
      exact Char.utf8Size_pos _
    · cases h
      exact Char.utf8Size_pos _

/-- The prefix becomes an identifier when its pound is deleted. -/
theorem shortcut_accepts_prefix : ∃ guard, new prefixTokenizer ['x', '#', ' ', '#'] = .ok guard ∧
    guard.triviaSeparatedPoundDeletionPreservesIdentity ⟨1, 2⟩ = true ∧
    guard.deletionsPreserveIdentity prefixTokenizer [⟨1, 2⟩] = false :=
  ⟨_, rfl, by decide, by decide⟩

/-- The window of the full check ends before the pound that makes the last token a prefix. -/
example : ∃ guard, new prefixTokenizer ['#', ' ', '#', ' ', 'a', ' ', 'b', '#'] = .ok guard ∧
    guard.triviaSeparatedPoundDeletionPreservesIdentity ⟨2, 3⟩ = true ∧
    guard.deletionsPreserveIdentity prefixTokenizer [⟨2, 3⟩] = false :=
  ⟨_, rfl, by decide, by decide⟩

/-- A pound between two others can be deleted. -/
theorem deletionsPreserveIdentity_pounds :
    ∃ guard, new prefixTokenizer ['#', ' ', '#', ' ', '#'] = .ok guard ∧
      guard.deletionsPreserveIdentity prefixTokenizer [⟨2, 3⟩] = true := by
  have hnew : new prefixTokenizer ['#', ' ', '#', ' ', '#'] = .ok
      ⟨['#', ' ', '#', ' ', '#'], [⟨⟨0, 1⟩, ['#'], .pound, some .pound⟩,
        ⟨⟨2, 3⟩, ['#'], .pound, some .pound⟩, ⟨⟨4, 5⟩, ['#'], .pound, some .pound⟩]⟩ := rfl
  refine ⟨_, hnew, (deletionsPreserveIdentity_of_shortcut hnew).2 (fun _ => ?_) (by decide)⟩
  refine ⟨[], [⟨.pound, ['#']⟩, ⟨.whitespace, [' ']⟩], [⟨.pound, ['#']⟩],
    [⟨.whitespace, [' ']⟩, ⟨.pound, ['#']⟩], [], ⟨?_, rfl, rfl, rfl, by decide⟩, ?_, ?_⟩
  · exact .cons rfl (.cons rfl (.cons rfl (.cons rfl (.cons rfl (.nil rfl)))))
  · intro done raw rest h
    rcases done with _ | ⟨_, _ | ⟨_, done⟩⟩
    · cases h
      exact Or.inl rfl
    · cases h
      exact Or.inr ⟨rfl, rfl, .whitespace, [⟨.whitespace, [' ']⟩], [⟨.pound, ['#']⟩], rfl,
        by simp [isTrivia], rfl, rfl⟩
    · simp at h
  · intro done raw rest h
    rcases done with _ | ⟨_, _ | ⟨_, done⟩⟩
    · cases h
      rfl
    · cases h
      rfl
    · simp at h

end ParserTokenRewriteGuard

end ItemDependencies
