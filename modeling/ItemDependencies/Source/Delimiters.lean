import ItemDependencies.Library.Brackets
import ItemDependencies.Source.ParserTokens

/-!
# Delimiters and comma-separated lists

A range of source text is cut into tokens whose delimiters match.  Between two
matching delimiters the commas outside all inner delimiters cut the text into
the segments of a list.
-/

namespace ItemDependencies

open Library Library.Brackets List

inductive Delimiter where
  | parenthesis
  | brace
  | bracket
deriving DecidableEq

namespace Delimiter

def opening : TokenKind → Option Delimiter
  | .openParen => some .parenthesis
  | .openBrace => some .brace
  | .openBracket => some .bracket
  | _ => none

def closing : TokenKind → Option Delimiter
  | .closeParen => some .parenthesis
  | .closeBrace => some .brace
  | .closeBracket => some .bracket
  | _ => none

end Delimiter

structure SourceToken where
  kind : TokenKind
  range : ByteRange
deriving DecidableEq

/-- A delimiter and its partner, by the numbers of their tokens. -/
structure DelimiterPair where
  delimiter : Delimiter
  opening : Nat
  closing : Nat
deriving DecidableEq

structure CommaListSegment where
  range : ByteRange
  previousComma : Option ByteRange
  followingComma : Option ByteRange
deriving DecidableEq

/-- The range of a token, by its number. -/
def tokenRange (tokens : List SourceToken) (index : Nat) : ByteRange :=
  (tokens[index]?.map SourceToken.range).getD ⟨0, 0⟩

namespace Tokenizer

structure BalancedState where
  tokens : List SourceToken
  offset : Nat
  stack : List (Delimiter × Nat)
  pairs : List DelimiterPair

def balancedStep (s : BalancedState) (token : Token) : Except SourceSyntaxError BalancedState :=
  let stop := s.offset + token.len
  let index := s.tokens.length
  let tokens := s.tokens ++ [⟨token.kind, ⟨s.offset, stop⟩⟩]
  if u32Size ≤ stop then throw .sourceTooLarge
  else
    match Delimiter.opening token.kind with
    | some delimiter => return ⟨tokens, stop, (delimiter, index) :: s.stack, s.pairs⟩
    | none =>
      match Delimiter.closing token.kind with
      | some delimiter =>
        match s.stack with
        | [] => throw .invalidSyntax
        | (openDelimiter, first) :: stack =>
          if openDelimiter ≠ delimiter then throw .invalidSyntax
          else return ⟨tokens, stop, stack, s.pairs ++ [⟨delimiter, first, index⟩]⟩
      | none => return ⟨tokens, stop, s.stack, s.pairs⟩

def tokenizeBalancedRange (tk : Tokenizer) (source : List Char) (range : ByteRange) :
    Except SourceSyntaxError (List SourceToken × List DelimiterPair) :=
  match textRange source range.start range.stop with
  | none => throw .invalidRange
  | some input => do
    let s ← (tk.tokenize input).foldlM balancedStep ⟨[], range.start, [], []⟩
    if s.offset ≠ range.stop ∨ s.stack ≠ [] then throw .invalidSyntax
    return (s.tokens, s.pairs)

end Tokenizer

/-- One token of a list: the delimiters that are open, and the commas outside all of them. -/
def commaStep (s : List Delimiter × List Nat) (entry : SourceToken × Nat) :
    Except SourceSyntaxError (List Delimiter × List Nat) :=
  match Delimiter.opening entry.1.kind with
  | some delimiter => return (delimiter :: s.1, s.2)
  | none =>
    match Delimiter.closing entry.1.kind with
    | some delimiter =>
      if s.1.head? ≠ some delimiter then throw .invalidSyntax else return (s.1.tail, s.2)
    | none =>
      if entry.1.kind = .comma ∧ s.1.isEmpty then return (s.1, s.2 ++ [entry.2]) else return s

/-- The segment before the comma with this number, or behind the last one. -/
def commaListSegment (tokens : List SourceToken) (first last : ByteRange) (commas : List Nat)
    (index : Nat) : CommaListSegment :=
  let previous := if index = 0 then none else commas[index - 1]?
  let following := commas[index]?
  { range := ⟨(previous.map fun comma => (tokenRange tokens comma).stop).getD first.stop,
      (following.map fun comma => (tokenRange tokens comma).start).getD last.start⟩
    previousComma := previous.map (tokenRange tokens)
    followingComma := following.map (tokenRange tokens) }

def commaListSegments (tokens : List SourceToken) (pair : DelimiterPair) :
    Except SourceSyntaxError (List CommaListSegment) :=
  let first := tokens[pair.opening]?.filter fun token =>
    Delimiter.opening token.kind == some pair.delimiter
  let last := tokens[pair.closing]?.filter fun token =>
    Delimiter.closing token.kind == some pair.delimiter
  match first, last with
  | some first, some last => do
    if pair.closing ≤ pair.opening then throw .invalidSyntax
    let s ← ((tokens.zipIdx.take pair.closing).drop (pair.opening + 1)).foldlM commaStep ([], [])
    if s.1 ≠ [] then throw .invalidSyntax
    return (List.range (s.2.length + 1)).map (commaListSegment tokens first.range last.range s.2)
  | _, _ => throw .invalidSyntax

/-! ## The tokens of a range -/

namespace DelimiterPair

def bracketPair (pair : DelimiterPair) : BracketPair Delimiter :=
  ⟨pair.delimiter, pair.opening, pair.closing⟩

theorem bracketPair_injective : Function.Injective bracketPair := by
  rintro ⟨⟩ ⟨⟩ h
  simpa [bracketPair] using h

/-- The text between two delimiters. -/
def interior (tokens : List SourceToken) (pair : DelimiterPair) : ByteRange :=
  ⟨(tokenRange tokens pair.opening).stop, (tokenRange tokens pair.closing).start⟩

end DelimiterPair

/-- What a token is to the delimiters around it. -/
def SourceToken.mark (token : SourceToken) : Mark Delimiter :=
  match Delimiter.opening token.kind with
  | some delimiter => .opening delimiter
  | none =>
    match Delimiter.closing token.kind with
    | some delimiter => .closing delimiter
    | none => .plain

/-- Tokens that have text and follow each other. -/
structure TokensAscend (tokens : List SourceToken) : Prop where
  nonempty : ∀ token ∈ tokens, token.range.start < token.range.stop
  ascend : tokens.Pairwise fun a b => a.range.stop ≤ b.range.start

section Tokens

variable {tk : Tokenizer} {source : List Char} {range : ByteRange} {tokens : List SourceToken}
  {pairs : List DelimiterPair} {pair : DelimiterPair} {token : SourceToken} {delimiter : Delimiter}
  {commas : List Nat}

theorem Tokenizer.len_pos_of_mem_tokenize {text : List Char} {token : Token}
    (h : token ∈ tk.tokenize text) : 0 < token.len := by
  have key : ∀ limit text, token ∈ tk.tokenizeFrom limit text → 0 < token.len := by
    intro limit
    induction limit with
    | zero => exact fun text h => (not_mem_nil h).elim
    | succ limit ih =>
      intro text h
      rw [Tokenizer.tokenizeFrom] at h
      cases hnext : tk.next text with
      | none => simp [hnext] at h
      | some next =>
        simp only [hnext, mem_cons] at h
        rcases h with rfl | h
        · exact tk.next_pos text token hnext
        · cases hdrop : dropBytes text next.len with
          | none => simp [hdrop] at h
          | some rest =>
            simp only [hdrop] at h
            exact ih rest h
  exact key _ text h

theorem SourceToken.mark_eq_opening (h : Delimiter.opening token.kind = some delimiter) :
    token.mark = .opening delimiter := by
  rw [mark, h]

theorem SourceToken.mark_eq_closing (h : Delimiter.opening token.kind = none)
    (h' : Delimiter.closing token.kind = some delimiter) : token.mark = .closing delimiter := by
  rw [mark, h, h']

theorem SourceToken.mark_eq_plain (h : Delimiter.opening token.kind = none)
    (h' : Delimiter.closing token.kind = none) : token.mark = .plain := by
  rw [mark, h, h']

theorem SourceToken.opening_of_mark (h : token.mark = .opening delimiter) :
    Delimiter.opening token.kind = some delimiter := by
  unfold mark at h
  split at h
  · rename_i hopening
    rw [hopening, Mark.opening.inj h]
  · split at h <;> cases h

theorem SourceToken.closing_of_mark (h : token.mark = .closing delimiter) :
    Delimiter.opening token.kind = none ∧ Delimiter.closing token.kind = some delimiter := by
  unfold mark at h
  split at h
  · cases h
  · rename_i hopening
    split at h
    · rename_i hclosing
      rw [hclosing, Mark.closing.inj h]
      exact ⟨hopening, rfl⟩
    · cases h

theorem SourceToken.plain_of_mark (h : token.mark = .plain) :
    Delimiter.opening token.kind = none ∧ Delimiter.closing token.kind = none := by
  unfold mark at h
  split at h
  · cases h
  · rename_i hopening
    split at h
    · cases h
    · rename_i hclosing
      exact ⟨hopening, hclosing⟩

/-- What the tokens that have been read so far are. -/
structure Tokenizer.BalancedState.Inv (s : BalancedState) : Prop where
  ascend : TokensAscend s.tokens
  stop_le : ∀ token ∈ s.tokens, token.range.stop ≤ s.offset
  scans : Scans SourceToken.mark 0 [] s.tokens s.stack (s.pairs.map DelimiterPair.bracketPair)

theorem Tokenizer.BalancedState.Inv.push {s : BalancedState} (h : s.Inv) {kind : TokenKind}
    {stop : Nat} (hstop : s.offset < stop) {stack : List (Delimiter × Nat)}
    (more : List DelimiterPair)
    (hscan : Scans SourceToken.mark s.tokens.length s.stack [⟨kind, ⟨s.offset, stop⟩⟩] stack
      (more.map DelimiterPair.bracketPair)) :
    Inv ⟨s.tokens ++ [⟨kind, ⟨s.offset, stop⟩⟩], stop, stack, s.pairs ++ more⟩ := by
  refine ⟨⟨?_, ?_⟩, ?_, ?_⟩
  · intro token htoken
    rcases mem_append.mp htoken with htoken | htoken
    · exact h.ascend.nonempty token htoken
    · rw [mem_singleton.mp htoken]
      exact hstop
  · refine pairwise_append.mpr ⟨h.ascend.ascend, pairwise_singleton _ _, ?_⟩
    intro token htoken next hnext
    rw [mem_singleton.mp hnext]
    exact h.stop_le token htoken
  · intro token htoken
    rcases mem_append.mp htoken with htoken | htoken
    · exact (h.stop_le token htoken).trans hstop.le
    · rw [mem_singleton.mp htoken]
  · rw [map_append]
    refine h.scans.append ?_
    rwa [Nat.zero_add]

theorem Tokenizer.balancedStep_inv {s t : BalancedState} {token : Token} (hs : s.Inv)
    (hpos : 0 < token.len) (h : balancedStep s token = .ok t) : t.Inv := by
  unfold balancedStep at h
  simp only at h
  obtain ⟨-, h⟩ := guard_ok h
  have hstop : s.offset < s.offset + token.len := Nat.lt_add_of_pos_right hpos
  split at h
  · rename_i delimiter hopening
    cases h
    have hpush := hs.push hstop [] (.opening (SourceToken.mark_eq_opening hopening) .nil)
    rwa [append_nil] at hpush
  · rename_i hopening
    split at h
    · rename_i delimiter hclosing
      split at h
      · cases h
      · rename_i openDelimiter first stack hstack
        obtain ⟨heq, h⟩ := guard_ok h
        cases h
        refine hs.push hstop [⟨delimiter, first, s.tokens.length⟩] ?_
        rw [hstack, not_not.mp heq]
        exact .closing (SourceToken.mark_eq_closing hopening hclosing) .nil
    · rename_i hclosing
      cases h
      have hpush := hs.push hstop [] (.plain (SourceToken.mark_eq_plain hopening hclosing) .nil)
      rwa [append_nil] at hpush

/-- The tokens of a range follow each other, and the pairs that are found are those of matching
delimiters. -/
theorem Tokenizer.tokenizeBalancedRange_ok
    (h : tk.tokenizeBalancedRange source range = .ok (tokens, pairs)) :
    TokensAscend tokens ∧
      Matches SourceToken.mark tokens (pairs.map DelimiterPair.bracketPair) := by
  unfold tokenizeBalancedRange at h
  split at h
  · cases h
  · rename_i input _
    obtain ⟨s, hrun, h⟩ := bind_ok h
    obtain ⟨hend, h⟩ := guard_ok h
    cases h
    have hinv : s.Inv := by
      refine foldlM_ok (P := fun done s => (∀ token ∈ done, 0 < token.len) → s.Inv) ?_ ?_ hrun
        fun token => len_pos_of_mem_tokenize
      · intro done token s t hs hstep hlen
        exact balancedStep_inv (hs fun token htoken => hlen token (by simp [htoken]))
          (hlen token (by simp)) hstep
      · exact fun _ => ⟨⟨by simp, .nil⟩, by simp, .nil⟩
    have hstack : s.stack = [] := not_not.mp fun hne => hend (.inr hne)
    have hscans := hinv.scans
    rw [hstack] at hscans
    exact ⟨hinv.ascend, hscans⟩

/-! ## The commas of a list -/

theorem commaStep_opening {stack : List Delimiter} (h : token.mark = .opening delimiter) (k : Nat) :
    commaStep (stack, commas) (token, k) = .ok (delimiter :: stack, commas) := by
  simp only [commaStep, SourceToken.opening_of_mark h]
  rfl

theorem commaStep_closing {stack : List Delimiter} (h : token.mark = .closing delimiter) (k : Nat) :
    commaStep (delimiter :: stack, commas) (token, k) = .ok (stack, commas) := by
  obtain ⟨hopening, hclosing⟩ := SourceToken.closing_of_mark h
  simp only [commaStep, hopening, hclosing, head?_cons, ne_eq, not_true_eq_false, if_false]
  rfl

theorem commaStep_plain {stack : List Delimiter} (h : token.mark = .plain) (k : Nat) :
    commaStep (stack, commas) (token, k) =
      .ok (stack, if token.kind = .comma ∧ stack.isEmpty then commas ++ [k] else commas) := by
  obtain ⟨hopening, hclosing⟩ := SourceToken.plain_of_mark h
  simp only [commaStep, hopening, hclosing]
  split <;> rfl

theorem SourceToken.mark_of_comma (h : token.kind = .comma) : token.mark = .plain := by
  apply mark_eq_plain <;> rw [h] <;> rfl

/-- The commas that are found in a text whose delimiters match are those outside all of them. -/
theorem foldlM_commaStep {k : Nat} {stack stack' : List (Delimiter × Nat)} {word : List SourceToken}
    {inner : List (BracketPair Delimiter)} (h : Scans SourceToken.mark k stack word stack' inner)
    (hs : Descends k stack) (hstack' : stack' = []) (commas : List Nat) :
    ∃ found, (word.zipIdx k).foldlM commaStep (stack.map Prod.fst, commas) =
        .ok ([], commas ++ found) ∧ found.Pairwise (· < ·) ∧
      ∀ c, c ∈ found ↔ k ≤ c ∧ (∃ x, word[c - k]? = some x ∧ x.kind = .comma) ∧
        ∀ q ∈ inner, q.first < c → q.last < c := by
  have hcons : ∀ {k : Nat} {x : SourceToken} {word : List SourceToken} {P : Prop} (c : Nat),
      (k ≤ c ∧ (∃ y, (x :: word)[c - k]? = some y ∧ y.kind = .comma) ∧ P) ↔
        (c = k ∧ x.kind = .comma ∧ P) ∨
          (k + 1 ≤ c ∧ (∃ y, word[c - (k + 1)]? = some y ∧ y.kind = .comma) ∧ P) := by
    intro k x word P c
    rcases Nat.lt_trichotomy c k with hlt | rfl | hlt
    · constructor
      · rintro ⟨hle, -⟩
        omega
      · rintro (⟨rfl, -⟩ | ⟨hle, -⟩) <;> omega
    · simp
    · obtain ⟨m, rfl⟩ := Nat.exists_eq_add_of_le hlt
      have hsub : k + 1 + m - k = m + 1 := by omega
      rw [hsub, getElem?_cons_succ, Nat.add_sub_cancel_left]
      constructor
      · exact fun h => .inr ⟨Nat.le_add_right _ _, h.2⟩
      · rintro (⟨heq, -⟩ | h)
        · omega
        · exact ⟨by omega, h.2⟩
  induction h generalizing commas with
  | nil =>
    refine ⟨[], ?_, .nil, fun c => ?_⟩
    · subst hstack'
      rw [append_nil]
      rfl
    · simp
  | @plain k stack stack' x word inner hx rest ih =>
    subst hstack'
    obtain ⟨found, hrun, hsorted, hfound⟩ := ih hs.mono rfl
      (if x.kind = .comma ∧ (stack.map Prod.fst).isEmpty then commas ++ [k] else commas)
    rw [zipIdx_cons, foldlM_cons, commaStep_plain hx]
    by_cases hcomma : x.kind = .comma ∧ (stack.map Prod.fst).isEmpty = true
    · rw [if_pos hcomma] at hrun ⊢
      have hnil : stack = [] := by simpa using hcomma.2
      refine ⟨k :: found, ?_, pairwise_cons.mpr ⟨?_, hsorted⟩, fun c => ?_⟩
      · rw [append_assoc] at hrun
        exact hrun
      · exact fun c hc => ((hfound c).mp hc).1
      · rw [hcons, mem_cons, hfound]
        refine or_congr_left ⟨?_, fun h => h.1⟩
        rintro rfl
        refine ⟨rfl, hcomma.1, fun q hq hfirst => ?_⟩
        -- no bracket is open on the stack
        rcases (rest.pair_spec hs.mono q hq).2.2.2 with hmem | ⟨hle, -⟩
        · rw [hnil] at hmem
          exact (not_mem_nil hmem).elim
        · omega
    · rw [if_neg hcomma] at hrun ⊢
      refine ⟨found, hrun, hsorted, fun c => ?_⟩
      rw [hcons, hfound]
      refine ⟨.inr, fun h => h.resolve_left ?_⟩
      rintro ⟨rfl, hkind, hlast⟩
      obtain ⟨e, stack, rfl⟩ := exists_cons_of_ne_nil (l := stack) fun hnil =>
        hcomma ⟨hkind, by simp [hnil]⟩
      -- the innermost open bracket is closed later
      rcases rest.mem_stack mem_cons_self with hnil | ⟨last, hq⟩
      · exact (not_mem_nil hnil).elim
      · have := hlast _ hq (hs.1 e mem_cons_self)
        have := (rest.pair_spec hs.mono _ hq).1
        simp only at *
        omega
  | @opening k stack stack' x word inner delimiter hx rest ih =>
    obtain ⟨found, hrun, hsorted, hfound⟩ := ih (hs.push _) hstack' commas
    refine ⟨found, ?_, hsorted, fun c => ?_⟩
    · rw [zipIdx_cons, foldlM_cons, commaStep_opening hx]
      exact hrun
    · rw [hcons, hfound]
      refine ⟨.inr, fun h => h.resolve_left ?_⟩
      rintro ⟨-, hkind, -⟩
      rw [SourceToken.mark_of_comma hkind] at hx
      cases hx
  | @closing k i stack stack' x word inner delimiter hx rest ih =>
    obtain ⟨found, hrun, hsorted, hfound⟩ := ih hs.pop hstack' commas
    refine ⟨found, ?_, hsorted, fun c => ?_⟩
    · rw [zipIdx_cons, foldlM_cons, map_cons, commaStep_closing hx]
      exact hrun
    · rw [hcons, hfound]
      simp only [forall_mem_cons]
      constructor
      · exact fun h => .inr ⟨h.1, h.2.1, fun _ => h.1, h.2.2⟩
      · rintro (⟨-, hkind, -⟩ | h)
        · rw [SourceToken.mark_of_comma hkind] at hx
          cases hx
        · exact ⟨h.1, h.2.1, h.2.2.2⟩

/-- The places between some marks, each by the marks on its two sides. -/
def gaps (first : Nat) (marks : List Nat) (last : Nat) : List (Nat × Nat) :=
  (first :: marks).zip (marks ++ [last])

@[simp] theorem gaps_nil (first last : Nat) : gaps first [] last = [(first, last)] := rfl

@[simp] theorem gaps_cons (first mark : Nat) (marks : List Nat) (last : Nat) :
    gaps first (mark :: marks) last = (first, mark) :: gaps mark marks last := rfl

/-- The segment of a list between two of its commas, or between one and a delimiter. -/
def segmentBetween (tokens : List SourceToken) (pair : DelimiterPair) (gap : Nat × Nat) :
    CommaListSegment where
  range := ⟨(tokenRange tokens gap.1).stop, (tokenRange tokens gap.2).start⟩
  previousComma := if gap.1 = pair.opening then none else some (tokenRange tokens gap.1)
  followingComma := if gap.2 = pair.closing then none else some (tokenRange tokens gap.2)

/-- The commas between two delimiters and outside all inner ones. -/
structure ListCommas (tokens : List SourceToken) (pairs : List DelimiterPair) (pair : DelimiterPair)
    (commas : List Nat) : Prop where
  sorted : commas.Pairwise (· < ·)
  mem_iff : ∀ c, c ∈ commas ↔ pair.opening < c ∧ c < pair.closing ∧
    (∃ x, tokens[c]? = some x ∧ x.kind = .comma) ∧
    ∀ q ∈ pairs, pair.opening < q.opening → q.opening < c → q.closing < c

theorem drop_take_zipIdx {α : Type} (l : List α) (i j : Nat) :
    (l.zipIdx.take j).drop i = ((l.take j).drop i).zipIdx i := by
  apply ext_getElem?
  intro n
  simp only [getElem?_drop, getElem?_take, getElem?_zipIdx]
  split <;> simp

theorem tokenRange_of_getElem? {index : Nat} (h : tokens[index]? = some token) :
    tokenRange tokens index = token.range := by
  rw [tokenRange, h]
  rfl

theorem commaListSegment_eq (tokens : List SourceToken)
    (hcommas : ∀ c ∈ commas, pair.opening < c ∧ c < pair.closing) :
    (List.range (commas.length + 1)).map (commaListSegment tokens (tokenRange tokens pair.opening)
      (tokenRange tokens pair.closing) commas) =
      (gaps pair.opening commas pair.closing).map (segmentBetween tokens pair) := by
  apply ext_getElem
  · simp [gaps]
  · intro i hi hi'
    simp only [getElem_map, getElem_range, gaps, getElem_zip]
    have hi : i < commas.length + 1 := by simpa using hi
    have hprevious : (if i = 0 then none else commas[i - 1]?) =
        if (pair.opening :: commas)[i] = pair.opening then none
        else some (pair.opening :: commas)[i] := by
      cases i with
      | zero => simp
      | succ i =>
        have hlt : i < commas.length := Nat.lt_of_succ_lt_succ hi
        have hne := (hcommas _ (getElem_mem hlt)).1
        simp only [Nat.add_eq_zero_iff, Nat.one_ne_zero, and_false, if_false, Nat.add_sub_cancel,
          getElem_cons_succ, hne.ne', getElem?_eq_getElem hlt]
    have hbound : i < (commas ++ [pair.closing]).length := by simpa using hi
    have hfollowing : commas[i]? = if (commas ++ [pair.closing])[i] = pair.closing then none
        else some (commas ++ [pair.closing])[i] := by
      rcases Nat.lt_or_ge i commas.length with hlt | hge
      · have hne := (hcommas _ (getElem_mem hlt)).2
        simp only [getElem_append_left hlt, hne.ne, if_false, getElem?_eq_getElem hlt]
      · have : i = commas.length := by omega
        subst this
        simp
    simp only [commaListSegment, segmentBetween, hprevious, hfollowing]
    split <;> split <;> simp_all

/-- The segments are those between the commas of the list. -/
theorem commaListSegments_eq
    (h : Matches SourceToken.mark tokens (pairs.map DelimiterPair.bracketPair))
    (hp : pair ∈ pairs) :
    ∃ commas, commaListSegments tokens pair =
        .ok ((gaps pair.opening commas pair.closing).map (segmentBetween tokens pair)) ∧
      ListCommas tokens pairs pair commas := by
  have hmem : pair.bracketPair ∈ pairs.map DelimiterPair.bracketPair := mem_map_of_mem hp
  have hlt : pair.opening < pair.closing := h.first_lt_last hmem
  have hlevel : Level (pairs.map DelimiterPair.bracketPair) pair.bracketPair pair.closing := by
    intro q hq hfirst hlast
    rcases h.eq_or hmem hq with rfl | hor | hor
    · exact absurd hfirst (Nat.lt_irrefl _)
    · simp only [DelimiterPair.bracketPair] at hfirst hlast hor
      omega
    · exact hor.1
  have hstart :
      Level (pairs.map DelimiterPair.bracketPair) pair.bracketPair (pair.opening + 1) := by
    intro q _ hfirst hlast
    exact absurd hlast (Nat.not_lt.mpr hfirst)
  obtain ⟨inner, hscan, hinner⟩ : ∃ inner, Scans SourceToken.mark (pair.opening + 1) []
      ((tokens.take pair.closing).drop (pair.opening + 1)) [] inner ∧
      ∀ q, q ∈ inner ↔ q ∈ pairs.map DelimiterPair.bracketPair ∧ pair.opening + 1 ≤ q.first ∧
        q.last < pair.closing :=
    h.segment hmem (Nat.lt_succ_self _) hlt (Nat.le_refl _) hstart hlevel
  obtain ⟨commas, hrun, hsorted, hfound⟩ := foldlM_commaStep hscan descends_nil rfl []
  have hcommas : ListCommas tokens pairs pair commas := by
    refine ⟨hsorted, fun c => (hfound c).trans ?_⟩
    have hget : pair.opening + 1 ≤ c → ((tokens.take pair.closing).drop (pair.opening + 1))[
        c - (pair.opening + 1)]? = if c < pair.closing then tokens[c]? else none := by
      intro hle
      rw [getElem?_drop, getElem?_take, Nat.add_sub_cancel' hle]
    constructor
    · rintro ⟨hle, ⟨x, hx, hkind⟩, hlast⟩
      rw [hget hle] at hx
      obtain ⟨hlt', hx⟩ := Option.ite_none_right_eq_some.mp hx
      refine ⟨hle, hlt', ⟨x, hx, hkind⟩, fun q hq hpq hqc => ?_⟩
      have hq' : q.bracketPair ∈ pairs.map DelimiterPair.bracketPair := mem_map_of_mem hq
      exact hlast q.bracketPair ((hinner _).mpr ⟨hq', hpq, hlevel _ hq' hpq (hqc.trans hlt')⟩) hqc
    · rintro ⟨hle, hlt', ⟨x, hx, hkind⟩, hlast⟩
      refine ⟨hle, ⟨x, by rw [hget hle, if_pos hlt', hx], hkind⟩, fun q hq hqc => ?_⟩
      obtain ⟨hq, hpq, -⟩ := (hinner q).mp hq
      obtain ⟨q, hq', rfl⟩ := mem_map.mp hq
      exact hlast q hq' hpq hqc
  refine ⟨commas, ?_, hcommas⟩
  have hsegments := commaListSegment_eq tokens fun c hc =>
    ⟨((hcommas.mem_iff c).mp hc).1, ((hcommas.mem_iff c).mp hc).2.1⟩
  obtain ⟨first, hfirst, hopening⟩ := h.opening hmem
  obtain ⟨last, hlast, hclosing⟩ := h.closing hmem
  simp only [DelimiterPair.bracketPair] at hfirst hopening hlast hclosing
  rw [tokenRange_of_getElem? hfirst, tokenRange_of_getElem? hlast] at hsegments
  unfold commaListSegments
  simp only [hfirst, hlast, Option.filter_some, SourceToken.opening_of_mark hopening,
    (SourceToken.closing_of_mark hclosing).2, beq_self_eq_true, if_true, Nat.not_le.mpr hlt,
    if_false, drop_take_zipIdx]
  rw [map_nil, nil_append] at hrun
  rw [← hsegments, hrun]
  rfl

end Tokens

end ItemDependencies
