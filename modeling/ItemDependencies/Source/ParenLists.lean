import ItemDependencies.Source.ListTokens

/-!
# Lists between parentheses

The tokens of a list are its pieces with commas between them.  If only some of
the pieces are kept, and one comma between each two, the list is one of those
pieces.
-/

namespace ItemDependencies

open Library Library.Brackets RawToken List

def commaToken : RawToken := ⟨.comma, [',']⟩

def openToken : RawToken := ⟨.openParen, ['(']⟩

def closeToken : RawToken := ⟨.closeParen, [')']⟩

def RawToken.isComma (raw : RawToken) : Bool := raw.kind = .comma

/-- A list between parentheses, and the tokens around it. -/
structure ParenList where
  before : List RawToken
  pieces : List (List RawToken)
  behind : List RawToken

namespace ParenList

def body (list : ParenList) : List RawToken := join commaToken list.pieces

def raws (list : ParenList) : List RawToken :=
  list.before ++ openToken :: (list.body ++ closeToken :: list.behind)

/-- The parentheses, by the numbers of their tokens. -/
def pair (list : ParenList) : DelimiterPair :=
  ⟨.parenthesis, list.before.length, list.before.length + 1 + list.body.length⟩

/-- The delimiters match in each piece and around the list. -/
structure Valid (list : ParenList) : Prop where
  ne_nil : list.pieces ≠ []
  pieces : ∀ piece ∈ list.pieces, IsPiece RawToken.mark RawToken.isComma [] piece
  around : ∃ stack, Reads RawToken.mark [] list.before stack ∧
    Reads RawToken.mark stack list.behind []

end ParenList

/-- The segments of a list that begins at an offset. -/
def segmentsOf : Nat → Option ByteRange → List (List RawToken) → List CommaListSegment
  | _, _, [] => []
  | start, previous, [piece] => [⟨⟨start, start + utf8Len (textOf piece)⟩, previous, none⟩]
  | start, previous, piece :: next :: pieces =>
    let stop := start + utf8Len (textOf piece)
    ⟨⟨start, stop⟩, previous, some ⟨stop, stop + 1⟩⟩ ::
      segmentsOf (stop + 1) (some ⟨stop, stop + 1⟩) (next :: pieces)

/-- The numbers of the commas of a list. -/
def commaIndices : Nat → List (List RawToken) → List Nat
  | _, [] => []
  | _, [_] => []
  | index, piece :: next :: pieces =>
    (index + piece.length) :: commaIndices (index + piece.length + 1) (next :: pieces)

section

variable {tk : Tokenizer} {raw : RawToken} {raws : List RawToken} {list : ParenList}
  {piece : List RawToken} {pieces : List (List RawToken)} {offset : Nat}

theorem isComma_iff : raw.isComma = true ↔ raw.kind = .comma := by simp [RawToken.isComma]

theorem mark_of_isComma (h : raw.isComma = true) : raw.mark = .plain := by
  rw [RawToken.mark, isComma_iff.mp h]
  rfl

/-! ## Finding the list -/

theorem exists_split {α : Type} {l : List α} {i j : Nat} {a b : α} (ha : l[i]? = some a)
    (hb : l[j]? = some b) (hij : i < j) :
    ∃ front mid back, l = front ++ a :: (mid ++ b :: back) ∧ front.length = i ∧
      i + 1 + mid.length = j := by
  obtain ⟨hi, rfl⟩ := List.getElem?_eq_some_iff.mp ha
  obtain ⟨hj, rfl⟩ := List.getElem?_eq_some_iff.mp hb
  refine ⟨l.take i, (l.take j).drop (i + 1), l.drop (j + 1), ?_, ?_, ?_⟩
  · rw [← drop_eq_getElem_cons hj]
    have hmid : (l.take j).drop (i + 1) ++ l.drop j = l.drop (i + 1) := by
      have h := take_append_drop (j - (i + 1)) (l.drop (i + 1))
      rwa [drop_drop, Nat.add_sub_cancel' hij, ← drop_take] at h
    rw [hmid, ← drop_eq_getElem_cons hi, take_append_drop]
  · rw [length_take]
    omega
  · rw [length_drop, length_take]
    omega

theorem getElem?_placeTokens {index : Nat} {token : SourceToken}
    (h : (placeTokens offset raws)[index]? = some token) :
    ∃ raw, raws[index]? = some raw ∧ token.kind = raw.kind := by
  induction raws generalizing offset index with
  | nil => cases h
  | cons raw raws ih =>
    cases index with
    | zero =>
      cases h
      exact ⟨raw, rfl, rfl⟩
    | succ index => exact ih h

theorem kind_of_opening {kind : TokenKind} (h : Delimiter.opening kind = some .parenthesis) :
    kind = .openParen := by
  cases kind <;> first | rfl | cases h

theorem kind_of_closing {kind : TokenKind} (h : Delimiter.closing kind = some .parenthesis) :
    kind = .closeParen := by
  cases kind <;> first | rfl | cases h

/-- A pair of parentheses is that of a list. -/
theorem exists_parenList (hlexes : Lexes tk raws) (hsep : tk.Separates)
    (hreads : Reads RawToken.mark [] raws []) {pairs : List DelimiterPair} {pair : DelimiterPair}
    (hmatches : Matches SourceToken.mark (placeTokens offset raws)
      (pairs.map DelimiterPair.bracketPair))
    (hpair : pair ∈ pairs) (hparen : pair.delimiter = .parenthesis) :
    ∃ list : ParenList, list.raws = raws ∧ list.pair = pair ∧ list.Valid := by
  have hmem : pair.bracketPair ∈ pairs.map DelimiterPair.bracketPair := mem_map_of_mem hpair
  obtain ⟨first, hfirst, hopening⟩ := hmatches.opening hmem
  obtain ⟨last, hlast, hclosing⟩ := hmatches.closing hmem
  obtain ⟨firstRaw, hfirstRaw, hfirstKind⟩ := getElem?_placeTokens hfirst
  obtain ⟨lastRaw, hlastRaw, hlastKind⟩ := getElem?_placeTokens hlast
  obtain ⟨before, inside, behind, rfl, hbefore, hinside⟩ :=
    exists_split hfirstRaw hlastRaw (hmatches.first_lt_last hmem)
  have hfirstLexes := hlexes.of_append
  have hlastLexes : Lexes tk (lastRaw :: behind) := by
    cases hfirstLexes with
    | cons _ hrest => exact hrest.of_append
  obtain rfl : firstRaw = openToken := by
    have hkind : firstRaw.kind = .openParen := by
      rw [← hfirstKind]
      exact kind_of_opening (hparen ▸ SourceToken.opening_of_mark hopening)
    have htext := hfirstLexes.text_eq hsep openParen_mem hkind
    cases firstRaw
    cases hkind
    cases htext
    rfl
  obtain rfl : lastRaw = closeToken := by
    have hkind : lastRaw.kind = .closeParen := by
      rw [← hlastKind]
      exact kind_of_closing (hparen ▸ (SourceToken.closing_of_mark hclosing).2)
    have htext := hlastLexes.text_eq hsep closeParen_mem hkind
    cases lastRaw
    cases hkind
    cases htext
    rfl
  have hinner : Reads RawToken.mark [] inside [] := by
    rw [placeTokens_append, placeTokens, placeTokens_append, placeTokens] at hmatches
    rw [DelimiterPair.bracketPair, hparen] at hmem
    have hpositions : ∀ first last, first = pair.opening → last = pair.closing →
        ⟨.parenthesis, first, last⟩ ∈ pairs.map DelimiterPair.bracketPair := by
      rintro _ _ rfl rfl
      exact hmem
    refine reads_placeTokens.mp (reads_inside hmatches (hpositions _ _ ?_ ?_))
    · rw [length_placeTokens, hbefore]
      rfl
    · rw [length_placeTokens, length_placeTokens, hbefore, hinside]
      rfl
  have hcommas : ∀ raw ∈ inside, raw.isComma = true → raw = commaToken := by
    intro raw hraw hcomma
    obtain ⟨front, back, rfl⟩ := append_of_mem hraw
    have hcut : Lexes tk (raw :: (back ++ closeToken :: behind)) := by
      cases hfirstLexes with
      | cons _ hrest =>
        rw [append_assoc] at hrest
        exact hrest.of_append
    have htext := hcut.text_eq hsep comma_mem (isComma_iff.mp hcomma)
    have hkind := isComma_iff.mp hcomma
    cases raw
    cases hkind
    cases htext
    rfl
  have hbody : join commaToken (splitTop RawToken.mark RawToken.isComma [] inside) = inside :=
    join_splitTop hcommas
  refine ⟨⟨before, splitTop RawToken.mark RawToken.isComma [] inside, behind⟩, ?_, ?_, ?_⟩
  · rw [ParenList.raws, ParenList.body, hbody]
  · rw [ParenList.pair, ParenList.body, hbody, hbefore, hinside, ← hparen]
    rfl
  · refine ⟨splitTop_ne_nil, forall_isPiece (fun _ => mark_of_isComma) hinner, ?_⟩
    obtain ⟨stack, hbeforeReads, hreads⟩ := reads_append.mp hreads
    obtain ⟨next, hopen, hreads⟩ := reads_cons.mp hreads
    cases hopen
    obtain ⟨mid, hmid, hreads⟩ := reads_append.mp hreads
    obtain rfl := (hinner.add_base _).unique hmid
    obtain ⟨last, hclose, hreads⟩ := reads_cons.mp hreads
    cases hclose
    exact ⟨stack, hbeforeReads, hreads⟩

/-! ## The segments of the list -/

theorem foldlM_commaStep_piece {stack : List Delimiter}
    (h : IsPiece RawToken.mark RawToken.isComma stack piece) (commas : List Nat)
    (index offset : Nat) :
    ((placeTokens offset piece).zipIdx index).foldlM commaStep (stack, commas) =
      .ok ([], commas) := by
  induction piece generalizing stack index offset with
  | nil =>
    cases reads_nil.mp h.reads
    rfl
  | cons raw piece ih =>
    obtain ⟨next, hread, hreads⟩ := reads_cons.mp h.reads
    have hwhole := h.whole
    cases hcomma : stack.isEmpty && raw.isComma with
    | true =>
      rw [splitTop, if_pos hcomma] at hwhole
      cases hwhole
    | false =>
      have hrest : splitTop RawToken.mark RawToken.isComma next piece = [piece] := by
        rw [splitTop_cons_of hcomma, hread, Option.getD_some] at hwhole
        have hne : splitTop RawToken.mark RawToken.isComma next piece ≠ [] := splitTop_ne_nil
        obtain ⟨first, rest, hfirst⟩ := exists_cons_of_ne_nil hne
        rw [hfirst] at hwhole ⊢
        cases hwhole
        rfl
      have hstep : commaStep (stack, commas)
          (⟨raw.kind, ⟨offset, offset + utf8Len raw.text⟩⟩, index) = .ok (next, commas) := by
        cases hmark : raw.mark with
        | opening delimiter =>
          rw [hmark] at hread
          cases hread
          exact commaStep_opening hmark index
        | closing delimiter =>
          rw [hmark, Brackets.read] at hread
          obtain ⟨hhead, htail⟩ := Option.ite_none_right_eq_some.mp hread
          cases htail
          obtain ⟨rest, rfl⟩ := head?_eq_some_iff.mp hhead
          exact commaStep_closing hmark index
        | plain =>
          rw [hmark] at hread
          cases hread
          have hplain : SourceToken.mark ⟨raw.kind, ⟨offset, offset + utf8Len raw.text⟩⟩ = .plain :=
            hmark
          rw [commaStep_plain hplain index, if_neg]
          rintro ⟨hkind, hempty⟩
          rw [hempty, isComma_iff.mpr hkind] at hcomma
          cases hcomma
      rw [placeTokens, zipIdx_cons, foldlM_cons, hstep]
      exact ih ⟨hreads, hrest⟩ (index + 1) _

theorem foldlM_commaStep_list
    (h : ∀ piece ∈ pieces, IsPiece RawToken.mark RawToken.isComma [] piece) (commas : List Nat)
    (index offset : Nat) :
    ((placeTokens offset (join commaToken pieces)).zipIdx index).foldlM commaStep ([], commas) =
      .ok ([], commas ++ commaIndices index pieces) := by
  induction pieces generalizing commas index offset with
  | nil =>
    rw [commaIndices, append_nil]
    rfl
  | cons piece pieces ih =>
    obtain ⟨hpiece, h⟩ := forall_mem_cons.mp h
    cases pieces with
    | nil =>
      rw [commaIndices, append_nil]
      exact foldlM_commaStep_piece hpiece commas index offset
    | cons next pieces =>
      have hcomma : ∀ (at' : Nat) (range : ByteRange), commaStep ([], commas)
          (⟨.comma, range⟩, at') = .ok ([], commas ++ [at']) := fun _ _ => rfl
      rw [join_cons (cons_ne_nil _ _), placeTokens_append, zipIdx_append, foldlM_append,
        foldlM_commaStep_piece hpiece, length_placeTokens, placeTokens, zipIdx_cons]
      dsimp only [bind, Except.bind]
      rw [foldlM_cons]
      show (commaStep ([], commas) (⟨.comma, _⟩, _)).bind _ = _
      rw [hcomma, commaIndices]
      have := ih h (commas ++ [index + piece.length]) (index + piece.length + 1)
      simp only [append_assoc, singleton_append] at this
      exact this _

theorem gaps_commaIndices {pair : DelimiterPair} {behind : List RawToken} (hne : pieces ≠ [])
    (front : List RawToken) (left : RawToken)
    (hraws : raws = front ++ left :: (join commaToken pieces ++ closeToken :: behind))
    (hopening : pair.opening ≤ front.length)
    (hclosing : pair.closing = front.length + 1 + (join commaToken pieces).length) :
    (gaps front.length (commaIndices (front.length + 1) pieces) pair.closing).map
        (segmentBetween (placeTokens offset raws) pair) =
      segmentsOf (offset + utf8Len (textOf front) + utf8Len left.text)
        (if front.length = pair.opening then none
          else some ⟨offset + utf8Len (textOf front),
            offset + utf8Len (textOf front) + utf8Len left.text⟩) pieces := by
  subst hraws
  induction pieces generalizing front left with
  | nil => exact absurd rfl hne
  | cons piece pieces ih =>
    have hleft := tokenRange_placeTokens front
      (join commaToken (piece :: pieces) ++ closeToken :: behind) left offset
    cases pieces with
    | nil =>
      have hclose := tokenRange_placeTokens (front ++ left :: piece) behind closeToken offset
      have hlength : (front ++ left :: piece).length = pair.closing := by
        rw [hclosing, join, length_append, length_cons]
        omega
      have hword : front ++ left :: (join commaToken [piece] ++ closeToken :: behind) =
          (front ++ left :: piece) ++ closeToken :: behind := by simp [join]
      rw [hlength, ← hword] at hclose
      rw [commaIndices, gaps_nil, map_singleton, segmentsOf, segmentBetween]
      dsimp only
      rw [hleft, hclose, if_pos rfl]
      simp [Nat.add_assoc]
    | cons next pieces =>
      have hbody : join commaToken (piece :: next :: pieces) =
          piece ++ commaToken :: join commaToken (next :: pieces) := rfl
      have hword : front ++ left :: (join commaToken (piece :: next :: pieces) ++
          closeToken :: behind) = (front ++ left :: piece) ++ commaToken ::
            (join commaToken (next :: pieces) ++ closeToken :: behind) := by simp [hbody]
      have hlength : (front ++ left :: piece).length = front.length + 1 + piece.length := by
        rw [length_append, length_cons]
        omega
      rw [hbody, length_append, length_cons] at hclosing
      have hcomma := tokenRange_placeTokens (front ++ left :: piece)
        (join commaToken (next :: pieces) ++ closeToken :: behind) commaToken offset
      have hrest := ih (cons_ne_nil _ _) (front ++ left :: piece) commaToken (by omega) (by omega)
      have hbehind : (front ++ left :: piece).length ≠ pair.opening := by omega
      have hahead : (front ++ left :: piece).length ≠ pair.closing := by omega
      rw [if_neg hbehind] at hrest
      rw [hword] at hleft ⊢
      rw [commaIndices, gaps_cons, map_cons, segmentsOf, ← hlength]
      rw [hrest, segmentBetween]
      dsimp only
      rw [hleft, hcomma, if_neg hahead]
      have hone : utf8Len commaToken.text = 1 := rfl
      simp [hone, Nat.add_assoc]

theorem ParenList.Valid.reads (h : list.Valid) : Reads RawToken.mark [] list.raws [] := by
  obtain ⟨stack, hbefore, hbehind⟩ := h.around
  have hbody : Reads RawToken.mark [] list.body [] :=
    reads_join rfl fun piece hpiece => (h.pieces piece hpiece).reads
  refine reads_append.mpr ⟨stack, hbefore, reads_cons.mpr ⟨.parenthesis :: stack, rfl, ?_⟩⟩
  exact reads_append.mpr ⟨_, hbody.add_base _, reads_cons.mpr ⟨stack, rfl, hbehind⟩⟩

/-- The parentheses of a list are a pair. -/
theorem ParenList.pair_mem (h : list.Valid) {pairs : List DelimiterPair}
    (hmatches : Matches SourceToken.mark (placeTokens offset list.raws)
      (pairs.map DelimiterPair.bracketPair)) : list.pair ∈ pairs := by
  have hbody : Reads RawToken.mark [] list.body [] :=
    reads_join rfl fun piece hpiece => (h.pieces piece hpiece).reads
  rw [ParenList.raws, placeTokens_append, placeTokens, placeTokens_append, placeTokens] at hmatches
  have hmem := pair_mem_of_reads hmatches rfl rfl (reads_placeTokens.mpr hbody)
  rw [length_placeTokens, length_placeTokens] at hmem
  obtain ⟨pair, hpair, heq⟩ := mem_map.mp hmem
  have hsame : pair = list.pair := DelimiterPair.bracketPair_injective heq
  rwa [hsame] at hpair

theorem ParenList.raws_eq (list : ParenList) :
    list.raws = (list.before ++ openToken :: list.body) ++ closeToken :: list.behind := by
  simp [ParenList.raws]

theorem ParenList.length_before (list : ParenList) :
    (list.before ++ openToken :: list.body).length = list.pair.closing := by
  simp only [ParenList.pair, length_append, length_cons]
  omega

theorem ParenList.placeTokens_opening (list : ParenList) (offset : Nat) :
    (placeTokens offset list.raws)[list.pair.opening]? = some ⟨.openParen,
      ⟨offset + utf8Len (textOf list.before), offset + utf8Len (textOf list.before) + 1⟩⟩ :=
  placeTokens_middle list.before (list.body ++ closeToken :: list.behind) openToken offset

theorem ParenList.placeTokens_closing (list : ParenList) (offset : Nat) :
    (placeTokens offset list.raws)[list.pair.closing]? = some ⟨.closeParen,
      ⟨offset + utf8Len (textOf list.before) + 1 + utf8Len (textOf list.body),
        offset + utf8Len (textOf list.before) + 1 + utf8Len (textOf list.body) + 1⟩⟩ := by
  have hone : utf8Len openToken.text = 1 := rfl
  have hone' : utf8Len closeToken.text = 1 := rfl
  have hmiddle := placeTokens_middle (list.before ++ openToken :: list.body) list.behind closeToken
    offset
  rw [list.length_before, ← list.raws_eq, textOf_append, textOf_cons, utf8Len_append,
    utf8Len_append, hone, hone', ← Nat.add_assoc, ← Nat.add_assoc] at hmiddle
  exact hmiddle

theorem ParenList.placeTokens_body (list : ParenList) (offset : Nat) :
    ((placeTokens offset list.raws).take list.pair.closing).drop (list.pair.opening + 1) =
      placeTokens (offset + utf8Len (textOf list.before) + 1) list.body := by
  have hsplit : list.before ++ openToken :: list.body =
      (list.before ++ [openToken]) ++ list.body := by simp
  have hfront : (placeTokens offset (list.before ++ [openToken])).length =
      list.pair.opening + 1 := by
    rw [length_placeTokens, length_append]
    rfl
  rw [list.raws_eq, placeTokens_append, take_left' (by rw [length_placeTokens, list.length_before]),
    hsplit, placeTokens_append, drop_left' hfront, textOf_append, utf8Len_append, Nat.add_assoc]
  rfl

theorem bounds_of_mem_commaIndices {index c : Nat} (h : c ∈ commaIndices index pieces) :
    index ≤ c ∧ c < index + (join commaToken pieces).length := by
  induction pieces generalizing index with
  | nil => cases h
  | cons piece pieces ih =>
    cases pieces with
    | nil => cases h
    | cons next pieces =>
      rw [join_cons (cons_ne_nil _ _), length_append, length_cons]
      rcases mem_cons.mp h with rfl | h
      · omega
      · have := ih h
        omega

/-- The segments of a list are its pieces. -/
theorem commaListSegments_list (h : list.Valid) (offset : Nat) :
    commaListSegments (placeTokens offset list.raws) list.pair =
      .ok (segmentsOf (offset + utf8Len (textOf list.before) + 1) none list.pieces) := by
  have hfirst := list.placeTokens_opening offset
  have hlast := list.placeTokens_closing offset
  have hopenRange := tokenRange_of_getElem? hfirst
  have hcloseRange := tokenRange_of_getElem? hlast
  have hbody := list.placeTokens_body offset
  have hrun := foldlM_commaStep_list h.pieces [] (list.pair.opening + 1)
    (offset + utf8Len (textOf list.before) + 1)
  have hlt : ¬list.pair.closing ≤ list.pair.opening := by
    simp only [ParenList.pair]
    omega
  have hinside : ∀ c ∈ commaIndices (list.pair.opening + 1) list.pieces,
      list.pair.opening < c ∧ c < list.pair.closing := by
    intro c hc
    have := bounds_of_mem_commaIndices hc
    simp only [ParenList.pair, ParenList.body] at this ⊢
    omega
  have hsegments := commaListSegment_eq (placeTokens offset list.raws) hinside
  have hopening : list.before.length = list.pair.opening := rfl
  have hgaps : (gaps list.before.length (commaIndices (list.before.length + 1) list.pieces)
      list.pair.closing).map (segmentBetween (placeTokens offset list.raws) list.pair) = _ :=
    gaps_commaIndices h.ne_nil list.before openToken rfl le_rfl rfl
  rw [if_pos hopening, hopening, ← hsegments] at hgaps
  rw [← ParenList.body, ← hbody, ← drop_take_zipIdx] at hrun
  unfold commaListSegments
  have hopenKind : (Delimiter.opening .openParen == some list.pair.delimiter) = true := rfl
  have hcloseKind : (Delimiter.closing .closeParen == some list.pair.delimiter) = true := rfl
  rw [hfirst, hlast, Option.filter_some, Option.filter_some, if_pos hopenKind, if_pos hcloseKind]
  dsimp only
  rw [if_neg hlt, hrun]
  dsimp only [bind, Except.bind]
  rw [if_neg (by simp), nil_append]
  rw [hopenRange, hcloseRange] at hgaps
  exact congrArg Except.ok hgaps

/-! ## Keeping some pieces -/

/-- The pieces with the mark. -/
def keptPieces (entries : List (List RawToken × Bool)) : List (List RawToken) :=
  (entries.filter Prod.snd).map Prod.fst

/-- The tokens of what is left are those that were there. -/
theorem Lexes.join_kept (hsep : tk.Separates) {entries : List (List RawToken × Bool)}
    {behind : List RawToken} (hne : keptPieces entries ≠ [])
    (h : Lexes tk (join commaToken (entries.map Prod.fst) ++ closeToken :: behind)) :
    Lexes tk (join commaToken (keptPieces entries) ++ closeToken :: behind) := by
  induction entries with
  | nil => exact absurd rfl hne
  | cons entry entries ih =>
    obtain ⟨piece, flag⟩ := entry
    by_cases hnil : entries = []
    · subst hnil
      cases flag with
      | false => exact absurd rfl hne
      | true => exact h
    · rw [map_cons, join_cons (by simpa using hnil), append_assoc, cons_append] at h
      have hrest : Lexes tk (join commaToken (entries.map Prod.fst) ++ closeToken :: behind) := by
        cases h.of_append with
        | cons _ hrest => exact hrest
      cases flag with
      | false => exact ih hne hrest
      | true =>
        have hkept : keptPieces ((piece, true) :: entries) = piece :: keptPieces entries := rfl
        rw [hkept]
        by_cases hlast : keptPieces entries = []
        · rw [hlast]
          exact h.replace hrest.of_append hsep comma_mem closeParen_mem rfl rfl
        · rw [join_cons hlast, append_assoc, cons_append]
          have hcomma : Lexes tk (commaToken ::
              (join commaToken (keptPieces entries) ++ closeToken :: behind)) :=
            (ih hlast hrest).cons_punctuation hsep comma_mem
          exact h.replace hcomma hsep comma_mem comma_mem rfl rfl

namespace ParenList

/-- The list with some of its pieces. -/
def keep (list : ParenList) (flags : List Bool) : ParenList :=
  { list with pieces := keptPieces (list.pieces.zip flags) }

theorem keep_lexes {flags : List Bool} (hsep : tk.Separates)
    (hlength : flags.length = list.pieces.length)
    (hne : (list.keep flags).pieces ≠ []) (h : Lexes tk list.raws) :
    Lexes tk (list.keep flags).raws := by
  have hinside : Lexes tk (list.body ++ closeToken :: list.behind) := by
    cases h.of_append with
    | cons _ hrest => exact hrest
  have hpieces : (list.pieces.zip flags).map Prod.fst = list.pieces :=
    map_fst_zip hlength.ge
  rw [ParenList.body, ← hpieces] at hinside
  have hkept := (hinside.join_kept hsep hne).cons_punctuation hsep openParen_mem
  exact h.replace hkept hsep openParen_mem openParen_mem rfl rfl

theorem keep_valid {flags : List Bool} (hne : (list.keep flags).pieces ≠ []) (h : list.Valid) :
    (list.keep flags).Valid := by
  refine ⟨hne, fun piece hpiece => ?_, h.around⟩
  obtain ⟨entry, hentry, rfl⟩ := mem_map.mp hpiece
  exact h.pieces _ (of_mem_zip (mem_filter.mp hentry).1).1

end ParenList

end

end ItemDependencies
