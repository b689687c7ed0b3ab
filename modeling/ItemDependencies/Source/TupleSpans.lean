import ItemDependencies.Source.TupleLayout

/-!
# The ranges of the elements of a tuple

Where the elements of a list stand in the text, which ranges they are deleted
with, and what the deletions leave.
-/

namespace ItemDependencies

open Library RawToken List

/-- The ranges of the elements of a list, without and with the commas behind them. -/
def elementSpans : Nat → List ListedElement → List (ByteRange × ByteRange)
  | _, [] => []
  | offset, element :: elements =>
    let start := offset + utf8Len (textOf element.before)
    let stop := start + utf8Len (textOf element.tokens)
    (⟨start, stop⟩, ⟨start, stop + utf8Len (textOf element.stop)⟩) ::
      elementSpans (offset + utf8Len (textOf element.raws)) elements

/-- The ranges that the elements without a flag are deleted with. -/
def deletedSpans (spans : List (ByteRange × ByteRange)) (flags : List Bool) : List ByteRange :=
  ((spans.zip flags).filter fun entry => !entry.2).map fun entry => entry.1.2

section

variable {tk : Tokenizer} {parse : ExpressionParser} {front raws last rest : List RawToken}
  {elements : List ListedElement} {closing : RawToken} {flags : List Bool} {offset : Nat}
  {removed removed' : Nat → Bool} {parts : List (List RawToken × Bool)}

theorem length_elementSpans : (elementSpans offset elements).length = elements.length := by
  induction elements generalizing offset with
  | nil => rfl
  | cons element elements ih => rw [elementSpans, length_cons, length_cons, ih]

/-! ## What the deletions leave -/

theorem PartsLeft.congr (h : ∀ i, offset ≤ i → removed i = removed' i)
    (hparts : PartsLeft removed offset parts) : PartsLeft removed' offset parts := by
  induction parts generalizing offset with
  | nil => trivial
  | cons part parts ih =>
    obtain ⟨hpart, hparts⟩ := hparts
    refine ⟨fun i hfirst hi => ?_, ih (fun i hi => h i (le_trans (Nat.le_add_right _ _) hi)) hparts⟩
    rw [← h i hfirst]
    exact hpart i hfirst hi

theorem le_start_of_mem_elementSpans {span : ByteRange × ByteRange}
    (h : span ∈ elementSpans offset elements) :
    offset ≤ span.1.start ∧ span.2.start = span.1.start := by
  induction elements generalizing offset with
  | nil => cases h
  | cons element elements ih =>
    rw [elementSpans] at h
    rcases mem_cons.mp h with rfl | h
    · exact ⟨Nat.le_add_right _ _, rfl⟩
    · exact (ih h).imp_left (le_trans (Nat.le_add_right _ _))

/-- The elements stand inside the text of the list. -/
theorem stop_le_of_mem_elementSpans {span : ByteRange × ByteRange}
    (h : span ∈ elementSpans offset elements) :
    span.2.stop ≤ offset + utf8Len (textOf (elements.flatMap ListedElement.raws)) := by
  induction elements generalizing offset with
  | nil => cases h
  | cons element elements ih =>
    rw [elementSpans] at h
    rw [flatMap_cons, textOf_append, utf8Len_append]
    rcases mem_cons.mp h with rfl | h
    · have hlen : utf8Len (textOf element.raws) = utf8Len (textOf element.before) +
          (utf8Len (textOf element.tokens) + utf8Len (textOf element.stop)) := by
        simp [ListedElement.raws]
      dsimp only
      omega
    · have := ih h
      omega

theorem le_start_of_mem_deletedSpans {d : ByteRange}
    (h : d ∈ deletedSpans (elementSpans offset elements) flags) : offset ≤ d.start := by
  obtain ⟨entry, hentry, rfl⟩ := mem_map.mp h
  obtain ⟨hle, hstart⟩ :=
    le_start_of_mem_elementSpans (of_mem_zip (mem_of_mem_filter hentry)).1
  rwa [hstart]

/-- The deletions take the elements without a flag and their commas. -/
theorem partsLeft_deletedSpans :
    PartsLeft (removedBy (deletedSpans (elementSpans offset elements) flags)) offset
      (elementParts elements flags) := by
  induction elements generalizing offset flags with
  | nil => simp [elementParts, PartsLeft]
  | cons element elements ih =>
    cases flags with
    | nil => simp [elementParts, PartsLeft]
    | cons flag flags =>
      have hbehind : ∀ i, removedBy (deletedSpans
          (elementSpans (offset + utf8Len (textOf element.raws)) elements) flags) i = true →
          offset + utf8Len (textOf element.raws) ≤ i := by
        intro i hi
        obtain ⟨d, hd, hin⟩ := any_eq_true.mp hi
        have := le_start_of_mem_deletedSpans hd
        simp only [Bool.and_eq_true, decide_eq_true_eq] at hin
        omega
      have hlen : utf8Len (textOf element.raws) = utf8Len (textOf element.before) +
          (utf8Len (textOf element.tokens) + utf8Len (textOf element.stop)) := by
        simp [ListedElement.raws]
      have hremoved : ∀ i, removedBy (deletedSpans (elementSpans offset (element :: elements))
          (flag :: flags)) i = true ↔
          (flag = false ∧ offset + utf8Len (textOf element.before) ≤ i ∧
            i < offset + utf8Len (textOf element.raws)) ∨
          removedBy (deletedSpans (elementSpans (offset + utf8Len (textOf element.raws)) elements)
            flags) i = true := by
        intro i
        cases flag with
        | true => simp [elementSpans, deletedSpans]
        | false =>
          have hcons : deletedSpans (elementSpans offset (element :: elements)) (false :: flags) =
              ⟨offset + utf8Len (textOf element.before), offset + utf8Len (textOf element.before) +
                utf8Len (textOf element.tokens) + utf8Len (textOf element.stop)⟩ ::
              deletedSpans (elementSpans (offset + utf8Len (textOf element.raws)) elements)
                flags := rfl
          rw [hcons, removedBy_cons]
          dsimp only
          simp only [true_and]
          exact or_congr_left (by omega)
      have hparts : elementParts (element :: elements) (flag :: flags) =
          (element.before, true) :: (element.tokens ++ element.stop, flag) ::
            elementParts elements flags := rfl
      have hstop : utf8Len (textOf (element.tokens ++ element.stop)) =
          utf8Len (textOf element.tokens) + utf8Len (textOf element.stop) := by
        rw [textOf_append, utf8Len_append]
      rw [hparts]
      refine ⟨fun i hfirst hi => ?_, fun i hfirst hi => ?_, ?_⟩
      · dsimp only at hi ⊢
        rw [Bool.not_true, ← Bool.not_eq_true, hremoved]
        rintro (⟨-, hin, -⟩ | hin)
        · omega
        · have := hbehind i hin
          omega
      · dsimp only at hi hfirst ⊢
        rw [hstop] at hi
        cases flag with
        | true =>
          rw [Bool.not_true, ← Bool.not_eq_true, hremoved]
          rintro (⟨hflag, -⟩ | hin)
          · cases hflag
          · have := hbehind i hin
            omega
        | false =>
          rw [Bool.not_false, hremoved]
          exact .inl ⟨rfl, by omega, by omega⟩
      · dsimp only
        rw [hstop, Nat.add_assoc, ← hlen]
        refine ih.congr fun i hi => ?_
        rw [Bool.eq_iff_iff, hremoved, or_iff_right]
        rintro ⟨-, -, hlt⟩
        omega

/-! ## Looking for tokens -/

theorem utf8Len_pos {text : List Char} (h : text ≠ []) : 0 < utf8Len text := by
  obtain ⟨c, rest, rfl⟩ := exists_cons_of_ne_nil h
  have := Char.utf8Size_pos c
  rw [utf8Len_cons]
  omega

/-- The tokens that begin before a place between two tokens. -/
theorem dropWhile_start (offset : Nat) (front raws : List RawToken)
    (hfront : ∀ raw ∈ front, raw.text ≠ []) :
    (placeTokens offset (front ++ raws)).dropWhile
        (fun token => token.range.start < offset + utf8Len (textOf front)) =
      placeTokens (offset + utf8Len (textOf front)) raws := by
  induction front generalizing offset with
  | nil =>
    cases raws with
    | nil => rfl
    | cons raw raws =>
      rw [nil_append, placeTokens, dropWhile_cons_of_neg (by simp)]
      rfl
  | cons raw front ih =>
    obtain ⟨hraw, hfront⟩ := forall_mem_cons.mp hfront
    have hpos := utf8Len_pos hraw
    rw [textOf_cons, utf8Len_append, ← Nat.add_assoc, cons_append, placeTokens,
      dropWhile_cons_of_pos]
    · exact ih _ hfront
    · rw [decide_eq_true_eq]
      dsimp only
      omega

/-- The tokens that end up to a place between two tokens. -/
theorem dropWhile_stop (offset : Nat) (front raws : List RawToken)
    (hfront : ∀ raw ∈ front, raw.text ≠ []) (hraws : ∀ raw ∈ raws, raw.text ≠ []) :
    (placeTokens offset (front ++ raws)).dropWhile
        (fun token => token.range.stop ≤ offset + utf8Len (textOf front)) =
      placeTokens (offset + utf8Len (textOf front)) raws := by
  induction front generalizing offset with
  | nil =>
    cases raws with
    | nil => rfl
    | cons raw raws =>
      have hpos := utf8Len_pos (hraws raw mem_cons_self)
      rw [nil_append, placeTokens, dropWhile_cons_of_neg]
      · rfl
      · rw [decide_eq_true_eq, textOf_nil, utf8Len_nil]
        dsimp only
        omega
  | cons raw front ih =>
    obtain ⟨-, hfront⟩ := forall_mem_cons.mp hfront
    rw [textOf_cons, utf8Len_append, ← Nat.add_assoc, cons_append, placeTokens,
      dropWhile_cons_of_pos]
    · exact ih _ hfront
    · rw [decide_eq_true_eq]
      dsimp only
      omega

theorem find?_placeTokens {trivia : List RawToken} {raw : RawToken}
    (htrivia : ∀ raw ∈ trivia, raw.isTrivia = true) (hraw : raw.isTrivia = false) :
    (placeTokens offset (trivia ++ raw :: rest)).find? (fun token => !isTrivia token.kind) =
      some ⟨raw.kind, ⟨offset + utf8Len (textOf trivia),
        offset + utf8Len (textOf trivia) + utf8Len raw.text⟩⟩ := by
  induction trivia generalizing offset with
  | nil =>
    rw [RawToken.isTrivia] at hraw
    rw [nil_append, placeTokens, find?_cons_of_pos (by simp [hraw])]
    rfl
  | cons first trivia ih =>
    obtain ⟨hfirst, htrivia⟩ := forall_mem_cons.mp htrivia
    rw [RawToken.isTrivia] at hfirst
    rw [cons_append, placeTokens, find?_cons_of_neg (by simp [hfirst]), ih htrivia,
      textOf_cons, utf8Len_append, Nat.add_assoc offset]

theorem head?_placeTokens :
    ((placeTokens offset raws).head?).any (fun token => token.range.start < offset) = false := by
  cases raws with
  | nil => rfl
  | cons raw raws => simp [placeTokens]

/-! ## The comma behind an element -/

/-- Some tokens of the source, what is behind them, and the first token there that counts. -/
structure Stands (c : UnitCollector) (front tokens trivia : List RawToken) (stop : RawToken)
    (rest : List RawToken) : Prop where
  source : c.sourceTokens = placeTokens 0 (front ++ (tokens ++ (trivia ++ stop :: rest)))
  nonempty : ∀ raw ∈ front ++ (tokens ++ (trivia ++ stop :: rest)), raw.text ≠ []
  tokens : tokens ≠ []
  trivia : ∀ raw ∈ trivia, raw.isTrivia = true
  stop : stop.kind = .comma ∨ stop.kind = .closeParen

namespace Stands

variable {c : UnitCollector} {tokens trivia : List RawToken} {stop : RawToken}

theorem followingNontrivia (h : Stands c front tokens trivia stop rest) :
    c.followingNontrivia ⟨utf8Len (textOf front),
        utf8Len (textOf front) + utf8Len (textOf tokens)⟩ =
      some ⟨stop.kind, ⟨utf8Len (textOf front) + utf8Len (textOf tokens) + utf8Len (textOf trivia),
        utf8Len (textOf front) + utf8Len (textOf tokens) + utf8Len (textOf trivia) +
          utf8Len stop.text⟩⟩ := by
  have hdrop := dropWhile_start 0 (front ++ tokens) (trivia ++ stop :: rest) fun raw hraw =>
    h.nonempty raw (by
      rw [← append_assoc]
      exact mem_append_left _ hraw)
  rw [append_assoc, ← h.source, Nat.zero_add, textOf_append, utf8Len_append] at hdrop
  rw [UnitCollector.followingNontrivia]
  dsimp only
  rw [hdrop, find?_placeTokens h.trivia (not_trivia_of_separator h.stop)]

/-- The range of the tokens, with the comma if that comes next. -/
theorem commaSeparatedRange (h : Stands c front tokens trivia stop rest) :
    c.commaSeparatedRange ⟨utf8Len (textOf front),
        utf8Len (textOf front) + utf8Len (textOf tokens)⟩ =
      .ok ⟨utf8Len (textOf front), utf8Len (textOf front) + utf8Len (textOf tokens) +
        if stop.kind = .comma then utf8Len (textOf (trivia ++ [stop])) else 0⟩ := by
  have hne : (⟨utf8Len (textOf front), utf8Len (textOf front) + utf8Len (textOf tokens)⟩ :
      ByteRange).isEmpty = false := by
    obtain ⟨raw, rest, rfl⟩ := exists_cons_of_ne_nil h.tokens
    have hpos := utf8Len_pos (h.nonempty raw (by simp))
    rw [ByteRange.isEmpty, beq_eq_false_iff_ne, textOf_cons, utf8Len_append]
    dsimp only
    omega
  have hstart := dropWhile_stop 0 front (tokens ++ (trivia ++ stop :: rest))
    (fun raw hraw => h.nonempty raw (mem_append_left _ hraw))
    (fun raw hraw => h.nonempty raw (mem_append_right _ hraw))
  have hstop := dropWhile_stop 0 (front ++ tokens) (trivia ++ stop :: rest)
    (fun raw hraw => h.nonempty raw (by
      rw [← append_assoc]
      exact mem_append_left _ hraw))
    (fun raw hraw => h.nonempty raw (mem_append_right _ (mem_append_right _ hraw)))
  rw [Nat.zero_add, ← h.source] at hstart
  rw [append_assoc, ← h.source, Nat.zero_add, textOf_append, utf8Len_append] at hstop
  rw [UnitCollector.commaSeparatedRange, hne, h.followingNontrivia]
  dsimp only
  rw [hstart, hstop, head?_placeTokens, head?_placeTokens]
  simp only [Bool.false_eq_true, if_false]
  by_cases hcomma : stop.kind = .comma
  · rw [if_pos hcomma, Option.filter_some_pos (by simpa using hcomma), textOf_append,
      utf8Len_append]
    simp [textOf, pure, Except.pure, Nat.add_assoc]
  · rw [if_neg hcomma, Option.filter_some_neg (by simpa using hcomma)]
    rfl

end Stands

/-- What the collector finds at an element. -/
structure FindsElement (c : UnitCollector) (element : ListedElement)
    (span : ByteRange × ByteRange) : Prop where
  range : c.commaSeparatedRange span.1 = .ok span.2
  comma : (c.followingNontrivia span.1).any (fun token => token.kind = .comma) =
    !element.stop.isEmpty
  nonempty : span.1.start < span.1.stop

/-- The elements of a list stand before their commas. -/
theorem Lists.findsElements (h : Lists parse raws elements last closing rest) {c : UnitCollector}
    (hsource : c.sourceTokens = placeTokens 0 (front ++ raws))
    (hnonempty : ∀ raw ∈ front ++ raws, raw.text ≠ []) :
    List.Forall₂ (FindsElement c) elements (elementSpans (utf8Len (textOf front)) elements) := by
  have hpos : ∀ (first : RawToken) (tokens : List RawToken), first.text ≠ [] →
      0 < utf8Len (textOf (first :: tokens)) := by
    intro first tokens hfirst
    have := utf8Len_pos hfirst
    rw [textOf_cons, utf8Len_append]
    omega
  induction h generalizing front with
  | close => exact .nil
  | @last before tokens trivia rest first closing hbefore hfirst hopen hparse htrivia hclosing =>
    have hstands : Stands c (front ++ before) (first :: tokens) trivia closing rest := by
      refine ⟨?_, ?_, cons_ne_nil _ _, htrivia, .inr hclosing⟩
      · rwa [append_assoc]
      · rwa [append_assoc]
    have hrange := hstands.commaSeparatedRange
    have hfollowing := hstands.followingNontrivia
    rw [if_neg (by rw [hclosing]; decide), textOf_append, utf8Len_append] at hrange
    rw [textOf_append, utf8Len_append] at hfollowing
    refine .cons ⟨hrange, ?_, ?_⟩ .nil
    · rw [hfollowing, hclosing]
      rfl
    · exact Nat.lt_add_of_pos_right (hpos first tokens (hnonempty first (by simp)))
  | @cons before tokens trivia more last rest first comma closing elements hbefore hfirst hopen
      hparse htrivia hcomma hmore ih =>
    have hstands : Stands c (front ++ before) (first :: tokens) trivia comma more := by
      refine ⟨?_, ?_, cons_ne_nil _ _, htrivia, .inl hcomma⟩
      · rwa [append_assoc]
      · rwa [append_assoc]
    have hrange := hstands.commaSeparatedRange
    have hfollowing := hstands.followingNontrivia
    rw [if_pos hcomma, textOf_append, utf8Len_append] at hrange
    rw [textOf_append, utf8Len_append] at hfollowing
    have hraws : front ++ (before ++ (first :: tokens ++ (trivia ++ comma :: more))) =
        front ++ (⟨before, first :: tokens, trivia ++ [comma]⟩ : ListedElement).raws ++ more := by
      simp [ListedElement.raws]
    refine .cons ⟨hrange, ?_, ?_⟩ ?_
    · rw [hfollowing, hcomma]
      simp
    · exact Nat.lt_add_of_pos_right (hpos first tokens (hnonempty first (by simp)))
    · rw [hraws] at hsource hnonempty
      rw [← utf8Len_append, ← textOf_append]
      exact ih hsource hnonempty

/-- No range contains another one. -/
def Apart (spans : List (ByteRange × ByteRange)) : Prop :=
  spans.Pairwise fun span other =>
    ¬span.1.contains other.1 = true ∧ ¬other.1.contains span.1 = true

theorem Apart.nodup {spans : List (ByteRange × ByteRange)} (h : Apart spans) :
    (spans.map Prod.fst).Nodup := by
  refine pairwise_map.mpr (h.imp fun hnot heq => hnot.1 ?_)
  rw [heq]
  exact ByteRange.contains_iff.mpr ⟨le_rfl, le_rfl⟩

theorem Apart.eq_of_contains {spans : List (ByteRange × ByteRange)} (h : Apart spans) :
    ∀ span ∈ spans, ∀ other ∈ spans, span.1.contains other.1 = true → other.1 = span.1 :=
  List.Pairwise.forall_of_forall_of_flip (fun _ _ _ => rfl)
    (h.imp fun hnot hcontains => absurd hcontains hnot.1)
    (h.imp fun hnot hcontains => absurd hcontains hnot.2)

/-- The elements of a list stand one behind the other. -/
theorem apart_elementSpans {c : UnitCollector}
    (h : List.Forall₂ (FindsElement c) elements (elementSpans offset elements)) :
    Apart (elementSpans offset elements) := by
  induction elements generalizing offset with
  | nil => exact .nil
  | cons element elements ih =>
    rw [elementSpans] at h ⊢
    cases h with
    | cons hfirst hrest =>
      refine pairwise_cons.mpr ⟨fun span hspan => ?_, ih hrest⟩
      obtain ⟨index, hindex⟩ := getElem?_of_mem hspan
      obtain ⟨_, -, hfinds⟩ := getElem?_of_forall₂_right hrest hindex
      have hle := (le_start_of_mem_elementSpans hspan).1
      have hlt := hfirst.nonempty
      have hlt' := hfinds.nonempty
      have hlen : utf8Len (textOf element.raws) = utf8Len (textOf element.before) +
          (utf8Len (textOf element.tokens) + utf8Len (textOf element.stop)) := by
        simp [ListedElement.raws]
      rw [ByteRange.contains_iff, ByteRange.contains_iff]
      dsimp only at hlt ⊢
      omega

end

end ItemDependencies
