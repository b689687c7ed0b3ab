import ItemDependencies.Source.DeriveRuns

/-!
# Tuple expressions

A parenthesised list of expressions is a tuple unless it is a single expression
without a comma.  Elements can be left out of such a list together with the
commas behind them, and what is left is the list of the others.
-/

namespace ItemDependencies

open Library RawToken List

/-- An element of a list of expressions.  `stop` is the trivia behind it and its comma, if there is
one. -/
structure ListedElement where
  before : List RawToken
  tokens : List RawToken
  stop : List RawToken

namespace ListedElement

def raws (element : ListedElement) : List RawToken :=
  element.before ++ (element.tokens ++ element.stop)

/-- An element without the trivia before it. -/
def core (element : ListedElement) : List RawToken × List RawToken := (element.tokens, element.stop)

end ListedElement

/-- A parenthesised list: its elements and the trivia before the closing parenthesis. -/
structure ExpressionList where
  elements : List ListedElement
  last : List RawToken

/-- A single expression without a comma is not a tuple but that expression. -/
def ExpressionList.isTuple (list : ExpressionList) : Bool :=
  match list.elements with
  | [element] => !element.stop.isEmpty
  | _ => true

/-- The compiler's parser of expressions: the tokens of the expression at the front of some tokens,
and the tokens behind it. -/
abbrev ExpressionParser := List RawToken → Option (List RawToken × List RawToken)

def RawToken.isTrivia (raw : RawToken) : Bool := ItemDependencies.isTrivia raw.kind

/-- The elements up to the closing parenthesis, and the tokens behind it. -/
def parseElements (parse : ExpressionParser) :
    Nat → List RawToken → Option (ExpressionList × List RawToken)
  | 0, _ => none
  | limit + 1, raws =>
    let before := raws.takeWhile RawToken.isTrivia
    match raws.dropWhile RawToken.isTrivia with
    | [] => none
    | raw :: rest =>
      if raw.kind = .closeParen then some (⟨[], before⟩, rest)
      else
        match parse (raw :: rest) with
        | none => none
        | some (tokens, behind) =>
          let trivia := behind.takeWhile RawToken.isTrivia
          match behind.dropWhile RawToken.isTrivia with
          | [] => none
          | stop :: rest =>
            if stop.kind = .closeParen then some (⟨[⟨before, tokens, []⟩], trivia⟩, rest)
            else if stop.kind = .comma then
              (parseElements parse limit rest).map fun parsed =>
                (⟨⟨before, tokens, trivia ++ [stop]⟩ :: parsed.1.elements, parsed.1.last⟩, parsed.2)
            else none

/-- A parenthesised list and the tokens behind it. -/
def parseParenthesized (parse : ExpressionParser) :
    List RawToken → Option (ExpressionList × List RawToken)
  | [] => none
  | raw :: rest =>
    if raw.kind = .openParen then parseElements parse (rest.length + 1) rest else none

/-- An expression is cut off the front, ends with a token of its own, and does not depend on what is
behind the comma or the parenthesis that ends it. -/
structure ExpressionParser.EndsAtSeparators (parse : ExpressionParser) : Prop where
  splits : ∀ raw rest tokens behind, parse (raw :: rest) = some (tokens, behind) →
    ∃ more, tokens = raw :: more ∧ rest = more ++ behind
  ended : ∀ tokens trivia stop rest rest',
    parse (tokens ++ (trivia ++ stop :: rest)) = some (tokens, trivia ++ stop :: rest) →
    (∀ raw ∈ trivia, raw.isTrivia = true) → stop.kind = .comma ∨ stop.kind = .closeParen →
    parse (tokens ++ (trivia ++ stop :: rest')) = some (tokens, trivia ++ stop :: rest')

/-- Trivia in front of a token stays trivia in front of every text, though it may join the trivia
that the text begins with. -/
def Tokenizer.TriviaJoins (tk : Tokenizer) : Prop :=
  ∀ trivia raw rest raws, (∀ raw ∈ trivia, RawToken.isTrivia raw = true) → raw.isTrivia = false →
    Lexes tk (trivia ++ raw :: rest) → Lexes tk raws →
    ∃ joined, Lexes tk joined ∧ textOf joined = textOf trivia ++ textOf raws ∧
      joined.dropWhile RawToken.isTrivia = raws.dropWhile RawToken.isTrivia

/-- What the parser accepts as the rest of a list: the elements, the trivia before the closing
parenthesis, the parenthesis and the tokens behind it. -/
inductive Lists (parse : ExpressionParser) : List RawToken → List ListedElement → List RawToken →
    RawToken → List RawToken → Prop
  | close {trivia rest : List RawToken} {closing : RawToken}
      (htrivia : ∀ raw ∈ trivia, raw.isTrivia = true) (hclosing : closing.kind = .closeParen) :
      Lists parse (trivia ++ closing :: rest) [] trivia closing rest
  | last {before tokens trivia rest : List RawToken} {first closing : RawToken}
      (hbefore : ∀ raw ∈ before, raw.isTrivia = true) (hfirst : first.isTrivia = false)
      (hopen : first.kind ≠ .closeParen)
      (hparse : parse (first :: tokens ++ (trivia ++ closing :: rest)) =
        some (first :: tokens, trivia ++ closing :: rest))
      (htrivia : ∀ raw ∈ trivia, raw.isTrivia = true) (hclosing : closing.kind = .closeParen) :
      Lists parse (before ++ (first :: tokens ++ (trivia ++ closing :: rest)))
        [⟨before, first :: tokens, []⟩] trivia closing rest
  | cons {before tokens trivia more last rest : List RawToken} {first comma closing : RawToken}
      {elements : List ListedElement}
      (hbefore : ∀ raw ∈ before, raw.isTrivia = true) (hfirst : first.isTrivia = false)
      (hopen : first.kind ≠ .closeParen)
      (hparse : parse (first :: tokens ++ (trivia ++ comma :: more)) =
        some (first :: tokens, trivia ++ comma :: more))
      (htrivia : ∀ raw ∈ trivia, raw.isTrivia = true) (hcomma : comma.kind = .comma)
      (hmore : Lists parse more elements last closing rest) :
      Lists parse (before ++ (first :: tokens ++ (trivia ++ comma :: more)))
        (⟨before, first :: tokens, trivia ++ [comma]⟩ :: elements) last closing rest

section

variable {tk : Tokenizer} {parse : ExpressionParser} {raws raws' last rest : List RawToken}
  {elements : List ListedElement} {closing : RawToken} {list : ExpressionList} {limit : Nat}

/-! ## The parser -/

theorem takeWhile_trivia {trivia : List RawToken} {raw : RawToken}
    (htrivia : ∀ raw ∈ trivia, RawToken.isTrivia raw = true) (hraw : raw.isTrivia = false) :
    (trivia ++ raw :: rest).takeWhile RawToken.isTrivia = trivia ∧
      (trivia ++ raw :: rest).dropWhile RawToken.isTrivia = raw :: rest := by
  have hstop : ¬raw.isTrivia = true := by rw [hraw]; exact Bool.false_ne_true
  constructor
  · rw [takeWhile_append_of_pos htrivia, takeWhile_cons_of_neg hstop, append_nil]
  · rw [dropWhile_append_of_pos htrivia, dropWhile_cons_of_neg hstop]

theorem exists_trivia {raw : RawToken} (h : raws.dropWhile RawToken.isTrivia = raw :: rest) :
    raws = raws.takeWhile RawToken.isTrivia ++ raw :: rest ∧
      (∀ raw ∈ raws.takeWhile RawToken.isTrivia, raw.isTrivia = true) ∧ raw.isTrivia = false := by
  refine ⟨by rw [← h, takeWhile_append_dropWhile], fun _ => mem_takeWhile_imp, ?_⟩
  have hhead := head?_dropWhile_not RawToken.isTrivia raws
  rw [h] at hhead
  simpa using hhead

theorem not_trivia_of_separator {raw : RawToken} (h : raw.kind = .comma ∨ raw.kind = .closeParen) :
    raw.isTrivia = false := by
  rw [RawToken.isTrivia]
  rcases h with h | h <;> rw [h] <;> rfl

/-- The parser accepts lists only. -/
theorem lists_of_parseElements (hends : parse.EndsAtSeparators)
    (h : parseElements parse limit raws = some (list, rest)) :
    ∃ closing, Lists parse raws list.elements list.last closing rest := by
  induction limit generalizing raws list with
  | zero => cases h
  | succ limit ih =>
    unfold parseElements at h
    dsimp only at h
    split at h
    · cases h
    · rename_i first more hfirst
      obtain ⟨hraws, hbefore, htoken⟩ := exists_trivia hfirst
      split at h
      · rename_i hclose
        cases h
        have hlists : Lists parse _ _ _ first rest := .close hbefore hclose
        rw [← hraws] at hlists
        exact ⟨first, hlists⟩
      · rename_i hopen
        split at h
        · cases h
        · rename_i tokens behind hparse
          obtain ⟨tail, rfl, rfl⟩ := hends.splits _ _ _ _ hparse
          split at h
          · cases h
          · rename_i stop more' hstop
            obtain ⟨hbehind, htrivia, -⟩ := exists_trivia hstop
            rw [← cons_append, hbehind] at hparse
            have hsplit : raws = raws.takeWhile RawToken.isTrivia ++ (first :: tail ++
                (behind.takeWhile RawToken.isTrivia ++ stop :: more')) := by
              rw [← hbehind]
              exact hraws
            split at h
            · rename_i hclose
              cases h
              have hlists := Lists.last hbefore htoken hopen hparse htrivia hclose
              rw [← hsplit] at hlists
              exact ⟨stop, hlists⟩
            · split at h
              · rename_i hcomma
                obtain ⟨parsed, hmore, heq⟩ := Option.map_eq_some_iff.mp h
                cases heq
                obtain ⟨closing, hmore⟩ := ih hmore
                have hlists := Lists.cons hbefore htoken hopen hparse htrivia hcomma hmore
                rw [← hsplit] at hlists
                exact ⟨closing, hlists⟩
              · cases h

/-- The parser accepts all lists. -/
theorem Lists.parseElements (h : Lists parse raws elements last closing rest)
    (hlimit : raws.length < limit) :
    parseElements parse limit raws = some (⟨elements, last⟩, rest) := by
  induction h generalizing limit with
  | close htrivia hclosing =>
    obtain ⟨limit, rfl⟩ : ∃ n, limit = n + 1 := ⟨limit - 1, by omega⟩
    obtain ⟨htake, hdrop⟩ := takeWhile_trivia htrivia (not_trivia_of_separator (.inr hclosing))
    unfold ItemDependencies.parseElements
    dsimp only
    rw [hdrop, htake]
    dsimp only
    rw [if_pos hclosing]
  | @last before tokens trivia rest first closing hbefore hfirst hopen hparse htrivia hclosing =>
    obtain ⟨limit, rfl⟩ : ∃ n, limit = n + 1 := ⟨limit - 1, by omega⟩
    rw [cons_append] at hparse ⊢
    obtain ⟨htake, hdrop⟩ := takeWhile_trivia hbefore hfirst
    obtain ⟨htake', hdrop'⟩ := takeWhile_trivia htrivia (not_trivia_of_separator (.inr hclosing))
    unfold ItemDependencies.parseElements
    dsimp only
    rw [hdrop, htake]
    dsimp only
    rw [if_neg hopen, hparse]
    dsimp only
    rw [hdrop', htake']
    dsimp only
    rw [if_pos hclosing]
  | @cons before tokens trivia more last rest first comma closing elements hbefore hfirst hopen
      hparse htrivia hcomma hmore ih =>
    obtain ⟨limit, rfl⟩ : ∃ n, limit = n + 1 := ⟨limit - 1, by omega⟩
    have hshort : more.length < limit := by
      simp only [length_append, length_cons] at hlimit
      omega
    have hne : comma.kind ≠ .closeParen := by
      rw [hcomma]
      decide
    rw [cons_append] at hparse ⊢
    obtain ⟨htake, hdrop⟩ := takeWhile_trivia hbefore hfirst
    obtain ⟨htake', hdrop'⟩ := takeWhile_trivia htrivia (not_trivia_of_separator (.inl hcomma))
    unfold ItemDependencies.parseElements
    dsimp only
    rw [hdrop, htake]
    dsimp only
    rw [if_neg hopen, hparse]
    dsimp only
    rw [hdrop', htake']
    dsimp only
    rw [if_neg hne, if_pos hcomma, ih hshort]
    rfl

/-- The text of a list. -/
theorem Lists.raws_eq (h : Lists parse raws elements last closing rest) :
    raws = elements.flatMap ListedElement.raws ++ (last ++ closing :: rest) := by
  induction h with
  | close => rfl
  | last => simp [ListedElement.raws]
  | cons _ _ _ _ _ _ _ ih =>
    rw [flatMap_cons, append_assoc, ← ih]
    simp [ListedElement.raws]

/-- Only the last element has no comma. -/
theorem Lists.stop_ne_nil (h : Lists parse raws elements last closing rest) {index : Nat}
    {element : ListedElement} (helement : elements[index]? = some element)
    (hindex : index + 1 < elements.length) : element.stop ≠ [] := by
  induction h generalizing index with
  | close => cases helement
  | last =>
    rw [length_singleton] at hindex
    omega
  | cons _ _ _ _ _ _ _ ih =>
    cases index with
    | zero =>
      cases helement
      simp
    | succ index =>
      rw [length_cons] at hindex
      exact ih helement (by omega)

/-! ## Leaving elements out -/

/-- Other trivia at the front of a list. -/
theorem Lists.of_dropWhile (h : Lists parse raws elements last closing rest)
    (hraws : raws'.dropWhile RawToken.isTrivia = raws.dropWhile RawToken.isTrivia) :
    ∃ elements' last', Lists parse raws' elements' last' closing rest ∧
      elements'.map ListedElement.core = elements.map ListedElement.core := by
  cases h with
  | close htrivia hclosing =>
    obtain ⟨-, hdrop⟩ := takeWhile_trivia htrivia (not_trivia_of_separator (.inr hclosing))
    rw [hdrop] at hraws
    obtain ⟨heq, htrivia', -⟩ := exists_trivia hraws
    have hlists : Lists parse _ _ _ closing rest := .close htrivia' hclosing
    rw [← heq] at hlists
    exact ⟨_, _, hlists, rfl⟩
  | last hbefore hfirst hopen hparse htrivia hclosing =>
    rw [cons_append, (takeWhile_trivia hbefore hfirst).2] at hraws
    obtain ⟨heq, hbefore', -⟩ := exists_trivia hraws
    have hlists := Lists.last hbefore' hfirst hopen hparse htrivia hclosing
    rw [cons_append, ← heq] at hlists
    exact ⟨_, _, hlists, rfl⟩
  | cons hbefore hfirst hopen hparse htrivia hcomma hmore =>
    rw [cons_append, (takeWhile_trivia hbefore hfirst).2] at hraws
    obtain ⟨heq, hbefore', -⟩ := exists_trivia hraws
    have hlists := Lists.cons hbefore' hfirst hopen hparse htrivia hcomma hmore
    rw [cons_append, ← heq] at hlists
    exact ⟨_, _, hlists, rfl⟩

/-- The parts of the text of a list; the elements that are left out go with their commas. -/
def elementParts (elements : List ListedElement) (flags : List Bool) :
    List (List RawToken × Bool) :=
  (elements.zip flags).flatMap fun entry =>
    [(entry.1.before, true), (entry.1.tokens ++ entry.1.stop, entry.2)]

/-- The elements that stay. -/
def staying (elements : List ListedElement) (flags : List Bool) : List ListedElement :=
  ((elements.zip flags).filter Prod.snd).map Prod.fst

/-- What is left of a list when elements are left out is the list of the others. -/
theorem Lists.leave (hsep : tk.Separates) (hjoins : tk.TriviaJoins) (hends : parse.EndsAtSeparators)
    (h : Lists parse raws elements last closing rest) (hlexes : Lexes tk raws) {flags : List Bool}
    (hlength : flags.length = elements.length) :
    ∃ raws' elements' last', Lexes tk raws' ∧ Lists parse raws' elements' last' closing rest ∧
      elements'.map ListedElement.core = (staying elements flags).map ListedElement.core ∧
      textOf raws' = textOf (((elementParts elements flags).filter Prod.snd).flatMap Prod.fst) ++
        textOf (last ++ closing :: rest) := by
  induction h generalizing flags with
  | @close trivia rest closing htrivia hclosing =>
    refine ⟨_, _, _, hlexes, .close htrivia hclosing, ?_, ?_⟩
    · simp [staying]
    · simp [elementParts]
  | @last before tokens trivia rest first closing hbefore hfirst hopen hparse htrivia hclosing =>
    obtain ⟨flag, rfl⟩ := length_eq_one_iff.mp hlength
    cases flag with
    | true =>
      refine ⟨_, _, _, hlexes, .last hbefore hfirst hopen hparse htrivia hclosing, rfl, ?_⟩
      simp [elementParts]
    | false =>
      have hinner : Lexes tk (first :: tokens ++ (trivia ++ closing :: rest)) := hlexes.of_append
      have hbehind : Lexes tk (trivia ++ closing :: rest) := hinner.of_append
      obtain ⟨joined, hjoined, htext, hdrop⟩ :=
        hjoins before first _ _ hbefore hfirst hlexes hbehind
      have hlists : Lists parse _ _ _ closing rest := .close htrivia hclosing
      obtain ⟨elements', last', hlists, hcores⟩ := hlists.of_dropWhile hdrop
      refine ⟨joined, elements', last', hjoined, hlists, hcores, ?_⟩
      rw [htext]
      simp [elementParts]
  | @cons before tokens trivia more last rest first comma closing elements hbefore hfirst hopen
      hparse htrivia hcomma hmore ih =>
    obtain ⟨flag, flags, rfl⟩ := exists_cons_of_length_eq_add_one hlength
    have hinner : Lexes tk (first :: tokens ++ (trivia ++ comma :: more)) := hlexes.of_append
    have hbehind : Lexes tk (trivia ++ comma :: more) := hinner.of_append
    have hcommaLexes : Lexes tk ([comma] ++ more) := hbehind.of_append
    have hcommaText := hcommaLexes.text_eq hsep comma_mem hcomma
    have hmoreLexes : Lexes tk more := hcommaLexes.of_append
    obtain ⟨more', elements', last', hlexes', hmore', hcores, htext⟩ :=
      ih hmoreLexes (Nat.succ.inj hlength)
    cases flag with
    | true =>
      have hreplaced : Lexes tk (before ++ (first :: tokens) ++ trivia ++ comma :: more') := by
        have hfront : Lexes tk (before ++ (first :: tokens) ++ trivia ++ comma :: more) := by
          simpa using hlexes
        have hcomma' : comma = ⟨.comma, [',']⟩ := by
          cases comma
          cases hcomma
          cases hcommaText
          rfl
        have hstarts : ∀ raws, textOf (comma :: raws) = ',' :: textOf raws := by
          intro raws
          rw [textOf_cons, hcommaText]
          rfl
        refine hfront.replace ?_ hsep comma_mem comma_mem (hstarts more) (hstarts more')
        rw [hcomma']
        exact hlexes'.cons_punctuation hsep comma_mem
      have hparse' := hends.ended _ _ _ _ more' hparse htrivia (.inl hcomma)
      refine ⟨_, _, _, ?_, .cons hbefore hfirst hopen hparse' htrivia hcomma hmore', ?_, ?_⟩
      · simpa using hreplaced
      · simpa [staying, ListedElement.core] using hcores
      · simp only [textOf_append, textOf_cons, htext, elementParts, zip_cons_cons,
          flatMap_cons, filter_append, flatMap_append]
        simp [hcommaText]
    | false =>
      obtain ⟨joined, hjoined, hjoinedText, hdrop⟩ :=
        hjoins before first _ _ hbefore hfirst hlexes hlexes'
      obtain ⟨elements'', last'', hlists, hcores'⟩ := hmore'.of_dropWhile hdrop
      refine ⟨joined, elements'', last'', hjoined, hlists, ?_, ?_⟩
      · rw [hcores', hcores]
        simp [staying]
      · rw [hjoinedText, htext]
        simp [elementParts]

end

end ItemDependencies
