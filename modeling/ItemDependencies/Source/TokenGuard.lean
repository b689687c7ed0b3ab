import ItemDependencies.Source.ParserTokens

/-!
# Deletions that keep the parser tokens

A deletion is safe when the tokens around it come out as they were once its
text is gone.  The guard lexes a window of tokens around the deletion again,
and has a shortcut for a single `#` with trivia on one side.
-/

namespace ItemDependencies

open Library RawToken List

/-! ## The guard -/

def ParserToken.isPound (token : ParserToken) : Bool := token.lexerKind == .pound

/-- Where the window of a deletion lies, among the tokens and in the text. -/
structure ParserTokenDeletionBoundary where
  deletedStart : Nat
  deletedEnd : Nat
  leftStart : Nat
  rightEnd : Nat
  windowStart : Nat
  windowEnd : Nat
deriving DecidableEq

def ParserTokenDeletionBoundary.window (boundary : ParserTokenDeletionBoundary) : ByteRange :=
  ⟨boundary.windowStart, boundary.windowEnd⟩

structure ParserTokenRewriteGuard where
  source : List Char
  tokens : List ParserToken

namespace ParserTokenRewriteGuard

def new (tk : Tokenizer) (source : List Char) :
    Except SourceSyntaxError ParserTokenRewriteGuard := do
  let tokens ← tk.tokenizeParserTokens source
  return { source := source, tokens := tokens }

variable (guard : ParserTokenRewriteGuard)

def isPoundAt (index : Nat) : Bool := (guard.tokens[index]?.map ParserToken.isPound).getD false

/-- The first token of the run of pounds that a token is in. -/
def poundRunStart (index : Nat) : Nat :=
  if guard.isPoundAt index then
    index - ((guard.tokens.take index).reverse.takeWhile ParserToken.isPound).length
  else index

/-- The end of the run of pounds that a token is in. -/
def poundRunEnd (index : Nat) : Nat :=
  if guard.isPoundAt index then
    index + ((guard.tokens.drop index).takeWhile ParserToken.isPound).length
  else index + 1

/-- How many of some tokens are deleted; a token that is deleted in part is refused. -/
def countDeleted (deletion : ByteRange) : List ParserToken → Option Nat
  | [] => some 0
  | token :: tokens =>
    if deletion.stop ≤ token.range.start then some 0
    else if !deletion.contains token.range then none
    else (countDeleted deletion tokens).map (· + 1)

/-- The first token of the window of tokens that are lexed again. -/
def leftStart (deletedStart : Nat) : Nat :=
  if deletedStart = 0 then 0
  else if guard.isPoundAt (deletedStart - 1) then guard.poundRunStart (deletedStart - 1) - 2
  else deletedStart - 1 - 1

/-- The end of the window of tokens that are lexed again. -/
def rightEnd (deletedEnd : Nat) : Nat :=
  if deletedEnd < guard.tokens.length then
    min (if guard.isPoundAt deletedEnd then guard.poundRunEnd deletedEnd + 2 else deletedEnd + 2)
      guard.tokens.length
  else deletedEnd

def deletionBoundary (deletion : ByteRange) : Option ParserTokenDeletionBoundary :=
  if deletion.stop ≤ deletion.start ∨ utf8Len guard.source < deletion.stop ∨
      ¬isCharBoundary guard.source deletion.start ∨ ¬isCharBoundary guard.source deletion.stop then
    none
  else
    let deletedStart := (guard.tokens.takeWhile fun token =>
      token.range.stop ≤ deletion.start).length
    (countDeleted deletion (guard.tokens.drop deletedStart)).map fun deleted =>
      let deletedEnd := deletedStart + deleted
      let leftStart := guard.leftStart deletedStart
      let rightEnd := guard.rightEnd deletedEnd
      { deletedStart := deletedStart
        deletedEnd := deletedEnd
        leftStart := leftStart
        rightEnd := rightEnd
        windowStart :=
          if leftStart < deletedStart then
            (guard.tokens[leftStart]?.map fun token => token.range.start).getD deletion.start
          else deletion.start
        windowEnd :=
          if deletedEnd < rightEnd then
            (guard.tokens[rightEnd - 1]?.map fun token => token.range.stop).getD deletion.stop
          else deletion.stop }

def deletionDependencyWindow (deletion : ByteRange) : Option ByteRange :=
  (guard.deletionBoundary deletion).map ParserTokenDeletionBoundary.window

/-- The text up to a position without some deletions. -/
def cutText (source : List Char) (stop : Nat) : Nat → List ByteRange → Option (List Char)
  | cursor, [] => textRange source cursor stop
  | cursor, deletion :: deletions =>
    (textRange source cursor deletion.start).bind fun retained =>
      (cutText source stop deletion.stop deletions).map (retained ++ ·)

/-- Whether some tokens without the deleted ones are those that have been found. -/
def sameTokens : List ByteRange → List ParserToken → List ParserToken → Bool
  | _, [], actual => actual.isEmpty
  | deletions, original :: originals, actual =>
    let deletions := deletions.dropWhile fun range => range.stop ≤ original.range.start
    if deletions.head?.any fun range => range.contains original.range then
      sameTokens deletions originals actual
    else
      match actual with
      | [] => false
      | rewritten :: actual =>
        original.sameIdentity rewritten && sameTokens deletions originals actual

def overlap : List ByteRange → Bool
  | first :: second :: deletions => second.start < first.stop || overlap (second :: deletions)
  | _ => false

/-- Whether some deletions with one window keep the tokens of the window. -/
def deletionsPreserveIdentity (tk : Tokenizer) (deletions : List ByteRange) : Bool :=
  match deletions with
  | [] => false
  | deletion :: others =>
    if overlap deletions then false
    else
      match guard.deletionBoundary deletion with
      | none => false
      | some boundary =>
        if others.any fun other => guard.deletionDependencyWindow other ≠ some boundary.window then
          false
        else
          match cutText guard.source boundary.windowEnd boundary.windowStart deletions with
          | none => false
          | some rewritten =>
            match tk.tokenizeParserTokens rewritten with
            | .error _ => false
            | .ok actual => sameTokens deletions
                ((guard.tokens.drop boundary.leftStart).take
                  (boundary.rightEnd - boundary.leftStart))
                actual

/-- The shortcut for one pound of a run that has trivia on one side. -/
def triviaSeparatedPoundDeletionPreservesIdentity (deletion : ByteRange) : Bool :=
  match guard.deletionBoundary deletion with
  | none => false
  | some boundary =>
    if boundary.deletedEnd ≠ boundary.deletedStart + 1 then false
    else
      match guard.tokens[boundary.deletedStart]? with
      | none => false
      | some token =>
        if token.range ≠ deletion ∨ token.lexerKind ≠ .pound then false
        else
          (decide (guard.poundRunStart boundary.deletedStart < boundary.deletedStart) &&
            guard.tokens[boundary.deletedStart - 1]?.any fun previous =>
              previous.range.stop < token.range.start) ||
          (decide (boundary.deletedStart + 1 < guard.poundRunEnd boundary.deletedStart) &&
            guard.tokens[boundary.deletedStart + 1]?.any fun following =>
              token.range.stop < following.range.start)

variable {guard} {tk : Tokenizer}

theorem new_ok {source : List Char} (h : new tk source = .ok guard) :
    guard.source = source ∧ tk.tokenizeParserTokens source = .ok guard.tokens := by
  obtain ⟨tokens, htokens, h⟩ := bind_ok h
  cases h
  exact ⟨rfl, htokens⟩

theorem leftStart_le (deletedStart : Nat) : guard.leftStart deletedStart ≤ deletedStart := by
  unfold leftStart poundRunStart
  split_ifs <;> omega

/-- A window that is empty on its left has nothing before the deletion. -/
theorem leftStart_lt {deletedStart : Nat} (h : deletedStart ≠ 0) :
    guard.leftStart deletedStart < deletedStart := by
  unfold leftStart poundRunStart
  split_ifs <;> omega

theorem lt_rightEnd {deletedEnd : Nat} (h : deletedEnd < guard.tokens.length) :
    deletedEnd < guard.rightEnd deletedEnd := by
  unfold rightEnd poundRunEnd
  split_ifs <;> omega

theorem rightEnd_le {deletedEnd : Nat} (h : deletedEnd ≤ guard.tokens.length) :
    guard.rightEnd deletedEnd ≤ guard.tokens.length := by
  unfold rightEnd
  split_ifs <;> omega

/-- The boundary of a deletion that is one token. -/
def boundaryAt (guard : ParserTokenRewriteGuard) (deletion : ByteRange) (index : Nat) :
    ParserTokenDeletionBoundary where
  deletedStart := index
  deletedEnd := index + 1
  leftStart := guard.leftStart index
  rightEnd := guard.rightEnd (index + 1)
  windowStart :=
    if guard.leftStart index < index then
      (guard.tokens[guard.leftStart index]?.map fun token => token.range.start).getD deletion.start
    else deletion.start
  windowEnd :=
    if index + 1 < guard.rightEnd (index + 1) then
      (guard.tokens[guard.rightEnd (index + 1) - 1]?.map fun token => token.range.stop).getD
        deletion.stop
    else deletion.stop

/-- The deletion is a `#` token right before or behind another one, with trivia between the two. -/
def SeparatedPound (guard : ParserTokenRewriteGuard) (deletion : ByteRange) : Prop :=
  ∃ index token, guard.tokens[index]? = some token ∧ token.range = deletion ∧ token.isPound = true ∧
    ((∃ i previous, index = i + 1 ∧ guard.tokens[i]? = some previous ∧ previous.isPound = true ∧
      previous.range.stop < deletion.start) ∨
    ∃ following, guard.tokens[index + 1]? = some following ∧ following.isPound = true ∧
      deletion.stop < following.range.start)

theorem isPoundAt_iff {index : Nat} : guard.isPoundAt index = true ↔
    ∃ token, guard.tokens[index]? = some token ∧ token.isPound = true := by
  unfold isPoundAt
  cases guard.tokens[index]? <;> simp

theorem takeWhile_pos_iff {tokens : List ParserToken} :
    0 < (tokens.takeWhile ParserToken.isPound).length ↔
      (tokens.head?.map ParserToken.isPound).getD false = true := by
  cases tokens with
  | nil => simp
  | cons token tokens =>
    rw [takeWhile_cons]
    split <;> simp_all

/-- A run goes on to the left where the token before is a pound. -/
theorem poundRunStart_lt_iff {i : Nat} (h : guard.isPoundAt (i + 1) = true) :
    guard.poundRunStart (i + 1) < i + 1 ↔ guard.isPoundAt i = true := by
  obtain ⟨token, htoken, -⟩ := isPoundAt_iff.mp h
  have hi : i < guard.tokens.length :=
    (Nat.lt_succ_self i).trans (List.getElem?_eq_some_iff.mp htoken).1
  have hhead : (guard.tokens.take (i + 1)).reverse.head? = guard.tokens[i]? := by
    rw [head?_reverse, getLast?_take, if_neg (Nat.succ_ne_zero i), Nat.add_sub_cancel,
      getElem?_eq_getElem hi, Option.some_or]
  rw [poundRunStart, if_pos h, isPoundAt, ← hhead, ← takeWhile_pos_iff]
  omega

/-- A run goes on to the right where the token behind is a pound. -/
theorem lt_poundRunEnd_iff {i : Nat} (h : guard.isPoundAt i = true) :
    i + 1 < guard.poundRunEnd i ↔ guard.isPoundAt (i + 1) = true := by
  obtain ⟨token, htoken, hpound⟩ := isPoundAt_iff.mp h
  obtain ⟨hi, rfl⟩ := List.getElem?_eq_some_iff.mp htoken
  rw [poundRunEnd, if_pos h, drop_eq_getElem_cons hi, takeWhile_cons_of_pos hpound,
    length_cons, isPoundAt, ← head?_drop, ← takeWhile_pos_iff]
  omega

/-- Where the boundary is that of one token, the shortcut looks for a pound on either side of it. -/
theorem shortcut_iff_of_boundary {deletion : ByteRange} {boundary : ParserTokenDeletionBoundary}
    {token : ParserToken} (hboundary : guard.deletionBoundary deletion = some boundary)
    (hend : boundary.deletedEnd = boundary.deletedStart + 1)
    (htoken : guard.tokens[boundary.deletedStart]? = some token) (hrange : token.range = deletion) :
    guard.triviaSeparatedPoundDeletionPreservesIdentity deletion = true ↔
      token.isPound = true ∧
        ((∃ i previous, boundary.deletedStart = i + 1 ∧ guard.tokens[i]? = some previous ∧
          previous.isPound = true ∧ previous.range.stop < deletion.start) ∨
        ∃ following, guard.tokens[boundary.deletedStart + 1]? = some following ∧
          following.isPound = true ∧ deletion.stop < following.range.start) := by
  unfold triviaSeparatedPoundDeletionPreservesIdentity
  rw [hboundary]
  simp only [hend, ne_eq, not_true_eq_false, if_false, htoken, hrange, false_or]
  by_cases hpound : token.isPound = true
  · have hat := isPoundAt_iff.mpr ⟨token, htoken, hpound⟩
    have hkind : token.lexerKind = .pound := beq_iff_eq.mp hpound
    rw [if_neg (not_not.mpr hkind), and_iff_right hpound, Bool.or_eq_true]
    simp only [Bool.and_eq_true, decide_eq_true_eq, Option.any_eq_true]
    generalize boundary.deletedStart = index at hat
    refine or_congr ⟨?_, ?_⟩ ?_
    · rintro ⟨hlt, previous, hprevious, hgap⟩
      obtain ⟨i, rfl⟩ := Nat.exists_eq_add_one.mpr (Nat.zero_lt_of_lt hlt)
      obtain ⟨other, hother, hpound⟩ := isPoundAt_iff.mp ((poundRunStart_lt_iff hat).mp hlt)
      cases hother.symm.trans hprevious
      exact ⟨i, previous, rfl, hprevious, hpound, hgap⟩
    · rintro ⟨i, previous, rfl, hprevious, hpound, hgap⟩
      exact ⟨(poundRunStart_lt_iff hat).mpr (isPoundAt_iff.mpr ⟨previous, hprevious, hpound⟩),
        previous, hprevious, hgap⟩
    · rw [lt_poundRunEnd_iff hat, isPoundAt_iff]
      constructor
      · rintro ⟨⟨other, hother, hpound⟩, following, hfollowing, hgap⟩
        cases hother.symm.trans hfollowing
        exact ⟨other, hfollowing, hpound, hgap⟩
      · rintro ⟨following, hfollowing, hpound, hgap⟩
        exact ⟨⟨following, hfollowing, hpound⟩, following, hfollowing, hgap⟩
  · have hkind : ¬token.lexerKind = .pound := fun h => hpound (beq_iff_eq.mpr h)
    rw [if_pos hkind]
    exact ⟨fun h => absurd h Bool.false_ne_true, fun h => absurd h.1 hpound⟩

theorem separatedPound_of_shortcut {deletion : ByteRange}
    (h : guard.triviaSeparatedPoundDeletionPreservesIdentity deletion = true) :
    SeparatedPound guard deletion := by
  have hshort := h
  unfold triviaSeparatedPoundDeletionPreservesIdentity at h
  split at h
  · cases h
  · rename_i boundary hboundary
    split at h
    · cases h
    · rename_i hone
      split at h
      · cases h
      · rename_i token htoken
        split at h
        · cases h
        · rename_i hpound
          rw [not_or, not_not] at hpound
          exact ⟨_, token, htoken, hpound.1,
            (shortcut_iff_of_boundary hboundary (not_not.mp hone) htoken hpound.1).mp hshort⟩

end ParserTokenRewriteGuard

end ItemDependencies
