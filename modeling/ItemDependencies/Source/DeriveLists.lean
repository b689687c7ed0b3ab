import ItemDependencies.Source.DeriveSegments

/-!
# Derive lists

A derive attribute has a layout if it is a list of entries, each with its element
and else only space.
-/

namespace ItemDependencies

open Library Library.Brackets RawToken List

/-- The tokens of a segment, and the place of its element in their text. -/
structure DeriveEntry where
  raws : List RawToken
  element : Option (Nat × Nat)

namespace DeriveEntry

def len (entry : DeriveEntry) : Nat := utf8Len (textOf entry.raws)

def elementAt (entry : DeriveEntry) (start : Nat) : Option ByteRange :=
  entry.element.map fun place => ⟨start + place.1, start + place.2⟩

/-- The element has some text, and the tokens beside it are space. -/
structure Valid (entry : DeriveEntry) : Prop where
  places : ∀ place ∈ entry.element, place.1 < place.2 ∧ place.2 ≤ entry.len ∧
    isCharBoundary (textOf entry.raws) place.1 = true ∧
    isCharBoundary (textOf entry.raws) place.2 = true
  space : ∀ token ∈ placeTokens 0 entry.raws, token.kind.isSpace = false →
    ∃ place ∈ entry.element, place.1 ≤ token.range.start ∧ token.range.stop ≤ place.2

end DeriveEntry

/-- The elements of entries that begin at an offset. -/
def elementsAt : Nat → List DeriveEntry → List (Option ByteRange)
  | _, [] => []
  | start, entry :: entries => entry.elementAt start :: elementsAt (start + entry.len + 1) entries

/-- A derive list, and the tokens around it. -/
structure DeriveList where
  before : List RawToken
  entries : List DeriveEntry
  behind : List RawToken

namespace DeriveList

def parens (list : DeriveList) : ParenList :=
  ⟨list.before, list.entries.map DeriveEntry.raws, list.behind⟩

/-- Where the first entry begins. -/
def start (list : DeriveList) (offset : Nat) : Nat := offset + utf8Len (textOf list.before) + 1

def segments (list : DeriveList) (offset : Nat) : List CommaListSegment :=
  segmentsOf (list.start offset) none (list.entries.map DeriveEntry.raws)

def found (list : DeriveList) (offset : Nat) : List (Option ByteRange) :=
  elementsAt (list.start offset) list.entries

def elements (list : DeriveList) (offset : Nat) : List ByteRange :=
  (list.found offset).flatMap Option.toList

def layout (list : DeriveList) (offset : Nat) : List DeriveListEntryLayout :=
  layoutOf (list.segments offset) (list.found offset)

/-- Each entry has an element; only the last one need not have one. -/
structure Valid (list : DeriveList) : Prop where
  parens : list.parens.Valid
  entries : ∀ entry ∈ list.entries, entry.Valid
  holds : ∀ entry ∈ list.entries.dropLast, entry.element.isSome = true

end DeriveList

section

variable {tk : Tokenizer} {raws front back rest piece : List RawToken}
  {pieces : List (List RawToken)} {offset start index : Nat} {token : SourceToken}
  {previous : Option ByteRange} {segment : CommaListSegment} {source : List Char}
  {range : ByteRange} {list : DeriveList} {element : Option ByteRange} {pairs : List DelimiterPair}
  {entries : List DeriveEntry} {elements : List ByteRange} {tokens : List SourceToken}

/-! ## Placed tokens -/

theorem bounds_of_mem_placeTokens (hne : ∀ raw ∈ raws, raw.text ≠ [])
    (h : token ∈ placeTokens offset raws) : offset ≤ token.range.start ∧
      token.range.start < token.range.stop ∧ token.range.stop ≤ offset + utf8Len (textOf raws) := by
  induction raws generalizing offset with
  | nil => cases h
  | cons raw raws ih =>
    obtain ⟨hraw, hne⟩ := forall_mem_cons.mp hne
    have hpos : 0 < utf8Len raw.text := Nat.pos_of_ne_zero fun hzero =>
      hraw (eq_nil_of_utf8Len_eq_zero hzero)
    rw [textOf_cons, utf8Len_append]
    rcases mem_cons.mp h with rfl | h
    · dsimp only
      omega
    · have := ih hne h
      omega

/-- Tokens that are placed further on. -/
theorem placeTokens_shift (raws : List RawToken) (start offset : Nat) :
    placeTokens (start + offset) raws = (placeTokens offset raws).map fun token =>
      ⟨token.kind, ⟨start + token.range.start, start + token.range.stop⟩⟩ := by
  induction raws generalizing offset with
  | nil => rfl
  | cons raw raws ih =>
    rw [placeTokens, placeTokens, map_cons, ← ih, Nat.add_assoc]

/-- Tokens inside the range of a part belong to the part. -/
theorem mem_placeTokens_of_contains (hne : ∀ raw ∈ front ++ (piece ++ back), raw.text ≠ [])
    (h : token ∈ placeTokens offset (front ++ (piece ++ back)))
    (hcontains : ByteRange.contains ⟨offset + utf8Len (textOf front),
      offset + utf8Len (textOf front) + utf8Len (textOf piece)⟩ token.range = true) :
    token ∈ placeTokens (offset + utf8Len (textOf front)) piece := by
  simp only [forall_mem_append] at hne
  rw [ByteRange.contains_iff] at hcontains
  dsimp only at hcontains
  rw [placeTokens_append, placeTokens_append] at h
  rcases mem_append.mp h with h | h
  · have := bounds_of_mem_placeTokens hne.1 h
    omega
  · rcases mem_append.mp h with h | h
    · exact h
    · have := bounds_of_mem_placeTokens hne.2.2 h
      omega

/-! ## Where the segments are -/

theorem segmentsOf_cons (start : Nat) (previous : Option ByteRange) (piece : List RawToken)
    (pieces : List (List RawToken)) : ∃ following, segmentsOf start previous (piece :: pieces) =
    ⟨⟨start, start + utf8Len (textOf piece)⟩, previous, following⟩ ::
      segmentsOf (start + utf8Len (textOf piece) + 1) following pieces := by
  cases pieces with
  | nil => exact ⟨none, rfl⟩
  | cons next pieces => exact ⟨_, rfl⟩

theorem le_start_of_mem_segmentsOf (h : segment ∈ segmentsOf start previous pieces) :
    start ≤ segment.range.start := by
  induction pieces generalizing start previous with
  | nil => cases h
  | cons piece pieces ih =>
    obtain ⟨following, heq⟩ := segmentsOf_cons start previous piece pieces
    rw [heq] at h
    rcases mem_cons.mp h with rfl | h
    · exact le_rfl
    · have := ih h
      omega

theorem segmentsAscend_segmentsOf : SegmentsAscend (segmentsOf start previous pieces) := by
  induction pieces generalizing start previous with
  | nil => exact .nil
  | cons piece pieces ih =>
    obtain ⟨following, heq⟩ := segmentsOf_cons start previous piece pieces
    rw [heq]
    refine pairwise_cons.mpr ⟨fun later hlater => ?_, ih⟩
    have := le_start_of_mem_segmentsOf hlater
    dsimp only
    omega

@[simp] theorem length_segmentsOf : (segmentsOf start previous pieces).length = pieces.length := by
  induction pieces generalizing start previous with
  | nil => rfl
  | cons piece pieces ih =>
    obtain ⟨following, heq⟩ := segmentsOf_cons start previous piece pieces
    rw [heq, length_cons, length_cons, ih]

/-- A segment is a part of the text. -/
theorem exists_located_join {behind : List RawToken}
    (hraws : raws = front ++ (join commaToken pieces ++ behind))
    (hstart : start = offset + utf8Len (textOf front))
    (hpiece : pieces[index]? = some piece)
    (hsegment : (segmentsOf start previous pieces)[index]? = some segment) :
    ∃ before after, raws = before ++ (piece ++ after) ∧
      segment.range = ⟨offset + utf8Len (textOf before),
        offset + utf8Len (textOf before) + utf8Len (textOf piece)⟩ := by
  induction pieces generalizing front start previous index with
  | nil => cases hpiece
  | cons first pieces ih =>
    obtain ⟨following, heq⟩ := segmentsOf_cons start previous first pieces
    rw [heq] at hsegment
    cases index with
    | zero =>
      cases hpiece
      cases hsegment
      subst hstart
      cases pieces with
      | nil => exact ⟨front, behind, hraws, rfl⟩
      | cons next pieces =>
        refine ⟨front, commaToken :: join commaToken (next :: pieces) ++ behind, ?_, rfl⟩
        rw [hraws, join_cons (cons_ne_nil _ _), append_assoc]
    | succ index =>
      have hne : pieces ≠ [] := by
        rintro rfl
        cases hpiece
      have hsplit : raws = (front ++ (first ++ [commaToken])) ++
          (join commaToken pieces ++ behind) := by
        rw [hraws, join_cons hne]
        simp
      refine ih hsplit ?_ hpiece hsegment
      have hone : utf8Len commaToken.text = 1 := rfl
      rw [hstart]
      simp [hone, Nat.add_assoc]

/-- A token of the list is a comma or belongs to a piece. -/
theorem mem_segment_of_mem_join (previous : Option ByteRange) (hcomma : token.kind ≠ .comma)
    (h : token ∈ placeTokens start (join commaToken pieces)) :
    ∃ (index : Nat) (piece : List RawToken) (segment : CommaListSegment),
      pieces[index]? = some piece ∧ (segmentsOf start previous pieces)[index]? = some segment ∧
        token ∈ placeTokens segment.range.start piece := by
  induction pieces generalizing start previous with
  | nil => cases h
  | cons first pieces ih =>
    obtain ⟨following, heq⟩ := segmentsOf_cons start previous first pieces
    rw [heq]
    by_cases hnil : pieces = []
    · subst hnil
      exact ⟨0, first, _, rfl, rfl, h⟩
    · rw [join_cons hnil, placeTokens_append] at h
      rcases mem_append.mp h with h | h
      · exact ⟨0, first, _, rfl, rfl, h⟩
      · rcases mem_cons.mp h with rfl | h
        · exact absurd rfl hcomma
        · obtain ⟨index, piece, segment, hpiece, hsegment, hmem⟩ := ih _ h
          exact ⟨index + 1, piece, segment, hpiece, hsegment, hmem⟩

/-! ## Entries -/

/-- What is found in a segment makes an entry. -/
theorem exists_entry (hsegment : segment.range = ⟨start, start + utf8Len (textOf piece)⟩)
    (hboundary : ∀ offset, offset ≤ utf8Len (textOf piece) →
      isCharBoundary source (start + offset) = isCharBoundary (textOf piece) offset)
    (hholds : HoldsElement segment element)
    (hvalid : ∀ e ∈ element, validRange source e = true)
    (hstray : ∀ token ∈ placeTokens start piece, token.kind.isSpace = false →
      ∃ e ∈ element, e.contains token.range = true) :
    ∃ entry : DeriveEntry, entry.raws = piece ∧ entry.elementAt start = element ∧ entry.Valid := by
  have hinside : ∀ e ∈ element, start ≤ e.start ∧ e.start < e.stop ∧
      e.stop ≤ start + utf8Len (textOf piece) := by
    intro e he
    obtain ⟨hcontains, hne⟩ := hholds e he
    rw [hsegment, ByteRange.contains_iff] at hcontains
    exact ⟨hcontains.1, hne, hcontains.2⟩
  refine ⟨⟨piece, element.map fun e => (e.start - start, e.stop - start)⟩, rfl, ?_, ?_, ?_⟩
  · cases element with
    | none => rfl
    | some e =>
      have := hinside e rfl
      simp only [DeriveEntry.elementAt, Option.map_some]
      rw [Nat.add_sub_cancel' (by omega), Nat.add_sub_cancel' (by omega)]
  · intro place hplace
    obtain ⟨e, he, rfl⟩ := Option.mem_map.mp hplace
    obtain ⟨hstart, hne, hstop⟩ := hinside e he
    have hrange := hvalid e he
    simp only [validRange, Bool.and_eq_true, decide_eq_true_eq] at hrange
    obtain ⟨⟨-, hfirst⟩, hlast⟩ := hrange
    refine ⟨by dsimp only; omega, by dsimp only [DeriveEntry.len]; omega, ?_, ?_⟩
    · rw [← hboundary _ (by omega), Nat.add_sub_cancel' hstart, hfirst]
    · rw [← hboundary _ (by omega), Nat.add_sub_cancel' (by omega), hlast]
  · intro token htoken hspace
    obtain ⟨e, he, hcontains⟩ := hstray
      ⟨token.kind, ⟨start + token.range.start, start + token.range.stop⟩⟩ (by
        have hshift := placeTokens_shift piece start 0
        rw [Nat.add_zero] at hshift
        rw [hshift]
        exact mem_map_of_mem htoken) hspace
    have := hinside e he
    rw [ByteRange.contains_iff] at hcontains
    refine ⟨_, Option.mem_map.mpr ⟨e, he, rfl⟩, ?_, ?_⟩
    · dsimp only at hcontains ⊢
      omega
    · dsimp only at hcontains ⊢
      omega

/-- What is found in the segments makes a list of entries. -/
theorem exists_entries_of_found {found : List (Option ByteRange)}
    (hlength : found.length = pieces.length)
    (h : ∀ (index : Nat) piece segment element, pieces[index]? = some piece →
      (segmentsOf start previous pieces)[index]? = some segment →
      found[index]? = some element → ∃ entry : DeriveEntry, entry.raws = piece ∧
        entry.elementAt segment.range.start = element ∧ entry.Valid) :
    ∃ entries : List DeriveEntry, entries.map DeriveEntry.raws = pieces ∧
      elementsAt start entries = found ∧ ∀ entry ∈ entries, entry.Valid := by
  induction pieces generalizing start previous found with
  | nil =>
    rw [length_nil, length_eq_zero_iff] at hlength
    subst hlength
    exact ⟨[], rfl, rfl, by simp⟩
  | cons piece pieces ih =>
    obtain ⟨following, heq⟩ := segmentsOf_cons start previous piece pieces
    rw [heq] at h
    cases found with
    | nil => cases hlength
    | cons element found =>
      obtain ⟨entry, hraws, helement, hvalid⟩ := h 0 piece _ element rfl rfl rfl
      obtain ⟨entries, hpieces, hfound, hentries⟩ := ih (Nat.succ.inj hlength)
        fun index => h (index + 1)
      refine ⟨entry :: entries, ?_, ?_, forall_mem_cons.mpr ⟨hvalid, hentries⟩⟩
      · rw [map_cons, hraws, hpieces]
      · rw [elementsAt, helement, DeriveEntry.len, hraws, hfound]

theorem mem_deriveContainers {container : Nat × DelimiterPair} :
    container ∈ deriveContainers tokens pairs elements ↔ container.2 ∈ pairs ∧
      container.2.delimiter = .parenthesis ∧
      (∀ e ∈ elements, (container.2.interior tokens).contains e = true) ∧
      container.1 = (container.2.interior tokens).len := by
  obtain ⟨size, pair⟩ := container
  rw [deriveContainers, mem_insertionSort, mem_filterMap]
  constructor
  · rintro ⟨other, hmem, hother⟩
    obtain ⟨hparen, hother⟩ := Option.ite_none_left_eq_some.mp hother
    obtain ⟨hall, hother⟩ := Option.ite_none_right_eq_some.mp hother
    cases hother
    exact ⟨hmem, not_not.mp hparen, all_eq_true.mp hall, rfl⟩
  · rintro ⟨hmem, hparen, hall, hsize⟩
    refine ⟨pair, hmem, ?_⟩
    dsimp only at hparen hall hsize
    have hall : (elements.all (pair.interior tokens).contains) = true := all_eq_true.mpr hall
    rw [if_neg (not_not.mpr hparen), hsize]
    exact if_pos hall

theorem deriveList_ok {pair : DelimiterPair} (h : deriveList tokens pairs elements = .ok pair) :
    pair ∈ pairs ∧ pair.delimiter = .parenthesis := by
  unfold deriveList at h
  split at h
  · cases h
  · rename_i smallest first rest hcontainers
    obtain ⟨-, h⟩ := guard_ok h
    cases h
    have hmem : (smallest, pair) ∈ deriveContainers tokens pairs elements := by
      rw [hcontainers]
      exact mem_cons_self
    obtain ⟨hpair, hparen, -⟩ := mem_deriveContainers.mp hmem
    exact ⟨hpair, hparen⟩

theorem elementsAt_getElem? {entry : DeriveEntry} (start : Nat) (previous : Option ByteRange)
    (h : entries[index]? = some entry) : ∃ segment,
      (segmentsOf start previous (entries.map DeriveEntry.raws))[index]? = some segment ∧
      (elementsAt start entries)[index]? = some (entry.elementAt segment.range.start) := by
  induction entries generalizing start previous index with
  | nil => cases h
  | cons first entries ih =>
    obtain ⟨following, heq⟩ := segmentsOf_cons start previous first.raws
      (entries.map DeriveEntry.raws)
    rw [map_cons, heq]
    cases index with
    | zero =>
      cases h
      exact ⟨_, rfl, rfl⟩
    | succ index => exact ih _ _ h

@[simp] theorem length_elementsAt : (elementsAt start entries).length = entries.length := by
  induction entries generalizing start with
  | nil => rfl
  | cons entry entries ih => rw [elementsAt, length_cons, length_cons, ih]

/-- A segment of the list is a part of the tokens around it. -/
theorem ParenList.exists_located {list : ParenList} (hpiece : list.pieces[index]? = some piece)
    (hsegment : (segmentsOf (offset + utf8Len (textOf list.before) + 1) none list.pieces)[index]? =
      some segment) : ∃ before after, list.raws = before ++ (piece ++ after) ∧
      segment.range = ⟨offset + utf8Len (textOf before),
        offset + utf8Len (textOf before) + utf8Len (textOf piece)⟩ := by
  have hraws : list.raws = (list.before ++ [openToken]) ++
      (join commaToken list.pieces ++ closeToken :: list.behind) := by
    simp [ParenList.raws, ParenList.body]
  refine exists_located_join hraws ?_ hpiece hsegment
  rw [textOf_append, utf8Len_append, Nat.add_assoc]
  rfl

/-- The boundaries of a text inside a part of it. -/
theorem isCharBoundary_located
    (htext : textRange source range.start range.stop = some (textOf raws))
    (hraws : raws = front ++ (piece ++ back)) {place : Nat}
    (hplace : place ≤ utf8Len (textOf piece)) :
    isCharBoundary source (range.start + utf8Len (textOf front) + place) =
      isCharBoundary (textOf piece) place := by
  obtain ⟨before, behind, rfl, hbefore, -⟩ := textRange_eq_some htext
  rw [hraws, textOf_append, textOf_append]
  have hsplit : before ++ (textOf front ++ (textOf piece ++ textOf back) ++ behind) =
      (before ++ textOf front) ++ (textOf piece ++ (textOf back ++ behind)) := by simp
  rw [hsplit, ← hbefore, ← utf8Len_append, isCharBoundary_append, isCharBoundary_of_le hplace]

/-- What is found in the segments of a list makes entries of it. -/
theorem ParenList.exists_entries {parens : ParenList} {segments : List CommaListSegment}
    {found : List (Option ByteRange)}
    (hsegments : segments =
      segmentsOf (range.start + utf8Len (textOf parens.before) + 1) none parens.pieces)
    (hcuts : CutsRange tk source range parens.raws)
    (hvalid : ∀ e ∈ elements, validRange source e = true)
    (hfinds : List.Forall₂ (Finds (placeTokens range.start parens.raws) elements
      (segments.length - 1)) segments.zipIdx found)
    (hholds : List.Forall₂ HoldsElement segments found)
    (hfound : found.flatMap Option.toList = elements) :
    ∃ entries : List DeriveEntry, entries.map DeriveEntry.raws = parens.pieces ∧
      elementsAt (range.start + utf8Len (textOf parens.before) + 1) entries = found ∧
      (∀ entry ∈ entries, entry.Valid) ∧
      ∀ entry ∈ entries.dropLast, entry.element.isSome = true := by
  have hlength : found.length = parens.pieces.length := by
    rw [← hholds.length_eq, hsegments, length_segmentsOf]
  have hentry : ∀ (index : Nat) piece segment element, parens.pieces[index]? = some piece →
      (segmentsOf (range.start + utf8Len (textOf parens.before) + 1) none parens.pieces)[index]? =
        some segment → found[index]? = some element → ∃ entry : DeriveEntry, entry.raws = piece ∧
        entry.elementAt segment.range.start = element ∧ entry.Valid := by
    intro index piece segment element hpiece hsegment helement
    obtain ⟨before, after, hraws, hrange⟩ := parens.exists_located hpiece hsegment
    rw [← hsegments] at hsegment
    obtain ⟨-, hstray⟩ := getElem?_zipIdx_of_forall₂ hfinds hsegment helement
    obtain ⟨other, hother, hhold⟩ := getElem?_of_forall₂ hholds hsegment
    rw [helement] at hother
    cases hother
    have hrange' := hrange
    rw [hrange]
    refine exists_entry hrange (fun place hplace => isCharBoundary_located hcuts.text hraws hplace)
      hhold (fun e he => hvalid e ?_) fun token htoken hspace => ?_
    · rw [← hfound]
      exact mem_flatMap.mpr ⟨element, mem_of_getElem? helement, Option.mem_toList.mpr he⟩
    · have hne := hcuts.lexes.text_ne_nil
      rw [hraws] at hne hstray
      simp only [forall_mem_append] at hne
      have hbounds := bounds_of_mem_placeTokens hne.2.1 htoken
      have hmem : token ∈ placeTokens range.start (before ++ (piece ++ after)) := by
        rw [placeTokens_append, placeTokens_append]
        exact mem_append_right _ (mem_append_left _ htoken)
      have hnot := any_eq_false.mp hstray token hmem
      have hcontains : segment.range.contains token.range = true := by
        rw [hrange, ByteRange.contains_iff]
        exact ⟨hbounds.1, hbounds.2.2⟩
      rw [hcontains, hspace] at hnot
      cases element with
      | none => simp at hnot
      | some e => exact ⟨e, rfl, by simpa using hnot⟩
  obtain ⟨entries, hpieces, helements, hentries⟩ := exists_entries_of_found hlength hentry
  refine ⟨entries, hpieces, helements, hentries, fun entry hmem => ?_⟩
  obtain ⟨index, hindex⟩ := getElem?_of_mem hmem
  obtain ⟨hlt, hget⟩ : index < entries.length - 1 ∧ entries[index]? = some entry := by
    rw [dropLast_eq_take, getElem?_take] at hindex
    exact Option.ite_none_right_eq_some.mp hindex
  obtain ⟨segment, hsegment, helement⟩ := elementsAt_getElem? _ _ hget
  rw [hpieces, ← hsegments] at hsegment
  rw [helements] at helement
  have hcount : segments.length = entries.length := by
    rw [hsegments, length_segmentsOf, ← hpieces, length_map]
  cases hnone : entry.element with
  | some place => rfl
  | none =>
    rw [DeriveEntry.elementAt, hnone] at helement
    have := last_of_finds_none (getElem?_zipIdx_of_forall₂ hfinds hsegment helement) (by omega)
    omega

/-- Where a layout is found, the elements are those of a list. -/
theorem deriveAttributeLayout_ok {attribute' : ByteRange} {layout : List DeriveListEntryLayout}
    (hsep : tk.Separates) (h : deriveAttributeLayout tk source attribute' elements = .ok layout) :
    ∃ list : DeriveList, CutsRange tk source attribute' list.parens.raws ∧ list.Valid ∧
      list.elements attribute'.start = elements ∧ list.layout attribute'.start = layout ∧
      attribute'.stop < u32Size := by
  unfold deriveAttributeLayout at h
  obtain ⟨hvalid, h⟩ := guard_ok h
  rw [Bool.not_eq_true', Bool.not_eq_false] at hvalid
  obtain ⟨-, helements, hordered⟩ := elementsValid_iff.mp hvalid
  split at h
  · cases h
  · cases h
  · rename_i tokens pairs htokens
    obtain ⟨pair, hpair, h⟩ := bind_ok h
    obtain ⟨hmem, hparen⟩ := deriveList_ok hpair
    obtain ⟨-, hmatches⟩ := Tokenizer.tokenizeBalancedRange_ok htokens
    obtain ⟨raws, hcuts, rfl, hsize⟩ := tokenizeBalancedRange_cuts htokens
    obtain ⟨parens, rfl, rfl, hparens⟩ :=
      exists_parenList hcuts.lexes hsep hcuts.reads hmatches hmem hparen
    rw [commaListSegments_list hparens] at h
    dsimp only at h
    have hstrict : elements.Pairwise (· < ·) := by
      refine hordered.imp_of_mem fun {a b} ha _ hab => ?_
      exact lt_of_stop_le (helements a ha).1 hab
    obtain ⟨found, hfinds, hholds, hfound, rfl⟩ :=
      deriveListLayout_ok segmentsAscend_segmentsOf (fun e he => (helements e he).1) hstrict h
    obtain ⟨entries, hpieces, rfl, hentries, hsome⟩ := parens.exists_entries rfl hcuts
      (fun e he => (helements e he).2.2) hfinds hholds hfound
    refine ⟨⟨parens.before, entries, parens.behind⟩, ?_⟩
    have hparens' : (⟨parens.before, entries, parens.behind⟩ : DeriveList).parens = parens := by
      rw [DeriveList.parens, hpieces]
    have hraws : parens.raws ≠ [] := by simp [ParenList.raws]
    refine ⟨?_, ⟨?_, hentries, hsome⟩, hfound, ?_, hsize hraws⟩
    · rwa [hparens']
    · rwa [hparens']
    · rw [DeriveList.layout, DeriveList.segments, DeriveList.found, hpieces]
      rfl

/-! ## Lists have layouts -/

theorem holdsElement_elementsAt (previous : Option ByteRange) (h : ∀ entry ∈ entries, entry.Valid) :
    List.Forall₂ HoldsElement (segmentsOf start previous (entries.map DeriveEntry.raws))
      (elementsAt start entries) := by
  induction entries generalizing start previous with
  | nil => exact .nil
  | cons entry entries ih =>
    obtain ⟨hentry, h⟩ := forall_mem_cons.mp h
    obtain ⟨following, heq⟩ := segmentsOf_cons start previous entry.raws
      (entries.map DeriveEntry.raws)
    rw [map_cons, heq]
    refine .cons (fun e he => ?_) (ih _ h)
    obtain ⟨place, hplace, rfl⟩ := Option.mem_map.mp he
    obtain ⟨hlt, hle, -⟩ := hentry.places place hplace
    rw [DeriveEntry.len] at hle
    rw [ByteRange.contains_iff]
    dsimp only
    omega

/-- Where an element of a list is. -/
theorem DeriveList.exists_place (hmem : range ∈ list.elements offset) :
    ∃ (index : Nat) (entry : DeriveEntry) (segment : CommaListSegment) (place : Nat × Nat),
      list.entries[index]? = some entry ∧ (list.segments offset)[index]? = some segment ∧
      (list.found offset)[index]? = some (some range) ∧ place ∈ entry.element ∧
      range = ⟨segment.range.start + place.1, segment.range.start + place.2⟩ := by
  obtain ⟨element, helement, hrange⟩ := mem_flatMap.mp hmem
  obtain ⟨index, hindex⟩ := getElem?_of_mem helement
  have hlt := (List.getElem?_eq_some_iff.mp hindex).1
  rw [DeriveList.found, length_elementsAt] at hlt
  obtain ⟨segment, hsegment, hfound⟩ :=
    elementsAt_getElem? (list.start offset) none (getElem?_eq_getElem hlt)
  have hsame := hindex.symm.trans hfound
  cases hsame
  obtain ⟨place, hplace, hrange'⟩ := Option.mem_map.mp (Option.mem_toList.mp hrange)
  refine ⟨index, _, segment, place, getElem?_eq_getElem hlt, hsegment, ?_, hplace, hrange'.symm⟩
  rw [hindex, Option.mem_toList.mp hrange]

theorem DeriveList.exists_located {entry : DeriveEntry} (hentry : list.entries[index]? = some entry)
    (hsegment : (list.segments offset)[index]? = some segment) :
    ∃ before after, list.parens.raws = before ++ (entry.raws ++ after) ∧
      segment.range = ⟨offset + utf8Len (textOf before),
        offset + utf8Len (textOf before) + entry.len⟩ :=
  list.parens.exists_located (by rw [DeriveList.parens, getElem?_map, hentry]; rfl) hsegment

theorem validRange_of_boundaries {start stop : Nat} (hle : start ≤ stop)
    (hstart : isCharBoundary source start = true) (hstop : isCharBoundary source stop = true) :
    validRange source ⟨start, stop⟩ = true := by
  simp [validRange, hle, hstart, hstop, le_utf8Len_of_isCharBoundary hstop]

/-- A list has at least its parentheses. -/
theorem ParenList.len_pos (list : ParenList) : 0 < utf8Len (textOf list.raws) := by
  have hone : utf8Len openToken.text = 1 := rfl
  rw [ParenList.raws, textOf_append, textOf_cons, utf8Len_append, utf8Len_append]
  omega

/-- The elements of a list pass the checks. -/
theorem DeriveList.elementsValid (hcuts : CutsRange tk source range list.parens.raws)
    (hvalid : list.Valid) : elementsValid source range (list.elements range.start) = true := by
  have hholds : List.Forall₂ HoldsElement (list.segments range.start) (list.found range.start) :=
    holdsElement_elementsAt none hvalid.entries
  have hpos := list.parens.len_pos
  have hstop := hcuts.stop_eq
  have hends : isCharBoundary source range.start = true ∧
      isCharBoundary source range.stop = true := by
    obtain ⟨front, rest, rfl, hfront, hmid⟩ := textRange_eq_some hcuts.text
    rw [← hmid, ← hfront]
    constructor
    · rw [isCharBoundary_of_le le_rfl, isCharBoundary_utf8Len]
    · rw [isCharBoundary_append, isCharBoundary_of_le le_rfl, isCharBoundary_utf8Len]
  rw [elementsValid_iff]
  refine ⟨⟨validRange_of_boundaries (by omega) hends.1 hends.2, ?_⟩, fun e he => ?_, ?_⟩
  · rw [ByteRange.isEmpty, beq_eq_false_iff_ne]
    omega
  · obtain ⟨index, entry, segment, place, hentry, hsegment, -, hplace, rfl⟩ :=
      DeriveList.exists_place he
    obtain ⟨before, after, hraws, hrange⟩ := DeriveList.exists_located hentry hsegment
    obtain ⟨hlt, hle, hfirst, hlast⟩ :=
      (hvalid.entries entry (mem_of_getElem? hentry)).places place hplace
    rw [DeriveEntry.len] at hle hrange
    rw [← isCharBoundary_located hcuts.text hraws (by omega)] at hfirst hlast
    rw [hrange]
    refine ⟨by dsimp only; omega, ?_, validRange_of_boundaries (by dsimp only; omega) hfirst hlast⟩
    rw [hraws, textOf_append, textOf_append, utf8Len_append, utf8Len_append] at hstop
    rw [ByteRange.contains_iff]
    dsimp only
    omega
  · exact (pairwise_found segmentsAscend_segmentsOf hholds).imp And.right

theorem length_elements_of_some (h : ∀ entry ∈ entries, entry.element.isSome = true) :
    ((elementsAt start entries).flatMap Option.toList).length = entries.length := by
  induction entries generalizing start with
  | nil => rfl
  | cons entry entries ih =>
    obtain ⟨hentry, h⟩ := forall_mem_cons.mp h
    obtain ⟨place, hplace⟩ := Option.isSome_iff_exists.mp hentry
    rw [elementsAt, flatMap_cons, length_append, ih h, DeriveEntry.elementAt, hplace,
      length_cons, Nat.add_comm]
    rfl

/-- An entry without an element is the last one, and the only one. -/
theorem length_elements_of_none (start : Nat) {entry : DeriveEntry}
    (h : ∀ entry ∈ entries.dropLast, entry.element.isSome = true)
    (hentry : entries[index]? = some entry) (hnone : entry.element = none) :
    index + 1 = entries.length ∧
      ((elementsAt start entries).flatMap Option.toList).length + 1 = entries.length := by
  induction entries generalizing start index with
  | nil => cases hentry
  | cons first entries ih =>
    by_cases hnil : entries = []
    · subst hnil
      cases index with
      | zero =>
        cases hentry
        simp [elementsAt, DeriveEntry.elementAt, hnone]
      | succ index => cases hentry
    · rw [dropLast_cons_of_ne_nil hnil] at h
      obtain ⟨hfirst, h⟩ := forall_mem_cons.mp h
      cases index with
      | zero =>
        cases hentry
        rw [hnone] at hfirst
        cases hfirst
      | succ index =>
        obtain ⟨hlast, hlength⟩ := ih (start + first.len + 1) h hentry
        obtain ⟨place, hplace⟩ := Option.isSome_iff_exists.mp hfirst
        rw [elementsAt, flatMap_cons, length_append, length_cons, DeriveEntry.elementAt, hplace]
        refine ⟨by rw [hlast], ?_⟩
        simp only [Option.map_some, Option.toList_some, length_singleton]
        omega

theorem DeriveList.length_segments : (list.segments offset).length = list.entries.length := by
  rw [DeriveList.segments, length_segmentsOf, length_map]

/-- All entries but the last one have an element. -/
theorem DeriveList.count (hvalid : list.Valid) :
    (list.segments offset).length - 1 = (list.elements offset).length - 1 ∨
      (list.segments offset).length - 1 = (list.elements offset).length := by
  rw [DeriveList.length_segments, DeriveList.elements, DeriveList.found]
  by_cases h : ∀ entry ∈ list.entries, entry.element.isSome = true
  · rw [length_elements_of_some h]
    exact .inl rfl
  · simp only [not_forall] at h
    obtain ⟨entry, hentry, hnone⟩ := h
    obtain ⟨index, hindex⟩ := getElem?_of_mem hentry
    obtain ⟨-, hlength⟩ := length_elements_of_none (list.start offset) hvalid.holds hindex
      (by simpa using hnone)
    omega

/-- What is found in the segments of a list. -/
theorem DeriveList.finds (hcuts : CutsRange tk source range list.parens.raws)
    (hvalid : list.Valid) :
    List.Forall₂ (Finds (placeTokens range.start list.parens.raws) (list.elements range.start)
      ((list.segments range.start).length - 1)) (list.segments range.start).zipIdx
      (list.found range.start) := by
  have hholds : List.Forall₂ HoldsElement (list.segments range.start) (list.found range.start) :=
    holdsElement_elementsAt none hvalid.entries
  have hfilter := filter_found segmentsAscend_segmentsOf hholds [] (by simp)
  have hlength : (list.found range.start).length = list.entries.length := length_elementsAt
  refine forall₂_zipIdx (by rw [hlength, DeriveList.length_segments]) ?_
  intro index segment element hsegment helement
  have hlt := (List.getElem?_eq_some_iff.mp helement).1
  rw [hlength] at hlt
  have hentry := getElem?_eq_getElem hlt
  obtain ⟨other, hother, hfilter⟩ := getElem?_of_forall₂ hfilter hsegment
  rw [helement] at hother
  cases hother
  rw [nil_append] at hfilter
  obtain ⟨before, after, hraws, hrange⟩ := DeriveList.exists_located hentry hsegment
  obtain ⟨other, hother, hplace⟩ :=
    elementsAt_getElem? (list.start range.start) none hentry
  cases hsegment.symm.trans hother
  cases helement.symm.trans hplace
  constructor
  · cases hnone : (list.entries[index]).element with
    | none =>
      obtain ⟨hlast, hcount⟩ :=
        length_elements_of_none (list.start range.start) hvalid.holds hentry hnone
      rw [DeriveEntry.elementAt, hnone] at hfilter ⊢
      refine segmentElement_none hfilter ?_
      rw [DeriveList.length_segments, DeriveList.elements, DeriveList.found]
      dsimp only
      omega
    | some place =>
      rw [DeriveEntry.elementAt, hnone] at hfilter ⊢
      exact segmentElement_some hfilter
  · refine any_eq_false.mpr fun token htoken hstray => ?_
    simp only [Bool.and_eq_true, Bool.not_eq_true'] at hstray
    obtain ⟨⟨hcontains, hspace⟩, hstray⟩ := hstray
    have hne := hcuts.lexes.text_ne_nil
    rw [hraws] at htoken hne
    rw [hrange] at hcontains
    have hmem := mem_placeTokens_of_contains hne htoken hcontains
    have hshift := placeTokens_shift (list.entries[index]).raws
      (range.start + utf8Len (textOf before)) 0
    rw [Nat.add_zero] at hshift
    rw [hshift] at hmem
    obtain ⟨inner, hinner, rfl⟩ := mem_map.mp hmem
    obtain ⟨place, hplace, hfirst, hlast⟩ :=
      (hvalid.entries _ (getElem_mem hlt)).space inner hinner hspace
    have hplace : (list.entries[index]).element = some place := hplace
    rw [DeriveEntry.elementAt, hplace, hrange] at hstray
    simp [ByteRange.contains] at hstray
    omega

/-! ## The parentheses of the list -/

/-- The smallest parentheses around the elements are those of the list. -/
theorem deriveList_eq {pair : DelimiterPair} (hnodup : pairs.Nodup) (hpair : pair ∈ pairs)
    (hparen : pair.delimiter = .parenthesis)
    (hall : ∀ e ∈ elements, (pair.interior tokens).contains e = true)
    (hsmall : ∀ q ∈ pairs, q ≠ pair → (∀ e ∈ elements, (q.interior tokens).contains e = true) →
      (pair.interior tokens).len < (q.interior tokens).len) :
    deriveList tokens pairs elements = .ok pair := by
  let key : Nat × DelimiterPair → Nat ×ₗ Nat ×ₗ Nat := fun container =>
    toLex (container.1, toLex (container.2.opening, container.2.closing))
  have htotal : Std.Total fun a b : Nat × DelimiterPair => key a ≤ key b :=
    ⟨fun a b => le_total _ _⟩
  have htrans : IsTrans (Nat × DelimiterPair) fun a b => key a ≤ key b := ⟨fun a b c => le_trans⟩
  have hsorted : (deriveContainers tokens pairs elements).Pairwise fun a b => key a ≤ key b :=
    pairwise_insertionSort _ _
  have hcontainers : (deriveContainers tokens pairs elements).Nodup := by
    refine (perm_insertionSort _ _).nodup_iff.mpr (hnodup.filterMap fun a b c ha hb => ?_)
    obtain ⟨-, ha⟩ := Option.ite_none_left_eq_some.mp ha
    obtain ⟨-, hb⟩ := Option.ite_none_left_eq_some.mp hb
    obtain ⟨-, ha⟩ := Option.ite_none_right_eq_some.mp ha
    obtain ⟨-, hb⟩ := Option.ite_none_right_eq_some.mp hb
    exact congrArg Prod.snd (Option.some.inj (ha.trans hb.symm))
  have hmem : ((pair.interior tokens).len, pair) ∈ deriveContainers tokens pairs elements :=
    mem_deriveContainers.mpr ⟨hpair, hparen, hall, rfl⟩
  have hsame : ∀ container ∈ deriveContainers tokens pairs elements, container.2 = pair →
      container = ((pair.interior tokens).len, pair) := by
    rintro ⟨size, _⟩ hcontainer rfl
    obtain ⟨-, -, -, hsize⟩ := mem_deriveContainers.mp hcontainer
    exact congrArg (·, _) hsize
  -- all others are greater
  have hother : ∀ container ∈ deriveContainers tokens pairs elements, container.2 ≠ pair →
      (pair.interior tokens).len < container.1 := by
    intro container hcontainer hne
    obtain ⟨hq, -, hallq, hsize⟩ := mem_deriveContainers.mp hcontainer
    rw [hsize]
    exact hsmall _ hq hne hallq
  unfold deriveList
  cases hlist : deriveContainers tokens pairs elements with
  | nil =>
    rw [hlist] at hmem
    cases hmem
  | cons first rest =>
    rw [hlist] at hsorted hcontainers hmem hsame hother
    obtain ⟨hfirst, -⟩ := pairwise_cons.mp hsorted
    obtain ⟨hnew, -⟩ := nodup_cons.mp hcontainers
    obtain rfl : first = ((pair.interior tokens).len, pair) := by
      rcases mem_cons.mp hmem with heq | hmem
      · exact heq.symm
      · by_contra hne
        have hpairNe : first.2 ≠ pair := fun heq => hne (hsame first mem_cons_self heq)
        have hlt := hother first mem_cons_self hpairNe
        have hle := Prod.Lex.monotone_fst _ _ (hfirst _ hmem)
        exact absurd hle (Nat.not_le.mpr hlt)
    dsimp only
    rw [if_neg]
    · rfl
    · rw [Option.any_eq_true]
      rintro ⟨candidate, hcandidate, hsize⟩
      have hmem : candidate ∈ rest := mem_of_mem_head? hcandidate
      by_cases hne : candidate.2 = pair
      · rw [hsame candidate (mem_cons_of_mem _ hmem) hne] at hmem
        exact hnew hmem
      · have := hother candidate (mem_cons_of_mem _ hmem) hne
        simp only [decide_eq_true_eq] at hsize
        omega

theorem stop_le_of_mem_segmentsOf (h : segment ∈ segmentsOf start previous pieces) :
    segment.range.stop ≤ start + utf8Len (textOf (join commaToken pieces)) := by
  induction pieces generalizing start previous with
  | nil => cases h
  | cons piece pieces ih =>
    obtain ⟨following, heq⟩ := segmentsOf_cons start previous piece pieces
    rw [heq] at h
    by_cases hnil : pieces = []
    · subst hnil
      rw [mem_singleton.mp h]
      exact le_rfl
    · rw [join_cons hnil, textOf_append, textOf_cons, utf8Len_append, utf8Len_append]
      have hone : utf8Len commaToken.text = 1 := rfl
      rcases mem_cons.mp h with rfl | h
      · dsimp only
        omega
      · have := ih h
        omega

theorem DeriveList.interior_eq (list : DeriveList) (offset : Nat) :
    list.parens.pair.interior (placeTokens offset list.parens.raws) =
      ⟨list.start offset, list.start offset + utf8Len (textOf list.parens.body)⟩ := by
  rw [DelimiterPair.interior, tokenRange_of_getElem? (list.parens.placeTokens_opening offset),
    tokenRange_of_getElem? (list.parens.placeTokens_closing offset)]
  rfl

theorem DeriveList.interior_contains (hvalid : list.Valid) (h : range ∈ list.elements offset) :
    (list.parens.pair.interior (placeTokens offset list.parens.raws)).contains range = true := by
  obtain ⟨segment, hsegment, hcontains, -⟩ :=
    exists_segment_of_mem (holdsElement_elementsAt none hvalid.entries) h
  have hstart := le_start_of_mem_segmentsOf hsegment
  have hstop := stop_le_of_mem_segmentsOf hsegment
  have hbody : textOf list.parens.body = textOf (join commaToken (list.entries.map
    DeriveEntry.raws)) := rfl
  rw [DeriveList.interior_eq, ByteRange.contains_iff, hbody]
  rw [ByteRange.contains_iff] at hcontains
  dsimp only
  omega

/-- A token of the list is a comma, space or a part of an element. -/
theorem DeriveList.exists_element (hvalid : list.Valid)
    (htoken : token ∈ placeTokens (list.start offset) list.parens.body)
    (hcomma : token.kind ≠ .comma) (hspace : token.kind.isSpace = false) :
    ∃ e ∈ list.elements offset, e.contains token.range = true := by
  obtain ⟨index, piece, segment, hpiece, hsegment, hmem⟩ :=
    mem_segment_of_mem_join none hcomma htoken
  rw [DeriveList.parens, getElem?_map] at hpiece
  obtain ⟨entry, hentry, rfl⟩ := Option.map_eq_some_iff.mp hpiece
  obtain ⟨other, hother, hfound⟩ :=
    elementsAt_getElem? (list.start offset) none hentry
  cases hsegment.symm.trans hother
  have hshift := placeTokens_shift entry.raws segment.range.start 0
  rw [Nat.add_zero] at hshift
  rw [hshift] at hmem
  obtain ⟨inner, hinner, rfl⟩ := mem_map.mp hmem
  obtain ⟨place, hplace, hfirst, hlast⟩ :=
    (hvalid.entries entry (mem_of_getElem? hentry)).space inner hinner hspace
  have helement : entry.elementAt segment.range.start =
      some ⟨segment.range.start + place.1, segment.range.start + place.2⟩ := by
    rw [DeriveEntry.elementAt, Option.mem_def.mp hplace]
    rfl
  refine ⟨⟨segment.range.start + place.1, segment.range.start + place.2⟩,
    mem_flatMap.mpr ⟨_, mem_of_getElem? hfound, ?_⟩, ?_⟩
  · rw [helement]
    exact mem_singleton_self _
  · rw [ByteRange.contains_iff]
    dsimp only
    omega

theorem ne_comma_of_opening {kind : TokenKind} {delimiter : Delimiter}
    (h : Delimiter.opening kind = some delimiter) : kind ≠ .comma := by
  rintro rfl
  cases h

theorem isSpace_of_opening {kind : TokenKind} {delimiter : Delimiter}
    (h : Delimiter.opening kind = some delimiter) : kind.isSpace = false := by
  cases kind <;> first | rfl | cases h

/-- The tokens between the parentheses. -/
theorem ParenList.mem_body {list : ParenList}
    (h : (placeTokens offset list.raws)[index]? = some token) (hopening : list.pair.opening < index)
    (hclosing : index < list.pair.closing) :
    token ∈ placeTokens (offset + utf8Len (textOf list.before) + 1) list.body := by
  rw [← list.placeTokens_body]
  refine mem_iff_getElem?.mpr ⟨index - (list.pair.opening + 1), ?_⟩
  rw [getElem?_drop, Nat.add_sub_cancel' hopening, getElem?_take, if_pos hclosing, h]

/-- Other parentheses around all elements are around the list. -/
theorem DeriveList.interior_lt {q : DelimiterPair}
    (htokens : tokens = placeTokens offset list.parens.raws) (hvalid : list.Valid)
    (hasc : TokensAscend tokens)
    (hmatches : Matches SourceToken.mark tokens (pairs.map DelimiterPair.bracketPair))
    (hne : list.elements offset ≠ []) (hq : q ∈ pairs) (hqne : q ≠ list.parens.pair)
    (hall : ∀ e ∈ list.elements offset, (q.interior tokens).contains e = true) :
    (list.parens.pair.interior tokens).len < (q.interior tokens).len := by
  obtain ⟨e, he⟩ := exists_mem_of_ne_nil _ hne
  obtain ⟨-, -, -, hene⟩ :=
    exists_segment_of_mem (holdsElement_elementsAt none hvalid.entries) he
  have hinside := DeriveList.interior_contains hvalid he
  have hp : list.parens.pair ∈ pairs := ParenList.pair_mem hvalid.parens (htokens ▸ hmatches)
  rw [← htokens] at hinside
  have hqe := hall e he
  simp only [DelimiterPair.interior, ByteRange.contains_iff] at hinside hqe
  have hpmem : list.parens.pair.bracketPair ∈ pairs.map DelimiterPair.bracketPair :=
    mem_map_of_mem hp
  have hqmem : q.bracketPair ∈ pairs.map DelimiterPair.bracketPair := mem_map_of_mem hq
  have hpclose : list.parens.pair.closing < tokens.length := hmatches.last_lt hpmem
  have hqclose : q.closing < tokens.length := hmatches.last_lt hqmem
  have hporder : list.parens.pair.opening < list.parens.pair.closing := hmatches.first_lt_last hpmem
  have hqorder : q.opening < q.closing := hmatches.first_lt_last hqmem
  have hpopen := hasc.start_lt_stop (hporder.trans hpclose)
  have hqopen := hasc.start_lt_stop (hqorder.trans hqclose)
  have hpend := hasc.start_lt_stop hpclose
  have hqend := hasc.start_lt_stop hqclose
  rcases hmatches.eq_or hpmem hqmem with heq | ⟨hlt, hor⟩ | ⟨hlt, hor⟩
  · exact absurd (DelimiterPair.bracketPair_injective heq).symm hqne
  · simp only [DelimiterPair.bracketPair] at hlt hor
    rcases hor with houter | hbehind
    · have hfirst := hasc.stop_le_start houter (hporder.trans hpclose)
      have hlast := hasc.stop_le_start hlt hqclose
      have hmid := hasc.stop_le_start hporder hpclose
      simp only [DelimiterPair.interior, ByteRange.len]
      omega
    · have := hasc.stop_le_start hbehind (hqorder.trans hqclose)
      omega
  · simp only [DelimiterPair.bracketPair] at hlt hor
    rcases hor with hinner | hbefore
    · obtain ⟨x, hx, hopening⟩ := hmatches.opening hqmem
      have hx : tokens[q.opening]? = some x := hx
      have hkind := SourceToken.opening_of_mark hopening
      have hbody : x ∈ placeTokens (list.start offset) list.parens.body :=
        ParenList.mem_body (htokens ▸ hx) hinner (hqorder.trans hlt)
      obtain ⟨e, he, hcontains⟩ := DeriveList.exists_element hvalid hbody
        (ne_comma_of_opening hkind) (isSpace_of_opening hkind)
      have hqe := hall e he
      have hxne := hasc.nonempty x (mem_of_getElem? hx)
      simp only [DelimiterPair.interior, ByteRange.contains_iff, tokenRange_of_getElem? hx]
        at hqe hcontains
      omega
    · have := hasc.stop_le_start hbefore (hporder.trans hpclose)
      omega

theorem DeriveList.deriveList_pair (hvalid : list.Valid)
    (hasc : TokensAscend (placeTokens offset list.parens.raws))
    (hmatches : Matches SourceToken.mark (placeTokens offset list.parens.raws)
      (pairs.map DelimiterPair.bracketPair))
    (hne : list.elements offset ≠ []) :
    deriveList (placeTokens offset list.parens.raws) pairs (list.elements offset) =
      .ok list.parens.pair :=
  deriveList_eq (.of_map _ hmatches.nodup) (ParenList.pair_mem hvalid.parens hmatches) rfl
    (fun _ he => DeriveList.interior_contains hvalid he)
    fun _ hq hqne hall => DeriveList.interior_lt rfl hvalid hasc hmatches hne hq hqne hall

theorem DeriveList.layout_elements :
    (list.layout offset).map DeriveListEntryLayout.element = list.elements offset := by
  have hzip : ∀ (segments : List CommaListSegment) (found : List (Option ByteRange)),
      found.length ≤ segments.length →
      (layoutOf segments found).map DeriveListEntryLayout.element =
        found.flatMap Option.toList := by
    intro segments found hlength
    rw [layoutOf, map_flatMap]
    conv_rhs => rw [← map_snd_zip hlength, flatMap_map]
    congr 1
    funext entry
    rw [map_map]
    exact map_id _
  refine hzip _ _ ?_
  rw [DeriveList.length_segments, DeriveList.found, length_elementsAt]

/-- Where the tokens of an attribute are those of a list, the attribute has the layout of the
list. -/
theorem deriveAttributeLayout_list (hcuts : CutsRange tk source range list.parens.raws)
    (hvalid : list.Valid) (hsize : range.stop < u32Size)
    (hne : list.elements range.start ≠ []) :
    deriveAttributeLayout tk source range (list.elements range.start) =
      .ok (list.layout range.start) := by
  obtain ⟨pairs, htokens⟩ := hcuts.tokenizeBalancedRange hsize
  obtain ⟨hasc, hmatches⟩ := Tokenizer.tokenizeBalancedRange_ok htokens
  have hlist := DeriveList.deriveList_pair hvalid hasc hmatches hne
  have hsegments : list.segments range.start ≠ [] := by
    rw [← length_pos_iff, DeriveList.length_segments, ← length_map DeriveEntry.raws]
    exact length_pos_iff.mpr hvalid.parens.ne_nil
  have hlayout : deriveListLayout (placeTokens range.start list.parens.raws)
      (list.elements range.start) (list.segments range.start) = .ok (list.layout range.start) :=
    deriveListLayout_total segmentsAscend_segmentsOf (holdsElement_elementsAt none hvalid.entries)
    (DeriveList.finds hcuts hvalid) hsegments (DeriveList.count hvalid)
  unfold deriveAttributeLayout
  rw [DeriveList.elementsValid hcuts hvalid, htokens]
  dsimp only [bind, Except.bind]
  rw [if_neg (by simp), hlist]
  dsimp only
  rw [commaListSegments_list hvalid.parens]
  exact hlayout

end

end ItemDependencies
