import ItemDependencies.Source.DeriveKept
import ItemDependencies.Source.Utf8

/-!
# What is left of a derive attribute

The rewrite of an attribute leaves a list of the elements that are retained, in
their order and with their texts.
-/

namespace ItemDependencies

open Library Library.Brackets RawToken List

/-- What deletions leave of a derive attribute: a list of the elements that are kept. -/
structure DeriveAttributeLeft (tk : Tokenizer) (source : List Char) (attribute' : ByteRange)
    (elements keptElements deletions : List ByteRange) (output : List Char) : Prop where
  disjoint : deletions.Pairwise fun a b => a.stop ≤ b.start
  inside : ∃ tokens pairs pair, tk.tokenizeBalancedRange source attribute' = .ok (tokens, pairs) ∧
    deriveList tokens pairs elements = .ok pair ∧
    ∀ d ∈ deletions, d.start < d.stop ∧ (pair.interior tokens).contains d = true
  bytes : utf8Bytes output = remaining (removedBy deletions) 0 (utf8Bytes source)
  layout : ∃ layout, deriveAttributeLayout tk output (attribute'.left (removedBy deletions))
      (keptElements.map (ByteRange.left (removedBy deletions))) = .ok layout ∧
    layout.map DeriveListEntryLayout.element =
      keptElements.map (ByteRange.left (removedBy deletions))
  texts : ∀ e ∈ keptElements, ∃ text, textRange source e.start e.stop = some text ∧
    textRange output (e.left (removedBy deletions)).start (e.left (removedBy deletions)).stop =
      some text

section

variable {tk : Tokenizer} {source output text text' : List Char} {removed : Nat → Bool}
  {range : ByteRange} {offset start : Nat} {list : DeriveList} {keep : ByteRange → Bool}
  {deletions : List ByteRange} {parts : List (List RawToken × Bool)}

/-! ## Texts -/

theorem exists_split_of_isCharBoundary (h : isCharBoundary text offset = true) :
    ∃ front rest, text = front ++ rest ∧ utf8Len front = offset := by
  induction text generalizing offset with
  | nil =>
    cases offset with
    | zero => exact ⟨[], [], rfl, rfl⟩
    | succ offset => cases h
  | cons c text ih =>
    cases offset with
    | zero => exact ⟨[], c :: text, rfl, rfl⟩
    | succ offset =>
      rw [isCharBoundary, Bool.and_eq_true, decide_eq_true_eq] at h
      obtain ⟨front, rest, rfl, hfront⟩ := ih h.2
      refine ⟨c :: front, rest, rfl, ?_⟩
      rw [utf8Len_cons]
      omega

theorem textRange_of_validRange (h : validRange source range = true) :
    ∃ text, textRange source range.start range.stop = some text := by
  simp only [validRange, Bool.and_eq_true, decide_eq_true_eq] at h
  obtain ⟨⟨⟨hle, -⟩, hstart⟩, hstop⟩ := h
  obtain ⟨whole, rest, rfl, hwhole⟩ := exists_split_of_isCharBoundary hstop
  rw [isCharBoundary_of_le (by omega)] at hstart
  obtain ⟨front, text, rfl, hfront⟩ := exists_split_of_isCharBoundary hstart
  rw [utf8Len_append] at hwhole
  refine ⟨text, ?_⟩
  rw [append_assoc, ← hfront, ← hwhole, hfront, ← hfront]
  exact textRange_append front text rest

theorem utf8Bytes_textRange (h : textRange source range.start range.stop = some text) :
    utf8Bytes text = (utf8Bytes source).extract range.start range.stop := by
  obtain ⟨front, rest, rfl, hfront, hstop⟩ := textRange_eq_some h
  have hlen : range.stop - range.start = utf8Len text := by omega
  rw [extract_eq_take_drop, utf8Bytes_append, utf8Bytes_append, hlen, ← hfront,
    drop_left' length_utf8Bytes, take_left' length_utf8Bytes]

/-- A part of the text that nothing is removed from. -/
theorem textRange_left (houtput : utf8Bytes output = remaining removed 0 (utf8Bytes source))
    (htext : textRange source range.start range.stop = some text)
    (hvalid : validRange output (range.left removed) = true)
    (hstays : ∀ i, range.start ≤ i → i < range.stop → removed i = false) :
    textRange output (range.left removed).start (range.left removed).stop = some text := by
  obtain ⟨text', htext'⟩ := textRange_of_validRange hvalid
  obtain ⟨front, rest, hsource, hfront, hstop⟩ := textRange_eq_some htext
  have hbytes := utf8Bytes_textRange htext'
  have hle : range.stop ≤ (utf8Bytes source).length := by
    rw [length_utf8Bytes, hsource, utf8Len_append, utf8Len_append]
    omega
  have hlen : (utf8Bytes text).length = range.stop - range.start := by
    rw [length_utf8Bytes]
    omega
  rw [houtput, ByteRange.left, ← remaining_extract (by omega) hle, ← utf8Bytes_textRange htext,
    remaining_eq_self fun i hi => hstays _ (by omega) (by omega)] at hbytes
  rw [htext', utf8Bytes_injective hbytes]

/-! ## The shortened attribute -/

theorem removedBy_of_outside {i : Nat} (h : ∀ d ∈ deletions, i < d.start ∨ d.stop ≤ i) :
    removedBy deletions i = false := by
  refine any_eq_false.mpr fun d hd => ?_
  have := h d hd
  simp only [Bool.and_eq_true, decide_eq_true_eq]
  omega

/-- The tokens that are left are those of the text that is left. -/
theorem DropsOthers.cuts (h : DropsOthers list keep range.start deletions parts)
    (hsep : tk.Separates) (hcuts : CutsRange tk source range list.parens.raws) :
    ∃ output, utf8Bytes output = remaining (removedBy deletions) 0 (utf8Bytes source) ∧
      CutsRange tk output (range.left (removedBy deletions))
        (list.keep (list.flags keep range.start)).parens.raws := by
  obtain ⟨front, rest, rfl, hfront, hstop⟩ := textRange_eq_some hcuts.text
  have hone : utf8Len openToken.text = 1 := rfl
  have hlen : utf8Len (textOf list.parens.raws) = utf8Len (textOf list.before) + 1 +
      utf8Len (textOf list.parens.body) + utf8Len (textOf (closeToken :: list.behind)) := by
    rw [ParenList.raws, textOf_append, textOf_cons, textOf_append, utf8Len_append, utf8Len_append,
      utf8Len_append, hone]
    simp only [DeriveList.parens]
    omega
  have hinside : ∀ d ∈ deletions, range.start ≤ d.start ∧ d.stop ≤ range.stop := by
    intro d hd
    have := h.inside d hd
    simp only [DeriveList.start] at this
    omega
  have hbefore : ∀ i, 0 ≤ i → i < 0 + range.start → removedBy deletions i = false := fun i _ hi =>
    removedBy_of_outside fun d hd => .inl (by have := hinside d hd; omega)
  have hbehind : ∀ i, range.stop ≤ i → removedBy deletions i = false := fun i hi =>
    removedBy_of_outside fun d hd => .inr (by have := hinside d hd; omega)
  have hstart : (kept (removedBy deletions) range.start).length = range.start := by
    have := length_kept_add hbefore
    rw [Nat.zero_add] at this
    rw [this]
    exact Nat.zero_add _
  have hend : (kept (removedBy deletions) range.stop).length = range.start +
      utf8Len (textOf (list.keep (list.flags keep range.start)).parens.raws) := by
    have := h.left.length_kept
    rwa [← h.raws, ← h.keeps, hstop, hstart] at this
  refine ⟨front ++ (textOf (list.keep (list.flags keep range.start)).parens.raws ++ rest), ?_,
    ?_, ?_, h.valid.parens.reads⟩
  · have hmiddle := h.left.remaining
    rw [← h.raws, ← h.keeps] at hmiddle
    rw [utf8Bytes_append, utf8Bytes_append, utf8Bytes_append, utf8Bytes_append, remaining_append,
      remaining_append, remaining_eq_self (l := utf8Bytes front), length_utf8Bytes, Nat.zero_add,
      hfront, hmiddle, remaining_eq_self (l := utf8Bytes rest)]
    · intro i _
      rw [length_utf8Bytes, hstop]
      exact hbehind _ (Nat.le_add_right _ _)
    · intro i hi
      rw [length_utf8Bytes, hfront] at hi
      exact hbefore _ (Nat.zero_le _) (by omega)
  · have hne := h.valid.parens.ne_nil
    rw [DeriveList.parens_keep] at hne ⊢
    refine ParenList.keep_lexes hsep ?_ hne hcuts.lexes
    simp [DeriveList.flags, DeriveList.found, DeriveList.parens]
  · rw [ByteRange.left]
    dsimp only
    rw [hstart, hend, ← hfront]
    exact textRange_append _ _ _

/-- The deletions of the dropped entries leave an attribute of the others. -/
theorem DropsOthers.attributeLeft (h : DropsOthers list keep range.start deletions parts)
    (hsep : tk.Separates) (hcuts : CutsRange tk source range list.parens.raws)
    (hvalid : list.Valid) (hsize : range.stop < u32Size)
    (hne : (list.elements range.start).filter keep ≠ []) :
    ∃ output, DeriveAttributeLeft tk source range (list.elements range.start)
      ((list.elements range.start).filter keep) deletions output := by
  obtain ⟨output, hbytes, hcutsLeft⟩ := h.cuts hsep hcuts
  obtain ⟨pairs, htokens⟩ := hcuts.tokenizeBalancedRange hsize
  obtain ⟨hasc, hmatches⟩ := Tokenizer.tokenizeBalancedRange_ok htokens
  have helements : (list.keep (list.flags keep range.start)).elements
      (range.left (removedBy deletions)).start =
      ((list.elements range.start).filter keep).map (ByteRange.left (removedBy deletions)) :=
    h.elements
  have hsizeLeft : (range.left (removedBy deletions)).stop < u32Size := by
    refine lt_of_le_of_lt ?_ hsize
    exact (length_filter_le _ _).trans length_range.le
  have hlayout := deriveAttributeLayout_list hcutsLeft h.valid hsizeLeft
    (by rwa [helements, ne_eq, map_eq_nil_iff])
  rw [helements] at hlayout
  have hall : list.elements range.start ≠ [] := fun hnil => hne (by rw [hnil]; rfl)
  refine ⟨output,
    h.ordered, ⟨_, _, _, htokens, DeriveList.deriveList_pair hvalid hasc hmatches hall,
    fun d hd => ?_⟩, hbytes, ⟨_, hlayout, ?_⟩, fun e he => ?_⟩
  · obtain ⟨hlt, hfirst, hlast⟩ := h.inside d hd
    refine ⟨hlt, ?_⟩
    rw [DeriveList.interior_eq, ByteRange.contains_iff]
    exact ⟨hfirst, hlast⟩
  · rw [← helements]
    exact DeriveList.layout_elements
  · obtain ⟨-, hvalidElements, -⟩ := elementsValid_iff.mp (DeriveList.elementsValid hcuts hvalid)
    obtain ⟨-, hvalidLeft, -⟩ := elementsValid_iff.mp (DeriveList.elementsValid hcutsLeft h.valid)
    rw [helements] at hvalidLeft
    obtain ⟨hmem, hkeep⟩ := mem_filter.mp he
    obtain ⟨text, htext⟩ := textRange_of_validRange (hvalidElements e hmem).2.2
    refine ⟨text, htext, textRange_left hbytes htext ?_ (h.untouched e hmem hkeep)⟩
    exact (hvalidLeft _ (mem_map_of_mem he)).2.2

/-! ## The rewrite -/

/-- The element of an entry is retained if its unit is. -/
theorem entryRetained_eq {elements : List WrittenUnit} {retained : Finset SourceUnitId}
    (hnodup : (elements.map WrittenUnit.fullRange).Nodup) {entry : DeriveListEntryLayout}
    (hentry : entry.element ∈ elements.map WrittenUnit.fullRange) :
    entryRetained elements retained entry =
      .ok (decide (∃ u ∈ elements, u.id ∈ retained ∧ u.fullRange = entry.element)) := by
  obtain ⟨unit, hunit, hrange⟩ := mem_map.mp hentry
  have hsome : (elements.reverse.find? fun unit => unit.fullRange = entry.element).isSome = true :=
    find?_isSome.mpr ⟨unit, mem_reverse.mpr hunit, decide_eq_true hrange⟩
  obtain ⟨found, hfound⟩ := Option.isSome_iff_exists.mp hsome
  have hmem : found ∈ elements := mem_reverse.mp (mem_of_find?_eq_some hfound)
  have hfoundRange : found.fullRange = entry.element := by
    simpa using find?_some hfound
  have hsame : (∃ u ∈ elements, u.id ∈ retained ∧ u.fullRange = entry.element) ↔
      found.id ∈ retained := by
    constructor
    · rintro ⟨u, hu, hretained, hu'⟩
      rwa [← inj_on_of_nodup_map hnodup hu hmem (hu'.trans hfoundRange.symm)]
    · exact fun hretained => ⟨found, hmem, hretained, hfoundRange⟩
  unfold entryRetained
  rw [hfound, decide_eq_decide.mpr hsame]
  rfl

/-- If all entries are kept, nothing is deleted. -/
theorem deriveDeletions_kept {entries : List (DeriveListEntryLayout × Bool)}
    (h : ∀ entry ∈ entries, entry.2 = true) : deriveDeletions none entries = .ok [] := by
  induction entries with
  | nil => rfl
  | cons entry entries ih =>
    obtain ⟨entry, flag⟩ := entry
    obtain ⟨hentry, hothers⟩ := forall_mem_cons.mp h
    obtain rfl : flag = true := hentry
    exact ih hothers

theorem rewriteDeriveAttribute_eq {inventory : SourceInventory}
    {facts : DeriveAttributeSourceFacts} {retained : Finset SourceUnitId}
    {attribute' : WrittenUnit} {elements : List WrittenUnit} {layout : List DeriveListEntryLayout}
    (hattribute : unitById inventory.units facts.attr = .ok attribute')
    (helements : facts.elements.mapM (unitById inventory.units) = .ok elements)
    (hlayout : deriveAttributeLayout tk inventory.original attribute'.fullRange
      (elements.map WrittenUnit.fullRange) = .ok layout)
    (hretained : ∃ element ∈ elements, element.id ∈ retained)
    (hentries : ∀ entry ∈ layout, entryRetained elements retained entry = .ok (keep entry.element))
    (hkept : ∀ element ∈ elements, element.id ∈ retained → keep element.fullRange = true)
    (hmem : ∀ entry ∈ layout, entry.element ∈ elements.map WrittenUnit.fullRange)
    (h : deriveDeletions none (layout.map fun entry => (entry, keep entry.element)) =
      .ok deletions) :
    rewriteDeriveAttribute tk inventory facts retained = .ok deletions := by
  have hflags : layout.mapM (entryRetained elements retained) =
      .ok (layout.map fun entry => keep entry.element) := by
    refine mapM_total ?_
    rw [forall₂_map_right_iff, forall₂_same]
    exact hentries
  have hzip : layout.zip (layout.map fun entry => keep entry.element) =
      layout.map fun entry => (entry, keep entry.element) := map_prod_left_eq_zip.symm
  unfold rewriteDeriveAttribute
  rw [hattribute]
  dsimp only [bind, Except.bind]
  rw [helements]
  dsimp only
  by_cases hall : elements.countP (fun element => decide (element.id ∈ retained)) = elements.length
  · rw [if_pos hall]
    rw [countP_eq_length] at hall
    rw [deriveDeletions_kept] at h
    · cases h
      rfl
    · intro entry hentry
      obtain ⟨entry, hlayoutEntry, rfl⟩ := mem_map.mp hentry
      obtain ⟨element, helement, hrange⟩ := mem_map.mp (hmem entry hlayoutEntry)
      dsimp only
      rw [← hrange]
      exact hkept element helement (of_decide_eq_true (hall element helement))
  · rw [if_neg hall, if_neg, hlayout]
    · dsimp only
      rw [hflags]
      dsimp only
      rw [hzip, h]
    · refine Nat.ne_of_gt (countP_pos_iff.mpr ?_)
      obtain ⟨element, helement, hid⟩ := hretained
      exact ⟨element, helement, decide_eq_true hid⟩

/-- Where the elements of an attribute have a layout and some of them are retained, the attribute
is rewritten to one of these. -/
theorem rewriteDeriveAttribute_left {inventory : SourceInventory}
    {facts : DeriveAttributeSourceFacts} {retained : Finset SourceUnitId}
    {attribute' : WrittenUnit} {elements : List WrittenUnit} {layout : List DeriveListEntryLayout}
    (hsep : tk.Separates) (hattribute : unitById inventory.units facts.attr = .ok attribute')
    (helements : facts.elements.mapM (unitById inventory.units) = .ok elements)
    (hlayout : deriveAttributeLayout tk inventory.original attribute'.fullRange
      (elements.map WrittenUnit.fullRange) = .ok layout)
    (hretained : ∃ element ∈ elements, element.id ∈ retained) :
    ∃ deletions output, rewriteDeriveAttribute tk inventory facts retained = .ok deletions ∧
      DeriveAttributeLeft tk inventory.original attribute'.fullRange
        (elements.map WrittenUnit.fullRange)
        ((elements.filter fun element => element.id ∈ retained).map WrittenUnit.fullRange)
        deletions output := by
  obtain ⟨list, hcuts, hvalid, hlistElements, rfl, hsize⟩ := deriveAttributeLayout_ok hsep hlayout
  obtain ⟨keep, hkeep⟩ : ∃ keep : ByteRange → Bool, ∀ range, keep range =
      decide (∃ u ∈ elements, u.id ∈ retained ∧ u.fullRange = range) := ⟨_, fun _ => rfl⟩
  have hnodup : (elements.map WrittenUnit.fullRange).Nodup := by
    rw [← hlistElements]
    exact (pairwise_found segmentsAscend_segmentsOf
      (holdsElement_elementsAt none hvalid.entries)).imp fun h => ne_of_lt h.1
  have hkeepUnit : ∀ element ∈ elements,
      keep element.fullRange = decide (element.id ∈ retained) := by
    intro element helement
    rw [hkeep, decide_eq_decide]
    constructor
    · rintro ⟨u, hu, hid, hrange⟩
      rwa [← inj_on_of_nodup_map hnodup hu helement hrange]
    · exact fun hid => ⟨element, helement, hid, rfl⟩
  have hfilter : (list.elements attribute'.fullRange.start).filter keep =
      (elements.filter fun element => element.id ∈ retained).map WrittenUnit.fullRange := by
    rw [hlistElements, filter_map]
    exact congrArg _ (filter_congr hkeepUnit)
  have hsome : ∃ e ∈ list.elements attribute'.fullRange.start, keep e = true := by
    obtain ⟨element, helement, hid⟩ := hretained
    refine ⟨element.fullRange, ?_, ?_⟩
    · rw [hlistElements]
      exact mem_map_of_mem helement
    · rw [hkeepUnit element helement, decide_eq_true hid]
  have hmem : ∀ entry ∈ list.layout attribute'.fullRange.start,
      entry.element ∈ elements.map WrittenUnit.fullRange := by
    intro entry hentry
    rw [← hlistElements, ← DeriveList.layout_elements]
    exact mem_map_of_mem hentry
  obtain ⟨deletions, parts, hdeletions, hdrops⟩ := DeriveList.exists_dropsOthers hvalid hsome
  have hne : (list.elements attribute'.fullRange.start).filter keep ≠ [] := by
    obtain ⟨e, he, hkept⟩ := hsome
    exact ne_nil_of_mem (mem_filter.mpr ⟨he, hkept⟩)
  obtain ⟨output, hleft⟩ := hdrops.attributeLeft hsep hcuts hvalid hsize hne
  rw [hfilter, hlistElements] at hleft
  refine ⟨deletions, output, ?_, hleft⟩
  refine rewriteDeriveAttribute_eq hattribute helements hlayout hretained (fun entry hentry => ?_)
    (fun element helement hid => ?_) hmem hdeletions
  · rw [hkeep, entryRetained_eq hnodup (hmem entry hentry)]
  · rw [hkeepUnit element helement, decide_eq_true hid]

end

/-- A lexer whose tokens are single characters, parentheses among them. -/
def parenTokenizer : Tokenizer where
  next
    | [] => none
    | '(' :: _ => some ⟨.openParen, 1⟩
    | ')' :: _ => some ⟨.closeParen, 1⟩
    | ',' :: _ => some ⟨.comma, 1⟩
    | ' ' :: _ => some ⟨.whitespace, 1⟩
    | c :: _ => some ⟨.other 0, c.utf8Size⟩
  glue _ _ := none
  next_pos text token h := by
    split at h
    · cases h
    · cases h
      exact Nat.one_pos
    · cases h
      exact Nat.one_pos
    · cases h
      exact Nat.one_pos
    · cases h
      exact Nat.one_pos
    · cases h
      exact Char.utf8Size_pos _

theorem separates_parenTokenizer : parenTokenizer.Separates where
  single entry hentry rest := by
    simp only [listPunctuation, mem_cons, not_mem_nil, or_false] at hentry
    rcases hentry with rfl | rfl | rfl <;> rfl
  starts entry hentry text token hnext hkind := by
    simp only [listPunctuation, mem_cons, not_mem_nil, or_false] at hentry
    unfold parenTokenizer at hnext
    dsimp only at hnext
    split at hnext <;> cases hnext <;> rcases hentry with rfl | rfl | rfl <;> cases hkind <;> rfl
  before entry _ entry' _ text rest rest' token hnext hlen := by
    cases text with
    | nil =>
      have := parenTokenizer.next_pos _ _ hnext
      exact absurd (this.trans_le hlen) (Nat.lt_irrefl _)
    | cons c text =>
      rw [cons_append] at hnext ⊢
      unfold parenTokenizer at hnext ⊢
      dsimp only at hnext ⊢
      split at hnext <;> simp_all

/-- An attribute with three elements. -/
def threeDerives : SourceInventory where
  original := ['d', '(', ' ', 'a', ',', ' ', 'b', ' ', ',', 'c', ')']
  units := [⟨⟨0⟩, .crateRoot, ⟨0, 11⟩, none, .active, ⟨0⟩, 0⟩,
    ⟨⟨1⟩, .macroInvocation, ⟨0, 11⟩, some ⟨0⟩, .active, ⟨1⟩, 0⟩,
    ⟨⟨2⟩, .macroInvocation, ⟨3, 4⟩, some ⟨1⟩, .active, ⟨2⟩, 0⟩,
    ⟨⟨3⟩, .macroInvocation, ⟨6, 7⟩, some ⟨1⟩, .active, ⟨3⟩, 0⟩,
    ⟨⟨4⟩, .macroInvocation, ⟨9, 10⟩, some ⟨1⟩, .active, ⟨4⟩, 0⟩]
  pieces := []
  deriveTargets := []
  macroRules := []
  macroTemplates := []
  macroCaptureSlots := []
  macroRepetitions := []
  ownerlessAttributeInvocations := []

def threeDerivesFacts : DeriveAttributeSourceFacts := ⟨⟨1⟩, [⟨2⟩, ⟨3⟩, ⟨4⟩], true⟩

/-- The second element is retained: a comma goes with the one before it, another with the one
behind it. -/
theorem rewriteDeriveAttribute_left_second : ∃ output,
    rewriteDeriveAttribute parenTokenizer threeDerives threeDerivesFacts {⟨3⟩} =
      .ok [⟨2, 5⟩, ⟨8, 10⟩] ∧
    DeriveAttributeLeft parenTokenizer threeDerives.original ⟨0, 11⟩ [⟨3, 4⟩, ⟨6, 7⟩, ⟨9, 10⟩]
      [⟨6, 7⟩] [⟨2, 5⟩, ⟨8, 10⟩] output := by
  have hattribute : unitById threeDerives.units threeDerivesFacts.attr =
      .ok ⟨⟨1⟩, .macroInvocation, ⟨0, 11⟩, some ⟨0⟩, .active, ⟨1⟩, 0⟩ := rfl
  have helements : threeDerivesFacts.elements.mapM (unitById threeDerives.units) =
      .ok [⟨⟨2⟩, .macroInvocation, ⟨3, 4⟩, some ⟨1⟩, .active, ⟨2⟩, 0⟩,
        ⟨⟨3⟩, .macroInvocation, ⟨6, 7⟩, some ⟨1⟩, .active, ⟨3⟩, 0⟩,
        ⟨⟨4⟩, .macroInvocation, ⟨9, 10⟩, some ⟨1⟩, .active, ⟨4⟩, 0⟩] := rfl
  have hlayout : deriveAttributeLayout parenTokenizer threeDerives.original ⟨0, 11⟩
      [⟨3, 4⟩, ⟨6, 7⟩, ⟨9, 10⟩] =
      .ok [⟨⟨3, 4⟩, ⟨2, 4⟩, none, some ⟨4, 5⟩⟩, ⟨⟨6, 7⟩, ⟨5, 8⟩, some ⟨4, 5⟩, some ⟨8, 9⟩⟩,
        ⟨⟨9, 10⟩, ⟨9, 10⟩, some ⟨8, 9⟩, none⟩] := rfl
  have hrewrite : rewriteDeriveAttribute parenTokenizer threeDerives threeDerivesFacts {⟨3⟩} =
      .ok [⟨2, 5⟩, ⟨8, 10⟩] := rfl
  have hretained : ∃ element ∈ ([⟨⟨2⟩, .macroInvocation, ⟨3, 4⟩, some ⟨1⟩, .active, ⟨2⟩, 0⟩,
      ⟨⟨3⟩, .macroInvocation, ⟨6, 7⟩, some ⟨1⟩, .active, ⟨3⟩, 0⟩,
      ⟨⟨4⟩, .macroInvocation, ⟨9, 10⟩, some ⟨1⟩, .active, ⟨4⟩, 0⟩] : List WrittenUnit),
      element.id ∈ ({⟨3⟩} : Finset SourceUnitId) := by decide
  obtain ⟨deletions, output, hdeletions, hleft⟩ := rewriteDeriveAttribute_left
    separates_parenTokenizer hattribute helements hlayout hretained
  cases hrewrite.symm.trans hdeletions
  exact ⟨output, rfl, hleft⟩

end ItemDependencies
