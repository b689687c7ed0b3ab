import ItemDependencies.Source.ListGaps

/-!
# What is left of the lists of a use item

The rewrite of a list deletes the segments that hold leaves but none which is
kept, and rewrites the lists inside the others.  By induction on the nesting,
every list of the item that is left is cut at its own segments only.
-/

namespace ItemDependencies

open Library Library.Brackets List

section Groups

variable {tokens : List SourceToken} {pairs : List DelimiterPair} {pair child q : DelimiterPair}
  {leaves : List WrittenUnit} {retained : List SourceUnitId} {deletions : List ByteRange}
  {commas : List Nat} {a b k : Nat}

/-! ## One list -/

/-- The segment in a gap survives. -/
def gapSurvives (tokens : List SourceToken) (leaves : List WrittenUnit)
    (retained : List SourceUnitId) (gap : Nat × Nat) : Bool :=
  (leavesIn leaves (between tokens gap.1 gap.2)).any (isRetained retained) ||
    (leavesIn leaves (between tokens gap.1 gap.2)).isEmpty

theorem gaps_eq_append (first : Nat) (marks : List Nat) (last : Nat) :
    ∃ init mark, gaps first marks last = init ++ [(mark, last)] := by
  induction marks generalizing first with
  | nil => exact ⟨[], first, rfl⟩
  | cons mark marks ih =>
    obtain ⟨init, mark', heq⟩ := ih mark
    exact ⟨(first, mark) :: init, mark', by rw [gaps_cons, heq]; rfl⟩

/-- What is left of a list whose deleted tokens are those of segments, or lie inside them. -/
theorem groupLeft_of_segmentsCut (hasc : TokensAscend tokens) (h : DelimitersMatch tokens pairs)
    (hpair : pair ∈ pairs) (hcommas : ListCommas tokens pairs pair commas)
    (hcuts : Cuts tokens pairs deletions)
    (hcut : SegmentsCut tokens deletions (gapSurvives tokens leaves retained)
      (gaps pair.opening commas pair.closing) pair.closing)
    (hblank : ∀ gap ∈ gaps pair.opening commas pair.closing,
      gapSurvives tokens leaves retained gap = true →
      NotBlank (tokensIn tokens (between tokens gap.1 gap.2)) →
      NotBlank (leftBetween tokens deletions gap.1 gap.2)) :
    GroupLeft tokens leaves retained (leftTokens tokens deletions) pair
      ((gaps pair.opening commas pair.closing).map (segmentBetween tokens pair)) := by
  have hlen := h.closing_lt_length hpair
  have hlt := h.opening_lt_closing hpair
  have hgaps : ∀ gap ∈ gaps pair.opening commas pair.closing,
      IsGap tokens pairs pair gap.1 gap.2 := fun gap hgap => hcommas.isGap h hpair hgap
  have hinterior : tokensIn (leftTokens tokens deletions) (pair.interior tokens) =
      leftBetween tokens deletions pair.opening pair.closing := tokensIn_leftTokens hasc hlt hlen
  have hsegments :
      (((gaps pair.opening commas pair.closing).map (segmentBetween tokens pair)).filter
      (CommaListSegment.survives leaves retained)).map (fun segment =>
        tokensIn (leftTokens tokens deletions) segment.range) =
      ((gaps pair.opening commas pair.closing).filter
        (gapSurvives tokens leaves retained)).map fun gap =>
          leftBetween tokens deletions gap.1 gap.2 := by
    rw [filter_map, map_map]
    refine map_congr_left fun gap hgap => ?_
    have hgap := hgaps gap (mem_of_mem_filter hgap)
    exact tokensIn_leftTokens hasc hgap.lt hgap.length
  have hpieces := commaPieces_leftBetween h hcuts hcommas.sorted_cons (hcommas.lt_closing h hpair)
    hlen (fun c hc => ((hcommas.mem_iff c).mp hc).2.2.1) hgaps hcut
  constructor
  · simp only [hinterior, hsegments]
    exact hpieces.imp_right And.left
  · intro hnotblank piece hpiece
    rw [hinterior] at hpiece
    obtain ⟨init, mark, heq⟩ := gaps_eq_append pair.opening commas pair.closing
    rw [heq, map_append, map_singleton, dropLast_concat] at hnotblank
    -- the piece is left of a segment that is not the last one
    have hinit : piece ∈ (init.filter (gapSurvives tokens leaves retained)).map fun gap =>
        leftBetween tokens deletions gap.1 gap.2 := by
      simp only [heq, filter_append, map_append] at hpieces
      rcases hpieces with hpieces | ⟨hpieces, hlast⟩
      · rw [hpieces] at hpiece
        cases hsurvives : gapSurvives tokens leaves retained (mark, pair.closing) with
        | true =>
          rw [filter_cons_of_pos hsurvives, filter_nil, map_singleton, dropLast_concat] at hpiece
          exact hpiece
        | false =>
          rw [filter_cons_of_neg (by simp [hsurvives]), filter_nil, map_nil, append_nil] at hpiece
          exact dropLast_subset _ hpiece
      · have hsurvives := hlast (mark, pair.closing) (by simp) rfl
        rw [hpieces, dropLast_concat, filter_cons_of_neg (by simp [hsurvives]),
          filter_nil, map_nil, append_nil] at hpiece
        exact hpiece
    obtain ⟨gap, hgap, rfl⟩ := mem_map.mp hinit
    obtain ⟨hgap, hsurvives⟩ := mem_filter.mp hgap
    exact hblank gap (by simp [heq, hgap]) hsurvives
      (hnotblank (segmentBetween tokens pair gap) (mem_map_of_mem hgap))

/-- The deleted tokens of a list are those of segments that do not survive, or lie inside segments
that do. -/
structure ListCut (tokens : List SourceToken) (leaves : List WrittenUnit)
    (retained : List SourceUnitId) (deletions : List ByteRange) (pair : DelimiterPair)
    (commas : List Nat) : Prop where
  segments : SegmentsCut tokens deletions (gapSurvives tokens leaves retained)
    (gaps pair.opening commas pair.closing) pair.closing
  notBlank : ∀ gap ∈ gaps pair.opening commas pair.closing,
    gapSurvives tokens leaves retained gap = true → ∀ k x, gap.1 < k → k < gap.2 →
      tokens[k]? = some x → isTrivia x.kind = false →
      ∃ j y, gap.1 < j ∧ j < gap.2 ∧ tokens[j]? = some y ∧ isTrivia y.kind = false ∧
        isDeleted deletions y.range = false

theorem ListCut.groupLeft (hcut : ListCut tokens leaves retained deletions pair commas)
    (hasc : TokensAscend tokens) (h : DelimitersMatch tokens pairs) (hpair : pair ∈ pairs)
    (hcommas : ListCommas tokens pairs pair commas) (hcuts : Cuts tokens pairs deletions) :
    GroupLeft tokens leaves retained (leftTokens tokens deletions) pair
      ((gaps pair.opening commas pair.closing).map (segmentBetween tokens pair)) := by
  refine groupLeft_of_segmentsCut hasc h hpair hcommas hcuts hcut.segments
    fun gap hgap hsurvives => ?_
  have hisgap := hcommas.isGap h hpair hgap
  have hlen := hisgap.length
  have hget : ∀ {k : Nat} {x : SourceToken}, x ∈ (tokens.take gap.2).drop (gap.1 + 1) ↔
      ∃ k, gap.1 < k ∧ k < gap.2 ∧ tokens[k]? = some x := by
    intro k x
    rw [mem_iff_getElem?]
    simp only [getElem?_drop, getElem?_take, Option.ite_none_right_eq_some]
    constructor
    · rintro ⟨j, hj, hx⟩
      exact ⟨gap.1 + 1 + j, by omega, hj, hx⟩
    · rintro ⟨k, hk, hk', hx⟩
      obtain ⟨j, rfl⟩ := Nat.exists_eq_add_of_le hk
      exact ⟨j, hk', hx⟩
  rw [hasc.tokensIn_between hisgap.lt hlen]
  rintro ⟨x, hx, htrivia⟩
  obtain ⟨k, hk, hk', hx⟩ := (hget (k := 0)).mp hx
  obtain ⟨j, y, hj, hj', hy, htrivia, halive⟩ :=
    hcut.notBlank gap hgap hsurvives k x hk hk' hx htrivia
  exact ⟨y, mem_filter.mpr ⟨(hget (k := 0)).mpr ⟨j, hj, hj', hy⟩, by simp [halive]⟩, htrivia⟩

/-- Only the deletions between its delimiters matter to a list. -/
theorem ListCut.congr {deletions' : List ByteRange}
    (hcut : ListCut tokens leaves retained deletions pair commas)
    (h : DelimitersMatch tokens pairs) (hpair : pair ∈ pairs)
    (hcommas : ListCommas tokens pairs pair commas)
    (heq : ∀ k, pair.opening < k → k < pair.closing →
      isDeleted deletions' (tokenRange tokens k) = isDeleted deletions (tokenRange tokens k)) :
    ListCut tokens leaves retained deletions' pair commas := by
  refine ⟨⟨fun gap hgap hsurvives k hk hk' => ?_, fun gap hgap hne => ?_⟩,
    fun gap hgap hsurvives k x hk hk' hx htrivia => ?_⟩
  · have hisgap := hcommas.isGap h hpair hgap
    have := hisgap.opening_le
    have := hisgap.le_closing
    rw [heq k (by omega) (by omega)]
    exact hcut.segments.gone gap hgap hsurvives k hk hk'
  · have hisgap := hcommas.isGap h hpair hgap
    have := hisgap.opening_le
    have := hisgap.le_closing
    have := hisgap.lt
    rw [heq gap.2 (by omega) (by omega)]
    exact hcut.segments.comma gap hgap hne
  · obtain ⟨j, y, hj, hj', hy, htrivia, halive⟩ :=
      hcut.notBlank gap hgap hsurvives k x hk hk' hx htrivia
    have hisgap := hcommas.isGap h hpair hgap
    have := hisgap.opening_le
    have := hisgap.le_closing
    refine ⟨j, y, hj, hj', hy, htrivia, ?_⟩
    rw [← tokenRange_of_getElem? hy] at halive ⊢
    rw [heq j (by omega) (by omega), halive]

theorem ListCommas.mem_of_gap (hcommas : ListCommas tokens pairs pair commas)
    (h : DelimitersMatch tokens pairs) (hpair : pair ∈ pairs) {gap : Nat × Nat}
    (hgap : gap ∈ gaps pair.opening commas pair.closing) (hne : gap.2 ≠ pair.closing) :
    gap.2 ∈ commas := by
  obtain ⟨-, -, hb, -⟩ := mem_gaps hcommas.sorted_cons (hcommas.lt_closing h hpair) hgap
  exact hb.resolve_left hne

theorem SourceToken.not_trivia_of_opening {token : SourceToken} {delimiter : Delimiter}
    (h : token.mark = .opening delimiter) : isTrivia token.kind = false := by
  have hopening := opening_of_mark h
  cases hkind : token.kind <;> rw [hkind] at hopening <;> first | rfl | cases hopening

/-- Two pairs of which neither lies in the other are apart. -/
theorem inside_or_apart (h : DelimitersMatch tokens pairs) (hq : q ∈ pairs)
    (hchild : child ∈ pairs) :
    (child.opening ≤ q.opening ∧ q.closing ≤ child.closing) ∨
      (q.opening < child.opening ∧ child.closing < q.closing) ∨
      child.closing < q.opening ∨ q.closing < child.opening := by
  have := h.opening_lt_closing hq
  have := h.opening_lt_closing hchild
  rcases h.eq_or hchild hq with rfl | hor | hor <;> omega

/-- A pair inside another lies in a gap of it as soon as it has a token of the gap. -/
theorem IsGap.contains_pair (hgap : IsGap tokens pairs pair a b) (h : DelimitersMatch tokens pairs)
    (hchild : child ∈ pairs) (hinside : pair.opening < child.opening)
    (hinside' : child.closing < pair.closing) (hb : child.opening < b) (ha : a < child.closing) :
    a < child.opening ∧ child.closing < b := by
  have hlt := h.opening_lt_closing hchild
  have hne : child ≠ pair := by
    rintro rfl
    exact Nat.lt_irrefl _ hinside
  have hlevel := hgap.level child hchild hinside
  have hiff := hgap.pair_iff child hchild
  omega

/-- A list without deletions keeps all its segments. -/
theorem listCut_of_none (h : DelimitersMatch tokens pairs) (hq : q ∈ pairs)
    (hcommas : ListCommas tokens pairs q commas)
    (hnone : ∀ k, q.opening < k → k < q.closing → isDeleted deletions (tokenRange tokens k) = false)
    (hsurvives : ∀ gap ∈ gaps q.opening commas q.closing,
      gapSurvives tokens leaves retained gap = true) :
    ListCut tokens leaves retained deletions q commas := by
  refine ⟨⟨fun gap hgap hdead => ?_, fun gap hgap hne => ?_⟩,
    fun gap hgap _ k x hk hk' hx htrivia => ⟨k, x, hk, hk', hx, htrivia, ?_⟩⟩
  · rw [hsurvives gap hgap] at hdead
    cases hdead
  · obtain ⟨hopening, hclosing, -, -⟩ :=
      (hcommas.mem_iff _).mp (hcommas.mem_of_gap h hq hgap hne)
    rw [hnone _ hopening hclosing, hsurvives gap hgap]
    refine ⟨fun hgone => absurd hgone (by simp), ?_⟩
    rintro (hdead | ⟨hnext, hdead⟩)
    · cases hdead
    · rw [hsurvives _ hnext] at hdead
      cases hdead
  · have hisgap := hcommas.isGap h hq hgap
    have := hisgap.opening_le
    have := hisgap.le_closing
    rw [← tokenRange_of_getElem? hx]
    exact hnone k (by omega) (by omega)

/-- A list around the list that is rewritten, or apart from it, keeps all its segments. -/
theorem listCut_outside (h : DelimitersMatch tokens pairs) (hq : q ∈ pairs) (hchild : child ∈ pairs)
    (hcommas : ListCommas tokens pairs q commas)
    (hout : ¬(child.opening ≤ q.opening ∧ q.closing ≤ child.closing))
    (hcut : ∀ d ∈ deletions, ∃ x y, Cut tokens pairs d x y ∧ child.opening < x ∧ y ≤ child.closing)
    (hsurvives : ∀ gap ∈ gaps q.opening commas q.closing,
      gapSurvives tokens leaves retained gap = true) :
    ListCut tokens leaves retained deletions q commas := by
  have hdeleted : ∀ k < tokens.length, isDeleted deletions (tokenRange tokens k) = true →
      child.opening < k ∧ k < child.closing := by
    intro k hk hdeleted
    obtain ⟨d, hd, hcontains⟩ := isDeleted_iff.mp hdeleted
    obtain ⟨x, y, hxy, hx, hy⟩ := hcut d hd
    have := (hxy.contains_iff k hk).mp hcontains
    omega
  have hapart := (inside_or_apart h hq hchild).resolve_left hout
  have hlen := h.closing_lt_length hq
  refine ⟨⟨fun gap hgap hdead => ?_, fun gap hgap hne => ?_⟩,
    fun gap hgap _ k x hk hk' hx htrivia => ?_⟩
  · rw [hsurvives gap hgap] at hdead
    cases hdead
  · -- a comma of the list does not lie inside a pair of it
    have hmark := hcommas.mem_of_gap h hq hgap hne
    obtain ⟨hopening, hclosing, -, hlevel⟩ := (hcommas.mem_iff _).mp hmark
    have hchild := hlevel child hchild
    constructor
    · intro hgone
      have := hdeleted _ (by omega) hgone
      omega
    · rintro (hdead | ⟨hnext, hdead⟩)
      · rw [hsurvives gap hgap] at hdead
        cases hdead
      · rw [hsurvives _ hnext] at hdead
        cases hdead
  · have hisgap := hcommas.isGap h hq hgap
    have := hisgap.opening_le
    have := hisgap.le_closing
    cases hgone : isDeleted deletions x.range with
    | false => exact ⟨k, x, hk, hk', hx, htrivia, hgone⟩
    | true =>
      -- the delimiters of the list that is rewritten are left
      rw [← tokenRange_of_getElem? hx] at hgone
      have hin := hdeleted k (by omega) hgone
      have hgap := hisgap.contains_pair h hchild (by omega) (by omega) (by omega) (by omega)
      obtain ⟨y, hy, hopening⟩ := Matches.opening h (mem_map_of_mem hchild)
      refine ⟨child.opening, y, hgap.1, by omega, hy, SourceToken.not_trivia_of_opening hopening,
        ?_⟩
      cases hgone : isDeleted deletions y.range with
      | false => rfl
      | true =>
        rw [← tokenRange_of_getElem? hy] at hgone
        exact absurd (hdeleted child.opening (by omega) hgone).1 (Nat.lt_irrefl _)

/-! ## Segments that survive -/

theorem mem_leavesIn {leaf : WrittenUnit} {range : ByteRange} :
    leaf ∈ leavesIn leaves range ↔ leaf ∈ leaves ∧ range.contains leaf.fullRange = true :=
  mem_filter

theorem gapSurvives_iff {gap : Nat × Nat} : gapSurvives tokens leaves retained gap = true ↔
    ∀ leaf ∈ leaves, (between tokens gap.1 gap.2).contains leaf.fullRange = true →
      ∃ leaf' ∈ leaves, (between tokens gap.1 gap.2).contains leaf'.fullRange = true ∧
        isRetained retained leaf' = true := by
  rw [gapSurvives, Bool.or_eq_true, any_eq_true, List.isEmpty_iff]
  simp only [mem_leavesIn, eq_nil_iff_forall_not_mem]
  constructor
  · rintro (⟨leaf', ⟨hleaf', hin⟩, hkept⟩ | hnone) leaf hleaf hcontains
    · exact ⟨leaf', hleaf', hin, hkept⟩
    · exact absurd ⟨hleaf, hcontains⟩ (hnone leaf)
  · intro hall
    by_cases hex : ∃ leaf ∈ leaves, (between tokens gap.1 gap.2).contains leaf.fullRange = true
    · obtain ⟨leaf, hleaf, hcontains⟩ := hex
      obtain ⟨leaf', hleaf', hin, hkept⟩ := hall leaf hleaf hcontains
      exact .inl ⟨leaf', ⟨hleaf', hin⟩, hkept⟩
    · exact .inr fun leaf hleaf => hex ⟨leaf, hleaf⟩

/-- Where all leaves of a list lie in one list inside it, the segments around that one survive with
it, and the others hold no leaf. -/
theorem gapSurvives_outside (hasc : TokensAscend tokens) (h : DelimitersMatch tokens pairs)
    (hq : q ∈ pairs) (hchild : child ∈ pairs) (hcommas : ListCommas tokens pairs q commas)
    (hout : ¬(child.opening ≤ q.opening ∧ q.closing ≤ child.closing))
    (hvalid : ∀ leaf ∈ leaves, leaf.fullRange.start ≤ leaf.fullRange.stop)
    (hleaves : ∀ leaf ∈ leaves, (q.interior tokens).contains leaf.fullRange = true →
      (child.interior tokens).contains leaf.fullRange = true)
    (hkept : ∃ leaf ∈ leaves, isRetained retained leaf = true ∧
      (child.interior tokens).contains leaf.fullRange = true) :
    ∀ gap ∈ gaps q.opening commas q.closing, gapSurvives tokens leaves retained gap = true := by
  intro gap hgap
  have hisgap := hcommas.isGap h hq hgap
  have hqlen := h.closing_lt_length hq
  have hlen := h.closing_lt_length hchild
  have hlt := h.opening_lt_closing hchild
  have ha := hisgap.opening_le
  have hb := hisgap.le_closing
  have hab := hisgap.lt
  refine gapSurvives_iff.mpr fun leaf hleaf hcontains => ?_
  have hinterior : (q.interior tokens).contains leaf.fullRange = true :=
    ByteRange.contains_trans (hasc.between_contains_between ha (by omega) hb hqlen) hcontains
  have hin := ByteRange.contains_iff.mp (hleaves leaf hleaf hinterior)
  have hcontains := ByteRange.contains_iff.mp hcontains
  simp only [DelimiterPair.interior, between] at hin hcontains
  have hle := hvalid leaf hleaf
  -- the leaf lies both in the gap and in the list inside, so that the two are not apart
  have hachild : gap.1 < child.closing := by
    by_contra hge
    have := hasc.start_mono (Nat.not_lt.mp hge) (by omega)
    have := hasc.start_lt_stop (k := gap.1) (by omega)
    omega
  have hbchild : child.opening < gap.2 := by
    by_contra hge
    have := hasc.start_mono (Nat.not_lt.mp hge) (by omega)
    have := hasc.start_lt_stop (k := child.opening) (by omega)
    omega
  obtain hinside | hapart := (inside_or_apart h hq hchild).resolve_left hout
  · have hgap := hisgap.contains_pair h hchild hinside.1 hinside.2 hbchild hachild
    obtain ⟨leaf', hleaf', hkept, hin'⟩ := hkept
    exact ⟨leaf', hleaf', ByteRange.contains_trans
      (hasc.between_contains_between hgap.1.le (by omega) hgap.2.le hisgap.length) hin', hkept⟩
  · omega

end Groups

end ItemDependencies
