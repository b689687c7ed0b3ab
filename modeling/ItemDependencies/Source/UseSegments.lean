import ItemDependencies.Source.UseGroups
import Mathlib.Data.List.Perm.Subperm

/-!
# The deletions in one segment

What must have happened for the rewrite of a list to succeed, and what it
deletes in each segment when the lists inside the segments are rewritten as
they should be.
-/

namespace ItemDependencies

open Library Library.Brackets List Option

section Inversion

variable {tokens : List SourceToken} {pairs : List DelimiterPair} {pair child : DelimiterPair}
  {leaves : List WrittenUnit} {retained : List SourceUnitId} {deletions part : List ByteRange}
  {segment : CommaListSegment}
  {nested : DelimiterPair → List WrittenUnit → Except SourceRewriteError (List ByteRange)}

theorem enclosingBrace_some {ranges : List ByteRange} {within : Option ByteRange}
    (h : enclosingBrace tokens pairs ranges within = some child) :
    child ∈ pairs ∧ child.delimiter = .brace ∧
      (∀ outer ∈ within, outer.contains (child.interior tokens) = true) ∧
      ∀ range ∈ ranges, (child.interior tokens).contains range = true := by
  unfold enclosingBrace at h
  obtain ⟨entry, hentry, rfl⟩ := map_eq_some_iff.mp h
  obtain ⟨pair, hpair, hsome⟩ := mem_filterMap.mp (argmin_mem hentry)
  obtain ⟨hpair, hbrace⟩ := mem_filter.mp hpair
  simp only at hsome
  split at hsome
  · cases hsome
  · rename_i hguard
    cases hsome
    rw [Bool.or_eq_true, not_or] at hguard
    refine ⟨hpair, by simpa using hbrace, fun outer houter => ?_, fun range hrange => ?_⟩
    · rw [mem_def.mp houter] at hguard
      simpa using hguard.1
    · have hall : ranges.all (pair.interior tokens).contains = true := by simpa using hguard.2
      exact all_eq_true.mp hall range hrange

/-- What happens to a segment: nothing, if all its leaves are kept; it is deleted, if none of them
is; or the leaves lie in one list inside it, which is rewritten. -/
inductive SegmentCase (tokens : List SourceToken) (pairs : List DelimiterPair)
    (retained : List SourceUnitId)
    (nested : DelimiterPair → List WrittenUnit → Except SourceRewriteError (List ByteRange))
    (pair : DelimiterPair) (leaves : List WrittenUnit) (segment : CommaListSegment) :
    List ByteRange → Prop
  | kept (h : ∀ leaf ∈ leavesIn leaves segment.range, isRetained retained leaf = true) :
      SegmentCase tokens pairs retained nested pair leaves segment []
  | dropped {deletion : ByteRange}
      (h : ∀ leaf ∈ leavesIn leaves segment.range, isRetained retained leaf = false)
      (hne : ∃ leaf, leaf ∈ leavesIn leaves segment.range)
      (hdeletion : segment.deletion = .ok deletion) :
      SegmentCase tokens pairs retained nested pair leaves segment [deletion]
  | split {child : DelimiterPair} {part : List ByteRange}
      (h : ∃ leaf ∈ leavesIn leaves segment.range, isRetained retained leaf = true)
      (hchild : child ∈ pairs) (hbrace : child.delimiter = .brace) (hne : child ≠ pair)
      (hwithin : segment.range.contains (child.interior tokens) = true)
      (hleaves : ∀ leaf ∈ leavesIn leaves segment.range,
        (child.interior tokens).contains leaf.fullRange = true)
      (hpart : nested child (leavesIn leaves segment.range) = .ok part) :
      SegmentCase tokens pairs retained nested pair leaves segment part

theorem segmentDeletions_ok
    (h : segmentDeletions tokens pairs retained nested pair leaves segment = .ok part) :
    SegmentCase tokens pairs retained nested pair leaves segment part := by
  unfold segmentDeletions at h
  simp only at h
  split at h
  · rename_i hnil
    cases h
    refine .kept fun leaf hleaf => ?_
    rw [List.isEmpty_iff.mp hnil] at hleaf
    cases hleaf
  · rename_i hne
    split at h
    · rename_i hall
      cases h
      exact .kept (countP_eq_length.mp hall)
    · split at h
      · rename_i hnone
        obtain ⟨deletion, hdeletion, h⟩ := bind_ok h
        cases h
        refine .dropped (fun leaf hleaf => ?_) ?_ hdeletion
        · simpa using countP_eq_zero.mp hnone leaf hleaf
        · rw [List.isEmpty_iff] at hne
          exact exists_mem_of_ne_nil _ hne
      · rename_i hsome
        split at h
        · cases h
        · rename_i child hchild
          obtain ⟨hchild, hne⟩ := filter_eq_some_iff.mp hchild
          obtain ⟨hmem, hbrace, hwithin, hleaves⟩ := enclosingBrace_some hchild
          refine .split ?_ hmem hbrace (by simpa using hne) (hwithin _ rfl)
            (fun leaf hleaf => hleaves _ (mem_map_of_mem hleaf)) h
          exact countP_pos_iff.mp (Nat.pos_of_ne_zero hsome)

/-- Each leaf is assigned once, so that together the segments have as many as there are. -/
theorem foldlM_assignLeaf {assigned assigned' : List SourceUnitId} (hnodup : assigned.Nodup)
    (h : leaves.foldlM assignLeaf assigned = .ok assigned') :
    assigned' = assigned ++ leaves.map WrittenUnit.id ∧ assigned'.Nodup := by
  refine foldlM_ok (P := fun done assigned' => assigned' = assigned ++ done.map WrittenUnit.id ∧
    assigned'.Nodup) ?_ ⟨by simp, hnodup⟩ h
  rintro done leaf s t ⟨rfl, hs⟩ hstep
  unfold assignLeaf at hstep
  obtain ⟨hnew, hstep⟩ := guard_ok hstep
  cases hstep
  refine ⟨by simp, nodup_append.mpr ⟨hs, nodup_singleton _, ?_⟩⟩
  rintro a ha b hb rfl
  rw [mem_singleton.mp hb] at ha
  exact hnew (contains_iff_mem.mpr ha)

theorem rewriteGroup_ok {depth : Nat}
    (h : rewriteGroup tokens pairs retained (depth + 1) pair leaves = .ok deletions) :
    ∃ segments parts, commaListSegments tokens pair = .ok segments ∧
      List.Forall₂
        (SegmentCase tokens pairs retained (rewriteGroup tokens pairs retained depth) pair
        leaves) segments parts ∧ deletions = parts.flatten ∧
      ∀ leaf ∈ leaves, ∃ segment ∈ segments, segment.range.contains leaf.fullRange = true := by
  rw [rewriteGroup] at h
  split at h
  · cases h
  · rename_i segments hsegments
    obtain ⟨s, hrun, h⟩ := bind_ok h
    obtain ⟨hlength, h⟩ := guard_ok h
    cases h
    obtain ⟨parts, hparts, hdeletions, hassigned, hnodup⟩ :
        ∃ parts, List.Forall₂ (SegmentCase tokens pairs retained
          (rewriteGroup tokens pairs retained depth) pair leaves) segments parts ∧
          s.deletions = parts.flatten ∧
          s.assigned = (segments.flatMap fun segment => leavesIn leaves segment.range).map
            WrittenUnit.id ∧ s.assigned.Nodup := by
      refine foldlM_ok (P := fun done s => ∃ parts, List.Forall₂ (SegmentCase tokens pairs retained
          (rewriteGroup tokens pairs retained depth) pair leaves) done parts ∧
          s.deletions = parts.flatten ∧
          s.assigned = (done.flatMap fun segment => leavesIn leaves segment.range).map
            WrittenUnit.id ∧ s.assigned.Nodup) ?_ ⟨[], .nil, rfl, rfl, .nil⟩ hrun
      rintro done segment s t ⟨parts, hparts, hdeletions, hassigned, hnodup⟩ hstep
      obtain ⟨assigned, hassign, hstep⟩ := bind_ok hstep
      obtain ⟨part, hpart, hstep⟩ := bind_ok hstep
      cases hstep
      obtain ⟨rfl, hnodup⟩ := foldlM_assignLeaf hnodup hassign
      refine ⟨parts ++ [part], rel_append hparts (.cons (segmentDeletions_ok hpart) .nil), ?_, ?_,
        hnodup⟩
      · simp [hdeletions]
      · simp [hassigned]
    refine ⟨segments, parts, hsegments, hparts, hdeletions, fun leaf hleaf => ?_⟩
    -- the leaves that are assigned are all leaves, as there are as many
    rw [hassigned] at hnodup hlength
    have hsub : (segments.flatMap fun segment => leavesIn leaves segment.range) ⊆ leaves := by
      intro leaf hleaf
      obtain ⟨segment, -, hleaf⟩ := mem_flatMap.mp hleaf
      exact (mem_leavesIn.mp hleaf).1
    have hperm := (List.Nodup.of_map _ hnodup).subperm hsub |>.perm_of_length_le (by
      rw [length_map] at hlength
      exact (not_not.mp hlength).ge)
    obtain ⟨segment, hsegment, hleaf⟩ := mem_flatMap.mp (hperm.mem_iff.mpr hleaf)
    exact ⟨segment, hsegment, (mem_leavesIn.mp hleaf).2⟩

end Inversion

/-! ## Deletions in one list -/

section Rewrite

variable {tokens : List SourceToken} {pairs : List DelimiterPair} {pair child q : DelimiterPair}
  {leaves segmentLeaves : List WrittenUnit} {retained : List SourceUnitId}
  {deletions part : List ByteRange} {commas : List Nat} {deletion : ByteRange} {gap : Nat × Nat}

/-- What the rewrite of a list deletes: whole tokens between its delimiters, of the leaves those
that are not kept, nothing that leads to one that is kept, and of the lists inside it only
segments. -/
structure Rewritten (tokens : List SourceToken) (pairs : List DelimiterPair)
    (leaves : List WrittenUnit) (retained : List SourceUnitId) (pair : DelimiterPair)
    (deletions : List ByteRange) : Prop where
  cut : ∀ d ∈ deletions, ∃ x y, Cut tokens pairs d x y ∧ pair.opening < x ∧ y ≤ pair.closing
  gone : ∀ leaf ∈ leaves, (pair.interior tokens).contains leaf.fullRange = true →
    isRetained retained leaf = false → ∃ d ∈ deletions, d.contains leaf.fullRange = true
  kept : ∀ leaf ∈ leaves, (pair.interior tokens).contains leaf.fullRange = true →
    isRetained retained leaf = true → ∀ k < tokens.length,
      LeadsTo tokens pairs (tokenRange tokens k) leaf.fullRange →
      isDeleted deletions (tokenRange tokens k) = false
  lists : ∀ q ∈ pairs, pair.opening ≤ q.opening → q.closing ≤ pair.closing →
    isDeleted deletions (tokenRange tokens q.opening) = false →
    ∀ commas, ListCommas tokens pairs q commas → ListCut tokens leaves retained deletions q commas

/-- Where the deletion of the segment in a gap starts and ends. -/
inductive DropCase (tokens : List SourceToken) (pair : DelimiterPair) (gap : Nat × Nat)
    (deletion : ByteRange) : Prop
  | following (hne : gap.2 ≠ pair.closing)
      (h : deletion = ⟨(tokenRange tokens gap.1).stop, (tokenRange tokens gap.2).stop⟩)
  | previous (heq : gap.2 = pair.closing) (hne : gap.1 ≠ pair.opening)
      (h : deletion = ⟨(tokenRange tokens gap.1).start, (tokenRange tokens gap.2).start⟩)

theorem dropCase_of_deletion (h : (segmentBetween tokens pair gap).deletion = .ok deletion) :
    DropCase tokens pair gap deletion := by
  unfold CommaListSegment.deletion segmentBetween at h
  by_cases hclosing : gap.2 = pair.closing
  · by_cases hopening : gap.1 = pair.opening
    · simp only [hclosing, hopening, if_true, map_none] at h
      cases h
    · simp only [hclosing, hopening, if_true, if_false, map_some] at h
      obtain ⟨-, h⟩ := guard_ok h
      cases h
      exact .previous hclosing hopening (by rw [hclosing])
  · simp only [hclosing, if_false] at h
    obtain ⟨-, h⟩ := guard_ok h
    cases h
    exact .following hclosing rfl

/-- A segment is deleted with a comma as whole tokens. -/
theorem DropCase.cut (hdrop : DropCase tokens pair gap deletion) (hasc : TokensAscend tokens)
    (hgap : IsGap tokens pairs pair gap.1 gap.2) :
    ∃ x y, Cut tokens pairs deletion x y ∧ pair.opening < x ∧ y ≤ pair.closing ∧
      (gap.2 ≠ pair.closing ∧ x = gap.1 + 1 ∧ y = gap.2 + 1 ∨
        gap.2 = pair.closing ∧ x = gap.1 ∧ y = gap.2) := by
  have hab := hgap.lt
  have hlen := hgap.length
  have hopening := hgap.opening_le
  have hclosing := hgap.le_closing
  cases hdrop with
  | following hne h =>
    refine ⟨gap.1 + 1, gap.2 + 1, ⟨fun k hk => ?_, fun k hk hout => ?_, fun q hq => ?_⟩, by omega,
      by omega, .inl ⟨hne, rfl, rfl⟩⟩
    · rw [h, ByteRange.contains_iff]
      constructor
      · rintro ⟨hstart, hstop⟩
        simp only at hstart hstop
        have := hasc.start_lt_stop hk
        constructor
        · by_contra hlt
          have := hasc.stop_mono (Nat.le_of_not_lt hlt) (by omega)
          omega
        · by_contra hlt
          have := hasc.stop_le_start (i := gap.2) (j := k) (by omega) hk
          omega
      · rintro ⟨hak, hkb⟩
        exact ⟨hasc.stop_le_start hak hk, hasc.stop_mono (Nat.le_of_lt_succ hkb) hlen⟩
    · rw [h]
      by_cases hak : k ≤ gap.1
      · exact .inl (hasc.stop_mono hak (by omega))
      · exact .inr (hasc.stop_le_start (by omega) hk)
    · have hiff := hgap.pair_iff q hq
      by_cases hqp : q = pair
      · subst hqp
        omega
      · have := hgap.ne_right q hq hqp
        omega
  | previous heq hne h =>
    refine ⟨gap.1, gap.2, ⟨fun k hk => ?_, fun k hk hout => ?_, fun q hq => ?_⟩, by omega, hclosing,
      .inr ⟨heq, rfl, rfl⟩⟩
    · rw [h, ByteRange.contains_iff]
      constructor
      · rintro ⟨hstart, hstop⟩
        simp only at hstart hstop
        have := hasc.start_lt_stop hk
        constructor
        · by_contra hlt
          have := hasc.stop_le_start (i := k) (j := gap.1) (by omega) (by omega)
          omega
        · by_contra hlt
          have := hasc.start_mono (Nat.le_of_not_lt hlt) hk
          omega
      · rintro ⟨hak, hkb⟩
        exact ⟨hasc.start_mono hak hk, hasc.stop_le_start hkb hlen⟩
    · rw [h]
      by_cases hak : k < gap.1
      · exact .inl (hasc.stop_le_start hak (by omega))
      · exact .inr (hasc.start_mono (by omega) hk)
    · have hiff := hgap.pair_iff q hq
      by_cases hqp : q = pair
      · subst hqp
        omega
      · have := hgap.ne_left q hq hqp
        omega

theorem DropCase.contains (hdrop : DropCase tokens pair gap deletion) (hasc : TokensAscend tokens)
    (hgap : IsGap tokens pairs pair gap.1 gap.2) :
    deletion.contains (between tokens gap.1 gap.2) = true := by
  have hlen := hgap.length
  have ha := hasc.start_lt_stop (hgap.lt.trans hlen)
  have hb := hasc.start_lt_stop hlen
  rw [ByteRange.contains_iff]
  cases hdrop with
  | following hne h =>
    rw [h]
    exact ⟨le_rfl, hb.le⟩
  | previous heq hne h =>
    rw [h]
    exact ⟨ha.le, le_rfl⟩

/-- What the rewrite deletes in one segment of a list. -/
structure GapPart (tokens : List SourceToken) (pairs : List DelimiterPair)
    (leaves : List WrittenUnit) (retained : List SourceUnitId) (pair : DelimiterPair)
    (gap : Nat × Nat) (part : List ByteRange) : Prop where
  cut : ∀ d ∈ part, ∃ x y, Cut tokens pairs d x y ∧ pair.opening < x ∧ y ≤ pair.closing
  range : ∀ k < tokens.length, isDeleted part (tokenRange tokens k) = true →
    gap.1 < k ∧ k < gap.2 ∨ gapSurvives tokens leaves retained gap = false ∧
      (gap.2 ≠ pair.closing ∧ k = gap.2 ∨ gap.2 = pair.closing ∧ k = gap.1)
  dropped : gapSurvives tokens leaves retained gap = false →
    (∀ k, gap.1 < k → k < gap.2 → isDeleted part (tokenRange tokens k) = true) ∧
      (gap.2 ≠ pair.closing → isDeleted part (tokenRange tokens gap.2) = true) ∧
      (gap.2 = pair.closing → isDeleted part (tokenRange tokens gap.1) = true)
  notBlank : gapSurvives tokens leaves retained gap = true → ∀ k x, gap.1 < k → k < gap.2 →
    tokens[k]? = some x → isTrivia x.kind = false →
    ∃ j y, gap.1 < j ∧ j < gap.2 ∧ tokens[j]? = some y ∧ isTrivia y.kind = false ∧
      isDeleted part y.range = false
  gone : ∀ leaf ∈ leaves, (between tokens gap.1 gap.2).contains leaf.fullRange = true →
    isRetained retained leaf = false → ∃ d ∈ part, d.contains leaf.fullRange = true
  kept : ∀ leaf ∈ leaves, (between tokens gap.1 gap.2).contains leaf.fullRange = true →
    isRetained retained leaf = true → ∀ k < tokens.length,
      LeadsTo tokens pairs (tokenRange tokens k) leaf.fullRange →
      isDeleted part (tokenRange tokens k) = false
  lists : ∀ q ∈ pairs, gap.1 < q.opening → q.closing < gap.2 →
    isDeleted part (tokenRange tokens q.opening) = false →
    ∀ commas, ListCommas tokens pairs q commas → ListCut tokens leaves retained part q commas

theorem isDeleted_nil (range : ByteRange) : isDeleted [] range = false := rfl

/-- A pair whose text lies in a gap lies in it with its delimiters. -/
theorem IsGap.pair_inside (hgap : IsGap tokens pairs pair gap.1 gap.2) (hasc : TokensAscend tokens)
    (h : DelimitersMatch tokens pairs) (hchild : child ∈ pairs) (hne : child ≠ pair)
    (hwithin : (between tokens gap.1 gap.2).contains (child.interior tokens) = true) :
    gap.1 < child.opening ∧ child.closing < gap.2 := by
  have hlt := h.opening_lt_closing hchild
  have hlen := h.closing_lt_length hchild
  have hlen' := hgap.length
  have hab := hgap.lt
  obtain ⟨hstart, hstop⟩ := ByteRange.contains_iff.mp hwithin
  simp only [between, DelimiterPair.interior] at hstart hstop
  have hleft : gap.1 ≤ child.opening := by
    by_contra hlt
    have := hasc.stop_le_start (Nat.not_le.mp hlt) (by omega)
    have := hasc.start_lt_stop (k := gap.1) (by omega)
    omega
  have hright : child.closing ≤ gap.2 := by
    by_contra hlt
    have := hasc.stop_le_start (Nat.not_le.mp hlt) hlen
    have := hasc.start_lt_stop hlen'
    omega
  have := hgap.ne_left child hchild hne
  have := hgap.ne_right child hchild hne
  omega

theorem gapPart_of_case (hasc : TokensAscend tokens) (h : DelimitersMatch tokens pairs)
    (hpair : pair ∈ pairs) (hcommas : ListCommas tokens pairs pair commas)
    (hgap : gap ∈ gaps pair.opening commas pair.closing)
    (hvalid : ∀ leaf ∈ leaves, leaf.fullRange.start ≤ leaf.fullRange.stop)
    (hleaves : ∀ leaf, leaf ∈ leavesIn segmentLeaves (between tokens gap.1 gap.2) ↔
      leaf ∈ leavesIn leaves (between tokens gap.1 gap.2))
    {nested : DelimiterPair → List WrittenUnit → Except SourceRewriteError (List ByteRange)}
    (hnested : ∀ child part, child ∈ pairs → child.delimiter = .brace →
      gap.1 < child.opening → child.closing < gap.2 →
      (∀ leaf ∈ leavesIn segmentLeaves (between tokens gap.1 gap.2),
        (child.interior tokens).contains leaf.fullRange = true) →
      nested child (leavesIn segmentLeaves (between tokens gap.1 gap.2)) = .ok part →
      Rewritten tokens pairs leaves retained child part)
    (hcase : SegmentCase tokens pairs retained nested pair segmentLeaves
      (segmentBetween tokens pair gap) part) :
    GapPart tokens pairs leaves retained pair gap part := by
  have hisgap := hcommas.isGap h hpair hgap
  have hopening := hisgap.opening_le
  have hclosing := hisgap.le_closing
  have hlen := h.closing_lt_length hpair
  -- the leaves of a list inside the gap are leaves of the gap
  have hinner : ∀ q ∈ pairs, gap.1 < q.opening → q.closing < gap.2 → ∀ leaf ∈ leaves,
      (q.interior tokens).contains leaf.fullRange = true →
      leaf ∈ leavesIn segmentLeaves (between tokens gap.1 gap.2) := by
    intro q hq hgq hqg leaf hleaf hcontains
    have := h.opening_lt_closing hq
    exact (hleaves leaf).mpr (mem_leavesIn.mpr ⟨hleaf, ByteRange.contains_trans
      (hasc.between_contains_between hgq.le (by omega) hqg.le hisgap.length) hcontains⟩)
  cases hcase with
  | kept hall =>
    have hkept : ∀ leaf ∈ leaves, (between tokens gap.1 gap.2).contains leaf.fullRange = true →
        isRetained retained leaf = true := fun leaf hleaf hcontains =>
      hall leaf ((hleaves leaf).mpr (mem_leavesIn.mpr ⟨hleaf, hcontains⟩))
    have hsurvives : gapSurvives tokens leaves retained gap = true :=
      gapSurvives_iff.mpr fun leaf hleaf hcontains =>
        ⟨leaf, hleaf, hcontains, hkept leaf hleaf hcontains⟩
    constructor
    case cut => simp
    case range => simp [isDeleted_nil]
    case dropped => simp [hsurvives]
    case notBlank => exact fun _ k x hk hk' hx htrivia => ⟨k, x, hk, hk', hx, htrivia, rfl⟩
    case gone =>
      intro leaf hleaf hcontains hgone
      rw [hkept leaf hleaf hcontains] at hgone
      cases hgone
    case kept => exact fun _ _ _ _ _ _ _ => rfl
    case lists =>
      intro q hq hgq hqg _ commas' hcommas'
      refine listCut_of_none h hq hcommas' (fun _ _ _ => rfl) fun gap' hgap' => ?_
      have hisgap' := hcommas'.isGap h hq hgap'
      have hqlen := h.closing_lt_length hq
      have hopening' := hisgap'.opening_le
      have hlt' := hisgap'.lt
      have hclosing' := hisgap'.le_closing
      refine gapSurvives_iff.mpr fun leaf hleaf hcontains => ⟨leaf, hleaf, hcontains, ?_⟩
      exact hall leaf (hinner q hq hgq hqg leaf hleaf (ByteRange.contains_trans
        (hasc.between_contains_between hopening' (by omega) hclosing' hqlen) hcontains))
  | @dropped deletion hnone hne hdeletion =>
    have hdrop := dropCase_of_deletion hdeletion
    obtain ⟨x, y, hcut, hx, hy, hxy⟩ := hdrop.cut hasc hisgap
    have hnone : ∀ leaf ∈ leaves, (between tokens gap.1 gap.2).contains leaf.fullRange = true →
        isRetained retained leaf = false := fun leaf hleaf hcontains =>
      hnone leaf ((hleaves leaf).mpr (mem_leavesIn.mpr ⟨hleaf, hcontains⟩))
    have hdead : gapSurvives tokens leaves retained gap = false := by
      rw [Bool.eq_false_iff]
      intro hsurvives
      obtain ⟨leaf, hleaf⟩ := hne
      obtain ⟨hleaf, hcontains⟩ := mem_leavesIn.mp ((hleaves leaf).mp hleaf)
      obtain ⟨leaf', hleaf', hcontains', hkept⟩ :=
        gapSurvives_iff.mp hsurvives leaf hleaf hcontains
      rw [hnone leaf' hleaf' hcontains'] at hkept
      cases hkept
    have hdeleted : ∀ k < tokens.length,
        isDeleted [deletion] (tokenRange tokens k) = true ↔ x ≤ k ∧ k < y := by
      intro k hk
      rw [isDeleted_iff, ← hcut.contains_iff k hk]
      simp
    have hlength := hisgap.length
    have hlt := hisgap.lt
    constructor
    case cut =>
      intro d hd
      rw [mem_singleton.mp hd]
      exact ⟨x, y, hcut, hx, hy⟩
    case range =>
      intro k hk hgone
      have := (hdeleted k hk).mp hgone
      simp only [hdead, true_and]
      omega
    case dropped =>
      refine fun _ => ⟨fun k hk hk' => ?_, fun hne => ?_, fun heq => ?_⟩
      · exact (hdeleted k (by omega)).mpr (by omega)
      · exact (hdeleted _ hlength).mpr (by omega)
      · exact (hdeleted _ (by omega)).mpr (by omega)
    case notBlank =>
      intro hsurvives
      rw [hdead] at hsurvives
      cases hsurvives
    case gone =>
      intro leaf _ hcontains _
      exact ⟨deletion, by simp, ByteRange.contains_trans (hdrop.contains hasc hisgap) hcontains⟩
    case kept =>
      intro leaf hleaf hcontains hkept
      rw [hnone leaf hleaf hcontains] at hkept
      cases hkept
    case lists =>
      intro q hq hgq hqg halive
      have := h.opening_lt_closing hq
      rw [(hdeleted q.opening (by omega)).mpr (by omega)] at halive
      cases halive
  | @split child part hsome hchild hbrace hne hwithin hinside hpart =>
    obtain ⟨hgchild, hchildg⟩ := hisgap.pair_inside hasc h hchild hne hwithin
    have hrewritten := hnested child part hchild hbrace hgchild hchildg hinside hpart
    have hlength := hisgap.length
    have hchildlt := h.opening_lt_closing hchild
    have hdeleted : ∀ k < tokens.length, isDeleted part (tokenRange tokens k) = true →
        child.opening < k ∧ k < child.closing := by
      intro k hk hgone
      obtain ⟨d, hd, hcontains⟩ := isDeleted_iff.mp hgone
      obtain ⟨x, y, hcut, hx, hy⟩ := hrewritten.cut d hd
      have := (hcut.contains_iff k hk).mp hcontains
      omega
    have hin : ∀ leaf ∈ leaves, (between tokens gap.1 gap.2).contains leaf.fullRange = true →
        (child.interior tokens).contains leaf.fullRange = true := fun leaf hleaf hcontains =>
      hinside leaf ((hleaves leaf).mpr (mem_leavesIn.mpr ⟨hleaf, hcontains⟩))
    obtain ⟨kept, hkeptmem, hkept⟩ := hsome
    obtain ⟨hkeptleaf, hkeptin⟩ := mem_leavesIn.mp ((hleaves kept).mp hkeptmem)
    have hsurvives : gapSurvives tokens leaves retained gap = true :=
      gapSurvives_iff.mpr fun _ _ _ => ⟨kept, hkeptleaf, hkeptin, hkept⟩
    constructor
    case cut =>
      intro d hd
      obtain ⟨x, y, hcut, hx, hy⟩ := hrewritten.cut d hd
      exact ⟨x, y, hcut, by omega, by omega⟩
    case range =>
      intro k hk hgone
      have := hdeleted k hk hgone
      omega
    case dropped =>
      intro hdead
      rw [hsurvives] at hdead
      cases hdead
    case notBlank =>
      intro _ k x hk hk' hx htrivia
      obtain ⟨y, hy, hmark⟩ := Matches.opening h (mem_map_of_mem hchild)
      refine ⟨child.opening, y, hgchild, by omega, hy, SourceToken.not_trivia_of_opening hmark, ?_⟩
      rw [← tokenRange_of_getElem? hy, Bool.eq_false_iff]
      intro hgone
      exact absurd (hdeleted child.opening (by omega) hgone).1 (Nat.lt_irrefl _)
    case gone => exact fun leaf hleaf hcontains =>
      hrewritten.gone leaf hleaf (hin leaf hleaf hcontains)
    case kept => exact fun leaf hleaf hcontains =>
      hrewritten.kept leaf hleaf (hin leaf hleaf hcontains)
    case lists =>
      intro q hq hgq hqg halive commas' hcommas'
      by_cases hqchild : child.opening ≤ q.opening ∧ q.closing ≤ child.closing
      · exact hrewritten.lists q hq hqchild.1 hqchild.2 halive commas' hcommas'
      · refine listCut_outside h hq hchild hcommas' hqchild hrewritten.cut ?_
        refine gapSurvives_outside hasc h hq hchild hcommas' hqchild hvalid
          (fun leaf hleaf hq' => ?_)
          ⟨kept, hkeptleaf, hkept, hin kept hkeptleaf hkeptin⟩
        exact hinside leaf (hinner q hq hgq hqg leaf hleaf hq')

end Rewrite

end ItemDependencies
