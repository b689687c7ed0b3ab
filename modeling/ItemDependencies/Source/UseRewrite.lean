import ItemDependencies.Source.UseSegments

/-!
# The rewrite of a use item

What `rewriteGroup` deletes, by induction on the nesting of the lists, and what
is left of a use item when the deletions are merged.
-/

namespace ItemDependencies

open Library Library.Brackets List

section Rewrite

variable {tokens : List SourceToken} {pairs : List DelimiterPair} {pair q : DelimiterPair}
  {leaves segmentLeaves : List WrittenUnit} {retained : List SourceUnitId}
  {deletions : List ByteRange} {commas : List Nat}

theorem nodup_gaps (hcommas : ListCommas tokens pairs pair commas) (last : Nat) :
    (gaps pair.opening commas last).Nodup := by
  apply List.Nodup.of_map Prod.fst
  rw [gaps, map_fst_zip (by simp)]
  exact hcommas.sorted_cons.imp fun hlt => hlt.ne

/-- What is deleted in the segments of a list makes up what is deleted in the list. -/
theorem rewritten_of_parts (hasc : TokensAscend tokens) (h : DelimitersMatch tokens pairs)
    (hpair : pair ∈ pairs) (hbrace : pair.delimiter = .brace)
    (hcommas : ListCommas tokens pairs pair commas)
    (hsegments : commaListSegments tokens pair =
      .ok ((gaps pair.opening commas pair.closing).map (segmentBetween tokens pair)))
    {f : Nat × Nat → List ByteRange}
    (hparts : ∀ gap ∈ gaps pair.opening commas pair.closing,
      GapPart tokens pairs leaves retained pair gap (f gap))
    (hcover : ∀ leaf ∈ leaves, (pair.interior tokens).contains leaf.fullRange = true →
      ∃ gap ∈ gaps pair.opening commas pair.closing,
        (between tokens gap.1 gap.2).contains leaf.fullRange = true) :
    Rewritten tokens pairs leaves retained pair
      ((gaps pair.opening commas pair.closing).map f).flatten := by
  have hlen := h.closing_lt_length hpair
  have hgaps : ∀ gap ∈ gaps pair.opening commas pair.closing,
      IsGap tokens pairs pair gap.1 gap.2 := fun gap hgap => hcommas.isGap h hpair hgap
  have hmem : ∀ d, d ∈ ((gaps pair.opening commas pair.closing).map f).flatten ↔
      ∃ gap ∈ gaps pair.opening commas pair.closing, d ∈ f gap := by
    intro d
    simp [mem_flatten]
  have hdeleted : ∀ range, isDeleted ((gaps pair.opening commas pair.closing).map f).flatten range =
      true ↔ ∃ gap ∈ gaps pair.opening commas pair.closing, isDeleted (f gap) range = true := by
    intro range
    simp only [isDeleted_iff, hmem]
    constructor
    · rintro ⟨d, ⟨gap, hgap, hd⟩, hcontains⟩
      exact ⟨gap, hgap, d, hd, hcontains⟩
    · rintro ⟨gap, hgap, d, hd, hcontains⟩
      exact ⟨d, ⟨gap, hgap, hd⟩, hcontains⟩
  have hdisjoint : ∀ gap ∈ gaps pair.opening commas pair.closing,
      ∀ gap' ∈ gaps pair.opening commas pair.closing,
        gap.2 ≤ gap'.1 ∨ gap'.2 ≤ gap.1 ∨ gap = gap' := by
    intro gap hgap gap' hgap'
    refine (gaps_disjoint hcommas.sorted_cons (hcommas.lt_closing h hpair) hgap hgap').imp_right
      (Or.imp_right ?_)
    exact fun heq => Prod.ext heq.1 heq.2
  -- inside a segment only its own deletions matter
  have hstrict : ∀ gap ∈ gaps pair.opening commas pair.closing, ∀ k, gap.1 < k → k < gap.2 →
      isDeleted ((gaps pair.opening commas pair.closing).map f).flatten (tokenRange tokens k) =
        isDeleted (f gap) (tokenRange tokens k) := by
    intro gap hgap k hk hk'
    rw [Bool.eq_iff_iff, hdeleted]
    refine ⟨?_, fun hgone => ⟨gap, hgap, hgone⟩⟩
    rintro ⟨gap', hgap', hgone⟩
    have hlength := (hgaps gap hgap).length
    have hrange := (hparts gap' hgap').range k (by omega) hgone
    have hlt := (hgaps gap' hgap').lt
    obtain hd | hd | rfl := hdisjoint gap hgap gap' hgap'
    · omega
    · omega
    · exact hgone
  have hlist : ListCut tokens leaves retained
      ((gaps pair.opening commas pair.closing).map f).flatten pair commas := by
    refine ⟨⟨fun gap hgap hdead k hk hk' => ?_, fun gap hgap hne => ?_⟩,
      fun gap hgap hsurvives k x hk hk' hx htrivia => ?_⟩
    · rw [hstrict gap hgap k hk hk']
      exact ((hparts gap hgap).dropped hdead).1 k hk hk'
    · rw [hdeleted]
      have hlt := (hgaps gap hgap).lt
      constructor
      · rintro ⟨gap', hgap', hgone⟩
        have hlt' := (hgaps gap' hgap').lt
        have hd := hdisjoint gap hgap gap' hgap'
        rcases (hparts gap' hgap').range _ (hgaps gap hgap).length hgone with hin | ⟨hdead, hend⟩
        · rcases hd with hd | hd | rfl <;> omega
        · rcases hend with ⟨-, heq⟩ | ⟨hlast, heq⟩
          · -- the segment before the comma
            obtain hd | hd | rfl := hd
            · omega
            · omega
            · exact .inl hdead
          · -- the last segment, behind the comma
            have hgap'' : gap' = (gap.2, pair.closing) := Prod.ext heq.symm hlast
            exact .inr (hgap'' ▸ ⟨hgap', hdead⟩)
      · rintro (hdead | ⟨hnext, hdead⟩)
        · exact ⟨gap, hgap, ((hparts gap hgap).dropped hdead).2.1 hne⟩
        · exact ⟨_, hnext, ((hparts _ hnext).dropped hdead).2.2 rfl⟩
    · obtain ⟨j, y, hj, hj', hy, htrivia, halive⟩ :=
        (hparts gap hgap).notBlank hsurvives k x hk hk' hx htrivia
      refine ⟨j, y, hj, hj', hy, htrivia, ?_⟩
      rw [← tokenRange_of_getElem? hy] at halive ⊢
      rw [hstrict gap hgap j hj hj', halive]
  constructor
  case cut =>
    intro d hd
    obtain ⟨gap, hgap, hd⟩ := (hmem d).mp hd
    exact (hparts gap hgap).cut d hd
  case gone =>
    intro leaf hleaf hcontains hgone
    obtain ⟨gap, hgap, hin⟩ := hcover leaf hleaf hcontains
    obtain ⟨d, hd, hd'⟩ := (hparts gap hgap).gone leaf hleaf hin hgone
    exact ⟨d, (hmem d).mpr ⟨gap, hgap, hd⟩, hd'⟩
  case kept =>
    intro leaf hleaf hcontains hkept k hk hleads
    obtain ⟨gap, hgap, hin⟩ := hcover leaf hleaf hcontains
    rw [Bool.eq_false_iff]
    intro hgone
    -- what is deleted lies inside the list, and there the token is in the segment of the leaf
    obtain ⟨gap', hgap', hgone'⟩ := (hdeleted _).mp hgone
    obtain ⟨d, hd, hd'⟩ := isDeleted_iff.mp hgone'
    obtain ⟨x, y, hcut, hx, hy⟩ := (hparts gap' hgap').cut d hd
    have hk' := (hcut.contains_iff k hk).mp hd'
    have hinterior : (pair.interior tokens).contains (tokenRange tokens k) = true :=
      (hasc.between_contains (by omega) hlen hk).mpr ⟨by omega, by omega⟩
    have htoken := hleads pair hpair hbrace hcontains hinterior _ hsegments
      (segmentBetween tokens pair gap) (mem_map_of_mem hgap) hin
    have hisgap := hgaps gap hgap
    obtain ⟨hgk, hkg⟩ := (hasc.between_contains (hisgap.lt.trans hisgap.length) hisgap.length hk).mp
      htoken
    rw [hstrict gap hgap k hgk hkg, (hparts gap hgap).kept leaf hleaf hin hkept k hk hleads]
      at hgone
    cases hgone
  case lists =>
    intro q hq hopening hclosing halive commas' hcommas'
    have hlt := h.opening_lt_closing hq
    rcases h.eq_or hpair hq with rfl | hor | hor
    · obtain rfl : commas = commas' := hcommas.sorted.eq_of_mem_iff hcommas'.sorted fun c =>
        (hcommas.mem_iff c).trans (hcommas'.mem_iff c).symm
      exact hlist
    · omega
    · have hcomma : q.opening ∉ commas := by
        intro hmem
        obtain ⟨-, -, ⟨x, hx, hkind⟩, -⟩ := (hcommas.mem_iff _).mp hmem
        exact (h.comma_ne hq hx hkind).1 rfl
      obtain ⟨gap, hgap, hgq, hqg⟩ : ∃ gap ∈ gaps pair.opening commas pair.closing,
          gap.1 < q.opening ∧ q.opening < gap.2 := exists_gap (by omega) (by omega) hcomma
      have hqg' := ((hgaps gap hgap).pair_iff q hq).mp ⟨hgq, hqg⟩
      rw [hstrict gap hgap _ hgq hqg] at halive
      exact ((hparts gap hgap).lists q hq hgq hqg'.2 halive commas' hcommas').congr h hq hcommas'
        fun k hk hk' => hstrict gap hgap k (by omega) (by omega)

/-- What the rewrite of a list deletes. -/
theorem rewriteGroup_spec (hasc : TokensAscend tokens) (h : DelimitersMatch tokens pairs)
    (hvalid : ∀ leaf ∈ leaves, leaf.fullRange.start ≤ leaf.fullRange.stop) {depth : Nat}
    (hpair : pair ∈ pairs) (hbrace : pair.delimiter = .brace)
    (hleaves : ∀ leaf, leaf ∈ segmentLeaves ↔
      leaf ∈ leaves ∧ (pair.interior tokens).contains leaf.fullRange = true)
    (hok : rewriteGroup tokens pairs retained depth pair segmentLeaves = .ok deletions) :
    Rewritten tokens pairs leaves retained pair deletions := by
  induction depth generalizing pair segmentLeaves deletions with
  | zero => cases hok
  | succ depth ih =>
    obtain ⟨commas, hsegments, hcommas⟩ := commaListSegments_eq h hpair
    obtain ⟨segments, parts, hsegments', hcases, rfl, hcover⟩ := rewriteGroup_ok hok
    obtain rfl := Except.ok.inj (hsegments'.symm.trans hsegments)
    obtain ⟨f, rfl, hf⟩ := exists_map_of_forall₂ (forall₂_map_left_iff.mp hcases)
      (nodup_gaps hcommas _) []
    have hlen := h.closing_lt_length hpair
    have hgapleaves : ∀ gap ∈ gaps pair.opening commas pair.closing, ∀ leaf,
        leaf ∈ leavesIn segmentLeaves (between tokens gap.1 gap.2) ↔
          leaf ∈ leavesIn leaves (between tokens gap.1 gap.2) := by
      intro gap hgap leaf
      have hisgap := hcommas.isGap h hpair hgap
      have hlength := hisgap.length
      have hlt := hisgap.lt
      rw [mem_leavesIn, mem_leavesIn, hleaves]
      refine ⟨fun hmem => ⟨hmem.1.1, hmem.2⟩, fun hmem => ⟨⟨hmem.1, ?_⟩, hmem.2⟩⟩
      exact ByteRange.contains_trans (hasc.between_contains_between hisgap.opening_le (by omega)
        hisgap.le_closing hlen) hmem.2
    refine rewritten_of_parts hasc h hpair hbrace hcommas hsegments (fun gap hgap => ?_) ?_
    · refine gapPart_of_case hasc h hpair hcommas hgap hvalid (hgapleaves gap hgap) ?_ (hf gap hgap)
      intro child part hchild hchildbrace hgc hcg hinside hpart
      have hlt := h.opening_lt_closing hchild
      refine ih hchild hchildbrace (fun leaf => ?_) hpart
      rw [hgapleaves gap hgap, mem_leavesIn]
      refine ⟨fun hmem => ⟨hmem.1, hinside leaf ?_⟩, fun hmem => ⟨hmem.1, ?_⟩⟩
      · exact (hgapleaves gap hgap leaf).mpr (mem_leavesIn.mpr hmem)
      · have hlength := (hcommas.isGap h hpair hgap).length
        exact ByteRange.contains_trans
          (hasc.between_contains_between hgc.le (by omega) hcg.le hlength) hmem.2
    · intro leaf hleaf hcontains
      obtain ⟨segment, hsegment, hin⟩ := hcover leaf ((hleaves leaf).mpr ⟨hleaf, hcontains⟩)
      obtain ⟨gap, hgap, rfl⟩ := mem_map.mp hsegment
      exact ⟨gap, hgap, hin⟩

/-! ## The whole item -/

/-- A token that a leaf lies on in part is in each segment that the leaf is in. -/
theorem leadsTo_of_meets (hasc : TokensAscend tokens) (h : DelimitersMatch tokens pairs) {k : Nat}
    (hk : k < tokens.length) {leaf : ByteRange} (hmeets : (tokenRange tokens k).Meets leaf) :
    LeadsTo tokens pairs (tokenRange tokens k) leaf := by
  intro q hq _ _ _ segments hsegments segment hsegment hin
  obtain ⟨commas, hsegments', hcommas⟩ := commaListSegments_eq h hq
  obtain rfl := Except.ok.inj (hsegments.symm.trans hsegments')
  obtain ⟨gap, hgap, rfl⟩ := mem_map.mp hsegment
  have hisgap := hcommas.isGap h hq hgap
  have hlength := hisgap.length
  have hlt := hisgap.lt
  refine (hasc.between_contains (hlt.trans hlength) hlength hk).mpr ?_
  obtain ⟨hstart, hstop⟩ := ByteRange.contains_iff.mp hin
  simp only [segmentBetween] at hstart hstop
  obtain ⟨hmeets, hmeets'⟩ := hmeets
  constructor
  · by_contra hle
    have := hasc.stop_mono (Nat.not_lt.mp hle) (by omega)
    omega
  · by_contra hle
    have := hasc.start_mono (Nat.not_lt.mp hle) hk
    omega

theorem mem_leftTokens {k : Nat} {token : SourceToken} (hk : tokens[k]? = some token) :
    token ∈ leftTokens tokens deletions ↔ isDeleted deletions (tokenRange tokens k) = false := by
  rw [leftTokens, mem_filter, tokenRange_of_getElem? hk]
  simp [mem_of_getElem? hk]

/-- What is left of an item, from what is deleted in its lists. -/
theorem useItemLeft_of_lists (hasc : TokensAscend tokens) (h : DelimitersMatch tokens pairs)
    (hcuts : Cuts tokens pairs deletions)
    (hgone : ∀ leaf ∈ leaves, isRetained retained leaf = false →
      ∃ d ∈ deletions, d.contains leaf.fullRange = true)
    (hkept : ∀ leaf ∈ leaves, isRetained retained leaf = true → ∀ k < tokens.length,
      LeadsTo tokens pairs (tokenRange tokens k) leaf.fullRange →
      isDeleted deletions (tokenRange tokens k) = false)
    (hlists : ∀ q ∈ pairs, isDeleted deletions (tokenRange tokens q.opening) = false →
      ∀ commas, ListCommas tokens pairs q commas →
        ListCut tokens leaves retained deletions q commas) :
    UseItemLeft tokens pairs leaves retained (leftTokens tokens deletions) := by
  constructor
  case balanced => exact hcuts.balanced h
  case retained_left =>
    intro leaf hleaf hretained token htoken hmeets
    obtain ⟨k, hk, rfl⟩ := getElem_of_mem htoken
    have hget := getElem?_eq_getElem hk
    rw [← tokenRange_of_getElem? hget] at hmeets
    exact (mem_leftTokens hget).mpr
      (hkept leaf hleaf hretained k hk (leadsTo_of_meets hasc h hk hmeets))
  case path_left =>
    intro leaf hleaf hretained token htoken hleads
    obtain ⟨k, hk, rfl⟩ := getElem_of_mem htoken
    have hget := getElem?_eq_getElem hk
    rw [← tokenRange_of_getElem? hget] at hleads
    exact (mem_leftTokens hget).mpr (hkept leaf hleaf hretained k hk hleads)
  case unretained_gone =>
    intro leaf hleaf hretained token htoken hmeets
    obtain ⟨k, hk, rfl⟩ := getElem_of_mem (mem_filter.mp htoken).1
    have hget := getElem?_eq_getElem hk
    have halive := (mem_leftTokens hget).mp htoken
    obtain ⟨d, hd, hcontains⟩ := hgone leaf hleaf hretained
    obtain ⟨x, y, hcut⟩ := hcuts d hd
    obtain ⟨hstart, hstop⟩ := ByteRange.contains_iff.mp hcontains
    obtain ⟨hmeets, hmeets'⟩ := hmeets
    rw [← tokenRange_of_getElem? hget] at hmeets hmeets'
    by_cases hin : x ≤ k ∧ k < y
    · rw [isDeleted_iff.mpr ⟨d, hd, (hcut.contains_iff k hk).mpr hin⟩] at halive
      cases halive
    · have := hcut.apart k hk hin
      omega
  case groups =>
    rintro q hq - ⟨token, htoken, hget⟩
    obtain ⟨commas, hsegments, hcommas⟩ := commaListSegments_eq h hq
    refine ⟨_, hsegments, ?_⟩
    exact (hlists q hq ((mem_leftTokens hget).mp htoken) commas hcommas).groupLeft hasc h hq hcommas
      hcuts

theorem ByteRange.start_le {a b : ByteRange} (h : a ≤ b) : a.start ≤ b.start := by
  have h : toLex (a.start, a.stop) ≤ toLex (b.start, b.stop) := h
  rcases Prod.Lex.le_iff.mp h with h | h
  · exact h.le
  · exact h.1.le

theorem removedBy_iff {position : Nat} : removedBy deletions position = true ↔
    ∃ d ∈ deletions, d.start ≤ position ∧ position < d.stop := by
  simp [removedBy]

/-- Merging the deletions deletes the same tokens. -/
theorem leftTokens_merge (hasc : TokensAscend tokens) (hcuts : Cuts tokens pairs deletions)
    {source : List Char} {pieceBoundaries : List Nat} {merged : List ByteRange}
    (hmerge : mergeDeletions source (deletions.insertionSort (· ≤ ·)) pieceBoundaries =
      .ok merged) : leftTokens tokens merged = leftTokens tokens deletions := by
  have hsorted : (deletions.insertionSort (· ≤ ·)).Pairwise fun a b => a.start ≤ b.start :=
    (pairwise_insertionSort (· ≤ ·) deletions).imp fun hle => ByteRange.start_le hle
  obtain ⟨hgaps, hremoved⟩ := mergeDeletions_spec hmerge hsorted
  have hremoved : ∀ position, removedBy merged position = true ↔
      ∃ d ∈ deletions, d.start ≤ position ∧ position < d.stop := by
    intro position
    rw [hremoved, removedBy_iff]
    simp only [mem_insertionSort]
  refine filter_congr fun token htoken => ?_
  obtain ⟨k, hk, rfl⟩ := getElem_of_mem htoken
  have hget := getElem?_eq_getElem hk
  have hlt := hasc.start_lt_stop hk
  rw [← tokenRange_of_getElem? hget]
  congr 1
  rw [Bool.eq_iff_iff, isDeleted_iff, isDeleted_iff]
  -- a deletion that has some position of a token takes the token
  have hwhole : ∀ d ∈ deletions, ∀ position, d.start ≤ position → position < d.stop →
      (tokenRange tokens k).start ≤ position → position < (tokenRange tokens k).stop →
      d.contains (tokenRange tokens k) = true := by
    intro d hd position hstart hstop hstart' hstop'
    obtain ⟨x, y, hcut⟩ := hcuts d hd
    by_cases hin : x ≤ k ∧ k < y
    · exact (hcut.contains_iff k hk).mpr hin
    · have := hcut.apart k hk hin
      omega
  constructor
  · rintro ⟨m, hm, hcontains⟩
    obtain ⟨hstart, hstop⟩ := ByteRange.contains_iff.mp hcontains
    obtain ⟨d, hd, hdstart, hdstop⟩ := (hremoved (tokenRange tokens k).start).mp
      (removedBy_iff.mpr ⟨m, hm, hstart, by omega⟩)
    exact ⟨d, hd, hwhole d hd _ hdstart hdstop le_rfl hlt⟩
  · rintro ⟨d, hd, hcontains⟩
    obtain ⟨hstart, hstop⟩ := ByteRange.contains_iff.mp hcontains
    have hcovered : ∀ position, (tokenRange tokens k).start ≤ position →
        position < (tokenRange tokens k).stop →
        ∃ m ∈ merged, m.start ≤ position ∧ position < m.stop := by
      intro position hle hlt
      exact removedBy_iff.mp ((hremoved position).mpr ⟨d, hd, by omega, by omega⟩)
    obtain ⟨m, hm, hmstart, hmstop⟩ := hcovered _ le_rfl hlt
    refine ⟨m, hm, ByteRange.contains_iff.mpr ⟨hmstart, ?_⟩⟩
    -- no other merged deletion goes on where this one ends
    by_contra hend
    obtain ⟨m', hm', hmstart', hmstop'⟩ := hcovered m.stop (by omega) (by omega)
    have hne : m ≠ m' := by
      rintro rfl
      omega
    obtain ⟨i, hi, rfl⟩ := getElem_of_mem hm
    obtain ⟨j, hj, rfl⟩ := getElem_of_mem hm'
    rcases Nat.lt_trichotomy i j with hij | rfl | hij
    · have := pairwise_iff_getElem.mp hgaps i j hi hj hij
      omega
    · exact hne rfl
    · have := pairwise_iff_getElem.mp hgaps j i hj hi hij
      omega

/-- What is left of a use item when the rewrite succeeds. -/
theorem rewriteUseItem_left {tk : Tokenizer} {inventory : SourceInventory} {item : WrittenUnit}
    {merged : List ByteRange} {pieceBoundaries : List Nat}
    (hvalid : ∀ leaf ∈ useLeaves inventory item, leaf.fullRange.start ≤ leaf.fullRange.stop)
    (htokens : tk.tokenizeBalancedRange inventory.original item.fullRange = .ok (tokens, pairs))
    (hrewrite : rewriteUseItem tk inventory item retained = .ok deletions)
    (hmerge : mergeDeletions inventory.original (deletions.insertionSort (· ≤ ·)) pieceBoundaries =
      .ok merged) :
    UseItemLeft tokens pairs (useLeaves inventory item) retained (leftTokens tokens merged) := by
  obtain ⟨hasc, h⟩ := Tokenizer.tokenizeBalancedRange_ok htokens
  have h : DelimitersMatch tokens pairs := h
  -- where all leaves are kept nothing is deleted
  have hall :
      deletions = [] → (∀ leaf ∈ useLeaves inventory item, isRetained retained leaf = true) →
      UseItemLeft tokens pairs (useLeaves inventory item) retained (leftTokens tokens merged) := by
    rintro rfl hkept
    cases hmerge
    refine useItemLeft_of_lists hasc h (by simp [Cuts]) (fun leaf hleaf hgone => ?_)
      (fun _ _ _ _ _ _ => rfl) fun q hq _ commas hcommas => ?_
    · rw [hkept leaf hleaf] at hgone
      cases hgone
    · exact listCut_of_none h hq hcommas (fun _ _ _ => rfl) fun gap _ =>
        gapSurvives_iff.mpr fun leaf hleaf hin => ⟨leaf, hleaf, hin, hkept leaf hleaf⟩
  unfold rewriteUseItem at hrewrite
  simp only at hrewrite
  obtain ⟨-, hrewrite⟩ := guard_ok hrewrite
  split at hrewrite
  · rename_i hnil
    cases hrewrite
    exact hall rfl (by simp [isEmpty_iff.mp hnil])
  · split at hrewrite
    · rename_i hcount
      cases hrewrite
      exact hall rfl (countP_eq_length.mp hcount)
    · obtain ⟨hsome, hrewrite⟩ := guard_ok hrewrite
      rw [htokens] at hrewrite
      simp only at hrewrite
      split at hrewrite
      · cases hrewrite
      · rename_i pair henclosing
        obtain ⟨hpair, hbrace, -, henclosed⟩ := enclosingBrace_some henclosing
        have hin : ∀ leaf ∈ useLeaves inventory item,
            (pair.interior tokens).contains leaf.fullRange = true := fun leaf hleaf =>
          henclosed _ (mem_map_of_mem hleaf)
        have hrewritten := rewriteGroup_spec hasc h hvalid hpair hbrace
          (fun leaf => ⟨fun hleaf => ⟨hleaf, hin leaf hleaf⟩, And.left⟩) hrewrite
        obtain ⟨kept, hkept, hretained⟩ := countP_pos_iff.mp (Nat.pos_of_ne_zero hsome)
        have hcuts : Cuts tokens pairs deletions := fun d hd =>
          (hrewritten.cut d hd).imp fun x hx => hx.imp fun y hy => hy.1
        rw [leftTokens_merge hasc hcuts hmerge]
        refine useItemLeft_of_lists hasc h hcuts
          (fun leaf hleaf => hrewritten.gone leaf hleaf (hin leaf hleaf))
          (fun leaf hleaf => hrewritten.kept leaf hleaf (hin leaf hleaf)) ?_
        intro q hq halive commas hcommas
        by_cases hqpair : pair.opening ≤ q.opening ∧ q.closing ≤ pair.closing
        · exact hrewritten.lists q hq hqpair.1 hqpair.2 halive commas hcommas
        · refine listCut_outside h hq hpair hcommas hqpair hrewritten.cut ?_
          exact gapSurvives_outside hasc h hq hpair hcommas hqpair hvalid
            (fun leaf hleaf _ => hin leaf hleaf) ⟨kept, hkept, hretained, hin kept hkept⟩

end Rewrite

/-- A lexer whose tokens are single characters. -/
def listTokenizer : Tokenizer where
  next
    | [] => none
    | '{' :: _ => some ⟨.openBrace, 1⟩
    | '}' :: _ => some ⟨.closeBrace, 1⟩
    | ',' :: _ => some ⟨.comma, 1⟩
    | c :: _ => some ⟨.other 0, c.utf8Size⟩
  glue _ _ := none
  next_pos text token h := by
    split at h
    · cases h
    · cases h
      exact Nat.one_pos
    · cases h
      exact Nat.one_pos
    · cases h
      exact Nat.one_pos
    · cases h
      exact Char.utf8Size_pos _

/-- A list whose second segment holds a list. -/
def nestedList : SourceInventory where
  original := ['{', 'a', ',', '{', 'b', ',', 'c', '}', ',', 'd', '}']
  units := [⟨⟨0⟩, .crateRoot, ⟨0, 11⟩, none, .active, ⟨0⟩, 0⟩,
    ⟨⟨1⟩, .useItem, ⟨0, 11⟩, some ⟨0⟩, .active, ⟨1⟩, 0⟩,
    ⟨⟨2⟩, .useLeaf, ⟨1, 2⟩, some ⟨1⟩, .active, ⟨2⟩, 0⟩,
    ⟨⟨3⟩, .useLeaf, ⟨4, 5⟩, some ⟨1⟩, .active, ⟨3⟩, 0⟩,
    ⟨⟨4⟩, .useLeaf, ⟨6, 7⟩, some ⟨1⟩, .active, ⟨4⟩, 0⟩,
    ⟨⟨5⟩, .useLeaf, ⟨9, 10⟩, some ⟨1⟩, .active, ⟨5⟩, 0⟩]
  pieces := []
  deriveTargets := []
  macroRules := []
  macroTemplates := []
  macroCaptureSlots := []
  macroRepetitions := []
  ownerlessAttributeInvocations := []

def nestedItem : WrittenUnit := ⟨⟨1⟩, .useItem, ⟨0, 11⟩, some ⟨0⟩, .active, ⟨1⟩, 0⟩

/-- Of four leaves the second is kept, in the list inside the list. -/
theorem rewriteUseItem_left_nested : ∃ tokens pairs merged,
    listTokenizer.tokenizeBalancedRange nestedList.original nestedItem.fullRange =
      .ok (tokens, pairs) ∧
    UseItemLeft tokens pairs (useLeaves nestedList nestedItem) [⟨0⟩, ⟨1⟩, ⟨3⟩]
      (leftTokens tokens merged) ∧
    (leftTokens tokens merged).map SourceToken.kind =
      [.openBrace, .openBrace, .other 0, .closeBrace, .closeBrace] := by
  have hrewrite : rewriteUseItem listTokenizer nestedList nestedItem [⟨0⟩, ⟨1⟩, ⟨3⟩] =
      .ok [⟨1, 3⟩, ⟨5, 7⟩, ⟨8, 10⟩] := rfl
  have hmerge : mergeDeletions nestedList.original
      (List.insertionSort (· ≤ ·) [⟨1, 3⟩, ⟨5, 7⟩, ⟨8, 10⟩]) [1, 3, 5, 7, 8, 10] =
      .ok [⟨1, 3⟩, ⟨5, 7⟩, ⟨8, 10⟩] := rfl
  exact ⟨_, _, _, rfl, rewriteUseItem_left (by decide) rfl hrewrite hmerge, rfl⟩

end ItemDependencies
