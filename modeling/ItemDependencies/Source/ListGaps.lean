import ItemDependencies.Source.UseItem

/-!
# The gaps of a list

The segments of a list by the numbers of the tokens around them.  A deletion
that takes whole tokens, and with a delimiter its partner, leaves a text whose
delimiters match, and what is left of a list is what is left of its gaps.
-/

namespace ItemDependencies

open Library Library.Brackets List

section Order

variable {tokens : List SourceToken} {a b i j k : Nat} {range : ByteRange}

theorem TokensAscend.start_lt_stop (h : TokensAscend tokens) (hk : k < tokens.length) :
    (tokenRange tokens k).start < (tokenRange tokens k).stop := by
  rw [tokenRange_of_getElem? (getElem?_eq_getElem hk)]
  exact h.nonempty _ (getElem_mem hk)

theorem TokensAscend.stop_le_start (h : TokensAscend tokens) (hij : i < j)
    (hj : j < tokens.length) : (tokenRange tokens i).stop ≤ (tokenRange tokens j).start := by
  have hi : i < tokens.length := hij.trans hj
  rw [tokenRange_of_getElem? (getElem?_eq_getElem hi),
    tokenRange_of_getElem? (getElem?_eq_getElem hj)]
  exact pairwise_iff_getElem.mp h.ascend i j hi hj hij

/-- The text between two tokens. -/
def between (tokens : List SourceToken) (a b : Nat) : ByteRange :=
  ⟨(tokenRange tokens a).stop, (tokenRange tokens b).start⟩

theorem TokensAscend.start_mono (h : TokensAscend tokens) (hij : i ≤ j) (hj : j < tokens.length) :
    (tokenRange tokens i).start ≤ (tokenRange tokens j).start := by
  rcases Nat.lt_or_eq_of_le hij with hlt | rfl
  · exact (h.start_lt_stop (hlt.trans hj)).le.trans (h.stop_le_start hlt hj)
  · exact le_rfl

theorem TokensAscend.stop_mono (h : TokensAscend tokens) (hij : i ≤ j) (hj : j < tokens.length) :
    (tokenRange tokens i).stop ≤ (tokenRange tokens j).stop := by
  rcases Nat.lt_or_eq_of_le hij with hlt | rfl
  · exact (h.stop_le_start hlt hj).trans (h.start_lt_stop hj).le
  · exact le_rfl

theorem TokensAscend.between_contains_between (h : TokensAscend tokens) (hai : a ≤ i)
    (hi : i < tokens.length) (hjb : j ≤ b) (hb : b < tokens.length) :
    (between tokens a b).contains (between tokens i j) = true :=
  ByteRange.contains_iff.mpr ⟨h.stop_mono hai hi, h.start_mono hjb hb⟩

/-- The tokens in the text between two tokens are those numbered between them. -/
theorem TokensAscend.between_contains (h : TokensAscend tokens) (ha : a < tokens.length)
    (hb : b < tokens.length) (hk : k < tokens.length) :
    (between tokens a b).contains (tokenRange tokens k) = true ↔ a < k ∧ k < b := by
  have hkk := h.start_lt_stop hk
  have haa := h.start_lt_stop ha
  have hbb := h.start_lt_stop hb
  have hiff : (between tokens a b).contains (tokenRange tokens k) = true ↔
      (tokenRange tokens a).stop ≤ (tokenRange tokens k).start ∧
        (tokenRange tokens k).stop ≤ (tokenRange tokens b).start := ByteRange.contains_iff
  rw [hiff]
  constructor
  · rintro ⟨hstart, hstop⟩
    constructor
    · rcases Nat.lt_trichotomy a k with hlt | rfl | hlt
      · exact hlt
      · omega
      · have := h.stop_le_start hlt ha
        omega
    · rcases Nat.lt_trichotomy k b with hlt | rfl | hlt
      · exact hlt
      · omega
      · have := h.stop_le_start hlt hk
        omega
  · rintro ⟨hak, hkb⟩
    exact ⟨h.stop_le_start hak hk, h.stop_le_start hkb hb⟩

theorem TokensAscend.tokensIn_between (h : TokensAscend tokens) (hab : a < b)
    (hb : b < tokens.length) :
    tokensIn tokens (between tokens a b) = (tokens.take b).drop (a + 1) := by
  have ha := hab.trans hb
  have hcontains : ∀ k (hk : k < tokens.length),
      (between tokens a b).contains tokens[k].range = true ↔ a < k ∧ k < b := by
    intro k hk
    rw [← h.between_contains ha hb hk, tokenRange_of_getElem? (getElem?_eq_getElem hk)]
  have htokens :
      tokens = tokens.take (a + 1) ++ ((tokens.take b).drop (a + 1) ++ tokens.drop b) := by
    have htake : tokens.take (a + 1) = (tokens.take b).take (a + 1) := by
      rw [take_take, Nat.min_eq_left hab]
    rw [htake, ← append_assoc, take_append_drop, take_append_drop]
  have hfront : (tokens.take (a + 1)).filter
      (fun token => (between tokens a b).contains token.range) = [] := by
    refine filter_eq_nil_iff.mpr fun token htoken hin => ?_
    obtain ⟨k, hk, rfl⟩ := getElem_of_mem htoken
    rw [getElem_take] at hin
    rw [length_take] at hk
    have := (hcontains k (by omega)).mp hin
    omega
  have hback : (tokens.drop b).filter
      (fun token => (between tokens a b).contains token.range) = [] := by
    refine filter_eq_nil_iff.mpr fun token htoken hin => ?_
    obtain ⟨k, hk, rfl⟩ := getElem_of_mem htoken
    rw [getElem_drop] at hin
    rw [length_drop] at hk
    have := (hcontains (b + k) (by omega)).mp hin
    omega
  have hmid : ((tokens.take b).drop (a + 1)).filter
      (fun token => (between tokens a b).contains token.range) = (tokens.take b).drop (a + 1) := by
    refine filter_eq_self.mpr fun token htoken => ?_
    obtain ⟨k, hk, rfl⟩ := getElem_of_mem htoken
    rw [length_drop, length_take] at hk
    rw [getElem_drop, getElem_take]
    exact (hcontains _ (by omega)).mpr ⟨by omega, by omega⟩
  unfold tokensIn
  conv_lhs => arg 2; rw [htokens]
  rw [filter_append, filter_append, hfront, hmid, hback, nil_append, append_nil]

end Order

/-! ## Pairs of delimiters -/

section Pairs

variable {tokens : List SourceToken} {pairs : List DelimiterPair} {pair p q : DelimiterPair}
  {commas marks : List Nat} {a b c k first last : Nat}

/-- The delimiters of some tokens match, in these pairs. -/
def DelimitersMatch (tokens : List SourceToken) (pairs : List DelimiterPair) : Prop :=
  Matches SourceToken.mark tokens (pairs.map DelimiterPair.bracketPair)

namespace DelimitersMatch

variable (h : DelimitersMatch tokens pairs)

include h

theorem opening_lt_closing (hp : p ∈ pairs) : p.opening < p.closing :=
  Matches.first_lt_last h (mem_map_of_mem hp)

theorem closing_lt_length (hp : p ∈ pairs) : p.closing < tokens.length :=
  Matches.last_lt h (mem_map_of_mem hp)

theorem eq_or (hp : p ∈ pairs) (hq : q ∈ pairs) :
    p = q ∨ (p.closing < q.closing ∧ (q.opening < p.opening ∨ p.closing < q.opening)) ∨
      (q.closing < p.closing ∧ (p.opening < q.opening ∨ q.closing < p.opening)) :=
  (Matches.eq_or h (mem_map_of_mem hp) (mem_map_of_mem hq)).imp_left fun heq =>
    DelimiterPair.bracketPair_injective heq

/-- A comma is not a delimiter. -/
theorem comma_ne (hp : p ∈ pairs) {x : SourceToken} (hx : tokens[c]? = some x)
    (hkind : x.kind = .comma) : c ≠ p.opening ∧ c ≠ p.closing := by
  have hplain := SourceToken.mark_of_comma hkind
  constructor
  · rintro rfl
    obtain ⟨y, hy, hopening⟩ := Matches.opening h (mem_map_of_mem hp)
    obtain rfl : x = y := Option.some.inj (hx.symm.trans hy)
    rw [hplain] at hopening
    cases hopening
  · rintro rfl
    obtain ⟨y, hy, hclosing⟩ := Matches.closing h (mem_map_of_mem hp)
    obtain rfl : x = y := Option.some.inj (hx.symm.trans hy)
    rw [hplain] at hclosing
    cases hclosing

end DelimitersMatch

/-! ## The gaps between commas -/

theorem mem_gaps (hsorted : (first :: marks).Pairwise (· < ·))
    (hlast : ∀ m ∈ first :: marks, m < last)
    (hgap : (a, b) ∈ gaps first marks last) :
    a < b ∧ (a = first ∨ a ∈ marks) ∧ (b = last ∨ b ∈ marks) ∧ ∀ m ∈ marks, m ≤ a ∨ b ≤ m := by
  induction marks generalizing first with
  | nil =>
    obtain ⟨rfl, rfl⟩ : a = first ∧ b = last := by simpa using hgap
    exact ⟨hlast a (by simp), .inl rfl, .inl rfl, by simp⟩
  | cons mark marks ih =>
    obtain ⟨hfirst, hrest⟩ := pairwise_cons.mp hsorted
    rw [gaps_cons, mem_cons] at hgap
    rcases hgap with heq | hgap
    · obtain ⟨rfl, rfl⟩ := Prod.mk.inj heq
      refine ⟨hfirst b (by simp), .inl rfl, .inr (by simp), fun m hm => .inr ?_⟩
      rcases mem_cons.mp hm with rfl | hm
      · exact le_rfl
      · exact ((pairwise_cons.mp hrest).1 m hm).le
    · obtain ⟨hlt, ha, hb, hbetween⟩ := ih hrest (fun m hm => hlast m (by simp [hm])) hgap
      have hmark : mark ≤ a := by
        rcases ha with rfl | ha
        · exact le_rfl
        · exact ((pairwise_cons.mp hrest).1 a ha).le
      refine ⟨hlt, .inr (mem_cons.mpr ha), hb.imp_right (mem_cons_of_mem _), ?_⟩
      intro m hm
      rcases mem_cons.mp hm with rfl | hm
      · exact .inl hmark
      · exact hbetween m hm

theorem gaps_disjoint (hsorted : (first :: marks).Pairwise (· < ·))
    (hlast : ∀ m ∈ first :: marks, m < last) {a' b' : Nat} (hgap : (a, b) ∈ gaps first marks last)
    (hgap' : (a', b') ∈ gaps first marks last) : b ≤ a' ∨ b' ≤ a ∨ a = a' ∧ b = b' := by
  obtain ⟨hab, ha, hb, -⟩ := mem_gaps hsorted hlast hgap
  obtain ⟨hab', ha', hb', -⟩ := mem_gaps hsorted hlast hgap'
  have hfirst : ∀ m ∈ marks, first < m := (pairwise_cons.mp hsorted).1
  have hlast : ∀ m ∈ marks, m < last := fun m hm => hlast m (by simp [hm])
  have hfree : ∀ {a b x : Nat}, (a, b) ∈ gaps first marks last →
      (x = first ∨ x ∈ marks) ∨ x = last ∨ x ∈ marks → x ≤ a ∨ b ≤ x := by
    intro a b x hgap hx
    obtain ⟨-, ha, hb, hbetween⟩ := mem_gaps hsorted ‹_› hgap
    rcases hx with (rfl | hx) | rfl | hx
    · exact .inl (ha.elim (fun h => h.ge) fun h => (hfirst a h).le)
    · exact hbetween x hx
    · exact .inr (hb.elim (fun h => h.le) fun h => (hlast b h).le)
    · exact hbetween x hx
  have h₁ := hfree hgap (.inl ha')
  have h₂ := hfree hgap (.inr hb')
  have h₃ := hfree hgap' (.inl ha)
  have h₄ := hfree hgap' (.inr hb)
  omega

/-- A token that is not a mark lies in a gap. -/
theorem exists_gap (hfirst : first < k) (hlast : k < last) (hk : k ∉ marks) :
    ∃ gap ∈ gaps first marks last, gap.1 < k ∧ k < gap.2 := by
  induction marks generalizing first with
  | nil => exact ⟨(first, last), by simp, hfirst, hlast⟩
  | cons mark marks ih =>
    rw [mem_cons, not_or] at hk
    rcases Nat.lt_or_gt_of_ne hk.1 with hlt | hlt
    · exact ⟨(first, mark), by simp, hfirst, hlt⟩
    · obtain ⟨gap, hgap, hk⟩ := ih hlt hk.2
      exact ⟨gap, by simp [hgap], hk⟩

/-- The place of a segment of a list: what lies in it matches on its own, and its commas lie
inside inner delimiters. -/
structure IsGap (tokens : List SourceToken) (pairs : List DelimiterPair) (pair : DelimiterPair)
    (a b : Nat) : Prop where
  lt : a < b
  opening_le : pair.opening ≤ a
  le_closing : b ≤ pair.closing
  length : b < tokens.length
  level : ∀ q ∈ pairs, pair.opening < q.opening → q.opening ≤ a → q.closing ≤ a
  pair_iff : ∀ q ∈ pairs, a < q.opening ∧ q.opening < b ↔ a < q.closing ∧ q.closing < b
  ne_left : ∀ q ∈ pairs, q ≠ pair → a ≠ q.opening ∧ a ≠ q.closing
  ne_right : ∀ q ∈ pairs, q ≠ pair → b ≠ q.opening ∧ b ≠ q.closing
  enclosed : ∀ k x, a < k → k < b → tokens[k]? = some x → x.kind = .comma →
    ∃ q ∈ pairs, a < q.opening ∧ q.opening < k ∧ k < q.closing ∧ q.closing < b
  scan : ∃ inner, Scans SourceToken.mark (a + 1) [] ((tokens.take b).drop (a + 1)) [] inner ∧
    ∀ q, q ∈ inner ↔ q ∈ pairs.map DelimiterPair.bracketPair ∧ a + 1 ≤ q.first ∧ q.last < b

theorem ListCommas.sorted_cons (hcommas : ListCommas tokens pairs pair commas) :
    (pair.opening :: commas).Pairwise (· < ·) :=
  pairwise_cons.mpr ⟨fun c hc => ((hcommas.mem_iff c).mp hc).1, hcommas.sorted⟩

theorem ListCommas.lt_closing (hcommas : ListCommas tokens pairs pair commas)
    (h : DelimitersMatch tokens pairs) (hp : pair ∈ pairs) :
    ∀ m ∈ pair.opening :: commas, m < pair.closing :=
  forall_mem_cons.mpr ⟨h.opening_lt_closing hp, fun c hc => ((hcommas.mem_iff c).mp hc).2.1⟩

theorem ListCommas.isGap (hcommas : ListCommas tokens pairs pair commas)
    (h : DelimitersMatch tokens pairs) (hp : pair ∈ pairs)
    (hgap : (a, b) ∈ gaps pair.opening commas pair.closing) : IsGap tokens pairs pair a b := by
  have hlen := h.closing_lt_length hp
  obtain ⟨hab, ha, hb, hbetween⟩ := mem_gaps hcommas.sorted_cons (hcommas.lt_closing h hp) hgap
  have hopening : pair.opening ≤ a := by
    rcases ha with rfl | ha
    · exact le_rfl
    · exact ((hcommas.mem_iff a).mp ha).1.le
  have hclosing : b ≤ pair.closing := by
    rcases hb with rfl | hb
    · exact le_rfl
    · exact ((hcommas.mem_iff b).mp hb).2.1.le
  have hlevela : ∀ q ∈ pairs, pair.opening < q.opening → q.opening ≤ a → q.closing ≤ a := by
    intro q hq hpq hqa
    rcases ha with rfl | ha
    · omega
    · obtain ⟨-, -, ⟨x, hx, hkind⟩, hlevel⟩ := (hcommas.mem_iff a).mp ha
      have hne := h.comma_ne hq hx hkind
      exact (hlevel q hq hpq (by omega)).le
  have hlevelb : ∀ q ∈ pairs, pair.opening < q.opening → q.opening < b → q.closing < b := by
    intro q hq hpq hqb
    rcases hb with rfl | hb
    · rcases h.eq_or hp hq with rfl | hor | hor <;> omega
    · exact ((hcommas.mem_iff b).mp hb).2.2.2 q hq hpq hqb
  have hne : ∀ {m : Nat}, m ∈ commas → ∀ q ∈ pairs, m ≠ q.opening ∧ m ≠ q.closing := by
    intro m hm q hq
    obtain ⟨-, -, ⟨x, hx, hkind⟩, -⟩ := (hcommas.mem_iff m).mp hm
    exact h.comma_ne hq hx hkind
  refine ⟨hab, hopening, hclosing, by omega, hlevela, fun q hq => ?_, fun q hq hqp => ?_,
    fun q hq hqp => ?_,
    fun k x hak hkb hx hkind => ?_, ?_⟩
  · have := h.opening_lt_closing hq
    constructor
    · rintro ⟨haq, hqb⟩
      have := hlevelb q hq (by omega) hqb
      omega
    · rintro ⟨haq, hqb⟩
      -- the pair is opened behind the list's own delimiter, and not before the gap
      rcases h.eq_or hp hq with rfl | hor | hor
      · omega
      · omega
      · have := hlevela q hq (by omega)
        omega
  · rcases ha with rfl | ha
    · have := h.opening_lt_closing hq
      rcases h.eq_or hp hq with heq | hor | hor
      · exact absurd heq.symm hqp
      · omega
      · omega
    · exact hne ha q hq
  · rcases hb with rfl | hb
    · have := h.opening_lt_closing hq
      rcases h.eq_or hp hq with heq | hor | hor
      · exact absurd heq.symm hqp
      · omega
      · omega
    · exact hne hb q hq
  · have hk : k ∉ commas := by
      intro hk
      have := hbetween k hk
      omega
    have hex : ∃ q ∈ pairs, pair.opening < q.opening ∧ q.opening < k ∧ ¬q.closing < k := by
      by_contra hall
      refine hk
        ((hcommas.mem_iff k).mpr ⟨by omega, by omega, ⟨x, hx, hkind⟩, fun q hq hpq hqk => ?_⟩)
      by_contra hlast
      exact hall ⟨q, hq, hpq, hqk, hlast⟩
    obtain ⟨q, hq, hpq, hqk, hlast⟩ := hex
    have hkq := (h.comma_ne hq hx hkind).2
    have hb := hlevelb q hq hpq (by omega)
    have ha := hlevela q hq hpq
    exact ⟨q, hq, by omega, hqk, by omega, hb⟩
  · refine Matches.segment h (mem_map_of_mem hp) (Nat.lt_succ_of_le hopening) hab hclosing ?_ ?_
    · intro q hq hpq hqa
      obtain ⟨q, hq', rfl⟩ := mem_map.mp hq
      exact Nat.lt_succ_of_le (hlevela q hq' hpq (Nat.le_of_lt_succ hqa))
    · intro q hq hpq hqb
      obtain ⟨q, hq', rfl⟩ := mem_map.mp hq
      exact hlevelb q hq' hpq hqb

end Pairs

/-! ## Deletions of whole tokens -/

/-- A deletion takes the tokens from one number up to another, and with a delimiter its partner. -/
structure Cut (tokens : List SourceToken) (pairs : List DelimiterPair) (deletion : ByteRange)
    (x y : Nat) : Prop where
  contains_iff : ∀ k < tokens.length, deletion.contains (tokenRange tokens k) = true ↔ x ≤ k ∧ k < y
  apart : ∀ k < tokens.length, ¬(x ≤ k ∧ k < y) →
    (tokenRange tokens k).stop ≤ deletion.start ∨ deletion.stop ≤ (tokenRange tokens k).start
  pair_iff : ∀ q ∈ pairs, x ≤ q.opening ∧ q.opening < y ↔ x ≤ q.closing ∧ q.closing < y

/-- All deletions take whole tokens, and with a delimiter its partner. -/
def Cuts (tokens : List SourceToken) (pairs : List DelimiterPair) (deletions : List ByteRange) :
    Prop :=
  ∀ deletion ∈ deletions, ∃ x y, Cut tokens pairs deletion x y

section Cuts

variable {tokens : List SourceToken} {pairs : List DelimiterPair} {pair q : DelimiterPair}
  {deletions : List ByteRange} {a b k : Nat}

theorem isDeleted_iff {range : ByteRange} :
    isDeleted deletions range = true ↔ ∃ d ∈ deletions, d.contains range = true := any_eq_true

theorem Cuts.pair_eq (hcuts : Cuts tokens pairs deletions) (h : DelimitersMatch tokens pairs)
    (hq : q ∈ pairs) : isDeleted deletions (tokenRange tokens q.opening) =
      isDeleted deletions (tokenRange tokens q.closing) := by
  have hlt := h.opening_lt_closing hq
  have hlen := h.closing_lt_length hq
  rw [Bool.eq_iff_iff, isDeleted_iff, isDeleted_iff]
  refine exists_congr fun d => and_congr_right fun hd => ?_
  obtain ⟨x, y, hcut⟩ := hcuts d hd
  rw [hcut.contains_iff _ (hlt.trans hlen), hcut.contains_iff _ hlen]
  exact hcut.pair_iff q hq

/-- What lies between two delimiters is deleted with them. -/
theorem Cuts.deleted_inside (hcuts : Cuts tokens pairs deletions) (h : DelimitersMatch tokens pairs)
    (hq : q ∈ pairs) (hopening : isDeleted deletions (tokenRange tokens q.opening) = true)
    (hk : q.opening ≤ k) (hk' : k ≤ q.closing) :
    isDeleted deletions (tokenRange tokens k) = true := by
  have hlt := h.opening_lt_closing hq
  have hlen := h.closing_lt_length hq
  obtain ⟨d, hd, hcontains⟩ := isDeleted_iff.mp hopening
  obtain ⟨x, y, hcut⟩ := hcuts d hd
  have hrange := (hcut.contains_iff _ (hlt.trans hlen)).mp hcontains
  have hrange' := (hcut.pair_iff q hq).mp hrange
  exact isDeleted_iff.mpr ⟨d, hd, (hcut.contains_iff k (by omega)).mpr (by omega)⟩

theorem Cuts.balanced (hcuts : Cuts tokens pairs deletions) (h : DelimitersMatch tokens pairs) :
    Balanced SourceToken.mark (leftTokens tokens deletions) := by
  refine Matches.balanced_filter (fun token => isDeleted deletions token.range)
    (fun k => isDeleted deletions (tokenRange tokens k)) h (fun j x hj => ?_) fun p hp => ?_
  · rw [tokenRange_of_getElem? hj]
  · obtain ⟨q, hq, rfl⟩ := mem_map.mp hp
    exact hcuts.pair_eq h hq

/-- What is left between two tokens. -/
def leftBetween (tokens : List SourceToken) (deletions : List ByteRange) (a b : Nat) :
    List SourceToken :=
  ((tokens.take b).drop (a + 1)).filter fun token => !isDeleted deletions token.range

theorem tokensIn_leftTokens (h : TokensAscend tokens) (hab : a < b) (hb : b < tokens.length) :
    tokensIn (leftTokens tokens deletions) (between tokens a b) =
      leftBetween tokens deletions a b := by
  rw [leftBetween, ← h.tokensIn_between hab hb]
  unfold tokensIn leftTokens
  rw [filter_filter, filter_filter]
  congr 1
  funext token
  exact Bool.and_comm _ _

/-- What is left of a segment belongs to one piece of what is left of its list. -/
theorem IsGap.commaPieces_append (hgap : IsGap tokens pairs pair a b)
    (hcuts : Cuts tokens pairs deletions) (h : DelimitersMatch tokens pairs)
    (rest : List SourceToken) :
    commaPieces (leftBetween tokens deletions a b ++ rest) =
      prepend (leftBetween tokens deletions a b) (commaPieces rest) := by
  obtain ⟨inner, hscan, hinner⟩ := hgap.scan
  have hget : ∀ {j : Nat} {x : SourceToken}, ((tokens.take b).drop (a + 1))[j]? = some x →
      a + 1 + j < b ∧ tokens[a + 1 + j]? = some x := by
    intro j x hj
    rw [getElem?_drop, getElem?_take] at hj
    exact Option.ite_none_right_eq_some.mp hj
  refine Scans.splitTop_filter (fun token => isDeleted deletions token.range)
    (fun k => isDeleted deletions (tokenRange tokens k)) hscan descends_nil
    (fun j x hj => ?_) (fun p hp => ?_) fun j x hj hcomma halive => ?_
  · rw [tokenRange_of_getElem? (hget hj).2]
  · obtain ⟨q, hq, rfl⟩ := mem_map.mp ((hinner p).mp hp).1
    exact hcuts.pair_eq h hq
  · obtain ⟨hlt, hx⟩ := hget hj
    obtain ⟨q, hq, haq, hqk, hkq, hqb⟩ := hgap.enclosed (a + 1 + j) x (by omega) hlt hx
      (by simpa using hcomma)
    refine ⟨q.bracketPair, (hinner _).mpr ⟨mem_map_of_mem hq, haq, hqb⟩, hqk, hkq, ?_⟩
    -- were the delimiter deleted, then the comma with it
    cases hgone : isDeleted deletions (tokenRange tokens q.opening) with
    | false => exact hgone
    | true =>
      rw [hcuts.deleted_inside h hq hgone hqk.le hkq.le] at halive
      cases halive

/-! ## What is left of a list -/

theorem commaPieces_comma {x : SourceToken} (hx : x.kind = .comma) (rest : List SourceToken) :
    commaPieces (x :: rest) = [] :: commaPieces rest := by
  rw [commaPieces, splitTop, if_pos (by simp [hx])]
  rfl

theorem leftBetween_split (deletions : List ByteRange) (hak : a < k) (hkb : k < b)
    (hb : b ≤ tokens.length) :
    leftBetween tokens deletions a b = leftBetween tokens deletions a k ++
      ((tokens[k]?.toList.filter fun token => !isDeleted deletions token.range) ++
        leftBetween tokens deletions k b) := by
  have hk : k < tokens.length := by omega
  have hleft : (tokens.take b).take k = tokens.take k := by
    rw [take_take, Nat.min_eq_left hkb.le]
  have hlen : (tokens.take k).length = k := by
    rw [length_take]
    omega
  have hword : (tokens.take b).drop (a + 1) =
      (tokens.take k).drop (a + 1) ++ (tokens[k]?.toList ++ (tokens.take b).drop (k + 1)) := by
    have hdrop : (tokens.take b).drop k = tokens[k]?.toList ++ (tokens.take b).drop (k + 1) := by
      have hlt : k < (tokens.take b).length := by
        rw [length_take]
        omega
      rw [drop_eq_getElem_cons hlt, getElem_take, getElem?_eq_getElem hk]
      rfl
    rw [← hdrop, ← drop_append_of_le_length (by omega), ← hleft, take_append_drop]
  rw [leftBetween, hword, filter_append, filter_append]
  rfl

theorem leftBetween_eq_nil (hb : b ≤ tokens.length)
    (h : ∀ k, a < k → k < b → isDeleted deletions (tokenRange tokens k) = true) :
    leftBetween tokens deletions a b = [] := by
  refine filter_eq_nil_iff.mpr fun token htoken => ?_
  obtain ⟨k, hk, rfl⟩ := getElem_of_mem htoken
  rw [length_drop, length_take] at hk
  rw [getElem_drop, getElem_take]
  have hdeleted := h (a + 1 + k) (by omega) (by omega)
  rw [tokenRange_of_getElem? (getElem?_eq_getElem (by omega))] at hdeleted
  simp [hdeleted]

/-- A deleted segment is deleted with the comma behind it, or else the one before it, and no other
comma is deleted. -/
structure SegmentsCut (tokens : List SourceToken) (deletions : List ByteRange)
    (survives : Nat × Nat → Bool) (gaps : List (Nat × Nat)) (last : Nat) : Prop where
  gone : ∀ gap ∈ gaps, survives gap = false → ∀ k, gap.1 < k → k < gap.2 →
    isDeleted deletions (tokenRange tokens k) = true
  comma : ∀ gap ∈ gaps, gap.2 ≠ last → (isDeleted deletions (tokenRange tokens gap.2) = true ↔
    survives gap = false ∨ (gap.2, last) ∈ gaps ∧ survives (gap.2, last) = false)

theorem commaPieces_leftBetween (h : DelimitersMatch tokens pairs)
    (hcuts : Cuts tokens pairs deletions) {survives : Nat × Nat → Bool} {first last : Nat}
    {marks : List Nat} (hsorted : (first :: marks).Pairwise (· < ·))
    (hlast : ∀ m ∈ first :: marks, m < last) (hlen : last < tokens.length)
    (hcommas : ∀ m ∈ marks, ∃ x, tokens[m]? = some x ∧ x.kind = .comma)
    (hgaps : ∀ gap ∈ gaps first marks last, IsGap tokens pairs pair gap.1 gap.2)
    (hcut : SegmentsCut tokens deletions survives (gaps first marks last) last) :
    let pieces := commaPieces (leftBetween tokens deletions first last)
    let survivors := ((gaps first marks last).filter survives).map fun gap =>
      leftBetween tokens deletions gap.1 gap.2
    pieces = survivors ∨
      pieces = survivors ++ [[]] ∧ ∀ gap ∈ gaps first marks last, gap.2 = last →
        survives gap = false := by
  intro pieces survivors
  have hwhole : ∀ gap ∈ gaps first marks last,
      commaPieces (leftBetween tokens deletions gap.1 gap.2) =
        [leftBetween tokens deletions gap.1 gap.2] := by
    intro gap hgap
    have happend := (hgaps gap hgap).commaPieces_append hcuts h []
    rw [append_nil] at happend
    rw [happend]
    simp [commaPieces, splitTop, prepend]
  induction marks generalizing first with
  | nil =>
    cases hsurvives : survives (first, last) with
    | true =>
      left
      simp only [pieces, survivors, gaps_nil, filter_cons_of_pos hsurvives, filter_nil,
        map_cons, map_nil]
      exact hwhole (first, last) (by simp)
    | false =>
      right
      have hnil : leftBetween tokens deletions first last = [] :=
        leftBetween_eq_nil hlen.le (hcut.gone (first, last) (by simp) hsurvives)
      simp [pieces, survivors, hsurvives, hnil, commaPieces, splitTop]
  | cons mark marks ih =>
    obtain ⟨hfirst, hrest⟩ := pairwise_cons.mp hsorted
    have hmark : first < mark := hfirst mark (by simp)
    have hmarklast : mark < last := hlast mark (by simp)
    obtain ⟨x, hx, hkind⟩ := hcommas mark (by simp)
    have hmem : ∀ {gap}, gap ∈ gaps mark marks last → gap ∈ gaps first (mark :: marks) last :=
      fun hgap => by simp [hgap]
    have hcut' : SegmentsCut tokens deletions survives (gaps mark marks last) last := by
      refine ⟨fun gap hgap => hcut.gone gap (hmem hgap), fun gap hgap hne => ?_⟩
      rw [hcut.comma gap (hmem hgap) hne, gaps_cons, mem_cons]
      refine or_congr_right (and_congr_left fun _ => or_iff_right ?_)
      rintro heq
      exact hmarklast.ne (Prod.mk.inj heq).2.symm
    have hih := ih hrest (fun m hm => hlast m (by simp [hm])) (fun m hm => hcommas m (by simp [hm]))
      (fun gap hgap => hgaps gap (hmem hgap)) hcut' fun gap hgap => hwhole gap (hmem hgap)
    have hdeleted := hcut.comma (first, mark) (by simp) hmarklast.ne
    have hsplit := leftBetween_split deletions hmark hmarklast hlen.le
    rw [hx, Option.toList_some, filter_singleton] at hsplit
    rw [tokenRange_of_getElem? hx] at hdeleted
    simp only [pieces, survivors, gaps_cons]
    cases hsurvives : survives (first, mark) with
    | false =>
      -- the segment goes with the comma behind it
      have hnil : leftBetween tokens deletions first mark = [] :=
        leftBetween_eq_nil (hmarklast.trans hlen).le (hcut.gone (first, mark) (by simp) hsurvives)
      have hcomma := hdeleted.mpr (.inl hsurvives)
      rw [hnil, hcomma] at hsplit
      rw [filter_cons_of_neg (by simp [hsurvives]), hsplit]
      refine hih.imp_right fun hlast => ⟨hlast.1, ?_⟩
      exact forall_mem_cons.mpr ⟨fun _ => hsurvives, hlast.2⟩
    | true =>
      rw [filter_cons_of_pos hsurvives, map_cons]
      cases hcomma : isDeleted deletions x.range with
      | false =>
        have hgap := hgaps (first, mark) (by simp)
        rw [hcomma] at hsplit
        have hpieces : commaPieces (leftBetween tokens deletions first last) =
            leftBetween tokens deletions first mark ::
              commaPieces (leftBetween tokens deletions mark last) := by
          rw [hsplit]
          refine (hgap.commaPieces_append hcuts h _).trans ?_
          rw [Bool.not_false, cond_true, singleton_append, commaPieces_comma hkind]
          simp [prepend]
        rw [hpieces]
        refine hih.imp (fun heq => by rw [heq]) fun hlast => ⟨by rw [hlast.1]; rfl, ?_⟩
        exact forall_mem_cons.mpr ⟨fun heq => absurd heq hmarklast.ne, hlast.2⟩
      | true =>
        -- the comma goes with the last segment, which is the next one
        obtain ⟨hnext, hgone⟩ : (mark, last) ∈ gaps first (mark :: marks) last ∧
          survives (mark, last) = false := (hdeleted.mp hcomma).resolve_left (by simp [hsurvives])
        rw [gaps_cons, mem_cons] at hnext
        have hnext := hnext.resolve_left fun heq => hmark.ne (Prod.mk.inj heq).1.symm
        obtain rfl : marks = [] := by
          cases marks with
          | nil => rfl
          | cons next marks =>
            obtain ⟨-, -, -, hbetween⟩ := mem_gaps hrest (fun m hm => hlast m (by simp [hm])) hnext
            have := (pairwise_cons.mp hrest).1 next (by simp)
            have := hlast next (by simp)
            have := hbetween next (by simp)
            omega
        have hnil : leftBetween tokens deletions mark last = [] :=
          leftBetween_eq_nil hlen.le (hcut'.gone (mark, last) hnext hgone)
        rw [hcomma, hnil] at hsplit
        left
        have hnone : [(mark, last)].filter survives = [] := by simp [hgone]
        have hone := hwhole (first, mark) (by simp)
        rw [gaps_nil, hnone, map_nil, hsplit]
        simpa using hone

end Cuts

end ItemDependencies
