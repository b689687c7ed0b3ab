import ItemDependencies.Expansion.OutputSweep

/-!
# Product ranges and intervals

The class of a token is the smallest product range around it.  It is the same
for all tokens between two neighbouring positions, since nothing starts or stops
there.
-/

namespace ItemDependencies

open Library OutputClasses List

namespace OutputClasses

variable {classByRange : SortedMap MacroOutputRange Nat} {sourceOwner : Option DefinitionId}
  {ledger : ValidatedMacroOutputLedger}
  {productsByRange : SortedMap MacroOutputRange (Finset GraphNode)}
  {products : List ObservedProduct} {entries : List (MacroOutputRange × Finset GraphNode)}
  {range : MacroOutputRange} {pair : Nat × Nat} {token : Nat} {classes : ProductClasses}

/-! ## Numbers of ranges -/

/-- The distinct ranges of some products, in order. -/
def productRanges (products : List ObservedProduct) : List MacroOutputRange :=
  sortDedup (products.map ObservedProduct.output)

theorem mem_productRanges :
    range ∈ productRanges products ↔ ∃ product ∈ products, product.output = range := by
  simp [productRanges]

/-- The products are filed under their ranges. -/
structure Filed (products : List ObservedProduct)
    (productsByRange : SortedMap MacroOutputRange (Finset GraphNode)) : Prop where
  keys : ∀ range, range ∈ productsByRange.keys ↔ ∃ product ∈ products, product.output = range
  nodes : ∀ range node, node ∈ (productsByRange.get range).getD ∅ ↔ ⟨range, node⟩ ∈ products

theorem Filed.add {done : List ObservedProduct} {product : ObservedProduct}
    (h : Filed done productsByRange) :
    Filed (done ++ [product]) (productsByRange.insert product.output
      (insert product.product ((productsByRange.get product.output).getD ∅))) := by
  refine ⟨fun range => ?_, fun range node => ?_⟩
  · rw [SortedMap.mem_keys_insert, h.keys]
    simp [or_and_right, exists_or, or_comm, eq_comm]
  · rw [SortedMap.get_insert]
    split
    case isTrue heq =>
      subst heq
      simp [h.nodes, or_comm, ObservedProduct.ext_iff]
    case isFalse hne =>
      have hother : (⟨range, node⟩ : ObservedProduct) ≠ product := fun heq => hne (by rw [← heq])
      simp [h.nodes, hother]

theorem foldlM_addProduct (hnodup : products.Nodup)
    (hlive : ∀ product ∈ products, product.output ∈ ledger.liveOutputs) :
    ∃ productsByRange, products.foldlM (addProduct ledger) .empty = .ok productsByRange ∧
      Filed products productsByRange := by
  apply foldlM_total
  · intro done product rest productsByRange hsplit hfiled
    have hnew : product ∉ done := by
      rw [hsplit] at hnodup
      exact fun hmem => (nodup_append.mp hnodup).2.2 product hmem product (by simp) rfl
    have hcontains : ledger.containsLiveOutput product.output = true :=
      contains_iff_mem.mpr (hlive product (by simp [hsplit]))
    have hnotin : product.product ∉ (productsByRange.get product.output).getD ∅ :=
      fun hmem => hnew ((hfiled.nodes _ _).mp hmem)
    refine ⟨_, ?_, hfiled.add⟩
    rw [addProduct, if_neg (by simp [hcontains, hnotin])]
    rfl
  · exact ⟨by simp [SortedMap.empty, SortedMap.keys], by simp⟩

/-- Filing fails at a product that is not live or that has been filed before. -/
theorem of_foldlM_addProduct
    (h : products.foldlM (addProduct ledger) .empty = .ok productsByRange) :
    products.Nodup ∧ ∀ product ∈ products, product.output ∈ ledger.liveOutputs := by
  let P (done : List ObservedProduct)
      (productsByRange : SortedMap MacroOutputRange (Finset GraphNode)) : Prop :=
    Filed done productsByRange ∧ done.Nodup ∧ ∀ product ∈ done, product.output ∈ ledger.liveOutputs
  have hstep : ∀ done product s t, P done s → addProduct ledger s product = .ok t →
      P (done ++ [product]) t := by
    rintro done product s t ⟨hfiled, hnodup, hlive⟩ hadd
    rw [addProduct] at hadd
    obtain ⟨hok, hadd⟩ := guard_ok hadd
    cases hadd
    simp only [Bool.or_eq_true, Bool.not_eq_true', decide_eq_true_eq, not_or,
      Bool.not_eq_false] at hok
    refine ⟨hfiled.add, nodup_append.mpr ⟨hnodup, by simp, ?_⟩, ?_⟩
    · rintro a ha b hb rfl
      obtain rfl := mem_singleton.mp hb
      exact hok.2 ((hfiled.nodes _ _).mpr ha)
    · intro other hother
      rcases mem_append.mp hother with hother | hother
      · exact hlive other hother
      · obtain rfl := mem_singleton.mp hother
        exact contains_iff_mem.mp hok.1
  have hP : P products productsByRange := foldlM_ok hstep
    ⟨⟨by simp [SortedMap.empty, SortedMap.keys], by simp⟩, .nil, by simp⟩ h
  exact hP.2

theorem Filed.keys_eq (h : Filed products productsByRange) :
    productsByRange.keys = productRanges products :=
  eq_sortDedup productsByRange.sorted fun range => by simp [h.keys]

/-- The ranges are numbered in order. -/
structure Numbered (entries : List (MacroOutputRange × Finset GraphNode))
    (classes : ProductClasses) : Prop where
  ids : ∀ range id, classes.classByRange.get range = some id ↔
    (entries.map Prod.fst)[id]? = some range
  nodes : classes.productClasses = entries.map fun entry => ascending entry.2

theorem Numbered.mem_keys (h : Numbered entries classes) :
    range ∈ classes.classByRange.keys ↔ range ∈ entries.map Prod.fst := by
  rw [SortedMap.mem_keys, mem_iff_getElem?]
  exact exists_congr fun id => h.ids range id

theorem Numbered.add (h : Numbered entries classes) {entry : MacroOutputRange × Finset GraphNode}
    (hnew : entry.1 ∉ entries.map Prod.fst) :
    Numbered (entries ++ [entry])
      { classByRange := classes.classByRange.insert entry.1 classes.productClasses.length
        productClasses := classes.productClasses ++ [ascending entry.2] } := by
  refine ⟨fun range id => ?_, by simp [h.nodes]⟩
  have hlength : classes.productClasses.length = (entries.map Prod.fst).length := by
    simp [h.nodes]
  rw [SortedMap.get_insert, map_append, map_singleton, getElem?_concat_eq_some, hlength]
  split
  case isTrue heq =>
    subst heq
    have hold : ¬(entries.map Prod.fst)[id]? = some entry.1 := fun h =>
      hnew (mem_of_getElem? h)
    rw [or_iff_right hold, Option.some.injEq, and_iff_left rfl, eq_comm]
  case isFalse hne =>
    rw [h.ids, or_iff_left fun hnew => hne hnew.2.symm]

theorem numbered_nil : Numbered [] ⟨.empty, []⟩ := ⟨by simp, rfl⟩

theorem numbered_foldlM (h : entries.foldlM ProductClasses.add ⟨.empty, []⟩ = .ok classes) :
    Numbered entries classes ∧ entries.length ≤ u32Size := by
  let Invariant (done : List (MacroOutputRange × Finset GraphNode)) (classes : ProductClasses) :
      Prop := Numbered done classes ∧ done.length ≤ u32Size
  refine foldlM_ok (P := Invariant) ?_ ⟨numbered_nil, Nat.zero_le _⟩ h
  rintro done entry classes classes' ⟨hnumbered, -⟩ hstep
  obtain ⟨hsize, hstep⟩ := guard_ok hstep
  obtain ⟨hnew, hstep⟩ := guard_ok hstep
  cases hstep
  rw [SortedMap.contains_iff, hnumbered.mem_keys] at hnew
  refine ⟨hnumbered.add hnew, ?_⟩
  have hlength : classes.productClasses.length = done.length := by simp [hnumbered.nodes]
  rw [length_append, length_singleton]
  omega

theorem foldlM_add_total (hnodup : (entries.map Prod.fst).Nodup)
    (hsize : entries.length ≤ u32Size) :
    ∃ classes, entries.foldlM ProductClasses.add ⟨.empty, []⟩ = .ok classes ∧
      Numbered entries classes := by
  apply foldlM_total
  · intro done entry rest classes hsplit hnumbered
    rw [hsplit] at hnodup hsize
    have hnew : entry.1 ∉ done.map Prod.fst := fun hmem => by
      rw [map_append] at hnodup
      exact (nodup_append.mp hnodup).2.2 entry.1 hmem entry.1 (by simp) rfl
    have hlength : classes.productClasses.length = done.length := by simp [hnumbered.nodes]
    rw [length_append, length_cons] at hsize
    refine ⟨_, ?_, hnumbered.add hnew⟩
    rw [ProductClasses.add, if_neg (by omega), if_neg]
    · rfl
    · rwa [SortedMap.contains_iff, hnumbered.mem_keys]
  · exact numbered_nil

/-! ## The class of a token -/

/-- The class of a token: the number of the smallest product range around it, or the effect of the
owner if there is none. -/
def TokenClass (products : List ObservedProduct) (sourceOwner : Option DefinitionId)
    (token : Nat) : PendingOutputClass → Prop
  | .products id => ∃ range, (productRanges products)[id]? = some range ∧ range.Covers token ∧
      ∀ other ∈ productRanges products, other.Covers token → other = range ∨ range.len < other.len
  | .ownerEffect owner => sourceOwner = some owner ∧
      ∀ range ∈ productRanges products, ¬range.Covers token

section

variable {products : List ObservedProduct}

theorem mem_openAt {ranges : List MacroOutputRange} {position : Nat} :
    activeRange range ∈ openAt ranges position ↔ range ∈ ranges ∧ range.Covers position := by
  simp [openAt, MacroOutputRange.Covers]

/-- Nested ranges of one length are equal, so the shortest range around a token is unique. -/
theorem eq_of_len_le {a b : MacroOutputRange}
    (h : Laminar MacroOutputRange.start MacroOutputRange.stop a b) (ha : a.Covers token)
    (hb : b.Covers token) (hlen : b.len ≤ a.len) (hle : a.len ≤ b.len) : a = b := by
  obtain ⟨astart, astop⟩ := a
  obtain ⟨bstart, bstop⟩ := b
  simp only [Laminar, Apart, Encloses, MacroOutputRange.Covers, MacroOutputRange.len,
    MacroOutputRange.mk.injEq] at *
  omega

/-- The product ranges have their positions as numbers. -/
structure NumberedRanges (products : List ObservedProduct)
    (classByRange : SortedMap MacroOutputRange Nat) : Prop where
  keys : classByRange.keys = productRanges products
  ids : ∀ range id, classByRange.get range = some id ↔ (productRanges products)[id]? = some range

theorem classOf_openAt (h : NumberedRanges products classByRange)
    (hlaminar : ∀ a ∈ productRanges products, ∀ b ∈ productRanges products,
      Laminar MacroOutputRange.start MacroOutputRange.stop a b)
    (sourceOwner : Option DefinitionId) (position : Nat) :
    (∃ found, classOf classByRange sourceOwner (openAt classByRange.keys position) = .ok found ∧
      TokenClass products sourceOwner position found) ∨
    (∃ e, classOf classByRange sourceOwner (openAt classByRange.keys position) = .error e) ∧
      sourceOwner = none ∧ ∀ range ∈ productRanges products, ¬range.Covers position := by
  rw [h.keys]
  unfold classOf
  cases hhead : (ascending (openAt (productRanges products) position)).head? with
  | none =>
    have hnone : ∀ range ∈ productRanges products, ¬range.Covers position :=
      fun range hrange hcovers => by
        have := mem_openAt.mpr ⟨hrange, hcovers⟩
        rw [head?_ascending_eq_none.mp hhead] at this
        exact absurd this (Finset.notMem_empty _)
    cases sourceOwner with
    | none => exact .inr ⟨⟨_, rfl⟩, rfl, hnone⟩
    | some owner => exact .inl ⟨_, rfl, rfl, hnone⟩
  | some smallest =>
    obtain ⟨hmem, hleast⟩ := head?_ascending hhead
    obtain ⟨range, hrange, rfl⟩ : ∃ range, range ∈ productRanges products ∧
        activeRange range = smallest := by
      obtain ⟨range, hfiltered, heq⟩ := mem_map.mp (mem_toFinset.mp hmem)
      exact ⟨range, (mem_filter.mp hfiltered).1, heq⟩
    have hcovers := (mem_openAt.mp hmem).2
    obtain ⟨id, hid⟩ := getElem?_of_mem hrange
    have hget : classByRange.get ⟨(activeRange range).2.1, (activeRange range).2.2⟩ = some id :=
      (h.ids range id).mpr hid
    refine .inl ⟨.products id, ?_, range, hid, hcovers, fun other hother hcovers' => ?_⟩
    · dsimp only
      rw [hget]
      rfl
    · have hle := hleast _ (mem_openAt.mpr ⟨hother, hcovers'⟩)
      have hlen : range.len ≤ other.len := by
        rcases Prod.Lex.toLex_le_toLex.mp hle with h | h
        · exact h.le
        · exact h.1.le
      rcases Nat.lt_or_ge range.len other.len with hlt | hge
      · exact .inr hlt
      · exact .inl (eq_of_len_le (hlaminar other hother range hrange) hcovers' hcovers hlen hge)

end

/-! ## Intervals -/

theorem mem_positions {position : Nat} : position ∈ positions classByRange ledger ↔
    position = 0 ∨ position = ledger.outputTokenCount ∨
      (∃ r ∈ classByRange.keys, position = r.start ∨ position = r.stop) ∨
      ∃ d ∈ ledger.discardedOutputs, position = d.start ∨ position = d.stop := by
  simp [positions]

/-- The intervals that are not discarded. -/
def liveIntervals (classByRange : SortedMap MacroOutputRange Nat)
    (ledger : ValidatedMacroOutputLedger) : List (Nat × Nat) :=
  (neighbours (positions classByRange ledger)).filter fun pair =>
    !isDiscarded ledger.discardedOutputs pair.1

/-- What the sweep relies on. -/
structure Sweepable (classByRange : SortedMap MacroOutputRange Nat)
    (ledger : ValidatedMacroOutputLedger) : Prop where
  range : ∀ r ∈ classByRange.keys, r.start < r.stop ∧ r.stop ≤ ledger.outputTokenCount
  discarded : DiscardedInOrder ledger.discardedOutputs ledger.outputTokenCount

theorem head?_positions : (positions classByRange ledger).head? = some 0 := by
  have hmem : 0 ∈ positions classByRange ledger := mem_positions.mpr (.inl rfl)
  have hsorted : (positions classByRange ledger).Pairwise (· < ·) := pairwise_sortDedup _
  cases hlist : positions classByRange ledger with
  | nil =>
    rw [hlist] at hmem
    cases hmem
  | cons first later =>
    rw [hlist] at hmem hsorted
    rcases mem_cons.mp hmem with rfl | hlater
    · rfl
    · exact absurd ((pairwise_cons.mp hsorted).1 0 hlater) (Nat.not_lt_zero _)

theorem Sweepable.getLast?_positions (h : Sweepable classByRange ledger) :
    (positions classByRange ledger).getLast? = some ledger.outputTokenCount := by
  have hmem : ledger.outputTokenCount ∈ positions classByRange ledger :=
    mem_positions.mpr (.inr (.inl rfl))
  have hsorted : (positions classByRange ledger).Pairwise (· < ·) := pairwise_sortDedup _
  have hlast := getLast?_eq_some_getLast (ne_nil_of_mem hmem)
  rw [hlast, Option.some.injEq]
  have hle : (positions classByRange ledger).getLast (ne_nil_of_mem hmem) ≤
      ledger.outputTokenCount := by
    rcases mem_positions.mp (getLast_mem (ne_nil_of_mem hmem)) with
      h0 | hn | ⟨r, hr, hr'⟩ | ⟨d, hd, hd'⟩
    · omega
    · omega
    · have := h.range r hr
      omega
    · have := h.discarded.range d hd
      omega
  rcases rel_getLast? hsorted hlast hmem with heq | hlt
  · exact heq.symm
  · omega

theorem positions_eq : ∃ later,
    positions classByRange ledger = 0 :: later ∧
      Positions classByRange ledger.discardedOutputs 0 later := by
  have hhead : (positions classByRange ledger).head? = some 0 := head?_positions
  obtain ⟨later, hlist⟩ := head?_eq_some_iff.mp hhead
  have hmem : ∀ x, x ∈ positions classByRange ledger → x ≤ 0 ∨ x ∈ later := by
    intro x hx
    rw [hlist] at hx
    exact (mem_cons.mp hx).imp_left Eq.le
  refine ⟨later, hlist, hlist ▸ pairwise_sortDedup _, fun r hr => hmem _ ?_, fun r hr => hmem _ ?_,
    fun d hd => hmem _ ?_⟩
  · exact mem_positions.mpr (.inr (.inr (.inl ⟨r, hr, .inl rfl⟩)))
  · exact mem_positions.mpr (.inr (.inr (.inl ⟨r, hr, .inr rfl⟩)))
  · exact mem_positions.mpr (.inr (.inr (.inr ⟨d, hd, .inr rfl⟩)))

/-- When the sweep has reached the end, the ranges that are still open all stop there. -/
theorem Sweepable.close_last (h : Sweepable classByRange ledger) :
    (endsAt classByRange ledger.outputTokenCount).foldlM closeRange
      (openBefore classByRange.keys ledger.outputTokenCount) = .ok ∅ := by
  have hempty : (∅ : Finset ActiveRange) = activeSet classByRange.keys fun _ => false := by
    simp [activeSet]
  rw [hempty]
  apply foldlM_closeRange nodup_endsAt
  · intro r hr
    obtain ⟨hkey, hstop⟩ := mem_endsAt.mp hr
    have := h.range r hkey
    simp only [hkey, true_and, Bool.and_eq_true, decide_eq_true_eq]
    omega
  · intro r hr
    have := h.range r hr
    simp only [Bool.and_eq_true, decide_eq_true_eq, mem_endsAt, hr, true_and, Bool.false_eq_true,
      false_iff]
    omega

/-- The whole sweep classifies the intervals that are not discarded. -/
theorem Sweepable.sweep_eq (h : Sweepable classByRange ledger) (sourceOwner : Option DefinitionId) :
    (do
      let sweep ← (neighbours (positions classByRange ledger)).foldlM
        (sweepStep classByRange sourceOwner) ⟨∅, ledger.discardedOutputs, []⟩
      let active ← (endsAt classByRange ledger.outputTokenCount).foldlM closeRange sweep.active
      return (active, sweep.classified)) =
      ((liveIntervals classByRange ledger).mapM (classifyPair classByRange sourceOwner)).map
        fun found => (∅, found) := by
  obtain ⟨later, hlist, hpositions⟩ : ∃ later, positions classByRange ledger = 0 :: later ∧
    Positions classByRange ledger.discardedOutputs 0 later := positions_eq
  have hopen : (∅ : Finset ActiveRange) = openBefore classByRange.keys 0 := by
    simp [openBefore, activeSet]
  have hlast : (0 :: later).getLast (cons_ne_nil _ _) = ledger.outputTokenCount := by
    have := h.getLast?_positions
    rw [hlist, getLast?_eq_some_getLast (cons_ne_nil _ _)] at this
    exact Option.some.inj this
  have hfold := @foldlM_sweepStep classByRange sourceOwner _ _ _ (fun r hr => (h.range r hr).1)
    (fun d hd => (h.discarded.range d hd).1) h.discarded.inOrder hpositions _ rfl []
  rw [hlast, ← hlist, ← hopen] at hfold
  rw [liveIntervals]
  cases hsweep : (neighbours (positions classByRange ledger)).foldlM
      (sweepStep classByRange sourceOwner) ⟨∅, ledger.discardedOutputs, []⟩ with
  | error e =>
    rw [hsweep] at hfold
    cases hfound : ((neighbours (positions classByRange ledger)).filter fun pair =>
        !isDiscarded ledger.discardedOutputs pair.1).mapM
          (classifyPair classByRange sourceOwner) with
    | error e' =>
      rw [hfound] at hfold
      cases hfold
      rfl
    | ok found =>
      rw [hfound] at hfold
      cases hfold
  | ok sweep =>
    rw [hsweep] at hfold
    cases hfound : ((neighbours (positions classByRange ledger)).filter fun pair =>
        !isDiscarded ledger.discardedOutputs pair.1).mapM
          (classifyPair classByRange sourceOwner) with
    | error e' =>
      rw [hfound] at hfold
      cases hfold
    | ok found =>
      rw [hfound] at hfold
      simp only [Except.map, nil_append, Except.ok.injEq, Prod.mk.injEq] at hfold
      show (endsAt classByRange ledger.outputTokenCount).foldlM closeRange sweep.active >>= _ = _
      rw [hfold.1, hfold.2, h.close_last]
      rfl

/-! ## The intervals as a partition -/

/-- Nothing starts or stops inside an interval. -/
theorem covers_congr (hpair : pair ∈ neighbours (positions classByRange ledger))
    (hle : pair.1 ≤ token) (hlt : token < pair.2)
    (hstart : range.start ∈ positions classByRange ledger)
    (hstop : range.stop ∈ positions classByRange ledger) :
    range.Covers token ↔ range.Covers pair.1 := by
  obtain ⟨-, -, -, hgap⟩ := mem_neighbours (pairwise_sortDedup _) hpair
  have := hgap _ hstart
  have := hgap _ hstop
  unfold MacroOutputRange.Covers
  omega

theorem covers_congr_range (hpair : pair ∈ neighbours (positions classByRange ledger))
    (hle : pair.1 ≤ token) (hlt : token < pair.2) (hrange : range ∈ classByRange.keys) :
    range.Covers token ↔ range.Covers pair.1 :=
  covers_congr hpair hle hlt (mem_positions.mpr (.inr (.inr (.inl ⟨range, hrange, .inl rfl⟩))))
    (mem_positions.mpr (.inr (.inr (.inl ⟨range, hrange, .inr rfl⟩))))

theorem isDiscarded_congr (hpair : pair ∈ neighbours (positions classByRange ledger))
    (hle : pair.1 ≤ token) (hlt : token < pair.2) :
    isDiscarded ledger.discardedOutputs token = isDiscarded ledger.discardedOutputs pair.1 := by
  rw [Bool.eq_iff_iff, isDiscarded_iff, isDiscarded_iff]
  refine exists_congr fun d => and_congr_right fun hd => ?_
  exact covers_congr hpair hle hlt (mem_positions.mpr (.inr (.inr (.inr ⟨d, hd, .inl rfl⟩))))
    (mem_positions.mpr (.inr (.inr (.inr ⟨d, hd, .inr rfl⟩))))

theorem mem_liveIntervals : pair ∈ liveIntervals classByRange ledger ↔
    pair ∈ neighbours (positions classByRange ledger) ∧
      isDiscarded ledger.discardedOutputs pair.1 = false := by
  simp [liveIntervals]

/-- Each token that is not discarded lies in an interval. -/
theorem Sweepable.exists_interval (h : Sweepable classByRange ledger) :
    (∃ pair ∈ liveIntervals classByRange ledger, pair.1 ≤ token ∧ token < pair.2) ↔
      token < ledger.outputTokenCount ∧ isDiscarded ledger.discardedOutputs token = false := by
  constructor
  · rintro ⟨pair, hpair, hle, hlt⟩
    obtain ⟨hpair, hlive⟩ := mem_liveIntervals.mp hpair
    obtain ⟨-, hmem, -, -⟩ := mem_neighbours (pairwise_sortDedup _) hpair
    rw [isDiscarded_congr hpair hle hlt]
    refine ⟨hlt.trans_le ?_, hlive⟩
    rcases rel_getLast? (pairwise_sortDedup _) h.getLast?_positions hmem with heq | hlt
    · exact heq.le
    · exact hlt.le
  · rintro ⟨hlt, hlive⟩
    obtain ⟨pair, hpair, hle, hlt⟩ :=
      exists_neighbours head?_positions h.getLast?_positions token.zero_le hlt
    refine ⟨pair, mem_liveIntervals.mpr ⟨hpair, ?_⟩, hle, hlt⟩
    rwa [← isDiscarded_congr hpair hle hlt]

theorem TokenClass.congr (h : NumberedRanges products classByRange)
    (hpair : pair ∈ neighbours (positions classByRange ledger)) (hle : pair.1 ≤ token)
    (hlt : token < pair.2) {found : PendingOutputClass} :
    TokenClass products sourceOwner token found ↔ TokenClass products sourceOwner pair.1 found := by
  have hcovers : ∀ range ∈ productRanges products, range.Covers token ↔ range.Covers pair.1 := by
    intro range hrange
    rw [← h.keys] at hrange
    exact covers_congr_range hpair hle hlt hrange
  cases found with
  | products id =>
    refine exists_congr fun range => and_congr_right fun hid => ?_
    rw [hcovers range (mem_of_getElem? hid)]
    refine and_congr_right fun _ => forall₂_congr fun other hother => ?_
    rw [hcovers other hother]
  | ownerEffect owner =>
    refine and_congr_right fun _ => forall₂_congr fun range hrange => ?_
    rw [hcovers range hrange]

/-- The nodes that the compiler made from one range, in order. -/
def nodesOf (products : List ObservedProduct) (range : MacroOutputRange) : List GraphNode :=
  sortDedup ((products.filter fun product => product.output = range).map ObservedProduct.product)

theorem Filed.entries_eq (h : Filed products productsByRange) :
    (productsByRange.entries.map fun entry => ascending entry.2) =
      (productRanges products).map (nodesOf products) := by
  rw [← h.keys_eq, SortedMap.keys, map_map]
  apply map_congr_left
  intro entry hentry
  have hget : productsByRange.get entry.1 = some entry.2 := SortedMap.get_eq_some.mpr hentry
  rw [Function.comp_apply, nodesOf, sortDedup]
  apply congrArg ascending
  ext node
  have hnodes := h.nodes entry.1 node
  rw [hget, Option.getD_some] at hnodes
  rw [hnodes, mem_toFinset, mem_map]
  constructor
  · exact fun hmem => ⟨_, mem_filter.mpr ⟨hmem, by simp⟩, rfl⟩
  · rintro ⟨product, hproduct, rfl⟩
    obtain ⟨hmem, heq⟩ := mem_filter.mp hproduct
    rwa [← of_decide_eq_true heq]

end OutputClasses

end ItemDependencies
