import ItemDependencies.Expansion.OutputIntervals

/-!
# The partition of a macro's output

The sweep agrees with the definition of a class for every single token.  No two
intervals of one class touch, because products are nested or apart.
-/

namespace ItemDependencies

open Library OutputClasses List

namespace OutputClasses

variable {classByRange : SortedMap MacroOutputRange Nat} {sourceOwner : Option DefinitionId}
  {ledger : ValidatedMacroOutputLedger}

/-! ## The result of the sweep -/

theorem new_ledger {count : Nat} {live discarded : List MacroOutputRange}
    (h : ValidatedMacroOutputLedger.new count live discarded = some ledger) :
    (∀ a ∈ ledger.liveOutputs, a.start < a.stop ∧ a.stop ≤ ledger.outputTokenCount) ∧
      (∀ a ∈ ledger.liveOutputs, ∀ b ∈ ledger.liveOutputs,
        Laminar MacroOutputRange.start MacroOutputRange.stop a b) ∧
      DiscardedInOrder ledger.discardedOutputs ledger.outputTokenCount := by
  obtain ⟨hwell, rfl⟩ := ValidatedMacroOutputLedger.new_eq_some_iff.mp h
  simp only [mem_sortDedup]
  exact ⟨hwell.live_range, hwell.laminar,
    discardedInOrder_insertionSort.mpr ⟨hwell.discarded_range, hwell.apart⟩⟩

/-- A ledger, and products whose ranges are live in it. -/
structure Observed (ledger : ValidatedMacroOutputLedger) (products : List ObservedProduct) :
    Prop where
  range : ∀ a ∈ productRanges products, a.start < a.stop ∧ a.stop ≤ ledger.outputTokenCount
  laminar : ∀ a ∈ productRanges products, ∀ b ∈ productRanges products,
    Laminar MacroOutputRange.start MacroOutputRange.stop a b
  discarded : DiscardedInOrder ledger.discardedOutputs ledger.outputTokenCount
  nodup : products.Nodup
  live : ∀ product ∈ products, product.output ∈ ledger.liveOutputs

section

variable {products : List ObservedProduct}

theorem Observed.of_new {count : Nat} {live discarded : List MacroOutputRange}
    (h : ValidatedMacroOutputLedger.new count live discarded = some ledger)
    (hnodup : products.Nodup)
    (hlive : ∀ product ∈ products, ledger.containsLiveOutput product.output = true) :
    Observed ledger products := by
  obtain ⟨hrange, hlaminar, hdiscarded⟩ := new_ledger h
  have hlive : ∀ product ∈ products, product.output ∈ ledger.liveOutputs :=
    fun product hproduct => contains_iff_mem.mp (hlive product hproduct)
  have hmem : ∀ a ∈ productRanges products, a ∈ ledger.liveOutputs := by
    intro a ha
    obtain ⟨product, hproduct, rfl⟩ := mem_productRanges.mp ha
    exact hlive product hproduct
  exact ⟨fun a ha => hrange a (hmem a ha),
    fun a ha b hb => hlaminar a (hmem a ha) b (hmem b hb), hdiscarded, hnodup, hlive⟩

/-- With at most as many ranges as there are numbers, only the sweep can fail. -/
theorem Observed.outputClasses_eq (h : Observed ledger products)
    (hsize : (productRanges products).length ≤ u32Size) (sourceOwner : Option DefinitionId) :
    ∃ classByRange,
      NumberedRanges products classByRange ∧ Sweepable classByRange ledger ∧
        outputClasses products ledger sourceOwner =
          ((liveIntervals classByRange ledger).mapM (classifyPair classByRange sourceOwner)).map
            fun found => ⟨found, (productRanges products).map (nodesOf products)⟩ := by
  obtain ⟨productsByRange, hfold, hfiled⟩ := foldlM_addProduct h.nodup h.live
  have hkeys : productsByRange.entries.map Prod.fst = productRanges products := hfiled.keys_eq
  have hlength : productsByRange.entries.length ≤ u32Size := by
    rwa [← hkeys, length_map] at hsize
  obtain ⟨classes, hclasses, hnumbered⟩ := foldlM_add_total productsByRange.nodup_keys hlength
  have hranges : NumberedRanges products classes.classByRange := by
    refine ⟨?_, fun range id => hkeys ▸ hnumbered.ids range id⟩
    refine eq_sortDedup classes.classByRange.sorted fun range => ?_
    have hmem : range ∈ classes.classByRange.keys ↔ _ := hnumbered.mem_keys
    rwa [hkeys, productRanges, mem_sortDedup] at hmem
  have hsweepable : Sweepable classes.classByRange ledger :=
    ⟨fun r hr => h.range r (hranges.keys ▸ hr), h.discarded⟩
  refine ⟨classes.classByRange, hranges, hsweepable, ?_⟩
  have hsweep := hsweepable.sweep_eq sourceOwner
  rw [outputClasses, hfold, ← hfiled.entries_eq, ← hnumbered.nodes]
  let finish (swept : Finset ActiveRange × List (MacroOutputRange × PendingOutputClass)) :
      Except ExpansionError PendingOutputClasses :=
    if swept.1 ≠ ∅ then throw .incompleteOrigin else return ⟨swept.2, classes.productClasses⟩
  calc
    _ = (do
        let classes ← productsByRange.entries.foldlM ProductClasses.add ⟨.empty, []⟩
        let sweep ← (neighbours (positions classes.classByRange ledger)).foldlM
          (sweepStep classes.classByRange sourceOwner) ⟨∅, ledger.discardedOutputs, []⟩
        let active ←
          (endsAt classes.classByRange ledger.outputTokenCount).foldlM closeRange sweep.active
        if active ≠ ∅ then throw .incompleteOrigin
        else return ⟨sweep.classified, classes.productClasses⟩) := rfl
    _ = (do
        let sweep ← (neighbours (positions classes.classByRange ledger)).foldlM
          (sweepStep classes.classByRange sourceOwner) ⟨∅, ledger.discardedOutputs, []⟩
        let active ←
          (endsAt classes.classByRange ledger.outputTokenCount).foldlM closeRange sweep.active
        return (active, sweep.classified)) >>= finish := by
      rw [hclasses]
      simp only [bind_assoc, pure_bind]
      rfl
    _ = _ := by
      rw [hsweep]
      cases (liveIntervals classes.classByRange ledger).mapM
        (classifyPair classes.classByRange sourceOwner) <;> rfl

/-- There is no number for one more range. -/
theorem Observed.outputClasses_error (h : Observed ledger products)
    (hsize : u32Size < (productRanges products).length) (sourceOwner : Option DefinitionId) :
    ∃ e, outputClasses products ledger sourceOwner = .error e := by
  obtain ⟨productsByRange, hfold, hfiled⟩ := foldlM_addProduct h.nodup h.live
  have hkeys : productsByRange.entries.map Prod.fst = productRanges products := hfiled.keys_eq
  rw [← hkeys, length_map] at hsize
  cases hclasses : productsByRange.entries.foldlM ProductClasses.add ⟨.empty, []⟩ with
  | ok classes => exact absurd (numbered_foldlM hclasses).2 (by omega)
  | error e =>
    refine ⟨e, ?_⟩
    rw [outputClasses, hfold]
    show (productsByRange.entries.foldlM ProductClasses.add ⟨.empty, []⟩ >>= _) = _
    rw [hclasses]
    rfl

/-- When the sweep fails. -/
theorem Observed.outputClasses_error_iff (h : Observed ledger products)
    (hsize : (productRanges products).length ≤ u32Size) :
    (∃ e, outputClasses products ledger sourceOwner = .error e) ↔
      sourceOwner = none ∧ ∃ token < ledger.outputTokenCount,
        (∀ d ∈ ledger.discardedOutputs, ¬d.Covers token) ∧
          ∀ range ∈ productRanges products, ¬range.Covers token := by
  obtain ⟨classByRange, hranges, hsweepable, heq⟩ := h.outputClasses_eq hsize sourceOwner
  have hclass := classOf_openAt hranges h.laminar sourceOwner
  rw [heq]
  constructor
  · rintro ⟨e, herror⟩
    by_contra hcovered
    -- every interval has a class, so the sweep returns
    have hall : ∀ pair ∈ liveIntervals classByRange ledger,
        ∃ found, classifyPair classByRange sourceOwner pair = .ok found := by
      intro pair hpair
      rcases hclass pair.1 with ⟨found, hfound, -⟩ | ⟨-, hnone, huncovered⟩
      · exact ⟨_, by rw [classifyPair, hfound]; rfl⟩
      · refine absurd ⟨hnone, pair.1, ?_⟩ hcovered
        obtain ⟨hpair', -⟩ := mem_liveIntervals.mp hpair
        have hlt := (mem_neighbours (pairwise_sortDedup _) hpair').2.2.1
        obtain ⟨hcount, hdead⟩ := hsweepable.exists_interval.mp ⟨pair, hpair, le_rfl, hlt⟩
        exact ⟨hcount, isDiscarded_eq_false_iff.mp hdead, huncovered⟩
    obtain ⟨found, hfound⟩ := exists_forall₂ hall
    rw [mapM_total hfound] at herror
    cases herror
  · rintro ⟨hnone, token, hcount, hdead, huncovered⟩
    obtain ⟨pair, hpair, hle, hlt⟩ :=
      hsweepable.exists_interval.mpr ⟨hcount, isDiscarded_eq_false_iff.mpr hdead⟩
    obtain ⟨hpair', -⟩ := mem_liveIntervals.mp hpair
    cases hfound : (liveIntervals classByRange ledger).mapM
        (classifyPair classByRange sourceOwner) with
    | error e => exact ⟨e, rfl⟩
    | ok found =>
      obtain ⟨i, hi⟩ := getElem?_of_mem hpair
      obtain ⟨interval, -, hclassified⟩ := getElem?_of_forall₂ (mapM_ok hfound) hi
      rcases hclass pair.1 with ⟨found, -, htoken⟩ | ⟨⟨e, he⟩, -, -⟩
      · rw [← TokenClass.congr hranges hpair' hle hlt] at htoken
        cases found with
        | products id =>
          obtain ⟨range, hid, hcovers, -⟩ := htoken
          exact absurd hcovers (huncovered range (mem_of_getElem? hid))
        | ownerEffect owner =>
          rw [hnone] at htoken
          cases htoken.1
      · rw [classifyPair, he] at hclassified
        cases hclassified

/-- What the sweep has found, interval by interval. -/
structure Classified (ledger : ValidatedMacroOutputLedger) (products : List ObservedProduct)
    (sourceOwner : Option DefinitionId)
    (intervals : List (MacroOutputRange × PendingOutputClass)) : Prop where
  nonempty : ∀ interval ∈ intervals, interval.1.start < interval.1.stop
  inOrder : intervals.Pairwise fun a b => a.1.stop ≤ b.1.start
  covers : ∀ token, (∃ interval ∈ intervals, interval.1.Covers token) ↔
    token < ledger.outputTokenCount ∧ ∀ d ∈ ledger.discardedOutputs, ¬d.Covers token
  tokenClass : ∀ interval ∈ intervals, ∀ token, interval.1.Covers token →
    TokenClass products sourceOwner token interval.2
  /-- An interval ends only where something else starts or stops. -/
  stops : ∀ interval ∈ intervals, interval.1.stop = 0 ∨
    interval.1.stop = ledger.outputTokenCount ∨
      (∃ r ∈ productRanges products, interval.1.stop = r.start ∨ interval.1.stop = r.stop) ∨
      ∃ d ∈ ledger.discardedOutputs, interval.1.stop = d.start ∨ interval.1.stop = d.stop

theorem Observed.classified (h : Observed ledger products)
    (hranges : NumberedRanges products classByRange) (hsweepable : Sweepable classByRange ledger)
    {intervals : List (MacroOutputRange × PendingOutputClass)}
    (hfound : (liveIntervals classByRange ledger).mapM (classifyPair classByRange sourceOwner) =
      .ok intervals) : Classified ledger products sourceOwner intervals := by
  have hclassified : List.Forall₂ (fun pair interval => interval.1 = ⟨pair.1, pair.2⟩ ∧
      TokenClass products sourceOwner pair.1 interval.2)
      (liveIntervals classByRange ledger) intervals := by
    refine (mapM_ok hfound).imp fun pair interval hpair => ?_
    rcases classOf_openAt hranges h.laminar sourceOwner pair.1 with
      ⟨found, hok, htoken⟩ | ⟨⟨e, he⟩, -, -⟩
    · rw [classifyPair, hok] at hpair
      cases hpair
      exact ⟨rfl, htoken⟩
    · rw [classifyPair, he] at hpair
      cases hpair
  have hpair : ∀ interval ∈ intervals, ∃ pair ∈ liveIntervals classByRange ledger,
      interval.1 = ⟨pair.1, pair.2⟩ ∧ TokenClass products sourceOwner pair.1 interval.2 := by
    intro interval hinterval
    obtain ⟨i, hi⟩ := getElem?_of_mem hinterval
    obtain ⟨pair, hpair, hfacts⟩ := getElem?_of_forall₂_right hclassified hi
    exact ⟨pair, mem_of_getElem? hpair, hfacts⟩
  have hranges' : intervals.map Prod.fst =
      (liveIntervals classByRange ledger).map fun pair => ⟨pair.1, pair.2⟩ := by
    rw [← forall₂_eq_eq_eq, forall₂_map_left_iff, forall₂_map_right_iff]
    exact (hclassified.imp fun _ _ h => h.1).flip
  refine ⟨fun interval hinterval => ?_, ?_, fun token => ?_,
    fun interval hinterval token htoken => ?_,
    fun interval hinterval => ?_⟩
  · obtain ⟨pair, hpair, heq, -⟩ := hpair interval hinterval
    rw [heq]
    exact (mem_neighbours (pairwise_sortDedup _) (mem_liveIntervals.mp hpair).1).2.2.1
  · have hinOrder : (intervals.map Prod.fst).Pairwise fun a b => a.stop ≤ b.start := by
      rw [hranges', pairwise_map]
      exact (pairwise_neighbours (pairwise_sortDedup _)).filter _
    exact pairwise_map.mp hinOrder
  · calc
      _ ↔ ∃ range ∈ intervals.map Prod.fst, range.Covers token := by simp
      _ ↔ ∃ pair ∈ liveIntervals classByRange ledger, pair.1 ≤ token ∧ token < pair.2 := by
        rw [hranges']
        simp [MacroOutputRange.Covers]
      _ ↔ _ := hsweepable.exists_interval
      _ ↔ _ := and_congr_right fun _ => isDiscarded_eq_false_iff
  · obtain ⟨pair, hpair, heq, hclass⟩ := hpair interval hinterval
    rw [heq] at htoken
    exact (TokenClass.congr hranges (mem_liveIntervals.mp hpair).1 htoken.1 htoken.2).mpr hclass
  · obtain ⟨pair, hpair, heq, -⟩ := hpair interval hinterval
    rw [heq, ← hranges.keys]
    exact mem_positions.mp
      (mem_neighbours (pairwise_sortDedup _) (mem_liveIntervals.mp hpair).1).2.1

/-- The classes that the sweep returns. -/
theorem Observed.classified_of_ok (h : Observed ledger products) {classes : PendingOutputClasses}
    (hok : outputClasses products ledger sourceOwner = .ok classes) :
    Classified ledger products sourceOwner classes.intervals ∧
      classes = ⟨classes.intervals, (productRanges products).map (nodesOf products)⟩ := by
  have hsize : ¬u32Size < (productRanges products).length := fun hsize => by
    obtain ⟨e, herror⟩ := h.outputClasses_error hsize sourceOwner
    rw [herror] at hok
    cases hok
  obtain ⟨classByRange, hranges, hsweepable, heq⟩ :=
    h.outputClasses_eq (not_lt.mp hsize) sourceOwner
  rw [heq] at hok
  cases hfound : (liveIntervals classByRange ledger).mapM
      (classifyPair classByRange sourceOwner) with
  | error e =>
    rw [hfound] at hok
    cases hok
  | ok intervals =>
    rw [hfound] at hok
    cases hok
    exact ⟨h.classified hranges hsweepable hfound, rfl⟩

namespace Classified

variable {intervals : List (MacroOutputRange × PendingOutputClass)}

theorem exists_class (h : Classified ledger products sourceOwner intervals) {token : Nat}
    (hcount : token < ledger.outputTokenCount)
    (hlive : ∀ d ∈ ledger.discardedOutputs, ¬d.Covers token) :
    ∃ interval ∈ intervals, TokenClass products sourceOwner token interval.2 := by
  obtain ⟨interval, hmem, hcovers⟩ := (h.covers token).mpr ⟨hcount, hlive⟩
  exact ⟨interval, hmem, h.tokenClass interval hmem token hcovers⟩

/-- A product range without an interval has lost all of its tokens. -/
theorem eclipsed_iff (h : Classified ledger products sourceOwner intervals)
    (hobserved : Observed ledger products) {id : Nat} {range : MacroOutputRange}
    (hid : (productRanges products)[id]? = some range) :
    (∀ interval ∈ intervals, interval.2 ≠ .products id) ↔ ∀ token, range.Covers token →
      (∃ d ∈ ledger.discardedOutputs, d.Covers token) ∨
        ∃ other ∈ productRanges products, other.len < range.len ∧ other.Covers token := by
  have hnodup : (productRanges products).Nodup := nodup_sortDedup _
  have hrange := mem_of_getElem? hid
  constructor
  · intro hnone token htoken
    by_contra hleft
    push Not at hleft
    obtain ⟨hlive, hsmallest⟩ := hleft
    have hcount : token < ledger.outputTokenCount :=
      htoken.2.trans_le (hobserved.range range hrange).2
    obtain ⟨interval, hmem, hclass⟩ := h.exists_class hcount hlive
    cases hfound : interval.2 with
    | products id' =>
      rw [hfound] at hclass
      obtain ⟨range', hid', hcovers', hleast⟩ := hclass
      rcases hleast range hrange htoken with rfl | hlt
      · have hlength := (List.getElem?_eq_some_iff.mp hid).1
        obtain rfl : id = id' := (getElem?_inj hlength hnodup).mp (hid.trans hid'.symm)
        exact hnone interval hmem hfound
      · exact hsmallest range' (mem_of_getElem? hid') hlt hcovers'
    | ownerEffect owner =>
      rw [hfound] at hclass
      exact hclass.2 range hrange htoken
  · intro heclipsed interval hmem hfound
    have hstart : interval.1.Covers interval.1.start := ⟨le_rfl, h.nonempty interval hmem⟩
    have hclass := h.tokenClass interval hmem _ hstart
    rw [hfound] at hclass
    obtain ⟨range', hid', hcovers, hleast⟩ := hclass
    obtain rfl : range = range' := Option.some.inj (hid.symm.trans hid')
    rcases heclipsed _ hcovers with ⟨d, hd, hdead⟩ | ⟨other, hother, hlt, hcovers'⟩
    · exact ((h.covers _).mp ⟨interval, hmem, hstart⟩).2 d hd hdead
    · rcases hleast other hother hcovers' with rfl | hgt
      · exact lt_irrefl _ hlt
      · exact lt_asymm hlt hgt

/-- Where a product range starts or stops, the class changes. -/
theorem not_tokenClass_boundary (hobserved : Observed ledger products) {token : Nat}
    {found : PendingOutputClass} (hbefore : TokenClass products sourceOwner token found)
    (hafter : TokenClass products sourceOwner (token + 1) found) {r : MacroOutputRange}
    (hr : r ∈ productRanges products) : token + 1 ≠ r.start ∧ token + 1 ≠ r.stop := by
  have hne := (hobserved.range r hr).1
  cases found with
  | ownerEffect owner =>
    have hbefore := hbefore.2 r hr
    have hafter := hafter.2 r hr
    unfold MacroOutputRange.Covers at hbefore hafter
    omega
  | products id =>
    obtain ⟨range, hid, hcovers, hleast⟩ := hbefore
    obtain ⟨range', hid', hcovers', hleast'⟩ := hafter
    obtain rfl : range = range' := Option.some.inj (hid.symm.trans hid')
    have hlaminar := hobserved.laminar range (mem_of_getElem? hid) r hr
    have hleast := hleast r hr
    have hleast' := hleast' r hr
    constructor
    · intro hstart
      rcases hleast' ⟨hstart.ge, by omega⟩ with rfl | hlt
      · exact absurd hcovers.1 (by omega)
      · simp only [Laminar, Apart, Encloses, MacroOutputRange.Covers, MacroOutputRange.len] at *
        omega
    · intro hstop
      rcases hleast ⟨by omega, by omega⟩ with rfl | hlt
      · exact absurd hcovers'.2 (by omega)
      · simp only [Laminar, Apart, Encloses, MacroOutputRange.Covers, MacroOutputRange.len] at *
        omega

/-- Two intervals that touch have different classes. -/
theorem ne_start (h : Classified ledger products sourceOwner intervals)
    (hobserved : Observed ledger products)
    {a b : MacroOutputRange × PendingOutputClass} (ha : a ∈ intervals) (hb : b ∈ intervals)
    (hclass : a.2 = b.2) : a.1.stop ≠ b.1.start := by
  intro htouch
  have hanonempty := h.nonempty a ha
  have hbnonempty := h.nonempty b hb
  -- the tokens on both sides of the place where they touch
  obtain ⟨token, htoken⟩ : ∃ token, token + 1 = a.1.stop := ⟨a.1.stop - 1, by omega⟩
  have hbefore : a.1.Covers token := ⟨by omega, by omega⟩
  have hafter : b.1.Covers (token + 1) := ⟨by omega, by omega⟩
  have hlive := ((h.covers token).mp ⟨a, ha, hbefore⟩).2
  obtain ⟨hcount, hlive'⟩ := (h.covers (token + 1)).mp ⟨b, hb, hafter⟩
  have hboundary := @not_tokenClass_boundary sourceOwner ledger products hobserved token a.2
    (h.tokenClass a ha token hbefore) (hclass ▸ h.tokenClass b hb _ hafter)
  rcases h.stops a ha with h0 | hn | ⟨r, hr, hstop⟩ | ⟨d, hd, hstop⟩
  · omega
  · omega
  · have := hboundary hr
    omega
  · have := hlive d hd
    have := hlive' d hd
    have := hobserved.discarded.range d hd
    unfold MacroOutputRange.Covers at *
    omega

end Classified

end

end OutputClasses

/-! ## The consumer's checks -/

variable {ranges : List MacroOutputRange}

theorem foldlM_censusStep {count cursor : Nat} (h : DiscardedInOrder ranges count)
    (hcursor : cursor ≤ count) (hstart : ∀ r ∈ ranges, cursor ≤ r.start)
    (hcovers : ∀ token, cursor ≤ token → token < count → ∃ r ∈ ranges, r.Covers token) :
    ranges.foldlM censusStep cursor = .ok count := by
  induction ranges generalizing cursor with
  | nil =>
    obtain rfl : cursor = count := by
      by_contra hne
      obtain ⟨r, hr, -⟩ := hcovers cursor le_rfl (by omega)
      cases hr
    rfl
  | cons range ranges ih =>
    obtain ⟨hnext, hinOrder⟩ := pairwise_cons.mp h.inOrder
    have hrange := h.range range (by simp)
    have hle := hstart range (by simp)
    -- the token at the cursor can only be covered by the first range
    have hfirst : range.start = cursor := by
      obtain ⟨r, hr, hcovered⟩ := hcovers cursor le_rfl (by omega)
      have hcovered := hcovered.1
      rcases mem_cons.mp hr with rfl | hr
      · omega
      · have := hnext r hr
        omega
    rw [foldlM_cons, censusStep, if_neg (by omega), if_neg (by omega)]
    refine ih ⟨fun r hr => h.range r (by simp [hr]), hinOrder⟩ hrange.2 hnext ?_
    intro token hlower hupper
    obtain ⟨r, hr, hcovered⟩ := hcovers token (by omega) hupper
    rcases mem_cons.mp hr with rfl | hr
    · exact absurd hcovered.2 (by omega)
    · exact ⟨r, hr, hcovered⟩

/-- The census accepts ranges that are apart and cover every token. -/
theorem validateMacroOutputCensus_ok {count : Nat}
    (hrange : ∀ r ∈ ranges, r.start < r.stop ∧ r.stop ≤ count)
    (hapart : ranges.Pairwise (Apart MacroOutputRange.start MacroOutputRange.stop))
    (hcovers : ∀ token < count, ∃ r ∈ ranges, r.Covers token) :
    validateMacroOutputCensus count ranges = .ok () := by
  have hmem : ∀ r, r ∈ ranges.insertionSort (· ≤ ·) ↔ r ∈ ranges :=
    fun r => mem_insertionSort _
  have hfold := foldlM_censusStep (discardedInOrder_insertionSort.mpr ⟨hrange, hapart⟩)
    count.zero_le (fun r _ => r.start.zero_le) fun token _ hlt => by
      obtain ⟨r, hr, hcovered⟩ := hcovers token hlt
      exact ⟨r, (hmem r).mpr hr, hcovered⟩
  rw [validateMacroOutputCensus, hfold]
  show (if count ≠ count then _ else _) = _
  rw [if_neg (not_not.mpr rfl)]
  rfl

theorem validateMacroOutputRanges_ok {count : Nat} (hne : ranges ≠ [])
    (hrange : ∀ r ∈ ranges, r.start < r.stop ∧ r.stop ≤ count)
    (hgaps : ranges.Pairwise fun a b => a.stop < b.start) :
    validateMacroOutputRanges ranges count = .ok () := by
  have hempty : ranges.isEmpty = false := by simpa using hne
  have hranges : (ranges.any fun range => range.stop ≤ range.start || count < range.stop) =
      false := by
    rw [any_eq_false]
    intro r hr
    simpa using hrange r hr
  have hpairs : ((neighbours ranges).any fun pair => pair.2.start ≤ pair.1.stop) = false := by
    rw [any_eq_false]
    intro pair hpair
    simpa using isChain_iff_neighbours.mp hgaps.isChain pair hpair
  rw [validateMacroOutputRanges, hempty, hranges, hpairs]
  rfl

/-! ## The partition -/

/-- The ranges of one class, in order. -/
def PendingOutputClasses.rangesOf (classes : PendingOutputClasses) (found : PendingOutputClass) :
    List MacroOutputRange :=
  (classes.intervals.filter fun interval => interval.2 = found).map Prod.fst

/-- What the classes of a macro's output have to satisfy. -/
structure OutputPartition (ledger : ValidatedMacroOutputLedger) (products : List ObservedProduct)
    (sourceOwner : Option DefinitionId) (classes : PendingOutputClasses) : Prop where
  nonempty : ∀ interval ∈ classes.intervals, interval.1.start < interval.1.stop
  inOrder : classes.intervals.Pairwise fun a b => a.1.stop ≤ b.1.start
  covers : ∀ token, (∃ interval ∈ classes.intervals, interval.1.Covers token) ↔
    token < ledger.outputTokenCount ∧ ∀ d ∈ ledger.discardedOutputs, ¬d.Covers token
  tokenClass : ∀ interval ∈ classes.intervals, ∀ token, interval.1.Covers token →
    TokenClass products sourceOwner token interval.2
  nodes : classes.productClasses = (productRanges products).map (nodesOf products)
  /-- A range without an interval has been covered by shorter ranges and by discarded ones. -/
  eclipsed : ∀ id range, (productRanges products)[id]? = some range →
    ((∀ interval ∈ classes.intervals, interval.2 ≠ .products id) ↔ ∀ token, range.Covers token →
      (∃ d ∈ ledger.discardedOutputs, d.Covers token) ∨
        ∃ other ∈ productRanges products, other.len < range.len ∧ other.Covers token)
  apart : ∀ a ∈ classes.intervals, ∀ b ∈ classes.intervals, a.2 = b.2 → a.1.stop ≠ b.1.start
  ranges : ∀ interval ∈ classes.intervals, validateMacroOutputRanges
    (classes.rangesOf interval.2) ledger.outputTokenCount = .ok ()
  census : ∀ ranges : List MacroOutputRange,
    ranges.Perm (classes.intervals.map Prod.fst ++ ledger.discardedOutputs) →
      validateMacroOutputCensus ledger.outputTokenCount ranges = .ok ()

namespace OutputClasses

variable {products : List ObservedProduct} {sourceOwner : Option DefinitionId}
  {ledger : ValidatedMacroOutputLedger} {intervals : List (MacroOutputRange × PendingOutputClass)}

theorem Classified.range (h : Classified ledger products sourceOwner intervals)
    {interval : MacroOutputRange × PendingOutputClass} (hmem : interval ∈ intervals) :
    interval.1.start < interval.1.stop ∧ interval.1.stop ≤ ledger.outputTokenCount := by
  have hne := h.nonempty interval hmem
  have hlast := ((h.covers (interval.1.stop - 1)).mp ⟨interval, hmem, by omega, by omega⟩).1
  omega

theorem Classified.partition (h : Classified ledger products sourceOwner intervals)
    (hobserved : Observed ledger products) : OutputPartition ledger products sourceOwner
      ⟨intervals, (productRanges products).map (nodesOf products)⟩ where
  nonempty := h.nonempty
  inOrder := h.inOrder
  covers := h.covers
  tokenClass := h.tokenClass
  nodes := rfl
  eclipsed _ _ hid := h.eclipsed_iff hobserved hid
  apart _ ha _ hb hclass := h.ne_start hobserved ha hb hclass
  ranges interval hmem := by
    apply validateMacroOutputRanges_ok
    · have hmem' : interval ∈ intervals.filter fun other => other.2 = interval.2 :=
        mem_filter.mpr ⟨hmem, by simp⟩
      exact ne_nil_of_mem (mem_map_of_mem hmem')
    · intro r hr
      obtain ⟨other, hother, rfl⟩ := mem_map.mp hr
      exact h.range (mem_filter.mp hother).1
    · rw [PendingOutputClasses.rangesOf, pairwise_map]
      refine (h.inOrder.filter _).imp_of_mem fun {a b} ha hb hle => ?_
      obtain ⟨ha, hclassa⟩ := mem_filter.mp ha
      obtain ⟨hb, hclassb⟩ := mem_filter.mp hb
      have hclass : a.2 = b.2 := (of_decide_eq_true hclassa).trans (of_decide_eq_true hclassb).symm
      exact lt_of_le_of_ne hle (h.ne_start hobserved ha hb hclass)
  census ranges hperm := by
    have hmem : ∀ r, r ∈ ranges ↔
        (∃ interval ∈ intervals, interval.1 = r) ∨ r ∈ ledger.discardedOutputs := by
      intro r
      rw [hperm.mem_iff, mem_append, mem_map]
    apply validateMacroOutputCensus_ok
    · intro r hr
      rcases (hmem r).mp hr with ⟨interval, hinterval, rfl⟩ | hr
      · exact h.range hinterval
      · exact hobserved.discarded.range r hr
    · rw [hperm.pairwise_iff Apart.symm, pairwise_append, pairwise_map]
      refine ⟨h.inOrder.imp .inl, hobserved.discarded.inOrder.imp .inl, fun r hr d hd => ?_⟩
      obtain ⟨interval, hinterval, rfl⟩ := mem_map.mp hr
      have hne := h.nonempty interval hinterval
      have hne' := hobserved.discarded.range d hd
      -- the later of the two starts would be a token of both
      have hlive := fun hcovers =>
        ((h.covers (max interval.1.start d.start)).mp ⟨interval, hinterval, hcovers⟩).2 d hd
      unfold MacroOutputRange.Covers at hlive
      unfold Apart
      omega
    · intro token hlt
      by_cases hdead : ∃ d ∈ ledger.discardedOutputs, d.Covers token
      · obtain ⟨d, hd, hcovers⟩ := hdead
        exact ⟨d, (hmem d).mpr (.inr hd), hcovers⟩
      · push Not at hdead
        obtain ⟨interval, hinterval, hcovers⟩ := (h.covers token).mpr ⟨hlt, hdead⟩
        exact ⟨interval.1, (hmem _).mpr (.inl ⟨interval, hinterval, rfl⟩), hcovers⟩

end OutputClasses

section

variable {count : Nat} {live discarded : List MacroOutputRange}
  {ledger : ValidatedMacroOutputLedger} {products : List ObservedProduct}

/-- The classes of a macro's output partition it.  There are none only if a token has no owner, or
if the ranges outnumber the class numbers. -/
theorem outputClasses_partition
    (hledger : ValidatedMacroOutputLedger.new count live discarded = some ledger)
    (hnodup : products.Nodup)
    (hlive : ∀ product ∈ products, ledger.containsLiveOutput product.output = true)
    (sourceOwner : Option DefinitionId) :
    ((∃ e, outputClasses products ledger sourceOwner = .error e) ↔
      u32Size < (productRanges products).length ∨
        sourceOwner = none ∧ ∃ token < ledger.outputTokenCount,
          (∀ d ∈ ledger.discardedOutputs, ¬d.Covers token) ∧
            ∀ range ∈ productRanges products, ¬range.Covers token) ∧
      ∀ classes, outputClasses products ledger sourceOwner = .ok classes →
        OutputPartition ledger products sourceOwner classes := by
  have hobserved := Observed.of_new hledger hnodup hlive
  by_cases hsize : u32Size < (productRanges products).length
  · obtain ⟨e, herror⟩ := hobserved.outputClasses_error hsize sourceOwner
    refine ⟨iff_of_true ⟨e, herror⟩ (.inl hsize), fun classes hok => ?_⟩
    rw [herror] at hok
    cases hok
  · refine ⟨?_, fun classes hok => ?_⟩
    · rw [or_iff_right hsize]
      exact hobserved.outputClasses_error_iff (not_lt.mp hsize)
    · obtain ⟨hclassified, hnodes⟩ := hobserved.classified_of_ok hok
      have hpartition := hclassified.partition hobserved
      rwa [← hnodes] at hpartition

/-- A product inside of another one, beside a discarded token. -/
theorem outputClasses_partition_nested :
    OutputPartition ⟨4, [⟨0, 3⟩, ⟨1, 2⟩], [⟨3, 4⟩]⟩
      [⟨⟨1, 2⟩, .definition ⟨0⟩⟩, ⟨⟨0, 3⟩, .definition ⟨1⟩⟩] none
      ⟨[(⟨0, 1⟩, .products 0), (⟨1, 2⟩, .products 1), (⟨2, 3⟩, .products 0)],
        [[.definition ⟨1⟩], [.definition ⟨0⟩]]⟩ :=
  have hledger : ValidatedMacroOutputLedger.new 4 [⟨0, 3⟩, ⟨1, 2⟩] [⟨3, 4⟩] =
    some ⟨4, [⟨0, 3⟩, ⟨1, 2⟩], [⟨3, 4⟩]⟩ := rfl
  (outputClasses_partition hledger (by decide) (by decide) none).2 _ rfl

end

/-! ## More ranges than numbers -/

/-- Every single token, and every prefix of more than one token. -/
def crowdedRanges (count : Nat) : List MacroOutputRange :=
  ((List.range count).map fun i => ⟨i, i + 1⟩) ++ (List.range (count - 1)).map fun i => ⟨0, i + 2⟩

def crowdedProducts (count : Nat) : List ObservedProduct :=
  (crowdedRanges count).map fun range => ⟨range, .definition ⟨0⟩⟩

section

variable {count : Nat}

theorem mem_crowdedRanges {range : MacroOutputRange} : range ∈ crowdedRanges count ↔
    (∃ i < count, ⟨i, i + 1⟩ = range) ∨ ∃ i < count - 1, ⟨0, i + 2⟩ = range := by
  simp [crowdedRanges]

theorem nodup_crowdedRanges : (crowdedRanges count).Nodup := by
  rw [crowdedRanges, nodup_append]
  refine ⟨?_, ?_, ?_⟩
  · exact nodup_range.map fun i j h => congrArg MacroOutputRange.start h
  · exact nodup_range.map fun i j h => by simpa using congrArg MacroOutputRange.stop h
  · intro a ha b hb heq
    obtain ⟨i, -, rfl⟩ := mem_map.mp ha
    obtain ⟨j, -, rfl⟩ := mem_map.mp hb
    have hstart := congrArg MacroOutputRange.start heq
    have hstop := congrArg MacroOutputRange.stop heq
    dsimp only at hstart hstop
    omega

theorem exists_crowdedProduct {token : Nat} (htoken : token < count) :
    ∃ product ∈ crowdedProducts count, product.output.Covers token := by
  refine ⟨⟨⟨token, token + 1⟩, .definition ⟨0⟩⟩, ?_, le_rfl, Nat.lt_succ_self _⟩
  exact mem_map_of_mem (mem_crowdedRanges.mpr (.inl ⟨token, htoken, rfl⟩))

theorem crowdedRanges_wellFormed : OutputLedgerWellFormed count (crowdedRanges count) [] where
  live_range range hrange := by
    rcases mem_crowdedRanges.mp hrange with ⟨i, hi, rfl⟩ | ⟨i, hi, rfl⟩ <;> dsimp only <;> omega
  discarded_range := by simp
  laminar a ha b hb := by
    unfold Laminar Apart Encloses
    rcases mem_crowdedRanges.mp ha with ⟨i, hi, rfl⟩ | ⟨i, hi, rfl⟩ <;>
      rcases mem_crowdedRanges.mp hb with ⟨j, hj, rfl⟩ | ⟨j, hj, rfl⟩ <;> dsimp only <;> omega
  apart := .nil
  fits := by simp
  survives range hrange := by
    refine ⟨range.start, ⟨le_rfl, ?_⟩, by simp⟩
    rcases mem_crowdedRanges.mp hrange with ⟨i, hi, rfl⟩ | ⟨i, hi, rfl⟩ <;> dsimp only <;> omega

theorem productRanges_crowdedProducts :
    productRanges (crowdedProducts count) = sortDedup (crowdedRanges count) := by
  rw [productRanges, crowdedProducts, map_map]
  exact congrArg sortDedup (map_id' _)

theorem length_sortDedup_crowdedRanges :
    (sortDedup (crowdedRanges count)).length = count + (count - 1) := by
  rw [sortDedup, length_ascending, toFinset_card_of_nodup nodup_crowdedRanges, crowdedRanges]
  simp

/-- Although every token belongs to a product, the class numbers run out. -/
theorem outputClasses_crowdedProducts (hsize : u32Size < count + (count - 1)) : ∃ ledger,
    ValidatedMacroOutputLedger.new count (crowdedRanges count) [] = some ledger ∧
      (crowdedProducts count).Nodup ∧
      (∀ product ∈ crowdedProducts count, ledger.containsLiveOutput product.output = true) ∧
      (∀ token < ledger.outputTokenCount, ∃ product ∈ crowdedProducts count,
        product.output.Covers token) ∧
      ∃ e, outputClasses (crowdedProducts count) ledger none = .error e := by
  have hledger : ValidatedMacroOutputLedger.new count (crowdedRanges count) [] = some _ :=
    ValidatedMacroOutputLedger.new_eq_some_iff.mpr ⟨crowdedRanges_wellFormed, rfl⟩
  have hnodup : (crowdedProducts count).Nodup :=
    nodup_crowdedRanges.map fun a b h => congrArg ObservedProduct.output h
  have hlive : ∀ product ∈ crowdedProducts count,
      product.output ∈ sortDedup (crowdedRanges count) := by
    intro product hproduct
    obtain ⟨range, hrange, rfl⟩ := mem_map.mp hproduct
    exact mem_sortDedup.mpr hrange
  have hlive' := fun product hproduct => contains_iff_mem.mpr (hlive product hproduct)
  refine ⟨_, hledger, hnodup, hlive', fun token htoken => exists_crowdedProduct htoken, ?_⟩
  apply (Observed.of_new hledger hnodup hlive').outputClasses_error
  rwa [productRanges_crowdedProducts, length_sortDedup_crowdedRanges]

end

/-- So they do for an output that 32-bit positions can still number. -/
theorem outputClasses_crowded : ∃ ledger,
    ValidatedMacroOutputLedger.new (u32Size - 1) (crowdedRanges (u32Size - 1)) [] = some ledger ∧
      (crowdedProducts (u32Size - 1)).Nodup ∧
      (∀ product ∈ crowdedProducts (u32Size - 1), ledger.containsLiveOutput product.output = true) ∧
      (∀ token < ledger.outputTokenCount, ∃ product ∈ crowdedProducts (u32Size - 1),
        product.output.Covers token) ∧
      ∃ e, outputClasses (crowdedProducts (u32Size - 1)) ledger none = .error e :=
  outputClasses_crowdedProducts (by unfold u32Size; omega)

end ItemDependencies
