import ItemDependencies.Source.DeriveLayout
import ItemDependencies.Source.ListGaps
import ItemDependencies.Source.ParenLists

/-!
# The elements of a list, segment by segment

The layout of a derive list is found when each segment holds its element and
only the last one may hold none.
-/

namespace ItemDependencies

open Library Library.Brackets RawToken List

/-- The entries of the segments that hold an element. -/
def layoutOf (segments : List CommaListSegment) (found : List (Option ByteRange)) :
    List DeriveListEntryLayout :=
  (segments.zip found).flatMap fun entry => entry.2.toList.map fun element =>
    ⟨element, entry.1.range, entry.1.previousComma, entry.1.followingComma⟩

/-- What the loop finds in a segment. -/
def Finds (tokens : List SourceToken) (elements : List ByteRange) (commaCount : Nat)
    (entry : CommaListSegment × Nat) (element : Option ByteRange) : Prop :=
  segmentElement elements commaCount entry.2 entry.1.range = .ok element ∧
    strayToken tokens entry.1.range element = false

/-- Segments that follow each other. -/
def SegmentsAscend (segments : List CommaListSegment) : Prop :=
  segments.Pairwise fun a b => a.range.stop ≤ b.range.start

/-- The element of a segment lies in it and has some text. -/
def HoldsElement (segment : CommaListSegment) (element : Option ByteRange) : Prop :=
  ∀ e ∈ element, segment.range.contains e = true ∧ e.start < e.stop

section

variable {tokens : List SourceToken} {elements : List ByteRange} {commaCount k : Nat}
  {segments : List CommaListSegment} {found : List (Option ByteRange)}
  {state state' : List ByteRange × List DeriveListEntryLayout} {element : Option ByteRange}
  {segment : CommaListSegment} {range : ByteRange}

theorem layoutOf_cons : layoutOf (segment :: segments) (element :: found) =
    element.toList.map (fun element =>
      ⟨element, segment.range, segment.previousComma, segment.followingComma⟩) ++
      layoutOf segments found := rfl

/-! ## The loop over the segments -/

theorem deriveLayoutStep_ok
    (h : deriveLayoutStep tokens elements commaCount state (segment, k) = .ok state') :
    ∃ element, Finds tokens elements commaCount (segment, k) element ∧
      state' = (state.1 ++ element.toList, state.2 ++ element.toList.map fun element =>
        ⟨element, segment.range, segment.previousComma, segment.followingComma⟩) := by
  unfold deriveLayoutStep at h
  obtain ⟨element, helement, h⟩ := bind_ok h
  obtain ⟨-, h⟩ := guard_ok h
  obtain ⟨hstray, h⟩ := guard_ok h
  cases h
  exact ⟨element, ⟨helement, by simpa using hstray⟩, rfl⟩

theorem deriveLayoutStep_total (h : Finds tokens elements commaCount (segment, k) element)
    (hnew : ∀ e ∈ element, e ∉ state.1) :
    deriveLayoutStep tokens elements commaCount state (segment, k) =
      .ok (state.1 ++ element.toList, state.2 ++ element.toList.map fun element =>
        ⟨element, segment.range, segment.previousComma, segment.followingComma⟩) := by
  have hassigned : ¬element.any state.1.contains = true := by
    rw [Option.any_eq_true]
    rintro ⟨e, he, hmem⟩
    exact hnew e he (by simpa using hmem)
  unfold deriveLayoutStep
  dsimp only
  rw [h.1]
  dsimp only [bind, Except.bind]
  rw [if_neg hassigned, if_neg (by simp [h.2])]
  rfl

theorem deriveLayoutSteps_ok (h : (segments.zipIdx k).foldlM
      (deriveLayoutStep tokens elements commaCount) state = .ok state') :
    ∃ found, List.Forall₂ (Finds tokens elements commaCount) (segments.zipIdx k) found ∧
      state' = (state.1 ++ found.flatMap Option.toList, state.2 ++ layoutOf segments found) := by
  induction segments generalizing k state with
  | nil =>
    cases h
    exact ⟨[], .nil, by simp [layoutOf]⟩
  | cons segment segments ih =>
    rw [zipIdx_cons, foldlM_cons] at h
    obtain ⟨next, hstep, h⟩ := bind_ok h
    obtain ⟨element, helement, rfl⟩ := deriveLayoutStep_ok hstep
    obtain ⟨found, hfound, rfl⟩ := ih h
    refine ⟨element :: found, .cons helement hfound, ?_⟩
    rw [layoutOf_cons, flatMap_cons, append_assoc, append_assoc]

theorem deriveLayoutSteps_total
    (h : List.Forall₂ (Finds tokens elements commaCount) (segments.zipIdx k) found)
    (hnodup : (state.1 ++ found.flatMap Option.toList).Nodup) :
    (segments.zipIdx k).foldlM (deriveLayoutStep tokens elements commaCount) state =
      .ok (state.1 ++ found.flatMap Option.toList, state.2 ++ layoutOf segments found) := by
  induction segments generalizing k state found with
  | nil =>
    cases h
    simp [layoutOf]
    rfl
  | cons segment segments ih =>
    rw [zipIdx_cons] at h ⊢
    cases h with
    | @cons _ element _ found helement h =>
      rw [flatMap_cons, ← append_assoc] at hnodup
      have hnew : ∀ e ∈ element, e ∉ state.1 := by
        intro e he hmem
        have hdisjoint := disjoint_of_nodup_append (nodup_append.mp hnodup).1
        exact hdisjoint hmem (by simpa using he)
      rw [foldlM_cons, deriveLayoutStep_total helement hnew]
      refine (ih h hnodup).trans ?_
      rw [layoutOf_cons, flatMap_cons, append_assoc, append_assoc]

/-! ## The elements in their order -/

theorem lt_of_stop_le {a b : ByteRange} (hne : a.start < a.stop) (h : a.stop ≤ b.start) : a < b :=
  Prod.Lex.toLex_lt_toLex.mpr (.inl (by dsimp only; omega))

theorem holdsElement_of_finds (hne : ∀ e ∈ elements, e.start < e.stop)
    (h : Finds tokens elements commaCount (segment, k) element) :
    HoldsElement segment element ∧ ∀ e ∈ element, e ∈ elements := by
  have hsegment := h.1
  unfold segmentElement at hsegment
  split at hsegment
  · obtain ⟨-, hsegment⟩ | ⟨-, hsegment⟩ := ite_eq_iff.mp hsegment
    · cases hsegment
      exact ⟨by simp [HoldsElement], by simp⟩
    · cases hsegment
  · rename_i found hfilter
    cases hsegment
    have hmem := mem_filter.mp (hfilter ▸ mem_singleton_self found)
    refine ⟨fun e he => ?_, fun e he => ?_⟩
    · cases he
      exact ⟨hmem.2, hne _ hmem.1⟩
    · cases he
      exact hmem.1
  · cases hsegment

theorem exists_segment_of_mem (h : List.Forall₂ HoldsElement segments found)
    (hmem : range ∈ found.flatMap Option.toList) : ∃ segment ∈ segments,
      segment.range.contains range = true ∧ range.start < range.stop := by
  induction h with
  | nil => cases hmem
  | @cons segment element _ _ hhead _ ih =>
    rcases mem_append.mp hmem with hmem | hmem
    · exact ⟨segment, mem_cons_self, hhead range (Option.mem_toList.mp hmem)⟩
    · obtain ⟨later, hlater, hcontains⟩ := ih hmem
      exact ⟨later, mem_cons_of_mem _ hlater, hcontains⟩

theorem pairwise_found (hasc : SegmentsAscend segments)
    (h : List.Forall₂ HoldsElement segments found) :
    (found.flatMap Option.toList).Pairwise fun a b => a < b ∧ a.stop ≤ b.start := by
  induction h with
  | nil => exact .nil
  | @cons segment element segments found hhead hrest ih =>
    obtain ⟨hfirst, hasc⟩ := pairwise_cons.mp hasc
    refine pairwise_append.mpr ⟨?_, ih hasc, ?_⟩
    · cases element <;> simp
    · intro a ha b hb
      obtain ⟨later, hlater, hb, -⟩ := exists_segment_of_mem hrest hb
      obtain ⟨ha, hne⟩ := hhead a (Option.mem_toList.mp ha)
      have := hfirst later hlater
      rw [ByteRange.contains_iff] at ha hb
      have hstop : a.stop ≤ b.start := by omega
      exact ⟨lt_of_stop_le hne hstop, hstop⟩

/-- Elements in their order, as many as there are, are all of them. -/
theorem flatMap_found_eq (hasc : SegmentsAscend segments) (hordered : elements.Pairwise (· < ·))
    (h : List.Forall₂ HoldsElement segments found)
    (hsubset : ∀ e ∈ found.flatMap Option.toList, e ∈ elements)
    (hlength : (found.flatMap Option.toList).length = elements.length) :
    found.flatMap Option.toList = elements := by
  have hfound := (pairwise_found hasc h).imp And.left
  have hperm := (subperm_of_subset (hfound.imp ne_of_lt) hsubset).perm_of_length_le hlength.ge
  exact hperm.eq_of_pairwise' (hfound.imp le_of_lt) (hordered.imp le_of_lt)

/-- In each segment lies its own element only. -/
theorem filter_found (hasc : SegmentsAscend segments)
    (h : List.Forall₂ HoldsElement segments found) (done : List ByteRange)
    (hdone : ∀ e ∈ done, e.start < e.stop ∧ ∀ segment ∈ segments, e.stop ≤ segment.range.start) :
    List.Forall₂ (fun segment element =>
      (done ++ found.flatMap Option.toList).filter segment.range.contains = element.toList)
      segments found := by
  induction h generalizing done with
  | nil => exact .nil
  | @cons segment element segments found hhead hrest ih =>
    obtain ⟨hfirst, hasc⟩ := pairwise_cons.mp hasc
    refine .cons ?_ ?_
    · have hbefore : done.filter segment.range.contains = [] := by
        refine filter_eq_nil_iff.mpr fun e he => ?_
        obtain ⟨hne, he⟩ := hdone e he
        have := he segment mem_cons_self
        rw [ByteRange.contains_iff]
        omega
      have hbehind : (found.flatMap Option.toList).filter segment.range.contains = [] := by
        refine filter_eq_nil_iff.mpr fun e he => ?_
        obtain ⟨later, hlater, hcontains, hne⟩ := exists_segment_of_mem hrest he
        have := hfirst later hlater
        rw [ByteRange.contains_iff] at hcontains ⊢
        omega
      rw [flatMap_cons, filter_append, filter_append, hbefore, hbehind, append_nil, nil_append]
      refine filter_eq_self.mpr fun e he => (hhead e (Option.mem_toList.mp he)).1
    · rw [flatMap_cons, ← append_assoc]
      refine ih hasc _ fun e he => ?_
      rcases mem_append.mp he with he | he
      · exact ⟨(hdone e he).1, fun later hlater =>
          (hdone e he).2 later (mem_cons_of_mem _ hlater)⟩
      · obtain ⟨hcontains, hne⟩ := hhead e (Option.mem_toList.mp he)
        refine ⟨hne, fun later hlater => ?_⟩
        have := hfirst later hlater
        rw [ByteRange.contains_iff] at hcontains
        omega

/-- The layout is in the order of the elements. -/
theorem insertionSort_layoutOf (hasc : SegmentsAscend segments)
    (h : List.Forall₂ HoldsElement segments found) :
    (layoutOf segments found).insertionSort (fun a b => a.element ≤ b.element) =
      layoutOf segments found := by
  have helements : ∀ {segments : List CommaListSegment} {found : List (Option ByteRange)},
      List.Forall₂ HoldsElement segments found →
      (layoutOf segments found).map DeriveListEntryLayout.element =
        found.flatMap Option.toList := by
    intro segments found h
    induction h with
    | nil => rfl
    | @cons segment element _ _ _ _ ih =>
      rw [layoutOf_cons, map_append, ih, map_map, flatMap_cons]
      exact congrArg (· ++ _) (map_id' _)
  have hsorted := (pairwise_found hasc h).imp And.left
  rw [← helements h, pairwise_map] at hsorted
  exact List.Pairwise.insertionSort_eq (hsorted.imp le_of_lt)

theorem segmentElement_some {e : ByteRange} (h : elements.filter range.contains = [e]) :
    segmentElement elements commaCount k range = .ok (some e) := by
  rw [segmentElement, h]
  rfl

theorem segmentElement_none (h : elements.filter range.contains = [])
    (hk : k = elements.length ∧ commaCount = elements.length) :
    segmentElement elements commaCount k range = .ok none := by
  rw [segmentElement, h]
  exact if_pos hk

/-- A segment without an element is the last one. -/
theorem last_of_finds_none (h : Finds tokens elements (segments.length - 1) (segment, k) none)
    (hk : k < segments.length) : k + 1 = segments.length := by
  have hsegment := h.1
  unfold segmentElement at hsegment
  split at hsegment
  · obtain ⟨hcount, -⟩ | ⟨-, hsegment⟩ := ite_eq_iff.mp hsegment
    · dsimp only at hcount
      omega
    · cases hsegment
  · cases hsegment
  · cases hsegment

/-- What the layout of a list consists of. -/
theorem deriveListLayout_ok {layout : List DeriveListEntryLayout} (hasc : SegmentsAscend segments)
    (hne : ∀ e ∈ elements, e.start < e.stop) (hordered : elements.Pairwise (· < ·))
    (h : deriveListLayout tokens elements segments = .ok layout) :
    ∃ found, List.Forall₂ (Finds tokens elements (segments.length - 1)) segments.zipIdx found ∧
      List.Forall₂ HoldsElement segments found ∧ found.flatMap Option.toList = elements ∧
      layout = layoutOf segments found := by
  unfold deriveListLayout at h
  obtain ⟨-, h⟩ := guard_ok h
  obtain ⟨state, hrun, h⟩ := bind_ok h
  obtain ⟨assigned, unsorted⟩ := state
  obtain ⟨hlength, h⟩ := guard_ok h
  cases h
  obtain ⟨found, hfound, hstate⟩ := deriveLayoutSteps_ok hrun
  cases hstate
  rw [nil_append] at hlength
  have hholds : List.Forall₂ (fun entry element => HoldsElement entry.1 element ∧
      ∀ e ∈ element, e ∈ elements) segments.zipIdx found :=
    hfound.imp fun entry element h => holdsElement_of_finds hne h
  have hsegments : List.Forall₂ (fun segment element => HoldsElement segment element ∧
      ∀ e ∈ element, e ∈ elements) segments found := by
    have hmap := forall₂_map_left_iff (R := fun segment element =>
      HoldsElement segment element ∧ ∀ e ∈ element, e ∈ elements) (f := Prod.fst)
      (l := segments.zipIdx) (u := found)
    rw [zipIdx_map_fst] at hmap
    exact hmap.mpr hholds
  have helements : ∀ e ∈ found.flatMap Option.toList, e ∈ elements := by
    intro e he
    obtain ⟨element, helement, he⟩ := mem_flatMap.mp he
    obtain ⟨i, hi⟩ := getElem?_of_mem helement
    obtain ⟨segment, -, -, hmem⟩ := getElem?_of_forall₂_right hsegments hi
    exact hmem e (Option.mem_toList.mp he)
  have hsegments : List.Forall₂ HoldsElement segments found := hsegments.imp fun _ _ h => h.1
  refine ⟨found, hfound, hsegments, ?_, ?_⟩
  · exact flatMap_found_eq hasc hordered hsegments helements (not_not.mp hlength)
  · rw [nil_append]
    exact insertionSort_layoutOf hasc hsegments

/-- Where each segment but the last one holds its element, the list has a layout. -/
theorem deriveListLayout_total (hasc : SegmentsAscend segments)
    (hholds : List.Forall₂ HoldsElement segments found)
    (hfinds : List.Forall₂ (Finds tokens (found.flatMap Option.toList) (segments.length - 1))
      segments.zipIdx found) (hsegments : segments ≠ [])
    (hcount : segments.length - 1 = (found.flatMap Option.toList).length - 1 ∨
      segments.length - 1 = (found.flatMap Option.toList).length) :
    deriveListLayout tokens (found.flatMap Option.toList) segments =
      .ok (layoutOf segments found) := by
  have hnodup : (([], []) : List ByteRange × List DeriveListEntryLayout).1 ++
      found.flatMap Option.toList |>.Nodup := (pairwise_found hasc hholds).imp fun h => ne_of_lt h.1
  unfold deriveListLayout
  dsimp only
  rw [if_neg (not_or.mpr ⟨hsegments, not_not.mpr hcount⟩), deriveLayoutSteps_total hfinds hnodup]
  dsimp only [bind, Except.bind]
  rw [nil_append, if_neg (not_not.mpr rfl), nil_append, insertionSort_layoutOf hasc hholds]
  rfl

/-! ## The checks of the elements -/

theorem all_zip_tail (hne : ∀ e ∈ elements, e.start < e.stop) :
    ((elements.zip elements.tail).all fun pair => decide (pair.1.stop ≤ pair.2.start)) = true ↔
      elements.Pairwise fun a b => a.stop ≤ b.start := by
  induction elements with
  | nil => simp
  | cons a elements ih =>
    obtain ⟨-, hrest⟩ := forall_mem_cons.mp hne
    cases elements with
    | nil => simp
    | cons b elements =>
      obtain ⟨hb, -⟩ := forall_mem_cons.mp hrest
      rw [tail_cons, zip_cons_cons, all_cons, Bool.and_eq_true, decide_eq_true_eq]
      rw [tail_cons] at ih
      rw [ih hrest, pairwise_cons (a := a), pairwise_cons, forall_mem_cons]
      constructor
      · rintro ⟨hab, hbehind, hpairwise⟩
        refine ⟨⟨hab, fun c hc => ?_⟩, hbehind, hpairwise⟩
        have := hbehind c hc
        dsimp only at hab
        omega
      · rintro ⟨⟨hab, -⟩, h⟩
        exact ⟨hab, h⟩

theorem elementsValid_iff {source : List Char} {attribute' : ByteRange} :
    elementsValid source attribute' elements = true ↔
      (validRange source attribute' = true ∧ attribute'.isEmpty = false) ∧
      (∀ e ∈ elements, e.start < e.stop ∧ attribute'.contains e = true ∧
        validRange source e = true) ∧ elements.Pairwise fun a b => a.stop ≤ b.start := by
  have hnonempty : ∀ e : ByteRange, validRange source e = true →
      (e.isEmpty = false ↔ e.start < e.stop) := by
    intro e he
    simp only [validRange, Bool.and_eq_true, decide_eq_true_eq] at he
    simp only [ByteRange.isEmpty, beq_eq_false_iff_ne]
    omega
  simp only [elementsValid, Bool.and_eq_true, Bool.not_eq_true', all_eq_true]
  constructor
  · rintro ⟨⟨hattribute, helements⟩, hzip⟩
    have hall : ∀ e ∈ elements, e.start < e.stop ∧ attribute'.contains e = true ∧
        validRange source e = true := fun e he => by
      obtain ⟨⟨hempty, hcontains⟩, hvalid⟩ := helements e he
      exact ⟨(hnonempty e hvalid).mp hempty, hcontains, hvalid⟩
    exact ⟨hattribute, hall, (all_zip_tail fun e he => (hall e he).1).mp (all_eq_true.mpr hzip)⟩
  · rintro ⟨hattribute, hall, hpairwise⟩
    refine ⟨⟨hattribute, fun e he => ?_⟩, ?_⟩
    · obtain ⟨hne, hcontains, hvalid⟩ := hall e he
      exact ⟨⟨(hnonempty e hvalid).mpr hne, hcontains⟩, hvalid⟩
    · exact all_eq_true.mp ((all_zip_tail fun e he => (hall e he).1).mpr hpairwise)

end

end ItemDependencies
