import ItemDependencies.Expansion.OutputClasses

/-!
# The sweep over a macro's output

After each step of the sweep the active ranges are those that the position
belongs to, so an interval gets the class of its first token.
-/

namespace ItemDependencies

open Library OutputClasses List

namespace OutputClasses

variable {classByRange : SortedMap MacroOutputRange Nat} {sourceOwner : Option DefinitionId}
  {discarded : List MacroOutputRange} {position : Nat} {range : MacroOutputRange}
  {ranges : List MacroOutputRange} {later : List Nat} {p q : MacroOutputRange → Bool}

/-! ## Open ranges -/

theorem activeRange_injective : Function.Injective activeRange := by
  intro a b h
  have h := congrArg (fun r : ActiveRange => (ofLex (ofLex r).2)) h
  cases a
  cases b
  simpa [activeRange] using h

@[simp] theorem mem_startsAt :
    range ∈ startsAt classByRange position ↔
      range ∈ classByRange.keys ∧ range.start = position := by
  simp [startsAt, and_comm]

@[simp] theorem mem_endsAt :
    range ∈ endsAt classByRange position ↔ range ∈ classByRange.keys ∧ range.stop = position := by
  simp [endsAt, and_comm]

theorem nodup_startsAt : (startsAt classByRange position).Nodup := by
  rw [startsAt, valuesAt, filter_map, map_map]
  exact (SortedMap.nodup_keys.filter _).map fun _ _ h => h

theorem nodup_endsAt : (endsAt classByRange position).Nodup := by
  rw [endsAt, valuesAt, filter_map, map_map]
  exact (SortedMap.nodup_keys.filter _).map fun _ _ h => h

/-- The open ranges, as a set of keys. -/
def activeSet (ranges : List MacroOutputRange) (p : MacroOutputRange → Bool) : Finset ActiveRange :=
  ((ranges.filter p).map activeRange).toFinset

@[simp] theorem mem_activeSet :
    activeRange range ∈ activeSet ranges p ↔ range ∈ ranges ∧ p range = true := by
  simp [activeSet, activeRange_injective.eq_iff]

theorem activeSet_congr (h : ∀ r ∈ ranges, p r = q r) :
    activeSet ranges p = activeSet ranges q := by
  rw [activeSet, activeSet, filter_congr h]

theorem activeSet_erase :
    (activeSet ranges p).erase (activeRange range) =
      activeSet ranges fun r => p r && r ≠ range := by
  ext key
  simp only [activeSet, Finset.mem_erase, mem_toFinset, mem_map, mem_filter,
    Bool.and_eq_true, decide_eq_true_eq]
  constructor
  · rintro ⟨hne, r, ⟨hr, hp⟩, rfl⟩
    exact ⟨r, ⟨hr, hp, fun h => hne (by rw [h])⟩, rfl⟩
  · rintro ⟨r, ⟨hr, hp, hne⟩, rfl⟩
    exact ⟨fun h => hne (activeRange_injective h), r, ⟨hr, hp⟩, rfl⟩

theorem activeSet_insert (hmem : range ∈ ranges) :
    insert (activeRange range) (activeSet ranges p) =
      activeSet ranges fun r => p r || r = range := by
  ext key
  simp only [activeSet, Finset.mem_insert, mem_toFinset, mem_map, mem_filter,
    Bool.or_eq_true, decide_eq_true_eq]
  constructor
  · rintro (rfl | ⟨r, ⟨hr, hp⟩, rfl⟩)
    · exact ⟨range, ⟨hmem, .inr rfl⟩, rfl⟩
    · exact ⟨r, ⟨hr, .inl hp⟩, rfl⟩
  · rintro ⟨r, ⟨hr, hp | rfl⟩, rfl⟩
    · exact .inr ⟨r, ⟨hr, hp⟩, rfl⟩
    · exact .inl rfl

/-- Closing some open ranges. -/
theorem foldlM_closeRange {ranges closed : List MacroOutputRange} (hnodup : closed.Nodup)
    (hmem : ∀ r ∈ closed, r ∈ ranges ∧ p r = true)
    (hq : ∀ r ∈ ranges, q r = true ↔ p r = true ∧ r ∉ closed) :
    closed.foldlM closeRange (activeSet ranges p) = .ok (activeSet ranges q) := by
  induction closed generalizing p with
  | nil =>
    rw [foldlM_nil, activeSet_congr (p := p) (q := q)]
    · rfl
    · intro r hr
      rw [Bool.eq_iff_iff, hq r hr]
      simp
  | cons range closed ih =>
    obtain ⟨hnew, hnodup⟩ := nodup_cons.mp hnodup
    obtain ⟨hrange, hopen⟩ := hmem range (by simp)
    rw [foldlM_cons, closeRange, if_neg (not_not.mpr (mem_activeSet.mpr ⟨hrange, hopen⟩)),
      activeSet_erase]
    apply ih hnodup
    · intro r hr
      have hne : r ≠ range := ne_of_mem_of_not_mem hr hnew
      simp [hmem r (by simp [hr]), hne]
    · intro r hr
      rw [hq r hr]
      simp [and_assoc]

/-- Opening some ranges that are not yet open. -/
theorem foldlM_openRange {ranges opened : List MacroOutputRange} (hnodup : opened.Nodup)
    (hmem : ∀ r ∈ opened, r ∈ ranges ∧ p r = false)
    (hq : ∀ r ∈ ranges, q r = true ↔ p r = true ∨ r ∈ opened) :
    opened.foldlM openRange (activeSet ranges p) = .ok (activeSet ranges q) := by
  induction opened generalizing p with
  | nil =>
    rw [foldlM_nil, activeSet_congr (p := p) (q := q)]
    · rfl
    · intro r hr
      rw [Bool.eq_iff_iff, hq r hr]
      simp
  | cons range opened ih =>
    obtain ⟨hnew, hnodup⟩ := nodup_cons.mp hnodup
    obtain ⟨hrange, hclosed⟩ := hmem range (by simp)
    have hnotin : activeRange range ∉ activeSet ranges p := by simp [hclosed]
    rw [foldlM_cons, openRange, if_neg hnotin, activeSet_insert hrange]
    apply ih hnodup
    · intro r hr
      have hne : r ≠ range := ne_of_mem_of_not_mem hr hnew
      simp [hmem r (by simp [hr]), hne]
    · intro r hr
      rw [hq r hr]
      simp [or_assoc]

/-! ## The sweep -/

/-- The ranges that a position belongs to. -/
def openAt (ranges : List MacroOutputRange) (position : Nat) : Finset ActiveRange :=
  activeSet ranges fun r => r.start ≤ position && position < r.stop

/-- The ranges that have begun before a position and have not been closed. -/
def openBefore (ranges : List MacroOutputRange) (position : Nat) : Finset ActiveRange :=
  activeSet ranges fun r => r.start < position && position ≤ r.stop

theorem active_sweepStep (hne : ∀ r ∈ classByRange.keys, r.start < r.stop) :
    (do
      let active ← (endsAt classByRange position).foldlM closeRange
        (openBefore classByRange.keys position)
      (startsAt classByRange position).foldlM openRange active) =
      (.ok (openAt classByRange.keys position) : Except ExpansionError (Finset ActiveRange)) := by
  have hclose : (endsAt classByRange position).foldlM closeRange
      (openBefore classByRange.keys position) =
      .ok (activeSet classByRange.keys fun r => r.start < position && position < r.stop) := by
    apply foldlM_closeRange nodup_endsAt
    · intro r hr
      obtain ⟨hkey, rfl⟩ := mem_endsAt.mp hr
      simp [hkey, hne r hkey]
    · intro r hr
      simp only [Bool.and_eq_true, decide_eq_true_eq, mem_endsAt, hr, true_and]
      omega
  rw [hclose]
  apply foldlM_openRange nodup_startsAt
  · intro r hr
    obtain ⟨hkey, rfl⟩ := mem_startsAt.mp hr
    simp [hkey]
  · intro r hr
    have := hne r hr
    simp only [Bool.and_eq_true, decide_eq_true_eq, mem_startsAt, hr, true_and]
    omega

/-- Whether the token at a position has been discarded. -/
def isDiscarded (discarded : List MacroOutputRange) (position : Nat) : Bool :=
  discarded.any fun d => d.start ≤ position && position < d.stop

theorem isDiscarded_iff :
    isDiscarded discarded position = true ↔ ∃ d ∈ discarded, d.Covers position := by
  simp [isDiscarded, MacroOutputRange.Covers]

theorem isDiscarded_eq_false_iff :
    isDiscarded discarded position = false ↔ ∀ d ∈ discarded, ¬d.Covers position := by
  rw [← Bool.not_eq_true, isDiscarded_iff]
  push Not
  rfl

/-- The discarded range that the sweep looks at is the only one that may contain the interval. -/
theorem head?_any_contains {pair : Nat × Nat}
    (hinOrder : discarded.Pairwise fun a b => a.stop ≤ b.start) (hlt : pair.1 < pair.2)
    (hne : ∀ d ∈ discarded, d.start < d.stop)
    (hgap : ∀ d ∈ discarded, d.stop ≤ pair.1 ∨ pair.2 ≤ d.stop) :
    ((discarded.dropWhile fun d => d.stop ≤ pair.1).head?.any
      fun d => d.contains ⟨pair.1, pair.2⟩) = isDiscarded discarded pair.1 := by
  have hpartitioned : Partitioned (fun d : MacroOutputRange => d.stop ≤ pair.1) discarded :=
    hinOrder.imp_of_mem fun {x y} _ hy hxy hle => by
      have := hne y hy
      simp only [decide_eq_true_eq] at hle ⊢
      omega
  rw [Bool.eq_iff_iff, isDiscarded_iff, Option.any_eq_true]
  constructor
  · rintro ⟨d, hd, hcontains⟩
    obtain ⟨hd, -⟩ := (mem_dropWhile_iff hpartitioned).mp (mem_of_head? hd)
    obtain ⟨hstart, hstop⟩ := MacroOutputRange.contains_iff.mp hcontains
    exact ⟨d, hd, hstart, hlt.trans_le hstop⟩
  · rintro ⟨d, hd, hstart, hstop⟩
    have hmem : d ∈ discarded.dropWhile fun d => d.stop ≤ pair.1 :=
      (mem_dropWhile_iff hpartitioned).mpr ⟨hd, by simpa using hstop⟩
    cases hleft : discarded.dropWhile fun d => d.stop ≤ pair.1 with
    | nil =>
      rw [hleft] at hmem
      cases hmem
    | cons first others =>
      have hpair := hinOrder.sublist (dropWhile_suffix fun d =>
        decide (d.stop ≤ pair.1)).sublist
      rw [hleft] at hmem hpair
      have hfirst : pair.1 < first.stop := by
        have : first ∈ discarded.dropWhile fun d => d.stop ≤ pair.1 := by simp [hleft]
        simpa using ((mem_dropWhile_iff hpartitioned).mp this).2
      refine ⟨first, rfl, ?_⟩
      rcases mem_cons.mp hmem with rfl | hlater
      · exact MacroOutputRange.contains_iff.mpr ⟨hstart, (hgap d hd).resolve_left (by omega)⟩
      · have := (pairwise_cons.mp hpair).1 d hlater
        omega

/-- One interval, with the class of its first token. -/
def classifyPair (classByRange : SortedMap MacroOutputRange Nat)
    (sourceOwner : Option DefinitionId) (pair : Nat × Nat) :
    Except ExpansionError (MacroOutputRange × PendingOutputClass) :=
  (classOf classByRange sourceOwner (openAt classByRange.keys pair.1)).map fun found =>
    (⟨pair.1, pair.2⟩, found)

/-- Nothing starts or stops between the positions. -/
structure Positions (classByRange : SortedMap MacroOutputRange Nat)
    (discarded : List MacroOutputRange) (position : Nat) (later : List Nat) : Prop where
  sorted : (position :: later).Pairwise (· < ·)
  range_start : ∀ r ∈ classByRange.keys, r.start ≤ position ∨ r.start ∈ later
  range_stop : ∀ r ∈ classByRange.keys, r.stop ≤ position ∨ r.stop ∈ later
  discarded_stop : ∀ d ∈ discarded, d.stop ≤ position ∨ d.stop ∈ later

theorem Positions.next {position next : Nat}
    (h : Positions classByRange discarded position (next :: later)) :
    Positions classByRange discarded next later := by
  have hlt : position < next := (pairwise_cons.mp h.sorted).1 next (by simp)
  have hstep : ∀ x, x ≤ position ∨ x ∈ next :: later → x ≤ next ∨ x ∈ later := by
    rintro x (hx | hx)
    · exact .inl (hx.trans hlt.le)
    · rcases mem_cons.mp hx with rfl | hx
      · exact .inl le_rfl
      · exact .inr hx
  exact ⟨(pairwise_cons.mp h.sorted).2, fun r hr => hstep _ (h.range_start r hr),
    fun r hr => hstep _ (h.range_stop r hr), fun d hd => hstep _ (h.discarded_stop d hd)⟩

/-- A position that is not behind the next one has been passed already. -/
theorem Positions.gap {position next x : Nat}
    (h : Positions classByRange discarded position (next :: later))
    (hx : x ≤ position ∨ x ∈ next :: later) : x ≤ position ∨ next ≤ x := by
  rcases hx with hx | hx
  · exact .inl hx
  · rcases mem_cons.mp hx with rfl | hx
    · exact .inr le_rfl
    · exact .inr ((pairwise_cons.mp (pairwise_cons.mp h.sorted).2).1 x hx).le

/-- What one step of the sweep does. -/
theorem sweepStep_eq (hne : ∀ r ∈ classByRange.keys, r.start < r.stop)
    (hdiscarded : ∀ d ∈ discarded, d.start < d.stop)
    (hinOrder : discarded.Pairwise fun a b => a.stop ≤ b.start) {position next : Nat}
    (h : Positions classByRange discarded position (next :: later)) {left : List MacroOutputRange}
    (hleft : left.dropWhile (fun d => d.stop ≤ position) =
      discarded.dropWhile fun d => d.stop ≤ position)
    (classified : List (MacroOutputRange × PendingOutputClass)) :
    sweepStep classByRange sourceOwner ⟨openBefore classByRange.keys position, left, classified⟩
        (position, next) =
      if isDiscarded discarded position then
        .ok ⟨openAt classByRange.keys position,
          discarded.dropWhile (fun d => d.stop ≤ position), classified⟩
      else (classifyPair classByRange sourceOwner (position, next)).map fun found =>
        ⟨openAt classByRange.keys position,
          discarded.dropWhile (fun d => d.stop ≤ position), classified ++ [found]⟩ := by
  have hlt : position < next := (pairwise_cons.mp h.sorted).1 next (by simp)
  have hhead := @head?_any_contains discarded (position, next) hinOrder hlt hdiscarded
    fun d hd => h.gap (h.discarded_stop d hd)
  rw [sweepStep, ← bind_assoc, active_sweepStep hne]
  show (if position = next then _ else _) = _
  rw [if_neg hlt.ne]
  dsimp only
  rw [hleft, hhead]
  split
  · rfl
  · rw [classifyPair]
    cases classOf classByRange sourceOwner (openAt classByRange.keys position) <;> rfl

/-- The ranges open at a position are those that have begun before the next. -/
theorem Positions.openAt_eq {position next : Nat}
    (h : Positions classByRange discarded position (next :: later)) :
    openAt classByRange.keys position = openBefore classByRange.keys next := by
  have hlt : position < next := (pairwise_cons.mp h.sorted).1 next (by simp)
  apply activeSet_congr
  intro r hr
  have hstart := h.gap (h.range_start r hr)
  have hstop := h.gap (h.range_stop r hr)
  rw [Bool.eq_iff_iff]
  simp only [Bool.and_eq_true, decide_eq_true_eq]
  omega

/-- The sweep gives each interval that is not discarded the class of its first token. -/
theorem foldlM_sweepStep (hne : ∀ r ∈ classByRange.keys, r.start < r.stop)
    (hdiscarded : ∀ d ∈ discarded, d.start < d.stop)
    (hinOrder : discarded.Pairwise fun a b => a.stop ≤ b.start)
    (h : Positions classByRange discarded position later) {left : List MacroOutputRange}
    (hleft : left.dropWhile (fun d => d.stop ≤ position) =
      discarded.dropWhile fun d => d.stop ≤ position)
    (classified : List (MacroOutputRange × PendingOutputClass)) :
    ((neighbours (position :: later)).foldlM (sweepStep classByRange sourceOwner)
        ⟨openBefore classByRange.keys position, left, classified⟩).map
          (fun sweep => (sweep.active, sweep.classified)) =
      (((neighbours (position :: later)).filter fun pair => !isDiscarded discarded pair.1).mapM
        (classifyPair classByRange sourceOwner)).map fun found =>
          (openBefore classByRange.keys ((position :: later).getLast (cons_ne_nil _ _)),
            classified ++ found) := by
  induction later generalizing position left classified with
  | nil =>
    simp only [neighbours, tail_cons, zip_nil_right, filter_nil, foldlM_nil, mapM_nil]
    show Except.ok _ = Except.ok _
    simp
  | cons next later ih =>
    have hlt : position < next := (pairwise_cons.mp h.sorted).1 next (by simp)
    have hnext := h.next
    have hleft' : (discarded.dropWhile fun d => d.stop ≤ position).dropWhile
        (fun d => d.stop ≤ next) = discarded.dropWhile fun d => d.stop ≤ next := by
      apply dropWhile_dropWhile
      intro d _ hd
      simp only [decide_eq_true_eq] at hd ⊢
      omega
    have hlast : (position :: next :: later).getLast (cons_ne_nil _ _) =
        (next :: later).getLast (cons_ne_nil _ _) := getLast_cons _
    rw [neighbours_cons_cons, foldlM_cons,
      sweepStep_eq hne hdiscarded hinOrder h hleft classified, h.openAt_eq, hlast]
    by_cases hdead : isDiscarded discarded position = true
    · rw [if_pos hdead, filter_cons_of_neg (by simp [hdead])]
      exact ih hnext hleft' classified
    · rw [if_neg hdead, filter_cons_of_pos (by simp [hdead]), mapM_cons]
      cases hfound : classifyPair classByRange sourceOwner (position, next) with
      | error e => rfl
      | ok found =>
        show Except.map _ ((neighbours (next :: later)).foldlM _ _) = _
        rw [ih hnext hleft' (classified ++ [found])]
        simp only [bind, Except.bind]
        cases List.mapM (classifyPair classByRange sourceOwner)
            ((neighbours (next :: later)).filter fun pair => !isDiscarded discarded pair.1) with
        | error e => rfl
        | ok others => simp [Except.map, pure, Except.pure]

end OutputClasses

end ItemDependencies
