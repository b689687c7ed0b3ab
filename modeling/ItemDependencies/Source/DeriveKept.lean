import ItemDependencies.Source.DeriveRuns

/-!
# What is left of a derive list

The list without the dropped entries is a derive list again, and its elements are
those that were kept.
-/

namespace ItemDependencies

open Library Library.Brackets RawToken List

/-- Where a range of a text is when some of its positions have been removed. -/
def ByteRange.left (removed : Nat → Bool) (range : ByteRange) : ByteRange :=
  ⟨(kept removed range.start).length, (kept removed range.stop).length⟩

/-- The entries before and behind the last one that is kept. -/
structure LastKept (keep : ByteRange → Bool) (start : Nat) (entries front : List DeriveEntry)
    (last : DeriveEntry) (back : List DeriveEntry) : Prop where
  split : entries = front ++ last :: back
  keeps : (last.elementAt (offsetAfter start front)).all keep = true
  drops : ∀ element ∈ elementsAt (offsetAfter start front + last.len + 1) back,
    element.all keep = false

namespace DeriveList

/-- Which entries are kept. -/
def flags (keep : ByteRange → Bool) (offset : Nat) (list : DeriveList) : List Bool :=
  (list.found offset).map fun element => element.all keep

def keep (list : DeriveList) (flags : List Bool) : DeriveList :=
  { list with entries := ((list.entries.zip flags).filter Prod.snd).map Prod.fst }

end DeriveList

section

variable {removed : Nat → Bool} {offset start n : Nat} {keep : ByteRange → Bool}
  {entries front back : List DeriveEntry} {last : DeriveEntry} {list : DeriveList}
  {layout : List DeriveListEntryLayout}

theorem exists_lastKept (h : ∃ element ∈ elementsAt start entries, element.all keep = true) :
    ∃ front last back, LastKept keep start entries front last back := by
  induction entries generalizing start with
  | nil =>
    obtain ⟨element, hmem, -⟩ := h
    cases hmem
  | cons entry entries ih =>
    by_cases hrest : ∃ element ∈ elementsAt (start + entry.len + 1) entries, element.all keep = true
    · obtain ⟨front, last, back, hlast⟩ := ih hrest
      refine ⟨entry :: front, last, back, ?_, hlast.keeps, hlast.drops⟩
      rw [hlast.split, cons_append]
    · obtain ⟨element, hmem, hkeep⟩ := h
      rcases mem_cons.mp hmem with rfl | hmem
      · refine ⟨[], entry, entries, rfl, hkeep, fun element hmem => ?_⟩
        exact Bool.eq_false_iff.mpr fun hkeep => hrest ⟨element, hmem, hkeep⟩
      · exact absurd ⟨element, hmem, hkeep⟩ hrest

theorem DeriveEntry.Valid.inside {entry : DeriveEntry} {element : ByteRange} (h : entry.Valid)
    (helement : entry.elementAt start = some element) :
    start ≤ element.start ∧ element.stop ≤ start + entry.len := by
  obtain ⟨place, hplace, rfl⟩ := Option.map_eq_some_iff.mp helement
  obtain ⟨-, hle, -⟩ := h.places place hplace
  dsimp only
  omega

/-- Without removed positions a stretch keeps its length. -/
theorem length_kept_add {m : Nat} (h : ∀ i, n ≤ i → i < n + m → removed i = false) :
    (kept removed (n + m)).length = (kept removed n).length + m := by
  rw [kept_add_of_kept h, length_append, length_range']

/-- The element of an entry that is kept. -/
theorem DeriveEntry.elementAt_left {entry : DeriveEntry} (hvalid : entry.Valid)
    (h : ∀ i, start ≤ i → i < start + entry.len → removed i = false) :
    entry.elementAt (kept removed start).length =
      (entry.elementAt start).map (ByteRange.left removed) := by
  rw [DeriveEntry.elementAt, DeriveEntry.elementAt, Option.map_map]
  refine Option.map_congr fun place hplace => ?_
  obtain ⟨hlt, hle, -⟩ := hvalid.places place hplace
  rw [Function.comp, ByteRange.left]
  dsimp only
  rw [length_kept_add fun i hfirst hlast => h i hfirst (by omega),
    length_kept_add fun i hfirst hlast => h i hfirst (by omega)]

/-- The elements of the entries that are kept. -/
theorem elementsAt_left (back : List DeriveEntry) (h : Follows start front layout)
    (hvalid : ∀ entry ∈ front, entry.Valid)
    (hleft : PartsLeft removed start ((front.zip (layout.map fun entry => keep entry.element)).map
      fun entry => (entry.1.raws ++ [commaToken], entry.2))) :
    elementsAt (kept removed start).length
        (((front.zip (layout.map fun entry => keep entry.element)).filter Prod.snd).map Prod.fst ++
          back) =
      ((layout.map DeriveListEntryLayout.element).filter keep).map
          (fun element => some (element.left removed)) ++
        elementsAt (kept removed (offsetAfter start front)).length back := by
  induction h with
  | nil => rfl
  | @cons previous start entry element entries layout helement hrest ih =>
    obtain ⟨hentry, hvalid⟩ := forall_mem_cons.mp hvalid
    have hone : utf8Len commaToken.text = 1 := rfl
    have hlen : utf8Len (textOf (entry.raws ++ [commaToken])) = entry.len + 1 := by
      simp [DeriveEntry.len, hone]
    rw [map_cons, zip_cons_cons, map_cons] at hleft
    obtain ⟨hpart, hleft⟩ := hleft
    dsimp only at hpart hleft
    rw [hlen] at hpart hleft
    have hnext := ih hvalid hleft
    rw [map_cons, zip_cons_cons, map_cons, offsetAfter]
    dsimp only
    cases hkeep : keep element with
    | true =>
      rw [hkeep] at hpart
      have hinside := DeriveEntry.elementAt_left hentry
        fun i hfirst hlast => hpart i hfirst (by omega)
      rw [helement, Option.map_some] at hinside
      have hshift : (kept removed (start + entry.len + 1)).length =
          (kept removed start).length + (entry.len + 1) := length_kept_add hpart
      rw [hshift] at hnext
      rw [filter_cons_of_pos rfl, filter_cons_of_pos hkeep, map_cons, map_cons,
        cons_append, cons_append, elementsAt, hinside, ← hnext]
      rfl
    | false =>
      rw [hkeep] at hpart
      have hshift : kept removed (start + entry.len + 1) = kept removed start :=
        kept_add_of_removed hpart
      rw [hshift] at hnext
      rw [filter_cons_of_neg (by simp), filter_cons_of_neg (by simp [hkeep])]
      exact hnext

/-! ## The deletions of a list -/

/-- The parts of the list around the last entry that is kept. -/
def listParts (list : DeriveList) (front : List (DeriveEntry × Bool)) (last : DeriveEntry)
    (back : List DeriveEntry) : List (List RawToken × Bool) :=
  (list.before ++ [openToken], true) ::
    (front.map (fun entry => (entry.1.raws ++ [commaToken], entry.2)) ++
      [(last.raws, true), (back.flatMap fun entry => commaToken :: entry.raws, false),
        (closeToken :: list.behind, true)])

/-- What the deletions of the dropped entries of a list do. -/
structure DropsOthers (list : DeriveList) (keep : ByteRange → Bool) (offset : Nat)
    (deletions : List ByteRange) (parts : List (List RawToken × Bool)) : Prop where
  ordered : deletions.Pairwise fun a b => a.stop ≤ b.start
  inside : ∀ d ∈ deletions, d.start < d.stop ∧ list.start offset ≤ d.start ∧
    d.stop ≤ list.start offset + utf8Len (textOf list.parens.body)
  raws : list.parens.raws = parts.flatMap Prod.fst
  left : PartsLeft (removedBy deletions) offset parts
  keeps : (list.keep (list.flags keep offset)).parens.raws =
    (parts.filter Prod.snd).flatMap Prod.fst
  elements : (list.keep (list.flags keep offset)).elements
      (kept (removedBy deletions) offset).length =
    ((list.elements offset).filter keep).map (ByteRange.left (removedBy deletions))
  valid : (list.keep (list.flags keep offset)).Valid
  untouched : ∀ e ∈ list.elements offset, keep e = true → ∀ i, e.start ≤ i → i < e.stop →
    removedBy deletions i = false

/-- No position of an element that is kept is removed. -/
theorem Follows.untouched (h : Follows start front layout) (hvalid : ∀ entry ∈ front, entry.Valid)
    (hleft : PartsLeft removed start ((front.zip (layout.map fun entry => keep entry.element)).map
      fun entry => (entry.1.raws ++ [commaToken], entry.2))) :
    ∀ entry ∈ layout, keep entry.element = true →
      ∀ i, entry.element.start ≤ i → i < entry.element.stop → removed i = false := by
  induction h with
  | nil => simp
  | @cons previous start entry element entries layout helement hrest ih =>
    obtain ⟨hentry, hvalid⟩ := forall_mem_cons.mp hvalid
    have hone : utf8Len commaToken.text = 1 := rfl
    have hlen : utf8Len (textOf (entry.raws ++ [commaToken])) = entry.len + 1 := by
      simp [DeriveEntry.len, hone]
    rw [map_cons, zip_cons_cons, map_cons] at hleft
    obtain ⟨hpart, hleft⟩ := hleft
    dsimp only at hpart hleft
    rw [hlen] at hpart hleft
    refine forall_mem_cons.mpr ⟨fun hkeep i hfirst hi => ?_, ih hvalid hleft⟩
    have hinside := hentry.inside helement
    dsimp only at hkeep hfirst hi
    rw [hkeep] at hpart
    exact hpart i (by omega) (by omega)

theorem removedBy_append {deletions later : List ByteRange} {i : Nat} :
    removedBy (deletions ++ later) i = true ↔
      removedBy deletions i = true ∨ removedBy later i = true := by
  simp [removedBy]

theorem Follows.length_eq (h : Follows start front layout) : front.length = layout.length := by
  induction h with
  | nil => rfl
  | cons _ _ _ ih => rw [length_cons, length_cons, ih]

theorem isSome_of_dropped (h : ∀ element ∈ elementsAt start back, element.all keep = false) :
    ∀ entry ∈ back, entry.element.isSome = true := by
  induction back generalizing start with
  | nil => simp
  | cons entry back ih =>
    obtain ⟨hentry, h⟩ := forall_mem_cons.mp h
    refine forall_mem_cons.mpr ⟨?_, ih h⟩
    cases hnone : entry.element with
    | some place => rfl
    | none =>
      rw [DeriveEntry.elementAt, hnone] at hentry
      cases hentry

section

variable (hlast : LastKept keep (list.start offset) list.entries front last back)
  (hfollows : Follows (list.start offset) front layout)

include hlast hfollows

theorem DeriveList.found_eq : list.found offset =
    layout.map (fun entry => some entry.element) ++
      last.elementAt (offsetAfter (list.start offset) front) ::
        elementsAt (offsetAfter (list.start offset) front + last.len + 1) back := by
  rw [DeriveList.found, hlast.split, elementsAt_append, elementsAt_follows hfollows, elementsAt]

theorem DeriveList.flags_eq : list.flags keep offset =
    layout.map (fun entry => keep entry.element) ++ true :: back.map fun _ => false := by
  have hback : ∀ (start : Nat) (back : List DeriveEntry),
      (∀ element ∈ elementsAt start back, element.all keep = false) →
      (elementsAt start back).map (fun element => element.all keep) = back.map fun _ => false := by
    intro start back
    induction back generalizing start with
    | nil => exact fun _ => rfl
    | cons entry back ih =>
      intro h
      obtain ⟨hentry, h⟩ := forall_mem_cons.mp h
      rw [elementsAt, map_cons, map_cons, hentry, ih _ h]
  rw [DeriveList.flags, DeriveList.found_eq hlast hfollows, map_append, map_cons,
    hlast.keeps, hback _ _ hlast.drops, map_map]
  rfl

theorem DeriveList.entries_keep : (list.keep (list.flags keep offset)).entries =
    ((front.zip (layout.map fun entry => keep entry.element)).filter Prod.snd).map Prod.fst ++
      [last] := by
  have hback : (back.zip (back.map fun _ => false)).filter Prod.snd = [] := by
    refine filter_eq_nil_iff.mpr fun entry hentry => ?_
    obtain ⟨other, -, hother⟩ := mem_map.mp (of_mem_zip hentry).2
    simp [← hother]
  rw [DeriveList.keep, DeriveList.flags_eq hlast hfollows]
  dsimp only
  rw [hlast.split, zip_append (by rw [length_map, hfollows.length_eq]),
    zip_cons_cons, filter_append, filter_cons_of_pos rfl, hback, map_append]
  rfl

/-- The elements that are kept. -/
theorem DeriveList.filter_elements : (list.elements offset).filter keep =
    (layout.map DeriveListEntryLayout.element).filter keep ++
      (last.elementAt (offsetAfter (list.start offset) front)).toList := by
  have hfront : (layout.map fun entry => some entry.element).flatMap Option.toList =
      layout.map DeriveListEntryLayout.element := by
    rw [flatMap_map, map_eq_flatMap]
    rfl
  have hlastKept : ∀ element : Option ByteRange, element.all keep = true →
      element.toList.filter keep = element.toList := by
    intro element h
    cases element with
    | none => rfl
    | some element => exact filter_cons_of_pos h
  have hback : ((elementsAt (offsetAfter (list.start offset) front + last.len + 1) back).flatMap
      Option.toList).filter keep = [] := by
    refine filter_eq_nil_iff.mpr fun element hmem hkeep => ?_
    obtain ⟨found, hfound, hmem⟩ := mem_flatMap.mp hmem
    have hdrops := hlast.drops found hfound
    rw [Option.mem_toList.mp hmem] at hdrops
    rw [Option.all_some, hkeep] at hdrops
    cases hdrops
  rw [DeriveList.elements, DeriveList.found_eq hlast hfollows, flatMap_append, flatMap_cons,
    filter_append, filter_append, hback, append_nil, hfront, hlastKept _ hlast.keeps]

end

theorem DeriveList.parens_keep {flags : List Bool} :
    (list.keep flags).parens = list.parens.keep flags := by
  rw [DeriveList.parens, DeriveList.keep, ParenList.keep, keptPieces, DeriveList.parens]
  dsimp only
  rw [zip_map_left, filter_map, map_map, map_map]
  rfl

/-- What is left of the list has a layout, too. -/
theorem DeriveList.keep_valid (hvalid : list.Valid)
    (hlast : LastKept keep (list.start offset) list.entries front last back)
    (hfollows : Follows (list.start offset) front layout) :
    (list.keep (list.flags keep offset)).Valid := by
  have hentries := DeriveList.entries_keep hlast hfollows
  have hmem : ∀ entry ∈ ((front.zip (layout.map fun entry => keep entry.element)).filter
      Prod.snd).map Prod.fst, entry ∈ front := by
    intro entry hentry
    obtain ⟨pair, hpair, rfl⟩ := mem_map.mp hentry
    exact (of_mem_zip (mem_filter.mp hpair).1).1
  have hfront : ∀ entry ∈ front, entry ∈ list.entries.dropLast := by
    intro entry hentry
    rw [hlast.split, dropLast_append_cons]
    exact mem_append_left _ hentry
  refine ⟨?_, ?_, ?_⟩
  · rw [DeriveList.parens_keep]
    refine ParenList.keep_valid ?_ hvalid.parens
    rw [← DeriveList.parens_keep, DeriveList.parens, hentries]
    simp
  · rw [hentries]
    intro entry hentry
    rcases mem_append.mp hentry with hentry | hentry
    · exact hvalid.entries _ (dropLast_subset _ (hfront entry (hmem entry hentry)))
    · rw [mem_singleton.mp hentry]
      refine hvalid.entries _ ?_
      rw [hlast.split]
      exact mem_append_right _ mem_cons_self
  · rw [hentries, dropLast_concat]
    exact fun entry hentry => hvalid.holds _ (hfront entry (hmem entry hentry))

theorem flatMap_zip_fst {flags : List Bool} (hlength : front.length = flags.length) :
    (front.zip flags).flatMap (fun entry => entry.1.raws ++ [commaToken]) =
      front.flatMap fun entry => entry.raws ++ [commaToken] := by
  conv_rhs => rw [← map_fst_zip hlength.le, flatMap_map]

/-- The tokens of a list by its parts. -/
theorem raws_listParts {flags : List Bool} (hlength : front.length = flags.length)
    (hsplit : list.entries = front ++ last :: back) :
    list.parens.raws = (listParts list (front.zip flags) last back).flatMap Prod.fst := by
  rw [ParenList.raws, ParenList.body, DeriveList.parens, hsplit]
  dsimp only
  rw [map_append, map_cons, join_append_cons, flatMap_map, flatMap_map, listParts,
    flatMap_cons, flatMap_append, flatMap_map, flatMap_zip_fst hlength]
  simp

/-- The tokens that are kept, by the parts of the list. -/
theorem DeriveList.raws_keep
    (hlast : LastKept keep (list.start offset) list.entries front last back)
    (hfollows : Follows (list.start offset) front layout) :
    (list.keep (list.flags keep offset)).parens.raws =
      ((listParts list (front.zip (layout.map fun entry => keep entry.element)) last back).filter
        Prod.snd).flatMap Prod.fst := by
  rw [ParenList.raws, ParenList.body, DeriveList.parens, DeriveList.entries_keep hlast hfollows]
  dsimp only
  rw [map_append, map_singleton, join_append_cons, flatMap_map, flatMap_map, listParts,
    filter_cons_of_pos rfl, filter_append, filter_map, flatMap_cons, flatMap_append, flatMap_map]
  simp [DeriveList.keep, Function.comp_def]

/-- Where the parts of the list stay. -/
theorem DeriveList.left_of_stays {restLen : Nat}
    (hfollows : Follows (list.start offset) front layout)
    (hrest : restLen = utf8Len (textOf (back.flatMap fun entry => commaToken :: entry.raws)))
    (hremoved : ∀ i, removed i = true ↔ InDropped keep layout i ∨
      (offsetAfter (list.start offset) front + last.len ≤ i ∧
        i < offsetAfter (list.start offset) front + last.len + restLen))
    (hinside : ∀ i, InDropped keep layout i → list.start offset ≤ i ∧
      i < offsetAfter (list.start offset) front) :
    PartsLeft removed offset
      (listParts list (front.zip (layout.map fun entry => keep entry.element)) last back) := by
  have hone : utf8Len openToken.text = 1 := rfl
  have hstart : offset + utf8Len (textOf (list.before ++ [openToken])) = list.start offset := by
    simp [DeriveList.start, hone, Nat.add_assoc]
  have hlength : front.length = (layout.map fun entry => keep entry.element).length := by
    rw [length_map, hfollows.length_eq]
  have hle := le_offsetAfter (list.start offset) front
  have hstays : ∀ i, (i < list.start offset ∨
      (offsetAfter (list.start offset) front ≤ i ∧
        i < offsetAfter (list.start offset) front + last.len) ∨
      offsetAfter (list.start offset) front + last.len + restLen ≤ i) → removed i = false := by
    intro i hi
    refine Bool.eq_false_iff.mpr fun h => ?_
    rcases (hremoved i).mp h with hdropped | hdropped
    · have := hinside i hdropped
      omega
    · omega
  refine ⟨fun i _ hi => hstays i (.inl (hstart ▸ hi)), ?_⟩
  dsimp only
  rw [hstart, partsLeft_append, flatMap_map, flatMap_zip_fst hlength, ← offsetAfter_eq]
  refine ⟨hfollows.partsLeft fun i _ hi => ?_,
    fun i hfirst hi => hstays i (.inr (.inl ⟨hfirst, hi⟩)),
    fun i hfirst hi => ?_, fun i hfirst _ => hstays i (.inr (.inr ?_)), trivial⟩
  · rw [hremoved]
    refine or_iff_left ?_
    omega
  · refine (hremoved i).mpr (.inr ⟨hfirst, ?_⟩)
    rw [hrest]
    exact hi
  · rw [hrest]
    exact hfirst

/-- What stays of the parts of the list. -/
theorem DeriveList.stays_of_left (hfollows : Follows (list.start offset) front layout)
    (hleft : PartsLeft removed offset
      (listParts list (front.zip (layout.map fun entry => keep entry.element)) last back)) :
    (∀ i, offset ≤ i → i < list.start offset → removed i = false) ∧
      PartsLeft removed (list.start offset) ((front.zip (layout.map fun entry =>
        keep entry.element)).map fun entry => (entry.1.raws ++ [commaToken], entry.2)) ∧
      ∀ i, offsetAfter (list.start offset) front ≤ i →
        i < offsetAfter (list.start offset) front + last.len → removed i = false := by
  have hone : utf8Len openToken.text = 1 := rfl
  have hlen : offset + utf8Len (textOf (list.before ++ [openToken])) = list.start offset := by
    simp [DeriveList.start, hone, Nat.add_assoc]
  have hlength : front.length = (layout.map fun entry => keep entry.element).length := by
    rw [length_map, hfollows.length_eq]
  obtain ⟨hbefore, hleft⟩ := hleft
  dsimp only at hbefore hleft
  rw [hlen] at hbefore hleft
  rw [partsLeft_append, flatMap_map, flatMap_zip_fst hlength, ← offsetAfter_eq] at hleft
  exact ⟨hbefore, hleft.1, hleft.2.1⟩

/-- The elements of what is left. -/
theorem DeriveList.elements_keep (hvalid : list.Valid)
    (hlast : LastKept keep (list.start offset) list.entries front last back)
    (hfollows : Follows (list.start offset) front layout)
    (hleft : PartsLeft removed offset
      (listParts list (front.zip (layout.map fun entry => keep entry.element)) last back)) :
    (list.keep (list.flags keep offset)).elements (kept removed offset).length =
      ((list.elements offset).filter keep).map (ByteRange.left removed) := by
  obtain ⟨hbefore, hfront, hlastLeft⟩ := DeriveList.stays_of_left hfollows hleft
  have hstart : (list.keep (list.flags keep offset)).start (kept removed offset).length =
      (kept removed (list.start offset)).length :=
    (length_kept_add (n := offset) (m := utf8Len (textOf list.before) + 1) hbefore).symm
  have hmem : ∀ entry ∈ front ++ last :: back, entry.Valid := by
    rw [← hlast.split]
    exact hvalid.entries
  rw [forall_mem_append, forall_mem_cons] at hmem
  have hinside := DeriveEntry.elementAt_left hmem.2.1 hlastLeft
  have helements := elementsAt_left [last] hfollows hmem.1 hfront
  have hflat : ∀ elements : List ByteRange, elements.flatMap (fun element =>
      (some (element.left removed)).toList) = elements.map (ByteRange.left removed) := by
    intro elements
    rw [map_eq_flatMap]
    rfl
  rw [DeriveList.elements, DeriveList.found, hstart, DeriveList.entries_keep hlast hfollows,
    helements, elementsAt, elementsAt, hinside, DeriveList.filter_elements hlast hfollows,
    flatMap_append, flatMap_map, map_append, hflat]
  cases last.elementAt (offsetAfter (list.start offset) front) with
  | none => rfl
  | some element => rfl

/-- The elements that are kept stay as they are. -/
theorem DeriveList.untouched (hvalid : list.Valid)
    (hlast : LastKept keep (list.start offset) list.entries front last back)
    (hfollows : Follows (list.start offset) front layout)
    (hleft : PartsLeft removed offset
      (listParts list (front.zip (layout.map fun entry => keep entry.element)) last back)) :
    ∀ e ∈ list.elements offset, keep e = true → ∀ i, e.start ≤ i → i < e.stop →
      removed i = false := by
  obtain ⟨-, hfront, hlastLeft⟩ := DeriveList.stays_of_left hfollows hleft
  have hmem : ∀ entry ∈ front ++ last :: back, entry.Valid := by
    rw [← hlast.split]
    exact hvalid.entries
  rw [forall_mem_append, forall_mem_cons] at hmem
  intro e he hkeep i hfirst hi
  have hfilter := mem_filter.mpr ⟨he, hkeep⟩
  rw [DeriveList.filter_elements hlast hfollows] at hfilter
  rcases mem_append.mp hfilter with hfilter | hfilter
  · obtain ⟨entry, hentry, rfl⟩ := mem_map.mp (mem_filter.mp hfilter).1
    exact hfollows.untouched hmem.1 hfront entry hentry hkeep i hfirst hi
  · have hinside := hmem.2.1.inside (Option.mem_toList.mp hfilter)
    exact hlastLeft i (by omega) (by omega)

theorem mem_layoutOf {segments : List CommaListSegment} {found : List (Option ByteRange)}
    {entry : DeriveListEntryLayout} (h : entry ∈ layoutOf segments found) :
    some entry.element ∈ found := by
  obtain ⟨pair, hpair, hentry⟩ := mem_flatMap.mp h
  obtain ⟨element, helement, rfl⟩ := mem_map.mp hentry
  rw [← Option.mem_toList.mp helement]
  exact (of_mem_zip hpair).2

/-- The deletions of the dropped entries leave a list of the others. -/
theorem DeriveList.exists_dropsOthers (hvalid : list.Valid)
    (hsome : ∃ e ∈ list.elements offset, keep e = true) :
    ∃ deletions parts,
      deriveDeletions none ((list.layout offset).map fun entry => (entry, keep entry.element)) =
        .ok deletions ∧ DropsOthers list keep offset deletions parts := by
  have hkept : ∃ element ∈ elementsAt (list.start offset) list.entries,
      element.all keep = true := by
    obtain ⟨e, he, hkeep⟩ := hsome
    obtain ⟨element, helement, he⟩ := mem_flatMap.mp he
    refine ⟨element, helement, ?_⟩
    rw [Option.mem_toList.mp he]
    exact hkeep
  obtain ⟨front, last, back, hlast⟩ := exists_lastKept hkept
  have hholds := hvalid.holds
  rw [hlast.split, dropLast_append_cons] at hholds
  have hfrontSome : ∀ entry ∈ front, entry.element.isSome = true := fun entry hentry =>
    hholds entry (mem_append_left _ hentry)
  have hbackSome := isSome_of_dropped hlast.drops
  obtain ⟨layout, previous', hfollows, hlayout⟩ := exists_follows (list.start offset) none
    hfrontSome (cons_ne_nil last back)
  obtain ⟨following, hlastLayout⟩ := layoutOf_last (offsetAfter (list.start offset) front)
    previous' last back
  rw [hlastLayout, ← hlast.split] at hlayout
  have hmid := le_offsetAfter (list.start offset) front
  have hnone : RunTo none (list.start offset) (list.start offset) := rfl
  obtain ⟨deletions, hdeletions, hdrops⟩ := deriveDeletions_follows hfollows keep hnone
  obtain ⟨later, hlater, hordered, hinside, hremoved⟩ :=
    deriveDeletions_rest (offsetAfter (list.start offset) front + last.len) hbackSome
  have hflags :
      ∀ entry ∈ layoutOf (segmentsOf (offsetAfter (list.start offset) front + last.len + 1)
      (some ⟨offsetAfter (list.start offset) front + last.len,
        offsetAfter (list.start offset) front + last.len + 1⟩) (back.map DeriveEntry.raws))
      (elementsAt (offsetAfter (list.start offset) front + last.len + 1) back),
      (entry, keep entry.element) = (entry, false) := by
    intro entry hentry
    have hdropped := hlast.drops _ (mem_layoutOf hentry)
    rw [Option.all_some] at hdropped
    rw [hdropped]
  have hall : deriveDeletions none ((list.layout offset).map fun entry =>
      (entry, keep entry.element)) = .ok (deletions ++ later) := by
    have hlist : list.layout offset = _ := hlayout
    rw [hlist, map_append, map_append, map_congr_left hflags]
    have hkeeps := hlast.keeps
    cases hlastElement : last.elementAt (offsetAfter (list.start offset) front) with
    | none =>
      obtain rfl : back = [] := by
        by_contra hback
        have hsome := hholds last (mem_append_right _ (by
          rw [dropLast_cons_of_ne_nil hback]
          exact mem_cons_self))
        obtain ⟨place, hplace⟩ := Option.isSome_iff_exists.mp hsome
        rw [DeriveEntry.elementAt, hplace] at hlastElement
        cases hlastElement
      cases hlater
      rw [append_nil, ← hdeletions]
      exact congrArg _ (append_nil _)
    | some element =>
      rw [hlastElement, Option.all_some] at hkeeps
      rw [Option.toList_some, map_singleton, map_singleton, singleton_append]
      dsimp only
      rw [hkeeps]
      refine deriveDeletions_append (fun entry hentry => ?_) (by simp) hdeletions hlater
      obtain ⟨entry, hmem, rfl⟩ := mem_map.mp hentry
      exact hfollows.followingComma_isSome entry hmem
  have hinDropped : ∀ i, removedBy deletions i = true ↔ InDropped keep layout i := fun i =>
    (hdrops.removed i).trans (or_iff_right (by omega))
  have hinsideDropped : ∀ i, InDropped keep layout i → list.start offset ≤ i ∧
      i < offsetAfter (list.start offset) front := by
    intro i hi
    obtain ⟨d, hd, hposition⟩ := any_eq_true.mp ((hinDropped i).mpr hi)
    simp only [Bool.and_eq_true, decide_eq_true_eq] at hposition
    have := hdrops.inside d hd
    omega
  have hleft : PartsLeft (removedBy (deletions ++ later)) offset
      (listParts list (front.zip (layout.map fun entry => keep entry.element)) last back) := by
    refine DeriveList.left_of_stays hfollows rfl (fun i => ?_) hinsideDropped
    rw [removedBy_append, hinDropped, hremoved]
  have hbody : list.start offset + utf8Len (textOf list.parens.body) =
      offsetAfter (list.start offset) front + last.len +
        utf8Len (textOf (back.flatMap fun entry => commaToken :: entry.raws)) := by
    rw [ParenList.body, DeriveList.parens, hlast.split, offsetAfter_eq]
    dsimp only
    rw [map_append, map_cons, join_append_cons, flatMap_map, flatMap_map,
      textOf_append, textOf_append, utf8Len_append, utf8Len_append, DeriveEntry.len]
    omega
  have hlength : front.length = (layout.map fun entry => keep entry.element).length := by
    rw [length_map, hfollows.length_eq]
  refine ⟨_, _, hall, ⟨?_, fun d hd => ?_, raws_listParts hlength hlast.split, hleft,
    DeriveList.raws_keep hlast hfollows, DeriveList.elements_keep hvalid hlast hfollows hleft,
    DeriveList.keep_valid hvalid hlast hfollows,
    DeriveList.untouched hvalid hlast hfollows hleft⟩⟩
  · refine pairwise_append.mpr ⟨hdrops.ordered, hordered, fun a ha b hb => ?_⟩
    have hfirst := hdrops.inside a ha
    have hsecond := hinside b hb
    omega
  · rw [hbody]
    rcases mem_append.mp hd with hd | hd
    · have := hdrops.inside d hd
      omega
    · have := hinside d hd
      omega

end

end ItemDependencies
