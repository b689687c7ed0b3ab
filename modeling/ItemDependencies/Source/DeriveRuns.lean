import ItemDependencies.Source.DeriveLists

/-!
# The runs of dropped entries

Up to the last entry that is kept, a dropped entry goes with the comma behind it.
The entries behind that one go with the commas before them.
-/

namespace ItemDependencies

open Library Library.Brackets RawToken List

/-- The parts of a text that begins at an offset, each of which stays or is removed. -/
def PartsLeft (removed : Nat → Bool) : Nat → List (List RawToken × Bool) → Prop
  | _, [] => True
  | offset, part :: parts =>
    (∀ i, offset ≤ i → i < offset + utf8Len (textOf part.1) → removed i = !part.2) ∧
      PartsLeft removed (offset + utf8Len (textOf part.1)) parts

/-- Where the text behind entries and their commas begins. -/
def offsetAfter : Nat → List DeriveEntry → Nat
  | start, [] => start
  | start, entry :: entries => offsetAfter (start + entry.len + 1) entries

/-- Entries with a comma behind each of them, and their layout. -/
inductive Follows : Nat → List DeriveEntry → List DeriveListEntryLayout → Prop
  | nil (start : Nat) : Follows start [] []
  | cons (previous : Option ByteRange) {start : Nat} {entry : DeriveEntry} {element : ByteRange}
      {entries : List DeriveEntry} {layout : List DeriveListEntryLayout}
      (helement : entry.elementAt start = some element)
      (hrest : Follows (start + entry.len + 1) entries layout) :
      Follows start (entry :: entries) (⟨element, ⟨start, start + entry.len⟩, previous,
        some ⟨start + entry.len, start + entry.len + 1⟩⟩ :: layout)

section

variable {removed : Nat → Bool} {parts parts' : List (List RawToken × Bool)} {offset start : Nat}
  {entries back : List DeriveEntry} {layout : List DeriveListEntryLayout}
  {keep : ByteRange → Bool} {previous : Option ByteRange} {deletions later : List ByteRange}
  {run : Option (DeriveListEntryLayout × DeriveListEntryLayout)} {entry : DeriveListEntryLayout}

/-! ## Parts of a text -/

theorem partsLeft_append : PartsLeft removed offset (parts ++ parts') ↔
    PartsLeft removed offset parts ∧
      PartsLeft removed (offset + utf8Len (textOf (parts.flatMap Prod.fst))) parts' := by
  induction parts generalizing offset with
  | nil => simp [PartsLeft]
  | cons part parts ih =>
    rw [cons_append, PartsLeft, PartsLeft, ih, flatMap_cons, textOf_append,
      utf8Len_append, Nat.add_assoc, and_assoc]

/-- What remains of the text. -/
theorem PartsLeft.remaining (h : PartsLeft removed offset parts) :
    remaining removed offset (utf8Bytes (textOf (parts.flatMap Prod.fst))) =
      utf8Bytes (textOf ((parts.filter Prod.snd).flatMap Prod.fst)) := by
  induction parts generalizing offset with
  | nil => rfl
  | cons part parts ih =>
    obtain ⟨raws, flag⟩ := part
    obtain ⟨hpart, h⟩ := h
    rw [flatMap_cons, textOf_append, utf8Bytes_append, remaining_append, length_utf8Bytes, ih h]
    cases flag with
    | true =>
      rw [remaining_eq_self, filter_cons_of_pos rfl, flatMap_cons, textOf_append, utf8Bytes_append]
      intro i hi
      rw [length_utf8Bytes] at hi
      exact hpart _ (Nat.le_add_right _ _) (Nat.add_lt_add_left hi _)
    | false =>
      rw [remaining_eq_nil, filter_cons_of_neg (by simp), nil_append]
      intro i hi
      rw [length_utf8Bytes] at hi
      exact hpart _ (Nat.le_add_right _ _) (Nat.add_lt_add_left hi _)

/-- Where the text behind the parts begins then. -/
theorem PartsLeft.length_kept (h : PartsLeft removed offset parts) :
    (kept removed (offset + utf8Len (textOf (parts.flatMap Prod.fst)))).length =
      (kept removed offset).length + utf8Len
        (textOf ((parts.filter Prod.snd).flatMap Prod.fst)) := by
  induction parts generalizing offset with
  | nil => rfl
  | cons part parts ih =>
    obtain ⟨raws, flag⟩ := part
    obtain ⟨hpart, h⟩ := h
    rw [flatMap_cons, textOf_append, utf8Len_append, ← Nat.add_assoc, ih h]
    cases flag with
    | true =>
      rw [kept_add_of_kept hpart, filter_cons_of_pos rfl, flatMap_cons, textOf_append,
        utf8Len_append, length_append, length_range', Nat.add_assoc]
    | false =>
      rw [kept_add_of_removed hpart, filter_cons_of_neg (by simp)]

/-! ## The layout of the first entries -/

theorem le_offsetAfter (start : Nat) (entries : List DeriveEntry) :
    start ≤ offsetAfter start entries := by
  induction entries generalizing start with
  | nil => exact le_rfl
  | cons entry entries ih =>
    have := ih (start + entry.len + 1)
    rw [offsetAfter]
    omega

theorem offsetAfter_eq : offsetAfter start entries =
    start + utf8Len (textOf (entries.flatMap fun entry => entry.raws ++ [commaToken])) := by
  induction entries generalizing start with
  | nil => rfl
  | cons entry entries ih =>
    have hone : utf8Len commaToken.text = 1 := rfl
    rw [offsetAfter, ih, flatMap_cons, DeriveEntry.len]
    simp [hone, Nat.add_assoc]

theorem elementsAt_append : elementsAt start (entries ++ back) =
    elementsAt start entries ++ elementsAt (offsetAfter start entries) back := by
  induction entries generalizing start with
  | nil => rfl
  | cons entry entries ih => rw [cons_append, elementsAt, ih, elementsAt, offsetAfter, cons_append]

theorem elementsAt_follows (h : Follows start entries layout) :
    elementsAt start entries = layout.map fun entry => some entry.element := by
  induction h with
  | nil => rfl
  | cons _ helement _ ih => rw [elementsAt, helement, ih, map_cons]

/-- Entries before others have commas behind them. -/
theorem exists_follows (start : Nat) (previous : Option ByteRange)
    (h : ∀ entry ∈ entries, entry.element.isSome = true) (hback : back ≠ []) :
    ∃ layout previous', Follows start entries layout ∧
      layoutOf (segmentsOf start previous ((entries ++ back).map DeriveEntry.raws))
        (elementsAt start (entries ++ back)) = layout ++
      layoutOf (segmentsOf (offsetAfter start entries) previous' (back.map DeriveEntry.raws))
        (elementsAt (offsetAfter start entries) back) := by
  induction entries generalizing start previous with
  | nil => exact ⟨[], previous, .nil start, rfl⟩
  | cons entry entries ih =>
    obtain ⟨hentry, h⟩ := forall_mem_cons.mp h
    obtain ⟨place, hplace⟩ := Option.isSome_iff_exists.mp hentry
    have helement : entry.elementAt start = some ⟨start + place.1, start + place.2⟩ := by
      rw [DeriveEntry.elementAt, hplace]
      rfl
    obtain ⟨next, rest, hnext⟩ := exists_cons_of_ne_nil
      (append_ne_nil_of_right_ne_nil entries hback)
    obtain ⟨layout, previous', hfollows, heq⟩ := ih (start + entry.len + 1)
      (some ⟨start + entry.len, start + entry.len + 1⟩) h
    refine ⟨_, previous', .cons previous helement hfollows, ?_⟩
    rw [offsetAfter, cons_append, cons_append, ← heq, hnext]
    simp only [map_cons, segmentsOf, elementsAt, helement, DeriveEntry.len]
    rfl

/-! ## Deletions of runs -/

/-- A position lies in a dropped entry or the comma behind it. -/
def InDropped (keep : ByteRange → Bool) (layout : List DeriveListEntryLayout) (i : Nat) : Prop :=
  ∃ entry ∈ layout, keep entry.element = false ∧ entry.segment.start ≤ i ∧ i ≤ entry.segment.stop

theorem inDropped_cons {i : Nat} :
    InDropped keep (entry :: layout) i ↔ (keep entry.element = false ∧
      entry.segment.start ≤ i ∧ i ≤ entry.segment.stop) ∨ InDropped keep layout i := by
  simp [InDropped]

theorem inDropped_cons_of_keep {i : Nat} (h : keep entry.element = true) :
    InDropped keep (entry :: layout) i ↔ InDropped keep layout i := by
  simp [inDropped_cons, h]

/-- The deletions of the dropped entries between two places; from the first place to the second
one everything is dropped. -/
structure DropsEntries (keep : ByteRange → Bool) (first start stop : Nat)
    (layout : List DeriveListEntryLayout) (deletions : List ByteRange) : Prop where
  ordered : deletions.Pairwise fun a b => a.stop ≤ b.start
  inside : ∀ d ∈ deletions, first ≤ d.start ∧ d.start < d.stop ∧ d.stop ≤ stop
  removed : ∀ i, removedBy deletions i = true ↔ (first ≤ i ∧ i < start) ∨ InDropped keep layout i

theorem removedBy_cons {deletion : ByteRange} {i : Nat} :
    removedBy (deletion :: deletions) i = true ↔
      (deletion.start ≤ i ∧ i < deletion.stop) ∨ removedBy deletions i = true := by
  simp [removedBy]

/-- A run that ends with a comma behind it. -/
theorem deriveDeletion_following {first last : DeriveListEntryLayout} {comma : ByteRange}
    (hcomma : last.followingComma = some comma) (hlt : first.segment.start < comma.stop)
    (atEnd : Bool) : deriveDeletion atEnd first last = .ok ⟨first.segment.start, comma.stop⟩ := by
  have hne : (⟨first.segment.start, comma.stop⟩ : ByteRange).isEmpty = false := by
    rw [ByteRange.isEmpty, beq_eq_false_iff_ne]
    exact hlt.ne
  unfold deriveDeletion
  rw [hcomma]
  dsimp only [bind, Except.bind, pure, Except.pure]
  rw [hne]
  rfl

/-- The run that has begun goes up to the next entry. -/
def RunTo (run : Option (DeriveListEntryLayout × DeriveListEntryLayout)) (first start : Nat) :
    Prop :=
  match run with
  | none => first = start
  | some run => run.1.segment.start = first ∧ first < start ∧
    ∃ comma, run.2.followingComma = some comma ∧ comma.stop = start

/-- The deletions of entries with commas behind them. -/
theorem deriveDeletions_follows (h : Follows start entries layout) (keep : ByteRange → Bool)
    {first : Nat} (hrun : RunTo run first start) :
    ∃ deletions, deriveDeletions run (layout.map fun entry => (entry, keep entry.element)) =
        .ok deletions ∧
      DropsEntries keep first start (offsetAfter start entries) layout deletions := by
  induction h generalizing run first with
  | nil start =>
    cases run with
    | none =>
      obtain rfl : first = start := hrun
      refine ⟨[], rfl, .nil, by simp, fun i => ?_⟩
      simp [removedBy, InDropped]
    | some run =>
      obtain ⟨rfl, hlt, comma, hcomma, rfl⟩ := hrun
      refine ⟨[⟨run.1.segment.start, comma.stop⟩], ?_, pairwise_singleton _ _, ?_, fun i => ?_⟩
      · rw [map_nil, deriveDeletions, deriveDeletion_following hcomma hlt]
        rfl
      · simp [offsetAfter, hlt]
      · simp [removedBy, InDropped]
  | @cons previous start entry element entries layout helement hrest ih =>
    have hle := le_offsetAfter (start + entry.len + 1) entries
    rw [map_cons, offsetAfter]
    dsimp only
    cases hkeep : keep element with
    | true =>
      have hnone : RunTo none (start + entry.len + 1) (start + entry.len + 1) := rfl
      obtain ⟨deletions, heq, hordered, hinside, hremoved⟩ := ih hnone
      cases run with
      | none =>
        obtain rfl : first = start := hrun
        refine ⟨deletions, heq, hordered, fun d hd => ?_, fun i => ?_⟩
        · have := hinside d hd
          omega
        · rw [hremoved, inDropped_cons_of_keep hkeep]
          exact or_congr_left (by omega)
      | some run =>
        obtain ⟨rfl, hlt, comma, hcomma, rfl⟩ := hrun
        refine ⟨⟨run.1.segment.start, comma.stop⟩ :: deletions, ?_,
          pairwise_cons.mpr ⟨fun d hd => ?_, hordered⟩, ?_, fun i => ?_⟩
        · rw [deriveDeletions, deriveDeletion_following hcomma hlt, heq]
          rfl
        · have := hinside d hd
          dsimp only
          omega
        · refine forall_mem_cons.mpr ⟨?_, fun d hd => ?_⟩
          · dsimp only
            omega
          · have := hinside d hd
            omega
        · rw [removedBy_cons, hremoved, inDropped_cons_of_keep hkeep, ← or_assoc]
          exact or_congr_left (by dsimp only; omega)
    | false =>
      cases run with
      | none =>
        obtain rfl : first = start := hrun
        have hbegun : RunTo (some (⟨element, ⟨first, first + entry.len⟩, previous,
            some ⟨first + entry.len, first + entry.len + 1⟩⟩, ⟨element, ⟨first, first + entry.len⟩,
            previous, some ⟨first + entry.len, first + entry.len + 1⟩⟩)) first
            (first + entry.len + 1) := ⟨rfl, by omega, _, rfl, rfl⟩
        obtain ⟨deletions, heq, hordered, hinside, hremoved⟩ := ih hbegun
        refine ⟨deletions, heq, hordered, hinside, fun i => ?_⟩
        rw [hremoved, inDropped_cons, ← or_assoc]
        refine or_congr_left ?_
        dsimp only
        rw [hkeep]
        simp only [true_and]
        omega
      | some run =>
        obtain ⟨hfirst, hlt, -⟩ := hrun
        have hbegun : RunTo (some (run.1, ⟨element, ⟨start, start + entry.len⟩, previous,
            some ⟨start + entry.len, start + entry.len + 1⟩⟩)) first (start + entry.len + 1) :=
          ⟨hfirst, by omega, _, rfl, rfl⟩
        obtain ⟨deletions, heq, hordered, hinside, hremoved⟩ := ih hbegun
        refine ⟨deletions, heq, hordered, hinside, fun i => ?_⟩
        rw [hremoved, inDropped_cons, ← or_assoc]
        refine or_congr_left ?_
        dsimp only
        rw [hkeep]
        simp only [true_and]
        omega

theorem Follows.followingComma_isSome (h : Follows start entries layout) :
    ∀ entry ∈ layout, entry.followingComma.isSome = true := by
  induction h with
  | nil => simp
  | cons _ _ _ ih => exact forall_mem_cons.mpr ⟨rfl, ih⟩

/-- An entry that is kept ends a run, as the end of the list does. -/
theorem deriveDeletions_append {front rest : List (DeriveListEntryLayout × Bool)}
    (hfront : ∀ e ∈ front, e.1.followingComma.isSome = true)
    (hrun : ∀ r ∈ run, r.2.followingComma.isSome = true)
    (h : deriveDeletions run front = .ok deletions)
    (hrest : deriveDeletions none rest = .ok later) :
    deriveDeletions run (front ++ (entry, true) :: rest) = .ok (deletions ++ later) := by
  have hend : ∀ r ∈ run, deriveDeletion false r.1 r.2 = deriveDeletion true r.1 r.2 := by
    intro r hr
    obtain ⟨comma, hcomma⟩ := Option.isSome_iff_exists.mp (hrun r hr)
    unfold deriveDeletion
    rw [hcomma]
  induction front generalizing run deletions with
  | nil =>
    cases run with
    | none =>
      cases h
      exact hrest
    | some run =>
      rw [deriveDeletions] at h
      obtain ⟨deletion, hdeletion, h⟩ := bind_ok h
      cases h
      rw [nil_append, deriveDeletions, hend run rfl, hdeletion, hrest]
      rfl
  | cons first front ih =>
    obtain ⟨first, flag⟩ := first
    obtain ⟨hfirst, hothers⟩ := forall_mem_cons.mp hfront
    rw [cons_append]
    cases flag with
    | true =>
      cases run with
      | none =>
        rw [deriveDeletions] at h ⊢
        exact ih hothers (by simp) h (by simp)
      | some run =>
        rw [deriveDeletions] at h ⊢
        obtain ⟨deletion, hdeletion, h⟩ := bind_ok h
        obtain ⟨deletions, hdeletions, h⟩ := bind_ok h
        cases h
        rw [hdeletion, ih hothers (by simp) hdeletions (by simp)]
        rfl
    | false =>
      have hsame : ∀ begin, deriveDeletion false begin first = deriveDeletion true begin first := by
        intro begin
        obtain ⟨comma, hcomma⟩ := Option.isSome_iff_exists.mp hfirst
        unfold deriveDeletion
        rw [hcomma]
      cases run with
      | none =>
        rw [deriveDeletions] at h ⊢
        exact ih hothers (by simpa using hfirst) h (by simpa using hsame first)
      | some run =>
        rw [deriveDeletions] at h ⊢
        exact ih hothers (by simpa using hfirst) h (by simpa using hsame run.1)

/-- A run that has begun, or begins, behind a comma. -/
def RunFrom (run : Option (DeriveListEntryLayout × DeriveListEntryLayout))
    (previous : Option ByteRange) (comma : ByteRange) : Prop :=
  match run with
  | none => previous = some comma
  | some run => run.1.previousComma = some comma

/-- The last run goes up to the end of the list. -/
theorem deriveDeletions_last {comma : ByteRange} (hne : entries ≠ [])
    (hsome : ∀ entry ∈ entries, entry.element.isSome = true) (hlt : comma.start < start)
    (hrun : RunFrom run previous comma) :
    deriveDeletions run ((layoutOf (segmentsOf start previous (entries.map DeriveEntry.raws))
        (elementsAt start entries)).map fun entry => (entry, false)) =
      .ok [⟨comma.start, start + utf8Len (textOf (join commaToken (entries.map DeriveEntry.raws)))⟩]
    := by
  induction entries generalizing start previous run with
  | nil => exact absurd rfl hne
  | cons entry entries ih =>
    obtain ⟨hentry, hsome⟩ := forall_mem_cons.mp hsome
    obtain ⟨place, hplace⟩ := Option.isSome_iff_exists.mp hentry
    have helement : entry.elementAt start = some ⟨start + place.1, start + place.2⟩ := by
      rw [DeriveEntry.elementAt, hplace]
      rfl
    cases entries with
    | nil =>
      have hend : ∀ first last : DeriveListEntryLayout, first.previousComma = some comma →
          last.followingComma = none → last.segment.stop = start + entry.len →
          deriveDeletion true first last = .ok ⟨comma.start, start + entry.len⟩ := by
        intro first last hfirst hlast hstop
        have hempty : (⟨comma.start, start + entry.len⟩ : ByteRange).isEmpty = false := by
          rw [ByteRange.isEmpty, beq_eq_false_iff_ne]
          dsimp only
          omega
        unfold deriveDeletion
        rw [hfirst, hlast]
        dsimp only [bind, Except.bind, pure, Except.pure]
        rw [if_pos rfl, hstop, hempty]
        rfl
      rw [elementsAt, helement, map_singleton, segmentsOf, layoutOf_cons]
      cases run with
      | none =>
        obtain rfl : previous = some comma := hrun
        show (deriveDeletion true _ _).bind _ = _
        rw [hend _ _ rfl rfl rfl]
        rfl
      | some run =>
        show (deriveDeletion true _ _).bind _ = _
        rw [hend _ _ hrun rfl rfl]
        rfl
    | cons next entries =>
      obtain ⟨following, hsegments⟩ := segmentsOf_cons start previous entry.raws
        ((next :: entries).map DeriveEntry.raws)
      have hone : utf8Len commaToken.text = 1 := rfl
      have hlength : start + utf8Len (textOf (join commaToken
          (entry.raws :: (next :: entries).map DeriveEntry.raws))) =
          start + entry.len + 1 + utf8Len (textOf (join commaToken
            ((next :: entries).map DeriveEntry.raws))) := by
        rw [join_cons (by simp), DeriveEntry.len]
        simp [hone, Nat.add_assoc]
      rw [map_cons, hlength, hsegments, elementsAt, helement, layoutOf_cons, map_append,
        Option.toList_some, map_singleton, map_singleton, singleton_append]
      cases run with
      | none =>
        rw [deriveDeletions]
        exact ih (cons_ne_nil _ _) hsome (by omega) hrun
      | some run =>
        rw [deriveDeletions]
        exact ih (cons_ne_nil _ _) hsome (by omega) hrun

/-- Behind the last entry that is kept everything is dropped. -/
theorem deriveDeletions_rest (stop : Nat) (hsome : ∀ entry ∈ entries, entry.element.isSome = true) :
    ∃ later, deriveDeletions none ((layoutOf (segmentsOf (stop + 1) (some ⟨stop, stop + 1⟩)
        (entries.map DeriveEntry.raws)) (elementsAt (stop + 1) entries)).map
          fun entry => (entry, false)) = .ok later ∧
      (later.Pairwise fun a b => a.stop ≤ b.start) ∧
      (∀ d ∈ later, stop ≤ d.start ∧ d.start < d.stop ∧
        d.stop ≤ stop + utf8Len (textOf (entries.flatMap fun entry => commaToken :: entry.raws))) ∧
      ∀ i, removedBy later i = true ↔ stop ≤ i ∧
        i < stop + utf8Len (textOf (entries.flatMap fun entry => commaToken :: entry.raws)) := by
  by_cases hne : entries = []
  · subst hne
    refine ⟨[], rfl, .nil, by simp, fun i => ?_⟩
    simp [removedBy]
  · have hone : utf8Len commaToken.text = 1 := rfl
    have hjoin : ∀ pieces : List (List RawToken), pieces ≠ [] →
        utf8Len (textOf (pieces.flatMap fun piece => commaToken :: piece)) =
          1 + utf8Len (textOf (join commaToken pieces)) := by
      intro pieces hpieces
      induction pieces with
      | nil => exact absurd rfl hpieces
      | cons piece pieces ih =>
        by_cases hnil : pieces = []
        · subst hnil
          simp [hone, join]
        · rw [flatMap_cons, textOf_append, utf8Len_append, ih hnil, join_cons hnil]
          simp [hone]
          omega
    have hlength := hjoin (entries.map DeriveEntry.raws) (by simpa using hne)
    rw [flatMap_map] at hlength
    have hrun : RunFrom none (some ⟨stop, stop + 1⟩) ⟨stop, stop + 1⟩ := rfl
    have hlast := deriveDeletions_last hne hsome (Nat.lt_succ_self stop) hrun
    refine ⟨_, hlast, pairwise_singleton _ _, fun d hd => ?_, fun i => ?_⟩
    · rw [mem_singleton.mp hd]
      dsimp only
      omega
    · simp [removedBy]
      omega

theorem layoutOf_last (start : Nat) (previous : Option ByteRange) (last : DeriveEntry)
    (back : List DeriveEntry) :
    ∃ following, layoutOf (segmentsOf start previous ((last :: back).map DeriveEntry.raws))
      (elementsAt start (last :: back)) = (last.elementAt start).toList.map (fun element =>
        ⟨element, ⟨start, start + last.len⟩, previous, following⟩) ++
      layoutOf (segmentsOf (start + last.len + 1)
        (some ⟨start + last.len, start + last.len + 1⟩) (back.map DeriveEntry.raws))
        (elementsAt (start + last.len + 1) back) := by
  cases back with
  | nil => exact ⟨none, rfl⟩
  | cons next back => exact ⟨_, rfl⟩

theorem Follows.le_segment (h : Follows start entries layout) :
    ∀ entry ∈ layout, start ≤ entry.segment.start := by
  induction h with
  | nil => simp
  | cons _ _ _ ih =>
    refine forall_mem_cons.mpr ⟨le_rfl, fun entry hentry => ?_⟩
    have := ih entry hentry
    omega

/-- The removed positions are those of the dropped entries and the commas behind them. -/
theorem Follows.partsLeft (h : Follows start entries layout)
    (hremoved : ∀ i, start ≤ i → i < offsetAfter start entries →
      (removed i = true ↔ InDropped keep layout i)) :
    PartsLeft removed start
      ((entries.zip (layout.map fun entry => keep entry.element)).map fun entry =>
      (entry.1.raws ++ [commaToken], entry.2)) := by
  induction h with
  | nil => trivial
  | @cons previous start entry element entries layout helement hrest ih =>
    have hone : utf8Len commaToken.text = 1 := rfl
    have hlen : utf8Len (textOf (entry.raws ++ [commaToken])) = entry.len + 1 := by
      simp [DeriveEntry.len, hone]
    have hle := le_offsetAfter (start + entry.len + 1) entries
    have hbehind : ∀ i, InDropped keep layout i → start + entry.len + 1 ≤ i := by
      rintro i ⟨dropped, hmem, -, hstart, -⟩
      exact (hrest.le_segment dropped hmem).trans hstart
    rw [map_cons, zip_cons_cons, map_cons]
    dsimp only
    refine ⟨fun i hfirst hlast => ?_, ?_⟩
    · rw [offsetAfter] at hremoved
      dsimp only at hlast ⊢
      rw [hlen] at hlast
      have hi := hremoved i hfirst (by omega)
      rw [inDropped_cons] at hi
      dsimp only at hi
      have hnot : ¬InDropped keep layout i := fun hdropped => by
        have := hbehind i hdropped
        omega
      cases hkeep : keep element with
      | true =>
        rw [hkeep] at hi
        simpa [hnot] using hi
      | false =>
        rw [hkeep] at hi
        exact hi.mpr (.inl ⟨rfl, hfirst, by omega⟩)
    · dsimp only
      rw [hlen, ← Nat.add_assoc]
      apply ih
      intro i hfirst hlast
      rw [hremoved i (by omega) hlast, inDropped_cons]
      refine or_iff_right ?_
      rintro ⟨-, -, hstop⟩
      dsimp only at hstop
      omega

end

end ItemDependencies
