import ItemDependencies.Library.PartitionPoint
import ItemDependencies.Source.LexicalTiling

/-!
# The sweep finds the owners a full scan finds

Pieces only move forward, so a unit that ends before one piece owns no later
piece.  Such a unit may stay in the heap, but never at its top.
-/

namespace ItemDependencies

open Library List

/-- The order in which units own the pieces that they share. -/
def unitKey (units : List WrittenUnit) (unit : WrittenUnit) : OwnerKey :=
  ownerKey (parentDepth units units.length unit.id.index) unit

def unitEntry (units : List WrittenUnit) (unit : WrittenUnit) : OwnerKey ×ₗ Nat :=
  toLex (unitKey units unit, unit.fullRange.stop)

/-- The sweep before a piece that starts no earlier and ends no earlier than the offsets. -/
structure Swept (units : List WrittenUnit) (start stop : Nat) (sweep : OwnerSweep) : Prop where
  pending : sweep.pending.Pairwise fun a b => a.fullRange.start ≤ b.fullRange.start
  subset : sweep.pending ⊆ units
  sorted : sweep.active.Pairwise (· ≥ ·)
  sound : ∀ entry ∈ sweep.active, ∃ unit ∈ units, entry = unitEntry units unit ∧
    unit.fullRange.start ≤ start
  complete : ∀ unit ∈ units, stop ≤ unit.fullRange.stop →
    unit ∈ sweep.pending ∨ unitEntry units unit ∈ sweep.active

section

variable {units : List WrittenUnit} {start stop : Nat} {range : ByteRange} {sweep : OwnerSweep}
  {piece : RawPiece} {owned : List OwnedPiece} {unit : WrittenUnit}
  {active : List (OwnerKey ×ₗ Nat)} {entry : OwnerKey ×ₗ Nat}

/-- The depths of the units, in the order of their ids. -/
abbrev depthsOf (units : List WrittenUnit) : List Nat :=
  (List.range units.length).map (parentDepth units units.length)

theorem UnitTree.unitKey_eq (h : UnitTree units) (hunit : unit ∈ units) :
    ownerKey ((depthsOf units)[unit.id.index]?.getD 0) unit = unitKey units unit := by
  obtain ⟨i, hi⟩ := getElem?_of_mem hunit
  have hlt := (List.getElem?_eq_some_iff.mp hi).1
  rw [unitKey, h.ids i unit hi]
  simp [hlt]

/-! ## Opening units -/

theorem openUnits_sorted {opened : List WrittenUnit} (hsorted : active.Pairwise (· ≥ ·)) :
    (opened.foldl (openUnit (depthsOf units) range) active).Pairwise (· ≥ ·) := by
  induction opened generalizing active with
  | nil => exact hsorted
  | cons unit opened ih =>
    apply ih
    rw [openUnit]
    split
    · exact hsorted
    · exact hsorted.orderedInsert _ _

theorem mem_openUnits (h : UnitTree units) {opened : List WrittenUnit} (hopened : opened ⊆ units) :
    entry ∈ opened.foldl (openUnit (depthsOf units) range) active ↔ entry ∈ active ∨
      ∃ unit ∈ opened, range.stop ≤ unit.fullRange.stop ∧ entry = unitEntry units unit := by
  induction opened generalizing active with
  | nil => simp
  | cons unit opened ih =>
    obtain ⟨hunit, hopened⟩ := cons_subset.mp hopened
    rw [foldl_cons, ih hopened, openUnit]
    split
    case isTrue hlt =>
      have hno : ¬range.stop ≤ unit.fullRange.stop := by omega
      simp [hno]
    case isFalse hge =>
      have hyes : range.stop ≤ unit.fullRange.stop := by omega
      rw [h.unitKey_eq hunit]
      simp only [mem_orderedInsert, mem_cons, exists_eq_or_imp, hyes, true_and]
      rw [unitEntry]
      tauto

/-! ## One piece -/

/-- Units that begin after the piece stay, and ends behind it leave the top. -/
def OwnerSweep.advance (units : List WrittenUnit) (range : ByteRange) (sweep : OwnerSweep) :
    OwnerSweep where
  pending := sweep.pending.dropWhile fun unit => unit.fullRange.start ≤ range.start
  active := ((sweep.pending.takeWhile fun unit => unit.fullRange.start ≤ range.start).foldl
    (openUnit (depthsOf units) range) sweep.active).dropWhile
    fun entry => (ofLex entry).2 < range.stop

theorem Swept.partitioned (h : Swept units start stop sweep) (offset : Nat) :
    Partitioned (fun unit => decide (unit.fullRange.start ≤ offset)) sweep.pending :=
  h.pending.imp fun hle hb => by
    simp only [decide_eq_true_eq] at hb ⊢
    omega

/-- An end that is not behind the piece is kept. -/
theorem mem_dropWhile_unitEntry (hle : range.stop ≤ unit.fullRange.stop)
    (hmem : unitEntry units unit ∈ active) :
    unitEntry units unit ∈ active.dropWhile fun entry => (ofLex entry).2 < range.stop := by
  induction active with
  | nil => cases hmem
  | cons entry active ih =>
    by_cases hlt : (ofLex entry).2 < range.stop
    · rw [dropWhile_cons_of_pos (by simpa using hlt)]
      refine ih ((mem_cons.mp hmem).resolve_left ?_)
      rintro rfl
      have hlt : unit.fullRange.stop < range.stop := hlt
      omega
    · rwa [dropWhile_cons_of_neg (by simpa using hlt)]

theorem Swept.advance (hunits : UnitTree units) (h : Swept units start stop sweep)
    (hstart : start ≤ range.start) (hstop : stop ≤ range.stop) :
    Swept units range.start range.stop (sweep.advance units range) := by
  have hopened : (sweep.pending.takeWhile fun unit =>
      decide (unit.fullRange.start ≤ range.start)) ⊆ units :=
    fun unit hunit => h.subset ((List.takeWhile_prefix _).subset hunit)
  refine ⟨h.pending.sublist (dropWhile_sublist _),
    fun unit hunit => h.subset ((dropWhile_sublist _).subset hunit),
    (openUnits_sorted h.sorted).sublist (dropWhile_sublist _), ?_, ?_⟩
  · intro entry hentry
    rcases (mem_openUnits hunits hopened).mp ((dropWhile_sublist _).subset hentry) with
      hentry | ⟨unit, hunit, -, rfl⟩
    · obtain ⟨unit, hunit, rfl, hle⟩ := h.sound entry hentry
      exact ⟨unit, hunit, rfl, by omega⟩
    · have hle := ((mem_takeWhile_iff (h.partitioned range.start)).mp hunit).2
      exact ⟨unit, hopened hunit, rfl, by simpa using hle⟩
  · intro unit hunit hle
    rcases h.complete unit hunit (by omega) with hpending | hactive
    · by_cases hbegun : unit.fullRange.start ≤ range.start
      · exact .inr (mem_dropWhile_unitEntry hle ((mem_openUnits hunits hopened).mpr (.inr ⟨unit,
          (mem_takeWhile_iff (h.partitioned range.start)).mpr ⟨hpending, by simpa using hbegun⟩,
          hle, rfl⟩)))
      · exact .inl ((mem_dropWhile_iff (h.partitioned range.start)).mpr
          ⟨hpending, by simpa using hbegun⟩)
    · exact .inr (mem_dropWhile_unitEntry hle ((mem_openUnits hunits hopened).mpr (.inl hactive)))

section

variable {lexer : SourceLexer} {source : List Char}

end

end

end ItemDependencies
