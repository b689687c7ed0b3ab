import ItemDependencies.Source.Splice

/-!
# Ranges of the output in the order of the original

A range of the output on character boundaries always has an original range.  Both of its ends cut
the kept bytes where the range itself cuts the output, and so the order of the ranges is kept, also
of those that are empty and of those that begin or end where two pieces meet.
-/

namespace ItemDependencies

open Library

/-- A change of coordinates: where the range of a crate root goes, and where other ranges go. -/
structure RangeMap where
  crateRange : ByteRange
  range : ByteRange → ByteRange

namespace SourceRewrite

variable (rewrite : SourceRewrite)

/-- A range of the output on character boundaries. -/
structure IsOutputRange (r : ByteRange) : Prop where
  le : r.start ≤ r.stop
  start : isCharBoundary rewrite.source r.start = true
  stop : isCharBoundary rewrite.source r.stop = true

/-- The original range, for a range that has one. -/
def originalOf (r : ByteRange) : ByteRange :=
  match rewrite.originalRange r with
  | .ok original => original
  | .error _ => r

/-- The way back to the original. -/
def rangeMap : RangeMap where
  crateRange := ⟨0, rewrite.originalLen⟩
  range := rewrite.originalOf

/-- The change of coordinates does what the rewrite does, and keeps the order of the ranges. -/
structure IsEmbedding (f : RangeMap) : Prop where
  crate : rewrite.originalCrateRange ⟨0, utf8Len rewrite.source⟩ = .ok f.crateRange
  range : ∀ r, rewrite.IsOutputRange r → rewrite.originalRange r = .ok (f.range r)
  le : ∀ r, rewrite.IsOutputRange r → (f.range r).start ≤ (f.range r).stop
  strictMono : StrictMonoOn f.range {r | rewrite.IsOutputRange r}

variable {rewrite} {r s original original' : ByteRange}

theorem originalOf_eq (h : rewrite.originalRange r = .ok original) :
    rewrite.originalOf r = original := by
  rw [originalOf, h]

/-- The start of the original range is that of the range. -/
theorem originalRange_start (h : rewrite.originalRange r = .ok original) :
    rewrite.originalOffset r.start true = .ok original.start ∧ original.start ≤ original.stop := by
  unfold originalRange at h
  obtain ⟨-, h⟩ := guard_ok h
  obtain ⟨-, h⟩ := guard_ok h
  obtain ⟨start, hstart, h⟩ := bind_ok h
  obtain ⟨stop, -, h⟩ := bind_ok h
  split at h
  case isTrue hle =>
    cases h
    exact ⟨hstart, hle⟩
  case isFalse => cases h

end SourceRewrite

namespace PieceMap

variable {source : List Char} {removed : Nat → Bool} {rewrite : SourceRewrite}
  {r s original original' : ByteRange}
variable (h : PieceMap source removed (utf8Len source) rewrite.source rewrite.pieces)
variable (hsize : utf8Len source < u32Size)
include h hsize

/-- Both ends of the original range cut what is kept where the range cuts the output. -/
theorem exists_original (hr : rewrite.IsOutputRange r) :
    ∃ original, rewrite.originalRange r = .ok original ∧
      ∀ (i q : Nat), (kept removed (utf8Len source))[i]? = some q →
        (q < original.start ↔ i < r.start) ∧ (q < original.stop ↔ i < r.stop) := by
  rcases hr.le.eq_or_lt with heq | hlt
  · obtain ⟨offset, stop⟩ := r
    obtain rfl : offset = stop := heq
    obtain ⟨p, hrun, -, hcut⟩ := h.originalRange_of_eq hsize hr.start
    exact ⟨_, hrun, fun i q hq => ⟨hcut i q hq, hcut i q hq⟩⟩
  · obtain ⟨start, last, hrun, -, hstart, hlast, -⟩ :=
      h.originalRange_of_lt hsize hlt hr.start hr.stop
    refine ⟨_, hrun, fun i q hq => ⟨kept_lt_iff hq hstart, ?_⟩⟩
    -- the last byte of the range is kept, and is followed by the end
    rw [Nat.lt_succ_iff, ← not_lt, kept_lt_iff hlast hq, not_lt]
    exact (Nat.le_sub_one_iff_lt (Nat.zero_lt_of_lt hlt))

/-- The first byte by which two ranges differ tells their original ranges apart. -/
theorem original_lt (hr : rewrite.IsOutputRange r) (hs : rewrite.IsOutputRange s)
    (ho : rewrite.originalRange r = .ok original) (ho' : rewrite.originalRange s = .ok original')
    (hlt : r < s) : original < original' := by
  obtain ⟨_, hrun, hcut⟩ := h.exists_original hsize hr
  cases hrun.symm.trans ho
  obtain ⟨_, hrun', hcut'⟩ := h.exists_original hsize hs
  cases hrun'.symm.trans ho'
  have hbyte : ∀ i < utf8Len rewrite.source, ∃ q, (kept removed (utf8Len source))[i]? = some q := by
    intro i hi
    rw [← h.length_kept_eq] at hi
    exact ⟨_, List.getElem?_eq_getElem hi⟩
  rcases Prod.Lex.lt_iff.mp hlt with hstart | ⟨hstart, hstop⟩
  · obtain ⟨q, hq⟩ := hbyte r.start (lt_of_lt_of_le hstart (le_utf8Len_of_isCharBoundary hs.start))
    have hbehind := not_lt.mp ((hcut _ q hq).1.not.mpr (lt_irrefl _))
    exact Prod.Lex.lt_iff.mpr (.inl (hbehind.trans_lt ((hcut' _ q hq).1.mpr hstart)))
  · obtain ⟨q, hq⟩ := hbyte r.stop (lt_of_lt_of_le hstop (le_utf8Len_of_isCharBoundary hs.stop))
    have hbehind := not_lt.mp ((hcut _ q hq).2.not.mpr (lt_irrefl _))
    have hsame : original.start = original'.start := by
      have hrun := (SourceRewrite.originalRange_start ho).1
      rw [show r.start = s.start from hstart, (SourceRewrite.originalRange_start ho').1] at hrun
      exact (Except.ok.inj hrun).symm
    exact Prod.Lex.lt_iff.mpr (.inr ⟨hsame, hbehind.trans_lt ((hcut' _ q hq).2.mpr hstop)⟩)

end PieceMap

/-- The way back to the original is an embedding. -/
theorem splice_isEmbedding {source : List Char} {deletions : List ByteRange}
    {rewrite : SourceRewrite} (h : splice source deletions = .ok rewrite) :
    rewrite.IsEmbedding rewrite.rangeMap := by
  obtain ⟨hsize, hmap⟩ := splice_ok h
  have hrange : ∀ r, rewrite.IsOutputRange r →
      rewrite.originalRange r = .ok (rewrite.originalOf r) := by
    intro r hr
    obtain ⟨original, hrun, -⟩ := hmap.exists_original hsize hr
    rw [hrun, SourceRewrite.originalOf_eq hrun]
  refine ⟨?_, hrange, fun r hr => (SourceRewrite.originalRange_start (hrange r hr)).2,
    fun r hr s hs hlt => hmap.original_lt hsize hr hs (hrange r hr) (hrange s hs) hlt⟩
  unfold SourceRewrite.originalCrateRange
  dsimp only
  rw [if_neg (not_le.mpr (hmap.utf8Len_lt hsize)), if_neg (not_not.mpr rfl)]
  rfl

end ItemDependencies
