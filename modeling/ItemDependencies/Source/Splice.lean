import ItemDependencies.Library.Fallible
import ItemDependencies.Library.IndexRange
import ItemDependencies.Library.Removal
import ItemDependencies.Source.Text

/-!
# Cutting deletions out of a text

`splice` copies the text between the deletions to the output and records each
copied run as a piece.  The pieces list the kept positions in their order, so
that a position of the output is mapped back to the position that its byte was
copied from.
-/

namespace ItemDependencies

open Library List

/-- Copy a run of the source to the end of the output. -/
def appendPiece (source output : List Char) (pieces : List SourcePiece) (start stop : Nat) :
    Except SourceRewriteError (List Char × List SourcePiece) :=
  if start = stop then return (output, pieces)
  else
    match textRange source start stop with
    | none => throw .invalidInventory
    | some bytes =>
      let outputStart := utf8Len output
      let outputStop := utf8Len (output ++ bytes)
      if u32Size ≤ outputStart ∨ u32Size ≤ outputStop then throw .invalidInventory
      else return (output ++ bytes, pieces ++ [⟨⟨outputStart, outputStop⟩, ⟨start, stop⟩⟩])

/-- One piece of a valid piece map, after a position of the output and one of the original. -/
def SourcePiece.continues (originalLen : Nat) (cursors : Nat × Nat) (piece : SourcePiece) :
    Option (Nat × Nat) :=
  if piece.outputRange.start ≠ cursors.1 ∨ piece.outputRange.stop ≤ piece.outputRange.start ∨
      piece.originalRange.stop ≤ piece.originalRange.start ∨
      piece.outputRange.len ≠ piece.originalRange.len ∨ piece.originalRange.start < cursors.2 ∨
      originalLen < piece.originalRange.stop then none
  else some (piece.outputRange.stop, piece.originalRange.stop)

def SourceRewrite.validPieceMap (rewrite : SourceRewrite) (sourceLen : Nat) : Bool :=
  match rewrite.pieces.foldlM (SourcePiece.continues rewrite.originalLen) (0, 0) with
  | none => false
  | some (outputCursor, _) =>
    outputCursor == sourceLen && (sourceLen == 0 || !rewrite.pieces.isEmpty)

/-- A deletion is not empty, lies on character boundaries and comes after the previous one. -/
def checkDeletion (source : List Char) (previousStop : Nat) (deletion : ByteRange) :
    Except SourceRewriteError Nat :=
  if deletion.start < previousStop ∨ deletion.isEmpty ∨ !validRange source deletion then
    throw .invalidInventory
  else return deletion.stop

/-- The output, its pieces, and the end of the last deletion. -/
structure SpliceState where
  output : List Char
  pieces : List SourcePiece
  cursor : Nat

def spliceStep (source : List Char) (s : SpliceState) (deletion : ByteRange) :
    Except SourceRewriteError SpliceState := do
  let (output, pieces) ← appendPiece source s.output s.pieces s.cursor deletion.start
  return ⟨output, pieces, deletion.stop⟩

/-- Cut the deletions out of a text. -/
def splice (source : List Char) (deletions : List ByteRange) :
    Except SourceRewriteError SourceRewrite := do
  let sourceLen := utf8Len source
  if u32Size ≤ sourceLen then throw .invalidInventory
  let _ ← deletions.foldlM (checkDeletion source) 0
  let s ← deletions.foldlM (spliceStep source) ⟨[], [], 0⟩
  let (output, pieces) ← appendPiece source s.output s.pieces s.cursor sourceLen
  let rewrite : SourceRewrite := ⟨output, pieces, sourceLen⟩
  if !rewrite.validPieceMap (utf8Len output % u32Size) then throw .invalidInventory
  return rewrite

def validateDeletionRange (source : List Char) (deletion : ByteRange) (pieceBoundaries : List Nat) :
    Except SourceRewriteError Unit :=
  if deletion.start = deletion.stop ∨ !validRange source deletion ∨
      !pieceBoundaries.contains deletion.start ∨ !pieceBoundaries.contains deletion.stop then
    throw .invalidInventory
  else return ()

/-- One more deletion, which is merged into the last one where they touch. -/
def mergeStep (source : List Char) (pieceBoundaries : List Nat) (merged : List ByteRange)
    (deletion : ByteRange) : Except SourceRewriteError (List ByteRange) := do
  validateDeletionRange source deletion pieceBoundaries
  match merged.getLast? with
  | some previous =>
    if deletion.start ≤ previous.stop then
      return merged.dropLast ++ [⟨previous.start, max previous.stop deletion.stop⟩]
    else return merged ++ [deletion]
  | none => return merged ++ [deletion]

/-- Merge deletions that come in their order. -/
def mergeDeletions (source : List Char) (deletions : List ByteRange) (pieceBoundaries : List Nat) :
    Except SourceRewriteError (List ByteRange) :=
  deletions.foldlM (mergeStep source pieceBoundaries) []

/-- A position lies in one of some deletions. -/
def removedBy (deletions : List ByteRange) (position : Nat) : Bool :=
  deletions.any fun deletion => deletion.start ≤ position && position < deletion.stop

/-! ## Pieces -/

/-- Pieces whose output ranges cover the output from one position to another. -/
def Consecutive : Nat → List SourcePiece → Nat → Prop
  | first, [], last => first = last
  | first, piece :: pieces, last => piece.outputRange.start = first ∧
      piece.outputRange.start < piece.outputRange.stop ∧
      piece.outputRange.start + piece.originalRange.len = piece.outputRange.stop ∧
      Consecutive piece.outputRange.stop pieces last

/-- The original positions of the pieces. -/
def origins (pieces : List SourcePiece) : List Nat :=
  pieces.flatMap fun piece => List.range' piece.originalRange.start piece.originalRange.len

section Pieces

variable {first last offset : Nat} {pieces pieces' : List SourcePiece}

theorem Consecutive.append {mid : Nat} (h : Consecutive first pieces mid)
    (h' : Consecutive mid pieces' last) : Consecutive first (pieces ++ pieces') last := by
  induction pieces generalizing first with
  | nil =>
    obtain rfl : first = mid := h
    exact h'
  | cons piece pieces ih => exact ⟨h.1, h.2.1, h.2.2.1, ih h.2.2.2⟩

theorem Consecutive.le (h : Consecutive first pieces last) : first ≤ last := by
  induction pieces generalizing first with
  | nil => exact h.le
  | cons piece pieces ih =>
    obtain ⟨rfl, hlt, -, hrest⟩ := h
    exact hlt.le.trans (ih hrest)

theorem Consecutive.of_mem (h : Consecutive first pieces last) {piece : SourcePiece}
    (hp : piece ∈ pieces) : piece.outputRange.start < piece.outputRange.stop ∧
      piece.outputRange.start + piece.originalRange.len = piece.outputRange.stop ∧
      piece.outputRange.stop ≤ last := by
  induction pieces generalizing first with
  | nil => cases hp
  | cons p pieces ih =>
    obtain ⟨rfl, hlt, hlen, hrest⟩ := h
    rcases mem_cons.mp hp with rfl | hp
    · exact ⟨hlt, hlen, hrest.le⟩
    · exact ih hrest hp

/-- The piece that a position of the output lies in is found, and tells where the position comes
from. -/
theorem Consecutive.find (h : Consecutive first pieces last) (hle : first ≤ offset)
    (hlt : offset < last) :
    ∃ piece, (pieces.find? fun piece =>
        piece.outputRange.start ≤ offset && offset < piece.outputRange.stop) = some piece ∧
      piece.outputRange.start ≤ offset ∧ offset < piece.outputRange.stop ∧
      (origins pieces)[offset - first]? =
        some (piece.originalRange.start + (offset - piece.outputRange.start)) := by
  induction pieces generalizing first with
  | nil =>
    obtain rfl : first = last := h
    exact absurd hlt (Nat.not_lt.mpr hle)
  | cons p pieces ih =>
    obtain ⟨rfl, hne, hlen, hrest⟩ := h
    have horigins : origins (p :: pieces) =
        List.range' p.originalRange.start p.originalRange.len ++ origins pieces := rfl
    by_cases hin : offset < p.outputRange.stop
    · refine ⟨p, ?_, hle, hin, ?_⟩
      · rw [find?_cons_of_pos (by simp [hle, hin])]
      · have hlt' : offset - p.outputRange.start < p.originalRange.len := by omega
        rw [horigins, getElem?_append_left (by rwa [length_range']),
          getElem?_range' hlt', Nat.one_mul]
    · obtain ⟨piece, hfind, h₁, h₂, hget⟩ := ih hrest (Nat.le_of_not_lt hin)
      refine ⟨piece, ?_, h₁, h₂, ?_⟩
      · rw [find?_cons_of_neg (by simp [hin]), hfind]
      · have hskip : offset - p.outputRange.start - p.originalRange.len =
            offset - p.outputRange.stop := by omega
        rw [horigins, getElem?_append_right (by rw [length_range']; omega),
          length_range', hskip, hget]

/-- The last position is the end of the last piece. -/
theorem Consecutive.last_piece (h : Consecutive first pieces last) (hne : pieces ≠ []) :
    ∃ piece, pieces.getLast? = some piece ∧ piece.outputRange.stop = last ∧
      piece.outputRange.start < last := by
  induction pieces generalizing first with
  | nil => exact absurd rfl hne
  | cons p pieces ih =>
    obtain ⟨rfl, hlt, -, hrest⟩ := h
    cases pieces with
    | nil =>
      obtain rfl : p.outputRange.stop = last := hrest
      exact ⟨p, rfl, rfl, hlt⟩
    | cons q pieces =>
      rw [getLast?_cons_cons]
      exact ih hrest (by simp)

end Pieces

/-! ## The piece map of a splice -/

/-- The output and its pieces hold what is kept of the source before a position. -/
structure PieceMap (source : List Char) (removed : Nat → Bool) (cursor : Nat) (output : List Char)
    (pieces : List SourcePiece) : Prop where
  boundary : isCharBoundary source cursor = true
  consecutive : Consecutive 0 pieces (utf8Len output)
  origins_eq : origins pieces = kept removed cursor
  bytes : utf8Bytes output = remaining removed 0 ((utf8Bytes source).take cursor)
  texts : ∀ piece ∈ pieces, ∃ before copied behind front rest,
    output = before ++ (copied ++ behind) ∧ source = front ++ (copied ++ rest) ∧
    utf8Len before = piece.outputRange.start ∧ utf8Len front = piece.originalRange.start ∧
    utf8Len copied = piece.originalRange.len

namespace PieceMap

variable {source output output' : List Char} {removed removed' : Nat → Bool} {cursor stop : Nat}
variable {pieces pieces' : List SourcePiece}

theorem nil (source : List Char) (removed : Nat → Bool) : PieceMap source removed 0 [] [] :=
  ⟨isCharBoundary_zero, rfl, rfl, rfl, by simp⟩

/-- Only the removals before the cursor matter. -/
theorem congr (h : PieceMap source removed cursor output pieces)
    (hsame : ∀ i < cursor, removed i = removed' i) :
    PieceMap source removed' cursor output pieces where
  boundary := h.boundary
  consecutive := h.consecutive
  origins_eq := h.origins_eq.trans (kept_congr hsame)
  bytes := by
    rw [h.bytes]
    apply remaining_congr
    intro i hi
    rw [Nat.zero_add]
    exact hsame i (hi.trans_le (length_take_le _ _))
  texts := h.texts

theorem take_bytes (hle : cursor ≤ stop) (hstop : stop ≤ utf8Len source) :
    remaining removed 0 ((utf8Bytes source).take stop) =
      remaining removed 0 ((utf8Bytes source).take cursor) ++
        remaining removed cursor ((utf8Bytes source).extract cursor stop) := by
  have hsplit : (utf8Bytes source).take stop =
      (utf8Bytes source).take cursor ++ (utf8Bytes source).extract cursor stop := by
    conv_lhs => rw [← take_append_drop cursor ((utf8Bytes source).take stop)]
    rw [take_take, Nat.min_eq_left hle, drop_take]
  have hlength : ((utf8Bytes source).take cursor).length = cursor := by
    rw [length_take, length_utf8Bytes]
    omega
  rw [hsplit, remaining_append, hlength, Nat.zero_add]

/-- A deletion moves the cursor over removed positions. -/
theorem skip (h : PieceMap source removed cursor output pieces) (hle : cursor ≤ stop)
    (hboundary : isCharBoundary source stop = true)
    (hremoved : ∀ i, cursor ≤ i → i < stop → removed i = true) :
    PieceMap source removed stop output pieces where
  boundary := hboundary
  consecutive := h.consecutive
  origins_eq := by
    obtain ⟨n, rfl⟩ := Nat.exists_eq_add_of_le hle
    rw [h.origins_eq, kept_add_of_removed hremoved]
  bytes := by
    rw [h.bytes, take_bytes hle (le_utf8Len_of_isCharBoundary hboundary),
      remaining_eq_nil (l := (utf8Bytes source).extract cursor stop), append_nil]
    intro i hi
    apply hremoved _ (Nat.le_add_right _ _)
    have := hi.trans_le (length_take_le _ _)
    omega
  texts := h.texts

/-- A run without removed positions is copied. -/
theorem append (h : PieceMap source removed cursor output pieces)
    (run : appendPiece source output pieces cursor stop = .ok (output', pieces'))
    (hkept : ∀ i, cursor ≤ i → i < stop → removed i = false) :
    cursor ≤ stop ∧ PieceMap source removed stop output' pieces' := by
  unfold appendPiece at run
  split at run
  · rename_i heq
    subst heq
    cases run
    exact ⟨le_rfl, h⟩
  rename_i hne
  split at run
  · cases run
  rename_i copied hrange
  obtain ⟨front, rest, hsource, hfront, hcopied⟩ := textRange_eq_some hrange
  simp only at run
  obtain ⟨-, run⟩ := guard_ok run
  cases run
  have hle : cursor ≤ stop := by omega
  have hlen : stop - cursor = utf8Len copied := by omega
  have hextract : (utf8Bytes source).extract cursor stop = utf8Bytes copied := by
    rw [extract_eq_take_drop, hsource, utf8Bytes_append, utf8Bytes_append, ← hfront,
      ← length_utf8Bytes, drop_left, length_utf8Bytes, hfront, hlen, ← length_utf8Bytes, take_left]
  refine ⟨hle, ?_, ?_, ?_, ?_, ?_⟩
  · rw [hsource, ← hcopied, ← hfront, isCharBoundary_append, isCharBoundary_of_le le_rfl,
      isCharBoundary_utf8Len]
  · refine h.consecutive.append ⟨rfl, ?_, ?_, ?_⟩
    · simp only [utf8Len_append]
      omega
    · simp only [utf8Len_append, ByteRange.len, hlen]
    · rfl
  · obtain ⟨n, rfl⟩ := Nat.exists_eq_add_of_le hle
    have hone : origins [⟨⟨utf8Len output, utf8Len (output ++ copied)⟩, ⟨cursor, cursor + n⟩⟩] =
        List.range' cursor n := by
      simp [origins, ByteRange.len]
    rw [kept_add_of_kept hkept, ← h.origins_eq, ← hone, origins, origins, origins, flatMap_append]
  · rw [utf8Bytes_append, h.bytes, take_bytes hle, hextract,
      remaining_eq_self (l := utf8Bytes copied)]
    · intro i hi
      rw [length_utf8Bytes] at hi
      exact hkept _ (Nat.le_add_right _ _) (by omega)
    · rw [hsource, utf8Len_append, utf8Len_append]
      omega
  · intro piece hpiece
    rcases mem_append.mp hpiece with hpiece | hpiece
    · obtain ⟨before, copied', behind, front', rest', hout, hrest⟩ := h.texts piece hpiece
      exact ⟨before, copied', behind ++ copied, front', rest', by simp [hout], hrest⟩
    · rw [mem_singleton] at hpiece
      subst hpiece
      exact ⟨output, copied, [], front, rest, by simp, hsource, rfl, hfront, hlen.symm⟩

/-- A cut of the output inside a piece is a cut of the source. -/
theorem boundary_of_piece (h : PieceMap source removed cursor output pieces) {piece : SourcePiece}
    (hpiece : piece ∈ pieces) {offset : Nat} (hstart : piece.outputRange.start ≤ offset)
    (hstop : offset ≤ piece.outputRange.start + piece.originalRange.len)
    (hoffset : isCharBoundary output offset = true) : isCharBoundary source
      (piece.originalRange.start + (offset - piece.outputRange.start)) = true := by
  obtain ⟨before, copied, behind, front, rest, hout, hsource, hbefore, hfront, hcopied⟩ :=
    h.texts piece hpiece
  obtain ⟨n, rfl⟩ := Nat.exists_eq_add_of_le hstart
  have hn : n ≤ utf8Len copied := by omega
  rw [hout, ← hbefore, isCharBoundary_append, isCharBoundary_of_le hn] at hoffset
  rw [hsource, ← hfront, Nat.add_sub_cancel_left, isCharBoundary_append, isCharBoundary_of_le hn,
    hoffset]

end PieceMap

/-! ## Accepted deletions -/

theorem removedBy_append_singleton (deletions : List ByteRange) (deletion : ByteRange) (i : Nat) :
    removedBy (deletions ++ [deletion]) i =
      (removedBy deletions i || (deletion.start ≤ i && i < deletion.stop)) := by
  simp [removedBy]

variable {deletions : List ByteRange}

theorem removedBy_eq_false {i : Nat} (h : ∀ deletion ∈ deletions, deletion.stop ≤ i) :
    removedBy deletions i = false := by
  rw [removedBy, any_eq_false]
  intro deletion hd
  simp [h deletion hd]

variable {source : List Char}

theorem checkDeletions_ok {last : Nat} (h : deletions.foldlM (checkDeletion source) 0 = .ok last) :
    ∀ deletion ∈ deletions, validRange source deletion = true := by
  refine foldlM_ok (P := fun done _ => ∀ deletion ∈ done, validRange source deletion = true) ?_
    (by simp) h
  intro done deletion s t hdone hstep d hd
  rcases mem_append.mp hd with hd | hd
  · exact hdone d hd
  · rw [mem_singleton] at hd
    subst hd
    unfold checkDeletion at hstep
    have hguard := (guard_ok hstep).1
    simp only [not_or, Bool.not_eq_true'] at hguard
    simpa using hguard.2.2

/-- The run of `splice` before a deletion. -/
structure SpliceInv (source : List Char) (done : List ByteRange) (s : SpliceState) : Prop where
  map : PieceMap source (removedBy done) s.cursor s.output s.pieces
  behind : ∀ deletion ∈ done, deletion.stop ≤ s.cursor

theorem SpliceInv.step {done : List ByteRange} {s t : SpliceState} {deletion : ByteRange}
    (h : SpliceInv source done s) (hvalid : validRange source deletion = true)
    (run : spliceStep source s deletion = .ok t) : SpliceInv source (done ++ [deletion]) t := by
  obtain ⟨⟨output, pieces⟩, happend, heq⟩ := bind_ok run
  cases heq
  simp only [validRange, Bool.and_eq_true, decide_eq_true_eq] at hvalid
  obtain ⟨⟨⟨hle, -⟩, -⟩, hstop⟩ := hvalid
  obtain ⟨hcursor, hmap⟩ := h.map.append happend fun i hi _ =>
    removedBy_eq_false fun d hd => (h.behind d hd).trans hi
  constructor
  · refine (hmap.congr fun i hi => ?_).skip hle hstop fun i hi hlt => ?_
    · rw [removedBy_append_singleton]
      simp [hi]
    · rw [removedBy_append_singleton]
      simp [hi, hlt]
  · intro d hd
    rcases mem_append.mp hd with hd | hd
    · exact (h.behind d hd).trans (hcursor.trans hle)
    · rw [mem_singleton] at hd
      exact hd ▸ le_rfl

/-- The rewrite that `splice` returns has the piece map of the kept positions. -/
theorem splice_ok {rewrite : SourceRewrite} (h : splice source deletions = .ok rewrite) :
    utf8Len source < u32Size ∧
      PieceMap source (removedBy deletions) (utf8Len source) rewrite.source rewrite.pieces := by
  unfold splice at h
  obtain ⟨hlen, h⟩ := guard_ok h
  obtain ⟨last, hcheck, h⟩ := bind_ok h
  obtain ⟨s, hrun, h⟩ := bind_ok h
  obtain ⟨⟨output, pieces⟩, happend, h⟩ := bind_ok h
  obtain ⟨-, h⟩ := guard_ok h
  cases h
  have hvalid := checkDeletions_ok hcheck
  have hinv : (∀ deletion ∈ deletions, validRange source deletion = true) →
      SpliceInv source deletions s :=
    foldlM_ok (P := fun done s => (∀ deletion ∈ done, validRange source deletion = true) →
        SpliceInv source done s)
      (fun done deletion s t hs hstep hall =>
        (hs fun d hd => hall d (mem_append_left _ hd)).step (hall deletion (by simp)) hstep)
      (fun _ => ⟨PieceMap.nil source _, by simp⟩) hrun
  have hs := hinv hvalid
  exact ⟨Nat.not_le.mp hlen, (hs.map.append happend fun i hi _ =>
    removedBy_eq_false fun d hd => (hs.behind d hd).trans hi).2⟩

/-! ## Positions are mapped back -/

namespace PieceMap

variable {source : List Char} {removed : Nat → Bool} {rewrite : SourceRewrite} {offset : Nat}
variable (h : PieceMap source removed (utf8Len source) rewrite.source rewrite.pieces)
variable (hsize : utf8Len source < u32Size)
include h

theorem length_kept_eq : (kept removed (utf8Len source)).length = utf8Len rewrite.source := by
  have hbytes := congrArg List.length h.bytes
  rw [length_utf8Bytes, length_remaining_zero, length_take, length_utf8Bytes,
    Nat.min_self] at hbytes
  exact hbytes.symm

/-- What is kept ends with the last piece. -/
theorem lt_of_mem_kept {piece : SourcePiece} (hlast : rewrite.pieces.getLast? = some piece)
    {q : Nat}
    (hq : q ∈ kept removed (utf8Len source)) :
    q < piece.originalRange.start + piece.originalRange.len := by
  obtain ⟨front, hfront⟩ := getLast?_eq_some_iff.mp hlast
  have hlen : 0 < piece.originalRange.len := by
    obtain ⟨hlt, hlen, -⟩ := h.consecutive.of_mem (mem_of_getLast? hlast)
    omega
  have horigins : kept removed (utf8Len source) = origins front ++
      List.range' piece.originalRange.start piece.originalRange.len := by
    rw [← h.origins_eq, hfront, origins, origins, flatMap_append, flatMap_singleton]
  have hsorted : (kept removed (utf8Len source)).Pairwise (· < ·) := pairwise_kept
  rw [horigins, pairwise_append] at hsorted
  rw [horigins, mem_append, mem_range'_1] at hq
  rcases hq with hq | hq
  · have hstart := hsorted.2.2 q hq piece.originalRange.start
      (mem_range'_1.mpr ⟨le_rfl, Nat.lt_add_of_pos_right hlen⟩)
    exact hstart.trans_le (Nat.le_add_right _ _)
  · exact hq.2

include hsize

theorem utf8Len_lt : utf8Len rewrite.source < u32Size := by
  rw [← h.length_kept_eq, kept]
  exact lt_of_le_of_lt ((length_filter_le _ _).trans length_range.le) hsize

/-- The start of a range is mapped to the position that its first byte was copied from. -/
theorem originalOffset_start (hoffset : offset < utf8Len rewrite.source)
    (hboundary : isCharBoundary rewrite.source offset = true) :
    ∃ p, rewrite.originalOffset offset true = .ok p ∧
      (kept removed (utf8Len source))[offset]? = some p ∧ isCharBoundary source p = true := by
  obtain ⟨piece, hfind, hstart, hstop, hget⟩ := h.consecutive.find (Nat.zero_le offset) hoffset
  rw [Nat.sub_zero, h.origins_eq] at hget
  have hmem := mem_of_find?_eq_some hfind
  refine ⟨_, ?_, hget, ?_⟩
  · have hlt := (mem_kept.mp (mem_of_getElem? hget)).1
    have hpiece : rewrite.pieceAt offset true = some piece := by
      simp only [SourceRewrite.pieceAt, if_true, hfind, Option.orElse_some]
    simp only [SourceRewrite.originalOffset, hpiece]
    rw [if_pos (hlt.trans hsize)]
    rfl
  · obtain ⟨-, hlen, -⟩ := h.consecutive.of_mem hmem
    exact h.boundary_of_piece hmem hstart (hlen ▸ hstop.le) hboundary

/-- The end of a range is mapped to the position after the one that its last byte was copied
from. -/
theorem originalOffset_stop (hpos : 0 < offset) (hoffset : offset ≤ utf8Len rewrite.source)
    (hboundary : isCharBoundary rewrite.source offset = true) :
    ∃ p, rewrite.originalOffset offset false = .ok (p + 1) ∧
      (kept removed (utf8Len source))[offset - 1]? = some p ∧
      isCharBoundary source (p + 1) = true := by
  obtain ⟨last, rfl⟩ := Nat.exists_eq_add_one.mpr hpos
  obtain ⟨piece, hfind, hstart, hstop, hget⟩ := h.consecutive.find (Nat.zero_le last) hoffset
  rw [Nat.sub_zero, h.origins_eq] at hget
  have hmem := mem_of_find?_eq_some hfind
  have hnext : piece.originalRange.start + (last + 1 - piece.outputRange.start) =
      piece.originalRange.start + (last - piece.outputRange.start) + 1 := by omega
  refine ⟨_, ?_, hget, ?_⟩
  · have hlt := (mem_kept.mp (mem_of_getElem? hget)).1
    -- the left-biased search for a position is the right-biased one for the byte before it
    have hsame : (fun piece : SourcePiece => decide (piece.outputRange.start < last + 1) &&
        decide (last + 1 ≤ piece.outputRange.stop)) = fun piece =>
          decide (piece.outputRange.start ≤ last) && decide (last < piece.outputRange.stop) := by
      funext piece
      simp only [Nat.lt_add_one_iff, Nat.add_one_le_iff]
    have hpiece : rewrite.pieceAt (last + 1) false = some piece := by
      simp only [SourceRewrite.pieceAt, Bool.false_eq_true, if_false, hsame, hfind,
        Option.orElse_some]
    simp only [SourceRewrite.originalOffset, hpiece, hnext]
    rw [if_pos (Nat.lt_of_le_of_lt hlt hsize)]
    rfl
  · obtain ⟨-, hlen, -⟩ := h.consecutive.of_mem hmem
    rw [← hnext]
    exact h.boundary_of_piece hmem (hstart.trans (Nat.le_succ _)) (hlen ▸ hstop) hboundary

/-- The end of the output is mapped to the end of the last piece, behind all that is kept. -/
theorem originalOffset_end :
    ∃ p, rewrite.originalOffset (utf8Len rewrite.source) true = .ok p ∧
      isCharBoundary source p = true ∧ ∀ q ∈ kept removed (utf8Len source), q < p := by
  by_cases hpieces : rewrite.pieces = []
  · have hempty : utf8Len rewrite.source = 0 := by
      have hconsecutive := h.consecutive
      rw [hpieces] at hconsecutive
      exact hconsecutive.symm
    refine ⟨0, ?_, isCharBoundary_zero, fun q hq => ?_⟩
    · simp [SourceRewrite.originalOffset, SourceRewrite.pieceAt, hpieces, hempty]
      rfl
    · rw [← h.origins_eq, hpieces] at hq
      exact absurd hq not_mem_nil
  obtain ⟨piece, hlast, hstop, hlt⟩ := h.consecutive.last_piece hpieces
  have hmem := mem_of_getLast? hlast
  obtain ⟨-, hlen, -⟩ := h.consecutive.of_mem hmem
  have hboundary := h.boundary_of_piece hmem hlt.le (by rw [hlen, hstop]) isCharBoundary_utf8Len
  have hskip : utf8Len rewrite.source - piece.outputRange.start = piece.originalRange.len := by
    omega
  rw [hskip] at hboundary
  refine ⟨_, ?_, hboundary, fun q hq => h.lt_of_mem_kept hlast hq⟩
  have hinside : rewrite.pieces.find? (fun piece =>
      decide (piece.outputRange.start ≤ utf8Len rewrite.source) &&
        decide (utf8Len rewrite.source < piece.outputRange.stop)) = none := by
    rw [find?_eq_none]
    intro p hp
    simp [(h.consecutive.of_mem hp).2.2]
  have hstarts : rewrite.pieces.find? (fun piece =>
      piece.outputRange.start == utf8Len rewrite.source) = none := by
    rw [find?_eq_none]
    intro p hp
    obtain ⟨h₁, -, h₂⟩ := h.consecutive.of_mem hp
    simp [(h₁.trans_le h₂).ne]
  have hpiece : rewrite.pieceAt (utf8Len rewrite.source) true = some piece := by
    simp only [SourceRewrite.pieceAt, if_true, hinside, hstarts, hlast, Option.orElse_none]
    simp [hstop]
  simp only [SourceRewrite.originalOffset, hpiece, hskip]
  rw [if_pos ((le_utf8Len_of_isCharBoundary hboundary).trans_lt hsize)]
  rfl

theorem originalRange_eq {r : ByteRange} (hle : r.start ≤ r.stop)
    (hstart : isCharBoundary rewrite.source r.start = true)
    (hstop : isCharBoundary rewrite.source r.stop = true) :
    rewrite.originalRange r = (do
      let start ← rewrite.originalOffset r.start true
      let stop ← rewrite.originalOffset r.stop (r.start == r.stop)
      if start ≤ stop then return ⟨start, stop⟩ else throw .invalidInventory) := by
  have hle' := le_utf8Len_of_isCharBoundary hstop
  unfold SourceRewrite.originalRange
  simp only [Nat.not_le.mpr (h.utf8Len_lt hsize), Nat.not_lt.mpr hle, Nat.not_lt.mpr hle', hstart,
    hstop, not_true_eq_false, or_self, if_false]

/-- A range with a byte in it starts at the position that its first byte was copied from and ends
after the position that its last byte was copied from. -/
theorem originalRange_of_lt {r : ByteRange} (hlt : r.start < r.stop)
    (hstart : isCharBoundary rewrite.source r.start = true)
    (hstop : isCharBoundary rewrite.source r.stop = true) :
    ∃ start last, rewrite.originalRange r = .ok ⟨start, last + 1⟩ ∧ start ≤ last ∧
      (kept removed (utf8Len source))[r.start]? = some start ∧
      (kept removed (utf8Len source))[r.stop - 1]? = some last ∧
      isCharBoundary source start = true ∧ isCharBoundary source (last + 1) = true := by
  have hle := le_utf8Len_of_isCharBoundary hstop
  obtain ⟨start, hs, hstartKept, hstart'⟩ :=
    h.originalOffset_start hsize (hlt.trans_le hle) hstart
  obtain ⟨last, ht, hlastKept, hstop'⟩ :=
    h.originalOffset_stop hsize (Nat.zero_lt_of_lt hlt) hle hstop
  have horder : start ≤ last := kept_le hstartKept hlastKept (Nat.le_sub_one_of_lt hlt)
  refine ⟨start, last, ?_, horder, hstartKept, hlastKept, hstart', hstop'⟩
  rw [h.originalRange_eq hsize hlt.le hstart hstop, hs, beq_eq_false_iff_ne.mpr hlt.ne, ht]
  simp only [bind, Except.bind]
  rw [if_pos (horder.trans (Nat.le_succ _))]
  rfl

/-- An empty range is mapped to an empty range, which cuts what is kept at the same place. -/
theorem originalRange_of_eq {offset : Nat}
    (hboundary : isCharBoundary rewrite.source offset = true) :
    ∃ p, rewrite.originalRange ⟨offset, offset⟩ = .ok ⟨p, p⟩ ∧ isCharBoundary source p = true ∧
      ∀ (i q : Nat), (kept removed (utf8Len source))[i]? = some q → (q < p ↔ i < offset) := by
  have hp : ∃ p, rewrite.originalOffset offset true = .ok p ∧ isCharBoundary source p = true ∧
      ∀ (i q : Nat), (kept removed (utf8Len source))[i]? = some q → (q < p ↔ i < offset) := by
    rcases (le_utf8Len_of_isCharBoundary hboundary).eq_or_lt with rfl | hlt
    · obtain ⟨p, hrun, hp, hlast⟩ := h.originalOffset_end hsize
      refine ⟨p, hrun, hp, fun i q hq => iff_of_true (hlast q (mem_of_getElem? hq)) ?_⟩
      rw [← h.length_kept_eq]
      exact (List.getElem?_eq_some_iff.mp hq).1
    · obtain ⟨p, hrun, hkept, hp⟩ := h.originalOffset_start hsize hlt hboundary
      exact ⟨p, hrun, hp, fun i q hq => kept_lt_iff hq hkept⟩
  obtain ⟨p, hrun, hp⟩ := hp
  refine ⟨p, ?_, hp⟩
  rw [h.originalRange_eq hsize le_rfl hboundary hboundary]
  simp only [beq_self_eq_true, hrun, bind, Except.bind]
  rw [if_pos le_rfl]
  rfl

end PieceMap

/-- Two ranges of the output, the second of which is nowhere before the first, keep their order. -/
theorem PieceMap.originalRange_mono {removed : Nat → Bool} {rewrite : SourceRewrite}
    (h : PieceMap source removed (utf8Len source) rewrite.source rewrite.pieces)
    (hsize : utf8Len source < u32Size) {r r' o o' : ByteRange} (hr : r.start < r.stop)
    (hr' : r'.start < r'.stop) (hstart : isCharBoundary rewrite.source r.start = true)
    (hstop : isCharBoundary rewrite.source r.stop = true)
    (hstart' : isCharBoundary rewrite.source r'.start = true)
    (hstop' : isCharBoundary rewrite.source r'.stop = true) (ho : rewrite.originalRange r = .ok o)
    (ho' : rewrite.originalRange r' = .ok o') :
    (r.start ≤ r'.start → o.start ≤ o'.start) ∧ (r.stop ≤ r'.stop → o.stop ≤ o'.stop) ∧
      (r.stop ≤ r'.start → o.stop ≤ o'.start) := by
  obtain ⟨start, last, hrun, -, hs, hl, -⟩ := h.originalRange_of_lt hsize hr hstart hstop
  obtain ⟨start', last', hrun', -, hs', hl', -⟩ := h.originalRange_of_lt hsize hr' hstart' hstop'
  cases hrun.symm.trans ho
  cases hrun'.symm.trans ho'
  refine ⟨fun hle => kept_le hs hs' hle, fun hle => ?_, fun hle => ?_⟩
  · exact Nat.succ_le_succ (kept_le hl hl' (Nat.sub_le_sub_right hle 1))
  · exact kept_lt hl hs' (by omega)

/-- The piece map is an exact partial inverse of the deletion.  The output is the source without
the deleted bytes.  Every range of the output that lies on character boundaries is mapped to a
range of the source that does, whose bytes are those of the output range once the deleted ones are
removed; a range with a byte in it is mapped to the span from the position of its first byte to
that of its last one.  On such ranges the map is monotone in both ends, so that it keeps which
ranges are nested and which are disjoint. -/
theorem splice_originalRange {source : List Char} {deletions : List ByteRange}
    {rewrite : SourceRewrite} (h : splice source deletions = .ok rewrite) :
    utf8Bytes rewrite.source = remaining (removedBy deletions) 0 (utf8Bytes source) ∧
    (∀ r : ByteRange, r.start ≤ r.stop → isCharBoundary rewrite.source r.start = true →
      isCharBoundary rewrite.source r.stop = true →
      ∃ o, rewrite.originalRange r = .ok o ∧ o.start ≤ o.stop ∧ o.stop ≤ utf8Len source ∧
        isCharBoundary source o.start = true ∧ isCharBoundary source o.stop = true ∧
        remaining (removedBy deletions) o.start ((utf8Bytes source).extract o.start o.stop) =
          (utf8Bytes rewrite.source).extract r.start r.stop ∧
        (r.start < r.stop → (kept (removedBy deletions) (utf8Len source))[r.start]? = some o.start ∧
          ∃ last, (kept (removedBy deletions) (utf8Len source))[r.stop - 1]? = some last ∧
            o.stop = last + 1)) ∧
    ∀ r r' o o' : ByteRange, r.start < r.stop → r'.start < r'.stop →
      isCharBoundary rewrite.source r.start = true → isCharBoundary rewrite.source r.stop = true →
      isCharBoundary rewrite.source r'.start = true →
      isCharBoundary rewrite.source r'.stop = true →
      rewrite.originalRange r = .ok o → rewrite.originalRange r' = .ok o' →
      (r.start ≤ r'.start → o.start ≤ o'.start) ∧ (r.stop ≤ r'.stop → o.stop ≤ o'.stop) ∧
      (r.contains r' = true → o.contains o' = true) ∧ (r.stop ≤ r'.start → o.stop ≤ o'.start) := by
  obtain ⟨hsize, hmap⟩ := splice_ok h
  have hbytes :
      utf8Bytes rewrite.source = remaining (removedBy deletions) 0 (utf8Bytes source) := by
    rw [hmap.bytes, ← length_utf8Bytes, take_length]
  refine ⟨hbytes, fun r hle hstart hstop => ?_, ?_⟩
  · rcases hle.eq_or_lt with heq | hlt
    · obtain ⟨offset, stop⟩ := r
      obtain rfl : offset = stop := heq
      obtain ⟨p, hrun, hp, -⟩ := hmap.originalRange_of_eq hsize hstart
      refine ⟨_, hrun, le_rfl, le_utf8Len_of_isCharBoundary hp, hp, hp, ?_, fun hlt => ?_⟩
      · simp only [extract_eq_take_drop, Nat.sub_self, take_zero]
        rfl
      · exact absurd hlt (lt_irrefl _)
    · obtain ⟨start, last, hrun, hle', hs, hl, hp, hq⟩ :=
        hmap.originalRange_of_lt hsize hlt hstart hstop
      refine ⟨_, hrun, hle'.trans (Nat.le_succ _), le_utf8Len_of_isCharBoundary hq, hp, hq, ?_,
        fun _ => ⟨hs, last, hl, rfl⟩⟩
      rw [remaining_extract (hle'.trans (Nat.le_succ _))
        (by rw [length_utf8Bytes]; exact le_utf8Len_of_isCharBoundary hq), ← hbytes,
        length_kept_of_getElem? hs, length_kept_succ hl, Nat.sub_one_add_one (by omega)]
  · intro r r' o o' hr hr' hs ht hs' ht' ho ho'
    obtain ⟨hstart, hstop, hbefore⟩ := hmap.originalRange_mono hsize hr hr' hs ht hs' ht' ho ho'
    obtain ⟨-, hstop', -⟩ := hmap.originalRange_mono hsize hr' hr hs' ht' hs ht ho' ho
    refine ⟨hstart, hstop, fun hin => ?_, hbefore⟩
    simp only [ByteRange.contains, Bool.and_eq_true, decide_eq_true_eq] at hin ⊢
    exact ⟨hstart hin.1, hstop' hin.2⟩

/-- Two cuts, one of them next to a character of two bytes. -/
theorem splice_originalRange_cut :
    ∃ rewrite, splice ['a', 'X', 'é', 'Y', 'b'] [⟨1, 2⟩, ⟨4, 5⟩] = .ok rewrite ∧
      rewrite.source = ['a', 'é', 'b'] ∧ ∃ o o', rewrite.originalRange ⟨0, 3⟩ = .ok o ∧
        rewrite.originalRange ⟨3, 4⟩ = .ok o' ∧ o.stop ≤ o'.start ∧
        remaining (removedBy [⟨1, 2⟩, ⟨4, 5⟩]) o.start
            ((utf8Bytes ['a', 'X', 'é', 'Y', 'b']).extract o.start o.stop) =
          (utf8Bytes rewrite.source).extract 0 3 := by
  have hrun : ∃ rewrite, splice ['a', 'X', 'é', 'Y', 'b'] [⟨1, 2⟩, ⟨4, 5⟩] = .ok rewrite ∧
      rewrite.source = ['a', 'é', 'b'] := ⟨_, rfl, rfl⟩
  obtain ⟨rewrite, hrun, hsource⟩ := hrun
  have h₀ : isCharBoundary rewrite.source 0 = true := isCharBoundary_zero
  have h₃ : isCharBoundary rewrite.source 3 = true := by rw [hsource]; decide
  have h₄ : isCharBoundary rewrite.source 4 = true := by rw [hsource]; decide
  obtain ⟨o, ho, -, -, -, -, hbytes, -⟩ := (splice_originalRange hrun).2.1 ⟨0, 3⟩ (by decide) h₀ h₃
  obtain ⟨o', ho', -⟩ := (splice_originalRange hrun).2.1 ⟨3, 4⟩ (by decide) h₃ h₄
  have hdisjoint :=
    ((splice_originalRange hrun).2.2 ⟨0, 3⟩ ⟨3, 4⟩ o o' (by decide) (by decide) h₀ h₃
    h₃ h₄ ho ho').2.2.2 le_rfl
  exact ⟨rewrite, hrun, hsource, o, o', ho, ho', hdisjoint, hbytes⟩

/-! ## Merged deletions -/

def ByteRange.indexRange (range : ByteRange) : IndexRange := ⟨range.start, range.stop⟩

section Merge

variable {source : List Char} {deletions merged : List ByteRange} {pieceBoundaries : List Nat}

theorem mergeStep_ok {deletion : ByteRange} {merged' : List ByteRange}
    (h : mergeStep source pieceBoundaries merged deletion = .ok merged') :
    deletion.start ≤ deletion.stop ∧ merged'.map ByteRange.indexRange =
      IndexRange.push (merged.map ByteRange.indexRange) deletion.indexRange := by
  unfold mergeStep at h
  obtain ⟨_, hvalid, h⟩ := bind_ok h
  obtain ⟨hvalid, -⟩ := guard_ok hvalid
  have hle : deletion.start ≤ deletion.stop := by
    by_contra hlt
    simp [validRange, hlt] at hvalid
  refine ⟨hle, ?_⟩
  unfold IndexRange.push
  rw [getLast?_map]
  cases hlast : merged.getLast? with
  | none =>
    rw [hlast] at h
    cases h
    rw [getLast?_eq_none_iff.mp hlast]
    rfl
  | some previous =>
    simp only [hlast] at h
    simp only [Option.map_some, ByteRange.indexRange]
    split at h
    · rename_i htouch
      cases h
      refine Eq.trans ?_ (if_pos htouch).symm
      rw [map_append, map_dropLast]
      rfl
    · rename_i hgap
      cases h
      refine Eq.trans ?_ (if_neg hgap).symm
      rw [map_append]
      rfl

/-- Merging deletions in their order keeps the positions that they cover and leaves gaps between
them. -/
theorem mergeDeletions_spec (h : mergeDeletions source deletions pieceBoundaries = .ok merged)
    (hsorted : deletions.Pairwise fun a b => a.start ≤ b.start) :
    (merged.Pairwise fun a b => a.stop < b.start) ∧
      ∀ position, removedBy merged position = removedBy deletions position := by
  obtain ⟨hle, heq⟩ : (∀ r ∈ deletions, r.start ≤ r.stop) ∧ merged.map ByteRange.indexRange =
      (deletions.map ByteRange.indexRange).foldl IndexRange.push [] := by
    refine foldlM_ok (P := fun done merged => (∀ r ∈ done, r.start ≤ r.stop) ∧
      merged.map ByteRange.indexRange =
        (done.map ByteRange.indexRange).foldl IndexRange.push []) ?_ ⟨by simp, rfl⟩ h
    rintro done deletion merged merged' ⟨hle, heq⟩ hstep
    obtain ⟨hle', hpush⟩ := mergeStep_ok hstep
    refine ⟨fun r hr => ?_, ?_⟩
    · rcases mem_append.mp hr with hr | hr
      · exact hle r hr
      · rw [mem_singleton.mp hr]
        exact hle'
    · rw [hpush, heq, map_append, foldl_append]
      rfl
  have hnew : ∀ r ∈ deletions.map ByteRange.indexRange, r.start ≤ r.stop := by
    intro r hr
    obtain ⟨range, hrange, rfl⟩ := mem_map.mp hr
    exact hle range hrange
  obtain ⟨⟨-, hgaps⟩, hmem⟩ := IndexRange.foldl_push_spec hnew (pairwise_map.mpr hsorted)
  rw [← heq] at hgaps hmem
  refine ⟨pairwise_map.mp hgaps, fun position => ?_⟩
  have hremoved : ∀ ranges : List ByteRange, removedBy ranges position = true ↔
      ∃ r ∈ ranges.map ByteRange.indexRange, IndexRange.Mem position r := by
    intro ranges
    simp [removedBy, IndexRange.Mem, ByteRange.indexRange]
  rw [Bool.eq_iff_iff, hremoved, hremoved]
  exact hmem position

end Merge

end ItemDependencies
