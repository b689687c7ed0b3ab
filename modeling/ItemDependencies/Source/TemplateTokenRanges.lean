import ItemDependencies.Library.Fallible
import ItemDependencies.Library.RangeTree
import ItemDependencies.Source.Basic
import Mathlib.Order.Bounds.Basic

/-!
# Source ranges of template tokens

The tokens of a macro output come from ranges of the template, or from elsewhere.  An index over
these ranges gives the hull of consecutive tokens: two trees hold the least start and the greatest
end of each of their nodes, and the invalid tokens are counted by prefix.
-/

namespace ItemDependencies

open Library List Option

structure TemplateTokenRangeIndex where
  tokenCount : Nat
  leafCount : Nat
  invalidPrefix : List Nat
  minimumStarts : List Nat
  maximumEnds : List Nat

namespace TemplateTokenRangeIndex

def maximumStart : Nat := u32Size - 1

/-- The range, unless it is empty. -/
def validRange (range : Option ByteRange) : Option ByteRange :=
    range.filter fun range => !range.isEmpty

/-- One more token: it is counted if it is invalid, and else becomes a leaf of both trees. -/
def addToken (index : TemplateTokenRangeIndex) (entry : Option ByteRange × Nat) :
    Except SourceError TemplateTokenRangeIndex :=
  let invalid := index.invalidPrefix[entry.2]?.getD 0 + if (validRange entry.1).isNone then 1 else 0
  if u32Size ≤ invalid then .error .sourceTooLarge
  else
    match validRange entry.1 with
    | none => .ok { index with invalidPrefix := index.invalidPrefix ++ [invalid] }
    | some range =>
      .ok { index with
        invalidPrefix := index.invalidPrefix ++ [invalid]
        minimumStarts := index.minimumStarts.set (index.leafCount + entry.2) range.start
        maximumEnds := index.maximumEnds.set (index.leafCount + entry.2) range.stop }

/-- An inner node gets the least start and the greatest end of its children. -/
def joinNodes (index : TemplateTokenRangeIndex) (node : Nat) : TemplateTokenRangeIndex :=
  { index with
    minimumStarts := index.minimumStarts.set node
      (min (index.minimumStarts[node * 2]?.getD maximumStart)
        (index.minimumStarts[node * 2 + 1]?.getD maximumStart))
    maximumEnds := index.maximumEnds.set node
      (max (index.maximumEnds[node * 2]?.getD 0) (index.maximumEnds[node * 2 + 1]?.getD 0)) }

def new (ranges : List (Option ByteRange)) : Except SourceError TemplateTokenRangeIndex := do
  if u32Size ≤ ranges.length then throw .sourceTooLarge
  let leafCount := nextPowerOfTwo (max ranges.length 1)
  if u64Size ≤ leafCount * 2 then throw .sourceTooLarge
  let filled ← ranges.zipIdx.foldlM addToken
    ⟨ranges.length, leafCount, [0], List.replicate (leafCount * 2) maximumStart,
      List.replicate (leafCount * 2) 0⟩
  return (List.range' 1 (leafCount - 1)).reverse.foldl joinNodes filled

/-- The nodes that cover the range, level by level from the leaves up.  Both bounds are halved in
each round. -/
def hullLoop (index : TemplateTokenRangeIndex) : Nat → Nat → Nat → Nat → Nat → Nat × Nat
  | 0, _, _, minimumStart, maximumEnd => (minimumStart, maximumEnd)
  | rounds + 1, left, right, minimumStart, maximumEnd =>
    if left < right then
      let odd := left % 2 = 1
      let minimumStart :=
        if odd then min minimumStart (index.minimumStarts[left]?.getD maximumStart)
        else minimumStart
      let maximumEnd :=
        if odd then max maximumEnd (index.maximumEnds[left]?.getD 0) else maximumEnd
      let left := if odd then left + 1 else left
      let odd := right % 2 = 1
      let right := if odd then right - 1 else right
      let minimumStart :=
        if odd then min minimumStart (index.minimumStarts[right]?.getD maximumStart)
        else minimumStart
      let maximumEnd :=
        if odd then max maximumEnd (index.maximumEnds[right]?.getD 0) else maximumEnd
      hullLoop index rounds (left / 2) (right / 2) minimumStart maximumEnd
    else (minimumStart, maximumEnd)

def sourceRange (index : TemplateTokenRangeIndex) (start stop : Nat) : Option ByteRange :=
  if stop ≤ start ∨ index.tokenCount < stop ∨
      index.invalidPrefix[stop]? ≠ index.invalidPrefix[start]? then none
  else
    let left := index.leafCount + start
    let right := index.leafCount + stop
    let hull := index.hullLoop right left right maximumStart 0
    if hull.1 < hull.2 then some ⟨hull.1, hull.2⟩ else none

/-! ## The trees -/

/-- What an index holds of its tokens: the counts of the invalid ones, and the bounds of the others
at the leaves. -/
structure Fills (count leafCount : Nat) (ranges : List (Option ByteRange))
    (index : TemplateTokenRangeIndex) : Prop where
  tokenCount_eq : index.tokenCount = count
  leafCount_eq : index.leafCount = leafCount
  length : index.invalidPrefix.length = ranges.length + 1
  invalid : ∀ i ≤ ranges.length, index.invalidPrefix[i]? =
    some ((ranges.take i).countP fun range => (validRange range).isNone)
  lengthStarts : index.minimumStarts.length = 2 * leafCount
  lengthEnds : index.maximumEnds.length = 2 * leafCount
  starts : ∀ j, index.minimumStarts[leafCount + j]?.getD maximumStart =
    (ranges[j]?.bind validRange).elim maximumStart ByteRange.start
  ends : ∀ j, index.maximumEnds[leafCount + j]?.getD 0 =
    (ranges[j]?.bind validRange).elim 0 ByteRange.stop

variable {index : TemplateTokenRangeIndex} {ranges : List (Option ByteRange)}
  {range : Option ByteRange} {count leafCount start stop : Nat}

/-- A leaf is set to the bound of one more token. -/
theorem getElem?_setLeaf {values : List Nat} {unit : Nat} (bound : ByteRange → Nat)
    (hlength : values.length = 2 * leafCount) (hlt : ranges.length < leafCount)
    (hvalues : ∀ j, values[leafCount + j]?.getD unit =
      (ranges[j]?.bind validRange).elim unit bound) {found : ByteRange}
    (hrange : validRange range = some found) (j : Nat) :
    (values.set (leafCount + ranges.length) (bound found))[leafCount + j]?.getD unit =
      ((ranges ++ [range])[j]?.bind validRange).elim unit bound := by
  rcases lt_trichotomy j ranges.length with hj | rfl | hj
  · rw [getElem?_set_ne (by omega), getElem?_append_left hj, hvalues]
  · rw [getElem?_set_self (by omega), getElem?_concat_length, bind_some, hrange]
    rfl
  · rw [getElem?_set_ne (by omega), hvalues, getElem?_eq_none hj.le,
      getElem?_eq_none (by simpa using Nat.succ_le_of_lt hj)]

/-- An invalid token sets no leaf. -/
theorem getElem?_keepLeaf {values : List Nat} {unit : Nat} (bound : ByteRange → Nat)
    (hvalues : ∀ j, values[leafCount + j]?.getD unit = (ranges[j]?.bind validRange).elim unit bound)
    (hrange : validRange range = none) (j : Nat) : values[leafCount + j]?.getD unit =
      ((ranges ++ [range])[j]?.bind validRange).elim unit bound := by
  rw [hvalues]
  rcases lt_trichotomy j ranges.length with hj | rfl | hj
  · rw [getElem?_append_left hj]
  · rw [getElem?_concat_length, bind_some, hrange, getElem?_eq_none le_rfl]
    rfl
  · rw [getElem?_eq_none hj.le, getElem?_eq_none (by simpa using Nat.succ_le_of_lt hj)]

theorem Fills.addToken (h : Fills count leafCount ranges index) (range : Option ByteRange)
    (hlt : ranges.length < leafCount)
    (hu32 : ranges.length + 1 < u32Size) : ∃ next,
      index.addToken (range, ranges.length) = .ok next ∧
        Fills count leafCount (ranges ++ [range]) next := by
  have hcount : (ranges.countP fun range => (validRange range).isNone) ≤ ranges.length :=
    countP_le_length
  have hlast : index.invalidPrefix[ranges.length]? =
      some (ranges.countP fun range => (validRange range).isNone) := by
    rw [h.invalid _ le_rfl, take_length]
  have hinvalid : ∀ i ≤ (ranges ++ [range]).length,
      (index.invalidPrefix ++ [(ranges.countP fun range => (validRange range).isNone) +
        if (validRange range).isNone then 1 else 0])[i]? =
      some (((ranges ++ [range]).take i).countP fun range => (validRange range).isNone) := by
    intro i hi
    rw [length_append, length_singleton] at hi
    rcases hi.eq_or_lt with rfl | hi
    · rw [← h.length, getElem?_concat_length, h.length,
        take_of_length_le (by simp), countP_append, countP_singleton]
    · have hi := Nat.lt_succ_iff.mp hi
      rw [getElem?_append_left (by rw [h.length]; omega), h.invalid i hi,
        take_append_of_le_length hi]
  have hlength : (ranges ++ [range]).length + 1 = ranges.length + 1 + 1 := by simp
  unfold TemplateTokenRangeIndex.addToken
  rw [hlast, getD_some]
  dsimp only
  rw [if_neg (by split <;> omega)]
  cases hrange : validRange range with
  | none =>
    rw [hrange] at hinvalid
    refine ⟨_, rfl, h.tokenCount_eq, h.leafCount_eq, ?_, hinvalid, h.lengthStarts, h.lengthEnds,
      getElem?_keepLeaf _ h.starts hrange, getElem?_keepLeaf _ h.ends hrange⟩
    rw [hlength, ← h.length, length_append, length_singleton]
  | some found =>
    rw [hrange] at hinvalid
    refine ⟨_, rfl, h.tokenCount_eq, h.leafCount_eq, ?_, hinvalid,
      (length_set ..).trans h.lengthStarts, (length_set ..).trans h.lengthEnds, ?_, ?_⟩
    · rw [hlength, ← h.length, length_append, length_singleton]
    · rw [h.leafCount_eq]
      exact getElem?_setLeaf _ h.lengthStarts hlt h.starts hrange
    · rw [h.leafCount_eq]
      exact getElem?_setLeaf _ h.lengthEnds hlt h.ends hrange

theorem fills_nil (count leafCount : Nat) : Fills count leafCount []
    ⟨count, leafCount, [0], List.replicate (leafCount * 2) maximumStart,
      List.replicate (leafCount * 2) 0⟩ where
  tokenCount_eq := rfl
  leafCount_eq := rfl
  length := rfl
  invalid i hi := by
    cases Nat.le_zero.mp hi
    rfl
  lengthStarts := by rw [length_replicate, Nat.mul_comm]
  lengthEnds := by rw [length_replicate, Nat.mul_comm]
  starts j := by
    rw [getElem?_replicate]
    split <;> rfl
  ends j := by
    rw [getElem?_replicate]
    split <;> rfl

/-- All tokens are added. -/
theorem foldlM_addToken (hfits : ranges.length ≤ leafCount) (hu32 : ranges.length < u32Size) :
    ∃ index, ranges.zipIdx.foldlM addToken ⟨ranges.length, leafCount, [0],
      List.replicate (leafCount * 2) maximumStart, List.replicate (leafCount * 2) 0⟩ = .ok index ∧
        Fills ranges.length leafCount ranges index := by
  obtain ⟨index, hrun, hfills⟩ := foldlM_total (l := ranges.zipIdx) (f := addToken)
    (P := fun done => Fills ranges.length leafCount (done.map Prod.fst))
    (fun done entry rest index hsplit hindex => by
      have hentry : ranges.zipIdx[done.length]? = some entry := by
        rw [hsplit, getElem?_append_right le_rfl, Nat.sub_self, getElem?_cons_zero]
      have hlt : done.length < ranges.length := by
        rw [← length_zipIdx (l := ranges) (i := 0), hsplit, length_append, length_cons]
        omega
      rw [getElem?_zipIdx, getElem?_eq_getElem hlt, map_some, Nat.zero_add,
        Option.some.injEq] at hentry
      subst hentry
      have hdone : (done.map Prod.fst).length = done.length := length_map ..
      obtain ⟨next, hnext, hfills⟩ := hindex.addToken ranges[done.length] (by omega) (by omega)
      rw [hdone] at hnext
      refine ⟨next, hnext, ?_⟩
      rwa [map_append]) (fills_nil ranges.length leafCount)
  refine ⟨index, hrun, ?_⟩
  rwa [zipIdx_map_fst] at hfills

/-- Both trees are built over the leaves. -/
theorem foldl_joinNodes (nodes : List Nat) : nodes.reverse.foldl joinNodes index = { index with
    minimumStarts := nodes.foldr (storeNode min maximumStart) index.minimumStarts
    maximumEnds := nodes.foldr (storeNode max 0) index.maximumEnds } := by
  rw [foldl_reverse]
  induction nodes with
  | nil => rfl
  | cons node nodes ih =>
    rw [foldr_cons, ih, joinNodes, Nat.mul_comm node 2]
    rfl

/-- The loop over both trees is one over each of them. -/
theorem hullLoop_eq (rounds left right minimum maximum : Nat) :
    index.hullLoop rounds left right minimum maximum =
      (coverLoop min maximumStart index.minimumStarts rounds left right minimum,
        coverLoop max 0 index.maximumEnds rounds left right maximum) := by
  induction rounds generalizing left right minimum maximum with
  | zero => rfl
  | succ rounds ih =>
    rw [hullLoop, coverLoop, coverLoop]
    split
    · have hleft : (if left % 2 = 1 then left + 1 else left) / 2 = (left + 1) / 2 := by
        split <;> omega
      have hright : (if right % 2 = 1 then right - 1 else right) / 2 = right / 2 := by
        split <;> omega
      dsimp only
      rw [ih, hleft, hright]
      by_cases hodd : right % 2 = 1
      · simp only [if_pos hodd]
      · simp only [if_neg hodd]
    · rfl

/-- Too many tokens are refused, and all others get an index. -/
theorem new_ok (hu32 : ranges.length < u32Size) : ∃ index filled k, new ranges = .ok index ∧
    Fills ranges.length (2 ^ k) ranges filled ∧ ranges.length ≤ 2 ^ k ∧
    index = { filled with
      minimumStarts := buildNodes min maximumStart (2 ^ k) filled.minimumStarts
      maximumEnds := buildNodes max 0 (2 ^ k) filled.maximumEnds } := by
  obtain ⟨k, hk, hle⟩ := nextPowerOfTwo_spec (max ranges.length 1)
  have hbound := nextPowerOfTwo_le (max ranges.length 1)
  rw [hk] at hbound
  obtain ⟨filled, hrun, hfills⟩ := foldlM_addToken ((le_max_left _ _).trans hle) hu32
  refine ⟨_, filled, k, ?_, hfills, (le_max_left _ _).trans hle, foldl_joinNodes _⟩
  have hsize : ¬u64Size ≤ 2 ^ k * 2 := by
    unfold u64Size
    unfold u32Size at *
    omega
  unfold new
  dsimp only
  rw [if_neg (not_le.mpr hu32), hk, if_neg hsize, hrun]
  rfl

theorem new_error (hu32 : u32Size ≤ ranges.length) : new ranges = .error .sourceTooLarge := by
  unfold new
  rw [if_pos hu32]
  rfl

/-! ## Queries -/

/-- The token has a range, and it is not empty. -/
def IsValid (ranges : List (Option ByteRange)) (i : Nat) : Prop :=
  ∃ range, ranges[i]? = some (some range) ∧ range.isEmpty = false

/-- The hull of the tokens from one position to another, all of which are valid. -/
structure IsHull (ranges : List (Option ByteRange)) (start stop : Nat) (hull : ByteRange) :
    Prop where
  nonempty : start < stop
  within : stop ≤ ranges.length
  valid : ∀ i, start ≤ i → i < stop → IsValid ranges i
  least : IsLeast {bound | ∃ i range, start ≤ i ∧ i < stop ∧ ranges[i]? = some (some range) ∧
    range.start = bound} hull.start
  greatest : IsGreatest {bound | ∃ i range, start ≤ i ∧ i < stop ∧ ranges[i]? = some (some range) ∧
    range.stop = bound} hull.stop

theorem isNone_validRange_iff : (validRange range).isNone = false ↔
    ∃ found, range = some found ∧ found.isEmpty = false := by
  unfold validRange
  cases range with
  | none => simp
  | some found => cases hempty : found.isEmpty <;> simp [Option.filter, hempty]

/-- Two prefixes have equally many invalid tokens if there is none between them. -/
theorem countP_take_eq_iff (hle : start ≤ stop) (hstop : stop ≤ ranges.length) :
    ((ranges.take stop).countP fun range => (validRange range).isNone) =
        (ranges.take start).countP (fun range => (validRange range).isNone) ↔
      ∀ i, start ≤ i → i < stop → IsValid ranges i := by
  have hsplit := (take_append_drop start (ranges.take stop)).symm
  rw [take_take, min_eq_left hle] at hsplit
  rw [hsplit, countP_append, Nat.add_eq_left, countP_eq_zero]
  have hmem : ∀ range, range ∈ (ranges.take stop).drop start ↔
      ∃ i, start ≤ i ∧ i < stop ∧ ranges[i]? = some range := by
    intro range
    rw [mem_iff_getElem?]
    constructor
    · rintro ⟨i, hi⟩
      rw [getElem?_drop, getElem?_take] at hi
      split at hi
      · exact ⟨start + i, Nat.le_add_right _ _, ‹_›, hi⟩
      · cases hi
    · rintro ⟨i, hi, hlt, hget⟩
      refine ⟨i - start, ?_⟩
      rw [getElem?_drop, getElem?_take, Nat.add_sub_cancel' hi, if_pos hlt, hget]
  constructor
  · intro h i hi hlt
    have hget := getElem?_eq_getElem (hlt.trans_le hstop)
    have hvalid := h _ ((hmem _).mpr ⟨i, hi, hlt, hget⟩)
    obtain ⟨found, hfound, hempty⟩ := isNone_validRange_iff.mp (Bool.eq_false_iff.mpr hvalid)
    exact ⟨found, hget.trans (congrArg some hfound), hempty⟩
  · intro h range hrange
    obtain ⟨i, hi, hlt, hget⟩ := (hmem range).mp hrange
    obtain ⟨found, hfound, hempty⟩ := h i hi hlt
    cases hget.symm.trans hfound
    exact Bool.eq_false_iff.mp (isNone_validRange_iff.mpr ⟨found, rfl, hempty⟩)

theorem isLeast_of_le_iff {bounds : Set Nat} {least : Nat}
    (h : ∀ x, least ≤ x ↔ ∃ bound ∈ bounds, bound ≤ x) : IsLeast bounds least := by
  obtain ⟨bound, hbound, hle⟩ := (h least).mp le_rfl
  have heq : least = bound := le_antisymm ((h bound).mpr ⟨bound, hbound, le_rfl⟩) hle
  exact ⟨heq ▸ hbound, fun other hother => (h other).mpr ⟨other, hother, le_rfl⟩⟩

theorem isGreatest_of_le_iff {bounds : Set Nat} {greatest : Nat}
    (h : ∀ x, x ≤ greatest ↔ ∃ bound ∈ bounds, x ≤ bound) : IsGreatest bounds greatest := by
  obtain ⟨bound, hbound, hle⟩ := (h greatest).mp le_rfl
  have heq : greatest = bound := le_antisymm hle ((h bound).mpr ⟨bound, hbound, le_rfl⟩)
  exact ⟨heq ▸ hbound, fun other hother => (h other).mpr ⟨other, hother, le_rfl⟩⟩

/-- The loop finds the hull of valid tokens. -/
theorem Fills.isHull_hullLoop {k : Nat} (h : Fills ranges.length (2 ^ k) ranges index)
    (hfits : ranges.length ≤ 2 ^ k)
    (hu32 : ∀ range, some range ∈ ranges → range.start < u32Size ∧ range.stop < u32Size)
    (hlt : start < stop) (hstop : stop ≤ ranges.length)
    (hvalid : ∀ i, start ≤ i → i < stop → IsValid ranges i) : IsHull ranges start stop
      ⟨coverLoop min maximumStart (buildNodes min maximumStart (2 ^ k) index.minimumStarts)
          (stop + 2 ^ k) (start + 2 ^ k) (stop + 2 ^ k) maximumStart,
        coverLoop max 0 (buildNodes max 0 (2 ^ k) index.maximumEnds)
          (stop + 2 ^ k) (start + 2 ^ k) (stop + 2 ^ k) 0⟩ := by
  have hleaf : ∀ i, start ≤ i → i < stop → ∃ range, ranges[i]? = some (some range) ∧
      index.minimumStarts[2 ^ k + i]?.getD maximumStart = range.start ∧
      index.maximumEnds[2 ^ k + i]?.getD 0 = range.stop := by
    intro i hi hi'
    obtain ⟨range, hget, hempty⟩ := hvalid i hi hi'
    have hrange : ranges[i]?.bind validRange = some range := by
      rw [hget, bind_some, validRange, filter_some, if_pos (by simp [hempty])]
    refine ⟨range, hget, ?_, ?_⟩
    · rw [h.starts, hrange]
      rfl
    · rw [h.ends, hrange]
      rfl
  refine ⟨hlt, hstop, hvalid, isLeast_of_le_iff fun x => ?_, isGreatest_of_le_iff fun x => ?_⟩
  · refine (holds_coverLoop_buildNodes (P := fun a x => a ≤ x)
      (fun a b x => min_le_iff) h.lengthStarts
      start (hstop.trans hfits) le_rfl maximumStart x).trans ?_
    constructor
    · rintro (hle | ⟨i, hi, hi', hle⟩)
      · obtain ⟨range, hget, -⟩ := hleaf start le_rfl hlt
        have hbound := (hu32 range (mem_of_getElem? hget)).1
        exact ⟨range.start, ⟨start, range, le_rfl, hlt, hget, rfl⟩,
          (Nat.le_sub_one_of_lt hbound).trans hle⟩
      · obtain ⟨range, hget, hstart, -⟩ := hleaf i hi hi'
        exact ⟨range.start, ⟨i, range, hi, hi', hget, rfl⟩, hstart ▸ hle⟩
    · rintro ⟨bound, ⟨i, range, hi, hi', hget, rfl⟩, hle⟩
      obtain ⟨range', hget', hstart, -⟩ := hleaf i hi hi'
      cases hget.symm.trans hget'
      exact .inr ⟨i, hi, hi', hstart.symm ▸ hle⟩
  · refine (holds_coverLoop_buildNodes (P := fun a x => x ≤ a)
      (fun a b x => le_max_iff) h.lengthEnds
      start (hstop.trans hfits) le_rfl 0 x).trans ?_
    constructor
    · rintro (hle | ⟨i, hi, hi', hle⟩)
      · obtain ⟨range, hget, -⟩ := hleaf start le_rfl hlt
        exact ⟨range.stop, ⟨start, range, le_rfl, hlt, hget, rfl⟩, hle.trans (Nat.zero_le _)⟩
      · obtain ⟨range, hget, -, hstop⟩ := hleaf i hi hi'
        exact ⟨range.stop, ⟨i, range, hi, hi', hget, rfl⟩, hstop ▸ hle⟩
    · rintro ⟨bound, ⟨i, range, hi, hi', hget, rfl⟩, hle⟩
      obtain ⟨range', hget', -, hstop⟩ := hleaf i hi hi'
      cases hget.symm.trans hget'
      exact .inr ⟨i, hi, hi', hstop.symm ▸ hle⟩

theorem IsHull.unique {hull hull' : ByteRange} (h : IsHull ranges start stop hull)
    (h' : IsHull ranges start stop hull') : hull = hull' :=
  ByteRange.eq_of_bounds (h.least.unique h'.least) (h.greatest.unique h'.greatest)

/-- The hull of ranges that do not end before they start does not either. -/
theorem IsHull.lt {hull : ByteRange} (h : IsHull ranges start stop hull)
    (hranges : ∀ range, some range ∈ ranges → range.start ≤ range.stop) :
    hull.start < hull.stop := by
  obtain ⟨range, hget, hempty⟩ := h.valid start le_rfl h.nonempty
  have hle := h.least.2 ⟨start, range, le_rfl, h.nonempty, hget, rfl⟩
  have hle' := h.greatest.2 ⟨start, range, le_rfl, h.nonempty, hget, rfl⟩
  have hne : range.start ≠ range.stop := by simpa [ByteRange.isEmpty] using hempty
  have hlt := (hranges range (mem_of_getElem? hget)).lt_of_ne hne
  exact hle.trans_lt (hlt.trans_le hle')

/-- A query within the tokens finds equal counts of invalid tokens if all of its tokens are
valid. -/
theorem Fills.invalidPrefix_eq_iff (h : Fills count leafCount ranges index) (hle : start ≤ stop)
    (hstop : stop ≤ ranges.length) : index.invalidPrefix[stop]? = index.invalidPrefix[start]? ↔
      ∀ i, start ≤ i → i < stop → IsValid ranges i := by
  rw [h.invalid stop hstop, h.invalid start (hle.trans hstop), Option.some.injEq]
  exact countP_take_eq_iff hle hstop

/-- A query is answered with the hull of valid tokens, unless it ends before it starts. -/
theorem exists_sourceRange_iff (hu32 : ranges.length < u32Size)
    (hbounds : ∀ range, some range ∈ ranges → range.start < u32Size ∧ range.stop < u32Size) :
    ∃ index, new ranges = .ok index ∧ ∀ start stop hull,
      index.sourceRange start stop = some hull ↔
        IsHull ranges start stop hull ∧ hull.start < hull.stop := by
  obtain ⟨index, filled, k, hnew, hfills, hfits, rfl⟩ := new_ok hu32
  refine ⟨_, hnew, fun start stop hull => ?_⟩
  by_cases hquery : start < stop ∧ stop ≤ ranges.length ∧
      ∀ i, start ≤ i → i < stop → IsValid ranges i
  · obtain ⟨hlt, hstop, hvalid⟩ := hquery
    have hhull := hfills.isHull_hullLoop hfits hbounds hlt hstop hvalid
    have hprefix := (hfills.invalidPrefix_eq_iff hlt.le hstop).mpr hvalid
    have hguard : ¬(stop ≤ start ∨ filled.tokenCount < stop ∨
        filled.invalidPrefix[stop]? ≠ filled.invalidPrefix[start]?) := by
      rw [hfills.tokenCount_eq]
      rintro (hle | hlt' | hne)
      · exact absurd hlt (not_lt.mpr hle)
      · exact absurd hstop (not_le.mpr hlt')
      · exact hne hprefix
    rw [sourceRange, if_neg hguard]
    dsimp only
    rw [hullLoop_eq, hfills.leafCount_eq, Nat.add_comm (2 ^ k) stop, Nat.add_comm (2 ^ k) start]
    split
    · rename_i hbelow
      rw [Option.some.injEq]
      constructor
      · rintro rfl
        exact ⟨hhull, hbelow⟩
      · exact fun h => hhull.unique h.1
    · rename_i hbelow
      refine iff_of_false (fun h => (by cases h)) fun ⟨h, hlt'⟩ => hbelow ?_
      rwa [h.unique hhull] at hlt'
  · have hguard : stop ≤ start ∨ filled.tokenCount < stop ∨
        filled.invalidPrefix[stop]? ≠ filled.invalidPrefix[start]? := by
      rw [hfills.tokenCount_eq]
      by_contra hno
      push Not at hno
      obtain ⟨hlt, hstop, hprefix⟩ := hno
      exact hquery ⟨hlt, hstop, (hfills.invalidPrefix_eq_iff hlt.le hstop).mp hprefix⟩
    rw [sourceRange, if_pos hguard]
    exact iff_of_false (fun h => (by cases h)) fun ⟨h, _⟩ => hquery ⟨h.nonempty, h.within, h.valid⟩

/-- Every query of valid tokens has a hull. -/
theorem exists_isHull (hu32 : ranges.length < u32Size)
    (hbounds : ∀ range, some range ∈ ranges → range.start < u32Size ∧ range.stop < u32Size)
    (hlt : start < stop) (hstop : stop ≤ ranges.length)
    (hvalid : ∀ i, start ≤ i → i < stop → IsValid ranges i) :
    ∃ hull, IsHull ranges start stop hull := by
  obtain ⟨_, _, k, -, hfills, hfits, -⟩ := new_ok hu32
  exact ⟨_, hfills.isHull_hullLoop hfits hbounds hlt hstop hvalid⟩

/-- The index answers as a scan of the tokens does, except that a hull that ends before it starts is
no answer.  There is none among ranges that end after they start. -/
theorem sourceRange_eq_scan (ranges : List (Option ByteRange))
    (hbounds : ∀ range, some range ∈ ranges → range.start < u32Size ∧ range.stop < u32Size) :
    (u32Size ≤ ranges.length → new ranges = .error .sourceTooLarge) ∧
    (ranges.length < u32Size → ∃ index, new ranges = .ok index ∧ ∀ start stop,
      (index.sourceRange start stop = none ↔ stop ≤ start ∨ ranges.length < stop ∨
        (∃ i, start ≤ i ∧ i < stop ∧ (ranges[i]? = some none ∨
          ∃ range, ranges[i]? = some (some range) ∧ range.isEmpty = true)) ∨
        ∃ hull, IsHull ranges start stop hull ∧ hull.stop ≤ hull.start) ∧
      ∀ hull, index.sourceRange start stop = some hull ↔
        IsHull ranges start stop hull ∧ hull.start < hull.stop) ∧
    ((∀ range, some range ∈ ranges → range.start ≤ range.stop) →
      ∀ start stop hull, IsHull ranges start stop hull → hull.start < hull.stop) := by
  refine ⟨new_error, fun hu32 => ?_, fun hranges start stop hull h => h.lt hranges⟩
  obtain ⟨index, hnew, hsome⟩ := exists_sourceRange_iff hu32 hbounds
  refine ⟨index, hnew, fun start stop => ⟨?_, hsome start stop⟩⟩
  rw [eq_none_iff_forall_ne_some]
  constructor
  · intro hnone
    by_contra hno
    push Not at hno
    obtain ⟨hlt, hstop, hvalid, hbelow⟩ := hno
    have hall : ∀ i, start ≤ i → i < stop → IsValid ranges i := by
      intro i hi hi'
      obtain ⟨hpresent, hnonempty⟩ := hvalid i hi hi'
      obtain ⟨range, hget⟩ : ∃ range, ranges[i]? = some range :=
        ⟨_, getElem?_eq_getElem (hi'.trans_le hstop)⟩
      cases range with
      | none => exact absurd hget hpresent
      | some range => exact ⟨range, hget, Bool.eq_false_iff.mpr (hnonempty range hget)⟩
    obtain ⟨hull, hhull⟩ := exists_isHull hu32 hbounds hlt hstop hall
    exact hnone hull ((hsome start stop hull).mpr ⟨hhull, hbelow hull hhull⟩)
  · intro hbad hull hanswer
    obtain ⟨hhull, hbelow⟩ := (hsome start stop hull).mp hanswer
    rcases hbad with hle | hlt | ⟨i, hi, hi', hinvalid⟩ | ⟨hull', hhull', hle⟩
    · exact absurd hhull.nonempty (not_lt.mpr hle)
    · exact absurd hhull.within (not_le.mpr hlt)
    · obtain ⟨range, hget, hempty⟩ := hhull.valid i hi hi'
      rcases hinvalid with hnone | ⟨range', hget', hempty'⟩
      · cases hnone.symm.trans hget
      · cases hget.symm.trans hget'
        cases hempty.symm.trans hempty'
    · cases hhull.unique hhull'
      exact absurd hbelow (not_lt.mpr hle)

theorem sourceRange_eq_scan_two : ∃ index,
    new [some ⟨10, 11⟩, some ⟨20, 22⟩] = .ok index ∧ index.sourceRange 0 2 = some ⟨10, 22⟩ ∧
      ∀ start stop hull, index.sourceRange start stop = some hull ↔
        IsHull [some ⟨10, 11⟩, some ⟨20, 22⟩] start stop hull ∧ hull.start < hull.stop := by
  obtain ⟨index, hnew, hall⟩ := (sourceRange_eq_scan [some ⟨10, 11⟩, some ⟨20, 22⟩]
    (by simp [u32Size])).2.1 (by decide)
  refine ⟨index, hnew, ?_, fun start stop => (hall start stop).2⟩
  cases hnew
  rfl

/-- A range that ends before it starts is neither missing nor empty, and has no answer. -/
theorem sourceRange_backwards : ∃ index, new [some ⟨3, 1⟩] = .ok index ∧
    index.sourceRange 0 1 = none ∧ ¬(1 ≤ 0 ∨ [some (⟨3, 1⟩ : ByteRange)].length < 1 ∨
      ∃ i, 0 ≤ i ∧ i < 1 ∧ ([some (⟨3, 1⟩ : ByteRange)][i]? = some none ∨
        ∃ range, [some (⟨3, 1⟩ : ByteRange)][i]? = some (some range) ∧ range.isEmpty = true)) := by
  refine ⟨_, rfl, rfl, ?_⟩
  rintro (h | h | ⟨i, -, hi, h | ⟨range, h, hempty⟩⟩)
  · exact absurd h (by decide)
  · exact absurd h (by decide)
  · cases Nat.lt_one_iff.mp hi
    cases h
  · cases Nat.lt_one_iff.mp hi
    cases h
    cases hempty

end TemplateTokenRangeIndex

end ItemDependencies
