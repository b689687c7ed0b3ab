import ItemDependencies.Library.Ascending
import ItemDependencies.Library.Grouping
import ItemDependencies.Library.Laminar
import Mathlib.Data.Prod.Lex

/-!
# The output ledger of a macro

A macro's output is a sequence of tokens.  The compiler reports which of its
ranges became products and which were discarded.  The ledger accepts such a
report if the products are nested or apart, and nothing is discarded but parts
of products and what lies outside of them.
-/

namespace ItemDependencies

open Library List

/-- One half-open range of output tokens. -/
structure MacroOutputRange where
  start : Nat
  stop : Nat

namespace MacroOutputRange

instance : LinearOrder MacroOutputRange :=
  LinearOrder.lift' (fun r => toLex (r.start, r.stop)) fun a b h => by
    cases a
    cases b
    simpa using h

def len (r : MacroOutputRange) : Nat := r.stop - r.start

def contains (r other : MacroOutputRange) : Bool := r.start ≤ other.start && other.stop ≤ r.stop

/-- A token of a range. -/
def Covers (range : MacroOutputRange) (token : Nat) : Prop :=
  range.start ≤ token ∧ token < range.stop

/-- The order of the sweep over nested ranges. -/
abbrev OuterFirst : MacroOutputRange → MacroOutputRange → Prop :=
  Library.OuterFirst start stop

end MacroOutputRange

structure ValidatedMacroOutputLedger where
  outputTokenCount : Nat
  liveOutputs : List MacroOutputRange
  discardedOutputs : List MacroOutputRange
deriving DecidableEq

/-- Whether the ranges are nested or apart.  Once they are sorted, equal ranges are adjacent, and
all but one of them are dropped. -/
def laminarOutputRanges (ranges : List MacroOutputRange) : Bool :=
  if ranges.any fun range => range.stop ≤ range.start then false
  else stackNests MacroOutputRange.start MacroOutputRange.stop []
    (ranges.dedup.insertionSort MacroOutputRange.OuterFirst)

/-- Put the discarded ranges in order, unless two of them overlap. -/
def normalizeDiscardedOutputRanges (discarded : List MacroOutputRange) (outputTokenCount : Nat) :
    Option (List MacroOutputRange) :=
  (discarded.insertionSort (· ≤ ·)).foldlM (fun normalized output =>
    if output.stop ≤ output.start ∨ outputTokenCount < output.stop then none
    else if normalized.getLast?.any fun previous => output.start < previous.stop then none
    else some (normalized ++ [output])) []

/-- Join a range to the last one if they touch. -/
def joinContiguous (contiguous : List MacroOutputRange) (range : MacroOutputRange) :
    List MacroOutputRange :=
  match contiguous.getLast? with
  | some previous =>
    if previous.stop = range.start then contiguous.dropLast ++ [⟨previous.start, range.stop⟩]
    else contiguous ++ [range]
  | none => [range]

/-- Whether one live range survives the discarded ones, none of which it meets in part only. -/
def discardedOutputsFitLive (discarded contiguous : List MacroOutputRange)
    (outputTokenCount : Nat) (live : MacroOutputRange) : Bool :=
  if live.stop ≤ live.start ∨ outputTokenCount < live.stop then false
  else
    let first := (discarded.takeWhile fun range => range.stop ≤ live.start).length
    let stop := (discarded.takeWhile fun range => range.start < live.stop).length
    if first = stop then true
    else
      let containingUnion := (contiguous.takeWhile fun range => range.start ≤ live.start).length
      let fullyDiscarded := 0 < containingUnion ∧
        (contiguous[containingUnion - 1]?).any (·.contains live) = true
      (discarded[first]?).any (live.contains ·) && (discarded[stop - 1]?).any (live.contains ·) &&
        !decide fullyDiscarded

def discardedOutputsFitLiveProducts (discarded : List MacroOutputRange) (outputTokenCount : Nat)
    (live : List MacroOutputRange) : Bool :=
  if (discarded.any fun range => range.stop ≤ range.start || outputTokenCount < range.stop) ||
      (neighbours discarded).any fun pair => pair.2.start < pair.1.stop then false
  else
    -- adjacent discarded ranges can cover a live range together
    let contiguous := discarded.foldl joinContiguous []
    live.all (discardedOutputsFitLive discarded contiguous outputTokenCount)

namespace ValidatedMacroOutputLedger

def new (outputTokenCount : Nat) (liveOutputs discardedOutputs : List MacroOutputRange) :
    Option ValidatedMacroOutputLedger :=
  let liveOutputs := sortDedup liveOutputs
  if !laminarOutputRanges liveOutputs then none
  else
    (normalizeDiscardedOutputRanges discardedOutputs outputTokenCount).bind fun discardedOutputs =>
      if !discardedOutputsFitLiveProducts discardedOutputs outputTokenCount liveOutputs then none
      else some ⟨outputTokenCount, liveOutputs, discardedOutputs⟩

def containsLiveOutput (ledger : ValidatedMacroOutputLedger) (output : MacroOutputRange) : Bool :=
  ledger.liveOutputs.contains output

end ValidatedMacroOutputLedger

/-! ## Well-formed ledgers -/

/-- What a report on the output of a macro has to satisfy. -/
structure OutputLedgerWellFormed (outputTokenCount : Nat)
    (live discarded : List MacroOutputRange) : Prop where
  live_range : ∀ range ∈ live, range.start < range.stop ∧ range.stop ≤ outputTokenCount
  discarded_range : ∀ range ∈ discarded, range.start < range.stop ∧ range.stop ≤ outputTokenCount
  laminar : ∀ a ∈ live, ∀ b ∈ live, Laminar MacroOutputRange.start MacroOutputRange.stop a b
  apart : discarded.Pairwise (Apart MacroOutputRange.start MacroOutputRange.stop)
  fits : ∀ d ∈ discarded, ∀ a ∈ live,
    Apart MacroOutputRange.start MacroOutputRange.stop d a ∨
      Encloses MacroOutputRange.start MacroOutputRange.stop a d
  survives : ∀ a ∈ live, ∃ token, a.Covers token ∧ ∀ d ∈ discarded, ¬d.Covers token

namespace MacroOutputRange

theorem contains_iff {a b : MacroOutputRange} :
    a.contains b = true ↔ Encloses MacroOutputRange.start MacroOutputRange.stop a b := by
  simp [contains, Encloses]

end MacroOutputRange

section

variable {ranges discarded live : List MacroOutputRange} {count : Nat} {a : MacroOutputRange}
  {runs : List MacroOutputRange}

theorem laminarOutputRanges_iff : laminarOutputRanges ranges = true ↔
    (∀ r ∈ ranges, r.start < r.stop) ∧
      ∀ a ∈ ranges, ∀ b ∈ ranges, Laminar MacroOutputRange.start MacroOutputRange.stop a b := by
  rw [laminarOutputRanges]
  by_cases hempty : (ranges.any fun range => range.stop ≤ range.start) = true
  · rw [if_pos hempty]
    obtain ⟨r, hr, hle⟩ := any_eq_true.mp hempty
    simp only [Bool.false_eq_true, false_iff, not_and]
    intro hne
    exact absurd (hne r hr) (by simpa using hle)
  · have hne : ∀ r ∈ ranges, r.start < r.stop := by simpa using hempty
    rw [if_neg hempty, and_iff_right hne,
      stackNests_insertionSort fun r hr => hne r (mem_dedup.mp hr)]
    constructor
    · intro h a ha b hb
      have hrefl : ∀ r ∈ ranges.dedup, Laminar MacroOutputRange.start MacroOutputRange.stop r r :=
        fun _ _ => .inr (.inl ⟨le_rfl, le_rfl⟩)
      exact List.Pairwise.forall_of_forall hrefl h (mem_dedup.mpr ha) (mem_dedup.mpr hb)
    · intro h
      exact pairwise_of_forall_mem_list fun a ha b hb =>
        h a (mem_dedup.mp ha) b (mem_dedup.mp hb)

/-! ## Discarded ranges -/

/-- Discarded ranges that are in order and do not overlap. -/
structure DiscardedInOrder (discarded : List MacroOutputRange) (count : Nat) : Prop where
  range : ∀ r ∈ discarded, r.start < r.stop ∧ r.stop ≤ count
  inOrder : discarded.Pairwise fun a b => a.stop ≤ b.start

theorem foldlM_normalized {sorted normalized : List MacroOutputRange} :
    sorted.foldlM (fun normalized output =>
      if output.stop ≤ output.start ∨ count < output.stop then none
      else if normalized.getLast?.any fun previous => output.start < previous.stop then none
      else some (normalized ++ [output])) [] = some normalized ↔
    normalized = sorted ∧ (∀ r ∈ sorted, r.start < r.stop ∧ r.stop ≤ count) ∧
      sorted.IsChain fun a b => a.stop ≤ b.start := by
  induction sorted using List.reverseRecOn generalizing normalized with
  | nil =>
    rw [foldlM_nil]
    constructor
    · rintro ⟨⟩
      exact ⟨rfl, by simp, .nil⟩
    · rintro ⟨rfl, -, -⟩
      rfl
  | append_singleton sorted output ih =>
    rw [foldlM_append, Option.bind_eq_bind, Option.bind_eq_some_iff]
    have hlast : (∀ x ∈ sorted.getLast?, x.stop ≤ output.start) ↔
        ¬(sorted.getLast?.any fun previous => output.start < previous.stop) = true := by
      cases sorted.getLast? <;> simp
    rw [isChain_append, forall_mem_append]
    simp only [ih, foldlM_cons, foldlM_nil, forall_mem_singleton,
      List.IsChain.singleton, true_and, head?_cons, Option.mem_some_iff, forall_eq', hlast]
    constructor
    · rintro ⟨_, ⟨rfl, hrange, hchain⟩, h⟩
      split at h
      · cases h
      · split at h
        · cases h
        · cases h
          exact ⟨rfl, ⟨hrange, by omega⟩, hchain, ‹_›⟩
    · rintro ⟨rfl, ⟨hrange, houtput⟩, hchain, hapart⟩
      refine ⟨sorted, ⟨rfl, hrange, hchain⟩, ?_⟩
      rw [if_neg (by omega), if_neg hapart]
      rfl

/-- Ranges are apart exactly if they follow one another once they are sorted. -/
theorem discardedInOrder_insertionSort :
    DiscardedInOrder (discarded.insertionSort (· ≤ ·)) count ↔
      (∀ d ∈ discarded, d.start < d.stop ∧ d.stop ≤ count) ∧
        discarded.Pairwise (Apart MacroOutputRange.start MacroOutputRange.stop) := by
  have hmem : ∀ d, d ∈ discarded.insertionSort (· ≤ ·) ↔ d ∈ discarded :=
    fun d => mem_insertionSort _
  have hstarts : (discarded.insertionSort (· ≤ ·)).Pairwise fun a b => a.start ≤ b.start :=
    (pairwise_insertionSort (· ≤ ·) discarded).imp fun {a b} h => by
      rcases Prod.Lex.toLex_le_toLex.mp h with h | h
      · exact h.le
      · exact h.1.le
  rw [← (perm_insertionSort (· ≤ ·) discarded).pairwise_iff Apart.symm]
  constructor
  · rintro ⟨hrange, hinOrder⟩
    refine ⟨fun d hd => hrange d ((hmem d).mpr hd), ?_⟩
    exact (pairwise_apart_iff (fun d hd => (hrange d hd).1) hstarts).mpr hinOrder
  · rintro ⟨hrange, hapart⟩
    have hrange : ∀ d ∈ discarded.insertionSort (· ≤ ·), d.start < d.stop ∧ d.stop ≤ count :=
      fun d hd => hrange d ((hmem d).mp hd)
    exact ⟨hrange, (pairwise_apart_iff (fun d hd => (hrange d hd).1) hstarts).mp hapart⟩

theorem normalizeDiscardedOutputRanges_eq_some {normalized : List MacroOutputRange} :
    normalizeDiscardedOutputRanges discarded count = some normalized ↔
      normalized = discarded.insertionSort (· ≤ ·) ∧ DiscardedInOrder normalized count := by
  rw [normalizeDiscardedOutputRanges, foldlM_normalized]
  apply and_congr_right
  rintro rfl
  constructor
  · rintro ⟨hrange, hchain⟩
    exact ⟨hrange, (isChain_iff_pairwise_apart fun r hr => (hrange r hr).1).mp hchain⟩
  · rintro ⟨hrange, hinOrder⟩
    exact ⟨hrange, hinOrder.isChain⟩

/-! ## Contiguous runs -/

/-- What joining contiguous ranges leaves: runs with gaps between them, and the same tokens. -/
structure JoinedRuns (discarded runs : List MacroOutputRange) : Prop where
  nonempty : ∀ run ∈ runs, run.start < run.stop
  gaps : runs.Pairwise fun a b => a.stop < b.start
  stops : ∀ run ∈ runs, ∃ d ∈ discarded, d.stop = run.stop
  tokens : ∀ token, (∃ run ∈ runs, run.Covers token) ↔ ∃ d ∈ discarded, d.Covers token

theorem joinedRuns_foldl (hne : ∀ d ∈ discarded, d.start < d.stop)
    (h : discarded.Pairwise fun a b => a.stop ≤ b.start) :
    JoinedRuns discarded (discarded.foldl joinContiguous []) := by
  induction discarded using List.reverseRecOn with
  | nil => exact ⟨by simp, .nil, by simp, by simp⟩
  | append_singleton discarded d ih =>
    rw [foldl_append]
    show JoinedRuns _ (joinContiguous _ d)
    have hd : d.start < d.stop := hne d (by simp)
    obtain ⟨hpair, -, hbefore⟩ := pairwise_append.mp h
    have ih := ih (fun x hx => hne x (by simp [hx])) hpair
    generalize discarded.foldl joinContiguous [] = runs at ih
    have htokens : ∀ token, (∃ x ∈ discarded ++ [d], x.Covers token) ↔
        (∃ run ∈ runs, run.Covers token) ∨ d.Covers token := fun token => by
      rw [ih.tokens token]
      simp [or_and_right, exists_or]
    rw [joinContiguous]
    cases hlast : runs.getLast? with
    | none =>
      obtain rfl := getLast?_eq_none_iff.mp hlast
      refine ⟨by simpa using hd, by simp, by simp, fun token => ?_⟩
      rw [htokens]
      simp
    | some previous =>
      obtain ⟨before, rfl⟩ := getLast?_eq_some_iff.mp hlast
      obtain ⟨hgaps, -, hbefore'⟩ := pairwise_append.mp ih.gaps
      have hprevious := ih.nonempty previous (by simp)
      have hle : previous.stop ≤ d.start := by
        obtain ⟨x, hx, hstop⟩ := ih.stops previous (by simp)
        rw [← hstop]
        exact hbefore x hx d (by simp)
      have hgap : ∀ run ∈ before, run.stop < previous.start := fun run hrun =>
        hbefore' run hrun previous (by simp)
      dsimp only
      split
      case isTrue htouch =>
        rw [dropLast_concat]
        refine ⟨?_, ?_, ?_, fun token => ?_⟩
        · intro run hrun
          rcases mem_append.mp hrun with hrun | hrun
          · exact ih.nonempty run (by simp [hrun])
          · obtain rfl := mem_singleton.mp hrun
            show previous.start < d.stop
            omega
        · refine pairwise_append.mpr ⟨hgaps, by simp, fun run hrun last hmem => ?_⟩
          obtain rfl := mem_singleton.mp hmem
          exact hgap run hrun
        · intro run hrun
          rcases mem_append.mp hrun with hrun | hrun
          · obtain ⟨x, hx, hstop⟩ := ih.stops run (by simp [hrun])
            exact ⟨x, by simp [hx], hstop⟩
          · obtain rfl := mem_singleton.mp hrun
            exact ⟨d, by simp, rfl⟩
        · have hjoin : MacroOutputRange.Covers ⟨previous.start, d.stop⟩ token ↔
              previous.Covers token ∨ d.Covers token := by
            simp only [MacroOutputRange.Covers]
            omega
          rw [htokens]
          simp only [mem_append, mem_singleton, or_and_right, exists_or,
            exists_eq_left, hjoin, or_assoc]
      case isFalse htouch =>
        refine ⟨?_, ?_, ?_, fun token => ?_⟩
        · intro run hrun
          rcases mem_append.mp hrun with hrun | hrun
          · exact ih.nonempty run hrun
          · rwa [mem_singleton.mp hrun]
        · refine pairwise_append.mpr ⟨ih.gaps, by simp, fun run hrun last hmem => ?_⟩
          rw [mem_singleton.mp hmem]
          rcases mem_append.mp hrun with hrun | hrun
          · have := hgap run hrun
            omega
          · rw [mem_singleton.mp hrun]
            omega
        · intro run hrun
          rcases mem_append.mp hrun with hrun | hrun
          · obtain ⟨x, hx, hstop⟩ := ih.stops run hrun
            exact ⟨x, by simp [hx], hstop⟩
          · exact ⟨d, by simp, by rw [mem_singleton.mp hrun]⟩
        · rw [htokens]
          simp [or_and_right, exists_or, or_assoc]

/-- A range loses all of its tokens exactly if one run contains it. -/
theorem JoinedRuns.covered_iff (h : JoinedRuns discarded runs) (ha : a.start < a.stop) :
    (∀ token, a.Covers token → ∃ d ∈ discarded, d.Covers token) ↔
      ∃ run ∈ runs, Encloses MacroOutputRange.start MacroOutputRange.stop run a := by
  constructor
  · intro hcovered
    obtain ⟨run, hrun, hstart⟩ := (h.tokens a.start).mpr (hcovered a.start ⟨le_rfl, ha⟩)
    refine ⟨run, hrun, hstart.1, ?_⟩
    by_contra hlt
    -- the position where the run stops is lost as well, but two runs never touch
    obtain ⟨other, hother, hcovers⟩ := (h.tokens run.stop).mpr
      (hcovered run.stop ⟨hstart.2.le, by omega⟩)
    have hne : run ≠ other := by
      rintro rfl
      exact absurd hcovers.2 (lt_irrefl _)
    have hdisjoint : run.stop < other.start ∨ other.stop < run.start := by
      have hsymm : Std.Symm fun x y : MacroOutputRange => x.stop < y.start ∨ y.stop < x.start :=
        ⟨fun _ _ h => h.symm⟩
      have hpairs : runs.Pairwise fun x y => x.stop < y.start ∨ y.stop < x.start :=
        h.gaps.imp Or.inl
      exact hpairs.forall hrun hother hne
    have hrun' := h.nonempty run hrun
    simp only [MacroOutputRange.Covers] at hcovers
    omega
  · rintro ⟨run, hrun, henclosed⟩ token htoken
    exact (h.tokens token).mp ⟨run, hrun, henclosed.1.trans htoken.1, htoken.2.trans_le henclosed.2⟩

/-- The last run that starts early enough is the only one that may contain a range. -/
theorem JoinedRuns.lookup (h : JoinedRuns discarded runs) (ha : a.start < a.stop) :
    (0 < (runs.takeWhile fun range => range.start ≤ a.start).length ∧
      (runs[(runs.takeWhile fun range => range.start ≤ a.start).length - 1]?).any
        (·.contains a) = true) ↔
      ∃ run ∈ runs, Encloses MacroOutputRange.start MacroOutputRange.stop run a := by
  have hpartitioned : Partitioned (fun range : MacroOutputRange => range.start ≤ a.start) runs :=
    h.gaps.imp_of_mem fun {x y} hx _ hxy hy => by
      have := h.nonempty x hx
      simp only [decide_eq_true_eq] at hy ⊢
      omega
  constructor
  · rintro ⟨-, hany⟩
    obtain ⟨run, hrun, hcontains⟩ := (Option.any_eq_true _ _).mp hany
    exact ⟨run, mem_of_getElem? hrun, MacroOutputRange.contains_iff.mp hcontains⟩
  · rintro ⟨run, hrun, henclosed⟩
    have hmem : run ∈ runs.takeWhile fun range => range.start ≤ a.start :=
      (mem_takeWhile_iff hpartitioned).mpr ⟨hrun, by simpa using henclosed.1⟩
    have hne := ne_nil_of_mem hmem
    refine ⟨length_pos_iff.mpr hne, ?_⟩
    rw [getElem?_length_takeWhile_sub_one hne]
    obtain ⟨last, hlast⟩ : ∃ last, (runs.takeWhile fun range => range.start ≤ a.start).getLast? =
        some last := ⟨_, getLast?_eq_some_getLast hne⟩
    have hstart : last.start ≤ a.start := by
      simpa using ((mem_takeWhile_iff hpartitioned).mp (mem_of_getLast? hlast)).2
    rw [hlast, Option.any_some]
    rcases rel_getLast? (h.gaps.sublist (List.takeWhile_prefix _).sublist) hlast hmem with
      rfl | hgap
    · exact MacroOutputRange.contains_iff.mpr henclosed
    · have := henclosed.2
      omega

/-! ## Live ranges -/

theorem DiscardedInOrder.partitioned_before (h : DiscardedInOrder discarded count)
    (a : MacroOutputRange) :
    Partitioned (fun range : MacroOutputRange => range.stop ≤ a.start) discarded :=
  h.inOrder.imp_of_mem fun {x y} _ hy hxy hle => by
    have := h.range y hy
    simp only [decide_eq_true_eq] at hle ⊢
    omega

theorem DiscardedInOrder.partitioned_meets (h : DiscardedInOrder discarded count)
    (a : MacroOutputRange) :
    Partitioned (fun range : MacroOutputRange => range.start < a.stop) discarded :=
  h.inOrder.imp_of_mem fun {x y} hx _ hxy hlt => by
    have := h.range x hx
    simp only [decide_eq_true_eq] at hlt ⊢
    omega

/-- When the two partition points coincide, no discarded range meets a live one. -/
theorem DiscardedInOrder.apart_of_eq (h : DiscardedInOrder discarded count)
    (heq : (discarded.takeWhile fun range => range.stop ≤ a.start).length =
      (discarded.takeWhile fun range => range.start < a.stop).length)
    {d : MacroOutputRange} (hd : d ∈ discarded) :
    Apart MacroOutputRange.start MacroOutputRange.stop d a := by
  obtain ⟨i, hi⟩ := getElem?_of_mem hd
  have hbefore := lt_length_takeWhile_iff (h.partitioned_before a) hi
  have hmeets := lt_length_takeWhile_iff (h.partitioned_meets a) hi
  simp only [decide_eq_true_eq] at hbefore hmeets
  unfold Apart
  omega

/-- Only the first and the last discarded range that meets a live one have to be looked at. -/
theorem DiscardedInOrder.fits_iff (h : DiscardedInOrder discarded count) (ha : a.start < a.stop) :
    (if (discarded.takeWhile fun range => range.stop ≤ a.start).length =
        (discarded.takeWhile fun range => range.start < a.stop).length then True
      else (discarded[(discarded.takeWhile fun range => range.stop ≤ a.start).length]?).any
          (a.contains ·) = true ∧
        (discarded[(discarded.takeWhile fun range => range.start < a.stop).length - 1]?).any
          (a.contains ·) = true) ↔
      ∀ d ∈ discarded, Apart MacroOutputRange.start MacroOutputRange.stop d a ∨
        Encloses MacroOutputRange.start MacroOutputRange.stop a d := by
  set first := (discarded.takeWhile fun range => range.stop ≤ a.start).length with hfirst
  set stop := (discarded.takeWhile fun range => range.start < a.stop).length with hstop
  have hlt : ∀ {i d}, discarded[i]? = some d → (i < first ↔ d.stop ≤ a.start) := fun hi => by
    simpa using lt_length_takeWhile_iff (h.partitioned_before a) hi
  have hlt' : ∀ {i d}, discarded[i]? = some d → (i < stop ↔ d.start < a.stop) := fun hi => by
    simpa using lt_length_takeWhile_iff (h.partitioned_meets a) hi
  have hstople : stop ≤ discarded.length := (List.takeWhile_prefix _).length_le
  have hle : first ≤ stop := by
    by_contra hgt
    have hlen : stop < discarded.length := lt_of_lt_of_le (by omega) (List.takeWhile_prefix
      fun range : MacroOutputRange => decide (range.stop ≤ a.start)).length_le
    have hget := getElem?_eq_getElem hlen
    have hclosed := (hlt hget).mp (by omega)
    have hrange := h.range _ (getElem_mem hlen)
    exact absurd ((hlt' hget).mpr (by omega)) (lt_irrefl _)
  split
  case isTrue heq =>
    exact ⟨fun _ d hd => .inl (h.apart_of_eq heq hd), fun _ => trivial⟩
  case isFalse hne =>
    have hfirstlen : first < discarded.length := by omega
    have hlastlen : stop - 1 < discarded.length := by omega
    have hgetfirst := getElem?_eq_getElem hfirstlen
    have hgetlast := getElem?_eq_getElem hlastlen
    rw [hgetfirst, hgetlast]
    simp only [Option.any_some, MacroOutputRange.contains_iff]
    have hmeetsfirst : ¬Apart MacroOutputRange.start MacroOutputRange.stop discarded[first] a := by
      have h1 := (hlt hgetfirst).not.mp (lt_irrefl _)
      have h2 := (hlt' hgetfirst).mp (by omega)
      unfold Apart
      omega
    have hmeetslast :
        ¬Apart MacroOutputRange.start MacroOutputRange.stop discarded[stop - 1] a := by
      have h1 := (hlt hgetlast).not.mp (by omega)
      have h2 := (hlt' hgetlast).mp (by omega)
      unfold Apart
      omega
    constructor
    · rintro ⟨hencfirst, henclast⟩ d hd
      obtain ⟨i, hi⟩ := getElem?_of_mem hd
      obtain ⟨hilen, rfl⟩ := List.getElem?_eq_some_iff.mp hi
      by_cases hbetween : first ≤ i ∧ i < stop
      · refine .inr ⟨?_, ?_⟩
        · rcases Nat.eq_or_lt_of_le hbetween.1 with rfl | hlt
          · exact hencfirst.1
          · have := pairwise_iff_getElem.mp h.inOrder first i hfirstlen hilen hlt
            have := h.range _ (getElem_mem hfirstlen)
            have := hencfirst.1
            omega
        · rcases Nat.eq_or_lt_of_le (show i ≤ stop - 1 by omega) with hlast | hlt
          · subst hlast
            exact henclast.2
          · have := pairwise_iff_getElem.mp h.inOrder i (stop - 1) hilen hlastlen hlt
            have := h.range _ (getElem_mem hlastlen)
            have := henclast.2
            omega
      · have h1 := hlt hi
        have h2 := hlt' hi
        refine .inl ?_
        unfold Apart
        omega
    · intro hall
      exact ⟨(hall _ (getElem_mem hfirstlen)).resolve_left hmeetsfirst,
        (hall _ (getElem_mem hlastlen)).resolve_left hmeetslast⟩

theorem discardedOutputsFitLive_iff (h : DiscardedInOrder discarded count)
    (hruns : JoinedRuns discarded runs) :
    discardedOutputsFitLive discarded runs count a = true ↔ (a.start < a.stop ∧ a.stop ≤ count) ∧
      (∀ d ∈ discarded, Apart MacroOutputRange.start MacroOutputRange.stop d a ∨
        Encloses MacroOutputRange.start MacroOutputRange.stop a d) ∧
      ∃ token, a.Covers token ∧ ∀ d ∈ discarded, ¬d.Covers token := by
  rw [discardedOutputsFitLive]
  split
  case isTrue hinvalid =>
    simp only [Bool.false_eq_true, false_iff]
    rintro ⟨hvalid, -⟩
    omega
  case isFalse hvalid =>
    have hvalid : a.start < a.stop ∧ a.stop ≤ count := by omega
    have hsurvives : (∃ token, a.Covers token ∧ ∀ d ∈ discarded, ¬d.Covers token) ↔
        ¬∃ run ∈ runs, Encloses MacroOutputRange.start MacroOutputRange.stop run a := by
      rw [← hruns.covered_iff hvalid.1]
      push Not
      rfl
    rw [and_iff_right hvalid, ← h.fits_iff hvalid.1]
    dsimp only
    split
    case isTrue heq =>
      refine ⟨fun _ => ⟨trivial, a.start, ⟨le_rfl, hvalid.1⟩, fun d hd hcovers => ?_⟩, fun _ => rfl⟩
      have := h.apart_of_eq heq hd
      unfold Apart at this
      have := hcovers.1
      have := hcovers.2
      omega
    case isFalse hne =>
      rw [hsurvives, ← hruns.lookup hvalid.1]
      simp only [Bool.and_eq_true, Bool.not_eq_true', decide_eq_false_iff_not, and_assoc]

theorem discardedOutputsFitLiveProducts_iff (h : DiscardedInOrder discarded count) :
    discardedOutputsFitLiveProducts discarded count live = true ↔ ∀ a ∈ live,
      (a.start < a.stop ∧ a.stop ≤ count) ∧
      (∀ d ∈ discarded, Apart MacroOutputRange.start MacroOutputRange.stop d a ∨
        Encloses MacroOutputRange.start MacroOutputRange.stop a d) ∧
      ∃ token, a.Covers token ∧ ∀ d ∈ discarded, ¬d.Covers token := by
  have hruns := joinedRuns_foldl (fun d hd => (h.range d hd).1) h.inOrder
  have hranges : (discarded.any fun range =>
      range.stop ≤ range.start || count < range.stop) = false := by
    rw [any_eq_false]
    intro d hd
    simpa using h.range d hd
  have hpairs : ((neighbours discarded).any fun pair => pair.2.start < pair.1.stop) = false := by
    rw [any_eq_false]
    intro pair hpair
    simpa using isChain_iff_neighbours.mp h.inOrder.isChain pair hpair
  rw [discardedOutputsFitLiveProducts, hranges, hpairs, Bool.or_false, if_neg Bool.false_ne_true,
    all_eq_true]
  exact forall₂_congr fun a _ => discardedOutputsFitLive_iff h hruns

end

namespace ValidatedMacroOutputLedger

/-- Which reports the ledger accepts, and what it then holds. -/
theorem new_eq_some_iff {outputTokenCount : Nat}
    {liveOutputs discardedOutputs : List MacroOutputRange} {ledger : ValidatedMacroOutputLedger} :
    new outputTokenCount liveOutputs discardedOutputs = some ledger ↔
      OutputLedgerWellFormed outputTokenCount liveOutputs discardedOutputs ∧
        ledger = ⟨outputTokenCount, sortDedup liveOutputs,
          discardedOutputs.insertionSort (· ≤ ·)⟩ := by
  set sorted := discardedOutputs.insertionSort (· ≤ ·) with hsorted
  have hmem : ∀ d, d ∈ sorted ↔ d ∈ discardedOutputs := fun d => mem_insertionSort _
  have hdiscarded : DiscardedInOrder sorted outputTokenCount ↔ _ := discardedInOrder_insertionSort
  constructor
  · intro h
    rw [new] at h
    split at h
    · cases h
    rename_i hlaminar
    rw [Bool.not_eq_true', Bool.not_eq_false] at hlaminar
    obtain ⟨normalized, hnormalized, h⟩ := Option.bind_eq_some_iff.mp h
    split at h
    · cases h
    rename_i hfits
    rw [Bool.not_eq_true', Bool.not_eq_false] at hfits
    cases h
    obtain ⟨rfl, horder⟩ := normalizeDiscardedOutputRanges_eq_some.mp hnormalized
    obtain ⟨hrange, hapart⟩ := hdiscarded.mp horder
    have hlive := (discardedOutputsFitLiveProducts_iff horder).mp hfits
    have hlaminar := (laminarOutputRanges_iff.mp hlaminar).2
    rw [← hsorted] at hlive
    simp only [mem_sortDedup, hmem] at hlive hlaminar
    exact ⟨⟨fun a ha => (hlive a ha).1, hrange, hlaminar, hapart,
      fun d hd a ha => (hlive a ha).2.1 d hd, fun a ha => (hlive a ha).2.2⟩, rfl⟩
  · rintro ⟨h, rfl⟩
    have horder := hdiscarded.mpr ⟨h.discarded_range, h.apart⟩
    have hlaminar : laminarOutputRanges (sortDedup liveOutputs) = true := by
      rw [laminarOutputRanges_iff]
      simp only [mem_sortDedup]
      exact ⟨fun a ha => (h.live_range a ha).1, h.laminar⟩
    have hfits : discardedOutputsFitLiveProducts sorted outputTokenCount (sortDedup liveOutputs) =
        true := by
      rw [discardedOutputsFitLiveProducts_iff horder]
      simp only [mem_sortDedup, hmem]
      exact fun a ha => ⟨h.live_range a ha, fun d hd => h.fits d hd a ha, h.survives a ha⟩
    rw [new, hlaminar, normalizeDiscardedOutputRanges_eq_some.mpr ⟨rfl, horder⟩, ← hsorted]
    simp [hfits]

/-- The ledger accepts exactly the well-formed reports. -/
theorem isSome_new_iff (outputTokenCount : Nat)
    (liveOutputs discardedOutputs : List MacroOutputRange) :
    (new outputTokenCount liveOutputs discardedOutputs).isSome = true ↔
      OutputLedgerWellFormed outputTokenCount liveOutputs discardedOutputs := by
  rw [Option.isSome_iff_exists]
  simp only [new_eq_some_iff, exists_and_left, exists_eq, and_true]

end ValidatedMacroOutputLedger

end ItemDependencies
