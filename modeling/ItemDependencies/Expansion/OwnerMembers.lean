import ItemDependencies.Expansion.IntervalStartIndex
import ItemDependencies.Expansion.OutputPartition
import ItemDependencies.Library.Counting

/-!
# The members of an owner

A product whose effect belongs to the owner of an expansion keeps the tokens
around the products inside it.  Its range has to be live, no product may overlap
it partly, and some of its tokens have to be left to the owner.
-/

namespace ItemDependencies

open Library List

def PendingOutputClass.isOwnerEffect : PendingOutputClass → Bool
  | .products _ => false
  | .ownerEffect _ => true

namespace OutputClasses

variable (products : List ObservedProduct) (ledger : ValidatedMacroOutputLedger)
  (classes : List (MacroOutputRange × PendingOutputClass))

/-- The distinct ranges of the products, as intervals. -/
def productIntervals : List (IndexedInterval Unit) :=
  (sortDedup (products.map ObservedProduct.output)).map fun range => ⟨range.start, range.stop, ()⟩

/-- How many of the first classes are effects of the owner. -/
def ownerPrefix : List Nat :=
  classes.scanl (fun count entry => count + if entry.2.isOwnerEffect then 1 else 0) 0

def validateOwnerMember (productRanges : IntervalStartIndex Unit) (member : ObservedProduct) :
    Except ExpansionError Unit :=
  if member.output.start = member.output.stop then throw .incompleteOrigin
  else
    let before := productRanges.lowerBoundStart member.output.start
    if (productRanges.maximumEnd 0 before).any (member.output.start < ·) then
      throw .incompleteOrigin
    else
      let within := productRanges.lowerBoundStart member.output.stop
      if (productRanges.maximumEnd before within).any (member.output.stop < ·) then
        throw .incompleteOrigin
      else
        let first := (classes.takeWhile fun entry => entry.1.stop ≤ member.output.start).length
        let stop := (classes.takeWhile fun entry => entry.1.start < member.output.stop).length
        if stop ≤ first ∨ (ownerPrefix classes)[stop]? = (ownerPrefix classes)[first]? then
          throw .incompleteOrigin
        else return ()

end OutputClasses

open OutputClasses in
def validateOwnerMemberClasses (members products : List ObservedProduct)
    (ledger : ValidatedMacroOutputLedger)
    (classes : List (MacroOutputRange × PendingOutputClass)) :
    Except ExpansionError (List GraphNode) := do
  if members.isEmpty then return []
  else if members.any fun member => !ledger.containsLiveOutput member.output then
    throw .incompleteOrigin
  else
    let productRanges ← IntervalStartIndex.fromStartOrdered (productIntervals products)
    if (classes.any fun entry => entry.1.start = entry.1.stop) ||
        (neighbours classes).any fun pair => pair.2.1.start < pair.1.1.stop then
      throw .incompleteOrigin
    else
      members.forM (validateOwnerMember classes productRanges)
      return members.map ObservedProduct.product

namespace OutputClasses

/-! ## One member -/

section

variable {index : IntervalStartIndex Unit}
  {classes : List (MacroOutputRange × PendingOutputClass)} {member : ObservedProduct}

/-- An interval overlaps the member, and neither lies in the other, or it contains more. -/
def Sticks (member : MacroOutputRange) (interval : IndexedInterval Unit) : Prop :=
  interval.start < member.stop ∧ member.start < interval.stop ∧
    (interval.start < member.start ∨ member.stop < interval.stop)

/-- Of the intervals that start before the member none ends inside or after it, and of those that
start inside none ends after it. -/
theorem no_overlap_iff (hne : member.output.start < member.output.stop) :
    (¬(index.maximumEnd 0 (index.lowerBoundStart member.output.start)).any
        (member.output.start < ·) = true ∧
      ¬(index.maximumEnd (index.lowerBoundStart member.output.start)
        (index.lowerBoundStart member.output.stop)).any (member.output.stop < ·) = true) ↔
      ∀ interval ∈ index.intervals, ¬Sticks member.output interval := by
  rw [IntervalStartIndex.maximumEnd_any IntervalStartIndex.lowerBoundStart_le,
    IntervalStartIndex.maximumEnd_any IntervalStartIndex.lowerBoundStart_le]
  constructor
  · rintro ⟨hbefore, hwithin⟩ interval hinterval ⟨hstart, hstop, hout⟩
    obtain ⟨i, hi⟩ := getElem?_of_mem hinterval
    have hlower := IntervalStartIndex.lt_lowerBoundStart_iff member.output.start hi
    have hupper := IntervalStartIndex.lt_lowerBoundStart_iff member.output.stop hi
    rcases lt_or_ge interval.start member.output.start with hlt | hge
    · exact hbefore ⟨i, interval, Nat.zero_le _, hlower.mpr hlt, hi, hstop⟩
    · refine hwithin ⟨i, interval, ?_, hupper.mpr hstart, hi, by omega⟩
      exact not_lt.mp fun hlt => absurd (hlower.mp hlt) hge.not_gt
  · refine fun hall => ⟨?_, ?_⟩
    · rintro ⟨i, interval, -, hi, hget, hstop⟩
      have hlt := (IntervalStartIndex.lt_lowerBoundStart_iff _ hget).mp hi
      exact hall interval (mem_of_getElem? hget) ⟨by omega, hstop, .inl hlt⟩
    · rintro ⟨i, interval, -, hi, hget, hstop⟩
      have hlt := (IntervalStartIndex.lt_lowerBoundStart_iff _ hget).mp hi
      exact hall interval (mem_of_getElem? hget) ⟨hlt, by omega, .inr hstop⟩

/-- Some tokens of the member belong to the owner. -/
theorem owner_between_iff (hne : ∀ entry ∈ classes, entry.1.start < entry.1.stop)
    (hinOrder : classes.Pairwise fun a b => a.1.stop ≤ b.1.start)
    {first stop : Nat}
    (hfirst : first = (classes.takeWhile fun entry => entry.1.stop ≤ member.output.start).length)
    (hstop : stop = (classes.takeWhile fun entry => entry.1.start < member.output.stop).length) :
    ¬(stop ≤ first ∨ (ownerPrefix classes)[stop]? = (ownerPrefix classes)[first]?) ↔
      ∃ entry ∈ classes, entry.2.isOwnerEffect = true ∧ entry.1.start < member.output.stop ∧
        member.output.start < entry.1.stop := by
  have hbefore : Partitioned (fun entry => decide (entry.1.stop ≤ member.output.start))
      classes := by
    refine hinOrder.imp_of_mem fun {a b} ha hb h hle => ?_
    rw [decide_eq_true_eq] at hle ⊢
    have := hne b hb
    omega
  have hwithin : Partitioned (fun entry => decide (entry.1.start < member.output.stop))
      classes := by
    refine hinOrder.imp_of_mem fun {a b} ha hb h hlt => ?_
    rw [decide_eq_true_eq] at hlt ⊢
    have := hne a ha
    omega
  have hfirstIff : ∀ {i : Nat} {entry}, classes[i]? = some entry →
      (i < first ↔ entry.1.stop ≤ member.output.start) := fun hget => by
    rw [hfirst, lt_length_takeWhile_iff hbefore hget, decide_eq_true_eq]
  have hstopIff : ∀ {i : Nat} {entry}, classes[i]? = some entry →
      (i < stop ↔ entry.1.start < member.output.stop) := fun hget => by
    rw [hstop, lt_length_takeWhile_iff hwithin hget, decide_eq_true_eq]
  have hlength : stop ≤ classes.length := by
    rw [hstop]
    exact (List.takeWhile_prefix _).length_le
  rw [not_or, not_le]
  constructor
  · rintro ⟨hlt, hcount⟩
    rw [ownerPrefix, scanl_count_eq_iff hlt.le hlength] at hcount
    push Not at hcount
    obtain ⟨i, entry, hi, hi', hget, howner⟩ := hcount
    exact ⟨entry, mem_of_getElem? hget, by simpa using howner, (hstopIff hget).mp hi',
      not_le.mp fun hle => absurd ((hfirstIff hget).mpr hle) hi.not_gt⟩
  · rintro ⟨entry, hentry, howner, hstart, hend⟩
    obtain ⟨i, hget⟩ := getElem?_of_mem hentry
    have hi : first ≤ i := not_lt.mp fun hlt => absurd ((hfirstIff hget).mp hlt) hend.not_ge
    have hi' : i < stop := (hstopIff hget).mpr hstart
    refine ⟨hi.trans_lt hi', fun hcount => ?_⟩
    rw [ownerPrefix, scanl_count_eq_iff (hi.trans_lt hi').le hlength] at hcount
    rw [hcount i entry hi hi' hget] at howner
    cases howner

theorem validateOwnerMember_ok_iff (hmember : member.output.start < member.output.stop)
    (hne : ∀ entry ∈ classes, entry.1.start < entry.1.stop)
    (hinOrder : classes.Pairwise fun a b => a.1.stop ≤ b.1.start) :
    validateOwnerMember classes index member = .ok () ↔
      (∀ interval ∈ index.intervals, ¬Sticks member.output interval) ∧
        ∃ entry ∈ classes, entry.2.isOwnerEffect = true ∧ entry.1.start < member.output.stop ∧
          member.output.start < entry.1.stop := by
  rw [← no_overlap_iff hmember, ← owner_between_iff hne hinOrder rfl rfl, validateOwnerMember,
    if_neg hmember.ne]
  dsimp only
  split
  case isTrue hbefore => exact ⟨fun h => (by cases h), fun h => absurd hbefore h.1.1⟩
  case isFalse hbefore =>
    split
    case isTrue hwithin => exact ⟨fun h => (by cases h), fun h => absurd hwithin h.1.2⟩
    case isFalse hwithin =>
      split
      case isTrue hcount => exact ⟨fun h => (by cases h), fun h => absurd hcount h.2⟩
      case isFalse hcount => exact ⟨fun _ => ⟨⟨hbefore, hwithin⟩, hcount⟩, fun _ => rfl⟩

end

/-! ## All members -/

section

variable {products members : List ObservedProduct} {ledger : ValidatedMacroOutputLedger}
  {sourceOwner : Option DefinitionId} {classes : PendingOutputClasses}

theorem Observed.of_outputClasses {count : Nat} {live discarded : List MacroOutputRange}
    (hledger : ValidatedMacroOutputLedger.new count live discarded = some ledger)
    (hclasses : outputClasses products ledger sourceOwner = .ok classes) :
    Observed ledger products := by
  unfold outputClasses at hclasses
  obtain ⟨productsByRange, hfold, -⟩ := bind_ok hclasses
  obtain ⟨hnodup, hlive⟩ := of_foldlM_addProduct hfold
  exact .of_new hledger hnodup fun product hproduct =>
    contains_iff_mem.mpr (hlive product hproduct)

theorem startOrdered_productIntervals (h : Observed ledger products) :
    StartOrdered (productIntervals products) := by
  constructor
  · have hsorted := pairwise_sortDedup (products.map ObservedProduct.output)
    rw [productIntervals, isChain_map]
    refine hsorted.isChain.imp fun {a b} hlt => ?_
    rcases Prod.Lex.toLex_lt_toLex.mp hlt with hlt | heq
    · exact hlt.le
    · exact heq.1.le
  · intro interval hinterval
    obtain ⟨range, hrange, rfl⟩ := mem_map.mp hinterval
    exact (h.range range hrange).1

/-- A token that is kept and that belongs to the owner. -/
def IsOwnerToken (products : List ObservedProduct) (ledger : ValidatedMacroOutputLedger)
    (sourceOwner : Option DefinitionId) (token : Nat) : Prop :=
  token < ledger.outputTokenCount ∧ (∀ d ∈ ledger.discardedOutputs, ¬d.Covers token) ∧
    ∃ owner, TokenClass products sourceOwner token (.ownerEffect owner)

/-- An interval of the owner meets a range exactly if the range has a token of the owner. -/
theorem Classified.owner_iff (h : Classified ledger products sourceOwner classes.intervals)
    {range : MacroOutputRange} (hrange : range.start < range.stop) :
    (∃ entry ∈ classes.intervals, entry.2.isOwnerEffect = true ∧ entry.1.start < range.stop ∧
        range.start < entry.1.stop) ↔
      ∃ token, range.Covers token ∧ IsOwnerToken products ledger sourceOwner token := by
  constructor
  · rintro ⟨entry, hentry, howner, hstart, hstop⟩
    have hne := h.nonempty entry hentry
    let token := max range.start entry.1.start
    have hcovers : entry.1.Covers token := ⟨le_max_right _ _, max_lt hstop hne⟩
    have hclass := h.tokenClass entry hentry token hcovers
    obtain ⟨hcount, hlive⟩ := (h.covers token).mp ⟨entry, hentry, hcovers⟩
    refine ⟨token, ⟨le_max_left _ _, max_lt hrange hstart⟩, hcount, hlive, ?_⟩
    cases hfound : entry.2 with
    | products id =>
      rw [hfound] at howner
      cases howner
    | ownerEffect owner =>
      rw [hfound] at hclass
      exact ⟨owner, hclass⟩
  · rintro ⟨token, hcovers, hcount, hlive, owner, hclass⟩
    obtain ⟨entry, hentry, hcovers'⟩ := (h.covers token).mpr ⟨hcount, hlive⟩
    have hfound := h.tokenClass entry hentry token hcovers'
    refine ⟨entry, hentry, ?_, hcovers'.1.trans_lt hcovers.2, hcovers.1.trans_lt hcovers'.2⟩
    cases hkind : entry.2 with
    | products id =>
      -- a product around the token would leave it no owner
      rw [hkind] at hfound
      obtain ⟨range, hrange, hin, -⟩ := hfound
      exact absurd hin (hclass.2 range (mem_of_getElem? hrange))
    | ownerEffect _ => rfl

/-- The intervals of the products do not stick out of a range if and only if each product is apart
from the range or inside it. -/
theorem not_sticks_iff {range : MacroOutputRange} :
    (∀ interval ∈ productIntervals products, ¬Sticks range interval) ↔
      ∀ product ∈ products,
        Apart MacroOutputRange.start MacroOutputRange.stop product.output range ∨
          range.contains product.output = true := by
  constructor
  · intro hall product hproduct
    have hmem : product.output ∈ productRanges products :=
      mem_productRanges.mpr ⟨product, hproduct, rfl⟩
    have hsticks := hall _ (mem_map_of_mem hmem)
    rw [MacroOutputRange.contains_iff]
    unfold Sticks at hsticks
    unfold Apart Encloses
    dsimp only at hsticks
    omega
  · intro hall interval hinterval
    obtain ⟨output, houtput, rfl⟩ := mem_map.mp hinterval
    obtain ⟨product, hproduct, rfl⟩ := mem_productRanges.mp houtput
    have hproduct := hall product hproduct
    rw [MacroOutputRange.contains_iff] at hproduct
    unfold Sticks
    unfold Apart Encloses at hproduct
    dsimp only
    omega

end

end OutputClasses

open OutputClasses in
/-- The members of an owner are accepted if and only if each of them is live, no product overlaps
it partly, and the owner has a token of it. -/
theorem validateOwnerMemberClasses_ok_iff {count : Nat} {live discarded : List MacroOutputRange}
    {ledger : ValidatedMacroOutputLedger} {products : List ObservedProduct}
    {sourceOwner : Option DefinitionId} {classes : PendingOutputClasses}
    (hledger : ValidatedMacroOutputLedger.new count live discarded = some ledger)
    (hclasses : outputClasses products ledger sourceOwner = .ok classes)
    (members : List ObservedProduct) (nodes : List GraphNode) :
    validateOwnerMemberClasses members products ledger classes.intervals = .ok nodes ↔
      (∀ member ∈ members, ledger.containsLiveOutput member.output = true ∧
        (∀ product ∈ products,
          Apart MacroOutputRange.start MacroOutputRange.stop product.output member.output ∨
            member.output.contains product.output = true) ∧
        ∃ token, member.output.Covers token ∧ IsOwnerToken products ledger sourceOwner token) ∧
      nodes = members.map ObservedProduct.product := by
  have hobserved := Observed.of_outputClasses hledger hclasses
  obtain ⟨hclassified, -⟩ := hobserved.classified_of_ok hclasses
  obtain ⟨hrange, -, -⟩ := new_ledger hledger
  rw [validateOwnerMemberClasses]
  split
  case isTrue hempty =>
    obtain rfl := isEmpty_iff.mp hempty
    constructor
    · rintro ⟨⟩
      exact ⟨by simp, rfl⟩
    · rintro ⟨-, rfl⟩
      rfl
  case isFalse hsome =>
    split
    case isTrue hdead =>
      obtain ⟨member, hmember, hdead⟩ := any_eq_true.mp hdead
      refine ⟨fun h => (by cases h), fun h => ?_⟩
      rw [(h.1 member hmember).1] at hdead
      cases hdead
    case isFalse hlive =>
      have hlive : ∀ member ∈ members, ledger.containsLiveOutput member.output = true := by
        simpa using hlive
      have hmember : ∀ member ∈ members, member.output.start < member.output.stop :=
        fun member hmem => (hrange _ (contains_iff_mem.mp (hlive member hmem))).1
      obtain ⟨index, hindex⟩ :=
        IntervalStartIndex.fromStartOrdered_total (startOrdered_productIntervals hobserved)
      obtain ⟨hintervals, -⟩ := IntervalStartIndex.fromStartOrdered_ok hindex
      have hne : (classes.intervals.any fun entry => entry.1.start = entry.1.stop) = false :=
        any_eq_false.mpr fun entry hentry => by
          simpa using (hclassified.nonempty entry hentry).ne
      have hinOrder : ((neighbours classes.intervals).any fun pair =>
          pair.2.1.start < pair.1.1.stop) = false :=
        any_eq_false.mpr fun pair hpair => by
          simpa using isChain_iff_neighbours.mp hclassified.inOrder.isChain pair hpair
      have hvalid : members.forM (validateOwnerMember classes.intervals index) = .ok () ↔
          ∀ member ∈ members, (∀ product ∈ products,
            Apart MacroOutputRange.start MacroOutputRange.stop product.output member.output ∨
              member.output.contains product.output = true) ∧
            ∃ token, member.output.Covers token ∧
              IsOwnerToken products ledger sourceOwner token := by
        rw [forM_ok]
        refine forall₂_congr fun member hmem => ?_
        rw [validateOwnerMember_ok_iff (hmember member hmem) hclassified.nonempty
          hclassified.inOrder, hintervals, not_sticks_iff,
          hclassified.owner_iff (hmember member hmem)]
      rw [hindex]
      dsimp only [bind, Except.bind]
      rw [hne, hinOrder, Bool.or_self, if_neg Bool.false_ne_true]
      constructor
      · intro h
        obtain ⟨⟨⟩, hforM, hnodes⟩ := bind_ok h
        cases hnodes
        exact ⟨fun member hmem => ⟨hlive member hmem, hvalid.mp hforM member hmem⟩, rfl⟩
      · rintro ⟨hall, rfl⟩
        have hforM := hvalid.mpr fun member hmem => (hall member hmem).2
        rw [hforM]
        rfl

/-- A member around a nested product, of which two tokens are left to the owner. -/
theorem validateOwnerMemberClasses_ok_iff_nested :
    validateOwnerMemberClasses [⟨⟨0, 3⟩, .definition ⟨1⟩⟩] [⟨⟨1, 2⟩, .definition ⟨2⟩⟩]
        ⟨3, [⟨0, 3⟩, ⟨1, 2⟩], []⟩
        [(⟨0, 1⟩, .ownerEffect ⟨0⟩), (⟨1, 2⟩, .products 0), (⟨2, 3⟩, .ownerEffect ⟨0⟩)] =
      .ok [.definition ⟨1⟩] ∧
    ∃ token, (⟨0, 3⟩ : MacroOutputRange).Covers token ∧
      OutputClasses.IsOwnerToken [⟨⟨1, 2⟩, .definition ⟨2⟩⟩] ⟨3, [⟨0, 3⟩, ⟨1, 2⟩], []⟩
        (some ⟨0⟩) token := by
  have hledger : ValidatedMacroOutputLedger.new 3 [⟨0, 3⟩, ⟨1, 2⟩] [] =
    some ⟨3, [⟨0, 3⟩, ⟨1, 2⟩], []⟩ := rfl
  have hclasses : outputClasses [⟨⟨1, 2⟩, .definition ⟨2⟩⟩] ⟨3, [⟨0, 3⟩, ⟨1, 2⟩], []⟩ (some ⟨0⟩) =
    .ok ⟨[(⟨0, 1⟩, .ownerEffect ⟨0⟩), (⟨1, 2⟩, .products 0), (⟨2, 3⟩, .ownerEffect ⟨0⟩)],
      [[.definition ⟨2⟩]]⟩ := rfl
  have hok : validateOwnerMemberClasses [⟨⟨0, 3⟩, .definition ⟨1⟩⟩] [⟨⟨1, 2⟩, .definition ⟨2⟩⟩]
      ⟨3, [⟨0, 3⟩, ⟨1, 2⟩], []⟩
      [(⟨0, 1⟩, .ownerEffect ⟨0⟩), (⟨1, 2⟩, .products 0), (⟨2, 3⟩, .ownerEffect ⟨0⟩)] =
    .ok [.definition ⟨1⟩] := rfl
  have hall := ((validateOwnerMemberClasses_ok_iff hledger hclasses _ _).mp hok).1
  exact ⟨hok, (hall _ (mem_singleton.mpr rfl)).2.2⟩

end ItemDependencies
