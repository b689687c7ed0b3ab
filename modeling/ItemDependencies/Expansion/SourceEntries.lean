import ItemDependencies.Expansion.FrontierSets
import ItemDependencies.Expansion.SourceAncestryQueries
import ItemDependencies.Library.EulerOrder

/-!
# Units at their entries

The entries of the units are the positions of the walk, and the table of entries leads back to the
units.  The tree of a position ends at the exit of its unit.
-/

namespace ItemDependencies

open Library List

/-! ## The table of entries -/

theorem placeUnit_ok {byEntry byEntry' : List SourceUnitId} {entry : Nat × Nat}
    (h : placeUnit byEntry entry = .ok byEntry') :
    entry.1 < byEntry.length ∧ byEntry' = byEntry.set entry.1 ⟨entry.2⟩ := by
  unfold placeUnit at h
  obtain ⟨unit, hunit, h⟩ := bind_ok h
  obtain ⟨hplace, h⟩ := guard_ok h
  cases h
  exact ⟨(List.getElem?_eq_some_iff.mp (not_not.mp hplace)).1, by rw [(unitId_ok hunit).2]⟩

theorem placeUnits_ok {byEntry byEntry' : List SourceUnitId} {l : List (Nat × Nat)}
    (hnodup : (l.map Prod.fst).Nodup) (h : l.foldlM placeUnit byEntry = .ok byEntry') :
    ∀ entry ∈ l, byEntry'[entry.1]? = some ⟨entry.2⟩ := by
  refine foldlM_ok (P := fun done table => (done.map Prod.fst).Nodup →
    ∀ entry ∈ done, table[entry.1]? = some (⟨entry.2⟩ : SourceUnitId))
    (fun done entry s t hs hok hdone => ?_) (fun _ entry hentry => absurd hentry not_mem_nil) h
    hnodup
  obtain ⟨hlt, rfl⟩ := placeUnit_ok hok
  rw [map_append, nodup_append] at hdone
  intro other hother
  rcases mem_append.mp hother with hother | hother
  · have hne : other.1 ≠ entry.1 :=
      hdone.2.2 other.1 (mem_map_of_mem hother) entry.1 mem_cons_self
    rw [getElem?_set_ne hne.symm]
    exact hs hdone.1 other hother
  · rw [mem_singleton.mp hother, getElem?_set_self hlt]

variable {parents : List (Option SourceUnitId)} {index : SourceAncestryIndex}

namespace SourceAncestryIndex

variable (index)

/-- The unit that is entered at a position. -/
def unitAt (position : Nat) : SourceUnitId := index.byEntry[position]?.getD unsetUnit

/-- Where the tree of a position stops. -/
def treeStop (position : Nat) : Nat := index.exitAt (index.unitAt position).index

end SourceAncestryIndex

/-- Positions and units are the same, and so are trees and what is below a unit. -/
structure EntersUnits (parents : List (Option SourceUnitId)) (index : SourceAncestryIndex) :
    Prop where
  ancestry : IsAncestryIndex parents index
  unit : ∀ p < parents.length, index.byEntry[p]? = some (index.unitAt p) ∧
    (index.unitAt p).index < parents.length ∧ index.entryOf (index.unitAt p) = p
  entry : ∀ u : SourceUnitId, u.index < parents.length →
    index.entryOf u < parents.length ∧ index.unitAt (index.entryOf u) = u
  stop_le : ∀ p < parents.length, index.treeStop p ≤ parents.length
  order : EulerOrder parents.length index.treeStop

theorem fromParents_placed (h : SourceAncestryIndex.fromParents parents = .ok index) :
    ∀ i < parents.length, index.byEntry[index.entryAt i]? = some ⟨i⟩ := by
  have hindex := (SourceAncestryIndex.fromParents_ok h).1
  unfold SourceAncestryIndex.fromParents at h
  obtain ⟨-, h⟩ := guard_ok h
  obtain ⟨walk, hwalk, h⟩ := bind_ok h
  obtain ⟨hcounted, h⟩ := guard_ok h
  obtain ⟨byEntry, hplaced, h⟩ := bind_ok h
  obtain ⟨jumps, hjumps, h⟩ := bind_ok h
  cases h
  have hcount := lt_u32Size_of_firstJump hjumps
  obtain ⟨walk', out, hwalk', hwalked⟩ := walkTrees_total hcount
  cases hwalk.symm.trans hwalk'
  rw [not_or, not_not] at hcounted
  have hlength : out.length = parents.length := by
    have hnext := hwalked.entered.nextEntry
    rw [hcounted.1] at hnext
    exact (hnext.trans (Nat.zero_add _)).symm
  obtain ⟨hnodup, -⟩ := hwalked.entries_perm fun i => hwalked.mem_of_length hlength
  intro i hi
  have hget : walk.entries[i]? = some (walk.entries[i]?.getD 0) := by
    rw [getElem?_eq_getElem (hwalked.sized.entries.symm ▸ hi), Option.getD_some]
  refine placeUnits_ok ?_ hplaced (walk.entries[i]?.getD 0, i) (mem_zipIdx_iff_getElem?.mpr hget)
  rw [zipIdx_map_fst]
  exact hnodup

theorem entersUnits (h : SourceAncestryIndex.fromParents parents = .ok index) :
    EntersUnits parents index := by
  have hplaced := fromParents_placed h
  have hindex := (SourceAncestryIndex.fromParents_ok h).1
  obtain ⟨out, htraversal, hnodup, hall, hentry, hexit⟩ := hindex.order
  have hlength : out.length = parents.length := by
    have hperm : out.Perm (List.range parents.length) :=
      (perm_ext_iff_of_nodup hnodup nodup_range).mpr fun i =>
        (hall i).trans mem_range.symm
    rw [hperm.length_eq, length_range]
  have hunit : ∀ (p i : Nat), out[p]? = some i → index.byEntry[p]? = some ⟨i⟩ := by
    intro p i hp
    have := hplaced i ((hall i).mp (mem_of_getElem? hp))
    rwa [hentry p i hp] at this
  have hunitAt : ∀ (p i : Nat), out[p]? = some i → index.unitAt p = ⟨i⟩ := by
    intro p i hp
    rw [SourceAncestryIndex.unitAt, hunit p i hp, Option.getD_some]
  -- the tree of a position is a stretch of the walk
  have htree : ∀ (p i : Nat), out[p]? = some i → ∃ below,
      Traversal (unitChildren parents) (unitChildren parents i) below ∧
        index.treeStop p = p + 1 + below.length ∧ p + 1 + below.length ≤ parents.length := by
    intro p i hp
    obtain ⟨below, after, hbelow, hdrop⟩ := htraversal.drop_eq hp
    refine ⟨below, hbelow, ?_, ?_⟩
    · rw [SourceAncestryIndex.treeStop, hunitAt p i hp]
      exact hexit p i below hp hbelow
    · have hlen := congrArg List.length hdrop
      rw [length_drop, length_cons, length_append, hlength] at hlen
      have := (List.getElem?_eq_some_iff.mp hp).1
      omega
  have hget : ∀ p < parents.length, ∃ i, out[p]? = some i := fun p hp =>
    ⟨_, getElem?_eq_getElem (hlength.symm ▸ hp)⟩
  refine ⟨hindex, fun p hp => ?_, fun u hu => ?_, fun p hp => ?_, fun p hp => ?_,
    fun p q hq hin => ?_⟩
  · obtain ⟨i, hi⟩ := hget p hp
    rw [hunitAt p i hi]
    exact ⟨hunit p i hi, (hall i).mp (mem_of_getElem? hi), hentry p i hi⟩
  · obtain ⟨k, hk⟩ := getElem?_of_mem ((hall u.index).mpr hu)
    have hentered : index.entryOf u = k := hentry k u.index hk
    rw [hentered]
    exact ⟨hlength ▸ (List.getElem?_eq_some_iff.mp hk).1, hunitAt k u.index hk⟩
  · obtain ⟨i, hi⟩ := hget p hp
    obtain ⟨below, -, hstop, hle⟩ := htree p i hi
    rw [hstop]
    exact hle
  · obtain ⟨i, hi⟩ := hget p hp
    obtain ⟨below, -, hstop, -⟩ := htree p i hi
    omega
  · have hp : p < parents.length := hin.1.trans_lt hq
    obtain ⟨i, hi⟩ := hget p hp
    obtain ⟨j, hj⟩ := hget q hq
    obtain ⟨belowP, hbelowP, hstopP, -⟩ := htree p i hi
    obtain ⟨belowQ, hbelowQ, hstopQ, hleQ⟩ := htree q j hj
    -- the last position of the inner tree
    obtain ⟨k, hk⟩ := hget (q + belowQ.length) (by omega)
    have hij := (htraversal.reach_iff hnodup hi hj hbelowP).mpr ⟨hin.1, hstopP ▸ hin.2⟩
    have hjk := (htraversal.reach_iff hnodup hj hk hbelowQ).mpr ⟨Nat.le_add_right _ _, by omega⟩
    have hik := (htraversal.reach_iff hnodup hi hk hbelowP).mp (hij.trans hjk)
    omega

namespace EntersUnits

variable (h : EntersUnits parents index)

include h

theorem inside_iff {p q : Nat} (hp : p < parents.length) (hq : q < parents.length) :
    Inside index.treeStop q p ↔ Within parents (index.unitAt q) (index.unitAt p) := by
  obtain ⟨-, hunit, hentry⟩ := h.unit p hp
  obtain ⟨-, hunit', hentry'⟩ := h.unit q hq
  rw [← h.ancestry.covers_iff hunit hunit', SourceAncestryIndex.covers, hentry, hentry',
    Bool.and_eq_true, decide_eq_true_eq, decide_eq_true_eq]
  rfl

theorem unitAtEntry_eq {p : Nat} (hp : p < parents.length) :
    index.unitAtEntry p = .ok (index.unitAt p) := by
  unfold SourceAncestryIndex.unitAtEntry
  rw [(h.unit p hp).1]

theorem interval_eq {u : SourceUnitId} (hu : u.index < parents.length) :
    index.interval u = .ok (index.entryOf u, index.treeStop (index.entryOf u)) := by
  unfold SourceAncestryIndex.interval
  rw [h.ancestry.position_eq hu, SourceAncestryIndex.treeStop, (h.entry u hu).2]
  rfl

theorem isAncestor_eq {p q : Nat} (hp : p < parents.length) (hq : q < parents.length) :
    index.isAncestor (index.unitAt p) (index.unitAt q) =
      .ok (decide (Inside index.treeStop q p)) := by
  obtain ⟨-, hunit, -⟩ := h.unit p hp
  obtain ⟨-, hunit', -⟩ := h.unit q hq
  rw [h.ancestry.isAncestor_eq hunit hunit']
  congr 1
  rw [Bool.eq_iff_iff, decide_eq_true_eq, h.inside_iff hp hq, h.ancestry.covers_iff hunit hunit']

end EntersUnits

end ItemDependencies
