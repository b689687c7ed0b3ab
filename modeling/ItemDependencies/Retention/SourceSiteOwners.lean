import ItemDependencies.Library.PartitionPoint
import ItemDependencies.Retention.SourceSiteTree
import ItemDependencies.Source.UnitDepths

/-!
# The index of owners answers like a full scan

A scan over all units keeps the active ones that contain the site, and among
those the shortest, and among those the deepest.  The index gives the same
units for every site.
-/

namespace ItemDependencies

open Library List

/-! ## Depths -/

section Depths

variable {units : List WrittenUnit} {unit depth cursor limit : Nat} {path : List Nat}
  {s t : UnitDepths}

/-- A path of units below a cursor, lowest last. -/
def PathTo (units : List WrittenUnit) : Nat → List Nat → Prop
  | _, [] => True
  | cursor, unit :: path =>
    (∃ parent, units[unit]?.bind WrittenUnit.parent = some parent ∧ parent.index = cursor) ∧
      PathTo units unit path

/-- The depths that are known are right. -/
def UnitDepths.Right (units : List WrittenUnit) (s : UnitDepths) : Prop :=
  ∀ unit depth, s.depths unit = some depth → HasDepth units unit depth

theorem UnitDepths.Right.set (h : s.Right units) (hunit : HasDepth units unit depth)
    (onPath : Nat → Bool) :
    UnitDepths.Right units ⟨Function.update s.depths unit (some depth), onPath⟩ := by
  intro k d hk
  by_cases hku : k = unit
  · subst hku
    have : depth = d := by simpa using hk
    exact this ▸ hunit
  · exact h k d (by simpa [Function.update_of_ne hku] using hk)

theorem UnitDepths.assign_ok (h : s.Right units) (hcursor : HasDepth units cursor depth)
    (hpath : PathTo units cursor path) (hok : s.assign depth path = .ok t) : t.Right units := by
  induction path generalizing s cursor depth with
  | nil =>
    cases hok
    exact h
  | cons unit path ih =>
    obtain ⟨⟨parent, hparent, rfl⟩, hpath⟩ := hpath
    rw [assign] at hok
    split at hok
    · cases hok
    · exact ih (h.set (.child hparent hcursor) _) (.child hparent hcursor) hpath hok

theorem UnitDepths.climb_ok (h : s.Right units) (hpath : PathTo units cursor path)
    (hok : s.climb units limit cursor path = .ok t) : t.Right units := by
  induction limit generalizing s cursor path with
  | zero => cases hok
  | succ limit ih =>
    rw [climb] at hok
    cases hdepth : s.depths cursor with
    | some depth =>
      rw [hdepth] at hok
      exact assign_ok h (h cursor depth hdepth) hpath hok
    | none =>
      rw [hdepth] at hok
      dsimp only at hok
      split at hok
      · cases hok
      · cases hparent : units[cursor]?.bind WrittenUnit.parent with
        | none =>
          rw [hparent] at hok
          have hroot : HasDepth units cursor 0 := .root hparent
          exact assign_ok (h.set hroot _) hroot hpath hok
        | some parent =>
          rw [hparent] at hok
          dsimp only at hok
          split at hok
          · cases hok
          · have hpath' : PathTo units parent.index (cursor :: path) :=
              ⟨⟨parent, hparent, rfl⟩, hpath⟩
            have hs : UnitDepths.Right units
                { s with onPath := Function.update s.onPath cursor true } := h
            exact ih hs hpath' hok

/-- What an inventory with depths has been checked for. -/
theorem sourceUnitDepths_ok {source : SourceInventory} {depths : List Nat}
    (h : sourceUnitDepths source = .ok depths) :
    (∀ i (unit : WrittenUnit), source.units[i]? = some unit →
        unit.id.index = i ∧ unit.fullRange.start ≤ unit.fullRange.stop) ∧
      ∀ i < source.units.length,
        depths.getD i 0 = parentDepth source.units source.units.length i := by
  rw [sourceUnitDepths] at h
  obtain ⟨hcheck, h⟩ := guard_ok h
  obtain ⟨s, hs, h⟩ := bind_ok h
  have hright : s.Right source.units :=
    foldlM_ok (P := fun _ s => s.Right source.units)
      (fun _ start s t hs hok => by
        split at hok
        · cases hok
          exact hs
        · exact UnitDepths.climb_ok hs (show PathTo source.units start [] from trivial) hok)
      (fun _ _ h => by cases h) hs
  refine ⟨fun i unit hunit => ?_, fun i hi => ?_⟩
  · have hmem := mk_mem_zipIdx_iff_getElem?.mpr hunit
    have hnot : ¬_ := fun h => hcheck (any_eq_true.mpr ⟨_, hmem, h⟩)
    simp only [Bool.or_eq_true, bne_iff_ne, decide_eq_true_eq, not_or, not_not, not_lt] at hnot
    exact ⟨hnot.1.1, hnot.1.2⟩
  · obtain ⟨d, hd, hget⟩ := getElem?_of_forall₂ (mapM_ok h) (getElem?_range hi)
    rw [getD_eq_getElem?_getD, hd]
    cases hdepth : s.depths i with
    | none =>
      rw [hdepth] at hget
      cases hget
    | some depth =>
      rw [hdepth] at hget
      cases hget
      have := hright i d hdepth
      exact (this.parentDepth_eq this.le_length).symm

end Depths

/-! ## Versions -/

namespace SourceSiteOwnerIndex

/-- The ranks of entries that start no later than a version, at the positions of their ends. -/
def ranksUpTo (ends : List Nat) (entries : List Entry) (start : Nat) : Set (Nat × OwnerRank) :=
  {x | ∃ entry ∈ entries, entry.start ≤ start ∧ x = (ends.idxOf entry.stop, entry.rank)}

def Entry.record (entry : Entry) : OwnerRecord := ⟨entry.id, ⟨entry.start, entry.stop⟩⟩

theorem Entry.start_le {a b : Entry} (h : a ≤ b) : a.start ≤ b.start := by
  rcases Prod.Lex.le_iff.mp h with h | h
  · exact h.le
  · exact h.1.le

/-- What has become of some entries that have been indexed. -/
structure VersionInv (ends : List Nat) (entries : List Entry) (index : SourceSiteOwnerIndex) :
    Prop where
  ends_eq : index.ends = ends
  zero : index.nodes[0]? = some .empty
  length : index.roots.length = index.starts.length
  starts : index.starts.Pairwise (· < ·)
  mem_starts : ∀ start, start ∈ index.starts ↔ ∃ entry ∈ entries, entry.start = start
  roots : ∀ version start root : Nat, index.starts[version]? = some start →
    index.roots[version]? = some root →
    Represents index.nodes (ranksUpTo ends entries start) root 0 ends.length
  byRank : ∀ rank, index.ownersByRank rank =
    (entries.filter fun entry => entry.rank = rank).map Entry.record

section Versions

variable {ends : List Nat} {entries : List Entry} {entry : Entry} {index : SourceSiteOwnerIndex}

theorem ranksUpTo_append_of_lt {start : Nat} (h : start < entry.start) :
    ranksUpTo ends (entries ++ [entry]) start = ranksUpTo ends entries start := by
  ext x
  constructor
  · rintro ⟨e, he, hle, hx⟩
    rcases mem_append.mp he with he | he
    · exact ⟨e, he, hle, hx⟩
    · obtain rfl := mem_singleton.mp he
      omega
  · rintro ⟨e, he, hle, hx⟩
    exact ⟨e, by simp [he], hle, hx⟩

/-- With the last entry the version of its start gets one more rank. -/
theorem ranksUpTo_append {start : Nat} (hbefore : ∀ e ∈ entries, e.start ≤ start)
    (h : start ≤ entry.start) :
    ranksUpTo ends (entries ++ [entry]) entry.start =
      Insert.insert (ends.idxOf entry.stop, entry.rank) (ranksUpTo ends entries start) := by
  ext x
  constructor
  · rintro ⟨e, he, -, hx⟩
    rcases mem_append.mp he with he | he
    · exact Or.inr ⟨e, he, hbefore e he, hx⟩
    · rw [mem_singleton.mp he] at hx
      exact Or.inl hx
  · rintro (hx | ⟨e, he, hle, hx⟩)
    · exact ⟨entry, by simp, le_rfl, hx⟩
    · exact ⟨e, by simp [he], hle.trans h, hx⟩

/-- The tree of the last version, or the empty tree. -/
theorem VersionInv.last (h : VersionInv ends entries index)
    (hbefore : ∀ e ∈ entries, e.start ≤ entry.start) :
    ∃ start, start ≤ entry.start ∧ (∀ e ∈ entries, e.start ≤ start) ∧
      Represents index.nodes (ranksUpTo ends entries start) (index.roots.getLastD 0) 0
        ends.length := by
  have hlength := h.length
  rcases eq_nil_or_concat index.starts with hnil | ⟨starts, start, hstarts⟩
  · have hempty : entries = [] := eq_nil_iff_forall_not_mem.mpr fun e he => by
      have := (h.mem_starts e.start).mpr ⟨e, he, rfl⟩
      simp [hnil] at this
    rw [hnil] at hlength
    rw [length_eq_zero_iff.mp hlength]
    refine ⟨0, Nat.zero_le _, by simp [hempty], .empty ?_⟩
    refine Set.eq_empty_of_forall_notMem ?_
    rintro r ⟨p, -, -, e, he, -⟩
    simp [hempty] at he
  · rcases eq_nil_or_concat index.roots with hnil | ⟨roots, root, hroots⟩
    · simp [hnil, hstarts] at hlength
    · obtain ⟨e, he, rfl⟩ := (h.mem_starts start).mp (by simp [hstarts])
      have hsorted := h.starts
      rw [hstarts, concat_eq_append] at hsorted
      simp only [hstarts, hroots, concat_eq_append, length_append,
        length_singleton, Nat.add_right_cancel_iff] at hlength
      refine ⟨e.start, hbefore e he, fun e' he' => ?_, ?_⟩
      · have hmem := (h.mem_starts e'.start).mpr ⟨e', he', rfl⟩
        rw [hstarts, concat_eq_append] at hmem
        rcases mem_append.mp hmem with hmem | hmem
        · exact ((pairwise_append.mp hsorted).2.2 _ hmem _ (by simp)).le
        · exact (mem_singleton.mp hmem).le
      · refine h.roots roots.length e.start _ ?_ ?_
        · rw [hstarts, concat_eq_append, hlength]
          exact getElem?_concat_length
        · rw [hroots, concat_eq_append, getElem?_concat_length]
          simp

/-- The last version is replaced, or a version is added. -/
theorem VersionInv.extend (h : VersionInv ends entries index) {starts roots : List Nat}
    {more : List MinNode} {owners : OwnerRank → List OwnerRecord} {root : Nat}
    (hlength : roots.length = starts.length) (hlt : ∀ start ∈ starts, start < entry.start)
    (hstarts : starts <+: index.starts) (hroots : roots <+: index.roots)
    (hcover : ∀ start ∈ index.starts, start ∈ starts ∨ start = entry.start)
    (hnew : Represents (index.nodes ++ more)
      (ranksUpTo ends (entries ++ [entry]) entry.start) root 0 ends.length)
    (howners : ∀ rank, owners rank =
      ((entries ++ [entry]).filter fun e => e.rank = rank).map Entry.record) :
    VersionInv ends (entries ++ [entry])
      { starts := starts ++ [entry.start]
        roots := roots ++ [root]
        ends := ends
        nodes := index.nodes ++ more
        ownersByRank := owners } where
  ends_eq := rfl
  zero := by
    show (index.nodes ++ more)[0]? = _
    rw [getElem?_append_left (List.getElem?_eq_some_iff.mp h.zero).1, h.zero]
  length := by simp [hlength]
  starts := pairwise_append.mpr ⟨h.starts.sublist hstarts.sublist, pairwise_singleton ..,
    fun start hs other ho => mem_singleton.mp ho ▸ hlt start hs⟩
  mem_starts start := by
    rw [mem_append, mem_singleton]
    constructor
    · rintro (hs | rfl)
      · obtain ⟨e, he, rfl⟩ := (h.mem_starts start).mp (hstarts.subset hs)
        exact ⟨e, by simp [he], rfl⟩
      · exact ⟨entry, by simp, rfl⟩
    · rintro ⟨e, he, rfl⟩
      rcases mem_append.mp he with he | he
      · exact hcover _ ((h.mem_starts _).mpr ⟨e, he, rfl⟩)
      · exact Or.inr (by rw [mem_singleton.mp he])
  roots version start root' hs hr := by
    by_cases hv : version < starts.length
    · rw [getElem?_append_left hv] at hs
      rw [getElem?_append_left (hlength ▸ hv)] at hr
      rw [ranksUpTo_append_of_lt (hlt start (mem_of_getElem? hs))]
      obtain ⟨starts', hstarts⟩ := hstarts
      obtain ⟨roots', hroots⟩ := hroots
      refine (h.roots version start root' ?_ ?_).extend more
      · rw [← hstarts, getElem?_append_left hv, hs]
      · rw [← hroots, getElem?_append_left (hlength ▸ hv), hr]
    · have hlast : version = starts.length := by
        have := (List.getElem?_eq_some_iff.mp hs).1
        rw [length_append, length_singleton] at this
        omega
      subst hlast
      rw [getElem?_concat_length] at hs
      rw [← hlength, getElem?_concat_length] at hr
      cases hs
      cases hr
      exact hnew
  byRank := howners

/-- An entry that starts no earlier than those that are there is indexed. -/
theorem VersionInv.append (h : VersionInv ends entries index)
    (hbefore : ∀ e ∈ entries, e.start ≤ entry.start) (hstop : entry.stop ∈ ends) :
    VersionInv ends (entries ++ [entry]) (index.addEntry entry) := by
  obtain ⟨last, hlast, hall, htree⟩ := h.last hbefore
  have hposition : ends.idxOf entry.stop < ends.length := idxOf_lt_length_iff.mpr hstop
  obtain ⟨more, hindex, hnew⟩ := insert_spec (ends.length + 1) index
    (by omega) (Nat.zero_le _) hposition h.zero htree
  rw [← ranksUpTo_append hall hlast] at hnew
  have howners : ∀ rank, Function.update index.ownersByRank entry.rank
      (index.ownersByRank entry.rank ++ [Entry.record entry]) rank =
        ((entries ++ [entry]).filter fun e => e.rank = rank).map Entry.record := by
    intro rank
    rw [filter_append, map_append, ← h.byRank]
    by_cases hr : rank = entry.rank
    · subst hr
      simp
    · simp [Function.update_of_ne hr, Ne.symm hr]
  have hle : ∀ start ∈ index.starts, start ≤ entry.start := by
    intro start hs
    obtain ⟨e, he, rfl⟩ := (h.mem_starts start).mp hs
    exact hbefore e he
  rw [addEntry, h.ends_eq]
  generalize insert index (ends.idxOf entry.stop) entry.rank (ends.length + 1)
    (index.roots.getLastD 0) 0 ends.length = inserted at *
  obtain ⟨index', root⟩ := inserted
  obtain rfl : index' = { index with nodes := index.nodes ++ more } := hindex
  obtain rfl := h.ends_eq
  dsimp only
  split
  · rename_i hsame
    obtain ⟨starts, hstarts⟩ : ∃ starts, index.starts = starts ++ [entry.start] :=
      getLast?_eq_some_iff.mp hsame
    have hsorted := h.starts
    rw [hstarts] at hsorted hle
    have hlength := h.length
    rw [hstarts, length_append, length_singleton] at hlength
    rw [hstarts]
    refine h.extend (by rw [length_dropLast]; omega) ?_ ⟨[entry.start], hstarts.symm⟩
      (List.dropLast_prefix _) ?_ hnew howners
    · exact fun start hs => (pairwise_append.mp hsorted).2.2 start hs _ (by simp)
    · intro start hs
      rw [hstarts] at hs
      simpa using hs
  · rename_i hother
    refine h.extend h.length (fun start hs => (hle start hs).lt_of_ne ?_) prefix_rfl
      prefix_rfl (fun start hs => Or.inl hs) hnew howners
    -- the last start is the greatest
    rintro rfl
    obtain ⟨starts, after, hsplit⟩ := append_of_mem hs
    cases after with
    | nil => exact hother (by rw [hsplit, getLast?_concat])
    | cons next after =>
      have hsorted := h.starts
      rw [hsplit] at hsorted
      have hnext := (pairwise_cons.mp (pairwise_append.mp hsorted).2.1).1 next (by simp)
      have := hle next (by rw [hsplit]; simp)
      omega

/-- Indexing sorted entries. -/
theorem versionInv_foldl (hsorted : entries.Pairwise (· ≤ ·))
    (hstops : ∀ e ∈ entries, e.stop ∈ ends) :
    VersionInv ends entries (entries.foldl addEntry ⟨[], [], ends, [.empty], fun _ => []⟩) := by
  induction entries using List.reverseRecOn with
  | nil => exact ⟨rfl, rfl, rfl, List.Pairwise.nil, by simp, by simp, by simp⟩
  | append_singleton entries entry ih =>
    obtain ⟨hsorted, -, hlast⟩ := pairwise_append.mp hsorted
    rw [foldl_append]
    refine (ih hsorted fun e he => hstops e (by simp [he])).append (fun e he => ?_)
      (hstops entry (by simp))
    exact Entry.start_le (hlast e he entry (by simp))

/-! ## Queries -/

/-- The ranks of the entries that contain a site. -/
def containingRanks (entries : List Entry) (site : ByteRange) : Set OwnerRank :=
  {rank | ∃ entry ∈ entries, entry.record.range.contains site = true ∧ entry.rank = rank}

theorem contains_record {site : ByteRange} : entry.record.range.contains site = true ↔
    entry.start ≤ site.start ∧ site.stop ≤ entry.stop := by
  rw [ByteRange.contains, Bool.and_eq_true, decide_eq_true_eq, decide_eq_true_eq]
  exact Iff.rfl

/-- An end is at or behind the first one that is late enough if and only if it is late enough. -/
theorem firstEnd_le_idxOf (hends : ends.Pairwise (· < ·)) {stop bound : Nat} (hstop : stop ∈ ends) :
    (ends.takeWhile (· < bound)).length ≤ ends.idxOf stop ↔ bound ≤ stop := by
  have hget : ends[ends.idxOf stop]? = some stop := getElem?_idxOf hstop
  have hpartitioned : Partitioned (fun x => decide (x < bound)) ends :=
    hends.imp fun hab hb => by simp at hb ⊢; omega
  have := lt_length_takeWhile_iff hpartitioned hget
  rw [decide_eq_true_eq] at this
  omega

/-- The version and the position that a query looks up have the ranks of the entries that contain
the site. -/
theorem VersionInv.query (h : VersionInv ends entries index) (hends : ends.Pairwise (· < ·))
    (hstops : ∀ e ∈ entries, e.stop ∈ ends) (site : ByteRange) :
    ((index.starts.takeWhile (· ≤ site.start)).length = 0 → containingRanks entries site = ∅) ∧
      ((ends.takeWhile (· < site.stop)).length = ends.length → containingRanks entries site = ∅) ∧
      ((index.starts.takeWhile (· ≤ site.start)).length ≠ 0 →
        LeastOf (containingRanks entries site)
          (index.suffixBest (ends.takeWhile (· < site.stop)).length (ends.length + 1)
            (index.roots.getD ((index.starts.takeWhile (· ≤ site.start)).length - 1) 0) 0
            ends.length)) := by
  have hstarts : Partitioned (fun start => decide (start ≤ site.start)) index.starts :=
    h.starts.imp fun hab hb => by simp at hb ⊢; omega
  have hentry : ∀ e ∈ entries, e.start ≤ site.start →
      ∃ v, v < (index.starts.takeWhile (· ≤ site.start)).length ∧
        index.starts[v]? = some e.start := by
    intro e he hle
    obtain ⟨v, hv⟩ := getElem?_of_mem ((h.mem_starts e.start).mpr ⟨e, he, rfl⟩)
    exact ⟨v, (lt_length_takeWhile_iff hstarts hv).mpr (by simpa using hle), hv⟩
  refine ⟨fun hzero => ?_, fun hlast => ?_, fun hversion => ?_⟩
  · refine Set.eq_empty_of_forall_notMem ?_
    rintro rank ⟨e, he, hcontains, -⟩
    obtain ⟨v, hv, -⟩ := hentry e he (contains_record.mp hcontains).1
    omega
  · refine Set.eq_empty_of_forall_notMem ?_
    rintro rank ⟨e, he, hcontains, -⟩
    have := (firstEnd_le_idxOf hends (hstops e he)).mpr (contains_record.mp hcontains).2
    have := idxOf_lt_length_iff.mpr (hstops e he)
    omega
  · generalize hn : (index.starts.takeWhile (· ≤ site.start)).length = version at *
    have hlt : version - 1 < index.starts.length := by
      have := (List.takeWhile_prefix (fun start => decide (start ≤ site.start))
        (l := index.starts)).length_le
      omega
    have hstart := getElem?_eq_getElem hlt
    have hroot := getElem?_eq_getElem (h.length ▸ hlt)
    have htree := h.roots _ _ _ hstart hroot
    have hspec := suffixBest_spec index (ends.takeWhile (· < site.stop)).length h.zero
      (ends.length + 1) (by omega) htree
    rw [getD_eq_getElem?_getD, hroot]
    have hranks : containingRanks entries site =
        ranksIn (ranksUpTo ends entries index.starts[version - 1])
          (max 0 (ends.takeWhile (· < site.stop)).length) ends.length := by
      rw [Nat.zero_max]
      ext rank
      constructor
      · rintro ⟨e, he, hcontains, rfl⟩
        obtain ⟨hle, hstop⟩ := contains_record.mp hcontains
        refine ⟨ends.idxOf e.stop, (firstEnd_le_idxOf hends (hstops e he)).mpr hstop,
          idxOf_lt_length_iff.mpr (hstops e he), e, he, ?_, rfl⟩
        obtain ⟨v, hv, hget⟩ := hentry e he hle
        obtain ⟨hv', heq⟩ := List.getElem?_eq_some_iff.mp hget
        rw [← heq]
        -- the version is the last one that starts early enough
        rcases (by omega : v ≤ version - 1).lt_or_eq with hv | rfl
        · exact (pairwise_iff_getElem.mp h.starts v (version - 1) hv' hlt hv).le
        · exact le_rfl
      · rintro ⟨p, hp, -, e, he, hle, heq⟩
        obtain ⟨rfl, rfl⟩ := Prod.mk.inj heq
        refine ⟨e, he, contains_record.mpr ⟨hle.trans ?_, ?_⟩, rfl⟩
        · have := (lt_length_takeWhile_iff hstarts hstart).mp (by omega)
          simpa using this
        · exact (firstEnd_le_idxOf hends (hstops e he)).mp hp
    rw [hranks]
    exact hspec

end Versions

/-! ## The scan -/

section Scan

variable (source : SourceInventory) (site : ByteRange)

/-- The active units that contain a site. -/
def containingUnits : List WrittenUnit :=
  source.units.filter fun unit => unit.cfgState = .active && unit.fullRange.contains site

def unitDepth (unit : WrittenUnit) : Nat :=
  parentDepth source.units source.units.length unit.id.index

/-- A unit is shorter than another one, or as long and at least as deep. -/
def isInner (unit other : WrittenUnit) : Bool :=
  unit.fullRange.len < other.fullRange.len ||
    unit.fullRange.len = other.fullRange.len && unitDepth source other ≤ unitDepth source unit

/-- The innermost of the active units that contain a site. -/
def innermostUnits : List WrittenUnit :=
  (containingUnits source site).filter fun unit =>
    (containingUnits source site).all (isInner source unit)

end Scan

section Entries

variable {source : SourceInventory} {depths : List Nat} {site : ByteRange}

/-- The entry of an active unit. -/
def unitEntry (depths : List Nat) (unit : WrittenUnit) : Entry where
  start := unit.fullRange.start
  stop := unit.fullRange.stop
  rank := toLex (unit.fullRange.len, OrderDual.toDual (depths.getD unit.id.index 0))
  id := unit.id

theorem mem_entries {entry : Entry} : entry ∈ entries source depths ↔
    ∃ unit ∈ source.units, unit.cfgState = .active ∧ unitEntry depths unit = entry := by
  rw [entries, mem_insertionSort]
  simp only [mem_map, mem_filter, decide_eq_true_eq, and_assoc]
  exact Iff.rfl

theorem nodup_entries_id (hids : ∀ (i : Nat) (unit : WrittenUnit), source.units[i]? = some unit →
    unit.id.index = i) : ((entries source depths).map Entry.id).Nodup := by
  have hperm := ((source.units.filter fun unit => unit.cfgState = .active).map
    (unitEntry depths)).perm_insertionSort (· ≤ ·)
  refine ((hperm.map Entry.id).nodup_iff).mpr ?_
  rw [map_map]
  have hnodup : (source.units.map WrittenUnit.id).Nodup := by
    rw [nodup_iff_getElem?_ne_getElem?]
    intro i j hij hj heq
    rw [length_map] at hj
    rw [getElem?_map, getElem?_map, getElem?_eq_getElem hj,
      getElem?_eq_getElem (hij.trans hj)] at heq
    have hi := hids i _ (getElem?_eq_getElem (hij.trans hj))
    have hj' := hids j _ (getElem?_eq_getElem hj)
    have := congrArg SourceUnitId.index (Option.some.inj heq)
    omega
  exact hnodup.sublist (List.Sublist.map _ filter_sublist)

theorem mem_containingUnits {unit : WrittenUnit} : unit ∈ containingUnits source site ↔
    unit ∈ source.units ∧ unit.cfgState = .active ∧ unit.fullRange.contains site = true := by
  simp [containingUnits]

/-- Innermost units are those of the least rank. -/
theorem mem_innermostUnits
    (hchecked : ∀ (i : Nat) (unit : WrittenUnit), source.units[i]? = some unit →
      unit.id.index = i ∧ unit.fullRange.start ≤ unit.fullRange.stop)
    (hdepths : ∀ i < source.units.length,
      depths.getD i 0 = parentDepth source.units source.units.length i)
    {rank : OwnerRank} (hrank : IsLeast (containingRanks (entries source depths) site) rank)
    {unit : WrittenUnit} : unit ∈ innermostUnits source site ↔
      unit ∈ containingUnits source site ∧ (unitEntry depths unit).rank = rank := by
  have hdepth : ∀ {unit : WrittenUnit}, unit ∈ source.units →
      depths.getD unit.id.index 0 = unitDepth source unit := by
    intro unit hunit
    obtain ⟨i, hi⟩ := getElem?_of_mem hunit
    rw [(hchecked i unit hi).1, unitDepth, (hchecked i unit hi).1]
    exact hdepths i (List.getElem?_eq_some_iff.mp hi).1
  have hinner : ∀ {unit other : WrittenUnit}, unit ∈ source.units → other ∈ source.units →
      (isInner source unit other = true ↔
        (unitEntry depths unit).rank ≤ (unitEntry depths other).rank) := by
    intro unit other hunit hother
    rw [isInner, ← hdepth hunit, ← hdepth hother]
    simp [unitEntry, Prod.Lex.toLex_le_toLex]
  have hcontaining : ∀ {unit : WrittenUnit}, unit ∈ containingUnits source site →
      (unitEntry depths unit).rank ∈ containingRanks (entries source depths) site := by
    intro unit hunit
    obtain ⟨hmem, hactive, hcontains⟩ := mem_containingUnits.mp hunit
    exact ⟨_, mem_entries.mpr ⟨unit, hmem, hactive, rfl⟩, hcontains, rfl⟩
  rw [innermostUnits, mem_filter, all_eq_true]
  refine and_congr_right fun hunit => ?_
  have hmem := (mem_containingUnits.mp hunit).1
  constructor
  · intro hall
    refine le_antisymm ?_ (hrank.2 (hcontaining hunit))
    obtain ⟨e, he, hcontains, rfl⟩ := hrank.1
    obtain ⟨other, hother, hactive, rfl⟩ := mem_entries.mp he
    have hother' := mem_containingUnits.mpr ⟨hother, hactive, hcontains⟩
    exact (hinner hmem hother).mp (hall other hother')
  · rintro rfl other hother
    exact (hinner hmem (mem_containingUnits.mp hother).1).mpr (hrank.2 (hcontaining hother))

end Entries

theorem mem_sortOwners {owners : List OwnerRecord} {owner : OwnerRecord} :
    owner ∈ sortOwners owners ↔ owner ∈ owners := mem_insertionSort _

theorem pairwise_sortOwners (owners : List OwnerRecord) :
    (sortOwners owners).Pairwise fun a b => a.range.start ≤ b.range.start := by
  let key : OwnerRecord → Nat ×ₗ SourceUnitId := fun owner => toLex (owner.range.start, owner.id)
  have htotal : Std.Total fun a b : OwnerRecord => key a ≤ key b := ⟨fun a b => le_total _ _⟩
  have htrans : IsTrans OwnerRecord fun a b => key a ≤ key b := ⟨fun a b c => le_trans⟩
  refine (pairwise_insertionSort (fun a b => key a ≤ key b) owners).imp fun {a b} hab => ?_
  rcases Prod.Lex.le_iff.mp hab with h | h
  · exact h.le
  · exact h.1.le

/-- The owners of a rank that a query goes through. -/
theorem mem_bucket {entries : List Entry} {site : ByteRange} {rank : OwnerRank}
    (hlen : ∀ e ∈ entries, e.start + (ofLex e.rank).1 = e.stop) {owner : OwnerRecord} :
    owner ∈ (((sortOwners ((entries.filter fun e => e.rank = rank).map Entry.record)).dropWhile
        fun owner => owner.range.start < site.stop - (ofLex rank).1).takeWhile
          fun owner => owner.range.start ≤ site.start).filter
            (fun owner => owner.range.contains site) ↔
      ∃ e ∈ entries, e.rank = rank ∧ e.record.range.contains site = true ∧ e.record = owner := by
  have hsorted := pairwise_sortOwners ((entries.filter fun e => e.rank = rank).map Entry.record)
  rw [mem_filter, mem_slice_iff (hsorted.imp fun hab hb => by simp at hb ⊢; omega)
    (hsorted.imp fun hab hb => by simp at hb ⊢; omega), mem_sortOwners, mem_map]
  simp only [mem_filter, decide_eq_true_eq, decide_eq_false_iff_not]
  constructor
  · rintro ⟨⟨⟨e, ⟨he, hr⟩, rfl⟩, -, -⟩, hcontains⟩
    exact ⟨e, he, hr, hcontains, rfl⟩
  · rintro ⟨e, he, rfl, hcontains, rfl⟩
    obtain ⟨hstart, hstop⟩ := contains_record.mp hcontains
    have := hlen e he
    refine ⟨⟨⟨e, ⟨he, rfl⟩, rfl⟩, ?_, hstart⟩, hcontains⟩
    show ¬e.start < site.stop - (ofLex e.rank).1
    omega

/-- The owners of a rank that a query goes through. -/
def bucket (index : SourceSiteOwnerIndex) (site : ByteRange) (rank : OwnerRank) :
    List OwnerRecord :=
  ((((index.ownersByRank rank).dropWhile fun owner =>
    owner.range.start < site.stop - (ofLex rank).1).takeWhile fun owner =>
      owner.range.start ≤ site.start).filter fun owner => owner.range.contains site)

/-- The best rank that a query finds. -/
def queryRank (index : SourceSiteOwnerIndex) (site : ByteRange) : Option OwnerRank :=
  index.suffixBest (index.ends.takeWhile (· < site.stop)).length (index.ends.length + 1)
    (index.roots.getD ((index.starts.takeWhile (· ≤ site.start)).length - 1) 0) 0
    index.ends.length

theorem owners_of_none (index : SourceSiteOwnerIndex) (site : ByteRange)
    (h : (index.starts.takeWhile (· ≤ site.start)).length ≠ 0 → queryRank index site = none) :
    index.owners site = .error .invalidGraph := by
  unfold owners
  dsimp only
  by_cases hversion : (index.starts.takeWhile (· ≤ site.start)).length = 0
  · rw [if_pos hversion]
    rfl
  · rw [if_neg hversion]
    by_cases hend : (index.ends.takeWhile (· < site.stop)).length = index.ends.length
    · rw [if_pos hend]
      rfl
    · rw [if_neg hend, ← queryRank, h hversion]
      rfl

theorem owners_of_some (index : SourceSiteOwnerIndex) (site : ByteRange) {rank : OwnerRank}
    (hversion : (index.starts.takeWhile (· ≤ site.start)).length ≠ 0)
    (hend : (index.ends.takeWhile (· < site.stop)).length ≠ index.ends.length)
    (h : queryRank index site = some rank) (hbucket : bucket index site rank ≠ []) :
    index.owners site =
      .ok (((bucket index site rank).map OwnerRecord.id).insertionSort (· ≤ ·)) := by
  unfold owners
  dsimp only
  rw [if_neg hversion, if_neg hend, ← queryRank, h]
  dsimp only
  rw [if_neg (by simpa [bucket] using hbucket)]
  rfl

/-- A query only looks at the nodes. -/
theorem suffixBest_congr {index index' : SourceSiteOwnerIndex} (h : index.nodes = index'.nodes)
    (start limit root first last : Nat) :
    index.suffixBest start limit root first last =
      index'.suffixBest start limit root first last := by
  induction limit generalizing root first last with
  | zero => rfl
  | succ limit ih => simp only [suffixBest, h, ih]

section Answer

variable {source : SourceInventory} {depths : List Nat} {site : ByteRange} {rank : OwnerRank}
  {versions index : SourceSiteOwnerIndex}

/-- A rank is met if and only if some unit contains the site. -/
theorem containingRanks_eq_empty :
    containingRanks (entries source depths) site = ∅ ↔ containingUnits source site = [] := by
  constructor
  · intro hempty
    refine eq_nil_iff_forall_not_mem.mpr fun unit hunit => ?_
    obtain ⟨hmem, hactive, hcontains⟩ := mem_containingUnits.mp hunit
    have hrank : (unitEntry depths unit).rank ∈ containingRanks (entries source depths) site :=
      ⟨_, mem_entries.mpr ⟨unit, hmem, hactive, rfl⟩, hcontains, rfl⟩
    rw [hempty] at hrank
    exact hrank
  · intro hnone
    refine Set.eq_empty_of_forall_notMem ?_
    rintro rank ⟨e, he, hcontains, -⟩
    obtain ⟨unit, hunit, hactive, rfl⟩ := mem_entries.mp he
    have hmem := mem_containingUnits.mpr ⟨hunit, hactive, hcontains⟩
    rw [hnone] at hmem
    exact not_mem_nil hmem

/-- The bucket of the best rank has the innermost units. -/
theorem bucket_ids
    (hchecked : ∀ (i : Nat) (unit : WrittenUnit), source.units[i]? = some unit →
      unit.id.index = i ∧ unit.fullRange.start ≤ unit.fullRange.stop)
    (hdepths : ∀ i < source.units.length,
      depths.getD i 0 = parentDepth source.units source.units.length i)
    (hrank : IsLeast (containingRanks (entries source depths) site) rank)
    (hbucket : ∀ owner, owner ∈ bucket index site rank ↔ ∃ e ∈ entries source depths,
      e.rank = rank ∧ e.record.range.contains site = true ∧ e.record = owner)
    (id : SourceUnitId) : id ∈ (bucket index site rank).map OwnerRecord.id ↔
      id ∈ (innermostUnits source site).map WrittenUnit.id := by
  simp only [mem_map, hbucket, mem_innermostUnits hchecked hdepths hrank, mem_containingUnits]
  constructor
  · rintro ⟨_, ⟨e, he, hr, hcontains, rfl⟩, rfl⟩
    obtain ⟨unit, hunit, hactive, rfl⟩ := mem_entries.mp he
    exact ⟨unit, ⟨⟨hunit, hactive, hcontains⟩, hr⟩, rfl⟩
  · rintro ⟨unit, ⟨⟨hunit, hactive, hcontains⟩, hr⟩, rfl⟩
    exact ⟨_, ⟨_, mem_entries.mpr ⟨unit, hunit, hactive, rfl⟩, hr, hcontains, rfl⟩, rfl⟩

/-- No unit is twice in a bucket. -/
theorem nodup_bucket (hids : ∀ (i : Nat) (unit : WrittenUnit), source.units[i]? = some unit →
      unit.id.index = i)
    (howners : index.ownersByRank rank =
      sortOwners (((entries source depths).filter fun e => e.rank = rank).map Entry.record)) :
    ((bucket index site rank).map OwnerRecord.id).Nodup := by
  have hnodup : ((sortOwners (((entries source depths).filter fun e => e.rank = rank).map
      Entry.record)).map OwnerRecord.id).Nodup := by
    refine (((perm_insertionSort _ _).map OwnerRecord.id).nodup_iff).mpr ?_
    rw [map_map]
    exact (nodup_entries_id hids).sublist (List.Sublist.map _ filter_sublist)
  refine hnodup.sublist (List.Sublist.map _ ?_)
  rw [bucket, howners]
  exact filter_sublist.trans ((takeWhile_sublist _).trans (dropWhile_suffix _).sublist)

end Answer

/-- The index answers every query like a scan over all units. -/
theorem owners_eq_scan {source : SourceInventory} {index : SourceSiteOwnerIndex}
    (h : new source = .ok index) (site : ByteRange) :
    index.owners site =
      if containingUnits source site = [] then .error .invalidGraph
      else .ok (sortDedup ((innermostUnits source site).map WrittenUnit.id)) := by
  rw [new] at h
  obtain ⟨depths, hdepths, h⟩ := bind_ok h
  obtain ⟨hchecked, hdepths⟩ := sourceUnitDepths_ok hdepths
  have hids := fun i (unit : WrittenUnit) h => (hchecked i unit h).1
  have hlen : ∀ e ∈ entries source depths, e.start + (ofLex e.rank).1 = e.stop := by
    intro e he
    obtain ⟨unit, hunit, -, rfl⟩ := mem_entries.mp he
    obtain ⟨i, hi⟩ := getElem?_of_mem hunit
    exact Nat.add_sub_cancel' (hchecked i unit hi).2
  have hstops : ∀ e ∈ entries source depths,
      e.stop ∈ sortDedup ((entries source depths).map Entry.stop) := fun e he =>
    mem_sortDedup.mpr (mem_map_of_mem he)
  have hsorted : (entries source depths).Pairwise (· ≤ ·) := pairwise_insertionSort _ _
  have hv := versionInv_foldl hsorted hstops
  obtain ⟨hversion, hend, hbest⟩ := hv.query (pairwise_sortDedup _) hstops site
  -- the index is the last state of the loop, with its buckets sorted
  obtain ⟨versions, hversions⟩ : ∃ versions, versions = (entries source depths).foldl addEntry
    ⟨[], [], sortDedup ((entries source depths).map Entry.stop), [.empty], fun _ => []⟩ := ⟨_, rfl⟩
  rw [← hversions] at hv hversion hbest
  have hindex : index =
      { versions with ownersByRank := fun rank => sortOwners (versions.ownersByRank rank) } := by
    rw [hversions]
    exact (Except.ok.inj h).symm
  have hstarts : index.starts = versions.starts := by rw [hindex]
  have hroots : index.roots = versions.roots := by rw [hindex]
  have hnodes : index.nodes = versions.nodes := by rw [hindex]
  have hends : index.ends = sortDedup ((entries source depths).map Entry.stop) := by
    rw [hindex]
    exact hv.ends_eq
  have howners : ∀ rank, index.ownersByRank rank =
      sortOwners (((entries source depths).filter fun e => e.rank = rank).map Entry.record) := by
    intro rank
    rw [← hv.byRank, hindex]
  rw [← hstarts] at hversion hbest
  rw [← hroots, ← hends] at hbest
  simp only [← suffixBest_congr hnodes] at hbest
  by_cases hnone : containingUnits source site = []
  · rw [if_pos hnone]
    have hempty : containingRanks (entries source depths) site = ∅ :=
      containingRanks_eq_empty.mpr hnone
    refine owners_of_none index site fun hversion' => ?_
    have hleast : LeastOf _ (queryRank index site) := hbest hversion'
    rw [hempty] at hleast
    cases hq : queryRank index site with
    | none => rfl
    | some rank =>
      rw [hq] at hleast
      exact absurd hleast.1 (Set.notMem_empty _)
  · rw [if_neg hnone]
    have hranks : containingRanks (entries source depths) site ≠ ∅ :=
      fun h => hnone (containingRanks_eq_empty.mp h)
    have hversion' := fun h => hranks (hversion h)
    have hleast : LeastOf _ (queryRank index site) := hbest hversion'
    cases hq : queryRank index site with
    | none =>
      rw [hq] at hleast
      exact absurd hleast hranks
    | some rank =>
      rw [hq] at hleast
      have hbucket : ∀ owner, owner ∈ bucket index site rank ↔ ∃ e ∈ entries source depths,
          e.rank = rank ∧ e.record.range.contains site = true ∧ e.record = owner := by
        intro owner
        rw [bucket, howners]
        exact mem_bucket hlen
      rw [owners_of_some index site hversion' (by rw [hends]; exact fun h => hranks (hend h)) hq]
      · refine congrArg Except.ok (insertionSort_eq_sortDedup (nodup_bucket hids (howners rank)) ?_)
        exact bucket_ids hchecked hdepths hleast hbucket
      · obtain ⟨e, he, hcontains, hr⟩ := hleast.1
        exact ne_nil_of_mem ((hbucket _).mpr ⟨e, he, hr, hcontains, rfl⟩)

/-- A crate of one item, with a nested item of the same range. -/
def nestedSource : SourceInventory where
  original := ['a', ';']
  units := [⟨⟨0⟩, .crateRoot, ⟨0, 2⟩, none, .active, ⟨0⟩, 0⟩,
    ⟨⟨1⟩, .item, ⟨0, 1⟩, some ⟨0⟩, .active, ⟨0⟩, 0⟩,
    ⟨⟨2⟩, .nestedItem, ⟨0, 1⟩, some ⟨1⟩, .active, ⟨0⟩, 0⟩]
  pieces := []
  deriveTargets := []
  macroRules := []
  macroTemplates := []
  macroCaptureSlots := []
  macroRepetitions := []
  ownerlessAttributeInvocations := []

theorem owners_eq_scan_nested :
    ∃ index, new nestedSource = .ok index ∧ index.owners ⟨0, 1⟩ = .ok [⟨2⟩] := by
  refine ⟨_, rfl, ?_⟩
  exact (owners_eq_scan (show new nestedSource = .ok _ from rfl) ⟨0, 1⟩).trans rfl

end SourceSiteOwnerIndex

end ItemDependencies
