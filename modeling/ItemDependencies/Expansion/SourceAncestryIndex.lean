import ItemDependencies.Expansion.SourceAncestryWalk

/-!
# The ancestry index

What the construction accepts, and what the tables of the index say about the forest.
-/

namespace ItemDependencies

open Library List

variable {parents : List (Option SourceUnitId)} {index : SourceAncestryIndex} {out : List Nat}
  {walk : AncestryWalk} {table : List SourceUnitId}

/-! ## Jumps -/

/-- The table of the jumps of one length. -/
def JumpTable (parents : List (Option SourceUnitId)) (steps : Nat) (table : List SourceUnitId) :
    Prop :=
  table.length = parents.length ∧
    ∀ i < parents.length, table[i]? = some ⟨climb (parentPosition parents) steps i⟩

theorem firstJump_table (hcount : parents.length ≤ u32Size) :
    ∃ table, parents.zipIdx.mapM firstJump = .ok table ∧ JumpTable parents 1 table := by
  let table : List SourceUnitId := parents.zipIdx.map fun entry => entry.1.getD ⟨entry.2⟩
  have hall : ∀ entry ∈ parents.zipIdx, firstJump entry = .ok (entry.1.getD ⟨entry.2⟩) := by
    rintro ⟨parent, i⟩ hmem
    have hlt := (List.getElem?_eq_some_iff.mp (mem_zipIdx_iff_getElem?.mp hmem)).1
    rw [firstJump, unitId_of_lt (hlt.trans_le hcount)]
    rfl
  refine ⟨table, mapM_total ?_, by rw [length_map, length_zipIdx], fun i hi => ?_⟩
  · exact forall₂_map_right_iff.mpr (forall₂_same.mpr hall)
  · rw [getElem?_map, getElem?_zipIdx, getElem?_eq_getElem hi, Nat.zero_add]
    have hclimb : climb (parentPosition parents) 1 i = (parentPosition parents i).getD i := rfl
    rw [hclimb, parentPosition, getElem?_eq_getElem hi]
    cases parents[i] <;> rfl

theorem lt_u32Size_of_firstJump (h : parents.zipIdx.mapM firstJump = .ok table) :
    parents.length ≤ u32Size := by
  by_contra hlt
  obtain ⟨parent, hget⟩ : ∃ parent, parents[u32Size]? = some parent :=
    ⟨_, getElem?_eq_getElem (not_le.mp hlt)⟩
  obtain ⟨unit, hunit, -⟩ := (forall_mem_mapM h (Q := fun _ => True)).mp (fun _ _ => trivial)
    (parent, u32Size) (mem_zipIdx_iff_getElem?.mpr hget)
  obtain ⟨found, hfound, -⟩ := bind_ok hunit
  exact absurd (unitId_ok hfound).1 (lt_irrefl _)

theorem JumpTable.double (hknown : ParentsKnown parents) {steps : Nat}
    (h : JumpTable parents steps table) :
    JumpTable parents (steps + steps) (doubleJumps table) := by
  refine ⟨by rw [doubleJumps, length_map, h.1], fun i hi => ?_⟩
  have hlt := hknown.below_lt hi (below_climb steps i)
  rw [doubleJumps, getElem?_map, h.2 i hi, Option.map_some, h.2 _ hlt, climb_add]
  rfl

theorem JumpTable.iterate (hknown : ParentsKnown parents) (h : JumpTable parents 1 table)
    (level : Nat) : JumpTable parents (2 ^ level) (doubleJumps^[level] table) := by
  induction level with
  | zero => exact h
  | succ level ih =>
    rw [Function.iterate_succ_apply', pow_succ, Nat.mul_two]
    exact ih.double hknown

theorem lt_jumpLevels (count : Nat) : count < 2 ^ jumpLevels count :=
  (le_max_left count 1).trans_lt Nat.lt_log2_self

/-! ## Construction -/

/-- What the tables of the index say about the forest. -/
structure IsAncestryIndex (parents : List (Option SourceUnitId)) (index : SourceAncestryIndex) :
    Prop where
  parents_eq : index.parents = parents
  known : ParentsKnown parents
  order : ∃ out, Traversal (unitChildren parents) (forestRoots parents) out ∧ out.Nodup ∧
    (∀ i, i ∈ out ↔ i < parents.length) ∧
    (∀ k i : Nat, out[k]? = some i → index.entryAt i = k) ∧
    ∀ (k i : Nat) below, out[k]? = some i →
      Traversal (unitChildren parents) (unitChildren parents i) below →
        index.exitAt i = k + 1 + below.length
  outside : ∀ i, parents.length ≤ i → index.entryAt i = 0 ∧ index.exitAt i = 0
  root : ∀ i < parents.length, ∃ root, index.roots[i]? = some root ∧ IsRoot parents i root
  depth : IsDepth (parentPosition parents) index.depthAt
  jump : ∀ level < index.jumps.length, ∀ i,
    index.jumpAt level i = climb (parentPosition parents) (2 ^ level) i
  small : parents.length ≤ u32Size
  levels : parents.length < 2 ^ index.jumps.length

theorem exists_isRoot (hknown : ParentsKnown parents)
    (hacyclic : ∀ i, ¬Relation.TransGen (Up (parentPosition parents)) i i) {i : Nat}
    (hi : i < parents.length) : ∃ root, IsRoot parents i root := by
  have hgrounded := (forall_grounded_iff (parentPosition parents) (Finset.range parents.length)).mpr
    ⟨fun a _ p hp => Finset.mem_range.mpr (hknown.lt hp), fun a _ => hacyclic a⟩ i
    (Finset.mem_range.mpr hi)
  obtain ⟨r, -, hroot, hbelow⟩ := hgrounded.exists_root
  exact ⟨⟨r⟩, hroot, hbelow⟩

/-- A walk that has counted all units has reached them. -/
theorem WalkedRoots.mem_of_length (h : WalkedRoots parents (forestRoots parents) out walk)
    (hlength : out.length = parents.length) {i : Nat} : i ∈ out ↔ i < parents.length := by
  refine ⟨h.lt i, fun hi => ?_⟩
  have hsub : out.Subperm (List.range parents.length) :=
    h.nodup.subperm fun j hj => mem_range.mpr (h.lt j hj)
  have hperm := hsub.perm_of_length_le (by rw [length_range, hlength])
  exact hperm.mem_iff.mpr (mem_range.mpr hi)

/-- The units that are placed have different entries. -/
theorem placeUnits_total {entries : List Nat} (hcount : entries.length ≤ u32Size)
    (hlt : ∀ e ∈ entries, e < entries.length) (hnodup : entries.Nodup) :
    ∃ byEntry, entries.zipIdx.foldlM placeUnit (List.replicate entries.length unsetUnit) =
      .ok byEntry := by
  have key := foldlM_total (f := placeUnit) (l := entries.zipIdx)
    (s := List.replicate entries.length unsetUnit) (P := fun done byEntry =>
      ∀ e < entries.length, e ∉ done.map Prod.fst → byEntry[e]? = some unsetUnit)
    (fun done entry rest byEntry hsplit h => ?_)
    (fun e he _ => getElem?_replicate_of_lt he)
  · obtain ⟨byEntry, hrun, -⟩ := key
    exact ⟨byEntry, hrun⟩
  · have hmem : entry ∈ entries.zipIdx := by
      rw [hsplit]
      exact mem_append_right _ mem_cons_self
    have hget := mem_zipIdx_iff_getElem?.mp hmem
    have hindex := (List.getElem?_eq_some_iff.mp hget).1
    have hfst : entries = done.map Prod.fst ++ entry.1 :: rest.map Prod.fst := by
      have hmap := congrArg (List.map Prod.fst) hsplit
      rwa [zipIdx_map_fst, map_append, map_cons] at hmap
    have hfresh : entry.1 ∉ done.map Prod.fst := by
      rw [hfst] at hnodup
      exact fun hin => (nodup_append.mp hnodup).2.2 _ hin _ mem_cons_self rfl
    have hplace := h entry.1 (hlt _ (mem_of_getElem? hget)) hfresh
    refine ⟨byEntry.set entry.1 ⟨entry.2⟩, ?_, fun e he hnot => ?_⟩
    · rw [placeUnit, unitId_of_lt (hindex.trans_le hcount)]
      show (if _ then _ else _) = _
      rw [if_neg (not_not.mpr hplace)]
      rfl
    · rw [map_append, mem_append, not_or] at hnot
      have hne : entry.1 ≠ e := fun heq => hnot.2 (by simp [heq])
      rw [getElem?_set_ne hne]
      exact h e he hnot.1

/-- The unit at a position of the walk has this position as its entry. -/
theorem WalkedRoots.entries_eq (h : WalkedRoots parents (forestRoots parents) out walk) {k i : Nat}
    (hk : out[k]? = some i) : walk.entries[i]? = some k := by
  rw [h.entered.entries k i hk]
  exact congrArg some (Nat.zero_add k)

theorem WalkedRoots.exits_eq (h : WalkedRoots parents (forestRoots parents) out walk) {k i : Nat}
    {below : List Nat} (hk : out[k]? = some i)
    (hbelow : Traversal (unitChildren parents) (unitChildren parents i) below) :
    walk.exits[i]? = some (k + 1 + below.length) := by
  rw [h.entered.exits k i below hk hbelow]
  exact congrArg some (Nat.zero_add _)

section Complete

variable {walk : AncestryWalk} (h : WalkedRoots parents (forestRoots parents) out walk)
  (hall : ∀ i, i ∈ out ↔ i < parents.length)

include h hall

/-- The entries are the positions of the walk. -/
theorem WalkedRoots.entries_perm : walk.entries.Nodup ∧ ∀ e ∈ walk.entries, e < parents.length := by
  have hat : ∀ {i e : Nat}, walk.entries[i]? = some e → out[e]? = some i := by
    intro i e he
    have hi : i < parents.length := h.sized.entries ▸ (List.getElem?_eq_some_iff.mp he).1
    obtain ⟨k, hk⟩ := getElem?_of_mem ((hall i).mpr hi)
    rw [h.entries_eq hk] at he
    cases he
    exact hk
  have hlength : out.length = parents.length := by
    have hperm : out.Perm (List.range parents.length) :=
      (perm_ext_iff_of_nodup h.nodup nodup_range).mpr fun i =>
        (hall i).trans mem_range.symm
    rw [hperm.length_eq, length_range]
  constructor
  · refine nodup_iff_getElem?_ne_getElem?.mpr fun i j hij hj heq => ?_
    rw [getElem?_eq_getElem hj] at heq
    have hi := hat heq
    rw [hat (getElem?_eq_getElem hj)] at hi
    exact hij.ne (Option.some.inj hi).symm
  · intro e he
    obtain ⟨i, hi⟩ := getElem?_of_mem he
    exact hlength ▸ (List.getElem?_eq_some_iff.mp (hat hi)).1

theorem WalkedRoots.left (hcount : parents.length ≤ u32Size) : unsetEntry ∉ walk.exits := by
  intro hmem
  obtain ⟨i, hi⟩ := getElem?_of_mem hmem
  have hlt : i < parents.length := h.sized.exits ▸ (List.getElem?_eq_some_iff.mp hi).1
  obtain ⟨k, hk⟩ := getElem?_of_mem ((hall i).mpr hlt)
  obtain ⟨below, after, hbelow, hdrop⟩ := h.traversal.drop_eq hk
  rw [h.exits_eq hk hbelow, Option.some.injEq] at hi
  -- the exit is a position of the walk
  have hlength := congrArg List.length hdrop
  have hout : out.Subperm (List.range parents.length) :=
    h.nodup.subperm fun j hj => mem_range.mpr (h.lt j hj)
  have hle := hout.length_le
  rw [length_drop, length_cons, length_append] at hlength
  rw [length_range] at hle
  unfold unsetEntry at hi
  unfold u32Size at hi hcount
  omega

end Complete

/-- The depths that the walk has noted. -/
theorem WalkedRoots.isDepth (h : WalkedRoots parents (forestRoots parents) out walk)
    (hall : ∀ i, i ∈ out ↔ i < parents.length) (hknown : ParentsKnown parents) :
    IsDepth (parentPosition parents) fun i => walk.depths[i]?.getD 0 where
  root := by
    intro i hroot
    have hno : ∀ a ∈ out, i ∉ unitChildren parents a := fun a _ hi => by
      cases hroot.symm.trans (mem_unitChildren.mp hi)
    rw [h.entered.sameDepth i hno, AncestryWalk.start, getElem?_replicate]
    split <;> rfl
  child := by
    intro i p hparent
    exact h.entered.depths p ((hall p).mpr (hknown.lt hparent)) i (mem_unitChildren.mpr hparent)

/-- The tables of an accepted forest. -/
theorem isAncestryIndex_of_walk {byEntry jumps : List SourceUnitId}
    (h : WalkedRoots parents (forestRoots parents) out walk)
    (hall : ∀ i, i ∈ out ↔ i < parents.length) (hknown : ParentsKnown parents)
    (hcount : parents.length ≤ u32Size) (hjumps : JumpTable parents 1 jumps) :
    IsAncestryIndex parents ⟨parents, walk.depths, walk.roots, walk.entries, walk.exits, byEntry,
      List.iterate doubleJumps jumps (jumpLevels parents.length)⟩ where
  parents_eq := rfl
  known := hknown
  order := by
    refine ⟨out, h.traversal, h.nodup, hall, fun k i hk => ?_, fun k i below hk hbelow => ?_⟩
    · rw [SourceAncestryIndex.entryAt, h.entries_eq hk]
      rfl
    · rw [SourceAncestryIndex.exitAt, h.exits_eq hk hbelow]
      rfl
  outside i hi := by
    rw [SourceAncestryIndex.entryAt, SourceAncestryIndex.exitAt,
      getElem?_eq_none (h.sized.entries ▸ hi), getElem?_eq_none (h.sized.exits ▸ hi)]
    exact ⟨rfl, rfl⟩
  root i hi := h.entered.roots i ((hall i).mpr hi)
  depth := h.isDepth hall hknown
  jump level hlevel i := by
    rw [length_iterate] at hlevel
    rw [SourceAncestryIndex.jumpAt, getElem?_iterate _ _ _ _ hlevel, Option.bind_some]
    have htable := hjumps.iterate hknown level
    rcases lt_or_ge i parents.length with hi | hi
    · rw [htable.2 i hi]
      rfl
    · have hroot : parentPosition parents i = none := by
        rw [parentPosition, getElem?_eq_none hi]
        rfl
      rw [getElem?_eq_none (htable.1 ▸ hi), climb_root hroot]
      rfl
  small := hcount
  levels := by
    rw [length_iterate]
    exact lt_jumpLevels parents.length

namespace SourceAncestryIndex

theorem fromParents_ok (h : fromParents parents = .ok index) :
    IsAncestryIndex parents index ∧ ∀ i, ¬Relation.TransGen (Up (parentPosition parents)) i i := by
  unfold fromParents at h
  obtain ⟨hvalid, h⟩ := guard_ok h
  rw [Bool.not_eq_true', Bool.not_eq_false, validParents_iff] at hvalid
  obtain ⟨walk, hwalk, h⟩ := bind_ok h
  obtain ⟨hcounted, h⟩ := guard_ok h
  obtain ⟨byEntry, -, h⟩ := bind_ok h
  obtain ⟨jumps, hjumps, h⟩ := bind_ok h
  cases h
  have hcount := lt_u32Size_of_firstJump hjumps
  obtain ⟨table, htable, hfirst⟩ := firstJump_table hcount
  cases hjumps.symm.trans htable
  obtain ⟨walk', out, hwalk', hwalked⟩ := walkTrees_total hcount
  cases hwalk.symm.trans hwalk'
  rw [not_or, not_not] at hcounted
  have hlength : out.length = parents.length := by
    have hnext := hwalked.entered.nextEntry
    rw [hcounted.1] at hnext
    exact (hnext.trans (Nat.zero_add _)).symm
  have hall : ∀ i, i ∈ out ↔ i < parents.length := fun i => hwalked.mem_of_length hlength
  refine ⟨isAncestryIndex_of_walk hwalked hall hvalid.1 hcount hfirst, fun i hcycle => ?_⟩
  obtain ⟨p, hup, -⟩ := Relation.TransGen.head'_iff.mp hcycle
  have hi : i ∈ out := (hall i).mpr (lt_of_parentPosition hup)
  exact hwalked.traversal.irrefl hi (trans_child_iff_up.mpr hcycle)

theorem fromParents_total (hcount : parents.length ≤ u32Size) (hknown : ParentsKnown parents)
    (hacyclic : ∀ i, ¬Relation.TransGen (Up (parentPosition parents)) i i) :
    ∃ index, fromParents parents = .ok index := by
  have hvalid : validParents parents = true :=
    validParents_iff.mpr ⟨hknown, fun i hself => hacyclic i (.single hself)⟩
  obtain ⟨walk, out, hwalk, h⟩ := walkTrees_total hcount
  obtain ⟨table, htable, -⟩ := firstJump_table hcount
  have hall : ∀ i, i ∈ out ↔ i < parents.length := fun i =>
    (h.mem_iff hknown).trans (and_iff_left_of_imp fun hi => exists_isRoot hknown hacyclic hi)
  obtain ⟨hnodup, hlt⟩ := h.entries_perm hall
  rw [← h.sized.entries] at hlt hcount
  obtain ⟨byEntry, hplace⟩ := placeUnits_total hcount hlt hnodup
  rw [h.sized.entries] at hplace hcount
  have hcounted : ¬(walk.nextEntry ≠ parents.length ∨ unsetEntry ∈ walk.exits) := by
    have hperm : out.Perm (List.range parents.length) :=
      (perm_ext_iff_of_nodup h.nodup nodup_range).mpr fun i =>
        (hall i).trans mem_range.symm
    have hnext := h.entered.nextEntry
    rw [hperm.length_eq, length_range] at hnext
    rw [not_or, not_not]
    exact ⟨hnext.trans (Nat.zero_add _), h.left hall hcount⟩
  unfold fromParents
  rw [hvalid, if_neg (by decide), hwalk]
  show ∃ index, (if walk.nextEntry ≠ parents.length ∨ unsetEntry ∈ walk.exits then _ else _) = _
  rw [if_neg hcounted, hplace, htable]
  exact ⟨_, rfl⟩

end SourceAncestryIndex

end ItemDependencies
