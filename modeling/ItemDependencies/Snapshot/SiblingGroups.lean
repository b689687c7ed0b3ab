import ItemDependencies.Library.Frames
import ItemDependencies.Snapshot.SubtreeRanks

/-!
# Groups of siblings

The keys of a depth are written group by group, and nothing that is written later changes them.  At
the end of a run, what the key of an expansion is has been written for the group of all its siblings
of one label.
-/

namespace ItemDependencies

open Library List

namespace KeyedGraph

variable {graph : KeyedGraph} {selected : Finset GraphNode} {sourceFilter : Option SourceFilter}
  {depth : Nat} {parent : Option ExpansionKey} {filtered : Option (List (Option Nat))}
  {numbered : Bool} {keys next : List ExpansionKey} {ranks : List (Option Nat)}
  {a b : ExpansionId} {ids : List ExpansionId} {group refined : WitnessedGroup}
  {witness : ExpansionId → Except SnapshotError (Finset DefinitionKey)}
  {outputless : Finset ExpansionId}

/-! ## Members of a group -/

theorem map_id_refine (h : group.refine witness = .ok refined) :
    refined.members.map WitnessedSibling.id = group.members.map WitnessedSibling.id := by
  unfold WitnessedGroup.refine at h
  obtain ⟨members, hmembers, h⟩ := bind_ok h
  cases h
  refine map_eq_map_of_forall₂ ((mapM_ok hmembers).imp fun member member' hmember => ?_)
  cases hwitness : witness member.id with
  | error e => rw [hwitness] at hmember; cases hmember
  | ok seen => rw [hwitness] at hmember; cases hmember; rfl

theorem map_id_refineBySubtree (h : group.refineBySubtree witness = .ok refined) :
    refined.members.map WitnessedSibling.id = group.members.map WitnessedSibling.id := by
  unfold WitnessedGroup.refineBySubtree at h
  split at h
  · obtain ⟨next, hnext, h⟩ := bind_ok h
    cases h
    show next.members.map _ = _
    exact map_id_refine hnext
  · cases h
    rfl

theorem map_id_refineByUse (h : group.refineByUse witness = .ok refined) :
    refined.members.map WitnessedSibling.id = group.members.map WitnessedSibling.id := by
  unfold WitnessedGroup.refineByUse at h
  split at h
  · obtain ⟨next, hnext, h⟩ := bind_ok h
    cases h
    show next.members.map _ = _
    exact map_id_refine hnext
  · cases h
    rfl

theorem witnessSibling_ok {member : WitnessedSibling}
    (h : graph.witnessSibling selected depth a = .ok member) :
    member.id = a ∧ graph.generatedByWitness selected a = .ok member.witness := by
  unfold witnessSibling at h
  obtain ⟨witness, hwitness, h⟩ := bind_ok h
  obtain ⟨leaf, -, h⟩ := bind_ok h
  cases h
  exact ⟨rfl, hwitness⟩

theorem map_id_witnessSiblings {witnessed : List WitnessedSibling}
    (h : ids.mapM (graph.witnessSibling selected depth) = .ok witnessed) :
    witnessed.map WitnessedSibling.id = ids :=
  (map_eq_map_of_forall₂ ((mapM_ok h).imp fun _ _ h => (witnessSibling_ok h).1)).trans (map_id _)

theorem map_id_witnessGroup (h : graph.witnessGroup selected sourceFilter depth ids = .ok group) :
    group.members.map WitnessedSibling.id = ids := by
  unfold witnessGroup at h
  obtain ⟨witnessed, hwitnessed, h⟩ := bind_ok h
  obtain ⟨subtree, hsubtree, h⟩ := bind_ok h
  rw [map_id_refineByUse h, map_id_refineBySubtree hsubtree]
  exact map_id_witnessSiblings hwitnessed

theorem sortMembers_perm (canonical : Bool) :
    (group.sortMembers ranks canonical).Perm group.members := by
  unfold WitnessedGroup.sortMembers
  split
  · exact perm_insertionSort _ _
  split
  · exact perm_insertionSort _ _
  · exact perm_insertionSort _ _

/-! ## Places that are written -/

theorem keyMember_keeps : WritesOnly (graph.keyMember depth parent filtered numbered)
    fun entry i => entry.1.id.index = i := by
  intro keys entry next h
  unfold keyMember at h
  obtain ⟨leaf, -, h⟩ := bind_ok h
  obtain ⟨ordinal, -, h⟩ := bind_ok h
  cases h
  exact ⟨length_set .., fun i hi => getElem?_set_ne hi⟩

theorem keyGroup_keeps : WritesOnly (graph.keyGroup selected sourceFilter depth ranks filtered)
    fun members i => ∃ member ∈ members, member.2.index = i := by
  intro keys members next h
  unfold keyGroup at h
  obtain ⟨group, hgroup, h⟩ := bind_ok h
  obtain ⟨canonical, -, h⟩ := bind_ok h
  obtain ⟨hlength, hkept⟩ := keyMember_keeps.foldlM h
  refine ⟨hlength, fun i hi => hkept i fun entry hentry heq => hi ?_⟩
  have hmember : entry.1 ∈ group.members :=
    (sortMembers_perm canonical).subset (fst_mem_of_mem_zipIdx hentry)
  have hid : entry.1.id ∈ members.map Prod.snd :=
    map_id_witnessGroup hgroup ▸ mem_map_of_mem hmember
  obtain ⟨member, hmember, hid⟩ := mem_map.mp hid
  exact ⟨member, hmember, hid ▸ heq⟩

theorem groupKey_snd {member : SiblingGroupKey × ExpansionId}
    (h : graph.groupKey selected keys depth a = .ok member) : member.2 = a := by
  unfold groupKey at h
  obtain ⟨raw, -, h⟩ := bind_ok h
  obtain ⟨parent, -, h⟩ := bind_ok h
  obtain ⟨leaf, -, h⟩ := bind_ok h
  cases h
  rfl

theorem keyDepth_keeps : WritesOnly (graph.keyDepth selected sourceFilter ranks filtered)
    fun entries i => ∃ entry ∈ entries, (ofLex entry).2.index = i := by
  intro keys entries next h
  unfold keyDepth at h
  obtain ⟨members, hmembers, h⟩ := bind_ok h
  obtain ⟨hlength, hkept⟩ := keyGroup_keeps.foldlM h
  refine ⟨hlength, fun i hi => hkept i fun g hg => ?_⟩
  rintro ⟨member, hmember, rfl⟩
  obtain ⟨x, -, rfl⟩ := mem_groups.mp hg
  obtain ⟨k, hk⟩ := getElem?_of_mem (mem_filter.mp hmember).1
  obtain ⟨entry, hentry, hkey⟩ := getElem?_of_forall₂_right (mapM_ok hmembers) hk
  exact hi ⟨entry, mem_of_getElem? hentry, congrArg ExpansionId.index (groupKey_snd hkey).symm⟩

/-! ## The group of an expansion -/

namespace IsForest

variable (h : graph.IsForest selected)

include h

/-- The key of the group of an expansion is made of the key of its parent so far and its label. -/
theorem groupKey_ok {member : SiblingGroupKey × ExpansionId} (ha : a ∈ graph.selectedIds selected)
    (hmember : graph.groupKey selected keys (graph.keyOf a).length a = .ok member) :
    (ofLex member.1).2 = graph.labelOf a ∧ ((graph.keyOf a).length = 1 ∧ (ofLex member.1).1 = none ∨
      ∃ p ∈ graph.selectedIds selected, graph.keyOf p = (graph.keyOf a).dropLast ∧
        ∃ key, keys[p.index]? = some key ∧ (ofLex member.1).1 = some key) := by
  obtain ⟨leaf, hleaf, -, hlabel⟩ := h.leafPart_eq ha
  unfold groupKey at hmember
  obtain ⟨raw, hraw, hmember⟩ := bind_ok hmember
  obtain ⟨parent, hparent, hmember⟩ := bind_ok hmember
  obtain ⟨leaf', hleaf', hmember⟩ := bind_ok hmember
  cases hraw.symm.trans (h.key a ha)
  cases hleaf'.symm.trans hleaf
  cases hmember
  refine ⟨hlabel.symm, ?_⟩
  unfold snapshotParent at hparent
  by_cases hdepth : (graph.keyOf a).length = 1
  · rw [if_pos hdepth] at hparent
    cases hparent
    exact .inl ⟨hdepth, rfl⟩
  · rw [if_neg hdepth] at hparent
    obtain ⟨p, hp, hkey, hselected⟩ := h.parent a ha hdepth
    obtain ⟨p', hp', hparent⟩ := bind_ok hparent
    cases hp'.symm.trans hselected
    unfold snapshotExpansionKey at hparent
    cases hget : keys[p.index]? with
    | none =>
      rw [hget] at hparent
      cases hparent
    | some key =>
      rw [hget] at hparent
      cases hparent
      exact .inr ⟨p, hp, hkey, key, hget, rfl⟩

/-- Where no two parents have the same key so far, a group has all siblings of one label. -/
theorem groupKey_eq_iff {member member' : SiblingGroupKey × ExpansionId}
    (ha : a ∈ graph.selectedIds selected) (hb : b ∈ graph.selectedIds selected)
    (hlevel : (graph.keyOf a).length = (graph.keyOf b).length)
    (hmember : graph.groupKey selected keys (graph.keyOf a).length a = .ok member)
    (hmember' : graph.groupKey selected keys (graph.keyOf b).length b = .ok member')
    (hkeys : ∀ p ∈ graph.selectedIds selected, ∀ q ∈ graph.selectedIds selected,
      (graph.keyOf p).length < (graph.keyOf a).length →
      (graph.keyOf q).length < (graph.keyOf a).length → ∀ key, keys[p.index]? = some key →
      keys[q.index]? = some key → p = q) :
    member.1 = member'.1 ↔
      (graph.keyOf a).dropLast = (graph.keyOf b).dropLast ∧ graph.labelOf a = graph.labelOf b := by
  obtain ⟨hlabel, hparent⟩ := h.groupKey_ok ha hmember
  obtain ⟨hlabel', hparent'⟩ := h.groupKey_ok hb hmember'
  have hsplit : member.1 = member'.1 ↔
      (ofLex member.1).1 = (ofLex member'.1).1 ∧ graph.labelOf a = graph.labelOf b := by
    rw [← hlabel, ← hlabel', WithBot.coe_inj]
    exact Prod.ext_iff
  rw [hsplit]
  refine and_congr_left fun _ => ?_
  rcases hparent with ⟨hone, hnone⟩ | ⟨p, hp, hkey, key, hget, hsome⟩
  · rcases hparent' with ⟨-, hnone'⟩ | ⟨q, hq, hkey', -⟩
    · refine iff_of_true (hnone.trans hnone'.symm) ?_
      rw [dropLast_eq_take, dropLast_eq_take, ← hlevel, hone]
      rfl
    · have hlength := congrArg List.length hkey'
      rw [length_dropLast, ← hlevel, hone] at hlength
      exact absurd (length_eq_zero_iff.mp hlength) (h.nonempty q hq)
  · have hp' : (graph.keyOf p).length < (graph.keyOf a).length := by
      rw [hkey, length_dropLast]
      exact Nat.sub_lt (length_pos_iff.mpr (h.nonempty a ha)) Nat.one_pos
    rcases hparent' with ⟨hone, -⟩ | ⟨q, hq, hkey', key', hget', hsome'⟩
    · have hlength := congrArg List.length hkey
      rw [length_dropLast, hlevel, hone] at hlength
      exact absurd (length_eq_zero_iff.mp hlength) (h.nonempty p hp)
    · have hq' : (graph.keyOf q).length < (graph.keyOf a).length := by
        rw [hkey', length_dropLast, ← hlevel]
        exact Nat.sub_lt (length_pos_iff.mpr (h.nonempty a ha)) Nat.one_pos
      rw [hsome, hsome', ← hkey, ← hkey']
      constructor
      · intro heq
        cases heq
        rw [hkeys p hp q hq hp' hq' key hget hget']
      · intro heq
        cases h.injective p hp q hq heq
        cases hget.symm.trans hget'
        rfl

end IsForest

/-- What has been written for a group of a depth is there after the depth. -/
theorem keyDepth_group {entries : List DepthEntry}
    (hrun : graph.keyDepth selected sourceFilter ranks filtered keys entries = .ok next)
    (hnodup : (entries.map fun entry => (ofLex entry).2).Nodup)
    (hdepth : ∀ entry ∈ entries, (ofLex entry).1 = depth) (ha : toLex (depth, a) ∈ entries) :
    ∃ all members s t,
      entries.mapM (fun entry => graph.groupKey selected keys depth (ofLex entry).2) = .ok all ∧
      members ∈ groups (fun a b => decide (a ≤ b)) Prod.fst all ∧
      (∃ member ∈ members, member.2 = a) ∧
      graph.keyGroup selected sourceFilter depth ranks filtered s members = .ok t ∧
      ∀ member ∈ members, next[member.2.index]? = t[member.2.index]? := by
  unfold keyDepth at hrun
  have hhead : (entries.head?.map fun entry => (ofLex entry).1).getD 0 = depth := by
    obtain ⟨entry, rest, rfl⟩ := exists_cons_of_ne_nil (ne_nil_of_mem ha)
    exact hdepth entry mem_cons_self
  obtain ⟨all, hall, hrun⟩ := bind_ok hrun
  rw [hhead] at hall hrun
  have hids : all.map Prod.snd = entries.map fun entry => (ofLex entry).2 :=
    map_eq_map_of_forall₂ ((mapM_ok hall).imp fun _ _ h => groupKey_snd h)
  have hunique : ∀ member ∈ all, ∀ other ∈ all, other.2.index = member.2.index → other = member :=
    fun member hmember other hother heq => inj_on_of_nodup_map (f := Prod.snd)
      (hids ▸ hnodup) hother hmember (congrArg ExpansionId.mk heq)
  have hin : a ∈ all.map Prod.snd := by
    rw [hids]
    exact mem_map_of_mem (f := fun entry : DepthEntry => (ofLex entry).2) ha
  obtain ⟨member, hmember, rfl⟩ := mem_map.mp hin
  have hflatten := flatten_groups (fun a b : SiblingGroupKey => decide (a ≤ b)) Prod.fst all
  obtain ⟨members, hmembers, hmem⟩ := mem_flatten.mp (hflatten.mem_iff.mpr hmember)
  obtain ⟨before, after, hsplit⟩ := append_of_mem hmembers
  rw [hsplit] at hrun
  obtain ⟨s, t, -, hstep, hafter⟩ := foldlM_append_ok hrun
  refine ⟨all, members, s, t, hall, hmembers, ⟨member, hmem, rfl⟩, hstep, fun other hother => ?_⟩
  refine (keyGroup_keeps.foldlM hafter).2 _ fun g hg ⟨third, hthird, heq⟩ => ?_
  have hdisjoint :=
    pairwise_disjoint_groups (fun a b : SiblingGroupKey => decide (a ≤ b)) Prod.fst all
  rw [hsplit, pairwise_append, pairwise_cons] at hdisjoint
  have hotherAll := hflatten.subset (mem_flatten.mpr ⟨members, hmembers, hother⟩)
  have hthirdAll := hflatten.subset (mem_flatten.mpr ⟨g, by simp [hsplit, hg], hthird⟩)
  exact hdisjoint.2.1.1 g hg hother (hunique other hotherAll third hthirdAll heq ▸ hthird)

theorem snapshotExpansionKeys_ok
    (hrun : graph.snapshotExpansionKeys selected sourceFilter outputless = .ok keys) :
    ∃ initial filtered ranks,
      graph.expansionSubtreeRanks selected graph.rawIds (graph.byDepth selected) = .ok ranks ∧
      (runs (fun entry => (ofLex entry).1) (graph.byDepth selected)).foldlM
        (graph.keyDepth selected sourceFilter ranks filtered) initial = .ok keys ∧
      ∃ selectedKeys, (graph.byDepth selected).mapM
        (fun entry => snapshotExpansionKey keys (ofLex entry).2) = .ok selectedKeys ∧
          selectedKeys.Nodup := by
  unfold snapshotExpansionKeys at hrun
  obtain ⟨initial, -, hrun⟩ := bind_ok hrun
  obtain ⟨-, hrun⟩ := guard_ok hrun
  obtain ⟨filtered, -, hrun⟩ := bind_ok hrun
  obtain ⟨ranks, hranks, hrun⟩ := bind_ok hrun
  obtain ⟨final, hfold, hrun⟩ := bind_ok hrun
  obtain ⟨selectedKeys, hselected, hrun⟩ := bind_ok hrun
  obtain ⟨hnodup, hrun⟩ := guard_ok hrun
  cases hrun
  exact ⟨initial, filtered, ranks, hranks, hfold, selectedKeys, hselected, of_not_not hnodup⟩

namespace IsForest

variable (h : graph.IsForest selected)

include h

theorem mem_byDepth {entry : DepthEntry} : entry ∈ graph.byDepth selected ↔
    ∃ a ∈ graph.selectedIds selected, entry = toLex ((graph.keyOf a).length, a) := by
  rw [h.entries.mem_iff, mem_map]
  exact exists_congr fun a => and_congr_right fun _ => eq_comm

theorem nodup_byDepth : ((graph.byDepth selected).map fun entry => (ofLex entry).2).Nodup := by
  have hperm := h.entries.map fun entry => (ofLex entry).2
  rw [map_map] at hperm
  exact hperm.nodup_iff.mpr ((map_id _).symm ▸ h.nodup)

/-- At the end of a run every expansion has a key, and finds it at its place. -/
theorem exists_selectedKey {selectedKeys : List ExpansionKey}
    (hselected : (graph.byDepth selected).mapM
      (fun entry => snapshotExpansionKey keys (ofLex entry).2) = .ok selectedKeys)
    (ha : a ∈ graph.selectedIds selected) : ∃ (i : Nat) (key : ExpansionKey),
      (graph.byDepth selected)[i]? = some (toLex ((graph.keyOf a).length, a)) ∧
        selectedKeys[i]? = some key ∧ keys[a.index]? = some key := by
  obtain ⟨i, hi⟩ := getElem?_of_mem (h.mem_byDepth.mpr ⟨a, ha, rfl⟩)
  obtain ⟨key, hkey, heq⟩ := getElem?_of_forall₂ (mapM_ok hselected) hi
  refine ⟨i, key, hi, hkey, ?_⟩
  change snapshotExpansionKey keys a = .ok key at heq
  unfold snapshotExpansionKey at heq
  cases hget : keys[a.index]? with
  | none =>
    rw [hget] at heq
    cases heq
  | some found =>
    rw [hget] at heq
    exact congrArg some (Except.ok.inj heq)

/-- The keys of two expansions are different at the end of a run. -/
theorem snapshotExpansionKeys_injective
    (hrun : graph.snapshotExpansionKeys selected sourceFilter outputless = .ok keys)
    (ha : a ∈ graph.selectedIds selected) (hb : b ∈ graph.selectedIds selected) {key : ExpansionKey}
    (hkey : keys[a.index]? = some key) (hkey' : keys[b.index]? = some key) : a = b := by
  obtain ⟨-, -, -, -, -, selectedKeys, hselected, hnodup⟩ := snapshotExpansionKeys_ok hrun
  obtain ⟨i, x, hi, hx, hget⟩ := h.exists_selectedKey hselected ha
  obtain ⟨j, y, hj, hy, hget'⟩ := h.exists_selectedKey hselected hb
  cases hget.symm.trans hkey
  cases hget'.symm.trans hkey'
  have hij : i = j :=
    (getElem?_inj (List.getElem?_eq_some_iff.mp hx).1 hnodup).mp (hx.trans hy.symm)
  subst hij
  exact (Prod.mk.inj (toLex.injective (Option.some.inj (hi.symm.trans hj)))).2

/-- What the keys of a depth are at the end of a run has been written at this depth. -/
theorem exists_keyDepth
    (hrun : graph.snapshotExpansionKeys selected sourceFilter outputless = .ok keys)
    (ha : a ∈ graph.selectedIds selected) : ∃ filtered ranks entries s t,
      graph.expansionSubtreeRanks selected graph.rawIds (graph.byDepth selected) = .ok ranks ∧
      graph.keyDepth selected sourceFilter ranks filtered s entries = .ok t ∧
      (entries.map fun entry => (ofLex entry).2).Nodup ∧
      (∀ entry, entry ∈ entries ↔ ∃ b ∈ graph.selectedIds selected,
        (graph.keyOf b).length = (graph.keyOf a).length ∧
          entry = toLex ((graph.keyOf b).length, b)) ∧
      (∀ b, (graph.keyOf b).length ≤ (graph.keyOf a).length → keys[b.index]? = t[b.index]?) ∧
      ∀ b, (graph.keyOf b).length < (graph.keyOf a).length → t[b.index]? = s[b.index]? := by
  obtain ⟨initial, filtered, ranks, hranks, hfold, -⟩ := snapshotExpansionKeys_ok hrun
  have hflatten := flatten_runs (fun entry : DepthEntry => (ofLex entry).1) (graph.byDepth selected)
  have hentry := h.mem_byDepth.mpr ⟨a, ha, rfl⟩
  rw [← hflatten] at hentry
  obtain ⟨entries, hentries, hentry⟩ := mem_flatten.mp hentry
  obtain ⟨before, after, hsplit⟩ := append_of_mem hentries
  have hsorted : (graph.byDepth selected).Pairwise fun entry other =>
      (ofLex entry).1 ≤ (ofLex other).1 :=
    (pairwise_insertionSort _ _).imp fun hle => Prod.Lex.monotone_fst _ _ hle
  have hgrow := pairwise_runs hsorted
  rw [hsplit, pairwise_append, pairwise_cons] at hgrow
  obtain ⟨-, ⟨hafter, -⟩, hbefore⟩ := hgrow
  rw [hsplit] at hfold
  obtain ⟨s, t, -, hstep, hfoldAfter⟩ := foldlM_append_ok hfold
  have hdepth : ∀ entry ∈ entries, (ofLex entry).1 = (graph.keyOf a).length := fun entry hmem =>
    value_eq_of_mem_runs hentries entry hmem _ hentry
  have hmem : ∀ run ∈ runs (fun entry : DepthEntry => (ofLex entry).1) (graph.byDepth selected),
      ∀ entry ∈ run, ∃ b ∈ graph.selectedIds selected,
        entry = toLex ((graph.keyOf b).length, b) := fun run hrun entry hentry =>
    h.mem_byDepth.mp (hflatten ▸ mem_flatten.mpr ⟨run, hrun, hentry⟩)
  refine ⟨filtered, ranks, entries, s, t, hranks, hstep, ?_, fun entry => ⟨fun hin => ?_, ?_⟩,
    fun b hb => ?_, fun b hb => ?_⟩
  · refine List.Nodup.sublist (List.Sublist.map _ ?_) h.nodup_byDepth
    exact hflatten ▸ sublist_flatten_of_mem hentries
  · obtain ⟨b, hb, rfl⟩ := hmem entries hentries entry hin
    exact ⟨b, hb, hdepth _ hin, rfl⟩
  · rintro ⟨b, hb, hlevel, rfl⟩
    have hin := h.mem_byDepth.mpr ⟨b, hb, rfl⟩
    rw [← hflatten] at hin
    obtain ⟨run, hrun, hin⟩ := mem_flatten.mp hin
    rw [hsplit, mem_append, mem_cons] at hrun
    rcases hrun with hrun | rfl | hrun
    · exact absurd hlevel (hbefore run hrun entries mem_cons_self _ hin _ hentry).ne
    · exact hin
    · exact absurd hlevel (hafter run hrun _ hentry _ hin).ne'
  -- later depths leave the keys alone, and this depth leaves those above alone
  · refine (keyDepth_keeps.foldlM hfoldAfter).2 _ fun run hin ⟨entry, hentryRun, heq⟩ => ?_
    obtain ⟨c, -, rfl⟩ := hmem run (by simp [hsplit, hin]) entry hentryRun
    have hlt : (graph.keyOf a).length < (graph.keyOf c).length :=
      hafter run hin _ hentry _ hentryRun
    rw [show c = b from congrArg ExpansionId.mk heq] at hlt
    exact absurd hb (not_le.mpr hlt)
  · refine (keyDepth_keeps _ _ _ hstep).2 _ fun ⟨entry, hentryRun, heq⟩ => ?_
    obtain ⟨c, -, rfl⟩ := hmem entries hentries entry hentryRun
    have hlevel : (graph.keyOf c).length = (graph.keyOf a).length := hdepth _ hentryRun
    rw [show c = b from congrArg ExpansionId.mk heq] at hlevel
    exact hb.ne hlevel

/-- What the keys of a group are at the end of a run has been written for the group of all siblings
of one label. -/
theorem exists_keyGroup
    (hrun : graph.snapshotExpansionKeys selected sourceFilter outputless = .ok keys)
    (ha : a ∈ graph.selectedIds selected) : ∃ filtered ranks members s t,
      graph.expansionSubtreeRanks selected graph.rawIds (graph.byDepth selected) = .ok ranks ∧
      graph.keyGroup selected sourceFilter (graph.keyOf a).length ranks filtered s members = .ok t ∧
      (members.map Prod.snd).Nodup ∧
      (∀ b, b ∈ members.map Prod.snd ↔ b ∈ graph.selectedIds selected ∧
        (graph.keyOf b).dropLast = (graph.keyOf a).dropLast ∧ graph.labelOf b = graph.labelOf a) ∧
      ∀ b ∈ members.map Prod.snd, keys[b.index]? = t[b.index]? := by
  obtain ⟨filtered, ranks, entries, s₀, t₀, hranks, hstep, hnodup, hmem, hlater, habove⟩ :=
    h.exists_keyDepth hrun ha
  have hdepth : ∀ entry ∈ entries, (ofLex entry).1 = (graph.keyOf a).length := fun entry hin => by
    obtain ⟨b, -, hlevel, rfl⟩ := (hmem entry).mp hin
    exact hlevel
  obtain ⟨all, members, s, t, hall, hmembers, ⟨first, hfirst, hfirstId⟩, hgroup, hkept⟩ :=
    keyDepth_group hstep hnodup hdepth ((hmem _).mpr ⟨a, ha, rfl, rfl⟩)
  have hids : all.map Prod.snd = entries.map fun entry => (ofLex entry).2 :=
    map_eq_map_of_forall₂ ((mapM_ok hall).imp fun _ _ h => groupKey_snd h)
  have hkeyed : ∀ member ∈ all, member.2 ∈ graph.selectedIds selected ∧
      (graph.keyOf member.2).length = (graph.keyOf a).length ∧
      graph.groupKey selected s₀ (graph.keyOf a).length member.2 = .ok member := by
    intro member hmember
    obtain ⟨i, hi⟩ := getElem?_of_mem hmember
    obtain ⟨entry, hentryAt, hkey⟩ := getElem?_of_forall₂_right (mapM_ok hall) hi
    have hin := mem_of_getElem? hentryAt
    have hid := groupKey_snd hkey
    obtain ⟨b, hb, hlevel, rfl⟩ := (hmem entry).mp hin
    rw [hid]
    exact ⟨hb, hlevel, hkey⟩
  have hsame : ∀ member ∈ all, member ∈ members ↔
      (graph.keyOf member.2).dropLast = (graph.keyOf a).dropLast ∧
        graph.labelOf member.2 = graph.labelOf a := by
    intro member hmember
    have hfirstAll := ((mem_of_mem_groups hmembers hfirst).mp hfirst).1
    obtain ⟨hb, hlevel, hkey⟩ := hkeyed member hmember
    obtain ⟨hc, hlevel', hkey'⟩ := hkeyed first hfirstAll
    rw [mem_of_mem_groups hmembers hfirst, and_iff_right hmember, ← hfirstId]
    refine h.groupKey_eq_iff hb hc (hlevel.trans hlevel'.symm) (hlevel ▸ hkey) (hlevel' ▸ hkey') ?_
    intro p hp q hq hlt hlt' key hget hget'
    rw [hlevel] at hlt hlt'
    have hfinal : keys[p.index]? = some key := by rw [hlater p hlt.le, habove p hlt, hget]
    have hfinal' : keys[q.index]? = some key := by rw [hlater q hlt'.le, habove q hlt', hget']
    exact h.snapshotExpansionKeys_injective hrun hp hq hfinal hfinal'
  have hsub :
      members ⊆ all := fun member hmember => ((mem_of_mem_groups hmembers hfirst).mp hmember).1
  refine ⟨filtered, ranks, members, s, t, hranks, hgroup, ?_, fun b => ?_, fun b hb => ?_⟩
  · obtain ⟨_, -, rfl⟩ := mem_groups.mp hmembers
    exact ((filter_sublist).map _).nodup (hids ▸ hnodup)
  · constructor
    · intro hb
      obtain ⟨member, hmember, rfl⟩ := mem_map.mp hb
      exact ⟨(hkeyed member (hsub hmember)).1, (hsame member (hsub hmember)).mp hmember⟩
    · rintro ⟨hb, hdrop, hlabel⟩
      have hlevel : (graph.keyOf b).length = (graph.keyOf a).length := by
        have hlength := congrArg List.length hdrop
        rw [length_dropLast, length_dropLast] at hlength
        have hpos := length_pos_iff.mpr (h.nonempty b hb)
        have hpos' := length_pos_iff.mpr (h.nonempty a ha)
        omega
      have hin : b ∈ all.map Prod.snd := by
        rw [hids]
        exact mem_map_of_mem (f := fun entry : DepthEntry => (ofLex entry).2)
          ((hmem _).mpr ⟨b, hb, hlevel, rfl⟩)
      obtain ⟨member, hmember, rfl⟩ := mem_map.mp hin
      exact mem_map_of_mem ((hsame member hmember).mpr ⟨hdrop, hlabel⟩)
  · obtain ⟨member, hmember, rfl⟩ := mem_map.mp hb
    rw [hlater _ (hkeyed member (hsub hmember)).2.1.le, hkept member hmember]

end IsForest

end KeyedGraph

end ItemDependencies
