import ItemDependencies.Expansion.CohortLinks

/-!
# The merge of identity cohorts

The roots of the links number the classes of groups.  The groups of one class
become one group, and the classes that a chain across producers connects share the
root of a union.
-/

namespace ItemDependencies

open Library Relation List

section

variable {groups : List (Nat × MacroOutputMaterializationGroup)} {loc ide : Nat → Nat}
  {dag dag' : MacroContributorDag} {g : Nat × MacroOutputMaterializationGroup}

/-! ## Placed groups -/

/-- A group at its place, with the roots that represent it. -/
def placeAt (loc ide : Nat → Nat) (entry : (Nat × MacroOutputMaterializationGroup) × Nat) :
    PlacedGroup :=
  ⟨entry.2, entry.1.1, entry.1.2, loc entry.2, ide entry.2⟩

theorem placeGroups_eq (groups : List (Nat × MacroOutputMaterializationGroup))
    (loc ide : Nat → Nat) :
    placeGroups groups ((List.range groups.length).map loc) ((List.range groups.length).map ide) =
      groups.zipIdx.map (placeAt loc ide) := by
  apply ext_getElem?
  intro i
  rw [placeGroups, getElem?_map, getElem?_map, getElem?_zipIdx, getElem?_zipIdx]
  by_cases hi : i < groups.length
  · rw [getElem?_eq_getElem (by simpa using hi), getElem?_eq_getElem hi]
    simp [placeAt]
  · rw [getElem?_eq_none (by simpa using hi), getElem?_eq_none (by simpa using hi)]
    rfl

theorem mem_placed {p : PlacedGroup} : p ∈ groups.zipIdx.map (placeAt loc ide) ↔
    groups[p.flat]? = some (p.producer, p.group) ∧ p.localRoot = loc p.flat ∧
      p.identity = ide p.flat := by
  rw [mem_map]
  constructor
  · rintro ⟨entry, hentry, rfl⟩
    exact ⟨mem_zipIdx_iff_getElem?.mp hentry, rfl, rfl⟩
  · rintro ⟨hgroup, hlocal, hidentity⟩
    refine ⟨((p.producer, p.group), p.flat), mem_zipIdx_iff_getElem?.mpr hgroup, ?_⟩
    rw [placeAt, ← hlocal, ← hidentity]

/-- Each group has its place. -/
theorem exists_placed (loc ide : Nat → Nat) {a : Nat} (h : groups[a]? = some g) :
    placeAt loc ide (g, a) ∈ groups.zipIdx.map (placeAt loc ide) :=
  mem_placed.mpr ⟨h, rfl, rfl⟩

theorem groupsAt_flat (groups : List (Nat × MacroOutputMaterializationGroup))
    (part : List PlacedGroup)
    (hpart : ∀ p ∈ part, groups[p.flat]? = some (p.producer, p.group)) :
    groupsAt groups (part.map PlacedGroup.flat) = part.map PlacedGroup.group := by
  induction part with
  | nil => rfl
  | cons p part ih =>
    obtain ⟨hp, hpart⟩ := forall_mem_cons.mp hpart
    have hrest := ih hpart
    rw [groupsAt] at hrest ⊢
    rw [map_cons, filterMap_cons, hp, Option.map_some, map_cons, hrest]

/-! ## Components -/

theorem one_lt_length_dedup {α : Type} [DecidableEq α] {l : List α} {x : α} (hx : x ∈ l) :
    1 < l.dedup.length ↔ ∃ y ∈ l, y ≠ x := by
  constructor
  · intro hlt
    by_contra hall
    push Not at hall
    have hsub : l.dedup.Subperm [x] := (nodup_dedup l).subperm fun y hy =>
      mem_singleton.mpr (hall y (mem_dedup.mp hy))
    exact absurd (hsub.length_le) (Nat.not_le.mpr hlt)
  · rintro ⟨y, hy, hne⟩
    have hnodup : [y, x].Nodup := by simp [hne]
    have hsub : [y, x].Subperm l.dedup := hnodup.subperm fun z hz => by
      rcases mem_pair.mp hz with rfl | rfl
      · exact mem_dedup.mpr hy
      · exact mem_dedup.mpr hx
    exact hsub.length_le

theorem identityComponent_eq_some {placed : List PlacedGroup} {p : PlacedGroup} (hp : p ∈ placed)
    (hsame : ∀ q ∈ placed, q.identity = p.identity) {c : Nat × List MacroContributorSetId} :
    identityComponent placed = some c ↔
      (∃ q ∈ placed, (q.producer, q.localRoot) ≠ (p.producer, p.localRoot)) ∧
        c = (p.identity, sortDedup (placed.flatMap fun q => q.group.contributorRoots)) := by
  cases placed with
  | nil => cases hp
  | cons first rest =>
    rw [identityComponent, Option.ite_none_right_eq_some, hsame first mem_cons_self,
      Option.some_inj, one_lt_length_dedup (mem_map_of_mem hp)]
    refine and_congr ?_ eq_comm
    simp only [mem_map, exists_exists_and_eq_and]

/-- A component is one with several local roots. -/
theorem mem_identityComponents {placed : List PlacedGroup} {c : Nat × List MacroContributorSetId} :
    c ∈ identityComponents placed ↔ ∃ p ∈ placed,
      (∃ q ∈ placed, q.identity = p.identity ∧
        (q.producer, q.localRoot) ≠ (p.producer, p.localRoot)) ∧
      c = (p.identity, sortDedup ((placed.filter fun q => q.identity = p.identity).flatMap
        fun q => q.group.contributorRoots)) := by
  have hfilter : ∀ p ∈ placed, identityComponent (placed.filter fun q => q.identity = p.identity) =
      some c ↔ (∃ q ∈ placed, q.identity = p.identity ∧
        (q.producer, q.localRoot) ≠ (p.producer, p.localRoot)) ∧
      c = (p.identity, sortDedup ((placed.filter fun q => q.identity = p.identity).flatMap
        fun q => q.group.contributorRoots)) := by
    intro p hp
    rw [identityComponent_eq_some (mem_filter.mpr ⟨hp, decide_eq_true rfl⟩) fun q hq =>
      of_decide_eq_true (mem_filter.mp hq).2]
    simp only [mem_filter, decide_eq_true_eq, and_assoc]
  rw [identityComponents, mem_filterMap]
  constructor
  · rintro ⟨component, hcomponent, hc⟩
    obtain ⟨p, hp, rfl⟩ := mem_groups.mp hcomponent
    exact ⟨p, hp, (hfilter p hp).mp hc⟩
  · rintro ⟨p, hp, hc⟩
    exact ⟨_, mem_groups.mpr ⟨p, hp, rfl⟩, (hfilter p hp).mpr hc⟩

/-- The value of a key is the one that stands with it. -/
theorem lookup_zip {α β : Type} {R : α → β → Prop} {keys : List (Nat × α)} {values : List β}
    (h : List.Forall₂ R (keys.map Prod.snd) values) (k : Nat) :
    ((((keys.map Prod.fst).zip values).lookup k).isSome = true ↔ ∃ c ∈ keys, c.1 = k) ∧
      ∀ value ∈ ((keys.map Prod.fst).zip values).lookup k, ∃ c ∈ keys, c.1 = k ∧ R c.2 value := by
  induction keys generalizing values with
  | nil => simp
  | cons c keys ih =>
    rw [map_cons] at h
    cases h with
    | @cons _ value _ values hvalue hvalues =>
      obtain ⟨hsome, hmem⟩ := ih hvalues
      rw [map_cons, zip_cons_cons, lookup_cons]
      by_cases hc : k = c.1
      · have hbeq : (k == c.1) = true := by simpa using hc
        rw [hbeq]
        dsimp only
        refine ⟨⟨fun _ => ⟨c, mem_cons_self, hc.symm⟩, fun _ => rfl⟩, fun other hother => ?_⟩
        cases hother
        exact ⟨c, mem_cons_self, hc.symm, hvalue⟩
      · have hbeq : (k == c.1) = false := by simpa using hc
        rw [hbeq]
        dsimp only
        constructor
        · rw [hsome, exists_mem_cons_iff, or_iff_right fun heq => hc heq.symm]
        · intro other hother
          obtain ⟨c', hc', hR⟩ := hmem other hother
          exact ⟨c', mem_cons_of_mem _ hc', hR⟩

/-! ## Merging the groups of a class -/

/-- The roots of groups of one component are the same. -/
theorem mergedRoots_ok {α : Type} {root : α → Option MacroContributorSetId}
    {x merged : Option MacroContributorSetId} {l : List α} (hne : l ≠ [])
    (hall : ∀ a ∈ l, root a = x) (h : (l.map root).foldlM mergedRoot none = .ok merged) :
    merged = x := by
  have hkeep : ∀ rest : List α, (∀ a ∈ rest, root a = x) → ∀ {y},
      (rest.map root).foldlM mergedRoot x = .ok y → y = x := by
    intro rest hrest
    induction rest with
    | nil =>
      intro y hy
      cases hy
      rfl
    | cons a rest ih =>
      intro y hy
      obtain ⟨ha, hrest⟩ := forall_mem_cons.mp hrest
      rw [map_cons, foldlM_cons, ha] at hy
      obtain ⟨next, hnext, hy⟩ := bind_ok hy
      unfold mergedRoot at hnext
      obtain ⟨-, hnext⟩ := guard_ok hnext
      cases hnext
      rw [Option.or_self] at hy
      exact ih hrest hy
  cases l with
  | nil => exact absurd rfl hne
  | cons a rest =>
    obtain ⟨ha, hrest⟩ := forall_mem_cons.mp hall
    rw [map_cons, foldlM_cons, ha] at h
    obtain ⟨next, hnext, h⟩ := bind_ok h
    unfold mergedRoot at hnext
    obtain ⟨-, hnext⟩ := guard_ok hnext
    cases hnext
    rw [Option.or_none] at h
    exact hkeep rest hrest h

variable {definitions : DefinitionGraph} {productBases : List (Option (List MacroProductSource))}
  {unions : List MacroContributorSetId}

/-- A chain inside a producer is a chain. -/
theorem chain_of_local {a b : Nat}
    (h : ReflTransGen (SharesLocally definitions productBases groups) a b) :
    ReflTransGen (SharesCohort definitions productBases groups) a b :=
  ReflTransGen.mono (fun _ _ hstep => hstep.1) _ _ h

/-- A chain inside a producer does not leave it. -/
theorem producer_of_local {a b : Nat}
    (h : ReflTransGen (SharesLocally definitions productBases groups) a b) :
    groups[a]?.map Prod.fst = groups[b]?.map Prod.fst := by
  induction h with
  | refl => rfl
  | tail _ hstep ih => exact ih.trans hstep.2

theorem exists_group_of_chain {a b : Nat} (hg : groups[a]? = some g)
    (h : ReflTransGen (SharesCohort definitions productBases groups) a b) :
    ∃ g', groups[b]? = some g' := by
  rcases ReflTransGen.cases_tail h with rfl | ⟨c, -, hstep⟩
  · exact ⟨g, hg⟩
  · exact ⟨_, getElem?_eq_getElem hstep.lt_length.2⟩

section

variable (hloc : ∀ a b, loc a = loc b ↔
    ReflTransGen (SharesLocally definitions productBases groups) a b)

include hloc

/-- Two groups have a common place in a producer if they are connected inside it. -/
theorem same_place_iff {p q : PlacedGroup} (hp : p ∈ groups.zipIdx.map (placeAt loc ide))
    (hq : q ∈ groups.zipIdx.map (placeAt loc ide)) :
    (q.producer, q.localRoot) = (p.producer, p.localRoot) ↔
      ReflTransGen (SharesLocally definitions productBases groups) p.flat q.flat := by
  obtain ⟨hpGroup, hpLocal, -⟩ := mem_placed.mp hp
  obtain ⟨hqGroup, hqLocal, -⟩ := mem_placed.mp hq
  rw [Prod.mk.injEq, hpLocal, hqLocal, eq_comm (a := loc _), hloc, and_iff_right_iff_imp]
  intro hchain
  have hproducer := producer_of_local hchain
  rw [hpGroup, hqGroup] at hproducer
  exact (Option.some.inj hproducer).symm

variable (hide : ∀ a b, ide a = ide b ↔
    ReflTransGen (SharesCohort definitions productBases groups) a b)
  (hunions : List.Forall₂ (fun parents root => ∀ unit, dag'.Reaches root unit ↔
    ∃ parent ∈ parents, dag'.Reaches parent unit)
  ((identityComponents (groups.zipIdx.map (placeAt loc ide))).map Prod.snd) unions)

include hide hunions

/-- The root of a component is there if the component has several merged groups, and reaches what
the roots of all its groups reach. -/
theorem identityRoot_ok {a : Nat} (hg : groups[a]? = some g) {root : Option MacroContributorSetId}
    (hroot : (((identityComponents (groups.zipIdx.map (placeAt loc ide))).map Prod.fst).zip
      unions).lookup (ide a) = root) :
    (root.isSome = true ↔ ∃ b, ReflTransGen (SharesCohort definitions productBases groups) a b ∧
      ¬ReflTransGen (SharesLocally definitions productBases groups) a b) ∧
    ∀ id ∈ root, ∀ unit, dag'.Reaches id unit ↔
      ∃ b g', ReflTransGen (SharesCohort definitions productBases groups) a b ∧
        groups[b]? = some g' ∧ ∃ id ∈ g'.2.contributorRoots, dag'.Reaches id unit := by
  obtain ⟨hsome, hmem⟩ := lookup_zip hunions (ide a)
  rw [hroot] at hsome hmem
  constructor
  · rw [hsome]
    constructor
    · rintro ⟨c, hc, hca⟩
      obtain ⟨p, hp, ⟨q, hq, hqp, hne⟩, rfl⟩ := mem_identityComponents.mp hc
      obtain ⟨-, -, hpIdentity⟩ := mem_placed.mp hp
      obtain ⟨-, -, hqIdentity⟩ := mem_placed.mp hq
      have hap : ReflTransGen (SharesCohort definitions productBases groups) a p.flat :=
        (hide a p.flat).mp (hca.symm.trans hpIdentity)
      have haq : ReflTransGen (SharesCohort definitions productBases groups) a q.flat :=
        (hide a q.flat).mp ((hca.symm.trans hqp.symm).trans hqIdentity)
      by_cases hlocal : ReflTransGen (SharesLocally definitions productBases groups) a p.flat
      · refine ⟨q.flat, haq, fun hlocal' => hne ((same_place_iff hloc hp hq).mpr ?_)⟩
        exact (hloc _ _).mp (((hloc _ _).mpr hlocal).symm.trans ((hloc _ _).mpr hlocal'))
      · exact ⟨p.flat, hap, hlocal⟩
    · rintro ⟨b, hchain, hlocal⟩
      obtain ⟨g', hg'⟩ := exists_group_of_chain hg hchain
      have hp := exists_placed loc ide hg
      have hq := exists_placed loc ide hg'
      refine ⟨_, mem_identityComponents.mpr ⟨_, hp, ⟨_, hq, ?_, fun heq => ?_⟩, rfl⟩, rfl⟩
      · exact ((hide a b).mpr hchain).symm
      · exact hlocal ((same_place_iff hloc hp hq).mp heq)
  · intro id hid unit
    obtain ⟨c, hc, hca, hreaches⟩ := hmem id hid
    obtain ⟨p, hp, -, rfl⟩ := mem_identityComponents.mp hc
    rw [hreaches unit]
    constructor
    · rintro ⟨parent, hparent, hunit⟩
      obtain ⟨q, hq, hparent⟩ := mem_flatMap.mp (mem_sortDedup.mp hparent)
      obtain ⟨hq, hqp⟩ := mem_filter.mp hq
      obtain ⟨hqGroup, -, hqIdentity⟩ := mem_placed.mp hq
      refine ⟨q.flat, _, (hide _ _).mp ?_, hqGroup, parent, hparent, hunit⟩
      exact (hca.symm.trans (of_decide_eq_true hqp).symm).trans hqIdentity
    · rintro ⟨b, g', hchain, hg', parent, hparent, hunit⟩
      have hq := exists_placed loc ide hg'
      refine ⟨parent, mem_sortDedup.mpr (mem_flatMap.mpr
        ⟨placeAt loc ide (g', b), ?_, hparent⟩), hunit⟩
      refine mem_filter.mpr ⟨hq, decide_eq_true ?_⟩
      exact ((hide a b).mpr hchain).symm.trans hca.symm

/-- The groups of one class become one group. -/
theorem mergeGroups_ok {part : List PlacedGroup} {group : MacroOutputMaterializationGroup}
    (hne : part ≠ []) (hpart : ∀ p ∈ part, p ∈ groups.zipIdx.map (placeAt loc ide))
    (hsame : ∀ p ∈ part, ∀ q ∈ part, p.identity = q.identity)
    (h : mergeGroups (((identityComponents (groups.zipIdx.map (placeAt loc ide))).map
      Prod.fst).zip unions) part = .ok group) :
    MergedFrom definitions productBases groups dag' (part.map PlacedGroup.flat) group := by
  unfold mergeGroups at h
  obtain ⟨root, hroot, h⟩ := bind_ok h
  cases h
  have hat : groupsAt groups (part.map PlacedGroup.flat) = part.map PlacedGroup.group :=
    groupsAt_flat _ _ fun p hp => (mem_placed.mp (hpart p hp)).1
  have hgate : ∀ p ∈ part,
      (root.isSome = true ↔
        ∃ b, ReflTransGen (SharesCohort definitions productBases groups) p.flat b ∧
        ¬ReflTransGen (SharesLocally definitions productBases groups) p.flat b) ∧
      ∀ id ∈ root, ∀ unit, dag'.Reaches id unit ↔
        ∃ b g', ReflTransGen (SharesCohort definitions productBases groups) p.flat b ∧
          groups[b]? = some g' ∧ ∃ id ∈ g'.2.contributorRoots, dag'.Reaches id unit := by
    intro p hp
    obtain ⟨hgroup, -, hidentity⟩ := mem_placed.mp (hpart p hp)
    refine identityRoot_ok hloc hide hunions hgroup ?_
    rw [← hidentity]
    exact (mergedRoots_ok hne (fun q hq => by rw [hsame q hq p hp]) hroot).symm
  obtain ⟨p, hp⟩ := exists_mem_of_ne_nil part hne
  obtain ⟨hgated, hreaches⟩ := hgate p hp
  refine ⟨?_, ?_, ?_, ?_, fun id hid unit => ?_⟩
  · rw [hat, flatMap_map]
  · rw [hat, flatMap_map]
  · rw [hat, flatMap_map]
    exact perm_insertionSort _ _
  · constructor
    · intro hsome
      exact ⟨p.flat, mem_map_of_mem hp, hgated.mp hsome⟩
    · rintro ⟨a, ha, hb⟩
      obtain ⟨q, hq, rfl⟩ := mem_map.mp ha
      exact (hgate q hq).1.mpr hb
  · constructor
    · intro hunit
      exact ⟨p.flat, mem_map_of_mem hp, (hreaches id hid unit).mp hunit⟩
    · rintro ⟨a, ha, hb⟩
      obtain ⟨q, hq, rfl⟩ := mem_map.mp ha
      exact ((hgate q hq).2 id hid unit).mpr hb

/-! ## Producers -/

omit hloc hide hunions in
/-- The groups of a producer stand in its order among all groups. -/
theorem filter_flatGroups {coverage : List MacroProducerCoverage} {i : Nat}
    {producer : MacroProducerCoverage} (h : coverage[i]? = some producer) :
    ((flatGroups coverage).filter fun g => g.1 = i).map Prod.snd =
        producer.materializationGroups := by
  have hother : ∀ (rest : List MacroProducerCoverage) (k : Nat), i < k →
      ((rest.zipIdx k).flatMap fun p => p.1.materializationGroups.map (p.2, ·)).filter
        (fun g => g.1 = i) = [] := by
    intro rest k hk
    rw [filter_eq_nil_iff]
    intro g hg
    obtain ⟨p, hp, hg⟩ := mem_flatMap.mp hg
    obtain ⟨group, -, rfl⟩ := mem_map.mp hg
    have hle := le_snd_of_mem_zipIdx hp
    simp only [decide_eq_true_eq]
    omega
  have hsteps : ∀ (coverage : List MacroProducerCoverage) (k : Nat), k ≤ i →
      coverage[i - k]? = some producer →
      (((coverage.zipIdx k).flatMap fun p => p.1.materializationGroups.map (p.2, ·)).filter
        fun g => g.1 = i).map Prod.snd = producer.materializationGroups := by
    intro coverage
    induction coverage with
    | nil =>
      intro k _ h
      cases h
    | cons first rest ih =>
      intro k hk h
      rw [zipIdx_cons, flatMap_cons, filter_append]
      dsimp only
      rcases hk.eq_or_lt with rfl | hlt
      · rw [Nat.sub_self, getElem?_cons_zero] at h
        cases h
        rw [hother rest (k + 1) (Nat.lt_succ_self k), append_nil, filter_eq_self.mpr ?_,
          List.map_map]
        · exact map_id _
        · intro g hg
          obtain ⟨group, -, rfl⟩ := mem_map.mp hg
          exact decide_eq_true rfl
      · have hnone : (first.materializationGroups.map ((k, ·))).filter (fun g => g.1 = i) = [] := by
          rw [filter_eq_nil_iff]
          intro g hg
          obtain ⟨group, -, rfl⟩ := mem_map.mp hg
          simp only [decide_eq_true_eq]
          omega
        rw [hnone, nil_append]
        refine ih (k + 1) hlt ?_
        have hsub : i - k = i - (k + 1) + 1 := by omega
        rwa [hsub, getElem?_cons_succ] at h
  exact hsteps coverage 0 (Nat.zero_le i) h

omit hloc hide hunions in
theorem mem_producerGroups {placed part : List PlacedGroup} {i : Nat} :
    part ∈ producerGroups placed i ↔ ∃ p ∈ placed, p.producer = i ∧
      part = (placed.filter fun q => q.producer = i).filter fun q => q.localRoot = p.localRoot := by
  rw [producerGroups, mem_groups]
  simp only [mem_filter, decide_eq_true_eq, and_assoc]

omit hloc hide hunions in
theorem filter_placed (i : Nat) :
    (((groups.zipIdx.map (placeAt loc ide)).filter fun p => p.producer = i).map
        PlacedGroup.flat).Perm
      ((List.range groups.length).filter fun a => groups[a]?.map Prod.fst = some i) := by
  have hflat : (groups.zipIdx.map (placeAt loc ide)).map PlacedGroup.flat =
      List.range' 0 groups.length := by
    rw [List.map_map]
    exact zipIdx_map_snd 0 groups
  refine (perm_ext_iff_of_nodup ?_ (nodup_range.filter _)).mpr fun a => ?_
  · refine ((filter_sublist).map PlacedGroup.flat).nodup ?_
    rw [hflat]
    exact nodup_range'
  · rw [mem_map, mem_filter, mem_range, decide_eq_true_eq]
    constructor
    · rintro ⟨p, hp, rfl⟩
      obtain ⟨hp, hproducer⟩ := mem_filter.mp hp
      obtain ⟨hgroup, -⟩ := mem_placed.mp hp
      refine ⟨(List.getElem?_eq_some_iff.mp hgroup).1, ?_⟩
      rw [hgroup, Option.map_some, of_decide_eq_true hproducer]
    · rintro ⟨-, hproducer⟩
      obtain ⟨g, hg, hi⟩ := Option.map_eq_some_iff.mp hproducer
      exact ⟨_, mem_filter.mpr ⟨exists_placed _ _ hg, decide_eq_true hi⟩, rfl⟩

omit hloc hide hunions in
theorem map_group_placed (i : Nat) :
    ((groups.zipIdx.map (placeAt loc ide)).filter fun p => p.producer = i).map PlacedGroup.group =
      (groups.filter fun g => g.1 = i).map Prod.snd := by
  conv_rhs => rw [← zipIdx_map_fst 0 groups]
  rw [filter_map, filter_map, List.map_map, List.map_map]
  rfl

omit hloc hide hunions in
/-- No slice is lost or repeated. -/
theorem slices_perm {classes : List (List Nat)} {merged : List MacroOutputMaterializationGroup}
    (h : List.Forall₂ (MergedFrom definitions productBases groups dag') classes merged) :
    (merged.flatMap fun group => group.outputSlices).Perm
      ((groupsAt groups classes.flatten).flatMap fun group => group.outputSlices) := by
  induction h with
  | nil => exact .nil
  | cons hfirst _ ih =>
    rw [flatMap_cons, flatten_cons, groupsAt, filterMap_append, flatMap_append]
    exact hfirst.slices.append ih

/-- The classes of a producer are those of the chains inside it. -/
theorem mergeProducer_ok {coverage : List MacroProducerCoverage} {i : Nat}
    {producer merged : MacroProducerCoverage} (hgroups : groups = flatGroups coverage)
    (hproducer : coverage[i]? = some producer)
    (h : mergeProducer (((identityComponents (groups.zipIdx.map (placeAt loc ide))).map
      Prod.fst).zip unions) (groups.zipIdx.map (placeAt loc ide)) (producer, i) = .ok merged) :
    ProducerMerged definitions productBases groups dag' i producer merged := by
  unfold mergeProducer at h
  obtain ⟨results, hresults, h⟩ := bind_ok h
  obtain ⟨-, h⟩ := guard_ok h
  cases h
  have hparts : ∀ part ∈ producerGroups (groups.zipIdx.map (placeAt loc ide)) i,
      part ≠ [] ∧ (∀ p ∈ part, p ∈ groups.zipIdx.map (placeAt loc ide)) ∧
        ∀ p ∈ part, ∀ q ∈ part, loc p.flat = loc q.flat := by
    intro part hpart
    obtain ⟨p, hp, hi, rfl⟩ := mem_producerGroups.mp hpart
    refine ⟨ne_nil_of_mem (mem_filter.mpr ⟨mem_filter.mpr ⟨hp, decide_eq_true hi⟩,
      decide_eq_true rfl⟩), fun q hq => mem_of_mem_filter (mem_of_mem_filter hq),
      fun q hq q' hq' => ?_⟩
    obtain ⟨hq, hlocal⟩ := mem_filter.mp hq
    obtain ⟨hq', hlocal'⟩ := mem_filter.mp hq'
    rw [← (mem_placed.mp (mem_of_mem_filter hq)).2.1, ← (mem_placed.mp (mem_of_mem_filter hq')).2.1,
      of_decide_eq_true hlocal, of_decide_eq_true hlocal']
  have hmerged : List.Forall₂ (MergedFrom definitions productBases groups dag')
      ((producerGroups (groups.zipIdx.map (placeAt loc ide)) i).map fun part =>
        part.map PlacedGroup.flat) results := by
    rw [forall₂_map_left_iff]
    refine ((forall₂_and_left _ _).mpr ⟨hparts, mapM_ok hresults⟩).imp ?_
    rintro part group ⟨⟨hne, hpart, hsame⟩, hok⟩
    refine mergeGroups_ok hloc hide hunions hne hpart (fun p hp q hq => ?_) hok
    rw [(mem_placed.mp (hpart p hp)).2.2, (mem_placed.mp (hpart q hq)).2.2, hide]
    exact chain_of_local ((hloc _ _).mp (hsame p hp q hq))
  obtain ⟨classes, hclasses, hperm⟩ :=
    perm_comp_forall₂ (perm_insertionSort (fun a b => minimumStart a ≤ minimumStart b) results)
      hmerged.flip
  have hflatten : classes.flatten.Perm
      (((groups.zipIdx.map (placeAt loc ide)).filter fun p => p.producer =
        i).map PlacedGroup.flat) := by
    refine hperm.flatten.trans ?_
    rw [← map_flatten]
    exact (flatten_groups _ _ _).map _
  refine ⟨rfl, ?_, classes, hclasses.flip, hflatten.trans (filter_placed i), fun a b ha hb => ?_⟩
  · refine (slices_perm hclasses.flip).trans ?_
    have hat := (hflatten.filterMap fun a => groups[a]?.map Prod.snd).flatMap_right
      fun group => group.outputSlices
    refine hat.trans (List.Perm.of_eq ?_)
    have hplaced := groupsAt_flat groups
      ((groups.zipIdx.map (placeAt loc ide)).filter fun p => p.producer = i) fun p hp =>
        (mem_placed.mp (mem_of_mem_filter hp)).1
    rw [groupsAt] at hplaced
    rw [hplaced, map_group_placed, hgroups, filter_flatGroups hproducer]
  · obtain ⟨g, hg, hi⟩ := Option.map_eq_some_iff.mp ha
    obtain ⟨g', hg', hi'⟩ := Option.map_eq_some_iff.mp hb
    have hp := exists_placed loc ide hg
    have hq := exists_placed loc ide hg'
    rw [← hloc]
    constructor
    · rintro ⟨parts, hparts', hpa, hpb⟩
      obtain ⟨part, hpart, rfl⟩ := mem_map.mp (hperm.subset hparts')
      obtain ⟨p, hpmem, rfl⟩ := mem_map.mp hpa
      obtain ⟨q, hqmem, rfl⟩ := mem_map.mp hpb
      exact (hparts part hpart).2.2 p hpmem q hqmem
    · intro hsame
      have hpart := mem_producerGroups.mpr ⟨_, hp, hi, rfl⟩
      refine ⟨_, hperm.symm.subset (mem_map_of_mem hpart), ?_, ?_⟩
      · refine mem_map.mpr ⟨_, mem_filter.mpr ⟨mem_filter.mpr
          ⟨hp, decide_eq_true hi⟩, decide_eq_true rfl⟩, rfl⟩
      · refine mem_map.mpr ⟨_, mem_filter.mpr ⟨mem_filter.mpr
          ⟨hq, decide_eq_true hi'⟩, decide_eq_true hsame.symm⟩, rfl⟩

end

end

/-! ## The merge -/

/-- The roots after some links number the classes of the chains. -/
theorem rootsOf_links {r : Nat → Nat → Prop} {n : Nat} {links : List (Nat × Nat)}
    (hlinks : ∀ a b, EqvGen (fun a b => (a, b) ∈ links) a b ↔ ReflTransGen r a b)
    (hinside : ∀ a b, (a, b) ∈ links → a < n ∧ b < n) :
    ∃ rep : Nat → Nat, (∀ a b, rep a = rep b ↔ ReflTransGen r a b) ∧
      ∃ parents, rootsOf (links.foldl link (List.range n)) (List.range n) =
        (parents, (List.range n).map rep) ∧
      ∃ parents', rootsOf parents (List.range n) = (parents', (List.range n).map rep) := by
  have hnone : ∀ a b : Nat, id a = id b ↔ EqvGen (fun _ _ : Nat => False) a b := by
    intro a b
    constructor
    · rintro rfl
      exact .refl _
    · intro h
      induction h with
      | rel _ _ h => exact h.elim
      | refl => rfl
      | symm _ _ _ ih => exact ih.symm
      | trans _ _ _ _ _ ih ih' => exact ih.trans ih'
  have hpairs : ∀ pair ∈ links, pair.1 < (List.range n).length ∧
      pair.2 < (List.range n).length := fun pair hpair => by
    rw [length_range]
    exact hinside pair.1 pair.2 hpair
  obtain ⟨hlength, rank, rep, hforest, hrep⟩ := (Forest.range n).links hnone hpairs
  rw [length_range] at hlength
  have hrange : ∀ i ∈ List.range n, i < n := fun i hi => mem_range.mp hi
  obtain ⟨parents, hroots, hlength', hforest'⟩ := hforest.rootsOf (List.range n) (by
    rwa [hlength])
  obtain ⟨parents', hroots', -, -⟩ := hforest'.rootsOf (List.range n) (by
    rwa [hlength', hlength])
  refine ⟨rep, fun a b => ?_, parents, hroots, parents', hroots'⟩
  rw [hrep, ← hlinks]
  simp only [false_or]

/-- The groups of a producer are merged exactly when a chain inside it connects them, nothing of
them is lost, and merged groups that chains across producers connect share a root. -/
theorem coalesceDefinitionIdentityCohorts_merges {hash : MacroContributorNode → Nat}
    {coverage coverage' : List MacroProducerCoverage} {definitions : DefinitionGraph}
    {productBases : List (Option (List MacroProductSource))} {dag dag' : MacroContributorDag}
    (hdag : dag.Built hash)
    (h : coalesceDefinitionIdentityCohorts hash coverage definitions productBases dag =
      .ok (coverage', dag')) :
    dag.nodes <+: dag'.nodes ∧ List.Forall₂ (fun old new =>
      ProducerMerged definitions productBases (flatGroups coverage) dag' old.2 old.1 new)
        coverage.zipIdx coverage' := by
  unfold coalesceDefinitionIdentityCohorts at h
  obtain ⟨-, h⟩ := guard_ok h
  obtain ⟨members, hmembers, h⟩ := bind_ok h
  dsimp only at h
  obtain ⟨productGroups, hproductGroups, h⟩ := bind_ok h
  obtain ⟨links, hlinks, h⟩ := bind_ok h
  have hfiles := filesGroups hproductGroups
  obtain ⟨ide, hide, identityParents, hidentities, identityParents', hidentities'⟩ :=
    rootsOf_links (n := (flatGroups coverage).length)
      (eqvGen_identityLinks hmembers hfiles hlinks) fun a b hab => by
        obtain ⟨of, hof, hab⟩ := mem_flatMap.mp hab
        exact (sharesCohort_of_link hmembers hfiles hlinks hof (.inl hab)).lt_length
  obtain ⟨loc, hloc, localParents, hlocals, localParents', hlocals'⟩ :=
    rootsOf_links (n := (flatGroups coverage).length)
      (eqvGen_localLinks hmembers hfiles hlinks) fun a b hab => by
        obtain ⟨of, hof, hab⟩ := mem_flatMap.mp hab
        exact (sharesCohort_of_link hmembers hfiles hlinks hof (.inr hab)).lt_length
  rw [hidentities, hlocals] at h
  dsimp only at h
  rw [hidentities', hlocals', placeGroups_eq] at h
  obtain ⟨⟨unionDag, unions⟩, hunions, h⟩ := bind_ok h
  obtain ⟨merged, hmerged, h⟩ := bind_ok h
  cases h
  obtain ⟨hextends, hreaches⟩ := MacroContributorDag.withParentUnions_ok hdag hunions
  refine ⟨hextends, ?_⟩
  have hall := mapM_ok hmerged
  refine forall₂_zipIdx ?_ fun k old new hold hnew => ?_
  · rw [← length_zipIdx, hall.length_eq]
  · exact mergeProducer_ok hloc hide hreaches rfl hold (getElem?_zipIdx_of_forall₂ hall hold hnew)

/-! ## Three groups of one cohort -/

/-- One of the functions that an invocation has made. -/
def cohortFunction (name : String) (number : Nat) : Definition :=
  ⟨⟨number⟩, ⟨[⟨.function, .expanded ⟨0, 1⟩ none, some name, number⟩]⟩, .function, none,
    .expanded ⟨0⟩ ⟨0, 1⟩ none number⟩

/-- Three functions that only their number tells apart, and one with another name. -/
def cohortFunctions : DefinitionGraph :=
  ⟨[cohortFunction "f" 0, cohortFunction "f" 1, cohortFunction "f" 2, cohortFunction "g" 3], [], []⟩

/-- A group with one function. -/
def functionGroup (root number : Nat) : MacroOutputMaterializationGroup :=
  ⟨[⟨root⟩], none, [], [⟨[⟨number, number + 1⟩], .products [.definition ⟨number⟩]⟩]⟩

theorem built_two : MacroContributorDag.Built (fun _ => 0) ⟨[⟨[⟨0⟩], []⟩, ⟨[⟨1⟩], []⟩]⟩ := by
  obtain ⟨first, hfirst⟩ : ∃ first,
      MacroContributorDagBuilder.empty.intern (fun _ => 0) [⟨0⟩] [] = .ok first := ⟨_, rfl⟩
  obtain ⟨second, hsecond⟩ : ∃ second,
      first.1.intern (fun _ => 0) [⟨1⟩] [] = .ok second := by
    cases hfirst
    exact ⟨_, rfl⟩
  refine ⟨second.1, .intern (.intern .empty hfirst) hsecond, ?_⟩
  cases hfirst
  cases hsecond
  rfl

/-- The functions with one name are merged in each producer, the other one is not. -/
theorem coalesceDefinitionIdentityCohorts_merges_three : ∃ coverage' dag',
    coalesceDefinitionIdentityCohorts (fun _ => 0)
      [⟨⟨0⟩, 4, [], [functionGroup 0 0, functionGroup 1 1, functionGroup 0 3]⟩,
        ⟨⟨1⟩, 3, [], [functionGroup 1 2]⟩]
      cohortFunctions [none, none, none, none] ⟨[⟨[⟨0⟩], []⟩, ⟨[⟨1⟩], []⟩]⟩ =
        .ok (coverage', dag') ∧
    (coverage'.map fun producer => producer.materializationGroups.map fun group =>
      group.definitions) = [[[⟨0⟩, ⟨1⟩], [⟨3⟩]], [[⟨2⟩]]] ∧
    [⟨[⟨0⟩], []⟩, ⟨[⟨1⟩], []⟩] <+: dag'.nodes ∧ List.Forall₂ (fun old new =>
      ProducerMerged cohortFunctions [none, none, none, none] [(0, functionGroup 0 0),
        (0, functionGroup 1 1), (0, functionGroup 0 3), (1, functionGroup 1 2)]
        dag' old.2 old.1 new)
      [(⟨⟨0⟩, 4, [], [functionGroup 0 0, functionGroup 1 1, functionGroup 0 3]⟩, 0),
        (⟨⟨1⟩, 3, [], [functionGroup 1 2]⟩, 1)] coverage' := by
  obtain ⟨⟨coverage', dag'⟩, h, hmerged⟩ : ∃ result, coalesceDefinitionIdentityCohorts (fun _ => 0)
      [⟨⟨0⟩, 4, [], [functionGroup 0 0, functionGroup 1 1, functionGroup 0 3]⟩,
        ⟨⟨1⟩, 3, [], [functionGroup 1 2]⟩]
      cohortFunctions [none, none, none, none] ⟨[⟨[⟨0⟩], []⟩, ⟨[⟨1⟩], []⟩]⟩ = .ok result ∧
    (result.1.map fun producer => producer.materializationGroups.map fun group =>
      group.definitions) = [[[⟨0⟩, ⟨1⟩], [⟨3⟩]], [[⟨2⟩]]] := ⟨_, rfl, by decide +kernel⟩
  exact ⟨coverage', dag', h, hmerged, coalesceDefinitionIdentityCohorts_merges built_two h⟩

end ItemDependencies
