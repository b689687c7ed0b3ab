import ItemDependencies.Expansion.IdentityCohorts

/-!
# What the merge of identity cohorts does

The links of the cohorts connect the groups that hold members of one cohort, so
the roots tell which groups are merged and which of them share a component.
-/

namespace ItemDependencies

open Library Relation List Option

/-- Two expanded definitions with the same parent, product basis and kind, whose keys end with the
same origin and name. -/
def SameCohort (definitions : DefinitionGraph)
    (productBases : List (Option (List MacroProductSource))) (id id' : DefinitionId) : Prop :=
  ∃ definition ∈ definitions.definitions, ∃ definition' ∈ definitions.definitions,
    definition.id = id ∧ definition'.id = id' ∧
    definition.origin.isExpanded = true ∧ definition'.origin.isExpanded = true ∧
    definition.parent = definition'.parent ∧ definition.kind = definition'.kind ∧
    productBases[id.index]? = productBases[id'.index]? ∧
    ∃ leaf leaf', definition.key.parts.getLast? = some leaf ∧
      definition'.key.parts.getLast? = some leaf' ∧ leaf.origin = leaf'.origin ∧
      leaf.name = leaf'.name

/-- Two groups hold members of one cohort. -/
def SharesCohort (definitions : DefinitionGraph)
    (productBases : List (Option (List MacroProductSource)))
    (groups : List (Nat × MacroOutputMaterializationGroup)) (a b : Nat) : Prop :=
  ∃ g g' d d', groups[a]? = some g ∧ groups[b]? = some g' ∧ d ∈ g.2.definitions ∧
    d' ∈ g'.2.definitions ∧ SameCohort definitions productBases d d'

/-- Two groups of one producer hold members of one cohort. -/
def SharesLocally (definitions : DefinitionGraph)
    (productBases : List (Option (List MacroProductSource)))
    (groups : List (Nat × MacroOutputMaterializationGroup)) (a b : Nat) : Prop :=
  SharesCohort definitions productBases groups a b ∧
    groups[a]?.map Prod.fst = groups[b]?.map Prod.fst

/-- The groups with some numbers. -/
def groupsAt (groups : List (Nat × MacroOutputMaterializationGroup)) (numbers : List Nat) :
    List MacroOutputMaterializationGroup :=
  numbers.filterMap fun number => groups[number]?.map Prod.snd

/-- A group that some groups have been merged into. -/
structure MergedFrom (definitions : DefinitionGraph)
    (productBases : List (Option (List MacroProductSource)))
    (groups : List (Nat × MacroOutputMaterializationGroup)) (dag : MacroContributorDag)
    (parts : List Nat) (group : MacroOutputMaterializationGroup) : Prop where
  roots : group.contributorRoots =
    sortDedup ((groupsAt groups parts).flatMap fun part => part.contributorRoots)
  demands : group.outputDemands =
    sortDedup ((groupsAt groups parts).flatMap fun part => part.outputDemands)
  slices : group.outputSlices.Perm ((groupsAt groups parts).flatMap fun part => part.outputSlices)
  gated : group.identityCohortRoot.isSome = true ↔ ∃ a ∈ parts, ∃ b,
    ReflTransGen (SharesCohort definitions productBases groups) a b ∧
      ¬ReflTransGen (SharesLocally definitions productBases groups) a b
  gate : ∀ root ∈ group.identityCohortRoot, ∀ unit, dag.Reaches root unit ↔
    ∃ a ∈ parts, ∃ b g, ReflTransGen (SharesCohort definitions productBases groups) a b ∧
      groups[b]? = some g ∧ ∃ root ∈ g.2.contributorRoots, dag.Reaches root unit

/-- A producer whose groups have been merged. -/
structure ProducerMerged (definitions : DefinitionGraph)
    (productBases : List (Option (List MacroProductSource)))
    (groups : List (Nat × MacroOutputMaterializationGroup)) (dag : MacroContributorDag)
    (producer : Nat) (old new : MacroProducerCoverage) : Prop where
  unchanged : new = { old with materializationGroups := new.materializationGroups }
  slices : (new.materializationGroups.flatMap fun group => group.outputSlices).Perm
    (old.materializationGroups.flatMap fun group => group.outputSlices)
  merged : ∃ classes : List (List Nat),
    List.Forall₂ (MergedFrom definitions productBases groups dag) classes
      new.materializationGroups ∧
    classes.flatten.Perm ((List.range groups.length).filter fun number =>
      groups[number]?.map Prod.fst = some producer) ∧
    ∀ a b, groups[a]?.map Prod.fst = some producer → groups[b]?.map Prod.fst = some producer →
      ((∃ parts ∈ classes, a ∈ parts ∧ b ∈ parts) ↔
        ReflTransGen (SharesLocally definitions productBases groups) a b)

section

variable {definitions : DefinitionGraph} {productBases : List (Option (List MacroProductSource))}
  {groups : List (Nat × MacroOutputMaterializationGroup)}
  {productGroups : SortedMap DefinitionId Nat}
  {members : List (DefinitionCohortKey × DefinitionId)} {a b : Nat}

/-! ## The group of a definition -/

/-- The map has the group of each definition that some group holds. -/
def FilesGroups (groups : List (Nat × MacroOutputMaterializationGroup))
    (productGroups : SortedMap DefinitionId Nat) : Prop :=
  ∀ d flat, productGroups.get d = some flat ↔
    ∃ group, groups[flat]? = some group ∧ d ∈ group.2.definitions

theorem addProductGroup_ok {flat : Nat} {productGroups' : SortedMap DefinitionId Nat}
    {ds : List DefinitionId}
    (h : ds.foldlM (addProductGroup flat) productGroups = .ok productGroups') (d : DefinitionId)
    (other : Nat) : productGroups'.get d = some other ↔
      productGroups.get d = some other ∨ flat = other ∧ d ∈ ds := by
  induction ds generalizing productGroups with
  | nil =>
    cases h
    simp
  | cons first ds ih =>
    rw [foldlM_cons] at h
    obtain ⟨next, hnext, h⟩ := bind_ok h
    unfold addProductGroup at hnext
    obtain ⟨hnew, hnext⟩ := guard_ok hnext
    cases hnext
    rw [ih h, SortedMap.get_insert, mem_cons]
    by_cases hd : d = first
    · subst hd
      have hnone : productGroups.get d = none := by
        rw [Bool.not_eq_true, SortedMap.contains_eq_false, SortedMap.mem_keys] at hnew
        exact eq_none_iff_forall_ne_some.mpr fun flat hflat => hnew ⟨flat, hflat⟩
      rw [if_pos rfl, hnone]
      simp
      tauto
    · rw [if_neg hd]
      simp [hd]

theorem filesGroups (h : groups.zipIdx.foldlM addProductGroups .empty = .ok productGroups) :
    FilesGroups groups productGroups := by
  have hsteps : ∀ (rest done : List (Nat × MacroOutputMaterializationGroup))
      (state : SortedMap DefinitionId Nat), FilesGroups done state →
      (rest.zipIdx done.length).foldlM addProductGroups state = .ok productGroups →
      FilesGroups (done ++ rest) productGroups := by
    intro rest
    induction rest with
    | nil =>
      intro done state hstate hrun
      cases hrun
      rwa [append_nil]
    | cons group rest ih =>
      intro done state hstate hrun
      rw [zipIdx_cons, foldlM_cons] at hrun
      obtain ⟨next, hnext, hrun⟩ := bind_ok hrun
      unfold addProductGroups at hnext
      obtain ⟨-, hnext⟩ := guard_ok hnext
      have hlength : (done ++ [group]).length = done.length + 1 := by simp
      have hfiles : FilesGroups (done ++ [group]) next := by
        intro d flat
        rw [addProductGroup_ok hnext, hstate]
        simp only [getElem?_concat_eq_some]
        constructor
        · rintro (⟨other, hother, hd⟩ | ⟨rfl, hd⟩)
          · exact ⟨other, .inl hother, hd⟩
          · exact ⟨group, .inr ⟨rfl, rfl⟩, hd⟩
        · rintro ⟨other, hother | ⟨rfl, rfl⟩, hd⟩
          · exact .inl ⟨other, hother, hd⟩
          · exact .inr ⟨rfl, hd⟩
      rw [← hlength] at hrun
      have := ih (done ++ [group]) next hfiles hrun
      rwa [append_assoc] at this
  exact hsteps groups [] .empty (fun d flat => by simp) h

/-! ## Links -/

theorem mem_starLinks {numbers : List Nat} (h : (a, b) ∈ starLinks numbers) :
    a ∈ numbers ∧ b ∈ numbers := by
  cases numbers with
  | nil => cases h
  | cons first rest =>
    obtain ⟨other, hother, heq⟩ := mem_map.mp h
    cases heq
    exact ⟨mem_cons_self, mem_cons_of_mem _ hother⟩

/-- A star connects all its elements. -/
theorem eqvGen_starLinks {numbers : List Nat} (ha : a ∈ numbers) (hb : b ∈ numbers) :
    EqvGen (fun a b => (a, b) ∈ starLinks numbers) a b := by
  cases numbers with
  | nil => cases ha
  | cons first rest =>
    have hfirst : ∀ c ∈ first :: rest,
        EqvGen (fun a b => (a, b) ∈ starLinks (first :: rest)) first c := by
      intro c hc
      rcases mem_cons.mp hc with rfl | hc
      · exact .refl _
      · exact .rel _ _ (mem_map_of_mem hc)
    exact (hfirst a ha).symm.trans _ _ _ (hfirst b hb)

/-- Links that are part of a symmetric relation and connect what it relates generate its chains. -/
theorem eqvGen_iff_chain {r s : Nat → Nat → Prop} (hrs : ∀ a b, r a b → s a b)
    (hsymm : ∀ a b, s a b → s b a) (hsr : ∀ a b, s a b → EqvGen r a b) (a b : Nat) :
    EqvGen r a b ↔ ReflTransGen s a b := by
  constructor
  · intro h
    induction h with
    | rel a b hab => exact .single (hrs a b hab)
    | refl => exact .refl
    | symm a b _ ih => exact ReflTransGen.mono (fun _ _ hab => hsymm _ _ hab) _ _ ih.swap
    | trans a b c _ _ ih ih' => exact ih.trans ih'
  · intro h
    induction h with
    | refl => exact .refl _
    | tail _ hstep ih => exact ih.trans _ _ _ (hsr _ _ hstep)

theorem orIncomplete_ok {α : Type} {x : Option α} {a : α} (h : orIncomplete x = .ok a) :
    x = some a := by
  cases x with
  | none => cases h
  | some b =>
    cases h
    rfl

/-- Groups with numbers in one list of the pairs have one producer. -/
theorem mem_groups_fst {pairs : List (Nat × Nat)} {numbers : List (Nat × Nat)}
    (h : numbers ∈ Library.groups (fun a b => decide (a ≤ b)) Prod.fst pairs) {x : Nat × Nat}
    (hx : x ∈ numbers) (y : Nat × Nat) : y ∈ numbers ↔ y ∈ pairs ∧ y.1 = x.1 :=
  mem_of_mem_groups h hx

/-- The links of a cohort connect the groups that hold its members. -/
theorem cohortLinks_ok {cohort : List DefinitionId} {links : List (Nat × Nat) × List (Nat × Nat)}
    (h : cohortLinks groups productGroups cohort = .ok links) :
    (∀ a b, (a, b) ∈ links.1 → ∃ d ∈ cohort, ∃ d' ∈ cohort,
      productGroups.get d = some a ∧ productGroups.get d' = some b) ∧
    (∀ a b, (a, b) ∈ links.2 → (∃ d ∈ cohort, ∃ d' ∈ cohort,
      productGroups.get d = some a ∧ productGroups.get d' = some b) ∧
      groups[a]?.map Prod.fst = groups[b]?.map Prod.fst) ∧
    ∀ d ∈ cohort, ∀ d' ∈ cohort, ∀ a b, productGroups.get d = some a →
      productGroups.get d' = some b → EqvGen (fun a b => (a, b) ∈ links.1) a b ∧
        (groups[a]?.map Prod.fst = groups[b]?.map Prod.fst →
          EqvGen (fun a b => (a, b) ∈ links.2) a b) := by
  unfold cohortLinks at h
  dsimp only at h
  split at h
  · rename_i hfew
    cases h
    refine ⟨by simp, by simp, fun d hd d' hd' a b ha hb => ?_⟩
    have hsame : d = d' := by
      rcases hfew with hfew | hnone
      · obtain ⟨i, hi, rfl⟩ := getElem_of_mem hd
        obtain ⟨j, hj, rfl⟩ := getElem_of_mem hd'
        obtain rfl : i = j := by omega
        rfl
      · have hcontains : productGroups.contains d = true :=
          SortedMap.contains_iff.mpr (SortedMap.mem_keys.mpr ⟨a, ha⟩)
        exact absurd hcontains (countP_eq_zero.mp hnone d hd)
    subst hsame
    cases ha.symm.trans hb
    exact ⟨.refl _, fun _ => .refl _⟩
  · obtain ⟨-, h⟩ := guard_ok h
    obtain ⟨materializations, hmaterializations, h⟩ := bind_ok h
    obtain ⟨byProducer, hbyProducer, h⟩ := bind_ok h
    cases h
    have hget : ∀ m ∈ materializations, ∃ d ∈ cohort, productGroups.get d = some m := by
      intro m hm
      obtain ⟨k, hk⟩ := getElem?_of_mem hm
      obtain ⟨d, hd, hok⟩ := getElem?_of_forall₂_right (mapM_ok hmaterializations) hk
      exact ⟨d, mem_of_getElem? hd, orIncomplete_ok hok⟩
    have hmem : ∀ d ∈ cohort, ∀ a, productGroups.get d = some a → a ∈ materializations := by
      intro d hd a ha
      obtain ⟨k, hk⟩ := getElem?_of_mem hd
      obtain ⟨m, hm, hok⟩ := getElem?_of_forall₂ (mapM_ok hmaterializations) hk
      cases (orIncomplete_ok hok).symm.trans ha
      exact mem_of_getElem? hm
    have hpairs : ∀ pair, pair ∈ byProducer ↔
        pair.2 ∈ materializations ∧ groups[pair.2]?.map Prod.fst = some pair.1 := by
      intro pair
      constructor
      · intro hpair
        obtain ⟨k, hk⟩ := getElem?_of_mem hpair
        obtain ⟨m, hm, hok⟩ := getElem?_of_forall₂_right (mapM_ok hbyProducer) hk
        obtain ⟨group, hgroup, rfl⟩ := map_eq_some_iff.mp (orIncomplete_ok hok)
        exact ⟨mem_of_getElem? hm, by rw [hgroup, map_some]⟩
      · rintro ⟨hpair, hproducer⟩
        obtain ⟨k, hk⟩ := getElem?_of_mem hpair
        obtain ⟨other, hother, hok⟩ := getElem?_of_forall₂ (mapM_ok hbyProducer) hk
        obtain ⟨group, hgroup, rfl⟩ := map_eq_some_iff.mp (orIncomplete_ok hok)
        rw [hgroup, map_some] at hproducer
        have heq : pair = (group.1, pair.2) := Prod.ext (Option.some.inj hproducer).symm rfl
        rw [heq]
        exact mem_of_getElem? hother
    refine ⟨fun a b hab => ?_, fun a b hab => ?_, fun d hd d' hd' a b ha hb => ?_⟩
    · obtain ⟨ha, hb⟩ := mem_starLinks hab
      obtain ⟨d, hd, hda⟩ := hget a ha
      obtain ⟨d', hd', hdb⟩ := hget b hb
      exact ⟨d, hd, d', hd', hda, hdb⟩
    · obtain ⟨numbers, hnumbers, hab⟩ := mem_flatMap.mp hab
      obtain ⟨ha, hb⟩ := mem_starLinks hab
      obtain ⟨x, hx, rfl⟩ := mem_map.mp ha
      obtain ⟨y, hy, rfl⟩ := mem_map.mp hb
      obtain ⟨hxp, -⟩ := (mem_groups_fst hnumbers hx x).mp hx
      obtain ⟨hyp, hxy⟩ := (mem_groups_fst hnumbers hx y).mp hy
      obtain ⟨hxm, hxproducer⟩ := (hpairs x).mp hxp
      obtain ⟨hym, hyproducer⟩ := (hpairs y).mp hyp
      obtain ⟨d, hd, hda⟩ := hget x.2 hxm
      obtain ⟨d', hd', hdb⟩ := hget y.2 hym
      exact ⟨⟨d, hd, d', hd', hda, hdb⟩, by rw [hxproducer, hyproducer, hxy]⟩
    · have hma := hmem d hd a ha
      have hmb := hmem d' hd' b hb
      refine ⟨eqvGen_starLinks hma hmb, fun hproducer => ?_⟩
      obtain ⟨k, hk⟩ := getElem?_of_mem hma
      obtain ⟨pair, hpair, hok⟩ := getElem?_of_forall₂ (mapM_ok hbyProducer) hk
      obtain ⟨group, hgroup, rfl⟩ := map_eq_some_iff.mp (orIncomplete_ok hok)
      have hpair := mem_of_getElem? hpair
      have hother : (group.1, b) ∈ byProducer := by
        refine (hpairs _).mpr ⟨hmb, ?_⟩
        rw [← hproducer, hgroup, map_some]
      have hnumbers : byProducer.filter (fun x => x.1 = group.1) ∈
          Library.groups (fun a b => decide (a ≤ b)) Prod.fst byProducer :=
        mem_groups.mpr ⟨_, hpair, rfl⟩
      have hstar : EqvGen (fun a b => (a, b) ∈ starLinks
          ((byProducer.filter fun x => x.1 = group.1).map Prod.snd)) a b := by
        apply eqvGen_starLinks
        · exact mem_map.mpr ⟨_, mem_filter.mpr ⟨hpair, by simp⟩, rfl⟩
        · exact mem_map.mpr ⟨_, mem_filter.mpr ⟨hother, by simp⟩, rfl⟩
      exact EqvGen.mono (fun a b hab => mem_flatMap.mpr ⟨_, hnumbers, hab⟩) _ _ hstar

/-! ## The links of all cohorts -/

theorem mem_membersByCohort (h : membersByCohort definitions productBases = .ok members)
    (member : DefinitionCohortKey × DefinitionId) :
    member ∈ members ↔ ∃ definition ∈ definitions.definitions,
      definition.origin.isExpanded = true ∧ cohortMember productBases definition = .ok member := by
  have hall := mapM_ok h
  constructor
  · intro hmem
    obtain ⟨k, hk⟩ := getElem?_of_mem hmem
    obtain ⟨definition, hdefinition, hok⟩ := getElem?_of_forall₂_right hall hk
    obtain ⟨hdefinition, hexpanded⟩ := mem_filter.mp (mem_of_getElem? hdefinition)
    exact ⟨definition, hdefinition, hexpanded, hok⟩
  · rintro ⟨definition, hdefinition, hexpanded, hok⟩
    have hmem : definition ∈ definitions.definitions.filter fun definition =>
        definition.origin.isExpanded := mem_filter.mpr ⟨hdefinition, hexpanded⟩
    obtain ⟨k, hk⟩ := getElem?_of_mem hmem
    obtain ⟨member', hmember, hother⟩ := getElem?_of_forall₂ hall hk
    cases hok.symm.trans hother
    exact mem_of_getElem? hmember

theorem cohortMember_ok {definition : Definition} {member : DefinitionCohortKey × DefinitionId} :
    cohortMember productBases definition = .ok member ↔
      ∃ leaf basis, definition.key.parts.getLast? = some leaf ∧
        productBases[definition.id.index]? = some basis ∧
        member = (⟨definition.parent, leaf.origin, basis, definition.kind, leaf.name⟩,
          definition.id) := by
  unfold cohortMember
  split
  · rename_i leaf basis hleaf hbasis
    rw [hleaf, hbasis]
    constructor
    · rintro ⟨⟩
      exact ⟨leaf, basis, rfl, rfl, rfl⟩
    · rintro ⟨_, _, ⟨⟩, ⟨⟩, rfl⟩
      rfl
  · rename_i hnone
    constructor
    · rintro ⟨⟩
    · rintro ⟨leaf, basis, hleaf, hbasis, -⟩
      exact (hnone leaf basis hleaf hbasis).elim

/-- The members with one key are those that only their number tells apart. -/
theorem sameCohort_iff (h : membersByCohort definitions productBases = .ok members)
    (d d' : DefinitionId) : SameCohort definitions productBases d d' ↔
      ∃ key, (key, d) ∈ members ∧ (key, d') ∈ members := by
  constructor
  · rintro ⟨definition, hmem, definition', hmem', rfl, rfl, hexpanded, hexpanded', hparent, hkind,
      hbasis, leaf, leaf', hleaf, hleaf', horigin, hname⟩
    have hin : definition ∈ definitions.definitions.filter fun definition =>
        definition.origin.isExpanded := mem_filter.mpr ⟨hmem, hexpanded⟩
    obtain ⟨k, hk⟩ := getElem?_of_mem hin
    obtain ⟨member, -, hok⟩ := getElem?_of_forall₂ (mapM_ok h) hk
    obtain ⟨_, basis, hleaf₁, hbasis₁, rfl⟩ := cohortMember_ok.mp hok
    cases hleaf.symm.trans hleaf₁
    refine ⟨_, (mem_membersByCohort h _).mpr ⟨definition, hmem, hexpanded, hok⟩,
      (mem_membersByCohort h _).mpr ⟨definition', hmem', hexpanded', cohortMember_ok.mpr
        ⟨leaf', basis, hleaf', hbasis ▸ hbasis₁, ?_⟩⟩⟩
    rw [hparent, horigin, hkind, hname]
  · rintro ⟨key, hkey, hkey'⟩
    obtain ⟨definition, hmem, hexpanded, hok⟩ := (mem_membersByCohort h _).mp hkey
    obtain ⟨definition', hmem', hexpanded', hok'⟩ := (mem_membersByCohort h _).mp hkey'
    obtain ⟨leaf, basis, hleaf, hbasis, heq⟩ := cohortMember_ok.mp hok
    obtain ⟨leaf', basis', hleaf', hbasis', heq'⟩ := cohortMember_ok.mp hok'
    obtain ⟨rfl, rfl⟩ := Prod.mk.inj heq
    obtain ⟨hsame, rfl⟩ := Prod.mk.inj heq'
    obtain ⟨hparent, horigin, rfl, hkind, hname⟩ := DefinitionCohortKey.mk.inj hsame
    exact ⟨definition, hmem, definition', hmem', rfl, rfl, hexpanded, hexpanded', hparent, hkind,
      hbasis.trans hbasis'.symm, leaf, leaf', hleaf, hleaf', horigin, hname⟩

theorem mem_cohort {cohort : List DefinitionId} (h : cohort ∈ cohortsOf members) :
    ∃ key, ∀ d, d ∈ cohort ↔ (key, d) ∈ members := by
  obtain ⟨group, hgroup, rfl⟩ := mem_map.mp h
  obtain ⟨x, -, rfl⟩ := mem_groups.mp hgroup
  refine ⟨x.1, fun d => ?_⟩
  simp

theorem exists_cohort {key : DefinitionCohortKey} {d : DefinitionId} (h : (key, d) ∈ members) :
    ∃ cohort ∈ cohortsOf members, ∀ d, d ∈ cohort ↔ (key, d) ∈ members := by
  refine ⟨_, mem_map_of_mem (mem_groups.mpr ⟨_, h, rfl⟩), fun d => ?_⟩
  simp

theorem SharesCohort.symm (h : SharesCohort definitions productBases groups a b) :
    SharesCohort definitions productBases groups b a := by
  obtain ⟨g, g', d, d', ha, hb, hd, hd', x, hx, y, hy, hid, hid', hexp, hexp', hparent, hkind,
    hbasis, leaf, leaf', hleaf, hleaf', horigin, hname⟩ := h
  exact ⟨g', g, d', d, hb, ha, hd', hd, y, hy, x, hx, hid', hid, hexp', hexp, hparent.symm,
    hkind.symm, hbasis.symm, leaf', leaf, hleaf', hleaf, horigin.symm, hname.symm⟩

theorem SharesCohort.lt_length (h : SharesCohort definitions productBases groups a b) :
    a < groups.length ∧ b < groups.length := by
  obtain ⟨g, g', -, -, ha, hb, -⟩ := h
  exact ⟨(List.getElem?_eq_some_iff.mp ha).1, (List.getElem?_eq_some_iff.mp hb).1⟩

section

variable {links : List (List (Nat × Nat) × List (Nat × Nat))}
  (hmembers : membersByCohort definitions productBases = .ok members)
  (hfiles : FilesGroups groups productGroups)
  (hlinks : (cohortsOf members).mapM (cohortLinks groups productGroups) = .ok links)

include hmembers hfiles hlinks

/-- Linked groups share a cohort. -/
theorem sharesCohort_of_link {of : List (Nat × Nat) × List (Nat × Nat)} (hof : of ∈ links)
    (h : (a, b) ∈ of.1 ∨ (a, b) ∈ of.2) : SharesCohort definitions productBases groups a b := by
  obtain ⟨k, hk⟩ := getElem?_of_mem hof
  obtain ⟨cohort, hcohort, hok⟩ := getElem?_of_forall₂_right (mapM_ok hlinks) hk
  obtain ⟨key, hkey⟩ := mem_cohort (mem_of_getElem? hcohort)
  obtain ⟨hidentity, hlocal, -⟩ := cohortLinks_ok hok
  obtain ⟨d, hd, d', hd', ha, hb⟩ : ∃ d ∈ cohort, ∃ d' ∈ cohort,
      productGroups.get d = some a ∧ productGroups.get d' = some b := by
    rcases h with h | h
    · exact hidentity a b h
    · exact (hlocal a b h).1
  obtain ⟨g, hg, hdg⟩ := (hfiles d a).mp ha
  obtain ⟨g', hg', hdg'⟩ := (hfiles d' b).mp hb
  exact ⟨g, g', d, d', hg, hg', hdg, hdg',
    (sameCohort_iff hmembers d d').mpr ⟨key, (hkey d).mp hd, (hkey d').mp hd'⟩⟩

/-- Groups that share a cohort are connected by its links. -/
theorem links_of_sharesCohort (h : SharesCohort definitions productBases groups a b) :
    ∃ of ∈ links, EqvGen (fun a b => (a, b) ∈ of.1) a b ∧
      (groups[a]?.map Prod.fst = groups[b]?.map Prod.fst →
        EqvGen (fun a b => (a, b) ∈ of.2) a b) := by
  obtain ⟨g, g', d, d', ha, hb, hd, hd', hsame⟩ := h
  obtain ⟨key, hmem, hmem'⟩ := (sameCohort_iff hmembers d d').mp hsame
  obtain ⟨cohort, hcohort, hkey⟩ := exists_cohort hmem
  obtain ⟨k, hk⟩ := getElem?_of_mem hcohort
  obtain ⟨of, hof, hok⟩ := getElem?_of_forall₂ (mapM_ok hlinks) hk
  obtain ⟨-, -, hcomplete⟩ := cohortLinks_ok hok
  refine ⟨of, mem_of_getElem? hof, ?_⟩
  exact hcomplete d ((hkey d).mpr hmem) d' ((hkey d').mpr hmem') a b
    ((hfiles d a).mpr ⟨g, ha, hd⟩) ((hfiles d' b).mpr ⟨g', hb, hd'⟩)

/-- The links across producers connect what chains of shared cohorts do. -/
theorem eqvGen_identityLinks (a b : Nat) :
    EqvGen (fun a b => (a, b) ∈ links.flatMap Prod.fst) a b ↔
      ReflTransGen (SharesCohort definitions productBases groups) a b := by
  refine eqvGen_iff_chain (fun a b hab => ?_) (fun _ _ hab => hab.symm) (fun a b hab => ?_) a b
  · obtain ⟨of, hof, hab⟩ := mem_flatMap.mp hab
    exact sharesCohort_of_link hmembers hfiles hlinks hof (.inl hab)
  · obtain ⟨of, hof, hchain, -⟩ := links_of_sharesCohort hmembers hfiles hlinks hab
    exact EqvGen.mono (fun _ _ h => mem_flatMap.mpr ⟨of, hof, h⟩) _ _ hchain

/-- The links inside producers connect what chains inside a producer do. -/
theorem eqvGen_localLinks (a b : Nat) :
    EqvGen (fun a b => (a, b) ∈ links.flatMap Prod.snd) a b ↔
      ReflTransGen (SharesLocally definitions productBases groups) a b := by
  refine eqvGen_iff_chain (fun a b hab => ?_) (fun _ _ hab => ⟨hab.1.symm, hab.2.symm⟩)
    (fun a b hab => ?_) a b
  · obtain ⟨of, hof, hab⟩ := mem_flatMap.mp hab
    refine ⟨sharesCohort_of_link hmembers hfiles hlinks hof (.inr hab), ?_⟩
    obtain ⟨k, hk⟩ := getElem?_of_mem hof
    obtain ⟨cohort, -, hok⟩ := getElem?_of_forall₂_right (mapM_ok hlinks) hk
    exact ((cohortLinks_ok hok).2.1 a b hab).2
  · obtain ⟨of, hof, -, hchain⟩ := links_of_sharesCohort hmembers hfiles hlinks hab.1
    exact EqvGen.mono (fun _ _ h => mem_flatMap.mpr ⟨of, hof, h⟩) _ _ (hchain hab.2)

end

end

end ItemDependencies
