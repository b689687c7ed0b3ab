import ItemDependencies.Definitions.Stability

/-!
# A reduced list keeps its ordinals

The assignment over a restated list looks every identity up in the universe of
the first run and finds there the ordinal that the definition had.
-/

namespace ItemDependencies

open Library List Option

/-! ## From restated to corresponding lists -/

variable {located : List LocatedDefinition}

theorem cohortKey_eq_iff_sameProduct {first : List RawDefinition}
    (hloc : List.Forall₂ (fun d l => locate none d = .ok l) first located) {i j : Nat}
    {d e : RawDefinition} (hi : first[i]? = some d) (hj : first[j]? = some e) :
    cohortKey located i = cohortKey located j ↔ SameProduct d e := by
  obtain ⟨l, hl, hld⟩ := getElem?_of_forall₂ hloc hi
  obtain ⟨l', hl', hle⟩ := getElem?_of_forall₂ hloc hj
  obtain ⟨rfl, -⟩ := locate_none_ok hld
  obtain ⟨rfl, -⟩ := locate_none_ok hle
  simp only [cohortKey, hl, hl', map_some, Option.some.injEq, LocatedDefinition.cohort,
    Cohort.mk.injEq, SameProduct]

theorem compilerOrdinal_of_getElem? {definitions : List LocatedDefinition} {i : Nat}
    {l : LocatedDefinition} (hl : definitions[i]? = some l) :
    compilerOrdinal definitions i = l.definition.structuralOrdinal := by
  simp only [compilerOrdinal, hl, map_some, getD_some]

/-- A first run in which every parent is listed corresponds to each list that restates a part of
it. -/
theorem corresponds_of_restates {coordinates : SourceRewrite} {rename : Nat → Nat}
    {first second : List RawDefinition} {sources : List Nat} (hdistinct : DistinctCompilerIds first)
    (hr : Restates coordinates rename first sources second)
    (hloc : List.Forall₂ (fun d l => locate none d = .ok l) first located)
    (hparents : ∀ (i : Nat) (l : LocatedDefinition) (parent : Nat), located[i]? = some l →
      l.definition.parent = some parent → ∃ j, byCompilerId located parent = some j) :
    ∃ reduced, second.mapM (locate (some coordinates)) = .ok reduced ∧
      Corresponds rename located sources reduced := by
  have hat : ∀ {i : Nat} {d : RawDefinition}, first[i]? = some d → ∃ l, located[i]? = some l ∧
      locate none d = .ok l := fun hd => getElem?_of_forall₂ hloc hd
  have hback : ∀ {i : Nat} {l : LocatedDefinition}, located[i]? = some l →
      first[i]? = some l.definition := definition_of_located hloc
  obtain ⟨reduced, hreduced⟩ := exists_forall₂
    (R := fun d l => locate (some coordinates) d = .ok l) (l := second) (by
      intro d hd
      obtain ⟨k, hk⟩ := mem_iff_getElem?.mp hd
      obtain ⟨i, -, d, hd, hrd⟩ := getElem?_of_forall₂_right hr.definitions hk
      obtain ⟨l, -, hdl⟩ := hat hd
      exact ⟨_, locate_restates hrd hdl⟩)
  have hlocated : List.Forall₂ (fun i reduced =>
      ∃ l, located[i]? = some l ∧ LocatedAt rename l reduced) sources reduced := by
    refine forall₂_iff_get.mpr
      ⟨hr.definitions.length_eq.trans hreduced.length_eq, fun k hk hk' => ?_⟩
    obtain ⟨d', hd', d, hd, hrd⟩ := getElem?_of_forall₂ hr.definitions (getElem?_eq_getElem hk)
    obtain ⟨l', hl', hdl'⟩ := getElem?_of_forall₂ hreduced hd'
    obtain ⟨l, hl, hdl⟩ := hat hd
    have heq := hdl'.symm.trans (locate_restates hrd hdl)
    obtain ⟨rfl, -⟩ := locate_none_ok hdl
    have hget : reduced.get ⟨k, hk'⟩ = l' := by
      have := getElem?_eq_getElem hk'
      rw [hl'] at this
      exact (Option.some.inj this).symm
    refine ⟨_, hl, ?_⟩
    cases heq
    rw [hget]
    exact ⟨rfl, rfl, hrd.kind, hrd.name, hrd.compilerId, hrd.parent⟩
  refine ⟨reduced, mapM_total hreduced, hr.nodup, hlocated, distinct_of_located hloc hdistinct, ?_,
    ?_, ?_, ?_⟩
  · intro i hi l parent hl hp
    obtain ⟨j, hj⟩ := hparents i l parent hl hp
    obtain ⟨l', hl', hid⟩ := byCompilerId_some hj
    exact ⟨j, hr.parentClosed i hi j _ _ (hback hl) (hback hl') (by rw [hp, hid]), l', hl', hid⟩
  · intro i hi j hkey
    obtain ⟨k, hk⟩ := mem_iff_getElem?.mp hi
    obtain ⟨-, -, l, hl, -⟩ := getElem?_of_forall₂ hlocated hk
    cases hl' : located[j]? with
    | none =>
      simp only [cohortKey, hl, hl', map_some, map_none, reduceCtorEq] at hkey
    | some l' =>
      exact hr.cohortsWhole i hi j _ _ (hback hl) (hback hl')
        ((cohortKey_eq_iff_sameProduct hloc (hback hl) (hback hl')).mp hkey.symm)
  · intro i hi j hj l l' hl hl' heq
    exact hr.renameInjective i hi j hj _ _ (hback hl) (hback hl') heq
  · intro k m i j hk hm hkey
    obtain ⟨d', hd', d, hd, -⟩ := getElem?_of_forall₂ hr.definitions hk
    obtain ⟨e', he', e, he, -⟩ := getElem?_of_forall₂ hr.definitions hm
    obtain ⟨l, hl, hdl⟩ := hat hd
    obtain ⟨n, hn, hen⟩ := hat he
    obtain ⟨l', hl', hdl'⟩ := getElem?_of_forall₂ hreduced hd'
    obtain ⟨n', hn', hen'⟩ := getElem?_of_forall₂ hreduced he'
    rw [compilerOrdinal_of_getElem? hl, compilerOrdinal_of_getElem? hn,
      compilerOrdinal_of_getElem? hl', compilerOrdinal_of_getElem? hn', (locate_ok hdl).1,
      (locate_ok hen).1, (locate_ok hdl').1, (locate_ok hen').1]
    exact hr.cohortOrder k m i j d e d' e' hk hm hd he hd' he'
      ((cohortKey_eq_iff_sameProduct hloc hd he).mp hkey)

/-! ## What a run that returns has established -/

variable {coordinates : Option SourceRewrite}

/-- The stages of a run that returns. -/
theorem assignStructuralOrdinals_ok {definitions : List RawDefinition}
    {expected : Option DefinitionIdentityUniverse} {definitions' : List RawDefinition}
    {given : DefinitionIdentityUniverse}
    (h : assignStructuralOrdinals definitions coordinates expected = .ok (definitions', given)) :
    ∃ located identities state,
      structuralIdentities definitions coordinates = .ok (located, identities) ∧
      publicOrdinals located identities expected = .ok state ∧
      definitions' = definitions.mapIdx (fun i d => d.withOrdinal (state.ordinals i)) ∧
      given = { ordinals := state.identityUniverse } := by
  obtain ⟨⟨located, identities⟩, hids, h⟩ := bind_ok h
  obtain ⟨state, hstate, h⟩ := bind_ok h
  cases h
  exact ⟨located, identities, state, hids, hstate, rfl, rfl⟩

theorem structuralIdentities_ok {definitions : List RawDefinition}
    {identities : List DefinitionIdentityKey}
    (h : structuralIdentities definitions coordinates = .ok (located, identities)) :
    ∃ ordinals, definitions.mapM (locate coordinates) = .ok located ∧
      privateCohortOrdinals located = .ok ordinals ∧
      List.Forall₂ (IdentityOf located ordinals) (List.range located.length) identities := by
  obtain ⟨located', hmap, h⟩ := bind_ok h
  obtain ⟨ordinals, hord, h⟩ := bind_ok h
  obtain ⟨identities', hids, h⟩ := bind_ok h
  cases h
  exact ⟨ordinals, hmap, hord, locatedIdentities_ok.mp hids⟩

/-! ## The run over the restated list -/

section Reduced

variable {rename : Nat → Nat} {first second : List LocatedDefinition} {sources : List Nat}
  {ordinals : Nat → Nat} {identities kept : List DefinitionIdentityKey}

theorem getElem?_identities
    (hids : List.Forall₂ (IdentityOf first ordinals) (List.range first.length) identities) {i : Nat}
    (hi : i < first.length) : ∃ key, identities[i]? = some key ∧ IdentityOf first ordinals i key :=
  getElem?_of_forall₂ hids (by rw [getElem?_range hi])

/-- The reduced list has the identities of its sources. -/
theorem Corresponds.exists_identities (h : Corresponds rename first sources second)
    (hord : privateCohortOrdinals first = .ok ordinals)
    (hids : List.Forall₂ (IdentityOf first ordinals) (List.range first.length) identities) :
    ∃ reduced kept, privateCohortOrdinals second = .ok reduced ∧
      locatedIdentities second reduced = .ok kept ∧ kept.length = second.length ∧
      ∀ k i : Nat, sources[k]? = some i → kept[k]? = identities[i]? := by
  obtain ⟨hranked, hval⟩ := privateCohortOrdinals_ok hord
  obtain ⟨reduced, hred⟩ := privateCohortOrdinals_total (h.cohortsRanked hranked)
  have hsame : ∀ k i : Nat, sources[k]? = some i → reduced k = ordinals i := by
    intro k i hk
    rw [(privateCohortOrdinals_ok hred).2 k (h.lt_of_source hk),
      hval i (h.lt_length (mem_of_getElem? hk)), h.rankIn_eq hk]
  have hkey : ∀ {k i : Nat}, sources[k]? = some i →
      ∃ key, identities[i]? = some key ∧ IdentityOf second reduced k key := by
    intro k i hk
    obtain ⟨key, hi, hkey⟩ := getElem?_identities hids (h.lt_length (mem_of_getElem? hk))
    exact ⟨key, hi, h.identityOf hsame hkey hk⟩
  obtain ⟨kept, hkept⟩ := exists_forall₂ (R := IdentityOf second reduced)
    (l := List.range second.length) (by
      intro k hk
      obtain ⟨i, hi⟩ := h.source_of_lt (mem_range.mp hk)
      obtain ⟨key, -, hkey⟩ := hkey hi
      exact ⟨key, hkey⟩)
  refine ⟨reduced, kept, hred, locatedIdentities_ok.mpr hkept, ?_, fun k i hk => ?_⟩
  · rw [← hkept.length_eq, length_range]
  · obtain ⟨key, hi, hkey⟩ := hkey hk
    obtain ⟨key', hk', hkey'⟩ := getElem?_identities hkept (h.lt_of_source hk)
    rw [hk', hi, hkey'.unique hkey]

/-- A definition has the same public cohort in both lists. -/
theorem Corresponds.publicCohort (h : Corresponds rename first sources second)
    (hkept : ∀ k i : Nat, sources[k]? = some i → kept[k]? = identities[i]?) {k i : Nat}
    {l reduced : LocatedDefinition} (hk : sources[k]? = some i) (hl : first[i]? = some l)
    (hred : second[k]? = some reduced) :
    publicCohort second kept reduced = publicCohort first identities l := by
  obtain ⟨l', reduced', hl', hred', hat⟩ := h.at_source hk
  obtain rfl := Option.some.inj (hl.symm.trans hl')
  obtain rfl := Option.some.inj (hred.symm.trans hred')
  have hparent : parentIdentity second kept reduced = parentIdentity first identities l := by
    unfold parentIdentity
    rw [hat.parent]
    cases hp : l.definition.parent with
    | none => rfl
    | some parent =>
      obtain ⟨j, hj, lp, hlp, rfl⟩ := h.parentListed i (mem_of_getElem? hk) l parent hl hp
      obtain ⟨m, hm⟩ := mem_iff_getElem?.mp hj
      simp only [map_some, h.byCompilerId_rename hm hlp,
        byCompilerId_eq_some h.distinctIds hlp rfl, bind_some, hkept m j hm]
  simp only [ItemDependencies.publicCohort, hparent, hat.origin, hat.kind, hat.name]

/-- The public cohorts are those of the sources. -/
theorem Corresponds.exists_publicKeys (h : Corresponds rename first sources second)
    (hkept : ∀ k i : Nat, sources[k]? = some i → kept[k]? = identities[i]?)
    {keys : List PublicCohort}
    (hkeys : List.Forall₂
      (fun d key => ItemDependencies.publicCohort first identities d = .ok key) first keys) :
    ∃ keys' : List PublicCohort, List.Forall₂
      (fun d key => ItemDependencies.publicCohort second kept d = .ok key) second keys' ∧
      ∀ k i : Nat, sources[k]? = some i → keys'[k]? = keys[i]? := by
  obtain ⟨keys', hkeys'⟩ := exists_forall₂
    (R := fun d key => ItemDependencies.publicCohort second kept d = .ok key) (l := second) (by
      intro d hd
      obtain ⟨k, hk⟩ := mem_iff_getElem?.mp hd
      obtain ⟨i, hi⟩ := h.source_of_lt (List.getElem?_eq_some_iff.mp hk).1
      obtain ⟨l, -, hl, -⟩ := h.at_source hi
      obtain ⟨key, -, hkey⟩ := getElem?_of_forall₂ hkeys hl
      exact ⟨key, (h.publicCohort hkept hi hl hk).trans hkey⟩)
  refine ⟨keys', hkeys', fun k i hk => ?_⟩
  obtain ⟨l, reduced, hl, hred, -⟩ := h.at_source hk
  obtain ⟨key, hkey, hl'⟩ := getElem?_of_forall₂ hkeys hl
  obtain ⟨key', hkey', hr'⟩ := getElem?_of_forall₂ hkeys' hred
  rw [h.publicCohort hkept hk hl hred, hl'] at hr'
  cases hr'
  rw [hkey, hkey']

/-- With the universe of the first run every definition of the reduced list gets the ordinal of
its source. -/
theorem Corresponds.publicOrdinals (h : Corresponds rename first sources second)
    {state : Assignment} (hkept : ∀ k i : Nat, sources[k]? = some i → kept[k]? = identities[i]?)
    (hstate : publicOrdinals first identities none = .ok state) :
    ∃ reduced, publicOrdinals second kept (some { ordinals := state.identityUniverse }) =
      .ok reduced ∧
      (∀ k i : Nat, sources[k]? = some i → reduced.ordinals k = state.ordinals i) ∧
      ∀ key ordinal, reduced.identityUniverse key = some ordinal ↔
        state.identityUniverse key = some ordinal ∧ ∃ i ∈ sources, identities[i]? = some key := by
  obtain ⟨keys, hkeys, hassigned, hdistinct⟩ := publicOrdinals_ok hstate
  set target : Nat → Nat := fun k => state.ordinals ((sources[k]?).getD 0) with htarget
  have hat : ∀ {k i : Nat}, sources[k]? = some i → target k = state.ordinals i := by
    intro k i hk
    simp only [htarget, hk, getD_some]
  have hrecorded : ∀ {k i : Nat}, sources[k]? = some i → ∃ key, identities[i]? = some key ∧
      state.identityUniverse key = some (state.ordinals i) := fun hk =>
    hassigned.recorded _ (mem_range.mpr (h.lt_length (mem_of_getElem? hk)))
  obtain ⟨keys', hkeys', hsamekey⟩ := h.exists_publicKeys hkept hkeys
  obtain ⟨reduced, hreduced⟩ := publicOrdinals_total
    (e := { ordinals := state.identityUniverse }) (t := target) hkeys'
    (by
      intro k hk
      obtain ⟨i, hi⟩ := h.source_of_lt hk
      obtain ⟨key, hkey, hrec⟩ := hrecorded hi
      exact ⟨key, (hkept k i hi).trans hkey, by rw [hat hi]; exact hrec⟩)
    (by
      intro k hk m hm heq
      obtain ⟨i, hi⟩ := h.source_of_lt hk
      obtain ⟨j, hj⟩ := h.source_of_lt hm
      rw [hkept k i hi, hkept m j hj] at heq
      obtain rfl := hassigned.injective i (mem_range.mpr (h.lt_length (mem_of_getElem? hi))) j
        (mem_range.mpr (h.lt_length (mem_of_getElem? hj))) heq
      exact h.source_injective hi hj)
    (by
      intro k hk m hm hkey heq
      obtain ⟨i, hi⟩ := h.source_of_lt hk
      obtain ⟨j, hj⟩ := h.source_of_lt hm
      rw [hsamekey k i hi, hsamekey m j hj] at hkey
      rw [hat hi, hat hj] at heq
      obtain rfl := hdistinct i (h.lt_length (mem_of_getElem? hi)) j
        (h.lt_length (mem_of_getElem? hj)) hkey heq
      exact h.source_injective hi hj)
  obtain ⟨-, -, hassigned', -⟩ := publicOrdinals_ok hreduced
  have hmem : ∀ {k i : Nat}, sources[k]? = some i → k ∈ List.range second.length := fun hk =>
    mem_range.mpr (h.lt_of_source hk)
  have hord : ∀ k i : Nat, sources[k]? = some i → reduced.ordinals k = state.ordinals i := by
    intro k i hk
    obtain ⟨key, hkey, hrec⟩ := hrecorded hk
    have := hassigned'.expectedOrdinal _ rfl k (hmem hk) key ((hkept k i hk).trans hkey)
    exact Option.some.inj (this.symm.trans hrec)
  refine ⟨reduced, hreduced, hord, fun key ordinal => ⟨fun hrec => ?_, ?_⟩⟩
  · obtain ⟨k, hk, hkey⟩ := hassigned'.recordedOnly key ordinal hrec
    obtain ⟨i, hi⟩ := h.source_of_lt (mem_range.mp hk)
    obtain ⟨key', hkey', hrec'⟩ := hassigned'.recorded k hk
    obtain rfl := Option.some.inj (hkey.symm.trans hkey')
    have hexp := hassigned'.expectedOrdinal _ rfl k hk key hkey
    rw [hrec] at hrec'
    rw [hrec']
    exact ⟨hexp, i, mem_of_getElem? hi, (hkept k i hi).symm.trans hkey⟩
  · rintro ⟨hrec, i, hi, hkey⟩
    obtain ⟨k, hk⟩ := mem_iff_getElem?.mp hi
    obtain ⟨key', hkey', hrec'⟩ := hassigned'.recorded k (hmem hk)
    rw [hkept k i hk, hkey] at hkey'
    obtain rfl := Option.some.inj hkey'
    have hexp := hassigned'.expectedOrdinal _ rfl k (hmem hk) key ((hkept k i hk).trans hkey)
    exact hrec'.trans (hexp.symm.trans hrec)

end Reduced

/-! ## The two runs -/

/-- The reduced run returns, with the ordinals of the first run and its universe restricted to the
definitions that are left. -/
theorem assignStructuralOrdinals_restates {coordinates : SourceRewrite} {rename : Nat → Nat}
    {first second first' : List RawDefinition} {sources : List Nat}
    {given : DefinitionIdentityUniverse} {identities : List DefinitionIdentityKey}
    (hdistinct : DistinctCompilerIds first)
    (h : assignStructuralOrdinals first none none = .ok (first', given))
    (hids : structuralIdentities first none = .ok (located, identities))
    (hr : Restates coordinates rename first sources second) :
    ∃ second' kept,
      assignStructuralOrdinals second (some coordinates) (some given) = .ok (second', kept) ∧
      (∀ k i : Nat, sources[k]? = some i → second'[k]?.map RawDefinition.structuralOrdinal =
        first'[i]?.map RawDefinition.structuralOrdinal) ∧
      ∀ key ordinal, kept.ordinals key = some ordinal ↔
        given.ordinals key = some ordinal ∧ ∃ i ∈ sources, identities[i]? = some key := by
  obtain ⟨located', identities', state, hids', hstate, rfl, rfl⟩ := assignStructuralOrdinals_ok h
  cases hids.symm.trans hids'
  obtain ⟨ordinals, hmap, hord, hpaths⟩ := structuralIdentities_ok hids
  obtain ⟨reduced, hreduced, hc⟩ := corresponds_of_restates hdistinct hr (mapM_ok hmap) (by
    intro i l parent hl hp
    obtain ⟨key, -, hkey⟩ := getElem?_identities hpaths (List.getElem?_eq_some_iff.mp hl).1
    cases hkey with
    | root hi hnone =>
      obtain rfl := Option.some.inj (hl.symm.trans hi)
      rw [hp] at hnone
      cases hnone
    | child hi hp' hj =>
      obtain rfl := Option.some.inj (hl.symm.trans hi)
      obtain rfl := Option.some.inj (hp.symm.trans hp')
      exact ⟨_, hj⟩)
  obtain ⟨ordinals', kept, hord', hkept', -, hkept⟩ := hc.exists_identities hord hpaths
  obtain ⟨state', hstate', hsame, huniv⟩ := hc.publicOrdinals hkept hstate
  refine ⟨second.mapIdx fun k d => d.withOrdinal (state'.ordinals k),
    { ordinals := state'.identityUniverse }, ?_, ?_, huniv⟩
  · rw [assignStructuralOrdinals, structuralIdentities, hreduced]
    simp only [bind, Except.bind, hord', hkept', hstate', pure, Except.pure]
  · intro k i hk
    obtain ⟨d', hd', d, hd, -⟩ := getElem?_of_forall₂ hr.definitions hk
    simp only [getElem?_mapIdx, hd, hd', map_some, RawDefinition.withOrdinal, hsame k i hk]

/-- Whatever is listed, a run that returns has found pairwise distinct identities in the universe
that it was given. -/
theorem assignStructuralOrdinals_expected {definitions definitions' : List RawDefinition}
    {given kept : DefinitionIdentityUniverse}
    (h : assignStructuralOrdinals definitions coordinates (some given) = .ok (definitions', kept)) :
    ∃ located identities, structuralIdentities definitions coordinates = .ok (located, identities) ∧
      identities.length = definitions.length ∧ identities.Nodup ∧
      ∀ key ∈ identities, (given.ordinals key).isSome := by
  obtain ⟨located, identities, state, hids, hstate, -, -⟩ := assignStructuralOrdinals_ok h
  obtain ⟨ordinals, hmap, -, hpaths⟩ := structuralIdentities_ok hids
  obtain ⟨-, -, hassigned, -⟩ := publicOrdinals_ok hstate
  have hlength : identities.length = located.length := by
    rw [← hpaths.length_eq, length_range]
  refine ⟨located, identities, hids, hlength.trans (mapM_ok hmap).length_eq.symm, ?_, ?_⟩
  · refine nodup_iff_getElem?_ne_getElem?.mpr fun i j hij hj heq => ?_
    have := hassigned.injective i (mem_range.mpr (by omega)) j (mem_range.mpr (by omega)) heq
    omega
  · intro key hkey
    obtain ⟨i, hi⟩ := mem_iff_getElem?.mp hkey
    have hlt : i < located.length := hlength ▸ (List.getElem?_eq_some_iff.mp hi).1
    rw [hassigned.expectedOrdinal given rfl i (mem_range.mpr hlt) key hi]
    rfl

/-- Identities are stable: a list that restates a part of the first one gets the ordinals of the
first run and its universe restricted to that part, and no list at all is accepted unless its
identities are distinct and known. -/
theorem assignStructuralOrdinals_stable {first first' : List RawDefinition}
    {given : DefinitionIdentityUniverse} (hdistinct : DistinctCompilerIds first)
    (h : assignStructuralOrdinals first none none = .ok (first', given)) :
    ∃ located identities, structuralIdentities first none = .ok (located, identities) ∧
      (∀ (coordinates : SourceRewrite) (rename : Nat → Nat) (sources : List Nat)
        (second : List RawDefinition), Restates coordinates rename first sources second →
        ∃ second' kept,
          assignStructuralOrdinals second (some coordinates) (some given) = .ok (second', kept) ∧
          (∀ k i : Nat, sources[k]? = some i → second'[k]?.map RawDefinition.structuralOrdinal =
            first'[i]?.map RawDefinition.structuralOrdinal) ∧
          ∀ key ordinal, kept.ordinals key = some ordinal ↔
            given.ordinals key = some ordinal ∧ ∃ i ∈ sources, identities[i]? = some key) ∧
      ∀ (coordinates : SourceRewrite) (second second' : List RawDefinition)
        (kept : DefinitionIdentityUniverse),
        assignStructuralOrdinals second (some coordinates) (some given) = .ok (second', kept) →
        ∃ located' identities',
          structuralIdentities second (some coordinates) = .ok (located', identities') ∧
          identities'.length = second.length ∧ identities'.Nodup ∧
          ∀ key ∈ identities', (given.ordinals key).isSome := by
  obtain ⟨located, identities, -, hids, -⟩ := assignStructuralOrdinals_ok h
  exact ⟨located, identities, hids,
    fun _ _ _ _ hr => assignStructuralOrdinals_restates hdistinct h hids hr,
    fun _ _ _ _ => assignStructuralOrdinals_expected⟩

/-! ### A macro product that is left alone -/

/-- A crate root, and two functions of one name that one macro invocation generated from different
parts of the source. -/
def twoFunctions : List RawDefinition :=
  [{ compilerId := 0, parent := none, kind := .crateRoot, name := none, productBasis := none
     origin := .written ⟨0⟩ ⟨0, 3⟩ ⟨0, 3⟩ .crateRoot 0, structuralOrdinal := 0 },
   { compilerId := 1, parent := some 0, kind := .function, name := some "f"
     productBasis := some [⟨.written .macroRule, ⟨1, 2⟩⟩]
     origin := .expanded ⟨1⟩ ⟨1, 3⟩ none 0, structuralOrdinal := 0 },
   { compilerId := 2, parent := some 0, kind := .function, name := some "f"
     productBasis := some [⟨.written .macroRule, ⟨2, 3⟩⟩]
     origin := .expanded ⟨1⟩ ⟨1, 3⟩ none 0, structuralOrdinal := 1 }]

/-- The first byte of three is deleted. -/
def firstByteDeleted : SourceRewrite where
  source := ['f', 'g']
  pieces := [⟨⟨0, 2⟩, ⟨1, 3⟩⟩]
  originalLen := 3

/-- The second function and the crate root, as a compiler lists them when the first function is not
generated any more. -/
def oneFunction : List RawDefinition :=
  [{ compilerId := 8, parent := some 7, kind := .function, name := some "f"
     productBasis := some [⟨.written .macroRule, ⟨1, 2⟩⟩]
     origin := .expanded ⟨1⟩ ⟨0, 2⟩ none 0, structuralOrdinal := 0 },
   { compilerId := 7, parent := none, kind := .crateRoot, name := none, productBasis := none
     origin := .written ⟨0⟩ ⟨0, 2⟩ ⟨0, 2⟩ .crateRoot 0, structuralOrdinal := 0 }]

theorem restates_oneFunction :
    Restates firstByteDeleted (fun id => if id = 0 then 7 else 6 + id) twoFunctions [2, 0]
      oneFunction where
  nodup := by decide
  definitions := by
    refine .cons ⟨_, rfl, rfl, rfl, rfl, rfl, ⟨rfl, rfl⟩, .cons ⟨rfl, rfl⟩ .nil⟩
      (.cons ⟨_, rfl, rfl, rfl, rfl, rfl, ⟨rfl, rfl⟩, trivial⟩ .nil)
  parentClosed := by
    intro i hi j d e hd he hp
    rcases mem_pair.mp hi with rfl | rfl <;> cases hd
    · rcases j with _ | _ | _ | j <;> cases he <;> simp at hp ⊢
    · cases hp
  cohortsWhole := by
    intro i hi j d e hd he hs
    obtain ⟨-, -, hb, -⟩ := hs
    rcases mem_pair.mp hi with rfl | rfl <;> cases hd <;> rcases j with _ | _ | _ | j <;>
      cases he <;> simp at hb ⊢
  renameInjective := by
    intro i hi j hj d e hd he heq
    rcases mem_pair.mp hi with rfl | rfl <;> rcases mem_pair.mp hj with rfl | rfl <;>
      cases hd <;> cases he <;> simp at heq ⊢
  cohortOrder := by
    intro k l i j d e d' e' hk hl hd he hd' he' hs
    obtain ⟨-, -, hb, -⟩ := hs
    rcases k with _ | _ | k <;> rcases l with _ | _ | l <;> cases hk <;> cases hl <;> cases hd <;>
      cases he <;> cases hd' <;> cases he' <;> simp at hb ⊢

/-- The second function is left alone, and keeps the ordinal 1. -/
theorem assignStructuralOrdinals_oneFunction :
    ∃ first' given second' kept, assignStructuralOrdinals twoFunctions none none =
      .ok (first', given) ∧
      assignStructuralOrdinals oneFunction (some firstByteDeleted) (some given) =
        .ok (second', kept) ∧
      second'.head?.map RawDefinition.structuralOrdinal = some 1 := by
  have hrun :
      ∃ first' given, assignStructuralOrdinals twoFunctions none none = .ok (first', given) ∧
      first'[2]?.map RawDefinition.structuralOrdinal = some 1 := ⟨_, _, rfl, by decide⟩
  obtain ⟨first', given, hfirst, hordinal⟩ := hrun
  obtain ⟨_, _, -, hstable, -⟩ := assignStructuralOrdinals_stable (by decide) hfirst
  obtain ⟨second', kept, hsecond, hsame, -⟩ := hstable _ _ _ _ restates_oneFunction
  refine ⟨first', given, second', kept, hfirst, hsecond, ?_⟩
  rw [head?_eq_getElem?, hsame 0 2 rfl, hordinal]

/-! ### Compiler ids that are listed twice -/

/-- Two definitions with one compiler id, and a child of it. -/
def sharedId : List RawDefinition :=
  [{ compilerId := 1, parent := none, kind := .const, name := none, productBasis := none
     origin := .compilerGenerated .anonymousConst 0, structuralOrdinal := 0 },
   { compilerId := 1, parent := none, kind := .static, name := none, productBasis := none
     origin := .compilerGenerated .nestedStatic 0, structuralOrdinal := 0 },
   { compilerId := 2, parent := some 1, kind := .field, name := some "x", productBasis := none
     origin := .compilerGenerated .anonymousConst 0, structuralOrdinal := 0 }]

/-- The same definitions in another order. -/
def sharedIdReordered : List RawDefinition :=
  [{ compilerId := 1, parent := none, kind := .static, name := none, productBasis := none
     origin := .compilerGenerated .nestedStatic 0, structuralOrdinal := 0 },
   { compilerId := 1, parent := none, kind := .const, name := none, productBasis := none
     origin := .compilerGenerated .anonymousConst 0, structuralOrdinal := 0 },
   { compilerId := 2, parent := some 1, kind := .field, name := some "x", productBasis := none
     origin := .compilerGenerated .anonymousConst 0, structuralOrdinal := 0 }]

theorem restates_sharedIdReordered :
    Restates ⟨[], [], 0⟩ id sharedId [1, 0, 2] sharedIdReordered where
  nodup := by decide
  definitions := by
    refine .cons ⟨_, rfl, rfl, rfl, rfl, rfl, rfl, trivial⟩
      (.cons ⟨_, rfl, rfl, rfl, rfl, rfl, rfl, trivial⟩
        (.cons ⟨_, rfl, rfl, rfl, rfl, rfl, rfl, trivial⟩ .nil))
  parentClosed := by
    intro i hi j d e hd he hp
    rcases j with _ | _ | _ | j <;> cases he <;> simp
  cohortsWhole := by
    intro i hi j d e hd he hs
    rcases j with _ | _ | _ | j <;> cases he <;> simp
  renameInjective := by
    intro i hi j hj d e hd he heq
    exact heq
  cohortOrder := by
    intro k l i j d e d' e' hk hl hd he hd' he' hs
    rcases k with _ | _ | _ | k <;> rcases l with _ | _ | _ | l <;> cases hk <;> cases hl <;>
      cases hd <;> cases he <;> cases hd' <;> cases he' <;> simp

/-- The last definition with an id counts as the parent, so the order of the list matters when an
id is shared: the reordered list is refused. -/
theorem assignStructuralOrdinals_sharedId :
    ∃ first' given, assignStructuralOrdinals sharedId none none = .ok (first', given) ∧
      Restates ⟨[], [], 0⟩ id sharedId [1, 0, 2] sharedIdReordered ∧
      ∀ result, assignStructuralOrdinals sharedIdReordered (some ⟨[], [], 0⟩) (some given) ≠
        .ok result := by
  have hrun : ∃ first' given, assignStructuralOrdinals sharedId none none = .ok (first', given) ∧
      assignStructuralOrdinals sharedIdReordered (some ⟨[], [], 0⟩) (some given) =
        .error .incompleteDefinition := ⟨_, _, rfl, rfl⟩
  obtain ⟨first', given, hfirst, hsecond⟩ := hrun
  refine ⟨first', given, hfirst, restates_sharedIdReordered, fun result h => ?_⟩
  rw [hsecond] at h
  cases h

end ItemDependencies
