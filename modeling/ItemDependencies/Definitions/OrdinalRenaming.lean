import ItemDependencies.Definitions.CanonicalRenaming

/-!
# Ordinals do not depend on the compiler's numbers

The cohorts of a list in another order and with other compiler ids are those of the list, and their
members have the compiler ordinals that they had.  So they get the same ranks, the same identities
and the same ordinals, whether these are ranked or looked up.
-/

namespace ItemDependencies

open Library List Option

variable {rename : Nat → Nat} {first second : List LocatedDefinition} {sources : List Nat}
  {identities kept : List DefinitionIdentityKey} {expected : Option DefinitionIdentityUniverse}

/-- The second list is the first in another order: all sources are there, with their compiler
ordinals. -/
structure Rearranges (rename : Nat → Nat) (first : List LocatedDefinition) (sources : List Nat)
    (second : List LocatedDefinition) : Prop extends Corresponds rename first sources second where
  all : ∀ i < first.length, i ∈ sources
  sameOrdinal : ∀ k i : Nat, sources[k]? = some i →
    compilerOrdinal second k = compilerOrdinal first i

namespace Rearranges

variable (h : Rearranges rename first sources second)

include h

theorem rankIn_publicMembers {keys keys' : List PublicCohort}
    (hkey : ∀ k i : Nat, sources[k]? = some i → keys'[k]? = keys[i]?) {k i : Nat}
    (hk : sources[k]? = some i) :
    rankIn (compilerOrdinal second) (publicMembers keys' second.length k) k =
      rankIn (compilerOrdinal first) (publicMembers keys first.length i) i :=
  h.rankIn_members hk (fun l j hl => by rw [hkey l j hl, hkey k i hk]) (fun j hj _ => h.all j hj)
    fun l j hl _ => by rw [h.sameOrdinal l j hl, h.sameOrdinal k i hk]

theorem length_publicMembers {keys keys' : List PublicCohort}
    (hkey : ∀ k i : Nat, sources[k]? = some i → keys'[k]? = keys[i]?) {k i : Nat}
    (hk : sources[k]? = some i) :
    (publicMembers keys' second.length k).length = (publicMembers keys first.length i).length := by
  have hperm : ((publicMembers keys' second.length k).map fun l => (sources[l]?).getD 0).Perm
      (publicMembers keys first.length i) :=
    h.perm_members (fun l j hl => by rw [hkey l j hl, hkey k i hk]) fun j hj _ => h.all j hj
  have hlength := hperm.length_eq
  rwa [length_map] at hlength

/-- Ordinals that are looked up are those of the sources. -/
theorem publicOrdinals_some {e : DefinitionIdentityUniverse} {state : Assignment}
    (hkept : ∀ k i : Nat, sources[k]? = some i → kept[k]? = identities[i]?)
    (hstate : publicOrdinals first identities (some e) = .ok state) :
    ∃ state', publicOrdinals second kept (some e) = .ok state' ∧
      ∀ k i : Nat, sources[k]? = some i → state'.ordinals k = state.ordinals i := by
  obtain ⟨keys, hkeys, hassigned, hdistinct⟩ := publicOrdinals_ok hstate
  obtain ⟨keys', hkeys', hsame⟩ := h.exists_publicKeys hkept hkeys
  have hfirst : ∀ {k i : Nat}, sources[k]? = some i → i ∈ List.range first.length := fun hk =>
    mem_range.mpr (h.lt_length (mem_of_getElem? hk))
  set target : Nat → Nat := fun k => state.ordinals ((sources[k]?).getD 0) with htarget
  have hat : ∀ {k i : Nat}, sources[k]? = some i → target k = state.ordinals i := by
    intro k i hk
    simp only [htarget, hk, getD_some]
  have hexpected : ∀ {k i : Nat}, sources[k]? = some i → ∃ key, kept[k]? = some key ∧
      e.ordinals key = some (state.ordinals i) := by
    intro k i hk
    obtain ⟨key, hkey, -⟩ := hassigned.recorded i (hfirst hk)
    exact ⟨key, (hkept k i hk).trans hkey, hassigned.expectedOrdinal e rfl i (hfirst hk) key hkey⟩
  obtain ⟨state', hstate'⟩ := publicOrdinals_total (e := e) (t := target) hkeys'
    (by
      intro k hk
      obtain ⟨i, hi⟩ := h.source_of_lt hk
      obtain ⟨key, hkey, hord⟩ := hexpected hi
      exact ⟨key, hkey, by rw [hat hi]; exact hord⟩)
    (by
      intro k hk m hm heq
      obtain ⟨i, hi⟩ := h.source_of_lt hk
      obtain ⟨j, hj⟩ := h.source_of_lt hm
      rw [hkept k i hi, hkept m j hj] at heq
      obtain rfl := hassigned.injective i (hfirst hi) j (hfirst hj) heq
      exact h.source_injective hi hj)
    (by
      intro k hk m hm hkey heq
      obtain ⟨i, hi⟩ := h.source_of_lt hk
      obtain ⟨j, hj⟩ := h.source_of_lt hm
      rw [hsame k i hi, hsame m j hj] at hkey
      rw [hat hi, hat hj] at heq
      obtain rfl := hdistinct i (mem_range.mp (hfirst hi)) j (mem_range.mp (hfirst hj)) hkey heq
      exact h.source_injective hi hj)
  refine ⟨state', hstate', fun k i hk => ?_⟩
  obtain ⟨-, -, hassigned', -⟩ := publicOrdinals_ok hstate'
  obtain ⟨key, hkey, hord⟩ := hexpected hk
  have hord' := hassigned'.expectedOrdinal e rfl k (mem_range.mpr (h.lt_of_source hk)) key hkey
  exact Option.some.inj (hord'.symm.trans hord)

/-- Ranks are those of the sources. -/
theorem publicOrdinals_none {state : Assignment}
    (hkept : ∀ k i : Nat, sources[k]? = some i → kept[k]? = identities[i]?)
    (hstate : publicOrdinals first identities none = .ok state) :
    ∃ state', publicOrdinals second kept none = .ok state' ∧
      ∀ k i : Nat, sources[k]? = some i → state'.ordinals k = state.ordinals i := by
  obtain ⟨keys, hkeys, hassigned, hdistinct⟩ := publicOrdinals_ok hstate
  obtain ⟨keys₀, hkeys₀, hranks⟩ := ItemDependencies.publicOrdinals_none hstate
  cases (mapM_total hkeys).symm.trans (mapM_total hkeys₀)
  obtain ⟨keys', hkeys', hsame⟩ := h.exists_publicKeys hkept hkeys
  have hfirst : ∀ {k i : Nat}, sources[k]? = some i → i < first.length := fun hk =>
    h.lt_length (mem_of_getElem? hk)
  have hordinals : ∀ k < second.length, ∀ m < second.length, keys'[k]? = keys'[m]? →
      compilerOrdinal second k = compilerOrdinal second m → k = m := by
    intro k hk m hm hkey heq
    obtain ⟨i, hi⟩ := h.source_of_lt hk
    obtain ⟨j, hj⟩ := h.source_of_lt hm
    rw [hsame k i hi, hsame m j hj] at hkey
    rw [h.sameOrdinal k i hi, h.sameOrdinal m j hj] at heq
    obtain rfl := (hranks i (hfirst hi)).2.1 j (hfirst hj) hkey heq
    exact h.source_injective hi hj
  set target : Nat → Nat := fun k =>
    rankIn (compilerOrdinal second) (publicMembers keys' second.length k) k with htarget
  have hat : ∀ {k i : Nat}, sources[k]? = some i → target k = state.ordinals i := fun hk =>
    (h.rankIn_publicMembers hsame hk).trans (hranks _ (hfirst hk)).2.2.symm
  obtain ⟨state', hstate'⟩ := publicOrdinals_run (t := target) hkeys'
    (by
      rintro g hg ⟨k, rank⟩ hp
      have hk : (sortPublicMembers second kept none g)[rank]? = some k :=
        mem_zipIdx_iff_getElem?.mp hp
      have hperm := perm_sortPublicMembers second kept none g
      have hmem := hperm.mem_iff.mp (mem_of_getElem? hk)
      have hin := fun {m} => mem_of_mem_groups hg hmem (y := m)
      have hlt := fun {m} (hm : m ∈ g) => mem_range.mp (hin.mp hm).1
      obtain ⟨i, hi⟩ := h.source_of_lt (hlt hmem)
      obtain ⟨key, hkey, -⟩ := hassigned.recorded i (mem_range.mpr (hfirst hi))
      refine ⟨key, (hkept k i hi).trans hkey, ?_⟩
      have hg' : g.Perm (publicMembers keys' second.length k) :=
        (perm_ext_iff_of_nodup (nodup_of_mem_groups nodup_range hg)
          (nodup_range.filter _)).mpr fun m => by
            rw [hin, mem_range]
            exact mem_publicMembers.symm
      have hneighbours : ((none : Option DefinitionIdentityUniverse).isNone && (neighbours
          (sortPublicMembers second kept none g)).any fun pair =>
            compilerOrdinal second pair.1 == compilerOrdinal second pair.2) = false :=
        neighbours_sortPublicMembers (nodup_of_mem_groups nodup_range hg)
          fun _ a ha b hb => hordinals a (hlt ha) b (hlt hb)
            ((hin.mp ha).2.trans (hin.mp hb).2.symm)
      have hsorted : (sortPublicMembers second kept none g).Pairwise fun a b =>
          compilerOrdinal second a < compilerOrdinal second b :=
        pairwise_lt_of_neighbours (pairwise_insertionSort_key (compilerOrdinal second) g)
          hneighbours
      have hrank : target k = rank := by
        rw [htarget]
        dsimp only
        rw [← rankIn_perm (hperm.trans hg')]
        exact rankIn_eq_of_pairwise hsorted hk
      have hsmall : rank < u32Size := by
        have hlength := (hperm.trans hg').length_eq
        rw [h.length_publicMembers hsame hi] at hlength
        have hle := (hranks i (hfirst hi)).1
        have hplace := (List.getElem?_eq_some_iff.mp hk).1
        omega
      rw [hrank]
      exact if_neg (not_le.mpr hsmall))
    (by
      intro k hk m hm heq
      obtain ⟨i, hi⟩ := h.source_of_lt hk
      obtain ⟨j, hj⟩ := h.source_of_lt hm
      rw [hkept k i hi, hkept m j hj] at heq
      obtain rfl := hassigned.injective i (mem_range.mpr (hfirst hi)) j
        (mem_range.mpr (hfirst hj)) heq
      exact h.source_injective hi hj)
    (by
      intro k hk m hm hkey heq
      obtain ⟨i, hi⟩ := h.source_of_lt hk
      obtain ⟨j, hj⟩ := h.source_of_lt hm
      rw [hsame k i hi, hsame m j hj] at hkey
      rw [hat hi, hat hj] at heq
      obtain rfl := hdistinct i (hfirst hi) j (hfirst hj) hkey heq
      exact h.source_injective hi hj)
    fun _ => hordinals
  refine ⟨state', hstate', fun k i hk => ?_⟩
  obtain ⟨keys'', hkeys'', hranks'⟩ := ItemDependencies.publicOrdinals_none hstate'
  cases (mapM_total hkeys').symm.trans (mapM_total hkeys'')
  rw [(hranks' k (h.lt_of_source hk)).2.2, (hranks i (hfirst hk)).2.2]
  exact h.rankIn_publicMembers hsame hk

end Rearranges

/-! ## The whole assignment -/

section Assignment

variable {raw raw' definitions : List RawDefinition} {coordinates : Option SourceRewrite}
  {given : DefinitionIdentityUniverse}

/-- The second list has at each position the renumbered definition of a source. -/
def Sourced (rename : Nat → Nat) (raw : List RawDefinition) (i : Nat) (d : RawDefinition) : Prop :=
  raw[i]?.map (RawDefinition.renumber rename) = some d

theorem sourced_iff {i : Nat} {d : RawDefinition} : Sourced rename raw i d ↔
    ∃ d₀, raw[i]? = some d₀ ∧ d = d₀.renumber rename := by
  unfold Sourced
  rw [map_eq_some_iff]
  exact exists_congr fun d₀ => and_congr_right fun _ => eq_comm

theorem forall₂_sourced (rename : Nat → Nat) (raw : List RawDefinition) :
    List.Forall₂ (Sourced rename raw) (List.range raw.length)
      (raw.map (RawDefinition.renumber rename)) := by
  refine forall₂_iff_get.mpr ⟨by simp, fun k hk hk' => ?_⟩
  unfold Sourced
  simp only [get_eq_getElem, getElem_range, getElem_map]
  rw [getElem?_eq_getElem (by simpa using hk), map_some]

/-- A rearranged list takes its definitions from the positions of the first one. -/
theorem exists_sources (hperm : raw'.Perm (raw.map (RawDefinition.renumber rename))) :
    ∃ sources : List Nat, sources.Perm (List.range raw.length) ∧
      List.Forall₂ (Sourced rename raw) sources raw' := by
  obtain ⟨sources, hsources, hrange⟩ :=
    perm_comp_forall₂ hperm (forall₂_sourced rename raw).flip
  exact ⟨sources, hrange, hsources.flip⟩

theorem perm_of_sources {sources : List Nat} (hrange : sources.Perm (List.range raw.length))
    (h : List.Forall₂ (Sourced rename raw) sources raw') :
    raw'.Perm (raw.map (RawDefinition.renumber rename)) := by
  obtain ⟨list, hlist, hperm⟩ := perm_comp_forall₂ hrange (forall₂_sourced rename raw)
  have hunique : Relator.RightUnique (Sourced rename raw) := fun _ _ _ h h' =>
    Option.some.inj (h.symm.trans h')
  rw [right_unique_forall₂' hunique h hlist]
  exact hperm

/-- The definition with other compiler ids is where it was. -/
def LocatedDefinition.renumber (rename : Nat → Nat) (l : LocatedDefinition) : LocatedDefinition :=
  { l with definition := l.definition.renumber rename }

theorem locate_renumber {d : RawDefinition} {l : LocatedDefinition}
    (h : locate coordinates d = .ok l) :
    locate coordinates (d.renumber rename) = .ok (l.renumber rename) := by
  obtain ⟨origin, horigin, h⟩ := bind_ok h
  obtain ⟨basis, hbasis, h⟩ := bind_ok h
  obtain ⟨hvalid, h⟩ := guard_ok h
  cases h
  have horigin' : identityOrigin coordinates (d.renumber rename) = .ok origin := horigin
  have hbasis' : identityBasis coordinates (d.renumber rename) = .ok basis := hbasis
  rw [locate, horigin', hbasis']
  exact if_neg hvalid

/-- The located lists of a list and its rearrangement. -/
theorem rearranges_of_sources {sources : List Nat} {located : List LocatedDefinition}
    (hdistinct : DistinctCompilerIds raw) (hf : Function.Injective rename)
    (hrange : sources.Perm (List.range raw.length))
    (hsources : List.Forall₂ (Sourced rename raw) sources raw')
    (hlocated : List.Forall₂ (fun d l => locate coordinates d = .ok l) raw located)
    (hparents : ∀ (i : Nat) (l : LocatedDefinition) (parent : Nat), located[i]? = some l →
      l.definition.parent = some parent → ∃ j, byCompilerId located parent = some j) :
    ∃ second, raw'.mapM (locate coordinates) = .ok second ∧
      Rearranges rename located sources second := by
  obtain ⟨second, hsecond⟩ := exists_forall₂
    (R := fun d l => locate coordinates d = .ok l) (l := raw') (by
      intro d' hd'
      obtain ⟨k, hk⟩ := getElem?_of_mem hd'
      obtain ⟨i, -, hi⟩ := getElem?_of_forall₂_right hsources hk
      obtain ⟨d, hd, rfl⟩ := sourced_iff.mp hi
      obtain ⟨l, -, hl⟩ := getElem?_of_forall₂ hlocated hd
      exact ⟨_, locate_renumber hl⟩)
  -- what stands at a position and at its source
  have hpair : ∀ {k i : Nat}, sources[k]? = some i → ∃ l, located[i]? = some l ∧
      second[k]? = some (l.renumber rename) := by
    intro k i hk
    obtain ⟨d', hd', hsourced⟩ := getElem?_of_forall₂ hsources hk
    obtain ⟨d, hd, rfl⟩ := sourced_iff.mp hsourced
    obtain ⟨l, hl, hdl⟩ := getElem?_of_forall₂ hlocated hd
    obtain ⟨l', hl', hdl'⟩ := getElem?_of_forall₂ hsecond hd'
    cases hdl'.symm.trans (locate_renumber hdl)
    exact ⟨l, hl, hl'⟩
  have hall : ∀ i < located.length, i ∈ sources := fun i hi =>
    hrange.mem_iff.mpr (mem_range.mpr (hlocated.length_eq ▸ hi))
  have hordinal : ∀ k i : Nat, sources[k]? = some i →
      compilerOrdinal second k = compilerOrdinal located i := by
    intro k i hk
    obtain ⟨l, hl, hl'⟩ := hpair hk
    rw [compilerOrdinal_of_getElem? hl, compilerOrdinal_of_getElem? hl']
    rfl
  have hcorresponds : Corresponds rename located sources second := by
    refine ⟨hrange.nodup_iff.mpr nodup_range, ?_,
      distinct_of_located hlocated hdistinct, ?_, ?_, fun _ _ _ _ _ _ _ _ h => hf h, ?_⟩
    · refine forall₂_iff_get.mpr ⟨hsources.length_eq.trans hsecond.length_eq, fun k hk hk' => ?_⟩
      obtain ⟨l, hl, hl'⟩ := hpair (getElem?_eq_getElem hk)
      have hget : second.get ⟨k, hk'⟩ = _ :=
        Option.some.inj ((getElem?_eq_getElem hk').symm.trans hl')
      rw [hget]
      exact ⟨l, hl, rfl, rfl, rfl, rfl, rfl, rfl⟩
    · intro i _ l parent hl hp
      obtain ⟨j, hj⟩ := hparents i l parent hl hp
      obtain ⟨l', hl', hid⟩ := byCompilerId_some hj
      exact ⟨j, hall j (List.getElem?_eq_some_iff.mp hl').1, l', hl', hid⟩
    · intro i hi j hkey
      refine hall j ?_
      by_contra hlt
      unfold cohortKey at hkey
      obtain ⟨k, hk⟩ := getElem?_of_mem hi
      obtain ⟨l, hl, -⟩ := hpair hk
      rw [getElem?_eq_none (not_lt.mp hlt), hl] at hkey
      cases hkey
    · intro k l i j hk hl _
      rw [hordinal k i hk, hordinal l j hl]
  exact ⟨second, mapM_total hsecond, hcorresponds, hall, hordinal⟩

/-- A rearranged list gets the same ordinals. -/
theorem assignStructuralOrdinals_renumber (hdistinct : DistinctCompilerIds raw)
    (hf : Function.Injective rename)
    (hperm : raw'.Perm (raw.map (RawDefinition.renumber rename)))
    (h : assignStructuralOrdinals raw coordinates expected = .ok (definitions, given)) :
    ∃ definitions' given',
      assignStructuralOrdinals raw' coordinates expected = .ok (definitions', given') ∧
      definitions'.Perm (definitions.map (RawDefinition.renumber rename)) := by
  obtain ⟨located, identities, state, hids, hstate, rfl, -⟩ := assignStructuralOrdinals_ok h
  obtain ⟨ordinals, hmap, hord, hpaths⟩ := structuralIdentities_ok hids
  obtain ⟨sources, hrange, hsources⟩ := exists_sources hperm
  have hlocated := mapM_ok hmap
  obtain ⟨second, hsecond, hr⟩ := rearranges_of_sources hdistinct hf hrange hsources hlocated (by
    intro i l parent hl hp
    obtain ⟨key, -, hkey⟩ := getElem?_identities hpaths (List.getElem?_eq_some_iff.mp hl).1
    cases hkey with
    | root hi hnone =>
      obtain rfl := Option.some.inj (hl.symm.trans hi)
      rw [hp] at hnone
      cases hnone
    | child hi hp' hj =>
      obtain rfl := Option.some.inj (hl.symm.trans hi)
      obtain rfl := Option.some.inj (hp.symm.trans hp')
      exact ⟨_, hj⟩)
  obtain ⟨ordinals', kept, hord', hkept', -, hkept⟩ := hr.exists_identities hord hpaths
  obtain ⟨state', hstate', hsame⟩ : ∃ state', publicOrdinals second kept expected = .ok state' ∧
      ∀ k i : Nat, sources[k]? = some i → state'.ordinals k = state.ordinals i := by
    cases expected with
    | none => exact hr.publicOrdinals_none hkept hstate
    | some e => exact hr.publicOrdinals_some hkept hstate
  refine ⟨raw'.mapIdx fun k d => d.withOrdinal (state'.ordinals k),
    { ordinals := state'.identityUniverse }, ?_, ?_⟩
  · rw [assignStructuralOrdinals, structuralIdentities, hsecond]
    simp only [bind, Except.bind, hord', hkept', hstate', pure, Except.pure]
  · have hrange' : sources.Perm (List.range
        (raw.mapIdx fun i d => d.withOrdinal (state.ordinals i)).length) := by
      rw [length_mapIdx]
      exact hrange
    refine perm_of_sources hrange' ?_
    refine forall₂_iff_get.mpr ⟨by rw [length_mapIdx]; exact hsources.length_eq,
      fun k hk hk' => ?_⟩
    have hk₀ := getElem?_eq_getElem hk
    obtain ⟨d', hd', hsourced⟩ := getElem?_of_forall₂ hsources hk₀
    obtain ⟨d, hd, rfl⟩ := sourced_iff.mp hsourced
    refine sourced_iff.mpr ⟨d.withOrdinal (state.ordinals sources[k]), ?_, ?_⟩
    · rw [get_eq_getElem, getElem?_mapIdx, hd]
      rfl
    · refine Option.some.inj ((getElem?_eq_getElem hk').symm.trans ?_)
      rw [getElem?_mapIdx, hd', map_some, hsame k _ hk₀]
      rfl

end Assignment

/-! ## Canonical definitions -/

/-- After an assignment of ordinals every definition below a listed root gets a number and a key of
its own, its parent before it, also in the coordinates of the original source.  The numbers of the
compiler and the order of its list make no difference. -/
theorem canonicalizeDefinitions_canonical {raw definitions : List RawDefinition}
    {coordinates : Option SourceRewrite} {expected : Option DefinitionIdentityUniverse}
    {given : DefinitionIdentityUniverse} (hdistinct : DistinctCompilerIds raw)
    (hroot : ∀ d ∈ raw, d.compilerId = crateDefId → d.parent = none)
    (h : assignStructuralOrdinals raw coordinates expected = .ok (definitions, given)) :
    (∃ result, canonicalizeDefinitions definitions = some result ∧
      ((∃ canonical, result = .ok canonical) ↔ ∃ root, CrateRooted definitions root)) ∧
    (∀ canonical, canonicalizeDefinitions definitions = some (.ok canonical) →
      (∃ order : List RawDefinition, order.Perm definitions ∧ Numbered order canonical) ∧
      (canonical.definitions.map Definition.key).Nodup ∧
      ∀ rewrite, coordinates = some rewrite → ∃ keys,
        (canonical.definitions.map Definition.key).mapM (normalizeDefinitionKey rewrite) =
          .ok keys ∧ keys.Nodup) ∧
    ∀ rename : Nat → Nat, Function.Injective rename → rename crateDefId = crateDefId →
      (∀ definitions' : List RawDefinition,
        definitions'.Perm (definitions.map (RawDefinition.renumber rename)) →
        canonicalOutput definitions' = canonicalOutput definitions) ∧
      ∀ raw' : List RawDefinition, raw'.Perm (raw.map (RawDefinition.renumber rename)) →
        ∃ definitions' given',
          assignStructuralOrdinals raw' coordinates expected = .ok (definitions', given') ∧
          canonicalOutput definitions' = canonicalOutput definitions := by
  obtain ⟨ordinals, hassigns⟩ := assigns_of_ok h
  have hkeyed := hassigns.keyed hdistinct hroot
  have hnodup : definitions.Nodup := List.Nodup.of_map _ hkeyed.distinct
  have hrun : ∀ {root}, CrateRooted definitions root → ∃ order : List RawDefinition,
      ∃ canonical, order.Perm definitions ∧ Numbered order canonical ∧
        canonicalizeDefinitions definitions = some (.ok canonical) := by
    intro root hrooted
    obtain ⟨order, -, hperm, hrun, hnumbered⟩ := hkeyed.canonicalize hrooted
    exact ⟨order, _, hperm, hnumbered, hrun⟩
  refine ⟨?_, fun canonical hcanonical => ?_, fun rename hf hcrate => ⟨fun definitions' hperm =>
    hkeyed.canonicalOutput_renumber hf hcrate hperm, fun raw' hperm => ?_⟩⟩
  · by_cases hrooted : ∃ root, CrateRooted definitions root
    · obtain ⟨root, hroot'⟩ := hrooted
      obtain ⟨order, canonical, -, -, hok⟩ := hrun hroot'
      exact ⟨_, hok, iff_of_true ⟨canonical, rfl⟩ ⟨root, hroot'⟩⟩
    · refine ⟨_, canonicalizeDefinitions_error hnodup fun root h => hrooted ⟨root, h⟩,
        iff_of_false ?_ hrooted⟩
      rintro ⟨canonical, heq⟩
      cases heq
  · by_cases hrooted : ∃ root, CrateRooted definitions root
    · obtain ⟨root, hroot'⟩ := hrooted
      obtain ⟨order, canonical', hperm, hnumbered, hok⟩ := hrun hroot'
      cases hcanonical.symm.trans hok
      have hnodup' := hperm.nodup_iff.mpr hnodup
      refine ⟨⟨order, hperm, hnumbered⟩, hkeyed.nodup_keys hperm hnodup' hnumbered, ?_⟩
      rintro rewrite rfl
      exact hassigns.normalizedKeys hperm hnodup' hnumbered
    · rw [canonicalizeDefinitions_error hnodup fun root h => hrooted ⟨root, h⟩] at hcanonical
      cases hcanonical
  · obtain ⟨definitions', given', hok, hperm'⟩ :=
      assignStructuralOrdinals_renumber hdistinct hf hperm h
    exact ⟨definitions', given', hok, hkeyed.canonicalOutput_renumber hf hcrate hperm'⟩

/-- The two functions of a crate are keyed, whichever of them is listed first. -/
theorem canonicalizeDefinitions_twoFunctions :
    ∃ definitions given,
      assignStructuralOrdinals twoFunctions none none = .ok (definitions, given) ∧
      ∃ canonical, canonicalizeDefinitions definitions = some (.ok canonical) ∧
        (canonical.definitions.map Definition.key).Nodup ∧
        ∃ definitions' given',
          assignStructuralOrdinals twoFunctions.reverse none none = .ok (definitions', given') ∧
          canonicalOutput definitions' = canonicalOutput definitions := by
  have hrun : ∃ definitions given,
      assignStructuralOrdinals twoFunctions none none = .ok (definitions, given) ∧
      (canonicalizeDefinitions definitions).any Except.isOk = true :=
    ⟨_, _, rfl, by decide +kernel⟩
  obtain ⟨definitions, given, hok, hany⟩ := hrun
  obtain ⟨-, hkeys, hrename⟩ := canonicalizeDefinitions_canonical (by decide) (by decide) hok
  have hreverse := (hrename id Function.injective_id rfl).2 twoFunctions.reverse
    ((reverse_perm _).trans (List.Perm.of_eq (by decide)))
  cases hresult : canonicalizeDefinitions definitions with
  | none =>
    rw [hresult] at hany
    cases hany
  | some result =>
    cases result with
    | error =>
      rw [hresult] at hany
      cases hany
    | ok canonical =>
      exact ⟨definitions, given, hok, canonical, hresult, (hkeys canonical hresult).2.1, hreverse⟩

end ItemDependencies
