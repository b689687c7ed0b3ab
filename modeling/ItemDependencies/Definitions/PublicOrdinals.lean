import ItemDependencies.Definitions.PrivateOrdinals

/-!
# Public ordinals

Every definition is a member of one public cohort, and the fold over the
cohorts gives each member an ordinal and records it under its identity.  The
record of an identity is written once, so a run that returns shows that the
identities are distinct.
-/

namespace ItemDependencies

open Library List Function

variable {definitions : List LocatedDefinition} {identities : List DefinitionIdentityKey}
  {expected : Option DefinitionIdentityUniverse} {state state' : Assignment}
  {keys : List PublicCohort}

/-- What the ordinals given to some members say: each is recorded under the identity of the
member, is the expected one, and no identity is used twice. -/
structure Assigned (identities : List DefinitionIdentityKey)
    (expected : Option DefinitionIdentityUniverse) (members : List Nat) (state : Assignment) :
    Prop where
  recorded : ∀ i ∈ members, ∃ key, identities[i]? = some key ∧
    state.identityUniverse key = some (state.ordinals i)
  expectedOrdinal : ∀ e, expected = some e → ∀ i ∈ members, ∀ key, identities[i]? = some key →
    e.ordinals key = some (state.ordinals i)
  recordedOnly : ∀ key ordinal, state.identityUniverse key = some ordinal →
    ∃ i ∈ members, identities[i]? = some key
  injective : ∀ i ∈ members, ∀ j ∈ members, identities[i]? = identities[j]? → i = j

theorem assigned_nil : Assigned identities expected []
    { ordinals := fun _ => 0, identityUniverse := fun _ => none } where
  recorded := by simp
  expectedOrdinal := by simp
  recordedOnly := by simp
  injective := by simp

/-- Giving one more member its ordinal. -/
theorem Assigned.member {members : List Nat} {assigned assigned' : Finset Nat} {member : Nat × Nat}
    (h : Assigned identities expected members state)
    (hm : assignMember identities expected (assigned, state) member = .ok (assigned', state')) :
    Assigned identities expected (members ++ [member.1]) state' ∧
      (∀ i ∈ members, state'.ordinals i = state.ordinals i) ∧
      state'.ordinals member.1 ∉ assigned ∧
      assigned' = insert (state'.ordinals member.1) assigned := by
  obtain ⟨i, rank⟩ := member
  rw [assignMember] at hm
  cases hkey : identities[i]? with
  | none => simp only [hkey] at hm; cases hm
  | some key =>
    simp only [hkey] at hm
    obtain ⟨ordinal, hordinal, hm⟩ := bind_ok hm
    obtain ⟨hfresh, hm⟩ := guard_ok hm
    cases hm
    simp only [not_or, Option.not_isSome_iff_eq_none] at hfresh
    -- a member that was given its ordinal before would have recorded the identity
    have hnew : ∀ j ∈ members, identities[j]? ≠ some key := by
      intro j hj heq
      obtain ⟨k, hk, hrec⟩ := h.recorded j hj
      obtain rfl := Option.some.inj (heq.symm.trans hk)
      rw [hfresh.2] at hrec
      cases hrec
    have hne : ∀ j ∈ members, j ≠ i := fun j hj heq => hnew j hj (heq ▸ hkey)
    have hkeep : ∀ j ∈ members,
        Function.update state.ordinals i ordinal j = state.ordinals j := fun j hj =>
      update_of_ne (hne j hj) _ _
    have hself : Function.update state.ordinals i ordinal i = ordinal := update_self ..
    show _ ∧ _ ∧ Function.update state.ordinals i ordinal i ∉ assigned ∧
      insert ordinal assigned = insert (Function.update state.ordinals i ordinal i) assigned
    refine ⟨⟨fun j hj => ?_, fun e he j hj k hk => ?_, fun k o hk => ?_, fun j hj l hl heq => ?_⟩,
      hkeep, by rw [hself]; exact hfresh.1, by rw [hself]⟩
    · rcases mem_append.mp hj with hj | hj
      · obtain ⟨k, hk, hrec⟩ := h.recorded j hj
        refine ⟨k, hk, ?_⟩
        simp only [hkeep j hj]
        have hne : k ≠ key := by
          rintro rfl
          exact hnew j hj hk
        rw [update_of_ne hne]
        exact hrec
      · obtain rfl := mem_singleton.mp hj
        exact ⟨key, hkey, by simp only [update_self]⟩
    · rcases mem_append.mp hj with hj | hj
      · simp only [hkeep j hj]
        exact h.expectedOrdinal e he j hj k hk
      · obtain rfl := mem_singleton.mp hj
        obtain rfl := Option.some.inj (hkey.symm.trans hk)
        simp only [update_self]
        subst he
        rw [assignedOrdinal] at hordinal
        cases hk : e.ordinals key with
        | none => simp only [hk] at hordinal; cases hordinal
        | some o => simp only [hk] at hordinal; cases hordinal; rfl
    · by_cases hkk : k = key
      · exact ⟨i, by simp, hkk ▸ hkey⟩
      · simp only [update_of_ne hkk] at hk
        obtain ⟨j, hj, hjk⟩ := h.recordedOnly k o hk
        exact ⟨j, by simp [hj], hjk⟩
    · rcases mem_append.mp hj with hj | hj <;> rcases mem_append.mp hl with hl | hl
      · exact h.injective j hj l hl heq
      · rw [mem_singleton.mp hl] at heq
        exact absurd (heq.trans hkey) (hnew j hj)
      · rw [mem_singleton.mp hj] at heq
        exact absurd (heq.symm.trans hkey) (hnew l hl)
      · rw [mem_singleton.mp hj, mem_singleton.mp hl]

/-- The members of one cohort get different ordinals. -/
theorem Assigned.members {base members : List Nat} {assigned' : Finset Nat}
    (h : Assigned identities expected base state)
    (hm : members.zipIdx.foldlM (assignMember identities expected) (∅, state) =
      .ok (assigned', state')) :
    Assigned identities expected (base ++ members) state' ∧
      (∀ i ∈ base, state'.ordinals i = state.ordinals i) ∧
      ∀ i ∈ members, ∀ j ∈ members, state'.ordinals i = state'.ordinals j → i = j := by
  have key := foldlM_ok (f := assignMember identities expected)
    (P := fun done s => Assigned identities expected (base ++ done.map Prod.fst) s.2 ∧
      (∀ i ∈ base, s.2.ordinals i = state.ordinals i) ∧
      (∀ i ∈ done.map Prod.fst, s.2.ordinals i ∈ s.1) ∧
      ∀ i ∈ done.map Prod.fst, ∀ j ∈ done.map Prod.fst, s.2.ordinals i = s.2.ordinals j → i = j)
    (by
      intro done member s t ⟨hs, hbase, hin, hinj⟩ hst
      obtain ⟨ht, hkeep, hfresh, hset⟩ := hs.member hst
      have hkeepd : ∀ i ∈ done.map Prod.fst, t.2.ordinals i = s.2.ordinals i := fun i hi =>
        hkeep i (mem_append_right _ hi)
      have hold : ∀ i ∈ done.map Prod.fst, t.2.ordinals i ≠ t.2.ordinals member.1 := by
        intro i hi heq
        rw [hkeepd i hi] at heq
        exact hfresh (heq ▸ hin i hi)
      rw [map_append, map_singleton]
      refine ⟨by rwa [append_assoc] at ht,
        fun i hi => (hkeep i (mem_append_left _ hi)).trans (hbase i hi), ?_, ?_⟩
      · intro i hi
        rw [hset, Finset.mem_insert]
        rcases mem_append.mp hi with hi | hi
        · exact Or.inr (hkeepd i hi ▸ hin i hi)
        · exact Or.inl (by rw [mem_singleton.mp hi])
      · intro i hi j hj heq
        rcases mem_append.mp hi with hi | hi <;> rcases mem_append.mp hj with hj | hj
        · rw [hkeepd i hi, hkeepd j hj] at heq
          exact hinj i hi j hj heq
        · rw [mem_singleton.mp hj] at heq
          exact absurd heq (hold i hi)
        · rw [mem_singleton.mp hi] at heq
          exact absurd heq.symm (hold j hj)
        · rw [mem_singleton.mp hi, mem_singleton.mp hj])
    ⟨by simpa using h, fun _ _ => rfl, by simp, by simp⟩ hm
  have hmap : members.zipIdx.map Prod.fst = members := zipIdx_map_fst 0 members
  rw [hmap] at key
  exact ⟨key.1, key.2.1, key.2.2.2⟩

theorem perm_sortPublicMembers (definitions : List LocatedDefinition)
    (identities : List DefinitionIdentityKey) (expected : Option DefinitionIdentityUniverse)
    (members : List Nat) :
    (sortPublicMembers definitions identities expected members).Perm members := by
  cases expected <;> exact perm_insertionSort _ _

theorem Assigned.of_mem_iff {members members' : List Nat}
    (h : Assigned identities expected members state) (hm : ∀ i, i ∈ members' ↔ i ∈ members) :
    Assigned identities expected members' state where
  recorded i hi := h.recorded i ((hm i).mp hi)
  expectedOrdinal e he i hi := h.expectedOrdinal e he i ((hm i).mp hi)
  recordedOnly key ordinal hk :=
    (h.recordedOnly key ordinal hk).imp fun i hi => ⟨(hm i).mpr hi.1, hi.2⟩
  injective i hi j hj := h.injective i ((hm i).mp hi) j ((hm j).mp hj)

theorem Assigned.cohort {base members : List Nat} (h : Assigned identities expected base state)
    (hm : assignCohort definitions identities expected state members = .ok state') :
    Assigned identities expected (base ++ members) state' ∧
      (∀ i ∈ base, state'.ordinals i = state.ordinals i) ∧
      ∀ i ∈ members, ∀ j ∈ members, state'.ordinals i = state'.ordinals j → i = j := by
  obtain ⟨-, hm⟩ := guard_ok hm
  obtain ⟨⟨assigned', state''⟩, hfold, hm⟩ := bind_ok hm
  cases hm
  have hperm := perm_sortPublicMembers definitions identities expected members
  obtain ⟨hall, hkeep, hinj⟩ := h.members hfold
  refine ⟨hall.of_mem_iff fun i => ?_, hkeep, fun i hi j hj =>
    hinj i (hperm.mem_iff.mpr hi) j (hperm.mem_iff.mpr hj)⟩
  simp only [mem_append, hperm.mem_iff]

/-! ## All cohorts -/

/-- A run that returns has given every definition an ordinal, and different ones inside each
public cohort. -/
theorem publicOrdinals_ok (h : publicOrdinals definitions identities expected = .ok state) :
    ∃ keys : List PublicCohort,
      List.Forall₂ (fun d key => publicCohort definitions identities d = .ok key) definitions keys ∧
      Assigned identities expected (List.range definitions.length) state ∧
      ∀ i < definitions.length, ∀ j < definitions.length, keys[i]? = keys[j]? →
        state.ordinals i = state.ordinals j → i = j := by
  obtain ⟨keys, hkeys, hfold⟩ := bind_ok h
  refine ⟨keys, mapM_ok hkeys, ?_⟩
  have key := foldlM_ok (f := assignCohort definitions identities expected)
    (P := fun done s => Assigned identities expected done.flatten s ∧
      ∀ g ∈ done, ∀ i ∈ g, ∀ j ∈ g, s.ordinals i = s.ordinals j → i = j)
    (by
      intro done members s t ⟨hs, hinj⟩ hst
      obtain ⟨ht, hkeep, hnew⟩ := hs.cohort hst
      refine ⟨by simpa using ht, fun g hg => ?_⟩
      rcases mem_append.mp hg with hg | hg
      · intro i hi j hj heq
        rw [hkeep i (mem_flatten.mpr ⟨g, hg, hi⟩), hkeep j (mem_flatten.mpr ⟨g, hg, hj⟩)] at heq
        exact hinj g hg i hi j hj heq
      · rw [mem_singleton.mp hg]
        exact hnew)
    ⟨assigned_nil, by simp⟩ hfold
  have hgroup : ∀ i < definitions.length,
      ((List.range definitions.length).filter fun j => keys[j]? = keys[i]?) ∈
        groups (fun a b => (compare a b).isLE) (fun i => keys[i]?)
          (List.range definitions.length) :=
    fun i hi => mem_groups.mpr ⟨i, mem_range.mpr hi, rfl⟩
  refine ⟨key.1.of_mem_iff fun i => ?_, fun i hi j hj hij heq => ?_⟩
  · rw [mem_flatten]
    constructor
    · intro hi
      exact ⟨_, hgroup i (mem_range.mp hi), mem_filter.mpr ⟨hi, by simp⟩⟩
    · rintro ⟨g, hg, hi⟩
      exact ((mem_of_mem_groups hg hi).mp hi).1
  · refine key.2 _ (hgroup i hi) i ?_ j ?_ heq
    · exact mem_filter.mpr ⟨mem_range.mpr hi, by simp⟩
    · exact mem_filter.mpr ⟨mem_range.mpr hj, by simp [hij]⟩

/-- Members that are to have known and different ordinals can be given them. -/
theorem assignMembers_total {t : Nat → Nat} {members : List Nat} {base : List Nat}
    (h : Assigned identities expected base state)
    (hknown : ∀ p ∈ members.zipIdx, ∃ key, identities[p.1]? = some key ∧
      assignedOrdinal expected key p.2 = .ok (t p.1))
    (hnd : (base ++ members).Nodup)
    (hinj : ∀ i ∈ base ++ members, ∀ j ∈ base ++ members, identities[i]? = identities[j]? → i = j)
    (htarget : ∀ i ∈ members, ∀ j ∈ members, t i = t j → i = j) :
    ∃ result, members.zipIdx.foldlM (assignMember identities expected) (∅, state) = .ok result := by
  have hmap : members.zipIdx.map Prod.fst = members := zipIdx_map_fst 0 members
  have := foldlM_total (f := assignMember identities expected) (l := members.zipIdx)
    (s := ((∅ : Finset Nat), state))
    (P := fun done s => Assigned identities expected (base ++ done.map Prod.fst) s.2 ∧
      ∀ o ∈ s.1, ∃ i ∈ done.map Prod.fst, t i = o)
    (by
      intro done member rest s hl ⟨hs, hset⟩
      obtain ⟨i, rank⟩ := member
      have hsplit : members = done.map Prod.fst ++ i :: rest.map Prod.fst := by
        rw [← hmap, hl, map_append, map_cons]
      have hi : i ∈ members := by simp [hsplit]
      have hdone : ∀ j ∈ done.map Prod.fst, j ∈ members := fun j hj =>
        hsplit ▸ mem_append_left _ hj
      have hne : i ∉ base ++ done.map Prod.fst := by
        intro hmem
        rw [hsplit, ← append_assoc] at hnd
        exact (nodup_append.mp hnd).2.2 _ hmem i (by simp) rfl
      obtain ⟨key, hkey, hexp⟩ := hknown (i, rank) (by simp [hl])
      have hfresh : ¬(t i ∈ s.1 ∨ (s.2.identityUniverse key).isSome = true) := by
        rintro (hmem | hrec)
        · obtain ⟨j, hj, heq⟩ := hset _ hmem
          obtain rfl := htarget j (hdone j hj) i hi heq
          exact hne (mem_append_right _ hj)
        · obtain ⟨o, ho⟩ := Option.isSome_iff_exists.mp hrec
          obtain ⟨j, hj, hjkey⟩ := hs.recordedOnly key o ho
          have hjm : j ∈ base ++ members := by
            rcases mem_append.mp hj with hj | hj
            · exact mem_append_left _ hj
            · exact mem_append_right _ (hdone j hj)
          obtain rfl := hinj j hjm i (mem_append_right _ hi) (hjkey.trans hkey.symm)
          exact hne hj
      have hrun : assignMember identities expected s (i, rank) = .ok (insert (t i) s.1, {
          ordinals := Function.update s.2.ordinals i (t i)
          identityUniverse := Function.update s.2.identityUniverse key (some (t i)) }) := by
        have hexp' : assignedOrdinal expected key rank = pure (t i) := hexp
        have hkey' : identities[i]? = some key := hkey
        simp only [assignMember, hkey', hexp', pure_bind, if_neg hfresh]
        rfl
      refine ⟨_, hrun, ?_, fun o ho => ?_⟩
      · have := (hs.member hrun).1
        rw [append_assoc] at this
        rwa [map_append]
      · rcases Finset.mem_insert.mp ho with rfl | ho
        · exact ⟨i, by simp, rfl⟩
        · obtain ⟨j, hj, heq⟩ := hset o ho
          exact ⟨j, by rw [map_append]; exact mem_append_left _ hj, heq⟩)
    ⟨by simpa using h, by simp⟩
  exact this.imp fun _ h => h.1

/-- Neighbours with different ordinals are no obstacle. -/
theorem neighbours_sortPublicMembers {members : List Nat} (hnd : members.Nodup)
    (hordinals : expected = none → ∀ i ∈ members, ∀ j ∈ members,
      compilerOrdinal definitions i = compilerOrdinal definitions j → i = j) :
    (expected.isNone && (neighbours (sortPublicMembers definitions identities expected members)).any
      fun pair => compilerOrdinal definitions pair.1 == compilerOrdinal definitions pair.2) =
        false := by
  have hperm := perm_sortPublicMembers definitions identities expected members
  cases hexpected : expected with
  | some => rfl
  | none =>
    have hne : (sortPublicMembers definitions identities none members).IsChain (· ≠ ·) :=
      ((hexpected ▸ hperm).nodup_iff.mpr hnd).isChain
    rw [Option.isNone_none, Bool.true_and, any_eq_false]
    intro p hp heq
    have hmem := of_mem_zip hp
    refine isChain_iff_neighbours.mp hne p hp
      (hordinals hexpected _ ((hexpected ▸ hperm).mem_iff.mp hmem.1) _
        ((hexpected ▸ hperm).mem_iff.mp (mem_of_mem_tail hmem.2)) ?_)
    simpa using heq

/-! ## Ranks -/

/-- Where nothing is expected, the members get their places. -/
theorem foldlM_assignMember_none {members : List Nat} {assigned' : Finset Nat}
    (h : members.zipIdx.foldlM (assignMember identities none) (∅, state) =
      .ok (assigned', state')) :
    members.zipIdx.foldlM rankOrdinal state.ordinals = .ok state'.ordinals := by
  have key := foldlM_ok (f := assignMember identities none)
    (P := fun done s => done.foldlM rankOrdinal state.ordinals = .ok s.2.ordinals)
    (by
      intro done member s t hs hst
      rw [foldlM_append, hs]
      unfold assignMember at hst
      cases hkey : identities[member.1]? with
      | none =>
        rw [hkey] at hst
        cases hst
      | some key =>
        rw [hkey] at hst
        obtain ⟨ordinal, hordinal, hst⟩ := bind_ok hst
        obtain ⟨-, hst⟩ := guard_ok hst
        cases hst
        obtain ⟨hsmall, hordinal⟩ := guard_ok hordinal
        cases hordinal
        show (rankOrdinal s.2.ordinals member >>= fun o => pure o) = _
        rw [rankOrdinal, if_neg hsmall]
        rfl)
    rfl h
  exact key

/-- In a cohort whose members are ranked the compiler ordinals are distinct. -/
theorem assignCohort_none {members : List Nat} (hnd : members.Nodup)
    (h : assignCohort definitions identities none state members = .ok state') :
    members.length ≤ u32Size ∧
      (∀ i ∈ members, ∀ j ∈ members,
        compilerOrdinal definitions i = compilerOrdinal definitions j → i = j) ∧
      ∀ i ∈ members, state'.ordinals i = rankIn (compilerOrdinal definitions) members i := by
  obtain ⟨hdistinct, h⟩ := guard_ok h
  obtain ⟨⟨assigned', state''⟩, hfold, h⟩ := bind_ok h
  cases h
  have hperm := perm_sortPublicMembers definitions identities none members
  have hlt : (sortPublicMembers definitions identities none members).Pairwise fun i j =>
      compilerOrdinal definitions i < compilerOrdinal definitions j :=
    pairwise_lt_of_neighbours (pairwise_insertionSort_key (compilerOrdinal definitions) members)
      (Bool.not_eq_true _ ▸ hdistinct)
  obtain ⟨hlen, -, hrank⟩ := foldlM_rankOrdinal (hperm.nodup_iff.mpr hnd)
    (foldlM_assignMember_none hfold)
  exact ⟨hperm.length_eq ▸ hlen, distinct_of_pairwise hperm hlt, rank_of_pairwise hperm hlt hrank⟩

/-- The members of the public cohort of a definition. -/
def publicMembers (keys : List PublicCohort) (count i : Nat) : List Nat :=
  (List.range count).filter fun j => keys[j]? = keys[i]?

theorem mem_publicMembers {count i j : Nat} :
    j ∈ publicMembers keys count i ↔ j < count ∧ keys[j]? = keys[i]? := by
  simp [publicMembers]

/-- Where nothing is expected, a run that returns has ranked every public cohort. -/
theorem publicOrdinals_none (h : publicOrdinals definitions identities none = .ok state) :
    ∃ keys : List PublicCohort,
      List.Forall₂ (fun d key => publicCohort definitions identities d = .ok key) definitions keys ∧
      ∀ i < definitions.length, (publicMembers keys definitions.length i).length ≤ u32Size ∧
        (∀ j < definitions.length, keys[i]? = keys[j]? →
          compilerOrdinal definitions i = compilerOrdinal definitions j → i = j) ∧
        state.ordinals i = rankIn (compilerOrdinal definitions)
          (publicMembers keys definitions.length i) i := by
  obtain ⟨keys, hkeys, hfold⟩ := bind_ok h
  refine ⟨keys, mapM_ok hkeys, ?_⟩
  set cohorts := groups (fun a b => (compare a b).isLE) (fun i => keys[i]?)
    (List.range definitions.length) with hcohorts
  have key := foldlM_ok (f := assignCohort definitions identities none)
    (P := fun done s => Assigned identities none done.flatten s ∧
      ((∀ g ∈ done, g.Nodup) → ∀ g ∈ done, g.length ≤ u32Size ∧
        (∀ i ∈ g, ∀ j ∈ g, compilerOrdinal definitions i = compilerOrdinal definitions j → i = j) ∧
        ∀ i ∈ g, s.ordinals i = rankIn (compilerOrdinal definitions) g i))
    (by
      intro done members s t ⟨hs, hdone⟩ hst
      obtain ⟨ht, hkeep, -⟩ := hs.cohort hst
      refine ⟨by simpa using ht, fun hnodup g hg => ?_⟩
      rcases mem_append.mp hg with hg | hg
      · obtain ⟨hlen, hdistinct, hrank⟩ := hdone (fun g hg => hnodup g (by simp [hg])) g hg
        refine ⟨hlen, hdistinct, fun i hi => ?_⟩
        rw [hkeep i (mem_flatten.mpr ⟨g, hg, hi⟩)]
        exact hrank i hi
      · rw [mem_singleton.mp hg]
        exact assignCohort_none (hnodup members (by simp)) hst)
    ⟨assigned_nil, by simp⟩ hfold
  intro i hi
  have hself : i ∈ publicMembers keys definitions.length i := mem_publicMembers.mpr ⟨hi, rfl⟩
  have hgroup : publicMembers keys definitions.length i ∈ cohorts :=
    mem_groups.mpr ⟨i, mem_range.mpr hi, rfl⟩
  obtain ⟨hlen, hdistinct, hrank⟩ :=
    key.2 (fun g hg => nodup_of_mem_groups nodup_range hg) _ hgroup
  exact ⟨hlen, fun j hj hij => hdistinct i hself j (mem_publicMembers.mpr ⟨hj, hij.symm⟩),
    hrank i hself⟩

/-- Distinct identities and known, different ordinals in every cohort are enough for a run to
return. -/
theorem publicOrdinals_run {t : Nat → Nat}
    (hkeys : List.Forall₂ (fun d key => publicCohort definitions identities d = .ok key)
      definitions keys)
    (hknown : ∀ g ∈ groups (fun a b => (compare a b).isLE) (fun i => keys[i]?)
        (List.range definitions.length),
      ∀ p ∈ (sortPublicMembers definitions identities expected g).zipIdx,
        ∃ key, identities[p.1]? = some key ∧ assignedOrdinal expected key p.2 = .ok (t p.1))
    (hinj : ∀ i < definitions.length, ∀ j < definitions.length,
      identities[i]? = identities[j]? → i = j)
    (htarget : ∀ i < definitions.length, ∀ j < definitions.length, keys[i]? = keys[j]? →
      t i = t j → i = j)
    (hordinals : expected = none → ∀ i < definitions.length, ∀ j < definitions.length,
      keys[i]? = keys[j]? → compilerOrdinal definitions i = compilerOrdinal definitions j → i = j) :
    ∃ state, publicOrdinals definitions identities expected = .ok state := by
  set cohorts := groups (fun a b => (compare a b).isLE) (fun i => keys[i]?)
    (List.range definitions.length) with hcohorts
  have hlt : ∀ g ∈ cohorts, ∀ i ∈ g, i < definitions.length := fun g hg i hi =>
    mem_range.mp ((mem_of_mem_groups hg hi).mp hi).1
  have hsame : ∀ g ∈ cohorts, ∀ i ∈ g, ∀ j ∈ g, keys[i]? = keys[j]? := fun g hg i hi j hj =>
    ((mem_of_mem_groups hg hj).mp hi).2
  have hnd : cohorts.flatten.Nodup :=
    nodup_flatten.mpr ⟨fun g hg => nodup_of_mem_groups nodup_range hg,
      pairwise_disjoint_groups _ _ _⟩
  have := foldlM_total (f := assignCohort definitions identities expected) (l := cohorts)
    (s := { ordinals := fun _ => 0, identityUniverse := fun _ => none })
    (P := fun done s => Assigned identities expected done.flatten s)
    (by
      intro done members rest s hl hs
      have hmem : members ∈ cohorts := by simp [hl]
      have hperm := perm_sortPublicMembers definitions identities expected members
      have hbase : ∀ i ∈ done.flatten, i < definitions.length := by
        intro i hi
        obtain ⟨g, hg, hig⟩ := mem_flatten.mp hi
        exact hlt g (by simp [hl, hg]) i hig
      have hall : ∀ i ∈ done.flatten ++
          sortPublicMembers definitions identities expected members, i < definitions.length := by
        intro i hi
        rcases mem_append.mp hi with hi | hi
        · exact hbase i hi
        · exact hlt members hmem i (hperm.mem_iff.mp hi)
      have hndm : (done.flatten ++
          sortPublicMembers definitions identities expected members).Nodup := by
        rw [hl, flatten_append, flatten_cons, ← append_assoc] at hnd
        exact ((hperm.append_left _).nodup_iff).mpr (nodup_append.mp hnd).1
      obtain ⟨⟨assigned', s'⟩, hrun⟩ := assignMembers_total hs (hknown members hmem) hndm
        (fun i hi j hj => hinj i (hall i hi) j (hall j hj))
        (fun i hi j hj heq => by
          have hi := hperm.mem_iff.mp hi
          have hj := hperm.mem_iff.mp hj
          exact htarget i (hlt members hmem i hi) j (hlt members hmem j hj)
            (hsame members hmem i hi j hj) heq)
      have hcohort : assignCohort definitions identities expected s members = .ok s' := by
        rw [assignCohort, if_neg (ne_true_of_eq_false (neighbours_sortPublicMembers
          (nodup_of_mem_groups nodup_range hmem) fun hnone i hi j hj =>
            hordinals hnone i (hlt members hmem i hi) j (hlt members hmem j hj)
              (hsame members hmem i hi j hj))), hrun]
        rfl
      refine ⟨s', hcohort, ?_⟩
      simpa using (hs.cohort hcohort).1)
    assigned_nil
  obtain ⟨state, hrun, -⟩ := this
  refine ⟨state, ?_⟩
  rw [publicOrdinals, mapM_total hkeys]
  exact hrun

/-- A universe in which every identity has its own ordinal is enough for a run to return. -/
theorem publicOrdinals_total {e : DefinitionIdentityUniverse} {t : Nat → Nat}
    (hkeys : List.Forall₂ (fun d key => publicCohort definitions identities d = .ok key)
      definitions keys)
    (hknown : ∀ i < definitions.length,
      ∃ key, identities[i]? = some key ∧ e.ordinals key = some (t i))
    (hinj : ∀ i < definitions.length, ∀ j < definitions.length,
      identities[i]? = identities[j]? → i = j)
    (htarget : ∀ i < definitions.length, ∀ j < definitions.length, keys[i]? = keys[j]? →
      t i = t j → i = j) :
    ∃ state, publicOrdinals definitions identities (some e) = .ok state := by
  refine publicOrdinals_run hkeys (fun g hg p hp => ?_) hinj htarget fun h => (by cases h)
  have hmem : p.1 ∈ g := (perm_sortPublicMembers definitions identities (some e) g).mem_iff.mp
    (fst_mem_of_mem_zipIdx hp)
  obtain ⟨key, hkey, hexp⟩ := hknown p.1 (mem_range.mp ((mem_of_mem_groups hg hmem).mp hmem).1)
  refine ⟨key, hkey, ?_⟩
  unfold assignedOrdinal
  simp only [hexp]
  rfl

end ItemDependencies
