import ItemDependencies.Definitions.Identity
import ItemDependencies.Library.Ascending

/-!
# Private ordinals of a product cohort

Inside a cohort the definitions are ranked by their compiler ordinals, which
must be distinct.  The rank is the number of members with a smaller ordinal,
whatever their positions in the list.
-/

namespace ItemDependencies

open Library List

variable {definitions : List LocatedDefinition} {members : List Nat}

/-- The cohort of a definition, as a key. -/
def cohortKey (definitions : List LocatedDefinition) (i : Nat) : Option Cohort :=
  definitions[i]?.map LocatedDefinition.cohort

/-- The members of the cohort of a definition. -/
def cohortMembers (definitions : List LocatedDefinition) (i : Nat) : List Nat :=
  (List.range definitions.length).filter fun j => cohortKey definitions j = cohortKey definitions i

/-- In each cohort the compiler ordinals are distinct, and there are not too many of them. -/
structure CohortsRanked (definitions : List LocatedDefinition) : Prop where
  distinct : ∀ i < definitions.length, ∀ j < definitions.length,
    cohortKey definitions i = cohortKey definitions j →
    compilerOrdinal definitions i = compilerOrdinal definitions j → i = j
  small : ∀ i < definitions.length, (cohortMembers definitions i).length ≤ u32Size

theorem mem_cohortMembers {i j : Nat} : j ∈ cohortMembers definitions i ↔
    j < definitions.length ∧ cohortKey definitions j = cohortKey definitions i := by
  simp [cohortMembers]

theorem mem_cohorts {g : List Nat} : g ∈ cohorts definitions ↔
    ∃ i < definitions.length, g = cohortMembers definitions i := by
  rw [cohorts, mem_groups]
  simp only [mem_range]
  rfl

theorem perm_sortMembers (definitions : List LocatedDefinition) (members : List Nat) :
    (sortMembers definitions members).Perm members :=
  perm_insertionSort _ _

/-- Sorted members without equal neighbours are strictly sorted by their ordinals. -/
theorem pairwise_lt_of_neighbours
    (hsorted : members.Pairwise fun i j =>
      compilerOrdinal definitions i ≤ compilerOrdinal definitions j)
    (h : (neighbours members).any (fun pair =>
      compilerOrdinal definitions pair.1 == compilerOrdinal definitions pair.2) = false) :
    members.Pairwise fun i j => compilerOrdinal definitions i < compilerOrdinal definitions j := by
  have hle := isChain_iff_neighbours.mp hsorted.isChain
  have hlt : members.IsChain fun i j =>
      compilerOrdinal definitions i < compilerOrdinal definitions j := by
    refine isChain_iff_neighbours.mpr fun p hp => lt_of_le_of_ne (hle p hp) ?_
    simpa using any_eq_false.mp h p hp
  have : IsTrans Nat fun i j => compilerOrdinal definitions i < compilerOrdinal definitions j :=
    ⟨fun _ _ _ => lt_trans⟩
  exact hlt.pairwise

theorem pairwise_sortMembers (definitions : List LocatedDefinition) (members : List Nat) :
    (sortMembers definitions members).Pairwise fun i j =>
      compilerOrdinal definitions i ≤ compilerOrdinal definitions j := by
  refine (pairwise_insertionSort_key (fun i => toLex (compilerOrdinal definitions i, i))
    members).imp fun h => ?_
  rcases Prod.Lex.le_iff.mp h with hlt | ⟨heq, -⟩
  · exact hlt.le
  · exact heq.le

section Ranks

variable {members sorted : List Nat} {ordinals : Nat → Nat} (hperm : sorted.Perm members)
  (hlt : sorted.Pairwise fun i j => compilerOrdinal definitions i < compilerOrdinal definitions j)

include hperm hlt

theorem distinct_of_pairwise : ∀ i ∈ members, ∀ j ∈ members,
    compilerOrdinal definitions i = compilerOrdinal definitions j → i = j := by
  intro i hi j hj hij
  by_contra hne
  have hpw :=
    hlt.imp (S := fun i j => compilerOrdinal definitions i ≠ compilerOrdinal definitions j)
    fun h => h.ne
  have : Std.Symm fun i j => compilerOrdinal definitions i ≠ compilerOrdinal definitions j :=
    ⟨fun _ _ h => h.symm⟩
  exact hpw.forall (hperm.mem_iff.mpr hi) (hperm.mem_iff.mpr hj) hne hij

/-- The place in the sorted list is the rank. -/
theorem rank_of_pairwise (hplace : ∀ (k : Nat) i, sorted[k]? = some i → ordinals i = k) :
    ∀ i ∈ members, ordinals i = rankIn (compilerOrdinal definitions) members i := by
  intro i hi
  obtain ⟨k, hk⟩ := getElem?_of_mem (hperm.mem_iff.mpr hi)
  rw [hplace k i hk, ← rankIn_perm hperm]
  exact (rankIn_eq_of_pairwise hlt hk).symm

end Ranks

/-! ## Ranking one cohort -/

/-- What ranking a list of members does to the ordinals. -/
theorem foldlM_rankOrdinal {ordinals ordinals' : Nat → Nat} (hnd : members.Nodup)
    (h : members.zipIdx.foldlM rankOrdinal ordinals = .ok ordinals') :
    members.length ≤ u32Size ∧ (∀ i, i ∉ members → ordinals' i = ordinals i) ∧
      ∀ k i, members[k]? = some i → ordinals' i = k := by
  have key := foldlM_ok (f := rankOrdinal)
    (P := fun done o => (∀ p ∈ done, p.2 < u32Size) ∧
      (∀ i, i ∉ done.map Prod.fst → o i = ordinals i) ∧
      ((done.map Prod.fst).Nodup → ∀ p ∈ done, o p.1 = p.2))
    (by
      intro done p o o' ⟨hsmall, hrest, hdone⟩ hp
      obtain ⟨hlt, ho⟩ := guard_ok hp
      cases ho
      refine ⟨?_, fun i hi => ?_, fun hnd q hq => ?_⟩
      · intro q hq
        rcases mem_append.mp hq with hq | hq
        · exact hsmall q hq
        · obtain rfl := mem_singleton.mp hq
          omega
      · simp only [map_append, mem_append, not_or, map_cons, map_nil, mem_singleton] at hi
        rw [Function.update_of_ne hi.2]
        exact hrest i hi.1
      · rw [map_append, nodup_append] at hnd
        rcases mem_append.mp hq with hq | hq
        · have hne : q.1 ≠ p.1 := hnd.2.2 _ (mem_map_of_mem hq) _ (by simp)
          rw [Function.update_of_ne hne]
          exact hdone hnd.1 q hq
        · obtain rfl := mem_singleton.mp hq
          exact Function.update_self ..)
    ⟨by simp, by simp, by simp⟩ h
  obtain ⟨hsmall, hrest, hdone⟩ := key
  have hmap : members.zipIdx.map Prod.fst = members := zipIdx_map_fst 0 members
  rw [hmap] at hrest hdone
  have hk : ∀ k i, members[k]? = some i → (i, k) ∈ members.zipIdx := by
    intro k i hki
    exact mk_mem_zipIdx_iff_getElem?.mpr hki
  refine ⟨?_, hrest, fun k i hki => hdone hnd _ (hk k i hki)⟩
  by_contra hlong
  have hlt : u32Size < members.length := by omega
  have := hsmall _ (hk (u32Size) _ (getElem?_eq_getElem hlt))
  exact absurd this (lt_irrefl _)

theorem foldlM_rankOrdinal_total (hlen : members.length ≤ u32Size) (ordinals : Nat → Nat) :
    ∃ ordinals', members.zipIdx.foldlM rankOrdinal ordinals = .ok ordinals' := by
  have := foldlM_total (f := rankOrdinal) (P := fun _ _ => True) (l := members.zipIdx)
    (s := ordinals)
    (by
      intro done p rest o hl _
      have hp : p ∈ members.zipIdx := by simp [hl]
      have hlt : p.2 < members.length := by
        obtain ⟨i, k⟩ := p
        exact (List.getElem?_eq_some_iff.mp (mk_mem_zipIdx_iff_getElem?.mp hp)).1
      refine ⟨Function.update o p.1 p.2, ?_, trivial⟩
      rw [rankOrdinal, if_neg (by omega)]
      rfl)
    trivial
  exact this.imp fun _ h => h.1

theorem rankCohort_ok {ordinals ordinals' : Nat → Nat} (hnd : members.Nodup)
    (h : rankCohort definitions ordinals members = .ok ordinals') :
    members.length ≤ u32Size ∧
      (∀ i ∈ members, ∀ j ∈ members,
        compilerOrdinal definitions i = compilerOrdinal definitions j → i = j) ∧
      (∀ i, i ∉ members → ordinals' i = ordinals i) ∧
      ∀ i ∈ members, ordinals' i = rankIn (compilerOrdinal definitions) members i := by
  obtain ⟨hdistinct, hfold⟩ := guard_ok h
  have hperm := perm_sortMembers definitions members
  have hlt := pairwise_lt_of_neighbours (pairwise_sortMembers definitions members)
    (Bool.not_eq_true _ ▸ hdistinct)
  obtain ⟨hlen, hrest, hrank⟩ := foldlM_rankOrdinal (hperm.nodup_iff.mpr hnd) hfold
  exact ⟨hperm.length_eq ▸ hlen, distinct_of_pairwise hperm hlt,
    fun i hi => hrest i fun hm => hi (hperm.mem_iff.mp hm), rank_of_pairwise hperm hlt hrank⟩

theorem rankCohort_total (hnd : members.Nodup) (hlen : members.length ≤ u32Size)
    (hdistinct : ∀ i ∈ members, ∀ j ∈ members,
      compilerOrdinal definitions i = compilerOrdinal definitions j → i = j)
    (ordinals : Nat → Nat) :
    ∃ ordinals', rankCohort definitions ordinals members = .ok ordinals' := by
  have hperm := perm_sortMembers definitions members
  have hany : (neighbours (sortMembers definitions members)).any (fun pair =>
      compilerOrdinal definitions pair.1 == compilerOrdinal definitions pair.2) = false := by
    have hne : (sortMembers definitions members).IsChain (· ≠ ·) :=
      (hperm.nodup_iff.mpr hnd).isChain
    rw [any_eq_false]
    intro p hp heq
    have hmem := of_mem_zip hp
    refine isChain_iff_neighbours.mp hne p hp (hdistinct _ (hperm.mem_iff.mp hmem.1) _
      (hperm.mem_iff.mp (mem_of_mem_tail hmem.2)) ?_)
    simpa using heq
  obtain ⟨ordinals', h⟩ := foldlM_rankOrdinal_total (hperm.length_eq.trans_le hlen) ordinals
  refine ⟨ordinals', ?_⟩
  rw [rankCohort, if_neg (by rw [hany]; exact Bool.false_ne_true)]
  exact h

/-! ## All cohorts -/

theorem nodup_cohortMembers (i : Nat) : (cohortMembers definitions i).Nodup :=
  nodup_range.filter _

/-- When the cohorts are ranked, each definition has its rank in its cohort. -/
theorem privateCohortOrdinals_ok {ordinals : Nat → Nat}
    (h : privateCohortOrdinals definitions = .ok ordinals) :
    CohortsRanked definitions ∧ ∀ i < definitions.length,
      ordinals i = rankIn (compilerOrdinal definitions) (cohortMembers definitions i) i := by
  have hdisj := pairwise_disjoint_groups (fun a b => (compare a b).isLE) (cohortKey definitions)
    (List.range definitions.length)
  have hnodup : ∀ g ∈ cohorts definitions, g.Nodup := by
    intro g hg
    obtain ⟨i, -, rfl⟩ := mem_cohorts.mp hg
    exact nodup_cohortMembers i
  have key := foldlM_ok (f := rankCohort definitions)
    (P := fun done o => done.Pairwise List.Disjoint → (∀ g ∈ done, g.Nodup) →
      ∀ g ∈ done, g.length ≤ u32Size ∧
        (∀ i ∈ g, ∀ j ∈ g, compilerOrdinal definitions i = compilerOrdinal definitions j → i = j) ∧
        ∀ i ∈ g, o i = rankIn (compilerOrdinal definitions) g i)
    (by
      intro done members o o' hdone hrank hpw hnd g hg
      obtain ⟨hlen, hdistinct, hrest, hval⟩ := rankCohort_ok (hnd members (by simp)) hrank
      rw [pairwise_append] at hpw
      rcases mem_append.mp hg with hg | hg
      · obtain ⟨h1, h2, h3⟩ := hdone hpw.1 (fun g hg => hnd g (by simp [hg])) g hg
        refine ⟨h1, h2, fun i hi => ?_⟩
        rw [hrest i fun him => hpw.2.2 g hg members (by simp) hi him]
        exact h3 i hi
      · obtain rfl := mem_singleton.mp hg
        exact ⟨hlen, hdistinct, hval⟩)
    (by simp) h hdisj hnodup
  have hmem : ∀ i < definitions.length, i ∈ cohortMembers definitions i := fun i hi =>
    mem_cohortMembers.mpr ⟨hi, rfl⟩
  refine ⟨⟨fun i hi j hj hij heq => ?_, fun i hi => ?_⟩, fun i hi => ?_⟩
  · exact (key _ (mem_cohorts.mpr ⟨i, hi, rfl⟩)).2.1 i (hmem i hi) j
      (mem_cohortMembers.mpr ⟨hj, hij.symm⟩) heq
  · exact (key _ (mem_cohorts.mpr ⟨i, hi, rfl⟩)).1
  · exact (key _ (mem_cohorts.mpr ⟨i, hi, rfl⟩)).2.2 i (hmem i hi)

theorem privateCohortOrdinals_total (h : CohortsRanked definitions) :
    ∃ ordinals, privateCohortOrdinals definitions = .ok ordinals := by
  have := foldlM_total (f := rankCohort definitions) (P := fun _ _ => True)
    (l := cohorts definitions) (s := fun _ => 0)
    (by
      intro done members rest o hl _
      obtain ⟨i, hi, rfl⟩ := mem_cohorts.mp (hl ▸ by simp : members ∈ cohorts definitions)
      have hm : ∀ j, j ∈ cohortMembers definitions i → _ := fun j hj => mem_cohortMembers.mp hj
      obtain ⟨o', ho'⟩ := rankCohort_total (nodup_cohortMembers i)
        (h.small i hi) (fun j hj k hk => h.distinct j (hm j hj).1 k (hm k hk).1
          ((hm j hj).2.trans (hm k hk).2.symm)) o
      exact ⟨o', ho', trivial⟩)
    trivial
  exact this.imp fun _ h => h.1

end ItemDependencies
