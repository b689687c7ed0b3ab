import Mathlib.Data.Finset.Card

/-!
# Union-find

Each element has a parent, and following the parents leads to the root that
represents it.  A search for the root shortens the way for the next one, and
linking two roots joins what they represent.
-/

namespace ItemDependencies.Library

open Relation List

/-- Follow the parents to the root; each one that is passed gets the parent of its parent. -/
def findRoot : Nat → List Nat → Nat → List Nat × Nat
  | 0, parents, i => (parents, i)
  | limit + 1, parents, i =>
    match parents[i]? with
    | none => (parents, i)
    | some parent =>
      if parent = i then (parents, i)
      else
        let above := (parents[parent]?).getD parent
        findRoot limit (parents.set i above) above

/-- The root of an element; no way is longer than there are elements. -/
def rootOf (parents : List Nat) (i : Nat) : List Nat × Nat := findRoot parents.length parents i

/-- Join the classes of two elements; the second root gets the first one as its parent. -/
def link (parents : List Nat) (pair : Nat × Nat) : List Nat :=
  let left := rootOf parents pair.1
  let right := rootOf left.1 pair.2
  if left.2 ≠ right.2 then right.1.set right.2 left.2 else right.1

/-- The roots of some elements, one after the other. -/
def rootsOf (parents : List Nat) : List Nat → List Nat × List Nat
  | [] => (parents, [])
  | i :: is =>
    let first := rootOf parents i
    let rest := rootsOf first.1 is
    (rest.1, first.2 :: rest.2)

/-- The parents lead up, to the root that represents an element. -/
structure Forest (parents : List Nat) (rank : Nat → Nat) (rep : Nat → Nat) : Prop where
  up : ∀ i p : Nat, parents[i]? = some p → p ≠ i → rank i < rank p
  inside : ∀ i p : Nat, parents[i]? = some p → p < parents.length
  rep_parent : ∀ i p : Nat, parents[i]? = some p → rep p = rep i
  rep_root : ∀ i : Nat, parents[i]? = some i → rep i = i

section

variable {parents : List Nat} {rank rep : Nat → Nat} {i j : Nat}

namespace Forest

/-- Passing over a parent. -/
theorem set_above (h : Forest parents rank rep) {p above : Nat} (hp : parents[i]? = some p)
    (hne : p ≠ i) (habove : parents[p]? = some above) :
    Forest (parents.set i above) rank rep ∧ rank i < rank above ∧ rep above = rep i := by
  have hrank : rank i < rank above := by
    by_cases heq : above = p
    · exact heq ▸ h.up i p hp hne
    · exact (h.up i p hp hne).trans (h.up p above habove heq)
  have hrep : rep above = rep i := (h.rep_parent p above habove).trans (h.rep_parent i p hp)
  have hget : ∀ j q : Nat, (parents.set i above)[j]? = some q →
      (j = i ∧ q = above) ∨ (j ≠ i ∧ parents[j]? = some q) := by
    intro j q hq
    rw [getElem?_set] at hq
    by_cases hij : i = j
    · subst hij
      rw [if_pos rfl] at hq
      split at hq
      · exact .inl ⟨rfl, (Option.some.inj hq).symm⟩
      · cases hq
    · rw [if_neg hij] at hq
      exact .inr ⟨Ne.symm hij, hq⟩
  refine ⟨⟨fun j q hq hne => ?_, fun j q hq => ?_, fun j q hq => ?_, fun j hj => ?_⟩, hrank, hrep⟩
  · rcases hget j q hq with ⟨rfl, rfl⟩ | ⟨-, hq⟩
    · exact hrank
    · exact h.up j q hq hne
  · rw [length_set]
    rcases hget j q hq with ⟨rfl, rfl⟩ | ⟨-, hq⟩
    · exact h.inside p q habove
    · exact h.inside j q hq
  · rcases hget j q hq with ⟨rfl, rfl⟩ | ⟨-, hq⟩
    · exact hrep
    · exact h.rep_parent j q hq
  · rcases hget j j hj with ⟨rfl, rfl⟩ | ⟨-, hq⟩
    · exact absurd hrank (Nat.lt_irrefl _)
    · exact h.rep_root j hq

/-- Fewer elements are above a parent. -/
theorem card_above_lt {n p : Nat} (hp : p < n) (h : rank i < rank p) :
    ((Finset.range n).filter fun k => rank p < rank k).card <
      ((Finset.range n).filter fun k => rank i < rank k).card := by
  apply Finset.card_lt_card
  refine ⟨fun k hk => ?_, fun hsub => ?_⟩
  · obtain ⟨hk, hlt⟩ := Finset.mem_filter.mp hk
    exact Finset.mem_filter.mpr ⟨hk, h.trans hlt⟩
  · have hmem := hsub (Finset.mem_filter.mpr ⟨Finset.mem_range.mpr hp, h⟩)
    exact absurd (Finset.mem_filter.mp hmem).2 (Nat.lt_irrefl _)

/-- The representative of an element is a root. -/
theorem root_at (h : Forest parents rank rep) (hi : i < parents.length) :
    parents[rep i]? = some (rep i) := by
  obtain ⟨limit, hlimit⟩ : ∃ limit,
      ((Finset.range parents.length).filter fun k => rank i < rank k).card < limit :=
    ⟨_, Nat.lt_succ_self _⟩
  induction limit generalizing i with
  | zero => exact absurd hlimit (Nat.not_lt_zero _)
  | succ limit ih =>
    obtain ⟨p, hp⟩ : ∃ p, parents[i]? = some p := ⟨_, getElem?_eq_getElem hi⟩
    by_cases hroot : p = i
    · subst hroot
      rw [h.rep_root p hp]
      exact hp
    · rw [← h.rep_parent i p hp]
      have hinside := h.inside i p hp
      exact ih hinside ((card_above_lt hinside (h.up i p hp hroot)).trans_le
        (Nat.lt_succ_iff.mp hlimit))

/-- The search ends at the root, since each step goes up. -/
theorem findRoot (h : Forest parents rank rep) {limit : Nat} (hi : i < parents.length)
    (hlimit : ((Finset.range parents.length).filter fun k => rank i < rank k).card ≤ limit) :
    ∃ parents', findRoot limit parents i = (parents', rep i) ∧ parents'.length = parents.length ∧
      Forest parents' rank rep := by
  induction limit generalizing parents i with
  | zero =>
    obtain ⟨p, hp⟩ : ∃ p, parents[i]? = some p := ⟨_, getElem?_eq_getElem hi⟩
    have hroot : p = i := by
      by_contra hne
      have hlt := card_above_lt (h.inside i p hp) (h.up i p hp hne)
      exact absurd (hlt.trans_le hlimit) (Nat.not_lt_zero _)
    subst hroot
    exact ⟨parents, by rw [Library.findRoot, h.rep_root p hp], rfl, h⟩
  | succ limit ih =>
    obtain ⟨p, hp⟩ : ∃ p, parents[i]? = some p := ⟨_, getElem?_eq_getElem hi⟩
    rw [Library.findRoot, hp]
    dsimp only
    by_cases hroot : p = i
    · subst hroot
      exact ⟨parents, by rw [if_pos rfl, h.rep_root p hp], rfl, h⟩
    · obtain ⟨above, habove⟩ : ∃ above, parents[p]? = some above :=
        ⟨_, getElem?_eq_getElem (h.inside i p hp)⟩
      obtain ⟨hset, hrank, hrep⟩ := h.set_above hp hroot habove
      have hinside := h.inside p above habove
      rw [if_neg hroot, habove, Option.getD_some]
      obtain ⟨parents', heq, hlength, hforest⟩ := ih hset (by rwa [length_set]) (by
        rw [length_set]
        exact Nat.lt_succ_iff.mp ((card_above_lt hinside hrank).trans_le hlimit))
      rw [hrep] at heq
      exact ⟨parents', heq, hlength.trans length_set, hforest⟩

theorem rootOf (h : Forest parents rank rep) (hi : i < parents.length) :
    ∃ parents', rootOf parents i = (parents', rep i) ∧ parents'.length = parents.length ∧
      Forest parents' rank rep := by
  refine h.findRoot hi ((Finset.card_filter_le _ _).trans ?_)
  rw [Finset.card_range]

/-- Linking joins the class of the second element to that of the first one. -/
theorem link (h : Forest parents rank rep) (hi : i < parents.length) (hj : j < parents.length) :
    (link parents (i, j)).length = parents.length ∧ ∃ rank',
      Forest (link parents (i, j)) rank' fun k => if rep k = rep j then rep i else rep k := by
  obtain ⟨left, hleft, hleftLength, hleftForest⟩ := h.rootOf hi
  obtain ⟨right, hright, hrightLength, hforest⟩ := hleftForest.rootOf (by rwa [hleftLength])
  have hlength : right.length = parents.length := hrightLength.trans hleftLength
  have hlinked : Library.link parents (i, j) =
      if rep i ≠ rep j then right.set (rep j) (rep i) else right := by
    rw [Library.link, hleft]
    dsimp only
    rw [hright]
  rw [hlinked]
  by_cases hne : rep i ≠ rep j
  · have hrooti := hforest.root_at (hlength ▸ hi)
    have hrootj := hforest.root_at (hlength ▸ hj)
    rw [if_pos hne]
    refine ⟨length_set.trans hlength, fun k => if k = rep i then rank (rep i) + rank (rep j) + 1
      else rank k, ?_⟩
    have hget : ∀ k q : Nat, (right.set (rep j) (rep i))[k]? = some q →
        (k = rep j ∧ q = rep i) ∨ (k ≠ rep j ∧ right[k]? = some q) := by
      intro k q hq
      rw [getElem?_set] at hq
      by_cases hk : rep j = k
      · subst hk
        rw [if_pos rfl] at hq
        split at hq
        · exact .inl ⟨rfl, (Option.some.inj hq).symm⟩
        · cases hq
      · rw [if_neg hk] at hq
        exact .inr ⟨Ne.symm hk, hq⟩
    refine ⟨fun k q hq hqne => ?_, fun k q hq => ?_, fun k q hq => ?_, fun k hk => ?_⟩
    · rcases hget k q hq with ⟨rfl, rfl⟩ | ⟨-, hq⟩
      · rw [if_neg (Ne.symm hne), if_pos rfl]
        omega
      · have hup := hforest.up k q hq hqne
        by_cases hki : k = rep i
        · subst hki
          rw [hrooti] at hq
          exact absurd (Option.some.inj hq).symm hqne
        · rw [if_neg hki]
          split
          · rename_i hqi
            rw [hqi] at hup
            omega
          · exact hup
    · rw [length_set]
      rcases hget k q hq with ⟨rfl, rfl⟩ | ⟨-, hq⟩
      · exact hforest.inside _ _ hrooti
      · exact hforest.inside k q hq
    · rcases hget k q hq with ⟨rfl, rfl⟩ | ⟨-, hq⟩
      · rw [hforest.rep_root _ hrooti, hforest.rep_root _ hrootj, if_neg hne, if_pos rfl]
      · rw [hforest.rep_parent k q hq]
    · rcases hget k k hk with ⟨rfl, hq⟩ | ⟨hkj, hq⟩
      · exact absurd hq.symm hne
      · rw [hforest.rep_root k hq, if_neg hkj]
  · rw [if_neg hne]
    refine ⟨hlength, rank, ?_⟩
    have hsame : (fun k => if rep k = rep j then rep i else rep k) = rep := by
      funext k
      split
      · rename_i hk
        rw [hk]
        exact not_not.mp hne
      · rfl
    rwa [hsame]

theorem of_range {n p : Nat} (h : (List.range n)[i]? = some p) : i = p ∧ p < n := by
  obtain ⟨hi, heq⟩ := List.getElem?_eq_some_iff.mp h
  rw [getElem_range] at heq
  subst heq
  exact ⟨rfl, by rwa [length_range] at hi⟩

/-- Without links each element is a root. -/
theorem range (n : Nat) : Forest (List.range n) (fun _ => 0) id where
  up i p hp hne := absurd (of_range hp).1.symm hne
  inside i p hp := by
    rw [length_range]
    exact (of_range hp).2
  rep_parent i p hp := (of_range hp).1.symm
  rep_root _ _ := rfl

/-- Looking for several roots changes no class. -/
theorem rootsOf (h : Forest parents rank rep) (is : List Nat) (his : ∀ i ∈ is, i < parents.length) :
    ∃ parents', rootsOf parents is = (parents', is.map rep) ∧ parents'.length = parents.length ∧
      Forest parents' rank rep := by
  induction is generalizing parents with
  | nil => exact ⟨parents, rfl, rfl, h⟩
  | cons i is ih =>
    obtain ⟨hi, his⟩ := forall_mem_cons.mp his
    obtain ⟨first, hfirst, hfirstLength, hfirstForest⟩ := h.rootOf hi
    obtain ⟨parents', hrest, hlength, hforest⟩ :=
      ih hfirstForest (by rwa [hfirstLength])
    refine ⟨parents', ?_, hlength.trans hfirstLength, hforest⟩
    rw [Library.rootsOf, hfirst]
    dsimp only
    rw [hrest, map_cons]

end Forest

end

section

variable {α : Type*} {r : α → α → Prop} {rep : α → α}

/-- Joining two classes relates what is in them. -/
theorem eqvGen_join [DecidableEq α] (h : ∀ a b, rep a = rep b ↔ EqvGen r a b) (i j a b : α) :
    (if rep a = rep j then rep i else rep a) = (if rep b = rep j then rep i else rep b) ↔
      EqvGen (fun a b => r a b ∨ a = i ∧ b = j) a b := by
  have hmono : ∀ {a b}, rep a = rep b → EqvGen (fun a b => r a b ∨ a = i ∧ b = j) a b :=
    fun heq => EqvGen.mono (fun _ _ => Or.inl) _ _ ((h _ _).mp heq)
  have hjoin : EqvGen (fun a b => r a b ∨ a = i ∧ b = j) i j := .rel _ _ (.inr ⟨rfl, rfl⟩)
  constructor
  · intro heq
    by_cases ha : rep a = rep j <;> by_cases hb : rep b = rep j
    · exact hmono (ha.trans hb.symm)
    · rw [if_pos ha, if_neg hb] at heq
      exact (hmono ha).trans _ _ _ (hjoin.symm.trans _ _ _ (hmono heq))
    · rw [if_neg ha, if_pos hb] at heq
      exact (hmono heq).trans _ _ _ (hjoin.trans _ _ _ (hmono hb.symm))
    · rw [if_neg ha, if_neg hb] at heq
      exact hmono heq
  · intro hchain
    induction hchain with
    | rel a b hab =>
      rcases hab with hab | ⟨rfl, rfl⟩
      · rw [(h a b).mpr (.rel a b hab)]
      · by_cases ha : rep a = rep b
        · rw [ha]
        · rw [if_neg ha, if_pos rfl]
    | refl => rfl
    | symm _ _ _ ih => exact ih.symm
    | trans _ _ _ _ _ ih ih' => exact ih.trans ih'

end

/-- The classes of all links. -/
theorem Forest.links {parents : List Nat} {rank rep : Nat → Nat} {r : Nat → Nat → Prop}
    (h : Forest parents rank rep) (hr : ∀ a b, rep a = rep b ↔ EqvGen r a b)
    {pairs : List (Nat × Nat)}
    (hpairs : ∀ pair ∈ pairs, pair.1 < parents.length ∧ pair.2 < parents.length) :
    (pairs.foldl Library.link parents).length = parents.length ∧ ∃ rank' rep',
      Forest (pairs.foldl Library.link parents) rank' rep' ∧
        ∀ a b, rep' a = rep' b ↔ EqvGen (fun a b => r a b ∨ (a, b) ∈ pairs) a b := by
  induction pairs generalizing parents rank rep r with
  | nil =>
    refine ⟨rfl, rank, rep, h, fun a b => ?_⟩
    simpa using hr a b
  | cons pair pairs ih =>
    obtain ⟨⟨hi, hj⟩, hpairs⟩ := forall_mem_cons.mp hpairs
    obtain ⟨hlength, rank', hlinked⟩ := h.link hi hj
    obtain ⟨hlengths, rank'', rep'', hforest, hclasses⟩ :=
      ih hlinked (eqvGen_join hr pair.1 pair.2) (by rwa [hlength])
    refine ⟨hlengths.trans hlength, rank'', rep'', hforest, fun a b => ?_⟩
    rw [hclasses]
    have hsame : (fun a b => (r a b ∨ a = pair.1 ∧ b = pair.2) ∨ (a, b) ∈ pairs) =
        fun a b => r a b ∨ (a, b) ∈ pair :: pairs := by
      funext a b
      rw [mem_cons, ← Prod.mk.eta (p := pair), Prod.mk.injEq, or_assoc]
    rw [hsame]

end ItemDependencies.Library
