import ItemDependencies.Definitions.PrivateOrdinals

/-!
# Identities as paths

The identity of a definition is the list of its parents' parts and its own, so
it exists exactly when the parents can be looked up and end at a definition
without a parent.  The search with its memory and its set of active
definitions finds it, and nothing else.
-/

namespace ItemDependencies

open Library List Option Function

variable {definitions : List LocatedDefinition} {ordinals : Nat → Nat} {key : DefinitionIdentityKey}

/-- The identity of a definition, along its parents. -/
inductive IdentityOf (definitions : List LocatedDefinition) (ordinals : Nat → Nat) :
    Nat → DefinitionIdentityKey → Prop
  | root {i : Nat} {d : LocatedDefinition} (hi : definitions[i]? = some d)
      (hp : d.definition.parent = none) :
      IdentityOf definitions ordinals i ⟨[] ++ [d.identityPart (ordinals i)]⟩
  | child {i j : Nat} {d : LocatedDefinition} {parent : Nat} {key : DefinitionIdentityKey}
      (hi : definitions[i]? = some d) (hp : d.definition.parent = some parent)
      (hj : byCompilerId definitions parent = some j)
      (hkey : IdentityOf definitions ordinals j key) :
      IdentityOf definitions ordinals i ⟨key.parts ++ [d.identityPart (ordinals i)]⟩

namespace IdentityOf

theorem lt_length {i : Nat} (h : IdentityOf definitions ordinals i key) :
    i < definitions.length := by
  cases h with
  | root hi => exact (List.getElem?_eq_some_iff.mp hi).1
  | child hi => exact (List.getElem?_eq_some_iff.mp hi).1

/-- A definition has one identity. -/
theorem unique {i : Nat} {key key' : DefinitionIdentityKey}
    (h : IdentityOf definitions ordinals i key) (h' : IdentityOf definitions ordinals i key') :
    key = key' := by
  induction h generalizing key' with
  | root hi hp =>
    cases h' with
    | root hi' => rw [Option.some.inj (hi.symm.trans hi')]
    | child hi' hp' =>
      rw [Option.some.inj (hi'.symm.trans hi), hp] at hp'
      cases hp'
  | child hi hp hj _ ih =>
    cases h' with
    | root hi' hp' =>
      rw [Option.some.inj (hi'.symm.trans hi), hp] at hp'
      cases hp'
    | child hi' hp' hj' hkey' =>
      obtain rfl := Option.some.inj (hi.symm.trans hi')
      obtain rfl := Option.some.inj (hp.symm.trans hp')
      obtain rfl := Option.some.inj (hj.symm.trans hj')
      rw [ih hkey']

end IdentityOf

/-- What the memory holds is right, and a definition that is active is not yet in it. -/
structure IdentityState.Inv (definitions : List LocatedDefinition) (ordinals : Nat → Nat)
    (state : IdentityState) : Prop where
  known : ∀ i key, state.identities i = some key → IdentityOf definitions ordinals i key
  active : ∀ i ∈ state.active, i < definitions.length

/-- A call that returns has found the identity, keeps what was known, and leaves the active
definitions as they were. -/
theorem identity_ok {fuel index : Nat} {state state' : IdentityState}
    (hs : state.Inv definitions ordinals)
    (h : identity definitions ordinals fuel index state = .ok (key, state')) :
    IdentityOf definitions ordinals index key ∧ state'.Inv definitions ordinals ∧
      state'.active = state.active ∧ state'.identities index = some key ∧
      ∀ i key, state.identities i = some key → state'.identities i = some key := by
  induction fuel generalizing index state state' key with
  | zero => cases h
  | succ fuel ih =>
    rw [identity] at h
    cases hknown : state.identities index with
    | some known =>
      simp only [hknown] at h
      cases h
      exact ⟨hs.known _ _ hknown, hs, rfl, hknown, fun _ _ h => h⟩
    | none =>
      cases hd : definitions[index]? with
      | none => simp only [hknown, hd] at h; cases h
      | some d =>
        simp only [hknown, hd] at h
        obtain ⟨hfresh, h⟩ := guard_ok h
        obtain ⟨⟨parts, inner⟩, hparts, h⟩ := bind_ok h
        cases h
        have hlt : index < definitions.length := (List.getElem?_eq_some_iff.mp hd).1
        have hs0 : IdentityState.Inv definitions ordinals
            { state with active := insert index state.active } := by
          refine ⟨hs.known, fun i hi => ?_⟩
          rcases Finset.mem_insert.mp hi with rfl | hi
          · exact hlt
          · exact hs.active i hi
        -- what the lookup of the parent has done
        have hinner : IdentityOf definitions ordinals index
              ⟨parts ++ [d.identityPart (ordinals index)]⟩ ∧
            inner.Inv definitions ordinals ∧ inner.active = insert index state.active ∧
            ∀ i key, state.identities i = some key → inner.identities i = some key := by
          cases hp : d.definition.parent with
          | none =>
            simp only [parentParts, hp] at hparts
            cases hparts
            exact ⟨.root hd hp, hs0, rfl, fun _ _ h => h⟩
          | some parent =>
            simp only [parentParts, hp] at hparts
            cases hj : byCompilerId definitions parent with
            | none => simp only [hj] at hparts; cases hparts
            | some j =>
              simp only [hj] at hparts
              obtain ⟨⟨parentKey, inner'⟩, hrec, hparts⟩ := bind_ok hparts
              cases hparts
              obtain ⟨hkey, hinv, hactive, -, hkeep⟩ := ih hs0 hrec
              exact ⟨.child hd hp hj hkey, hinv, hactive, hkeep⟩
        obtain ⟨hkey, hinv, hactive, hkeep⟩ := hinner
        refine ⟨hkey, ⟨fun i k hk => ?_, fun i hi => ?_⟩, ?_, update_self ..,
          fun i k hk => ?_⟩
        · by_cases hi : i = index
          · subst hi
            simp only [update_self, Option.some.injEq] at hk
            exact hk ▸ hkey
          · simp only [update_of_ne hi] at hk
            exact hinv.known i k hk
        · exact hinv.active i (Finset.mem_of_mem_erase hi)
        · simp only [hactive, Finset.erase_insert hfresh]
        · have hi : i ≠ index := by
            rintro rfl
            rw [hknown] at hk
            cases hk
          simp only [update_of_ne hi]
          exact hkeep i k hk

/-- A definition with an identity is found, if the active definitions all lie below it. -/
theorem identity_total {n index : Nat} {state : IdentityState}
    (hkey : IdentityOf definitions ordinals index key) (hs : state.Inv definitions ordinals)
    (hbelow : ∀ i ∈ state.active, ∃ below, IdentityOf definitions ordinals i below ∧
      key.parts.length < below.parts.length)
    (hfuel : definitions.length < n + state.active.card) :
    ∃ result, identity definitions ordinals n index state = .ok result := by
  have hcard : state.active.card ≤ definitions.length := by
    have hsub : state.active ⊆ Finset.range definitions.length := fun i hi =>
      Finset.mem_range.mpr (hs.active i hi)
    simpa using Finset.card_le_card hsub
  induction hkey generalizing n state with
  | @root i d hi hp =>
    obtain ⟨n, rfl⟩ := Nat.exists_eq_succ_of_ne_zero (show n ≠ 0 by omega)
    rw [identity]
    cases hknown : state.identities i with
    | some known => exact ⟨_, rfl⟩
    | none =>
      have hfresh : i ∉ state.active := by
        intro hactive
        obtain ⟨below, hb, hlt⟩ := hbelow i hactive
        rw [← (IdentityOf.root hi hp).unique hb] at hlt
        exact absurd hlt (lt_irrefl _)
      simp only [hi, parentParts, hp, if_neg hfresh]
      exact ⟨_, rfl⟩
  | @child i j d parent key hi hp hj hkey ih =>
    obtain ⟨n, rfl⟩ := Nat.exists_eq_succ_of_ne_zero (show n ≠ 0 by omega)
    have hchild := IdentityOf.child hi hp hj hkey
    rw [identity]
    cases hknown : state.identities i with
    | some known => exact ⟨_, rfl⟩
    | none =>
      have hfresh : i ∉ state.active := by
        intro hactive
        obtain ⟨below, hb, hlt⟩ := hbelow i hactive
        rw [← hchild.unique hb] at hlt
        exact absurd hlt (lt_irrefl _)
      have hs0 : IdentityState.Inv definitions ordinals
          { state with active := insert i state.active } := by
        refine ⟨hs.known, fun k hk => ?_⟩
        rcases Finset.mem_insert.mp hk with rfl | hk
        · exact hchild.lt_length
        · exact hs.active k hk
      have hcard0 : (insert i state.active).card ≤ definitions.length := by
        have hsub : insert i state.active ⊆ Finset.range definitions.length := fun k hk =>
          Finset.mem_range.mpr (hs0.active k hk)
        simpa using Finset.card_le_card hsub
      obtain ⟨⟨parentKey, inner⟩, hrec⟩ := ih (n := n) hs0
        (fun k hk => by
          rcases Finset.mem_insert.mp hk with rfl | hk
          · exact ⟨_, hchild, by simp⟩
          · obtain ⟨below, hb, hlt⟩ := hbelow k hk
            refine ⟨below, hb, ?_⟩
            simp only [length_append, length_singleton] at hlt
            omega)
        (by rw [Finset.card_insert_of_notMem hfresh]; omega) hcard0
      simp only [hi, parentParts, hp, hj, if_neg hfresh, hrec]
      exact ⟨_, rfl⟩

/-- The identities are found exactly when each definition has one. -/
theorem locatedIdentities_ok {identities : List DefinitionIdentityKey} :
    locatedIdentities definitions ordinals = .ok identities ↔
      List.Forall₂ (IdentityOf definitions ordinals)
        (List.range definitions.length) identities := by
  have hempty :
      IdentityState.Inv definitions ordinals { identities := fun _ => none, active := ∅ } :=
    ⟨by simp, by simp⟩
  have hread : ∀ {state : IdentityState}, state.Inv definitions ordinals →
      ∀ {i key}, identityOf state i = .ok key → IdentityOf definitions ordinals i key := by
    intro state hs i key h
    rw [identityOf] at h
    split at h
    · cases h
    · rename_i known hk
      cases h
      exact hs.known _ _ hk
  constructor
  · intro h
    obtain ⟨state, hfold, hmap⟩ := bind_ok h
    have hinv := foldlM_ok (f := identityStep definitions ordinals)
      (P := fun _ state => state.Inv definitions ordinals)
      (by
        intro done i s t hs hi
        obtain ⟨⟨key, s'⟩, hid, ht⟩ := bind_ok hi
        cases ht
        exact (identity_ok hs hid).2.1)
      hempty hfold
    exact (mapM_ok hmap).imp fun _ _ h => hread hinv h
  · intro h
    have hall :
        ∀ i ∈ List.range definitions.length, ∃ key, IdentityOf definitions ordinals i key := by
      intro i hi
      obtain ⟨k, hk, rfl⟩ := mem_iff_getElem.mp hi
      exact ⟨_, h.get hk (h.length_eq ▸ hk)⟩
    obtain ⟨state, hfold, hinv, -, hdone⟩ := foldlM_total
      (f := identityStep definitions ordinals) (l := List.range definitions.length)
      (P := fun done state => state.Inv definitions ordinals ∧ state.active = ∅ ∧
        ∀ i ∈ done, (state.identities i).isSome)
      (by
        intro done i rest s hl ⟨hs, hactive, hdone⟩
        obtain ⟨key, hkey⟩ := hall i (by simp [hl])
        obtain ⟨⟨key', s'⟩, hid⟩ := identity_total (n := definitions.length + 1) hkey hs
          (by simp [hactive]) (by omega)
        obtain ⟨-, hs', hactive', hi', hkeep⟩ := identity_ok hs hid
        refine ⟨s', ?_, hs', hactive'.trans hactive, fun k hk => ?_⟩
        · rw [identityStep, hid]
          rfl
        · rcases mem_append.mp hk with hk | hk
          · obtain ⟨known, hknown⟩ := isSome_iff_exists.mp (hdone k hk)
            exact isSome_iff_exists.mpr ⟨known, hkeep k known hknown⟩
          · obtain rfl := mem_singleton.mp hk
            exact isSome_iff_exists.mpr ⟨key', hi'⟩)
      ⟨hempty, rfl, by simp⟩
    have hmap : List.Forall₂ (fun i key => identityOf state i = .ok key)
        (List.range definitions.length) identities := by
      refine forall₂_iff_get.mpr ⟨h.length_eq, fun k hk hk' => ?_⟩
      have hkey := (forall₂_iff_get.mp h).2 k hk hk'
      obtain ⟨known, hknown⟩ := isSome_iff_exists.mp (hdone _ (get_mem _ ⟨k, hk⟩))
      rw [hkey.unique (hinv.known _ _ hknown), identityOf, hknown]
      rfl
    rw [locatedIdentities, hfold]
    exact mapM_total hmap

end ItemDependencies
