import ItemDependencies.Definitions.CanonicalOrder

/-!
# Keys of canonical definitions

A key is the path of a definition, so keys are as distinct as the parts of siblings are.  After an
assignment of ordinals the parts of siblings differ, also in the coordinates of the original source:
siblings of one origin, kind and name belong to one public cohort.
-/

namespace ItemDependencies

open Library List

variable {definitions raw : List RawDefinition} {d e : RawDefinition} {state : CanonicalDefinitions}
  {coordinates : Option SourceRewrite}

/-! ## Paths -/

section Paths

variable {β : Type} {part : RawDefinition → β → Prop} {path path' : List β}

/-- The parts of a definition and of all its parents, outermost part first. -/
inductive PathOf (definitions : List RawDefinition) (part : RawDefinition → β → Prop) :
    RawDefinition → List β → Prop
  | root {d : RawDefinition} {b : β} (hd : d ∈ definitions) (hp : d.parent = none)
      (hb : part d b) : PathOf definitions part d ([] ++ [b])
  | child {d e : RawDefinition} {b : β} {path : List β} (hd : d ∈ definitions)
      (hp : d.parent = some e.compilerId) (hb : part d b) (he : PathOf definitions part e path) :
      PathOf definitions part d (path ++ [b])

theorem PathOf.ne_nil (h : PathOf definitions part d path) : path ≠ [] := by
  cases h with
  | root => exact concat_ne_nil _ _
  | child => exact concat_ne_nil _ _

/-- Where siblings are told apart by their parts, definitions are told apart by their paths. -/
theorem PathOf.eq (hapart : ∀ d ∈ definitions, ∀ e ∈ definitions, ∀ b, d.parent = e.parent →
      part d b → part e b → d = e)
    (h : PathOf definitions part d path) (h' : PathOf definitions part e path')
    (heq : path = path') : d = e := by
  induction h generalizing e path' with
  | root hd hp hb =>
    cases h' with
    | root hd' hp' hb' =>
      cases heq
      exact hapart _ hd _ hd' _ (hp.trans hp'.symm) hb hb'
    | child _ _ _ he =>
      exact absurd (append_inj' heq rfl).1.symm he.ne_nil
  | child hd hp hb he ih =>
    cases h' with
    | root => exact absurd (append_inj' heq rfl).1 he.ne_nil
    | child hd' hp' hb' he' =>
      obtain ⟨hpath, hlast⟩ := append_inj' heq rfl
      cases hlast
      have hparent := ih he' hpath
      exact hapart _ hd _ hd' _ (by rw [hp, hp', hparent]) hb hb'

/-- A path in other terms. -/
theorem PathOf.translate {γ : Type} {part' : RawDefinition → γ → Prop} {R : β → γ → Prop}
    (htranslate : ∀ d ∈ definitions, ∀ b, part d b → ∃ c, R b c ∧ part' d c)
    (h : PathOf definitions part d path) :
    ∃ path', List.Forall₂ R path path' ∧ PathOf definitions part' d path' := by
  induction h with
  | root hd hp hb =>
    obtain ⟨c, hR, hc⟩ := htranslate _ hd _ hb
    exact ⟨[] ++ [c], rel_append .nil (.cons hR .nil), .root hd hp hc⟩
  | child hd hp hb _ ih =>
    obtain ⟨c, hR, hc⟩ := htranslate _ hd _ hb
    obtain ⟨path', hpath, he⟩ := ih
    exact ⟨path' ++ [c], rel_append hpath (.cons hR .nil), .child hd hp hc he⟩

end Paths

/-- The key of a definition is its path. -/
theorem Numbered.pathOf (h : Numbered definitions state) {k : Nat} (hd : definitions[k]? = some d) :
    ∃ definition, state.definitions[k]? = some definition ∧
      PathOf definitions (fun d part => part = d.keyPart) d definition.key.parts := by
  induction k using Nat.strong_induction_on generalizing d with
  | h k ih =>
    have hmem := mem_of_getElem? hd
    obtain ⟨definition, hentry, -, -, -, parts, hparts, hkey⟩ := h.entries k d hd
    refine ⟨definition, hentry, ?_⟩
    rw [hkey]
    generalize definition.parent = parent at hparts
    cases hparts with
    | root hp => exact .root hmem hp rfl
    | child hlt he hp hparent =>
      obtain ⟨parent', hparent', hpath⟩ := ih _ hlt he
      cases hparent.symm.trans hparent'
      exact .child hmem hp rfl hpath

/-- Where siblings are told apart, the translated keys are distinct. -/
theorem Numbered.nodup_keys (h : Numbered definitions state) (hnodup : definitions.Nodup) {γ : Type}
    {R : DefinitionKeyPart → γ → Prop} (htotal : ∀ d ∈ definitions, ∃ c, R d.keyPart c)
    (hapart : ∀ d ∈ definitions, ∀ e ∈ definitions, ∀ c, d.parent = e.parent →
      R d.keyPart c → R e.keyPart c → d = e) :
    ∃ paths, List.Forall₂ (fun (definition : Definition) path =>
      List.Forall₂ R definition.key.parts path) state.definitions paths ∧ paths.Nodup := by
  have hpath : ∀ {k : Nat} {d : RawDefinition}, definitions[k]? = some d →
      ∃ definition path, state.definitions[k]? = some definition ∧
        List.Forall₂ R definition.key.parts path ∧
        PathOf definitions (fun d c => R d.keyPart c) d path := by
    intro k d hd
    obtain ⟨definition, hentry, hkey⟩ := h.pathOf hd
    obtain ⟨path, hR, hpath⟩ : ∃ path, List.Forall₂ R definition.key.parts path ∧
        PathOf definitions (fun d c => R d.keyPart c) d path :=
      hkey.translate fun d hd b hb => by
        obtain ⟨c, hc⟩ := htotal d hd
        exact ⟨c, hb ▸ hc, hc⟩
    exact ⟨definition, path, hentry, hR, hpath⟩
  obtain ⟨paths, hpaths⟩ := exists_forall₂ (l := definitions)
    (R := fun d path => PathOf definitions (fun d c => R d.keyPart c) d path ∧
      ∀ (k : Nat) definition, definitions[k]? = some d → state.definitions[k]? = some definition →
        List.Forall₂ R definition.key.parts path)
    fun d hd => by
      obtain ⟨k, hk⟩ := getElem?_of_mem hd
      obtain ⟨definition, path, hentry, hR, hpath⟩ := hpath hk
      refine ⟨path, hpath, fun k' definition' hk' hentry' => ?_⟩
      obtain rfl := (getElem?_inj (List.getElem?_eq_some_iff.mp hk).1 hnodup).mp (hk.trans hk'.symm)
      cases hentry.symm.trans hentry'
      exact hR
  refine ⟨paths, forall₂_iff_get.mpr ⟨h.length.trans hpaths.length_eq, fun k hk hk' => ?_⟩,
    nodup_iff_getElem?_ne_getElem?.mpr fun i j hij hj heq => ?_⟩
  · obtain ⟨d, hd, -, hR⟩ := getElem?_of_forall₂_right hpaths (getElem?_eq_getElem hk')
    exact hR k _ hd (getElem?_eq_getElem hk)
  · have hi := getElem?_eq_getElem (hij.trans hj)
    obtain ⟨d, hd, hdpath, -⟩ := getElem?_of_forall₂_right hpaths hi
    obtain ⟨e, he, hepath, -⟩ := getElem?_of_forall₂_right hpaths (heq ▸ hi)
    rw [hdpath.eq hapart hepath rfl] at hd
    exact absurd ((getElem?_inj (List.getElem?_eq_some_iff.mp hd).1 hnodup).mp
      (hd.trans he.symm)) hij.ne

/-! ## After an assignment of ordinals -/

@[simp] theorem DefinitionOrigin.key_withOrdinal (origin : DefinitionOrigin) (ordinal : Nat) :
    (origin.withOrdinal ordinal).key = origin.key := by
  cases origin <;> rfl

/-- The ordinals of a run that returns, by position. -/
structure Assigns (raw : List RawDefinition) (coordinates : Option SourceRewrite)
    (definitions : List RawDefinition) (ordinals : Nat → Nat) : Prop where
  eq : definitions = raw.mapIdx fun i d => d.withOrdinal (ordinals i)
  /-- Every origin can be mapped. -/
  origins : ∀ d ∈ raw, ∃ origin, identityOrigin coordinates d = .ok origin
  /-- The chains of parents end. -/
  chains : ∃ located private' identities, List.Forall₂ (fun d l => locate coordinates d = .ok l)
    raw located ∧ List.Forall₂ (IdentityOf located private') (List.range located.length) identities
  /-- Siblings of one origin, kind and name get different ordinals. -/
  apart : ∀ (i j : Nat) (d e : RawDefinition), raw[i]? = some d → raw[j]? = some e →
    d.parent = e.parent → identityOrigin coordinates d = identityOrigin coordinates e →
    d.kind = e.kind → d.name = e.name → ordinals i = ordinals j → i = j

theorem assigns_of_ok {expected : Option DefinitionIdentityUniverse}
    {given : DefinitionIdentityUniverse}
    (h : assignStructuralOrdinals raw coordinates expected = .ok (definitions, given)) :
    ∃ ordinals, Assigns raw coordinates definitions ordinals := by
  obtain ⟨located, identities, state, hids, hstate, rfl, -⟩ := assignStructuralOrdinals_ok h
  obtain ⟨ordinals, hmap, -, hpaths⟩ := structuralIdentities_ok hids
  have hlocated := mapM_ok hmap
  obtain ⟨keys, hkeys, -, hdistinct⟩ := publicOrdinals_ok hstate
  refine ⟨state.ordinals, rfl, fun d hd => ?_, ⟨located, ordinals, identities, hlocated, hpaths⟩,
    fun i j d e hd he hparent horigin hkind hname heq => ?_⟩
  · obtain ⟨k, hk⟩ := getElem?_of_mem hd
    obtain ⟨l, -, hl⟩ := getElem?_of_forall₂ hlocated hk
    exact ⟨_, (locate_ok hl).2⟩
  · obtain ⟨l, hl, hdl⟩ := getElem?_of_forall₂ hlocated hd
    obtain ⟨m, hm, hem⟩ := getElem?_of_forall₂ hlocated he
    obtain ⟨rfl, hlo⟩ := locate_ok hdl
    obtain ⟨rfl, hmo⟩ := locate_ok hem
    obtain ⟨key, hkey, hlkey⟩ := getElem?_of_forall₂ hkeys hl
    obtain ⟨key', hkey', hmkey⟩ := getElem?_of_forall₂ hkeys hm
    have hcohort : publicCohort located identities l = publicCohort located identities m := by
      have horigin' : l.origin = m.origin := by
        rw [hlo, hmo] at horigin
        exact Except.ok.inj horigin
      unfold publicCohort parentIdentity
      rw [hparent, horigin', hkind, hname]
    rw [hlkey, hmkey] at hcohort
    refine hdistinct i (List.getElem?_eq_some_iff.mp hl).1 j (List.getElem?_eq_some_iff.mp hm).1 ?_
      heq
    rw [hkey, hkey', Except.ok.inj hcohort]

namespace Assigns

variable {coordinates : Option SourceRewrite} {ordinals : Nat → Nat}
  (h : Assigns raw coordinates definitions ordinals)

include h

theorem mem_iff : d ∈ definitions ↔
    ∃ (i : Nat) (d₀ : RawDefinition), raw[i]? = some d₀ ∧ d = d₀.withOrdinal (ordinals i) := by
  rw [h.eq, mem_iff_getElem?]
  refine exists_congr fun i => ?_
  rw [getElem?_mapIdx, Option.map_eq_some_iff]
  exact exists_congr fun d₀ => and_congr_right fun _ => eq_comm

theorem compilerIds : definitions.map RawDefinition.compilerId =
    raw.map RawDefinition.compilerId := by
  rw [h.eq]
  apply ext_getElem?
  intro i
  rw [getElem?_map, getElem?_map, getElem?_mapIdx, Option.map_map]
  rfl

theorem distinct (hdistinct : DistinctCompilerIds raw) : DistinctCompilerIds definitions := by
  unfold DistinctCompilerIds at hdistinct ⊢
  rwa [h.compilerIds]

/-- Siblings with the same part in the coordinates of the original source are the same. -/
theorem eq_of_origin (hd : d ∈ definitions) (he : e ∈ definitions) (hparent : d.parent = e.parent)
    (horigin : identityOrigin coordinates d = identityOrigin coordinates e)
    (hkind : d.kind = e.kind) (hname : d.name = e.name)
    (hordinal : d.structuralOrdinal = e.structuralOrdinal) : d = e := by
  obtain ⟨i, d₀, hi, rfl⟩ := h.mem_iff.mp hd
  obtain ⟨j, e₀, hj, rfl⟩ := h.mem_iff.mp he
  have hsame : ∀ (d : RawDefinition) (ordinal : Nat),
      identityOrigin coordinates (d.withOrdinal ordinal) = identityOrigin coordinates d := by
    intro d ordinal
    unfold identityOrigin RawDefinition.withOrdinal
    dsimp only
    rw [DefinitionOrigin.key_withOrdinal]
  rw [hsame, hsame] at horigin
  obtain rfl := h.apart i j d₀ e₀ hi hj hparent horigin hkind hname hordinal
  rw [Option.some.inj (hi.symm.trans hj)]

end Assigns

/-- A definition with an identity has a chain of listed parents. -/
theorem Assigns.grounded {ordinals private' : Nat → Nat}
    (h : Assigns raw coordinates definitions ordinals) (hdistinct : DistinctCompilerIds definitions)
    {located : List LocatedDefinition}
    (hlocated : List.Forall₂ (fun d l => locate coordinates d = .ok l) raw located) {i : Nat}
    {key : DefinitionIdentityKey} (hkey : IdentityOf located private' i key)
    (hd : definitions[i]? = some d) :
    Grounded (parentOf definitions) definitions.toFinset d ∧
      ∀ p, d.parent = some p → ∃ e ∈ definitions, e.compilerId = p := by
  -- the definition at a position is the located one with its ordinal
  have hat : ∀ {i : Nat} {l : LocatedDefinition}, located[i]? = some l →
      definitions[i]? = some (l.definition.withOrdinal (ordinals i)) := by
    intro i l hl
    obtain ⟨d₀, hd₀, hloc⟩ := getElem?_of_forall₂_right hlocated hl
    rw [h.eq, getElem?_mapIdx, hd₀, (locate_ok hloc).1]
    rfl
  induction hkey generalizing d with
  | root hi hp =>
    cases (hat hi).symm.trans hd
    refine ⟨.root (mem_toFinset.mpr (mem_of_getElem? hd)) ?_, fun p hp' => ?_⟩
    · unfold parentOf RawDefinition.withOrdinal
      rw [hp]
      rfl
    · cases hp.symm.trans hp'
  | child hi hp hj hkey ih =>
    cases (hat hi).symm.trans hd
    obtain ⟨l, hl, hid⟩ := byCompilerId_some hj
    have he := hat hl
    have hparent := parentOf_eq_some hdistinct (mem_of_getElem? he) (hp.trans (congrArg some
      hid.symm) : (RawDefinition.withOrdinal _ _).parent = _)
    refine ⟨.child (mem_toFinset.mpr (mem_of_getElem? hd)) hparent (ih he).1,
      fun p hp' => ?_⟩
    cases hp.symm.trans hp'
    exact ⟨_, mem_of_getElem? he, hid⟩

/-- What an assignment returns can be keyed. -/
theorem Assigns.keyed {ordinals : Nat → Nat} (h : Assigns raw coordinates definitions ordinals)
    (hdistinct : DistinctCompilerIds raw)
    (hroot : ∀ d ∈ raw, d.compilerId = crateDefId → d.parent = none) : Keyed definitions := by
  have hids := h.distinct hdistinct
  obtain ⟨located, ordinals', identities, hlocated, hpaths⟩ := h.chains
  have hchain : ∀ d ∈ definitions, Grounded (parentOf definitions) definitions.toFinset d ∧
      ∀ p, d.parent = some p → ∃ e ∈ definitions, e.compilerId = p := by
    intro d hd
    obtain ⟨i, hi⟩ := getElem?_of_mem hd
    have hlt : i < located.length := by
      rw [← hlocated.length_eq, ← length_map (f := RawDefinition.compilerId),
        ← h.compilerIds, length_map]
      exact (List.getElem?_eq_some_iff.mp hi).1
    obtain ⟨key, -, hkey⟩ := getElem?_identities hpaths hlt
    exact h.grounded hids hlocated hkey hi
  refine ⟨hids, fun d hd hid => ?_, fun d hd => (hchain d hd).2, fun d hd => (hchain d hd).1,
    fun d hd e he hparent hpart => ?_⟩
  · obtain ⟨i, d₀, hi, rfl⟩ := h.mem_iff.mp hd
    exact hroot d₀ (mem_of_getElem? hi) hid
  · obtain ⟨hkind, horigin, hname, hordinal⟩ := DefinitionKeyPart.mk.inj hpart
    refine h.eq_of_origin hd he hparent ?_ hkind hname hordinal
    unfold identityOrigin
    rw [horigin, hkind]

/-! ## In the coordinates of the original source -/

theorem invalidSource_ok {α : Type} {x : Except SourceRewriteError α} {a : α} :
    invalidSource x = .ok a ↔ x = .ok a := by
  cases x with
  | ok => exact ⟨fun h => congrArg _ (Except.ok.inj h), fun h => congrArg _ (Except.ok.inj h)⟩
  | error => exact ⟨(fun h => by cases h), (fun h => by cases h)⟩

theorem invalidSource_map {α β : Type} (x : Except SourceRewriteError α) (f : α → β) :
    (invalidSource x >>= fun a => pure (f a)) = invalidSource (x >>= fun a => pure (f a)) := by
  cases x <;> rfl

/-- Keys are mapped as the identities are. -/
theorem identityOrigin_some (coordinates : SourceRewrite) (d : RawDefinition) :
    identityOrigin (some coordinates) d =
      invalidSource (normalizeKeyOrigin coordinates d.kind d.origin.key) := by
  unfold identityOrigin
  dsimp only
  cases d.origin.key with
  | written anchor unitKind =>
    exact invalidSource_map (normalizeAnchor coordinates d.kind anchor)
      (DefinitionOriginKey.written · unitKind)
  | expanded invocationRange role =>
    exact invalidSource_map (coordinates.originalRange invocationRange)
      (DefinitionOriginKey.expanded · role)
  | compilerGenerated role => rfl
  | injected role => rfl

theorem normalizeKeyPart_ok {coordinates : SourceRewrite} {part part' : DefinitionKeyPart} :
    normalizeKeyPart coordinates part = .ok part' ↔
      normalizeKeyOrigin coordinates part.kind part.origin = .ok part'.origin ∧
        part'.kind = part.kind ∧ part'.name = part.name ∧
        part'.sameRoleOrdinal = part.sameRoleOrdinal := by
  unfold normalizeKeyPart
  constructor
  · intro h
    obtain ⟨origin, horigin, h⟩ := bind_ok h
    cases h
    exact ⟨horigin, rfl, rfl, rfl⟩
  · rintro ⟨horigin, hkind, hname, hordinal⟩
    rw [horigin]
    obtain ⟨kind, origin, name, ordinal⟩ := part'
    cases hkind
    cases hname
    cases hordinal
    rfl

/-- The keys of canonical definitions can be mapped to the original source, and stay distinct. -/
theorem Assigns.normalizedKeys {coordinates : SourceRewrite} {ordinals : Nat → Nat}
    (h : Assigns raw (some coordinates) definitions ordinals) {order : List RawDefinition}
    (hperm : order.Perm definitions) (hnodup : order.Nodup) (hnumbered : Numbered order state) :
    ∃ keys, (state.definitions.map Definition.key).mapM (normalizeDefinitionKey coordinates) =
      .ok keys ∧ keys.Nodup := by
  obtain ⟨paths, hpaths, hdistinct⟩ := hnumbered.nodup_keys hnodup
    (R := fun part part' => normalizeKeyPart coordinates part = .ok part')
    (fun d hd => by
      obtain ⟨i, d₀, hi, heq⟩ := h.mem_iff.mp (hperm.mem_iff.mp hd)
      obtain ⟨origin, horigin⟩ := h.origins d₀ (mem_of_getElem? hi)
      rw [identityOrigin_some, invalidSource_ok] at horigin
      refine ⟨{ d.keyPart with origin := origin }, normalizeKeyPart_ok.mpr ⟨?_, rfl, rfl, rfl⟩⟩
      rw [heq]
      unfold RawDefinition.keyPart RawDefinition.withOrdinal
      dsimp only
      rw [DefinitionOrigin.key_withOrdinal]
      exact horigin)
    fun d hd e he part hparent hd' he' => by
      obtain ⟨horigin, hkind, hname, hordinal⟩ := normalizeKeyPart_ok.mp hd'
      obtain ⟨horigin', hkind', hname', hordinal'⟩ := normalizeKeyPart_ok.mp he'
      refine h.eq_of_origin (hperm.mem_iff.mp hd) (hperm.mem_iff.mp he) hparent ?_
        (hkind.symm.trans hkind') (hname.symm.trans hname') (hordinal.symm.trans hordinal')
      rw [identityOrigin_some, identityOrigin_some]
      exact congrArg _ (horigin.trans horigin'.symm)
  refine ⟨paths.map DefinitionKey.mk, mapM_total ?_, hdistinct.map fun _ _ heq => ?_⟩
  · rw [forall₂_map_left_iff, forall₂_map_right_iff]
    refine hpaths.imp fun definition path hpath => ?_
    unfold normalizeDefinitionKey
    rw [mapM_total hpath]
    rfl
  · exact (DefinitionKey.mk.inj heq)

/-- The keys of canonical definitions are distinct. -/
theorem Keyed.nodup_keys (h : Keyed definitions) {order : List RawDefinition}
    (hperm : order.Perm definitions) (hnodup : order.Nodup) (hnumbered : Numbered order state) :
    (state.definitions.map Definition.key).Nodup := by
  obtain ⟨paths, hpaths, hdistinct⟩ := hnumbered.nodup_keys hnodup (R := Eq)
    (fun d _ => ⟨d.keyPart, rfl⟩) fun d hd e he part hparent hd' he' =>
      h.apart d (hperm.mem_iff.mp hd) e (hperm.mem_iff.mp he) hparent (hd'.trans he'.symm)
  have heq : state.definitions.map (fun definition => definition.key.parts) = paths := by
    have hmap : List.Forall₂ Eq
        (state.definitions.map fun definition => definition.key.parts) paths :=
      forall₂_map_left_iff.mpr (hpaths.imp fun _ _ h => by rwa [forall₂_eq_eq_eq] at h)
    rwa [forall₂_eq_eq_eq] at hmap
  rw [← heq] at hdistinct
  exact List.Nodup.of_map DefinitionKey.parts (by rwa [map_map])

end ItemDependencies
