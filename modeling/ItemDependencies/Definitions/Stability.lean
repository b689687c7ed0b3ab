import ItemDependencies.Definitions.IdentityPath
import ItemDependencies.Definitions.PublicOrdinals

/-!
# Identities are stable across a reduction

A second list restates some definitions of a first one: a set that is closed
under parents and takes each product cohort whole, in any order, with other
compiler ids, and with ranges that the rewrite maps back to the original ones.
Private ranks only count the members of a cohort, so they are the same in both
lists; with them the identities along the parents are the same; and with the
identities the ordinals that are looked up in the universe of the first run.
-/

namespace ItemDependencies

open Library List

/-! ## Restated definitions -/

/-- An origin of the reduced program and the origin that it is mapped back to.  Dense numbers
may differ. -/
def OriginMapsBack (coordinates : SourceRewrite) (kind : DefinitionKind) :
    DefinitionOrigin → DefinitionOrigin → Prop
  | .written _ _ anchor unitKind _, .written _ _ reduced reducedKind _ =>
    reducedKind = unitKind ∧
      (if kind = .crateRoot then coordinates.originalCrateRange reduced
        else coordinates.originalRange reduced) = .ok anchor
  | .expanded _ invocationRange role _, .expanded _ reduced reducedRole _ =>
    reducedRole = role ∧ coordinates.originalRange reduced = .ok invocationRange
  | .compilerGenerated role _, .compilerGenerated reducedRole _ => reducedRole = role
  | .injected role _, .injected reducedRole _ => reducedRole = role
  | _, _ => False

def BasisMapsBack (coordinates : SourceRewrite) :
    Option (List MacroProductSource) → Option (List MacroProductSource) → Prop
  | none, none => True
  | some basis, some reduced => List.Forall₂ (fun source reduced =>
      reduced.kind = source.kind ∧ coordinates.originalRange reduced.range = .ok source.range)
      basis reduced
  | _, _ => False

/-- `reduced` is the definition `d` after a rewrite. -/
structure RestatesDefinition (coordinates : SourceRewrite) (rename : Nat → Nat)
    (d reduced : RawDefinition) : Prop where
  compilerId : reduced.compilerId = rename d.compilerId
  parent : reduced.parent = d.parent.map rename
  kind : reduced.kind = d.kind
  name : reduced.name = d.name
  origin : OriginMapsBack coordinates d.kind d.origin reduced.origin
  basis : BasisMapsBack coordinates d.productBasis reduced.productBasis

/-- Two definitions of one product cohort. -/
def SameProduct (d e : RawDefinition) : Prop :=
  d.parent = e.parent ∧ d.origin.key = e.origin.key ∧ d.productBasis = e.productBasis ∧
    d.kind = e.kind ∧ d.name = e.name

/-- The second list restates the definitions of the first one at the positions `sources`. -/
structure Restates (coordinates : SourceRewrite) (rename : Nat → Nat)
    (first : List RawDefinition) (sources : List Nat) (second : List RawDefinition) : Prop where
  nodup : sources.Nodup
  definitions : List.Forall₂ (fun i reduced =>
    ∃ d, first[i]? = some d ∧ RestatesDefinition coordinates rename d reduced) sources second
  parentClosed : ∀ i ∈ sources, ∀ (j : Nat) (d e : RawDefinition), first[i]? = some d →
    first[j]? = some e → d.parent = some e.compilerId → j ∈ sources
  cohortsWhole : ∀ i ∈ sources, ∀ (j : Nat) (d e : RawDefinition), first[i]? = some d →
    first[j]? = some e → SameProduct d e → j ∈ sources
  renameInjective : ∀ i ∈ sources, ∀ j ∈ sources, ∀ d e : RawDefinition, first[i]? = some d →
    first[j]? = some e → rename d.compilerId = rename e.compilerId → d.compilerId = e.compilerId
  cohortOrder : ∀ (k l i j : Nat) (d e d' e' : RawDefinition), sources[k]? = some i →
    sources[l]? = some j → first[i]? = some d → first[j]? = some e → second[k]? = some d' →
    second[l]? = some e' → SameProduct d e →
    (d'.structuralOrdinal < e'.structuralOrdinal ↔ d.structuralOrdinal < e.structuralOrdinal)

/-- No compiler id is listed twice. -/
def DistinctCompilerIds (definitions : List RawDefinition) : Prop :=
  (definitions.map RawDefinition.compilerId).Nodup

instance (definitions : List RawDefinition) : Decidable (DistinctCompilerIds definitions) :=
  inferInstanceAs (Decidable (definitions.map RawDefinition.compilerId).Nodup)

/-! ## Located definitions -/

variable {l : LocatedDefinition} {coordinates : SourceRewrite} {d reduced : RawDefinition}

theorem locate_none_ok {d : RawDefinition} (h : locate none d = .ok l) :
    l = { definition := d, origin := d.origin.key, basis := d.productBasis } ∧
      d.productBasis.any (fun basis => !validProductBasis basis) = false := by
  obtain ⟨origin, ho, h⟩ := bind_ok h
  obtain ⟨basis, hb, h⟩ := bind_ok h
  obtain ⟨hvalid, h⟩ := guard_ok h
  cases ho
  cases hb
  cases h
  exact ⟨rfl, Bool.not_eq_true _ ▸ hvalid⟩

theorem locate_ok {coordinates : Option SourceRewrite} {d : RawDefinition}
    (h : locate coordinates d = .ok l) :
    l.definition = d ∧ identityOrigin coordinates d = .ok l.origin := by
  obtain ⟨origin, horigin, h⟩ := bind_ok h
  obtain ⟨basis, -, h⟩ := bind_ok h
  obtain ⟨-, h⟩ := guard_ok h
  cases h
  exact ⟨rfl, horigin⟩

section Located

variable {coordinates : Option SourceRewrite} {raw : List RawDefinition}
  {located : List LocatedDefinition}
  (hlocated : List.Forall₂ (fun d l => locate coordinates d = .ok l) raw located)

include hlocated

theorem definition_of_located {i : Nat} (hl : located[i]? = some l) :
    raw[i]? = some l.definition := by
  obtain ⟨d, hd, hdl⟩ := getElem?_of_forall₂_right hlocated hl
  rw [(locate_ok hdl).1]
  exact hd

theorem distinct_of_located (hdistinct : DistinctCompilerIds raw) (i j : Nat)
    (l l' : LocatedDefinition) (hl : located[i]? = some l) (hl' : located[j]? = some l')
    (heq : l.definition.compilerId = l'.definition.compilerId) : i = j := by
  have hi : (raw.map RawDefinition.compilerId)[i]? = some l.definition.compilerId := by
    rw [getElem?_map, definition_of_located hlocated hl, Option.map_some]
  have hj : (raw.map RawDefinition.compilerId)[j]? = some l.definition.compilerId := by
    rw [getElem?_map, definition_of_located hlocated hl', Option.map_some, heq]
  exact (getElem?_inj (List.getElem?_eq_some_iff.mp hi).1 hdistinct).mp (hi.trans hj.symm)

end Located

theorem identityOrigin_mapsBack (hkind : reduced.kind = d.kind)
    (h : OriginMapsBack coordinates d.kind d.origin reduced.origin) :
    identityOrigin (some coordinates) reduced = .ok d.origin.key := by
  rw [identityOrigin, hkind]
  revert h
  cases d.origin <;> cases reduced.origin <;>
    simp only [OriginMapsBack, false_imp_iff, DefinitionOrigin.key, normalizeIdentityOrigin]
  case written.written =>
    rintro ⟨rfl, h⟩
    rw [h]
    rfl
  case expanded.expanded =>
    rintro ⟨rfl, h⟩
    rw [h]
    rfl
  case compilerGenerated.compilerGenerated =>
    rintro rfl
    rfl
  case injected.injected =>
    rintro rfl
    rfl

theorem identityBasis_mapsBack (h : BasisMapsBack coordinates d.productBasis reduced.productBasis) :
    identityBasis (some coordinates) reduced = .ok d.productBasis := by
  unfold identityBasis
  cases hd : d.productBasis with
  | none =>
    cases hr : reduced.productBasis with
    | none => rfl
    | some reduced => simp only [hd, hr, BasisMapsBack] at h
  | some basis =>
    cases hr : reduced.productBasis with
    | none => simp only [hd, hr, BasisMapsBack] at h
    | some reduced =>
      simp only [hd, hr, BasisMapsBack] at h
      have hmap : reduced.mapM (normalizeProductSource coordinates) = .ok basis := by
        refine mapM_total (h.flip.imp fun r s ⟨hk, hr⟩ => ?_)
        rw [normalizeProductSource, hr, hk]
        rfl
      simp only [hmap]
      rfl

/-- A restated definition is located where the original one is. -/
theorem locate_restates {rename : Nat → Nat} (hr : RestatesDefinition coordinates rename d reduced)
    (h : locate none d = .ok l) :
    locate (some coordinates) reduced =
      .ok { definition := reduced, origin := l.origin, basis := l.basis } := by
  obtain ⟨rfl, hvalid⟩ := locate_none_ok h
  rw [locate, identityOrigin_mapsBack hr.kind hr.origin, identityBasis_mapsBack hr.basis]
  exact if_neg (by rw [hvalid]; exact Bool.false_ne_true)

/-- Where compiler ids are distinct, an id is looked up at its only position. -/
theorem byCompilerId_eq_some {definitions : List LocatedDefinition}
    (hd : ∀ (i j : Nat) (l l' : LocatedDefinition), definitions[i]? = some l →
      definitions[j]? = some l' → l.definition.compilerId = l'.definition.compilerId → i = j)
    {id j : Nat} (hj : definitions[j]? = some l) (hid : l.definition.compilerId = id) :
    byCompilerId definitions id = some j := by
  rw [byCompilerId]
  cases hfind : (List.range definitions.length).reverse.find? fun i =>
      definitions[i]?.any fun located => located.definition.compilerId == id with
  | none =>
    have := find?_eq_none.mp hfind j (by simpa using (List.getElem?_eq_some_iff.mp hj).1)
    simp [hj, hid] at this
  | some i =>
    have hi := find?_some hfind
    cases hl : definitions[i]? with
    | none => simp [hl] at hi
    | some l' =>
      simp only [hl, Option.any_some, beq_iff_eq] at hi
      rw [hd i j l' l hl hj (hi.trans hid.symm)]

theorem byCompilerId_some {definitions : List LocatedDefinition} {id j : Nat}
    (h : byCompilerId definitions id = some j) :
    ∃ l, definitions[j]? = some l ∧ l.definition.compilerId = id := by
  have hj := find?_some h
  cases hl : definitions[j]? with
  | none => simp [hl] at hj
  | some l => exact ⟨l, rfl, by simpa [hl] using hj⟩

/-! ## Corresponding lists -/

/-- `reduced` is where `l` is, up to the compiler ids. -/
structure LocatedAt (rename : Nat → Nat) (l reduced : LocatedDefinition) : Prop where
  origin : reduced.origin = l.origin
  basis : reduced.basis = l.basis
  kind : reduced.definition.kind = l.definition.kind
  name : reduced.definition.name = l.definition.name
  compilerId : reduced.definition.compilerId = rename l.definition.compilerId
  parent : reduced.definition.parent = l.definition.parent.map rename

/-- The located lists of the two runs.  Each position of the second has a source in the first. -/
structure Corresponds (rename : Nat → Nat) (first : List LocatedDefinition) (sources : List Nat)
    (second : List LocatedDefinition) : Prop where
  nodup : sources.Nodup
  located : List.Forall₂ (fun i reduced =>
    ∃ l, first[i]? = some l ∧ LocatedAt rename l reduced) sources second
  distinctIds : ∀ (i j : Nat) (l l' : LocatedDefinition), first[i]? = some l →
    first[j]? = some l' → l.definition.compilerId = l'.definition.compilerId → i = j
  parentListed : ∀ i ∈ sources, ∀ (l : LocatedDefinition) (parent : Nat), first[i]? = some l →
    l.definition.parent = some parent →
    ∃ j ∈ sources, ∃ l', first[j]? = some l' ∧ l'.definition.compilerId = parent
  whole : ∀ i ∈ sources, ∀ j, cohortKey first j = cohortKey first i → j ∈ sources
  renameInjective : ∀ i ∈ sources, ∀ j ∈ sources, ∀ l l' : LocatedDefinition,
    first[i]? = some l → first[j]? = some l' →
    rename l.definition.compilerId = rename l'.definition.compilerId →
    l.definition.compilerId = l'.definition.compilerId
  cohortOrder : ∀ k l i j : Nat, sources[k]? = some i → sources[l]? = some j →
    cohortKey first i = cohortKey first j →
    (compilerOrdinal second k < compilerOrdinal second l ↔
      compilerOrdinal first i < compilerOrdinal first j)

namespace Corresponds

variable {rename : Nat → Nat} {first second : List LocatedDefinition} {sources : List Nat}
  {k i : Nat}

theorem lt_length (h : Corresponds rename first sources second) {i : Nat} (hi : i ∈ sources) :
    i < first.length := by
  obtain ⟨k, hk⟩ := mem_iff_getElem?.mp hi
  obtain ⟨_, -, l, hl, -⟩ := getElem?_of_forall₂ h.located hk
  exact (List.getElem?_eq_some_iff.mp hl).1

theorem at_source (h : Corresponds rename first sources second) (hk : sources[k]? = some i) :
    ∃ l reduced, first[i]? = some l ∧ second[k]? = some reduced ∧ LocatedAt rename l reduced := by
  obtain ⟨reduced, hred, l, hl, hat⟩ := getElem?_of_forall₂ h.located hk
  exact ⟨l, reduced, hl, hred, hat⟩

theorem source_of_lt (h : Corresponds rename first sources second) {k : Nat}
    (hk : k < second.length) : ∃ i, sources[k]? = some i :=
  ⟨_, getElem?_eq_getElem (h.located.length_eq ▸ hk)⟩

theorem lt_of_source (h : Corresponds rename first sources second) (hk : sources[k]? = some i) :
    k < second.length :=
  h.located.length_eq ▸ (List.getElem?_eq_some_iff.mp hk).1

theorem source_injective (h : Corresponds rename first sources second) {k l i : Nat}
    (hk : sources[k]? = some i) (hl : sources[l]? = some i) : k = l :=
  (getElem?_inj (List.getElem?_eq_some_iff.mp hk).1 h.nodup).mp (hk.trans hl.symm)

/-- Renaming tells the parents apart. -/
theorem parent_iff (h : Corresponds rename first sources second) {i j : Nat}
    {l l' : LocatedDefinition} (hi : i ∈ sources) (hj : j ∈ sources) (hl : first[i]? = some l)
    (hl' : first[j]? = some l') :
    l.definition.parent.map rename = l'.definition.parent.map rename ↔
      l.definition.parent = l'.definition.parent := by
  constructor
  · intro heq
    cases hp : l.definition.parent with
    | none => cases hp' : l'.definition.parent <;> simp [hp, hp'] at heq ⊢
    | some p =>
      cases hp' : l'.definition.parent with
      | none => simp [hp, hp'] at heq
      | some p' =>
        simp only [hp, hp', Option.map_some, Option.some.injEq] at heq
        obtain ⟨a, ha, la, hla, rfl⟩ := h.parentListed i hi l p hl hp
        obtain ⟨b, hb, lb, hlb, rfl⟩ := h.parentListed j hj l' p' hl' hp'
        rw [h.renameInjective a ha b hb la lb hla hlb heq]
  · intro heq
    rw [heq]

/-- The cohorts of the second list are those of the first. -/
theorem cohortKey_iff (h : Corresponds rename first sources second) {k l i j : Nat}
    (hk : sources[k]? = some i) (hl : sources[l]? = some j) :
    cohortKey second k = cohortKey second l ↔ cohortKey first i = cohortKey first j := by
  obtain ⟨a, a', ha, ha', hat⟩ := h.at_source hk
  obtain ⟨b, b', hb, hb', hbt⟩ := h.at_source hl
  have hparent := h.parent_iff (mem_of_getElem? hk) (mem_of_getElem? hl) ha hb
  simp only [cohortKey, ha, ha', hb, hb', Option.map_some, Option.some.injEq,
    LocatedDefinition.cohort, Cohort.mk.injEq, hat.origin, hat.basis, hat.kind, hat.name,
    hat.parent, hbt.origin, hbt.basis, hbt.kind, hbt.name, hbt.parent, hparent]

/-- The positions with a key are those of the sources with the key. -/
theorem perm_members (h : Corresponds rename first sources second) {κ : Type} [DecidableEq κ]
    {key key' : Nat → κ}
    (hkey : ∀ l j : Nat, sources[l]? = some j → (key' l = key' k ↔ key j = key i))
    (hwhole : ∀ j < first.length, key j = key i → j ∈ sources) :
    (((List.range second.length).filter fun l => key' l = key' k).map
      fun l => (sources[l]?).getD 0).Perm
        ((List.range first.length).filter fun j => key j = key i) := by
  have hsource : ∀ {l : Nat}, l ∈ (List.range second.length).filter (fun l => key' l = key' k) →
      ∃ j, sources[l]? = some j ∧ key j = key i := by
    intro l hl
    obtain ⟨hlt, hsame⟩ := mem_filter.mp hl
    obtain ⟨j, hj⟩ := h.source_of_lt (mem_range.mp hlt)
    exact ⟨j, hj, (hkey l j hj).mp (of_decide_eq_true hsame)⟩
  refine (perm_ext_iff_of_nodup ?_ (nodup_range.filter _)).mpr fun j => ?_
  · refine List.Nodup.map_on (fun l hl l' hl' heq => ?_) (nodup_range.filter _)
    obtain ⟨j, hj, -⟩ := hsource hl
    obtain ⟨j', hj', -⟩ := hsource hl'
    simp only [hj, hj', Option.getD_some] at heq
    exact h.source_injective hj (heq ▸ hj')
  · rw [mem_map, mem_filter, mem_range, decide_eq_true_iff]
    constructor
    · rintro ⟨l, hl, rfl⟩
      obtain ⟨j, hj, hsame⟩ := hsource hl
      simp only [hj, Option.getD_some]
      exact ⟨h.lt_length (mem_of_getElem? hj), hsame⟩
    · rintro ⟨hlt, hsame⟩
      obtain ⟨l, hl⟩ := mem_iff_getElem?.mp (hwhole j hlt hsame)
      refine ⟨l, mem_filter.mpr ⟨mem_range.mpr (h.lt_of_source hl), ?_⟩,
        by simp only [hl, Option.getD_some]⟩
      exact decide_eq_true ((hkey l j hl).mpr hsame)

/-- A position has the rank of its source. -/
theorem rankIn_members (h : Corresponds rename first sources second) {κ : Type} [DecidableEq κ]
    {key key' : Nat → κ} {ordinal ordinal' : Nat → Nat} (hk : sources[k]? = some i)
    (hkey : ∀ l j : Nat, sources[l]? = some j → (key' l = key' k ↔ key j = key i))
    (hwhole : ∀ j < first.length, key j = key i → j ∈ sources)
    (horder : ∀ l j : Nat, sources[l]? = some j → key j = key i →
      (ordinal' l < ordinal' k ↔ ordinal j < ordinal i)) :
    rankIn ordinal' ((List.range second.length).filter fun l => key' l = key' k) k =
      rankIn ordinal ((List.range first.length).filter fun j => key j = key i) i := by
  rw [← rankIn_perm (h.perm_members hkey hwhole)]
  have hi : (sources[k]?).getD 0 = i := by rw [hk, Option.getD_some]
  conv_rhs => rw [← hi]
  refine (rankIn_map (fun l => (sources[l]?).getD 0) fun l hl => ?_).symm
  obtain ⟨hlt, hsame⟩ := mem_filter.mp hl
  obtain ⟨j, hj⟩ := h.source_of_lt (mem_range.mp hlt)
  simp only [hj, hk, Option.getD_some]
  exact (horder l j hj ((hkey l j hj).mp (of_decide_eq_true hsame))).symm

theorem perm_cohortMembers (h : Corresponds rename first sources second)
    (hk : sources[k]? = some i) :
    ((cohortMembers second k).map fun l => (sources[l]?).getD 0).Perm (cohortMembers first i) :=
  h.perm_members (fun _ _ hl => h.cohortKey_iff hl hk) fun j _ =>
    h.whole i (mem_of_getElem? hk) j

/-- A definition has the same rank in both lists. -/
theorem rankIn_eq (h : Corresponds rename first sources second) (hk : sources[k]? = some i) :
    rankIn (compilerOrdinal second) (cohortMembers second k) k =
      rankIn (compilerOrdinal first) (cohortMembers first i) i :=
  h.rankIn_members hk (fun _ _ hl => h.cohortKey_iff hl hk)
    (fun j _ => h.whole i (mem_of_getElem? hk) j)
    fun l j hj hsame => h.cohortOrder l k j i hj hk hsame

theorem cohortsRanked (h : Corresponds rename first sources second)
    (hfirst : CohortsRanked first) : CohortsRanked second where
  distinct k hk l hl hkey heq := by
    obtain ⟨i, hi⟩ := h.source_of_lt hk
    obtain ⟨j, hj⟩ := h.source_of_lt hl
    have hkey := (h.cohortKey_iff hi hj).mp hkey
    have hlt := h.cohortOrder k l i j hi hj hkey
    have hgt := h.cohortOrder l k j i hj hi hkey.symm
    obtain rfl := hfirst.distinct i (h.lt_length (mem_of_getElem? hi)) j
      (h.lt_length (mem_of_getElem? hj)) hkey (by omega)
    exact h.source_injective hi hj
  small k hk := by
    obtain ⟨i, hi⟩ := h.source_of_lt hk
    have hlen := (h.perm_cohortMembers hi).length_eq
    rw [length_map] at hlen
    rw [hlen]
    exact hfirst.small i (h.lt_length (mem_of_getElem? hi))

/-- The renamed parent is found at the position of the parent. -/
theorem byCompilerId_rename (h : Corresponds rename first sources second)
    (hk : sources[k]? = some i) (hl : first[i]? = some l) :
    byCompilerId second (rename l.definition.compilerId) = some k := by
  obtain ⟨l', reduced, hl', hred, hat⟩ := h.at_source hk
  obtain rfl := Option.some.inj (hl.symm.trans hl')
  refine byCompilerId_eq_some (fun a b d d' hd hd' heq => ?_) hred hat.compilerId
  obtain ⟨i', hi', e, he, hate⟩ := getElem?_of_forall₂_right h.located hd
  obtain ⟨j', hj', e', he', hate'⟩ := getElem?_of_forall₂_right h.located hd'
  rw [hate.compilerId, hate'.compilerId] at heq
  obtain rfl := h.distinctIds i' j' e e' he he' (h.renameInjective i'
    (mem_of_getElem? hi') j' (mem_of_getElem? hj') e e' he he' heq)
  exact h.source_injective hi' hj'

/-- With the same private ordinals a definition has the same identity in both lists. -/
theorem identityOf (h : Corresponds rename first sources second) {ordinals reduced : Nat → Nat}
    (hord : ∀ k i, sources[k]? = some i → reduced k = ordinals i) {i : Nat}
    {key : DefinitionIdentityKey} (hkey : IdentityOf first ordinals i key) {k : Nat}
    (hk : sources[k]? = some i) : IdentityOf second reduced k key := by
  have hpart : ∀ {k i : Nat} {l l' : LocatedDefinition}, sources[k]? = some i →
      LocatedAt rename l l' → l.identityPart (ordinals i) = l'.identityPart (reduced k) := by
    intro k i l l' hk hat
    simp only [LocatedDefinition.identityPart, hat.kind, hat.origin, hat.basis, hat.name,
      hord k i hk]
  induction hkey generalizing k with
  | @root i l hi hp =>
    obtain ⟨l', l₂, hl', hl₂, hat⟩ := h.at_source hk
    obtain rfl := Option.some.inj (hi.symm.trans hl')
    rw [hpart hk hat]
    exact .root hl₂ (by rw [hat.parent, hp]; rfl)
  | @child i j l parent key hi hp hj _ ih =>
    obtain ⟨l', l₂, hl', hl₂, hat⟩ := h.at_source hk
    obtain rfl := Option.some.inj (hi.symm.trans hl')
    obtain ⟨j', hj', lp, hlp, rfl⟩ := h.parentListed i (mem_of_getElem? hk) l parent hi hp
    -- the parent that is looked up is the one that is listed
    obtain ⟨lj, hlj, hid⟩ := byCompilerId_some hj
    obtain rfl := h.distinctIds j j' lj lp hlj hlp hid
    obtain ⟨m, hm⟩ := mem_iff_getElem?.mp hj'
    rw [hpart hk hat]
    exact .child hl₂ (by rw [hat.parent, hp]; rfl) (h.byCompilerId_rename hm hlp) (ih hm)

end Corresponds

end ItemDependencies
