import ItemDependencies.Definitions.CanonicalKeys

/-!
# Canonical definitions do not depend on the compiler's numbers

Siblings are ordered by their keys, which are distinct.  So another order of the list and other
compiler ids give the same walk, up to the names, and the walk gives the same definitions.
-/

namespace ItemDependencies

open Library List Function

variable {definitions definitions' : List RawDefinition} {d e : RawDefinition} {rename : Nat → Nat}

/-- The definition with other compiler ids. -/
def RawDefinition.renumber (rename : Nat → Nat) (d : RawDefinition) : RawDefinition :=
  { d with compilerId := rename d.compilerId, parent := d.parent.map rename }

/-! ## Sibling keys are distinct -/

theorem WrittenUnitKind.ctorIdx_injective : Function.Injective WrittenUnitKind.ctorIdx :=
  fun a b h => by rw [← WrittenUnitKind.ofNat_ctorIdx a, h, WrittenUnitKind.ofNat_ctorIdx]

theorem GeneratedRole.ctorIdx_injective : Function.Injective GeneratedRole.ctorIdx :=
  fun a b h => by rw [← GeneratedRole.ofNat_ctorIdx a, h, GeneratedRole.ofNat_ctorIdx]

theorem InjectedRole.ctorIdx_injective : Function.Injective InjectedRole.ctorIdx :=
  fun a b h => by rw [← InjectedRole.ofNat_ctorIdx a, h, InjectedRole.ofNat_ctorIdx]

theorem DefinitionKind.ctorIdx_injective : Function.Injective DefinitionKind.ctorIdx :=
  fun a b h => by rw [← DefinitionKind.ofNat_ctorIdx a, h, DefinitionKind.ofNat_ctorIdx]

theorem generatedRole_rank_injective :
    Function.Injective fun generatedRole : Option GeneratedRole =>
    generatedRole.elim 0 fun role => role.ctorIdx + 1 := by
  intro a b h
  cases a with
  | none =>
    cases b with
    | none => rfl
    | some b => cases h
  | some a =>
    cases b with
    | none => cases h
    | some b => exact congrArg some (GeneratedRole.ctorIdx_injective (Nat.succ.inj h))

theorem DefinitionOrigin.rank_injective : Function.Injective DefinitionOrigin.rank := by
  intro a b h
  cases a with
  | written unit unitRange anchor unitKind unitOrdinal =>
    cases b with
    | written unit' unitRange' anchor' unitKind' unitOrdinal' =>
      simp only [rank, List.cons.injEq, and_true, true_and] at h
      obtain ⟨hunit, hstart, hstop, hstart', hstop', hkind, rfl⟩ := h
      rw [ByteRange.eq_of_bounds hstart hstop, ByteRange.eq_of_bounds hstart' hstop',
        WrittenUnitKind.ctorIdx_injective hkind]
      cases unit
      cases unit'
      cases hunit
      rfl
    | _ => cases h
  | expanded invocation invocationRange generatedRole ordinal =>
    cases b with
    | expanded invocation' invocationRange' generatedRole' ordinal' =>
      simp only [rank, List.cons.injEq, and_true, true_and] at h
      obtain ⟨hunit, hstart, hstop, hrole, rfl⟩ := h
      rw [ByteRange.eq_of_bounds hstart hstop, generatedRole_rank_injective hrole]
      cases invocation
      cases invocation'
      cases hunit
      rfl
    | _ => cases h
  | compilerGenerated role ordinal =>
    cases b with
    | compilerGenerated role' ordinal' =>
      simp only [rank, List.cons.injEq, and_true, true_and] at h
      rw [GeneratedRole.ctorIdx_injective h.1, h.2]
    | _ => cases h
  | injected role ordinal =>
    cases b with
    | injected role' ordinal' =>
      simp only [rank, List.cons.injEq, and_true, true_and] at h
      rw [InjectedRole.ctorIdx_injective h.1, h.2]
    | _ => cases h

theorem RawDefinition.keyPart_of_siblingKey (h : d.siblingKey = e.siblingKey) :
    d.keyPart = e.keyPart := by
  obtain ⟨horigin, h⟩ := Prod.mk.inj h
  obtain ⟨hkind, h⟩ := Prod.mk.inj h
  obtain ⟨hname, hordinal⟩ := Prod.mk.inj h
  have hname' : d.name = e.name := hname
  have hordinal' : d.structuralOrdinal = e.structuralOrdinal := hordinal
  unfold keyPart
  rw [DefinitionOrigin.rank_injective horigin, DefinitionKind.ctorIdx_injective hkind, hname',
    hordinal']

/-! ## The same tree -/

theorem perm_definitionChildren (hf : Function.Injective rename)
    (hperm : definitions'.Perm (definitions.map (RawDefinition.renumber rename))) (id : Nat) :
    (definitionChildren definitions' (rename id)).Perm
      ((definitionChildren definitions id).map (RawDefinition.renumber rename)) := by
  unfold definitionChildren
  refine (perm_insertionSort _ _).trans ((hperm.filter _).trans ?_)
  rw [filter_map]
  refine List.Perm.trans (List.Perm.of_eq ?_) ((perm_insertionSort _ _).symm.map _)
  congr 1
  apply filter_congr
  intro d _
  show decide (d.parent.map rename = some (rename id)) = decide (d.parent = some id)
  rw [decide_eq_decide]
  exact (Option.map_injective hf).eq_iff' rfl

/-- Siblings are ordered the same way. -/
theorem Keyed.definitionChildren_renumber (h : Keyed definitions) (hf : Function.Injective rename)
    (hperm : definitions'.Perm (definitions.map (RawDefinition.renumber rename))) (id : Nat) :
    definitionChildren definitions' (rename id) =
      (definitionChildren definitions id).map (RawDefinition.renumber rename) := by
  have hsorted := pairwise_insertionSort_key RawDefinition.siblingKey
    (definitions'.filter fun d => d.parent = some (rename id))
  have hsorted' := pairwise_insertionSort_key RawDefinition.siblingKey
    (definitions.filter fun d => d.parent = some id)
  refine (perm_definitionChildren hf hperm id).eq_of_pairwise ?_ hsorted (pairwise_map.mpr hsorted')
  intro a b ha hb hab hba
  obtain ⟨a₀, ha₀, rfl⟩ := mem_map.mp ((perm_definitionChildren hf hperm id).mem_iff.mp ha)
  obtain ⟨b₀, hb₀, rfl⟩ := mem_map.mp hb
  obtain ⟨ha₀, hpa⟩ := mem_definitionChildren.mp ha₀
  obtain ⟨hb₀, hpb⟩ := mem_definitionChildren.mp hb₀
  have hkey : a₀.siblingKey = b₀.siblingKey := le_antisymm hab hba
  rw [h.apart a₀ ha₀ b₀ hb₀ (hpa.trans hpb.symm) (RawDefinition.keyPart_of_siblingKey hkey)]

theorem Keyed.renumber (h : Keyed definitions) (hf : Function.Injective rename)
    (hroot : rename crateDefId = crateDefId)
    (hperm : definitions'.Perm (definitions.map (RawDefinition.renumber rename))) :
    Keyed definitions' := by
  have hmem : ∀ {d'}, d' ∈ definitions' ↔ ∃ d ∈ definitions, d.renumber rename = d' :=
    fun {d'} => hperm.mem_iff.trans mem_map
  have hdistinct : DistinctCompilerIds definitions' := by
    unfold DistinctCompilerIds
    rw [(hperm.map _).nodup_iff, map_map]
    have hids : (definitions.map (RawDefinition.compilerId ∘ RawDefinition.renumber rename)) =
        (definitions.map RawDefinition.compilerId).map rename := by
      rw [map_map]
      rfl
    rw [hids]
    exact h.distinct.map hf
  have hlisted : ∀ d' ∈ definitions', ∀ p, d'.parent = some p →
      ∃ e ∈ definitions', e.compilerId = p := by
    intro d' hd' p hp
    obtain ⟨d, hd, rfl⟩ := hmem.mp hd'
    obtain ⟨q, hq, rfl⟩ := Option.map_eq_some_iff.mp hp
    obtain ⟨e, he, rfl⟩ := h.listed d hd q hq
    exact ⟨_, hmem.mpr ⟨e, he, rfl⟩, rfl⟩
  refine ⟨hdistinct, fun d' hd' hid => ?_, hlisted, fun d' hd' => ?_,
    fun d' hd' e' he' hparent hpart => ?_⟩
  · obtain ⟨d, hd, rfl⟩ := hmem.mp hd'
    have hnone := h.root d hd (hf (hid.trans hroot.symm))
    exact congrArg (Option.map rename) hnone
  · obtain ⟨d, hd, rfl⟩ := hmem.mp hd'
    have hgrounded := h.grounded d hd
    induction hgrounded with
    | @root a ha hp =>
      refine .root (mem_toFinset.mpr hd') ?_
      unfold parentOf RawDefinition.renumber
      rw [h.parent_eq_none hd hp]
      rfl
    | @child a p ha hp hg ih =>
      have hpmem := mem_toFinset.mp hg.mem
      have hpmem' := hmem.mpr ⟨p, hpmem, rfl⟩
      refine .child (mem_toFinset.mpr hd') (parentOf_eq_some hdistinct hpmem' ?_) (ih hpmem hpmem')
      unfold RawDefinition.renumber
      rw [parent_of_parentOf hp]
      rfl
  · obtain ⟨d, hd, rfl⟩ := hmem.mp hd'
    obtain ⟨e, he, rfl⟩ := hmem.mp he'
    rw [h.apart d hd e he (Option.map_injective hf hparent) hpart]

/-! ## The same definitions -/

/-- Two states that differ in the compiler ids only. -/
structure Renumbers (rename : Nat → Nat) (state state' : CanonicalDefinitions) : Prop where
  definitions : state'.definitions = state.definitions
  bases : state'.productBases = state.productBases
  ids : ∀ id, state'.localIds (rename id) = state.localIds id

theorem Renumbers.push {state state' : CanonicalDefinitions} (h : Renumbers rename state state')
    (hf : Function.Injective rename) (d : RawDefinition) :
    Renumbers rename (state.push d) (state'.push (d.renumber rename)) := by
  have hparent : (d.renumber rename).parent.bind state'.localIds =
      d.parent.bind state.localIds := by
    unfold RawDefinition.renumber
    cases d.parent with
    | none => rfl
    | some p => exact h.ids p
  unfold CanonicalDefinitions.push
  refine ⟨?_, ?_, fun id => ?_⟩
  · rw [hparent, h.definitions]
    rfl
  · rw [h.bases]
    rfl
  · dsimp only
    rw [h.definitions]
    by_cases heq : id = d.compilerId
    · rw [heq]
      unfold RawDefinition.renumber
      rw [update_self, update_self]
    · have hne : rename id ≠ (d.renumber rename).compilerId := fun h => heq (hf h)
      rw [update_of_ne heq, update_of_ne hne]
      exact h.ids id

theorem renumbers_foldl (hf : Function.Injective rename) (order : List RawDefinition)
    {state state' : CanonicalDefinitions} (h : Renumbers rename state state') :
    Renumbers rename (order.foldl CanonicalDefinitions.push state)
      ((order.map (RawDefinition.renumber rename)).foldl CanonicalDefinitions.push state') := by
  induction order generalizing state state' with
  | nil => exact h
  | cons d order ih => exact ih (h.push hf d)

theorem hasParent_renumber (hf : Function.Injective rename)
    (hperm : definitions'.Perm (definitions.map (RawDefinition.renumber rename))) :
    HasParent definitions' (d.renumber rename) ↔ HasParent definitions d := by
  have hmem : ∀ {d'}, d' ∈ definitions' ↔ ∃ d ∈ definitions, d.renumber rename = d' :=
    fun {d'} => hperm.mem_iff.trans mem_map
  constructor
  · rintro ⟨p', hp', e', he', rfl⟩
    obtain ⟨e, he, rfl⟩ := hmem.mp he'
    obtain ⟨p, hp, heq⟩ := Option.map_eq_some_iff.mp hp'
    exact ⟨p, hp, e, he, (hf heq).symm⟩
  · rintro ⟨p, hp, e, he, rfl⟩
    exact ⟨_, congrArg (Option.map rename) hp, _, hmem.mpr ⟨e, he, rfl⟩, rfl⟩

theorem crateRooted_renumber (hdistinct : DistinctCompilerIds definitions)
    (hf : Function.Injective rename) (hroot : rename crateDefId = crateDefId)
    (hperm : definitions'.Perm (definitions.map (RawDefinition.renumber rename)))
    {root' : RawDefinition} : CrateRooted definitions' root' ↔
      ∃ root, CrateRooted definitions root ∧ root' = root.renumber rename := by
  have hmem : ∀ {d'}, d' ∈ definitions' ↔ ∃ d ∈ definitions, d.renumber rename = d' :=
    fun {d'} => hperm.mem_iff.trans mem_map
  constructor
  · rintro ⟨hroot', hid, hothers⟩
    obtain ⟨root, hmem', rfl⟩ := hmem.mp hroot'
    refine ⟨root, ⟨hmem', hf (hid.trans hroot.symm), fun d hd hne => ?_⟩, rfl⟩
    refine (hasParent_renumber hf hperm).mp (hothers _ (hmem.mpr ⟨d, hd, rfl⟩) fun heq => hne ?_)
    exact hdistinct.eq hd hmem' (hf (congrArg RawDefinition.compilerId heq))
  · rintro ⟨root, ⟨hmem', hid, hothers⟩, rfl⟩
    refine ⟨hmem.mpr ⟨root, hmem', rfl⟩, (congrArg rename hid).trans hroot, fun d' hd' hne => ?_⟩
    obtain ⟨d, hd, rfl⟩ := hmem.mp hd'
    exact (hasParent_renumber hf hperm).mpr (hothers d hd fun heq => hne (by rw [heq]))

/-- The definitions that a list is keyed to, or the error. -/
def canonicalOutput (definitions : List RawDefinition) :
    Option (Except DefinitionError (List Definition)) :=
  (canonicalizeDefinitions definitions).map (Except.map CanonicalDefinitions.definitions)

/-- Another order of the list and other compiler ids make no difference. -/
theorem Keyed.canonicalOutput_renumber (h : Keyed definitions) (hf : Function.Injective rename)
    (hroot : rename crateDefId = crateDefId)
    (hperm : definitions'.Perm (definitions.map (RawDefinition.renumber rename))) :
    canonicalOutput definitions' = canonicalOutput definitions := by
  have h' := h.renumber hf hroot hperm
  unfold canonicalOutput
  by_cases hrooted : ∃ root, CrateRooted definitions root
  · obtain ⟨root, hrooted⟩ := hrooted
    have hrooted' := (crateRooted_renumber h.distinct hf hroot hperm).mpr ⟨root, hrooted, rfl⟩
    obtain ⟨order, htree, -, hrun, -⟩ := h.canonicalize hrooted
    obtain ⟨order', htree', -, hrun', -⟩ := h'.canonicalize hrooted'
    have hmap : order' = order.map (RawDefinition.renumber rename) := htree'.unique <|
      htree.map fun d => (h.definitionChildren_renumber hf hperm d.compilerId).symm
    have hsame := renumbers_foldl hf order
      (⟨rfl, rfl, fun _ => rfl⟩ : Renumbers rename .empty .empty)
    rw [hrun, hrun', hmap]
    exact congrArg (fun definitions => some (Except.ok definitions)) hsame.definitions
  · push Not at hrooted
    rw [canonicalizeDefinitions_error (List.Nodup.of_map _ h.distinct) hrooted,
      canonicalizeDefinitions_error (List.Nodup.of_map _ h'.distinct) fun root' hroot' => by
        obtain ⟨root, hroot, -⟩ := (crateRooted_renumber h.distinct hf hroot hperm).mp hroot'
        exact hrooted root hroot]

end ItemDependencies
