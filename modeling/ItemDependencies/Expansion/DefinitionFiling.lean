import ItemDependencies.Expansion.DefinitionProducts

/-!
# Filing the products

Every generated definition is filed under the output of its root, or as a member of the owner.  What
comes out depends on the parent chains only.
-/

namespace ItemDependencies

open Library List

/-! ## Filing -/

section Filing

variable {definitions : List Definition} {generated : Finset DefinitionId}
  {observedOutputs : SortedMap DefinitionId MacroOutputRange}

theorem HasOutput.unique {id : DefinitionId} {output output' : MacroOutputRange}
    (h : HasOutput definitions generated observedOutputs id output)
    (h' : HasOutput definitions generated observedOutputs id output') : output = output' :=
  (walksTo_output_iff.mpr h).unique (walksTo_output_iff.mpr h')

theorem HasContainer.unique {id : DefinitionId} {container container' : DefinitionProductContainer}
    (h : HasContainer definitions generated id container)
    (h' : HasContainer definitions generated id container') : container = container' := by
  induction h with
  | root hid hdefinition hrole =>
    cases h' with
    | root => rfl
    | owner hid' => exact absurd hid hid'
    | subordinate _ hdefinition' hrole' =>
      cases hdefinition.symm.trans hdefinition'
      cases hrole.symm.trans hrole'
  | owner hid =>
    cases h' with
    | root hid' => exact absurd hid' hid
    | owner => rfl
    | subordinate hid' => exact absurd hid' hid
  | subordinate hid hdefinition hrole hparent _ ih =>
    cases h' with
    | root _ hdefinition' hrole' =>
      cases hdefinition.symm.trans hdefinition'
      cases hrole.symm.trans hrole'
    | owner hid' => exact absurd hid hid'
    | subordinate _ hdefinition' _ hparent' h' =>
      cases hdefinition.symm.trans hdefinition'
      cases hparent.symm.trans hparent'
      exact ih h'

theorem HasContainer.root_mem {id root : DefinitionId}
    (h : HasContainer definitions generated id (.root root)) : root ∈ generated := by
  generalize hcontainer : DefinitionProductContainer.root root = container at h
  induction h with
  | root hid => cases hcontainer; exact hid
  | owner => cases hcontainer
  | subordinate _ _ _ _ _ ih => exact ih hcontainer

theorem HasContainer.known {id : DefinitionId} {container : DefinitionProductContainer}
    (h : HasContainer definitions generated id container) :
    ∃ definition, definitionOf definitions id = some definition := by
  cases h with
  | root _ hdefinition => exact ⟨_, hdefinition⟩
  | owner _ hdefinition => exact ⟨_, hdefinition⟩
  | subordinate _ hdefinition => exact ⟨_, hdefinition⟩

variable (definitions generated observedOutputs)

/-- A definition is filed under the output of its root. -/
def IsProduct (id : DefinitionId) (entry : ObservedProduct) : Prop :=
  ∃ root, HasContainer definitions generated id (.root root) ∧
    HasOutput definitions generated observedOutputs root entry.output ∧
      entry.product = .definition id

/-- A definition without a root is a member with its own output. -/
def IsOwnerMember (id : DefinitionId) (entry : ObservedProduct) : Prop :=
  ∃ owner, HasContainer definitions generated id (.owner owner) ∧
    HasOutput definitions generated observedOutputs id entry.output ∧ entry.product = .definition id

/-- A definition has an output and a container, and lies in the output of its root. -/
inductive Fileable (id : DefinitionId) : Prop
  | product {root : DefinitionId} {output rootOutput : MacroOutputRange}
      (hcontainer : HasContainer definitions generated id (.root root))
      (houtput : HasOutput definitions generated observedOutputs id output)
      (hroot : HasOutput definitions generated observedOutputs root rootOutput)
      (hcontains : rootOutput.contains output = true) : Fileable id
  | member {owner : DefinitionId} {output : MacroOutputRange}
      (hcontainer : HasContainer definitions generated id (.owner owner))
      (houtput : HasOutput definitions generated observedOutputs id output) : Fileable id

/-- The definitions so far have been filed, with the one owner of the members among them. -/
structure Filed (done : List DefinitionId) (filed : ClassifiedDefinitionProducts) : Prop where
  fileable : ∀ id ∈ done, Fileable definitions generated observedOutputs id
  owner : ∀ owner, filed.owner = some owner ↔
    ∃ id ∈ done, HasContainer definitions generated id (.owner owner)
  products : ∀ entry, entry ∈ filed.products ↔
    ∃ id ∈ done, IsProduct definitions generated observedOutputs id entry
  members : ∀ entry, entry ∈ filed.ownerMembers ↔
    ∃ id ∈ done, IsOwnerMember definitions generated observedOutputs id entry
  once : ((filed.products ++ filed.ownerMembers).map ObservedProduct.product).Perm
    (done.map GraphNode.definition)

/-- The maps give the outputs and the containers of the generated definitions. -/
structure Resolved (outputs : SortedMap DefinitionId MacroOutputRange)
    (containers : SortedMap DefinitionId DefinitionProductContainer) : Prop where
  outputs : ∀ id ∈ generated, ∀ output, outputs.get id = some output ↔
    HasOutput definitions generated observedOutputs id output
  containers : ∀ id ∈ generated, ∀ container, containers.get id = some container ↔
    HasContainer definitions generated id container

variable {definitions generated observedOutputs} {done : List DefinitionId}
  {filed filed' : ClassifiedDefinitionProducts} {id : DefinitionId}
  {outputs : SortedMap DefinitionId MacroOutputRange}
  {containers : SortedMap DefinitionId DefinitionProductContainer}

theorem exists_mem_concat {P : DefinitionId → Prop} :
    (∃ other ∈ done ++ [id], P other) ↔ (∃ other ∈ done, P other) ∨ P id := by
  simp [or_and_right, exists_or]

theorem Filed.addProduct (h : Filed definitions generated observedOutputs done filed)
    {root : DefinitionId} {output rootOutput : MacroOutputRange}
    (hcontainer : HasContainer definitions generated id (.root root))
    (houtput : HasOutput definitions generated observedOutputs id output)
    (hroot : HasOutput definitions generated observedOutputs root rootOutput)
    (hcontains : rootOutput.contains output = true) :
    Filed definitions generated observedOutputs (done ++ [id])
      { filed with products := filed.products ++ [⟨rootOutput, .definition id⟩] } where
  fileable other hother := by
    rcases mem_append.mp hother with hother | hother
    · exact h.fileable other hother
    · cases mem_singleton.mp hother
      exact .product hcontainer houtput hroot hcontains
  owner owner := by
    rw [exists_mem_concat, ← h.owner]
    refine (or_iff_left fun howner => ?_).symm
    cases hcontainer.unique howner
  products entry := by
    rw [exists_mem_concat, ← h.products, mem_append, mem_singleton]
    refine or_congr_right ⟨fun heq => ?_, fun hproduct => ?_⟩
    · subst heq
      exact ⟨root, hcontainer, hroot, rfl⟩
    · obtain ⟨root', hcontainer', hroot', heq⟩ := hproduct
      cases hcontainer.unique hcontainer'
      exact ObservedProduct.ext (hroot'.unique hroot) heq
  members entry := by
    rw [exists_mem_concat, ← h.members]
    refine (or_iff_left fun hmember => ?_).symm
    obtain ⟨owner, howner, -⟩ := hmember
    cases hcontainer.unique howner
  once := by
    let entry : ObservedProduct := ⟨rootOutput, .definition id⟩
    have hmiddle : (filed.products ++ [entry] ++ filed.ownerMembers).Perm
        (filed.products ++ filed.ownerMembers ++ [entry]) := by
      rw [append_assoc, append_assoc]
      exact perm_append_comm.append_left _
    refine (hmiddle.map _).trans ?_
    rw [map_append, map_append (f := GraphNode.definition)]
    exact h.once.append_right _

theorem Filed.addMember (h : Filed definitions generated observedOutputs done filed)
    {owner : DefinitionId} {output : MacroOutputRange}
    (hcontainer : HasContainer definitions generated id (.owner owner))
    (houtput : HasOutput definitions generated observedOutputs id output)
    (howner : ∀ known, filed.owner = some known → known = owner) :
    Filed definitions generated observedOutputs (done ++ [id]) {
      filed with
      owner := some owner
      ownerMembers := filed.ownerMembers ++ [⟨output, .definition id⟩] } where
  fileable other hother := by
    rcases mem_append.mp hother with hother | hother
    · exact h.fileable other hother
    · cases mem_singleton.mp hother
      exact .member hcontainer houtput
  owner other := by
    rw [exists_mem_concat, ← h.owner, Option.some.injEq]
    constructor
    · rintro rfl
      exact .inr hcontainer
    · rintro (hknown | hother)
      · exact (howner other hknown).symm
      · cases hcontainer.unique hother
        rfl
  products entry := by
    rw [exists_mem_concat, ← h.products]
    refine (or_iff_left fun hproduct => ?_).symm
    obtain ⟨root, hroot, -⟩ := hproduct
    cases hcontainer.unique hroot
  members entry := by
    rw [exists_mem_concat, ← h.members, mem_append, mem_singleton]
    refine or_congr_right ⟨fun heq => ?_, fun hmember => ?_⟩
    · subst heq
      exact ⟨owner, hcontainer, houtput, rfl⟩
    · obtain ⟨owner', -, houtput', heq⟩ := hmember
      exact ObservedProduct.ext (houtput'.unique houtput) heq
  once := by
    dsimp only
    rw [← append_assoc, map_append, map_append (f := GraphNode.definition)]
    exact h.once.append_right _

theorem Filed.fileDefinition (hresolved : Resolved definitions generated observedOutputs outputs
    containers) (hid : id ∈ generated) (h : Filed definitions generated observedOutputs done filed)
    (hok : fileDefinition outputs containers filed id = .ok filed') :
    Filed definitions generated observedOutputs (done ++ [id]) filed' := by
  unfold ItemDependencies.fileDefinition at hok
  cases houtput : outputs.get id with
  | none => rw [houtput] at hok; cases hok
  | some output =>
    rw [houtput] at hok
    have houtput := (hresolved.outputs id hid output).mp houtput
    cases hcontainer : containers.get id with
    | none => rw [hcontainer] at hok; cases hok
    | some container =>
      rw [hcontainer] at hok
      have hcontainer := (hresolved.containers id hid container).mp hcontainer
      cases container with
      | root root =>
        dsimp only at hok
        cases hroot : outputs.get root with
        | none => rw [hroot] at hok; cases hok
        | some rootOutput =>
          rw [hroot] at hok
          obtain ⟨hcontains, hok⟩ := guard_ok hok
          cases hok
          rw [Bool.not_eq_true', Bool.not_eq_false] at hcontains
          exact h.addProduct hcontainer houtput
            ((hresolved.outputs root hcontainer.root_mem rootOutput).mp hroot) hcontains
      | owner owner =>
        obtain ⟨howner, hok⟩ := guard_ok hok
        cases hok
        refine h.addMember hcontainer houtput fun known hknown => ?_
        rw [hknown, Option.any_some, decide_eq_true_eq, not_not] at howner
        exact howner

theorem fileDefinition_total (hresolved : Resolved definitions generated observedOutputs outputs
    containers) (hid : id ∈ generated) (h : Fileable definitions generated observedOutputs id)
    (howner : ∀ known owner, filed.owner = some known →
      HasContainer definitions generated id (.owner owner) → known = owner) :
    ∃ filed', fileDefinition outputs containers filed id = .ok filed' := by
  unfold fileDefinition
  cases h with
  | @product root output rootOutput hcontainer houtput hroot hcontains =>
    rw [(hresolved.outputs id hid output).mpr houtput,
      (hresolved.containers id hid _).mpr hcontainer]
    dsimp only
    rw [(hresolved.outputs root hcontainer.root_mem rootOutput).mpr hroot]
    dsimp only
    rw [hcontains]
    exact ⟨_, rfl⟩
  | @member owner output hcontainer houtput =>
    rw [(hresolved.outputs id hid output).mpr houtput,
      (hresolved.containers id hid _).mpr hcontainer]
    dsimp only
    have hguard : ¬filed.owner.any (· ≠ owner) = true := by
      rw [Option.any_eq_true]
      rintro ⟨known, hknown, hne⟩
      exact of_decide_eq_true hne (howner known owner hknown hcontainer)
    rw [if_neg hguard]
    exact ⟨_, rfl⟩

theorem fileDefinition_error {e : ExpansionError}
    (h : fileDefinition outputs containers filed id = .error e) : e = .incompleteOrigin := by
  unfold fileDefinition at h
  cases houtput : outputs.get id with
  | none => rw [houtput] at h; cases h; rfl
  | some output =>
    rw [houtput] at h
    cases hcontainer : containers.get id with
    | none => rw [hcontainer] at h; cases h; rfl
    | some container =>
      rw [hcontainer] at h
      cases container with
      | root root =>
        dsimp only at h
        cases hroot : outputs.get root with
        | none => rw [hroot] at h; cases h; rfl
        | some rootOutput =>
          rw [hroot] at h
          dsimp only at h
          split at h
          · cases h; rfl
          · cases h
      | owner owner =>
        dsimp only at h
        split at h
        · cases h; rfl
        · cases h

end Filing

/-! ## The whole classification -/

section Whole

variable {definitions : List Definition} {generated : Finset DefinitionId}
  {observedOutputs : SortedMap DefinitionId MacroOutputRange} {visits visits' : List DefinitionId}
  {filed filed' result : ClassifiedDefinitionProducts}

theorem resolved_of_ok (hvisits : ∀ id, id ∈ visits ↔ id ∈ generated)
    {outputs : SortedMap DefinitionId MacroOutputRange}
    {roots containers : SortedMap DefinitionId DefinitionProductContainer}
    (houtputs : visits.foldlM (memoize ExpansionError.incompleteOrigin
      (outputStep definitions generated) (generated.card + 1)) observedOutputs = .ok outputs)
    (hroots : visits.foldlM (rootContainer definitions) .empty = .ok roots)
    (hcontainers : visits.foldlM (memoize ExpansionError.incompleteOrigin
      (containerStep definitions generated) (generated.card + 1)) roots = .ok containers) :
    Resolved definitions generated observedOutputs outputs containers := by
  obtain ⟨houtput, hall⟩ := memoizeAll_ok houtputs
  obtain ⟨hcontainer, hall'⟩ := memoizeAll_ok hcontainers
  have hroots := rootContainers_ok hroots
  refine ⟨fun id hid output => ⟨fun hget => ?_, fun hreaches => ?_⟩,
    fun id hid container => ⟨fun hget => ?_, fun hreaches => ?_⟩⟩
  · exact walksTo_output_iff.mp (houtput.sound id output hget)
  · rcases hall id ((hvisits id).mpr hid) with ⟨found, hfound⟩ | ⟨-, found, hstop⟩
    · rw [hfound, hreaches.unique (walksTo_output_iff.mp (houtput.sound id found hfound))]
    · exact absurd hstop outputStep_stop
  · exact (walksTo_container_iff hroots hvisits).mp (hcontainer.sound id container hget)
  · rcases hall' id ((hvisits id).mpr hid) with ⟨found, hfound⟩ | ⟨hno, found, hstop⟩
    · rw [hfound, hreaches.unique ((walksTo_container_iff hroots hvisits).mp
        (hcontainer.sound id found hfound))]
    · -- a root is known before the walks
      obtain ⟨definition, hdefinition, ⟨hno', -⟩ | ⟨-, hrole, -⟩⟩ := containerStep_stop.mp hstop
      · exact absurd hid hno'
      · cases hno.symm.trans ((hroots.get id _).mpr
          ⟨(hvisits id).mpr hid, rfl, definition, hdefinition, hrole⟩)

theorem classifyVisits_ok (hvisits : ∀ id, id ∈ visits ↔ id ∈ generated)
    (h : classifyVisits definitions generated observedOutputs visits = .ok result) :
    (observedOutputs.keys.any (· ∉ generated)) = false ∧
      ∃ filed, Filed definitions generated observedOutputs visits filed ∧
        sortFiled filed = .ok result := by
  unfold classifyVisits at h
  obtain ⟨hkeys, h⟩ := guard_ok h
  obtain ⟨outputs, houtputs, h⟩ := bind_ok h
  obtain ⟨roots, hroots, h⟩ := bind_ok h
  obtain ⟨containers, hcontainers, h⟩ := bind_ok h
  obtain ⟨filed, hfiled, h⟩ := bind_ok h
  refine ⟨Bool.not_eq_true _ ▸ hkeys, filed, ?_, h⟩
  have hresolved := resolved_of_ok hvisits houtputs hroots hcontainers
  refine foldlM_ok (P := fun done filed => (∀ id ∈ done, id ∈ generated) →
    Filed definitions generated observedOutputs done filed)
    (fun done id s t hs hok hmem => ?_) (fun _ => ⟨by simp, by simp, by simp, by simp, by simp⟩)
    hfiled fun id hid => (hvisits id).mp hid
  exact (hs fun id hid => hmem id (by simp [hid])).fileDefinition hresolved (hmem id (by simp)) hok

/-- The classification goes through in any order once it has gone through in one. -/
theorem classifyVisits_total (hvisits : ∀ id, id ∈ visits ↔ id ∈ generated)
    (hvisits' : ∀ id, id ∈ visits' ↔ id ∈ generated)
    (hkeys : (observedOutputs.keys.any (· ∉ generated)) = false)
    (h : Filed definitions generated observedOutputs visits filed) :
    ∃ filed', Filed definitions generated observedOutputs visits' filed' ∧
      classifyVisits definitions generated observedOutputs visits' = sortFiled filed' := by
  have hfileable : ∀ id ∈ generated, Fileable definitions generated observedOutputs id :=
    fun id hid => h.fileable id ((hvisits id).mpr hid)
  have houtput : ∀ id ∈ visits', ∃ output,
      WalksTo observedOutputs (outputStep definitions generated) id output := by
    intro id hid
    cases hfileable id ((hvisits' id).mp hid) with
    | product _ houtput => exact ⟨_, walksTo_output_iff.mpr houtput⟩
    | member _ houtput => exact ⟨_, walksTo_output_iff.mpr houtput⟩
  have hcontainer : ∀ id ∈ visits', ∃ container,
      HasContainer definitions generated id container := by
    intro id hid
    cases hfileable id ((hvisits' id).mp hid) with
    | product hcontainer => exact ⟨_, hcontainer⟩
    | member hcontainer => exact ⟨_, hcontainer⟩
  have howners : ∀ id ∈ generated, ∀ id' ∈ generated, ∀ owner owner',
      HasContainer definitions generated id (.owner owner) →
        HasContainer definitions generated id' (.owner owner') → owner = owner' := by
    intro id hid id' hid' owner owner' howner howner'
    have hfirst := (h.owner owner).mpr ⟨id, (hvisits id).mpr hid, howner⟩
    have hsecond := (h.owner owner').mpr ⟨id', (hvisits id').mpr hid', howner'⟩
    exact Option.some.inj (hfirst.symm.trans hsecond)
  obtain ⟨outputs, houtputs⟩ : ∃ outputs, visits'.foldlM (memoize ExpansionError.incompleteOrigin
      (outputStep definitions generated) (generated.card + 1)) observedOutputs = .ok outputs :=
    memoizeAll_total (fun b next hstep => (outputStep_up.mp hstep).1)
      (Nat.lt_succ_self generated.card) houtput
  obtain ⟨roots, hroots⟩ := rootContainers_total fun id hid => by
    obtain ⟨container, hcontainer⟩ := hcontainer id hid
    exact hcontainer.known
  obtain ⟨containers, hcontainers⟩ : ∃ containers, visits'.foldlM
      (memoize ExpansionError.incompleteOrigin (containerStep definitions generated)
        (generated.card + 1)) roots = .ok containers := by
    refine memoizeAll_total (fun b next hstep => (containerStep_up.mp hstep).1)
      (Nat.lt_succ_self generated.card) fun id hid => ?_
    obtain ⟨container, hcontainer⟩ := hcontainer id hid
    exact ⟨container, (walksTo_container_iff (rootContainers_ok hroots) hvisits').mpr hcontainer⟩
  have hresolved := resolved_of_ok hvisits' houtputs hroots hcontainers
  obtain ⟨filed', hfiled, hfiled'⟩ := foldlM_total (f := fileDefinition outputs containers)
    (l := visits') (s := ⟨[], [], none⟩)
    (P := Filed definitions generated observedOutputs) (fun done id rest s hsplit hs => by
      have hid : id ∈ generated := (hvisits' id).mp (by simp [hsplit])
      have hagree : ∀ known owner, s.owner = some known →
          HasContainer definitions generated id (.owner owner) → known = owner := by
        intro known owner hknown hown
        obtain ⟨id', hid', hown'⟩ := (hs.owner known).mp hknown
        exact howners id' ((hvisits' id').mp (by simp [hsplit, hid'])) id hid known owner hown' hown
      obtain ⟨t, ht⟩ := fileDefinition_total hresolved hid (hfileable id hid) hagree
      exact ⟨t, ht, hs.fileDefinition hresolved hid ht⟩)
    ⟨by simp, by simp, by simp, by simp, by simp⟩
  refine ⟨filed', hfiled', ?_⟩
  unfold classifyVisits
  rw [hkeys, if_neg Bool.false_ne_true, houtputs]
  show (visits'.foldlM (rootContainer definitions) .empty >>= _) = _
  rw [hroots]
  show (visits'.foldlM (memoize _ _ _) roots >>= _) = _
  rw [hcontainers]
  show (visits'.foldlM (fileDefinition outputs containers) _ >>= _) = _
  rw [hfiled]
  rfl

theorem sortFiled_error {e : ExpansionError} (h : sortFiled filed = .error e) :
    e = .incompleteOrigin := by
  unfold sortFiled at h
  dsimp only at h
  split at h
  · cases h; rfl
  · cases h

theorem classifyVisits_error {e : ExpansionError}
    (h : classifyVisits definitions generated observedOutputs visits = .error e) :
    e = .incompleteOrigin := by
  unfold classifyVisits at h
  split at h
  · cases h; rfl
  · rcases bind_error h with h | ⟨outputs, -, h⟩
    · exact memoizeAll_error h
    rcases bind_error h with h | ⟨roots, -, h⟩
    · refine foldlM_error (fun roots id e h => ?_) h
      unfold rootContainer at h
      cases hdefinition : definitionOf definitions id with
      | none => rw [hdefinition] at h; cases h; rfl
      | some definition =>
        rw [hdefinition] at h
        dsimp only at h
        split at h <;> cases h
    rcases bind_error h with h | ⟨containers, -, h⟩
    · exact memoizeAll_error h
    rcases bind_error h with h | ⟨filed, -, h⟩
    · exact foldlM_error (fun filed id e h => fileDefinition_error h) h
    · exact sortFiled_error h

theorem Filed.nodup (h : Filed definitions generated observedOutputs visits filed)
    (hnodup : visits.Nodup) :
    ((filed.products ++ filed.ownerMembers).map ObservedProduct.product).Nodup :=
  h.once.nodup_iff.mpr (hnodup.map fun _ _ h => GraphNode.definition.inj h)

/-- The result of the filing does not depend on its order. -/
theorem sortFiled_congr (h : Filed definitions generated observedOutputs visits filed)
    (h' : Filed definitions generated observedOutputs visits' filed')
    (hperm : visits.Perm visits') (hnodup : visits.Nodup) : sortFiled filed = sortFiled filed' := by
  have hmem : ∀ {P : DefinitionId → Prop}, (∃ id ∈ visits, P id) ↔ ∃ id ∈ visits', P id := by
    intro P
    exact exists_congr fun id => and_congr_left fun _ => hperm.mem_iff
  have hone := h.nodup hnodup
  have htwo := h'.nodup (hperm.nodup_iff.mp hnodup)
  rw [map_append, nodup_append] at hone htwo
  have hproducts : filed.products.Perm filed'.products :=
    (perm_ext_iff_of_nodup (.of_map _ hone.1) (.of_map _ htwo.1)).mpr fun entry => by
      rw [h.products, h'.products, hmem]
  have hmembers : filed.ownerMembers.Perm filed'.ownerMembers :=
    (perm_ext_iff_of_nodup (.of_map _ hone.2.1) (.of_map _ htwo.2.1)).mpr fun entry => by
      rw [h.members, h'.members, hmem]
  have howner : filed.owner = filed'.owner := by
    apply Option.ext
    intro owner
    rw [h.owner, h'.owner, hmem]
  unfold sortFiled
  rw [insertionSort_key_perm ObservedProduct.product hmembers fun a ha b hb heq =>
      inj_on_of_nodup_map hone.2.1 ha hb heq,
    insertionSort_key_perm (fun entry : ObservedProduct => toLex (entry.output, entry.product))
      hproducts fun a _ b _ heq => ?_, howner]
  have hpair := Prod.ext_iff.mp (toLex.injective heq)
  exact ObservedProduct.ext hpair.1 hpair.2

end Whole

/-- Where a definition is in the result. -/
inductive ClassifiedAs (definitions : List Definition) (generated : Finset DefinitionId)
    (observedOutputs : SortedMap DefinitionId MacroOutputRange)
    (result : ClassifiedDefinitionProducts) (id : DefinitionId) : Prop
  | product {root : DefinitionId} {output rootOutput : MacroOutputRange}
      (hcontainer : HasContainer definitions generated id (.root root))
      (houtput : HasOutput definitions generated observedOutputs id output)
      (hroot : HasOutput definitions generated observedOutputs root rootOutput)
      (hcontains : rootOutput.contains output = true)
      (hmem : ⟨rootOutput, .definition id⟩ ∈ result.products) :
      ClassifiedAs definitions generated observedOutputs result id
  | member {owner : DefinitionId} {output : MacroOutputRange}
      (hcontainer : HasContainer definitions generated id (.owner owner))
      (houtput : HasOutput definitions generated observedOutputs id output)
      (howner : result.owner = some owner)
      (hmem : ⟨output, .definition id⟩ ∈ result.ownerMembers) :
      ClassifiedAs definitions generated observedOutputs result id

/-- Each generated definition is classified once, as its parent chain says.  The order of the visits
does not matter, and a walk finds the same whatever the earlier ones have left in its memo. -/
theorem classifyDefinitionProducts_chain (definitions : List Definition)
    (generated : Finset DefinitionId) (observedOutputs : SortedMap DefinitionId MacroOutputRange) :
    (∀ result, classifyDefinitionProducts definitions generated observedOutputs = .ok result →
      ((result.products ++ result.ownerMembers).map ObservedProduct.product).Perm
        ((ascending generated).map GraphNode.definition) ∧
      ∀ id ∈ generated, ClassifiedAs definitions generated observedOutputs result id) ∧
    (∀ visits, visits.Perm (ascending generated) →
      classifyVisits definitions generated observedOutputs visits =
        classifyDefinitionProducts definitions generated observedOutputs) ∧
    (∀ known, Memo observedOutputs (outputStep definitions generated) known → ∀ id output,
      (∃ path, walk ExpansionError.incompleteOrigin known (outputStep definitions generated)
          (generated.card + 1) [] id = .ok (output, path)) ↔
        HasOutput definitions generated observedOutputs id output) ∧
    ∀ roots known, (ascending generated).foldlM (rootContainer definitions) .empty = .ok roots →
      Memo roots (containerStep definitions generated) known → ∀ id container,
        (∃ path, walk ExpansionError.incompleteOrigin known (containerStep definitions generated)
          (generated.card + 1) [] id = .ok (container, path)) ↔
        HasContainer definitions generated id container := by
  have hgenerated : ∀ id, id ∈ ascending generated ↔ id ∈ generated := fun id => mem_ascending
  refine ⟨fun result h => ?_, fun visits hperm => ?_, fun known hmemo id output => ?_,
    fun roots known hroots hmemo id container => ?_⟩
  · obtain ⟨-, filed, hfiled, hsorted⟩ := classifyVisits_ok hgenerated h
    unfold sortFiled at hsorted
    obtain ⟨-, hsorted⟩ := guard_ok hsorted
    cases hsorted
    dsimp only
    constructor
    · refine List.Perm.trans ?_ hfiled.once
      exact ((perm_insertionSort _ _).append (perm_insertionSort _ _)).map _
    · intro id hid
      cases hfiled.fileable id ((hgenerated id).mpr hid) with
      | product hcontainer houtput hroot hcontains =>
        refine .product hcontainer houtput hroot hcontains ((mem_insertionSort _).mpr ?_)
        exact (hfiled.products _).mpr ⟨id, (hgenerated id).mpr hid, _, hcontainer, hroot, rfl⟩
      | member hcontainer houtput =>
        refine .member hcontainer houtput
          ((hfiled.owner _).mpr ⟨id, (hgenerated id).mpr hid, hcontainer⟩)
          ((mem_insertionSort _).mpr ?_)
        exact (hfiled.members _).mpr ⟨id, (hgenerated id).mpr hid, _, hcontainer, houtput, rfl⟩
  · have hvisits : ∀ id, id ∈ visits ↔ id ∈ generated := fun id =>
      hperm.mem_iff.trans (hgenerated id)
    have hnodup : visits.Nodup := hperm.nodup_iff.mpr (nodup_ascending generated)
    -- if one order goes through, so does the other, with the same result
    have key : ∀ {one two : List DefinitionId} {result : ClassifiedDefinitionProducts},
        one.Perm two → one.Nodup → (∀ id, id ∈ one ↔ id ∈ generated) →
          classifyVisits definitions generated observedOutputs one = .ok result →
            classifyVisits definitions generated observedOutputs two = .ok result := by
      intro one two result hperm hnodup hone h
      obtain ⟨hkeys, filed, hfiled, hsorted⟩ := classifyVisits_ok hone h
      obtain ⟨filed', hfiled', hrun⟩ := classifyVisits_total hone
        (fun id => hperm.mem_iff.symm.trans (hone id)) hkeys hfiled
      rw [hrun, ← sortFiled_congr hfiled hfiled' hperm hnodup, hsorted]
    unfold classifyDefinitionProducts
    cases hleft : classifyVisits definitions generated observedOutputs visits with
    | ok result => exact (key hperm hnodup hvisits hleft).symm
    | error e =>
      cases hright : classifyVisits definitions generated observedOutputs (ascending generated) with
      | ok result =>
        have := key hperm.symm (nodup_ascending generated) hgenerated hright
        rw [hleft] at this
        cases this
      | error e' => rw [classifyVisits_error hleft, classifyVisits_error hright]
  · rw [walk_iff hmemo (fun b next hstep => (outputStep_up.mp hstep).1)
      (Nat.lt_succ_self generated.card), walksTo_output_iff]
  · rw [walk_iff hmemo (fun b next hstep => (containerStep_up.mp hstep).1)
      (Nat.lt_succ_self generated.card),
      walksTo_container_iff (rootContainers_ok hroots) hgenerated]

/-- A closure in a function that the same expansion generates. -/
theorem classifyDefinitionProducts_chain_closure :
    ∃ result, classifyDefinitionProducts
        [⟨⟨0⟩, ⟨[]⟩, .crateRoot, none, .written ⟨0⟩ ⟨0, 9⟩ ⟨0, 9⟩ .crateRoot 0⟩,
          ⟨⟨1⟩, ⟨[]⟩, .function, some ⟨0⟩, .expanded ⟨1⟩ ⟨0, 4⟩ none 0⟩,
          ⟨⟨2⟩, ⟨[]⟩, .closure, some ⟨1⟩, .expanded ⟨1⟩ ⟨0, 4⟩ none 0⟩] {⟨1⟩, ⟨2⟩}
        ((SortedMap.empty.insert ⟨1⟩ ⟨0, 5⟩).insert ⟨2⟩ ⟨2, 4⟩) = .ok result ∧
      ((result.products ++ result.ownerMembers).map ObservedProduct.product).Perm
        [.definition ⟨1⟩, .definition ⟨2⟩] := by
  let definitions : List Definition :=
    [⟨⟨0⟩, ⟨[]⟩, .crateRoot, none, .written ⟨0⟩ ⟨0, 9⟩ ⟨0, 9⟩ .crateRoot 0⟩,
      ⟨⟨1⟩, ⟨[]⟩, .function, some ⟨0⟩, .expanded ⟨1⟩ ⟨0, 4⟩ none 0⟩,
      ⟨⟨2⟩, ⟨[]⟩, .closure, some ⟨1⟩, .expanded ⟨1⟩ ⟨0, 4⟩ none 0⟩]
  let observed : SortedMap DefinitionId MacroOutputRange :=
    (SortedMap.empty.insert ⟨1⟩ ⟨0, 5⟩).insert ⟨2⟩ ⟨2, 4⟩
  let generated : Finset DefinitionId := {⟨1⟩, ⟨2⟩}
  have hok : (classifyDefinitionProducts definitions generated observed).isOk = true := by
    decide +kernel
  have hsorted : ascending generated = [⟨1⟩, ⟨2⟩] := by decide +kernel
  cases h : classifyDefinitionProducts definitions generated observed with
  | error => rw [h] at hok; cases hok
  | ok result =>
    have honce := ((classifyDefinitionProducts_chain definitions generated observed).1 result h).1
    rw [hsorted] at honce
    exact ⟨result, rfl, honce⟩

end ItemDependencies
