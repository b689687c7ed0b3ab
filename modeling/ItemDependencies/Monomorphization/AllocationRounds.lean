import ItemDependencies.Monomorphization.AllocationArcs

/-!
# Rounds over the facts

A round lowers the keys along the arcs of the facts.  The loop ends, and its table is one that no
arc can lower, unless an arc that is reached has an ordinal that is too large.
-/

namespace ItemDependencies

open Library List Function

/-! ## Tables of paths -/

section Paths

variable {paths : AllocationPaths} {target id : AllocId} {candidate existing : AllocationKey}

theorem pathOf_cons {entry : AllocId × AllocationKey} :
    pathOf (entry :: paths) id = if entry.1 = id then some entry.2 else pathOf paths id := by
  rw [pathOf, pathOf, find?_cons]
  by_cases h : entry.1 = id <;> simp [h]

theorem lowerPath_cons_self : lowerPath target candidate ((target, existing) :: paths) =
    if candidate < existing then ((target, candidate) :: paths, true)
    else ((target, existing) :: paths, false) := by
  rw [lowerPath, if_pos rfl]

theorem lowerPath_cons_of_ne (h : id ≠ target) :
    lowerPath target candidate ((id, existing) :: paths) =
    ((id, existing) :: (lowerPath target candidate paths).1,
      (lowerPath target candidate paths).2) := by
  rw [lowerPath, if_neg h]

theorem lowerPath_changes : (lowerPath target candidate paths).2 = true ↔
    ∀ existing, pathOf paths target = some existing → candidate < existing := by
  induction paths with
  | nil => simp [lowerPath, pathOf]
  | cons entry paths ih =>
    obtain ⟨id, key⟩ := entry
    rw [pathOf_cons]
    by_cases hid : id = target
    · subst hid
      rw [lowerPath_cons_self]
      by_cases hlt : candidate < key <;> simp [hlt]
    · rw [lowerPath_cons_of_ne hid, if_neg hid]
      exact ih

theorem lowerPath_of_unchanged (h : (lowerPath target candidate paths).2 = false) :
    (lowerPath target candidate paths).1 = paths := by
  induction paths with
  | nil => cases h
  | cons entry paths ih =>
    obtain ⟨id, key⟩ := entry
    by_cases hid : id = target
    · subst hid
      rw [lowerPath_cons_self] at h ⊢
      split at h
      · cases h
      · rename_i hlt
        rw [if_neg hlt]
    · rw [lowerPath_cons_of_ne hid] at h ⊢
      rw [ih h]

theorem pathOf_lowerPath (h : (lowerPath target candidate paths).2 = true) :
    pathOf (lowerPath target candidate paths).1 =
      Function.update (pathOf paths) target candidate := by
  funext id
  induction paths with
  | nil =>
    rw [lowerPath, pathOf_cons, update_apply]
    simp [eq_comm]
  | cons entry paths ih =>
    obtain ⟨first, key⟩ := entry
    rw [update_apply, pathOf_cons]
    by_cases hfirst : first = target
    · subst hfirst
      rw [lowerPath_cons_self] at h ⊢
      split at h
      · rename_i hlt
        rw [if_pos hlt, pathOf_cons]
        by_cases hid : id = first
        · rw [if_pos hid, if_pos hid.symm]
        · rw [if_neg hid, if_neg (Ne.symm hid), if_neg (Ne.symm hid)]
      · cases h
    · rw [lowerPath_cons_of_ne hfirst] at h ⊢
      rw [pathOf_cons, ih h, update_apply]
      by_cases hid : id = target
      · rw [if_pos hid, if_neg (hid ▸ hfirst), if_pos hid]
      · rw [if_neg hid, if_neg hid]

/-- The allocations that have a key. -/
theorem map_fst_lowerPath : (lowerPath target candidate paths).1.map Prod.fst =
    addNew (paths.map Prod.fst) target := by
  induction paths with
  | nil => rfl
  | cons entry paths ih =>
    obtain ⟨id, key⟩ := entry
    by_cases hid : id = target
    · subst hid
      rw [lowerPath_cons_self]
      by_cases hlt : candidate < key <;> simp [hlt, addNew]
    · rw [lowerPath_cons_of_ne hid, map_cons, map_cons, ih, addNew, addNew]
      by_cases hmem : target ∈ paths.map Prod.fst
      · rw [if_pos hmem, if_pos (mem_cons_of_mem _ hmem)]
      · rw [if_neg hmem, if_neg fun h => (mem_cons.mp h).elim (fun heq => hid heq.symm) hmem]
        rfl

theorem pathOf_isSome : (∃ key, pathOf paths id = some key) ↔ id ∈ paths.map Prod.fst := by
  induction paths with
  | nil => simp [pathOf]
  | cons entry paths ih =>
    rw [pathOf_cons, map_cons, mem_cons, ← ih]
    by_cases hid : entry.1 = id
    · simp [hid]
    · simp [hid, Ne.symm hid]

/-- The keys, as keys of walks. -/
def keyTable (paths : AllocationPaths) (id : AllocId) :
    Option (WalkKey AllocationRootKey AllocationPathPart) :=
  (pathOf paths id).map AllocationKey.walkKey

theorem keyTable_lowerPath (h : (lowerPath target candidate paths).2 = true) :
    keyTable (lowerPath target candidate paths).1 =
      Function.update (keyTable paths) target (some candidate.walkKey) := by
  funext id
  rw [keyTable, pathOf_lowerPath h, update_apply, update_apply]
  split <;> rfl

theorem lowerPath_changes_iff_keyTable : (lowerPath target candidate paths).2 = true ↔
    ∀ old, keyTable paths target = some old → candidate.walkKey < old := by
  rw [lowerPath_changes]
  simp [keyTable, AllocationKey.lt_iff_walkKey]

end Paths

/-! ## One fact -/

variable {ν σ : Type} [DecidableEq ν] {reader : TraceReader ν σ}
  {facts before after : List (MonoUseFact ν σ)} {fact : MonoUseFact ν σ}
  {paths paths' : AllocationPaths}
  {arc : Arc AllocationRootKey AllocId AllocationPathPart}

theorem relaxFact_of_other {node : ν} {index : Nat} {state : AllocationPaths × Bool}
    (h : fact.toNode = .other node) :
    relaxFact reader facts state (fact, index) = .ok state := by
  rw [relaxFact, h]
  rfl

/-- A fact that ends at an allocation is an arc. -/
theorem ValidFacts.exists_arc (hvalid : ValidFacts reader facts)
    (before : List (MonoUseFact ν σ)) (hfact : fact ∈ facts) {target : AllocId}
    (htarget : fact.toNode = .allocation target) :
    ∃ arc, FactArc reader before fact arc := by
  obtain ⟨site, hsite⟩ := hvalid.pathSite hfact (hvalid.cause fact hfact target htarget)
  have hsource : ∃ source, arcSource reader fact.fromNode = some source := by
    cases hfrom : fact.fromNode with
    | allocation id => exact ⟨_, rfl⟩
    | other node =>
      obtain ⟨root, hroot⟩ := hvalid.root fact hfact target node htarget hfrom
      exact ⟨.inl root, by rw [arcSource, hroot]⟩
  obtain ⟨source, hsource⟩ := hsource
  exact ⟨⟨source, target, _⟩, htarget, hsource, site, hsite, rfl⟩

/-- The candidate for the target of an arc is made from the key of its source. -/
theorem FactArc.sourcePath (harc : FactArc reader before fact arc) (paths : AllocationPaths) :
    ∃ source, sourcePath reader paths fact.fromNode = .ok source ∧
      candidate (keyTable paths) arc =
        source.map fun key => (⟨key.root, key.path ++ [arc.label]⟩ : AllocationKey).walkKey := by
  obtain ⟨-, hsource, -⟩ := harc
  cases hfrom : fact.fromNode with
  | allocation id =>
    rw [hfrom] at hsource
    refine ⟨_, rfl, ?_⟩
    rw [candidate, ← Option.some.inj hsource]
    show ((pathOf paths id).map AllocationKey.walkKey).map _ = _
    rw [Option.map_map]
    rfl
  | other node =>
    rw [hfrom, arcSource] at hsource
    cases hroot : reader.allocationRoot node with
    | error e =>
      rw [hroot] at hsource
      cases hsource
    | ok root =>
      rw [hroot] at hsource
      refine ⟨some ⟨root, []⟩, ?_, ?_⟩
      · rw [ItemDependencies.sourcePath, hroot]
        rfl
      · rw [candidate, ← Option.some.inj hsource]
        rfl

/-- What a round does for a fact: nothing, if the source of its arc has no key yet; otherwise it
lowers the key of the target, unless the ordinal is too large. -/
theorem relaxFact_cases (hvalid : ValidFacts reader facts)
    (hsplit : facts = before ++ fact :: after)
    (harc : FactArc reader before fact arc) (state : AllocationPaths × Bool) :
    (candidate (keyTable state.1) arc = none ∧
      relaxFact reader facts state (fact, before.length) = .ok state) ∨
    ∃ key : AllocationKey, candidate (keyTable state.1) arc = some key.walkKey ∧
      relaxFact reader facts state (fact, before.length) =
        if arc.label.sameRoleOrdinal < u32Size then
          .ok ((lowerPath arc.target key state.1).1,
            state.2 || (lowerPath arc.target key state.1).2)
        else .error .tooManyNodes := by
  have hmem : fact ∈ facts := by simp [hsplit]
  have hcause := hvalid.cause fact hmem arc.target harc.target
  obtain ⟨source, hsource, hcandidate⟩ := harc.sourcePath state.1
  rw [hcandidate, relaxFact, harc.target]
  dsimp only
  rw [hcause, hsource]
  cases source with
  | none => exact .inl ⟨rfl, rfl⟩
  | some source =>
    refine .inr ⟨⟨source.root, source.path ++ [arc.label]⟩, rfl, ?_⟩
    obtain ⟨site, hsite, hlabel⟩ := harc.label
    have htake : facts.take before.length = before := by simp [hsplit]
    have hbefore : ∀ f ∈ before, f ∈ facts := fun f hf => by simp [hsplit, hf]
    have hordinal := allocationOrdinal_eq hvalid hbefore hcause site
    rw [htake, hlabel]
    simp only [Bool.not_true, Bool.false_eq_true, if_false, bind, Except.bind, hsite, hordinal]
    by_cases hlt : classOrdinal (before.filterMap (rolePush reader)) (factRole fact site) < u32Size
    · have hlt' : (pathPart (factRole fact site) (classOrdinal (before.filterMap (rolePush reader))
          (factRole fact site))).sameRoleOrdinal < u32Size := hlt
      rw [if_pos hlt, if_pos hlt']
      rfl
    · have hlt' : ¬(pathPart (factRole fact site) (classOrdinal (before.filterMap (rolePush reader))
          (factRole fact site))).sameRoleOrdinal < u32Size := hlt
      rw [if_neg hlt, if_neg hlt']

theorem FactArc.unique {arc' : Arc AllocationRootKey AllocId AllocationPathPart}
    (h : FactArc reader before fact arc) (h' : FactArc reader before fact arc') : arc = arc' := by
  obtain ⟨htarget, hsource, site, hsite, hlabel⟩ := h
  obtain ⟨htarget', hsource', site', hsite', hlabel'⟩ := h'
  obtain rfl : site = site' := Except.ok.inj (hsite.symm.trans hsite')
  cases arc
  cases arc'
  dsimp only at htarget htarget' hsource hsource' hlabel hlabel'
  rw [MonoTraceNode.allocation.inj (htarget.symm.trans htarget'),
    Option.some.inj (hsource.symm.trans hsource'), hlabel, hlabel']

/-! ## One round -/

/-- The keys are those of walks, for allocations at which facts end. -/
structure Tracked (reader : TraceReader ν σ) (facts : List (MonoUseFact ν σ))
    (paths : AllocationPaths) : Prop where
  traced : Traced (allocationArcs reader facts) (keyTable paths)
  nodup : (paths.map Prod.fst).Nodup
  targets : ∀ id ∈ paths.map Prod.fst, ∃ fact ∈ facts, fact.toNode = .allocation id

/-- The arc does not lead to a smaller key. -/
def Idle (paths : AllocationPaths)
    (arc : Arc AllocationRootKey AllocId AllocationPathPart) : Prop :=
  ∀ k, candidate (keyTable paths) arc = some k →
    arc.label.sameRoleOrdinal < u32Size ∧ ∃ k', keyTable paths arc.target = some k' ∧ k' ≤ k

/-- An arc whose source is reached has an ordinal that is too large. -/
def Overflows (arcs : Set (Arc AllocationRootKey AllocId AllocationPathPart)) : Prop :=
  ∃ arc ∈ arcs, (∀ id, arc.source = .inr id → Reachable arcs id) ∧
    u32Size ≤ arc.label.sameRoleOrdinal

/-- A measure of the tables that decreases as an entry is lowered. -/
def Decreases (arcs : Set (Arc AllocationRootKey AllocId AllocationPathPart))
    (μ : (AllocId → Option (WalkKey AllocationRootKey AllocationPathPart)) → Nat) : Prop :=
  ∀ T arc k, Traced arcs T → arc ∈ arcs → candidate T arc = some k →
    (∀ old, T arc.target = some old → k < old) →
    μ (Function.update T arc.target (some k)) < μ T

variable {μ : (AllocId → Option (WalkKey AllocationRootKey AllocationPathPart)) → Nat}

theorem relaxFact_step (hvalid : ValidFacts reader facts)
    (hμ : Decreases (allocationArcs reader facts) μ) (hsplit : facts = before ++ fact :: after)
    (state : AllocationPaths × Bool) (ht : Tracked reader facts state.1) :
    (relaxFact reader facts state (fact, before.length) = .error .tooManyNodes ∧
      Overflows (allocationArcs reader facts)) ∨
    (relaxFact reader facts state (fact, before.length) = .ok state ∧
      ∀ arc, FactArc reader before fact arc → Idle state.1 arc) ∨
    ∃ paths, relaxFact reader facts state (fact, before.length) = .ok (paths, true) ∧
      Tracked reader facts paths ∧ μ (keyTable paths) < μ (keyTable state.1) := by
  have hmem : fact ∈ facts := by simp [hsplit]
  cases hto : fact.toNode with
  | other node =>
    refine .inr (.inl ⟨relaxFact_of_other hto, fun arc harc => ?_⟩)
    cases hto.symm.trans harc.target
  | allocation target =>
    obtain ⟨arc, harc⟩ := hvalid.exists_arc before hmem hto
    have hin : arc ∈ allocationArcs reader facts := ⟨before, fact, after, hsplit, harc⟩
    rcases relaxFact_cases hvalid hsplit harc state with ⟨hnone, hrun⟩ | ⟨key, hkey, hrun⟩
    · refine .inr (.inl ⟨hrun, fun arc' harc' k hk => ?_⟩)
      rw [← harc.unique harc', hnone] at hk
      cases hk
    · rw [hrun]
      by_cases hfits : arc.label.sameRoleOrdinal < u32Size
      · rw [if_pos hfits]
        cases hchanges : (lowerPath arc.target key state.1).2 with
        | false =>
          rw [lowerPath_of_unchanged hchanges, Bool.or_false]
          refine .inr (.inl ⟨rfl, fun arc' harc' k hk => ?_⟩)
          rw [← harc.unique harc'] at hk ⊢
          obtain rfl := Option.some.inj (hkey.symm.trans hk)
          refine ⟨hfits, ?_⟩
          by_contra hno
          refine Bool.false_ne_true (hchanges.symm.trans (lowerPath_changes_iff_keyTable.mpr ?_))
          exact fun old hold => lt_of_not_ge fun hle => hno ⟨old, hold, hle⟩
        | true =>
          have hlt := lowerPath_changes_iff_keyTable.mp hchanges
          rw [Bool.or_true]
          refine .inr (.inr ⟨_, rfl, ⟨?_, ?_, ?_⟩, ?_⟩)
          · rw [keyTable_lowerPath hchanges]
            exact ht.traced.update hin hkey hlt
          · rw [map_fst_lowerPath]
            exact nodup_addNew ht.nodup
          · intro id hid
            rw [map_fst_lowerPath, mem_addNew] at hid
            rcases hid with hid | rfl
            · exact ht.targets id hid
            · exact ⟨fact, hmem, harc.target⟩
          · rw [keyTable_lowerPath hchanges]
            exact hμ _ _ _ ht.traced hin hkey hlt
      · rw [if_neg hfits]
        refine .inl ⟨rfl, arc, hin, fun id hid => ?_, not_lt.mp hfits⟩
        rw [candidate, hid] at hkey
        obtain ⟨k, hk, -⟩ := Option.map_eq_some_iff.mp hkey
        obtain ⟨visited, hw, -, -⟩ := ht.traced id k hk
        exact ⟨k, visited, hw⟩

/-- A round fails at an ordinal that is too large, or lowers keys, or finds that no arc lowers
any. -/
theorem relaxFacts_cases (hvalid : ValidFacts reader facts)
    (hμ : Decreases (allocationArcs reader facts) μ) (ht : Tracked reader facts paths) :
    (relaxFacts reader facts paths = .error .tooManyNodes ∧
      Overflows (allocationArcs reader facts)) ∨
    (relaxFacts reader facts paths = .ok (paths, false) ∧
      ∀ arc ∈ allocationArcs reader facts, Idle paths arc) ∨
    ∃ paths', relaxFacts reader facts paths = .ok (paths', true) ∧ Tracked reader facts paths' ∧
      μ (keyTable paths') < μ (keyTable paths) := by
  have hround :=
    foldlM_cases (f := relaxFact reader facts) (l := facts.zipIdx) (s := (paths, false))
    (E := fun e => e = .tooManyNodes ∧ Overflows (allocationArcs reader facts))
    (P := fun done state => Tracked reader facts state.1 ∧
      (state.2 = false → state.1 = paths ∧
        ∀ before fact after, done.map Prod.fst = before ++ fact :: after →
        ∀ arc, FactArc reader before fact arc → Idle paths arc) ∧
      (state.2 = true → μ (keyTable state.1) < μ (keyTable paths))) ?_ ?_
  · rcases hround with ⟨e, hrun, rfl, hover⟩ | ⟨⟨paths', changed⟩, hrun, ht', hidle, hless⟩
    · exact .inl ⟨hrun, hover⟩
    · cases changed with
      | false =>
        obtain ⟨rfl, hidle⟩ := hidle rfl
        refine .inr (.inl ⟨hrun, fun arc harc => ?_⟩)
        obtain ⟨before, fact, after, hsplit, harc⟩ := harc
        exact hidle before fact after (by simpa using hsplit) arc harc
      | true => exact .inr (.inr ⟨paths', hrun, ht', hless rfl⟩)
  · rintro done ⟨fact, i⟩ rest ⟨now, changed⟩ hl ⟨hnow, hidle, hless⟩
    have hsplit : facts = done.map Prod.fst ++ fact :: rest.map Prod.fst := by
      rw [← zipIdx_map_fst 0 facts, hl, map_append, map_cons]
    have hi : i = (done.map Prod.fst).length := by
      have hentry : facts.zipIdx[done.length]? = some (fact, i) := by simp [hl]
      rw [getElem?_zipIdx] at hentry
      obtain ⟨_, -, heq⟩ := Option.map_eq_some_iff.mp hentry
      simpa [eq_comm] using (Prod.mk.inj heq).2
    rw [hi]
    rcases relaxFact_step hvalid hμ hsplit (now, changed) hnow with
      ⟨hrun, hover⟩ | ⟨hrun, hfact⟩ | ⟨paths', hrun, ht', hlower⟩
    · exact .inl ⟨_, hrun, rfl, hover⟩
    · refine .inr ⟨_, hrun, hnow, fun hchanged => ?_, hless⟩
      obtain ⟨rfl, hidle⟩ := hidle hchanged
      refine ⟨rfl, fun before fact' after heq => ?_⟩
      rw [map_append, map_singleton] at heq
      -- the fact is the last one or one of those before
      rcases eq_nil_or_concat after with rfl | ⟨after, last, rfl⟩
      · obtain ⟨rfl, hlast⟩ := append_inj' heq rfl
        obtain rfl := (List.cons.inj hlast).1
        exact hfact
      · rw [concat_eq_append, ← cons_append, ← append_assoc] at heq
        exact hidle before fact' after (append_inj' heq rfl).1
    · refine .inr ⟨_, hrun, ht', nofun, fun _ => ?_⟩
      cases changed with
      | false => exact (hidle rfl).1 ▸ hlower
      | true => exact hlower.trans (hless rfl)
  · exact ⟨ht, fun _ => ⟨rfl, fun before fact after h => by simp at h⟩, fun h => by cases h⟩

/-! ## The loop -/

/-- The loop ends, with an error for an ordinal that is too large or with a table that no arc can
lower. -/
theorem untilStable_relaxFacts (hvalid : ValidFacts reader facts) :
    ∃ rounds, (Overflows (allocationArcs reader facts) ∧ ∀ limit, rounds ≤ limit →
        untilStable (relaxFacts reader facts) limit [] = some (.error .tooManyNodes)) ∨
      ∃ paths, Tracked reader facts paths ∧ (∀ arc ∈ allocationArcs reader facts, Idle paths arc) ∧
        ∀ limit, rounds ≤ limit →
          untilStable (relaxFacts reader facts) limit [] = some (.ok paths) := by
  obtain ⟨μ, hμ⟩ := exists_measure (finite_allocationArcs reader facts)
  have hstart : Tracked reader facts [] :=
    ⟨nofun, nodup_nil, nofun⟩
  have hstep : ∀ s t, Tracked reader facts s → relaxFacts reader facts s = .ok (t, true) →
      Tracked reader facts t ∧ μ (keyTable t) < μ (keyTable s) := fun s t hs hrun => by
    rcases relaxFacts_cases hvalid hμ hs with ⟨herror, -⟩ | ⟨hok, -⟩ | ⟨t', hok, ht', hlt⟩
    · cases herror.symm.trans hrun
    · cases hok.symm.trans hrun
    · cases hok.symm.trans hrun
      exact ⟨ht', hlt⟩
  obtain ⟨rounds, hend⟩ := untilStable_total (fun paths => μ (keyTable paths)) hstep hstart
  refine ⟨rounds, hend.imp ?_ ?_⟩
  · rintro ⟨t, e, ht, hrun, hloop⟩
    rcases relaxFacts_cases hvalid hμ ht with ⟨herror, hover⟩ | ⟨hok, -⟩ | ⟨_, hok, -⟩
    · cases herror.symm.trans hrun
      exact ⟨hover, hloop⟩
    · cases hok.symm.trans hrun
    · cases hok.symm.trans hrun
  · rintro ⟨t, t', ht, hrun, hloop⟩
    rcases relaxFacts_cases hvalid hμ ht with ⟨herror, -⟩ | ⟨hok, hidle⟩ | ⟨_, hok, -⟩
    · cases herror.symm.trans hrun
    · obtain ⟨rfl, -⟩ := Prod.mk.inj (Except.ok.inj (hok.symm.trans hrun))
      exact ⟨t, ht, hidle, hloop⟩
    · cases hok.symm.trans hrun

theorem Tracked.settled (ht : Tracked reader facts paths)
    (hidle : ∀ arc ∈ allocationArcs reader facts, Idle paths arc) :
    Settled (allocationArcs reader facts) (keyTable paths) :=
  ht.traced.settled fun arc harc k hk => (hidle arc harc k hk).2

/-- A table that no arc can lower leaves no ordinal that is too large. -/
theorem Tracked.not_overflows (ht : Tracked reader facts paths)
    (hidle : ∀ arc ∈ allocationArcs reader facts, Idle paths arc) :
    ¬Overflows (allocationArcs reader facts) := by
  rintro ⟨arc, harc, hsource, hlarge⟩
  have hcandidate : ∃ k, candidate (keyTable paths) arc = some k := by
    cases hs : arc.source with
    | inl root => exact ⟨_, by rw [candidate, hs]⟩
    | inr id =>
      obtain ⟨k, hk⟩ := (ht.settled hidle).isSome_iff.mpr (hsource id hs)
      refine ⟨k.extend arc.label, ?_⟩
      rw [candidate, hs]
      exact congrArg (Option.map (WalkKey.extend · arc.label)) hk
  obtain ⟨k, hk⟩ := hcandidate
  exact (hidle arc harc k hk).1.not_ge hlarge

end ItemDependencies
