import ItemDependencies.Retention.ReachabilityInvariant

/-!
# Closing the reachability closure

`close` brings the sites up to date and then empties its three queues.  It keeps
the invariant; when it returns no queue holds anything, so that the reachable
nodes are a least fixed point of the edges.  The only error that it can return
is an edge that could fire but for a site that is retained in part.
-/

namespace ItemDependencies

open Library List Function

namespace CompilerReachabilityClosure

variable {index : CompilerReachabilityIndex} {c c' : CompilerReachabilityClosure}
variable {nodes : Set GraphNode} {dirty late : Finset Nat} {queue : List Nat}

/-! ## Sites -/

/-- The number of partial sites of an edge after one of its sites has changed its state. -/
def nextPartial (previous state partialSites : Nat) : Nat :=
  (if previous = 1 then partialSites - 1 else partialSites) + if state = 1 then 1 else 0

/-- Telling some edges about a new state of their site queues them. -/
theorem foldlM_updateEdgeSite (previous state : Nat) {edges : List Nat} (hn : edges.Nodup)
    (c : CompilerReachabilityClosure)
    (hpos : previous = 1 → ∀ e ∈ edges, c.edgePartialSites e ≠ 0) :
    ∃ c', edges.foldlM (updateEdgeSite previous state) c = .ok c' ∧
      Queued edges
        { c with
          edgePartialSites := fun e =>
            if e ∈ edges then nextPartial previous state (c.edgePartialSites e)
            else c.edgePartialSites e
          edgeSiteOpen := fun e => c.edgeSiteOpen e || (decide (e ∈ edges) && state == 2) } c' := by
  induction edges generalizing c with
  | nil => exact ⟨c, rfl, by simpa using Queued.nil c⟩
  | cons e edges ih =>
    obtain ⟨he, hn⟩ := nodup_cons.mp hn
    -- the edge is told first and queued then
    set told : CompilerReachabilityClosure :=
      { c with
        edgePartialSites := Function.update c.edgePartialSites e
          (nextPartial previous state (c.edgePartialSites e))
        edgeSiteOpen := fun d => c.edgeSiteOpen d || (decide (d = e) && state == 2) } with htold
    have hstep : updateEdgeSite previous state c e = .ok (told.queueEdge e) := by
      have hno : ¬(previous = 1 ∧ c.edgePartialSites e = 0) := fun h => hpos h.1 e (by simp) h.2
      have hopen : (fun d => c.edgeSiteOpen d || (decide (d = e) && state == 2)) =
          if state = 2 then Function.update c.edgeSiteOpen e true else c.edgeSiteOpen := by
        funext d
        by_cases hs : state = 2 <;> by_cases hd : d = e <;> simp [hs, hd]
      unfold updateEdgeSite
      simp only [hno, if_false, htold, nextPartial, hopen]
      by_cases hp : previous = 1 <;> by_cases h1 : state = 1 <;> by_cases h2 : state = 2 <;>
        simp_all [pure, Except.pure]
    have hq := Queued.queueEdge told e
    have hpos' : previous = 1 → ∀ d ∈ edges, (told.queueEdge e).edgePartialSites d ≠ 0 := by
      intro hp d hd
      rw [hq.frame]
      have hde : d ≠ e := fun h => he (h ▸ hd)
      simpa [htold, hde] using hpos hp d (by simp [hd])
    obtain ⟨c', hrun, hqs⟩ := ih hn _ hpos'
    refine ⟨c', by rw [foldlM_cons, hstep]; exact hrun, ?_⟩
    have hmove : ∀ P O, { told.queueEdge e with edgePartialSites := P, edgeSiteOpen := O } =
        CompilerReachabilityClosure.queueEdge
          { c with edgePartialSites := P, edgeSiteOpen := O } e := by
      intro P O
      unfold queueEdge
      simp only [htold]
      split <;> rfl
    rw [hmove] at hqs
    have hP : (fun d => if d ∈ edges then
          nextPartial previous state ((told.queueEdge e).edgePartialSites d)
        else (told.queueEdge e).edgePartialSites d) =
        fun d => if d ∈ e :: edges then nextPartial previous state (c.edgePartialSites d)
          else c.edgePartialSites d := by
      rw [hq.frame]
      funext d
      by_cases hde : d = e
      · subst hde
        simp [htold, he]
      · simp [htold, hde]
    have hO : (fun d => (told.queueEdge e).edgeSiteOpen d || (decide (d ∈ edges) && state == 2)) =
        fun d => c.edgeSiteOpen d || (decide (d ∈ e :: edges) && state == 2) := by
      rw [hq.frame]
      funext d
      by_cases hde : d = e
      · subst hde
        simp [htold, he]
      · simp [htold, hde]
    rw [hP, hO] at hqs
    exact (Queued.queueEdge _ e).append hqs

/-- An edge of a partial site counts it. -/
theorem GateInv.partial_pos (h : GateInv index c) {e s : Nat} (he : e ∈ siteEdges index s)
    (hs : c.siteStates s = 1) : c.edgePartialSites e ≠ 0 := by
  rw [h.partialCount]
  refine (countP_pos_iff.mpr ⟨s, ?_, by simp [he, hs]⟩).ne'
  rw [mem_range]
  by_contra hlt
  simp [siteEdges, getElem?_eq_none_iff.mpr (Nat.le_of_not_lt hlt)] at he

/-- Bringing one site up to date cannot fail. -/
theorem InvAt.updateSite (hw : index.WellFormed) {s : Nat}
    (h : InvAt index nodes (insert s dirty) late c.pendingEdges c) :
    ∃ c', CompilerReachabilityClosure.updateSite index c s = .ok c' ∧
      InvAt index nodes dirty late c'.pendingEdges c' ∧
      c'.retainedSources = c.retainedSources ∧ c'.dirtySites = c.dirtySites ∧
      c'.reachableNodes = c.reachableNodes := by
  set state := siteState (c.siteRetainedOwners s) (siteOwners index s).length with hstate
  have hle : ¬(siteOwners index s).length < c.siteRetainedOwners s :=
    Nat.not_lt.mpr (h.site.count_le s)
  by_cases heq : state = c.siteStates s
  · refine ⟨c, ?_, ⟨⟨h.site.count, fun s' hs' => ?_, h.site.le_current⟩, h.gate, h.component,
      h.pending, h.reach⟩, rfl, rfl, rfl⟩
    · unfold CompilerReachabilityClosure.updateSite
      simp [hle, ← hstate, heq, pure, Except.pure]
    · by_cases hss : s' = s
      · rw [hss, ← heq]
      · exact h.site.current s' (by simp [hss, hs'])
  have hlt : c.siteStates s < state := lt_of_le_of_ne (h.site.le_current s) (Ne.symm heq)
  have hstate_le : state ≤ 2 := by
    rw [hstate]
    unfold siteState
    split_ifs <;> omega
  obtain ⟨c', hrun, hq⟩ := foldlM_updateEdgeSite (c.siteStates s) state
    (hw.siteEdges_nodup s) { c with siteStates := Function.update c.siteStates s state }
    fun hp e he => h.gate.partial_pos he hp
  refine ⟨c', ?_, ?_, by rw [hq.frame], by rw [hq.frame], by rw [hq.frame]⟩
  · unfold CompilerReachabilityClosure.updateSite
    simp only [hle, if_false, ← hstate, heq]
    exact hrun
  have hflags := hq.flags h.pending.flags
  have hnodup := hq.nodup h.pending.flags h.pending.nodup
  have hqueued := hq.queued h.pending.flags
  have hkeeps := hq.keeps
  have honly := hq.only
  have hframe := hq.frame
  rw [hframe]
  refine ⟨⟨h.site.count, fun s' hs' => ?_, fun s' => ?_⟩, ⟨fun e facts he => ?_, fun e => ?_⟩,
    { h.component with }, ⟨hflags, hnodup, fun e he => ?_⟩,
    ⟨h.reach.nodes_subset, fun R hR hc => ?_, h.reach.fired, fun e facts he hn hen => ?_⟩⟩
  · by_cases hss : s' = s
    · subst hss
      simp [hstate]
    · simpa [hss] using h.site.current s' (by simp [hss, hs'])
  · by_cases hss : s' = s
    · subst hss
      simp [hstate]
    · simpa [hss] using h.site.le_current s'
  · simp only [Bool.or_eq_true, Bool.and_eq_true, decide_eq_true_eq, beq_iff_eq]
    rw [h.gate.open_iff e facts he]
    constructor
    · rintro ((hu | ⟨s', hs', h2⟩) | ⟨hes, h2⟩)
      · exact Or.inl hu
      · refine Or.inr ⟨s', hs', ?_⟩
        have hss : s' ≠ s := by
          rintro rfl
          omega
        simpa [hss] using h2
      · exact Or.inr ⟨s, hes, by simp [h2]⟩
    · rintro (hu | ⟨s', hs', h2⟩)
      · exact Or.inl (Or.inl hu)
      · by_cases hss : s' = s
        · subst hss
          exact Or.inr ⟨hs', by simpa using h2⟩
        · exact Or.inl (Or.inr ⟨s', hs', by simpa [hss] using h2⟩)
  · -- only the site `s` may enter or leave the partial sites of an edge
    have hagree := countP_agree (nodup_range (n := index.sourceSites.length)) (a := s)
      (p := fun s' => decide (e ∈ siteEdges index s') &&
        Function.update c.siteStates s state s' == 1)
      (q := fun s' => decide (e ∈ siteEdges index s') && c.siteStates s' == 1)
      (fun s' _ hss => by simp [hss])
    have hold := h.gate.partialCount e
    by_cases hes : e ∈ siteEdges index s
    · have hsl : s ∈ List.range index.sourceSites.length := by
        rw [mem_range]
        by_contra hsl
        simp [siteEdges, getElem?_eq_none_iff.mpr (Nat.le_of_not_lt hsl)] at hes
      simp only [hes, decide_true, Bool.true_and, hsl, true_and, beq_iff_eq, update_self] at hagree
      simp only [hes, if_true, nextPartial]
      have hpos := fun hs1 => h.gate.partial_pos (c := c) hes hs1
      by_cases hp : c.siteStates s = 1
      · have h1 : state ≠ 1 := by omega
        simp only [hp, if_true, h1, if_false] at hagree ⊢
        have := hpos hp
        omega
      · simp only [hp, if_false] at hagree ⊢
        omega
    · simp only [hes, decide_false, Bool.false_and, Bool.false_eq_true, and_false,
        if_false] at hagree ⊢
      omega
  · rcases honly e he with he | he
    · exact h.pending.bound e he
    · exact hw.siteEdges_lt s e he
  · refine h.reach.least R hR (hc.mono (fun e he => ?_) fun k hk => hk)
    simp [he]
  · by_cases hes : e ∈ siteEdges index s
    · exact (hqueued e hes).imp_right Or.inl
    · have hen' : c.Woken e facts := ⟨by simpa [hes] using hen.1, hen.2⟩
      rcases h.reach.waiting e facts he hn hen' with hf | hw | hw
      · exact Or.inl hf
      · exact Or.inr (Or.inl (hkeeps e hw))
      · exact Or.inr (Or.inr hw)

/-- Bringing all dirty sites up to date. -/
theorem InvAt.updateSites (hw : index.WellFormed) (sites : List Nat)
    (h : InvAt index nodes sites.toFinset late c.pendingEdges c) :
    ∃ c', sites.foldlM (CompilerReachabilityClosure.updateSite index) c = .ok c' ∧
      InvAt index nodes ∅ late c'.pendingEdges c' ∧
      c'.retainedSources = c.retainedSources ∧ c'.dirtySites = c.dirtySites ∧
      c'.reachableNodes = c.reachableNodes := by
  induction sites generalizing c with
  | nil => exact ⟨c, rfl, by simpa using h, rfl, rfl, rfl⟩
  | cons s sites ih =>
    rw [toFinset_cons] at h
    obtain ⟨c₁, hrun, hI, h₁, h₂, h₃⟩ := h.updateSite hw
    obtain ⟨c₂, hrun₂, hI₂, h₁', h₂', h₃'⟩ := ih hI
    refine ⟨c₂, ?_, hI₂, h₁'.trans h₁, h₂'.trans h₂, h₃'.trans h₃⟩
    rw [foldlM_cons, hrun]
    exact hrun₂

/-! ## Components -/

/-- Some components wait for one parent less, and are queued if they miss nothing more. -/
structure CountedParents (ks : List Nat) (c c' : CompilerReachabilityClosure) : Prop where
  frame : c' = { c with
    componentMissingParents := c'.componentMissingParents
    pendingComponents := c'.pendingComponents }
  missing : ∀ k, c'.componentMissingParents k =
    c.componentMissingParents k - if k ∈ ks then 1 else 0
  keeps : ∀ k ∈ c.pendingComponents, k ∈ c'.pendingComponents
  only : ∀ k ∈ c'.pendingComponents, k ∈ c.pendingComponents ∨ k ∈ ks
  queued : ∀ k ∈ ks, c.componentSurvives k = false → c.componentMissingSources k = 0 →
    c'.componentMissingParents k = 0 → k ∈ c'.pendingComponents
  length : c'.pendingComponents.length ≤ c.pendingComponents.length + ks.length

theorem length_queueComponentIfReady (c : CompilerReachabilityClosure) (k : Nat) :
    (c.queueComponentIfReady k).pendingComponents.length ≤ c.pendingComponents.length + 1 := by
  unfold queueComponentIfReady
  split <;> simp

theorem CountedParents.foldl {ks : List Nat} (hks : ks.Nodup) (c : CompilerReachabilityClosure) :
    CountedParents ks c (ks.foldl countParent c) := by
  induction ks generalizing c with
  | nil =>
    exact ⟨rfl, by simp, fun _ h => h, fun _ h => Or.inl h, fun _ h => absurd h not_mem_nil, le_rfl⟩
  | cons a ks ih =>
    obtain ⟨ha, hks⟩ := nodup_cons.mp hks
    have h := ih hks (c.countParent a)
    rw [foldl_cons]
    set told : CompilerReachabilityClosure :=
      { c with
        componentMissingParents := Function.update c.componentMissingParents a
          (c.componentMissingParents a - 1) } with htold
    have hq : QueuedComponents [a] told (c.countParent a) := QueuedComponents.foldl [a] told
    have hlen : (c.countParent a).pendingComponents.length ≤ c.pendingComponents.length + 1 :=
      length_queueComponentIfReady told a
    refine ⟨?_, fun k => ?_, fun k hk => h.keeps k (hq.keeps k hk), fun k hk => ?_,
      fun k hk h₁ h₂ h₃ => ?_, ?_⟩
    · rw [h.frame, hq.frame]
    · rw [h.missing, hq.frame]
      by_cases hka : k = a
      · subst hka
        simp [htold, ha]
      · simp [htold, hka]
    · rcases h.only k hk with hk | hk
      · rcases hq.only k hk with hk | hk
        · exact Or.inl hk
        · exact Or.inr (by simp [mem_singleton.mp hk])
      · exact Or.inr (mem_cons_of_mem _ hk)
    · rcases mem_cons.mp hk with rfl | hk
      · refine h.keeps k (hq.queued k (by simp) h₁ h₂ ?_)
        have hframe : (c.countParent k).componentMissingParents = told.componentMissingParents := by
          rw [hq.frame]
        rw [h.missing, hframe] at h₃
        simpa [ha] using h₃
      · refine h.queued k hk ?_ ?_ h₃
        · rw [hq.frame]
          exact h₁
        · rw [hq.frame]
          exact h₂
    · have := h.length
      simp only [length_cons]
      omega

/-- Work that is left for the components: those in the queue, and the components below those
that do not survive yet. -/
def componentsLeft (index : CompilerReachabilityIndex) (c : CompilerReachabilityClosure) : Nat :=
  c.pendingComponents.length +
    ∑ k ∈ (Finset.range index.components.length).filter (fun k => c.componentSurvives k = false),
      (componentChildren index k).length

/-- What closing components leaves alone. -/
structure ComponentsClosed (c c' : CompilerReachabilityClosure) : Prop where
  retained : c'.retainedSources = c.retainedSources
  dirty : c'.dirtySites = c.dirtySites
  reachable : c'.reachableNodes = c.reachableNodes
  pendingNodes : c'.pendingNodes = c.pendingNodes
  fired : c'.edgeFired = c.edgeFired

theorem ComponentsClosed.refl (c : CompilerReachabilityClosure) : ComponentsClosed c c :=
  ⟨rfl, rfl, rfl, rfl, rfl⟩

theorem ComponentsClosed.trans {c'' : CompilerReachabilityClosure} (h : ComponentsClosed c c')
    (h' : ComponentsClosed c' c'') : ComponentsClosed c c'' :=
  ⟨h'.retained.trans h.retained, h'.dirty.trans h.dirty, h'.reachable.trans h.reachable,
    h'.pendingNodes.trans h.pendingNodes, h'.fired.trans h.fired⟩

/-- Taking one component from the queue keeps the invariant and takes some of the work away. -/
theorem InvAt.closeComponent (hw : index.WellFormed)
    (h : InvAt index nodes dirty ∅ c.pendingEdges c) (hb : c.pendingComponents ≠ []) :
    InvAt index nodes dirty ∅ (c.closeComponent index).pendingEdges (c.closeComponent index) ∧
      componentsLeft index (c.closeComponent index) < componentsLeft index c ∧
      ComponentsClosed c (c.closeComponent index) := by
  obtain ⟨k, pending, hp⟩ := exists_cons_of_ne_nil hb
  have hk : k < index.components.length := h.component.bound k (by simp [hp])
  by_cases hready : c.componentSurvives k = false ∧ c.componentMissingSources k = 0 ∧
      c.componentMissingParents k = 0
  · obtain ⟨hs, hm, hmp⟩ := hready
    set survived : CompilerReachabilityClosure :=
      { c with
        pendingComponents := pending
        componentSurvives := Function.update c.componentSurvives k true } with hsurvived
    have hq := Queued.foldl (targetEdges index k) survived
    set opened := (targetEdges index k).foldl queueEdge survived with hopened
    have hcount := CountedParents.foldl (hw.children_nodup k) opened
    have he : c.closeComponent index = (componentChildren index k).foldl countParent opened := by
      simp [CompilerReachabilityClosure.closeComponent, hp, hs, hm, hmp, hopened, hsurvived]
    rw [← he] at hcount
    generalize c.closeComponent index = last at he hcount
    have hflags := hq.flags h.pending.flags
    have hnodup := hq.nodup h.pending.flags h.pending.nodup
    have hqueued := hq.queued h.pending.flags
    have hkeeps := hq.keeps
    have honly := hq.only
    have hframe := hq.frame
    have hcframe := hcount.frame
    have hsurv : last.componentSurvives = Function.update c.componentSurvives k true := by
      rw [hcframe, hframe]
    have hmissing : ∀ d, last.componentMissingParents d =
        c.componentMissingParents d - if d ∈ componentChildren index k then 1 else 0 := by
      intro d
      rw [hcount.missing, hframe]
    have hkk :
        k ∉ componentParents index k := fun hkp => absurd (hw.parents_lt k k hkp).1 (by omega)
    have hopenpending : opened.pendingComponents = pending := by rw [hframe]
    have hlen := hcount.length
    have hckeeps := hcount.keeps
    have hconly := hcount.only
    have hcqueued := hcount.queued
    rw [hopenpending] at hlen hckeeps hconly
    have hlast : last = { c with
        componentSurvives := Function.update c.componentSurvives k true
        componentMissingParents := last.componentMissingParents
        pendingComponents := last.pendingComponents
        edgePending := opened.edgePending
        pendingEdges := opened.pendingEdges } := by
      rw [hcframe, hframe]
    refine ⟨?_, ?_, ?_⟩
    · rw [hlast]
      refine ⟨{ h.site with },
        { h.gate with }, ⟨h.component.sources, fun d => ?_, fun d hd => ?_,
          fun d hd h₁ h₂ h₃ => ?_, fun d hd => ?_⟩, ⟨hflags, hnodup, fun e hee => ?_⟩,
        ⟨h.reach.nodes_subset, fun R hR hc => ?_, h.reach.fired, fun e facts hee hn hen => ?_⟩⟩
      · have := countP_missing (hw.parents_nodup d) id injective_id hs
        simp only [id] at this
        rw [hmissing, this, ← h.component.parents]
        simp only [hw.mem_children]
      · have hd' : c.componentMissingSources d = 0 ∧ c.componentMissingParents d = 0 := by
          by_cases hdk : d = k
          · exact hdk ▸ ⟨hm, hmp⟩
          · exact h.component.sound d (by simpa [hdk] using hd)
        exact ⟨hd'.1, by rw [hmissing, hd'.2, Nat.zero_sub]⟩
      · refine Or.inl ?_
        have hdk : d ≠ k := by
          rintro rfl
          simp at h₁
        simp only [update_of_ne hdk] at h₁
        by_cases hdc : d ∈ componentChildren index k
        · refine hcqueued d hdc ?_ ?_ h₃
          · rw [hframe]
            simpa [hsurvived, hdk] using h₁
          · rw [hframe]
            exact h₂
        · have h₃' : c.componentMissingParents d = 0 := by
            have := hmissing d
            simp only [hdc, if_false, Nat.sub_zero] at this
            exact this ▸ h₃
          rcases h.component.ready d hd h₁ h₂ h₃' with hpd | hl
          · rw [hp] at hpd
            exact hckeeps d ((mem_cons.mp hpd).resolve_left hdk)
          · simp at hl
      · rcases hconly d hd with hd | hd
        · exact h.component.bound d (by simp [hp, hd])
        · by_contra hlt
          have := (hw.mem_children k d).mp hd
          simp [componentParents, getElem?_eq_none_iff.mpr (Nat.le_of_not_lt hlt)] at this
      · rcases honly e hee with hee | hee
        · exact h.pending.bound e hee
        · obtain ⟨facts, hfacts, -⟩ := (hw.mem_targetEdges k e).mp hee
          exact (List.getElem?_eq_some_iff.mp hfacts).1
      · refine h.reach.least R hR (hc.mono (fun e he => he) fun d hd => ?_)
        by_cases hdk : d = k
        · simp [hdk]
        · simpa [hdk] using hd
      · by_cases hek : facts.targetComponent = some k
        · have := (hw.mem_targetEdges k e).mpr ⟨facts, hee, hek⟩
          exact (hqueued e this).imp_right Or.inl
        · have hen' : c.Woken e facts := by
            refine ⟨hen.1, fun d hd => ?_⟩
            have hdk : d ≠ k := fun hdk => hek (by rw [← hdk]; exact hd)
            simpa [hdk] using hen.2 d hd
          rcases h.reach.waiting e facts hee hn hen' with hf | hq' | hn'
          · exact Or.inl hf
          · exact Or.inr (Or.inl (hkeeps e hq'))
          · exact Or.inr (Or.inr hn')
    · have hset : (Finset.range index.components.length).filter
            (fun d => last.componentSurvives d = false) =
          ((Finset.range index.components.length).filter
            fun d => c.componentSurvives d = false).erase k := by
        ext d
        rw [hsurv]
        by_cases hdk : d = k <;> simp [hdk]
      have hmem : k ∈ (Finset.range index.components.length).filter
          fun d => c.componentSurvives d = false := by simp [hk, hs]
      have hsum := Finset.sum_erase_add _ (fun d => (componentChildren index d).length) hmem
      simp only [componentsLeft, hset, hp, length_cons]
      omega
    · constructor <;> rw [hlast]
  · have he : c.closeComponent index = { c with pendingComponents := pending } := by
      simp only [CompilerReachabilityClosure.closeComponent, hp]
      rw [if_pos]
      simp only [Bool.or_eq_true, bne_iff_ne, ne_eq]
      cases hs : c.componentSurvives k with
      | true => simp
      | false =>
        simp only [hs, true_and, not_and_or] at hready
        tauto
    rw [he]
    refine ⟨⟨{ h.site with },
      { h.gate with }, ⟨h.component.sources, h.component.parents,
        h.component.sound, fun d hd h₁ h₂ h₃ => ?_, fun d hd => ?_⟩,
      ⟨h.pending.flags, h.pending.nodup, h.pending.bound⟩,
      ⟨h.reach.nodes_subset, h.reach.least, h.reach.fired, h.reach.waiting⟩⟩, ?_,
      ⟨rfl, rfl, rfl, rfl, rfl⟩⟩
    · rcases h.component.ready d hd h₁ h₂ h₃ with hpd | hl
      · rw [hp] at hpd
        rcases mem_cons.mp hpd with rfl | hpd
        · exact absurd ⟨h₁, h₂, h₃⟩ hready
        · exact Or.inl hpd
      · exact Or.inr hl
    · exact h.component.bound d (by simp [hp, hd])
    · simp only [componentsLeft, hp, length_cons]
      omega

/-- Closing the components empties their queue. -/
theorem InvAt.closeComponents (hw : index.WellFormed)
    (h : InvAt index nodes dirty ∅ c.pendingEdges c) :
    InvAt index nodes dirty ∅ (c.closeComponents index).pendingEdges (c.closeComponents index) ∧
      (c.closeComponents index).pendingComponents = [] ∧
      ComponentsClosed c (c.closeComponents index) := by
  let P : CompilerReachabilityClosure → Prop := fun d =>
    InvAt index nodes dirty ∅ d.pendingEdges d ∧ ComponentsClosed c d
  have hne : ∀ d : CompilerReachabilityClosure, (!d.pendingComponents.isEmpty) = true →
      d.pendingComponents ≠ [] := by
    intro d hd hnil
    simp [hnil] at hd
  have hstep : ∀ d, P d → (!d.pendingComponents.isEmpty) = true → P (d.closeComponent index) := by
    intro d ⟨hI, hsame⟩ hb
    obtain ⟨hI', -, hsame'⟩ := hI.closeComponent hw (hne d hb)
    exact ⟨hI', hsame.trans hsame'⟩
  have hdec : ∀ d, P d → (!d.pendingComponents.isEmpty) = true →
      componentsLeft index (d.closeComponent index) < componentsLeft index d :=
    fun d hd hb => (hd.1.closeComponent hw (hne d hb)).2.1
  have hwork : componentsLeft index c ≤ componentWork index c := by
    have hsub : ∑ k ∈ (Finset.range index.components.length).filter
          (fun k => c.componentSurvives k = false), (componentChildren index k).length ≤
        ∑ k ∈ Finset.range index.components.length, (componentChildren index k).length :=
      Finset.sum_le_sum_of_subset (Finset.filter_subset _ _)
    unfold componentsLeft componentWork
    omega
  have hP : P c := ⟨h, ComponentsClosed.refl c⟩
  obtain ⟨hI, hsame⟩ := whileDo_induct hstep (componentWork index c) hP
  have hidle := whileDo_idle (componentsLeft index) hstep hdec (componentWork index c) hP hwork
  exact ⟨hI, by simpa [CompilerReachabilityClosure.closeComponents] using hidle, hsame⟩

/-! ## Nodes -/

/-- Queueing the edges of all pending nodes keeps the invariant. -/
theorem InvAt.closeNodes (hw : index.WellFormed) (h : InvAt index nodes dirty ∅ c.pendingEdges c) :
    InvAt index nodes dirty ∅ (c.closeNodes index).pendingEdges (c.closeNodes index) ∧
      (c.closeNodes index).pendingNodes = [] ∧
      (c.closeNodes index).pendingComponents = c.pendingComponents ∧
      (c.closeNodes index).retainedSources = c.retainedSources ∧
      (c.closeNodes index).dirtySites = c.dirtySites ∧
      (c.closeNodes index).reachableNodes = c.reachableNodes ∧
      (c.closeNodes index).edgeFired = c.edgeFired := by
  have he : c.closeNodes index =
      (c.pendingNodes.flatMap index.edgesByFrom).foldl queueEdge { c with pendingNodes := [] } := by
    rw [foldl_flatMap]
    rfl
  have hq := Queued.foldl (c.pendingNodes.flatMap index.edgesByFrom) { c with pendingNodes := [] }
  rw [← he] at hq
  generalize c.closeNodes index = c' at hq
  have hframe := hq.frame
  refine ⟨?_, by rw [hframe], by rw [hframe], by rw [hframe], by rw [hframe], by rw [hframe],
    by rw [hframe]⟩
  have hflags := hq.flags h.pending.flags
  have hnodup := hq.nodup h.pending.flags h.pending.nodup
  have hqueued := hq.queued h.pending.flags
  have hkeeps := hq.keeps
  have honly := hq.only
  rw [hframe]
  refine ⟨{ h.site with },
    { h.gate with }, { h.component with }, ⟨hflags, hnodup, fun e hee => ?_⟩,
    ⟨h.reach.nodes_subset, h.reach.least, h.reach.fired, fun e facts hee hn hen => ?_⟩⟩
  · rcases honly e hee with hee | hee
    · exact h.pending.bound e hee
    · obtain ⟨n, -, hn⟩ := mem_flatMap.mp hee
      obtain ⟨facts, hfacts, -⟩ := (hw.mem_edgesByFrom n e).mp hn
      exact (List.getElem?_eq_some_iff.mp hfacts).1
  · rcases h.reach.waiting e facts hee hn hen with hf | hw' | hw'
    · exact Or.inl hf
    · exact Or.inr (Or.inl (hkeeps e hw'))
    · have := (hw.mem_edgesByFrom facts.fromNode e).mpr ⟨facts, hee, rfl⟩
      exact (hqueued e (mem_flatMap.mpr ⟨_, hw', this⟩)).imp_right Or.inl

/-! ## Edges -/

/-- Number of edges that have not fired. -/
def unfired (index : CompilerReachabilityIndex) (c : CompilerReachabilityClosure) : Nat :=
  (List.range index.edges.length).countP fun e => !c.edgeFired e

/-- What a whole `close` adds: nodes that become reachable are in the lane of the caller, and the
caller gains only reachable nodes. -/
structure Closed (s s' : CompilerReachabilityClosure × Lane GraphNode) : Prop where
  lane : s.2.Extends s'.2
  reachable : ∀ n ∈ s'.1.reachableNodes, n ∈ s.1.reachableNodes ∨ n ∈ s'.2.required
  required : ∀ n ∈ s'.2.required, n ∈ s.2.required ∨ n ∈ s'.1.reachableNodes
  grows : s.1.reachableNodes ⊆ s'.1.reachableNodes
  retained : s'.1.retainedSources = s.1.retainedSources
  dirty : s'.1.dirtySites = s.1.dirtySites

theorem Closed.trans {s s' s'' : CompilerReachabilityClosure × Lane GraphNode}
    (h : Closed s s') (h' : Closed s' s'') : Closed s s'' where
  lane := h.lane.trans h'.lane
  reachable n hn := by
    rcases h'.reachable n hn with hn | hn
    · exact (h.reachable n hn).imp_right fun hn => h'.lane.subset hn
    · exact Or.inr hn
  required n hn := by
    rcases h'.required n hn with hn | hn
    · exact (h.required n hn).imp_right fun hn => h'.grows hn
    · exact Or.inr hn
  grows := h.grows.trans h'.grows
  retained := h'.retained.trans h.retained
  dirty := h'.dirty.trans h.dirty

/-- What following edges adds. -/
structure EdgesClosed (index : CompilerReachabilityIndex)
    (s s' : CompilerReachabilityClosure × Lane GraphNode) : Prop extends Closed s s' where
  components : s'.1.pendingComponents = s.1.pendingComponents
  edges : s'.1.pendingEdges = s.1.pendingEdges
  unfired : unfired index s'.1 ≤ unfired index s.1
  progress : s'.1.pendingNodes ≠ s.1.pendingNodes →
    CompilerReachabilityClosure.unfired index s'.1 < CompilerReachabilityClosure.unfired index s.1

theorem EdgesClosed.refl (s : CompilerReachabilityClosure × Lane GraphNode) :
    EdgesClosed index s s :=
  ⟨⟨Lane.Extends.refl _, fun _ h => Or.inl h, fun _ h => Or.inl h, subset_rfl, rfl, rfl⟩, rfl, rfl,
    le_rfl, fun h => absurd rfl h⟩

theorem EdgesClosed.trans {s s' s'' : CompilerReachabilityClosure × Lane GraphNode}
    (h : EdgesClosed index s s') (h' : EdgesClosed index s' s'') : EdgesClosed index s s'' where
  __ := h.toClosed.trans h'.toClosed
  components := h'.components.trans h.components
  edges := h'.edges.trans h.edges
  unfired := h'.unfired.trans h.unfired
  progress hne := by
    by_cases hmid : s'.1.pendingNodes = s.1.pendingNodes
    · exact (h'.progress (by rwa [hmid])).trans_le h.unfired
    · exact h'.unfired.trans_lt (h.progress hmid)

/-- An edge that cannot fire only because one of its sites is retained in part. -/
def PartialSite (index : CompilerReachabilityIndex) (c : CompilerReachabilityClosure) : Prop :=
  ∃ e facts, index.edges[e]? = some facts ∧ facts.fromNode ∈ c.reachableNodes ∧
    (∀ k ∈ facts.targetComponent, c.componentSurvives k = true) ∧
    c.edgeSiteOpen e = false ∧ c.edgePartialSites e ≠ 0

/-- Taking one edge from the queue keeps the invariant. -/
theorem InvAt.closeEdge {e : Nat} {rest : List Nat}
    (h : InvAt index nodes dirty ∅ (e :: rest) c) (lane : Lane GraphNode) :
    (CompilerReachabilityClosure.closeEdge index (c, lane) e = .error .invalidGraph ∧
      PartialSite index c) ∨
    ∃ s', CompilerReachabilityClosure.closeEdge index (c, lane) e = .ok s' ∧
      InvAt index nodes dirty ∅ rest s'.1 ∧ EdgesClosed index (c, lane) s' := by
  obtain ⟨facts, hfacts⟩ : ∃ facts, index.edges[e]? = some facts :=
    ⟨_, getElem?_eq_getElem (h.pending.bound e (by simp))⟩
  have helt : e < index.edges.length := h.pending.bound e (by simp)
  obtain ⟨herest, hnodup⟩ := nodup_cons.mp h.pending.nodup
  have hflags : ∀ d, Function.update c.edgePending e false d = true ↔ d ∈ rest := by
    intro d
    by_cases hde : d = e
    · subst hde
      simp [herest]
    · simpa [hde] using h.pending.flags d
  have hbound : ∀ d ∈ rest, d < index.edges.length := fun d hd => h.pending.bound d (by simp [hd])
  -- the edge leaves the queue; it must not be one that still has to fire
  have hskip : (facts.fromNode ∈ c.reachableNodes → c.Woken e facts → c.edgeFired e = true) →
      InvAt index nodes dirty ∅ rest
        { c with edgePending := Function.update c.edgePending e false } := by
    intro hdone
    refine ⟨{ h.site with },
      { h.gate with }, { h.component with }, ⟨hflags, hnodup, hbound⟩,
      ⟨h.reach.nodes_subset, h.reach.least, h.reach.fired, fun d dfacts hd hn hen => ?_⟩⟩
    rcases h.reach.waiting d dfacts hd hn hen with hf | hw | hw
    · exact Or.inl hf
    · rcases mem_cons.mp hw with rfl | hw
      · rw [hfacts] at hd
        cases hd
        exact Or.inl (hdone hn hen)
      · exact Or.inr (Or.inl hw)
    · exact Or.inr (Or.inr hw)
  have hsame : EdgesClosed index (c, lane)
      ({ c with edgePending := Function.update c.edgePending e false }, lane) :=
    { (EdgesClosed.refl (c, lane) : EdgesClosed index _ _) with }
  unfold CompilerReachabilityClosure.closeEdge
  by_cases hfired : c.edgeFired e = true
  · exact Or.inr ⟨_, by simp [hfired, pure, Except.pure], hskip fun _ _ => hfired, hsame⟩
  rw [Bool.not_eq_true] at hfired
  by_cases hblocked : facts.fromNode ∉ c.reachableNodes ∨
      ∃ component ∈ facts.targetComponent, c.componentSurvives component = false
  · refine Or.inr ⟨_, by simp only [hfired, hfacts, if_pos hblocked]; rfl,
      hskip fun hn hen => ?_, hsame⟩
    rcases hblocked with hno | ⟨k, hk, hs⟩
    · exact absurd hn hno
    · rw [hen.2 k hk] at hs
      cases hs
  have hfrom : facts.fromNode ∈ c.reachableNodes := by
    by_contra hno
    exact hblocked (Or.inl hno)
  have hsurv : ∀ k ∈ facts.targetComponent, c.componentSurvives k = true := by
    intro k hk
    by_contra hs
    exact hblocked (Or.inr ⟨k, hk, by simpa using hs⟩)
  cases hopen : c.edgeSiteOpen e with
  | false =>
    by_cases hpart : c.edgePartialSites e = 0
    · refine Or.inr ⟨_, by simp only [hfired, hfacts, if_neg hblocked, hopen, hpart]; rfl,
        hskip fun hn hen => ?_, hsame⟩
      rcases hen.1 with ho | hp
      · rw [hopen] at ho
        cases ho
      · exact absurd hpart hp
    · refine Or.inl ⟨?_, e, facts, hfacts, hfrom, hsurv, hopen, hpart⟩
      simp only [hfired, hfacts, if_neg hblocked, hopen]
      simp [hpart, throw, throwThe, MonadExceptOf.throw, bind, Except.bind]
  | true =>
    set fired : CompilerReachabilityClosure :=
      { c with
        edgePending := Function.update c.edgePending e false
        edgeFired := Function.update c.edgeFired e true } with hfireddef
    obtain ⟨r, p, hframe⟩ := addNode_frame fired facts.toNode
    have hcount := countP_missing (nodup_range (n := index.edges.length)) id injective_id hfired
    simp only [id, mem_range, helt, if_true] at hcount
    have hpos : 0 < unfired index c := by
      refine countP_pos_iff.mpr ⟨e, mem_range.mpr helt, by simp [hfired]⟩
    have hless : unfired index (fired.addNode facts.toNode) < unfired index c := by
      rw [hframe]
      unfold unfired at hpos ⊢
      simp only [hfireddef]
      omega
    refine Or.inr ⟨(fired.addNode facts.toNode, lane.insert facts.toNode), ?_, ?_, ?_⟩
    · simp only [hfired, hfacts, if_neg hblocked, hopen]
      rfl
    · have hmem := @mem_reachableNodes_addNode fired facts.toNode
      have hpend : ∀ n, n ∈ (fired.addNode facts.toNode).pendingNodes ↔
          n ∈ c.pendingNodes ∨ n = facts.toNode ∧ n ∉ c.reachableNodes := by
        intro n
        unfold CompilerReachabilityClosure.addNode
        split
        · rename_i hin
          constructor
          · exact Or.inl
          · rintro (hn | ⟨rfl, hn⟩)
            · exact hn
            · exact absurd hin hn
        · rename_i hin
          simp only [mem_append, mem_singleton, hfireddef] at hin ⊢
          constructor
          · rintro (hn | rfl)
            · exact Or.inl hn
            · exact Or.inr ⟨rfl, hin⟩
          · rintro (hn | ⟨rfl, -⟩)
            · exact Or.inl hn
            · exact Or.inr rfl
      rw [hframe] at hmem hpend ⊢
      simp only [hfireddef] at hmem hpend ⊢
      refine ⟨{ h.site with },
        { h.gate with }, { h.component with }, ⟨hflags, hnodup, hbound⟩,
        ⟨fun n hn => hmem.mpr (Or.inr (h.reach.nodes_subset n hn)), fun R hR hc n hn => ?_,
          fun d dfacts hd hf => ?_, fun d dfacts hd hn hen => ?_⟩⟩
      · have hsub := h.reach.least R hR hc
        rcases hmem.mp (Finset.mem_coe.mp hn) with rfl | hn
        · exact hc e facts hfacts (hsub hfrom) ⟨hopen, hsurv⟩
        · exact hsub hn
      · by_cases hde : d = e
        · subst hde
          rw [hfacts] at hd
          cases hd
          exact hmem.mpr (Or.inl rfl)
        · exact hmem.mpr (Or.inr (h.reach.fired d dfacts hd (by simpa [hde] using hf)))
      · by_cases hde : d = e
        · exact Or.inl (by simp [hde])
        · simp only [update_of_ne hde]
          rw [hpend]
          by_cases hold : dfacts.fromNode ∈ c.reachableNodes
          · rcases h.reach.waiting d dfacts hd hold hen with hf | hw | hw
            · exact Or.inl hf
            · exact Or.inr (Or.inl ((mem_cons.mp hw).resolve_left hde))
            · exact Or.inr (Or.inr (Or.inl hw))
          · exact Or.inr (Or.inr (Or.inr ⟨(hmem.mp hn).resolve_right hold, hold⟩))
    · refine ⟨⟨Lane.Extends.insert _ _, fun n hn => ?_, fun n hn => ?_, fun n hn => ?_,
        by rw [hframe], by rw [hframe]⟩, by rw [hframe], by rw [hframe], hless.le, fun _ => hless⟩
      · rw [Lane.mem_required_insert]
        rcases mem_reachableNodes_addNode.mp hn with hn | hn
        · exact Or.inr (Or.inl hn)
        · exact Or.inl hn
      · rcases Lane.mem_required_insert.mp hn with hn | hn
        · exact Or.inr (mem_reachableNodes_addNode.mpr (Or.inl hn))
        · exact Or.inl hn
      · exact mem_reachableNodes_addNode.mpr (Or.inr hn)

/-- Taking all edges from the queue: only a partial site can stop it. -/
theorem InvAt.closeEdges {edges : List Nat} (h : InvAt index nodes dirty ∅ edges c)
    (lane : Lane GraphNode) :
    (edges.foldlM (CompilerReachabilityClosure.closeEdge index) (c, lane) = .error .invalidGraph ∧
      ∃ c' queue, InvAt index nodes dirty ∅ queue c' ∧ PartialSite index c' ∧
        c'.retainedSources = c.retainedSources) ∨
    ∃ s', edges.foldlM (CompilerReachabilityClosure.closeEdge index) (c, lane) = .ok s' ∧
      InvAt index nodes dirty ∅ [] s'.1 ∧ EdgesClosed index (c, lane) s' := by
  induction edges generalizing c lane with
  | nil => exact Or.inr ⟨(c, lane), rfl, h, EdgesClosed.refl _⟩
  | cons e edges ih =>
    rw [foldlM_cons]
    rcases h.closeEdge lane with ⟨hrun, hpart⟩ | ⟨s₁, hrun, hI, hE⟩
    · refine Or.inl ⟨by rw [hrun]; rfl, c, e :: edges, h, hpart, rfl⟩
    · rw [hrun]
      rcases ih hI s₁.2 with ⟨hrun', c', queue, hI', hpart, hret⟩ | ⟨s₂, hrun', hI', hE'⟩
      · exact Or.inl ⟨hrun', c', queue, hI', hpart, hret.trans hE.retained⟩
      · exact Or.inr ⟨s₂, hrun', hI', hE.trans hE'⟩

/-! ## The loop -/

/-- A state at which a partial site stops the closure. -/
def Stuck (index : CompilerReachabilityIndex) (nodes : Set GraphNode)
    (c : CompilerReachabilityClosure) : Prop :=
  ∃ c' queue, InvAt index nodes ∅ ∅ queue c' ∧ PartialSite index c' ∧
    c'.retainedSources = c.retainedSources

/-- Rounds that are left: one for each edge that has not fired, and one more when something
waits. -/
def roundsLeft (index : CompilerReachabilityIndex)
    (s : CompilerReachabilityClosure × Lane GraphNode) : Nat :=
  unfired index s.1 + if busy s then 1 else 0

/-- One round keeps the invariant and takes some of the work away, unless a partial site stops
it. -/
theorem InvAt.closeRound (hw : index.WellFormed) {lane : Lane GraphNode}
    (h : InvAt index nodes ∅ ∅ c.pendingEdges c) (hb : busy (c, lane) = true) :
    (CompilerReachabilityClosure.closeRound index (c, lane) = .error .invalidGraph ∧
      Stuck index nodes c) ∨
    ∃ s', CompilerReachabilityClosure.closeRound index (c, lane) = .ok s' ∧
      InvAt index nodes ∅ ∅ s'.1.pendingEdges s'.1 ∧ Closed (c, lane) s' ∧
      roundsLeft index s' < roundsLeft index (c, lane) := by
  obtain ⟨hI₁, hcomps, hsame⟩ := h.closeComponents hw
  obtain ⟨hI₂, hnodes, hcomps₂, hret₂, hdirty₂, hreach₂, hfired₂⟩ := hI₁.closeNodes hw
  set c₂ := CompilerReachabilityClosure.closeNodes index
    (CompilerReachabilityClosure.closeComponents index c) with hc₂
  have hI₃ : InvAt index nodes ∅ ∅ c₂.pendingEdges { c₂ with pendingEdges := [] } :=
    ⟨⟨hI₂.site.count, hI₂.site.current, hI₂.site.le_current⟩,
      ⟨hI₂.gate.open_iff, hI₂.gate.partialCount⟩, ⟨hI₂.component.sources, hI₂.component.parents,
        hI₂.component.sound, hI₂.component.ready, hI₂.component.bound⟩,
      ⟨hI₂.pending.flags, hI₂.pending.nodup, hI₂.pending.bound⟩,
      ⟨hI₂.reach.nodes_subset, hI₂.reach.least, hI₂.reach.fired, hI₂.reach.waiting⟩⟩
  have hunfired : unfired index c₂ = unfired index c := by
    unfold unfired
    rw [hfired₂, hsame.fired]
  rcases hI₃.closeEdges lane with ⟨hrun, c', queue, hI', hpart, hret⟩ | ⟨s', hrun, hI', hE⟩
  · exact Or.inl ⟨hrun, c', queue, hI', hpart, hret.trans (hret₂.trans hsame.retained)⟩
  · have hnone : s'.1.pendingEdges = [] := hE.edges
    refine Or.inr ⟨s', hrun, by rw [hnone]; exact hI', ⟨hE.lane, fun n hn => ?_, hE.required,
      fun n hn => hE.grows ?_, hE.retained.trans (hret₂.trans hsame.retained),
      hE.dirty.trans (hdirty₂.trans hsame.dirty)⟩, ?_⟩
    · have := hE.reachable n hn
      rwa [show ({ c₂ with pendingEdges := [] } : CompilerReachabilityClosure).reachableNodes =
        c.reachableNodes from hreach₂.trans hsame.reachable] at this
    · rw [show ({ c₂ with pendingEdges := [] } : CompilerReachabilityClosure).reachableNodes =
        c.reachableNodes from hreach₂.trans hsame.reachable]
      exact hn
    · have hcomps' : s'.1.pendingComponents = [] := hE.components.trans (hcomps₂.trans hcomps)
      have hle : unfired index s'.1 ≤ unfired index c := hunfired ▸ hE.unfired
      unfold roundsLeft
      rw [if_pos hb]
      by_cases hp : s'.1.pendingNodes = []
      · have hidle : busy s' = false := by simp [busy, hcomps', hnone, hp]
        simp only [hidle, Bool.false_eq_true, if_false]
        omega
      · have := hE.progress (by rw [show ({ c₂ with pendingEdges := [] } :
          CompilerReachabilityClosure).pendingNodes = [] from hnodes]; exact hp)
        have hlt : unfired index s'.1 < unfired index c := hunfired ▸ this
        split_ifs
        · simp only
          omega
        · simp only
          omega

/-- Closing keeps the invariant and leaves nothing in the queues; only a partial site can stop
it. -/
theorem Inv.close (hw : index.WellFormed) (h : Inv index nodes c) (lane : Lane GraphNode) :
    (CompilerReachabilityClosure.close index c lane = .error .invalidGraph ∧ Stuck index nodes c) ∨
    ∃ s', CompilerReachabilityClosure.close index c lane = .ok s' ∧ Inv index nodes s'.1 ∧
      busy s' = false ∧ s'.1.dirtySites = ∅ ∧ Closed ({ c with dirtySites := ∅ }, lane) s' := by
  have h₀ : InvAt index nodes (ascending c.dirtySites).toFinset ∅ c.pendingEdges
      { c with dirtySites := ∅ } := by
    rw [toFinset_ascending]
    exact ⟨{ h.site with },
      { h.gate with }, { h.component with },
      ⟨h.pending.flags, h.pending.nodup, h.pending.bound⟩,
      ⟨h.reach.nodes_subset, h.reach.least, h.reach.fired, h.reach.waiting⟩⟩
  obtain ⟨c₁, hrun, hI₁, hret₁, hdirty₁, hreach₁⟩ :=
    InvAt.updateSites (c := { c with dirtySites := ∅ }) hw (ascending c.dirtySites) h₀
  have hclose : CompilerReachabilityClosure.close index c lane =
      whileTry busy (closeRound index) (index.edges.length + 1) (c₁, lane) := by
    unfold CompilerReachabilityClosure.close
    rw [hrun]
    rfl
  rw [hclose]
  let P : CompilerReachabilityClosure × Lane GraphNode → Prop := fun s =>
    InvAt index nodes ∅ ∅ s.1.pendingEdges s.1 ∧ Closed ({ c with dirtySites := ∅ }, lane) s
  have hP : P (c₁, lane) :=
    ⟨hI₁, Lane.Extends.refl _, fun n hn => Or.inl (hreach₁ ▸ hn), fun n hn => Or.inl hn,
      hreach₁.ge, hret₁, hdirty₁⟩
  have hwork : roundsLeft index (c₁, lane) ≤ index.edges.length + 1 := by
    have hle : unfired index c₁ ≤ index.edges.length := by
      have := countP_le_length (p := fun e => !c₁.edgeFired e) (l := List.range index.edges.length)
      rwa [length_range] at this
    unfold roundsLeft
    split_ifs <;> simp only <;> omega
  have hpos : ∀ s, P s → busy s = true → 0 < roundsLeft index s := by
    intro s _ hb
    simp [roundsLeft, hb]
  have hstep : ∀ s, P s → busy s = true →
      (∃ e, closeRound index s = .error e ∧ e = .invalidGraph ∧ Stuck index nodes s.1) ∨
      ∃ t, closeRound index s = .ok t ∧ P t ∧ roundsLeft index t < roundsLeft index s := by
    intro s ⟨hI, hC⟩ hb
    rcases hI.closeRound hw hb with ⟨hrun, hstuck⟩ | ⟨t, hrun, hI', hC', hlt⟩
    · exact Or.inl ⟨_, hrun, rfl, hstuck⟩
    · exact Or.inr ⟨t, hrun, ⟨hI', hC.trans hC'⟩, hlt⟩
  rcases whileTry_total (roundsLeft index) hpos hstep hP hwork with
    ⟨e, t, hrun, ht, rfl, hstuck⟩ | ⟨t, hrun, ⟨hI, hC⟩, hidle⟩
  · obtain ⟨c', queue, hI', hpart, hret⟩ := hstuck
    exact Or.inl ⟨hrun, c', queue, hI', hpart, hret.trans ht.2.retained⟩
  · have hdirty : t.1.dirtySites = ∅ := hC.dirty
    exact Or.inr ⟨t, hrun, by unfold Inv; rw [hdirty]; exact hI, hidle, hdirty, hC⟩

end CompilerReachabilityClosure

end ItemDependencies
