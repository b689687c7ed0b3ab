import ItemDependencies.Retention.ReachabilityFixpoint

/-!
# Expansions that survive the rewrite

After the source has been rewritten, an expansion is there if its written
invocation is and if all its parents are.  Verification computes the survivors
by deleting expansions until nothing changes; the reachability closure counts
what each component misses.  Both find the greatest set.
-/

namespace ItemDependencies

open Library List

/-! ## Deleting until nothing changes -/

/-- Whether a parent survives; it has to be another listed expansion. -/
def parentSurvives (expansions : List ExpansionNode) (surviving : List Bool) (node : ExpansionNode)
    (parent : ExpansionId) : Option Bool :=
  match expansions[parent.index]? with
  | some parentNode =>
    if parentNode.id = parent ∧ parent ≠ node.id then surviving[parent.index]? else none
  | none => none

/-- Whether a parent is lost.  The parents after the first lost one are not looked at. -/
def losesParent (expansions : List ExpansionNode) (surviving : List Bool) (node : ExpansionNode) :
    List ExpansionId → Option Bool
  | [] => some false
  | parent :: parents =>
    (parentSurvives expansions surviving node parent).bind fun survives =>
      if survives then losesParent expansions surviving node parents else some true

/-- One expansion of a round; the flag says that the round has deleted something. -/
def survivalVisit (expansions : List ExpansionNode) (state : List Bool × Bool)
    (node : ExpansionNode) : Option (List Bool × Bool) :=
  if state.1[node.id.index]? = some true then
    (losesParent expansions state.1 node node.parents).map fun lost =>
      if lost then (state.1.set node.id.index false, true) else state
  else some state

/-- Rounds over all expansions until one deletes nothing. -/
def survivalRounds (expansions : List ExpansionNode) : Nat → List Bool → Option (List Bool)
  | 0, _ => none
  | limit + 1, surviving =>
    (expansions.foldlM (survivalVisit expansions) (surviving, false)).bind fun round =>
      if round.2 then survivalRounds expansions limit round.1 else some round.1

/-- An expansion without written invocation survives at first. -/
def initialSurvival (writtenUnitSurvives : SourceUnitId → Option Bool) (node : ExpansionNode)
    (index : Nat) : Option Bool :=
  if node.id.index ≠ index then none
  else
    match node.writtenInvocation with
    | some unit => writtenUnitSurvives unit
    | none => some true

/-- The expansions that survive when some written units do. -/
def expansionSourceSurvival (expansions : List ExpansionNode)
    (writtenUnitSurvives : SourceUnitId → Option Bool) : Option (List Bool) :=
  (expansions.zipIdx.mapM fun p => initialSurvival writtenUnitSurvives p.1 p.2).bind
    (survivalRounds expansions (expansions.length + 1))

inductive SnapshotError where
  | invalidNode
  | invalidEdge
  | invalidRoot
  | invalidSourceSite
deriving DecidableEq

/-- Whether the rewrite keeps a macro invocation. -/
def retainedInvocation (source : SourceInventory) (retainedUnits : Finset SourceUnitId)
    (unit : SourceUnitId) : Option Bool :=
  match source.units[unit.index]? with
  | some written =>
    if written.id = unit ∧ written.kind = .macroInvocation ∧ written.cfgState = .active then
      some (decide (written.id ∈ retainedUnits))
    else none
  | none => none

/-- The expansions that survive when some units are retained. -/
def survivingExpansions (graph : DependencyGraph) (source : SourceInventory)
    (retainedUnits : Finset SourceUnitId) : Except SnapshotError (List Bool) :=
  match expansionSourceSurvival graph.expansions (retainedInvocation source retainedUnits) with
  | some surviving => .ok surviving
  | none => .error .invalidNode

/-! ## The greatest set that keeps its parents -/

/-- Expansions are numbered by their position, and their parents are other expansions. -/
def DenseExpansions (expansions : List ExpansionNode) : Prop :=
  ∀ (x : Nat) (node : ExpansionNode), expansions[x]? = some node →
    node.id = ⟨x⟩ ∧ ∀ p ∈ node.parents, p.index < expansions.length ∧ p ≠ node.id

/-- A set of expansions whose written invocations are retained and whose parents are in the
set. -/
def KeptExpansions (expansions : List ExpansionNode) (retained : Set SourceUnitId)
    (S : Set ExpansionId) : Prop :=
  ∀ x ∈ S, ∃ node, expansions[x.index]? = some node ∧
    (∀ unit, node.writtenInvocation = some unit → unit ∈ retained) ∧ ∀ p ∈ node.parents, p ∈ S

/-- The expansions that are still marked. -/
def marked (surviving : List Bool) : Set ExpansionId :=
  {x | surviving[x.index]? = some true}

@[simp] theorem mem_marked {surviving : List Bool} {x : ExpansionId} :
    x ∈ marked surviving ↔ surviving[x.index]? = some true := Iff.rfl

/-- What every round keeps: only expansions with retained invocations are marked, and none of a
kept set has been deleted. -/
structure SurvivalInv (expansions : List ExpansionNode) (retained : Set SourceUnitId)
    (surviving : List Bool) : Prop where
  length_eq : surviving.length = expansions.length
  written : ∀ x ∈ marked surviving, ∀ node, expansions[x.index]? = some node →
    ∀ unit, node.writtenInvocation = some unit → unit ∈ retained
  keeps : ∀ S, KeptExpansions expansions retained S → S ⊆ marked surviving

variable {node : ExpansionNode}

section Rounds

variable {expansions : List ExpansionNode} {retained : Set SourceUnitId} {surviving : List Bool}

theorem parentSurvives_eq (hdense : DenseExpansions expansions)
    (hlen : surviving.length = expansions.length) {x : Nat} (hx : expansions[x]? = some node)
    {p : ExpansionId} (hp : p ∈ node.parents) :
    ∃ b, parentSurvives expansions surviving node p = some b ∧
      (b = true ↔ p ∈ marked surviving) := by
  obtain ⟨hlt, hne⟩ := (hdense x node hx).2 p hp
  have hget : expansions[p.index]? = some expansions[p.index] := getElem?_eq_getElem hlt
  have hid : expansions[p.index].id = p := (hdense _ _ hget).1
  refine ⟨surviving[p.index], ?_, ?_⟩
  · unfold parentSurvives
    rw [hget]
    simp only
    rw [if_pos ⟨hid, hne⟩]
    exact getElem?_eq_getElem (hlen ▸ hlt)
  · rw [mem_marked, getElem?_eq_getElem (hlen ▸ hlt), Option.some.injEq]

theorem losesParent_eq {parents : List ExpansionId}
    (h : ∀ p ∈ parents, ∃ b, parentSurvives expansions surviving node p = some b ∧
      (b = true ↔ p ∈ marked surviving)) :
    ∃ lost, losesParent expansions surviving node parents = some lost ∧
      (lost = true ↔ ∃ p ∈ parents, p ∉ marked surviving) := by
  induction parents with
  | nil => exact ⟨false, rfl, by simp⟩
  | cons p ps ih =>
    obtain ⟨b, hb, hiff⟩ := h p (by simp)
    obtain ⟨lost, hlost, hl⟩ := ih fun q hq => h q (by simp [hq])
    unfold losesParent
    rw [hb]
    cases b with
    | false =>
      refine ⟨true, rfl, iff_of_true rfl ⟨p, by simp, fun hp => ?_⟩⟩
      exact Bool.noConfusion (hiff.mpr hp)
    | true =>
      refine ⟨lost, hlost, hl.trans ?_⟩
      have hp : p ∈ marked surviving := hiff.mp rfl
      simp only [exists_mem_cons_iff, hp, not_true_eq_false, false_or]

/-- Visiting an expansion deletes it exactly when it is marked and has lost a parent. -/
theorem survivalVisit_eq (hdense : DenseExpansions expansions)
    (hlen : surviving.length = expansions.length) {x : Nat} (hx : expansions[x]? = some node)
    (changed : Bool) :
    survivalVisit expansions (surviving, changed) node = some
        (surviving.set x false, true) ∧ ⟨x⟩ ∈ marked surviving ∧
        (∃ p ∈ node.parents, p ∉ marked surviving) ∨
      survivalVisit expansions (surviving, changed) node = some (surviving, changed) ∧
        (⟨x⟩ ∈ marked surviving → ∀ p ∈ node.parents, p ∈ marked surviving) := by
  have hid := (hdense x node hx).1
  unfold survivalVisit
  simp only [hid, mem_marked]
  by_cases hm : surviving[x]? = some true
  · obtain ⟨lost, hlost, hiff⟩ := losesParent_eq fun p (hp : p ∈ node.parents) =>
      parentSurvives_eq hdense hlen hx hp
    simp only [if_pos hm, hlost, Option.map_some]
    cases lost with
    | true => exact Or.inl ⟨rfl, hm, hiff.mp rfl⟩
    | false =>
      refine Or.inr ⟨rfl, fun _ p hp => ?_⟩
      by_contra hno
      exact Bool.noConfusion (hiff.mpr ⟨p, hp, hno⟩)
  · exact Or.inr ⟨if_neg hm, fun h => absurd h hm⟩

theorem count_set_false_lt {l : List Bool} {x : Nat} (h : l[x]? = some true) :
    (l.set x false).count true < l.count true := by
  induction l generalizing x with
  | nil => simp at h
  | cons b l ih =>
    cases x with
    | zero =>
      simp only [getElem?_cons_zero, Option.some.injEq] at h
      subst h
      simp
    | succ x =>
      simp only [getElem?_cons_succ] at h
      have := ih h
      simp only [set_cons_succ, count_cons]
      exact Nat.add_lt_add_right this _

theorem mem_marked_set {x : Nat} {y : ExpansionId} :
    y ∈ marked (surviving.set x false) ↔ y ∈ marked surviving ∧ y.index ≠ x := by
  simp only [mem_marked, getElem?_set]
  split
  · rename_i hxy
    subst hxy
    simp
  · rename_i hxy
    exact ⟨fun h => ⟨h, fun he => hxy he.symm⟩, And.left⟩

/-- Deleting an expansion that has lost a parent keeps the invariant. -/
theorem SurvivalInv.delete (h : SurvivalInv expansions retained surviving) {x : Nat}
    (hx : expansions[x]? = some node) {p : ExpansionId} (hp : p ∈ node.parents)
    (hlost : p ∉ marked surviving) :
    SurvivalInv expansions retained (surviving.set x false) where
  length_eq := by rw [length_set, h.length_eq]
  written y hy := h.written y (mem_marked_set.mp hy).1
  keeps S hS y hy := by
    refine mem_marked_set.mpr ⟨h.keeps S hS hy, ?_⟩
    rintro rfl
    obtain ⟨node', hnode', -, hparents⟩ := hS y hy
    rw [hx] at hnode'
    cases hnode'
    exact hlost (h.keeps S hS (hparents p hp))

/-- What some visits do: either nothing is deleted, and then the visited expansions have kept their
parents, or fewer expansions are marked. -/
structure RoundSpec (expansions : List ExpansionNode) (retained : Set SourceUnitId)
    (visited : List ExpansionNode) (surviving : List Bool) (state : List Bool × Bool) : Prop where
  inv : SurvivalInv expansions retained state.1
  changed : state.2 = true → state.1.count true < surviving.count true
  unchanged : state.2 = false → state.1 = surviving ∧
    ∀ node ∈ visited, node.id ∈ marked surviving → ∀ p ∈ node.parents, p ∈ marked surviving

theorem survivalRound_eq (hdense : DenseExpansions expansions)
    (h : SurvivalInv expansions retained surviving) :
    ∃ state, expansions.foldlM (survivalVisit expansions) (surviving, false) = some state ∧
      RoundSpec expansions retained expansions surviving state := by
  have key : ∀ (rest visited : List ExpansionNode) (state : List Bool × Bool),
      expansions = visited ++ rest → RoundSpec expansions retained visited surviving state →
      ∃ state', rest.foldlM (survivalVisit expansions) state = some state' ∧
        RoundSpec expansions retained expansions surviving state' := by
    intro rest
    induction rest with
    | nil =>
      intro visited state hsplit hs
      rw [append_nil] at hsplit
      exact ⟨state, rfl, hsplit ▸ hs⟩
    | cons node rest ih =>
      rintro visited ⟨marks, changed⟩ hsplit hs
      have hx : expansions[visited.length]? = some node := by
        rw [hsplit, getElem?_append_right le_rfl, Nat.sub_self]
        rfl
      have hid := (hdense _ _ hx).1
      rw [foldlM_cons]
      have hnext : expansions = (visited ++ [node]) ++ rest := by
        rw [hsplit, append_assoc, singleton_append]
      rcases survivalVisit_eq hdense hs.inv.length_eq hx changed with
        ⟨hvisit, hmark, p, hp, hlost⟩ | ⟨hvisit, hkept⟩
      · rw [hvisit]
        refine ih _ (marks.set visited.length false, true) hnext
          ⟨hs.inv.delete hx hp hlost, fun _ => ?_, fun hno => by cases hno⟩
        refine (count_set_false_lt (mem_marked.mp hmark)).trans_le ?_
        cases changed with
        | true => exact (hs.changed rfl).le
        | false => exact (congrArg (List.count true) (hs.unchanged rfl).1).le
      · rw [hvisit]
        refine ih _ (marks, changed) hnext ⟨hs.inv, hs.changed, fun hno => ?_⟩
        obtain ⟨heq, hall⟩ := hs.unchanged hno
        simp only at heq
        refine ⟨heq, fun n hn => ?_⟩
        rcases mem_append.mp hn with hn | hn
        · exact hall n hn
        · rw [mem_singleton] at hn
          subst hn
          rw [hid]
          exact heq ▸ hkept
  exact key expansions [] (surviving, false) rfl
    ⟨h, fun hno => by simp at hno, fun _ => ⟨rfl, by simp⟩⟩

/-- Rounds that may delete as often as there are marks end with the greatest kept set. -/
theorem survivalRounds_eq (hdense : DenseExpansions expansions) (limit : Nat)
    (h : SurvivalInv expansions retained surviving) (hlimit : surviving.count true < limit) :
    ∃ final, survivalRounds expansions limit surviving = some final ∧
      final.length = expansions.length ∧
      IsGreatest {S | KeptExpansions expansions retained S} (marked final) := by
  induction limit generalizing surviving with
  | zero => omega
  | succ limit ih =>
    obtain ⟨⟨next, changed⟩, hround, hs⟩ := survivalRound_eq hdense h
    unfold survivalRounds
    rw [hround]
    cases changed with
    | true =>
      have hlt : next.count true < surviving.count true := hs.changed rfl
      exact ih hs.inv (show next.count true < limit by omega)
    | false =>
      obtain ⟨heq, hkept⟩ := hs.unchanged rfl
      simp only at heq
      subst heq
      refine ⟨next, rfl, hs.inv.length_eq, fun x hx => ?_, hs.inv.keeps⟩
      have hlt : x.index < expansions.length := by
        rw [← hs.inv.length_eq]
        exact (List.getElem?_eq_some_iff.mp (mem_marked.mp hx)).1
      have hget := getElem?_eq_getElem hlt
      refine ⟨_, hget, hs.inv.written x hx _ hget, hkept _ (getElem_mem hlt) ?_⟩
      rw [(hdense _ _ hget).1]
      exact hx

/-- The marks before the first round. -/
theorem initialSurvival_mapM {writtenUnitSurvives : SourceUnitId → Option Bool}
    (hdense : DenseExpansions expansions)
    (hwritten : ∀ node ∈ expansions, ∀ unit, node.writtenInvocation = some unit →
      (writtenUnitSurvives unit).isSome = true) :
    ∃ surviving, (expansions.zipIdx.mapM fun p => initialSurvival writtenUnitSurvives p.1 p.2) =
        some surviving ∧
      SurvivalInv expansions {unit | writtenUnitSurvives unit = some true} surviving := by
  -- the marks of the expansions from a position on
  have key : ∀ (rest : List ExpansionNode) (k : Nat),
      (∀ (i : Nat) (node : ExpansionNode), rest[i]? = some node → expansions[k + i]? = some node) →
      ∃ surviving, ((rest.zipIdx k).mapM fun p => initialSurvival writtenUnitSurvives p.1 p.2) =
          some surviving ∧ surviving.length = rest.length ∧
        ∀ (i : Nat) (node : ExpansionNode), rest[i]? = some node → (surviving[i]? = some true ↔
          ∀ unit, node.writtenInvocation = some unit → writtenUnitSurvives unit = some true) := by
    intro rest
    induction rest with
    | nil => exact fun k _ => ⟨[], rfl, rfl, by simp⟩
    | cons node rest ih =>
      intro k hrest
      have hnode : expansions[k]? = some node := hrest 0 node rfl
      obtain ⟨surviving, hrun, hlen, hmarks⟩ := ih (k + 1) fun i n hi => by
        rw [Nat.add_assoc, Nat.add_comm 1 i]
        exact hrest (i + 1) n hi
      have hfirst : ∃ b, initialSurvival writtenUnitSurvives node k = some b ∧ (b = true ↔
          ∀ unit, node.writtenInvocation = some unit → writtenUnitSurvives unit = some true) := by
        have hid : ¬node.id.index ≠ k := by rw [(hdense k node hnode).1]; simp
        unfold initialSurvival
        rw [if_neg hid]
        cases hw : node.writtenInvocation with
        | none => exact ⟨true, rfl, by simp⟩
        | some unit =>
          obtain ⟨b, hb⟩ := Option.isSome_iff_exists.mp
            (hwritten node (mem_of_getElem? hnode) unit hw)
          exact ⟨b, hb, by simp [hb]⟩
      obtain ⟨b, hb, hbiff⟩ := hfirst
      refine ⟨b :: surviving, ?_, by simp [hlen], fun i n hi => ?_⟩
      · rw [zipIdx_cons, mapM_cons, hb, hrun]
        rfl
      · cases i with
        | zero =>
          cases hi
          simpa using hbiff
        | succ i => exact hmarks i n hi
  obtain ⟨surviving, hrun, hlen, hmarks⟩ := key expansions 0 fun i node hi => by simpa using hi
  refine ⟨surviving, hrun, hlen, fun x hx node hnode => (hmarks _ node hnode).mp hx,
    fun S hS x hx => ?_⟩
  obtain ⟨node, hnode, hw, -⟩ := hS x hx
  exact (hmarks _ node hnode).mpr hw

/-- Deleting until nothing changes ends, and finds the greatest kept set. -/
theorem expansionSourceSurvival_eq (writtenUnitSurvives : SourceUnitId → Option Bool)
    (hdense : DenseExpansions expansions)
    (hwritten : ∀ node ∈ expansions, ∀ unit, node.writtenInvocation = some unit →
      (writtenUnitSurvives unit).isSome = true) :
    ∃ surviving, expansionSourceSurvival expansions writtenUnitSurvives = some surviving ∧
      surviving.length = expansions.length ∧
      IsGreatest {S | KeptExpansions expansions {unit | writtenUnitSurvives unit = some true} S}
        (marked surviving) := by
  obtain ⟨surviving, hrun, hI⟩ := initialSurvival_mapM hdense hwritten
  unfold expansionSourceSurvival
  rw [hrun]
  refine survivalRounds_eq hdense _ hI (Nat.lt_succ_of_le ?_)
  exact count_le_length.trans hI.length_eq.le

end Rounds

/-! ## Verification against selection -/

section Selection

variable {source : SourceInventory} {sites : SourceSiteOwnerIndex} {graph : DependencyGraph}
variable {delegated : Finset ExpansionId} {index : CompilerReachabilityIndex}

theorem denseExpansions_of_valid (h : validExpansions graph = true) :
    DenseExpansions graph.expansions := by
  intro x node hx
  obtain ⟨hid, hparents⟩ := validExpansions_iff h hx
  refine ⟨hid, fun p hp => ⟨(hparents p hp).1, fun heq => (hparents p hp).2 ?_⟩⟩
  rw [heq, hid]

/-- A unit that can be retained is looked up in the retained units. -/
theorem retainedInvocation_eq (retainedUnits : Finset SourceUnitId) {unit u : SourceUnitId}
    (h : writtenInvocationUnit source unit = .ok u) :
    retainedInvocation source retainedUnits unit = some (decide (unit ∈ retainedUnits)) := by
  unfold writtenInvocationUnit at h
  unfold retainedInvocation
  cases hw : source.units[unit.index]? with
  | none =>
    rw [hw] at h
    cases h
  | some written =>
    simp only [hw] at h ⊢
    split at h
    · rename_i hc
      rw [if_pos hc, hc.1]
    · cases h

/-- Where the index knows the components, the written invocations of all expansions can be
retained. -/
theorem ComponentsDescribe.writtenInvocationUnit {componentOf : Nat → Option Nat}
    {components : List ExpansionComponent}
    (h : ComponentsDescribe source graph componentOf components) (hnode : node ∈ graph.expansions)
    {unit : SourceUnitId} (hunit : node.writtenInvocation = some unit) :
    writtenInvocationUnit source unit = .ok unit := by
  obtain ⟨x, hx⟩ := getElem?_of_mem hnode
  obtain ⟨k, hk⟩ := h.total x (List.getElem?_eq_some_iff.mp hx).1
  have hfacts := getElem?_eq_getElem (h.bound x k hk).2
  exact h.sources_ok k _ hfacts unit ((h.sources k _ hfacts unit).mpr ⟨x, node, hk, hx, hunit⟩)

/-- Verification computes the greatest set of expansions that are kept by the retained units. -/
theorem survivingExpansions_eq {componentOf : Nat → Option Nat}
    {components : List ExpansionComponent}
    (h : ComponentsDescribe source graph componentOf components)
    (retainedUnits : Finset SourceUnitId) :
    ∃ surviving, survivingExpansions graph source retainedUnits = .ok surviving ∧
      marked surviving = survivors graph ↑retainedUnits := by
  have hlookup := fun (node : ExpansionNode) (hn : node ∈ graph.expansions) (unit : SourceUnitId)
      (hu : node.writtenInvocation = some unit) =>
    retainedInvocation_eq retainedUnits (h.writtenInvocationUnit hn hu)
  obtain ⟨surviving, hrun, -, hgreatest⟩ := expansionSourceSurvival_eq
    (retainedInvocation source retainedUnits)
    (denseExpansions_of_valid h.valid) fun node hn unit hu => by rw [hlookup node hn unit hu]; rfl
  refine ⟨surviving, ?_, ?_⟩
  · unfold survivingExpansions
    rw [hrun]
  · -- the two closures of a graph ask for the same invocations
    have hsame : ∀ S, KeptExpansions graph.expansions
        {unit | retainedInvocation source retainedUnits unit = some true} S ↔
        SurvivorSet graph ↑retainedUnits S := by
      intro S
      refine forall₂_congr fun x _ => exists_congr fun node => and_congr_right fun hnode =>
        and_congr_left fun _ => forall₂_congr fun unit hu => ?_
      rw [Set.mem_ofPred_eq, hlookup node (mem_of_getElem? hnode) unit hu, Option.some.injEq,
        decide_eq_true_eq, Finset.mem_coe]
    simp only [hsame] at hgreatest
    exact hgreatest.unique isGreatest_survivors

open ReachabilityCall in
/-- Selection and verification agree.  Deleting until nothing changes ends with the greatest set of
expansions that keep their written invocations and parents; and on a graph with an index it finds
the expansions of the components that the reachability closure has marked, after any calls that
have added the same units. -/
theorem expansionSourceSurvival_spec :
    (∀ expansions writtenUnitSurvives, DenseExpansions expansions →
      (∀ node ∈ expansions, ∀ unit, node.writtenInvocation = some unit →
        (writtenUnitSurvives unit).isSome = true) →
      ∃ surviving, expansionSourceSurvival expansions writtenUnitSurvives = some surviving ∧
        surviving.length = expansions.length ∧
        IsGreatest {S | KeptExpansions expansions {unit | writtenUnitSurvives unit = some true} S}
          (marked surviving)) ∧
    ∀ source sites graph delegated index,
      CompilerReachabilityIndex.new source sites graph delegated = .ok index →
      ∀ calls c lane, runAll index (calls ++ [close]) = .ok (c, lane) →
      ∀ retainedUnits : Finset SourceUnitId, ↑retainedUnits = addedSources calls →
      ∃ surviving componentOf components,
        survivingExpansions graph source retainedUnits = .ok surviving ∧
        expansionComponents source graph = .ok (componentOf, components) ∧
        IsGreatest {S | KeptExpansions graph.expansions ↑retainedUnits S} (marked surviving) ∧
        ∀ x : ExpansionId, x ∈ marked surviving ↔
          ∃ k, componentOf x.index = some k ∧ c.componentSurvives k = true := by
  refine ⟨fun _ written hdense hwritten => expansionSourceSurvival_eq written hdense hwritten, ?_⟩
  intro source sites graph delegated index hindex calls c lane run retainedUnits hunits
  obtain ⟨componentOf, components, hcomponents, hd⟩ := CompilerReachabilityIndex.new_ok hindex
  obtain ⟨hI, -, hidle, -, -⟩ := runAll_close_idle hd.wellFormed calls run
  have hsources := hI.sources
  rw [addedSources_close, ← hunits] at hsources
  obtain ⟨surviving, hrun, hsurviving⟩ :=
    survivingExpansions_eq (expansionComponents_ok hcomponents) retainedUnits
  refine ⟨surviving, componentOf, components, hrun, hcomponents, ?_, fun x => ?_⟩
  · rw [hsurviving]
    exact isGreatest_survivors
  · rw [hsurviving]
    exact hI.inv.component.mem_survivors hd hidle hsources x

/-- Two expansions that are parents of each other through different relations, and a third one. -/
def mixedCycle : List ExpansionNode :=
  [⟨⟨0⟩, .macroCall .bang "m", none, some ⟨1⟩, none, none, none, none, none⟩,
    ⟨⟨1⟩, .macroCall .bang "m", none, none, some ⟨0⟩, some ⟨0⟩, some ⟨1⟩, none, none⟩,
    ⟨⟨2⟩, .macroCall .bang "m", none, none, none, none, some ⟨2⟩, none, none⟩]

open ReachabilityCall in
theorem expansionSourceSurvival_mixedCycle :
    IsGreatest {S | KeptExpansions mixedCycle {unit | some (decide (unit = ⟨2⟩)) = some true} S}
        (marked [false, false, true]) ∧
      ∃ sites index c lane surviving, SourceSiteOwnerIndex.new invocationSource = .ok sites ∧
        CompilerReachabilityIndex.new invocationSource sites invocationGraph ∅ = .ok index ∧
        runAll index ([addSources [⟨1⟩]] ++ [close]) = .ok (c, lane) ∧
        survivingExpansions invocationGraph invocationSource {⟨1⟩} = .ok surviving ∧
        IsGreatest {S | KeptExpansions invocationGraph.expansions ↑({⟨1⟩} : Finset SourceUnitId) S}
          (marked surviving) := by
  constructor
  · have hdense : DenseExpansions mixedCycle := by
      intro x node hx
      rcases x with _ | _ | _ | x
      · cases hx
        exact ⟨rfl, by decide⟩
      · cases hx
        exact ⟨rfl, by decide⟩
      · cases hx
        exact ⟨rfl, by decide⟩
      · cases hx
    obtain ⟨surviving, hrun, -, hgreatest⟩ := expansionSourceSurvival_spec.1 mixedCycle
      (fun unit => some (decide (unit = ⟨2⟩))) hdense fun _ _ _ _ => rfl
    have hlist : expansionSourceSurvival mixedCycle (fun unit => some (decide (unit = ⟨2⟩))) =
        some [false, false, true] := by decide
    rw [hrun] at hlist
    cases hlist
    exact hgreatest
  · have hcalls : ∃ sites index c lane, SourceSiteOwnerIndex.new invocationSource = .ok sites ∧
        CompilerReachabilityIndex.new invocationSource sites invocationGraph ∅ = .ok index ∧
        runAll index ([addSources [⟨1⟩]] ++ [close]) = .ok (c, lane) :=
      ⟨_, _, _, _, rfl, rfl, rfl⟩
    obtain ⟨sites, index, c, lane, hsites, hindex, hrun⟩ := hcalls
    obtain ⟨surviving, -, -, hsurviving, -, hgreatest, -⟩ := expansionSourceSurvival_spec.2
      invocationSource sites invocationGraph ∅ index hindex _ c lane hrun {⟨1⟩}
      (by ext u; simp [addedSources])
    exact ⟨sites, index, c, lane, surviving, hsites, hindex, hrun, hsurviving, hgreatest⟩

end Selection

end ItemDependencies
