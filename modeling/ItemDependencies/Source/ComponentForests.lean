import ItemDependencies.Library.Nesting
import ItemDependencies.Library.PathMemo

/-!
# Forests of template components

The components of a macro template are a forest, given by the parent of each component in no
particular order.  Two passes go up from each component to a root or to a component that an
earlier walk has resolved: one passes flags to the components below and above, the other keeps
for each component the nearest repetition on its path and the one before it.
-/

namespace ItemDependencies

open Library List

/-! ## Flags -/

/-- Flags passed down to the descendants of marked components and up to their ancestors. -/
structure ComponentFlagClosure where
  ancestors : List Bool
  descendants : List Bool
deriving DecidableEq

/-- The flags of the components that reach a root, in the order in which they were resolved. -/
structure FlagResolution where
  ancestors : List (Option Bool)
  resolved : List Nat

/-- What ends a walk at a component before it is passed: it is out of range, resolved, or on the
current chain. -/
def flagSeen (parents : List (Option Nat)) (ancestors : List (Option Bool)) (path : List Nat)
    (index : Nat) : Option (Option Bool) :=
  if parents.length ≤ index then some none
  else
    match ancestors[index]?.join with
    | some flag => some (some flag)
    | none => if index ∈ path then some none else none

def flagStep (parents : List (Option Nat)) (index : Nat) : WalkStep Nat (Option Bool) :=
  match parents[index]?.join with
  | none => .stop (some false)
  | some parent => .up parent

def inheritFlag (marked : List Bool) (index : Nat) (inherited : Bool) : Bool :=
  inherited || marked[index]?.getD false

/-- Resolve a component and the unresolved components above it. -/
def resolveFlag (parents : List (Option Nat)) (marked : List Bool) (resolution : FlagResolution)
    (start : Nat) : Option FlagResolution :=
  match resolution.ancestors[start]?.join with
  | some _ => some resolution
  | none =>
    match climbPath (flagSeen parents resolution.ancestors) (flagStep parents) none
        (parents.length + 1) [] start with
    | (none, _) => none
    | (some inherited, path) =>
      some {
        ancestors := settlePath (inheritFlag marked) inherited path resolution.ancestors
        resolved := resolution.resolved ++ path.reverse }

/-- A flagged component flags its parent. -/
def flagParent (parents : List (Option Nat)) (descendants : List Bool) (index : Nat) : List Bool :=
  if descendants[index]?.getD false then
    match parents[index]?.join with
    | some parent => descendants.set parent true
    | none => descendants
  else descendants

def componentFlagClosure (parents : List (Option Nat)) (marked : List Bool) :
    Option ComponentFlagClosure :=
  if parents.length ≠ marked.length then none
  else do
    let resolution ← (List.range parents.length).foldlM (resolveFlag parents marked)
      ⟨List.replicate parents.length none, []⟩
    pure {
      ancestors := resolution.ancestors.map (·.getD false)
      descendants := resolution.resolved.reverse.foldl (flagParent parents) marked }

/-! ## Repetitions -/

/-- The nearest repetition on the path of each component, and for a repetition the one before. -/
structure ComponentRepetitionIndex where
  nearest : List (Option Nat)
  previous : List (Option Nat)
deriving DecidableEq

/-- The nearest repetitions of the complete components. -/
structure RepetitionResolution where
  nearest : List (Option (Option Nat))
  previous : List (Option Nat)

def repetitionSeen (parents : List (Option Nat)) (nearest : List (Option (Option Nat)))
    (pending : List Nat) (current : Nat) : Option (Option Unit) :=
  if parents.length ≤ current then some none
  else
    match nearest[current]?.join with
    | some _ => some (some ())
    | none => if current ∈ pending then some none else none

def repetitionStep (parents : List (Option Nat)) (current : Nat) : WalkStep Nat (Option Unit) :=
  match parents[current]?.join with
  | none => .stop (some ())
  | some parent => if parents.length ≤ parent then .stop none else .up parent

/-- A component takes over the repetition of its parent, or is one itself. -/
def settleRepetition (parents : List (Option Nat)) (repetitions : List Bool) (component : Nat)
    (resolution : RepetitionResolution) : RepetitionResolution :=
  let parentRepetition := parents[component]?.join.bind fun parent =>
    resolution.nearest[parent]?.join.join
  if repetitions[component]?.getD false then
    { nearest := resolution.nearest.set component (some (some component))
      previous := resolution.previous.set component parentRepetition }
  else { resolution with nearest := resolution.nearest.set component (some parentRepetition) }

def resolveRepetition (parents : List (Option Nat)) (repetitions : List Bool)
    (resolution : RepetitionResolution) (start : Nat) : Option RepetitionResolution :=
  match resolution.nearest[start]?.join with
  | some _ => some resolution
  | none =>
    match climbPath (repetitionSeen parents resolution.nearest) (repetitionStep parents) none
        (parents.length + 1) [] start with
    | (none, _) => none
    | (some (), pending) =>
      some (pending.foldr (settleRepetition parents repetitions) resolution)

namespace ComponentRepetitionIndex

def new (parents : List (Option Nat)) (repetitions : List Bool) : Option ComponentRepetitionIndex :=
  if parents.length ≠ repetitions.length then none
  else do
    let resolution ← (List.range parents.length).foldlM (resolveRepetition parents repetitions)
      ⟨List.replicate parents.length none, List.replicate parents.length none⟩
    pure { nearest := resolution.nearest.map (·.join), previous := resolution.previous }

/-- The observed repetitions, the innermost first, are those that are linked from here. -/
def linked (previous : List (Option Nat)) : Option Nat → List Nat → Bool
  | expected, [] => expected.isNone
  | expected, observed :: rest =>
    if expected ≠ some observed then false else linked previous previous[observed]?.join rest

def matchesObserved (index : ComponentRepetitionIndex) (component : Nat) (observed : List Nat) :
    Bool :=
  match index.nearest[component]? with
  | none => false
  | some expected => linked index.previous expected observed.reverse

end ComponentRepetitionIndex

/-! ## Walks in a forest -/

variable {parents : List (Option Nat)} {marked : List Bool}

/-- Every parent is a component, and no component is above itself. -/
def IsForest (parents : List (Option Nat)) : Prop :=
  (∀ index parent, parentAt parents index = some parent → parent < parents.length) ∧
    ∀ index, ¬Relation.TransGen (Up (parentAt parents)) index index

/-- The chain of a component ends at a root, and is in range. -/
def Rooted (parents : List (Option Nat)) : Nat → Prop :=
  Grounded (parentAt parents) (Finset.range parents.length)

theorem isForest_iff : IsForest parents ↔ ∀ c < parents.length, Rooted parents c := by
  have h := forall_grounded_iff (parentAt parents) (Finset.range parents.length)
  simp only [Finset.mem_range] at h
  refine Iff.trans ?_ h.symm
  constructor
  · exact fun hf => ⟨fun c _ p hp => hf.1 c p hp, fun c _ => hf.2 c⟩
  · rintro ⟨hrange, hacyclic⟩
    refine ⟨fun c p hp => hrange c (lt_length_of_up hp) p hp, fun c hcycle => ?_⟩
    obtain ⟨b, hup, -⟩ := Relation.TransGen.head'_iff.mp hcycle
    exact hacyclic c (lt_length_of_up hup) hcycle

/-- The steps of a walk that follows the parents, with a value at the roots. -/
structure FollowsParents {γ : Type} (parents : List (Option Nat)) (atRoot : γ)
    (step : Nat → WalkStep Nat (Option γ)) : Prop where
  root : ∀ index, parentAt parents index = none → step index = .stop (some atRoot)
  child : ∀ index parent, parentAt parents index = some parent →
    step index = .up parent ∨ parents.length ≤ parent ∧ step index = .stop none

section Follows

variable {γ : Type} {atRoot value : γ} {step : Nat → WalkStep Nat (Option γ)}
  {inherit : Nat → γ → γ} {c : Nat}

/-- A walk that finds a value has followed the chain to a root. -/
theorem FollowsParents.induct (h : FollowsParents parents atRoot step) {P : Nat → γ → Prop}
    (root : ∀ c, c < parents.length → parentAt parents c = none → P c (inherit c atRoot))
    (child : ∀ c p value, c < parents.length → parentAt parents c = some p → P p value →
      P c (inherit c value))
    (hresolves : Resolves (beyond parents.length none) (step · = ·)
      (fun index => Option.map (inherit index)) c (some value)) : P c value := by
  generalize hfound : some value = found at hresolves
  induction hresolves generalizing value with
  | out hout =>
    subst hfound
    unfold beyond at hout
    split at hout <;> cases hout
  | @stop a found hno hstep =>
    have ha := beyond_eq_none.mp hno
    cases hparent : parentAt parents a with
    | none =>
      cases hstep.symm.trans (h.root a hparent)
      cases hfound
      exact root a ha hparent
    | some p =>
      rcases h.child a p hparent with hup | ⟨-, hstop⟩
      · cases hstep.symm.trans hup
      · cases hstep.symm.trans hstop
        cases hfound
  | @up a next found hno hstep _ ih =>
    have ha := beyond_eq_none.mp hno
    cases hparent : parentAt parents a with
    | none => cases hstep.symm.trans (h.root a hparent)
    | some p =>
      rcases h.child a p hparent with hup | ⟨-, hstop⟩
      · cases hstep.symm.trans hup
        cases found with
        | none => cases hfound
        | some w =>
          cases hfound
          exact child a _ w ha hparent (ih rfl)
      · cases hstep.symm.trans hstop

theorem FollowsParents.rooted (h : FollowsParents parents atRoot step)
    (houtcome : Outcome (beyond parents.length none) step
      (fun index => Option.map (inherit index)) none c (some value)) : Rooted parents c := by
  rcases houtcome with hresolves | ⟨-, hfound⟩
  · exact h.induct (P := fun c _ => Rooted parents c)
      (fun c hc hp => .root (Finset.mem_range.mpr hc) hp)
      (fun c p _ hc hp hg => .child (Finset.mem_range.mpr hc) hp hg) hresolves
  · cases hfound

theorem FollowsParents.resolves (h : FollowsParents parents atRoot step)
    (hrooted : Rooted parents c) : ∃ value,
      Resolves (beyond parents.length none) (step · = ·) (fun index => Option.map (inherit index)) c
        (some value) := by
  induction hrooted with
  | @root a ha hp =>
    refine ⟨inherit a atRoot, ?_⟩
    change Resolves _ _ _ a (Option.map (inherit a) (some atRoot))
    exact .stop (beyond_eq_none.mpr (Finset.mem_range.mp ha)) (h.root a hp)
  | @child a p ha hp hg ih =>
    obtain ⟨value, hvalue⟩ := ih
    have hp' := Finset.mem_range.mp hg.mem
    have hno : beyond parents.length (none : Option γ) a = none :=
      beyond_eq_none.mpr (Finset.mem_range.mp ha)
    rcases h.child a p hp with hup | ⟨hle, -⟩
    · exact ⟨inherit a value, .up hno hup hvalue⟩
    · exact absurd hp' (by omega)

/-- A component whose walk fails has no chain to a root. -/
theorem FollowsParents.not_rooted (h : FollowsParents parents atRoot step)
    (houtcome : Outcome (beyond parents.length none) step
      (fun index => Option.map (inherit index)) none c none) : ¬Rooted parents c := by
  intro hrooted
  obtain ⟨value, hresolves⟩ := h.resolves hrooted
  cases houtcome.unique (.inl hresolves)

/-- A walk beside what earlier walks have left: it fails where no root is reached, and otherwise
its path goes up to a root or to a known component. -/
theorem FollowsParents.climb (h : FollowsParents parents atRoot step) {known : Nat → Option γ}
    {found : Option γ} {path : List Nat}
    (hsound : ∀ b w, known b = some w → Outcome (beyond parents.length none) step
      (fun index => Option.map (inherit index)) none b (some w))
    (hc : c < parents.length) (hknown : known c = none)
    (hclimb : climbPath (seenOf (beyond parents.length none)
        (fun index => (known index).map some) none) step none (parents.length + 1) [] c =
      (found, path)) :
    (found = none → ¬Rooted parents c) ∧ ∀ value, found = some value →
      path.Nodup ∧ c ∈ path ∧ (∀ b ∈ path, b < parents.length ∧ known b = none) ∧
        ∀ before b after, path = before ++ b :: after →
          Outcome (beyond parents.length none) step (fun index => Option.map (inherit index)) none b
            (some (inherit b (after.foldr inherit value))) ∧
          ∀ parent, parentAt parents b = some parent →
            after.head? = some parent ∨ after = [] ∧ ∃ w, known parent = some w := by
  obtain ⟨hnodup, hmem, hfresh, hpath⟩ := climbPath_start
    (fun b hb => Finset.mem_range.mpr (beyond_eq_none.mp hb)) (fun _ _ => rfl)
    (fun b w _ hb => by
      obtain ⟨v, hv, rfl⟩ := Option.map_eq_some_iff.mp hb
      exact hsound b v hv)
    (by rw [Finset.card_range]; omega) (beyond_eq_none.mpr hc) (by rw [hknown]; rfl) hclimb
  constructor
  · rintro rfl
    obtain ⟨before, after, hsplit⟩ := append_of_mem hmem
    have houtcome := (hpath before c after hsplit).1
    rw [foldr_fixed' fun _ => rfl] at houtcome
    exact h.not_rooted houtcome
  · rintro value rfl
    refine ⟨hnodup, hmem, fun b hb => ?_, fun before b after hsplit => ?_⟩
    · obtain ⟨hout, hk⟩ := hfresh b hb
      exact ⟨beyond_eq_none.mp hout, Option.map_eq_none_iff.mp hk⟩
    · obtain ⟨houtcome, hnext⟩ := hpath before b after hsplit
      rw [foldr_hom some fun _ _ => rfl] at houtcome
      refine ⟨houtcome, fun parent hparent => ?_⟩
      rcases h.child b parent hparent with hup | ⟨hle, hstop⟩
      · rcases hnext parent hup with hhead | ⟨hnil, hseen⟩
        · exact .inl hhead
        · refine .inr ⟨hnil, ?_⟩
          cases hk : known parent with
          | some w => exact ⟨w, rfl⟩
          | none =>
            rw [seenOf, hk, Option.map_none, Option.none_or, beyond] at hseen
            split at hseen
            · cases hseen
            · rw [Option.none_or] at hseen
              split at hseen <;> cases hseen
      · -- a parent out of range gives no value
        exact absurd (h.rooted houtcome) fun hrooted => by
          cases hrooted with
          | root _ hp => cases hp.symm.trans hparent
          | child _ hp hg =>
            cases hp.symm.trans hparent
            exact absurd (Finset.mem_range.mp hg.mem) (by omega)

end Follows

/-! ## Flags of the components above and below -/

section Flags

variable {ancestors : List (Option Bool)} {c : Nat} {flag : Bool}

theorem followsParents_flagStep : FollowsParents parents false (flagStep parents) where
  root index h := by
    rw [flagStep]
    rw [parentAt] at h
    rw [h]
  child index parent h := by
    rw [flagStep]
    rw [parentAt] at h
    rw [h]
    exact .inl rfl

theorem flagSeen_eq : flagSeen parents ancestors = seenOf (beyond parents.length none)
    (fun index => ancestors[index]?.join.map some) none := by
  funext path index
  unfold flagSeen seenOf beyond
  split
  · rfl
  · rw [Option.none_or]
    dsimp only
    cases ancestors[index]?.join <;> rfl

/-- What a walk without earlier ones finds for the flags above. -/
abbrev FlagOutcome (parents : List (Option Nat)) (marked : List Bool) : Nat → Option Bool → Prop :=
  Outcome (beyond parents.length none) (flagStep parents)
    (fun index => Option.map (inheritFlag marked index)) none

/-- The component is marked. -/
def IsMarked (marked : List Bool) (component : Nat) : Prop := marked[component]? = some true

theorem isMarked_iff : IsMarked marked c ↔ marked[c]?.getD false = true := by
  unfold IsMarked
  cases marked[c]? <;> simp

/-- The flag is set if the component or one above it is marked. -/
theorem FlagOutcome.flag_iff (h : FlagOutcome parents marked c (some flag)) :
    flag = true ↔ ∃ b, Below (parentAt parents) c b ∧ IsMarked marked b := by
  rcases h with hresolves | ⟨-, hfound⟩
  · refine followsParents_flagStep.induct (P := fun c flag => flag = true ↔
      ∃ b, Below (parentAt parents) c b ∧ IsMarked marked b) (fun c _ hroot => ?_)
      (fun c p flag _ hup ih => ?_) hresolves
    · rw [inheritFlag, Bool.false_or, ← isMarked_iff]
      refine ⟨fun h => ⟨c, .refl, h⟩, fun ⟨b, hcb, hb⟩ => ?_⟩
      exact (eq_of_below_root hroot hcb).symm ▸ hb
    · rw [inheritFlag, Bool.or_eq_true, ← isMarked_iff, ih]
      constructor
      · rintro (⟨b, hpb, hb⟩ | hc)
        · exact ⟨b, .head hup hpb, hb⟩
        · exact ⟨c, .refl, hc⟩
      · rintro ⟨b, hcb, hb⟩
        rcases Relation.ReflTransGen.cases_head hcb with rfl | ⟨q, hq, hqb⟩
        · exact .inr hb
        · cases hup.symm.trans hq
          exact .inl ⟨b, hqb, hb⟩
  · cases hfound

/-- Each component stands after its parent. -/
def ParentsFirst (parents : List (Option Nat)) (order : List Nat) : Prop :=
  ∀ before b after, order = before ++ b :: after →
    ∀ parent, parentAt parents b = some parent → parent ∈ before

/-- What has been resolved after the walks from some components. -/
structure FlagInv (parents : List (Option Nat)) (marked : List Bool) (done : List Nat)
    (resolution : FlagResolution) : Prop where
  length : resolution.ancestors.length = parents.length
  sound : ∀ c flag, resolution.ancestors[c]? = some (some flag) →
    FlagOutcome parents marked c (some flag)
  done : ∀ c ∈ done, c ∈ resolution.resolved
  resolved : ∀ c, c ∈ resolution.resolved ↔ ∃ flag, resolution.ancestors[c]? = some (some flag)
  nodup : resolution.resolved.Nodup
  order : ParentsFirst parents resolution.resolved

theorem join_eq_some {γ : Type} {table : List (Option γ)} {value : γ} :
    table[c]?.join = some value ↔ table[c]? = some (some value) := Option.join_eq_some_iff

/-- The nodes of a path, innermost first, come after what was resolved before. -/
theorem parentsFirst_append {order path : List Nat} (h : ParentsFirst parents order)
    (hpath : ∀ before b after, path = before ++ b :: after → ∀ parent,
      parentAt parents b = some parent → after.head? = some parent ∨ parent ∈ order) :
    ParentsFirst parents (order ++ path.reverse) := by
  intro before b after hsplit parent hparent
  rcases append_eq_append_iff.mp hsplit with ⟨middle, rfl, hrest⟩ | ⟨middle, rfl, hrest⟩
  · have hreverse : path = after.reverse ++ b :: middle.reverse := by
      rw [← reverse_reverse path, hrest]
      simp
    rcases hpath _ b _ hreverse parent hparent with hhead | hmem
    · exact mem_append_right _ (mem_reverse.mp (mem_of_mem_head? hhead))
    · exact mem_append_left _ hmem
  · cases middle with
    | nil =>
      have hreverse : path = after.reverse ++ b :: [] := by
        rw [← reverse_reverse path, ← nil_append path.reverse, ← hrest]
        simp
      rcases hpath _ b _ hreverse parent hparent with hhead | hmem
      · cases hhead
      · exact append_nil before ▸ hmem
    | cons b' middle =>
      cases hrest
      exact h before b middle rfl parent hparent

theorem FlagInv.step {done : List Nat} {resolution resolution' : FlagResolution} {start : Nat}
    (h : FlagInv parents marked done resolution) (hstart : start < parents.length)
    (hrun : resolveFlag parents marked resolution start = some resolution') :
    FlagInv parents marked (done ++ [start]) resolution' := by
  have hdone : ∀ {resolved : List Nat}, resolution.resolved ⊆ resolved → start ∈ resolved →
      ∀ c ∈ done ++ [start], c ∈ resolved := by
    intro resolved hsub hmem c hc
    rcases mem_append.mp hc with hc | hc
    · exact hsub (h.done c hc)
    · cases mem_singleton.mp hc
      exact hmem
  unfold resolveFlag at hrun
  cases hknown : resolution.ancestors[start]?.join with
  | some flag =>
    rw [hknown] at hrun
    cases hrun
    have hmem := (h.resolved start).mpr ⟨flag, join_eq_some.mp hknown⟩
    exact ⟨h.length, h.sound, hdone (List.Subset.refl _) hmem, h.resolved, h.nodup, h.order⟩
  | none =>
    rw [hknown, flagSeen_eq] at hrun
    dsimp only at hrun
    generalize hclimb : climbPath _ _ _ _ _ _ = found at hrun
    obtain ⟨value, path⟩ := found
    have hwalk := (followsParents_flagStep.climb
      (fun b w hb => h.sound b w (join_eq_some.mp hb)) hstart hknown hclimb).2
    cases value with
    | none => cases hrun
    | some inherited =>
      cases hrun
      obtain ⟨hnodup, hmem, hfresh, hpath⟩ := hwalk inherited rfl
      have hat : ∀ b ∈ path, ∃ flag, (settlePath (inheritFlag marked) inherited path
          resolution.ancestors)[b]? = some (some flag) ∧ FlagOutcome parents marked b (some flag) :=
        fun b hb => by
          obtain ⟨before, after, hsplit⟩ := append_of_mem hb
          have hlt : b < resolution.ancestors.length := h.length ▸ (hfresh b hb).1
          exact ⟨_, settlePath_at hsplit hnodup hlt, (hpath before b after hsplit).1⟩
      have hold : ∀ b ∈ resolution.resolved, b ∉ path := fun b hb hmem => by
        obtain ⟨flag, hflag⟩ := (h.resolved b).mp hb
        cases (hfresh b hmem).2.symm.trans (join_eq_some.mpr hflag)
      refine ⟨by rw [length_settlePath, h.length], fun c flag hc => ?_,
        hdone (subset_append_left _ _) (by simp [hmem]), fun c => ?_, ?_, ?_⟩
      · by_cases hcp : c ∈ path
        · obtain ⟨flag', hflag', houtcome⟩ := hat c hcp
          cases hc.symm.trans hflag'
          exact houtcome
        · rw [settlePath_of_notMem hcp] at hc
          exact h.sound c flag hc
      · rw [mem_append, mem_reverse]
        by_cases hcp : c ∈ path
        · obtain ⟨flag, hflag, -⟩ := hat c hcp
          exact ⟨fun _ => ⟨flag, hflag⟩, fun _ => .inr hcp⟩
        · rw [settlePath_of_notMem hcp, ← h.resolved, or_iff_left hcp]
      · exact nodup_append.mpr ⟨h.nodup, nodup_reverse.mpr hnodup,
          fun b hb b' hb' heq => hold b hb (heq ▸ mem_reverse.mp hb')⟩
      · refine parentsFirst_append h.order fun before b after hsplit parent hparent => ?_
        rcases (hpath before b after hsplit).2 parent hparent with hhead | ⟨-, w, hw⟩
        · exact .inl hhead
        · exact .inr ((h.resolved parent).mpr ⟨w, join_eq_some.mp hw⟩)

/-- The walk from a component fails only if the component is below no root. -/
theorem FlagInv.not_rooted {done : List Nat} {resolution : FlagResolution} {start : Nat}
    (h : FlagInv parents marked done resolution) (hstart : start < parents.length)
    (hrun : resolveFlag parents marked resolution start = none) : ¬Rooted parents start := by
  unfold resolveFlag at hrun
  cases hknown : resolution.ancestors[start]?.join with
  | some flag =>
    rw [hknown] at hrun
    cases hrun
  | none =>
    rw [hknown, flagSeen_eq] at hrun
    dsimp only at hrun
    generalize hclimb : climbPath _ _ _ _ _ _ = found at hrun
    obtain ⟨value, path⟩ := found
    cases value with
    | none =>
      exact (followsParents_flagStep.climb
        (fun b w hb => h.sound b w (join_eq_some.mp hb)) hstart hknown hclimb).1 rfl
    | some inherited => cases hrun

/-- All walks together: they succeed in a forest only, and resolve every component. -/
theorem resolveFlags_cases (parents : List (Option Nat)) (marked : List Bool) :
    (∃ resolution, (List.range parents.length).foldlM (resolveFlag parents marked)
        ⟨List.replicate parents.length none, []⟩ = some resolution ∧
        FlagInv parents marked (List.range parents.length) resolution ∧ IsForest parents) ∨
      (List.range parents.length).foldlM (resolveFlag parents marked)
        ⟨List.replicate parents.length none, []⟩ = none ∧ ¬IsForest parents := by
  have hstart : FlagInv parents marked [] ⟨List.replicate parents.length none, []⟩ := by
    have hnone : ∀ (c : Nat) flag, (List.replicate parents.length (none : Option Bool))[c]? ≠
        some (some flag) := fun c flag h => by
      rw [getElem?_replicate] at h
      split at h <;> cases h
    refine ⟨length_replicate, fun c flag h => absurd h (hnone c flag), by simp, fun c => ?_,
      .nil, fun before b after h => ?_⟩
    · exact ⟨fun h => absurd h not_mem_nil, fun ⟨flag, h⟩ => absurd h (hnone c flag)⟩
    · cases before <;> cases h
  rcases foldlM_option (P := FlagInv parents marked)
    (fun done a s t ha h hrun => h.step (mem_range.mp ha) hrun) hstart with
    ⟨resolution, hrun, h⟩ | ⟨hnone, done, a, s, ha, h, hfail⟩
  · refine .inl ⟨resolution, hrun, h, isForest_iff.mpr fun c hc => ?_⟩
    obtain ⟨flag, hflag⟩ := (h.resolved c).mp (h.done c (mem_range.mpr hc))
    exact followsParents_flagStep.rooted (h.sound c flag hflag)
  · have ha := mem_range.mp ha
    exact .inr ⟨hnone, fun hforest => h.not_rooted ha hfail (isForest_iff.mp hforest a ha)⟩

/-- In a complete order every child stands after its parent. -/
theorem mem_after_of_up {order before after : List Nat} {b : Nat} (h : ParentsFirst parents order)
    (hnodup : order.Nodup) (hall : ∀ c < parents.length, c ∈ order)
    (hsplit : order = before ++ b :: after) (hup : Up (parentAt parents) c b) : c ∈ after := by
  have hb : b ∉ before := fun hmem => by
    rw [hsplit] at hnodup
    exact (nodup_append.mp hnodup).2.2 b hmem b (by simp) rfl
  have hc := hall c (lt_length_of_up hup)
  rw [hsplit] at hc
  rcases mem_append.mp hc with hc | hc
  · obtain ⟨s, t, rfl⟩ := append_of_mem hc
    have hmem := h s c (t ++ b :: after) (by simp [hsplit]) b hup
    exact absurd (mem_append_left _ hmem) hb
  · rcases mem_cons.mp hc with rfl | hc
    · exact absurd (h before c after hsplit c hup) hb
    · exact hc

theorem isMarked_set {flags : List Bool} {p : Nat} (hp : p < flags.length) :
    IsMarked (flags.set p true) c ↔ IsMarked flags c ∨ c = p := by
  unfold IsMarked
  by_cases hcp : c = p
  · subst hcp
    rw [getElem?_set_self hp]
    exact ⟨fun _ => .inr rfl, fun _ => rfl⟩
  · rw [getElem?_set_ne (Ne.symm hcp), or_iff_left hcp]

/-- The pass backwards flags the parents of the components that were passed. -/
theorem foldr_flagParent {order : List Nat} (h : ParentsFirst parents order)
    (hnodup : order.Nodup) (hall : ∀ c < parents.length, c ∈ order)
    (hrange : ∀ c p, parentAt parents c = some p → p < marked.length) {before after : List Nat}
    (hsplit : order = before ++ after) :
    (after.foldr (fun index flags => flagParent parents flags index) marked).length =
        marked.length ∧
      ∀ c, IsMarked (after.foldr (fun index flags => flagParent parents flags index) marked) c ↔
        IsMarked marked c ∨ ∃ b ∈ after, Up (parentAt parents) b c ∧
          ∃ x, Below (parentAt parents) x b ∧ IsMarked marked x := by
  induction after generalizing before with
  | nil => simp
  | cons b after ih =>
    obtain ⟨hlength, hflags⟩ := ih (show order = (before ++ [b]) ++ after by simp [hsplit])
    rw [foldr_cons]
    generalize after.foldr (fun index flags => flagParent parents flags index) marked = flags at *
    have hb : IsMarked flags b ↔ ∃ x, Below (parentAt parents) x b ∧ IsMarked marked x := by
      rw [hflags]
      constructor
      · rintro (hb | ⟨c, -, hup, x, hxc, hx⟩)
        · exact ⟨b, .refl, hb⟩
        · exact ⟨x, hxc.tail hup, hx⟩
      · rintro ⟨x, hxb, hx⟩
        rcases Relation.ReflTransGen.cases_tail hxb with rfl | ⟨c, hxc, hup⟩
        · exact .inl hx
        · exact .inr ⟨c, mem_after_of_up h hnodup hall hsplit hup, hup, x, hxc, hx⟩
    have hcons : ∀ c, (IsMarked marked c ∨ ∃ b' ∈ b :: after, Up (parentAt parents) b' c ∧
        ∃ x, Below (parentAt parents) x b' ∧ IsMarked marked x) ↔
          IsMarked flags c ∨ Up (parentAt parents) b c ∧ IsMarked flags b := fun c => by
      rw [hflags c, hb]
      simp only [mem_cons, or_and_right, exists_or, exists_eq_left]
      rw [or_assoc, or_comm (a := Up (parentAt parents) b c ∧ _)]
    simp only [hcons]
    unfold flagParent
    split
    · rename_i hmark
      have hmark := isMarked_iff.mpr hmark
      cases hparent : parents[b]?.join with
      | none =>
        exact ⟨hlength, fun c => ⟨.inl, fun h => h.resolve_right fun h => by
          cases hparent.symm.trans h.1⟩⟩
      | some p =>
        have hp : p < flags.length := hlength ▸ hrange b p hparent
        refine ⟨by rw [length_set, hlength], fun c => ?_⟩
        rw [isMarked_set hp]
        refine or_congr_right ⟨fun h => ?_, fun h => ?_⟩
        · exact h ▸ ⟨hparent, hmark⟩
        · exact Option.some.inj (h.1.symm.trans hparent)
    · rename_i hmark
      exact ⟨hlength, fun c => ⟨.inl, fun h => h.resolve_right fun h =>
        hmark (isMarked_iff.mp h.2)⟩⟩

/-- What the two passes over the flags compute. -/
structure ClosesFlags (parents : List (Option Nat)) (marked : List Bool)
    (closure : ComponentFlagClosure) : Prop where
  ancestors_length : closure.ancestors.length = parents.length
  descendants_length : closure.descendants.length = parents.length
  ancestors : ∀ c, IsMarked closure.ancestors c ↔
    ∃ b, Below (parentAt parents) c b ∧ IsMarked marked b
  descendants : ∀ c, IsMarked closure.descendants c ↔
    ∃ b, Below (parentAt parents) b c ∧ IsMarked marked b

theorem lt_of_isMarked {flags : List Bool} (h : IsMarked flags c) : c < flags.length :=
  (List.getElem?_eq_some_iff.mp h).1

theorem componentFlagClosure_cases (parents : List (Option Nat)) (marked : List Bool) :
    (∃ closure, componentFlagClosure parents marked = some closure ∧
        (parents.length = marked.length ∧ IsForest parents) ∧
        ClosesFlags parents marked closure) ∨
      componentFlagClosure parents marked = none ∧
        ¬(parents.length = marked.length ∧ IsForest parents) := by
  unfold componentFlagClosure
  by_cases hlength : parents.length = marked.length
  · rw [if_neg (not_not.mpr hlength)]
    rcases resolveFlags_cases parents marked with ⟨resolution, hrun, h, hforest⟩ | ⟨hrun, hforest⟩
    · refine .inl ⟨_, by rw [hrun]; rfl, ⟨hlength, hforest⟩, ?_⟩
      obtain ⟨hdescendants, hflags⟩ := foldr_flagParent h.order h.nodup
        (fun c hc => h.done c (mem_range.mpr hc))
        (fun c p hp => hlength ▸ hforest.1 c p hp) (nil_append _).symm
      refine ⟨by rw [length_map, h.length], ?_, fun c => ?_, fun c => ?_⟩
      · rw [foldl_reverse, hdescendants, hlength]
      · by_cases hc : c < parents.length
        · obtain ⟨flag, hflag⟩ := (h.resolved c).mp (h.done c (mem_range.mpr hc))
          rw [← (h.sound c flag hflag).flag_iff, IsMarked, getElem?_map, hflag]
          simp
        · refine ⟨fun h' => ?_, fun ⟨b, hcb, hb⟩ => ?_⟩
          · have hlt := lt_of_isMarked h'
            rw [length_map, h.length] at hlt
            exact absurd hlt hc
          · rcases Relation.ReflTransGen.cases_head hcb with rfl | ⟨p, hup, -⟩
            · exact absurd (hlength ▸ lt_of_isMarked hb) hc
            · exact absurd (lt_length_of_up hup) hc
      · rw [foldl_reverse, hflags]
        constructor
        · rintro (hc | ⟨b, -, hup, x, hxb, hx⟩)
          · exact ⟨c, .refl, hc⟩
          · exact ⟨x, hxb.tail hup, hx⟩
        · rintro ⟨x, hxc, hx⟩
          rcases Relation.ReflTransGen.cases_tail hxc with rfl | ⟨b, hxb, hup⟩
          · exact .inl hx
          · have hb := h.done b (mem_range.mpr (lt_length_of_up hup))
            exact .inr ⟨b, hb, hup, x, hxb, hx⟩
    · exact .inr ⟨by rw [hrun]; rfl, fun h => hforest h.2⟩
  · rw [if_pos hlength]
    exact .inr ⟨rfl, fun h => hlength h.1⟩

end Flags

/-! ## Repetitions on the paths from the roots -/

/-- The components on the way from a root to a component, which is the last of them. -/
inductive ComponentPath (parents : List (Option Nat)) : Nat → List Nat → Prop
  | root {c : Nat} (hc : c < parents.length) (hroot : parentAt parents c = none) :
      ComponentPath parents c ([] ++ [c])
  | child {c p : Nat} {path : List Nat} (hc : c < parents.length)
      (hup : parentAt parents c = some p) (hpath : ComponentPath parents p path) :
      ComponentPath parents c (path ++ [c])

section Repetitions

variable {repetitions : List Bool} {c p : Nat} {path : List Nat} {resolution : RepetitionResolution}

theorem ComponentPath.unique {path' : List Nat} (h : ComponentPath parents c path)
    (h' : ComponentPath parents c path') : path = path' := by
  induction h generalizing path' with
  | root hc hroot =>
    cases h' with
    | root => rfl
    | child _ hup => cases hroot.symm.trans hup
  | child hc hup _ ih =>
    cases h' with
    | root _ hroot => cases hroot.symm.trans hup
    | child _ hup' hpath' =>
      cases hup.symm.trans hup'
      rw [ih hpath']

theorem rooted_iff : Rooted parents c ↔ ∃ path, ComponentPath parents c path := by
  constructor
  · intro h
    induction h with
    | root hc hroot => exact ⟨_, .root (Finset.mem_range.mp hc) hroot⟩
    | child hc hup _ ih =>
      obtain ⟨path, hpath⟩ := ih
      exact ⟨_, .child (Finset.mem_range.mp hc) hup hpath⟩
  · rintro ⟨path, h⟩
    induction h with
    | root hc hroot => exact .root (Finset.mem_range.mpr hc) hroot
    | child hc hup _ ih => exact .child (Finset.mem_range.mpr hc) hup ih

/-- The components of a list that are repetitions. -/
def repetitionsOf (repetitions : List Bool) (path : List Nat) : List Nat :=
  path.filter fun component => repetitions[component]?.getD false

theorem repetitionsOf_concat : repetitionsOf repetitions (path ++ [c]) =
    if repetitions[c]?.getD false then repetitionsOf repetitions path ++ [c]
    else repetitionsOf repetitions path := by
  rw [repetitionsOf, filter_append, filter_singleton]
  cases repetitions[c]?.getD false
  · exact append_nil _
  · rfl

theorem followsParents_repetitionStep : FollowsParents parents () (repetitionStep parents) where
  root index h := by
    rw [parentAt] at h
    rw [repetitionStep, h]
  child index parent h := by
    rw [parentAt] at h
    rw [repetitionStep, h]
    dsimp only
    split
    · rename_i hle
      exact .inr ⟨hle, rfl⟩
    · exact .inl rfl

theorem repetitionSeen_eq {nearest : List (Option (Option Nat))} :
    repetitionSeen parents nearest = seenOf (beyond parents.length none)
      (fun index => (nearest[index]?.join.map fun _ => ()).map some) none := by
  funext pending index
  unfold repetitionSeen seenOf beyond
  split
  · rfl
  · rw [Option.none_or]
    dsimp only
    cases nearest[index]?.join <;> rfl

/-- The entries of the components that are complete. -/
structure RepetitionInv (parents : List (Option Nat)) (repetitions : List Bool)
    (resolution : RepetitionResolution) : Prop where
  nearest_length : resolution.nearest.length = parents.length
  previous_length : resolution.previous.length = parents.length
  nearest : ∀ c found, resolution.nearest[c]? = some (some found) →
    ∃ path, ComponentPath parents c path ∧ found = (repetitionsOf repetitions path).getLast?
  previous : ∀ c found, resolution.nearest[c]? = some (some found) →
    repetitions[c]?.getD false = true → ∀ path, ComponentPath parents c path →
      resolution.previous[c]?.join = (repetitionsOf repetitions path.dropLast).getLast?

/-- The component is complete. -/
def Complete (resolution : RepetitionResolution) (c : Nat) : Prop :=
  ∃ found, resolution.nearest[c]? = some (some found)

/-- One component takes over what its parent has. -/
theorem RepetitionInv.settle (h : RepetitionInv parents repetitions resolution)
    (hc : c < parents.length) (hnew : ¬Complete resolution c)
    (hparent : ∀ p, parentAt parents c = some p → Complete resolution p) :
    RepetitionInv parents repetitions (settleRepetition parents repetitions c resolution) ∧
      ∀ b, Complete (settleRepetition parents repetitions c resolution) b ↔
        Complete resolution b ∨ b = c := by
  -- the path above the component, empty for a root
  obtain ⟨above, hpath, hfound⟩ : ∃ above, ComponentPath parents c (above ++ [c]) ∧
      (parents[c]?.join.bind fun parent => resolution.nearest[parent]?.join.join) =
        (repetitionsOf repetitions above).getLast? := by
    cases hup : parents[c]?.join with
    | none => exact ⟨[], .root hc hup, rfl⟩
    | some p =>
      obtain ⟨found, hfound⟩ := hparent p hup
      obtain ⟨path, hpath, rfl⟩ := h.nearest p found hfound
      refine ⟨path, .child hc hup hpath, ?_⟩
      rw [Option.bind_some, hfound]
      rfl
  have hlt : c < resolution.nearest.length := h.nearest_length ▸ hc
  have hne : ∀ {b found}, resolution.nearest[b]? = some (some found) → c ≠ b :=
    fun hb heq => hnew ⟨_, heq ▸ hb⟩
  have hcomplete : ∀ (found : Option Nat) b, (∃ w, (resolution.nearest.set c (some found))[b]? =
      some (some w)) ↔ Complete resolution b ∨ b = c := fun found b => by
    by_cases hb : b = c
    · subst hb
      rw [getElem?_set_self hlt]
      exact ⟨fun _ => .inr rfl, fun _ => ⟨found, rfl⟩⟩
    · rw [getElem?_set_ne (Ne.symm hb), or_iff_left hb]
      rfl
  have hnearest : ∀ found, found = (repetitionsOf repetitions (above ++ [c])).getLast? →
      ∀ b w, (resolution.nearest.set c (some found))[b]? = some (some w) →
        ∃ path, ComponentPath parents b path ∧ w = (repetitionsOf repetitions path).getLast? := by
    intro found hlast b w hb
    by_cases hbc : b = c
    · subst hbc
      rw [getElem?_set_self hlt] at hb
      cases hb
      exact ⟨_, hpath, hlast⟩
    · rw [getElem?_set_ne (Ne.symm hbc)] at hb
      exact h.nearest b w hb
  unfold settleRepetition
  dsimp only
  rw [hfound]
  split
  · rename_i hrepetition
    refine ⟨⟨by rw [length_set, h.nearest_length], by rw [length_set, h.previous_length],
      hnearest _ ?_, fun b w hb hrep path hbpath => ?_⟩, hcomplete _⟩
    · rw [repetitionsOf_concat, if_pos hrepetition, getLast?_concat]
    · by_cases hbc : b = c
      · subst hbc
        cases hbpath.unique hpath
        rw [getElem?_set_self (h.previous_length ▸ hc), dropLast_concat]
        rfl
      · rw [getElem?_set_ne (Ne.symm hbc)] at hb
        rw [getElem?_set_ne (Ne.symm hbc)]
        exact h.previous b w hb hrep path hbpath
  · rename_i hrepetition
    refine ⟨⟨by rw [length_set, h.nearest_length], h.previous_length, hnearest _ ?_,
      fun b w hb hrep path hbpath => ?_⟩, hcomplete _⟩
    · rw [repetitionsOf_concat, if_neg hrepetition]
    · by_cases hbc : b = c
      · subst hbc
        exact absurd hrep hrepetition
      · rw [getElem?_set_ne (Ne.symm hbc)] at hb
        exact h.previous b w hb hrep path hbpath

/-- The components of a path are completed from its end. -/
theorem RepetitionInv.settleAll {pending : List Nat}
    (h : RepetitionInv parents repetitions resolution) (hnodup : pending.Nodup)
    (hfresh : ∀ b ∈ pending, b < parents.length ∧ ¬Complete resolution b)
    (hparent : ∀ before b after, pending = before ++ b :: after → ∀ p,
      parentAt parents b = some p → after.head? = some p ∨ Complete resolution p) :
    RepetitionInv parents repetitions
        (pending.foldr (settleRepetition parents repetitions) resolution) ∧
      ∀ b, Complete (pending.foldr (settleRepetition parents repetitions) resolution) b ↔
        Complete resolution b ∨ b ∈ pending := by
  induction pending with
  | nil => exact ⟨h, fun b => by simp⟩
  | cons b pending ih =>
    rw [nodup_cons] at hnodup
    rw [forall_mem_cons] at hfresh
    obtain ⟨hinv, hcomplete⟩ := ih hnodup.2 hfresh.2 fun before b' after hsplit =>
      hparent (b :: before) b' after (by rw [hsplit, cons_append])
    rw [foldr_cons]
    generalize pending.foldr (settleRepetition parents repetitions) resolution = below at *
    have hnew : ¬Complete below b := fun hb => by
      rcases (hcomplete b).mp hb with hb | hb
      · exact hfresh.1.2 hb
      · exact hnodup.1 hb
    have hup : ∀ p, parentAt parents b = some p → Complete below p := fun p hp => by
      rcases hparent [] b pending rfl p hp with hhead | hknown
      · exact (hcomplete p).mpr (.inr (mem_of_mem_head? hhead))
      · exact (hcomplete p).mpr (.inl hknown)
    obtain ⟨hinv', hcomplete'⟩ := hinv.settle hfresh.1.1 hnew hup
    refine ⟨hinv', fun x => ?_⟩
    rw [hcomplete', hcomplete, mem_cons, or_assoc, or_comm (a := x ∈ pending)]

theorem complete_iff : Complete resolution c ↔
    ∃ w, (resolution.nearest[c]?.join.map fun _ => ()) = some w := by
  constructor
  · rintro ⟨found, hfound⟩
    exact ⟨(), by rw [hfound]; rfl⟩
  · rintro ⟨w, hw⟩
    obtain ⟨found, hfound, -⟩ := Option.map_eq_some_iff.mp hw
    exact ⟨found, join_eq_some.mp hfound⟩

/-- A complete component has got its value on its own as well. -/
theorem RepetitionInv.outcome (h : RepetitionInv parents repetitions resolution) (b : Nat)
    (w : Unit) (hb : (resolution.nearest[b]?.join.map fun _ => ()) = some w) :
    Outcome (beyond parents.length none) (repetitionStep parents)
      (fun index => Option.map ((fun _ w => w : Nat → Unit → Unit) index)) none b
      (some w) := by
  obtain ⟨found, hfound⟩ := complete_iff.mpr ⟨w, hb⟩
  obtain ⟨path, hpath, -⟩ := h.nearest b found hfound
  obtain ⟨value, hvalue⟩ := followsParents_repetitionStep.resolves (rooted_iff.mpr ⟨path, hpath⟩)
  exact .inl hvalue

theorem RepetitionInv.resolve {start : Nat} (h : RepetitionInv parents repetitions resolution)
    (hstart : start < parents.length) :
    (∃ resolution', resolveRepetition parents repetitions resolution start = some resolution' ∧
        RepetitionInv parents repetitions resolution' ∧ Complete resolution' start ∧
        ∀ b, Complete resolution b → Complete resolution' b) ∨
      resolveRepetition parents repetitions resolution start = none ∧ ¬Rooted parents start := by
  unfold resolveRepetition
  cases hknown : resolution.nearest[start]?.join with
  | some found =>
    exact .inl ⟨resolution, rfl, h, ⟨found, join_eq_some.mp hknown⟩, fun _ hb => hb⟩
  | none =>
    rw [repetitionSeen_eq]
    dsimp only
    generalize hclimb : climbPath _ _ _ _ _ _ = found
    obtain ⟨value, pending⟩ := found
    obtain ⟨hfail, hwalk⟩ := followsParents_repetitionStep.climb h.outcome hstart
      (by rw [hknown]; rfl) hclimb
    cases value with
    | none => exact .inr ⟨rfl, hfail rfl⟩
    | some w =>
      obtain ⟨hnodup, hmem, hfresh, hpath⟩ := hwalk w rfl
      obtain ⟨hinv, hcomplete⟩ := h.settleAll hnodup
        (fun b hb => ⟨(hfresh b hb).1, fun hb' => by
          obtain ⟨w, hw⟩ := complete_iff.mp hb'
          cases hw.symm.trans (hfresh b hb).2⟩)
        (fun before b after hsplit p hp => by
          rcases (hpath before b after hsplit).2 p hp with hhead | ⟨-, hk⟩
          · exact .inl hhead
          · exact .inr (complete_iff.mpr hk))
      exact .inl ⟨_, rfl, hinv, (hcomplete start).mpr (.inr hmem),
        fun b hb => (hcomplete b).mpr (.inl hb)⟩

theorem resolveRepetitions_cases (parents : List (Option Nat)) (repetitions : List Bool) :
    (∃ resolution, (List.range parents.length).foldlM (resolveRepetition parents repetitions)
        ⟨List.replicate parents.length none, List.replicate parents.length none⟩ =
          some resolution ∧ RepetitionInv parents repetitions resolution ∧
        (∀ c < parents.length, Complete resolution c) ∧ IsForest parents) ∨
      (List.range parents.length).foldlM (resolveRepetition parents repetitions)
        ⟨List.replicate parents.length none, List.replicate parents.length none⟩ = none ∧
        ¬IsForest parents := by
  have hstart : RepetitionInv parents repetitions
      ⟨List.replicate parents.length none, List.replicate parents.length none⟩ := by
    have hnone : ∀ (c : Nat) found, (List.replicate parents.length
        (none : Option (Option Nat)))[c]? ≠ some (some found) := fun c found h => by
      rw [getElem?_replicate] at h
      split at h <;> cases h
    exact ⟨length_replicate, length_replicate, fun c found h => absurd h (hnone c found),
      fun c found h => absurd h (hnone c found)⟩
  have hstep : ∀ done a s t, a ∈ List.range parents.length →
      (RepetitionInv parents repetitions s ∧ ∀ c ∈ done, Complete s c) →
      resolveRepetition parents repetitions s a = some t →
      RepetitionInv parents repetitions t ∧ ∀ c ∈ done ++ [a], Complete t c := by
    intro done a s t ha h hrun
    rcases h.1.resolve (mem_range.mp ha) with ⟨t', hrun', hinv, hcomplete, hkeep⟩ | ⟨hnone, -⟩
    · cases hrun.symm.trans hrun'
      refine ⟨hinv, fun c hc => ?_⟩
      rcases mem_append.mp hc with hc | hc
      · exact hkeep c (h.2 c hc)
      · cases mem_singleton.mp hc
        exact hcomplete
    · cases hrun.symm.trans hnone
  rcases foldlM_option (P := fun done resolution =>
    RepetitionInv parents repetitions resolution ∧ ∀ c ∈ done, Complete resolution c) hstep
    ⟨hstart, by simp⟩ with ⟨resolution, hrun, h, hdone⟩ | ⟨hnone, done, a, s, ha, h, hfail⟩
  · have hall : ∀ c < parents.length, Complete resolution c := fun c hc =>
      hdone c (mem_range.mpr hc)
    refine .inl ⟨resolution, hrun, h, hall, isForest_iff.mpr fun c hc => ?_⟩
    obtain ⟨found, hfound⟩ := hall c hc
    obtain ⟨path, hpath, -⟩ := h.nearest c found hfound
    exact rooted_iff.mpr ⟨path, hpath⟩
  · have ha := mem_range.mp ha
    refine .inr ⟨hnone, fun hforest => ?_⟩
    rcases h.1.resolve ha with ⟨resolution', hrun, -⟩ | ⟨-, hrooted⟩
    · cases hfail.symm.trans hrun
    · exact hrooted (isForest_iff.mp hforest a ha)

namespace ComponentRepetitionIndex

/-- What the index keeps for the components of a forest. -/
structure Indexes (parents : List (Option Nat)) (repetitions : List Bool)
    (index : ComponentRepetitionIndex) : Prop where
  rooted : ∀ c, c < index.nearest.length ↔ ∃ path, ComponentPath parents c path
  nearest : ∀ c path, ComponentPath parents c path →
    index.nearest[c]? = some (repetitionsOf repetitions path).getLast?
  previous : ∀ c path, ComponentPath parents c path → repetitions[c]?.getD false = true →
    index.previous[c]?.join = (repetitionsOf repetitions path.dropLast).getLast?

theorem new_cases (parents : List (Option Nat)) (repetitions : List Bool) :
    (∃ index, new parents repetitions = some index ∧
        (parents.length = repetitions.length ∧ IsForest parents) ∧
        Indexes parents repetitions index) ∨
      new parents repetitions = none ∧
        ¬(parents.length = repetitions.length ∧ IsForest parents) := by
  unfold new
  by_cases hlength : parents.length = repetitions.length
  · rw [if_neg (not_not.mpr hlength)]
    rcases resolveRepetitions_cases parents repetitions with
      ⟨resolution, hrun, h, hall, hforest⟩ | ⟨hrun, hforest⟩
    · refine .inl ⟨_, by rw [hrun]; rfl, ⟨hlength, hforest⟩, ?_⟩
      have hat : ∀ c path, ComponentPath parents c path → ∃ found, resolution.nearest[c]? =
          some (some found) ∧ found = (repetitionsOf repetitions path).getLast? := by
        intro c path hpath
        have hrooted : Rooted parents c := rooted_iff.mpr ⟨path, hpath⟩
        obtain ⟨found, hfound⟩ := hall c (Finset.mem_range.mp hrooted.mem)
        obtain ⟨path', hpath', rfl⟩ := h.nearest c found hfound
        exact ⟨_, hfound, by rw [hpath.unique hpath']⟩
      refine ⟨fun c => ?_, fun c path hpath => ?_, fun c path hpath hrep => ?_⟩
      · rw [length_map, h.nearest_length, ← rooted_iff]
        exact ⟨isForest_iff.mp hforest c, fun hrooted => Finset.mem_range.mp hrooted.mem⟩
      · obtain ⟨found, hfound, rfl⟩ := hat c path hpath
        rw [getElem?_map, hfound]
        rfl
      · obtain ⟨found, hfound, -⟩ := hat c path hpath
        exact h.previous c found hfound hrep path hpath
    · exact .inr ⟨by rw [hrun]; rfl, fun h => hforest h.2⟩
  · rw [if_pos hlength]
    exact .inr ⟨rfl, fun h => hlength h.1⟩

theorem linked_none {previous : List (Option Nat)} {observed : List Nat} :
    linked previous none observed = true ↔ observed = [] := by
  cases observed <;> simp [linked]

/-- One component more on the path. -/
theorem linked_concat {previous : List (Option Nat)}
    (h : ∀ observed, linked previous (repetitionsOf repetitions path).getLast? observed = true ↔
      observed = (repetitionsOf repetitions path).reverse)
    (hprevious : repetitions[c]?.getD false = true →
      previous[c]?.join = (repetitionsOf repetitions path).getLast?) (observed : List Nat) :
    linked previous (repetitionsOf repetitions (path ++ [c])).getLast? observed = true ↔
      observed = (repetitionsOf repetitions (path ++ [c])).reverse := by
  rw [repetitionsOf_concat]
  split
  · rename_i hrep
    rw [getLast?_concat, reverse_append, reverse_singleton, singleton_append]
    cases observed with
    | nil => simp [linked]
    | cons o rest =>
      rw [linked, List.cons.injEq]
      split
      · rename_i hne
        exact ⟨fun h => (by cases h), fun h => absurd (congrArg some h.1.symm) hne⟩
      · rename_i heq
        cases Option.some.inj (not_not.mp heq)
        rw [hprevious hrep, h rest]
        exact ⟨fun h => ⟨rfl, h⟩, fun h => h.2⟩
  · exact h observed

/-- The repetitions that are linked from a component are those of its path. -/
theorem Indexes.linked_iff {index : ComponentRepetitionIndex}
    (hindex : Indexes parents repetitions index) (hpath : ComponentPath parents c path)
    (observed : List Nat) :
    linked index.previous (repetitionsOf repetitions path).getLast? observed = true ↔
      observed = (repetitionsOf repetitions path).reverse := by
  induction hpath generalizing observed with
  | @root c hc hroot =>
    refine linked_concat (fun observed => linked_none) (fun hrep => ?_) observed
    exact hindex.previous c _ (.root hc hroot) hrep
  | @child c p path hc hup hpath ih =>
    refine linked_concat ih (fun hrep => ?_) observed
    have hprevious := hindex.previous c _ (.child hc hup hpath) hrep
    rwa [dropLast_concat] at hprevious

/-- The observed components match if and only if they are the repetitions on the path. -/
theorem Indexes.matches_iff {index : ComponentRepetitionIndex}
    (hindex : Indexes parents repetitions index) (c : Nat) (observed : List Nat) :
    index.matchesObserved c observed = true ↔
      ∃ path, ComponentPath parents c path ∧ observed = repetitionsOf repetitions path := by
  unfold matchesObserved
  by_cases hc : c < index.nearest.length
  · obtain ⟨path, hpath⟩ := (hindex.rooted c).mp hc
    rw [hindex.nearest c path hpath]
    dsimp only
    rw [hindex.linked_iff hpath, reverse_inj]
    refine ⟨fun h => ⟨path, hpath, h⟩, fun ⟨path', hpath', h⟩ => ?_⟩
    rw [h, hpath.unique hpath']
  · rw [getElem?_eq_none (not_lt.mp hc)]
    refine ⟨fun h => (by cases h), fun ⟨path, hpath, _⟩ => ?_⟩
    exact absurd ((hindex.rooted c).mpr ⟨path, hpath⟩) hc

end ComponentRepetitionIndex

end Repetitions

/-- Both passes fail for the same inputs, those without a flag for each component and those that
are no forest.  For all others the flags are closed in both directions, and what the index
matches are the repetitions on the path from the root. -/
theorem componentForest_closed (parents : List (Option Nat)) (flags : List Bool) :
    (componentFlagClosure parents flags = none ↔
        parents.length ≠ flags.length ∨
          (∃ index parent, parentAt parents index = some parent ∧ parents.length ≤ parent) ∨
          ∃ index, Relation.TransGen (Up (parentAt parents)) index index) ∧
      (ComponentRepetitionIndex.new parents flags = none ↔
        componentFlagClosure parents flags = none) ∧
      (∀ closure, componentFlagClosure parents flags = some closure →
        closure.ancestors.length = parents.length ∧
        closure.descendants.length = parents.length ∧
        (∀ c, IsMarked closure.ancestors c ↔ ∃ b, Below (parentAt parents) c b ∧ IsMarked flags b) ∧
        ∀ c, IsMarked closure.descendants c ↔
          ∃ b, Below (parentAt parents) b c ∧ IsMarked flags b) ∧
      ∀ index, ComponentRepetitionIndex.new parents flags = some index → ∀ c observed,
        index.matchesObserved c observed = true ↔
          ∃ path, ComponentPath parents c path ∧ observed = repetitionsOf flags path := by
  have hfails : ¬(parents.length = flags.length ∧ IsForest parents) ↔
      parents.length ≠ flags.length ∨
        (∃ index parent, parentAt parents index = some parent ∧ parents.length ≤ parent) ∨
        ∃ index, Relation.TransGen (Up (parentAt parents)) index index := by
    simp only [IsForest, not_and_or, not_forall, not_not, not_lt, exists_prop, ne_eq]
  rcases componentFlagClosure_cases parents flags with ⟨closure, hrun, hok, hcloses⟩ | ⟨hrun, hbad⟩
  · rcases ComponentRepetitionIndex.new_cases parents flags with
      ⟨index, hrun', -, hindexes⟩ | ⟨-, hbad⟩
    · rw [← hfails, hrun, hrun']
      refine ⟨⟨fun h => (by cases h), fun h => absurd hok h⟩,
        ⟨fun h => (by cases h), fun h => (by cases h)⟩, fun closure' h => ?_, fun index' h => ?_⟩
      · cases h
        exact ⟨hcloses.ancestors_length, hcloses.descendants_length, hcloses.ancestors,
          hcloses.descendants⟩
      · cases h
        exact hindexes.matches_iff
    · exact absurd hok hbad
  · rcases ComponentRepetitionIndex.new_cases parents flags with ⟨-, -, hok, -⟩ | ⟨hrun', -⟩
    · exact absurd hok hbad
    · rw [← hfails, hrun, hrun']
      exact ⟨⟨fun _ => hbad, fun _ => rfl⟩, ⟨fun _ => rfl, fun _ => rfl⟩, fun _ h => (by cases h),
        fun _ h => (by cases h)⟩

/-- A forest that is not in order: the component 2 is the root, 0 is below 1 and 3 below 2. -/
example : componentFlagClosure [some 1, some 2, none, some 2] [false, true, false, false] =
    some ⟨[true, true, false, false], [false, true, true, false]⟩ := by
  decide +kernel

end ItemDependencies
