import ItemDependencies.Library.DependencyOrder
import Mathlib.Algebra.Order.BigOperators.Group.Finset
import Mathlib.Data.Set.Finite.Basic

/-!
# Dependencies before their dependents

A producer is prepared after all producers that it depends on.  The order is found by a search in
depth with a stack of its own, on which a node may wait several times: a node that is met again
after it has been finished is passed over, and one that is met again before depends on itself.
-/

namespace ItemDependencies

open Library List Function

universe u

/-- The source returns `None` where this is `refused`, and it has no limit of rounds. -/
inductive PostorderStop where
  | refused
  | outOfRounds
deriving DecidableEq

/-- The state of a node is 1 while its dependencies are visited and 2 afterwards.  The head of the
stack is its top, and an entry says whether its node has been expanded. -/
structure PostorderState (α : Type u) where
  states : α → Option Nat
  order : List α
  visits : Nat
  stack : List (α × Bool)

variable {α : Type u} [DecidableEq α]

/-- What is done with an entry after it has been taken from the stack. -/
def popEntry (dependencies : α → Option (List α)) (s : PostorderState α) (current : α)
    (expanded : Bool) : Except PostorderStop (PostorderState α) :=
  match s.states current, expanded with
  | some 2, _ => .ok s
  | some 1, false => .error .refused
  | some 1, true =>
    .ok { s with
      states := Function.update s.states current (some 2)
      order := s.order ++ [current] }
  | none, false =>
    match dependencies current with
    | none => .error .refused
    | some found =>
      .ok { s with
        states := Function.update s.states current (some 1)
        visits := s.visits + 1
        stack := found.map (fun dependency => (dependency, false)) ++ (current, true) :: s.stack }
  | none, true => .error .refused
  | some _, _ => .error .refused

def drainStack (dependencies : α → Option (List α)) :
    Nat → PostorderState α → Except PostorderStop (PostorderState α)
  | 0, _ => .error .outOfRounds
  | rounds + 1, s =>
    match s.stack with
    | [] => .ok s
    | (current, expanded) :: rest =>
      popEntry dependencies { s with stack := rest } current expanded >>=
        drainStack dependencies rounds

def searchFrom (dependencies : α → Option (List α)) (rounds : Nat) (s : PostorderState α)
    (start : α) : Except PostorderStop (PostorderState α) :=
  drainStack dependencies rounds { s with stack := [(start, false)] }

/-- The order and the number of visited nodes. -/
def dependencyPostorder (rounds : Nat) (starts : List α) (dependencies : α → Option (List α)) :
    Except PostorderStop (List α × Nat) := do
  let s ← starts.foldlM (searchFrom dependencies rounds) ⟨fun _ => none, [], 0, []⟩
  return (s.order, s.visits)

/-! ## The stack -/

section Waiting

omit [DecidableEq α]

/-- The dependencies of an expanded node are finished, or they wait above it. -/
def Waits (dependencies : α → Option (List α)) (order : List α) (stack : List (α × Bool)) : Prop :=
  ∀ before a after, stack = before ++ (a, true) :: after → ∃ found, dependencies a = some found ∧
    ∀ b ∈ found, b ∈ order ∨ ∃ expanded, (b, expanded) ∈ before

variable {dependencies : α → Option (List α)} {order order' found : List α} {current : α}
  {expanded : Bool} {rest : List (α × Bool)}

/-- A finished node is taken from the top. -/
theorem Waits.pop (h : Waits dependencies order ((current, expanded) :: rest))
    (hsub : order ⊆ order') (hcurrent : current ∈ order') : Waits dependencies order' rest := by
  intro before a after hsplit
  obtain ⟨found, hfound, hall⟩ := h ((current, expanded) :: before) a after
    (congrArg (List.cons _) hsplit)
  refine ⟨found, hfound, fun b hb => ?_⟩
  rcases hall b hb with hb | ⟨expanded, hb⟩
  · exact .inl (hsub hb)
  · rcases mem_cons.mp hb with heq | hb
    · cases heq
      exact .inl hcurrent
    · exact .inr ⟨expanded, hb⟩

/-- The dependencies of a node are put above it. -/
theorem Waits.expand (h : Waits dependencies order ((current, false) :: rest))
    (hfound : dependencies current = some found) : Waits dependencies order
      (found.map (fun dependency => (dependency, false)) ++ (current, true) :: rest) := by
  intro before a after hsplit
  rcases append_eq_append_iff.mp hsplit with ⟨between, rfl, heq⟩ | ⟨between, hmap, heq⟩
  · cases between with
    | nil =>
      cases heq
      exact ⟨found, hfound, fun b hb => .inr ⟨false, by simpa using hb⟩⟩
    | cons entry between =>
      obtain ⟨rfl, hrest⟩ := List.cons.inj heq
      obtain ⟨found', hfound', hall⟩ := h ((current, false) :: between) a after
        (congrArg (List.cons _) hrest)
      refine ⟨found', hfound', fun b hb => (hall b hb).imp_right fun ⟨expanded, hb⟩ => ?_⟩
      rcases mem_cons.mp hb with heq | hb
      · cases heq
        exact ⟨true, by simp⟩
      · exact ⟨expanded, by simp [hb]⟩
  · cases between with
    | nil =>
      cases heq
      exact ⟨found, hfound, fun b hb => .inr ⟨false, by
        rw [append_nil] at hmap
        exact hmap ▸ mem_map_of_mem hb⟩⟩
    | cons entry between =>
      -- no dependency has been expanded
      obtain ⟨rfl, -⟩ := List.cons.inj heq
      have hmem : (a, true) ∈ found.map fun dependency => (dependency, false) := by simp [hmap]
      obtain ⟨b, -, hb⟩ := mem_map.mp hmem
      cases hb

end Waiting

/-- The expanded entries of the stack are the nodes that lead to the top of it, and below the
dependencies that are yet to be finished. -/
structure Visiting (dependencies : α → Option (List α)) (starts : List α) (s : PostorderState α) :
    Prop where
  active : ∀ a, s.states a = some 1 ↔ (a, true) ∈ s.stack
  finished : ∀ a, s.states a = some 2 ↔ a ∈ s.order
  known : ∀ a n, s.states a = some n → n = 1 ∨ n = 2
  nodup : s.order.Nodup
  ordered : IsDependencyOrder dependencies s.order
  above : s.stack.Pairwise fun x y => y.2 = true →
    Relation.TransGen (DependsOn dependencies) y.1 x.1 ∧ (x.2 = true → x.1 ≠ y.1)
  waits : Waits dependencies s.order s.stack
  reached : ∀ entry ∈ s.stack, ReachedFrom dependencies starts entry.1
  reachedOrder : ∀ a ∈ s.order, ReachedFrom dependencies starts a
  started : ∀ a ∈ starts, a ∈ s.order ∨ ∃ expanded, (a, expanded) ∈ s.stack
  visited : s.visits = s.order.length + s.stack.countP Prod.snd

variable {dependencies : α → Option (List α)} {starts done found : List α}
  {s t : PostorderState α} {current : α} {expanded : Bool} {rest : List (α × Bool)}
  {nodes : Finset α}

namespace Visiting

variable (h : Visiting dependencies starts { s with stack := (current, expanded) :: rest })

include h

omit [DecidableEq α] in
/-- A node that has been finished is passed over. -/
theorem skip (hstate : s.states current = some 2) :
    Visiting dependencies starts { s with stack := rest } := by
  have hnot : expanded = false := by
    by_contra hexpanded
    have hactive := (h.active current).mpr (by simp [hexpanded])
    cases hstate.symm.trans hactive
  subst hnot
  have hcurrent : current ∈ s.order := (h.finished current).mp hstate
  refine ⟨fun a => (h.active a).trans (by simp), h.finished, h.known, h.nodup, h.ordered,
    (pairwise_cons.mp h.above).2, h.waits.pop (List.Subset.refl _) hcurrent,
    fun entry hmem => h.reached entry (mem_cons_of_mem _ hmem), h.reachedOrder,
    fun a ha => ?_, h.visited.trans (by simp)⟩
  rcases h.started a ha with ha | ⟨expanded, ha⟩
  · exact .inl ha
  · rcases mem_cons.mp ha with heq | ha
    · cases heq
      exact .inl hcurrent
    · exact .inr ⟨expanded, ha⟩

/-- A node is finished when its entry comes back to the top. -/
theorem finish (hexpanded : expanded = true) (hstate : s.states current = some 1) :
    Visiting dependencies starts { s with
      states := Function.update s.states current (some 2)
      order := s.order ++ [current]
      stack := rest } := by
  subst hexpanded
  obtain ⟨hbelow, habove⟩ := pairwise_cons.mp h.above
  have hrest : (current, true) ∉ rest := fun hmem => (hbelow _ hmem rfl).2 rfl rfl
  have hnew : current ∉ s.order := fun hmem => by
    cases hstate.symm.trans ((h.finished current).mpr hmem)
  obtain ⟨found, hfound, hall⟩ := h.waits [] current rest rfl
  have hsub : found ⊆ s.order := fun b hb =>
    (hall b hb).resolve_right fun ⟨_, hmem⟩ => not_mem_nil hmem
  refine ⟨fun a => ?_, fun a => ?_, fun a n hn => ?_, ?_, h.ordered.concat hfound hsub, habove,
    h.waits.pop (subset_append_left _ _) (by simp),
    fun entry hmem => h.reached entry (mem_cons_of_mem _ hmem), fun a ha => ?_, fun a ha => ?_, ?_⟩
  · by_cases ha : a = current
    · subst ha
      simp [hrest]
    · simpa [update_of_ne ha, ha] using h.active a
  · by_cases ha : a = current
    · subst ha
      simp
    · simpa [update_of_ne ha, ha] using h.finished a
  · change Function.update s.states current (some 2) a = some n at hn
    by_cases ha : a = current
    · subst ha
      rw [update_self] at hn
      exact .inr (Option.some.inj hn).symm
    · rw [update_of_ne ha] at hn
      exact h.known a n hn
  · exact nodup_append.mpr ⟨h.nodup, nodup_singleton _, fun a ha b hb heq =>
      hnew (mem_singleton.mp hb ▸ heq ▸ ha)⟩
  · rcases mem_append.mp ha with ha | ha
    · exact h.reachedOrder a ha
    · cases mem_singleton.mp ha
      exact h.reached (current, true) mem_cons_self
  · rcases h.started a ha with ha | ⟨expanded, ha⟩
    · exact .inl (mem_append_left _ ha)
    · rcases mem_cons.mp ha with heq | ha
      · cases heq
        exact .inl (by simp)
      · exact .inr ⟨expanded, ha⟩
  · have hvisited := h.visited
    simp only [countP_cons, if_true] at hvisited
    simp only [length_append, length_singleton]
    omega

/-- A node is expanded when it is met for the first time. -/
theorem expand (hexpanded : expanded = false) (hstate : s.states current = none)
    (hfound : dependencies current = some found) : Visiting dependencies starts { s with
      states := Function.update s.states current (some 1)
      visits := s.visits + 1
      stack := found.map (fun dependency => (dependency, false)) ++ (current, true) :: rest } := by
  subst hexpanded
  obtain ⟨hbelow, habove⟩ := pairwise_cons.mp h.above
  have hnotActive : (current, true) ∉ rest := fun hmem => by
    cases hstate.symm.trans ((h.active current).mpr (mem_cons_of_mem _ hmem))
  have hnew : current ∉ s.order := fun hmem => by
    cases hstate.symm.trans ((h.finished current).mpr hmem)
  refine ⟨fun a => ?_, fun a => ?_, fun a n hn => ?_, h.nodup, h.ordered, ?_, h.waits.expand hfound,
    fun entry hmem => ?_, h.reachedOrder, fun a ha => ?_, ?_⟩
  · by_cases ha : a = current
    · subst ha
      simp
    · simpa [update_of_ne ha, ha] using h.active a
  · by_cases ha : a = current
    · subst ha
      simp [hnew]
    · simpa [update_of_ne ha, ha] using h.finished a
  · change Function.update s.states current (some 1) a = some n at hn
    by_cases ha : a = current
    · subst ha
      rw [update_self] at hn
      exact .inl (Option.some.inj hn).symm
    · rw [update_of_ne ha] at hn
      exact h.known a n hn
  · have hstep : ∀ b ∈ found, DependsOn dependencies current b := fun b hb => ⟨found, hfound, hb⟩
    refine pairwise_append.mpr ⟨?_, pairwise_cons.mpr ⟨fun y hy hexpanded => ?_, habove⟩,
      fun x hx y hy hexpanded => ?_⟩
    · exact pairwise_map.mpr (pairwise_of_forall fun _ _ h => (by cases h))
    · refine ⟨(hbelow y hy hexpanded).1, fun _ heq => hnotActive ?_⟩
      rwa [show (current, true) = y from Prod.ext heq hexpanded.symm]
    · obtain ⟨b, hb, rfl⟩ := mem_map.mp hx
      refine ⟨?_, fun h => (by cases h)⟩
      rcases mem_cons.mp hy with rfl | hy
      · exact .single (hstep b hb)
      · exact (hbelow y hy hexpanded).1.tail (hstep b hb)
  · have hcurrent := h.reached (current, false) mem_cons_self
    rcases mem_append.mp hmem with hmem | hmem
    · obtain ⟨b, hb, rfl⟩ := mem_map.mp hmem
      exact hcurrent.tail ⟨found, hfound, hb⟩
    · rcases mem_cons.mp hmem with rfl | hmem
      · exact hcurrent
      · exact h.reached entry (mem_cons_of_mem _ hmem)
  · refine (h.started a ha).imp_right fun ⟨expanded, ha⟩ => ?_
    rcases mem_cons.mp ha with heq | ha
    · cases heq
      exact ⟨true, by simp⟩
    · exact ⟨expanded, by simp [ha]⟩
  · have hvisited := h.visited
    have hnone : (found.map fun dependency => (dependency, false)).countP Prod.snd = 0 := by
      rw [countP_eq_zero]
      rintro entry hmem
      obtain ⟨b, -, rfl⟩ := mem_map.mp hmem
      exact Bool.false_ne_true
    simp only [countP_cons, Bool.false_eq_true, if_false] at hvisited
    simp only [countP_append, countP_cons, if_true, hnone]
    omega

end Visiting

/-! ## Rounds -/

/-- An entry for each dependency of the nodes that have not been met, two rounds for each of them,
and one for each entry of the stack. -/
def roundsLeft (dependencies : α → Option (List α)) (nodes : Finset α) (s : PostorderState α) :
    Nat :=
  ∑ a ∈ nodes.filter (fun a => s.states a = none), (((dependencies a).getD []).length + 2) +
    s.stack.length

/-- A node that is met for the first time pays for its dependencies. -/
theorem roundsLeft_expand (hcurrent : current ∈ nodes) (hstate : s.states current = none)
    (hfound : dependencies current = some found) :
    roundsLeft dependencies nodes { s with
      states := Function.update s.states current (some 1)
      visits := s.visits + 1
      stack := found.map (fun dependency => (dependency, false)) ++ (current, true) :: rest } <
    roundsLeft dependencies nodes { s with stack := (current, expanded) :: rest } := by
  have hfilter : nodes.filter (fun a => Function.update s.states current (some 1) a = none) =
      (nodes.filter fun a => s.states a = none).erase current := by
    ext a
    by_cases ha : a = current
    · subst ha
      simp
    · simp [ha]
  have hsum := Finset.add_sum_erase (nodes.filter fun a => s.states a = none)
    (fun a => ((dependencies a).getD []).length + 2)
    (Finset.mem_filter.mpr ⟨hcurrent, hstate⟩)
  rw [hfound, Option.getD_some] at hsum
  simp only [roundsLeft, hfilter, ← hsum, length_append, length_map, length_cons]
  omega

theorem roundsLeft_finish (hstate : s.states current = some 1) :
    roundsLeft dependencies nodes { s with
      states := Function.update s.states current (some 2)
      order := s.order ++ [current]
      stack := rest } <
    roundsLeft dependencies nodes { s with stack := (current, expanded) :: rest } := by
  have hfilter : nodes.filter (fun a => Function.update s.states current (some 2) a = none) =
      nodes.filter fun a => s.states a = none := by
    refine Finset.filter_congr fun a _ => ?_
    by_cases ha : a = current
    · subst ha
      simp [hstate]
    · rw [update_of_ne ha]
  simp only [roundsLeft, hfilter, length_cons]
  omega

/-- What happens to the top of the stack: its node is refused, or the invariant is kept and less is
left. -/
theorem popEntry_spec
    (h : Visiting dependencies starts { s with stack := (current, expanded) :: rest })
    (hnodes : ∀ a, ReachedFrom dependencies starts a → a ∈ nodes) :
    popEntry dependencies { s with stack := rest } current expanded = .error .refused ∧
        (dependencies current = none ∨ Relation.TransGen (DependsOn dependencies) current current) ∨
      ∃ t, popEntry dependencies { s with stack := rest } current expanded = .ok t ∧
        Visiting dependencies starts t ∧ roundsLeft dependencies nodes t <
          roundsLeft dependencies nodes { s with stack := (current, expanded) :: rest } := by
  have hcurrent := hnodes current (h.reached (current, expanded) mem_cons_self)
  unfold popEntry
  cases hstate : s.states current with
  | none =>
    cases expanded with
    | true => cases hstate.symm.trans ((h.active current).mpr mem_cons_self)
    | false =>
      cases hfound : dependencies current with
      | none => exact .inl ⟨rfl, .inl rfl⟩
      | some found =>
        exact .inr ⟨_, rfl, h.expand rfl hstate hfound, roundsLeft_expand hcurrent hstate hfound⟩
  | some n =>
    rcases h.known current n hstate with rfl | rfl
    · cases expanded with
      | false =>
        -- the expanded entry of the node is below, so that the node leads to itself
        have hbelow := (h.active current).mp hstate
        rcases mem_cons.mp hbelow with heq | hbelow
        · cases heq
        · exact .inl ⟨rfl, .inr ((pairwise_cons.mp h.above).1 _ hbelow rfl).1⟩
      | true => exact .inr ⟨_, rfl, h.finish rfl hstate, roundsLeft_finish hstate⟩
    · exact .inr ⟨_, rfl, h.skip hstate, by simp [roundsLeft]⟩

/-- A search ends with an empty stack, or at a node that is refused. -/
theorem drainStack_spec (hnodes : ∀ a, ReachedFrom dependencies starts a → a ∈ nodes) {rounds : Nat}
    (h : Visiting dependencies starts s) (hrounds : roundsLeft dependencies nodes s < rounds) :
    (drainStack dependencies rounds s = .error .refused ∧ ∃ a, ReachedFrom dependencies starts a ∧
      (dependencies a = none ∨ Relation.TransGen (DependsOn dependencies) a a)) ∨
      ∃ t, drainStack dependencies rounds s = .ok t ∧ Visiting dependencies starts t ∧
        t.stack = [] := by
  induction rounds generalizing s with
  | zero => exact absurd hrounds (Nat.not_lt_zero _)
  | succ rounds ih =>
    obtain ⟨states, order, visits, stack⟩ := s
    cases stack with
    | nil => exact .inr ⟨_, rfl, h, rfl⟩
    | cons entry rest =>
      obtain ⟨current, expanded⟩ := entry
      have hreached := h.reached (current, expanded) mem_cons_self
      rcases popEntry_spec (s := ⟨states, order, visits, rest⟩) h hnodes with
        ⟨hpop, hbad⟩ | ⟨t, hpop, ht, hlt⟩
      · refine .inl ⟨?_, current, hreached, hbad⟩
        simp only [drainStack, hpop]
        rfl
      · simp only [drainStack, hpop]
        exact ih ht (hlt.trans_le (Nat.lt_succ_iff.mp hrounds))

/-! ## All starts -/

omit [DecidableEq α] in
/-- Between two starts nothing is active. -/
theorem Visiting.start {start : α} (h : Visiting dependencies done s) (hstack : s.stack = []) :
    Visiting dependencies (done ++ [start]) { s with stack := [(start, false)] } := by
  have hsub : done ⊆ done ++ [start] := subset_append_left _ _
  refine ⟨fun a => ?_, h.finished, h.known, h.nodup, h.ordered, pairwise_singleton _ _,
    fun before a after hsplit => ?_, fun entry hmem => ?_,
      fun a ha => (h.reachedOrder a ha).mono hsub,
    fun a ha => ?_, ?_⟩
  · rw [show s.states a = some 1 ↔ (a, true) ∈ s.stack from h.active a, hstack]
    simp
  · have hmem : (a, true) ∈ before ++ (a, true) :: after :=
      mem_append_right _ mem_cons_self
    rw [← hsplit] at hmem
    cases mem_singleton.mp hmem
  · cases mem_singleton.mp hmem
    exact ⟨start, by simp, .refl⟩
  · rcases mem_append.mp ha with ha | ha
    · rcases h.started a ha with ha | ⟨expanded, ha⟩
      · exact .inl ha
      · rw [hstack] at ha
        cases ha
    · cases mem_singleton.mp ha
      exact .inr ⟨false, mem_singleton_self _⟩
  · have hvisited := h.visited
    rw [hstack] at hvisited
    exact hvisited

omit [DecidableEq α] in
theorem visiting_nil (dependencies : α → Option (List α)) :
    Visiting dependencies [] ⟨fun _ => none, [], 0, []⟩ where
  active a := by simp
  finished a := by simp
  known a n h := by cases h
  nodup := .nil
  ordered := .nil
  above := .nil
  waits before a after h := absurd h.symm (append_ne_nil_of_right_ne_nil _ (cons_ne_nil _ _))
  reached entry h := absurd h not_mem_nil
  reachedOrder a h := absurd h not_mem_nil
  started a h := absurd h not_mem_nil
  visited := rfl

/-- With enough rounds the search ends, for all starts or at a node that is refused. -/
theorem foldlM_searchFrom (hnodes : ∀ a, ReachedFrom dependencies starts a → a ∈ nodes)
    {rounds : Nat} (hrounds : ∑ a ∈ nodes, (((dependencies a).getD []).length + 2) + 1 < rounds) :
    (starts.foldlM (searchFrom dependencies rounds) ⟨fun _ => none, [], 0, []⟩ = .error .refused ∧
      ∃ a, ReachedFrom dependencies starts a ∧
        (dependencies a = none ∨ Relation.TransGen (DependsOn dependencies) a a)) ∨
      ∃ t, starts.foldlM (searchFrom dependencies rounds) ⟨fun _ => none, [], 0, []⟩ = .ok t ∧
        Visiting dependencies starts t ∧ t.stack = [] := by
  have key : ∀ (rest done : List α) (s : PostorderState α), done ++ rest ⊆ starts →
      Visiting dependencies done s → s.stack = [] →
      (rest.foldlM (searchFrom dependencies rounds) s = .error .refused ∧
        ∃ a, ReachedFrom dependencies starts a ∧
          (dependencies a = none ∨ Relation.TransGen (DependsOn dependencies) a a)) ∨
        ∃ t, rest.foldlM (searchFrom dependencies rounds) s = .ok t ∧
          Visiting dependencies (done ++ rest) t ∧ t.stack = [] := by
    intro rest
    induction rest with
    | nil =>
      intro done s _ hs hstack
      exact .inr ⟨s, rfl, (append_nil done).symm ▸ hs, hstack⟩
    | cons start rest ih =>
      intro done s hsub hs hstack
      have hsplit : done ++ start :: rest = done ++ [start] ++ rest := by simp
      have hsub' : done ++ [start] ⊆ starts := fun a ha =>
        hsub (hsplit ▸ mem_append_left _ ha)
      have hleft : roundsLeft dependencies nodes { s with stack := [(start, false)] } < rounds := by
        refine lt_of_le_of_lt (Nat.add_le_add_right ?_ 1) hrounds
        exact Finset.sum_le_sum_of_subset (Finset.filter_subset _ _)
      rw [foldlM_cons]
      rcases drainStack_spec (fun a ha => hnodes a (ha.mono hsub')) (hs.start hstack) hleft with
        ⟨hrun, a, ha, hbad⟩ | ⟨t, hrun, ht, htstack⟩
      · refine .inl ⟨?_, a, ha.mono hsub', hbad⟩
        rw [searchFrom, hrun]
        rfl
      · rw [searchFrom, hrun, hsplit]
        exact ih (done ++ [start]) t (hsplit ▸ hsub) ht htstack
  exact key starts [] _ (List.Subset.refl _) (visiting_nil dependencies) rfl

/-- The search ends.  It is refused exactly if a node that is reached has no answer or is on a
cycle, and otherwise lists each node that is reached once and after its dependencies. -/
theorem dependencyPostorder_topological (starts : List α) (dependencies : α → Option (List α))
    (hfinite : {a | ReachedFrom dependencies starts a}.Finite) : ∃ limit, ∀ rounds, limit ≤ rounds →
      dependencyPostorder rounds starts dependencies ≠ .error .outOfRounds ∧
      (dependencyPostorder rounds starts dependencies = .error .refused ↔
        ∃ a, ReachedFrom dependencies starts a ∧
          (dependencies a = none ∨ Relation.TransGen (DependsOn dependencies) a a)) ∧
      ∀ order visits, dependencyPostorder rounds starts dependencies = .ok (order, visits) →
        order.Nodup ∧ (∀ a, a ∈ order ↔ ReachedFrom dependencies starts a) ∧
          IsDependencyOrder dependencies order ∧ visits = order.length := by
  have hnodes : ∀ a, ReachedFrom dependencies starts a → a ∈ hfinite.toFinset := fun a ha =>
    hfinite.mem_toFinset.mpr ha
  refine ⟨∑ a ∈ hfinite.toFinset, (((dependencies a).getD []).length + 2) + 2,
    fun rounds hrounds => ?_⟩
  have hlarge : ∑ a ∈ hfinite.toFinset, (((dependencies a).getD []).length + 2) + 1 < rounds := by
    omega
  rcases foldlM_searchFrom hnodes hlarge with
    ⟨hrun, hbad⟩ | ⟨t, hrun, ht, hstack⟩
  · have hresult : dependencyPostorder rounds starts dependencies = .error .refused := by
      rw [dependencyPostorder, hrun]
      rfl
    rw [hresult]
    exact ⟨fun h => (by cases h), iff_of_true rfl hbad, fun _ _ h => (by cases h)⟩
  · have hresult : dependencyPostorder rounds starts dependencies = .ok (t.order, t.visits) := by
      rw [dependencyPostorder, hrun]
      rfl
    have hstarts : starts ⊆ t.order := fun a ha =>
      (ht.started a ha).resolve_right fun ⟨_, hmem⟩ => not_mem_nil (hstack ▸ hmem)
    have hmem : ∀ a, a ∈ t.order ↔ ReachedFrom dependencies starts a := fun a =>
      ⟨ht.reachedOrder a, ht.ordered.mem_of_reachedFrom hstarts⟩
    rw [hresult]
    refine ⟨fun h => (by cases h), iff_of_false (fun h => (by cases h)) ?_,
      fun order visits h => ?_⟩
    · rintro ⟨a, ha, hnone | hcycle⟩
      · obtain ⟨found, hfound, -⟩ := ht.ordered.exists_found ((hmem a).mpr ha)
        cases hnone.symm.trans hfound
      · exact ht.ordered.irrefl ht.nodup ((hmem a).mpr ha) hcycle
    · cases h
      refine ⟨ht.nodup, hmem, ht.ordered, ?_⟩
      have hvisited := ht.visited
      rw [hstack] at hvisited
      exact hvisited

/-- Shared and repeated dependencies. -/
def diamondDependencies (node : Fin 4) : Option (List (Fin 4)) :=
  [[], [0], [0, 1], [1, 2, 1]][node.val]?

theorem dependencyPostorder_topological_diamond :
    dependencyPostorder 30 [3, 1] diamondDependencies = .ok ([0, 1, 2, 3], 4) ∧
      ∃ limit, ∀ rounds, limit ≤ rounds →
        dependencyPostorder rounds [3, 1] diamondDependencies ≠ .error .outOfRounds ∧
        (dependencyPostorder rounds [3, 1] diamondDependencies = .error .refused ↔
          ∃ a, ReachedFrom diamondDependencies [3, 1] a ∧ (diamondDependencies a = none ∨
            Relation.TransGen (DependsOn diamondDependencies) a a)) ∧
        ∀ order visits,
          dependencyPostorder rounds [3, 1] diamondDependencies = .ok (order, visits) →
          order.Nodup ∧ (∀ a, a ∈ order ↔ ReachedFrom diamondDependencies [3, 1] a) ∧
            IsDependencyOrder diamondDependencies order ∧ visits = order.length :=
  ⟨rfl, dependencyPostorder_topological [3, 1] diamondDependencies (Set.toFinite _)⟩

end ItemDependencies
