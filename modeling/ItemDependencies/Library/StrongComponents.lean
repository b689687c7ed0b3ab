import ItemDependencies.Library.Loop
import Mathlib.Algebra.Order.BigOperators.Group.Finset

/-!
# Strong components by two depth-first passes

The components of a finite directed graph on the nodes `0, …, count - 1`, found
by two iterative depth-first searches: the first one, along `succ`, lists the
nodes in the order in which they are finished; the second one goes through that
list from the newest end and collects, against the edges, what has not been
collected yet.

The order in which the nodes finish has one property from which everything else
follows (`settled` below): when an edge leads from a node to one that finishes
later, the later node was on the search stack all the time in between, so that
it reaches every node that finished meanwhile.
-/

namespace ItemDependencies.Library.StrongComponents

open Relation List Function

/-- A node of the search stack, with the index of the successor to look at next. -/
structure Frame where
  node : Nat
  next : Nat

/-- State of the first search.  The finished nodes are listed newest first. -/
structure Postorder where
  visited : Nat → Bool
  finish : List Nat
  stack : List Frame

variable (succ : Nat → List Nat) (count : Nat)

/-- One edge of the graph. -/
def Edge (u v : Nat) : Prop := v ∈ succ u

/-- Reachability along edges. -/
abbrev Reach : Nat → Nat → Prop := ReflTransGen (Edge succ)

/-- One round of the first search: look at the next successor of the top of the stack, or finish
the top of the stack when it has no more successors. -/
def Postorder.step (s : Postorder) : Postorder :=
  match s.stack with
  | [] => s
  | top :: rest =>
    match (succ top.node)[top.next]? with
    | some target =>
      if s.visited target then { s with stack := ⟨top.node, top.next + 1⟩ :: rest }
      else
        { s with
          visited := Function.update s.visited target true
          stack := ⟨target, 0⟩ :: ⟨top.node, top.next + 1⟩ :: rest }
    | none => { s with finish := top.node :: s.finish, stack := rest }

/-- Number of rounds that are always enough. -/
def searchWork : Nat := ∑ v ∈ Finset.range count, ((succ v).length + 1)

/-- Search from one start node, unless it has been visited. -/
def Postorder.visitFrom (s : Postorder) (start : Nat) : Postorder :=
  if s.visited start then s
  else
    whileDo (fun s => !s.stack.isEmpty) (Postorder.step succ) (searchWork succ count)
      { s with visited := Function.update s.visited start true, stack := [⟨start, 0⟩] }

/-- The nodes in the order in which they finish, newest first. -/
def postorder : List Nat :=
  ((List.range count).foldl (Postorder.visitFrom succ count) ⟨fun _ => false, [], []⟩).finish

/-! ## The first search -/

namespace Postorder

/-- The nodes on the search stack, top first. -/
def nodes (s : Postorder) : List Nat := s.stack.map Frame.node

/-- What holds of the first search after each of its rounds. -/
structure Inv (s : Postorder) : Prop where
  visited_iff : ∀ v, s.visited v = true ↔ v ∈ s.nodes ∨ v ∈ s.finish
  bound : ∀ v, s.visited v = true → v < count
  nodup : (s.nodes ++ s.finish).Nodup
  chain : s.nodes.IsChain fun a b => Edge succ b a
  explored : ∀ fr ∈ s.stack, ∀ i < fr.next, ∀ v, (succ fr.node)[i]? = some v → s.visited v = true
  closed : ∀ u ∈ s.finish, ∀ v ∈ succ u, s.visited v = true
  settled : ∀ p v q u r, s.finish = p ++ v :: (q ++ u :: r) → Edge succ u v →
    ∀ y ∈ q ++ [u], Reach succ v y
  pending : ∀ q u r v, s.finish = q ++ u :: r → Edge succ u v → v ∈ s.nodes →
    ∀ y ∈ q ++ [u], Reach succ v y

/-- Work that is left: the successors of unvisited nodes and of the nodes on the stack. -/
def left (s : Postorder) : Nat :=
  (∑ v ∈ (Finset.range count).filter (fun v => s.visited v = false), ((succ v).length + 1)) +
    s.stack.foldr (fun fr n => (succ fr.node).length - fr.next + 1 + n) 0

variable {succ count} {s : Postorder}

/-- Every node of the stack reaches the top. -/
theorem reach_top {top : Nat} {rest : List Nat}
    (h : (top :: rest).IsChain fun a b => Edge succ b a) :
    ∀ v ∈ top :: rest, Reach succ v top := by
  induction rest generalizing top with
  | nil =>
    intro v hv
    rw [mem_singleton] at hv
    exact hv ▸ ReflTransGen.refl
  | cons below rest ih =>
    rw [isChain_cons_cons] at h
    intro v hv
    rcases mem_cons.mp hv with rfl | hv
    · exact ReflTransGen.refl
    · exact (ih h.2 v hv).tail h.1

/-- Visiting a node takes its share of the work away. -/
theorem sum_unvisited_update {visited : Nat → Bool} {v : Nat} (hv : visited v = false)
    (hlt : v < count) (w : Nat → Nat) :
    (∑ u ∈ (Finset.range count).filter (fun u => Function.update visited v true u = false), w u) +
        w v =
      ∑ u ∈ (Finset.range count).filter (fun u => visited u = false), w u := by
  have he : (Finset.range count).filter (fun u => Function.update visited v true u = false) =
      ((Finset.range count).filter fun u => visited u = false).erase v := by
    ext u
    by_cases hu : u = v <;> simp [update_apply, hu]
  rw [he]
  exact Finset.sum_erase_add _ _ (by simp [hv, hlt])

/-- Starting a search at an unvisited node, with an empty stack. -/
theorem Inv.start (h : s.Inv succ count) (hs : s.stack = []) {start : Nat}
    (hv : s.visited start = false) (hlt : start < count) :
    Inv succ count
      { s with visited := Function.update s.visited start true, stack := [⟨start, 0⟩] } where
  visited_iff v := by
    have := h.visited_iff v
    simp only [nodes, hs, map_nil, not_mem_nil, false_or] at this
    by_cases hvs : v = start <;> simp [nodes, hvs, this]
  bound v hvv := by
    by_cases hvs : v = start
    · exact hvs ▸ hlt
    · exact h.bound v (by simpa [update_apply, hvs] using hvv)
  nodup := by
    have hn := h.nodup
    simp only [nodes, hs, map_nil, nil_append] at hn
    refine nodup_cons.mpr ⟨fun hmem => ?_, hn⟩
    have := (h.visited_iff start).mpr (Or.inr hmem)
    rw [hv] at this
    cases this
  chain := isChain_singleton _
  explored fr hfr i hi := by
    rw [mem_singleton] at hfr
    subst hfr
    exact absurd hi (Nat.not_lt_zero i)
  closed u hu v huv := by
    have := h.closed u hu v huv
    by_cases hvs : v = start <;> simp [hvs, this]
  settled := h.settled
  pending q u r v hq huv hmem := by
    simp only [nodes, map_cons, map_nil, mem_singleton] at hmem
    subst hmem
    have := h.closed u (by rw [hq]; simp) v huv
    rw [hv] at this
    cases this

/-- Going on to the next successor, which has been visited. -/
theorem Inv.advance (h : s.Inv succ count) {top : Frame} {rest : List Frame}
    (hs : s.stack = top :: rest) {target : Nat} (ht : (succ top.node)[top.next]? = some target)
    (hv : s.visited target = true) :
    Inv succ count { s with stack := ⟨top.node, top.next + 1⟩ :: rest } where
  visited_iff := by simpa [nodes, hs] using h.visited_iff
  bound := h.bound
  nodup := by simpa [nodes, hs] using h.nodup
  chain := by simpa [nodes, hs] using h.chain
  explored fr hfr i hi v hiv := by
    rcases mem_cons.mp hfr with rfl | hfr
    · rcases Nat.lt_succ_iff_lt_or_eq.mp hi with hi | rfl
      · exact h.explored top (by simp [hs]) i hi v hiv
      · rw [ht] at hiv
        cases hiv
        exact hv
    · exact h.explored fr (by simp [hs, hfr]) i hi v hiv
  closed := h.closed
  settled := h.settled
  pending q u r v hq huv hmem := h.pending q u r v hq huv (by simpa [nodes, hs] using hmem)

/-- Going down to a successor that has not been visited. -/
theorem Inv.descend (h : s.Inv succ count) {top : Frame} {rest : List Frame}
    (hs : s.stack = top :: rest) {target : Nat} (ht : (succ top.node)[top.next]? = some target)
    (hv : s.visited target = false) (hlt : target < count) :
    Inv succ count
      { s with
        visited := Function.update s.visited target true
        stack := ⟨target, 0⟩ :: ⟨top.node, top.next + 1⟩ :: rest } where
  visited_iff v := by
    have := h.visited_iff v
    simp only [nodes, hs, map_cons, mem_cons] at this
    by_cases hvt : v = target <;> simp [nodes, hvt, this]
  bound v hvv := by
    by_cases hvt : v = target
    · exact hvt ▸ hlt
    · exact h.bound v (by simpa [update_apply, hvt] using hvv)
  nodup := by
    have hn := h.nodup
    simp only [nodes, hs, map_cons] at hn
    refine nodup_cons.mpr ⟨fun hmem => ?_, by simpa using hn⟩
    have := (h.visited_iff target).mpr (by simpa [nodes, hs, or_assoc] using hmem)
    rw [hv] at this
    cases this
  chain := by
    have hc := h.chain
    simp only [nodes, hs, map_cons] at hc
    exact isChain_cons_cons.mpr ⟨mem_of_getElem? ht, by simpa using hc⟩
  explored fr hfr i hi v hiv := by
    have hmono : s.visited v = true → Function.update s.visited target true v = true := by
      intro hvv
      by_cases hvt : v = target <;> simp [hvt, hvv]
    rcases mem_cons.mp hfr with rfl | hfr
    · exact absurd hi (Nat.not_lt_zero i)
    rcases mem_cons.mp hfr with rfl | hfr
    · rcases Nat.lt_succ_iff_lt_or_eq.mp hi with hi | rfl
      · exact hmono (h.explored top (by simp [hs]) i hi v hiv)
      · rw [ht] at hiv
        cases hiv
        simp
    · exact hmono (h.explored fr (by simp [hs, hfr]) i hi v hiv)
  closed u hu v huv := by
    have := h.closed u hu v huv
    by_cases hvt : v = target <;> simp [hvt, this]
  settled := h.settled
  pending q u r v hq huv hmem := by
    have hvis := h.closed u (by rw [hq]; simp) v huv
    simp only [nodes, map_cons, mem_cons] at hmem
    rcases hmem with rfl | hmem
    · rw [hv] at hvis
      cases hvis
    · exact h.pending q u r v hq huv (by simpa [nodes, hs] using hmem)

/-- Finishing the top of the stack: the nodes below it reach it, and so do all that are reached
from it. -/
theorem Inv.finishTop (h : s.Inv succ count) {top : Frame} {rest : List Frame}
    (hs : s.stack = top :: rest) (ht : (succ top.node)[top.next]? = none) :
    Inv succ count { s with finish := top.node :: s.finish, stack := rest } where
  visited_iff v := by
    have := h.visited_iff v
    simp only [nodes, hs, map_cons, mem_cons] at this
    simp only [nodes, mem_cons]
    tauto
  bound := h.bound
  nodup := by
    have hn := h.nodup
    simp only [nodes, hs, map_cons] at hn
    exact (perm_middle.nodup_iff).mpr hn
  chain := by
    have hc := h.chain
    simp only [nodes, hs, map_cons] at hc
    exact hc.tail
  explored fr hfr := h.explored fr (by simp [hs, hfr])
  closed u hu v huv := by
    rcases mem_cons.mp hu with rfl | hu
    · obtain ⟨i, hi⟩ := getElem?_of_mem huv
      have hlen : i < top.next := by
        have h1 := (List.getElem?_eq_some_iff.mp hi).1
        have h2 := getElem?_eq_none_iff.mp ht
        omega
      exact h.explored top (by simp [hs]) i hlen v hi
    · exact h.closed u hu v huv
  settled p v q u r hp huv := by
    cases p with
    | nil =>
      -- the node that has just finished is the target of the edge
      simp only [nil_append, List.cons.injEq] at hp
      obtain ⟨rfl, hp⟩ := hp
      exact h.pending q u r top.node hp huv (by simp [nodes, hs])
    | cons w p =>
      simp only [cons_append, List.cons.injEq] at hp
      exact h.settled p v q u r hp.2 huv
  pending q u r v hq huv hmem := by
    have hc := h.chain
    simp only [nodes, hs, map_cons] at hc
    have hvt : Reach succ v top.node := reach_top hc v (mem_cons_of_mem _ hmem)
    cases q with
    | nil =>
      simp only [nil_append, List.cons.injEq] at hq
      obtain ⟨rfl, -⟩ := hq
      intro y hy
      rw [nil_append, mem_singleton] at hy
      exact hy ▸ hvt
    | cons w q =>
      simp only [cons_append, List.cons.injEq] at hq
      obtain ⟨rfl, hq⟩ := hq
      have hmem' : v ∈ s.nodes := by
        simp only [nodes, hs, map_cons]
        exact mem_cons_of_mem _ hmem
      intro y hy
      rcases mem_cons.mp hy with rfl | hy
      · exact hvt
      · exact h.pending q u r v hq huv hmem' y hy

/-- One round keeps the invariant and takes some of the work away. -/
theorem Inv.step (hsucc : ∀ u < count, ∀ v ∈ succ u, v < count) (h : s.Inv succ count)
    (hb : s.stack ≠ []) :
    (s.step succ).Inv succ count ∧ (s.step succ).left succ count < s.left succ count := by
  obtain ⟨top, rest, hs⟩ := exists_cons_of_ne_nil hb
  have htop : top.node < count :=
    h.bound _ ((h.visited_iff _).mpr (Or.inl (by simp [nodes, hs])))
  cases ht : (succ top.node)[top.next]? with
  | none =>
    have he : s.step succ = { s with finish := top.node :: s.finish, stack := rest } := by
      simp only [Postorder.step, hs, ht]
    rw [he]
    refine ⟨h.finishTop hs ht, ?_⟩
    simp only [left, hs, foldr_cons]
    omega
  | some target =>
    have hnext : top.next < (succ top.node).length := (List.getElem?_eq_some_iff.mp ht).1
    by_cases hv : s.visited target = true
    · have he : s.step succ = { s with stack := ⟨top.node, top.next + 1⟩ :: rest } := by
        simp only [Postorder.step, hs, ht, hv, if_true]
      rw [he]
      refine ⟨h.advance hs ht hv, ?_⟩
      simp only [left, hs, foldr_cons]
      omega
    · rw [Bool.not_eq_true] at hv
      have hlt : target < count := hsucc _ htop _ (mem_of_getElem? ht)
      have he : s.step succ =
          { s with
            visited := Function.update s.visited target true
            stack := ⟨target, 0⟩ :: ⟨top.node, top.next + 1⟩ :: rest } := by
        simp only [Postorder.step, hs, ht, hv, Bool.false_eq_true, if_false]
      rw [he]
      refine ⟨h.descend hs ht hv hlt, ?_⟩
      have := sum_unvisited_update hv hlt fun v => (succ v).length + 1
      simp only [left, hs, foldr_cons]
      omega

/-- Searching from one node visits it and leaves the stack empty. -/
theorem Inv.visitFrom (hsucc : ∀ u < count, ∀ v ∈ succ u, v < count) (h : s.Inv succ count)
    (hs : s.stack = []) {start : Nat} (hlt : start < count) :
    (s.visitFrom succ count start).Inv succ count ∧ (s.visitFrom succ count start).stack = [] ∧
      (s.visitFrom succ count start).visited start = true ∧
      ∀ v, s.visited v = true → (s.visitFrom succ count start).visited v = true := by
  by_cases hv : s.visited start = true
  · have he : s.visitFrom succ count start = s := if_pos hv
    rw [he]
    exact ⟨h, hs, hv, fun _ h => h⟩
  rw [Bool.not_eq_true] at hv
  simp only [Postorder.visitFrom, hv, Bool.false_eq_true, if_false]
  set first : Postorder :=
    { s with visited := Function.update s.visited start true, stack := [⟨start, 0⟩] } with hfirst
  have hI : first.Inv succ count := h.start hs hv hlt
  have hne : ∀ t : Postorder, (!t.stack.isEmpty) = true → t.stack ≠ [] := by
    intro t ht hnil
    simp [hnil] at ht
  -- what the search has visited when it starts stays visited
  let P : Postorder → Prop := fun t =>
    t.Inv succ count ∧ ∀ v, first.visited v = true → t.visited v = true
  have hstep : ∀ t, P t → (!t.stack.isEmpty) = true → P (t.step succ) := by
    intro t ⟨hIt, hmono⟩ hb
    refine ⟨(hIt.step hsucc (hne t hb)).1, fun v hvv => ?_⟩
    have := hmono v hvv
    unfold Postorder.step
    split
    · exact this
    · split
      · split
        · exact this
        · simp only [update_apply]
          split <;> simp [this]
      · exact this
  have hdec : ∀ t, P t → (!t.stack.isEmpty) = true →
      (t.step succ).left succ count < t.left succ count :=
    fun t ht hb => (ht.1.step hsucc (hne t hb)).2
  have hwork : first.left succ count ≤ searchWork succ count := by
    have h1 := sum_unvisited_update hv hlt fun v => (succ v).length + 1
    have h2 : (∑ u ∈ (Finset.range count).filter (fun u => s.visited u = false),
        ((succ u).length + 1)) ≤ searchWork succ count :=
      Finset.sum_le_sum_of_subset (Finset.filter_subset _ _)
    simp only [left, hfirst, foldr_cons, foldr_nil]
    omega
  have hP : P first := ⟨hI, fun _ h => h⟩
  have hend := whileDo_induct hstep (searchWork succ count) hP
  have hidle := whileDo_idle (Postorder.left succ count) hstep hdec (searchWork succ count) hP hwork
  refine ⟨hend.1, by simpa using hidle, hend.2 start (by simp [hfirst]), fun v hvv => hend.2 v ?_⟩
  simp only [hfirst, update_apply]
  split <;> simp [hvv]

end Postorder

/-- After the first search every node has finished. -/
theorem inv_postorder (succ : Nat → List Nat) (count : Nat)
    (hsucc : ∀ u < count, ∀ v ∈ succ u, v < count) :
    ∃ s : Postorder, s.finish = postorder succ count ∧ s.Inv succ count ∧ s.stack = [] ∧
      ∀ v < count, v ∈ s.finish := by
  have key : ∀ (starts : List Nat) (s : Postorder), (∀ v ∈ starts, v < count) →
      s.Inv succ count → s.stack = [] →
      (starts.foldl (Postorder.visitFrom succ count) s).Inv succ count ∧
        (starts.foldl (Postorder.visitFrom succ count) s).stack = [] ∧
        ∀ v, v ∈ starts ∨ s.visited v = true →
          (starts.foldl (Postorder.visitFrom succ count) s).visited v = true := by
    intro starts
    induction starts with
    | nil =>
      intro s _ hI hs
      exact ⟨hI, hs, by simp⟩
    | cons start starts ih =>
      intro s hlt hI hs
      obtain ⟨hI', hs', hv, hmono⟩ := hI.visitFrom hsucc hs (hlt start (by simp))
      obtain ⟨hI'', hs'', hall⟩ := ih _ (fun v hvm => hlt v (by simp [hvm])) hI' hs'
      refine ⟨hI'', hs'', fun v hvm => hall v ?_⟩
      rcases hvm with hvm | hvm
      · rcases mem_cons.mp hvm with rfl | hvm
        · exact Or.inr hv
        · exact Or.inl hvm
      · exact Or.inr (hmono v hvm)
  have hnil : Postorder.Inv succ count ⟨fun _ => false, [], []⟩ := by
    constructor <;> simp [Postorder.nodes]
  obtain ⟨hI, hs, hall⟩ := key (List.range count) _ (by simp) hnil rfl
  refine ⟨_, rfl, hI, hs, fun v hv => ?_⟩
  have := (hI.visited_iff v).mp (hall v (Or.inl (mem_range.mpr hv)))
  simpa [Postorder.nodes, hs] using this

/-! ## The second search -/

/-- State of one collection of the second search. -/
structure Collect where
  component : Nat → Option Nat
  collected : List Nat
  stack : List Nat

/-- The components found so far, in the order of their discovery. -/
structure Components where
  component : Nat → Option Nat
  members : List (List Nat)

variable (pred : Nat → List Nat)

/-- Take a node that has not been collected into the component. -/
def Collect.push (id : Nat) (s : Collect) (node : Nat) : Collect :=
  if (s.component node).isNone then
    { s with
      component := Function.update s.component node (some id)
      stack := node :: s.stack }
  else s

/-- One round of the second search: the top of the stack is collected, and its predecessors that
have not been collected before are put on the stack. -/
def Collect.step (id : Nat) (s : Collect) : Collect :=
  match s.stack with
  | [] => s
  | node :: rest =>
    (pred node).foldl (Collect.push id) { s with collected := s.collected ++ [node], stack := rest }

/-- Collect the component of one node, unless it has been collected. -/
def Components.collectFrom (s : Components) (start : Nat) : Components :=
  if (s.component start).isSome then s
  else
    let id := s.members.length
    let done :=
      whileDo (fun s => !s.stack.isEmpty) (Collect.step pred id) count
        ⟨Function.update s.component start (some id), [], [start]⟩
    ⟨done.component, s.members ++ [done.collected]⟩

/-- The strong components. -/
def components : Components :=
  (postorder succ count).foldl (Components.collectFrom count pred) ⟨fun _ => none, []⟩

variable {succ count pred}

/-- The finishing order is sound: when a node is reached from an earlier finished one without
leaving what finished before it, it reaches all that finished in between. -/
theorem reach_of_within {s : Postorder} (h : s.Inv succ count) {p q : List Nat} {u : Nat}
    (hF : s.finish = p ++ u :: q) {w : Nat}
    (hw : ReflTransGen (fun a b => Edge succ a b ∧ a ∈ u :: q ∧ b ∈ u :: q) w u) :
    ∀ q₁ q₂, q = q₁ ++ w :: q₂ → ∀ y ∈ q₁ ++ [w], Reach succ u y := by
  have hnd : (u :: q).Nodup := by
    have := (nodup_append.mp h.nodup).2.1
    rw [hF] at this
    exact (nodup_append.mp this).2.1
  have hu : u ∉ q := (nodup_cons.mp hnd).1
  induction hw using ReflTransGen.head_induction_on with
  | refl =>
    intro q₁ q₂ hq
    exact absurd (by rw [hq]; simp) hu
  | @head w w' hww hw'u ih =>
    obtain ⟨hedge, -, hw'⟩ := hww
    intro q₁ q₂ hq y hy
    rcases mem_cons.mp hw' with rfl | hw'q
    · exact h.settled p w' q₁ w q₂ (by rw [hF, hq]) hedge y hy
    obtain ⟨a, b, hab⟩ := append_of_mem hw'q
    have hseg := ih a b hab
    rcases append_eq_append_iff.mp (hq.symm.trans hab) with ⟨c, ha, hc⟩ | ⟨c, hq₁, hc⟩
    · -- the earlier node lies between `u` and the node that the edge leads to
      refine hseg y ?_
      rcases mem_append.mp hy with hy | hy
      · simp [ha, hy]
      · rw [mem_singleton] at hy
        subst hy
        cases c with
        | nil => simpa using Or.inr (List.cons.inj hc).1
        | cons z c =>
          obtain ⟨rfl, -⟩ := List.cons.inj hc
          simp [ha]
    · cases c with
      | nil =>
        obtain ⟨rfl, -⟩ := List.cons.inj hc
        refine hseg y ?_
        simpa [hq₁] using hy
      | cons z c =>
        obtain ⟨rfl, hb⟩ := List.cons.inj hc
        have hset := h.settled (p ++ u :: a) w' c w q₂ (by rw [hF, hab, hb]; simp) hedge
        have huw' : Reach succ u w' := hseg w' (by simp)
        rw [hq₁, append_assoc] at hy
        rcases mem_append.mp hy with hy | hy
        · exact hseg y (by simp [hy])
        · rcases mem_cons.mp hy with rfl | hy
          · exact huw'
          · exact huw'.trans (hset y hy)

namespace Collect

/-- The nodes that have not been collected when a collection begins. -/
def Free (count : Nat) (old : Nat → Option Nat) (v : Nat) : Prop := old v = none ∧ v < count

/-- What holds of one collection after each of its rounds. -/
structure Inv (succ : Nat → List Nat) (count : Nat) (old : Nat → Option Nat) (id root : Nat)
    (s : Collect) : Prop where
  keeps : ∀ v c, old v = some c → s.component v = some c
  fresh : ∀ v c, s.component v = some c → old v = some c ∨ c = id ∧ v ∈ s.collected ++ s.stack
  mem : ∀ v ∈ s.collected ++ s.stack, s.component v = some id ∧ Free count old v
  path : ∀ v ∈ s.collected ++ s.stack,
    ReflTransGen (fun a b => Edge succ a b ∧ Free count old a ∧ Free count old b) v root

/-- The collected nodes have had their predecessors collected. -/
def Closed (pred : Nat → List Nat) (s : Collect) : Prop :=
  ∀ v ∈ s.collected, ∀ w ∈ pred v, s.component w ≠ none

/-- Work that is left: the nodes without a component and those on the stack. -/
def left (count : Nat) (s : Collect) : Nat :=
  ((Finset.range count).filter fun v => s.component v = none).card + s.stack.length

variable {old : Nat → Option Nat} {id root : Nat} {s : Collect}

/-- Taking the origin of an edge into the component. -/
theorem Inv.push (h : s.Inv succ count old id root) {node w : Nat}
    (hnode : node ∈ s.collected ++ s.stack) (hlt : w < count) (hedge : Edge succ w node) :
    (s.push id w).Inv succ count old id root ∧ (s.push id w).component w ≠ none ∧
      (s.push id w).left count = s.left count ∧ (s.push id w).collected = s.collected ∧
      (∀ v ∈ s.stack, v ∈ (s.push id w).stack) ∧
      ∀ v, s.component v ≠ none → (s.push id w).component v ≠ none := by
  cases hw : s.component w with
  | some c =>
    have he : s.push id w = s := by simp [Collect.push, hw]
    rw [he]
    exact ⟨h, by simp [hw], rfl, rfl, fun _ h => h, fun _ h => h⟩
  | none =>
    have he : s.push id w =
        { s with component := Function.update s.component w (some id), stack := w :: s.stack } := by
      simp [Collect.push, hw]
    have hold : old w = none := by
      cases ho : old w with
      | none => rfl
      | some c => rw [h.keeps w c ho] at hw; cases hw
    rw [he]
    refine ⟨⟨fun v c hv => ?_, fun v c hv => ?_, fun v hv => ?_, fun v hv => ?_⟩, by simp, ?_, rfl,
      fun v hv => mem_cons_of_mem _ hv, fun v hv => ?_⟩
    · have hne : v ≠ w := fun hvw => by simp [hvw, hold] at hv
      simpa [hne] using h.keeps v c hv
    · by_cases hvw : v = w
      · subst hvw
        simp only [update_self, Option.some.injEq] at hv
        exact Or.inr ⟨hv.symm, by simp⟩
      · rcases h.fresh v c (by simpa [hvw] using hv) with hc | ⟨hc, hm⟩
        · exact Or.inl hc
        · refine Or.inr ⟨hc, ?_⟩
          rcases mem_append.mp hm with hm | hm <;> simp [hm]
    · by_cases hvw : v = w
      · subst hvw
        exact ⟨by simp, hold, hlt⟩
      · have hv' : v ∈ s.collected ++ s.stack := by simpa [hvw] using hv
        simpa [hvw] using h.mem v hv'
    · by_cases hvw : v = w
      · subst hvw
        exact (h.path node hnode).head ⟨hedge, ⟨hold, hlt⟩, (h.mem node hnode).2⟩
      · exact h.path v (by simpa [hvw] using hv)
    · have hset : (Finset.range count).filter
          (fun v => Function.update s.component w (some id) v = none) =
          ((Finset.range count).filter fun v => s.component v = none).erase w := by
        ext v
        by_cases hvw : v = w <;> simp [update_apply, hvw]
      have hmem : w ∈ (Finset.range count).filter fun v => s.component v = none := by
        simp [hw, hlt]
      have hpos := Finset.card_pos.mpr ⟨w, hmem⟩
      simp only [left, hset, Finset.card_erase_of_mem hmem, length_cons]
      omega
    · by_cases hvw : v = w <;> simp [hvw, hv]

/-- Taking all predecessors of a node into the component. -/
theorem Inv.pushAll (node : Nat) (ws : List Nat) (hws : ∀ w ∈ ws, w < count ∧ Edge succ w node)
    (h : s.Inv succ count old id root) (hnode : node ∈ s.collected) :
    (ws.foldl (Collect.push id) s).Inv succ count old id root ∧
      (∀ w ∈ ws, (ws.foldl (Collect.push id) s).component w ≠ none) ∧
      (ws.foldl (Collect.push id) s).left count = s.left count ∧
      (ws.foldl (Collect.push id) s).collected = s.collected ∧
      (∀ v ∈ s.stack, v ∈ (ws.foldl (Collect.push id) s).stack) ∧
      ∀ v, s.component v ≠ none → (ws.foldl (Collect.push id) s).component v ≠ none := by
  induction ws generalizing s with
  | nil => exact ⟨h, by simp, rfl, rfl, fun _ h => h, fun _ h => h⟩
  | cons w ws ih =>
    obtain ⟨hlt, hedge⟩ := hws w (by simp)
    obtain ⟨hI, hw, hleft, hcol, hst, hmono⟩ := h.push (mem_append_left _ hnode) hlt hedge
    obtain ⟨hI', hws', hleft', hcol', hst', hmono'⟩ :=
      ih (fun v hv => hws v (by simp [hv])) hI (hcol ▸ hnode)
    refine ⟨hI', fun v hv => ?_, hleft'.trans hleft, hcol'.trans hcol,
      fun v hv => hst' v (hst v hv),
      fun v hv => hmono' v (hmono v hv)⟩
    rcases mem_cons.mp hv with rfl | hv
    · exact hmono' _ hw
    · exact hws' v hv

/-- One round keeps the invariant and takes one node off the work. -/
theorem Inv.step (hpred : ∀ v < count, ∀ u, u ∈ pred v ↔ u < count ∧ Edge succ u v)
    (h : s.Inv succ count old id root) (hc : s.Closed pred) (hb : s.stack ≠ []) :
    (s.step pred id).Inv succ count old id root ∧ (s.step pred id).Closed pred ∧
      (s.step pred id).left count < s.left count ∧
      ∀ v ∈ s.collected ++ s.stack, v ∈ (s.step pred id).collected ++ (s.step pred id).stack := by
  obtain ⟨node, rest, hs⟩ := exists_cons_of_ne_nil hb
  have hmem : node ∈ s.collected ++ s.stack := by simp [hs]
  have hlt : node < count := (h.mem node hmem).2.2
  have he : s.step pred id =
      (pred node).foldl (Collect.push id)
        { s with collected := s.collected ++ [node], stack := rest } := by
    simp only [Collect.step, hs]
  have hpop : Inv succ count old id root
      { s with collected := s.collected ++ [node], stack := rest } := by
    refine ⟨h.keeps, fun v c hv => ?_, fun v hv => ?_, fun v hv => ?_⟩
    · simpa [hs] using h.fresh v c hv
    · exact h.mem v (by simpa [hs] using hv)
    · exact h.path v (by simpa [hs] using hv)
  obtain ⟨hI, hall, hleft, hcol, hst, hmono⟩ :=
    hpop.pushAll node (pred node) (fun w hw => (hpred node hlt w).mp hw) (by simp)
  rw [he]
  refine ⟨hI, fun v hv w hw => ?_, ?_, fun v hv => ?_⟩
  · rw [hcol] at hv
    rcases mem_append.mp hv with hv | hv
    · exact hmono w (hc v hv w hw)
    · rw [mem_singleton] at hv
      subst hv
      exact hall w hw
  · rw [hleft]
    simp [left, hs]
  · rw [hcol]
    rw [hs] at hv
    rcases mem_append.mp hv with hv | hv
    · simp [hv]
    · rcases mem_cons.mp hv with rfl | hv
      · simp
      · exact mem_append_right _ (hst v hv)

end Collect

/-! ## The components -/

namespace Components

/-- What holds of the components after those of `done` have been collected. -/
structure Inv (succ pred : Nat → List Nat) (count : Nat) (done : List Nat) (s : Components) :
    Prop where
  mem_iff : ∀ v c, s.component v = some c ↔ ∃ ms, s.members[c]? = some ms ∧ v ∈ ms
  bound : ∀ v c, s.component v = some c → v < count
  total : ∀ v ∈ done, s.component v ≠ none
  mono : ∀ v c, s.component v = some c → ∀ w ∈ pred v, ∃ c' ≤ c, s.component w = some c'
  reach : ∀ v w c, s.component v = some c → s.component w = some c → Reach succ v w

/-- Collecting the component of the next node of the finishing order. -/
theorem Inv.collectFrom (hpred : ∀ v < count, ∀ u, u ∈ pred v ↔ u < count ∧ Edge succ u v)
    {o : Postorder} (ho : o.Inv succ count)
    (hall : ∀ v < count, v ∈ o.finish) {done rest : List Nat} {u : Nat}
    (hF : o.finish = done ++ u :: rest) {s : Components} (h : s.Inv succ pred count done) :
    (s.collectFrom count pred u).Inv succ pred count (done ++ [u]) := by
  have hu : u < count := by
    refine ho.bound u ((ho.visited_iff u).mpr (Or.inr ?_))
    simp [hF]
  cases hcu : s.component u with
  | some c =>
    have he : s.collectFrom count pred u = s := by simp [Components.collectFrom, hcu]
    rw [he]
    refine ⟨h.mem_iff, h.bound, fun v hv => ?_, h.mono, h.reach⟩
    rcases mem_append.mp hv with hv | hv
    · exact h.total v hv
    · rw [mem_singleton] at hv
      simp [hv, hcu]
  | none =>
  set id := s.members.length with hid
  set first : Collect := ⟨Function.update s.component u (some id), [], [u]⟩ with hfirst
  have hI : first.Inv succ count s.component id u := by
    refine ⟨fun v c hv => ?_, fun v c hv => ?_, fun v hv => ?_, fun v hv => ?_⟩
    · have hne : v ≠ u := fun hvu => by simp [hvu, hcu] at hv
      simpa [hfirst, hne] using hv
    · by_cases hvu : v = u
      · subst hvu
        simp only [hfirst, update_self, Option.some.injEq] at hv
        exact Or.inr ⟨hv.symm, by simp [hfirst]⟩
      · exact Or.inl (by simpa [hfirst, hvu] using hv)
    · simp only [hfirst, nil_append, mem_singleton] at hv
      subst hv
      exact ⟨by simp [hfirst], hcu, hu⟩
    · simp only [hfirst, nil_append, mem_singleton] at hv
      exact hv ▸ ReflTransGen.refl
  let P : Collect → Prop := fun t =>
    t.Inv succ count s.component id u ∧ t.Closed pred ∧ u ∈ t.collected ++ t.stack
  have hne : ∀ t : Collect, (!t.stack.isEmpty) = true → t.stack ≠ [] := by
    intro t ht hnil
    simp [hnil] at ht
  have hstep : ∀ t, P t → (!t.stack.isEmpty) = true → P (t.step pred id) := by
    intro t ⟨hIt, hct, hut⟩ hb
    obtain ⟨hI', hc', -, hm'⟩ := hIt.step hpred hct (hne t hb)
    exact ⟨hI', hc', hm' u hut⟩
  have hdec : ∀ t, P t → (!t.stack.isEmpty) = true → (t.step pred id).left count < t.left count :=
    fun t ht hb => (ht.1.step hpred ht.2.1 (hne t hb)).2.2.1
  have hP : P first := ⟨hI, fun v hv => by simp [hfirst] at hv, by simp [hfirst]⟩
  have hwork : first.left count ≤ count := by
    have hsub : (Finset.range count).filter (fun v => first.component v = none) ⊆
        (Finset.range count).erase u := by
      intro v hv
      simp only [Finset.mem_filter, Finset.mem_range, hfirst] at hv
      refine Finset.mem_erase.mpr ⟨fun hvu => ?_, Finset.mem_range.mpr hv.1⟩
      simp [hvu] at hv
    have hcard := Finset.card_le_card hsub
    rw [Finset.card_erase_of_mem (Finset.mem_range.mpr hu), Finset.card_range] at hcard
    simp only [Collect.left, hfirst, length_singleton] at hcard ⊢
    omega
  set last := whileDo (fun s => !s.stack.isEmpty) (Collect.step pred id) count first with hlast
  obtain ⟨hIl, hcl, hul⟩ : P last := whileDo_induct hstep count hP
  have hidle : last.stack = [] := by
    simpa using whileDo_idle (Collect.left count) hstep hdec count hP hwork
  have he : s.collectFrom count pred u = ⟨last.component, s.members ++ [last.collected]⟩ := by
    simp [Components.collectFrom, hcu, hlast, hfirst, hid]
  rw [hidle, append_nil] at hul
  have hmem : ∀ v, last.component v = some id ↔ v ∈ last.collected := by
    intro v
    constructor
    · intro hv
      rcases hIl.fresh v id hv with hold | ⟨-, hm⟩
      · -- an older component has a smaller number
        obtain ⟨ms, hms, -⟩ := (h.mem_iff v id).mp hold
        have := (List.getElem?_eq_some_iff.mp hms).1
        omega
      · simpa [hidle] using hm
    · intro hv
      exact (hIl.mem v (by simp [hv])).1
  have hother : ∀ v c, c ≠ id → (last.component v = some c ↔ s.component v = some c) := by
    intro v c hc
    constructor
    · intro hv
      rcases hIl.fresh v c hv with hold | ⟨rfl, -⟩
      · exact hold
      · exact absurd rfl hc
    · exact hIl.keeps v c
  -- the nodes of the new component and the node it was collected from reach each other
  have hcycle : ∀ v ∈ last.collected, Reach succ v u ∧ Reach succ u v := by
    intro v hv
    have hpath := hIl.path v (by simp [hv])
    have hfree : ∀ w, Collect.Free count s.component w → w ∈ u :: rest := by
      intro w hw
      have := hall w hw.2
      rw [hF] at this
      rcases mem_append.mp this with hd | hr
      · exact absurd hw.1 (h.total w hd)
      · exact hr
    refine ⟨ReflTransGen.mono (fun a b hab => hab.1) _ _ hpath, ?_⟩
    by_cases hvu : v = u
    · exact hvu ▸ ReflTransGen.refl
    · have hvr : v ∈ rest := by
        rcases mem_cons.mp (hfree v (hIl.mem v (by simp [hv])).2) with hvu' | hvr
        · exact absurd hvu' hvu
        · exact hvr
      obtain ⟨q₁, q₂, hq⟩ := append_of_mem hvr
      exact reach_of_within ho hF
        (ReflTransGen.mono
          (fun a b hab => ⟨hab.1, hfree a hab.2.1, hfree b hab.2.2⟩) _ _ hpath) q₁ q₂ hq v (by simp)
  have hle : ∀ v c, last.component v = some c → c ≤ id := by
    intro v c hv
    rcases hIl.fresh v c hv with hold | ⟨rfl, -⟩
    · obtain ⟨ms, hms, -⟩ := (h.mem_iff v c).mp hold
      exact (List.getElem?_eq_some_iff.mp hms).1.le
    · exact le_rfl
  rw [he]
  refine ⟨fun v c => ?_, fun v c hv => ?_, fun v hv => ?_, fun v c hv w hw => ?_,
    fun v w c hv hw => ?_⟩
  · by_cases hc : c = id
    · subst hc
      rw [hmem]
      simp [hid]
    · rw [hother v c hc, h.mem_iff]
      rcases Nat.lt_or_gt_of_ne hc with hlt | hgt
      · rw [getElem?_append_left hlt]
      · have h1 : s.members[c]? = none := getElem?_eq_none_iff.mpr hgt.le
        have h2 : (s.members ++ [last.collected])[c]? = none := by
          refine getElem?_eq_none_iff.mpr ?_
          simp only [length_append, length_singleton]
          omega
        simp [h1, h2]
  · by_cases hc : c = id
    · subst hc
      exact (hIl.mem v (by simp [(hmem v).mp hv])).2.2
    · exact h.bound v c ((hother v c hc).mp hv)
  · rcases mem_append.mp hv with hv | hv
    · cases hcv : s.component v with
      | none => exact absurd hcv (h.total v hv)
      | some c => simp [hIl.keeps v c hcv]
    · rw [mem_singleton] at hv
      subst hv
      simp [(hmem v).mpr hul]
  · by_cases hc : c = id
    · subst hc
      have hcw := hcl v ((hmem v).mp hv) w hw
      obtain ⟨c', hc'⟩ := Option.ne_none_iff_exists'.mp hcw
      exact ⟨c', hle w c' hc', hc'⟩
    · obtain ⟨c', hc', hw'⟩ := h.mono v c ((hother v c hc).mp hv) w hw
      exact ⟨c', hc', hIl.keeps w c' hw'⟩
  · by_cases hc : c = id
    · subst hc
      exact (hcycle v ((hmem v).mp hv)).1.trans (hcycle w ((hmem w).mp hw)).2
    · exact h.reach v w c ((hother v c hc).mp hv) ((hother w c hc).mp hw)

end Components

/-- The components partition the nodes, the nodes of one component reach each other, and edges
lead to components of the same or a larger number. -/
theorem components_spec (succ : Nat → List Nat) (count : Nat) (pred : Nat → List Nat)
    (hsucc : ∀ u < count, ∀ v ∈ succ u, v < count)
    (hpred : ∀ v < count, ∀ u, u ∈ pred v ↔ u < count ∧ Edge succ u v) :
    ((components succ count pred).Inv succ pred count (List.range count)) := by
  obtain ⟨o, hfin, ho, -, hall⟩ := inv_postorder succ count hsucc
  have key : ∀ (rest done : List Nat) (s : Components), o.finish = done ++ rest →
      s.Inv succ pred count done →
      (rest.foldl (Components.collectFrom count pred) s).Inv succ pred count o.finish := by
    intro rest
    induction rest with
    | nil =>
      intro done s hd hs
      rw [append_nil] at hd
      exact hd ▸ hs
    | cons u rest ih =>
      intro done s hd hs
      exact ih (done ++ [u]) _ (by rw [hd]; simp) (hs.collectFrom hpred ho hall hd)
  have hnil : Components.Inv succ pred count [] ⟨fun _ => none, []⟩ := by
    constructor <;> simp
  have hend := key o.finish [] _ rfl hnil
  rw [components, ← hfin]
  exact ⟨hend.mem_iff, hend.bound, fun v hv => hend.total v (hall v (mem_range.mp hv)),
    hend.mono, hend.reach⟩

end ItemDependencies.Library.StrongComponents
