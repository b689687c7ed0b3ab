import ItemDependencies.Library.IndexRange
import ItemDependencies.Library.Loop
import ItemDependencies.Library.ParentChain
import ItemDependencies.Library.SortedMap
import ItemDependencies.Retention.MacroProducts

/-!
# The provenance of macro contributors

A contributor is allowed for a producer if it is local to the producer or to one
of its ancestors.  The producers are numbered in preorder, so that the producers
below one are an interval of positions, and each contributor keeps the union of
the intervals of the producers to which it is local.
-/

namespace ItemDependencies

open Library List Function

structure MacroContributorProvenanceNode where
  localUnits : Finset SourceUnitId
  parent : Option ExpansionId

abbrev MacroContributorProvenanceRange := IndexRange

structure MacroContributorProvenanceIndex where
  producerRanges : ExpansionId → Option MacroContributorProvenanceRange
  contributorRanges : SourceUnitId → Option (List MacroContributorProvenanceRange)

/-- The search is for the last range that starts at or before the producer. -/
def MacroContributorProvenanceIndex.allows (index : MacroContributorProvenanceIndex)
    (producer : ExpansionId) (contributor : SourceUnitId) : Option Bool := do
  let position := (← index.producerRanges producer).start
  match index.contributorRanges contributor with
  | none => return false
  | some ranges =>
    let insertion := IndexRange.insertion ranges position
    return insertion ≠ 0 ∧ position < (ranges.getD (insertion - 1) ⟨0, 0⟩).stop

namespace MacroProvenance

/-! ## The chains of parents are checked -/

inductive VisitState where
  | unvisited
  | onPath
  | done
deriving DecidableEq

section Definitions

variable (nodes : SortedMap ExpansionId MacroContributorProvenanceNode)

def parentOf (producer : ExpansionId) : Option ExpansionId :=
  (nodes.get producer).bind MacroContributorProvenanceNode.parent

/-- Walk up from a producer, and mark it and its ancestors as being on the path. -/
def walk (states : ExpansionId → VisitState) (path : List ExpansionId) (current : ExpansionId) :
    Nat → Except RetentionError ((ExpansionId → VisitState) × List ExpansionId)
  | 0 => throw .invalidGraph
  | limit + 1 =>
    match states current with
    | .done => return (states, path)
    | .onPath => throw .invalidGraph
    | .unvisited =>
      match nodes.get current with
      | none => throw .incompleteMacroProductConstraints
      | some node =>
        let states := Function.update states current .onPath
        match node.parent with
        | none => return (states, path ++ [current])
        | some parent => walk states (path ++ [current]) parent limit

def visitStart (states : ExpansionId → VisitState) (start : ExpansionId) :
    Except RetentionError (ExpansionId → VisitState) := do
  if states start = .done then return states
  let (states, path) ← walk nodes states [] start (nodes.keys.length + 1)
  return path.foldr (fun producer states => Function.update states producer .done) states

/-! ## The producers are numbered -/

/-- The children of each producer, in order. -/
def childrenOf (producer : ExpansionId) : List ExpansionId :=
  nodes.keys.filter fun child => parentOf nodes child = some producer

def roots : List ExpansionId := nodes.keys.filter fun producer => (parentOf nodes producer).isNone

/-- Producers that are to be entered or left, the ranges so far, and the order in which the
producers have been entered. -/
structure PreorderState where
  stack : List (ExpansionId × Bool)
  ranges : ExpansionId → Option MacroContributorProvenanceRange
  preorder : List ExpansionId

def PreorderState.start : PreorderState where
  stack := (roots nodes).map fun producer => (producer, true)
  ranges := fun _ => none
  preorder := []

def preorderStep (s : PreorderState) : Except RetentionError PreorderState :=
  match s.stack with
  | [] => return s
  | (producer, true) :: stack =>
    match s.ranges producer with
    | some _ => throw .invalidGraph
    | none =>
      if nodes.contains producer then
        return {
          stack := (childrenOf nodes producer).map (fun child => (child, true)) ++
            (producer, false) :: stack
          ranges := Function.update s.ranges producer (some ⟨s.preorder.length, s.preorder.length⟩)
          preorder := s.preorder ++ [producer] }
      else throw .invalidGraph
  | (producer, false) :: stack =>
    match s.ranges producer with
    | none => throw .invalidGraph
    | some range =>
      return {
        stack := stack
        ranges := Function.update s.ranges producer (some ⟨range.start, s.preorder.length⟩)
        preorder := s.preorder }

/-! ## The ranges of the contributors are collected -/

def pushRange (range : MacroContributorProvenanceRange)
    (ranges : SourceUnitId → Option (List MacroContributorProvenanceRange))
    (contributor : SourceUnitId) : SourceUnitId → Option (List MacroContributorProvenanceRange) :=
  Function.update ranges contributor (some (IndexRange.push ((ranges contributor).getD []) range))

def collect (producerRanges : ExpansionId → Option MacroContributorProvenanceRange)
    (ranges : SourceUnitId → Option (List MacroContributorProvenanceRange))
    (producer : ExpansionId) :
    Except RetentionError (SourceUnitId → Option (List MacroContributorProvenanceRange)) :=
  match nodes.get producer, producerRanges producer with
  | some node, some range => return (ascending node.localUnits).foldl (pushRange range) ranges
  | _, _ => throw .invalidGraph

end Definitions

end MacroProvenance

open MacroProvenance

def resolveMacroContributorProvenance
    (nodes : SortedMap ExpansionId MacroContributorProvenanceNode) :
    Except RetentionError MacroContributorProvenanceIndex := do
  let _ ← nodes.keys.foldlM (visitStart nodes) fun _ => .unvisited
  if nodes.keys.any fun producer => (parentOf nodes producer).any (!nodes.contains ·) then
    throw .incompleteMacroProductConstraints
  let s ← whileTry (fun s => !s.stack.isEmpty) (preorderStep nodes) (2 * nodes.keys.length)
    (PreorderState.start nodes)
  if s.preorder.length ≠ nodes.keys.length then throw .invalidGraph
  let ranges ← s.preorder.foldlM (collect nodes s.ranges) fun _ => none
  return { producerRanges := s.ranges, contributorRanges := ranges }

namespace MacroProvenance

variable {nodes : SortedMap ExpansionId MacroContributorProvenanceNode}
  {producerRanges : ExpansionId → Option MacroContributorProvenanceRange}
  {preorder : List ExpansionId} {range : MacroContributorProvenanceRange}

/-! ## Chains -/

def MissingParent (nodes : SortedMap ExpansionId MacroContributorProvenanceNode) : Prop :=
  ∃ producer node parent, nodes.get producer = some node ∧ node.parent = some parent ∧
    nodes.get parent = none

def CyclicParents (nodes : SortedMap ExpansionId MacroContributorProvenanceNode) : Prop :=
  ∃ producer, Relation.TransGen (Up (parentOf nodes)) producer producer

/-- A contributor is local to a producer or to one of its ancestors. -/
def Inherits (nodes : SortedMap ExpansionId MacroContributorProvenanceNode)
    (producer : ExpansionId) (contributor : SourceUnitId) : Prop :=
  ∃ ancestor node, Below (parentOf nodes) producer ancestor ∧ nodes.get ancestor = some node ∧
    contributor ∈ node.localUnits

/-- Every chain of parents ends. -/
def AllGrounded (nodes : SortedMap ExpansionId MacroContributorProvenanceNode) : Prop :=
  ∀ producer ∈ nodes.keys, Grounded (parentOf nodes) nodes.keys.toFinset producer

theorem mem_keys_of_parent {a p : ExpansionId} (h : parentOf nodes a = some p) :
    a ∈ nodes.keys := by
  obtain ⟨node, hnode, -⟩ := Option.bind_eq_some_iff.mp h
  exact SortedMap.mem_keys.mpr ⟨node, hnode⟩

theorem parentOf_of_get {a : ExpansionId} {node : MacroContributorProvenanceNode}
    (h : nodes.get a = some node) : parentOf nodes a = node.parent := by
  rw [parentOf, h]
  rfl

theorem get_eq_none {a : ExpansionId} : nodes.get a = none ↔ a ∉ nodes.keys := by
  rw [SortedMap.mem_keys]
  cases nodes.get a <;> simp

theorem missingParent_iff : MissingParent nodes ↔
    ∃ a ∈ nodes.keys, ∃ p, parentOf nodes a = some p ∧ p ∉ nodes.keys := by
  constructor
  · rintro ⟨producer, node, parent, hget, hparent, hmissing⟩
    exact ⟨producer, SortedMap.mem_keys.mpr ⟨node, hget⟩, parent,
      (parentOf_of_get hget).trans hparent, get_eq_none.mp hmissing⟩
  · rintro ⟨a, -, p, hparent, hmissing⟩
    obtain ⟨node, hnode, hp⟩ := Option.bind_eq_some_iff.mp hparent
    exact ⟨a, node, p, hnode, hp, get_eq_none.mpr hmissing⟩

theorem allGrounded_iff : AllGrounded nodes ↔ ¬(MissingParent nodes ∨ CyclicParents nodes) := by
  have h := forall_grounded_iff (parentOf nodes) nodes.keys.toFinset
  simp only [mem_toFinset] at h
  rw [AllGrounded, h, missingParent_iff, not_or]
  refine and_congr ?_ ?_
  · constructor
    · rintro hall ⟨a, ha, p, hp, hmissing⟩
      exact hmissing (hall a ha p hp)
    · intro hnone a ha p hp
      by_contra hmissing
      exact hnone ⟨a, ha, p, hp, hmissing⟩
  · constructor
    · rintro hall ⟨a, hcycle⟩
      obtain ⟨b, hup, -⟩ := Relation.TransGen.head'_iff.mp hcycle
      exact hall a (mem_keys_of_parent hup) hcycle
    · exact fun hnone a _ hcycle => hnone ⟨a, hcycle⟩

/-! ## The check of the chains -/

/-- What holds while a chain is walked. -/
structure WalkInv (nodes : SortedMap ExpansionId MacroContributorProvenanceNode)
    (states : ExpansionId → VisitState) (path : List ExpansionId) (current : ExpansionId) :
    Prop where
  done : ∀ e, states e = .done → Grounded (parentOf nodes) nodes.keys.toFinset e
  onPath : ∀ e, states e = .onPath ↔ e ∈ path
  nodup : path.Nodup
  known : ∀ e ∈ path, e ∈ nodes.keys
  ground : Grounded (parentOf nodes) nodes.keys.toFinset current →
    ∀ e ∈ path, Grounded (parentOf nodes) nodes.keys.toFinset e
  above : ∀ e ∈ path, Relation.TransGen (Up (parentOf nodes)) e current

/-- A walk that returns has met grounded producers only; one that fails has met a missing parent
or a cycle. -/
theorem walk_spec {states : ExpansionId → VisitState} {path : List ExpansionId}
    {current : ExpansionId} {limit : Nat} (h : WalkInv nodes states path current)
    (hfirst : path = [] → current ∈ nodes.keys)
    (hlimit : path.length + limit = nodes.keys.length + 1) :
    (∃ e, walk nodes states path current limit = .error e ∧
        (MissingParent nodes ∨ CyclicParents nodes)) ∨
      ∃ states' path', walk nodes states path current limit = .ok (states', path') ∧
        (∀ e, states' e = .done ↔ states e = .done) ∧ (∀ e, states' e = .onPath ↔ e ∈ path') ∧
        (∀ e ∈ path', Grounded (parentOf nodes) nodes.keys.toFinset e) ∧
        (current ∈ path' ∨ states current = .done) ∧ path ⊆ path' := by
  induction limit generalizing states path current with
  | zero =>
    -- the path would be longer than there are producers
    have hle : path.length ≤ nodes.keys.length :=
      (subperm_of_subset h.nodup h.known).length_le
    omega
  | succ limit ih =>
    rw [walk]
    cases hstate : states current with
    | done =>
      refine Or.inr ⟨states, path, rfl, fun _ => Iff.rfl, h.onPath, h.ground (h.done _ hstate), ?_,
        fun _ => id⟩
      exact Or.inr rfl
    | onPath =>
      exact Or.inl ⟨_, rfl, Or.inr ⟨current, h.above current ((h.onPath current).mp hstate)⟩⟩
    | unvisited =>
      have hnew : current ∉ path := fun hmem => by
        rw [(h.onPath current).mpr hmem] at hstate
        cases hstate
      cases hget : nodes.get current with
      | none =>
        refine Or.inl ⟨_, rfl, Or.inl (missingParent_iff.mpr ?_)⟩
        have hmissing := get_eq_none.mp hget
        cases path with
        | nil => exact absurd (hfirst rfl) hmissing
        | cons e path =>
          obtain ⟨b, -, hup⟩ := Relation.TransGen.tail'_iff.mp (h.above e (by simp))
          exact ⟨b, mem_keys_of_parent hup, current, hup, hmissing⟩
      | some node =>
        have hknown : current ∈ nodes.keys := SortedMap.mem_keys.mpr ⟨node, hget⟩
        have hparent := parentOf_of_get hget
        have hstates : ∀ e, Function.update states current .onPath e = .onPath ↔
            e ∈ path ++ [current] := by
          intro e
          by_cases he : e = current
          · simp [he]
          · simp [he, h.onPath]
        have hdone : ∀ e, Function.update states current .onPath e = .done ↔ states e = .done := by
          intro e
          by_cases he : e = current
          · subst he
            simp [hstate]
          · simp [he]
        have hground : Grounded (parentOf nodes) nodes.keys.toFinset current →
            ∀ e ∈ path ++ [current], Grounded (parentOf nodes) nodes.keys.toFinset e := by
          intro hc e he
          rcases mem_append.mp he with he | he
          · exact h.ground hc e he
          · rwa [mem_singleton.mp he]
        dsimp only
        cases hp : node.parent with
        | none =>
          refine Or.inr ⟨_, _, rfl, hdone, hstates, hground ?_, Or.inl (by simp), by simp⟩
          exact .root (mem_toFinset.mpr hknown) (hparent.trans hp)
        | some parent =>
          have hup : parentOf nodes current = some parent := hparent.trans hp
          have hinv : WalkInv nodes (Function.update states current .onPath) (path ++ [current])
              parent := {
            done := fun e he => h.done e ((hdone e).mp he)
            onPath := hstates
            nodup := nodup_append.mpr ⟨h.nodup, nodup_singleton _, fun a ha b hb hab =>
              hnew (mem_singleton.mp hb ▸ hab ▸ ha)⟩
            known := fun e he => by
              rcases mem_append.mp he with he | he
              · exact h.known e he
              · rwa [mem_singleton.mp he]
            ground := fun hg => hground (.child (mem_toFinset.mpr hknown) hup hg)
            above := fun e he => by
              rcases mem_append.mp he with he | he
              · exact (h.above e he).tail hup
              · rw [mem_singleton.mp he]
                exact .single hup }
          rcases ih hinv (by simp) (by simp; omega) with herror | ⟨states', path', hok, hd, ho, hg,
            -, hsub⟩
          · exact Or.inl herror
          · refine Or.inr ⟨states', path', hok, fun e => (hd e).trans (hdone e), ho, hg,
              Or.inl (hsub (by simp)), fun e he => hsub (mem_append_left _ he)⟩

/-- Between two walks no producer is on a path. -/
structure VisitInv (nodes : SortedMap ExpansionId MacroContributorProvenanceNode)
    (visited : List ExpansionId) (states : ExpansionId → VisitState) : Prop where
  done : ∀ e, states e = .done → Grounded (parentOf nodes) nodes.keys.toFinset e
  onPath : ∀ e, states e ≠ .onPath
  visited : ∀ e ∈ visited, states e = .done

theorem foldr_done (path : List ExpansionId) (states : ExpansionId → VisitState) (e : ExpansionId) :
    path.foldr (fun producer states => Function.update states producer .done) states e =
      if e ∈ path then .done else states e := by
  induction path with
  | nil => rfl
  | cons a path ih =>
    rw [foldr_cons]
    by_cases he : e = a
    · simp [he]
    · rw [update_of_ne he, ih]
      simp [he]

theorem visitStart_spec {visited : List ExpansionId} {states : ExpansionId → VisitState}
    {start : ExpansionId} (h : VisitInv nodes visited states) (hstart : start ∈ nodes.keys) :
    (∃ e, visitStart nodes states start = .error e ∧ (MissingParent nodes ∨ CyclicParents nodes)) ∨
      ∃ states', visitStart nodes states start = .ok states' ∧
        VisitInv nodes (visited ++ [start]) states' := by
  unfold visitStart
  by_cases hdone : states start = .done
  · rw [if_pos hdone]
    refine Or.inr ⟨states, rfl, h.done, h.onPath, fun e he => ?_⟩
    rcases mem_append.mp he with he | he
    · exact h.visited e he
    · rwa [mem_singleton.mp he]
  · rw [if_neg hdone]
    have hinv : WalkInv nodes states [] start :=
      ⟨h.done, fun e => ⟨fun he => absurd he (h.onPath e), fun he => absurd he not_mem_nil⟩,
        nodup_nil, by simp, by simp, by simp⟩
    rcases walk_spec hinv (fun _ => hstart) (Nat.zero_add _) with ⟨e, herror, hbad⟩ |
      ⟨states', path', hok, hd, ho, hg, hcurrent, -⟩
    · exact Or.inl ⟨e, by rw [herror]; rfl, hbad⟩
    · refine Or.inr ⟨_, by rw [hok]; rfl, fun e he => ?_, fun e he => ?_, fun e he => ?_⟩
      · rw [foldr_done] at he
        split at he
        · rename_i hmem
          exact hg e hmem
        · exact h.done e ((hd e).mp he)
      · rw [foldr_done] at he
        split at he
        · cases he
        · rename_i hmem
          exact hmem ((ho e).mp he)
      · rw [foldr_done]
        split
        · rfl
        · rename_i hmem
          refine (hd e).mpr ?_
          rcases mem_append.mp he with he | he
          · exact h.visited e he
          · obtain rfl := mem_singleton.mp he
            exact hcurrent.resolve_left hmem

theorem visitInv_nil : VisitInv nodes [] fun _ => .unvisited :=
  ⟨fun _ h => (by cases h), fun _ h => (by cases h), by simp⟩

/-- The check succeeds if and only if every chain ends. -/
theorem visit_ok : (∃ states, nodes.keys.foldlM (visitStart nodes) (fun _ => .unvisited) =
    .ok states) ↔ AllGrounded nodes := by
  constructor
  · rintro ⟨states, hrun⟩ producer hmem
    have hinv := foldlM_ok (P := fun visited states => (∀ e ∈ visited, e ∈ nodes.keys) →
      VisitInv nodes visited states) (fun done a s t hs hok hknown => by
        have ha : a ∈ done ++ [a] := mem_append_right _ (mem_singleton_self a)
        rcases visitStart_spec (hs fun e he => hknown e (mem_append_left _ he))
          (hknown a ha) with ⟨e, herror, -⟩ | ⟨t', hok', ht⟩
        · cases hok.symm.trans herror
        · cases hok.symm.trans hok'
          exact ht) (fun _ => visitInv_nil) hrun fun _ => id
    exact hinv.done producer (hinv.visited producer hmem)
  · intro hall
    have hgood := allGrounded_iff.mp hall
    obtain ⟨states, hrun, -⟩ := foldlM_total (P := VisitInv nodes) (l := nodes.keys)
      (fun done a rest s hsplit hs => by
        have ha : a ∈ nodes.keys := by simp [hsplit]
        exact (visitStart_spec hs ha).resolve_left fun ⟨_, _, hbad⟩ => hgood hbad) visitInv_nil
    exact ⟨states, hrun⟩

/-! ## The numbering -/

/-- What has become of some nodes below which all have been numbered, in the order `new`, from
position `base` on: each has the interval of the positions of the nodes below it. -/
structure Numbered (nodes : SortedMap ExpansionId MacroContributorProvenanceNode) (base : Nat)
    (targets : ExpansionId → Prop) (new : List ExpansionId)
    (before after : ExpansionId → Option MacroContributorProvenanceRange) : Prop where
  nodup : new.Nodup
  mem : ∀ x, x ∈ new ↔ targets x
  frame : ∀ x ∉ new, after x = before x
  block : ∀ x ∈ new, ∃ first block last, new = first ++ x :: block ++ last ∧
    after x = some ⟨base + first.length, base + first.length + (block.length + 1)⟩ ∧
    ∀ y, y ∈ x :: block ↔ Below (parentOf nodes) y x

/-- What has been numbered one after the other. -/
theorem Numbered.append {base : Nat} {targets targets' : ExpansionId → Prop}
    {new new' : List ExpansionId}
    {before mid after : ExpansionId → Option MacroContributorProvenanceRange}
    (h : Numbered nodes base targets new before mid)
    (h' : Numbered nodes (base + new.length) targets' new' mid after)
    (hdisjoint : ∀ x, targets x → ¬targets' x) :
    Numbered nodes base (fun x => targets x ∨ targets' x) (new ++ new') before after where
  nodup := nodup_append'.mpr ⟨h.nodup, h'.nodup, fun x hx hx' =>
    hdisjoint x ((h.mem x).mp hx) ((h'.mem x).mp hx')⟩
  mem x := by rw [mem_append, h.mem, h'.mem]
  frame x hx := by
    rw [mem_append, not_or] at hx
    rw [h'.frame x hx.2, h.frame x hx.1]
  block x hx := by
    by_cases hnew : x ∈ new
    · obtain ⟨first, block, last, rfl, hrange, hbelow⟩ := h.block x hnew
      have hframe := h'.frame x fun hx' =>
        hdisjoint x ((h.mem x).mp hnew) ((h'.mem x).mp hx')
      exact ⟨first, block, last ++ new', by simp, hframe.trans hrange, hbelow⟩
    · obtain ⟨first, block, last, heq, hrange, hbelow⟩ :=
        h'.block x ((mem_append.mp hx).resolve_left hnew)
      refine ⟨new ++ first, block, last, by simp [heq], ?_, hbelow⟩
      rw [hrange, length_append, Nat.add_assoc]

theorem mem_childrenOf {producer child : ExpansionId} :
    child ∈ childrenOf nodes producer ↔ parentOf nodes child = some producer := by
  rw [childrenOf, mem_filter, decide_eq_true_eq]
  exact ⟨fun h => h.2, fun h => ⟨mem_keys_of_parent h, h⟩⟩

/-- A node is numbered after the nodes below its children. -/
theorem Numbered.node {base : Nat} {producer : ExpansionId} {new : List ExpansionId}
    {before mid after : ExpansionId → Option MacroContributorProvenanceRange}
    (h : Numbered nodes (base + 1)
      (fun x => ∃ child ∈ childrenOf nodes producer, Below (parentOf nodes) x child) new mid after)
    (hbefore : ∀ x, x ≠ producer → mid x = before x)
    (hacyclic : ¬Relation.TransGen (Up (parentOf nodes)) producer producer) :
    Numbered nodes base (fun x => Below (parentOf nodes) x producer) (producer :: new) before
      (Function.update after producer (some ⟨base, base + (new.length + 1)⟩)) := by
  have hbelow : ∀ x, x ∈ producer :: new ↔ Below (parentOf nodes) x producer := by
    intro x
    rw [mem_cons, h.mem]
    constructor
    · rintro (rfl | ⟨child, hchild, hx⟩)
      · exact .refl
      · exact hx.tail (mem_childrenOf.mp hchild)
    · intro hx
      rcases Relation.ReflTransGen.cases_tail hx with heq | ⟨child, hx, hchild⟩
      · exact Or.inl heq.symm
      · exact Or.inr ⟨child, mem_childrenOf.mpr hchild, hx⟩
  have hnew : producer ∉ new := by
    rw [h.mem]
    rintro ⟨child, hchild, hx⟩
    exact hacyclic (.tail' hx (mem_childrenOf.mp hchild))
  refine ⟨nodup_cons.mpr ⟨hnew, h.nodup⟩, hbelow, fun x hx => ?_, fun x hx => ?_⟩
  · obtain ⟨hne, hx⟩ := not_or.mp (fun h => hx (mem_cons.mpr h))
    rw [update_of_ne hne, h.frame x hx, hbefore x hne]
  · rcases mem_cons.mp hx with rfl | hx
    · exact ⟨[], new, [], by simp, by simp, hbelow⟩
    · obtain ⟨first, block, last, rfl, hrange, hb⟩ := h.block x hx
      have hne : x ≠ producer := fun heq => hnew (heq ▸ hx)
      refine ⟨producer :: first, block, last, by simp, ?_, hb⟩
      rw [update_of_ne hne, hrange, length_cons]
      congr 2 <;> omega

/-- The loop enters the next node on the stack, numbers all that is below it, and leaves it. -/
def Enters (nodes : SortedMap ExpansionId MacroContributorProvenanceNode) (producer : ExpansionId) :
    Prop :=
  ∀ stack ranges preorder, (∀ x, Below (parentOf nodes) x producer → ranges x = none) →
    ∃ new ranges', Numbered nodes preorder.length (fun x => Below (parentOf nodes) x producer) new
        ranges ranges' ∧
      ∀ limit, whileTry (fun s => !s.stack.isEmpty) (preorderStep nodes) (2 * new.length + limit)
          ⟨(producer, true) :: stack, ranges, preorder⟩ =
        whileTry (fun s => !s.stack.isEmpty) (preorderStep nodes) limit
          ⟨stack, ranges', preorder ++ new⟩

/-- The loop goes through nodes that have nothing below them in common. -/
theorem enters_list {producers : List ExpansionId}
    (h : ∀ producer ∈ producers, Enters nodes producer)
    (hdisjoint : producers.Pairwise fun a b =>
      ∀ x, Below (parentOf nodes) x a → ¬Below (parentOf nodes) x b)
    (stack : List (ExpansionId × Bool))
    (ranges : ExpansionId → Option MacroContributorProvenanceRange) (preorder : List ExpansionId)
    (hfresh : ∀ x, (∃ producer ∈ producers, Below (parentOf nodes) x producer) → ranges x = none) :
    ∃ new ranges', Numbered nodes preorder.length
        (fun x => ∃ producer ∈ producers, Below (parentOf nodes) x producer) new ranges ranges' ∧
      ∀ limit, whileTry (fun s => !s.stack.isEmpty) (preorderStep nodes) (2 * new.length + limit)
          ⟨producers.map (fun producer => (producer, true)) ++ stack, ranges, preorder⟩ =
        whileTry (fun s => !s.stack.isEmpty) (preorderStep nodes) limit
          ⟨stack, ranges', preorder ++ new⟩ := by
  induction producers generalizing ranges preorder with
  | nil =>
    refine ⟨[], ranges, ⟨nodup_nil, by simp, by simp, by simp⟩, fun limit => ?_⟩
    simp
  | cons producer producers ih =>
    obtain ⟨hfirst, hrest⟩ := pairwise_cons.mp hdisjoint
    obtain ⟨new, mid, hn, hrun⟩ := h producer (by simp)
      (producers.map (fun producer => (producer, true)) ++ stack) ranges preorder
      fun x hx => hfresh x ⟨producer, by simp, hx⟩
    have hapart : ∀ x, Below (parentOf nodes) x producer →
        ¬∃ p ∈ producers, Below (parentOf nodes) x p := by
      rintro x hx ⟨p, hp, hxp⟩
      exact hfirst p hp x hx hxp
    obtain ⟨new', after, hn', hrun'⟩ := ih (fun p hp => h p (by simp [hp])) hrest mid
      (preorder ++ new) fun x hx => by
        rw [hn.frame x fun hmem => hapart x ((hn.mem x).mp hmem) hx]
        obtain ⟨p, hp, hxp⟩ := hx
        exact hfresh x ⟨p, by simp [hp], hxp⟩
    rw [length_append] at hn'
    refine ⟨new ++ new', after, ?_, fun limit => ?_⟩
    · have happend := hn.append hn' hapart
      refine { happend with mem := fun x => (happend.mem x).trans ?_ }
      simp
    · have hlength :
        2 * (new ++ new').length + limit = 2 * new.length + (2 * new'.length + limit) := by
        rw [length_append]
        omega
      rw [hlength, map_cons, cons_append, hrun, hrun', append_assoc]

/-- Every producer is entered, numbered with all that is below it, and left. -/
theorem enters (hall : AllGrounded nodes) (producer : ExpansionId) (hmem : producer ∈ nodes.keys) :
    Enters nodes producer := by
  have hacyclic : ∀ a ∈ nodes.keys.toFinset, ¬Relation.TransGen (Up (parentOf nodes)) a a :=
    fun a ha => (hall a (mem_toFinset.mp ha)).irrefl
  revert hmem
  refine child_induction (P := fun producer => producer ∈ nodes.keys → Enters nodes producer)
    hacyclic (fun producer ih hmem => ?_) producer
  intro stack ranges preorder hfresh
  have hcycle := hacyclic producer (mem_toFinset.mpr hmem)
  have hsiblings : (childrenOf nodes producer).Pairwise fun a b =>
      ∀ x, Below (parentOf nodes) x a → ¬Below (parentOf nodes) x b := by
    have hnodup : (childrenOf nodes producer).Nodup := SortedMap.nodup_keys.filter _
    refine (pairwise_iff_forall_sublist.mpr fun {a b} hsub x hxa hxb => ?_)
    have hne : a ≠ b := (pairwise_iff_forall_sublist.mp hnodup) hsub
    have ha := mem_childrenOf.mp (hsub.subset (by simp : a ∈ [a, b]))
    have hb := mem_childrenOf.mp (hsub.subset (by simp : b ∈ [a, b]))
    exact hne (siblings_disjoint hcycle ha hb hxa hxb)
  obtain ⟨new, after, hn, hrun⟩ := enters_list
    (fun child hchild => by
      have hparent := mem_childrenOf.mp hchild
      have hknown := mem_keys_of_parent hparent
      exact ih child (mem_toFinset.mpr hknown) hparent hknown)
    hsiblings ((producer, false) :: stack)
    (Function.update ranges producer (some ⟨preorder.length, preorder.length⟩))
    (preorder ++ [producer]) fun x ⟨child, hchild, hx⟩ => by
      have hparent := mem_childrenOf.mp hchild
      have hne : x ≠ producer := by
        rintro rfl
        exact hcycle (.tail' hx hparent)
      rw [update_of_ne hne]
      exact hfresh x (hx.tail hparent)
  rw [length_append, length_singleton] at hn
  have hrange : after producer = some ⟨preorder.length, preorder.length⟩ := by
    rw [hn.frame producer, update_self]
    rw [hn.mem]
    rintro ⟨child, hchild, hx⟩
    exact hcycle (.tail' hx (mem_childrenOf.mp hchild))
  refine ⟨producer :: new, _, hn.node (fun x hx => update_of_ne hx ..) hcycle,
    fun limit => ?_⟩
  have hlimit : 2 * (producer :: new).length + limit = 2 * new.length + (limit + 1) + 1 := by
    rw [length_cons]
    omega
  have henter : preorderStep nodes ⟨(producer, true) :: stack, ranges, preorder⟩ = .ok
      ⟨(childrenOf nodes producer).map (fun child => (child, true)) ++ (producer, false) :: stack,
        Function.update ranges producer (some ⟨preorder.length, preorder.length⟩),
        preorder ++ [producer]⟩ := by
    simp only [preorderStep, hfresh producer .refl, SortedMap.contains_iff.mpr hmem, if_true]
    rfl
  have hleave :
      preorderStep nodes ⟨(producer, false) :: stack, after, preorder ++ [producer] ++ new⟩ =
      .ok ⟨stack, Function.update after producer
        (some ⟨preorder.length, preorder.length + (new.length + 1)⟩),
        preorder ++ producer :: new⟩ := by
    simp [preorderStep, hrange, pure, Except.pure, Nat.add_comm new.length]
  calc _ = whileTry (fun s => !s.stack.isEmpty) (preorderStep nodes) (2 * new.length + (limit + 1))
        ⟨(childrenOf nodes producer).map (fun child => (child, true)) ++ (producer, false) :: stack,
          Function.update ranges producer (some ⟨preorder.length, preorder.length⟩),
          preorder ++ [producer]⟩ := by
        rw [hlimit, whileTry, henter]
        rfl
    _ = whileTry (fun s => !s.stack.isEmpty) (preorderStep nodes) (limit + 1)
        ⟨(producer, false) :: stack, after, preorder ++ [producer] ++ new⟩ := hrun (limit + 1)
    _ = _ := by
        rw [whileTry, hleave]
        rfl

/-- What the numbering has made of all producers. -/
structure Preordered (nodes : SortedMap ExpansionId MacroContributorProvenanceNode)
    (ranges : ExpansionId → Option MacroContributorProvenanceRange)
    (preorder : List ExpansionId) : Prop where
  perm : preorder.Perm nodes.keys
  unknown : ∀ x ∉ nodes.keys, ranges x = none
  range : ∀ x ∈ nodes.keys, ∃ r, ranges x = some r ∧ r.start < r.stop ∧
    preorder[r.start]? = some x ∧
    ∀ y position, preorder[position]? = some y →
      (IndexRange.Mem position r ↔ Below (parentOf nodes) y x)

theorem Numbered.preordered {ranges : ExpansionId → Option MacroContributorProvenanceRange}
    (h : Numbered nodes 0 (· ∈ nodes.keys) preorder (fun _ => none) ranges) :
    Preordered nodes ranges preorder where
  perm := (perm_ext_iff_of_nodup h.nodup SortedMap.nodup_keys).mpr h.mem
  unknown x hx := h.frame x fun hmem => hx ((h.mem x).mp hmem)
  range x hx := by
    obtain ⟨first, block, last, heq, hrange, hbelow⟩ := h.block x ((h.mem x).mpr hx)
    have hnodup := h.nodup
    subst heq
    refine ⟨_, hrange, by simp, by simp, fun y position hy => ?_⟩
    rw [← hbelow]
    simp only [IndexRange.Mem, Nat.zero_add]
    constructor
    · rintro ⟨hle, hlt⟩
      rw [append_assoc, getElem?_append_right hle, getElem?_append_left (by simp; omega)] at hy
      exact mem_of_getElem? hy
    · intro hmem
      obtain ⟨i, hi, hget⟩ := getElem_of_mem hmem
      have hy' : (first ++ x :: block ++ last)[first.length + i]? = some y := by
        rw [append_assoc, getElem?_append_right (by omega), getElem?_append_left (by omega),
          Nat.add_sub_cancel_left, getElem?_eq_getElem hi, hget]
      -- no producer is numbered twice
      obtain ⟨hlt, hgety⟩ := List.getElem?_eq_some_iff.mp hy
      obtain ⟨hlt', hgety'⟩ := List.getElem?_eq_some_iff.mp hy'
      have hposition : position = first.length + i :=
        (List.Nodup.getElem_inj_iff hnodup).mp (hgety.trans hgety'.symm)
      rw [length_cons] at hi
      omega

/-- The loop numbers all producers. -/
theorem preorder_total (hall : AllGrounded nodes) :
    ∃ s, whileTry (fun s => !s.stack.isEmpty) (preorderStep nodes) (2 * nodes.keys.length)
      (PreorderState.start nodes) = .ok s ∧ Preordered nodes s.ranges s.preorder := by
  have hmem : ∀ {r}, r ∈ roots nodes ↔ r ∈ nodes.keys ∧ parentOf nodes r = none := by
    intro r
    rw [roots, mem_filter, Option.isNone_iff_eq_none]
  have hdisjoint : (roots nodes).Pairwise fun a b =>
      ∀ x, Below (parentOf nodes) x a → ¬Below (parentOf nodes) x b := by
    have hnodup : (roots nodes).Nodup := SortedMap.nodup_keys.filter _
    refine (pairwise_iff_forall_sublist.mpr fun {a b} hsub x hxa hxb => ?_)
    have hne : a ≠ b := (pairwise_iff_forall_sublist.mp hnodup) hsub
    have ha := hmem.mp (hsub.subset (by simp : a ∈ [a, b]))
    have hb := hmem.mp (hsub.subset (by simp : b ∈ [a, b]))
    exact hne (roots_disjoint ha.2 hb.2 hxa hxb)
  obtain ⟨new, ranges, hn, hrun⟩ := enters_list
    (fun r hr => enters hall r (hmem.mp hr).1) hdisjoint [] (fun _ => none) [] fun _ _ => rfl
  -- every producer is below a root
  have hall' : ∀ x, (∃ r ∈ roots nodes, Below (parentOf nodes) x r) ↔ x ∈ nodes.keys := by
    intro x
    constructor
    · rintro ⟨r, hr, hx⟩
      rcases Relation.ReflTransGen.cases_head hx with rfl | ⟨p, hup, -⟩
      · exact (hmem.mp hr).1
      · exact mem_keys_of_parent hup
    · intro hx
      obtain ⟨r, hr, hroot, hbelow⟩ := (hall x hx).exists_root
      exact ⟨r, hmem.mpr ⟨mem_toFinset.mp hr, hroot⟩, hbelow⟩
  have hnumbered : Numbered nodes 0 (· ∈ nodes.keys) new (fun _ => none) ranges :=
    { hn with mem := fun x => (hn.mem x).trans (hall' x) }
  have hlength : new.length = nodes.keys.length := hnumbered.preordered.perm.length_eq
  refine ⟨⟨[], ranges, new⟩, ?_, hnumbered.preordered⟩
  have := hrun 0
  rw [hlength, append_nil, nil_append, Nat.add_zero] at this
  exact this

/-! ## The ranges of the contributors -/

/-- The ranges of the producers to which a contributor is local, in order. -/
def localRanges (nodes : SortedMap ExpansionId MacroContributorProvenanceNode)
    (producerRanges : ExpansionId → Option MacroContributorProvenanceRange)
    (preorder : List ExpansionId) (contributor : SourceUnitId) :
    List MacroContributorProvenanceRange :=
  preorder.filterMap fun producer =>
    if (nodes.get producer).any fun node => contributor ∈ node.localUnits then
      producerRanges producer
    else none

theorem foldl_pushRange {units : List SourceUnitId} (hnodup : units.Nodup)
    (ranges : SourceUnitId → Option (List MacroContributorProvenanceRange))
    (contributor : SourceUnitId) :
    units.foldl (pushRange range) ranges contributor =
      if contributor ∈ units then some (IndexRange.push ((ranges contributor).getD []) range)
      else ranges contributor := by
  induction units generalizing ranges with
  | nil => rfl
  | cons unit units ih =>
    obtain ⟨hunit, hnodup⟩ := nodup_cons.mp hnodup
    rw [foldl_cons, ih hnodup]
    by_cases hc : contributor = unit
    · subst hc
      simp [pushRange, hunit]
    · simp [pushRange, hc]

/-- Collecting succeeds, contributor by contributor. -/
theorem collect_total (h : Preordered nodes producerRanges preorder) :
    ∃ ranges, preorder.foldlM (collect nodes producerRanges) (fun _ => none) = .ok ranges ∧
      ∀ contributor, (ranges contributor).getD [] =
        (localRanges nodes producerRanges preorder contributor).foldl IndexRange.push [] := by
  refine foldlM_total (P := fun done
      (ranges : SourceUnitId → Option (List MacroContributorProvenanceRange)) =>
    ∀ contributor, (ranges contributor).getD [] =
      (localRanges nodes producerRanges done contributor).foldl IndexRange.push [])
    (fun done producer rest ranges hsplit hinv => ?_) fun _ => rfl
  have hmem : producer ∈ nodes.keys := h.perm.mem_iff.mp (by simp [hsplit])
  obtain ⟨node, hnode⟩ := SortedMap.mem_keys.mp hmem
  obtain ⟨range, hrange, -⟩ := h.range producer hmem
  refine ⟨_, by simp only [collect, hnode, hrange]; rfl, fun contributor => ?_⟩
  rw [foldl_pushRange (nodup_ascending _), localRanges, filterMap_append, foldl_append]
  have := hinv contributor
  rw [localRanges] at this
  rw [← this]
  by_cases hc : contributor ∈ node.localUnits
  · simp [hnode, hc, hrange]
  · simp [hnode, hc]

/-- The ranges are collected in the order of their starts. -/
theorem localRanges_sorted (h : Preordered nodes producerRanges preorder)
    (contributor : SourceUnitId) :
    (localRanges nodes producerRanges preorder contributor).Pairwise fun a b =>
      a.start ≤ b.start := by
  have hnodup : preorder.Nodup := h.perm.nodup_iff.mpr SortedMap.nodup_keys
  rw [localRanges, pairwise_filterMap, pairwise_iff_getElem]
  intro i j hi hj hij a ha b hb
  have hstart : ∀ {k : Nat} (hk : k < preorder.length) {r : MacroContributorProvenanceRange},
      producerRanges preorder[k] = some r → r.start = k := by
    intro k hk r hr
    obtain ⟨r', hr', -, hget, -⟩ := h.range preorder[k] (h.perm.mem_iff.mp (getElem_mem hk))
    cases hr.symm.trans hr'
    obtain ⟨hlt, hget⟩ := List.getElem?_eq_some_iff.mp hget
    exact (List.Nodup.getElem_inj_iff hnodup).mp hget
  split at ha
  · split at hb
    · rw [hstart hi ha, hstart hj hb]
      exact hij.le
    · cases hb
  · cases ha

/-! ## The index -/

theorem localRanges_mem (h : Preordered nodes producerRanges preorder) {producer : ExpansionId}
    (hmem : producer ∈ nodes.keys) (hrange : producerRanges producer = some range)
    (contributor : SourceUnitId) :
    (∃ r ∈ localRanges nodes producerRanges preorder contributor, IndexRange.Mem range.start r) ↔
      Inherits nodes producer contributor := by
  obtain ⟨range', hrange', -, hget, -⟩ := h.range producer hmem
  cases hrange.symm.trans hrange'
  simp only [localRanges, mem_filterMap]
  constructor
  · rintro ⟨r, ⟨ancestor, hancestor, hr⟩, hin⟩
    split at hr
    · rename_i hlocal
      obtain ⟨r', hr', -, -, hbelow⟩ := h.range ancestor (h.perm.mem_iff.mp hancestor)
      cases hr.symm.trans hr'
      obtain ⟨node, hnode, hunit⟩ := (Option.any_eq_true ..).mp hlocal
      exact ⟨ancestor, node, (hbelow producer _ hget).mp hin, hnode, by simpa using hunit⟩
    · cases hr
  · rintro ⟨ancestor, node, hbelow, hnode, hunit⟩
    have hknown : ancestor ∈ nodes.keys := SortedMap.mem_keys.mpr ⟨node, hnode⟩
    obtain ⟨r, hr, -, -, hiff⟩ := h.range ancestor hknown
    refine ⟨r, ⟨ancestor, h.perm.mem_iff.mpr hknown, ?_⟩, (hiff producer _ hget).mpr hbelow⟩
    rw [if_pos, hr]
    simpa [hnode] using hunit

/-- A position is looked up in the ranges of the contributor, if it has some. -/
theorem allows_of_range (index : MacroContributorProvenanceIndex) {producer : ExpansionId}
    (hrange : index.producerRanges producer = some range) (contributor : SourceUnitId)
    {ranges : List MacroContributorProvenanceRange}
    (hranges : (index.contributorRanges contributor).getD [] = ranges)
    (hseparated : IndexRange.Separated ranges) :
    (index.allows producer contributor = some true ↔ ∃ r ∈ ranges, IndexRange.Mem range.start r) ∧
      (index.allows producer contributor = some false ↔
        ¬∃ r ∈ ranges, IndexRange.Mem range.start r) := by
  rw [IndexRange.mem_iff_insertion hseparated]
  unfold MacroContributorProvenanceIndex.allows
  cases hget : index.contributorRanges contributor with
  | none =>
    obtain rfl : [] = ranges := by simpa [hget] using hranges
    simp [hrange, IndexRange.insertion]
  | some found =>
    obtain rfl : found = ranges := by simpa [hget] using hranges
    have hlookup :
        range.start < (found.getD (IndexRange.insertion found range.start - 1) ⟨0, 0⟩).stop ↔
        ∃ r, found[IndexRange.insertion found range.start - 1]? = some r ∧
          range.start < r.stop := by
      rw [getD_eq_getElem?_getD]
      cases found[IndexRange.insertion found range.start - 1]? <;> simp
    simp only [hrange, hlookup, Option.bind_eq_bind, Option.bind_some, pure,
      Option.some.injEq, decide_eq_true_eq, decide_eq_false_iff_not, and_self]

theorem resolve_total (hall : AllGrounded nodes) :
    ∃ index, resolveMacroContributorProvenance nodes = .ok index ∧
      ∀ producer contributor, (producer ∉ nodes.keys → index.allows producer contributor = none) ∧
        (producer ∈ nodes.keys → (Inherits nodes producer contributor →
            index.allows producer contributor = some true) ∧
          (¬Inherits nodes producer contributor →
            index.allows producer contributor = some false)) := by
  obtain ⟨states, hvisit⟩ := visit_ok.mpr hall
  have hparents : ¬(nodes.keys.any fun producer =>
      (parentOf nodes producer).any (!nodes.contains ·)) = true := by
    intro h
    obtain ⟨producer, hmem, h⟩ := any_eq_true.mp h
    obtain ⟨parent, hparent, h⟩ := (Option.any_eq_true ..).mp h
    refine allGrounded_iff.mp hall (Or.inl (missingParent_iff.mpr ?_))
    exact ⟨producer, hmem, parent, hparent, by simpa using h⟩
  obtain ⟨s, hrun, hs⟩ := preorder_total hall
  obtain ⟨ranges, hcollect, hranges⟩ := collect_total hs
  refine ⟨⟨s.ranges, ranges⟩, ?_, fun producer contributor => ⟨fun hmem => ?_, fun hmem => ?_⟩⟩
  · simp only [resolveMacroContributorProvenance, hvisit, hparents, hrun, hcollect,
      hs.perm.length_eq, bind, Except.bind, pure, Except.pure, ne_eq, not_true_eq_false, if_false,
      Bool.false_eq_true]
  · simp [MacroContributorProvenanceIndex.allows, hs.unknown producer hmem]
  · obtain ⟨range, hrange, -⟩ := hs.range producer hmem
    have hsorted := localRanges_sorted hs contributor
    obtain ⟨hseparated, hunion⟩ := IndexRange.foldl_push_spec (fun r hr => by
      obtain ⟨p, hp, hr⟩ := mem_filterMap.mp hr
      split at hr
      · obtain ⟨r', hr', hlt, -⟩ := hs.range p (hs.perm.mem_iff.mp hp)
        cases hr.symm.trans hr'
        exact hlt.le
      · cases hr) hsorted
    obtain ⟨htrue, hfalse⟩ := allows_of_range ⟨s.ranges, ranges⟩ hrange contributor
      (hranges contributor) hseparated
    have hiff := (hunion range.start).trans (localRanges_mem hs hmem hrange contributor)
    exact ⟨fun h => htrue.mpr (hiff.mpr h), fun h => hfalse.mpr fun hin => h (hiff.mp hin)⟩

end MacroProvenance

/-- The index exists if and only if every chain of parents ends at a producer without one, and
then it knows which contributors a producer has inherited. -/
theorem resolveMacroContributorProvenance_spec
    (nodes : SortedMap ExpansionId MacroContributorProvenanceNode) :
    ((∃ e, resolveMacroContributorProvenance nodes = .error e) ↔
        MissingParent nodes ∨ CyclicParents nodes) ∧
      ∀ index, resolveMacroContributorProvenance nodes = .ok index →
        ∀ producer contributor,
          (index.allows producer contributor = some true ↔
            producer ∈ nodes.keys ∧ Inherits nodes producer contributor) ∧
          (index.allows producer contributor = some false ↔
            producer ∈ nodes.keys ∧ ¬Inherits nodes producer contributor) ∧
          (index.allows producer contributor = none ↔ producer ∉ nodes.keys) := by
  by_cases hall : AllGrounded nodes
  · obtain ⟨index, hok, hallows⟩ := resolve_total hall
    refine ⟨⟨fun ⟨e, herror⟩ => ?_, fun hbad => absurd hbad (allGrounded_iff.mp hall)⟩, ?_⟩
    · cases hok.symm.trans herror
    · intro index' hok' producer contributor
      cases hok.symm.trans hok'
      obtain ⟨hunknown, hknown⟩ := hallows producer contributor
      by_cases hmem : producer ∈ nodes.keys
      · obtain ⟨hyes, hno⟩ := hknown hmem
        by_cases hin : Inherits nodes producer contributor
        · simp [hmem, hin, hyes hin]
        · simp [hmem, hin, hno hin]
      · simp [hmem, hunknown hmem]
  · have hfail : ∃ e, resolveMacroContributorProvenance nodes = .error e := by
      cases hvisit : nodes.keys.foldlM (visitStart nodes) fun _ => .unvisited with
      | ok states => exact absurd (visit_ok.mp ⟨states, hvisit⟩) hall
      | error e =>
        refine ⟨e, ?_⟩
        rw [resolveMacroContributorProvenance, hvisit]
        rfl
    refine ⟨⟨fun _ => ?_, fun _ => hfail⟩, fun index hok => ?_⟩
    · exact not_not.mp (mt allGrounded_iff.mpr hall)
    · obtain ⟨e, herror⟩ := hfail
      cases hok.symm.trans herror

/-- Two roots, each with a child. -/
def provenanceForest : SortedMap ExpansionId MacroContributorProvenanceNode where
  entries := [(⟨0⟩, ⟨{⟨5⟩}, none⟩), (⟨1⟩, ⟨{⟨6⟩}, some ⟨3⟩⟩), (⟨2⟩, ⟨∅, some ⟨0⟩⟩),
    (⟨3⟩, ⟨∅, none⟩)]
  sorted := by decide

theorem resolveMacroContributorProvenance_spec_forest :
    ∃ index, resolveMacroContributorProvenance provenanceForest = .ok index ∧
      index.allows ⟨2⟩ ⟨5⟩ = some true := by
  refine ⟨_, rfl, ?_⟩
  refine ((resolveMacroContributorProvenance_spec provenanceForest).2 _ rfl ⟨2⟩ ⟨5⟩).1.mpr ?_
  exact ⟨by decide, ⟨0⟩, ⟨{⟨5⟩}, none⟩, .single rfl, rfl, by decide⟩

end ItemDependencies
