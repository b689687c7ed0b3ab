import ItemDependencies.Expansion.ContributorUnions
import ItemDependencies.Library.RangeTree

/-!
# The contributors of token ranges

Contributor nodes are interned, so that equal nodes have one number however often they are asked
for.  Over the roots of the tokens of an output stands a tree, whose nodes are the roots of ranges:
a few of them stand for all tokens of a range.
-/

namespace ItemDependencies

open Library List

/-! ## Interning -/

namespace MacroContributorDagBuilder

/-- One call: a call that fails leaves the builder as it is. -/
def internCall (hash : MacroContributorNode → Nat) (builder : MacroContributorDagBuilder)
    (call : List SourceUnitId × List MacroContributorSetId) :
    MacroContributorDagBuilder × Except ExpansionError MacroContributorSetId :=
  match builder.intern hash call.1 call.2 with
  | .ok (builder, id) => (builder, .ok id)
  | .error error => (builder, .error error)

/-- Calls one after the other, with the result of each. -/
def internCalls (hash : MacroContributorNode → Nat) :
    MacroContributorDagBuilder → List (List SourceUnitId × List MacroContributorSetId) →
      MacroContributorDagBuilder × List (Except ExpansionError MacroContributorSetId)
  | builder, [] => (builder, [])
  | builder, call :: calls =>
    let (builder, result) := internCall hash builder call
    let (builder, results) := internCalls hash builder calls
    (builder, result :: results)

end MacroContributorDagBuilder

/-! ## The tree over the tokens -/

/-- The roots of the tokens, and those of the ranges of the tree. -/
structure PreparedTokenContributors where
  byOrdinal : List MacroContributorSetId
  leafCount : Nat
  rangeNodes : List (Option MacroContributorSetId)

namespace PreparedTokenContributors

/-- Empty nodes, and the roots of the tokens on the last level. -/
def leafNodes (leafCount : Nat) (byOrdinal : List MacroContributorSetId) :
    List (Option MacroContributorSetId) :=
  List.replicate leafCount none ++ byOrdinal.map some ++
    List.replicate (leafCount - byOrdinal.length) none

/-- Two different roots are joined by a node of their own. -/
def joinRoots (hash : MacroContributorNode → Nat) (builder : MacroContributorDagBuilder) :
    Option MacroContributorSetId → Option MacroContributorSetId →
      Except ExpansionError (MacroContributorDagBuilder × Option MacroContributorSetId)
  | some left, some right =>
    if left ≠ right then
      (builder.intern hash [] [left, right]).map fun interned => (interned.1, some interned.2)
    else .ok (builder, some left)
  | some root, none | none, some root => .ok (builder, some root)
  | none, none => .ok (builder, none)

/-- An inner node gets the roots of its children. -/
def joinNode (hash : MacroContributorNode → Nat)
    (state : MacroContributorDagBuilder × List (Option MacroContributorSetId)) (index : Nat) :
    Except ExpansionError (MacroContributorDagBuilder × List (Option MacroContributorSetId)) :=
  (joinRoots hash state.1 state.2[index * 2]?.join state.2[index * 2 + 1]?.join).map fun joined =>
    (joined.1, state.2.set index joined.2)

/-- Build the tree over the roots of the tokens. -/
def new (hash : MacroContributorNode → Nat) (byOrdinal : List MacroContributorSetId)
    (builder : MacroContributorDagBuilder) :
    Except ExpansionError (PreparedTokenContributors × MacroContributorDagBuilder) := do
  let leafCount := nextPowerOfTwo byOrdinal.length
  if u64Size ≤ leafCount * 2 then throw .incompleteOrigin
  let state ← (List.range' 1 (leafCount - 1)).reverse.foldlM (joinNode hash)
    (builder, leafNodes leafCount byOrdinal)
  return (⟨byOrdinal, leafCount, state.2⟩, state.1)

/-- One more root, of a node of the tree. -/
def pushRoot (rangeNodes : List (Option MacroContributorSetId))
    (roots : List MacroContributorSetId) (index : Nat) :
    Except ExpansionError (List MacroContributorSetId) :=
  match rangeNodes[index]?.join with
  | some root => .ok (roots ++ [root])
  | none => .error .incompleteOrigin

/-- The first node of the range, if it is the second child of its parent. -/
def takeStart (rangeNodes : List (Option MacroContributorSetId)) (start : Nat)
    (roots : List MacroContributorSetId) :
    Except ExpansionError (Nat × List MacroContributorSetId) :=
  if start % 2 = 1 then (pushRoot rangeNodes roots start).map fun roots => (start + 1, roots)
  else .ok (start, roots)

/-- The last node of the range, if it is the first child of its parent. -/
def takeStop (rangeNodes : List (Option MacroContributorSetId)) (stop : Nat)
    (roots : List MacroContributorSetId) :
    Except ExpansionError (Nat × List MacroContributorSetId) :=
  if stop % 2 = 1 then
    (pushRoot rangeNodes roots (stop - 1)).map fun roots => (stop - 1, roots)
  else .ok (stop, roots)

/-- Level by level from the leaves up. -/
def rootsLoop (rangeNodes : List (Option MacroContributorSetId)) :
    Nat → Nat → Nat → List MacroContributorSetId →
      Except ExpansionError (List MacroContributorSetId)
  | 0, _, _, roots => .ok roots
  | fuel + 1, start, stop, roots =>
    if start < stop then do
      let first ← takeStart rangeNodes start roots
      let last ← takeStop rangeNodes stop first.2
      rootsLoop rangeNodes fuel (first.1 / 2) (last.1 / 2) last.2
    else .ok roots

def rootsForRange (contributors : PreparedTokenContributors) (range : MacroOutputRange) :
    Except ExpansionError (List MacroContributorSetId) :=
  if range.stop ≤ range.start ∨ contributors.byOrdinal.length < range.stop then
    .error .incompleteOrigin
  else
    (rootsLoop contributors.rangeNodes (range.stop + contributors.leafCount)
      (range.start + contributors.leafCount) (range.stop + contributors.leafCount) []).bind
        fun roots => if roots = [] then .error .incompleteOrigin else .ok (sortDedup roots)

end PreparedTokenContributors

/-! ## Runs of calls -/

section Runs

variable {hash : MacroContributorNode → Nat} {builder builder' : MacroContributorDagBuilder}
  {localSources : List SourceUnitId} {parents : List MacroContributorSetId}
  {id : MacroContributorSetId}

namespace MacroContributorDagBuilder

/-- The node for which a call asks. -/
def nodeOf (call : List SourceUnitId × List MacroContributorSetId) : MacroContributorNode :=
  ⟨sortDedup call.1, sortDedup call.2⟩

theorem nodeOf_eq_iff {call call' : List SourceUnitId × List MacroContributorSetId} :
    nodeOf call = nodeOf call' ↔
      call.1.toFinset = call'.1.toFinset ∧ call.2.toFinset = call'.2.toFinset := by
  have hsort : ∀ {α : Type} [LinearOrder α] {l l' : List α},
      sortDedup l = sortDedup l' ↔ l.toFinset = l'.toFinset := by
    intro α _ l l'
    constructor
    · intro h
      rw [← toFinset_sortDedup l, h, toFinset_sortDedup]
    · intro h
      rw [sortDedup, h, ← sortDedup]
  rw [nodeOf, nodeOf, MacroContributorNode.mk.injEq, hsort, hsort]

/-- No node is there twice, all nodes are found under their hash, and parents come first. -/
structure Consed (hash : MacroContributorNode → Nat) (builder : MacroContributorDagBuilder) :
    Prop where
  unique : builder.nodes.Nodup
  filed : ∀ (k : Nat) node, builder.nodes[k]? = some node →
    ⟨k⟩ ∈ (builder.canonical.get (hash node)).getD []
  valid : ∀ key, ∀ id ∈ (builder.canonical.get key).getD [], id.index < builder.nodes.length
  parents : ∀ (k : Nat) node, builder.nodes[k]? = some node → ∀ parent ∈ node.parents,
    parent.index < k
  size : builder.nodes.length ≤ u32Size

theorem consed_empty : Consed hash .empty where
  unique := .nil
  filed k node h := by cases h
  valid key id h := by
    rw [empty, SortedMap.get_empty] at h
    cases h
  parents k node h := by cases h
  size := Nat.zero_le _

/-- The search in a bucket of valid numbers tells whether it holds the node. -/
theorem findEqual_valid {nodes : List MacroContributorNode} {node : MacroContributorNode}
    {ids : List MacroContributorSetId} (hvalid : ∀ id ∈ ids, id.index < nodes.length) :
    (∃ id, findEqual nodes node ids = .ok (some id) ∧ nodes[id.index]? = some node) ∨
      findEqual nodes node ids = .ok none ∧ ∀ id ∈ ids, nodes[id.index]? ≠ some node := by
  induction ids with
  | nil => exact .inr ⟨rfl, by simp⟩
  | cons id ids ih =>
    rw [forall_mem_cons] at hvalid
    rw [findEqual, getElem?_eq_getElem hvalid.1]
    dsimp only
    split
    · rename_i heq
      exact .inl ⟨id, rfl, by rw [getElem?_eq_getElem hvalid.1, heq]⟩
    · rename_i hne
      rcases ih hvalid.2 with hfound | ⟨hnone, hall⟩
      · exact .inl hfound
      · refine .inr ⟨hnone, forall_mem_cons.mpr ⟨fun h => ?_, hall⟩⟩
        rw [getElem?_eq_getElem hvalid.1] at h
        exact hne (Option.some.inj h)

/-- A new node is filed under its hash, with the next number. -/
theorem Consed.push {node : MacroContributorNode} (h : Consed hash builder)
    (hnew : node ∉ builder.nodes)
    (hparents : ∀ parent ∈ node.parents, parent.index < builder.nodes.length)
    (hsize : builder.nodes.length < u32Size) :
    Consed hash ⟨builder.nodes ++ [node], builder.canonical.insert (hash node)
      ((builder.canonical.get (hash node)).getD [] ++ [⟨builder.nodes.length⟩])⟩ := by
  have hget : ∀ key, ((builder.canonical.insert (hash node)
      ((builder.canonical.get (hash node)).getD [] ++ [⟨builder.nodes.length⟩])).get key).getD [] =
      (builder.canonical.get key).getD [] ++
        if key = hash node then [⟨builder.nodes.length⟩] else [] := fun key => by
    rw [SortedMap.get_insert]
    split
    · rename_i heq
      rw [heq]
      rfl
    · rw [append_nil]
  constructor
  · dsimp only
    rw [← concat_eq_append]
    exact h.unique.concat hnew
  · intro k other hk
    dsimp only at hk ⊢
    rw [hget, mem_append]
    rcases getElem?_concat_eq_some.mp hk with hk | ⟨rfl, rfl⟩
    · exact .inl (h.filed k other hk)
    · rw [if_pos rfl]
      exact .inr (mem_singleton.mpr rfl)
  · intro key id hid
    dsimp only at hid ⊢
    rw [hget, mem_append] at hid
    rw [length_append, length_singleton]
    rcases hid with hid | hid
    · exact (h.valid key id hid).trans (Nat.lt_succ_self _)
    · split at hid
      · cases mem_singleton.mp hid
        exact Nat.lt_succ_self _
      · cases hid
  · intro k other hk
    rcases getElem?_concat_eq_some.mp hk with hk | ⟨rfl, rfl⟩
    · exact h.parents k other hk
    · exact hparents
  · dsimp only
    rw [length_append, length_singleton]
    exact hsize

/-- A call finds the node, or adds it, or fails. -/
theorem Consed.intern_cases (h : Consed hash builder)
    (call : List SourceUnitId × List MacroContributorSetId) :
    (∃ id, builder.intern hash call.1 call.2 = .ok (builder, id) ∧
        builder.nodes[id.index]? = some (nodeOf call)) ∨
      (∃ builder', builder.intern hash call.1 call.2 = .ok (builder', ⟨builder.nodes.length⟩) ∧
        builder'.nodes = builder.nodes ++ [nodeOf call] ∧ Consed hash builder') ∨
      (∃ error, builder.intern hash call.1 call.2 = .error error) ∧
        ((∃ parent ∈ call.2, builder.nodes.length ≤ parent.index) ∨
          builder.nodes.length = u32Size ∧ nodeOf call ∉ builder.nodes) := by
  have hnode : (⟨sortDedup call.1, sortDedup call.2⟩ : MacroContributorNode) = nodeOf call := rfl
  have hmem : ∀ parent, parent ∈ (nodeOf call).parents ↔ parent ∈ call.2 := fun _ => mem_sortDedup
  unfold intern
  rw [hnode]
  generalize nodeOf call = node at *
  dsimp only
  by_cases hparents : node.parents.any fun parent => builder.nodes.length ≤ parent.index
  · refine .inr (.inr ⟨⟨.incompleteOrigin, if_pos hparents⟩, .inl ?_⟩)
    obtain ⟨parent, hparent, hle⟩ := any_eq_true.mp hparents
    exact ⟨parent, (hmem parent).mp hparent, of_decide_eq_true hle⟩
  · have hlt : ∀ parent ∈ node.parents, parent.index < builder.nodes.length :=
      fun parent hparent => by
        by_contra hge
        exact hparents (any_eq_true.mpr ⟨parent, hparent, decide_eq_true (not_lt.mp hge)⟩)
    rw [if_neg hparents]
    rcases findEqual_valid (h.valid (hash node)) with
      ⟨id, hfound, hat⟩ | ⟨hnone, hnew⟩
    · rw [hfound]
      exact .inl ⟨id, rfl, hat⟩
    · rw [hnone]
      refine .inr ?_
      show (∃ builder', builder.push (hash node) node = _ ∧ _) ∨
        (∃ error, builder.push (hash node) node = _) ∧ _
      have hnotMem : node ∉ builder.nodes := fun hnode => by
        obtain ⟨k, hk⟩ := mem_iff_getElem?.mp hnode
        exact hnew ⟨k⟩ (h.filed k _ hk) hk
      unfold MacroContributorDagBuilder.push
      by_cases hsize : u32Size ≤ builder.nodes.length
      · exact .inr ⟨⟨.incompleteOrigin, if_pos hsize⟩, .inr ⟨h.size.antisymm hsize, hnotMem⟩⟩
      · rw [if_neg hsize]
        exact .inl ⟨_, rfl, rfl, h.push hnotMem hlt (not_le.mp hsize)⟩

/-- A call succeeds if its parents are known and its node is, or there is room for it. -/
theorem Consed.internCall_isOk_iff (h : Consed hash builder)
    (call : List SourceUnitId × List MacroContributorSetId) :
    (∃ id, (builder.internCall hash call).2 = .ok id) ↔
      (∀ parent ∈ call.2, parent.index < builder.nodes.length) ∧
        (nodeOf call ∈ builder.nodes ∨ builder.nodes.length < u32Size) := by
  have hmem : ∀ parent, parent ∈ (nodeOf call).parents ↔ parent ∈ call.2 := fun _ => mem_sortDedup
  unfold MacroContributorDagBuilder.internCall
  rcases h.intern_cases call with ⟨id, hrun, hat⟩ | ⟨builder', hrun, hnodes, h'⟩ |
    ⟨⟨error, hrun⟩, hfails⟩
  · rw [hrun]
    refine ⟨fun _ => ⟨fun parent hparent => ?_, .inl (mem_of_getElem? hat)⟩, fun _ => ⟨id, rfl⟩⟩
    exact (h.parents id.index _ hat parent ((hmem parent).mpr hparent)).trans
      (List.getElem?_eq_some_iff.mp hat).1
  · rw [hrun]
    have hsize := h'.size
    rw [hnodes, length_append] at hsize
    refine ⟨fun _ => ⟨fun parent hparent => ?_, .inr hsize⟩, fun _ => ⟨_, rfl⟩⟩
    refine h'.parents builder.nodes.length (nodeOf call) ?_ parent ((hmem parent).mpr hparent)
    rw [hnodes]
    exact getElem?_concat_length
  · rw [hrun]
    refine ⟨by rintro ⟨id, ⟨⟩⟩, fun ⟨hknown, hroom⟩ => ?_⟩
    rcases hfails with ⟨parent, hparent, hle⟩ | ⟨hfull, hnew⟩
    · exact absurd (hknown parent hparent) (not_lt.mpr hle)
    · exact (hroom.elim hnew hfull.not_lt).elim

/-- One call keeps the nodes, and its result is the number of its node. -/
theorem Consed.internCall (h : Consed hash builder)
    (call : List SourceUnitId × List MacroContributorSetId) :
    Consed hash (builder.internCall hash call).1 ∧
      builder.nodes <+: (builder.internCall hash call).1.nodes ∧
      (∀ id, (builder.internCall hash call).2 = .ok id →
        (builder.internCall hash call).1.nodes[id.index]? = some (nodeOf call)) ∧
      ∀ k < (builder.internCall hash call).1.nodes.length, k < builder.nodes.length ∨
        (builder.internCall hash call).2 = .ok ⟨k⟩ := by
  unfold MacroContributorDagBuilder.internCall
  rcases h.intern_cases call with ⟨id, hrun, hat⟩ | ⟨builder', hrun, hnodes, h'⟩ |
    ⟨⟨error, hrun⟩, -⟩
  · rw [hrun]
    refine ⟨h, prefix_rfl, fun id' hid => ?_, fun k hk => .inl hk⟩
    cases hid
    exact hat
  · rw [hrun]
    refine ⟨h', hnodes ▸ prefix_append _ _, fun id' hid => ?_, fun k hk => ?_⟩
    · cases hid
      dsimp only
      rw [hnodes]
      exact getElem?_concat_eq_some.mpr (.inr ⟨rfl, rfl⟩)
    · dsimp only at hk
      rw [hnodes, length_append, length_singleton, Nat.lt_succ_iff_lt_or_eq] at hk
      rcases hk with hk | rfl
      · exact .inl hk
      · exact .inr rfl
  · rw [hrun]
    exact ⟨h, prefix_rfl, fun id hid => (by cases hid), fun k hk => .inl hk⟩

/-- All calls together. -/
theorem Consed.internCalls (h : Consed hash builder)
    (calls : List (List SourceUnitId × List MacroContributorSetId)) :
    Consed hash (builder.internCalls hash calls).1 ∧
      builder.nodes <+: (builder.internCalls hash calls).1.nodes ∧
      (∀ (i : Nat) call id, calls[i]? = some call →
        (builder.internCalls hash calls).2[i]? = some (.ok id) →
        (builder.internCalls hash calls).1.nodes[id.index]? = some (nodeOf call)) ∧
      ∀ k < (builder.internCalls hash calls).1.nodes.length, k < builder.nodes.length ∨
        .ok ⟨k⟩ ∈ (builder.internCalls hash calls).2 := by
  induction calls generalizing builder with
  | nil => exact ⟨h, prefix_rfl, fun i call id hi => (by cases hi), fun k hk => .inl hk⟩
  | cons call calls ih =>
    obtain ⟨hfirst, hkeep, hat, hdense⟩ := h.internCall call
    obtain ⟨hrest, hkeep', hat', hdense'⟩ := ih hfirst
    refine ⟨hrest, hkeep.trans hkeep', fun i call' id hi hid => ?_, fun k hk => ?_⟩
    · cases i with
      | zero =>
        cases hi
        have hnode := hat id (Option.some.inj hid)
        obtain ⟨added, hadded⟩ := hkeep'
        rw [MacroContributorDagBuilder.internCalls, ← hadded,
          getElem?_append_left (List.getElem?_eq_some_iff.mp hnode).1]
        exact hnode
      | succ i => exact hat' i call' id hi hid
    · rcases hdense' k hk with hk | hk
      · rcases hdense k hk with hk | hk
        · exact .inl hk
        · exact .inr (mem_cons.mpr (.inl hk.symm))
      · exact .inr (mem_cons_of_mem _ hk)

theorem length_internCalls (calls : List (List SourceUnitId × List MacroContributorSetId)) :
    (builder.internCalls hash calls).2.length = calls.length := by
  induction calls generalizing builder with
  | nil => rfl
  | cons call calls ih => exact congrArg (· + 1) ih

theorem internCalls_append (calls calls' : List (List SourceUnitId × List MacroContributorSetId)) :
    (builder.internCalls hash (calls ++ calls')).1 =
      ((builder.internCalls hash calls).1.internCalls hash calls').1 := by
  induction calls generalizing builder with
  | nil => rfl
  | cons call calls ih => exact ih

end MacroContributorDagBuilder

namespace PreparedTokenContributors

/-! ## Joined roots -/

/-- The root of a node, from those of its children. -/
inductive JoinOf (nodes : List MacroContributorNode) : Option MacroContributorSetId →
    Option MacroContributorSetId → Option MacroContributorSetId → Prop
  | both {left right root : MacroContributorSetId}
      (h : nodes[root.index]? = some ⟨[], sortDedup [left, right]⟩) :
      JoinOf nodes (some left) (some right) (some root)
  | same (root : MacroContributorSetId) : JoinOf nodes (some root) (some root) (some root)
  | left (root : MacroContributorSetId) : JoinOf nodes (some root) none (some root)
  | right (root : MacroContributorSetId) : JoinOf nodes none (some root) (some root)
  | none : JoinOf nodes none none none

variable {nodes nodes' : List MacroContributorNode} {left right root : Option MacroContributorSetId}

theorem JoinOf.mono (h : JoinOf nodes left right root) (hkeep : nodes <+: nodes') :
    JoinOf nodes' left right root := by
  cases h with
  | both hat =>
    obtain ⟨added, rfl⟩ := hkeep
    refine .both ?_
    rw [getElem?_append_left (List.getElem?_eq_some_iff.mp hat).1]
    exact hat
  | same root => exact .same root
  | left root => exact .left root
  | right root => exact .right root
  | none => exact .none

theorem JoinOf.isSome_iff (h : JoinOf nodes left right root) :
    root.isSome = true ↔ left.isSome = true ∨ right.isSome = true := by
  cases h <;> simp

/-- A joined root reaches what the roots of the children reach. -/
theorem JoinOf.reaches_iff {dag : MacroContributorDag} (h : JoinOf dag.nodes left right root)
    (unit : SourceUnitId) : (∃ id, root = some id ∧ dag.Reaches id unit) ↔
      (∃ id, left = some id ∧ dag.Reaches id unit) ∨
        ∃ id, right = some id ∧ dag.Reaches id unit := by
  cases h with
  | both hat => simp [MacroContributorDag.reaches_union (.inr hat) unit]
  | same root => simp
  | left root => simp
  | right root => simp
  | none => simp

theorem joinRoots_ok (h : joinRoots hash builder left right = .ok (builder', root)) :
    builder.nodes <+: builder'.nodes ∧ JoinOf builder'.nodes left right root := by
  unfold joinRoots at h
  split at h
  · split at h
    · rename_i l r hne
      cases hintern : builder.intern hash [] [l, r] with
      | error e => rw [hintern] at h; cases h
      | ok interned =>
        rw [hintern] at h
        cases h
        exact ⟨MacroContributorDagBuilder.intern_extends hintern,
          .both (MacroContributorDagBuilder.intern_ok hintern).1⟩
    · rename_i heq
      cases h
      cases not_not.mp heq
      exact ⟨prefix_rfl, .same _⟩
  · cases h
    exact ⟨prefix_rfl, .left _⟩
  · cases h
    exact ⟨prefix_rfl, .right _⟩
  · cases h
    exact ⟨prefix_rfl, .none⟩

/-- The root is a node of the builder, if there is one. -/
def InBuilder (builder : MacroContributorDagBuilder) (root : Option MacroContributorSetId) : Prop :=
  ∀ id ∈ root, id.index < builder.nodes.length

/-- Roots that are nodes are joined, if there is room for one more node. -/
theorem joinRoots_total (h : MacroContributorDagBuilder.Consed hash builder)
    (hleft : InBuilder builder left) (hright : InBuilder builder right)
    (hroom : builder.nodes.length < u32Size) :
    ∃ builder' root, joinRoots hash builder left right = .ok (builder', root) ∧
      MacroContributorDagBuilder.Consed hash builder' ∧ InBuilder builder' root ∧
      builder'.nodes.length ≤ builder.nodes.length + 1 := by
  unfold joinRoots
  split
  · rename_i l r
    split
    · have hl := hleft l rfl
      have hr := hright r rfl
      rcases h.intern_cases ([], [l, r]) with ⟨id, hrun, hat⟩ | ⟨builder', hrun, hnodes, h'⟩ |
        ⟨-, ⟨parent, hparent, hle⟩ | ⟨hfull, -⟩⟩
      · refine ⟨builder, some id, by rw [hrun]; rfl, h, fun id' hid => ?_, Nat.le_succ _⟩
        cases hid
        exact (List.getElem?_eq_some_iff.mp hat).1
      · refine ⟨builder', _, by rw [hrun]; rfl, h', fun id' hid => ?_, ?_⟩
        · cases hid
          rw [hnodes, length_append]
          exact Nat.lt_succ_self _
        · rw [hnodes, length_append]
          exact le_rfl
      · have hparent : parent = l ∨ parent = r := by simpa using hparent
        rcases hparent with rfl | rfl
        · exact absurd hl (not_lt.mpr hle)
        · exact absurd hr (not_lt.mpr hle)
      · exact absurd hfull hroom.ne
    · exact ⟨builder, _, rfl, h, hleft, Nat.le_succ _⟩
  · exact ⟨builder, _, rfl, h, hleft, Nat.le_succ _⟩
  · exact ⟨builder, _, rfl, h, hright, Nat.le_succ _⟩
  · exact ⟨builder, _, rfl, h, hleft, Nat.le_succ _⟩

/-! ## The tree -/

/-- The leaves, and the inner nodes from a position on. -/
structure RootsFrom (nodes : List MacroContributorNode) (leafCount : Nat)
    (byOrdinal : List MacroContributorSetId) (m : Nat)
    (rangeNodes : List (Option MacroContributorSetId)) : Prop where
  length : rangeNodes.length = 2 * leafCount
  leaf : ∀ j < leafCount, rangeNodes[leafCount + j]?.join = byOrdinal[j]?
  inner : ∀ i, m ≤ i → i < leafCount → JoinOf nodes rangeNodes[i * 2]?.join
    rangeNodes[i * 2 + 1]?.join rangeNodes[i]?.join

variable {leafCount m : Nat} {byOrdinal : List MacroContributorSetId}
  {rangeNodes : List (Option MacroContributorSetId)} {roots : List MacroContributorSetId}

theorem leafNodes_roots (hle : byOrdinal.length ≤ leafCount) :
    RootsFrom nodes leafCount byOrdinal leafCount (leafNodes leafCount byOrdinal) where
  length := by
    simp only [leafNodes, length_append, length_replicate, length_map]
    omega
  leaf j hj := by
    rw [leafNodes, append_assoc, getElem?_append_right (by simp), length_replicate,
      Nat.add_sub_cancel_left]
    rcases lt_or_ge j byOrdinal.length with hlt | hge
    · rw [getElem?_append_left (by rwa [length_map]), getElem?_map, getElem?_eq_getElem hlt]
      rfl
    · rw [getElem?_append_right (by rwa [length_map]), getElem?_eq_none hge, getElem?_replicate]
      split <;> rfl
  inner i hi hlt := absurd hi (by omega)

/-- One inner node more. -/
theorem RootsFrom.store (h : RootsFrom nodes leafCount byOrdinal (m + 1) rangeNodes)
    (hpos : 0 < m) (hm : m < leafCount) (hkeep : nodes <+: nodes')
    (hroot : JoinOf nodes' rangeNodes[m * 2]?.join rangeNodes[m * 2 + 1]?.join root) :
    RootsFrom nodes' leafCount byOrdinal m (rangeNodes.set m root) := by
  have hset : ∀ {i : Nat}, i ≠ m → (rangeNodes.set m root)[i]? = rangeNodes[i]? := fun hi =>
    getElem?_set_ne hi.symm
  refine ⟨by rw [length_set, h.length], fun j hj => ?_, fun i hi hlt => ?_⟩
  · rw [hset (by omega : leafCount + j ≠ m)]
    exact h.leaf j hj
  · rw [hset (i := i * 2) (by omega), hset (i := i * 2 + 1) (by omega)]
    rcases hi.eq_or_lt with rfl | hi
    · rw [getElem?_set_self (by rw [h.length]; omega)]
      exact hroot
    · rw [hset hi.ne']
      exact (h.inner i hi hlt).mono hkeep

/-- All inner nodes from a position on. -/
theorem joinNodes_ok {state state' : MacroContributorDagBuilder × List (Option _)} {n : Nat}
    (hm : 0 < m) (hn : m + n = leafCount)
    (h : RootsFrom state.1.nodes leafCount byOrdinal leafCount state.2)
    (hrun : (List.range' m n).reverse.foldlM (joinNode hash) state = .ok state') :
    state.1.nodes <+: state'.1.nodes ∧ RootsFrom state'.1.nodes leafCount byOrdinal m state'.2 := by
  induction n generalizing m state' with
  | zero =>
    cases hrun
    rw [Nat.add_zero] at hn
    exact ⟨prefix_rfl, hn ▸ h⟩
  | succ n ih =>
    rw [range'_succ, reverse_cons, foldlM_append] at hrun
    obtain ⟨middle, hmiddle, hlast⟩ := bind_ok hrun
    obtain ⟨hkeep, hroots⟩ := ih (Nat.succ_pos m) (by omega) hmiddle
    rw [foldlM_cons] at hlast
    obtain ⟨last, hlast, hdone⟩ := bind_ok hlast
    cases hdone
    unfold joinNode at hlast
    cases hjoin : joinRoots hash middle.1 middle.2[m * 2]?.join middle.2[m * 2 + 1]?.join with
    | error e => rw [hjoin] at hlast; cases hlast
    | ok joined =>
      rw [hjoin] at hlast
      cases hlast
      obtain ⟨hkeep', hroot⟩ := joinRoots_ok hjoin
      exact ⟨hkeep.trans hkeep', hroots.store hm (by omega) hkeep' hroot⟩

/-- There is a tree if the roots are nodes and there is room for the joined ones. -/
theorem joinNodes_total {state : MacroContributorDagBuilder × List (Option _)} {n : Nat}
    (h : MacroContributorDagBuilder.Consed hash state.1)
    (hin : ∀ i : Nat, InBuilder state.1 state.2[i]?.join)
    (hroom : state.1.nodes.length + n ≤ u32Size) :
    ∃ state', (List.range' m n).reverse.foldlM (joinNode hash) state = .ok state' ∧
      MacroContributorDagBuilder.Consed hash state'.1 ∧
      (∀ i : Nat, InBuilder state'.1 state'.2[i]?.join) ∧
      state'.1.nodes.length ≤ state.1.nodes.length + n := by
  induction n generalizing m with
  | zero => exact ⟨state, rfl, h, hin, le_rfl⟩
  | succ n ih =>
    obtain ⟨middle, hmiddle, h', hin', hlength⟩ := ih (m := m + 1) (by omega)
    obtain ⟨builder', root, hjoin, hconsed, hroot, hlength'⟩ := joinRoots_total h' (hin' (m * 2))
      (hin' (m * 2 + 1)) (by omega)
    have hlast : joinNode hash middle m = .ok (builder', middle.2.set m root) := by
      rw [joinNode, hjoin]
      rfl
    refine ⟨(builder', middle.2.set m root), ?_, hconsed, fun i => ?_, hlength'.trans (by omega)⟩
    · rw [range'_succ, reverse_cons, foldlM_append, hmiddle]
      show (joinNode hash middle m >>= _) = _
      rw [hlast]
      rfl
    · have hkeep := (joinRoots_ok hjoin).1.length_le
      intro id hid
      dsimp only at hid ⊢
      by_cases hi : m = i
      · subst hi
        by_cases hlt : m < middle.2.length
        · rw [getElem?_set_self hlt] at hid
          exact hroot id hid
        · rw [getElem?_eq_none (by rw [length_set]; omega)] at hid
          cases hid
      · rw [getElem?_set_ne hi] at hid
        exact (hin' i id hid).trans_le hkeep

theorem new_ok {prepared : PreparedTokenContributors}
    (h : new hash byOrdinal builder = .ok (prepared, builder')) :
    prepared.byOrdinal = byOrdinal ∧ builder.nodes <+: builder'.nodes ∧
      ∃ k, prepared.leafCount = 2 ^ k ∧ byOrdinal.length ≤ 2 ^ k ∧
        RootsFrom builder'.nodes (2 ^ k) byOrdinal 1 prepared.rangeNodes := by
  obtain ⟨k, hk, hle⟩ := nextPowerOfTwo_spec byOrdinal.length
  unfold new at h
  dsimp only at h
  obtain ⟨-, h⟩ := guard_ok h
  obtain ⟨state, hstate, h⟩ := bind_ok h
  cases h
  rw [hk] at hstate
  have hpos := Nat.two_pow_pos k
  obtain ⟨hkeep, hroots⟩ := joinNodes_ok Nat.one_pos (by omega) (leafNodes_roots hle) hstate
  exact ⟨rfl, hkeep, k, hk, hle, hroots⟩

theorem new_total (h : MacroContributorDagBuilder.Consed hash builder)
    (hroots : ∀ root ∈ byOrdinal, root.index < builder.nodes.length)
    (hroom : builder.nodes.length + 2 * byOrdinal.length ≤ u32Size) :
    ∃ prepared builder', new hash byOrdinal builder = .ok (prepared, builder') := by
  have hle := nextPowerOfTwo_le byOrdinal.length
  have hin : ∀ i : Nat, InBuilder builder
      (leafNodes (nextPowerOfTwo byOrdinal.length) byOrdinal)[i]?.join := by
    intro i id hid
    have hmem : some id ∈ leafNodes (nextPowerOfTwo byOrdinal.length) byOrdinal :=
      mem_iff_getElem?.mpr ⟨i, Option.join_eq_some_iff.mp hid⟩
    simp only [leafNodes, mem_append, mem_map, mem_replicate] at hmem
    rcases hmem with (hmem | ⟨root, hroot, heq⟩) | hmem
    · cases hmem.2
    · cases heq
      exact hroots id hroot
    · cases hmem.2
  have hsize : ¬u64Size ≤ nextPowerOfTwo byOrdinal.length * 2 := by
    unfold u64Size u32Size
    unfold u32Size at hroom
    omega
  have hinner : builder.nodes.length + (nextPowerOfTwo byOrdinal.length - 1) ≤ u32Size := by
    have := h.size
    omega
  obtain ⟨state, hrun, -⟩ :
      ∃ state, (List.range' 1 (nextPowerOfTwo byOrdinal.length - 1)).reverse.foldlM (joinNode hash)
        (builder, leafNodes (nextPowerOfTwo byOrdinal.length) byOrdinal) = .ok state ∧ _ :=
    joinNodes_total h hin hinner
  refine ⟨⟨byOrdinal, nextPowerOfTwo byOrdinal.length, state.2⟩, state.1, ?_⟩
  unfold new
  dsimp only
  rw [if_neg hsize, hrun]
  rfl

/-! ## Ranges -/

theorem RootsFrom.carries_reaches {dag : MacroContributorDag} {k : Nat}
    (h : RootsFrom nodes (2 ^ k) byOrdinal 1 rangeNodes) (hkeep : nodes <+: dag.nodes) :
    Carries k (fun j unit => ∃ root, byOrdinal[j]? = some root ∧ dag.Reaches root unit)
      (fun i unit => ∃ root, rangeNodes[i]?.join = some root ∧ dag.Reaches root unit) where
  leaf j hj unit := by rw [h.leaf j hj]
  inner i hpos hlt unit := by
    rw [((h.inner i hpos hlt).mono hkeep).reaches_iff, Nat.mul_comm]

theorem RootsFrom.carries_isSome {k : Nat} (h : RootsFrom nodes (2 ^ k) byOrdinal 1 rangeNodes) :
    Carries k (fun j (_ : Unit) => byOrdinal[j]?.isSome = true)
      (fun i _ => rangeNodes[i]?.join.isSome = true) where
  leaf j hj _ := by rw [h.leaf j hj]
  inner i hpos hlt _ := by rw [(h.inner i hpos hlt).isSome_iff, Nat.mul_comm]

theorem pushRoot_eq {i : Nat} (h : rangeNodes[i]?.join.isSome = true) :
    pushRoot rangeNodes roots i =
      .ok (roots ++ [i].filterMap fun i => rangeNodes[i]?.join) := by
  obtain ⟨root, hroot⟩ := Option.isSome_iff_exists.mp h
  rw [pushRoot, hroot, filterMap_cons, hroot]
  rfl

theorem takeStart_eq {start : Nat}
    (h : ∀ i ∈ if start % 2 = 1 then [start] else [], rangeNodes[i]?.join.isSome = true) :
    ∃ start', start' / 2 = (start + 1) / 2 ∧ takeStart rangeNodes start roots =
      .ok (start', roots ++ (if start % 2 = 1 then [start] else []).filterMap
        fun i => rangeNodes[i]?.join) := by
  unfold takeStart
  split
  · rename_i hodd
    rw [if_pos hodd] at h
    rw [pushRoot_eq (h start (by simp))]
    exact ⟨start + 1, rfl, rfl⟩
  · refine ⟨start, by omega, ?_⟩
    rw [filterMap_nil, append_nil]

theorem takeStop_eq {stop : Nat}
    (h : ∀ i ∈ if stop % 2 = 1 then [stop - 1] else [], rangeNodes[i]?.join.isSome = true) :
    ∃ stop', stop' / 2 = stop / 2 ∧ takeStop rangeNodes stop roots =
      .ok (stop', roots ++ (if stop % 2 = 1 then [stop - 1] else []).filterMap
        fun i => rangeNodes[i]?.join) := by
  unfold takeStop
  split
  · rename_i hodd
    rw [if_pos hodd] at h
    rw [pushRoot_eq (h (stop - 1) (by simp))]
    exact ⟨stop - 1, by omega, rfl⟩
  · refine ⟨stop, rfl, ?_⟩
    rw [filterMap_nil, append_nil]

/-- The loop lists the roots of the nodes that cover the range, if all of them have one. -/
theorem rootsLoop_eq {fuel : Nat} (start stop : Nat) (roots : List MacroContributorSetId)
    (h : ∀ i ∈ coverNodes fuel start stop, rangeNodes[i]?.join.isSome = true) :
    rootsLoop rangeNodes fuel start stop roots =
      .ok (roots ++ (coverNodes fuel start stop).filterMap fun i => rangeNodes[i]?.join) := by
  induction fuel generalizing start stop roots with
  | zero => simp [rootsLoop, coverNodes]
  | succ fuel ih =>
    rw [rootsLoop]
    rw [coverNodes] at h ⊢
    split
    · rename_i hlt
      rw [if_pos hlt, forall_mem_append, forall_mem_append] at h
      obtain ⟨⟨hfirst, hlast⟩, hrest⟩ := h
      obtain ⟨start', hstart', hfirst⟩ := takeStart_eq hfirst
      rw [hfirst]
      show (takeStop rangeNodes stop _ >>= _) = _
      obtain ⟨stop', hstop', hlast⟩ := takeStop_eq hlast
      rw [hlast]
      show rootsLoop rangeNodes fuel (start' / 2) (stop' / 2) _ = _
      rw [hstart', hstop', ih _ _ _ hrest, filterMap_append, filterMap_append,
        ← append_assoc, ← append_assoc]
    · rw [filterMap_nil, append_nil]

/-- The few roots of a range reach what the roots of its tokens reach. -/
theorem rootsForRange_ok {prepared : PreparedTokenContributors}
    (h : new hash byOrdinal builder = .ok (prepared, builder')) {range : MacroOutputRange}
    (hrange : range.start < range.stop) (hstop : range.stop ≤ byOrdinal.length) :
    ∃ roots, prepared.rootsForRange range = .ok roots ∧
      ∀ dag : MacroContributorDag, builder'.nodes <+: dag.nodes → ∀ unit,
        (∃ root ∈ roots, dag.Reaches root unit) ↔
          ∃ j root, range.start ≤ j ∧ j < range.stop ∧ byOrdinal[j]? = some root ∧
            dag.Reaches root unit := by
  obtain ⟨hordinal, -, k, hk, hle, htree⟩ := new_ok h
  have hstop' := hstop.trans hle
  have hsome := htree.carries_isSome.forall_cover range.start (range.stop + 2 ^ k)
    hstop' (x := ()) fun j _ hj => by
      rw [getElem?_eq_getElem (hj.trans_le hstop)]
      rfl
  have hloop := rootsLoop_eq _ _ [] hsome
  rw [nil_append] at hloop
  have hmem : ∀ root, root ∈ (coverNodes (range.stop + 2 ^ k) (range.start + 2 ^ k)
      (range.stop + 2 ^ k)).filterMap (fun i => prepared.rangeNodes[i]?.join) ↔
      ∃ i ∈ coverNodes (range.stop + 2 ^ k) (range.start + 2 ^ k) (range.stop + 2 ^ k),
        prepared.rangeNodes[i]?.join = some root := fun _ => mem_filterMap
  generalize (coverNodes (range.stop + 2 ^ k) (range.start + 2 ^ k)
    (range.stop + 2 ^ k)).filterMap (fun i => prepared.rangeNodes[i]?.join) = roots at hloop hmem
  have hne : roots ≠ [] := by
    obtain ⟨i, hi, -⟩ := (htree.carries_isSome.cover_iff _ hstop' le_rfl ()).mpr
      ⟨range.start, le_rfl, hrange, by
        rw [getElem?_eq_getElem (hrange.trans_le hstop)]
        rfl⟩
    obtain ⟨root, hroot⟩ := Option.isSome_iff_exists.mp (hsome i hi)
    exact ne_nil_of_mem ((hmem root).mpr ⟨i, hi, hroot⟩)
  refine ⟨sortDedup roots, ?_, fun dag hdag unit => ?_⟩
  · unfold rootsForRange
    rw [if_neg (by rw [hordinal]; omega), hk, hloop]
    exact if_neg hne
  · have hcover := (htree.carries_reaches hdag).cover_iff range.start hstop' le_rfl unit
    constructor
    · rintro ⟨root, hroot, hreach⟩
      obtain ⟨i, hi, hat⟩ := (hmem root).mp (mem_sortDedup.mp hroot)
      obtain ⟨j, hj, hj', root', hroot', hreach'⟩ := hcover.mp ⟨i, hi, root, hat, hreach⟩
      exact ⟨j, root', hj, hj', hroot', hreach'⟩
    · rintro ⟨j, root, hj, hj', hroot, hreach⟩
      obtain ⟨i, hi, root', hat, hreach'⟩ := hcover.mpr ⟨j, hj, hj', root, hroot, hreach⟩
      exact ⟨root', mem_sortDedup.mpr ((hmem root').mpr ⟨i, hi, hat⟩), hreach'⟩

end PreparedTokenContributors

end Runs

/-- Interning gives equal sets one number, keeps what is there and numbers the nodes without gaps,
parents first, for every hash function and every sequence of calls; it fails only for a parent that
is not known or a new node too many.  And whatever the number of
tokens, the roots of a range reach just what the roots of its tokens reach. -/
theorem contributors_consed (hash : MacroContributorNode → Nat) :
    (∀ calls, ∀ run, run = MacroContributorDagBuilder.empty.internCalls hash calls →
      (∀ k, k < run.1.nodes.length ↔ .ok ⟨k⟩ ∈ run.2) ∧
      (∀ (k : Nat) node, run.1.nodes[k]? = some node → ∀ parent ∈ node.parents, parent.index < k) ∧
      (∀ (i j : Nat) call call' id id', calls[i]? = some call → calls[j]? = some call' →
        run.2[i]? = some (.ok id) → run.2[j]? = some (.ok id') →
        (id = id' ↔ call.1.toFinset = call'.1.toFinset ∧ call.2.toFinset = call'.2.toFinset)) ∧
      (∀ call, (∃ id, (run.1.internCall hash call).2 = .ok id) ↔
        (∀ parent ∈ call.2, parent.index < run.1.nodes.length) ∧
          (⟨sortDedup call.1, sortDedup call.2⟩ ∈ run.1.nodes ∨ run.1.nodes.length < u32Size)) ∧
      ∀ calls', run.1.nodes <+:
        (MacroContributorDagBuilder.empty.internCalls hash (calls ++ calls')).1.nodes) ∧
    (∀ byOrdinal builder prepared builder',
      PreparedTokenContributors.new hash byOrdinal builder = .ok (prepared, builder') →
      ∀ range : MacroOutputRange, range.start < range.stop → range.stop ≤ byOrdinal.length →
      ∃ roots, prepared.rootsForRange range = .ok roots ∧
        ∀ dag : MacroContributorDag, builder'.nodes <+: dag.nodes → ∀ unit,
          (∃ root ∈ roots, dag.Reaches root unit) ↔
            ∃ j root, range.start ≤ j ∧ j < range.stop ∧ byOrdinal[j]? = some root ∧
              dag.Reaches root unit) ∧
    ∀ calls byOrdinal, ∀ builder,
      builder = (MacroContributorDagBuilder.empty.internCalls hash calls).1 →
      (∀ root ∈ byOrdinal, root.index < builder.nodes.length) →
      builder.nodes.length + 2 * byOrdinal.length ≤ u32Size →
      ∃ prepared builder', PreparedTokenContributors.new hash byOrdinal builder =
        .ok (prepared, builder') := by
  refine ⟨?_, fun _ _ _ _ h range => PreparedTokenContributors.rootsForRange_ok h, ?_⟩
  · rintro calls run rfl
    obtain ⟨hconsed, -, hat, hdense⟩ :=
      MacroContributorDagBuilder.consed_empty.internCalls calls
    refine ⟨fun k => ⟨fun hk => (hdense k hk).resolve_left (Nat.not_lt_zero k), fun hk => ?_⟩,
      hconsed.parents, fun i j call call' id id' hi hj hid hid' => ?_,
      hconsed.internCall_isOk_iff, fun calls' => ?_⟩
    · obtain ⟨i, hi⟩ := mem_iff_getElem?.mp hk
      have hlt := (List.getElem?_eq_some_iff.mp hi).1
      rw [MacroContributorDagBuilder.length_internCalls] at hlt
      obtain ⟨call, hcall⟩ : ∃ call, calls[i]? = some call := ⟨_, getElem?_eq_getElem hlt⟩
      exact (List.getElem?_eq_some_iff.mp (hat i call ⟨k⟩ hcall hi)).1
    · have hnode := hat i call id hi hid
      have hnode' := hat j call' id' hj hid'
      rw [← MacroContributorDagBuilder.nodeOf_eq_iff]
      constructor
      · rintro rfl
        exact Option.some.inj (hnode.symm.trans hnode')
      · intro heq
        have hindex : id.index = id'.index :=
          (getElem?_inj (List.getElem?_eq_some_iff.mp hnode).1 hconsed.unique).mp
            (by rw [hnode, hnode', heq])
        cases id
        cases id'
        cases hindex
        rfl
    · rw [MacroContributorDagBuilder.internCalls_append]
      exact (hconsed.internCalls calls').2.1
  · rintro calls byOrdinal builder rfl hroots hroom
    exact PreparedTokenContributors.new_total
      (MacroContributorDagBuilder.consed_empty.internCalls calls).1 hroots hroom

/-- Two roots, the second one twice, and their union; three tokens have the first and the second. -/
theorem contributors_consed_three : ∃ run prepared builder' roots,
    MacroContributorDagBuilder.empty.internCalls (fun _ => 0)
      [([⟨0⟩], []), ([⟨1⟩], []), ([⟨1⟩, ⟨1⟩], []), ([], [⟨1⟩, ⟨0⟩])] = run ∧
    run.2 = [.ok ⟨0⟩, .ok ⟨1⟩, .ok ⟨1⟩, .ok ⟨2⟩] ∧
    ([(⟨1⟩ : SourceUnitId)].toFinset = [⟨1⟩, ⟨1⟩].toFinset ∧
      ([] : List MacroContributorSetId).toFinset = [].toFinset) ∧
    PreparedTokenContributors.new (fun _ => 0) [⟨0⟩, ⟨1⟩, ⟨0⟩] run.1 = .ok (prepared, builder') ∧
    prepared.rootsForRange ⟨1, 3⟩ = .ok roots ∧
    ∀ dag : MacroContributorDag, builder'.nodes <+: dag.nodes → ∀ unit,
      (∃ root ∈ roots, dag.Reaches root unit) ↔ ∃ j root, 1 ≤ j ∧ j < 3 ∧
        [(⟨0⟩ : MacroContributorSetId), ⟨1⟩, ⟨0⟩][j]? = some root ∧ dag.Reaches root unit := by
  obtain ⟨hcalls, hranges, htotal⟩ := contributors_consed fun _ => 0
  obtain ⟨-, -, hequal, -⟩ :=
    hcalls [([⟨0⟩], []), ([⟨1⟩], []), ([⟨1⟩, ⟨1⟩], []), ([], [⟨1⟩, ⟨0⟩])] _ rfl
  obtain ⟨prepared, builder', hnew⟩ :=
    htotal [([⟨0⟩], []), ([⟨1⟩], []), ([⟨1⟩, ⟨1⟩], []), ([], [⟨1⟩, ⟨0⟩])] [⟨0⟩, ⟨1⟩, ⟨0⟩] _ rfl
      (by decide) (by decide)
  obtain ⟨roots, hroots, hreaches⟩ := hranges _ _ _ _ hnew ⟨1, 3⟩ (by decide) (by decide)
  exact ⟨_, prepared, builder', roots, rfl,
    by decide, (hequal 1 2 _ _ ⟨1⟩ ⟨1⟩ rfl rfl rfl rfl).mp rfl,
    hnew, hroots, hreaches⟩

end ItemDependencies
