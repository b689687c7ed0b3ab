import ItemDependencies.Expansion.SourceAncestry
import ItemDependencies.Library.Placing

/-!
# The walk through the forest of source units

The walk takes the units in preorder.  It reaches every unit if and only if the parents of each unit
end at a root.
-/

namespace ItemDependencies

open Library List

variable {parents : List (Option SourceUnitId)}

theorem unitId_ok {index : Nat} {unit : SourceUnitId} (h : unitId index = .ok unit) :
    index < u32Size ∧ unit = ⟨index⟩ := by
  unfold unitId at h
  split at h
  · cases h
    exact ⟨by assumption, rfl⟩
  · cases h

theorem unitId_of_lt {index : Nat} (h : index < u32Size) : unitId index = .ok ⟨index⟩ := if_pos h

/-! ## The forest -/

theorem parentPosition_eq_some {index parent : Nat} :
    parentPosition parents index = some parent ↔ parents[index]? = some (some ⟨parent⟩) := by
  rw [parentPosition, Option.map_eq_some_iff]
  constructor
  · rintro ⟨unit, hunit, rfl⟩
    exact Option.join_eq_some_iff.mp hunit
  · exact fun h => ⟨⟨parent⟩, Option.join_eq_some_iff.mpr h, rfl⟩

theorem lt_of_parentPosition {index parent : Nat} (h : parentPosition parents index = some parent) :
    index < parents.length :=
  (List.getElem?_eq_some_iff.mp (parentPosition_eq_some.mp h)).1

theorem mem_unitChildren {index child : Nat} :
    child ∈ unitChildren parents index ↔ parentPosition parents child = some index := by
  rw [unitChildren, mem_filter, mem_range, decide_eq_true_eq]
  exact and_iff_right_of_imp lt_of_parentPosition

theorem mem_forestRoots {unit : Nat} :
    unit ∈ forestRoots parents ↔ unit < parents.length ∧ parentPosition parents unit = none := by
  rw [forestRoots, mem_filter, mem_range, decide_eq_true_eq]

theorem child_iff_up {a b : Nat} :
    Child (unitChildren parents) a b ↔ Up (parentPosition parents) b a := mem_unitChildren

theorem reach_iff_below {a b : Nat} :
    Relation.ReflTransGen (Child (unitChildren parents)) a b ↔
      Below (parentPosition parents) b a := by
  rw [← Relation.reflTransGen_swap]
  have hswap : Function.swap (Child (unitChildren parents)) = Up (parentPosition parents) := by
    funext a b
    exact propext child_iff_up
  rw [hswap]

theorem trans_child_iff_up {a b : Nat} :
    Relation.TransGen (Child (unitChildren parents)) a b ↔
      Relation.TransGen (Up (parentPosition parents)) b a := by
  rw [← Relation.transGen_swap]
  have hswap : Function.swap (Child (unitChildren parents)) = Up (parentPosition parents) := by
    funext a b
    exact propext child_iff_up
  rw [hswap]

/-- Every parent is a unit of the list. -/
def ParentsKnown (parents : List (Option SourceUnitId)) : Prop :=
  ∀ parent, some parent ∈ parents → parent.index < parents.length

theorem ParentsKnown.lt (h : ParentsKnown parents) {index parent : Nat}
    (hparent : parentPosition parents index = some parent) : parent < parents.length :=
  h ⟨parent⟩ (mem_of_getElem? (parentPosition_eq_some.mp hparent))

theorem ParentsKnown.below_lt (h : ParentsKnown parents) {a b : Nat} (ha : a < parents.length)
    (hab : Below (parentPosition parents) a b) : b < parents.length := by
  cases hab with
  | refl => exact ha
  | tail _ hup => exact h.lt hup

theorem validParents_iff : validParents parents = true ↔
    ParentsKnown parents ∧ ∀ index, parentPosition parents index ≠ some index := by
  rw [validParents, all_eq_true]
  constructor
  · intro h
    have hvalid : ∀ {index parent : Nat}, parents[index]? = some (some ⟨parent⟩) →
        parent < parents.length ∧ parent ≠ index := by
      intro index parent hget
      simpa using h (some ⟨parent⟩, index) (mem_zipIdx_iff_getElem?.mpr hget)
    constructor
    · rintro ⟨parent⟩ hmem
      obtain ⟨index, hget⟩ := getElem?_of_mem hmem
      exact (hvalid hget).1
    · exact fun index hself => (hvalid (parentPosition_eq_some.mp hself)).2 rfl
  · rintro ⟨hknown, hself⟩ ⟨parent, index⟩ hmem
    have hget := mem_zipIdx_iff_getElem?.mp hmem
    cases parent with
    | none => rfl
    | some parent =>
      have hlt := hknown parent (mem_of_getElem? hget)
      have hne : parent.index ≠ index := by
        rintro rfl
        exact hself _ (parentPosition_eq_some.mpr hget)
      simp [hlt, hne]

/-- The trees of the children of a unit are apart. -/
theorem treesApart_unitChildren {index : Nat}
    (h : ¬Relation.TransGen (Up (parentPosition parents)) index index) :
    TreesApart (unitChildren parents) (unitChildren parents index) := by
  have hnodup : (unitChildren parents index).Nodup := nodup_range.filter _
  refine hnodup.imp_of_mem fun {b c} hb hc hne x hbx hcx => hne ?_
  exact siblings_disjoint h (mem_unitChildren.mp hb) (mem_unitChildren.mp hc)
    (reach_iff_below.mp hbx) (reach_iff_below.mp hcx)

theorem treesApart_forestRoots {roots : List Nat} (hsub : roots.Sublist (forestRoots parents)) :
    TreesApart (unitChildren parents) roots := by
  have hnodup : roots.Nodup := (nodup_range.filter _).sublist hsub
  refine hnodup.imp_of_mem fun {b c} hb hc hne x hbx hcx => hne ?_
  exact roots_disjoint (mem_forestRoots.mp (hsub.subset hb)).2
    (mem_forestRoots.mp (hsub.subset hc)).2 (reach_iff_below.mp hbx) (reach_iff_below.mp hcx)

/-- The tree below a root is finite, also when other units lie on cycles. -/
theorem exists_tree {unit : Nat}
    (hunit : Grounded (parentPosition parents) (Finset.range parents.length) unit) :
    ∃ below, Traversal (unitChildren parents) (unitChildren parents unit) below := by
  classical
  let nodes := (Finset.range parents.length).filter
    (Grounded (parentPosition parents) (Finset.range parents.length))
  have hmem : ∀ {i},
      i ∈ nodes ↔ Grounded (parentPosition parents) (Finset.range parents.length) i :=
    fun {i} => Finset.mem_filter.trans (and_iff_right_of_imp Grounded.mem)
  have hacyclic : ∀ i ∈ nodes, ¬Relation.TransGen (Up (parentPosition parents)) i i :=
    fun i hi => (hmem.mp hi).irrefl
  refine child_induction hacyclic
    (P := fun i => i ∈ nodes →
      ∃ below, Traversal (unitChildren parents) (unitChildren parents i) below)
    (fun a ih ha => exists_traversal fun c hc => ?_) unit (hmem.mpr hunit)
  have hparent := mem_unitChildren.mp hc
  have hc' : c ∈ nodes := hmem.mpr
    (.child (Finset.mem_range.mpr (lt_of_parentPosition hparent)) hparent (hmem.mp ha))
  exact ih c hc' hparent hc'

/-! ## One tree -/

/-- All lists are as long as the forest is large. -/
structure AncestryWalk.Sized (count : Nat) (walk : AncestryWalk) : Prop where
  depths : walk.depths.length = count
  roots : walk.roots.length = count
  entries : walk.entries.length = count
  exits : walk.exits.length = count

/-- The walk has taken some units in their order, and has not changed the others. -/
structure Entered (kids : Nat → List Nat) (isRoot : Nat → SourceUnitId → Prop) (out : List Nat)
    (s t : AncestryWalk) : Prop where
  nextEntry : t.nextEntry = s.nextEntry + out.length
  entries : ∀ k i : Nat, out[k]? = some i → t.entries[i]? = some (s.nextEntry + k)
  exits : ∀ (k i : Nat) below, out[k]? = some i → Traversal kids (kids i) below →
    t.exits[i]? = some (s.nextEntry + (k + 1 + below.length))
  roots : ∀ i ∈ out, ∃ root, t.roots[i]? = some root ∧ isRoot i root
  depths : ∀ i ∈ out, ∀ c ∈ kids i, t.depths[c]?.getD 0 = t.depths[i]?.getD 0 + 1
  same : ∀ i ∉ out, t.entries[i]? = s.entries[i]? ∧ t.exits[i]? = s.exits[i]? ∧
    t.roots[i]? = s.roots[i]?
  sameDepth : ∀ i, (∀ a ∈ out, i ∉ kids a) → t.depths[i]? = s.depths[i]?

variable {kids : Nat → List Nat} {isRoot : Nat → SourceUnitId → Prop} {level out out' : List Nat}
  {s t u : AncestryWalk} {count : Nat}

theorem Entered.refl : Entered kids isRoot [] s s := by
  constructor <;> simp

/-- Units of other trees. -/
theorem Entered.append (h : Entered kids isRoot out s t) (h' : Entered kids isRoot out' t u)
    (hdisjoint : ∀ i ∈ out, i ∉ out') (hclosed : ∀ a ∈ out', kids a ⊆ out')
    (hunique : ∀ a b c, c ∈ kids a → c ∈ kids b → a = b) :
    Entered kids isRoot (out ++ out') s u where
  nextEntry := by rw [h'.nextEntry, h.nextEntry, length_append, Nat.add_assoc]
  entries k i hk := by
    rcases lt_or_ge k out.length with hlt | hge
    · rw [getElem?_append_left hlt] at hk
      rw [(h'.same i (hdisjoint i (mem_of_getElem? hk))).1, h.entries k i hk]
    · rw [getElem?_append_right hge] at hk
      rw [h'.entries _ i hk, h.nextEntry]
      congr 1
      omega
  exits k i below hk hbelow := by
    rcases lt_or_ge k out.length with hlt | hge
    · rw [getElem?_append_left hlt] at hk
      rw [(h'.same i (hdisjoint i (mem_of_getElem? hk))).2.1, h.exits k i below hk hbelow]
    · rw [getElem?_append_right hge] at hk
      rw [h'.exits _ i below hk hbelow, h.nextEntry]
      congr 1
      omega
  roots i hi := by
    rcases mem_append.mp hi with hi | hi
    · rw [(h'.same i (hdisjoint i hi)).2.2]
      exact h.roots i hi
    · exact h'.roots i hi
  depths i hi c hc := by
    rcases mem_append.mp hi with hi | hi
    · have hchild : ∀ a ∈ out', c ∉ kids a := fun a ha hca =>
        hdisjoint i hi (hunique a i c hca hc ▸ ha)
      have hself : ∀ a ∈ out', i ∉ kids a := fun a ha hia => hdisjoint i hi (hclosed a ha hia)
      rw [h'.sameDepth c hchild, h'.sameDepth i hself]
      exact h.depths i hi c hc
    · exact h'.depths i hi c hc
  same i hi := by
    have hi' := fun hmem => hi (mem_append_left _ hmem)
    obtain ⟨hentry, hexit, hroot⟩ := h'.same i fun hmem => hi (mem_append_right _ hmem)
    obtain ⟨hentry', hexit', hroot'⟩ := h.same i hi'
    exact ⟨hentry.trans hentry', hexit.trans hexit', hroot.trans hroot'⟩
  sameDepth i hi := by
    rw [h'.sameDepth i fun a ha => hi a (mem_append_right _ ha),
      h.sameDepth i fun a ha => hi a (mem_append_left _ ha)]

section Tree

variable {root : SourceUnitId} {rest stack : List (Nat × Bool)} {below : List Nat} {a : Nat}

theorem AncestryWalk.Sized.enter (h : s.Sized count) : (s.enter kids root a rest).Sized count where
  depths := by
    rw [AncestryWalk.enter, length_foldl_set]
    exact h.depths
  roots := by
    rw [AncestryWalk.enter, length_set]
    exact h.roots
  entries := by
    rw [AncestryWalk.enter, length_set]
    exact h.entries
  exits := h.exits

/-- A unit is entered, then the trees of its children are taken, and then it is left. -/
theorem Entered.tree (hbelow : Traversal kids (kids a) below) (hsized : s.Sized count)
    (ha : a < count) (hkids : ∀ c ∈ kids a, c < count) (hroot : isRoot a root)
    (hunique : ∀ a b c, c ∈ kids a → c ∈ kids b → a = b)
    (h : Entered kids isRoot below (s.enter kids root a rest) t) (hsized' : t.Sized count) :
    Entered kids isRoot (a :: below) s
      { t with exits := t.exits.set a t.nextEntry, pending := stack } := by
  have hfresh : a ∉ below := hbelow.not_mem_own
  have hsub : kids a ⊆ below := hbelow.subset
  have hclosed : ∀ b ∈ below, kids b ⊆ below := fun b hb c hc =>
    hbelow.mem_iff.mpr (inTrees_of_child (hbelow.mem_iff.mp hb) hc)
  obtain ⟨hentry, hexit, hroots⟩ := h.same a hfresh
  have hself : t.depths[a]? = s.depths[a]? := by
    rw [h.sameDepth a fun b hb hab => hfresh (hclosed b hb hab), AncestryWalk.enter,
      getElem?_foldl_set_const, if_neg fun hmem => hfresh (hsub hmem.1)]
  have hfirst : (s.enter kids root a rest).nextEntry = s.nextEntry + 1 := rfl
  have hnext := h.nextEntry
  refine ⟨?_, fun k i hk => ?_, fun k i inner hk hinner => ?_, fun i hi => ?_, fun i hi c hc => ?_,
    fun i hi => ?_, fun i hi => ?_⟩
  · rw [length_cons]
    show t.nextEntry = _
    omega
  · cases k with
    | zero =>
      cases hk
      show t.entries[a]? = _
      rw [hentry, AncestryWalk.enter, getElem?_set_self (hsized.entries ▸ ha), Nat.add_zero]
    | succ k =>
      rw [getElem?_cons_succ] at hk
      show t.entries[i]? = _
      rw [h.entries k i hk, hfirst]
      congr 1
      omega
  · show (t.exits.set a t.nextEntry)[i]? = _
    cases k with
    | zero =>
      cases hk
      cases hbelow.unique hinner
      rw [getElem?_set_self (hsized'.exits ▸ ha)]
      congr 1
      omega
    | succ k =>
      rw [getElem?_cons_succ] at hk
      have hne : a ≠ i := fun heq => hfresh (heq ▸ mem_of_getElem? hk)
      rw [getElem?_set_ne hne, h.exits k i inner hk hinner, hfirst]
      congr 1
      omega
  · show ∃ found, t.roots[i]? = some found ∧ _
    rcases mem_cons.mp hi with rfl | hi
    · refine ⟨root, ?_, hroot⟩
      rw [hroots, AncestryWalk.enter, getElem?_set_self (hsized.roots ▸ ha)]
    · exact h.roots i hi
  · show t.depths[c]?.getD 0 = t.depths[i]?.getD 0 + 1
    rcases mem_cons.mp hi with rfl | hi
    · have hchild : ∀ b ∈ below, c ∉ kids b := fun b hb hcb =>
        hfresh (hunique b i c hcb hc ▸ hb)
      rw [h.sameDepth c hchild, hself, AncestryWalk.enter, getElem?_foldl_set_const,
        if_pos ⟨hc, hsized.depths ▸ hkids c hc⟩]
      rfl
    · exact h.depths i hi c hc
  · rw [mem_cons, not_or] at hi
    have hne : a ≠ i := fun heq => hi.1 heq.symm
    obtain ⟨hentry', hexit', hroot'⟩ := h.same i hi.2
    exact ⟨hentry'.trans (getElem?_set_ne hne), (getElem?_set_ne hne).trans hexit',
      hroot'.trans (getElem?_set_ne hne)⟩
  · show t.depths[i]? = _
    rw [h.sameDepth i fun b hb => hi b (mem_cons_of_mem _ hb), AncestryWalk.enter,
      getElem?_foldl_set_const, if_neg fun hmem => hi a mem_cons_self hmem.1]

/-- The rounds of the walk. -/
abbrev WalkRounds (kids : Nat → List Nat) (root : SourceUnitId) :
    Nat → AncestryWalk → AncestryWalk → Prop :=
  Rounds (fun walk => !walk.pending.isEmpty) (AncestryWalk.step kids root)

/-- The walk takes the trees of the pending units one after the other. -/
theorem walk_level (rest : List (Nat × Bool)) (h : Traversal kids level out) (hout : out.Nodup)
    (hlt : ∀ i ∈ out, i < count) (hroot : ∀ i ∈ out, isRoot i root)
    (hunique : ∀ a b c, c ∈ kids a → c ∈ kids b → a = b) {s : AncestryWalk}
    (hsized : s.Sized count) (hpending : s.pending = level.map (·, false) ++ rest)
    (hunset : ∀ i ∈ out, s.entries[i]? = some unsetEntry) :
    ∃ t, WalkRounds kids root (2 * out.length) s t ∧ t.pending = rest ∧ t.Sized count ∧
      Entered kids isRoot out s t := by
  induction h generalizing rest s with
  | nil => exact ⟨s, Rounds.refl, hpending, hsized, .refl⟩
  | @cons a level below after hbelow hafter ihbelow ihafter =>
    have hmem : ∀ i ∈ below, i ∈ a :: (below ++ after) := fun i hi =>
      mem_cons_of_mem _ (mem_append_left _ hi)
    have hmem' : ∀ i ∈ after, i ∈ a :: (below ++ after) := fun i hi =>
      mem_cons_of_mem _ (mem_append_right _ hi)
    obtain ⟨hfresh, hrest⟩ := nodup_cons.mp hout
    obtain ⟨hnodup, hnodup', hdisjoint⟩ := nodup_append.mp hrest
    have ha : a < count := hlt a mem_cons_self
    -- the unit is entered
    set first := s.enter kids root a (level.map (·, false) ++ rest) with hfirst
    have henter : s.step kids root = .ok first := by
      rw [AncestryWalk.step, hpending, map_cons, cons_append]
      exact if_neg (not_not.mpr (hunset a mem_cons_self))
    have hunset' : ∀ i ∈ below, first.entries[i]? = some unsetEntry := fun i hi => by
      have hne : a ≠ i := fun heq => hfresh (heq ▸ mem_append_left _ hi)
      exact (getElem?_set_ne hne).trans (hunset i (hmem i hi))
    have hfirstSized : first.Sized count := hsized.enter
    -- the trees of its children are taken
    obtain ⟨t, hrun, htpending, htsized, ht⟩ :=
      ihbelow ((a, true) :: (level.map (·, false) ++ rest)) hnodup (fun i hi => hlt i (hmem i hi))
        (fun i hi => hroot i (hmem i hi)) hfirstSized rfl hunset'
    -- and it is left
    set last : AncestryWalk := { t with
      exits := t.exits.set a t.nextEntry, pending := level.map (·, false) ++ rest } with hlast
    have hleave : t.step kids root = .ok last := by
      rw [AncestryWalk.step, htpending]
    have hlastSized : last.Sized count :=
      ⟨htsized.depths, htsized.roots, htsized.entries, by
        rw [hlast, length_set]
        exact htsized.exits⟩
    have htree : Entered kids isRoot (a :: below) s last :=
      .tree hbelow hsized ha (fun c hc => hlt c (hmem c (hbelow.subset hc)))
        (hroot a mem_cons_self) hunique ht htsized
    have hapart : ∀ i ∈ a :: below, i ∉ after := by
      intro i hi hi'
      rcases mem_cons.mp hi with rfl | hi
      · exact hfresh (mem_append_right _ hi')
      · exact hdisjoint i hi i hi' rfl
    have hunset'' : ∀ i ∈ after, last.entries[i]? = some unsetEntry := fun i hi =>
      (htree.same i fun hi' => hapart i hi' hi).1.trans (hunset i (hmem' i hi))
    obtain ⟨u, hrun', hupending, husized, hu⟩ := ihafter rest hnodup'
      (fun i hi => hlt i (hmem' i hi)) (fun i hi => hroot i (hmem' i hi)) hlastSized rfl hunset''
    have hclosed : ∀ b ∈ after, kids b ⊆ after := fun b hb c hc =>
      hafter.mem_iff.mpr (inTrees_of_child (hafter.mem_iff.mp hb) hc)
    have hround : WalkRounds kids root 1 s first := by
      apply Rounds.single _ henter
      rw [hpending]
      rfl
    have hround' : WalkRounds kids root 1 t last := by
      apply Rounds.single _ hleave
      rw [htpending]
      rfl
    refine ⟨u, ?_, hupending, husized, htree.append hu hapart hclosed hunique⟩
    have hlength : 2 * (a :: (below ++ after)).length =
        1 + 2 * below.length + (1 + 2 * after.length) := by
      rw [length_cons, length_append]
      omega
    rw [hlength]
    exact (hround.trans hrun).trans (hround'.trans hrun')

end Tree

/-! ## The whole walk -/

/-- The root of the tree that a unit belongs to. -/
def IsRoot (parents : List (Option SourceUnitId)) (unit : Nat) (root : SourceUnitId) : Prop :=
  parentPosition parents root.index = none ∧ Below (parentPosition parents) unit root.index

/-- The walk has taken the trees of some roots. -/
structure WalkedRoots (parents : List (Option SourceUnitId)) (roots out : List Nat)
    (walk : AncestryWalk) : Prop where
  traversal : Traversal (unitChildren parents) roots out
  nodup : out.Nodup
  lt : ∀ i ∈ out, i < parents.length
  sized : walk.Sized parents.length
  entered : Entered (unitChildren parents) (IsRoot parents) out (.start parents.length) walk

theorem walkTrees_total (hcount : parents.length ≤ u32Size) :
    ∃ walk out, (forestRoots parents).foldlM (walkTree parents) (.start parents.length) =
      .ok walk ∧ WalkedRoots parents (forestRoots parents) out walk := by
  have key := foldlM_total (f := walkTree parents) (l := forestRoots parents)
    (s := .start parents.length) (P := fun roots walk => ∃ out, WalkedRoots parents roots out walk)
    (fun roots root rest s hsplit => ?_) ⟨[], ?_⟩
  · obtain ⟨walk, hrun, out, hout⟩ := key
    exact ⟨walk, out, hrun, hout⟩
  · rintro ⟨out, h⟩
    obtain ⟨hlt, hroot⟩ := mem_forestRoots.mp (show root ∈ forestRoots parents by simp [hsplit])
    obtain ⟨below, hbelow⟩ := exists_tree (.root (Finset.mem_range.mpr hlt) hroot)
    have htree : Traversal (unitChildren parents) [root] (root :: below) := by
      have htree := Traversal.cons hbelow (.nil : Traversal (unitChildren parents) [] [])
      rwa [append_nil] at htree
    have htraversal := h.traversal.append htree
    have hrootOf : ∀ i ∈ root :: below, IsRoot parents i ⟨root⟩ := by
      intro i hi
      obtain ⟨top, htop, hreach⟩ := htree.mem_iff.mp hi
      cases mem_singleton.mp htop
      exact ⟨hroot, reach_iff_below.mp hreach⟩
    have hrange : ∀ i ∈ root :: below, i < parents.length := by
      intro i hi
      rcases Relation.ReflTransGen.cases_head (hrootOf i hi).2 with heq | ⟨p, hup, -⟩
      · exact heq ▸ hlt
      · exact lt_of_parentPosition hup
    have hnodup : (out ++ root :: below).Nodup := by
      refine htraversal.nodup_of_apart (fun a ha => treesApart_unitChildren ?_)
        (treesApart_forestRoots (hsplit ▸ ?_))
      · rw [← trans_child_iff_up]
        exact htraversal.irrefl ha
      · exact ((nil_sublist rest).cons_cons root).append_left roots
    obtain ⟨-, hnodup', hdisjoint⟩ := nodup_append.mp hnodup
    have hapart : ∀ i ∈ out, i ∉ root :: below := fun i hi hi' => hdisjoint i hi i hi' rfl
    have hunique : ∀ a b c : Nat, c ∈ unitChildren parents a → c ∈ unitChildren parents b →
        a = b := fun a b c ha hb =>
      Option.some.inj ((mem_unitChildren.mp ha).symm.trans (mem_unitChildren.mp hb))
    have hunset : ∀ i ∈ root :: below, s.entries[i]? = some unsetEntry := fun i hi => by
      rw [(h.entered.same i fun hi' => hapart i hi' hi).1]
      exact getElem?_replicate_of_lt (hrange i hi)
    obtain ⟨t, hrun, hpending, hsized, hentered⟩ := walk_level [] htree hnodup' hrange hrootOf
      hunique (s := { s with pending := [(root, false)] })
      ⟨h.sized.depths, h.sized.roots, h.sized.entries, h.sized.exits⟩ rfl hunset
    have hlength : 2 * (root :: below).length ≤ 2 * parents.length := by
      have hsub : (root :: below).Subperm (List.range parents.length) :=
        hnodup'.subperm fun i hi => mem_range.mpr (hrange i hi)
      have hle := hsub.length_le
      rw [length_range] at hle
      omega
    refine ⟨t, ?_, out ++ root :: below, htraversal, hnodup, fun i hi => ?_, hsized, ?_⟩
    · rw [walkTree, unitId_of_lt (hlt.trans_le hcount)]
      exact hrun.run (by rw [hpending]; rfl) hlength
    · exact (mem_append.mp hi).elim (h.lt i) (hrange i)
    · have hclosed : ∀ a ∈ root :: below, unitChildren parents a ⊆ root :: below :=
        fun a ha c hc => htree.mem_iff.mpr (inTrees_of_child (htree.mem_iff.mp ha) hc)
      exact h.entered.append (t := s) ⟨hentered.nextEntry, hentered.entries, hentered.exits,
        hentered.roots, hentered.depths, hentered.same, hentered.sameDepth⟩ hapart hclosed hunique
  · exact ⟨.nil, .nil, by simp, ⟨length_replicate, length_replicate,
      length_replicate, length_replicate⟩, .refl⟩

/-- The walk reaches the units from which a root is reached. -/
theorem WalkedRoots.mem_iff {walk : AncestryWalk} (hknown : ParentsKnown parents)
    (h : WalkedRoots parents (forestRoots parents) out walk) {i : Nat} :
    i ∈ out ↔ i < parents.length ∧ ∃ root, IsRoot parents i root := by
  rw [h.traversal.mem_iff]
  constructor
  · intro hi
    obtain ⟨root, hroot, hreach⟩ := hi
    refine ⟨h.lt i (h.traversal.mem_iff.mpr ⟨root, hroot, hreach⟩), ⟨root⟩, ?_⟩
    exact ⟨(mem_forestRoots.mp hroot).2, reach_iff_below.mp hreach⟩
  · rintro ⟨hlt, root, hroot, hbelow⟩
    exact ⟨root.index, mem_forestRoots.mpr ⟨hknown.below_lt hlt hbelow, hroot⟩,
      reach_iff_below.mpr hbelow⟩

end ItemDependencies
