import ItemDependencies.Library.Ascending
import Mathlib.Data.Prod.Lex

/-!
# Ranks of unordered trees

The nodes of a forest are ranked level by level: by their labels, and nodes with equal labels by the
sorted ranks of their children.  Ranks are small numbers that depend on all trees of the forest, but
which of two trees comes first depends on these two trees only.
-/

namespace ItemDependencies.Library

open List

universe u v w

/-! ## Sorted lists of values that agree -/

section Agree

variable {π : Type u} {α : Type v} {β : Type w} [LinearOrder α] [LinearOrder β]
  {f : π → α} {g : π → β} {l l' : List π}

/-- Two values order the elements of a list in the same way. -/
def Agree (f : π → α) (g : π → β) (l : List π) : Prop :=
  ∀ x ∈ l, ∀ y ∈ l, f x < f y ↔ g x < g y

theorem Agree.le_iff (h : Agree f g l) {x y : π} (hx : x ∈ l) (hy : y ∈ l) :
    f x ≤ f y ↔ g x ≤ g y := by
  rw [← not_lt, ← not_lt, h y hy x hx]

theorem Agree.eq_iff (h : Agree f g l) {x y : π} (hx : x ∈ l) (hy : y ∈ l) :
    f x = f y ↔ g x = g y := by
  rw [le_antisymm_iff, le_antisymm_iff, h.le_iff hx hy, h.le_iff hy hx]

theorem Agree.mono (h : Agree f g l) (hsub : l' ⊆ l) : Agree f g l' := fun x hx y hy =>
  h x (hsub hx) y (hsub hy)

/-- One order of the elements sorts both values. -/
theorem Agree.exists_sorted (h : Agree f g l) : ∃ m : List π, m.Perm l ∧
    (l.map f).insertionSort (· ≤ ·) = m.map f ∧ (l.map g).insertionSort (· ≤ ·) = m.map g := by
  have hperm := l.perm_insertionSort fun x y => f x ≤ f y
  have hsorted := pairwise_insertionSort_key f l
  refine ⟨_, hperm, ?_, ?_⟩
  · refine (((l.map f).perm_insertionSort _).trans (hperm.map f).symm).eq_of_pairwise'
      (pairwise_insertionSort _ _) (pairwise_map.mpr hsorted)
  · refine (((l.map g).perm_insertionSort _).trans (hperm.map g).symm).eq_of_pairwise'
      (pairwise_insertionSort _ _) (pairwise_map.mpr ?_)
    exact hsorted.imp_of_mem fun hx hy hle =>
      (h.le_iff (hperm.mem_iff.mp hx) (hperm.mem_iff.mp hy)).mp hle

theorem Agree.map_lt_map_iff (h : Agree f g (l ++ l')) :
    l.map f < l'.map f ↔ l.map g < l'.map g := by
  induction l generalizing l' with
  | nil =>
    cases l' with
    | nil => exact iff_of_false (lt_irrefl _) (lt_irrefl _)
    | cons y l' => exact iff_of_true (nil_lt_cons _ _) (nil_lt_cons _ _)
  | cons x l ih =>
    cases l' with
    | nil => exact iff_of_false (not_lt_nil _) (not_lt_nil _)
    | cons y l' =>
      have hx : x ∈ x :: l ++ y :: l' := mem_cons_self
      have hy : y ∈ x :: l ++ y :: l' := mem_append_right _ mem_cons_self
      have hsub : l ++ l' ⊆ x :: l ++ y :: l' := by
        refine append_subset.mpr ⟨?_, ?_⟩
        · exact List.Subset.trans (subset_cons_self x l) (subset_append_left _ _)
        · exact List.Subset.trans (subset_cons_self y l') (subset_append_right _ _)
      rw [map_cons, map_cons, map_cons, map_cons, cons_lt_cons_iff,
        cons_lt_cons_iff, h x hx y hy, h.eq_iff hx hy, ih (h.mono hsub)]

theorem Agree.sort_lt_sort_iff (h : Agree f g (l ++ l')) :
    (l.map f).insertionSort (· ≤ ·) < (l'.map f).insertionSort (· ≤ ·) ↔
      (l.map g).insertionSort (· ≤ ·) < (l'.map g).insertionSort (· ≤ ·) := by
  obtain ⟨m, hm, hf, hg⟩ := (h.mono (subset_append_left l l')).exists_sorted
  obtain ⟨m', hm', hf', hg'⟩ := (h.mono (subset_append_right l l')).exists_sorted
  rw [hf, hf', hg, hg']
  exact (h.mono (hm.append hm').subset).map_lt_map_iff

end Agree

theorem insertionSort_eq_of_perm {α : Type v} [LinearOrder α] {l l' : List α} (h : l.Perm l') :
    l.insertionSort (· ≤ ·) = l'.insertionSort (· ≤ ·) :=
  ((l.perm_insertionSort _).trans (h.trans (l'.perm_insertionSort _).symm)).eq_of_pairwise'
    (pairwise_insertionSort _ _) (pairwise_insertionSort _ _)

/-- Lists with the same values can be paired. -/
theorem exists_pairs {ι κ α : Type*} {f : ι → α} {g : κ → α} {l : List ι} {l' : List κ}
    (h : (l.map f).Perm (l'.map g)) : ∃ pairs : List (ι × κ), (pairs.map Prod.fst).Perm l ∧
      (pairs.map Prod.snd).Perm l' ∧ ∀ pair ∈ pairs, f pair.1 = g pair.2 := by
  induction l generalizing l' with
  | nil =>
    have hnil : l' = [] := map_eq_nil_iff.mp (nil_perm.mp h)
    exact ⟨[], .nil, hnil ▸ .nil, fun _ hpair => absurd hpair not_mem_nil⟩
  | cons a l ih =>
    obtain ⟨b, hb, hab⟩ := mem_map.mp (h.subset mem_cons_self)
    obtain ⟨before, after, rfl⟩ := append_of_mem hb
    have hsplit : (before ++ b :: after).Perm (b :: (before ++ after)) := perm_middle
    have hrest := h.trans (hsplit.map g)
    rw [map_cons, map_cons, hab, perm_cons] at hrest
    obtain ⟨pairs, hfst, hsnd, hall⟩ := ih hrest
    refine ⟨(a, b) :: pairs, hfst.cons a, (hsnd.cons b).trans hsplit.symm, fun pair hpair => ?_⟩
    rcases mem_cons.mp hpair with rfl | hpair
    · exact hab.symm
    · exact hall pair hpair

/-! ## Trees -/

section Trees

variable {ι : Type u} {κ : Type v} {L : Type w}

/-- The nodes have equal labels, and their children can be paired so that their trees are the
same. -/
inductive SameTree (label : ι → L) (children : ι → List ι) (label' : κ → L)
    (children' : κ → List κ) : ι → κ → Prop
  | node {a : ι} {b : κ} (pairs : List (ι × κ)) (hlabel : label a = label' b)
      (hleft : (pairs.map Prod.fst).Perm (children a))
      (hright : (pairs.map Prod.snd).Perm (children' b))
      (hpairs : ∀ pair ∈ pairs, SameTree label children label' children' pair.1 pair.2) :
      SameTree label children label' children' a b

/-- A node is compared by its label and the sorted ranks of its children. -/
def shapeOf (label : ι → L) (children : ι → List ι) (rank : ι → Nat) (a : ι) : L ×ₗ List Nat :=
  toLex (label a, ((children a).map rank).insertionSort (· ≤ ·))

theorem shapeOf_eq {label : ι → L} {children : ι → List ι} {rank : ι → Nat} {a : ι} {π : Type*}
    {pairs : List π} {node : π → ι} (h : (pairs.map node).Perm (children a)) :
    shapeOf label children rank a =
      toLex (label a, (pairs.map fun pair => rank (node pair)).insertionSort (· ≤ ·)) := by
  rw [shapeOf, ← insertionSort_eq_of_perm (h.map rank), map_map]
  rfl

/-- A forest of finitely many levels, the nodes of each level ranked by their shapes. -/
structure RankedForest (ι : Type u) (L : Type w) [LinearOrder L] where
  label : ι → L
  children : ι → List ι
  rank : ι → Nat
  level : ι → Nat
  top : Nat
  Node : ι → Prop
  level_le : ∀ {a}, Node a → level a ≤ top
  child : ∀ {a c}, Node a → c ∈ children a → Node c ∧ level c = level a + 1
  rank_lt_iff : ∀ {a b}, Node a → Node b → level a = level b →
    (rank a < rank b ↔ shapeOf label children rank a < shapeOf label children rank b)

namespace RankedForest

variable [LinearOrder L]

/-- Trees of two forests are the same. -/
abbrev Same (F : RankedForest ι L) (G : RankedForest κ L) (a : ι) (b : κ) : Prop :=
  SameTree F.label F.children G.label G.children a b

variable (F : RankedForest ι L) (G : RankedForest κ L)

theorem rank_eq_iff {a b : ι} (ha : F.Node a) (hb : F.Node b) (hlevel : F.level a = F.level b) :
    F.rank a = F.rank b ↔
      shapeOf F.label F.children F.rank a = shapeOf F.label F.children F.rank b := by
  rw [le_antisymm_iff, le_antisymm_iff, ← not_lt, ← not_lt, ← not_lt, ← not_lt,
    F.rank_lt_iff ha hb hlevel, F.rank_lt_iff hb ha hlevel.symm]

theorem same_self {a : ι} (ha : F.Node a) : F.Same F a a := by
  -- by induction on the levels from the last one
  have key : ∀ n a, F.Node a → F.top < F.level a + n → F.Same F a a := by
    intro n
    induction n with
    | zero => exact fun a ha hn => absurd hn (not_lt.mpr (F.level_le ha))
    | succ n ih =>
      intro a ha hn
      refine .node ((F.children a).map fun c => (c, c)) rfl (.of_eq ?_) (.of_eq ?_) ?_
      · exact map_map.trans (map_id _)
      · exact map_map.trans (map_id _)
      intro pair hpair
      obtain ⟨c, hc, rfl⟩ := mem_map.mp hpair
      obtain ⟨hnode, hlevel⟩ := F.child ha hc
      exact ih c hnode (by omega)
  exact key (F.top + 1) a ha (Nat.lt_add_left _ (Nat.lt_succ_self _))

/-- The order of two trees is the order of the same trees in another forest. -/
theorem rank_lt_rank_iff {a b : ι} {a' b' : κ} (ha : F.Node a) (hb : F.Node b)
    (hlevel : F.level a = F.level b) (ha' : G.Node a') (hb' : G.Node b')
    (hlevel' : G.level a' = G.level b') (hsame : F.Same G a a') (hsame' : F.Same G b b') :
    F.rank a < F.rank b ↔ G.rank a' < G.rank b' := by
  have key : ∀ n a b a' b', F.Node a → F.Node b → F.level a = F.level b → G.Node a' → G.Node b' →
      G.level a' = G.level b' → F.Same G a a' → F.Same G b b' → F.top < F.level a + n →
      (F.rank a < F.rank b ↔ G.rank a' < G.rank b') := by
    intro n
    induction n with
    | zero => exact fun a _ _ _ ha _ _ _ _ _ _ _ hn => absurd hn (not_lt.mpr (F.level_le ha))
    | succ n ih =>
      rintro a b a' b' ha hb hlevel ha' hb' hlevel' ⟨pairs, hlabel, hleft, hright, hpairs⟩
        ⟨pairs', hlabel', hleft', hright', hpairs'⟩ hn
      have hchild : ∀ pair ∈ pairs ++ pairs', F.Node pair.1 ∧ F.level pair.1 = F.level a + 1 ∧
          G.Node pair.2 ∧ G.level pair.2 = G.level a' + 1 ∧ F.Same G pair.1 pair.2 := by
        intro pair hpair
        rcases mem_append.mp hpair with hpair | hpair
        · obtain ⟨hnode, hone⟩ := F.child ha (hleft.subset (mem_map_of_mem hpair))
          obtain ⟨hnode', hone'⟩ := G.child ha' (hright.subset (mem_map_of_mem hpair))
          exact ⟨hnode, hone, hnode', hone', hpairs pair hpair⟩
        · obtain ⟨hnode, hone⟩ := F.child hb (hleft'.subset (mem_map_of_mem hpair))
          obtain ⟨hnode', hone'⟩ := G.child hb' (hright'.subset (mem_map_of_mem hpair))
          exact ⟨hnode, hlevel ▸ hone, hnode', hlevel' ▸ hone', hpairs' pair hpair⟩
      -- the ranks of the children agree, so their sorted lists are compared alike
      have hagree : Agree (fun pair : ι × κ => F.rank pair.1) (fun pair => G.rank pair.2)
          (pairs ++ pairs') := by
        intro x hx y hy
        obtain ⟨hx₁, hx₂, hx₃, hx₄, hx₅⟩ := hchild x hx
        obtain ⟨hy₁, hy₂, hy₃, hy₄, hy₅⟩ := hchild y hy
        exact ih x.1 y.1 x.2 y.2 hx₁ hy₁ (hx₂.trans hy₂.symm) hx₃ hy₃ (hx₄.trans hy₄.symm) hx₅ hy₅
          (by omega)
      rw [F.rank_lt_iff ha hb hlevel, G.rank_lt_iff ha' hb' hlevel', shapeOf_eq hleft,
        shapeOf_eq hleft', shapeOf_eq hright, shapeOf_eq hright', Prod.Lex.toLex_lt_toLex,
        Prod.Lex.toLex_lt_toLex]
      dsimp only
      rw [hlabel, hlabel', hagree.sort_lt_sort_iff]
  exact key (F.top + 1) a b a' b' ha hb hlevel ha' hb' hlevel' hsame hsame'
    (Nat.lt_add_left _ (Nat.lt_succ_self _))

/-- Trees have equal ranks if they are the same. -/
theorem rank_eq_rank_iff {a b : ι} (ha : F.Node a) (hb : F.Node b)
    (hlevel : F.level a = F.level b) : F.rank a = F.rank b ↔ F.Same F a b := by
  constructor
  · have key : ∀ n a b, F.Node a → F.Node b → F.level a = F.level b → F.rank a = F.rank b →
        F.top < F.level a + n → F.Same F a b := by
      intro n
      induction n with
      | zero => exact fun a b ha _ _ _ hn => absurd hn (not_lt.mpr (F.level_le ha))
      | succ n ih =>
        intro a b ha hb hlevel hrank hn
        obtain ⟨hlabel, hsorted⟩ :=
          Prod.mk.inj (toLex.injective ((F.rank_eq_iff ha hb hlevel).mp hrank))
        -- children with equal ranks are paired
        have hperm : ((F.children a).map F.rank).Perm ((F.children b).map F.rank) :=
          (perm_insertionSort _ _).symm.trans
            ((List.Perm.of_eq hsorted).trans (perm_insertionSort _ _))
        obtain ⟨pairs, hleft, hright, hall⟩ := exists_pairs hperm
        refine .node pairs hlabel hleft hright fun pair hpair => ?_
        obtain ⟨hnode, hone⟩ := F.child ha (hleft.subset (mem_map_of_mem hpair))
        obtain ⟨hnode', hone'⟩ := F.child hb (hright.subset (mem_map_of_mem hpair))
        exact ih pair.1 pair.2 hnode hnode' (by omega) (hall pair hpair) (by omega)
    exact fun hrank => key (F.top + 1) a b ha hb hlevel hrank
      (Nat.lt_add_left _ (Nat.lt_succ_self _))
  · intro hsame
    have hself := F.same_self hb
    have hlt := F.rank_lt_rank_iff F ha hb hlevel hb hb rfl hsame hself
    have hgt := F.rank_lt_rank_iff F hb ha hlevel.symm hb hb rfl hself hsame
    exact le_antisymm (not_lt.mp fun h => lt_irrefl _ (hgt.mp h))
      (not_lt.mp fun h => lt_irrefl _ (hlt.mp h))

end RankedForest

end Trees

end ItemDependencies.Library
