import ItemDependencies.Library.Laminar
import ItemDependencies.Library.ParentChain

/-!
# Trees in preorder

A forest is given by the children of its nodes.  A stack takes a node before its children and its
children before its siblings.  If the nodes are spans, siblings are apart and children lie in
their parents, then the nodes are taken outermost first, and those around one span lie on one path.
-/

namespace ItemDependencies.Library

open List

universe u v

variable {α : Type u}

/-- The nodes that a stack takes, for at most the given number of them. -/
def preorder (kids : α → List α) : Nat → List α → Option (List α)
  | _, [] => some []
  | 0, _ :: _ => none
  | limit + 1, a :: stack => (preorder kids limit (kids a ++ stack)).map (a :: ·)

/-- The trees of some nodes, in preorder. -/
inductive Traversal (kids : α → List α) : List α → List α → Prop
  | nil : Traversal kids [] []
  | cons {a : α} {rest below after : List α} (hbelow : Traversal kids (kids a) below)
      (hafter : Traversal kids rest after) : Traversal kids (a :: rest) (a :: (below ++ after))

/-- The second node is a child of the first. -/
def Child (kids : α → List α) (a b : α) : Prop := b ∈ kids a

/-- The node belongs to the tree of one of some nodes. -/
def InTrees (kids : α → List α) (level : List α) (x : α) : Prop :=
  ∃ a ∈ level, Relation.ReflTransGen (Child kids) a x

variable {kids : α → List α} {level stack out : List α} {a x : α}

theorem inTrees_cons {rest : List α} : InTrees kids (a :: rest) x ↔
    (x = a ∨ InTrees kids (kids a) x) ∨ InTrees kids rest x := by
  simp only [InTrees, exists_mem_cons_iff, Relation.ReflTransGen.cases_head_iff (a := a),
    eq_comm (a := a)]
  rfl

theorem inTrees_of_child {b : α} (h : InTrees kids level a) (hb : b ∈ kids a) :
    InTrees kids level b := by
  obtain ⟨top, htop, habove⟩ := h
  exact ⟨top, htop, habove.tail hb⟩

theorem Traversal.of_append {m : List α} (h : Traversal kids (stack ++ m) out) :
    ∃ before after, out = before ++ after ∧ Traversal kids stack before ∧
      Traversal kids m after := by
  induction stack generalizing out with
  | nil => exact ⟨[], out, rfl, .nil, h⟩
  | cons a stack ih =>
    cases h with
    | @cons _ _ below rest hbelow hrest =>
      obtain ⟨before, after, rfl, hbefore, hafter⟩ := ih hrest
      exact ⟨a :: (below ++ before), after, by simp, .cons hbelow hbefore, hafter⟩

theorem Traversal.append {level' out' : List α} (h : Traversal kids level out)
    (h' : Traversal kids level' out') : Traversal kids (level ++ level') (out ++ out') := by
  induction h with
  | nil => exact h'
  | cons hbelow _ _ ihafter =>
    rw [cons_append, cons_append, append_assoc]
    exact .cons hbelow ihafter

theorem preorder_ok {limit : Nat} (h : preorder kids limit stack = some out) :
    Traversal kids stack out := by
  induction limit generalizing stack out with
  | zero =>
    cases stack with
    | nil => cases h; exact .nil
    | cons => cases h
  | succ limit ih =>
    cases stack with
    | nil => cases h; exact .nil
    | cons a stack =>
      rw [preorder] at h
      obtain ⟨taken, htaken, rfl⟩ := Option.map_eq_some_iff.mp h
      obtain ⟨below, after, rfl, hbelow, hafter⟩ := (ih htaken).of_append
      exact .cons hbelow hafter

theorem Traversal.mem_iff (h : Traversal kids level out) : x ∈ out ↔ InTrees kids level x := by
  induction h with
  | nil => simp [InTrees]
  | cons _ _ ihbelow ihafter =>
    rw [inTrees_cons, mem_cons, mem_append, ihbelow, ihafter, or_assoc]

theorem Traversal.subset (h : Traversal kids level out) : level ⊆ out := fun _ ha =>
  h.mem_iff.mpr ⟨_, ha, .refl⟩

theorem Traversal.unique {out' : List α} (h : Traversal kids level out)
    (h' : Traversal kids level out') : out = out' := by
  induction h generalizing out' with
  | nil => cases h'; rfl
  | cons _ _ ihbelow ihafter =>
    cases h' with
    | cons hbelow hafter => rw [ihbelow hbelow, ihafter hafter]

/-- The trees below a node are smaller than those it belongs to. -/
theorem Traversal.exists_below (h : Traversal kids level out) (ha : a ∈ out) :
    ∃ below, Traversal kids (kids a) below ∧ below.length < out.length ∧ below ⊆ out := by
  induction h with
  | nil => cases ha
  | @cons b rest below after hbelow _ ihbelow ihafter =>
    rcases mem_cons.mp ha with rfl | ha
    · exact ⟨below, hbelow, by simp only [length_cons, length_append]; omega,
        fun x hx => by simp [hx]⟩
    · rcases mem_append.mp ha with ha | ha
      · obtain ⟨inner, hinner, hlt, hsub⟩ := ihbelow ha
        exact ⟨inner, hinner, by simp only [length_cons, length_append]; omega,
          fun x hx => by simp [hsub hx]⟩
      · obtain ⟨inner, hinner, hlt, hsub⟩ := ihafter ha
        exact ⟨inner, hinner, by simp only [length_cons, length_append]; omega,
          fun x hx => by simp [hsub hx]⟩

theorem Traversal.not_mem_own (h : Traversal kids (kids a) out) : a ∉ out := by
  intro ha
  obtain ⟨below, hbelow, hlt, -⟩ := h.exists_below ha
  rw [hbelow.unique h] at hlt
  exact lt_irrefl _ hlt

/-- No node of finite trees is below itself. -/
theorem Traversal.irrefl (h : Traversal kids level out) (ha : a ∈ out) :
    ¬Relation.TransGen (Child kids) a a := by
  intro hcycle
  obtain ⟨below, hbelow, -⟩ := h.exists_below ha
  obtain ⟨b, hb, hrest⟩ := Relation.TransGen.head'_iff.mp hcycle
  exact hbelow.not_mem_own (hbelow.mem_iff.mpr ⟨b, hb, hrest⟩)

/-- A node stands before those that are below it, and these before all others that follow. -/
theorem Traversal.drop_eq (h : Traversal kids level out) {k : Nat} (hk : out[k]? = some a) :
    ∃ below after, Traversal kids (kids a) below ∧ out.drop k = a :: (below ++ after) := by
  induction h generalizing k with
  | nil => simp at hk
  | @cons b rest below after hbelow hafter ihbelow ihafter =>
    cases k with
    | zero =>
      cases hk
      exact ⟨below, after, hbelow, rfl⟩
    | succ k =>
      rw [getElem?_cons_succ] at hk
      rw [drop_succ_cons]
      rcases lt_or_ge k below.length with hlt | hge
      · rw [getElem?_append_left hlt] at hk
        obtain ⟨inner, others, hinner, hdrop⟩ := ihbelow hk
        refine ⟨inner, others ++ after, hinner, ?_⟩
        rw [drop_append_of_le_length hlt.le, hdrop, cons_append, append_assoc]
      · rw [getElem?_append_right hge] at hk
        obtain ⟨inner, others, hinner, hdrop⟩ := ihafter hk
        refine ⟨inner, others, hinner, ?_⟩
        rw [drop_append, drop_eq_nil_of_le hge, nil_append, hdrop]

/-- The nodes below one have the positions of an interval. -/
theorem Traversal.reach_iff {below : List α} {b : α} (h : Traversal kids level out)
    (hnodup : out.Nodup) {k m : Nat} (ha : out[k]? = some a) (hb : out[m]? = some b)
    (hbelow : Traversal kids (kids a) below) :
    Relation.ReflTransGen (Child kids) a b ↔ k ≤ m ∧ m < k + 1 + below.length := by
  obtain ⟨below', after, hbelow', hdrop⟩ := h.drop_eq ha
  cases hbelow'.unique hbelow
  have hinside : Relation.ReflTransGen (Child kids) a b ↔ b ∈ a :: below := by
    rw [mem_cons, hbelow.mem_iff]
    exact Relation.ReflTransGen.cases_head_iff.trans (or_congr eq_comm Iff.rfl)
  have hat : ∀ i, (a :: (below ++ after))[i]? = out[k + i]? := fun i => by
    rw [← hdrop, getElem?_drop]
  rw [hinside]
  constructor
  · intro hmem
    obtain ⟨i, hi⟩ := getElem?_of_mem hmem
    have hlt : i < (a :: below).length := (List.getElem?_eq_some_iff.mp hi).1
    rw [← getElem?_append_left hlt, cons_append, hat] at hi
    obtain ⟨hki, -⟩ := List.getElem?_eq_some_iff.mp hi
    obtain rfl : k + i = m := (getElem?_inj hki hnodup).mp (hi.trans hb.symm)
    rw [length_cons] at hlt
    omega
  · rintro ⟨hle, hlt⟩
    obtain ⟨i, rfl⟩ := Nat.exists_eq_add_of_le hle
    have hlt' : i < (a :: below).length := by
      rw [length_cons]
      omega
    rw [← hat, ← cons_append, getElem?_append_left hlt'] at hb
    exact mem_of_getElem? hb

/-- The trees of the nodes have nothing in common. -/
def TreesApart (kids : α → List α) (level : List α) : Prop :=
  level.Pairwise fun a b => ∀ x, Relation.ReflTransGen (Child kids) a x →
    ¬Relation.ReflTransGen (Child kids) b x

/-- Trees that are apart have each node once. -/
theorem Traversal.nodup_of_apart (h : Traversal kids level out)
    (hkids : ∀ a ∈ out, TreesApart kids (kids a)) (hlevel : TreesApart kids level) :
    out.Nodup := by
  induction h with
  | nil => exact .nil
  | @cons a rest below after hbelow hafter ihbelow ihafter =>
    obtain ⟨hfirst, hrest⟩ := pairwise_cons.mp hlevel
    have hinner : ∀ x ∈ a :: below, Relation.ReflTransGen (Child kids) a x := by
      intro x hx
      rcases mem_cons.mp hx with rfl | hx
      · exact .refl
      · obtain ⟨b, hb, hx⟩ := hbelow.mem_iff.mp hx
        exact .head hb hx
    have houter : ∀ x ∈ a :: below, x ∉ after := by
      intro x hx hx'
      obtain ⟨b, hb, hbx⟩ := hafter.mem_iff.mp hx'
      exact hfirst b hb x (hinner x hx) hbx
    have hnodup : (a :: below).Nodup := nodup_cons.mpr
      ⟨hbelow.not_mem_own, ihbelow (fun x hx => hkids x (by simp [hx])) (hkids a (by simp))⟩
    rw [← cons_append]
    exact List.Nodup.append hnodup (ihafter (fun x hx => hkids x (by simp [hx])) hrest) houter

theorem exists_traversal (h : ∀ a ∈ level, ∃ below, Traversal kids (kids a) below) :
    ∃ out, Traversal kids level out := by
  induction level with
  | nil => exact ⟨[], .nil⟩
  | cons a level ih =>
    obtain ⟨below, hbelow⟩ := h a (by simp)
    obtain ⟨after, hafter⟩ := ih fun b hb => h b (by simp [hb])
    exact ⟨_, .cons hbelow hafter⟩

/-- The same trees with other names of the nodes. -/
theorem Traversal.map {β : Type v} {kids' : β → List β} {f : α → β}
    (hkids : ∀ a, (kids a).map f = kids' (f a)) (h : Traversal kids level out) :
    Traversal kids' (level.map f) (out.map f) := by
  induction h with
  | nil => exact .nil
  | cons _ _ ihbelow ihafter =>
    rw [hkids] at ihbelow
    rw [map_cons, map_cons, map_append]
    exact .cons ihbelow ihafter

/-- A later child of the trees stands behind its node. -/
theorem Traversal.lt_of_child {b : α} (h : Traversal kids level out) (hnodup : out.Nodup)
    {k m : Nat} (ha : out[k]? = some a) (hb : out[m]? = some b) (hchild : b ∈ kids a) : k < m := by
  obtain ⟨below, hbelow, -⟩ := h.exists_below (mem_of_getElem? ha)
  obtain ⟨hle, -⟩ := (h.reach_iff hnodup ha hb hbelow).mp (.single hchild)
  refine lt_of_le_of_ne hle ?_
  rintro rfl
  obtain rfl := Option.some.inj (ha.symm.trans hb)
  exact h.irrefl (mem_of_getElem? ha) (.single hchild)

/-! ### A walk with a state -/

section Walk

variable {σ : Type v} {visit : σ → α → σ}

/-- A node is visited and then its children are walked, for at most so many levels. -/
def depthFirst (kids : α → List α) (visit : σ → α → σ) : Nat → σ → α → Option σ
  | 0, _, _ => none
  | limit + 1, s, a => (kids a).foldlM (depthFirst kids visit limit) (visit s a)

/-- The walk visits the nodes in preorder. -/
theorem Traversal.depthFirst (h : Traversal kids level out) {limit : Nat}
    (hlimit : out.length ≤ limit) (s : σ) :
    level.foldlM (depthFirst kids visit limit) s = some (out.foldl visit s) := by
  induction h generalizing limit s with
  | nil => rfl
  | @cons a rest below after hbelow hafter ihbelow ihafter =>
    rw [length_cons, length_append] at hlimit
    obtain ⟨limit, rfl⟩ := Nat.exists_eq_succ_of_ne_zero (show limit ≠ 0 by omega)
    have hnode : Library.depthFirst kids visit (limit + 1) s a =
        some (below.foldl visit (visit s a)) := ihbelow (by omega) _
    rw [foldlM_cons, hnode, foldl_cons, foldl_append]
    exact ihafter (by omega) _

end Walk

/-! ### Children of parents -/

section Parents

variable {parent : α → Option α} {nodes : Finset α} {b : α}
  (hkids : ∀ a ∈ nodes, ∀ c ∈ kids a, c ∈ nodes ∧ parent c = some a)

include hkids

theorem below_of_reach (ha : a ∈ nodes) (h : Relation.ReflTransGen (Child kids) a b) :
    b ∈ nodes ∧ Below parent b a := by
  induction h with
  | refl => exact ⟨ha, .refl⟩
  | tail _ hchild ih =>
    obtain ⟨hc, hup⟩ := hkids _ ih.1 _ hchild
    exact ⟨hc, .head hup ih.2⟩

theorem treesApart_kids (ha : a ∈ nodes) (hnodup : (kids a).Nodup)
    (h : ¬Relation.TransGen (Up parent) a a) : TreesApart kids (kids a) := by
  refine hnodup.imp_of_mem fun hb hc hne x hbx hcx => hne ?_
  obtain ⟨hb, hup⟩ := hkids a ha _ hb
  obtain ⟨hc, hup'⟩ := hkids a ha _ hc
  exact siblings_disjoint h hup hup' (below_of_reach hkids hb hbx).2 (below_of_reach hkids hc hcx).2

/-- Where no chain of parents is a cycle, the trees below every node are finite. -/
theorem exists_traversal_kids (hacyclic : ∀ a ∈ nodes, ¬Relation.TransGen (Up parent) a a)
    (ha : a ∈ nodes) : ∃ below, Traversal kids (kids a) below := by
  revert ha
  apply child_induction hacyclic (a := a)
  intro a ih ha
  apply exists_traversal
  intro c hc
  obtain ⟨hc, hup⟩ := hkids a ha c hc
  exact ih c hc hup hc

end Parents

/-! ## Spans -/

section Spans

variable {start stop : α → Nat}

/-- A span that is not empty, with its children one after the other in it. -/
structure Nests (kids : α → List α) (start stop : α → Nat) (a : α) : Prop where
  nonempty : start a < stop a
  siblings : (kids a).Pairwise fun b c => stop b ≤ start c
  encloses : ∀ b ∈ kids a, Encloses start stop a b

variable (start stop) in
/-- A span is around those that are below it. -/
theorem Traversal.encloses (h : Traversal kids level out)
    (hnests : ∀ a ∈ out, Nests kids start stop a) (ha : a ∈ out)
    (hbelow : Relation.ReflTransGen (Child kids) a x) : Encloses start stop a x := by
  have key : InTrees kids level x ∧ Encloses start stop a x := by
    induction hbelow with
    | refl => exact ⟨h.mem_iff.mp ha, le_rfl, le_rfl⟩
    | tail _ hchild ih =>
      obtain ⟨hin, hle⟩ := ih
      have hnext := (hnests _ (h.mem_iff.mpr hin)).encloses _ hchild
      exact ⟨inTrees_of_child hin hchild, hle.1.trans hnext.1, hnext.2.trans hle.2⟩
  exact key.2

/-- A later span is after the earlier one or below it. -/
theorem Traversal.pairwise (h : Traversal kids level out)
    (hnests : ∀ a ∈ out, Nests kids start stop a)
    (hlevel : level.Pairwise fun a b => stop a ≤ start b) :
    out.Pairwise fun a b => stop a ≤ start b ∨ Relation.TransGen (Child kids) a b := by
  have hall := fun (a : α) ha (x : α) => h.encloses start stop hnests (a := a) (x := x) ha
  induction h with
  | nil => exact .nil
  | @cons a rest below after hbelow hafter ihbelow ihafter =>
    obtain ⟨hfirst, hrest⟩ := pairwise_cons.mp hlevel
    have hinner : ∀ x ∈ below, Relation.TransGen (Child kids) a x := by
      intro x hx
      obtain ⟨b, hb, hx⟩ := hbelow.mem_iff.mp hx
      exact Relation.TransGen.head' hb hx
    -- what comes after the tree starts where the tree has stopped
    have houter : ∀ x ∈ after, stop a ≤ start x := by
      intro x hx
      obtain ⟨b, hb, hx⟩ := hafter.mem_iff.mp hx
      have hmem : b ∈ after := hafter.subset hb
      exact (hfirst b hb).trans (hall b (by simp [hmem]) x hx).1
    refine pairwise_cons.mpr ⟨fun x hx => ?_, pairwise_append.mpr ⟨?_, ?_, ?_⟩⟩
    · rcases mem_append.mp hx with hx | hx
      · exact .inr (hinner x hx)
      · exact .inl (houter x hx)
    · exact ihbelow (fun x hx => hnests x (by simp [hx])) (hnests a (by simp)).siblings
        fun x hx => hall x (by simp [hx])
    · exact ihafter (fun x hx => hnests x (by simp [hx])) hrest fun x hx => hall x (by simp [hx])
    · intro x hx y hy
      exact .inl ((hall a (by simp) x (hinner x hx).to_reflTransGen).2.trans (houter y hy))

/-- The nodes are taken outermost first. -/
theorem Traversal.outerFirst (h : Traversal kids level out)
    (hnests : ∀ a ∈ out, Nests kids start stop a)
    (hlevel : level.Pairwise fun a b => stop a ≤ start b) :
    out.Pairwise (OuterFirst start stop) := by
  refine (h.pairwise hnests hlevel).imp_of_mem fun {a b} ha hb hab => ?_
  rcases hab with hafter | hbelow
  · exact .inl ((hnests a ha).nonempty.trans_le hafter)
  · have henc := h.encloses start stop hnests ha hbelow.to_reflTransGen
    unfold Encloses at henc
    unfold OuterFirst
    omega

/-- No node is taken twice. -/
theorem Traversal.nodup (h : Traversal kids level out) (hnests : ∀ a ∈ out, Nests kids start stop a)
    (hlevel : level.Pairwise fun a b => stop a ≤ start b) : out.Nodup := by
  refine (h.pairwise hnests hlevel).imp_of_mem fun {a b} ha hb hab => ?_
  rintro rfl
  rcases hab with hafter | hbelow
  · exact absurd (hnests a ha).nonempty (not_lt.mpr hafter)
  · exact h.irrefl ha hbelow

end Spans

/-! ## Paths -/

/-- The nodes of a kind from the top on, up to the first at which the path ends. -/
structure Path (kids : α → List α) (level : List α) (kind ends : α → Prop) (path : List α) :
    Prop where
  head : ∀ a, path.head? = some a → a ∈ level
  chain : path.IsChain (Child kids)
  mem : ∀ x, x ∈ path ↔ InTrees kids level x ∧ kind x ∧
    ∀ y, InTrees kids level y → Relation.TransGen (Child kids) y x → ¬ends y

variable {kind ends : α → Prop} {path : List α}

theorem path_nil (h : ∀ a ∈ level, ∀ x, Relation.ReflTransGen (Child kids) a x → ¬kind x) :
    Path kids level kind ends [] := by
  refine ⟨by simp, .nil, fun x => ⟨by simp, ?_⟩⟩
  rintro ⟨⟨a, ha, hx⟩, hkind, -⟩
  exact absurd hkind (h a ha x hx)

section Down

variable (ha : a ∈ level) (hkind : kind a)
  (hother : ∀ b ∈ level, b ≠ a → ∀ x, Relation.ReflTransGen (Child kids) b x → ¬kind x)
  (hirrefl : ¬Relation.TransGen (Child kids) a a)

include hkind hother hirrefl in
/-- Nothing of a level is above a node of it. -/
theorem not_transGen_of_mem {y : α} (hy : InTrees kids level y) :
    ¬Relation.TransGen (Child kids) y a := by
  intro hya
  obtain ⟨b, hb, hby⟩ := hy
  rcases eq_or_ne b a with rfl | hne
  · exact hirrefl (Relation.TransGen.trans_right hby hya)
  · exact hother b hb hne a (hby.trans hya.to_reflTransGen) hkind

include ha hkind hother hirrefl in
theorem path_end (hends : ends a) : Path kids level kind ends [a] := by
  refine ⟨by simpa using ha, by simp, fun x => ?_⟩
  rw [mem_singleton]
  constructor
  · rintro rfl
    exact ⟨⟨x, ha, .refl⟩, hkind, fun y hy hyx =>
      absurd hyx (not_transGen_of_mem hkind hother hirrefl hy)⟩
  · rintro ⟨⟨b, hb, hbx⟩, hx, hno⟩
    rcases eq_or_ne b a with rfl | hne
    · rcases Relation.reflTransGen_iff_eq_or_transGen.mp hbx with rfl | hbelow
      · rfl
      · exact absurd hends (hno b ⟨b, hb, .refl⟩ hbelow)
    · exact absurd hx (hother b hb hne x hbx)

include ha hkind hother hirrefl in
theorem path_cons (hends : ¬ends a) (h : Path kids (kids a) kind ends path) :
    Path kids level kind ends (a :: path) := by
  refine ⟨by simpa using ha, isChain_cons.mpr ⟨fun b hb => h.head b hb, h.chain⟩,
    fun x => ?_⟩
  have hlower : ∀ {y}, InTrees kids (kids a) y → InTrees kids level y := by
    rintro y ⟨b, hb, hy⟩
    exact ⟨a, ha, .head hb hy⟩
  rw [mem_cons, h.mem]
  constructor
  · rintro (rfl | ⟨hin, hx, hno⟩)
    · exact ⟨⟨x, ha, .refl⟩, hkind, fun y hy hyx =>
        absurd hyx (not_transGen_of_mem hkind hother hirrefl hy)⟩
    · refine ⟨hlower hin, hx, ?_⟩
      rintro y ⟨b, hb, hby⟩ hyx
      rcases eq_or_ne b a with rfl | hne
      · rcases Relation.ReflTransGen.cases_head hby with rfl | ⟨c, hc, hcy⟩
        · exact hends
        · exact hno y ⟨c, hc, hcy⟩ hyx
      · exact absurd hx (hother b hb hne x (hby.trans hyx.to_reflTransGen))
  · rintro ⟨⟨b, hb, hbx⟩, hx, hno⟩
    rcases eq_or_ne b a with rfl | hne
    · rcases Relation.ReflTransGen.cases_head hbx with rfl | ⟨c, hc, hcx⟩
      · exact .inl rfl
      · exact .inr ⟨⟨c, hc, hcx⟩, hx, fun y hy => hno y (hlower hy)⟩
    · exact absurd hx (hother b hb hne x hbx)

end Down

end ItemDependencies.Library
