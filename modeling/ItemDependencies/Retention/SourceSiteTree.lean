import ItemDependencies.Retention.SourceSites

/-!
# The tree of best ranks

A version of the persistent segment tree stands for a set of ranks at
positions.  Each node knows the least rank among the positions below it, an
insertion makes new nodes on one path and shares all others, and a query for
the positions from some position on meets the least rank among them.
-/

namespace ItemDependencies

open Library List

/-- An optional rank is the least of a set, or the set is empty. -/
def LeastOf (ranks : Set OwnerRank) : Option OwnerRank → Prop
  | none => ranks = ∅
  | some rank => IsLeast ranks rank

namespace LeastOf

variable {ranks ranks' : Set OwnerRank} {a b : Option OwnerRank}

theorem union (ha : LeastOf ranks a) (hb : LeastOf ranks' b) :
    LeastOf (ranks ∪ ranks') (minRank a b) := by
  cases a with
  | none =>
    obtain rfl : ranks = ∅ := ha
    rw [Set.empty_union]
    cases b with
    | none => exact hb
    | some rank => exact hb
  | some rank =>
    cases b with
    | none =>
      obtain rfl : ranks' = ∅ := hb
      rw [Set.union_empty]
      exact ha
    | some rank' => exact IsLeast.union ha hb

theorem insert (rank : OwnerRank) (ha : LeastOf ranks a) :
    LeastOf (Insert.insert rank ranks) (some (a.elim rank (min rank))) := by
  cases a with
  | none =>
    obtain rfl : ranks = ∅ := ha
    rw [insert_empty_eq]
    exact isLeast_singleton
  | some best => exact IsLeast.insert rank ha

end LeastOf

/-- The ranks at the positions from `first` up to, but not including, `last`. -/
def ranksIn (ranks : Set (Nat × OwnerRank)) (first last : Nat) : Set OwnerRank :=
  {rank | ∃ position, first ≤ position ∧ position < last ∧ (position, rank) ∈ ranks}

section Ranks

variable {ranks : Set (Nat × OwnerRank)} {first middle last position : Nat} {rank : OwnerRank}

theorem ranksIn_union (h : first ≤ middle) (h' : middle ≤ last) :
    ranksIn ranks first last = ranksIn ranks first middle ∪ ranksIn ranks middle last := by
  ext r
  constructor
  · rintro ⟨p, hp, hp', hr⟩
    by_cases hm : p < middle
    · exact Or.inl ⟨p, hp, hm, hr⟩
    · exact Or.inr ⟨p, not_lt.mp hm, hp', hr⟩
  · rintro (⟨p, hp, hp', hr⟩ | ⟨p, hp, hp', hr⟩)
    · exact ⟨p, hp, hp'.trans_le h', hr⟩
    · exact ⟨p, h.trans hp, hp', hr⟩

theorem ranksIn_eq_empty (h : last ≤ first) : ranksIn ranks first last = ∅ := by
  refine Set.eq_empty_of_forall_notMem ?_
  rintro r ⟨p, hp, hp', -⟩
  omega

theorem ranksIn_insert_of_mem (h : first ≤ position) (h' : position < last) :
    ranksIn (insert (position, rank) ranks) first last =
      insert rank (ranksIn ranks first last) := by
  ext r
  constructor
  · rintro ⟨p, hp, hp', hr⟩
    rcases hr with heq | hr
    · exact Or.inl (Prod.mk.inj heq).2
    · exact Or.inr ⟨p, hp, hp', hr⟩
  · rintro (rfl | ⟨p, hp, hp', hr⟩)
    · exact ⟨position, h, h', Or.inl rfl⟩
    · exact ⟨p, hp, hp', Or.inr hr⟩

theorem ranksIn_insert_of_notMem (h : position < first ∨ last ≤ position) :
    ranksIn (insert (position, rank) ranks) first last = ranksIn ranks first last := by
  ext r
  constructor
  · rintro ⟨p, hp, hp', hr⟩
    rcases hr with heq | hr
    · obtain rfl := (Prod.mk.inj heq).1
      omega
    · exact ⟨p, hp, hp', hr⟩
  · rintro ⟨p, hp, hp', hr⟩
    exact ⟨p, hp, hp', Or.inr hr⟩

end Ranks

/-- A tree of the arena stands for the ranks at the positions of an interval. -/
inductive Represents (nodes : List MinNode) (ranks : Set (Nat × OwnerRank)) : Nat → Nat → Nat → Prop
  | empty {first last : Nat} (h : ranksIn ranks first last = ∅) :
    Represents nodes ranks 0 first last
  | leaf {root first last : Nat} {node : MinNode} (hroot : root ≠ 0)
      (hnode : nodes[root]? = some node) (hone : last - first = 1)
      (hbest : LeastOf (ranksIn ranks first last) node.best) :
        Represents nodes ranks root first last
  | branch {root first last : Nat} {node : MinNode} (hroot : root ≠ 0)
      (hnode : nodes[root]? = some node) (htwo : 2 ≤ last - first)
      (hbest : LeastOf (ranksIn ranks first last) node.best)
      (left : Represents nodes ranks node.left first (first + (last - first) / 2))
      (right : Represents nodes ranks node.right (first + (last - first) / 2) last) :
      Represents nodes ranks root first last

namespace Represents

variable {nodes : List MinNode} {ranks ranks' : Set (Nat × OwnerRank)} {root first last : Nat}

/-- Nodes are only added. -/
theorem extend (h : Represents nodes ranks root first last) (more : List MinNode) :
    Represents (nodes ++ more) ranks root first last := by
  have hget : ∀ {i : Nat} {node : MinNode}, nodes[i]? = some node →
      (nodes ++ more)[i]? = some node := fun h => by
    rw [getElem?_append_left (List.getElem?_eq_some_iff.mp h).1, h]
  induction h with
  | empty h => exact .empty h
  | leaf hroot hnode hone hbest => exact .leaf hroot (hget hnode) hone hbest
  | branch hroot hnode htwo hbest _ _ ihl ihr => exact .branch hroot (hget hnode) htwo hbest ihl ihr

/-- Only the ranks in the interval matter. -/
theorem congr (h : Represents nodes ranks root first last)
    (hranks : ∀ first' last', first ≤ first' → last' ≤ last →
      ranksIn ranks' first' last' = ranksIn ranks first' last') :
    Represents nodes ranks' root first last := by
  induction h with
  | empty h => exact .empty ((hranks _ _ le_rfl le_rfl).trans h)
  | leaf hroot hnode hone hbest =>
    exact .leaf hroot hnode hone (hranks _ _ le_rfl le_rfl ▸ hbest)
  | branch hroot hnode htwo hbest _ _ ihl ihr =>
    refine .branch hroot hnode htwo (hranks _ _ le_rfl le_rfl ▸ hbest) (ihl ?_) (ihr ?_)
    · exact fun f l hf hl => hranks f l hf (by omega)
    · exact fun f l hf hl => hranks f l (by omega) hl

/-- A rank outside the interval may be added. -/
theorem insert_outside (h : Represents nodes ranks root first last) {position : Nat}
    (hout : position < first ∨ last ≤ position) (rank : OwnerRank) :
    Represents nodes (insert (position, rank) ranks) root first last :=
  h.congr fun f l hf hl => ranksIn_insert_of_notMem (by omega)

/-- What node 0 stands for is what the empty node knows. -/
theorem best (h : Represents nodes ranks root first last) (hzero : nodes[0]? = some .empty) :
    LeastOf (ranksIn ranks first last) (nodes.getD root .empty).best := by
  rw [getD_eq_getElem?_getD]
  cases h with
  | empty h =>
    rw [hzero]
    exact h
  | leaf _ hnode _ hbest =>
    rw [hnode]
    exact hbest
  | branch _ hnode _ hbest =>
    rw [hnode]
    exact hbest

/-- The children of a node, or of the empty node. -/
theorem children (h : Represents nodes ranks root first last) (hzero : nodes[0]? = some .empty)
    (htwo : 2 ≤ last - first) :
    Represents nodes ranks (nodes.getD root .empty).left first (first + (last - first) / 2) ∧
      Represents nodes ranks (nodes.getD root .empty).right (first + (last - first) / 2) last := by
  rw [getD_eq_getElem?_getD]
  cases h with
  | empty h =>
    rw [hzero]
    rw [ranksIn_union (by omega : first ≤ first + (last - first) / 2) (by omega),
      Set.union_empty_iff] at h
    exact ⟨.empty h.1, .empty h.2⟩
  | leaf _ _ hone => omega
  | branch _ hnode _ _ left right =>
    rw [hnode]
    exact ⟨left, right⟩

/-- A new node over two trees. -/
theorem join {left right : Nat} (hzero : nodes[0]? = some .empty) (htwo : 2 ≤ last - first)
    (hl : Represents nodes ranks left first (first + (last - first) / 2))
    (hr : Represents nodes ranks right (first + (last - first) / 2) last) :
    Represents (nodes ++ [⟨left, right, minRank (nodes.getD left .empty).best
      (nodes.getD right .empty).best⟩]) ranks nodes.length first last := by
  refine .branch ?_ getElem?_concat_length htwo ?_ (hl.extend _) (hr.extend _)
  · intro h
    rw [length_eq_zero_iff.mp h] at hzero
    cases hzero
  · rw [ranksIn_union (by omega : first ≤ first + (last - first) / 2) (by omega)]
    exact (hl.best hzero).union (hr.best hzero)

end Represents

namespace SourceSiteOwnerIndex

variable {ranks : Set (Nat × OwnerRank)} {position : Nat} {rank : OwnerRank}

/-- An insertion adds nodes, one of which stands for the version with the new rank. -/
theorem insert_spec (limit : Nat) (index : SourceSiteOwnerIndex) {previous first last : Nat}
    (hlimit : last - first ≤ limit) (hfirst : first ≤ position) (hlast : position < last)
    (hzero : index.nodes[0]? = some .empty)
    (h : Represents index.nodes ranks previous first last) :
    ∃ more, (index.insert position rank limit previous first last).1 =
        { index with nodes := index.nodes ++ more } ∧
      Represents (index.nodes ++ more) (Insert.insert (position, rank) ranks)
        (index.insert position rank limit previous first last).2 first last := by
  induction limit generalizing index previous first last with
  | zero => omega
  | succ limit ih =>
    by_cases hone : last - first = 1
    · rw [insert, if_pos hone]
      refine ⟨[_], rfl, .leaf ?_ getElem?_concat_length hone ?_⟩
      · intro hlength
        rw [length_eq_zero_iff.mp hlength] at hzero
        cases hzero
      · rw [ranksIn_insert_of_mem hfirst hlast]
        exact (h.best hzero).insert rank
    · have htwo : 2 ≤ last - first := by omega
      obtain ⟨hl, hr⟩ := h.children hzero htwo
      rw [insert, if_neg hone]
      dsimp only
      by_cases hmiddle : position < first + (last - first) / 2
      · obtain ⟨more, hindex, hnew⟩ := ih index (by omega) hfirst hmiddle hzero hl
        rw [if_pos hmiddle]
        generalize insert index position rank limit (index.nodes.getD previous .empty).left first
          (first + (last - first) / 2) = inserted at *
        obtain ⟨index', left⟩ := inserted
        obtain rfl : index' = { index with nodes := index.nodes ++ more } := hindex
        refine ⟨more ++ [_], by rw [← append_assoc], ?_⟩
        rw [← append_assoc]
        have hzero' : (index.nodes ++ more)[0]? = some .empty := by
          rw [getElem?_append_left (List.getElem?_eq_some_iff.mp hzero).1, hzero]
        exact Represents.join hzero' htwo hnew
          ((hr.insert_outside (Or.inl hmiddle) rank).extend more)
      · obtain ⟨more, hindex, hnew⟩ := ih index (by omega) (not_lt.mp hmiddle) hlast hzero hr
        rw [if_neg hmiddle]
        generalize insert index position rank limit (index.nodes.getD previous .empty).right
          (first + (last - first) / 2) last = inserted at *
        obtain ⟨index', right⟩ := inserted
        obtain rfl : index' = { index with nodes := index.nodes ++ more } := hindex
        refine ⟨more ++ [_], by rw [← append_assoc], ?_⟩
        rw [← append_assoc]
        have hzero' : (index.nodes ++ more)[0]? = some .empty := by
          rw [getElem?_append_left (List.getElem?_eq_some_iff.mp hzero).1, hzero]
        exact Represents.join hzero' htwo
          ((hl.insert_outside (Or.inr (not_lt.mp hmiddle)) rank).extend more) hnew

/-- A query from a position on meets the least rank there. -/
theorem suffixBest_spec (index : SourceSiteOwnerIndex) (start : Nat)
    (hzero : index.nodes[0]? = some .empty) (limit : Nat) {root first last : Nat}
    (hlimit : last - first < limit) (h : Represents index.nodes ranks root first last) :
    LeastOf (ranksIn ranks (max first start) last)
      (index.suffixBest start limit root first last) := by
  induction limit generalizing root first last with
  | zero => omega
  | succ limit ih =>
    rw [suffixBest]
    by_cases hnone : root = 0 ∨ last ≤ start
    · rw [if_pos hnone]
      rcases hnone with rfl | hstart
      · cases h with
        | empty h =>
          -- nothing in the interval, so nothing in a part of it
          refine Set.eq_empty_of_forall_notMem ?_
          rintro r ⟨p, hp, hp', hr⟩
          have hr' : r ∈ ranksIn ranks first last :=
            ⟨p, (le_max_left ..).trans hp, hp', hr⟩
          rwa [h] at hr'
        | leaf hroot => exact absurd rfl hroot
        | branch hroot => exact absurd rfl hroot
      · exact ranksIn_eq_empty (hstart.trans (le_max_right ..))
    · rw [if_neg hnone]
      obtain ⟨hroot, hstart⟩ := not_or.mp hnone
      by_cases hfirst : start ≤ first
      · rw [if_pos hfirst, max_eq_left hfirst]
        exact h.best hzero
      · rw [if_neg hfirst]
        have htwo : 2 ≤ last - first := by
          cases h with
          | empty => exact absurd rfl hroot
          | leaf _ _ hone => omega
          | branch _ _ htwo => exact htwo
        obtain ⟨hl, hr⟩ := h.children hzero htwo
        have hleft := ih (by omega) hl
        have hright := ih (by omega) hr
        rw [max_eq_right (not_le.mp hfirst).le] at hleft ⊢
        generalize hm : first + (last - first) / 2 = middle at hleft hright ⊢
        have hunion : ranksIn ranks start last =
            ranksIn ranks start middle ∪ ranksIn ranks (max middle start) last := by
          rcases le_total start middle with h | h
          · rw [max_eq_left h, ranksIn_union h (by omega)]
          · rw [max_eq_right h, ranksIn_eq_empty h, Set.empty_union]
        rw [hunion]
        exact hleft.union hright

end SourceSiteOwnerIndex

end ItemDependencies
