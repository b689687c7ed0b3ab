import ItemDependencies.Library.Ascending
import Mathlib.Algebra.Order.Group.Nat

/-!
# Shared trees of positions

Sets of positions below a power of two, kept as binary trees whose equal subtrees are one node.  A
node stands for the positions of its two halves.  When no node is stored twice and none is empty, a
set has one representation.
-/

namespace ItemDependencies.Library

open List

universe u

/-! ## Halves -/

/-- The positions of two halves of the given height, those of the right one behind the others. -/
def halves (height : Nat) (left right : Finset Nat) : Finset Nat :=
  left.filter (· < 2 ^ height) ∪ right.image (2 ^ height + ·)

section Halves

variable {height x : Nat} {A B A' B' : Finset Nat}

theorem mem_halves :
    x ∈ halves height A B ↔ x < 2 ^ height ∧ x ∈ A ∨ 2 ^ height ≤ x ∧ x - 2 ^ height ∈ B := by
  rw [halves, Finset.mem_union, Finset.mem_filter, Finset.mem_image, and_comm]
  refine or_congr_right ⟨?_, fun h => ⟨x - 2 ^ height, h.2, Nat.add_sub_cancel' h.1⟩⟩
  rintro ⟨y, hy, rfl⟩
  refine ⟨Nat.le_add_right _ _, ?_⟩
  rwa [Nat.add_sub_cancel_left]

theorem mem_halves_left (h : x < 2 ^ height) : x ∈ halves height A B ↔ x ∈ A := by
  rw [mem_halves, and_iff_right h, or_iff_left (fun hx => absurd hx.1 (not_le.mpr h))]

theorem mem_halves_right : 2 ^ height + x ∈ halves height A B ↔ x ∈ B := by
  rw [mem_halves, Nat.add_sub_cancel_left, and_iff_right (Nat.le_add_right _ _),
    or_iff_right (fun hx => absurd hx.1 (not_lt.mpr (Nat.le_add_right _ _)))]

theorem halves_lt (hB : ∀ x ∈ B, x < 2 ^ height) :
    ∀ x ∈ halves height A B, x < 2 ^ (height + 1) := by
  intro x hx
  rw [Nat.pow_succ]
  rcases mem_halves.mp hx with ⟨hlt, -⟩ | ⟨hle, hx⟩
  · omega
  · have := hB _ hx
    omega

theorem halves_inj (hA : ∀ x ∈ A, x < 2 ^ height) (hA' : ∀ x ∈ A', x < 2 ^ height)
    (h : halves height A B = halves height A' B') : A = A' ∧ B = B' := by
  constructor
  · ext x
    by_cases hx : x < 2 ^ height
    · rw [← mem_halves_left hx, h, mem_halves_left hx]
    · exact iff_of_false (fun hmem => hx (hA x hmem)) fun hmem => hx (hA' x hmem)
  · ext x
    rw [← mem_halves_right (A := A), h, mem_halves_right]

@[simp] theorem halves_empty : halves height ∅ ∅ = ∅ := by
  ext x
  simp [mem_halves]

theorem halves_eq_empty (hA : ∀ x ∈ A, x < 2 ^ height) : halves height A B = ∅ ↔ A = ∅ ∧ B = ∅ := by
  constructor
  · intro h
    exact halves_inj hA (fun x hx => absurd hx (Finset.notMem_empty x)) (h.trans halves_empty.symm)
  · rintro ⟨rfl, rfl⟩
    exact halves_empty

theorem halves_inter :
    halves height A B ∩ halves height A' B' = halves height (A ∩ A') (B ∩ B') := by
  ext x
  rw [Finset.mem_inter]
  rcases lt_or_ge x (2 ^ height) with hx | hx
  · rw [mem_halves_left hx, mem_halves_left hx, mem_halves_left hx, Finset.mem_inter]
  · obtain ⟨y, rfl⟩ := Nat.exists_eq_add_of_le hx
    rw [mem_halves_right, mem_halves_right, mem_halves_right, Finset.mem_inter]

theorem halves_sdiff :
    halves height A B \ halves height A' B' = halves height (A \ A') (B \ B') := by
  ext x
  rw [Finset.mem_sdiff]
  rcases lt_or_ge x (2 ^ height) with hx | hx
  · rw [mem_halves_left hx, mem_halves_left hx, mem_halves_left hx, Finset.mem_sdiff]
  · obtain ⟨y, rfl⟩ := Nat.exists_eq_add_of_le hx
    rw [mem_halves_right, mem_halves_right, mem_halves_right, Finset.mem_sdiff]

theorem card_halves (hA : ∀ x ∈ A, x < 2 ^ height) :
    (halves height A B).card = A.card + B.card := by
  have hdisjoint : Disjoint (A.filter (· < 2 ^ height)) (B.image (2 ^ height + ·)) := by
    rw [Finset.disjoint_left]
    intro x hx hx'
    obtain ⟨y, -, rfl⟩ := Finset.mem_image.mp hx'
    exact absurd (Finset.mem_filter.mp hx).2 (not_lt.mpr (Nat.le_add_right _ _))
  rw [halves, Finset.card_union_of_disjoint hdisjoint, Finset.filter_true_of_mem hA,
    Finset.card_image_of_injective _ (add_right_injective _)]

/-- The least position is in the left half, unless it is empty. -/
theorem isLeast_halves_left (hA : ∀ x ∈ A, x < 2 ^ height) {least : Nat}
    (h : IsLeast (A : Set Nat) least) : IsLeast (halves height A B : Set Nat) least := by
  refine ⟨(mem_halves_left (hA least h.1)).mpr h.1, fun x hx => ?_⟩
  rcases mem_halves.mp hx with ⟨-, hx⟩ | ⟨hle, -⟩
  · exact h.2 hx
  · exact (hA least h.1).le.trans hle

theorem isLeast_halves_right {least : Nat} (h : IsLeast (B : Set Nat) least) :
    IsLeast (halves height ∅ B : Set Nat) (2 ^ height + least) := by
  refine ⟨mem_halves_right.mpr h.1, fun x hx => ?_⟩
  rcases mem_halves.mp hx with ⟨-, hx⟩ | ⟨hle, hx⟩
  · exact absurd hx (Finset.notMem_empty x)
  · exact Nat.add_le_of_le_sub' hle (h.2 hx)

/-- The positions of the left half come first. -/
theorem ascending_halves (hA : ∀ x ∈ A, x < 2 ^ height) : ascending (halves height A B) =
    ascending A ++ (ascending B).map (2 ^ height + ·) := by
  refine (eq_ascending (pairwise_append.mpr ⟨pairwise_lt_ascending A, ?_, ?_⟩) fun x => ?_).symm
  · exact pairwise_map.mpr ((pairwise_lt_ascending B).imp fun hlt => Nat.add_lt_add_left hlt _)
  · intro x hx y hy
    obtain ⟨z, -, rfl⟩ := mem_map.mp hy
    exact (hA x (mem_ascending.mp hx)).trans_le (Nat.le_add_right _ _)
  · rw [mem_append, mem_map, mem_ascending]
    rcases lt_or_ge x (2 ^ height) with hx | hx
    · rw [mem_halves_left hx]
      refine or_iff_left ?_
      rintro ⟨z, -, rfl⟩
      exact absurd hx (Nat.le_add_right _ _).not_gt
    · obtain ⟨y, rfl⟩ := Nat.exists_eq_add_of_le hx
      rw [mem_halves_right, or_iff_right fun hmem => absurd (hA _ hmem) hx.not_gt]
      refine ⟨?_, fun hy => ⟨y, mem_ascending.mpr hy, rfl⟩⟩
      rintro ⟨z, hz, heq⟩
      rw [← Nat.add_left_cancel heq]
      exact mem_ascending.mp hz

/-! ### One position -/

/-- The set with a position in it, or without it. -/
def setAt (present : Bool) (position : Nat) (A : Finset Nat) : Finset Nat :=
  if present then insert position A else A.erase position

theorem mem_setAt {present : Bool} {position : Nat} :
    x ∈ setAt present position A ↔ if x = position then present = true else x ∈ A := by
  unfold setAt
  by_cases hx : x = position <;> cases present <;> simp [hx]

theorem halves_setAt_left {present : Bool} (hx : x < 2 ^ height) :
    halves height (setAt present x A) B = setAt present x (halves height A B) := by
  ext y
  rw [mem_setAt]
  rcases lt_or_ge y (2 ^ height) with hy | hy
  · rw [mem_halves_left hy, mem_halves_left hy, mem_setAt]
  · rw [if_neg (hx.trans_le hy).ne']
    obtain ⟨z, rfl⟩ := Nat.exists_eq_add_of_le hy
    rw [mem_halves_right, mem_halves_right]

theorem halves_setAt_right {present : Bool} :
    halves height A (setAt present x B) = setAt present (2 ^ height + x) (halves height A B) := by
  ext y
  rw [mem_setAt]
  rcases lt_or_ge y (2 ^ height) with hy | hy
  · rw [if_neg (hy.trans_le (Nat.le_add_right _ _)).ne, mem_halves_left hy, mem_halves_left hy]
  · obtain ⟨z, rfl⟩ := Nat.exists_eq_add_of_le hy
    rw [mem_halves_right, mem_halves_right, mem_setAt]
    simp only [Nat.add_left_cancel_iff]

end Halves

/-! ## Tables of nodes -/

/-- Two identifiers that need no node, and the nodes: a height and two halves that are one lower. -/
structure SharedTable (ι : Type u) where
  empty : ι
  leaf : ι
  node : ι → Option (Nat × ι × ι)

namespace SharedTable

variable {ι : Type u}

/-- The set of positions that an identifier stands for at a height. -/
inductive Represents (t : SharedTable ι) : Nat → ι → Finset Nat → Prop
  | empty (height : Nat) : Represents t height t.empty ∅
  | leaf : Represents t 0 t.leaf {0}
  | join {height : Nat} {id left right : ι} {A B : Finset Nat}
      (hnode : t.node id = some (height + 1, left, right)) (hleft : Represents t height left A)
      (hright : Represents t height right B) : Represents t (height + 1) id (halves height A B)

/-- No node is stored twice, and none is empty. -/
structure Distinct (t : SharedTable ι) : Prop where
  apart : t.leaf ≠ t.empty
  empty : t.node t.empty = none
  leaf : t.node t.leaf = none
  inhabited : ∀ {id height left right}, t.node id = some (height, left, right) →
    left ≠ t.empty ∨ right ≠ t.empty
  injective : ∀ {a b node}, t.node a = some node → t.node b = some node → a = b

variable {t t' : SharedTable ι} {height : Nat} {a b id : ι} {A B : Finset Nat}

theorem Represents.lt (h : t.Represents height id A) : ∀ x ∈ A, x < 2 ^ height := by
  induction h with
  | empty => exact fun x hx => absurd hx (Finset.notMem_empty x)
  | leaf => exact fun x hx => by rw [Finset.mem_singleton.mp hx]; exact Nat.one_pos
  | join _ _ _ _ ihright => exact halves_lt ihright

theorem Represents.cases (h : t.Represents height id A) :
    (id = t.empty ∧ A = ∅) ∨ (height = 0 ∧ id = t.leaf ∧ A = {0}) ∨
      ∃ below left right B C, height = below + 1 ∧ t.node id = some (height, left, right) ∧
        t.Represents below left B ∧ t.Represents below right C ∧ A = halves below B C := by
  cases h with
  | empty => exact .inl ⟨rfl, rfl⟩
  | leaf => exact .inr (.inl ⟨rfl, rfl, rfl⟩)
  | join hnode hleft hright => exact .inr (.inr ⟨_, _, _, _, _, rfl, hnode, hleft, hright, rfl⟩)

theorem Represents.node (hd : t.Distinct) {left right : ι} (h : t.Represents (height + 1) id A)
    (hnode : t.node id = some (height + 1, left, right)) :
    ∃ B C, t.Represents height left B ∧ t.Represents height right C ∧ A = halves height B C := by
  rcases h.cases with ⟨rfl, -⟩ | ⟨hzero, -⟩ | ⟨below, l, r, B, C, hheight, hnode', hl, hr, hA⟩
  · rw [hd.empty] at hnode
    cases hnode
  · cases hzero
  · cases hheight
    cases hnode.symm.trans hnode'
    exact ⟨B, C, hl, hr, hA⟩

theorem Represents.mono (h : t.Represents height id A) (hempty : t'.empty = t.empty)
    (hleaf : t'.leaf = t.leaf) (hnode : ∀ id node, t.node id = some node → t'.node id = some node) :
    t'.Represents height id A := by
  induction h with
  | empty => exact hempty ▸ .empty _
  | leaf => exact hleaf ▸ .leaf
  | join hid _ _ ihleft ihright => exact .join (hnode _ _ hid) ihleft ihright

variable (hd : t.Distinct)

include hd

theorem Represents.eq_empty_iff (h : t.Represents height id A) : A = ∅ ↔ id = t.empty := by
  induction h with
  | empty => exact iff_of_true rfl rfl
  | leaf => exact iff_of_false (Finset.singleton_ne_empty 0) hd.apart
  | join hnode hleft _ ihleft ihright =>
    rw [halves_eq_empty hleft.lt, ihleft, ihright]
    refine iff_of_false (fun hboth => ?_) fun hempty => ?_
    · exact (hd.inhabited hnode).elim (fun h => h hboth.1) fun h => h hboth.2
    · rw [hempty, hd.empty] at hnode
      cases hnode

/-- An identifier stands for one set. -/
theorem Represents.unique (h : t.Represents height id A) (h' : t.Represents height id B) :
    A = B := by
  induction h generalizing B with
  | empty =>
    exact ((h'.eq_empty_iff hd).mpr rfl).symm
  | leaf =>
    rcases h'.cases with ⟨heq, -⟩ | ⟨-, -, rfl⟩ | ⟨below, _, _, _, _, hheight, -⟩
    · exact absurd heq hd.apart
    · rfl
    · cases hheight
  | join hnode _ _ ihleft ihright =>
    obtain ⟨C, D, hleft, hright, rfl⟩ := h'.node hd hnode
    rw [ihleft hleft, ihright hright]

/-- A set is represented by one identifier. -/
theorem Represents.injective (h : t.Represents height a A) (h' : t.Represents height b A) :
    a = b := by
  induction h generalizing b with
  | empty => exact ((h'.eq_empty_iff hd).mp rfl).symm
  | leaf =>
    rcases h'.cases with ⟨-, hempty⟩ | ⟨-, rfl, -⟩ | ⟨below, _, _, _, _, hheight, -⟩
    · exact absurd hempty (Finset.singleton_ne_empty 0)
    · rfl
    · cases hheight
  | join hnode hleft hright ihleft ihright =>
    rcases h'.cases with ⟨rfl, hempty⟩ | ⟨hzero, -⟩ |
      ⟨below, left, right, B, C, hheight, hnode', hleft', hright', heq⟩
    · have hid := (Represents.eq_empty_iff hd (.join hnode hleft hright)).mp hempty
      exact hid
    · cases hzero
    · cases hheight
      obtain ⟨rfl, rfl⟩ := halves_inj hleft.lt hleft'.lt heq
      cases ihleft hleft'
      cases ihright hright'
      exact hd.injective hnode hnode'

end SharedTable

end ItemDependencies.Library
