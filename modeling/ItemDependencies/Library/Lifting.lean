import ItemDependencies.Library.ParentChain
import Mathlib.Algebra.Order.Group.Nat
import Mathlib.Data.Nat.Find

/-!
# Common ancestors by binary lifting

Nodes with at most one parent each and with their depths.  For every power of two the jump of this
length is known.  Jumps for the bits of a number climb so many steps, and jumps from the longest one
down stop right below the first node that two nodes of one depth have in common.
-/

namespace ItemDependencies.Library

open List Function

universe u

variable {α : Type u}

/-- The node so many steps up, or the root. -/
def climb (parent : α → Option α) (steps : Nat) (a : α) : α :=
  (fun b => (parent b).getD b)^[steps] a

/-- A jump for each bit of the number. -/
def liftBits (jump : Nat → α → α) (steps levels : Nat) (a : α) : α :=
  (List.range levels).foldl (fun b level => if steps.testBit level then jump level b else b) a

/-- From the longest jump down, both nodes jump unless they meet. -/
def liftApart [DecidableEq α] (jump : Nat → α → α) (levels : Nat) (pair : α × α) : α × α :=
  (List.range levels).foldr (fun level pair =>
    if jump level pair.1 = jump level pair.2 then pair
    else (jump level pair.1, jump level pair.2)) pair

/-- The number of steps to the root. -/
structure IsDepth (parent : α → Option α) (depth : α → Nat) : Prop where
  root : ∀ {a}, parent a = none → depth a = 0
  child : ∀ {a p}, parent a = some p → depth a = depth p + 1

/-- The deepest node that is above both nodes. -/
structure IsLowest (parent : α → Option α) (a b c : α) : Prop where
  left : Below parent a c
  right : Below parent b c
  lowest : ∀ d, Below parent a d → Below parent b d → Below parent c d

variable {parent : α → Option α} {depth : α → Nat} {a b c p : α} {k m n : Nat}

/-! ## Climbing -/

theorem climb_add (m n : Nat) (a : α) :
    climb parent (m + n) a = climb parent m (climb parent n a) :=
  iterate_add_apply _ _ _ _

theorem climb_root (h : parent a = none) (k : Nat) : climb parent k a = a := by
  apply iterate_fixed
  rw [h]
  rfl

theorem climb_child (h : parent a = some p) (k : Nat) :
    climb parent (k + 1) a = climb parent k p := by
  rw [climb, iterate_succ_apply, h]
  rfl

theorem below_climb (k : Nat) (a : α) : Below parent a (climb parent k a) := by
  induction k generalizing a with
  | zero => exact .refl
  | succ k ih =>
    cases hp : parent a with
    | none => rw [climb_root hp]
    | some p => exact .head hp (climb_child hp k ▸ ih p)

theorem climb_congr_of_le (h : climb parent m a = climb parent m b) (hmn : m ≤ n) :
    climb parent n a = climb parent n b := by
  obtain ⟨k, rfl⟩ := Nat.exists_eq_add_of_le' hmn
  rw [climb_add, climb_add, h]

section Depth

variable (hdepth : IsDepth parent depth)

include hdepth

theorem depth_climb (k : Nat) (a : α) : depth (climb parent k a) = depth a - k := by
  induction k generalizing a with
  | zero => rfl
  | succ k ih =>
    cases hp : parent a with
    | none => rw [climb_root hp, hdepth.root hp, Nat.zero_sub]
    | some p =>
      rw [climb_child hp, ih, hdepth.child hp]
      omega

/-- What is above a node is found by climbing the difference of the depths. -/
theorem climb_of_below (h : Below parent a b) :
    depth b ≤ depth a ∧ climb parent (depth a - depth b) a = b := by
  induction h using Relation.ReflTransGen.head_induction_on with
  | refl => exact ⟨le_rfl, by rw [Nat.sub_self]; rfl⟩
  | head hup _ ih =>
    rw [hdepth.child hup]
    refine ⟨ih.1.trans (Nat.le_succ _), ?_⟩
    rw [Nat.succ_sub ih.1, climb_child hup]
    exact ih.2

theorem below_antisymm (hab : Below parent a b) (hba : Below parent b a) : a = b := by
  have hle := (climb_of_below hdepth hab).1
  have hclimb := (climb_of_below hdepth hba).2
  rw [Nat.sub_eq_zero_of_le hle] at hclimb
  exact hclimb.symm

/-- A node is less deep than there are nodes. -/
theorem depth_lt_card {nodes : Finset α} (h : ∀ k, climb parent k a ∈ nodes) :
    depth a < nodes.card := by
  have hinj : Set.InjOn (climb parent · a) (Finset.range (depth a + 1)) := by
    intro i hi j hj heq
    have hdeep := congrArg depth heq
    rw [depth_climb hdepth, depth_climb hdepth] at hdeep
    rw [Finset.coe_range, Set.mem_Iio] at hi hj
    omega
  have hle := Finset.card_le_card_of_injOn _ (fun k _ => h k) hinj
  rwa [Finset.card_range] at hle

theorem IsLowest.unique {c' : α} (h : IsLowest parent a b c) (h' : IsLowest parent a b c') :
    c = c' :=
  below_antisymm hdepth (h.lowest c' h'.left h'.right) (h'.lowest c h.left h.right)

end Depth

/-! ## Jumps -/

section Jumps

variable {jump : Nat → α → α} {levels : Nat}

theorem liftBits_eq (hjump : ∀ level < levels, ∀ a, jump level a = climb parent (2 ^ level) a)
    (hk : k < 2 ^ levels) (a : α) : liftBits jump k levels a = climb parent k a := by
  have key : ∀ m ≤ levels, liftBits jump k m a = climb parent (k % 2 ^ m) a := by
    intro m
    induction m with
    | zero => exact fun _ => by rw [pow_zero, Nat.mod_one]; rfl
    | succ m ih =>
      intro hm
      have hstep : liftBits jump k (m + 1) a =
          if k.testBit m then jump m (liftBits jump k m a) else liftBits jump k m a := by
        rw [liftBits, range_succ, foldl_append]
        rfl
      rw [hstep, ih (by omega), Nat.mod_pow_succ, ← Nat.toNat_testBit]
      cases k.testBit m with
      | false => simp
      | true =>
        rw [if_pos rfl, hjump m (by omega), ← climb_add, Bool.toNat_true, Nat.mul_one, Nat.add_comm]
  rw [key levels le_rfl, Nat.mod_eq_of_lt hk]

/-- The jumps stop one step before the nodes meet. -/
theorem liftApart_eq [DecidableEq α]
    (hjump : ∀ level < levels, ∀ a, jump level a = climb parent (2 ^ level) a) (hk : k < 2 ^ levels)
    (hapart : climb parent k a ≠ climb parent k b)
    (hmeet : climb parent (k + 1) a = climb parent (k + 1) b) :
    liftApart jump levels (a, b) = (climb parent k a, climb parent k b) := by
  induction levels generalizing k a b with
  | zero =>
    obtain rfl : k = 0 := by simpa using hk
    rfl
  | succ levels ih =>
    have hstep : liftApart jump (levels + 1) (a, b) = liftApart jump levels
        (if jump levels a = jump levels b then (a, b) else (jump levels a, jump levels b)) := by
      rw [liftApart, range_succ, foldr_append]
      rfl
    have hlower := fun level (hlevel : level < levels) => hjump level (hlevel.trans (by omega))
    rw [hstep, hjump levels (by omega), hjump levels (by omega)]
    rw [pow_succ] at hk
    rcases lt_or_ge k (2 ^ levels) with hlt | hge
    · rw [if_pos (climb_congr_of_le hmeet hlt)]
      exact ih hlower hlt hapart hmeet
    · obtain ⟨rest, rfl⟩ := Nat.exists_eq_add_of_le' hge
      rw [Nat.add_right_comm, climb_add (rest + 1), climb_add (rest + 1)] at hmeet
      rw [climb_add, climb_add] at hapart
      rw [if_neg (fun heq => hapart (by rw [heq])), ih hlower (by omega) hapart hmeet,
        ← climb_add, ← climb_add]

end Jumps

/-! ## Common ancestors -/

section Lowest

/-- A node and one above it. -/
theorem isLowest_of_below (h : Below parent a b) : IsLowest parent a b b :=
  ⟨h, .refl, fun _ _ hb => hb⟩

variable (hdepth : IsDepth parent depth)

include hdepth

/-- The common ancestors do not change when the deeper node climbs to the depth of the other. -/
theorem isLowest_climb (hle : depth b ≤ depth a)
    (h : IsLowest parent (climb parent (depth a - depth b) a) b c) : IsLowest parent a b c := by
  refine ⟨(below_climb _ a).trans h.left, h.right, fun d ha hb => h.lowest d ?_ hb⟩
  obtain ⟨hda, hclimb⟩ := climb_of_below hdepth ha
  have hdb := (climb_of_below hdepth hb).1
  have hsplit : depth a - depth d = depth b - depth d + (depth a - depth b) := by omega
  rw [hsplit, climb_add] at hclimb
  exact hclimb ▸ below_climb _ _

/-- Two nodes of one depth are apart before they meet, and the first common node is the lowest. -/
theorem exists_meeting [DecidableEq α] (heq : depth a = depth b) (hne : a ≠ b)
    (hcommon : ∃ r, Below parent a r ∧ Below parent b r) :
    ∃ k c, k < depth a ∧ climb parent k a ≠ climb parent k b ∧
      climb parent (k + 1) a = climb parent (k + 1) b ∧ parent (climb parent k a) = some c ∧
      IsLowest parent a b c := by
  obtain ⟨r, har, hbr⟩ := hcommon
  obtain ⟨hra, har⟩ := climb_of_below hdepth har
  obtain ⟨-, hbr⟩ := climb_of_below hdepth hbr
  rw [← heq] at hbr
  have hex : ∃ m, climb parent m a = climb parent m b := ⟨_, har.trans hbr.symm⟩
  -- the first number of steps after which they meet
  obtain ⟨hmeet, hfirst⟩ : climb parent (Nat.find hex) a = climb parent (Nat.find hex) b ∧
      ∀ m < Nat.find hex, climb parent m a ≠ climb parent m b :=
    ⟨Nat.find_spec hex, fun m hm => Nat.find_min hex hm⟩
  have hle : Nat.find hex ≤ depth a - depth r := Nat.find_min' hex (har.trans hbr.symm)
  cases hk : Nat.find hex with
  | zero =>
    rw [hk] at hmeet
    exact absurd hmeet hne
  | succ k =>
    rw [hk] at hmeet hfirst hle
    have hstep : ∀ x : α, climb parent (k + 1) x = (parent (climb parent k x)).getD
        (climb parent k x) := fun x => iterate_succ_apply' _ _ _
    cases hp : parent (climb parent k a) with
    | none =>
      have hdeep := depth_climb hdepth k a
      rw [hdepth.root hp] at hdeep
      omega
    | some c =>
      have hc : climb parent (k + 1) a = c := by rw [hstep, hp]; rfl
      refine ⟨k, c, by omega, hfirst k (Nat.lt_succ_self k), hmeet, hp, ?_⟩
      refine ⟨hc ▸ below_climb _ a, hc ▸ hmeet ▸ below_climb _ b, fun d ha hb => ?_⟩
      obtain ⟨-, had⟩ := climb_of_below hdepth ha
      obtain ⟨-, hbd⟩ := climb_of_below hdepth hb
      rw [← heq] at hbd
      have hlater : k + 1 ≤ depth a - depth d := by
        by_contra hlt
        exact hfirst _ (not_le.mp hlt) (had.trans hbd.symm)
      obtain ⟨rest, hrest⟩ := Nat.exists_eq_add_of_le' hlater
      rw [hrest, climb_add, hc] at had
      exact had ▸ below_climb _ _

end Lowest

end ItemDependencies.Library
