import Mathlib.Data.Finset.Max
import Mathlib.Data.List.Destutter
import Mathlib.Data.List.Sort

/-!
# Finite sets in ascending order

An ordered set of the modelled program is a `Finset`; going through it in order
is going through `ascending`.  `Finset.sort` has the same elements in the same
order, but it is defined by merge sort, which does not reduce in the kernel.
-/

namespace ItemDependencies.Library

open List

universe u

variable {α : Type u} [LinearOrder α]

/-- The elements of a finite set in ascending order. -/
def ascending (s : Finset α) : List α :=
  Quot.lift (List.insertionSort (· ≤ ·))
    (fun a b (h : a.Perm b) =>
      ((a.perm_insertionSort (· ≤ ·)).trans
        (h.trans (b.perm_insertionSort (· ≤ ·)).symm)).eq_of_pairwise'
        (pairwise_insertionSort _ _) (pairwise_insertionSort _ _)) s.val

/-- Sorting a list and dropping repeated elements. -/
def sortDedup (l : List α) : List α := ascending l.toFinset

theorem ascending_coe (s : Finset α) : (ascending s : Multiset α) = s.val := by
  obtain ⟨m, hm⟩ := s
  induction m using Quot.induction_on with
  | h l => exact Quot.sound (l.perm_insertionSort (· ≤ ·))

@[simp] theorem mem_ascending {s : Finset α} {a : α} : a ∈ ascending s ↔ a ∈ s := by
  rw [← Finset.mem_val, ← ascending_coe, Multiset.mem_coe]

theorem nodup_ascending (s : Finset α) : (ascending s).Nodup := by
  rw [← Multiset.coe_nodup, ascending_coe]
  exact s.nodup

theorem pairwise_ascending (s : Finset α) : (ascending s).Pairwise (· ≤ ·) := by
  obtain ⟨m, hm⟩ := s
  induction m using Quot.induction_on with
  | h l => exact pairwise_insertionSort _ _

@[simp] theorem length_ascending (s : Finset α) : (ascending s).length = s.card := by
  rw [← Multiset.coe_card, ascending_coe, Finset.card_val]

@[simp] theorem toFinset_ascending (s : Finset α) : (ascending s).toFinset = s := by
  ext a
  simp

@[simp] theorem mem_sortDedup {l : List α} {a : α} : a ∈ sortDedup l ↔ a ∈ l := by
  simp [sortDedup]

theorem nodup_sortDedup (l : List α) : (sortDedup l).Nodup := nodup_ascending _

theorem pairwise_lt_ascending (s : Finset α) : (ascending s).Pairwise (· < ·) :=
  ((pairwise_ascending s).and (nodup_ascending s)).imp fun h => lt_of_le_of_ne h.1 h.2

theorem pairwise_sortDedup (l : List α) : (sortDedup l).Pairwise (· < ·) :=
  pairwise_lt_ascending _

theorem head?_ascending_eq_none {s : Finset α} : (ascending s).head? = none ↔ s = ∅ := by
  rw [head?_eq_none_iff, ← length_eq_zero_iff, length_ascending, Finset.card_eq_zero]

/-- The first element is the least one. -/
theorem head?_ascending {s : Finset α} {a : α} (h : (ascending s).head? = some a) :
    a ∈ s ∧ ∀ b ∈ s, a ≤ b := by
  obtain ⟨rest, hrest⟩ := head?_eq_some_iff.mp h
  refine ⟨mem_ascending.mp (mem_of_head? h), fun b hb => ?_⟩
  have hsorted := pairwise_ascending s
  have hmem := mem_ascending.mpr hb
  rw [hrest] at hsorted hmem
  rcases mem_cons.mp hmem with rfl | hmem
  · exact le_rfl
  · exact (pairwise_cons.mp hsorted).1 b hmem

/-- Sorting a list without repeated elements. -/
theorem insertionSort_eq_sortDedup {l l' : List α} (hnodup : l.Nodup) (h : ∀ a, a ∈ l ↔ a ∈ l') :
    l.insertionSort (· ≤ ·) = sortDedup l' := by
  have hperm : (l.insertionSort (· ≤ ·)).Perm (sortDedup l') := by
    refine (l.perm_insertionSort _).trans ?_
    refine (perm_ext_iff_of_nodup hnodup (nodup_sortDedup _)).mpr fun a => ?_
    exact (h a).trans mem_sortDedup.symm
  exact hperm.eq_of_pairwise' (pairwise_insertionSort _ _) (pairwise_ascending _)

/-- A strictly sorted list is determined by its elements. -/
theorem eq_sortDedup {l l' : List α} (hsorted : l.Pairwise (· < ·)) (h : ∀ a, a ∈ l ↔ a ∈ l') :
    l = sortDedup l' := by
  have hperm : l.Perm (sortDedup l') :=
    (perm_ext_iff_of_nodup (hsorted.imp ne_of_lt) (nodup_sortDedup _)).mpr fun a =>
      (h a).trans mem_sortDedup.symm
  exact hperm.eq_of_pairwise' (hsorted.imp le_of_lt) (pairwise_ascending _)

theorem eq_ascending {l : List α} {s : Finset α} (hsorted : l.Pairwise (· < ·))
    (h : ∀ a, a ∈ l ↔ a ∈ s) : l = ascending s := by
  refine (eq_sortDedup hsorted fun a => (h a).trans mem_ascending.symm).trans ?_
  rw [sortDedup, toFinset_ascending]

@[simp] theorem toFinset_sortDedup (l : List α) : (sortDedup l).toFinset = l.toFinset := by
  simp [sortDedup]

/-- Sorting by a key. -/
theorem pairwise_insertionSort_key {β : Type*} (key : β → α) (l : List β) :
    (l.insertionSort fun a b => key a ≤ key b).Pairwise fun a b => key a ≤ key b := by
  have htotal : Std.Total fun a b : β => key a ≤ key b := ⟨fun a b => le_total _ _⟩
  have htrans : IsTrans β fun a b => key a ≤ key b := ⟨fun a b c => le_trans⟩
  exact pairwise_insertionSort (fun a b => key a ≤ key b) l

/-- Sorting by a key that tells the elements apart does not depend on their order. -/
theorem insertionSort_key_perm {β : Type*} (key : β → α) {l l' : List β} (h : l.Perm l')
    (hkey : ∀ a ∈ l, ∀ b ∈ l, key a = key b → a = b) :
    (l.insertionSort fun a b => key a ≤ key b) = l'.insertionSort fun a b => key a ≤ key b := by
  have hsorted := perm_insertionSort (fun a b => key a ≤ key b) l
  have hsorted' := perm_insertionSort (fun a b => key a ≤ key b) l'
  refine List.Perm.eq_of_pairwise (fun a b ha hb hab hba => ?_) (pairwise_insertionSort_key key l)
    (pairwise_insertionSort_key key l') (hsorted.trans (h.trans hsorted'.symm))
  exact hkey a (hsorted.mem_iff.mp ha) b (h.mem_iff.mpr (hsorted'.mem_iff.mp hb))
    (le_antisymm hab hba)

/-- Lists in strict order of their keys are known from their elements. -/
theorem eq_of_pairwise_key_lt {β : Type*} (key : β → α) {l l' : List β}
    (hsorted : l.Pairwise fun a b => key a < key b)
    (hsorted' : l'.Pairwise fun a b => key a < key b)
    (h : ∀ a, a ∈ l ↔ a ∈ l') : l = l' := by
  have hnodup : ∀ {l : List β}, (l.Pairwise fun a b => key a < key b) → l.Nodup := fun h =>
    h.imp fun hlt heq => absurd (congrArg key heq) hlt.ne
  have hperm : l.Perm l' := (perm_ext_iff_of_nodup (hnodup hsorted) (hnodup hsorted')).mpr h
  exact hperm.eq_of_pairwise (fun a b _ _ hab hba => absurd hab hba.not_gt) hsorted hsorted'

section Runs

variable {β : Type*} [DecidableEq β] {key : β → α} {l : List β}

theorem destutter'_sorted {first : β} (hsorted : (first :: l).Pairwise fun a b => key a ≤ key b)
    (hkey : ∀ a ∈ first :: l, ∀ b ∈ first :: l, key a = key b → a = b) :
    (l.destutter' (· ≠ ·) first).Pairwise (fun a b => key a < key b) ∧
      ∀ x, x ∈ l.destutter' (· ≠ ·) first ↔ x ∈ first :: l := by
  induction l generalizing first with
  | nil => simp
  | cons second l ih =>
    obtain ⟨hfirst, hrest⟩ := pairwise_cons.mp hsorted
    by_cases hne : first ≠ second
    · rw [destutter'_cons_pos _ hne]
      obtain ⟨hstrict, hmem⟩ := ih hrest fun a ha b hb =>
        hkey a (mem_cons_of_mem _ ha) b (mem_cons_of_mem _ hb)
      have hlt : key first < key second :=
        lt_of_le_of_ne (hfirst second mem_cons_self) fun heq => hne (hkey first
          mem_cons_self second (mem_cons_of_mem _ mem_cons_self) heq)
      refine ⟨pairwise_cons.mpr ⟨fun x hx => ?_, hstrict⟩, fun x => ?_⟩
      · rcases mem_cons.mp ((hmem x).mp hx) with rfl | hx
        · exact hlt
        · exact hlt.trans_le ((pairwise_cons.mp hrest).1 x hx)
      · rw [mem_cons, hmem, mem_cons (a := x) (l := second :: l)]
    · obtain rfl := not_not.mp hne
      rw [destutter'_cons_neg _ hne]
      obtain ⟨hstrict, hmem⟩ := ih hrest fun a ha b hb =>
        hkey a (mem_cons_of_mem _ ha) b (mem_cons_of_mem _ hb)
      exact ⟨hstrict, fun x => by simp [hmem x]⟩

/-- A sorted list in which equal elements that follow each other are dropped. -/
theorem destutter_sorted (hsorted : l.Pairwise fun a b => key a ≤ key b)
    (hkey : ∀ a ∈ l, ∀ b ∈ l, key a = key b → a = b) :
    (l.destutter (· ≠ ·)).Pairwise (fun a b => key a < key b) ∧
      ∀ x, x ∈ l.destutter (· ≠ ·) ↔ x ∈ l := by
  cases l with
  | nil => exact ⟨.nil, fun x => Iff.rfl⟩
  | cons first l => exact destutter'_sorted hsorted hkey

end Runs

/-- Places in an ascending list. -/
theorem getElem?_lt_iff {l : List α} (h : l.Pairwise (· < ·)) {i j : Nat} {a b : α}
    (ha : l[i]? = some a) (hb : l[j]? = some b) : i < j ↔ a < b := by
  obtain ⟨hi, rfl⟩ := List.getElem?_eq_some_iff.mp ha
  obtain ⟨hj, rfl⟩ := List.getElem?_eq_some_iff.mp hb
  have hlt := pairwise_iff_getElem.mp h
  refine ⟨hlt i j hi hj, fun hab => ?_⟩
  rcases lt_trichotomy i j with hij | rfl | hji
  · exact hij
  · exact absurd hab (lt_irrefl _)
  · exact absurd (hlt j i hj hi hji) hab.asymm

end ItemDependencies.Library
