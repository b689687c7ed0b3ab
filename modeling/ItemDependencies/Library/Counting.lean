import Mathlib.Data.Finset.Insert

/-!
# Counters of missing facts

An incremental computation often keeps, instead of a set of facts that are
still missing, their number.  The lemmas below say how such a number changes
when one fact arrives.
-/

namespace ItemDependencies.Library

open List

universe u

variable {α : Type u} {l : List α}

/-- Counting with two predicates that agree but for one element. -/
theorem countP_agree [DecidableEq α] (hl : l.Nodup) {p q : α → Bool} {a : α}
    (h : ∀ b ∈ l, b ≠ a → p b = q b) :
    l.countP p + (if a ∈ l ∧ q a = true then 1 else 0) =
      l.countP q + (if a ∈ l ∧ p a = true then 1 else 0) := by
  induction l with
  | nil => simp
  | cons b l ih =>
    obtain ⟨hb, hl⟩ := nodup_cons.mp hl
    have ih := ih hl fun d hd => h d (mem_cons_of_mem _ hd)
    simp only [countP_cons, mem_cons]
    by_cases hba : b = a
    · subst hba
      simp only [hb, false_and, if_false, true_or, true_and] at ih ⊢
      omega
    · have hab : a ≠ b := fun h => hba h.symm
      simp only [hab, false_or, h b (by simp) hba]
      omega

/-- One element less is missing from a set. -/
theorem countP_notMem_insert [DecidableEq α] (hl : l.Nodup) {s : Finset α} {a : α} (ha : a ∉ s) :
    l.countP (fun b => b ∉ insert a s) = l.countP (fun b => b ∉ s) - if a ∈ l then 1 else 0 := by
  have := countP_agree hl (p := fun b => decide (b ∉ insert a s)) (q := fun b => decide (b ∉ s))
    (a := a) fun b _ hb => by simp [hb]
  simp only [ha, not_false_eq_true, decide_true, and_true, Finset.mem_insert_self,
    not_true_eq_false, decide_false, Bool.false_eq_true, and_false, if_false, Nat.add_zero] at this
  omega

/-- Inserting an element of a list leaves fewer of its elements out of a set. -/
theorem countP_notMem_lt [DecidableEq α] {s : Finset α} {a : α} (hl : a ∈ l) (ha : a ∉ s) :
    l.countP (fun b => b ∉ insert a s) < l.countP (fun b => b ∉ s) := by
  obtain ⟨before, after, rfl⟩ := append_of_mem hl
  have hmono : ∀ l : List α, l.countP (fun b => b ∉ insert a s) ≤ l.countP (fun b => b ∉ s) :=
    fun l => countP_mono_left fun b _ hb => by
      simp only [Finset.mem_insert, not_or, decide_eq_true_eq] at hb ⊢
      exact hb.2
  have h₁ := hmono before
  have h₂ := hmono after
  simp only [countP_append, countP_cons, Finset.mem_insert_self, not_true_eq_false,
    decide_false, Bool.false_eq_true, if_false, ha, not_false_eq_true, decide_true, if_true]
  omega

/-! ## Totals -/

/-- The total of a function over a list. -/
def total (f : α → Nat) (l : List α) : Nat := l.foldr (fun a n => f a + n) 0

theorem total_congr {f g : α → Nat} (h : ∀ a ∈ l, f a = g a) : total f l = total g l := by
  induction l with
  | nil => rfl
  | cons a l ih =>
    rw [total, foldr_cons, h a (by simp)]
    exact congrArg _ (ih fun b hb => h b (mem_cons_of_mem a hb))

/-- Some values have become smaller by one. -/
theorem total_sub [DecidableEq α] (hl : l.Nodup) {f : α → Nat} {items : List α}
    (hitems : items.Nodup) (hmem : ∀ a ∈ items, a ∈ l) (hpos : ∀ a ∈ items, 0 < f a) :
    total (fun a => f a - if a ∈ items then 1 else 0) l + items.length = total f l := by
  induction items generalizing f with
  | nil => simp
  | cons a items ih =>
    obtain ⟨hnot, hitems⟩ := nodup_cons.mp hitems
    have hfirst : ∀ l : List α, l.Nodup → a ∈ l →
        total (fun b => f b - if b = a then 1 else 0) l + 1 = total f l := by
      intro l
      induction l with
      | nil => simp
      | cons b l ih =>
        intro hl hal
        obtain ⟨hb, hl⟩ := nodup_cons.mp hl
        have hcons : ∀ g : α → Nat, total g (b :: l) = g b + total g l := fun _ => rfl
        rw [hcons, hcons]
        by_cases hba : b = a
        · subst hba
          have hsame : total (fun d => f d - if d = b then 1 else 0) l = total f l :=
            total_congr fun d hd => by
              have hdb : d ≠ b := fun h => hb (h ▸ hd)
              simp [hdb]
          have hp := hpos b (by simp)
          simp only [if_true, hsame]
          omega
        · have := ih hl ((mem_cons.mp hal).resolve_left fun h => hba h.symm)
          simp only [hba, if_false]
          omega
    have hrest := ih (f := fun b => f b - if b = a then 1 else 0) hitems
      (fun b hb => hmem b (by simp [hb])) fun b hb => by
        have hba : b ≠ a := fun h => hnot (h ▸ hb)
        simpa [hba] using hpos b (by simp [hb])
    have heq : total (fun b => f b - if b ∈ a :: items then 1 else 0) l =
        total (fun b => (f b - if b = a then 1 else 0) - if b ∈ items then 1 else 0) l :=
      total_congr fun b _ => by
        by_cases hba : b = a
        · subst hba
          simp [hnot]
        · simp [hba]
    have := hfirst l hl (hmem a (by simp))
    rw [heq, length_cons]
    omega

/-- Subtracting one at a first item and then at others. -/
theorem update_pred_sub [DecidableEq α] {items : List α} {a : α} (h : a ∉ items) (f : α → Nat) :
    (fun b => Function.update f a (f a - 1) b - if b ∈ items then 1 else 0) =
      fun b => f b - if b ∈ a :: items then 1 else 0 := by
  funext b
  by_cases hb : b = a
  · subst hb
    simp [h]
  · simp [hb]

variable {κ : Type u} [DecidableEq α] [DecidableEq κ]

/-- One more fact has arrived. -/
theorem countP_arrived (hl : l.Nodup) {f : κ → Bool} (key : α → κ) (hkey : Function.Injective key)
    {a : α} (ha : f (key a) = false) :
    l.countP (fun b => Function.update f (key a) true (key b)) =
      l.countP (fun b => f (key b)) + if a ∈ l then 1 else 0 := by
  have := countP_agree hl (p := fun b => Function.update f (key a) true (key b))
    (q := fun b => f (key b)) (a := a) fun b _ hb => Function.update_of_ne
        (fun h => hb (hkey h)) _ _
  simpa [ha] using this

/-- One fact less is missing. -/
theorem countP_missing (hl : l.Nodup) {f : κ → Bool} (key : α → κ) (hkey : Function.Injective key)
    {a : α} (ha : f (key a) = false) :
    l.countP (fun b => !Function.update f (key a) true (key b)) =
      l.countP (fun b => !f (key b)) - if a ∈ l then 1 else 0 := by
  have h₁ := countP_arrived hl key hkey ha
  have h₂ := l.length_eq_countP_add_countP fun b => f (key b)
  have h₃ := l.length_eq_countP_add_countP fun b => Function.update f (key a) true (key b)
  simp only [Bool.not_eq_true, Bool.decide_eq_false] at h₂ h₃
  omega

/-! ## Counts of prefixes -/

section Prefixes

variable {β : Type u} {p : β → Bool} {l : List β} {i j : Nat}

theorem foldl_count (c : Nat) :
    l.foldl (fun count a => count + if p a then 1 else 0) c = c + l.countP p := by
  induction l generalizing c with
  | nil => rfl
  | cons a l ih =>
    rw [foldl_cons, ih, countP_cons]
    omega

theorem getElem?_scanl_count (hi : i ≤ l.length) :
    (l.scanl (fun count a => count + if p a then 1 else 0) 0)[i]? = some ((l.take i).countP p) := by
  rw [getElem?_scanl, if_pos hi, foldl_count, Nat.zero_add]

/-- Two prefixes have the same count if and only if nothing in between is counted. -/
theorem scanl_count_eq_iff (hij : i ≤ j) (hj : j ≤ l.length) :
    (l.scanl (fun count a => count + if p a then 1 else 0) 0)[j]? =
        (l.scanl (fun count a => count + if p a then 1 else 0) 0)[i]? ↔
      ∀ k a, i ≤ k → k < j → l[k]? = some a → p a = false := by
  obtain ⟨d, rfl⟩ := Nat.exists_eq_add_of_le hij
  rw [getElem?_scanl_count hj, getElem?_scanl_count (hij.trans hj), Option.some.injEq,
    take_add, countP_append, Nat.add_eq_left, countP_eq_zero]
  constructor
  · intro h k a hk hkd hget
    refine Bool.eq_false_iff.mpr (h a (mem_of_getElem? (i := k - i) ?_))
    rw [getElem?_take_of_lt (by omega), getElem?_drop, Nat.add_sub_cancel' hk, hget]
  · intro h a ha
    obtain ⟨k, hk⟩ := getElem?_of_mem ha
    rw [getElem?_take] at hk
    obtain ⟨hlt, hget⟩ := Option.ite_none_right_eq_some.mp hk
    rw [getElem?_drop] at hget
    exact Bool.eq_false_iff.mp (h (i + k) a (by omega) (by omega) hget)

end Prefixes

end ItemDependencies.Library
