import Mathlib.Algebra.Group.Nat.Defs
import Mathlib.Order.Lattice

/-!
# Readable encodings

An encoding is readable when what it emits can be told from whatever follows: two values with
their continuations give the same symbols only if both the values and the continuations agree.
Encodings are put together from fixed-width fields, from fields that follow each other, where the
first may decide how the second is encoded, and from counted lists.
-/

namespace ItemDependencies.Library

open List

universe u v w

variable {α : Type u} {β : Type v} {γ : Type w}

/-- On the admissible values the encoding ends where the value ends. -/
def Readable (admissible : α → Prop) (encode : α → List β) : Prop :=
  ∀ a b s t, admissible a → admissible b → encode a ++ s = encode b ++ t → a = b ∧ s = t

variable {p q : α → Prop} {encode : α → List β}

/-- A field of fixed width. -/
theorem Readable.fixed {n : Nat} (hlength : ∀ a, p a → (encode a).length = n)
    (hinjective : ∀ a b, p a → p b → encode a = encode b → a = b) : Readable p encode := by
  intro a b s t ha hb h
  obtain ⟨hab, hst⟩ := append_inj h ((hlength a ha).trans (hlength b hb).symm)
  exact ⟨hinjective a b ha hb hab, hst⟩

/-- A value is read through an injective image of it. -/
theorem Readable.map {admissible : γ → Prop} {emit : γ → List β} (h : Readable admissible emit)
    {f : α → γ} (hf : ∀ a, p a → admissible (f a))
    (hinjective : ∀ a b, p a → p b → f a = f b → a = b) : Readable p fun a => emit (f a) := by
  intro a b s t ha hb heq
  obtain ⟨hab, hst⟩ := h (f a) (f b) s t (hf a ha) (hf b hb) heq
  exact ⟨hinjective a b ha hb hab, hst⟩

/-- One field after another.  The rest is read once the first field is known. -/
theorem Readable.after {admissible : γ → Prop} {emit : γ → List β} {rest : α → List β}
    (h : Readable admissible emit) {f : α → γ} (hf : ∀ a, p a → admissible (f a))
    (hrest : ∀ c, Readable (fun a => p a ∧ f a = c) rest) :
    Readable p fun a => emit (f a) ++ rest a := by
  intro a b s t ha hb heq
  rw [append_assoc, append_assoc] at heq
  obtain ⟨hab, hrests⟩ := h (f a) (f b) _ _ (hf a ha) (hf b hb) heq
  exact hrest (f b) a b s t ⟨ha, hab⟩ ⟨hb, rfl⟩ hrests

/-- The values of a list one after the other, if their number is known. -/
theorem Readable.flatMap (h : Readable p encode) (n : Nat) :
    Readable (fun l : List α => (∀ a ∈ l, p a) ∧ l.length = n) fun l => l.flatMap encode := by
  induction n with
  | zero =>
    intro l l' s t hl hl' heq
    obtain rfl := length_eq_zero_iff.mp hl.2
    obtain rfl := length_eq_zero_iff.mp hl'.2
    exact ⟨rfl, heq⟩
  | succ n ih =>
    intro l l' s t hl hl' heq
    obtain ⟨a, l, rfl⟩ := exists_cons_of_length_eq_add_one hl.2
    obtain ⟨b, l', rfl⟩ := exists_cons_of_length_eq_add_one hl'.2
    rw [forall_mem_cons, length_cons, Nat.add_right_cancel_iff] at hl hl'
    dsimp only at heq
    rw [flatMap_cons, flatMap_cons, append_assoc, append_assoc] at heq
    obtain ⟨rfl, hrests⟩ := h a b _ _ hl.1.1 hl'.1.1 heq
    obtain ⟨rfl, hst⟩ := ih l l' s t ⟨hl.1.2, hl.2⟩ ⟨hl'.1.2, hl'.2⟩ hrests
    exact ⟨rfl, hst⟩

/-! ## The order of encoded values -/

section Order

variable [LinearOrder β] {l l' s t : List β}

theorem append_lt_append_left_iff : l ++ s < l ++ t ↔ s < t := by
  induction l with
  | nil => rfl
  | cons a l ih =>
    rw [cons_append, cons_append, cons_lt_cons_iff, ih]
    simp

/-- Lists neither of which begins the other are compared at the first difference. -/
theorem append_lt_append_of_ne (h : ∀ u v, l ++ u ≠ l' ++ v) : l ++ s < l' ++ t ↔ l < l' := by
  induction l generalizing l' with
  | nil => exact absurd (append_nil l').symm (h l' [])
  | cons a l ih =>
    cases l' with
    | nil => exact absurd (append_nil _) (h [] (a :: l))
    | cons b l' =>
      rw [cons_append, cons_append, cons_lt_cons_iff, cons_lt_cons_iff]
      by_cases hab : a = b
      · subst hab
        rw [ih fun u v huv => h u v (congrArg (a :: ·) huv)]
      · simp [hab]

end Order

/-! ## Numbers -/

/-- The lowest bytes of a number, the lowest first. -/
def leBytes : Nat → Nat → List UInt8
  | 0, _ => []
  | width + 1, n => UInt8.ofNat n :: leBytes width (n / 256)

@[simp]
theorem length_leBytes (width n : Nat) : (leBytes width n).length = width := by
  induction width generalizing n with
  | zero => rfl
  | succ width ih => rw [leBytes, length_cons, ih]

theorem leBytes_injective {width m n : Nat} (hm : m < 256 ^ width) (hn : n < 256 ^ width)
    (h : leBytes width m = leBytes width n) : m = n := by
  induction width generalizing m n with
  | zero =>
    rw [Nat.pow_zero, Nat.lt_one_iff] at hm hn
    rw [hm, hn]
  | succ width ih =>
    rw [leBytes, leBytes, List.cons.injEq] at h
    have hlow : m % 256 = n % 256 := by
      have hbyte := congrArg UInt8.toNat h.1
      rwa [UInt8.toNat_ofNat', UInt8.toNat_ofNat'] at hbyte
    have hdiv : ∀ {k}, k < 256 ^ (width + 1) → k / 256 < 256 ^ width := fun hk =>
      Nat.div_lt_of_lt_mul (by rwa [Nat.pow_succ, Nat.mul_comm] at hk)
    have hhigh := ih (hdiv hm) (hdiv hn) h.2
    rw [← Nat.div_add_mod m 256, ← Nat.div_add_mod n 256, hlow, hhigh]

theorem readable_leBytes (width : Nat) : Readable (· < 256 ^ width) (leBytes width) :=
  .fixed (fun n _ => length_leBytes width n) fun _ _ => leBytes_injective

end ItemDependencies.Library
