import ItemDependencies.Library.Fallible
import Mathlib.Order.Basic

/-!
# Bounded loops

A `while` loop of an imperative program, as a function of its loop state.  A
round limit makes the definition structurally recursive, so that it can be
evaluated; the rules below say that a limit given by a decreasing measure is
never the reason why the loop ends.

`whileDo` is a loop whose body cannot fail, `whileTry` one whose body may leave
the loop with an error.
-/

namespace ItemDependencies.Library

universe u v w

variable {σ : Type u} {ε : Type v} {P : σ → Prop}

/-- `while busy { body }`, for at most the given number of rounds. -/
def whileDo (busy : σ → Bool) (body : σ → σ) : Nat → σ → σ
  | 0, s => s
  | limit + 1, s => if busy s then whileDo busy body limit (body s) else s

/-- `while busy { body? }`, for at most the given number of rounds. -/
def whileTry (busy : σ → Bool) (body : σ → Except ε σ) : Nat → σ → Except ε σ
  | 0, s => .ok s
  | limit + 1, s => if busy s then body s >>= whileTry busy body limit else .ok s

/-- The invariant rule: what one round preserves, the loop preserves. -/
theorem whileDo_induct {busy : σ → Bool} {body : σ → σ}
    (step : ∀ s, P s → busy s = true → P (body s)) (limit : Nat) {s : σ} (h : P s) :
    P (whileDo busy body limit s) := by
  induction limit generalizing s with
  | zero => exact h
  | succ limit ih =>
    rw [whileDo]
    split
    · rename_i hb
      exact ih (step s h hb)
    · exact h

/-- A loop whose limit is at least a decreasing measure ends because it is idle. -/
theorem whileDo_idle {busy : σ → Bool} {body : σ → σ} (μ : σ → Nat)
    (step : ∀ s, P s → busy s = true → P (body s))
    (dec : ∀ s, P s → busy s = true → μ (body s) < μ s) (limit : Nat) {s : σ} (h : P s)
    (hμ : μ s ≤ limit) : busy (whileDo busy body limit s) = false := by
  induction limit generalizing s with
  | zero =>
    rw [whileDo]
    by_contra hb
    have := dec s h (by simpa using hb)
    omega
  | succ limit ih =>
    rw [whileDo]
    split
    · rename_i hb
      have := dec s h hb
      exact ih (step s h hb) (by omega)
    · rename_i hb
      simpa using hb

/-- The total rule for a loop that may fail: with a limit that is at least a decreasing measure it
ends idle, or with the error of a round. -/
theorem whileTry_total {busy : σ → Bool} {body : σ → Except ε σ} {E : ε → σ → Prop} (μ : σ → Nat)
    (pos : ∀ s, P s → busy s = true → 0 < μ s)
    (step : ∀ s, P s → busy s = true → (∃ e, body s = .error e ∧ E e s) ∨
      ∃ t, body s = .ok t ∧ P t ∧ μ t < μ s)
    {limit : Nat} {s : σ} (h : P s) (hμ : μ s ≤ limit) :
    (∃ e t, whileTry busy body limit s = .error e ∧ P t ∧ E e t) ∨
      ∃ t, whileTry busy body limit s = .ok t ∧ P t ∧ busy t = false := by
  induction limit generalizing s with
  | zero =>
    refine Or.inr ⟨s, rfl, h, ?_⟩
    by_contra hb
    have := pos s h (by simpa using hb)
    omega
  | succ limit ih =>
    rw [whileTry]
    split
    · rename_i hb
      rcases step s h hb with ⟨e, hs, he⟩ | ⟨t, hs, ht, hlt⟩
      · exact Or.inl ⟨e, s, by rw [hs]; rfl, h, he⟩
      · rw [hs]
        exact ih ht (by omega)
    · rename_i hb
      exact Or.inr ⟨s, rfl, h, by simpa using hb⟩

/-! ## Counted rounds -/

/-- So many rounds of the loop lead from one state to the other. -/
def Rounds (busy : σ → Bool) (body : σ → Except ε σ) (n : Nat) (s t : σ) : Prop :=
  ∀ limit, whileTry busy body (n + limit) s = whileTry busy body limit t

section Counted

variable {busy : σ → Bool} {body : σ → Except ε σ} {m n : Nat} {s t u : σ}

theorem Rounds.refl : Rounds busy body 0 s s := fun limit => by rw [Nat.zero_add]

theorem Rounds.single (hb : busy s = true) (h : body s = .ok t) : Rounds busy body 1 s t := by
  intro limit
  rw [Nat.add_comm, whileTry, if_pos hb, h]
  rfl

theorem Rounds.trans (h : Rounds busy body m s t) (h' : Rounds busy body n t u) :
    Rounds busy body (m + n) s u := fun limit => by
  rw [Nat.add_assoc, h, h']

/-- A loop that becomes idle within its limit ends in this state. -/
theorem Rounds.run {limit : Nat} (h : Rounds busy body n s t) (hidle : busy t = false)
    (hn : n ≤ limit) : whileTry busy body limit s = .ok t := by
  obtain ⟨rest, rfl⟩ := Nat.exists_eq_add_of_le hn
  rw [h rest]
  cases rest with
  | zero => rfl
  | succ rest => rw [whileTry, hidle, if_neg Bool.false_ne_true]

end Counted

/-! ## Loops until nothing changes -/

/-- `while changed { changed = false; round? }`, where a round says whether it has changed the
state. Nothing is returned when the last of the allowed rounds has still changed it. -/
def untilStable (round : σ → Except ε (σ × Bool)) : Nat → σ → Option (Except ε σ)
  | 0, _ => none
  | limit + 1, s =>
    match round s with
    | .error e => some (.error e)
    | .ok (t, true) => untilStable round limit t
    | .ok (t, false) => some (.ok t)

/-- The total rule: when rounds that change something decrease a measure, there is a round that
fails or changes nothing, and the loop ends with it under every limit that is large enough. -/
theorem untilStable_total {round : σ → Except ε (σ × Bool)} (μ : σ → Nat)
    (step : ∀ s t, P s → round s = .ok (t, true) → P t ∧ μ t < μ s) {s : σ} (h : P s) :
    ∃ rounds, (∃ t e, P t ∧ round t = .error e ∧
        ∀ limit, rounds ≤ limit → untilStable round limit s = some (.error e)) ∨
      ∃ t t', P t ∧ round t = .ok (t', false) ∧
        ∀ limit, rounds ≤ limit → untilStable round limit s = some (.ok t') := by
  generalize hn : μ s = n
  induction n using Nat.strongRecOn generalizing s with
  | ind n ih =>
    have hsucc : ∀ limit, 1 ≤ limit → ∃ rest, limit = rest + 1 := fun limit hlimit =>
      ⟨limit - 1, (Nat.sub_add_cancel hlimit).symm⟩
    cases hround : round s with
    | error e =>
      refine ⟨1, .inl ⟨s, e, h, hround, fun limit hlimit => ?_⟩⟩
      obtain ⟨rest, rfl⟩ := hsucc limit hlimit
      rw [untilStable, hround]
    | ok result =>
      obtain ⟨t, changed⟩ := result
      cases changed with
      | false =>
        refine ⟨1, .inr ⟨s, t, h, hround, fun limit hlimit => ?_⟩⟩
        obtain ⟨rest, rfl⟩ := hsucc limit hlimit
        rw [untilStable, hround]
      | true =>
        obtain ⟨ht, hlt⟩ := step s t h hround
        have hnext : ∀ limit, untilStable round (limit + 1) s = untilStable round limit t :=
          fun limit => by rw [untilStable, hround]
        obtain ⟨rounds, hend⟩ := ih (μ t) (hn ▸ hlt) ht rfl
        refine ⟨rounds + 1, hend.imp ?_ ?_⟩
        · rintro ⟨u, e, hu, hfail, hrun⟩
          refine ⟨u, e, hu, hfail, fun limit hlimit => ?_⟩
          obtain ⟨rest, rfl⟩ := hsucc limit (Nat.one_le_of_lt hlimit)
          rw [hnext, hrun rest (Nat.le_of_succ_le_succ hlimit)]
        · rintro ⟨u, u', hu, hidle, hrun⟩
          refine ⟨u, u', hu, hidle, fun limit hlimit => ?_⟩
          obtain ⟨rest, rfl⟩ := hsucc limit (Nat.one_le_of_lt hlimit)
          rw [hnext, hrun rest (Nat.le_of_succ_le_succ hlimit)]

/-! ## Rounds of growing steps

A round applies one step for each element of a list.  When no step takes anything away, a round
that ends where it began has not moved at any step. -/

section Rounds

variable {α : Type w} [PartialOrder σ] {f : σ → α → σ}

theorem le_foldl (h : ∀ s a, s ≤ f s a) (l : List α) (s : σ) : s ≤ l.foldl f s := by
  induction l generalizing s with
  | nil => exact le_rfl
  | cons a l ih => exact (h s a).trans (ih (f s a))

theorem eq_of_foldl_le (h : ∀ s a, s ≤ f s a) {l : List α} {s : σ} (hle : l.foldl f s ≤ s) :
    ∀ a ∈ l, f s a = s := by
  induction l with
  | nil => simp
  | cons a l ih =>
    have hfirst : f s a = s := le_antisymm ((le_foldl h l _).trans hle) (h s a)
    rw [List.foldl_cons, hfirst] at hle
    exact List.forall_mem_cons.mpr ⟨hfirst, ih hle⟩

end Rounds

end ItemDependencies.Library
