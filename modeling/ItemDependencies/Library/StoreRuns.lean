import Mathlib.Order.Defs.Unbundled

/-!
# Computations on a store

A computation reads and changes a store and may fail; what it has changed until then stays.  The
rules below are for stores that keep an invariant, that only grow, and on which nothing fails before
they are full.
-/

namespace ItemDependencies.Library

universe u v

/-- A computation that may fail, on a store that it may change. -/
def Store (σ : Type u) (ε : Type v) (α : Type u) : Type (max u v) := σ → Except ε α × σ

namespace Store

variable {σ : Type u} {ε : Type v} {α β : Type u}

def run (x : Store σ ε α) (s : σ) : Except ε α × σ := x s

def andThen (x : Store σ ε α) (f : α → Store σ ε β) : Store σ ε β := fun s =>
  match x s with
  | (.ok a, t) => f a t
  | (.error e, t) => (.error e, t)

instance : Monad (Store σ ε) where
  pure a := fun s => (.ok a, s)
  bind := andThen

instance : LawfulMonad (Store σ ε) := by
  refine LawfulMonad.mk' (Store σ ε) (fun x => ?_) (fun _ _ => rfl) (fun x f g => ?_)
  · funext s
    show andThen x _ s = x s
    unfold andThen
    rcases x s with ⟨_ | _, t⟩ <;> rfl
  · funext s
    show andThen (andThen x f) g s = andThen x _ s
    unfold andThen
    rcases x s with ⟨_ | _, t⟩ <;> rfl

def fail (e : ε) : Store σ ε α := fun s => (.error e, s)

/-- A computation that does not change the store. -/
def reading (g : σ → Except ε α) : Store σ ε α := fun s => (g s, s)

def changing (g : σ → σ) : Store σ ε PUnit := fun s => (.ok ⟨⟩, g s)

theorem run_bind_ok {x : Store σ ε α} {f : α → Store σ ε β} {s t : σ} {a : α}
    (h : x.run s = (.ok a, t)) : (x >>= f).run s = (f a).run t := by
  show andThen x f s = f a t
  unfold andThen
  rw [show x s = (.ok a, t) from h]

theorem run_bind_error {x : Store σ ε α} {f : α → Store σ ε β} {s t : σ} {e : ε}
    (h : x.run s = (.error e, t)) : (x >>= f).run s = (.error e, t) := by
  show andThen x f s = (.error e, t)
  unfold andThen
  rw [show x s = (.error e, t) from h]

end Store

/-- What a store keeps, how it grows and when it is full. -/
structure GrowingStore (σ : Type u) where
  inv : σ → Prop
  le : σ → σ → Prop
  full : σ → Prop
  refl : ∀ s, le s s
  trans : ∀ {s t r}, le s t → le t r → le s r

section Runs

variable {σ : Type u} {ε : Type v} {α β : Type u} (G : GrowingStore σ)

/-- The computation keeps the invariant and only adds to the store.  It ends with a result as
described, or the store is full. -/
def Runs (x : Store σ ε α) (s : σ) (Q : α → σ → Prop) : Prop :=
  ∃ r t, x.run s = (r, t) ∧ G.inv t ∧ G.le s t ∧
    ((∃ a, r = .ok a ∧ Q a t) ∨ (∃ e, r = .error e) ∧ G.full t)

namespace Runs

variable {G} {x : Store σ ε α} {f : α → Store σ ε β} {s : σ} {Q Q' : α → σ → Prop}
  {R : β → σ → Prop}

theorem pure {a : α} (hs : G.inv s) (h : Q a s) : Runs G (Pure.pure a : Store σ ε α) s Q :=
  ⟨_, s, rfl, hs, G.refl s, .inl ⟨a, rfl, h⟩⟩

/-- What is read is known. -/
theorem read {g : σ → Except ε α} {a : α} (hg : g s = .ok a) (h : Runs G (f a) s R) :
    Runs G (Store.reading g >>= f) s R := by
  obtain ⟨r, t, hrun, hresult⟩ := h
  have hread : (Store.reading g).run s = (.ok a, s) := congrArg (·, s) hg
  exact ⟨r, t, (Store.run_bind_ok hread).trans hrun, hresult⟩

theorem read_full {g : σ → Except ε α} {e : ε} (hg : g s = .error e) (hs : G.inv s)
    (hfull : G.full s) : Runs G (Store.reading g >>= f) s R := by
  have hread : (Store.reading g).run s = (.error e, s) := congrArg (·, s) hg
  exact ⟨_, s, Store.run_bind_error hread, hs, G.refl s, .inr ⟨⟨e, rfl⟩, hfull⟩⟩

theorem changing {g : σ → σ} {Q : PUnit → σ → Prop} (hg : G.inv (g s)) (hle : G.le s (g s))
    (h : Q ⟨⟩ (g s)) : Runs G (Store.changing g : Store σ ε PUnit) s Q :=
  ⟨_, _, rfl, hg, hle, .inl ⟨_, rfl, h⟩⟩

theorem imp (h : Runs G x s Q) (hQ : ∀ a t, G.inv t → G.le s t → Q a t → Q' a t) :
    Runs G x s Q' := by
  obtain ⟨r, t, hrun, ht, hle, hresult⟩ := h
  refine ⟨r, t, hrun, ht, hle, hresult.imp_left ?_⟩
  rintro ⟨a, ha, haQ⟩
  exact ⟨a, ha, hQ a t ht hle haQ⟩

theorem bind (h : Runs G x s Q) (hf : ∀ a t, G.inv t → G.le s t → Q a t → Runs G (f a) t R) :
    Runs G (x >>= f) s R := by
  obtain ⟨r, t, hrun, ht, hle, ⟨a, rfl, ha⟩ | ⟨⟨e, rfl⟩, hfull⟩⟩ := h
  · obtain ⟨r', t', hrun', ht', hle', hresult⟩ := hf a t ht hle ha
    exact ⟨r', t', (Store.run_bind_ok hrun).trans hrun', ht', G.trans hle hle', hresult⟩
  · exact ⟨.error e, t, Store.run_bind_error hrun, ht, hle, .inr ⟨⟨e, rfl⟩, hfull⟩⟩

/-- One computation for each element of a list. -/
theorem foldlM {f : β → α → Store σ ε β} {P : List α → β → σ → Prop} {l : List α} {b : β}
    (step : ∀ done a rest b t, l = done ++ a :: rest → G.inv t → G.le s t → P done b t →
      Runs G (f b a) t (P (done ++ [a])))
    (hs : G.inv s) (h : P [] b s) : Runs G (l.foldlM f b) s (P l) := by
  have key : ∀ rest done b t, l = done ++ rest → G.inv t → G.le s t → P done b t →
      Runs G (rest.foldlM f b) t (P l) := by
    intro rest
    induction rest with
    | nil =>
      intro done b t hl ht _ hP
      rw [List.append_nil] at hl
      exact Runs.pure ht (hl ▸ hP)
    | cons a rest ih =>
      intro done b t hl ht hle hP
      rw [List.foldlM_cons]
      refine (step done a rest b t hl ht hle hP).bind fun b' t' ht' hle' hP' => ?_
      exact ih (done ++ [a]) b' t' (by rw [hl, List.append_cons]) ht' (G.trans hle hle') hP'
  exact key l [] b s rfl hs (G.refl s) h

end Runs

end Runs

end ItemDependencies.Library
