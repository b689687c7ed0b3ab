import Mathlib.Data.Finset.Basic
import ItemDependencies.Library.Counting
import ItemDependencies.Library.Loop

/-!
# Work lists

A set of items that have been seen and the queue of those among them that are
still to be processed.  Every item enters the queue once, when it is first
seen, so the items that have not been seen and those that are queued together
bound the work that is left.
-/

namespace ItemDependencies.Library

open List

universe u v

/-- Items that have been seen, and a queue of those that are to be processed. -/
structure Worklist (α : Type u) where
  seen : Finset α
  pending : List α
  nodup : pending.Nodup
  pending_seen : ∀ x ∈ pending, x ∈ seen

namespace Worklist

variable {α : Type u}

def empty : Worklist α := ⟨∅, [], nodup_nil, by simp⟩

/-- Take the first item of the queue. -/
def pop (w : Worklist α) : Option (α × Worklist α) :=
  match h : w.pending with
  | [] => none
  | x :: rest => some (x,
      { seen := w.seen
        pending := rest
        nodup := (nodup_cons.mp (h ▸ w.nodup)).2
        pending_seen := fun y hy => w.pending_seen y (h ▸ mem_cons_of_mem x hy) })

section

variable {w : Worklist α} {x : α}

theorem pop_eq_none : w.pop = none ↔ w.pending = [] := by
  unfold pop
  split
  · simp_all
  · simp_all

theorem pop_eq_some {w' : Worklist α} (h : w.pop = some (x, w')) :
    w.pending = x :: w'.pending ∧ w'.seen = w.seen := by
  unfold pop at h
  split at h
  · cases h
  · rename_i heq
    cases h
    exact ⟨heq, rfl⟩

end

variable [DecidableEq α]

/-- The items that have been taken from the queue. -/
def processed (w : Worklist α) : Finset α := w.seen.filter fun x => x ∉ w.pending

/-- A list of distinct items that are all to be processed. -/
def ofList (items : List α) (h : items.Nodup) : Worklist α :=
  ⟨items.toFinset, items, h, by simp⟩

/-- Queue an item unless it has been seen. -/
def add (w : Worklist α) (x : α) : Worklist α :=
  if h : x ∈ w.seen then w
  else
    { seen := insert x w.seen
      pending := w.pending ++ [x]
      nodup := nodup_append.mpr ⟨w.nodup, nodup_singleton x, fun y hy z hz heq =>
        h (mem_singleton.mp hz ▸ heq ▸ w.pending_seen y hy)⟩
      pending_seen := fun y hy => by
        rcases mem_append.mp hy with hy | hy
        · exact Finset.mem_insert_of_mem (w.pending_seen y hy)
        · exact mem_singleton.mp hy ▸ Finset.mem_insert_self .. }

def addAll (w : Worklist α) (items : List α) : Worklist α := items.foldl add w

/-- Items of a universe that have not been seen, and items that are queued. -/
def left (items : List α) (w : Worklist α) : Nat :=
  items.countP (fun x => x ∉ w.seen) + w.pending.length

variable {w : Worklist α} {x y : α}

theorem mem_processed : y ∈ w.processed ↔ y ∈ w.seen ∧ y ∉ w.pending := Finset.mem_filter

theorem processed_subset : w.processed ⊆ w.seen := Finset.filter_subset ..

theorem processed_eq_seen (h : w.pending = []) : w.processed = w.seen := by
  ext y
  simp [mem_processed, h]

@[simp] theorem mem_seen_add : y ∈ (w.add x).seen ↔ y = x ∨ y ∈ w.seen := by
  unfold add
  split
  · rename_i h
    exact ⟨Or.inr, fun hy => hy.elim (fun heq => heq ▸ h) id⟩
  · exact Finset.mem_insert

theorem seen_subset_add : w.seen ⊆ (w.add x).seen := fun _ hy => mem_seen_add.mpr (Or.inr hy)

@[simp] theorem mem_seen_addAll {items : List α} :
    y ∈ (w.addAll items).seen ↔ y ∈ items ∨ y ∈ w.seen := by
  induction items generalizing w with
  | nil => simp [addAll]
  | cons a items ih =>
    have := ih (w := w.add a)
    rw [addAll] at this
    rw [addAll, foldl_cons, this, mem_seen_add, mem_cons]
    tauto

@[simp] theorem processed_add : (w.add x).processed = w.processed := by
  unfold add
  split
  · rfl
  · rename_i h
    ext y
    simp only [mem_processed, Finset.mem_insert, mem_append, mem_singleton, not_or]
    constructor
    · rintro ⟨hs, hp, hne⟩
      exact ⟨hs.resolve_left hne, hp⟩
    · rintro ⟨hs, hp⟩
      refine ⟨Or.inr hs, hp, ?_⟩
      rintro rfl
      exact h hs

@[simp] theorem processed_addAll {items : List α} : (w.addAll items).processed = w.processed := by
  induction items generalizing w with
  | nil => rfl
  | cons a items ih => exact (ih (w := w.add a)).trans processed_add

/-- The item that is taken was seen and not yet processed. -/
theorem processed_pop {w' : Worklist α} (h : w.pop = some (x, w')) :
    x ∈ w.seen ∧ x ∉ w.processed ∧ w'.processed = insert x w.processed := by
  obtain ⟨hp, hs⟩ := pop_eq_some h
  have hx : x ∈ w.seen := w.pending_seen x (by simp [hp])
  have hnot : x ∉ w'.pending := (nodup_cons.mp (hp ▸ w.nodup)).1
  refine ⟨hx, fun hpr => (mem_processed.mp hpr).2 (by simp [hp]), ?_⟩
  ext y
  simp only [mem_processed, Finset.mem_insert, hs, hp, mem_cons, not_or]
  constructor
  · rintro ⟨hys, hyp⟩
    by_cases hyx : y = x
    · exact Or.inl hyx
    · exact Or.inr ⟨hys, hyx, hyp⟩
  · rintro (rfl | ⟨hys, -, hyp⟩)
    · exact ⟨hx, hnot⟩
    · exact ⟨hys, hyp⟩

/-- Queueing an item of the universe makes no work. -/
theorem left_add {items : List α} (h : x ∈ items ∨ x ∈ w.seen) :
    (w.add x).left items ≤ w.left items := by
  unfold add
  split
  · exact le_refl _
  · rename_i hx
    have hlt := countP_notMem_lt (h.resolve_right hx) hx
    simp only [left, length_append, length_singleton]
    omega

theorem left_pop (items : List α) {w' : Worklist α} (h : w.pop = some (x, w')) :
    w'.left items + 1 = w.left items := by
  obtain ⟨hp, hs⟩ := pop_eq_some h
  simp only [left, hp, hs, length_cons]
  omega

end Worklist

/-! ## Draining a queue -/

section Drain

variable {σ : Type u} {α : Type v}

/-- `while let Some(x) = pop() { body(x) }`, for at most the given number of rounds. -/
def drain (pop : σ → Option (α × σ)) (body : α → σ → σ) : Nat → σ → σ
  | 0, s => s
  | limit + 1, s =>
    match pop s with
    | none => s
    | some (x, s) => drain pop body limit (body x s)

/-- What one round preserves, the loop preserves. -/
theorem drain_induct {pop : σ → Option (α × σ)} {body : α → σ → σ} {P : σ → Prop}
    (step : ∀ s x t, P s → pop s = some (x, t) → P (body x t)) (limit : Nat) {s : σ} (h : P s) :
    P (drain pop body limit s) := by
  induction limit generalizing s with
  | zero => exact h
  | succ limit ih =>
    rw [drain]
    cases hp : pop s with
    | none => exact h
    | some p => exact ih (step s p.1 p.2 h hp)

/-- With a limit that is at least a decreasing measure the queue is empty in the end. -/
theorem drain_idle {pop : σ → Option (α × σ)} {body : α → σ → σ} {P : σ → Prop} (μ : σ → Nat)
    (step : ∀ s x t, P s → pop s = some (x, t) → P (body x t) ∧ μ (body x t) < μ s) (limit : Nat)
    {s : σ} (h : P s) (hμ : μ s ≤ limit) : pop (drain pop body limit s) = none := by
  induction limit generalizing s with
  | zero =>
    rw [drain]
    cases hp : pop s with
    | none => rfl
    | some p =>
      have := (step s p.1 p.2 h hp).2
      omega
  | succ limit ih =>
    rw [drain]
    cases hp : pop s with
    | none => exact hp
    | some p =>
      obtain ⟨hP, hlt⟩ := step s p.1 p.2 h hp
      exact ih hP (by omega)

end Drain

end ItemDependencies.Library
