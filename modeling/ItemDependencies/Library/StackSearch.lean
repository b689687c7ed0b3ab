import ItemDependencies.Library.Fallible

/-!
# Searching with a stack

Items are taken from a stack.  An item is passed over, or has an answer, or is replaced by other
items.  One loop stops at the first answer, another one goes on and collects all of them.
-/

namespace ItemDependencies.Library

universe u v w

variable {ι : Type u} {α : Type v} {ε : Type w}

/-- What is done with an item. -/
inductive Visit (ι : Type u) (α : Type v) where
  | skip
  | answer (a : α)
  | push (items : List ι)

/-- The loop up to the first answer, for at most the given number of rounds. -/
def searchStack (visit : ι → Except ε (Visit ι α)) : Nat → List ι → Except ε (Option α)
  | 0, _ => .ok none
  | _ + 1, [] => .ok none
  | limit + 1, item :: stack =>
    match visit item with
    | .error e => .error e
    | .ok .skip => searchStack visit limit stack
    | .ok (.answer a) => .ok (some a)
    | .ok (.push items) => searchStack visit limit (items ++ stack)

/-- The loop that collects the answers behind those that were found before. -/
def collectStack (visit : ι → Except ε (Visit ι α)) : Nat → List ι → List α → Except ε (List α)
  | 0, _, found => .ok found
  | _ + 1, [], found => .ok found
  | limit + 1, item :: stack, found =>
    match visit item with
    | .error e => .error e
    | .ok .skip => collectStack visit limit stack found
    | .ok (.answer a) => collectStack visit limit stack (found ++ [a])
    | .ok (.push items) => collectStack visit limit (items ++ stack) found

/-- So many rounds take all items from the stack, and find these answers. -/
inductive Answers (visit : ι → Except ε (Visit ι α)) : List ι → Nat → List α → Prop
  | nil : Answers visit [] 0 []
  | skip {item : ι} {stack : List ι} {n : Nat} {answers : List α}
      (h : visit item = .ok .skip) (hrest : Answers visit stack n answers) :
      Answers visit (item :: stack) (n + 1) answers
  | answer {item : ι} {stack : List ι} {n : Nat} {a : α} {answers : List α}
      (h : visit item = .ok (.answer a)) (hrest : Answers visit stack n answers) :
      Answers visit (item :: stack) (n + 1) (a :: answers)
  | push {item : ι} {items stack : List ι} {n : Nat} {answers : List α}
      (h : visit item = .ok (.push items)) (hrest : Answers visit (items ++ stack) n answers) :
      Answers visit (item :: stack) (n + 1) answers

namespace Answers

variable {visit : ι → Except ε (Visit ι α)} {stack stack' items : List ι} {m n : Nat}
  {answers answers' : List α}

theorem append (h : Answers visit stack n answers) (h' : Answers visit stack' m answers') :
    Answers visit (stack ++ stack') (n + m) (answers ++ answers') := by
  induction h with
  | nil => simpa using h'
  | skip h _ ih =>
    rw [Nat.add_right_comm]
    exact .skip h ih
  | answer h _ ih =>
    rw [Nat.add_right_comm]
    exact .answer h ih
  | push h _ ih =>
    rw [Nat.add_right_comm]
    rw [List.append_assoc] at ih
    exact .push h ih

/-- Two items in the place of one. -/
theorem pair {item first second : ι} (h : visit item = .ok (.push [first, second]))
    (hfirst : Answers visit [first] m answers) (hsecond : Answers visit [second] n answers') :
    Answers visit [item] (m + n + 1) (answers ++ answers') :=
  .push h (by simpa using hfirst.append hsecond)

theorem search_eq (h : Answers visit stack n answers) {limit : Nat} (hn : n ≤ limit) :
    searchStack visit limit stack = .ok answers.head? := by
  induction h generalizing limit with
  | nil => cases limit <;> rfl
  | skip h _ ih =>
    obtain ⟨limit, rfl⟩ := Nat.exists_eq_add_one_of_ne_zero (Nat.ne_zero_of_lt hn)
    rw [searchStack, h]
    exact ih (Nat.le_of_succ_le_succ hn)
  | answer h _ _ =>
    obtain ⟨limit, rfl⟩ := Nat.exists_eq_add_one_of_ne_zero (Nat.ne_zero_of_lt hn)
    rw [searchStack, h]
    rfl
  | push h _ ih =>
    obtain ⟨limit, rfl⟩ := Nat.exists_eq_add_one_of_ne_zero (Nat.ne_zero_of_lt hn)
    rw [searchStack, h]
    exact ih (Nat.le_of_succ_le_succ hn)

theorem collect_eq (h : Answers visit stack n answers) (found : List α) {limit : Nat}
    (hn : n ≤ limit) : collectStack visit limit stack found = .ok (found ++ answers) := by
  induction h generalizing limit found with
  | nil => cases limit <;> simp [collectStack]
  | skip h _ ih =>
    obtain ⟨limit, rfl⟩ := Nat.exists_eq_add_one_of_ne_zero (Nat.ne_zero_of_lt hn)
    rw [collectStack, h]
    exact ih found (Nat.le_of_succ_le_succ hn)
  | answer h _ ih =>
    obtain ⟨limit, rfl⟩ := Nat.exists_eq_add_one_of_ne_zero (Nat.ne_zero_of_lt hn)
    rw [collectStack, h, List.append_cons]
    exact ih _ (Nat.le_of_succ_le_succ hn)
  | push h _ ih =>
    obtain ⟨limit, rfl⟩ := Nat.exists_eq_add_one_of_ne_zero (Nat.ne_zero_of_lt hn)
    rw [collectStack, h]
    exact ih found (Nat.le_of_succ_le_succ hn)

end Answers

end ItemDependencies.Library
