import ItemDependencies.Library.Grouping
import ItemDependencies.Library.SortedMap

/-!
# Gathering values under keys

A sorted map that is filled by adding values to the entries of their keys, an entry being made when
its key comes up for the first time.
-/

namespace ItemDependencies.Library.SortedMap

open List Option

universe u v w

variable {κ : Type u} {β : Type v} {ν : Type w} [LinearOrder κ]

/-- `map.entry(key).or_default()`, with the value added to what it holds. -/
def addAt (start : β) (add : β → ν → β) (m : SortedMap κ β) (push : κ × ν) : SortedMap κ β :=
  m.insert push.1 (add ((m.get push.1).getD start) push.2)

def gather (start : β) (add : β → ν → β) (pushes : List (κ × ν)) : SortedMap κ β :=
  pushes.foldl (addAt start add) empty

variable {start : β} {add : β → ν → β} {pushes : List (κ × ν)} {k : κ} {held : β}

theorem gather_concat {push : κ × ν} :
    gather start add (pushes ++ [push]) = addAt start add (gather start add pushes) push :=
  foldl_concat ..

/-- A key is there if something has been added to it, and holds all of it. -/
theorem get_gather : (gather start add pushes).get k =
    if valuesAt pushes k = [] then none else some ((valuesAt pushes k).foldl add start) := by
  induction pushes using List.reverseRecOn with
  | nil => rfl
  | append_singleton pushes push ih =>
    obtain ⟨key, value⟩ := push
    rw [gather_concat, addAt, get_insert]
    by_cases hkey : k = key
    · subst hkey
      have hvalues : valuesAt (pushes ++ [(k, value)]) k = valuesAt pushes k ++ [value] := by
        simp [valuesAt]
      rw [if_pos rfl, hvalues, if_neg (append_ne_nil_of_right_ne_nil _ (cons_ne_nil _ _)),
        foldl_concat, ih]
      split
      case isTrue hnil => rw [hnil, getD_none, foldl_nil]
      case isFalse => rw [getD_some]
    · have hvalues : valuesAt (pushes ++ [(key, value)]) k = valuesAt pushes k := by
        simp [valuesAt, Ne.symm hkey]
      rw [if_neg hkey, hvalues, ih]

theorem get_gather_eq_some : (gather start add pushes).get k = some held ↔
    (∃ value, (k, value) ∈ pushes) ∧ held = (valuesAt pushes k).foldl add start := by
  rw [get_gather]
  split
  case isTrue hnil =>
    refine ⟨fun h => absurd h.symm (some_ne_none held), ?_⟩
    rintro ⟨⟨value, hvalue⟩, -⟩
    exact absurd (mem_valuesAt.mpr hvalue) (by rw [hnil]; exact not_mem_nil)
  case isFalse hne =>
    obtain ⟨value, hvalue⟩ := exists_mem_of_ne_nil _ hne
    constructor
    · intro h
      exact ⟨⟨value, mem_valuesAt.mp hvalue⟩, (Option.some.inj h).symm⟩
    · rintro ⟨-, rfl⟩
      rfl

/-- The entries of a filled map. -/
theorem mem_entries_gather : (k, held) ∈ (gather start add pushes).entries ↔
    (∃ value, (k, value) ∈ pushes) ∧ held = (valuesAt pushes k).foldl add start := by
  rw [← get_eq_some, get_gather_eq_some]

/-! ## Gathering lists -/

/-- The list of a key holds what has been added to it, in order. -/
theorem getD_gather_concat :
    ((gather [] (fun held value => held ++ [value]) pushes).get k).getD [] = valuesAt pushes k := by
  rw [get_gather]
  split
  case isTrue hnil => rw [hnil, getD_none]
  case isFalse =>
    rw [getD_some, foldl_append_eq_append, ← flatMap_def, flatMap_singleton', nil_append]

end ItemDependencies.Library.SortedMap
