import Mathlib.Data.List.Nodup
import Mathlib.Order.Lattice

/-!
# Sorted maps

A map of the modelled program that is gone through in the order of its keys: the
list of its entries, whose keys ascend strictly.
-/

namespace ItemDependencies.Library

open List

universe u v

structure SortedMap (α : Type u) (β : Type v) [LinearOrder α] where
  entries : List (α × β)
  sorted : (entries.map Prod.fst).Pairwise (· < ·)

namespace SortedMap

variable {α : Type u} {β : Type v} [LinearOrder α] (m : SortedMap α β)

def keys : List α := m.entries.map Prod.fst

def get (key : α) : Option β := (m.entries.find? fun entry => entry.1 = key).map Prod.snd

def contains (key : α) : Bool := m.keys.contains key

variable {m} {key : α} {value : β}

@[simp] theorem contains_iff : m.contains key = true ↔ key ∈ m.keys := contains_iff_mem

@[simp] theorem contains_eq_false : m.contains key = false ↔ key ∉ m.keys := by
  rw [← contains_iff, Bool.not_eq_true]

theorem nodup_keys : m.keys.Nodup := m.sorted.imp fun h => h.ne

/-- No key has two entries. -/
theorem get_eq_some : m.get key = some value ↔ (key, value) ∈ m.entries := by
  rw [get, Option.map_eq_some_iff]
  constructor
  · rintro ⟨⟨k, v⟩, hfind, rfl⟩
    obtain rfl : k = key := by simpa using find?_some hfind
    exact mem_of_find?_eq_some hfind
  · intro hmem
    cases hfind : m.entries.find? fun entry => entry.1 = key with
    | none =>
      have := find?_eq_none.mp hfind _ hmem
      simp at this
    | some entry =>
      refine ⟨entry, rfl, ?_⟩
      have hkey : entry.1 = key := by simpa using find?_some hfind
      rw [inj_on_of_nodup_map nodup_keys (mem_of_find?_eq_some hfind) hmem hkey]

theorem mem_keys : key ∈ m.keys ↔ ∃ value, m.get key = some value := by
  simp only [keys, mem_map, get_eq_some]
  constructor
  · rintro ⟨⟨k, v⟩, hmem, rfl⟩
    exact ⟨v, hmem⟩
  · rintro ⟨v, hmem⟩
    exact ⟨(key, v), hmem, rfl⟩

/-! ## Changes -/

variable (m key value)

def empty : SortedMap α β := ⟨[], .nil⟩

/-- Set the value of a key. -/
def insert : SortedMap α β where
  entries := (m.entries.filter fun entry => entry.1 < key) ++
    (key, value) :: m.entries.filter fun entry => key < entry.1
  sorted := by
    have hsorted := pairwise_map.mp m.sorted
    rw [pairwise_map, pairwise_append, pairwise_cons]
    refine ⟨hsorted.filter _, ⟨?_, hsorted.filter _⟩, ?_⟩
    · intro entry hentry
      simpa using (mem_filter.mp hentry).2
    · intro entry hentry other hother
      have hlt : entry.1 < key := by simpa using (mem_filter.mp hentry).2
      rcases mem_cons.mp hother with rfl | hother
      · exact hlt
      · exact hlt.trans (by simpa using (mem_filter.mp hother).2)

/-- Change every value. -/
def mapValues (f : β → β) : SortedMap α β where
  entries := m.entries.map fun entry => (entry.1, f entry.2)
  sorted := by
    rw [map_map]
    exact m.sorted

variable {m key value} {other : α}

@[simp] theorem get_empty : (empty : SortedMap α β).get key = none := rfl

theorem get_insert :
    (m.insert key value).get other = if other = key then some value else m.get other := by
  apply Option.ext
  intro found
  rw [get_eq_some]
  split
  case isTrue heq =>
    subst heq
    simp [insert, eq_comm]
  case isFalse hne =>
    rw [get_eq_some]
    simp only [insert, mem_append, mem_cons, mem_filter, decide_eq_true_eq,
      Prod.mk.injEq, hne, false_and, false_or, ← and_or_left]
    exact and_iff_left (lt_or_gt_of_ne hne)

theorem get_mapValues {f : β → β} : (m.mapValues f).get other = (m.get other).map f := by
  rw [get, get, mapValues, find?_map, Option.map_map, Option.map_map]
  rfl

@[simp] theorem keys_mapValues {f : β → β} : (m.mapValues f).keys = m.keys := by
  simp [keys, mapValues, Function.comp_def]

@[simp] theorem mem_keys_insert :
    other ∈ (m.insert key value).keys ↔ other = key ∨ other ∈ m.keys := by
  simp only [mem_keys, get_insert]
  split <;> simp [*]

theorem mem_entries_insert {entry : α × β} :
    entry ∈ (m.insert key value).entries ↔
      entry = (key, value) ∨ entry ∈ m.entries ∧ entry.1 ≠ key := by
  obtain ⟨k, v⟩ := entry
  rw [← get_eq_some, ← get_eq_some, get_insert]
  split
  case isTrue heq => simp [heq, eq_comm]
  case isFalse hne => simp [hne]

/-- Maps with the same values are the same. -/
theorem ext_get {m m' : SortedMap α β} (h : ∀ key, m.get key = m'.get key) : m = m' := by
  have hperm : m.entries.Perm m'.entries := by
    refine (perm_ext_iff_of_nodup (.of_map Prod.fst nodup_keys)
      (.of_map Prod.fst nodup_keys)).mpr fun entry => ?_
    rw [← get_eq_some (m := m), ← get_eq_some (m := m'), h]
  have hentries : m.entries = m'.entries :=
    hperm.eq_of_pairwise (fun a b _ _ hab hba => absurd hab hba.asymm)
      (pairwise_map.mp m.sorted) (pairwise_map.mp m'.sorted)
  cases m
  cases m'
  cases hentries
  rfl

/-! ## Entries with new keys -/

variable {ε : Type*}

/-- Add an entry whose key must be new. -/
def insertNew (error : ε) (m : SortedMap α β) (entry : α × β) : Except ε (SortedMap α β) :=
  if m.contains entry.1 then .error error else .ok (m.insert entry.1 entry.2)

/-- Entries can be added to a map one after the other, or one of them has a key that is in use. -/
theorem foldlM_insertNew_cases (error : ε) (l : List (α × β)) (m : SortedMap α β) :
    (l.foldlM (insertNew error) m = .error error ∧ ¬((l.map Prod.fst).Nodup ∧
      ∀ k ∈ l.map Prod.fst, k ∉ m.keys)) ∨
    (∃ m', l.foldlM (insertNew error) m = .ok m' ∧
      ∀ entry, entry ∈ m'.entries ↔ entry ∈ m.entries ∨ entry ∈ l) ∧
    (l.map Prod.fst).Nodup ∧ ∀ k ∈ l.map Prod.fst, k ∉ m.keys := by
  induction l generalizing m with
  | nil => exact .inr ⟨⟨m, rfl, by simp⟩, by simp, by simp⟩
  | cons entry l ih =>
    rw [foldlM_cons, insertNew, map_cons, nodup_cons, forall_mem_cons]
    cases hold : m.contains entry.1 with
    | true =>
      refine .inl ⟨rfl, fun h => h.2.1 (contains_iff.mp hold)⟩
    | false =>
      have hnew : entry.1 ∉ m.keys := contains_eq_false.mp hold
      have hkeys : (∀ k ∈ l.map Prod.fst, k ∉ (m.insert entry.1 entry.2).keys) ↔
          entry.1 ∉ l.map Prod.fst ∧ ∀ k ∈ l.map Prod.fst, k ∉ m.keys := by
        simp only [mem_keys_insert, not_or]
        constructor
        · exact fun h => ⟨fun hmem => (h _ hmem).1 rfl, fun k hk => (h k hk).2⟩
        · exact fun h k hk => ⟨fun heq => h.1 (heq ▸ hk), h.2 k hk⟩
      have hentry : ∀ other, other ∈ (m.insert entry.1 entry.2).entries ↔
          other ∈ m.entries ∨ other = entry := fun other => by
        rw [mem_entries_insert]
        constructor
        · rintro (rfl | ⟨hmem, -⟩)
          · exact .inr rfl
          · exact .inl hmem
        · rintro (hmem | rfl)
          · refine .inr ⟨hmem, fun heq => hnew ?_⟩
            exact heq ▸ mem_map_of_mem hmem
          · exact .inl rfl
      rcases ih (m.insert entry.1 entry.2) with ⟨hrun, hno⟩ | ⟨⟨m', hrun, hmem⟩, hnodup, hfresh⟩
      · refine .inl ⟨hrun, fun h => hno ⟨h.1.2, hkeys.mpr ⟨h.1.1, h.2.2⟩⟩⟩
      · obtain ⟨hfresh', hfresh⟩ := hkeys.mp hfresh
        refine .inr ⟨⟨m', hrun, fun other => ?_⟩, ⟨hfresh', hnodup⟩, hnew, hfresh⟩
        rw [hmem, hentry, mem_cons, or_assoc]

/-- Entries can be added one after the other if and only if no two of them have the same key. -/
theorem foldlM_insertNew (error : ε) (l : List (α × β)) :
    (l.foldlM (insertNew error) empty = .error error ↔ ¬(l.map Prod.fst).Nodup) ∧
      ((l.map Prod.fst).Nodup → ∃ m, l.foldlM (insertNew error) empty = .ok m ∧
        ∀ entry, entry ∈ m.entries ↔ entry ∈ l) := by
  rcases foldlM_insertNew_cases error l empty with ⟨hrun, hno⟩ | ⟨⟨m, hrun, hmem⟩, hnodup, -⟩
  · have hno' : ¬(l.map Prod.fst).Nodup := fun h => hno ⟨h, by simp [keys, empty]⟩
    exact ⟨⟨fun _ => hno', fun _ => hrun⟩, fun h => absurd h hno'⟩
  · refine ⟨⟨fun herr => ?_, fun h => absurd hnodup h⟩, fun _ => ⟨m, hrun, fun entry => ?_⟩⟩
    · rw [hrun] at herr
      cases herr
    · rw [hmem]
      simp [empty]

end SortedMap

end ItemDependencies.Library
