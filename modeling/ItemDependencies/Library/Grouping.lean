import Mathlib.Data.List.Dedup
import Mathlib.Data.List.Sort
import Mathlib.Data.List.SplitBy

/-!
# Grouping and ranking

Items that are pushed under their keys into an ordered map, and the rank of an
item among the items of one group.  A rank in a strictly sorted list is the
number of smaller items, so it depends on the group only and not on the order
in which the items came.
-/

namespace ItemDependencies.Library

open List

universe u v

variable {α : Type u} {κ : Type v} {l : List α}

/-! ## Neighbours -/

/-- Every two neighbours of a list, as `windows(2)` gives them. -/
def neighbours (l : List α) : List (α × α) := l.zip l.tail

theorem isChain_iff_neighbours {r : α → α → Prop} :
    l.IsChain r ↔ ∀ p ∈ neighbours l, r p.1 p.2 := by
  induction l with
  | nil => simp [neighbours]
  | cons a l ih =>
    cases l with
    | nil => simp [neighbours]
    | cons b l =>
      rw [isChain_cons_cons, ih]
      simp [neighbours]

@[simp] theorem neighbours_cons_cons {a b : α} :
    neighbours (a :: b :: l) = (a, b) :: neighbours (b :: l) := rfl

/-- Neighbours in a strictly sorted list have nothing between them. -/
theorem mem_neighbours [LinearOrder α] (h : l.Pairwise (· < ·)) {pair : α × α}
    (hpair : pair ∈ neighbours l) :
    pair.1 ∈ l ∧ pair.2 ∈ l ∧ pair.1 < pair.2 ∧ ∀ x ∈ l, x ≤ pair.1 ∨ pair.2 ≤ x := by
  induction l with
  | nil => simp [neighbours] at hpair
  | cons a l ih =>
    cases l with
    | nil => simp [neighbours] at hpair
    | cons b l =>
      obtain ⟨ha, h⟩ := pairwise_cons.mp h
      have hb := (pairwise_cons.mp h).1
      rw [neighbours_cons_cons, mem_cons] at hpair
      rcases hpair with rfl | hpair
      · refine ⟨by simp, by simp, ha b (by simp), fun x hx => ?_⟩
        rcases mem_cons.mp hx with rfl | hx
        · exact .inl le_rfl
        rcases mem_cons.mp hx with rfl | hx
        · exact .inr le_rfl
        · exact .inr (hb x hx).le
      · obtain ⟨hfirst, hsecond, hlt, hgap⟩ := ih h hpair
        refine ⟨by simp [hfirst], mem_cons_of_mem _ hsecond, hlt, fun x hx => ?_⟩
        rcases mem_cons.mp hx with rfl | hx
        · exact .inl (ha _ hfirst).le
        · exact hgap x hx

theorem pairwise_neighbours [LinearOrder α] (h : l.Pairwise (· < ·)) :
    (neighbours l).Pairwise fun p q => p.2 ≤ q.1 := by
  induction l with
  | nil => exact .nil
  | cons a l ih =>
    cases l with
    | nil => exact .nil
    | cons b l =>
      have h := (pairwise_cons.mp h).2
      rw [neighbours_cons_cons]
      refine pairwise_cons.mpr ⟨fun pair hpair => ?_, ih h⟩
      rcases mem_cons.mp (mem_neighbours h hpair).1 with heq | hmem
      · exact heq.ge
      · exact ((pairwise_cons.mp h).1 _ hmem).le

/-- Between the first and the last element, everything lies between two neighbours. -/
theorem exists_neighbours [LinearOrder α] {first last x : α} (hfirst : l.head? = some first)
    (hlast : l.getLast? = some last) (hle : first ≤ x) (hlt : x < last) :
    ∃ pair ∈ neighbours l, pair.1 ≤ x ∧ x < pair.2 := by
  induction l generalizing first with
  | nil => cases hfirst
  | cons a l ih =>
    cases hfirst
    cases l with
    | nil =>
      cases hlast
      exact absurd hle (not_le.mpr hlt)
    | cons b l =>
      rcases lt_or_ge x b with hx | hx
      · exact ⟨(a, b), by simp, hle, hx⟩
      · obtain ⟨pair, hpair, h⟩ := ih rfl (by simpa using hlast) hx
        exact ⟨pair, by simp [hpair], h⟩

/-- Where every element has one of two properties, they meet at an element or at two neighbours. -/
theorem exists_meeting_neighbours {P Q : α → Prop} {i j : Nat} {a b : α} (hall : ∀ x ∈ l, P x ∨ Q x)
    (hij : i ≤ j) (ha : l[i]? = some a) (hP : P a) (hb : l[j]? = some b) (hQ : Q b) :
    (∃ (k : Nat) (c : α), i ≤ k ∧ k ≤ j ∧ l[k]? = some c ∧ P c ∧ Q c) ∨
      ∃ (k : Nat) (c d : α), i ≤ k ∧ k < j ∧ l[k]? = some c ∧ l[k + 1]? = some d ∧ P c ∧ Q d := by
  induction hn : j - i generalizing i a with
  | zero =>
    obtain rfl : i = j := by omega
    cases ha.symm.trans hb
    exact .inl ⟨i, _, le_rfl, le_rfl, hb, hP, hQ⟩
  | succ n ih =>
    have hlt : i < j := by omega
    have hnext : i + 1 < l.length := lt_of_le_of_lt hlt (List.getElem?_eq_some_iff.mp hb).1
    obtain ⟨c, hc⟩ : ∃ c, l[i + 1]? = some c := ⟨_, getElem?_eq_getElem hnext⟩
    rcases hall c (mem_of_getElem? hc) with hPc | hQc
    · rcases ih hlt hc hPc (by omega) with ⟨k, d, hk, hkj, hd⟩ | ⟨k, d, e, hk, hkj, hde⟩
      · exact .inl ⟨k, d, by omega, hkj, hd⟩
      · exact .inr ⟨k, d, e, by omega, hkj, hde⟩
    · exact .inr ⟨i, a, c, le_rfl, hlt, ha, hc, hP, hQc⟩

theorem mem_neighbours_of_getElem? {k : Nat} {c d : α} (hc : l[k]? = some c)
    (hd : l[k + 1]? = some d) : (c, d) ∈ neighbours l := by
  have hpair : (neighbours l)[k]? = some (c, d) := by
    rw [neighbours, getElem?_zip_eq_some, getElem?_tail]
    exact ⟨hc, hd⟩
  exact mem_of_getElem? hpair

/-! ## Positions -/

theorem getElem?_concat_eq_some {a x : α} {i : Nat} :
    (l ++ [a])[i]? = some x ↔ l[i]? = some x ∨ i = l.length ∧ a = x := by
  rcases lt_trichotomy i l.length with hlt | rfl | hgt
  · rw [getElem?_append_left hlt]
    simp [hlt.ne]
  · simp
  · rw [getElem?_append_right hgt.le, getElem?_eq_none (l := l) hgt.le]
    have hpos : i - l.length ≠ 0 := by omega
    simp [hpos, hgt.ne']

/-- A condition that one element of a list satisfies picks this element. -/
theorem filter_eq_singleton [DecidableEq α] {p : α → Bool} {a : α} (hnodup : l.Nodup) (ha : a ∈ l)
    (h : ∀ b ∈ l, p b = true ↔ b = a) : l.filter p = [a] := by
  have hp : ∀ b ∈ l, p b = decide (b = a) := fun b hb => by
    rw [Bool.eq_iff_iff, h b hb, decide_eq_true_eq]
  rw [filter_congr hp, filter_eq, count_eq_one_of_mem hnodup ha]
  rfl

/-! ## Values under a key -/

/-- The values that have been pushed under a key, in order. -/
def valuesAt {ν : Type u} [DecidableEq κ] (pushes : List (κ × ν)) (k : κ) : List ν :=
  (pushes.filter fun push => push.1 = k).map Prod.snd

@[simp] theorem mem_valuesAt {ν : Type u} [DecidableEq κ] {pushes : List (κ × ν)} {k : κ} {v : ν} :
    v ∈ valuesAt pushes k ↔ (k, v) ∈ pushes := by
  simp [valuesAt]

theorem nodup_valuesAt {ν : Type u} [DecidableEq κ] {pushes : List (κ × ν)} (h : pushes.Nodup)
    (k : κ) : (valuesAt pushes k).Nodup := by
  refine (h.filter _).map_on fun push hpush push' hpush' heq => Prod.ext ?_ heq
  have hkey : push.1 = k := of_decide_eq_true (mem_filter.mp hpush).2
  have hkey' : push'.1 = k := of_decide_eq_true (mem_filter.mp hpush').2
  exact hkey.trans hkey'.symm

/-- Values pushed under one key, from lists without repetitions at distinct positions. -/
theorem nodup_valuesAt_zipIdx [DecidableEq κ] {ls : List α} (keys : α → List κ)
    (h : ∀ l ∈ ls, (keys l).Nodup) (k : κ) :
    (valuesAt (ls.zipIdx.flatMap fun p => (keys p.1).map fun a => (a, p.2)) k).Nodup := by
  have key : ∀ (ls : List α) (n : Nat), (∀ l ∈ ls, (keys l).Nodup) →
      (valuesAt ((ls.zipIdx n).flatMap fun p => (keys p.1).map fun a => (a, p.2)) k).Nodup ∧
        ∀ i ∈ valuesAt ((ls.zipIdx n).flatMap fun p => (keys p.1).map fun a => (a, p.2)) k,
          n ≤ i := by
    intro ls
    induction ls with
    | nil => simp [valuesAt]
    | cons l ls ih =>
      intro n hnd
      obtain ⟨ih₁, ih₂⟩ := ih (n + 1) fun l hl => hnd l (by simp [hl])
      have hsplit : valuesAt (((l :: ls).zipIdx n).flatMap fun p =>
            (keys p.1).map fun a => (a, p.2)) k =
          valuesAt ((keys l).map fun a => (a, n)) k ++
            valuesAt ((ls.zipIdx (n + 1)).flatMap fun p => (keys p.1).map fun a => (a, p.2)) k := by
        simp [valuesAt, zipIdx_cons]
      have hhead : ∀ i ∈ valuesAt ((keys l).map fun a => (a, n)) k, i = n := by
        intro i hi
        obtain ⟨a, -, heq⟩ := mem_map.mp (mem_valuesAt.mp hi)
        exact (Prod.mk.inj heq).2.symm
      have hndhead : (valuesAt ((keys l).map fun a => (a, n)) k).Nodup := by
        have hl := hnd l (by simp)
        have heq : valuesAt ((keys l).map fun a => (a, n)) k =
            ((keys l).filter fun a => a = k).map fun _ => n := by
          simp only [valuesAt, filter_map, map_map]
          rfl
        rw [heq, filter_eq, map_replicate]
        rcases (nodup_iff_count_le_one.mp hl k).eq_or_lt with h | h
        · rw [h]
          simp
        · have hz : (keys l).count k = 0 := by omega
          rw [hz]
          simp
      rw [hsplit]
      refine ⟨nodup_append.mpr ⟨hndhead, ih₁, fun i hi j hj heq => ?_⟩, fun i hi => ?_⟩
      · have := hhead i hi
        have := ih₂ j hj
        omega
      · rcases mem_append.mp hi with hi | hi
        · exact (hhead i hi).ge
        · exact (Nat.le_succ n).trans (ih₂ i hi)
  exact (key ls 0 h).1

/-! ## Groups -/

variable [DecidableEq κ]

/-- The values of an ordered map after each item has been pushed under its key. -/
def groups (le : κ → κ → Bool) (key : α → κ) (items : List α) : List (List α) :=
  ((items.map key).dedup.insertionSort fun a b => le a b = true).map fun k =>
    items.filter fun x => key x = k

variable {le : κ → κ → Bool} {key : α → κ} {items g : List α} {value : α → Nat}

theorem mem_groups : g ∈ groups le key items ↔
    ∃ x ∈ items, g = items.filter fun y => key y = key x := by
  simp only [groups, mem_map, mem_insertionSort, mem_dedup]
  constructor
  · rintro ⟨_, ⟨x, hx, rfl⟩, rfl⟩
    exact ⟨x, hx, rfl⟩
  · rintro ⟨x, hx, rfl⟩
    exact ⟨_, ⟨x, hx, rfl⟩, rfl⟩

/-- The items of one group have the same key, and it has all of them. -/
theorem mem_of_mem_groups (hg : g ∈ groups le key items) {x y : α} (hx : x ∈ g) :
    y ∈ g ↔ y ∈ items ∧ key y = key x := by
  obtain ⟨z, -, rfl⟩ := mem_groups.mp hg
  have hxz : key x = key z := by simpa using (mem_filter.mp hx).2
  simp [hxz]

theorem nodup_of_mem_groups (h : items.Nodup) (hg : g ∈ groups le key items) : g.Nodup := by
  obtain ⟨_, -, rfl⟩ := mem_groups.mp hg
  exact h.filter _

/-- No item is in two groups. -/
theorem pairwise_disjoint_groups (le : κ → κ → Bool) (key : α → κ) (items : List α) :
    (groups le key items).Pairwise List.Disjoint := by
  rw [groups, pairwise_map]
  have hnd : ((items.map key).dedup.insertionSort fun a b => le a b = true).Nodup :=
    (perm_insertionSort _ _).nodup_iff.mpr (nodup_dedup _)
  refine hnd.imp fun {a b} hab x hxa hxb => hab ?_
  have ha : key x = a := by simpa using (mem_filter.mp hxa).2
  have hb : key x = b := by simpa using (mem_filter.mp hxb).2
  rw [← ha, hb]

/-- Each item is in its group, and in no other one. -/
theorem flatten_groups (le : κ → κ → Bool) (key : α → κ) (items : List α) :
    (groups le key items).flatten.Perm items := by
  have hkeys : ∀ (keys : List κ) (items : List α), keys.Nodup → (∀ x ∈ items, key x ∈ keys) →
      (keys.map fun k => items.filter fun x => key x = k).flatten.Perm items := by
    intro keys
    induction keys with
    | nil =>
      intro items _ hcover
      rw [eq_nil_iff_forall_not_mem.mpr fun x hx => not_mem_nil (hcover x hx)]
      exact .nil
    | cons k keys ih =>
      intro items hnodup hcover
      obtain ⟨hnew, hnodup⟩ := nodup_cons.mp hnodup
      have hrest := ih (items.filter fun x => !decide (key x = k)) hnodup fun x hx => by
        obtain ⟨hx, hne⟩ := mem_filter.mp hx
        exact (mem_cons.mp (hcover x hx)).resolve_left (by simpa using hne)
      have hsame : (keys.map fun k' => items.filter fun x => key x = k') = keys.map fun k' =>
          (items.filter fun x => !decide (key x = k)).filter fun x => key x = k' := by
        refine map_congr_left fun k' hk' => ?_
        rw [filter_filter]
        refine filter_congr fun x _ => ?_
        by_cases hx : key x = k'
        · have hne : k' ≠ k := fun heq => hnew (heq ▸ hk')
          simp [hx, hne]
        · simp [hx]
      rw [map_cons, flatten_cons, hsame]
      exact (hrest.append_left _).trans (filter_append_perm _ items)
  refine hkeys _ items ?_ fun x hx => ?_
  · exact (perm_insertionSort _ _).nodup_iff.mpr (nodup_dedup _)
  · exact (perm_insertionSort _ _).mem_iff.mpr (mem_dedup.mpr (mem_map_of_mem hx))

/-! ## Ranks -/

/-- The number of items with a smaller value. -/
def rankIn (value : α → Nat) (items : List α) (x : α) : Nat :=
  items.countP fun y => value y < value x

theorem rankIn_perm {l l' : List α} (h : l.Perm l') (x : α) :
    rankIn value l x = rankIn value l' x :=
  h.countP_eq _

/-- In a strictly sorted list the position of an item is its rank. -/
theorem rankIn_eq_of_pairwise (h : l.Pairwise fun x y => value x < value y) {k : Nat} {x : α}
    (hk : l[k]? = some x) : rankIn value l x = k := by
  induction l generalizing k with
  | nil => simp at hk
  | cons a l ih =>
    rw [pairwise_cons] at h
    cases k with
    | zero =>
      obtain rfl : a = x := by simpa using hk
      refine countP_eq_zero.mpr fun y hy => ?_
      rcases mem_cons.mp hy with rfl | hy
      · simp
      · simpa using (h.1 y hy).le
    | succ k =>
      have hk : l[k]? = some x := by simpa using hk
      have hx : value a < value x := h.1 x (mem_of_getElem? hk)
      have := ih h.2 hk
      rw [rankIn] at this ⊢
      rw [countP_cons, this]
      simp [hx]

/-- A map that keeps the order of the values keeps the ranks. -/
theorem rankIn_map {β : Type u} {value' : β → Nat} (f : α → β) {x : α}
    (h : ∀ y ∈ l, value' (f y) < value' (f x) ↔ value y < value x) :
    rankIn value' (l.map f) (f x) = rankIn value l x := by
  rw [rankIn, rankIn, countP_map]
  refine countP_congr fun y hy => ?_
  simpa using h y hy

/-- Values that order items and their partners alike give them the same ranks. -/
theorem rankIn_map_eq_map {β π : Type u} {value' : β → Nat} {l : List π} {f : π → α} {g : π → β}
    {x : π} (h : ∀ y ∈ l, value (f y) < value (f x) ↔ value' (g y) < value' (g x)) :
    rankIn value (l.map f) (f x) = rankIn value' (l.map g) (g x) := by
  rw [rankIn, rankIn, countP_map, countP_map]
  refine countP_congr fun y hy => ?_
  simpa using h y hy

/-! ## Runs -/

section Runs

variable {ν : Type v} [LinearOrder ν] {value : α → ν} {l : List α}

/-- The runs of equal values. -/
def runs (value : α → ν) (l : List α) : List (List α) :=
  l.splitBy fun a b => decide (value a = value b)

theorem value_eq_of_mem_runs {run : List α} (h : run ∈ runs value l) :
    ∀ x ∈ run, ∀ y ∈ run, value x = value y := by
  have hchain : run.IsChain fun a b => value a = value b :=
    (isChain_of_mem_splitBy h).imp fun _ _ heq => of_decide_eq_true heq
  have htrans : IsTrans α fun a b => value a = value b := ⟨fun _ _ _ hab hbc => hab.trans hbc⟩
  have hpairwise := isChain_iff_pairwise.mp hchain
  have hsymm : Std.Symm fun a b : α => value a = value b := ⟨fun _ _ heq => heq.symm⟩
  exact fun x hx y hy => List.Pairwise.forall_of_forall (R := fun a b => value a = value b)
    (fun _ _ => rfl) hpairwise hx hy

theorem flatten_runs (value : α → ν) (l : List α) : (runs value l).flatten = l :=
  flatten_splitBy _ l

/-- The values of a sorted list grow from one run to the next. -/
theorem pairwise_runs (h : l.Pairwise fun a b => value a ≤ value b) :
    (runs value l).Pairwise fun run run' => ∀ x ∈ run, ∀ y ∈ run', value x < value y := by
  have hflat := h
  rw [← flatten_runs value l, pairwise_flatten] at hflat
  -- neighbouring runs differ where they meet
  have hmeet := isChain_getLast_head_splitBy (fun a b => decide (value a = value b)) l
  have hchain : (runs value l).IsChain fun run run' =>
      run' ≠ [] ∧ ∀ x ∈ run, ∀ y ∈ run', value x < value y := by
    have hboth : (runs value l).IsChain fun run run' => (∀ x ∈ run, ∀ y ∈ run', value x ≤ value y) ∧
        ∃ ha hb, decide (value (run.getLast ha) = value (run'.head hb)) = false :=
      isChain_iff_neighbours.mpr fun pair hpair =>
        ⟨isChain_iff_neighbours.mp hflat.2.isChain pair hpair,
          isChain_iff_neighbours.mp hmeet pair hpair⟩
    refine hboth.imp_of_mem_imp ?_
    rintro run run' hrun hrun' ⟨hle, hne, hne', hdiffer⟩
    refine ⟨hne', fun x hx y hy => (hle x hx y hy).lt_of_ne fun heq => ?_⟩
    have hx := value_eq_of_mem_runs hrun x hx _ (getLast_mem hne)
    have hy := value_eq_of_mem_runs hrun' y hy _ (head_mem hne')
    exact of_decide_eq_false hdiffer (hx.symm.trans (heq.trans hy))
  have htrans : IsTrans (List α) fun run run' =>
      run' ≠ [] ∧ ∀ x ∈ run, ∀ y ∈ run', value x < value y := by
    refine ⟨fun a b c hab hbc => ⟨hbc.1, fun x hx y hy => ?_⟩⟩
    obtain ⟨z, hz⟩ := exists_mem_of_ne_nil _ hab.1
    exact (hab.2 x hx z hz).trans (hbc.2 z hz y hy)
  exact (isChain_iff_pairwise.mp hchain).imp And.right

end Runs

end ItemDependencies.Library
