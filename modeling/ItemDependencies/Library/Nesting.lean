import ItemDependencies.Library.ParentChain
import ItemDependencies.Library.PartitionPoint
import Mathlib.Data.Nat.Find

/-!
# Nested items in one pass

Items are given in an order in which what encloses an item comes before it.  One
pass with a stack of the items that are still open finds the innermost item
around each one, its parent.  The positions of the parents form a forest, and
marks are carried up or down in it by a pass backwards or forwards.
-/

namespace ItemDependencies.Library

open List Option

universe u

variable {α : Type u}

/-- The position of the innermost item around each item.  It fails at an item that the innermost
open one does not enclose.  The open items are given with their positions, the innermost first. -/
def nestingParents (closed encloses : α → α → Bool) :
    List (Nat × α) → Nat → List α → Option (List (Option Nat))
  | _, _, [] => some []
  | stack, index, item :: items =>
    let stack := stack.dropWhile fun ancestor => closed ancestor.2 item
    if stack.head?.all fun parent => encloses parent.2 item then
      (nestingParents closed encloses ((index, item) :: stack) (index + 1) items).map
        (stack.head?.map Prod.fst :: ·)
    else none

/-- The parent in a list of parents. -/
def parentAt (parents : List (Option Nat)) (index : Nat) : Option Nat := parents[index]?.join

/-- An item passes its mark and what it got to its parent. -/
def markParent (marked : Nat → Bool) (parents : List (Option Nat)) (index : Nat)
    (below : List Bool) : List Bool :=
  match parentAt parents index with
  | none => below
  | some parent => below.modify parent (· || (marked index || below[index]?.getD false))

/-- Whether something below each item is marked: a pass from the last item to the first. -/
def markAncestors (marked : Nat → Bool) (parents : List (Option Nat)) : List Bool :=
  (List.range parents.length).foldr (markParent marked parents)
    (List.replicate parents.length false)

/-- An item gets what its parent has got, changed by the step. -/
def inheritMark (step : Nat → Option Nat → Option Nat) (parents : List (Option Nat))
    (above : List (Option Nat)) (index : Nat) : List (Option Nat) :=
  match parentAt parents index with
  | none => above
  | some parent => above.set index (step parent above[parent]?.join)

/-- What each item gets from above: a pass from the first item to the last. -/
def inheritMarks (step : Nat → Option Nat → Option Nat) (parents : List (Option Nat)) :
    List (Option Nat) :=
  (List.range parents.length).foldl (inheritMark step parents) (List.replicate parents.length none)

/-! ## Parents -/

/-- In this order what is closed stays closed, and what encloses an item is closed after it. -/
structure NestingOrder (before : α → α → Prop) (closed encloses : α → α → Bool) : Prop where
  stays : ∀ {a b c}, before a b → before b c → closed a b = true → closed a c = true
  inside : ∀ {a b c}, before a b → before b c → encloses a b = true → closed a c = true →
    closed b c = true
  trans : ∀ {a b c}, encloses a b = true → encloses b c = true → encloses a c = true
  alive : ∀ {a b}, before a b → encloses a b = true → closed a b = false

/-- The item at the first position is the innermost around the one at the second. -/
structure Innermost (encloses : α → α → Bool) (items : List α) (p i : Nat) : Prop where
  lt : p < i
  around : ∃ a b, items[p]? = some a ∧ items[i]? = some b ∧ encloses a b = true
  between : ∀ q : Nat, p < q → q < i → ∀ a b, items[q]? = some a → items[i]? = some b →
    encloses a b = false

/-- The items are nested, and their parents are the innermost items around them. -/
structure IsNesting (closed encloses : α → α → Bool) (items : List α)
    (parents : List (Option Nat)) : Prop where
  length : parents.length = items.length
  nested : items.Pairwise fun a b => closed a b = true ∨ encloses a b = true
  innermost : ∀ p i : Nat, parentAt parents i = some p ↔ Innermost encloses items p i

section Parents

variable {before : α → α → Prop} {closed encloses : α → α → Bool}

/-- The stack after some items. -/
structure OpenItems (closed encloses : α → α → Bool) (done items : List α)
    (stack : List (Nat × α)) : Prop where
  sound : ∀ p a, (p, a) ∈ stack → done[p]? = some a
  chain : stack.Pairwise fun x y => y.1 < x.1 ∧ encloses y.2 x.2 = true
  complete : ∀ p a, done[p]? = some a → (p, a) ∈ stack ∨ ∀ b ∈ items, closed a b = true

variable (h : NestingOrder before closed encloses) {done items : List α} {item : α}
  {stack : List (Nat × α)}

include h in
/-- What is left open at an item. -/
theorem OpenItems.left (hopen : OpenItems closed encloses done (item :: items) stack)
    (hsorted : (done ++ item :: items).Pairwise before) {p : Nat} {a : α} :
    (p, a) ∈ (stack.dropWhile fun ancestor => closed ancestor.2 item) ↔
      done[p]? = some a ∧ closed a item = false := by
  obtain ⟨hdone, -, hcross⟩ := pairwise_append.mp hsorted
  have hpart : Partitioned (fun ancestor : Nat × α => closed ancestor.2 item) stack := by
    refine hopen.chain.imp_of_mem fun {x y} hx hy hxy hclosed => ?_
    obtain ⟨hlt, hget⟩ := List.getElem?_eq_some_iff.mp (hopen.sound _ _ hx)
    obtain ⟨hlt', hget'⟩ := List.getElem?_eq_some_iff.mp (hopen.sound _ _ hy)
    have hbefore : before y.2 x.2 := by
      rw [← hget, ← hget']
      exact pairwise_iff_getElem.mp hdone _ _ hlt' hlt hxy.1
    exact h.inside hbefore (hcross _ (mem_of_getElem? (hopen.sound _ _ hx)) item (by simp))
      hxy.2 hclosed
  rw [mem_dropWhile_iff hpart]
  constructor
  · exact fun ⟨hmem, hlive⟩ => ⟨hopen.sound p a hmem, hlive⟩
  · rintro ⟨hget, hlive⟩
    refine ⟨(hopen.complete p a hget).resolve_right fun hclosed => ?_, hlive⟩
    rw [hclosed item (by simp)] at hlive
    cases hlive

variable {left : List (Nat × α)}

include h in
/-- The stack after one more item that fits into the innermost open one. -/
theorem OpenItems.push (hopen : OpenItems closed encloses done (item :: items) stack)
    (hsorted : (done ++ item :: items).Pairwise before)
    (hleft : (stack.dropWhile fun ancestor => closed ancestor.2 item) = left)
    (hfits : ∀ x ∈ left, encloses x.2 item = true) :
    OpenItems closed encloses (done ++ [item]) items ((done.length, item) :: left) := by
  obtain ⟨-, hitems, hcross⟩ := pairwise_append.mp hsorted
  have hmem : ∀ p a, (p, a) ∈ left ↔ done[p]? = some a ∧ closed a item = false := fun p a => by
    rw [← hleft]
    exact hopen.left h hsorted
  have hget : ∀ {p : Nat} {a : α}, done[p]? = some a → (done ++ [item])[p]? = some a :=
    fun hget => getElem?_append_left (List.getElem?_eq_some_iff.mp hget).1 ▸ hget
  refine ⟨fun p a hx => ?_, pairwise_cons.mpr ⟨fun x hx => ?_, ?_⟩, fun p a hp => ?_⟩
  · rcases mem_cons.mp hx with heq | hx
    · cases heq
      simp
    · exact hget ((hmem p a).mp hx).1
  · exact ⟨(List.getElem?_eq_some_iff.mp ((hmem x.1 x.2).mp hx).1).1, hfits x hx⟩
  · rw [← hleft]
    exact hopen.chain.sublist (dropWhile_suffix _).sublist
  · rcases lt_or_ge p done.length with hlt | hge
    · rw [getElem?_append_left hlt] at hp
      cases hclosed : closed a item with
      | false => exact .inl (mem_cons_of_mem _ ((hmem p a).mpr ⟨hp, hclosed⟩))
      | true =>
        refine .inr fun b hb => ?_
        exact h.stays (hcross a (mem_of_getElem? hp) item (by simp))
          ((pairwise_cons.mp hitems).1 b hb) hclosed
    · rw [getElem?_append_right hge] at hp
      obtain ⟨hlt, heq⟩ := List.getElem?_eq_some_iff.mp hp
      obtain rfl : p = done.length := by
        simp only [length_singleton] at hlt
        omega
      simp only [Nat.sub_self, getElem_cons_zero] at heq
      subst heq
      exact .inl (by simp)

include h in
/-- An item fits into the innermost open one if and only if it is nested with all earlier ones. -/
theorem OpenItems.fits_iff (hopen : OpenItems closed encloses done (item :: items) stack)
    (hsorted : (done ++ item :: items).Pairwise before)
    (hleft : (stack.dropWhile fun ancestor => closed ancestor.2 item) = left) :
    (∀ a ∈ done, closed a item = true ∨ encloses a item = true) ↔
      ∀ x ∈ left.head?, encloses x.2 item = true := by
  have hmem : ∀ p a, (p, a) ∈ left ↔ done[p]? = some a ∧ closed a item = false := fun p a => by
    rw [← hleft]
    exact hopen.left h hsorted
  constructor
  · intro hnested x hx
    obtain ⟨hget, hlive⟩ := (hmem x.1 x.2).mp (mem_of_mem_head? hx)
    refine (hnested x.2 (mem_of_getElem? hget)).resolve_left ?_
    rw [hlive]
    exact Bool.false_ne_true
  · intro hfits a ha
    obtain ⟨p, hp⟩ := getElem?_of_mem ha
    cases hclosed : closed a item with
    | true => exact .inl rfl
    | false =>
      have hpa := (hmem p a).mpr ⟨hp, hclosed⟩
      have hchain := hopen.chain.sublist (hleft ▸ (dropWhile_suffix _).sublist)
      cases left with
      | nil => cases hpa
      | cons x rest =>
        have hx := hfits x rfl
        rcases mem_cons.mp hpa with heq | hpa
        · rw [← heq] at hx
          exact .inr hx
        · exact .inr (h.trans ((pairwise_cons.mp hchain).1 _ hpa).2 hx)

include h in
/-- The innermost open item is the parent. -/
theorem OpenItems.innermost_iff (hopen : OpenItems closed encloses done (item :: items) stack)
    (hsorted : (done ++ item :: items).Pairwise before)
    (hleft : (stack.dropWhile fun ancestor => closed ancestor.2 item) = left)
    (hfits : ∀ x ∈ left.head?, encloses x.2 item = true) (p : Nat) :
    Innermost encloses (done ++ item :: items) p done.length ↔
      left.head?.map Prod.fst = some p := by
  obtain ⟨-, -, hcross⟩ := pairwise_append.mp hsorted
  have hmem : ∀ p a, (p, a) ∈ left ↔ done[p]? = some a ∧ closed a item = false := fun p a => by
    rw [← hleft]
    exact hopen.left h hsorted
  have hchain := hopen.chain.sublist (hleft ▸ (dropWhile_suffix _).sublist)
  have hitem : (done ++ item :: items)[done.length]? = some item := by simp
  have hget : ∀ {q : Nat}, q < done.length → (done ++ item :: items)[q]? = done[q]? :=
    getElem?_append_left
  have halive : ∀ {q : Nat} {a : α}, done[q]? = some a → encloses a item = true →
      (q, a) ∈ left := fun hq hencl =>
    (hmem _ _).mpr ⟨hq, h.alive (hcross _ (mem_of_getElem? hq) item (by simp)) hencl⟩
  constructor
  · rintro ⟨hlt, ⟨a, b, ha, hb, hencl⟩, hbetween⟩
    rw [hget hlt] at ha
    cases hitem.symm.trans hb
    have hpa := halive ha hencl
    cases left with
    | nil => cases hpa
    | cons x rest =>
      rcases mem_cons.mp hpa with heq | hpa
      · rw [← heq]
        rfl
      · obtain ⟨hx, -⟩ := (hmem x.1 x.2).mp (by simp)
        have hltx := (List.getElem?_eq_some_iff.mp hx).1
        have := hbetween x.1 ((pairwise_cons.mp hchain).1 _ hpa).1 hltx x.2 item
          ((hget hltx).trans hx) hitem
        rw [hfits x rfl] at this
        cases this
  · intro hhead
    obtain ⟨x, hx, rfl⟩ := map_eq_some_iff.mp hhead
    obtain ⟨hget', -⟩ := (hmem x.1 x.2).mp (mem_of_mem_head? hx)
    have hlt := (List.getElem?_eq_some_iff.mp hget').1
    refine ⟨hlt, ⟨x.2, item, (hget hlt).trans hget', hitem, hfits x hx⟩, ?_⟩
    intro q hpq hq a b ha hb
    rw [hget hq] at ha
    cases hitem.symm.trans hb
    rw [← Bool.not_eq_true]
    intro hencl
    have hqa := halive ha hencl
    cases left with
    | nil => cases hx
    | cons y rest =>
      cases hx
      rcases mem_cons.mp hqa with heq | hqa
      · cases heq
        exact absurd hpq (lt_irrefl _)
      · exact absurd hpq (((pairwise_cons.mp hchain).1 _ hqa).1).asymm

include h in
theorem nestingParents_spec (hopen : OpenItems closed encloses done items stack)
    (hsorted : (done ++ items).Pairwise before) {parents : List (Option Nat)}
    (hrun : nestingParents closed encloses stack done.length items = some parents) :
    parents.length = items.length ∧
      (∀ a ∈ done, ∀ b ∈ items, closed a b = true ∨ encloses a b = true) ∧
      (items.Pairwise fun a b => closed a b = true ∨ encloses a b = true) ∧
      ∀ p k : Nat, parentAt parents k = some p ↔
        Innermost encloses (done ++ items) p (done.length + k) := by
  induction items generalizing done stack parents with
  | nil =>
    cases hrun
    refine ⟨rfl, by simp, .nil, fun p k => ⟨fun hk => by simp [parentAt] at hk, fun hk => ?_⟩⟩
    obtain ⟨a, b, -, hb, -⟩ := hk.around
    rw [append_nil, getElem?_eq_none (by omega)] at hb
    cases hb
  | cons item items ih =>
    rw [nestingParents] at hrun
    set left := stack.dropWhile fun ancestor => closed ancestor.2 item with hleft
    obtain ⟨hall, hrun⟩ := ite_none_right_eq_some.mp hrun
    obtain ⟨rest, hrest, rfl⟩ := map_eq_some_iff.mp hrun
    have hfits : ∀ x ∈ left.head?, encloses x.2 item = true := (all_eq_true _ _).mp hall
    have hdone := (hopen.fits_iff h hsorted hleft.symm).mpr hfits
    have hinner := hopen.innermost_iff h hsorted hleft.symm hfits
    have hpush := hopen.push h hsorted hleft.symm fun x hx => by
      obtain ⟨hget, hlive⟩ := (hopen.left h hsorted).mp (hleft ▸ hx)
      refine (hdone x.2 (mem_of_getElem? hget)).resolve_left ?_
      rw [hlive]
      exact Bool.false_ne_true
    have happend : done ++ item :: items = done ++ [item] ++ items := by simp
    have hlength : (done ++ [item]).length = done.length + 1 := by simp
    obtain ⟨hlen, hcross, hpairs, hparents⟩ :=
      ih hpush (happend ▸ hsorted) (by rw [hlength]; exact hrest)
    refine ⟨by simp [hlen], fun a ha => ?_, pairwise_cons.mpr ⟨?_, hpairs⟩, fun p k => ?_⟩
    · exact forall_mem_cons.mpr ⟨hdone a ha, hcross a (by simp [ha])⟩
    · exact hcross item (by simp)
    · cases k with
      | zero =>
        rw [Nat.add_zero, hinner p]
        rfl
      | succ k =>
        rw [happend, Nat.add_comm k 1, ← Nat.add_assoc, ← hlength, ← hparents p k]
        simp [parentAt, Nat.add_comm 1 k]

include h in
theorem nestingParents_total (hopen : OpenItems closed encloses done items stack)
    (hsorted : (done ++ items).Pairwise before)
    (hnested : (done ++ items).Pairwise fun a b => closed a b = true ∨ encloses a b = true) :
    ∃ parents, nestingParents closed encloses stack done.length items = some parents := by
  induction items generalizing done stack with
  | nil => exact ⟨[], rfl⟩
  | cons item items ih =>
    have hdone : ∀ a ∈ done, closed a item = true ∨ encloses a item = true := fun a ha =>
      (pairwise_append.mp hnested).2.2 a ha item (by simp)
    set left := stack.dropWhile fun ancestor => closed ancestor.2 item with hleft
    have hfits := (hopen.fits_iff h hsorted hleft.symm).mp hdone
    have hpush := hopen.push h hsorted hleft.symm fun x hx => by
      obtain ⟨hget, hlive⟩ := (hopen.left h hsorted).mp (hleft ▸ hx)
      refine (hdone x.2 (mem_of_getElem? hget)).resolve_left ?_
      rw [hlive]
      exact Bool.false_ne_true
    have happend : done ++ item :: items = done ++ [item] ++ items := by simp
    have hlength : (done ++ [item]).length = done.length + 1 := by simp
    obtain ⟨parents, hparents⟩ := ih hpush (happend ▸ hsorted) (happend ▸ hnested)
    rw [hlength] at hparents
    refine ⟨left.head?.map Prod.fst :: parents, ?_⟩
    rw [nestingParents, ← hleft, if_pos ((all_eq_true _ _).mpr hfits), hparents]
    rfl

end Parents

section Forest

variable {before : α → α → Prop} {closed encloses : α → α → Bool} {items : List α}
  {parents : List (Option Nat)} {i j p : Nat}

theorem openItems_nil : OpenItems closed encloses [] items [] :=
  ⟨fun _ _ hx => by simp at hx, .nil, fun _ _ hp => by simp at hp⟩

/-- The pass returns the parents, and it fails only if the items are not nested. -/
theorem nestingParents_eq_some (h : NestingOrder before closed encloses)
    (hsorted : items.Pairwise before) :
    (∀ parents, nestingParents closed encloses [] 0 items = some parents →
      IsNesting closed encloses items parents) ∧
    ((∃ parents, nestingParents closed encloses [] 0 items = some parents) ↔
      items.Pairwise fun a b => closed a b = true ∨ encloses a b = true) := by
  have hspec : ∀ parents, nestingParents closed encloses [] 0 items = some parents →
      IsNesting closed encloses items parents := by
    intro parents hrun
    obtain ⟨hlength, -, hnested, hinner⟩ := nestingParents_spec h openItems_nil hsorted hrun
    refine ⟨hlength, hnested, fun p i => ?_⟩
    rw [hinner, length_nil, Nat.zero_add, nil_append]
  refine ⟨hspec, fun ⟨parents, hrun⟩ => (hspec parents hrun).nested, fun hnested => ?_⟩
  exact nestingParents_total h openItems_nil hsorted hnested

theorem IsNesting.parent_lt (hp : IsNesting closed encloses items parents)
    (hup : Up (parentAt parents) i j) : j < i := ((hp.innermost j i).mp hup).lt

/-- An item that something encloses has an innermost one around it. -/
theorem exists_innermost (hlt : j < i) {a b : α} (ha : items[j]? = some a) (hb : items[i]? = some b)
    (hencl : encloses a b = true) : ∃ q, j ≤ q ∧ Innermost encloses items q i := by
  classical
  let P (q : Nat) : Prop := q < i ∧ ∃ c, items[q]? = some c ∧ encloses c b = true
  have hj : P j := ⟨hlt, a, ha, hencl⟩
  obtain ⟨hqi, c, hc, hcb⟩ : P (Nat.findGreatest P i) := Nat.findGreatest_spec hlt.le hj
  refine ⟨Nat.findGreatest P i, Nat.le_findGreatest hlt.le hj, hqi, ⟨c, b, hc, hb, hcb⟩, ?_⟩
  intro r hr hri d b' hd hb'
  cases hb.symm.trans hb'
  rw [← Bool.not_eq_true]
  exact fun hdb => Nat.findGreatest_is_greatest hr hri.le ⟨hri, d, hd, hdb⟩

/-- What is above an item in the forest are the earlier items that enclose it. -/
theorem IsNesting.above_iff (hp : IsNesting closed encloses items parents)
    (h : NestingOrder before closed encloses) (hsorted : items.Pairwise before) :
    Relation.TransGen (Up (parentAt parents)) i j ↔
      j < i ∧ ∃ a b, items[j]? = some a ∧ items[i]? = some b ∧ encloses a b = true := by
  constructor
  · intro hab
    induction hab with
    | single hup =>
      have hinner := (hp.innermost _ _).mp hup
      exact ⟨hinner.lt, hinner.around⟩
    | tail _ hup ih =>
      obtain ⟨hlt, a, b, ha, hb, hencl⟩ := ih
      obtain ⟨hlt', ⟨c, d, hc, hd, hencl'⟩, -⟩ := (hp.innermost _ _).mp hup
      cases ha.symm.trans hd
      exact ⟨hlt'.trans hlt, c, b, hc, hb, h.trans hencl' hencl⟩
  · rintro ⟨hlt, a, b, ha, hb, hencl⟩
    -- the induction is on the item below; its parent is between the two
    induction i using Nat.strong_induction_on generalizing b with
    | h i ih =>
      obtain ⟨q, hjq, hinner⟩ := exists_innermost hlt ha hb hencl
      have hup : Up (parentAt parents) i q := (hp.innermost q i).mpr hinner
      obtain ⟨hqi, ⟨c, b', hc, hb', hcb⟩, -⟩ := hinner
      rcases hjq.eq_or_lt with rfl | hjq
      · exact .single hup
      refine .head hup (ih q hqi hjq c hc ?_)
      -- the outer item cannot be closed before the one in between
      obtain ⟨hj, rfl⟩ := List.getElem?_eq_some_iff.mp ha
      obtain ⟨hq, rfl⟩ := List.getElem?_eq_some_iff.mp hc
      obtain ⟨hi, rfl⟩ := List.getElem?_eq_some_iff.mp hb
      have hpairs := pairwise_iff_getElem.mp hsorted
      refine (pairwise_iff_getElem.mp hp.nested j q hj hq hjq).resolve_left fun hclosed => ?_
      have := h.stays (hpairs j q hj hq hjq) (hpairs q i hq hi hqi) hclosed
      rw [h.alive (hpairs j i hj hi hlt) hencl] at this
      cases this

end Forest

/-! ## Marks -/

section Marks

variable {parents : List (Option Nat)} {marked : Nat → Bool} {i j p : Nat}

theorem lt_length_of_up (h : Up (parentAt parents) i j) : i < parents.length := by
  by_contra hge
  rw [Up, parentAt, getElem?_eq_none (by omega)] at h
  cases h

/-- The marks once the items from a position on have passed them on. -/
def MarkedFrom (marked : Nat → Bool) (parents : List (Option Nat)) (m : Nat) (below : List Bool) :
    Prop :=
  below.length = parents.length ∧ ∀ i : Nat, below[i]?.getD false = true ↔
    ∃ c, m ≤ c ∧ Up (parentAt parents) c i ∧
      (marked c = true ∨ ∃ j, Relation.TransGen (Up (parentAt parents)) j c ∧ marked j = true)

theorem MarkedFrom.iff {m : Nat} {below : List Bool} (h : MarkedFrom marked parents m below)
    (hlt : ∀ i p, Up (parentAt parents) i p → p < i) (hi : m ≤ i + 1) :
    below[i]?.getD false = true ↔
      ∃ j, Relation.TransGen (Up (parentAt parents)) j i ∧ marked j = true := by
  rw [h.2]
  constructor
  · rintro ⟨c, -, hup, hc | ⟨j, hj, hmark⟩⟩
    · exact ⟨c, .single hup, hc⟩
    · exact ⟨j, hj.tail hup, hmark⟩
  · rintro ⟨j, hj, hmark⟩
    rcases Relation.TransGen.tail'_iff.mp hj with ⟨c, hjc, hup⟩
    refine ⟨c, hi.trans (hlt c i hup), hup, ?_⟩
    rcases Relation.reflTransGen_iff_eq_or_transGen.mp hjc with rfl | hjc
    · exact .inl hmark
    · exact .inr ⟨j, hjc, hmark⟩

/-- One item passes its mark on. -/
theorem MarkedFrom.step {m : Nat} {below : List Bool} (h : MarkedFrom marked parents (m + 1) below)
    (hlt : ∀ i p, Up (parentAt parents) i p → p < i) :
    MarkedFrom marked parents m (markParent marked parents m below) := by
  have hm := h.iff hlt (i := m) le_rfl
  have hsplit : ∀ {Q : Nat → Prop}, (∃ c, m ≤ c ∧ Q c) ↔ Q m ∨ ∃ c, m + 1 ≤ c ∧ Q c := by
    intro Q
    constructor
    · rintro ⟨c, hc, hQ⟩
      rcases hc.eq_or_lt with rfl | hc
      · exact .inl hQ
      · exact .inr ⟨c, hc, hQ⟩
    · rintro (hQ | ⟨c, hc, hQ⟩)
      · exact ⟨m, le_rfl, hQ⟩
      · exact ⟨c, by omega, hQ⟩
  rw [markParent]
  cases hparent : parentAt parents m with
  | none =>
    refine ⟨h.1, fun i => ?_⟩
    have hup : ¬Up (parentAt parents) m i := fun hup => by cases hparent.symm.trans hup
    rw [hsplit, ← h.2 i]
    simp [hup]
  | some p =>
    have hup : Up (parentAt parents) m p := hparent
    have hp : p < below.length := h.1 ▸ (hlt m p hup).trans (lt_length_of_up hup)
    refine ⟨by rw [length_modify, h.1], fun i => ?_⟩
    rw [hsplit, ← h.2 i, ← hm]
    rcases eq_or_ne p i with rfl | hpi
    · rw [getElem?_modify_eq, getElem?_eq_getElem hp]
      simp only [Option.map_eq_map, map_some, getD_some, Bool.or_eq_true, hup, true_and]
      exact or_comm
    · have hne : ¬Up (parentAt parents) m i := fun h => hpi (Option.some.inj (hup.symm.trans h))
      dsimp only
      rw [getElem?_modify_ne _ _ hpi]
      simp [hne]

/-- The pass marks what is above a marked item. -/
theorem markAncestors_iff (hlt : ∀ i p, Up (parentAt parents) i p → p < i) :
    (markAncestors marked parents)[i]?.getD false = true ↔
      ∃ j, Relation.TransGen (Up (parentAt parents)) j i ∧ marked j = true := by
  have key : ∀ (m : Nat) (below : List Bool), MarkedFrom marked parents m below →
      MarkedFrom marked parents 0 ((List.range m).foldr (markParent marked parents) below) := by
    intro m
    induction m with
    | zero => exact fun below h => h
    | succ m ih =>
      intro below h
      rw [range_succ, foldr_append]
      exact ih _ (h.step hlt)
  have hnone : MarkedFrom marked parents parents.length (List.replicate parents.length false) := by
    refine ⟨length_replicate, fun i => ⟨fun h => ?_, ?_⟩⟩
    · rw [getElem?_replicate] at h
      split at h <;> cases h
    · rintro ⟨c, hc, hup, -⟩
      exact absurd (lt_length_of_up hup) (by omega)
  exact (key _ _ hnone).iff hlt (Nat.zero_le _)

variable {step : Nat → Option Nat → Option Nat}

/-- What an item gets from its parent. -/
theorem inheritMarks_eq (hlt : ∀ i p, Up (parentAt parents) i p → p < i) (i : Nat) :
    (inheritMarks step parents)[i]?.join =
      (parentAt parents i).bind fun p => step p (inheritMarks step parents)[p]?.join := by
  have key : ∀ m ≤ parents.length, ∃ above : List (Option Nat),
      (List.range m).foldl (inheritMark step parents) (List.replicate parents.length none) = above ∧
        above.length = parents.length ∧ (∀ i, m ≤ i → above[i]?.join = none) ∧
        ∀ i < m, above[i]?.join = (parentAt parents i).bind fun p => step p above[p]?.join := by
    intro m
    induction m with
    | zero =>
      refine fun _ => ⟨_, rfl, by simp, fun i _ => ?_, by simp⟩
      rw [range_zero, foldl_nil, getElem?_replicate]
      split <;> rfl
    | succ m ih =>
      intro hm
      obtain ⟨above, hrun, hlength, hlater, hdone⟩ := ih (by omega)
      rw [range_succ, foldl_append, hrun, foldl_cons, foldl_nil, inheritMark]
      refine ⟨_, rfl, ?_⟩
      cases hparent : parentAt parents m with
      | none =>
        refine ⟨hlength, fun i hi => hlater i (by omega), fun i hi => ?_⟩
        rcases (Nat.lt_succ_iff.mp hi).eq_or_lt with rfl | hi
        · rw [hlater i le_rfl, hparent]
          rfl
        · exact hdone i hi
      | some p =>
        have hpm : p < m := hlt m p hparent
        have hset : ∀ {i : Nat}, i ≠ m →
            (above.set m (step p above[p]?.join))[i]? = above[i]? := fun hi =>
          getElem?_set_ne hi.symm
        refine ⟨by simp [hlength], fun i hi => ?_, fun i hi => ?_⟩
        · rw [hset (by omega)]
          exact hlater i (by omega)
        · rcases (Nat.lt_succ_iff.mp hi).eq_or_lt with rfl | hi
          · rw [getElem?_set_self (by omega), hparent, bind_some, hset hpm.ne]
            rfl
          · rw [hset hi.ne, hdone i hi]
            refine bind_congr fun q hq => ?_
            rw [hset ((hlt i q hq).trans hi).ne]
  obtain ⟨above, hrun, hlength, hlater, hdone⟩ := key parents.length le_rfl
  rw [inheritMarks, hrun]
  rcases lt_or_ge i parents.length with hi | hi
  · exact hdone i hi
  · rw [hlater i hi, parentAt, getElem?_eq_none hi]
    rfl

/-- Whether something above is marked. -/
theorem inheritMarks_isSome_iff (marked : Nat → Bool)
    (hlt : ∀ i p, Up (parentAt parents) i p → p < i)
    (hstep : ∀ p above, (step p above).isSome = (above.isSome || marked p)) :
    (inheritMarks step parents)[i]?.join.isSome = true ↔
      ∃ j, Relation.TransGen (Up (parentAt parents)) i j ∧ marked j = true := by
  induction i using Nat.strong_induction_on with
  | h i ih =>
    rw [inheritMarks_eq hlt]
    cases hp : parentAt parents i with
    | none =>
      refine ⟨fun h => (by cases h), ?_⟩
      rintro ⟨j, hij, -⟩
      obtain ⟨p, hup, -⟩ := Relation.TransGen.head'_iff.mp hij
      cases hp.symm.trans hup
    | some p =>
      have hup : Up (parentAt parents) i p := hp
      rw [bind_some, hstep, Bool.or_eq_true, ih p (hlt i p hup)]
      constructor
      · rintro (⟨j, hpj, hj⟩ | hmark)
        · exact ⟨j, .head hup hpj, hj⟩
        · exact ⟨p, .single hup, hmark⟩
      · rintro ⟨j, hij, hj⟩
        obtain ⟨q, hup', hqj⟩ := Relation.TransGen.head'_iff.mp hij
        cases hup.symm.trans hup'
        rcases Relation.reflTransGen_iff_eq_or_transGen.mp hqj with rfl | hpj
        · exact .inr hj
        · exact .inl ⟨j, hpj, hj⟩

/-- The nearest marked item above. -/
theorem inheritMarks_eq_some_iff (marked : Nat → Bool)
    (hlt : ∀ i p, Up (parentAt parents) i p → p < i)
    (hstep : ∀ p above, step p above = if marked p then some p else above) :
    (inheritMarks step parents)[i]?.join = some j ↔
      (Relation.TransGen (Up (parentAt parents)) i j ∧ marked j = true) ∧
        ∀ k, Relation.TransGen (Up (parentAt parents)) i k → marked k = true → k ≤ j := by
  have hle : ∀ {k l : Nat}, Relation.TransGen (Up (parentAt parents)) k l → l < k := by
    intro k l hkl
    induction hkl with
    | single hup => exact hlt _ _ hup
    | tail _ hup ih => exact (hlt _ _ hup).trans ih
  induction i using Nat.strong_induction_on with
  | h i ih =>
    rw [inheritMarks_eq hlt]
    cases hp : parentAt parents i with
    | none =>
      refine ⟨fun h => (by cases h), ?_⟩
      rintro ⟨⟨hij, -⟩, -⟩
      obtain ⟨p, hup, -⟩ := Relation.TransGen.head'_iff.mp hij
      cases hp.symm.trans hup
    | some p =>
      have hup : Up (parentAt parents) i p := hp
      have habove : ∀ k, Relation.TransGen (Up (parentAt parents)) i k ↔
          k = p ∨ Relation.TransGen (Up (parentAt parents)) p k := fun k => by
        constructor
        · intro hik
          obtain ⟨q, hup', hqk⟩ := Relation.TransGen.head'_iff.mp hik
          cases hup.symm.trans hup'
          exact Relation.reflTransGen_iff_eq_or_transGen.mp hqk
        · rintro (rfl | hpk)
          · exact .single hup
          · exact .head hup hpk
      rw [bind_some, hstep]
      simp only [habove]
      cases hmark : marked p with
      | true =>
        rw [if_pos rfl, Option.some.injEq]
        constructor
        · rintro rfl
          refine ⟨⟨.inl rfl, hmark⟩, fun k hk _ => ?_⟩
          rcases hk with rfl | hk
          · exact le_rfl
          · exact (hle hk).le
        · rintro ⟨⟨rfl | hpj, -⟩, hbest⟩
          · rfl
          · exact absurd (hle hpj) (hbest p (.inl rfl) hmark).not_gt
      | false =>
        rw [if_neg Bool.false_ne_true]
        refine (ih p (hlt i p hup)).trans ?_
        have hne : ∀ {k : Nat}, marked k = true → k ≠ p := by
          rintro k hk rfl
          rw [hmark] at hk
          cases hk
        constructor
        · rintro ⟨⟨hpj, hj⟩, hbest⟩
          exact ⟨⟨.inr hpj, hj⟩, fun k hk hmk => hbest k (hk.resolve_left (hne hmk)) hmk⟩
        · rintro ⟨⟨hpj, hj⟩, hbest⟩
          exact ⟨⟨hpj.resolve_left (hne hj), hj⟩, fun k hk => hbest k (.inr hk)⟩

end Marks

end ItemDependencies.Library
