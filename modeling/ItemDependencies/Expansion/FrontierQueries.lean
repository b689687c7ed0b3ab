import ItemDependencies.Expansion.FrontierTrees
import ItemDependencies.Library.MaximumTree

/-!
# Queries on frontier sets

Each query goes down a tree with a stack.  By induction on the height, what it finds in a tree is
what it finds in the two halves, and the rounds of its loop are fewer than the nodes of a full tree.
-/

namespace ItemDependencies

open Library List

namespace PersistentFrontierSets

variable {s : PersistentFrontierSets} {height start stop before nodeStart : Nat}
  {id left right : PersistentFrontierSetId} {A B : Finset Nat}

theorem one_round : 1 + 1 ≤ 2 ^ (height + 1) := by
  rw [Nat.pow_succ]
  exact Nat.mul_le_mul_right 2 (Nat.two_pow_pos height)

/-- The rounds for the two halves of a tree. -/
theorem rounds_halves {m n : Nat} (hm : m + 1 ≤ 2 ^ (height + 1)) (hn : n + 1 ≤ 2 ^ (height + 1)) :
    m + n + 1 + 1 ≤ 2 ^ (height + 1 + 1) := by
  rw [Nat.pow_succ 2 (height + 1)]
  omega

theorem exists_mem_halves {P : Nat → Prop} (hA : ∀ x ∈ A, x < 2 ^ height) :
    (∃ x ∈ halves height A B, P x) ↔ (∃ x ∈ A, P x) ∨ ∃ x ∈ B, P (2 ^ height + x) := by
  constructor
  · rintro ⟨x, hx, hP⟩
    rcases lt_or_ge x (2 ^ height) with hlt | hge
    · exact .inl ⟨x, (mem_halves_left hlt).mp hx, hP⟩
    · obtain ⟨y, rfl⟩ := Nat.exists_eq_add_of_le hge
      exact .inr ⟨y, mem_halves_right.mp hx, hP⟩
  · rintro (⟨x, hx, hP⟩ | ⟨x, hx, hP⟩)
    · exact ⟨x, (mem_halves_left (hA x hx)).mpr hx, hP⟩
    · exact ⟨2 ^ height + x, mem_halves_right.mpr hx, hP⟩

/-! ## Positions in a range -/

/-- A position of the set, from where the tree stands on, is in the range. -/
def MeetsRange (start stop nodeStart : Nat) (A : Finset Nat) : Prop :=
  ∃ x ∈ A, start ≤ nodeStart + x ∧ nodeStart + x < stop

theorem meetsRange_halves (hA : ∀ x ∈ A, x < 2 ^ height) :
    MeetsRange start stop nodeStart (halves height A B) ↔
      MeetsRange start stop nodeStart A ∨ MeetsRange start stop (nodeStart + 2 ^ height) B := by
  refine (exists_mem_halves hA).trans
    (or_congr_right (exists_congr fun x => and_congr_right fun _ => ?_))
  rw [Nat.add_assoc]

section Visits

variable {nodeStop : Nat}

/-- The tree is empty, or ends before the range, or starts behind it. -/
def OutOfRange (start stop nodeStart nodeStop : Nat) (id : PersistentFrontierSetId) : Prop :=
  id = emptyId ∨ nodeStop ≤ start ∨ stop ≤ nodeStart

theorem visitRange_skip (hout : OutOfRange start stop nodeStart nodeStop id) :
    s.visitRange start stop (id, height, nodeStart, nodeStop) = .ok .skip := if_pos hout

theorem visitRange_answer (hout : ¬OutOfRange start stop nodeStart nodeStop id)
    (hin : start ≤ nodeStart ∧ nodeStop ≤ stop) :
    s.visitRange start stop (id, height, nodeStart, nodeStop) = .ok (.answer ()) :=
  (if_neg hout).trans (if_pos hin)

theorem visitRange_push (hout : ¬OutOfRange start stop nodeStart nodeStop id)
    (hin : ¬(start ≤ nodeStart ∧ nodeStop ≤ stop))
    (hchildren : s.children id (height + 1) = .ok (left, right)) :
    s.visitRange start stop (id, height + 1, nodeStart, nodeStop) =
      .ok (.push [(left, height, nodeStart, nodeStart + 2 ^ height),
        (right, height, nodeStart + 2 ^ height, nodeStop)]) := by
  refine (if_neg hout).trans ((if_neg hin).trans ((if_neg (Nat.succ_ne_zero height)).trans ?_))
  rw [hchildren]
  rfl

end Visits

theorem not_meetsRange_of_out (h : s.IsStore) (hA : s.Holds height id A)
    (hout : OutOfRange start stop nodeStart (nodeStart + 2 ^ height) id) :
    ¬MeetsRange start stop nodeStart A := by
  rintro ⟨x, hx, hstart, hstop⟩
  rcases hout with hempty | hout | hout
  · rw [(h.eq_empty_iff hA).mpr hempty] at hx
    exact absurd hx (Finset.notMem_empty x)
  · exact absurd hstart (not_le.mpr ((Nat.add_lt_add_left (hA.lt x hx) _).trans_le hout))
  · exact absurd hstop (not_lt.mpr (hout.trans (Nat.le_add_right _ _)))

theorem meetsRange_of_in (h : s.IsStore) (hA : s.Holds height id A) (hne : id ≠ emptyId)
    (hin : start ≤ nodeStart ∧ nodeStart + 2 ^ height ≤ stop) :
    MeetsRange start stop nodeStart A := by
  obtain ⟨x, hx⟩ := Finset.nonempty_iff_ne_empty.mpr (mt (h.eq_empty_iff hA).mp hne)
  exact ⟨x, hx, hin.1.trans (Nat.le_add_right _ _),
    (Nat.add_lt_add_left (hA.lt x hx) _).trans_le hin.2⟩

/-- The search of a tree has an answer if a position of the set is in the range. -/
def SearchesRange (sets : PersistentFrontierSets) (start stop height : Nat)
    (id : PersistentFrontierSetId) (nodeStart : Nat) (A : Finset Nat) : Prop :=
  ∃ n answers, Answers (sets.visitRange start stop)
      [(id, height, nodeStart, nodeStart + 2 ^ height)] n answers ∧
    n + 1 ≤ 2 ^ (height + 1) ∧ (answers ≠ [] ↔ MeetsRange start stop nodeStart A)

theorem searchesRange_of_out (h : s.IsStore) (hA : s.Holds height id A)
    (hout : OutOfRange start stop nodeStart (nodeStart + 2 ^ height) id) :
    SearchesRange s start stop height id nodeStart A :=
  ⟨1, [], .skip (visitRange_skip hout) .nil, one_round,
    iff_of_false (fun h => h rfl) (not_meetsRange_of_out h hA hout)⟩

theorem searchesRange_of_in (h : s.IsStore) (hA : s.Holds height id A)
    (hout : ¬OutOfRange start stop nodeStart (nodeStart + 2 ^ height) id)
    (hin : start ≤ nodeStart ∧ nodeStart + 2 ^ height ≤ stop) :
    SearchesRange s start stop height id nodeStart A :=
  ⟨1, [()], .answer (visitRange_answer hout hin) .nil, one_round,
    iff_of_true (cons_ne_nil _ _) (meetsRange_of_in h hA (fun hempty => hout (.inl hempty)) hin)⟩

theorem searchesRange (h : s.IsStore) (hA : s.Holds height id A) (nodeStart : Nat) :
    SearchesRange s start stop height id nodeStart A := by
  induction height generalizing id A nodeStart with
  | zero =>
    by_cases hout : OutOfRange start stop nodeStart (nodeStart + 2 ^ 0) id
    · exact searchesRange_of_out h hA hout
    -- a single position is all in the range
    refine searchesRange_of_in h hA hout ?_
    rw [OutOfRange, not_or, not_or, not_le, not_le] at hout
    exact ⟨Nat.lt_succ_iff.mp hout.2.1, hout.2.2⟩
  | succ height ih =>
    by_cases hout : OutOfRange start stop nodeStart (nodeStart + 2 ^ (height + 1)) id
    · exact searchesRange_of_out h hA hout
    by_cases hin : start ≤ nodeStart ∧ nodeStart + 2 ^ (height + 1) ≤ stop
    · exact searchesRange_of_in h hA hout hin
    obtain ⟨left, right, B, C, hchildren, hB, hC, rfl⟩ := h.children_eq hA
    obtain ⟨m, lower, hlower, hm, hlowerIff⟩ := ih hB nodeStart
    obtain ⟨n, upper, hupper, hn, hupperIff⟩ := ih hC (nodeStart + 2 ^ height)
    have hstop : nodeStart + 2 ^ height + 2 ^ height = nodeStart + 2 ^ (height + 1) := by
      rw [Nat.add_assoc, ← Nat.two_pow_succ]
    rw [hstop] at hupper
    refine ⟨m + n + 1, lower ++ upper, .pair (visitRange_push hout hin hchildren) hlower hupper,
      rounds_halves hm hn, ?_⟩
    rw [meetsRange_halves hB.lt, ← hlowerIff, ← hupperIff, Ne, append_eq_nil_iff, not_and_or]

theorem containsInRange_eq (h : s.IsStore) (hA : s.Holds s.height id A) (hlt : start < stop)
    (hstop : stop ≤ s.sourceCount) : ∃ found, s.containsInRange id start stop = .ok found ∧
      (found = true ↔ ∃ x ∈ A, start ≤ x ∧ x < stop) := by
  have hsearch : SearchesRange s start stop s.height id 0 A := searchesRange h hA 0
  obtain ⟨n, answers, hanswers, hn, hiff⟩ := hsearch
  rw [Nat.zero_add] at hanswers
  refine ⟨answers.head?.isSome, ?_, ?_⟩
  · unfold containsInRange
    rw [if_neg (not_or.mpr ⟨not_le.mpr hlt, not_lt.mpr hstop⟩),
      hanswers.search_eq ((Nat.le_succ n).trans hn)]
    rfl
  · rw [isSome_head?, hiff]
    unfold MeetsRange
    simp only [Nat.zero_add]

/-! ## The last position before another one -/

/-- The search of a tree finds the last position of the set first. -/
def SearchesBefore (sets : PersistentFrontierSets) (before height : Nat)
    (id : PersistentFrontierSetId) (start : Nat) (A : Finset Nat) : Prop :=
  ∃ n answers, Answers (sets.visitBefore before) [(id, height, start)] n answers ∧
    n + 1 ≤ 2 ^ (height + 1) ∧
    IsLast (fun p => ∃ x ∈ A, p = start + x ∧ p < before) answers.head?

theorem searchesBefore_of_out (h : s.IsStore) (hA : s.Holds height id A)
    (hout : id = emptyId ∨ before ≤ start) : SearchesBefore s before height id start A := by
  refine ⟨1, [], .skip (if_pos hout) .nil, one_round, ?_⟩
  rintro p ⟨x, hx, rfl, hlt⟩
  rcases hout with hempty | hle
  · rw [(h.eq_empty_iff hA).mpr hempty] at hx
    exact absurd hx (Finset.notMem_empty x)
  · exact absurd hlt (not_lt.mpr (hle.trans (Nat.le_add_right _ _)))

theorem searchesBefore (h : s.IsStore) (hA : s.Holds height id A) (start : Nat)
    (hlt : ∀ x ∈ A, start + x < s.sourceCount) : SearchesBefore s before height id start A := by
  induction height generalizing id A start with
  | zero =>
    by_cases hout : id = emptyId ∨ before ≤ start
    · exact searchesBefore_of_out h hA hout
    obtain ⟨hid, rfl⟩ := (holds_zero hA).resolve_left fun hempty => hout (.inl hempty.1)
    have hstart : start < s.sourceCount := hlt 0 (Finset.mem_singleton_self 0)
    have hvisit : s.visitBefore before (id, 0, start) = .ok (.answer start) := by
      refine (if_neg hout).trans ((if_pos rfl).trans (if_neg ?_))
      exact not_or.mpr ⟨not_not.mpr hid, not_le.mpr hstart⟩
    refine ⟨1, [start], .answer hvisit .nil, one_round, ⟨0, Finset.mem_singleton_self 0, rfl, ?_⟩,
      ?_⟩
    · exact not_le.mp (not_or.mp hout).2
    · rintro p hp ⟨x, hx, rfl, -⟩
      rw [Finset.mem_singleton.mp hx] at hp
      exact absurd hp (lt_irrefl _)
  | succ height ih =>
    by_cases hout : id = emptyId ∨ before ≤ start
    · exact searchesBefore_of_out h hA hout
    obtain ⟨left, right, B, C, hchildren, hB, hC, rfl⟩ := h.children_eq hA
    have hvisit : s.visitBefore before (id, height + 1, start) =
        .ok (.push [(right, height, start + 2 ^ height), (left, height, start)]) := by
      refine (if_neg hout).trans ((if_neg (Nat.succ_ne_zero height)).trans ?_)
      rw [hchildren]
      rfl
    obtain ⟨m, lower, hlower, hm, hlowerLast⟩ := ih hB start fun x hx =>
      hlt x ((mem_halves_left (hB.lt x hx)).mpr hx)
    obtain ⟨n, upper, hupper, hn, hupperLast⟩ := ih hC (start + 2 ^ height) fun x hx => by
      rw [Nat.add_assoc]
      exact hlt _ (mem_halves_right.mpr hx)
    refine ⟨n + m + 1, upper ++ lower, .pair hvisit hupper hlower, rounds_halves hn hm, ?_⟩
    rw [head?_append]
    refine hupperLast.or hlowerLast (fun p => ?_) ?_
    · refine (exists_mem_halves hB.lt).trans (or_congr_right ?_)
      simp only [Nat.add_assoc]
    · rintro p q ⟨x, hx, rfl, -⟩ ⟨y, -, rfl, -⟩
      exact (Nat.add_lt_add_left (hB.lt x hx) _).trans_le (Nat.le_add_right _ _)

theorem predecessor_eq (h : s.IsStore) (hA : s.Holds s.height id A)
    (hlt : ∀ x ∈ A, x < s.sourceCount) (before : Nat) : ∃ last,
      s.predecessor id before = .ok last ∧ IsLast (fun p => p ∈ A ∧ p < before) last := by
  have hsearch : SearchesBefore s before s.height id 0 A := searchesBefore h hA 0 fun x hx => by
    rw [Nat.zero_add]
    exact hlt x hx
  obtain ⟨n, answers, hanswers, hn, hlast⟩ := hsearch
  have hlast' : IsLast (fun p => p ∈ A ∧ p < before) answers.head? :=
    hlast.congr fun p => by simp
  refine ⟨answers.head?, ?_, hlast'⟩
  unfold predecessor
  by_cases hnone : before = 0 ∨ id = emptyId
  · rw [if_pos hnone, hlast'.eq_none_iff.mpr]
    rintro p ⟨hp, hpb⟩
    rcases hnone with rfl | hempty
    · exact absurd hpb (Nat.not_lt_zero p)
    · rw [(h.eq_empty_iff hA).mpr hempty] at hp
      exact absurd hp (Finset.notMem_empty p)
  · rw [if_neg hnone, hanswers.search_eq ((Nat.le_succ n).trans hn)]

/-! ## All positions -/

section Members

variable {parents : List (Option SourceUnitId)} {index : SourceAncestryIndex}

/-- The units at the positions of a set, in order. -/
def unitsOf (index : SourceAncestryIndex) (A : Finset Nat) : List SourceUnitId :=
  (ascending A).map index.unitAt

/-- The walk of a tree finds the units at the positions of the set, in order. -/
def ListsMembers (sets : PersistentFrontierSets) (index : SourceAncestryIndex) (height : Nat)
    (id : PersistentFrontierSetId) (start : Nat) (A : Finset Nat) : Prop :=
  ∃ n, Answers (sets.visitMember index) [(id, height, start)] n
      ((ascending A).map fun x => index.unitAt (start + x)) ∧
    n + 1 ≤ 2 ^ (height + 1)

theorem ascending_eq_singleton {a : Nat} (hcard : A.card = 1) (hleast : IsLeast (A : Set Nat) a) :
    ascending A = [a] := by
  obtain ⟨b, rfl⟩ := Finset.card_eq_one.mp hcard
  rw [Finset.mem_singleton.mp hleast.1]
  exact (eq_ascending (pairwise_singleton _ _) fun x => by simp).symm

theorem listsMembers (h : s.IsStore) (hindex : EntersUnits parents index)
    (hcount : s.sourceCount = parents.length) (hA : s.Holds height id A) (start : Nat)
    (hlt : ∀ x ∈ A, start + x < s.sourceCount) : ListsMembers s index height id start A := by
  have hempty :
      ∀ {height start}, ListsMembers s index height emptyId start ∅ := fun {height start} =>
    ⟨1, .skip rfl .nil, one_round⟩
  -- a set with one position is not taken apart
  have hsingle : ∀ {height id A start}, s.Holds height id A → (∀ x ∈ A, start + x < s.sourceCount) →
      id ≠ emptyId → A.card = 1 → ListsMembers s index height id start A := by
    intro height id A start hA hlt hne hcard
    obtain ⟨first, hfirst, hleast⟩ := h.first_eq hA hne
    have hentry : start + first < s.sourceCount := hlt first hleast.1
    have hsmall : start + first < u64Size := (hentry.trans_le h.fits).trans h.small
    refine ⟨1, ?_, one_round⟩
    rw [ascending_eq_singleton hcard hleast]
    refine .answer ?_ .nil
    refine (if_neg hne).trans ?_
    rw [h.count_eq hA, hcard, hfirst]
    show (if _ then _ else _) = _
    rw [if_neg (not_or.mpr ⟨not_le.mpr hsmall, not_le.mpr hentry⟩),
      hindex.unitAtEntry_eq (hcount ▸ hentry)]
    rfl
  induction height generalizing id A start with
  | zero =>
    rcases holds_zero hA with ⟨rfl, rfl⟩ | ⟨rfl, rfl⟩
    · exact hempty
    · exact hsingle hA hlt h.distinct.apart (Finset.card_singleton 0)
  | succ height ih =>
    by_cases hid : id = emptyId
    · rw [(h.eq_empty_iff hA).mpr hid, hid]
      exact hempty
    by_cases hcard : A.card = 1
    · exact hsingle hA hlt hid hcard
    obtain ⟨left, right, B, C, hchildren, hB, hC, rfl⟩ := h.children_eq hA
    obtain ⟨m, hlower, hm⟩ := ih hB start fun x hx => hlt x ((mem_halves_left (hB.lt x hx)).mpr hx)
    obtain ⟨n, hupper, hn⟩ := ih hC (start + 2 ^ height) fun x hx => by
      rw [Nat.add_assoc]
      exact hlt _ (mem_halves_right.mpr hx)
    have hvisit : s.visitMember index (id, height + 1, start) =
        .ok (.push [(left, height, start), (right, height, start + 2 ^ height)]) := by
      refine (if_neg hid).trans ?_
      rw [h.count_eq hA]
      show (if _ then _ else if _ then _ else _) = _
      rw [if_neg hcard, if_neg (Nat.succ_ne_zero height), hchildren]
      rfl
    refine ⟨m + n + 1, ?_, rounds_halves hm hn⟩
    rw [ascending_halves hB.lt, map_append, map_map]
    have hpair := Answers.pair hvisit hlower hupper
    simp only [Nat.add_assoc] at hpair
    exact hpair

theorem enumerate_eq (h : s.IsStore) (hindex : EntersUnits parents index)
    (hcount : s.sourceCount = parents.length) (hA : s.Holds s.height id A)
    (hlt : ∀ x ∈ A, x < s.sourceCount) :
    s.enumerate index id = .ok (unitsOf index A) := by
  obtain ⟨n, hanswers, hn⟩ := listsMembers h hindex hcount hA 0 fun x hx => by
    rw [Nat.zero_add]
    exact hlt x hx
  simp only [Nat.zero_add] at hanswers
  unfold enumerate
  rw [h.count_eq hA]
  exact hanswers.collect_eq [] ((Nat.le_succ n).trans hn)

end Members

end PersistentFrontierSets

end ItemDependencies
