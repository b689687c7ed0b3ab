import ItemDependencies.Library.MemoWalk

/-!
# Paths that are settled together

A walk goes up from a node until it gets to a value: one that is given from outside, one that an
earlier walk has left, or that of the last step.  Then the nodes of the path are settled from its
end, each by what comes down from the node above it.  A walk that comes back to its own path gets
a value for that.  What a node gets is what a walk without the earlier ones would have found.
-/

namespace ItemDependencies.Library

open List

universe u v

variable {α : Type u} {β : Type v} [DecidableEq α]

/-- Walk up to a value.  The node where the last step gives the value belongs to the path, a node
whose value is seen does not. -/
def climbPath (seen : List α → α → Option β) (step : α → WalkStep α β) (cycle : β) :
    Nat → List α → α → β × List α
  | 0, path, _ => (cycle, path)
  | fuel + 1, path, current =>
    match seen path current with
    | some value => (value, path)
    | none =>
      match step current with
      | .stop value => (value, path ++ [current])
      | .up next => climbPath seen step cycle fuel (path ++ [current]) next

/-- What is seen of a node: what it has from outside, what is known, and whether the path has come
back. -/
def seenOf (out known : α → Option β) (cycle : β) (path : List α) (current : α) : Option β :=
  (out current).or ((known current).or (if current ∈ path then some cycle else none))

/-- What lies beyond the last node has a value from outside. -/
def beyond (n : Nat) (value : β) (index : Nat) : Option β :=
  if n ≤ index then some value else none

/-- A node of the path gets what comes down to it, and passes it on. -/
def settle (combine : Nat → β → β) (index : Nat) (below : β × List (Option β)) :
    β × List (Option β) :=
  (combine index below.1, below.2.set index (some (combine index below.1)))

/-- The nodes of a path get their values, from the end of the path to its beginning. -/
def settlePath (combine : Nat → β → β) (value : β) (path : List Nat) (table : List (Option β)) :
    List (Option β) :=
  (path.foldr (settle combine) (value, table)).2

/-- A node has what a walk finds, and the value for a cycle where a walk does not end. -/
def Outcome (out : α → Option β) (step : α → WalkStep α β) (combine : α → β → β) (cycle : β)
    (a : α) (value : β) : Prop :=
  Resolves out (step · = ·) combine a value ∨ (∀ w, ¬Resolves out (step · = ·) combine a w) ∧
    value = cycle

variable {out known : α → Option β} {step : α → WalkStep α β} {combine : α → β → β} {cycle : β}
  {a next : α} {value : β}

omit [DecidableEq α] in
theorem Outcome.unique {value' : β} (h : Outcome out step combine cycle a value)
    (h' : Outcome out step combine cycle a value') : value = value' := by
  rcases h with h | ⟨hno, rfl⟩ <;> rcases h' with h' | ⟨hno', rfl⟩
  · exact h.unique (fun _ _ _ h h' => h.symm.trans h') h'
  · exact absurd h (hno' _)
  · exact absurd h' (hno _)
  · rfl

omit [DecidableEq α] in
theorem outcome_out (h : out a = some value) : Outcome out step combine cycle a value :=
  .inl (.out h)

omit [DecidableEq α] in
theorem outcome_stop (hno : out a = none) (h : step a = .stop value) :
    Outcome out step combine cycle a (combine a value) := .inl (.stop hno h)

omit [DecidableEq α] in
/-- What comes down from the next node. -/
theorem Outcome.up (hcycle : combine a cycle = cycle) (hno : out a = none)
    (hstep : step a = .up next) (h : Outcome out step combine cycle next value) :
    Outcome out step combine cycle a (combine a value) := by
  rcases h with h | ⟨hnever, rfl⟩
  · exact .inl (.up hno hstep h)
  · refine .inr ⟨fun w hw => ?_, hcycle⟩
    cases hw with
    | out h => cases h.symm.trans hno
    | stop _ h => cases h.symm.trans hstep
    | up _ h hnext =>
      cases h.symm.trans hstep
      exact hnever _ hnext

omit [DecidableEq α] in
theorem outcome_of_cycle (h : Relation.TransGen (GoesTo out (step · = ·)) a a) :
    Outcome out step combine cycle a cycle :=
  .inr ⟨fun _ hw => hw.irrefl (fun _ _ _ h h' => h.symm.trans h') h, rfl⟩

omit [DecidableEq α] in
theorem beyond_eq_none {n index : Nat} : beyond n value index = none ↔ index < n := by
  unfold beyond
  split
  · exact ⟨fun h => (by cases h), fun h => absurd h (by omega)⟩
  · exact ⟨fun _ => by omega, fun _ => rfl⟩

section Climb

variable {nodes : Finset α} {fuel : Nat} {path path' : List α}

theorem seenOf_out (path : List α) (h : out a = some value) :
    seenOf out known cycle path a = some value := by
  rw [seenOf, h]
  rfl

theorem seenOf_eq_none : seenOf out known cycle path a = none ↔
    out a = none ∧ known a = none ∧ a ∉ path := by
  simp only [seenOf, Option.or_eq_none_iff]
  refine and_congr_right fun _ => and_congr_right fun _ => ?_
  split
  · rename_i h
    exact ⟨fun h' => (by cases h'), fun h' => absurd h h'⟩
  · rename_i h
    exact ⟨fun _ => h, fun _ => rfl⟩

/-- A walk finds the outcome of its first node, and that of each node of its path. -/
theorem climbPath_spec (hnodes : ∀ b, out b = none → b ∈ nodes)
    (hcombine : ∀ b, out b = none → combine b cycle = cycle)
    (hknown : ∀ b w, out b = none → known b = some w → Outcome out step combine cycle b w)
    (hpath : ∀ b ∈ path, b ∈ nodes ∧ Relation.TransGen (GoesTo out (step · = ·)) b a)
    (hnodup : path.Nodup) (hfuel : nodes.card < fuel + path.length)
    (h : climbPath (seenOf out known cycle) step cycle fuel path a = (value, path')) :
    ∃ passed, path' = path ++ passed ∧ path'.Nodup ∧
      Outcome out step combine cycle a (passed.foldr combine value) ∧
      (passed.head? = some a ∨ passed = [] ∧ seenOf out known cycle path' a = some value) ∧
      (∀ b ∈ passed, out b = none ∧ known b = none) ∧
      ∀ before b after, passed = before ++ b :: after →
        Outcome out step combine cycle b (combine b (after.foldr combine value)) ∧
          ∀ next, step b = .up next → after.head? = some next ∨
            after = [] ∧ seenOf out known cycle path' next = some value := by
  induction fuel generalizing path a with
  | zero =>
    -- the path would have more nodes than there are
    have hsub : path.toFinset ⊆ nodes := fun b hb => (hpath b (mem_toFinset.mp hb)).1
    have hle := Finset.card_le_card hsub
    rw [toFinset_card_of_nodup hnodup] at hle
    omega
  | succ fuel ih =>
    rw [climbPath] at h
    cases hseen : seenOf out known cycle path a with
    | some found =>
      rw [hseen] at h
      cases h
      refine ⟨[], (append_nil _).symm, hnodup, ?_, .inr ⟨rfl, hseen⟩, by simp, by simp⟩
      · rw [foldr_nil]
        cases hout : out a with
        | some w =>
          rw [seenOf_out _ hout] at hseen
          cases hseen
          exact outcome_out hout
        | none =>
          rw [seenOf, hout, Option.none_or] at hseen
          cases hk : known a with
          | some w =>
            rw [hk] at hseen
            cases hseen
            exact hknown a value hout hk
          | none =>
            rw [hk, Option.none_or] at hseen
            split at hseen
            · rename_i hmem
              cases hseen
              exact outcome_of_cycle (hpath a hmem).2
            · cases hseen
    | none =>
      obtain ⟨hout, hk, hnew⟩ := seenOf_eq_none.mp hseen
      rw [hseen] at h
      dsimp only at h
      have hconcat : (path ++ [a]).Nodup := concat_eq_append ▸ hnodup.concat hnew
      cases hstep : step a with
      | stop found =>
        rw [hstep] at h
        cases h
        refine ⟨[a], rfl, hconcat, outcome_stop hout hstep, .inl rfl, fun b hb => ?_,
          fun before b after hsplit => ?_⟩
        · cases mem_singleton.mp hb
          exact ⟨hout, hk⟩
        · obtain ⟨rfl, hrest⟩ | ⟨as, rfl, hrest⟩ := cons_eq_append_iff.mp hsplit
          · cases hrest
            exact ⟨outcome_stop hout hstep, fun next hup => (by cases hstep.symm.trans hup)⟩
          · cases as <;> cases hrest
      | up next =>
        rw [hstep] at h
        dsimp only at h
        have hpath' : ∀ b ∈ path ++ [a], b ∈ nodes ∧
            Relation.TransGen (GoesTo out (step · = ·)) b next := by
          intro b hb
          rcases mem_append.mp hb with hb | hb
          · exact ⟨(hpath b hb).1, (hpath b hb).2.tail ⟨hout, hstep⟩⟩
          · cases mem_singleton.mp hb
            exact ⟨hnodes a hout, .single ⟨hout, hstep⟩⟩
        have hfuel' : nodes.card < fuel + (path ++ [a]).length := by
          rw [length_append, length_singleton]
          omega
        obtain ⟨passed, rfl, hnodup', hnext, hfirst, hfresh, hall⟩ := ih hpath' hconcat hfuel' h
        have ha := hnext.up (hcombine a hout) hout hstep
        refine ⟨a :: passed, by simp, hnodup', ha, .inl rfl, fun b hb => ?_,
          fun before b after hsplit => ?_⟩
        · rcases mem_cons.mp hb with rfl | hb
          · exact ⟨hout, hk⟩
          · exact hfresh b hb
        · obtain ⟨rfl, hrest⟩ | ⟨as, rfl, hrest⟩ := cons_eq_append_iff.mp hsplit
          · cases hrest
            refine ⟨ha, fun next' hup => ?_⟩
            cases hstep.symm.trans hup
            exact hfirst
          · exact hall as b after hrest

/-- A walk from a node of which nothing is seen. -/
theorem climbPath_start (hnodes : ∀ b, out b = none → b ∈ nodes)
    (hcombine : ∀ b, out b = none → combine b cycle = cycle)
    (hknown : ∀ b w, out b = none → known b = some w → Outcome out step combine cycle b w)
    (hfuel : nodes.card < fuel) (hout : out a = none) (hk : known a = none)
    (h : climbPath (seenOf out known cycle) step cycle fuel [] a = (value, path)) :
    path.Nodup ∧ a ∈ path ∧ (∀ b ∈ path, out b = none ∧ known b = none) ∧
      ∀ before b after, path = before ++ b :: after →
        Outcome out step combine cycle b (combine b (after.foldr combine value)) ∧
          ∀ next, step b = .up next → after.head? = some next ∨
            after = [] ∧ seenOf out known cycle path next = some value := by
  obtain ⟨passed, heq, hnodup, -, hhead, hfresh, hall⟩ := climbPath_spec hnodes hcombine hknown
    (fun b hb => absurd hb not_mem_nil) .nil hfuel h
  cases heq
  refine ⟨hnodup, ?_, hfresh, hall⟩
  rcases hhead with hhead | ⟨hnil, hseen⟩
  · exact mem_of_mem_head? hhead
  · have hnone : seenOf out known cycle passed a = none :=
      seenOf_eq_none.mpr ⟨hout, hk, hnil ▸ not_mem_nil⟩
    cases hseen.symm.trans hnone

end Climb

section Settle

variable {combine : Nat → β → β} {value : β} {path : List Nat} {table : List (Option β)}

omit [DecidableEq α] in
theorem foldr_settle_fst : (path.foldr (settle combine) (value, table)).1 =
    path.foldr combine value := by
  induction path with
  | nil => rfl
  | cons index path ih => rw [foldr_cons, settle, ih, foldr_cons]

theorem settlePath_cons {index : Nat} : settlePath combine value (index :: path) table =
    (settlePath combine value path table).set index
      (some (combine index (path.foldr combine value))) := by
  rw [settlePath, foldr_cons, settle, foldr_settle_fst]
  rfl

@[simp]
theorem length_settlePath : (settlePath combine value path table).length = table.length := by
  induction path with
  | nil => rfl
  | cons index path ih => rw [settlePath_cons, length_set, ih]

/-- What is not on the path stays as it is. -/
theorem settlePath_of_notMem {b : Nat} (hb : b ∉ path) :
    (settlePath combine value path table)[b]? = table[b]? := by
  induction path with
  | nil => rfl
  | cons index path ih =>
    rw [mem_cons, not_or] at hb
    rw [settlePath_cons, getElem?_set_ne (Ne.symm hb.1), ih hb.2]

/-- A node of the path gets what comes down from the rest of the path. -/
theorem settlePath_at {before after : List Nat} {b : Nat} (hpath : path = before ++ b :: after)
    (hnodup : path.Nodup) (hb : b < table.length) :
    (settlePath combine value path table)[b]? =
      some (some (combine b (after.foldr combine value))) := by
  induction path generalizing before with
  | nil => cases before <;> cases hpath
  | cons index path ih =>
    rw [nodup_cons] at hnodup
    rw [settlePath_cons]
    cases before with
    | nil =>
      cases hpath
      exact getElem?_set_self (by simpa using hb)
    | cons index' before =>
      cases hpath
      have hne : index ≠ b := fun heq => hnodup.1 (by simp [heq])
      rw [getElem?_set_ne hne]
      exact ih rfl hnodup.2

/-- A walk from a node without a value leaves every node of its path with its outcome, the first
node among them. -/
theorem climbPath_settlePath {out known : Nat → Option β} {step : Nat → WalkStep Nat β} {cycle : β}
    {fuel a : Nat} (hrange : ∀ b, out b = none → b < table.length)
    (hcombine : ∀ b, out b = none → combine b cycle = cycle)
    (hknown : ∀ b w, out b = none → known b = some w → Outcome out step combine cycle b w)
    (hfuel : table.length < fuel) (hout : out a = none) (hk : known a = none)
    (h : climbPath (seenOf out known cycle) step cycle fuel [] a = (value, path)) :
    a ∈ path ∧ (∀ b ∈ path, out b = none ∧ ∃ w,
        (settlePath combine value path table)[b]? = some (some w) ∧
          Outcome out step combine cycle b w) ∧
      ∀ b ∉ path, (settlePath combine value path table)[b]? = table[b]? := by
  obtain ⟨hnodup, hmem, hfresh, hpath⟩ := climbPath_start
    (fun b hb => Finset.mem_range.mpr (hrange b hb)) hcombine hknown
    (by rwa [Finset.card_range]) hout hk h
  refine ⟨hmem, fun b hb => ⟨(hfresh b hb).1, ?_⟩, fun b => settlePath_of_notMem⟩
  obtain ⟨before, after, hsplit⟩ := append_of_mem hb
  have hlt := hrange b (hfresh b hb).1
  exact ⟨_, settlePath_at hsplit hnodup hlt, (hpath before b after hsplit).1⟩

end Settle

end ItemDependencies.Library
