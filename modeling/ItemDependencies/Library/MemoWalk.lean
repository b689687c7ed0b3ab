import ItemDependencies.Library.Fallible
import ItemDependencies.Library.SortedMap
import Mathlib.Data.Finset.Card

/-!
# Walks with a memo

A walk goes up from a node until it gets to a value, and then every node on its path has this
value.  Later walks stop at a node whose value is known.  What is known is always what a walk
without the earlier ones would have found, so that neither the order of the walks nor what they
left behind matters.
-/

namespace ItemDependencies.Library

open List

universe u v

/-- A node either has a value or passes on to the next node. -/
inductive WalkStep (α : Type u) (β : Type v) where
  | stop (value : β)
  | up (next : α)
deriving DecidableEq

section Resolve

variable {α : Type u} {β : Type v}

/-- What a walk up from a node finds: what a node has from outside, or that of a last step, with
what each node on the way makes of it. -/
inductive Resolves (out : α → Option β) (step : α → WalkStep α β → Prop) (combine : α → β → β) :
    α → β → Prop
  | out {a : α} {value : β} (h : out a = some value) : Resolves out step combine a value
  | stop {a : α} {value : β} (hno : out a = none) (h : step a (.stop value)) :
      Resolves out step combine a (combine a value)
  | up {a next : α} {value : β} (hno : out a = none) (h : step a (.up next))
      (hnext : Resolves out step combine next value) :
      Resolves out step combine a (combine a value)

/-- The walk goes on from the first node to the second one. -/
def GoesTo (out : α → Option β) (step : α → WalkStep α β → Prop) (a next : α) : Prop :=
  out a = none ∧ step a (.up next)

variable {out : α → Option β} {step : α → WalkStep α β → Prop} {combine : α → β → β} {a : α}
  {value : β}

theorem Resolves.unique {value' : β} (hstep : ∀ a s s', step a s → step a s' → s = s')
    (h : Resolves out step combine a value) (h' : Resolves out step combine a value') :
    value = value' := by
  induction h generalizing value' with
  | out h =>
    cases h' with
    | out h' => exact Option.some.inj (h.symm.trans h')
    | stop hno => cases h.symm.trans hno
    | up hno => cases h.symm.trans hno
  | stop hno h =>
    cases h' with
    | out h' => cases h'.symm.trans hno
    | stop _ h' => cases hstep _ _ _ h h'; rfl
    | up _ h' => cases hstep _ _ _ h h'
  | up hno h _ ih =>
    cases h' with
    | out h' => cases h'.symm.trans hno
    | stop _ h' => cases hstep _ _ _ h h'
    | up _ h' hnext' =>
      cases hstep _ _ _ h h'
      rw [ih hnext']

/-- A node whose walk ends does not come back to itself. -/
theorem Resolves.irrefl (hstep : ∀ a s s', step a s → step a s' → s = s')
    (h : Resolves out step combine a value) : ¬Relation.TransGen (GoesTo out step) a a := by
  induction h with
  | out h =>
    intro hcycle
    obtain ⟨b, hb, -⟩ := Relation.TransGen.head'_iff.mp hcycle
    cases h.symm.trans hb.1
  | stop hno h =>
    intro hcycle
    obtain ⟨b, hb, -⟩ := Relation.TransGen.head'_iff.mp hcycle
    cases hstep _ _ _ h hb.2
  | up hno h _ ih =>
    intro hcycle
    obtain ⟨b, hb, hrest⟩ := Relation.TransGen.head'_iff.mp hcycle
    cases hstep _ _ _ h hb.2
    exact ih (Relation.TransGen.tail' hrest ⟨hno, h⟩)

end Resolve

variable {α : Type u} {β : Type v} [LinearOrder α]

/-- A node leads to a value: the one that is given for it, or else that of its step. -/
def WalksTo (base : SortedMap α β) (step : α → Option (WalkStep α β)) : α → β → Prop :=
  Resolves base.get (step · = some ·) fun _ value => value

/-- The node passes on to the next one. -/
def PassesTo (base : SortedMap α β) (step : α → Option (WalkStep α β)) : α → α → Prop :=
  GoesTo base.get (step · = some ·)

/-- The path is that of the nodes without a known value, in the order in which they were passed. -/
def walk {ε : Type v} (error : ε) (known : SortedMap α β) (step : α → Option (WalkStep α β)) :
    Nat → List α → α → Except ε (β × List α)
  | 0, _, _ => .error error
  | fuel + 1, path, current =>
    match known.get current with
    | some value => .ok (value, path)
    | none =>
      if current ∈ path then .error error
      else
        match step current with
        | none => .error error
        | some (.stop value) => .ok (value, path)
        | some (.up next) => walk error known step fuel (path ++ [current]) next

/-- Walk from a node whose value is not known, and keep the value for the path. -/
def memoize {ε : Type v} (error : ε) (step : α → Option (WalkStep α β)) (fuel : Nat)
    (known : SortedMap α β) (a : α) : Except ε (SortedMap α β) :=
  if known.contains a then .ok known
  else
    match walk error known step fuel [] a with
    | .error error => .error error
    | .ok (value, path) =>
      (path.map fun member => (member, value)).foldlM (SortedMap.insertNew error) known

variable {base known : SortedMap α β} {step : α → Option (WalkStep α β)} {a next : α} {value : β}

theorem WalksTo.unique {value' : β} (h : WalksTo base step a value)
    (h' : WalksTo base step a value') : value = value' :=
  Resolves.unique (fun _ _ _ h h' => Option.some.inj (h.symm.trans h')) h h'

/-- Everything that is given is known, and what is known is what a node leads to. -/
structure Memo (base : SortedMap α β) (step : α → Option (WalkStep α β))
    (known : SortedMap α β) : Prop where
  given : ∀ a value, base.get a = some value → known.get a = some value
  sound : ∀ a value, known.get a = some value → WalksTo base step a value

theorem memo_base : Memo base step base where
  given _ _ h := h
  sound _ _ h := .out h

theorem Memo.get_base (h : Memo base step known) (hknown : known.get a = none) :
    base.get a = none := by
  cases hget : base.get a with
  | none => rfl
  | some value => cases hknown.symm.trans (h.given a value hget)

section Walk

variable {ε : Type v} {error : ε} {fuel : Nat} {path path' : List α} {nodes : Finset α}

/-- A walk finds what its first node leads to, and all nodes of the path lead to it as well. -/
theorem walk_ok (hmemo : Memo base step known)
    (hpath : ∀ b ∈ path, known.get b = none ∧ ∀ value, WalksTo base step a value →
      WalksTo base step b value) (hnodup : path.Nodup)
    (h : walk error known step fuel path a = .ok (value, path')) :
    WalksTo base step a value ∧ path'.Nodup ∧ path ⊆ path' ∧
      (known.get a = none → (∃ next, step a = some (.up next)) → a ∈ path') ∧
      ∀ b ∈ path', known.get b = none ∧ WalksTo base step b value := by
  induction fuel generalizing path a with
  | zero => cases h
  | succ fuel ih =>
    rw [walk] at h
    cases hknown : known.get a with
    | some found =>
      rw [hknown] at h
      cases h
      have hreaches := hmemo.sound a value hknown
      exact ⟨hreaches, hnodup, List.Subset.refl _, fun h => (by cases h),
        fun b hb => ⟨(hpath b hb).1, (hpath b hb).2 value hreaches⟩⟩
    | none =>
      rw [hknown] at h
      dsimp only at h
      split at h
      · cases h
      · rename_i hnew
        have hno := hmemo.get_base hknown
        cases hstep : step a with
        | none => rw [hstep] at h; cases h
        | some found =>
          rw [hstep] at h
          cases found with
          | stop found =>
            cases h
            have hreaches : WalksTo base step a value := .stop hno hstep
            exact ⟨hreaches, hnodup, List.Subset.refl _,
              fun _ ⟨_, hup⟩ => (by cases hup),
              fun b hb => ⟨(hpath b hb).1, (hpath b hb).2 value hreaches⟩⟩
          | up next =>
            have hnext : ∀ b ∈ path ++ [a], known.get b = none ∧ ∀ value,
                WalksTo base step next value → WalksTo base step b value := by
              intro b hb
              rcases mem_append.mp hb with hb | hb
              · exact ⟨(hpath b hb).1, fun value h => (hpath b hb).2 value (.up hno hstep h)⟩
              · cases mem_singleton.mp hb
                exact ⟨hknown, fun value h => .up hno hstep h⟩
            obtain ⟨hreaches, hnodup', hsub, -, hall⟩ :=
              ih hnext (concat_eq_append ▸ hnodup.concat hnew) h
            exact ⟨.up hno hstep hreaches, hnodup', fun b hb => hsub (by simp [hb]),
              fun _ _ => hsub (by simp), hall⟩

/-- A walk from a node that leads to a value gets there, if there are not more nodes to pass than
rounds. -/
theorem walk_total (hmemo : Memo base step known)
    (hnodes : ∀ b next, step b = some (.up next) → b ∈ nodes)
    (hpath : ∀ b ∈ path, Relation.TransGen (PassesTo base step) b a ∧ b ∈ nodes)
    (hnodup : path.Nodup) (hfuel : nodes.card < fuel + path.length)
    (h : WalksTo base step a value) :
    ∃ path', walk error known step fuel path a = .ok (value, path') := by
  induction fuel generalizing path a with
  | zero =>
    -- the path would have more nodes than there are
    have hsub : path.toFinset ⊆ nodes := fun b hb => (hpath b (mem_toFinset.mp hb)).2
    have hle := Finset.card_le_card hsub
    rw [toFinset_card_of_nodup hnodup] at hle
    omega
  | succ fuel ih =>
    rw [walk]
    cases hknown : known.get a with
    | some found =>
      cases h.unique (hmemo.sound a found hknown)
      exact ⟨path, rfl⟩
    | none =>
      have hno := hmemo.get_base hknown
      have hnew : a ∉ path := fun hmem =>
        Resolves.irrefl (fun _ _ _ h h' => Option.some.inj (h.symm.trans h')) h (hpath a hmem).1
      dsimp only
      rw [if_neg hnew]
      cases h with
      | out h => cases hno.symm.trans h
      | stop _ hstep =>
        rw [hstep]
        exact ⟨path, rfl⟩
      | @up _ next _ _ hstep hnext =>
        rw [hstep]
        have hfuel' : nodes.card < fuel + (path ++ [a]).length := by
          rw [length_append, length_singleton]
          omega
        refine ih (fun b hb => ?_) (concat_eq_append ▸ hnodup.concat hnew) hfuel' hnext
        rcases mem_append.mp hb with hb | hb
        · exact ⟨(hpath b hb).1.tail ⟨hno, hstep⟩, (hpath b hb).2⟩
        · cases mem_singleton.mp hb
          exact ⟨.single ⟨hno, hstep⟩, hnodes a next hstep⟩

/-- What a walk finds does not depend on what is known. -/
theorem walk_iff (hmemo : Memo base step known)
    (hnodes : ∀ b next, step b = some (.up next) → b ∈ nodes) (hfuel : nodes.card < fuel) :
    (∃ path, walk error known step fuel [] a = .ok (value, path)) ↔ WalksTo base step a value := by
  constructor
  · rintro ⟨path, h⟩
    exact (walk_ok hmemo (by simp) .nil h).1
  · exact walk_total hmemo hnodes (fun b hb => absurd hb not_mem_nil) .nil hfuel

theorem walk_error {e : ε} (h : walk error known step fuel path a = .error e) : e = error := by
  induction fuel generalizing path a with
  | zero => cases h; rfl
  | succ fuel ih =>
    rw [walk] at h
    cases hknown : known.get a with
    | some found => rw [hknown] at h; cases h
    | none =>
      rw [hknown] at h
      dsimp only at h
      split at h
      · cases h; rfl
      · cases hstep : step a with
        | none => rw [hstep] at h; cases h; rfl
        | some found =>
          rw [hstep] at h
          cases found with
          | stop => cases h
          | up next => exact ih h

/-- After a walk from a node its value is known, unless it has one of its own. -/
theorem memoize_ok {known' : SortedMap α β} (hmemo : Memo base step known)
    (h : memoize error step fuel known a = .ok known') : Memo base step known' ∧
      (∀ b value, known.get b = some value → known'.get b = some value) ∧
      ((∃ value, known'.get a = some value) ∨
        base.get a = none ∧ ∃ value, step a = some (.stop value)) := by
  unfold memoize at h
  split at h
  · rename_i hcontains
    cases h
    exact ⟨hmemo, fun _ _ h => h,
      .inl (SortedMap.mem_keys.mp (SortedMap.contains_iff.mp hcontains))⟩
  · rename_i hcontains
    have hnone : known.get a = none := by
      cases hget : known.get a with
      | none => rfl
      | some value =>
        exact absurd (SortedMap.contains_iff.mpr (SortedMap.mem_keys.mpr ⟨value, hget⟩)) hcontains
    cases hwalk : walk error known step fuel [] a with
    | error e => rw [hwalk] at h; cases h
    | ok found =>
      obtain ⟨value, path⟩ := found
      rw [hwalk] at h
      dsimp only at h
      obtain ⟨hreaches, -, -, hmem, hpath⟩ := walk_ok hmemo (by simp) .nil hwalk
      rcases SortedMap.foldlM_insertNew_cases error (path.map fun member => (member, value))
        known with
        ⟨herror, -⟩ | ⟨⟨m, hok, hentries⟩, -⟩
      · rw [herror] at h
        cases h
      · rw [hok] at h
        cases h
        have hget : ∀ b v, known'.get b = some v ↔
            known.get b = some v ∨ b ∈ path ∧ v = value := fun b v => by
          rw [SortedMap.get_eq_some, hentries, SortedMap.get_eq_some, mem_map]
          simp [eq_comm]
        refine ⟨⟨fun b v hb => (hget b v).mpr (.inl (hmemo.given b v hb)), fun b v hb => ?_⟩,
          fun b v hb => (hget b v).mpr (.inl hb), ?_⟩
        · rcases (hget b v).mp hb with hb | ⟨hb, rfl⟩
          · exact hmemo.sound b v hb
          · exact (hpath b hb).2
        · cases hreaches with
          | out hgiven => cases hnone.symm.trans (hmemo.given _ _ hgiven)
          | stop hno hstep => exact .inr ⟨hno, value, hstep⟩
          | up hno hstep hnext =>
            exact .inl ⟨value, (hget a value).mpr (.inr ⟨hmem hnone ⟨_, hstep⟩, rfl⟩)⟩

theorem memoize_total (hmemo : Memo base step known)
    (hnodes : ∀ b next, step b = some (.up next) → b ∈ nodes) (hfuel : nodes.card < fuel)
    (h : WalksTo base step a value) :
    ∃ known', memoize error step fuel known a = .ok known' ∧ Memo base step known' := by
  cases hrun : memoize error step fuel known a with
  | ok known' => exact ⟨known', rfl, (memoize_ok hmemo hrun).1⟩
  | error e =>
    exfalso
    unfold memoize at hrun
    split at hrun
    · cases hrun
    · obtain ⟨path, hwalk⟩ := walk_total hmemo hnodes
        (fun b hb => absurd hb not_mem_nil) .nil hfuel h
      rw [hwalk] at hrun
      obtain ⟨-, hnodup, -, -, hpath⟩ := walk_ok hmemo (by simp) .nil hwalk
      rcases SortedMap.foldlM_insertNew_cases error (path.map fun member => (member, value))
        known with
        ⟨-, hno⟩ | ⟨⟨m, hok, -⟩, -⟩
      · have hkeys : (path.map fun member => (member, value)).map Prod.fst = path := by
          rw [map_map]
          exact map_id path
        rw [hkeys] at hno
        refine hno ⟨hnodup, fun b hb hmem => ?_⟩
        obtain ⟨v, hv⟩ := SortedMap.mem_keys.mp hmem
        cases (hpath b hb).1.symm.trans hv
      · dsimp only at hrun
        rw [hok] at hrun
        cases hrun

theorem memoize_error {e : ε} (h : memoize error step fuel known a = .error e) : e = error := by
  unfold memoize at h
  split at h
  · cases h
  · cases hwalk : walk error known step fuel [] a with
    | error e' =>
      rw [hwalk] at h
      cases h
      exact walk_error hwalk
    | ok found =>
      rw [hwalk] at h
      dsimp only at h
      refine foldlM_error (fun s entry e h => ?_) h
      unfold SortedMap.insertNew at h
      split at h
      · cases h
        rfl
      · cases h

/-- Walks from some nodes, one after the other. -/
theorem memoizeAll_ok {known : SortedMap α β} {l : List α}
    (h : l.foldlM (memoize error step fuel) base = .ok known) :
    Memo base step known ∧ ∀ a ∈ l, (∃ value, known.get a = some value) ∨
      base.get a = none ∧ ∃ value, step a = some (.stop value) := by
  refine foldlM_ok (P := fun done known => Memo base step known ∧ ∀ a ∈ done,
    (∃ value, known.get a = some value) ∨ base.get a = none ∧ ∃ value, step a = some (.stop value))
    (fun done a s t hs hok => ?_) ⟨memo_base, by simp⟩ h
  obtain ⟨hmemo, hkeep, ha⟩ := memoize_ok hs.1 hok
  refine ⟨hmemo, fun b hb => ?_⟩
  rcases mem_append.mp hb with hb | hb
  · rcases hs.2 b hb with ⟨value, hvalue⟩ | hstop
    · exact .inl ⟨value, hkeep b value hvalue⟩
    · exact .inr hstop
  · cases mem_singleton.mp hb
    exact ha

theorem memoizeAll_total (hnodes : ∀ b next, step b = some (.up next) → b ∈ nodes)
    (hfuel : nodes.card < fuel) {l : List α} (h : ∀ a ∈ l, ∃ value, WalksTo base step a value) :
    ∃ known, l.foldlM (memoize error step fuel) base = .ok known := by
  obtain ⟨known, hrun, -⟩ := foldlM_total (f := memoize error step fuel) (l := l)
    (P := fun _ known => Memo base step known) (fun done a rest s hsplit hmemo => by
      obtain ⟨value, hvalue⟩ := h a (by simp [hsplit])
      exact memoize_total hmemo hnodes hfuel hvalue) (show Memo base step base from memo_base)
  exact ⟨known, hrun⟩

theorem memoizeAll_error {e : ε} {l : List α}
    (h : l.foldlM (memoize error step fuel) base = .error e) : e = error :=
  foldlM_error (fun _ _ _ h => memoize_error h) h

end Walk

end ItemDependencies.Library
