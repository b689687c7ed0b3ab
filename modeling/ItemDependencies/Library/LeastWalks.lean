import ItemDependencies.Library.PrefixCode
import Mathlib.Data.Prod.Lex
import Mathlib.Data.Set.Finite.List
import Mathlib.Algebra.Order.BigOperators.Group.Finset

/-!
# Least keys of walks

A graph whose arcs start at a root or at a vertex, end at a vertex and carry a label.  The key of a
walk is its root and the sequence of its labels, and keys are compared root first, then label by
label.  A longer walk may have a smaller key, so that the least key of a vertex is not found by
going through the walks in the order of their lengths.  The keys of walks that visit no vertex twice
are finitely many, however, and a table of such keys that no arc can lower holds the least ones.
-/

namespace ItemDependencies.Library

open List Function

universe u v w

structure Arc (ρ : Type u) (α : Type v) (ℓ : Type w) where
  source : ρ ⊕ α
  target : α
  label : ℓ

/-- The root of a walk and its labels in order. -/
abbrev WalkKey (ρ : Type u) (ℓ : Type w) := ρ ×ₗ List ℓ

namespace WalkKey

variable {ρ : Type u} {ℓ : Type w}

def root (k : WalkKey ρ ℓ) : ρ := (ofLex k).1

def labels (k : WalkKey ρ ℓ) : List ℓ := (ofLex k).2

/-- The key of a walk that goes on by one arc. -/
def extend (k : WalkKey ρ ℓ) (l : ℓ) : WalkKey ρ ℓ := toLex (k.root, k.labels ++ [l])

@[simp] theorem root_toLex (r : ρ) (π : List ℓ) : root (toLex (r, π)) = r := rfl

@[simp] theorem labels_toLex (r : ρ) (π : List ℓ) : labels (toLex (r, π)) = π := rfl

@[simp] theorem root_extend (k : WalkKey ρ ℓ) (l : ℓ) : (k.extend l).root = k.root := rfl

@[simp] theorem labels_extend (k : WalkKey ρ ℓ) (l : ℓ) :
    (k.extend l).labels = k.labels ++ [l] := rfl

theorem extend_injective {k k' : WalkKey ρ ℓ} {l l' : ℓ} (h : k.extend l = k'.extend l') :
    k = k' ∧ l = l' := by
  obtain ⟨hroot, hlabels⟩ := Prod.mk.inj (toLex.injective h)
  obtain ⟨hlabels, hl⟩ := append_inj' hlabels rfl
  exact ⟨ofLex.injective (Prod.ext hroot hlabels), (List.cons.inj hl).1⟩

variable [LinearOrder ρ] [LinearOrder ℓ] {k k' : WalkKey ρ ℓ} {l l' : ℓ}

theorem lt_iff : k < k' ↔ k.root < k'.root ∨ k.root = k'.root ∧ k.labels < k'.labels :=
  Prod.Lex.lt_iff

theorem lt_extend (k : WalkKey ρ ℓ) (l : ℓ) : k < k.extend l := by
  refine lt_iff.mpr (.inr ⟨rfl, ?_⟩)
  calc k.labels = k.labels ++ [] := (append_nil _).symm
    _ < k.labels ++ [l] := append_lt_append_left_iff.mpr (nil_lt_cons l [])

theorem extend_lt_extend_iff : k.extend l < k.extend l' ↔ l < l' := by
  rw [lt_iff]
  simp [append_lt_append_left_iff, cons_lt_cons_iff]

/-- A key that begins no longer one stays below it whatever follows. -/
theorem extend_lt_extend (h : k < k') (hfront : k.root = k'.root → ¬k.labels <+: k'.labels) :
    k.extend l < k'.extend l' := by
  rcases lt_iff.mp h with hroot | ⟨hroot, hlabels⟩
  · exact lt_iff.mpr (.inl hroot)
  · refine lt_iff.mpr (.inr ⟨hroot, (append_lt_append_of_ne fun u v huv => ?_).mpr hlabels⟩)
    rcases prefix_or_prefix_of_prefix (prefix_append k.labels u)
      (huv ▸ prefix_append k'.labels v) with hle | ⟨rest, hrest⟩
    · exact hfront hroot hle
    · rw [← hrest] at hlabels
      have : k'.labels ++ rest < k'.labels ++ [] := by rwa [append_nil]
      exact absurd (append_lt_append_left_iff.mp this) (not_lt_nil _)

/-- Below a key of the same length nothing that follows matters but the next label. -/
theorem extend_le_extend (hlength : k.labels.length = k'.labels.length) (h : k ≤ k') (hl : l ≤ l') :
    k.extend l ≤ k'.extend l' := by
  rcases h.lt_or_eq with hlt | rfl
  · refine (extend_lt_extend hlt fun hroot hfront => hlt.ne ?_).le
    exact ofLex.injective (Prod.ext hroot (hfront.eq_of_length hlength))
  · rcases hl.lt_or_eq with hlt | rfl
    · exact (extend_lt_extend_iff.mpr hlt).le
    · exact le_rfl

end WalkKey

/-! ## Walks -/

variable {ρ : Type u} {α : Type v} {ℓ : Type w}

/-- The walks from a root, by their keys and the vertices that they visit, the last one first. -/
inductive Walk (arcs : Set (Arc ρ α ℓ)) : WalkKey ρ ℓ → List α → Prop
  | start {r a l} : ⟨.inl r, a, l⟩ ∈ arcs → Walk arcs (toLex (r, [l])) [a]
  | step {k p visited a l} : Walk arcs k (p :: visited) → ⟨.inr p, a, l⟩ ∈ arcs →
    Walk arcs (k.extend l) (a :: p :: visited)

/-- The keys of the walks to a vertex that visit no vertex twice. -/
def simpleKeys (arcs : Set (Arc ρ α ℓ)) (a : α) : Set (WalkKey ρ ℓ) :=
  {k | ∃ visited, Walk arcs k (a :: visited) ∧ (a :: visited).Nodup}

def Reachable (arcs : Set (Arc ρ α ℓ)) (a : α) : Prop := ∃ k visited, Walk arcs k (a :: visited)

variable {arcs first : Set (Arc ρ α ℓ)} {k k' : WalkKey ρ ℓ} {visited visited' : List α} {a b p : α}

theorem Walk.length_labels (h : Walk arcs k visited) : k.labels.length = visited.length := by
  induction h with
  | start _ => rfl
  | step _ _ ih => simp [ih]

theorem Walk.mono (h : Walk first k visited) (hsub : first ⊆ arcs) : Walk arcs k visited := by
  induction h with
  | start he => exact .start (hsub he)
  | step _ he ih => exact .step ih (hsub he)

/-! ## Arcs that are told apart by their labels -/

/-- Some arcs are told apart by their labels, and every other arc joins the same ends as one of
them with a smaller label. -/
structure Distinguishes [LE ℓ] (first arcs : Set (Arc ρ α ℓ)) : Prop where
  subset : first ⊆ arcs
  target_eq : ∀ s a b l, ⟨s, a, l⟩ ∈ first → ⟨s, b, l⟩ ∈ first → a = b
  exists_le : ∀ s a l, ⟨s, a, l⟩ ∈ arcs → ∃ l' ≤ l, ⟨s, a, l'⟩ ∈ first

section Distinguished

variable [LinearOrder ρ] [LinearOrder ℓ]

omit [LinearOrder ρ] in
/-- Where the labels of one walk begin those of another, so do its vertices. -/
theorem Walk.suffix (hd : Distinguishes first arcs) (h' : Walk first k' visited') :
    ∀ {k visited}, Walk first k visited → k.root = k'.root → k.labels <+: k'.labels →
      visited <:+ visited' := by
  induction h' with
  | @start r b l he =>
    intro k visited h hroot hfront
    cases h with
    | @start _ a l' he' =>
      obtain rfl : l' = l := by simpa using hfront
      cases hroot
      rw [hd.target_eq _ _ _ _ he' he]
    | @step k p rest a l' hw _ =>
      have hlength := hfront.length_le
      simp [hw.length_labels] at hlength
  | @step k' q rest' b l hw' he ih =>
    intro k visited h hroot hfront
    rcases prefix_concat_iff.mp hfront with heq | hfront
    · cases h with
      | start _ =>
        have hlength := congrArg List.length heq
        simp [hw'.length_labels] at hlength
      | @step k p rest a l' hw he' =>
        obtain ⟨hlabels, hl⟩ := append_inj' heq rfl
        obtain rfl := (List.cons.inj hl).1
        have hsuffix := ih hw hroot (hlabels ▸ prefix_rfl)
        have hlength : (p :: rest).length = (q :: rest').length := by
          rw [← hw.length_labels, ← hw'.length_labels, hlabels]
        obtain ⟨rfl, rfl⟩ := List.cons.inj (hsuffix.eq_of_length hlength)
        rw [hd.target_eq _ _ _ _ he' he]
    · exact (ih h hroot hfront).trans (suffix_cons b _)

/-- A walk can be led along arcs that are told apart, and its key does not grow. -/
theorem Walk.exists_le (hd : Distinguishes first arcs) (h : Walk arcs k visited) :
    ∃ k' ≤ k, Walk first k' visited ∧ k'.labels.length = k.labels.length := by
  induction h with
  | @start r a l he =>
    obtain ⟨l', hl, hf⟩ := hd.exists_le _ _ _ he
    refine ⟨toLex (r, [l']), ?_, .start hf, rfl⟩
    rcases hl.lt_or_eq with hlt | heq
    · have : toLex (r, [l']) < toLex (r, [l]) :=
        WalkKey.lt_iff.mpr (.inr ⟨rfl, cons_lt_cons_iff.mpr (.inl hlt)⟩)
      exact this.le
    · rw [heq]
  | @step k p rest a l _ he ih =>
    obtain ⟨k', hle, hw, hlength⟩ := ih
    obtain ⟨l', hl, hf⟩ := hd.exists_le _ _ _ he
    exact ⟨k'.extend l', WalkKey.extend_le_extend hlength hle hl, .step hw hf, by simp [hlength]⟩

omit [LinearOrder ρ] in
/-- A walk that visits no vertex twice does not go on after it has come to its end. -/
theorem Walk.eq_of_initial (hd : Distinguishes first arcs) (h : Walk first k (a :: visited))
    (h' : Walk first k' (a :: visited')) (hnodup : (a :: visited').Nodup) (hroot : k.root = k'.root)
    (hfront : k.labels <+: k'.labels) : k = k' := by
  have hlength : (a :: visited).length = (a :: visited').length := by
    rcases suffix_cons_iff.mp (h'.suffix hd h hroot hfront) with heq | hsuffix
    · rw [heq]
    · exact absurd (hsuffix.subset (mem_cons_self ..)) (nodup_cons.mp hnodup).1
  refine ofLex.injective (Prod.ext hroot (hfront.eq_of_length ?_))
  rw [h.length_labels, h'.length_labels, hlength]

/-! ## Tables that no arc can lower -/

/-- Every entry is the key of a walk that visits no vertex twice, and no arc leads to a smaller
key. -/
structure Settled (arcs : Set (Arc ρ α ℓ)) (T : α → Option (WalkKey ρ ℓ)) : Prop where
  sound : ∀ a k, T a = some k → k ∈ simpleKeys arcs a
  start : ∀ r a l, ⟨.inl r, a, l⟩ ∈ arcs → ∃ k, T a = some k ∧ k ≤ toLex (r, [l])
  step : ∀ p a l k, ⟨.inr p, a, l⟩ ∈ arcs → T p = some k → ∃ k', T a = some k' ∧ k' ≤ k.extend l

variable {T : α → Option (WalkKey ρ ℓ)}

theorem Settled.isSome_iff (hT : Settled arcs T) : (∃ k, T a = some k) ↔ Reachable arcs a := by
  constructor
  · rintro ⟨k, hk⟩
    obtain ⟨visited, hw, -⟩ := hT.sound a k hk
    exact ⟨k, visited, hw⟩
  · rintro ⟨k, visited, hw⟩
    generalize hends : a :: visited = ends at hw
    induction hw generalizing a visited with
    | start he =>
      obtain ⟨rfl, -⟩ := List.cons.inj hends
      obtain ⟨k, hk, -⟩ := hT.start _ _ _ he
      exact ⟨k, hk⟩
    | step _ he ih =>
      obtain ⟨rfl, -⟩ := List.cons.inj hends
      obtain ⟨k, hk⟩ := ih _ rfl
      obtain ⟨k', hk', -⟩ := hT.step _ _ _ _ he hk
      exact ⟨k', hk'⟩

/-- Induction on the length of the walk.  The key in the table for the last vertex but one may be
below that of the walk up to there; it then begins no longer key, for the walk would come to that
vertex twice. -/
theorem Settled.le_of_walk (hd : Distinguishes first arcs) (hT : Settled arcs T) (n : Nat)
    (hw : Walk arcs k (a :: visited)) (hnodup : (a :: visited).Nodup) (hn : visited.length = n) :
    ∃ k', T a = some k' ∧ k' ≤ k := by
  induction n using Nat.strong_induction_on generalizing k a visited with
  | _ n ih =>
    obtain ⟨k₀, hle, hw₀, -⟩ := hw.exists_le hd
    suffices h : ∃ k', T a = some k' ∧ k' ≤ k₀ by
      obtain ⟨k', hk', hle'⟩ := h
      exact ⟨k', hk', hle'.trans hle⟩
    cases hw₀ with
    | start he => exact hT.start _ _ _ (hd.subset he)
    | @step k₁ p rest _ l hw₁ he =>
      have hrest : rest.length < n := by
        rw [← hn]
        exact Nat.lt_succ_self _
      obtain ⟨kp, hkp, hlep⟩ :=
        ih _ hrest (hw₁.mono hd.subset) (nodup_cons.mp hnodup).2 rfl
      obtain ⟨k', hk', hle'⟩ := hT.step _ _ _ _ (hd.subset he) hkp
      refine ⟨k', hk', hle'.trans ?_⟩
      by_cases hfront : kp.root = k₁.root ∧ kp.labels <+: k₁.labels
      · obtain ⟨us, hv, hvnodup⟩ := hT.sound p kp hkp
        obtain ⟨kv, hlev, hv₀, hlength⟩ := hv.exists_le hd
        have hus : us.length < n := by
          have hlabels := hfront.2.length_le
          rw [hv.length_labels, hw₁.length_labels] at hlabels
          exact (Nat.le_of_succ_le_succ hlabels).trans_lt hrest
        obtain ⟨k'', hk'', hle''⟩ := ih _ hus (hv₀.mono hd.subset) hvnodup rfl
        obtain rfl : kp = k'' := Option.some.inj (hkp.symm.trans hk'')
        obtain rfl : kp = kv := le_antisymm hle'' hlev
        rw [hv₀.eq_of_initial hd hw₁ (nodup_cons.mp hnodup).2 hfront.1 hfront.2]
      · rcases hlep.lt_or_eq with hlt | rfl
        · exact (WalkKey.extend_lt_extend hlt fun hroot h => hfront ⟨hroot, h⟩).le
        · exact le_rfl

/-- The table holds the least key of every vertex. -/
theorem Settled.isLeast (hd : Distinguishes first arcs) (hT : Settled arcs T) (hk : T a = some k) :
    IsLeast (simpleKeys arcs a) k := by
  refine ⟨hT.sound a k hk, fun other hother => ?_⟩
  obtain ⟨visited, hw, hnodup⟩ := hother
  obtain ⟨k', hk', hle⟩ := hT.le_of_walk hd _ hw hnodup rfl
  obtain rfl : k = k' := Option.some.inj (hk.symm.trans hk')
  exact hle

/-- A walk with the least key follows arcs that are told apart. -/
theorem Walk.of_isLeast (hd : Distinguishes first arcs) (hw : Walk arcs k (a :: visited))
    (hnodup : (a :: visited).Nodup) (hleast : IsLeast (simpleKeys arcs a) k) :
    Walk first k (a :: visited) := by
  obtain ⟨k', hle, hw', -⟩ := hw.exists_le hd
  have := hleast.2 ⟨visited, hw'.mono hd.subset, hnodup⟩
  rwa [le_antisymm this hle]

/-- Two vertices never have the same key. -/
theorem Settled.injective (hd : Distinguishes first arcs) (hT : Settled arcs T) (ha : T a = some k)
    (hb : T b = some k) : a = b := by
  obtain ⟨visited, hw, hnodup⟩ := hT.sound a k ha
  obtain ⟨visited', hw', hnodup'⟩ := hT.sound b k hb
  replace hw := hw.of_isLeast hd hnodup (hT.isLeast hd ha)
  replace hw' := hw'.of_isLeast hd hnodup' (hT.isLeast hd hb)
  have hlength : (a :: visited).length = (b :: visited').length := by
    rw [← hw.length_labels, ← hw'.length_labels]
  exact (List.cons.inj ((hw'.suffix hd hw rfl prefix_rfl).eq_of_length hlength)).1

/-- The least key of a vertex goes on from the least key of the vertex before it. -/
theorem Settled.parent (hd : Distinguishes first arcs) (hT : Settled arcs T)
    {l : ℓ} (hw : Walk arcs (k.extend l) (a :: p :: visited)) (hnodup : (a :: p :: visited).Nodup)
    (hk : T a = some (k.extend l)) : T p = some k := by
  have hfirst := hw.of_isLeast hd hnodup (hT.isLeast hd hk)
  generalize hkey : k.extend l = key at hfirst
  cases hfirst with
  | @step k₁ _ _ _ l₁ hw₁ he =>
    obtain ⟨rfl, rfl⟩ := WalkKey.extend_injective hkey
    replace hnodup := (nodup_cons.mp hnodup).2
    obtain ⟨kp, hkp, hle⟩ := hT.le_of_walk hd _ (hw₁.mono hd.subset) hnodup rfl
    obtain ⟨us, hv, hvnodup⟩ := hT.sound p kp hkp
    replace hv := hv.of_isLeast hd hvnodup (hT.isLeast hd hkp)
    by_contra hne
    have hlt : kp < k := hle.lt_of_ne fun heq => hne (heq ▸ hkp)
    have hext : kp.extend l < k.extend l := WalkKey.extend_lt_extend hlt fun hroot hfront =>
      hlt.ne (hv.eq_of_initial hd hw₁ hnodup hroot hfront)
    obtain ⟨k', hk', hle'⟩ := hT.step _ _ _ _ (hd.subset he) hkp
    obtain rfl : k.extend l = k' := Option.some.inj (hk.symm.trans hk')
    exact hext.not_ge hle'

/-! ## Lowering the entries of a table -/

/-- The key to which an arc leads from the entries of a table. -/
def candidate (T : α → Option (WalkKey ρ ℓ)) (e : Arc ρ α ℓ) : Option (WalkKey ρ ℓ) :=
  match e.source with
  | .inl r => some (toLex (r, [e.label]))
  | .inr p => (T p).map (WalkKey.extend · e.label)

/-- Every entry is the key of a walk that visits no vertex twice, and the vertices before the end of
the walk have no larger entries. -/
def Traced (arcs : Set (Arc ρ α ℓ)) (T : α → Option (WalkKey ρ ℓ)) : Prop :=
  ∀ a k, T a = some k → ∃ visited, Walk arcs k (a :: visited) ∧ (a :: visited).Nodup ∧
    ∀ v ∈ visited, ∃ k' ≤ k, T v = some k'

variable {e : Arc ρ α ℓ}

theorem Traced.settled (hT : Traced arcs T)
    (hidle : ∀ e ∈ arcs, ∀ k, candidate T e = some k → ∃ k', T e.target = some k' ∧ k' ≤ k) :
    Settled arcs T where
  sound a k hk := by
    obtain ⟨visited, hw, hnodup, -⟩ := hT a k hk
    exact ⟨visited, hw, hnodup⟩
  start r a l he := hidle _ he _ rfl
  step p a l k he hk := hidle _ he _ (congrArg (Option.map (WalkKey.extend · l)) hk)

/-- The key to which an arc leads, if the table has no smaller one for its target, is the key of a
walk that visits no vertex twice. -/
theorem Traced.candidate_walk (hT : Traced arcs T) (he : e ∈ arcs) (hk : candidate T e = some k)
    (hlt : ∀ old, T e.target = some old → k < old) :
    ∃ visited, Walk arcs k (e.target :: visited) ∧ (e.target :: visited).Nodup ∧
      ∀ v ∈ visited, ∃ k' ≤ k, T v = some k' := by
  obtain ⟨s, a, l⟩ := e
  cases s with
  | inl r =>
    obtain rfl := Option.some.inj hk
    exact ⟨[], .start he, nodup_singleton _, by simp⟩
  | inr p =>
    obtain ⟨kp, hkp, rfl⟩ := Option.map_eq_some_iff.mp hk
    obtain ⟨visited, hw, hnodup, hbefore⟩ := hT p kp hkp
    have hall : ∀ v ∈ p :: visited, ∃ k' ≤ kp, T v = some k' :=
      forall_mem_cons.mpr ⟨⟨kp, le_rfl, hkp⟩, hbefore⟩
    refine ⟨p :: visited, .step hw he, nodup_cons.mpr ⟨fun ha => ?_, hnodup⟩, fun v hv => ?_⟩
    · obtain ⟨k', hle, hk'⟩ := hall a ha
      exact (hlt k' hk').not_ge (hle.trans (kp.lt_extend l).le)
    · obtain ⟨k', hle, hk'⟩ := hall v hv
      exact ⟨k', hle.trans (kp.lt_extend l).le, hk'⟩

variable [DecidableEq α]

theorem Traced.update (hT : Traced arcs T) (he : e ∈ arcs) (hk : candidate T e = some k)
    (hlt : ∀ old, T e.target = some old → k < old) :
    Traced arcs (Function.update T e.target (some k)) := by
  have hlower : ∀ v k', T v = some k' →
      ∃ k'' ≤ k', Function.update T e.target (some k) v = some k'' := fun v k' hv => by
    by_cases hve : v = e.target
    · subst hve
      exact ⟨k, (hlt k' hv).le, update_self ..⟩
    · exact ⟨k', le_rfl, by rw [update_of_ne hve, hv]⟩
  have hbelow : ∀ v k', (∃ k'' ≤ k', T v = some k'') →
      ∃ k'' ≤ k', Function.update T e.target (some k) v = some k'' := by
    rintro v k' ⟨k'', hle, hv⟩
    obtain ⟨k₃, hle', hv'⟩ := hlower v k'' hv
    exact ⟨k₃, hle'.trans hle, hv'⟩
  intro a k₁ ha
  by_cases hae : a = e.target
  · subst hae
    rw [update_self] at ha
    obtain rfl := Option.some.inj ha
    obtain ⟨visited, hw, hnodup, hbefore⟩ := hT.candidate_walk he hk hlt
    exact ⟨visited, hw, hnodup, fun v hv => hbelow v k (hbefore v hv)⟩
  · rw [update_of_ne hae] at ha
    obtain ⟨visited, hw, hnodup, hbefore⟩ := hT a k₁ ha
    exact ⟨visited, hw, hnodup, fun v hv => hbelow v k₁ (hbefore v hv)⟩

omit [LinearOrder ρ] [LinearOrder ℓ] [DecidableEq α] in
theorem Walk.mem_arcs (h : Walk arcs k visited) :
    (∃ e ∈ arcs, e.source = .inl k.root) ∧ (∀ l ∈ k.labels, ∃ e ∈ arcs, e.label = l) ∧
      ∀ v ∈ visited, ∃ e ∈ arcs, e.target = v := by
  induction h with
  | start he => exact ⟨⟨_, he, rfl⟩, by simpa using ⟨_, he, rfl⟩, by simpa using ⟨_, he, rfl⟩⟩
  | @step k p rest a l _ he ih =>
    refine ⟨ih.1, fun l' hl => ?_, forall_mem_cons.mpr ⟨⟨_, he, rfl⟩, ih.2.2⟩⟩
    rw [WalkKey.labels_extend] at hl
    rcases mem_append.mp hl with hl | hl
    · exact ih.2.1 l' hl
    · exact ⟨_, he, (mem_singleton.mp hl).symm⟩

omit [LinearOrder ρ] [LinearOrder ℓ] in
theorem finite_simpleKeys (hfin : arcs.Finite) : (⋃ a, simpleKeys arcs a).Finite := by
  set roots : Set ρ := {r | ∃ e ∈ arcs, e.source = .inl r}
  set labels : Set ℓ := Arc.label '' arcs
  set targets : Finset α := (hfin.image Arc.target).toFinset
  have hroots : roots.Finite :=
    ((hfin.image Arc.source).preimage Sum.inl_injective.injOn).subset fun r hr => hr
  have : Finite labels := hfin.image Arc.label
  have hlists : ({π : List labels | π.length ≤ targets.card}.image
      (List.map Subtype.val)).Finite := (finite_length_le labels targets.card).image _
  refine ((hroots.prod hlists).image toLex).subset ?_
  intro (k : WalkKey ρ ℓ) hk
  obtain ⟨a, visited, hw, hnodup⟩ := Set.mem_iUnion.mp hk
  obtain ⟨hroot, hlabels, hvisited⟩ := hw.mem_arcs
  have hmem : ∀ l ∈ k.labels, l ∈ labels := hlabels
  refine ⟨(k.root, k.labels), ⟨hroot, ?_⟩, rfl⟩
  refine ⟨k.labels.attachWith (· ∈ labels) hmem, ?_, attachWith_map_subtype_val ..⟩
  have hle : (a :: visited).toFinset ⊆ targets := fun v hv =>
    (Set.Finite.mem_toFinset _).mpr (hvisited v (mem_toFinset.mp hv))
  calc (k.labels.attachWith (· ∈ labels) hmem).length = (a :: visited).length := by
        rw [length_attachWith, hw.length_labels]
    _ = (a :: visited).toFinset.card := (toFinset_card_of_nodup hnodup).symm
    _ ≤ targets.card := Finset.card_le_card hle

/-- Entries can be lowered only so many times. -/
theorem exists_measure (hfin : arcs.Finite) :
    ∃ μ : (α → Option (WalkKey ρ ℓ)) → Nat, ∀ T e k, Traced arcs T → e ∈ arcs →
      candidate T e = some k → (∀ old, T e.target = some old → k < old) →
      μ (Function.update T e.target (some k)) < μ T := by
  set keys := (finite_simpleKeys hfin).toFinset
  set targets := (hfin.image Arc.target).toFinset
  let rank : Option (WalkKey ρ ℓ) → Nat := fun
    | none => keys.card + 1
    | some k => {k' ∈ keys | k' < k}.card
  refine ⟨fun T => ∑ a ∈ targets, rank (T a), fun T e k hT he hk hlt => ?_⟩
  have hrank : rank (some k) < rank (T e.target) := by
    cases hold : T e.target with
    | none => exact Nat.lt_succ_of_le (Finset.card_le_card (Finset.filter_subset _ _))
    | some old =>
      have hkold := hlt old hold
      obtain ⟨visited, hw, hnodup, -⟩ := hT.candidate_walk he hk hlt
      have hmem : k ∈ keys :=
        (Set.Finite.mem_toFinset _).mpr (Set.mem_iUnion.mpr ⟨e.target, visited, hw, hnodup⟩)
      refine Finset.card_lt_card (Finset.ssubset_iff_of_subset ?_ |>.mpr ⟨k, ?_, ?_⟩)
      · exact Finset.monotone_filter_right _ fun k' _ hk' => hk'.trans hkold
      · exact Finset.mem_filter.mpr ⟨hmem, hkold⟩
      · exact fun hself => lt_irrefl k (Finset.mem_filter.mp hself).2
  have htarget : e.target ∈ targets :=
    (Set.Finite.mem_toFinset _).mpr (Set.mem_image_of_mem Arc.target he)
  refine Finset.sum_lt_sum (fun a _ => ?_) ⟨e.target, htarget, ?_⟩
  · by_cases hae : a = e.target
    · subst hae
      rw [update_self]
      exact hrank.le
    · rw [update_of_ne hae]
  · rw [update_self]
    exact hrank

end Distinguished

end ItemDependencies.Library
