import Mathlib.Data.List.Forall2

/-!
# Computations that may fail

Inversion rules for `Except`: what must have happened for a computation to
return a value.
-/

namespace ItemDependencies.Library

open List

universe u v w

variable {ε : Type w} {α : Type u} {β : Type v} {as l : List α} {bs : List β} {σ : Type v}
  {P : List α → σ → Prop} {R : α → β → Prop}

/-! ## Lists that correspond position by position -/

theorem getElem?_of_forall₂ (h : List.Forall₂ R as bs) {k : Nat} {a : α} (hk : as[k]? = some a) :
    ∃ b, bs[k]? = some b ∧ R a b := by
  obtain ⟨hlt, rfl⟩ := List.getElem?_eq_some_iff.mp hk
  have hlt' : k < bs.length := h.length_eq ▸ hlt
  exact ⟨bs[k], getElem?_eq_getElem hlt', (forall₂_iff_get.mp h).2 k hlt hlt'⟩

theorem getElem?_of_forall₂_right (h : List.Forall₂ R as bs) {k : Nat} {b : β}
    (hk : bs[k]? = some b) : ∃ a, as[k]? = some a ∧ R a b :=
  getElem?_of_forall₂ h.flip hk

theorem getElem?_zipIdx_of_forall₂ {R : α × Nat → β → Prop} (h : List.Forall₂ R as.zipIdx bs)
    {k : Nat} {a : α} {b : β} (ha : as[k]? = some a) (hb : bs[k]? = some b) : R (a, k) b := by
  have hzip : as.zipIdx[k]? = some (a, k) := by
    rw [getElem?_zipIdx, ha, Option.map_some, Nat.zero_add]
  obtain ⟨other, hother, hR⟩ := getElem?_of_forall₂ h hzip
  rw [hb] at hother
  cases hother
  exact hR

theorem forall₂_zipIdx {R : α × Nat → β → Prop} (hlength : as.length = bs.length)
    (h : ∀ (k : Nat) a b, as[k]? = some a → bs[k]? = some b → R (a, k) b) :
    List.Forall₂ R as.zipIdx bs := by
  refine forall₂_iff_get.mpr ⟨by rw [length_zipIdx, hlength], fun k hk hk' => ?_⟩
  have hlt : k < as.length := hlength ▸ hk'
  have hR := h k as[k] bs[k] (getElem?_eq_getElem hlt) (getElem?_eq_getElem hk')
  simpa using hR

theorem exists_forall₂ (h : ∀ a ∈ l, ∃ b, R a b) : ∃ bs, List.Forall₂ R l bs := by
  induction l with
  | nil => exact ⟨[], .nil⟩
  | cons a l ih =>
    obtain ⟨b, hb⟩ := h a (by simp)
    obtain ⟨bs, hbs⟩ := ih fun a ha => h a (by simp [ha])
    exact ⟨b :: bs, .cons hb hbs⟩

theorem exists_map_of_forall₂ [DecidableEq α] (h : List.Forall₂ R as bs) (hnodup : as.Nodup)
    (default : β) : ∃ f : α → β, bs = as.map f ∧ ∀ a ∈ as, R a (f a) := by
  induction h with
  | nil => exact ⟨fun _ => default, rfl, by simp⟩
  | @cons a b as bs hab _ ih =>
    obtain ⟨hnew, hnodup⟩ := nodup_cons.mp hnodup
    obtain ⟨f, rfl, hf⟩ := ih hnodup
    have hne : ∀ c ∈ as, Function.update f a b c = f c := fun c hc =>
      Function.update_of_ne (ne_of_mem_of_not_mem hc hnew) _ _
    refine ⟨Function.update f a b, ?_, forall_mem_cons.mpr ⟨?_, fun c hc => ?_⟩⟩
    · rw [map_cons, Function.update_self, map_congr_left hne]
    · rwa [Function.update_self]
    · rw [hne c hc]
      exact hf c hc

theorem map_eq_map_of_forall₂ {γ : Type w} {f : α → γ} {g : β → γ}
    (h : List.Forall₂ (fun a b => g b = f a) as bs) : bs.map g = as.map f := by
  induction h with
  | nil => rfl
  | cons hhead _ ih => rw [map_cons, map_cons, hhead, ih]

/-! ## Inversion -/

/-- A computation that returns has returned at each of its stages. -/
theorem bind_ok {α β : Type u} {x : Except ε α} {f : α → Except ε β} {b : β}
    (h : x >>= f = .ok b) : ∃ a, x = .ok a ∧ f a = .ok b := by
  cases x with
  | error e => cases h
  | ok a => exact ⟨a, rfl, h⟩

theorem bind_error {α β : Type u} {x : Except ε α} {f : α → Except ε β} {e : ε}
    (h : x >>= f = .error e) : x = .error e ∨ ∃ a, x = .ok a ∧ f a = .error e := by
  cases x with
  | error e' =>
    cases h
    exact .inl rfl
  | ok a => exact .inr ⟨a, rfl, h⟩

theorem exists_bind_ok {α β : Type u} {x : Except ε α} {f : α → Except ε β} {Q : β → Prop} :
    (∃ b, x >>= f = .ok b ∧ Q b) ↔ ∃ a, x = .ok a ∧ ∃ b, f a = .ok b ∧ Q b := by
  constructor
  · rintro ⟨b, h, hb⟩
    obtain ⟨a, hx, hf⟩ := bind_ok h
    exact ⟨a, hx, b, hf, hb⟩
  · rintro ⟨a, rfl, b, hf, hb⟩
    exact ⟨b, hf, hb⟩

/-- A guard that is passed was not violated. -/
theorem guard_ok {α : Type} {p : Prop} [Decidable p] {e : ε} {x : Except ε α} {a : α}
    (h : (if p then throw e else x) = .ok a) : ¬p ∧ x = .ok a := by
  by_cases hp : p
  · rw [if_pos hp] at h
    cases h
  · rw [if_neg hp] at h
    exact ⟨hp, h⟩

/-- A map that returns has returned for each element. -/
theorem mapM_ok {f : α → Except ε β} (h : as.mapM f = .ok bs) :
    List.Forall₂ (fun a b => f a = .ok b) as bs := by
  induction as generalizing bs with
  | nil =>
    rw [mapM_nil] at h
    cases h
    exact List.Forall₂.nil
  | cons a as ih =>
    rw [mapM_cons] at h
    cases hf : f a with
    | error e => rw [hf] at h; cases h
    | ok b =>
      rw [hf] at h
      cases hr : as.mapM f with
      | error e => simp [hr, bind, Except.bind] at h
      | ok rest =>
        simp only [hr, bind, Except.bind, pure, Except.pure, Except.ok.injEq] at h
        subst h
        exact List.Forall₂.cons hf (ih hr)

/-- A map returns if it returns for each element. -/
theorem mapM_total {f : α → Except ε β} (h : List.Forall₂ (fun a b => f a = .ok b) as bs) :
    as.mapM f = .ok bs := by
  induction h with
  | nil => rfl
  | cons hab _ ih =>
    rw [mapM_cons, hab, ih]
    rfl

/-- What holds of all results holds of the result for each element. -/
theorem mapM_eq_map {f : α → Except ε β} {g : α → β} (h : ∀ a ∈ l, f a = .ok (g a)) :
    l.mapM f = .ok (l.map g) := by
  apply mapM_total
  rw [forall₂_map_right_iff]
  exact forall₂_same.mpr h

theorem forall_mem_mapM {f : α → Except ε β} {Q : β → Prop} (h : as.mapM f = .ok bs) :
    (∀ b ∈ bs, Q b) ↔ ∀ a ∈ as, ∃ b, f a = .ok b ∧ Q b := by
  induction mapM_ok h with
  | nil => simp
  | cons hab _ ih => simp [hab, ih (mapM_total ‹_›)]

/-- The results are those for the elements. -/
theorem mem_mapM {f : α → Except ε β} (h : as.mapM f = .ok bs) {b : β} :
    b ∈ bs ↔ ∃ a ∈ as, f a = .ok b := by
  have hall : ∀ a ∈ as, ∃ b, f a = .ok b ∧ b ∈ bs := (forall_mem_mapM h).mp fun b hb => hb
  constructor
  · intro hb
    refine (forall_mem_mapM h (Q := fun b => ∃ a ∈ as, f a = .ok b)).mpr (fun a ha => ?_) b hb
    obtain ⟨b, hab, -⟩ := hall a ha
    exact ⟨b, hab, a, ha, hab⟩
  · rintro ⟨a, ha, hab⟩
    obtain ⟨b', hab', hb'⟩ := hall a ha
    rwa [Except.ok.inj (hab.symm.trans hab')]

/-- A loop returns if each of its rounds does. -/
theorem forM_ok {f : α → Except ε PUnit.{v + 1}} : l.forM f = .ok ⟨⟩ ↔ ∀ a ∈ l, f a = .ok ⟨⟩ := by
  induction l with
  | nil => exact ⟨fun _ => by simp, fun _ => rfl⟩
  | cons a l ih =>
    have hcons : (a :: l).forM f = f a >>= fun _ => l.forM f := rfl
    rw [hcons, forall_mem_cons, ← ih]
    constructor
    · intro h
      obtain ⟨⟨⟩, hfirst, hrest⟩ := bind_ok h
      exact ⟨hfirst, hrest⟩
    · rintro ⟨hfirst, hrest⟩
      rw [hfirst]
      exact hrest

/-- A loop whose rounds do not fail. -/
theorem foldlM_eq_foldl {f : σ → α → Except ε σ} {g : σ → α → σ}
    (h : ∀ a ∈ l, ∀ s, f s a = .ok (g s a)) (s : σ) : l.foldlM f s = .ok (l.foldl g s) := by
  induction l generalizing s with
  | nil => rfl
  | cons a l ih =>
    rw [foldlM_cons, foldl_cons, h a mem_cons_self]
    exact ih (fun b hb => h b (mem_cons_of_mem _ hb)) (g s a)

/-- A loop fails as its steps do. -/
theorem foldlM_error {f : σ → α → Except ε σ} {error : ε}
    (step : ∀ s a e, f s a = .error e → e = error) {s : σ} {e : ε} (h : l.foldlM f s = .error e) :
    e = error := by
  induction l generalizing s with
  | nil => cases h
  | cons a l ih =>
    rw [foldlM_cons] at h
    cases hf : f s a with
    | error e' =>
      rw [hf] at h
      cases h
      exact step s a e hf
    | ok t =>
      rw [hf] at h
      exact ih h

/-- The invariant rule of a fallible fold: what each step preserves for the elements that have
been processed. -/
theorem foldlM_ok {f : σ → α → Except ε σ}
    (step : ∀ done a s t, P done s → f s a = .ok t → P (done ++ [a]) t) {s t : σ} (h : P [] s)
    (run : as.foldlM f s = .ok t) : P as t := by
  have key : ∀ (as done : List α) (s : σ), P done s → as.foldlM f s = .ok t → P (done ++ as) t := by
    intro as
    induction as with
    | nil =>
      intro done s hs run
      rw [foldlM_nil] at run
      cases run
      rwa [append_nil]
    | cons a as ih =>
      intro done s hs run
      rw [foldlM_cons] at run
      obtain ⟨s', hf, run⟩ := bind_ok run
      have := ih (done ++ [a]) s' (step done a s s' hs hf) run
      rwa [append_assoc, singleton_append] at this
  exact key as [] s h run

/-- A fold whose steps each add one condition. -/
theorem foldlM_iff {f : σ → α → Except ε σ} {P : σ → Prop} {Q : α → Prop} {s t : σ}
    (step : ∀ a ∈ l, ∀ s t, f s a = .ok t → (P t ↔ P s ∧ Q a)) (run : l.foldlM f s = .ok t) :
    P t ↔ P s ∧ ∀ a ∈ l, Q a := by
  induction l generalizing s with
  | nil =>
    cases run
    simp
  | cons a l ih =>
    rw [foldlM_cons] at run
    obtain ⟨s', hs', run⟩ := bind_ok run
    rw [ih (fun b hb => step b (by simp [hb])) run, step a (by simp) s s' hs', forall_mem_cons,
      and_assoc]

/-- A fold ends as one of its steps fails, or keeps the invariant to its end. -/
theorem foldlM_cases {f : σ → α → Except ε σ} {E : ε → Prop} {s : σ}
    (step : ∀ done a rest s, l = done ++ a :: rest → P done s →
      (∃ e, f s a = .error e ∧ E e) ∨ ∃ t, f s a = .ok t ∧ P (done ++ [a]) t)
    (h : P [] s) : (∃ e, l.foldlM f s = .error e ∧ E e) ∨ ∃ t, l.foldlM f s = .ok t ∧ P l t := by
  have key : ∀ (rest done : List α) (s : σ), l = done ++ rest → P done s →
      (∃ e, rest.foldlM f s = .error e ∧ E e) ∨ ∃ t, rest.foldlM f s = .ok t ∧ P l t := by
    intro rest
    induction rest with
    | nil =>
      intro done s hl hs
      rw [append_nil] at hl
      exact .inr ⟨s, rfl, hl ▸ hs⟩
    | cons a rest ih =>
      intro done s hl hs
      rw [foldlM_cons]
      rcases step done a rest s hl hs with ⟨e, hf, he⟩ | ⟨s', hf, hs'⟩
      · exact .inl ⟨e, by rw [hf]; rfl, he⟩
      · rw [hf]
        exact ih (done ++ [a]) s' (by simp [hl]) hs'
  exact key _ [] s rfl h

/-- A fold returns if each step does from a state that satisfies the invariant. -/
theorem foldlM_total {f : σ → α → Except ε σ} {s : σ}
    (step : ∀ done a rest s, l = done ++ a :: rest → P done s →
      ∃ t, f s a = .ok t ∧ P (done ++ [a]) t)
    (h : P [] s) : ∃ t, l.foldlM f s = .ok t ∧ P l t := by
  rcases foldlM_cases (E := fun _ => False)
    (fun done a rest s hl hs => .inr (step done a rest s hl hs)) h
    with ⟨_, _, hno⟩ | hend
  · exact hno.elim
  · exact hend

/-- A loop whose rounds do not give up. -/
theorem foldlM_eq_foldl_option {f : σ → α → Option σ} {g : σ → α → σ}
    (h : ∀ a ∈ l, ∀ s, f s a = some (g s a)) (s : σ) : l.foldlM f s = some (l.foldl g s) := by
  induction l generalizing s with
  | nil => rfl
  | cons a l ih =>
    rw [foldlM_cons, foldl_cons, h a mem_cons_self]
    exact ih (fun b hb => h b (mem_cons_of_mem _ hb)) (g s a)

/-- Every step of a fold that does not give up has been taken. -/
theorem exists_step_of_foldlM {f : σ → α → Option σ} {s t : σ} (h : l.foldlM f s = some t) {a : α}
    (ha : a ∈ l) : ∃ s' t', f s' a = some t' := by
  induction l generalizing s with
  | nil => cases ha
  | cons b l ih =>
    rw [foldlM_cons] at h
    obtain ⟨s', hs', h⟩ := Option.bind_eq_some_iff.mp h
    rcases mem_cons.mp ha with rfl | ha
    · exact ⟨s, s', hs'⟩
    · exact ih h ha

/-- A fold that may give up either keeps the invariant to its end, or gives up at a step that it
reached with the invariant. -/
theorem foldlM_option {f : σ → α → Option σ} {s : σ}
    (step : ∀ done a s t, a ∈ l → P done s → f s a = some t → P (done ++ [a]) t) (h : P [] s) :
    (∃ t, l.foldlM f s = some t ∧ P l t) ∨
      l.foldlM f s = none ∧ ∃ done a s, a ∈ l ∧ P done s ∧ f s a = none := by
  have key : ∀ (rest done : List α) (s : σ), rest ⊆ l → P done s →
      (∃ t, rest.foldlM f s = some t ∧ P (done ++ rest) t) ∨
        rest.foldlM f s = none ∧ ∃ done a s, a ∈ rest ∧ P done s ∧ f s a = none := by
    intro rest
    induction rest with
    | nil =>
      intro done s _ hs
      rw [append_nil]
      exact .inl ⟨s, rfl, hs⟩
    | cons a rest ih =>
      intro done s hsub hs
      rw [foldlM_cons]
      cases hf : f s a with
      | none => exact .inr ⟨rfl, done, a, s, by simp, hs, hf⟩
      | some t =>
        have ht := step done a s t (hsub (by simp)) hs hf
        rcases ih (done ++ [a]) t (fun b hb => hsub (by simp [hb])) ht with
          ⟨u, hu, hP⟩ | ⟨hnone, hfail⟩
        · rw [append_assoc] at hP
          exact .inl ⟨u, hu, hP⟩
        · obtain ⟨done', b, s', hb, hfail⟩ := hfail
          exact .inr ⟨hnone, done', b, s', by simp [hb], hfail⟩
  exact key l [] s (List.Subset.refl l) h

end ItemDependencies.Library
