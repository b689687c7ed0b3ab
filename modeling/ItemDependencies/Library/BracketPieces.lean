import ItemDependencies.Library.Brackets

/-!
# Pieces between separators

A word whose brackets match is cut by the separators outside all of them into
pieces that can be read on their own, and any of these pieces, joined by
separators again, make such a word.
-/

namespace ItemDependencies.Library.Brackets

open List Option

universe u v

variable {τ : Type u} {δ : Type v} [DecidableEq δ] {mark : τ → Mark δ} {separator : τ → Bool}
  {word front back piece : List τ} {pieces : List (List τ)} {stack stack' base : List δ} {x sep : τ}
  {pairs : List (BracketPair δ)}

/-- Reading a word from some open brackets leaves others open. -/
def Reads (mark : τ → Mark δ) (stack : List δ) (word : List τ) (stack' : List δ) : Prop :=
  word.foldlM (fun stack x => read stack (mark x)) stack = some stack'

/-- A piece is read on its own, and no separator is outside all of its brackets. -/
structure IsPiece (mark : τ → Mark δ) (separator : τ → Bool) (stack : List δ) (piece : List τ) :
    Prop where
  reads : Reads mark stack piece []
  whole : splitTop mark separator stack piece = [piece]

/-- The pieces with a separator between each two. -/
def join (sep : τ) : List (List τ) → List τ
  | [] => []
  | [piece] => piece
  | piece :: next :: pieces => piece ++ sep :: join sep (next :: pieces)

/-! ## Reading -/

theorem reads_nil : Reads mark stack [] stack' ↔ stack = stack' := some_inj

theorem reads_cons : Reads mark stack (x :: word) stack' ↔
    ∃ next, read stack (mark x) = some next ∧ Reads mark next word stack' := by
  rw [Reads, foldlM_cons]
  exact bind_eq_some_iff

theorem reads_append : Reads mark stack (front ++ back) stack' ↔
    ∃ next, Reads mark stack front next ∧ Reads mark next back stack' := by
  rw [Reads, foldlM_append]
  exact bind_eq_some_iff

theorem read_append {m : Mark δ} (h : read stack m = some stack') :
    read (stack ++ base) m = some (stack' ++ base) := by
  cases m with
  | plain =>
    cases h
    rfl
  | opening bracket =>
    cases h
    rfl
  | closing bracket =>
    rw [read] at h
    obtain ⟨hhead, htail⟩ := ite_none_right_eq_some.mp h
    cases htail
    obtain ⟨rest, rfl⟩ := head?_eq_some_iff.mp hhead
    simp [read]

/-- Brackets around a word do not matter to it. -/
theorem Reads.add_base (h : Reads mark stack word stack') (base : List δ) :
    Reads mark (stack ++ base) word (stack' ++ base) := by
  induction word generalizing stack with
  | nil =>
    cases reads_nil.mp h
    exact reads_nil.mpr rfl
  | cons x word ih =>
    obtain ⟨next, hread, h⟩ := reads_cons.mp h
    exact reads_cons.mpr ⟨_, read_append hread, ih h⟩

theorem Reads.unique {other : List δ} (h : Reads mark stack word stack')
    (h' : Reads mark stack word other) : stack' = other := Option.some.inj (h.symm.trans h')

theorem Scans.reads {k : Nat} {s t : List (δ × Nat)} (h : Scans mark k s word t pairs) :
    Reads mark (s.map Prod.fst) word (t.map Prod.fst) := by
  induction h with
  | nil => exact reads_nil.mpr rfl
  | plain hx _ ih => exact reads_cons.mpr ⟨_, by rw [hx]; rfl, ih⟩
  | opening hx _ ih => exact reads_cons.mpr ⟨_, by rw [hx]; rfl, ih⟩
  | closing hx _ ih => exact reads_cons.mpr ⟨_, by rw [hx]; simp [read], ih⟩

theorem Reads.scans (h : Reads mark stack word stack') {k : Nat} {s : List (δ × Nat)}
    (hs : s.map Prod.fst = stack) :
    ∃ t pairs, Scans mark k s word t pairs ∧ t.map Prod.fst = stack' := by
  induction word generalizing stack k s with
  | nil =>
    cases reads_nil.mp h
    exact ⟨s, [], .nil, hs⟩
  | cons x word ih =>
    obtain ⟨next, hread, h⟩ := reads_cons.mp h
    cases hx : mark x with
    | plain =>
      rw [hx] at hread
      cases hread
      obtain ⟨t, pairs, hscan, ht⟩ := ih h hs
      exact ⟨t, pairs, .plain hx hscan, ht⟩
    | opening bracket =>
      rw [hx] at hread
      cases hread
      obtain ⟨t, pairs, hscan, ht⟩ := ih h (k := k + 1) (s := (bracket, k) :: s) (by simp [hs])
      exact ⟨t, pairs, .opening hx hscan, ht⟩
    | closing bracket =>
      rw [hx, read] at hread
      obtain ⟨hhead, htail⟩ := ite_none_right_eq_some.mp hread
      cases htail
      cases s with
      | nil =>
        subst hs
        cases hhead
      | cons e s =>
        subst hs
        obtain ⟨bracket', i⟩ := e
        cases hhead
        obtain ⟨t, pairs, hscan, ht⟩ := ih h (k := k + 1) (s := s) rfl
        exact ⟨t, _, .closing hx hscan, ht⟩

omit [DecidableEq δ] in
theorem Scans.add_base {k : Nat} {s t : List (δ × Nat)} (h : Scans mark k s word t pairs)
    (base : List (δ × Nat)) : Scans mark k (s ++ base) word (t ++ base) pairs := by
  induction h with
  | nil => exact .nil
  | plain hx _ ih => exact .plain hx ih
  | opening hx _ ih => exact .opening hx ih
  | closing hx _ ih => exact .closing hx ih

/-- A bracket and the partner behind a word that is read on its own. -/
theorem pair_mem_of_reads {before inside behind : List τ} {opening closing : τ} {bracket : δ}
    (hmatches : Matches mark (before ++ opening :: (inside ++ closing :: behind)) pairs)
    (hopening : mark opening = .opening bracket) (hclosing : mark closing = .closing bracket)
    (hinside : Reads mark [] inside []) :
    ⟨bracket, before.length, before.length + 1 + inside.length⟩ ∈ pairs := by
  obtain ⟨outer, left, right, -, hscan, rfl⟩ := Scans.split hmatches
  rw [Nat.zero_add] at hscan
  cases hscan with
  | plain hx _ => simp [hopening] at hx
  | closing hx _ => simp [hopening] at hx
  | @opening _ _ _ _ _ _ other hx rest =>
    obtain rfl := Mark.opening.inj (hopening.symm.trans hx)
    obtain ⟨inner, mid, last, hmid, hlast, rfl⟩ := rest.split
    obtain ⟨t, found, hfound, ht⟩ := hinside.scans (k := before.length + 1) (s := []) rfl
    obtain rfl := map_eq_nil_iff.mp ht
    obtain ⟨rfl, -⟩ := hmid.unique (hfound.add_base _)
    cases hlast with
    | plain hx' _ => simp [hclosing] at hx'
    | opening hx' _ => simp [hclosing] at hx'
    | closing hx' _ => simp

/-- What lies between two partners is read on its own. -/
theorem reads_inside {before inside behind : List τ} {opening closing : τ} {bracket : δ}
    (h : Matches mark (before ++ opening :: (inside ++ closing :: behind)) pairs)
    (hp : ⟨bracket, before.length, before.length + 1 + inside.length⟩ ∈ pairs) :
    Reads mark [] inside [] := by
  have hstart : Level pairs ⟨bracket, before.length, before.length + 1 + inside.length⟩
      (before.length + 1) :=
    fun q _ hfirst hlast => absurd hlast (Nat.not_lt.mpr hfirst)
  have hend : Level pairs ⟨bracket, before.length, before.length + 1 + inside.length⟩
      (before.length + 1 + inside.length) := by
    intro q hq hfirst hlast
    rcases h.eq_or hp hq with rfl | hor | hor
    · exact absurd hfirst (Nat.lt_irrefl _)
    · dsimp only at hfirst hlast hor
      omega
    · exact hor.1
  have hinside : ((before ++ opening :: (inside ++ closing :: behind)).take
      (before.length + 1 + inside.length)).drop (before.length + 1) = inside := by
    have hword : before ++ opening :: (inside ++ closing :: behind) =
        (before ++ [opening] ++ inside) ++ closing :: behind := by simp
    have hlength : before.length + 1 = (before ++ [opening]).length := by simp
    rw [hword, take_left' (by simp; omega), hlength, drop_left]
  obtain ⟨inner, hscan, -⟩ := h.segment hp (Nat.lt_succ_self _) (Nat.le_add_right _ _)
    (Nat.le_refl _) hstart hend
  dsimp only [Nat.succ_eq_add_one] at hscan
  rw [hinside] at hscan
  exact hscan.reads

/-! ## Cutting and joining -/

theorem join_cons (h : pieces ≠ []) :
    join sep (piece :: pieces) = piece ++ sep :: join sep pieces := by
  cases pieces with
  | nil => exact absurd rfl h
  | cons next pieces => rfl

/-- Each piece before one of them has a separator behind it, each piece behind it one before it. -/
theorem join_append_cons (pieces others : List (List τ)) (piece : List τ) :
    join sep (pieces ++ piece :: others) = pieces.flatMap (fun piece => piece ++ [sep]) ++
      (piece ++ others.flatMap fun piece => sep :: piece) := by
  induction pieces with
  | nil =>
    induction others generalizing piece with
    | nil => simp [join]
    | cons other others ih =>
      have := ih other
      rw [nil_append, flatMap_nil, nil_append] at this ⊢
      rw [join_cons (cons_ne_nil _ _), this, flatMap_cons, cons_append]
  | cons first pieces ih =>
    rw [cons_append, join_cons (by simp), ih, flatMap_cons]
    simp

theorem join_prepend (h : pieces ≠ []) :
    join sep (prepend front pieces) = front ++ join sep pieces := by
  obtain ⟨piece, pieces, rfl⟩ := exists_cons_of_ne_nil h
  rw [prepend]
  cases pieces with
  | nil => rfl
  | cons next pieces => exact append_assoc _ _ _

/-- The pieces make up the word. -/
theorem join_splitTop (hsep : ∀ x ∈ word, separator x = true → x = sep) :
    join sep (splitTop mark separator stack word) = word := by
  induction word generalizing stack with
  | nil => rfl
  | cons x word ih =>
    obtain ⟨hx, hsep⟩ := forall_mem_cons.mp hsep
    rw [splitTop]
    split
    · rename_i h
      rw [join_cons splitTop_ne_nil, ih hsep, hx (Bool.and_eq_true_iff.mp h).2]
      rfl
    · rw [join_prepend splitTop_ne_nil, ih hsep]
      rfl

theorem IsPiece.nil : IsPiece mark separator [] [] := ⟨reads_nil.mpr rfl, rfl⟩

theorem IsPiece.cons (hx : (stack.isEmpty && separator x) = false)
    (hread : read stack (mark x) = some stack') (h : IsPiece mark separator stack' piece) :
    IsPiece mark separator stack (x :: piece) := by
  refine ⟨reads_cons.mpr ⟨_, hread, h.reads⟩, ?_⟩
  rw [splitTop_cons_of hx, hread, getD_some, h.whole]
  rfl

/-- Each piece can be read on its own; the first one from the brackets around the word. -/
theorem isPiece_of_splitTop (hplain : ∀ x, separator x = true → mark x = .plain)
    (h : Reads mark stack word []) : ∃ first rest,
      splitTop mark separator stack word = first :: rest ∧ IsPiece mark separator stack first ∧
      ∀ piece ∈ rest, IsPiece mark separator [] piece := by
  induction word generalizing stack with
  | nil =>
    cases reads_nil.mp h
    exact ⟨[], [], rfl, .nil, by simp⟩
  | cons x word ih =>
    obtain ⟨next, hread, h⟩ := reads_cons.mp h
    obtain ⟨first, rest, hsplit, hfirst, hrest⟩ := ih h
    cases hx : stack.isEmpty && separator x with
    | true =>
      obtain ⟨hstack, hsepx⟩ := Bool.and_eq_true_iff.mp hx
      obtain rfl := isEmpty_iff.mp hstack
      rw [hplain x hsepx] at hread
      cases hread
      refine ⟨[], first :: rest, ?_, .nil, forall_mem_cons.mpr ⟨hfirst, hrest⟩⟩
      rw [splitTop, if_pos hx, hsplit]
    | false =>
      refine ⟨x :: first, rest, ?_, hfirst.cons hx hread, hrest⟩
      rw [splitTop_cons_of hx, hread, getD_some, hsplit]
      rfl

theorem forall_isPiece (hplain : ∀ x, separator x = true → mark x = .plain)
    (h : Reads mark [] word []) :
    ∀ piece ∈ splitTop mark separator [] word, IsPiece mark separator [] piece := by
  obtain ⟨first, rest, hsplit, hfirst, hrest⟩ := isPiece_of_splitTop hplain h
  rw [hsplit]
  exact forall_mem_cons.mpr ⟨hfirst, hrest⟩

/-- Pieces that are joined can be read. -/
theorem reads_join (hplain : mark sep = .plain)
    (h : ∀ piece ∈ pieces, Reads mark [] piece []) : Reads mark [] (join sep pieces) [] := by
  induction pieces with
  | nil => exact reads_nil.mpr rfl
  | cons piece pieces ih =>
    obtain ⟨hpiece, h⟩ := forall_mem_cons.mp h
    by_cases hnil : pieces = []
    · subst hnil
      exact hpiece
    · rw [join_cons hnil]
      exact reads_append.mpr ⟨[], hpiece, reads_cons.mpr ⟨[], by rw [hplain]; rfl, ih h⟩⟩

end ItemDependencies.Library.Brackets
