import Mathlib.Data.List.Basic

/-!
# Matching brackets

A word whose letters open brackets, close brackets or do neither is read with a
stack of the brackets that are open.  In a word that leaves none open two pairs
of partners are nested or apart, so that the letters between two places of the
same depth can be read on their own.  A word from which partners are only
removed together still matches.
-/

namespace ItemDependencies.Library

open List

universe u v

/-- What a letter is to the brackets around it. -/
inductive Mark (δ : Type v) where
  | opening (bracket : δ)
  | closing (bracket : δ)
  | plain
deriving DecidableEq

/-- A bracket and its partner, by their positions in the word. -/
structure BracketPair (δ : Type v) where
  bracket : δ
  first : Nat
  last : Nat
deriving DecidableEq

namespace Brackets

variable {τ : Type u} {δ : Type v}

/-- The brackets that are open after one more letter. -/
def read [DecidableEq δ] (stack : List δ) : Mark δ → Option (List δ)
  | .opening bracket => some (bracket :: stack)
  | .closing bracket => if stack.head? = some bracket then some stack.tail else none
  | .plain => some stack

/-- Every bracket of the word is closed by one of its kind. -/
def Balanced [DecidableEq δ] (mark : τ → Mark δ) (word : List τ) : Prop :=
  word.foldlM (fun stack x => read stack (mark x)) [] = some []

instance [DecidableEq δ] (mark : τ → Mark δ) (word : List τ) : Decidable (Balanced mark word) :=
  inferInstanceAs (Decidable (_ = _))

/-- Put some letters in front of the first piece. -/
def prepend (front : List τ) : List (List τ) → List (List τ)
  | [] => [front]
  | piece :: pieces => (front ++ piece) :: pieces

/-- The pieces of a word between the separators outside all brackets. -/
def splitTop [DecidableEq δ] (mark : τ → Mark δ) (separator : τ → Bool) :
    List δ → List τ → List (List τ)
  | _, [] => [[]]
  | stack, x :: word =>
    if stack.isEmpty && separator x then [] :: splitTop mark separator [] word
    else prepend [x] (splitTop mark separator ((read stack (mark x)).getD stack) word)

/-- Reading a word at a position, from a stack of open brackets to another; the pairs come in the
order in which they are closed. -/
inductive Scans (mark : τ → Mark δ) :
    Nat → List (δ × Nat) → List τ → List (δ × Nat) → List (BracketPair δ) → Prop
  | nil {k : Nat} {stack : List (δ × Nat)} : Scans mark k stack [] stack []
  | plain {k : Nat} {stack stack' : List (δ × Nat)} {x : τ} {word : List τ}
      {pairs : List (BracketPair δ)} (h : mark x = .plain)
      (rest : Scans mark (k + 1) stack word stack' pairs) :
      Scans mark k stack (x :: word) stack' pairs
  | opening {k : Nat} {stack stack' : List (δ × Nat)} {x : τ} {word : List τ}
      {pairs : List (BracketPair δ)} {bracket : δ} (h : mark x = .opening bracket)
      (rest : Scans mark (k + 1) ((bracket, k) :: stack) word stack' pairs) :
      Scans mark k stack (x :: word) stack' pairs
  | closing {k i : Nat} {stack stack' : List (δ × Nat)} {x : τ} {word : List τ}
      {pairs : List (BracketPair δ)} {bracket : δ} (h : mark x = .closing bracket)
      (rest : Scans mark (k + 1) stack word stack' pairs) :
      Scans mark k ((bracket, i) :: stack) (x :: word) stack' (⟨bracket, i, k⟩ :: pairs)

/-- The pairs of a word whose brackets match. -/
def Matches (mark : τ → Mark δ) (word : List τ) (pairs : List (BracketPair δ)) : Prop :=
  Scans mark 0 [] word [] pairs

/-- The positions on a stack lie before the reader, the innermost last. -/
def Descends (k : Nat) (stack : List (δ × Nat)) : Prop :=
  (∀ e ∈ stack, e.2 < k) ∧ stack.Pairwise fun a b => b.2 < a.2

variable {mark : τ → Mark δ} {k : Nat} {s t : List (δ × Nat)} {word front back : List τ}
  {pairs : List (BracketPair δ)} {p q : BracketPair δ}

/-! ## The stack -/

theorem descends_nil : Descends k ([] : List (δ × Nat)) :=
  ⟨fun _ he => (not_mem_nil he).elim, .nil⟩

theorem Descends.mono (h : Descends k s) : Descends (k + 1) s :=
  ⟨fun e he => Nat.lt_succ_of_lt (h.1 e he), h.2⟩

theorem Descends.push (h : Descends k s) (bracket : δ) : Descends (k + 1) ((bracket, k) :: s) := by
  constructor
  · intro e he
    rcases mem_cons.mp he with rfl | he
    · exact Nat.lt_succ_self k
    · exact Nat.lt_succ_of_lt (h.1 e he)
  · exact pairwise_cons.mpr ⟨h.1, h.2⟩

theorem Descends.pop {e : δ × Nat} (h : Descends k (e :: s)) : Descends (k + 1) s :=
  ⟨fun f hf => Nat.lt_succ_of_lt (h.1 f (mem_cons_of_mem _ hf)), (pairwise_cons.mp h.2).2⟩

theorem Scans.descends (h : Scans mark k s word t pairs) (hs : Descends k s) :
    Descends (k + word.length) t := by
  induction h with
  | nil => exact hs
  | plain _ _ ih =>
    rw [length_cons, Nat.add_comm _ 1, ← Nat.add_assoc]
    exact ih hs.mono
  | opening _ _ ih =>
    rw [length_cons, Nat.add_comm _ 1, ← Nat.add_assoc]
    exact ih (hs.push _)
  | closing _ _ ih =>
    rw [length_cons, Nat.add_comm _ 1, ← Nat.add_assoc]
    exact ih hs.pop

/-! ## Reading in parts -/

theorem Scans.append {m : List (δ × Nat)} {pairs' : List (BracketPair δ)}
    (h : Scans mark k s front m pairs) (h' : Scans mark (k + front.length) m back t pairs') :
    Scans mark k s (front ++ back) t (pairs ++ pairs') := by
  induction h with
  | nil => exact h'
  | plain hx _ ih =>
    refine .plain hx (ih ?_)
    rwa [length_cons, Nat.add_comm _ 1, ← Nat.add_assoc] at h'
  | opening hx _ ih =>
    refine .opening hx (ih ?_)
    rwa [length_cons, Nat.add_comm _ 1, ← Nat.add_assoc] at h'
  | closing hx _ ih =>
    refine .closing hx (ih ?_)
    rwa [length_cons, Nat.add_comm _ 1, ← Nat.add_assoc] at h'

theorem Scans.split (h : Scans mark k s (front ++ back) t pairs) :
    ∃ m left right, Scans mark k s front m left ∧ Scans mark (k + front.length) m back t right ∧
      pairs = left ++ right := by
  induction front generalizing k s pairs with
  | nil => exact ⟨s, [], pairs, .nil, h, rfl⟩
  | cons x front ih =>
    have hk : k + (x :: front).length = k + 1 + front.length := by
      rw [length_cons, Nat.add_comm _ 1, ← Nat.add_assoc]
    rw [hk]
    cases h with
    | plain hx rest =>
      obtain ⟨m, left, right, hleft, hright, rfl⟩ := ih rest
      exact ⟨m, left, right, .plain hx hleft, hright, rfl⟩
    | opening hx rest =>
      obtain ⟨m, left, right, hleft, hright, rfl⟩ := ih rest
      exact ⟨m, left, right, .opening hx hleft, hright, rfl⟩
    | closing hx rest =>
      obtain ⟨m, left, right, hleft, hright, rfl⟩ := ih rest
      exact ⟨m, _, right, .closing hx hleft, hright, rfl⟩

/-- A word can be read in one way. -/
theorem Scans.unique {t' : List (δ × Nat)} {pairs' : List (BracketPair δ)}
    (h : Scans mark k s word t pairs) (h' : Scans mark k s word t' pairs') :
    t = t' ∧ pairs = pairs' := by
  induction h generalizing t' pairs' with
  | nil =>
    cases h'
    exact ⟨rfl, rfl⟩
  | plain hx _ ih =>
    cases h' with
    | plain _ rest => exact ih rest
    | opening hx' _ => simp [hx] at hx'
    | closing hx' _ => simp [hx] at hx'
  | opening hx _ ih =>
    cases h' with
    | plain hx' _ => simp [hx] at hx'
    | opening hx' rest =>
      obtain rfl := Mark.opening.inj (hx.symm.trans hx')
      exact ih rest
    | closing hx' _ => simp [hx] at hx'
  | closing hx _ ih =>
    cases h' with
    | plain hx' _ => simp [hx] at hx'
    | opening hx' _ => simp [hx] at hx'
    | closing hx' rest =>
      obtain ⟨rfl, rfl⟩ := ih rest
      exact ⟨rfl, rfl⟩

/-! ## Partners -/

/-- A pair is closed in the word that is read, and opened there or on the stack. -/
theorem Scans.pair_spec (h : Scans mark k s word t pairs) (hs : Descends k s) :
    ∀ p ∈ pairs, k ≤ p.last ∧ p.first < p.last ∧
      (∃ x, word[p.last - k]? = some x ∧ mark x = .closing p.bracket) ∧
      ((p.bracket, p.first) ∈ s ∨
        k ≤ p.first ∧ ∃ x, word[p.first - k]? = some x ∧ mark x = .opening p.bracket) := by
  -- one letter further the positions are counted from there
  have shift : ∀ {k : Nat} {s : List (δ × Nat)} {x : τ} {word : List τ} {p : BracketPair δ}
      {P : Prop}, (k + 1 ≤ p.last ∧ p.first < p.last ∧
      (∃ y, word[p.last - (k + 1)]? = some y ∧ mark y = .closing p.bracket) ∧
      (P ∨ k + 1 ≤ p.first ∧
        ∃ y, word[p.first - (k + 1)]? = some y ∧ mark y = .opening p.bracket)) →
      k ≤ p.last ∧ p.first < p.last ∧
      (∃ y, (x :: word)[p.last - k]? = some y ∧ mark y = .closing p.bracket) ∧
      (P ∨ k ≤ p.first ∧
        ∃ y, (x :: word)[p.first - k]? = some y ∧ mark y = .opening p.bracket) := by
    intro k s x word p P h
    obtain ⟨hlast, hlt, ⟨y, hy, hclosing⟩, hfirst⟩ := h
    have hget : ∀ n, k + 1 ≤ n → (x :: word)[n - k]? = word[n - (k + 1)]? := by
      intro n hn
      obtain ⟨m, rfl⟩ := Nat.exists_eq_add_of_le hn
      have : k + 1 + m - k = m + 1 := by omega
      rw [this, getElem?_cons_succ, Nat.add_sub_cancel_left]
    refine ⟨Nat.le_of_succ_le hlast, hlt, ⟨y, by rwa [hget _ hlast], hclosing⟩, ?_⟩
    rcases hfirst with hP | ⟨hfirst, z, hz, hopening⟩
    · exact .inl hP
    · exact .inr ⟨Nat.le_of_succ_le hfirst, z, by rwa [hget _ hfirst], hopening⟩
  induction h with
  | nil => exact fun p hp => (not_mem_nil hp).elim
  | @plain k s t x _ _ hx _ ih => exact fun p hp => shift (s := s) (ih hs.mono p hp)
  | @opening k s t x word pairs bracket hx _ ih =>
    intro p hp
    obtain ⟨hlast, hlt, hclosing, hfirst⟩ := shift (s := s) (x := x) (ih (hs.push _) p hp)
    refine ⟨hlast, hlt, hclosing, ?_⟩
    rcases hfirst with hmem | hfirst
    · rcases mem_cons.mp hmem with heq | hmem
      · obtain ⟨hbracket, hpos⟩ := Prod.mk.inj heq
        exact .inr ⟨Nat.le_of_eq hpos.symm, x, by rw [hpos, Nat.sub_self]; rfl, hbracket ▸ hx⟩
      · exact .inl hmem
    · exact .inr hfirst
  | @closing k i s t x word pairs bracket hx _ ih =>
    intro p hp
    rcases mem_cons.mp hp with rfl | hp
    · exact ⟨Nat.le_refl k, hs.1 _ mem_cons_self, ⟨x, by rw [Nat.sub_self]; rfl, hx⟩,
        .inl mem_cons_self⟩
    · obtain ⟨hlast, hlt, hclosing, hfirst⟩ := shift (s := s) (x := x) (ih hs.pop p hp)
      exact ⟨hlast, hlt, hclosing, hfirst.imp_left (mem_cons_of_mem _)⟩

/-- Of two pairs the one that is closed later was opened before the other, or behind it. -/
theorem Scans.pairwise (h : Scans mark k s word t pairs) (hs : Descends k s) :
    pairs.Pairwise fun p q => p.last < q.last ∧ (q.first < p.first ∨ p.last < q.first) := by
  induction h with
  | nil => exact .nil
  | plain _ _ ih => exact ih hs.mono
  | opening _ _ ih => exact ih (hs.push _)
  | closing _ rest ih =>
    refine pairwise_cons.mpr ⟨fun q hq => ?_, ih hs.pop⟩
    obtain ⟨hlast, -, -, hfirst⟩ := rest.pair_spec hs.pop q hq
    refine ⟨hlast, ?_⟩
    rcases hfirst with hmem | ⟨hfirst, -⟩
    · exact .inl ((pairwise_cons.mp hs.2).1 _ hmem)
    · exact .inr hfirst

/-- A bracket on the stack is closed or still open. -/
theorem Scans.mem_stack (h : Scans mark k s word t pairs) {e : δ × Nat} (he : e ∈ s) :
    e ∈ t ∨ ∃ last, ⟨e.1, e.2, last⟩ ∈ pairs := by
  induction h with
  | nil => exact .inl he
  | plain _ _ ih => exact ih he
  | opening _ _ ih => exact ih (mem_cons_of_mem _ he)
  | closing _ _ ih =>
    rcases mem_cons.mp he with rfl | he
    · exact .inr ⟨_, mem_cons_self⟩
    · exact (ih he).imp_right fun ⟨last, hlast⟩ => ⟨last, mem_cons_of_mem _ hlast⟩

/-! ## Words without the brackets around them -/

/-- Brackets that are not closed by a word do not matter to it. -/
theorem Scans.drop_base {loc base : List (δ × Nat)} (h : Scans mark k (loc ++ base) word t pairs)
    (hbase : ∀ p ∈ pairs, ∀ e ∈ base, e.2 ≠ p.first) :
    ∃ loc', t = loc' ++ base ∧ Scans mark k loc word loc' pairs := by
  induction word generalizing k loc pairs with
  | nil =>
    refine ⟨loc, ?_⟩
    generalize loc ++ base = s at h ⊢
    cases h
    exact ⟨rfl, .nil⟩
  | cons x word ih =>
    generalize hstack : loc ++ base = s at h
    cases h with
    | plain hx rest =>
      obtain ⟨loc', ht, hloc⟩ := ih (hstack ▸ rest) hbase
      exact ⟨loc', ht, .plain hx hloc⟩
    | opening hx rest =>
      rw [← hstack, ← cons_append] at rest
      obtain ⟨loc', ht, hloc⟩ := ih rest hbase
      exact ⟨loc', ht, .opening hx hloc⟩
    | @closing _ i stack _ _ _ pairs bracket hx rest =>
      cases loc with
      | nil =>
        -- the bracket that is closed would be one of those around the word
        rw [nil_append] at hstack
        exact absurd rfl (hbase _ mem_cons_self (bracket, i) (hstack ▸ mem_cons_self))
      | cons e loc =>
        rw [cons_append, List.cons.injEq] at hstack
        obtain ⟨rfl, rfl⟩ := hstack
        obtain ⟨loc', ht, hloc⟩ := ih rest fun p hp => hbase p (mem_cons_of_mem _ hp)
        exact ⟨loc', ht, .closing hx hloc⟩

theorem Scans.last_lt (h : Scans mark k s word t pairs) (hs : Descends k s) (hp : p ∈ pairs) :
    p.last < k + word.length := by
  obtain ⟨hle, -, ⟨x, hx, -⟩, -⟩ := h.pair_spec hs p hp
  obtain ⟨hlt, -⟩ := List.getElem?_eq_some_iff.mp hx
  omega

section Matches

theorem Matches.first_lt_last (h : Matches mark word pairs) (hp : p ∈ pairs) : p.first < p.last :=
  (Scans.pair_spec h descends_nil p hp).2.1

theorem Matches.last_lt (h : Matches mark word pairs) (hp : p ∈ pairs) : p.last < word.length := by
  have := Scans.last_lt h descends_nil hp
  rwa [Nat.zero_add] at this

theorem Matches.opening (h : Matches mark word pairs) (hp : p ∈ pairs) :
    ∃ x, word[p.first]? = some x ∧ mark x = .opening p.bracket := by
  obtain ⟨-, -, -, hmem | ⟨-, hx⟩⟩ := Scans.pair_spec h descends_nil p hp
  · exact (not_mem_nil hmem).elim
  · exact hx

theorem Matches.closing (h : Matches mark word pairs) (hp : p ∈ pairs) :
    ∃ x, word[p.last]? = some x ∧ mark x = .closing p.bracket :=
  (Scans.pair_spec h descends_nil p hp).2.2.1

theorem Matches.nodup (h : Matches mark word pairs) : pairs.Nodup :=
  (Scans.pairwise h descends_nil).imp fun hlt heq => by
    rw [heq] at hlt
    exact absurd hlt.1 (Nat.lt_irrefl _)

/-- Two pairs are one, or the one that is closed later is opened before the other or behind it. -/
theorem Matches.eq_or (h : Matches mark word pairs) (hp : p ∈ pairs) (hq : q ∈ pairs) :
    p = q ∨ (p.last < q.last ∧ (q.first < p.first ∨ p.last < q.first)) ∨
      (q.last < p.last ∧ (p.first < q.first ∨ q.last < p.first)) := by
  obtain ⟨i, hi, rfl⟩ := getElem_of_mem hp
  obtain ⟨j, hj, rfl⟩ := getElem_of_mem hq
  have hpairwise := pairwise_iff_getElem.mp (Scans.pairwise h descends_nil)
  rcases Nat.lt_trichotomy i j with hij | rfl | hij
  · exact .inr (.inl (hpairwise i j hi hj hij))
  · exact .inl rfl
  · exact .inr (.inr (hpairwise j i hj hi hij))

/-- The part of a matching word up to some position, behind a bracket that is still open there:
the brackets that it leaves open are those of the pairs that are closed later. -/
theorem Matches.inside (h : Matches mark word pairs) (hp : p ∈ pairs) {j : Nat}
    (hfirst : p.first < j) (hlast : j ≤ p.last) :
    ∃ loc inner, Scans mark (p.first + 1) [] ((word.take j).drop (p.first + 1)) loc inner ∧
      (∀ q, q ∈ inner ↔ q ∈ pairs ∧ p.first < q.first ∧ q.last < j) ∧
      ∀ e, e ∈ loc ↔ ∃ q ∈ pairs, (q.bracket, q.first) = e ∧ p.first < q.first ∧ q.first < j ∧
        j ≤ q.last := by
  have hlen : p.last < word.length := h.last_lt hp
  have hlenu : (word.take (p.first + 1)).length = p.first + 1 := by
    rw [length_take]
    omega
  have hlenv : ((word.take j).drop (p.first + 1)).length = j - (p.first + 1) := by
    rw [length_drop, length_take]
    omega
  have hword : word = word.take (p.first + 1) ++
      ((word.take j).drop (p.first + 1) ++ word.drop j) := by
    have htake : word.take (p.first + 1) = (word.take j).take (p.first + 1) := by
      rw [take_take, Nat.min_eq_left hfirst]
    rw [htake, ← append_assoc, take_append_drop, take_append_drop]
  obtain ⟨m, left, right, hleft, hright, hpairs⟩ := Scans.split (hword ▸ h)
  rw [hlenu, Nat.zero_add] at hright
  obtain ⟨m', inner, outer, hinner, houter, rfl⟩ := hright.split
  have hm : Descends (p.first + 1) m := by
    have := hleft.descends descends_nil
    rwa [hlenu, Nat.zero_add] at this
  rw [hlenv, Nat.add_sub_cancel' hfirst] at houter
  have hm' : Descends j m' := by
    have := hinner.descends hm
    rwa [hlenv, Nat.add_sub_cancel' hfirst] at this
  -- a pair belongs to the part in which it is closed
  have hcut : ∀ q ∈ pairs, j ≤ q.last → q ∈ outer := by
    intro q hq hj
    rw [hpairs, mem_append, mem_append] at hq
    rcases hq with hq | hq | hq
    · have := hleft.last_lt descends_nil hq
      omega
    · have := hinner.last_lt hm hq
      omega
    · exact hq
  have hstack : ∀ q ∈ outer, q.first < j → (q.bracket, q.first) ∈ m' := by
    intro q hq hj
    rcases (houter.pair_spec hm' q hq).2.2.2 with hmem | ⟨hle, -⟩
    · exact hmem
    · omega
  have hpouter := hcut p hp hlast
  have hbase : ∀ q ∈ inner, ∀ e ∈ m, e.2 ≠ q.first := by
    intro q hq e he heq
    have hord := Scans.pairwise h descends_nil
    rw [hpairs] at hord
    obtain ⟨-, hsep⟩ :=
      (pairwise_append.mp (pairwise_append.mp hord).2.1).2.2 q hq p hpouter
    have := hm.1 e he
    have := (hinner.pair_spec hm q hq).1
    omega
  obtain ⟨loc, rfl, hloc⟩ := Scans.drop_base (nil_append m ▸ hinner) hbase
  have hpm : (p.bracket, p.first) ∈ m := by
    rcases (hright.pair_spec hm p (mem_append_right _ hpouter)).2.2.2 with hmem | ⟨hle, -⟩
    · exact hmem
    · omega
  refine ⟨loc, inner, hloc, fun q => ⟨fun hq => ⟨?_, ?_, ?_⟩, ?_⟩, fun e => ⟨fun he => ?_, ?_⟩⟩
  · rw [hpairs]
    simp [hq]
  · rcases (hloc.pair_spec descends_nil q hq).2.2.2 with hnil | ⟨hle, -⟩
    · exact (not_mem_nil hnil).elim
    · exact hle
  · have := hinner.last_lt hm hq
    omega
  · rintro ⟨hq, hpq, hj⟩
    rw [hpairs, mem_append, mem_append] at hq
    rcases hq with hq | hq | hq
    · have := hleft.last_lt descends_nil hq
      have := (hleft.pair_spec descends_nil q hq).2.1
      omega
    · exact hq
    · have := (houter.pair_spec hm' q hq).1
      omega
  · rcases houter.mem_stack (mem_append_left m he) with hnil | ⟨last, hq⟩
    · exact (not_mem_nil hnil).elim
    · refine ⟨⟨e.1, e.2, last⟩, ?_, rfl, ?_, hm'.1 e (mem_append_left m he), ?_⟩
      · rw [hpairs]
        simp [hq]
      · exact (pairwise_append.mp hm'.2).2.2 e he _ hpm
      · exact (houter.pair_spec hm' _ hq).1
  · rintro ⟨q, hq, rfl, hpq, hqj, hlast⟩
    rcases mem_append.mp (hstack q (hcut q hq hlast) hqj) with hmem | hmem
    · exact hmem
    · have := hm.1 _ hmem
      omega

/-- A position inside a pair that lies in none of the pairs inside it. -/
def Level (pairs : List (BracketPair δ)) (p : BracketPair δ) (j : Nat) : Prop :=
  ∀ q ∈ pairs, p.first < q.first → q.first < j → q.last < j

/-- What lies between two positions of the same depth matches. -/
theorem Matches.segment (h : Matches mark word pairs) (hp : p ∈ pairs) {i j : Nat}
    (hfirst : p.first < i) (hij : i ≤ j) (hlast : j ≤ p.last) (hi : Level pairs p i)
    (hj : Level pairs p j) :
    ∃ inner, Scans mark i [] ((word.take j).drop i) [] inner ∧
      ∀ q, q ∈ inner ↔ q ∈ pairs ∧ i ≤ q.first ∧ q.last < j := by
  have hnil : ∀ {n : Nat} {loc : List (δ × Nat)}, Level pairs p n → (∀ e, e ∈ loc ↔
      ∃ q ∈ pairs, (q.bracket, q.first) = e ∧ p.first < q.first ∧ q.first < n ∧ n ≤ q.last) →
      loc = [] := by
    intro n loc hlevel hloc
    refine eq_nil_iff_forall_not_mem.mpr fun e he => ?_
    obtain ⟨q, hq, -, hpq, hqn, hlast⟩ := (hloc e).mp he
    exact absurd (hlevel q hq hpq hqn) (Nat.not_lt.mpr hlast)
  obtain ⟨loc, inner, hscan, hmem, hloc⟩ := h.inside hp (Nat.lt_of_lt_of_le hfirst hij) hlast
  obtain rfl := hnil hj hloc
  obtain ⟨loc, inner', hscan', -, hloc⟩ := h.inside hp hfirst (Nat.le_trans hij hlast)
  obtain rfl := hnil hi hloc
  have hlen := h.last_lt hp
  have htake : word.take i = (word.take j).take i := by
    rw [take_take, Nat.min_eq_left hij]
  have hleni : (word.take i).length = i := by
    rw [length_take]
    omega
  have hword : (word.take j).drop (p.first + 1) =
      (word.take i).drop (p.first + 1) ++ (word.take j).drop i := by
    rw [← drop_append_of_le_length (by omega), htake, take_append_drop]
  rw [hword] at hscan
  obtain ⟨m, left, right, hleft, hright, rfl⟩ := hscan.split
  obtain ⟨rfl, -⟩ := hleft.unique hscan'
  have hstart : p.first + 1 + ((word.take i).drop (p.first + 1)).length = i := by
    rw [length_drop]
    omega
  rw [hstart] at hright
  refine ⟨right, hright, fun q => ⟨fun hq => ?_, ?_⟩⟩
  · obtain ⟨hq', -, hlast⟩ := (hmem q).mp (mem_append_right _ hq)
    rcases (hright.pair_spec descends_nil q hq).2.2.2 with hnil | ⟨hle, -⟩
    · exact (not_mem_nil hnil).elim
    · exact ⟨hq', hle, hlast⟩
  · rintro ⟨hq, hle, hlast⟩
    rcases mem_append.mp ((hmem q).mpr ⟨hq, Nat.lt_of_lt_of_le hfirst hle, hlast⟩) with h' | h'
    · have := hleft.last_lt descends_nil h'
      have := h.first_lt_last hq
      omega
    · exact h'

end Matches

/-! ## Removing pairs -/

section Removal

variable {dead : τ → Bool} {gone : Nat → Bool}

/-- What is left of a stack when the brackets at some positions are removed. -/
def live (gone : Nat → Bool) (stack : List (δ × Nat)) : List δ :=
  (stack.filter fun e => !gone e.2).map Prod.fst

theorem live_cons_of_gone {e : δ × Nat} (h : gone e.2 = true) :
    live gone (e :: s) = live gone s := by
  simp [live, h]

theorem live_cons_of_not_gone {e : δ × Nat} (h : gone e.2 = false) :
    live gone (e :: s) = e.1 :: live gone s := by
  simp [live, h]

variable [DecidableEq δ]

/-- A word from which partners are only removed together is read as before, without the brackets
that are removed. -/
theorem Scans.read_filter (h : Scans mark k s word t pairs)
    (hdead : ∀ j x, word[j]? = some x → dead x = gone (k + j))
    (hpairs : ∀ p ∈ pairs, gone p.first = gone p.last) :
    (word.filter fun x => !dead x).foldlM (fun stack x => read stack (mark x)) (live gone s) =
      some (live gone t) := by
  induction h with
  | nil => rfl
  | @plain k s t x word pairs hx _ ih =>
    have ih := ih (fun j y hj => by rw [Nat.add_right_comm]; exact hdead (j + 1) y hj) hpairs
    by_cases hd : dead x = true
    · rw [filter_cons_of_neg (by simp [hd])]
      exact ih
    · rw [filter_cons_of_pos (by simp [hd]), foldlM_cons, hx]
      exact ih
  | @opening k s t x word pairs bracket hx _ ih =>
    have ih := ih (fun j y hj => by rw [Nat.add_right_comm]; exact hdead (j + 1) y hj) hpairs
    have hk : dead x = gone k := hdead 0 x rfl
    cases hd : gone k with
    | true =>
      rw [live_cons_of_gone hd] at ih
      rw [filter_cons_of_neg (by simp [hk, hd])]
      exact ih
    | false =>
      rw [live_cons_of_not_gone hd] at ih
      rw [filter_cons_of_pos (by simp [hk, hd]), foldlM_cons, hx]
      exact ih
  | @closing k i s t x word pairs bracket hx _ ih =>
    have ih := ih (fun j y hj => by rw [Nat.add_right_comm]; exact hdead (j + 1) y hj)
      fun p hp => hpairs p (mem_cons_of_mem _ hp)
    have hk : dead x = gone k := hdead 0 x rfl
    have hi : gone i = gone k := hpairs _ mem_cons_self
    cases hd : gone k with
    | true =>
      rw [live_cons_of_gone (hi.trans hd), filter_cons_of_neg (by simp [hk, hd])]
      exact ih
    | false =>
      rw [live_cons_of_not_gone (hi.trans hd), filter_cons_of_pos (by simp [hk, hd]),
        foldlM_cons, hx]
      simpa [read] using ih

variable (dead gone) in
theorem Matches.balanced_filter (h : Matches mark word pairs)
    (hdead : ∀ j x, word[j]? = some x → dead x = gone j)
    (hpairs : ∀ p ∈ pairs, gone p.first = gone p.last) :
    Balanced mark (word.filter fun x => !dead x) :=
  Scans.read_filter h (fun j x hj => by rw [Nat.zero_add]; exact hdead j x hj) hpairs

variable {separator : τ → Bool}

theorem splitTop_ne_nil {stack : List δ} : splitTop mark separator stack word ≠ [] := by
  cases word with
  | nil => simp [splitTop]
  | cons x word =>
    rw [splitTop]
    split
    · simp
    · cases splitTop mark separator ((read stack (mark x)).getD stack) word <;> simp [prepend]

theorem splitTop_cons_of {stack : List δ} {x : τ} (h : (stack.isEmpty && separator x) = false) :
    splitTop mark separator stack (x :: word) =
      prepend [x] (splitTop mark separator ((read stack (mark x)).getD stack) word) := by
  rw [splitTop, if_neg (by simp [h])]

theorem prepend_nil {pieces : List (List τ)} (h : pieces ≠ []) : prepend [] pieces = pieces := by
  cases pieces with
  | nil => exact absurd rfl h
  | cons piece pieces => rfl

theorem prepend_append (pieces : List (List τ)) :
    prepend front (prepend back pieces) = prepend (front ++ back) pieces := by
  cases pieces <;> simp [prepend]

variable (dead gone) in
/-- A part of a word in which every separator that is left lies inside brackets that are left
belongs to one piece. -/
theorem Scans.splitTop_filter (h : Scans mark k s word t pairs) (hs : Descends k s)
    (hdead : ∀ j x, word[j]? = some x → dead x = gone (k + j))
    (hpairs : ∀ p ∈ pairs, gone p.first = gone p.last)
    (hsep : ∀ j x, word[j]? = some x → separator x = true → gone (k + j) = false →
      ∃ p ∈ pairs, p.first < k + j ∧ k + j < p.last ∧ gone p.first = false) :
    splitTop mark separator (live gone s) ((word.filter fun x => !dead x) ++ back) =
      prepend (word.filter fun x => !dead x) (splitTop mark separator (live gone t) back) := by
  -- a separator that is left is met with a bracket on the stack
  have hopen : ∀ {k : Nat} {s t : List (δ × Nat)} {x : τ} {word : List τ}
      {pairs : List (BracketPair δ)}, Scans mark k s (x :: word) t pairs → Descends k s →
      (∀ j y, (x :: word)[j]? = some y → separator y = true → gone (k + j) = false →
        ∃ p ∈ pairs, p.first < k + j ∧ k + j < p.last ∧ gone p.first = false) →
      gone k = false → ((live gone s).isEmpty && separator x) = false := by
    intro k s t x word pairs h hs hsep hk
    cases hx : separator x with
    | false => exact Bool.and_false _
    | true =>
      obtain ⟨p, hp, hfirst, -, hgone⟩ := hsep 0 x rfl hx hk
      rcases (h.pair_spec hs p hp).2.2.2 with hmem | ⟨hle, -⟩
      · rw [Bool.and_true, isEmpty_eq_false_iff_exists_mem]
        exact ⟨p.bracket, mem_map.mpr ⟨_, mem_filter.mpr ⟨hmem, by simp [hgone]⟩, rfl⟩⟩
      · exact absurd hfirst (Nat.not_lt.mpr hle)
  induction h with
  | nil => exact (prepend_nil splitTop_ne_nil).symm
  | @plain k s t x word pairs hx rest ih =>
    have ih :=
      ih hs.mono (fun j y hj => by rw [Nat.add_right_comm]; exact hdead (j + 1) y hj) hpairs
      (fun j y hj => by rw [Nat.add_right_comm]; exact hsep (j + 1) y hj)
    have hk : dead x = gone k := hdead 0 x rfl
    cases hd : gone k with
    | true =>
      rw [filter_cons_of_neg (by simp [hk, hd])]
      exact ih
    | false =>
      rw [filter_cons_of_pos (by simp [hk, hd]), cons_append,
        splitTop_cons_of (hopen (.plain hx rest) hs hsep hd), hx]
      simp only [read, Option.getD_some]
      rw [ih, prepend_append, singleton_append]
  | @opening k s t x word pairs bracket hx rest ih =>
    have ih := ih (hs.push _) (fun j y hj => by rw [Nat.add_right_comm]; exact hdead (j + 1) y hj)
      hpairs (fun j y hj => by rw [Nat.add_right_comm]; exact hsep (j + 1) y hj)
    have hk : dead x = gone k := hdead 0 x rfl
    cases hd : gone k with
    | true =>
      rw [live_cons_of_gone hd] at ih
      rw [filter_cons_of_neg (by simp [hk, hd])]
      exact ih
    | false =>
      rw [live_cons_of_not_gone hd] at ih
      rw [filter_cons_of_pos (by simp [hk, hd]), cons_append,
        splitTop_cons_of (hopen (.opening hx rest) hs hsep hd), hx]
      simp only [read, Option.getD_some]
      rw [ih, prepend_append, singleton_append]
  | @closing k i s t x word pairs bracket hx rest ih =>
    have ih := ih hs.pop (fun j y hj => by rw [Nat.add_right_comm]; exact hdead (j + 1) y hj)
      (fun p hp => hpairs p (mem_cons_of_mem _ hp)) (by
        intro j y hj hy hgone
        rw [Nat.add_right_comm] at hgone ⊢
        obtain ⟨p, hp, hfirst, hlast, hp'⟩ := hsep (j + 1) y hj hy hgone
        rcases mem_cons.mp hp with rfl | hp
        · exact absurd hlast (by simp)
        · exact ⟨p, hp, hfirst, hlast, hp'⟩)
    have hk : dead x = gone k := hdead 0 x rfl
    have hi : gone i = gone k := hpairs _ mem_cons_self
    cases hd : gone k with
    | true =>
      rw [live_cons_of_gone (hi.trans hd), filter_cons_of_neg (by simp [hk, hd])]
      exact ih
    | false =>
      have hstack := hopen (.closing hx rest) hs hsep hd
      rw [live_cons_of_not_gone (hi.trans hd)] at hstack ⊢
      rw [filter_cons_of_pos (by simp [hk, hd]), cons_append, splitTop_cons_of hstack, hx]
      simp only [read, head?_cons, if_true, tail_cons, Option.getD_some]
      rw [ih, prepend_append, singleton_append]

end Removal

end Brackets

end ItemDependencies.Library
