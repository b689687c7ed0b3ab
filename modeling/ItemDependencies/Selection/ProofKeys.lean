import ItemDependencies.Graph.ExpansionOrder
import ItemDependencies.Library.Ascending

/-!
# Keys of proofs

A proof of the trait solver is identified by the terms that it is about; a cycle is identified by
the keys of its members, which may be cycles themselves.
-/

namespace ItemDependencies

open Library List

/-! ## Keys of terms and instances -/

abbrev TermRank := Nat ×ₗ List Nat

def CanonicalCompilerTerm.rank (term : CanonicalCompilerTerm) : TermRank :=
  toLex (term.schemaVersion, term.bytes.map UInt8.toNat)

theorem CanonicalCompilerTerm.rank_injective : Function.Injective CanonicalCompilerTerm.rank := by
  intro a b h
  obtain ⟨hversion, hbytes⟩ := Prod.mk.inj (toLex.injective h)
  cases a
  cases b
  cases hversion
  cases Function.Injective.list_map (fun x y => UInt8.toNat_inj.mp) hbytes
  rfl

abbrev InstanceRank := ReferenceRank ×ₗ TermRank ×ₗ TermRank

def MonoInstanceKey.rank (key : MonoInstanceKey) : InstanceRank :=
  toLex (key.definition.rank, toLex (key.arguments.rank, key.kind.rank))

theorem MonoInstanceKey.rank_injective : Function.Injective MonoInstanceKey.rank := by
  intro a b h
  obtain ⟨hdefinition, h⟩ := Prod.mk.inj (toLex.injective h)
  obtain ⟨harguments, hkind⟩ := Prod.mk.inj (toLex.injective h)
  cases a
  cases b
  cases DefinitionReferenceKey.rank_injective hdefinition
  cases CanonicalCompilerTerm.rank_injective harguments
  cases CanonicalCompilerTerm.rank_injective hkind
  rfl

/-! ## Keys of proofs -/

/-- Identity of a proof. -/
inductive ProofKey where
  | obligation (environment predicate : CanonicalCompilerTerm)
  | projection (environment aliasTerm : CanonicalCompilerTerm)
  | associatedItem (request : CanonicalCompilerTerm) (rawInstance codegenInstance : MonoInstanceKey)
  | cycle (members : List ProofKey) (isCoinductive : Bool)

/-- A symbol of the linear form of a key: a mark, a term or an instance. -/
abbrev KeySymbol := Nat ⊕ₗ TermRank ⊕ₗ InstanceRank

namespace KeySymbol

def mark (n : Nat) : KeySymbol := toLex (.inl n)

def term (term : CanonicalCompilerTerm) : KeySymbol := toLex (.inr (toLex (.inl term.rank)))

def mono (key : MonoInstanceKey) : KeySymbol := toLex (.inr (toLex (.inr key.rank)))

end KeySymbol

mutual

/-- The linear form of a key.  The order of keys is that of their linear forms. -/
def ProofKey.symbols : ProofKey → List KeySymbol
  | .obligation environment predicate => [.mark 1, .term environment, .term predicate]
  | .projection environment aliasTerm => [.mark 2, .term environment, .term aliasTerm]
  | .associatedItem request rawInstance codegenInstance =>
    [.mark 3, .term request, .mono rawInstance, .mono codegenInstance]
  | .cycle members isCoinductive =>
    .mark 4 :: (memberSymbols members ++ [.mark isCoinductive.toNat])

/-- The end mark is below the first symbol of every key, so that a list that goes on is above. -/
def ProofKey.memberSymbols : List ProofKey → List KeySymbol
  | [] => [.mark 0]
  | key :: keys => key.symbols ++ memberSymbols keys

end

namespace ProofKey

theorem mark_injective : Function.Injective KeySymbol.mark := fun _ _ h =>
  Sum.inl.inj (toLex.injective h)

theorem term_injective : Function.Injective KeySymbol.term := fun _ _ h =>
  CanonicalCompilerTerm.rank_injective
    (Sum.inl.inj (toLex.injective (Sum.inr.inj (toLex.injective h))))

theorem mono_injective : Function.Injective KeySymbol.mono := fun _ _ h =>
  MonoInstanceKey.rank_injective (Sum.inr.inj (toLex.injective (Sum.inr.inj (toLex.injective h))))

theorem toNat_injective : Function.Injective Bool.toNat := by
  decide

/-- The number of the first mark. -/
def variant : ProofKey → Nat
  | obligation .. => 1
  | projection .. => 2
  | associatedItem .. => 3
  | cycle .. => 4

theorem symbols_eq_cons (key : ProofKey) :
    ∃ rest, key.symbols = KeySymbol.mark key.variant :: rest := by
  cases key <;> exact ⟨_, rfl⟩

theorem variant_pos (key : ProofKey) : 0 < key.variant := by
  cases key <;> exact Nat.succ_pos _

mutual

/-- Where a linear form ends can be told without looking at what follows. -/
theorem symbols_readable : ∀ (a b : ProofKey) (s t : List KeySymbol),
    a.symbols ++ s = b.symbols ++ t → a = b ∧ s = t
  | .obligation e p, b, s, t, h => by
    cases b with
    | obligation e' p' =>
      obtain ⟨he, hp, hst⟩ : KeySymbol.term e = .term e' ∧ KeySymbol.term p = .term p' ∧ s = t := by
        simpa [symbols] using h
      exact ⟨by rw [term_injective he, term_injective hp], hst⟩
    | projection | associatedItem | cycle => cases mark_injective (List.cons.inj h).1
  | .projection e p, b, s, t, h => by
    cases b with
    | projection e' p' =>
      obtain ⟨he, hp, hst⟩ : KeySymbol.term e = .term e' ∧ KeySymbol.term p = .term p' ∧ s = t := by
        simpa [symbols] using h
      exact ⟨by rw [term_injective he, term_injective hp], hst⟩
    | obligation | associatedItem | cycle => cases mark_injective (List.cons.inj h).1
  | .associatedItem r i j, b, s, t, h => by
    cases b with
    | associatedItem r' i' j' =>
      obtain ⟨hr, hi, hj, hst⟩ : KeySymbol.term r = .term r' ∧ KeySymbol.mono i = .mono i' ∧
          KeySymbol.mono j = .mono j' ∧ s = t := by
        simpa [symbols] using h
      exact ⟨by rw [term_injective hr, mono_injective hi, mono_injective hj], hst⟩
    | obligation | projection | cycle => cases mark_injective (List.cons.inj h).1
  | .cycle ms c, b, s, t, h => by
    cases b with
    | cycle ms' c' =>
      rw [symbols, symbols, cons_append, cons_append, append_assoc, append_assoc] at h
      obtain ⟨hms, hrest⟩ := memberSymbols_readable ms ms' _ _ (List.cons.inj h).2
      obtain ⟨hc, hst⟩ := List.cons.inj hrest
      exact ⟨by rw [hms, toNat_injective (mark_injective hc)], hst⟩
    | obligation | projection | associatedItem => cases mark_injective (List.cons.inj h).1

theorem memberSymbols_readable : ∀ (as bs : List ProofKey) (s t : List KeySymbol),
    memberSymbols as ++ s = memberSymbols bs ++ t → as = bs ∧ s = t
  | [], bs, s, t, h => by
    cases bs with
    | nil => exact ⟨rfl, (List.cons.inj h).2⟩
    | cons b bs =>
      obtain ⟨rest, hrest⟩ := b.symbols_eq_cons
      rw [memberSymbols, memberSymbols, hrest] at h
      exact absurd (mark_injective (List.cons.inj h).1) b.variant_pos.ne
  | a :: as, bs, s, t, h => by
    cases bs with
    | nil =>
      obtain ⟨rest, hrest⟩ := a.symbols_eq_cons
      rw [memberSymbols, memberSymbols, hrest] at h
      exact absurd (mark_injective (List.cons.inj h).1) a.variant_pos.ne'
    | cons b bs =>
      rw [memberSymbols, memberSymbols, append_assoc, append_assoc] at h
      obtain ⟨hab, hrest⟩ := symbols_readable a b _ _ h
      obtain ⟨hmembers, hst⟩ := memberSymbols_readable as bs _ _ hrest
      exact ⟨by rw [hab, hmembers], hst⟩

end

theorem symbols_injective : Function.Injective symbols := fun a b h =>
  (symbols_readable a b [] [] (by rw [h])).1

/-- Keys are compared by their variants, then field by field; a list of members is compared member
by member, and is below the lists that it begins. -/
instance : LinearOrder ProofKey := LinearOrder.lift' symbols symbols_injective

end ProofKey

end ItemDependencies
