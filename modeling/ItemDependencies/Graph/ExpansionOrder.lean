import ItemDependencies.Graph.ExpansionKeys
import Mathlib.Data.String.Basic
import Mathlib.Data.Sum.Order

/-!
# The order of expansion keys

Keys are ordered part by part and parts field by field, variants in the order of their declaration
and a missing field before all others.  Each type is embedded into a product of orders.
-/

namespace ItemDependencies

open Option

/-! ## Keys of definitions -/

abbrev OriginRank := Nat ×ₗ WithBot ByteRange ×ₗ WithBot Nat

def DefinitionOriginKey.rank : DefinitionOriginKey → OriginRank
  | written anchor unitKind => toLex (0, toLex (some anchor, some unitKind.ctorIdx))
  | expanded invocationRange generatedRole =>
    toLex (1, toLex (some invocationRange, generatedRole.map GeneratedRole.ctorIdx))
  | compilerGenerated role => toLex (2, toLex (none, some role.ctorIdx))
  | injected role => toLex (3, toLex (none, some role.ctorIdx))

theorem DefinitionOriginKey.rank_injective : Function.Injective DefinitionOriginKey.rank := by
  intro a b h
  rcases a with ⟨r, k⟩ | ⟨r, g⟩ | g | g <;> rcases b with ⟨r', k'⟩ | ⟨r', g'⟩ | g' | g' <;>
    obtain ⟨hvariant, h⟩ := Prod.mk.inj (toLex.injective h) <;> cases hvariant <;>
    obtain ⟨hrange, hrole⟩ := Prod.mk.inj (toLex.injective h)
  · cases hrange
    cases Function.LeftInverse.injective WrittenUnitKind.ofNat_ctorIdx (Option.some.inj hrole)
    rfl
  · cases hrange
    cases map_injective (Function.LeftInverse.injective GeneratedRole.ofNat_ctorIdx) hrole
    rfl
  · cases Function.LeftInverse.injective GeneratedRole.ofNat_ctorIdx (Option.some.inj hrole)
    rfl
  · cases Function.LeftInverse.injective InjectedRole.ofNat_ctorIdx (Option.some.inj hrole)
    rfl

abbrev DefinitionPartRank := Nat ×ₗ OriginRank ×ₗ WithBot String ×ₗ Nat

def DefinitionKeyPart.rank (part : DefinitionKeyPart) : DefinitionPartRank :=
  toLex (part.kind.ctorIdx, toLex (part.origin.rank, toLex (part.name, part.sameRoleOrdinal)))

theorem DefinitionKeyPart.rank_injective : Function.Injective DefinitionKeyPart.rank := by
  intro a b h
  obtain ⟨hkind, h⟩ := Prod.mk.inj (toLex.injective h)
  obtain ⟨horigin, h⟩ := Prod.mk.inj (toLex.injective h)
  obtain ⟨hname, hordinal⟩ := Prod.mk.inj (toLex.injective h)
  cases a
  cases b
  cases Function.LeftInverse.injective DefinitionKind.ofNat_ctorIdx hkind
  cases DefinitionOriginKey.rank_injective horigin
  cases hname
  cases hordinal
  rfl

def DefinitionKey.rank (key : DefinitionKey) : List DefinitionPartRank :=
  key.parts.map DefinitionKeyPart.rank

theorem DefinitionKey.rank_injective : Function.Injective DefinitionKey.rank := by
  rintro ⟨_⟩ ⟨_⟩ h
  cases DefinitionKeyPart.rank_injective.list_map h
  rfl

abbrev ExternalRank := Nat ×ₗ String ×ₗ List Nat

def ExternalDefinitionKey.rank (key : ExternalDefinitionKey) : ExternalRank :=
  toLex (key.crateIdentity, toLex (key.crateName, key.defPathHash.map UInt8.toNat))

theorem ExternalDefinitionKey.rank_injective : Function.Injective ExternalDefinitionKey.rank := by
  intro a b h
  obtain ⟨hidentity, h⟩ := Prod.mk.inj (toLex.injective h)
  obtain ⟨hname, hhash⟩ := Prod.mk.inj (toLex.injective h)
  cases a
  cases b
  cases hidentity
  cases hname
  cases Function.Injective.list_map (fun x y => UInt8.toNat_inj.mp) hhash
  rfl

abbrev ReferenceRank := List DefinitionPartRank ⊕ₗ ExternalRank

def DefinitionReferenceKey.rank : DefinitionReferenceKey → ReferenceRank
  | localKey key => toLex (.inl key.rank)
  | externalKey key => toLex (.inr key.rank)

theorem DefinitionReferenceKey.rank_injective : Function.Injective DefinitionReferenceKey.rank := by
  intro a b h
  cases a with
  | localKey a =>
    cases b with
    | localKey b => rw [DefinitionKey.rank_injective (Sum.inl.inj (toLex.injective h))]
    | externalKey b => cases toLex.injective h
  | externalKey a =>
    cases b with
    | localKey b => cases toLex.injective h
    | externalKey b => rw [ExternalDefinitionKey.rank_injective (Sum.inr.inj (toLex.injective h))]

/-! ## Keys of expansions -/

def ExpansionKind.rank : ExpansionKind → Nat ×ₗ Nat ×ₗ String
  | macroCall style name => toLex (0, toLex (style.ctorIdx, name))
  | astPass kind => toLex (1, toLex (kind.ctorIdx, ""))
  | desugaring kind => toLex (2, toLex (kind.ctorIdx, ""))

theorem ExpansionKind.rank_injective : Function.Injective ExpansionKind.rank := by
  intro a b h
  rcases a with ⟨k, n⟩ | k | k <;> rcases b with ⟨k', n'⟩ | k' | k' <;>
    obtain ⟨hvariant, h⟩ := Prod.mk.inj (toLex.injective h) <;> cases hvariant <;>
    obtain ⟨hkind, hname⟩ := Prod.mk.inj (toLex.injective h)
  · cases Function.LeftInverse.injective MacroStyle.ofNat_ctorIdx hkind
    cases hname
    rfl
  · cases Function.LeftInverse.injective AstPassKind.ofNat_ctorIdx hkind
    rfl
  · cases Function.LeftInverse.injective DesugaringKind.ofNat_ctorIdx hkind
    rfl

abbrev ExpansionPartRank := (Nat ×ₗ Nat ×ₗ String) ×ₗ WithBot Nat ×ₗ WithBot Nat ×ₗ
  WithBot ByteRange ×ₗ WithBot ByteRange ×ₗ WithBot ByteRange ×ₗ WithBot ReferenceRank ×ₗ
  WithBot ByteRange ×ₗ Nat

def ExpansionKeyPart.rank (part : ExpansionKeyPart) : ExpansionPartRank :=
  toLex (part.kind.rank, toLex (part.fragment.map ExpansionFragmentKind.ctorIdx,
    toLex (part.implementation.map MacroImplementationKind.ctorIdx,
    toLex (part.invocationRange, toLex (part.nodeRange, toLex (part.targetRange,
    toLex (part.macroDefinition.map DefinitionReferenceKey.rank,
    toLex (part.selectedMacroRule, part.sameRoleOrdinal))))))))

theorem ExpansionKeyPart.rank_injective : Function.Injective ExpansionKeyPart.rank := by
  intro a b h
  obtain ⟨hkind, h⟩ := Prod.mk.inj (toLex.injective h)
  obtain ⟨hfragment, h⟩ := Prod.mk.inj (toLex.injective h)
  obtain ⟨himplementation, h⟩ := Prod.mk.inj (toLex.injective h)
  obtain ⟨hinvocation, h⟩ := Prod.mk.inj (toLex.injective h)
  obtain ⟨hnode, h⟩ := Prod.mk.inj (toLex.injective h)
  obtain ⟨htarget, h⟩ := Prod.mk.inj (toLex.injective h)
  obtain ⟨hdefinition, h⟩ := Prod.mk.inj (toLex.injective h)
  obtain ⟨hrule, hordinal⟩ := Prod.mk.inj (toLex.injective h)
  cases a
  cases b
  cases ExpansionKind.rank_injective hkind
  cases map_injective (Function.LeftInverse.injective ExpansionFragmentKind.ofNat_ctorIdx) hfragment
  cases map_injective (Function.LeftInverse.injective MacroImplementationKind.ofNat_ctorIdx)
    himplementation
  cases hinvocation
  cases hnode
  cases htarget
  cases map_injective DefinitionReferenceKey.rank_injective hdefinition
  cases hrule
  cases hordinal
  rfl

instance : LinearOrder ExpansionKeyPart :=
  LinearOrder.lift' ExpansionKeyPart.rank ExpansionKeyPart.rank_injective

instance : LinearOrder ExpansionKey :=
  LinearOrder.lift' ExpansionKey.parts fun a b h => by
    cases a
    cases b
    simpa using h

end ItemDependencies
