import ItemDependencies.Graph.EdgeGroups
import ItemDependencies.Library.LeastWalks
import ItemDependencies.Selection.ProofKeys

/-!
# Keys of allocations

An allocation has no name of its own.  It is identified by an item that refers to it, through other
allocations or not, and by the steps from this item to the allocation.
-/

namespace ItemDependencies

open Library

/-! ## The order of keys -/

def AllocationPathSite.rank : AllocationPathSite → Nat ×ₗ WithBot ByteRange
  | source range => toLex (0, some range)
  | externalSource => toLex (1, none)
  | allocationReference => toLex (2, none)
  | compilerGenerated => toLex (3, none)

theorem AllocationPathSite.rank_injective : Function.Injective AllocationPathSite.rank := by
  intro a b h
  obtain ⟨hvariant, hrange⟩ := Prod.mk.inj (toLex.injective h)
  cases a <;> cases b <;> cases hvariant
  case source.source => cases hrange; rfl
  all_goals rfl

instance : LinearOrder AllocationPathSite :=
  LinearOrder.lift' AllocationPathSite.rank AllocationPathSite.rank_injective

def AllocationPathPart.rank (part : AllocationPathPart) :
    MonoDependencyKind ×ₗ MonoCollection ×ₗ AllocationPathSite ×ₗ Nat :=
  toLex (part.relation, toLex (part.collection, toLex (part.site, part.sameRoleOrdinal)))

theorem AllocationPathPart.rank_injective : Function.Injective AllocationPathPart.rank := by
  intro a b h
  obtain ⟨hrelation, h⟩ := Prod.mk.inj (toLex.injective h)
  obtain ⟨hcollection, h⟩ := Prod.mk.inj (toLex.injective h)
  obtain ⟨hsite, hordinal⟩ := Prod.mk.inj (toLex.injective h)
  cases a
  cases b
  cases hrelation
  cases hcollection
  cases hsite
  cases hordinal
  rfl

instance : LinearOrder AllocationPathPart :=
  LinearOrder.lift' AllocationPathPart.rank AllocationPathPart.rank_injective

def MonoInstanceRole.rank : MonoInstanceRole → Nat ×ₗ WithBot Nat
  | callable => toLex (0, none)
  | const promoted => toLex (1, promoted)

theorem MonoInstanceRole.rank_injective : Function.Injective MonoInstanceRole.rank := by
  intro a b h
  obtain ⟨hvariant, hpromoted⟩ := Prod.mk.inj (toLex.injective h)
  cases a <;> cases b <;> cases hvariant
  case const.const => cases hpromoted; rfl
  all_goals rfl

abbrev RootRank := (InstanceRank ×ₗ Nat ×ₗ WithBot Nat) ⊕ₗ List DefinitionPartRank ⊕ₗ
  TermRank ×ₗ WithBot TermRank

def AllocationRootKey.rank : AllocationRootKey → RootRank
  | .instance key role => toLex (.inl (toLex (key.rank, role.rank)))
  | static definition => toLex (.inr (toLex (.inl definition.rank)))
  | vTable concreteType traitReference => toLex (.inr (toLex (.inr
      (toLex (concreteType.rank, traitReference.map CanonicalCompilerTerm.rank)))))

theorem AllocationRootKey.rank_injective : Function.Injective AllocationRootKey.rank := by
  intro a b h
  replace h := toLex.injective h
  cases a <;> cases b
  case instance.instance =>
    obtain ⟨hkey, hrole⟩ := Prod.mk.inj (toLex.injective (Sum.inl.inj h))
    rw [MonoInstanceKey.rank_injective hkey, MonoInstanceRole.rank_injective hrole]
  case static.static =>
    rw [DefinitionKey.rank_injective (Sum.inl.inj (toLex.injective (Sum.inr.inj h)))]
  case vTable.vTable =>
    obtain ⟨htype, htrait⟩ :=
      Prod.mk.inj (toLex.injective (Sum.inr.inj (toLex.injective (Sum.inr.inj h))))
    rw [CanonicalCompilerTerm.rank_injective htype,
      Option.map_injective CanonicalCompilerTerm.rank_injective htrait]
  case static.vTable | vTable.static => cases toLex.injective (Sum.inr.inj h)
  all_goals cases h

instance : LinearOrder AllocationRootKey :=
  LinearOrder.lift' AllocationRootKey.rank AllocationRootKey.rank_injective

namespace AllocationKey

/-- The root, then the path. -/
def walkKey (key : AllocationKey) : WalkKey AllocationRootKey AllocationPathPart :=
  toLex (key.root, key.path)

theorem walkKey_injective : Function.Injective walkKey := by
  rintro ⟨_, _⟩ ⟨_, _⟩ h
  cases h
  rfl

instance : LinearOrder AllocationKey := LinearOrder.lift' walkKey walkKey_injective

theorem lt_iff_walkKey {a b : AllocationKey} : a < b ↔ a.walkKey < b.walkKey := Iff.rfl

end AllocationKey

end ItemDependencies
