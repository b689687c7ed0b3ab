import ItemDependencies.Graph.Basic
import ItemDependencies.Library.PrefixCode
import ItemDependencies.Source.Utf8

/-!
# Definition references in compiler terms

A compiler term refers to a definition by the bytes of its key.  The key is a counted list of parts,
each with its kind, its origin, its name and its ordinal, and the origins differ in what they emit.
Nothing separates the fields, but the bytes can be read back in one way only.
-/

namespace ItemDependencies

open Library List

/-! ## Emitting -/

def emitU8 (value : Nat) : List UInt8 := [UInt8.ofNat value]

def emitU32 (value : Nat) : List UInt8 := leBytes 4 value

def emitU64 (value : Nat) : List UInt8 := leBytes 8 value

/-- A number that no 64 bits hold is rejected, and one byte stands for it. -/
def emitUsize (value : Nat) : List UInt8 :=
  if value < u64Size then emitU64 value else [0xff]

/-- The position of a kind in the declaration order. -/
def DefinitionKind.rank (kind : DefinitionKind) : Nat := kind.ctorIdx

def generatedRoleTag : GeneratedRole → Nat
  | .anonymousAssociatedType => 0
  | .anonymousConst => 1
  | .coroutine => 2
  | .coroutineBody => 3
  | .coroutineClosure => 4
  | .elidedLifetime => 5
  | .nestedStatic => 6
  | .opaqueLifetime => 7
  | .opaqueType => 8

def injectedRoleTag : InjectedRole → Nat
  | .externCrate => 0
  | .preludeImport => 1

def encodeGeneratedRole : Option GeneratedRole → List UInt8
  | some role => emitU8 1 ++ emitU8 (generatedRoleTag role)
  | none => emitU8 0

def encodeOrigin : DefinitionOriginKey → List UInt8
  | .written anchor unitKind =>
    emitU8 0 ++ (emitU32 anchor.start ++ (emitU32 anchor.stop ++ emitU8 unitKind.rank))
  | .expanded invocationRange generatedRole =>
    emitU8 1 ++ (emitU32 invocationRange.start ++ (emitU32 invocationRange.stop ++
      encodeGeneratedRole generatedRole))
  | .compilerGenerated role => emitU8 2 ++ emitU8 (generatedRoleTag role)
  | .injected role => emitU8 3 ++ emitU8 (injectedRoleTag role)

section Encode

-- how the serializer of the compiler emits a string and an optional string
variable (emitStr : String → List UInt8) (encodeName : Option String → List UInt8)

def encodeDefinitionKeyPart (part : DefinitionKeyPart) : List UInt8 :=
  emitU8 part.kind.rank ++ (encodeOrigin part.origin ++ (encodeName part.name ++
    emitU32 part.sameRoleOrdinal))

def encodeDefinitionKey (key : DefinitionKey) : List UInt8 :=
  emitUsize key.parts.length ++ key.parts.flatMap (encodeDefinitionKeyPart encodeName)

def encodeExternalDefinitionKey (key : ExternalDefinitionKey) : List UInt8 :=
  emitU64 key.crateIdentity ++ (emitStr key.crateName ++ key.defPathHash)

def encodeDefinitionReference : DefinitionReferenceKey → List UInt8
  | .localKey key => emitU8 0 ++ encodeDefinitionKey encodeName key
  | .externalKey key => emitU8 1 ++ encodeExternalDefinitionKey emitStr key

end Encode

/-! ## What the types of the source hold -/

/-- The length of a text is a number of the machine. -/
def TextFits (text : String) : Prop := (utf8Bytes text.toList).length < u64Size

def NameFits (name : Option String) : Prop := ∀ text ∈ name, TextFits text

def ByteRange.Fits (range : ByteRange) : Prop := range.start < u32Size ∧ range.stop < u32Size

def DefinitionOriginKey.Fits : DefinitionOriginKey → Prop
  | .written anchor _ => anchor.Fits
  | .expanded invocationRange _ => invocationRange.Fits
  | .compilerGenerated _ | .injected _ => True

def DefinitionKeyPart.Fits (part : DefinitionKeyPart) : Prop :=
  part.origin.Fits ∧ NameFits part.name ∧ part.sameRoleOrdinal < u32Size

def DefinitionKey.Fits (key : DefinitionKey) : Prop :=
  (∀ part ∈ key.parts, part.Fits) ∧ key.parts.length < u64Size

def ExternalDefinitionKey.Fits (key : ExternalDefinitionKey) : Prop :=
  key.crateIdentity < u64Size ∧ TextFits key.crateName ∧ key.defPathHash.length = 16

def DefinitionReferenceKey.Fits : DefinitionReferenceKey → Prop
  | .localKey key => key.Fits
  | .externalKey key => key.Fits

/-! ## Reading -/

theorem readable_emitU8 : Readable (· < 256) emitU8 :=
  .fixed (fun _ _ => rfl) fun a b ha hb h => by
    have hbyte := congrArg UInt8.toNat (singleton_inj.mp h)
    rwa [UInt8.toNat_ofNat', UInt8.toNat_ofNat', Nat.mod_eq_of_lt ha, Nat.mod_eq_of_lt hb] at hbyte

theorem readable_emitU32 : Readable (· < u32Size) emitU32 := readable_leBytes 4

theorem readable_emitU64 : Readable (· < u64Size) emitU64 := readable_leBytes 8

theorem readable_emitUsize : Readable (· < u64Size) emitUsize := by
  intro a b s t ha hb h
  rw [emitUsize, emitUsize, if_pos ha, if_pos hb] at h
  exact readable_emitU64 a b s t ha hb h

/-- An enumeration is read through its tags. -/
theorem readable_tag {α : Type} {tag : α → Nat} (hlt : ∀ a, tag a < 256)
    (hinjective : Function.Injective tag) : Readable (fun _ : α => True) fun a => emitU8 (tag a) :=
  readable_emitU8.map (fun a _ => hlt a) fun _ _ _ _ h => hinjective h

theorem DefinitionKind.rank_injective : Function.Injective DefinitionKind.rank := fun a b h => by
  have hidx : a.ctorIdx = b.ctorIdx := h
  rw [← DefinitionKind.ofNat_ctorIdx a, hidx, DefinitionKind.ofNat_ctorIdx]

theorem readable_kind : Readable (fun _ : DefinitionKind => True) fun kind => emitU8 kind.rank :=
  readable_tag (fun kind => by cases kind <;> decide) DefinitionKind.rank_injective

theorem readable_unitKind :
    Readable (fun _ : WrittenUnitKind => True) fun kind => emitU8 kind.rank :=
  readable_tag (fun kind => by cases kind <;> decide) fun a b h => by
    cases a <;> cases b <;> first | rfl | cases h

theorem readable_generatedRoleTag :
    Readable (fun _ : GeneratedRole => True) fun role => emitU8 (generatedRoleTag role) :=
  readable_tag (fun role => by cases role <;> decide) fun a b h => by
    cases a <;> cases b <;> first | rfl | cases h

theorem readable_injectedRoleTag :
    Readable (fun _ : InjectedRole => True) fun role => emitU8 (injectedRoleTag role) :=
  readable_tag (fun role => by cases role <;> decide) fun a b h => by
    cases a <;> cases b <;> first | rfl | cases h

theorem readable_encodeGeneratedRole :
    Readable (fun _ : Option GeneratedRole => True) encodeGeneratedRole := by
  intro a b s t _ _ h
  cases a with
  | none =>
    cases b with
    | none => exact ⟨rfl, (List.cons.inj h).2⟩
    | some role => cases (List.cons.inj h).1
  | some role =>
    cases b with
    | none => cases (List.cons.inj h).1
    | some role' =>
      obtain ⟨rfl, hst⟩ := readable_generatedRoleTag role role' s t trivial trivial
        (List.cons.inj h).2
      exact ⟨rfl, hst⟩

/-- A range, and then what follows it in its origin. -/
theorem readable_rangeAnd {α : Type} {p : α → Prop} {emit : α → List UInt8}
    (h : Readable p emit) : Readable (fun pair : ByteRange × α => pair.1.Fits ∧ p pair.2)
      fun pair => emitU32 pair.1.start ++ (emitU32 pair.1.stop ++ emit pair.2) := by
  refine .after readable_emitU32 (fun pair hpair => hpair.1.1) fun start => ?_
  refine .after readable_emitU32 (fun pair hpair => hpair.1.1.2) fun stop => ?_
  refine h.map (fun pair hpair => hpair.1.1.2) fun a b ha hb heq => ?_
  obtain ⟨⟨_, _⟩, _⟩ := a
  obtain ⟨⟨_, _⟩, _⟩ := b
  obtain ⟨⟨-, rfl⟩, rfl⟩ := ha
  obtain ⟨⟨-, rfl⟩, rfl⟩ := hb
  cases heq
  rfl

theorem readable_encodeOrigin : Readable DefinitionOriginKey.Fits encodeOrigin := by
  intro a b s t ha hb h
  -- the first byte tells the four kinds of origins apart
  cases a with
  | written anchor unitKind =>
    cases b with
    | written anchor' unitKind' =>
      obtain ⟨hpair, hst⟩ := readable_rangeAnd readable_unitKind (anchor, unitKind)
        (anchor', unitKind') s t ⟨ha, trivial⟩ ⟨hb, trivial⟩ (List.cons.inj h).2
      cases hpair
      exact ⟨rfl, hst⟩
    | _ => exact absurd (List.cons.inj h).1 (by decide)
  | expanded range role =>
    cases b with
    | expanded range' role' =>
      obtain ⟨hpair, hst⟩ := readable_rangeAnd readable_encodeGeneratedRole (range, role)
        (range', role') s t ⟨ha, trivial⟩ ⟨hb, trivial⟩ (List.cons.inj h).2
      cases hpair
      exact ⟨rfl, hst⟩
    | _ => exact absurd (List.cons.inj h).1 (by decide)
  | compilerGenerated role =>
    cases b with
    | compilerGenerated role' =>
      obtain ⟨rfl, hst⟩ := readable_generatedRoleTag role role' s t trivial trivial
        (List.cons.inj h).2
      exact ⟨rfl, hst⟩
    | _ => exact absurd (List.cons.inj h).1 (by decide)
  | injected role =>
    cases b with
    | injected role' =>
      obtain ⟨rfl, hst⟩ := readable_injectedRoleTag role role' s t trivial trivial
        (List.cons.inj h).2
      exact ⟨rfl, hst⟩
    | _ => exact absurd (List.cons.inj h).1 (by decide)

section Keys

variable {emitStr : String → List UInt8} {encodeName : Option String → List UInt8}

theorem readable_encodeDefinitionKeyPart (hname : Readable NameFits encodeName) :
    Readable DefinitionKeyPart.Fits (encodeDefinitionKeyPart encodeName) := by
  refine .after readable_kind (fun _ _ => trivial) fun kind => ?_
  refine .after readable_encodeOrigin (fun part hpart => hpart.1.1) fun origin => ?_
  refine .after hname (fun part hpart => hpart.1.1.2.1) fun name => ?_
  refine readable_emitU32.map (fun part hpart => hpart.1.1.1.2.2) fun a b ha hb heq => ?_
  cases a
  cases b
  obtain ⟨⟨⟨-, rfl⟩, rfl⟩, rfl⟩ := ha
  obtain ⟨⟨⟨-, hkind⟩, horigin⟩, hname⟩ := hb
  cases hkind
  cases horigin
  cases hname
  cases heq
  rfl

theorem readable_encodeDefinitionKey (hname : Readable NameFits encodeName) :
    Readable DefinitionKey.Fits (encodeDefinitionKey encodeName) := by
  refine .after readable_emitUsize (fun key hkey => hkey.2) fun count => ?_
  refine ((readable_encodeDefinitionKeyPart hname).flatMap count).map
    (fun key hkey => ⟨hkey.1.1, hkey.2⟩) fun a b _ _ heq => ?_
  cases a
  cases heq
  rfl

theorem readable_encodeExternalDefinitionKey (hstr : Readable TextFits emitStr) :
    Readable ExternalDefinitionKey.Fits (encodeExternalDefinitionKey emitStr) := by
  refine .after readable_emitU64 (fun key hkey => hkey.1) fun identity => ?_
  refine .after hstr (fun key hkey => hkey.1.2.1) fun name => ?_
  refine .fixed (fun key hkey => hkey.1.1.2.2) fun a b ha hb heq => ?_
  cases a
  cases b
  obtain ⟨⟨-, rfl⟩, rfl⟩ := ha
  obtain ⟨⟨-, hidentity⟩, hname⟩ := hb
  cases hidentity
  cases hname
  cases heq
  rfl

end Keys

/-- If the serializer emits strings so that they can be read, the bytes of a definition reference
can be read: two references with whatever follows them give the same bytes only if both agree. -/
theorem encodeDefinitionReference_readable (emitStr : String → List UInt8)
    (encodeName : Option String → List UInt8)
    (hstr : ∀ a b s t, TextFits a → TextFits b → emitStr a ++ s = emitStr b ++ t → a = b ∧ s = t)
    (hname : ∀ a b s t, NameFits a → NameFits b → encodeName a ++ s = encodeName b ++ t →
      a = b ∧ s = t)
    (a b : DefinitionReferenceKey) (ha : a.Fits) (hb : b.Fits) (s t : List UInt8)
    (h : encodeDefinitionReference emitStr encodeName a ++ s =
      encodeDefinitionReference emitStr encodeName b ++ t) : a = b ∧ s = t := by
  cases a with
  | localKey key =>
    cases b with
    | localKey key' =>
      obtain ⟨rfl, hst⟩ := readable_encodeDefinitionKey hname key key' s t ha hb (List.cons.inj h).2
      exact ⟨rfl, hst⟩
    | externalKey key' => exact absurd (List.cons.inj h).1 (by decide)
  | externalKey key =>
    cases b with
    | localKey key' => exact absurd (List.cons.inj h).1 (by decide)
    | externalKey key' =>
      obtain ⟨rfl, hst⟩ := readable_encodeExternalDefinitionKey hstr key key' s t ha hb
        (List.cons.inj h).2
      exact ⟨rfl, hst⟩

/-! ## A serializer -/

/-- The length, the bytes and a byte that no text contains. -/
def serializedStr (text : String) : List UInt8 :=
  emitUsize (utf8Bytes text.toList).length ++ (utf8Bytes text.toList ++ [0xc1])

def serializedName : Option String → List UInt8
  | none => emitU8 0
  | some text => emitU8 1 ++ serializedStr text

theorem readable_serializedStr : Readable TextFits serializedStr := by
  refine .after readable_emitUsize (fun text htext => htext) fun length => ?_
  refine .fixed (n := length + 1) (fun text htext => ?_) fun a b _ _ heq => ?_
  · rw [length_append, htext.2]
    rfl
  · exact String.toList_inj.mp (utf8Bytes_injective (append_cancel_right heq))

theorem readable_serializedName : Readable NameFits serializedName := by
  intro a b s t ha hb h
  cases a with
  | none =>
    cases b with
    | none => exact ⟨rfl, (List.cons.inj h).2⟩
    | some text => exact absurd (List.cons.inj h).1 (by decide)
  | some text =>
    cases b with
    | none => exact absurd (List.cons.inj h).1 (by decide)
    | some text' =>
      obtain ⟨rfl, hst⟩ := readable_serializedStr text text' s t (ha text rfl) (hb text' rfl)
        (List.cons.inj h).2
      exact ⟨rfl, hst⟩

/-- A function that is named `f`, in a crate without a name. -/
def namedFunction : DefinitionReferenceKey :=
  .localKey ⟨[⟨.crateRoot, .written ⟨0, 9⟩ .crateRoot, none, 0⟩,
    ⟨.function, .written ⟨0, 8⟩ .item, some "f", 0⟩]⟩

theorem namedFunction_fits : namedFunction.Fits := by
  refine ⟨fun part hpart => ?_, by decide⟩
  rcases mem_cons.mp hpart with rfl | hpart
  · exact ⟨⟨by decide, by decide⟩, fun text h => (by cases h), by decide⟩
  · cases mem_singleton.mp hpart
    refine ⟨⟨by decide, by decide⟩, fun text h => ?_, by decide⟩
    cases h
    exact (by decide : (utf8Bytes "f".toList).length < u64Size)

theorem encodeDefinitionReference_readable_function :
    encodeDefinitionReference serializedStr serializedName namedFunction ++ [7] =
        encodeDefinitionReference serializedStr serializedName namedFunction ++ [7] ∧
      namedFunction = namedFunction ∧ ([7] : List UInt8) = [7] :=
  ⟨rfl, encodeDefinitionReference_readable serializedStr serializedName readable_serializedStr
    readable_serializedName namedFunction namedFunction namedFunction_fits namedFunction_fits
    [7] [7] rfl⟩

end ItemDependencies
