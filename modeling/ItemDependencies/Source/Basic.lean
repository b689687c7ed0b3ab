import Mathlib.Data.Prod.Lex

/-!
# The source inventory

The written units of one source file, with their byte ranges, their parents and
their atomic groups, and the facts about derives and declarative macros that
were refined from the compiler.  Positions are byte offsets into the original
text.
-/

namespace ItemDependencies

/-- Number of values of a 32-bit counter. -/
def u32Size : Nat := 4294967296

/-- Number of values of a 64-bit counter, and of a machine word. -/
def u64Size : Nat := u32Size * u32Size

/-- A half-open range of bytes. -/
structure ByteRange where
  start : Nat
  stop : Nat

namespace ByteRange

/-- Ranges are compared by their start, then by their end. -/
instance : LinearOrder ByteRange :=
  LinearOrder.lift' (fun r => toLex (r.start, r.stop)) fun a b h => by
    cases a
    cases b
    simpa using h

def contains (r other : ByteRange) : Bool := r.start ≤ other.start && other.stop ≤ r.stop

def len (r : ByteRange) : Nat := r.stop - r.start

def isEmpty (r : ByteRange) : Bool := r.start == r.stop

theorem eq_of_bounds {r s : ByteRange} (hstart : r.start = s.start) (hstop : r.stop = s.stop) :
    r = s := by
  cases r
  cases s
  cases hstart
  cases hstop
  rfl

theorem contains_iff {r s : ByteRange} :
    r.contains s = true ↔ r.start ≤ s.start ∧ s.stop ≤ r.stop := by
  simp [contains]

theorem contains_trans {r s t : ByteRange} (h : r.contains s = true)
    (h' : s.contains t = true) : r.contains t = true := by
  rw [contains_iff] at *
  omega

end ByteRange

/-- Dense number of a written unit. -/
structure SourceUnitId where
  index : Nat

instance : LinearOrder SourceUnitId :=
  LinearOrder.lift' SourceUnitId.index fun a b h => by
    cases a
    cases b
    simpa using h

/-- Number of an atomic group: its units are kept or deleted together. -/
structure AtomicGroupId where
  index : Nat

instance : LinearOrder AtomicGroupId :=
  LinearOrder.lift' AtomicGroupId.index fun a b h => by
    cases a
    cases b
    simpa using h

inductive CfgState where
  | active
  | inactive
deriving DecidableEq

inductive WrittenUnitKind where
  | crateRoot
  | inlineModule
  | item
  | traitMember
  | implMember
  | useItem
  | useLeaf
  | macroDefinition
  | macroInvocation
  | nestedItem
  | macroRule
  | noEffectCfgAttr
  | inactiveCfgComponent
deriving DecidableEq, Ord

/-- Position of a kind in the declaration order. -/
def WrittenUnitKind.rank : WrittenUnitKind → Nat
  | .crateRoot => 0
  | .inlineModule => 1
  | .item => 2
  | .traitMember => 3
  | .implMember => 4
  | .useItem => 5
  | .useLeaf => 6
  | .macroDefinition => 7
  | .macroInvocation => 8
  | .nestedItem => 9
  | .macroRule => 10
  | .noEffectCfgAttr => 11
  | .inactiveCfgComponent => 12

inductive DeclarativeSourceUnitKind where
  | templateComponent
  | matcherElement
deriving DecidableEq, Ord

inductive SourceUnitIdentityKind where
  | written (kind : WrittenUnitKind)
  | declarative (kind : DeclarativeSourceUnitKind)
deriving DecidableEq, Ord

/-- A written component shared by the tokens of a generated macro product. -/
structure MacroProductSource where
  kind : SourceUnitIdentityKind
  range : ByteRange
deriving DecidableEq, Ord

/-- One unit of written source. -/
structure WrittenUnit where
  id : SourceUnitId
  kind : WrittenUnitKind
  fullRange : ByteRange
  parent : Option SourceUnitId
  cfgState : CfgState
  atomicGroup : AtomicGroupId
  sameRoleOrdinal : Nat
deriving DecidableEq

/-- A derive influences another written unit. -/
structure DeriveSourceRequirement where
  trigger : SourceUnitId
  required : SourceUnitId
deriving DecidableEq

/-- A helper attribute and the derive that provides it. -/
structure DeriveHelperSourceFacts where
  attr : SourceUnitId
  provider : SourceUnitId
deriving DecidableEq

structure DeriveAttributeSourceFacts where
  attr : SourceUnitId
  elements : List SourceUnitId
  directlyWritten : Bool
deriving DecidableEq

inductive DeriveTargetSourceFacts where
  | opaqueTarget (target : SourceUnitId) (attributes : List DeriveAttributeSourceFacts)
      (helperCandidates : List ByteRange)
  | complete (target : SourceUnitId) (attributes : List DeriveAttributeSourceFacts)
      (helperCandidates : List ByteRange) (influences : List DeriveSourceRequirement)
      (helpers : List DeriveHelperSourceFacts)
deriving DecidableEq

/-- A macro definition is kept whole, or rule by rule. -/
inductive MacroRuleSourceFacts where
  | whole (definition : SourceUnitId)
  | refined (definition : SourceUnitId) (rules observedSelections : List SourceUnitId)
deriving DecidableEq

structure MacroTemplateSourceFacts where
  unit : SourceUnitId
  rule : SourceUnitId
deriving DecidableEq

structure MacroCaptureInputSourceFacts where
  invocation : SourceUnitId
  captureRange : ByteRange
  deletionRange : ByteRange
deriving DecidableEq

/-- A slot of a macro rule's matcher that can be deleted together with its inputs. -/
structure MacroCaptureSlotSourceFacts where
  unit : SourceUnitId
  rule : SourceUnitId
  matcherCaptureRange : ByteRange
  triggerUnits : List SourceUnitId
  inputs : List MacroCaptureInputSourceFacts
deriving DecidableEq

structure MacroRepetitionElementSourceFacts where
  unit : SourceUnitId
  separatorAfter : Option ByteRange
deriving DecidableEq

/-- The input elements that one invocation gives to one repetition of a matcher. -/
structure MacroRepetitionSourceFacts where
  invocation : SourceUnitId
  rule : SourceUnitId
  matcherRange : ByteRange
  parent : SourceUnitId
  repetitionPath : List Nat
  inputRange : ByteRange
  elements : List MacroRepetitionElementSourceFacts
  minimum : Nat
  maximum : Option Nat
deriving DecidableEq

/-- Number of bytes of a text in UTF-8. -/
def utf8Len (text : List Char) : Nat := text.foldr (fun c n => c.utf8Size + n) 0

inductive PieceKind where
  | token
  | trivia
deriving DecidableEq

/-- A piece of the text, and the unit that it is deleted with. -/
structure OwnedPiece where
  range : ByteRange
  owner : SourceUnitId
  kind : PieceKind
deriving DecidableEq

/-- The written units of a source text and the facts about them. -/
structure SourceInventory where
  original : List Char
  units : List WrittenUnit
  pieces : List OwnedPiece
  deriveTargets : List DeriveTargetSourceFacts
  macroRules : List MacroRuleSourceFacts
  macroTemplates : List MacroTemplateSourceFacts
  macroCaptureSlots : List MacroCaptureSlotSourceFacts
  macroRepetitions : List MacroRepetitionSourceFacts
  ownerlessAttributeInvocations : List SourceUnitId
deriving DecidableEq

inductive SourceError where
  | sourceTooLarge
  | normalizationMismatch
  | invalidSpan
  | invalidInventory
  | incompleteAttributeObservation
  | incompleteDeriveObservation
  | incompleteMacroRuleObservation
  | incompleteDeclarativeMacroObservation
  | incompleteProceduralMacroObservation
deriving DecidableEq

end ItemDependencies
