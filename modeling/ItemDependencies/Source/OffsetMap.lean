import ItemDependencies.Library.Fallible
import ItemDependencies.Library.PartitionPoint
import ItemDependencies.Source.Utf8

/-!
# Original and normalized offsets

The compiler drops a leading byte-order mark and reads every CRLF as LF.  The
offset map translates positions of its text into positions of the original one.
A removed byte gives the position where it was two preimages, a left one and a
right one.
-/

namespace ItemDependencies

/-- So many bytes have been removed before and at a position of the normalized text. -/
structure NormalizationRecord where
  normalizedAt : Nat
  diff : Nat
deriving DecidableEq

structure OriginalOffsetMap where
  originalLen : Nat
  normalizedLen : Nat
  records : List NormalizationRecord
deriving DecidableEq

/-- What has been read of the original text. -/
structure Normalization where
  normalized : List UInt8
  diff : Nat
  records : List NormalizationRecord

namespace OriginalOffsetMap

/-- Go through the bytes that are left.  Here 13 and 10 are the codes of CR and LF. -/
def normalizeLoop : List UInt8 → Normalization → Except SourceError Normalization
  | [], found => return found
  | [byte], found => return { found with normalized := found.normalized ++ [byte] }
  | byte :: next :: rest, found =>
    if byte = 13 ∧ next = 10 then
      let normalized := found.normalized ++ [10]
      let diff := found.diff + 1
      if u32Size ≤ normalized.length then throw .sourceTooLarge
      else normalizeLoop rest ⟨normalized, diff, found.records ++ [⟨normalized.length, diff⟩]⟩
    else normalizeLoop (next :: rest) { found with normalized := found.normalized ++ [byte] }

/-- A leading byte-order mark is not part of the normalized text. -/
def normalizeBytes (bytes : List UInt8) : Except SourceError Normalization :=
  if byteOrderMark.isPrefixOf bytes then normalizeLoop (bytes.drop 3) ⟨[], 3, [⟨0, 3⟩]⟩
  else normalizeLoop bytes ⟨[], 0, []⟩

section

variable (map : OriginalOffsetMap)

/-- Binary search: the record at a position, or the place where it would have to be. -/
def search (normalized : Nat) : Except Nat Nat :=
  let index := (map.records.takeWhile fun record => record.normalizedAt < normalized).length
  if map.records[index]?.any fun record => record.normalizedAt = normalized then .ok index
  else .error index

def diffAt (index : Nat) : Nat := map.records[index]?.elim 0 NormalizationRecord.diff

def endpointDiff (normalized : Nat) (rightBias : Bool) : Nat :=
  match map.search normalized with
  | .ok index =>
    if rightBias then map.diffAt index
    else if index = 0 then 0 else map.diffAt (index - 1)
  | .error index => if index = 0 then 0 else map.diffAt (index - 1)

def mapEndpoint (normalized : Nat) (rightBias : Bool) : Except SourceError Nat :=
  if map.normalizedLen < normalized then throw .invalidSpan
  else
    let position := normalized + map.endpointDiff normalized rightBias
    if u32Size ≤ position ∨ map.originalLen < position then throw .invalidSpan
    else return position

def left (normalized : Nat) : Except SourceError Nat := map.mapEndpoint normalized false

def right (normalized : Nat) : Except SourceError Nat := map.mapEndpoint normalized true

/-- Subtraction that must not go below zero. -/
def checkedSub (original diff : Nat) : Except SourceError Nat :=
  if original < diff then throw .invalidSpan else return original - diff

/-- Go through the records that are left. -/
def scan (original : Nat) : Nat → List NormalizationRecord → Except SourceError Nat
  | previousDiff, [] => checkedSub original previousDiff
  | previousDiff, record :: records =>
    let removedStart := record.normalizedAt + previousDiff
    let removedEnd := record.normalizedAt + record.diff
    if original < removedStart then checkedSub original previousDiff
    else if original ≤ removedEnd then return record.normalizedAt
    else scan original record.diff records

def normalizedFromOriginal (original : Nat) : Except SourceError Nat :=
  if map.originalLen < original then throw .invalidSpan else scan original 0 map.records

/-- Check one record against the position and the difference of the previous one. -/
def validateRecord (previous : Nat × Nat) (entry : NormalizationRecord × Nat) :
    Except SourceError (Nat × Nat) :=
  let record := entry.1
  let index := entry.2
  if map.normalizedLen < record.normalizedAt ∨ record.diff ≤ previous.2 ∨
      (0 < index ∧ record.normalizedAt ≤ previous.1) ∨
      u32Size ≤ record.normalizedAt + record.diff ∨
      map.originalLen < record.normalizedAt + record.diff then throw .normalizationMismatch
  else do
    let left ← map.left record.normalizedAt
    let fromLeft ← map.normalizedFromOriginal left
    if fromLeft ≠ record.normalizedAt then throw .normalizationMismatch
    else
      let right ← map.right record.normalizedAt
      let fromRight ← map.normalizedFromOriginal right
      if fromRight ≠ record.normalizedAt then throw .normalizationMismatch
      else return (record.normalizedAt, record.diff)

def validate : Except SourceError Unit := do
  let _ ← map.records.zipIdx.foldlM map.validateRecord (0, 0)
  let last ← map.right map.normalizedLen
  if last ≠ map.originalLen then throw .normalizationMismatch
  else
    let normalized ← map.normalizedFromOriginal map.originalLen
    if normalized ≠ map.normalizedLen then throw .normalizationMismatch else return ()

end

def fromSource (source : List Char) : Except SourceError (List Char × OriginalOffsetMap) :=
  let bytes := utf8Bytes source
  if u32Size ≤ bytes.length ∨ bytes.length = u32Size - 1 then throw .sourceTooLarge
  else do
    let found ← normalizeBytes bytes
    match fromUtf8 found.normalized with
    | none => throw .normalizationMismatch
    | some normalized =>
      if u32Size ≤ utf8Len normalized then throw .sourceTooLarge
      else
        let map : OriginalOffsetMap := ⟨bytes.length, utf8Len normalized, found.records⟩
        map.validate
        return (normalized, map)

end OriginalOffsetMap

end ItemDependencies
