import ItemDependencies.Library.IntervalChain
import ItemDependencies.Source.OffsetMap

/-!
# Normalization records

The preimages of the normalized positions are consecutive intervals of original
positions, as long as positions and differences of the records both ascend.  The
binary search finds their ends, and the scan finds the interval of a position.
-/

namespace ItemDependencies

open Library List

/-- The difference at the last of the leading records whose positions have a property. -/
def diffWhile (p : Nat → Bool) : Nat → List NormalizationRecord → Nat
  | previousDiff, [] => previousDiff
  | previousDiff, record :: records =>
    if p record.normalizedAt then diffWhile p record.diff records else previousDiff

/-- The normalized position of an original one. -/
def normalizedPosition (original : Nat) : Nat → List NormalizationRecord → Nat
  | previousDiff, [] => original - previousDiff
  | previousDiff, record :: records =>
    if original < record.normalizedAt + previousDiff then original - previousDiff
    else if original ≤ record.normalizedAt + record.diff then record.normalizedAt
    else normalizedPosition original record.diff records

/-- Positions and differences ascend. -/
def RecordsAscend (records : List NormalizationRecord) : Prop :=
  records.Pairwise fun a b => a.normalizedAt < b.normalizedAt ∧ a.diff < b.diff

section

variable {p q : Nat → Bool} {previousDiff normalized original : Nat}
  {record : NormalizationRecord} {records : List NormalizationRecord}

theorem diffWhile_eq_getLast? : diffWhile p previousDiff records =
    ((records.takeWhile fun r => p r.normalizedAt).getLast?).elim previousDiff
      NormalizationRecord.diff := by
  induction records generalizing previousDiff with
  | nil => rfl
  | cons r records ih =>
    rw [diffWhile, takeWhile_cons]
    split
    · rw [ih]
      cases records.takeWhile fun r => p r.normalizedAt with
      | nil => rfl
      | cons first others =>
        have hlast : (first :: others).getLast? = some _ :=
          getLast?_eq_some_getLast (cons_ne_nil _ _)
        rw [getLast?_cons_cons, hlast]
        rfl
    · rfl

theorem diffWhile_eq_self (h : ∀ r ∈ records, p r.normalizedAt = false) :
    diffWhile p previousDiff records = previousDiff := by
  cases records with
  | nil => rfl
  | cons r records => simp [diffWhile, h r (by simp)]

theorem diffWhile_append (h : ∀ r ∈ records, p r.normalizedAt = true)
    {later : List NormalizationRecord} : diffWhile p previousDiff (records ++ later) =
      diffWhile p (diffWhile p previousDiff records) later := by
  induction records generalizing previousDiff with
  | nil => rfl
  | cons r records ih =>
    have hr := h r (by simp)
    rw [cons_append, diffWhile, diffWhile, if_pos hr, if_pos hr]
    exact ih fun r hr => h r (by simp [hr])

/-- Where the records end, the difference no longer changes. -/
theorem diffWhile_congr (hp : ∀ r ∈ records, p r.normalizedAt = q r.normalizedAt) :
    diffWhile p previousDiff records = diffWhile q previousDiff records := by
  induction records generalizing previousDiff with
  | nil => rfl
  | cons r records ih =>
    rw [diffWhile, diffWhile, hp r (by simp), ih fun r hr => hp r (by simp [hr])]

theorem le_diffWhile (h : RecordsAscend records) (hdiff : ∀ r ∈ records, previousDiff < r.diff) :
    previousDiff ≤ diffWhile p previousDiff records := by
  induction records generalizing previousDiff with
  | nil => exact le_rfl
  | cons r records ih =>
    obtain ⟨hr, h⟩ := pairwise_cons.mp h
    rw [diffWhile]
    split
    · exact (hdiff r (by simp)).le.trans (ih h fun s hs => (hr s hs).2)
    · exact le_rfl

theorem diffWhile_mono (hpq : ∀ n, p n = true → q n = true) (h : RecordsAscend records)
    (hdiff : ∀ r ∈ records, previousDiff < r.diff) :
    diffWhile p previousDiff records ≤ diffWhile q previousDiff records := by
  induction records generalizing previousDiff with
  | nil => exact le_rfl
  | cons r records ih =>
    obtain ⟨hr, h'⟩ := pairwise_cons.mp h
    by_cases hp : p r.normalizedAt = true
    · rw [diffWhile, diffWhile, if_pos hp, if_pos (hpq _ hp)]
      exact ih h' fun s hs => (hr s hs).2
    · rw [diffWhile, if_neg hp]
      exact le_diffWhile h hdiff

/-- At the position of a record, its own difference counts on the right. -/
theorem diffWhile_le_of_mem (h : RecordsAscend records) (hmem : record ∈ records) :
    diffWhile (· ≤ record.normalizedAt) previousDiff records = record.diff := by
  induction records generalizing previousDiff with
  | nil => cases hmem
  | cons r records ih =>
    obtain ⟨hr, h⟩ := pairwise_cons.mp h
    rcases mem_cons.mp hmem with rfl | hmem
    · rw [diffWhile, if_pos (by simp)]
      apply diffWhile_eq_self
      intro s hs
      simpa using (hr s hs).1
    · have hlt := (hr record hmem).1
      rw [diffWhile, if_pos (by simpa using hlt.le)]
      exact ih h hmem

/-- The left end of the preimage of a position. -/
def leftEnd (records : List NormalizationRecord) (normalized : Nat) : Nat :=
  normalized + diffWhile (· < normalized) 0 records

/-- The right end of the preimage of a position. -/
def rightEnd (records : List NormalizationRecord) (normalized : Nat) : Nat :=
  normalized + diffWhile (· ≤ normalized) 0 records

theorem intervalChain_ends (h : RecordsAscend records) (hdiff : ∀ r ∈ records, 0 < r.diff) :
    IntervalChain (leftEnd records) (rightEnd records) where
  zero := by
    rw [leftEnd, diffWhile_eq_self (by simp)]
  succ n := by
    have hcongr : diffWhile (· < n + 1) 0 records = diffWhile (· ≤ n) 0 records :=
      diffWhile_congr fun r _ => by simp [Nat.lt_succ_iff]
    rw [leftEnd, rightEnd, hcongr]
    omega
  le n := by
    have hmono : diffWhile (· < n) 0 records ≤ diffWhile (· ≤ n) 0 records :=
      diffWhile_mono (fun m hm => by simpa using (of_decide_eq_true hm).le) h hdiff
    rw [leftEnd, rightEnd]
    omega

/-! ## The binary search -/

/-- The right end differs from the left one only at the position of a record. -/
theorem diffWhile_le_eq (h : RecordsAscend records) :
    diffWhile (· ≤ normalized) previousDiff records =
      match records[(records.takeWhile fun r => r.normalizedAt < normalized).length]? with
      | some r => if r.normalizedAt = normalized then r.diff
        else diffWhile (· < normalized) previousDiff records
      | none => diffWhile (· < normalized) previousDiff records := by
  induction records generalizing previousDiff with
  | nil => rfl
  | cons r records ih =>
    obtain ⟨hr, h⟩ := pairwise_cons.mp h
    by_cases hlt : r.normalizedAt < normalized
    · rw [diffWhile, diffWhile, if_pos (by simpa using hlt.le), if_pos (by simpa using hlt),
        takeWhile_cons_of_pos (by simpa using hlt), ih h]
      rfl
    · rw [takeWhile_cons_of_neg (by simpa using hlt)]
      simp only [diffWhile, length_nil, getElem?_cons_zero, decide_eq_true_eq, if_neg hlt]
      by_cases heq : r.normalizedAt = normalized
      · rw [if_pos heq.le, if_pos heq]
        apply diffWhile_eq_self
        intro s hs
        have := (hr s hs).1
        simpa using (by omega : normalized < s.normalizedAt)
      · rw [if_neg (by omega), if_neg heq]

/-! ## The scan -/

theorem scan_eq_ok (hle : previousDiff ≤ original) :
    OriginalOffsetMap.scan original previousDiff records =
      .ok (normalizedPosition original previousDiff records) := by
  induction records generalizing previousDiff with
  | nil => exact if_neg (by omega)
  | cons r records ih =>
    rw [OriginalOffsetMap.scan, normalizedPosition]
    split
    · exact if_neg (by omega)
    · split
      · rfl
      · exact ih (by omega)

/-- The scan finds the preimage that a position lies in. -/
theorem normalizedPosition_mem (h : RecordsAscend records) (hle : previousDiff ≤ original)
    (hn : normalizedPosition original previousDiff records = normalized) :
    normalized + diffWhile (· < normalized) previousDiff records ≤ original ∧
      original ≤ normalized + diffWhile (· ≤ normalized) previousDiff records := by
  induction records generalizing previousDiff with
  | nil =>
    rw [normalizedPosition] at hn
    simp only [diffWhile]
    omega
  | cons r records ih =>
    obtain ⟨hr, h'⟩ := pairwise_cons.mp h
    rw [normalizedPosition] at hn
    split at hn
    case isTrue hlt =>
      -- before the removed bytes of the record
      have hbefore : ¬r.normalizedAt ≤ normalized := by omega
      simp only [diffWhile, decide_eq_true_eq]
      rw [if_neg hbefore, if_neg fun h => hbefore h.le]
      omega
    case isFalse hge =>
      split at hn
      case isTrue hinside =>
        subst hn
        rw [diffWhile_le_of_mem h (by simp)]
        simp only [diffWhile, decide_eq_true_eq, lt_irrefl, if_false]
        omega
      case isFalse hafter =>
        have hmem := ih h' (by omega) hn
        -- the preimage lies behind the record
        have hlt : r.normalizedAt < normalized := by
          by_contra hge
          have hself : diffWhile (· ≤ normalized) r.diff records = r.diff := by
            apply diffWhile_eq_self
            intro s hs
            have := (hr s hs).1
            simpa using (by omega : normalized < s.normalizedAt)
          rw [hself] at hmem
          omega
        simp only [diffWhile, decide_eq_true_eq, if_pos hlt, if_pos hlt.le]
        exact hmem

end

end ItemDependencies
