import ItemDependencies.Source.OffsetRecords

/-!
# The offset map of a source text

The map that is read off a text passes its own validation, and its endpoint maps
are the two adjoints of the way back.
-/

namespace ItemDependencies

open Library List

/-! ## The normalized text -/

/-- Every pair of `first` and `second` becomes `second` alone. -/
def collapsePairs {α : Type} [DecidableEq α] (first second : α) : List α → List α
  | [] => []
  | [a] => [a]
  | a :: b :: rest =>
    if a = first ∧ b = second then b :: collapsePairs first second rest
    else a :: collapsePairs first second (b :: rest)

/-- A text without its leading byte-order mark. -/
def withoutMark (source : List Char) : List Char :=
  if source.head? = some '\uFEFF' then source.tail else source

/-- The text that the compiler reads: no leading byte-order mark, and LF for each CRLF. -/
def normalizedText (source : List Char) : List Char :=
  collapsePairs '\r' '\n' (withoutMark source)

theorem collapsePairs_append {α : Type} [DecidableEq α] {first second : α} {front rest : List α}
    (h : ∀ a ∈ front, a ≠ first) :
    collapsePairs first second (front ++ rest) = front ++ collapsePairs first second rest := by
  induction front with
  | nil => rfl
  | cons a front ih =>
    have ha := h a (by simp)
    have ih := ih fun b hb => h b (by simp [hb])
    cases hlater : front ++ rest with
    | nil =>
      obtain ⟨rfl, rfl⟩ := append_eq_nil_iff.mp hlater
      rfl
    | cons b later =>
      rw [cons_append, hlater, collapsePairs, if_neg fun h => ha h.1, ← hlater, ih]
      rfl

theorem carriageReturn_of_mem {c : Char} (h : 13 ∈ String.utf8EncodeChar c) : c = '\r' :=
  utf8EncodeChar_injective (utf8EncodeChar_eq_singleton h (by decide))

theorem lineFeed_of_mem {c : Char} (h : 10 ∈ String.utf8EncodeChar c) : c = '\n' :=
  utf8EncodeChar_injective (utf8EncodeChar_eq_singleton h (by decide))

/-! ## Validation -/

namespace OriginalOffsetMap

variable {map : OriginalOffsetMap} {normalized : Nat}

/-- What the loop over the text establishes. -/
structure Measured (map : OriginalOffsetMap) : Prop where
  ascend : RecordsAscend map.records
  diff_pos : ∀ record ∈ map.records, 0 < record.diff
  bounded : ∀ record ∈ map.records, record.normalizedAt ≤ map.normalizedLen
  total : rightEnd map.records map.normalizedLen = map.originalLen
  small : map.originalLen < u32Size

theorem diffAt_sub_one {p : Nat → Bool} :
    (let index := (map.records.takeWhile fun record => p record.normalizedAt).length
      if index = 0 then 0 else map.diffAt (index - 1)) = diffWhile p 0 map.records := by
  rw [diffWhile_eq_getLast?]
  dsimp only
  by_cases hnil : (map.records.takeWhile fun record => p record.normalizedAt) = []
  · rw [hnil]
    rfl
  · have hne := length_pos_iff.mpr hnil
    rw [if_neg (by omega), diffAt, getElem?_length_takeWhile_sub_one hnil]

theorem endpointDiff_left :
    map.endpointDiff normalized false = diffWhile (· < normalized) 0 map.records := by
  rw [← diffAt_sub_one, endpointDiff, search]
  split <;> rename_i heq <;> split at heq <;> cases heq <;> rfl

theorem endpointDiff_right (h : RecordsAscend map.records) :
    map.endpointDiff normalized true = diffWhile (· ≤ normalized) 0 map.records := by
  rw [diffWhile_le_eq h, ← diffAt_sub_one, endpointDiff, search]
  dsimp only
  cases hget : map.records[(map.records.takeWhile fun record =>
      record.normalizedAt < normalized).length]? with
  | none => rfl
  | some record =>
    by_cases heq : record.normalizedAt = normalized
    · simp [heq, diffAt, hget]
    · simp [heq]

theorem normalizedFromOriginal_eq (original : Nat) :
    map.normalizedFromOriginal original =
      if original ≤ map.originalLen then .ok (normalizedPosition original 0 map.records)
      else .error .invalidSpan := by
  rw [normalizedFromOriginal]
  by_cases hle : original ≤ map.originalLen
  · rw [if_neg (by omega), if_pos hle, scan_eq_ok original.zero_le]
  · rw [if_pos (by omega), if_neg hle]
    rfl

namespace Measured

theorem intervalChain (h : Measured map) :
    IntervalChain (leftEnd map.records) (rightEnd map.records) :=
  intervalChain_ends h.ascend h.diff_pos

theorem rightEnd_le (h : Measured map) (hle : normalized ≤ map.normalizedLen) :
    rightEnd map.records normalized ≤ map.originalLen := by
  rw [← h.total]
  exact h.intervalChain.strictMono_right.monotone hle

theorem left_eq (h : Measured map) (normalized : Nat) : map.left normalized =
    if normalized ≤ map.normalizedLen then .ok (leftEnd map.records normalized)
    else .error .invalidSpan := by
  rw [left, mapEndpoint, endpointDiff_left]
  by_cases hle : normalized ≤ map.normalizedLen
  · have hposition := (h.intervalChain.le normalized).trans (h.rightEnd_le hle)
    have hsmall := h.small
    rw [leftEnd] at hposition ⊢
    rw [if_neg (by omega), if_pos hle]
    exact if_neg (by omega)
  · rw [if_pos (by omega), if_neg hle]
    rfl

theorem right_eq (h : Measured map) (normalized : Nat) : map.right normalized =
    if normalized ≤ map.normalizedLen then .ok (rightEnd map.records normalized)
    else .error .invalidSpan := by
  rw [right, mapEndpoint, endpointDiff_right h.ascend]
  by_cases hle : normalized ≤ map.normalizedLen
  · have hposition := h.rightEnd_le hle
    have hsmall := h.small
    rw [rightEnd] at hposition ⊢
    rw [if_neg (by omega), if_pos hle]
    exact if_neg (by omega)
  · rw [if_pos (by omega), if_neg hle]
    rfl

/-- The scan finds the interval of each position. -/
theorem position_mem (h : Measured map) (original : Nat) :
    leftEnd map.records (normalizedPosition original 0 map.records) ≤ original ∧
      original ≤ rightEnd map.records (normalizedPosition original 0 map.records) :=
  normalizedPosition_mem h.ascend original.zero_le rfl

theorem position_eq_iff (h : Measured map) {original normalized : Nat} :
    normalizedPosition original 0 map.records = normalized ↔
      leftEnd map.records normalized ≤ original ∧ original ≤ rightEnd map.records normalized :=
  h.intervalChain.index_eq_iff h.position_mem

theorem position_le (h : Measured map) {original : Nat} (hle : original ≤ map.originalLen) :
    normalizedPosition original 0 map.records ≤ map.normalizedLen := by
  rw [h.intervalChain.gc_right h.position_mem, h.total]
  exact hle

/-- The ends of the preimage of a position lead back to it. -/
theorem roundTrip (h : Measured map) (hle : normalized ≤ map.normalizedLen) :
    map.left normalized >>= map.normalizedFromOriginal = .ok normalized ∧
      map.right normalized >>= map.normalizedFromOriginal = .ok normalized := by
  have hends := h.intervalChain.le normalized
  have hright := h.rightEnd_le hle
  rw [h.left_eq, h.right_eq, if_pos hle, if_pos hle]
  constructor
  · show map.normalizedFromOriginal (leftEnd map.records normalized) = _
    rw [normalizedFromOriginal_eq, if_pos (hends.trans hright),
      h.position_eq_iff.mpr ⟨le_rfl, hends⟩]
  · show map.normalizedFromOriginal (rightEnd map.records normalized) = _
    rw [normalizedFromOriginal_eq, if_pos hright, h.position_eq_iff.mpr ⟨hends, le_rfl⟩]

/-- Each record passes if the previous one lies before it. -/
theorem validateRecord_eq (h : Measured map) {previous : Nat × Nat}
    {record : NormalizationRecord} {index : Nat} (hmem : record ∈ map.records)
    (hdiff : previous.2 < record.diff) (hprevious : 0 < index → previous.1 < record.normalizedAt) :
    map.validateRecord previous (record, index) = .ok (record.normalizedAt, record.diff) := by
  have hbounded := h.bounded record hmem
  have hend := h.rightEnd_le hbounded
  have hsmall := h.small
  obtain ⟨hleft, hright⟩ := h.roundTrip hbounded
  rw [rightEnd, diffWhile_le_of_mem h.ascend hmem] at hend
  have hguard : ¬(map.normalizedLen < record.normalizedAt ∨ record.diff ≤ previous.2 ∨
      (0 < index ∧ record.normalizedAt ≤ previous.1) ∨
      u32Size ≤ record.normalizedAt + record.diff ∨
      map.originalLen < record.normalizedAt + record.diff) := by
    rintro (h | h | ⟨hindex, h⟩ | h | h)
    · omega
    · omega
    · have := hprevious hindex
      omega
    · omega
    · omega
  rw [validateRecord]
  dsimp only
  rw [if_neg hguard]
  obtain ⟨left, hleft, hfromLeft⟩ := bind_ok hleft
  obtain ⟨right, hright, hfromRight⟩ := bind_ok hright
  rw [hleft, hright]
  simp [bind, Except.bind, hfromLeft, hfromRight, pure, Except.pure]

theorem validate_ok (h : Measured map) : map.validate = .ok () := by
  have hrecords : ∀ (records : List NormalizationRecord) (index : Nat) (previous : Nat × Nat),
      (∀ record ∈ records, record ∈ map.records) → RecordsAscend records →
      (∀ record ∈ records, previous.2 < record.diff ∧
        (0 < index → previous.1 < record.normalizedAt)) →
      ∃ last, (records.zipIdx index).foldlM map.validateRecord previous = .ok last := by
    intro records
    induction records with
    | nil => exact fun index previous _ _ _ => ⟨previous, rfl⟩
    | cons record records ih =>
      intro index previous hmem hascend hprevious
      obtain ⟨hrecord, hascend⟩ := pairwise_cons.mp hascend
      obtain ⟨hdiff, hposition⟩ := hprevious record (by simp)
      rw [zipIdx_cons, foldlM_cons, h.validateRecord_eq (hmem record (by simp)) hdiff hposition]
      exact ih _ _ (fun r hr => hmem r (by simp [hr])) hascend fun r hr =>
        ⟨(hrecord r hr).2, fun _ => (hrecord r hr).1⟩
  obtain ⟨last, hlast⟩ := hrecords map.records 0 (0, 0) (fun _ hr => hr) h.ascend
    fun r hr => ⟨h.diff_pos r hr, fun h0 => absurd h0 (lt_irrefl 0)⟩
  have hposition : normalizedPosition map.originalLen 0 map.records = map.normalizedLen :=
    h.position_eq_iff.mpr ⟨by rw [← h.total]; exact h.intervalChain.le _, h.total.ge⟩
  rw [validate, hlast]
  show (map.right map.normalizedLen >>= _) = _
  rw [h.right_eq, if_pos le_rfl, h.total]
  show (if map.originalLen ≠ map.originalLen then _ else _) = _
  rw [if_neg (not_not.mpr rfl), normalizedFromOriginal_eq, if_pos le_rfl, hposition]
  show (if map.normalizedLen ≠ map.normalizedLen then _ else _) = _
  rw [if_neg (not_not.mpr rfl)]
  rfl

end Measured

/-! ## The loop over the bytes -/

/-- The records that have been made so far. -/
structure Reading (found : Normalization) : Prop where
  ascend : RecordsAscend found.records
  diff_pos : ∀ record ∈ found.records, 0 < record.diff
  bounded : ∀ record ∈ found.records,
    record.normalizedAt ≤ found.normalized.length ∧ record.diff ≤ found.diff
  total : ∀ normalized, found.normalized.length ≤ normalized →
    diffWhile (· ≤ normalized) 0 found.records = found.diff

theorem Reading.push {found : Normalization} (h : Reading found) (byte : UInt8) :
    Reading { found with normalized := found.normalized ++ [byte] } where
  ascend := h.ascend
  diff_pos := h.diff_pos
  bounded record hrecord := by
    have := h.bounded record hrecord
    dsimp only
    rw [length_append]
    omega
  total normalized hle := by
    rw [length_append] at hle
    exact h.total normalized (by omega)

theorem Reading.pushLineFeed {found : Normalization} (h : Reading found) :
    Reading ⟨found.normalized ++ [10], found.diff + 1,
      found.records ++ [⟨(found.normalized ++ [10]).length, found.diff + 1⟩]⟩ where
  ascend := by
    rw [RecordsAscend, pairwise_append]
    refine ⟨h.ascend, pairwise_singleton _ _, fun a ha b hb => ?_⟩
    obtain rfl := mem_singleton.mp hb
    have := h.bounded a ha
    dsimp only
    rw [length_append, length_singleton]
    omega
  diff_pos record hrecord := by
    rcases mem_append.mp hrecord with hrecord | hrecord
    · exact h.diff_pos record hrecord
    · obtain rfl := mem_singleton.mp hrecord
      exact Nat.succ_pos _
  bounded record hrecord := by
    rcases mem_append.mp hrecord with hrecord | hrecord
    · have := h.bounded record hrecord
      dsimp only
      rw [length_append]
      omega
    · obtain rfl := mem_singleton.mp hrecord
      exact ⟨le_rfl, le_rfl⟩
  total normalized hle := by
    rw [diffWhile_append, diffWhile, if_pos (by simpa using hle)]
    · rfl
    · intro r hr
      have := h.bounded r hr
      rw [length_append] at hle
      simpa using (by omega : r.normalizedAt ≤ normalized)

theorem normalizeLoop_ok (bytes : List UInt8) {found : Normalization} (h : Reading found)
    (hsmall : found.normalized.length + bytes.length < u32Size) :
    ∃ result, normalizeLoop bytes found = .ok result ∧ Reading result ∧
      result.normalized = found.normalized ++ collapsePairs 13 10 bytes ∧
      result.normalized.length + result.diff =
        found.normalized.length + found.diff + bytes.length := by
  induction bytes, found using normalizeLoop.induct with
  | case1 found => exact ⟨found, rfl, h, by simp [collapsePairs], rfl⟩
  | case2 byte found =>
    refine ⟨_, rfl, h.push byte, rfl, ?_⟩
    rw [length_append]
    dsimp only
    omega
  | case3 byte next rest found hpair normalized hlarge =>
    simp only [normalized, length_append, length_cons, length_nil] at hlarge hsmall
    omega
  | case4 byte next rest found hpair normalized diff hle ih =>
    simp only [length_cons] at hsmall
    obtain ⟨result, hresult, hreading, hnormalized, hlength⟩ := ih h.pushLineFeed (by
      simp only [normalized, length_append, length_singleton]
      omega)
    refine ⟨result, ?_, hreading, ?_, ?_⟩
    · rw [normalizeLoop, if_pos hpair]
      exact (if_neg hle).trans hresult
    · rw [hnormalized, collapsePairs, if_pos hpair, hpair.2]
      simp [normalized]
    · rw [hlength]
      simp only [normalized, diff, length_append, length_cons, length_nil]
      omega
  | case5 byte next rest found hpair ih =>
    simp only [length_cons] at hsmall
    obtain ⟨result, hresult, hreading, hnormalized, hlength⟩ := ih (h.push byte) (by
      simp only [length_append, length_cons, length_nil]
      omega)
    refine ⟨result, ?_, hreading, ?_, ?_⟩
    · rw [normalizeLoop, if_neg hpair]
      exact hresult
    · rw [hnormalized, collapsePairs, if_neg hpair]
      simp
    · rw [hlength]
      simp only [length_append, length_cons, length_nil]
      omega

end OriginalOffsetMap

theorem ne_carriageReturn {c : Char} (hc : c ≠ '\r') :
    ∀ byte ∈ String.utf8EncodeChar c, byte ≠ 13 := by
  rintro byte hbyte rfl
  exact hc (carriageReturn_of_mem hbyte)

/-- Collapsing the line ends among the bytes collapses them in the text. -/
theorem collapsePairs_utf8Bytes (text : List Char) :
    collapsePairs 13 10 (utf8Bytes text) = utf8Bytes (collapsePairs '\r' '\n' text) := by
  induction text using collapsePairs.induct '\r' '\n' with
  | case1 => rfl
  | case2 c =>
    by_cases hc : c = '\r'
    · subst hc
      rfl
    · exact collapsePairs_append (ne_carriageReturn hc)
  | case3 c d rest hpair ih =>
    obtain ⟨rfl, rfl⟩ := hpair
    rw [collapsePairs, if_pos ⟨rfl, rfl⟩, utf8Bytes_cons, utf8Bytes_cons, utf8Bytes_cons, ← ih]
    rfl
  | case4 c d rest hpair ih =>
    rw [collapsePairs, if_neg hpair, utf8Bytes_cons c, utf8Bytes_cons c, ← ih]
    by_cases hc : c = '\r'
    · subst hc
      obtain ⟨byte, bytes, hbytes⟩ : ∃ byte bytes, String.utf8EncodeChar d = byte :: bytes :=
        exists_cons_of_length_pos (by
          rw [String.length_utf8EncodeChar]
          exact d.utf8Size_pos)
      have hbyte : byte ≠ 10 := by
        rintro rfl
        exact hpair ⟨rfl, lineFeed_of_mem (by simp [hbytes])⟩
      rw [utf8Bytes_cons, hbytes]
      exact if_neg fun h => hbyte h.2
    · exact collapsePairs_append (ne_carriageReturn hc)

theorem isPrefixOf_byteOrderMark (source : List Char) :
    byteOrderMark.isPrefixOf (utf8Bytes source) = true ↔ source.head? = some '\uFEFF' := by
  have hmark : byteOrderMark = String.utf8EncodeChar '\uFEFF' := rfl
  rw [List.isPrefixOf_iff_prefix, hmark]
  cases source with
  | nil => simp [← hmark, byteOrderMark]
  | cons c source =>
    rw [head?_cons, Option.some.injEq, utf8Bytes_cons]
    constructor
    · rintro ⟨rest, hrest⟩
      exact (utf8EncodeChar_append_inj hrest).symm
    · rintro rfl
      exact prefix_append _ _

/-! ## The whole map -/

/-- The endpoint maps and the way back between them. -/
structure EndpointMaps (map : OriginalOffsetMap) : Prop where
  left_total : ∀ normalized,
    (∃ original, map.left normalized = .ok original) ↔ normalized ≤ map.normalizedLen
  right_total : ∀ normalized,
    (∃ original, map.right normalized = .ok original) ↔ normalized ≤ map.normalizedLen
  left_strictMono : ∀ {m n a b}, map.left m = .ok a → map.left n = .ok b → m < n → a < b
  right_strictMono : ∀ {m n a b}, map.right m = .ok a → map.right n = .ok b → m < n → a < b
  normalized_total : ∀ original, (∃ normalized,
    map.normalizedFromOriginal original = .ok normalized) ↔ original ≤ map.originalLen
  normalized_mono : ∀ {a b m n}, map.normalizedFromOriginal a = .ok m →
    map.normalizedFromOriginal b = .ok n → a ≤ b → m ≤ n
  galois : ∀ original normalized, map.normalizedFromOriginal original = .ok normalized ↔
    ∃ first last, map.left normalized = .ok first ∧ map.right normalized = .ok last ∧
      first ≤ original ∧ original ≤ last

namespace OriginalOffsetMap

/-- A map that returns exactly up to a bound. -/
theorem exists_ok_iff {f : Nat → Nat} {bound x : Nat} {e : SourceError} :
    (∃ y, (if x ≤ bound then .ok (f x) else .error e : Except SourceError Nat) = .ok y) ↔
      x ≤ bound := by
  split <;> simp [*]

theorem eq_of_ok {f : Nat → Nat} {bound x y : Nat} {e : SourceError}
    (h : (if x ≤ bound then .ok (f x) else .error e : Except SourceError Nat) = .ok y) :
    x ≤ bound ∧ f x = y := by
  split at h
  · exact ⟨‹_›, Except.ok.inj h⟩
  · cases h

theorem Measured.endpointMaps {map : OriginalOffsetMap} (h : Measured map) : EndpointMaps map where
  left_total normalized := by rw [h.left_eq, exists_ok_iff]
  right_total normalized := by rw [h.right_eq, exists_ok_iff]
  left_strictMono {m n a b} ha hb hlt := by
    rw [h.left_eq] at ha hb
    rw [← (eq_of_ok ha).2, ← (eq_of_ok hb).2]
    exact h.intervalChain.strictMono_left hlt
  right_strictMono {m n a b} ha hb hlt := by
    rw [h.right_eq] at ha hb
    rw [← (eq_of_ok ha).2, ← (eq_of_ok hb).2]
    exact h.intervalChain.strictMono_right hlt
  normalized_total original := by
    rw [normalizedFromOriginal_eq]
    exact exists_ok_iff (f := fun x => normalizedPosition x 0 map.records)
  normalized_mono {a b m n} hm hn hle := by
    rw [normalizedFromOriginal_eq] at hm hn
    rw [← (eq_of_ok (f := fun x => normalizedPosition x 0 map.records) hm).2,
      ← (eq_of_ok (f := fun x => normalizedPosition x 0 map.records) hn).2]
    exact (h.intervalChain.gc_left h.position_mem).monotone_u hle
  galois original normalized := by
    rw [normalizedFromOriginal_eq, h.left_eq, h.right_eq]
    constructor
    · intro hok
      obtain ⟨hle, rfl⟩ := eq_of_ok (f := fun x => normalizedPosition x 0 map.records) hok
      have hmem := h.position_mem original
      rw [if_pos (h.position_le hle), if_pos (h.position_le hle)]
      exact ⟨_, _, rfl, rfl, hmem⟩
    · rintro ⟨first, last, hfirst, hlast, hmem⟩
      obtain ⟨hle, rfl⟩ := eq_of_ok hfirst
      obtain ⟨-, rfl⟩ := eq_of_ok hlast
      rw [if_pos (hmem.2.trans (h.rightEnd_le hle)), h.position_eq_iff.mpr hmem]

/-- What the loop has made of the whole text. -/
theorem normalizeBytes_ok {source : List Char} (hsmall : utf8Len source < u32Size) :
    ∃ found, normalizeBytes (utf8Bytes source) = .ok found ∧ Reading found ∧
      found.normalized = utf8Bytes (normalizedText source) ∧
      found.normalized.length + found.diff = utf8Len source := by
  rw [normalizeBytes]
  by_cases hmark : source.head? = some '\uFEFF'
  · obtain ⟨rest, rfl⟩ := head?_eq_some_iff.mp hmark
    have hdrop : (utf8Bytes ('\uFEFF' :: rest)).drop 3 = utf8Bytes rest := rfl
    have hlen : utf8Len ('\uFEFF' :: rest) = 3 + utf8Len rest := rfl
    have hreading : Reading ⟨[], 3, [⟨0, 3⟩]⟩ := by
      refine ⟨pairwise_singleton _ _, ?_, ?_, ?_⟩
      · simp
      · simp
      · intro normalized _
        simp [diffWhile]
    obtain ⟨found, hok, hfound, hnormalized, hlength⟩ :=
      normalizeLoop_ok (utf8Bytes rest) hreading (by
        rw [length_utf8Bytes]
        dsimp only [length_nil]
        omega)
    rw [if_pos ((isPrefixOf_byteOrderMark _).mpr rfl), hdrop]
    refine ⟨found, hok, hfound, ?_, ?_⟩
    · rw [hnormalized, nil_append, collapsePairs_utf8Bytes, normalizedText, withoutMark,
        if_pos hmark, tail_cons]
    · rw [hlength, hlen, length_utf8Bytes]
      rfl
  · have hreading : Reading ⟨[], 0, []⟩ := by
      refine ⟨.nil, by simp, by simp, fun _ _ => rfl⟩
    obtain ⟨found, hok, hfound, hnormalized, hlength⟩ :=
      normalizeLoop_ok (utf8Bytes source) hreading (by
        rw [length_utf8Bytes]
        dsimp only [length_nil]
        omega)
    rw [if_neg fun h => hmark ((isPrefixOf_byteOrderMark _).mp h)]
    refine ⟨found, hok, hfound, ?_, ?_⟩
    · rw [hnormalized, nil_append, collapsePairs_utf8Bytes, normalizedText, withoutMark,
        if_neg hmark]
    · rw [hlength, length_utf8Bytes]
      dsimp only [length_nil]
      omega

/-- Every text shorter than the largest 32-bit number has an offset map. -/
theorem fromSource_ok {source : List Char} (hsmall : utf8Len source < u32Size - 1) :
    ∃ map, fromSource source = .ok (normalizedText source, map) ∧
      map.originalLen = utf8Len source ∧ map.normalizedLen = utf8Len (normalizedText source) ∧
      EndpointMaps map := by
  obtain ⟨found, hok, hfound, hnormalized, hlength⟩ :=
    normalizeBytes_ok (show utf8Len source < u32Size by omega)
  have hnormalizedLen : found.normalized.length = utf8Len (normalizedText source) := by
    rw [hnormalized, length_utf8Bytes]
  have hmeasured : Measured ⟨utf8Len source, utf8Len (normalizedText source), found.records⟩ := by
    rw [hnormalizedLen] at hlength
    refine ⟨hfound.ascend, hfound.diff_pos, fun record hrecord => ?_, ?_, ?_⟩
    · exact (hfound.bounded record hrecord).1.trans hnormalizedLen.le
    · rw [rightEnd, hfound.total _ hnormalizedLen.le]
      exact hlength
    · dsimp only
      omega
  refine ⟨_, ?_, rfl, rfl, hmeasured.endpointMaps⟩
  rw [fromSource]
  dsimp only
  rw [length_utf8Bytes, if_neg (by omega), hok]
  dsimp only [bind, Except.bind]
  rw [hnormalized, fromUtf8_utf8Bytes]
  dsimp only
  rw [if_neg (by omega), hmeasured.validate_ok]
  rfl

/-- A mark right before a CRLF. -/
theorem fromSource_ok_mark :
    ∃ map, fromSource ['\uFEFF', '\r', '\n', 'a'] = .ok (['\n', 'a'], map) ∧
      map.originalLen = 6 ∧ map.normalizedLen = 2 ∧ EndpointMaps map :=
  have hsmall : utf8Len ['\uFEFF', '\r', '\n', 'a'] < u32Size - 1 := by decide
  fromSource_ok hsmall

end OriginalOffsetMap

end ItemDependencies
