import ItemDependencies.Source.Rewrite

/-!
# Byte offsets in a text

A text is a list of characters, and its positions are byte offsets.  The
offsets between two characters are the places where it can be cut.
-/

namespace ItemDependencies

open List

/-- The bytes of a text. -/
def utf8Bytes (text : List Char) : List UInt8 := text.flatMap String.utf8EncodeChar

/-- The text from a byte offset on. -/
def dropBytes : List Char → Nat → Option (List Char)
  | text, 0 => some text
  | [], _ + 1 => none
  | c :: text, offset + 1 =>
    if c.utf8Size ≤ offset + 1 then dropBytes text (offset + 1 - c.utf8Size) else none

/-- The text before a byte offset. -/
def takeBytes : List Char → Nat → Option (List Char)
  | _, 0 => some []
  | [], _ + 1 => none
  | c :: text, offset + 1 =>
    if c.utf8Size ≤ offset + 1 then (takeBytes text (offset + 1 - c.utf8Size)).map (c :: ·)
    else none

/-- The text between two byte offsets, if both lie on character boundaries. -/
def textRange (text : List Char) (start stop : Nat) : Option (List Char) :=
  if start ≤ stop then (dropBytes text start).bind fun rest => takeBytes rest (stop - start)
  else none

/-- A range of a text lies on character boundaries. -/
def validRange (source : List Char) (range : ByteRange) : Bool :=
  range.start ≤ range.stop && range.stop ≤ utf8Len source && isCharBoundary source range.start &&
    isCharBoundary source range.stop

variable {text front rest mid : List Char} {offset start stop : Nat}

@[simp] theorem utf8Len_nil : utf8Len [] = 0 := rfl

@[simp] theorem utf8Len_cons (c : Char) : utf8Len (c :: text) = c.utf8Size + utf8Len text := rfl

@[simp] theorem utf8Len_append : utf8Len (front ++ rest) = utf8Len front + utf8Len rest := by
  induction front with
  | nil => simp
  | cons c front ih => simp [ih, Nat.add_assoc]

@[simp] theorem utf8Bytes_append : utf8Bytes (front ++ rest) = utf8Bytes front ++ utf8Bytes rest :=
  flatMap_append

@[simp] theorem length_utf8Bytes : (utf8Bytes text).length = utf8Len text := by
  induction text with
  | nil => rfl
  | cons c text ih =>
    have hcons : utf8Bytes (c :: text) = String.utf8EncodeChar c ++ utf8Bytes text := rfl
    rw [hcons, length_append, ih, String.length_utf8EncodeChar, utf8Len_cons]

theorem dropBytes_eq_some (h : dropBytes text offset = some rest) :
    ∃ front, text = front ++ rest ∧ utf8Len front = offset := by
  induction text generalizing offset with
  | nil =>
    cases offset with
    | zero =>
      cases h
      exact ⟨[], rfl, rfl⟩
    | succ offset => cases h
  | cons c text ih =>
    cases offset with
    | zero =>
      cases h
      exact ⟨[], rfl, rfl⟩
    | succ offset =>
      unfold dropBytes at h
      split at h
      · rename_i hc
        obtain ⟨front, rfl, hfront⟩ := ih h
        refine ⟨c :: front, rfl, ?_⟩
        rw [utf8Len_cons, hfront]
        omega
      · cases h

theorem takeBytes_eq_some (h : takeBytes text offset = some front) :
    ∃ rest, text = front ++ rest ∧ utf8Len front = offset := by
  induction text generalizing offset front with
  | nil =>
    cases offset with
    | zero =>
      cases h
      exact ⟨[], rfl, rfl⟩
    | succ offset => cases h
  | cons c text ih =>
    cases offset with
    | zero =>
      cases h
      exact ⟨_, rfl, rfl⟩
    | succ offset =>
      unfold takeBytes at h
      split at h
      · rename_i hc
        obtain ⟨front', hfront', rfl⟩ := Option.map_eq_some_iff.mp h
        obtain ⟨rest, rfl, hlen⟩ := ih hfront'
        refine ⟨rest, rfl, ?_⟩
        rw [utf8Len_cons, hlen]
        omega
      · cases h

/-- A range that is cut out splits the text. -/
theorem textRange_eq_some (h : textRange text start stop = some mid) :
    ∃ front rest, text = front ++ (mid ++ rest) ∧ utf8Len front = start ∧
      start + utf8Len mid = stop := by
  unfold textRange at h
  split at h
  · rename_i hle
    obtain ⟨tail, hdrop, htake⟩ := Option.bind_eq_some_iff.mp h
    obtain ⟨front, rfl, hfront⟩ := dropBytes_eq_some hdrop
    obtain ⟨rest, rfl, hmid⟩ := takeBytes_eq_some htake
    exact ⟨front, rest, rfl, hfront, by omega⟩
  · cases h

/-! ## Character boundaries -/

theorem isCharBoundary_append (offset : Nat) :
    isCharBoundary (front ++ rest) (utf8Len front + offset) = isCharBoundary rest offset := by
  induction front with
  | nil => simp
  | cons c front ih =>
    have hpos : 0 < c.utf8Size := Char.utf8Size_pos c
    obtain ⟨n, hn⟩ : ∃ n, utf8Len (c :: front) + offset = n + 1 :=
      ⟨c.utf8Size - 1 + (utf8Len front + offset), by rw [utf8Len_cons]; omega⟩
    have hsize : c.utf8Size ≤ n + 1 := by rw [utf8Len_cons] at hn; omega
    have hrest : n + 1 - c.utf8Size = utf8Len front + offset := by rw [utf8Len_cons] at hn; omega
    rw [hn, cons_append, isCharBoundary, hrest, ih, decide_eq_true hsize, Bool.true_and]

@[simp] theorem isCharBoundary_zero : isCharBoundary text 0 = true := by
  cases text <;> rfl

theorem isCharBoundary_of_le (h : offset ≤ utf8Len front) :
    isCharBoundary (front ++ rest) offset = isCharBoundary front offset := by
  induction front generalizing offset with
  | nil =>
    obtain rfl : offset = 0 := Nat.le_zero.mp h
    rw [isCharBoundary_zero, isCharBoundary_zero]
  | cons c front ih =>
    cases offset with
    | zero => rw [isCharBoundary_zero, isCharBoundary_zero]
    | succ offset =>
      rw [cons_append, isCharBoundary, isCharBoundary, ih]
      rw [utf8Len_cons] at h
      omega

@[simp] theorem isCharBoundary_utf8Len : isCharBoundary text (utf8Len text) = true := by
  have h : isCharBoundary (text ++ []) (utf8Len text + 0) = isCharBoundary [] 0 :=
    isCharBoundary_append 0
  rwa [append_nil, Nat.add_zero, isCharBoundary_zero] at h

theorem le_utf8Len_of_isCharBoundary (h : isCharBoundary text offset = true) :
    offset ≤ utf8Len text := by
  induction text generalizing offset with
  | nil =>
    cases offset with
    | zero => exact le_rfl
    | succ offset => cases h
  | cons c text ih =>
    cases offset with
    | zero => exact Nat.zero_le _
    | succ offset =>
      rw [isCharBoundary, Bool.and_eq_true, decide_eq_true_eq] at h
      have := ih h.2
      rw [utf8Len_cons]
      omega

end ItemDependencies
