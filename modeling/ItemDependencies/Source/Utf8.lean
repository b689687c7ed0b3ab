import ItemDependencies.Source.Text

/-!
# Characters and their bytes

No byte of a longer encoding is an ASCII code, so the line ends of a text can be
found among its bytes, and an encoding is not a proper part of another one.
-/

namespace ItemDependencies

open List

/-- Reading bytes as text.  It fails unless they are the encoding of some characters. -/
def fromUtf8 (bytes : List UInt8) : Option (List Char) :=
  bytes.toByteArray.utf8Decode?.map Array.toList

def byteOrderMark : List UInt8 := [0xef, 0xbb, 0xbf]

@[simp] theorem fromUtf8_utf8Bytes (text : List Char) : fromUtf8 (utf8Bytes text) = some text := by
  have hdecode := utf8Decode?_utf8Encode (l := text)
  rw [List.utf8Encode] at hdecode
  rw [fromUtf8, utf8Bytes, hdecode, Option.map_some, toList_toArray]

theorem utf8Bytes_injective : Function.Injective utf8Bytes := by
  intro a b h
  have := fromUtf8_utf8Bytes a
  rw [h, fromUtf8_utf8Bytes] at this
  exact (Option.some.inj this).symm

@[simp] theorem utf8Bytes_nil : utf8Bytes [] = [] := rfl

theorem utf8Bytes_cons (c : Char) (text : List Char) :
    utf8Bytes (c :: text) = String.utf8EncodeChar c ++ utf8Bytes text := rfl

theorem utf8EncodeChar_injective : Function.Injective String.utf8EncodeChar := by
  intro a b h
  have hbytes : utf8Bytes [a] = utf8Bytes [b] := by rw [utf8Bytes_cons, utf8Bytes_cons, h]
  exact singleton_inj.mp (utf8Bytes_injective hbytes)

/-- The first character of a text is determined by its bytes. -/
theorem utf8EncodeChar_append_inj {a b : Char} {xs ys : List UInt8}
    (h : String.utf8EncodeChar a ++ xs = String.utf8EncodeChar b ++ ys) : a = b := by
  have hdecode : ∀ (c : Char) (bytes : List UInt8),
      ByteArray.utf8DecodeChar? (String.utf8EncodeChar c ++ bytes).toByteArray 0 = some c := by
    intro c bytes
    rw [toByteArray_append]
    exact ByteArray.utf8DecodeChar?_utf8EncodeChar_append
  have ha := hdecode a xs
  rw [h, hdecode b ys] at ha
  exact (Option.some.inj ha).symm

theorem le_or_of_le {x k : UInt8} (h : 128 ≤ k) : 128 ≤ x ||| k := by
  rw [UInt8.le_iff_toNat_le] at h ⊢
  rw [UInt8.toNat_or]
  exact h.trans Nat.right_le_or

/-- An ASCII byte is the encoding of a character by itself. -/
theorem utf8EncodeChar_eq_singleton {c : Char} {byte : UInt8}
    (hmem : byte ∈ String.utf8EncodeChar c) (hascii : byte < 128) :
    String.utf8EncodeChar c = [byte] := by
  have hnot : ∀ {x k : UInt8}, 128 ≤ k → byte ≠ x ||| k := by
    rintro x k hk rfl
    exact absurd (le_or_of_le hk) (UInt8.not_le.mpr hascii)
  rcases c.utf8Size_eq with h1 | h2 | h3 | h4
  · rw [String.utf8EncodeChar_eq_singleton h1] at hmem ⊢
    rw [mem_singleton.mp hmem]
  · rw [String.utf8EncodeChar_eq_cons_cons h2] at hmem
    simp [hnot] at hmem
  · rw [String.utf8EncodeChar_eq_cons_cons_cons h3] at hmem
    simp [hnot] at hmem
  · rw [String.utf8EncodeChar_eq_cons_cons_cons_cons h4] at hmem
    simp [hnot] at hmem

end ItemDependencies
