import Mozkey.Base.Utf8

/-!
# The key codec of the system dictionary

Keys of the system dictionary are mostly hiragana, which take three bytes each in UTF-8.
`EncodeDecodeKeyImpl` swaps hiragana, the prolonged sound mark and the middle dot with control
codes and letters, which take one byte.  The swap undoes itself, so one function encodes and
decodes; the lengths of the results are computed by a function of their own.

The null character has no place in keys: it would be written as no bytes at all, and an
assertion excludes it.
-/

namespace Mozkey.Dictionary

open Mozkey.Lib

/-! ## The codec -/

/-- The distance between a code point and the one that it is swapped with. -/
def keyOffset (code : Nat) : Nat :=
  if (0x0001 ≤ code ∧ code ≤ 0x001F) ∨ (0x3041 ≤ code ∧ code ≤ 0x305F) then 0x3041 - 0x0001
  else if (0x0040 ≤ code ∧ code ≤ 0x0075) ∨ (0x3060 ≤ code ∧ code ≤ 0x3095) then 0x3060 - 0x0040
  else if (0x0076 ≤ code ∧ code ≤ 0x0077) ∨ (0x30FB ≤ code ∧ code ≤ 0x30FC) then 0x30FB - 0x0076
  else 0

def swapCode (code : Nat) : Nat :=
  if code < 0x80 then code + keyOffset code else code - keyOffset code

/-- `EncodeDecodeKeyImpl`. -/
def encodeDecodeKey (src : ByteString) : ByteString :=
  (char32s src).flatMap fun code => codepointToUtf8 (swapCode code)

/-- One round of the loop of `GetEncodedDecodedKeyLengthImpl`. -/
def swappedSize (size code : Nat) : Nat :=
  if (0x3041 ≤ code ∧ code ≤ 0x3095) ∨ (0x30FB ≤ code ∧ code ≤ 0x30FC) then size - 2
  else if (0x0001 ≤ code ∧ code ≤ 0x001F) ∨ (0x0040 ≤ code ∧ code ≤ 0x0077) then size + 2
  else size

/-- `GetEncodedDecodedKeyLengthImpl`. -/
def encodedDecodedKeyLength (src : ByteString) : Nat :=
  (char32s src).foldl swappedSize src.length

def encodeKey (src : ByteString) : ByteString := encodeDecodeKey src

def decodeKey (src : ByteString) : ByteString := encodeDecodeKey src

def getEncodedKeyLength (src : ByteString) : Nat := encodedDecodedKeyLength src

def getDecodedKeyLength (src : ByteString) : Nat := encodedDecodedKeyLength src

/-! ## The swap of characters -/

/-- **The swap undoes itself**, across all ranges. -/
theorem swapCode_swapCode (code : Nat) : swapCode (swapCode code) = code := by
  unfold swapCode keyOffset
  split_ifs <;> omega

theorem swapCode_ne_zero {code : Nat} (nonzero : code ≠ 0) : swapCode code ≠ 0 := by
  unfold swapCode keyOffset
  split_ifs <;> omega

theorem swapCode_isValidChar {code : Nat} (valid : code.isValidChar) :
    (swapCode code).isValidChar := by
  unfold Nat.isValidChar at valid ⊢
  unfold swapCode keyOffset
  split_ifs <;> omega

/-- The character that a character is swapped with. -/
def swapChar (c : Char) : Char := Char.ofNatAux (swapCode c.toNat) (swapCode_isValidChar c.valid)

theorem toNat_swapChar (c : Char) : (swapChar c).toNat = swapCode c.toNat := rfl

theorem swapChar_involutive : Function.Involutive swapChar := by
  intro c
  apply char_toNat_injective
  rw [toNat_swapChar, toNat_swapChar, swapCode_swapCode]

/-- The length of a character's UTF-8. -/
def utf8Length (code : Nat) : Nat :=
  if code < 0x80 then 1 else if code < 0x800 then 2 else if code < 0x10000 then 3 else 4

theorem length_utf8EncodeChar (c : Char) :
    (String.utf8EncodeChar c).length = utf8Length c.toNat := by
  have value : c.val.toNat = c.toNat := rfl
  unfold String.utf8EncodeChar utf8Length
  rw [value]
  dsimp only
  split_ifs <;> first | rfl | omega

/-- The code points of three bytes that are swapped. -/
abbrev IsKana (code : Nat) : Prop :=
  (0x3041 ≤ code ∧ code ≤ 0x3095) ∨ (0x30FB ≤ code ∧ code ≤ 0x30FC)

/-- The code points of one byte that are swapped. -/
abbrev IsShort (code : Nat) : Prop :=
  (0x0001 ≤ code ∧ code ≤ 0x001F) ∨ (0x0040 ≤ code ∧ code ≤ 0x0077)

theorem swapCode_of_isKana {code : Nat} (kana : IsKana code) : swapCode code < 0x80 := by
  unfold swapCode keyOffset
  split_ifs <;> omega

theorem swapCode_of_isShort {code : Nat} (short : IsShort code) :
    0x800 ≤ swapCode code ∧ swapCode code < 0x10000 := by
  unfold swapCode keyOffset
  split_ifs <;> omega

theorem swapCode_of_other {code : Nat} (notKana : ¬ IsKana code) (notShort : ¬ IsShort code) :
    swapCode code = code := by
  unfold swapCode keyOffset
  split_ifs <;> omega

theorem utf8Length_of_three {code : Nat} (range : 0x800 ≤ code ∧ code < 0x10000) :
    utf8Length code = 3 := by
  rw [utf8Length, if_neg (by omega), if_neg (by omega), if_pos range.2]

theorem utf8Length_of_one {code : Nat} (range : code < 0x80) : utf8Length code = 1 := if_pos range

/-- The size that is counted changes as the character does. -/
theorem swappedSize_utf8Length (code more : Nat) :
    swappedSize (utf8Length code + more) code = utf8Length (swapCode code) + more := by
  unfold swappedSize
  by_cases kana : IsKana code
  · rw [if_pos kana, utf8Length_of_one (swapCode_of_isKana kana),
      utf8Length_of_three (by omega)]
    omega
  by_cases short : IsShort code
  · rw [if_neg kana, if_pos short, utf8Length_of_three (swapCode_of_isShort short),
      utf8Length_of_one (by omega)]
    omega
  · rw [if_neg kana, if_neg short, swapCode_of_other kana short]

/-! ## Whole keys -/

section Keys

variable {text text' : List Char}

theorem nonzero_of_mem (noNul : Char.ofNat 0 ∉ text) {c : Char} (member : c ∈ text) :
    c.toNat ≠ 0 := by
  intro zero
  have isNul : c = Char.ofNat 0 := char_toNat_injective zero
  exact noNul (isNul ▸ member)

theorem noNul_swapped (noNul : Char.ofNat 0 ∉ text) : Char.ofNat 0 ∉ text.map swapChar := by
  intro member
  obtain ⟨c, inside, is⟩ := List.mem_map.1 member
  have nonzero := swapCode_ne_zero (nonzero_of_mem noNul inside)
  rw [← toNat_swapChar, is] at nonzero
  exact nonzero rfl

/-- **A key is encoded character by character.** -/
theorem encodeDecodeKey_utf8 (noNul : Char.ofNat 0 ∉ text) :
    encodeDecodeKey (utf8 text) = utf8 (text.map swapChar) := by
  unfold encodeDecodeKey utf8
  rw [← utf8, char32s_utf8, List.flatMap_map, List.flatMap_map]
  apply List.flatMap_congr
  intro c member
  rw [← toNat_swapChar, codepointToUtf8_toNat]
  exact swapCode_ne_zero (nonzero_of_mem noNul member)

theorem encodeDecodeKey_involutive (noNul : Char.ofNat 0 ∉ text) :
    encodeDecodeKey (encodeDecodeKey (utf8 text)) = utf8 text := by
  rw [encodeDecodeKey_utf8 noNul, encodeDecodeKey_utf8 (noNul_swapped noNul), List.map_map,
    swapChar_involutive.comp_self, List.map_id]

theorem encodedDecodedKeyLength_utf8 (noNul : Char.ofNat 0 ∉ text) :
    encodedDecodedKeyLength (utf8 text) = (encodeDecodeKey (utf8 text)).length := by
  rw [encodeDecodeKey_utf8 noNul, encodedDecodedKeyLength, char32s_utf8]
  -- What was counted before adds the same to both sides.
  have counted : ∀ more, (text.map Char.toNat).foldl swappedSize ((utf8 text).length + more) =
      (utf8 (text.map swapChar)).length + more := by
    induction text with
    | nil => exact fun more => rfl
    | cons c text ih =>
        intro more
        rw [List.mem_cons, not_or] at noNul
        rw [List.map_cons, List.map_cons, List.foldl_cons, utf8_cons, utf8_cons,
          List.length_append, List.length_append, length_utf8EncodeChar, length_utf8EncodeChar,
          toNat_swapChar, Nat.add_assoc, swappedSize_utf8Length, Nat.add_left_comm,
          ih noNul.2]
        omega
  exact counted 0

/-- What the codec is used for, on two keys. -/
structure KeyCodecExact (text text' : List Char) : Prop where
  roundTrip : decodeKey (encodeKey (utf8 text)) = utf8 text
  undone : encodeKey (encodeKey (utf8 text)) = utf8 text
  permuted : encodeKey (utf8 (text.map swapChar)) = utf8 text
  isPrefix : utf8 text <+: utf8 text' ↔ encodeKey (utf8 text) <+: encodeKey (utf8 text')
  encodedLength : getEncodedKeyLength (utf8 text) = (encodeKey (utf8 text)).length
  decodedLength : getDecodedKeyLength (utf8 text) = (decodeKey (utf8 text)).length

/-- **The key codec is exact** on texts without the null character. -/
theorem keyCodec_exact (noNul : Char.ofNat 0 ∉ text) (noNul' : Char.ofNat 0 ∉ text') :
    KeyCodecExact text text' where
  roundTrip := encodeDecodeKey_involutive noNul
  undone := encodeDecodeKey_involutive noNul
  permuted := by
    rw [encodeKey, ← encodeDecodeKey_utf8 noNul]
    exact encodeDecodeKey_involutive noNul
  isPrefix := by
    rw [encodeKey, encodeKey, encodeDecodeKey_utf8 noNul, encodeDecodeKey_utf8 noNul',
      utf8_isPrefix_iff, utf8_isPrefix_iff,
      List.prefix_map_iff_of_injective swapChar_involutive.injective]
  encodedLength := encodedDecodedKeyLength_utf8 noNul
  decodedLength := encodedDecodedKeyLength_utf8 noNul

end Keys

theorem keyCodec_exact_hiragana : KeyCodecExact "あーa".toList "あーaだ".toList :=
  keyCodec_exact (by decide) (by decide)

/-- The null character is written as no bytes. -/
theorem not_keyCodec_exact : ¬ ∀ text text' : List Char, KeyCodecExact text text' := by
  intro claim
  exact absurd (claim [Char.ofNat 0] []).roundTrip (by decide)

end Mozkey.Dictionary
