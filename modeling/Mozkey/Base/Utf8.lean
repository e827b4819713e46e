import Mozkey.Base.Util
import Mozkey.Lib.SelfDelimiting

/-!
# UTF-8

Valid texts are sequences of Unicode characters, each of them encoded in one to four bytes.
The program takes the characters off one after another and puts code points together to texts.
-/

namespace Mozkey

open Mozkey.Lib

/-- The UTF-8 text of characters. -/
def utf8 (text : List Char) : ByteString := text.flatMap String.utf8EncodeChar

/-- `Util::CodepointToUtf8`. -/
def codepointToUtf8 (c : Nat) : ByteString :=
  if c = 0 then []
  else if c < 0x80 then [UInt8.ofNat (c &&& 0xFF)]
  else if c < 0x800 then
    [UInt8.ofNat (0xC0 + ((c >>> 6) &&& 0x1F)), UInt8.ofNat (0x80 + (c &&& 0x3F))]
  else if c < 0x10000 then
    [UInt8.ofNat (0xE0 + ((c >>> 12) &&& 0x0F)), UInt8.ofNat (0x80 + ((c >>> 6) &&& 0x3F)),
      UInt8.ofNat (0x80 + (c &&& 0x3F))]
  else if c < 0x200000 then
    [UInt8.ofNat (0xF0 + ((c >>> 18) &&& 0x07)), UInt8.ofNat (0x80 + ((c >>> 12) &&& 0x3F)),
      UInt8.ofNat (0x80 + ((c >>> 6) &&& 0x3F)), UInt8.ofNat (0x80 + (c &&& 0x3F))]
  else if c < 0x8000000 then
    [UInt8.ofNat (0xF8 + ((c >>> 24) &&& 0x03)), UInt8.ofNat (0x80 + ((c >>> 18) &&& 0x3F)),
      UInt8.ofNat (0x80 + ((c >>> 12) &&& 0x3F)), UInt8.ofNat (0x80 + ((c >>> 6) &&& 0x3F)),
      UInt8.ofNat (0x80 + (c &&& 0x3F))]
  else
    [UInt8.ofNat (0xFC + ((c >>> 30) &&& 0x01)), UInt8.ofNat (0x80 + ((c >>> 24) &&& 0x3F)),
      UInt8.ofNat (0x80 + ((c >>> 18) &&& 0x3F)), UInt8.ofNat (0x80 + ((c >>> 12) &&& 0x3F)),
      UInt8.ofNat (0x80 + ((c >>> 6) &&& 0x3F)), UInt8.ofNat (0x80 + (c &&& 0x3F))]

/-- The loop of a `ConstChar32Iterator`; every round takes at least one byte. -/
def char32sWithin : Nat → ByteString → List Nat
  | 0, _ => []
  | fuel + 1, str =>
      match splitFirstChar32 str with
      | none => []
      | some (c, rest) => c :: char32sWithin fuel rest

/-- The code points a `ConstChar32Iterator` goes through; it stops at bytes that are no character. -/
def char32s (str : ByteString) : List Nat := char32sWithin str.length str

/-! ## One character -/

deriving instance DecidableEq for LeadingByte

theorem trailingByte (x : Nat) (less : x < 64) :
    isUtf8TrailingByte (UInt8.ofNat (x + 0x80)) = true ∧
      (UInt8.ofNat (x + 0x80) &&& 0x3F).toNat = x := by
  revert x
  decide

theorem leadingByte_two (x : Nat) (less : x < 32) :
    ¬ UInt8.ofNat (x + 0xC0) < 0x80 ∧ isUtf8TrailingByte (UInt8.ofNat (x + 0xC0)) = false ∧
      leadingByte (UInt8.ofNat (x + 0xC0)) = some ⟨2, 0x80, 0x7FF, UInt8.ofNat x⟩ := by
  revert x
  decide

theorem leadingByte_three (x : Nat) (less : x < 16) :
    ¬ UInt8.ofNat (x + 0xE0) < 0x80 ∧ isUtf8TrailingByte (UInt8.ofNat (x + 0xE0)) = false ∧
      leadingByte (UInt8.ofNat (x + 0xE0)) = some ⟨3, 0x800, 0xFFFF, UInt8.ofNat x⟩ := by
  revert x
  decide

theorem leadingByte_four (x : Nat) (less : x < 8) :
    ¬ UInt8.ofNat (x + 0xF0) < 0x80 ∧ isUtf8TrailingByte (UInt8.ofNat (x + 0xF0)) = false ∧
      leadingByte (UInt8.ofNat (x + 0xF0)) = some ⟨4, 0x10000, 0x1FFFFF, UInt8.ofNat x⟩ := by
  revert x
  decide

theorem toNat_lt_of_char (c : Char) : c.toNat < 0x110000 := by
  rcases c.valid with low | ⟨_, high⟩
  · exact lt_trans low (by decide)
  · exact high

/-- A sequence of a leading byte and trailing bytes, cut off from a text. -/
theorem splitFirstChar32_sequence {lead : UInt8} {trailing rest : ByteString}
    {len minValue maxValue : Nat} {bits : UInt8} (notAscii : ¬ lead < 0x80)
    (notTrailing : isUtf8TrailingByte lead = false)
    (isLead : leadingByte lead = some ⟨len, minValue, maxValue, bits⟩)
    (length : trailing.length + 1 = len) (all : trailing.all isUtf8TrailingByte = true) {c : Nat}
    (value : trailing.foldl (fun acc b => acc * 64 + (b &&& 0x3F).toNat) bits.toNat = c)
    (least : minValue ≤ c) (most : c ≤ maxValue) :
    splitFirstChar32 (lead :: (trailing ++ rest)) = some (c, rest) := by
  have behind : (trailing ++ rest).drop (len - 1) = rest := by
    rw [← length, Nat.add_sub_cancel, List.drop_left]
  have front : (trailing ++ rest).take (len - 1) = trailing := by
    rw [← length, Nat.add_sub_cancel, List.take_left]
  rw [splitFirstChar32, if_neg notAscii, if_neg (by rw [notTrailing]; decide), isLead]
  dsimp only
  rw [if_neg (by rw [List.length_append]; omega), front, behind, if_pos all, value,
    if_neg (by omega)]

/-- **A character in front of a text** is its first one. -/
theorem splitFirstChar32_utf8EncodeChar (c : Char) (rest : ByteString) :
    splitFirstChar32 (String.utf8EncodeChar c ++ rest) = some (c.toNat, rest) := by
  have less := toNat_lt_of_char c
  have value : c.val.toNat = c.toNat := rfl
  unfold String.utf8EncodeChar
  rw [value]
  dsimp only
  split
  · next one =>
    have small : UInt8.ofNat c.toNat < 0x80 := by
      rw [UInt8.lt_iff_toNat_lt, UInt8.toNat_ofNat', Nat.mod_eq_of_lt (by omega)]
      exact Nat.lt_succ_of_le one
    rw [List.cons_append, List.nil_append, splitFirstChar32, if_pos small,
      UInt8.toNat_ofNat', Nat.mod_eq_of_lt (by omega)]
  split
  · next _ two =>
    obtain ⟨ascii, trail, lead⟩ := leadingByte_two (c.toNat / 64 % 0x20) (Nat.mod_lt _ (by decide))
    obtain ⟨is1, low1⟩ := trailingByte (c.toNat % 0x40) (Nat.mod_lt _ (by decide))
    refine splitFirstChar32_sequence ascii trail lead rfl (by rw [List.all_cons, is1]; rfl) ?_ (by omega) two
    rw [List.foldl_cons, List.foldl_nil, low1, UInt8.toNat_ofNat', Nat.mod_eq_of_lt (by omega)]
    omega
  split
  · next _ _ three =>
    obtain ⟨ascii, trail, lead⟩ := leadingByte_three (c.toNat / 4096 % 0x10) (Nat.mod_lt _ (by decide))
    obtain ⟨is1, low1⟩ := trailingByte (c.toNat / 64 % 0x40) (Nat.mod_lt _ (by decide))
    obtain ⟨is2, low2⟩ := trailingByte (c.toNat % 0x40) (Nat.mod_lt _ (by decide))
    refine splitFirstChar32_sequence ascii trail lead rfl (by rw [List.all_cons, List.all_cons, is1, is2]; rfl) ?_ (by omega) three
    rw [List.foldl_cons, List.foldl_cons, List.foldl_nil, low1, low2,
      UInt8.toNat_ofNat', Nat.mod_eq_of_lt (by omega)]
    omega
  · obtain ⟨ascii, trail, lead⟩ := leadingByte_four (c.toNat / 262144 % 0x08) (Nat.mod_lt _ (by decide))
    obtain ⟨is1, low1⟩ := trailingByte (c.toNat / 4096 % 0x40) (Nat.mod_lt _ (by decide))
    obtain ⟨is2, low2⟩ := trailingByte (c.toNat / 64 % 0x40) (Nat.mod_lt _ (by decide))
    obtain ⟨is3, low3⟩ := trailingByte (c.toNat % 0x40) (Nat.mod_lt _ (by decide))
    refine splitFirstChar32_sequence ascii trail lead rfl (by rw [List.all_cons, List.all_cons, List.all_cons, is1, is2, is3]; rfl) ?_ (by omega)
      (by omega)
    rw [List.foldl_cons, List.foldl_cons, List.foldl_cons, List.foldl_nil, low1, low2, low3,
      UInt8.toNat_ofNat', Nat.mod_eq_of_lt (by omega)]
    omega

/-- A character that is not the null character is written as its UTF-8. -/
theorem codepointToUtf8_toNat {c : Char} (nonzero : c.toNat ≠ 0) :
    codepointToUtf8 c.toNat = String.utf8EncodeChar c := by
  have less := toNat_lt_of_char c
  have value : c.val.toNat = c.toNat := rfl
  have low6 : ∀ n, n &&& 0x3F = n % 0x40 := fun n => Nat.and_two_pow_sub_one_eq_mod n 6
  have low5 : ∀ n, n &&& 0x1F = n % 0x20 := fun n => Nat.and_two_pow_sub_one_eq_mod n 5
  have low4 : ∀ n, n &&& 0x0F = n % 0x10 := fun n => Nat.and_two_pow_sub_one_eq_mod n 4
  have low3 : ∀ n, n &&& 0x07 = n % 0x08 := fun n => Nat.and_two_pow_sub_one_eq_mod n 3
  have low8 : ∀ n, n &&& 0xFF = n % 0x100 := fun n => Nat.and_two_pow_sub_one_eq_mod n 8
  unfold String.utf8EncodeChar codepointToUtf8
  rw [value, if_neg nonzero]
  simp only [low3, low4, low5, low6, low8, Nat.shiftRight_eq_div_pow, Nat.add_comm _ (_ % _)]
  by_cases one : c.toNat < 0x80
  · rw [if_pos one, if_pos (Nat.le_of_lt_succ one), Nat.mod_eq_of_lt (by omega)]
  by_cases two : c.toNat < 0x800
  · rw [if_neg one, if_pos two, if_neg (by omega), if_pos (Nat.le_of_lt_succ two)]
  by_cases three : c.toNat < 0x10000
  · rw [if_neg one, if_neg two, if_pos three, if_neg (by omega), if_neg (by omega),
      if_pos (Nat.le_of_lt_succ three)]
  · rw [if_neg one, if_neg two, if_neg three, if_pos (by omega), if_neg (by omega),
      if_neg (by omega), if_neg (by omega)]

/-! ## Texts -/

theorem char_toNat_injective : Function.Injective Char.toNat := by
  intro c d same
  exact Char.ext (UInt32.toNat_inj.1 same)

/-- UTF-8 can be cut into characters. -/
theorem selfDelimiting_utf8EncodeChar : SelfDelimiting String.utf8EncodeChar :=
  .of_decoder char_toNat_injective (fun _ => String.utf8EncodeChar_ne_nil)
    splitFirstChar32_utf8EncodeChar

theorem utf8_cons (c : Char) (text : List Char) :
    utf8 (c :: text) = String.utf8EncodeChar c ++ utf8 text :=
  List.flatMap_cons

/-- A text starts with another one when its characters do. -/
theorem utf8_isPrefix_iff {text text' : List Char} : utf8 text <+: utf8 text' ↔ text <+: text' :=
  selfDelimiting_utf8EncodeChar.flatMap_isPrefix_iff

/-- **An iterator goes through the characters** of a text. -/
theorem char32s_utf8 (text : List Char) : char32s (utf8 text) = text.map Char.toNat := by
  have within : ∀ fuel, (utf8 text).length ≤ fuel →
      char32sWithin fuel (utf8 text) = text.map Char.toNat := by
    induction text with
    | nil =>
        intro fuel _
        cases fuel <;> rfl
    | cons c text ih =>
        intro fuel enough
        rw [utf8_cons, List.length_append] at enough
        have nonempty := List.length_pos_iff.2 (String.utf8EncodeChar_ne_nil (c := c))
        cases fuel with
        | zero => omega
        | succ fuel =>
            rw [utf8_cons, char32sWithin, splitFirstChar32_utf8EncodeChar, List.map_cons]
            dsimp only
            rw [ih fuel (by omega)]
  exact within _ le_rfl

end Mozkey
