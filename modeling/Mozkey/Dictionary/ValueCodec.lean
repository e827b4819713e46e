import Mozkey.Base.Utf8

/-!
# The value codec of the system dictionary

A value of the dictionary is stored in a trie, with a short code for every character.
Hiragana and Katakana take one byte, ASCII and most Kanji two, and the rest up to four, behind
a byte that says which.

The code can be cut into characters, so that a prefix search for an encoded sentence finds the
values that the sentence starts with.  Decoding gives the text back without its null
characters, which are never written.
-/

namespace Mozkey.Dictionary

open Mozkey.Lib

/-! ## Constants -/

def kValueCharMarkAscii : UInt8 := 0xfc
def kValueCharMarkXX00 : UInt8 := 0xfd
def kValueCharMarkOtherUcs2 : UInt8 := 0xfe
def kValueCharMarkCodepoint : UInt8 := 0xff
def kValueCharMarkCodepointMiddle0 : Nat := 0x80
def kValueCharMarkCodepointRight0 : Nat := 0x40
def kValueCharMarkCodepointLeftMask : Nat := 0x1f
def kValueKanjiOffset : Nat := 0x01
def kValueHiraganaOffset : Nat := 0x4b
def kValueKatakanaOffset : Nat := 0x9f

/-! ## Encoding -/

/-- The highest byte of a code point, with the marks for bytes that are left out. -/
def markedLeft (left middle right : Nat) : Nat :=
  let left := if middle = 0 then left ||| kValueCharMarkCodepointMiddle0 else left
  if right = 0 then left ||| kValueCharMarkCodepointRight0 else left

/-- One round of the loop of `EncodeValue`. -/
def encodeValueChar (c : Nat) : ByteString :=
  if 0x3041 ≤ c ∧ c < 0x3095 then [UInt8.ofNat (c - 0x3041 + kValueHiraganaOffset)]
  else if 0x30a1 ≤ c ∧ c < 0x30fd then [UInt8.ofNat (c - 0x30a1 + kValueKatakanaOffset)]
  else if c < 0x10000 ∧ (c >>> 8) &&& 255 = 0 then
    [kValueCharMarkAscii, UInt8.ofNat (c &&& 255)]
  else if c < 0x10000 ∧ c &&& 255 = 0 then
    [kValueCharMarkXX00, UInt8.ofNat ((c >>> 8) &&& 255)]
  else if 0x4e00 ≤ c ∧ c < 0x9800 then
    [UInt8.ofNat (((c - 0x4e00) >>> 8) + kValueKanjiOffset), UInt8.ofNat (c &&& 255)]
  else if 0x10000 ≤ c ∧ c ≤ 0x10ffff then
    let left := (c >>> 16) &&& 255
    let middle := (c >>> 8) &&& 255
    let right := c &&& 255
    [kValueCharMarkCodepoint, UInt8.ofNat (markedLeft left middle right)] ++
      (if middle ≠ 0 then [UInt8.ofNat middle] else []) ++
        (if right ≠ 0 then [UInt8.ofNat right] else [])
  else
    [kValueCharMarkOtherUcs2, UInt8.ofNat ((c >>> 8) &&& 255), UInt8.ofNat (c &&& 255)]

/-- `SystemDictionaryCodec::EncodeValue`. -/
def encodeValue (src : ByteString) : ByteString := (char32s src).flatMap encodeValueChar

/-! ## Decoding -/

/-- One round of the loop of `DecodeValue`: the code point, and how many bytes it takes. -/
def decodeValueChar (p : ByteString) : Nat × Nat :=
  let at_ := fun i => (byteAt p i).toNat
  let cc := at_ 0
  if kValueHiraganaOffset ≤ cc ∧ cc < kValueKatakanaOffset then
    (0x3041 + at_ 0 - kValueHiraganaOffset, 1)
  else if kValueKatakanaOffset ≤ cc ∧ cc < kValueCharMarkAscii.toNat then
    (0x30a1 + at_ 0 - kValueKatakanaOffset, 1)
  else if cc = kValueCharMarkAscii.toNat then (at_ 1, 2)
  else if cc = kValueCharMarkXX00.toNat then (at_ 1 <<< 8, 2)
  else if cc = kValueCharMarkCodepoint.toNat then
    let c := (at_ 1 &&& kValueCharMarkCodepointLeftMask) <<< 16
    let (c, pos) :=
      if at_ 1 &&& kValueCharMarkCodepointMiddle0 = 0 then (c + at_ 2 <<< 8, 3) else (c, 2)
    if at_ 1 &&& kValueCharMarkCodepointRight0 = 0 then (c + at_ pos, pos + 1) else (c, pos)
  else if cc = kValueCharMarkOtherUcs2.toNat then (at_ 1 <<< 8 + at_ 2, 3)
  else
    -- the frequent Kanji; the offset of the smallest one is subtracted as an `int`
    ((((at_ 0 : Int) - kValueKanjiOffset) * 2 ^ 8 + 0x4e00 + at_ 1).toNat, 2)

/-- The loop of `DecodeValue`; every round takes at least one byte. -/
def decodeValueWithin : Nat → ByteString → ByteString
  | 0, _ => []
  | _ + 1, [] => []
  | fuel + 1, p =>
      codepointToUtf8 (decodeValueChar p).1 ++ decodeValueWithin fuel (p.drop (decodeValueChar p).2)

/-- `SystemDictionaryCodec::DecodeValue`. -/
def decodeValue (src : ByteString) : ByteString := decodeValueWithin src.length src

/-! ## One character -/

theorem toNat_byte {n : Nat} (less : n < 256) : (UInt8.ofNat n).toNat = n := by
  rw [UInt8.toNat_ofNat']
  exact Nat.mod_eq_of_lt less

/-- The marks of a highest byte do not touch its lower bits. -/
theorem markedLeft_spec {left : Nat} (less : left < 0x20) (middle right : Nat) :
    markedLeft left middle right < 256 ∧
      markedLeft left middle right &&& kValueCharMarkCodepointLeftMask = left ∧
      (markedLeft left middle right &&& kValueCharMarkCodepointMiddle0 = 0 ↔ middle ≠ 0) ∧
      (markedLeft left middle right &&& kValueCharMarkCodepointRight0 = 0 ↔ right ≠ 0) := by
  unfold markedLeft
  by_cases noMiddle : middle = 0 <;> by_cases noRight : right = 0
  all_goals
    simp only [noMiddle, noRight, if_true, if_false, ne_eq, not_true_eq_false, not_false_eq_true,
      iff_true, iff_false]
    clear noMiddle noRight
    revert left
    decide

section
variable (b b' b'' : UInt8) (rest : ByteString)

theorem decodeValueChar_hiragana (low : kValueHiraganaOffset ≤ b.toNat)
    (high : b.toNat < kValueKatakanaOffset) :
    decodeValueChar (b :: rest) = (0x3041 + b.toNat - kValueHiraganaOffset, 1) :=
  if_pos ⟨low, high⟩

theorem decodeValueChar_katakana (low : kValueKatakanaOffset ≤ b.toNat) (high : b.toNat < 0xfc) :
    decodeValueChar (b :: rest) = (0x30a1 + b.toNat - kValueKatakanaOffset, 1) := by
  unfold decodeValueChar
  exact (if_neg fun below => absurd below.2 (Nat.not_lt_of_le low)).trans (if_pos ⟨low, high⟩)

theorem decodeValueChar_ascii :
    decodeValueChar (kValueCharMarkAscii :: b :: rest) = (b.toNat, 2) := rfl

theorem decodeValueChar_xx00 :
    decodeValueChar (kValueCharMarkXX00 :: b :: rest) = (b.toNat <<< 8, 2) := rfl

theorem decodeValueChar_otherUcs2 :
    decodeValueChar (kValueCharMarkOtherUcs2 :: b :: b' :: rest) = (b.toNat <<< 8 + b'.toNat, 3) :=
  rfl

theorem decodeValueChar_kanji (less : b.toNat < kValueHiraganaOffset) :
    decodeValueChar (b :: b' :: rest) =
      ((((b.toNat : Int) - kValueKanjiOffset) * 2 ^ 8 + 0x4e00 + b'.toNat).toNat, 2) := by
  have below : b.toNat < 0x4b := less
  have ascii : b.toNat ≠ kValueCharMarkAscii.toNat := fun eq => absurd (eq ▸ below) (by decide)
  have xx00 : b.toNat ≠ kValueCharMarkXX00.toNat := fun eq => absurd (eq ▸ below) (by decide)
  have codepoint : b.toNat ≠ kValueCharMarkCodepoint.toNat :=
    fun eq => absurd (eq ▸ below) (by decide)
  have other : b.toNat ≠ kValueCharMarkOtherUcs2.toNat := fun eq => absurd (eq ▸ below) (by decide)
  have hiragana : ¬ (kValueHiraganaOffset ≤ b.toNat ∧ b.toNat < kValueKatakanaOffset) :=
    fun high => absurd high.1 (Nat.not_le_of_lt less)
  have katakana : ¬ (kValueKatakanaOffset ≤ b.toNat ∧ b.toNat < kValueCharMarkAscii.toNat) :=
    fun high => absurd (le_trans (by decide) high.1) (Nat.not_le_of_lt less)
  unfold decodeValueChar
  refine (if_neg hiragana).trans ((if_neg katakana).trans ((if_neg ascii).trans ?_))
  exact (if_neg xx00).trans ((if_neg codepoint).trans (if_neg other))

theorem decodeValueChar_codepoint :
    decodeValueChar (kValueCharMarkCodepoint :: b :: rest) =
      let c := (b.toNat &&& kValueCharMarkCodepointLeftMask) <<< 16
      let (c, pos) :=
        if b.toNat &&& kValueCharMarkCodepointMiddle0 = 0 then
          (c + (byteAt rest 0).toNat <<< 8, 3)
        else (c, 2)
      if b.toNat &&& kValueCharMarkCodepointRight0 = 0 then
        (c + (byteAt (kValueCharMarkCodepoint :: b :: rest) pos).toNat, pos + 1)
      else (c, pos) := rfl

end

/-- A code of a code point behind the first plane, in front of others. -/
theorem decodeValueChar_large {left middle right : Nat} (plane : left < 0x20) (byte : middle < 256)
    (byte' : right < 256) (rest : ByteString) :
    decodeValueChar ([kValueCharMarkCodepoint, UInt8.ofNat (markedLeft left middle right)] ++
      (if middle ≠ 0 then [UInt8.ofNat middle] else []) ++
        (if right ≠ 0 then [UInt8.ofNat right] else []) ++ rest) =
      (left * 2 ^ 16 + middle * 2 ^ 8 + right,
        2 + (if middle ≠ 0 then 1 else 0) + (if right ≠ 0 then 1 else 0)) := by
  obtain ⟨marked, bits, middleMark, rightMark⟩ := markedLeft_spec plane middle right
  simp only [List.cons_append, List.nil_append, decodeValueChar_codepoint, toNat_byte marked, bits,
    middleMark, rightMark, Nat.shiftLeft_eq]
  by_cases noMiddle : middle = 0
  · by_cases noRight : right = 0
    · simp [noMiddle, noRight]
    · simp [noMiddle, noRight, toNat_byte byte']
  · by_cases noRight : right = 0
    · simp [noMiddle, noRight, toNat_byte byte]
    · simp [noMiddle, noRight, toNat_byte byte, toNat_byte byte']

/-- **A code in front of others** is read back. -/
theorem decodeValueChar_encodeValueChar {c : Nat} (valid : c < 0x110000) (rest : ByteString) :
    decodeValueChar (encodeValueChar c ++ rest) = (c, (encodeValueChar c).length) := by
  have low8 : ∀ n, n &&& 255 = n % 256 := fun n => Nat.and_two_pow_sub_one_eq_mod n 8
  have first : kValueHiraganaOffset = 0x4b := rfl
  have second : kValueKatakanaOffset = 0x9f := rfl
  have third : kValueKanjiOffset = 1 := rfl
  unfold encodeValueChar
  simp only [low8, Nat.shiftRight_eq_div_pow]
  by_cases hiragana : 0x3041 ≤ c ∧ c < 0x3095
  · rw [if_pos hiragana, List.cons_append, List.nil_append, decodeValueChar_hiragana _ _
      (by rw [toNat_byte (by omega)]; omega) (by rw [toNat_byte (by omega)]; omega),
      toNat_byte (by omega), List.length_singleton, Prod.mk.injEq]
    exact ⟨by omega, rfl⟩
  rw [if_neg hiragana]
  by_cases katakana : 0x30a1 ≤ c ∧ c < 0x30fd
  · rw [if_pos katakana, List.cons_append, List.nil_append, decodeValueChar_katakana _ _
      (by rw [toNat_byte (by omega)]; omega) (by rw [toNat_byte (by omega)]; omega),
      toNat_byte (by omega), List.length_singleton, Prod.mk.injEq]
    exact ⟨by omega, rfl⟩
  rw [if_neg katakana]
  by_cases small : c < 0x10000 ∧ c / 2 ^ 8 % 256 = 0
  · rw [if_pos small, List.cons_append, List.cons_append, List.nil_append, decodeValueChar_ascii,
      toNat_byte (by omega), Prod.mk.injEq]
    exact ⟨by omega, rfl⟩
  rw [if_neg small]
  by_cases low : c < 0x10000 ∧ c % 256 = 0
  · rw [if_pos low, List.cons_append, List.cons_append, List.nil_append, decodeValueChar_xx00,
      toNat_byte (by omega), Nat.shiftLeft_eq, Prod.mk.injEq]
    exact ⟨by omega, rfl⟩
  rw [if_neg low]
  by_cases kanji : 0x4e00 ≤ c ∧ c < 0x9800
  · rw [if_pos kanji, List.cons_append, List.cons_append, List.nil_append,
      decodeValueChar_kanji _ _ _ (by rw [toNat_byte (by omega)]; omega), toNat_byte (by omega),
      toNat_byte (by omega), Prod.mk.injEq]
    exact ⟨by omega, rfl⟩
  rw [if_neg kanji]
  by_cases large : 0x10000 ≤ c ∧ c ≤ 0x10ffff
  · rw [if_pos large, decodeValueChar_large (by omega) (by omega) (by omega), Prod.mk.injEq]
    refine ⟨by omega, ?_⟩
    rw [List.length_append, List.length_append]
    congr 1
    · congr 1
      split <;> rfl
    · split <;> rfl
  · rw [if_neg large, List.cons_append, List.cons_append, List.cons_append, List.nil_append,
      decodeValueChar_otherUcs2, toNat_byte (by omega), toNat_byte (by omega), Nat.shiftLeft_eq,
      Prod.mk.injEq]
    exact ⟨by omega, rfl⟩

/-! ## Texts -/

theorem encodeValueChar_ne_nil (c : Nat) : encodeValueChar c ≠ [] := by
  unfold encodeValueChar
  intro empty
  split_ifs at empty
  exact List.cons_ne_nil _ _ empty

/-- What the decoder takes off, of characters. -/
def encodeChar (c : Char) : ByteString := encodeValueChar c.toNat

theorem decodeValueChar_encodeChar (c : Char) (rest : ByteString) :
    decodeValueChar (encodeChar c ++ rest) = (c.toNat, (encodeChar c).length) :=
  decodeValueChar_encodeValueChar (toNat_lt_of_char c) rest

/-- The code can be cut into characters. -/
theorem selfDelimiting_encodeChar : SelfDelimiting encodeChar := by
  let decode := fun p => some ((decodeValueChar p).1, p.drop (decodeValueChar p).2)
  have decodes : ∀ c rest, decode (encodeChar c ++ rest) = some (c.toNat, rest) := by
    intro c rest
    dsimp only [decode]
    rw [decodeValueChar_encodeChar, List.drop_left]
  exact .of_decoder char_toNat_injective (fun c => encodeValueChar_ne_nil _) decodes

theorem encodeValue_utf8 (text : List Char) :
    encodeValue (utf8 text) = text.flatMap encodeChar := by
  rw [encodeValue, char32s_utf8, List.flatMap_map]
  rfl

/-- The null character, U+0000. -/
def nullChar : Char := Char.ofNat 0

/-- The null character is not written. -/
theorem codepointToUtf8_char (c : Char) :
    codepointToUtf8 c.toNat = utf8 ([c].filter (· ≠ nullChar)) := by
  by_cases null : c = nullChar
  · subst null
    rfl
  · have nonzero : c.toNat ≠ 0 := fun zero => null (char_toNat_injective zero)
    rw [codepointToUtf8_toNat nonzero, List.filter_cons_of_pos (by simpa using null), utf8_cons]
    exact (List.append_nil _).symm

/-- **Decoding an encoded text** gives it back without its null characters. -/
theorem decodeValue_encodeValue (text : List Char) :
    decodeValue (encodeValue (utf8 text)) = utf8 (text.filter (· ≠ nullChar)) := by
  have within : ∀ fuel, (text.flatMap encodeChar).length ≤ fuel →
      decodeValueWithin fuel (text.flatMap encodeChar) = utf8 (text.filter (· ≠ nullChar)) := by
    induction text with
    | nil =>
        intro fuel _
        cases fuel <;> rfl
    | cons c text ih =>
        intro fuel enough
        have nonempty := List.length_pos_iff.2 (encodeValueChar_ne_nil c.toNat)
        have positive : 0 < (encodeChar c).length := nonempty
        rw [List.flatMap_cons, List.length_append] at enough
        cases fuel with
        | zero => omega
        | succ fuel =>
            obtain ⟨b, bytes, isCons⟩ := List.exists_cons_of_ne_nil (encodeValueChar_ne_nil c.toNat)
            have isCons' : encodeChar c = b :: bytes := isCons
            have round : ∀ p, p = encodeChar c ++ text.flatMap encodeChar →
                decodeValueWithin (fuel + 1) p = codepointToUtf8 (decodeValueChar p).1 ++
                  decodeValueWithin fuel (p.drop (decodeValueChar p).2) := by
              rintro p rfl
              rw [isCons', List.cons_append, decodeValueWithin]
              exact List.cons_ne_nil _ _
            have apart : (c :: text).filter (· ≠ nullChar) =
                [c].filter (· ≠ nullChar) ++ text.filter (· ≠ nullChar) :=
              List.filter_append [c] text
            rw [List.flatMap_cons, round _ rfl, decodeValueChar_encodeChar, List.drop_left,
              ih fuel (by omega), codepointToUtf8_char, apart, utf8, utf8, utf8,
              List.flatMap_append]
  rw [encodeValue_utf8]
  exact within _ le_rfl

/-- **An encoded value starts with another one** exactly when the value does. -/
theorem encodeValue_isPrefix_iff {text text' : List Char} :
    encodeValue (utf8 text) <+: encodeValue (utf8 text') ↔ utf8 text <+: utf8 text' := by
  rw [encodeValue_utf8, encodeValue_utf8, selfDelimiting_encodeChar.flatMap_isPrefix_iff,
    utf8_isPrefix_iff]

/-! ## Main result -/

/-- What a prefix search in a trie finds: the keys a text starts with. -/
def prefixSearch (keys : List ByteString) (text : ByteString) : List ByteString :=
  keys.filter fun key => key.isPrefixOf text

/-- **The value codec**: texts come back without their null characters, encoding keeps and reflects
prefixes, and a search for an encoded sentence finds the values that are prefixes of it. -/
theorem valueCodec :
    (∀ text, decodeValue (encodeValue (utf8 text)) = utf8 (text.filter (· ≠ nullChar))) ∧
      (∀ text text', encodeValue (utf8 text) <+: encodeValue (utf8 text') ↔
        utf8 text <+: utf8 text') ∧
      ∀ (values : List (List Char)) (sentence : List Char),
        prefixSearch (values.map fun value => encodeValue (utf8 value))
            (encodeValue (utf8 sentence)) =
          (prefixSearch (values.map utf8) (utf8 sentence)).map encodeValue := by
  refine ⟨decodeValue_encodeValue, fun _ _ => encodeValue_isPrefix_iff, fun values sentence => ?_⟩
  have same : (fun value => (encodeValue (utf8 value)).isPrefixOf (encodeValue (utf8 sentence))) =
      fun value => (utf8 value).isPrefixOf (utf8 sentence) := by
    funext value
    rw [Bool.eq_iff_iff, List.isPrefixOf_iff_prefix, List.isPrefixOf_iff_prefix]
    exact encodeValue_isPrefix_iff
  rw [prefixSearch, prefixSearch, List.filter_map, List.filter_map, List.map_map]
  exact congrArg (fun keep => (values.filter keep).map fun value => encodeValue (utf8 value)) same

/-- The null character does not come back. -/
theorem not_decodeValue_null :
    ¬ ∀ text, decodeValue (encodeValue (utf8 text)) = utf8 text := by
  intro roundTrips
  exact absurd (roundTrips [nullChar]) (by decide)

end Mozkey.Dictionary
