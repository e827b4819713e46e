import Mozkey.Base.Unicode

/-!
# Strict decoding of UTF-8

A text is decoded step by step, and each step takes the bytes that the decoder has seen.  The
well-formed sequences are the encodings of the Unicode characters.  What the decoder takes is such a
sequence, with its character, or a maximal subpart of an ill-formed one: as many bytes as begin
some well-formed sequence, or a single byte where none does.

The encoder replaces the numbers above 0x10FFFF by U+FFFD, but not the surrogates, which the decoder
refuses.  `decodesStrictly_iff` says that decoding is strict for every text, and that a number is
found again behind its encoding exactly when it is not a surrogate.
-/

namespace Mozkey

namespace Utf8Internal

/-! ## Encoding -/

/-- The loop of `EncodeSequence` over the trailing bytes. -/
def encodeTrailing (cp : UInt32) : Nat → ByteString
  | 0 => []
  | count + 1 =>
      (0x80 ||| ((cp >>> UInt32.ofNat (6 * count)).toUInt8 &&& 0x3F)) :: encodeTrailing cp count

/-- `EncodeResult::EncodeSequence`. -/
def encodeSequence (cp : UInt32) (count : Nat) (offset : UInt8) : ByteString :=
  ((cp >>> UInt32.ofNat (6 * count)) + offset.toUInt32).toUInt8 :: encodeTrailing cp count

/-- `Encode`, which encodes the replacement character for what is no code point. -/
def encode (cp : UInt32) : ByteString :=
  if cp ≤ 0x7F then [cp.toUInt8]
  else if cp ≤ 0x7FF then encodeSequence cp 1 0xC0
  else if cp ≤ 0xFFFF then encodeSequence cp 2 0xE0
  else if cp ≤ 0x10FFFF then encodeSequence cp 3 0xF0
  else encodeSequence 0xFFFD 2 0xE0

/-! ## Decoding with checks -/

/-- The loop of `DecodeSequence`, with the number of bytes it still reads. -/
def decodeTrailingChecked : Nat → Nat → Nat → ByteString → Option DecodeResult
  | 0, base, seen, _ => some (.continue_ base seen)
  | _ + 1, _, _, [] => none
  | left + 1, base, seen, c :: rest =>
      if isUtf8TrailingByte c then
        decodeTrailingChecked left (appendTrailingByte base c) (seen + 1) rest
      else some (.error seen)

/-- `DecodeSequence`, which has no result where it would read past the end. -/
def decodeSequenceChecked (needed : Nat) (leadingByte mask : UInt8) :
    ByteString → Option DecodeResult
  | [] => none
  | second :: rest =>
      if isValidSecondByte needed leadingByte second then
        decodeTrailingChecked (needed - 2)
          (appendTrailingByte (leadingByte &&& mask).toNat second) 2 rest
      else some (.error 1)

/-- `Decode`, which has no result where it would read past the end. -/
def decodeChecked : ByteString → Option DecodeResult
  | [] => some .sentinel
  | c :: rest =>
      if c < 0x80 then some (.continue_ c.toNat 1)
      else
        let needed := oneCharLen c
        if rest.length + 1 < needed then some (handleBufferTooShort c rest)
        else if needed = 3 then decodeSequenceChecked 3 c 0x0F rest
        else if needed = 2 then decodeSequenceChecked 2 c 0x1F rest
        else if needed = 4 then decodeSequenceChecked 4 c 0x07 rest
        else some (.error 1)

/-! ## Decoding a text -/

/-- The steps of a `Utf8CharIterator`, as many as the fuel admits. -/
def decodeAllWithin : Nat → ByteString → List DecodeResult
  | 0, _ => []
  | _ + 1, [] => []
  | fuel + 1, c :: sv =>
      let dr := decode (c :: sv)
      dr :: decodeAllWithin fuel ((c :: sv).drop dr.bytesSeen)

/-- The steps over a whole text. -/
def decodeAll (sv : ByteString) : List DecodeResult := decodeAllWithin sv.length sv

/-! ## What strict decoding is -/

/-- The bytes begin a well-formed sequence. -/
def Begins (bytes : ByteString) : Prop := ∃ c : Char, bytes <+: String.utf8EncodeChar c

/-- **A maximal subpart** of an ill-formed sequence at the front of a text: the longest part that
begins a well-formed sequence, or a single byte. -/
structure MaximalSubpart (sv : ByteString) (n : Nat) : Prop where
  illFormed : ∀ c : Char, ¬ String.utf8EncodeChar c <+: sv
  positive : 0 < n
  inside : n ≤ sv.length
  begins : n = 1 ∨ Begins (sv.take n)
  longest : ∀ m, n < m → m ≤ sv.length → ¬ Begins (sv.take m)

/-- One step: a character and its encoding, or a maximal subpart of an ill-formed sequence.  In both
cases nothing past the end is read. -/
structure StrictStep (sv : ByteString) (dr : DecodeResult) : Prop where
  result : decodeChecked sv = some dr
  character : dr.ok = true → ∃ c : Char, dr.codePoint = c.toNat ∧ 0 < dr.bytesSeen ∧
    dr.bytesSeen ≤ sv.length ∧ sv.take dr.bytesSeen = String.utf8EncodeChar c
  error : dr.ok = false → dr.codePoint = kReplacementCharacter ∧ MaximalSubpart sv dr.bytesSeen

/-- **The steps take the whole text**, and each of them is strict. -/
inductive DecodesStrictly : ByteString → List DecodeResult → Prop where
  | nil : DecodesStrictly [] []
  | cons {sv : ByteString} {dr : DecodeResult} {steps : List DecodeResult} (step : StrictStep sv dr)
      (rest : DecodesStrictly (sv.drop dr.bytesSeen) steps) : DecodesStrictly sv (dr :: steps)

/-- A number is found again behind its encoding, or the replacement character where the number is
not that of a character. -/
def EncodesBack (cp : UInt32) : Prop :=
  decode (encode cp)
    = .continue_ (if cp.toNat.isValidChar then cp.toNat else kReplacementCharacter)
        (encode cp).length

def IsSurrogate (cp : UInt32) : Prop := 0xD800 ≤ cp ∧ cp ≤ 0xDFFF

/-! ## Well-formed sequences -/

/-- **The well-formed sequences**, with their code points: the bits of the leading byte and of the
trailing bytes, where the second byte is restricted behind some leading bytes. -/
inductive Sequence : Nat → ByteString → Prop where
  | one {n : Nat} (less : n < 0x80) : Sequence n [UInt8.ofNat n]
  | two {a b : Nat} (least : 2 ≤ a) (less : a < 32) (less₁ : b < 64) :
      Sequence (a * 64 + b) [UInt8.ofNat (a + 0xC0), UInt8.ofNat (b + 0x80)]
  | three {a b c : Nat} (less : a < 16) (less₁ : b < 64) (less₂ : c < 64) (least : a = 0 → 32 ≤ b)
      (noSurrogate : a = 13 → b < 32) :
      Sequence ((a * 64 + b) * 64 + c)
        [UInt8.ofNat (a + 0xE0), UInt8.ofNat (b + 0x80), UInt8.ofNat (c + 0x80)]
  | four {a b c d : Nat} (less : a < 5) (less₁ : b < 64) (less₂ : c < 64) (less₃ : d < 64)
      (least : a = 0 → 16 ≤ b) (most : a = 4 → b < 16) :
      Sequence (((a * 64 + b) * 64 + c) * 64 + d)
        [UInt8.ofNat (a + 0xF0), UInt8.ofNat (b + 0x80), UInt8.ofNat (c + 0x80),
          UInt8.ofNat (d + 0x80)]

theorem exists_char_of_valid {v : Nat} (valid : v.isValidChar) : ∃ c : Char, c.toNat = v :=
  ⟨Char.ofNatAux v valid, rfl⟩

/-- A well-formed sequence is the encoding of its character. -/
theorem Sequence.exists_char {v : Nat} {bytes : ByteString} (sequence : Sequence v bytes) :
    ∃ c : Char, c.toNat = v ∧ bytes = String.utf8EncodeChar c := by
  cases sequence with
  | one less =>
      obtain ⟨ch, value⟩ := exists_char_of_valid (show v.isValidChar from .inl (by omega))
      refine ⟨ch, value, ?_⟩
      have value' : ch.val.toNat = v := value
      simp only [String.utf8EncodeChar, value']
      rw [if_pos (by omega)]
  | @two a b least less less₁ =>
      obtain ⟨ch, value⟩ := exists_char_of_valid (show (a * 64 + b).isValidChar from .inl (by omega))
      refine ⟨ch, value, ?_⟩
      have value' : ch.val.toNat = a * 64 + b := value
      have first : (a * 64 + b) / 64 % 0x20 = a := by omega
      have second : (a * 64 + b) % 0x40 = b := by omega
      simp only [String.utf8EncodeChar, value']
      rw [if_neg (by omega), if_pos (by omega), first, second]
  | @three a b c less less₁ less₂ least noSurrogate =>
      obtain ⟨ch, value⟩ := exists_char_of_valid (show ((a * 64 + b) * 64 + c).isValidChar by
        by_cases low : (a * 64 + b) * 64 + c < 0xD800
        · exact .inl low
        · exact .inr ⟨by omega, by omega⟩)
      refine ⟨ch, value, ?_⟩
      have value' : ch.val.toNat = (a * 64 + b) * 64 + c := value
      have first : ((a * 64 + b) * 64 + c) / 4096 % 0x10 = a := by omega
      have second : ((a * 64 + b) * 64 + c) / 64 % 0x40 = b := by omega
      have third : ((a * 64 + b) * 64 + c) % 0x40 = c := by omega
      simp only [String.utf8EncodeChar, value']
      rw [if_neg (by omega), if_neg (by omega), if_pos (by omega), first, second, third]
  | @four a b c d less less₁ less₂ less₃ least most =>
      obtain ⟨ch, value⟩ := exists_char_of_valid
        (show (((a * 64 + b) * 64 + c) * 64 + d).isValidChar from .inr ⟨by omega, by omega⟩)
      refine ⟨ch, value, ?_⟩
      have value' : ch.val.toNat = ((a * 64 + b) * 64 + c) * 64 + d := value
      have first : (((a * 64 + b) * 64 + c) * 64 + d) / 262144 % 0x08 = a := by omega
      have second : (((a * 64 + b) * 64 + c) * 64 + d) / 4096 % 0x40 = b := by omega
      have third : (((a * 64 + b) * 64 + c) * 64 + d) / 64 % 0x40 = c := by omega
      have fourth : (((a * 64 + b) * 64 + c) * 64 + d) % 0x40 = d := by omega
      simp only [String.utf8EncodeChar, value']
      rw [if_neg (by omega), if_neg (by omega), if_neg (by omega), first, second, third, fourth]

/-- The encoding of a character is a well-formed sequence. -/
theorem sequence_utf8EncodeChar (ch : Char) : Sequence ch.toNat (String.utf8EncodeChar ch) := by
  have valid : ch.toNat.isValidChar := ch.valid
  have value : ch.val.toNat = ch.toNat := rfl
  have bounds : ch.toNat < 0x110000 ∧ ¬ (0xD800 ≤ ch.toNat ∧ ch.toNat ≤ 0xDFFF) := by
    rcases valid with low | ⟨above, below⟩ <;> omega
  generalize ch.toNat = v at value bounds
  simp only [String.utf8EncodeChar, value]
  split
  · exact .one (by omega)
  split
  · have parts : v = v / 64 % 0x20 * 64 + v % 0x40 := by omega
    nth_rewrite 1 [parts]
    exact .two (by omega) (by omega) (by omega)
  split
  · have parts : v = (v / 4096 % 0x10 * 64 + v / 64 % 0x40) * 64 + v % 0x40 := by omega
    nth_rewrite 1 [parts]
    exact .three (by omega) (by omega) (by omega) (by omega) (by omega)
  · have parts : v = ((v / 262144 % 0x08 * 64 + v / 4096 % 0x40) * 64 + v / 64 % 0x40) * 64
        + v % 0x40 := by omega
    nth_rewrite 1 [parts]
    exact .four (by omega) (by omega) (by omega) (by omega) (by omega) (by omega)

/-! ## The tables -/

/-- The smallest and the largest second byte. -/
def secondLeast (lead : UInt8) : Nat := (secondByteBoundary lead).1.toNat
def secondMost (lead : UInt8) : Nat := (secondByteBoundary lead).2.toNat

/-- What the tables say of each byte. -/
theorem byte_tables (c : UInt8) :
    (isUtf8TrailingByte c = true → 0x80 ≤ c.toNat ∧ c.toNat < 0xC0) ∧
    ((oneCharLen c = 1 ∧ secondByteBoundary c = (0xFF, 0x00)) ∨
      (oneCharLen c = 2 ∧ 0xC2 ≤ c.toNat ∧ c.toNat < 0xE0) ∨
      (oneCharLen c = 3 ∧ 0xE0 ≤ c.toNat ∧ c.toNat < 0xF0) ∨
      (oneCharLen c = 4 ∧ 0xF0 ≤ c.toNat ∧ c.toNat < 0xF5)) ∧
    (secondMost c < secondLeast c ∨ 0x80 ≤ secondLeast c ∧ secondMost c < 0xC0) ∧
    0x80 ||| (c &&& 0x3F) = UInt8.ofNat (c.toNat % 64 + 0x80) := by
  revert c
  apply byte_forall
  decide +kernel

theorem trailing_ofNat {b : Nat} (less : b < 64) :
    isUtf8TrailingByte (UInt8.ofNat (b + 0x80)) = true ∧
      (UInt8.ofNat (b + 0x80) &&& 0x3F).toNat = b := by
  revert b
  decide

theorem exists_trailing {c : UInt8} (isTrailing : isUtf8TrailingByte c = true) :
    ∃ b, b < 64 ∧ c = UInt8.ofNat (b + 0x80) := by
  obtain ⟨least, less⟩ := (byte_tables c).1 isTrailing
  refine ⟨c.toNat - 0x80, by omega, ?_⟩
  rw [Nat.sub_add_cancel least, UInt8.ofNat_toNat]

/-- What the table of lengths tells of a leading byte. -/
theorem oneCharLen_cases (lead : UInt8) :
    (oneCharLen lead = 1 ∧ secondByteBoundary lead = (0xFF, 0x00)) ∨
    (oneCharLen lead = 2 ∧ ∃ a, 2 ≤ a ∧ a < 32 ∧ lead = UInt8.ofNat (a + 0xC0)) ∨
    (oneCharLen lead = 3 ∧ ∃ a, a < 16 ∧ lead = UInt8.ofNat (a + 0xE0)) ∨
    (oneCharLen lead = 4 ∧ ∃ a, a < 5 ∧ lead = UInt8.ofNat (a + 0xF0)) := by
  rcases (byte_tables lead).2.1 with one | ⟨len, least, less⟩ | ⟨len, least, less⟩ | ⟨len, least, less⟩
  · exact .inl one
  · refine .inr (.inl ⟨len, lead.toNat - 0xC0, by omega, by omega, ?_⟩)
    rw [Nat.sub_add_cancel (by omega), UInt8.ofNat_toNat]
  · refine .inr (.inr (.inl ⟨len, lead.toNat - 0xE0, by omega, ?_⟩))
    rw [Nat.sub_add_cancel least, UInt8.ofNat_toNat]
  · refine .inr (.inr (.inr ⟨len, lead.toNat - 0xF0, by omega, ?_⟩))
    rw [Nat.sub_add_cancel least, UInt8.ofNat_toNat]

section Lead

variable {a b : Nat}

theorem lead_one (less : a < 0x80) :
    UInt8.ofNat a < 0x80 ∧ oneCharLen (UInt8.ofNat a) = 1 := by
  revert a
  decide

theorem lead_two (less : a < 32) (least : 2 ≤ a) :
    ¬ UInt8.ofNat (a + 0xC0) < 0x80 ∧ oneCharLen (UInt8.ofNat (a + 0xC0)) = 2 ∧
      (UInt8.ofNat (a + 0xC0) &&& 0x1F).toNat = a ∧
        secondLeast (UInt8.ofNat (a + 0xC0)) = 0x80 ∧ secondMost (UInt8.ofNat (a + 0xC0)) = 0xBF := by
  revert a
  decide

theorem lead_three (less : a < 16) :
    ¬ UInt8.ofNat (a + 0xE0) < 0x80 ∧ oneCharLen (UInt8.ofNat (a + 0xE0)) = 3 ∧
      (UInt8.ofNat (a + 0xE0) &&& 0x0F).toNat = a ∧
        secondLeast (UInt8.ofNat (a + 0xE0)) = (if a = 0 then 0xA0 else 0x80) ∧
          secondMost (UInt8.ofNat (a + 0xE0)) = (if a = 13 then 0x9F else 0xBF) := by
  revert a
  decide

theorem lead_four (less : a < 5) :
    ¬ UInt8.ofNat (a + 0xF0) < 0x80 ∧ oneCharLen (UInt8.ofNat (a + 0xF0)) = 4 ∧
      (UInt8.ofNat (a + 0xF0) &&& 0x07).toNat = a ∧
        secondLeast (UInt8.ofNat (a + 0xF0)) = (if a = 0 then 0x90 else 0x80) ∧
          secondMost (UInt8.ofNat (a + 0xF0)) = (if a = 4 then 0x8F else 0xBF) := by
  revert a
  decide

theorem isValidSecondByte_iff (lead second : UInt8) :
    isValidSecondByte 0 lead second = true ↔
      secondLeast lead ≤ second.toNat ∧ second.toNat ≤ secondMost lead := by
  simp [isValidSecondByte, secondLeast, secondMost, UInt8.le_iff_toNat_le]

/-- A second byte is a trailing byte. -/
theorem exists_second {lead second : UInt8} (valid : isValidSecondByte 0 lead second = true) :
    ∃ b, b < 64 ∧ second = UInt8.ofNat (b + 0x80) := by
  obtain ⟨least, most⟩ := (isValidSecondByte_iff lead second).1 valid
  rcases (byte_tables lead).2.2.1 with none_ | range
  · omega
  · refine ⟨second.toNat - 0x80, by omega, ?_⟩
    rw [Nat.sub_add_cancel (by omega), UInt8.ofNat_toNat]

theorem second_ofNat (lead : UInt8) (less : b < 64) :
    isValidSecondByte 0 lead (UInt8.ofNat (b + 0x80)) = true ↔
      secondLeast lead ≤ b + 0x80 ∧ b + 0x80 ≤ secondMost lead := by
  rw [isValidSecondByte_iff, UInt8.toNat_ofNat', Nat.mod_eq_of_lt (by omega)]

/-- The second bytes behind a leading byte of two. -/
theorem second_two (less : a < 32) (least : 2 ≤ a) (lessB : b < 64) :
    isValidSecondByte 0 (UInt8.ofNat (a + 0xC0)) (UInt8.ofNat (b + 0x80)) = true := by
  obtain ⟨_, _, _, lo, hi⟩ := lead_two less least
  rw [second_ofNat _ lessB, lo, hi]
  omega

/-- The second bytes behind a leading byte of three. -/
theorem second_three (less : a < 16) (lessB : b < 64) :
    isValidSecondByte 0 (UInt8.ofNat (a + 0xE0)) (UInt8.ofNat (b + 0x80)) = true ↔
      (a = 0 → 32 ≤ b) ∧ (a = 13 → b < 32) := by
  obtain ⟨_, _, _, lo, hi⟩ := lead_three less
  rw [second_ofNat _ lessB, lo, hi]
  split <;> split <;> omega

/-- The second bytes behind a leading byte of four. -/
theorem second_four (less : a < 5) (lessB : b < 64) :
    isValidSecondByte 0 (UInt8.ofNat (a + 0xF0)) (UInt8.ofNat (b + 0x80)) = true ↔
      (a = 0 → 16 ≤ b) ∧ (a = 4 → b < 16) := by
  obtain ⟨_, _, _, lo, hi⟩ := lead_four less
  rw [second_ofNat _ lessB, lo, hi]
  split <;> split <;> omega

end Lead

/-! ## What begins a well-formed sequence -/

/-- The bytes begin a well-formed sequence, by the tables. -/
def begins : ByteString → Bool
  | [] => true
  | [lead] => lead < 0x80 || decide (2 ≤ oneCharLen lead)
  | lead :: second :: rest =>
      isValidSecondByte 0 lead second && decide (rest.length + 2 ≤ oneCharLen lead)
        && rest.all isUtf8TrailingByte

/-- Where bytes begin a sequence, fewer of them do. -/
theorem begins_of_prefix {bytes front : ByteString} (isBegin : begins bytes = true)
    (isFront : front <+: bytes) : begins front = true := by
  obtain ⟨back, rfl⟩ := isFront
  match front with
  | [] => rfl
  | [lead] =>
      cases back with
      | nil => exact isBegin
      | cons second rest =>
          simp only [List.cons_append, List.nil_append, begins, Bool.and_eq_true,
            decide_eq_true_eq] at isBegin
          simp only [begins, Bool.or_eq_true, decide_eq_true_eq]
          exact .inr (by omega)
  | lead :: second :: rest =>
      simp only [List.cons_append, begins, Bool.and_eq_true, decide_eq_true_eq, List.length_append,
        List.all_append] at isBegin ⊢
      exact ⟨⟨isBegin.1.1, by omega⟩, isBegin.2.1⟩

/-- A well-formed sequence begins one, and has the length of the table. -/
theorem Sequence.begins {v : Nat} {bytes : ByteString} (sequence : Sequence v bytes) :
    begins bytes = true ∧ ∃ lead rest, bytes = lead :: rest ∧ bytes.length = oneCharLen lead := by
  cases sequence with
  | one less =>
      obtain ⟨small, len⟩ := lead_one less
      exact ⟨by simp [Utf8Internal.begins, small], _, _, rfl, len.symm⟩
  | @two a b least less less₁ =>
      obtain ⟨_, len, _⟩ := lead_two less least
      refine ⟨?_, _, _, rfl, len.symm⟩
      simp only [Utf8Internal.begins, second_two less least less₁, len]
      rfl
  | @three a b c less less₁ less₂ least noSurrogate =>
      obtain ⟨_, len, _⟩ := lead_three less
      refine ⟨?_, _, _, rfl, len.symm⟩
      simp only [Utf8Internal.begins, (second_three less less₁).2 ⟨least, noSurrogate⟩, len,
        List.all_cons, (trailing_ofNat less₂).1]
      rfl
  | @four a b c d less less₁ less₂ less₃ least most =>
      obtain ⟨_, len, _⟩ := lead_four less
      refine ⟨?_, _, _, rfl, len.symm⟩
      simp only [Utf8Internal.begins, (second_four less less₁).2 ⟨least, most⟩, len, List.all_cons,
        (trailing_ofNat less₂).1, (trailing_ofNat less₃).1]
      rfl

/-- A leading byte can be completed. -/
theorem exists_sequence_lead {lead : UInt8} (isBegin : begins [lead] = true) :
    ∃ v full, Sequence v full ∧ [lead] <+: full := by
  simp only [begins, Bool.or_eq_true, decide_eq_true_eq] at isBegin
  rcases isBegin with small | long
  · refine ⟨lead.toNat, [lead], ?_, List.prefix_rfl⟩
    have sequence := Sequence.one (UInt8.lt_iff_toNat_lt.1 small)
    rwa [UInt8.ofNat_toNat] at sequence
  rcases oneCharLen_cases lead with ⟨len, _⟩ | ⟨_, a, least, less, rfl⟩ | ⟨_, a, less, rfl⟩ |
    ⟨_, a, less, rfl⟩
  · omega
  · exact ⟨_, _, .two least less (show 0 < 64 by decide), [_], rfl⟩
  · by_cases zero : a = 0
    · exact ⟨_, _, @Sequence.three a 32 0 less (by omega) (by omega) (by omega) (by omega), [_, _], rfl⟩
    · exact ⟨_, _, @Sequence.three a 0 0 less (by omega) (by omega) (by omega) (by omega), [_, _], rfl⟩
  · by_cases zero : a = 0
    · exact ⟨_, _, @Sequence.four a 16 0 0 less (by omega) (by omega) (by omega) (by omega) (by omega),
        [_, _, _], rfl⟩
    · exact ⟨_, _, @Sequence.four a 0 0 0 less (by omega) (by omega) (by omega) (by omega) (by omega),
        [_, _, _], rfl⟩

/-- A leading byte of three and a second byte can be completed. -/
theorem exists_sequence_three {a b : Nat} (less : a < 16) (less₁ : b < 64) {rest : ByteString}
    (valid : isValidSecondByte 0 (UInt8.ofNat (a + 0xE0)) (UInt8.ofNat (b + 0x80)) = true)
    (short : rest.length ≤ 1) (trailing : rest.all isUtf8TrailingByte = true) :
    ∃ v full, Sequence v full ∧ UInt8.ofNat (a + 0xE0) :: UInt8.ofNat (b + 0x80) :: rest <+: full := by
  obtain ⟨least, noSurrogate⟩ := (second_three less less₁).1 valid
  match rest with
  | [] => exact ⟨_, _, .three less less₁ (show 0 < 64 by decide) least noSurrogate, [_], rfl⟩
  | [third] =>
      simp only [List.all_cons, List.all_nil, Bool.and_true] at trailing
      obtain ⟨c, less₂, rfl⟩ := exists_trailing trailing
      exact ⟨_, _, .three less less₁ less₂ least noSurrogate, List.prefix_rfl⟩
  | _ :: _ :: _ => simp at short

/-- A leading byte of four and a second byte can be completed. -/
theorem exists_sequence_four {a b : Nat} (less : a < 5) (less₁ : b < 64) {rest : ByteString}
    (valid : isValidSecondByte 0 (UInt8.ofNat (a + 0xF0)) (UInt8.ofNat (b + 0x80)) = true)
    (short : rest.length ≤ 2) (trailing : rest.all isUtf8TrailingByte = true) :
    ∃ v full, Sequence v full ∧ UInt8.ofNat (a + 0xF0) :: UInt8.ofNat (b + 0x80) :: rest <+: full := by
  obtain ⟨least, most⟩ := (second_four less less₁).1 valid
  match rest with
  | [] =>
      exact ⟨_, _, .four less less₁ (show 0 < 64 by decide) (show 0 < 64 by decide) least most,
        [_, _], rfl⟩
  | [third] =>
      simp only [List.all_cons, List.all_nil, Bool.and_true] at trailing
      obtain ⟨c, less₂, rfl⟩ := exists_trailing trailing
      exact ⟨_, _, .four less less₁ less₂ (show 0 < 64 by decide) least most, [_], rfl⟩
  | [third, fourth] =>
      simp only [List.all_cons, List.all_nil, Bool.and_true, Bool.and_eq_true] at trailing
      obtain ⟨c, less₂, rfl⟩ := exists_trailing trailing.1
      obtain ⟨d, less₃, rfl⟩ := exists_trailing trailing.2
      exact ⟨_, _, .four less less₁ less₂ less₃ least most, List.prefix_rfl⟩
  | _ :: _ :: _ :: _ => simp at short

/-- **What begins a sequence by the tables** can be completed. -/
theorem exists_sequence {bytes : ByteString} (isBegin : begins bytes = true) (nonempty : bytes ≠ []) :
    ∃ v full, Sequence v full ∧ bytes <+: full := by
  match bytes with
  | [] => exact absurd rfl nonempty
  | [lead] => exact exists_sequence_lead isBegin
  | lead :: second :: rest =>
      simp only [begins, Bool.and_eq_true, decide_eq_true_eq] at isBegin
      obtain ⟨⟨valid, short⟩, trailing⟩ := isBegin
      obtain ⟨b, less₁, rfl⟩ := exists_second valid
      rcases oneCharLen_cases lead with ⟨len, _⟩ | ⟨len, a, least, less, rfl⟩ | ⟨len, a, less, rfl⟩ |
        ⟨len, a, less, rfl⟩
      · omega
      · obtain rfl := List.length_eq_zero_iff.1 (show rest.length = 0 by omega)
        exact ⟨_, _, .two least less less₁, List.prefix_rfl⟩
      · exact exists_sequence_three less less₁ valid (by omega) trailing
      · exact exists_sequence_four less less₁ valid (by omega) trailing

/-- The tables tell what begins the encoding of a character. -/
theorem begins_iff {bytes : ByteString} (nonempty : bytes ≠ []) :
    Begins bytes ↔ begins bytes = true := by
  constructor
  · rintro ⟨ch, front⟩
    exact begins_of_prefix (sequence_utf8EncodeChar ch).begins.1 front
  · intro isBegin
    obtain ⟨v, full, sequence, front⟩ := exists_sequence isBegin nonempty
    obtain ⟨ch, _, rfl⟩ := sequence.exists_char
    exact ⟨ch, front⟩

/-- Bytes that begin a sequence and have the length of the table are one. -/
theorem sequence_of_begins {lead : UInt8} {rest : ByteString}
    (isBegin : begins (lead :: rest) = true) (length : rest.length + 1 = oneCharLen lead) :
    ∃ v, Sequence v (lead :: rest) := by
  obtain ⟨v, full, sequence, back, rfl⟩ := exists_sequence isBegin (List.cons_ne_nil _ _)
  obtain ⟨_, lead', rest', whole, full⟩ := sequence.begins
  rw [List.cons_append, List.cons.injEq] at whole
  obtain ⟨rfl, rfl⟩ := whole
  simp only [List.cons_append, List.length_cons, List.length_append] at full
  obtain rfl := List.length_eq_zero_iff.1 (show back.length = 0 by omega)
  rw [List.append_nil] at sequence
  exact ⟨v, sequence⟩

/-! ## Decoding one sequence -/

/-- The trailing bytes are taken as far as they are some. -/
theorem decodeTrailing_eq (base seen : Nat) (bytes : ByteString) :
    decodeTrailing base seen bytes = if bytes.all isUtf8TrailingByte then
        .continue_ (bytes.foldl appendTrailingByte base) (seen + bytes.length)
      else .error (seen + (bytes.takeWhile isUtf8TrailingByte).length) := by
  induction bytes generalizing base seen with
  | nil => rfl
  | cons c bytes ih =>
      rw [decodeTrailing]
      by_cases trailing : isUtf8TrailingByte c = true
      · rw [if_pos trailing, ih]
        simp only [List.all_cons, trailing, Bool.true_and, List.foldl_cons, List.takeWhile_cons,
          if_true, List.length_cons, Nat.add_assoc, Nat.add_comm 1]
      · simp [trailing]

/-- The bits of a leading byte. -/
def maskOf (needed : Nat) : UInt8 := if needed = 2 then 0x1F else if needed = 3 then 0x0F else 0x07

/-- The short cut for sequences of two bytes agrees with the table. -/
theorem isValidSecondByte_eq (lead second : UInt8) (long : 2 ≤ oneCharLen lead) :
    isValidSecondByte (oneCharLen lead) lead second = isValidSecondByte 0 lead second := by
  by_cases two : oneCharLen lead = 2
  · rcases oneCharLen_cases lead with ⟨len, _⟩ | ⟨_, a, least, less, rfl⟩ | ⟨len, _⟩ | ⟨len, _⟩
    · omega
    · rw [two, isValidSecondByte, if_pos rfl, Bool.eq_iff_iff]
      constructor
      · intro trailing
        obtain ⟨b, lessB, rfl⟩ := exists_trailing trailing
        exact second_two less least lessB
      · intro valid
        obtain ⟨b, lessB, rfl⟩ := exists_second valid
        exact (trailing_ofNat lessB).1
    · omega
    · omega
  · simp [isValidSecondByte, two]

theorem not_ascii_of_long {lead : UInt8} (long : 2 ≤ oneCharLen lead) : ¬ lead < 0x80 := by
  intro small
  have short : oneCharLen lead = 1 := by
    have := (lead_one (UInt8.lt_iff_toNat_lt.1 small)).2
    rwa [UInt8.ofNat_toNat] at this
  omega

/-- A leading byte of a longer sequence, with too few bytes behind it, or with enough of them. -/
theorem decode_long {lead : UInt8} {rest : ByteString} (long : 2 ≤ oneCharLen lead) :
    decode (lead :: rest) = if rest.length + 1 < oneCharLen lead then handleBufferTooShort lead rest
      else decodeSequence (oneCharLen lead) lead (maskOf (oneCharLen lead)) rest := by
  rw [decode, if_neg (not_ascii_of_long long)]
  dsimp only
  split
  · rfl
  · rcases oneCharLen_cases lead with ⟨len, _⟩ | ⟨len, _⟩ | ⟨len, _⟩ | ⟨len, _⟩
    · omega
    all_goals simp [len, maskOf]

/-- No second byte, or one that does not fit. -/
theorem decode_noSecond {lead : UInt8} {rest : ByteString} (long : 2 ≤ oneCharLen lead)
    (noSecond : ∀ second ∈ rest.head?, isValidSecondByte 0 lead second = false) :
    decode (lead :: rest) = .error 1 := by
  rw [decode_long long]
  cases rest with
  | nil =>
      simp [handleBufferTooShort, decodeSequence]
  | cons second rest =>
      have invalid := noSecond second rfl
      simp [handleBufferTooShort, decodeSequence, isValidSecondByte_eq lead second long, invalid]

/-- A second byte that fits. -/
theorem decode_second {lead second : UInt8} {rest : ByteString} (long : 2 ≤ oneCharLen lead)
    (valid : isValidSecondByte 0 lead second = true) :
    decode (lead :: second :: rest) =
      let trailing := rest.take (oneCharLen lead - 2)
      if oneCharLen lead ≤ rest.length + 2 ∧ trailing.all isUtf8TrailingByte = true then
        .continue_ (trailing.foldl appendTrailingByte
          (appendTrailingByte (lead &&& maskOf (oneCharLen lead)).toNat second)) (oneCharLen lead)
      else .error (2 + (trailing.takeWhile isUtf8TrailingByte).length) := by
  rw [decode_long long, List.length_cons]
  by_cases short : rest.length + 1 + 1 < oneCharLen lead
  · have whole : rest.take (oneCharLen lead - 2) = rest := List.take_of_length_le (by omega)
    rw [if_pos short, handleBufferTooShort, if_pos valid]
    dsimp only
    rw [whole, if_neg (by omega)]
  · have length : (rest.take (oneCharLen lead - 2)).length = oneCharLen lead - 2 := by
      rw [List.length_take]
      omega
    rw [if_neg short, decodeSequence, isValidSecondByte_eq lead second long, if_pos valid,
      decodeTrailing_eq, length]
    dsimp only
    by_cases all : (rest.take (oneCharLen lead - 2)).all isUtf8TrailingByte = true
    · rw [if_pos all, if_pos ⟨by omega, all⟩, show 2 + (oneCharLen lead - 2) = oneCharLen lead by omega]
    · rw [if_neg all, if_neg fun both => all both.2]

theorem appendTrailingByte_ofNat (base : Nat) {b : Nat} (less : b < 64) :
    appendTrailingByte base (UInt8.ofNat (b + 0x80)) = base * 64 + b := by
  rw [appendTrailingByte, (trailing_ofNat less).2]

/-- **A well-formed sequence** is decoded to its code point. -/
theorem decode_sequence {v : Nat} {bytes : ByteString} (sequence : Sequence v bytes)
    (rest : ByteString) : decode (bytes ++ rest) = .continue_ v bytes.length := by
  cases sequence with
  | one less =>
      have value : (UInt8.ofNat v).toNat = v := by
        rw [UInt8.toNat_ofNat', Nat.mod_eq_of_lt (by omega)]
      rw [List.singleton_append, decode, if_pos (lead_one less).1, value]
      rfl
  | @two a b least less less₁ =>
      obtain ⟨_, len, bits, _⟩ := lead_two less least
      rw [List.cons_append, List.singleton_append,
        decode_second (by omega) (second_two less least less₁), len]
      simp only [Nat.sub_self, List.take_zero, List.all_nil, List.foldl_nil, maskOf, if_true, bits,
        appendTrailingByte_ofNat _ less₁, Nat.le_add_left, and_self]
      rfl
  | @three a b c less less₁ less₂ least noSurrogate =>
      obtain ⟨_, len, bits, _⟩ := lead_three less
      rw [List.cons_append, List.cons_append, List.singleton_append,
        decode_second (by omega) ((second_three less less₁).2 ⟨least, noSurrogate⟩), len]
      simp only [List.take_succ_cons, List.take_zero, List.all_cons, (trailing_ofNat less₂).1,
        List.all_nil, List.foldl_cons, List.foldl_nil, List.length_cons,
        show maskOf 3 = 0x0F from rfl, bits, appendTrailingByte_ofNat _ less₁,
        appendTrailingByte_ofNat _ less₂]
      rw [if_pos ⟨by omega, rfl⟩]
      rfl
  | @four a b c d less less₁ less₂ less₃ least most =>
      obtain ⟨_, len, bits, _⟩ := lead_four less
      rw [List.cons_append, List.cons_append, List.cons_append, List.singleton_append,
        decode_second (by omega) ((second_four less less₁).2 ⟨least, most⟩), len]
      simp only [List.take_succ_cons, List.take_zero, List.all_cons, (trailing_ofNat less₂).1,
        (trailing_ofNat less₃).1, List.all_nil, List.foldl_cons, List.foldl_nil, List.length_cons,
        show maskOf 4 = 0x07 from rfl, bits, appendTrailingByte_ofNat _ less₁,
        appendTrailingByte_ofNat _ less₂, appendTrailingByte_ofNat _ less₃]
      rw [if_pos ⟨by omega, rfl⟩]
      rfl

/-! ## Nothing is read past the end -/

theorem decodeTrailingChecked_eq {left : Nat} {bytes : ByteString} (enough : left ≤ bytes.length)
    (base seen : Nat) :
    decodeTrailingChecked left base seen bytes = some (decodeTrailing base seen (bytes.take left)) := by
  induction left generalizing base seen bytes with
  | zero => rw [decodeTrailingChecked, List.take_zero, decodeTrailing]
  | succ left ih =>
      cases bytes with
      | nil => simp at enough
      | cons c bytes =>
          rw [decodeTrailingChecked, List.take_succ_cons, decodeTrailing]
          split
          · exact ih (Nat.le_of_succ_le_succ enough) _ _
          · rfl

theorem decodeSequenceChecked_eq {needed : Nat} {rest : ByteString} (least : 2 ≤ needed)
    (enough : needed ≤ rest.length + 1) (lead mask : UInt8) :
    decodeSequenceChecked needed lead mask rest = some (decodeSequence needed lead mask rest) := by
  cases rest with
  | nil =>
      rw [List.length_nil] at enough
      omega
  | cons second rest =>
      rw [List.length_cons] at enough
      rw [decodeSequenceChecked, decodeSequence]
      split
      · exact decodeTrailingChecked_eq (by omega) _ _
      · rfl

/-- **The decoder reads nothing past the end.** -/
theorem decodeChecked_eq (sv : ByteString) : decodeChecked sv = some (decode sv) := by
  cases sv with
  | nil => rfl
  | cons c rest =>
      rw [decodeChecked, decode]
      split
      · rfl
      dsimp only
      split
      · rfl
      next enough =>
      split
      · next three => exact decodeSequenceChecked_eq (by decide) (by omega) _ _
      split
      · next two => exact decodeSequenceChecked_eq (by decide) (by omega) _ _
      split
      · next four => exact decodeSequenceChecked_eq (by decide) (by omega) _ _
      · rfl

/-! ## One step -/

theorem le_length_takeWhile {α : Type*} {p : α → Bool} {l : List α} {j : Nat} (le : j ≤ l.length)
    (all : (l.take j).all p = true) : j ≤ (l.takeWhile p).length := by
  have front : (l.take j ++ l.drop j).takeWhile p = l.take j ++ (l.drop j).takeWhile p :=
    List.takeWhile_append_of_pos (List.all_eq_true.1 all)
  rw [List.take_append_drop] at front
  rw [front, List.length_append, List.length_take, Nat.min_eq_left le]
  exact Nat.le_add_right _ _

/-- A byte behind which nothing goes on. -/
theorem maximalSubpart_one {lead : UInt8} {rest : ByteString}
    (illFormed : ∀ c : Char, ¬ String.utf8EncodeChar c <+: lead :: rest)
    (noSecond : ∀ second ∈ rest.head?, isValidSecondByte 0 lead second = false) :
    MaximalSubpart (lead :: rest) 1 where
  illFormed := illFormed
  positive := Nat.one_pos
  inside := Nat.succ_le_succ (Nat.zero_le _)
  begins := .inl rfl
  longest := by
    intro m above inside isBegin
    cases rest with
    | nil =>
        rw [List.length_singleton] at inside
        omega
    | cons second rest =>
        obtain ⟨k, rfl⟩ := Nat.exists_eq_add_of_le' above
        rw [List.take_succ_cons, List.take_succ_cons] at isBegin
        have valid := (begins_iff (List.cons_ne_nil _ _)).1 isBegin
        simp [begins, noSecond second rfl] at valid

/-- **A maximal subpart** is taken where no well-formed sequence stands in front. -/
theorem decode_illFormed {sv : ByteString} (nonempty : sv ≠ [])
    (illFormed : ∀ c : Char, ¬ String.utf8EncodeChar c <+: sv) :
    ∃ n, decode sv = .error n ∧ MaximalSubpart sv n := by
  obtain ⟨lead, rest, rfl⟩ := List.exists_cons_of_ne_nil nonempty
  have noSequence : ∀ {v : Nat} {bytes : ByteString}, Sequence v bytes → ¬ bytes <+: lead :: rest := by
    intro v bytes sequence
    obtain ⟨ch, _, rfl⟩ := sequence.exists_char
    exact illFormed ch
  by_cases long : 2 ≤ oneCharLen lead
  swap
  · have notAscii : ¬ lead < 0x80 := by
      intro small
      have sequence := Sequence.one (UInt8.lt_iff_toNat_lt.1 small)
      rw [UInt8.ofNat_toNat] at sequence
      exact noSequence sequence ⟨rest, rfl⟩
    obtain ⟨len, boundary⟩ : oneCharLen lead = 1 ∧ secondByteBoundary lead = (0xFF, 0x00) := by
      rcases oneCharLen_cases lead with one | ⟨len, _⟩ | ⟨len, _⟩ | ⟨len, _⟩
      · exact one
      all_goals omega
    refine ⟨1, ?_, maximalSubpart_one illFormed ?_⟩
    · rw [decode, if_neg notAscii, len]
      dsimp only
      rw [if_neg (by omega)]
      simp
    · intro second _
      rw [Bool.eq_false_iff, Ne, isValidSecondByte_iff, secondLeast, secondMost, boundary]
      rintro ⟨least, most⟩
      exact absurd (le_trans least most) (by decide)
  by_cases noSecond : ∀ second ∈ rest.head?, isValidSecondByte 0 lead second = false
  · exact ⟨1, decode_noSecond long noSecond, maximalSubpart_one illFormed noSecond⟩
  cases rest with
  | nil => simp at noSecond
  | cons second rest =>
      have valid : isValidSecondByte 0 lead second = true := by
        simpa using noSecond
      have step : decode (lead :: second :: rest) = _ := decode_second long valid
      dsimp only at step
      generalize trailing_ : rest.take (oneCharLen lead - 2) = trailing at step
      have short : trailing.length ≤ oneCharLen lead - 2 := by
        rw [← trailing_, List.length_take]
        exact Nat.min_le_left _ _
      have front : trailing <+: rest := trailing_ ▸ List.take_prefix _ _
      rw [if_neg] at step
      · refine ⟨_, step, illFormed, by omega, ?_, .inr ?_, ?_⟩
        · have le := (List.takeWhile_prefix isUtf8TrailingByte).length_le.trans front.length_le
          simp only [List.length_cons]
          omega
        · have seen : trailing.takeWhile isUtf8TrailingByte <+: rest :=
            (List.takeWhile_prefix _).trans front
          have le := (List.takeWhile_prefix isUtf8TrailingByte (l := trailing)).length_le
          rw [Nat.add_comm 2, List.take_succ_cons, List.take_succ_cons, ← List.prefix_iff_eq_take.1 seen,
            begins_iff (List.cons_ne_nil _ _)]
          simp only [begins, valid, Bool.true_and, Bool.and_eq_true, decide_eq_true_eq]
          exact ⟨by omega, List.all_eq_true.2 fun _ => List.mem_takeWhile_imp⟩
        · intro m above inside isBegin
          obtain ⟨j, rfl⟩ := Nat.exists_eq_add_of_le' (show 2 ≤ m by omega)
          rw [List.take_succ_cons, List.take_succ_cons, begins_iff (List.cons_ne_nil _ _)] at isBegin
          simp only [begins, Bool.and_eq_true, decide_eq_true_eq, List.length_cons,
            List.length_take] at isBegin inside
          have part : trailing.take j = rest.take j := by
            rw [← trailing_, List.take_take, Nat.min_eq_left (by omega)]
          have le : j ≤ trailing.length := by
            rw [← trailing_, List.length_take]
            omega
          have := le_length_takeWhile le (part ▸ isBegin.2)
          omega
      · rintro ⟨enough, all⟩
        have length : trailing.length = oneCharLen lead - 2 := by
          rw [← trailing_, List.length_take]
          omega
        have isBegin : begins (lead :: second :: trailing) = true := by
          simp only [begins, valid, all, Bool.true_and, Bool.and_true, decide_eq_true_eq]
          omega
        obtain ⟨v, sequence⟩ := sequence_of_begins isBegin (by
          rw [List.length_cons]
          omega)
        exact noSequence sequence
          ((List.prefix_cons_inj _).2 ((List.prefix_cons_inj _).2 front))

/-- **Each step is strict.** -/
theorem strictStep_decode {sv : ByteString} (nonempty : sv ≠ []) : StrictStep sv (decode sv) := by
  by_cases wellFormed : ∃ c : Char, String.utf8EncodeChar c <+: sv
  · obtain ⟨c, rest, rfl⟩ := wellFormed
    have step := decode_sequence (sequence_utf8EncodeChar c) rest
    refine ⟨decodeChecked_eq _, ?_, ?_⟩
    · intro _
      rw [step]
      refine ⟨c, rfl, List.length_pos_iff.2 String.utf8EncodeChar_ne_nil, ?_, List.take_left⟩
      rw [List.length_append]
      exact Nat.le_add_right _ _
    · rw [step]
      exact fun failed => Bool.noConfusion failed
  · obtain ⟨n, step, subpart⟩ := decode_illFormed nonempty fun c front => wellFormed ⟨c, front⟩
    refine ⟨decodeChecked_eq _, ?_, ?_⟩
    · rw [step]
      exact fun isOk => Bool.noConfusion isOk
    · rw [step]
      exact fun _ => ⟨rfl, subpart⟩

theorem StrictStep.bytesSeen_pos {sv : ByteString} {dr : DecodeResult} (step : StrictStep sv dr) :
    0 < dr.bytesSeen := by
  cases isOk : dr.ok with
  | true =>
      obtain ⟨_, _, positive, _⟩ := step.character isOk
      exact positive
  | false => exact (step.error isOk).2.positive

/-! ## A whole text -/

theorem decodeAllWithin_strict {fuel : Nat} {sv : ByteString} (enough : sv.length ≤ fuel) :
    DecodesStrictly sv (decodeAllWithin fuel sv) := by
  induction fuel generalizing sv with
  | zero =>
      obtain rfl := List.length_eq_zero_iff.1 (Nat.le_zero.1 enough)
      exact .nil
  | succ fuel ih =>
      cases sv with
      | nil => exact .nil
      | cons c sv =>
          have step := strictStep_decode (List.cons_ne_nil c sv)
          refine .cons step (ih ?_)
          have positive := step.bytesSeen_pos
          rw [List.length_cons] at enough
          rw [List.length_drop, List.length_cons]
          omega

theorem decodeAll_strict (sv : ByteString) : DecodesStrictly sv (decodeAll sv) :=
  decodeAllWithin_strict le_rfl

/-! ## Decoding what was encoded -/

theorem trailing_toUInt8 (x : UInt32) :
    0x80 ||| (x.toUInt8 &&& 0x3F) = UInt8.ofNat (x.toNat % 64 + 0x80) := by
  rw [(byte_tables _).2.2.2, UInt32.toNat_toUInt8, show x.toNat % 2 ^ 8 % 64 = x.toNat % 64 by omega]

theorem lead_toUInt8 (x : UInt32) (offset : UInt8) :
    (x + offset.toUInt32).toUInt8 = UInt8.ofNat (x.toNat + offset.toNat) := by
  apply UInt8.toNat_inj.1
  rw [UInt32.toNat_toUInt8, UInt32.toNat_add, UInt8.toNat_toUInt32, UInt8.toNat_ofNat']
  omega

theorem toNat_shiftRight {cp : UInt32} {k : Nat} (less : k < 32) :
    (cp >>> UInt32.ofNat k).toNat = cp.toNat / 2 ^ k := by
  rw [UInt32.toNat_shiftRight, UInt32.toNat_ofNat', show k % 2 ^ 32 % 32 = k by omega,
    Nat.shiftRight_eq_div_pow]

/-- The bytes of `EncodeSequence`. -/
theorem encodeSequence_one (cp : UInt32) : encodeSequence cp 1 0xC0 =
    [UInt8.ofNat (cp.toNat / 64 + 0xC0), UInt8.ofNat (cp.toNat % 64 + 0x80)] := by
  simp only [encodeSequence, encodeTrailing, lead_toUInt8, trailing_toUInt8]
  rw [toNat_shiftRight (by decide), toNat_shiftRight (by decide), Nat.pow_zero, Nat.div_one]
  rfl

theorem encodeSequence_two (cp : UInt32) : encodeSequence cp 2 0xE0 =
    [UInt8.ofNat (cp.toNat / 4096 + 0xE0), UInt8.ofNat (cp.toNat / 64 % 64 + 0x80),
      UInt8.ofNat (cp.toNat % 64 + 0x80)] := by
  simp only [encodeSequence, encodeTrailing, lead_toUInt8, trailing_toUInt8]
  rw [toNat_shiftRight (by decide), toNat_shiftRight (by decide), toNat_shiftRight (by decide),
    Nat.pow_zero, Nat.div_one]
  rfl

theorem encodeSequence_three (cp : UInt32) : encodeSequence cp 3 0xF0 =
    [UInt8.ofNat (cp.toNat / 262144 + 0xF0), UInt8.ofNat (cp.toNat / 4096 % 64 + 0x80),
      UInt8.ofNat (cp.toNat / 64 % 64 + 0x80), UInt8.ofNat (cp.toNat % 64 + 0x80)] := by
  simp only [encodeSequence, encodeTrailing, lead_toUInt8, trailing_toUInt8]
  rw [toNat_shiftRight (by decide), toNat_shiftRight (by decide), toNat_shiftRight (by decide),
    toNat_shiftRight (by decide), Nat.pow_zero, Nat.div_one]
  rfl

/-- The number of a character is written as a well-formed sequence. -/
theorem sequence_encode {cp : UInt32} (valid : cp.toNat.isValidChar) :
    Sequence cp.toNat (encode cp) := by
  have bounds : cp.toNat < 0x110000 ∧ ¬ (0xD800 ≤ cp.toNat ∧ cp.toNat ≤ 0xDFFF) := by
    rcases valid with low | ⟨above, below⟩ <;> omega
  simp only [encode, UInt32.le_iff_toNat_le, UInt32.reduceToNat]
  split
  · next one =>
      have byte : cp.toUInt8 = UInt8.ofNat cp.toNat := by
        apply UInt8.toNat_inj.1
        rw [UInt32.toNat_toUInt8, UInt8.toNat_ofNat']
      rw [byte]
      exact .one (by omega)
  split
  · rw [encodeSequence_one]
    have parts : cp.toNat = cp.toNat / 64 * 64 + cp.toNat % 64 := by omega
    nth_rewrite 1 [parts]
    exact .two (by omega) (by omega) (by omega)
  split
  · rw [encodeSequence_two]
    have parts : cp.toNat
        = (cp.toNat / 4096 * 64 + cp.toNat / 64 % 64) * 64 + cp.toNat % 64 := by omega
    nth_rewrite 1 [parts]
    exact .three (by omega) (by omega) (by omega) (by omega) (by omega)
  split
  · rw [encodeSequence_three]
    have parts : cp.toNat = ((cp.toNat / 262144 * 64 + cp.toNat / 4096 % 64) * 64
        + cp.toNat / 64 % 64) * 64 + cp.toNat % 64 := by omega
    nth_rewrite 1 [parts]
    exact .four (by omega) (by omega) (by omega) (by omega) (by omega) (by omega)
  · omega

/-- A surrogate is written as bytes that the decoder refuses. -/
theorem decode_encode_surrogate {cp : UInt32} (surrogate : IsSurrogate cp) :
    decode (encode cp) = .error 1 := by
  obtain ⟨least, most⟩ := surrogate
  simp only [UInt32.le_iff_toNat_le, UInt32.reduceToNat] at least most
  have bytes : encode cp = [UInt8.ofNat (13 + 0xE0), UInt8.ofNat (cp.toNat / 64 % 64 + 0x80),
      UInt8.ofNat (cp.toNat % 64 + 0x80)] := by
    simp only [encode, UInt32.le_iff_toNat_le, UInt32.reduceToNat]
    rw [if_neg (by omega), if_neg (by omega), if_pos (by omega), encodeSequence_two,
      show cp.toNat / 4096 = 13 by omega]
  obtain ⟨_, len, _⟩ := lead_three (show 13 < 16 by decide)
  rw [bytes]
  apply decode_noSecond (by omega)
  rintro second ⟨⟩
  rw [Bool.eq_false_iff, Ne, second_three (by decide) (by omega)]
  rintro ⟨_, noSurrogate⟩
  have := noSurrogate rfl
  omega

theorem not_isValidChar_iff {n : Nat} : ¬ n.isValidChar ↔ 0xD800 ≤ n ∧ n ≤ 0xDFFF ∨ 0x10FFFF < n := by
  unfold Nat.isValidChar
  omega

/-- A number is found again behind its encoding when it is no surrogate. -/
theorem encodesBack_iff (cp : UInt32) : EncodesBack cp ↔ ¬ IsSurrogate cp := by
  unfold EncodesBack
  constructor
  · intro back surrogate
    rw [decode_encode_surrogate surrogate] at back
    exact Bool.noConfusion (congrArg DecodeResult.ok back)
  · intro noSurrogate
    by_cases valid : cp.toNat.isValidChar
    · have step := decode_sequence (sequence_encode valid) []
      rw [if_pos valid]
      rwa [List.append_nil] at step
    · have above : 0x10FFFF < cp.toNat := by
        rcases not_isValidChar_iff.1 valid with surrogate | above
        · refine absurd ?_ noSurrogate
          simpa only [IsSurrogate, UInt32.le_iff_toNat_le, UInt32.reduceToNat] using surrogate
        · exact above
      have replaced : encode cp = encode 0xFFFD := by
        simp only [encode, UInt32.le_iff_toNat_le, UInt32.reduceToNat]
        rw [if_neg (by omega), if_neg (by omega), if_neg (by omega), if_neg (by omega)]
        rfl
      have step := decode_sequence (sequence_encode (show (0xFFFD : UInt32).toNat.isValidChar from
        .inr ⟨by decide, by decide⟩)) []
      rw [if_neg valid, replaced]
      rwa [List.append_nil] at step

/-- **Decoding is strict for every text**, and a number is found again behind its encoding exactly
when it is no surrogate. -/
theorem decodesStrictly_iff (sv : ByteString) (cp : UInt32) :
    (DecodesStrictly sv (decodeAll sv) ∧ EncodesBack cp) ↔ ¬ IsSurrogate cp :=
  (and_iff_right (decodeAll_strict sv)).trans (encodesBack_iff cp)

/-- The first surrogate is not replaced. -/
theorem not_decodesStrictly_surrogate :
    ¬ ∀ (sv : ByteString) (cp : UInt32), DecodesStrictly sv (decodeAll sv) ∧ EncodesBack cp := by
  intro all
  have back := (all [] 0xD800).2
  revert back
  unfold EncodesBack
  decide

end Utf8Internal

end Mozkey
