import Mozkey.Base.ByteString

/-!
# Characters of a text

Texts are UTF-8.  The length in characters goes by the leading bytes alone and
takes any bytes; the decoder takes sequences of up to six bytes and refuses those
that are cut short or longer than needed.
-/

namespace Mozkey

/-- `utf8_internal::kUtf8LenTbl`. -/
def oneCharLen (c : UInt8) : Nat :=
  if c < 0xC2 then 1
  else if c < 0xE0 then 2
  else if c < 0xF0 then 3
  else if c < 0xF5 then 4
  else 1

/-- The characters of a text of which some bytes still belong to the last one. -/
def charsLenFrom : Nat → ByteString → Nat
  | _, [] => 0
  | skip + 1, _ :: str => charsLenFrom skip str
  | 0, c :: str => charsLenFrom (oneCharLen c - 1) str + 1

/-- `Util::CharsLen`. -/
def charsLen (str : ByteString) : Nat := charsLenFrom 0 str

theorem charsLenFrom_le_length (skip : Nat) (str : ByteString) :
    charsLenFrom skip str ≤ str.length := by
  induction str generalizing skip with
  | nil =>
      rw [charsLenFrom]
      exact Nat.zero_le _
  | cons c str ih =>
      cases skip with
      | zero => exact Nat.succ_le_succ (ih _)
      | succ skip => exact Nat.le_succ_of_le (ih skip)

/-- A character takes at least one byte. -/
theorem charsLen_le_length (str : ByteString) : charsLen str ≤ str.length :=
  charsLenFrom_le_length 0 str

def isUtf8TrailingByte (c : UInt8) : Bool := c &&& 0xC0 == 0x80

/-- What a leading byte tells: the length of the sequence, the smallest and the
largest code point of that length, and the first bits. -/
structure LeadingByte where
  len : Nat
  minValue : Nat
  maxValue : Nat
  bits : UInt8

def leadingByte (c : UInt8) : Option LeadingByte :=
  if c &&& 0xE0 = 0xC0 then some ⟨2, 0x80, 0x7FF, c &&& 0x1F⟩
  else if c &&& 0xF0 = 0xE0 then some ⟨3, 0x800, 0xFFFF, c &&& 0x0F⟩
  else if c &&& 0xF8 = 0xF0 then some ⟨4, 0x10000, 0x1FFFFF, c &&& 0x07⟩
  else if c &&& 0xFC = 0xF8 then some ⟨5, 0x200000, 0x3FFFFFF, c &&& 0x03⟩
  else if c &&& 0xFE = 0xFC then some ⟨6, 0x4000000, 0x7FFFFFFF, c &&& 0x01⟩
  else none

/-- `Util::SplitFirstChar32`. -/
def splitFirstChar32 : ByteString → Option (Nat × ByteString)
  | [] => none
  | c :: rest =>
      if c < 0x80 then some (c.toNat, rest)
      else if isUtf8TrailingByte c then none
      else
        match leadingByte c with
        | none => none
        | some lead =>
            if rest.length + 1 < lead.len then none
            else
              let trailing := rest.take (lead.len - 1)
              if trailing.all isUtf8TrailingByte then
                let result := trailing.foldl (fun acc b => acc * 64 + (b &&& 0x3F).toNat)
                  lead.bits.toNat
                if result < lead.minValue ∨ lead.maxValue < result then none
                else some (result, rest.drop (lead.len - 1))
              else none

/-- The loop of `Util::IsValidUtf8`; every round takes at least one byte. -/
def isValidUtf8Within : Nat → ByteString → Bool
  | _, [] => true
  | 0, _ :: _ => false
  | fuel + 1, c :: str =>
      match splitFirstChar32 (c :: str) with
      | none => false
      | some (_, rest) => isValidUtf8Within fuel rest

/-- `Util::IsValidUtf8`. -/
def isValidUtf8 (str : ByteString) : Bool := isValidUtf8Within str.length str

/-- `Util::IsAscii`. -/
def isAscii (str : ByteString) : Bool := str.all fun c => decide (c < 0x80)

/-- `absl::ascii_isspace`. -/
def asciiIsSpace (c : UInt8) : Bool := (0x09 ≤ c && c ≤ 0x0D) || c == 0x20

/-- `absl::StripTrailingAsciiWhitespace`. -/
def stripTrailingAsciiWhitespace (str : ByteString) : ByteString :=
  (str.reverse.dropWhile asciiIsSpace).reverse

/-- `Util::ScriptType`. -/
inductive ScriptType
  | unknownScript | katakana | hiragana | kanji | number | alphabet | emoji
  deriving DecidableEq, Repr

/-! ## Numbers in binary files -/

/-- `Util::SerializeUint64`. -/
def serializeUint64 (x : UInt64) : ByteString :=
  [(x >>> 56).toUInt8, ((x >>> 48) &&& 0xFF).toUInt8, ((x >>> 40) &&& 0xFF).toUInt8,
    ((x >>> 32) &&& 0xFF).toUInt8, ((x >>> 24) &&& 0xFF).toUInt8, ((x >>> 16) &&& 0xFF).toUInt8,
    ((x >>> 8) &&& 0xFF).toUInt8, (x &&& 0xFF).toUInt8]

/-- `Util::DeserializeUint64`. -/
def deserializeUint64 : ByteString → Option UInt64
  | [s0, s1, s2, s3, s4, s5, s6, s7] =>
      some (s0.toUInt64 <<< 56 ||| s1.toUInt64 <<< 48 ||| s2.toUInt64 <<< 40 |||
        s3.toUInt64 <<< 32 ||| s4.toUInt64 <<< 24 ||| s5.toUInt64 <<< 16 ||| s6.toUInt64 <<< 8 |||
          s7.toUInt64)
  | _ => none

theorem length_serializeUint64 (x : UInt64) : (serializeUint64 x).length = 8 := rfl

theorem toNat_byte_shiftLeft (s : UInt8) {k : UInt64} (small : k.toNat ≤ 56) :
    (s.toUInt64 <<< k).toNat = s.toNat * 2 ^ k.toNat := by
  have bound : s.toNat * 2 ^ k.toNat < 2 ^ 64 :=
    calc s.toNat * 2 ^ k.toNat < 2 ^ 8 * 2 ^ k.toNat :=
          Nat.mul_lt_mul_of_pos_right s.toNat_lt (by positivity)
      _ ≤ 2 ^ 8 * 2 ^ 56 := Nat.mul_le_mul_left _ (Nat.pow_le_pow_right (by decide) small)
  rw [UInt64.toNat_shiftLeft, UInt8.toNat_toUInt64, Nat.mod_eq_of_lt (by omega : k.toNat < 64),
    Nat.shiftLeft_eq, Nat.mod_eq_of_lt bound]

/-- A byte put below others. -/
theorem mul_or_mul (a : Nat) {b : Nat} (byte : b < 2 ^ 8) (k : Nat) :
    a * 2 ^ (k + 8) ||| b * 2 ^ k = (a * 2 ^ 8 + b) * 2 ^ k := by
  have bound : b * 2 ^ k < 2 ^ (k + 8) := by
    rw [Nat.pow_add, Nat.mul_comm]
    exact Nat.mul_lt_mul_of_pos_left byte (by positivity)
  rw [Nat.mul_comm a, ← Nat.two_pow_add_eq_or_of_lt bound, Nat.pow_add]
  ring

theorem toNat_of_bytes (s0 s1 s2 s3 s4 s5 s6 s7 : UInt8) :
    (s0.toUInt64 <<< 56 ||| s1.toUInt64 <<< 48 ||| s2.toUInt64 <<< 40 ||| s3.toUInt64 <<< 32 |||
      s4.toUInt64 <<< 24 ||| s5.toUInt64 <<< 16 ||| s6.toUInt64 <<< 8 ||| s7.toUInt64).toNat
    = ((((((s0.toNat * 2 ^ 8 + s1.toNat) * 2 ^ 8 + s2.toNat) * 2 ^ 8 + s3.toNat) * 2 ^ 8
      + s4.toNat) * 2 ^ 8 + s5.toNat) * 2 ^ 8 + s6.toNat) * 2 ^ 8 + s7.toNat := by
  simp only [UInt64.toNat_or]
  rw [toNat_byte_shiftLeft s0 (by decide), toNat_byte_shiftLeft s1 (by decide),
    toNat_byte_shiftLeft s2 (by decide), toNat_byte_shiftLeft s3 (by decide),
    toNat_byte_shiftLeft s4 (by decide), toNat_byte_shiftLeft s5 (by decide),
    toNat_byte_shiftLeft s6 (by decide), UInt8.toNat_toUInt64, ← Nat.mul_one s7.toNat]
  change s0.toNat * 2 ^ (48 + 8) ||| s1.toNat * 2 ^ (40 + 8) ||| s2.toNat * 2 ^ (32 + 8) |||
    s3.toNat * 2 ^ (24 + 8) ||| s4.toNat * 2 ^ (16 + 8) ||| s5.toNat * 2 ^ (8 + 8) |||
      s6.toNat * 2 ^ (0 + 8) ||| s7.toNat * 2 ^ 0 = _
  rw [mul_or_mul _ s1.toNat_lt 48, mul_or_mul _ s2.toNat_lt 40, mul_or_mul _ s3.toNat_lt 32,
    mul_or_mul _ s4.toNat_lt 24, mul_or_mul _ s5.toNat_lt 16, mul_or_mul _ s6.toNat_lt 8,
    mul_or_mul _ s7.toNat_lt 0]
  ring

theorem toNat_lowByte (x : UInt64) : (x &&& 0xFF).toUInt8.toNat = x.toNat % 2 ^ 8 := by
  rw [UInt64.toNat_toUInt8, UInt64.toNat_and]
  change (x.toNat &&& (2 ^ 8 - 1)) % 2 ^ 8 = _
  rw [Nat.and_two_pow_sub_one_eq_mod, Nat.mod_mod]

theorem toNat_byte (x : UInt64) {k : UInt64} (small : k.toNat < 64) :
    ((x >>> k) &&& 0xFF).toUInt8.toNat = x.toNat / 2 ^ k.toNat % 2 ^ 8 := by
  rw [toNat_lowByte, UInt64.toNat_shiftRight, Nat.mod_eq_of_lt small, Nat.shiftRight_eq_div_pow]

theorem toNat_highByte (x : UInt64) : (x >>> 56).toUInt8.toNat = x.toNat / 2 ^ 56 := by
  have less := x.toNat_lt
  rw [UInt64.toNat_toUInt8, UInt64.toNat_shiftRight]
  change (x.toNat >>> 56) % 2 ^ 8 = _
  rw [Nat.shiftRight_eq_div_pow]
  omega

/-- **A number is read back from its bytes.** -/
theorem deserializeUint64_serializeUint64 (x : UInt64) :
    deserializeUint64 (serializeUint64 x) = some x := by
  rw [serializeUint64, deserializeUint64]
  refine congrArg some (UInt64.toNat_inj.1 ?_)
  rw [toNat_of_bytes, toNat_highByte, toNat_byte x (k := 48) (by decide),
    toNat_byte x (k := 40) (by decide), toNat_byte x (k := 32) (by decide),
    toNat_byte x (k := 24) (by decide), toNat_byte x (k := 16) (by decide),
    toNat_byte x (k := 8) (by decide), toNat_lowByte]
  change ((((((x.toNat / 2 ^ 56 * 2 ^ 8 + x.toNat / 2 ^ 48 % 2 ^ 8) * 2 ^ 8
    + x.toNat / 2 ^ 40 % 2 ^ 8) * 2 ^ 8 + x.toNat / 2 ^ 32 % 2 ^ 8) * 2 ^ 8
      + x.toNat / 2 ^ 24 % 2 ^ 8) * 2 ^ 8 + x.toNat / 2 ^ 16 % 2 ^ 8) * 2 ^ 8
        + x.toNat / 2 ^ 8 % 2 ^ 8) * 2 ^ 8 + x.toNat % 2 ^ 8 = x.toNat
  omega

end Mozkey
