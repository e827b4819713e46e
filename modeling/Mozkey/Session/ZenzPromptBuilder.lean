import Mozkey.Base.ByteString

/-!
# The prompt for Zenz

A prompt is a row of fields.  Each begins with a marker, a code point of a private
range, and empty fields are left out.  `Build` takes the markers and other control
characters out of the conditions that come from outside, converts the reading to
katakana, joins the fields, and normalises whitespace in the end.

Who reads a prompt cuts it where a marker begins (`cut`).
-/

namespace Mozkey.Session.ZenzPromptBuilder

/-! ## Characters -/

/-- `DecodeOneUtf8`: the first code point and its length. -/
def decodeOneUtf8 : ByteString → Option (Nat × Nat)
  | [] => none
  | c0 :: rest =>
      if c0 < 0x80 then some (c0.toNat, 1)
      else if c0 &&& 0xE0 = 0xC0 then
        match rest with
        | c1 :: _ =>
            if c1 &&& 0xC0 ≠ 0x80 then none
            else some (((c0 &&& 0x1F).toNat <<< 6) ||| (c1 &&& 0x3F).toNat, 2)
        | [] => none
      else if c0 &&& 0xF0 = 0xE0 then
        match rest with
        | c1 :: c2 :: _ =>
            if c1 &&& 0xC0 ≠ 0x80 ∨ c2 &&& 0xC0 ≠ 0x80 then none
            else some (((c0 &&& 0x0F).toNat <<< 12) ||| ((c1 &&& 0x3F).toNat <<< 6) |||
              (c2 &&& 0x3F).toNat, 3)
        | _ => none
      else if c0 &&& 0xF8 = 0xF0 then
        match rest with
        | c1 :: c2 :: c3 :: _ =>
            if c1 &&& 0xC0 ≠ 0x80 ∨ c2 &&& 0xC0 ≠ 0x80 ∨ c3 &&& 0xC0 ≠ 0x80 then none
            else some (((c0 &&& 0x07).toNat <<< 18) ||| ((c1 &&& 0x3F).toNat <<< 12) |||
              ((c2 &&& 0x3F).toNat <<< 6) ||| (c3 &&& 0x3F).toNat, 4)
        | _ => none
      else none

/-- `AppendUtf8`: the bytes it appends. -/
def appendUtf8 (codepoint : Nat) : ByteString :=
  if codepoint ≤ 0x7F then [UInt8.ofNat codepoint]
  else if codepoint ≤ 0x7FF then
    [UInt8.ofNat (0xC0 ||| ((codepoint >>> 6) &&& 0x1F)),
      UInt8.ofNat (0x80 ||| (codepoint &&& 0x3F))]
  else if codepoint ≤ 0xFFFF then
    [UInt8.ofNat (0xE0 ||| ((codepoint >>> 12) &&& 0x0F)),
      UInt8.ofNat (0x80 ||| ((codepoint >>> 6) &&& 0x3F)),
      UInt8.ofNat (0x80 ||| (codepoint &&& 0x3F))]
  else
    [UInt8.ofNat (0xF0 ||| ((codepoint >>> 18) &&& 0x07)),
      UInt8.ofNat (0x80 ||| ((codepoint >>> 12) &&& 0x3F)),
      UInt8.ofNat (0x80 ||| ((codepoint >>> 6) &&& 0x3F)),
      UInt8.ofNat (0x80 ||| (codepoint &&& 0x3F))]

/-- `IsZenzControlCodepoint`. -/
def isZenzControlCodepoint (codepoint : Nat) : Bool := 0xEE00 ≤ codepoint && codepoint ≤ 0xEE0F

/-- `IsUnsafeControlCodepoint`. -/
def isUnsafeControlCodepoint (codepoint : Nat) : Bool := codepoint < 0x20 || codepoint = 0x7F

/-! ## Fields -/

/-- The loop of `SanitizeConditionText`; `skip` bytes belong to the last character. -/
def sanitizeFrom (maxChars : Nat) : Nat → Nat → ByteString → ByteString
  | _, _, [] => []
  | skip + 1, chars, _ :: rest => sanitizeFrom maxChars skip chars rest
  | 0, chars, c :: rest =>
      if maxChars > 0 ∧ chars ≥ maxChars then []
      else
        match decodeOneUtf8 (c :: rest) with
        | none => []
        | some (cp, length) =>
            if isZenzControlCodepoint cp then sanitizeFrom maxChars (length - 1) chars rest
            else if isUnsafeControlCodepoint cp then
              if cp = 0x09 ∨ cp = 0x0D then
                0x20 :: sanitizeFrom maxChars (length - 1) (chars + 1) rest
              else sanitizeFrom maxChars (length - 1) chars rest
            else appendUtf8 cp ++ sanitizeFrom maxChars (length - 1) (chars + 1) rest

/-- `SanitizeConditionText`. -/
def sanitizeConditionText (input : ByteString) (maxChars : Nat) : ByteString :=
  sanitizeFrom maxChars 0 0 input

/-- What `NormalizeTokenizerWhitespace` writes for a byte: U+3000 for a space, nothing for
a line feed. -/
def normalizeByte (byte : UInt8) : ByteString :=
  if byte = 0x20 then [0xE3, 0x80, 0x80] else if byte ≠ 0x0A then [byte] else []

/-- `NormalizeTokenizerWhitespace`. -/
def normalizeTokenizerWhitespace (input : ByteString) : ByteString := input.flatMap normalizeByte

/-- The katakana letter of a hiragana letter. -/
def katakana (cp : Nat) : Nat := if 0x3041 ≤ cp ∧ cp ≤ 0x3096 then cp + 0x60 else cp

/-- The loop of `HiraganaToKatakana`; `skip` bytes belong to the last character.  From the
first byte on that cannot be decoded, the input is kept. -/
def hiraganaToKatakanaFrom : Nat → ByteString → ByteString
  | _, [] => []
  | skip + 1, _ :: rest => hiraganaToKatakanaFrom skip rest
  | 0, c :: rest =>
      match decodeOneUtf8 (c :: rest) with
      | none => c :: rest
      | some (cp, length) =>
          appendUtf8 (katakana cp) ++ hiraganaToKatakanaFrom (length - 1) rest

/-- `HiraganaToKatakana`. -/
def hiraganaToKatakana (input : ByteString) : ByteString := hiraganaToKatakanaFrom 0 input

/-! ## `Build` -/

def kZenzReadingBegin : ByteString := [0xEE, 0xB8, 0x80]
def kZenzOutputBegin : ByteString := [0xEE, 0xB8, 0x81]
def kZenzContextBegin : ByteString := [0xEE, 0xB8, 0x82]
def kZenzProfileBegin : ByteString := [0xEE, 0xB8, 0x83]
def kZenzTopicBegin : ByteString := [0xEE, 0xB8, 0x84]
def kZenzStyleBegin : ByteString := [0xEE, 0xB8, 0x85]
def kZenzSettingsBegin : ByteString := [0xEE, 0xB8, 0x86]
def kZenzRightContextBegin : ByteString := [0xEE, 0xB8, 0x87]
def kMaxZenzConditionChars : Nat := 64

structure ZenzPromptOptions where
  leftContext : ByteString := []
  rightContext : ByteString := []
  profile : ByteString := []
  topic : ByteString := []
  style : ByteString := []
  settings : ByteString := []

/-- A field that is left out when it is empty. -/
def optionalField (begin_ text : ByteString) : ByteString := if text = [] then [] else begin_ ++ text

/-- The fields before whitespace is normalised. -/
def promptFields (reading : ByteString) (options : ZenzPromptOptions) : ByteString :=
  kZenzContextBegin ++ sanitizeConditionText options.leftContext 0 ++
    optionalField kZenzRightContextBegin (sanitizeConditionText options.rightContext 0) ++
    optionalField kZenzProfileBegin
      (sanitizeConditionText options.profile kMaxZenzConditionChars) ++
    optionalField kZenzTopicBegin (sanitizeConditionText options.topic kMaxZenzConditionChars) ++
    optionalField kZenzStyleBegin (sanitizeConditionText options.style kMaxZenzConditionChars) ++
    optionalField kZenzSettingsBegin
      (sanitizeConditionText options.settings kMaxZenzConditionChars) ++
    kZenzReadingBegin ++ hiraganaToKatakana reading ++ kZenzOutputBegin

/-- `ZenzPromptBuilder::Build`. -/
def build (reading : ByteString) (options : ZenzPromptOptions) : ByteString :=
  normalizeTokenizerWhitespace (promptFields reading options)

/-! ## Reading a prompt -/

/-- The bytes of one of the code points U+EE00 to U+EE0F. -/
def IsMarker (c0 c1 c2 : UInt8) : Prop := c0 = 0xEE ∧ c1 = 0xB8 ∧ 0x80 ≤ c2 ∧ c2 ≤ 0x8F

instance instDecidableIsMarker (c0 c1 c2 : UInt8) : Decidable (IsMarker c0 c1 c2) :=
  inferInstanceAs (Decidable (_ ∧ _ ∧ _ ∧ _))

/-- A text without the code points U+EE00 to U+EE0F. -/
def LacksMarkers (text : ByteString) : Prop :=
  ∀ c0 c1 c2, IsMarker c0 c1 c2 → ¬ [c0, c1, c2] <:+: text

/-- Cuts a text at the markers: what is in front of the first one, and for each marker its
last byte and what follows it. -/
def cut : ByteString → ByteString × List (UInt8 × ByteString)
  | c0 :: c1 :: c2 :: rest =>
      if IsMarker c0 c1 c2 then
        let behind := cut rest
        ([], (c2, behind.1) :: behind.2)
      else
        let behind := cut (c1 :: c2 :: rest)
        (c0 :: behind.1, behind.2)
  | text => (text, [])

/-- The slot of a field that is left out when it is empty. -/
def optionalSlot (marker : UInt8) (text : ByteString) : List (UInt8 × ByteString) :=
  if text = [] then [] else [(marker, normalizeTokenizerWhitespace text)]

/-- The slots of a prompt: each field behind its own marker. -/
def slots (reading : ByteString) (options : ZenzPromptOptions) : List (UInt8 × ByteString) :=
  [(0x82, normalizeTokenizerWhitespace (sanitizeConditionText options.leftContext 0))] ++
    optionalSlot 0x87 (sanitizeConditionText options.rightContext 0) ++
    optionalSlot 0x83 (sanitizeConditionText options.profile kMaxZenzConditionChars) ++
    optionalSlot 0x84 (sanitizeConditionText options.topic kMaxZenzConditionChars) ++
    optionalSlot 0x85 (sanitizeConditionText options.style kMaxZenzConditionChars) ++
    optionalSlot 0x86 (sanitizeConditionText options.settings kMaxZenzConditionChars) ++
    [(0x80, normalizeTokenizerWhitespace (hiraganaToKatakana reading)), (0x81, [])]

/-- The framing of a prompt: the markers in it are the ones that `Build` writes, and cutting
it there gives back the fields, each in its own slot. -/
def Framed (reading : ByteString) (options : ZenzPromptOptions) : Prop :=
  cut (build reading options) = ([], slots reading options)

/-- The code points that are decoded from a text, and the rest from the first byte on that
cannot be decoded; `skip` bytes belong to the last character. -/
def decodeFrom : Nat → ByteString → List Nat × ByteString
  | _, [] => ([], [])
  | skip + 1, _ :: rest => decodeFrom skip rest
  | 0, c :: rest =>
      match decodeOneUtf8 (c :: rest) with
      | none => ([], c :: rest)
      | some (cp, length) =>
          let behind := decodeFrom (length - 1) rest
          (cp :: behind.1, behind.2)

/-- A reading without markers: no code point of the decoded part is one, and the rest has no
bytes of one when its line feeds are deleted. -/
def CleanReading (reading : ByteString) : Prop :=
  (∀ cp ∈ (decodeFrom 0 reading).1, isZenzControlCodepoint cp = false) ∧
    LacksMarkers ((decodeFrom 0 reading).2.filter (· ≠ 0x0A))

end Mozkey.Session.ZenzPromptBuilder
