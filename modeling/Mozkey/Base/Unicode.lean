import Mozkey.Base.Util

/-!
# Decoding UTF-8

The decoder takes the well-formed sequences of one to four bytes, and tells of all others how many
bytes it has seen before it gave up.
-/

namespace Mozkey

namespace Utf8Internal

def kReplacementCharacter : Nat := 0xFFFD

/-- The code point that was decoded, if it was well formed, and the number of bytes. -/
structure DecodeResult where
  codePoint : Nat
  ok : Bool
  bytesSeen : Nat
  deriving DecidableEq, Repr

namespace DecodeResult

/-- `DecodeResult::Continue`. -/
def continue_ (cp bytesSeen : Nat) : DecodeResult := ⟨cp, true, bytesSeen⟩

/-- `DecodeResult::Error`. -/
def error (bytesSeen : Nat) : DecodeResult := ⟨kReplacementCharacter, false, bytesSeen⟩

/-- `DecodeResult::Sentinel`. -/
def sentinel : DecodeResult := ⟨0, false, 0⟩

end DecodeResult

/-- `GenerateSecondByteBoundary`. -/
def secondByteBoundary (n : UInt8) : UInt8 × UInt8 :=
  if n < 0xC2 ∨ 0xF4 < n then (0xFF, 0x00)
  else if n = 0xE0 then (0xA0, 0xBF)
  else if n = 0xED then (0x80, 0x9F)
  else if n = 0xF0 then (0x90, 0xBF)
  else if n = 0xF4 then (0x80, 0x8F)
  else (0x80, 0xBF)

/-- `IsValidSecondByte`, which has a short cut for sequences of two bytes. -/
def isValidSecondByte (needed : Nat) (leadingByte secondByte : UInt8) : Bool :=
  if needed = 2 then isUtf8TrailingByte secondByte
  else
    (secondByteBoundary leadingByte).1 ≤ secondByte ∧ secondByte ≤ (secondByteBoundary leadingByte).2

/-- `AppendTrailingByte`. -/
def appendTrailingByte (base : Nat) (byte : UInt8) : Nat := base * 64 + (byte &&& 0x3F).toNat

/-- The bytes behind the second one, each of which has to be a trailing byte. -/
def decodeTrailing : Nat → Nat → ByteString → DecodeResult
  | base, seen, [] => .continue_ base seen
  | base, seen, c :: rest =>
      if isUtf8TrailingByte c then decodeTrailing (appendTrailingByte base c) (seen + 1) rest
      else .error seen

/-- `HandleBufferTooShort`. -/
def handleBufferTooShort (leadingByte : UInt8) : ByteString → DecodeResult
  | [] => .error 1
  | second :: rest =>
      if isValidSecondByte 0 leadingByte second then
        .error (2 + (rest.takeWhile isUtf8TrailingByte).length)
      else .error 1

/-- `DecodeSequence`, of the bytes that are needed behind the leading byte. -/
def decodeSequence (needed : Nat) (leadingByte mask : UInt8) : ByteString → DecodeResult
  | [] => .error 1
  | second :: rest =>
      if isValidSecondByte needed leadingByte second then
        decodeTrailing (appendTrailingByte (leadingByte &&& mask).toNat second) 2
          (rest.take (needed - 2))
      else .error 1

/-- `Decode`. -/
def decode : ByteString → DecodeResult
  | [] => .sentinel
  | c :: rest =>
      if c < 0x80 then .continue_ c.toNat 1
      else
        let needed := oneCharLen c
        if rest.length + 1 < needed then handleBufferTooShort c rest
        else if needed = 3 then decodeSequence 3 c 0x0F rest
        else if needed = 2 then decodeSequence 2 c 0x1F rest
        else if needed = 4 then decodeSequence 4 c 0x07 rest
        else .error 1

end Utf8Internal

namespace Strings

open Utf8Internal

/-- The loop of `strings::IsValidUtf8`; every round takes at least one byte. -/
def isValidUtf8Within : Nat → ByteString → Bool
  | _, [] => true
  | 0, _ :: _ => false
  | fuel + 1, c :: str =>
      let dr := decode (c :: str)
      dr.ok && isValidUtf8Within fuel ((c :: str).drop dr.bytesSeen)

/-- `strings::IsValidUtf8`. -/
def isValidUtf8 (sv : ByteString) : Bool := isValidUtf8Within sv.length sv

/-- The loop of `strings::AtLeastCharsLen`, with the characters that may still be counted. -/
def atLeastCharsLen : ByteString → Nat → Nat
  | [], _ => 0
  | _ :: _, 0 => 0
  | c :: str, n + 1 => atLeastCharsLen ((c :: str).drop (oneCharLen c)) n + 1
termination_by structural _ n => n

/-- `Utf8AsChars(sv).front()`: the bytes that the decoder sees first. -/
def front (sv : ByteString) : ByteString := sv.take (decode sv).bytesSeen

end Strings

end Mozkey
