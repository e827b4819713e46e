import Mozkey.Base.ByteString
import Mozkey.Lib.Occurrences

/-!
# Adopting Zenz output

A value that Zenz proposes must keep the surfaces that the user's dictionaries
protect.  `Decide` goes through the protected spans.  As long as a span's surface is
not found often enough with boundaries around it, one repair is made: text attached
behind the surface is erased, or a reading of the span is replaced by the surface.
When no repair is possible, the proposal is rejected.

The loop over the repairs has no bound of its own, so `Decide` takes the number of
iterations it may make; it returns nothing when they do not suffice.
-/

namespace Mozkey.Session

open Mozkey.Lib

/-! ## Characters -/

/-- The length and the first bits of a character, by its leading byte. -/
def leadByte (c0 : UInt8) : Option (Nat × Nat) :=
  if c0 &&& 0xE0 = 0xC0 then some (2, (c0 &&& 0x1F).toNat)
  else if c0 &&& 0xF0 = 0xE0 then some (3, (c0 &&& 0x0F).toNat)
  else if c0 &&& 0xF8 = 0xF0 then some (4, (c0 &&& 0x07).toNat)
  else none

/-- Adds the bits of continuation bytes to a code. -/
def continueCode : Nat → ByteString → Nat → Option Nat
  | 0, _, code => some code
  | _ + 1, [], _ => none
  | n + 1, cx :: rest, code =>
      if cx &&& 0xC0 ≠ 0x80 then none
      else continueCode n rest ((code <<< 6) ||| (cx &&& 0x3F).toNat)

/-- `DecodeUtf8Char`: the code of the first character and its length. -/
def decodeUtf8Char : ByteString → Option (Nat × Nat)
  | [] => none
  | c0 :: rest =>
      if c0 < 0x80 then some (c0.toNat, 1)
      else
        match leadByte c0 with
        | none => none
        | some (length, code) =>
            (continueCode (length - 1) rest code).map fun code => (code, length)

/-- `AppendUtf8Char`: the bytes it appends. -/
def utf8Char (c : Nat) : ByteString :=
  if c ≤ 0x7F then [UInt8.ofNat c]
  else if c ≤ 0x7FF then [UInt8.ofNat (0xC0 ||| (c >>> 6)), UInt8.ofNat (0x80 ||| (c &&& 0x3F))]
  else if c ≤ 0xFFFF then
    [UInt8.ofNat (0xE0 ||| (c >>> 12)), UInt8.ofNat (0x80 ||| ((c >>> 6) &&& 0x3F)),
      UInt8.ofNat (0x80 ||| (c &&& 0x3F))]
  else
    [UInt8.ofNat (0xF0 ||| (c >>> 18)), UInt8.ofNat (0x80 ||| ((c >>> 12) &&& 0x3F)),
      UInt8.ofNat (0x80 ||| ((c >>> 6) &&& 0x3F)), UInt8.ofNat (0x80 ||| (c &&& 0x3F))]

/-- The katakana letter of a hiragana letter. -/
def katakanaOf (c : Nat) : Nat :=
  if 0x3041 ≤ c ∧ c ≤ 0x3096 then c + 0x60
  else if c = 0x309D then 0x30FD
  else if c = 0x309E then 0x30FE
  else c

/-- The loop of `HiraganaToKatakana`; `skip` bytes belong to the last character. -/
def hiraganaToKatakanaFrom : Nat → ByteString → ByteString
  | _, [] => []
  | skip + 1, _ :: rest => hiraganaToKatakanaFrom skip rest
  | 0, c :: rest =>
      match decodeUtf8Char (c :: rest) with
      | none => c :: hiraganaToKatakanaFrom 0 rest
      | some (code, length) =>
          utf8Char (katakanaOf code) ++ hiraganaToKatakanaFrom (length - 1) rest

/-- `HiraganaToKatakana`. -/
def hiraganaToKatakana (s : ByteString) : ByteString := hiraganaToKatakanaFrom 0 s

/-- Where the loop of `DecodePreviousUtf8Char` stops. -/
def previousStart (s : ByteString) : Nat → Nat
  | 0 => 0
  | start + 1 =>
      if byteAt s (start + 1) &&& 0xC0 = 0x80 then previousStart s start else start + 1

/-- `DecodePreviousUtf8Char`: the code of the character that ends at the index. -/
def decodePreviousUtf8Char (s : ByteString) (index : Nat) : Option Nat :=
  if index = 0 ∨ index > s.length then none
  else
    let start := previousStart s (index - 1)
    match decodeUtf8Char (s.drop start) with
    | none => none
    | some (code, length) => if start + length = index then some code else none

/-! ## Boundaries -/

/-- `IsAsciiWordLike`. -/
def isAsciiWordLike (c : Nat) : Bool :=
  (0x30 ≤ c && c ≤ 0x39) || (0x41 ≤ c && c ≤ 0x5A) || (0x61 ≤ c && c ≤ 0x7A) || c = 0x5F ||
    c = 0x2D || c = 0x2E || c = 0x2B || c = 0x23

/-- `IsJapaneseLetterLike`. -/
def isJapaneseLetterLike (c : Nat) : Bool :=
  (0x3040 ≤ c && c ≤ 0x309F) || (0x30A0 ≤ c && c ≤ 0x30FF) || (0x3400 ≤ c && c ≤ 0x9FFF) ||
    (0xF900 ≤ c && c ≤ 0xFAFF) || (0xFF66 ≤ c && c ≤ 0xFF9D)

/-- `IsJapaneseParticleBoundary`: の は を に で へ と が も や か. -/
def isJapaneseParticleBoundary (c : Nat) : Bool :=
  [0x306E, 0x306F, 0x3092, 0x306B, 0x3067, 0x3078, 0x3068, 0x304C, 0x3082, 0x3084,
    0x304B].contains c

/-- `IsPunctuationOrSpaceBoundary`. -/
def isPunctuationOrSpaceBoundary (c : Nat) : Bool :=
  c ≤ 0x20 ||
    [0x3001, 0x3002, 0xFF0C, 0xFF0E, 0x30FB, 0x300C, 0x300D, 0x300E, 0x300F, 0xFF08, 0xFF09,
      0x28, 0x29, 0x5B, 0x5D, 0x7B, 0x7D, 0x20, 0x09, 0x0A].contains c

/-- `IsProtectedSurfaceBoundaryChar`. -/
def isProtectedSurfaceBoundaryChar (c : Nat) : Bool :=
  if isPunctuationOrSpaceBoundary c || isJapaneseParticleBoundary c then true
  else !isJapaneseLetterLike c && !isAsciiWordLike c

/-- `HasProtectedSurfaceBoundaries`. -/
def hasProtectedSurfaceBoundaries (value : ByteString) (pos : Nat) (surface : ByteString) : Bool :=
  if surface = [] ∨ pos > value.length ∨ pos + surface.length > value.length then false
  else
    let left :=
      if pos > 0 then
        match decodePreviousUtf8Char value pos with
        | none => false
        | some c => isProtectedSurfaceBoundaryChar c
      else true
    let rightPos := pos + surface.length
    let right :=
      if rightPos < value.length then
        match decodeUtf8Char (value.drop rightPos) with
        | none => false
        | some (c, _) => isProtectedSurfaceBoundaryChar c
      else true
    left && right

/-- The boundary character behind the surface at a position. -/
def rightBoundary (value surface : ByteString) (pos : Nat) : Option ByteString :=
  let rightPos := pos + surface.length
  if rightPos ≥ value.length then none
  else
    match decodeUtf8Char (value.drop rightPos) with
    | none => none
    | some (c, length) =>
        if isProtectedSurfaceBoundaryChar c then some ((value.drop rightPos).take length) else none

/-- `FindUniqueRightBoundaryAfterSurface`; empty when there is none or several. -/
def findUniqueRightBoundaryAfterSurface (value surface : ByteString) : ByteString :=
  if surface = [] then []
  else
    match (occurrences surface value).filterMap (rightBoundary value surface) with
    | [] => []
    | boundary :: others => if others.all (· = boundary) then boundary else []

/-- The loop of `IsAllJapaneseAttachedContent`; `skip` bytes belong to the last
character. -/
def isAllJapaneseFrom : Nat → ByteString → Bool
  | _, [] => true
  | skip + 1, _ :: rest => isAllJapaneseFrom skip rest
  | 0, c :: rest =>
      match decodeUtf8Char (c :: rest) with
      | none => false
      | some (code, length) =>
          if !isJapaneseLetterLike code || isJapaneseParticleBoundary code then false
          else isAllJapaneseFrom (length - 1) rest

/-- `IsAllJapaneseAttachedContent`. -/
def isAllJapaneseAttachedContent (value : ByteString) : Bool :=
  if value = [] then false else isAllJapaneseFrom 0 value

/-- `CountOccurrences`. -/
def countOccurrences (haystack needle : ByteString) : Nat :=
  if needle = [] then 0 else (occurrences needle haystack).length

/-- `CountBoundaryPreservedOccurrences`. -/
def countBoundaryPreservedOccurrences (value surface : ByteString) : Nat :=
  if surface = [] then 0
  else ((occurrences surface value).filter
    (hasProtectedSurfaceBoundaries value · surface)).length

/-! ## Protected spans and their repairs -/

/-- `ProtectedConversionSpan::Tier`. -/
inductive Tier where
  | identityCritical
  | userPreferred
  deriving DecidableEq, Repr

structure ProtectedConversionSpan where
  key : ByteString
  value : ByteString
  tier : Tier := .userPreferred
  repairable : Bool := false
  requiredOccurrences : Nat := 1
  deriving DecidableEq, Repr

/-- The text that is erased behind the surface at a position: its length. -/
def attachedLength (value surface expectedBoundary : ByteString) (pos : Nat) : Option Nat :=
  if hasProtectedSurfaceBoundaries value pos surface then none
  else
    let behind := value.drop (pos + surface.length)
    match find behind expectedBoundary with
    | none => none
    | some length =>
        if length = 0 ∨ length > 12 then none
        else if isAllJapaneseAttachedContent (behind.take length) then some length
        else none

/-- `TryRepairAttachedProtectedSpan`: the repaired value. -/
def tryRepairAttachedProtectedSpan (mozcValue : ByteString) (span : ProtectedConversionSpan)
    (value : ByteString) : Option ByteString :=
  if span.value = [] then none
  else
    let expectedBoundary := findUniqueRightBoundaryAfterSurface mozcValue span.value
    if expectedBoundary = [] then none
    else
      (occurrences span.value value).findSome? fun pos =>
        (attachedLength value span.value expectedBoundary pos).map fun length =>
          value.take (pos + span.value.length) ++ value.drop (pos + span.value.length + length)

/-- `IsRepairCandidateSafe`. -/
def isRepairCandidateSafe (from_ : ByteString) (span : ProtectedConversionSpan) : Bool :=
  if from_ = [] ∨ from_ = span.value then false
  else if span.repairable = false ∨ span.tier ≠ .identityCritical then false
  else
    (span.value.countP fun c =>
      (0x30 ≤ c && c ≤ 0x39) || (0x41 ≤ c && c ≤ 0x5A) || (0x61 ≤ c && c ≤ 0x7A)) ≥ 3

/-- One candidate of `TryRepairProtectedSpan`. -/
def repairCandidate (span : ProtectedConversionSpan) (value candidate : ByteString) :
    Option ByteString :=
  if isRepairCandidateSafe candidate span = false then none
  else if countOccurrences value candidate ≠ 1 then none
  else some (replaceAll candidate span.value value)

/-- `TryRepairProtectedSpan`: the repaired value.  It contains the surface, so the last
test of the source holds. -/
def tryRepairProtectedSpan (span : ProtectedConversionSpan) (value : ByteString) :
    Option ByteString :=
  [hiraganaToKatakana span.key, span.key].findSome? (repairCandidate span value)

/-! ## `Decide` -/

/-- `ZenzAdoptionInput`, as far as `Decide` reads it. -/
structure ZenzAdoptionInput where
  mozcValue : ByteString
  zenzValue : ByteString
  protectedSpans : List ProtectedConversionSpan

/-- `ZenzAdoptionResult::Action`. -/
inductive ZenzAdoptionAction where
  | acceptAsIs
  | acceptWithRepair
  | reject
  deriving DecidableEq, Repr

structure ZenzAdoptionResult where
  action : ZenzAdoptionAction
  value : ByteString
  reason : ByteString
  deriving DecidableEq, Repr

namespace ZenzAdoptionPolicy

/-- How often the surface of a span must be preserved. -/
def requiredOccurrences (span : ProtectedConversionSpan) : Nat :=
  if span.requiredOccurrences = 0 then 1 else span.requiredOccurrences

/-- The surface of a span is preserved in a value. -/
def Preserves (value : ByteString) (span : ProtectedConversionSpan) : Prop :=
  requiredOccurrences span ≤ countBoundaryPreservedOccurrences value span.value

instance instDecidablePreserves (value : ByteString) (span : ProtectedConversionSpan) :
    Decidable (Preserves value span) :=
  inferInstanceAs (Decidable (_ ≤ _))

/-- One repair in the loop over a span, if one is possible. -/
def repair (mozcValue : ByteString) (span : ProtectedConversionSpan) (value : ByteString) :
    Option ByteString :=
  match tryRepairAttachedProtectedSpan mozcValue span value with
  | some repaired => some repaired
  | none =>
      if countOccurrences value span.value < requiredOccurrences span then
        tryRepairProtectedSpan span value
      else none

/-- Why a value is rejected. -/
def rejectReason (span : ProtectedConversionSpan) (value : ByteString) : ByteString :=
  if countOccurrences value span.value ≥ requiredOccurrences span then
    ascii "protected_user_dictionary_surface_boundary_changed"
  else ascii "protected_user_dictionary_surface_not_preserved"

/-- How the loop over a span ends: with a value that preserves the surface, and whether it
was repaired, or with the reason of a rejection. -/
inductive SpanOutcome where
  | preserved (value : ByteString) (repaired : Bool)
  | rejected (reason : ByteString)

/-- The loop over a span, with at most `fuel` iterations. -/
def repairSpan (mozcValue : ByteString) (span : ProtectedConversionSpan) :
    Nat → ByteString → Bool → Option SpanOutcome
  | 0, _, _ => none
  | fuel + 1, value, repaired =>
      if Preserves value span then some (.preserved value repaired)
      else
        match repair mozcValue span value with
        | some value => repairSpan mozcValue span fuel value true
        | none => some (.rejected (rejectReason span value))

/-- The loop over the spans. -/
def decideSpans (mozcValue : ByteString) (fuel : Nat) :
    List ProtectedConversionSpan → ByteString → Bool → Option ZenzAdoptionResult
  | [], value, repaired =>
      some
        { action := if repaired then .acceptWithRepair else .acceptAsIs
          value := value
          reason := if repaired then ascii "protected_user_dictionary_surface_repaired"
            else ascii "accepted" }
  | span :: spans, value, repaired =>
      if span.value = [] then decideSpans mozcValue fuel spans value repaired
      else
        match repairSpan mozcValue span fuel value repaired with
        | none => none
        | some (.rejected reason) =>
            some { action := .reject, value := mozcValue, reason := reason }
        | some (.preserved value repaired) => decideSpans mozcValue fuel spans value repaired

/-- `ZenzAdoptionPolicy::Decide`, with at most `fuel` iterations over each span. -/
def decide (fuel : Nat) (input : ZenzAdoptionInput) : Option ZenzAdoptionResult :=
  decideSpans input.mozcValue fuel input.protectedSpans input.zenzValue false

/-- `Decide` returns a result. -/
def Returns (input : ZenzAdoptionInput) (result : ZenzAdoptionResult) : Prop :=
  ∃ fuel, ZenzAdoptionPolicy.decide fuel input = some result

end ZenzAdoptionPolicy

end Mozkey.Session
