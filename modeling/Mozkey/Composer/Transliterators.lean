import Mozkey.Composer.SpecialKey

/-!
# Transliterators

A transliterator shows a chunk by the text that was typed or by what it was converted to.  How
single characters change their form is left to functions that are given, since it depends on
tables of Japanese characters and on what the user has set.
-/

namespace Mozkey.Composer

/-- `Transliterators::Transliterator`; `LOCAL` is the one that a chunk has itself. -/
inductive Transliterator where
  | localChoice
  | conversionString
  | rawString
  | hiragana
  | fullKatakana
  | halfKatakana
  | fullAscii
  | halfAscii
deriving DecidableEq

/-- What `japanese_util` and `CharacterFormManager` do to texts. -/
structure CharacterForms where
  /-- Half-width to full-width characters, and these in the forms for a preedit. -/
  hiragana : Text → Text
  /-- The same behind hiragana to katakana. -/
  fullKatakana : Text → Text
  /-- Hiragana to katakana, and full-width to half-width characters. -/
  halfKatakana : Text → Text
  /-- Half-width katakana to full-width katakana, and these to hiragana. -/
  halfKatakanaToHiragana : Text → Text
  fullWidthAsciiToHalfWidthAscii : Text → Text
  halfWidthAsciiToFullWidthAscii : Text → Text

/-- The two halves of the raw and of the converted text. -/
structure Halves where
  rawLhs : Text
  rawRhs : Text
  convertedLhs : Text
  convertedRhs : Text

/-- `SplitPrimaryString`: whether the texts have the right half as a common suffix, the halves of
the primary and those of the secondary text. -/
def splitPrimaryString (position : Nat) (primary secondary : Text) : Bool × (Text × Text) × Text × Text :=
  let primaryLhs := primary.take position
  let primaryRhs := primary.drop position
  -- the program compares sizes and looks for the last occurrence
  if primaryRhs.isSuffixOf secondary then
    (true, (primaryLhs, primaryRhs),
      secondary.take (secondary.length - primaryRhs.length), primaryRhs)
  else (false, (primaryLhs, primaryRhs), primaryLhs, primaryRhs)

/-- `Transliterators::SplitRaw`. -/
def splitRaw (position : Nat) (raw converted : Text) : Bool × Halves :=
  let (result, primary, secondary) := splitPrimaryString position raw converted
  (result, ⟨primary.1, primary.2, secondary.1, secondary.2⟩)

/-- `Transliterators::SplitConverted`. -/
def splitConverted (position : Nat) (raw converted : Text) : Bool × Halves :=
  let (result, primary, secondary) := splitPrimaryString position converted raw
  (result, ⟨secondary.1, secondary.2, primary.1, primary.2⟩)

namespace Transliterator

variable (forms : CharacterForms)

/-- `TransliteratorInterface::Transliterate`. -/
def transliterate (raw converted : Text) : Transliterator → Text
  -- without a transliterator the program falls back to the conversion
  | localChoice | conversionString => converted
  | rawString => raw
  | hiragana => forms.hiragana converted
  | fullKatakana => forms.fullKatakana converted
  | halfKatakana => forms.halfKatakana converted
  | fullAscii => forms.halfWidthAsciiToFullWidthAscii (if raw.isEmpty then converted else raw)
  | halfAscii => forms.fullWidthAsciiToHalfWidthAscii (if raw.isEmpty then converted else raw)

/-- `HalfKatakanaTransliterator::Split`. -/
def splitHalfKatakana (position : Nat) (raw converted : Text) : Halves :=
  let back := forms.halfKatakanaToHiragana
  let (result, halves) := splitConverted position raw (forms.halfKatakana converted)
  { rawLhs := if result then halves.rawLhs else back halves.rawLhs
    rawRhs := if result then halves.rawRhs else back halves.rawRhs
    convertedLhs := back halves.convertedLhs
    convertedRhs := back halves.convertedRhs }

/-- `TransliteratorInterface::Split`. -/
def split (position : Nat) (raw converted : Text) : Transliterator → Halves
  | rawString | fullAscii | halfAscii => (splitRaw position raw converted).2
  | halfKatakana => splitHalfKatakana forms position raw converted
  | localChoice | conversionString | hiragana | fullKatakana =>
      (splitConverted position raw converted).2

end Transliterator

end Mozkey.Composer
