import Mozkey.Base.ByteString
import Mozkey.Lib.List

/-!
# Numbers with separators

`NumberUtil::ArabicToSeparatedArabic` takes a decimal number and writes it with a separator in front
of every third digit of the integer part, in half-width and in full-width characters.  It asks
first whether the integer part begins with a zero, also where that part is empty.

`separatesSafely_iff` says that nothing outside of the integer part is read, and that what is written
is the number again, exactly when the integer part is not empty.
-/

namespace Mozkey

namespace NumberUtil

open Mozkey.Lib

/-! ## Decimal numbers -/

def kAsciiPoint : UInt8 := 0x2E
def kAsciiZero : UInt8 := 0x30
def kAsciiNine : UInt8 := 0x39

/-- `absl::ascii_isdigit`. -/
def isDigit (c : UInt8) : Bool := kAsciiZero ≤ c ∧ c ≤ kAsciiNine

/-- The loop of `IsDecimalNumber`, with the number of points so far. -/
def isDecimalNumberFrom : Nat → ByteString → Bool
  | _, [] => true
  | numPoint, c :: str =>
      if c = kAsciiPoint then
        if numPoint + 1 ≥ 2 then false else isDecimalNumberFrom (numPoint + 1) str
      else if isDigit c then isDecimalNumberFrom numPoint str
      else false

/-- `IsDecimalNumber`. -/
def isDecimalNumber (str : ByteString) : Bool := isDecimalNumberFrom 0 str

/-- The bytes in front of the first point. -/
def integerPart (str : ByteString) : ByteString := str.takeWhile fun c => decide (c ≠ kAsciiPoint)

/-- The point and what is behind it. -/
def fractionPart (str : ByteString) : ByteString := str.dropWhile fun c => decide (c ≠ kAsciiPoint)

/-! ## Variations -/

inductive Style where
  | numberSeparatedArabicHalfwidth
  | numberSeparatedArabicFullwidth
  deriving DecidableEq, Repr

/-- `NumberUtil::NumberString`. -/
structure NumberString where
  value : List Char
  description : List Char
  style : Style
  deriving DecidableEq, Repr

/-- `NumberStringVariation`. -/
structure NumberStringVariation where
  digits : List (List Char)
  description : List Char
  separator : List Char
  point : List Char
  style : Style

def kNumHalfWidthDigits : List (List Char) :=
  [['0'], ['1'], ['2'], ['3'], ['4'], ['5'], ['6'], ['7'], ['8'], ['9'], []]

def kNumFullWidthDigits : List (List Char) :=
  [['０'], ['１'], ['２'], ['３'], ['４'], ['５'], ['６'], ['７'], ['８'], ['９'], []]

def kNumDigitsVariations : List NumberStringVariation :=
  [⟨kNumHalfWidthDigits, ['数', '字'], [','], ['.'], .numberSeparatedArabicHalfwidth⟩,
    ⟨kNumFullWidthDigits, ['数', '字'], ['，'], ['．'], .numberSeparatedArabicFullwidth⟩]

namespace NumberStringVariation

variable (variation : NumberStringVariation)

/-- A digit of the integer part; nothing is written for other bytes. -/
def integerDigit (c : UInt8) : List Char :=
  let d := (c - kAsciiZero).toNat
  if d ≤ 9 then variation.digits.getD d [] else []

/-- The loop over the integer part. -/
def separateInteger : Bool → ByteString → List Char
  | _, [] => []
  | isFirst, c :: integer =>
      (if !isFirst && (integer.length + 1) % 3 = 0 then variation.separator else [])
        ++ (variation.integerDigit c ++ separateInteger false integer)

/-- The loop over the digits behind the point; none where one of them is not in the table. -/
def fractionDigits : ByteString → Option (List Char)
  | [] => some []
  | c :: fraction =>
      (variation.digits[(c - kAsciiZero).toNat]?).bind fun digit =>
        (fractionDigits fraction).map fun digits => digit ++ digits

/-- The fractional part, with its point. -/
def writeFraction : ByteString → Option (List Char)
  | [] => some []
  | _ :: fraction => (variation.fractionDigits fraction).map fun digits => variation.point ++ digits

/-- A number in a variation. -/
def write (inputNum : ByteString) : Option NumberString :=
  (variation.writeFraction (fractionPart inputNum)).map fun fraction =>
    ⟨variation.separateInteger true (integerPart inputNum) ++ fraction, variation.description,
      variation.style⟩

end NumberStringVariation

/-- `NumberUtil::ArabicToSeparatedArabic`: the strings it adds, none of them where it returns false.
No result at all where it reads something that is not there. -/
def arabicToSeparatedArabic (inputNum : ByteString) : Option (Option (List NumberString)) :=
  if isDecimalNumber inputNum then
    match (integerPart inputNum)[0]? with
    | none => none
    | some first =>
        if first = kAsciiZero then some none
        else (kNumDigitsVariations.mapM (NumberStringVariation.write · inputNum)).map some
  else some none

example : arabicToSeparatedArabic [0x31, 0x32, 0x33, 0x34, 0x2E] = some (some
    [⟨['1', ',', '2', '3', '4', '.'], ['数', '字'], .numberSeparatedArabicHalfwidth⟩,
      ⟨['１', '，', '２', '３', '４', '．'], ['数', '字'], .numberSeparatedArabicFullwidth⟩]) := by
  decide

/-! ## Numbers that are well separated -/

/-- The digits of the integer part from some place on. -/
def digitsToPoint (separator point : Char) (value : List Char) : Nat :=
  ((value.takeWhile fun c => decide (c ≠ point)).filter fun c => decide (c ≠ separator)).length

/-- **The separators stand** in front of every third digit of the integer part, counted from the
point, other than the first digit of all, and nowhere else. -/
structure WellSeparated (separator point : Char) (value : List Char) : Prop where
  first : value.head? ≠ some separator
  digit : ∀ front c back, value = front ++ c :: back → c ≠ separator → c ≠ point → point ∉ front →
    (front.getLast? = some separator ↔ front ≠ [] ∧ 3 ∣ digitsToPoint separator point (c :: back))
  separator : ∀ front back, value = front ++ separator :: back → point ∉ front ∧
    ∃ c back', back = c :: back' ∧ c ≠ separator ∧ c ≠ point

/-- A byte for a character of a number. -/
def toAscii (variation : NumberStringVariation) (c : Char) : Option UInt8 :=
  if variation.point = [c] then some kAsciiPoint
  else (variation.digits.findIdx? fun digit => decide (digit = [c])).map
    fun d => kAsciiZero + UInt8.ofNat d

/-- **A string is the number** in the variation: it is well separated, and without the separators its
characters are those of the number. -/
def IsSeparated (variation : NumberStringVariation) (inputNum : ByteString) (value : List Char) :
    Prop :=
  ∃ separator point, variation.separator = [separator] ∧ variation.point = [point] ∧
    WellSeparated separator point value ∧
      (value.filter fun c => decide (c ≠ separator)).mapM (toAscii variation) = some inputNum

/-- Nothing is read that is not there, and each variation of the number is written. -/
def SeparatesSafely (inputNum : ByteString) : Prop :=
  ∃ result, arabicToSeparatedArabic inputNum = some result ∧ ∀ strings ∈ result,
    List.Forall₂ (fun variation string => IsSeparated variation inputNum string.value)
      kNumDigitsVariations strings

/-! ## The parts of a decimal number -/

theorem isDigit_of_decimal {str : ByteString} (decimal : isDecimalNumberFrom 1 str = true) :
    ∀ c ∈ str, isDigit c = true := by
  induction str with
  | nil => simp
  | cons c str ih =>
      rw [isDecimalNumberFrom] at decimal
      split at decimal
      · simp at decimal
      · split at decimal
        · next digit => simpa [digit] using ih decimal
        · cases decimal

/-- **A decimal number** has digits in front of its point, and behind it. -/
theorem parts_of_decimal {str : ByteString} (decimal : isDecimalNumber str = true) :
    (∀ c ∈ integerPart str, isDigit c = true) ∧
      (fractionPart str = [] ∨
        ∃ digits, fractionPart str = kAsciiPoint :: digits ∧ ∀ c ∈ digits, isDigit c = true) := by
  unfold isDecimalNumber at decimal
  induction str with
  | nil => simp [integerPart, fractionPart]
  | cons c str ih =>
      rw [isDecimalNumberFrom] at decimal
      by_cases isPoint : c = kAsciiPoint
      · rw [if_pos isPoint, if_neg (by decide)] at decimal
        subst isPoint
        refine ⟨by simp [integerPart], .inr ⟨str, by simp [fractionPart], ?_⟩⟩
        exact isDigit_of_decimal decimal
      · rw [if_neg isPoint] at decimal
        split at decimal
        · next digit =>
          obtain ⟨integer, fraction⟩ := ih decimal
          constructor
          · simpa [integerPart, isPoint, digit] using integer
          · simpa [fractionPart, isPoint] using fraction
        · cases decimal

theorem integerPart_append_fractionPart (str : ByteString) :
    integerPart str ++ fractionPart str = str :=
  List.takeWhile_append_dropWhile

/-! ## Variations with single characters -/

/-- The separator, the point and the digits of a variation are single characters, all of them
different. -/
structure Regular (variation : NumberStringVariation) (separator point : Char)
    (digit : UInt8 → Char) : Prop where
  isSeparator : variation.separator = [separator]
  isPoint : variation.point = [point]
  apart : separator ≠ point
  inTable : ∀ c, isDigit c = true → (c - kAsciiZero).toNat ≤ 9 ∧
    variation.digits[(c - kAsciiZero).toNat]? = some [digit c]
  isDigitChar : ∀ c, isDigit c = true →
    digit c ≠ separator ∧ digit c ≠ point ∧ toAscii variation (digit c) = some c

/-- The character of a digit in a table. -/
def digitChar (digits : List (List Char)) (c : UInt8) : Char :=
  (digits.getD (c - kAsciiZero).toNat []).headD ' '

theorem regular_variations : ∀ variation ∈ kNumDigitsVariations,
    ∃ separator point, Regular variation separator point (digitChar variation.digits) := by
  simp only [kNumDigitsVariations, List.forall_mem_cons, List.not_mem_nil, false_imp_iff,
    implies_true, and_true]
  constructor
  · refine ⟨',', '.', rfl, rfl, by decide, ?_, ?_⟩
    · apply byte_forall
      decide +kernel
    · apply byte_forall
      decide +kernel
  · refine ⟨'，', '．', rfl, rfl, by decide, ?_, ?_⟩
    · apply byte_forall
      decide +kernel
    · apply byte_forall
      decide +kernel

section Regular

variable {variation : NumberStringVariation} {separator point : Char} {digit : UInt8 → Char}

theorem separateInteger_cons (regular : Regular variation separator point digit) (isFirst : Bool)
    {c : UInt8} {integer : ByteString} (isDigitC : isDigit c = true) :
    variation.separateInteger isFirst (c :: integer)
      = (if isFirst = false ∧ 3 ∣ integer.length + 1 then [separator] else [])
        ++ digit c :: variation.separateInteger false integer := by
  obtain ⟨small, inTable⟩ := regular.inTable c isDigitC
  rw [NumberStringVariation.separateInteger, NumberStringVariation.integerDigit, if_pos small,
    List.getD_eq_getElem?_getD, inTable, regular.isSeparator]
  cases isFirst <;> simp [Nat.dvd_iff_mod_eq_zero]

theorem fractionDigits_eq (regular : Regular variation separator point digit)
    {fraction : ByteString} (digits : ∀ c ∈ fraction, isDigit c = true) :
    variation.fractionDigits fraction = some (fraction.map digit) := by
  induction fraction with
  | nil => rfl
  | cons c fraction ih =>
      rw [List.forall_mem_cons] at digits
      simp [NumberStringVariation.fractionDigits, (regular.inTable c digits.1).2, ih digits.2]

/-- What is written behind the integer part: nothing, or a point and digits. -/
def IsFraction (point : Char) (digit : UInt8 → Char) (fraction : ByteString) (written : List Char) :
    Prop :=
  fraction = [] ∧ written = [] ∨ ∃ digits, fraction = kAsciiPoint :: digits ∧
    (∀ c ∈ digits, isDigit c = true) ∧ written = point :: digits.map digit

theorem writeFraction_spec (regular : Regular variation separator point digit)
    {fraction : ByteString} (parts : fraction = [] ∨
      ∃ digits, fraction = kAsciiPoint :: digits ∧ ∀ c ∈ digits, isDigit c = true) :
    ∃ written, variation.writeFraction fraction = some written ∧
      IsFraction point digit fraction written := by
  rcases parts with rfl | ⟨digits, rfl, all⟩
  · exact ⟨[], rfl, .inl ⟨rfl, rfl⟩⟩
  · refine ⟨point :: digits.map digit, ?_, .inr ⟨digits, rfl, all, rfl⟩⟩
    simp [NumberStringVariation.writeFraction, fractionDigits_eq regular all, regular.isPoint]

/-! ## What is written -/

variable {integer fraction : ByteString} {written : List Char}

theorem digitsToPoint_written (regular : Regular variation separator point digit) (isFirst : Bool)
    (digits : ∀ c ∈ integer, isDigit c = true) (isFraction : IsFraction point digit fraction written) :
    digitsToPoint separator point (variation.separateInteger isFirst integer ++ written)
      = integer.length := by
  induction integer generalizing isFirst with
  | nil =>
      rcases isFraction with ⟨_, rfl⟩ | ⟨digits, _, _, rfl⟩
      · rfl
      · simp [NumberStringVariation.separateInteger, digitsToPoint]
  | cons c integer ih =>
      rw [List.forall_mem_cons] at digits
      have rest := ih false digits.2
      obtain ⟨notSeparator, notPoint, _⟩ := regular.isDigitChar c digits.1
      rw [separateInteger_cons regular isFirst digits.1]
      simp only [digitsToPoint, ne_eq, decide_not] at rest ⊢
      split <;> simp [notSeparator, notPoint, regular.apart, rest]

theorem mapM_toAscii_digits (regular : Regular variation separator point digit)
    {digits : ByteString} (all : ∀ c ∈ digits, isDigit c = true) :
    ((digits.map digit).filter fun c => decide (c ≠ separator)).mapM (toAscii variation)
      = some digits := by
  induction digits with
  | nil => rfl
  | cons c digits ih =>
      rw [List.forall_mem_cons] at all
      obtain ⟨notSeparator, _, back⟩ := regular.isDigitChar c all.1
      have rest := ih all.2
      simp only [ne_eq, decide_not] at rest ⊢
      simp [notSeparator, back, rest]

/-- Removing the separators and mapping the characters back gives the number. -/
theorem mapM_toAscii_written (regular : Regular variation separator point digit) (isFirst : Bool)
    (digits : ∀ c ∈ integer, isDigit c = true) (isFraction : IsFraction point digit fraction written) :
    ((variation.separateInteger isFirst integer ++ written).filter
        fun c => decide (c ≠ separator)).mapM (toAscii variation) = some (integer ++ fraction) := by
  induction integer generalizing isFirst with
  | nil =>
      rcases isFraction with ⟨rfl, rfl⟩ | ⟨digits, rfl, all, rfl⟩
      · rfl
      · have behind := mapM_toAscii_digits regular all
        have isPoint : toAscii variation point = some kAsciiPoint := by
          simp [toAscii, regular.isPoint]
        simp only [ne_eq, decide_not] at behind ⊢
        simp [NumberStringVariation.separateInteger, regular.apart.symm, isPoint, behind]
  | cons c integer ih =>
      rw [List.forall_mem_cons] at digits
      have rest := ih false digits.2
      obtain ⟨notSeparator, _, back⟩ := regular.isDigitChar c digits.1
      rw [separateInteger_cons regular isFirst digits.1, List.append_assoc, List.cons_append]
      generalize variation.separateInteger false integer ++ written = behind at rest ⊢
      simp only [ne_eq, decide_not] at rest ⊢
      split <;> simp [notSeparator, back, rest]

/-- A separator in a string that goes on behind one more character. -/
theorem getLast?_cons_eq_separator {c : Char} (front : List Char) (other : c ≠ separator) :
    (c :: front).getLast? = some separator ↔ front.getLast? = some separator := by
  rw [List.getLast?_cons]
  cases front.getLast? <;> simp [other]

/-- The separators stand where they have to behind a first digit. -/
structure SeparatedBehind (separator point : Char) (value : List Char) : Prop where
  digit : ∀ front c back, value = front ++ c :: back → c ≠ separator → c ≠ point → point ∉ front →
    (front.getLast? = some separator ↔ 3 ∣ digitsToPoint separator point (c :: back))
  separator : ∀ front back, value = front ++ separator :: back → point ∉ front ∧
    ∃ c back', back = c :: back' ∧ c ≠ separator ∧ c ≠ point

/-- A number begins with a digit and is well separated behind it. -/
theorem SeparatedBehind.wellSeparated {c₀ : Char} {value : List Char} (notSeparator : c₀ ≠ separator)
    (notPoint : c₀ ≠ point) (behind : SeparatedBehind separator point value) :
    WellSeparated separator point (c₀ :: value) where
  first := by simpa using notSeparator
  digit := by
    intro front c back whole cNotSeparator cNotPoint noPoint
    cases front with
    | nil => simp
    | cons first front =>
        obtain ⟨rfl, rest⟩ := List.cons.inj whole
        rw [getLast?_cons_eq_separator front notSeparator]
        simpa using behind.digit front c back rest cNotSeparator cNotPoint fun member =>
          noPoint (List.mem_cons_of_mem _ member)
  separator := by
    intro front back whole
    cases front with
    | nil => exact absurd (List.cons.inj whole).1 notSeparator
    | cons first front =>
        obtain ⟨rfl, rest⟩ := List.cons.inj whole
        obtain ⟨noPoint, next⟩ := behind.separator front back rest
        refine ⟨?_, next⟩
        simpa [notPoint.symm] using noPoint

/-- One more digit, which has no separator in front of it. -/
theorem SeparatedBehind.cons {c₀ : Char} {value : List Char} (notSeparator : c₀ ≠ separator)
    (notPoint : c₀ ≠ point) (behind : SeparatedBehind separator point value)
    (notThird : ¬ 3 ∣ digitsToPoint separator point (c₀ :: value)) :
    SeparatedBehind separator point (c₀ :: value) where
  digit := by
    intro front c back whole cNotSeparator cNotPoint noPoint
    rw [(behind.wellSeparated notSeparator notPoint).digit front c back whole cNotSeparator cNotPoint
      noPoint]
    cases front with
    | nil =>
        obtain ⟨rfl, rfl⟩ := List.cons.inj whole
        simpa using notThird
    | cons first front => simp
  separator := (behind.wellSeparated notSeparator notPoint).separator

/-- One more digit, with a separator in front of it. -/
theorem SeparatedBehind.cons_separator {c₀ : Char} {value : List Char}
    (notSeparator : c₀ ≠ separator) (notPoint : c₀ ≠ point) (apart : separator ≠ point)
    (behind : SeparatedBehind separator point value)
    (isThird : 3 ∣ digitsToPoint separator point (c₀ :: value)) :
    SeparatedBehind separator point (separator :: c₀ :: value) where
  digit := by
    intro front c back whole cNotSeparator cNotPoint noPoint
    cases front with
    | nil => exact absurd (List.cons.inj whole).1.symm cNotSeparator
    | cons first front =>
        obtain ⟨rfl, rest⟩ := List.cons.inj whole
        have noPoint' : point ∉ front := fun member => noPoint (List.mem_cons_of_mem _ member)
        cases front with
        | nil =>
            obtain ⟨rfl, rfl⟩ := List.cons.inj rest
            simpa using isThird
        | cons second front =>
            have inner := (behind.wellSeparated notSeparator notPoint).digit (second :: front) c back
              rest cNotSeparator cNotPoint noPoint'
            rw [List.getLast?_cons_cons, inner]
            simp
  separator := by
    intro front back whole
    cases front with
    | nil =>
        obtain ⟨_, rfl⟩ := List.cons.inj whole
        exact ⟨List.not_mem_nil, c₀, value, rfl, notSeparator, notPoint⟩
    | cons first front =>
        obtain ⟨rfl, rest⟩ := List.cons.inj whole
        obtain ⟨noPoint, next⟩ :=
          (behind.wellSeparated notSeparator notPoint).separator front back rest
        refine ⟨?_, next⟩
        simpa [apart.symm] using noPoint

/-- A fraction has no separators. -/
theorem separatedBehind_fraction (regular : Regular variation separator point digit)
    (isFraction : IsFraction point digit fraction written) :
    SeparatedBehind separator point written := by
  rcases isFraction with ⟨rfl, rfl⟩ | ⟨digits, rfl, all, rfl⟩
  · exact ⟨by simp, by simp⟩
  · constructor
    · intro front c back whole _ notPoint noPoint
      cases front with
      | nil => exact absurd (List.cons.inj whole).1.symm notPoint
      | cons first front =>
          obtain ⟨rfl, _⟩ := List.cons.inj whole
          exact absurd List.mem_cons_self noPoint
    · intro front back whole
      have inside : separator ∈ point :: digits.map digit := by
        rw [whole]
        simp
      rcases List.mem_cons.1 inside with same | inside
      · exact absurd same regular.apart
      · obtain ⟨c, member, isSeparator⟩ := List.mem_map.1 inside
        exact absurd isSeparator (regular.isDigitChar c (all c member)).1

/-- Behind the first digit, the separators stand where they have to. -/
theorem separatedBehind_written (regular : Regular variation separator point digit)
    (digits : ∀ c ∈ integer, isDigit c = true) (isFraction : IsFraction point digit fraction written) :
    SeparatedBehind separator point (variation.separateInteger false integer ++ written) := by
  induction integer with
  | nil => exact separatedBehind_fraction regular isFraction
  | cons c₀ integer ih =>
      have count := digitsToPoint_written regular true digits isFraction
      rw [List.forall_mem_cons] at digits
      have behind := ih digits.2
      obtain ⟨notSeparator, notPoint, _⟩ := regular.isDigitChar c₀ digits.1
      rw [separateInteger_cons regular true digits.1, List.append_assoc, List.cons_append] at count
      rw [separateInteger_cons regular false digits.1, List.append_assoc, List.cons_append]
      by_cases isThird : 3 ∣ integer.length + 1
      · rw [if_pos ⟨rfl, isThird⟩]
        refine behind.cons_separator notSeparator notPoint regular.apart ?_
        simpa using count ▸ isThird
      · rw [if_neg fun both => isThird both.2]
        refine behind.cons notSeparator notPoint ?_
        simpa using count ▸ isThird

/-- **A variation of a number** whose integer part is not empty. -/
theorem isSeparated_write (regular : Regular variation separator point digit) {inputNum : ByteString}
    (decimal : isDecimalNumber inputNum = true) (nonempty : integerPart inputNum ≠ []) :
    ∃ string, variation.write inputNum = some string ∧
      IsSeparated variation inputNum string.value := by
  obtain ⟨digits, parts⟩ := parts_of_decimal decimal
  obtain ⟨written, isWritten, isFraction⟩ := writeFraction_spec regular parts
  refine ⟨_, by rw [NumberStringVariation.write, isWritten, Option.map_some], separator, point,
    regular.isSeparator, regular.isPoint, ?_, ?_⟩
  · cases integer : integerPart inputNum with
    | nil => exact absurd integer nonempty
    | cons c₀ integer =>
        rw [integer, List.forall_mem_cons] at digits
        obtain ⟨notSeparator, notPoint, _⟩ := regular.isDigitChar c₀ digits.1
        rw [separateInteger_cons regular true digits.1]
        exact (separatedBehind_written regular digits.2 isFraction).wellSeparated notSeparator notPoint
  · have back := mapM_toAscii_written regular true digits isFraction
    rwa [integerPart_append_fractionPart] at back

end Regular

/-! ## All variations -/

/-- **Nothing is read that is not there, and each variation of the number is written**, exactly when
the integer part is not empty. -/
theorem separatesSafely_iff (inputNum : ByteString) (decimal : isDecimalNumber inputNum = true) :
    SeparatesSafely inputNum ↔ integerPart inputNum ≠ [] := by
  constructor
  · rintro ⟨result, returned, _⟩ isEmpty
    simp [arabicToSeparatedArabic, decimal, isEmpty] at returned
  · intro nonempty
    obtain ⟨c₀, integer, isInteger⟩ := List.exists_cons_of_ne_nil nonempty
    by_cases isZero : c₀ = kAsciiZero
    · refine ⟨none, ?_, by simp⟩
      simp [arabicToSeparatedArabic, decimal, isInteger, isZero]
    · have each : ∀ variation ∈ kNumDigitsVariations, ∃ string,
          variation.write inputNum = some string ∧ IsSeparated variation inputNum string.value := by
        intro variation member
        obtain ⟨separator, point, regular⟩ := regular_variations variation member
        exact isSeparated_write regular decimal nonempty
      obtain ⟨strings, written, separated⟩ := exists_mapM_eq_some each
      refine ⟨some strings, ?_, ?_⟩
      · simp [arabicToSeparatedArabic, decimal, isInteger, isZero, written]
      · intro strings' isStrings
        rwa [← Option.some_inj.1 isStrings]

/-- A number with a point at its end. -/
theorem separatesSafely_pointAtEnd : SeparatesSafely [0x31, 0x32, 0x33, 0x34, 0x2E] :=
  (separatesSafely_iff [0x31, 0x32, 0x33, 0x34, 0x2E] (by decide)).2 (by decide)

/-- **A number without an integer part** is accepted, and its first digit is read nevertheless. -/
theorem not_separatesSafely_noInteger :
    isDecimalNumber [0x2E, 0x35] = true ∧ ¬ SeparatesSafely [0x2E, 0x35] := by
  refine ⟨by decide, ?_⟩
  rintro ⟨result, returned, _⟩
  cases returned

end NumberUtil

end Mozkey
