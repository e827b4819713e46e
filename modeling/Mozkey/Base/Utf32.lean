import Mozkey.Base.Utf8

/-!
# UTF-8 and code points of 31 bits

`Util::Utf8ToUtf32` takes a text apart into code points, in sequences of up to six bytes, and
`Util::Utf32ToUtf8` puts it together again.  The reader takes five bytes for code points below
0x4000000, the writer below 0x8000000, where the leading byte has no room for the highest bit.

`utf32_roundTrips_iff` says for which texts and for which code points the two are inverse to each
other: exactly for those without a code point between the two bounds.
-/

namespace Mozkey

/-- `Util::Utf8ToUtf32`; the loop is that of a `ConstChar32Iterator`. -/
def utf8ToUtf32 (str : ByteString) : List Nat := char32s str

/-- `Util::Utf32ToUtf8`. -/
def utf32ToUtf8 (str : List Nat) : ByteString := str.flatMap codepointToUtf8

/-- A code point of six bytes that is written with five. -/
def Shortened (c : Nat) : Prop := 0x4000000 ≤ c ∧ c < 0x8000000

instance (c : Nat) : Decidable (Shortened c) := inferInstanceAs (Decidable (_ ∧ _))

/-- The text has the first two bytes of such a code point. -/
def HasShortened (str : ByteString) : Prop :=
  ∃ b : UInt8, 0x84 ≤ b ∧ b ≤ 0x87 ∧ [0xFC, b] <:+: str

/-- A text that is found again behind its code points. -/
def RoundTripsUtf8 (str : ByteString) : Prop := utf32ToUtf8 (utf8ToUtf32 str) = str

/-- Code points that are found again behind their text, which is a valid one. -/
def RoundTripsUtf32 (str : List Nat) : Prop :=
  isValidUtf8 (utf32ToUtf8 str) = true ∧ utf8ToUtf32 (utf32ToUtf8 str) = str

/-! ## Bytes of a sequence -/

/-- The value of a trailing byte. -/
def trailingBits (b : UInt8) : Nat := (b &&& 0x3F).toNat

theorem trailingByte_eq {b : UInt8} (isTrailing : isUtf8TrailingByte b = true) :
    b = UInt8.ofNat (0x80 + trailingBits b) ∧ trailingBits b < 64 ∧ b ≠ 0xFC := by
  revert b
  apply byte_forall
  decide +kernel

/-- A leading byte of a sequence of `len` bytes: what it says of the code point, and its bits. -/
theorem leadingByte_cases {lead : UInt8} {info : LeadingByte} (isLead : leadingByte lead = some info) :
    (info.len = 2 ∧ info.minValue = 0x80 ∧ info.maxValue = 0x7FF ∧ info.bits.toNat < 32 ∧
      lead = UInt8.ofNat (0xC0 + info.bits.toNat)) ∨
    (info.len = 3 ∧ info.minValue = 0x800 ∧ info.maxValue = 0xFFFF ∧ info.bits.toNat < 16 ∧
      lead = UInt8.ofNat (0xE0 + info.bits.toNat)) ∨
    (info.len = 4 ∧ info.minValue = 0x10000 ∧ info.maxValue = 0x1FFFFF ∧ info.bits.toNat < 8 ∧
      lead = UInt8.ofNat (0xF0 + info.bits.toNat)) ∨
    (info.len = 5 ∧ info.minValue = 0x200000 ∧ info.maxValue = 0x3FFFFFF ∧ info.bits.toNat < 4 ∧
      lead = UInt8.ofNat (0xF8 + info.bits.toNat)) ∨
    (info.len = 6 ∧ info.minValue = 0x4000000 ∧ info.maxValue = 0x7FFFFFFF ∧ info.bits.toNat < 2 ∧
      lead = UInt8.ofNat (0xFC + info.bits.toNat)) := by
  have bits : ∀ lead : UInt8,
      (lead &&& 0xE0 = 0xC0 → (lead &&& 0x1F).toNat < 32 ∧
        lead = UInt8.ofNat (0xC0 + (lead &&& 0x1F).toNat)) ∧
      (lead &&& 0xF0 = 0xE0 → (lead &&& 0x0F).toNat < 16 ∧
        lead = UInt8.ofNat (0xE0 + (lead &&& 0x0F).toNat)) ∧
      (lead &&& 0xF8 = 0xF0 → (lead &&& 0x07).toNat < 8 ∧
        lead = UInt8.ofNat (0xF0 + (lead &&& 0x07).toNat)) ∧
      (lead &&& 0xFC = 0xF8 → (lead &&& 0x03).toNat < 4 ∧
        lead = UInt8.ofNat (0xF8 + (lead &&& 0x03).toNat)) ∧
      (lead &&& 0xFE = 0xFC → (lead &&& 0x01).toNat < 2 ∧
        lead = UInt8.ofNat (0xFC + (lead &&& 0x01).toNat)) := by
    apply byte_forall
    decide +kernel
  obtain ⟨two, three, four, five, six⟩ := bits lead
  unfold leadingByte at isLead
  split at isLead
  · next is => exact Option.some.inj isLead ▸ .inl ⟨rfl, rfl, rfl, two is⟩
  split at isLead
  · next is => exact Option.some.inj isLead ▸ .inr (.inl ⟨rfl, rfl, rfl, three is⟩)
  split at isLead
  · next is => exact Option.some.inj isLead ▸ .inr (.inr (.inl ⟨rfl, rfl, rfl, four is⟩))
  split at isLead
  · next is => exact Option.some.inj isLead ▸ .inr (.inr (.inr (.inl ⟨rfl, rfl, rfl, five is⟩)))
  split at isLead
  · next is => exact Option.some.inj isLead ▸ .inr (.inr (.inr (.inr ⟨rfl, rfl, rfl, six is⟩)))
  · cases isLead

/-! ## Writing a code point -/

theorem and_1F (n : Nat) : n &&& 0x1F = n % 0x20 := Nat.and_two_pow_sub_one_eq_mod n 5
theorem and_0F (n : Nat) : n &&& 0x0F = n % 0x10 := Nat.and_two_pow_sub_one_eq_mod n 4
theorem and_07 (n : Nat) : n &&& 0x07 = n % 0x08 := Nat.and_two_pow_sub_one_eq_mod n 3
theorem and_03 (n : Nat) : n &&& 0x03 = n % 0x04 := Nat.and_two_pow_sub_one_eq_mod n 2
theorem and_01 (n : Nat) : n &&& 0x01 = n % 0x02 := Nat.and_two_pow_sub_one_eq_mod n 1
theorem and_3F (n : Nat) : n &&& 0x3F = n % 0x40 := Nat.and_two_pow_sub_one_eq_mod n 6

section Write

variable {bits c₁ c₂ c₃ c₄ c₅ c : Nat}

theorem codepointToUtf8_two (is : c = bits * 64 + c₁) (h₀ : bits < 32) (h₁ : c₁ < 64)
    (least : 0x80 ≤ c) :
    codepointToUtf8 c = [UInt8.ofNat (0xC0 + bits), UInt8.ofNat (0x80 + c₁)] := by
  have lead : c / 2 ^ 6 % 0x20 = bits := by omega
  have first : c % 0x40 = c₁ := by omega
  rw [codepointToUtf8, if_neg (by omega), if_neg (by omega), if_pos (by omega)]
  simp only [and_1F, and_3F, Nat.shiftRight_eq_div_pow, lead, first]

theorem codepointToUtf8_three (is : c = (bits * 64 + c₁) * 64 + c₂) (h₀ : bits < 16) (h₁ : c₁ < 64)
    (h₂ : c₂ < 64) (least : 0x800 ≤ c) :
    codepointToUtf8 c = [UInt8.ofNat (0xE0 + bits), UInt8.ofNat (0x80 + c₁), UInt8.ofNat (0x80 + c₂)] := by
  have lead : c / 2 ^ 12 % 0x10 = bits := by omega
  have first : c / 2 ^ 6 % 0x40 = c₁ := by omega
  have second : c % 0x40 = c₂ := by omega
  rw [codepointToUtf8, if_neg (by omega), if_neg (by omega), if_neg (by omega), if_pos (by omega)]
  simp only [and_0F, and_3F, Nat.shiftRight_eq_div_pow, lead, first, second]

theorem codepointToUtf8_four (is : c = ((bits * 64 + c₁) * 64 + c₂) * 64 + c₃) (h₀ : bits < 8)
    (h₁ : c₁ < 64) (h₂ : c₂ < 64) (h₃ : c₃ < 64) (least : 0x10000 ≤ c) :
    codepointToUtf8 c = [UInt8.ofNat (0xF0 + bits), UInt8.ofNat (0x80 + c₁), UInt8.ofNat (0x80 + c₂),
      UInt8.ofNat (0x80 + c₃)] := by
  have lead : c / 2 ^ 18 % 0x08 = bits := by omega
  have first : c / 2 ^ 12 % 0x40 = c₁ := by omega
  have second : c / 2 ^ 6 % 0x40 = c₂ := by omega
  have third : c % 0x40 = c₃ := by omega
  rw [codepointToUtf8, if_neg (by omega), if_neg (by omega), if_neg (by omega), if_neg (by omega),
    if_pos (by omega)]
  simp only [and_07, and_3F, Nat.shiftRight_eq_div_pow, lead, first, second, third]

theorem codepointToUtf8_five (is : c = (((bits * 64 + c₁) * 64 + c₂) * 64 + c₃) * 64 + c₄)
    (h₀ : bits < 4) (h₁ : c₁ < 64) (h₂ : c₂ < 64) (h₃ : c₃ < 64) (h₄ : c₄ < 64)
    (least : 0x200000 ≤ c) :
    codepointToUtf8 c = [UInt8.ofNat (0xF8 + bits), UInt8.ofNat (0x80 + c₁), UInt8.ofNat (0x80 + c₂),
      UInt8.ofNat (0x80 + c₃), UInt8.ofNat (0x80 + c₄)] := by
  have lead : c / 2 ^ 24 % 0x04 = bits := by omega
  have first : c / 2 ^ 18 % 0x40 = c₁ := by omega
  have second : c / 2 ^ 12 % 0x40 = c₂ := by omega
  have third : c / 2 ^ 6 % 0x40 = c₃ := by omega
  have fourth : c % 0x40 = c₄ := by omega
  rw [codepointToUtf8, if_neg (by omega), if_neg (by omega), if_neg (by omega), if_neg (by omega),
    if_neg (by omega), if_pos (by omega)]
  simp only [and_03, and_3F, Nat.shiftRight_eq_div_pow, lead, first, second, third, fourth]

theorem codepointToUtf8_six (is : c = ((((bits * 64 + c₁) * 64 + c₂) * 64 + c₃) * 64 + c₄) * 64 + c₅)
    (h₀ : bits < 2) (h₁ : c₁ < 64) (h₂ : c₂ < 64) (h₃ : c₃ < 64) (h₄ : c₄ < 64) (h₅ : c₅ < 64)
    (least : 0x8000000 ≤ c) :
    codepointToUtf8 c = [UInt8.ofNat (0xFC + bits), UInt8.ofNat (0x80 + c₁), UInt8.ofNat (0x80 + c₂),
      UInt8.ofNat (0x80 + c₃), UInt8.ofNat (0x80 + c₄), UInt8.ofNat (0x80 + c₅)] := by
  have lead : c / 2 ^ 30 % 0x02 = bits := by omega
  have first : c / 2 ^ 24 % 0x40 = c₁ := by omega
  have second : c / 2 ^ 18 % 0x40 = c₂ := by omega
  have third : c / 2 ^ 12 % 0x40 = c₃ := by omega
  have fourth : c / 2 ^ 6 % 0x40 = c₄ := by omega
  have fifth : c % 0x40 = c₅ := by omega
  rw [codepointToUtf8, if_neg (by omega), if_neg (by omega), if_neg (by omega), if_neg (by omega),
    if_neg (by omega), if_neg (by omega)]
  simp only [and_01, and_3F, Nat.shiftRight_eq_div_pow, lead, first, second, third, fourth, fifth]

/-- A code point between the two bounds is written with five bytes. -/
theorem length_codepointToUtf8_of_shortened (shortened : Shortened c) :
    (codepointToUtf8 c).length = 5 := by
  obtain ⟨least, most⟩ := shortened
  rw [codepointToUtf8, if_neg (by omega), if_neg (by omega), if_neg (by omega), if_neg (by omega),
    if_neg (by omega), if_pos most]
  rfl

end Write

/-! ## Taking a code point off -/

/-- What is taken off a text: a byte below 0x80, or a leading byte and trailing bytes. -/
theorem splitFirstChar32_cases {str rest : ByteString} {c : Nat}
    (first : splitFirstChar32 str = some (c, rest)) :
    (∃ lead : UInt8, lead < 0x80 ∧ str = lead :: rest ∧ c = lead.toNat) ∨
      ∃ lead trailing info, str = lead :: (trailing ++ rest) ∧ leadingByte lead = some info ∧
        trailing.length + 1 = info.len ∧ (∀ b ∈ trailing, isUtf8TrailingByte b = true) ∧
          c = trailing.foldl (fun acc b => acc * 64 + trailingBits b) info.bits.toNat ∧
            info.minValue ≤ c ∧ c ≤ info.maxValue := by
  cases str with
  | nil => cases first
  | cons lead str =>
      rw [splitFirstChar32] at first
      split at first
      · next small =>
        obtain ⟨rfl, rfl⟩ := Prod.mk.inj (Option.some.inj first)
        exact .inl ⟨lead, small, rfl, rfl⟩
      split at first
      · cases first
      cases isLead : leadingByte lead with
      | none =>
          rw [isLead] at first
          cases first
      | some info =>
          rw [isLead] at first
          dsimp only at first
          split at first
          · cases first
          split at first
          · next enough all =>
            split at first
            · cases first
            · next bounds =>
              obtain ⟨rfl, rfl⟩ := Prod.mk.inj (Option.some.inj first)
              refine .inr ⟨lead, str.take (info.len - 1), info, ?_, isLead, ?_, ?_, rfl, ?_, ?_⟩
              · rw [List.take_append_drop]
              · rw [List.length_take]
                rcases leadingByte_cases isLead with is | is | is | is | is <;> omega
              · simpa using all
              · exact Nat.le_of_not_lt fun less => bounds (.inl less)
              · exact Nat.le_of_not_lt fun less => bounds (.inr less)
          · cases first

/-! ## The first two bytes of a sequence -/

/-- The text starts with the first two bytes of a code point between the bounds. -/
def StartsShortened (str : ByteString) : Prop :=
  ∃ b : UInt8, 0x84 ≤ b ∧ b ≤ 0x87 ∧ [0xFC, b] <+: str

theorem not_hasShortened_nil : ¬ HasShortened [] := by
  rintro ⟨b, _, _, inside⟩
  simp at inside

theorem hasShortened_cons (b : UInt8) (str : ByteString) :
    HasShortened (b :: str) ↔ StartsShortened (b :: str) ∨ HasShortened str := by
  simp only [HasShortened, StartsShortened, List.infix_cons_iff, and_or_left, exists_or]

theorem not_startsShortened_of_ne {b : UInt8} {str : ByteString} (other : b ≠ 0xFC) :
    ¬ StartsShortened (b :: str) := by
  rintro ⟨second, _, _, front⟩
  exact other (List.cons_prefix_cons.1 front).1.symm

theorem startsShortened_iff {b : UInt8} {str : ByteString} :
    StartsShortened (0xFC :: b :: str) ↔ 0x84 ≤ b ∧ b ≤ 0x87 := by
  constructor
  · rintro ⟨second, least, most, front⟩
    obtain rfl := (List.cons_prefix_cons.1 (List.cons_prefix_cons.1 front).2).1
    exact ⟨least, most⟩
  · rintro ⟨least, most⟩
    exact ⟨b, least, most, str, rfl⟩

/-- The leading byte FC stands in no trailing byte. -/
theorem hasShortened_trailing {trailing : ByteString}
    (all : ∀ b ∈ trailing, isUtf8TrailingByte b = true) (rest : ByteString) :
    HasShortened (trailing ++ rest) ↔ HasShortened rest := by
  induction trailing with
  | nil => rfl
  | cons b trailing ih =>
      rw [List.forall_mem_cons] at all
      rw [List.cons_append, hasShortened_cons, ih all.2]
      exact or_iff_right (not_startsShortened_of_ne (trailingByte_eq all.1).2.2)

/-! ## One sequence -/

/-- What is known of a sequence that was taken off, and of what is left. -/
structure Takes (str rest : ByteString) (c : Nat) : Prop where
  written : ¬ Shortened c → str = codepointToUtf8 c ++ rest
  length : str.length
    = (codepointToUtf8 c).length + rest.length + if Shortened c then 1 else 0
  hasShortened : HasShortened str ↔ Shortened c ∨ HasShortened rest

/-- A sequence that is not shortened is written as it was. -/
theorem Takes.of_written {lead : UInt8} {trailing rest : ByteString} {c : Nat}
    (all : ∀ b ∈ trailing, isUtf8TrailingByte b = true) (notFC : lead ≠ 0xFC)
    (notShortened : ¬ Shortened c) (written : codepointToUtf8 c = lead :: trailing) :
    Takes (lead :: (trailing ++ rest)) rest c where
  written _ := by rw [written, List.cons_append]
  length := by simp [written, notShortened, Nat.add_right_comm]
  hasShortened := by
    rw [hasShortened_cons, hasShortened_trailing all]
    simp [not_startsShortened_of_ne notFC, notShortened]

theorem ofNat_ne_FC {n : Nat} (less : n < 0xFC) : UInt8.ofNat n ≠ 0xFC := by
  intro same
  have values := congrArg UInt8.toNat same
  rw [UInt8.toNat_ofNat', Nat.mod_eq_of_lt (by omega)] at values
  change n = 0xFC at values
  omega

theorem exists_cons_of_length {trailing : ByteString} {n : Nat} (length : trailing.length = n + 1)
    (all : ∀ b ∈ trailing, isUtf8TrailingByte b = true) :
    ∃ b trailing', trailing = b :: trailing' ∧ trailing'.length = n ∧
      (∀ b ∈ trailing', isUtf8TrailingByte b = true) ∧
        b = UInt8.ofNat (0x80 + trailingBits b) ∧ trailingBits b < 64 := by
  obtain ⟨b, trailing', rfl⟩ := List.exists_cons_of_length_eq_add_one length
  rw [List.forall_mem_cons] at all
  obtain ⟨is, less, _⟩ := trailingByte_eq all.1
  exact ⟨b, trailing', rfl, by simpa using length, all.2, is, less⟩

/-- The first two bytes of six tell whether the code point lies between the bounds. -/
theorem startsShortened_six {bits c₂ c₃ c₄ c₅ c : Nat} {lead b₁ : UInt8} {str : ByteString}
    (is : c = ((((bits * 64 + trailingBits b₁) * 64 + c₂) * 64 + c₃) * 64 + c₄) * 64 + c₅)
    (less₀ : bits < 2) (isLead : lead = UInt8.ofNat (0xFC + bits))
    (isFirst : b₁ = UInt8.ofNat (0x80 + trailingBits b₁)) (less₁ : trailingBits b₁ < 64)
    (less₂ : c₂ < 64) (less₃ : c₃ < 64) (less₄ : c₄ < 64) (less₅ : c₅ < 64) :
    StartsShortened (lead :: b₁ :: str) ↔ Shortened c := by
  have first : b₁.toNat = 0x80 + trailingBits b₁ := by
    have values := congrArg UInt8.toNat isFirst
    rwa [UInt8.toNat_ofNat', Nat.mod_eq_of_lt (by omega)] at values
  by_cases zero : bits = 0
  · subst zero
    obtain rfl : lead = 0xFC := isLead
    have least : (0x84 : UInt8) ≤ b₁ ↔ 0x84 ≤ b₁.toNat := UInt8.le_iff_toNat_le
    have most : b₁ ≤ (0x87 : UInt8) ↔ b₁.toNat ≤ 0x87 := UInt8.le_iff_toNat_le
    rw [startsShortened_iff, least, most, first, Shortened]
    omega
  · obtain rfl : bits = 1 := by omega
    have notFC : lead ≠ 0xFC := by
      rw [isLead]
      decide
    refine iff_of_false (not_startsShortened_of_ne notFC) fun shortened => ?_
    exact absurd shortened.2 (by omega)

/-- **A sequence that is taken off** a text. -/
theorem takes_of_split {str rest : ByteString} {c : Nat} (nonzero : c ≠ 0)
    (first : splitFirstChar32 str = some (c, rest)) : Takes str rest c := by
  rcases splitFirstChar32_cases first with
    ⟨lead, small, rfl, rfl⟩ | ⟨lead, trailing, info, rfl, isLead, length, all, value, least, most⟩
  · have less := UInt8.lt_iff_toNat_lt.1 small
    change lead.toNat < 0x80 at less
    refine @Takes.of_written lead [] rest _ (by simp) ?_ ?_ ?_
    · rintro rfl
      exact absurd less (by decide)
    · exact fun shortened => absurd shortened.1 (by omega)
    · rw [codepointToUtf8, if_neg nonzero, if_pos less,
        Nat.and_two_pow_sub_one_eq_mod lead.toNat 8, Nat.mod_eq_of_lt (by omega), UInt8.ofNat_toNat]
  rcases leadingByte_cases isLead with ⟨len, min, max, bits, isByte⟩ | ⟨len, min, max, bits, isByte⟩ |
    ⟨len, min, max, bits, isByte⟩ | ⟨len, min, max, bits, isByte⟩ | ⟨len, min, max, bits, isByte⟩
  · obtain ⟨b₁, t₁, rfl, length, _, is₁, less₁⟩ := exists_cons_of_length (n := 0) (by omega) all
    obtain rfl := List.length_eq_zero_iff.1 length
    rw [min] at least
    refine Takes.of_written all (isByte ▸ ofNat_ne_FC (by omega)) (fun shortened => ?_) ?_
    · exact absurd shortened.1 (by omega)
    · rw [codepointToUtf8_two value bits less₁ least, ← is₁, ← isByte]
  · obtain ⟨b₁, t₁, rfl, length, all₁, is₁, less₁⟩ := exists_cons_of_length (n := 1) (by omega) all
    obtain ⟨b₂, t₂, rfl, length, _, is₂, less₂⟩ := exists_cons_of_length length all₁
    obtain rfl := List.length_eq_zero_iff.1 length
    rw [min] at least
    refine Takes.of_written all (isByte ▸ ofNat_ne_FC (by omega)) (fun shortened => ?_) ?_
    · exact absurd shortened.1 (by omega)
    · rw [codepointToUtf8_three value bits less₁ less₂ least, ← is₁, ← is₂, ← isByte]
  · obtain ⟨b₁, t₁, rfl, length, all₁, is₁, less₁⟩ := exists_cons_of_length (n := 2) (by omega) all
    obtain ⟨b₂, t₂, rfl, length, all₂, is₂, less₂⟩ := exists_cons_of_length length all₁
    obtain ⟨b₃, t₃, rfl, length, _, is₃, less₃⟩ := exists_cons_of_length length all₂
    obtain rfl := List.length_eq_zero_iff.1 length
    rw [min] at least
    refine Takes.of_written all (isByte ▸ ofNat_ne_FC (by omega)) (fun shortened => ?_) ?_
    · exact absurd shortened.1 (by omega)
    · rw [codepointToUtf8_four value bits less₁ less₂ less₃ least, ← is₁, ← is₂, ← is₃, ← isByte]
  · obtain ⟨b₁, t₁, rfl, length, all₁, is₁, less₁⟩ := exists_cons_of_length (n := 3) (by omega) all
    obtain ⟨b₂, t₂, rfl, length, all₂, is₂, less₂⟩ := exists_cons_of_length length all₁
    obtain ⟨b₃, t₃, rfl, length, all₃, is₃, less₃⟩ := exists_cons_of_length length all₂
    obtain ⟨b₄, t₄, rfl, length, _, is₄, less₄⟩ := exists_cons_of_length length all₃
    obtain rfl := List.length_eq_zero_iff.1 length
    rw [min] at least
    refine Takes.of_written all (isByte ▸ ofNat_ne_FC (by omega)) (fun shortened => ?_) ?_
    · exact absurd shortened.1 (by omega)
    · rw [codepointToUtf8_five value bits less₁ less₂ less₃ less₄ least, ← is₁, ← is₂, ← is₃, ← is₄,
        ← isByte]
  · obtain ⟨b₁, t₁, rfl, length, all₁, is₁, less₁⟩ := exists_cons_of_length (n := 4) (by omega) all
    obtain ⟨b₂, t₂, rfl, length, all₂, is₂, less₂⟩ := exists_cons_of_length length all₁
    obtain ⟨b₃, t₃, rfl, length, all₃, is₃, less₃⟩ := exists_cons_of_length length all₂
    obtain ⟨b₄, t₄, rfl, length, all₄, is₄, less₄⟩ := exists_cons_of_length length all₃
    obtain ⟨b₅, t₅, rfl, length, _, is₅, less₅⟩ := exists_cons_of_length length all₄
    obtain rfl := List.length_eq_zero_iff.1 length
    rw [min] at least
    have written : ¬ Shortened c → codepointToUtf8 c = lead :: [b₁, b₂, b₃, b₄, b₅] := by
      intro notShortened
      have large : 0x8000000 ≤ c := by
        by_contra less
        exact notShortened ⟨least, by omega⟩
      rw [codepointToUtf8_six value bits less₁ less₂ less₃ less₄ less₅ large, ← is₁, ← is₂, ← is₃,
        ← is₄, ← is₅, ← isByte]
    have starts : StartsShortened (lead :: ([b₁, b₂, b₃, b₄, b₅] ++ rest)) ↔ Shortened c :=
      startsShortened_six value bits isByte is₁ less₁ less₂ less₃ less₄ less₅
    refine ⟨fun notShortened => by rw [written notShortened]; rfl, ?_, ?_⟩
    · by_cases shortened : Shortened c
      · rw [length_codepointToUtf8_of_shortened shortened, if_pos shortened]
        simp
        omega
      · rw [written shortened, if_neg shortened]
        simp
        omega
    · rw [hasShortened_cons, hasShortened_trailing all, starts]

theorem leadingByte_five (x : Nat) (less : x < 4) :
    ¬ UInt8.ofNat (x + 0xF8) < 0x80 ∧ isUtf8TrailingByte (UInt8.ofNat (x + 0xF8)) = false ∧
      leadingByte (UInt8.ofNat (x + 0xF8)) = some ⟨5, 0x200000, 0x3FFFFFF, UInt8.ofNat x⟩ := by
  revert x
  decide

theorem leadingByte_six (x : Nat) (less : x < 2) :
    ¬ UInt8.ofNat (x + 0xFC) < 0x80 ∧ isUtf8TrailingByte (UInt8.ofNat (x + 0xFC)) = false ∧
      leadingByte (UInt8.ofNat (x + 0xFC)) = some ⟨6, 0x4000000, 0x7FFFFFFF, UInt8.ofNat x⟩ := by
  revert x
  decide

/-- **A code point that is written** can be taken off again. -/
theorem splitFirstChar32_codepointToUtf8 {c : Nat} (nonzero : c ≠ 0) (less : c < 2 ^ 31)
    (notShortened : ¬ Shortened c) (rest : ByteString) :
    splitFirstChar32 (codepointToUtf8 c ++ rest) = some (c, rest) := by
  have trail : ∀ n, isUtf8TrailingByte (UInt8.ofNat (n % 64 + 0x80)) = true ∧
      (UInt8.ofNat (n % 64 + 0x80) &&& 0x3F).toNat = n % 64 :=
    fun n => trailingByte (n % 64) (Nat.mod_lt _ (by decide))
  obtain ⟨is₁, low₁⟩ := trail c
  obtain ⟨is₂, low₂⟩ := trail (c / 64)
  obtain ⟨is₃, low₃⟩ := trail (c / 64 / 64)
  obtain ⟨is₄, low₄⟩ := trail (c / 64 / 64 / 64)
  obtain ⟨is₅, low₅⟩ := trail (c / 64 / 64 / 64 / 64)
  have bits : ∀ n, n < 32 → (UInt8.ofNat n).toNat = n := fun n small => by
    rw [UInt8.toNat_ofNat', Nat.mod_eq_of_lt (by omega)]
  by_cases one : c < 0x80
  · have small : UInt8.ofNat c < 0x80 := by
      rw [UInt8.lt_iff_toNat_lt, UInt8.toNat_ofNat', Nat.mod_eq_of_lt (by omega)]
      exact one
    rw [codepointToUtf8, if_neg nonzero, if_pos one, Nat.and_two_pow_sub_one_eq_mod c 8,
      Nat.mod_eq_of_lt (by omega), List.cons_append, List.nil_append, splitFirstChar32, if_pos small,
      UInt8.toNat_ofNat', Nat.mod_eq_of_lt (by omega)]
  by_cases two : c < 0x800
  · obtain ⟨ascii, notTrail, lead⟩ := leadingByte_two (c / 64) (by omega)
    rw [codepointToUtf8_two (show c = c / 64 * 64 + c % 64 by omega) (by omega) (by omega)
      (by omega), Nat.add_comm 0xC0, Nat.add_comm 0x80]
    refine splitFirstChar32_sequence ascii notTrail lead rfl (by simp only [List.all_cons, List.all_nil, is₁, Bool.and_self]) ?_ (by omega) (by omega)
    simp only [List.foldl_cons, List.foldl_nil, low₁, bits _ (show c / 64 < 32 by omega)]
    omega
  by_cases three : c < 0x10000
  · obtain ⟨ascii, notTrail, lead⟩ := leadingByte_three (c / 64 / 64) (by omega)
    rw [codepointToUtf8_three
      (show c = (c / 64 / 64 * 64 + c / 64 % 64) * 64 + c % 64 by omega)
      (by omega) (by omega) (by omega) (by omega)]
    simp only [Nat.add_comm 0xE0, Nat.add_comm 0x80]
    refine splitFirstChar32_sequence ascii notTrail lead rfl (by simp only [List.all_cons, List.all_nil, is₁, is₂, Bool.and_self]) ?_ (by omega)
      (by omega)
    simp only [List.foldl_cons, List.foldl_nil, low₁, low₂,
      bits _ (show c / 64 / 64 < 32 by omega)]
    omega
  by_cases four : c < 0x200000
  · obtain ⟨ascii, notTrail, lead⟩ := leadingByte_four (c / 64 / 64 / 64) (by omega)
    rw [codepointToUtf8_four
      (show c = ((c / 64 / 64 / 64 * 64 + c / 64 / 64 % 64) * 64 + c / 64 % 64) * 64 + c % 64 by omega)
      (by omega) (by omega) (by omega) (by omega) (by omega)]
    simp only [Nat.add_comm 0xF0, Nat.add_comm 0x80]
    refine splitFirstChar32_sequence ascii notTrail lead rfl (by simp only [List.all_cons, List.all_nil, is₁, is₂, is₃, Bool.and_self]) ?_ (by omega)
      (by omega)
    simp only [List.foldl_cons, List.foldl_nil, low₁, low₂, low₃,
      bits _ (show c / 64 / 64 / 64 < 32 by omega)]
    omega
  by_cases five : c < 0x4000000
  · obtain ⟨ascii, notTrail, lead⟩ := leadingByte_five (c / 64 / 64 / 64 / 64) (by omega)
    rw [codepointToUtf8_five
      (show c = (((c / 64 / 64 / 64 / 64 * 64 + c / 64 / 64 / 64 % 64) * 64 + c / 64 / 64 % 64) * 64
        + c / 64 % 64) * 64 + c % 64 by omega)
      (by omega) (by omega) (by omega) (by omega) (by omega) (by omega)]
    simp only [Nat.add_comm 0xF8, Nat.add_comm 0x80]
    refine splitFirstChar32_sequence ascii notTrail lead rfl (by simp only [List.all_cons, List.all_nil, is₁, is₂, is₃, is₄, Bool.and_self]) ?_
      (by omega) (by omega)
    simp only [List.foldl_cons, List.foldl_nil, low₁, low₂, low₃, low₄,
      bits _ (show c / 64 / 64 / 64 / 64 < 32 by omega)]
    omega
  · have large : 0x8000000 ≤ c := by
      by_contra between
      exact notShortened ⟨by omega, by omega⟩
    obtain ⟨ascii, notTrail, lead⟩ := leadingByte_six (c / 64 / 64 / 64 / 64 / 64) (by omega)
    rw [codepointToUtf8_six
      (show c = ((((c / 64 / 64 / 64 / 64 / 64 * 64 + c / 64 / 64 / 64 / 64 % 64) * 64
        + c / 64 / 64 / 64 % 64) * 64 + c / 64 / 64 % 64) * 64 + c / 64 % 64) * 64 + c % 64 by omega)
      (by omega) (by omega) (by omega) (by omega) (by omega) (by omega) (by omega)]
    simp only [Nat.add_comm 0xFC, Nat.add_comm 0x80]
    refine splitFirstChar32_sequence ascii notTrail lead rfl (by simp only [List.all_cons, List.all_nil, is₁, is₂, is₃, is₄, is₅, Bool.and_self]) ?_
      (by omega) (by omega)
    simp only [List.foldl_cons, List.foldl_nil, low₁, low₂, low₃, low₄, low₅,
      bits _ (show c / 64 / 64 / 64 / 64 / 64 < 32 by omega)]
    omega

/-! ## Whole texts -/

/-- A text is taken apart into code points. -/
inductive Decodes : ByteString → List Nat → Prop where
  | nil : Decodes [] []
  | cons {str rest : ByteString} {c : Nat} {cs : List Nat}
      (first : splitFirstChar32 str = some (c, rest)) (others : Decodes rest cs) :
      Decodes str (c :: cs)

theorem length_of_split {str rest : ByteString} {c : Nat}
    (first : splitFirstChar32 str = some (c, rest)) : rest.length < str.length := by
  rcases splitFirstChar32_cases first with ⟨_, _, rfl, _⟩ | ⟨_, _, _, rfl, _⟩
  · simp
  · simp only [List.length_cons, List.length_append]
    omega

/-- Only the null byte is taken off as zero. -/
theorem nonzero_of_split {str rest : ByteString} {c : Nat}
    (first : splitFirstChar32 str = some (c, rest)) (noNul : 0 ∉ str) : c ≠ 0 ∧ 0 ∉ rest := by
  rcases splitFirstChar32_cases first with
    ⟨lead, _, rfl, rfl⟩ | ⟨lead, trailing, info, rfl, isLead, _, _, _, least, _⟩
  · simp only [List.mem_cons, not_or] at noNul
    exact ⟨fun zero => noNul.1 (UInt8.toNat_inj.1 zero).symm, noNul.2⟩
  · simp only [List.mem_cons, List.mem_append, not_or] at noNul
    refine ⟨?_, noNul.2.2⟩
    rcases leadingByte_cases isLead with is | is | is | is | is <;> omega

/-- **A valid text** is taken apart into its code points. -/
theorem decodes_of_isValidUtf8 {str : ByteString} (valid : isValidUtf8 str = true) :
    Decodes str (utf8ToUtf32 str) := by
  have within : ∀ fuel str, isValidUtf8Within fuel str = true →
      Decodes str (char32sWithin fuel str) := by
    intro fuel
    induction fuel with
    | zero =>
        intro str valid
        cases str with
        | nil => exact .nil
        | cons c str => cases valid
    | succ fuel ih =>
        intro str valid
        cases str with
        | nil => exact .nil
        | cons c str =>
            rw [isValidUtf8Within] at valid
            rw [char32sWithin]
            cases first : splitFirstChar32 (c :: str) with
            | none =>
                rw [first] at valid
                cases valid
            | some taken =>
                rw [first] at valid
                exact .cons first (ih taken.2 valid)
  exact within str.length str valid

namespace Decodes

variable {str : ByteString} {cs : List Nat}

theorem valid (decodes : Decodes str cs) : isValidUtf8 str = true ∧ utf8ToUtf32 str = cs := by
  have within : ∀ fuel, str.length ≤ fuel →
      isValidUtf8Within fuel str = true ∧ char32sWithin fuel str = cs := by
    induction decodes with
    | nil =>
        intro fuel _
        cases fuel <;> exact ⟨rfl, rfl⟩
    | @cons str rest c cs first _ ih =>
        intro fuel enough
        have shorter := length_of_split first
        obtain ⟨fuel, rfl⟩ : ∃ fuel', fuel = fuel' + 1 := ⟨fuel - 1, by omega⟩
        obtain ⟨isValid, isRest⟩ := ih fuel (by omega)
        cases str with
        | nil => cases first
        | cons b str =>
            rw [isValidUtf8Within, char32sWithin, first]
            exact ⟨isValid, congrArg _ isRest⟩
  exact within str.length le_rfl

theorem nonzero (decodes : Decodes str cs) (noNul : 0 ∉ str) : ∀ c ∈ cs, c ≠ 0 := by
  induction decodes with
  | nil => simp
  | cons first _ ih =>
      obtain ⟨nonzero, noNul'⟩ := nonzero_of_split first noNul
      exact List.forall_mem_cons.2 ⟨nonzero, ih noNul'⟩

/-- Each shortened code point takes a byte off the text. -/
theorem length (decodes : Decodes str cs) (nonzero : ∀ c ∈ cs, c ≠ 0) :
    str.length = (utf32ToUtf8 cs).length + cs.countP fun c => decide (Shortened c) := by
  induction decodes with
  | nil => rfl
  | @cons str rest c cs first _ ih =>
      rw [List.forall_mem_cons] at nonzero
      have takes := (takes_of_split nonzero.1 first).length
      have others := ih nonzero.2
      simp only [utf32ToUtf8, List.flatMap_cons, List.length_append, List.countP_cons,
        decide_eq_true_eq] at others takes ⊢
      omega

theorem written (decodes : Decodes str cs) (nonzero : ∀ c ∈ cs, c ≠ 0)
    (notShortened : ∀ c ∈ cs, ¬ Shortened c) : utf32ToUtf8 cs = str := by
  induction decodes with
  | nil => rfl
  | @cons str rest c cs first _ ih =>
      rw [List.forall_mem_cons] at nonzero notShortened
      rw [(takes_of_split nonzero.1 first).written notShortened.1, utf32ToUtf8, List.flatMap_cons]
      exact congrArg _ (ih nonzero.2 notShortened.2)

theorem hasShortened (decodes : Decodes str cs) (nonzero : ∀ c ∈ cs, c ≠ 0) :
    HasShortened str ↔ ∃ c ∈ cs, Shortened c := by
  induction decodes with
  | nil =>
      exact iff_of_false not_hasShortened_nil (by simp)
  | @cons str rest c cs first _ ih =>
      rw [List.forall_mem_cons] at nonzero
      rw [(takes_of_split nonzero.1 first).hasShortened, ih nonzero.2]
      simp

/-- No code point is shortened where the text is as long as it is written. -/
theorem not_shortened (decodes : Decodes str cs) (nonzero : ∀ c ∈ cs, c ≠ 0)
    (same : (utf32ToUtf8 cs).length = str.length) : ∀ c ∈ cs, ¬ Shortened c := by
  have count := decodes.length nonzero
  have none_ : cs.countP (fun c => decide (Shortened c)) = 0 := by omega
  simpa using List.countP_eq_zero.1 none_

end Decodes

theorem decodes_utf32ToUtf8 {cs : List Nat} (proper : ∀ c ∈ cs, c ≠ 0 ∧ c < 2 ^ 31)
    (notShortened : ∀ c ∈ cs, ¬ Shortened c) : Decodes (utf32ToUtf8 cs) cs := by
  induction cs with
  | nil => exact .nil
  | cons c cs ih =>
      rw [List.forall_mem_cons] at proper notShortened
      refine .cons ?_ (ih proper.2 notShortened.2)
      exact splitFirstChar32_codepointToUtf8 proper.1.1 proper.1.2 notShortened.1 _

/-- **The conversions are inverse to each other** exactly for the texts and the code points without
a code point between the two bounds. -/
theorem utf32_roundTrips_iff (str : ByteString) (cs : List Nat) (noNul : 0 ∉ str)
    (valid : isValidUtf8 str = true) (proper : ∀ c ∈ cs, c ≠ 0 ∧ c < 2 ^ 31) :
    (RoundTripsUtf8 str ↔ ¬ HasShortened str) ∧
      (RoundTripsUtf32 cs ↔ ∀ c ∈ cs, ¬ Shortened c) := by
  constructor
  · have decodes := decodes_of_isValidUtf8 valid
    have nonzero := decodes.nonzero noNul
    rw [decodes.hasShortened nonzero, RoundTripsUtf8]
    push Not
    constructor
    · intro same
      exact decodes.not_shortened nonzero (congrArg List.length same)
    · exact decodes.written nonzero
  · have nonzero : ∀ c ∈ cs, c ≠ 0 := fun c member => (proper c member).1
    constructor
    · rintro ⟨valid, same⟩
      have decodes := decodes_of_isValidUtf8 valid
      rw [same] at decodes
      exact decodes.not_shortened nonzero rfl
    · intro notShortened
      exact (decodes_utf32ToUtf8 proper notShortened).valid

/-- Code points of one, three and six bytes, and their text. -/
theorem utf32_roundTrips_sixBytes :
    RoundTripsUtf8 [0x41, 0xE3, 0x81, 0x82, 0xFC, 0x88, 0x80, 0x80, 0x80, 0x80] ∧
      RoundTripsUtf32 [0x41, 0x3042, 0x8000000] := by
  have exactly := utf32_roundTrips_iff [0x41, 0xE3, 0x81, 0x82, 0xFC, 0x88, 0x80, 0x80, 0x80, 0x80]
    [0x41, 0x3042, 0x8000000] (by decide) (by decide) (by decide)
  constructor
  · apply exactly.1.2
    simp only [hasShortened_cons, not_or]
    refine ⟨?_, ?_, ?_, ?_, ?_, ?_, ?_, ?_, ?_, ?_, not_hasShortened_nil⟩
    case refine_5 =>
      rw [startsShortened_iff]
      decide
    all_goals exact not_startsShortened_of_ne (by decide)
  · apply exactly.2.2
    decide

/-- **The smallest code point of six bytes** is written as the null character, with five. -/
theorem not_utf32_roundTrips_shortened :
    isValidUtf8 [0xFC, 0x84, 0x80, 0x80, 0x80, 0x80] = true ∧
      ¬ RoundTripsUtf8 [0xFC, 0x84, 0x80, 0x80, 0x80, 0x80] ∧ ¬ RoundTripsUtf32 [0x4000000] := by
  refine ⟨by decide, ?_, ?_⟩
  · unfold RoundTripsUtf8
    decide
  · rintro ⟨valid, _⟩
    exact absurd valid (by decide)

end Mozkey
