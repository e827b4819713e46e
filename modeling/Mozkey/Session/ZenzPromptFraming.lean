import Mozkey.Session.ZenzPromptBuilder

/-!
# The framing of a prompt

A marker begins with a byte that is inside no character but its own, so markers never
overlap and a text of whole characters has a marker only where it has such a code
point.  The sanitised fields are texts of that kind.  The reading is not sanitised:
the prompt is framed exactly when the reading has no marker of its own, neither among
its code points nor, once line feeds are deleted, in the bytes that cannot be decoded.
-/

namespace Mozkey.Session.ZenzPromptBuilder

/-! ## Markers in a text -/

/-- The text begins with a marker. -/
def StartsMarker (text : ByteString) : Prop :=
  ∃ c0 c1 c2, IsMarker c0 c1 c2 ∧ [c0, c1, c2] <+: text

theorem lacksMarkers_nil : LacksMarkers [] := by
  intro c0 c1 c2 _ inside
  have none_ := List.infix_nil.1 inside
  cases none_

theorem lacksMarkers_cons {b : UInt8} {rest : ByteString} :
    LacksMarkers (b :: rest) ↔ ¬ StartsMarker (b :: rest) ∧ LacksMarkers rest := by
  constructor
  · intro lacks
    refine ⟨?_, fun c0 c1 c2 marker inside => lacks c0 c1 c2 marker (List.infix_cons inside)⟩
    rintro ⟨c0, c1, c2, marker, starts⟩
    exact lacks c0 c1 c2 marker starts.isInfix
  · rintro ⟨starts, lacks⟩ c0 c1 c2 marker inside
    rcases List.infix_cons_iff.1 inside with here | later
    · exact starts ⟨c0, c1, c2, marker, here⟩
    · exact lacks c0 c1 c2 marker later

/-- A marker begins with its own first byte. -/
theorem not_startsMarker_of_ne {b : UInt8} {rest : ByteString} (other : b ≠ 0xEE) :
    ¬ StartsMarker (b :: rest) := by
  rintro ⟨c0, c1, c2, marker, starts⟩
  exact other ((List.cons_prefix_cons.1 starts).1.symm.trans marker.1)

theorem lacksMarkers_cons_of_ne {b : UInt8} {rest : ByteString} (other : b ≠ 0xEE) :
    LacksMarkers (b :: rest) ↔ LacksMarkers rest := by
  simp [lacksMarkers_cons, not_startsMarker_of_ne other]

theorem startsMarker_three {c0 c1 c2 : UInt8} {rest : ByteString} :
    StartsMarker (c0 :: c1 :: c2 :: rest) ↔ IsMarker c0 c1 c2 := by
  constructor
  · rintro ⟨a, b, c, marker, starts⟩
    simp only [List.cons_prefix_cons] at starts
    obtain ⟨rfl, rfl, rfl, _⟩ := starts
    exact marker
  · intro marker
    exact ⟨c0, c1, c2, marker, rest, rfl⟩

/-! ## Cutting -/

theorem cut_marker {c0 c1 c2 : UInt8} (marker : IsMarker c0 c1 c2) (rest : ByteString) :
    cut (c0 :: c1 :: c2 :: rest) = ([], (c2, (cut rest).1) :: (cut rest).2) := by
  rw [cut]
  simp [marker]

theorem cut_skip {b : UInt8} {rest : ByteString} (elsewhere : ¬ StartsMarker (b :: rest)) :
    cut (b :: rest) = (b :: (cut rest).1, (cut rest).2) := by
  match rest with
  | [] => rfl
  | [c1] => rfl
  | c1 :: c2 :: rest =>
      rw [startsMarker_three] at elsewhere
      rw [cut]
      simp [elsewhere]

/-- A text without markers is left in one piece. -/
theorem cut_of_lacks {text : ByteString} (lacks : LacksMarkers text) : cut text = (text, []) := by
  induction text with
  | nil => rfl
  | cons b rest ih =>
      obtain ⟨elsewhere, later⟩ := lacksMarkers_cons.1 lacks
      rw [cut_skip elsewhere, ih later]

/-- Cutting finds every marker. -/
theorem lacks_of_cut {text : ByteString} (uncut : (cut text).2 = []) : LacksMarkers text := by
  induction text with
  | nil => exact lacksMarkers_nil
  | cons b rest ih =>
      by_cases starts : StartsMarker (b :: rest)
      · obtain ⟨c0, c1, c2, marker, behind, whole⟩ := starts
        rw [← whole] at uncut
        simp [cut_marker marker] at uncut
      · rw [cut_skip starts] at uncut
        exact lacksMarkers_cons.2 ⟨starts, ih uncut⟩

/-- **Markers never overlap**: a text in front of a marker is cut on its own. -/
theorem cut_append_marker {c0 c1 c2 : UInt8} (marker : IsMarker c0 c1 c2)
    (text rest : ByteString) :
    cut (text ++ c0 :: c1 :: c2 :: rest) =
      ((cut text).1, (cut text).2 ++ (c2, (cut rest).1) :: (cut rest).2) := by
  have first : c0 = 0xEE := marker.1
  match text with
  | [] => exact cut_marker marker rest
  | [a] =>
      have inside : ¬ StartsMarker (a :: c0 :: c1 :: c2 :: rest) := by
        rw [startsMarker_three, first]
        rintro ⟨_, wrong, _⟩
        exact absurd wrong (by decide)
      rw [List.cons_append, List.nil_append, cut_skip inside, cut_marker marker]
      rfl
  | [a, b] =>
      have inside : ¬ StartsMarker (a :: b :: c0 :: c1 :: c2 :: rest) := by
        rw [startsMarker_three, first]
        rintro ⟨_, _, _, wrong⟩
        exact absurd wrong (by decide)
      have inside' : ¬ StartsMarker (b :: c0 :: c1 :: c2 :: rest) := by
        rw [startsMarker_three, first]
        rintro ⟨_, wrong, _⟩
        exact absurd wrong (by decide)
      rw [List.cons_append, List.cons_append, List.nil_append, cut_skip inside, cut_skip inside',
        cut_marker marker]
      rfl
  | a :: b :: c :: text =>
      by_cases here : IsMarker a b c
      · have later := cut_append_marker marker text rest
        simp only [List.cons_append, cut_marker here, later]
      · have later := cut_append_marker marker (b :: c :: text) rest
        have elsewhere : ∀ behind, ¬ StartsMarker (a :: b :: c :: behind) := by
          intro behind
          rwa [startsMarker_three]
        simp only [List.cons_append] at later ⊢
        rw [cut_skip (elsewhere _), cut_skip (elsewhere _), later]

/-! ## Characters -/

/-- A byte with a tag in its upper bits. -/
theorem toNat_tagged (bits tag n : Nat) (small : 2 ^ bits * tag + 2 ^ bits ≤ 256) :
    (UInt8.ofNat (2 ^ bits * tag ||| (n &&& (2 ^ bits - 1)))).toNat =
      2 ^ bits * tag + n % 2 ^ bits := by
  have below : n % 2 ^ bits < 2 ^ bits := Nat.mod_lt _ (Nat.two_pow_pos bits)
  rw [Nat.and_two_pow_sub_one_eq_mod, ← Nat.two_pow_add_eq_or_of_lt below, UInt8.toNat_ofNat']
  exact Nat.mod_eq_of_lt (by omega)

theorem toNat_continuation (n : Nat) :
    (UInt8.ofNat (0x80 ||| (n &&& 0x3F))).toNat = 128 + n % 64 :=
  toNat_tagged 6 2 n (by decide)

theorem toNat_lead2 (n : Nat) : (UInt8.ofNat (0xC0 ||| (n &&& 0x1F))).toNat = 192 + n % 32 :=
  toNat_tagged 5 6 n (by decide)

theorem toNat_lead3 (n : Nat) : (UInt8.ofNat (0xE0 ||| (n &&& 0x0F))).toNat = 224 + n % 16 :=
  toNat_tagged 4 14 n (by decide)

theorem toNat_lead4 (n : Nat) : (UInt8.ofNat (0xF0 ||| (n &&& 0x07))).toNat = 240 + n % 8 :=
  toNat_tagged 3 30 n (by decide)

theorem continuation_ne (n : Nat) : UInt8.ofNat (0x80 ||| (n &&& 0x3F)) ≠ 0xEE := by
  intro same
  have value := congrArg UInt8.toNat same
  rw [toNat_continuation] at value
  have first : (0xEE : UInt8).toNat = 238 := rfl
  omega

/-- **The markers are whole characters**: one begins with a character only when it is a
control code point. -/
theorem lacksMarkers_char {cp : Nat} (rest : ByteString) :
    LacksMarkers (appendUtf8 cp ++ rest) ↔
      isZenzControlCodepoint cp = false ∧ LacksMarkers rest := by
  have first : (0xEE : UInt8).toNat = 238 := rfl
  unfold appendUtf8
  split
  · rename_i small
    have other : UInt8.ofNat cp ≠ 0xEE := by
      intro same
      have value := congrArg UInt8.toNat same
      rw [UInt8.toNat_ofNat'] at value
      omega
    have plain : isZenzControlCodepoint cp = false := by
      simp only [isZenzControlCodepoint, Bool.and_eq_false_iff, decide_eq_false_iff_not]
      omega
    simp [lacksMarkers_cons_of_ne other, plain]
  · split
    · rename_i small
      have lead := toNat_lead2 (cp >>> 6)
      have other : UInt8.ofNat (0xC0 ||| ((cp >>> 6) &&& 0x1F)) ≠ 0xEE := by
        intro same
        rw [same, first] at lead
        omega
      have plain : isZenzControlCodepoint cp = false := by
        simp only [isZenzControlCodepoint, Bool.and_eq_false_iff, decide_eq_false_iff_not]
        omega
      rw [List.cons_append, List.cons_append, List.nil_append, lacksMarkers_cons_of_ne other,
        lacksMarkers_cons_of_ne (continuation_ne _)]
      simp [plain]
    · split
      · rename_i small
        have lead := toNat_lead3 (cp >>> 12)
        have marker : IsMarker (UInt8.ofNat (0xE0 ||| ((cp >>> 12) &&& 0x0F)))
            (UInt8.ofNat (0x80 ||| ((cp >>> 6) &&& 0x3F))) (UInt8.ofNat (0x80 ||| (cp &&& 0x3F))) ↔
              isZenzControlCodepoint cp = true := by
          have second : (0xB8 : UInt8).toNat = 184 := rfl
          have low : (0x80 : UInt8).toNat = 128 := rfl
          have high : (0x8F : UInt8).toNat = 143 := rfl
          rw [IsMarker, ← UInt8.toNat_inj, ← UInt8.toNat_inj, UInt8.le_iff_toNat_le,
            UInt8.le_iff_toNat_le, lead, toNat_continuation, toNat_continuation, first, second,
            low, high, Nat.shiftRight_eq_div_pow, Nat.shiftRight_eq_div_pow]
          simp only [isZenzControlCodepoint, Bool.and_eq_true, decide_eq_true_eq]
          omega
        rw [List.cons_append, List.cons_append, List.cons_append, List.nil_append,
          lacksMarkers_cons, startsMarker_three, marker,
          lacksMarkers_cons_of_ne (continuation_ne _), lacksMarkers_cons_of_ne (continuation_ne _)]
        simp
      · rename_i large
        have lead := toNat_lead4 (cp >>> 18)
        have other : UInt8.ofNat (0xF0 ||| ((cp >>> 18) &&& 0x07)) ≠ 0xEE := by
          intro same
          rw [same, first] at lead
          omega
        have plain : isZenzControlCodepoint cp = false := by
          simp only [isZenzControlCodepoint, Bool.and_eq_false_iff, decide_eq_false_iff_not]
          omega
        rw [List.cons_append, List.cons_append, List.cons_append, List.cons_append,
          List.nil_append, lacksMarkers_cons_of_ne other,
          lacksMarkers_cons_of_ne (continuation_ne _), lacksMarkers_cons_of_ne (continuation_ne _),
          lacksMarkers_cons_of_ne (continuation_ne _)]
        simp [plain]

/-- The bytes of code points. -/
def encode (cps : List Nat) : ByteString := cps.flatMap appendUtf8

/-- A text of characters in front of another text. -/
theorem lacksMarkers_encode (cps : List Nat) (rest : ByteString) :
    LacksMarkers (encode cps ++ rest) ↔
      (∀ cp ∈ cps, isZenzControlCodepoint cp = false) ∧ LacksMarkers rest := by
  induction cps with
  | nil => simp [encode]
  | cons cp cps ih =>
      rw [encode, List.flatMap_cons, List.append_assoc, lacksMarkers_char]
      rw [encode] at ih
      rw [ih, List.forall_mem_cons, and_assoc]

/-! ## Whitespace -/

@[simp] theorem normalize_append (front back : ByteString) :
    normalizeTokenizerWhitespace (front ++ back) =
      normalizeTokenizerWhitespace front ++ normalizeTokenizerWhitespace back :=
  List.flatMap_append

/-- What whitespace normalisation does to a code point. -/
def normalizeCode (cp : Nat) : List Nat :=
  if cp = 0x20 then [0x3000] else if cp ≠ 0x0A then [cp] else []

/-- The bytes of a character that is no ASCII character. -/
theorem large_of_mem_appendUtf8 {cp : Nat} (large : ¬ cp ≤ 0x7F) {b : UInt8}
    (member : b ∈ appendUtf8 cp) : 128 ≤ b.toNat := by
  unfold appendUtf8 at member
  rw [if_neg large] at member
  split at member
  · simp only [List.mem_cons, List.not_mem_nil, or_false] at member
    rcases member with rfl | rfl
    · rw [toNat_lead2]
      omega
    · rw [toNat_continuation]
      omega
  · split at member
    · simp only [List.mem_cons, List.not_mem_nil, or_false] at member
      rcases member with rfl | rfl | rfl
      · rw [toNat_lead3]
        omega
      · rw [toNat_continuation]
        omega
      · rw [toNat_continuation]
        omega
    · simp only [List.mem_cons, List.not_mem_nil, or_false] at member
      rcases member with rfl | rfl | rfl | rfl
      · rw [toNat_lead4]
        omega
      · rw [toNat_continuation]
        omega
      · rw [toNat_continuation]
        omega
      · rw [toNat_continuation]
        omega

/-- Bytes that are no ASCII characters are kept. -/
theorem normalize_large {text : ByteString} (large : ∀ b ∈ text, 128 ≤ b.toNat) :
    normalizeTokenizerWhitespace text = text := by
  have kept : ∀ b ∈ text, normalizeByte b = [b] := by
    intro b member
    have space : b ≠ 0x20 := by
      rintro rfl
      exact absurd (large _ member) (by decide)
    have line : b ≠ 0x0A := by
      rintro rfl
      exact absurd (large _ member) (by decide)
    simp [normalizeByte, space, line]
  rw [normalizeTokenizerWhitespace, List.flatMap_congr kept, List.flatMap_singleton']

/-- Whitespace is normalised character by character. -/
theorem normalize_char (cp : Nat) :
    normalizeTokenizerWhitespace (appendUtf8 cp) = encode (normalizeCode cp) := by
  by_cases small : cp ≤ 0x7F
  · interval_cases cp <;> rfl
  · have space : cp ≠ 0x20 := by omega
    have line : cp ≠ 0x0A := by omega
    rw [normalize_large fun b => large_of_mem_appendUtf8 small]
    simp [normalizeCode, space, line, encode]

theorem normalize_encode (cps : List Nat) :
    normalizeTokenizerWhitespace (encode cps) = encode (cps.flatMap normalizeCode) := by
  induction cps with
  | nil => rfl
  | cons cp cps ih =>
      have whole : ∀ front back, encode (front ++ back) = encode front ++ encode back :=
        fun _ _ => List.flatMap_append
      have first : encode (cp :: cps) = appendUtf8 cp ++ encode cps := rfl
      rw [first, normalize_append, normalize_char, ih, List.flatMap_cons, whole]

/-- Normalising whitespace makes no control code points and removes none. -/
theorem control_normalizeCode (cps : List Nat) :
    (∀ cp ∈ cps.flatMap normalizeCode, isZenzControlCodepoint cp = false) ↔
      ∀ cp ∈ cps, isZenzControlCodepoint cp = false := by
  have one : ∀ cp, (∀ c ∈ normalizeCode cp, isZenzControlCodepoint c = false) ↔
      isZenzControlCodepoint cp = false := by
    intro cp
    unfold normalizeCode
    split
    · rename_i space
      subst space
      simp [isZenzControlCodepoint]
    · split
      · simp
      · rename_i line
        have same : cp = 0x0A := by simpa using line
        subst same
        simp [isZenzControlCodepoint]
  simp only [List.mem_flatMap, forall_exists_index, and_imp]
  constructor
  · intro all cp member
    exact (one cp).1 fun c inside => all c cp member inside
  · intro all c cp member inside
    exact (one cp).2 (all cp member) c inside

/-- What replaces a byte when the line feeds are gone. -/
def spaced (b : UInt8) : ByteString := if b = 0x20 then [0xE3, 0x80, 0x80] else [b]

theorem normalize_eq_spaced (text : ByteString) :
    normalizeTokenizerWhitespace text = (text.filter (· ≠ 0x0A)).flatMap spaced := by
  induction text with
  | nil => rfl
  | cons b text ih =>
      have first : normalizeTokenizerWhitespace (b :: text) =
          normalizeByte b ++ normalizeTokenizerWhitespace text := rfl
      rw [first, ih]
      by_cases line : b = 0x0A
      · subst line
        rfl
      · simp [normalizeByte, spaced, line]

/-- Bytes that no space is replaced by are found where they were. -/
theorem prefix_spaced {needle text : ByteString} (other : ∀ b ∈ needle, b ≠ 0x20 ∧ b ≠ 0xE3) :
    needle <+: text.flatMap spaced ↔ needle <+: text := by
  induction needle generalizing text with
  | nil => simp
  | cons a needle ih =>
      obtain ⟨noSpace, noLead⟩ := other a List.mem_cons_self
      cases text with
      | nil => simp
      | cons b text =>
          have later := @ih text fun c member => other c (List.mem_cons_of_mem _ member)
          by_cases space : b = 0x20
          · subst space
            simp [spaced, noSpace, noLead]
          · simp [spaced, space, later]

theorem startsMarker_spaced (text : ByteString) :
    StartsMarker (text.flatMap spaced) ↔ StartsMarker text := by
  have bytes : ∀ c0 c1 c2, IsMarker c0 c1 c2 → ∀ b ∈ [c0, c1, c2], b ≠ 0x20 ∧ b ≠ 0xE3 := by
    rintro c0 c1 c2 ⟨rfl, rfl, low, high⟩ b member
    simp only [List.mem_cons, List.not_mem_nil, or_false] at member
    rcases member with rfl | rfl | rfl
    · decide
    · decide
    · constructor
      · rintro rfl
        exact absurd low (by decide)
      · rintro rfl
        exact absurd high (by decide)
  constructor
  · rintro ⟨c0, c1, c2, marker, starts⟩
    exact ⟨c0, c1, c2, marker, (prefix_spaced (bytes c0 c1 c2 marker)).1 starts⟩
  · rintro ⟨c0, c1, c2, marker, starts⟩
    exact ⟨c0, c1, c2, marker, (prefix_spaced (bytes c0 c1 c2 marker)).2 starts⟩

/-- **Normalising whitespace** makes markers only by deleting line feeds. -/
theorem lacksMarkers_normalize (text : ByteString) :
    LacksMarkers (normalizeTokenizerWhitespace text) ↔
      LacksMarkers (text.filter (· ≠ 0x0A)) := by
  rw [normalize_eq_spaced]
  generalize text.filter (· ≠ 0x0A) = kept
  induction kept with
  | nil => simp
  | cons b kept ih =>
      by_cases space : b = 0x20
      · subst space
        rw [List.flatMap_cons, lacksMarkers_cons_of_ne (by decide), ← ih]
        simp only [spaced, if_pos, List.cons_append, List.nil_append]
        rw [lacksMarkers_cons_of_ne (by decide), lacksMarkers_cons_of_ne (by decide),
          lacksMarkers_cons_of_ne (by decide)]
      · have starts := startsMarker_spaced (b :: kept)
        rw [List.flatMap_cons, spaced, if_neg space, List.singleton_append] at starts ⊢
        rw [lacksMarkers_cons, lacksMarkers_cons, starts, ih]

/-! ## The fields -/

/-- A sanitised field is a text of code points without markers. -/
theorem sanitizeFrom_codes (maxChars skip chars : Nat) (input : ByteString) :
    ∃ cps, sanitizeFrom maxChars skip chars input = encode cps ∧
      ∀ cp ∈ cps, isZenzControlCodepoint cp = false := by
  have nothing : ∃ cps, [] = encode cps ∧ ∀ cp ∈ cps, isZenzControlCodepoint cp = false :=
    ⟨[], rfl, by simp⟩
  induction input generalizing skip chars with
  | nil => simpa [sanitizeFrom] using nothing
  | cons c rest ih =>
      cases skip with
      | succ skip => exact ih skip chars
      | zero =>
          rw [sanitizeFrom]
          split
          · exact nothing
          · split
            · exact nothing
            · rename_i cp length _
              split
              · exact ih _ _
              · rename_i noControl
                split
                · split
                  · -- a tab or a carriage return becomes a space
                    obtain ⟨cps, text, free⟩ := ih (length - 1) (chars + 1)
                    exact ⟨0x20 :: cps, by rw [text]; rfl,
                      List.forall_mem_cons.2 ⟨by decide, free⟩⟩
                  · exact ih _ _
                · obtain ⟨cps, text, free⟩ := ih (length - 1) (chars + 1)
                  exact ⟨cp :: cps, by rw [text]; rfl,
                    List.forall_mem_cons.2 ⟨by simpa using noControl, free⟩⟩

/-- **A sanitised field lacks markers** in the prompt. -/
theorem lacksMarkers_field (input : ByteString) (maxChars : Nat) :
    LacksMarkers (normalizeTokenizerWhitespace (sanitizeConditionText input maxChars)) := by
  obtain ⟨cps, text, free⟩ := sanitizeFrom_codes maxChars 0 0 input
  have whole := lacksMarkers_encode (cps.flatMap normalizeCode) []
  rw [List.append_nil] at whole
  rw [sanitizeConditionText, text, normalize_encode, whole, control_normalizeCode]
  exact ⟨free, lacksMarkers_nil⟩

/-- Converting to katakana keeps what cannot be decoded. -/
theorem hiraganaToKatakanaFrom_eq (skip : Nat) (input : ByteString) :
    hiraganaToKatakanaFrom skip input =
      encode ((decodeFrom skip input).1.map katakana) ++ (decodeFrom skip input).2 := by
  induction input generalizing skip with
  | nil => cases skip <;> rfl
  | cons c rest ih =>
      cases skip with
      | succ skip => exact ih skip
      | zero =>
          rw [hiraganaToKatakanaFrom, decodeFrom]
          cases decoded : decodeOneUtf8 (c :: rest) with
          | none => rfl
          | some character =>
              simp only [ih, List.map_cons, encode, List.flatMap_cons, List.append_assoc]

/-- Katakana are no control code points. -/
theorem control_katakana (cp : Nat) :
    isZenzControlCodepoint (katakana cp) = isZenzControlCodepoint cp := by
  unfold katakana
  split
  · rename_i hiragana
    have before : isZenzControlCodepoint cp = false := by
      simp only [isZenzControlCodepoint, Bool.and_eq_false_iff, decide_eq_false_iff_not]
      omega
    have after : isZenzControlCodepoint (cp + 0x60) = false := by
      simp only [isZenzControlCodepoint, Bool.and_eq_false_iff, decide_eq_false_iff_not]
      omega
    rw [before, after]
  · rfl

/-- **The reading lacks markers** in the prompt exactly when it is clean. -/
theorem lacksMarkers_reading (reading : ByteString) :
    LacksMarkers (normalizeTokenizerWhitespace (hiraganaToKatakana reading)) ↔
      CleanReading reading := by
  rw [hiraganaToKatakana, hiraganaToKatakanaFrom_eq, normalize_append, normalize_encode,
    lacksMarkers_encode, control_normalizeCode, lacksMarkers_normalize]
  simp [CleanReading, control_katakana]

/-! ## The prompt -/

/-- Slots written one behind another. -/
def written (fields : List (UInt8 × ByteString)) : ByteString :=
  fields.flatMap fun field => 0xEE :: 0xB8 :: field.1 :: field.2

/-- The slots have markers of the private range. -/
def MarkedSlots (fields : List (UInt8 × ByteString)) : Prop :=
  ∀ field ∈ fields, IsMarker 0xEE 0xB8 field.1

theorem cut_append_written (text : ByteString) {fields : List (UInt8 × ByteString)}
    (marked : MarkedSlots fields) :
    cut (text ++ written fields) =
      ((cut text).1, (cut text).2 ++ (cut (written fields)).2) := by
  cases fields with
  | nil => simp [written, cut]
  | cons field fields =>
      have marker := marked field List.mem_cons_self
      have whole : written (field :: fields) =
          0xEE :: 0xB8 :: field.1 :: (field.2 ++ written fields) := rfl
      rw [whole, cut_append_marker marker, cut_marker marker]

/-- Each slot is cut on its own. -/
theorem cut_written {fields : List (UInt8 × ByteString)} (marked : MarkedSlots fields) :
    cut (written fields) =
      ([], fields.flatMap fun field => (field.1, (cut field.2).1) :: (cut field.2).2) := by
  induction fields with
  | nil => rfl
  | cons field fields ih =>
      have later : MarkedSlots fields := fun other member =>
        marked other (List.mem_cons_of_mem _ member)
      have whole : written (field :: fields) =
          0xEE :: 0xB8 :: field.1 :: (field.2 ++ written fields) := rfl
      rw [whole, cut_marker (marked field List.mem_cons_self), cut_append_written _ later, ih later]
      rfl

/-- **Cutting gives back the slots** exactly when no slot has a marker in it. -/
theorem cut_written_iff {fields : List (UInt8 × ByteString)} (marked : MarkedSlots fields) :
    cut (written fields) = ([], fields) ↔ ∀ field ∈ fields, LacksMarkers field.2 := by
  rw [cut_written marked, Prod.mk.injEq, eq_self_iff_true, true_and]
  clear marked
  induction fields with
  | nil => simp
  | cons field fields ih =>
      have longer : ∀ others : List (UInt8 × ByteString), others.length ≤ (others.flatMap
          fun field => (field.1, (cut field.2).1) :: (cut field.2).2).length := by
        intro others
        induction others with
        | nil => simp
        | cons other others ih =>
            simp only [List.flatMap_cons, List.length_append, List.length_cons]
            omega
      rw [List.flatMap_cons, List.forall_mem_cons, List.cons_append, List.cons.injEq]
      constructor
      · rintro ⟨first, rest⟩
        have lengths := congrArg List.length rest
        have atLeast := longer fields
        rw [List.length_append] at lengths
        have single : (cut field.2).2 = [] := List.eq_nil_of_length_eq_zero (by omega)
        rw [single, List.nil_append] at rest
        exact ⟨lacks_of_cut single, ih.1 rest⟩
      · rintro ⟨lacks, later⟩
        rw [cut_of_lacks lacks]
        exact ⟨rfl, ih.2 later⟩

/-- The prompt is its slots. -/
theorem build_eq_written (reading : ByteString) (options : ZenzPromptOptions) :
    build reading options = written (slots reading options) := by
  have field : ∀ (m : UInt8) (text : ByteString), 128 ≤ m.toNat →
      normalizeTokenizerWhitespace (optionalField [0xEE, 0xB8, m] text) =
        written (optionalSlot m text) := by
    intro m text large
    unfold optionalField optionalSlot
    split
    · rfl
    · have marker : normalizeTokenizerWhitespace [0xEE, 0xB8, m] = [0xEE, 0xB8, m] := by
        apply normalize_large
        simpa using large
      rw [normalize_append, marker]
      simp [written]
  have joined : ∀ front back, written (front ++ back) = written front ++ written back :=
    fun _ _ => List.flatMap_append
  have context : normalizeTokenizerWhitespace kZenzContextBegin = kZenzContextBegin := rfl
  have begin_ : normalizeTokenizerWhitespace kZenzReadingBegin = kZenzReadingBegin := rfl
  have end_ : normalizeTokenizerWhitespace kZenzOutputBegin = kZenzOutputBegin := rfl
  simp only [build, promptFields, slots, normalize_append, joined, context, begin_, end_]
  rw [kZenzRightContextBegin, kZenzProfileBegin, kZenzTopicBegin, kZenzStyleBegin,
    kZenzSettingsBegin, field _ _ (by decide), field _ _ (by decide), field _ _ (by decide),
    field _ _ (by decide), field _ _ (by decide)]
  simp [written, kZenzContextBegin, kZenzReadingBegin, kZenzOutputBegin]

/-- The slots are those of the reading and the output, and sanitised fields. -/
theorem of_mem_slots {reading : ByteString} {options : ZenzPromptOptions}
    {field : UInt8 × ByteString} (member : field ∈ slots reading options) :
    field = (0x80, normalizeTokenizerWhitespace (hiraganaToKatakana reading)) ∨
      field = (0x81, []) ∨ (0x82 ≤ field.1 ∧ field.1 ≤ 0x87 ∧ ∃ input maxChars,
        field.2 = normalizeTokenizerWhitespace (sanitizeConditionText input maxChars)) := by
  have optional : ∀ (m : UInt8) (input : ByteString) (maxChars : Nat), 0x82 ≤ m → m ≤ 0x87 →
      field ∈ optionalSlot m (sanitizeConditionText input maxChars) →
        0x82 ≤ field.1 ∧ field.1 ≤ 0x87 ∧ ∃ input maxChars,
          field.2 = normalizeTokenizerWhitespace (sanitizeConditionText input maxChars) := by
    intro m input maxChars low high inSlot
    unfold optionalSlot at inSlot
    split at inSlot
    · cases inSlot
    · rw [List.mem_singleton.1 inSlot]
      exact ⟨low, high, input, maxChars, rfl⟩
  simp only [slots, List.mem_append, List.mem_cons, List.not_mem_nil, or_false] at member
  rcases member with (((((context | right) | profile) | topic) | style) | settings) | last
  · subst context
    exact .inr (.inr ⟨le_refl (0x82 : UInt8), (by decide : (0x82 : UInt8) ≤ 0x87), _, _, rfl⟩)
  · exact .inr (.inr (optional _ _ _ (by decide) (by decide) right))
  · exact .inr (.inr (optional _ _ _ (by decide) (by decide) profile))
  · exact .inr (.inr (optional _ _ _ (by decide) (by decide) topic))
  · exact .inr (.inr (optional _ _ _ (by decide) (by decide) style))
  · exact .inr (.inr (optional _ _ _ (by decide) (by decide) settings))
  · rcases last with reading_ | output
    · exact .inl reading_
    · exact .inr (.inl output)

theorem markedSlots_slots (reading : ByteString) (options : ZenzPromptOptions) :
    MarkedSlots (slots reading options) := by
  intro field member
  rcases of_mem_slots member with rfl | rfl | ⟨low, high, _⟩
  · exact ⟨rfl, rfl, le_refl (0x80 : UInt8), (by decide : (0x80 : UInt8) ≤ 0x8F)⟩
  · exact ⟨rfl, rfl, (by decide : (0x80 : UInt8) ≤ 0x81), (by decide : (0x81 : UInt8) ≤ 0x8F)⟩
  · exact ⟨rfl, rfl, le_trans (by decide) low, le_trans high (by decide)⟩

/-- **A prompt is framed** exactly when its reading has no markers of its own. -/
theorem framed_iff_cleanReading (reading : ByteString) (options : ZenzPromptOptions) :
    Framed reading options ↔ CleanReading reading := by
  rw [Framed, build_eq_written, cut_written_iff (markedSlots_slots reading options),
    ← lacksMarkers_reading]
  constructor
  · intro all
    exact all (0x80, normalizeTokenizerWhitespace (hiraganaToKatakana reading))
      (List.mem_append_right _ List.mem_cons_self)
  · intro lacks field member
    rcases of_mem_slots member with rfl | rfl | ⟨_, _, input, maxChars, text⟩
    · exact lacks
    · exact lacksMarkers_nil
    · exact text ▸ lacksMarkers_field input maxChars

/-- A reading that holds the marker of the output. -/
theorem not_framed_output : ¬ ∀ reading options, Framed reading options := by
  intro all
  have framed := all kZenzOutputBegin {}
  exact absurd framed (by unfold Framed; decide +kernel)

end Mozkey.Session.ZenzPromptBuilder
