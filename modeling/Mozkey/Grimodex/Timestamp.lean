import Mozkey.Grimodex.ProtocolV1

/-!
# Timestamps

A timestamp is a date and a time of day of fixed length, an optional fraction of a second and a
zone.  `validTimestamp` looks at single positions of the text; `validTimestampChecked` is the same
with a test of every position before it is read.

**`validTimestampChecked_iff`** says that no position outside of the text is read, and that a text
is accepted exactly if it is a timestamp by its grammar.
-/

namespace Mozkey.Grimodex

/-! ## The grammar -/

/-- A decimal digit. -/
def IsDigit (c : UInt8) : Prop := 0x30 ≤ c ∧ c ≤ 0x39

instance (c : UInt8) : Decidable (IsDigit c) := by
  unfold IsDigit
  infer_instance

/-- So many decimal digits. -/
def AreDigits (count : Nat) (text : ByteString) : Prop :=
  text.length = count ∧ ∀ c ∈ text, IsDigit c

/-- The number that digits stand for. -/
def decimal (text : ByteString) : Nat := text.foldl (fun n c => n * 10 + (c.toNat - 0x30)) 0

/-- The days of a month in the Gregorian calendar. -/
def gregorianDays (year : Nat) : Nat → Nat
  | 2 => if 4 ∣ year ∧ (100 ∣ year → 400 ∣ year) then 29 else 28
  | 4 | 6 | 9 | 11 => 30
  | _ => 31

/-- A date of the Gregorian calendar. -/
structure IsDate (year month day : Nat) : Prop where
  monthLeast : 1 ≤ month
  monthMost : month ≤ 12
  dayLeast : 1 ≤ day
  dayMost : day ≤ gregorianDays year month

/-- Nothing, or a point and one to nine digits. -/
inductive IsFraction : ByteString → Prop
  | absent : IsFraction []
  | digits {text : ByteString} (least : 1 ≤ text.length) (most : text.length ≤ 9)
      (areDigits : ∀ c ∈ text, IsDigit c) : IsFraction (0x2E :: text)

/-- `Z`, or a signed offset of hours and minutes. -/
inductive IsZone : ByteString → Prop
  | utc : IsZone [0x5A]
  | offset {sign : UInt8} {hour minute : ByteString} (isSign : sign = 0x2B ∨ sign = 0x2D)
      (hourDigits : AreDigits 2 hour) (minuteDigits : AreDigits 2 minute)
      (hourMost : decimal hour ≤ 23) (minuteMost : decimal minute ≤ 59) :
      IsZone (sign :: (hour ++ 0x3A :: minute))

/-- `YYYY-MM-DDThh:mm:ss`, a fraction and a zone. -/
inductive IsTimestamp : ByteString → Prop
  | intro {year month day hour minute second fraction zone : ByteString}
      (yearDigits : AreDigits 4 year) (monthDigits : AreDigits 2 month) (dayDigits : AreDigits 2 day)
      (hourDigits : AreDigits 2 hour) (minuteDigits : AreDigits 2 minute)
      (secondDigits : AreDigits 2 second)
      (isDate : IsDate (decimal year) (decimal month) (decimal day)) (hourMost : decimal hour ≤ 23)
      (minuteMost : decimal minute ≤ 59) (secondMost : decimal second ≤ 59)
      (isFraction : IsFraction fraction) (isZone : IsZone zone) :
      IsTimestamp (year ++ 0x2D :: (month ++ 0x2D :: (day ++ 0x54 :: (hour ++ 0x3A ::
        (minute ++ 0x3A :: (second ++ (fraction ++ zone)))))))

/-! ## Reading with checked positions -/

/-- `&&` of conditions that read; the second one is not looked at if the first one fails. -/
def andAlso (first second : Option Bool) : Option Bool :=
  match first with
  | some true => second
  | other => other

/-- The comparison of a character, `none` beyond the end of the text. -/
def isAt (value : ByteString) (i : Nat) (c : UInt8) : Option Bool := value[i]?.map fun d => d == c

/-- The loop of `Digits`. -/
def digitsWithin (value : ByteString) : Nat → Nat → Option Bool
  | 0, _ => some true
  | count + 1, i => andAlso (value[i]?.map fun c => decide (IsDigit c)) (digitsWithin value count (i + 1))

/-- `Digits`. -/
def digitsChecked (value : ByteString) (first last : Nat) : Option Bool :=
  if last > value.length then some false else digitsWithin value (last - first) first

/-- The loop of `Number`. -/
def numberWithin (value : ByteString) : Nat → Nat → Nat → Option Nat
  | 0, _, result => some result
  | count + 1, i, result =>
      match value[i]? with
      | some c => numberWithin value count (i + 1) (result * 10 + (c.toNat - 0x30))
      | none => none

/-- `*Number`, `none` also where `Number` gives none. -/
def numberChecked (value : ByteString) (first last : Nat) : Option Nat :=
  match digitsChecked value first last with
  | some true => numberWithin value (last - first) first 0
  | _ => none

/-- A comparison of numbers. -/
def atMost (n : Option Nat) (most : Nat) : Option Bool := n.map fun n => decide (n ≤ most)

/-- The loop over the digits of a fraction: where they end. -/
def fractionEnd (value : ByteString) : Nat → Nat → Option Nat
  | 0, zone => some zone
  | fuel + 1, zone =>
      if zone < value.length then
        match value[zone]? with
        | none => none
        | some c => if IsDigit c then fractionEnd value fuel (zone + 1) else some zone
      else some zone

/-- The end of a timestamp, behind its fraction. -/
def validZoneChecked (value : ByteString) (zone : Nat) : Option Bool :=
  match andAlso (some (decide (zone < value.length))) (isAt value zone 0x5A) with
  | none => none
  | some true => some (zone + 1 == value.length)
  | some false =>
      andAlso (some (zone + 6 == value.length)) <|
      andAlso (do return (← isAt value zone 0x2B) || (← isAt value zone 0x2D)) <|
      andAlso (isAt value (zone + 3) 0x3A) <|
      andAlso (digitsChecked value (zone + 1) (zone + 3)) <|
      andAlso (digitsChecked value (zone + 4) (zone + 6)) <|
      andAlso (atMost (numberChecked value (zone + 1) (zone + 3)) 23) <|
      atMost (numberChecked value (zone + 4) (zone + 6)) 59

/-- The characters of a timestamp at fixed positions. -/
def layoutChecked (value : ByteString) : Option Bool :=
  andAlso (some (decide (20 ≤ value.length))) <|
  andAlso (some (decide (value.length ≤ kTimestampBytes))) <|
  andAlso (isAt value 4 0x2D) <|
  andAlso (isAt value 7 0x2D) <|
  andAlso (isAt value 10 0x54) <|
  andAlso (isAt value 13 0x3A) <|
  andAlso (isAt value 16 0x3A) <|
  andAlso (digitsChecked value 0 4) <|
  andAlso (digitsChecked value 5 7) <|
  andAlso (digitsChecked value 8 10) <|
  andAlso (digitsChecked value 11 13) <|
  andAlso (digitsChecked value 14 16) <|
  digitsChecked value 17 19

/-- The numbers of a timestamp. -/
def timeChecked (value : ByteString) : Option Bool := do
  let year ← numberChecked value 0 4
  let month ← numberChecked value 5 7
  let day ← numberChecked value 8 10
  let hour ← numberChecked value 11 13
  let minute ← numberChecked value 14 16
  let second ← numberChecked value 17 19
  return decide (1 ≤ month) && decide (month ≤ 12) && decide (1 ≤ day) &&
    decide (day ≤ daysInMonth year month) && decide (hour ≤ 23) && decide (minute ≤ 59) &&
    decide (second ≤ 59)

/-- `ValidTimestamp`, `none` where it reads outside of the text. -/
def validTimestampChecked (value : ByteString) : Option Bool :=
  andAlso (layoutChecked value) <|
  andAlso (some (!value.any fun c => 0x7F < c)) <| do
    if ← isAt value 19 0x2E then
      let zone ← fractionEnd value value.length 20
      if zone - 20 < 1 ∨ zone - 20 > 9 then return false
      andAlso (validZoneChecked value zone) (timeChecked value)
    else
      andAlso (validZoneChecked value 19) (timeChecked value)

/-! ## No position is outside -/

theorem isDigit_eq : (fun c : UInt8 => 0x30 ≤ c && c ≤ 0x39) = fun c => decide (IsDigit c) := by
  funext c
  rw [Bool.eq_iff_iff, Bool.and_eq_true, decide_eq_true_iff, decide_eq_true_iff, decide_eq_true_iff]
  exact Iff.rfl

theorem andAlso_some (first : Bool) (second : Option Bool) :
    andAlso (some first) second = if first then second else some false := by
  cases first <;> rfl

variable {value : ByteString}

theorem getElem?_eq_byteAt {i : Nat} (inside : i < value.length) :
    value[i]? = some (byteAt value i) := by
  rw [byteAt, List.getD_eq_getElem?_getD, List.getElem?_eq_getElem inside, Option.getD_some]

theorem isAt_eq {i : Nat} (inside : i < value.length) (c : UInt8) :
    isAt value i c = some (byteAt value i == c) := by
  rw [isAt, getElem?_eq_byteAt inside, Option.map_some]

/-- The characters from a position on. -/
theorem drop_eq_byteAt_cons {i : Nat} (inside : i < value.length) :
    value.drop i = byteAt value i :: value.drop (i + 1) := by
  have here := getElem?_eq_byteAt inside
  rw [List.drop_eq_getElem_cons inside]
  rw [List.getElem?_eq_getElem inside, Option.some_inj] at here
  rw [here]

theorem digitsWithin_eq {count i : Nat} (inside : i + count ≤ value.length) :
    digitsWithin value count i = some (((value.drop i).take count).all fun c => decide (IsDigit c)) := by
  induction count generalizing i with
  | zero => simp [digitsWithin]
  | succ count ih =>
      have here : i < value.length := by omega
      rw [digitsWithin, getElem?_eq_byteAt here, Option.map_some, andAlso_some,
        ih (by omega), drop_eq_byteAt_cons here, List.take_succ_cons, List.all_cons]
      cases decide (IsDigit (byteAt value i)) <;> rfl

theorem digitsChecked_eq (first last : Nat) (ordered : first ≤ last) :
    digitsChecked value first last = some (digits value first last) := by
  unfold digitsChecked digits
  split
  · rename_i long
    simp [Nat.not_le.mpr long]
  · rename_i short
    rw [digitsWithin_eq (by omega), List.drop_take, isDigit_eq]
    simp [Nat.not_lt.mp short]

theorem numberWithin_eq {count i : Nat} (inside : i + count ≤ value.length) (result : Nat) :
    numberWithin value count i result =
      some (((value.drop i).take count).foldl (fun n c => n * 10 + (c.toNat - 0x30)) result) := by
  induction count generalizing i result with
  | zero => simp [numberWithin]
  | succ count ih =>
      have here : i < value.length := by omega
      rw [numberWithin, getElem?_eq_byteAt here]
      simp only [drop_eq_byteAt_cons here, List.take_succ_cons, List.foldl_cons]
      exact ih (by omega) _

theorem numberChecked_eq {first last : Nat} (ordered : first ≤ last)
    (areDigits : digits value first last = true) :
    numberChecked value first last = some (number value first last) := by
  have inside : last ≤ value.length := by
    unfold digits at areDigits
    simp only [Bool.and_eq_true, decide_eq_true_eq] at areDigits
    exact areDigits.1
  rw [numberChecked, digitsChecked_eq first last ordered, areDigits]
  simp only
  rw [numberWithin_eq (by omega), number, List.drop_take]

theorem fractionEnd_eq {fuel zone : Nat} (inside : zone ≤ value.length)
    (enough : value.length ≤ zone + fuel) :
    fractionEnd value fuel zone =
      some (zone + ((value.drop zone).takeWhile fun c => 0x30 ≤ c && c ≤ 0x39).length) := by
  rw [isDigit_eq]
  induction fuel generalizing zone with
  | zero =>
      rw [fractionEnd, List.drop_of_length_le (by omega)]
      rfl
  | succ fuel ih =>
      rw [fractionEnd]
      split
      · rename_i here
        rw [getElem?_eq_byteAt here, drop_eq_byteAt_cons here]
        by_cases isDigit : IsDigit (byteAt value zone)
        · rw [List.takeWhile_cons_of_pos (by simpa using isDigit), List.length_cons]
          simp only [if_pos isDigit]
          rw [ih (by omega) (by omega)]
          simp only [Option.some_inj]
          omega
        · rw [List.takeWhile_cons_of_neg (by simpa using isDigit)]
          simp [isDigit]
      · rename_i atEnd
        rw [List.drop_of_length_le (by omega)]
        rfl

theorem validZoneChecked_eq (zone : Nat) :
    validZoneChecked value zone = some (validZone value zone) := by
  have isUtc : andAlso (some (decide (zone < value.length))) (isAt value zone 0x5A) =
      some (decide (zone < value.length ∧ byteAt value zone = 0x5A)) := by
    by_cases here : zone < value.length
    · rw [isAt_eq here, andAlso_some, decide_eq_true here, if_pos rfl, Option.some_inj,
        Bool.eq_iff_iff, beq_iff_eq, decide_eq_true_iff]
      exact ⟨fun same => ⟨here, same⟩, fun both => both.2⟩
    · simp [andAlso_some, here]
  unfold validZoneChecked validZone
  rw [isUtc]
  by_cases utc : zone < value.length ∧ byteAt value zone = 0x5A
  · simp [utc]
  · simp only [utc, decide_false, if_false, andAlso_some]
    by_cases long : zone + 6 = value.length
    · rw [isAt_eq (by omega), isAt_eq (by omega), isAt_eq (by omega),
        digitsChecked_eq _ _ (by omega), digitsChecked_eq _ _ (by omega)]
      simp only [andAlso_some]
      cases hours : digits value (zone + 1) (zone + 3)
      · simp [andAlso_some]
      · cases minutes : digits value (zone + 4) (zone + 6)
        · simp [andAlso_some]
        · rw [numberChecked_eq (by omega) hours, numberChecked_eq (by omega) minutes]
          simp only [atMost, Option.map_some, andAlso_some, long, beq_self_eq_true, if_true,
            Option.pure_def, Option.bind_eq_bind, Option.bind_some, Bool.true_and, Bool.and_true]
          by_cases signed : byteAt value zone = 0x2B ∨ byteAt value zone = 0x2D
          · simp only [signed, beq_iff_eq, Bool.or_eq_true, if_true]
            by_cases colon : byteAt value (zone + 3) = 0x3A
            · simp only [colon, beq_self_eq_true, if_true]
              by_cases hour : number value (zone + 1) (zone + 3) ≤ 23
              · simp [hour, signed]
              · simp [hour]
            · simp [colon]
          · simp [signed]
    · simp [long]

/-- Tests that do not read outside, chained. -/
theorem andAlso_some_some (first second : Bool) :
    andAlso (some first) (some second) = some (first && second) := by
  cases first <;> rfl

/-- The fixed positions are the first ones. -/
def layout (value : ByteString) : Bool :=
  byteAt value 4 == 0x2D && byteAt value 7 == 0x2D && byteAt value 10 == 0x54 &&
    byteAt value 13 == 0x3A && byteAt value 16 == 0x3A && digits value 0 4 && digits value 5 7 &&
    digits value 8 10 && digits value 11 13 && digits value 14 16 && digits value 17 19

theorem layoutChecked_eq :
    layoutChecked value =
      some (!decide (value.length < 20 ∨ value.length > kTimestampBytes) && layout value) := by
  unfold layoutChecked layout
  by_cases short : value.length < 20
  · simp [andAlso_some, short, Nat.not_le.mpr short]
  · by_cases long : value.length > kTimestampBytes
    · simp [andAlso_some, long, Nat.not_le.mpr long, Nat.not_lt.mp short]
    · rw [isAt_eq (by omega), isAt_eq (by omega), isAt_eq (by omega), isAt_eq (by omega),
        isAt_eq (by omega), digitsChecked_eq _ _ (by omega),
        digitsChecked_eq _ _ (by omega), digitsChecked_eq _ _ (by omega),
        digitsChecked_eq _ _ (by omega), digitsChecked_eq _ _ (by omega),
        digitsChecked_eq _ _ (by omega)]
      simp only [andAlso_some_some, decide_eq_true (Nat.not_lt.mp short),
        decide_eq_true (Nat.not_lt.mp long), short, long, or_self, decide_false, Bool.not_false,
        Bool.true_and, Bool.and_assoc]

/-- The tests on the numbers. -/
def time (value : ByteString) : Bool :=
  decide (1 ≤ number value 5 7) && decide (number value 5 7 ≤ 12) &&
    decide (1 ≤ number value 8 10) &&
    decide (number value 8 10 ≤ daysInMonth (number value 0 4) (number value 5 7)) &&
    decide (number value 11 13 ≤ 23) && decide (number value 14 16 ≤ 59) &&
    decide (number value 17 19 ≤ 59)

theorem timeChecked_eq (fits : layout value = true) : timeChecked value = some (time value) := by
  simp only [layout, Bool.and_eq_true] at fits
  obtain ⟨⟨⟨⟨⟨⟨-, year⟩, month⟩, day⟩, hour⟩, minute⟩, second⟩ := fits
  unfold timeChecked time
  rw [numberChecked_eq (by omega) year, numberChecked_eq (by omega) month,
    numberChecked_eq (by omega) day, numberChecked_eq (by omega) hour,
    numberChecked_eq (by omega) minute, numberChecked_eq (by omega) second]
  rfl

/-- How long the digits of a fraction are. -/
def fractionLength (value : ByteString) : Nat :=
  ((value.drop 20).takeWhile fun c => 0x30 ≤ c && c ≤ 0x39).length

theorem validTimestamp_eq :
    validTimestamp value =
      (!decide (value.length < 20 ∨ value.length > kTimestampBytes) && layout value &&
        (!value.any fun c => 0x7F < c) &&
        (if byteAt value 19 == 0x2E then
          !(decide (fractionLength value < 1 ∨ fractionLength value > 9)) &&
            validZone value (20 + fractionLength value)
        else validZone value 19) && time value) := by
  unfold validTimestamp
  change (if _ then false else if (!layout value) = true then false else _) = _
  by_cases size : value.length < 20 ∨ value.length > kTimestampBytes
  · simp [size]
  · cases fits : layout value
    · simp
    · cases ascii : value.any fun c => 0x7F < c
      · cases point : byteAt value 19 == 0x2E
        · cases zone : validZone value 19 <;> simp [size, zone, time]
        · simp [size, fractionLength, time, Bool.and_assoc]
      · simp

theorem validTimestampChecked_eq : validTimestampChecked value = some (validTimestamp value) := by
  rw [validTimestampChecked, layoutChecked_eq, validTimestamp_eq, andAlso_some, andAlso_some]
  by_cases size : value.length < 20 ∨ value.length > kTimestampBytes
  · simp [size]
  · cases fits : layout value
    · simp
    · cases ascii : value.any fun c => 0x7F < c
      · rw [isAt_eq (by omega)]
        cases point : byteAt value 19 == 0x2E
        · simp [validZoneChecked_eq, timeChecked_eq fits, andAlso_some_some, size]
        · have zone : fractionEnd value value.length 20 = some (20 + fractionLength value) :=
            fractionEnd_eq (by omega) (by omega)
          simp only [zone, validZoneChecked_eq, timeChecked_eq fits, andAlso_some_some,
            Nat.add_sub_cancel_left, Option.bind_eq_bind, Option.bind_some, Option.pure_def,
            if_true, size, decide_false, Bool.not_false, Bool.true_and]
          by_cases wrong : fractionLength value < 1 ∨ fractionLength value > 9
          · simp only [wrong, if_true, decide_true, Bool.not_true, Bool.false_and]
          · simp only [wrong, if_false, decide_false, Bool.not_false, Bool.true_and]
      · simp

/-! ## What is accepted -/

theorem gregorianDays_eq (year month : Nat) : gregorianDays year month = daysInMonth year month := by
  unfold gregorianDays daysInMonth
  split
  · simp only [if_true, Nat.dvd_iff_mod_eq_zero]
    split_ifs <;> tauto
  all_goals simp_all

theorem digits_append {front : ByteString} (rest : ByteString) (i j : Nat) :
    digits (front ++ rest) (front.length + i) (front.length + j) = digits rest i j := by
  unfold digits
  rw [List.take_length_add_append, List.drop_length_add_append, List.length_append]
  simp only [Nat.add_le_add_iff_left]

theorem number_append {front : ByteString} (rest : ByteString) (i j : Nat) :
    number (front ++ rest) (front.length + i) (front.length + j) = number rest i j := by
  unfold number
  rw [List.take_length_add_append, List.drop_length_add_append]

/-- The zone may be looked at apart from what is before it. -/
theorem validZone_append (front rest : ByteString) :
    validZone (front ++ rest) front.length = validZone rest 0 := by
  unfold validZone
  rw [byteAt_append_length, byteAt_append_add, digits_append, digits_append, number_append,
    number_append, List.length_append]
  simp only [Nat.lt_add_right_iff_pos, Nat.zero_add, Nat.add_left_cancel_iff, beq_eq_decide]

theorem digits_cons (c : UInt8) (rest : ByteString) (i j : Nat) :
    digits (c :: rest) (i + 1) (j + 1) = digits rest i j := by
  unfold digits
  rw [List.take_succ_cons, List.drop_succ_cons, List.length_cons]
  simp only [Nat.add_le_add_iff_right]

theorem digits_cons_zero (c : UInt8) (rest : ByteString) (j : Nat) :
    digits (c :: rest) 0 (j + 1) = (decide (IsDigit c) && digits rest 0 j) := by
  unfold digits
  rw [isDigit_eq, List.take_succ_cons, List.drop_zero, List.drop_zero, List.all_cons,
    List.length_cons, Bool.and_left_comm]
  simp only [Nat.add_le_add_iff_right]

theorem digits_zero (rest : ByteString) : digits rest 0 0 = true := by simp [digits]

theorem number_cons (c : UInt8) (rest : ByteString) (i j : Nat) :
    number (c :: rest) (i + 1) (j + 1) = number rest i j := rfl

theorem number_two (a b : UInt8) (rest : ByteString) :
    number (a :: b :: rest) 0 2 = decimal [a, b] := rfl

theorem number_four (a b c d : UInt8) (rest : ByteString) :
    number (a :: b :: c :: d :: rest) 0 4 = decimal [a, b, c, d] := rfl

theorem areDigits_two_iff (a b : UInt8) : AreDigits 2 [a, b] ↔ IsDigit a ∧ IsDigit b := by
  simp [AreDigits]

theorem areDigits_four_iff (a b c d : UInt8) :
    AreDigits 4 [a, b, c, d] ↔ IsDigit a ∧ IsDigit b ∧ IsDigit c ∧ IsDigit d := by
  simp [AreDigits]

/-- The offset of a zone, by its characters. -/
theorem validZone_offset (s h₁ h₂ c m₁ m₂ : UInt8) (notUtc : s ≠ 0x5A) :
    validZone [s, h₁, h₂, c, m₁, m₂] 0 = true ↔
      (s = 0x2B ∨ s = 0x2D) ∧ c = 0x3A ∧ AreDigits 2 [h₁, h₂] ∧ AreDigits 2 [m₁, m₂] ∧
        decimal [h₁, h₂] ≤ 23 ∧ decimal [m₁, m₂] ≤ 59 := by
  unfold validZone
  rw [if_neg fun utc => notUtc utc.2]
  simp [digits_cons, digits_cons_zero, digits_zero, number_cons, number_two, areDigits_two_iff,
    and_assoc]

theorem validZone_iff (zone : ByteString) : validZone zone 0 = true ↔ IsZone zone := by
  constructor
  · intro valid
    by_cases utc : 0 < zone.length ∧ byteAt zone 0 = 0x5A
    · rw [validZone, if_pos utc] at valid
      obtain ⟨c, rfl⟩ := List.length_eq_one_iff.mp (beq_iff_eq.mp valid).symm
      obtain rfl : c = 0x5A := utc.2
      exact .utc
    · have long : zone.length = 6 := by
        rw [validZone, if_neg utc] at valid
        simp only [Bool.and_eq_true, beq_iff_eq] at valid
        exact valid.1.1.1.1.1.1.symm
      match zone, long with
      | [s, h₁, h₂, c, m₁, m₂], _ =>
          have notUtc : s ≠ 0x5A := fun same => utc ⟨Nat.succ_pos _, same⟩
          rw [validZone_offset _ _ _ _ _ _ notUtc] at valid
          obtain ⟨sign, rfl, hour, minute, hourMost, minuteMost⟩ := valid
          exact .offset sign hour minute hourMost minuteMost
  · rintro (_ | ⟨isSign, hourDigits, minuteDigits, hourMost, minuteMost⟩)
    · rfl
    · rename_i s hour minute
      obtain ⟨h₁, h₂, rfl⟩ := List.length_eq_two.mp hourDigits.1
      obtain ⟨m₁, m₂, rfl⟩ := List.length_eq_two.mp minuteDigits.1
      have notUtc : s ≠ 0x5A := by rintro rfl; revert isSign; decide
      exact (validZone_offset _ _ _ _ _ _ notUtc).mpr
        ⟨isSign, rfl, hourDigits, minuteDigits, hourMost, minuteMost⟩

/-- The first characters of a zone are no digits and no point. -/
theorem IsZone.exists_head {zone : ByteString} (isZone : IsZone zone) :
    ∃ c rest, zone = c :: rest ∧ c ≠ 0x2E ∧ ¬ IsDigit c := by
  cases isZone with
  | utc => exact ⟨_, _, rfl, by decide, by decide⟩
  | offset isSign =>
      refine ⟨_, _, rfl, ?_⟩
      rcases isSign with rfl | rfl <;> decide

/-- What follows the time of day: a fraction and a zone. -/
theorem tail_iff {front rest : ByteString} (length : front.length = 19) (nonempty : rest ≠ []) :
    (if byteAt (front ++ rest) 19 == 0x2E then
        !(decide (fractionLength (front ++ rest) < 1 ∨ fractionLength (front ++ rest) > 9)) &&
          validZone (front ++ rest) (20 + fractionLength (front ++ rest))
      else validZone (front ++ rest) 19) = true ↔
      ∃ fraction zone, rest = fraction ++ zone ∧ IsFraction fraction ∧ IsZone zone := by
  have here : byteAt (front ++ rest) 19 = byteAt rest 0 := by
    rw [← length, byteAt_append_length]
  rw [here]
  cases rest with
  | nil => exact absurd rfl nonempty
  | cons c text =>
      rw [byteAt_zero]
      by_cases point : c = 0x2E
      · subst point
        have fraction : fractionLength (front ++ 0x2E :: text) =
            (text.takeWhile fun c => decide (IsDigit c)).length := by
          rw [fractionLength, isDigit_eq, List.append_cons, List.drop_left' (by simp [length])]
        have zone : validZone (front ++ 0x2E :: text)
            (20 + (text.takeWhile fun c => decide (IsDigit c)).length) =
            validZone (text.dropWhile fun c => decide (IsDigit c)) 0 := by
          have parts : front ++ 0x2E :: text =
              (front ++ 0x2E :: text.takeWhile fun c => decide (IsDigit c)) ++
                text.dropWhile fun c => decide (IsDigit c) := by
            rw [List.append_assoc, List.cons_append, List.takeWhile_append_dropWhile]
          conv_lhs => rw [parts]
          rw [← validZone_append (front ++ 0x2E :: text.takeWhile fun c => decide (IsDigit c))]
          congr 1
          simp [length]
          omega
        rw [fraction, zone, if_pos (beq_self_eq_true _), Bool.and_eq_true, validZone_iff,
          Bool.not_eq_true', decide_eq_false_iff_not, not_or, Nat.not_lt, Nat.not_lt]
        constructor
        · rintro ⟨⟨least, most⟩, isZone⟩
          refine ⟨0x2E :: text.takeWhile fun c => decide (IsDigit c), _, ?_,
            .digits least most fun c member => ?_, isZone⟩
          · rw [List.cons_append, List.takeWhile_append_dropWhile]
          · simpa using List.mem_takeWhile_imp member
        · rintro ⟨_, zoneText, same, isFraction, isZone⟩
          obtain ⟨z, zs, rfl, notPoint, notDigit⟩ := isZone.exists_head
          cases isFraction with
          | absent => exact absurd (List.cons.inj same).1.symm notPoint
          | digits least most areDigits =>
              rename_i digitText
              obtain rfl : text = digitText ++ z :: zs := (List.cons.inj same).2
              have stops : ¬ decide (IsDigit z) = true := by simpa using notDigit
              have all : ∀ c ∈ _, decide (IsDigit c) = true := fun c member =>
                decide_eq_true (areDigits c member)
              rw [List.takeWhile_append_of_pos all, List.dropWhile_append_of_pos all,
                List.takeWhile_cons_of_neg (by exact stops), List.dropWhile_cons_of_neg (by exact stops),
                List.append_nil]
              exact ⟨⟨least, most⟩, isZone⟩
      · rw [if_neg (by simpa using point), ← length, validZone_append, validZone_iff]
        constructor
        · intro isZone
          exact ⟨[], _, rfl, .absent, isZone⟩
        · rintro ⟨fraction, zone, same, isFraction, isZone⟩
          cases isFraction with
          | absent => rwa [same]
          | digits => exact absurd (List.cons.inj same).1 point

/-! ## The characters at fixed positions -/

section Pieces

variable {year month day hour minute second : ByteString} {s₁ s₂ s₃ s₄ s₅ : UInt8}

/-- The pieces of a date and a time of day with what is between them, in front of the rest. -/
def pieces (year month day hour minute second : ByteString) (s₁ s₂ s₃ s₄ s₅ : UInt8)
    (rest : ByteString) : ByteString :=
  year ++ s₁ :: (month ++ s₂ :: (day ++ s₃ :: (hour ++ s₄ :: (minute ++ s₅ :: (second ++ rest)))))

theorem layout_pieces (yearLength : year.length = 4) (monthLength : month.length = 2)
    (dayLength : day.length = 2) (hourLength : hour.length = 2) (minuteLength : minute.length = 2)
    (secondLength : second.length = 2) (rest : ByteString) :
    layout (pieces year month day hour minute second s₁ s₂ s₃ s₄ s₅ rest) = true ↔
      (s₁ = 0x2D ∧ s₂ = 0x2D ∧ s₃ = 0x54 ∧ s₄ = 0x3A ∧ s₅ = 0x3A) ∧
        AreDigits 4 year ∧ AreDigits 2 month ∧ AreDigits 2 day ∧ AreDigits 2 hour ∧
          AreDigits 2 minute ∧ AreDigits 2 second := by
  obtain ⟨y₁, y₂, y₃, y₄, rfl⟩ := List.length_eq_four.mp yearLength
  obtain ⟨o₁, o₂, rfl⟩ := List.length_eq_two.mp monthLength
  obtain ⟨d₁, d₂, rfl⟩ := List.length_eq_two.mp dayLength
  obtain ⟨h₁, h₂, rfl⟩ := List.length_eq_two.mp hourLength
  obtain ⟨m₁, m₂, rfl⟩ := List.length_eq_two.mp minuteLength
  obtain ⟨c₁, c₂, rfl⟩ := List.length_eq_two.mp secondLength
  simp only [pieces, layout, List.cons_append, List.nil_append, byteAt_succ, byteAt_zero,
    digits_cons, digits_cons_zero, digits_zero, Bool.and_eq_true, beq_iff_eq, decide_eq_true_eq,
    areDigits_two_iff, areDigits_four_iff, and_assoc, and_true]

theorem time_pieces (yearLength : year.length = 4) (monthLength : month.length = 2)
    (dayLength : day.length = 2) (hourLength : hour.length = 2) (minuteLength : minute.length = 2)
    (secondLength : second.length = 2) (rest : ByteString) :
    time (pieces year month day hour minute second s₁ s₂ s₃ s₄ s₅ rest) = true ↔
      IsDate (decimal year) (decimal month) (decimal day) ∧ decimal hour ≤ 23 ∧
        decimal minute ≤ 59 ∧ decimal second ≤ 59 := by
  obtain ⟨y₁, y₂, y₃, y₄, rfl⟩ := List.length_eq_four.mp yearLength
  obtain ⟨o₁, o₂, rfl⟩ := List.length_eq_two.mp monthLength
  obtain ⟨d₁, d₂, rfl⟩ := List.length_eq_two.mp dayLength
  obtain ⟨h₁, h₂, rfl⟩ := List.length_eq_two.mp hourLength
  obtain ⟨m₁, m₂, rfl⟩ := List.length_eq_two.mp minuteLength
  obtain ⟨c₁, c₂, rfl⟩ := List.length_eq_two.mp secondLength
  simp only [time, Bool.and_eq_true, decide_eq_true_eq, ← gregorianDays_eq]
  simp only [pieces, List.cons_append, List.nil_append, number_cons, number_two, number_four]
  constructor
  · rintro ⟨⟨⟨⟨⟨⟨monthLeast, monthMost⟩, dayLeast⟩, dayMost⟩, hours⟩, minutes⟩, seconds⟩
    exact ⟨⟨monthLeast, monthMost, dayLeast, dayMost⟩, hours, minutes, seconds⟩
  · rintro ⟨⟨monthLeast, monthMost, dayLeast, dayMost⟩, hours, minutes, seconds⟩
    exact ⟨⟨⟨⟨⟨⟨monthLeast, monthMost⟩, dayLeast⟩, dayMost⟩, hours⟩, minutes⟩, seconds⟩

theorem pieces_eq_append (rest : ByteString) :
    pieces year month day hour minute second s₁ s₂ s₃ s₄ s₅ rest =
      pieces year month day hour minute second s₁ s₂ s₃ s₄ s₅ [] ++ rest := by
  simp [pieces]

theorem exists_split (value : ByteString) {n : Nat} (long : n < value.length) :
    ∃ front c rest, value = front ++ c :: rest ∧ front.length = n :=
  ⟨value.take n, value.get ⟨n, long⟩, value.drop (n + 1), by simp, by simp; omega⟩

/-- Every text that is long enough has such pieces. -/
theorem exists_pieces (long : 20 ≤ value.length) :
    ∃ year month day hour minute second s₁ s₂ s₃ s₄ s₅ rest,
      value = pieces year month day hour minute second s₁ s₂ s₃ s₄ s₅ rest ∧ rest ≠ [] ∧
        year.length = 4 ∧ month.length = 2 ∧ day.length = 2 ∧ hour.length = 2 ∧
          minute.length = 2 ∧ second.length = 2 := by
  obtain ⟨year, s₁, rest₁, rfl, yearLength⟩ := exists_split value (n := 4) (by omega)
  simp only [List.length_append, List.length_cons, yearLength] at long
  obtain ⟨month, s₂, rest₂, rfl, monthLength⟩ := exists_split rest₁ (n := 2) (by omega)
  simp only [List.length_append, List.length_cons, monthLength] at long
  obtain ⟨day, s₃, rest₃, rfl, dayLength⟩ := exists_split rest₂ (n := 2) (by omega)
  simp only [List.length_append, List.length_cons, dayLength] at long
  obtain ⟨hour, s₄, rest₄, rfl, hourLength⟩ := exists_split rest₃ (n := 2) (by omega)
  simp only [List.length_append, List.length_cons, hourLength] at long
  obtain ⟨minute, s₅, rest₅, rfl, minuteLength⟩ := exists_split rest₄ (n := 2) (by omega)
  simp only [List.length_append, List.length_cons, minuteLength] at long
  obtain ⟨second, c, rest₆, rfl, secondLength⟩ := exists_split rest₅ (n := 2) (by omega)
  exact ⟨year, month, day, hour, minute, second, s₁, s₂, s₃, s₄, s₅, c :: rest₆, rfl,
    List.cons_ne_nil _ _, yearLength, monthLength, dayLength, hourLength, minuteLength,
    secondLength⟩

theorem pieces_length (s₁ s₂ s₃ s₄ s₅ : UInt8) (yearLength : year.length = 4) (monthLength : month.length = 2)
    (dayLength : day.length = 2) (hourLength : hour.length = 2) (minuteLength : minute.length = 2)
    (secondLength : second.length = 2) :
    (pieces year month day hour minute second s₁ s₂ s₃ s₄ s₅ []).length = 19 := by
  simp [pieces, yearLength, monthLength, dayLength, hourLength, minuteLength, secondLength]

end Pieces

/-! ## No other characters -/

theorem IsDigit.ascii {c : UInt8} (isDigit : IsDigit c) : c ≤ 0x7F :=
  le_trans isDigit.2 (by decide)

theorem AreDigits.ascii {count : Nat} {text : ByteString} (areDigits : AreDigits count text) :
    ∀ c ∈ text, c ≤ 0x7F := fun c member => (areDigits.2 c member).ascii

theorem IsFraction.ascii {fraction : ByteString} (isFraction : IsFraction fraction) :
    fraction.length ≤ 10 ∧ ∀ c ∈ fraction, c ≤ 0x7F := by
  cases isFraction with
  | absent => simp
  | digits least most areDigits =>
      refine ⟨Nat.succ_le_succ most, List.forall_mem_cons.mpr ⟨by decide, ?_⟩⟩
      exact fun c member => (areDigits c member).ascii

theorem IsZone.ascii {zone : ByteString} (isZone : IsZone zone) :
    1 ≤ zone.length ∧ zone.length ≤ 6 ∧ ∀ c ∈ zone, c ≤ 0x7F := by
  cases isZone with
  | utc => exact ⟨le_refl 1, by simp, List.forall_mem_cons.mpr ⟨by decide, by simp⟩⟩
  | offset isSign hourDigits minuteDigits =>
      refine ⟨by simp, by simp [hourDigits.1, minuteDigits.1], ?_⟩
      rw [List.forall_mem_cons, List.forall_mem_append, List.forall_mem_cons]
      refine ⟨?_, hourDigits.ascii, by decide, minuteDigits.ascii⟩
      rcases isSign with rfl | rfl <;> decide

theorem IsTimestamp.fits (isTimestamp : IsTimestamp value) :
    20 ≤ value.length ∧ value.length ≤ kTimestampBytes ∧ ∀ c ∈ value, c ≤ 0x7F := by
  obtain ⟨year, month, day, hour, minute, second, -, -, -, -, isFraction, isZone⟩ := isTimestamp
  obtain ⟨fractionMost, fractionAscii⟩ := isFraction.ascii
  obtain ⟨zoneLeast, zoneMost, zoneAscii⟩ := isZone.ascii
  simp only [List.length_append, List.length_cons, year.1, month.1, day.1, hour.1, minute.1,
    second.1, kTimestampBytes, List.forall_mem_append, List.forall_mem_cons]
  refine ⟨by omega, by omega, year.ascii, by decide, month.ascii, by decide, day.ascii, by decide,
    hour.ascii, by decide, minute.ascii, by decide, second.ascii, fractionAscii, zoneAscii⟩

theorem validTimestamp_iff (value : ByteString) : validTimestamp value = true ↔ IsTimestamp value := by
  rw [validTimestamp_eq, Bool.and_eq_true, Bool.and_eq_true, Bool.and_eq_true, Bool.and_eq_true,
    Bool.not_eq_true', decide_eq_false_iff_not, not_or, Nat.not_lt, Nat.not_lt]
  constructor
  · rintro ⟨⟨⟨⟨⟨least, -⟩, fits⟩, -⟩, tail⟩, times⟩
    obtain ⟨year, month, day, hour, minute, second, s₁, s₂, s₃, s₄, s₅, rest, rfl, nonempty,
      yearLength, monthLength, dayLength, hourLength, minuteLength, secondLength⟩ :=
      exists_pieces least
    rw [layout_pieces yearLength monthLength dayLength hourLength minuteLength secondLength] at fits
    rw [time_pieces yearLength monthLength dayLength hourLength minuteLength secondLength] at times
    obtain ⟨⟨rfl, rfl, rfl, rfl, rfl⟩, yearDigits, monthDigits, dayDigits, hourDigits,
      minuteDigits, secondDigits⟩ := fits
    obtain ⟨isDate, hourMost, minuteMost, secondMost⟩ := times
    rw [pieces_eq_append, tail_iff (pieces_length _ _ _ _ _ yearLength monthLength dayLength hourLength
      minuteLength secondLength) nonempty] at tail
    obtain ⟨fraction, zone, rfl, isFraction, isZone⟩ := tail
    exact .intro yearDigits monthDigits dayDigits hourDigits minuteDigits secondDigits isDate
      hourMost minuteMost secondMost isFraction isZone
  · intro isTimestamp
    obtain ⟨least, most, ascii⟩ := isTimestamp.fits
    obtain ⟨year, month, day, hour, minute, second, isDate, hourMost, minuteMost, secondMost,
      isFraction, isZone⟩ := isTimestamp
    rename_i yearText monthText dayText hourText minuteText secondText fraction zone
    have nonempty : fraction ++ zone ≠ [] := by
      obtain ⟨c, rest, rfl, -⟩ := isZone.exists_head
      simp
    refine ⟨⟨⟨⟨⟨least, most⟩, ?_⟩, ?_⟩, ?_⟩, ?_⟩
    · exact (layout_pieces year.1 month.1 day.1 hour.1 minute.1 second.1 _).mpr
        ⟨⟨rfl, rfl, rfl, rfl, rfl⟩, year, month, day, hour, minute, second⟩
    · rw [Bool.not_eq_true', List.any_eq_false]
      exact fun c member => by simpa using ascii c member
    · have tail := (tail_iff (pieces_length 0x2D 0x2D 0x54 0x3A 0x3A year.1 month.1 day.1 hour.1
        minute.1 second.1) nonempty).mpr
        ⟨fraction, zone, rfl, isFraction, isZone⟩
      rw [← pieces_eq_append] at tail
      exact tail
    · exact (time_pieces year.1 month.1 day.1 hour.1 minute.1 second.1 _).mpr
        ⟨isDate, hourMost, minuteMost, secondMost⟩

/-- **No position outside of the text is read, and exactly the timestamps are accepted.** -/
theorem validTimestampChecked_iff (value : ByteString) :
    ∃ accepted, validTimestampChecked value = some accepted ∧
      (accepted = true ↔ IsTimestamp value) :=
  ⟨_, validTimestampChecked_eq, validTimestamp_iff value⟩

end Mozkey.Grimodex
