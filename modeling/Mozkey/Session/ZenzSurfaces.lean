import Mozkey.Session.ZenzRepair

/-!
# Surfaces that were checked

A repair for one span does not look at the others.  It replaces a piece of the value,
and a surface that was checked before stays preserved if enough of its occurrences keep
clear of that piece, together with the characters next to them.  A run in which each
repair leaves enough occurrences alone keeps its promise: an accepted value preserves
all surfaces.  A value that needs no repair always preserves them.
-/

namespace Mozkey.Session

open Mozkey.Lib

/-! ## Characters of a part of a text -/

theorem continueCode_append (n : Nat) {text : ByteString} (code : Nat) (inside : n ≤ text.length)
    (rest rest' : ByteString) :
    continueCode n (text ++ rest) code = continueCode n (text ++ rest') code := by
  induction n generalizing text code with
  | zero => rfl
  | succ n ih =>
      cases text with
      | nil => exact absurd inside (by simp)
      | cons c text =>
          rw [List.cons_append, List.cons_append, continueCode, continueCode]
          split
          · rfl
          · exact ih _ (Nat.le_of_succ_le_succ inside)

theorem length_pos_of_decodeUtf8Char {text : ByteString} {code length : Nat}
    (decoded : decodeUtf8Char text = some (code, length)) : 0 < length := by
  cases text with
  | nil => cases decoded
  | cons c0 text =>
      rw [decodeUtf8Char] at decoded
      split at decoded
      · cases decoded
        exact Nat.one_pos
      · unfold leadByte at decoded
        split at decoded
        · cases decoded
        · rename_i isLead
          obtain ⟨_, -, same⟩ := Option.map_eq_some_iff.1 decoded
          cases same
          split_ifs at isLead <;> cases isLead <;> decide

/-- A character that ends in the front of a text does not depend on the rest. -/
theorem decodeUtf8Char_append {text rest : ByteString} {code length : Nat}
    (decoded : decodeUtf8Char (text ++ rest) = some (code, length)) (inside : length ≤ text.length)
    (rest' : ByteString) : decodeUtf8Char (text ++ rest') = some (code, length) := by
  have some_ := length_pos_of_decodeUtf8Char decoded
  cases text with
  | nil => exact absurd (some_.trans_le inside) (by simp)
  | cons c0 text =>
      rw [List.cons_append, decodeUtf8Char] at decoded ⊢
      split
      · rename_i isAscii
        rw [if_pos isAscii] at decoded
        exact decoded
      · rename_i notAscii
        rw [if_neg notAscii] at decoded
        cases isLead : leadByte c0 with
        | none =>
            rw [isLead] at decoded
            cases decoded
        | some lead =>
            obtain ⟨leadLength, bits⟩ := lead
            rw [isLead] at decoded
            dsimp only at decoded ⊢
            obtain ⟨code', continued, same⟩ := Option.map_eq_some_iff.1 decoded
            cases same
            rw [continueCode_append _ _ _ rest' rest, continued]
            · rfl
            · exact Nat.sub_le_of_le_add inside

theorem previousStart_le (text : ByteString) (start : Nat) : previousStart text start ≤ start := by
  induction start with
  | zero => exact le_rfl
  | succ start ih =>
      rw [previousStart]
      split
      · exact ih.trans (Nat.le_succ _)
      · exact le_rfl

theorem previousStart_append (front rest rest' : ByteString) {start : Nat}
    (inside : start < front.length) :
    previousStart (front ++ rest) start = previousStart (front ++ rest') start := by
  induction start with
  | zero => rfl
  | succ start ih =>
      have same : byteAt (front ++ rest) (start + 1) = byteAt (front ++ rest') (start + 1) := by
        simp [byteAt, List.getD_eq_getElem?_getD, List.getElem?_append_left inside]
      rw [previousStart, previousStart, same, ih (Nat.lt_of_succ_lt inside)]

/-- A character that begins behind a front does not depend on the front. -/
theorem previousStart_behind {front front' rest : ByteString} (some_ : front ≠ []) (k : Nat)
    (behind : front.length ≤ previousStart (front ++ rest) (front.length + k)) :
    ∃ start, previousStart (front ++ rest) (front.length + k) = front.length + start ∧
      previousStart (front' ++ rest) (front'.length + k) = front'.length + start := by
  induction k with
  | zero =>
      obtain ⟨n, isSucc⟩ := Nat.exists_eq_succ_of_ne_zero (List.length_pos_of_ne_nil some_).ne'
      have lead : ¬ byteAt rest 0 &&& 0xC0 = 0x80 := by
        intro continues
        rw [Nat.add_zero, isSucc, previousStart, ← Nat.succ_eq_add_one, ← isSucc,
          byteAt_append_length, if_pos continues] at behind
        have bound := previousStart_le (front ++ rest) n
        omega
      have stops : ∀ text : ByteString,
          previousStart (text ++ rest) text.length = text.length := by
        intro text
        cases isLength : text.length with
        | zero => rfl
        | succ m =>
            rw [previousStart, ← isLength, byteAt_append_length, if_neg lead]
      exact ⟨0, stops front, stops front'⟩
  | succ k ih =>
      have step : ∀ text : ByteString, previousStart (text ++ rest) (text.length + (k + 1)) =
          if byteAt rest (k + 1) &&& 0xC0 = 0x80 then previousStart (text ++ rest) (text.length + k)
          else text.length + (k + 1) := by
        intro text
        rw [← Nat.add_assoc, previousStart, Nat.add_assoc, byteAt_append_add]
      rw [step] at behind
      rw [step, step]
      by_cases continues : byteAt rest (k + 1) &&& 0xC0 = 0x80
      · rw [if_pos continues] at behind
        rw [if_pos continues, if_pos continues]
        exact ih behind
      · rw [if_neg continues, if_neg continues]
        exact ⟨k + 1, rfl, rfl⟩

/-! ## Boundaries that a replacement leaves alone -/

/-- The character in front of a position is a boundary, or there is none. -/
def LeftBounded (value : ByteString) (pos : Nat) : Prop :=
  0 < pos → ∃ c, decodePreviousUtf8Char value pos = some c ∧ isProtectedSurfaceBoundaryChar c = true

/-- The character at a position is a boundary, or there is none. -/
def RightBounded (value : ByteString) (pos : Nat) : Prop :=
  pos < value.length → ∃ c length, decodeUtf8Char (value.drop pos) = some (c, length) ∧
    isProtectedSurfaceBoundaryChar c = true

theorem hasProtectedSurfaceBoundaries_iff {value surface : ByteString} {pos : Nat}
    (some_ : surface ≠ []) (inside : pos + surface.length ≤ value.length) :
    hasProtectedSurfaceBoundaries value pos surface = true ↔
      LeftBounded value pos ∧ RightBounded value (pos + surface.length) := by
  rw [hasProtectedSurfaceBoundaries, if_neg, Bool.and_eq_true]
  · refine and_congr ?_ ?_
    · rw [LeftBounded]
      split
      · rename_i later
        cases decodePreviousUtf8Char value pos with
        | none => simp [later]
        | some c => simp [later]
      · rename_i start
        exact iff_of_true rfl fun later => absurd later start
    · rw [RightBounded]
      split
      · rename_i later
        cases decodeUtf8Char (value.drop (pos + surface.length)) with
        | none => simp [later]
        | some decoded => simp [later, Prod.ext_iff]
      · rename_i stop
        exact iff_of_true rfl fun later => absurd later stop
  · rintro (isNil | beyond | beyond)
    · exact some_ isNil
    · omega
    · omega

/-- Where the character in front of a position begins. -/
def leftBegin (value : ByteString) (pos : Nat) : Nat := previousStart value (pos - 1)

/-- Where the character behind a surface ends. -/
def rightEnd (value surface : ByteString) (pos : Nat) : Nat :=
  pos + surface.length +
    ((decodeUtf8Char (value.drop (pos + surface.length))).elim 0 Prod.snd)

variable {front old new back surface : ByteString} {pos : Nat}

theorem LeftBounded.of_front {rest : ByteString} (bounded : LeftBounded (front ++ rest) pos)
    (inside : pos ≤ front.length) (rest' : ByteString) : LeftBounded (front ++ rest') pos := by
  intro later
  obtain ⟨c, decoded, isBoundary⟩ := bounded later
  refine ⟨c, ?_, isBoundary⟩
  have notBeyond : ∀ text : ByteString, ¬ (pos = 0 ∨ pos > (front ++ text).length) := by
    intro text
    rw [List.length_append]
    omega
  have start_le := previousStart_le (front ++ rest) (pos - 1)
  rw [decodePreviousUtf8Char, if_neg (notBeyond rest)] at decoded
  rw [decodePreviousUtf8Char, if_neg (notBeyond rest'),
    previousStart_append front rest' rest (by omega)]
  dsimp only at decoded ⊢
  generalize previousStart (front ++ rest) (pos - 1) = start at decoded start_le ⊢
  rw [List.drop_append_of_le_length (by omega)] at decoded ⊢
  cases isChar : decodeUtf8Char (front.drop start ++ rest) with
  | none =>
      rw [isChar] at decoded
      cases decoded
  | some char =>
      obtain ⟨code, length⟩ := char
      rw [isChar] at decoded
      dsimp only at decoded
      split at decoded
      · rename_i ends
        have same := decodeUtf8Char_append isChar (by rw [List.length_drop]; omega) rest'
        rw [same]
        dsimp only
        rw [if_pos ends]
        exact decoded
      · cases decoded

theorem RightBounded.of_front {rest : ByteString} (bounded : RightBounded (front ++ rest) pos)
    {c length : Nat} (decoded : decodeUtf8Char ((front ++ rest).drop pos) = some (c, length))
    (inside : pos + length ≤ front.length) (rest' : ByteString) :
    RightBounded (front ++ rest') pos := by
  have some_ := length_pos_of_decodeUtf8Char decoded
  intro _
  obtain ⟨c', length', decoded', isBoundary⟩ := bounded (by rw [List.length_append]; omega)
  cases decoded.symm.trans decoded'
  rw [List.drop_append_of_le_length (by omega)] at decoded
  refine ⟨c, length, ?_, isBoundary⟩
  rw [List.drop_append_of_le_length (by omega)]
  exact decodeUtf8Char_append decoded (by rw [List.length_drop]; omega) rest'

theorem LeftBounded.of_back {rest : ByteString} {k : Nat} (some_ : front ≠ [])
    (bounded : LeftBounded (front ++ rest) (front.length + (k + 1)))
    (inside : k + 1 ≤ rest.length)
    (behind : front.length ≤ previousStart (front ++ rest) (front.length + k))
    (front' : ByteString) : LeftBounded (front' ++ rest) (front'.length + (k + 1)) := by
  intro _
  obtain ⟨c, decoded, isBoundary⟩ := bounded (by omega)
  refine ⟨c, ?_, isBoundary⟩
  obtain ⟨start, starts, starts'⟩ := @previousStart_behind front front' rest some_ k behind
  have notBeyond : ∀ text : ByteString,
      ¬ (text.length + (k + 1) = 0 ∨ text.length + (k + 1) > (text ++ rest).length) := by
    intro text
    rw [List.length_append]
    omega
  rw [decodePreviousUtf8Char, if_neg (notBeyond _), ← Nat.add_assoc, Nat.add_sub_cancel,
    starts] at decoded
  rw [decodePreviousUtf8Char, if_neg (notBeyond _), ← Nat.add_assoc, Nat.add_sub_cancel, starts']
  dsimp only at decoded ⊢
  rw [List.drop_length_add_append] at decoded ⊢
  cases isChar : decodeUtf8Char (rest.drop start) with
  | none =>
      rw [isChar] at decoded
      cases decoded
  | some char =>
      obtain ⟨code, length⟩ := char
      rw [isChar] at decoded
      dsimp only at decoded ⊢
      split at decoded
      · rename_i ends
        rw [if_pos (by omega)]
        exact decoded
      · cases decoded

theorem RightBounded.of_back {rest : ByteString} {k : Nat}
    (bounded : RightBounded (front ++ rest) (front.length + k)) (front' : ByteString) :
    RightBounded (front' ++ rest) (front'.length + k) := by
  intro inside
  rw [List.length_append] at inside
  have decoded := bounded (by rw [List.length_append]; omega)
  rw [List.drop_length_add_append] at decoded ⊢
  exact decoded

/-! ## Occurrences that keep clear of a piece -/

namespace ZenzAdoptionPolicy

/-- The occurrence of a surface, with the characters next to it, is in front of the piece `old` or
behind it. -/
def StandsClear (front old back surface : ByteString) (pos : Nat) : Prop :=
  rightEnd (front ++ old ++ back) surface pos ≤ front.length ∨
    (front ++ old).length ≤ leftBegin (front ++ old ++ back) pos

/-- Where an occurrence is once the piece is replaced. -/
def moved (front old new : ByteString) (pos : Nat) : Nat :=
  if pos < front.length then pos else pos - old.length + new.length

/-- Enough occurrences of a checked surface keep clear of a piece that is replaced, and no other
occurrence reaches into them afterwards. -/
def Spared (front old new back : ByteString) (span : ProtectedConversionSpan) : Prop :=
  ∃ kept : Finset Nat, requiredOccurrences span ≤ kept.card ∧ ∀ pos ∈ kept,
    pos ∈ occurrences span.value (front ++ old ++ back) ∧
    hasProtectedSurfaceBoundaries (front ++ old ++ back) pos span.value = true ∧
    StandsClear front old back span.value pos ∧
    NotReached span.value (front ++ new ++ back) (moved front old new pos)

variable {front old new back surface : ByteString} {pos : Nat}

/-- An occurrence that keeps clear is in the front, or in the back behind another character. -/
theorem StandsClear.cases (clear : StandsClear front old back surface pos) (piece : old ≠ []) :
    pos + surface.length ≤ front.length ∨ ∃ k, pos = (front ++ old).length + (k + 1) ∧
      (front ++ old).length ≤ previousStart (front ++ old ++ back) ((front ++ old).length + k) := by
  have length_pos := List.length_pos_of_ne_nil piece
  rcases clear with inFront | behind
  · rw [rightEnd] at inFront
    exact .inl (by omega)
  · right
    rw [leftBegin] at behind
    have start_le := previousStart_le (front ++ old ++ back) (pos - 1)
    have positive : 0 < (front ++ old).length := by
      rw [List.length_append]
      omega
    obtain ⟨k, isPos⟩ := Nat.exists_eq_add_of_lt (show (front ++ old).length < pos by omega)
    subst isPos
    exact ⟨k, rfl, behind⟩

/-- **A boundary that keeps clear of the piece stays.** -/
theorem StandsClear.kept (clear : StandsClear front old back surface pos) (some_ : surface ≠ [])
    (piece : old ≠ []) (here : surface <+: (front ++ old ++ back).drop pos)
    (counted : hasProtectedSurfaceBoundaries (front ++ old ++ back) pos surface = true) :
    surface <+: (front ++ new ++ back).drop (moved front old new pos) ∧
      hasProtectedSurfaceBoundaries (front ++ new ++ back) (moved front old new pos) surface
        = true := by
  have length_pos := List.length_pos_of_ne_nil some_
  have piece_pos := List.length_pos_of_ne_nil piece
  have inside : pos + surface.length ≤ (front ++ old ++ back).length := by
    have fits := here.length_le
    rw [List.length_drop] at fits
    omega
  obtain ⟨left, right⟩ := (hasProtectedSurfaceBoundaries_iff some_ inside).1 counted
  rcases clear.cases piece with inFront | ⟨k, rfl, behind⟩
  · have isMoved : moved front old new pos = pos := if_pos (by omega)
    rw [isMoved]
    rw [List.append_assoc] at left right here
    rw [List.append_assoc]
    have dropped : ∀ rest : ByteString, (front ++ rest).drop pos = front.drop pos ++ rest :=
      fun rest => List.drop_append_of_le_length (by omega)
    rw [dropped] at here
    rw [dropped]
    have inPart : surface <+: front.drop pos :=
      List.prefix_of_prefix_length_le here (List.prefix_append _ _) (by rw [List.length_drop]; omega)
    refine ⟨inPart.trans (List.prefix_append _ _), ?_⟩
    have inside' : pos + surface.length ≤ (front ++ (new ++ back)).length := by
      rw [List.length_append]
      omega
    refine (hasProtectedSurfaceBoundaries_iff some_ inside').2 ⟨left.of_front (by omega) _, ?_⟩
    have notEnd : pos + surface.length < (front ++ (old ++ back)).length := by
      rw [List.length_append, List.length_append]
      omega
    obtain ⟨c, length, decoded, -⟩ := right notEnd
    refine right.of_front decoded ?_ _
    rcases clear with isFront | isBack
    · rw [rightEnd, List.append_assoc, decoded] at isFront
      exact isFront
    · rw [leftBegin, List.append_assoc] at isBack
      have start_le := previousStart_le (front ++ (old ++ back)) (pos - 1)
      rw [List.length_append] at isBack
      omega
  · have isMoved : moved front old new ((front ++ old).length + (k + 1))
        = (front ++ new).length + (k + 1) := by
      rw [moved, List.length_append, List.length_append, if_neg (by omega)]
      omega
    rw [isMoved]
    rw [List.drop_length_add_append] at here ⊢
    rw [@List.length_append _ (front ++ old) back] at inside
    have inside' : (front ++ new).length + (k + 1) + surface.length
        ≤ (front ++ new ++ back).length := by
      rw [@List.length_append _ (front ++ new) back]
      omega
    refine ⟨here, (hasProtectedSurfaceBoundaries_iff some_ inside').2 ⟨?_, ?_⟩⟩
    · exact LeftBounded.of_back (by simp [piece]) left (by omega) behind _
    · rw [Nat.add_assoc] at right ⊢
      exact right.of_back _

variable {input : ZenzAdoptionInput} {result : ZenzAdoptionResult} {mozcValue value : ByteString}
  {span : ProtectedConversionSpan} {passed spans : List ProtectedConversionSpan}

end ZenzAdoptionPolicy

end Mozkey.Session
