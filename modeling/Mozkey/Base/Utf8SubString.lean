import Mozkey.Base.Utf8
import Mozkey.Base.Utf8Decoding

/-!
# Parts of a text by characters

`Util::CharsLen` and `Util::Utf8SubString` go from one character to the next one by the length that
its first byte tells.  A text is whole when this way ends at its end, as it does in valid UTF-8.
Behind the last byte of a text that is not whole, the substring would read on; here it ends.
-/

namespace Mozkey

open Utf8Internal

/-- `Util::Utf8SubString` from a character on. -/
def utf8SubStringFrom : ByteString → Nat → ByteString
  | src, 0 => src
  | [], _ + 1 => []
  | c :: src, start + 1 => utf8SubStringFrom ((c :: src).drop (oneCharLen c)) start

/-- The first characters of a text. -/
def utf8Front : ByteString → Nat → ByteString
  | _, 0 => []
  | [], _ + 1 => []
  | c :: src, length + 1 =>
      (c :: src).take (oneCharLen c) ++ utf8Front ((c :: src).drop (oneCharLen c)) length

/-- `Util::Utf8SubString`. -/
def utf8SubString (src : ByteString) (start length : Nat) : ByteString :=
  utf8Front (utf8SubStringFrom src start) length

/-! ## Whole texts -/

/-- Bytes that are one character by their first byte. -/
def IsCharacter (bytes : ByteString) : Prop :=
  ∃ c rest, bytes = c :: rest ∧ bytes.length = oneCharLen c

/-- The text is made of characters. -/
def Whole (str : ByteString) : Prop :=
  ∃ pieces : List ByteString, (∀ piece ∈ pieces, IsCharacter piece) ∧ pieces.flatten = str

section Pieces

variable {pieces : List ByteString}

theorem IsCharacter.ne_nil {piece : ByteString} (isCharacter : IsCharacter piece) : piece ≠ [] := by
  obtain ⟨c, rest, rfl, -⟩ := isCharacter
  exact List.cons_ne_nil _ _

theorem flatten_eq_nil_iff (each : ∀ piece ∈ pieces, IsCharacter piece) :
    pieces.flatten = [] ↔ pieces = [] := by
  cases pieces with
  | nil => simp
  | cons piece pieces => simp [(each piece List.mem_cons_self).ne_nil]

theorem charsLenFrom_append (rest str : ByteString) :
    charsLenFrom rest.length (rest ++ str) = charsLenFrom 0 str := by
  induction rest with
  | nil => rfl
  | cons c rest ih => exact ih

/-- The length of a whole text is the number of its characters. -/
theorem charsLen_flatten (each : ∀ piece ∈ pieces, IsCharacter piece) :
    charsLen pieces.flatten = pieces.length := by
  induction pieces with
  | nil => rfl
  | cons piece pieces ih =>
      rw [List.forall_mem_cons] at each
      obtain ⟨⟨c, rest, rfl, length⟩, others⟩ := each
      have behind : oneCharLen c - 1 = rest.length := by
        rw [← length, List.length_cons, Nat.add_sub_cancel]
      rw [List.flatten_cons, List.cons_append, charsLen, charsLenFrom, behind, charsLenFrom_append]
      exact congrArg Nat.succ (ih others)

theorem utf8SubStringFrom_flatten (each : ∀ piece ∈ pieces, IsCharacter piece) (start : Nat) :
    utf8SubStringFrom pieces.flatten start = (pieces.drop start).flatten := by
  induction start generalizing pieces with
  | zero =>
      rw [List.drop_zero]
      cases pieces.flatten <;> rfl
  | succ start ih =>
      cases pieces with
      | nil => rfl
      | cons piece pieces =>
          rw [List.forall_mem_cons] at each
          obtain ⟨⟨c, rest, rfl, length⟩, others⟩ := each
          rw [List.flatten_cons, List.cons_append, utf8SubStringFrom, ← length, ← List.cons_append,
            List.drop_left, ih others, List.drop_succ_cons]

theorem utf8Front_flatten (each : ∀ piece ∈ pieces, IsCharacter piece) (length : Nat) :
    utf8Front pieces.flatten length = (pieces.take length).flatten := by
  induction length generalizing pieces with
  | zero => cases pieces.flatten <;> rfl
  | succ length ih =>
      cases pieces with
      | nil => rfl
      | cons piece pieces =>
          rw [List.forall_mem_cons] at each
          obtain ⟨⟨c, rest, rfl, length⟩, others⟩ := each
          rw [List.flatten_cons, List.cons_append, utf8Front, ← length, ← List.cons_append,
            List.drop_left, List.take_left, ih others, List.take_succ_cons, List.flatten_cons]

/-- **A substring of a whole text** is made of the characters at its places. -/
theorem utf8SubString_flatten (each : ∀ piece ∈ pieces, IsCharacter piece) (start length : Nat) :
    utf8SubString pieces.flatten start length = ((pieces.drop start).take length).flatten := by
  rw [utf8SubString, utf8SubStringFrom_flatten each, utf8Front_flatten]
  exact fun piece member => each piece (List.mem_of_mem_drop member)

end Pieces

/-- The encoding of a character is one character by its first byte. -/
theorem isCharacter_utf8EncodeChar (c : Char) : IsCharacter (String.utf8EncodeChar c) := by
  have sequence := sequence_utf8EncodeChar c
  generalize c.toNat = code, String.utf8EncodeChar c = bytes at sequence ⊢
  cases sequence with
  | one less => exact ⟨_, _, rfl, (lead_one less).2.symm⟩
  | two least less _ => exact ⟨_, _, rfl, (lead_two less least).2.1.symm⟩
  | three less _ _ _ _ => exact ⟨_, _, rfl, (lead_three less).2.1.symm⟩
  | four less _ _ _ _ _ => exact ⟨_, _, rfl, (lead_four less).2.1.symm⟩

/-- Valid texts are whole. -/
theorem whole_utf8 (text : List Char) : Whole (utf8 text) := by
  refine ⟨text.map String.utf8EncodeChar, ?_, ?_⟩
  · intro piece member
    obtain ⟨c, -, rfl⟩ := List.mem_map.1 member
    exact isCharacter_utf8EncodeChar c
  · rw [utf8, List.flatMap_def]

end Mozkey
