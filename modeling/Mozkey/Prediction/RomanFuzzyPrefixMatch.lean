import Mozkey.Base.ByteString

/-!
# Fuzzy prefixes of a romanized key

A reading that was typed with a slip is looked up in the history by its romanization.
`RomanFuzzyPrefixMatch` compares it with the romanization of an entry's key: up to the first
character that differs they have to agree, and there one edit has to make the one a prefix of
the other.

The edits are tried at this one place only, and which of them are tried depends on the character
that is found there.  A prolonged sound mark, written `-`, may stand for any character that is not
a letter or a digit; before other characters a missing character or two swapped ones are
forgiven.  Looking elsewhere would find nothing more, as long as no edit puts a `-` in its place.
-/

namespace Mozkey.Prediction

/-! ## The comparison -/

/-- The prolonged sound mark in romanizations. -/
def soundMark : UInt8 := 0x2d

/-- `isalnum` of the C locale. -/
def isalnum (c : UInt8) : Bool :=
  (0x30 ≤ c && c ≤ 0x39) || (0x41 ≤ c && c ≤ 0x5a) || (0x61 ≤ c && c ≤ 0x7a)

/-- The text with the characters at `i` and `i + 1` swapped. -/
def swapAt (text : ByteString) (i : Nat) : ByteString :=
  (text.set i (byteAt text (i + 1))).set (i + 1) (byteAt text i)

/-- The edits that are tried at the first character that differs. -/
def matchesAt (str pre : ByteString) (i : Nat) : Bool :=
  if byteAt str i = soundMark then
    !isalnum (byteAt pre i) && (pre.set i (byteAt str i)).isPrefixOf str
  else
    (pre.insertIdx i (byteAt str i)).isPrefixOf str ||
      (i + 1 < pre.length && (swapAt pre i).isPrefixOf str)

/-- The loop of `RomanFuzzyPrefixMatch`. -/
def fuzzyLoop (str pre : ByteString) : Bool :=
  match (List.range pre.length).find? fun i => byteAt pre i ≠ byteAt str i with
  | none => false
  | some i => matchesAt str pre i

/-- `UserHistoryPredictor::RomanFuzzyPrefixMatch`. -/
def romanFuzzyPrefixMatch (str pre : ByteString) : Bool :=
  if pre = [] ∨ pre.length > str.length then false else fuzzyLoop str pre

/-! ## Edits anywhere -/

/-- One edit of a text: a character is inserted, two neighbours are swapped, or a character that
is neither a letter nor a digit becomes a sound mark.  The character that an insertion or a swap
puts in front is one of those in `front`. -/
inductive Edit (front : UInt8 → Prop) : ByteString → ByteString → Prop
  | insert (before after : ByteString) (c : UInt8) (allowed : front c) :
      Edit front (before ++ after) (before ++ c :: after)
  | swap (before after : ByteString) (c d : UInt8) (allowed : front d) :
      Edit front (before ++ c :: d :: after) (before ++ d :: c :: after)
  | replace (before after : ByteString) (c : UInt8) (other : isalnum c = false) :
      Edit front (before ++ c :: after) (before ++ soundMark :: after)

/-- Some edit makes `pre` a prefix of `str`. -/
def Mended (front : UInt8 → Prop) (str pre : ByteString) : Prop :=
  ∃ edited, Edit front pre edited ∧ edited <+: str

section Mended

variable {front : UInt8 → Prop} {str pre : ByteString}

theorem Edit.cons {edited : ByteString} (x : UInt8) (edit : Edit front pre edited) :
    Edit front (x :: pre) (x :: edited) := by
  cases edit with
  | insert before after c allowed => exact .insert (x :: before) after c allowed
  | swap before after c d allowed => exact .swap (x :: before) after c d allowed
  | replace before after c other => exact .replace (x :: before) after c other

/-- An edit behind the first character, or one that changes it. -/
theorem edit_cons_iff {x : UInt8} {edited : ByteString} :
    Edit front (x :: pre) edited ↔
      (∃ rest, edited = x :: rest ∧ Edit front pre rest) ∨
      (∃ c, front c ∧ edited = c :: x :: pre) ∨
      (∃ d after, pre = d :: after ∧ front d ∧ edited = d :: x :: after) ∨
      isalnum x = false ∧ edited = soundMark :: pre := by
  constructor
  · intro edit
    generalize whole : x :: pre = text at edit
    cases edit with
    | insert before after c allowed =>
        cases before with
        | nil =>
            obtain rfl : x :: pre = after := whole
            exact .inr (.inl ⟨c, allowed, rfl⟩)
        | cons y before =>
            obtain ⟨rfl, rfl⟩ := List.cons.inj whole
            exact .inl ⟨_, rfl, .insert before after c allowed⟩
    | swap before after c d allowed =>
        cases before with
        | nil =>
            obtain ⟨rfl, rfl⟩ := List.cons.inj whole
            exact .inr (.inr (.inl ⟨d, after, rfl, allowed, rfl⟩))
        | cons y before =>
            obtain ⟨rfl, rfl⟩ := List.cons.inj whole
            exact .inl ⟨_, rfl, .swap before after c d allowed⟩
    | replace before after c other =>
        cases before with
        | nil =>
            obtain ⟨rfl, rfl⟩ := List.cons.inj whole
            exact .inr (.inr (.inr ⟨other, rfl⟩))
        | cons y before =>
            obtain ⟨rfl, rfl⟩ := List.cons.inj whole
            exact .inl ⟨_, rfl, .replace before after c other⟩
  · rintro (⟨rest, rfl, edit⟩ | ⟨c, allowed, rfl⟩ | ⟨d, after, rfl, allowed, rfl⟩ | ⟨other, rfl⟩)
    · exact edit.cons x
    · exact .insert [] (x :: pre) c allowed
    · exact .swap [] after x d allowed
    · exact .replace [] pre x other

/-- **Where the texts agree, an edit mends nothing** that an edit behind would not mend. -/
theorem mended_cons_same {x : UInt8} (differ : ¬ pre <+: str) :
    Mended front (x :: str) (x :: pre) ↔ Mended front str pre := by
  constructor
  · rintro ⟨edited, edit, within⟩
    rcases edit_cons_iff.1 edit with ⟨rest, rfl, later⟩ | ⟨c, allowed, rfl⟩ |
      ⟨d, after, rfl, allowed, rfl⟩ | ⟨other, rfl⟩
    · exact ⟨rest, later, (List.cons_prefix_cons.1 within).2⟩
    · -- The same character could have been inserted one place further on.
      obtain ⟨rfl, tail⟩ := List.cons_prefix_cons.1 within
      exact ⟨_, .insert [] pre c allowed, tail⟩
    · obtain ⟨rfl, tail⟩ := List.cons_prefix_cons.1 within
      exact absurd tail differ
    · exact absurd (List.cons_prefix_cons.1 within).2 differ
  · rintro ⟨edited, edit, within⟩
    exact ⟨x :: edited, edit.cons x, List.cons_prefix_cons.2 ⟨rfl, within⟩⟩

/-- **At the first difference** an edit has to put the right character in its place. -/
theorem mended_cons_differ {x y : UInt8} (differ : x ≠ y) :
    Mended front (y :: str) (x :: pre) ↔
      front y ∧ (x :: pre <+: str ∨ ∃ after, pre = y :: after ∧ x :: after <+: str) ∨
        isalnum x = false ∧ y = soundMark ∧ pre <+: str := by
  constructor
  · rintro ⟨edited, edit, within⟩
    rcases edit_cons_iff.1 edit with ⟨rest, rfl, later⟩ | ⟨c, allowed, rfl⟩ |
      ⟨d, after, rfl, allowed, rfl⟩ | ⟨other, rfl⟩
    · exact absurd (List.cons_prefix_cons.1 within).1 differ
    · obtain ⟨rfl, tail⟩ := List.cons_prefix_cons.1 within
      exact .inl ⟨allowed, .inl tail⟩
    · obtain ⟨rfl, tail⟩ := List.cons_prefix_cons.1 within
      exact .inl ⟨allowed, .inr ⟨after, rfl, tail⟩⟩
    · obtain ⟨rfl, tail⟩ := List.cons_prefix_cons.1 within
      exact .inr ⟨other, rfl, tail⟩
  · rintro (⟨allowed, within | ⟨after, rfl, within⟩⟩ | ⟨other, rfl, within⟩)
    · exact ⟨_, .insert [] (x :: pre) y allowed, List.cons_prefix_cons.2 ⟨rfl, within⟩⟩
    · exact ⟨_, .swap [] after x y allowed, List.cons_prefix_cons.2 ⟨rfl, within⟩⟩
    · exact ⟨_, .replace [] pre x other, List.cons_prefix_cons.2 ⟨rfl, within⟩⟩

end Mended

/-! ## The loop -/

section Loop

variable {str pre : ByteString} {x y : UInt8}

theorem swapAt_cons (x : UInt8) (pre : ByteString) (i : Nat) :
    swapAt (x :: pre) (i + 1) = x :: swapAt pre i := rfl

theorem matchesAt_cons (x : UInt8) (str pre : ByteString) (i : Nat) :
    matchesAt (x :: str) (x :: pre) (i + 1) = matchesAt str pre i := by
  simp [matchesAt, swapAt_cons]

/-- The loop passes over a character that agrees. -/
theorem fuzzyLoop_cons_same (x : UInt8) (str pre : ByteString) :
    fuzzyLoop (x :: str) (x :: pre) = fuzzyLoop str pre := by
  unfold fuzzyLoop
  rw [List.length_cons, List.range_succ_eq_map, List.find?_cons_of_neg (by simp), List.find?_map]
  have later : ((fun i => decide (byteAt (x :: pre) i ≠ byteAt (x :: str) i)) ∘ Nat.succ) =
      fun i => decide (byteAt pre i ≠ byteAt str i) := rfl
  rw [later]
  cases (List.range pre.length).find? fun i => decide (byteAt pre i ≠ byteAt str i) with
  | none => rfl
  | some i => exact matchesAt_cons x str pre i

/-- The loop ends at a character that differs. -/
theorem fuzzyLoop_cons_differ (differ : x ≠ y) :
    fuzzyLoop (y :: str) (x :: pre) = matchesAt (y :: str) (x :: pre) 0 := by
  have found : (fun i => decide (byteAt (x :: pre) i ≠ byteAt (y :: str) i)) 0 = true :=
    decide_eq_true differ
  unfold fuzzyLoop
  rw [List.length_cons, List.range_succ_eq_map,
    List.find?_cons_of_pos (p := fun i => decide (byteAt (x :: pre) i ≠ byteAt (y :: str) i)) found]

/-- The edits at the first character. -/
theorem matchesAt_zero_iff :
    matchesAt (y :: str) (x :: pre) 0 = true ↔
      y ≠ soundMark ∧ (x :: pre <+: str ∨ ∃ after, pre = y :: after ∧ x :: after <+: str) ∨
        isalnum x = false ∧ y = soundMark ∧ pre <+: str := by
  unfold matchesAt
  by_cases mark : y = soundMark
  · simp [mark]
  · cases pre with
    | nil => simp [mark]
    | cons d after =>
        have swapped : swapAt (x :: d :: after) 0 = d :: x :: after := rfl
        have mended : (d :: x :: after <+: y :: str) ↔
            ∃ rest, d :: after = y :: rest ∧ x :: rest <+: str := by
          rw [List.cons_prefix_cons]
          constructor
          · rintro ⟨rfl, within⟩
            exact ⟨after, rfl, within⟩
          · rintro ⟨rest, same, within⟩
            obtain ⟨rfl, rfl⟩ := List.cons.inj same
            exact ⟨rfl, within⟩
        rw [if_neg (by simpa using mark), swapped]
        simp only [Bool.or_eq_true, Bool.and_eq_true, decide_eq_true_eq, List.isPrefixOf_iff_prefix,
          List.insertIdx_zero, mended, byteAt_zero, List.cons_prefix_cons, true_and]
        simp [mark]

/-- **The loop finds an edit** whenever there is one that puts no sound mark in its place. -/
theorem fuzzyLoop_iff (differ : ¬ pre <+: str) (short : pre.length ≤ str.length) :
    fuzzyLoop str pre = true ↔ Mended (· ≠ soundMark) str pre := by
  induction pre generalizing str with
  | nil => exact absurd List.nil_prefix differ
  | cons x pre ih =>
      cases str with
      | nil => exact absurd short (by simp)
      | cons y str =>
          by_cases same : x = y
          · subst same
            have behind : ¬ pre <+: str := fun within =>
              differ (List.cons_prefix_cons.2 ⟨rfl, within⟩)
            rw [fuzzyLoop_cons_same, mended_cons_same behind]
            exact ih behind (Nat.le_of_succ_le_succ short)
          · rw [fuzzyLoop_cons_differ same, matchesAt_zero_iff, mended_cons_differ same]

/-- The loop finds nothing to mend in a prefix. -/
theorem fuzzyLoop_of_isPrefix (within : pre <+: str) : fuzzyLoop str pre = false := by
  induction pre generalizing str with
  | nil => rfl
  | cons x pre ih =>
      obtain ⟨rest, rfl⟩ := within
      rw [List.cons_append, fuzzyLoop_cons_same]
      exact ih (List.prefix_append pre rest)

end Loop

/-! ## Main result -/

/-- The comparison accepts the texts that one edit makes a prefix, and no others; a character that
is inserted is one of `front`. -/
def MatchesExactly (front : UInt8 → Prop) (str pre : ByteString) : Prop :=
  romanFuzzyPrefixMatch str pre = true ↔
    pre ≠ [] ∧ pre.length ≤ str.length ∧ ¬ pre <+: str ∧ Mended front str pre

/-- **The comparison** accepts exactly the texts that are not empty, not too long and no prefix,
and that become a prefix by one edit: a character other than `-` is inserted, two neighbours are
swapped of which the second is not `-`, or a character that is neither a letter nor a digit is
replaced by `-`. -/
theorem romanFuzzyPrefixMatch_iff (str pre : ByteString) :
    MatchesExactly (· ≠ soundMark) str pre := by
  unfold MatchesExactly romanFuzzyPrefixMatch
  split
  · rename_i refused
    refine iff_of_false Bool.false_ne_true ?_
    rintro ⟨nonempty, short, -⟩
    rcases refused with empty | long
    · exact nonempty empty
    · omega
  · rename_i accepted
    obtain ⟨nonempty, short⟩ := not_or.1 accepted
    by_cases within : pre <+: str
    · rw [fuzzyLoop_of_isPrefix within]
      exact iff_of_false Bool.false_ne_true fun all => all.2.2.1 within
    · rw [fuzzyLoop_iff within (by omega)]
      exact ⟨fun mended => ⟨nonempty, by omega, within, mended⟩, fun all => all.2.2.2⟩

/-- A missing sound mark is not forgiven: `gugu` is no fuzzy prefix of `gu-guru`. -/
theorem not_romanFuzzyPrefixMatch_missingMark :
    ¬ ∀ str pre, MatchesExactly (fun _ => True) str pre := by
  intro claim
  have exactly := claim (ascii "gu-guru") (ascii "gugu")
  refine absurd (exactly.2 ⟨by decide, by decide, by decide, ?_⟩) (by decide)
  exact ⟨ascii "gu-gu", .insert (ascii "gu") (ascii "gu") soundMark trivial, by decide⟩

end Mozkey.Prediction
