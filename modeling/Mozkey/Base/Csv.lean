import Mozkey.Base.ByteString

/-!
# Lines of comma-separated fields

`Util::SplitCSV` takes a line apart.  It works in a copy of the line, with positions for its
pointers: a quoted field is unquoted in place, so that the bytes of the field move to the front
over the quotes that are dropped.

A line is put together from fields that are rendered with quotes or, where nothing in them asks
for quotes, as they are.  `splitCSV_line` says what is read back from it, and `splitCSV_line_iff`
when that is every field: an empty field at the end is noticed behind a field without quotes only.
-/

namespace Mozkey

namespace Csv

/-! ## Taking a line apart -/

def quote : UInt8 := 0x22

def comma : UInt8 := 0x2C

def isBlank (c : UInt8) : Bool := c = 0x20 || c = 0x09

/-- `std::find(buffer + first, eos, value)`. -/
def findFrom (buffer : ByteString) (first : Nat) (value : UInt8) : Nat :=
  first + ((buffer.drop first).takeWhile fun c => decide (c ≠ value)).length

/-- The loop over the blanks in front of a field; the byte behind the line is not a blank. -/
def skipBlanks (buffer : ByteString) (str : Nat) : Nat :=
  str + ((buffer.drop str).takeWhile isBlank).length

/-- The loop over a quoted field, which takes at least one byte in every round.  It writes the
field to `end_`, and stops behind the closing quote. -/
def unquote : Nat → ByteString → Nat → Nat → ByteString × Nat × Nat
  | 0, buffer, str, end_ => (buffer, str, end_)
  | fuel + 1, buffer, str, end_ =>
      if str < buffer.length then
        if byteAt buffer str = quote then
          if byteAt buffer (str + 1) ≠ quote then (buffer, str + 1, end_)
          else unquote fuel (buffer.set end_ (byteAt buffer (str + 1))) (str + 2) (end_ + 1)
        else unquote fuel (buffer.set end_ (byteAt buffer str)) (str + 1) (end_ + 1)
      else (buffer, str, end_)

/-- A field of a line in the buffer, and the position of the comma behind it, or of the end. -/
structure ReadField where
  buffer : ByteString
  start : Nat
  end_ : Nat
  str : Nat

/-- What one round of the loop finds at a position. -/
def readField (buffer : ByteString) (str : Nat) : ReadField :=
  let str := skipBlanks buffer str
  if byteAt buffer str = quote then
    let start := str + 1
    let (buffer, str, end_) := unquote buffer.length buffer start start
    ⟨buffer, start, end_, findFrom buffer str comma⟩
  else
    let end_ := findFrom buffer str comma
    ⟨buffer, str, end_, end_⟩

namespace ReadField

/-- `std::string(start, end)`. -/
def value (field : ReadField) : ByteString :=
  (field.buffer.drop field.start).take (field.end_ - field.start)

/-- `end_is_empty`: the comma at the end of the field is the last byte of the line. -/
def endIsEmpty (field : ReadField) : Bool :=
  byteAt field.buffer field.end_ = comma && field.end_ + 1 = field.buffer.length

end ReadField

/-- The loop of `Util::SplitCSV`; every round takes at least one byte. -/
def splitFrom : Nat → ByteString → Nat → List ByteString
  | 0, _, _ => []
  | fuel + 1, buffer, str =>
      if str < buffer.length then
        let field := readField buffer str
        (if field.endIsEmpty then [field.value, []] else [field.value])
          ++ splitFrom fuel field.buffer (field.str + 1)
      else []

/-- `Util::SplitCSV`. -/
def splitCSV (input : ByteString) : List ByteString := splitFrom input.length input 0

example : splitCSV (ascii "Google rocks,hello,") = [ascii "Google rocks", ascii "hello", []] := by
  decide

/-! ## Putting a line together -/

/-- A byte of a quoted field. -/
def escapeByte (c : UInt8) : ByteString := if c = quote then [quote, quote] else [c]

/-- A field, with or without quotes.  Without them it has no quote, no comma and no blank in front. -/
structure Field where
  value : ByteString
  quoted : Bool
  plain : quoted = false →
    (∀ c ∈ value, c ≠ quote ∧ c ≠ comma) ∧ ∀ c ∈ value.head?, isBlank c = false

namespace Field

def render (field : Field) : ByteString :=
  if field.quoted then quote :: (field.value.flatMap escapeByte ++ [quote]) else field.value

end Field

/-- The fields, joined by commas. -/
def line (fields : List Field) : ByteString := [comma].intercalate (fields.map Field.render)

/-- The last field is empty and without quotes, and the one in front of it is quoted. -/
def EndsBehindQuotes (fields : List Field) : Prop :=
  ∃ front before last, fields = front ++ [before, last] ∧ before.quoted = true ∧ last.render = []

/-- The fields that are found again. -/
def keptFields : List Field → List ByteString
  | [] => []
  | [field] => if field.render = [] then [] else [field.value]
  | field :: next :: rest =>
      if rest = [] ∧ next.render = [] then
        if field.quoted then [field.value] else [field.value, []]
      else field.value :: keptFields (next :: rest)

theorem line_cons_cons (field next : Field) (rest : List Field) :
    line (field :: next :: rest) = field.render ++ comma :: line (next :: rest) := by
  simp [line, List.intercalate_cons_cons]

theorem line_singleton (field : Field) : line [field] = field.render := by
  simp [line]

/-! ## Positions in a buffer -/

section Positions

variable {buffer : ByteString} {str : Nat}

/-- The bytes from a position on. -/
theorem byteAt_of_drop {rest : ByteString} (behind : buffer.drop str = rest) (i : Nat) :
    byteAt buffer (str + i) = byteAt rest i := by
  simp [byteAt, List.getD_eq_getElem?_getD, ← behind, List.getElem?_drop]

theorem lt_length_of_drop {c : UInt8} {rest : ByteString} (behind : buffer.drop str = c :: rest) :
    str < buffer.length := by
  have length := congrArg List.length behind
  simp at length
  omega

theorem drop_succ_of_drop {c : UInt8} {rest : ByteString} (behind : buffer.drop str = c :: rest) :
    buffer.drop (str + 1) = rest := by
  simp [← List.drop_drop, behind]

theorem findFrom_of_drop {body rest : ByteString} {value : UInt8}
    (behind : buffer.drop str = body ++ rest) (none_ : ∀ c ∈ body, c ≠ value)
    (found : ∀ c ∈ rest.head?, c = value) : findFrom buffer str value = str + body.length := by
  have stops : rest.takeWhile (fun c => decide (c ≠ value)) = [] := by
    cases rest with
    | nil => rfl
    | cons c rest => simp [found c rfl]
  rw [findFrom, behind, List.takeWhile_append_of_pos (by simpa using none_), stops,
    List.append_nil]

theorem skipBlanks_of_drop {c : UInt8} {rest : ByteString} (behind : buffer.drop str = c :: rest)
    (notBlank : isBlank c = false) : skipBlanks buffer str = str := by
  simp [skipBlanks, behind, notBlank]

end Positions

/-! ## One field -/

/-- What unquoting leaves behind: the field stands in front of `end_`, what is behind the closing
quote has not changed, and the closing quote is not written over. -/
structure Unquoted (buffer : ByteString) (end_ : Nat) (value tail : ByteString)
    (buffer' : ByteString) (str' : Nat) : Prop where
  length : buffer'.length = buffer.length
  behind : buffer'.drop str' = tail
  written : buffer'.take (end_ + value.length) = buffer.take end_ ++ value
  inside : str' ≤ buffer.length
  before : end_ + value.length < str'
  closing : end_ + value.length + 1 = str' → byteAt buffer' (end_ + value.length) = quote

/-- A byte was written to `end_`, which is never behind what is read. -/
theorem Unquoted.cons {buffer buffer' : ByteString} {end_ str' : Nat} {c : UInt8}
    {value tail : ByteString} (inside : end_ < buffer.length)
    (unquoted : Unquoted (buffer.set end_ c) (end_ + 1) value tail buffer' str') :
    Unquoted buffer end_ (c :: value) tail buffer' str' := by
  have count : end_ + (c :: value).length = end_ + 1 + value.length := by
    simp only [List.length_cons]
    omega
  constructor
  · simpa using unquoted.length
  · exact unquoted.behind
  · rw [count, unquoted.written, List.take_succ_eq_append_getElem (by simpa using inside)]
    simp [List.take_set_of_le]
  · simpa using unquoted.inside
  · rw [count]
    exact unquoted.before
  · rw [count]
    exact unquoted.closing

/-- **A quoted field is unquoted** in place. -/
theorem unquote_spec {value tail : ByteString} (unescaped : tail.head? ≠ some quote) (fuel : Nat)
    (buffer : ByteString) (str end_ : Nat) (enough : value.length < fuel) (order : end_ ≤ str)
    (behind : buffer.drop str = value.flatMap escapeByte ++ quote :: tail) :
    ∃ buffer' str', unquote fuel buffer str end_ = (buffer', str', end_ + value.length) ∧
      Unquoted buffer end_ value tail buffer' str' := by
  induction value generalizing fuel buffer str end_ with
  | nil =>
      obtain ⟨fuel, rfl⟩ := Nat.exists_eq_add_of_lt enough
      have inside := lt_length_of_drop behind
      have here : byteAt buffer str = quote := byteAt_of_drop behind 0
      have next : byteAt buffer (str + 1) ≠ quote := by
        rw [byteAt_of_drop behind 1]
        cases tail with
        | nil => simp [byteAt, quote]
        | cons c tail => simpa [byteAt] using unescaped
      refine ⟨buffer, str + 1, ?_, rfl, drop_succ_of_drop behind, by simp, inside, ?_, ?_⟩
      · simp [unquote, inside, here, next]
      · simpa using Nat.lt_succ_of_le order
      · intro last
        have same : end_ = str := by simpa using last
        simpa [same] using here
  | cons c value ih =>
      obtain ⟨fuel, rfl⟩ : ∃ fuel', fuel = fuel' + 1 := ⟨fuel - 1, by omega⟩
      have step : ∀ str', str < str' →
          buffer.drop str' = value.flatMap escapeByte ++ quote :: tail →
          unquote (fuel + 1) buffer str end_ = unquote fuel (buffer.set end_ c) str' (end_ + 1) →
          ∃ buffer' str'', unquote (fuel + 1) buffer str end_
              = (buffer', str'', end_ + (c :: value).length) ∧
            Unquoted buffer end_ (c :: value) tail buffer' str'' := by
        intro str' further behind' round
        have inside : end_ < buffer.length := by
          have length := congrArg List.length behind'
          simp at length
          omega
        obtain ⟨buffer', str'', result, unquoted⟩ :=
          ih fuel (buffer.set end_ c) str' (end_ + 1) (by simpa using enough) (by omega)
            (by rwa [List.drop_set_of_lt (by omega)])
        refine ⟨buffer', str'', ?_, unquoted.cons inside⟩
        rw [round, result, List.length_cons, Nat.add_right_comm, Nat.add_assoc]
      by_cases isQuote : c = quote
      · subst isQuote
        have here : byteAt buffer str = quote := byteAt_of_drop behind 0
        have next : byteAt buffer (str + 1) = quote := byteAt_of_drop behind 1
        apply step (str + 2) (by omega)
        · exact drop_succ_of_drop (drop_succ_of_drop behind)
        · rw [unquote, if_pos (lt_length_of_drop behind), if_pos here, if_neg (by simp [next]), next]
      · have behind' : buffer.drop str = c :: (value.flatMap escapeByte ++ quote :: tail) := by
          simpa [escapeByte, isQuote] using behind
        have here : byteAt buffer str = c := byteAt_of_drop behind' 0
        apply step (str + 1) (by omega)
        · exact drop_succ_of_drop behind'
        · rw [unquote, if_pos (lt_length_of_drop behind'), if_neg (by simpa [here] using isQuote), here]

theorem length_le_escaped (value : ByteString) : value.length ≤ (value.flatMap escapeByte).length := by
  induction value with
  | nil => simp
  | cons c value ih =>
      rw [List.flatMap_cons, List.length_append, List.length_cons, escapeByte]
      split <;> simp only [List.length_cons, List.length_nil] <;> omega

/-- What a round finds, where a field stands in front of `tail`. -/
structure Finds (field : Field) (tail : ByteString) (length : Nat) (read : ReadField) : Prop where
  value : read.value = field.value
  length : read.buffer.length = length
  behind : read.buffer.drop read.str = tail
  endIsEmpty : read.endIsEmpty = true ↔ field.quoted = false ∧ tail = [comma]

section ReadField

variable {field : Field} {tail : ByteString} {buffer : ByteString} {str : Nat}

theorem finds_quoted (quoted : field.quoted = true) (separated : ∀ c ∈ tail.head?, c = comma)
    (behind : buffer.drop str = field.render ++ tail) :
    Finds field tail buffer.length (readField buffer str) := by
  have unescaped : tail.head? ≠ some quote := fun isQuote => by
    cases separated quote isQuote
  rw [Field.render, if_pos quoted, List.cons_append] at behind
  have inside := lt_length_of_drop behind
  have here : byteAt buffer str = quote := byteAt_of_drop behind 0
  have skip : skipBlanks buffer str = str := skipBlanks_of_drop behind (by decide)
  have body := drop_succ_of_drop behind
  rw [List.append_assoc, List.singleton_append] at body
  have short : field.value.length < buffer.length := by
    have length := congrArg List.length body
    have escaped := length_le_escaped field.value
    simp only [List.length_drop, List.length_append, List.length_cons] at length
    omega
  obtain ⟨buffer', str', result, unquoted⟩ :=
    unquote_spec unescaped buffer.length buffer (str + 1) (str + 1) short le_rfl body
  have found : findFrom buffer' str' comma = str' :=
    @findFrom_of_drop _ _ [] _ _ unquoted.behind (by simp) separated
  have read : readField buffer str = ⟨buffer', str + 1, str + 1 + field.value.length, str'⟩ := by
    simp only [readField, skip, here, if_true, result, found]
  rw [read]
  refine ⟨?_, unquoted.length, unquoted.behind, ?_⟩
  · have front : (buffer.take (str + 1)).length = str + 1 := by
      simpa using Nat.succ_le_of_lt inside
    simp only [ReadField.value]
    rw [← List.drop_take, unquoted.written, List.drop_left' front]
  · simp only [ReadField.endIsEmpty, quoted, Bool.true_eq_false, false_and, iff_false,
      Bool.and_eq_true, decide_eq_true_eq, not_and]
    intro isComma isLast
    have order := unquoted.before
    have closing := unquoted.closing (by have := unquoted.inside; have := unquoted.length; omega)
    rw [closing] at isComma
    cases isComma

theorem finds_plain (notQuoted : field.quoted = false) (separated : ∀ c ∈ tail.head?, c = comma)
    (nonempty : field.render ++ tail ≠ [])
    (behind : buffer.drop str = field.render ++ tail) :
    Finds field tail buffer.length (readField buffer str) := by
  obtain ⟨noSpecial, noBlank⟩ := field.plain notQuoted
  have isValue : field.render = field.value := by simp [Field.render, notQuoted]
  rw [isValue] at behind nonempty
  -- the first byte is one of the field, or the comma behind it
  obtain ⟨c, rest, first, notBlank, notQuote⟩ :
      ∃ c rest, field.value ++ tail = c :: rest ∧ isBlank c = false ∧ c ≠ quote := by
    cases value : field.value with
    | nil =>
        rw [value, List.nil_append] at nonempty
        obtain ⟨c, rest, rfl⟩ := List.exists_cons_of_ne_nil nonempty
        have isComma : c = comma := separated c rfl
        subst isComma
        exact ⟨comma, rest, rfl, by decide, by decide⟩
    | cons c value' =>
        rw [value] at noSpecial noBlank
        exact ⟨c, value' ++ tail, rfl, noBlank c rfl, (noSpecial c (by simp)).1⟩
  have inside := lt_length_of_drop (behind.trans first)
  have skip : skipBlanks buffer str = str := skipBlanks_of_drop (behind.trans first) notBlank
  have here : byteAt buffer str ≠ quote := by
    have := byteAt_of_drop (behind.trans first) 0
    simpa using this ▸ notQuote
  have found : findFrom buffer str comma = str + field.value.length :=
    findFrom_of_drop behind (fun c mem => (noSpecial c mem).2) separated
  have rest_ : buffer.drop (str + field.value.length) = tail := by
    rw [← List.drop_drop, behind, List.drop_left]
  have read : readField buffer str
      = ⟨buffer, str, str + field.value.length, str + field.value.length⟩ := by
    simp only [readField, skip, here, if_false, found]
  rw [read]
  refine ⟨?_, rfl, rest_, ?_⟩
  · simp [ReadField.value, behind]
  · have length := congrArg List.length behind
    simp only [List.length_drop, List.length_append] at length
    have isComma := byteAt_of_drop rest_ 0
    rw [Nat.add_zero] at isComma
    simp only [ReadField.endIsEmpty, notQuoted, isComma, true_and, Bool.and_eq_true,
      decide_eq_true_eq]
    constructor
    · rintro ⟨isComma, isLast⟩
      obtain ⟨c, rfl⟩ := List.length_eq_one_iff.1 (show tail.length = 1 by omega)
      simpa using isComma
    · rintro rfl
      simp only [List.length_singleton] at length
      exact ⟨rfl, by omega⟩

/-- **One round takes one field off** the line. -/
theorem readField_spec (separated : ∀ c ∈ tail.head?, c = comma)
    (nonempty : field.render ++ tail ≠ [])
    (behind : buffer.drop str = field.render ++ tail) :
    Finds field tail buffer.length (readField buffer str) := by
  cases quoted : field.quoted with
  | true => exact finds_quoted quoted separated behind
  | false => exact finds_plain quoted separated nonempty behind

end ReadField

/-! ## The whole line -/

theorem splitFrom_end (fuel : Nat) {buffer : ByteString} {str : Nat}
    (done : buffer.drop str = []) : splitFrom fuel buffer str = [] := by
  have := List.drop_eq_nil_iff.1 done
  cases fuel with
  | zero => rfl
  | succ fuel => simp [splitFrom, this]

/-- **One round of the loop**, with the fields it adds. -/
theorem splitFrom_succ {field : Field} {tail : ByteString} (separated : ∀ c ∈ tail.head?, c = comma)
    (nonempty : field.render ++ tail ≠ []) (fuel : Nat) {buffer : ByteString} {str : Nat}
    (behind : buffer.drop str = field.render ++ tail) :
    ∃ buffer' str', buffer'.drop str' = tail.tail ∧
      splitFrom (fuel + 1) buffer str
        = (if field.quoted = false ∧ tail = [comma] then [field.value, []] else [field.value])
          ++ splitFrom fuel buffer' str' := by
  have finds := readField_spec separated nonempty behind
  obtain ⟨c, rest, first⟩ := List.exists_cons_of_ne_nil nonempty
  have inside := lt_length_of_drop (behind.trans first)
  refine ⟨(readField buffer str).buffer, (readField buffer str).str + 1, ?_, ?_⟩
  · rw [← List.drop_drop, finds.behind, List.drop_one]
  · simp only [splitFrom, inside, if_true, finds.value, finds.endIsEmpty]

/-- The loop reads what is left of a line. -/
theorem splitFrom_line (fields : List Field) (fuel : Nat) (buffer : ByteString) (str : Nat)
    (enough : (line fields).length ≤ fuel) (behind : buffer.drop str = line fields) :
    splitFrom fuel buffer str = keptFields fields := by
  induction fields generalizing fuel buffer str with
  | nil => exact splitFrom_end fuel behind
  | cons field rest ih =>
      cases rest with
      | nil =>
          rw [line_singleton] at behind enough
          by_cases isEmpty : field.render = []
          · rw [keptFields, if_pos isEmpty]
            exact splitFrom_end fuel (behind.trans isEmpty)
          · have long := List.length_pos_iff.2 isEmpty
            obtain ⟨fuel, rfl⟩ : ∃ fuel', fuel = fuel' + 1 := ⟨fuel - 1, by omega⟩
            rw [← List.append_nil field.render] at behind
            obtain ⟨buffer', str', behind', round⟩ :=
              splitFrom_succ (by simp) (by simpa using isEmpty) fuel behind
            rw [round, splitFrom_end fuel behind', keptFields, if_neg isEmpty]
            simp
      | cons next rest =>
          rw [line_cons_cons] at behind enough
          simp only [List.length_append, List.length_cons] at enough
          obtain ⟨fuel, rfl⟩ : ∃ fuel', fuel = fuel' + 1 := ⟨fuel - 1, by omega⟩
          obtain ⟨buffer', str', behind', round⟩ := splitFrom_succ (by simp) (by simp) fuel behind
          rw [round, ih fuel buffer' str' (by omega) behind', keptFields]
          -- the comma is the last byte exactly when one empty field without quotes is left
          have isLast : line (next :: rest) = [] ↔ rest = [] ∧ next.render = [] := by
            cases rest with
            | nil => simp [line_singleton]
            | cons => simp [line_cons_cons]
          by_cases last : rest = [] ∧ next.render = []
          · obtain ⟨rfl, isEmpty⟩ := last
            cases field.quoted <;> simp [isEmpty, line_singleton, keptFields]
          · simp [last, isLast]

/-- **What `SplitCSV` returns** for a line. -/
theorem splitCSV_line (fields : List Field) : splitCSV (line fields) = keptFields fields :=
  splitFrom_line fields _ _ 0 le_rfl rfl

theorem endsBehindQuotes_pair (before last : Field) :
    EndsBehindQuotes [before, last] ↔ before.quoted = true ∧ last.render = [] := by
  constructor
  · rintro ⟨front, before', last', whole, quoted, isEmpty⟩
    obtain rfl : front = [] := by
      have length := congrArg List.length whole
      simpa using length
    obtain ⟨rfl, rfl⟩ : before = before' ∧ last = last' := by simpa using whole
    exact ⟨quoted, isEmpty⟩
  · rintro ⟨quoted, isEmpty⟩
    exact ⟨[], before, last, rfl, quoted, isEmpty⟩

theorem endsBehindQuotes_cons {field next more : Field} {rest : List Field} :
    EndsBehindQuotes (field :: next :: more :: rest) ↔ EndsBehindQuotes (next :: more :: rest) := by
  constructor
  · rintro ⟨front, before, last, whole, both⟩
    cases front with
    | nil =>
        have length := congrArg List.length whole
        simp at length
    | cons first front =>
        rw [List.cons_append, List.cons.injEq] at whole
        exact ⟨front, before, last, whole.2, both⟩
  · rintro ⟨front, before, last, whole, both⟩
    exact ⟨field :: front, before, last, congrArg _ whole, both⟩

/-- All fields are kept, unless an empty one at the end stands behind a quoted one. -/
theorem keptFields_iff {fields : List Field} (nonempty : line fields ≠ []) :
    keptFields fields = fields.map Field.value ↔ ¬ EndsBehindQuotes fields := by
  induction fields with
  | nil => exact absurd rfl nonempty
  | cons field rest ih =>
      cases rest with
      | nil =>
          rw [line_singleton] at nonempty
          have alone : ¬ EndsBehindQuotes [field] := by
            rintro ⟨front, before, last, whole, _⟩
            have length := congrArg List.length whole
            simp at length
          simp [keptFields, nonempty, alone]
      | cons next rest =>
          cases rest with
          | nil =>
              rw [endsBehindQuotes_pair]
              by_cases isEmpty : next.render = []
              · cases quoted : field.quoted with
                | true => simp [keptFields, isEmpty, quoted]
                | false =>
                    have isValue : next.value = [] := by
                      cases nextQuoted : next.quoted <;> simp_all [Field.render]
                    simp [keptFields, isEmpty, quoted, isValue]
              · simp [keptFields, isEmpty]
          | cons more rest =>
              have behind := ih (by simp [line_cons_cons])
              rw [endsBehindQuotes_cons, ← behind, keptFields, if_neg (by simp), List.map_cons,
                List.cons.injEq]
              exact and_iff_right rfl

/-- **The fields are found again** exactly when no empty field without quotes stands at the end of
the line behind a quoted one. -/
theorem splitCSV_line_iff (fields : List Field) (nonempty : line fields ≠ []) :
    splitCSV (line fields) = fields.map Field.value ↔ ¬ EndsBehindQuotes fields := by
  rw [splitCSV_line]
  exact keptFields_iff nonempty

/-- A field as it is, and one with a comma and a quote in it. -/
def plainField : Field := ⟨[0x61], false, fun _ => by simp [quote, comma, isBlank]⟩

def quotedField : Field := ⟨[0x62, comma, quote], true, fun wrong => by cases wrong⟩

def emptyField : Field := ⟨[], false, fun _ => by simp⟩

theorem splitCSV_line_quoted :
    splitCSV (line [plainField, quotedField]) = [[0x61], [0x62, comma, quote]] := by
  apply (splitCSV_line_iff [plainField, quotedField] (by simp [line_cons_cons])).2
  simp [endsBehindQuotes_pair, plainField]

/-- **The empty field** behind a quoted one is lost. -/
theorem splitCSV_line_lost :
    line [quotedField, emptyField] ≠ [] ∧
      splitCSV (line [quotedField, emptyField]) ≠ [quotedField, emptyField].map Field.value := by
  decide

end Csv

end Mozkey
