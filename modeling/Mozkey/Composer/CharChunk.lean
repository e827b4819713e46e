import Mozkey.Composer.Table
import Mozkey.Composer.Transliterators

/-!
# Chunks of a composition

A chunk keeps what was typed, what of it is converted, what is pending, and what an ambiguous
pending text would become.  Input is added to it step by step: a step looks the pending text and
the input up and moves what is used of the input into the chunk.  When a rule shows its ambiguous
result, the chunk remembers how it was then, goes back there when the longer input it waited for
does not come, and hands back what was typed since.
-/

namespace Mozkey.Composer

/-- A table, and the address by which chunks and compositions tell tables apart. -/
structure SharedTable where
  address : Nat
  table : Table

/-- `display_ambiguous_result_*`: the chunk as it was when it showed its ambiguous result. -/
structure DisplayAmbiguousResult where
  raw : Text
  conversion : Text
  ambiguous : Text
  attributes : TableAttributes
deriving DecidableEq

/-- The snapshot that is cleared. -/
def noDisplayAmbiguousResult : DisplayAmbiguousResult := ⟨[], [], [], noTableAttribute⟩

/-- `CharChunk`, without the cached length. -/
structure CharChunk where
  table : SharedTable
  transliterator : Transliterator
  raw : Text
  conversion : Text
  pending : Text
  ambiguous : Text
  displayAmbiguousAsResult : Bool
  displayAmbiguousResult : DisplayAmbiguousResult
  attributes : TableAttributes

/-- `CompositionInput`, without the key events a typing correction may use. -/
structure CompositionInput where
  raw : Text
  conversion : Text
  isNewInput : Bool
  isAsis : Bool

namespace CompositionInput

/-- A `CompositionInput` before anything is set. -/
def new : CompositionInput := ⟨[], [], false, false⟩

/-- `CompositionInput::Empty`. -/
def isEmpty (input : CompositionInput) : Bool := input.raw.isEmpty && input.conversion.isEmpty

end CompositionInput

namespace CharChunk

/-- `CharChunk::CharChunk`. -/
def new (transliterator : Transliterator) (table : SharedTable) : CharChunk where
  table := table
  transliterator := transliterator
  raw := []
  conversion := []
  pending := []
  ambiguous := []
  displayAmbiguousAsResult := false
  displayAmbiguousResult := noDisplayAmbiguousResult
  attributes := noTableAttribute

/-! ## What a chunk shows -/

/-- `CharChunk::GetDisplayConverted`. -/
def getDisplayConverted (c : CharChunk) : Text :=
  if c.displayAmbiguousAsResult && !c.ambiguous.isEmpty then c.conversion ++ c.ambiguous
  else c.conversion ++ c.pending

/-- `CharChunk::GetTransliterator`. -/
def getTransliterator (c : CharChunk) (t12r : Transliterator) : Transliterator :=
  if c.attributes.noTransliteration then
    if t12r = .localChoice ∨ t12r = .halfAscii ∨ t12r = .fullAscii then .conversionString else t12r
  else if t12r = .localChoice then c.transliterator
  else t12r

/-- `CharChunk::Transliterate`. -/
def transliterate (c : CharChunk) (forms : CharacterForms) (t12r : Transliterator)
    (raw converted : Text) : Text :=
  (c.getTransliterator t12r).transliterate forms raw converted

/-- What `CharChunk::AppendResult` appends. -/
def result (c : CharChunk) (forms : CharacterForms) (t12r : Transliterator) : Text :=
  c.transliterate forms t12r (deleteSpecialKeys c.raw) (deleteSpecialKeys c.getDisplayConverted)

/-- `CharChunk::GetLength`. -/
def getLength (c : CharChunk) (forms : CharacterForms) (t12r : Transliterator) : Nat :=
  (c.result forms t12r).length

/-- What `CharChunk::AppendTrimedResult` appends: only what is settled. -/
def trimedResult (c : CharChunk) (forms : CharacterForms) (t12r : Transliterator) : Text :=
  let converted :=
    if c.pending.isEmpty then c.conversion
    else
      match (c.table.table.lookUpPrefix c.pending).data with
      | some entry => if entry.input = entry.result then c.conversion ++ entry.result else c.conversion
      | none => c.conversion
  c.transliterate forms t12r (deleteSpecialKeys c.raw) (deleteSpecialKeys converted)

/-- What `CharChunk::AppendFixedResult` appends: ambiguous text counts as settled. -/
def fixedResult (c : CharChunk) (forms : CharacterForms) (t12r : Transliterator) : Text :=
  let converted :=
    if c.ambiguous.isEmpty then c.conversion ++ c.pending else c.conversion ++ c.ambiguous
  c.transliterate forms t12r (deleteSpecialKeys c.raw) (deleteSpecialKeys converted)

/-! ## Chunks that take input -/

/-- `CharChunk::IsAppendable`. -/
def isAppendable (c : CharChunk) (t12r : Transliterator) (table : SharedTable) : Bool :=
  !c.pending.isEmpty && (t12r = .localChoice || t12r = c.transliterator) &&
    table.address = c.table.address

/-- `CharChunk::IsConvertible`. -/
def isConvertible (c : CharChunk) (t12r : Transliterator) (table : SharedTable) (input : Text) :
    Bool :=
  let key := c.pending ++ input
  let found := table.table.lookUpPrefix key
  c.isAppendable t12r table && found.data.isSome && key.length = found.keyLength && found.fixed

/-- `CharChunk::Combine`. -/
def combine (c left : CharChunk) : CharChunk :=
  { c with
    conversion := left.conversion ++ c.conversion
    raw := left.raw ++ c.raw
    ambiguous :=
      if left.ambiguous.isEmpty then []
      else if c.ambiguous.isEmpty then left.ambiguous ++ c.pending
      else left.ambiguous ++ c.ambiguous
    pending := left.pending ++ c.pending }

/-- `CharChunk::HasDisplayAmbiguousResultFallback`. -/
def hasDisplayAmbiguousResultFallback (c : CharChunk) : Bool :=
  !c.displayAmbiguousResult.raw.isEmpty &&
    c.displayAmbiguousResult.raw.length < c.raw.length &&
    c.displayAmbiguousResult.raw.isPrefixOf c.raw

/-- `CharChunk::RestoreDisplayAmbiguousResultFallback`: the chunk that is restored, and the input
to be typed again. -/
def restoreDisplayAmbiguousResultFallback (c : CharChunk) (input : Text) : CharChunk × Text :=
  ({ c with
      raw := c.displayAmbiguousResult.raw
      conversion := c.displayAmbiguousResult.conversion ++ c.displayAmbiguousResult.ambiguous
      pending := []
      ambiguous := []
      displayAmbiguousAsResult := false
      attributes := c.displayAmbiguousResult.attributes
      displayAmbiguousResult := noDisplayAmbiguousResult },
    c.raw.drop c.displayAmbiguousResult.raw.length ++ input)

/-- Whether an entry is the first one of the chunk, so that its attributes are taken over. -/
def isFirstEntry (c : CharChunk) : Bool :=
  c.conversion.isEmpty && (c.raw.isEmpty || c.pending.isEmpty || c.raw = c.pending)

/-- An entry was found and is not ambiguous any more. -/
def settle (c : CharChunk) (entry : Entry) : CharChunk :=
  { c with
    conversion := c.conversion ++ entry.result
    pending := entry.pending
    ambiguous := []
    displayAmbiguousAsResult := false
    displayAmbiguousResult := noDisplayAmbiguousResult }

/-- An entry was found, and a longer input may lead to another one. -/
def await (c : CharChunk) (key : Text) (entry : Entry) : CharChunk :=
  { c with
    pending := key
    ambiguous := entry.result
    displayAmbiguousAsResult := entry.attributes.displayAmbiguousResult
    displayAmbiguousResult :=
      if entry.attributes.displayAmbiguousResult then
        ⟨c.raw, c.conversion, entry.result, c.attributes⟩
      else noDisplayAmbiguousResult }

/-- `CharChunk::AddInputInternal` without an entry: the chunk, whether to go on, and the rest. -/
def addWithoutEntry (c : CharChunk) (input : Text) (usedKeyLength : Nat) : CharChunk × Bool × Text :=
  let trimmed := trimLeadingSpecialKey input
  if usedKeyLength ≤ c.pending.length ∧ c.hasDisplayAmbiguousResultFallback then
    let (restored, replay) := c.restoreDisplayAmbiguousResultFallback input
    (restored, false, replay)
  else if usedKeyLength = 0 then
    if trimmed.length < input.length then (c, true, trimmed)
    else if c.pending.isEmpty then
      -- no conversion was found, so one character is added as it is
      ({ c with raw := c.raw ++ input.take 1, conversion := c.conversion ++ input.take 1 },
        false, input.drop 1)
    else (c, false, input)
  else if usedKeyLength = c.pending.length then
    let next := c.table.table.lookUpPrefix input
    if (next.data.isNone ∧ next.keyLength = 0) ∧ trimmed.length < input.length then
      (c, true, trimmed)
    else (c, false, input)
  else if usedKeyLength < c.pending.length then (c, false, input)
  else
    let used := usedKeyLength - c.pending.length
    ({ c with
        raw := c.raw ++ input.take used
        pending := c.pending ++ input.take used
        ambiguous := []
        displayAmbiguousAsResult := false },
      false, input.drop used)

/-- `CharChunk::AddInputInternal` with an entry that the whole pending text is used for. -/
def addEntry (c : CharChunk) (input : Text) (found : PrefixMatch Entry) (entry : Entry) :
    CharChunk × Bool × Text :=
  let key := c.pending ++ input
  let used := found.keyLength - c.pending.length
  let rest := input.drop used
  let c := if c.isFirstEntry then { c with attributes := entry.attributes } else c
  let c := { c with raw := c.raw ++ input.take used }
  let c := if found.fixed ∨ found.keyLength < key.length then c.settle entry else c.await key entry
  if (found.fixed ∧ rest.isEmpty ∧ c.conversion.isEmpty ∧ c.pending.isEmpty) ∧
      c.attributes.noTransliteration then
    ({ c with raw := [] }, false, rest)
  else (c, !(rest.isEmpty || c.pending.isEmpty), rest)

/-- `CharChunk::AddInputInternal`: the chunk, whether to go on, and the rest of the input.  None
when the used length is less than the length of the pending text: their difference wraps round,
and the substring that begins there is out of range. -/
def addInputInternal (c : CharChunk) (input : Text) : Option (CharChunk × Bool × Text) :=
  let found := c.table.table.lookUpPrefix (c.pending ++ input)
  match found.data with
  | none => some (c.addWithoutEntry input found.keyLength)
  | some entry =>
      if found.keyLength < c.pending.length then none
      else some (c.addEntry input found entry)

/-- `CharChunk::AddInput`; none when a step fails or the loop does not come to an end in time. -/
def addInput : Nat → CharChunk → Text → Option (CharChunk × Text)
  | 0, _, _ => none
  | fuel + 1, c, input =>
      match c.addInputInternal input with
      | none => none
      | some (c, true, rest) => addInput fuel c rest
      | some (c, false, rest) => some (c, rest)

/-- `CharChunk::AddInputAndConvertedChar`: the chunk and what is left of the input. -/
def addInputAndConvertedChar (c : CharChunk) (input : CompositionInput) :
    CharChunk × CompositionInput :=
  let isEmpty := c.raw.isEmpty && c.pending.isEmpty && c.conversion.isEmpty
  if input.isAsis then
    if isEmpty then ({ c with raw := input.raw, conversion := input.conversion }, .new)
    else (c, input)
  else if isEmpty then
    let attributes :=
      match c.table.table.lookUp input.conversion with
      | some entry => entry.attributes
      | none => c.attributes
    ({ c with
        raw := input.raw
        pending := input.conversion
        ambiguous := input.conversion
        attributes := attributes },
      { input with raw := [], conversion := [] })
  else
    let key := c.pending ++ input.conversion
    let found := c.table.table.lookUpPrefix key
    match found.data with
    | none => (c, input)
    | some entry =>
        if found.keyLength = key.length then
          let c := { c with raw := c.raw ++ input.raw }
          let c :=
            if found.fixed then
              { c with
                conversion := c.conversion ++ entry.result
                pending := entry.pending
                ambiguous := [] }
            else { c with pending := entry.result, ambiguous := entry.result }
          (c, { input with raw := [], conversion := [] })
        else if found.keyLength = c.pending.length then (c, input)
        else
          ({ c with
              raw := c.raw ++ input.raw
              conversion := c.conversion ++ entry.result
              pending := entry.pending },
            { input with raw := [], conversion := key.drop found.keyLength })

/-- `CharChunk::ShouldInsertNewChunk`. -/
def shouldInsertNewChunk (c : CharChunk) (input : CompositionInput) : Bool :=
  if c.raw.isEmpty && c.conversion.isEmpty && c.pending.isEmpty then false
  else
    (input.isNewInput || (c.attributes.endChunk && c.pending.isEmpty)) &&
      (c.table.table.hasNewChunkEntry input.raw || !c.table.table.hasSubRules input.raw)

/-- `CharChunk::AddCompositionInput`. -/
def addCompositionInput (fuel : Nat) (c : CharChunk) (input : CompositionInput) :
    Option (CharChunk × CompositionInput) :=
  if !input.conversion.isEmpty then some (c.addInputAndConvertedChar input)
  else if c.shouldInsertNewChunk input then some (c, input)
  else
    match addInput fuel c input.raw with
    | none => none
    | some (c, rest) => some (c, { input with raw := rest })

/-! ## Splitting a chunk -/

/-- The text from a byte on; none when the byte is inside a character. -/
def dropBytes : Nat → Text → Option Text
  | 0, text => some text
  | _ + 1, [] => some []
  | n + 1, c :: text =>
      if c.utf8Size ≤ n + 1 then dropBytes (n + 1 - c.utf8Size) text else none

/-- The first bytes of a text; none when they end inside a character. -/
def takeBytes : Nat → Text → Option Text
  | 0, _ => some []
  | _ + 1, [] => some []
  | n + 1, c :: text =>
      if c.utf8Size ≤ n + 1 then (takeBytes (n + 1 - c.utf8Size) text).map (c :: ·) else none

/-- Whether `CharChunk::SplitChunk` takes the position. -/
def isInside (c : CharChunk) (forms : CharacterForms) (t12r : Transliterator) (position : Nat) :
    Bool :=
  0 < position && position < c.getLength forms t12r

/-- `CharChunk::SplitChunk` at a position it takes: the new chunk at the left, and what is left of
the chunk.  None when bytes of a character come apart. -/
def splitChunk (c : CharChunk) (forms : CharacterForms) (t12r : Transliterator) (position : Nat) :
    Option (CharChunk × CharChunk) :=
  let halves := (c.getTransliterator t12r).split forms position (deleteSpecialKeys c.raw)
    (deleteSpecialKeys (c.conversion ++ c.pending))
  let left := { CharChunk.new c.transliterator c.table with raw := halves.rawLhs }
  let right := { c with raw := halves.rawRhs }
  if size c.conversion < size halves.convertedLhs then
    (dropBytes (size c.conversion) halves.convertedLhs).map fun pendingLhs =>
      ({ left with conversion := c.conversion, pending := pendingLhs },
        { right with conversion := [], pending := halves.convertedRhs, ambiguous := [] })
  else
    -- the position wraps round when the right half is shorter than the pending text
    let pendingPos :=
      if size halves.convertedRhs < size c.pending then size halves.convertedRhs
      else size halves.convertedRhs - size c.pending
    (takeBytes pendingPos halves.convertedRhs).map fun conversion =>
      ({ left with conversion := halves.convertedLhs }, { right with conversion := conversion })

/-! ## What a step does -/

variable {c : CharChunk} {input : Text} {used : Nat} {found : PrefixMatch Entry} {entry : Entry}

/-- What a step does when no entry was found. -/
inductive WithoutEntry (c : CharChunk) (input : Text) (used : Nat) :
    CharChunk × Bool × Text → Prop
  | restored : c.hasDisplayAmbiguousResultFallback = true → used ≤ c.pending.length →
      WithoutEntry c input used ((c.restoreDisplayAmbiguousResultFallback input).1, false,
        (c.restoreDisplayAmbiguousResultFallback input).2)
  | trimmed : (trimLeadingSpecialKey input).length < input.length →
      WithoutEntry c input used (c, true, trimLeadingSpecialKey input)
  | front : used = 0 → c.pending = [] →
      WithoutEntry c input used
        ({ c with raw := c.raw ++ input.take 1, conversion := c.conversion ++ input.take 1 },
          false, input.drop 1)
  | unused : used ≤ c.pending.length → c.pending ≠ [] → WithoutEntry c input used (c, false, input)
  | taken : c.pending.length < used →
      WithoutEntry c input used
        ({ c with
            raw := c.raw ++ input.take (used - c.pending.length)
            pending := c.pending ++ input.take (used - c.pending.length)
            ambiguous := []
            displayAmbiguousAsResult := false },
          false, input.drop (used - c.pending.length))

theorem withoutEntry (c : CharChunk) (input : Text) (used : Nat) :
    WithoutEntry c input used (c.addWithoutEntry input used) := by
  unfold addWithoutEntry
  dsimp only
  split
  · next has => exact .restored has.2 has.1
  split
  · next nothing =>
    split
    · next shorter => exact .trimmed shorter
    split
    · next noPending => exact .front nothing (List.isEmpty_iff.1 noPending)
    · next pending => exact .unused (nothing ▸ Nat.zero_le _) (mt List.isEmpty_iff.2 pending)
  · next some =>
    split
    · next all =>
      split
      · next shorter => exact .trimmed shorter.2
      · refine .unused (Nat.le_of_eq all) ?_
        rintro nothing
        exact some (by rw [all, nothing, List.length_nil])
    · next notAll =>
      split
      · next less => exact .unused (Nat.le_of_lt less) (List.ne_nil_of_length_pos (Nat.zero_lt_of_lt less))
      · next notLess => exact .taken (by omega)

/-- The chunk that takes over an entry and what was typed for it. -/
def enter (c : CharChunk) (entry : Entry) (taken : Text) : CharChunk :=
  { c with
    attributes := if c.isFirstEntry then entry.attributes else c.attributes
    raw := c.raw ++ taken }

/-- What a step does when an entry was found. -/
inductive WithEntry (c : CharChunk) (input : Text) (found : PrefixMatch Entry) (entry : Entry) :
    CharChunk × Bool × Text → Prop
  | settled : found.fixed = true ∨ found.keyLength < (c.pending ++ input).length →
      WithEntry c input found entry
        ((c.enter entry (input.take (found.keyLength - c.pending.length))).settle entry,
          !((input.drop (found.keyLength - c.pending.length)).isEmpty || entry.pending.isEmpty),
          input.drop (found.keyLength - c.pending.length))
  | cleared : found.fixed = true → input.drop (found.keyLength - c.pending.length) = [] →
      c.conversion ++ entry.result = [] → entry.pending = [] →
      (c.enter entry input).attributes.noTransliteration = true →
      WithEntry c input found entry
        ({ (c.enter entry input).settle entry with raw := [] }, false, [])
  | awaited : found.fixed = false → found.keyLength = (c.pending ++ input).length →
      WithEntry c input found entry ((c.enter entry input).await (c.pending ++ input) entry, false, [])

theorem addEntry_eq (c : CharChunk) (input : Text) (found : PrefixMatch Entry) (entry : Entry) :
    c.addEntry input found entry =
      let rest := input.drop (found.keyLength - c.pending.length)
      let entered := c.enter entry (input.take (found.keyLength - c.pending.length))
      let c' :=
        if found.fixed ∨ found.keyLength < (c.pending ++ input).length then entered.settle entry
        else entered.await (c.pending ++ input) entry
      if (found.fixed ∧ rest.isEmpty ∧ c'.conversion.isEmpty ∧ c'.pending.isEmpty) ∧
          c'.attributes.noTransliteration then
        ({ c' with raw := [] }, false, rest)
      else (c', !(rest.isEmpty || c'.pending.isEmpty), rest) := by
  unfold addEntry enter
  cases c.isFirstEntry <;> rfl

theorem take_of_drop_nil {text : Text} {n : Nat} (nothing : text.drop n = []) : text.take n = text := by
  have whole := List.take_append_drop n text
  rwa [nothing, List.append_nil] at whole

theorem withEntry (le : found.keyLength ≤ (c.pending ++ input).length) :
    WithEntry c input found entry (c.addEntry input found entry) := by
  rw [addEntry_eq]
  dsimp only
  by_cases settles : found.fixed ∨ found.keyLength < (c.pending ++ input).length
  · rw [if_pos settles]
    split
    · next clears =>
      obtain ⟨⟨fixed, nothing, noConversion, noPending⟩, hidden⟩ := clears
      have isNothing := List.isEmpty_iff.1 nothing
      rw [take_of_drop_nil isNothing] at hidden ⊢
      rw [isNothing]
      exact .cleared fixed isNothing (List.isEmpty_iff.1 noConversion)
        (List.isEmpty_iff.1 noPending) hidden
    · exact .settled settles
  · rw [if_neg settles]
    obtain ⟨notFixed, notLess⟩ := not_or.1 settles
    have all : found.keyLength = (c.pending ++ input).length := by omega
    have nothing : input.drop (found.keyLength - c.pending.length) = [] := by
      rw [List.drop_eq_nil_iff, all, List.length_append]
      omega
    rw [if_neg fun clears => notFixed clears.1.1, nothing, take_of_drop_nil nothing]
    exact .awaited (Bool.not_eq_true _ ▸ notFixed) all

/-- What a step does. -/
inductive Step (c : CharChunk) (input : Text) : CharChunk × Bool × Text → Prop
  | withoutEntry {step : CharChunk × Bool × Text} :
      (c.table.table.lookUpPrefix (c.pending ++ input)).data = none →
      WithoutEntry c input (c.table.table.lookUpPrefix (c.pending ++ input)).keyLength step →
        Step c input step
  | withEntry {step : CharChunk × Bool × Text} {entry : Entry} :
      (c.table.table.lookUpPrefix (c.pending ++ input)).data = some entry →
      c.pending.length ≤ (c.table.table.lookUpPrefix (c.pending ++ input)).keyLength →
      WithEntry c input (c.table.table.lookUpPrefix (c.pending ++ input)) entry step →
        Step c input step

/-- **All that a step can do.** -/
theorem step_of_eq_some {step : CharChunk × Bool × Text}
    (stepped : c.addInputInternal input = some step) : Step c input step := by
  unfold addInputInternal at stepped
  dsimp only at stepped
  split at stepped
  · next noEntry =>
    obtain rfl := Option.some_inj.1 stepped
    exact .withoutEntry noEntry (withoutEntry c input _)
  · next entry isEntry =>
    split at stepped
    · cases stepped
    · next passed =>
      obtain rfl := Option.some_inj.1 stepped
      exact .withEntry isEntry (Nat.not_lt.1 passed)
        (CharChunk.withEntry (c.table.table.keyLength_le _))

end CharChunk

end Mozkey.Composer
