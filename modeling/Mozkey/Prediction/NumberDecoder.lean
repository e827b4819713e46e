import Mozkey.Base.LongestMatch

/-!
# Decoding the readings of numbers

`NumberDecoder::Decode` takes the reading of a number apart, word by word, each time with the
longest entry of a trie that begins the rest.  Units and tens, hundreds and thousands are collected
in a small number; a word like まん ends the group and appends it, in Arabic digits, with its kanji.
Some entries are no number words: counters whose reading begins like a number word are listed so
that the decoding stops before them.

Keys are lists of characters; the lengths are those of their UTF-8 texts.  The numbers of a state
are -1 where they are not set.
-/

namespace Mozkey.Prediction

namespace NumberDecoder

/-- `Type` of an entry. -/
inductive EntryType
  | stopDecoding
  | unit
  | smallDigit
  | bigDigit
  | unitAndBigDigit
  | unitAndStopDecoding
  deriving DecidableEq, Repr

/-- `Entry`. -/
structure Entry where
  type : EntryType := .stopDecoding
  number : Int := 0
  digit : Int := 1
  digitStr : List Char := []
  outputBeforeDecode : Bool := false
  consumeByteLenOfFirst : Nat := 0
  deriving DecidableEq, Repr

/-- The number of bytes of a text. -/
def byteLen (text : List Char) : Nat := (text.map Char.utf8Size).sum

/-- The beginning of a text that has so many bytes. -/
def takeBytes : Nat → List Char → List Char
  | _, [] => []
  | n, c :: rest => if c.utf8Size ≤ n then c :: takeBytes (n - c.utf8Size) rest else []

/-- `StrCat` of a number. -/
def strCat (n : Int) : List Char :=
  if n < 0 then '-' :: Nat.toDigits 10 n.natAbs else Nat.toDigits 10 n.natAbs

/-! ## Entries -/

/-- The entries of the numbers. -/
def numberEntries : List (List Char × Entry) := [
  (['ぜ', 'ろ'], { type := .unit, number := 0 }),
  (['い', 'ち'], { type := .unit, number := 1 }),
  (['い', 'っ'], { type := .unit, number := 1 }),
  (['に'], { type := .unit, number := 2 }),
  (['さ', 'ん'], { type := .unit, number := 3 }),
  (['し'], { type := .unit, number := 4 }),
  (['よ', 'ん'], { type := .unit, number := 4 }),
  (['よ'], { type := .unit, number := 4 }),
  (['ご'], { type := .unit, number := 5 }),
  (['ろ', 'く'], { type := .unit, number := 6 }),
  (['ろ', 'っ'], { type := .unit, number := 6 }),
  (['な', 'な'], { type := .unit, number := 7 }),
  (['し', 'ち'], { type := .unit, number := 7 }),
  (['は', 'ち'], { type := .unit, number := 8 }),
  (['は', 'っ'], { type := .unit, number := 8 }),
  (['き', 'ゅ', 'う'], { type := .unit, number := 9 }),
  (['き', 'ゅ', 'ー'], { type := .unit, number := 9 }),
  (['く'], { type := .unit, number := 9 }),
  (['じ', 'ゅ', 'う'], ⟨.smallDigit, 10, 2, [], true, 0⟩),
  (['じ', 'ゅ', 'ー'], ⟨.smallDigit, 10, 2, [], true, 0⟩),
  (['じ', 'ゅ', 'っ'], ⟨.smallDigit, 10, 2, [], false, 0⟩),
  (['ひ', 'ゃ', 'く'], ⟨.smallDigit, 100, 3, [], false, 0⟩),
  (['ひ', 'ゃ', 'っ'], ⟨.smallDigit, 100, 3, [], false, 0⟩),
  (['び', 'ゃ', 'く'], ⟨.smallDigit, 100, 3, [], false, 0⟩),
  (['び', 'ゃ', 'っ'], ⟨.smallDigit, 100, 3, [], false, 0⟩),
  (['ぴ', 'ゃ', 'く'], ⟨.smallDigit, 100, 3, [], false, 0⟩),
  (['ぴ', 'ゃ', 'っ'], ⟨.smallDigit, 100, 3, [], false, 0⟩),
  (['せ', 'ん'], ⟨.smallDigit, 1000, 4, [], true, 0⟩),
  (['ぜ', 'ん'], ⟨.smallDigit, 1000, 4, [], true, 0⟩),
  (['ま', 'ん'], ⟨.bigDigit, 10000, 5, ['万'], false, 0⟩),
  (['お', 'く'], ⟨.bigDigit, -1, 9, ['億'], false, 0⟩),
  (['お', 'っ'], ⟨.bigDigit, -1, 9, ['億'], false, 0⟩),
  (['ち', 'ょ', 'う'], ⟨.bigDigit, -1, 13, ['兆'], true, 0⟩),
  (['け', 'い'], ⟨.bigDigit, -1, 17, ['京'], true, 0⟩),
  (['が', 'い'], ⟨.bigDigit, -1, 21, ['垓'], false, 0⟩)]

/-- The special cases, of number words that conflict with counters. -/
def specialEntries : List (List Char × Entry) := [
  (['に', 'ち', 'ょ', 'う'], ⟨.unitAndBigDigit, 2, 13, ['兆'], true, 3⟩),
  (['に', 'ち', 'ょ', 'う', 'め'], ⟨.unitAndStopDecoding, 2, -1, [], false, 3⟩),
  (['に', 'ち', 'ゃ', 'ん'], ⟨.unitAndStopDecoding, 2, -1, [], false, 3⟩),
  (['さ', 'ん', 'ち', 'ー', 'む'], ⟨.unitAndStopDecoding, 3, -1, [], true, 6⟩)]

/-- `kSuffixEntries`. -/
def kSuffixEntries : List (List Char) := [
  ['に', 'ぎ', 'り'], ['に', 'ち'], ['に', 'ん'],
  ['し', 'ー', 'し', 'ー'], ['し', 'ー', 'と'], ['し', 'ー', 'べ', 'る', 'と'], ['し', 'あ', 'い'],
  ['し', 'き'], ['し', 'つ'], ['し', 'な'], ['し', 'ゃ'], ['し', 'ゅ'], ['し', 'ょ', 'う'],
  ['し', 'ょ', 'く'], ['し', 'り', 'ん', 'ぐ'], ['し', 'ん'],
  ['よ', 'う'], ['ご', 'う'],
  ['く', 'だ', 'り'], ['く', 'ち'], ['く', 'み'], ['く', 'ら', 'す'], ['く', 'ろ', 'ー', 'な'],
  ['せ', 'ん', 'ち'], ['せ', 'ん', 'と'], ['お', 'く', 'た', 'ー', 'ぶ'], ['ち', 'ょ', 'う', 'め']]

def defaultEntries : List (List Char × Entry) :=
  numberEntries ++ specialEntries ++ kSuffixEntries.map fun key => (key, ({} : Entry))

/-- `CreateDefaultEntries`. -/
def createDefaultEntries : Trie Char Entry := Trie.ofEntries defaultEntries

/-! ## States -/

/-- `NumberDecoderResult`. -/
structure Result where
  consumedKeyByteLen : Nat
  candidate : List Char
  digitNum : Int
  deriving DecidableEq, Repr

/-- `State`. -/
structure State where
  smallDigitNum : Int := -1
  currentNumStr : List Char := []
  smallDigit : Int := -1
  bigDigit : Int := -1
  consumedKeyByteLen : Nat := 0
  key : List Char := []
  consumedKeys : List (List Char) := []
  digitNum : Int := 0
  deriving DecidableEq, Repr

namespace State

variable (state : State)

/-- `State::IsValid`. -/
def isValid : Bool :=
  !(state.smallDigitNum == -1 && state.smallDigit == -1 && state.bigDigit == -1)

/-- `State::Result`. -/
def result : Option Result :=
  if ¬ state.isValid then none
  else
    let smallDigit := max state.smallDigitNum 0
    if smallDigit > 0 then
      some ⟨state.consumedKeyByteLen, state.currentNumStr ++ strCat smallDigit, state.digitNum⟩
    else if state.currentNumStr ≠ [] then
      some ⟨state.consumedKeyByteLen, state.currentNumStr, state.digitNum⟩
    else if smallDigit = 0 then some ⟨state.consumedKeyByteLen, ['0'], 1⟩
    else none

/-- The keys that `MaybeAppendResult` looks at: those consumed, and what is left. -/
def splitKeys : List (List Char) :=
  if state.consumedKeyByteLen < byteLen state.key then
    state.consumedKeys ++ [state.key.drop (takeBytes state.consumedKeyByteLen state.key).length]
  else state.consumedKeys

end State

/-- A sequence of keys that is no reading of a number: よ and く stand at the end only, and し
there or before じゅう. -/
def isInvalidSequence : List (List Char) → Bool
  | [] => false
  | k :: rest =>
      ((k = ['よ'] ∨ k = ['く']) ∧ rest ≠ []) ∨
        (k = ['し'] ∧ ¬ (rest = [] ∨ rest.head? = some ['じ', 'ゅ', 'う'])) ∨ isInvalidSequence rest

/-- `MaybeAppendResult`. -/
def maybeAppendResult (state : State) (results : List Result) : List Result :=
  match state.result with
  | none => results
  | some result => if isInvalidSequence state.splitKeys then results else results ++ [result]

/-! ## One word -/

/-- What a handler leaves: whether it succeeded, the state and the results. -/
abbrev Handled := Bool × State × List Result

/-- The results that an entry asks for before it is decoded; the former results are dropped. -/
def outputBefore (entry : Entry) (state : State) : List Result :=
  if entry.outputBeforeDecode then maybeAppendResult state [] else []

/-- `NumberDecoder::HandleUnitEntry`. -/
def handleUnitEntry (key : List Char) (entry : Entry) (state : State) : Handled :=
  if state.isValid ∧ entry.number = 0 then (false, state, [])
  else if state.smallDigitNum = 0 ∨ (state.smallDigitNum ≠ -1 ∧ state.smallDigitNum % 10 ≠ 0) then
    (false, state, [])
  else
    (true, { state with
      smallDigitNum :=
        if state.smallDigitNum = -1 then entry.number else state.smallDigitNum + entry.number
      consumedKeys := state.consumedKeys ++ [key]
      digitNum := max state.digitNum 1 }, outputBefore entry state)

/-- `NumberDecoder::HandleSmallDigitEntry`. -/
def handleSmallDigitEntry (key : List Char) (entry : Entry) (state : State) : Handled :=
  if state.smallDigit > 1 ∧ entry.digit ≥ state.smallDigit then (false, state, [])
  else if state.smallDigitNum = 0 then (false, state, [])
  else
    (true, { state with
      smallDigitNum :=
        if state.smallDigitNum = -1 then entry.number
        else state.smallDigitNum / 10 * 10 + max 1 (state.smallDigitNum % 10) * entry.number
      smallDigit := entry.digit
      consumedKeys := state.consumedKeys ++ [key]
      digitNum := max state.digitNum entry.digit }, outputBefore entry state)

/-- `NumberDecoder::HandleBigDigitEntry`. -/
def handleBigDigitEntry (key : List Char) (entry : Entry) (state : State) : Handled :=
  if state.bigDigit > 0 ∧ entry.digit ≥ state.bigDigit then (false, state, [])
  else if state.smallDigitNum = -1 ∨ state.smallDigitNum = 0 then (false, state, [])
  else
    (true, { state with
      currentNumStr := state.currentNumStr ++ strCat state.smallDigitNum ++ entry.digitStr
      digitNum := max state.digitNum (entry.digit + (strCat state.smallDigitNum).length - 1)
      smallDigitNum := -1
      smallDigit := -1
      bigDigit := entry.digit
      consumedKeys := state.consumedKeys ++ [key] }, outputBefore entry state)

/-- More of the key is consumed. -/
def State.consume (byteLen : Nat) (state : State) : State :=
  { state with consumedKeyByteLen := state.consumedKeyByteLen + byteLen }

/-- One round of `NumberDecoder::DecodeAux`, with the entry that was found: whether the decoding
goes on, the state and the results. -/
def handleEntry (key : List Char) (entry : Entry) (keyLen : Nat) (state : State)
    (results : List Result) : Handled :=
  let k := key.take keyLen
  let unitKey := takeBytes entry.consumeByteLenOfFirst key
  match entry.type with
  | .stopDecoding => (false, state, results)
  | .unit =>
      match handleUnitEntry k entry state with
      | (false, handled) => (false, handled)
      | (true, state, results) => (true, state.consume (byteLen k), results)
  | .smallDigit =>
      match handleSmallDigitEntry k entry state with
      | (false, handled) => (false, handled)
      | (true, state, results) => (true, state.consume (byteLen k), results)
  | .bigDigit =>
      match handleBigDigitEntry k entry state with
      | (false, handled) => (false, handled)
      | (true, state, results) => (true, state.consume (byteLen k), results)
  | .unitAndBigDigit =>
      match handleUnitEntry unitKey entry state with
      | (false, handled) => (false, handled)
      | (true, state, _) =>
          let state := state.consume entry.consumeByteLenOfFirst
          match handleBigDigitEntry (k.drop unitKey.length) entry state with
          | (false, handled) => (false, handled)
          | (true, state, results) =>
              (true, state.consume (byteLen k - entry.consumeByteLenOfFirst), results)
  | .unitAndStopDecoding =>
      match handleUnitEntry unitKey entry state with
      | (false, handled) => (false, handled)
      | (true, state, results) => (false, state.consume entry.consumeByteLenOfFirst, results)

/-- `NumberDecoder::DecodeAux`; every round takes at least one character of the key. -/
def decodeAux : Nat → List Char → State → List Result → State × List Result
  | 0, _, state, results => (state, results)
  | fuel + 1, key, state, results =>
      if key = [] then (state, results)
      else
        match createDefaultEntries.longestMatch key with
        | none => (state, results)
        | some (entry, keyLen) =>
            match handleEntry key entry keyLen state results with
            | (false, handled) => handled
            | (true, state, results) => decodeAux fuel (key.drop keyLen) state results

/-- `NumberDecoder::Decode`. -/
def decode (key : List Char) : List Result :=
  let (state, results) := decodeAux key.length key { key } []
  maybeAppendResult state results

end NumberDecoder

end Mozkey.Prediction
