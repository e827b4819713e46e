import Mozkey.Base.Util
import Mozkey.Converter.InnerSegment
import Mozkey.Prediction.HistoryDic

/-!
# Learning a committed result

A commit is learned as several words: the whole text, every segment, and the
content part of a segment that has one.  Each word is inserted into the storage
and linked to the next segment, and the last word of the context is linked to the
first segment.  For every entry that is about to change a copy is kept, so that
the commit can be reverted.

What depends on dictionary data, on the tables of scripts or on a floating point
comparison is a parameter of the model.
-/

namespace Mozkey.Prediction

open Mozkey.Lib Mozkey.Converter

/-! ## Requests and results -/

/-- The fields of `prediction::Result` that learning reads. -/
structure Result where
  key : ByteString := []
  value : ByteString := []
  description : ByteString := []
  types : Int := 0
  lid : UInt16 := 0
  rid : UInt16 := 0
  candidateAttributes : UInt32 := 0
  innerSegmentBoundary : List UInt32 := []
  deriving DecidableEq, Repr

/-- `config::Config::HistoryLearningLevel`. -/
inductive HistoryLearningLevel
  | defaultHistory | readOnly | noHistory
  deriving DecidableEq, Repr

/-- What learning reads of a `ConversionRequest`. -/
structure ConversionRequest where
  incognitoMode : Bool := false
  historyLearningLevel : HistoryLearningLevel := .defaultHistory
  useHistorySuggest : Bool := true
  precedingText : ByteString := []
  historyResult : Result := {}

/-- What learning asks of the rest of the program. -/
structure Modules where
  /-- The fingerprint of a text. -/
  cityFingerprint : ByteString → UInt64
  /-- `Util::GetFirstScriptType`. -/
  getFirstScriptType : ByteString → ScriptType
  /-- `Util::GetScriptType`. -/
  getScriptType : ByteString → ScriptType
  /-- `UserHistoryPredictor::IsProperNoun`, which looks into the dictionary. -/
  isProperNoun : ConversionRequest → Result → Bool
  /-- Whether the suggestion frequency divided by the shown frequency is below
  `kMinSelectedRatio`, compared in floating point. -/
  belowMinSelectedRatio : UInt32 → UInt32 → Bool

variable (M : Modules)

/-- The storage of the predictor. -/
abbrev Storage := HistoryDic M.cityFingerprint

def kMaxStringLength : Nat := 256
def kMaxNextEntriesSize : Nat := 6

/-! Attributes of a candidate. -/

def kNoSuggestLearning : UInt32 := 0x8
def kSpellingCorrection : UInt32 := 0x20
def kTypingCorrection : UInt32 := 0x1000
def kAutoPartialSuggestion : UInt32 := 0x2000

def kPunctuations : List ByteString :=
  [[0xE3, 0x80, 0x82], ascii ".", [0xE3, 0x80, 0x81], ascii ",", [0xEF, 0xBC, 0x9F], ascii "?",
    [0xEF, 0xBC, 0x81], ascii "!", [0xEF, 0xBC, 0x8C], [0xEF, 0xBC, 0x8E]]

def startsWithPunctuation (value : ByteString) : Bool :=
  kPunctuations.any fun x => x.isPrefixOf value

def endsWithPunctuation (value : ByteString) : Bool :=
  kPunctuations.any fun x => x.isSuffixOf value

def startsWithValidLetter (value : ByteString) : Bool :=
  match M.getFirstScriptType value with
  | .kanji | .hiragana | .katakana | .alphabet => true
  | _ => false

/-- Corrections are learned without their description. -/
def getDescription (result : Result) : ByteString :=
  if result.candidateAttributes &&&
      (kSpellingCorrection ||| kTypingCorrection ||| kAutoPartialSuggestion) ≠ 0 then []
  else result.description

/-- `UserHistoryPredictor::IsPrivacySensitive`. -/
def isPrivacySensitive : List Result → Bool
  | [] => false
  | front :: _ =>
      if front.innerSegmentBoundary.length > 1 then false
      else if !isAscii front.value then false
      else M.getScriptType front.key == .number

/-! ## Segments for learning -/

structure SegmentForLearning where
  keyBegin : Nat := 0
  valueBegin : Nat := 0
  key : ByteString
  value : ByteString
  contentKey : ByteString
  contentValue : ByteString
  description : ByteString := []
  deriving DecidableEq, Repr

structure SegmentsForLearning where
  conversionSegmentsKey : ByteString := []
  conversionSegmentsValue : ByteString := []
  innerSegmentBoundary : List UInt32 := []
  historySegments : List SegmentForLearning := []
  conversionSegments : List SegmentForLearning := []
  hasSpacePrefix : Bool := false
  allowPartialMatch : Bool := false

/-- The segments with the offsets where they start. -/
def withOffsets (description : ByteString) : Nat → Nat → List InnerSegment →
    List SegmentForLearning
  | _, _, [] => []
  | keyBegin, valueBegin, segment :: segments =>
      { keyBegin, valueBegin, key := segment.key, value := segment.value,
        contentKey := segment.contentKey, contentValue := segment.contentValue, description }
        :: withOffsets description (keyBegin + segment.key.length)
            (valueBegin + segment.value.length) segments

/-- The lambda `make_learning_segments`. -/
def segmentsOfResult (result : Result) : List SegmentForLearning :=
  let isSingleSegment :=
    innerSegmentsSize result.key result.value result.innerSegmentBoundary ≤ 1
  withOffsets (if isSingleSegment then getDescription result else []) 0 0
    (innerSegments result.key result.value result.innerSegmentBoundary)

/-- The lambda `get_space_prefix`. -/
def getSpacePrefix (precedingText : ByteString) : ByteString :=
  if kPrefixHalfSpace <:+ precedingText then kPrefixHalfSpace
  else if kPrefixFullSpace <:+ precedingText then kPrefixFullSpace
  else []

/-- The lambda `make_history_learning_segments`: the segments, and whether there is a
space behind them.  Without a context, the latest used entry stands for it when the
preceding text ends with its value and a space. -/
def historySegmentsOfResult (s : Storage M) (request : ConversionRequest) :
    List SegmentForLearning × Bool :=
  let segments := segmentsOfResult request.historyResult
  let spacePrefix := getSpacePrefix request.precedingText
  if segments ≠ [] ∨ spacePrefix = [] then (segments, spacePrefix != [])
  else
    let precedingText :=
      request.precedingText.take (request.precedingText.length - spacePrefix.length)
    match s.dic.values with
    | [] => (segments, false)
    | head :: rest =>
        if ¬ head.value <:+ precedingText then (segments, false)
        else if (rest.head?.any fun headNext => headNext.value.isPrefixOf head.value) then
          (segments, false)
        else
          ([{ key := head.key, value := head.value, contentKey := head.key,
              contentValue := head.value }], true)

/-- `UserHistoryPredictor::MakeLearningSegments`. -/
def makeLearningSegments (s : Storage M) (request : ConversionRequest) :
    List Result → SegmentsForLearning
  | [] => {}
  | result :: _ =>
      { conversionSegmentsKey := result.key
        conversionSegmentsValue := result.value
        innerSegmentBoundary := result.innerSegmentBoundary
        historySegments := (historySegmentsOfResult M s request).1
        conversionSegments := segmentsOfResult result
        hasSpacePrefix := (historySegmentsOfResult M s request).2
        allowPartialMatch := M.isProperNoun request result }

def SegmentForLearning.fingerprint (segment : SegmentForLearning) : UInt64 :=
  Prediction.fingerprint M.cityFingerprint segment.key segment.value

/-- `UserHistoryPredictor::LearningSegmentFingerprints`. -/
def SegmentForLearning.fingerprints (segment : SegmentForLearning) : List UInt64 :=
  segment.fingerprint M ::
    if segment.key ≠ segment.contentKey then
      [Prediction.fingerprint M.cityFingerprint segment.contentKey segment.contentValue]
    else []

/-! ## Inserting a word -/

/-- An entry that can be stored. -/
abbrev StoredEntry := { entry : Entry // entry.key ≠ [] ∧ entry.value ≠ [] }

theorem StoredEntry.texts_ne_nil (entry : StoredEntry) :
    entry.val.key ≠ [] ∧ entry.val.value ≠ [] := entry.property

/-- A copy of an entry before a change, with the place of its word in the result. -/
structure RevertEntry where
  keyBegin : Nat
  valueBegin : Nat
  entry : StoredEntry

/-- `UserHistoryPredictor::RevertEntries`. -/
structure RevertEntries where
  result : Result := {}
  historyEntry : Option StoredEntry := none
  entries : List RevertEntry := []

/-- The links of an entry with one more, which becomes the last one. -/
def insertNextFp (nextFps : List UInt64) (fp : UInt64) : List UInt64 :=
  if fp = 0 then nextFps
  else
    let nextFps := nextFps.filter (· ≠ fp) ++ [fp]
    nextFps.drop (nextFps.length - kMaxNextEntriesSize)

/-- `UserHistoryPredictor::InsertNextEntry`. -/
def insertNextEntry (fp : UInt64) (entry : Entry) : Entry :=
  { entry with nextEntryFps := insertNextFp entry.nextEntryFps fp }

/-- The arguments of one call of `UserHistoryPredictor::Insert`. -/
structure Word where
  keyBegin : Nat := 0
  valueBegin : Nat := 0
  key : ByteString
  value : ByteString
  description : ByteString := []
  innerSegmentBoundary : List UInt32 := []
  nextFps : List UInt64 := []
  allowPartialMatch : Bool
  lastAccessTime : UInt64

/-- The key that is stored. -/
def Word.storedKey (word : Word) : ByteString := stripTrailingAsciiWhitespace word.key

/-- The value that is stored. -/
def Word.storedValue (word : Word) : ByteString := stripTrailingAsciiWhitespace word.value

def Word.fingerprint (word : Word) : UInt64 :=
  Prediction.fingerprint M.cityFingerprint word.storedKey word.storedValue

/-- The texts are valid, neither is empty and none is too long, and the word does not
end with a punctuation. -/
def Word.Acceptable (word : Word) : Prop :=
  (isValidUtf8 word.storedKey = true ∧ isValidUtf8 word.storedValue = true) ∧
    ((word.storedKey ≠ [] ∧ word.storedValue ≠ []) ∧ word.storedKey.length ≤ kMaxStringLength ∧
      word.storedValue.length ≤ kMaxStringLength ∧ word.description.length ≤ kMaxStringLength) ∧
    ¬ (startsWithValidLetter M word.storedValue = true ∧
      endsWithPunctuation word.storedValue = true)

instance (word : Word) : Decidable (word.Acceptable M) :=
  inferInstanceAs (Decidable (_ ∧ _ ∧ _))

variable {M}

/-- The entry under a fingerprint, as one that can be stored. -/
def HistoryDic.find (s : Storage M) (fp : UInt64) : Option StoredEntry :=
  match found : s.lookup fp with
  | none => none
  | some entry => some ⟨entry, s.nonempty fp entry found⟩

@[simp] theorem HistoryDic.find_map_val (s : Storage M) (fp : UInt64) :
    (s.find fp).map Subtype.val = s.lookup fp := by
  rw [HistoryDic.find]
  split
  · rename_i missing
    exact missing.symm
  · rename_i entry found
    exact found.symm

/-- What a word makes of the entry it is stored in; a new entry starts out empty. -/
def Word.learnInto (word : Word) (entry : Entry) : Entry :=
  { entry with
    key := word.storedKey
    value := word.storedValue
    removed := false
    attributes := 0
    allowPartialMatch := entry.allowPartialMatch || word.allowPartialMatch
    description := word.description
    innerSegmentBoundary :=
      if word.innerSegmentBoundary = [] then entry.innerSegmentBoundary
      else word.innerSegmentBoundary
    lastAccessTime := word.lastAccessTime
    suggestionFreq := entry.suggestionFreq + 1
    nextEntryFps := word.nextFps.foldl insertNextFp entry.nextEntryFps }

/-- What a revert makes of an entry that the commit created. -/
def Word.unlearned (word : Word) : Entry where
  key := word.storedKey
  value := word.storedValue
  removed := true

variable (M)

/-- `UserHistoryPredictor::Insert`. -/
def insert (state : Storage M × RevertEntries) (word : Word) : Storage M × RevertEntries :=
  if acceptable : word.Acceptable M then
    let fp := word.fingerprint M
    let old := state.1.find fp
    let revertEntry : StoredEntry :=
      old.getD ⟨word.unlearned, acceptable.2.1.1⟩
    let entry := word.learnInto (old.elim {} Subtype.val)
    (state.1.insertEntry entry acceptable.2.1.1,
      { state.2 with entries := state.2.entries ++ [⟨word.keyBegin, word.valueBegin, revertEntry⟩] })
  else state

theorem insert_of_acceptable {word : Word} (acceptable : word.Acceptable M)
    (state : Storage M × RevertEntries) :
    insert M state word =
      (state.1.insertEntry (word.learnInto ((state.1.find (word.fingerprint M)).elim {} Subtype.val))
        acceptable.2.1.1,
      { state.2 with entries := state.2.entries ++ [⟨word.keyBegin, word.valueBegin,
        (state.1.find (word.fingerprint M)).getD ⟨word.unlearned, acceptable.2.1.1⟩⟩] }) :=
  dif_pos acceptable

theorem insert_of_not_acceptable {word : Word} (refused : ¬ word.Acceptable M)
    (state : Storage M × RevertEntries) : insert M state word = state :=
  dif_neg refused

/-- After the insertion of a word, an entry is the word's or an old one. -/
theorem lookup_of_lookup_insert {state : Storage M × RevertEntries} {word : Word} {fp : UInt64}
    {entry : Entry} (acceptable : word.Acceptable M)
    (found : (insert M state word).1.lookup fp = some entry) :
    (fp = word.fingerprint M ∧
        entry = word.learnInto ((state.1.lookup (word.fingerprint M)).getD {})) ∨
      (fp ≠ word.fingerprint M ∧ state.1.lookup fp = some entry) := by
  rw [insert_of_acceptable M acceptable] at found
  rcases state.1.dic.lookup_of_lookup_insert found with ⟨same, rfl⟩ | ⟨ne, old⟩
  · refine .inl ⟨same, congrArg word.learnInto ?_⟩
    rw [← HistoryDic.find_map_val]
    cases state.1.find (word.fingerprint M) <;> rfl
  · exact .inr ⟨ne, old⟩

/-- The fingerprints of the words that are accepted. -/
def acceptedFps (words : List Word) : List UInt64 :=
  (words.filter fun word => word.Acceptable M).map fun word => word.fingerprint M

theorem acceptedFps_cons_of_acceptable {word : Word} (acceptable : word.Acceptable M)
    (words : List Word) :
    acceptedFps M (word :: words) = word.fingerprint M :: acceptedFps M words := by
  simp [acceptedFps, acceptable]

theorem acceptedFps_cons_of_not_acceptable {word : Word} (refused : ¬ word.Acceptable M)
    (words : List Word) : acceptedFps M (word :: words) = acceptedFps M words := by
  simp [acceptedFps, refused]

/-! ## Learning a commit -/

/-- The calls of `Insert` that the loop of `InsertHistoryForConversionSegments` makes, in
order.  `first` tells the first segment, `seen` and `thisWasSeen` are the variables
of the loop. -/
def segmentWords (lastAccessTime : UInt64) (allowPartialMatch : Bool) :
    Bool → List (List UInt64) → Bool → List SegmentForLearning → List Word
  | _, _, _, [] => []
  | first, seen, thisWasSeen, segment :: segments =>
      let nextFps := (segments.head?.map fun next => next.fingerprints M).getD []
      let seen := if first then segment.fingerprints M :: seen else seen
      -- a repeated segment is linked neither to the next one nor from the one before
      let isNew := decide (nextFps ∉ seen)
      let nextFpsToSet := if thisWasSeen || !isNew then [] else nextFps
      let hasContentKv :=
        decide (segment.contentKey ≠ segment.key ∧ segment.contentValue ≠ segment.value)
      let contentWord : Word :=
        { keyBegin := segment.keyBegin, valueBegin := segment.valueBegin
          key := segment.contentKey, value := segment.contentValue
          description := segment.description
          allowPartialMatch := first && allowPartialMatch
          lastAccessTime }
      let segmentWord : Word :=
        { keyBegin := segment.keyBegin, valueBegin := segment.valueBegin
          key := segment.key, value := segment.value
          description := segment.description
          innerSegmentBoundary :=
            if hasContentKv then
              buildInnerSegmentBoundary segment.key segment.value segment.contentKey
                segment.contentValue
            else []
          nextFps := nextFpsToSet
          allowPartialMatch := first && allowPartialMatch && !hasContentKv
          lastAccessTime }
      (if hasContentKv then [contentWord] else []) ++ segmentWord ::
        segmentWords lastAccessTime allowPartialMatch false (if isNew then nextFps :: seen else seen)
          (!isNew) segments

/-- The calls of `Insert` that `InsertHistoryForConversionSegments` makes, in order. -/
def conversionWords (lastAccessTime : UInt64) (segments : SegmentsForLearning) : List Word :=
  (if segments.conversionSegments.length > 1 then
    [{ key := segments.conversionSegmentsKey
       value := segments.conversionSegmentsValue
       innerSegmentBoundary := segments.innerSegmentBoundary
       allowPartialMatch := false
       lastAccessTime }]
  else []) ++
    segmentWords M lastAccessTime segments.allowPartialMatch true [] false
      segments.conversionSegments

/-- `UserHistoryPredictor::InsertHistoryForConversionSegments`. -/
def insertHistoryForConversionSegments (lastAccessTime : UInt64) (segments : SegmentsForLearning)
    (state : Storage M × RevertEntries) : Storage M × RevertEntries :=
  (conversionWords M lastAccessTime segments).foldl (insert M) state

/-- The entry gets one more link. -/
def insertNextEntryChange (fp : UInt64) : HistoryDic.Change where
  apply := insertNextEntry fp
  key _ := rfl
  value _ := rfl

/-- The segments that `InsertHistoryForHistorySegments` links: the last one of the
context and the first one of the commit. -/
def linkedSegments (segments : SegmentsForLearning) :
    Option (SegmentForLearning × SegmentForLearning) :=
  match segments.historySegments.getLast?, segments.conversionSegments.head? with
  | some historySegment, some conversionSegment =>
      if historySegment.value = [] ∨ conversionSegment.value = [] then none
      else if endsWithPunctuation historySegment.value then none
      else if charsLen conversionSegment.value > 1 ∧
          startsWithPunctuation conversionSegment.value then none
      else if segments.hasSpacePrefix ∧ startsWithPunctuation conversionSegment.value then none
      else some (historySegment, conversionSegment)
  | _, _ => none

/-- The word learned for a segment behind a space.  The two last arguments of the call
are given in the wrong order: the time goes where the flag is expected, and `false`
where the time is. -/
def spacePrefixedWord (lastAccessTime : UInt64) (segment : SegmentForLearning) : Word where
  key := kPrefixZeroSpace ++ segment.key
  value := kPrefixZeroSpace ++ segment.value
  allowPartialMatch := lastAccessTime != 0
  lastAccessTime := 0

/-- `UserHistoryPredictor::InsertHistoryForHistorySegments`. -/
def insertHistoryForHistorySegments (lastAccessTime : UInt64) (segments : SegmentsForLearning)
    (state : Storage M × RevertEntries) : Storage M × RevertEntries :=
  match linkedSegments segments with
  | none => state
  | some (historySegment, conversionSegment) =>
      let historyFp := historySegment.fingerprint M
      match state.1.find historyFp with
      | none => state
      | some historyEntry =>
          let state := (state.1, { state.2 with historyEntry := some historyEntry })
          if segments.hasSpacePrefix then
            if conversionSegment.key = conversionSegment.contentKey ∧
                conversionSegment.value = conversionSegment.contentValue then
              let word := spacePrefixedWord lastAccessTime conversionSegment
              let state := insert M state word
              -- the pointer to an entry that was dropped points to the one in its place
              let owner :=
                if (state.1.lookup historyFp).isSome then historyFp
                else state.1.dic.keys.headD historyFp
              (state.1.update owner (insertNextEntryChange
                (fingerprint M.cityFingerprint word.key word.value)), state.2)
            else state
          else
            ((conversionSegment.fingerprints M).foldl
              (fun s fp => s.update historyFp (insertNextEntryChange fp)) state.1, state.2)

/-- `UserHistoryPredictor::InsertHistory`. -/
def insertHistory (lastAccessTime : UInt64) (segments : SegmentsForLearning)
    (state : Storage M × RevertEntries) : Storage M × RevertEntries :=
  insertHistoryForHistorySegments M lastAccessTime segments
    (insertHistoryForConversionSegments M lastAccessTime segments state)

/-! ## Unselected candidates -/

def kMaxHistorySize : Nat := 5

def incrementShownFreq (entry : Entry) : Entry :=
  { entry with shownFreq := entry.shownFreq + 1 }

def incrementShownFreqChange : HistoryDic.Change where
  apply := incrementShownFreq
  key _ := rfl
  value _ := rfl

/-- `std::max<int>(0, shown_freq - 1)`. -/
def previousShownFreq (shownFreq : UInt32) : UInt32 :=
  if (shownFreq - 1).toNat < 2 ^ 31 then shownFreq - 1 else 0

/-- One round of `MaybeRemoveUnselectedHistory`. -/
def countShown (state : Storage M × RevertEntries) (result : Result) :
    Storage M × RevertEntries :=
  let fp := fingerprint M.cityFingerprint result.key result.value
  let s := state.1.update fp incrementShownFreqChange
  match s.find fp with
  | none => state
  | some entry =>
      if M.belowMinSelectedRatio entry.val.suggestionFreq entry.val.shownFreq then
        let revertEntry : StoredEntry :=
          ⟨{ entry.val with shownFreq := previousShownFreq entry.val.shownFreq },
            StoredEntry.texts_ne_nil entry⟩
        (s.update fp markRemovedChange,
          { state.2 with entries := state.2.entries ++ [⟨0, 0, revertEntry⟩] })
      else (s, state.2)

/-- `UserHistoryPredictor::MaybeRemoveUnselectedHistory`. -/
def maybeRemoveUnselectedHistory (results : List Result) (state : Storage M × RevertEntries) :
    Storage M × RevertEntries :=
  (results.take kMaxHistorySize).foldl (countShown M) state

/-! ## The end of a conversion -/

/-- The state of the predictor.  The revert cache also drops old records; one that was
just stored is found. -/
structure Predictor where
  storage : Storage M
  revertCache : UInt32 → Option RevertEntries := fun _ => none
  lastCommittedEntries : Option RevertEntries := none

/-- A call of `Finish`, with the time and whether the syncer is in its critical
section. -/
structure Commit where
  request : ConversionRequest
  results : List Result
  revertId : UInt32
  time : UInt64
  syncerInCriticalSection : Bool := false

/-- Whether `Finish` looks at the results at all. -/
def Commit.Learns (commit : Commit) : Prop :=
  commit.request.incognitoMode = false ∧
    commit.request.historyLearningLevel = .defaultHistory ∧
    commit.request.useHistorySuggest = true ∧ commit.syncerInCriticalSection = false

instance (commit : Commit) : Decidable commit.Learns := inferInstanceAs (Decidable (_ ∧ _))

/-- Whether `Finish` learns the results. -/
def Commit.Learnable (commit : Commit) : Prop :=
  ∃ front ∈ commit.results.head?, front.candidateAttributes &&& kNoSuggestLearning = 0 ∧
    isPrivacySensitive M commit.results = false

instance (commit : Commit) : Decidable (commit.Learnable M) :=
  inferInstanceAs (Decidable (∃ front ∈ commit.results.head?, _))

/-- What `Finish` learns: the storage and the record for the revert. -/
def learn (s : Storage M) (commit : Commit) : Storage M × RevertEntries :=
  let segments := makeLearningSegments M s commit.request commit.results
  maybeRemoveUnselectedHistory M commit.results
    (insertHistory M commit.time segments (s, {}))

/-- `UserHistoryPredictor::Finish`. -/
def finish (state : Predictor M) (commit : Commit) : Predictor M :=
  if ¬ commit.Learns then state
  else if ¬ commit.Learnable M then { state with lastCommittedEntries := none }
  else
    let (s, revertEntries) := learn M state.storage commit
    let record := { revertEntries with result := commit.results.headD {} }
    { storage := s
      revertCache :=
        if revertEntries.entries.isEmpty then state.revertCache
        else Function.update state.revertCache commit.revertId (some record)
      lastCommittedEntries := none }

end Mozkey.Prediction
