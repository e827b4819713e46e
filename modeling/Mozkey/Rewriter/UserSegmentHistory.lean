import Mozkey.Base.Util
import Mozkey.Converter.Segments
import Mozkey.Lib.LruMap

/-!
# The history of segment candidates

The rewriter remembers which candidate was chosen for a segment, in several ways: with
its neighbours, next to a number, alone, or as the only segment.  Each way is a
feature, a text of tabs that the storage keeps under its fingerprint.  The keys of the
segments are kept there as well, as triggers with another kind of value.

When a commit is finished, the features of its segments are inserted and written
down with the part of the committed value they stand for.  A revert only notes that
they may have to go; they are deleted at the next conversion, as far as they end behind
the text that is left.
-/

namespace Mozkey.Rewriter

open Mozkey.Lib Mozkey.Converter

/-- What the rewriter asks of the rest of the program. -/
structure Modules where
  /-- `LegacyFingerprintWithSeed` with `kSeedValue`. -/
  fingerprint : ByteString → UInt64
  /-- `PosMatcher::IsNumber`. -/
  isNumber : UInt16 → Bool
  /-- `PosMatcher::IsKanjiNumber`. -/
  isKanjiNumber : UInt16 → Bool
  /-- `PosMatcher::IsJapanesePunctuations`. -/
  isJapanesePunctuations : UInt16 → Bool
  /-- `PosGroup::GetPosGroup`. -/
  getPosGroup : UInt16 → UInt8
  /-- `Util::GetScriptType`. -/
  getScriptType : ByteString → ScriptType

variable (M : Modules)

/-! ## The storage -/

def kLruSize : Nat := 20000
def kMaxCandidatesSize : Nat := 255
def kMaxRerankSize : Nat := 5
def kRevertCacheSize : Nat := 16

/-- An item of the storage: four bytes of value, and when it was used last. -/
structure Item where
  value : UInt32
  lastAccessTime : UInt32
  deriving DecidableEq, Repr

/-- The items by the fingerprints of their keys. -/
abbrev LruStorage := LruMap UInt64 Item kLruSize

/-- `FeatureValue`: the first bit is set. -/
def featureValue : UInt32 := 1

/-- `FeatureValue::IsValid`. -/
def isFeatureValue (value : UInt32) : Bool := value &&& 1 == 1

/-- `KeyTriggerValue`: the first bit is not set, and the last eight count the
candidates. -/
def keyTriggerValue (candidatesSize : Nat) : UInt32 :=
  UInt32.ofNat (min candidatesSize kMaxCandidatesSize) <<< 24

/-! ## Features -/

def strJoinWithTabs (strings : List ByteString) : ByteString :=
  List.intercalate (ascii "\t") strings

/-- The first candidate that was the best one before learning. -/
def getDefaultCandidateIndex (segment : Segment) : Nat :=
  ((segment.candidates.take (kMaxRerankSize + 1)).findIdx? fun candidate =>
    candidate.has kBestCandidate).getD 0

def defaultCandidate (segment : Segment) : Candidate :=
  segment.candidate (getDefaultCandidateIndex segment)

/-! `FeatureKey`: a feature that does not apply is empty. -/

section FeatureKey

variable (segments : Segments) (index : Nat) (baseKey baseValue : ByteString)

def leftRight : ByteString :=
  if index + 1 ≥ segments.segments.length ∨ index = 0 then []
  else strJoinWithTabs [ascii "LR", baseKey, (defaultCandidate (segments.segment (index - 1))).value,
    baseValue, (defaultCandidate (segments.segment (index + 1))).value]

def leftLeft : ByteString :=
  if index < 2 then []
  else strJoinWithTabs [ascii "LL", baseKey, (defaultCandidate (segments.segment (index - 2))).value,
    (defaultCandidate (segments.segment (index - 1))).value, baseValue]

def rightRight : ByteString :=
  if index + 2 ≥ segments.segments.length then []
  else strJoinWithTabs [ascii "RR", baseKey, baseValue,
    (defaultCandidate (segments.segment (index + 1))).value,
    (defaultCandidate (segments.segment (index + 2))).value]

def left : ByteString :=
  if index < 1 then []
  else strJoinWithTabs [ascii "L", baseKey, (defaultCandidate (segments.segment (index - 1))).value,
    baseValue]

def right : ByteString :=
  if index + 1 ≥ segments.segments.length then []
  else strJoinWithTabs [ascii "R", baseKey, baseValue,
    (defaultCandidate (segments.segment (index + 1))).value]

def current : ByteString := strJoinWithTabs [ascii "C", baseKey, baseValue]

def single : ByteString :=
  if segments.conversionSegmentsSize ≠ 1 then []
  else strJoinWithTabs [ascii "S", baseKey, baseValue]

def leftNumber : ByteString :=
  if index < 1 then []
  else
    let candidate := defaultCandidate (segments.segment (index - 1))
    if M.isNumber candidate.rid || M.isKanjiNumber candidate.rid ||
        M.getScriptType candidate.value == .number then
      strJoinWithTabs [ascii "LN", baseKey, baseValue]
    else []

def rightNumber : ByteString :=
  if index + 1 ≥ segments.segments.length then []
  else
    let candidate := defaultCandidate (segments.segment (index + 1))
    if M.isNumber candidate.lid || M.isKanjiNumber candidate.lid ||
        M.getScriptType candidate.value == .number then
      strJoinWithTabs [ascii "RN", baseKey, baseValue]
    else []

/-- The features of a key and a value that depend on the other segments. -/
def contextFeatures : List ByteString :=
  [leftRight segments index baseKey baseValue, leftLeft segments index baseKey baseValue,
    rightRight segments index baseKey baseValue, left segments index baseKey baseValue,
    right segments index baseKey baseValue, leftNumber M segments index baseKey baseValue,
    rightNumber M segments index baseKey baseValue, single segments baseKey baseValue]

end FeatureKey

/-- The feature of a style of numbers, with the style in decimal digits. -/
def number (style : NumberStyle) : ByteString :=
  strJoinWithTabs [ascii "N", (Nat.toDigits 10 style.toNat).map fun c => UInt8.ofNat c.toNat]

/-! ## Scores -/

structure Score where
  score : UInt32 := 0
  lastAccessTime : UInt32 := 0
  deriving DecidableEq, Repr

/-- `Score::Update`. -/
def Score.update (score other : Score) : Score where
  score := max score.score other.score
  lastAccessTime := max score.lastAccessTime other.lastAccessTime

/-- `UserSegmentHistoryRewriter::Fetch`. -/
def fetch (s : LruStorage) (key : ByteString) (weight : UInt32) : Score :=
  if key = [] then {}
  else
    match s.lookup (M.fingerprint key) with
    | none => {}
    | some item => if isFeatureValue item.value then ⟨weight, item.lastAccessTime⟩ else {}

def isT13NCandidate (candidate : Candidate) : Bool := candidate.lid == 0 && candidate.rid == 0

/-- `UserSegmentHistoryRewriter::Replaceable`. -/
def replaceable (best target : Candidate) : Bool :=
  best.functionalValue == target.functionalValue &&
    (M.getPosGroup best.lid == M.getPosGroup target.lid || isT13NCandidate best ||
      isT13NCandidate target)

/-- The features `GetScore` reads for a candidate, with their weights. -/
def scoreFetches (segments : Segments) (segmentIndex : Nat) (candidateIndex : Int) :
    List (ByteString × UInt32) :=
  let segment := segments.segment segmentIndex
  let segmentsSize := segments.conversionSegmentsSize
  let topCandidate := segment.candidate 0
  let candidate := segment.candidate candidateIndex
  let allKey := segment.key
  let allValue := candidate.value
  let contentKey := candidate.contentKey
  let contentValue := candidate.contentValue
  let contextSensitive := segments.resized || candidate.has kContextSensitive ||
    topCandidate.has kContextSensitive
  let trigramWeight : UInt32 := if segmentsSize = 3 then 180 else 30
  let bigramWeight : UInt32 := if segmentsSize = 2 then 60 else 10
  let bigramNumberWeight : UInt32 := if segmentsSize = 2 then 50 else 8
  let unigramWeight : UInt32 := if segmentsSize = 1 then 36 else 6
  let singleWeight : UInt32 := if segmentsSize = 1 then 90 else 15
  let isReplaceable := replaceable M topCandidate candidate
  [(leftRight segments segmentIndex allKey allValue, trigramWeight),
    (leftLeft segments segmentIndex allKey allValue, trigramWeight),
    (rightRight segments segmentIndex allKey allValue, trigramWeight),
    (left segments segmentIndex allKey allValue, bigramWeight),
    (right segments segmentIndex allKey allValue, bigramWeight),
    (single segments allKey allValue, singleWeight),
    (leftNumber M segments segmentIndex contentKey contentValue, bigramNumberWeight),
    (rightNumber M segments segmentIndex contentKey contentValue, bigramNumberWeight)] ++
  (if !contextSensitive && isReplaceable then [(current allKey allValue, unigramWeight)] else []) ++
  (if !isReplaceable then []
  else
    [(leftRight segments segmentIndex contentKey contentValue, trigramWeight / 2),
      (leftLeft segments segmentIndex contentKey contentValue, trigramWeight / 2),
      (rightRight segments segmentIndex contentKey contentValue, trigramWeight / 2),
      (left segments segmentIndex contentKey contentValue, bigramWeight / 2),
      (right segments segmentIndex contentKey contentValue, bigramWeight / 2),
      (single segments contentKey contentValue, singleWeight / 2),
      (leftNumber M segments segmentIndex contentKey contentValue, bigramNumberWeight / 2),
      (rightNumber M segments segmentIndex contentKey contentValue, bigramNumberWeight / 2)] ++
    (if !contextSensitive then [(current contentKey contentValue, unigramWeight / 2)] else []))

/-- `UserSegmentHistoryRewriter::GetScore`. -/
def getScore (s : LruStorage) (segments : Segments) (segmentIndex : Nat) (candidateIndex : Int) :
    Score :=
  (scoreFetches M segments segmentIndex candidateIndex).foldl
    (fun score feature => score.update (fetch M s feature.1 feature.2)) {}

/-! ## Forgetting a candidate -/

/-- `UserSegmentHistoryRewriter::DeleteEntry`. -/
def deleteEntry (s : LruStorage) (key : ByteString) : LruStorage × Bool :=
  match s.lookup (M.fingerprint key) with
  | none => (s, false)
  | some _ => (s.erase (M.fingerprint key), true)

/-- The features that `ClearHistoryEntry` deletes.  It takes the candidate at the top,
whichever one is asked for. -/
def clearedFeatures (segments : Segments) (segmentIndex : Nat) : List ByteString :=
  let candidate := (segments.segment segmentIndex).candidate 0
  contextFeatures M segments segmentIndex candidate.key candidate.value ++
    [current candidate.key candidate.value]

/-- `UserSegmentHistoryRewriter::ClearHistoryEntry`. -/
def clearHistoryEntry (s : LruStorage) (segments : Segments) (segmentIndex : Nat)
    (_candidateIndex : Int) : LruStorage × Bool :=
  (clearedFeatures M segments segmentIndex).foldl
    (fun state key =>
      let deleted := deleteEntry M state.1 key
      (deleted.1, state.2 || deleted.2)) (s, false)

/-! ## The calls of a finished conversion -/

/-- One call of the storage while a conversion is finished.  A feature that was not
chosen by hand is only refreshed. -/
inductive StorageCall
  /-- `InsertTriggerKey`: a key with the number of its candidates. -/
  | trigger (key : ByteString) (candidatesSize : Nat)
  /-- `Insert`: a feature of a value, with the range of the committed value it stands
  for. -/
  | feature (key value : ByteString) (valueBegin valueEnd : Nat) (force : Bool)
  deriving DecidableEq, Repr

/-- `RevertEntry`. -/
structure RevertEntry where
  key : ByteString
  value : ByteString
  valueBegin : Nat
  valueEnd : Nat
  deriving DecidableEq, Repr

/-- `PendingRevert`. -/
structure PendingRevert where
  entries : List RevertEntry := []
  committedValue : ByteString := []

/-- `ConversionRequest::RequestType`, as far as it is told apart. -/
inductive RequestType
  | conversion | other
  deriving DecidableEq, Repr

/-- `config::Config::HistoryLearningLevel`. -/
inductive HistoryLearningLevel
  | defaultHistory | readOnly | noHistory
  deriving DecidableEq, Repr

/-- What the rewriter reads of a `ConversionRequest`. -/
structure ConversionRequest where
  requestType : RequestType := .conversion
  key : ByteString := []
  precedingText : ByteString := []
  incognitoMode : Bool := false
  enableUserHistoryForConversion : Bool := true
  mixedConversion : Bool := false
  disableLegacyRewriterMode : UInt32 := 0
  kanaModifierInsensitiveConversion : Bool := false
  historyLearningLevel : HistoryLearningLevel := .defaultHistory

def kDisableUserSegmentHistory : UInt32 := 1

/-- `UserSegmentHistoryRewriter::IsAvailable`, where there is a storage. -/
def isAvailable (request : ConversionRequest) (segments : Segments) : Bool :=
  !request.incognitoMode && request.enableUserHistoryForConversion &&
    segments.segments.all (fun segment => segment.candidates != []) &&
    !(request.mixedConversion &&
      request.disableLegacyRewriterMode &&& kDisableUserSegmentHistory != 0)

def isPunctuationInternal (str : ByteString) : Bool :=
  [[0xE3, 0x80, 0x82], [0xEF, 0xBD, 0xA1], [0xE3, 0x80, 0x81], [0xEF, 0xBD, 0xA4],
    [0xEF, 0xBC, 0x8C], ascii ",", [0xEF, 0xBC, 0x8E], ascii "."].contains str

/-- `UserSegmentHistoryRewriter::IsPunctuation`. -/
def isPunctuation (segment : Segment) (candidate : Candidate) : Bool :=
  M.isJapanesePunctuations candidate.lid && candidate.lid == candidate.rid &&
    isPunctuationInternal segment.key && isPunctuationInternal candidate.value

/-- `IsNumberSegment`: the key consists of digits. -/
def isNumberSegment (segment : Segment) : Bool :=
  segment.key != [] && segment.key.all fun c => decide (0x30 ≤ c) && decide (c ≤ 0x39)

/-- `kSortedBrackets`, each pair as the opening and the closing one. -/
def kSortedBrackets : List (ByteString × ByteString) :=
  [([0x28], [0x29]), ([0x5B], [0x5D]), ([0x7B], [0x7D]),
    ([0xC2, 0xAB], [0xC2, 0xBB]),
    ([0xE2, 0x80, 0x98], [0xE2, 0x80, 0x99]), ([0xE2, 0x80, 0x9C], [0xE2, 0x80, 0x9D]),
    ([0xE2, 0x80, 0xB9], [0xE2, 0x80, 0xBA]),
    ([0xE3, 0x80, 0x88], [0xE3, 0x80, 0x89]), ([0xE3, 0x80, 0x8A], [0xE3, 0x80, 0x8B]),
    ([0xE3, 0x80, 0x8C], [0xE3, 0x80, 0x8D]), ([0xE3, 0x80, 0x8E], [0xE3, 0x80, 0x8F]),
    ([0xE3, 0x80, 0x90], [0xE3, 0x80, 0x91]), ([0xE3, 0x80, 0x94], [0xE3, 0x80, 0x95]),
    ([0xE3, 0x80, 0x98], [0xE3, 0x80, 0x99]), ([0xE3, 0x80, 0x9A], [0xE3, 0x80, 0x9B]),
    ([0xE3, 0x80, 0x9D], [0xE3, 0x80, 0x9F]),
    ([0xEF, 0xBC, 0x88], [0xEF, 0xBC, 0x89]), ([0xEF, 0xBC, 0xBB], [0xEF, 0xBC, 0xBD]),
    ([0xEF, 0xBD, 0x9B], [0xEF, 0xBD, 0x9D]), ([0xEF, 0xBD, 0xA2], [0xEF, 0xBD, 0xA3])]

/-- `Util::IsOpenBracket`: the closing bracket. -/
def isOpenBracket (key : ByteString) : Option ByteString := kSortedBrackets.lookup key

/-- `UserSegmentHistoryRewriter::InsertTriggerKey`. -/
def insertTriggerKey (segment : Segment) : List StorageCall :=
  let candidate := segment.candidate 0
  let size := segment.candidates.length
  if !candidate.has kReranked then []
  else
    [.trigger segment.key size] ++
    (if segment.key ≠ candidate.contentKey then [.trigger candidate.contentKey size] else []) ++
    (match isOpenBracket segment.key with
    | none => []
    | some closeBracketKey => [.trigger closeBracketKey size])

/-- `UserSegmentHistoryRewriter::RememberNumberPreference`.  The range of a number starts
at zero, wherever the number stands. -/
def rememberNumberPreference (segment : Segment) : List StorageCall :=
  let candidate := segment.candidate 0
  (if candidate.style = .numberSeparatedArabicHalfwidth ∨
      candidate.style = .numberSeparatedArabicFullwidth then
    [.feature (number .defaultStyle) candidate.value 0 candidate.value.length true]
  else []) ++
  [.feature (number candidate.style) candidate.value 0 candidate.value.length true]

/-- The features of a key and a value, all for one range of the committed value. -/
def rememberFeatures (segments : Segments) (segmentIndex : Nat) (key value : ByteString)
    (valueBegin valueEnd : Nat) (force rememberCurrent : Bool) : List StorageCall :=
  (contextFeatures M segments segmentIndex key value).map
    (fun feature => .feature feature value valueBegin valueEnd force) ++
  (if rememberCurrent then [.feature (current key value) value valueBegin valueEnd force] else [])

/-- `UserSegmentHistoryRewriter::RememberFirstCandidate`. -/
def rememberFirstCandidate (segments : Segments) (segmentIndex valueBegin valueEnd : Nat) :
    List StorageCall :=
  let segment := segments.segment segmentIndex
  let candidate := segment.candidate 0
  if isPunctuation M segment candidate then []
  else
    let contextSensitive := segments.resized || candidate.has kContextSensitive
    let allValue := candidate.value
    let contentValue := candidate.contentValue
    let allKey := segment.key
    let contentKey := candidate.contentKey
    let forceInsert := candidate.has kReranked
    let topIndex := getDefaultCandidateIndex segment
    let isReplaceableWithTop := topIndex == 0 || replaceable M (segment.candidate topIndex) candidate
    rememberFeatures M segments segmentIndex allKey allValue valueBegin valueEnd forceInsert
      (!contextSensitive && isReplaceableWithTop) ++
    (if allValue ≠ contentValue ∧ allKey ≠ contentKey ∧ isReplaceableWithTop then
      rememberFeatures M segments segmentIndex contentKey contentValue valueBegin
        (valueBegin + contentValue.length) forceInsert (!contextSensitive)
    else []) ++
    (match isOpenBracket contentKey, isOpenBracket contentValue with
    | some closeBracketKey, some closeBracketValue =>
        let closeEnd := valueBegin + closeBracketValue.length
        [.feature (single segments closeBracketKey closeBracketValue) closeBracketValue valueBegin
          closeEnd forceInsert] ++
        (if !contextSensitive then
          [.feature (current closeBracketKey closeBracketValue) closeBracketValue valueBegin
            closeEnd forceInsert]
        else [])
    | _, _ => [])

/-- The segments of the inner segments of a candidate.  The first and the last one get
the ids of the candidate. -/
def expandInnerSegments (segmentType : SegmentType) (candidate : Candidate) (size : Nat) :
    Nat → List InnerSegment → List Segment
  | _, [] => []
  | index, inner :: rest =>
      let ids : UInt16 :=
        if index = 0 then candidate.lid else if index + 1 = size then candidate.rid else 0
      { segmentType, key := inner.key,
        candidates := [{ attributes := candidate.attributes, key := inner.key,
                         contentKey := inner.contentKey, value := inner.value,
                         contentValue := inner.contentValue, lid := ids, rid := ids }] }
        :: expandInnerSegments segmentType candidate size (index + 1) rest

/-- `UserSegmentHistoryRewriter::MakeLearningSegmentsFromInnerSegments`. -/
def makeLearningSegmentsFromInnerSegments (segments : Segments) : Segments where
  segments := segments.segments.flatMap fun segment =>
    let candidate := segment.candidate 0
    if candidate.innerSegmentBoundary = [] then [segment]
    else
      expandInnerSegments segment.segmentType candidate
        (innerSegmentsSize candidate.key candidate.value candidate.innerSegmentBoundary) 0
        (innerSegments candidate.key candidate.value candidate.innerSegmentBoundary)

/-- The segments that are learned. -/
def targetSegments (request : ConversionRequest) (segments : Segments) : Segments :=
  if request.mixedConversion then makeLearningSegmentsFromInnerSegments segments else segments

/-- Whether a conversion is learned at all. -/
def Learns (request : ConversionRequest) (segments : Segments) : Prop :=
  request.requestType = .conversion ∧ isAvailable request segments = true ∧
    request.historyLearningLevel = .defaultHistory

instance (request : ConversionRequest) (segments : Segments) : Decidable (Learns request segments) :=
  inferInstanceAs (Decidable (_ ∧ _ ∧ _))

/-- A segment that is skipped, with its text. -/
def isSkipped (segment : Segment) : Bool :=
  segment.candidates == [] || segment.segmentType != .fixedValue ||
    (segment.candidate 0).has kNoHistoryLearning

/-- The calls for each conversion segment from an index on, and the committed value at
the end. -/
def segmentCalls (request : ConversionRequest) (segments : Segments) :
    Nat → ByteString → List Segment → List (List StorageCall) × ByteString
  | _, committedValue, [] => ([], committedValue)
  | index, committedValue, segment :: rest =>
      if isSkipped segment then
        let later := segmentCalls request segments (index + 1) committedValue rest
        ([] :: later.1, later.2)
      else
        let valueBegin := committedValue.length
        let committedValue := committedValue ++ (segment.candidate 0).value
        let valueEnd := committedValue.length
        let calls :=
          if isNumberSegment segment && !request.kanaModifierInsensitiveConversion then
            rememberNumberPreference segment
          else
            insertTriggerKey segment ++
              rememberFirstCandidate M segments index valueBegin valueEnd
        let later := segmentCalls request segments (index + 1) committedValue rest
        (calls :: later.1, later.2)

/-- What `Finish` does: the calls for each conversion segment, and the committed value. -/
def finishCalls (request : ConversionRequest) (segments : Segments) :
    List (List StorageCall) × ByteString :=
  if Learns request segments then
    let target := targetSegments request segments
    let size := target.historySegmentsSize
    segmentCalls M request target size [] (target.segments.drop size)
  else ([], [])

/-- The calls in order. -/
def allCalls (request : ConversionRequest) (segments : Segments) : List StorageCall :=
  (finishCalls M request segments).1.flatten

/-! ## Finish and revert -/

variable {M}

/-- `LruStorage::TryInsert`. -/
def tryInsert (s : LruStorage) (fp : UInt64) (item : Item) : LruStorage :=
  match s.lookup fp with
  | none => s
  | some _ => s.insert fp item

variable (M)

/-- One call of the storage, at a time. -/
def storageCall (now : UInt32) (s : LruStorage) : StorageCall → LruStorage
  | .trigger key candidatesSize => s.insert (M.fingerprint key) ⟨keyTriggerValue candidatesSize, now⟩
  | .feature key _ _ _ force =>
      if key = [] then s
      else if force then s.insert (M.fingerprint key) ⟨featureValue, now⟩
      else tryInsert s (M.fingerprint key) ⟨featureValue, now⟩

/-- `UserSegmentHistoryRewriter::MaybeInsertRevertEntry`: a key is written down once, also
one that was stored before. -/
def maybeInsertRevertEntry (entries : List RevertEntry) : StorageCall → List RevertEntry
  | .trigger _ _ => entries
  | .feature key value valueBegin valueEnd _ =>
      if key = [] then entries
      else if entries.any fun entry => entry.key = key then entries
      else entries ++ [⟨key, value, valueBegin, valueEnd⟩]

/-- The keys that `Finish` writes down, with their first ranges. -/
def revertEntries (request : ConversionRequest) (segments : Segments) : List RevertEntry :=
  (allCalls M request segments).foldl maybeInsertRevertEntry []

/-- The rewriter. -/
structure SegmentHistory where
  storage : LruStorage
  revertCache : LruMap UInt64 PendingRevert kRevertCacheSize
  pendingRevert : Option PendingRevert

/-- `UserSegmentHistoryRewriter::Finish`. -/
def finish (state : SegmentHistory) (now : UInt32) (request : ConversionRequest)
    (segments : Segments) : SegmentHistory :=
  { state with
    storage := (allCalls M request segments).foldl (storageCall M now) state.storage
    revertCache :=
      if revertEntries M request segments = [] then state.revertCache
      else state.revertCache.insert segments.revertId
        ⟨revertEntries M request segments, (finishCalls M request segments).2⟩ }

/-- `UserSegmentHistoryRewriter::Revert`. -/
def revert (state : SegmentHistory) (revertId : UInt64) : SegmentHistory :=
  match state.revertCache.lookup revertId with
  | none => state
  | some revertData => { state with pendingRevert := some revertData }

/-- `LongestCommittedPrefixSuffixSize`. -/
def longestCommittedPrefixSuffixSize (committedValue precedingText : ByteString) : Nat :=
  ((List.range (committedValue.length + 1)).reverse.find? fun size =>
    (committedValue.take size).isSuffixOf precedingText).getD 0

/-- The preceding text without the key of the new conversion at its end. -/
def textBefore (request : ConversionRequest) : ByteString :=
  if request.key ≠ [] ∧ request.key <:+ request.precedingText then
    request.precedingText.take (request.precedingText.length - request.key.length)
  else request.precedingText

/-- `UserSegmentHistoryRewriter::MaybeApplyPendingRevert`. -/
def maybeApplyPendingRevert (state : SegmentHistory) (request : ConversionRequest) :
    SegmentHistory :=
  match state.pendingRevert with
  | none => state
  | some pending =>
      let retainedSize :=
        longestCommittedPrefixSuffixSize pending.committedValue (textBefore request)
      { state with
        storage := pending.entries.foldl
          (fun s entry =>
            if entry.key = [] ∨ entry.valueEnd ≤ retainedSize then s
            else s.erase (M.fingerprint entry.key)) state.storage
        pendingRevert := none }

/-- Whether `Rewrite` looks at a pending revert. -/
def AppliesRevert (request : ConversionRequest) : Prop :=
  request.requestType = .conversion ∨ request.key ≠ []

instance (request : ConversionRequest) : Decidable (AppliesRevert request) :=
  inferInstanceAs (Decidable (_ ∨ _))

/-- `UserSegmentHistoryRewriter::Rewrite`, without the order of the candidates: all that
it changes of the rewriter. -/
def rewrite (state : SegmentHistory) (request : ConversionRequest) : SegmentHistory :=
  if AppliesRevert request then maybeApplyPendingRevert M state request else state

end Mozkey.Rewriter
