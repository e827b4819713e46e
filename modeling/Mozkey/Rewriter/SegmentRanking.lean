import Mozkey.Lib.SortedRange
import Mozkey.Rewriter.UserSegmentHistory

/-!
# Ranking the candidates of a segment

The rewriter scores the candidates and the meta candidates of a segment and moves up to five of the
best ones to the front.  A meta candidate, and a value in another character form that is not among
the candidates, is inserted as a new candidate.

Candidates and meta candidates are scored in one loop over a signed index.  For numbers the loop goes
back by the number of meta candidates, for other segments always by the number of transliterations.
-/

namespace Mozkey.Rewriter

open Mozkey.Lib Mozkey.Converter

/-! ## Moving candidates -/

/-- `Segment::insert_candidate`, with what is then assigned to the new candidate. -/
def insertCandidate (segment : Segment) (i : Nat) (candidate : Candidate) : Segment :=
  let i := if i > segment.candidates.length then segment.candidates.length else i
  { segment with candidates := segment.candidates.insertIdx i candidate }

/-- `Segment::move_candidate`: a meta candidate is copied, and all others between the two places move
by one. -/
def moveCandidate (segment : Segment) (oldIdx : Int) (newIdx : Nat) : Segment :=
  match oldIdx with
  | .negSucc metaIdx => insertCandidate segment newIdx (segment.metaCandidates.getD metaIdx {})
  | .ofNat oldIdx =>
      if oldIdx ≥ segment.candidates.length ∨ newIdx ≥ segment.candidates.length ∨
          oldIdx = newIdx then segment
      else
        { segment with
          candidates := (segment.candidates.eraseIdx oldIdx).insertIdx newIdx
            (segment.candidates.getD oldIdx {}) }

/-! ## Character forms -/

def kNoVariantsExpansion : UInt32 := 64
def kNoExtraDescription : UInt32 := 128
def kUserSegmentHistoryRewriter : UInt32 := 131072

/-- `config::Config::CharacterForm`. -/
inductive CharacterForm
  | halfWidth | fullWidth | lastForm | noConversion
  deriving DecidableEq, Repr

/-- What the rewriter asks of the `CharacterFormManager`. -/
structure CharacterFormManager where
  /-- `ConvertConversionString`. -/
  convertConversionString : ByteString → ByteString
  /-- `GetConversionCharacterForm("0")`. -/
  numberForm : CharacterForm

/-- `GetValueByType`. -/
def getValueByType (segment : Segment) (style : NumberStyle) (output : ByteString) : ByteString :=
  ((segment.candidates.find? fun candidate => candidate.style = style).map Candidate.value).getD output

variable (forms : CharacterFormManager)

/-- `NormalizeCandidate`. -/
def normalizeCandidate (segment : Segment) (n : Int) : ByteString :=
  let candidate := segment.candidate n
  if candidate.has kNoVariantsExpansion then candidate.value
  else
    match candidate.style with
    | .defaultStyle => forms.convertConversionString candidate.value
    | .numberSeparatedArabicHalfwidth | .numberSeparatedArabicFullwidth =>
        match forms.numberForm with
        | .fullWidth => getValueByType segment .numberSeparatedArabicFullwidth candidate.value
        | .halfWidth => getValueByType segment .numberSeparatedArabicHalfwidth candidate.value
        | _ => candidate.value
    | _ => candidate.value

/-- `GetSameValueCandidatePosition`. -/
def getSameValueCandidatePosition (segment : Segment) (candidate : Candidate) : Option Int :=
  match segment.candidates.findIdx? fun other => other.value = candidate.value with
  | some i => some (.ofNat i)
  | none =>
      (segment.metaCandidates.findIdx? fun other => other.value = candidate.value).map Int.negSucc

/-! ## Sorting -/

def kScoreGap : UInt32 := 20

/-- `ScoreCandidate`. -/
structure ScoreCandidate where
  score : Score
  candidate : Candidate
  deriving DecidableEq, Repr

/-- `operator>` of scores. -/
def Score.isGreater (a b : Score) : Bool :=
  if a.score = b.score then decide (a.lastAccessTime > b.lastAccessTime) else decide (a.score > b.score)

/-- `std::stable_sort` by descending scores. -/
def sortScores (scores : List ScoreCandidate) : List ScoreCandidate :=
  sortBy (fun a b => a.score.isGreater b.score) scores

/-- The state of the loop of `SortCandidates`. -/
structure SortState where
  segment : Segment
  nextPos : Nat
  seen : List ByteString

/-- The new candidate for a value in another character form. -/
def normalizedCandidate (candidate : Candidate) (normalizedValue : ByteString) : Candidate :=
  { candidate with
    value := normalizedValue
    contentValue := forms.convertConversionString candidate.contentValue
    attributes := candidate.attributes ||| kNoExtraDescription }

/-- One round of the loop, or nothing where the candidate is not found. -/
def sortCandidate (state : SortState) (candidate : Candidate) : Option SortState :=
  match getSameValueCandidatePosition state.segment candidate with
  | none => none
  | some oldPosition =>
      let normalizedValue := normalizeCandidate forms state.segment oldPosition
      if normalizedValue ≠ candidate.value then
        match state.segment.candidates.findIdx? fun other => other.value = normalizedValue with
        | some pos =>
            if normalizedValue ∈ state.seen then some state
            else some ⟨moveCandidate state.segment (.ofNat pos) state.nextPos, state.nextPos + 1,
              normalizedValue :: state.seen⟩
        | none =>
            some ⟨insertCandidate state.segment state.nextPos
              (normalizedCandidate forms candidate normalizedValue), state.nextPos + 1,
              normalizedValue :: state.seen⟩
      else if candidate.value ∈ state.seen then some state
      else some ⟨moveCandidate state.segment oldPosition state.nextPos, state.nextPos + 1,
        candidate.value :: state.seen⟩

/-- The loop of `SortCandidates`. -/
def sortLoop (topScore : UInt32) : List ScoreCandidate → SortState → Bool × Segment
  | [], state => (true, state.segment)
  | entry :: rest, state =>
      if kScoreGap < topScore - entry.score.score then (true, state.segment)
      else
        match sortCandidate forms state entry.candidate with
        | none => (false, state.segment)
        | some state => sortLoop topScore rest state

/-- `UserSegmentHistoryRewriter::SortCandidates`, of at least one score. -/
def sortCandidates (sortedScores : List ScoreCandidate) (segment : Segment) : Bool × Segment :=
  match sortedScores with
  | [] => (true, segment)
  | top :: rest =>
      sortLoop forms top.score.score ((top :: rest).take kMaxRerankSize) ⟨segment, 0, []⟩

/-! ## Scoring -/

variable (M : Modules)

/-- `transliteration::NUM_T13N_TYPES`. -/
def numT13nTypes : Nat := 11

/-- The index of each round of the scoring loop of `Rewrite`. -/
def scoredIndices (segment : Segment) : List Int :=
  (List.range (segment.candidates.length + segment.metaCandidates.length)).map fun l : Nat =>
    if l ≥ segment.candidates.length then (l : Int) - (segment.candidates.length + numT13nTypes : Nat)
    else l

/-- The index of each round of the scoring loop of `RewriteNumber`. -/
def numberIndices (segment : Segment) : List Int :=
  (List.range (segment.candidates.length + segment.metaCandidates.length)).map fun l : Nat =>
    if l ≥ segment.candidates.length then
      (l : Int) - (segment.candidates.length + segment.metaCandidates.length : Nat)
    else l

/-- The candidates that have a score. -/
def scoreCandidates (s : LruStorage) (segments : Segments) (i : Nat) : List ScoreCandidate :=
  let segment := segments.segment i
  (scoredIndices segment).filterMap fun j =>
    let score := getScore M s segments i j
    if score.score > 0 then some ⟨score, segment.candidate j⟩ else none

/-- The score of a style of numbers; a number that is not separated counts as used before. -/
def numberScore (s : LruStorage) (candidate : Candidate) : Score :=
  let score := fetch M s (number candidate.style) 10
  if score.lastAccessTime > 0 ∧ candidate.style ≠ .numberSeparatedArabicFullwidth ∧
      candidate.style ≠ .numberSeparatedArabicHalfwidth then
    { score with lastAccessTime := score.lastAccessTime - 1 }
  else score

/-- The candidates of a number that have a score. -/
def scoreNumbers (s : LruStorage) (segment : Segment) : List ScoreCandidate :=
  (numberIndices segment).filterMap fun j =>
    let score := numberScore M s (segment.candidate j)
    if score.score ≠ 0 then some ⟨score, segment.candidate j⟩ else none

/-- `UserSegmentHistoryRewriter::RewriteNumber`. -/
def rewriteNumber (s : LruStorage) (segment : Segment) : Bool × Segment :=
  let scores := scoreNumbers M s segment
  if scores = [] then (false, segment) else sortCandidates forms (sortScores scores) segment

/-! ## Rewriting -/

/-- `candidates_size` of a `KeyTriggerValue`, if it is valid. -/
def triggerSize (s : LruStorage) (key : ByteString) : Nat :=
  match s.lookup (M.fingerprint key) with
  | none => 0
  | some item => if item.value &&& 1 = 0 then (item.value >>> 24).toNat else 0

/-- `UserSegmentHistoryRewriter::ShouldRewrite`. -/
def shouldRewrite (s : LruStorage) (segment : Segment) : Bool :=
  segment.candidates != [] &&
    decide (max (triggerSize M s segment.key)
      (if segment.key ≠ (segment.candidate 0).contentKey then
        triggerSize M s (segment.candidate 0).contentKey
      else 0) > 0)

/-- Attributes that are set for the first candidate. -/
def addAttributes (segment : Segment) (flags : UInt32) : Segment :=
  { segment with
    candidates := segment.candidates.modifyHead fun candidate =>
      { candidate with attributes := candidate.attributes ||| flags } }

/-- `UpdateBestCandidateAfterUserSegmentHistoryRewrite`. -/
def updateBestCandidate (segment : Segment) : Segment :=
  addAttributes
    { segment with
      candidates := segment.candidates.map fun candidate =>
        { candidate with attributes := candidate.attributes &&& ~~~kBestCandidate } }
    (kBestCandidate ||| kUserSegmentHistoryRewriter)

/-- The attributes after a segment was sorted. -/
def markSorted (old : Segment) (sorted : Bool) (segment : Segment) : Segment :=
  if sorted = true ∧ (segment.candidate 0).value ≠ (old.candidate 0).value then
    updateBestCandidate segment
  else if sorted = true ∧ (segment.candidate 0).has kBestCandidate = false then
    addAttributes segment kUserSegmentHistoryRewriter
  else segment

/-- What `Rewrite` makes of one segment. -/
def rewriteSegment (s : LruStorage) (request : ConversionRequest) (segments : Segments) (i : Nat) :
    Bool × Segment :=
  let segment := segments.segment i
  if segment.segmentType = .fixedValue then (false, segment)
  else if isPunctuation M segment (segment.candidate 0) then (false, segment)
  else if isNumberSegment segment then
    if request.kanaModifierInsensitiveConversion then (false, segment)
    else rewriteNumber forms M s segment
  else if shouldRewrite M s segment then
    let scores := scoreCandidates M s segments i
    if scores = [] then (false, segment)
    else
      let (sorted, result) := sortCandidates forms (sortScores scores) segment
      (sorted, markSorted segment sorted result)
  else (false, segment)

/-- The marker that is set in advance. -/
def markBest (segments : Segments) : Segments :=
  { segments with segments := segments.segments.map fun segment => addAttributes segment kBestCandidate }

/-- One round of the loop of `Rewrite`. -/
def rewriteStep (s : LruStorage) (request : ConversionRequest) (state : Bool × Segments) (i : Nat) :
    Bool × Segments :=
  let (modified, segment) := rewriteSegment forms M s request state.2 i
  (state.1 || modified, { state.2 with segments := state.2.segments.set i segment })

/-- The indices of the conversion segments. -/
def conversionIndices (segments : Segments) : List Nat :=
  List.range' segments.historySegmentsSize
    (segments.segments.length - segments.historySegmentsSize)

/-- Whether `Rewrite` gets as far as the candidates. -/
def Rewrites (request : ConversionRequest) (segments : Segments) : Prop :=
  isAvailable request segments = true ∧ request.historyLearningLevel ≠ .noHistory

instance (request : ConversionRequest) (segments : Segments) : Decidable (Rewrites request segments) :=
  inferInstanceAs (Decidable (_ ∧ _))

/-- `UserSegmentHistoryRewriter::Rewrite`, behind a pending revert: whether the segments were modified,
and what became of them. -/
def rewriteSegments (s : LruStorage) (request : ConversionRequest) (segments : Segments) :
    Bool × Segments :=
  if Rewrites request segments then
    (conversionIndices segments).foldl (rewriteStep forms M s request) (false, markBest segments)
  else (false, segments)

end Mozkey.Rewriter
