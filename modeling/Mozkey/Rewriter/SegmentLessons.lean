import Mozkey.Rewriter.ForgetCandidate

/-!
# What a commit teaches

A committed segment teaches words: the whole one, its content word, and what closes
a bracket.  Each word has its kinds of features, and stands for a part of the committed
text, which is made of the values of the segments that are learned.  A segment of digits
teaches styles of numbers instead.

This is told by the places of the segments in the text.  The code walks over them with
the text it has put together, and makes the same calls in the same order.
-/

namespace Mozkey.Rewriter

open Mozkey.Lib Mozkey.Converter

variable (M : Modules)

/-! ## Words -/

/-- A word that is taught, with the end of its part of the committed text. -/
structure TaughtWord where
  key : ByteString
  value : ByteString
  stop : Nat
  kinds : List FeatureKind

/-- The kinds that depend on other segments. -/
def contextKinds : List FeatureKind :=
  [.leftRight, .leftLeft, .rightRight, .left, .right, .leftNumber, .rightNumber, .single]

/-- A word is taught on its own too, unless the context matters. -/
def withCurrent (kinds : List FeatureKind) (alone : Bool) : List FeatureKind :=
  kinds ++ if alone then [.current] else []

/-- The words that a segment at a place of the committed text teaches. -/
def taughtWords (segments : Segments) (index place : Nat) : List TaughtWord :=
  let segment := segments.segment index
  let candidate := segment.candidate 0
  let alone := !(segments.resized || candidate.has kContextSensitive)
  let top := getDefaultCandidateIndex segment
  let likeTop := top == 0 || replaceable M (segment.candidate top) candidate
  [⟨segment.key, candidate.value, place + candidate.value.length,
    withCurrent contextKinds (alone && likeTop)⟩] ++
  (if candidate.value ≠ candidate.contentValue ∧ segment.key ≠ candidate.contentKey ∧ likeTop then
    [⟨candidate.contentKey, candidate.contentValue, place + candidate.contentValue.length,
      withCurrent contextKinds alone⟩]
  else []) ++
  (match isOpenBracket candidate.contentKey, isOpenBracket candidate.contentValue with
  | some closeKey, some closeValue =>
      [⟨closeKey, closeValue, place + closeValue.length, withCurrent [.single] alone⟩]
  | _, _ => [])

/-- The features of a word. -/
def TaughtWord.calls (word : TaughtWord) (segments : Segments) (index place : Nat) (force : Bool) :
    List StorageCall :=
  word.kinds.map fun kind =>
    .feature (featureOf M segments index word.key word.value kind) word.value place word.stop force

theorem rememberFeatures_eq (segments : Segments) (index : Nat) (key value : ByteString)
    (place stop : Nat) (force alone : Bool) :
    rememberFeatures M segments index key value place stop force alone
      = TaughtWord.calls M ⟨key, value, stop, withCurrent contextKinds alone⟩ segments index place
          force := by
  cases alone <;> rfl

/-- The features of the words are what is remembered of a segment. -/
theorem rememberFirstCandidate_eq (segments : Segments) (index place : Nat) :
    rememberFirstCandidate M segments index place
        (place + ((segments.segment index).candidate 0).value.length)
      = if isPunctuation M (segments.segment index) ((segments.segment index).candidate 0) then []
        else (taughtWords M segments index place).flatMap fun word =>
          word.calls M segments index place
            (((segments.segment index).candidate 0).has kReranked) := by
  rw [rememberFirstCandidate]
  refine if_congr Iff.rfl rfl ?_
  rw [taughtWords, List.flatMap_append, List.flatMap_append, List.flatMap_singleton]
  simp only [rememberFeatures_eq]
  congr 1
  · congr 1
    split <;> simp
  · cases isOpenBracket ((segments.segment index).candidate 0).contentKey with
    | none => rfl
    | some closeKey =>
        cases isOpenBracket ((segments.segment index).candidate 0).contentValue with
        | none => rfl
        | some closeValue =>
            rw [List.flatMap_singleton]
            generalize (!(segments.resized || _)) = alone
            cases alone <;> rfl

/-! ## Lessons -/

/-- The styles that a number teaches. -/
def taughtStyles (style : NumberStyle) : List NumberStyle :=
  if style = .numberSeparatedArabicHalfwidth ∨ style = .numberSeparatedArabicFullwidth then
    [.defaultStyle, style]
  else [style]

/-- What a segment at a place of the committed text teaches.  The part of a number begins
at zero, wherever the number stands. -/
def lesson (request : ConversionRequest) (segments : Segments) (segment : Segment)
    (index place : Nat) : List StorageCall :=
  let candidate := segment.candidate 0
  if isNumberSegment segment && !request.kanaModifierInsensitiveConversion then
    (taughtStyles candidate.style).map fun style =>
      .feature (number style) candidate.value 0 candidate.value.length true
  else
    insertTriggerKey segment ++
      if isPunctuation M segment candidate then []
      else (taughtWords M segments index place).flatMap fun word =>
        word.calls M segments index place (candidate.has kReranked)

/-- The values of the segments that are learned. -/
def learnedText (segments : List Segment) : ByteString :=
  (segments.filter fun segment => !isSkipped segment).flatMap fun segment =>
    (segment.candidate 0).value

/-- The conversion segments of what is learned. -/
def taughtSegments (request : ConversionRequest) (segments : Segments) : List Segment :=
  if Learns request segments then
    (targetSegments request segments).segments.drop
      (targetSegments request segments).historySegmentsSize
  else []

/-- What each conversion segment teaches.  It stands behind the text of the learned ones in
front of it. -/
def lessons (request : ConversionRequest) (segments : Segments) : List (List StorageCall) :=
  (taughtSegments request segments).zipIdx.map fun entry =>
    if isSkipped entry.1 then []
    else
      lesson M request (targetSegments request segments) entry.1
        ((targetSegments request segments).historySegmentsSize + entry.2)
        (learnedText ((taughtSegments request segments).take entry.2)).length

/-- The committed text. -/
def committedText (request : ConversionRequest) (segments : Segments) : ByteString :=
  learnedText (taughtSegments request segments)

theorem rememberNumberPreference_eq (segment : Segment) :
    rememberNumberPreference segment
      = (taughtStyles (segment.candidate 0).style).map fun style =>
          .feature (number style) (segment.candidate 0).value 0 (segment.candidate 0).value.length
            true := by
  rw [rememberNumberPreference, taughtStyles]
  split <;> rfl

theorem learnedText_append_singleton (segments : List Segment) (segment : Segment) :
    learnedText (segments ++ [segment])
      = learnedText segments ++ if isSkipped segment then [] else (segment.candidate 0).value := by
  rw [learnedText, List.filter_append, List.flatMap_append, ← learnedText]
  cases skipped : isSkipped segment <;> simp [skipped]

/-- The walk behind some segments, by induction on those that are left. -/
theorem segmentCalls_eq (request : ConversionRequest) (target : Segments) (front rest : List Segment)
    (isRest : target.segments.drop target.historySegmentsSize = front ++ rest) :
    segmentCalls M request target (target.historySegmentsSize + front.length) (learnedText front) rest
      = ((rest.zipIdx front.length).map fun entry =>
          if isSkipped entry.1 then []
          else lesson M request target entry.1 (target.historySegmentsSize + entry.2)
            (learnedText ((front ++ rest).take entry.2)).length,
        learnedText (front ++ rest)) := by
  induction rest generalizing front with
  | nil => simp [segmentCalls]
  | cons segment rest ih =>
      have next := ih (front ++ [segment]) (by rw [isRest, List.append_assoc]; rfl)
      rw [learnedText_append_singleton, List.length_append, List.length_singleton, ← Nat.add_assoc,
        List.append_assoc, List.singleton_append] at next
      have isSegment : target.segment (target.historySegmentsSize + front.length) = segment := by
        rw [Segments.segment, List.getD_eq_getElem?_getD, ← List.getElem?_drop, isRest]
        simp
      rw [List.zipIdx_cons, List.map_cons, segmentCalls]
      cases skipped : isSkipped segment with
      | true =>
          rw [skipped, if_pos rfl, List.append_nil] at next
          simp only [if_true, next]
      | false =>
          rw [skipped, if_neg Bool.false_ne_true] at next
          simp only [Bool.false_eq_true, if_false, next, List.take_left]
          refine Prod.ext (List.cons_eq_cons.2 ⟨?_, rfl⟩) rfl
          rw [lesson, rememberNumberPreference_eq, List.length_append, ← isSegment,
            rememberFirstCandidate_eq]

/-- **The calls are the lessons.** -/
theorem finishCalls_eq (request : ConversionRequest) (segments : Segments) :
    finishCalls M request segments = (lessons M request segments, committedText request segments) := by
  rw [finishCalls, lessons, committedText, taughtSegments]
  by_cases learns : Learns request segments
  · rw [if_pos learns, if_pos learns]
    exact segmentCalls_eq M request (targetSegments request segments) [] _ rfl
  · rw [if_neg learns, if_neg learns]
    rfl

end Mozkey.Rewriter
