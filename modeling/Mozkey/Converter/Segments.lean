import Mozkey.Converter.InnerSegment

/-!
# Segments and candidates

A conversion is a sequence of segments, each with a key and a list of candidates
for its value.  Segments of the text that was committed before come first.
Transliterations are kept apart as meta candidates, and a candidate with a
negative index is one of them.
-/

namespace Mozkey.Converter

/-! ## Candidates -/

/-! `converter::Attribute` -/

def kBestCandidate : UInt32 := 1
def kReranked : UInt32 := 2
def kNoHistoryLearning : UInt32 := 4
def kContextSensitive : UInt32 := 16

/-- `NumberUtil::NumberString::Style`. -/
inductive NumberStyle
  | defaultStyle
  | numberSeparatedArabicHalfwidth
  | numberSeparatedArabicFullwidth
  | numberArabicAndKanjiHalfwidth
  | numberArabicAndKanjiFullwidth
  | numberKanji
  | numberOldKanji
  | numberRomanCapital
  | numberRomanSmall
  | numberCircled
  | numberKanjiArabic
  | numberHex
  | numberOct
  | numberBin
  | numberSuperscript
  | numberSubscript
  deriving DecidableEq, Repr

/-- The number of a style. -/
def NumberStyle.toNat (style : NumberStyle) : Nat := style.ctorIdx

structure Candidate where
  key : ByteString := []
  value : ByteString := []
  contentKey : ByteString := []
  contentValue : ByteString := []
  lid : UInt16 := 0
  rid : UInt16 := 0
  attributes : UInt32 := 0
  style : NumberStyle := .defaultStyle
  innerSegmentBoundary : List UInt32 := []
  deriving DecidableEq, Repr

/-- `Candidate::functional_value`. -/
def Candidate.functionalValue (candidate : Candidate) : ByteString :=
  candidate.value.drop (min candidate.value.length candidate.contentValue.length)

def Candidate.has (candidate : Candidate) (flag : UInt32) : Bool :=
  candidate.attributes &&& flag != 0

/-! ## Segments -/

/-- `Segment::SegmentType`. -/
inductive SegmentType
  | free | fixedBoundary | fixedValue | submitted | history
  deriving DecidableEq, Repr

structure Segment where
  segmentType : SegmentType := .free
  key : ByteString := []
  candidates : List Candidate := []
  metaCandidates : List Candidate := []
  deriving DecidableEq, Repr

/-- `Segment::is_valid_index`. -/
def Segment.IsValidIndex (segment : Segment) : Int → Prop
  | .ofNat i => i < segment.candidates.length
  | .negSucc i => i < segment.metaCandidates.length

instance (segment : Segment) (i : Int) : Decidable (segment.IsValidIndex i) := by
  cases i <;> exact Nat.decLt _ _

/-- `Segment::meta_candidate`, the first one for an index that is too large. -/
def Segment.metaCandidate (segment : Segment) (i : Nat) : Candidate :=
  segment.metaCandidates.getD (if i ≥ segment.metaCandidates.length then 0 else i) {}

/-- `Segment::candidate`.  A candidate that is not there has no meaning in the source; it
is an empty one here. -/
def Segment.candidate (segment : Segment) : Int → Candidate
  | .ofNat i => segment.candidates.getD i {}
  | .negSucc i => segment.metaCandidate i

structure Segments where
  segments : List Segment := []
  resized : Bool := false
  revertId : UInt64 := 0
  deriving DecidableEq, Repr

/-- `Segments::segment`. -/
def Segments.segment (segments : Segments) (i : Nat) : Segment := segments.segments.getD i {}

/-- `Segments::history_segments_size`. -/
def Segments.historySegmentsSize (segments : Segments) : Nat :=
  (segments.segments.takeWhile fun segment =>
    segment.segmentType = .history || segment.segmentType = .submitted).length

/-- `Segments::conversion_segments_size`. -/
def Segments.conversionSegmentsSize (segments : Segments) : Nat :=
  segments.segments.length - segments.historySegmentsSize

end Mozkey.Converter
