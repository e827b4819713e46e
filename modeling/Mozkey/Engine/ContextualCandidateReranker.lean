import Mozkey.Base.Utf8
import Mozkey.Converter.Segments
import Mozkey.Lib.Best

/-!
# The contextual candidate reranker

After a noun the reading に is the particle and not 二.  The reranker looks at segments whose key is
a particle, a compound of particles or an expression with しか, and where the segments around them
look right it moves the candidates in plain kana to the front.  There is one reranker for each kind
of key, and no key is of two kinds.

Costs are ints, and their sums wrap around.
-/

namespace Mozkey.Engine.ContextualCandidateReranker

open Mozkey.Lib Mozkey.Converter

/-! ## Texts -/

/-- `Util::GetScriptType` of a code point. -/
def getScriptType (codepoint : Nat) : ScriptType :=
  let inRange (least most : Nat) : Bool := least ≤ codepoint && codepoint ≤ most
  if inRange 0x0030 0x0039 || inRange 0xFF10 0xFF19 then .number
  else if inRange 0x0041 0x005A || inRange 0x0061 0x007A || inRange 0xFF21 0xFF3A ||
      inRange 0xFF41 0xFF5A then .alphabet
  else if codepoint == 0x3005 || inRange 0x3400 0x4DBF || inRange 0x4E00 0x9FFF ||
      inRange 0xF900 0xFAFF || inRange 0x20000 0x2A6DF || inRange 0x2A700 0x2B73F ||
      inRange 0x2B740 0x2B81F || inRange 0x2F800 0x2FA1F then .kanji
  else if inRange 0x3041 0x309F || codepoint == 0x1B001 then .hiragana
  else if inRange 0x30A1 0x30FF || inRange 0x31F0 0x31FF || inRange 0xFF65 0xFF9F ||
      codepoint == 0x1B000 then .katakana
  else if inRange 0x02300 0x023F3 || inRange 0x02700 0x027BF || inRange 0x1F000 0x1F02F ||
      inRange 0x1F030 0x1F09F || inRange 0x1F0A0 0x1F0FF || inRange 0x1F100 0x1F2FF ||
      inRange 0x1F200 0x1F2FF || inRange 0x1F300 0x1F5FF || inRange 0x1F600 0x1F64F ||
      inRange 0x1F680 0x1F6FF || inRange 0x1F700 0x1F77F || codepoint == 0x26CE then .emoji
  else .unknownScript

def containsScriptType (text : ByteString) (type : ScriptType) : Bool :=
  (char32s text).any fun c => getScriptType c == type

def containsKanji (text : ByteString) : Bool := containsScriptType text .kanji

def containsKatakana (text : ByteString) : Bool := containsScriptType text .katakana

def containsNumber (text : ByteString) : Bool := containsScriptType text .number

def isPureHiragana (text : ByteString) : Bool :=
  text != [] && (char32s text).all fun c => getScriptType c == .hiragana

def isAsciiOrSymbolLike (text : ByteString) : Bool :=
  text != [] && (char32s text).all fun c =>
    getScriptType c == .alphabet || getScriptType c == .number ||
      ['-', '_', '#', '/', '.'].any fun symbol => c == symbol.toNat

def startsWith (text start : ByteString) : Bool := start.isPrefixOf text

def endsWith (text ending : ByteString) : Bool := ending.isSuffixOf text

/-! ## Segments -/

/-- `Candidate`, with the cost. -/
structure Candidate extends Converter.Candidate where
  cost : Int32 := 0
  deriving DecidableEq, Repr

structure Segment where
  segmentType : SegmentType := .free
  key : ByteString := []
  candidates : List Candidate := []
  metaCandidates : List Candidate := []
  deriving DecidableEq, Repr

/-- The segments of `Segments`; what else is in it is not touched. -/
abbrev Segments := List Segment

def Segments.historySegmentsSize (segments : Segments) : Nat :=
  (segments.takeWhile fun segment =>
    segment.segmentType = .history || segment.segmentType = .submitted).length

def Segments.conversionSegmentsSize (segments : Segments) : Nat :=
  segments.length - segments.historySegmentsSize

/-- `segment(i)`.  A segment that is not there has no meaning in the source. -/
def Segments.segment (segments : Segments) (i : Nat) : Segment := segments.getD i {}

/-- `conversion_segment(i)`. -/
def Segments.conversionSegment (segments : Segments) (i : Nat) : Segment :=
  segments.segment (segments.historySegmentsSize + i)

/-- `candidate(0).value`, where there is a candidate. -/
def Segment.topValue (segment : Segment) : ByteString := (segment.candidates.headD {}).value

/-! ## Particles -/

def isParticleReading (key : ByteString) : Bool :=
  ['に', 'を', 'が', 'は', 'へ', 'で', 'と', 'の', 'も'].any fun c => key == utf8 [c]

def isFunctionalParticleExpressionKey (key : ByteString) : Bool :=
  [['に', 'は'], ['に', 'も'], ['で', 'は'], ['で', 'も'], ['と', 'は']].any fun text =>
    key == utf8 text

/-- The surface of a candidate is the key. -/
def isPlain (segment : Segment) (candidate : Candidate) : Bool :=
  candidate.value == segment.key && candidate.contentValue == segment.key

def isPlainParticleSurfaceCandidate (segment : Segment) (candidate : Candidate) : Bool :=
  isParticleReading segment.key && isPlain segment candidate

def isSuspiciousHomophoneForParticle (segment : Segment) (candidate : Candidate) : Bool :=
  isParticleReading segment.key && !isPlainParticleSurfaceCandidate segment candidate

def isFunctionalParticleExpressionCandidate (segment : Segment) (candidate : Candidate) : Bool :=
  isFunctionalParticleExpressionKey segment.key && isPlain segment candidate

def isSuspiciousCandidateForFunctionalParticleExpression (segment : Segment)
    (candidate : Candidate) : Bool :=
  isFunctionalParticleExpressionKey segment.key &&
    !isFunctionalParticleExpressionCandidate segment candidate

def particleBonus (key : ByteString) : Int32 :=
  if ['に', 'を', 'が', 'へ', 'で'].any fun c => key == utf8 [c] then 5000
  else if ['は', 'も'].any fun c => key == utf8 [c] then 4000
  else if ['と', 'の'].any fun c => key == utf8 [c] then 2500
  else 0

def functionalParticleExpressionBonus (key : ByteString) : Int32 :=
  if [['に', 'は'], ['に', 'も']].any fun text => key == utf8 text then 5000
  else if [['で', 'は'], ['で', 'も']].any fun text => key == utf8 text then 4000
  else if key == utf8 ['と', 'は'] then 3500
  else 0

def hasHistorySegment (segments : Segments) : Bool :=
  !segments.isEmpty && (segments.segment 0).segmentType == .history &&
    !(segments.segment 0).candidates.isEmpty

/-- `PreviousContextLooksNounLike`. -/
def previousContextLooksNounLike (segments : Segments) (conversionIndex : Nat) : Bool :=
  if conversionIndex = 0 then
    hasHistorySegment segments && (segments.segment 0).topValue != []
  else
    let previous := segments.conversionSegment (conversionIndex - 1)
    !previous.candidates.isEmpty && previous.topValue != [] &&
      (containsKanji previous.topValue || containsKatakana previous.topValue ||
        isAsciiOrSymbolLike previous.topValue)

/-- `NextContextLooksPhraseContinuation`. -/
def nextContextLooksPhraseContinuation (segments : Segments) (conversionIndex : Nat) : Bool :=
  if conversionIndex + 1 ≥ segments.conversionSegmentsSize then true
  else
    let next := segments.conversionSegment (conversionIndex + 1)
    !next.candidates.isEmpty && next.topValue != [] &&
      (containsKatakana next.topValue || containsKanji next.topValue ||
        isPureHiragana next.topValue)

/-! ## Expressions with しか -/

/-- `IsCounterLikeValue`. -/
def isCounterLikeValue (value : ByteString) : Bool :=
  value != [] && ['名', '人', '者', '件', '個', 'つ', '回', '社', '点', '円', '年', '月', '日', '時',
    '分', '秒', '本', '枚', '台', '冊', '通', '行', '匹', '頭', '羽'].any fun c =>
      endsWith value (utf8 [c])

def isShikaIruPrefixKey (key : ByteString) : Bool := startsWith key (utf8 ['し', 'か', 'い'])

def isShikaExplicitNegativePrefixKey (key : ByteString) : Bool :=
  startsWith key (utf8 ['し', 'か', 'な']) || startsWith key (utf8 ['し', 'か', 'あ', 'り']) ||
    startsWith key (utf8 ['し', 'か', 'お'])

/-- `PreviousValueLooksShikaCompatible`. -/
def previousValueLooksShikaCompatible (value currentKey : ByteString) : Bool :=
  if value = [] then false
  else if endsWith value (utf8 ['の']) && isShikaIruPrefixKey currentKey then false
  else if containsNumber value || isCounterLikeValue value then true
  else containsKanji value || containsKatakana value || isAsciiOrSymbolLike value

/-- `PreviousContextLooksShikaCompatible`. -/
def previousContextLooksShikaCompatible (segments : Segments) (conversionIndex : Nat)
    (currentKey : ByteString) : Bool :=
  if conversionIndex = 0 then
    hasHistorySegment segments &&
      previousValueLooksShikaCompatible (segments.segment 0).topValue currentKey
  else
    let previous := segments.conversionSegment (conversionIndex - 1)
    !previous.candidates.isEmpty && previousValueLooksShikaCompatible previous.topValue currentKey

def isShikaParticleLikeKey (key : ByteString) : Bool :=
  key == utf8 ['し', 'か'] || endsWith key (utf8 ['し', 'か'])

def isShikaNegativePrefixKey (key : ByteString) : Bool :=
  isShikaIruPrefixKey key || isShikaExplicitNegativePrefixKey key

/-- `IsShikaFunctionalCandidate`. -/
def isShikaFunctionalCandidate (segment : Segment) (candidate : Candidate) : Bool :=
  let shika := utf8 ['し', 'か']
  if isShikaParticleLikeKey segment.key then
    endsWith candidate.value shika && endsWith candidate.contentValue shika
  else
    isShikaNegativePrefixKey segment.key && startsWith candidate.value shika &&
      startsWith candidate.contentValue shika && isPureHiragana candidate.value

/-- `IsSuspiciousCandidateForShikaNegative`. -/
def isSuspiciousCandidateForShikaNegative (segment : Segment) (candidate : Candidate) : Bool :=
  !isShikaFunctionalCandidate segment candidate &&
    (isShikaParticleLikeKey segment.key || isShikaNegativePrefixKey segment.key) &&
      (containsKanji candidate.value || containsKatakana candidate.value ||
        containsNumber candidate.value || !isPureHiragana candidate.value)

def shikaNegativeBonus (key : ByteString) : Int32 :=
  if isShikaNegativePrefixKey key then 7000 else if isShikaParticleLikeKey key then 5000 else 0

/-! ## Reranking -/

structure CandidateScore where
  index : Nat
  adjustedCost : Int

/-- The candidates in the order of their adjusted costs, unless the first one stays the first. -/
def reorder (adjustedCost : Candidate → Int) (candidates : List Candidate) : List Candidate :=
  let scores := sortBy (fun lhs rhs : CandidateScore => lhs.adjustedCost < rhs.adjustedCost)
    (candidates.zipIdx.map fun entry => ⟨entry.2, adjustedCost entry.1⟩)
  match scores with
  | [] => candidates
  | first :: _ =>
      if first.index = 0 then candidates
      else scores.map fun score => candidates.getD score.index {}

/-- What the rerankers differ in: the keys, the contexts, the candidates that are moved to the
front and to the back, and how far. -/
structure Reranker where
  handles : ByteString → Bool
  previousFits : Segments → Nat → ByteString → Bool
  nextFits : Segments → Nat → Bool
  isFunctional : Segment → Candidate → Bool
  isSuspicious : Segment → Candidate → Bool
  bonus : ByteString → Int32

namespace Reranker

def adjustedCost (reranker : Reranker) (segment : Segment) (candidate : Candidate) : Int :=
  let cost :=
    if reranker.isFunctional segment candidate then candidate.cost - reranker.bonus segment.key
    else if reranker.isSuspicious segment candidate then
      candidate.cost + reranker.bonus segment.key
    else candidate.cost
  cost.toInt

def rerankSegment (reranker : Reranker) (segments : Segments) (conversionIndex : Nat)
    (segment : Segment) : Segment :=
  if !reranker.handles segment.key then segment
  else if segment.candidates.length ≤ 1 then segment
  else if !reranker.previousFits segments conversionIndex segment.key then segment
  else if !reranker.nextFits segments conversionIndex then segment
  else if !segment.candidates.any (reranker.isFunctional segment) then segment
  else
    { segment with candidates := reorder (reranker.adjustedCost segment) segment.candidates }

end Reranker

def particleReranker : Reranker where
  handles := isParticleReading
  previousFits segments i _ := previousContextLooksNounLike segments i
  nextFits := nextContextLooksPhraseContinuation
  isFunctional := isPlainParticleSurfaceCandidate
  isSuspicious := isSuspiciousHomophoneForParticle
  bonus := particleBonus

def functionalParticleExpressionReranker : Reranker where
  handles := isFunctionalParticleExpressionKey
  previousFits segments i _ := previousContextLooksNounLike segments i
  nextFits _ _ := true
  isFunctional := isFunctionalParticleExpressionCandidate
  isSuspicious := isSuspiciousCandidateForFunctionalParticleExpression
  bonus := functionalParticleExpressionBonus

def shikaReranker : Reranker where
  handles key := isShikaParticleLikeKey key || isShikaNegativePrefixKey key
  previousFits := previousContextLooksShikaCompatible
  nextFits _ _ := true
  isFunctional := isShikaFunctionalCandidate
  isSuspicious := isSuspiciousCandidateForShikaNegative
  bonus := shikaNegativeBonus

/-- `RerankParticleSegmentAfterContext`. -/
def rerankParticleSegmentAfterContext := particleReranker.rerankSegment

/-- `RerankFunctionalParticleExpressionAfterContext`. -/
def rerankFunctionalParticleExpressionAfterContext :=
  functionalParticleExpressionReranker.rerankSegment

/-- `RerankShikaNegativeExpressionAfterContext`. -/
def rerankShikaNegativeExpressionAfterContext := shikaReranker.rerankSegment

/-- A reranker changes a conversion segment in its place. -/
def inPlace (rerankSegment : Segments → Nat → Segment → Segment) (conversionIndex : Nat)
    (segments : Segments) : Segments :=
  segments.modify (segments.historySegmentsSize + conversionIndex)
    (rerankSegment segments conversionIndex)

/-- What the loop does with one segment. -/
def rerankConversionSegment (segments : Segments) (conversionIndex : Nat) : Segments :=
  let segments := inPlace rerankParticleSegmentAfterContext conversionIndex segments
  let segments := inPlace rerankFunctionalParticleExpressionAfterContext conversionIndex segments
  inPlace rerankShikaNegativeExpressionAfterContext conversionIndex segments

/-- `ContextualCandidateReranker::Rerank`. -/
def rerank (segments : Segments) : Segments :=
  (List.range segments.conversionSegmentsSize).foldl rerankConversionSegment segments

end Mozkey.Engine.ContextualCandidateReranker
