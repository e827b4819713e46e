import Mozkey.Base.TrieMap
import Mozkey.Lib.Alignment

/-!
# The key corrector

`KeyCorrector` rewrites misspellings in a key and keeps two tables of positions, one from the key
to the corrected key and one back.  At each place of the key it tries its rules in turn; what a rule
rewrites, and otherwise one character, is a unit.  Units whose length in bytes stays the same are
aligned byte by byte, other units only where they start.
-/

namespace Mozkey.Converter

open Mozkey.Lib

/-! ## Rules -/

/-- `Util::Utf8ToCodepoint`: the first code point, and the length of its bytes. -/
def utf8ToCodepoint (str : ByteString) : Nat × Nat :=
  match splitFirstChar32 str with
  | none => (0, 0)
  | some (c, rest) => (c, str.length - rest.length)

/-- `Util::GetScriptType(codepoint) == Util::HIRAGANA`. -/
def isHiragana (codepoint : Nat) : Bool :=
  decide (0x3041 ≤ codepoint ∧ codepoint ≤ 0x309F) || codepoint == 0x1B001

/-- A conversion to `uint16_t`. -/
def asUint16 (codepoint : Nat) : Nat := codepoint % 2 ^ 16

/-- The letter that `ん` makes of the letter behind it in `RewriteNN`, or zero. -/
def letterBehindNN (next : Nat) : Nat :=
  if next = 0x3042 then 0x306A
  else if next = 0x3044 then 0x306B
  else if next = 0x3046 then 0x306C
  else if next = 0x3048 then 0x306D
  else if next = 0x304A then 0x306E
  else 0

/-- `RewriteNN`.  A rule gives the length of what it rewrites, and the text that takes its place. -/
def rewriteNN (keyPos : Nat) (front : ByteString) : Option (Nat × ByteString) :=
  if keyPos = 0 then none
  else
    let (codepoint, mblen) := utf8ToCodepoint front
    if codepoint ≠ 0x3093 then none
    else if front.drop mblen = [] then none
    else
      let (nextCodepoint, mblen2) := utf8ToCodepoint (front.drop mblen)
      let outputCodepoint := letterBehindNN (asUint16 nextCodepoint)
      if outputCodepoint ≠ 0 then
        some (mblen + mblen2, codepointToUtf8 codepoint ++ codepointToUtf8 outputCodepoint)
      else none

/-- The loop over a pattern in which `0` stands for any other hiragana: the code points that match,
with their lengths, and what is behind them. -/
def matchPattern (letter : Nat) : List Nat → ByteString → Option (List (Nat × Nat) × ByteString)
  | [], front => some ([], front)
  | pattern :: patterns, front =>
      if front = [] then none
      else
        let (codepoint, mblen) := utf8ToCodepoint front
        if (pattern = 0 ∧ codepoint ≠ letter ∧ isHiragana codepoint = true) ∨
            (pattern = letter ∧ codepoint = letter) then
          (matchPattern letter patterns (front.drop mblen)).map fun (matched, behind) =>
            ((codepoint, mblen) :: matched, behind)
        else none

def kDoubleNNPattern : List Nat := [0x0000, 0x3093, 0x3093]

/-- `RewriteDoubleNN`. -/
def rewriteDoubleNN (_keyPos : Nat) (front : ByteString) : Option (Nat × ByteString) :=
  match matchPattern 0x3093 kDoubleNNPattern front with
  | some ([(first, firstMblen), (_, mblen2), (_, mblen3)], behind) =>
      if behind = [] then none
      else
        let firstChar := asUint16 first
        if firstChar = 0 ∨ firstMblen = 0 then none
        else
          let codepoint := (utf8ToCodepoint behind).1
          if codepoint = 0x3093 then none
          else if codepoint = 0x3042 ∨ codepoint = 0x3044 ∨ codepoint = 0x3046 ∨
              codepoint = 0x3048 ∨ codepoint = 0x304A then
            some (firstMblen + 3, codepointToUtf8 firstChar)
          else
            some (firstMblen + mblen2 + mblen3,
              codepointToUtf8 firstChar ++ codepointToUtf8 0x3093)
  | _ => none

/-- The letter that `に` makes of the small letter behind it in `RewriteNI`, or zero. -/
def letterBehindNI (next : Nat) : Nat :=
  if next = 0x3083 then 0x3084
  else if next = 0x3085 then 0x3086
  else if next = 0x3087 then 0x3088
  else 0

/-- `RewriteNI`. -/
def rewriteNI (_keyPos : Nat) (front : ByteString) : Option (Nat × ByteString) :=
  let (codepoint, mblen) := utf8ToCodepoint front
  if codepoint ≠ 0x306B then none
  else if front.drop mblen = [] then none
  else
    let (nextCodepoint, mblen2) := utf8ToCodepoint (front.drop mblen)
    let outputCodepoint := letterBehindNI (asUint16 nextCodepoint)
    if outputCodepoint ≠ 0 then
      some (mblen + mblen2, codepointToUtf8 0x3093 ++ codepointToUtf8 outputCodepoint)
    else none

/-- `RewriteM`. -/
def rewriteM (keyPos : Nat) (front : ByteString) : Option (Nat × ByteString) :=
  if keyPos = 0 then none
  else
    let (codepoint, mblen) := utf8ToCodepoint front
    if codepoint ≠ 0x006D ∧ codepoint ≠ 0xFF4D then none
    else if front.drop mblen = [] then none
    else
      let (nextCodepoint, mblen2) := utf8ToCodepoint (front.drop mblen)
      let next := asUint16 nextCodepoint
      if next % 3 ≠ 0 ∧ 0x306F ≤ next ∧ next ≤ 0x307D then
        some (mblen + mblen2, codepointToUtf8 0x3093 ++ codepointToUtf8 next)
      else none

def kSmallTSUPattern : List Nat := [0x0000, 0x3063, 0x3063, 0x0000]

/-- `RewriteSmallTSU`.  It adds to a length that the rule tried before it has set to zero. -/
def rewriteSmallTSU (_keyPos : Nat) (front : ByteString) : Option (Nat × ByteString) :=
  match matchPattern 0x3063 kSmallTSUPattern front with
  | some ([(first, mblen1), (_, mblen2), (_, mblen3), (last, mblen4)], _) =>
      let firstChar := asUint16 first
      let lastChar := asUint16 last
      if firstChar = 0 ∨ lastChar = 0 then none
      else
        some (mblen1 + mblen2 + mblen3 + mblen4,
          codepointToUtf8 firstChar ++ codepointToUtf8 0x3063 ++ codepointToUtf8 lastChar)
  | _ => none

/-- `RewriteYu`. -/
def rewriteYu (_keyPos : Nat) (front : ByteString) : Option (Nat × ByteString) :=
  let (firstChar, mblen) := utf8ToCodepoint front
  if firstChar ≠ 0x304D ∧ firstChar ≠ 0x3057 ∧ firstChar ≠ 0x3061 ∧ firstChar ≠ 0x306B ∧
      firstChar ≠ 0x3072 ∧ firstChar ≠ 0x308A then none
  else if front.drop mblen = [] then none
  else
    let (nextChar, mblen2) := utf8ToCodepoint (front.drop mblen)
    if nextChar ≠ 0x3085 then none
    else
      let behind := (front.drop mblen).drop mblen2
      if behind = [] then none
      else if (utf8ToCodepoint behind).1 = 0x3046 then none
      else
        some (mblen + mblen2,
          codepointToUtf8 firstChar ++ codepointToUtf8 nextChar ++ codepointToUtf8 0x3046)

/-- The rules in the order in which `Init` tries them. -/
def rewrite (keyPos : Nat) (front : ByteString) : Option (Nat × ByteString) :=
  (rewriteDoubleNN keyPos front).orElse fun _ =>
  (rewriteNN keyPos front).orElse fun _ =>
  (rewriteYu keyPos front).orElse fun _ =>
  (rewriteNI keyPos front).orElse fun _ =>
  (rewriteSmallTSU keyPos front).orElse fun _ =>
  rewriteM keyPos front

/-! ## The corrector -/

inductive InputMode where
  | roman
  | kana
  deriving DecidableEq, Repr

/-- `KeyCorrector::kMaxSize`. -/
def kMaxKeySize : Nat := 128

/-- `KeyCorrector::kInvalidPos`. -/
def kInvalidPos : Nat := 2 ^ 64 - 1

structure KeyCorrector where
  available : Bool := false
  mode : InputMode := .roman
  correctedKey : ByteString := []
  originalKey : ByteString := []
  alignment : List Nat := []
  revAlignment : List Nat := []
  deriving DecidableEq, Repr

namespace KeyCorrector

/-- What `Init` does at one place of the key: the length of a unit, and the text of the unit. -/
def correctOnce (keyPos : Nat) (isHistory : Bool) (front : ByteString) : Nat × ByteString :=
  let (codepoint, mblen) := utf8ToCodepoint front
  let unchanged := (mblen, codepointToUtf8 codepoint)
  if isHistory then unchanged else (rewrite keyPos front).getD unchanged

/-- What a table gets for one unit. -/
def alignUnit (start length other : Nat) : List Nat :=
  if length = other then (List.range length).map (start + ·)
  else start :: List.replicate (length - 1) kInvalidPos

/-- The loop of `Init`; `none` where it would go on. -/
def initLoop (key : ByteString) (historySize : Nat) :
    Nat → Nat → ByteString → KeyCorrector → Option (Bool × KeyCorrector)
  | _, _, [], corrector => some (true, { corrector with available := true })
  | 0, _, _ :: _, _ => none
  | fuel + 1, keyPos, c :: rest, corrector =>
      let front := c :: rest
      let position := key.length - front.length
      let (mblen, output) :=
        correctOnce keyPos (decide (position < min key.length historySize)) front
      let orgLen := corrector.correctedKey.length
      if output.length ≤ 0 ∧ mblen ≤ 0 then some (false, corrector)
      else
        initLoop key historySize fuel (keyPos + 1) (front.drop mblen)
          { corrector with
            correctedKey := corrector.correctedKey ++ output
            alignment := corrector.alignment ++ alignUnit orgLen mblen output.length
            revAlignment := corrector.revAlignment ++ alignUnit position output.length mblen }

/-- `KeyCorrector::Init`, called by the constructor. -/
def init (fuel : Nat) (key : ByteString) (mode : InputMode) (historySize : Nat) :
    Option (Bool × KeyCorrector) :=
  if mode = .kana then some (false, { mode := mode })
  else if key = [] ∨ kMaxKeySize ≤ key.length then some (false, { mode := mode })
  else initLoop key historySize fuel 0 key { mode := mode, originalKey := key }

/-- `KeyCorrector::GetCorrectedPosition`. -/
def getCorrectedPosition (corrector : KeyCorrector) (originalKeyPos : Nat) : Nat :=
  corrector.alignment.getD originalKeyPos kInvalidPos

/-- `KeyCorrector::GetOriginalPosition`. -/
def getOriginalPosition (corrector : KeyCorrector) (correctedKeyPos : Nat) : Nat :=
  corrector.revAlignment.getD correctedKeyPos kInvalidPos

/-- `KeyCorrector::GetOriginalOffset`, in `size_t`. -/
def getOriginalOffset (corrector : KeyCorrector) (originalKeyPos newKeyOffset : Nat) : Nat :=
  if corrector.available = false then kInvalidPos
  else if corrector.mode = .kana then kInvalidPos
  else
    let correctedKeyPos := corrector.getCorrectedPosition originalKeyPos
    if correctedKeyPos = kInvalidPos then kInvalidPos
    else
      let correctedEnd := (correctedKeyPos + newKeyOffset) % 2 ^ 64
      if corrector.revAlignment.length = correctedEnd then
        (corrector.alignment.length + 2 ^ 64 - corrector.getOriginalPosition correctedKeyPos)
          % 2 ^ 64
      else
        let originalKeyPos2 := corrector.getOriginalPosition correctedEnd
        if originalKeyPos2 = kInvalidPos then kInvalidPos
        else if originalKeyPos ≤ originalKeyPos2 then originalKeyPos2 - originalKeyPos
        else kInvalidPos

end KeyCorrector

end Mozkey.Converter
