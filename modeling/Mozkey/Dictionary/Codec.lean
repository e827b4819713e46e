import Mozkey.Base.ByteString

/-!
# The token codec of the system dictionary

A key of the system dictionary owns a block of tokens.  `encodeTokens` writes
the block, one token after another; `decodeToken` reads one token back, and
`readTokenForReverseLookup` reads only its value id and its length.

A token starts with a byte of flags.  Its lower four bits say how the part of
speech and the value are stored.  When the lower six bits are all clear they
carry the top of the value id instead, and the flag `kCrammedIDFlag` says so.
-/

namespace Mozkey.Dictionary

/-! ## Tokens -/

/-- `Token::SPELLING_CORRECTION`. -/
def spellingCorrection : UInt8 := 1

/-- A dictionary token. -/
structure Token where
  key : ByteString
  value : ByteString
  cost : Int
  lid : UInt16
  rid : UInt16
  attributes : UInt8
  deriving DecidableEq, Repr, Inhabited

inductive PosType
  | defaultPos
  | frequentPos
  | sameAsPrevPos
  deriving DecidableEq, Repr, Inhabited

inductive ValueType
  | defaultValue
  | sameAsPrevValue
  | asIsHiragana
  | asIsKatakana
  deriving DecidableEq, Repr, Inhabited

inductive CostType
  | defaultCost
  | canUseSmallEncoding
  deriving DecidableEq, Repr, Inhabited

/-- What the codec knows about a token.  The token is a pointer in the source;
the ids are `int`s and `-1` while unset. -/
structure TokenInfo where
  token : Token
  idInValueTrie : Int := -1
  idInFrequentPosMap : Int := -1
  posType : PosType := .defaultPos
  valueType : ValueType := .defaultValue
  costType : CostType := .defaultCost
  deriving DecidableEq, Repr, Inhabited

namespace TokenInfo

def setIds (info : TokenInfo) (lid rid : UInt16) : TokenInfo :=
  { info with token := { info.token with lid := lid, rid := rid } }

def setCost (info : TokenInfo) (cost : Int) : TokenInfo :=
  { info with token := { info.token with cost := cost } }

def setAttributes (info : TokenInfo) (attributes : UInt8) : TokenInfo :=
  { info with token := { info.token with attributes := attributes } }

end TokenInfo

/-! ## Constants -/

def kPosMax : Nat := 0x0fff
def kCostMax : Int := 0x7fff
def kValueTrieIdMax : Nat := 0x3fffff

def kSmallCostFlag : UInt8 := 0x80
def kSmallCostMask : UInt8 := 0x7f

def kTokenTerminationFlag : UInt8 := 0xff

def kValueTypeFlagMask : UInt8 := 0x03
def kAsIsHiraganaValueFlag : UInt8 := 0x01
def kAsIsKatakanaValueFlag : UInt8 := 0x02
def kSameAsPrevValueFlag : UInt8 := 0x03
def kNormalValueFlag : UInt8 := 0x00

def kPosTypeFlagMask : UInt8 := 0x0c
def kFullPosFlag : UInt8 := 0x04
def kMonoPosFlag : UInt8 := 0x08
def kSameAsPrevPosFlag : UInt8 := 0x0c
def kFrequentPosFlag : UInt8 := 0x00

def kSpellingCorrectionFlag : UInt8 := 0x10

def kCrammedIDFlag : UInt8 := 0x40
def kUpperFlagsMask : UInt8 := 0xc0
def kUpperCrammedIDMask : UInt8 := 0x3f

def kLastTokenFlag : UInt8 := 0x80

/-! ## Encoding

A failed `CHECK` and a `LOG(FATAL)` end the dictionary builder; the result is
then `none`. -/

def getFlagForPos (info : TokenInfo) : Option UInt8 :=
  if info.token.lid.toNat > kPosMax ∨ info.token.rid.toNat > kPosMax then none
  else match info.posType with
    | .frequentPos => some kFrequentPosFlag
    | .sameAsPrevPos => some kSameAsPrevPosFlag
    | .defaultPos => some (if info.token.lid = info.token.rid then kMonoPosFlag else kFullPosFlag)

def getFlagForValue (info : TokenInfo) : UInt8 :=
  match info.valueType with
  | .sameAsPrevValue => kSameAsPrevValueFlag
  | .asIsHiragana => kAsIsHiraganaValueFlag
  | .asIsKatakana => kAsIsKatakanaValueFlag
  | .defaultValue => kNormalValueFlag

/-- `GetFlagsForToken`. -/
def getFlagsForToken (tokens : List TokenInfo) (index : Nat) : Option UInt8 := do
  let info ← tokens[index]?
  let flags := if index + 1 = tokens.length then kLastTokenFlag else 0
  let flags := flags |||
    (if info.token.attributes &&& spellingCorrection ≠ 0 then kSpellingCorrectionFlag else 0)
  let flags := flags ||| (← getFlagForPos info)
  guard (¬ (index = 0 ∧ flags &&& kPosTypeFlagMask = kSameAsPrevPosFlag))
  let flags := flags ||| getFlagForValue info
  guard (¬ (index = 0 ∧ flags &&& kValueTypeFlagMask = kSameAsPrevValueFlag))
  return if flags &&& kUpperCrammedIDMask = 0 then flags ||| kCrammedIDFlag else flags

/-- `EncodeCost`: the bytes it writes. -/
def encodeCost (info : TokenInfo) : Option ByteString :=
  if info.token.cost > kCostMax then none
  else match info.costType with
    | .canUseSmallEncoding => some [UInt8.ofInt (info.token.cost >>> (8 : Nat)) ||| kSmallCostFlag]
    | .defaultCost => some [UInt8.ofInt (info.token.cost >>> (8 : Nat)), UInt8.ofInt info.token.cost]

/-- `EncodePos`: the bytes it writes. -/
def encodePos (info : TokenInfo) (flags : UInt8) : Option ByteString :=
  let posFlag := flags &&& kPosTypeFlagMask
  let lid := info.token.lid.toNat
  let rid := info.token.rid.toNat
  if posFlag = kFullPosFlag then
    some [UInt8.ofNat lid, UInt8.ofNat (rid <<< 4) ||| UInt8.ofNat (lid >>> 8),
      UInt8.ofNat (rid >>> 4)]
  else if posFlag = kMonoPosFlag then
    some [UInt8.ofNat lid, UInt8.ofNat (lid >>> 8)]
  else if posFlag = kFrequentPosFlag then
    if info.idInFrequentPosMap < 0 then none else some [UInt8.ofInt info.idInFrequentPosMap]
  else
    some []

/-- The value id as the `uint32_t` that `EncodeValueInfo` takes it for. -/
def valueIdAsUInt32 (info : TokenInfo) : Nat := (info.idInValueTrie % 2 ^ 32).toNat

/-- `EncodeValueInfo`: what it ors into the flag byte `dst[0]`, and the bytes it
writes. -/
def encodeValueInfo (info : TokenInfo) (flags : UInt8) : Option (UInt8 × ByteString) :=
  if flags &&& kValueTypeFlagMask ≠ kNormalValueFlag then some (0, [])
  else
    let id := valueIdAsUInt32 info
    if id > kValueTrieIdMax then none
    else if flags &&& kCrammedIDFlag ≠ 0 then
      some (UInt8.ofNat (id >>> 16) &&& kUpperCrammedIDMask,
        [UInt8.ofNat id, UInt8.ofNat (id >>> 8)])
    else
      some (0, [UInt8.ofNat id, UInt8.ofNat (id >>> 8), UInt8.ofNat (id >>> 16)])

/-- `SystemDictionaryCodec::EncodeToken`. -/
def encodeToken (tokens : List TokenInfo) (index : Nat) : Option ByteString := do
  let info ← tokens[index]?
  let flags ← getFlagsForToken tokens index
  let pos ← encodePos info flags
  let cost ← encodeCost info
  let (upper, value) ← encodeValueInfo info flags
  return (flags ||| upper) :: (pos ++ cost ++ value)

/-- `SystemDictionaryCodec::EncodeTokens`.  Only the first byte of the block is
checked against the terminator. -/
def encodeTokens (tokens : List TokenInfo) : Option ByteString := do
  let parts ← (List.range tokens.length).mapM (encodeToken tokens)
  let output := parts.flatten
  guard (byteAt output 0 ≠ kTokenTerminationFlag)
  return output

/-! ## Decoding -/

def readFlags (val : UInt8) : UInt8 :=
  if val &&& kCrammedIDFlag ≠ 0 then val &&& kUpperFlagsMask else val

/-- `DecodeCost`: the cost and the offset after it. -/
def decodeCost (ptr : ByteString) (offset : Nat) : Int × Nat :=
  if byteAt ptr offset &&& kSmallCostFlag ≠ 0 then
    (((byteAt ptr offset &&& kSmallCostMask).toNat <<< 8 : Nat), offset + 1)
  else
    (((byteAt ptr offset).toNat <<< 8 + (byteAt ptr (offset + 1)).toNat : Nat), offset + 2)

/-- `DecodePos`: the token info with the part of speech read, and the offset
after it. -/
def decodePos (ptr : ByteString) (flags : UInt8) (info : TokenInfo) (offset : Nat) :
    TokenInfo × Nat :=
  let posFlag := flags &&& kPosTypeFlagMask
  if posFlag = kFrequentPosFlag then
    ({ info with posType := .frequentPos, idInFrequentPosMap := (byteAt ptr offset).toNat },
      offset + 1)
  else if posFlag = kSameAsPrevPosFlag then
    ({ info with posType := .sameAsPrevPos }, offset)
  else if posFlag = kMonoPosFlag then
    let id := UInt16.ofNat
      ((byteAt ptr (offset + 1)).toNat <<< 8 ||| (byteAt ptr offset).toNat)
    (info.setIds id id, offset + 2)
  else
    let lid := UInt16.ofNat
      ((byteAt ptr offset).toNat + ((byteAt ptr (offset + 1) &&& 0x0f).toNat <<< 8))
    let rid := UInt16.ofNat
      ((byteAt ptr (offset + 1)).toNat >>> 4 + ((byteAt ptr (offset + 2)).toNat <<< 4))
    (info.setIds lid rid, offset + 3)

/-- The value id stored at `offset`, and the offset after it.  Both
`DecodeValueInfo` and `ReadValueInfo` read it so. -/
def readValueId (ptr : ByteString) (flags : UInt8) (offset : Nat) : Nat × Nat :=
  let id := (byteAt ptr (offset + 1)).toNat <<< 8 ||| (byteAt ptr offset).toNat
  if flags &&& kCrammedIDFlag ≠ 0 then
    (id ||| ((byteAt ptr 0 &&& kUpperCrammedIDMask).toNat <<< 16), offset + 2)
  else
    (id ||| ((byteAt ptr (offset + 2)).toNat <<< 16), offset + 3)

/-- `DecodeValueInfo`. -/
def decodeValueInfo (ptr : ByteString) (flags : UInt8) (info : TokenInfo) (offset : Nat) :
    TokenInfo × Nat :=
  let valueFlag := flags &&& kValueTypeFlagMask
  if valueFlag = kAsIsHiraganaValueFlag then ({ info with valueType := .asIsHiragana }, offset)
  else if valueFlag = kAsIsKatakanaValueFlag then
    ({ info with valueType := .asIsKatakana }, offset)
  else if valueFlag = kSameAsPrevValueFlag then
    ({ info with valueType := .sameAsPrevValue }, offset)
  else
    let read := readValueId ptr flags offset
    ({ info with valueType := .defaultValue, idInValueTrie := read.1 }, read.2)

/-- `SystemDictionaryCodec::DecodeToken`: whether more tokens follow, the token
info, and the bytes read.  The fields of `info` that the token does not carry
keep their values. -/
def decodeToken (ptr : ByteString) (info : TokenInfo) : Bool × TokenInfo × Nat :=
  let flags := readFlags (byteAt ptr 0)
  let info := if flags &&& kSpellingCorrectionFlag ≠ 0
    then info.setAttributes spellingCorrection else info
  let pos := decodePos ptr flags info 1
  let cost := decodeCost ptr pos.2
  let value := decodeValueInfo ptr flags (pos.1.setCost cost.1) cost.2
  (!(flags &&& kLastTokenFlag ≠ 0), value.1, value.2)

/-- `ReadValueInfo`: the value id, or `-1` when the token carries none. -/
def readValueInfo (ptr : ByteString) (flags : UInt8) (offset : Nat) : Int × Nat :=
  if flags &&& kValueTypeFlagMask = kNormalValueFlag then
    let read := readValueId ptr flags offset
    (read.1, read.2)
  else (-1, offset)

/-- `SystemDictionaryCodec::ReadTokenForReverseLookup`: whether more tokens
follow, the value id, and the bytes read. -/
def readTokenForReverseLookup (ptr : ByteString) : Bool × Int × Nat :=
  let flags := readFlags (byteAt ptr 0)
  let posFlag := flags &&& kPosTypeFlagMask
  let offset :=
    if posFlag = kFrequentPosFlag then 1 + 1
    else if posFlag = kMonoPosFlag then 1 + 2
    else if posFlag = kFullPosFlag then 1 + 3
    else 1
  let offset := if byteAt ptr offset &&& kSmallCostFlag ≠ 0 then offset + 1 else offset + 2
  let value := readValueInfo ptr flags offset
  (!(flags &&& kLastTokenFlag ≠ 0), value.1, value.2)

end Mozkey.Dictionary
