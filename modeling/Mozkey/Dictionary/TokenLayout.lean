import Mozkey.Dictionary.Codec

/-!
# The layout of an encoded token

`encodeToken` writes a byte of flags, then the part of speech, the cost and the
value.  This module says what each of these pieces is and that the decoder reads
each piece back where it was written.  The flag byte is the delicate part: when
its lower six bits are clear they are overwritten with the top of the value id,
and `readFlags` has to undo that.

The two readers, `decodeToken` and `readTokenForReverseLookup`, are written
independently in the source.  They agree on the length of every token, whatever
the bytes are.
-/

namespace Mozkey.Dictionary

/-! ## The byte of flags -/

/-- The part of speech flag of a token whose ids are in range. -/
def posFlagOf (info : TokenInfo) : UInt8 :=
  match info.posType with
  | .frequentPos => kFrequentPosFlag
  | .sameAsPrevPos => kSameAsPrevPosFlag
  | .defaultPos => if info.token.lid = info.token.rid then kMonoPosFlag else kFullPosFlag

def isSpellingCorrection (info : TokenInfo) : Bool :=
  info.token.attributes &&& spellingCorrection ≠ 0

/-- The byte of flags put together from its four pieces. -/
def composeFlags (last correction : Bool) (pos value : UInt8) : UInt8 :=
  let flags := (if last then kLastTokenFlag else 0) |||
    (if correction then kSpellingCorrectionFlag else 0) ||| pos ||| value
  if flags &&& kUpperCrammedIDMask = 0 then flags ||| kCrammedIDFlag else flags

/-- The flags that `getFlagsForToken` computes for a token. -/
def flagsOf (last : Bool) (info : TokenInfo) : UInt8 :=
  composeFlags last (isSpellingCorrection info) (posFlagOf info) (getFlagForValue info)

/-- The upper bits of the value id share the byte of flags. -/
def isCrammed (info : TokenInfo) : Bool :=
  !isSpellingCorrection info && info.posType = .frequentPos && info.valueType = .defaultValue

theorem posFlagOf_mem (info : TokenInfo) :
    posFlagOf info ∈ [kFrequentPosFlag, kFullPosFlag, kMonoPosFlag, kSameAsPrevPosFlag] := by
  unfold posFlagOf
  cases info.posType with
  | frequentPos => simp
  | sameAsPrevPos => simp
  | defaultPos =>
      dsimp only
      split <;> simp

theorem getFlagForValue_mem (info : TokenInfo) :
    getFlagForValue info ∈ [kNormalValueFlag, kAsIsHiraganaValueFlag, kAsIsKatakanaValueFlag,
      kSameAsPrevValueFlag] := by
  unfold getFlagForValue
  cases info.valueType <;> simp

theorem posFlagOf_eq_frequent {info : TokenInfo} :
    posFlagOf info = kFrequentPosFlag ↔ info.posType = .frequentPos := by
  unfold posFlagOf
  cases info.posType with
  | frequentPos => simp
  | sameAsPrevPos => exact iff_of_false (by dsimp only; decide) (by decide)
  | defaultPos =>
      dsimp only
      split <;> decide

theorem getFlagForValue_eq_normal {info : TokenInfo} :
    getFlagForValue info = kNormalValueFlag ↔ info.valueType = .defaultValue := by
  unfold getFlagForValue
  cases info.valueType <;> decide

section Flags

variable (last : Bool) (info : TokenInfo)

/-- Four pieces can be told apart in the flags they make up. -/
abbrev PiecesApart (last correction : Bool) (pos value : UInt8) : Prop :=
  (((if last then kLastTokenFlag else 0) ||| (if correction then kSpellingCorrectionFlag else 0)
    ||| pos) &&& kPosTypeFlagMask = pos) ∧
  (((if last then kLastTokenFlag else 0) ||| (if correction then kSpellingCorrectionFlag else 0)
    ||| pos ||| value) &&& kValueTypeFlagMask = value) ∧
  (composeFlags last correction pos value &&& kPosTypeFlagMask = pos) ∧
  (composeFlags last correction pos value &&& kValueTypeFlagMask = value) ∧
  (composeFlags last correction pos value &&& kLastTokenFlag ≠ 0 ↔ last = true) ∧
  (composeFlags last correction pos value &&& kSpellingCorrectionFlag ≠ 0 ↔ correction = true) ∧
  (composeFlags last correction pos value &&& kCrammedIDFlag ≠ 0 ↔
    (correction = false ∧ pos = kFrequentPosFlag) ∧ value = kNormalValueFlag) ∧
  (composeFlags last correction pos value ≠ kTokenTerminationFlag) ∧
  ((correction = false ∧ pos = kFrequentPosFlag) ∧ value = kNormalValueFlag →
    composeFlags last correction pos value = (if last then kLastTokenFlag else 0) ||| kCrammedIDFlag)

omit last info in
theorem composeFlags_pieces :
    ∀ last correction,
    ∀ pos ∈ [kFrequentPosFlag, kFullPosFlag, kMonoPosFlag, kSameAsPrevPosFlag],
    ∀ value ∈ [kNormalValueFlag, kAsIsHiraganaValueFlag, kAsIsKatakanaValueFlag,
      kSameAsPrevValueFlag], PiecesApart last correction pos value := by
  decide +kernel

/-- The pieces of the flags of a token. -/
theorem flagsOf_pieces :
    PiecesApart last (isSpellingCorrection info) (posFlagOf info) (getFlagForValue info) :=
  composeFlags_pieces last _ _ (posFlagOf_mem info) _ (getFlagForValue_mem info)

theorem flagsOf_pos : flagsOf last info &&& kPosTypeFlagMask = posFlagOf info :=
  (flagsOf_pieces last info).2.2.1

theorem flagsOf_value : flagsOf last info &&& kValueTypeFlagMask = getFlagForValue info :=
  (flagsOf_pieces last info).2.2.2.1

theorem flagsOf_last : flagsOf last info &&& kLastTokenFlag ≠ 0 ↔ last = true :=
  (flagsOf_pieces last info).2.2.2.2.1

theorem flagsOf_correction :
    flagsOf last info &&& kSpellingCorrectionFlag ≠ 0 ↔ isSpellingCorrection info = true :=
  (flagsOf_pieces last info).2.2.2.2.2.1

theorem flagsOf_crammed :
    flagsOf last info &&& kCrammedIDFlag ≠ 0 ↔ isCrammed info = true := by
  have crammed := (flagsOf_pieces last info).2.2.2.2.2.2.1
  rw [posFlagOf_eq_frequent, getFlagForValue_eq_normal] at crammed
  simpa [isCrammed, flagsOf] using crammed

/-- Flags without the crammed bit differ from the terminator. -/
theorem flagsOf_ne_termination : flagsOf last info ≠ kTokenTerminationFlag :=
  (flagsOf_pieces last info).2.2.2.2.2.2.2.1

theorem readFlags_flagsOf (plain : isCrammed info = false) :
    readFlags (flagsOf last info) = flagsOf last info := by
  have crammed : ¬ flagsOf last info &&& kCrammedIDFlag ≠ 0 := by
    rw [flagsOf_crammed, plain]
    decide
  simp only [readFlags, if_neg crammed]

/-- Crammed flags carry nothing but the mark of the last token. -/
theorem flagsOf_of_crammed (crammed : isCrammed info = true) :
    flagsOf last info = (if last then kLastTokenFlag else 0) ||| kCrammedIDFlag := by
  have all := (flagsOf_pieces last info).2.2.2.2.2.2.2.2
  rw [posFlagOf_eq_frequent, getFlagForValue_eq_normal] at all
  refine all ?_
  simpa [isCrammed] using crammed

theorem readFlags_crammed (upper : UInt8) :
    readFlags (((if last then kLastTokenFlag else 0) ||| kCrammedIDFlag) |||
      (upper &&& kUpperCrammedIDMask)) = (if last then kLastTokenFlag else 0) ||| kCrammedIDFlag := by
  obtain ⟨n, small, rfl⟩ : ∃ n : Nat, n < 256 ∧ UInt8.ofNat n = upper :=
    ⟨upper.toNat, upper.toNat_lt, UInt8.ofNat_toNat⟩
  revert last
  exact (by decide +kernel : ∀ n : Fin 256, ∀ last : Bool,
    readFlags (((if last then kLastTokenFlag else 0) ||| kCrammedIDFlag) |||
      (UInt8.ofNat n &&& kUpperCrammedIDMask)) =
        (if last then kLastTokenFlag else 0) ||| kCrammedIDFlag) ⟨n, small⟩

end Flags

/-! ## The pieces of a token -/

/-- The ids and the cost are ones the codec is meant for: they are `int`s, and the
cost, of which the codec checks only the upper bound, is not negative. -/
structure InRange (info : TokenInfo) : Prop where
  cost_nonneg : 0 ≤ info.token.cost
  id_lower : -2 ^ 31 ≤ info.idInValueTrie
  id_upper : info.idInValueTrie < 2 ^ 31

instance (info : TokenInfo) : Decidable (InRange info) :=
  decidable_of_iff (0 ≤ info.token.cost ∧ -2 ^ 31 ≤ info.idInValueTrie ∧ info.idInValueTrie < 2 ^ 31)
    ⟨fun h => ⟨h.1, h.2.1, h.2.2⟩, fun h => ⟨h.1, h.2, h.3⟩⟩

/-- The bits of the value id that go into the byte of flags. -/
def upperBits (info : TokenInfo) : UInt8 :=
  if isCrammed info then UInt8.ofNat (valueIdAsUInt32 info >>> 16) &&& kUpperCrammedIDMask else 0

/-- The byte of flags as it is stored. -/
def storedFlags (last : Bool) (info : TokenInfo) : UInt8 :=
  flagsOf last info ||| upperBits info

theorem readFlags_storedFlags (last : Bool) (info : TokenInfo) :
    readFlags (storedFlags last info) = flagsOf last info := by
  unfold storedFlags upperBits
  cases crammed : isCrammed info with
  | false => simpa using readFlags_flagsOf last info crammed
  | true =>
      rw [flagsOf_of_crammed last info crammed]
      exact readFlags_crammed last _

theorem getFlagForPos_eq_some {info : TokenInfo} {flag : UInt8}
    (accepted : getFlagForPos info = some flag) :
    info.token.lid.toNat ≤ kPosMax ∧ info.token.rid.toNat ≤ kPosMax ∧ flag = posFlagOf info := by
  unfold getFlagForPos at accepted
  split at accepted
  · cases accepted
  · rename_i range
    refine ⟨by omega, by omega, ?_⟩
    unfold posFlagOf
    cases kind : info.posType <;> simp_all

theorem getFlagsForToken_eq_some {tokens : List TokenInfo} {index : Nat} {flags : UInt8}
    (accepted : getFlagsForToken tokens index = some flags) :
    ∃ info, tokens[index]? = some info ∧
      info.token.lid.toNat ≤ kPosMax ∧ info.token.rid.toNat ≤ kPosMax ∧
      (index = 0 → info.posType ≠ .sameAsPrevPos ∧ info.valueType ≠ .sameAsPrevValue) ∧
      flags = flagsOf (index + 1 = tokens.length) info := by
  simp only [getFlagsForToken, bind, Option.bind_eq_some_iff, Option.guard_eq_some',
    pure, Option.some_inj] at accepted
  obtain ⟨info, found, pos, posAccepted, _, posChecked, _, valueChecked, composed⟩ := accepted
  obtain ⟨lid, rid, rfl⟩ := getFlagForPos_eq_some posAccepted
  refine ⟨info, found, lid, rid, ?_, ?_⟩
  · intro first
    obtain ⟨posPiece, valuePiece, _⟩ := flagsOf_pieces (index + 1 = tokens.length) info
    simp only [isSpellingCorrection, decide_eq_true_eq] at posPiece valuePiece
    rw [posPiece] at posChecked
    rw [valuePiece] at valueChecked
    constructor
    · intro same
      exact posChecked ⟨first, by simp only [posFlagOf, same]⟩
    · intro same
      exact valueChecked ⟨first, by simp only [getFlagForValue, same]⟩
  · rw [← composed]
    simp only [flagsOf, composeFlags, isSpellingCorrection, decide_eq_true_eq]

theorem encodeValueInfo_upper {last : Bool} {info : TokenInfo} {written : UInt8 × ByteString}
    (accepted : encodeValueInfo info (flagsOf last info) = some written) :
    written.1 = upperBits info := by
  unfold encodeValueInfo at accepted
  split at accepted
  · rename_i stored
    rw [flagsOf_value] at stored
    have plain : isCrammed info = false := by
      have := mt getFlagForValue_eq_normal.2 stored
      simp [isCrammed, this]
    cases accepted
    simp [upperBits, plain]
  · dsimp only at accepted
    split at accepted
    · cases accepted
    · split at accepted
      · rename_i crammed
        rw [flagsOf_crammed] at crammed
        cases accepted
        simp [upperBits, crammed]
      · rename_i plain
        rw [flagsOf_crammed] at plain
        cases accepted
        simp [upperBits, plain]

/-- **What `encodeToken` writes.**  An accepted token is the byte of flags, the
part of speech, the cost and the value id, and the first token of a block refers
to no previous one. -/
theorem encodeToken_eq_some {tokens : List TokenInfo} {index : Nat} {bytes : ByteString}
    (encoded : encodeToken tokens index = some bytes) :
    ∃ info pos cost value, tokens[index]? = some info ∧
      info.token.lid.toNat ≤ kPosMax ∧ info.token.rid.toNat ≤ kPosMax ∧
      (index = 0 → info.posType ≠ .sameAsPrevPos ∧ info.valueType ≠ .sameAsPrevValue) ∧
      encodePos info (flagsOf (index + 1 = tokens.length) info) = some pos ∧
      encodeCost info = some cost ∧
      encodeValueInfo info (flagsOf (index + 1 = tokens.length) info) =
        some (upperBits info, value) ∧
      bytes = storedFlags (index + 1 = tokens.length) info :: (pos ++ cost ++ value) := by
  simp only [encodeToken, bind, Option.bind_eq_some_iff, pure, Option.some_inj] at encoded
  obtain ⟨info, found, flags, flagged, pos, posWritten, cost, costWritten,
    ⟨upper, value⟩, valueWritten, rfl⟩ := encoded
  obtain ⟨info', found', lid, rid, first, rfl⟩ := getFlagsForToken_eq_some flagged
  obtain rfl : info = info' := Option.some_inj.1 (found.symm.trans found')
  obtain rfl : upper = upperBits info := encodeValueInfo_upper valueWritten
  exact ⟨info, pos, cost, value, found, lid, rid, first, posWritten, costWritten, valueWritten, rfl⟩

/-! ## Reading the pieces back -/

/-- What the decoder knows of the part of speech after the token `source`. -/
def withPos (source info : TokenInfo) : TokenInfo :=
  match source.posType with
  | .frequentPos =>
      { info with
        posType := .frequentPos
        idInFrequentPosMap := (UInt8.ofInt source.idInFrequentPosMap).toNat }
  | .sameAsPrevPos => { info with posType := .sameAsPrevPos }
  | .defaultPos => info.setIds source.token.lid source.token.rid

/-- The cost that is left of the token's cost. -/
def storedCost (source : TokenInfo) : Int :=
  match source.costType with
  | .canUseSmallEncoding => source.token.cost / 256 * 256
  | .defaultCost => source.token.cost

/-- What the decoder knows of the value after the token `source`. -/
def withValue (source info : TokenInfo) : TokenInfo :=
  match source.valueType with
  | .defaultValue =>
      { info with valueType := .defaultValue, idInValueTrie := source.idInValueTrie }
  | .sameAsPrevValue => { info with valueType := .sameAsPrevValue }
  | .asIsHiragana => { info with valueType := .asIsHiragana }
  | .asIsKatakana => { info with valueType := .asIsKatakana }

/-- What the decoder knows after the token `source`. -/
def withToken (source info : TokenInfo) : TokenInfo :=
  let info := if isSpellingCorrection source then info.setAttributes spellingCorrection else info
  withValue source ((withPos source info).setCost (storedCost source))

theorem or_lowNibble {a b : Nat} (small : b < 16) : (a % 16) <<< 4 ||| b = a % 16 * 16 + b := by
  rw [← Nat.shiftLeft_add_eq_or_of_lt (i := 4) small, Nat.shiftLeft_eq]

theorem or_lowByte {a b : Nat} (small : b < 256) : a <<< 8 ||| b = a * 256 + b := by
  rw [← Nat.shiftLeft_add_eq_or_of_lt (i := 8) small, Nat.shiftLeft_eq]

theorem or_highByte {a b : Nat} (small : a < 2 ^ 16) : a ||| b <<< 16 = a + b * 65536 := by
  rw [Nat.lor_comm, ← Nat.shiftLeft_add_eq_or_of_lt (i := 16) small, Nat.shiftLeft_eq]
  omega

section Full

variable {lid rid : Nat} (lidSmall : lid ≤ kPosMax) (ridSmall : rid ≤ kPosMax)
include lidSmall

/-- The middle byte of a full part of speech shares its nibbles between the ids. -/
theorem middleByte : (UInt8.ofNat (rid <<< 4) ||| UInt8.ofNat (lid >>> 8)).toNat =
    rid % 16 * 16 + lid / 256 := by
  have lower : lid / 256 < 16 := by
    unfold kPosMax at lidSmall
    omega
  rw [UInt8.toNat_or, UInt8.toNat_ofNat', UInt8.toNat_ofNat', Nat.shiftRight_eq_div_pow,
    Nat.mod_eq_of_lt (show lid / 2 ^ 8 < 2 ^ 8 by omega)]
  rw [show rid <<< 4 % 2 ^ 8 = (rid % 16) <<< 4 by simp only [Nat.shiftLeft_eq]; omega]
  exact or_lowNibble lower

theorem fullLid : (UInt8.ofNat lid).toNat +
    ((UInt8.ofNat (rid <<< 4) ||| UInt8.ofNat (lid >>> 8)) &&& 0x0f).toNat <<< 8 = lid := by
  have nibble : ∀ x : UInt8, (x &&& 0x0f).toNat = x.toNat % 16 := by
    intro x
    rw [UInt8.toNat_and]
    exact Nat.and_two_pow_sub_one_eq_mod _ 4
  rw [nibble, middleByte lidSmall, UInt8.toNat_ofNat', Nat.shiftLeft_eq]
  unfold kPosMax at lidSmall
  omega

include ridSmall

theorem fullRid : (UInt8.ofNat (rid <<< 4) ||| UInt8.ofNat (lid >>> 8)).toNat >>> 4 +
    (UInt8.ofNat (rid >>> 4)).toNat <<< 4 = rid := by
  rw [middleByte lidSmall, UInt8.toNat_ofNat']
  simp only [Nat.shiftLeft_eq, Nat.shiftRight_eq_div_pow]
  unfold kPosMax at lidSmall ridSmall
  omega

end Full

variable {ptr : ByteString} {offset : Nat} {last : Bool} {source : TokenInfo}

theorem decodePos_encodePos {pos : ByteString} (info : TokenInfo)
    (lid : source.token.lid.toNat ≤ kPosMax) (rid : source.token.rid.toNat ≤ kPosMax)
    (encoded : encodePos source (flagsOf last source) = some pos)
    (stored : StoredAt ptr offset pos) :
    decodePos ptr (flagsOf last source) info offset =
      (withPos source info, offset + pos.length) := by
  unfold encodePos at encoded
  unfold decodePos withPos
  rw [flagsOf_pos] at encoded ⊢
  unfold posFlagOf at encoded ⊢
  cases kind : source.posType with
  | frequentPos =>
      simp only [kind] at encoded ⊢
      rw [if_neg (by decide), if_neg (by decide), if_pos trivial] at encoded
      split at encoded
      · cases encoded
      · cases encoded
        rw [if_pos trivial, stored.head]
        rfl
  | sameAsPrevPos =>
      simp only [kind] at encoded ⊢
      rw [if_neg (by decide), if_neg (by decide), if_neg (by decide)] at encoded
      cases encoded
      rw [if_neg (by decide), if_pos trivial]
      rfl
  | defaultPos =>
      simp only [kind] at encoded ⊢
      by_cases mono : source.token.lid = source.token.rid
      · rw [if_pos mono] at encoded ⊢
        rw [if_neg (by decide), if_pos rfl] at encoded
        cases encoded
        rw [if_neg (by decide), if_neg (by decide), if_pos rfl, stored.head, stored.tail.head]
        have id : UInt16.ofNat ((UInt8.ofNat (source.token.lid.toNat >>> 8)).toNat <<< 8 |||
            (UInt8.ofNat source.token.lid.toNat).toNat) = source.token.lid := by
          rw [or_lowByte (UInt8.toNat_lt _), UInt8.toNat_ofNat', UInt8.toNat_ofNat',
            Nat.shiftRight_eq_div_pow]
          unfold kPosMax at lid
          rw [show source.token.lid.toNat / 2 ^ 8 % 2 ^ 8 * 256 + source.token.lid.toNat % 2 ^ 8 =
            source.token.lid.toNat by omega]
          exact UInt16.ofNat_toNat
        rw [id, ← mono]
        rfl
      · rw [if_neg mono] at encoded ⊢
        rw [if_pos rfl] at encoded
        cases encoded
        rw [if_neg (by decide), if_neg (by decide), if_neg (by decide), stored.head,
          stored.tail.head, stored.tail.tail.head, fullLid lid, fullRid lid rid,
          UInt16.ofNat_toNat, UInt16.ofNat_toNat]
        rfl

theorem ofInt_natCast (n : Nat) : UInt8.ofInt n = UInt8.ofNat n := by
  apply UInt8.toNat_inj.1
  rw [UInt8.toNat_ofNat', UInt8.ofInt, UInt8.toNat_ofNat']
  omega

theorem highByte_forall {P : UInt8 → Prop} (all : ∀ n : Fin 128, P (UInt8.ofNat n)) {c : Nat}
    (small : c ≤ 0x7fff) : P (UInt8.ofNat (c / 256)) :=
  all ⟨c / 256, by omega⟩

theorem decodeCost_encodeCost {cost : ByteString} (nonneg : 0 ≤ source.token.cost)
    (encoded : encodeCost source = some cost) (stored : StoredAt ptr offset cost) :
    decodeCost ptr offset = (storedCost source, offset + cost.length) := by
  unfold encodeCost at encoded
  split at encoded
  · cases encoded
  · rename_i upper
    obtain ⟨c, eq⟩ := Int.eq_ofNat_of_zero_le nonneg
    have small : c ≤ 0x7fff := by
      unfold kCostMax at upper
      omega
    have high : UInt8.ofInt (source.token.cost >>> (8 : Nat)) = UInt8.ofNat (c / 256) := by
      rw [eq, Int.shiftRight_eq_div_pow]
      exact ofInt_natCast (c / 256)
    have low : UInt8.ofInt source.token.cost = UInt8.ofNat c := by
      rw [eq]
      exact ofInt_natCast c
    unfold decodeCost storedCost
    cases kind : source.costType with
    | canUseSmallEncoding =>
        simp only [kind] at encoded ⊢
        cases encoded
        rw [stored.head, high, if_pos (highByte_forall
          (P := fun b => (b ||| kSmallCostFlag) &&& kSmallCostFlag ≠ 0) (by decide) small),
          highByte_forall (P := fun b => (b ||| kSmallCostFlag) &&& kSmallCostMask = b)
            (by decide) small, UInt8.toNat_ofNat', Nat.shiftLeft_eq, eq]
        refine Prod.ext ?_ rfl
        show ((c / 256 % 2 ^ 8 * 2 ^ 8 : Nat) : Int) = (c : Int) / 256 * 256
        omega
    | defaultCost =>
        simp only [kind] at encoded ⊢
        cases encoded
        rw [stored.head, stored.tail.head, high, low, if_neg (highByte_forall
          (P := fun b => ¬ b &&& kSmallCostFlag ≠ 0) (by decide) small),
          UInt8.toNat_ofNat', UInt8.toNat_ofNat', Nat.shiftLeft_eq, eq]
        refine Prod.ext ?_ rfl
        show ((c / 256 % 2 ^ 8 * 2 ^ 8 + c % 2 ^ 8 : Nat) : Int) = (c : Int)
        omega

/-- The upper bits are read back from the byte of flags. -/
theorem storedFlags_upper (crammed : isCrammed source = true)
    (small : valueIdAsUInt32 source ≤ kValueTrieIdMax) :
    (storedFlags last source &&& kUpperCrammedIDMask).toNat = valueIdAsUInt32 source / 65536 := by
  unfold storedFlags upperBits
  rw [flagsOf_of_crammed last source crammed, if_pos crammed, Nat.shiftRight_eq_div_pow]
  have bits : valueIdAsUInt32 source / 2 ^ 16 < 64 := by
    unfold kValueTrieIdMax at small
    omega
  exact (by decide +kernel : ∀ n : Fin 64, ∀ last : Bool,
    ((((if last then kLastTokenFlag else 0) ||| kCrammedIDFlag) |||
      (UInt8.ofNat n &&& kUpperCrammedIDMask)) &&& kUpperCrammedIDMask).toNat = n) ⟨_, bits⟩ last

/-- The three pieces of a value id make up the id. -/
theorem valueIdBytes (id : Nat) :
    (UInt8.ofNat (id >>> 8)).toNat <<< 8 ||| (UInt8.ofNat id).toNat ||| (id / 65536) <<< 16 = id := by
  have low : (UInt8.ofNat (id >>> 8)).toNat <<< 8 ||| (UInt8.ofNat id).toNat = id % 65536 := by
    rw [or_lowByte (UInt8.toNat_lt _), UInt8.toNat_ofNat', UInt8.toNat_ofNat',
      Nat.shiftRight_eq_div_pow]
    omega
  rw [low, or_highByte (by omega)]
  omega

/-- An accepted value id has at most 22 bits. -/
theorem valueId_le {written : UInt8 × ByteString} (normal : source.valueType = .defaultValue)
    (encoded : encodeValueInfo source (flagsOf last source) = some written) :
    valueIdAsUInt32 source ≤ kValueTrieIdMax := by
  unfold encodeValueInfo at encoded
  rw [flagsOf_value, if_neg (not_not.2 (getFlagForValue_eq_normal.2 normal))] at encoded
  dsimp only at encoded
  split at encoded
  · cases encoded
  · omega

theorem valueIdAsUInt32_eq (range : InRange source)
    (small : valueIdAsUInt32 source ≤ kValueTrieIdMax) :
    (valueIdAsUInt32 source : Int) = source.idInValueTrie := by
  have lower := range.id_lower
  have upper := range.id_upper
  unfold valueIdAsUInt32 kValueTrieIdMax at *
  omega

/-- The value id is read back, wherever the top of it was put. -/
theorem readValueId_encodeValueInfo {value : ByteString} (normal : source.valueType = .defaultValue)
    (encoded : encodeValueInfo source (flagsOf last source) = some (upperBits source, value))
    (first : byteAt ptr 0 = storedFlags last source) (stored : StoredAt ptr offset value) :
    readValueId ptr (flagsOf last source) offset =
      (valueIdAsUInt32 source, offset + value.length) := by
  have small := valueId_le normal encoded
  have bit := flagsOf_crammed last source
  unfold encodeValueInfo at encoded
  rw [flagsOf_value, if_neg (not_not.2 (getFlagForValue_eq_normal.2 normal))] at encoded
  dsimp only at encoded
  rw [if_neg (not_lt.2 small)] at encoded
  unfold readValueId
  cases crammed : isCrammed source with
  | true =>
      rw [if_pos (bit.2 crammed)] at encoded
      obtain ⟨-, rfl⟩ : _ ∧ _ = value := Prod.mk.inj (Option.some_inj.1 encoded)
      rw [if_pos (bit.2 crammed), stored.head, stored.tail.head, first,
        storedFlags_upper crammed small, valueIdBytes]
      rfl
  | false =>
      have plain := mt bit.1 (by rw [crammed]; decide)
      rw [if_neg plain] at encoded
      obtain ⟨-, rfl⟩ : _ ∧ _ = value := Prod.mk.inj (Option.some_inj.1 encoded)
      have top : (UInt8.ofNat (valueIdAsUInt32 source >>> 16)).toNat =
          valueIdAsUInt32 source / 65536 := by
        rw [UInt8.toNat_ofNat', Nat.shiftRight_eq_div_pow]
        unfold kValueTrieIdMax at small
        omega
      rw [if_neg plain, stored.head, stored.tail.head, stored.tail.tail.head, top, valueIdBytes]
      rfl

theorem decodeValueInfo_encodeValueInfo {value : ByteString} (info : TokenInfo)
    (range : InRange source)
    (encoded : encodeValueInfo source (flagsOf last source) = some (upperBits source, value))
    (first : byteAt ptr 0 = storedFlags last source) (stored : StoredAt ptr offset value) :
    decodeValueInfo ptr (flagsOf last source) info offset =
      (withValue source info, offset + value.length) := by
  unfold decodeValueInfo withValue
  rw [flagsOf_value]
  by_cases normal : source.valueType = .defaultValue
  · have small := valueId_le normal encoded
    rw [readValueId_encodeValueInfo normal encoded first stored]
    simp only [getFlagForValue, normal]
    rw [if_neg (by decide), if_neg (by decide), if_neg (by decide), valueIdAsUInt32_eq range small]
  · have none : value = [] := by
      unfold encodeValueInfo at encoded
      rw [flagsOf_value, if_pos (mt getFlagForValue_eq_normal.1 normal)] at encoded
      exact (Prod.mk.inj (Option.some_inj.1 encoded)).2.symm
    subst none
    cases kind : source.valueType with
    | defaultValue => exact absurd kind normal
    | sameAsPrevValue =>
        simp only [getFlagForValue, kind]
        rfl
    | asIsHiragana =>
        simp only [getFlagForValue, kind]
        rfl
    | asIsKatakana =>
        simp only [getFlagForValue, kind]
        rfl

/-- **One token is read back.**  Whatever the decoder knew before, after the
bytes of an accepted token it knows what the token carries, it has read exactly
those bytes, and it says that more tokens follow unless the token was the last. -/
theorem decodeToken_encodeToken {tokens : List TokenInfo} {index : Nat} {bytes rest : ByteString}
    (encoded : encodeToken tokens index = some bytes) (found : tokens[index]? = some source)
    (range : InRange source) (info : TokenInfo) :
    decodeToken (bytes ++ rest) info =
      (!decide (index + 1 = tokens.length), withToken source info, bytes.length) := by
  obtain ⟨source', pos, cost, value, found', lid, rid, -, posWritten, costWritten, valueWritten,
    rfl⟩ := encodeToken_eq_some encoded
  obtain rfl : source = source' := Option.some_inj.1 (found.symm.trans found')
  have stored := storedAt_front
    (storedFlags (index + 1 = tokens.length) source :: (pos ++ cost ++ value)) rest
  generalize (storedFlags _ source :: (pos ++ cost ++ value)) ++ rest = ptr at stored ⊢
  have first := stored.head
  have body := stored.tail
  have posRead := fun info => decodePos_encodePos info lid rid posWritten
    body.append_left.append_left
  have costRead := decodeCost_encodeCost range.cost_nonneg costWritten body.append_left.append_right
  have valueRead := fun info => decodeValueInfo_encodeValueInfo info range valueWritten first
    body.append_right
  rw [Nat.zero_add] at posRead costRead valueRead
  rw [List.length_append, ← Nat.add_assoc] at valueRead
  unfold decodeToken withToken
  simp only [first, readFlags_storedFlags, flagsOf_correction, flagsOf_last, posRead, costRead,
    valueRead, Bool.decide_eq_true]
  refine Prod.ext rfl (Prod.ext rfl ?_)
  simp only [List.length_cons, List.length_append]
  omega

/-! ## The two readers -/

/-- The flags of a part of speech and of a value are the same for all bytes. -/
theorem masked_mem (flags : UInt8) :
    flags &&& kPosTypeFlagMask ∈
        [kFrequentPosFlag, kFullPosFlag, kMonoPosFlag, kSameAsPrevPosFlag] ∧
      flags &&& kValueTypeFlagMask ∈ [kNormalValueFlag, kAsIsHiraganaValueFlag,
        kAsIsKatakanaValueFlag, kSameAsPrevValueFlag] := by
  revert flags
  refine byte_forall ?_
  decide +kernel

theorem decodePos_offset (ptr : ByteString) (flags : UInt8) (info : TokenInfo) (offset : Nat) :
    (decodePos ptr flags info offset).2 =
      if flags &&& kPosTypeFlagMask = kFrequentPosFlag then offset + 1
      else if flags &&& kPosTypeFlagMask = kMonoPosFlag then offset + 2
      else if flags &&& kPosTypeFlagMask = kFullPosFlag then offset + 3
      else offset := by
  have piece := (masked_mem flags).1
  unfold decodePos
  generalize flags &&& kPosTypeFlagMask = posFlag at piece ⊢
  simp only [List.mem_cons, List.not_mem_nil, or_false] at piece
  rcases piece with rfl | rfl | rfl | rfl <;> rfl

theorem decodeCost_offset (ptr : ByteString) (offset : Nat) :
    (decodeCost ptr offset).2 =
      if byteAt ptr offset &&& kSmallCostFlag ≠ 0 then offset + 1 else offset + 2 := by
  unfold decodeCost
  split <;> rfl

/-- The value id that a token carries: `-1` when it carries none. -/
def carriedValueId (info : TokenInfo) : Int :=
  if info.valueType = .defaultValue then info.idInValueTrie else -1

theorem readValueInfo_eq_decodeValueInfo (ptr : ByteString) (flags : UInt8) (info : TokenInfo)
    (offset : Nat) :
    readValueInfo ptr flags offset =
      (carriedValueId (decodeValueInfo ptr flags info offset).1,
        (decodeValueInfo ptr flags info offset).2) := by
  have piece := (masked_mem flags).2
  unfold decodeValueInfo readValueInfo
  generalize flags &&& kValueTypeFlagMask = valueFlag at piece ⊢
  simp only [List.mem_cons, List.not_mem_nil, or_false] at piece
  rcases piece with rfl | rfl | rfl | rfl <;> rfl

/-- **The two readers agree.**  On any bytes, and whatever the decoder knew
before, the reader of the reverse lookup finds what the decoder finds: whether
more tokens follow, the value id, and the length of the token. -/
theorem readTokenForReverseLookup_eq_decodeToken (ptr : ByteString) (info : TokenInfo) :
    readTokenForReverseLookup ptr =
      ((decodeToken ptr info).1, carriedValueId (decodeToken ptr info).2.1,
        (decodeToken ptr info).2.2) := by
  have costOffset := decodeCost_offset ptr
  unfold readTokenForReverseLookup decodeToken
  simp only [decodePos_offset, costOffset]
  rw [readValueInfo_eq_decodeValueInfo]

theorem carriedValueId_withToken (source info : TokenInfo) :
    carriedValueId (withToken source info) = carriedValueId source := by
  unfold carriedValueId withToken withValue
  cases source.valueType <;> rfl

/-- **One token is scanned.** -/
theorem readTokenForReverseLookup_encodeToken {tokens : List TokenInfo} {index : Nat}
    {bytes rest : ByteString} (encoded : encodeToken tokens index = some bytes)
    (found : tokens[index]? = some source) (range : InRange source) :
    readTokenForReverseLookup (bytes ++ rest) =
      (!decide (index + 1 = tokens.length), carriedValueId source, bytes.length) := by
  rw [readTokenForReverseLookup_eq_decodeToken _ source,
    decodeToken_encodeToken encoded found range source, carriedValueId_withToken]

end Mozkey.Dictionary
