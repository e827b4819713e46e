import Mozkey.Dictionary.TokenScan
import Mozkey.Dictionary.ValueCodec
import Mozkey.Storage.BitVectorBasedArrayImage
import Mozkey.Storage.LoudsTrie

/-!
# Decoding the tokens of a key

`TokenDecodeIterator` goes through the block of a key.  A token of the block may take its part of
speech and its value over from the token in front of it, its part of speech from the table of the
frequent ones, and its value from the key, so that the iterator keeps the last token and overwrites
what the next one carries.

On a block that was encoded from token infos which agree with the tables of the dictionary, a loop
over the iterator visits the tokens of these infos.
-/

namespace Mozkey.Dictionary

open Mozkey.Lib Mozkey.Storage CachedBitVectorIndex

/-! ## The dictionary -/

/-- The conversions between the two kinds of kana, which are tables of rules. -/
class JapaneseUtil where
  hiraganaToKatakana : ByteString → ByteString
  katakanaToHiragana : ByteString → ByteString

/-- The parts of an opened `SystemDictionary` that do not change. -/
structure SystemDictionary where
  keyTrie : LoudsTrie
  valueTrie : LoudsTrie
  tokenArray : OpenedArray
  frequentPos : List UInt32

/-- `GetCombinedPos`. -/
def getCombinedPos (lid rid : UInt16) : UInt32 := lid.toUInt32 <<< 16 ||| rid.toUInt32

/-! ## The iterator -/

/-- `TokenDecodeIterator::State`. -/
inductive DecodeStep
  | hasNext
  | lastToken
  | done
  deriving DecidableEq, Repr

/-- `TokenDecodeIterator`.  The token that `token_info_` points to is its own. -/
structure TokenDecodeIterator where
  key : ByteString
  keyKatakana : ByteString := []
  state : DecodeStep := .hasNext
  ptr : ByteString
  tokenInfo : TokenInfo
  deriving Repr

namespace SystemDictionary

variable [JapaneseUtil] (dictionary : SystemDictionary)

/-- `LookupValue`. -/
def lookupValue (id : Int) : Except Failure ByteString := do
  let encodedValue ← dictionary.valueTrie.restoreKeyString id
  return decodeValue encodedValue

/-- The switch over the value type in `NextInternal`. -/
def fillValue (prevIdInValueTrie : Int) (it : TokenDecodeIterator) :
    Except Failure TokenDecodeIterator :=
  let setValue (value : ByteString) : TokenInfo :=
    { it.tokenInfo with token := { it.tokenInfo.token with value := value } }
  match it.tokenInfo.valueType with
  | .defaultValue => do
      let value ← dictionary.lookupValue it.tokenInfo.idInValueTrie
      return { it with tokenInfo := setValue value }
  | .sameAsPrevValue =>
      .ok { it with tokenInfo := { it.tokenInfo with idInValueTrie := prevIdInValueTrie } }
  | .asIsHiragana => .ok { it with tokenInfo := setValue it.tokenInfo.token.key }
  | .asIsKatakana =>
      let keyKatakana := if it.key ≠ [] ∧ it.keyKatakana = []
        then JapaneseUtil.hiraganaToKatakana it.key else it.keyKatakana
      .ok { it with keyKatakana, tokenInfo := setValue keyKatakana }

/-- The frequent part of speech at the end of `NextInternal`. -/
def fillPos (info : TokenInfo) : Except Failure TokenInfo :=
  if info.posType = .frequentPos then
    match dictionary.frequentPos[info.idInFrequentPosMap.toNat]? with
    | some pos => .ok (info.setIds (pos >>> 16).toUInt16 (pos &&& 0xffff).toUInt16)
    | none => .error .outside
  else .ok info

/-- `TokenDecodeIterator::NextInternal`. -/
def nextInternal (it : TokenDecodeIterator) : Except Failure TokenDecodeIterator := do
  let prevIdInValueTrie := it.tokenInfo.idInValueTrie
  let read := decodeToken it.ptr { token := { it.tokenInfo.token with attributes := 0 } }
  if it.ptr.length < read.2.2 then throw .outside
  let it ← dictionary.fillValue prevIdInValueTrie
    { it with
      state := if read.1 then it.state else .lastToken
      ptr := it.ptr.drop read.2.2
      tokenInfo := read.2.1 }
  let info ← dictionary.fillPos it.tokenInfo
  return { it with tokenInfo := info }

/-- The constructor of `TokenDecodeIterator`, which moves to the first token. -/
def decodeIterator (key ptr : ByteString) : Except Failure TokenDecodeIterator :=
  dictionary.nextInternal { key, ptr, tokenInfo := { token := ⟨key, [], 0, 0, 0, 0⟩ } }

/-- `TokenDecodeIterator::Next`. -/
def next (it : TokenDecodeIterator) : Except Failure TokenDecodeIterator :=
  if it.state = .lastToken then .ok { it with state := .done } else dictionary.nextInternal it

variable {σ : Type} (visit : TokenInfo → σ → Bool × σ)

/-- The loop over the tokens of a block, which ends when a visit returns false.  Every token has a
byte of the block, so that it ends within the bytes. -/
def tokensLoop : Nat → TokenDecodeIterator → σ → Except Failure σ
  | 0, _, _ => .error .outside
  | fuel + 1, it, s =>
      if it.state = .done then .ok s
      else
        let visited := visit it.tokenInfo s
        if visited.1 then do
          let it ← dictionary.next it
          tokensLoop fuel it visited.2
        else .ok visited.2

/-- `for (TokenDecodeIterator iter(..., key, ptr); !iter.Done(); iter.Next())`. -/
def forTokens (key ptr : ByteString) (s : σ) : Except Failure σ := do
  let it ← dictionary.decodeIterator key ptr
  dictionary.tokensLoop visit (ptr.length + 2) it s

end SystemDictionary

/-! ## What the iterator shows -/

/-- The token that comes back. -/
def restored (info : TokenInfo) : Token :=
  { info.token with
    cost := storedCost info
    attributes := if isSpellingCorrection info then spellingCorrection else 0 }

/-- The value is made from the key. -/
def isAsIs (info : TokenInfo) : Bool :=
  info.valueType = .asIsHiragana || info.valueType = .asIsKatakana

/-- The token info that the iterator shows. -/
def shown (info : TokenInfo) : TokenInfo where
  token := restored info
  idInValueTrie := if isAsIs info then -1 else info.idInValueTrie
  idInFrequentPosMap := if info.posType = .frequentPos then info.idInFrequentPosMap else -1
  posType := info.posType
  valueType := info.valueType

/-- A token info and the one in front of it agree with the tables of the dictionary: what the token
does not carry itself is found there. -/
structure Decodable [JapaneseUtil] (dictionary : SystemDictionary) (key : ByteString)
    (prev : Option TokenInfo) (info : TokenInfo) : Prop where
  key_eq : info.token.key = key
  range : InRange info
  frequentPos : info.posType = .frequentPos → ∃ i : Nat, info.idInFrequentPosMap = i ∧ i < 256 ∧
    dictionary.frequentPos[i]? = some (getCombinedPos info.token.lid info.token.rid)
  sameAsPrevPos : info.posType = .sameAsPrevPos →
    ∃ p, prev = some p ∧ p.token.lid = info.token.lid ∧ p.token.rid = info.token.rid
  defaultValue : info.valueType = .defaultValue →
    dictionary.lookupValue info.idInValueTrie = .ok info.token.value
  sameAsPrevValue : info.valueType = .sameAsPrevValue → ∃ p, prev = some p ∧
    p.token.value = info.token.value ∧ p.idInValueTrie = info.idInValueTrie ∧ isAsIs p = false
  asIsHiragana : info.valueType = .asIsHiragana → info.token.value = key
  asIsKatakana : info.valueType = .asIsKatakana →
    info.token.value = JapaneseUtil.hiraganaToKatakana key

/-! ## One token -/

theorem getCombinedPos_toNat (lid rid : UInt16) :
    (getCombinedPos lid rid).toNat = lid.toNat * 2 ^ 16 + rid.toNat := by
  have small := rid.toNat_lt
  rw [getCombinedPos, UInt32.toNat_or, UInt32.toNat_shiftLeft, UInt16.toNat_toUInt32, UInt16.toNat_toUInt32]
  have := lid.toNat_lt
  have e : lid.toNat <<< (UInt32.toNat 16 % 32) % 2 ^ 32 = lid.toNat <<< 16 := by
    rw [show UInt32.toNat 16 % 32 = 16 from rfl, Nat.shiftLeft_eq]
    omega
  rw [e, ← Nat.shiftLeft_add_eq_or_of_lt (i := 16) small, Nat.shiftLeft_eq]

theorem shiftRight_getCombinedPos (lid rid : UInt16) :
    (getCombinedPos lid rid >>> 16).toUInt16 = lid := by
  apply UInt16.toNat_inj.1
  have small := rid.toNat_lt
  have := lid.toNat_lt
  rw [UInt32.toNat_toUInt16, UInt32.toNat_shiftRight, getCombinedPos_toNat]
  rw [show UInt32.toNat 16 % 32 = 16 from rfl, Nat.shiftRight_eq_div_pow]
  omega

theorem and_getCombinedPos (lid rid : UInt16) :
    (getCombinedPos lid rid &&& 0xffff).toUInt16 = rid := by
  apply UInt16.toNat_inj.1
  have small := rid.toNat_lt
  have := lid.toNat_lt
  rw [UInt32.toNat_toUInt16, UInt32.toNat_and, getCombinedPos_toNat]
  have mask : ∀ n : Nat, n &&& UInt32.toNat 0xffff = n % 2 ^ 16 := fun n => Nat.and_two_pow_sub_one_eq_mod n 16
  rw [mask]
  omega

section Step

variable {it : TokenDecodeIterator} {prev : Option TokenInfo} {source : TokenInfo}

/-- What the decoder reads when it starts from the last token. -/
def readInfo (it : TokenDecodeIterator) (source : TokenInfo) : TokenInfo :=
  withToken source { token := { it.tokenInfo.token with attributes := 0 } }

/-- The decoder touches neither the key nor the value. -/
theorem readInfo_eq (it : TokenDecodeIterator) (source : TokenInfo) : readInfo it source =
    { token := { it.tokenInfo.token with
        cost := storedCost source
        lid := if source.posType = .defaultPos then source.token.lid else it.tokenInfo.token.lid
        rid := if source.posType = .defaultPos then source.token.rid else it.tokenInfo.token.rid
        attributes := if isSpellingCorrection source then spellingCorrection else 0 }
      idInValueTrie := if source.valueType = .defaultValue then source.idInValueTrie else -1
      idInFrequentPosMap := if source.posType = .frequentPos
        then (UInt8.ofInt source.idInFrequentPosMap).toNat else -1
      posType := source.posType
      valueType := source.valueType } := by
  unfold readInfo withToken withValue withPos
  cases isSpellingCorrection source <;> cases source.posType <;> cases source.valueType <;> rfl

variable [JapaneseUtil] {dictionary : SystemDictionary}

/-- What the iterator keeps from token to token. -/
structure Keeps (it : TokenDecodeIterator) (prev : Option TokenInfo) : Prop where
  nonempty : it.key ≠ []
  keyKatakana : it.keyKatakana = [] ∨ it.keyKatakana = JapaneseUtil.hiraganaToKatakana it.key
  key_eq : it.tokenInfo.token.key = it.key
  shows : ∀ p, prev = some p → it.tokenInfo = shown p

/-- The value is filled in. -/
theorem fillValue_eq (keeps : Keeps it prev) (decodable : Decodable dictionary it.key prev source)
    (state : DecodeStep) (ptr : ByteString) :
    ∃ keyKatakana, (keyKatakana = [] ∨
        keyKatakana = JapaneseUtil.hiraganaToKatakana it.key) ∧
      dictionary.fillValue it.tokenInfo.idInValueTrie
          { it with state, ptr, tokenInfo := readInfo it source } =
        .ok { it with
          keyKatakana, state, ptr
          tokenInfo := { readInfo it source with
            token := { (readInfo it source).token with value := source.token.value }
            idInValueTrie := (shown source).idInValueTrie } } := by
  rw [readInfo_eq]
  cases kind : source.valueType with
  | defaultValue =>
      have isValue := decodable.defaultValue kind
      refine ⟨it.keyKatakana, keeps.keyKatakana, ?_⟩
      simp [SystemDictionary.fillValue, shown, isAsIs, kind, isValue]
  | sameAsPrevValue =>
      obtain ⟨p, isPrev, value, id, carried⟩ := decodable.sameAsPrevValue kind
      refine ⟨it.keyKatakana, keeps.keyKatakana, ?_⟩
      have before := keeps.shows p isPrev
      have own : isAsIs source = false := by simp [isAsIs, kind]
      simp [SystemDictionary.fillValue, before, shown, restored, carried, own, kind, value, id]
  | asIsHiragana =>
      refine ⟨it.keyKatakana, keeps.keyKatakana, ?_⟩
      simp [SystemDictionary.fillValue, shown, isAsIs, kind, decodable.asIsHiragana kind,
        keeps.key_eq]
  | asIsKatakana =>
      refine ⟨JapaneseUtil.hiraganaToKatakana it.key, .inr rfl, ?_⟩
      have isKatakana : (if it.key ≠ [] ∧ it.keyKatakana = []
          then JapaneseUtil.hiraganaToKatakana it.key else it.keyKatakana)
            = JapaneseUtil.hiraganaToKatakana it.key := by
        by_cases unset : it.keyKatakana = []
        · rw [if_pos ⟨keeps.nonempty, unset⟩]
        · rw [if_neg fun both => unset both.2]
          exact keeps.keyKatakana.resolve_left unset
      simp only [SystemDictionary.fillValue]
      rw [isKatakana]
      simp [shown, isAsIs, kind, decodable.asIsKatakana kind]

/-- The part of speech is filled in. -/
theorem fillPos_eq (keeps : Keeps it prev) (decodable : Decodable dictionary it.key prev source) :
    dictionary.fillPos { readInfo it source with
        token := { (readInfo it source).token with value := source.token.value }
        idInValueTrie := (shown source).idInValueTrie } = .ok (shown source) := by
  have key : it.tokenInfo.token.key = source.token.key :=
    keeps.key_eq.trans decodable.key_eq.symm
  rw [readInfo_eq]
  cases kind : source.posType with
  | frequentPos =>
      obtain ⟨i, isId, small, found⟩ := decodable.frequentPos kind
      have byte : (UInt8.ofInt source.idInFrequentPosMap).toNat = i := by
        rw [isId, ofInt_natCast, UInt8.toNat_ofNat', Nat.mod_eq_of_lt small]
      simp only [SystemDictionary.fillPos, if_true, byte, Int.toNat_natCast, found,
        TokenInfo.setIds, shiftRight_getCombinedPos, and_getCombinedPos]
      simp [shown, restored, kind, isId, key]
  | sameAsPrevPos =>
      obtain ⟨p, isPrev, lid, rid⟩ := decodable.sameAsPrevPos kind
      have before := keeps.shows p isPrev
      rw [before] at key
      simp only [shown, restored] at key
      simp [SystemDictionary.fillPos, shown, restored, kind, before, lid, rid, key]
  | defaultPos => simp [SystemDictionary.fillPos, shown, restored, kind, key]

/-- **The next token is read.** -/
theorem nextInternal_eq (keeps : Keeps it prev)
    (decodable : Decodable dictionary it.key prev source) {tokens : List TokenInfo} {i : Nat}
    {part rest : ByteString} (encoded : encodeToken tokens i = some part)
    (found : tokens[i]? = some source) (stored : it.ptr = part ++ rest) :
    ∃ next, dictionary.nextInternal it = .ok next ∧ Keeps next (some source) ∧
      next.key = it.key ∧ next.ptr = rest ∧ next.tokenInfo = shown source ∧
      next.state = if i + 1 = tokens.length then .lastToken else it.state := by
  have read : decodeToken (part ++ rest) { token := { it.tokenInfo.token with attributes := 0 } }
      = _ := decodeToken_encodeToken encoded found decodable.range _
  rw [← stored] at read
  obtain ⟨keyKatakana, isKatakana, filled⟩ := fillValue_eq keeps decodable
    (if (!decide (i + 1 = tokens.length)) = true then it.state else .lastToken)
    (it.ptr.drop part.length)
  have more : (if (!decide (i + 1 = tokens.length)) = true then it.state else .lastToken)
      = if i + 1 = tokens.length then .lastToken else it.state := by
    by_cases last : i + 1 = tokens.length <;> simp [last]
  have within : ¬ it.ptr.length < part.length := by
    rw [stored, List.length_append]
    omega
  refine ⟨{ it with
    keyKatakana
    state := if i + 1 = tokens.length then .lastToken else it.state
    ptr := rest
    tokenInfo := shown source }, ?_, ⟨keeps.nonempty, isKatakana, decodable.key_eq, ?_⟩, rfl, rfl,
    rfl, rfl⟩
  · unfold SystemDictionary.nextInternal
    simp only [read]
    rw [if_neg within]
    refine bind_eq_ok_iff.2 ⟨_, filled, bind_eq_ok_iff.2 ⟨_, fillPos_eq keeps decodable, ?_⟩⟩
    rw [more, stored, List.drop_left]
    rfl
  · rintro p isP
    cases isP
    rfl

end Step

/-! ## A block of tokens -/

section Block

variable [JapaneseUtil] {dictionary : SystemDictionary}

/-- Each of the token infos agrees with the tables of the dictionary. -/
def AllDecodable (dictionary : SystemDictionary) (key : ByteString) (infos : List TokenInfo) : Prop :=
  ∀ i info, infos[i]? = some info →
    Decodable dictionary key (if i = 0 then none else infos[i - 1]?) info

variable {σ : Type} {visit : TokenInfo → σ → Bool × σ} {infos : List TokenInfo}
  {parts : List ByteString} {rest : ByteString}

/-- The loop from a token on. -/
theorem tokensLoop_eq {key : ByteString} (decodable : AllDecodable dictionary key infos)
    (length : parts.length = infos.length)
    (encoded : ∀ i part, parts[i]? = some part → encodeToken infos i = some part) {i fuel : Nat}
    {info : TokenInfo} (here : infos[i]? = some info) (enough : infos.length - i < fuel)
    {it : TokenDecodeIterator} (keeps : Keeps it (some info)) (isKey : it.key = key)
    (stored : it.ptr = (parts.drop (i + 1)).flatten ++ rest)
    (state : it.state = if i + 1 = infos.length then .lastToken else .hasNext) (s : σ) :
    dictionary.tokensLoop visit fuel it s
      = .ok (foldWhile visit ((infos.drop i).map shown) s) := by
  induction fuel generalizing i info it s with
  | zero => omega
  | succ fuel ih =>
      have inside := (List.getElem?_eq_some_iff.1 here).1
      have notDone : it.state ≠ .done := by
        rw [state]
        split <;> decide
      have isHere : infos.drop i = info :: infos.drop (i + 1) := by
        rw [List.drop_eq_getElem_cons inside, (List.getElem?_eq_some_iff.1 here).2]
      rw [isHere, List.map_cons, foldWhile, SystemDictionary.tokensLoop, if_neg notDone,
        keeps.shows info rfl]
      cases visited : visit (shown info) s with
      | mk more s' =>
        cases more with
        | false => rfl
        | true =>
          simp only [if_true]
          by_cases last : i + 1 = infos.length
          · rw [if_pos last] at state
            rw [List.drop_eq_nil_of_le (by omega), SystemDictionary.next, if_pos state, bind_ok_]
            cases fuel with
            | zero => omega
            | succ fuel => rfl
          · rw [if_neg last] at state
            have there : infos[i + 1]? = some infos[i + 1] := List.getElem?_eq_getElem (by omega)
            have part : parts[i + 1]? = some parts[i + 1] := List.getElem?_eq_getElem (by omega)
            have isNext : parts.drop (i + 1) = parts[i + 1] :: parts.drop (i + 1 + 1) :=
              List.drop_eq_getElem_cons (by omega)
            have known := decodable (i + 1) _ there
            rw [if_neg (Nat.succ_ne_zero i), Nat.add_sub_cancel, here, ← isKey] at known
            rw [isNext, List.flatten_cons, List.append_assoc] at stored
            obtain ⟨next, read, keeps', isKey', stored', -, state'⟩ :=
              nextInternal_eq keeps known (encoded _ _ part) there stored
            rw [state] at state'
            rw [SystemDictionary.next, if_neg (by rw [state]; decide), read, bind_ok_]
            exact ih there (by omega) keeps' (isKey'.trans isKey) stored' state' s'

/-- **The tokens of a block are visited** in their order, until a visit ends the loop. -/
theorem forTokens_eq {key bytes : ByteString} (keyNonempty : key ≠ [])
    (decodable : AllDecodable dictionary key infos) (nonempty : infos ≠ [])
    (encoded : encodeTokens infos = some bytes) (s : σ) :
    dictionary.forTokens visit key (bytes ++ rest) s
      = .ok (foldWhile visit (infos.map shown) s) := by
  obtain ⟨parts, rfl, length, each, -⟩ := encodeTokens_eq_some encoded
  have positive := List.length_pos_of_ne_nil nonempty
  have here : infos[0]? = some infos[0] := List.getElem?_eq_getElem positive
  have part : parts[0]? = some parts[0] := List.getElem?_eq_getElem (by omega)
  have isFirst : parts = parts[0] :: parts.drop 1 := by
    conv_lhs => rw [← List.drop_zero (l := parts), List.drop_eq_getElem_cons (by omega)]
  have stored : parts.flatten ++ rest = parts[0] ++ ((parts.drop 1).flatten ++ rest) := by
    conv_lhs => rw [isFirst, List.flatten_cons, List.append_assoc]
  have known := decodable 0 _ here
  rw [if_pos rfl] at known
  have start : Keeps
      { key, ptr := parts.flatten ++ rest, tokenInfo := { token := ⟨key, [], 0, 0, 0, 0⟩ } } none :=
    ⟨keyNonempty, .inl rfl, rfl, fun p isP => by cases isP⟩
  obtain ⟨next, read, keeps, isKey, stored', -, state⟩ :=
    nextInternal_eq start known (each _ _ part) here stored
  have size : parts.length ≤ parts.flatten.length := by
    have least : ∀ n ∈ parts.map List.length, 1 ≤ n := by
      intro n member
      obtain ⟨part, isPart, rfl⟩ := List.mem_map.1 member
      obtain ⟨i, found⟩ := List.getElem?_of_mem isPart
      exact List.length_pos_of_ne_nil (encodeToken_ne_nil (each i part found))
    rw [List.length_flatten]
    simpa using List.length_le_sum_of_one_le _ least
  rw [SystemDictionary.forTokens, SystemDictionary.decodeIterator, read, bind_ok_]
  rw [tokensLoop_eq decodable length each here (by rw [List.length_append]; omega) keeps isKey
    stored' state]
  rfl

end Block

end Mozkey.Dictionary
