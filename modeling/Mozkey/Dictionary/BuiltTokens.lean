import Mozkey.Dictionary.SystemDictionaryBuilder

/-!
# What the builder prepares

After the ids and the types are set, the token infos of a key are the tokens with this key, sorted.
Every one of them agrees with the tables of the dictionary: a part of speech or a value that is
taken over from the token in front is the one of that token, a frequent part of speech is found at
its index, and a value is restored from its id or made from the key.
-/

namespace Mozkey.Dictionary

open Mozkey.Lib Mozkey.Storage CachedBitVectorIndex

namespace SystemDictionaryBuilder

/-! ## The parts of speech -/

theorem freqLoop_le {histogram : List (Nat × Nat)} {found : Nat × Nat} (few : found.1 ≤ 255) :
    (freqLoop histogram found).1 ≤ 255 := by
  induction histogram generalizing found with
  | nil => exact few
  | cons entry lower ih =>
      rw [freqLoop]
      split
      · exact few
      · next within => exact ih (Nat.not_lt.1 within)

/-- There are at most 255 frequent parts of speech. -/
theorem length_frequentPos {keyInfoList : List KeyInfo} {frequentPos : List UInt32}
    (done : buildFrequentPos keyInfoList = .ok frequentPos) : frequentPos.length ≤ 255 := by
  unfold buildFrequentPos at done
  dsimp only at done
  split at done
  · next checked =>
      cases done
      rw [checked]
      exact freqLoop_le (Nat.zero_le _)
  · cases done

theorem combinedPos_inj {info other : TokenInfo} :
    combinedPos info = combinedPos other ↔
      info.token.lid = other.token.lid ∧ info.token.rid = other.token.rid := by
  constructor
  · intro same
    unfold combinedPos at same
    constructor
    · rw [← shiftRight_getCombinedPos info.token.lid info.token.rid, same,
        shiftRight_getCombinedPos]
    · rw [← and_getCombinedPos info.token.lid info.token.rid, same, and_getCombinedPos]
  · rintro ⟨lid, rid⟩
    rw [combinedPos, combinedPos, lid, rid]

/-! ## How the tokens are stored -/

theorem getElem?_mapWithPrev (change : Option TokenInfo → TokenInfo → TokenInfo)
    (tokens : List TokenInfo) (i : Nat) : (mapWithPrev change tokens)[i]?
      = tokens[i]?.map (change (if i = 0 then none else tokens[i - 1]?)) := by
  rw [mapWithPrev, List.getElem?_zipWith]
  cases i with
  | zero => cases tokens <;> rfl
  | succ i =>
      simp only [List.getElem?_cons_succ, List.getElem?_map, Nat.succ_ne_zero, if_false,
        Nat.add_sub_cancel]
      cases here : tokens[i + 1]? with
      | none => cases tokens[i]? <;> rfl
      | some info =>
          have inside := (List.getElem?_eq_some_iff.1 here).1
          rw [List.getElem?_eq_getElem (show i < tokens.length by omega)]
          rfl

/-- The token, its value id and whether its value is made from the key stay. -/
structure Alike (info other : TokenInfo) : Prop where
  token : other.token = info.token
  idInValueTrie : other.idInValueTrie = info.idInValueTrie
  isAsIs : isAsIs other = isAsIs info

theorem Alike.trans {info other third : TokenInfo} (first : Alike info other)
    (second : Alike other third) : Alike info third :=
  ⟨second.token.trans first.token, second.idInValueTrie.trans first.idInValueTrie,
    second.isAsIs.trans first.isAsIs⟩

theorem alike_setPosTypeOf (frequentPos : List UInt32) (prev : Option TokenInfo)
    (info : TokenInfo) : Alike info (setPosTypeOf frequentPos prev info) := by
  unfold setPosTypeOf
  split
  · exact ⟨rfl, rfl, rfl⟩
  · split <;> exact ⟨rfl, rfl, rfl⟩

theorem alike_setValueTypeOf (prev : Option TokenInfo) (info : TokenInfo) :
    Alike info (setValueTypeOf prev info) := by
  unfold setValueTypeOf
  split
  · next both => exact ⟨rfl, rfl, by rw [both.1]; rfl⟩
  · exact ⟨rfl, rfl, rfl⟩

/-- The cost type that `SetCostType` gives a token info. -/
def costTypeFor (heterophoneValues : List ByteString) (keyInfo : KeyInfo) (info : TokenInfo) :
    CostType :=
  if charsLen keyInfo.key < kMinKeyLengthToUseSmallCostEncoding ∨ hasHomonymsInSamePos keyInfo ∨
      hasHeterophones keyInfo heterophoneValues ∨ info.token.cost < 0x100 then info.costType
  else .canUseSmallEncoding

/-- Only the cost type is changed. -/
theorem setCostTypeOf_eq (heterophoneValues : List ByteString) (keyInfo : KeyInfo) :
    setCostTypeOf heterophoneValues keyInfo =
      { keyInfo with
        tokens := keyInfo.tokens.map fun info =>
          { info with costType := costTypeFor heterophoneValues keyInfo info } } := by
  have same (costType : TokenInfo → CostType) (kept : costType = TokenInfo.costType) :
      keyInfo = { keyInfo with
        tokens := keyInfo.tokens.map (fun info => { info with costType := costType info }) } := by
    have id_ : (fun info : TokenInfo => { info with costType := info.costType }) = id := rfl
    rw [kept, id_, List.map_id]
  unfold setCostTypeOf
  split
  · next short => exact same _ (funext fun info => by simp [costTypeFor, short])
  split
  · next homonyms => exact same _ (funext fun info => by simp [costTypeFor, homonyms])
  split
  · next heterophones => exact same _ (funext fun info => by simp [costTypeFor, heterophones])
  · next long unique_ single =>
      congr 2
      funext info
      split
      · next small => simp [costTypeFor, small]
      · next large => simp [costTypeFor, long, unique_, single, large]

/-- What is known of a token info after its value id is set. -/
structure Sourced [JapaneseUtil] (dictionary : SystemDictionary) (key : ByteString)
    (valueId : ByteString → Int) (info : TokenInfo) : Prop where
  key_eq : info.token.key = key
  range : InRange info
  valueType : info.valueType = getValueType info.token
  posType : info.posType = .defaultPos
  idInValueTrie : info.idInValueTrie = valueId info.token.value
  lookupValue : isAsIs info = false →
    dictionary.lookupValue info.idInValueTrie = .ok info.token.value

theorem isAsIs_of_valueType [JapaneseUtil] {info : TokenInfo}
    (valueType : info.valueType = getValueType info.token) :
    isAsIs info = (info.token.value = info.token.key ||
      info.token.value = JapaneseUtil.hiraganaToKatakana info.token.key) := by
  unfold isAsIs
  rw [valueType, getValueType]
  split
  · next same => simp [same]
  · next differs =>
      split
      · next same => simp [same]
      · next other => simp [differs, other]

/-- A value that is made from the key is so before its type is set. -/
theorem valueType_of_asIs {prev : Option TokenInfo} {info : TokenInfo} {valueType : ValueType}
    (isType : (setValueTypeOf prev info).valueType = valueType)
    (asIs : valueType = .asIsHiragana ∨ valueType = .asIsKatakana) : info.valueType = valueType := by
  unfold setValueTypeOf at isType
  split at isType
  · rcases asIs with rfl | rfl <;> cases isType
  · exact isType

/-- What the type of a value says of it. -/
theorem Sourced.kinds [JapaneseUtil] {dictionary : SystemDictionary} {key : ByteString}
    {valueId : ByteString → Int} {info : TokenInfo} (source : Sourced dictionary key valueId info) :
    info.valueType ≠ .sameAsPrevValue ∧
      (info.valueType = .asIsHiragana → info.token.value = key) ∧
      (info.valueType = .asIsKatakana →
        info.token.value = JapaneseUtil.hiraganaToKatakana key) := by
  rw [source.valueType, getValueType, source.key_eq]
  split_ifs <;> simp_all

/-- One token info agrees with the tables after its types are set. -/
theorem decodable_setTypes [JapaneseUtil] {dictionary : SystemDictionary} {key : ByteString}
    {valueId : ByteString → Int} {info : TokenInfo} (source : Sourced dictionary key valueId info)
    {frequentPos padding : List UInt32} (few : frequentPos.length ≤ 255)
    (isTable : dictionary.frequentPos = frequentPos ++ padding)
    {prev prevPos prevFinal : Option TokenInfo}
    (prevSource : ∀ p, prev = some p → Sourced dictionary key valueId p)
    (tokens : prevPos.map TokenInfo.token = prev.map TokenInfo.token)
    (alike : ∀ p, prev = some p → ∃ q, prevFinal = some q ∧ Alike p q) :
    Decodable dictionary key prevFinal
      (setValueTypeOf prevPos (setPosTypeOf frequentPos prev info)) := by
  have kept : Alike info (setValueTypeOf prevPos (setPosTypeOf frequentPos prev info)) :=
    (alike_setPosTypeOf frequentPos prev info).trans (alike_setValueTypeOf prevPos _)
  have valueKept : (setPosTypeOf frequentPos prev info).valueType = info.valueType := by
    unfold setPosTypeOf
    split
    · rfl
    · split <;> rfl
  have posKept : (setValueTypeOf prevPos (setPosTypeOf frequentPos prev info)).posType
        = (setPosTypeOf frequentPos prev info).posType ∧
      (setValueTypeOf prevPos (setPosTypeOf frequentPos prev info)).idInFrequentPosMap
        = (setPosTypeOf frequentPos prev info).idInFrequentPosMap := by
    rw [setValueTypeOf]
    split <;> exact ⟨rfl, rfl⟩
  have asIs := isAsIs_of_valueType source.valueType
  refine ⟨?_, ?_, ?_, ?_, ?_, ?_, ?_, ?_⟩
  · rw [kept.token, source.key_eq]
  · have range := source.range
    exact ⟨kept.token ▸ range.cost_nonneg, kept.idInValueTrie ▸ range.id_lower,
      kept.idInValueTrie ▸ range.id_upper⟩
  · intro frequent
    rw [posKept.1] at frequent
    rw [posKept.2, kept.token, isTable]
    unfold setPosTypeOf at frequent ⊢
    split at frequent
    · cases frequent
    · next differs =>
        rw [if_neg differs]
        split at frequent
        · next member =>
            rw [if_pos member]
            have inside := List.idxOf_lt_length_iff.2 member
            refine ⟨_, rfl, by omega, ?_⟩
            rw [List.getElem?_append_left inside, List.getElem?_eq_getElem inside,
              List.getElem_idxOf]
            rfl
        · rw [source.posType] at frequent
          cases frequent
  · intro same
    rw [posKept.1] at same
    rw [kept.token]
    unfold setPosTypeOf at same
    split at same
    · next isPrev =>
        obtain ⟨p, isP, equal⟩ := Option.map_eq_some_iff.1 isPrev
        obtain ⟨q, isQ, isAlike⟩ := alike p isP
        exact ⟨q, isQ, by rw [isAlike.token]; exact combinedPos_inj.1 equal⟩
    · split at same
      · cases same
      · rw [source.posType] at same
        cases same
  · intro default
    rw [kept.idInValueTrie, kept.token]
    refine source.lookupValue ?_
    rw [← kept.isAsIs]
    simp [isAsIs, default]
  · intro same
    have notAsIs : isAsIs info = false := by
      rw [← kept.isAsIs]
      simp [isAsIs, same]
    rw [kept.token, kept.idInValueTrie]
    unfold setValueTypeOf at same
    split at same
    · next both =>
        obtain ⟨p', isP', value⟩ := Option.map_eq_some_iff.1 both.2
        rw [(alike_setPosTypeOf frequentPos prev info).token] at value
        rw [isP', Option.map_some] at tokens
        obtain ⟨p, isP, sameToken⟩ := Option.map_eq_some_iff.1 tokens.symm
        obtain ⟨q, isQ, isAlike⟩ := alike p isP
        have other := prevSource p isP
        rw [← sameToken] at value
        refine ⟨q, isQ, by rw [isAlike.token, value], ?_, ?_⟩
        · rw [isAlike.idInValueTrie, other.idInValueTrie, value, source.idInValueTrie]
        · rw [isAlike.isAsIs, isAsIs_of_valueType other.valueType, value, other.key_eq,
            ← source.key_eq, ← asIs, notAsIs]
    · exact absurd (valueKept ▸ same) source.kinds.1
  · intro hiragana
    rw [kept.token]
    exact source.kinds.2.1 (valueKept ▸ valueType_of_asIs hiragana (.inl rfl))
  · intro katakana
    rw [kept.token]
    exact source.kinds.2.2 (valueKept ▸ valueType_of_asIs katakana (.inr rfl))

/-- **The token infos of a key agree with the tables** after their types are set. -/
theorem allDecodable_mapWithPrev [JapaneseUtil] {dictionary : SystemDictionary} {key : ByteString}
    {valueId : ByteString → Int} {infos : List TokenInfo}
    (each : ∀ info ∈ infos, Sourced dictionary key valueId info)
    {frequentPos padding : List UInt32} (few : frequentPos.length ≤ 255)
    (isTable : dictionary.frequentPos = frequentPos ++ padding) :
    AllDecodable dictionary key
      (mapWithPrev setValueTypeOf (mapWithPrev (setPosTypeOf frequentPos) infos)) := by
  have sourced (j : Nat) (p : TokenInfo) (here : infos[j]? = some p) :
      Sourced dictionary key valueId p := each p (List.mem_of_getElem? here)
  intro i final found
  rw [getElem?_mapWithPrev, getElem?_mapWithPrev _ _ i, Option.map_map] at found
  obtain ⟨info, here, rfl⟩ := Option.map_eq_some_iff.1 found
  refine decodable_setTypes (sourced i info here) few isTable ?_ ?_ ?_
  · intro p isP
    split at isP
    · cases isP
    · exact sourced _ p isP
  · split
    · rfl
    · rw [getElem?_mapWithPrev, Option.map_map]
      refine congrFun (congrArg _ ?_) _
      funext p
      exact (alike_setPosTypeOf frequentPos _ p).token
  · intro p isP
    split at isP
    · cases isP
    · next positive =>
        rw [if_neg positive, getElem?_mapWithPrev, getElem?_mapWithPrev _ _ (i - 1), isP]
        exact ⟨_, rfl, (alike_setPosTypeOf frequentPos _ p).trans (alike_setValueTypeOf _ _)⟩

/-! ## Ids -/

theorem nonempty_of_buildAll {wordList : List ByteString} {builder : LoudsTrieBuilder}
    (built : LoudsTrie.buildAll wordList = .ok builder) : ∀ word ∈ wordList, word ≠ [] := by
  obtain ⟨added, isAdded, -⟩ := bind_eq_ok_iff.1 built
  clear built
  suffices all : ∀ start, wordList.foldlM LoudsTrieBuilder.add start = .ok added →
      ∀ word ∈ wordList, word ≠ [] from all {} isAdded
  clear isAdded
  induction wordList with
  | nil => simp
  | cons word others ih =>
      intro start done
      rw [List.foldlM_cons] at done
      obtain ⟨next, isNext, done⟩ := bind_eq_ok_iff.1 done
      refine List.forall_mem_cons.2 ⟨?_, ih next done⟩
      rintro rfl
      rw [LoudsTrieBuilder.add, if_pos (.inr rfl)] at isNext
      cases isNext

/-- The ids of a builder that has built. -/
theorem getId_of_buildAll {wordList : List ByteString} {builder : LoudsTrieBuilder}
    (built : LoudsTrie.buildAll wordList = .ok builder) (word : ByteString) :
    builder.getId word = .ok (LoudsTrie.idOf (LoudsTrieBuilder.sortWords wordList) word) := by
  have nonempty := nonempty_of_buildAll built
  rw [LoudsTrie.buildAll_eq nonempty] at built
  exact LoudsTrieBuilder.getId_eq (fun member => nonempty [] member rfl) built word

/-- A token info with the id of its value. -/
def withValueId (words : List ByteString) (info : TokenInfo) : TokenInfo :=
  { info with
    idInValueTrie := LoudsTrie.idOf (LoudsTrieBuilder.sortWords words)
      (encodeValue info.token.value) }

theorem setIdForValue_eq {words : List ByteString} {builder : LoudsTrieBuilder}
    (built : LoudsTrie.buildAll words = .ok builder) (keyInfo : KeyInfo) :
    setIdForValue builder keyInfo
      = .ok { keyInfo with tokens := keyInfo.tokens.map (withValueId words) } := by
  have each : ∀ info ∈ keyInfo.tokens, (do
      let id ← builder.getId (encodeValue info.token.value)
      return { info with idInValueTrie := id }) = (.ok (withValueId words info) : Except Failure _) := by
    intro info _
    rw [getId_of_buildAll built]
    rfl
  rw [setIdForValue, mapM_ok each]
  rfl

theorem setIdForKey_eq {words : List ByteString} {builder : LoudsTrieBuilder}
    (built : LoudsTrie.buildAll words = .ok builder) (keyInfo : KeyInfo) :
    setIdForKey builder keyInfo = .ok { keyInfo with
      idInKeyTrie := LoudsTrie.idOf (LoudsTrieBuilder.sortWords words) (encodeKey keyInfo.key) } := by
  rw [setIdForKey, getId_of_buildAll built]
  rfl

/-! ## The prepared keys -/

def keyWords (keyInfoList : List KeyInfo) : List ByteString :=
  keyInfoList.map fun keyInfo => encodeKey keyInfo.key

/-- A key info with its ids, and its token infos sorted. -/
def numbered (keyInfoList : List KeyInfo) (keyInfo : KeyInfo) : KeyInfo where
  idInKeyTrie := LoudsTrie.idOf (LoudsTrieBuilder.sortWords (keyWords keyInfoList))
    (encodeKey keyInfo.key)
  key := keyInfo.key
  tokens := sortBy tokenInfoLess (keyInfo.tokens.map (withValueId (valueWords keyInfoList)))

/-- A key info as it is prepared. -/
def finished (keyInfoList : List KeyInfo) (frequentPos : List UInt32) (keyInfo : KeyInfo) :
    KeyInfo :=
  setValueType (setPosType frequentPos (setCostTypeOf
    (heterophoneValues (keyInfoList.map (numbered keyInfoList))) (numbered keyInfoList keyInfo)))

/-- What was read when the keys are prepared. -/
structure ReadFrom [JapaneseUtil] (tokens : List Token) (prepared : Prepared)
    (keyInfoList : List KeyInfo) : Prop where
  isRead : readTokens tokens = .ok keyInfoList
  frequentPos : buildFrequentPos keyInfoList = .ok prepared.frequentPos
  valueTrie : buildValueTrie keyInfoList = .ok prepared.valueTrieBuilder
  keyTrie : buildKeyTrie keyInfoList = .ok prepared.keyTrieBuilder
  finished : prepared.keyInfoList = keyInfoList.map (finished keyInfoList prepared.frequentPos)

/-- **What is prepared.** -/
theorem readFrom_of_prepare [JapaneseUtil] {tokens : List Token} {prepared : Prepared}
    (done : prepare tokens = .ok prepared) : ∃ keyInfoList, ReadFrom tokens prepared keyInfoList := by
  obtain ⟨keyInfoList, isRead, done⟩ := bind_eq_ok_iff.1 done
  obtain ⟨frequentPos, isFrequent, done⟩ := bind_eq_ok_iff.1 done
  obtain ⟨valueTrieBuilder, isValue, done⟩ := bind_eq_ok_iff.1 done
  obtain ⟨keyTrieBuilder, isKey, done⟩ := bind_eq_ok_iff.1 done
  rw [mapM_ok fun keyInfo _ => setIdForValue_eq isValue keyInfo, bind_ok_,
    mapM_ok fun keyInfo _ => setIdForKey_eq isKey keyInfo, bind_ok_, List.map_map,
    List.map_map] at done
  obtain rfl : (⟨frequentPos, valueTrieBuilder, keyTrieBuilder, ((setCostType (keyInfoList.map
      (numbered keyInfoList))).map (setPosType frequentPos)).map setValueType⟩ : Prepared)
        = prepared := Except.ok.inj done
  refine ⟨keyInfoList, isRead, isFrequent, isValue, isKey, ?_⟩
  simp only [setCostType, List.map_map]
  rfl

/-! ## The finished keys -/

/-- The token infos of a finished key. -/
theorem tokens_finished (keyInfoList : List KeyInfo) (frequentPos : List UInt32)
    (keyInfo : KeyInfo) : ∃ costType : TokenInfo → CostType,
      (finished keyInfoList frequentPos keyInfo).tokens =
        mapWithPrev setValueTypeOf (mapWithPrev (setPosTypeOf frequentPos)
          ((numbered keyInfoList keyInfo).tokens.map fun info =>
            { info with costType := costType info })) := by
  refine ⟨costTypeFor (heterophoneValues (keyInfoList.map (numbered keyInfoList)))
    (numbered keyInfoList keyInfo), ?_⟩
  rw [finished, setValueType, setPosType, setCostTypeOf_eq]

theorem key_finished (keyInfoList : List KeyInfo) (frequentPos : List UInt32)
    (keyInfo : KeyInfo) : (finished keyInfoList frequentPos keyInfo).key = keyInfo.key ∧
      (finished keyInfoList frequentPos keyInfo).idInKeyTrie
        = LoudsTrie.idOf (LoudsTrieBuilder.sortWords (keyWords keyInfoList))
          (encodeKey keyInfo.key) := by
  rw [finished, setValueType, setPosType, setCostTypeOf_eq]
  exact ⟨rfl, rfl⟩

/-- What a change keeps of every token info, it keeps of all. -/
theorem map_mapWithPrev {α : Type} {change : Option TokenInfo → TokenInfo → TokenInfo}
    {get : TokenInfo → α} (kept : ∀ prev info, get (change prev info) = get info)
    (infos : List TokenInfo) : (mapWithPrev change infos).map get = infos.map get := by
  refine List.ext_getElem? fun i => ?_
  rw [List.getElem?_map, getElem?_mapWithPrev, Option.map_map, List.getElem?_map]
  exact congrFun (congrArg _ (funext fun info => kept _ info)) _

/-- Setting the types changes neither the tokens nor their value ids. -/
theorem map_tokens_finished {α : Type} {get : TokenInfo → α}
    (kept : ∀ info other, Alike info other → get other = get info) (keyInfoList : List KeyInfo)
    (frequentPos : List UInt32) (keyInfo : KeyInfo) :
    (finished keyInfoList frequentPos keyInfo).tokens.map get
      = (numbered keyInfoList keyInfo).tokens.map get := by
  obtain ⟨costType, isTokens⟩ := tokens_finished keyInfoList frequentPos keyInfo
  rw [isTokens, map_mapWithPrev fun prev info => kept _ _ (alike_setValueTypeOf prev info),
    map_mapWithPrev fun prev info => kept _ _ (alike_setPosTypeOf frequentPos prev info),
    List.map_map]
  exact List.map_congr_left fun info _ => kept _ _ ⟨rfl, rfl, rfl⟩

end SystemDictionaryBuilder

end Mozkey.Dictionary
