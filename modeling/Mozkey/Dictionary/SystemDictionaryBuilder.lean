import Mozkey.Dictionary.KeyCodec
import Mozkey.Dictionary.TokenDecodeIterator
import Mozkey.Lib.SortedRange
import Mozkey.Lib.Tally
import Mozkey.Storage.LoudsTrieImage

/-!
# The builder of the system dictionary

The builder groups the tokens by their keys, chooses the parts of speech that are frequent, builds
the trie of the values and the trie of the keys, and decides for each token of a key how its cost,
its part of speech and its value are stored.  The blocks of tokens go into the token array in the
order of the key ids.
-/

namespace Mozkey.Dictionary

open Mozkey.Lib Mozkey.Storage CachedBitVectorIndex

/-! ## Reading the tokens -/

instance linearOrderUInt32 : LinearOrder UInt32 where
  le_refl := UInt32.le_refl
  le_trans _ _ _ := UInt32.le_trans
  le_antisymm _ _ := UInt32.le_antisymm
  le_total := UInt32.le_total
  lt_iff_le_not_ge _ _ := by
    rw [UInt32.not_le]
    exact ⟨fun less => ⟨UInt32.le_of_lt less, less⟩, And.right⟩
  toDecidableLE := inferInstance
  toDecidableLT := inferInstance
  toDecidableEq := inferInstance

/-- `SystemDictionaryBuilder::KeyInfo`. -/
structure KeyInfo where
  idInKeyTrie : Int := -1
  key : ByteString
  tokens : List TokenInfo
  deriving Repr

/-- The part of speech of a token. -/
def combinedPos (info : TokenInfo) : UInt32 := getCombinedPos info.token.lid info.token.rid

namespace SystemDictionaryBuilder

section Read

variable [JapaneseUtil]

/-- `GetValueType`. -/
def getValueType (token : Token) : ValueType :=
  if token.value = token.key then .asIsHiragana
  else if token.value = JapaneseUtil.hiraganaToKatakana token.key then .asIsKatakana
  else .defaultValue

/-- The second step of `ReadTokens`: tokens with one key, which stand together, are put into one
`KeyInfo`. -/
def groupTokens : KeyInfo → List Token → List KeyInfo
  | lastKeyInfo, [] => [lastKeyInfo]
  | lastKeyInfo, token :: tokens =>
      let info : TokenInfo := { token, valueType := getValueType token }
      if lastKeyInfo.key ≠ token.key then
        lastKeyInfo :: groupTokens { key := token.key, tokens := [info] } tokens
      else groupTokens { lastKeyInfo with tokens := lastKeyInfo.tokens ++ [info] } tokens

/-- `ReadTokens`. -/
def readTokens (tokens : List Token) : Except Failure (List KeyInfo) :=
  if ∀ token ∈ tokens, token.key ≠ [] ∧ token.value ≠ [] then
    match sortBy (fun l r => l.key < r.key) tokens with
    | [] => .ok []
    | token :: tokens => .ok (groupTokens { key := token.key, tokens := [] } (token :: tokens))
  else .error .checkFails

end Read

/-! ## Frequent parts of speech -/

def allTokens (keyInfoList : List KeyInfo) : List TokenInfo := keyInfoList.flatMap KeyInfo.tokens

/-- The frequency of each part of speech. -/
def posMap (keyInfoList : List KeyInfo) : SortedMap UInt32 Nat :=
  SortedMap.tally combinedPos (fun _ => 1) (allTokens keyInfoList)

/-- The histogram of the frequencies. -/
def freqMap (posMap : SortedMap UInt32 Nat) : SortedMap Nat Nat :=
  SortedMap.tally Prod.snd (fun _ => 1) posMap.elements

/-- The loop that goes through the histogram from the highest frequency down and computes the
number of frequent parts of speech and the threshold. -/
def freqLoop : List (Nat × Nat) → Nat × Nat → Nat × Nat
  | [], found => found
  | (freq, count) :: lower, (numFreqPos, freqThreshold) =>
      if numFreqPos + count > 255 then (numFreqPos, freqThreshold)
      else freqLoop lower (numFreqPos + count, freq)

/-- `BuildFrequentPos`: the frequent parts of speech, each at its index. -/
def buildFrequentPos (keyInfoList : List KeyInfo) : Except Failure (List UInt32) :=
  let posMap := posMap keyInfoList
  let found := freqLoop (freqMap posMap).elements.reverse (0, 2 ^ 31 - 1)
  let frequentPos := (posMap.elements.filter (found.2 ≤ ·.2)).map Prod.fst
  if frequentPos.length = found.1 then .ok frequentPos else .error .checkFails

/-! ## The tries -/

/-- The encoded values that are added to the value trie. -/
def valueWords (keyInfoList : List KeyInfo) : List ByteString :=
  ((allTokens keyInfoList).filter fun info => !isAsIs info).map fun info => encodeValue info.token.value

/-- `BuildValueTrie`. -/
def buildValueTrie (keyInfoList : List KeyInfo) : Except Failure LoudsTrieBuilder :=
  LoudsTrie.buildAll (valueWords keyInfoList)

/-- `BuildKeyTrie`. -/
def buildKeyTrie (keyInfoList : List KeyInfo) : Except Failure LoudsTrieBuilder :=
  LoudsTrie.buildAll (keyInfoList.map fun keyInfo => encodeKey keyInfo.key)

/-- `SetIdForValue`. -/
def setIdForValue (valueTrieBuilder : LoudsTrieBuilder) (keyInfo : KeyInfo) :
    Except Failure KeyInfo := do
  let tokens ← keyInfo.tokens.mapM fun info => do
    let id ← valueTrieBuilder.getId (encodeValue info.token.value)
    return { info with idInValueTrie := id }
  return { keyInfo with tokens }

/-- `SetIdForKey`. -/
def setIdForKey (keyTrieBuilder : LoudsTrieBuilder) (keyInfo : KeyInfo) :
    Except Failure KeyInfo := do
  let id ← keyTrieBuilder.getId (encodeKey keyInfo.key)
  return { keyInfo with idInKeyTrie := id }

/-! ## How the tokens are stored -/

/-- The comparison of `SortTokenInfo`, by the ids of the part of speech downwards, and then by the
value id and the attributes upwards. -/
def tokenInfoLess (lhs rhs : TokenInfo) : Bool :=
  if rhs.token.lid ≠ lhs.token.lid then rhs.token.lid < lhs.token.lid
  else if rhs.token.rid ≠ lhs.token.rid then rhs.token.rid < lhs.token.rid
  else if lhs.idInValueTrie ≠ rhs.idInValueTrie then lhs.idInValueTrie < rhs.idInValueTrie
  else lhs.token.attributes < rhs.token.attributes

/-- `SortTokenInfo`. -/
def sortTokenInfo (keyInfo : KeyInfo) : KeyInfo :=
  { keyInfo with tokens := sortBy tokenInfoLess keyInfo.tokens }

/-- `HasHomonymsInSamePos`. -/
def hasHomonymsInSamePos (keyInfo : KeyInfo) : Bool :=
  if keyInfo.tokens.length = 1 then false else ¬ (keyInfo.tokens.map combinedPos).Nodup

/-- `HasHeterophones`. -/
def hasHeterophones (keyInfo : KeyInfo) (heteronymValues : List ByteString) : Bool :=
  keyInfo.tokens.any fun info => info.token.value ∈ heteronymValues

/-- One round of the loop that collects the values with more than one reading; it knows the first
reading of each value. -/
def seeReading (state : List ByteString × List (ByteString × ByteString)) (info : TokenInfo) :
    List ByteString × List (ByteString × ByteString) :=
  if info.token.value ∈ state.1 then state
  else
    match state.2.lookup info.token.value with
    | none => (state.1, (info.token.value, info.token.key) :: state.2)
    | some reading =>
        if reading = info.token.key then state else (info.token.value :: state.1, state.2)

/-- The default of the flag `min_key_length_to_use_small_cost_encoding`. -/
def kMinKeyLengthToUseSmallCostEncoding : Nat := 6

/-- `SetCostType`, for one key. -/
def setCostTypeOf (heterophoneValues : List ByteString) (keyInfo : KeyInfo) : KeyInfo :=
  if charsLen keyInfo.key < kMinKeyLengthToUseSmallCostEncoding then keyInfo
  else if hasHomonymsInSamePos keyInfo then keyInfo
  else if hasHeterophones keyInfo heterophoneValues then keyInfo
  else
    { keyInfo with tokens := keyInfo.tokens.map fun info =>
        if info.token.cost < 0x100 then info else { info with costType := .canUseSmallEncoding } }

/-- The values with more than one reading. -/
def heterophoneValues (keyInfoList : List KeyInfo) : List ByteString :=
  ((allTokens keyInfoList).foldl seeReading ([], [])).1

/-- `SetCostType`. -/
def setCostType (keyInfoList : List KeyInfo) : List KeyInfo :=
  keyInfoList.map (setCostTypeOf (heterophoneValues keyInfoList))

/-- Each token info is changed with a view to the one in front of it. -/
def mapWithPrev (change : Option TokenInfo → TokenInfo → TokenInfo) (tokens : List TokenInfo) :
    List TokenInfo :=
  List.zipWith change (none :: tokens.map some) tokens

/-- One round of `SetPosType`. -/
def setPosTypeOf (frequentPos : List UInt32) (prev : Option TokenInfo) (info : TokenInfo) :
    TokenInfo :=
  if prev.map combinedPos = some (combinedPos info) then
    -- The index of a frequent part of speech stays.
    { info with
      posType := .sameAsPrevPos
      idInFrequentPosMap := if combinedPos info ∈ frequentPos
        then frequentPos.idxOf (combinedPos info) else info.idInFrequentPosMap }
  else if combinedPos info ∈ frequentPos then
    { info with
      posType := .frequentPos
      idInFrequentPosMap := frequentPos.idxOf (combinedPos info) }
  else info

/-- `SetPosType`. -/
def setPosType (frequentPos : List UInt32) (keyInfo : KeyInfo) : KeyInfo :=
  { keyInfo with tokens := mapWithPrev (setPosTypeOf frequentPos) keyInfo.tokens }

/-- One round of `SetValueType`. -/
def setValueTypeOf (prev : Option TokenInfo) (info : TokenInfo) : TokenInfo :=
  if isAsIs info = false ∧ prev.map (fun p => p.token.value) = some info.token.value then
    { info with valueType := .sameAsPrevValue }
  else info

/-- `SetValueType`. -/
def setValueType (keyInfo : KeyInfo) : KeyInfo :=
  { keyInfo with tokens := mapWithPrev setValueTypeOf keyInfo.tokens }

/-! ## Building -/

/-- What the builder knows of the keys before it writes the token array. -/
structure Prepared where
  frequentPos : List UInt32
  valueTrieBuilder : LoudsTrieBuilder
  keyTrieBuilder : LoudsTrieBuilder
  keyInfoList : List KeyInfo
  deriving Repr

/-- `BuildFromTokensInternal` without its last step. -/
def prepare [JapaneseUtil] (tokens : List Token) : Except Failure Prepared := do
  let keyInfoList ← readTokens tokens
  let frequentPos ← buildFrequentPos keyInfoList
  let valueTrieBuilder ← buildValueTrie keyInfoList
  let keyTrieBuilder ← buildKeyTrie keyInfoList
  let keyInfoList ← keyInfoList.mapM (setIdForValue valueTrieBuilder)
  let keyInfoList ← keyInfoList.mapM (setIdForKey keyTrieBuilder)
  let keyInfoList := setCostType (keyInfoList.map sortTokenInfo)
  let keyInfoList := (keyInfoList.map (setPosType frequentPos)).map setValueType
  return { frequentPos, valueTrieBuilder, keyTrieBuilder, keyInfoList }

/-- The table of the key infos by their ids; an id outside of the table is written outside of a
vector. -/
def idToKeyInfoTable (keyInfoList : List KeyInfo) : Except Failure (List (Option KeyInfo)) :=
  keyInfoList.foldlM (fun table keyInfo =>
      if 0 ≤ keyInfo.idInKeyTrie ∧ keyInfo.idInKeyTrie < (table.length : Int) then
        .ok (table.set keyInfo.idInKeyTrie.toNat (some keyInfo))
      else .error .outside)
    (List.replicate keyInfoList.length none)

/-- The block of a key info that the table points to. -/
def encodeBlock (entry : Option KeyInfo) : Except Failure ByteString :=
  match entry with
  | none => .error .outside
  | some keyInfo =>
      match encodeTokens keyInfo.tokens with
      | none => .error .checkFails
      | some block => .ok block

/-- `BuildTokenArray`: the image of the token array. -/
def buildTokenArray (keyInfoList : List KeyInfo) : Except Failure ByteString := do
  let table ← idToKeyInfoTable keyInfoList
  let blocks ← table.mapM encodeBlock
  BitVectorBasedArrayBuilder.build 4 1 (blocks ++ [[kTokenTerminationFlag]])

end SystemDictionaryBuilder

/-- `SystemDictionaryBuilder`, built: the images of its sections. -/
structure SystemDictionaryBuilder where
  valueTrieImage : ByteString
  keyTrieImage : ByteString
  tokenArrayImage : ByteString
  frequentPosArray : List UInt32
  deriving Repr

namespace SystemDictionaryBuilder

/-- `BuildFromTokensInternal`, and the table of the parts of speech as `WriteToStream` writes it. -/
def buildFromTokens [JapaneseUtil] (tokens : List Token) : Except Failure SystemDictionaryBuilder := do
  let prepared ← prepare tokens
  let tokenArrayImage ← buildTokenArray prepared.keyInfoList
  return {
    valueTrieImage := prepared.valueTrieBuilder.image
    keyTrieImage := prepared.keyTrieBuilder.image
    tokenArrayImage
    frequentPosArray := prepared.frequentPos
      ++ List.replicate (256 - prepared.frequentPos.length) 0 }

end SystemDictionaryBuilder

/-! ## Opening -/

namespace SystemDictionary

def keyTrieCacheSizes : TrieCacheSizes :=
  ⟨1 * 1024, 1 * 1024, 4 * 1024, 4 * 1024, 1 * 1024⟩

def valueTrieCacheSizes : TrieCacheSizes :=
  ⟨1 * 1024, 1 * 1024, 1 * 1024, 16 * 1024, 4 * 1024⟩

/-- `OpenDictionaryFile`. -/
def openDictionaryFile (builder : SystemDictionaryBuilder) : Except Failure SystemDictionary := do
  let keyTrie ← LoudsTrie.openImage builder.keyTrieImage keyTrieCacheSizes
  let valueTrie ← LoudsTrie.openImage builder.valueTrieImage valueTrieCacheSizes
  let tokenArray ← OpenedArray.openImage builder.tokenArrayImage
  return { keyTrie, valueTrie, tokenArray, frequentPos := builder.frequentPosArray }

end SystemDictionary

namespace SystemDictionaryBuilder

/-! ## Grouping -/

section Group

variable [JapaneseUtil]

/-- The token info of a token that was read. -/
def readInfoOf (token : Token) : TokenInfo := { token, valueType := getValueType token }

/-- The tokens with a key. -/
def tokensOf (key : ByteString) (tokens : List Token) : List Token :=
  tokens.filter fun token => token.key = key

/-- What a list of key infos has to be for tokens that are sorted by their keys. -/
structure Groups (tokens : List Token) (keyInfoList : List KeyInfo) : Prop where
  increasing : (keyInfoList.map KeyInfo.key).Pairwise (· < ·)
  tokens_eq : ∀ keyInfo ∈ keyInfoList,
    keyInfo.tokens = (tokensOf keyInfo.key tokens).map readInfoOf
  covers : ∀ token ∈ tokens, ∃ keyInfo ∈ keyInfoList, keyInfo.key = token.key
  used : ∀ keyInfo ∈ keyInfoList, ∃ token ∈ tokens, token.key = keyInfo.key

/-- A group in front of the others. -/
theorem Groups.cons {front tokens : List Token} {keyInfo : KeyInfo} {others : List KeyInfo}
    (groups : Groups tokens others) (isFirst : keyInfo.tokens = front.map readInfoOf)
    (same : ∀ token ∈ front, token.key = keyInfo.key) (nonempty : front ≠ [])
    (less : ∀ token ∈ tokens, keyInfo.key < token.key) :
    Groups (front ++ tokens) (keyInfo :: others) := by
  have above : ∀ other ∈ others, keyInfo.key < other.key := by
    intro other member
    obtain ⟨token, inside, isKey⟩ := groups.used other member
    exact (less token inside).trans_eq isKey
  refine ⟨?_, ?_, ?_, ?_⟩
  · rw [List.map_cons, List.pairwise_cons]
    refine ⟨fun key member => ?_, groups.increasing⟩
    obtain ⟨other, inside, rfl⟩ := List.mem_map.1 member
    exact above other inside
  · intro other member
    rw [tokensOf, List.filter_append]
    rcases List.mem_cons.1 member with rfl | member
    · rw [List.filter_eq_self.2 fun t inside => by simpa using same t inside,
        List.filter_eq_nil_iff.2 fun t inside => by simpa using (less t inside).ne',
        List.append_nil, isFirst]
    · have none_ : front.filter (fun token => decide (token.key = other.key)) = [] := by
        refine List.filter_eq_nil_iff.2 fun t inside => ?_
        simpa [same t inside] using (above other member).ne
      rw [none_, List.nil_append, ← tokensOf]
      exact groups.tokens_eq other member
  · intro t member
    rcases List.mem_append.1 member with inFront | inTokens
    · exact ⟨keyInfo, List.mem_cons_self, (same t inFront).symm⟩
    · obtain ⟨other, inside, isKey⟩ := groups.covers t inTokens
      exact ⟨other, List.mem_cons_of_mem _ inside, isKey⟩
  · intro other member
    rcases List.mem_cons.1 member with rfl | member
    · obtain ⟨t, rest, rfl⟩ := List.exists_cons_of_ne_nil nonempty
      exact ⟨t, by simp, same t (by simp)⟩
    · obtain ⟨t, inside, isKey⟩ := groups.used other member
      exact ⟨t, List.mem_append_right _ inside, isKey⟩

theorem groups_groupTokens {front tokens : List Token} {last : KeyInfo}
    (sorted : tokens.Pairwise fun l r => l.key ≤ r.key)
    (above : ∀ token ∈ tokens, last.key ≤ token.key)
    (isLast : last.tokens = front.map readInfoOf) (same : ∀ token ∈ front, token.key = last.key)
    (some_ : front ≠ [] ∨ ∃ token ∈ tokens, token.key = last.key) :
    Groups (front ++ tokens) (groupTokens last tokens) := by
  induction tokens generalizing last front with
  | nil =>
      have none_ : Groups [] [] := ⟨List.Pairwise.nil, by simp, by simp, by simp⟩
      exact none_.cons isLast same (some_.resolve_right (by simp)) (by simp)
  | cons token tokens ih =>
      rw [List.pairwise_cons] at sorted
      rw [List.forall_mem_cons] at above
      by_cases differs : last.key ≠ token.key
      · have less : last.key < token.key := lt_of_le_of_ne above.1 differs
        have later : ∀ t ∈ token :: tokens, last.key < t.key :=
          List.forall_mem_cons.2 ⟨less, fun t member => less.trans_le (sorted.1 t member)⟩
        have groups := @ih [token] { key := token.key, tokens := [readInfoOf token] } sorted.2
          sorted.1 rfl (by simp) (.inl (List.cons_ne_nil _ _))
        rw [groupTokens, if_pos differs]
        exact groups.cons isLast same
          (some_.resolve_right fun ⟨t, member, isKey⟩ => (later t member).ne' isKey) later
      · have isKey := not_not.1 differs
        have groups := @ih (front ++ [token])
          { last with tokens := last.tokens ++ [readInfoOf token] } sorted.2 above.2
          (by rw [isLast, List.map_append]; rfl)
          (by
            intro t member
            rcases List.mem_append.1 member with inFront | isToken
            · exact same t inFront
            · rw [List.mem_singleton.1 isToken, isKey])
          (.inl (by simp))
        rw [groupTokens, if_neg differs]
        rwa [List.append_assoc, List.singleton_append] at groups

/-- **The tokens are grouped by their keys.** -/
theorem readTokens_eq_ok {tokens : List Token} {keyInfoList : List KeyInfo}
    (done : readTokens tokens = .ok keyInfoList) :
    (∀ token ∈ tokens, token.key ≠ [] ∧ token.value ≠ []) ∧ Groups tokens keyInfoList := by
  unfold readTokens at done
  split at done
  swap
  · cases done
  · next nonempty =>
      refine ⟨nonempty, ?_⟩
      have ranked : ∀ l r : Token, decide (l.key < r.key) = true ↔ l.key < r.key :=
        fun l r => decide_eq_true_iff
      have perm := sortBy_perm (fun l r : Token => decide (l.key < r.key)) tokens
      have sorted := sortBy_sorted ranked tokens
      have kept (key : ByteString) : tokensOf key
          (sortBy (fun l r : Token => decide (l.key < r.key)) tokens) = tokensOf key tokens := by
        refine filter_sortBy fun l _ r _ isL isR => ?_
        rw [decide_eq_true_iff] at isL isR
        simp [isL, isR]
      generalize sortBy (fun l r : Token => decide (l.key < r.key)) tokens = inOrder
        at done perm sorted kept
      have groups : Groups inOrder keyInfoList := by
        cases inOrder with
        | nil =>
            cases done
            exact ⟨List.Pairwise.nil, by simp, by simp, by simp⟩
        | cons token others =>
            cases done
            rw [List.pairwise_cons] at sorted
            have none_ : ({ key := token.key, tokens := [] } : KeyInfo).tokens
              = ([] : List Token).map readInfoOf := rfl
            exact groups_groupTokens (List.pairwise_cons.2 sorted)
              (List.forall_mem_cons.2 ⟨le_rfl, sorted.1⟩) none_ (by simp)
              (.inr ⟨token, List.mem_cons_self, rfl⟩)
      refine ⟨groups.increasing, ?_, ?_, ?_⟩
      · intro keyInfo member
        rw [groups.tokens_eq keyInfo member, kept]
      · exact fun token member => groups.covers token (perm.mem_iff.2 member)
      · intro keyInfo member
        obtain ⟨token, inside, isKey⟩ := groups.used keyInfo member
        exact ⟨token, perm.mem_iff.1 inside, isKey⟩

end Group

end SystemDictionaryBuilder

end Mozkey.Dictionary
