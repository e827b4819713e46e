import Mozkey.Dictionary.BuiltTokens

/-!
# The image of the system dictionary

What the builder writes is opened to a dictionary with two tries and a token array: the keys are the
words of the key trie, the values that are not made from their keys are the words of the value trie,
and the block of a key stands in the token array at the id of the key.  A loop over the decoded
tokens of a key visits the tokens with this key that the builder was given.
-/

namespace Mozkey.Dictionary

open Mozkey.Lib Mozkey.Storage CachedBitVectorIndex SystemDictionaryBuilder LoudsTrieBuilder

/-! ## Texts -/

/-- A valid text without the null character. -/
def IsText (str : ByteString) : Prop := ∃ text : List Char, Char.ofNat 0 ∉ text ∧ str = utf8 text

theorem decodeKey_encodeKey {key : ByteString} (isText : IsText key) :
    decodeKey (encodeKey key) = key := by
  obtain ⟨text, noNul, rfl⟩ := isText
  exact encodeDecodeKey_involutive noNul

theorem encodeKey_inj {key other : ByteString} (isText : IsText key) (isText' : IsText other)
    (same : encodeKey key = encodeKey other) : key = other := by
  rw [← decodeKey_encodeKey isText, same, decodeKey_encodeKey isText']

theorem decodeValue_encodeValue_text {value : ByteString} (isText : IsText value) :
    decodeValue (encodeValue value) = value := by
  obtain ⟨text, noNul, rfl⟩ := isText
  rw [decodeValue_encodeValue, List.filter_eq_self.2]
  intro c member
  have differs : c ≠ nullChar := by
    rintro rfl
    exact noNul member
  simpa using differs

theorem encodeValue_inj {value other : ByteString} (isText : IsText value)
    (isText' : IsText other) (same : encodeValue value = encodeValue other) : value = other := by
  rw [← decodeValue_encodeValue_text isText, same, decodeValue_encodeValue_text isText']

/-! ## The words of a trie -/

/-- The sorted words depend on the members only. -/
theorem sortWords_congr {wordList others : List ByteString}
    (same : ∀ word, word ∈ wordList ↔ word ∈ others) : sortWords wordList = sortWords others := by
  refine eq_of_pairwise_lt (pairwise_sortWords wordList) (pairwise_sortWords others) fun word => ?_
  rw [mem_sortWords, mem_sortWords, same]

/-- The words in the order of their ids. -/
def inIdOrder (wordList : List ByteString) : List ByteString :=
  wordsAmong (sortWords wordList) (PrefixTree.nodes (sortWords wordList))

theorem mem_inIdOrder {wordList : List ByteString} {word : ByteString} :
    word ∈ inIdOrder wordList ↔ word ∈ wordList := by
  rw [inIdOrder, LoudsTrie.mem_wordsAmong, mem_sortWords]

theorem nodup_inIdOrder (wordList : List ByteString) : (inIdOrder wordList).Nodup :=
  (LoudsTrie.wordsAmong_nodes wordList).1

theorem idOf_eq {wordList : List ByteString} {word : ByteString} (member : word ∈ wordList) :
    LoudsTrie.idOf (sortWords wordList) word = ((inIdOrder wordList).idxOf word : Nat) :=
  LoudsTrie.idOf_of_mem (mem_sortWords.2 member)

/-! ## The table of the keys -/

/-- The table after some keys: each stands at its id. -/
theorem foldlM_table {keyInfoList : List KeyInfo} {table : List (Option KeyInfo)}
    (inside : ∀ keyInfo ∈ keyInfoList,
      0 ≤ keyInfo.idInKeyTrie ∧ keyInfo.idInKeyTrie < (table.length : Int))
    (distinct : (keyInfoList.map KeyInfo.idInKeyTrie).Nodup) :
    ∃ filled : List (Option KeyInfo), keyInfoList.foldlM (fun table keyInfo =>
        if 0 ≤ keyInfo.idInKeyTrie ∧ keyInfo.idInKeyTrie < (table.length : Int) then
          .ok (table.set keyInfo.idInKeyTrie.toNat (some keyInfo))
        else .error .outside) table = (.ok filled : Except Failure _) ∧
      filled.length = table.length ∧
      (∀ keyInfo ∈ keyInfoList, filled[keyInfo.idInKeyTrie.toNat]? = some (some keyInfo)) ∧
      ∀ i : Nat, (∀ keyInfo ∈ keyInfoList, keyInfo.idInKeyTrie ≠ i) → filled[i]? = table[i]? := by
  induction keyInfoList generalizing table with
  | nil => exact ⟨table, rfl, rfl, by simp, fun _ _ => rfl⟩
  | cons first others ih =>
      rw [List.forall_mem_cons] at inside
      rw [List.map_cons, List.nodup_cons] at distinct
      obtain ⟨nonneg, less⟩ := inside.1
      obtain ⟨filled, isFilled, length, found, kept⟩ :=
        @ih (table.set first.idInKeyTrie.toNat (some first))
          (by simpa [List.length_set] using inside.2) distinct.2
      refine ⟨filled, ?_, by rw [length, List.length_set], ?_, ?_⟩
      · rw [List.foldlM_cons, if_pos inside.1]
        exact isFilled
      · refine List.forall_mem_cons.2 ⟨?_, found⟩
        rw [kept first.idInKeyTrie.toNat]
        · rw [List.getElem?_set_self (by omega)]
        · intro other member same
          rw [Int.toNat_of_nonneg nonneg] at same
          exact distinct.1 (List.mem_map.2 ⟨other, member, same⟩)
      · intro i absent
        rw [List.forall_mem_cons] at absent
        rw [kept i absent.2, List.getElem?_set_ne]
        have differs := absent.1
        omega

/-- **The table of the keys** by their ids. -/
theorem idToKeyInfoTable_eq {keyInfoList : List KeyInfo} (distinct : (keyWords keyInfoList).Nodup)
    (ids : ∀ keyInfo ∈ keyInfoList, keyInfo.idInKeyTrie
      = ((inIdOrder (keyWords keyInfoList)).idxOf (encodeKey keyInfo.key) : Nat)) :
    ∃ entries, idToKeyInfoTable keyInfoList = .ok (entries.map some) ∧
      entries.Perm keyInfoList ∧ keyWords entries = inIdOrder (keyWords keyInfoList) := by
  have nodup := nodup_inIdOrder (keyWords keyInfoList)
  have perm := (List.perm_ext_iff_of_nodup nodup distinct).2 fun _ => mem_inIdOrder
  -- The keys stand in the order of their words.
  obtain ⟨entries, inOrder, permEntries⟩ := List.perm_comp_forall₂
    (r := fun word (keyInfo : KeyInfo) => word = encodeKey keyInfo.key) perm
    (List.forall₂_map_left_iff.2 (List.forall₂_same.2 fun _ _ => rfl))
  have wordsOf : keyWords entries = inIdOrder (keyWords keyInfoList) := by
    rw [← List.forall₂_eq_eq_eq, keyWords, List.forall₂_map_left_iff]
    exact inOrder.flip.imp fun _ _ same => same.symm
  have isId (i : Nat) (keyInfo : KeyInfo) (here : entries[i]? = some keyInfo) :
      keyInfo.idInKeyTrie = i := by
    have word : (inIdOrder (keyWords keyInfoList))[i]? = some (encodeKey keyInfo.key) := by
      rw [← wordsOf, keyWords, List.getElem?_map, here]
      rfl
    obtain ⟨inside, isWord⟩ := List.getElem?_eq_some_iff.1 word
    rw [ids keyInfo (permEntries.mem_iff.1 (List.mem_of_getElem? here)), ← isWord,
      nodup.idxOf_getElem]
  have idsOf : entries.map KeyInfo.idInKeyTrie = (List.range entries.length).map Nat.cast := by
    refine List.ext_getElem (by simp) fun i inside _ => ?_
    rw [List.length_map] at inside
    simpa using isId i _ (List.getElem?_eq_getElem inside)
  have idsPerm := idsOf ▸ permEntries.symm.map KeyInfo.idInKeyTrie
  obtain ⟨table, isTable, length, found, -⟩ := @foldlM_table keyInfoList
    (List.replicate keyInfoList.length none) (by
      intro keyInfo member
      obtain ⟨i, inside, isI⟩ := List.mem_map.1 (idsPerm.mem_iff.1 (List.mem_map_of_mem member))
      rw [List.mem_range, permEntries.length_eq] at inside
      rw [← isI, List.length_replicate]
      omega) (idsPerm.nodup_iff.2 (List.nodup_range.map Nat.cast_injective))
  rw [List.length_replicate] at length
  have filled : table = entries.map some := by
    refine List.ext_getElem? fun i => ?_
    rw [List.getElem?_map]
    cases here : entries[i]? with
    | none =>
        rw [List.getElem?_eq_none_iff] at here
        exact List.getElem?_eq_none (by rw [length, ← permEntries.length_eq]; exact here)
    | some keyInfo =>
        have there := found keyInfo (permEntries.mem_iff.1 (List.mem_of_getElem? here))
        rwa [isId i keyInfo here, Int.toNat_natCast] at there
  exact ⟨entries, filled ▸ isTable, permEntries, wordsOf⟩

/-! ## The opened dictionary -/

namespace SystemDictionary

/-- `GetTokenArrayPtr`: what the pointer points to. -/
def getTokenArrayPtr (dictionary : SystemDictionary) (keyId : Int) : Except Failure ByteString := do
  let (place, _) ← dictionary.tokenArray.get (toSize keyId)
  if place < 0 ∨ (dictionary.tokenArray.data.length : Int) < place then throw .outside
  return dictionary.tokenArray.data.drop place.toNat

end SystemDictionary

/-- The bytes of the token array for some blocks. -/
def tokenArrayData (blocks : List TokenBlock) : ByteString :=
  (blocks.map TokenBlock.bytes ++ [[kTokenTerminationFlag]]).flatMap
    (BitVectorBasedArray.padElement 4 1)

/-- The token array has the blocks of the entries, each at the place of its index. -/
structure HasBlocks (array : OpenedArray) (entries : List KeyInfo) (blocks : List TokenBlock) :
    Prop where
  tokens : blocks.map TokenBlock.tokens = entries.map KeyInfo.tokens
  data : array.data = tokenArrayData blocks
  short : array.data.length < 2 ^ 31
  get : ∀ front block back, blocks = front ++ block :: back →
    array.get front.length = .ok ((front.map TokenBlock.size).sum, block.size)

/-- A dictionary has some entries, in the order of their key ids. -/
structure IsDictionary [JapaneseUtil] (dictionary : SystemDictionary) (entries : List KeyInfo) :
    Prop where
  keyTrie : LoudsTrie.IsTrie dictionary.keyTrie (sortWords (keyWords entries))
  valueTrie : LoudsTrie.IsTrie dictionary.valueTrie (sortWords (valueWords entries))
  inOrder : keyWords entries = inIdOrder (keyWords entries)
  keyText : ∀ entry ∈ entries, IsText entry.key
  keyNonempty : ∀ entry ∈ entries, entry.key ≠ []
  keyShort : ∀ entry ∈ entries, (encodeKey entry.key).length ≤ LoudsTrie.kMaxDepth
  valueText : ∀ entry ∈ entries, ∀ info ∈ entry.tokens, IsText info.token.value
  valueShort : ∀ word ∈ valueWords entries, word.length ≤ LoudsTrie.kMaxDepth
  valueId : ∀ entry ∈ entries, ∀ info ∈ entry.tokens, info.idInValueTrie
    = LoudsTrie.idOf (sortWords (valueWords entries)) (encodeValue info.token.value)
  decodable : ∀ entry ∈ entries, AllDecodable dictionary entry.key entry.tokens
  hasBlocks : ∃ blocks, HasBlocks dictionary.tokenArray entries blocks

/-- A token that the dictionary can hold. -/
structure Storable (token : Token) : Prop where
  key : IsText token.key
  value : IsText token.value
  cost : 0 ≤ token.cost
  keyShort : (encodeKey token.key).length ≤ LoudsTrie.kMaxDepth
  valueShort : (encodeValue token.value).length ≤ LoudsTrie.kMaxDepth

/-! ## Opening what was built -/

/-- An opened image of a builder is the trie of its words. -/
theorem isTrie_of_opened {wordList : List ByteString} {builder : LoudsTrieBuilder}
    {sizes : TrieCacheSizes} {trie : LoudsTrie}
    (built : LoudsTrie.buildAll wordList = .ok builder)
    (opened : LoudsTrie.openImage builder.image sizes = .ok trie) :
    LoudsTrie.IsTrie trie (sortWords wordList) := by
  have nonempty := nonempty_of_buildAll built
  obtain ⟨builder', trie', built', opened', isTrie⟩ :=
    LoudsTrie.opens_of_fits nonempty (LoudsTrie.fits_of_opened nonempty built opened)
  obtain rfl := Except.ok.inj (built.symm.trans built')
  obtain rfl := Except.ok.inj (opened.symm.trans opened')
  exact isTrie

/-- The blocks that are encoded for the entries. -/
theorem tokenBlocks_of_encodeBlock {entries : List KeyInfo} {blocks : List ByteString}
    (encoded : (entries.map some).mapM encodeBlock = .ok blocks)
    (each : ∀ entry ∈ entries, entry.tokens ≠ [] ∧ ∀ info ∈ entry.tokens, InRange info) :
    ∃ tokenBlocks : List TokenBlock, tokenBlocks.map TokenBlock.tokens = entries.map KeyInfo.tokens ∧
      tokenBlocks.map TokenBlock.bytes = blocks := by
  induction entries generalizing blocks with
  | nil =>
      cases encoded
      exact ⟨[], rfl, rfl⟩
  | cons entry others ih =>
      rw [List.forall_mem_cons] at each
      rw [List.map_cons, List.mapM_cons] at encoded
      obtain ⟨block, isBlock, encoded⟩ := bind_eq_ok_iff.1 encoded
      obtain ⟨rest, isRest, encoded⟩ := bind_eq_ok_iff.1 encoded
      cases encoded
      obtain ⟨tokenBlocks, tokens, bytes⟩ := ih isRest each.2
      have accepted : encodeTokens entry.tokens = some block := by
        unfold encodeBlock at isBlock
        dsimp only at isBlock
        split at isBlock
        · cases isBlock
        · next found =>
            cases isBlock
            exact found
      refine ⟨⟨entry.tokens, block, each.1.1, each.1.2, accepted⟩ :: tokenBlocks, ?_, ?_⟩
      · rw [List.map_cons, List.map_cons, tokens]
      · rw [List.map_cons, bytes]

theorem length_flatMap_padElement (blocks : List TokenBlock) :
    ((blocks.map TokenBlock.bytes).flatMap (BitVectorBasedArray.padElement 4 1)).length
      = (blocks.map TokenBlock.size).sum := by
  rw [List.length_flatMap, List.map_map]
  rfl

/-- **The opened token array has the blocks.** -/
theorem hasBlocks_of_opened {entries : List KeyInfo} {keyInfoList : List KeyInfo}
    (isTable : idToKeyInfoTable keyInfoList = .ok (entries.map some))
    (each : ∀ entry ∈ entries, entry.tokens ≠ [] ∧ ∀ info ∈ entry.tokens, InRange info)
    {image : ByteString} {array : OpenedArray}
    (built : SystemDictionaryBuilder.buildTokenArray keyInfoList = .ok image)
    (opened : OpenedArray.openImage image = .ok array) (short : array.data.length < 2 ^ 31) :
    ∃ blocks, HasBlocks array entries blocks := by
  rw [SystemDictionaryBuilder.buildTokenArray, isTable, bind_ok_] at built
  obtain ⟨blocks, encoded, built⟩ := bind_eq_ok_iff.1 built
  obtain ⟨tokenBlocks, tokens, rfl⟩ := tokenBlocks_of_encodeBlock encoded each
  obtain ⟨data, get⟩ := BitVectorBasedArrayBuilder.get_of_short (by decide) (by decide) (by decide)
    built opened short
  refine ⟨tokenBlocks, tokens, data, short, fun front block back split => ?_⟩
  have got := get (front.map TokenBlock.bytes) block.bytes
    (back.map TokenBlock.bytes ++ [[kTokenTerminationFlag]]) (by
      rw [split, List.map_append, List.map_cons, List.append_assoc, List.cons_append])
  rwa [List.length_map, length_flatMap_padElement] at got

/-! ## What the builder was given -/

section Built

variable {tokens : List Token} {prepared : Prepared} {keyInfoList : List KeyInfo}

/-- The ids of an opened trie are `int`s. -/
theorem idOf_range {wordList : List ByteString} {builder : LoudsTrieBuilder}
    {sizes : TrieCacheSizes} {trie : LoudsTrie}
    (built : LoudsTrie.buildAll wordList = .ok builder)
    (opened : LoudsTrie.openImage builder.image sizes = .ok trie) (word : ByteString) :
    -2 ^ 31 ≤ LoudsTrie.idOf (sortWords wordList) word ∧
      LoudsTrie.idOf (sortWords wordList) word < 2 ^ 31 := by
  have fits := (LoudsTrie.fits_of_opened (nonempty_of_buildAll built) built opened).1
  unfold loudsBytes BitStream.wordBytes LoudsTrie.numPrefixes at fits
  by_cases member : word ∈ wordList
  · have less := List.idxOf_lt_length_iff.2 (mem_inIdOrder.2 member)
    have fewer : (inIdOrder wordList).length ≤ (PrefixTree.nodes (sortWords wordList)).length :=
      List.length_filter_le _ _
    rw [idOf_eq member]
    omega
  · rw [LoudsTrie.idOf_of_not_mem (mt mem_sortWords.1 member)]
    decide

/-- The values, and whether they are made from the key. -/
def valueMarks (keyInfo : KeyInfo) : List (Bool × ByteString) :=
  keyInfo.tokens.map fun info => (isAsIs info, info.token.value)

theorem mem_valueWords {entries : List KeyInfo} {word : ByteString} :
    word ∈ valueWords entries ↔
      ∃ entry ∈ entries, ∃ value, (false, value) ∈ valueMarks entry ∧ encodeValue value = word := by
  unfold valueWords valueMarks allTokens
  simp only [List.mem_map, List.mem_filter, List.mem_flatMap, Prod.mk.injEq]
  constructor
  · rintro ⟨info, ⟨⟨entry, member, inside⟩, carried⟩, rfl⟩
    exact ⟨entry, member, _, ⟨info, inside, by simpa using carried, rfl⟩, rfl⟩
  · rintro ⟨entry, member, _, ⟨info, inside, carried, rfl⟩, rfl⟩
    exact ⟨info, ⟨⟨entry, member, inside⟩, by simpa using carried⟩, rfl⟩

theorem valueMarks_finished (keyInfoList : List KeyInfo) (frequentPos : List UInt32)
    (keyInfo : KeyInfo) :
    (valueMarks (finished keyInfoList frequentPos keyInfo)).Perm (valueMarks keyInfo) := by
  have same := @map_tokens_finished _ (fun info => (isAsIs info, info.token.value))
    (fun info other alike => by rw [alike.isAsIs, alike.token]) keyInfoList frequentPos keyInfo
  unfold valueMarks
  rw [same]
  refine ((sortBy_perm _ _).map _).trans ?_
  rw [List.map_map]
  exact .refl _

variable [JapaneseUtil]

/-- The token infos of a key, numbered and sorted, are those of the tokens. -/
theorem mem_numbered (groups : Groups tokens keyInfoList) {keyInfo : KeyInfo}
    (member : keyInfo ∈ keyInfoList) {info : TokenInfo}
    (inside : info ∈ (numbered keyInfoList keyInfo).tokens) :
    ∃ token ∈ tokens, token.key = keyInfo.key ∧
      info = withValueId (valueWords keyInfoList) (readInfoOf token) := by
  have inside := (sortBy_perm _ _).mem_iff.1 inside
  rw [groups.tokens_eq keyInfo member, List.map_map] at inside
  obtain ⟨token, isToken, rfl⟩ := List.mem_map.1 inside
  obtain ⟨isMember, isKey⟩ := List.mem_filter.1 isToken
  exact ⟨token, isMember, by simpa using isKey, rfl⟩

/-- What the builder has read and the dictionary that was opened. -/
structure OpenedFrom (tokens : List Token) (prepared : Prepared) (keyInfoList : List KeyInfo)
    (dictionary : SystemDictionary) : Prop where
  readFrom : ReadFrom tokens prepared keyInfoList
  storable : ∀ token ∈ tokens, Storable token
  keyTrie : LoudsTrie.openImage prepared.keyTrieBuilder.image SystemDictionary.keyTrieCacheSizes
    = .ok dictionary.keyTrie
  valueTrie : LoudsTrie.openImage prepared.valueTrieBuilder.image
    SystemDictionary.valueTrieCacheSizes = .ok dictionary.valueTrie
  frequentPos : dictionary.frequentPos
    = prepared.frequentPos ++ List.replicate (256 - prepared.frequentPos.length) 0

variable {dictionary : SystemDictionary}

/-- Each token info agrees with the dictionary before its types are set. -/
theorem OpenedFrom.sourced (opened : OpenedFrom tokens prepared keyInfoList dictionary)
    (groups : Groups tokens keyInfoList) {keyInfo : KeyInfo} (member : keyInfo ∈ keyInfoList)
    {info : TokenInfo} (inside : info ∈ (numbered keyInfoList keyInfo).tokens)
    (costType : CostType) :
    Sourced dictionary keyInfo.key
      (fun value => LoudsTrie.idOf (sortWords (valueWords keyInfoList)) (encodeValue value))
      { info with costType } := by
  obtain ⟨token, isToken, isKey, rfl⟩ := mem_numbered groups member inside
  have storable := opened.storable token isToken
  have isTrie := isTrie_of_opened opened.readFrom.valueTrie opened.valueTrie
  obtain ⟨lower, upper⟩ := idOf_range opened.readFrom.valueTrie opened.valueTrie
    (encodeValue token.value)
  refine ⟨isKey, ⟨storable.cost, lower, upper⟩, rfl, rfl, rfl, fun carried => ?_⟩
  have isWord : encodeValue token.value ∈ valueWords keyInfoList := by
    refine mem_valueWords.2 ⟨keyInfo, member, token.value, ?_, rfl⟩
    have isInfo : readInfoOf token ∈ keyInfo.tokens := by
      rw [groups.tokens_eq keyInfo member]
      exact List.mem_map.2 ⟨token, List.mem_filter.2 ⟨isToken, by simpa using isKey⟩, rfl⟩
    exact List.mem_map.2 ⟨_, isInfo, Prod.ext carried rfl⟩
  refine bind_eq_ok_iff.2 ⟨_, isTrie.restoreKeyString_eq (mem_sortWords.2 isWord)
    storable.valueShort, ?_⟩
  exact congrArg Except.ok (decodeValue_encodeValue_text storable.value)

theorem OpenedFrom.allDecodable (opened : OpenedFrom tokens prepared keyInfoList dictionary)
    (groups : Groups tokens keyInfoList) {keyInfo : KeyInfo} (member : keyInfo ∈ keyInfoList) :
    AllDecodable dictionary (finished keyInfoList prepared.frequentPos keyInfo).key
      (finished keyInfoList prepared.frequentPos keyInfo).tokens := by
  obtain ⟨costType, isTokens⟩ := tokens_finished keyInfoList prepared.frequentPos keyInfo
  have each : ∀ info ∈ (numbered keyInfoList keyInfo).tokens.map
      (fun info => { info with costType := costType info }), Sourced dictionary keyInfo.key
        (fun value => LoudsTrie.idOf (sortWords (valueWords keyInfoList)) (encodeValue value))
        info := by
    intro info inside
    obtain ⟨info, isInfo, rfl⟩ := List.mem_map.1 inside
    exact opened.sourced groups member isInfo _
  rw [isTokens, (key_finished _ _ _).1]
  exact allDecodable_mapWithPrev each (length_frequentPos opened.readFrom.frequentPos)
    opened.frequentPos

/-- Every key has a token. -/
theorem finished_ne_nil (groups : Groups tokens keyInfoList) {keyInfo : KeyInfo}
    (member : keyInfo ∈ keyInfoList) (frequentPos : List UInt32) :
    (finished keyInfoList frequentPos keyInfo).tokens ≠ [] := by
  obtain ⟨token, isToken, isKey⟩ := groups.used keyInfo member
  have isInfo : readInfoOf token ∈ keyInfo.tokens := by
    rw [groups.tokens_eq keyInfo member]
    exact List.mem_map.2 ⟨token, List.mem_filter.2 ⟨isToken, by simpa using isKey⟩, rfl⟩
  intro none_
  have mark := (valueMarks_finished keyInfoList frequentPos keyInfo).mem_iff.2
    (List.mem_map.2 ⟨_, isInfo, rfl⟩)
  rw [valueMarks, none_] at mark
  exact List.not_mem_nil mark

omit [JapaneseUtil] in
/-- The words of the tries are the same for the entries as for what was read. -/
theorem words_of_perm {entries : List KeyInfo} {frequentPos : List UInt32}
    (perm : entries.Perm (keyInfoList.map (finished keyInfoList frequentPos))) :
    sortWords (keyWords entries) = sortWords (keyWords keyInfoList) ∧
      sortWords (valueWords entries) = sortWords (valueWords keyInfoList) := by
  refine ⟨sortWords_congr fun word => ?_, sortWords_congr fun word => ?_⟩
  · have keys : (keyInfoList.map (finished keyInfoList frequentPos)).map
        (fun entry => encodeKey entry.key) = keyWords keyInfoList := by
      rw [List.map_map]
      exact List.map_congr_left fun keyInfo _ => by
        rw [Function.comp_apply, (key_finished _ _ _).1]
    rw [← keys]
    exact (perm.map _).mem_iff
  · rw [mem_valueWords, mem_valueWords]
    constructor
    · rintro ⟨entry, member, value, mark, rfl⟩
      obtain ⟨keyInfo, inside, rfl⟩ := List.mem_map.1 (perm.mem_iff.1 member)
      exact ⟨keyInfo, inside, value, (valueMarks_finished _ _ _).mem_iff.1 mark, rfl⟩
    · rintro ⟨keyInfo, inside, value, mark, rfl⟩
      exact ⟨_, perm.mem_iff.2 (List.mem_map.2 ⟨keyInfo, inside, rfl⟩), value,
        (valueMarks_finished _ _ _).mem_iff.2 mark, rfl⟩

/-- The tokens of a finished key are the tokens that were given for it. -/
theorem mem_finished (groups : Groups tokens keyInfoList) {keyInfo : KeyInfo}
    (member : keyInfo ∈ keyInfoList) {frequentPos : List UInt32} {info : TokenInfo}
    (inside : info ∈ (finished keyInfoList frequentPos keyInfo).tokens) :
    info.token ∈ tokens ∧ info.token.key = keyInfo.key ∧ info.idInValueTrie
      = LoudsTrie.idOf (sortWords (valueWords keyInfoList)) (encodeValue info.token.value) := by
  have pairs := @map_tokens_finished _ (fun info => (info.token, info.idInValueTrie))
    (fun info other alike => by rw [alike.token, alike.idInValueTrie]) keyInfoList frequentPos
    keyInfo
  have here : (info.token, info.idInValueTrie) ∈ (numbered keyInfoList keyInfo).tokens.map
      (fun info => (info.token, info.idInValueTrie)) := by
    rw [← pairs]
    exact List.mem_map.2 ⟨info, inside, rfl⟩
  obtain ⟨other, isOther, same⟩ := List.mem_map.1 here
  obtain ⟨token, isToken, isKey, rfl⟩ := mem_numbered groups member isOther
  obtain ⟨isSame, isId⟩ := Prod.mk.inj same
  rw [← isSame, ← isId]
  exact ⟨isToken, isKey, rfl⟩

/-- **The opened dictionary has the entries** in the order of their ids. -/
theorem OpenedFrom.isDictionary (opened : OpenedFrom tokens prepared keyInfoList dictionary)
    {entries : List KeyInfo}
    (perm : entries.Perm (keyInfoList.map (finished keyInfoList prepared.frequentPos)))
    (inOrder : keyWords entries = inIdOrder (keyWords entries))
    (hasBlocks : ∃ blocks, HasBlocks dictionary.tokenArray entries blocks) :
    IsDictionary dictionary entries := by
  obtain ⟨nonempty, groups⟩ := readTokens_eq_ok opened.readFrom.isRead
  obtain ⟨sameKeys, sameValues⟩ := words_of_perm perm
  have read (entry : KeyInfo) (member : entry ∈ entries) : ∃ keyInfo ∈ keyInfoList,
      finished keyInfoList prepared.frequentPos keyInfo = entry :=
    List.mem_map.1 (perm.mem_iff.1 member)
  have some_ (entry : KeyInfo) (member : entry ∈ entries) :
      ∃ token ∈ tokens, token.key = entry.key := by
    obtain ⟨keyInfo, inside, rfl⟩ := read entry member
    rw [(key_finished _ _ _).1]
    exact groups.used keyInfo inside
  refine ⟨?_, ?_, inOrder, ?_, ?_, ?_, ?_, ?_, ?_, ?_, hasBlocks⟩
  · rw [sameKeys]
    exact isTrie_of_opened opened.readFrom.keyTrie opened.keyTrie
  · rw [sameValues]
    exact isTrie_of_opened opened.readFrom.valueTrie opened.valueTrie
  · intro entry member
    obtain ⟨token, isToken, isKey⟩ := some_ entry member
    exact isKey ▸ (opened.storable token isToken).key
  · intro entry member
    obtain ⟨token, isToken, isKey⟩ := some_ entry member
    exact isKey ▸ (nonempty token isToken).1
  · intro entry member
    obtain ⟨token, isToken, isKey⟩ := some_ entry member
    exact isKey ▸ (opened.storable token isToken).keyShort
  · intro entry member info inside
    obtain ⟨keyInfo, isRead, rfl⟩ := read entry member
    exact (opened.storable _ (mem_finished groups isRead inside).1).value
  · intro word isWord
    obtain ⟨entry, member, value, mark, rfl⟩ := mem_valueWords.1 isWord
    obtain ⟨info, inside, same⟩ := List.mem_map.1 mark
    obtain ⟨keyInfo, isRead, rfl⟩ := read entry member
    rw [← (Prod.mk.inj same).2]
    exact (opened.storable _ (mem_finished groups isRead inside).1).valueShort
  · intro entry member info inside
    obtain ⟨keyInfo, isRead, rfl⟩ := read entry member
    rw [sameValues]
    exact (mem_finished groups isRead inside).2.2
  · intro entry member
    obtain ⟨keyInfo, isRead, rfl⟩ := read entry member
    exact opened.allDecodable groups isRead

theorem nodup_keyWords (groups : Groups tokens keyInfoList)
    (storable : ∀ token ∈ tokens, Storable token) : (keyWords keyInfoList).Nodup := by
  have nodup : (keyInfoList.map KeyInfo.key).Nodup := groups.increasing.imp ne_of_lt
  have isText (keyInfo : KeyInfo) (member : keyInfo ∈ keyInfoList) : IsText keyInfo.key := by
    obtain ⟨token, isToken, isKey⟩ := groups.used keyInfo member
    exact isKey ▸ (storable token isToken).key
  refine List.Nodup.map_on (fun keyInfo member other member' same => ?_) (.of_map _ nodup)
  exact List.inj_on_of_nodup_map nodup member member'
    (encodeKey_inj (isText _ member) (isText _ member') same)

/-- **A dictionary that was built and opened** has the keys that were given, with their tokens. -/
theorem isDictionary_of_build (storable : ∀ token ∈ tokens, Storable token)
    {builder : SystemDictionaryBuilder} (built : buildFromTokens tokens = .ok builder)
    (opened : SystemDictionary.openDictionaryFile builder = .ok dictionary)
    (short : dictionary.tokenArray.data.length < 2 ^ 31) :
    ∃ prepared keyInfoList entries, prepare tokens = .ok prepared ∧
      OpenedFrom tokens prepared keyInfoList dictionary ∧
      entries.Perm (keyInfoList.map (finished keyInfoList prepared.frequentPos)) ∧
        IsDictionary dictionary entries := by
  obtain ⟨prepared, isPrepared, built⟩ := bind_eq_ok_iff.1 built
  obtain ⟨image, isImage, built⟩ := bind_eq_ok_iff.1 built
  cases built
  obtain ⟨keyTrie, isKeyTrie, opened⟩ := bind_eq_ok_iff.1 opened
  obtain ⟨valueTrie, isValueTrie, opened⟩ := bind_eq_ok_iff.1 opened
  obtain ⟨tokenArray, isArray, opened⟩ := bind_eq_ok_iff.1 opened
  cases opened
  obtain ⟨keyInfoList, readFrom⟩ := readFrom_of_prepare isPrepared
  obtain ⟨-, groups⟩ := readTokens_eq_ok readFrom.isRead
  have openedFrom : OpenedFrom tokens prepared keyInfoList ⟨keyTrie, valueTrie, tokenArray,
      prepared.frequentPos ++ List.replicate (256 - prepared.frequentPos.length) 0⟩ :=
    ⟨readFrom, storable, isKeyTrie, isValueTrie, rfl⟩
  have sameWords : keyWords prepared.keyInfoList = keyWords keyInfoList := by
    rw [readFrom.finished, keyWords, List.map_map]
    exact List.map_congr_left fun keyInfo _ => by rw [Function.comp_apply, (key_finished _ _ _).1]
  obtain ⟨entries, isTable, perm, inOrder⟩ := @idToKeyInfoTable_eq prepared.keyInfoList
    (by rw [sameWords]; exact nodup_keyWords groups storable) (by
      intro entry member
      rw [readFrom.finished] at member
      obtain ⟨keyInfo, inside, rfl⟩ := List.mem_map.1 member
      have isWord : encodeKey keyInfo.key ∈ keyWords keyInfoList :=
        List.mem_map.2 ⟨keyInfo, inside, rfl⟩
      rw [sameWords, (key_finished _ _ _).1, (key_finished _ _ _).2, idOf_eq isWord])
  rw [readFrom.finished] at perm
  have each : ∀ entry ∈ entries, entry.tokens ≠ [] ∧ ∀ info ∈ entry.tokens, InRange info := by
    intro entry member
    obtain ⟨keyInfo, inside, rfl⟩ := List.mem_map.1 (perm.mem_iff.1 member)
    refine ⟨finished_ne_nil groups inside _, fun info isInfo => ?_⟩
    obtain ⟨i, here⟩ := List.getElem?_of_mem isInfo
    exact (openedFrom.allDecodable groups inside i info here).range
  refine ⟨prepared, keyInfoList, entries, isPrepared, openedFrom, perm,
    openedFrom.isDictionary perm ?_ (hasBlocks_of_opened isTable each isImage isArray short)⟩
  have same : sortWords (keyWords entries) = sortWords (keyWords prepared.keyInfoList) := by
    refine sortWords_congr fun word => ?_
    rw [inOrder, mem_inIdOrder]
  rw [inIdOrder, same]
  exact inOrder

end Built

end Mozkey.Dictionary
