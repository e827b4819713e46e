import Mozkey.Dictionary.SystemDictionaryImage

/-!
# Building the dictionary and looking up a key

The block of a key is found by the id of the key, and the tokens that are decoded from it are those
that the builder was given for the key, in the order in which it sorts them.
-/

namespace Mozkey.Dictionary

open Mozkey.Lib Mozkey.Storage CachedBitVectorIndex SystemDictionaryBuilder LoudsTrieBuilder

/-! ## The blocks of an opened dictionary -/

section Blocks

theorem four_le_size (block : TokenBlock) : 4 ≤ block.size := by
  rw [TokenBlock.size, BitVectorBasedArray.length_padElement_one]
  exact Nat.le_max_left _ _

theorem drop_flatMap_padElement (front : List TokenBlock) (rest : List ByteString) :
    ((front.map TokenBlock.bytes ++ rest).flatMap (BitVectorBasedArray.padElement 4 1)).drop
        (front.map TokenBlock.size).sum
      = rest.flatMap (BitVectorBasedArray.padElement 4 1) := by
  rw [List.flatMap_append, ← length_flatMap_padElement, List.drop_left]

variable {dictionary : SystemDictionary} {entries : List KeyInfo} {blocks : List TokenBlock}

/-- There are fewer entries than bytes. -/
theorem HasBlocks.few (hasBlocks : HasBlocks dictionary.tokenArray entries blocks) :
    4 * entries.length < 2 ^ 31 := by
  have size : (blocks.map TokenBlock.size).sum ≤ dictionary.tokenArray.data.length := by
    rw [hasBlocks.data, tokenArrayData, List.flatMap_append, List.length_append,
      length_flatMap_padElement]
    exact Nat.le_add_right _ _
  have least : blocks.length * 4 ≤ (blocks.map TokenBlock.size).sum := by
    have each := List.card_nsmul_le_sum (blocks.map TokenBlock.size) 4 (by
      intro size member
      obtain ⟨block, -, rfl⟩ := List.mem_map.1 member
      exact four_le_size block)
    simpa using each
  have same : blocks.length = entries.length := by
    simpa using congrArg List.length hasBlocks.tokens
  have short := hasBlocks.short
  omega

/-- What the pointer to the block of an entry points to. -/
theorem HasBlocks.getTokenArrayPtr (hasBlocks : HasBlocks dictionary.tokenArray entries blocks)
    {i : Nat} {entry : KeyInfo} (here : entries[i]? = some entry) :
    ∃ bytes rest, encodeTokens entry.tokens = some bytes ∧
      dictionary.getTokenArrayPtr i = .ok (bytes ++ rest) := by
  have few := hasBlocks.few
  have inside := (List.getElem?_eq_some_iff.1 here).1
  have isTokens : (blocks.map TokenBlock.tokens)[i]? = some entry.tokens := by
    rw [hasBlocks.tokens, List.getElem?_map, here, Option.map_some]
  rw [List.getElem?_map] at isTokens
  obtain ⟨block, isBlock, same⟩ := Option.map_eq_some_iff.1 isTokens
  obtain ⟨bound, isBlock⟩ := List.getElem?_eq_some_iff.1 isBlock
  have split : blocks = blocks.take i ++ block :: blocks.drop (i + 1) := by
    rw [← isBlock, ← List.drop_eq_getElem_cons bound, List.take_append_drop]
  have length : (blocks.take i).length = i := List.length_take_of_le (by omega)
  have got := hasBlocks.get _ _ _ split
  rw [length] at got
  have stored : dictionary.tokenArray.data.drop ((blocks.take i).map TokenBlock.size).sum
      = (block.bytes :: ((blocks.drop (i + 1)).map TokenBlock.bytes
        ++ [[kTokenTerminationFlag]])).flatMap (BitVectorBasedArray.padElement 4 1) := by
    have data := hasBlocks.data
    rw [split, tokenArrayData, List.map_append, List.map_cons, List.append_assoc] at data
    rw [data, drop_flatMap_padElement, List.cons_append]
  rw [List.flatMap_cons, BitVectorBasedArray.padElement, List.append_assoc] at stored
  obtain ⟨rest, stored⟩ : ∃ rest, dictionary.tokenArray.data.drop
      ((blocks.take i).map TokenBlock.size).sum = block.bytes ++ rest := ⟨_, stored⟩
  have within : ¬ ((((blocks.take i).map TokenBlock.size).sum : Int) < 0 ∨
      (dictionary.tokenArray.data.length : Int) < ((blocks.take i).map TokenBlock.size).sum) := by
    have data := congrArg List.length hasBlocks.data
    rw [split, tokenArrayData, List.flatMap_append, List.length_append,
      length_flatMap_padElement, List.map_append, List.sum_append] at data
    omega
  refine ⟨block.bytes, rest, same ▸ block.accepted, ?_⟩
  have place : toSize (i : Int) = i := by
    unfold toSize
    omega
  rw [SystemDictionary.getTokenArrayPtr, place, got, bind_ok_]
  dsimp only
  rw [if_neg within, Int.toNat_natCast, stored]
  rfl

end Blocks

/-! ## The tokens of a key -/

section Lookup

variable [JapaneseUtil]

/-- The tokens that a loop over `TokenDecodeIterator` sees in the block of a key. -/
def SystemDictionary.decodeTokens (dictionary : SystemDictionary) (key : ByteString) :
    Except Failure (List Token) := do
  let keyId ← dictionary.keyTrie.exactSearch (encodeKey key)
  let ptr ← dictionary.getTokenArrayPtr keyId
  dictionary.forTokens (fun info seen => (true, seen ++ [info.token])) key ptr []

variable {dictionary : SystemDictionary} {entries : List KeyInfo}

/-- The id of a key is its index. -/
theorem IsDictionary.idOf_key (isDictionary : IsDictionary dictionary entries) {i : Nat}
    {entry : KeyInfo} (here : entries[i]? = some entry) :
    LoudsTrie.idOf (sortWords (keyWords entries)) (encodeKey entry.key) = i := by
  have isWord : (keyWords entries)[i]? = some (encodeKey entry.key) := by
    rw [keyWords, List.getElem?_map, here, Option.map_some]
  obtain ⟨inside, isKey⟩ := List.getElem?_eq_some_iff.1 isWord
  have distinct : (keyWords entries).Nodup := isDictionary.inOrder ▸ nodup_inIdOrder _
  rw [idOf_eq (List.mem_of_getElem? isWord), ← isDictionary.inOrder, ← isKey,
    distinct.idxOf_getElem]

/-- The loop over the tokens of an entry. -/
theorem IsDictionary.forTokens_eq (isDictionary : IsDictionary dictionary entries)
    {entry : KeyInfo} (member : entry ∈ entries) {bytes rest : ByteString}
    (encoded : encodeTokens entry.tokens = some bytes) {σ : Type}
    (visit : TokenInfo → σ → Bool × σ) (s : σ) :
    dictionary.forTokens visit entry.key (bytes ++ rest) s
      = .ok (foldWhile visit (entry.tokens.map shown) s) := by
  obtain ⟨blocks, hasBlocks⟩ := isDictionary.hasBlocks
  have nonempty : entry.tokens ≠ [] := by
    have isTokens : entry.tokens ∈ blocks.map TokenBlock.tokens := by
      rw [hasBlocks.tokens]
      exact List.mem_map.2 ⟨entry, member, rfl⟩
    obtain ⟨block, -, isBlock⟩ := List.mem_map.1 isTokens
    exact isBlock ▸ block.nonempty
  exact Dictionary.forTokens_eq (isDictionary.keyNonempty entry member)
    (isDictionary.decodable entry member) nonempty encoded s

/-- **The tokens of a key of an opened dictionary.** -/
theorem IsDictionary.decodeTokens_eq (isDictionary : IsDictionary dictionary entries)
    {entry : KeyInfo} (member : entry ∈ entries) :
    dictionary.decodeTokens entry.key = .ok (entry.tokens.map restored) := by
  obtain ⟨i, here⟩ := List.getElem?_of_mem member
  obtain ⟨blocks, hasBlocks⟩ := isDictionary.hasBlocks
  obtain ⟨bytes, rest, encoded, got⟩ := hasBlocks.getTokenArrayPtr here
  rw [SystemDictionary.decodeTokens, isDictionary.keyTrie.exactSearch_eq,
    isDictionary.idOf_key here, bind_ok_, got, bind_ok_, isDictionary.forTokens_eq member encoded,
    foldWhile_eq_foldl]
  have collected (infos : List TokenInfo) (seen : List Token) :
      (infos.map shown).foldl (fun seen info => seen ++ [info.token]) seen
        = seen ++ infos.map restored := by
    induction infos generalizing seen with
    | nil => simp
    | cons info infos ih =>
        rw [List.map_cons, List.foldl_cons, ih, List.append_assoc]
        rfl
  exact congrArg Except.ok (collected _ [])

/-! ## What comes back of the tokens -/

/-- The token infos of some tokens, with the ids of their values. -/
def infosOf (valueTrieBuilder : LoudsTrieBuilder) (tokens : List Token) :
    Except Failure (List TokenInfo) :=
  tokens.mapM fun token => do
    let id ← valueTrieBuilder.getId (encodeValue token.value)
    return { readInfoOf token with idInValueTrie := id }

/-- The tokens of a key come back: they are decoded in the order of the builder, each with all that
the builder stores of it. -/
def RoundTrips (tokens : List Token) (dictionary : SystemDictionary) (key : ByteString) : Prop :=
  ∃ prepared infos keyInfo, prepare tokens = .ok prepared ∧
    infosOf prepared.valueTrieBuilder (tokensOf key tokens) = .ok infos ∧
    keyInfo ∈ prepared.keyInfoList ∧ keyInfo.key = key ∧
    keyInfo.tokens.map TokenInfo.token = (sortBy tokenInfoLess infos).map TokenInfo.token ∧
    dictionary.decodeTokens key = .ok (keyInfo.tokens.map restored)

/-- The dictionary of some tokens. -/
def buildAndOpen (tokens : List Token) : Except Failure SystemDictionary := do
  let builder ← buildFromTokens tokens
  SystemDictionary.openDictionaryFile builder

/-- **The dictionary that was built has the tokens of every key.** -/
theorem decodeTokens_of_build {tokens : List Token}
    (storable : ∀ token ∈ tokens, Storable token) {dictionary : SystemDictionary}
    (opened : buildAndOpen tokens = .ok dictionary)
    (short : dictionary.tokenArray.data.length < 2 ^ 31) {token : Token} (member : token ∈ tokens) :
    RoundTrips tokens dictionary token.key := by
  obtain ⟨builder, built, opened⟩ := bind_eq_ok_iff.1 opened
  obtain ⟨prepared, keyInfoList, entries, isPrepared, openedFrom, perm, isDictionary⟩ :=
    isDictionary_of_build storable built opened short
  have readFrom := openedFrom.readFrom
  obtain ⟨-, groups⟩ := readTokens_eq_ok readFrom.isRead
  obtain ⟨keyInfo, inside, isKey⟩ := groups.covers token member
  have isInfos : infosOf prepared.valueTrieBuilder (tokensOf token.key tokens)
      = .ok ((tokensOf token.key tokens).map fun token =>
        withValueId (valueWords keyInfoList) (readInfoOf token)) := by
    refine mapM_ok fun t _ => ?_
    rw [getId_of_buildAll readFrom.valueTrie]
    rfl
  have isEntry : finished keyInfoList prepared.frequentPos keyInfo
      ∈ keyInfoList.map (finished keyInfoList prepared.frequentPos) :=
    List.mem_map.2 ⟨keyInfo, inside, rfl⟩
  refine ⟨prepared, _, finished keyInfoList prepared.frequentPos keyInfo, isPrepared, isInfos,
    readFrom.finished ▸ isEntry, (key_finished _ _ _).1.trans isKey, ?_, ?_⟩
  · rw [map_tokens_finished (fun _ _ alike => alike.token), numbered,
      groups.tokens_eq keyInfo inside, isKey, List.map_map]
    rfl
  · have decoded := isDictionary.decodeTokens_eq (perm.mem_iff.2 isEntry)
    rwa [(key_finished _ _ _).1, isKey] at decoded

end Lookup

/-! ## Mixed tokens, and tokens that do not come back -/

/-- The tables of kana as far as one letter goes. -/
@[reducible] def oneKana : JapaneseUtil where
  hiraganaToKatakana str := if str = utf8 ['あ'] then utf8 ['ア'] else str
  katakanaToHiragana str := if str = utf8 ['ア'] then utf8 ['あ'] else str

/-- Tokens of one key with each kind of value. -/
def mixedTokens : List Token :=
  [⟨utf8 ['あ'], utf8 ['あ'], 100, 1, 1, 0⟩, ⟨utf8 ['あ'], utf8 ['ア'], 200, 1, 1, 0⟩,
    ⟨utf8 ['あ'], utf8 ['亜'], 300, 2, 3, 0⟩, ⟨utf8 ['あ'], utf8 ['亜'], 400, 2, 3, 1⟩]

/-- The tokens that are decoded, with the size of the token array. -/
def decodedAgain (tokens : List Token) (key : ByteString) : Option (Nat × List Token) :=
  letI := oneKana
  match buildAndOpen tokens with
  | .error _ => none
  | .ok dictionary =>
      match dictionary.decodeTokens key with
      | .error _ => none
      | .ok decoded => some (dictionary.tokenArray.data.length, decoded)

theorem opened_of_decodedAgain {tokens : List Token} {key : ByteString} {size : Nat}
    {decoded : List Token} (done : decodedAgain tokens key = some (size, decoded)) :
    ∃ dictionary, @buildAndOpen oneKana tokens = .ok dictionary ∧
      dictionary.tokenArray.data.length = size ∧
      @SystemDictionary.decodeTokens oneKana dictionary key = .ok decoded := by
  unfold decodedAgain at done
  split at done
  · cases done
  · next dictionary opened =>
      split at done
      · cases done
      · next decoded' isDecoded =>
          obtain ⟨rfl, rfl⟩ := Prod.mk.inj (Option.some.inj done)
          exact ⟨dictionary, opened, rfl, isDecoded⟩

theorem storable_mixedTokens : ∀ token ∈ mixedTokens, Storable token := by
  have hiragana : IsText (utf8 ['あ']) := ⟨['あ'], by decide, rfl⟩
  have katakana : IsText (utf8 ['ア']) := ⟨['ア'], by decide, rfl⟩
  have kanji : IsText (utf8 ['亜']) := ⟨['亜'], by decide, rfl⟩
  simp only [mixedTokens, List.forall_mem_cons]
  exact ⟨⟨hiragana, hiragana, by decide, by decide, by decide⟩,
    ⟨hiragana, katakana, by decide, by decide, by decide⟩,
    ⟨hiragana, kanji, by decide, by decide, by decide⟩,
    ⟨hiragana, kanji, by decide, by decide, by decide⟩, by simp⟩

set_option maxRecDepth 100000 in
theorem opened_mixedTokens : ∃ dictionary, @buildAndOpen oneKana mixedTokens = .ok dictionary ∧
    dictionary.tokenArray.data.length < 2 ^ 31 := by
  have done : decodedAgain mixedTokens (utf8 ['あ']) = some (20,
      [⟨utf8 ['あ'], utf8 ['亜'], 300, 2, 3, 0⟩, ⟨utf8 ['あ'], utf8 ['亜'], 400, 2, 3, 1⟩,
        ⟨utf8 ['あ'], utf8 ['あ'], 100, 1, 1, 0⟩, ⟨utf8 ['あ'], utf8 ['ア'], 200, 1, 1, 0⟩]) := by
    decide +kernel
  obtain ⟨dictionary, opened, size, -⟩ := opened_of_decodedAgain done
  exact ⟨dictionary, opened, by rw [size]; decide⟩

theorem decodeTokens_of_build_mixed : ∃ dictionary,
    @buildAndOpen oneKana mixedTokens = .ok dictionary ∧
      @RoundTrips oneKana mixedTokens dictionary (utf8 ['あ']) := by
  obtain ⟨dictionary, opened, short⟩ := opened_mixedTokens
  exact ⟨dictionary, opened, @decodeTokens_of_build oneKana mixedTokens storable_mixedTokens
    dictionary opened short _ List.mem_cons_self⟩

theorem exists_of_infosOf [JapaneseUtil] {builder : LoudsTrieBuilder} {tokens : List Token}
    {infos : List TokenInfo} (done : infosOf builder tokens = .ok infos) {info : TokenInfo}
    (member : info ∈ infos) : ∃ token ∈ tokens, info.token = token := by
  obtain ⟨length, each⟩ := mapM_ok_getElem? done
  obtain ⟨i, here⟩ := List.getElem?_of_mem member
  have inside := (List.getElem?_eq_some_iff.1 here).1
  have isToken : tokens[i]? = some tokens[i] := List.getElem?_eq_getElem (length ▸ inside)
  obtain ⟨info', there, done⟩ := each i _ isToken
  obtain rfl := Option.some.inj (here.symm.trans there)
  obtain ⟨id, -, done⟩ := bind_eq_ok_iff.1 done
  cases done
  exact ⟨_, List.mem_of_getElem? isToken, rfl⟩

/-- What comes back has the values that were given, at no higher costs. -/
theorem of_roundTrips [JapaneseUtil] {tokens : List Token} {dictionary : SystemDictionary}
    {key : ByteString} (returns : RoundTrips tokens dictionary key) {decoded : List Token}
    (isDecoded : dictionary.decodeTokens key = .ok decoded) :
    ∀ token ∈ decoded, ∃ source ∈ tokens, token.value = source.value ∧ token.cost ≤ source.cost := by
  obtain ⟨prepared, infos, keyInfo, -, isInfos, -, -, isTokens, again⟩ := returns
  obtain rfl := Except.ok.inj (again.symm.trans isDecoded)
  intro token member
  obtain ⟨info, isInfo, rfl⟩ := List.mem_map.1 member
  have isToken : info.token ∈ (sortBy tokenInfoLess infos).map TokenInfo.token := by
    rw [← isTokens]
    exact List.mem_map.2 ⟨info, isInfo, rfl⟩
  obtain ⟨other, isOther, same⟩ := List.mem_map.1 isToken
  have isToken : info.token ∈ tokens := by
    obtain ⟨source, isSource, known⟩ :=
      exists_of_infosOf isInfos ((sortBy_perm _ _).mem_iff.1 isOther)
    rw [← same, known]
    exact (List.mem_filter.1 isSource).1
  refine ⟨info.token, isToken, rfl, ?_⟩
  simp only [restored, storedCost]
  split
  · omega
  · exact le_refl _

set_option maxRecDepth 100000 in
/-- A value with a null character loses it, and a negative cost is read as a short one. -/
theorem not_decodesAll :
    (¬ ∀ (_ : JapaneseUtil) (tokens : List Token) (dictionary : SystemDictionary),
      (∀ token ∈ tokens, (∃ text, token.key = utf8 text) ∧ (∃ text, token.value = utf8 text) ∧
        0 ≤ token.cost ∧ (encodeKey token.key).length ≤ LoudsTrie.kMaxDepth ∧
        (encodeValue token.value).length ≤ LoudsTrie.kMaxDepth) →
      buildAndOpen tokens = .ok dictionary → dictionary.tokenArray.data.length < 2 ^ 31 →
      ∀ token ∈ tokens, RoundTrips tokens dictionary token.key) ∧
    ¬ ∀ (_ : JapaneseUtil) (tokens : List Token) (dictionary : SystemDictionary),
      (∀ token ∈ tokens, IsText token.key ∧ IsText token.value ∧
        (encodeKey token.key).length ≤ LoudsTrie.kMaxDepth ∧
        (encodeValue token.value).length ≤ LoudsTrie.kMaxDepth) →
      buildAndOpen tokens = .ok dictionary → dictionary.tokenArray.data.length < 2 ^ 31 →
      ∀ token ∈ tokens, RoundTrips tokens dictionary token.key := by
  constructor
  · intro all
    have done : decodedAgain [⟨utf8 ['a'], utf8 [Char.ofNat 0], 1, 1, 1, 0⟩] (utf8 ['a'])
        = some (10, [⟨utf8 ['a'], [], 1, 1, 1, 0⟩]) := by decide +kernel
    obtain ⟨dictionary, opened, size, isDecoded⟩ := opened_of_decodedAgain done
    have returns := all oneKana _ dictionary (by
      simp only [List.forall_mem_singleton]
      exact ⟨⟨_, rfl⟩, ⟨_, rfl⟩, by decide, by decide, by decide⟩) opened
      (by rw [size]; decide) _ List.mem_cons_self
    obtain ⟨source, isSource, value, -⟩ := @of_roundTrips oneKana _ _ _ returns _ isDecoded _
      List.mem_cons_self
    rw [List.mem_singleton.1 isSource] at value
    revert value
    decide
  · intro all
    have done : decodedAgain [⟨utf8 ['a'], utf8 ['a'], -1, 1, 1, 0⟩] (utf8 ['a'])
        = some (8, [⟨utf8 ['a'], utf8 ['a'], 0x7f00, 1, 1, 0⟩]) := by decide +kernel
    obtain ⟨dictionary, opened, size, isDecoded⟩ := opened_of_decodedAgain done
    have isText : IsText (utf8 ['a']) := ⟨['a'], by decide, rfl⟩
    have returns := all oneKana _ dictionary (by
      simp only [List.forall_mem_singleton]
      exact ⟨isText, isText, by decide, by decide⟩) opened (by rw [size]; decide) _
      List.mem_cons_self
    obtain ⟨source, isSource, -, cost⟩ := @of_roundTrips oneKana _ _ _ returns _ isDecoded _
      List.mem_cons_self
    rw [List.mem_singleton.1 isSource] at cost
    revert cost
    decide

end Mozkey.Dictionary
