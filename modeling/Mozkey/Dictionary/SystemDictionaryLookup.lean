import Mozkey.Dictionary.BuildAndLookUp
import Mozkey.Dictionary.Traversal

/-!
# Looking up in the system dictionary

The lookups find the keys in the trie of the keys and report the tokens of their blocks to a
callback.  In a dictionary that was built and opened, they traverse the keys that were given to the
builder, each with its tokens.
-/

namespace Mozkey.Dictionary

open Mozkey.Lib Mozkey.Storage CachedBitVectorIndex SystemDictionaryBuilder LoudsTrieBuilder

/-! ## The lookups -/

/-- The token filter of `RegisterReverseLookupTokensForT13N`: no spelling corrections, and only
values that are transliterations of the key. -/
def isT13N [JapaneseUtil] (info : TokenInfo) : Bool :=
  if isSpellingCorrection info then false
  else if info.valueType ≠ .asIsHiragana ∧ info.valueType ≠ .asIsKatakana then
    info.token.key = JapaneseUtil.katakanaToHiragana info.token.value
  else true

/-- One round of the loop over the tokens in `RunCallbackOnEachPrefix`. -/
def reportToken (callback : Callback) (tokenFilter : TokenInfo → Bool) (key : ByteString)
    (info : TokenInfo) (state : EmitResult × List Call) : Bool × (EmitResult × List Call) :=
  if tokenFilter info then
    let calls := state.2 ++ [.onToken key key info.token]
    match callback calls with
    | .traverseDone => (false, .kDone, calls)
    | .traverseCull => (false, .kCull, calls)
    | .traverseNextKey => (false, .kContinue, calls)
    | .traverseContinue => (true, .kContinue, calls)
  else (true, state)

namespace SystemDictionary

variable [JapaneseUtil] (dictionary : SystemDictionary)

/-- `HasKey`. -/
def hasKey (key : ByteString) : Except Failure Bool := dictionary.keyTrie.hasKey (encodeKey key)

/-- `HasValue`. -/
def hasValue (value : ByteString) : Except Failure Bool := do
  if ← dictionary.valueTrie.hasKey (encodeValue value) then return true
  let key := JapaneseUtil.katakanaToHiragana value
  let keyId ← dictionary.keyTrie.exactSearch (encodeKey key)
  if keyId = -1 then return false
  let ptr ← dictionary.getTokenArrayPtr keyId
  dictionary.forTokens
    (fun info _ => if value = info.token.value then (false, true) else (true, false)) key ptr false

/-- `LookupExact`. -/
def lookupExact (callback : Callback) (key : ByteString) (calls : List Call) :
    Except Failure (List Call) := do
  let keyId ← dictionary.keyTrie.exactSearch (encodeKey key)
  if keyId = -1 then return calls
  let calls := calls ++ [.onKey key]
  if callback calls ≠ .traverseContinue then return calls
  let calls := calls ++ [.onActualKey key key 0]
  if callback calls ≠ .traverseContinue then return calls
  let ptr ← dictionary.getTokenArrayPtr keyId
  dictionary.forTokens (fun info calls =>
    let calls := calls ++ [.onToken key key info.token]
    (callback calls = .traverseContinue, calls)) key ptr calls

/-- What `RunCallbackOnEachPrefix` does at a terminal node. -/
def reportNode (callback : Callback) (tokenFilter : TokenInfo → Bool) (key : ByteString)
    (node : LoudsNode) (calls : List Call) : Except Failure (EmitResult × List Call) :=
  let calls := calls ++ [.onKey key]
  match callback calls with
  | .traverseDone => .ok (.kDone, calls)
  | .traverseCull => .ok (.kCull, calls)
  | .traverseNextKey => .ok (.kContinue, calls)
  | .traverseContinue =>
      let calls := calls ++ [.onActualKey key key 0]
      match callback calls with
      | .traverseDone => .ok (.kDone, calls)
      | .traverseCull => .ok (.kCull, calls)
      | .traverseNextKey => .ok (.kContinue, calls)
      | .traverseContinue => do
          let keyId ← dictionary.keyTrie.getKeyIdOfTerminalNode node
          let ptr ← dictionary.getTokenArrayPtr keyId
          dictionary.forTokens (reportToken callback tokenFilter key) key ptr (.kContinue, calls)

/-- The loop of `RunCallbackOnEachPrefix` over what is left of the encoded key. -/
def eachPrefixLoop (callback : Callback) (tokenFilter : TokenInfo → Bool)
    (key encodedKey : ByteString) :
    Nat → ByteString → LoudsNode → List Call → Except Failure (List Call)
  | _, [], _, calls => .ok calls
  | i, c :: rest, node, calls => do
      match ← dictionary.keyTrie.moveToChildByLabel c node with
      | none => return calls
      | some node =>
          if ← dictionary.keyTrie.isTerminalNode node then
            let front := key.take (getDecodedKeyLength (encodedKey.take (i + 1)))
            let (result, calls) ← dictionary.reportNode callback tokenFilter front node calls
            match result with
            | .kDone => return calls
            | .kCull => return calls
            | .kContinue =>
                eachPrefixLoop callback tokenFilter key encodedKey (i + 1) rest node calls
          else eachPrefixLoop callback tokenFilter key encodedKey (i + 1) rest node calls

/-- `RunCallbackOnEachPrefix`. -/
def runCallbackOnEachPrefix (callback : Callback) (tokenFilter : TokenInfo → Bool)
    (key encodedKey : ByteString) (calls : List Call) : Except Failure (List Call) :=
  dictionary.eachPrefixLoop callback tokenFilter key encodedKey 0 encodedKey {} calls

/-- The view that is made from `key.data()`: it ends where the null character behind the key is, or
in front of one inside. -/
def viewOfData (key : ByteString) : ByteString := key.takeWhile (· ≠ 0)

/-- `LookupPrefix` for a callback that tells the modifiers of kana apart. -/
def lookupPrefix (callback : Callback) (key : ByteString) (calls : List Call) :
    Except Failure (List Call) :=
  dictionary.runCallbackOnEachPrefix callback (fun _ => true) (viewOfData key) (encodeKey key) calls

/-- `RegisterReverseLookupTokensForT13N`. -/
def registerReverseLookupTokensForT13N (callback : Callback) (value : ByteString)
    (calls : List Call) : Except Failure (List Call) :=
  let hiraganaValue := JapaneseUtil.katakanaToHiragana value
  dictionary.runCallbackOnEachPrefix callback isT13N hiraganaValue (encodeKey hiraganaValue) calls

end SystemDictionary

/-! ## The entries of a dictionary -/

/-- The value of a token is made from its key. -/
def isMadeFromKey [JapaneseUtil] (token : Token) : Bool :=
  token.value = token.key || token.value = JapaneseUtil.hiraganaToKatakana token.key

/-- The entries are made of some tokens: each key has one, with the tokens of the key. -/
structure MadeOf [JapaneseUtil] (tokens : List Token) (entries : List KeyInfo) : Prop where
  once : (entries.map KeyInfo.key).Nodup
  covers : ∀ token ∈ tokens, ∃ entry ∈ entries, entry.key = token.key
  nonempty : ∀ entry ∈ entries, entry.tokens ≠ []
  tokens_perm : ∀ entry ∈ entries,
    (entry.tokens.map TokenInfo.token).Perm (tokensOf entry.key tokens)
  isAsIs_eq : ∀ entry ∈ entries, ∀ info ∈ entry.tokens, isAsIs info = isMadeFromKey info.token

section MadeOf

variable [JapaneseUtil] {tokens : List Token} {entries : List KeyInfo}
  (madeOf : MadeOf tokens entries)

include madeOf

theorem MadeOf.token_mem {entry : KeyInfo} (member : entry ∈ entries) {info : TokenInfo}
    (inside : info ∈ entry.tokens) : info.token ∈ tokens ∧ info.token.key = entry.key := by
  have isToken := (madeOf.tokens_perm entry member).mem_iff.1 (List.mem_map_of_mem inside)
  simpa [tokensOf] using isToken

theorem MadeOf.exists_info {token : Token} (member : token ∈ tokens) :
    ∃ entry ∈ entries, entry.key = token.key ∧ ∃ info ∈ entry.tokens, info.token = token := by
  obtain ⟨entry, isEntry, isKey⟩ := madeOf.covers token member
  refine ⟨entry, isEntry, isKey, List.mem_map.1 ?_⟩
  rw [(madeOf.tokens_perm entry isEntry).mem_iff]
  simpa [tokensOf, isKey] using member

theorem MadeOf.exists_key {key : ByteString} :
    (∃ entry ∈ entries, entry.key = key) ↔ ∃ token ∈ tokens, token.key = key := by
  constructor
  · rintro ⟨entry, member, rfl⟩
    obtain ⟨info, inside⟩ := List.exists_mem_of_ne_nil _ (madeOf.nonempty entry member)
    exact ⟨info.token, madeOf.token_mem member inside⟩
  · rintro ⟨token, member, rfl⟩
    exact madeOf.covers token member

end MadeOf

/-- **What the dictionary has** is what the builder was given. -/
theorem exists_isDictionary [JapaneseUtil] {tokens : List Token}
    (storable : ∀ token ∈ tokens, Storable token) {dictionary : SystemDictionary}
    (opened : buildAndOpen tokens = .ok dictionary)
    (short : dictionary.tokenArray.data.length < 2 ^ 31) :
    ∃ entries, IsDictionary dictionary entries ∧ MadeOf tokens entries := by
  obtain ⟨builder, built, opened⟩ := bind_eq_ok_iff.1 opened
  obtain ⟨prepared, keyInfoList, entries, -, openedFrom, perm, isDictionary⟩ :=
    isDictionary_of_build storable built opened short
  obtain ⟨-, groups⟩ := readTokens_eq_ok openedFrom.readFrom.isRead
  have read (entry : KeyInfo) (member : entry ∈ entries) : ∃ keyInfo ∈ keyInfoList,
      finished keyInfoList prepared.frequentPos keyInfo = entry :=
    List.mem_map.1 (perm.mem_iff.1 member)
  refine ⟨entries, isDictionary, ?_, fun token member => ?_, fun entry member => ?_,
    fun entry member => ?_, fun entry member info inside => ?_⟩
  · have distinct : (keyWords entries).Nodup := isDictionary.inOrder ▸ nodup_inIdOrder _
    refine List.Nodup.of_map encodeKey ?_
    rwa [List.map_map]
  · obtain ⟨keyInfo, inside, isKey⟩ := groups.covers token member
    exact ⟨_, perm.mem_iff.2 (List.mem_map_of_mem inside), (key_finished _ _ _).1.trans isKey⟩
  · obtain ⟨keyInfo, inside, rfl⟩ := read entry member
    exact finished_ne_nil groups inside _
  · obtain ⟨keyInfo, inside, rfl⟩ := read entry member
    rw [map_tokens_finished (fun _ _ alike => alike.token), (key_finished _ _ _).1, numbered]
    refine ((sortBy_perm _ _).map _).trans ?_
    rw [groups.tokens_eq keyInfo inside, List.map_map, List.map_map]
    have same : (TokenInfo.token ∘ withValueId (valueWords keyInfoList)) ∘ readInfoOf = id := rfl
    rw [same, List.map_id]
  · obtain ⟨keyInfo, isRead, rfl⟩ := read entry member
    have marks := @map_tokens_finished _ (fun info => isAsIs info == isMadeFromKey info.token)
      (fun info other alike => by rw [alike.isAsIs, alike.token]) keyInfoList prepared.frequentPos
      keyInfo
    have here := marks ▸ List.mem_map_of_mem inside
    obtain ⟨other, isOther, same⟩ := List.mem_map.1 here
    obtain ⟨token, -, -, rfl⟩ := mem_numbered groups isRead isOther
    rw [← beq_iff_eq, ← same, beq_iff_eq]
    exact isAsIs_of_valueType rfl

/-- The entry whose encoded key a node stands for. -/
def entryAt (entries : List KeyInfo) (p : ByteString) : Option KeyInfo :=
  entries.find? fun entry => encodeKey entry.key = p

/-- An entry with the tokens that a filter selects, as they are shown. -/
def groupOf (tokenFilter : TokenInfo → Bool) (entry : KeyInfo) : ByteString × List Token :=
  (entry.key, ((entry.tokens.map shown).filter tokenFilter).map TokenInfo.token)

/-- **The loop over the tokens** reports those that are selected. -/
theorem foldWhile_reportToken (callback : Callback) (tokenFilter : TokenInfo → Bool)
    (key : ByteString) (infos : List TokenInfo) (calls : List Call) :
    foldWhile (reportToken callback tokenFilter key) infos (.kContinue, calls)
      = visitTokens callback key ((infos.filter tokenFilter).map TokenInfo.token) calls := by
  induction infos generalizing calls with
  | nil => rfl
  | cons info infos ih =>
      rw [foldWhile, reportToken, List.filter_cons]
      by_cases selected : tokenFilter info = true
      · simp only [if_pos selected, List.map_cons, visitTokens]
        cases callback (calls ++ [.onToken key key info.token]) with
        | traverseContinue => exact ih _
        | traverseDone => rfl
        | traverseCull => rfl
        | traverseNextKey => rfl
      · simp only [if_neg selected]
        exact ih calls

section Entries

variable [JapaneseUtil] {dictionary : SystemDictionary} {entries : List KeyInfo}
  (isDictionary : IsDictionary dictionary entries)

include isDictionary

namespace IsDictionary

/-- **The entry at a node** is the one with its key. -/
theorem entryAt_eq_some_iff {p : ByteString} {entry : KeyInfo} :
    entryAt entries p = some entry ↔ entry ∈ entries ∧ encodeKey entry.key = p := by
  have distinct : (keyWords entries).Nodup := isDictionary.inOrder ▸ nodup_inIdOrder _
  constructor
  · intro found
    exact ⟨List.mem_of_find?_eq_some found, by simpa using List.find?_some found⟩
  · rintro ⟨member, rfl⟩
    cases found : entryAt entries (encodeKey entry.key) with
    | none =>
        have absent := List.find?_eq_none.1 found entry member
        simp at absent
    | some other =>
        have isOther := List.mem_of_find?_eq_some found
        have same : encodeKey other.key = encodeKey entry.key := by simpa using List.find?_some found
        exact congrArg some (List.inj_on_of_nodup_map distinct isOther member same)

theorem mem_words_iff {p : ByteString} :
    p ∈ sortWords (keyWords entries) ↔ ∃ entry, entryAt entries p = some entry := by
  simp only [isDictionary.entryAt_eq_some_iff, mem_sortWords, keyWords, List.mem_map]

/-- The loop over the tokens of an entry, from the pointer to its block. -/
theorem forTokens_at {entry : KeyInfo} (member : entry ∈ entries) {σ : Type}
    (visit : TokenInfo → σ → Bool × σ) (s : σ) :
    (do
      let ptr ← dictionary.getTokenArrayPtr
        (LoudsTrie.idOf (sortWords (keyWords entries)) (encodeKey entry.key))
      dictionary.forTokens visit entry.key ptr s)
      = .ok (foldWhile visit (entry.tokens.map shown) s) := by
  obtain ⟨i, found⟩ := List.getElem?_of_mem member
  obtain ⟨blocks, hasBlocks⟩ := isDictionary.hasBlocks
  obtain ⟨bytes, rest, encoded, got⟩ := hasBlocks.getTokenArrayPtr found
  rw [isDictionary.idOf_key found, got, bind_ok_]
  exact isDictionary.forTokens_eq member encoded visit s

/-- **What is reported at the node of an entry.** -/
theorem reportNode_eq {p : ByteString} {entry : KeyInfo} (here : entryAt entries p = some entry)
    (callback : Callback) (tokenFilter : TokenInfo → Bool) (calls : List Call) :
    dictionary.reportNode callback tokenFilter entry.key
        (dictionary.keyTrie.nodeOf (sortWords (keyWords entries)) p) calls
      = .ok (visitKey callback entry.key
          (((entry.tokens.map shown).filter tokenFilter).map TokenInfo.token) calls) := by
  have isWord := isDictionary.mem_words_iff.2 ⟨entry, here⟩
  obtain ⟨member, rfl⟩ := isDictionary.entryAt_eq_some_iff.1 here
  unfold SystemDictionary.reportNode visitKey
  dsimp only
  cases callback (calls ++ [.onKey entry.key]) with
  | traverseContinue =>
      dsimp only
      cases callback (calls ++ [.onKey entry.key] ++ [.onActualKey entry.key entry.key 0]) with
      | traverseContinue =>
          dsimp only
          rw [isDictionary.keyTrie.getKeyIdOfTerminalNode_eq isWord, bind_ok_,
            isDictionary.forTokens_at member, foldWhile_reportToken]
      | traverseDone => rfl
      | traverseCull => rfl
      | traverseNextKey => rfl
  | traverseDone => rfl
  | traverseCull => rfl
  | traverseNextKey => rfl

/-- The entry with a key. -/
theorem entryAt_encodeKey {key : ByteString} (isText : IsText key) {entry : KeyInfo} :
    entryAt entries (encodeKey key) = some entry ↔ entry ∈ entries ∧ entry.key = key := by
  rw [isDictionary.entryAt_eq_some_iff]
  refine and_congr_right fun member => ⟨?_, fun same => by rw [same]⟩
  exact encodeKey_inj (isDictionary.keyText entry member) isText

theorem idOf_eq_neg_one_iff {p : ByteString} :
    LoudsTrie.idOf (sortWords (keyWords entries)) p = -1 ↔ entryAt entries p = none := by
  cases found : entryAt entries p with
  | none =>
      have absent : p ∉ sortWords (keyWords entries) := fun member => by
        obtain ⟨entry, isEntry⟩ := isDictionary.mem_words_iff.1 member
        cases found.symm.trans isEntry
      simp [LoudsTrie.idOf_of_not_mem absent]
  | some entry =>
      obtain ⟨member, rfl⟩ := isDictionary.entryAt_eq_some_iff.1 found
      obtain ⟨i, here⟩ := List.getElem?_of_mem member
      rw [isDictionary.idOf_key here]
      simp

/-- Nothing is reported of a key without an entry. -/
theorem lookupExact_of_none (callback : Callback) {key : ByteString}
    (absent : entryAt entries (encodeKey key) = none) (calls : List Call) :
    dictionary.lookupExact callback key calls = .ok calls := by
  rw [SystemDictionary.lookupExact, isDictionary.keyTrie.exactSearch_eq, bind_ok_,
    if_pos (isDictionary.idOf_eq_neg_one_iff.2 absent)]
  rfl

/-- **`LookupExact`** visits the entry of the key. -/
theorem lookupExact_eq (callback : Callback) {entry : KeyInfo} (member : entry ∈ entries)
    (calls : List Call) :
    dictionary.lookupExact callback entry.key calls
      = .ok (visitKey callback entry.key (entry.tokens.map restored) calls).2 := by
  have tokensVisited (infos : List TokenInfo) (calls : List Call) :
      foldWhile (fun info calls => (decide (callback (calls ++
          [.onToken entry.key entry.key info.token]) = .traverseContinue),
        calls ++ [.onToken entry.key entry.key info.token])) (infos.map shown) calls
        = (visitTokens callback entry.key (infos.map restored) calls).2 := by
    induction infos generalizing calls with
    | nil => rfl
    | cons info infos ih =>
        rw [List.map_cons, List.map_cons, foldWhile, visitTokens]
        have same : (shown info).token = restored info := rfl
        rw [same]
        cases callback (calls ++ [.onToken entry.key entry.key (restored info)]) with
        | traverseContinue => exact ih _
        | traverseDone => rfl
        | traverseCull => rfl
        | traverseNextKey => rfl
  have found := isDictionary.entryAt_eq_some_iff.2 ⟨member, rfl⟩
  rw [SystemDictionary.lookupExact, isDictionary.keyTrie.exactSearch_eq, bind_ok_,
    if_neg (by rw [isDictionary.idOf_eq_neg_one_iff, found]; simp)]
  unfold visitKey
  dsimp only
  cases callback (calls ++ [.onKey entry.key]) with
  | traverseContinue =>
      dsimp only
      cases callback (calls ++ [.onKey entry.key] ++ [.onActualKey entry.key entry.key 0]) with
      | traverseContinue =>
          refine (isDictionary.forTokens_at member _ _).trans ?_
          rw [tokensVisited]
      | traverseDone => rfl
      | traverseCull => rfl
      | traverseNextKey => rfl
  | traverseDone => rfl
  | traverseCull => rfl
  | traverseNextKey => rfl

end IsDictionary

end Entries

/-! ## The loop along a key -/

/-- The fronts of a key that are longer than what was read of it. -/
def fronts : ByteString → ByteString → List ByteString
  | _, [] => []
  | p, c :: rest => (p ++ [c]) :: fronts (p ++ [c]) rest

theorem mem_fronts_iff {p rest q : ByteString} :
    q ∈ fronts p rest ↔ ∃ more, more ≠ [] ∧ more <+: rest ∧ q = p ++ more := by
  induction rest generalizing p with
  | nil =>
      simp only [fronts, List.not_mem_nil, List.prefix_nil, false_iff]
      rintro ⟨more, some_, rfl, -⟩
      exact some_ rfl
  | cons c rest ih =>
      rw [fronts, List.mem_cons, ih]
      constructor
      · rintro (rfl | ⟨more, -, front, rfl⟩)
        · exact ⟨[c], by simp, List.prefix_append [c] rest, rfl⟩
        · exact ⟨c :: more, by simp, List.cons_prefix_cons.2 ⟨rfl, front⟩, by simp⟩
      · rintro ⟨more, some_, front, rfl⟩
        obtain ⟨d, more, rfl⟩ := List.exists_cons_of_ne_nil some_
        obtain ⟨rfl, inFront⟩ := List.cons_prefix_cons.1 front
        cases more with
        | nil => exact .inl rfl
        | cons e more => exact .inr ⟨e :: more, by simp, inFront, by simp⟩

theorem mem_fronts {p rest q : ByteString} (member : q ∈ fronts p rest) :
    p <+: q ∧ q <+: p ++ rest := by
  obtain ⟨more, -, front, rfl⟩ := mem_fronts_iff.1 member
  exact ⟨List.prefix_append p more, (List.prefix_append_right_inj p).2 front⟩

theorem pairwise_fronts (p rest : ByteString) :
    (fronts p rest).Pairwise fun q q' => q <+: q' ∧ q ≠ q' := by
  induction rest generalizing p with
  | nil => exact List.Pairwise.nil
  | cons c rest ih =>
      rw [fronts, List.pairwise_cons]
      refine ⟨fun q member => ?_, ih _⟩
      obtain ⟨more, some_, -, rfl⟩ := mem_fronts_iff.1 member
      refine ⟨List.prefix_append _ _, fun same => some_ ?_⟩
      simpa using congrArg List.length same

theorem zero_notMem_utf8EncodeChar {c : Char} (nonzero : c.toNat ≠ 0) :
    (0 : UInt8) ∉ String.utf8EncodeChar c := by
  have less := toNat_lt_of_char c
  have value : c.val.toNat = c.toNat := rfl
  simp only [String.utf8EncodeChar, value]
  split_ifs <;>
    simp only [List.mem_cons, List.not_mem_nil, or_false, ← UInt8.toNat_inj,
      UInt8.toNat_ofNat', UInt8.toNat_ofNat] <;>
    omega

theorem viewOfData_eq {key : ByteString} (isText : IsText key) :
    SystemDictionary.viewOfData key = key := by
  obtain ⟨text, noNul, rfl⟩ := isText
  refine List.takeWhile_eq_self_iff.2 fun byte member => ?_
  obtain ⟨c, isChar, inside⟩ := List.mem_flatMap.1 member
  have differs : byte ≠ 0 := by
    rintro rfl
    exact zero_notMem_utf8EncodeChar (nonzero_of_mem noNul isChar) inside
  simpa using differs

/-- A stored key whose code is in front of the code of a text is in front of the text. -/
theorem isPrefix_encodeKey {key other : ByteString} (isText : IsText key) (isText' : IsText other) :
    encodeKey other <+: encodeKey key ↔ other <+: key := by
  obtain ⟨text, noNul, rfl⟩ := isText
  obtain ⟨text', noNul', rfl⟩ := isText'
  rw [encodeKey, encodeKey, encodeDecodeKey_utf8 noNul, encodeDecodeKey_utf8 noNul',
    utf8_isPrefix_iff, utf8_isPrefix_iff,
    List.prefix_map_iff_of_injective swapChar_involutive.injective]

theorem getDecodedKeyLength_encodeKey {key : ByteString} (isText : IsText key) :
    getDecodedKeyLength (encodeKey key) = key.length := by
  obtain ⟨text, noNul, rfl⟩ := isText
  have again := encodedDecodedKeyLength_utf8 (noNul_swapped noNul)
  rw [← encodeDecodeKey_utf8 noNul, encodeDecodeKey_involutive noNul] at again
  exact again

section Prefix

variable [JapaneseUtil] {dictionary : SystemDictionary} {entries : List KeyInfo}
  (isDictionary : IsDictionary dictionary entries)

include isDictionary

namespace IsDictionary

theorem isPrefix_of_entryAt {p q : ByteString} (front : p <+: q) {entry other : KeyInfo}
    (here : entryAt entries p = some entry) (there : entryAt entries q = some other) :
    entry.key <+: other.key := by
  obtain ⟨isEntry, rfl⟩ := isDictionary.entryAt_eq_some_iff.1 here
  obtain ⟨isOther, rfl⟩ := isDictionary.entryAt_eq_some_iff.1 there
  exact (isPrefix_encodeKey (isDictionary.keyText other isOther)
    (isDictionary.keyText entry isEntry)).1 front

/-- Without a node, no longer front is a key. -/
theorem filterMap_fronts_of_not_node {p rest : ByteString} {c : UInt8}
    (notNode : p ++ [c] ∉ PrefixTree.nodes (sortWords (keyWords entries))) :
    (fronts p (c :: rest)).filterMap (entryAt entries) = [] := by
  refine List.filterMap_eq_nil_iff.2 fun q member => ?_
  have below : p ++ [c] <+: q := by
    rcases List.mem_cons.1 member with rfl | later
    · exact List.prefix_refl _
    · exact (mem_fronts later).1
  cases found : entryAt entries q with
  | none => rfl
  | some entry =>
      have isWord := isDictionary.mem_words_iff.2 ⟨entry, found⟩
      exact absurd (PrefixTree.mem_nodes.2 (.inr ⟨q, isWord, below⟩)) notNode

/-- **The loop along the encoded key** traverses the entries that are met. -/
theorem eachPrefixLoop_eq {key encodedKey : ByteString}
    (isFront : ∀ entry ∈ entries, encodeKey entry.key <+: encodedKey →
      key.take (getDecodedKeyLength (encodeKey entry.key)) = entry.key)
    (callback : Callback) (tokenFilter : TokenInfo → Bool) {p rest : ByteString}
    (whole : encodedKey = p ++ rest)
    (node : p ∈ PrefixTree.nodes (sortWords (keyWords entries))) (calls : List Call) :
    dictionary.eachPrefixLoop callback tokenFilter key encodedKey p.length rest
        (dictionary.keyTrie.nodeOf (sortWords (keyWords entries)) p) calls
      = .ok (traverse callback []
          (((fronts p rest).filterMap (entryAt entries)).map (groupOf tokenFilter)) calls) := by
  induction rest generalizing p calls with
  | nil => rfl
  | cons c rest ih =>
      have whole' : encodedKey = p ++ [c] ++ rest := by simp [whole]
      rw [SystemDictionary.eachPrefixLoop, isDictionary.keyTrie.moveToChildByLabel_eq node, bind_ok_]
      by_cases isNode : p ++ [c] ∈ PrefixTree.nodes (sortWords (keyWords entries))
      swap
      · rw [if_neg isNode, isDictionary.filterMap_fronts_of_not_node isNode]
        rfl
      have length : p.length + 1 = (p ++ [c]).length := by simp
      have taken : encodedKey.take (p.length + 1) = p ++ [c] := by
        rw [whole', length, List.take_left]
      have terminal : dictionary.keyTrie.isTerminalNode (dictionary.keyTrie.nodeOf
          (sortWords (keyWords entries)) (p ++ [c])) = .ok (entryAt entries (p ++ [c])).isSome := by
        rw [isDictionary.keyTrie.isTerminalNode_eq isNode]
        congr 1
        rw [Bool.eq_iff_iff, decide_eq_true_iff, isDictionary.mem_words_iff,
          Option.isSome_iff_exists]
      rw [if_pos isNode]
      dsimp only
      rw [terminal, bind_ok_, taken, fronts, List.filterMap_cons]
      cases found : entryAt entries (p ++ [c]) with
      | none =>
          dsimp only [Option.isSome_none]
          rw [if_neg Bool.false_ne_true, length]
          exact ih whole' isNode calls
      | some entry =>
          obtain ⟨member, isKey⟩ := isDictionary.entryAt_eq_some_iff.1 found
          have front := isFront entry member (by
            rw [isKey, whole']
            exact List.prefix_append _ _)
          rw [isKey] at front
          dsimp only [Option.isSome_some]
          rw [if_pos rfl, front, isDictionary.reportNode_eq found, bind_ok_, List.map_cons, groupOf,
            traverse, isCulled, List.any_nil, if_neg Bool.false_ne_true]
          cases visitKey callback entry.key
            (((entry.tokens.map shown).filter tokenFilter).map TokenInfo.token) calls with
          | mk result next =>
              cases result with
              | kContinue =>
                  dsimp only
                  rw [length, ih whole' isNode next]
              | kDone => rfl
              | kCull =>
                  -- All the entries that are still to be met extend the culled one.
                  refine congrArg Except.ok (traverse_culled _ _ _ _ fun group later => ?_).symm
                  obtain ⟨other, isOther, rfl⟩ := List.mem_map.1 later
                  obtain ⟨q, isFront, there⟩ := List.mem_filterMap.1 isOther
                  have extends_ := isDictionary.isPrefix_of_entryAt (mem_fronts isFront).1 found there
                  exact List.any_eq_true.2
                    ⟨_, List.mem_singleton_self _, List.isPrefixOf_iff_prefix.2 extends_⟩

/-- **The entries in front of a key** are met in the order of their lengths. -/
theorem exists_found {key : ByteString} (isText : IsText key) : ∃ found : List KeyInfo,
    found.Pairwise (fun entry other => entry.key.length < other.key.length) ∧
      (∀ entry, entry ∈ found ↔ entry ∈ entries ∧ entry.key <+: key) ∧
      ∀ callback tokenFilter calls,
        dictionary.runCallbackOnEachPrefix callback tokenFilter key (encodeKey key) calls
          = .ok (traverse callback [] (found.map (groupOf tokenFilter)) calls) := by
  refine ⟨(fronts [] (encodeKey key)).filterMap (entryAt entries), ?_, fun entry => ?_,
    fun callback tokenFilter calls => ?_⟩
  · rw [List.pairwise_filterMap]
    refine (pairwise_fronts [] (encodeKey key)).imp ?_
    rintro q q' ⟨front, differs⟩ entry here other there
    have inFront := isDictionary.isPrefix_of_entryAt front here there
    refine lt_of_le_of_ne inFront.length_le fun same => differs ?_
    rw [← (isDictionary.entryAt_eq_some_iff.1 here).2,
      ← (isDictionary.entryAt_eq_some_iff.1 there).2, inFront.eq_of_length same]
  · rw [List.mem_filterMap]
    constructor
    · rintro ⟨q, member, found⟩
      obtain ⟨isEntry, rfl⟩ := isDictionary.entryAt_eq_some_iff.1 found
      exact ⟨isEntry, (isPrefix_encodeKey isText (isDictionary.keyText entry isEntry)).1
        (mem_fronts member).2⟩
    · rintro ⟨isEntry, front⟩
      have isFront := (isPrefix_encodeKey isText (isDictionary.keyText entry isEntry)).2 front
      refine ⟨encodeKey entry.key, ?_, isDictionary.entryAt_eq_some_iff.2 ⟨isEntry, rfl⟩⟩
      refine mem_fronts_iff.2 ⟨encodeKey entry.key, fun empty => ?_, isFront, rfl⟩
      have same := decodeKey_encodeKey (isDictionary.keyText entry isEntry)
      rw [empty] at same
      exact isDictionary.keyNonempty entry isEntry same.symm
  · have isFront (entry) (member : entry ∈ entries) (front : encodeKey entry.key <+: encodeKey key) :
        key.take (getDecodedKeyLength (encodeKey entry.key)) = entry.key := by
      have isKey := isDictionary.keyText entry member
      rw [getDecodedKeyLength_encodeKey isKey]
      exact (List.prefix_iff_eq_take.1 ((isPrefix_encodeKey isText isKey).1 front)).symm
    have looped := isDictionary.eachPrefixLoop_eq isFront callback tokenFilter
      (List.nil_append _).symm (PrefixTree.mem_nodes.2 (.inl rfl)) calls
    rwa [isDictionary.keyTrie.nodeOf_nil] at looped

end IsDictionary

end Prefix

end Mozkey.Dictionary
