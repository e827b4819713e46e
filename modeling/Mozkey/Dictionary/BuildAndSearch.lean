import Mozkey.Dictionary.SystemDictionaryLookup

/-!
# Building the dictionary and searching it

A dictionary that was built from some tokens and opened answers from these tokens: it has their
keys, the exact and the prefix lookup traverse the keys with their tokens, and so does the reverse
lookup of transliterations.  Whether it has a value is looked up in two places, the trie of the
values and the block of the value read as a key, and this misses a value only where it is made from a
key that it is not turned back into.
-/

namespace Mozkey.Dictionary

open Mozkey.Lib Mozkey.Storage CachedBitVectorIndex SystemDictionaryBuilder LoudsTrieBuilder

section Built

/-- The key of an entry with its tokens as they come back. -/
def keyAndTokens (entry : KeyInfo) : ByteString × List Token :=
  (entry.key, entry.tokens.map restored)

theorem groupOf_true : groupOf (fun _ => true) = keyAndTokens := by
  funext entry
  rw [groupOf, keyAndTokens, List.filter_true, List.map_map]
  rfl

variable [JapaneseUtil] {tokens : List Token} {dictionary : SystemDictionary}
  {entries : List KeyInfo}

/-! ## Keys -/

/-- **The exact lookup** of a built dictionary visits each key that was given, with its tokens, and
no other key, and the dictionary has exactly the keys that were given. -/
theorem lookupExact_of_build (storable : ∀ token ∈ tokens, Storable token)
    (opened : buildAndOpen tokens = .ok dictionary)
    (short : dictionary.tokenArray.data.length < 2 ^ 31) :
    ∃ entries, MadeOf tokens entries ∧
      (∀ key, IsText key →
        dictionary.hasKey key = .ok (decide (∃ token ∈ tokens, token.key = key))) ∧
      (∀ entry ∈ entries, ∀ callback calls, dictionary.lookupExact callback entry.key calls
        = .ok (visitKey callback entry.key (entry.tokens.map restored) calls).2) ∧
      ∀ key, IsText key → (∀ token ∈ tokens, token.key ≠ key) → ∀ callback calls,
        dictionary.lookupExact callback key calls = .ok calls := by
  obtain ⟨entries, isDictionary, madeOf⟩ := exists_isDictionary storable opened short
  refine ⟨entries, madeOf, fun key isText => ?_, fun entry member callback calls =>
    isDictionary.lookupExact_eq callback member calls, fun key isText absent callback calls =>
    isDictionary.lookupExact_of_none callback ?_ calls⟩
  · rw [SystemDictionary.hasKey, isDictionary.keyTrie.hasKey_eq]
    congr 1
    rw [Bool.eq_iff_iff, decide_eq_true_iff, decide_eq_true_iff, isDictionary.mem_words_iff,
      ← madeOf.exists_key]
    simp only [isDictionary.entryAt_encodeKey isText]
  · cases found : entryAt entries (encodeKey key) with
    | none => rfl
    | some entry =>
        obtain ⟨token, member, isKey⟩ :=
          madeOf.exists_key.1 ⟨entry, (isDictionary.entryAt_encodeKey isText).1 found⟩
        exact absurd isKey (absent token member)

omit [JapaneseUtil] in
theorem lookupExact_of_build_mixed : ∃ dictionary,
    @buildAndOpen oneKana mixedTokens = .ok dictionary ∧
      dictionary.hasKey (utf8 ['あ']) = .ok true := by
  obtain ⟨dictionary, opened, short⟩ := opened_mixedTokens
  obtain ⟨entries, -, has, -⟩ :=
    @lookupExact_of_build oneKana _ _ storable_mixedTokens opened short
  exact ⟨dictionary, opened, (has _ ⟨['あ'], by decide, rfl⟩).trans (by decide)⟩

/-- **The prefix lookup** of a built dictionary traverses the given keys in front of a key, from the
shortest one on, with their tokens. -/
theorem lookupPrefix_of_build (storable : ∀ token ∈ tokens, Storable token)
    (opened : buildAndOpen tokens = .ok dictionary)
    (short : dictionary.tokenArray.data.length < 2 ^ 31) :
    ∃ entries, MadeOf tokens entries ∧ ∀ key, IsText key → ∃ found : List KeyInfo,
      found.Pairwise (fun entry other => entry.key.length < other.key.length) ∧
      (∀ entry, entry ∈ found ↔ entry ∈ entries ∧ entry.key <+: key) ∧
      ∀ callback calls, dictionary.lookupPrefix callback key calls
        = .ok (traverse callback [] (found.map keyAndTokens) calls) := by
  obtain ⟨entries, isDictionary, madeOf⟩ := exists_isDictionary storable opened short
  refine ⟨entries, madeOf, fun key isText => ?_⟩
  obtain ⟨found, inOrder, members, looked⟩ := isDictionary.exists_found isText
  refine ⟨found, inOrder, members, fun callback calls => ?_⟩
  rw [SystemDictionary.lookupPrefix, viewOfData_eq isText, looked, groupOf_true]

omit [JapaneseUtil] in
theorem lookupPrefix_of_build_mixed : ∃ dictionary,
    @buildAndOpen oneKana mixedTokens = .ok dictionary ∧ ∃ found : List KeyInfo,
      ∀ callback calls, @SystemDictionary.lookupPrefix oneKana dictionary callback
        (utf8 ['あ', '亜']) calls = .ok (traverse callback [] (found.map keyAndTokens) calls) := by
  obtain ⟨dictionary, opened, short⟩ := opened_mixedTokens
  obtain ⟨entries, -, looksUp⟩ :=
    @lookupPrefix_of_build oneKana _ _ storable_mixedTokens opened short
  obtain ⟨found, -, -, looked⟩ := looksUp _ ⟨['あ', '亜'], by decide, rfl⟩
  exact ⟨dictionary, opened, found, looked⟩

/-! ## Transliterations -/

/-- No spelling correction, and a value that is made from the key or that is the key in katakana. -/
def isTransliteration (token : Token) : Bool :=
  token.attributes &&& spellingCorrection = 0 &&
    (isMadeFromKey token || token.key = JapaneseUtil.katakanaToHiragana token.value)

theorem isT13N_shown {info : TokenInfo} (isAsIs_eq : isAsIs info = isMadeFromKey info.token) :
    isT13N (shown info) = isTransliteration info.token := by
  have corrected : isSpellingCorrection (shown info) = isSpellingCorrection info := by
    show decide ((if isSpellingCorrection info then spellingCorrection else 0) &&&
      spellingCorrection ≠ 0) = _
    cases isSpellingCorrection info <;> decide
  have attributes : decide (info.token.attributes &&& spellingCorrection = 0)
      = !isSpellingCorrection info := by simp [isSpellingCorrection]
  have kind : (shown info).valueType ≠ .asIsHiragana ∧ (shown info).valueType ≠ .asIsKatakana ↔
      isAsIs info = false := by simp [isAsIs, shown]
  have same : (shown info).token.key = info.token.key ∧ (shown info).token.value = info.token.value :=
    ⟨rfl, rfl⟩
  rw [isT13N, isTransliteration, corrected, attributes, ← isAsIs_eq, same.1, same.2]
  simp only [kind]
  cases isSpellingCorrection info <;> cases isAsIs info <;> simp

/-- **The reverse lookup of transliterations** in a built dictionary traverses the given keys in front
of the value in hiragana, with those of their tokens that are transliterations. -/
theorem transliterations_of_build (storable : ∀ token ∈ tokens, Storable token)
    (opened : buildAndOpen tokens = .ok dictionary)
    (short : dictionary.tokenArray.data.length < 2 ^ 31) :
    ∃ entries, MadeOf tokens entries ∧ ∀ value, IsText (JapaneseUtil.katakanaToHiragana value) →
      ∃ found : List KeyInfo,
        found.Pairwise (fun entry other => entry.key.length < other.key.length) ∧
        (∀ entry, entry ∈ found ↔
          entry ∈ entries ∧ entry.key <+: JapaneseUtil.katakanaToHiragana value) ∧
        ∀ callback calls, dictionary.registerReverseLookupTokensForT13N callback value calls
          = .ok (traverse callback [] (found.map fun entry => (entry.key,
            (entry.tokens.filter fun info => isTransliteration info.token).map restored)) calls) := by
  obtain ⟨entries, isDictionary, madeOf⟩ := exists_isDictionary storable opened short
  refine ⟨entries, madeOf, fun value isText => ?_⟩
  obtain ⟨found, inOrder, members, looked⟩ := isDictionary.exists_found isText
  refine ⟨found, inOrder, members, fun callback calls => ?_⟩
  rw [SystemDictionary.registerReverseLookupTokensForT13N, looked]
  congr 2
  refine List.map_congr_left fun entry member => ?_
  have isEntry := ((members entry).1 member).1
  rw [groupOf, List.filter_map, List.map_map]
  have same : entry.tokens.filter (isT13N ∘ shown)
      = entry.tokens.filter fun info => isTransliteration info.token :=
    List.filter_congr fun info inside => isT13N_shown (madeOf.isAsIs_eq entry isEntry info inside)
  rw [same]
  rfl

omit [JapaneseUtil] in
theorem transliterations_of_build_mixed : ∃ dictionary,
    @buildAndOpen oneKana mixedTokens = .ok dictionary ∧ ∃ groups, ∀ callback calls,
      @SystemDictionary.registerReverseLookupTokensForT13N oneKana dictionary callback
        (utf8 ['ア']) calls = .ok (traverse callback [] groups calls) := by
  obtain ⟨dictionary, opened, short⟩ := opened_mixedTokens
  obtain ⟨entries, -, looksUp⟩ :=
    @transliterations_of_build oneKana _ _ storable_mixedTokens opened short
  obtain ⟨found, -, -, looked⟩ := looksUp (utf8 ['ア']) ⟨['あ'], by decide, by decide⟩
  exact ⟨dictionary, opened, _, looked⟩

/-! ## Values -/

omit [JapaneseUtil] in
theorem foldWhile_any {α : Type*} (p : α → Prop) [DecidablePred p] (xs : List α) :
    foldWhile (fun x (_ : Bool) => if p x then (false, true) else (true, false)) xs false
      = xs.any fun x => decide (p x) := by
  induction xs with
  | nil => rfl
  | cons x xs ih =>
      rw [foldWhile, List.any_cons]
      by_cases here : p x <;> simp [here, ih]

/-- The dictionary has a value when a token has it that is not made from its key, or whose key is the
value in hiragana. -/
def HasFound (tokens : List Token) (value : ByteString) : Prop :=
  ∃ token ∈ tokens, token.value = value ∧
    (isMadeFromKey token = false ∨ token.key = JapaneseUtil.katakanaToHiragana value)

instance (tokens : List Token) (value : ByteString) : Decidable (HasFound tokens value) :=
  inferInstanceAs (Decidable (∃ token ∈ tokens, _))

/-- The values in the trie are those that are not made from their keys. -/
theorem encodeValue_mem_iff (isDictionary : IsDictionary dictionary entries)
    (madeOf : MadeOf tokens entries) {value : ByteString} (isText : IsText value) :
    encodeValue value ∈ sortWords (valueWords entries) ↔
      ∃ token ∈ tokens, token.value = value ∧ isMadeFromKey token = false := by
  rw [mem_sortWords, mem_valueWords]
  constructor
  · rintro ⟨entry, member, other, mark, same⟩
    obtain ⟨info, inside, isMark⟩ := List.mem_map.1 mark
    obtain ⟨carried, rfl⟩ := Prod.mk.inj isMark
    refine ⟨info.token, (madeOf.token_mem member inside).1, ?_, ?_⟩
    · exact encodeValue_inj (isDictionary.valueText entry member info inside) isText same
    · rw [← madeOf.isAsIs_eq entry member info inside, carried]
  · rintro ⟨token, member, rfl, carried⟩
    obtain ⟨entry, isEntry, -, info, inside, rfl⟩ := madeOf.exists_info member
    refine ⟨entry, isEntry, _, List.mem_map.2 ⟨info, inside, Prod.ext ?_ rfl⟩, rfl⟩
    rw [madeOf.isAsIs_eq entry isEntry info inside, carried]

/-- **Which values a built dictionary has.** -/
theorem hasValue_of_build (storable : ∀ token ∈ tokens, Storable token)
    (opened : buildAndOpen tokens = .ok dictionary)
    (short : dictionary.tokenArray.data.length < 2 ^ 31) {value : ByteString}
    (isText : IsText value) (isText' : IsText (JapaneseUtil.katakanaToHiragana value)) :
    dictionary.hasValue value = .ok (decide (HasFound tokens value)) ∧
      ((∀ token ∈ tokens, isMadeFromKey token = true →
          token.key = JapaneseUtil.katakanaToHiragana token.value) →
        (HasFound tokens value ↔ ∃ token ∈ tokens, token.value = value)) := by
  obtain ⟨entries, isDictionary, madeOf⟩ := exists_isDictionary storable opened short
  have inTrie := encodeValue_mem_iff isDictionary madeOf isText
  refine ⟨?_, fun turnedBack => ⟨?_, ?_⟩⟩
  · rw [SystemDictionary.hasValue, isDictionary.valueTrie.hasKey_eq, bind_ok_]
    by_cases member : encodeValue value ∈ sortWords (valueWords entries)
    · obtain ⟨token, isToken, isValue, carried⟩ := inTrie.1 member
      rw [decide_eq_true member, if_pos rfl, decide_eq_true ⟨token, isToken, isValue, .inl carried⟩]
      rfl
    rw [decide_eq_false member, if_neg Bool.false_ne_true]
    dsimp only
    rw [isDictionary.keyTrie.exactSearch_eq, bind_ok_]
    cases found : entryAt entries (encodeKey (JapaneseUtil.katakanaToHiragana value)) with
    | none =>
        rw [if_pos (isDictionary.idOf_eq_neg_one_iff.2 found), decide_eq_false]
        · rfl
        · rintro ⟨token, isToken, isValue, carried | isKey⟩
          · exact member (inTrie.2 ⟨token, isToken, isValue, carried⟩)
          · obtain ⟨entry, isEntry, same⟩ := madeOf.covers token isToken
            have there := (isDictionary.entryAt_encodeKey isText').2 ⟨isEntry, same.trans isKey⟩
            cases found.symm.trans there
    | some entry =>
        obtain ⟨isEntry, isKey⟩ := (isDictionary.entryAt_encodeKey isText').1 found
        rw [if_neg (by rw [isDictionary.idOf_eq_neg_one_iff, found]; simp), ← isKey]
        refine (isDictionary.forTokens_at isEntry _ _).trans ?_
        rw [foldWhile_any fun info : TokenInfo => value = info.token.value]
        congr 1
        rw [Bool.eq_iff_iff, decide_eq_true_iff, List.any_eq_true]
        constructor
        · rintro ⟨info, isShown, same⟩
          obtain ⟨source, inside, rfl⟩ := List.mem_map.1 isShown
          obtain ⟨isToken, ofKey⟩ := madeOf.token_mem isEntry inside
          exact ⟨source.token, isToken, (of_decide_eq_true same).symm, .inr (ofKey.trans isKey)⟩
        · rintro ⟨token, isToken, isValue, carried | ofKey⟩
          · exact absurd (inTrie.2 ⟨token, isToken, isValue, carried⟩) member
          · obtain ⟨other, isOther, same, info, inside, rfl⟩ := madeOf.exists_info isToken
            obtain rfl := List.inj_on_of_nodup_map madeOf.once isOther isEntry
              (same.trans (ofKey.trans isKey.symm))
            exact ⟨shown info, List.mem_map_of_mem inside, decide_eq_true isValue.symm⟩
  · rintro ⟨token, isToken, isValue, -⟩
    exact ⟨token, isToken, isValue⟩
  · rintro ⟨token, isToken, rfl⟩
    refine ⟨token, isToken, rfl, ?_⟩
    cases made : isMadeFromKey token with
    | false => exact .inl rfl
    | true => exact .inr (turnedBack token isToken made)

omit [JapaneseUtil] in
theorem hasValue_of_build_mixed : ∃ dictionary,
    @buildAndOpen oneKana mixedTokens = .ok dictionary ∧
      @SystemDictionary.hasValue oneKana dictionary (utf8 ['亜']) = .ok true := by
  obtain ⟨dictionary, opened, short⟩ := opened_mixedTokens
  have isText : IsText (utf8 ['亜']) := ⟨['亜'], by decide, rfl⟩
  have looked := @hasValue_of_build oneKana _ _ storable_mixedTokens opened short _ isText isText
  exact ⟨dictionary, opened, looked.1.trans (by decide)⟩

end Built

end Mozkey.Dictionary
