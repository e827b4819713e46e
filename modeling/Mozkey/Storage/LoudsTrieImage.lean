import Mozkey.Storage.LoudsTrie

/-!
# When the words of a trie are found

The image of the builder opens to the trie of the prefixes of its words, so that words are found
with their ids, restored from them and met as prefixes.  What has to fit is the level-order
sequence, whose bits are counted by an `int`, and the caches of lower bounds, which are vectors.
-/

namespace Mozkey.Storage

open Mozkey.Lib CachedBitVectorIndex LoudsTrieBuilder

namespace LoudsTrie

/-! ## Opening the image of the builder -/

/-- A bit vector that was made fits. -/
theorem fits_of_init {maxSize chunkSize length lb0CacheSize lb1CacheSize : Nat}
    {data : ByteString} {vector : CachedBitVectorIndex}
    (done : init maxSize chunkSize data length lb0CacheSize lb1CacheSize = .ok vector) :
    8 * length < 2 ^ 31 ∧ lb0CacheSize + 2 ≤ maxSize ∧ lb1CacheSize + 2 ≤ maxSize := by
  obtain ⟨-, fits, -, -, -, isCache0, isCache1⟩ := init_eq_ok_iff.1 done
  exact ⟨fits, (initLowerBoundCache_ok isCache0).1, (initLowerBoundCache_ok isCache1).1⟩

theorem openImage_eq_ok_iff {louds terminal edges : ByteString} (small1 : louds.length < 2 ^ 32)
    (small2 : terminal.length < 2 ^ 32) (small4 : edges.length < 2 ^ 32) {sizes : TrieCacheSizes}
    {trie : LoudsTrie} :
    openImage (imageOf louds terminal edges) sizes = .ok trie ↔
      louds.length < 2 ^ 31 ∧ terminal.length < 2 ^ 31 ∧ edges.length < 2 ^ 31 ∧ edges ≠ [] ∧
        Louds.init louds louds.length sizes.loudsLb0 sizes.loudsLb1 sizes.loudsSelect0
            sizes.loudsSelect1 = .ok trie.louds ∧
          init maxPointers 32 terminal terminal.length 0 sizes.termvecLb1
              = .ok trie.terminalBitVector ∧
            trie.edgeCharacter = edges := by
  have loaded {n : Nat} (small : n < 2 ^ 32) (rest : ByteString) :
      (loadUnaligned32At (storeUnaligned32 (UInt32.ofNat n) ++ rest)).toNat = n := by
    rw [loadUnaligned32At_store, UInt32.toNat_ofNat', Nat.mod_eq_of_lt small]
  have dropped (n : UInt32) (rest : ByteString) : (storeUnaligned32 n ++ rest).drop 4 = rest := rfl
  have dropped8 (m n : UInt32) (rest : ByteString) :
      (storeUnaligned32 m ++ (storeUnaligned32 n ++ rest)).drop 8 = rest := rfl
  have dropped12 (l m n : UInt32) (rest : ByteString) :
      (storeUnaligned32 l ++ (storeUnaligned32 m ++ (storeUnaligned32 n ++ rest))).drop 12
        = rest := rfl
  have dropped16 (k l m n : UInt32) (rest : ByteString) :
      (storeUnaligned32 k ++ (storeUnaligned32 l ++ (storeUnaligned32 m
        ++ (storeUnaligned32 n ++ rest)))).drop 16 = rest := rfl
  have eight (rest : ByteString) :
      toInt (loadUnaligned32At (storeUnaligned32 8 ++ rest)).toNat = 8 := by
    rw [loadUnaligned32At_store]
    decide
  unfold openImage imageOf
  dsimp only
  rw [dropped, dropped8, dropped12, dropped16, loaded small1, loaded small2, loaded small4, eight,
    if_neg (by decide)]
  rcases Nat.lt_or_ge edges.length (2 ^ 31) with short4 | long4
  swap
  · rw [OpenedArray.toInt_of_le long4 small4, if_pos (by omega)]
    exact ⟨fun done => (by cases done), fun ⟨_, _, short, _⟩ => absurd long4 (by omega)⟩
  rw [toInt_of_lt short4]
  by_cases none_ : edges = []
  · rw [none_, List.length_nil, if_pos (by decide)]
    exact ⟨fun done => (by cases done), fun ⟨_, _, _, some_, _⟩ => absurd rfl some_⟩
  have positive := List.length_pos_of_ne_nil none_
  rw [if_neg (by omega)]
  rcases Nat.lt_or_ge louds.length (2 ^ 31) with short1 | long1
  swap
  · rw [OpenedArray.toInt_of_le long1 small1, if_pos (.inl (by omega))]
    exact ⟨fun done => (by cases done), fun ⟨short, _⟩ => absurd long1 (by omega)⟩
  rcases Nat.lt_or_ge terminal.length (2 ^ 31) with short2 | long2
  swap
  · rw [OpenedArray.toInt_of_le long2 small2, if_pos (.inr (by omega))]
    exact ⟨fun done => (by cases done), fun ⟨_, short, _⟩ => absurd long2 (by omega)⟩
  rw [toInt_of_lt short1, toInt_of_lt short2, if_neg (by omega), Int.toNat_natCast,
    Int.toNat_natCast, List.take_left, List.drop_left, List.take_left, List.drop_left]
  constructor
  · intro done
    obtain ⟨louds', isLouds, done⟩ := bind_eq_ok_iff.1 done
    obtain ⟨vector, isVector, done⟩ := bind_eq_ok_iff.1 done
    cases done
    exact ⟨short1, short2, short4, none_, isLouds, isVector, rfl⟩
  · rintro ⟨-, -, -, -, isLouds, isVector, isEdges⟩
    rw [isLouds, bind_ok_, isVector, bind_ok_, ← isEdges]
    rfl

/-- The number of prefixes of some words, the empty one included. -/
def numPrefixes (wordList : List ByteString) : Nat :=
  (PrefixTree.nodes (sortWords wordList)).length

/-- The level-order sequence and the caches fit. -/
def Fits (wordList : List ByteString) (sizes : TrieCacheSizes) : Prop :=
  8 * loudsBytes (numPrefixes wordList) < 2 ^ 31 ∧ sizes.loudsLb0 + 2 ≤ maxPointers ∧
    sizes.loudsLb1 + 2 ≤ maxPointers ∧ sizes.termvecLb1 + 2 ≤ maxPointers

instance (wordList : List ByteString) (sizes : TrieCacheSizes) : Decidable (Fits wordList sizes) :=
  inferInstanceAs (Decidable (_ ∧ _))

/-- The words are added, and the builder builds. -/
def buildAll (wordList : List ByteString) : Except Failure LoudsTrieBuilder := do
  let builder ← wordList.foldlM add {}
  builder.build

variable {wordList : List ByteString}

theorem buildAll_eq (nonempty : ∀ word ∈ wordList, word ≠ []) :
    buildAll wordList = build { wordList } := by
  suffices added : ∀ front, wordList.foldlM add { wordList := front }
      = .ok { wordList := front ++ wordList } by
    rw [buildAll, added, bind_ok_, List.nil_append]
  intro front
  induction wordList generalizing front with
  | nil => rw [List.append_nil]; rfl
  | cons word others ih =>
      rw [List.forall_mem_cons] at nonempty
      have isAdded : add { wordList := front } word = .ok { wordList := front ++ [word] } :=
        if_neg (by simp [nonempty.1])
      rw [List.foldlM_cons, isAdded, bind_ok_, ih nonempty.2, List.append_assoc,
        List.singleton_append]

/-- What was opened fits. -/
theorem fits_of_opened (nonempty : ∀ word ∈ wordList, word ≠ []) {sizes : TrieCacheSizes}
    {builder : LoudsTrieBuilder} {trie : LoudsTrie} (built : buildAll wordList = .ok builder)
    (opened : openImage builder.image sizes = .ok trie) : Fits wordList sizes := by
  rw [buildAll_eq nonempty] at built
  obtain ⟨⟨small1, small2, small4⟩, rfl⟩ := build_eq_ok_iff.1 built
  obtain ⟨-, -, -, -, isLouds, isVector, -⟩ := (openImage_eq_ok_iff small1 small2 small4).1 opened
  obtain ⟨index, isIndex, -⟩ := bind_eq_ok_iff.1 isLouds
  obtain ⟨fits, fits0, fits1⟩ := fits_of_init isIndex
  rw [(buildStreams_filled (pairwise_sortWords wordList) fun member =>
    nonempty [] (mem_sortWords.1 member) rfl).1.1] at fits
  exact ⟨fits, fits0, fits1, (fits_of_init isVector).2.2⟩

/-- **The image of the builder opens to the trie of its words** when everything fits. -/
theorem opens_of_fits (nonempty : ∀ word ∈ wordList, word ≠ []) {sizes : TrieCacheSizes}
    (fits : Fits wordList sizes) :
    ∃ builder trie, buildAll wordList = .ok builder ∧
      openImage builder.image sizes = .ok trie ∧ IsTrie trie (sortWords wordList) := by
  have sorted := pairwise_sortWords wordList
  have noEmpty : [] ∉ sortWords wordList := fun member =>
    nonempty [] (mem_sortWords.1 member) rfl
  obtain ⟨bits, written, -⟩ := buildStreams_written sorted noEmpty
  obtain ⟨⟨loudsLength, loudsPadding, loudsBits⟩, terminalLength, terminalPadding,
    terminalBits⟩ := buildStreams_filled sorted noEmpty
  have edgesLength : (buildStreams (sortWords wordList)).edgeCharacter.length
      = numPrefixes wordList := by
    rw [written.edges, List.length_map, numPrefixes]
  have some_ : 0 < numPrefixes wordList := by
    rw [numPrefixes, PrefixTree.levelOrdered_nodes (sortWords wordList)]
    exact Nat.succ_pos _
  rw [buildAll_eq nonempty]
  rw [← numPrefixes] at loudsLength terminalLength
  obtain ⟨fits, fits0, fits1, fitsTerm⟩ := fits
  have sizesFit : numPrefixes wordList < 2 ^ 30 ∧
      8 * BitStream.wordBytes (numPrefixes wordList) < 2 ^ 31 := by
    unfold loudsBytes BitStream.wordBytes at fits
    unfold BitStream.wordBytes
    omega
  obtain ⟨louds, isLouds, isImage, represents⟩ := (Louds.init_represents_iff
    (PrefixTree.levelOrdered_nodes (sortWords wordList)) (by
      rw [loudsLength]
      exact Nat.dvd_mul_right 4 _) loudsBits sizes.loudsLb0 sizes.loudsLb1 sizes.loudsSelect0
    sizes.loudsSelect1).2 ⟨by rw [loudsLength]; exact fits, fits0, fits1⟩
  have reaches : 0 < (bitsOf (buildStreams (sortWords wordList)).terminalStream.fillPadding32.image).count
      true ∨ (buildStreams (sortWords wordList)).terminalStream.fillPadding32.image.length + 2 ^ 5
        ≤ 2 ^ 28 := by
    cases isWords : sortWords wordList with
    | nil => exact .inr (by decide)
    | cons word others =>
        refine .inl (List.count_pos_iff.2 ?_)
        rw [← isWords, terminalBits]
        refine List.mem_append_left _ (List.mem_map.2 ⟨word, mem_nodes_of_mem ?_, ?_⟩)
        · rw [isWords]
          exact List.mem_cons_self
        · rw [isWords]
          exact decide_eq_true List.mem_cons_self
  obtain ⟨vector, isVector, agrees⟩ := (init_agrees_iff maxPointers (show 2 ≤ 5 by decide)
    (by
      rw [terminalLength]
      exact Nat.dvd_mul_right 4 _) 0 sizes.termvecLb1).2
    ⟨by decide, by rw [terminalLength]; exact sizesFit.2, reaches, by decide, fitsTerm⟩
  obtain ⟨-, -, isSimple, -⟩ := init_eq_ok_iff.1 isVector
  have isData : vector.data
      = (buildStreams (sortWords wordList)).terminalStream.fillPadding32.image := by
    rw [isSimple]
    rfl
  have small1 : (buildStreams (sortWords wordList)).trieStream.fillPadding32.image.length
      < 2 ^ 31 := by
    rw [loudsLength]
    omega
  have small2 : (buildStreams (sortWords wordList)).terminalStream.fillPadding32.image.length
      < 2 ^ 31 := by
    rw [terminalLength]
    have := sizesFit.2
    rw [numPrefixes] at this
    omega
  have small4 : (buildStreams (sortWords wordList)).edgeCharacter.length < 2 ^ 31 := by
    rw [edgesLength]
    omega
  refine ⟨_, ⟨louds, vector, (buildStreams (sortWords wordList)).edgeCharacter⟩,
    build_eq_ok_iff.2 ⟨⟨by omega, by omega, by omega⟩, rfl⟩,
    (openImage_eq_ok_iff (by omega) (by omega) (by omega)).2
      ⟨small1, small2, small4, ?_, isLouds, isVector, rfl⟩, ?_⟩
  · intro none_
    rw [none_, List.length_nil] at edgesLength
    omega
  · refine ⟨sorted, represents, ⟨terminalPadding, ?_⟩, ?_, ?_, written.edges⟩
    · rw [← terminalBits]
      exact congrArg bitsOf isData
    · show Agrees vector (bitsOf vector.data)
      rw [isData]
      exact agrees
    · intro i
      show vector.get i = (bitsOf vector.data).getD i false
      rw [isSimple]
      exact SimpleSuccinctBitVectorIndex.get_init _ _ _ i

/-! ## Finding, restoring and meeting words -/

/-- The members are found with the ids of the builder and all others are not; the ids number the
members; members are restored from their ids; and a prefix search calls back, the shorter ones
first, the members that are prefixes, with nodes that have their ids. -/
structure FindsMembers (wordList : List ByteString) (builder : LoudsTrieBuilder)
    (trie : LoudsTrie) : Prop where
  found : ∀ word, trie.exactSearch word = builder.getId word
  absent : ∀ word, word ∉ wordList → builder.getId word = .ok (-1)
  numbered : ∀ word ∈ wordList, ∃ i < wordList.dedup.length, builder.getId word = .ok (i : Nat)
  bijective : ∀ i < wordList.dedup.length, ∃! word, word ∈ wordList ∧
    builder.getId word = .ok (i : Nat)
  restored : ∀ word ∈ wordList, ∀ id, builder.getId word = .ok id →
    trie.restoreKeyString id = .ok word
  prefixes : ∀ key, ∃ met, trie.prefixSearch key = .ok met ∧
    met.map Prod.fst = (List.range (key.length + 1)).filter (fun n => decide (key.take n ∈ wordList)) ∧
      ∀ n node, (n, node) ∈ met →
        trie.getKeyIdOfTerminalNode node = builder.getId (key.take n)

/-- The image is built and opened, and its searches are right. -/
def Searches (wordList : List ByteString) (sizes : TrieCacheSizes) : Prop :=
  ∃ builder trie, buildAll wordList = .ok builder ∧ openImage builder.image sizes = .ok trie ∧
    FindsMembers wordList builder trie

/-- The words with an end, as many as there are different words. -/
theorem wordsAmong_nodes (wordList : List ByteString) :
    (wordsAmong (sortWords wordList) (PrefixTree.nodes (sortWords wordList))).Nodup ∧
      (wordsAmong (sortWords wordList) (PrefixTree.nodes (sortWords wordList))).length
        = wordList.dedup.length := by
  have distinct : (wordsAmong (sortWords wordList)
      (PrefixTree.nodes (sortWords wordList))).Nodup :=
    (PrefixTree.nodup_nodes (pairwise_sortWords wordList)).filter _
  refine ⟨distinct, ((List.perm_ext_iff_of_nodup distinct wordList.nodup_dedup).2 ?_).length_eq⟩
  intro word
  rw [mem_wordsAmong, mem_sortWords, List.mem_dedup]

theorem findsMembers_of_isTrie (nonempty : ∀ word ∈ wordList, word ≠ [])
    (short : ∀ word ∈ wordList, word.length ≤ kMaxDepth) {builder : LoudsTrieBuilder}
    {trie : LoudsTrie} (built : buildAll wordList = .ok builder)
    (isTrie : IsTrie trie (sortWords wordList)) : FindsMembers wordList builder trie := by
  rw [buildAll_eq nonempty] at built
  have isId (word : ByteString) : builder.getId word = .ok (idOf (sortWords wordList) word) :=
    getId_eq (fun member => nonempty [] member rfl) built word
  obtain ⟨distinct, size⟩ := wordsAmong_nodes wordList
  have members {word : ByteString} : word ∈ sortWords wordList ↔ word ∈ wordList := mem_sortWords
  refine ⟨?_, ?_, ?_, ?_, ?_, ?_⟩
  · intro word
    rw [isTrie.exactSearch_eq, isId]
  · intro word absent
    rw [isId, idOf_of_not_mem (mt members.1 absent)]
  · intro word member
    have inside := List.idxOf_lt_length_iff.2 (mem_wordsAmong.2 (members.2 member))
    rw [size] at inside
    exact ⟨_, inside, by rw [isId, idOf_of_mem (members.2 member)]⟩
  · intro i inside
    rw [← size] at inside
    have isMember := mem_wordsAmong.1 (List.getElem_mem inside)
    refine ⟨_, ⟨members.1 isMember, ?_⟩, ?_⟩
    · rw [isId, idOf_of_mem isMember, List.Nodup.idxOf_getElem distinct i inside]
    · rintro word ⟨member, here⟩
      rw [isId, idOf_of_mem (members.2 member)] at here
      have place := Int.ofNat_inj.1 (Except.ok.inj here)
      subst place
      exact (List.getElem_idxOf _).symm
  · intro word member id here
    rw [isId] at here
    rw [← Except.ok.inj here]
    exact isTrie.restoreKeyString_eq (members.2 member) (short word member)
  · intro key
    refine ⟨_, isTrie.prefixSearch_eq key, ?_, ?_⟩
    · have noEmpty : decide (key.take 0 ∈ wordList) = false :=
        decide_eq_false fun member => nonempty _ member List.take_zero
      rw [List.map_map, List.range_succ_eq_map, List.filter_cons, noEmpty,
        if_neg Bool.false_ne_true, List.filter_map, List.filter_map, List.map_map]
      have same : (List.range key.length).filter
            ((fun front => decide (front ∈ sortWords wordList)) ∘ fun i => key.take (i + 1))
          = (List.range key.length).filter
            ((fun n => decide (key.take n ∈ wordList)) ∘ Nat.succ) :=
        List.filter_congr fun i _ => decide_eq_decide.2 members
      rw [same]
      refine List.map_congr_left fun i member => ?_
      have inside := List.mem_range.1 (List.mem_filter.1 member).1
      exact List.length_take_of_le inside
    · intro n node member
      obtain ⟨front, inside, isPair⟩ := List.mem_map.1 member
      obtain ⟨isFront, isMember⟩ := List.mem_filter.1 inside
      obtain ⟨i, inKey, rfl⟩ := List.mem_map.1 isFront
      rw [List.mem_range] at inKey
      obtain ⟨rfl, rfl⟩ := Prod.mk.inj isPair
      rw [List.length_take_of_le inKey, isTrie.getKeyIdOfTerminalNode_eq (of_decide_eq_true isMember),
        isId]

/-- **The searches of a trie are right** exactly when its level-order sequence has fewer than 2^31
bits and no cache of lower bounds is longer than a vector can be. -/
theorem searches_iff (nonempty : ∀ word ∈ wordList, word ≠ [])
    (short : ∀ word ∈ wordList, word.length ≤ kMaxDepth) (sizes : TrieCacheSizes) :
    Searches wordList sizes ↔ Fits wordList sizes := by
  constructor
  · rintro ⟨builder, trie, built, opened, -⟩
    exact fits_of_opened nonempty built opened
  · intro fits
    obtain ⟨builder, trie, built, opened, isTrie⟩ := opens_of_fits nonempty fits
    exact ⟨builder, trie, built, opened, findsMembers_of_isTrie nonempty short built isTrie⟩

/-- The words a, ab and b, with small caches. -/
theorem searches_nested : Searches [ascii "ab", ascii "b", ascii "a"] ⟨1, 2, 3, 4, 1⟩ :=
  (searches_iff (by decide) (by decide) _).2 (by decide)

/-- No vector has as many elements as the largest size asks for. -/
theorem not_searches_largestCache : ¬ ∀ (wordList : List ByteString) (sizes : TrieCacheSizes),
    (∀ word ∈ wordList, word ≠ []) → (∀ word ∈ wordList, word.length ≤ kMaxDepth) →
      Searches wordList sizes := by
  intro claim
  obtain ⟨builder, trie, built, opened, -⟩ :=
    claim [ascii "a"] { loudsLb0 := 2 ^ 64 - 1 } (by decide) (by decide)
  have fits := (fits_of_opened (by decide) built opened).2.1
  exact absurd fits (by decide)

end LoudsTrie

end Mozkey.Storage
