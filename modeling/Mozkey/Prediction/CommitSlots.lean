import Mozkey.Prediction.CommitCopies

/-!
# The slots of a whole commit

In a storage with room a commit learns its words into their own entries, links the
entry of the context, and counts the candidates that were shown.  So the slot of every
entry is told by the words that are learned into it and by how often it is shown.  The
entry of the context is copied once more, when the words for the segments are learned.
-/

namespace Mozkey.Prediction

open Mozkey.Lib

variable {M : Modules}

/-! ## The words and the link of a commit -/

/-- The links are added to one entry. -/
def linkAll (owner : UInt64) (links : List UInt64) (s : Storage M) : Storage M :=
  links.foldl (fun s fp => s.update owner (insertNextEntryChange fp)) s

theorem lookup_linkAll (owner : UInt64) (links : List UInt64) (s : Storage M) (fp : UInt64) :
    (linkAll owner links s).lookup fp =
      if fp = owner then (s.lookup fp).map fun entry =>
        { entry with nextEntryFps := links.foldl insertNextFp entry.nextEntryFps }
      else s.lookup fp := by
  induction links generalizing s with
  | nil =>
      split
      · exact Option.map_id'.symm
      · rfl
  | cons link links ih =>
      rw [linkAll, List.foldl_cons, ← linkAll, ih, HistoryDic.lookup_update]
      split
      · rw [Option.map_map]
        rfl
      · rfl

theorem keys_linkAll (owner : UInt64) (links : List UInt64) (s : Storage M) :
    (linkAll owner links s).dic.keys = s.dic.keys := by
  induction links generalizing s with
  | nil => rfl
  | cons link links ih => rw [linkAll, List.foldl_cons, ← linkAll, ih, HistoryDic.keys_update]

variable {s : Storage M} {commit : Commit}

variable (M s commit) in
/-- The state once the words for the segments are learned. -/
def Commit.converted : Storage M × RevertEntries :=
  insertHistoryForConversionSegments M commit.time (commit.segments M s) (s, {})

variable (M s commit) in
/-- What the link of the context makes of an entry. -/
def Commit.linkInto (fp : UInt64) (entry : Entry) : Entry :=
  (linkedSegments (commit.segments M s)).elim entry fun linked =>
    if linked.1.fingerprint M = fp then
      { entry with
        nextEntryFps := (commit.newLinks M s linked.2).foldl insertNextFp entry.nextEntryFps }
    else entry

variable (M s commit) in
/-- An entry once the words are learned and the context's entry is linked. -/
def Commit.linkedSlot (fp : UInt64) : Slot :=
  let slot := (commit.wordsUnder M s fp).foldl Slot.learn { entry := s.lookup fp }
  { slot with entry := slot.entry.map (commit.linkInto M s fp) }

/-- An entry that is not the context's is not linked. -/
theorem Commit.linkInto_of_other {fp : UInt64}
    (other : ∀ linked ∈ linkedSegments (commit.segments M s), linked.1.fingerprint M ≠ fp) :
    commit.linkInto M s fp = id := by
  funext entry
  rw [Commit.linkInto]
  cases isLinked : linkedSegments (commit.segments M s) with
  | none => rfl
  | some linked => exact if_neg (other linked isLinked)

/-- A link leaves the frequencies alone. -/
theorem Commit.freqs_linkInto (fp : UInt64) (entry : Entry) :
    (commit.linkInto M s fp entry).suggestionFreq = entry.suggestionFreq ∧
      (commit.linkInto M s fp entry).shownFreq = entry.shownFreq := by
  rw [Commit.linkInto]
  cases linkedSegments (commit.segments M s) with
  | none => exact ⟨rfl, rfl⟩
  | some linked =>
      rw [Option.elim_some]
      split <;> exact ⟨rfl, rfl⟩

/-- The context's entry is linked. -/
theorem slotOf_linkAll {linked : SegmentForLearning × SegmentForLearning}
    (isLinked : linkedSegments (commit.segments M s) = some linked)
    (state : Storage M × RevertEntries) (fp : UInt64) :
    slotOf (linkAll (linked.1.fingerprint M) (commit.newLinks M s linked.2) state.1, state.2) fp =
      { slotOf state fp with
        entry := (slotOf state fp).entry.map (commit.linkInto M s fp) } := by
  rw [slotOf, lookup_linkAll]
  by_cases same : fp = linked.1.fingerprint M
  · have links : commit.linkInto M s fp = fun entry => { entry with
        nextEntryFps := (commit.newLinks M s linked.2).foldl insertNextFp entry.nextEntryFps } := by
      funext entry
      rw [Commit.linkInto, isLinked, Option.elim_some, if_pos same.symm]
    rw [if_pos same, links]
    rfl
  · have other : ∀ linked ∈ linkedSegments (commit.segments M s), linked.1.fingerprint M ≠ fp := by
      intro linked' member
      rw [isLinked] at member
      cases member
      exact Ne.symm same
    rw [if_neg same, Commit.linkInto_of_other other, Option.map_id]
    rfl

variable (M s commit) in
/-- The context's entry as it is copied. -/
def Commit.context : Option StoredEntry :=
  (linkedSegments (commit.segments M s)).bind fun linked =>
    (commit.converted M s).1.find (linked.1.fingerprint M)

theorem foldl_insert_historyEntry (words : List Word) (state : Storage M × RevertEntries) :
    (words.foldl (insert M) state).2.historyEntry = state.2.historyEntry := by
  induction words generalizing state with
  | nil => rfl
  | cons word words ih =>
      rw [List.foldl_cons, ih]
      by_cases acceptable : word.Acceptable M
      · rw [insert_of_acceptable M acceptable]
      · rw [insert_of_not_acceptable M acceptable]

theorem countShown_historyEntry (state : Storage M × RevertEntries) (result : Result) :
    (countShown M state result).2.historyEntry = state.2.historyEntry := by
  rw [countShown]
  dsimp only
  split
  · rfl
  · split <;> rfl

theorem foldl_countShown_historyEntry (results : List Result) (state : Storage M × RevertEntries) :
    (results.foldl (countShown M) state).2.historyEntry = state.2.historyEntry := by
  induction results generalizing state with
  | nil => rfl
  | cons result results ih => rw [List.foldl_cons, ih, countShown_historyEntry]

/-- The learned words of a commit in the order in which they are learned. -/
theorem Commit.words_of_learns (learns : commit.Learns ∧ commit.Learnable M) :
    commit.words M s = commit.conversionWords M s ++ (commit.wordBehindSpace M s).toList :=
  if_pos learns

theorem Commit.words_of_not_learns (learnsNot : ¬ (commit.Learns ∧ commit.Learnable M)) :
    commit.words M s = [] :=
  if_neg learnsNot

/-- All fingerprints that are stored during a commit. -/
def Commit.knownFps (M : Modules) (s : Storage M) (commit : Commit) : Finset UInt64 :=
  s.dic.keys.toFinset ∪ ((commit.words M s).map fun word => word.fingerprint M).toFinset

theorem Commit.mem_knownFps {word : Word} (member : word ∈ commit.words M s) :
    word.fingerprint M ∈ commit.knownFps M s :=
  Finset.mem_union_right _ (List.mem_toFinset.2 (List.mem_map_of_mem member))

section Learning

variable (room : commit.Room M s) (learns : commit.Learns ∧ commit.Learnable M)

include room learns

/-- The words for the segments are learned. -/
theorem Commit.converted_spec :
    (commit.converted M s).1.dic.keys.toFinset ⊆ commit.knownFps M s ∧
      ∀ fp, slotOf (commit.converted M s) fp =
        ((commit.conversionWords M s).filter fun word => word.fingerprint M = fp).foldl Slot.learn
          { entry := s.lookup fp } := by
  refine slotOf_foldl_insert room Finset.subset_union_left fun word member acceptable => ?_
  apply Commit.mem_knownFps
  rw [Commit.words_of_learns learns]
  exact List.mem_append_left _ (List.mem_filter.2 ⟨member, decide_eq_true acceptable⟩)

/-- What is stored then. -/
theorem Commit.isSome_converted (fp : UInt64) :
    ((commit.converted M s).1.lookup fp).isSome = true ↔ commit.Stores M s fp := by
  have slot := congrArg Slot.entry ((Commit.converted_spec room learns).2 fp)
  change (commit.converted M s).1.lookup fp = _ at slot
  rw [slot, Commit.Stores]
  by_cases none_ : ((commit.conversionWords M s).filter fun word => word.fingerprint M = fp) = []
  · rw [none_, List.foldl_nil]
    refine (or_iff_left ?_).symm
    rintro ⟨word, member, same⟩
    have inside : word ∈ (commit.conversionWords M s).filter fun word => word.fingerprint M = fp :=
      List.mem_filter.2 ⟨member, decide_eq_true same⟩
    rw [none_] at inside
    cases inside
  · obtain ⟨copy, learned, -⟩ := Slot.foldl_learn (s.lookup fp) none_
    obtain ⟨word, member⟩ := List.exists_mem_of_ne_nil _ none_
    obtain ⟨member, same⟩ := List.mem_filter.1 member
    rw [learned]
    exact iff_of_true rfl (.inr ⟨word, member, of_decide_eq_true same⟩)

omit room learns in
/-- The word behind a space, when there is a context. -/
theorem Commit.wordBehindSpace_of_linked {linked : SegmentForLearning × SegmentForLearning}
    (isLinked : linkedSegments (commit.segments M s) = some linked) :
    commit.wordBehindSpace M s =
      if commit.Stores M s (linked.1.fingerprint M) ∧
          (commit.segments M s).hasSpacePrefix = true ∧
          (linked.2.key = linked.2.contentKey ∧ linked.2.value = linked.2.contentValue) ∧
          (spacePrefixedWord commit.time linked.2).Acceptable M then
        some (spacePrefixedWord commit.time linked.2)
      else none := by
  rw [Commit.wordBehindSpace, isLinked]
  rfl

omit room learns in
/-- A word behind a space is acceptable, and the context's entry is stored. -/
theorem Commit.of_wordBehindSpace {word : Word} (isWord : commit.wordBehindSpace M s = some word) :
    word.Acceptable M ∧ ∃ linked, linkedSegments (commit.segments M s) = some linked ∧
      commit.Stores M s (linked.1.fingerprint M) := by
  obtain ⟨linked, isLinked, -⟩ := Option.bind_eq_some_iff.1 isWord
  rw [Commit.wordBehindSpace_of_linked isLinked] at isWord
  split at isWord
  · rename_i all
    cases isWord
    exact ⟨all.2.2.2, linked, isLinked, all.1⟩
  · cases isWord

omit room learns in
/-- The context's entry is linked; behind a space the first segment is learned before. -/
theorem insertHistoryForHistorySegments_of_linked {state : Storage M × RevertEntries}
    {linked : SegmentForLearning × SegmentForLearning} {entry : StoredEntry}
    (isLinked : linkedSegments (commit.segments M s) = some linked)
    (stores : commit.Stores M s (linked.1.fingerprint M))
    (found : state.1.find (linked.1.fingerprint M) = some entry)
    (kept : ∀ word, commit.wordBehindSpace M s = some word →
      ((insert M (state.1, { state.2 with historyEntry := some entry }) word).1.lookup
        (linked.1.fingerprint M)).isSome = true) :
    insertHistoryForHistorySegments M commit.time (commit.segments M s) state =
      (linkAll (linked.1.fingerprint M) (commit.newLinks M s linked.2)
        ((commit.wordBehindSpace M s).toList.foldl (insert M)
          (state.1, { state.2 with historyEntry := some entry })).1,
        ((commit.wordBehindSpace M s).toList.foldl (insert M)
          (state.1, { state.2 with historyEntry := some entry })).2) := by
  have space := Commit.wordBehindSpace_of_linked isLinked
  obtain ⟨historySegment, conversionSegment⟩ := linked
  rw [insertHistoryForHistorySegments, isLinked]
  dsimp only at found kept space stores ⊢
  rw [found, Commit.newLinks]
  dsimp only
  by_cases spaced : (commit.segments M s).hasSpacePrefix = true
  · rw [if_pos spaced, if_pos spaced]
    by_cases content : conversionSegment.key = conversionSegment.contentKey ∧
        conversionSegment.value = conversionSegment.contentValue
    · rw [if_pos content, if_pos content]
      by_cases acceptable : (spacePrefixedWord commit.time conversionSegment).Acceptable M
      · rw [if_pos ⟨stores, spaced, content, acceptable⟩] at space
        rw [if_pos (kept _ space), space]
        rfl
      · rw [if_neg fun all => acceptable all.2.2.2] at space
        have isStored : (state.1.lookup (historySegment.fingerprint M)).isSome = true := by
          rw [lookup_eq_some_of_find_eq_some found]
          rfl
        rw [insert_of_not_acceptable M acceptable, if_pos isStored, space]
        rfl
    · rw [if_neg fun all => content all.2.2.1] at space
      rw [if_neg content, if_neg content, space]
      rfl
  · rw [if_neg fun all => spaced all.2.1] at space
    rw [if_neg spaced, if_neg spaced, space]
    rfl

/-- A commit that links nothing only learns its words. -/
theorem Commit.linkedSlot_of_missing (noWord : commit.wordBehindSpace M s = none)
    (missing : ∀ linked ∈ linkedSegments (commit.segments M s),
      ¬ commit.Stores M s (linked.1.fingerprint M)) (fp : UInt64) :
    slotOf (commit.converted M s) fp = commit.linkedSlot M s fp := by
  have slot := (Commit.converted_spec room learns).2 fp
  have words : commit.wordsUnder M s fp
      = (commit.conversionWords M s).filter fun word => word.fingerprint M = fp := by
    rw [Commit.wordsUnder, Commit.words_of_learns learns, noWord, Option.toList_none, List.append_nil]
  rw [Commit.linkedSlot, words, ← slot]
  by_cases other : ∀ linked ∈ linkedSegments (commit.segments M s), linked.1.fingerprint M ≠ fp
  · rw [Commit.linkInto_of_other other, Option.map_id]
    rfl
  · push Not at other
    obtain ⟨linked, isLinked, rfl⟩ := other
    have absent := (Commit.isSome_converted room learns (linked.1.fingerprint M)).not.2
      (missing linked isLinked)
    rw [Option.not_isSome_iff_eq_none] at absent
    rw [slotOf, absent]
    rfl

omit room in
/-- A word behind a space is acceptable, and one of the words of the commit. -/
theorem Commit.acceptable_of_wordBehindSpace {word : Word}
    (isWord : commit.wordBehindSpace M s = some word) :
    word.Acceptable M ∧ word.fingerprint M ∈ commit.knownFps M s := by
  refine ⟨(Commit.of_wordBehindSpace isWord).1, Commit.mem_knownFps ?_⟩
  rw [Commit.words_of_learns learns, isWord]
  exact List.mem_append_right _ (List.mem_singleton_self _)

/-- Behind the words for the segments, the word behind a space is learned. -/
theorem Commit.slotOf_learnBehindSpace (context : Option StoredEntry) (fp : UInt64) :
    slotOf ((commit.wordBehindSpace M s).toList.foldl (insert M)
        ((commit.converted M s).1, { (commit.converted M s).2 with historyEntry := context })) fp
      = (commit.wordsUnder M s fp).foldl Slot.learn { entry := s.lookup fp } := by
  obtain ⟨inside, slots⟩ := Commit.converted_spec room learns
  have accepts : ∀ word ∈ (commit.wordBehindSpace M s).toList,
      word.Acceptable M ∧ word.fingerprint M ∈ commit.knownFps M s := fun word member =>
    Commit.acceptable_of_wordBehindSpace learns (Option.mem_toList.1 member)
  have all : (commit.wordBehindSpace M s).toList.filter (fun word => word.Acceptable M)
      = (commit.wordBehindSpace M s).toList :=
    List.filter_eq_self.2 fun word member => decide_eq_true (accepts word member).1
  refine ((slotOf_foldl_insert room (by exact inside)
    fun word member _ => (accepts word member).2).2 fp).trans ?_
  rw [all, Commit.wordsUnder, Commit.words_of_learns learns, List.filter_append,
    List.foldl_append, ← slots fp]
  rfl

/-- The entries once the words are learned and the context's entry is linked. -/
theorem slotOf_insertHistory (fp : UInt64) :
    slotOf (insertHistory M commit.time (commit.segments M s) (s, {})) fp
      = commit.linkedSlot M s fp := by
  rw [insertHistory, ← Commit.converted]
  cases isLinked : linkedSegments (commit.segments M s) with
  | none =>
      rw [insertHistoryForHistorySegments, isLinked]
      refine Commit.linkedSlot_of_missing room learns ?_ ?_ fp
      · rw [Commit.wordBehindSpace, isLinked]
        rfl
      · intro linked member
        rw [isLinked] at member
        cases member
  | some linked =>
      by_cases stores : commit.Stores M s (linked.1.fingerprint M)
      · have isStored := (Commit.isSome_converted room learns _).2 stores
        rw [← find_isSome] at isStored
        obtain ⟨entry, found⟩ := Option.isSome_iff_exists.1 isStored
        obtain ⟨inside, -⟩ := Commit.converted_spec room learns
        have kept : ∀ word, commit.wordBehindSpace M s = some word →
            ((insert M ((commit.converted M s).1, { (commit.converted M s).2 with
              historyEntry := some entry }) word).1.lookup
                (linked.1.fingerprint M)).isSome = true := by
          intro word isWord
          obtain ⟨acceptable, isKnown⟩ := Commit.acceptable_of_wordBehindSpace learns isWord
          apply isSome_lookup_insert acceptable
          · exact LruMap.room_of_keys_subset inside room isKnown
          · exact (Commit.isSome_converted room learns _).2 stores
        rw [insertHistoryForHistorySegments_of_linked isLinked stores found kept, slotOf_linkAll isLinked,
          Commit.linkedSlot]
        rw [Commit.slotOf_learnBehindSpace room learns]
      · have absent := (Commit.isSome_converted room learns _).not.2 stores
        have missing : (commit.converted M s).1.find (linked.1.fingerprint M) = none := by
          rw [← find_isSome, Option.not_isSome_iff_eq_none] at absent
          exact absent
        rw [← Commit.linkedSlot_of_missing room learns ?_ ?_ fp]
        · obtain ⟨historySegment, conversionSegment⟩ := linked
          rw [insertHistoryForHistorySegments, isLinked]
          dsimp only at missing ⊢
          rw [missing]
        · rw [Commit.wordBehindSpace_of_linked isLinked, if_neg fun all => stores all.1]
        · intro other member
          rw [isLinked] at member
          cases member
          exact stores

/-- **What a commit makes of an entry.** -/
theorem slotOf_learn (fp : UInt64) :
    slotOf (learn M s commit) fp =
      (Slot.count M)^[(commit.shownFps M).count fp] (commit.linkedSlot M s fp) := by
  rw [← slotOf_insertHistory room learns]
  exact slotOf_foldl_countShown _ _ fp

/-- What is stored after a commit. -/
theorem isSome_learn (fp : UInt64) :
    ((learn M s commit).1.lookup fp).isSome = true ↔
      (s.lookup fp).isSome = true ∨ commit.wordsUnder M s fp ≠ [] := by
  have stored := congrArg (fun slot => slot.entry.isSome) (slotOf_learn room learns fp)
  change ((learn M s commit).1.lookup fp).isSome = _ at stored
  rw [stored, Slot.isSome_entry_iterate_count, Commit.linkedSlot, Option.isSome_map,
    Slot.isSome_entry_foldl_learn]

end Learning

/-- The copy of the context's entry. -/
theorem historyEntry_learn (s : Storage M) (commit : Commit) :
    (learn M s commit).2.historyEntry = commit.context M s := by
  have noCopy : (commit.converted M s).2.historyEntry = none :=
    foldl_insert_historyEntry _ (s, ({} : RevertEntries))
  rw [learn, maybeRemoveUnselectedHistory, foldl_countShown_historyEntry, insertHistory,
    ← Commit.segments, ← Commit.converted, insertHistoryForHistorySegments, Commit.context]
  cases linkedSegments (commit.segments M s) with
  | none => exact noCopy
  | some linked =>
      obtain ⟨historySegment, conversionSegment⟩ := linked
      rw [Option.bind_some]
      dsimp only
      cases (commit.converted M s).1.find (historySegment.fingerprint M) with
      | none => exact noCopy
      | some entry =>
          dsimp only
          split
          · split
            · exact foldl_insert_historyEntry [_] ((commit.converted M s).1, _)
            · rfl
          · rfl

/-- The last copy of an entry, where the context's copy comes last. -/
theorem lastRecord_records (record : RevertEntries) (fp : UInt64) :
    lastRecord (record.records M) fp
      = (record.historyEntry.filter fun copy => StoredEntry.fingerprint M copy = fp).elim
          (lastRecord (recordsOf M record.entries) fp) fun copy => some copy.val := by
  rw [RevertEntries.records]
  cases record.historyEntry with
  | none => rw [Option.map_none, Option.toList_none, List.append_nil]; rfl
  | some copy =>
      rw [Option.map_some, Option.toList_some, lastRecord_append_singleton]
      by_cases same : StoredEntry.fingerprint M copy = fp
      · rw [if_pos same.symm, Option.filter_some_pos (by simpa using same)]
        rfl
      · rw [if_neg (Ne.symm same), Option.filter_some_neg (by simpa using same)]
        rfl

end Mozkey.Prediction
