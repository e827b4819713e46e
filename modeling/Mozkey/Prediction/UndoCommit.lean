import Mozkey.Prediction.CommitSlots

/-!
# A commit and its revert

A commit is undone by its revert exactly if the storage has room for its words and the
last copy of every entry is as good as the first one.  A commit that learns a word
twice is not undone: the second copy has the marks of the first insertion.  After a
commit that keeps no copy, an older one is reverted.
-/

namespace Mozkey.Prediction

open Mozkey.Lib

variable {M : Modules}

variable {s : Storage M} {commit : Commit}

/-! ## When a learned commit is undone -/

variable (M s commit) in
/-- What a revert makes of an entry when the commit has kept copies. -/
def Commit.revertedEntry (fp : UInt64) : Option Entry :=
  restore (learn M s commit).1.lookup ((learn M s commit).2.records M) fp

/-- A copy is kept of some entry. -/
theorem exists_lastRecord_iff (entries : List RevertEntry) :
    (∃ fp, (lastRecord (recordsOf M entries) fp).isSome = true) ↔ entries ≠ [] := by
  induction entries using List.reverseRecOn with
  | nil =>
      refine iff_of_false ?_ (not_not_intro rfl)
      rintro ⟨fp, copied⟩
      cases copied
  | append_singleton entries record _ =>
      refine iff_of_true ⟨StoredEntry.fingerprint M record.entry, ?_⟩ (by simp)
      rw [recordsOf_append_singleton, lastRecord_append_singleton, if_pos rfl]
      rfl

section Reverting

variable (room : commit.Room M s) (few : (commit.words M s).length < 2 ^ 32)
  (learns : commit.Learns ∧ commit.Learnable M)

include room learns

/-- The context's entry is copied when the words for the segments are learned. -/
theorem Commit.context_of_stores {linked : SegmentForLearning × SegmentForLearning}
    (isLinked : linkedSegments (commit.segments M s) = some linked)
    (stores : commit.Stores M s (linked.1.fingerprint M)) :
    ∃ copy, commit.context M s = some copy ∧
      StoredEntry.fingerprint M copy = linked.1.fingerprint M ∧
      some copy.val = (((commit.conversionWords M s).filter fun word =>
        word.fingerprint M = linked.1.fingerprint M).foldl Slot.learn
          { entry := s.lookup (linked.1.fingerprint M) }).entry := by
  have isStored := (Commit.isSome_converted room learns _).2 stores
  rw [← find_isSome] at isStored
  obtain ⟨copy, found⟩ := Option.isSome_iff_exists.1 isStored
  refine ⟨copy, ?_, fingerprint_of_find found, ?_⟩
  · rw [Commit.context, isLinked, Option.bind_some, found]
  · have slot := congrArg Slot.entry
      ((Commit.converted_spec room learns).2 (linked.1.fingerprint M))
    rw [← slot]
    exact (lookup_eq_some_of_find_eq_some found).symm

/-- The context's entry is stored in the end if it is stored when it is linked. -/
theorem Commit.isSome_learn_context {linked : SegmentForLearning × SegmentForLearning}
    (isLinked : linkedSegments (commit.segments M s) = some linked) :
    ((learn M s commit).1.lookup (linked.1.fingerprint M)).isSome = true ↔
      commit.Stores M s (linked.1.fingerprint M) := by
  rw [isSome_learn room learns, Commit.wordsUnder, Commit.words_of_learns learns]
  constructor
  · rintro (stored | learned)
    · exact .inl stored
    · by_contra absent
      have noWord : commit.wordBehindSpace M s = none := by
        rw [Commit.wordBehindSpace_of_linked isLinked, if_neg fun all => absent all.1]
      rw [noWord, Option.toList_none, List.append_nil] at learned
      obtain ⟨word, member⟩ := List.exists_mem_of_ne_nil _ learned
      obtain ⟨member, same⟩ := List.mem_filter.1 member
      exact absent (.inr ⟨word, member, of_decide_eq_true same⟩)
  · rintro (stored | ⟨word, member, same⟩)
    · exact .inl stored
    · refine .inr (List.ne_nil_of_mem (a := word) (List.mem_filter.2 ⟨?_, decide_eq_true same⟩))
      exact List.mem_append_left _ member

/-- An entry that is not the context's is restored from its own copies. -/
theorem Commit.revertedEntry_of_other {fp : UInt64}
    (other : ∀ linked ∈ linkedSegments (commit.segments M s), linked.1.fingerprint M ≠ fp) :
    commit.revertedEntry M s fp =
      ((Slot.count M)^[(commit.shownFps M).count fp] ((commit.wordsUnder M s fp).foldl Slot.learn
        { entry := s.lookup fp })).restored := by
  have slot : commit.linkedSlot M s fp
      = (commit.wordsUnder M s fp).foldl Slot.learn { entry := s.lookup fp } := by
    rw [Commit.linkedSlot, Commit.linkInto_of_other other, Option.map_id]
    rfl
  have noContext : (commit.context M s).filter (fun copy => StoredEntry.fingerprint M copy = fp)
      = none := by
    refine Option.filter_eq_none_iff.2 fun copy isContext => ?_
    rw [Commit.context] at isContext
    obtain ⟨linked, isLinked, found⟩ := Option.bind_eq_some_iff.1 isContext
    rw [fingerprint_of_find found]
    simpa using other linked isLinked
  rw [← slot, ← slotOf_learn room learns, Commit.revertedEntry, restore_apply, lastRecord_records,
    historyEntry_learn, noContext]
  rfl

include few

/-- The context's entry is undone exactly if it is not learned. -/
theorem Commit.undoneAt_context_iff {linked : SegmentForLearning × SegmentForLearning}
    (isLinked : linkedSegments (commit.segments M s) = some linked) :
    UndoneAt (s.lookup (linked.1.fingerprint M))
        (commit.revertedEntry M s (linked.1.fingerprint M)) ↔
      ∀ word ∈ commit.conversionWords M s, word.fingerprint M ≠ linked.1.fingerprint M := by
  by_cases stores : commit.Stores M s (linked.1.fingerprint M)
  · obtain ⟨copy, isContext, copyFp, isCopy⟩ := Commit.context_of_stores room learns isLinked stores
    have reverted : commit.revertedEntry M s (linked.1.fingerprint M) = some copy.val := by
      have isStored : ((learn M s commit).1.lookup (linked.1.fingerprint M)).isSome = true :=
        (Commit.isSome_learn_context room learns isLinked).2 stores
      obtain ⟨entry, stored⟩ := Option.isSome_iff_exists.1 isStored
      rw [Commit.revertedEntry, restore_apply, stored, lastRecord_records, historyEntry_learn,
        isContext, Option.filter_some_pos (by simpa using copyFp)]
      rfl
    rw [reverted]
    by_cases none_ : ((commit.conversionWords M s).filter fun word =>
        word.fingerprint M = linked.1.fingerprint M) = []
    · rw [none_, List.foldl_nil] at isCopy
      change some copy.val = s.lookup _ at isCopy
      rw [← isCopy]
      refine iff_of_true (undoneAt_some.2 rfl) fun word member same => ?_
      exact absurd same (by simpa using List.filter_eq_nil_iff.1 none_ word member)
    · obtain ⟨_, learned, -⟩ := Slot.foldl_learn (s.lookup (linked.1.fingerprint M)) none_
      rw [learned] at isCopy
      have short : ((commit.conversionWords M s).filter fun word =>
          word.fingerprint M = linked.1.fingerprint M).length < 2 ^ 32 := by
        refine lt_of_le_of_lt ((List.length_filter_le _ _).trans ?_) few
        rw [Commit.words_of_learns learns, List.length_append]
        exact Nat.le_add_right _ _
      refine iff_of_false (not_undoneAt_learned none_ short (congrArg _ (Option.some.inj isCopy))) ?_
      intro unlearned
      exact none_ (List.filter_eq_nil_iff.2 fun word member => by simpa using unlearned word member)
  · have missing := (Commit.isSome_learn_context room learns isLinked).not.2 stores
    rw [Option.not_isSome_iff_eq_none] at missing
    have reverted : commit.revertedEntry M s (linked.1.fingerprint M) = none := by
      rw [Commit.revertedEntry, restore_apply, missing]
      rfl
    have absent : s.lookup (linked.1.fingerprint M) = none := by
      rw [← Option.not_isSome_iff_eq_none]
      exact fun stored => stores (.inl stored)
    rw [reverted, absent]
    exact iff_of_true undoneAt_none fun word member same => stores (.inr ⟨word, member, same⟩)

omit few

/-- Whether a copy is kept. -/
theorem Commit.entries_ne_nil_iff : (learn M s commit).2.entries ≠ [] ↔ commit.Records M s := by
  rw [← exists_lastRecord_iff]
  have copied (fp : UInt64) :
      (lastRecord (recordsOf M (learn M s commit).2.entries) fp).isSome = true ↔
        commit.wordsUnder M s fp ≠ [] ∨ ∃ entry, (commit.linkedSlot M s fp).entry = some entry ∧
          removals M entry.suggestionFreq entry.shownFreq ((commit.shownFps M).count fp) ≠ 0 := by
    have copy := congrArg (fun slot => slot.copy.isSome) (slotOf_learn room learns fp)
    change (lastRecord (recordsOf M (learn M s commit).2.entries) fp).isSome = _ at copy
    have learned := Slot.isSome_copy_foldl_learn { entry := s.lookup fp } (commit.wordsUnder M s fp)
    rw [copy, Slot.isSome_copy_iterate_count]
    exact or_congr_left (learned.trans (or_iff_right Bool.false_ne_true))
  by_cases none_ : commit.words M s = []
  · have entry_eq (fp : UInt64) : (commit.linkedSlot M s fp).entry
        = (s.lookup fp).map (commit.linkInto M s fp) := by
      rw [Commit.linkedSlot, Commit.wordsUnder, none_, List.filter_nil, List.foldl_nil]
    constructor
    · rintro ⟨fp, isCopied⟩
      rcases (copied fp).1 isCopied with learned | ⟨entry, stored, removed⟩
      · rw [Commit.wordsUnder, none_] at learned
        exact absurd rfl learned
      · rw [entry_eq] at stored
        obtain ⟨old, isOld, rfl⟩ := Option.map_eq_some_iff.1 stored
        rw [(Commit.freqs_linkInto fp old).1, (Commit.freqs_linkInto fp old).2] at removed
        exact ⟨learns, .inr ⟨fp, old, isOld, removed⟩⟩
    · rintro ⟨-, learned | ⟨fp, old, isOld, removed⟩⟩
      · exact absurd none_ learned
      · refine ⟨fp, (copied fp).2 (.inr ⟨commit.linkInto M s fp old, ?_, ?_⟩)⟩
        · rw [entry_eq, isOld, Option.map_some]
        · rw [(Commit.freqs_linkInto fp old).1, (Commit.freqs_linkInto fp old).2]
          exact removed
  · obtain ⟨word, member⟩ := List.exists_mem_of_ne_nil _ none_
    refine iff_of_true ⟨word.fingerprint M, (copied _).2 (.inl ?_)⟩ ⟨learns, .inl none_⟩
    exact List.ne_nil_of_mem (List.mem_filter.2 ⟨member, decide_eq_true rfl⟩)

end Reverting

/-! ## When a commit is undone -/

/-- A commit that keeps copies is reverted by them. -/
theorem undone_iff_of_records {s : Predictor M} (room : commit.Room M s.storage)
    (few : (commit.words M s.storage).length < 2 ^ 32) (records : commit.Records M s.storage) :
    (∀ fp, UndoneAt (s.storage.lookup fp) (commit.revertedEntry M s.storage fp)) ↔
      (∀ linked ∈ linkedSegments (commit.segments M s.storage),
        ∀ word ∈ commit.conversionWords M s.storage,
          word.fingerprint M ≠ linked.1.fingerprint M) ∧
      ∀ fp, (∀ linked ∈ linkedSegments (commit.segments M s.storage),
        linked.1.fingerprint M ≠ fp) →
        CopiedFirst M (s.storage.lookup fp) (commit.wordsUnder M s.storage fp)
          ((commit.shownFps M).count fp) := by
  have learns := records.1
  have ofContext : ∀ linked, linkedSegments (commit.segments M s.storage) = some linked → _ :=
    fun linked => Commit.undoneAt_context_iff room few learns
  have ofOther (fp : UInt64) (other : ∀ linked ∈ linkedSegments (commit.segments M s.storage),
      linked.1.fingerprint M ≠ fp) :
      UndoneAt (s.storage.lookup fp) (commit.revertedEntry M s.storage fp) ↔
        CopiedFirst M (s.storage.lookup fp) (commit.wordsUnder M s.storage fp)
          ((commit.shownFps M).count fp) := by
    rw [Commit.revertedEntry_of_other room learns other]
    exact undoneAt_restored_iff _ _ ((List.length_filter_le _ _).trans_lt few)
  constructor
  · intro undone
    refine ⟨fun linked isLinked => (ofContext linked isLinked).1 (undone _), ?_⟩
    exact fun fp other => (ofOther fp other).1 (undone fp)
  · rintro ⟨contextKept, copiedFirst⟩ fp
    by_cases other : ∀ linked ∈ linkedSegments (commit.segments M s.storage),
        linked.1.fingerprint M ≠ fp
    · exact (ofOther fp other).2 (copiedFirst fp other)
    · push Not at other
      obtain ⟨linked, isLinked, rfl⟩ := other
      exact (ofContext linked isLinked).2 (contextKept linked isLinked)

theorem finish_of_learns {s : Predictor M} {commit : Commit}
    (learns : commit.Learns ∧ commit.Learnable M) :
    finish M s commit =
      { storage := (Prediction.learn M s.storage commit).1
        revertCache :=
          if (Prediction.learn M s.storage commit).2.entries.isEmpty then s.revertCache
          else Function.update s.revertCache commit.revertId
            (some { (Prediction.learn M s.storage commit).2 with result := commit.results.headD {} })
        lastCommittedEntries := none } := by
  rw [finish, if_neg (not_not_intro learns.1), if_neg (not_not_intro learns.2)]

theorem finish_of_not_learns {s : Predictor M} {commit : Commit}
    (learnsNot : ¬ (commit.Learns ∧ commit.Learnable M)) :
    (finish M s commit).storage = s.storage ∧ (finish M s commit).revertCache = s.revertCache := by
  rw [finish]
  by_cases learns : commit.Learns
  · rw [if_neg (not_not_intro learns), if_pos fun learnable => learnsNot ⟨learns, learnable⟩]
    exact ⟨rfl, rfl⟩
  · rw [if_pos learns]
    exact ⟨rfl, rfl⟩

/-- A commit that keeps no copy leaves the revert cache alone, and of the entries it changes only
the context's. -/
theorem finish_of_not_records {s : Predictor M} (room : commit.Room M s.storage)
    (noRecords : ¬ commit.Records M s.storage) :
    (finish M s commit).revertCache = s.revertCache ∧ ∀ fp,
      (s.storage.lookup fp = none → (finish M s commit).storage.lookup fp = none) ∧
      ∀ old, s.storage.lookup fp = some old → ∃ entry,
        (finish M s commit).storage.lookup fp = some entry ∧
          entry.content = (if commit.Learns ∧ commit.Learnable M then
            commit.linkInto M s.storage fp old else old).content := by
  by_cases learns : commit.Learns ∧ commit.Learnable M
  · have isNil : (learn M s.storage commit).2.entries = [] := by
      by_contra some_
      exact noRecords ((Commit.entries_ne_nil_iff room learns).1 some_)
    have noWords : commit.words M s.storage = [] := by
      by_contra some_
      exact noRecords ⟨learns, .inl some_⟩
    have finished := finish_of_learns (s := s) learns
    rw [isNil, List.isEmpty_nil, if_pos rfl] at finished
    rw [finished]
    refine ⟨rfl, fun fp => ?_⟩
    have slot := slotOf_learn room learns fp
    rw [Commit.linkedSlot, Commit.wordsUnder, noWords, List.filter_nil, List.foldl_nil] at slot
    have stored := congrArg Slot.entry slot
    change (learn M s.storage commit).1.lookup fp = _ at stored
    simp only [if_pos learns]
    constructor
    · intro missing
      rw [stored, missing]
      exact congrArg Slot.entry (Slot.iterate_count_none _)
    · intro old isOld
      obtain ⟨entry, copy, counted, kept, -⟩ :=
        Slot.iterate_count (M := M) (commit.linkInto M s.storage fp old) none
          ((commit.shownFps M).count fp)
      refine ⟨entry, ?_, (kept ?_).2⟩
      · rw [stored, isOld]
        exact congrArg Slot.entry counted
      · rw [(Commit.freqs_linkInto fp old).1, (Commit.freqs_linkInto fp old).2]
        by_contra removed
        exact noRecords ⟨learns, .inr ⟨fp, old, isOld, removed⟩⟩
  · obtain ⟨sameStorage, sameCache⟩ := finish_of_not_learns (s := s) learns
    rw [sameStorage, sameCache]
    refine ⟨rfl, fun fp => ⟨id, fun old isOld => ⟨old, isOld, ?_⟩⟩⟩
    rw [if_neg learns]

/-- A link changes an entry unless it was there. -/
theorem Commit.content_linkInto_iff (fp : UInt64) (entry : Entry) :
    (commit.linkInto M s fp entry).content = entry.content ↔
      ∀ linked ∈ linkedSegments (commit.segments M s), linked.1.fingerprint M = fp →
        (commit.newLinks M s linked.2).foldl insertNextFp entry.nextEntryFps
          = entry.nextEntryFps := by
  rw [Commit.linkInto]
  cases isLinked : linkedSegments (commit.segments M s) with
  | none => exact iff_of_true rfl fun linked member => by cases member
  | some linked =>
      rw [Option.elim_some]
      by_cases same : linked.1.fingerprint M = fp
      · rw [if_pos same]
        constructor
        · rintro sameContent other member -
          cases member
          exact congrArg Entry.nextEntryFps sameContent
        · intro links
          rw [links linked rfl same]
      · rw [if_neg same]
        refine iff_of_true rfl fun other member isFp => ?_
        cases member
        exact absurd isFp same

/-- A commit that keeps no copy is reverted by an older record. -/
theorem undone_iff_of_not_records {s : Predictor M} (room : commit.Room M s.storage)
    (noRecords : ¬ commit.Records M s.storage) :
    Undone s.storage (revert M (finish M s commit) commit.revertId false).storage ↔
      (∀ fp entry copy, s.storage.lookup fp = some entry →
        s.copyUnder M commit.revertId fp = some copy → copy.content = entry.content) ∧
      (commit.Learns ∧ commit.Learnable M →
        ∀ linked ∈ linkedSegments (commit.segments M s.storage),
          ∀ entry, s.storage.lookup (linked.1.fingerprint M) = some entry →
            s.copyUnder M commit.revertId (linked.1.fingerprint M) = none →
              (commit.newLinks M s.storage linked.2).foldl insertNextFp entry.nextEntryFps
                = entry.nextEntryFps) := by
  obtain ⟨sameCache, stored⟩ := finish_of_not_records room noRecords
  have copies (fp : UInt64) : (finish M s commit).copyUnder M commit.revertId fp
      = s.copyUnder M commit.revertId fp := by
    rw [Predictor.copyUnder, sameCache, Predictor.copyUnder]
  constructor
  · intro undone
    constructor
    · intro fp entry copy isOld isCopy
      obtain ⟨entry', isNew, -⟩ := (stored fp).2 entry isOld
      have undoneHere := undone fp
      rw [lookup_revert_eq, copies, isOld, isNew, isCopy] at undoneHere
      exact undoneAt_some.1 undoneHere
    · intro learns linked isLinked entry isOld noCopy
      obtain ⟨entry', isNew, sameContent⟩ := (stored _).2 entry isOld
      have undoneHere := undone (linked.1.fingerprint M)
      rw [lookup_revert_eq, copies, isOld, isNew, noCopy] at undoneHere
      rw [if_pos learns] at sameContent
      have linkedSame := sameContent.symm.trans (undoneAt_some.1 undoneHere)
      exact (Commit.content_linkInto_iff _ _).1 linkedSame linked isLinked rfl
  · rintro ⟨olderCopies, linkedBefore⟩ fp
    rw [lookup_revert_eq, copies]
    cases isOld : s.storage.lookup fp with
    | none =>
        rw [(stored fp).1 isOld]
        exact undoneAt_none
    | some entry =>
        obtain ⟨entry', isNew, sameContent⟩ := (stored fp).2 entry isOld
        rw [isNew, Option.map_some, undoneAt_some]
        cases isCopy : s.copyUnder M commit.revertId fp with
        | some copy => exact olderCopies fp entry copy isOld isCopy
        | none =>
            refine sameContent.trans ?_
            split
            · rename_i learns
              refine (Commit.content_linkInto_iff _ _).2 fun linked isLinked isFp => ?_
              subst isFp
              exact linkedBefore learns linked isLinked entry isOld isCopy
            · rfl

/-! ## Without room -/

/-- What is not stored stays so while other words are learned. -/
theorem lookup_converted_of_stores {fp : UInt64}
    (stored : ((commit.converted M s).1.lookup fp).isSome = true) : commit.Stores M s fp := by
  have inserted : ∀ (words : List Word) (state : Storage M × RevertEntries),
      ((words.foldl (insert M) state).1.lookup fp).isSome = true →
        (state.1.lookup fp).isSome = true ∨
          ∃ word ∈ words, word.Acceptable M ∧ word.fingerprint M = fp := by
    intro words
    induction words with
    | nil => exact fun _ stored => .inl stored
    | cons word words ih =>
        intro state stored
        rcases ih _ stored with before | ⟨later, member, learned⟩
        · by_cases acceptable : word.Acceptable M
          · obtain ⟨entry, found⟩ := Option.isSome_iff_exists.1 before
            rcases lookup_of_lookup_insert M acceptable found with ⟨same, -⟩ | ⟨-, old⟩
            · exact .inr ⟨word, List.mem_cons_self, acceptable, same.symm⟩
            · exact .inl (by rw [old]; rfl)
          · rw [insert_of_not_acceptable M acceptable] at before
            exact .inl before
        · exact .inr ⟨later, .tail _ member, learned⟩
  rcases inserted _ (s, {}) stored with old | ⟨word, member, acceptable, same⟩
  · exact .inl old
  · exact .inr ⟨word, List.mem_filter.2 ⟨member, decide_eq_true acceptable⟩, same⟩

/-- The keys are those of the words that are learned; the one behind a space is learned when the
context's entry is stored. -/
theorem keys_insertHistory (s : Storage M) (commit : Commit) :
    ∃ words, (words = [] ∧ (commit.wordBehindSpace M s = none ∨ commit.context M s = none) ∨
        words = (commit.wordBehindSpace M s).toList) ∧
      (insertHistory M commit.time (commit.segments M s) (s, {})).1.dic.keys
        = (words.foldl (insert M) (commit.converted M s)).1.dic.keys := by
  rw [insertHistory, ← Commit.converted, insertHistoryForHistorySegments, Commit.context]
  cases isLinked : linkedSegments (commit.segments M s) with
  | none => exact ⟨[], .inl ⟨rfl, .inr rfl⟩, rfl⟩
  | some linked =>
      have space := Commit.wordBehindSpace_of_linked isLinked
      obtain ⟨historySegment, conversionSegment⟩ := linked
      rw [Option.bind_some]
      dsimp only at space ⊢
      cases found : (commit.converted M s).1.find (historySegment.fingerprint M) with
      | none => exact ⟨[], .inl ⟨rfl, .inr rfl⟩, rfl⟩
      | some entry =>
          have stores : commit.Stores M s (historySegment.fingerprint M) :=
            lookup_converted_of_stores (by rw [← find_isSome, found]; rfl)
          refine ⟨(commit.wordBehindSpace M s).toList, .inr rfl, ?_⟩
          dsimp only
          by_cases spaced : (commit.segments M s).hasSpacePrefix = true
          · rw [if_pos spaced]
            by_cases content : conversionSegment.key = conversionSegment.contentKey ∧
                conversionSegment.value = conversionSegment.contentValue
            · rw [if_pos content]
              by_cases acceptable : (spacePrefixedWord commit.time conversionSegment).Acceptable M
              · rw [if_pos ⟨stores, spaced, content, acceptable⟩] at space
                rw [space, HistoryDic.keys_update, insert_of_acceptable M acceptable,
                  Option.toList_some, List.foldl_cons, List.foldl_nil,
                  insert_of_acceptable M acceptable]
              · rw [if_neg fun all => acceptable all.2.2.2] at space
                rw [space, HistoryDic.keys_update, insert_of_not_acceptable M acceptable]
                rfl
            · rw [if_neg fun all => content all.2.2.1] at space
              rw [if_neg content, space]
              rfl
          · rw [if_neg fun all => spaced all.2.1] at space
            rw [if_neg spaced, space]
            exact keys_linkAll _ _ _

/-- A word that is not the oldest one drops it or keeps it the oldest. -/
theorem foldl_insert_oldest {oldest : UInt64} {words : List Word}
    {state : Storage M × RevertEntries} (isOldest : state.1.dic.keys.getLast? = some oldest)
    (others : ∀ word ∈ words, word.Acceptable M → word.fingerprint M ≠ oldest) :
    (words.foldl (insert M) state).1.lookup oldest = none ∨
      (words.foldl (insert M) state).1.dic.keys.toFinset
        = state.1.dic.keys.toFinset ∪ (acceptedFps M words).toFinset := by
  have dropped : ∀ (words : List Word) (state : Storage M × RevertEntries),
      state.1.lookup oldest = none →
      (∀ word ∈ words, word.Acceptable M → word.fingerprint M ≠ oldest) →
        (words.foldl (insert M) state).1.lookup oldest = none := by
    intro words
    induction words with
    | nil => exact fun _ missing _ => missing
    | cons word words ih =>
        intro state missing others
        refine ih _ ?_ fun later member => others later (.tail _ member)
        by_cases acceptable : word.Acceptable M
        · refine Option.eq_none_iff_forall_ne_some.2 fun entry found => ?_
          rcases lookup_of_lookup_insert M acceptable found with ⟨same, -⟩ | ⟨-, old⟩
          · exact others word List.mem_cons_self acceptable same.symm
          · cases missing.symm.trans old
        · rw [insert_of_not_acceptable M acceptable]
          exact missing
  induction words generalizing state with
  | nil => exact .inr (by simp [acceptedFps])
  | cons word words ih =>
      have later : ∀ other ∈ words, other.Acceptable M → other.fingerprint M ≠ oldest :=
        fun other member => others other (.tail _ member)
      rw [List.foldl_cons]
      by_cases acceptable : word.Acceptable M
      · rw [acceptedFps_cons_of_acceptable M acceptable, List.toFinset_cons, Finset.union_insert,
          ← Finset.insert_union]
        have ne := others word List.mem_cons_self acceptable
        rcases LruMap.insert_oldest isOldest ne
          (word.learnInto ((state.1.find (word.fingerprint M)).elim {} Subtype.val))
          with gone | ⟨stillOldest, keys_eq⟩
        · left
          refine dropped _ _ ?_ later
          rw [insert_of_acceptable M acceptable]
          exact gone
        · rw [← keys_eq]
          rw [insert_of_acceptable M acceptable]
          exact ih stillOldest later
      · rw [acceptedFps_cons_of_not_acceptable M acceptable, insert_of_not_acceptable M acceptable]
        exact ih isOldest later

section Full

variable (learns : commit.Learns ∧ commit.Learnable M) {words : List Word}

include learns

/-- The accepted words that a commit inserts are its words. -/
theorem Commit.mem_words_of_acceptable
    (fromSpace : ∀ word ∈ words, commit.wordBehindSpace M s = some word) {word : Word}
    (member : word ∈ Prediction.conversionWords M commit.time (commit.segments M s) ++ words)
    (acceptable : word.Acceptable M) : word ∈ commit.words M s := by
  rw [Commit.words_of_learns learns]
  rcases List.mem_append.1 member with inner | behind
  · exact List.mem_append_left _ (List.mem_filter.2 ⟨inner, decide_eq_true acceptable⟩)
  · exact List.mem_append_right _ (Option.mem_toList.2 (fromSpace word behind))

/-- The words of a commit are among those that it inserts: the one behind a space is left out only
where the context's entry is not stored. -/
theorem Commit.mem_of_mem_words
    (which : words = [] ∧ (commit.wordBehindSpace M s = none ∨ commit.context M s = none) ∨
      words = (commit.wordBehindSpace M s).toList)
    (stored : words = [] → ∀ linked ∈ linkedSegments (commit.segments M s),
      commit.Stores M s (linked.1.fingerprint M) →
        (commit.converted M s).1.find (linked.1.fingerprint M) ≠ none)
    {word : Word} (member : word ∈ commit.words M s) :
    word ∈ Prediction.conversionWords M commit.time (commit.segments M s) ++ words ∧
      word.Acceptable M := by
  rw [Commit.words_of_learns learns] at member
  rcases List.mem_append.1 member with inner | behind
  · obtain ⟨inner, acceptable⟩ := List.mem_filter.1 inner
    exact ⟨List.mem_append_left _ inner, of_decide_eq_true acceptable⟩
  · have isBehind := Option.mem_toList.1 behind
    obtain ⟨acceptable, linked, isLinked, stores⟩ := Commit.of_wordBehindSpace isBehind
    refine ⟨List.mem_append_right _ ?_, acceptable⟩
    rcases which with ⟨isNil, noWord | noContext⟩ | rfl
    · cases noWord.symm.trans isBehind
    · rw [Commit.context, isLinked, Option.bind_some] at noContext
      exact absurd noContext (stored isNil linked isLinked stores)
    · exact behind

/-- A storage that keeps all its entries and gets all the words has room for them. -/
theorem Commit.room_of_keys_union
    (which : words = [] ∧ (commit.wordBehindSpace M s = none ∨ commit.context M s = none) ∨
      words = (commit.wordBehindSpace M s).toList)
    (keys_union : ((Prediction.conversionWords M commit.time (commit.segments M s) ++ words).foldl
        (insert M) (s, {})).1.dic.keys.toFinset
      = s.dic.keys.toFinset ∪ (acceptedFps M
        (Prediction.conversionWords M commit.time (commit.segments M s) ++ words)).toFinset) :
    commit.Room M s := by
  have stored : words = [] → ∀ linked ∈ linkedSegments (commit.segments M s),
      commit.Stores M s (linked.1.fingerprint M) →
        (commit.converted M s).1.find (linked.1.fingerprint M) ≠ none := by
    rintro rfl linked - stores missing
    rw [List.append_nil] at keys_union
    have converted : (commit.converted M s).1.dic.keys.toFinset = _ := keys_union
    have isKey : linked.1.fingerprint M ∈ (commit.converted M s).1.dic.keys.toFinset := by
      rw [converted]
      rcases stores with old | ⟨other, isOther, same⟩
      · obtain ⟨entry, found⟩ := Option.isSome_iff_exists.1 old
        exact Finset.mem_union_left _
          (List.mem_toFinset.2 ((LruMap.mem_keys_iff _).2 ⟨entry, found⟩))
      · refine Finset.mem_union_right _ (List.mem_toFinset.2 ?_)
        rw [← same]
        exact List.mem_map_of_mem isOther
    obtain ⟨entry, found⟩ := (LruMap.mem_keys_iff _).1 (List.mem_toFinset.1 isKey)
    have absent := lookup_eq_none_of_find_eq_none missing
    cases absent.symm.trans found
  have bound : (s.dic.keys.toFinset ∪ (acceptedFps M
      (Prediction.conversionWords M commit.time (commit.segments M s) ++ words)).toFinset).card
        ≤ kLruCacheSize := by
    rw [← keys_union, List.toFinset_card_of_nodup (LruMap.keys_nodup _), LruMap.keys,
      List.length_map]
    exact LruMap.bound _
  refine (Finset.card_le_card ?_).trans bound
  refine Finset.union_subset_union_right fun fp member => ?_
  obtain ⟨word, isWord, rfl⟩ := List.mem_map.1 (List.mem_toFinset.1 member)
  obtain ⟨inserted, acceptable⟩ := Commit.mem_of_mem_words learns which stored isWord
  refine List.mem_toFinset.2 (List.mem_map_of_mem (List.mem_filter.2 ?_))
  exact ⟨inserted, decide_eq_true acceptable⟩

/-- **Without room the oldest entry is dropped**, unless the commit learns its word. -/
theorem lookup_oldest_learn (full : ¬ commit.Room M s) {oldest : UInt64}
    (isOldest : s.dic.keys.getLast? = some oldest)
    (unlearned : ∀ word ∈ commit.words M s, word.fingerprint M ≠ oldest) :
    (learn M s commit).1.lookup oldest = none := by
  obtain ⟨words, which, keys_eq⟩ := keys_insertHistory s commit
  have together : words.foldl (insert M) (commit.converted M s)
      = (conversionWords M commit.time (commit.segments M s) ++ words).foldl (insert M) (s, {}) :=
    List.foldl_append.symm
  have fromSpace : ∀ word ∈ words, commit.wordBehindSpace M s = some word := by
    intro word member
    rcases which with ⟨rfl, -⟩ | rfl
    · cases member
    · exact Option.mem_toList.1 member
  rw [together] at keys_eq
  rcases @foldl_insert_oldest M oldest _ (s, {}) isOldest fun word member acceptable =>
      unlearned word (Commit.mem_words_of_acceptable learns fromSpace member acceptable)
    with gone | keys_union
  · have missing : (insertHistory M commit.time (commit.segments M s) (s, {})).1.lookup oldest
        = none := by
      refine (LruMap.lookup_eq_none_iff _).2 ?_
      rw [keys_eq]
      exact (LruMap.lookup_eq_none_iff _).1 gone
    have counted := isSome_foldl_countShown (commit.results.take kMaxHistorySize)
      (insertHistory M commit.time (commit.segments M s) (s, {})) oldest
    rw [missing] at counted
    exact Option.isNone_iff_eq_none.1 (Option.isSome_eq_false_iff.1 counted)
  · exact absurd (Commit.room_of_keys_union learns which keys_union) full

end Full

/-! ## Main result -/

/-- **A commit is undone exactly if the last copies are as good as the first ones.**  In a storage
without room the oldest entry is lost, unless the commit learns its word. -/
theorem undone_iff {s : Predictor M} {commit : Commit}
    (few : (commit.words M s.storage).length < 2 ^ 32)
    (oldest : ¬ commit.Room M s.storage → ∃ fp, s.storage.dic.keys.getLast? = some fp ∧
      ∀ word ∈ commit.words M s.storage, word.fingerprint M ≠ fp) :
    Undone s.storage (revert M (finish M s commit) commit.revertId false).storage ↔
      commit.Undoable M s := by
  by_cases room : commit.Room M s.storage
  · by_cases records : commit.Records M s.storage
    · have some_ := (Commit.entries_ne_nil_iff room records.1).2 records
      have reverted (fp : UInt64) :
          (revert M (finish M s commit) commit.revertId false).storage.lookup fp
            = commit.revertedEntry M s.storage fp := by
        rw [lookup_revert_eq, Predictor.copyUnder, finish_of_learns records.1]
        dsimp only
        rw [if_neg (by simpa using some_), Function.update_self, Option.bind_some,
          Commit.revertedEntry, restore_apply]
        rfl
      have iff := undone_iff_of_records room few records
      rw [Undone]
      simp only [reverted]
      rw [iff]
      constructor
      · rintro ⟨contextKept, copiedFirst⟩
        exact ⟨room, fun _ => contextKept, fun _ => copiedFirst,
          fun noRecords => absurd records noRecords, fun noRecords => absurd records noRecords⟩
      · exact fun undoable => ⟨undoable.contextKept records, undoable.copiedFirst records⟩
    · rw [undone_iff_of_not_records room records]
      constructor
      · rintro ⟨olderCopies, linkedBefore⟩
        exact ⟨room, fun isRecord => absurd isRecord records, fun isRecord => absurd isRecord records,
          fun _ => olderCopies, fun _ => linkedBefore⟩
      · exact fun undoable => ⟨undoable.olderCopies records, undoable.linkedBefore records⟩
  · obtain ⟨fp, isOldest, unlearned⟩ := oldest room
    refine iff_of_false (fun undone => ?_) fun undoable => room undoable.room
    have learns : commit.Learns ∧ commit.Learnable M := by
      by_contra learnsNot
      refine room ?_
      rw [Commit.Room, Commit.words_of_not_learns learnsNot, List.map_nil, List.toFinset_nil,
        Finset.union_empty, List.toFinset_card_of_nodup (LruMap.keys_nodup _), LruMap.keys,
        List.length_map]
      exact LruMap.bound _
    have isKey : fp ∈ s.storage.dic.keys := List.mem_of_getLast? isOldest
    obtain ⟨entry, stored⟩ := (LruMap.mem_keys_iff _).1 isKey
    obtain ⟨entry', stored', -⟩ := (undone fp).existed entry stored
    rw [lookup_revert_eq, finish_of_learns learns] at stored'
    dsimp only at stored'
    rw [lookup_oldest_learn learns room isOldest unlearned] at stored'
    cases stored'

/-- The commit of one word behind another one. -/
def commitBehind (context word : ByteString) (time : UInt64) : Commit where
  request := { historyResult := { key := context, value := context } }
  results := [{ key := word, value := word }]
  revertId := 1
  time

/-- The word b is committed behind a, which is linked to it; the revert takes the link away again. -/
theorem linkedWord_undone :
    let s := finish plainModules emptyPredictor (commitWord [] [97] 1000)
    let t := finish plainModules s (commitBehind [97] [98] 2000)
    (t.storage.lookup (fingerprint byteSum [97] [97])).map (·.nextEntryFps)
      = some [fingerprint byteSum [98] [98]] ∧
    Undone s.storage (revert plainModules t 1 false).storage := by
  intro s t
  have single : ((commitBehind [97] [98] 2000).words plainModules s.storage).length = 1 := by decide
  have room : (commitBehind [97] [98] 2000).Room plainModules s.storage := by
    rw [Commit.Room]
    decide
  have records : (commitBehind [97] [98] 2000).Records plainModules s.storage :=
    ⟨by decide, .inl (List.ne_nil_of_length_pos (by rw [single]; decide))⟩
  have selected : ∀ n freq shownFreq, removals plainModules freq shownFreq n = 0 := by
    intro n
    induction n with
    | zero => exact fun _ _ => rfl
    | succ n ih => exact fun freq shownFreq => ih freq (shownFreq + 1)
  have undoable : (commitBehind [97] [98] 2000).Undoable plainModules s := by
    refine ⟨room, fun _ => by decide, fun _ fp _ => ⟨fun _ => ?_, ?_, ?_⟩,
      fun noRecords => absurd records noRecords, fun noRecords => absurd records noRecords⟩
    · exact (List.length_filter_le _ _).trans single.le
    · rw [selected]
      exact fun once => absurd once Nat.zero_ne_one
    · rw [selected]
      exact fun again => absurd again (by decide)
  refine ⟨by decide, (undone_iff ?_ fun full => absurd room full).2 undoable⟩
  rw [single]
  decide

/-- The commit of the text aa as two segments a. -/
def repeatedSegment : Commit where
  request := {}
  results := [{ key := [97, 97], value := [97, 97],
                innerSegmentBoundary := [0x01010101, 0x01010101] }]
  revertId := 1
  time := 1000

/-- **A repeated segment is not undone.**  The second copy of its entry is made after
the first insertion, and the revert leaves it there: used once and not removed. -/
theorem repeatedSegment_not_undone :
    ¬ Undone emptyPredictor.storage
      (revert plainModules (finish plainModules emptyPredictor repeatedSegment) 1 false).storage := by
  have left : ((revert plainModules (finish plainModules emptyPredictor repeatedSegment) 1
      false).storage.lookup (fingerprint byteSum [97] [97])).map (·.removed) = some false := by
    decide
  obtain ⟨entry, found, notRemoved⟩ := Option.map_eq_some_iff.1 left
  intro undone
  exact Bool.noConfusion (notRemoved.symm.trans ((undone _).created entry rfl found).1)

end Mozkey.Prediction
