import Mozkey.Lib.Undo
import Mozkey.Prediction.Recency

/-!
# Reverting a commit

`Revert` writes the copies that `Finish` kept back into the storage, in the order in
which they were made, and last the copy of the context's entry.  The last copy of
an entry wins.  So a commit is undone when, for every entry it changes, the last
copy was made before the commit changed anything but the count of suggestions.

Which copies are made is told by the words of the commit and by how often its
candidates are removed as unselected.
-/

namespace Mozkey.Prediction

open Mozkey.Lib

variable {M : Modules}

/-! ## The revert -/

variable (M) in
/-- Where a copy belongs: `UserHistoryStorage::Fingerprint` of an entry. -/
def StoredEntry.fingerprint (entry : StoredEntry) : UInt64 :=
  Prediction.fingerprint M.cityFingerprint entry.val.key entry.val.value

theorem RevertEntry.texts_ne_nil (record : RevertEntry) :
    record.entry.val.key ≠ [] ∧ record.entry.val.value ≠ [] := record.entry.property

/-- One copy is written back, and the entry it overwrites is kept. -/
def revertOne (state : Storage M × List RevertEntry) (record : RevertEntry) :
    Storage M × List RevertEntry :=
  match state.1.find (StoredEntry.fingerprint M record.entry) with
  | none => state
  | some committed =>
      (state.1.replace record.entry.val (RevertEntry.texts_ne_nil record),
        state.2 ++ [⟨record.keyBegin, record.valueBegin, committed⟩])

/-- The copy of the context's entry is written back. -/
def revertHistory (s : Storage M) : Option StoredEntry → Storage M × Option StoredEntry
  | none => (s, none)
  | some historyEntry =>
      match s.find (StoredEntry.fingerprint M historyEntry) with
      | none => (s, none)
      | some committed =>
          (s.replace historyEntry.val (StoredEntry.texts_ne_nil historyEntry), some committed)

variable (M) in
/-- `UserHistoryPredictor::Revert`. -/
def revert (state : Predictor M) (revertId : UInt32) (syncerInCriticalSection : Bool) :
    Predictor M :=
  if syncerInCriticalSection then state
  else
    match state.revertCache revertId with
    | none => state
    | some record =>
        let reverted := record.entries.foldl revertOne (state.storage, [])
        let history := revertHistory reverted.1 record.historyEntry
        { state with
          storage := history.1
          lastCommittedEntries := some
            { result := record.result, historyEntry := history.2, entries := reverted.2 } }

/-! ## What a revert does to the entries -/

variable (M) in
/-- Copies by the fingerprints they belong to. -/
def recordsOf (entries : List RevertEntry) : List (UInt64 × Entry) :=
  entries.map fun record => (StoredEntry.fingerprint M record.entry, record.entry.val)

variable (M) in
/-- All copies in the order in which they are written back. -/
def RevertEntries.records (record : RevertEntries) : List (UInt64 × Entry) :=
  recordsOf M record.entries ++
    (record.historyEntry.map fun entry => (StoredEntry.fingerprint M entry, entry.val)).toList

theorem lookup_replace_eq_restoreOne (s : Storage M) (entry : StoredEntry) :
    (s.replace entry.val entry.property).lookup
      = restoreOne s.lookup (StoredEntry.fingerprint M entry, entry.val) := by
  funext fp
  exact s.lookup_replace entry.val entry.property fp

/-- A copy whose entry is gone is not written back. -/
theorem restoreOne_of_lookup_eq_none (s : Storage M) {entry : StoredEntry}
    (missing : s.lookup (StoredEntry.fingerprint M entry) = none) :
    restoreOne s.lookup (StoredEntry.fingerprint M entry, entry.val) = s.lookup := by
  funext fp
  rw [restoreOne]
  split
  · rename_i same
    rw [same, missing]
    rfl
  · rfl

theorem lookup_eq_none_of_find_eq_none {s : Storage M} {fp : UInt64} (missing : s.find fp = none) :
    s.lookup fp = none := by
  rw [← HistoryDic.find_map_val, missing]
  rfl

theorem lookup_eq_some_of_find_eq_some {s : Storage M} {fp : UInt64} {entry : StoredEntry}
    (found : s.find fp = some entry) : s.lookup fp = some entry.val := by
  rw [← HistoryDic.find_map_val, found]
  rfl

theorem lookup_revertOne (state : Storage M × List RevertEntry) (record : RevertEntry) :
    (revertOne state record).1.lookup
      = restoreOne state.1.lookup (StoredEntry.fingerprint M record.entry, record.entry.val) := by
  rw [revertOne]
  cases found : state.1.find (StoredEntry.fingerprint M record.entry) with
  | none => exact (restoreOne_of_lookup_eq_none _ (lookup_eq_none_of_find_eq_none found)).symm
  | some committed => exact lookup_replace_eq_restoreOne _ _

theorem lookup_foldl_revertOne (state : Storage M × List RevertEntry) (entries : List RevertEntry) :
    (entries.foldl revertOne state).1.lookup = restore state.1.lookup (recordsOf M entries) := by
  induction entries generalizing state with
  | nil => rfl
  | cons record entries ih =>
      rw [List.foldl_cons, ih, lookup_revertOne]
      rfl

theorem lookup_revertHistory (s : Storage M) (historyEntry : Option StoredEntry) :
    (revertHistory s historyEntry).1.lookup
      = restore s.lookup
          (historyEntry.map fun entry => (StoredEntry.fingerprint M entry, entry.val)).toList := by
  cases historyEntry with
  | none => rfl
  | some entry =>
      rw [revertHistory]
      cases found : s.find (StoredEntry.fingerprint M entry) with
      | none => exact (restoreOne_of_lookup_eq_none _ (lookup_eq_none_of_find_eq_none found)).symm
      | some committed => exact lookup_replace_eq_restoreOne _ _

/-- **A revert writes the copies back.** -/
theorem lookup_revert {state : Predictor M} {revertId : UInt32} {record : RevertEntries}
    (cached : state.revertCache revertId = some record) :
    (revert M state revertId false).storage.lookup
      = restore state.storage.lookup (record.records M) := by
  rw [revert, if_neg Bool.false_ne_true, cached]
  dsimp only
  rw [lookup_revertHistory, lookup_foldl_revertOne, RevertEntries.records, restore, restore,
    restore, List.foldl_append]

variable (M) in
/-- The last copy of an entry in the record under a revert id. -/
def Predictor.copyUnder (state : Predictor M) (revertId : UInt32) (fp : UInt64) : Option Entry :=
  (state.revertCache revertId).bind fun record => lastRecord (record.records M) fp

/-- **A revert writes the last copies back.** -/
theorem lookup_revert_eq (state : Predictor M) (revertId : UInt32) (fp : UInt64) :
    (revert M state revertId false).storage.lookup fp
      = (state.storage.lookup fp).map (state.copyUnder M revertId fp).getD := by
  rw [Predictor.copyUnder]
  cases cached : state.revertCache revertId with
  | none =>
      rw [revert, if_neg Bool.false_ne_true, cached]
      exact Option.map_id'.symm
  | some record =>
      rw [lookup_revert cached, restore_apply]
      rfl

/-! ## When a commit is undone -/

/-- What a revert is to bring back: how often an entry was shown, where its parts
begin and its attributes are left out. -/
def Entry.content (entry : Entry) : Entry :=
  { entry with shownFreq := 0, innerSegmentBoundary := [], attributes := 0 }

/-- What is there under a fingerprint is what was there before, or was created since
and is marked as removed and has no frequency. -/
structure UndoneAt (old new : Option Entry) : Prop where
  existed : ∀ entry, old = some entry → ∃ entry', new = some entry' ∧ entry'.content = entry.content
  created : ∀ entry', old = none → new = some entry' →
    entry'.removed = true ∧ entry'.suggestionFreq = 0

/-- The entries of a storage are there again as they were, and what was created since
is removed. -/
def Undone (s t : Storage M) : Prop := ∀ fp, UndoneAt (s.lookup fp) (t.lookup fp)

/-- The entry after words were learned into it. -/
def Entry.learned (entry : Entry) (words : List Word) : Entry :=
  words.foldl (fun entry word => word.learnInto entry) entry

variable (M)

/-- How often an entry with these frequencies is removed as unselected when it is shown
so many times more. -/
def removals (suggestionFreq shownFreq : UInt32) : Nat → Nat
  | 0 => 0
  | n + 1 =>
      if M.belowMinSelectedRatio suggestionFreq (shownFreq + 1) then removals 0 0 n + 1
      else removals suggestionFreq (shownFreq + 1) n

/-- The last copy of an entry into which words are learned, and which is then shown so
many times, is as good as the first one. -/
structure CopiedFirst (old : Option Entry) (words : List Word) (shown : Nat) : Prop where
  /-- An entry that is not removed was learned once at most. -/
  selected : removals M ((old.getD {}).suggestionFreq + UInt32.ofNat words.length)
    (old.getD {}).shownFreq shown = 0 → words.length ≤ 1
  /-- An entry that is removed was not learned before. -/
  removedOnce : removals M ((old.getD {}).suggestionFreq + UInt32.ofNat words.length)
    (old.getD {}).shownFreq shown = 1 → words = []
  /-- An entry that is removed again was as a removal leaves it, or is new. -/
  removedAgain : 2 ≤ removals M ((old.getD {}).suggestionFreq + UInt32.ofNat words.length)
    (old.getD {}).shownFreq shown →
      ∀ entry, old = some entry → (markRemoved (entry.learned words)).content = entry.content

/-- The words that a commit learns for its text and its segments. -/
def Commit.conversionWords (s : Storage M) (commit : Commit) : List Word :=
  (Prediction.conversionWords M commit.time (commit.segments M s)).filter fun word =>
    word.Acceptable M

/-- An entry is stored, or one of those words is stored there. -/
def Commit.Stores (s : Storage M) (commit : Commit) (fp : UInt64) : Prop :=
  (s.lookup fp).isSome = true ∨ ∃ word ∈ commit.conversionWords M s, word.fingerprint M = fp

instance (s : Storage M) (commit : Commit) (fp : UInt64) : Decidable (commit.Stores M s fp) :=
  inferInstanceAs (Decidable (_ ∨ _))

/-- The first segment as a word behind a space: there is a space behind the context's
word, that word is stored, the segment is a content word, and with the space it is
acceptable. -/
def Commit.wordBehindSpace (s : Storage M) (commit : Commit) : Option Word :=
  (linkedSegments (commit.segments M s)).bind fun linked =>
    let word := spacePrefixedWord commit.time linked.2
    if commit.Stores M s (linked.1.fingerprint M) ∧ (commit.segments M s).hasSpacePrefix = true ∧
        (linked.2.key = linked.2.contentKey ∧ linked.2.value = linked.2.contentValue) ∧
        word.Acceptable M then
      some word
    else none

/-- The words that a commit learns. -/
def Commit.words (s : Storage M) (commit : Commit) : List Word :=
  if commit.Learns ∧ commit.Learnable M then
    commit.conversionWords M s ++ (commit.wordBehindSpace M s).toList
  else []

/-- The words that a commit learns into one entry. -/
def Commit.wordsUnder (s : Storage M) (commit : Commit) (fp : UInt64) : List Word :=
  (commit.words M s).filter fun word => word.fingerprint M = fp

/-- The storage has room for the new words. -/
def Commit.Room (s : Storage M) (commit : Commit) : Prop :=
  (s.dic.keys.toFinset ∪ ((commit.words M s).map fun word => word.fingerprint M).toFinset).card
    ≤ kLruCacheSize

/-- The candidates whose shown frequency a commit counts. -/
def Commit.shownFps (commit : Commit) : List UInt64 :=
  (commit.results.take kMaxHistorySize).map fun result =>
    fingerprint M.cityFingerprint result.key result.value

/-- The links that the context's entry gets. -/
def Commit.newLinks (s : Storage M) (commit : Commit) (first : SegmentForLearning) : List UInt64 :=
  if (commit.segments M s).hasSpacePrefix = true then
    if first.key = first.contentKey ∧ first.value = first.contentValue then
      [fingerprint M.cityFingerprint (kPrefixZeroSpace ++ first.key) (kPrefixZeroSpace ++ first.value)]
    else []
  else first.fingerprints M

/-- Whether a commit keeps a copy of any entry: it learns a word or removes a candidate. -/
def Commit.Records (s : Storage M) (commit : Commit) : Prop :=
  (commit.Learns ∧ commit.Learnable M) ∧ (commit.words M s ≠ [] ∨
    ∃ fp entry, s.lookup fp = some entry ∧
      removals M entry.suggestionFreq entry.shownFreq ((commit.shownFps M).count fp) ≠ 0)

/-- A commit whose revert finds the right copies. -/
structure Commit.Undoable (s : Predictor M) (commit : Commit) : Prop where
  room : commit.Room M s.storage
  /-- The context's word is not learned again. -/
  contextKept : commit.Records M s.storage →
    ∀ linked ∈ linkedSegments (commit.segments M s.storage),
      ∀ word ∈ commit.conversionWords M s.storage, word.fingerprint M ≠ linked.1.fingerprint M
  /-- The last copies of the other entries are as good as the first ones. -/
  copiedFirst : commit.Records M s.storage →
    ∀ fp, (∀ linked ∈ linkedSegments (commit.segments M s.storage), linked.1.fingerprint M ≠ fp) →
      CopiedFirst M (s.storage.lookup fp) (commit.wordsUnder M s.storage fp)
        ((commit.shownFps M).count fp)
  /-- Where no copy is kept, an older record is written back, which changes nothing. -/
  olderCopies : ¬ commit.Records M s.storage → ∀ fp entry copy, s.storage.lookup fp = some entry →
    s.copyUnder M commit.revertId fp = some copy → copy.content = entry.content
  /-- Where no copy is kept, the context's entry has the new links already. -/
  linkedBefore : ¬ commit.Records M s.storage → commit.Learns ∧ commit.Learnable M →
    ∀ linked ∈ linkedSegments (commit.segments M s.storage),
      ∀ entry, s.storage.lookup (linked.1.fingerprint M) = some entry →
        s.copyUnder M commit.revertId (linked.1.fingerprint M) = none →
          (commit.newLinks M s.storage linked.2).foldl insertNextFp entry.nextEntryFps
            = entry.nextEntryFps

end Mozkey.Prediction
