import Mozkey.Lib.Run
import Mozkey.Prediction.Learning

/-!
# Learned entries carry the time of their commit

The score of an entry is the time of its last access less the length of its
value, so that later words come first and, at one time, shorter ones.  A commit
gives its time to every word it learns and leaves the time of the other entries
alone.

The word behind a space is the exception: its time and its flag are given in the
wrong order, and the entry gets the time zero, from which the length of the value
can only be subtracted with a wrap.
-/

namespace Mozkey.Prediction

open Mozkey.Lib

variable {M : Modules}

/-! ## The score -/

def kBigramBoost : UInt32 := 1
def kBigramBoostAsTime : UInt64 := 7 * 24 * 60 * 60

/-- `UserHistoryPredictor::GetScore`. -/
def getScore (entry : Entry) : UInt32 :=
  (entry.lastAccessTime - UInt64.ofNat (charsLen entry.value) +
    (if entry.attributes &&& kBigramBoost ≠ 0 then kBigramBoostAsTime else 0)).toUInt32

/-- The times the score can tell apart: later than the longest value is long, and below
the range of the score. -/
def ScorableTime (time : UInt64) : Prop := kMaxStringLength ≤ time.toNat ∧ time.toNat < 2 ^ 32

structure Scorable (entry : Entry) : Prop where
  time : ScorableTime entry.lastAccessTime
  value : entry.value.length ≤ kMaxStringLength

/-- Without a boost the score is the time less the length of the value. -/
theorem Scorable.getScore_add {entry : Entry} (scorable : Scorable entry)
    (unboosted : entry.attributes &&& kBigramBoost = 0) :
    (getScore entry).toNat + charsLen entry.value = entry.lastAccessTime.toNat := by
  obtain ⟨⟨late, early⟩, short⟩ := scorable
  have chars : charsLen entry.value ≤ entry.lastAccessTime.toNat :=
    (charsLen_le_length entry.value).trans (short.trans late)
  have noWrap : (UInt64.ofNat (charsLen entry.value)).toNat = charsLen entry.value := by
    rw [UInt64.toNat_ofNat']
    exact Nat.mod_eq_of_lt (by omega)
  rw [getScore, if_neg (fun boosted => boosted unboosted), UInt64.add_zero, UInt64.toNat_toUInt32,
    UInt64.toNat_sub_of_le _ _ (UInt64.le_iff_toNat_le.2 (noWrap.symm ▸ chars)), noWrap,
    Nat.mod_eq_of_lt (by omega)]
  omega

/-- Among the entries without a boost no score wraps around, and a later access comes
first whenever the times differ by more than the lengths of the values. -/
structure RankedByRecency (s : Storage M) : Prop where
  noWrap : ∀ fp entry, s.lookup fp = some entry → entry.attributes &&& kBigramBoost = 0 →
    (getScore entry).toNat + charsLen entry.value = entry.lastAccessTime.toNat
  later : ∀ fp entry, s.lookup fp = some entry → entry.attributes &&& kBigramBoost = 0 →
    ∀ fp' entry', s.lookup fp' = some entry' → entry'.attributes &&& kBigramBoost = 0 →
      (entry.lastAccessTime.toNat : Int) - entry'.lastAccessTime.toNat
        > charsLen entry.value - charsLen entry'.value →
      getScore entry' < getScore entry

/-- All entries of the predictor can be scored. -/
def Predictor.Scorable (s : Predictor M) : Prop :=
  ∀ fp entry, s.storage.lookup fp = some entry → Prediction.Scorable entry

theorem Predictor.Scorable.rankedByRecency {s : Predictor M} (scorable : s.Scorable) :
    RankedByRecency s.storage where
  noWrap fp entry stored := (scorable fp entry stored).getScore_add
  later := by
    intro fp entry stored unboosted fp' entry' stored' unboosted' apart
    have score := (scorable fp entry stored).getScore_add unboosted
    have score' := (scorable fp' entry' stored').getScore_add unboosted'
    rw [UInt32.lt_iff_toNat_lt]
    omega

/-! ## What a commit may change -/

/-- Between two storages, the words under the fingerprints were learned at a time, and
nothing else was; a flag is new only where that is allowed. -/
structure LearnedAt (s t : Storage M) (fps : List UInt64) (time : UInt64) (allowed : Bool) :
    Prop where
  learned : ∀ fp entry, t.lookup fp = some entry → fp ∈ fps →
    entry.lastAccessTime = time ∧ entry.value.length ≤ kMaxStringLength
  kept : ∀ fp entry, t.lookup fp = some entry → fp ∉ fps → ∃ old, s.lookup fp = some old ∧
    entry.lastAccessTime = old.lastAccessTime ∧ entry.value = old.value
  flagged : ∀ fp entry, t.lookup fp = some entry → entry.allowPartialMatch = true →
    allowed = true ∨ ∃ old, s.lookup fp = some old ∧ old.allowPartialMatch = true

namespace LearnedAt

variable {s t : Storage M} {fps : List UInt64} {time : UInt64} {allowed : Bool}

theorem refl (s : Storage M) (time : UInt64) (allowed : Bool) : LearnedAt s s [] time allowed where
  learned _ _ _ member := absurd member List.not_mem_nil
  kept _ entry stored _ := ⟨entry, stored, rfl, rfl⟩
  flagged _ entry stored flag := .inr ⟨entry, stored, flag⟩

/-- A change of other fields. -/
theorem update (learnedAt : LearnedAt s t fps time allowed) (fp : UInt64)
    {change : HistoryDic.Change}
    (keepsTime : ∀ entry, (change.apply entry).lastAccessTime = entry.lastAccessTime)
    (keepsFlag : ∀ entry, (change.apply entry).allowPartialMatch = entry.allowPartialMatch) :
    LearnedAt s (t.update fp change) fps time allowed := by
  have before : ∀ other entry, (t.update fp change).lookup other = some entry →
      ∃ old, t.lookup other = some old ∧ entry.lastAccessTime = old.lastAccessTime ∧
        entry.value = old.value ∧ entry.allowPartialMatch = old.allowPartialMatch := by
    intro other entry found
    rw [HistoryDic.lookup_update] at found
    split at found
    · obtain ⟨old, stored, rfl⟩ := Option.map_eq_some_iff.1 found
      exact ⟨old, stored, keepsTime old, change.value old, keepsFlag old⟩
    · exact ⟨entry, found, rfl, rfl, rfl⟩
  refine ⟨?_, ?_, ?_⟩
  · intro other entry found member
    obtain ⟨old, stored, sameTime, sameValue, -⟩ := before other entry found
    rw [sameTime, sameValue]
    exact learnedAt.learned other old stored member
  · intro other entry found member
    obtain ⟨old, stored, sameTime, sameValue, -⟩ := before other entry found
    rw [sameTime, sameValue]
    exact learnedAt.kept other old stored member
  · intro other entry found flag
    obtain ⟨old, stored, -, -, sameFlag⟩ := before other entry found
    exact learnedAt.flagged other old stored (sameFlag ▸ flag)

/-- One more word is learned. -/
theorem insert {revertEntries : RevertEntries} (learnedAt : LearnedAt s t fps time allowed)
    {word : Word} (sameTime : word.lastAccessTime = time)
    (allows : word.allowPartialMatch = true → allowed = true) :
    LearnedAt s (insert M (t, revertEntries) word).1 (fps ++ acceptedFps M [word]) time allowed := by
  by_cases acceptable : word.Acceptable M
  · rw [acceptedFps_cons_of_acceptable M acceptable, show acceptedFps M [] = [] from rfl]
    refine ⟨?_, ?_, ?_⟩
    · intro fp entry found member
      rcases lookup_of_lookup_insert M acceptable found with ⟨rfl, rfl⟩ | ⟨ne, stored⟩
      · exact ⟨sameTime, acceptable.2.1.2.2.1⟩
      · rcases List.mem_append.1 member with before | new
        · exact learnedAt.learned fp entry stored before
        · exact absurd (List.mem_singleton.1 new) ne
    · intro fp entry found member
      rcases lookup_of_lookup_insert M acceptable found with ⟨rfl, rfl⟩ | ⟨ne, stored⟩
      · exact absurd (List.mem_append_right _ (List.mem_singleton_self _)) member
      · exact learnedAt.kept fp entry stored fun before =>
          member (List.mem_append_left _ before)
    · intro fp entry found flag
      rcases lookup_of_lookup_insert M acceptable found with ⟨rfl, rfl⟩ | ⟨ne, stored⟩
      · rcases Bool.or_eq_true_iff.1 flag with old | new
        · cases stored : t.lookup (word.fingerprint M) with
          | none =>
              rw [stored] at old
              exact Bool.noConfusion old
          | some entry =>
              rw [stored] at old
              exact learnedAt.flagged _ entry stored old
        · exact .inl (allows new)
      · exact learnedAt.flagged fp entry stored flag
  · rw [acceptedFps_cons_of_not_acceptable M acceptable, show acceptedFps M [] = [] from rfl,
      List.append_nil, insert_of_not_acceptable M acceptable]
    exact learnedAt

theorem insertAll {words : List Word} {state : Storage M × RevertEntries}
    (learnedAt : LearnedAt s state.1 fps time allowed)
    (sameTime : ∀ word ∈ words, word.lastAccessTime = time)
    (allows : ∀ word ∈ words, word.allowPartialMatch = true → allowed = true) :
    LearnedAt s (words.foldl (Prediction.insert M) state).1 (fps ++ acceptedFps M words) time
      allowed := by
  induction words generalizing state fps with
  | nil =>
      rw [acceptedFps, List.filter_nil, List.map_nil, List.append_nil]
      exact learnedAt
  | cons word words ih =>
      have first : LearnedAt s (Prediction.insert M (state.1, state.2) word).1 _ time allowed :=
        learnedAt.insert (sameTime word List.mem_cons_self) (allows word List.mem_cons_self)
      have all := ih first (fun w member => sameTime w (.tail _ member))
        (fun w member => allows w (.tail _ member))
      have accepted : acceptedFps M (word :: words) = acceptedFps M [word] ++ acceptedFps M words := by
        by_cases acceptable : word.Acceptable M
        · rw [acceptedFps_cons_of_acceptable M acceptable, acceptedFps_cons_of_acceptable M acceptable]
          rfl
        · rw [acceptedFps_cons_of_not_acceptable M acceptable,
            acceptedFps_cons_of_not_acceptable M acceptable]
          rfl
      rw [accepted, ← List.append_assoc]
      exact all

theorem maybeRemoveUnselectedHistory {state : Storage M × RevertEntries}
    (learnedAt : LearnedAt s state.1 fps time allowed) (results : List Result) :
    LearnedAt s (maybeRemoveUnselectedHistory M results state).1 fps time allowed := by
  rw [Prediction.maybeRemoveUnselectedHistory]
  induction results.take kMaxHistorySize generalizing state with
  | nil => exact learnedAt
  | cons result rest ih =>
      refine ih ?_
      rw [countShown]
      dsimp only
      have counted : LearnedAt s (state.1.update (fingerprint M.cityFingerprint result.key
          result.value) incrementShownFreqChange) fps time allowed :=
        learnedAt.update _ (fun _ => rfl) (fun _ => rfl)
      split
      · exact learnedAt
      · split
        · exact counted.update _ (fun _ => rfl) (fun _ => rfl)
        · exact counted

theorem linkAll (learnedAt : LearnedAt s t fps time allowed) (owner : UInt64) (nexts : List UInt64) :
    LearnedAt s (nexts.foldl (fun s fp => s.update owner (insertNextEntryChange fp)) t) fps time
      allowed := by
  induction nexts generalizing t with
  | nil => exact learnedAt
  | cons next nexts ih => exact ih (learnedAt.update owner (fun _ => rfl) (fun _ => rfl))

end LearnedAt

/-! ## The words of a commit -/

variable (M) in
/-- The words of the segments carry the time, and a flag only where it is allowed. -/
theorem of_mem_segmentWords {time : UInt64} {allowed : Bool} {word : Word} {first : Bool}
    {seen : List (List UInt64)} {thisWasSeen : Bool} {segments : List SegmentForLearning}
    (member : word ∈ segmentWords M time allowed first seen thisWasSeen segments) :
    word.lastAccessTime = time ∧ (word.allowPartialMatch = true → allowed = true) := by
  induction segments generalizing first seen thisWasSeen with
  | nil => exact absurd member List.not_mem_nil
  | cons segment segments ih =>
      rw [segmentWords] at member
      rcases List.mem_append.1 member with content | rest
      · split at content
        · rw [List.mem_singleton.1 content]
          exact ⟨rfl, fun flag => (Bool.and_eq_true_iff.1 flag).2⟩
        · exact absurd content List.not_mem_nil
      · rcases List.mem_cons.1 rest with rfl | later
        · exact ⟨rfl, fun flag =>
            (Bool.and_eq_true_iff.1 (Bool.and_eq_true_iff.1 flag).1).2⟩
        · exact ih later

theorem of_mem_conversionWords {time : UInt64} {segments : SegmentsForLearning} {word : Word}
    (member : word ∈ conversionWords M time segments) :
    word.lastAccessTime = time ∧
      (word.allowPartialMatch = true → segments.allowPartialMatch = true) := by
  rcases List.mem_append.1 member with whole | inner
  · split at whole
    · rw [List.mem_singleton.1 whole]
      exact ⟨rfl, fun flag => Bool.noConfusion flag⟩
    · exact absurd whole List.not_mem_nil
  · exact of_mem_segmentWords M inner

variable (M)

/-- What `MakeLearningSegments` makes of a commit. -/
def Commit.segments (s : Storage M) (commit : Commit) : SegmentsForLearning :=
  makeLearningSegments M s commit.request commit.results

/-- The segment that is learned once more as a word behind a space: there is a space
behind the last word of the context, that word is stored once the commit's segments
are, the first segment is a content word, and with the space it is acceptable. -/
def Commit.spacePrefixed (s : Storage M) (commit : Commit) : Option Word :=
  match linkedSegments (commit.segments M s) with
  | none => none
  | some (historySegment, conversionSegment) =>
      let word := spacePrefixedWord commit.time conversionSegment
      let stored := (insertHistoryForConversionSegments M commit.time (commit.segments M s)
        (s, {})).1.lookup (historySegment.fingerprint M)
      if stored.isSome ∧ (commit.segments M s).hasSpacePrefix ∧
          (conversionSegment.key = conversionSegment.contentKey ∧
            conversionSegment.value = conversionSegment.contentValue) ∧ word.Acceptable M then
        some word
      else none

/-- The fingerprints of the words a commit inserts or updates. -/
def Commit.insertedFps (s : Storage M) (commit : Commit) : List UInt64 :=
  if commit.Learns ∧ commit.Learnable M then
    acceptedFps M (conversionWords M commit.time (commit.segments M s)) ++
      (commit.spacePrefixed M s).toList.map fun word => word.fingerprint M
  else []

/-- A commit at a time the score can tell apart that learns no word behind a space. -/
structure Commit.Plain (s : Predictor M) (commit : Commit) : Prop where
  time : ScorableTime commit.time
  noSpace : commit.Learns → commit.Learnable M → commit.spacePrefixed M s.storage = none

variable {M}

theorem find_isSome (s : Storage M) (fp : UInt64) : (s.find fp).isSome = (s.lookup fp).isSome := by
  rw [← HistoryDic.find_map_val, Option.isSome_map]

/-- The links of the context change neither times nor flags. -/
theorem LearnedAt.history {s : Storage M} {commit : Commit}
    {state : Storage M × RevertEntries} {fps : List UInt64}
    (sameState : state = insertHistoryForConversionSegments M commit.time (commit.segments M s) (s, {}))
    (learnedAt : LearnedAt s state.1 fps commit.time (commit.segments M s).allowPartialMatch)
    (noSpace : commit.spacePrefixed M s = none) :
    LearnedAt s (insertHistoryForHistorySegments M commit.time (commit.segments M s) state).1 fps
      commit.time (commit.segments M s).allowPartialMatch := by
  rw [insertHistoryForHistorySegments]
  rw [Commit.spacePrefixed] at noSpace
  cases linked : linkedSegments (commit.segments M s) with
  | none => exact learnedAt
  | some pair =>
      obtain ⟨historySegment, conversionSegment⟩ := pair
      rw [linked] at noSpace
      dsimp only at noSpace ⊢
      cases found : state.1.find (historySegment.fingerprint M) with
      | none => exact learnedAt
      | some historyEntry =>
          have stored : ((insertHistoryForConversionSegments M commit.time (commit.segments M s)
              (s, {})).1.lookup (historySegment.fingerprint M)).isSome = true := by
            rw [← sameState, ← find_isSome, found]
            rfl
          dsimp only
          split
          · rename_i hasSpacePrefix
            split
            · rename_i contentWord
              have refused : ¬ (spacePrefixedWord commit.time conversionSegment).Acceptable M := by
                intro acceptable
                rw [if_pos ⟨stored, hasSpacePrefix, contentWord, acceptable⟩] at noSpace
                cases noSpace
              rw [insert_of_not_acceptable M refused]
              exact learnedAt.update _ (fun _ => rfl) (fun _ => rfl)
            · exact learnedAt
          · exact learnedAt.linkAll _ _

/-- **A plain commit gives its time to the words it learns and to nothing else.** -/
theorem Commit.Plain.learnedAt {s : Predictor M} {commit : Commit} (plain : commit.Plain M s) :
    LearnedAt s.storage (finish M s commit).storage (commit.insertedFps M s.storage) commit.time
      (commit.segments M s.storage).allowPartialMatch := by
  rw [finish, Commit.insertedFps]
  by_cases learns : commit.Learns
  · rw [if_neg (not_not_intro learns)]
    by_cases learnable : commit.Learnable M
    · rw [if_neg (not_not_intro learnable), if_pos ⟨learns, learnable⟩,
        plain.noSpace learns learnable, Option.toList_none, List.map_nil, List.append_nil]
      have words : LearnedAt s.storage (insertHistoryForConversionSegments M commit.time
          (commit.segments M s.storage) (s.storage, {})).1
          ([] ++ acceptedFps M (conversionWords M commit.time (commit.segments M s.storage)))
          commit.time (commit.segments M s.storage).allowPartialMatch :=
        (LearnedAt.refl s.storage _ _).insertAll
          (fun word member => (of_mem_conversionWords member).1)
          (fun word member => (of_mem_conversionWords member).2)
      exact (words.history rfl (plain.noSpace learns learnable)).maybeRemoveUnselectedHistory _
    · rw [if_pos learnable, if_neg fun both => learnable both.2]
      exact LearnedAt.refl _ _ _
  · rw [if_pos learns, if_neg fun both => learns both.1]
    exact LearnedAt.refl _ _ _

/-- Entries stay scorable. -/
theorem Commit.Plain.scorable {s : Predictor M} {commit : Commit} (plain : commit.Plain M s)
    (scorable : s.Scorable) : (finish M s commit).Scorable := by
  intro fp entry found
  by_cases inserted : fp ∈ commit.insertedFps M s.storage
  · obtain ⟨sameTime, short⟩ := plain.learnedAt.learned fp entry found inserted
    exact ⟨sameTime ▸ plain.time, short⟩
  · obtain ⟨old, stored, sameTime, sameValue⟩ := plain.learnedAt.kept fp entry found inserted
    exact ⟨sameTime ▸ (scorable fp old stored).time, sameValue ▸ (scorable fp old stored).value⟩

/-- **Recency over a run of commits.**  After any run of plain commits, one more plain
commit gives its time to the words it learns and to nothing else, and before and
after it the entries are ranked by recency. -/
theorem recency_of_run {s : Predictor M} (scorable : s.Scorable) {commits : List Commit}
    (along : AllAlong (finish M) (fun s commit => commit.Plain M s) s commits)
    {commit : Commit} (plain : commit.Plain M (commits.foldl (finish M) s)) :
    RankedByRecency (commits.foldl (finish M) s).storage ∧
      LearnedAt (commits.foldl (finish M) s).storage
        (finish M (commits.foldl (finish M) s) commit).storage
        (commit.insertedFps M (commits.foldl (finish M) s).storage) commit.time
        (commit.segments M (commits.foldl (finish M) s).storage).allowPartialMatch ∧
      RankedByRecency (finish M (commits.foldl (finish M) s) commit).storage := by
  have before : (commits.foldl (finish M) s).Scorable :=
    foldl_preserves (fun _ _ plain scorable => plain.scorable scorable) along scorable
  exact ⟨before.rankedByRecency, plain.learnedAt, (plain.scorable before).rankedByRecency⟩

/-! ## A word behind a space -/

/-- Texts of letters, no names, and candidates that are always selected. -/
def plainModules : Modules where
  cityFingerprint := byteSum
  getFirstScriptType _ := .alphabet
  getScriptType _ := .alphabet
  isProperNoun _ _ := false
  belowMinSelectedRatio _ _ := false

/-- The commit of one word at a time, behind a text. -/
def commitWord (precedingText word : ByteString) (time : UInt64) : Commit where
  request := { precedingText }
  results := [{ key := word, value := word }]
  revertId := 1
  time

def emptyPredictor : Predictor plainModules where
  storage := .empty

/-- The commit of the text ab as two segments. -/
def commitSegments (time : UInt64) : Commit where
  request := {}
  results := [{ key := [97, 98], value := [97, 98],
                innerSegmentBoundary := [0x01010101, 0x01010101] }]
  revertId := 2
  time

/-- A word is committed, and then it is committed again as the first one of two segments: it gets
the time of the second commit. -/
theorem wordAndSegments_recency :
    let s := finish plainModules emptyPredictor (commitWord [] [97] 1000)
    let t := finish plainModules s (commitSegments 2000)
    (∃ entry, s.storage.lookup (fingerprint byteSum [97] [97]) = some entry ∧
      entry.lastAccessTime = 1000) ∧
    (∃ entry, t.storage.lookup (fingerprint byteSum [97] [97]) = some entry ∧
      entry.lastAccessTime = 2000) ∧ RankedByRecency s.storage ∧ RankedByRecency t.storage := by
  intro s t
  have scorable : emptyPredictor.Scorable := fun fp entry found => by cases found
  have plain {s : Predictor plainModules} {commit : Commit} (time : ScorableTime commit.time)
      (noSpace : ∀ word ∈ commit.spacePrefixed plainModules s.storage, False) :
      commit.Plain plainModules s :=
    ⟨time, fun _ _ => Option.eq_none_iff_forall_not_mem.2 fun word member => noSpace word member⟩
  have first : (commitWord [] [97] 1000).Plain plainModules emptyPredictor :=
    plain (by rw [ScorableTime]; decide) (by decide)
  have second : (commitSegments 2000).Plain plainModules s :=
    plain (by rw [ScorableTime]; decide) (by decide)
  have along : AllAlong (finish plainModules) (fun s commit => commit.Plain plainModules s)
      emptyPredictor [commitWord [] [97] 1000] := ⟨first, trivial⟩
  obtain ⟨rankedBefore, learnedAt, ranked⟩ := recency_of_run scorable along second
  have before : (s.storage.lookup (fingerprint byteSum [97] [97])).map (·.lastAccessTime)
      = some 1000 := by decide
  have stored : (t.storage.lookup (fingerprint byteSum [97] [97])).isSome = true := by decide
  have inserted : fingerprint byteSum [97] [97] ∈
      (commitSegments 2000).insertedFps plainModules s.storage := by
    decide
  obtain ⟨entry, found⟩ := Option.isSome_iff_exists.1 stored
  exact ⟨Option.map_eq_some_iff.1 before, ⟨entry, found, (learnedAt.learned _ entry found inserted).1⟩,
    rankedBefore, ranked⟩

/-- **The word behind a space loses its time.**  The word b is committed behind the text
"a ", whose word was committed before: the entry of b with a space of no width gets
the time zero, and its score wraps around. -/
theorem spacePrefixedWord_time_lost :
    let s := finish plainModules emptyPredictor (commitWord [] [97] 1000)
    let commit := commitWord [97, 0x20] [98] 2000
    ScorableTime commit.time ∧
      ¬ LearnedAt s.storage (finish plainModules s commit).storage
        (commit.insertedFps plainModules s.storage) commit.time
        (commit.segments plainModules s.storage).allowPartialMatch ∧
      ¬ RankedByRecency (finish plainModules s commit).storage := by
  intro s commit
  have time : ((finish plainModules s commit).storage.lookup (fingerprint byteSum
      [0xE2, 0x80, 0x8B, 98] [0xE2, 0x80, 0x8B, 98])).map
        (fun entry => (entry.lastAccessTime, entry.attributes, charsLen entry.value))
          = some (0, 0, 2) := by
    decide
  have inserted : fingerprint byteSum [0xE2, 0x80, 0x8B, 98] [0xE2, 0x80, 0x8B, 98] ∈
      commit.insertedFps plainModules s.storage := by
    decide
  obtain ⟨entry, found, fields⟩ := Option.map_eq_some_iff.1 time
  rw [Prod.mk.injEq, Prod.mk.injEq] at fields
  obtain ⟨zero, unboosted, two⟩ := fields
  refine ⟨by rw [ScorableTime]; decide, ?_, ?_⟩
  · intro learnedAt
    have sameTime := (learnedAt.learned _ entry found inserted).1
    rw [zero] at sameTime
    exact absurd sameTime (by decide)
  · intro ranked
    have noWrap := ranked.noWrap _ entry found (by rw [unboosted]; decide)
    rw [zero, two] at noWrap
    exact absurd noWrap (Nat.succ_ne_zero _)

end Mozkey.Prediction
