import Mozkey.Rewriter.UserSegmentHistory

/-!
# Forgetting a candidate

When a candidate is deleted from the history, no feature that its score reads should be
left, and the features of the other candidates should stay.  There are nine kinds of
features, and the rewriter takes each one of the candidate at the top, with that
candidate's own key.  So it forgets the candidate asked for just when each stored feature
of it is one of these, and leaves the others alone when none of theirs is.
-/

namespace Mozkey.Rewriter

open Mozkey.Lib Mozkey.Converter

variable {M : Modules}

/-! ## What is remembered -/

/-- The storage has the feature. -/
def Remembers (M : Modules) (s : LruStorage) (key : ByteString) : Prop :=
  key ≠ [] ∧ ∃ item ∈ s.lookup (M.fingerprint key), isFeatureValue item.value = true

theorem fetch_score_eq_zero_iff {s : LruStorage} {key : ByteString} {weight : UInt32}
    (counts : weight ≠ 0) : (fetch M s key weight).score = 0 ↔ ¬ Remembers M s key := by
  rw [fetch]
  by_cases isNil : key = []
  · rw [if_pos isNil]
    exact ⟨fun _ remembers => remembers.1 isNil, fun _ => rfl⟩
  · rw [if_neg isNil]
    cases found : s.lookup (M.fingerprint key) with
    | none =>
        refine ⟨fun _ ⟨_, item, member, _⟩ => ?_, fun _ => rfl⟩
        cases found.symm.trans member
    | some item =>
        dsimp only
        by_cases isFeature : isFeatureValue item.value = true
        · rw [if_pos isFeature]
          exact ⟨fun zero => absurd zero counts,
            fun forgotten => absurd ⟨isNil, item, found, isFeature⟩ forgotten⟩
        · rw [if_neg isFeature]
          refine ⟨fun _ ⟨_, item', member, feature⟩ => isFeature ?_, fun _ => rfl⟩
          rw [Option.some.inj (found.symm.trans member)]
          exact feature

theorem max_eq_zero_iff (a b : UInt32) : max a b = 0 ↔ a = 0 ∧ b = 0 := by
  rw [show max a b = if a ≤ b then b else a from rfl]
  simp only [← UInt32.toNat_inj, UInt32.le_iff_toNat_le]
  split <;> simp <;> omega

/-- A score is zero when each of its parts is. -/
theorem foldl_update_score_eq_zero_iff (scores : List Score) (start : Score) :
    (scores.foldl Score.update start).score = 0
      ↔ start.score = 0 ∧ ∀ score ∈ scores, score.score = 0 := by
  induction scores generalizing start with
  | nil => simp
  | cons score scores ih =>
      rw [List.foldl_cons, ih, Score.update, max_eq_zero_iff, List.forall_mem_cons, and_assoc]

/-- Every feature that is read counts. -/
theorem weight_ne_zero {segments : Segments} {segmentIndex : Nat} {candidateIndex : Int}
    {feature : ByteString × UInt32}
    (member : feature ∈ scoreFetches M segments segmentIndex candidateIndex) : feature.2 ≠ 0 := by
  have all : ∀ feature ∈ scoreFetches M segments segmentIndex candidateIndex, feature.2 ≠ 0 := by
    rw [scoreFetches]
    simp only [List.forall_mem_append, List.forall_mem_cons]
    refine ⟨⟨?_, ?_⟩, ?_⟩
    · split_ifs <;> decide
    · split_ifs <;> simp
    · split_ifs <;> simp
  exact all feature member

theorem getScore_eq_zero_iff (s : LruStorage) (segments : Segments) (segmentIndex : Nat)
    (candidateIndex : Int) :
    (getScore M s segments segmentIndex candidateIndex).score = 0
      ↔ ∀ feature ∈ scoreFetches M segments segmentIndex candidateIndex,
          ¬ Remembers M s feature.1 := by
  have parts := foldl_update_score_eq_zero_iff
    ((scoreFetches M segments segmentIndex candidateIndex).map
      fun feature => fetch M s feature.1 feature.2) {}
  rw [List.foldl_map] at parts
  rw [getScore, parts, List.forall_mem_map]
  constructor
  · rintro ⟨-, zero⟩ feature member
    exact (fetch_score_eq_zero_iff (weight_ne_zero member)).1 (zero feature member)
  · intro forgotten
    exact ⟨rfl, fun feature member =>
      (fetch_score_eq_zero_iff (weight_ne_zero member)).2 (forgotten feature member)⟩

/-! ## What is deleted -/

theorem lookup_deleteEntry (s : LruStorage) (key : ByteString) (fp : UInt64) :
    (deleteEntry M s key).1.lookup fp = if fp = M.fingerprint key then none else s.lookup fp := by
  rw [deleteEntry]
  cases found : s.lookup (M.fingerprint key) with
  | none =>
      by_cases same : fp = M.fingerprint key
      · rw [if_pos same, same]
        exact found
      · rw [if_neg same]
  | some item => exact s.lookup_erase _ _

/-- Exactly the nine features of the candidate at the top are deleted. -/
theorem lookup_clearHistoryEntry (s : LruStorage) (segments : Segments) (segmentIndex : Nat)
    (candidateIndex : Int) (fp : UInt64) :
    (clearHistoryEntry M s segments segmentIndex candidateIndex).1.lookup fp
      = if fp ∈ (clearedFeatures M segments segmentIndex).map M.fingerprint then none
        else s.lookup fp := by
  rw [clearHistoryEntry]
  generalize false = result
  induction clearedFeatures M segments segmentIndex generalizing s result with
  | nil => rfl
  | cons key keys ih =>
      rw [List.foldl_cons, ih, lookup_deleteEntry, List.map_cons]
      by_cases same : fp = M.fingerprint key
      · rw [if_pos same, ite_self, if_pos (List.mem_cons.2 (.inl same))]
      · rw [if_neg same]
        simp only [List.mem_cons, same, false_or]

/-! ## Whether the candidate is forgotten -/

variable (M)

/-- The features of a candidate: those of the whole segment and those of its content
word. -/
def candidateFeatures (segments : Segments) (segmentIndex : Nat) (candidateIndex : Int) :
    List ByteString :=
  let segment := segments.segment segmentIndex
  let candidate := segment.candidate candidateIndex
  contextFeatures M segments segmentIndex segment.key candidate.value ++
    [current segment.key candidate.value] ++
    contextFeatures M segments segmentIndex candidate.contentKey candidate.contentValue ++
    [current candidate.contentKey candidate.contentValue]

/-- A feature of other candidates of the segment that is none of this one. -/
def BelongsToOthers (segments : Segments) (segmentIndex : Nat) (candidateIndex : Int)
    (key : ByteString) : Prop :=
  key ≠ [] ∧ key ∉ candidateFeatures M segments segmentIndex candidateIndex ∧
    ∃ other, (segments.segment segmentIndex).IsValidIndex other ∧
      key ∈ candidateFeatures M segments segmentIndex other

/-- The candidate has no score any more, and the others have kept their features. -/
structure Forgotten (s t : LruStorage) (segments : Segments) (segmentIndex : Nat)
    (candidateIndex : Int) : Prop where
  noScore : (getScore M t segments segmentIndex candidateIndex).score = 0
  othersKept : ∀ key, BelongsToOthers M segments segmentIndex candidateIndex key →
    t.lookup (M.fingerprint key) = s.lookup (M.fingerprint key)

/-- The kinds of features: those that depend on other segments, and the one that does
not. -/
inductive FeatureKind
  | leftRight | leftLeft | rightRight | left | right | leftNumber | rightNumber | single | current

/-- The feature of a kind for a key and a value in a segment. -/
def featureOf (segments : Segments) (segmentIndex : Nat) (key value : ByteString) :
    FeatureKind → ByteString
  | .leftRight => leftRight segments segmentIndex key value
  | .leftLeft => leftLeft segments segmentIndex key value
  | .rightRight => rightRight segments segmentIndex key value
  | .left => left segments segmentIndex key value
  | .right => right segments segmentIndex key value
  | .leftNumber => leftNumber M segments segmentIndex key value
  | .rightNumber => rightNumber M segments segmentIndex key value
  | .single => single segments key value
  | .current => current key value

/-- The feature of a kind for the candidate at the top of a segment, with the key that this
candidate has itself. -/
def topFeature (segments : Segments) (segmentIndex : Nat) (kind : FeatureKind) : ByteString :=
  featureOf M segments segmentIndex ((segments.segment segmentIndex).candidate 0).key
    ((segments.segment segmentIndex).candidate 0).value kind

/-- Each stored feature that is read for a candidate has the fingerprint of some feature of
the candidate at the top, and no feature of the candidate at the top that is stored belongs
to others. -/
structure SharedWithTop (s : LruStorage) (segments : Segments) (segmentIndex : Nat)
    (candidateIndex : Int) : Prop where
  stored : ∀ feature ∈ scoreFetches M segments segmentIndex candidateIndex,
    Remembers M s feature.1 →
      ∃ kind, M.fingerprint (topFeature M segments segmentIndex kind) = M.fingerprint feature.1
  othersApart : ∀ key, BelongsToOthers M segments segmentIndex candidateIndex key →
    ∀ kind, M.fingerprint (topFeature M segments segmentIndex kind) = M.fingerprint key →
      s.lookup (M.fingerprint key) = none

/-- What is deleted has the fingerprint of a feature of the candidate at the top. -/
theorem mem_clearedFeatures_iff (segments : Segments) (segmentIndex : Nat) (fp : UInt64) :
    fp ∈ (clearedFeatures M segments segmentIndex).map M.fingerprint
      ↔ ∃ kind, M.fingerprint (topFeature M segments segmentIndex kind) = fp := by
  simp only [clearedFeatures, contextFeatures, List.cons_append, List.nil_append, List.map_cons,
    List.map_nil, List.mem_cons, List.not_mem_nil, or_false]
  constructor
  · rintro (same | same | same | same | same | same | same | same | same)
    · exact ⟨.leftRight, same.symm⟩
    · exact ⟨.leftLeft, same.symm⟩
    · exact ⟨.rightRight, same.symm⟩
    · exact ⟨.left, same.symm⟩
    · exact ⟨.right, same.symm⟩
    · exact ⟨.leftNumber, same.symm⟩
    · exact ⟨.rightNumber, same.symm⟩
    · exact ⟨.single, same.symm⟩
    · exact ⟨.current, same.symm⟩
  · rintro ⟨kind, rfl⟩
    cases kind <;> simp [topFeature, featureOf]

/-- **When a candidate is forgotten.** -/
theorem forgotten_iff_sharedWithTop (s : LruStorage) (segments : Segments) (segmentIndex : Nat)
    (candidateIndex : Int) :
    Forgotten M s (clearHistoryEntry M s segments segmentIndex candidateIndex).1 segments
        segmentIndex candidateIndex
      ↔ SharedWithTop M s segments segmentIndex candidateIndex := by
  classical
  have lookup (fp : UInt64) :
      (clearHistoryEntry M s segments segmentIndex candidateIndex).1.lookup fp
        = if ∃ kind, M.fingerprint (topFeature M segments segmentIndex kind) = fp then none
          else s.lookup fp := by
    rw [lookup_clearHistoryEntry]
    simp only [mem_clearedFeatures_iff]
  have remembers (key : ByteString) : Remembers M
      (clearHistoryEntry M s segments segmentIndex candidateIndex).1 key
        ↔ Remembers M s key ∧ ¬ ∃ kind,
          M.fingerprint (topFeature M segments segmentIndex kind) = M.fingerprint key := by
    rw [Remembers, Remembers, lookup]
    split
    · rename_i cleared
      simp [cleared]
    · rename_i kept
      simp [kept]
  constructor
  · rintro ⟨noScore, othersKept⟩
    rw [getScore_eq_zero_iff] at noScore
    refine ⟨fun feature member stored => ?_, fun key belongs kind same => ?_⟩
    · by_contra kept
      exact noScore feature member ((remembers _).2 ⟨stored, kept⟩)
    · have unchanged := othersKept key belongs
      rw [lookup, if_pos ⟨kind, same⟩] at unchanged
      exact unchanged.symm
  · rintro ⟨isShared, othersApart⟩
    refine ⟨(getScore_eq_zero_iff _ _ _ _).2 fun feature member remembered => ?_,
      fun key belongs => ?_⟩
    · obtain ⟨stored, kept⟩ := (remembers _).1 remembered
      exact kept (isShared feature member stored)
    · rw [lookup]
      split
      · rename_i isCleared
        obtain ⟨kind, same⟩ := isCleared
        exact (othersApart key belongs kind same).symm
      · rfl

/-- Fingerprints of the bytes as digits, one part of speech, and no numbers. -/
def plainModules : Modules where
  fingerprint text := text.foldl (fun sum b => sum * 31 + UInt64.ofNat b.toNat) 0
  isNumber _ := false
  isKanjiNumber _ := false
  isJapanesePunctuations _ := false
  getPosGroup _ := 0
  getScriptType _ := .alphabet

/-- The segment a with the candidates A and B. -/
def twoCandidates : Segments where
  segments := [{ key := [97]
                 candidates := [
                  { key := [97], value := [65], contentKey := [97], contentValue := [65] },
                  { key := [97], value := [66], contentKey := [97], contentValue := [66] }] }]

/-- The storage after B was chosen. -/
def secondChosen : LruStorage :=
  LruMap.empty.insert (plainModules.fingerprint (current [97] [66])) ⟨featureValue, 1000⟩

/-- **The second candidate is not forgotten.**  Its feature stays, as only those of the
first one are deleted. -/
theorem secondCandidate_not_forgotten :
    twoCandidates.segments.length = 1 ∧ (twoCandidates.segment 0).IsValidIndex 1 ∧
      ¬ Forgotten plainModules secondChosen
        (clearHistoryEntry plainModules secondChosen twoCandidates 0 1).1 twoCandidates 0 1 := by
  have score : (getScore plainModules
      (clearHistoryEntry plainModules secondChosen twoCandidates 0 1).1 twoCandidates 0 1).score
        = 36 := by
    decide +kernel
  refine ⟨rfl, by decide, fun forgotten => ?_⟩
  exact absurd (score.symm.trans forgotten.noScore) (by decide)

end Mozkey.Rewriter
