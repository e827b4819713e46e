import Mozkey.Lib.Best
import Mozkey.Lib.Tally
import Mozkey.Session.ZenzFeedbackRecord

/-!
# Decisions from feedback

The records of the feedback log are counted by key, context class and value.  Two
functions read the counts: `Decide` judges one value, and `GetRankedCandidates`
collects the values of a key.  Both merge the counts of compatible context classes
and compare the counts of the exact class with the policy, each in its own loop and
its own order of tests.

Counts form a monoid under merging, so the counts of a set of classes are a total of
the tally, however the loops group them.  From this the two functions agree on every
value (`mem_rankedValues_iff`), and the order of the log does not matter.
-/

namespace Mozkey.Session

open Mozkey.Lib

/-! ## Counts -/

def kAcceptThreshold : Int32 := 1

def kAcceptedFeedbackWeight : Int32 := 1000

def kSpaceRevertRejectWeight : Int32 := 150

def kPredictAfterZenzRejectWeight : Int32 := 200

def kExplicitConversionRejectWeight : Int32 := 400

def kLegacyRejectWeight : Int32 := 400

def kHardRejectWeight : Int32 := 2000

@[ext] structure Counts where
  accepted : Int32 := 0
  rejected : Int32 := 0
  autoBlockRejected : Int32 := 0
  positiveScore : Int32 := 0
  negativeScore : Int32 := 0
  hardRejected : Bool := false
  deriving DecidableEq, Repr

def totalScore (c : Counts) : Int32 := c.positiveScore - c.negativeScore

/-- `IsHardRejectReason`. -/
def isHardRejectReason (reason : ByteString) : Bool :=
  reason = ascii "hard_reject" || reason = ascii "user_hard_reject" ||
    reason = ascii "manual_hard_reject" || reason = ascii "explicit_hard_reject"

/-- `RejectWeightForReason`. -/
def rejectWeightForReason (reason : ByteString) : Int32 :=
  if isHardRejectReason reason then kHardRejectWeight
  else if reason = ascii "space_revert_zenz_to_mozc" then kSpaceRevertRejectWeight
  else if reason = ascii "predict_after_zenz" then kPredictAfterZenzRejectWeight
  else if reason = ascii "explicit_conversion_after_zenz" then kExplicitConversionRejectWeight
  else kLegacyRejectWeight

/-- `AddAccepted`. -/
def addAccepted (c : Counts) : Counts :=
  { c with accepted := c.accepted + 1, positiveScore := c.positiveScore + kAcceptedFeedbackWeight }

/-- `AddRejected`. -/
def addRejected (reason : ByteString) (c : Counts) : Counts :=
  { c with
    rejected := c.rejected + 1
    negativeScore := c.negativeScore + rejectWeightForReason reason
    autoBlockRejected :=
      if isHardRejectReason reason then c.autoBlockRejected else c.autoBlockRejected + 1
    hardRejected := c.hardRejected || isHardRejectReason reason }

/-- `MergeCounts`. -/
def mergeCounts (src dest : Counts) : Counts where
  accepted := dest.accepted + src.accepted
  rejected := dest.rejected + src.rejected
  autoBlockRejected := dest.autoBlockRejected + src.autoBlockRejected
  positiveScore := dest.positiveScore + src.positiveScore
  negativeScore := dest.negativeScore + src.negativeScore
  hardRejected := dest.hardRejected || src.hardRejected

instance Counts.instZero : Zero Counts := ⟨{}⟩

/-- Counts are added by merging them. -/
instance Counts.instAdd : Add Counts := ⟨fun a b => mergeCounts b a⟩

instance Counts.instAddCommMonoid : AddCommMonoid Counts where
  add_assoc a b c := by
    apply Counts.ext
    all_goals first
      | exact Int32.add_assoc _ _ _
      | exact Bool.or_assoc _ _ _
  zero_add a := by
    apply Counts.ext
    all_goals first
      | exact Int32.zero_add _
      | exact Bool.false_or _
  add_zero a := by
    apply Counts.ext
    all_goals first
      | exact Int32.add_zero _
      | exact Bool.or_false _
  add_comm a b := by
    apply Counts.ext
    all_goals first
      | exact Int32.add_comm _ _
      | exact Bool.or_comm _ _
  nsmul := nsmulRec

theorem mergeCounts_eq (src dest : Counts) : mergeCounts src dest = dest + src := rfl

/-! ## Counting the log -/

/-- `FeedbackKey`: key, context class and value. -/
abbrev FeedbackKey : Type := ByteString ×ₗ ByteString ×ₗ ByteString

namespace FeedbackKey

def key (k : FeedbackKey) : ByteString := (ofLex k).1

def contextClass (k : FeedbackKey) : ByteString := (ofLex (ofLex k).2).1

def value (k : FeedbackKey) : ByteString := (ofLex (ofLex k).2).2

end FeedbackKey

def feedbackKey (record : FeedbackRecord) : FeedbackKey :=
  toLex (record.key, toLex (record.contextClass, record.value))

/-- The body of the loop of `LoadCounts`, at the counts of the record's key. -/
def countRecord (record : FeedbackRecord) (c : Counts) : Counts :=
  if record.action = ascii "accepted" then addAccepted c
  else if record.action = ascii "rejected" then addRejected record.reason c
  else c

/-- `LoadCounts`. -/
def loadCounts (records : List FeedbackRecord) : SortedMap FeedbackKey Counts :=
  records.foldl (fun counts record =>
    counts.assign (feedbackKey record)
      (countRecord record ((counts.find (feedbackKey record)).getD {}))) SortedMap.empty

/-! ## Policies and decisions -/

structure ZenzFeedbackAutoBlockPolicy where
  enabled : Bool := false
  rejectThreshold : Int32 := 0

/-- `NormalizeAutoBlockPolicy`. -/
def normalizeAutoBlockPolicy (policy : ZenzFeedbackAutoBlockPolicy) :
    ZenzFeedbackAutoBlockPolicy :=
  if policy.enabled = false ∨ policy.rejectThreshold ≤ 0 then {} else policy

/-- `IsAutoBlockedByPolicy`. -/
def isAutoBlockedByPolicy (c : Counts) (autoBlockPolicy : ZenzFeedbackAutoBlockPolicy) : Bool :=
  let policy := normalizeAutoBlockPolicy autoBlockPolicy
  policy.enabled && c.autoBlockRejected ≥ policy.rejectThreshold

/-- `IsRejectCountDominant`. -/
def isRejectCountDominant (c : Counts) : Bool := c.autoBlockRejected > c.accepted

inductive ZenzFeedbackAction where
  | neutral
  | prefer
  | reject
  deriving DecidableEq, Repr

structure ZenzFeedbackDecision where
  action : ZenzFeedbackAction := .neutral
  reason : ByteString := ascii "feedback_neutral"
  acceptedCount : Int32 := 0
  rejectedCount : Int32 := 0
  positiveScore : Int32 := 0
  negativeScore : Int32 := 0
  totalScore : Int32 := 0
  autoBlockRejectCount : Int32 := 0
  hardRejected : Bool := false
  autoBlocked : Bool := false

/-- `BuildDecisionFromCounts`. -/
def buildDecisionFromCounts (c : Counts) : ZenzFeedbackDecision :=
  let decision : ZenzFeedbackDecision :=
    { acceptedCount := c.accepted
      rejectedCount := c.rejected
      autoBlockRejectCount := c.autoBlockRejected
      positiveScore := c.positiveScore
      negativeScore := c.negativeScore
      totalScore := Session.totalScore c
      hardRejected := c.hardRejected }
  if c.hardRejected then
    { decision with action := .reject, reason := ascii "feedback_hard_rejected" }
  else if c.accepted ≥ kAcceptThreshold ∧ decision.totalScore > 0 then
    { decision with action := .prefer, reason := ascii "feedback_preferred" }
  else
    { decision with
      action := .neutral
      reason := if c.rejected > 0 then ascii "feedback_downgraded" else ascii "feedback_neutral" }

/-- `ApplyRejectDominanceDecision`. -/
def applyRejectDominanceDecision (exactCounts : Counts) (decision : ZenzFeedbackDecision) :
    ZenzFeedbackDecision :=
  if decision.hardRejected ∨ decision.autoBlocked ∨ decision.action ≠ .prefer then decision
  else
    let decision := { decision with autoBlockRejectCount := exactCounts.autoBlockRejected }
    if isRejectCountDominant exactCounts then
      { decision with action := .neutral, reason := ascii "feedback_reject_count_dominant" }
    else decision

/-- `ApplyAutoBlockDecision`. -/
def applyAutoBlockDecision (exactCounts : Counts) (autoBlockPolicy : ZenzFeedbackAutoBlockPolicy)
    (decision : ZenzFeedbackDecision) : ZenzFeedbackDecision :=
  if decision.hardRejected then decision
  else
    let decision := { decision with autoBlockRejectCount := exactCounts.autoBlockRejected }
    if isAutoBlockedByPolicy exactCounts autoBlockPolicy then
      { decision with
        action := .reject, reason := ascii "feedback_auto_blocked", autoBlocked := true }
    else decision

/-! ## Compatible context classes -/

/-- `IsSensitiveFeedbackContextClass`. -/
def isSensitiveFeedbackContextClass (contextClass : ByteString) : Bool :=
  contextClass = ascii "sensitive_like"

/-- `IsSharedPromotionContextClass`. -/
def isSharedPromotionContextClass (contextClass : ByteString) : Bool :=
  [ascii "empty", ascii "japanese_only", ascii "japanese_with_punctuation",
    ascii "mixed_japanese_ascii", ascii "symbol_or_other", ascii "legacy"].contains contextClass

/-- `IsPromotionCompatibleContextClass`. -/
def isPromotionCompatibleContextClass (requested record : ByteString) : Bool :=
  if requested = record then true
  else if isSensitiveFeedbackContextClass requested || isSensitiveFeedbackContextClass record then
    false
  else if isSharedPromotionContextClass requested && isSharedPromotionContextClass record then true
  else false

/-- `IsDecisionCompatibleContextClass`. -/
def isDecisionCompatibleContextClass (requested record : ByteString) : Bool :=
  if requested = record then true
  else if isSensitiveFeedbackContextClass requested || isSensitiveFeedbackContextClass record then
    false
  else if isSharedPromotionContextClass requested && isSharedPromotionContextClass record then true
  else false

namespace ZenzFeedbackStore

/-! ## `Decide` -/

/-- The body of the loop of `Decide`, with the counts `aggregated` and `exact`. -/
def decideStep (key contextClass value : ByteString) (counts : Counts × Counts)
    (item : FeedbackKey × Counts) : Counts × Counts :=
  let recordKey := item.1.key
  let recordContextClass := item.1.contextClass
  let recordValue := item.1.value
  if recordKey ≠ key ∨ recordValue ≠ value then counts
  else
    let exact_ := if recordContextClass = contextClass then mergeCounts item.2 counts.2 else counts.2
    if isDecisionCompatibleContextClass contextClass recordContextClass = false then
      (counts.1, exact_)
    else (mergeCounts item.2 counts.1, exact_)

/-- `ZenzFeedbackStore::Decide`, on the records of the log. -/
protected def decide (records : List FeedbackRecord) (key contextClass value : ByteString)
    (autoBlockPolicy : ZenzFeedbackAutoBlockPolicy) : ZenzFeedbackDecision :=
  let counts := (loadCounts records).elements.foldl
    (decideStep key (normalizeContextClass contextClass) value) ({}, {})
  applyAutoBlockDecision counts.2 autoBlockPolicy
    (applyRejectDominanceDecision counts.2 (buildDecisionFromCounts counts.1))

/-! ## `GetRankedCandidates` -/

structure ZenzFeedbackCandidate where
  value : ByteString
  acceptedCount : Int32 := 0
  rejectedCount : Int32 := 0
  positiveScore : Int32 := 0
  negativeScore : Int32 := 0
  totalScore : Int32 := 0
  autoBlockRejectCount : Int32 := 0
  hardRejected : Bool := false
  autoBlocked : Bool := false
  reason : ByteString := ascii "feedback_neutral"
  deriving DecidableEq, Repr

/-- `MergeCounts` into the counts of a value, which are created when they are missing. -/
def mergeAt (counts : SortedMap ByteString Counts) (value : ByteString) (c : Counts) :
    SortedMap ByteString Counts :=
  counts.assign value (mergeCounts c ((counts.find value).getD {}))

/-- The body of the first loop of `GetRankedCandidates`, with `value_counts` and
`exact_value_counts`. -/
def rankStep (key contextClass : ByteString)
    (counts : SortedMap ByteString Counts × SortedMap ByteString Counts)
    (item : FeedbackKey × Counts) : SortedMap ByteString Counts × SortedMap ByteString Counts :=
  let recordKey := item.1.key
  let recordContextClass := item.1.contextClass
  let recordValue := item.1.value
  if recordKey ≠ key then counts
  else
    let exact_ := if recordContextClass = contextClass then mergeAt counts.2 recordValue item.2
      else counts.2
    if isPromotionCompatibleContextClass contextClass recordContextClass = false then
      (counts.1, exact_)
    else (mergeAt counts.1 recordValue item.2, exact_)

/-- The body of the second loop: the candidate of a value, if it is kept. -/
def candidateOf (exactValueCounts : SortedMap ByteString Counts)
    (autoBlockPolicy : ZenzFeedbackAutoBlockPolicy) (item : ByteString × Counts) :
    Option ZenzFeedbackCandidate :=
  let c := item.2
  let exactCounts := (exactValueCounts.find item.1).getD {}
  if c.hardRejected ∨ isAutoBlockedByPolicy exactCounts autoBlockPolicy ∨
      isRejectCountDominant exactCounts ∨ c.accepted < kAcceptThreshold ∨ totalScore c ≤ 0 then
    none
  else
    some
      { value := item.1
        acceptedCount := c.accepted
        rejectedCount := c.rejected
        positiveScore := c.positiveScore
        negativeScore := c.negativeScore
        totalScore := Session.totalScore c
        autoBlockRejectCount := exactCounts.autoBlockRejected
        hardRejected := c.hardRejected
        autoBlocked := false
        reason := ascii "feedback_preferred" }

/-- The order in which candidates are sorted. -/
def ranksBefore (a b : ZenzFeedbackCandidate) : Bool :=
  if a.totalScore ≠ b.totalScore then a.totalScore > b.totalScore
  else if a.positiveScore ≠ b.positiveScore then a.positiveScore > b.positiveScore
  else if a.negativeScore ≠ b.negativeScore then a.negativeScore < b.negativeScore
  else a.value < b.value

/-- `ZenzFeedbackStore::GetRankedCandidates`, on the records of the log. -/
def getRankedCandidates (records : List FeedbackRecord) (key contextClass : ByteString)
    (autoBlockPolicy : ZenzFeedbackAutoBlockPolicy) : List ZenzFeedbackCandidate :=
  let counts := (loadCounts records).elements.foldl
    (rankStep key (normalizeContextClass contextClass)) (SortedMap.empty, SortedMap.empty)
  sortBy ranksBefore (counts.1.elements.filterMap (candidateOf counts.2 autoBlockPolicy))

end ZenzFeedbackStore

/-! ## The counts of a log are a tally -/

theorem Counts.add_eq (a b : Counts) : a + b = mergeCounts b a := rfl

theorem Counts.zero_eq : (0 : Counts) = {} := rfl

/-- What a record adds does not depend on the counts so far. -/
theorem countRecord_eq_add (record : FeedbackRecord) (c : Counts) :
    countRecord record c = c + countRecord record 0 := by
  unfold countRecord
  split
  · apply Counts.ext <;> simp [addAccepted, Counts.add_eq, Counts.zero_eq, mergeCounts]
  split
  · apply Counts.ext <;> simp [addRejected, Counts.add_eq, Counts.zero_eq, mergeCounts]
    split <;> simp
  · exact (add_zero c).symm

theorem loadCounts_eq_tally (records : List FeedbackRecord) :
    loadCounts records = SortedMap.tally feedbackKey (countRecord · 0) records := by
  unfold loadCounts SortedMap.tally SortedMap.add
  congr 1
  funext counts record
  rw [countRecord_eq_add]
  rfl

theorem loadCounts_perm {records permuted : List FeedbackRecord} (perm : permuted.Perm records) :
    loadCounts permuted = loadCounts records := by
  simp only [loadCounts_eq_tally, SortedMap.tally_perm _ _ perm]

theorem loadCounts_filter (p : FeedbackKey → Bool) (records : List FeedbackRecord) :
    loadCounts (records.filter (p <| feedbackKey ·)) = (loadCounts records).filter p := by
  simp only [loadCounts_eq_tally, SortedMap.tally_filter]

namespace ZenzFeedbackStore

/-! ## What the loops compute -/

/-- The keys whose counts `Decide` aggregates for a value. -/
def aggregates (key contextClass value : ByteString) (k : FeedbackKey) : Bool :=
  k.key = key && k.value = value && isDecisionCompatibleContextClass contextClass k.contextClass

/-- The key whose counts decide about blocking a value. -/
def isExact (key contextClass value : ByteString) (k : FeedbackKey) : Bool :=
  k.key = key && k.value = value && k.contextClass = contextClass

theorem decideStep_eq (key contextClass value : ByteString) (counts : Counts × Counts)
    (item : FeedbackKey × Counts) :
    decideStep key contextClass value counts item =
      (counts.1 + if aggregates key contextClass value item.1 then item.2 else 0,
        counts.2 + if isExact key contextClass value item.1 then item.2 else 0) := by
  by_cases sameKey : item.1.key = key
  · by_cases sameValue : item.1.value = value
    · simp only [decideStep, aggregates, isExact, sameKey, sameValue, mergeCounts_eq]
      by_cases same : item.1.contextClass = contextClass <;>
        cases isDecisionCompatibleContextClass contextClass item.1.contextClass <;> simp [same]
    · simp [decideStep, aggregates, isExact, sameValue]
  · simp [decideStep, aggregates, isExact, sameKey]

theorem foldl_decideStep (key contextClass value : ByteString)
    (items : List (FeedbackKey × Counts)) (counts : Counts × Counts) :
    items.foldl (decideStep key contextClass value) counts =
      (counts.1 + ((items.filter (aggregates key contextClass value ·.1)).map Prod.snd).sum,
        counts.2 + ((items.filter (isExact key contextClass value ·.1)).map Prod.snd).sum) := by
  induction items generalizing counts with
  | nil => simp
  | cons item items ih =>
      rw [List.foldl_cons, ih, decideStep_eq, List.filter_cons, List.filter_cons]
      cases aggregates key contextClass value item.1 <;>
        cases isExact key contextClass value item.1 <;> simp [add_assoc]

/-- The counts that `Decide` aggregates for a value. -/
def aggregated (records : List FeedbackRecord) (key contextClass value : ByteString) : Counts :=
  (loadCounts records).total (aggregates key (normalizeContextClass contextClass) value)

/-- The counts of the exact context class for a value. -/
def exactCounts (records : List FeedbackRecord) (key contextClass value : ByteString) : Counts :=
  (loadCounts records).total (isExact key (normalizeContextClass contextClass) value)

theorem decide_eq (records : List FeedbackRecord) (key contextClass value : ByteString)
    (autoBlockPolicy : ZenzFeedbackAutoBlockPolicy) :
    ZenzFeedbackStore.decide records key contextClass value autoBlockPolicy =
      applyAutoBlockDecision (exactCounts records key contextClass value) autoBlockPolicy
        (applyRejectDominanceDecision (exactCounts records key contextClass value)
          (buildDecisionFromCounts (aggregated records key contextClass value))) := by
  simp only [ZenzFeedbackStore.decide, foldl_decideStep]
  simp only [← Counts.zero_eq, zero_add]
  rfl

theorem mergeAt_eq_add (counts : SortedMap ByteString Counts) (value : ByteString) (c : Counts) :
    mergeAt counts value c = counts.add value c := rfl

/-- The items that `GetRankedCandidates` adds to `value_counts`. -/
def promotes (key contextClass : ByteString) (item : FeedbackKey × Counts) : Bool :=
  item.1.key = key && isPromotionCompatibleContextClass contextClass item.1.contextClass

/-- The items that it adds to `exact_value_counts`. -/
def isExactClass (key contextClass : ByteString) (item : FeedbackKey × Counts) : Bool :=
  item.1.key = key && item.1.contextClass = contextClass

theorem rankStep_eq (key contextClass : ByteString)
    (counts : SortedMap ByteString Counts × SortedMap ByteString Counts)
    (item : FeedbackKey × Counts) :
    rankStep key contextClass counts item =
      (if promotes key contextClass item then counts.1.add item.1.value item.2 else counts.1,
        if isExactClass key contextClass item then counts.2.add item.1.value item.2
        else counts.2) := by
  by_cases sameKey : item.1.key = key
  · simp only [rankStep, promotes, isExactClass, sameKey, mergeAt_eq_add]
    by_cases same : item.1.contextClass = contextClass <;>
      cases isPromotionCompatibleContextClass contextClass item.1.contextClass <;> simp [same]
  · simp [rankStep, promotes, isExactClass, sameKey]

theorem foldl_rankStep (key contextClass : ByteString) (items : List (FeedbackKey × Counts))
    (counts : SortedMap ByteString Counts × SortedMap ByteString Counts) :
    items.foldl (rankStep key contextClass) counts =
      ((items.filter (promotes key contextClass)).foldl
          (fun m item => m.add item.1.value item.2) counts.1,
        (items.filter (isExactClass key contextClass)).foldl
          (fun m item => m.add item.1.value item.2) counts.2) := by
  induction items generalizing counts with
  | nil => rfl
  | cons item items ih =>
      rw [List.foldl_cons, ih, rankStep_eq, List.filter_cons, List.filter_cons]
      cases promotes key contextClass item <;> cases isExactClass key contextClass item <;> rfl

/-! ## One test for both -/

/-- The values that are kept, by their aggregated and exact counts. -/
def Kept (autoBlockPolicy : ZenzFeedbackAutoBlockPolicy) (exact_ c : Counts) : Prop :=
  ¬ (c.hardRejected ∨ isAutoBlockedByPolicy exact_ autoBlockPolicy ∨
    isRejectCountDominant exact_ ∨ c.accepted < kAcceptThreshold ∨ totalScore c ≤ 0)

/-- A value without counts is not kept. -/
theorem not_kept_zero (autoBlockPolicy : ZenzFeedbackAutoBlockPolicy) (exact_ : Counts) :
    ¬ Kept autoBlockPolicy exact_ 0 := by
  intro kept
  apply kept
  exact .inr (.inr (.inr (.inl (by decide))))

theorem action_buildDecision (c : Counts) :
    (buildDecisionFromCounts c).action = .prefer ↔
      c.hardRejected = false ∧ ¬ c.accepted < kAcceptThreshold ∧ ¬ totalScore c ≤ 0 := by
  unfold buildDecisionFromCounts
  cases hard : c.hardRejected with
  | true => simp
  | false =>
      by_cases strong : c.accepted ≥ kAcceptThreshold ∧ totalScore c > 0
      · simp [strong, Int32.not_lt, Int32.not_le]
      · simp only [Bool.false_eq_true, if_false, if_neg strong, reduceCtorEq, true_and, false_iff]
        rintro ⟨accepted, positive⟩
        exact strong ⟨Int32.not_lt.1 accepted, Int32.not_le.1 positive⟩

theorem hardRejected_buildDecision (c : Counts) :
    (buildDecisionFromCounts c).hardRejected = c.hardRejected := by
  unfold buildDecisionFromCounts
  dsimp only
  split
  · rfl
  split <;> rfl

theorem autoBlocked_buildDecision (c : Counts) :
    (buildDecisionFromCounts c).autoBlocked = false := by
  unfold buildDecisionFromCounts
  dsimp only
  split
  · rfl
  split <;> rfl

theorem action_applyRejectDominance {exact_ : Counts} {decision : ZenzFeedbackDecision}
    (soft : decision.hardRejected = false) (unblocked : decision.autoBlocked = false) :
    (applyRejectDominanceDecision exact_ decision).action = .prefer ↔
      decision.action = .prefer ∧ isRejectCountDominant exact_ = false := by
  unfold applyRejectDominanceDecision
  by_cases prefer : decision.action = .prefer
  · cases isRejectCountDominant exact_ <;> simp [prefer, soft, unblocked]
  · simp [prefer]

theorem hardRejected_applyRejectDominance (exact_ : Counts) (decision : ZenzFeedbackDecision) :
    (applyRejectDominanceDecision exact_ decision).hardRejected = decision.hardRejected := by
  unfold applyRejectDominanceDecision
  split
  · rfl
  dsimp only
  split <;> rfl

theorem action_applyAutoBlock {exact_ : Counts} {autoBlockPolicy : ZenzFeedbackAutoBlockPolicy}
    {decision : ZenzFeedbackDecision} (soft : decision.hardRejected = false) :
    (applyAutoBlockDecision exact_ autoBlockPolicy decision).action = .prefer ↔
      decision.action = .prefer ∧ isAutoBlockedByPolicy exact_ autoBlockPolicy = false := by
  unfold applyAutoBlockDecision
  cases isAutoBlockedByPolicy exact_ autoBlockPolicy <;> simp [soft]

/-- `Decide` prefers the values that are kept. -/
theorem decide_prefers_iff (records : List FeedbackRecord) (key contextClass value : ByteString)
    (autoBlockPolicy : ZenzFeedbackAutoBlockPolicy) :
    (ZenzFeedbackStore.decide records key contextClass value autoBlockPolicy).action = .prefer ↔
      Kept autoBlockPolicy (exactCounts records key contextClass value)
        (aggregated records key contextClass value) := by
  rw [decide_eq]
  generalize exactCounts records key contextClass value = exact_
  generalize aggregated records key contextClass value = c
  cases hard : c.hardRejected with
  | true =>
      have stays : (buildDecisionFromCounts c).action ≠ .prefer := by
        simp [action_buildDecision, hard]
      simp [applyAutoBlockDecision, hardRejected_buildDecision, hard,
        applyRejectDominanceDecision, stays, Kept]
  | false =>
      have soft := (hardRejected_buildDecision c).trans hard
      rw [action_applyAutoBlock ((hardRejected_applyRejectDominance _ _).trans soft),
        action_applyRejectDominance soft (autoBlocked_buildDecision c), action_buildDecision]
      simp only [Kept, hard, not_or, Bool.not_eq_true, Bool.false_eq_true, not_false_eq_true,
        true_and]
      tauto

theorem candidateOf_eq_some {exactValueCounts : SortedMap ByteString Counts}
    {autoBlockPolicy : ZenzFeedbackAutoBlockPolicy} {item : ByteString × Counts}
    {candidate : ZenzFeedbackCandidate}
    (made : candidateOf exactValueCounts autoBlockPolicy item = some candidate) :
    candidate.value = item.1 ∧
      Kept autoBlockPolicy ((exactValueCounts.find item.1).getD {}) item.2 := by
  unfold candidateOf at made
  dsimp only at made
  split at made
  · exact absurd made (by simp)
  · rename_i kept
    cases made
    exact ⟨rfl, kept⟩

theorem exists_candidateOf {exactValueCounts : SortedMap ByteString Counts}
    {autoBlockPolicy : ZenzFeedbackAutoBlockPolicy} {item : ByteString × Counts}
    (kept : Kept autoBlockPolicy ((exactValueCounts.find item.1).getD {}) item.2) :
    ∃ candidate, candidateOf exactValueCounts autoBlockPolicy item = some candidate := by
  unfold candidateOf
  dsimp only
  rw [if_neg kept]
  exact ⟨_, rfl⟩

/-! ## The ranked values -/

/-- `value_counts` behind the first loop. -/
def valueCounts (records : List FeedbackRecord) (key contextClass : ByteString) :
    SortedMap ByteString Counts :=
  SortedMap.tally (fun item => item.1.value) Prod.snd
    ((loadCounts records).elements.filter (promotes key (normalizeContextClass contextClass)))

/-- `exact_value_counts` behind the first loop. -/
def exactValueCounts (records : List FeedbackRecord) (key contextClass : ByteString) :
    SortedMap ByteString Counts :=
  SortedMap.tally (fun item => item.1.value) Prod.snd
    ((loadCounts records).elements.filter (isExactClass key (normalizeContextClass contextClass)))

theorem getRankedCandidates_eq (records : List FeedbackRecord) (key contextClass : ByteString)
    (autoBlockPolicy : ZenzFeedbackAutoBlockPolicy) :
    getRankedCandidates records key contextClass autoBlockPolicy =
      sortBy ranksBefore ((valueCounts records key contextClass).elements.filterMap
        (candidateOf (exactValueCounts records key contextClass) autoBlockPolicy)) := by
  simp only [getRankedCandidates, foldl_rankStep]
  rfl

/-- The two compatibility tests are one. -/
theorem compatible_eq :
    isPromotionCompatibleContextClass = isDecisionCompatibleContextClass := rfl

theorem sumAt_promoted (records : List FeedbackRecord) (key contextClass value : ByteString) :
    SortedMap.sumAt (fun item : FeedbackKey × Counts => item.1.value) Prod.snd value
        ((loadCounts records).elements.filter
          (promotes key (normalizeContextClass contextClass))) =
      aggregated records key contextClass value := by
  rw [SortedMap.sumAt, aggregated, SortedMap.total, List.filter_filter]
  congr 2
  apply List.filter_congr
  intro item _
  rw [Bool.eq_iff_iff]
  simp only [promotes, aggregates, compatible_eq, Bool.and_eq_true, decide_eq_true_eq]
  tauto

theorem find_exactValueCounts (records : List FeedbackRecord)
    (key contextClass value : ByteString) :
    ((exactValueCounts records key contextClass).find value).getD {} =
      exactCounts records key contextClass value := by
  refine (SortedMap.getD_find_tally _ _ _ _).trans ?_
  rw [SortedMap.sumAt, exactCounts, SortedMap.total, List.filter_filter]
  congr 2
  apply List.filter_congr
  intro item _
  rw [Bool.eq_iff_iff]
  simp only [isExactClass, isExact, Bool.and_eq_true, decide_eq_true_eq]
  tauto

/-- A value is in `value_counts` with its aggregated counts, or has none. -/
theorem find_valueCounts (records : List FeedbackRecord) (key contextClass value : ByteString) :
    (valueCounts records key contextClass).find value =
        some (aggregated records key contextClass value) ∨
      ((valueCounts records key contextClass).find value = none ∧
        aggregated records key contextClass value = 0) := by
  rw [← sumAt_promoted]
  have zero := SortedMap.getD_find_tally (fun item : FeedbackKey × Counts => item.1.value) Prod.snd
    ((loadCounts records).elements.filter (promotes key (normalizeContextClass contextClass))) value
  cases found : (valueCounts records key contextClass).find value with
  | none =>
      right
      refine ⟨rfl, zero.symm.trans ?_⟩
      rw [valueCounts] at found
      rw [found]
      rfl
  | some c =>
      left
      rw [valueCounts] at found
      rw [found] at zero
      exact congrArg some zero

/-- **The two functions agree.**  The ranked values are those that `Decide` prefers. -/
theorem mem_rankedValues_iff (records : List FeedbackRecord) (key contextClass value : ByteString)
    (autoBlockPolicy : ZenzFeedbackAutoBlockPolicy) :
    value ∈ (getRankedCandidates records key contextClass autoBlockPolicy).map
        ZenzFeedbackCandidate.value ↔
      (ZenzFeedbackStore.decide records key contextClass value autoBlockPolicy).action =
        .prefer := by
  rw [decide_prefers_iff, getRankedCandidates_eq, List.mem_map]
  constructor
  · rintro ⟨candidate, member, rfl⟩
    obtain ⟨⟨v, c⟩, isItem, made⟩ := List.mem_filterMap.1 ((sortBy_perm _ _).subset member)
    obtain ⟨same, kept⟩ := candidateOf_eq_some made
    have found := SortedMap.find_eq_some.2 isItem
    dsimp only at same kept
    subst same
    rw [find_exactValueCounts] at kept
    rcases find_valueCounts records key contextClass candidate.value with here | ⟨absent, _⟩
    · rw [here] at found
      cases found
      exact kept
    · rw [absent] at found
      exact absurd found (by simp)
  · intro kept
    rcases find_valueCounts records key contextClass value with here | ⟨_, zero⟩
    · rw [← find_exactValueCounts] at kept
      obtain ⟨candidate, made⟩ := @exists_candidateOf _ _
        (value, aggregated records key contextClass value) kept
      refine ⟨candidate, (sortBy_perm _ _).symm.subset (List.mem_filterMap.2 ?_),
        (candidateOf_eq_some made).1⟩
      exact ⟨_, SortedMap.find_eq_some.1 here, made⟩
    · rw [zero] at kept
      exact absurd kept (not_kept_zero _ _)

/-! ## The order of the candidates -/

/-- The order of the candidates, as a rank: lower is better. -/
def candidateRank (candidate : ZenzFeedbackCandidate) : ℤ ×ₗ ℤ ×ₗ ℤ ×ₗ ByteString :=
  toLex (-candidate.totalScore.toInt, toLex (-candidate.positiveScore.toInt,
    toLex (candidate.negativeScore.toInt, candidate.value)))

theorem ranksBefore_iff (a b : ZenzFeedbackCandidate) :
    ranksBefore a b = true ↔ candidateRank a < candidateRank b := by
  unfold ranksBefore candidateRank
  rw [Prod.Lex.toLex_lt_toLex, Prod.Lex.toLex_lt_toLex, Prod.Lex.toLex_lt_toLex]
  by_cases total : a.totalScore = b.totalScore
  · by_cases positive : a.positiveScore = b.positiveScore
    · by_cases negative : a.negativeScore = b.negativeScore
      · simp [total, positive, negative]
      · simp [total, positive, negative, Int32.lt_iff_toInt_lt, Int32.toInt_inj]
    · simp [total, positive, Int32.lt_iff_toInt_lt, Int32.toInt_inj]
  · simp [total, Int32.lt_iff_toInt_lt, Int32.toInt_inj]

theorem value_eq_of_rank_eq {a b : ZenzFeedbackCandidate}
    (same : candidateRank a = candidateRank b) : a.value = b.value := by
  simp only [candidateRank, EmbeddingLike.apply_eq_iff_eq, Prod.mk.injEq] at same
  exact same.2.2.2

/-- Each value is ranked once. -/
theorem nodup_rankedValues (records : List FeedbackRecord) (key contextClass : ByteString)
    (autoBlockPolicy : ZenzFeedbackAutoBlockPolicy) :
    ((getRankedCandidates records key contextClass autoBlockPolicy).map
      ZenzFeedbackCandidate.value).Nodup := by
  rw [getRankedCandidates_eq, ((sortBy_perm _ _).map _).nodup_iff]
  have keys := (valueCounts records key contextClass).keys_nodup
  generalize (valueCounts records key contextClass).elements = items at keys
  induction items with
  | nil => simp
  | cons item items ih =>
      rw [List.map_cons, List.nodup_cons] at keys
      cases made : candidateOf (exactValueCounts records key contextClass) autoBlockPolicy item with
      | none =>
          rw [List.filterMap_cons_none made]
          exact ih keys.2
      | some candidate =>
          rw [List.filterMap_cons_some made, List.map_cons, List.nodup_cons]
          refine ⟨?_, ih keys.2⟩
          intro again
          obtain ⟨other, member, same⟩ := List.mem_map.1 again
          obtain ⟨item', isItem, made'⟩ := List.mem_filterMap.1 member
          apply keys.1
          rw [← (candidateOf_eq_some made).1, ← same, (candidateOf_eq_some made').1]
          exact List.mem_map_of_mem isItem

theorem sorted_rankedCandidates (records : List FeedbackRecord) (key contextClass : ByteString)
    (autoBlockPolicy : ZenzFeedbackAutoBlockPolicy) :
    (getRankedCandidates records key contextClass autoBlockPolicy).Pairwise
      fun a b => ranksBefore a b = true := by
  have distinct := List.pairwise_map.1
    (nodup_rankedValues records key contextClass autoBlockPolicy)
  rw [getRankedCandidates_eq] at distinct ⊢
  refine ((sortBy_sorted ranksBefore_iff _).and distinct).imp ?_
  rintro a b ⟨below, differ⟩
  rw [ranksBefore_iff]
  apply lt_of_le_of_ne below
  intro same
  exact differ (value_eq_of_rank_eq same)

/-! ## Sensitive records -/

/-- The records that are as sensitive as a lookup in a context class. -/
def asSensitive (contextClass : ByteString) (recordContextClass : ByteString) : Bool :=
  isSensitiveFeedbackContextClass recordContextClass =
    isSensitiveFeedbackContextClass (normalizeContextClass contextClass)

theorem asSensitive_of_compatible {contextClass recordContextClass : ByteString}
    (compatible : isDecisionCompatibleContextClass (normalizeContextClass contextClass)
      recordContextClass = true) : asSensitive contextClass recordContextClass = true := by
  unfold isDecisionCompatibleContextClass at compatible
  unfold asSensitive
  split at compatible
  · rename_i same
    simp [same]
  split at compatible
  · exact absurd compatible (by simp)
  · rename_i neither
    simp only [Bool.or_eq_true, not_or, Bool.not_eq_true] at neither
    simp [neither.1, neither.2]

theorem asSensitive_self (contextClass : ByteString) :
    asSensitive contextClass (normalizeContextClass contextClass) = true := by
  simp [asSensitive]

/-- Filtering by a weaker test first changes nothing. -/
theorem filter_filter_of_imp {α : Type*} {p q : α → Bool} (weaker : ∀ x, p x = true → q x = true)
    (xs : List α) : (xs.filter q).filter p = xs.filter p := by
  rw [List.filter_filter]
  apply List.filter_congr
  intro x _
  cases holds : p x with
  | false => rfl
  | true => rw [weaker x holds]; rfl

theorem counts_asSensitive (records : List FeedbackRecord) (contextClass : ByteString)
    {p : FeedbackKey × Counts → Bool}
    (only : ∀ item, p item = true → asSensitive contextClass item.1.contextClass = true) :
    (loadCounts (records.filter (asSensitive contextClass ·.contextClass))).elements.filter p =
      (loadCounts records).elements.filter p := by
  have split := loadCounts_filter (fun k => asSensitive contextClass k.contextClass) records
  have same : records.filter (asSensitive contextClass ·.contextClass) =
      records.filter (fun record => asSensitive contextClass (feedbackKey record).contextClass) := rfl
  rw [same, split]
  exact filter_filter_of_imp only _

section Lookups

variable {key contextClass value : ByteString} {item : FeedbackKey × Counts}

theorem aggregates_asSensitive
    (holds : aggregates key (normalizeContextClass contextClass) value item.1 = true) :
    asSensitive contextClass item.1.contextClass = true := by
  simp only [aggregates, Bool.and_eq_true] at holds
  exact asSensitive_of_compatible holds.2

theorem isExact_asSensitive
    (holds : isExact key (normalizeContextClass contextClass) value item.1 = true) :
    asSensitive contextClass item.1.contextClass = true := by
  simp only [isExact, Bool.and_eq_true, decide_eq_true_eq] at holds
  rw [holds.2]
  exact asSensitive_self contextClass

theorem promotes_asSensitive
    (holds : promotes key (normalizeContextClass contextClass) item = true) :
    asSensitive contextClass item.1.contextClass = true := by
  simp only [promotes, Bool.and_eq_true] at holds
  exact asSensitive_of_compatible holds.2

theorem isExactClass_asSensitive
    (holds : isExactClass key (normalizeContextClass contextClass) item = true) :
    asSensitive contextClass item.1.contextClass = true := by
  simp only [isExactClass, Bool.and_eq_true, decide_eq_true_eq] at holds
  rw [holds.2]
  exact asSensitive_self contextClass

end Lookups

/-- Only the records as sensitive as the lookup count for a decision. -/
theorem decide_asSensitive (records : List FeedbackRecord) (key contextClass value : ByteString)
    (autoBlockPolicy : ZenzFeedbackAutoBlockPolicy) :
    ZenzFeedbackStore.decide (records.filter (asSensitive contextClass ·.contextClass)) key
        contextClass value autoBlockPolicy =
      ZenzFeedbackStore.decide records key contextClass value autoBlockPolicy := by
  have same := counts_asSensitive records contextClass fun item =>
    @aggregates_asSensitive key contextClass value item
  have sameExact := counts_asSensitive records contextClass fun item =>
    @isExact_asSensitive key contextClass value item
  simp only [decide_eq, aggregated, exactCounts, SortedMap.total, same, sameExact]

theorem getRankedCandidates_asSensitive (records : List FeedbackRecord)
    (key contextClass : ByteString) (autoBlockPolicy : ZenzFeedbackAutoBlockPolicy) :
    getRankedCandidates (records.filter (asSensitive contextClass ·.contextClass)) key
        contextClass autoBlockPolicy =
      getRankedCandidates records key contextClass autoBlockPolicy := by
  have same := counts_asSensitive records contextClass fun item =>
    @promotes_asSensitive key contextClass item
  have sameExact := counts_asSensitive records contextClass fun item =>
    @isExactClass_asSensitive key contextClass item
  simp only [getRankedCandidates_eq, valueCounts, exactValueCounts, same, sameExact]

/-! ## The decisions agree -/

/-- What a lookup of a key in a context class promises about a log. -/
structure DecisionsAgree (records : List FeedbackRecord) (key contextClass : ByteString)
    (autoBlockPolicy : ZenzFeedbackAutoBlockPolicy) : Prop where
  /-- The ranked values are those that `Decide` prefers. -/
  values : ∀ value,
    value ∈ (getRankedCandidates records key contextClass autoBlockPolicy).map
        ZenzFeedbackCandidate.value ↔
      (ZenzFeedbackStore.decide records key contextClass value autoBlockPolicy).action = .prefer
  once : ((getRankedCandidates records key contextClass autoBlockPolicy).map
    ZenzFeedbackCandidate.value).Nodup
  decreasing : (getRankedCandidates records key contextClass autoBlockPolicy).Pairwise
    fun a b => ranksBefore a b = true
  /-- The order of the log does not matter. -/
  unordered : ∀ permuted, permuted.Perm records →
    getRankedCandidates permuted key contextClass autoBlockPolicy =
        getRankedCandidates records key contextClass autoBlockPolicy ∧
      ∀ value, ZenzFeedbackStore.decide permuted key contextClass value autoBlockPolicy =
        ZenzFeedbackStore.decide records key contextClass value autoBlockPolicy
  /-- Sensitive records count for sensitive lookups only, and no others do. -/
  isolated : ∀ others,
    others.filter (asSensitive contextClass ·.contextClass) =
        records.filter (asSensitive contextClass ·.contextClass) →
      getRankedCandidates others key contextClass autoBlockPolicy =
          getRankedCandidates records key contextClass autoBlockPolicy ∧
        ∀ value, ZenzFeedbackStore.decide others key contextClass value autoBlockPolicy =
          ZenzFeedbackStore.decide records key contextClass value autoBlockPolicy

/-- **The decisions agree**, for every log, lookup and policy. -/
theorem decisionsAgree (records : List FeedbackRecord) (key contextClass : ByteString)
    (autoBlockPolicy : ZenzFeedbackAutoBlockPolicy) :
    DecisionsAgree records key contextClass autoBlockPolicy where
  values value := mem_rankedValues_iff records key contextClass value autoBlockPolicy
  once := nodup_rankedValues records key contextClass autoBlockPolicy
  decreasing := sorted_rankedCandidates records key contextClass autoBlockPolicy
  unordered permuted perm := by
    have counts := loadCounts_perm perm
    constructor
    · simp only [getRankedCandidates, counts]
    · intro value
      simp only [ZenzFeedbackStore.decide, counts]
  isolated others same := by
    constructor
    · rw [← getRankedCandidates_asSensitive others, same, getRankedCandidates_asSensitive]
    · intro value
      rw [← decide_asSensitive others, same, decide_asSensitive]

end ZenzFeedbackStore

end Mozkey.Session
