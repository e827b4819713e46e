import Mozkey.Engine.ContextualCandidateReranker

/-!
# What reranking depends on

Reranking permutes candidates and changes nothing else.  What becomes of the first conversion
segment depends on it, on the next one and on what was committed before; but of the latter the code
looks at the oldest history segment and not at the last one.
-/

namespace Mozkey.Engine.ContextualCandidateReranker

open Mozkey.Lib Mozkey.Converter

/-! ## What reordering does -/

section Reorder

variable {adjustedCost : Candidate → Int} {candidates : List Candidate}

/-- The scores of the candidates, sorted. -/
def sortedScores (adjustedCost : Candidate → Int) (candidates : List Candidate) :
    List CandidateScore :=
  sortBy (fun lhs rhs : CandidateScore => lhs.adjustedCost < rhs.adjustedCost)
    (candidates.zipIdx.map fun entry => ⟨entry.2, adjustedCost entry.1⟩)

theorem reorder_eq : reorder adjustedCost candidates =
    match sortedScores adjustedCost candidates with
    | [] => candidates
    | first :: _ =>
        if first.index = 0 then candidates
        else (sortedScores adjustedCost candidates).map fun score =>
          candidates.getD score.index {} := rfl

/-- A score is the one of the candidate at its index. -/
theorem exists_of_mem_sortedScores {score : CandidateScore}
    (member : score ∈ sortedScores adjustedCost candidates) :
    ∃ c, candidates[score.index]? = some c ∧ score.adjustedCost = adjustedCost c := by
  obtain ⟨⟨c, i⟩, isEntry, rfl⟩ := List.mem_map.1 ((sortBy_perm _ _).mem_iff.1 member)
  exact ⟨c, List.mem_zipIdx_iff_getElem?.1 isEntry, rfl⟩

theorem mem_sortedScores {c : Candidate} {i : Nat} (there : candidates[i]? = some c) :
    ⟨i, adjustedCost c⟩ ∈ sortedScores adjustedCost candidates :=
  (sortBy_perm _ _).mem_iff.2
    (List.mem_map.2 ⟨(c, i), List.mem_zipIdx_iff_getElem?.2 there, rfl⟩)

theorem sortedScores_sorted : (sortedScores adjustedCost candidates).Pairwise
    fun a b => a.adjustedCost ≤ b.adjustedCost :=
  @sortBy_sorted _ _ _ _ CandidateScore.adjustedCost (fun _ _ => decide_eq_true_iff) _

/-- **Reordering permutes** the candidates. -/
theorem reorder_perm : (reorder adjustedCost candidates).Perm candidates := by
  rw [reorder_eq]
  split
  · exact .rfl
  · split
    · exact .rfl
    · refine ((sortBy_perm _ _).map _).trans ?_
      rw [List.map_map]
      have same : candidates.zipIdx.map
          ((fun score : CandidateScore => candidates.getD score.index {}) ∘ fun entry =>
            (⟨entry.2, adjustedCost entry.1⟩ : CandidateScore)) = candidates := by
        refine List.ext_getElem? fun i => ?_
        rw [List.getElem?_map, List.getElem?_zipIdx]
        cases there : candidates[i]? with
        | none => rfl
        | some c => simp [there]
      rw [same]

/-- Some candidate is better than the first one. -/
def HasBetter (adjustedCost : Candidate → Int) (candidates : List Candidate) : Prop :=
  ∃ first ∈ candidates.head?, ∃ c ∈ candidates, adjustedCost c < adjustedCost first

/-- Unless a candidate is better, the first one has the first score. -/
theorem sortedScores_of_not_hasBetter {first : Candidate} {rest : List Candidate}
    (best : ¬ HasBetter adjustedCost (first :: rest)) :
    ∃ scores, sortedScores adjustedCost (first :: rest) = ⟨0, adjustedCost first⟩ :: scores := by
  have least : ∀ c ∈ first :: rest, adjustedCost first ≤ adjustedCost c := fun c member =>
    not_lt.1 fun less => best ⟨first, rfl, c, member, less⟩
  have others : ∀ score ∈ sortBy
      (fun lhs rhs : CandidateScore => decide (lhs.adjustedCost < rhs.adjustedCost))
      ((rest.zipIdx 1).map fun entry => (⟨entry.2, adjustedCost entry.1⟩ : CandidateScore)),
      adjustedCost first ≤ score.adjustedCost := by
    intro score member
    obtain ⟨⟨c, i⟩, isEntry, rfl⟩ := List.mem_map.1 ((sortBy_perm _ _).mem_iff.1 member)
    exact least c (List.mem_cons_of_mem _ (List.fst_mem_of_mem_zipIdx isEntry))
  have split : sortedScores adjustedCost (first :: rest) =
      (sortBy (fun lhs rhs : CandidateScore => decide (lhs.adjustedCost < rhs.adjustedCost))
        ((rest.zipIdx 1).map fun entry => (⟨entry.2, adjustedCost entry.1⟩ : CandidateScore))).orderedInsert
          (fun a b => decide (b.adjustedCost < a.adjustedCost) = false)
          ⟨0, adjustedCost first⟩ := rfl
  rw [split]
  cases sorted : sortBy
      (fun lhs rhs : CandidateScore => decide (lhs.adjustedCost < rhs.adjustedCost))
      ((rest.zipIdx 1).map fun entry => (⟨entry.2, adjustedCost entry.1⟩ : CandidateScore)) with
  | nil => exact ⟨[], rfl⟩
  | cons score scores =>
      have front := others score (by rw [sorted]; exact List.mem_cons_self)
      exact ⟨score :: scores, if_pos (decide_eq_false (not_lt.2 front))⟩

/-- **Reordering changes the candidates** exactly when one of them is better than the first one. -/
theorem reorder_ne_iff : reorder adjustedCost candidates ≠ candidates ↔
    HasBetter adjustedCost candidates := by
  constructor
  · intro changed
    by_contra best
    apply changed
    rw [reorder_eq]
    cases candidates with
    | nil => rfl
    | cons first rest =>
        obtain ⟨scores, front⟩ := sortedScores_of_not_hasBetter best
        rw [front]
        rfl
  · rintro ⟨first, isFirst, c, member, less⟩ same
    obtain ⟨i, inside, rfl⟩ := List.mem_iff_getElem.1 member
    have scored := @mem_sortedScores adjustedCost _ _ _ (List.getElem?_eq_getElem inside)
    have sorted := @sortedScores_sorted adjustedCost candidates
    cases front : sortedScores adjustedCost candidates with
    | nil =>
        rw [front] at scored
        cases scored
    | cons score scores =>
        obtain ⟨top, isTop, cost⟩ := exists_of_mem_sortedScores (front ▸ List.mem_cons_self)
        have best : adjustedCost top < adjustedCost first := by
          rw [← cost]
          rw [front] at scored sorted
          refine lt_of_le_of_lt ?_ less
          rcases List.mem_cons.1 scored with here | later
          · rw [← here]
          · exact (List.pairwise_cons.1 sorted).1 _ later
        rw [List.head?_eq_getElem?] at isFirst
        have notFirst : score.index ≠ 0 := by
          intro zero
          rw [zero, isFirst] at isTop
          cases isTop
          exact lt_irrefl _ best
        rw [reorder_eq, front] at same
        dsimp only at same
        rw [if_neg notFirst, List.map_cons, List.getD_eq_getElem?_getD, isTop] at same
        rw [← same] at isFirst
        cases isFirst
        exact lt_irrefl _ best

end Reorder

/-! ## One segment -/

/-- The other segment has the same candidates in some order, and the same of everything else. -/
def Permuted (before after : Segment) : Prop :=
  ∃ candidates, candidates.Perm before.candidates ∧ after = { before with candidates := candidates }

theorem Permuted.refl (segment : Segment) : Permuted segment segment :=
  ⟨segment.candidates, .rfl, rfl⟩

theorem Permuted.trans {a b c : Segment} (first : Permuted a b) (second : Permuted b c) :
    Permuted a c := by
  obtain ⟨candidates, perm, rfl⟩ := first
  obtain ⟨candidates', perm', rfl⟩ := second
  exact ⟨candidates', perm'.trans perm, rfl⟩

namespace Reranker

variable {reranker : Reranker} {segments : Segments} {i : Nat} {segment : Segment}

/-- Whatever precedes the segment, it is for this reranker, and a candidate is to be moved to the
front. -/
structure Moves (reranker : Reranker) (segments : Segments) (i : Nat) (segment : Segment) : Prop where
  handles : reranker.handles segment.key = true
  nextFits : reranker.nextFits segments i = true
  functional : segment.candidates.any (reranker.isFunctional segment) = true
  better : HasBetter (reranker.adjustedCost segment) segment.candidates

theorem rerankSegment_permuted :
    Permuted segment (reranker.rerankSegment segments i segment) := by
  unfold rerankSegment
  split_ifs
  · exact .refl segment
  · exact .refl segment
  · exact .refl segment
  · exact .refl segment
  · exact .refl segment
  · exact ⟨_, reorder_perm, rfl⟩

theorem rerankSegment_of_not_handles (other : reranker.handles segment.key = false) :
    reranker.rerankSegment segments i segment = segment := by
  unfold rerankSegment
  rw [other]
  rfl

theorem one_lt_length_of_hasBetter {adjustedCost : Candidate → Int} {candidates : List Candidate}
    (better : HasBetter adjustedCost candidates) : 1 < candidates.length := by
  obtain ⟨first, isFirst, c, member, less⟩ := better
  match candidates, isFirst, member with
  | [only], isFirst, member =>
      cases isFirst
      obtain rfl := List.mem_singleton.1 member
      exact absurd less (lt_irrefl _)
  | _ :: _ :: rest, _, _ => exact Nat.succ_lt_succ (Nat.succ_pos rest.length)

/-- **A segment changes** exactly when there is something to move and the context before it fits. -/
theorem rerankSegment_ne_iff : reranker.rerankSegment segments i segment ≠ segment ↔
    reranker.Moves segments i segment ∧
      reranker.previousFits segments i segment.key = true := by
  have differs : { segment with
      candidates := reorder (reranker.adjustedCost segment) segment.candidates } ≠ segment ↔
      HasBetter (reranker.adjustedCost segment) segment.candidates := by
    rw [← reorder_ne_iff]
    refine not_congr ⟨fun same => congrArg Segment.candidates same, fun same => ?_⟩
    rw [same]
  unfold rerankSegment
  constructor
  · intro changed
    split_ifs at changed with other few unfit nextUnfit none
    · exact absurd rfl changed
    · exact absurd rfl changed
    · exact absurd rfl changed
    · exact absurd rfl changed
    · exact absurd rfl changed
    · simp only [Bool.not_eq_true', Bool.not_eq_false] at other unfit nextUnfit none
      exact ⟨⟨other, nextUnfit, none, differs.1 changed⟩, unfit⟩
  · rintro ⟨⟨handles, nextFits, functional, better⟩, fits⟩
    have more := one_lt_length_of_hasBetter better
    rw [handles, if_neg (by decide), if_neg (by omega), fits, if_neg (by decide), nextFits,
      if_neg (by decide), functional, if_neg (by decide)]
    exact differs.2 better

theorem rerankSegment_of_not_moves (stays : ¬ reranker.Moves segments i segment) :
    reranker.rerankSegment segments i segment = segment := by
  by_contra changed
  exact stays (rerankSegment_ne_iff.1 changed).1

theorem rerankSegment_congr {others : Segments}
    (previous : reranker.previousFits segments i segment.key =
      reranker.previousFits others i segment.key)
    (next : reranker.nextFits segments i = reranker.nextFits others i) :
    reranker.rerankSegment segments i segment = reranker.rerankSegment others i segment := by
  unfold rerankSegment
  rw [previous, next]

end Reranker

/-! ## All segments -/

/-- A segment was changed only by a permutation of its candidates, and none of the history was. -/
structure OnlyPermutes (before after : Segments) : Prop where
  history : after.take before.historySegmentsSize = before.take before.historySegmentsSize
  segments : List.Forall₂ Permuted before after

section OnlyPermutes

variable {before after segments : Segments} {i : Nat}

theorem historySegmentsSize_congr (permuted : List.Forall₂ Permuted before after) :
    after.historySegmentsSize = before.historySegmentsSize := by
  unfold Segments.historySegmentsSize
  induction permuted with
  | nil => rfl
  | cons first rest ih =>
      obtain ⟨candidates, -, rfl⟩ := first
      rw [List.takeWhile_cons, List.takeWhile_cons]
      split
      · exact congrArg (· + 1) ih
      · rfl

theorem OnlyPermutes.refl (segments : Segments) : OnlyPermutes segments segments :=
  ⟨rfl, List.forall₂_same.2 fun segment _ => .refl segment⟩

theorem forall₂_trans {last : Segments} (first : List.Forall₂ Permuted before after)
    (second : List.Forall₂ Permuted after last) : List.Forall₂ Permuted before last := by
  induction first generalizing last with
  | nil => exact second
  | cons head tail ih =>
      cases second with
      | cons head' tail' => exact .cons (head.trans head') (ih tail')

theorem OnlyPermutes.trans {last : Segments} (first : OnlyPermutes before after)
    (second : OnlyPermutes after last) : OnlyPermutes before last := by
  have size := historySegmentsSize_congr first.segments
  refine ⟨?_, forall₂_trans first.segments second.segments⟩
  rw [← first.history, ← size]
  exact second.history

theorem forall₂_modify {f : Segment → Segment} (permutes : ∀ segment, Permuted segment (f segment))
    (segments : Segments) (i : Nat) : List.Forall₂ Permuted segments (segments.modify i f) := by
  induction segments generalizing i with
  | nil => cases i <;> exact .nil
  | cons segment segments ih =>
      cases i with
      | zero => exact .cons (permutes segment) (List.forall₂_same.2 fun segment _ => .refl segment)
      | succ i => exact .cons (.refl segment) (ih i)

theorem onlyPermutes_inPlace (reranker : Reranker) (i : Nat) (segments : Segments) :
    OnlyPermutes segments (inPlace reranker.rerankSegment i segments) := by
  refine ⟨?_, forall₂_modify (fun _ => Reranker.rerankSegment_permuted) _ _⟩
  refine List.ext_getElem? fun j => ?_
  rw [List.getElem?_take, List.getElem?_take]
  split
  · rename_i inHistory
    exact List.getElem?_modify_ne _ _ (by omega)
  · rfl

theorem onlyPermutes_rerankConversionSegment (segments : Segments) (i : Nat) :
    OnlyPermutes segments (rerankConversionSegment segments i) :=
  ((onlyPermutes_inPlace particleReranker i segments).trans
    (onlyPermutes_inPlace functionalParticleExpressionReranker i _)).trans
      (onlyPermutes_inPlace shikaReranker i _)

theorem onlyPermutes_foldl (indices : List Nat) (segments : Segments) :
    OnlyPermutes segments (indices.foldl rerankConversionSegment segments) := by
  induction indices generalizing segments with
  | nil => exact .refl segments
  | cons i indices ih => exact (onlyPermutes_rerankConversionSegment segments i).trans (ih _)

/-- **Reranking only permutes** candidates within conversion segments. -/
theorem onlyPermutes_rerank (segments : Segments) : OnlyPermutes segments (rerank segments) :=
  onlyPermutes_foldl _ segments

end OnlyPermutes

/-! ## The first conversion segment -/

def Segments.firstConversion (segments : Segments) : Option Segment :=
  segments[segments.historySegmentsSize]?

section First

variable {segments : Segments} {segment : Segment} {i : Nat}

theorem firstConversion_inPlace_of_ne (reranker : Reranker) (later : i ≠ 0) :
    (inPlace reranker.rerankSegment i segments).firstConversion = segments.firstConversion := by
  have size := historySegmentsSize_congr (onlyPermutes_inPlace reranker i segments).segments
  rw [Segments.firstConversion, size]
  exact List.getElem?_modify_ne _ _ (by omega)

theorem firstConversion_rerankConversionSegment_of_ne (later : i ≠ 0) :
    (rerankConversionSegment segments i).firstConversion = segments.firstConversion :=
  (firstConversion_inPlace_of_ne shikaReranker later).trans
    ((firstConversion_inPlace_of_ne functionalParticleExpressionReranker later).trans
      (firstConversion_inPlace_of_ne particleReranker later))

theorem firstConversion_foldl {indices : List Nat} (later : ∀ i ∈ indices, i ≠ 0)
    (segments : Segments) :
    (indices.foldl rerankConversionSegment segments).firstConversion =
      segments.firstConversion := by
  induction indices generalizing segments with
  | nil => rfl
  | cons i indices ih =>
      obtain ⟨notFirst, later⟩ := List.forall_mem_cons.1 later
      rw [List.foldl_cons, ih later, firstConversion_rerankConversionSegment_of_ne notFirst]

/-- The loop reaches the first conversion segment once. -/
theorem firstConversion_rerank (there : segments.firstConversion = some segment) :
    (rerank segments).firstConversion = (rerankConversionSegment segments 0).firstConversion := by
  obtain ⟨inside, -⟩ := List.getElem?_eq_some_iff.1 there
  obtain ⟨n, size⟩ : ∃ n, segments.conversionSegmentsSize = n + 1 :=
    Nat.exists_eq_succ_of_ne_zero (by unfold Segments.conversionSegmentsSize; omega)
  rw [rerank, size, List.range_succ_eq_map, List.foldl_cons]
  refine firstConversion_foldl (fun i member => ?_) _
  obtain ⟨j, -, rfl⟩ := List.mem_map.1 member
  exact Nat.succ_ne_zero j

theorem firstConversion_rerank_of_none (absent : segments.firstConversion = none) :
    (rerank segments).firstConversion = none := by
  have beyond := List.getElem?_eq_none_iff.1 absent
  have size : segments.conversionSegmentsSize = 0 := by
    unfold Segments.conversionSegmentsSize
    omega
  rw [rerank, size]
  exact absent

theorem firstConversion_inPlace (reranker : Reranker)
    (there : segments.firstConversion = some segment) :
    (inPlace reranker.rerankSegment 0 segments).firstConversion =
      some (reranker.rerankSegment segments 0 segment) := by
  have size := historySegmentsSize_congr (onlyPermutes_inPlace reranker 0 segments).segments
  rw [Segments.firstConversion, size, inPlace, Nat.add_zero, List.getElem?_modify_eq]
  rw [Segments.firstConversion] at there
  rw [there]
  rfl

/-- A reranker leaves the segments as they are when the first key is not for it. -/
theorem inPlace_of_not_handles {reranker : Reranker}
    (there : segments.firstConversion = some segment)
    (other : reranker.handles segment.key = false) :
    inPlace reranker.rerankSegment 0 segments = segments := by
  refine List.ext_getElem? fun j => ?_
  rw [inPlace, Nat.add_zero, List.getElem?_modify]
  split
  · rename_i here
    rw [Segments.firstConversion] at there
    rw [← here, there]
    exact congrArg some (Reranker.rerankSegment_of_not_handles other)
  · cases segments[j]? <;> rfl

end First

/-! ## Main result -/

def rerankers : List Reranker :=
  [particleReranker, functionalParticleExpressionReranker, shikaReranker]

/-- **No key is for two rerankers.** -/
theorem handles_disjoint (key : ByteString) :
    (isParticleReading key = true → isFunctionalParticleExpressionKey key = false ∧
      shikaReranker.handles key = false) ∧
    (isFunctionalParticleExpressionKey key = true → shikaReranker.handles key = false) := by
  constructor
  · intro isParticle
    obtain ⟨c, member, same⟩ := List.any_eq_true.1 isParticle
    obtain rfl := eq_of_beq same
    fin_cases member <;> decide
  · intro isExpression
    obtain ⟨text, member, same⟩ := List.any_eq_true.1 isExpression
    obtain rfl := eq_of_beq same
    fin_cases member <;> decide

section Main

variable {S T segments : Segments} {segment : Segment}

/-- The first conversion segment is changed by the reranker for its key alone. -/
theorem firstConversion_rerankConversionSegment
    (there : segments.firstConversion = some segment) :
    (∃ reranker ∈ rerankers, reranker.handles segment.key = true ∧
      (rerankConversionSegment segments 0).firstConversion =
        some (reranker.rerankSegment segments 0 segment)) ∨
    (∀ reranker ∈ rerankers, reranker.handles segment.key = false) ∧
      (rerankConversionSegment segments 0).firstConversion = some segment := by
  obtain ⟨particle, expression⟩ := handles_disjoint segment.key
  have key : ∀ reranker : Reranker,
      (reranker.rerankSegment segments 0 segment).key = segment.key := by
    intro reranker
    obtain ⟨candidates, -, same⟩ := @Reranker.rerankSegment_permuted reranker segments 0 segment
    rw [same]
  unfold rerankConversionSegment rerankParticleSegmentAfterContext
    rerankFunctionalParticleExpressionAfterContext rerankShikaNegativeExpressionAfterContext
  dsimp only
  cases isParticle : isParticleReading segment.key with
  | true =>
      obtain ⟨notExpression, notShika⟩ := particle isParticle
      rw [← key particleReranker] at notExpression notShika
      have first := firstConversion_inPlace particleReranker there
      rw [@inPlace_of_not_handles _ _ functionalParticleExpressionReranker first notExpression,
        @inPlace_of_not_handles _ _ shikaReranker first notShika, first]
      exact .inl ⟨particleReranker, List.mem_cons_self, isParticle, rfl⟩
  | false =>
      rw [@inPlace_of_not_handles _ _ particleReranker there isParticle]
      cases isExpression : isFunctionalParticleExpressionKey segment.key with
      | true =>
          have notShika := expression isExpression
          rw [← key functionalParticleExpressionReranker] at notShika
          have first := firstConversion_inPlace functionalParticleExpressionReranker there
          rw [@inPlace_of_not_handles _ _ shikaReranker first notShika, first]
          exact .inl ⟨functionalParticleExpressionReranker,
            List.mem_cons_of_mem _ List.mem_cons_self, isExpression, rfl⟩
      | false =>
          rw [@inPlace_of_not_handles _ _ functionalParticleExpressionReranker there isExpression]
          cases isShika : shikaReranker.handles segment.key with
          | true =>
              rw [firstConversion_inPlace shikaReranker there]
              exact .inl ⟨shikaReranker,
                List.mem_cons_of_mem _ (List.mem_cons_of_mem _ List.mem_cons_self), isShika, rfl⟩
          | false =>
              rw [inPlace_of_not_handles there isShika, there]
              refine .inr ⟨?_, rfl⟩
              simp only [rerankers, List.forall_mem_cons]
              exact ⟨isParticle, isExpression, isShika, fun _ absent => nomatch absent⟩

/-- Two rerankers for one key are the same. -/
theorem handles_unique {reranker other : Reranker} (member : reranker ∈ rerankers)
    (isOther : other ∈ rerankers) {key : ByteString} (handles : reranker.handles key = true)
    (otherHandles : other.handles key = true) : reranker = other := by
  obtain ⟨particle, expression⟩ := handles_disjoint key
  simp only [rerankers, List.mem_cons, List.not_mem_nil, or_false] at member isOther
  have notExpression : isParticleReading key = true →
      isFunctionalParticleExpressionKey key ≠ true := fun h => by simp [(particle h).1]
  have notShika : isParticleReading key = true → shikaReranker.handles key ≠ true :=
    fun h => by simp [(particle h).2]
  have notShika' : isFunctionalParticleExpressionKey key = true →
      shikaReranker.handles key ≠ true := fun h => by simp [expression h]
  rcases member with rfl | rfl | rfl <;> rcases isOther with rfl | rfl | rfl
  · rfl
  · exact absurd otherHandles (notExpression handles)
  · exact absurd otherHandles (notShika handles)
  · exact absurd handles (notExpression otherHandles)
  · rfl
  · exact absurd otherHandles (notShika' handles)
  · exact absurd handles (notShika otherHandles)
  · exact absurd handles (notShika' otherHandles)
  · rfl

/-- **The first conversion segment** becomes what the reranker for its key makes of it, and stays as
it is when there is none. -/
theorem firstConversion_rerank_eq (there : segments.firstConversion = some segment) :
    (∀ reranker ∈ rerankers, reranker.handles segment.key = true →
      (rerank segments).firstConversion = some (reranker.rerankSegment segments 0 segment)) ∧
    ((∀ reranker ∈ rerankers, reranker.handles segment.key = false) →
      (rerank segments).firstConversion = some segment) := by
  rw [firstConversion_rerank there]
  rcases firstConversion_rerankConversionSegment there with
    ⟨reranker, member, handles, becomes⟩ | ⟨none, stays⟩
  · refine ⟨fun other isOther otherHandles => ?_, fun none => ?_⟩
    · obtain rfl := handles_unique member isOther handles otherHandles
      exact becomes
    · rw [none reranker member] at handles
      cases handles
  · refine ⟨fun other isOther otherHandles => ?_, fun _ => stays⟩
    rw [none other isOther] at otherHandles
    cases otherHandles

/-- Two conversions with the same first two conversion segments and the same history segment right
before them. -/
structure Agree (S T : Segments) : Prop where
  first : S.firstConversion = T.firstConversion
  next : S[S.historySegmentsSize + 1]? = T[T.historySegmentsSize + 1]?
  lastHistory : (S.take S.historySegmentsSize).getLast? =
    (T.take T.historySegmentsSize).getLast?

/-- What is behind the first segment decides in the same way. -/
theorem Agree.nextFits (agree : Agree S T) {reranker : Reranker} (member : reranker ∈ rerankers) :
    reranker.nextFits S 0 = reranker.nextFits T 0 := by
  have size : ∀ R : Segments, 0 + 1 ≥ R.conversionSegmentsSize ↔
      R[R.historySegmentsSize + 1]? = none := by
    intro R
    rw [List.getElem?_eq_none_iff, Segments.conversionSegmentsSize]
    omega
  have segment : S.conversionSegment (0 + 1) = T.conversionSegment (0 + 1) := by
    simp only [Segments.conversionSegment, Segments.segment, List.getD_eq_getElem?_getD, Nat.zero_add,
      agree.next]
  have continues : nextContextLooksPhraseContinuation S 0 =
      nextContextLooksPhraseContinuation T 0 := by
    simp only [nextContextLooksPhraseContinuation, size, segment, agree.next]
  simp only [rerankers, List.mem_cons, List.not_mem_nil, or_false] at member
  rcases member with rfl | rfl | rfl
  · exact continues
  · rfl
  · rfl

theorem Agree.moves (agree : Agree S T) {reranker : Reranker} (member : reranker ∈ rerankers) :
    reranker.Moves S 0 segment ↔ reranker.Moves T 0 segment := by
  have next := agree.nextFits member
  exact ⟨fun ⟨handles, fits, functional, better⟩ => ⟨handles, next ▸ fits, functional, better⟩,
    fun ⟨handles, fits, functional, better⟩ => ⟨handles, next ▸ fits, functional, better⟩⟩

/-- Nothing but candidates of conversion segments is permuted, and the first conversion segment
depends only on what the two conversions agree on. -/
structure DependsOnNeighbours (S T : Segments) : Prop where
  permutes : OnlyPermutes S (rerank S)
  depends : Agree S T → (rerank S).firstConversion = (rerank T).firstConversion

/-- The context before the first conversion segment, which is looked for in the oldest history
segment, fits in both conversions or in none, where the reranker for its key has something to
move. -/
def SameOldestContext (S T : Segments) : Prop :=
  ∀ segment, S.firstConversion = some segment → ∀ reranker ∈ rerankers,
    reranker.Moves S 0 segment →
      reranker.previousFits S 0 segment.key = reranker.previousFits T 0 segment.key

/-- **The first conversion segment depends on its neighbours alone** exactly when the oldest history
segments make no difference. -/
theorem dependsOnNeighbours_iff (S T : Segments) :
    DependsOnNeighbours S T ↔ (Agree S T → SameOldestContext S T) := by
  constructor
  · intro holds agree segment there reranker member moves
    have thereT := agree.first ▸ there
    have handles := moves.handles
    have same := holds.depends agree
    rw [(firstConversion_rerank_eq there).1 reranker member handles,
      (firstConversion_rerank_eq thereT).1 reranker member handles] at same
    have movesT := (agree.moves member).1 moves
    have changed := @Reranker.rerankSegment_ne_iff reranker S 0 segment
    have changedT := @Reranker.rerankSegment_ne_iff reranker T 0 segment
    rw [and_iff_right moves] at changed
    rw [and_iff_right movesT, ← Option.some.inj same] at changedT
    exact Bool.eq_iff_iff.2 (changed.symm.trans changedT)
  · intro sameContext
    refine ⟨onlyPermutes_rerank S, fun agree => ?_⟩
    cases there : S.firstConversion with
    | none =>
        rw [firstConversion_rerank_of_none there,
          firstConversion_rerank_of_none (agree.first ▸ there)]
    | some segment =>
        have thereT := agree.first ▸ there
        by_cases handled : ∃ reranker ∈ rerankers, reranker.handles segment.key = true
        · obtain ⟨reranker, member, handles⟩ := handled
          rw [(firstConversion_rerank_eq there).1 reranker member handles,
            (firstConversion_rerank_eq thereT).1 reranker member handles]
          by_cases moves : reranker.Moves S 0 segment
          · exact congrArg some (Reranker.rerankSegment_congr
              (sameContext agree segment there reranker member moves) (agree.nextFits member))
          · have movesT := mt (agree.moves member).2 moves
            rw [Reranker.rerankSegment_of_not_moves moves,
              Reranker.rerankSegment_of_not_moves movesT]
        · have none : ∀ reranker ∈ rerankers, reranker.handles segment.key = false :=
            fun reranker member => Bool.eq_false_iff.2 fun handles =>
              handled ⟨reranker, member, handles⟩
          rw [(firstConversion_rerank_eq there).2 none, (firstConversion_rerank_eq thereT).2 none]

/-- A history segment with one candidate. -/
def historyOf (value : List Char) : Segment :=
  { segmentType := .history
    candidates := [{ value := utf8 value }] }

/-- The key しか, with a noun as the first candidate. -/
def shikaSegment : Segment :=
  { key := utf8 ['し', 'か']
    candidates := [{ value := utf8 ['歯', '科'] },
      { value := utf8 ['し', 'か'], contentValue := utf8 ['し', 'か'], cost := 100 }] }

/-- After 人 the expression comes first, but not when an older history segment is kana. -/
theorem not_dependsOnNeighbours : ¬ ∀ S T : Segments, DependsOnNeighbours S T := by
  intro claim
  have same := (claim [historyOf ['は'], historyOf ['人'], shikaSegment]
    [historyOf ['人'], shikaSegment]).depends ⟨rfl, rfl, rfl⟩
  revert same
  decide

end Main

end Mozkey.Engine.ContextualCandidateReranker
