import Mozkey.Rewriter.ForgetCandidate
import Mozkey.Rewriter.SegmentRanking

/-!
# What ranking keeps

Sorting goes through the best scores.  At every time the candidates are those that were promoted, in
the order of their scores, and behind them the others in their old order.

`rewriteLosesNothing_iff` is the main result: sorting keeps every candidate for any number of meta
candidates, but each of them is scored exactly once only if there are none, one, ten or eleven.
-/

namespace Mozkey.Rewriter

open Mozkey.Lib Mozkey.Converter

/-! ## What ranking should do -/

/-- The candidate that an index leads to, where a meta candidate that is not there is the first one. -/
def resolve (segment : Segment) : Int → Int
  | .ofNat i => .ofNat i
  | .negSucc i => .negSucc (if i ≥ segment.metaCandidates.length then 0 else i)

/-- Every candidate and every meta candidate is scored in exactly one round. -/
def ScoresOnce (segment : Segment) (indices : List Int) : Prop :=
  ∀ i, segment.IsValidIndex i → (indices.map (resolve segment)).count i = 1

/-- A candidate that a score brought to the front. -/
structure Promotion where
  entry : ScoreCandidate
  candidate : Candidate
  isNew : Bool

/-- The old candidates among the promoted ones. -/
def movedCandidates (promotions : List Promotion) : List Candidate :=
  (promotions.filter fun p => !p.isNew).map Promotion.candidate

variable (forms : CharacterFormManager)

/-- The value that is promoted is that of the score, in the character form that is wanted. -/
def Promotion.Represents (p : Promotion) : Prop :=
  ∃ (segment : Segment) (n : Int), (segment.candidate n).value = p.entry.candidate.value ∧
    normalizeCandidate forms segment n = p.candidate.value

/-- **What sorting should do**: the promoted candidates stand in front, and nothing is lost. -/
structure IsReranking (scores : List ScoreCandidate) (old new : List Candidate)
    (promotions : List Promotion) (rest : List Candidate) : Prop where
  front : new = promotions.map Promotion.candidate ++ rest
  once : old.Perm (movedCandidates promotions ++ rest)
  inOrder : rest.Sublist old
  few : promotions.length ≤ 5
  distinct : (promotions.map fun p => p.candidate.value).Nodup
  entries : (promotions.map Promotion.entry).Sublist scores
  represents : ∀ p ∈ promotions, p.Represents forms
  decreasing : promotions.Pairwise fun a b => b.entry.score.score ≤ a.entry.score.score
  gap : ∀ top ∈ scores.head?, ∀ p ∈ promotions,
    top.score.score.toNat ≤ p.entry.score.score.toNat + 20

/-- The candidates were reranked by the scores. -/
def Reranked (scores : List ScoreCandidate) (old new : List Candidate) : Prop :=
  ∃ promotions rest, IsReranking forms scores old new promotions rest

/-- Ranking a segment by scores for its indices loses nothing. -/
structure LosesNothing (segment : Segment) (indices : List Int) (scores : List ScoreCandidate) :
    Prop where
  scored : ScoresOnce segment indices
  sorted : scores ≠ [] → ∃ result, sortCandidates forms (sortScores scores) segment = (true, result) ∧
    Reranked forms (sortScores scores) segment.candidates result.candidates

/-! ## Moving to the front -/

theorem insertIdx_append_length {α : Type*} (front rest : List α) (x : α) :
    (front ++ rest).insertIdx front.length x = front ++ x :: rest := by
  induction front with
  | nil => rfl
  | cons a front ih =>
      rw [List.cons_append, List.length_cons, List.insertIdx_succ_cons, ih, List.cons_append]

theorem insertCandidate_front {segment : Segment} {front rest : List Candidate}
    (split : segment.candidates = front ++ rest) (candidate : Candidate) :
    (insertCandidate segment front.length candidate).candidates = front ++ candidate :: rest := by
  have length : front.length ≤ segment.candidates.length := by
    rw [split, List.length_append]
    exact Nat.le_add_right _ _
  simp only [insertCandidate, if_neg (Nat.not_lt.2 length)]
  rw [split, insertIdx_append_length]

theorem moveCandidate_front {segment : Segment} {front rest : List Candidate}
    (split : segment.candidates = front ++ rest) {i : Nat} (inside : i < rest.length) :
    (moveCandidate segment (.ofNat (front.length + i)) front.length).candidates
      = front ++ rest[i] :: rest.eraseIdx i := by
  have length : segment.candidates.length = front.length + rest.length := by
    rw [split, List.length_append]
  simp only [moveCandidate]
  split
  · next stays =>
    obtain rfl : i = 0 := by omega
    obtain ⟨first, others, rfl⟩ := List.exists_cons_of_length_pos inside
    exact split
  · next moves =>
    have here : segment.candidates.getD (front.length + i) {} = rest[i] := by
      rw [List.getD_eq_getElem?_getD, split, List.getElem?_append_right (Nat.le_add_right _ _),
        Nat.add_sub_cancel_left, List.getElem?_eq_getElem inside, Option.getD_some]
    dsimp only
    rw [here, split, List.eraseIdx_append_of_length_le (Nat.le_add_right _ _), Nat.add_sub_cancel_left,
      insertIdx_append_length]

@[simp] theorem metaCandidates_insertCandidate (segment : Segment) (i : Nat) (candidate : Candidate) :
    (insertCandidate segment i candidate).metaCandidates = segment.metaCandidates := rfl

@[simp] theorem metaCandidates_moveCandidate (segment : Segment) (oldIdx : Int) (newIdx : Nat) :
    (moveCandidate segment oldIdx newIdx).metaCandidates = segment.metaCandidates := by
  cases oldIdx with
  | ofNat i =>
      rw [moveCandidate]
      split <;> rfl
  | negSucc i => rfl

/-! ## Where a value stands -/

/-- The place of a value: the first candidate that has it, or else a meta candidate. -/
theorem getSameValueCandidatePosition_spec {segment : Segment} {candidate : Candidate}
    (known : candidate.value ∈ segment.candidates.map Candidate.value ∨
      candidate.value ∈ segment.metaCandidates.map Candidate.value) :
    (∃ (i : Nat) (inside : i < segment.candidates.length),
      getSameValueCandidatePosition segment candidate = some (.ofNat i) ∧
        segment.candidates[i].value = candidate.value) ∨
    (∃ (i : Nat) (inside : i < segment.metaCandidates.length),
      getSameValueCandidatePosition segment candidate = some (.negSucc i) ∧
        segment.metaCandidates[i].value = candidate.value ∧
          candidate.value ∉ segment.candidates.map Candidate.value) := by
  rw [getSameValueCandidatePosition]
  cases found : segment.candidates.findIdx? fun other => other.value = candidate.value with
  | some i =>
      obtain ⟨inside, here, _⟩ := List.findIdx?_eq_some_iff_getElem.1 found
      exact .inl ⟨i, inside, rfl, of_decide_eq_true here⟩
  | none =>
      have missing : candidate.value ∉ segment.candidates.map Candidate.value := by
        rintro member
        obtain ⟨other, inList, same⟩ := List.mem_map.1 member
        have := List.findIdx?_eq_none_iff.1 found other inList
        exact absurd same (of_decide_eq_false this)
      obtain ⟨other, inMeta, same⟩ := List.mem_map.1 (known.resolve_left missing)
      cases foundMeta : segment.metaCandidates.findIdx? fun other => other.value = candidate.value with
      | some i =>
          obtain ⟨inside, here, _⟩ := List.findIdx?_eq_some_iff_getElem.1 foundMeta
          exact .inr ⟨i, inside, rfl, of_decide_eq_true here, missing⟩
      | none =>
          have := List.findIdx?_eq_none_iff.1 foundMeta other inMeta
          exact absurd same (of_decide_eq_false this)

/-! ## One round -/

/-- What holds at every time: the promoted candidates stand in front, and behind them those of the
old ones that were not promoted. -/
structure SortInvariant (old metas : List Candidate) (state : SortState) (promotions : List Promotion)
    (rest : List Candidate) : Prop where
  front : state.segment.candidates = promotions.map Promotion.candidate ++ rest
  metaCandidates : state.segment.metaCandidates = metas
  nextPos : state.nextPos = promotions.length
  seen : ∀ v, v ∈ state.seen ↔ v ∈ promotions.map fun p => p.candidate.value
  once : old.Perm (movedCandidates promotions ++ rest)
  inOrder : rest.Sublist old
  distinct : (promotions.map fun p => p.candidate.value).Nodup

theorem movedCandidates_subset (promotions : List Promotion) :
    movedCandidates promotions ⊆ promotions.map Promotion.candidate :=
  List.map_subset _ List.filter_sublist.subset

theorem movedCandidates_append (promotions : List Promotion) (p : Promotion) :
    movedCandidates (promotions ++ [p])
      = movedCandidates promotions ++ if p.isNew then [] else [p.candidate] := by
  rw [movedCandidates, List.filter_append, List.map_append]
  cases isNew : p.isNew <;> simp [isNew, movedCandidates]

namespace SortInvariant

variable {forms} {old metas : List Candidate} {state : SortState} {promotions : List Promotion}
  {rest : List Candidate} (inv : SortInvariant old metas state promotions rest)
include inv

/-- No old candidate is lost. -/
theorem old_subset : old ⊆ state.segment.candidates := by
  intro candidate member
  rw [inv.front]
  rcases List.mem_append.1 (inv.once.subset member) with moved | here
  · exact List.mem_append_left _ (movedCandidates_subset promotions moved)
  · exact List.mem_append_right _ here

theorem seen_append (p : Promotion) (v : ByteString) :
    v ∈ p.candidate.value :: state.seen
      ↔ v ∈ (promotions ++ [p]).map fun p => p.candidate.value := by
  rw [List.mem_cons, inv.seen, List.map_append, List.mem_append, List.map_singleton,
    List.mem_singleton, or_comm]

theorem distinct_append {p : Promotion} (unseen : p.candidate.value ∉ state.seen) :
    ((promotions ++ [p]).map fun p => p.candidate.value).Nodup := by
  rw [inv.seen] at unseen
  rw [List.map_append, List.map_singleton]
  exact inv.distinct.append (List.nodup_singleton _)
    (List.disjoint_singleton.2 unseen)

/-- A candidate with a value that was not promoted is moved to the front. -/
theorem promote {i : Nat} (inside : i < state.segment.candidates.length)
    (unseen : state.segment.candidates[i].value ∉ state.seen) (entry : ScoreCandidate) :
    ∃ rest', SortInvariant old metas
      ⟨moveCandidate state.segment (.ofNat i) state.nextPos, state.nextPos + 1,
        state.segment.candidates[i].value :: state.seen⟩
      (promotions ++ [⟨entry, state.segment.candidates[i], false⟩]) rest' := by
  have split := inv.front
  have length : (promotions.map Promotion.candidate).length = promotions.length := List.length_map _
  have behind : promotions.length ≤ i := by
    by_contra before
    refine unseen ((inv.seen _).2 ?_)
    have insideFront : i < (promotions.map Promotion.candidate).length := by omega
    have here : state.segment.candidates[i] = (promotions.map Promotion.candidate)[i] := by
      rw [List.getElem_of_eq split, List.getElem_append_left insideFront]
    rw [here, List.getElem_map]
    exact List.mem_map_of_mem (List.getElem_mem _)
  obtain ⟨j, rfl⟩ := Nat.exists_eq_add_of_le behind
  have insideRest : j < rest.length := by
    rw [split, List.length_append, length] at inside
    omega
  have here : state.segment.candidates[promotions.length + j] = rest[j] := by
    rw [List.getElem_of_eq split, List.getElem_append_right (by omega)]
    congr 1
    omega
  refine ⟨rest.eraseIdx j, ?_, ?_, ?_, inv.seen_append ⟨entry, _, false⟩, ?_, ?_,
    inv.distinct_append unseen⟩
  · have moved := moveCandidate_front split insideRest
    rw [length, ← inv.nextPos] at moved
    rw [here, inv.nextPos, ← inv.nextPos, moved]
    simp
  · rw [metaCandidates_moveCandidate, inv.metaCandidates]
  · rw [List.length_append, List.length_singleton, inv.nextPos]
  · rw [movedCandidates_append, if_neg Bool.false_ne_true, List.append_assoc]
    refine inv.once.trans (List.Perm.append_left _ ?_)
    rw [here]
    exact (List.getElem_cons_eraseIdx_perm insideRest).symm
  · exact (List.eraseIdx_sublist rest j).trans inv.inOrder

/-- A candidate with a value that was not promoted is inserted at the front. -/
theorem promoteNew {candidate : Candidate} (unseen : candidate.value ∉ state.seen)
    (entry : ScoreCandidate) :
    SortInvariant old metas
      ⟨insertCandidate state.segment state.nextPos candidate, state.nextPos + 1,
        candidate.value :: state.seen⟩
      (promotions ++ [⟨entry, candidate, true⟩]) rest := by
  have length : (promotions.map Promotion.candidate).length = promotions.length := List.length_map _
  refine ⟨?_, inv.metaCandidates, ?_, inv.seen_append ⟨entry, candidate, true⟩, ?_, inv.inOrder,
    inv.distinct_append unseen⟩
  · have inserted := insertCandidate_front inv.front candidate
    rw [length, ← inv.nextPos] at inserted
    rw [inserted]
    simp
  · rw [List.length_append, List.length_singleton, inv.nextPos]
  · rw [movedCandidates_append, if_pos rfl, List.append_nil]
    exact inv.once

/-- **The place of a known candidate**, and what moving it to the front does. -/
theorem position (entry : ScoreCandidate) (known : entry.candidate ∈ old ∨ entry.candidate ∈ metas) :
    ∃ position, getSameValueCandidatePosition state.segment entry.candidate = some position ∧
      (state.segment.candidate position).value = entry.candidate.value ∧
        (entry.candidate.value ∉ state.seen → ∃ p rest', p.entry = entry ∧
          p.candidate.value = entry.candidate.value ∧ SortInvariant old metas
            ⟨moveCandidate state.segment position state.nextPos, state.nextPos + 1,
              entry.candidate.value :: state.seen⟩ (promotions ++ [p]) rest') := by
  have knownValue : entry.candidate.value ∈ state.segment.candidates.map Candidate.value ∨
      entry.candidate.value ∈ state.segment.metaCandidates.map Candidate.value := by
    rw [inv.metaCandidates]
    exact known.imp (fun member => List.mem_map_of_mem (inv.old_subset member)) List.mem_map_of_mem
  rcases getSameValueCandidatePosition_spec knownValue with
    ⟨i, inside, found, same⟩ | ⟨i, inside, found, same, _⟩
  · refine ⟨.ofNat i, found, ?_, fun unseen => ?_⟩
    · rw [Segment.candidate, List.getD_eq_getElem?_getD, List.getElem?_eq_getElem inside,
        Option.getD_some, same]
    · rw [← same] at unseen ⊢
      obtain ⟨rest', inv'⟩ := inv.promote inside unseen entry
      exact ⟨_, rest', rfl, rfl, inv'⟩
  · have value : (state.segment.metaCandidates.getD i {}).value = entry.candidate.value := by
      rw [List.getD_eq_getElem?_getD, List.getElem?_eq_getElem inside, Option.getD_some, same]
    refine ⟨.negSucc i, found, ?_, fun unseen => ?_⟩
    · rw [Segment.candidate, Segment.metaCandidate, if_neg (Nat.not_le.2 inside), value]
    · rw [← value] at unseen ⊢
      exact ⟨_, rest, rfl, rfl, inv.promoteNew unseen entry⟩

/-- **One round** promotes a candidate, or leaves everything as it is. -/
theorem sortCandidate (entry : ScoreCandidate)
    (known : entry.candidate ∈ old ∨ entry.candidate ∈ metas) :
    ∃ state', sortCandidate forms state entry.candidate = some state' ∧
      (SortInvariant old metas state' promotions rest ∨
        ∃ p rest', p.entry = entry ∧ p.Represents forms ∧
          SortInvariant old metas state' (promotions ++ [p]) rest') := by
  obtain ⟨position, found, value, move⟩ := inv.position entry known
  rw [Rewriter.sortCandidate, found]
  dsimp only
  split
  · next differs =>
    cases foundNormalized : state.segment.candidates.findIdx? fun other =>
        other.value = normalizeCandidate forms state.segment position with
    | some i =>
        obtain ⟨inside, here, _⟩ := List.findIdx?_eq_some_iff_getElem.1 foundNormalized
        have same : state.segment.candidates[i].value = _ := of_decide_eq_true here
        dsimp only
        split
        · exact ⟨_, rfl, .inl inv⟩
        · next unseen =>
          rw [← same] at unseen ⊢
          obtain ⟨rest', inv'⟩ := inv.promote inside unseen entry
          exact ⟨_, rfl, .inr ⟨_, rest', rfl, ⟨state.segment, position, value, same.symm⟩, inv'⟩⟩
    | none =>
        have unseen : normalizeCandidate forms state.segment position ∉ state.seen := by
          rw [inv.seen]
          intro member
          obtain ⟨p, promoted, same⟩ := List.mem_map.1 member
          have inList : p.candidate ∈ state.segment.candidates := by
            rw [inv.front]
            exact List.mem_append_left _ (List.mem_map_of_mem promoted)
          have missing := List.findIdx?_eq_none_iff.1 foundNormalized _ inList
          exact absurd same (of_decide_eq_false missing)
        exact ⟨_, rfl, .inr ⟨_, rest, rfl, ⟨state.segment, position, value, rfl⟩,
          @promoteNew old metas state promotions rest inv
            (normalizedCandidate forms entry.candidate _) unseen entry⟩⟩
  · next same =>
    split
    · exact ⟨_, rfl, .inl inv⟩
    · next unseen =>
      obtain ⟨p, rest', isEntry, samePromoted, inv'⟩ := move unseen
      refine ⟨_, rfl, .inr ⟨p, rest', isEntry, ⟨state.segment, position, ?_, ?_⟩, inv'⟩⟩
      · rw [isEntry, value]
      · rw [samePromoted, not_not.1 same]

end SortInvariant

/-! ## The loop -/

/-- **The loop** promotes candidates for some of the scores, each of them close to the top score. -/
theorem sortLoop_spec (topScore : UInt32) {old metas : List Candidate}
    {entries : List ScoreCandidate}
    (known : ∀ entry ∈ entries, entry.candidate ∈ old ∨ entry.candidate ∈ metas)
    {state : SortState} {promotions : List Promotion} {rest : List Candidate}
    (inv : SortInvariant old metas state promotions rest) :
    ∃ state' promoted rest', sortLoop forms topScore entries state = (true, state'.segment) ∧
      SortInvariant old metas state' (promotions ++ promoted) rest' ∧
        (promoted.map Promotion.entry).Sublist entries ∧
          ∀ p ∈ promoted, p.Represents forms ∧ topScore - p.entry.score.score ≤ kScoreGap := by
  induction entries generalizing state promotions rest with
  | nil => exact ⟨state, [], rest, rfl, by rwa [List.append_nil], List.nil_sublist _, by simp⟩
  | cons entry entries ih =>
      rw [sortLoop]
      split
      · exact ⟨state, [], rest, rfl, by rwa [List.append_nil], List.nil_sublist _, by simp⟩
      · next close =>
        obtain ⟨next, ran, step⟩ := inv.sortCandidate entry (known _ (List.mem_cons_self ..))
        have knownRest : ∀ other ∈ entries, other.candidate ∈ old ∨ other.candidate ∈ metas :=
          fun other member => known _ (List.mem_cons_of_mem _ member)
        rw [ran]
        dsimp only
        rcases step with same | ⟨p, rest', isEntry, represents, moved⟩
        · obtain ⟨state', promoted, rest', done, after, sublist, all⟩ := ih knownRest same
          exact ⟨state', promoted, rest', done, after, sublist.cons _, all⟩
        · obtain ⟨state', promoted, rest', done, after, sublist, all⟩ := ih knownRest moved
          refine ⟨state', p :: promoted, rest', done, ?_, ?_, ?_⟩
          · rwa [List.append_assoc, List.singleton_append] at after
          · rw [List.map_cons, isEntry]
            exact sublist.cons_cons _
          · rw [List.forall_mem_cons]
            refine ⟨⟨represents, ?_⟩, all⟩
            rw [isEntry]
            exact UInt32.not_lt.1 close

/-! ## Sorting -/

/-- The order of the scores: the higher score first, and then the later access. -/
def rank (entry : ScoreCandidate) : Lex (ℕᵒᵈ × ℕᵒᵈ) :=
  toLex (OrderDual.toDual entry.score.score.toNat, OrderDual.toDual entry.score.lastAccessTime.toNat)

theorem isGreater_iff (a b : ScoreCandidate) :
    a.score.isGreater b.score = true ↔ rank a < rank b := by
  rw [Score.isGreater, rank, rank, Prod.Lex.toLex_lt_toLex]
  simp only [OrderDual.toDual_lt_toDual, OrderDual.toDual_inj, UInt32.toNat_inj]
  split
  · next same => simp [same, UInt32.lt_iff_toNat_lt]
  · next differs => simp [differs, UInt32.lt_iff_toNat_lt]

/-- The scores do not increase. -/
theorem sortScores_decreasing (scores : List ScoreCandidate) :
    (sortScores scores).Pairwise fun a b => b.score.score ≤ a.score.score := by
  refine (sortBy_sorted isGreater_iff scores).imp fun {a b} le => ?_
  rw [rank, rank, Prod.Lex.toLex_le_toLex] at le
  simp only [OrderDual.toDual_lt_toDual, OrderDual.toDual_inj, OrderDual.toDual_le_toDual] at le
  rw [UInt32.le_iff_toNat_le]
  omega

/-- **Sorting reranks the candidates**, whatever the scores are, if they are of candidates and meta
candidates of the segment. -/
theorem sortCandidates_reranked {scores : List ScoreCandidate} {segment : Segment}
    (known : ∀ entry ∈ scores, entry.candidate ∈ segment.candidates ∨
      entry.candidate ∈ segment.metaCandidates) (nonempty : scores ≠ []) :
    ∃ result, sortCandidates forms (sortScores scores) segment = (true, result) ∧
      Reranked forms (sortScores scores) segment.candidates result.candidates := by
  have perm := sortBy_perm (fun a b : ScoreCandidate => a.score.isGreater b.score) scores
  have decreasing := sortScores_decreasing scores
  have knownSorted : ∀ entry ∈ sortScores scores, entry.candidate ∈ segment.candidates ∨
      entry.candidate ∈ segment.metaCandidates := fun entry member => known entry (perm.subset member)
  cases sorted : sortScores scores with
  | nil =>
      refine absurd ?_ nonempty
      exact List.perm_nil.1 (perm.symm.trans (List.Perm.of_eq sorted))
  | cons top others =>
      rw [sorted] at decreasing knownSorted
      have start : SortInvariant segment.candidates segment.metaCandidates ⟨segment, 0, []⟩ []
          segment.candidates :=
        ⟨rfl, rfl, rfl, by simp, List.Perm.refl _, List.Sublist.refl _, List.nodup_nil⟩
      obtain ⟨state, promotions, rest, ran, inv, sublist, all⟩ :=
        sortLoop_spec forms top.score.score
          (fun entry member => knownSorted entry (List.take_subset kMaxRerankSize _ member)) start
      rw [List.nil_append] at inv
      refine ⟨state.segment, ran, promotions, rest, inv.front, inv.once, inv.inOrder, ?_, inv.distinct,
        sublist.trans (List.take_sublist _ _), fun p member => (all p member).1, ?_, ?_⟩
      · have le := sublist.length_le
        rw [List.length_map, List.length_take] at le
        exact le.trans (Nat.min_le_left _ _)
      · exact List.pairwise_map.1 (decreasing.sublist (sublist.trans (List.take_sublist _ _)))
      · rintro _ ⟨⟩ p member
        have close := (all p member).2
        have inList : p.entry ∈ top :: others :=
          (sublist.trans (List.take_sublist _ _)).subset (List.mem_map_of_mem member)
        have below : p.entry.score.score ≤ top.score.score := by
          rcases List.mem_cons.1 inList with isTop | later
          · rw [isTop]
            exact UInt32.le_refl _
          · exact (List.pairwise_cons.1 decreasing).1 _ later
        rw [UInt32.le_iff_toNat_le, UInt32.toNat_sub_of_le _ _ below] at close
        change _ ≤ 20 at close
        rw [UInt32.le_iff_toNat_le] at below
        omega

/-! ## Scoring -/

/-- The indices of the rounds behind the candidates, for which the loop goes back by `shift`. -/
def metaIndices (shift count : Nat) : List Int :=
  (List.range count).map fun k : Nat => (k : Int) - shift

/-- The rounds of a loop over candidates and meta candidates. -/
theorem map_range_split (c m shift : Nat) :
    ((List.range (c + m)).map fun l : Nat =>
        if l ≥ c then (l : Int) - (c + shift : Nat) else l)
      = (List.range c).map Int.ofNat ++ metaIndices shift m := by
  rw [List.range_add, List.map_append, List.map_map, metaIndices]
  congr 1
  · apply List.map_congr_left
    intro l member
    rw [if_neg (Nat.not_le.2 (List.mem_range.1 member))]
    rfl
  · apply List.map_congr_left
    intro k _
    dsimp only [Function.comp]
    rw [if_pos (Nat.le_add_right _ _)]
    omega

theorem count_ofNat_range (c i : Nat) :
    ((List.range c).map Int.ofNat).count (Int.ofNat i) = if i < c then 1 else 0 := by
  rw [List.count_map_of_injective _ _ fun _ _ => Int.ofNat.inj, List.nodup_range.count]
  simp only [List.mem_range]

theorem count_negSucc_range (c i : Nat) :
    ((List.range c).map Int.ofNat).count (Int.negSucc i) = 0 := by
  rw [List.count_eq_zero]
  intro member
  obtain ⟨_, _, same⟩ := List.mem_map.1 member
  cases same

/-- Scoring comes to each candidate once, if the rounds behind the candidates come to each meta
candidate once, and only to meta candidates. -/
theorem scoresOnce_iff {segment : Segment} {indices : List Int} {shift : Nat}
    (split : indices = (List.range segment.candidates.length).map Int.ofNat
      ++ metaIndices shift segment.metaCandidates.length) :
    ScoresOnce segment indices ↔
      (∀ i < segment.candidates.length,
        ((metaIndices shift segment.metaCandidates.length).map (resolve segment)).count (.ofNat i) = 0) ∧
      ∀ i < segment.metaCandidates.length,
        ((metaIndices shift segment.metaCandidates.length).map (resolve segment)).count (.negSucc i)
          = 1 := by
  have front : ((List.range segment.candidates.length).map Int.ofNat).map (resolve segment)
      = (List.range segment.candidates.length).map Int.ofNat := by
    rw [List.map_map]
    rfl
  have counts : ∀ i, (indices.map (resolve segment)).count i
      = ((List.range segment.candidates.length).map Int.ofNat).count i
        + ((metaIndices shift segment.metaCandidates.length).map (resolve segment)).count i := by
    intro i
    rw [split, List.map_append, List.count_append, front]
  constructor
  · intro once
    refine ⟨fun i inside => ?_, fun i inside => ?_⟩
    · have one := once (.ofNat i) inside
      rw [counts, count_ofNat_range, if_pos inside] at one
      omega
    · have one := once (.negSucc i) inside
      rwa [counts, count_negSucc_range, Nat.zero_add] at one
  · rintro ⟨apart, once⟩ (i | i) valid
    · have inside : i < segment.candidates.length := valid
      rw [counts, count_ofNat_range, if_pos inside, apart i inside]
    · rw [counts, count_negSucc_range, Nat.zero_add]
      exact once i valid

/-- The numbers of meta candidates for which the loop over all segments is right. -/
def ScorableMetaCount (count : Nat) : Prop := count = 0 ∨ count = 1 ∨ count = 10 ∨ count = 11

instance (count : Nat) : Decidable (ScorableMetaCount count) := inferInstanceAs (Decidable (_ ∨ _))

/-- Where the rounds behind the candidates lead, for a number of meta candidates. -/
def resolvedMeta (count : Nat) : List Int :=
  (metaIndices numT13nTypes count).map fun
    | .ofNat i => .ofNat i
    | .negSucc i => .negSucc (if i ≥ count then 0 else i)

theorem map_resolve (segment : Segment) :
    (metaIndices numT13nTypes segment.metaCandidates.length).map (resolve segment)
      = resolvedMeta segment.metaCandidates.length := by
  apply List.map_congr_left
  intro i _
  cases i <;> rfl

/-- As long as there are no more meta candidates than transliterations, the rounds lead to meta
candidates. -/
theorem count_resolvedMeta_ofNat {count : Nat} (le : count ≤ 11) (i : Nat) :
    (resolvedMeta count).count (.ofNat i) = 0 := by
  rw [List.count_eq_zero]
  intro member
  obtain ⟨j, inList, same⟩ := List.mem_map.1 member
  obtain ⟨k, inRange, rfl⟩ := List.mem_map.1 inList
  have less := List.mem_range.1 inRange
  have negative : ((k : Int) - numT13nTypes) = .negSucc (10 - k) := by
    simp only [numT13nTypes]
    omega
  rw [negative] at same
  cases same

/-- **For how many meta candidates** each of them is come to once. -/
theorem resolvedMeta_once_iff {count : Nat} (le : count ≤ 11) :
    (∀ i < count, (resolvedMeta count).count (.negSucc i) = 1) ↔ ScorableMetaCount count := by
  have all : ∀ count < 12, ((∀ i < count, (resolvedMeta count).count (.negSucc i) = 1)
      ↔ ScorableMetaCount count) := by decide +kernel
  exact all count (Nat.lt_succ_of_le le)

/-- With more meta candidates than transliterations, the first candidate is scored twice. -/
theorem count_resolvedMeta_zero {count : Nat} (more : 11 < count) :
    (resolvedMeta count).count (.ofNat 0) ≠ 0 := by
  rw [Ne, List.count_eq_zero, not_not]
  refine List.mem_map.2 ⟨0, List.mem_map.2 ⟨11, List.mem_range.2 more, rfl⟩, rfl⟩

/-- **Scoring is right** exactly for none, one, ten or eleven meta candidates. -/
theorem scoresOnce_scoredIndices_iff {segment : Segment} (nonempty : segment.candidates ≠ []) :
    ScoresOnce segment (scoredIndices segment) ↔ ScorableMetaCount segment.metaCandidates.length := by
  have split : scoredIndices segment = _ := map_range_split _ _ numT13nTypes
  rw [scoresOnce_iff split, map_resolve]
  by_cases le : segment.metaCandidates.length ≤ 11
  · rw [resolvedMeta_once_iff le]
    exact and_iff_right fun i _ => count_resolvedMeta_ofNat le i
  · constructor
    · rintro ⟨apart, _⟩
      exact absurd (apart 0 (List.length_pos_iff.2 nonempty))
        (count_resolvedMeta_zero (Nat.lt_of_not_le le))
    · rintro (none_ | one | ten | eleven) <;> omega

/-- Going back by the number of meta candidates is right for all numbers of them. -/
theorem scoresOnce_numberIndices (segment : Segment) : ScoresOnce segment (numberIndices segment) := by
  have resolved : (metaIndices segment.metaCandidates.length segment.metaCandidates.length).map
      (resolve segment) = ((List.range segment.metaCandidates.length).reverse).map Int.negSucc := by
    have reversed := @List.reverse_range' 0 segment.metaCandidates.length
    rw [← List.range_eq_range'] at reversed
    rw [metaIndices, List.map_map, reversed, List.map_map]
    apply List.map_congr_left
    intro k member
    have less := List.mem_range.1 member
    have negative : ((k : Int) - segment.metaCandidates.length)
        = .negSucc (segment.metaCandidates.length - 1 - k) := by omega
    simp only [Function.comp, negative, resolve]
    rw [if_neg (by omega)]
    congr 1
    omega
  have split : numberIndices segment = _ := map_range_split _ _ segment.metaCandidates.length
  rw [scoresOnce_iff split, resolved]
  constructor
  · intro i _
    rw [List.count_eq_zero]
    intro member
    obtain ⟨_, _, same⟩ := List.mem_map.1 member
    cases same
  · intro i inside
    rw [List.count_map_of_injective _ _ fun _ _ => Int.negSucc.inj, List.count_reverse,
      List.nodup_range.count, if_pos (List.mem_range.2 inside)]

/-! ## Ranking one segment -/

/-- A candidate of an index that scoring leads to. -/
theorem candidate_known {segment : Segment} {i : Int} (valid : segment.IsValidIndex (resolve segment i)) :
    segment.candidate i ∈ segment.candidates ∨ segment.candidate i ∈ segment.metaCandidates := by
  cases i with
  | ofNat i =>
      have inside : i < segment.candidates.length := valid
      left
      rw [Segment.candidate, List.getD_eq_getElem?_getD, List.getElem?_eq_getElem inside,
        Option.getD_some]
      exact List.getElem_mem inside
  | negSucc i =>
      have inside : (if i ≥ segment.metaCandidates.length then 0 else i) < segment.metaCandidates.length :=
        valid
      right
      rw [Segment.candidate, Segment.metaCandidate, List.getD_eq_getElem?_getD,
        List.getElem?_eq_getElem inside, Option.getD_some]
      exact List.getElem_mem inside

/-- Where every valid index is come to once, in as many rounds as there are candidates and meta
candidates, only valid indices are come to. -/
theorem ScoresOnce.valid {segment : Segment} {indices : List Int} (once : ScoresOnce segment indices)
    (length : indices.length = segment.candidates.length + segment.metaCandidates.length) {i : Int}
    (member : i ∈ indices) : segment.IsValidIndex (resolve segment i) := by
  have all : ((List.range segment.candidates.length).map Int.ofNat
      ++ (List.range segment.metaCandidates.length).map Int.negSucc).Subperm
        (indices.map (resolve segment)) := by
    apply List.subperm_of_subset
    · rw [List.nodup_append]
      refine ⟨List.nodup_range.map fun _ _ => Int.ofNat.inj,
        List.nodup_range.map fun _ _ => Int.negSucc.inj, ?_⟩
      rintro _ first _ second rfl
      obtain ⟨_, _, rfl⟩ := List.mem_map.1 first
      obtain ⟨_, _, same⟩ := List.mem_map.1 second
      cases same
    · intro j inList
      have valid : segment.IsValidIndex j := by
        rcases List.mem_append.1 inList with inFront | inMeta
        · obtain ⟨_, inRange, rfl⟩ := List.mem_map.1 inFront
          exact List.mem_range.1 inRange
        · obtain ⟨_, inRange, rfl⟩ := List.mem_map.1 inMeta
          exact List.mem_range.1 inRange
      rw [← List.count_pos_iff, once j valid]
      exact Nat.one_pos
  have perm := all.perm_of_length_le (by simp [length])
  rcases List.mem_append.1 (perm.symm.subset (List.mem_map_of_mem member)) with inFront | inMeta
  · obtain ⟨_, inRange, same⟩ := List.mem_map.1 inFront
    rw [← same]
    exact List.mem_range.1 inRange
  · obtain ⟨_, inRange, same⟩ := List.mem_map.1 inMeta
    rw [← same]
    exact List.mem_range.1 inRange

/-- **A segment whose candidates are scored once loses nothing.** -/
theorem losesNothing_of_scoresOnce {segment : Segment} {indices : List Int}
    {scores : List ScoreCandidate} (once : ScoresOnce segment indices)
    (length : indices.length = segment.candidates.length + segment.metaCandidates.length)
    (scored : ∀ entry ∈ scores, ∃ i ∈ indices, entry.candidate = segment.candidate i) :
    LosesNothing forms segment indices scores where
  scored := once
  sorted := by
    apply sortCandidates_reranked
    intro entry member
    obtain ⟨i, inList, same⟩ := scored entry member
    rw [same]
    exact candidate_known (once.valid length inList)

variable (M : Modules)

theorem losesNothing_scoredIndices_iff (s : LruStorage) {segments : Segments} {i : Nat}
    (nonempty : (segments.segment i).candidates ≠ []) :
    LosesNothing forms (segments.segment i) (scoredIndices (segments.segment i))
        (scoreCandidates M s segments i)
      ↔ ScorableMetaCount (segments.segment i).metaCandidates.length := by
  rw [← scoresOnce_scoredIndices_iff nonempty]
  refine ⟨LosesNothing.scored, fun once => losesNothing_of_scoresOnce forms once ?_ ?_⟩
  · rw [scoredIndices, List.length_map, List.length_range]
  · intro entry member
    obtain ⟨j, inList, here⟩ := List.mem_filterMap.1 member
    refine ⟨j, inList, ?_⟩
    dsimp only at here
    split at here
    · rw [← Option.some.inj here]
    · cases here

theorem losesNothing_numberIndices (s : LruStorage) (segment : Segment) :
    LosesNothing forms segment (numberIndices segment) (scoreNumbers M s segment) := by
  refine losesNothing_of_scoresOnce forms (scoresOnce_numberIndices segment) ?_ ?_
  · rw [numberIndices, List.length_map, List.length_range]
  · intro entry member
    obtain ⟨j, inList, here⟩ := List.mem_filterMap.1 member
    refine ⟨j, inList, ?_⟩
    dsimp only at here
    split at here
    · rw [← Option.some.inj here]
    · cases here

/-! ## A whole conversion -/

/-- The segments when the loop of `Rewrite` comes to one of them. -/
def segmentsBefore (s : LruStorage) (request : ConversionRequest) (segments : Segments) (i : Nat) :
    Segments :=
  ((List.range' segments.historySegmentsSize (i - segments.historySegmentsSize)).foldl
    (rewriteStep forms M s request) (false, markBest segments)).2

/-- The segment is ranked as a number. -/
def RanksAsNumber (request : ConversionRequest) (segment : Segment) : Prop :=
  segment.segmentType ≠ .fixedValue ∧ isPunctuation M segment (segment.candidate 0) = false ∧
    isNumberSegment segment = true ∧ request.kanaModifierInsensitiveConversion = false

/-- The segment is ranked, and not as a number. -/
def RanksAsText (s : LruStorage) (segment : Segment) : Prop :=
  segment.segmentType ≠ .fixedValue ∧ isPunctuation M segment (segment.candidate 0) = false ∧
    isNumberSegment segment = false ∧ shouldRewrite M s segment = true

/-- **No segment that is ranked loses anything.** -/
def RewriteLosesNothing (s : LruStorage) (request : ConversionRequest) (segments : Segments) : Prop :=
  Rewrites request segments → ∀ i ∈ conversionIndices segments,
    let before := segmentsBefore forms M s request segments i
    let segment := before.segment i
    (RanksAsText M s segment →
      LosesNothing forms segment (scoredIndices segment) (scoreCandidates M s before i)) ∧
    (RanksAsNumber M request segment →
      LosesNothing forms segment (numberIndices segment) (scoreNumbers M s segment))

theorem segment_set_of_ne {segments : Segments} {i j : Nat} (differs : i ≠ j) (segment : Segment) :
    Segments.segment { segments with segments := segments.segments.set i segment } j
      = segments.segment j := by
  rw [Segments.segment, Segments.segment, List.getD_eq_getElem?_getD, List.getD_eq_getElem?_getD,
    List.getElem?_set_ne differs]

/-- The loop does not change a segment before it comes to it. -/
theorem segment_foldl_rewriteStep (s : LruStorage) (request : ConversionRequest) {indices : List Nat}
    {j : Nat} (missing : j ∉ indices) (state : Bool × Segments) :
    ((indices.foldl (rewriteStep forms M s request) state).2).segment j = state.2.segment j := by
  induction indices generalizing state with
  | nil => rfl
  | cons i indices ih =>
      rw [List.mem_cons, not_or] at missing
      rw [List.foldl_cons, ih missing.2, rewriteStep]
      exact segment_set_of_ne (Ne.symm missing.1) _

theorem segment_segmentsBefore (s : LruStorage) (request : ConversionRequest) (segments : Segments)
    (i : Nat) :
    (segmentsBefore forms M s request segments i).segment i = (markBest segments).segment i := by
  apply segment_foldl_rewriteStep
  intro member
  have := List.mem_range'_1.1 member
  omega

/-- A marker changes nothing of what the ranking of a segment depends on. -/
theorem segment_markBest (segments : Segments) (i : Nat) :
    (markBest segments).segment i = addAttributes (segments.segment i) kBestCandidate := by
  rw [Segments.segment, Segments.segment, markBest, List.getD_eq_getElem?_getD,
    List.getD_eq_getElem?_getD, List.getElem?_map]
  cases segments.segments[i]? <;> rfl

/-- **The history is only marked.**  A rewrite ranks the segments behind the history. -/
theorem segment_rewriteSegments_of_history (s : LruStorage) (request : ConversionRequest)
    {segments : Segments} {i : Nat} (isHistory : i < segments.historySegmentsSize) :
    (rewriteSegments forms M s request segments).2.segment i =
      if Rewrites request segments then addAttributes (segments.segment i) kBestCandidate
      else segments.segment i := by
  have missing : i ∉ conversionIndices segments := by
    intro member
    have behind := (List.mem_range'_1.1 member).1
    exact absurd behind (Nat.not_le.2 isHistory)
  unfold rewriteSegments
  split
  · rw [segment_foldl_rewriteStep forms M s request missing]
    exact segment_markBest segments i
  · rfl

theorem ranksAsText_addAttributes (s : LruStorage) (segment : Segment) (flags : UInt32) :
    RanksAsText M s (addAttributes segment flags) ↔ RanksAsText M s segment := by
  cases nonempty : segment.candidates with
  | nil =>
      have same : addAttributes segment flags = segment := by
        rw [addAttributes, nonempty, List.modifyHead_nil, ← nonempty]
      rw [same]
  | cons candidate candidates =>
      simp [RanksAsText, isPunctuation, isNumberSegment, shouldRewrite, addAttributes, Segment.candidate,
        nonempty, triggerSize]

/-- **Ranking loses nothing** exactly if each segment that is ranked, and not as a number, has none,
one, ten or eleven meta candidates. -/
theorem rewriteLosesNothing_iff (s : LruStorage) (request : ConversionRequest) (segments : Segments) :
    RewriteLosesNothing forms M s request segments ↔
      (Rewrites request segments → ∀ i ∈ conversionIndices segments,
        RanksAsText M s (segments.segment i) →
          ScorableMetaCount (segments.segment i).metaCandidates.length) := by
  refine imp_congr_right fun _ => forall₂_congr fun i _ => ?_
  dsimp only
  rw [and_iff_left fun _ => losesNothing_numberIndices forms M s _]
  have here := (segment_segmentsBefore forms M s request segments i).trans (segment_markBest segments i)
  rw [here, ranksAsText_addAttributes]
  refine imp_congr_right fun ranks => ?_
  have nonempty : (segments.segment i).candidates ≠ [] := by
    have should := ranks.2.2.2
    intro none_
    simp [shouldRewrite, none_] at should
  rw [← here]
  refine (losesNothing_scoredIndices_iff forms M s ?_).trans ?_
  · rw [here, addAttributes]
    intro none_
    rw [List.modifyHead_eq_nil_iff] at none_
    exact nonempty none_
  · rw [here]
    rfl

/-- All texts in the form they have. -/
def plainForms : CharacterFormManager where
  convertConversionString value := value
  numberForm := .noConversion

/-- The segment a with the candidate A and the meta candidates B and C. -/
def twoMetaCandidates : Segments where
  segments := [{ key := [97]
                 candidates := [{ key := [97], value := [65], contentKey := [97], contentValue := [65] }]
                 metaCandidates := [
                  { key := [97], value := [66], contentKey := [97], contentValue := [66] },
                  { key := [97], value := [67], contentKey := [97], contentValue := [67] }] }]

/-- The storage with a trigger for the key of the segment. -/
def keyTriggered : LruStorage :=
  LruMap.empty.insert (plainModules.fingerprint [97]) ⟨keyTriggerValue 1, 1000⟩

/-- **The second of two meta candidates is not scored**; both rounds score the first one. -/
theorem twoMetaCandidates_not_losesNothing :
    (∀ segment ∈ twoMetaCandidates.segments, segment.candidates ≠ []) ∧
      ¬ RewriteLosesNothing plainForms plainModules keyTriggered {} twoMetaCandidates := by
  refine ⟨by decide, fun all => ?_⟩
  have ranks : RanksAsText plainModules keyTriggered
      ((segmentsBefore plainForms plainModules keyTriggered {} twoMetaCandidates 0).segment 0) := by
    refine ⟨by decide, by decide, by decide, by decide +kernel⟩
  have scored := ((all (by decide) 0 (by decide)).1 ranks).scored (.negSucc 1) (by decide)
  exact absurd scored (by decide)

end Mozkey.Rewriter
