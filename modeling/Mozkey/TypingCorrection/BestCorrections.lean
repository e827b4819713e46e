import Mozkey.TypingCorrection.RomanTypingCorrector

/-!
# The best corrections of an input

What `RomanTypingCorrector::Generate` is for can be said without its loops.  A correction
by one edit replaces an occurrence of a rule's wrong text, swaps two adjacent keys, takes a
neighbouring key or drops a repeated one.  The corrections that change the input within the
cost limit are reduced to the best one for each text, and the best of these are returned.

Everything that ranks a hypothesis is its text, its cost and two flags, so the ranks that are
returned depend on the set of the rules only.
-/

namespace Mozkey.TypingCorrection

open Mozkey.Lib

/-! ## Corrections by one edit -/

/-- The corrections of `raw` by one edit. -/
inductive SingleEdit (rules : List RomanRule) (raw : ByteString) : Hypothesis → Prop
  | whole (rule : RomanRule) (known : rule ∈ rules) (some_ : rule.wrong ≠ [])
      (changes : rule.wrong ≠ rule.corrected) (only : rule.wholeInputOnly = true)
      (same : raw = rule.wrong) :
      SingleEdit rules raw (makeHypothesis raw 0 raw.length rule.corrected rule.operation
        rule.cost rule.autoApplicable rule.ruleId)
  | occurrence (rule : RomanRule) (known : rule ∈ rules) (some_ : rule.wrong ≠ [])
      (changes : rule.wrong ≠ rule.corrected) (place : rule.wholeInputOnly = false)
      (before behind : ByteString) (found : raw = before ++ (rule.wrong ++ behind)) :
      SingleEdit rules raw (makeHypothesis raw before.length rule.wrong.length rule.corrected
        rule.operation rule.cost rule.autoApplicable rule.ruleId)
  | transposed (before behind : ByteString) (first second : UInt8)
      (lower : isLowerAscii first = true ∧ isLowerAscii second = true) (differ : first ≠ second)
      (found : raw = before ++ first :: second :: behind) :
      SingleEdit rules raw (makeHypothesis raw before.length 2 [second, first]
        .adjacentTranspose 100 false (ascii "GEN-TRANSPOSE"))
  | neighbor (before behind : ByteString) (key near : UInt8) (lower : isLowerAscii key = true)
      (neighbors : near ∈ qwertyNeighbors key) (found : raw = before ++ key :: behind) :
      SingleEdit rules raw (makeHypothesis raw before.length 1 [near]
        .neighborSubstitution 120 false (ascii "GEN-QWERTY"))
  | duplicate (before behind : ByteString) (key : UInt8) (lower : isLowerAscii key = true)
      (found : raw = before ++ key :: key :: behind) :
      SingleEdit rules raw (makeHypothesis raw (before.length + 1) 1 []
        .duplicateRemoval 110 false (ascii "GEN-DUPLICATE"))

section Edits

variable {rules : List RomanRule} {raw : ByteString} {h : Hypothesis}

/-- A text around one of its places. -/
theorem split_at {i : Nat} (inside : i < raw.length) :
    raw = raw.take i ++ byteAt raw i :: raw.drop (i + 1) := by
  have here : byteAt raw i = raw[i] := by
    unfold byteAt
    exact List.getD_eq_getElem _ _ inside
  rw [here, ← List.drop_eq_getElem_cons inside, List.take_append_drop]

theorem byteAt_append_cons (before behind : ByteString) (key : UInt8) :
    byteAt (before ++ key :: behind) before.length = key := by
  unfold byteAt
  rw [List.getD_append_right _ _ _ _ le_rfl, Nat.sub_self, List.getD_cons_zero]

theorem byteAt_append_cons_succ (before behind : ByteString) (key next : UInt8) :
    byteAt (before ++ key :: next :: behind) (before.length + 1) = next := by
  have moved := byteAt_append_cons (before ++ [key]) behind next
  rwa [List.length_append, List.append_assoc] at moved

/-- A text around two of its places. -/
theorem split_at_two {i : Nat} (inside : i + 1 < raw.length) :
    raw = raw.take i ++ byteAt raw i :: byteAt raw (i + 1) :: raw.drop (i + 2) := by
  have tail : raw.drop (i + 1) = byteAt raw (i + 1) :: raw.drop (i + 2) := by
    have dropped := congrArg (List.drop (i + 1)) (split_at inside)
    rwa [List.drop_left' (List.length_take_of_le (by omega))] at dropped
  rw [← tail]
  exact split_at (by omega)

theorem singleEdit_of_rule {rule : RomanRule} (known : rule ∈ rules)
    (offered : h ∈ ruleHypotheses raw rule) : SingleEdit rules raw h := by
  unfold ruleHypotheses at offered
  split at offered
  · exact absurd offered List.not_mem_nil
  rename_i useful
  obtain ⟨some_, changes⟩ := not_or.1 useful
  split at offered
  · rename_i only
    split at offered
    · exact absurd offered List.not_mem_nil
    rename_i same
    rw [List.mem_singleton.1 offered]
    exact .whole rule known some_ changes only (not_not.1 same)
  · rename_i place
    obtain ⟨position, found, rfl⟩ := List.mem_map.1 offered
    obtain ⟨i, at_, behind, here⟩ := (mem_positionsFrom some_).1 found
    rw [Nat.zero_add] at at_
    subst at_
    have inside : position ≤ raw.length := by
      by_contra outside
      rw [List.drop_eq_nil_of_le (by omega)] at here
      exact some_ (List.append_eq_nil_iff.1 here).1
    have length : (raw.take position).length = position := List.length_take_of_le inside
    have edit : SingleEdit rules raw _ := .occurrence rule known some_ changes
      (Bool.not_eq_true _ ▸ place) (raw.take position) behind
      (by rw [here, List.take_append_drop])
    rwa [length] at edit

theorem singleEdit_of_transpose {index : Nat} (inside : index < raw.length - 1)
    (offered : h ∈ transposeHypotheses raw index) : SingleEdit rules raw h := by
  unfold transposeHypotheses at offered
  dsimp only at offered
  split at offered
  · exact absurd offered List.not_mem_nil
  rename_i apt
  simp only [Bool.not_eq_true', not_or, Bool.not_eq_false] at apt
  have found := split_at_two (show index + 1 < raw.length by omega)
  have length : (raw.take index).length = index := List.length_take_of_le (by omega)
  have edit : SingleEdit rules raw _ := .transposed _ _ _ _ ⟨apt.1, apt.2.1⟩ apt.2.2 found
  rw [length] at edit
  rw [List.mem_singleton.1 offered]
  exact edit

theorem singleEdit_of_key {index : Nat} (inside : index < raw.length)
    (offered : h ∈ keyHypotheses raw index) : SingleEdit rules raw h := by
  unfold keyHypotheses at offered
  split at offered
  · exact absurd offered List.not_mem_nil
  rename_i lower
  rw [Bool.not_eq_true', Bool.not_eq_false] at lower
  rcases List.mem_append.1 offered with near | doubled
  · obtain ⟨neighbor, neighbors, rfl⟩ := List.mem_map.1 near
    have edit : SingleEdit rules raw _ :=
      .neighbor _ _ _ neighbor lower neighbors (split_at inside)
    rwa [List.length_take_of_le inside.le] at edit
  · split at doubled
    · rename_i repeated
      obtain ⟨positive, same⟩ := repeated
      obtain ⟨i, rfl⟩ : ∃ i, index = i + 1 := ⟨index - 1, by omega⟩
      rw [Nat.add_sub_cancel] at same
      have found := split_at_two inside
      rw [same] at found
      have edit : SingleEdit rules raw _ := .duplicate _ _ _ lower found
      rw [List.length_take_of_le (by omega)] at edit
      rw [List.mem_singleton.1 doubled]
      exact edit
    · exact absurd doubled List.not_mem_nil

/-- **The hypotheses that `Generate` offers are the corrections by one edit.** -/
theorem mem_singleEdits_iff : h ∈ singleEdits rules raw ↔ SingleEdit rules raw h := by
  unfold singleEdits
  rw [List.mem_append, List.mem_append, List.mem_flatMap, List.mem_flatMap, List.mem_flatMap]
  constructor
  · rintro (⟨rule, known, offered⟩ | ⟨index, inside, offered⟩ | ⟨index, inside, offered⟩)
    · exact singleEdit_of_rule known offered
    · exact singleEdit_of_transpose (List.mem_range.1 inside) offered
    · exact singleEdit_of_key (List.mem_range.1 inside) offered
  · intro edit
    cases edit with
    | whole rule known some_ changes only same =>
        refine .inl ⟨rule, known, ?_⟩
        unfold ruleHypotheses
        rw [if_neg (not_or.2 ⟨some_, changes⟩), if_pos only, if_neg (not_not.2 same)]
        exact List.mem_singleton_self _
    | occurrence rule known some_ changes place before behind found =>
        refine .inl ⟨rule, known, ?_⟩
        unfold ruleHypotheses
        rw [if_neg (not_or.2 ⟨some_, changes⟩), if_neg (Bool.not_eq_true _ ▸ place)]
        refine List.mem_map_of_mem (f := fun position => makeHypothesis raw position _ _ _ _ _ _) ?_
        refine (mem_positionsFrom some_).2 ⟨before.length, (Nat.zero_add _).symm, ?_⟩
        rw [found, List.drop_left]
        exact List.prefix_append _ _
    | transposed before behind first second lower differ found =>
        refine .inr (.inl ⟨before.length, ?_, ?_⟩)
        · rw [List.mem_range, found, List.length_append, List.length_cons, List.length_cons]
          omega
        · have here : byteAt raw before.length = first := by
            rw [found, byteAt_append_cons]
          have next : byteAt raw (before.length + 1) = second := by
            rw [found, byteAt_append_cons_succ]
          unfold transposeHypotheses
          dsimp only
          rw [here, next, if_neg (by simp [lower, differ])]
          exact List.mem_singleton_self _
    | neighbor before behind key near lower neighbors found =>
        refine .inr (.inr ⟨before.length, ?_, ?_⟩)
        · rw [List.mem_range, found, List.length_append, List.length_cons]
          omega
        · have here : byteAt raw before.length = key := by
            rw [found, byteAt_append_cons]
          unfold keyHypotheses
          rw [here, if_neg (by simp [lower])]
          exact List.mem_append_left _ (List.mem_map.2 ⟨near, neighbors, rfl⟩)
    | duplicate before behind key lower found =>
        refine .inr (.inr ⟨before.length + 1, ?_, ?_⟩)
        · rw [List.mem_range, found, List.length_append, List.length_cons, List.length_cons]
          omega
        · have here : byteAt raw before.length = key := by
            rw [found, byteAt_append_cons]
          have next : byteAt raw (before.length + 1) = key := by
            rw [found, byteAt_append_cons_succ]
          unfold keyHypotheses
          rw [next, if_neg (by simp [lower]), Nat.add_sub_cancel, here,
            if_pos ⟨Nat.succ_pos _, rfl⟩]
          exact List.mem_append_right _ (List.mem_singleton_self _)

end Edits

/-! ## The best correction for each text -/

/-- The corrections that compete: they change the input, within the cost limit. -/
def Admitted (rules : List RomanRule) (raw : ByteString) (limits : Limits) (h : Hypothesis) :
    Prop :=
  SingleEdit rules raw h ∧ h.correctedRaw ≠ raw ∧ h.editCost ≤ limits.maxEditCost

/-- All admitted hypotheses without duplicates: the best one for each text, best first. -/
structure BestOfEach (admitted : Hypothesis → Prop) (all : List Hypothesis) : Prop where
  sorted : all.Pairwise fun a b => isBetter a b = true
  distinct : (all.map Hypothesis.correctedRaw).Nodup
  sound : ∀ h ∈ all, admitted h
  best : ∀ h, admitted h → ∃ d ∈ all, d.correctedRaw = h.correctedRaw ∧ isBetter h d = false

/-- What a caller sees of a hypothesis. -/
def Hypothesis.outcome (h : Hypothesis) : ByteString × Int × Bool :=
  (h.correctedRaw, h.editCost, h.autoApplicable)

section Best

variable {admitted : Hypothesis → Prop} {all others : List Hypothesis}

theorem BestOfEach.rank_mem (first : BestOfEach admitted all) (second : BestOfEach admitted others)
    {h : Hypothesis} (member : h ∈ all) : rank h ∈ others.map rank := by
  obtain ⟨d, other, text, notWorse⟩ := second.best h (first.sound h member)
  obtain ⟨e, again, text', notWorse'⟩ := first.best d (second.sound d other)
  have same : e = h := List.inj_on_of_nodup_map first.distinct again member (text'.trans text)
  subst same
  have below := (not_better_iff isBetter_iff d e).1 notWorse
  have above := (not_better_iff isBetter_iff e d).1 notWorse'
  rw [le_antisymm above below]
  exact List.mem_map_of_mem other

theorem BestOfEach.sorted_rank (best : BestOfEach admitted all) :
    (all.map rank).Pairwise (· < ·) := by
  rw [List.pairwise_map]
  exact best.sorted.imp fun better => (isBetter_iff _ _).1 better

/-- The ranks are determined by what is admitted. -/
theorem BestOfEach.ranks_eq (first : BestOfEach admitted all)
    (second : BestOfEach admitted others) : all.map rank = others.map rank := by
  apply List.Pairwise.eq_of_mem_iff first.sorted_rank second.sorted_rank
  intro r
  constructor
  · intro member
    obtain ⟨h, known, rfl⟩ := List.mem_map.1 member
    exact first.rank_mem second known
  · intro member
    obtain ⟨h, known, rfl⟩ := List.mem_map.1 member
    exact second.rank_mem first known

theorem map_outcome (hypotheses : List Hypothesis) :
    hypotheses.map Hypothesis.outcome =
      (hypotheses.map rank).map fun r =>
        ((ofLex (ofLex (ofLex r).2).2).2, (ofLex (ofLex (ofLex r).2).2).1, !(ofLex r).1) := by
  rw [List.map_map]
  apply List.map_congr_left
  intro h _
  simp [Hypothesis.outcome, rank]

end Best

/-- **The candidates, sorted, are the best ones for each text.** -/
theorem bestOfEach_candidatesOf (rules : List RomanRule) (raw : ByteString) {limits : Limits}
    (one : limits.maxEdits = 1) :
    BestOfEach (Admitted rules raw limits) (sortBy isBetter (candidatesOf rules raw limits)) := by
  have selects := candidatesOf_selects rules raw limits
  have perm := sortBy_perm isBetter (candidatesOf rules raw limits)
  have admits : ∀ h, h ∈ singleEdits rules raw →
      (isCandidate raw limits h = true ↔
        h.correctedRaw ≠ raw ∧ h.editCost ≤ limits.maxEditCost) := by
    intro h offered
    have single := edits_length_of_mem_singleEdits offered
    have edits : h.edits ≠ [] := by
      rw [← List.length_pos_iff, single]
      exact Nat.one_pos
    simp [isCandidate, edits, single, one]
  refine ⟨?_, ?_, ?_, ?_⟩
  · have distinct : ((sortBy isBetter (candidatesOf rules raw limits)).map rank).Nodup :=
      (perm.map rank).nodup_iff.2 selects.ranks_distinct
    have sorted := sortBy_sorted isBetter_iff (candidatesOf rules raw limits)
    rw [List.Nodup, List.pairwise_map] at distinct
    refine (sorted.and distinct).imp ?_
    intro a b both
    exact (isBetter_iff a b).2 (lt_of_le_of_ne both.1 both.2)
  · exact (perm.map _).nodup_iff.2 selects.distinct
  · intro h member
    obtain ⟨offered, candidate⟩ := selects.mem h (perm.subset member)
    exact ⟨mem_singleEdits_iff.1 offered, (admits h offered).1 candidate⟩
  · rintro h ⟨edit, apt⟩
    have offered := mem_singleEdits_iff.2 edit
    obtain ⟨d, member, text, below⟩ := selects.covers h offered ((admits h offered).2 apt)
    exact ⟨d, perm.symm.subset member, text, (not_better_iff isBetter_iff d h).2 below⟩

/-- The empty input has no corrections. -/
theorem not_singleEdit_nil {rules : List RomanRule} {h : Hypothesis} :
    ¬ SingleEdit rules [] h := by
  intro edit
  cases edit with
  | whole rule known some_ changes only same => exact some_ same.symm
  | occurrence rule known some_ changes place before behind found => simp_all
  | transposed before behind first second lower differ found => simp at found
  | neighbor before behind key near lower neighbors found => simp at found
  | duplicate before behind key lower found => simp at found

/-- Outside of its limits `Generate` returns nothing. -/
theorem generate_idle (rules : List RomanRule) (raw : ByteString) {limits : Limits}
    (idle : ¬ limits.Searches) : generate rules raw limits = [] := by
  by_contra some_
  obtain ⟨h, member⟩ := List.exists_mem_of_ne_nil _ some_
  exact idle (mem_candidatesOf_of_mem_generate member).2.1

theorem generate_eq_take (rules : List RomanRule) (raw : ByteString) {limits : Limits}
    (searches : limits.Searches) :
    ∃ all, BestOfEach (Admitted rules raw limits) all ∧
      generate rules raw limits = all.take limits.maxRawHypotheses := by
  by_cases some_ : raw = []
  · subst some_
    refine ⟨[], ⟨.nil, List.nodup_nil, by simp, ?_⟩, ?_⟩
    · rintro h ⟨edit, -⟩
      exact absurd edit not_singleEdit_nil
    · rw [List.take_nil]
      by_contra given
      obtain ⟨h, member⟩ := List.exists_mem_of_ne_nil _ given
      exact (mem_candidatesOf_of_mem_generate member).1 rfl
  · exact ⟨_, bestOfEach_candidatesOf rules raw searches.1, generate_eq rules some_ searches⟩

/-- The order of the rules makes no difference to what is admitted. -/
theorem singleEdit_congr {rules others : List RomanRule} {raw : ByteString} {h : Hypothesis}
    (same : ∀ rule, rule ∈ rules → rule ∈ others) (edit : SingleEdit rules raw h) :
    SingleEdit others raw h := by
  cases edit with
  | whole rule known some_ changes only equal =>
      exact .whole rule (same rule known) some_ changes only equal
  | occurrence rule known some_ changes place before behind found =>
      exact .occurrence rule (same rule known) some_ changes place before behind found
  | transposed before behind first second lower differ found =>
      exact .transposed before behind first second lower differ found
  | neighbor before behind key near lower neighbors found =>
      exact .neighbor before behind key near lower neighbors found
  | duplicate before behind key lower found => exact .duplicate before behind key lower found

theorem outcomes_perm {rules others : List RomanRule} (raw : ByteString) (limits : Limits)
    (perm : rules.Perm others) :
    (generate others raw limits).map Hypothesis.outcome =
      (generate rules raw limits).map Hypothesis.outcome := by
  by_cases searches : limits.Searches
  · obtain ⟨all, best, taken⟩ := generate_eq_take rules raw searches
    obtain ⟨all', best', taken'⟩ := generate_eq_take others raw searches
    have admitted : Admitted others raw limits = Admitted rules raw limits := by
      funext h
      exact propext <| and_congr_left' ⟨singleEdit_congr fun _ known => perm.symm.subset known,
        singleEdit_congr fun _ known => perm.subset known⟩
    rw [admitted] at best'
    have ranks : (all'.take limits.maxRawHypotheses).map rank =
        (all.take limits.maxRawHypotheses).map rank := by
      rw [List.map_take, List.map_take, best'.ranks_eq best]
    rw [taken, taken', map_outcome, map_outcome, ranks]
  · rw [generate_idle rules raw searches, generate_idle others raw searches]

/-- **The result of `Generate`.**  With one edit and a cost limit that is not negative, it is
the start of the best corrections for each text; with other limits it is empty.  It is sorted
and has no text twice, the input is not among its texts, and what a caller sees of it does not
depend on the order of the rules. -/
theorem generate_best (rules : List RomanRule) (raw : ByteString) (limits : Limits) :
    (limits.Searches → ∃ all, BestOfEach (Admitted rules raw limits) all ∧
      generate rules raw limits = all.take limits.maxRawHypotheses) ∧
    (¬ limits.Searches → generate rules raw limits = []) ∧
    ((generate rules raw limits).Pairwise fun a b => isBetter a b = true) ∧
    ((generate rules raw limits).map Hypothesis.correctedRaw).Nodup ∧
    (∀ h ∈ generate rules raw limits, h.correctedRaw ≠ raw) ∧
    ∀ others, rules.Perm others →
      (generate others raw limits).map Hypothesis.outcome =
        (generate rules raw limits).map Hypothesis.outcome := by
  refine ⟨generate_eq_take rules raw, generate_idle rules raw, ?_⟩
  have rest : ((generate rules raw limits).Pairwise fun a b => isBetter a b = true) ∧
      ((generate rules raw limits).map Hypothesis.correctedRaw).Nodup ∧
      ∀ h ∈ generate rules raw limits, h.correctedRaw ≠ raw := by
    by_cases searches : limits.Searches
    · obtain ⟨all, best, taken⟩ := generate_eq_take rules raw searches
      rw [taken]
      have kept := List.take_sublist limits.maxRawHypotheses all
      exact ⟨best.sorted.sublist kept, best.distinct.sublist (kept.map _),
        fun h member => (best.sound h (kept.subset member)).2.1⟩
    · rw [generate_idle rules raw searches]
      simp
  exact ⟨rest.1, rest.2.1, rest.2.2, fun others perm => outcomes_perm raw limits perm⟩

/-- With two edits allowed the swapped keys of `ab` are admitted, and nothing is returned. -/
theorem not_generate_best : ¬ ∀ (rules : List RomanRule) (raw : ByteString) (limits : Limits),
    ∃ all, BestOfEach (Admitted rules raw limits) all ∧
      generate rules raw limits = all.take limits.maxRawHypotheses := by
  intro claim
  obtain ⟨all, best, taken⟩ := claim [] (ascii "ab") ⟨2, 20, 1000⟩
  have swapped : SingleEdit [] (ascii "ab") _ :=
    .transposed [] [] 0x61 0x62 ⟨rfl, rfl⟩ (by decide) rfl
  obtain ⟨d, member, -⟩ := best.best _ ⟨swapped, by decide, by decide⟩
  have none : all.take 20 = [] := taken.symm
  cases all with
  | nil => exact List.not_mem_nil member
  | cons first rest => cases none

end Mozkey.TypingCorrection
