import Mozkey.Session.ZenzAdoptionPolicy

/-!
# The repairs of a value

A repair either erases text behind a surface, which shortens the value, or replaces
a reading by the surface.  A replaced reading that cannot overlap the surface is
gone for good, and a surface that is in the value stays there.  So the loop over a
span ends when a reading is replaced only if it cannot overlap the surface or if the
surface is not in the value yet.  When the surface contains the reading, a repair
restores the state it started from, and the loop may never end.
-/

namespace Mozkey.Session

open Mozkey.Lib

namespace ZenzAdoptionPolicy

variable {mozcValue value repaired : ByteString} {span : ProtectedConversionSpan}

/-! ## What a repair does -/

/-- The readings of a span. -/
def readings (span : ProtectedConversionSpan) : List ByteString :=
  [hiraganaToKatakana span.key, span.key]

/-- The reading that the next repair replaces, if it replaces one. -/
def replacedReading (mozcValue : ByteString) (span : ProtectedConversionSpan)
    (value : ByteString) : Option ByteString :=
  if (tryRepairAttachedProtectedSpan mozcValue span value).isSome then none
  else if countOccurrences value span.value < requiredOccurrences span then
    (readings span).find? fun reading => (repairCandidate span value reading).isSome
  else none

/-- Erasing attached text cuts it out behind a surface. -/
theorem erases_of_repairAttached
    (erased : tryRepairAttachedProtectedSpan mozcValue span value = some repaired) :
    ∃ front attached back, attached ≠ [] ∧ value = front ++ span.value ++ (attached ++ back) ∧
      repaired = front ++ span.value ++ back := by
  unfold tryRepairAttachedProtectedSpan at erased
  split at erased
  · exact absurd erased (by simp)
  rename_i nonempty
  dsimp only at erased
  split at erased
  · exact absurd erased (by simp)
  obtain ⟨_, pos, _, list, made, _⟩ := List.findSome?_eq_some_iff.1 erased
  have found : pos ∈ occurrences span.value value := by
    rw [list]
    simp
  obtain ⟨length, attachedHere, rfl⟩ := Option.map_eq_some_iff.1 made
  obtain ⟨front, behind, rfl, rfl⟩ := split_of_mem_occurrences nonempty found
  have attached_ne_nil : behind.take length ≠ [] := by
    unfold attachedLength at attachedHere
    intro empty
    split at attachedHere
    · exact absurd attachedHere (by simp)
    · simp only [List.append_assoc, List.drop_length_add_append, List.drop_left] at attachedHere
      split at attachedHere
      · exact absurd attachedHere (by simp)
      · split at attachedHere
        · exact absurd attachedHere (by simp)
        · split at attachedHere
          · rename_i japanese
            cases attachedHere
            rw [empty] at japanese
            exact absurd japanese (by decide)
          · exact absurd attachedHere (by simp)
  refine ⟨front, behind.take length, behind.drop length, attached_ne_nil, ?_, ?_⟩
  · rw [List.take_append_drop]
  · rw [← List.length_append, List.take_left, List.drop_length_add_append]

/-- Replacing a reading writes the surface over its only occurrence. -/
theorem replaces_of_repairCandidate {reading : ByteString}
    (replaced : repairCandidate span value reading = some repaired) :
    ∃ before after, value = before ++ reading ++ after ∧ ¬ reading <:+: before ∧
      ¬ reading <:+: after ∧ repaired = before ++ span.value ++ after := by
  unfold repairCandidate at replaced
  split at replaced
  · exact absurd replaced (by simp)
  · rename_i safe
    split at replaced
    · exact absurd replaced (by simp)
    · rename_i single
      cases replaced
      have nonempty : reading ≠ [] := by
        rintro rfl
        exact safe (by simp [isRepairCandidateSafe])
      simp only [countOccurrences, if_neg nonempty, ne_eq, not_not] at single
      obtain ⟨before, after, rfl, first, second, replaced⟩ := split_of_single nonempty single
      exact ⟨before, after, rfl, first, second, replaced span.value⟩

/-- **The two kinds of repair.** -/
theorem repair_cases (made : repair mozcValue span value = some repaired) :
    (∃ front attached back, attached ≠ [] ∧ value = front ++ span.value ++ (attached ++ back) ∧
      repaired = front ++ span.value ++ back) ∨
    (∃ reading before after, replacedReading mozcValue span value = some reading ∧
      value = before ++ reading ++ after ∧ ¬ reading <:+: before ∧ ¬ reading <:+: after ∧
        repaired = before ++ span.value ++ after) := by
  unfold repair at made
  cases erased : tryRepairAttachedProtectedSpan mozcValue span value with
  | some cut =>
      rw [erased] at made
      cases made
      exact .inl (erases_of_repairAttached erased)
  | none =>
      simp only [erased] at made
      split at made
      · rename_i missing
        right
        unfold tryRepairProtectedSpan at made
        obtain ⟨first, reading, others, list, replaced, failed⟩ :=
          List.findSome?_eq_some_iff.1 made
        obtain ⟨before, after, split⟩ := replaces_of_repairCandidate replaced
        refine ⟨reading, before, after, ?_, split⟩
        simp only [replacedReading, erased, Option.isSome_none, Bool.false_eq_true, if_false,
          if_pos missing, readings]
        rw [List.find?_eq_some_iff_append]
        refine ⟨by simp [replaced], first, others, list, ?_⟩
        intro other member
        simp [failed other member]
      · exact absurd made (by simp)

/-! ## Repairs of one span end -/

variable (mozcValue span) in
/-- One iteration of the loop over a span. -/
def Step (value repaired : ByteString) : Prop :=
  ¬ Preserves value span ∧ repair mozcValue span value = some repaired

variable (mozcValue span) in
/-- The next repair replaces a reading only if the reading cannot overlap the surface or the
surface is not in the value yet. -/
def ReplacesSafely (value : ByteString) : Prop :=
  ∀ reading, replacedReading mozcValue span value = some reading →
    Apart reading span.value ∨ ¬ span.value <:+: value

open Classical in
/-- The readings apart from the surface that are still in the value. -/
noncomputable def pendingReadings (span : ProtectedConversionSpan) (value : ByteString) :
    Finset ByteString :=
  (readings span).toFinset.filter fun reading => Apart reading span.value ∧ reading <:+: value

open Classical in
/-- What is left to do: readings to replace, a surface to bring in, and text to erase. -/
noncomputable def repairRank (span : ProtectedConversionSpan) (value : ByteString) : ℕ ×ₗ ℕ :=
  toLex ((pendingReadings span value).card + (if span.value <:+: value then 0 else 1),
    value.length)

theorem mem_pendingReadings {reading : ByteString} :
    reading ∈ pendingReadings span value ↔
      reading ∈ readings span ∧ Apart reading span.value ∧ reading <:+: value := by
  simp [pendingReadings]

/-- A reading apart from the surface is only found where it was before. -/
theorem pending_of_sides {front back : ByteString} (left : front <:+: value)
    (right : back <:+: value) :
    pendingReadings span (front ++ span.value ++ back) ⊆ pendingReadings span value := by
  intro reading member
  obtain ⟨isReading, apart, inside⟩ := mem_pendingReadings.1 member
  refine mem_pendingReadings.2 ⟨isReading, apart, ?_⟩
  rcases apart.infix_side inside with here | here
  · exact here.trans left
  · exact here.trans right

theorem infix_surface (front back surface : ByteString) : surface <:+: front ++ surface ++ back :=
  ⟨front, back, rfl⟩

/-- A safe repair leaves less to do. -/
theorem repairRank_lt (safe : ReplacesSafely mozcValue span value)
    (made : repair mozcValue span value = some repaired) :
    repairRank span repaired < repairRank span value := by
  unfold repairRank
  rw [Prod.Lex.toLex_lt_toLex]
  rcases repair_cases made with ⟨front, attached, back, some_, rfl, rfl⟩ |
      ⟨reading, before, after, replaced, rfl, first, second, rfl⟩
  · have fewer : pendingReadings span (front ++ span.value ++ back) ⊆
        pendingReadings span (front ++ span.value ++ (attached ++ back)) := by
      apply pending_of_sides
      · exact ⟨[], span.value ++ (attached ++ back), by simp⟩
      · exact ⟨front ++ span.value ++ attached, [], by simp⟩
    have count := Finset.card_le_card fewer
    have longer := List.length_pos_of_ne_nil some_
    rw [if_pos (infix_surface _ _ _), if_pos (infix_surface _ _ _)]
    rcases count.lt_or_eq with less | same
    · exact .inl (by omega)
    · refine .inr ⟨by rw [same], ?_⟩
      simp only [List.length_append]
      omega
  · left
    have fewer : pendingReadings span (before ++ span.value ++ after) ⊆
        pendingReadings span (before ++ reading ++ after) := by
      apply pending_of_sides
      · exact ⟨[], reading ++ after, by simp⟩
      · exact ⟨before ++ reading, [], by simp⟩
    have isReading : reading ∈ readings span := by
      unfold replacedReading at replaced
      split at replaced
      · exact absurd replaced (by simp)
      split at replaced
      · exact List.mem_of_find?_eq_some replaced
      · exact absurd replaced (by simp)
    rw [if_pos (infix_surface _ _ _), Nat.add_zero]
    rcases safe reading replaced with apart | absent
    · -- the reading is gone
      have gone : reading ∉ pendingReadings span (before ++ span.value ++ after) := by
        intro member
        rcases apart.infix_side (mem_pendingReadings.1 member).2.2 with here | here
        · exact first here
        · exact second here
      have was : reading ∈ pendingReadings span (before ++ reading ++ after) :=
        mem_pendingReadings.2 ⟨isReading, apart, infix_surface _ _ _⟩
      have less := Finset.card_lt_card (Finset.ssubset_iff_subset_ne.2
        ⟨fewer, fun same => gone (same ▸ was)⟩)
      exact less.trans_le (Nat.le_add_right _ _)
    · -- the surface is there now
      rw [if_neg absent]
      exact Nat.lt_succ_of_le (Finset.card_le_card fewer)

/-- **The loop over a span ends** when every reading is replaced safely. -/
theorem exists_repairSpan {start : ByteString} (already : Bool)
    (safe : ∀ value, Relation.ReflTransGen (Step mozcValue span) start value →
      ¬ Preserves value span → ReplacesSafely mozcValue span value) :
    ∃ fuel outcome, repairSpan mozcValue span fuel start already = some outcome := by
  induction start using (InvImage.wf (repairRank span) wellFounded_lt).induction generalizing
    already with
  | _ value ih =>
      by_cases preserved : Preserves value span
      · exact ⟨1, _, by rw [repairSpan, if_pos preserved]⟩
      · cases made : repair mozcValue span value with
        | none => exact ⟨1, _, by rw [repairSpan, if_neg preserved, made]⟩
        | some repaired =>
            have step : Step mozcValue span value repaired := ⟨preserved, made⟩
            have less := repairRank_lt (safe value .refl preserved) made
            obtain ⟨fuel, outcome, ends⟩ := ih repaired less true fun later reached =>
              safe later (.head step reached)
            exact ⟨fuel + 1, outcome, by rw [repairSpan, if_neg preserved, made]; exact ends⟩

/-! ## Runs of `Decide` -/

/-- A state of `Decide`: the spans with a surface that were checked, the spans that remain,
and the value. -/
inductive Reached (input : ZenzAdoptionInput) :
    List ProtectedConversionSpan → List ProtectedConversionSpan → ByteString → Prop
  | start : Reached input [] input.protectedSpans input.zenzValue
  | skip {passed span spans value} : Reached input passed (span :: spans) value →
      span.value = [] → Reached input passed spans value
  | pass {passed span spans value} : Reached input passed (span :: spans) value →
      span.value ≠ [] → Preserves value span → Reached input (passed ++ [span]) spans value
  | repair {passed span spans value repaired} : Reached input passed (span :: spans) value →
      span.value ≠ [] → Step input.mozcValue span value repaired →
        Reached input passed (span :: spans) repaired

variable {input : ZenzAdoptionInput} {result : ZenzAdoptionResult}
  {passed spans : List ProtectedConversionSpan}

theorem Reached.steps (reached : Reached input passed (span :: spans) value)
    (some_ : span.value ≠ []) (steps : Relation.ReflTransGen (Step input.mozcValue span) value repaired) :
    Reached input passed (span :: spans) repaired := by
  induction steps with
  | refl => exact reached
  | tail _ step ih => exact .repair ih some_ step

theorem Reached.suffix (reached : Reached input passed spans value) :
    spans <:+ input.protectedSpans := by
  induction reached with
  | start => exact List.suffix_rfl
  | skip _ _ ih => exact (List.suffix_cons _ _).trans ih
  | pass _ _ _ ih => exact (List.suffix_cons _ _).trans ih
  | repair _ _ _ ih => exact ih

/-! ## The result does not depend on the number of iterations -/

theorem repairSpan_mono {fuel more : Nat} {already : Bool} {outcome : SpanOutcome}
    (le : fuel ≤ more) (ends : repairSpan mozcValue span fuel value already = some outcome) :
    repairSpan mozcValue span more value already = some outcome := by
  induction fuel generalizing more value already with
  | zero => exact absurd ends (by simp [repairSpan])
  | succ fuel ih =>
      obtain ⟨more, rfl⟩ := Nat.exists_eq_add_of_le' (Nat.lt_of_lt_of_le (Nat.succ_pos fuel) le)
      rw [repairSpan] at ends ⊢
      split at ends
      · rename_i preserved
        rw [if_pos preserved]
        exact ends
      · rename_i lost
        rw [if_neg lost]
        cases made : repair mozcValue span value with
        | none =>
            rw [made] at ends
            exact ends
        | some repaired =>
            rw [made] at ends
            exact ih (Nat.succ_le_succ_iff.1 le) ends

theorem decideSpans_mono {fuel more : Nat} {already : Bool} (le : fuel ≤ more)
    (ends : decideSpans mozcValue fuel spans value already = some result) :
    decideSpans mozcValue more spans value already = some result := by
  induction spans generalizing value already with
  | nil => exact ends
  | cons span spans ih =>
      rw [decideSpans] at ends ⊢
      split at ends
      · rename_i empty
        rw [if_pos empty]
        exact ih ends
      · rename_i some_
        rw [if_neg some_]
        cases outcome : repairSpan mozcValue span fuel value already with
        | none =>
            rw [outcome] at ends
            exact absurd ends (by simp)
        | some kind =>
            rw [outcome] at ends
            rw [repairSpan_mono le outcome]
            cases kind with
            | rejected reason => exact ends
            | preserved value repaired => exact ih ends

/-- What the loop over a span did when it ended with a value. -/
theorem repairSpan_preserved {fuel : Nat} {already repairedNow : Bool}
    (ends : repairSpan mozcValue span fuel value already = some (.preserved repaired repairedNow)) :
    Relation.ReflTransGen (Step mozcValue span) value repaired ∧ Preserves repaired span ∧
      (repairedNow = false → already = false ∧ repaired = value) := by
  induction fuel generalizing value already with
  | zero => exact absurd ends (by simp [repairSpan])
  | succ fuel ih =>
      rw [repairSpan] at ends
      split at ends
      · rename_i preserved
        cases ends
        exact ⟨.refl, preserved, fun same => ⟨same, rfl⟩⟩
      · rename_i lost
        cases made : repair mozcValue span value with
        | none =>
            rw [made] at ends
            exact absurd ends (by simp)
        | some next =>
            rw [made] at ends
            obtain ⟨steps, preserved, unchanged⟩ := ih ends
            refine ⟨.head ⟨lost, made⟩ steps, preserved, ?_⟩
            intro same
            exact absurd (unchanged same).1 (by simp)

/-! ## `Decide` returns -/

/-- Every reading that a run replaces is replaced safely. -/
def AlwaysReplacesSafely (input : ZenzAdoptionInput) : Prop :=
  ∀ passed span spans value, Reached input passed (span :: spans) value → span.value ≠ [] →
    ¬ Preserves value span → ReplacesSafely input.mozcValue span value

theorem exists_decideSpans (safe : AlwaysReplacesSafely input) (already : Bool)
    (reached : Reached input passed spans value) :
    ∃ fuel result, decideSpans input.mozcValue fuel spans value already = some result := by
  induction spans generalizing passed value already with
  | nil => exact ⟨0, _, rfl⟩
  | cons span spans ih =>
      by_cases empty : span.value = []
      · obtain ⟨fuel, result, ends⟩ := ih already (reached.skip empty)
        exact ⟨fuel, result, by rw [decideSpans, if_pos empty, ends]⟩
      · obtain ⟨fuel, outcome, ends⟩ := exists_repairSpan already fun later steps =>
          safe passed span spans later (reached.steps empty steps) empty
        cases outcome with
        | rejected reason => exact ⟨fuel, _, by rw [decideSpans, if_neg empty, ends]⟩
        | preserved repaired repairedNow =>
            obtain ⟨steps, preserved, _⟩ := repairSpan_preserved ends
            obtain ⟨more, result, rest⟩ := ih repairedNow
              ((reached.steps empty steps).pass empty preserved)
            refine ⟨max fuel more, result, ?_⟩
            rw [decideSpans, if_neg empty, repairSpan_mono (le_max_left _ _) ends]
            exact decideSpans_mono (le_max_right _ _) rest

/-- **`Decide` returns** when every reading is replaced safely. -/
theorem returns_of_replacesSafely (input : ZenzAdoptionInput) (safe : AlwaysReplacesSafely input) :
    ∃ result, Returns input result := by
  obtain ⟨fuel, result, ends⟩ := exists_decideSpans safe false .start
  exact ⟨result, fuel, ends⟩

/-- A value in which a reading is replaced. -/
def replacedInput : ZenzAdoptionInput where
  mozcValue := ascii "Mozkey desu"
  zenzValue := ascii "mozukii desu"
  protectedSpans :=
    [{ key := ascii "mozukii", value := ascii "Mozkey", tier := .identityCritical
       repairable := true }]

/-- A surface that starts with its reading, required twice. -/
def goLang : ProtectedConversionSpan where
  key := ascii "Go"
  value := ascii "GoLang"
  tier := .identityCritical
  repairable := true
  requiredOccurrences := 2

def hangingInput : ZenzAdoptionInput where
  mozcValue := ascii "GoLangGoLang"
  zenzValue := ascii "Go"
  protectedSpans := [goLang]

/-- Readings are replaced safely when a surface is required once or overlaps no reading that
may be replaced. -/
theorem alwaysReplacesSafely_of_apart
    (apart : ∀ span ∈ input.protectedSpans, requiredOccurrences span = 1 ∨
      ∀ reading ∈ readings span, isRepairCandidateSafe reading span = true →
        Apart reading span.value) : AlwaysReplacesSafely input := by
  intro passed span spans value reached some_ _ reading replaced
  unfold replacedReading at replaced
  split at replaced
  · exact absurd replaced (by simp)
  split at replaced
  · rename_i missing
    rcases apart span (reached.suffix.subset List.mem_cons_self) with once | never
    · right
      rw [once, countOccurrences, if_neg some_, Nat.lt_one_iff, List.length_eq_zero_iff,
        occurrences_eq_nil_iff some_] at missing
      exact missing
    · left
      have candidate := List.find?_some replaced
      apply never reading (List.mem_of_find?_eq_some replaced)
      by_contra unsafe_
      rw [Bool.not_eq_true] at unsafe_
      simp [repairCandidate, unsafe_] at candidate
  · exact absurd replaced (by simp)

theorem returns_replacedInput : ∃ result, Returns replacedInput result :=
  returns_of_replacesSafely replacedInput (alwaysReplacesSafely_of_apart (by
    intro span member
    rw [List.mem_singleton.1 member]
    exact .inl rfl))

/-- A value of the endless run holds one `G`, so at most one surface. -/
theorem few_surfaces {rest : ByteString} (plain : (71 : UInt8) ∉ rest) :
    (occurrences goLang.value (ascii "Go" ++ rest)).length ≤ 1 := by
  refine (length_occurrences_le_count (by decide) (x := 71) (by decide) _).trans ?_
  rw [List.count_append, List.count_eq_zero_of_not_mem plain]
  decide

/-- The reading is replaced, and the value starts with the reading again. -/
theorem repair_goLang {rest : ByteString} (plain : (71 : UInt8) ∉ rest) :
    ¬ Preserves (ascii "Go" ++ rest) goLang ∧
      repair hangingInput.mozcValue goLang (ascii "Go" ++ rest) =
        some (ascii "Go" ++ (ascii "Lang" ++ rest)) := by
  have few := few_surfaces plain
  have nonempty : goLang.value ≠ [] := by decide
  have required : requiredOccurrences goLang = 2 := rfl
  constructor
  · unfold Preserves countBoundaryPreservedOccurrences
    rw [if_neg nonempty, required]
    have filtered := List.length_filter_le
      (hasProtectedSurfaceBoundaries (ascii "Go" ++ rest) · goLang.value)
      (occurrences goLang.value (ascii "Go" ++ rest))
    omega
  · have noBoundary : findUniqueRightBoundaryAfterSurface hangingInput.mozcValue goLang.value = [] := by
      decide
    have attached : tryRepairAttachedProtectedSpan hangingInput.mozcValue goLang
        (ascii "Go" ++ rest) = none := by
      simp [tryRepairAttachedProtectedSpan, noBoundary]
    have missing : countOccurrences (ascii "Go" ++ rest) goLang.value < requiredOccurrences goLang := by
      rw [countOccurrences, if_neg nonempty, required]
      omega
    have someGo : ascii "Go" ≠ [] := by decide
    have noGo : ¬ ascii "Go" <:+: rest := fun inside => plain (inside.subset (by decide))
    have once : countOccurrences (ascii "Go" ++ rest) (ascii "Go") = 1 := by
      rw [countOccurrences, if_neg someGo, occurrences_find someGo,
        (occurrences_eq_nil_iff someGo).2 noGo]
      rfl
    have replaced : repairCandidate goLang (ascii "Go" ++ rest) (ascii "Go") =
        some (ascii "Go" ++ (ascii "Lang" ++ rest)) := by
      have safe : isRepairCandidateSafe (ascii "Go") goLang = true := by decide
      simp only [repairCandidate, safe, once, Bool.true_eq_false, if_false, ne_eq, not_true_eq_false]
      rw [replaceAll_find someGo, replaceAll_of_not_infix someGo _ noGo]
      rfl
    have reading : hiraganaToKatakana goLang.key = ascii "Go" := by decide
    simp only [repair, attached, if_pos missing, tryRepairProtectedSpan, reading,
      List.findSome?_cons, replaced]

/-- **`Decide` hangs** on a surface that contains its reading. -/
theorem hangs : ¬ ∃ result, Returns hangingInput result := by
  rintro ⟨result, fuel, ends⟩
  have endless : ∀ fuel rest already, (71 : UInt8) ∉ rest →
      repairSpan hangingInput.mozcValue goLang fuel (ascii "Go" ++ rest) already = none := by
    intro fuel
    induction fuel with
    | zero => intros; rfl
    | succ fuel ih =>
        intro rest already plain
        obtain ⟨lost, made⟩ := repair_goLang plain
        rw [repairSpan, if_neg lost, made]
        apply ih
        rw [List.mem_append, not_or]
        exact ⟨by decide, plain⟩
  have start := endless fuel [] false (by simp)
  have nonempty : goLang.value ≠ [] := by decide
  unfold ZenzAdoptionPolicy.decide at ends
  simp only [hangingInput, decideSpans, if_neg nonempty] at ends start
  rw [List.append_nil] at start
  rw [start] at ends
  exact absurd ends (by simp)

end ZenzAdoptionPolicy

end Mozkey.Session
