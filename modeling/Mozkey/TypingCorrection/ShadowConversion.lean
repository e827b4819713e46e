import Mozkey.Converter.Segments
import Mozkey.TypingCorrection.RomanTypingCorrector

/-!
# Conversions of corrected inputs

A corrected input is converted as a whole, and the first candidates of the segments become one
candidate, with the boundaries between them as its inner segments.  A boundary holds lengths of eight
bits.  The candidate of a segment brings its own boundaries, or one that is encoded from its lengths,
or none at all when they take too many bits; the boundaries of the other segments stay.
-/

namespace Mozkey.TypingCorrection

open Mozkey.Converter

/-- The bytes of a text in UTF-8. -/
def utf8Bytes (s : String) : ByteString := s.toUTF8.toList

/-! ## Data -/

/-- A hypothesis that is replayed: its reading, and the key events it may have. -/
structure ReplayedHypothesis (KeyEvent : Type) extends Hypothesis where
  correctedReading : ByteString
  correctedKeyEvents : List KeyEvent

/-- A candidate with its costs. -/
structure CostedCandidate extends Candidate where
  cost : Int := 0
  wcost : Int := 0
  structureCost : Int := 0
  costBeforeRescoring : Int := 0
  description : ByteString := []
  deriving DecidableEq

/-- A segment that the converter made. -/
structure ConvertedSegment where
  key : ByteString
  candidates : List CostedCandidate
  deriving DecidableEq

structure ExternalConversionSegment where
  key : ByteString
  value : ByteString
  isReranked : Bool
  deriving DecidableEq

/-- `WholeSequenceConversion`; its index is filled in later. -/
structure WholeSequenceConversion (KeyEvent : Type) where
  hypothesis : ReplayedHypothesis KeyEvent
  candidate : CostedCandidate
  learningSegments : List ExternalConversionSegment
  converterCost : Int
  totalCost : Int

/-! ## Costs -/

def kInt32Max : Int := 2 ^ 31 - 1
def kInt32Min : Int := -2 ^ 31

def saturatingAdd (lhs rhs : Int) : Int :=
  if rhs > 0 ∧ lhs > kInt32Max - rhs then kInt32Max
  else if rhs < 0 ∧ lhs < kInt32Min - rhs then kInt32Min
  else lhs + rhs

def kCorrectionCostScale : Int := 10

/-- `Attribute::TYPING_CORRECTION`. -/
def kTypingCorrection : UInt32 := 4096

/-! ## Joining candidates -/

/-- What `EncodeLengths` makes of a candidate's texts; sizes are cast to 32 bits. -/
def encodedLengths (source : Candidate) : Option UInt32 :=
  let contentKey := if source.contentKey = [] then source.key else source.contentKey
  let contentValue := if source.contentValue = [] then source.value else source.contentValue
  encodeLengths (source.key.length % 2 ^ 32) (source.value.length % 2 ^ 32)
    (contentKey.length % 2 ^ 32) (contentValue.length % 2 ^ 32)

/-- The boundaries that `AppendCandidateStrings` adds. -/
def addedBoundaries (source : Candidate) : List UInt32 :=
  if source.innerSegmentBoundary ≠ [] then source.innerSegmentBoundary
  else (encodedLengths source).toList

/-- `AppendCandidateStrings`. -/
def appendCandidateStrings (source : Candidate) (result : CostedCandidate) : CostedCandidate :=
  { result with
    key := result.key ++ source.key
    value := result.value ++ source.value
    contentKey := result.contentKey ++
      if source.contentKey = [] then source.key else source.contentKey
    contentValue := result.contentValue ++
      if source.contentValue = [] then source.value else source.contentValue
    innerSegmentBoundary := result.innerSegmentBoundary ++ addedBoundaries source }

/-- What the loop of `BuildWholeSequenceWithStart` has so far. -/
structure Joined where
  candidate : CostedCandidate
  learningSegments : List ExternalConversionSegment
  converterCost : Int

/-- The selected candidate of a segment is joined. -/
def joinSelected (joined : Joined) (segment : ConvertedSegment) (selected : CostedCandidate) :
    Joined :=
  let candidate := appendCandidateStrings selected.toCandidate joined.candidate
  { candidate :=
      { candidate with
        lid := if joined.learningSegments = [] then selected.lid else candidate.lid
        rid := selected.rid
        wcost := saturatingAdd candidate.wcost selected.wcost
        structureCost := saturatingAdd candidate.structureCost selected.structureCost }
    learningSegments := joined.learningSegments ++
      [⟨segment.key, selected.value, selected.has kReranked⟩]
    converterCost := saturatingAdd joined.converterCost selected.cost }

/-- One round of the loop; none when nothing can be joined. -/
def joinSegment (joined : Joined) (segment : ConvertedSegment) : Option Joined :=
  match segment.candidates with
  | [] => none
  | selected :: _ =>
      if selected.key = [] ∨ selected.value = [] then none
      else some (joinSelected joined segment selected)

/-! ## Building -/

/-- What is used of the composer: its query, and its state when a hypothesis was replayed. -/
structure ComposerInterface (Composer KeyEvent : Type) where
  getQueryForConversion : Composer → ByteString
  buildCorrectedComposer : Composer → ReplayedHypothesis KeyEvent → Option Composer

/-- `ConverterInterface`: the segments that a composer and a key are converted to, without those of
the history. -/
structure ConverterInterface (Composer : Type) where
  startConversion : Composer → ByteString → Option (List ConvertedSegment)

section
variable {Composer KeyEvent : Type} (composers : ComposerInterface Composer KeyEvent)

/-- `BuildWholeSequenceWithStart`. -/
def buildWholeSequenceWithStart (original : Composer) (hypothesis : ReplayedHypothesis KeyEvent)
    (start : Composer → ByteString → Option (List ConvertedSegment)) :
    Option (WholeSequenceConversion KeyEvent) :=
  if hypothesis.correctedRaw = [] ∨ hypothesis.edits = [] ∨
      (hypothesis.correctedKeyEvents.isEmpty ∧ hypothesis.correctedRaw = hypothesis.originalRaw) then
    none
  else
    (composers.buildCorrectedComposer original hypothesis).bind fun correctedComposer =>
      (start correctedComposer hypothesis.correctedReading).bind fun correctedSegments =>
        if correctedSegments = [] then none
        else
          let hypothesis :=
            { hypothesis with
              correctedReading := composers.getQueryForConversion correctedComposer }
          let empty : CostedCandidate :=
            { attributes := kTypingCorrection
              description := utf8Bytes "入力訂正: " ++ composers.getQueryForConversion original ++
                utf8Bytes " → " ++ hypothesis.correctedReading }
          (correctedSegments.foldlM joinSegment ⟨empty, [], 0⟩).bind fun joined =>
            if joined.candidate.key = [] ∨ joined.candidate.value = [] ∨
                joined.candidate.contentKey = [] ∨ joined.candidate.contentValue = [] then none
            else
              some
                { hypothesis := hypothesis
                  candidate :=
                    { joined.candidate with
                      cost := joined.converterCost
                      costBeforeRescoring := joined.converterCost }
                  learningSegments := joined.learningSegments
                  converterCost := joined.converterCost
                  totalCost := saturatingAdd joined.converterCost
                    (saturatingAdd (hypothesis.editCost * kCorrectionCostScale) 0) }

/-- `BuildWholeSequenceConversion`. -/
def buildWholeSequenceConversion (original : Composer) (hypothesis : ReplayedHypothesis KeyEvent)
    (converter : ConverterInterface Composer) : Option (WholeSequenceConversion KeyEvent) :=
  buildWholeSequenceWithStart composers original hypothesis converter.startConversion

end

/-! ## Pieces of the key and the value -/

def lengthsOf (c : Candidate) : Lengths := (c.key.length, c.value.length)

/-- Pieces are cut at the boundaries between candidates. -/
structure Cuts (selected : List Candidate) (key value : ByteString) (pieces : List InnerSegment) :
    Prop where
  keys : pieces.flatMap (·.key) = key
  values : pieces.flatMap (·.value) = value
  boundaries : ∀ front behind, selected = front ++ behind → ∃ m,
    (pieces.take m).flatMap (·.key) = front.flatMap (·.key) ∧
      (pieces.take m).flatMap (·.value) = front.flatMap (·.value)

/-- The boundaries of a candidate are those between the candidates it was joined of, if it has any. -/
def BoundariesAgree (selected : List Candidate) (c : Candidate) : Prop :=
  c.innerSegmentBoundary = [] ∨
    Cuts selected c.key c.value (innerSegments c.key c.value c.innerSegmentBoundary)

/-! ## Candidates whose boundaries reach over them -/

/-- The own boundaries of a candidate, if it has any, reach over it. -/
def Consistent (c : Candidate) : Prop :=
  c.innerSegmentBoundary ≠ [] → reach c.innerSegmentBoundary = lengthsOf c

/-- A candidate has boundaries of its own, or its lengths take eight bits. -/
def Fits (c : Candidate) : Prop :=
  c.innerSegmentBoundary ≠ [] ∨ (c.key.length ≤ 0xFF ∧ c.value.length ≤ 0xFF)

/-- A candidate that can be joined. -/
structure Joinable (c : Candidate) : Prop where
  key : c.key ≠ []
  value : c.value ≠ []
  consistent : Consistent c

variable {c : Candidate} {selected : List Candidate}

theorem encodeLengths_eq_some {k v : Nat} (ck cv : Nat) (kPos : 0 < k) (kLe : k ≤ 0xFF) (vPos : 0 < v)
    (vLe : v ≤ 0xFF) : ∃ encoded, encodeLengths k v ck cv = some encoded := by
  have fixed (len full : Nat) (pos : 0 < full) : 0 < fixContentLen len full ∧
      fixContentLen len full ≤ full := by
    unfold fixContentLen
    split <;> omega
  obtain ⟨ckPos, ckLe⟩ := fixed ck k kPos
  obtain ⟨cvPos, cvLe⟩ := fixed cv v vPos
  unfold encodeLengths
  dsimp only
  rw [if_neg (by omega)]
  exact ⟨_, rfl⟩

/-- The boundaries of a candidate that fits reach over it. -/
theorem Joinable.reach_eq (joinable : Joinable c) (fits : Fits c) :
    reach (addedBoundaries c) = lengthsOf c := by
  unfold addedBoundaries
  split
  · next own => exact joinable.consistent own
  · next noOwn =>
    obtain ⟨keyLe, valueLe⟩ := fits.resolve_left noOwn
    have keyPos := List.length_pos_iff.2 joinable.key
    have valuePos := List.length_pos_iff.2 joinable.value
    unfold encodedLengths
    rw [Nat.mod_eq_of_lt (by omega : c.key.length < 2 ^ 32),
      Nat.mod_eq_of_lt (by omega : c.value.length < 2 ^ 32)]
    obtain ⟨encoded, isEncoded⟩ := encodeLengths_eq_some
      ((if c.contentKey = [] then c.key else c.contentKey).length % 2 ^ 32)
      ((if c.contentValue = [] then c.value else c.contentValue).length % 2 ^ 32)
      keyPos keyLe valuePos valueLe
    dsimp only
    rw [isEncoded, Option.toList_some, reach_cons, reach_nil, add_zero]
    exact decodedLengths_of_encodeLengths isEncoded

/-- The boundaries of a candidate never reach further than it. -/
theorem Joinable.reach_le (joinable : Joinable c) : reach (addedBoundaries c) ≤ lengthsOf c := by
  unfold addedBoundaries
  split
  · next own => exact (joinable.consistent own).le
  · cases isEncoded : encodedLengths c with
    | none => exact ⟨Nat.zero_le _, Nat.zero_le _⟩
    | some encoded =>
        rw [Option.toList_some, reach_cons, reach_nil, add_zero,
          decodedLengths_of_encodeLengths isEncoded]
        exact ⟨Nat.mod_le _ _, Nat.mod_le _ _⟩

/-- The lengths of joined candidates. -/
def totalLengths (selected : List Candidate) : Lengths := (selected.map lengthsOf).sum

theorem totalLengths_cons (c : Candidate) (selected : List Candidate) :
    totalLengths (c :: selected) = lengthsOf c + totalLengths selected := List.sum_cons

theorem totalLengths_eq (selected : List Candidate) :
    totalLengths selected =
      ((selected.flatMap (·.key)).length, (selected.flatMap (·.value)).length) := by
  induction selected with
  | nil => rfl
  | cons c selected ih =>
      rw [totalLengths_cons, ih, List.flatMap_cons, List.flatMap_cons, List.length_append,
        List.length_append]
      rfl

theorem reach_added_le (joinable : ∀ c ∈ selected, Joinable c) :
    reach (selected.flatMap addedBoundaries) ≤ totalLengths selected := by
  induction selected with
  | nil => exact le_rfl
  | cons c selected ih =>
      rw [List.flatMap_cons, reach_append, totalLengths_cons]
      exact add_le_add (joinable c List.mem_cons_self).reach_le
        (ih fun d member => joinable d (List.mem_cons_of_mem _ member))

/-! ## Boundaries that meet those of the candidates -/

/-- At every boundary between candidates, the lengths of the first boundaries that are added happen to
add up to those of the candidates in front of it. -/
def Realigns (selected : List Candidate) : Prop :=
  ∀ part rest, selected = part ++ rest → part ≠ [] → rest ≠ [] →
    ∃ m, reach ((selected.flatMap addedBoundaries).take m) = totalLengths part

/-- The pieces are cut between the candidates exactly if the lengths add up. -/
theorem cuts_iff_realigns (joinable : ∀ c ∈ selected, Joinable c) :
    Cuts selected (selected.flatMap (·.key)) (selected.flatMap (·.value))
        (innerSegments (selected.flatMap (·.key)) (selected.flatMap (·.value))
          (selected.flatMap addedBoundaries)) ↔
      Realigns selected := by
  have inside := reach_added_le joinable
  have total := totalLengths_eq selected
  have key : ∀ part rest, selected = part ++ rest →
      selected.flatMap (·.key) = part.flatMap (·.key) ++ rest.flatMap (·.key) := by
    rintro part rest rfl
    exact List.flatMap_append
  have value : ∀ part rest, selected = part ++ rest →
      selected.flatMap (·.value) = part.flatMap (·.value) ++ rest.flatMap (·.value) := by
    rintro part rest rfl
    exact List.flatMap_append
  unfold Realigns
  generalize selected.flatMap addedBoundaries = added at inside ⊢
  have keyInside (m : Nat) : (reach (added.take m)).1 ≤ (selected.flatMap (·.key)).length := by
    rw [total] at inside
    exact ((reach_take_le added m).trans inside).1
  have valueInside (m : Nat) : (reach (added.take m)).2 ≤ (selected.flatMap (·.value)).length := by
    rw [total] at inside
    exact ((reach_take_le added m).trans inside).2
  generalize selected.flatMap (·.key) = allKeys at key keyInside ⊢
  generalize selected.flatMap (·.value) = allValues at value valueInside ⊢
  constructor
  · intro cuts part rest parts _ some
    obtain ⟨m, keys, values⟩ := cuts.boundaries part rest parts
    have few : m ≤ added.length := by
      by_contra many
      rw [List.take_of_length_le ((pieces_length_le _ _ _).trans (Nat.not_le.1 many)), cuts.keys,
        key part rest parts, List.append_right_eq_self, List.flatMap_eq_nil_iff] at keys
      obtain ⟨d, rest', rfl⟩ := List.exists_cons_of_ne_nil some
      have member : d ∈ selected := by
        rw [parts]
        exact List.mem_append_right _ List.mem_cons_self
      exact (joinable d member).key (keys d List.mem_cons_self)
    rw [(pieces_take _ _ few).1] at keys
    rw [(pieces_take _ _ few).2] at values
    refine ⟨m, ?_⟩
    rw [totalLengths_eq, ← keys, ← values, List.length_take_of_le (keyInside m),
      List.length_take_of_le (valueInside m)]
  · intro realigns
    refine ⟨(pieces_all _ _ _).1, (pieces_all _ _ _).2, fun part rest parts => ?_⟩
    by_cases noPart : part = []
    · exact ⟨0, by rw [noPart]; exact ⟨rfl, rfl⟩⟩
    by_cases noRest : rest = []
    · refine ⟨(innerSegments allKeys allValues added).length, ?_⟩
      rw [List.take_length, (pieces_all _ _ _).1, (pieces_all _ _ _).2, key part rest parts,
        value part rest parts, noRest]
      exact ⟨List.append_nil _, List.append_nil _⟩
    obtain ⟨m, reaches⟩ := realigns part rest parts noPart noRest
    have few : min m added.length ≤ added.length := Nat.min_le_right _ _
    have same : added.take (min m added.length) = added.take m := by
      rw [← List.take_take, List.take_length]
    refine ⟨min m added.length, ?_⟩
    rw [(pieces_take _ _ few).1, (pieces_take _ _ few).2, same, reaches, totalLengths_eq,
      key part rest parts, value part rest parts]
    exact ⟨List.take_left, List.take_left⟩

/-- Candidates that fit do not matter for those behind them. -/
theorem realigns_cons_of_fits (joinable : Joinable c) (fits : Fits c)
    (positive : ∀ d ∈ selected, Joinable d) : Realigns (c :: selected) ↔ Realigns selected := by
  have own := joinable.reach_eq fits
  unfold Realigns
  rw [List.flatMap_cons]
  generalize selected.flatMap addedBoundaries = added
  generalize addedBoundaries c = first at own ⊢
  constructor
  · intro realigns part rest parts some some'
    obtain ⟨m, reaches⟩ := realigns (c :: part) rest (congrArg (c :: ·) parts)
      (List.cons_ne_nil _ _) some'
    rw [List.take_append, reach_append, totalLengths_cons, ← own] at reaches
    obtain ⟨d, part', rfl⟩ := List.exists_cons_of_ne_nil some
    have member : d ∈ selected := by
      rw [parts]
      exact List.mem_cons_self
    have keyPos : 0 < (lengthsOf d).1 := List.length_pos_iff.2 (positive d member).key
    rcases Nat.lt_or_ge m first.length with short | long
    · have nothing : m - first.length = 0 := Nat.sub_eq_zero_of_le (Nat.le_of_lt short)
      have atMost := (reach_take_le first m).1
      have keys := congrArg Prod.fst reaches
      rw [nothing, List.take_zero, reach_nil, totalLengths_cons] at keys
      simp only [Prod.fst_add, Prod.fst_zero] at keys
      omega
    · rw [List.take_of_length_le long] at reaches
      exact ⟨m - first.length, add_left_cancel reaches⟩
  · intro realigns part rest parts some some'
    obtain ⟨d, part', rfl⟩ := List.exists_cons_of_ne_nil some
    obtain ⟨rfl, parts'⟩ := List.cons.inj parts
    rw [totalLengths_cons, ← own]
    by_cases noPart : part' = []
    · refine ⟨first.length, ?_⟩
      rw [List.take_left, noPart]
      exact (add_zero _).symm
    · obtain ⟨m, reaches⟩ := realigns part' rest parts' noPart some'
      refine ⟨first.length + m, ?_⟩
      rw [List.take_length_add_append, reach_append, reaches]

/-- Only the candidates from the first one that does not fit on matter. -/
theorem realigns_iff (joinable : ∀ c ∈ selected, Joinable c) :
    Realigns selected ↔ (∀ c ∈ selected, Fits c) ∨
      ∃ front c behind, selected = front ++ c :: behind ∧ (∀ d ∈ front, Fits d) ∧ ¬ Fits c ∧
        Realigns (c :: behind) := by
  induction selected with
  | nil =>
      refine iff_of_true (fun part rest parts some => ?_) (.inl fun c member => by cases member)
      exact absurd (List.append_eq_nil_iff.1 parts.symm).1 some
  | cons c selected ih =>
      have joinable' : ∀ d ∈ selected, Joinable d :=
        fun d member => joinable d (List.mem_cons_of_mem _ member)
      by_cases fits : Fits c
      · rw [realigns_cons_of_fits (joinable c List.mem_cons_self) fits joinable', ih joinable']
        constructor
        · rintro (all | ⟨front, d, behind, rfl, allFront, notFits, realigns⟩)
          · exact .inl (List.forall_mem_cons.2 ⟨fits, all⟩)
          · exact .inr ⟨c :: front, d, behind, rfl, List.forall_mem_cons.2 ⟨fits, allFront⟩, notFits,
              realigns⟩
        · rintro (all | ⟨front, d, behind, parts, allFront, notFits, realigns⟩)
          · exact .inl (List.forall_mem_cons.1 all).2
          · cases front with
            | nil =>
                obtain ⟨rfl, -⟩ := List.cons.inj parts
                exact absurd fits notFits
            | cons first front =>
                exact .inr ⟨front, d, behind, (List.cons.inj parts).2,
                  (List.forall_mem_cons.1 allFront).2, notFits, realigns⟩
      · constructor
        · exact fun realigns => .inr ⟨[], c, selected, rfl, List.forall_mem_nil _, fits, realigns⟩
        · rintro (all | ⟨front, d, behind, parts, allFront, notFits, realigns⟩)
          · exact absurd (all c List.mem_cons_self) fits
          · cases front with
            | nil =>
                rw [List.nil_append] at parts
                rwa [parts]
            | cons first front =>
                obtain ⟨rfl, -⟩ := List.cons.inj parts
                exact absurd (allFront c List.mem_cons_self) fits

/-! ## Main result -/

/-- No candidate adds boundaries, or all of them fit, or the lengths happen to meet again behind the
first one that does not.  The last candidate may do as it likes. -/
def KeepsBoundaries (selected : List Candidate) : Prop :=
  (∀ c ∈ selected, addedBoundaries c = []) ∨ (∀ c ∈ selected, Fits c) ∨
    ∃ front c behind, selected = front ++ c :: behind ∧ (∀ d ∈ front, Fits d) ∧ ¬ Fits c ∧
      Realigns (c :: behind)

/-- The candidates that are joined. -/
def selectedOf (segments : List ConvertedSegment) : List Candidate :=
  segments.filterMap fun segment => segment.candidates.head?.map (·.toCandidate)

/-- What a candidate is joined of. -/
structure JoinedOf (first : CostedCandidate) (selected : List Candidate) (last : CostedCandidate) :
    Prop where
  key : last.key = first.key ++ selected.flatMap (·.key)
  value : last.value = first.value ++ selected.flatMap (·.value)
  boundaries : last.innerSegmentBoundary =
    first.innerSegmentBoundary ++ selected.flatMap addedBoundaries
  nonempty : ∀ c ∈ selected, c.key ≠ [] ∧ c.value ≠ []

theorem joinedOf_foldlM {segments : List ConvertedSegment} {joined joined' : Joined}
    (runs : segments.foldlM joinSegment joined = some joined') :
    JoinedOf joined.candidate (selectedOf segments) joined'.candidate := by
  induction segments generalizing joined with
  | nil =>
      obtain rfl := Option.some.inj runs
      exact ⟨(List.append_nil _).symm, (List.append_nil _).symm, (List.append_nil _).symm,
        fun c member => by cases member⟩
  | cons segment segments ih =>
      rw [List.foldlM_cons] at runs
      obtain ⟨next, joins, runs⟩ := Option.bind_eq_some_iff.1 runs
      have later := ih runs
      unfold joinSegment at joins
      cases candidates : segment.candidates with
      | nil =>
          rw [candidates] at joins
          cases joins
      | cons selected others =>
          rw [candidates] at joins
          dsimp only at joins
          split_ifs at joins with nothing
          obtain rfl := Option.some.inj joins
          obtain ⟨someKey, someValue⟩ := not_or.1 nothing
          have selects : selectedOf (segment :: segments) =
              selected.toCandidate :: selectedOf segments := by
            rw [selectedOf, List.filterMap_cons, candidates]
            rfl
          rw [selects]
          refine ⟨?_, ?_, ?_, List.forall_mem_cons.2 ⟨⟨someKey, someValue⟩, later.nonempty⟩⟩
          · rw [later.key, List.flatMap_cons, ← List.append_assoc]
            rfl
          · rw [later.value, List.flatMap_cons, ← List.append_assoc]
            rfl
          · rw [later.boundaries, List.flatMap_cons, ← List.append_assoc]
            rfl

/-- The candidate that is built is joined of the first candidates of the segments. -/
theorem joinedOf_build {Composer KeyEvent : Type} {composers : ComposerInterface Composer KeyEvent}
    {original corrected : Composer} {hypothesis : ReplayedHypothesis KeyEvent}
    {start : Composer → ByteString → Option (List ConvertedSegment)}
    {segments : List ConvertedSegment} {result : WholeSequenceConversion KeyEvent}
    (replayed : composers.buildCorrectedComposer original hypothesis = some corrected)
    (started : start corrected hypothesis.correctedReading = some segments)
    (built : buildWholeSequenceWithStart composers original hypothesis start = some result) :
    JoinedOf {} (selectedOf segments) result.candidate := by
  unfold buildWholeSequenceWithStart at built
  split_ifs at built
  rw [replayed, Option.bind_some, started, Option.bind_some] at built
  split_ifs at built
  obtain ⟨joined, runs, built⟩ := Option.bind_eq_some_iff.1 built
  split_ifs at built
  obtain rfl := Option.some.inj built
  obtain ⟨key, value, boundaries, nonempty⟩ := joinedOf_foldlM runs
  exact ⟨key, value, boundaries, nonempty⟩

/-- The boundaries of a candidate that is joined agree exactly if there are none or they meet those
between the candidates. -/
theorem boundariesAgree_iff_realigns {c : CostedCandidate} (joined : JoinedOf {} selected c)
    (joinable : ∀ d ∈ selected, Joinable d) :
    BoundariesAgree selected c.toCandidate ↔
      (∀ d ∈ selected, addedBoundaries d = []) ∨ Realigns selected := by
  have key : c.key = selected.flatMap (·.key) := joined.key
  have value : c.value = selected.flatMap (·.value) := joined.value
  have boundaries : c.innerSegmentBoundary = selected.flatMap addedBoundaries := joined.boundaries
  rw [BoundariesAgree, key, value, boundaries, cuts_iff_realigns joinable, List.flatMap_eq_nil_iff]

theorem JoinedOf.joinable {first last : CostedCandidate} (joined : JoinedOf first selected last)
    (consistent : ∀ c ∈ selected, Consistent c) : ∀ c ∈ selected, Joinable c :=
  fun c member => ⟨(joined.nonempty c member).1, (joined.nonempty c member).2, consistent c member⟩

/-- **The boundaries of the candidate are those between the segments** exactly if no segment adds any,
if all segments fit, or if the lengths happen to meet again. -/
theorem boundariesAgree_iff {Composer KeyEvent : Type}
    {composers : ComposerInterface Composer KeyEvent} {original corrected : Composer}
    {hypothesis : ReplayedHypothesis KeyEvent}
    {start : Composer → ByteString → Option (List ConvertedSegment)}
    {segments : List ConvertedSegment} {result : WholeSequenceConversion KeyEvent}
    (replayed : composers.buildCorrectedComposer original hypothesis = some corrected)
    (started : start corrected hypothesis.correctedReading = some segments)
    (consistent : ∀ c ∈ selectedOf segments, Consistent c)
    (built : buildWholeSequenceWithStart composers original hypothesis start = some result) :
    BoundariesAgree (selectedOf segments) result.candidate.toCandidate ↔
      KeepsBoundaries (selectedOf segments) := by
  have joined := joinedOf_build replayed started built
  have joinable := joined.joinable consistent
  rw [boundariesAgree_iff_realigns joined joinable, realigns_iff joinable]
  rfl

/-- Replaying a hypothesis gives its corrected input; the composer is the text it shows. -/
def textComposers : ComposerInterface ByteString Empty where
  getQueryForConversion composer := composer
  buildCorrectedComposer _ hypothesis := some hypothesis.correctedRaw

/-- A hypothesis that exchanges two letters. -/
def exchanged : ReplayedHypothesis Empty where
  toHypothesis := makeHypothesis (ascii "ab") 0 2 (ascii "ba") .adjacentTranspose 30 false []
  correctedReading := ascii "ba"
  correctedKeyEvents := []

/-- A segment with one candidate, which is its key. -/
def plainSegment (key : ByteString) : ConvertedSegment := ⟨key, [{ key := key, value := key }]⟩

/-- A converter that always makes these segments. -/
def converterTo (segments : List ConvertedSegment) : ConverterInterface ByteString where
  startConversion _ _ := some segments

/-- Two segments of one letter. -/
theorem boundariesAgree_letters : ∃ result,
    buildWholeSequenceConversion textComposers (ascii "ab") exchanged
        (converterTo [plainSegment (ascii "b"), plainSegment (ascii "a")]) = some result ∧
      BoundariesAgree (selectedOf [plainSegment (ascii "b"), plainSegment (ascii "a")])
        result.candidate.toCandidate := by
  obtain ⟨result, built⟩ := Option.isSome_iff_exists.1 (by decide :
    (buildWholeSequenceConversion textComposers (ascii "ab") exchanged
      (converterTo [plainSegment (ascii "b"), plainSegment (ascii "a")])).isSome = true)
  have all : ∀ c ∈ selectedOf [plainSegment (ascii "b"), plainSegment (ascii "a")],
      c.innerSegmentBoundary = [] ∧ c.key.length ≤ 0xFF ∧ c.value.length ≤ 0xFF := by
    decide
  refine ⟨result, built, (boundariesAgree_iff rfl rfl ?_ built).2 (.inr (.inl ?_))⟩
  · exact fun c member own => absurd (all c member).1 own
  · exact fun c member => .inr (all c member).2

/-- **A segment whose lengths take more than eight bits moves the boundaries of the others.** -/
theorem not_boundariesAgree : ¬ ∀ (original : ByteString) (hypothesis : ReplayedHypothesis Empty)
    (segments : List ConvertedSegment) (result : WholeSequenceConversion Empty),
    (∀ c ∈ selectedOf segments, Consistent c) →
    buildWholeSequenceConversion textComposers original hypothesis (converterTo segments) =
      some result →
    BoundariesAgree (selectedOf segments) result.candidate.toCandidate := by
  intro agree
  let long := plainSegment (List.replicate 256 0x61)
  let short := plainSegment (ascii "b")
  obtain ⟨result, built⟩ := Option.isSome_iff_exists.1 (by decide :
    (buildWholeSequenceConversion textComposers (ascii "ab") exchanged
      (converterTo [long, short])).isSome = true)
  have noOwn : ∀ c ∈ selectedOf [long, short], c.innerSegmentBoundary = [] := by decide
  have consistent : ∀ c ∈ selectedOf [long, short], Consistent c :=
    fun c member own => absurd (noOwn c member) own
  have joined : JoinedOf {} (selectedOf [long, short]) result.candidate :=
    joinedOf_build rfl rfl built
  have agrees := agree _ _ _ _ consistent built
  rw [boundariesAgree_iff_realigns joined (joined.joinable consistent)] at agrees
  rcases agrees with nothing | realigns
  · have some : ¬ ∀ c ∈ selectedOf [long, short], addedBoundaries c = [] := by decide +kernel
    exact some nothing
  · obtain ⟨m, reaches⟩ := realigns (selectedOf [long]) (selectedOf [short]) rfl nofun nofun
    have few : (reach ((selectedOf [long, short]).flatMap addedBoundaries)).1 = 1 := by
      decide +kernel
    have many : (totalLengths (selectedOf [long])).1 = 256 := by decide +kernel
    have le := (reach_take_le ((selectedOf [long, short]).flatMap addedBoundaries) m).1
    rw [reaches, few, many] at le
    exact absurd le (by decide)

end Mozkey.TypingCorrection
