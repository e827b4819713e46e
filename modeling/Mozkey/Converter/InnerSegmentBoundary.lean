import Mozkey.Converter.InnerSegment

/-!
# Building inner segment boundaries

`InnerSegmentBoundaryBuilder` takes the lengths of the segments one after another and compares
their sums with the key and the value at the end.  `GetPrefixKeyAndValue` merges the first segments
by adding up lengths again, and stops when the key or the value is used up.

The builder adds in 32 bits, so sums are accepted as well that have wrapped around.  Then the key
may be used up in front of the value, and merged prefixes lose parts of the value.
-/

namespace Mozkey.Converter

/-! ## The builder -/

/-- The arguments of `InnerSegmentBoundaryBuilder::Add`. -/
structure SegmentLengths where
  keyLen : UInt32
  valueLen : UInt32
  contentKeyLen : UInt32
  contentValueLen : UInt32

def SegmentLengths.encode (lengths : SegmentLengths) : Option UInt32 :=
  encodeLengths lengths.keyLen.toNat lengths.valueLen.toNat lengths.contentKeyLen.toNat
    lengths.contentValueLen.toNat

structure InnerSegmentBoundaryBuilder where
  error : Bool := false
  boundary : List UInt32 := []
  keyConsumed : UInt32 := 0
  valueConsumed : UInt32 := 0

namespace InnerSegmentBoundaryBuilder

def add (builder : InnerSegmentBoundaryBuilder) (lengths : SegmentLengths) :
    InnerSegmentBoundaryBuilder :=
  if builder.error then builder
  else
    match lengths.encode with
    | some encoded =>
        { builder with
          keyConsumed := builder.keyConsumed + lengths.keyLen
          valueConsumed := builder.valueConsumed + lengths.valueLen
          boundary := builder.boundary ++ [encoded] }
    | none => { builder with error := true }

def build (builder : InnerSegmentBoundaryBuilder) (key value : ByteString) : List UInt32 :=
  if builder.error = true ∨ builder.keyConsumed.toNat ≠ key.length ∨
      builder.valueConsumed.toNat ≠ value.length then []
  else builder.boundary

end InnerSegmentBoundaryBuilder

/-- The boundary that is built from lengths added one after another. -/
def builtBoundary (segments : List SegmentLengths) (key value : ByteString) : List UInt32 :=
  (segments.foldl InnerSegmentBoundaryBuilder.add {}).build key value

/-! ## Merged prefixes -/

/-- The value of an `int` that was given this number. -/
def asInt (n : Int) : Int := (n + 2 ^ 31) % 2 ^ 32 - 2 ^ 31

/-- An `int` as a `size_t`. -/
def asSize (n : Int) : Nat := (n % 2 ^ 64).toNat

/-- The loop of `GetPrefixKeyAndValue`. -/
def prefixLoop (key value : ByteString) :
    Int → Int → Int → List InnerSegment → ByteString × ByteString
  | _, _, _, [] => (key, value)
  | size, keyLen, valueLen, segment :: segments =>
      if size = 0 ∨ key.length ≤ asSize keyLen ∨ value.length ≤ asSize valueLen then
        (key.take (asSize keyLen), value.take (asSize valueLen))
      else
        prefixLoop key value (size - 1) (asInt (keyLen + segment.key.length))
          (asInt (valueLen + segment.value.length)) segments

/-- `InnerSegments::GetPrefixKeyAndValue`. -/
def getPrefixKeyAndValue (key value : ByteString) (boundary : List UInt32) (size : Int) :
    ByteString × ByteString :=
  if size < 0 then (key, value)
  else prefixLoop key value size 0 0 (innerSegments key value boundary)

/-- What a boundary is for: its segments make up the key and the value, their content parts begin
them, and prefixes are merged of them, as far as their number is an `int`. -/
structure CutsInto (boundary : List UInt32) (key value : ByteString) : Prop where
  keys : (innerSegments key value boundary).flatMap (·.key) = key
  values : (innerSegments key value boundary).flatMap (·.value) = value
  contents : ∀ segment ∈ innerSegments key value boundary,
    segment.contentKey <+: segment.key ∧ segment.contentValue <+: segment.value
  merged : ∀ n m : Nat, n ≤ m → m ≤ (innerSegments key value boundary).length → m < 2 ^ 31 →
    (getPrefixKeyAndValue key value boundary m).1 =
        (getPrefixKeyAndValue key value boundary n).1 ++
          (((innerSegments key value boundary).take m).drop n).flatMap (·.key) ∧
      (getPrefixKeyAndValue key value boundary m).2 =
        (getPrefixKeyAndValue key value boundary n).2 ++
          (((innerSegments key value boundary).take m).drop n).flatMap (·.value)

/-- The sums of the first lengths use up the key when they use up the value, and stay below `2³¹`
until then. -/
structure SumsFit (sums : Nat → Lengths) (key value : ByteString) : Prop where
  together : ∀ j < 2 ^ 31 - 1, key.length ≤ (sums j).1 ↔ value.length ≤ (sums j).2
  small : ∀ j < 2 ^ 31, ((sums j).1 < key.length → (sums j).1 < 2 ^ 31) ∧
    ((sums j).2 < value.length → (sums j).2 < 2 ^ 31)

/-! ## The loop of a merged prefix -/

section Loop

variable {key value : ByteString}

theorem asInt_asInt_add (a n : Nat) : asInt (asInt a + n) = asInt ((a + n : Nat) : Int) := by
  unfold asInt
  omega

theorem asSize_asInt_of_lt {n : Nat} (small : n < 2 ^ 31) : asSize (asInt n) = n := by
  unfold asSize asInt
  omega

theorem le_asSize_asInt {n : Nat} (small : n < 2 ^ 32) : n ≤ asSize (asInt n) := by
  unfold asSize asInt
  omega

theorem lt_asSize_asInt {n : Nat} (large : 2 ^ 31 ≤ n) (small : n < 2 ^ 32) :
    2 ^ 32 ≤ asSize (asInt n) := by
  unfold asSize asInt
  omega

/-- The lengths of the first segments. -/
def frontLengths (segments : List InnerSegment) (j : Nat) : Lengths :=
  (((segments.take j).flatMap (·.key)).length, ((segments.take j).flatMap (·.value)).length)

/-- The key or the value seems used up. -/
def Stops (key value : ByteString) (lengths : Lengths) : Prop :=
  key.length ≤ asSize (asInt lengths.1) ∨ value.length ≤ asSize (asInt lengths.2)

theorem frontLengths_succ (segment : InnerSegment) (segments : List InnerSegment) (j : Nat) :
    frontLengths (segment :: segments) (j + 1) =
      (segment.key.length, segment.value.length) + frontLengths segments j := by
  unfold frontLengths
  rw [List.take_succ_cons, List.flatMap_cons, List.flatMap_cons, List.length_append,
    List.length_append]
  rfl

theorem goesOn (n : Nat) {lengths : Lengths} (here : ¬ Stops key value lengths) :
    ¬ (((n + 1 : Nat) : Int) = 0 ∨ key.length ≤ asSize (asInt lengths.1) ∨
      value.length ≤ asSize (asInt lengths.2)) := by
  rintro (none_ | usedUp)
  · omega
  · exact here usedUp

/-- Where the loop stops, it takes what it has added up. -/
theorem prefixLoop_stops {segments : List InnerSegment} {n j : Nat} (inside : j < segments.length)
    (le : j ≤ n) (start : Lengths)
    (goes : ∀ i < j, ¬ Stops key value (start + frontLengths segments i))
    (stops : j = n ∨ Stops key value (start + frontLengths segments j)) :
    prefixLoop key value n (asInt start.1) (asInt start.2) segments =
      (key.take (asSize (asInt (start + frontLengths segments j).1)),
        value.take (asSize (asInt (start + frontLengths segments j).2))) := by
  induction segments generalizing n j start with
  | nil => cases inside
  | cons segment segments ih =>
      have zero : start + frontLengths (segment :: segments) 0 = start := add_zero start
      rw [prefixLoop]
      cases j with
      | zero =>
          rw [zero] at stops ⊢
          rw [if_pos]
          rcases stops with rfl | stops
          · exact .inl rfl
          · exact .inr stops
      | succ j =>
          have here := goes 0 (Nat.succ_pos j)
          rw [zero] at here
          obtain ⟨n, rfl⟩ : ∃ n', n = n' + 1 := ⟨n - 1, by omega⟩
          rw [if_neg (goesOn n here), asInt_asInt_add,
            asInt_asInt_add, Nat.cast_succ, Int.add_sub_cancel]
          have moved : ∀ i, start + frontLengths (segment :: segments) (i + 1) =
              (start.1 + segment.key.length, start.2 + segment.value.length) +
                frontLengths segments i := by
            intro i
            rw [frontLengths_succ, ← add_assoc]
            rfl
          rw [moved]
          refine ih (Nat.lt_of_succ_lt_succ inside) (Nat.le_of_succ_le_succ le)
            (start.1 + segment.key.length, start.2 + segment.value.length) ?_ ?_
          · intro i less
            rw [← moved]
            exact goes (i + 1) (Nat.succ_lt_succ less)
          · rw [← moved]
            exact stops.imp_left Nat.succ.inj

/-- Where the loop never stops, it takes everything. -/
theorem prefixLoop_all {segments : List InnerSegment} {n : Nat} (le : segments.length ≤ n)
    (start : Lengths)
    (goes : ∀ i < segments.length, ¬ Stops key value (start + frontLengths segments i)) :
    prefixLoop key value n (asInt start.1) (asInt start.2) segments = (key, value) := by
  induction segments generalizing n start with
  | nil => rfl
  | cons segment segments ih =>
      rw [List.length_cons] at le
      have here := goes 0 (Nat.succ_pos _)
      rw [show start + frontLengths (segment :: segments) 0 = start from add_zero start] at here
      obtain ⟨n, rfl⟩ : ∃ n', n = n' + 1 := ⟨n - 1, by omega⟩
      rw [prefixLoop, if_neg (goesOn n here), asInt_asInt_add, asInt_asInt_add, Nat.cast_succ,
        Int.add_sub_cancel]
      refine ih (Nat.le_of_succ_le_succ le)
        (start.1 + segment.key.length, start.2 + segment.value.length) ?_
      intro i less
      have next := goes (i + 1) (Nat.succ_lt_succ less)
      rw [frontLengths_succ, ← add_assoc] at next
      exact next

end Loop

/-! ## Boundaries that reach over the key and the value -/

/-- What building makes sure of: no segment is empty, the content parts are not longer than their
segments, and the lengths reach over the key and the value, which take less than `2³²` bytes. -/
structure Covers (boundary : List UInt32) (key value : ByteString) : Prop where
  positive : ∀ e ∈ boundary, 0 < (decodedLengths e).1 ∧ 0 < (decodedLengths e).2
  contents : ∀ e ∈ boundary, (decodeLengths e).contentKeyLen ≤ (decodeLengths e).keyLen ∧
    (decodeLengths e).contentValueLen ≤ (decodeLengths e).valueLen
  keys : key.length ≤ (reach boundary).1
  values : value.length ≤ (reach boundary).2
  keySmall : key.length < 2 ^ 32
  valueSmall : value.length < 2 ^ 32

theorem contents_isPrefix {boundary : List UInt32}
    (contents : ∀ e ∈ boundary, (decodeLengths e).contentKeyLen ≤ (decodeLengths e).keyLen ∧
      (decodeLengths e).contentValueLen ≤ (decodeLengths e).valueLen) (key value : ByteString) :
    ∀ segment ∈ innerSegments key value boundary,
      segment.contentKey <+: segment.key ∧ segment.contentValue <+: segment.value := by
  induction boundary generalizing key value with
  | nil =>
      intro segment member
      rw [innerSegments] at member
      split at member
      · exact absurd member List.not_mem_nil
      · rw [List.mem_singleton.1 member]
        exact ⟨List.prefix_rfl, List.prefix_rfl⟩
  | cons e es ih =>
      rw [List.forall_mem_cons] at contents
      intro segment member
      rw [innerSegments] at member
      split at member
      · exact absurd member List.not_mem_nil
      · rcases List.mem_cons.1 member with rfl | later
        · exact ⟨List.take_prefix_take_left contents.1.1,
            List.take_prefix_take_left contents.1.2⟩
        · exact ih contents.2 _ _ segment later

/-- The iteration goes on as long as the key or the value is not used up. -/
theorem lt_length_iff {boundary : List UInt32} {key value : ByteString}
    (keys : key.length ≤ (reach boundary).1) (values : value.length ≤ (reach boundary).2)
    (j : Nat) :
    j < (innerSegments key value boundary).length ↔
      (reach (boundary.take j)).1 < key.length ∨ (reach (boundary.take j)).2 < value.length := by
  induction boundary generalizing key value j with
  | nil =>
      rw [reach_nil] at keys values
      have none_ : key = [] ∧ value = [] :=
        ⟨List.length_eq_zero_iff.1 (Nat.le_zero.1 keys),
          List.length_eq_zero_iff.1 (Nat.le_zero.1 values)⟩
      rw [innerSegments, if_pos none_, none_.1, none_.2]
      simp
  | cons e es ih =>
      rw [innerSegments]
      split
      · next none_ =>
        rw [none_.1, none_.2]
        simp
      · next some_ =>
        rw [reach_cons] at keys values
        dsimp only
        rw [List.length_cons]
        cases j with
        | zero =>
            have some_' : key.length ≠ 0 ∨ value.length ≠ 0 := by
              rw [ne_eq, ne_eq, List.length_eq_zero_iff, List.length_eq_zero_iff]
              exact not_and_or.1 some_
            rw [List.take_zero, reach_nil]
            show 0 < _ + 1 ↔ 0 < key.length ∨ 0 < value.length
            omega
        | succ j =>
            rw [Prod.fst_add] at keys
            rw [Prod.snd_add] at values
            have keysLeft : (key.drop (decodeLengths e).keyLen).length ≤ (reach es).1 := by
              rw [List.length_drop]
              exact Nat.sub_le_iff_le_add'.2 keys
            have valuesLeft : (value.drop (decodeLengths e).valueLen).length ≤ (reach es).2 := by
              rw [List.length_drop]
              exact Nat.sub_le_iff_le_add'.2 values
            have next := ih keysLeft valuesLeft j
            rw [List.length_drop, List.length_drop] at next
            rw [Nat.add_lt_add_iff_right, next, List.take_succ_cons, reach_cons, Prod.fst_add,
              Prod.snd_add]
            show _ < key.length - (decodedLengths e).1 ∨ _ < value.length - (decodedLengths e).2 ↔ _
            omega

section Covered

variable {boundary : List UInt32} {key value : ByteString} (covers : Covers boundary key value)
include covers

theorem Covers.lt_length_iff (j : Nat) : j < (innerSegments key value boundary).length ↔
    (reach (boundary.take j)).1 < key.length ∨ (reach (boundary.take j)).2 < value.length :=
  Converter.lt_length_iff covers.keys covers.values j

theorem Covers.length_le : (innerSegments key value boundary).length ≤ boundary.length := by
  by_contra longer
  have inside := (covers.lt_length_iff boundary.length).1 (Nat.lt_of_not_le longer)
  rw [List.take_length] at inside
  have keys := covers.keys
  have values := covers.values
  omega

theorem Covers.pieces {j : Nat} (le : j ≤ (innerSegments key value boundary).length) :
    ((innerSegments key value boundary).take j).flatMap (·.key) =
        key.take (reach (boundary.take j)).1 ∧
      ((innerSegments key value boundary).take j).flatMap (·.value) =
        value.take (reach (boundary.take j)).2 :=
  pieces_take key value (le.trans covers.length_le)

theorem Covers.frontLengths {j : Nat} (le : j ≤ (innerSegments key value boundary).length) :
    frontLengths (innerSegments key value boundary) j =
      (min (reach (boundary.take j)).1 key.length,
        min (reach (boundary.take j)).2 value.length) := by
  rw [Converter.frontLengths, (covers.pieces le).1, (covers.pieces le).2, List.length_take,
    List.length_take]

/-- One more segment uses up more of the key and of the value. -/
theorem Covers.reach_lt_succ {j : Nat} (inside : j < boundary.length) :
    (reach (boundary.take j)).1 < (reach (boundary.take (j + 1))).1 ∧
      (reach (boundary.take j)).2 < (reach (boundary.take (j + 1))).2 := by
  have positive := covers.positive _ (List.getElem_mem inside)
  rw [List.take_succ_eq_append_getElem inside, reach_append, reach_cons, reach_nil, add_zero,
    Prod.fst_add, Prod.snd_add]
  omega

/-- Prefixes are merged rightly when all of them are what the lengths say. -/
theorem Covers.cutsInto_iff : CutsInto boundary key value ↔
    ∀ m : Nat, m ≤ (innerSegments key value boundary).length → m < 2 ^ 31 →
      getPrefixKeyAndValue key value boundary m =
        (key.take (reach (boundary.take m)).1, value.take (reach (boundary.take m)).2) := by
  obtain ⟨keys, values⟩ := pieces_all key value boundary
  have none_ : getPrefixKeyAndValue key value boundary (0 : Nat) = ([], []) := by
    unfold getPrefixKeyAndValue
    rw [if_neg (by decide)]
    cases segments : innerSegments key value boundary with
    | nil =>
        rw [segments] at keys values
        rw [prefixLoop, ← keys, ← values]
        rfl
    | cons segment rest =>
        rw [prefixLoop, if_pos (.inl rfl)]
        rfl
  constructor
  · intro cuts m le small
    obtain ⟨key_, value_⟩ := cuts.merged 0 m (Nat.zero_le m) le small
    rw [none_, List.nil_append, List.drop_zero] at key_ value_
    exact Prod.ext (key_.trans (covers.pieces le).1) (value_.trans (covers.pieces le).2)
  · intro merged
    refine ⟨keys, values, contents_isPrefix covers.contents key value, ?_⟩
    intro n m le le' small
    have pieces := covers.pieces le'
    have pieces' := covers.pieces (le.trans le')
    rw [merged m le' small, merged n (le.trans le') (lt_of_le_of_lt le small)]
    dsimp only
    rw [← pieces.1, ← pieces.2, ← pieces'.1, ← pieces'.2, ← List.flatMap_append,
      ← List.flatMap_append]
    have both : (innerSegments key value boundary).take n ++
        ((innerSegments key value boundary).take m).drop n =
        (innerSegments key value boundary).take m := by
      have split := List.take_append_drop n ((innerSegments key value boundary).take m)
      rwa [List.take_take, Nat.min_eq_left le] at split
    rw [both]
    exact ⟨rfl, rfl⟩

/-- Segments that do not use up anything do not stop the loop. -/
theorem Covers.not_stops (fit : SumsFit (fun j => reach (boundary.take j)) key value) {i : Nat}
    (inside : i < (innerSegments key value boundary).length) (small : i < 2 ^ 31 - 1) :
    ¬ Stops key value (0 + Converter.frontLengths (innerSegments key value boundary) i) := by
  have left := (covers.lt_length_iff i).1 inside
  have together := fit.together i small
  have bounds := fit.small i (by omega)
  rw [zero_add, covers.frontLengths inside.le, Stops]
  rw [Nat.min_eq_left (by omega), Nat.min_eq_left (by omega), asSize_asInt_of_lt (by omega),
    asSize_asInt_of_lt (by omega)]
  omega

end Covered

/-- What is taken of a text at a length that is cut to it. -/
theorem take_asSize {text : ByteString} {n : Nat} (small : text.length < 2 ^ 32)
    (fits : n < text.length → n < 2 ^ 31) :
    text.take (asSize (asInt (min n text.length : Nat))) = text.take n := by
  by_cases less : n < text.length
  · rw [Nat.min_eq_left less.le, asSize_asInt_of_lt (fits less)]
  · rw [Nat.min_eq_right (Nat.le_of_not_lt less), List.take_of_length_le (le_asSize_asInt small),
      List.take_of_length_le (Nat.le_of_not_lt less)]

theorem take_ne_take {text : ByteString} {m n : Nat} (less : m < n) (inside : m < text.length) :
    text.take m ≠ text.take n := by
  intro same
  have lengths := congrArg List.length same
  rw [List.length_take, List.length_take] at lengths
  omega

section Covered

variable {boundary : List UInt32} {key value : ByteString} (covers : Covers boundary key value)
include covers

theorem Covers.merged_of_sumsFit (fit : SumsFit (fun j => reach (boundary.take j)) key value)
    {m : Nat} (le : m ≤ (innerSegments key value boundary).length) (small : m < 2 ^ 31) :
    getPrefixKeyAndValue key value boundary m =
      (key.take (reach (boundary.take m)).1, value.take (reach (boundary.take m)).2) := by
  have goes : ∀ i < m, ¬ Stops key value
      (0 + Converter.frontLengths (innerSegments key value boundary) i) := fun i less =>
    covers.not_stops fit (lt_of_lt_of_le less le) (by omega)
  unfold getPrefixKeyAndValue
  rw [if_neg (by omega)]
  rcases Nat.lt_or_eq_of_le le with inside | whole
  · have loop := prefixLoop_stops inside le_rfl 0 goes (.inl rfl)
    have bounds := fit.small m small
    rw [zero_add, covers.frontLengths le] at loop
    dsimp only at loop
    rw [take_asSize covers.keySmall bounds.1, take_asSize covers.valueSmall bounds.2] at loop
    exact loop
  · have pieces := covers.pieces le
    rw [whole, List.take_length, (pieces_all key value boundary).1,
      (pieces_all key value boundary).2, ← whole] at pieces
    rw [← pieces.1, ← pieces.2]
    exact prefixLoop_all whole.ge 0 (whole ▸ goes)

/-- Where the loop stops too early or takes too much, a merged prefix is wrong. -/
theorem Covers.sumsFit_of_merged
    (merged : ∀ m : Nat, m ≤ (innerSegments key value boundary).length → m < 2 ^ 31 →
      getPrefixKeyAndValue key value boundary m =
        (key.take (reach (boundary.take m)).1, value.take (reach (boundary.take m)).2)) :
    SumsFit (fun j => reach (boundary.take j)) key value := by
  have step : ∀ j < 2 ^ 31,
      (((reach (boundary.take j)).1 < key.length → (reach (boundary.take j)).1 < 2 ^ 31) ∧
        ((reach (boundary.take j)).2 < value.length → (reach (boundary.take j)).2 < 2 ^ 31)) ∧
      (j < 2 ^ 31 - 1 → (key.length ≤ (reach (boundary.take j)).1 ↔
        value.length ≤ (reach (boundary.take j)).2)) := by
    intro j
    induction j using Nat.strong_induction_on with
    | _ j ih =>
        intro small
        by_cases inside : j < (innerSegments key value boundary).length
        · have left := (covers.lt_length_iff j).1 inside
          have front := covers.frontLengths inside.le
          have keySmall := covers.keySmall
          have valueSmall := covers.valueSmall
          -- Nothing stops the loop in front of the segment.
          have goes : ∀ i < j, ¬ Stops key value
              (0 + Converter.frontLengths (innerSegments key value boundary) i) := by
            intro i less
            have inside' := lt_trans less inside
            have left := (covers.lt_length_iff i).1 inside'
            obtain ⟨bounds, together⟩ := ih i less (lt_trans less small)
            have together := together (by omega)
            rw [zero_add, covers.frontLengths inside'.le, Stops]
            rw [Nat.min_eq_left (by omega), Nat.min_eq_left (by omega),
              asSize_asInt_of_lt (by omega), asSize_asInt_of_lt (by omega)]
            omega
          have bounds : ((reach (boundary.take j)).1 < key.length →
              (reach (boundary.take j)).1 < 2 ^ 31) ∧
              ((reach (boundary.take j)).2 < value.length →
                (reach (boundary.take j)).2 < 2 ^ 31) := by
            have taken := merged j inside.le small
            unfold getPrefixKeyAndValue at taken
            have loop := prefixLoop_stops inside le_rfl 0 goes (.inl rfl)
            rw [if_neg (by omega)] at taken
            obtain ⟨keys, values⟩ := Prod.mk.inj (loop.symm.trans taken)
            rw [zero_add, front] at keys values
            dsimp only at keys values
            constructor
            · intro less
              by_contra large
              rw [Nat.min_eq_left less.le] at keys
              have far := lt_asSize_asInt (Nat.le_of_not_lt large) (by omega)
              exact take_ne_take (by omega) less keys.symm
            · intro less
              by_contra large
              rw [Nat.min_eq_left less.le] at values
              have far := lt_asSize_asInt (Nat.le_of_not_lt large) (by omega)
              exact take_ne_take (by omega) less values.symm
          refine ⟨bounds, fun small' => ?_⟩
          by_contra apart
          -- The key or the value is used up here, so the next segment is not added.
          have stops : Stops key value
              (0 + Converter.frontLengths (innerSegments key value boundary) j) := by
            rw [zero_add, front, Stops]
            dsimp only
            by_cases usedUp : key.length ≤ (reach (boundary.take j)).1
            · rw [Nat.min_eq_right usedUp]
              exact .inl (le_asSize_asInt keySmall)
            · rw [Nat.min_eq_right (show value.length ≤ (reach (boundary.take j)).2 by omega)]
              exact .inr (le_asSize_asInt valueSmall)
          have taken := merged (j + 1) inside (by omega)
          unfold getPrefixKeyAndValue at taken
          have loop := prefixLoop_stops inside (Nat.le_succ j) 0 goes (.inr stops)
          rw [if_neg (by omega)] at taken
          obtain ⟨keys, values⟩ := Prod.mk.inj (loop.symm.trans taken)
          rw [zero_add, front] at keys values
          dsimp only at keys values
          rw [take_asSize keySmall bounds.1] at keys
          rw [take_asSize valueSmall bounds.2] at values
          have more := covers.reach_lt_succ (lt_of_lt_of_le inside covers.length_le)
          by_cases less : (reach (boundary.take j)).1 < key.length
          · exact take_ne_take more.1 less keys
          · exact take_ne_take more.2 (by omega) values
        · have usedUp := mt (covers.lt_length_iff j).2 inside
          exact ⟨⟨by omega, by omega⟩, by omega⟩
  exact ⟨fun j less => (step j (by omega)).2 less, fun j less => (step j less).1⟩

/-- **A boundary cuts the key and the value** exactly when the sums fit. -/
theorem Covers.cutsInto_iff_sumsFit :
    CutsInto boundary key value ↔ SumsFit (fun j => reach (boundary.take j)) key value := by
  rw [covers.cutsInto_iff]
  exact ⟨covers.sumsFit_of_merged, fun fit m => covers.merged_of_sumsFit fit⟩

end Covered

/-! ## What is built -/

/-- The lengths that segments take together. -/
def reachOf (segments : List SegmentLengths) : Lengths :=
  (segments.map fun lengths => (lengths.keyLen.toNat, lengths.valueLen.toNat)).sum

/-- What the builder holds after some lengths were added. -/
structure Built (segments : List SegmentLengths) (builder : InnerSegmentBoundaryBuilder) :
    Prop where
  encoded : builder.boundary.map some = segments.map SegmentLengths.encode
  keyConsumed : builder.keyConsumed.toNat = (reachOf segments).1 % 2 ^ 32
  valueConsumed : builder.valueConsumed.toNat = (reachOf segments).2 % 2 ^ 32

theorem reachOf_append (segments more : List SegmentLengths) :
    reachOf (segments ++ more) = reachOf segments + reachOf more := by
  rw [reachOf, List.map_append, List.sum_append]
  rfl

theorem add_error (builder : InnerSegmentBoundaryBuilder) (lengths : SegmentLengths) :
    (builder.add lengths).error = false ↔
      builder.error = false ∧ lengths.encode.isSome = true := by
  unfold InnerSegmentBoundaryBuilder.add
  cases error : builder.error <;> cases isEncoded : lengths.encode <;> simp [error]

theorem error_foldl (segments : List SegmentLengths) :
    (segments.foldl InnerSegmentBoundaryBuilder.add {}).error = false ↔
      ∀ lengths ∈ segments, lengths.encode.isSome = true := by
  induction segments using List.reverseRecOn with
  | nil => simp
  | append_singleton segments lengths ih =>
      rw [List.foldl_append, List.foldl_cons, List.foldl_nil, add_error, ih]
      simp [or_imp, forall_and]

theorem built_foldl (segments : List SegmentLengths)
    (noError : (segments.foldl InnerSegmentBoundaryBuilder.add {}).error = false) :
    Built segments (segments.foldl InnerSegmentBoundaryBuilder.add {}) := by
  induction segments using List.reverseRecOn with
  | nil => exact ⟨rfl, rfl, rfl⟩
  | append_singleton segments lengths ih =>
      rw [List.foldl_append, List.foldl_cons, List.foldl_nil] at noError ⊢
      obtain ⟨before, isSome⟩ := (add_error _ _).1 noError
      obtain ⟨encoded, isEncoded⟩ := Option.isSome_iff_exists.1 isSome
      have built := ih before
      generalize segments.foldl InnerSegmentBoundaryBuilder.add {} = builder at before built
      unfold InnerSegmentBoundaryBuilder.add
      rw [if_neg (by rw [before]; decide), isEncoded]
      refine ⟨?_, ?_, ?_⟩
      · rw [List.map_append, List.map_append, built.encoded, List.map_singleton,
          List.map_singleton, isEncoded]
      · rw [UInt32.toNat_add, built.keyConsumed, reachOf_append]
        simp [reachOf]
      · rw [UInt32.toNat_add, built.valueConsumed, reachOf_append]
        simp [reachOf]

section Sums

variable {segments : List SegmentLengths} {boundary : List UInt32}

/-- Each encoded number holds the lengths it was made of. -/
theorem decoded_of_encode {lengths : SegmentLengths} {encoded : UInt32}
    (isEncoded : lengths.encode = some encoded) :
    decodedLengths encoded = (lengths.keyLen.toNat, lengths.valueLen.toNat) ∧
      (0 < (decodedLengths encoded).1 ∧ 0 < (decodedLengths encoded).2) ∧
      (decodeLengths encoded).contentKeyLen ≤ (decodeLengths encoded).keyLen ∧
      (decodeLengths encoded).contentValueLen ≤ (decodeLengths encoded).valueLen := by
  have decoded := decodeLengths_of_encodeLengths isEncoded
  have fixed (len full : Nat) : fixContentLen len full ≤ full := by
    unfold fixContentLen
    split <;> omega
  have positive : lengths.keyLen.toNat ≠ 0 ∧ lengths.valueLen.toNat ≠ 0 := by
    unfold SegmentLengths.encode encodeLengths at isEncoded
    dsimp only at isEncoded
    split_ifs at isEncoded with bad
    simp only [not_or] at bad
    exact ⟨bad.1, bad.2.1⟩
  rw [decodedLengths, decoded]
  exact ⟨rfl, ⟨Nat.pos_of_ne_zero positive.1, Nat.pos_of_ne_zero positive.2⟩, fixed _ _, fixed _ _⟩

theorem reach_take_eq (encoded : boundary.map some = segments.map SegmentLengths.encode) (j : Nat) :
    reach (boundary.take j) = reachOf (segments.take j) := by
  have decoded : boundary.map decodedLengths =
      segments.map fun lengths => (lengths.keyLen.toNat, lengths.valueLen.toNat) := by
    induction boundary generalizing segments with
    | nil =>
        rw [List.map_nil, List.nil_eq, List.map_eq_nil_iff] at encoded
        rw [encoded]
        rfl
    | cons e es ih =>
        cases segments with
        | nil => cases encoded
        | cons lengths segments =>
            rw [List.map_cons, List.map_cons, List.cons.injEq] at encoded
            rw [List.map_cons, List.map_cons, ih encoded.2, (decoded_of_encode encoded.1.symm).1]
  rw [reach, reachOf, List.map_take, List.map_take, decoded]

end Sums

/-- What is built reaches over the key and the value. -/
theorem covers_of_built {segments : List SegmentLengths} {key value : ByteString}
    (some_ : builtBoundary segments key value ≠ []) :
    ∃ boundary, builtBoundary segments key value = boundary ∧
      boundary.map some = segments.map SegmentLengths.encode ∧ Covers boundary key value := by
  unfold builtBoundary InnerSegmentBoundaryBuilder.build at some_ ⊢
  split at some_
  · exact absurd rfl some_
  next accepted =>
  rw [if_neg accepted]
  simp only [not_or, not_not, Bool.not_eq_true] at accepted
  obtain ⟨noError, keys, values⟩ := accepted
  have built := built_foldl segments noError
  refine ⟨_, rfl, built.encoded, ?_⟩
  have each : ∀ e ∈ (segments.foldl InnerSegmentBoundaryBuilder.add {}).boundary,
      ∃ lengths ∈ segments, lengths.encode = some e := by
    intro e member
    have mapped := List.mem_map_of_mem (f := some) member
    rw [built.encoded] at mapped
    exact List.mem_map.1 mapped
  have total := reach_take_eq built.encoded segments.length
  have lengths := congrArg List.length built.encoded
  rw [List.length_map, List.length_map] at lengths
  rw [List.take_length, List.take_of_length_le lengths.le] at total
  refine ⟨?_, ?_, ?_, ?_, ?_, ?_⟩
  · intro e member
    obtain ⟨lengths, -, isEncoded⟩ := each e member
    exact (decoded_of_encode isEncoded).2.1
  · intro e member
    obtain ⟨lengths, -, isEncoded⟩ := each e member
    exact (decoded_of_encode isEncoded).2.2
  · rw [total, ← keys, built.keyConsumed]
    exact Nat.mod_le _ _
  · rw [total, ← values, built.valueConsumed]
    exact Nat.mod_le _ _
  · rw [← keys]
    exact UInt32.toNat_lt _
  · rw [← values]
    exact UInt32.toNat_lt _

/-- **A built boundary cuts the key and the value exactly when the sums of the lengths fit.** -/
theorem builtBoundary_cutsInto_iff {segments : List SegmentLengths} {key value : ByteString}
    (some_ : builtBoundary segments key value ≠ []) :
    CutsInto (builtBoundary segments key value) key value ↔
      SumsFit (fun j => reachOf (segments.take j)) key value := by
  obtain ⟨boundary, is, encoded, covers⟩ := covers_of_built some_
  rw [is, covers.cutsInto_iff_sumsFit]
  simp only [reach_take_eq encoded]

/-- In the ordinary case, where no sum reaches `2³¹`, the sums fit. -/
theorem sumsFit_of_lt {segments : List SegmentLengths} {key value : ByteString}
    (some_ : builtBoundary segments key value ≠ []) (keysSmall : (reachOf segments).1 < 2 ^ 31)
    (valuesSmall : (reachOf segments).2 < 2 ^ 31) :
    SumsFit (fun j => reachOf (segments.take j)) key value := by
  obtain ⟨boundary, is, encoded, covers⟩ := covers_of_built some_
  have lengths := congrArg List.length encoded
  rw [List.length_map, List.length_map] at lengths
  have total : reach boundary = reachOf segments := by
    have whole := reach_take_eq encoded segments.length
    rwa [List.take_length, List.take_of_length_le lengths.le] at whole
  have exact_ : key.length = (reachOf segments).1 ∧ value.length = (reachOf segments).2 := by
    unfold builtBoundary InnerSegmentBoundaryBuilder.build at some_
    split at some_
    · exact absurd rfl some_
    next accepted =>
    simp only [not_or, not_not, Bool.not_eq_true] at accepted
    have built := built_foldl segments accepted.1
    rw [← accepted.2.1, ← accepted.2.2, built.keyConsumed, built.valueConsumed]
    exact ⟨Nat.mod_eq_of_lt (by omega), Nat.mod_eq_of_lt (by omega)⟩
  have atMost : ∀ j, reachOf (segments.take j) ≤ reachOf segments := fun j => by
    rw [← reach_take_eq encoded, ← total]
    exact reach_take_le boundary j
  refine ⟨fun j _ => ?_, fun j _ => ⟨fun less => ?_, fun less => ?_⟩⟩
  · by_cases inside : j < segments.length
    · -- The next segment still has to find its place.
      have more := covers.reach_lt_succ (lengths ▸ inside)
      have next := atMost (j + 1)
      rw [reach_take_eq encoded, reach_take_eq encoded] at more
      exact iff_of_false (by have := next.1; omega) (by have := next.2; omega)
    · rw [List.take_of_length_le (Nat.le_of_not_lt inside)]
      exact iff_of_true exact_.1.le exact_.2.le
  · exact lt_of_le_of_lt (atMost j).1 keysSmall
  · exact lt_of_le_of_lt (atMost j).2 valuesSmall

theorem builtBoundary_cutsInto_two :
    CutsInto (builtBoundary [⟨2, 3, 1, 1⟩, ⟨3, 1, 0, 9⟩] (ascii "kkkkk") (ascii "vvvv"))
      (ascii "kkkkk") (ascii "vvvv") :=
  (builtBoundary_cutsInto_iff (by decide)).2
    (sumsFit_of_lt (by decide) (by decide) (by decide))

/-! ## Sums that wrap around -/

theorem reachOf_replicate (n : Nat) (lengths : SegmentLengths) :
    reachOf (List.replicate n lengths) =
      (n * lengths.keyLen.toNat, n * lengths.valueLen.toNat) := by
  rw [reachOf, List.map_replicate, List.sum_replicate]
  rfl

/-- Many segments of 255 bytes of the key and one byte of the value, with a short key. -/
theorem wrapped_not_cutsInto {n : Nat} (keys : n * 255 % 2 ^ 32 = 254) (small : n < 2 ^ 32)
    (some_ : 1 < n) :
    builtBoundary (List.replicate n ⟨255, 1, 255, 1⟩) (List.replicate 254 0)
        (List.replicate n 0) ≠ [] ∧
      ¬ CutsInto (builtBoundary (List.replicate n ⟨255, 1, 255, 1⟩) (List.replicate 254 0)
        (List.replicate n 0)) (List.replicate 254 0) (List.replicate n 0) := by
  have noError := (error_foldl (List.replicate n ⟨255, 1, 255, 1⟩)).2 fun lengths member => by
    rw [List.eq_of_mem_replicate member]
    decide
  have built := built_foldl _ noError
  have keyConsumed := built.keyConsumed
  have valueConsumed := built.valueConsumed
  rw [reachOf_replicate] at keyConsumed valueConsumed
  have isBuilt : builtBoundary (List.replicate n ⟨255, 1, 255, 1⟩) (List.replicate 254 0)
      (List.replicate n 0) ≠ [] := by
    unfold builtBoundary InnerSegmentBoundaryBuilder.build
    rw [if_neg]
    · intro none_
      have lengths := congrArg List.length built.encoded
      rw [none_, List.map_nil, List.length_nil, List.length_map, List.length_replicate] at lengths
      omega
    · rw [keyConsumed, valueConsumed, List.length_replicate, List.length_replicate, noError]
      show ¬ (false = true ∨ n * 255 % 2 ^ 32 ≠ 254 ∨ n * 1 % 2 ^ 32 ≠ n)
      rw [keys, Nat.mul_one, Nat.mod_eq_of_lt small]
      simp
  refine ⟨isBuilt, ?_⟩
  obtain ⟨boundary, is, encoded, covers⟩ := covers_of_built isBuilt
  rw [is, covers.cutsInto_iff_sumsFit]
  intro fit
  have together := fit.together 1 (by norm_num)
  rw [reach_take_eq encoded, List.take_replicate, Nat.min_eq_left some_.le, reachOf_replicate,
    List.length_replicate, List.length_replicate] at together
  have usedUp : n ≤ 1 * 1 := together.1 (by decide)
  omega

/-- With 16843010 segments the sum of the key lengths is `2³² + 254`. -/
theorem not_builtBoundary_cutsInto : ¬ ∀ (segments : List SegmentLengths) (key value : ByteString),
    builtBoundary segments key value ≠ [] →
      CutsInto (builtBoundary segments key value) key value := by
  intro claim
  obtain ⟨isBuilt, wrong⟩ := wrapped_not_cutsInto (n := 16843010) (by norm_num) (by norm_num)
    (by norm_num)
  exact wrong (claim _ _ _ isBuilt)

end Mozkey.Converter
