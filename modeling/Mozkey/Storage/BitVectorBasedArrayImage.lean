import Mozkey.Storage.BitVectorBasedArrayBuilder

/-!
# The image of an array of padded elements

`Open` reads the lengths of an image as numbers of 32 bits with a sign, and `Get` computes the place
of an element with numbers of 64 bits, but keeps it as one of 32 bits.

What `Get` returns is the place of the padded element exactly when these numbers are large enough,
when no length goes below zero in the builder, and when the index of the zero bits is a right one.
-/

namespace Mozkey.Storage

open Mozkey.Lib

/-! ## The opened image -/

/-- A conversion of an `int` to `size_t`. -/
def toSize (n : Int) : Nat := (n % 2 ^ 64).toNat

def kLb0CacheSize : Nat := 1024

def kLb1CacheSize : Nat := 0

/-- `max_size` of a vector of pointers. -/
def maxPointers : Nat := 2 ^ 60 - 1

/-- `BitVectorBasedArray`, opened. -/
structure OpenedArray where
  index : CachedBitVectorIndex
  baseLength : Nat
  stepLength : Nat
  data : ByteString
  deriving Repr

namespace OpenedArray

/-- `Open`. -/
def openImage (image : ByteString) : Except Failure OpenedArray := do
  let indexLength := toInt (loadUnaligned32At image).toNat
  let baseLength := toInt (loadUnaligned32At (image.drop 4)).toNat
  let stepLength := toInt (loadUnaligned32At (image.drop 8)).toNat
  if loadUnaligned32At (image.drop 12) ≠ 0 then throw .checkFails
  -- With a negative length the index has one entry at most, and of more than 2^34 bits only the
  -- ranks in the first 256 can be read.
  if indexLength < 0 then throw .outside
  let indexImage := (image.drop 16).take indexLength.toNat
  let index ← CachedBitVectorIndex.init maxPointers 32 indexImage indexLength.toNat kLb0CacheSize
    kLb1CacheSize
  return {
    index
    baseLength := toSize baseLength
    stepLength := toSize stepLength
    data := image.drop (16 + indexLength.toNat) }

/-- The linear search of `Get`, among the bits of the index. -/
def searchZero (index : SimpleSuccinctBitVectorIndex) : Nat → Nat → Except Failure Nat
  | 0, _ => .error .outside
  | fuel + 1, i =>
      if index.data.length ≤ i / 8 then .error .outside
      else if index.get i then searchZero index fuel (i + 1)
      else .ok i

/-- `Get`: where the pointer points to in the data, and the length. -/
def get (array : OpenedArray) (index : Nat) : Except Failure (Int × Nat) := do
  let bitIndex ← array.index.select0 (toInt (index + 1 : Nat)).toNat
  let ones ← array.index.rank1 bitIndex.toNat
  let dataIndex := toInt (array.baseLength * index + array.stepLength * toSize ones : Nat)
  let i ← searchZero array.index.toSimpleSuccinctBitVectorIndex (8 * array.index.data.length + 1)
    (bitIndex.toNat + 1)
  let length := (array.baseLength + array.stepLength * toSize (i - bitIndex - 1)) % 2 ^ 64
  return (dataIndex, length)

end OpenedArray

/-! ## What `Get` returns -/

namespace OpenedArray

open BitVectorBasedArray BitVectorBasedArrayBuilder CachedBitVectorIndex

theorem toInt_of_le {n : Nat} (large : 2 ^ 31 ≤ n) (small : n < 2 ^ 32) :
    toInt n = (n : Int) - 2 ^ 32 := by
  rw [toInt, ← Int.sub_bmod_right]
  exact Int.bmod_eq_of_le (by omega) (by omega)

theorem toSize_natCast {n : Nat} (small : n < 2 ^ 64) : toSize n = n := by
  rw [toSize, Int.emod_eq_of_lt (by omega) (by omega), Int.toNat_natCast]

/-- How often 2^32 is added to a length of 32 bits that is kept with a sign. -/
def wraps (n : Nat) : Nat := if n < 2 ^ 31 then 0 else 2 ^ 32 - 1

theorem wraps_cases (n : Nat) :
    n < 2 ^ 31 ∧ wraps n = 0 ∨ 2 ^ 31 ≤ n ∧ wraps n = 4294967295 := by
  unfold wraps
  split <;> omega

theorem toSize_toInt {n : Nat} (small : n < 2 ^ 32) :
    toSize (toInt n) = n + 2 ^ 32 * wraps n := by
  obtain ⟨less, none_⟩ | ⟨large, isWrap⟩ := wraps_cases n
  · rw [none_, toInt_of_lt less, toSize_natCast (by omega), Nat.mul_zero, Nat.add_zero]
  · rw [isWrap, toInt_of_le large small, toSize]
    omega

/-- The opened image of a builder. -/
theorem openImage_eq_ok_iff {baseLength stepLength : Nat} (baseSmall : baseLength < 2 ^ 32)
    (stepSmall : stepLength < 2 ^ 32) {words data : ByteString} (small : words.length < 2 ^ 32)
    {array : OpenedArray} :
    openImage (imageOf baseLength stepLength words data) = .ok array ↔
      words.length < 2 ^ 31 ∧
        init maxPointers 32 words words.length kLb0CacheSize kLb1CacheSize = .ok array.index ∧
          array.baseLength = toSize (toInt baseLength) ∧
            array.stepLength = toSize (toInt stepLength) ∧ array.data = data := by
  have loaded {n : Nat} (small : n < 2 ^ 32) (rest : ByteString) :
      (loadUnaligned32At (storeUnaligned32 (UInt32.ofNat n) ++ rest)).toNat = n := by
    rw [loadUnaligned32At_store, UInt32.toNat_ofNat', Nat.mod_eq_of_lt small]
  have dropped (n : UInt32) (rest : ByteString) : (storeUnaligned32 n ++ rest).drop 4 = rest := rfl
  have dropped8 (m n : UInt32) (rest : ByteString) :
      (storeUnaligned32 m ++ (storeUnaligned32 n ++ rest)).drop 8 = rest := rfl
  have dropped12 (l m n : UInt32) (rest : ByteString) :
      (storeUnaligned32 l ++ (storeUnaligned32 m ++ (storeUnaligned32 n ++ rest))).drop 12
        = rest := rfl
  have dropped16 (k l m n : UInt32) (rest : ByteString) :
      (storeUnaligned32 k ++ (storeUnaligned32 l ++ (storeUnaligned32 m
        ++ (storeUnaligned32 n ++ rest)))).drop 16 = rest := rfl
  unfold openImage imageOf
  dsimp only
  rw [dropped, dropped8, dropped12, dropped16, loaded small, loaded baseSmall, loaded stepSmall,
    loadUnaligned32At_store, if_neg (by decide)]
  rcases Nat.lt_or_ge words.length (2 ^ 31) with short | long
  · rw [toInt_of_lt short, if_neg (by omega), Int.toNat_natCast, List.take_left,
      ← List.drop_drop, dropped16, List.drop_left]
    generalize toSize (toInt (baseLength : Nat)) = base
    generalize toSize (toInt (stepLength : Nat)) = step
    constructor
    · intro done
      obtain ⟨index, isIndex, done⟩ := bind_eq_ok_iff.1 done
      cases done
      exact ⟨short, isIndex, rfl, rfl, rfl⟩
    · rintro ⟨-, isIndex, isBase, isStep, isData⟩
      rw [isIndex, bind_ok_, ← isBase, ← isStep, ← isData]
      rfl
  · rw [toInt_of_le long small, if_pos (by omega)]
    exact ⟨fun done => (by cases done), fun ⟨short, _⟩ => absurd long (by omega)⟩

/-- An opened image with some words and data. -/
structure IsOpened (baseLength stepLength : Nat) (words data : ByteString) (array : OpenedArray) :
    Prop where
  index : init maxPointers 32 words words.length kLb0CacheSize kLb1CacheSize = .ok array.index
  base : array.baseLength = toSize (toInt baseLength)
  step : array.stepLength = toSize (toInt stepLength)
  data : array.data = data

theorem openImage_iff {baseLength stepLength : Nat} (baseSmall : baseLength < 2 ^ 32)
    (stepSmall : stepLength < 2 ^ 32) {words data : ByteString} (small : words.length < 2 ^ 32)
    {array : OpenedArray} :
    openImage (imageOf baseLength stepLength words data) = .ok array ↔
      words.length < 2 ^ 31 ∧ IsOpened baseLength stepLength words data array := by
  rw [openImage_eq_ok_iff baseSmall stepSmall small]
  constructor
  · rintro ⟨short, index, base, step, isData⟩
    exact ⟨short, index, base, step, isData⟩
  · rintro ⟨short, index, base, step, isData⟩
    exact ⟨short, index, base, step, isData⟩

/-- One bit of the search. -/
theorem searchZero_cons {index : SimpleSuccinctBitVectorIndex} {i : Nat} {bit : Bool}
    {rest : List Bool} (here : (bitsOf index.data).drop i = bit :: rest) (fuel : Nat) :
    (bitsOf index.data).drop (i + 1) = rest ∧
      searchZero index (fuel + 1) i = if bit then searchZero index fuel (i + 1) else .ok i := by
  have isBit : index.get i = bit := by
    have whole := SimpleSuccinctBitVectorIndex.get_init index.chunkSize index.data index.length i
    have first : ((bitsOf index.data).drop i).getD 0 false = bit := by rw [here]; rfl
    rw [List.getD_eq_getElem?_getD, List.getElem?_drop, Nat.add_zero,
      ← List.getD_eq_getElem?_getD] at first
    exact whole.trans first
  have inside : i / 8 < index.data.length := by
    have length := congrArg List.length here
    rw [List.length_drop, length_bitsOf, List.length_cons] at length
    omega
  refine ⟨?_, ?_⟩
  · rw [← List.drop_drop, here, List.drop_one, List.tail_cons]
  · rw [searchZero, if_neg (Nat.not_le.2 inside), isBit]

/-- The search ends behind a run of one bits. -/
theorem searchZero_eq {index : SimpleSuccinctBitVectorIndex} {k fuel i : Nat} {rest : List Bool}
    (enough : k < fuel)
    (run : (bitsOf index.data).drop i = List.replicate k true ++ false :: rest) :
    searchZero index fuel i = .ok (i + k) := by
  obtain ⟨fuel, rfl⟩ := Nat.exists_eq_succ_of_ne_zero (Nat.ne_zero_of_lt enough)
  induction k generalizing fuel i with
  | zero => rw [(searchZero_cons run fuel).2, if_neg Bool.false_ne_true, Nat.add_zero]
  | succ k ih =>
      obtain ⟨fuel, rfl⟩ := Nat.exists_eq_succ_of_ne_zero (show fuel ≠ 0 by omega)
      obtain ⟨next, step⟩ := searchZero_cons run (fuel + 1)
      rw [step, if_pos rfl, ih next _ (by omega)]
      congr 1
      omega

/-- What `Get` computes for an element, where rank and select are those of the bits. -/
theorem get_eq {array : OpenedArray} {baseLength stepLength : Nat} {front back : List ByteString}
    {element : ByteString}
    (isIndex : IndexWords
      (BitVectorBasedArray.build baseLength stepLength (front ++ element :: back)).index
      array.index.data)
    (small : 8 * array.index.data.length < 2 ^ 31)
    (select : ∀ n, 1 ≤ n → n ≤ front.length + 1 →
      array.index.select0 n = .ok (Lib.select false (bitsOf array.index.data) n))
    (rank : ∀ n ≤ (bitsOf array.index.data).length,
      array.index.rank1 n = .ok (Lib.rank true (bitsOf array.index.data) n)) :
    array.get front.length = .ok
      (toInt (array.baseLength * front.length
          + array.stepLength * (front.flatMap (code baseLength stepLength)).count true : Nat),
        (array.baseLength + array.stepLength * numSteps baseLength stepLength element)
          % 2 ^ 64) := by
  obtain ⟨rest, split⟩ := index_build baseLength stepLength front element back
  obtain ⟨padding, isBits⟩ : ∃ padding, bitsOf array.index.data
      = front.flatMap (code baseLength stepLength) ++ (false ::
        (List.replicate (numSteps baseLength stepLength element) true ++ false :: padding)) := by
    obtain ⟨more, bits⟩ : ∃ more, bitsOf array.index.data
        = (BitVectorBasedArray.build baseLength stepLength (front ++ element :: back)).index
          ++ List.replicate more false := ⟨_, isIndex.bits⟩
    refine ⟨rest ++ List.replicate more false, ?_⟩
    rw [bits, split, List.append_assoc, List.cons_append, List.append_assoc, List.cons_append]
  have length := congrArg List.length isBits
  rw [length_bitsOf, List.length_append, List.length_cons, List.length_append,
    List.length_replicate, List.length_cons] at length
  have counted := count_false_codes baseLength stepLength front
  have most : (front.flatMap (code baseLength stepLength)).count false
      ≤ (front.flatMap (code baseLength stepLength)).length := List.count_le_length
  have found : Lib.select false (bitsOf array.index.data) (front.length + 1)
      = (front.flatMap (code baseLength stepLength)).length := by
    rw [isBits, ← counted, select_append, select_cons_self_one]
    rfl
  have ones : Lib.rank true (bitsOf array.index.data)
      (front.flatMap (code baseLength stepLength)).length
        = (front.flatMap (code baseLength stepLength)).count true := by
    rw [isBits, rank_append_length]
  have run : (bitsOf array.index.data).drop
      ((front.flatMap (code baseLength stepLength)).length + 1)
        = List.replicate (numSteps baseLength stepLength element) true ++ false :: padding := by
    rw [isBits, List.drop_length_add_append, List.drop_succ_cons, List.drop_zero]
  have fewOnes : (front.flatMap (code baseLength stepLength)).count true
      ≤ (front.flatMap (code baseLength stepLength)).length := List.count_le_length
  have ended : (((front.flatMap (code baseLength stepLength)).length + 1
      + numSteps baseLength stepLength element : Nat) : Int)
        - (front.flatMap (code baseLength stepLength)).length - 1
          = (numSteps baseLength stepLength element : Nat) := by omega
  unfold get
  rw [toInt_of_lt (by omega), Int.toNat_natCast, select _ (by omega) le_rfl, bind_ok_, found,
    Int.toNat_natCast, rank _ (by rw [length_bitsOf]; omega), bind_ok_, ones,
    searchZero_eq (by omega) run, bind_ok_, ended, toSize_natCast (by omega),
    toSize_natCast (by omega)]
  rfl

end OpenedArray

/-! ## When the padded elements come back -/

namespace BitVectorBasedArrayBuilder

open BitVectorBasedArray CachedBitVectorIndex OpenedArray

variable {baseLength stepLength : Nat}

/-- An element padded with zero bytes to the smallest length of steps behind the base. -/
def IsPadded (baseLength stepLength : Nat) (element padded : ByteString) : Prop :=
  ∃ k, IsLeast {k | element.length ≤ baseLength + k * stepLength} k ∧
    padded = element ++ List.replicate (baseLength + k * stepLength - element.length) 0

theorem isLeast_numSteps (positive : 0 < stepLength) (element : ByteString) :
    IsLeast {k | element.length ≤ baseLength + k * stepLength}
      (numSteps baseLength stepLength element) := by
  refine ⟨le_countSteps baseLength positive le_rfl, fun k reaches => ?_⟩
  have reaches : element.length ≤ baseLength + k * stepLength := reaches
  rw [numSteps_eq_ceilSteps positive, ceilSteps]
  refine Nat.le_of_lt_succ ((Nat.div_lt_iff_lt_mul positive).2 ?_)
  rw [Nat.succ_mul]
  omega

theorem isPadded_iff (positive : 0 < stepLength) {element padded : ByteString} :
    IsPadded baseLength stepLength element padded
      ↔ padded = padElement baseLength stepLength element := by
  constructor
  · rintro ⟨k, least, rfl⟩
    rw [least.unique (isLeast_numSteps positive element)]
    rfl
  · rintro rfl
    exact ⟨_, isLeast_numSteps positive element, rfl⟩

/-- `Get` returns the place and the length of a padded element behind the padded elements in front
of it. -/
def Returns (baseLength stepLength : Nat) (front : List ByteString) (element : ByteString)
    (array : OpenedArray) : Prop :=
  ∃ before padded, List.Forall₂ (IsPadded baseLength stepLength) front before ∧
    IsPadded baseLength stepLength element padded ∧
      array.get front.length = .ok (before.flatten.length, padded.length) ∧
        (array.data.drop before.flatten.length).take padded.length = padded

/-- The image is built, and every element is returned from it. -/
def RoundTrips (baseLength stepLength : Nat) (elements : List ByteString) : Prop :=
  ∃ image, build baseLength stepLength elements = .ok image ∧
    ∀ front element back, elements = front ++ element :: back →
      ∃ array, openImage image = .ok array ∧ Returns baseLength stepLength front element array

theorem forall₂_isPadded_iff (positive : 0 < stepLength) {front before : List ByteString} :
    List.Forall₂ (IsPadded baseLength stepLength) front before
      ↔ before = front.map (padElement baseLength stepLength) := by
  induction front generalizing before with
  | nil => rw [List.forall₂_nil_left_iff, List.map_nil]
  | cons element front ih =>
      rw [List.forall₂_cons_left_iff, List.map_cons]
      constructor
      · rintro ⟨padded, others, isPadded, all, rfl⟩
        rw [(isPadded_iff positive).1 isPadded, ih.1 all]
      · rintro rfl
        exact ⟨_, _, (isPadded_iff positive).2 rfl, ih.2 rfl, rfl⟩

/-- A place that is kept as a number of 32 bits. -/
theorem place_eq_iff (baseSmall : baseLength < 2 ^ 32) (stepSmall : stepLength < 2 ^ 32)
    (i ones : Nat) :
    toInt (toSize (toInt baseLength) * i + toSize (toInt stepLength) * ones : Nat)
        = (baseLength * i + stepLength * ones : Nat)
      ↔ baseLength * i + stepLength * ones < 2 ^ 31 := by
  have isSum : toSize (toInt baseLength) * i + toSize (toInt stepLength) * ones
      = baseLength * i + stepLength * ones
        + 2 ^ 32 * (wraps baseLength * i + wraps stepLength * ones) := by
    rw [toSize_toInt baseSmall, toSize_toInt stepSmall]
    ring
  rw [isSum]
  generalize wraps baseLength * i + wraps stepLength * ones = more
  generalize baseLength * i + stepLength * ones = place
  have wrapped : toInt ((place + 2 ^ 32 * more : Nat) : Int) = toInt (place : Int) := by
    rw [toInt, toInt, Nat.cast_add, Nat.cast_mul, Int.add_mul_bmod_self_left]
  rw [wrapped]
  constructor
  · intro same
    have less : toInt place < 2 ^ 31 := lt_of_lt_of_le (Int.bmod_lt (by decide)) (by decide)
    omega
  · exact toInt_of_lt

theorem mod_eq_self_iff {x y : Nat} (small : x < 2 ^ 64) :
    (x + 2 ^ 32 * y) % 2 ^ 64 = x ↔ y % 2 ^ 32 = 0 := by
  omega

/-- A length that is computed with numbers of 64 bits from two that are kept with a sign. -/
theorem length_eq_iff (baseSmall : baseLength < 2 ^ 32) (stepSmall : stepLength < 2 ^ 32)
    {k : Nat} (few : k < 2 ^ 31) :
    (toSize (toInt baseLength) + toSize (toInt stepLength) * k) % 2 ^ 64
        = baseLength + k * stepLength
      ↔ baseLength < 2 ^ 31 ∧ (k = 0 ∨ stepLength < 2 ^ 31) := by
  have product : k * stepLength ≤ 2 ^ 31 * 2 ^ 32 :=
    Nat.mul_le_mul (Nat.le_of_lt few) (Nat.le_of_lt stepSmall)
  have isSum : toSize (toInt baseLength) + toSize (toInt stepLength) * k
      = baseLength + k * stepLength + 2 ^ 32 * (wraps baseLength + wraps stepLength * k) := by
    rw [toSize_toInt baseSmall, toSize_toInt stepSmall]
    ring
  rw [isSum, mod_eq_self_iff (by omega)]
  obtain ⟨base, noWrap⟩ | ⟨base, wrap⟩ := wraps_cases baseLength
  · obtain ⟨step, noWrap'⟩ | ⟨step, wrap'⟩ := wraps_cases stepLength
    · rw [noWrap, noWrap']
      omega
    · rw [noWrap, wrap']
      omega
  · obtain ⟨step, noWrap'⟩ | ⟨step, wrap'⟩ := wraps_cases stepLength
    · rw [wrap, noWrap']
      omega
    · rw [wrap, wrap']
      omega

/-- The bits of the index: one for each element, one for each step, and one at the end. -/
theorem length_index (elements : List ByteString) :
    (BitVectorBasedArray.build baseLength stepLength elements).index.length
      = elements.length + (elements.flatMap (code baseLength stepLength)).count true + 1 := by
  have whole := List.count_true_add_count_false (elements.flatMap (code baseLength stepLength))
  rw [count_false_codes] at whole
  show (elements.flatMap (code baseLength stepLength) ++ [false]).length = _
  rw [List.length_append, List.length_singleton]
  omega

theorem IndexWords.count_true {elements : List ByteString} {words : ByteString}
    (isIndex : IndexWords (BitVectorBasedArray.build baseLength stepLength elements).index words) :
    (bitsOf words).count true = (elements.flatMap (code baseLength stepLength)).count true := by
  have none_ (n : Nat) : (List.replicate n false).count true = 0 := by
    rw [List.count_replicate]
    rfl
  rw [isIndex.bits, List.count_append, none_, Nat.add_zero]
  show (elements.flatMap (code baseLength stepLength) ++ [false]).count true = _
  rw [List.count_append]
  rfl

/-- Every element has a zero bit. -/
theorem IndexWords.le_count_false {elements : List ByteString} {words : ByteString}
    (isIndex : IndexWords (BitVectorBasedArray.build baseLength stepLength elements).index words) :
    elements.length ≤ (bitsOf words).count false := by
  rw [isIndex.bits, List.count_append]
  show _ ≤ (elements.flatMap (code baseLength stepLength) ++ [false]).count false + _
  rw [List.count_append, count_false_codes]
  omega

/-- Some element has a step. -/
theorem count_true_pos_iff (positive : 0 < stepLength) (elements : List ByteString) :
    0 < (elements.flatMap (code baseLength stepLength)).count true
      ↔ ∃ element ∈ elements, baseLength < element.length := by
  have each (element : ByteString) : (code baseLength stepLength element).count true
      = ceilSteps baseLength stepLength element.length := by
    rw [List.count_cons_of_ne Bool.false_ne_true, List.count_replicate_self,
      numSteps_eq_ceilSteps positive]
  induction elements with
  | nil => simp
  | cons element elements ih =>
      rw [List.flatMap_cons, List.count_append, each, List.exists_mem_cons_iff]
      rcases Nat.lt_or_ge baseLength element.length with long | short
      · rw [ceilSteps_of_lt positive long]
        simp only [long, true_or, iff_true]
        omega
      · rw [ceilSteps_of_le positive short, Nat.zero_add]
        simp only [Nat.not_lt.2 short, false_or]
        exact ih

/-- Where the index has no one bit, the number of elements says whether it reaches the last
chunk. -/
theorem index_reaches_iff (positive : 0 < stepLength) {elements : List ByteString}
    {words : ByteString}
    (isIndex : IndexWords (BitVectorBasedArray.build baseLength stepLength elements).index words) :
    (0 < (bitsOf words).count true ∨ words.length + 32 ≤ 2 ^ 28) ↔
      (∃ element ∈ elements, baseLength < element.length) ∨ elements.length < 2 ^ 31 - 256 := by
  rw [isIndex.count_true, count_true_pos_iff positive, isIndex.length, BitStream.wordBytes,
    length_index]
  by_cases some_ : ∃ element ∈ elements, baseLength < element.length
  · simp only [some_, true_or]
  · have none_ := mt (count_true_pos_iff positive elements).1 some_
    simp only [some_, false_or]
    omega

/-- What an array has to be for its padded elements to come back. -/
structure Fits (baseLength stepLength : Nat) (elements : List ByteString) : Prop where
  base : baseLength < 2 ^ 32
  step : stepLength < 2 ^ 32
  staysAbove : ∀ element ∈ elements, StaysAbove baseLength stepLength element.length
  index : (BitVectorBasedArray.build baseLength stepLength elements).index.length + 32 ≤ 2 ^ 31
  lastChunk : (∃ element ∈ elements, baseLength < element.length) ∨ elements.length < 2 ^ 31 - 256
  baseSign : elements ≠ [] → baseLength < 2 ^ 31
  stepSign : ∀ element ∈ elements, baseLength < element.length → stepLength < 2 ^ 31
  data : (elements.dropLast.flatMap (padElement baseLength stepLength)).length < 2 ^ 31

/-- The index of an opened image. -/
theorem openedIndex {words : ByteString} {vector : CachedBitVectorIndex}
    (done : init maxPointers 32 words words.length kLb0CacheSize kLb1CacheSize = .ok vector) :
    vector.data = words ∧ 8 * words.length < 2 ^ 31 := by
  obtain ⟨-, fits, isVector, -⟩ := init_eq_ok_iff.1 done
  exact ⟨by rw [isVector]; rfl, fits⟩

/-- Where the index is a right one, `Get` returns an element exactly if its place and its length are
not too large. -/
theorem returns_iff (positive : 0 < stepLength) (baseSmall : baseLength < 2 ^ 32)
    (stepSmall : stepLength < 2 ^ 32) {front back : List ByteString} {element : ByteString}
    (few : numSteps baseLength stepLength element < 2 ^ 31) {words : ByteString}
    (isIndex : IndexWords
      (BitVectorBasedArray.build baseLength stepLength (front ++ element :: back)).index words)
    {array : OpenedArray} (opened : IsOpened baseLength stepLength words
      ((front ++ element :: back).flatMap (padElement baseLength stepLength)) array)
    (agrees : Agrees array.index (bitsOf words)) :
    Returns baseLength stepLength front element array ↔
      (front.flatMap (padElement baseLength stepLength)).length < 2 ^ 31 ∧
        baseLength < 2 ^ 31 ∧ (baseLength < element.length → stepLength < 2 ^ 31) := by
  obtain ⟨isWords, small⟩ := openedIndex opened.index
  subst isWords
  have place := length_data_front baseLength stepLength positive front
  have length := length_padElement baseLength stepLength positive element
  have isGet := get_eq isIndex small (fun n least most => ?_) agrees.rank1
  rotate_left
  · refine agrees.select0 n least (most.trans (le_trans ?_ isIndex.le_count_false))
    rw [List.length_append, List.length_cons]
    omega
  rw [opened.base, opened.step] at isGet
  have placed := place_eq_iff baseSmall stepSmall front.length
    ((front.flatMap (code baseLength stepLength)).count true)
  have long := length_eq_iff baseSmall stepSmall few
  have steps : numSteps baseLength stepLength element = 0 ↔ ¬ baseLength < element.length := by
    rw [numSteps_eq_ceilSteps positive]
    rcases Nat.lt_or_ge baseLength element.length with more | less
    · rw [ceilSteps_of_lt positive more]
      omega
    · rw [ceilSteps_of_le positive less]
      omega
  rw [← place] at placed
  rw [← length, steps, ← imp_iff_not_or] at long
  rw [← placed, ← long, Returns, isGet, opened.data]
  constructor
  · rintro ⟨before, padded, isBefore, isPadded, got, -⟩
    rw [forall₂_isPadded_iff positive] at isBefore
    rw [isPadded_iff positive] at isPadded
    rw [isBefore, isPadded, ← List.flatMap_def] at got
    exact Prod.mk.inj (Except.ok.inj got)
  · rintro ⟨samePlace, sameLength⟩
    refine ⟨_, _, (forall₂_isPadded_iff positive).2 rfl, (isPadded_iff positive).2 rfl, ?_, ?_⟩
    · rw [← List.flatMap_def, samePlace, sameLength]
    · rw [← List.flatMap_def, List.flatMap_append, List.drop_left, List.flatMap_cons,
        List.take_left]

theorem lowerBound_congr {read read' : Nat → Except Failure Int} {last : Nat}
    (same : ∀ ptr < last, read ptr = read' ptr) (first : Nat) (target : Int) :
    lowerBound read first last target = lowerBound read' first last target := by
  refine searchWithin_congr fun ptr _ inside => ?_
  rw [same ptr (by omega)]

/-- The last chunk that is reached without a one bit in front makes the search for a bit of the
chunk before it end behind the index: the search meets the last entry first, which is below zero. -/
theorem select0_overflows {words : ByteString} (isWords : 4 ∣ words.length)
    (fits : 8 * words.length < 2 ^ 31) (zero : (bitsOf words).count true = 0)
    (large : 2 ^ 28 < words.length + 32) {vector : CachedBitVectorIndex}
    (done : init maxPointers 32 words words.length kLb0CacheSize kLb1CacheSize = .ok vector) :
    ¬ ∃ position, vector.select0 (2 ^ 31 - 256) = .ok position := by
  rintro ⟨position, done_⟩
  obtain ⟨-, -, isVector, isIncrement, -, isCache, -⟩ := init_eq_ok_iff.1 done
  obtain ⟨simple, increment, cache, increment1, cache1⟩ := vector
  dsimp only at isVector isIncrement isCache
  subst isVector
  have chunks : numChunks 32 words.length = 8388608 := by
    rw [numChunks]
    omega
  have length : (initIndex words words.length 32).length = 8388609 := by
    rw [length_initIndex (show 0 < 8 by decide) isWords, chunks]
  have isZero : increment = 2097151 := by
    have ones : (initIndex words words.length 32).getLastD 0 = 0 :=
      (getLastD_initIndex (show 0 < 8 by decide) isWords).trans zero
    rw [isIncrement]
    show cacheIncrement (_ - (initIndex words words.length 32).getLastD 0) _ = _
    have quotient : (8 * words.length - 0) / 1024 = 2097151 := by omega
    rw [ones, cacheIncrement, kLb0CacheSize, if_neg (show ¬ 1024 = 0 by decide), quotient]
    rfl
  have reads : ∀ ptr < 8388609, zeroBitIndex (initIndex words words.length 32) 32 ptr
      = .ok (toInt (256 * ptr : Nat)) := by
    intro ptr inside
    have inChunks : ptr < numChunks (4 * 8) words.length + 1 := by
      show ptr < numChunks 32 words.length + 1
      omega
    have entry := zeroBitIndex_of_none (show 0 < 8 by decide) isWords (by decide) zero inChunks
    rw [show 8 * (4 * 8 * ptr) = 256 * ptr by omega] at entry
    exact entry
  obtain ⟨-, found, isFound, rfl⟩ := initLowerBoundCache_ok isCache
  obtain ⟨lengthFound, searches⟩ := mapM_ok_getElem? isFound
  rw [List.length_range, kLb0CacheSize] at lengthFound
  -- the last target of the cache is found, three entries before the end
  have isFirst : found[1023]? = some 8388604 := by
    obtain ⟨entry, isEntry, searched⟩ := searches 1023 1023 (List.getElem?_range (by decide))
    have target : lowerBound (fun ptr => .ok (toInt (256 * ptr : Nat))) 0 8388609
        (toInt (2097151 * 1024 : Nat)) = .ok 8388604 := by decide +kernel
    rw [isZero] at searched
    have same : lowerBound (zeroBitIndex (initIndex words words.length 32) 32) 0
      (initIndex words words.length 32).length (toInt (2097151 * 1024 : Nat)) = .ok entry :=
        searched
    rw [length, lowerBound_congr reads, target] at same
    rw [isEntry, Except.ok.inj same]
  have searched : lowerBound (zeroBitIndex (initIndex words words.length 32) 32) 8388604 8388609
      (2 ^ 31 - 256 : Nat) = .ok 8388609 := by
    rw [lowerBound_congr reads]
    decide +kernel
  have lengthCache : (cacheOf 8388609 found).length - 2 = 1024 := by
    rw [cacheOf, List.length_cons, List.length_append, lengthFound]
    rfl
  have place : min ((2 ^ 31 - 256) / 2097151) 1024 = 1024 := by decide
  have isFirst : elementAt (cacheOf 8388609 found) 1024 = .ok 8388604 := by
    rw [elementAt, cacheOf, List.getElem?_cons_succ, List.getElem?_append_left (by omega), isFirst]
  have isLast : elementAt (cacheOf 8388609 found) (1024 + 1) = .ok 8388609 := by
    rw [elementAt, cacheOf, List.getElem?_cons_succ, List.getElem?_append_right (by omega),
      lengthFound]
    rfl
  have lengthIndex : (SimpleSuccinctBitVectorIndex.init 32 words words.length).index.length
    = 8388609 := length
  unfold select0 CachedBitVectorIndex.select at done_
  dsimp only at done_
  rw [lengthIndex, isZero, lengthCache, place, isFirst, bind_ok_, isLast, bind_ok_] at done_
  obtain ⟨chunkPtr, isPtr, done_⟩ := bind_eq_ok_iff.1 done_
  obtain rfl : 8388608 + 1 = chunkPtr := Except.ok.inj (searched.symm.trans isPtr)
  obtain ⟨before, isBefore, -⟩ := bind_eq_ok_iff.1 done_
  obtain ⟨chunkBits, isChunk, isBefore⟩ := bind_eq_ok_iff.1 isBefore
  obtain rfl := (checkedInt_eq_ok_iff.1 isChunk).2
  obtain ⟨bits, isBits, -⟩ := bind_eq_ok_iff.1 isBefore
  have isBits : checkedInt (((32 * 8 : Nat) : Int) * (8388608 : Nat)) = .ok bits := isBits
  have overflows : checkedInt (((32 * 8 : Nat) : Int) * (8388608 : Nat)) = .error .overflow := by
    decide +kernel
  rw [overflows] at isBits
  cases isBits

/-- The index is a right one where it has a one bit or does not reach the last chunk. -/
theorem openedIndex_agrees {words : ByteString} (isWords : 4 ∣ words.length)
    (fits : 8 * words.length < 2 ^ 31)
    (reaches : 0 < (bitsOf words).count true ∨ words.length + 32 ≤ 2 ^ 28) :
    ∃ vector, init maxPointers 32 words words.length kLb0CacheSize kLb1CacheSize = .ok vector ∧
      Agrees vector (bitsOf words) := by
  have small := (@zerosBefore_lt_iff 5 words (by decide) fits).2.2 reaches
  exact ⟨_, init_ofWords (show 0 < 8 by decide) isWords (by decide) fits small (by decide)
    (by decide), ofWords_agrees (show 0 < 8 by decide) isWords (by decide) fits small _ _⟩

theorem IndexWords.isWords {index : List Bool} {words : ByteString}
    (isIndex : IndexWords index words) : 4 ∣ words.length := by
  rw [isIndex.length, BitStream.wordBytes]
  exact Nat.dvd_mul_right _ _

theorem numSteps_le_count {elements : List ByteString} {element : ByteString}
    (member : element ∈ elements) :
    numSteps baseLength stepLength element
      ≤ (elements.flatMap (code baseLength stepLength)).count true := by
  obtain ⟨front, back, rfl⟩ := List.append_of_mem member
  rw [List.flatMap_append, List.flatMap_cons, List.count_append, List.count_append,
    List.count_cons_of_ne Bool.false_ne_true, List.count_replicate_self]
  omega

/-- With so many elements that the index reaches the last chunk without a one bit, one of them is
not found. -/
theorem not_get_of_many {elements : List ByteString} {words : ByteString}
    (isIndex : IndexWords (BitVectorBasedArray.build baseLength stepLength elements).index words)
    (neither : ¬ (0 < (bitsOf words).count true ∨ words.length + 32 ≤ 2 ^ 28)) {array : OpenedArray}
    (done : init maxPointers 32 words words.length kLb0CacheSize kLb1CacheSize = .ok array.index) :
    ¬ ∃ returned, array.get (2 ^ 31 - 257) = .ok returned := by
  rintro ⟨returned, got⟩
  obtain ⟨position, found, -⟩ := bind_eq_ok_iff.1 got
  rw [toInt_of_lt (by decide), Int.toNat_natCast] at found
  refine select0_overflows isIndex.isWords (openedIndex done).2 (by omega) (by omega) done
    ⟨position, found⟩

/-- Elements that are built are strings. -/
theorem length_lt_of_build {elements : List ByteString} {image : ByteString}
    (built : build baseLength stepLength elements = .ok image) :
    ∀ element ∈ elements, element.length < 2 ^ 64 := by
  obtain ⟨written, folded, -⟩ := bind_eq_ok_iff.1 built
  clear built
  suffices all : ∀ start, elements.foldlM (pushElement baseLength stepLength) start = .ok written →
      ∀ element ∈ elements, element.length < 2 ^ 64 from all _ folded
  clear folded
  induction elements with
  | nil => simp
  | cons element others ih =>
      intro start done
      rw [List.foldlM_cons] at done
      obtain ⟨next, pushed, done⟩ := bind_eq_ok_iff.1 done
      refine List.forall_mem_cons.2 ⟨?_, ih next done⟩
      obtain ⟨numSteps, -, pushed⟩ := bind_eq_ok_iff.1 pushed
      dsimp only at pushed
      split at pushed
      · cases pushed
      · next fits => exact lt_of_le_of_lt (Nat.not_lt.1 fits) (Nat.mod_lt _ (by decide))

/-- **An opened array with short data** has every padded element at its place. -/
theorem get_of_short {elements : List ByteString} {image : ByteString} {array : OpenedArray}
    (base : 2 ≤ baseLength) (positive : 1 ≤ stepLength) (stepSmall : stepLength < 2 ^ 31)
    (built : build baseLength stepLength elements = .ok image)
    (opened : openImage image = .ok array) (short : array.data.length < 2 ^ 31) :
    array.data = elements.flatMap (padElement baseLength stepLength) ∧
      ∀ front element back, elements = front ++ element :: back →
        array.get front.length = .ok ((front.flatMap (padElement baseLength stepLength)).length,
          (padElement baseLength stepLength element).length) := by
  obtain ⟨words, isIndex, isBuilt⟩ := @build_eq_ok_iff baseLength stepLength positive elements
    (length_lt_of_build built)
  obtain ⟨base32, step32, -, small, rfl⟩ := (isBuilt image).1 built
  obtain ⟨-, isArray⟩ := (openImage_iff base32 step32 small).1 opened
  rw [isArray.data] at short
  refine ⟨isArray.data, fun front element back split => ?_⟩
  have few : elements.length < 2 ^ 31 - 256 := by
    have total := length_data_front baseLength stepLength positive elements
    have least := Nat.mul_le_mul_right elements.length base
    omega
  obtain ⟨vector, isVector, agrees⟩ := openedIndex_agrees isIndex.isWords
    (openedIndex isArray.index).2 ((index_reaches_iff positive isIndex).2 (.inr few))
  obtain rfl : array.index = vector := Except.ok.inj (isArray.index.symm.trans isVector)
  subst split
  have padded := length_padElement baseLength stepLength positive element
  have steps := Nat.le_mul_of_pos_right (numSteps baseLength stepLength element) positive
  have place : (front.flatMap (padElement baseLength stepLength)).length +
      (padElement baseLength stepLength element).length < 2 ^ 31 := by
    rw [List.flatMap_append, List.flatMap_cons, List.length_append, List.length_append] at short
    omega
  obtain ⟨before, padded', isBefore, isPadded, got, -⟩ :=
    (returns_iff positive base32 step32 (by omega) isIndex isArray agrees).2
      ⟨by omega, by omega, fun _ => stepSmall⟩
  rw [(forall₂_isPadded_iff positive).1 isBefore, (isPadded_iff positive).1 isPadded,
    ← List.flatMap_def] at got
  exact got

/-- **When the padded elements come back**: exactly for arrays that fit. -/
theorem get_build_iff (positive : 1 ≤ stepLength) {elements : List ByteString}
    (strings : ∀ element ∈ elements, element.length < 2 ^ 64) :
    RoundTrips baseLength stepLength elements ↔ Fits baseLength stepLength elements := by
  obtain ⟨words, isIndex, built⟩ := @build_eq_ok_iff baseLength stepLength positive elements strings
  have size := @length_index baseLength stepLength elements
  have length := isIndex.length
  rw [BitStream.wordBytes] at length
  constructor
  · rintro ⟨image, done, opened⟩
    obtain ⟨base, step, counted, small, rfl⟩ := (built image).1 done
    have staysAbove : ∀ element ∈ elements, StaysAbove baseLength stepLength element.length :=
      fun element member => (counted element member).1
    rcases List.eq_nil_or_concat elements with rfl | ⟨others, last, isConcat⟩
    · have none_ : (([] : List ByteString).flatMap (code baseLength stepLength)).count true = 0 :=
        rfl
      rw [none_] at size
      exact ⟨base, step, staysAbove, by rw [size]; decide, .inr (by decide),
        fun nonempty => absurd rfl nonempty, fun _ member => absurd member List.not_mem_nil,
        Nat.two_pow_pos 31⟩
    have openedOf : ∀ front element back, elements = front ++ element :: back → ∃ array,
        IsOpened baseLength stepLength words
          (elements.flatMap (padElement baseLength stepLength)) array ∧
            Returns baseLength stepLength front element array := by
      intro front element back split
      obtain ⟨array, isArray, returns⟩ := opened front element back split
      exact ⟨array, ((openImage_iff base step small).1 isArray).2, returns⟩
    rw [List.concat_eq_append] at isConcat
    have fits8 : 8 * words.length < 2 ^ 31 := by
      obtain ⟨array, isArray, -⟩ := openedOf others last [] isConcat
      exact (openedIndex isArray.index).2
    have reaches : 0 < (bitsOf words).count true ∨ words.length + 32 ≤ 2 ^ 28 := by
      by_contra neither
      have many := mt (index_reaches_iff positive isIndex).2 neither
      obtain ⟨n, isN⟩ : ∃ n, n = 2 ^ 31 - 257 := ⟨_, rfl⟩
      have inside : n < elements.length := by omega
      obtain ⟨array, isArray, before, padded, -, -, got, -⟩ := openedOf (elements.take n)
        elements[n] (elements.drop (n + 1)) (by
          rw [← List.drop_eq_getElem_cons, List.take_append_drop])
      rw [List.length_take, Nat.min_eq_left inside.le, isN] at got
      exact not_get_of_many isIndex neither isArray.index ⟨_, got⟩
    obtain ⟨vector, isVector, agrees⟩ := openedIndex_agrees isIndex.isWords fits8 reaches
    have returnsOf : ∀ front element back, elements = front ++ element :: back →
        (front.flatMap (padElement baseLength stepLength)).length < 2 ^ 31 ∧
          baseLength < 2 ^ 31 ∧ (baseLength < element.length → stepLength < 2 ^ 31) := by
      intro front element back split
      obtain ⟨array, isArray, returns⟩ := openedOf front element back split
      have few := (counted element (by rw [split]; simp)).2
      obtain rfl : array.index = vector :=
        Except.ok.inj (isArray.index.symm.trans isVector)
      rw [split] at isArray isIndex
      exact (returns_iff positive base step few isIndex isArray agrees).1 returns
    refine ⟨base, step, staysAbove, by omega, (index_reaches_iff positive isIndex).1 reaches,
      fun _ => (returnsOf others last [] isConcat).2.1, fun element member => ?_, ?_⟩
    · obtain ⟨front, back, split⟩ := List.append_of_mem member
      exact (returnsOf front element back split).2.2
    · rw [isConcat, List.dropLast_concat]
      exact (returnsOf others last [] isConcat).1
  · intro fits
    have fits8 : 8 * words.length < 2 ^ 31 := by
      have := fits.index
      omega
    have reaches := (index_reaches_iff positive isIndex).2 fits.lastChunk
    have counted : ∀ element ∈ elements, Counted baseLength stepLength element := by
      intro element member
      have few := @numSteps_le_count baseLength stepLength _ _ member
      have := fits.index
      exact ⟨fits.staysAbove element member, by omega⟩
    obtain ⟨vector, isVector, agrees⟩ := openedIndex_agrees isIndex.isWords fits8 reaches
    refine ⟨_, (built _).2 ⟨fits.base, fits.step, counted, by omega, rfl⟩, ?_⟩
    rintro front element back split
    obtain ⟨readBase, isBase⟩ : ∃ size, size = toSize (toInt baseLength) := ⟨_, rfl⟩
    obtain ⟨readStep, isStep⟩ : ∃ size, size = toSize (toInt stepLength) := ⟨_, rfl⟩
    have isArray : IsOpened baseLength stepLength words
        (elements.flatMap (padElement baseLength stepLength)) ⟨vector, readBase, readStep,
          elements.flatMap (padElement baseLength stepLength)⟩ :=
      ⟨isVector, isBase, isStep, rfl⟩
    refine ⟨_, (openImage_iff fits.base fits.step (by omega)).2 ⟨by omega, isArray⟩, ?_⟩
    have member : element ∈ elements := by rw [split]; simp
    have place : (front.flatMap (padElement baseLength stepLength)).length < 2 ^ 31 := by
      have data := fits.data
      rw [split, List.dropLast_append_of_ne_nil (List.cons_ne_nil _ _), List.flatMap_append,
        List.length_append] at data
      omega
    have nonempty : elements ≠ [] := List.ne_nil_of_mem member
    have few := (counted element member).2
    have stepSign := fits.stepSign element member
    rw [split] at isIndex isArray
    refine (returns_iff positive fits.base fits.step few isIndex ?_ agrees).2
      ⟨place, fits.baseSign nonempty, stepSign⟩
    rwa [split]

/-- Two elements, one of them longer than the base. -/
theorem roundTrips_two : RoundTrips 4 2 [ascii "a", ascii "abcdefg"] := by
  refine (get_build_iff (by decide) ?_).2 ?_
  · decide
  · have long : ascii "abcdefg" ∈ [ascii "a", ascii "abcdefg"] := by decide
    exact ⟨by decide, by decide, by decide, by decide, .inl ⟨_, long, by decide⟩,
      fun _ => by decide, fun _ _ _ => by decide, by decide⟩

/-- A step of four bytes cannot be taken off an element of two bytes. -/
theorem not_roundTrips : ¬ ∀ (baseLength stepLength : Nat) (elements : List ByteString),
    baseLength < 2 ^ 64 → 1 ≤ stepLength → stepLength < 2 ^ 64 →
      (∀ element ∈ elements, element.length < 2 ^ 64) →
        RoundTrips baseLength stepLength elements := by
  intro claim
  have strings : ∀ element ∈ [ascii "ab"], element.length < 2 ^ 64 := by decide
  obtain ⟨image, done, -⟩ := claim 1 4 [ascii "ab"] (by decide) (by decide) (by decide) strings
  obtain ⟨words, -, built⟩ := @build_eq_ok_iff 1 4 (by decide) _ strings
  have counted := ((built image).1 done).2.2.1 (ascii "ab") (List.mem_singleton_self _)
  exact absurd counted.1 (by decide)

end BitVectorBasedArrayBuilder

end Mozkey.Storage
