import Mozkey.Storage.BitStream
import Mozkey.Storage.BitVectorBasedArray
import Mozkey.Storage.SuccinctSelectAgreement

/-!
# The builder of an array of padded elements

`Build` counts the steps of every element by taking steps off its length, which is a number without
a sign: a length that goes below zero is larger than ever, and the counter overflows.  It writes the
lengths of the bit vector, of an element and of a step, the words of the bit vector, and the data.

It comes to an image exactly when the steps of every element are counted and the lengths are numbers
of 32 bits.
-/

namespace Mozkey.Storage

open Mozkey.Lib

/-! ## The builder -/

namespace BitVectorBasedArrayBuilder

/-- The loop that counts the steps of an element.  `length` is a `size_t`, and `num_steps`, which
has `fuel` more values, an `int`. -/
def stepLoop (baseLength stepLength : Nat) : Nat → Nat → Nat → Except Failure Nat
  | 0, length, numSteps => if baseLength < length then .error .overflow else .ok numSteps
  | fuel + 1, length, numSteps =>
      if baseLength < length then
        stepLoop baseLength stepLength fuel ((length + 2 ^ 64 - stepLength) % 2 ^ 64) (numSteps + 1)
      else .ok numSteps

/-- One element of `Build`. -/
def pushElement (baseLength stepLength : Nat) (written : BitStream × ByteString)
    (element : ByteString) : Except Failure (BitStream × ByteString) := do
  let numSteps ← stepLoop baseLength stepLength (2 ^ 31 - 1) element.length 0
  let outputLength := (baseLength + numSteps * stepLength) % 2 ^ 64
  let bitStream := (List.replicate numSteps true).foldl BitStream.pushBit
    (written.1.pushBit false)
  -- a smaller length wraps to more than a string can have
  if outputLength < element.length then throw .lengthError
  return (bitStream, written.2 ++ (element ++ List.replicate (outputLength - element.length) 0))

/-- `PushInt32`. -/
def pushInt32 (value : Nat) (image : ByteString) : Except Failure ByteString := do
  if 2 ^ 32 - 1 < value then throw .checkFails
  return image ++ storeUnaligned32 (UInt32.ofNat value)

/-- `Build`: the image. -/
def build (baseLength stepLength : Nat) (elements : List ByteString) :
    Except Failure ByteString := do
  let (bitStream, data) ← elements.foldlM (pushElement baseLength stepLength) ({}, [])
  let bitStream := (bitStream.pushBit false).fillPadding32
  let image ← pushInt32 bitStream.image.length []
  let image ← pushInt32 baseLength image
  let image ← pushInt32 stepLength image
  let image ← pushInt32 0 image
  return image ++ bitStream.image ++ data

end BitVectorBasedArrayBuilder

/-! ## Counting the steps -/

namespace BitVectorBasedArrayBuilder

open BitVectorBasedArray

variable {baseLength stepLength : Nat}

/-- Taking a step off never goes below zero. -/
def StaysAbove (baseLength stepLength length : Nat) : Prop :=
  length ≤ baseLength ∨ stepLength ≤ baseLength + (length - baseLength - 1) % stepLength + 1

instance (baseLength stepLength length : Nat) :
    Decidable (StaysAbove baseLength stepLength length) :=
  inferInstanceAs (Decidable (_ ∨ _))

/-- The steps of a length, rounded up. -/
def ceilSteps (baseLength stepLength length : Nat) : Nat :=
  (length - baseLength + (stepLength - 1)) / stepLength

theorem ceilSteps_of_le (positive : 0 < stepLength) {length : Nat} (short : length ≤ baseLength) :
    ceilSteps baseLength stepLength length = 0 := by
  rw [ceilSteps, Nat.sub_eq_zero_of_le short, Nat.zero_add]
  exact Nat.div_eq_of_lt (by omega)

theorem ceilSteps_of_lt (positive : 0 < stepLength) {length : Nat} (long : baseLength < length) :
    ceilSteps baseLength stepLength length
      = ceilSteps baseLength stepLength (length - stepLength) + 1 := by
  unfold ceilSteps
  rcases Nat.lt_or_ge baseLength (length - stepLength) with more | last
  · rw [show length - baseLength + (stepLength - 1)
      = length - stepLength - baseLength + (stepLength - 1) + stepLength by omega,
      Nat.add_div_right _ positive]
  · rw [Nat.sub_eq_zero_of_le last, Nat.zero_add,
      Nat.div_eq_of_lt (show stepLength - 1 < stepLength by omega),
      show length - baseLength + (stepLength - 1) = length - baseLength - 1 + stepLength by omega,
      Nat.add_div_right _ positive, Nat.div_eq_of_lt (by omega)]

theorem countSteps_eq_ceilSteps (positive : 0 < stepLength) {fuel length : Nat}
    (enough : length ≤ fuel) :
    countSteps baseLength stepLength fuel length = ceilSteps baseLength stepLength length := by
  induction fuel generalizing length with
  | zero => rw [countSteps, ceilSteps_of_le positive (by omega)]
  | succ fuel ih =>
      rw [countSteps]
      split
      · next long => rw [ih (by omega), ceilSteps_of_lt positive long]
      · next short => rw [ceilSteps_of_le positive (by omega)]

/-- From too far above the base the counter overflows. -/
theorem stepLoop_overflow {fuel length : Nat}
    (small : length < 2 ^ 64) (far : baseLength + fuel * stepLength < length) (numSteps : Nat) :
    stepLoop baseLength stepLength fuel length numSteps = .error .overflow := by
  induction fuel generalizing length numSteps with
  | zero => rw [stepLoop, if_pos (by omega)]
  | succ fuel ih =>
      rw [Nat.succ_mul] at far
      rw [stepLoop, if_pos (by omega), show (length + 2 ^ 64 - stepLength) % 2 ^ 64
        = length - stepLength by omega]
      exact ih (by omega) (by omega) _

/-- A step behind the base that stays above it. -/
theorem staysAbove_sub {length : Nat} (long : baseLength < length)
    (step : stepLength ≤ length) :
    StaysAbove baseLength stepLength (length - stepLength)
      ↔ StaysAbove baseLength stepLength length := by
  unfold StaysAbove
  rcases Nat.lt_or_ge baseLength (length - stepLength) with more | last
  · have same : (length - stepLength - baseLength - 1) % stepLength
        = (length - baseLength - 1) % stepLength := by
      rw [show length - baseLength - 1 = length - stepLength - baseLength - 1 + stepLength by omega,
        Nat.add_mod_right]
    rw [same]
    omega
  · have rest : (length - baseLength - 1) % stepLength = length - baseLength - 1 :=
      Nat.mod_eq_of_lt (by omega)
    rw [rest]
    omega

/-- **When the steps are counted**: as many steps as the length needs, if an `int` counts them and
no length goes below zero.  A length below zero is so large that the counter overflows. -/
theorem stepLoop_eq_ok_iff (positive : 0 < stepLength) (baseSmall : baseLength < 2 ^ 32)
    (stepSmall : stepLength < 2 ^ 32) {fuel length : Nat} (few : fuel < 2 ^ 31)
    (small : length < 2 ^ 64) {numSteps result : Nat} :
    stepLoop baseLength stepLength fuel length numSteps = .ok result ↔
      StaysAbove baseLength stepLength length ∧
        ceilSteps baseLength stepLength length ≤ fuel ∧
          result = numSteps + ceilSteps baseLength stepLength length := by
  induction fuel generalizing length numSteps with
  | zero =>
      rw [stepLoop]
      split
      · next long =>
        rw [ceilSteps_of_lt positive long]
        refine ⟨fun done => (by cases done), fun ⟨_, none_, _⟩ => ?_⟩
        omega
      · next short =>
        rw [ceilSteps_of_le positive (by omega), Except.ok.injEq]
        exact ⟨fun same => ⟨.inl (by omega), le_rfl, by omega⟩, fun ⟨_, _, same⟩ => by omega⟩
  | succ fuel ih =>
      rw [stepLoop]
      split
      · next long =>
        rcases Nat.lt_or_ge length stepLength with wraps | step
        · have far : baseLength + fuel * stepLength < (length + 2 ^ 64 - stepLength) % 2 ^ 64 := by
            have := Nat.mul_le_mul (Nat.le_of_lt few) (Nat.le_of_lt stepSmall)
            rw [Nat.succ_mul] at this
            omega
          rw [stepLoop_overflow (Nat.mod_lt _ (by decide)) far]
          refine ⟨fun done => (by cases done), fun ⟨above, _⟩ => ?_⟩
          unfold StaysAbove at above
          rw [Nat.mod_eq_of_lt (show length - baseLength - 1 < stepLength by omega)] at above
          omega
        · rw [show (length + 2 ^ 64 - stepLength) % 2 ^ 64 = length - stepLength by omega,
            ih (by omega) (by omega), staysAbove_sub long step,
            ceilSteps_of_lt positive long]
          refine and_congr_right fun _ => ?_
          omega
      · next short =>
        rw [ceilSteps_of_le positive (by omega), Except.ok.injEq]
        exact ⟨fun same => ⟨.inl (by omega), Nat.zero_le _, by omega⟩, fun ⟨_, _, same⟩ => by omega⟩

end BitVectorBasedArrayBuilder

/-! ## The image -/

namespace BitVectorBasedArrayBuilder

open BitVectorBasedArray CachedBitVectorIndex

variable {baseLength stepLength : Nat}

theorem numSteps_eq_ceilSteps (positive : 0 < stepLength) (element : ByteString) :
    numSteps baseLength stepLength element = ceilSteps baseLength stepLength element.length :=
  countSteps_eq_ceilSteps positive le_rfl

/-- An element whose steps are counted. -/
def Counted (baseLength stepLength : Nat) (element : ByteString) : Prop :=
  StaysAbove baseLength stepLength element.length ∧
    numSteps baseLength stepLength element < 2 ^ 31

/-- One element adds its code and its padded bytes. -/
theorem pushElement_eq_ok_iff (positive : 0 < stepLength) (baseSmall : baseLength < 2 ^ 32)
    (stepSmall : stepLength < 2 ^ 32) {written result : BitStream × ByteString}
    {element : ByteString} (small : element.length < 2 ^ 64) :
    pushElement baseLength stepLength written element = .ok result ↔
      Counted baseLength stepLength element ∧
        result = ((code baseLength stepLength element).foldl BitStream.pushBit written.1,
          written.2 ++ padElement baseLength stepLength element) := by
  have isSteps := @numSteps_eq_ceilSteps baseLength stepLength positive element
  have reaches : element.length
      ≤ baseLength + numSteps baseLength stepLength element * stepLength :=
    le_countSteps baseLength positive le_rfl
  have written_ (few : numSteps baseLength stepLength element < 2 ^ 31) :
      (baseLength + numSteps baseLength stepLength element * stepLength) % 2 ^ 64
        = baseLength + numSteps baseLength stepLength element * stepLength := by
    have := Nat.mul_le_mul (Nat.le_of_lt few) (Nat.le_of_lt stepSmall)
    exact Nat.mod_eq_of_lt (by omega)
  have counted {steps : Nat} : stepLoop baseLength stepLength (2 ^ 31 - 1) element.length 0
      = .ok steps ↔ Counted baseLength stepLength element ∧
        steps = numSteps baseLength stepLength element := by
    rw [stepLoop_eq_ok_iff positive baseSmall stepSmall (by decide) small, Counted, isSteps,
      Nat.zero_add, and_assoc]
    refine and_congr_right fun _ => and_congr_left fun _ => ?_
    exact Nat.le_sub_one_iff_lt (by decide)
  rw [pushElement, bind_eq_ok_iff]
  constructor
  · rintro ⟨steps, isCounted, done⟩
    obtain ⟨fits, rfl⟩ := counted.1 isCounted
    dsimp only at done
    rw [written_ fits.2, if_neg (Nat.not_lt.2 reaches)] at done
    exact ⟨fits, (Except.ok.inj done).symm⟩
  · rintro ⟨fits, rfl⟩
    refine ⟨_, counted.2 ⟨fits, rfl⟩, ?_⟩
    dsimp only
    rw [written_ fits.2, if_neg (Nat.not_lt.2 reaches)]
    rfl

/-- The elements add their codes and their padded bytes. -/
theorem pushElements (positive : 0 < stepLength) (baseSmall : baseLength < 2 ^ 32)
    (stepSmall : stepLength < 2 ^ 32) {elements : List ByteString}
    (strings : ∀ element ∈ elements, element.length < 2 ^ 64)
    (written result : BitStream × ByteString) :
    elements.foldlM (pushElement baseLength stepLength) written = .ok result ↔
      (∀ element ∈ elements, Counted baseLength stepLength element) ∧
        result = ((elements.flatMap (code baseLength stepLength)).foldl BitStream.pushBit written.1,
          written.2 ++ elements.flatMap (padElement baseLength stepLength)) := by
  induction elements generalizing written with
  | nil =>
      rw [List.foldlM_nil, List.flatMap_nil, List.flatMap_nil, List.append_nil, List.foldl_nil]
      constructor
      · intro done
        exact ⟨fun element member => absurd member List.not_mem_nil,
          (Except.ok.inj done).symm⟩
      · rintro ⟨-, rfl⟩
        rfl
  | cons element elements ih =>
      rw [List.forall_mem_cons] at strings
      rw [List.foldlM_cons, bind_eq_ok_iff, List.forall_mem_cons, List.flatMap_cons,
        List.flatMap_cons, List.foldl_append, ← List.append_assoc]
      constructor
      · rintro ⟨next, isNext, done⟩
        obtain ⟨first, rfl⟩ :=
          (pushElement_eq_ok_iff positive baseSmall stepSmall strings.1).1 isNext
        obtain ⟨others, isResult⟩ := (ih strings.2 _).1 done
        exact ⟨⟨first, others⟩, isResult⟩
      · rintro ⟨⟨first, others⟩, isResult⟩
        exact ⟨_, (pushElement_eq_ok_iff positive baseSmall stepSmall strings.1).2 ⟨first, rfl⟩,
          (ih strings.2 _).2 ⟨others, isResult⟩⟩

theorem pushInt32_eq_ok_iff {value : Nat} {image result : ByteString} :
    pushInt32 value image = .ok result ↔
      value < 2 ^ 32 ∧ result = image ++ storeUnaligned32 (UInt32.ofNat value) := by
  rw [pushInt32]
  split
  · next large =>
    exact ⟨fun done => (by cases done), fun ⟨small, _⟩ => absurd large (by omega)⟩
  · next small =>
    constructor
    · intro done
      exact ⟨by omega, (Except.ok.inj done).symm⟩
    · rintro ⟨-, rfl⟩
      rfl

/-- The words of a bit vector. -/
structure IndexWords (index : List Bool) (words : ByteString) : Prop where
  length : words.length = BitStream.wordBytes index.length
  bits : bitsOf words
    = index ++ List.replicate (8 * BitStream.wordBytes index.length - index.length) false

/-- What `Build` writes. -/
def imageOf (baseLength stepLength : Nat) (words data : ByteString) : ByteString :=
  storeUnaligned32 (UInt32.ofNat words.length) ++ (storeUnaligned32 (UInt32.ofNat baseLength)
    ++ (storeUnaligned32 (UInt32.ofNat stepLength) ++ (storeUnaligned32 0 ++ (words ++ data))))

/-- **When `Build` comes to an image**, and which. -/
theorem build_eq_ok_iff (positive : 0 < stepLength) {elements : List ByteString}
    (strings : ∀ element ∈ elements, element.length < 2 ^ 64) :
    ∃ words, IndexWords (BitVectorBasedArray.build baseLength stepLength elements).index words ∧
      ∀ image, build baseLength stepLength elements = .ok image ↔
        baseLength < 2 ^ 32 ∧ stepLength < 2 ^ 32 ∧
          (∀ element ∈ elements, Counted baseLength stepLength element) ∧
            words.length < 2 ^ 32 ∧
              image = imageOf baseLength stepLength words
                (elements.flatMap (padElement baseLength stepLength)) := by
  have holds := (BitStream.holds_nil.pushBits
    (elements.flatMap (code baseLength stepLength))).pushBit false
  rw [List.nil_append] at holds
  refine ⟨_, ⟨holds.fillPadding32.1, holds.fillPadding32.2⟩, fun image => ?_⟩
  constructor
  · intro done
    obtain ⟨written, folded, done⟩ := bind_eq_ok_iff.1 done
    obtain ⟨image1, first, done⟩ := bind_eq_ok_iff.1 done
    obtain ⟨image2, second, done⟩ := bind_eq_ok_iff.1 done
    obtain ⟨image3, third, done⟩ := bind_eq_ok_iff.1 done
    obtain ⟨image4, fourth, done⟩ := bind_eq_ok_iff.1 done
    obtain ⟨small1, rfl⟩ := pushInt32_eq_ok_iff.1 first
    obtain ⟨small2, rfl⟩ := pushInt32_eq_ok_iff.1 second
    obtain ⟨small3, rfl⟩ := pushInt32_eq_ok_iff.1 third
    obtain ⟨-, rfl⟩ := pushInt32_eq_ok_iff.1 fourth
    obtain ⟨counted, rfl⟩ := (pushElements positive small2 small3 strings _ _).1 folded
    refine ⟨small2, small3, counted, small1, ?_⟩
    rw [← Except.ok.inj done, imageOf]
    simp only [List.nil_append, List.append_assoc]
    rfl
  · rintro ⟨small2, small3, counted, small1, rfl⟩
    refine bind_eq_ok_iff.2 ⟨_, (pushElements positive small2 small3 strings _ _).2
      ⟨counted, rfl⟩, ?_⟩
    refine bind_eq_ok_iff.2 ⟨_, pushInt32_eq_ok_iff.2 ⟨small1, rfl⟩, ?_⟩
    refine bind_eq_ok_iff.2 ⟨_, pushInt32_eq_ok_iff.2 ⟨small2, rfl⟩, ?_⟩
    refine bind_eq_ok_iff.2 ⟨_, pushInt32_eq_ok_iff.2 ⟨small3, rfl⟩, ?_⟩
    refine bind_eq_ok_iff.2 ⟨_, pushInt32_eq_ok_iff.2 ⟨by decide, rfl⟩, ?_⟩
    refine congrArg Except.ok ?_
    rw [imageOf]
    simp only [List.nil_append, List.append_assoc]
    rfl

end BitVectorBasedArrayBuilder

end Mozkey.Storage
