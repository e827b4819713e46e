import Mozkey.Base.ByteString
import Mozkey.Lib.BitVector

/-!
# Arrays of padded elements

`BitVectorBasedArrayBuilder` stores byte strings one after another.  An element is
padded with zero bytes to `base_length + k * step_length`, and a bit vector keeps
`k` in unary: a zero bit and then `k` one bits for each element, and a zero bit
at the end.  `BitVectorBasedArray::Get` finds an element by rank and select.

The bit vector stands here as the list of its bits, without the packing into
32-bit words.
-/

namespace Mozkey.Storage

open Mozkey.Lib

structure BitVectorBasedArray where
  index : List Bool
  baseLength : Nat
  stepLength : Nat
  data : ByteString
  deriving Repr

namespace BitVectorBasedArray

/-- The loop that counts the steps of an element.  Each turn takes `stepLength`
off the length, which is at most `fuel`. -/
def countSteps (baseLength stepLength : Nat) : Nat → Nat → Nat
  | 0, _ => 0
  | fuel + 1, length =>
      if length > baseLength then countSteps baseLength stepLength fuel (length - stepLength) + 1
      else 0

def numSteps (baseLength stepLength : Nat) (element : ByteString) : Nat :=
  countSteps baseLength stepLength element.length element.length

/-- The bytes of an element in the image. -/
def padElement (baseLength stepLength : Nat) (element : ByteString) : ByteString :=
  element ++ List.replicate
    (baseLength + numSteps baseLength stepLength element * stepLength - element.length) 0

/-- `BitVectorBasedArrayBuilder::Build`. -/
def build (baseLength stepLength : Nat) (elements : List ByteString) : BitVectorBasedArray where
  index := elements.flatMap
    (fun element => false :: List.replicate (numSteps baseLength stepLength element) true) ++ [false]
  baseLength := baseLength
  stepLength := stepLength
  data := elements.flatMap (padElement baseLength stepLength)

/-- `BitVectorBasedArray::Get`: what the returned pointer points to, and the
length. -/
def get (array : BitVectorBasedArray) (index : Nat) : ByteString × Nat :=
  let bitIndex := select false array.index (index + 1)
  let dataIndex := array.baseLength * index + array.stepLength * rank true array.index bitIndex
  let run := runLength true (array.index.drop (bitIndex + 1))
  (array.data.drop dataIndex, array.baseLength + array.stepLength * run)

/-! ## Every element is found -/

/-- The steps make up for the length. -/
theorem le_countSteps (baseLength : Nat) {stepLength : Nat} (step : 0 < stepLength) :
    ∀ {fuel length : Nat}, length ≤ fuel →
      length ≤ baseLength + countSteps baseLength stepLength fuel length * stepLength
  | 0, length, bound => by omega
  | fuel + 1, length, bound => by
      unfold countSteps
      split
      · have := le_countSteps baseLength step
          (show length - stepLength ≤ fuel by omega)
        rw [Nat.add_mul, Nat.one_mul]
        omega
      · omega

/-- With steps of one byte an element is padded to the base length only. -/
theorem countSteps_one (baseLength : Nat) :
    ∀ {fuel length : Nat}, length ≤ fuel → countSteps baseLength 1 fuel length = length - baseLength
  | 0, length, bound => by
      unfold countSteps
      omega
  | fuel + 1, length, bound => by
      unfold countSteps
      split
      · rw [countSteps_one baseLength (show length - 1 ≤ fuel by omega)]
        omega
      · omega

variable (baseLength stepLength : Nat)

theorem length_padElement (step : 0 < stepLength) (element : ByteString) :
    (padElement baseLength stepLength element).length =
      baseLength + numSteps baseLength stepLength element * stepLength := by
  have := le_countSteps baseLength step (Nat.le_refl element.length)
  rw [padElement, List.length_append, List.length_replicate]
  unfold numSteps
  omega

theorem length_padElement_one (element : ByteString) :
    (padElement baseLength 1 element).length = max baseLength element.length := by
  rw [length_padElement baseLength 1 (by decide), numSteps,
    countSteps_one baseLength (Nat.le_refl _)]
  omega

/-- The unary code of an element. -/
abbrev code (element : ByteString) : List Bool :=
  false :: List.replicate (numSteps baseLength stepLength element) true

theorem codes_end (back : List ByteString) :
    ∃ rest, back.flatMap (code baseLength stepLength) ++ [false] = false :: rest := by
  cases back with
  | nil => exact ⟨[], rfl⟩
  | cons other others => exact ⟨_, rfl⟩

theorem count_false_codes (front : List ByteString) :
    (front.flatMap (code baseLength stepLength)).count false = front.length := by
  induction front with
  | nil => rfl
  | cons element front ih =>
      rw [List.flatMap_cons, List.count_append, ih, List.count_cons_self,
        List.count_replicate, List.length_cons]
      simp only [Bool.true_eq_false, beq_iff_eq, if_false]
      omega

/-- The data before an element is as long as its unary codes say. -/
theorem length_data_front (step : 0 < stepLength) (front : List ByteString) :
    (front.flatMap (padElement baseLength stepLength)).length = baseLength * front.length +
      stepLength * (front.flatMap (code baseLength stepLength)).count true := by
  induction front with
  | nil => simp
  | cons element front ih =>
      rw [List.flatMap_cons, List.length_append, ih, length_padElement _ _ step,
        List.flatMap_cons, List.count_append, List.count_cons, List.count_replicate_self,
        List.length_cons]
      simp only [beq_iff_eq, Bool.false_eq_true, if_false]
      ring

/-- The bits around an element. -/
theorem index_build (front : List ByteString) (element : ByteString) (back : List ByteString) :
    ∃ rest, (build baseLength stepLength (front ++ element :: back)).index =
      front.flatMap (code baseLength stepLength) ++
        (false :: (List.replicate (numSteps baseLength stepLength element) true ++
          false :: rest)) := by
  obtain ⟨rest, tail⟩ := codes_end baseLength stepLength back
  refine ⟨rest, ?_⟩
  show (front ++ element :: back).flatMap (code baseLength stepLength) ++ [false] = _
  rw [List.flatMap_append, List.flatMap_cons, List.append_assoc, List.append_assoc, tail]
  rfl

/-- **Every element is found**: `Get` returns a pointer to the padded element and
its length. -/
theorem get_build (step : 0 < stepLength) (front : List ByteString) (element : ByteString)
    (back : List ByteString) :
    (build baseLength stepLength (front ++ element :: back)).get front.length =
      ((element :: back).flatMap (padElement baseLength stepLength),
        (padElement baseLength stepLength element).length) := by
  obtain ⟨rest, index⟩ := index_build baseLength stepLength front element back
  have found : select false (build baseLength stepLength (front ++ element :: back)).index
      (front.length + 1) = (front.flatMap (code baseLength stepLength)).length := by
    rw [index, ← count_false_codes baseLength stepLength front, select_append,
      select_cons_self_one]
    rfl
  unfold get
  rw [found, index]
  dsimp only
  rw [rank_append_length]
  refine Prod.ext ?_ ?_
  · show List.drop _ ((front ++ element :: back).flatMap (padElement baseLength stepLength)) = _
    rw [List.flatMap_append]
    exact List.drop_left' (length_data_front baseLength stepLength step front)
  · show baseLength + stepLength * runLength true (List.drop _ _) = _
    rw [List.drop_length_add_append, List.drop_succ_cons, List.drop_zero,
      runLength_replicate_append Bool.false_ne_true, length_padElement _ _ step, Nat.mul_comm]

/-- The first element is stored at the start of the data. -/
theorem get_build_zero (step : 0 < stepLength) {elements : List ByteString}
    (nonempty : elements ≠ []) :
    ((build baseLength stepLength elements).get 0).1 =
      elements.flatMap (padElement baseLength stepLength) := by
  cases elements with
  | nil => exact absurd rfl nonempty
  | cons element back => exact congrArg Prod.fst (get_build baseLength stepLength step [] element back)

end BitVectorBasedArray

end Mozkey.Storage
