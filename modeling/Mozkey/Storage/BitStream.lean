import Mozkey.Storage.SimpleSuccinctBitVectorIndex

/-!
# Streams of bits

A stream takes bits one by one and puts them into bytes, from the lowest bit of a byte on.  What has
been written is the image, whose bits are those that were pushed and then zero bits up to the end of
the last byte, or of the last word after it has been filled up.
-/

namespace Mozkey.Storage

open Mozkey.Lib

/-- `BitStream`. -/
structure BitStream where
  image : ByteString := []
  numBits : Nat := 0
  deriving Repr

namespace BitStream

/-- `PushBit`. -/
def pushBit (stream : BitStream) (bit : Bool) : BitStream :=
  let shift := stream.numBits % 8
  let image := if shift = 0 then stream.image ++ [0] else stream.image
  { image := image.modify (image.length - 1)
      fun last => last ||| (UInt8.ofNat bit.toNat <<< UInt8.ofNat shift)
    numBits := stream.numBits + 1 }

/-- `FillPadding32`. -/
def fillPadding32 (stream : BitStream) : BitStream :=
  let remaining := stream.image.length % 4
  let image :=
    if remaining ≠ 0 then stream.image ++ List.replicate (4 - remaining) 0 else stream.image
  { image, numBits := image.length * 8 }

/-- The image holds some bits, and as few other bits as it can. -/
structure Holds (stream : BitStream) (bits : List Bool) : Prop where
  numBits : stream.numBits = bits.length
  image : bitsOf stream.image
    = bits ++ List.replicate (8 * stream.image.length - bits.length) false
  least : 8 * stream.image.length < bits.length + 8

theorem holds_nil : Holds {} [] := ⟨rfl, rfl, by decide⟩

/-- A bit is set in a byte where there was none. -/
theorem byteBits_or_shiftLeft (byte : UInt8) (bit : Bool) {shift : Nat} (less : shift < 8)
    (unset : byte.toNat.testBit shift = false) :
    byteBits (byte ||| (UInt8.ofNat bit.toNat <<< UInt8.ofNat shift))
      = (byteBits byte).set shift bit := by
  have value : (UInt8.ofNat bit.toNat <<< UInt8.ofNat shift).toNat
      = bit.toNat <<< shift % 2 ^ 8 := by
    rw [UInt8.toNat_shiftLeft, UInt8.toNat_ofNat_of_lt' (lt_trans less (by decide)),
      Nat.mod_eq_of_lt less, UInt8.toNat_ofNat_of_lt' (by cases bit <;> decide)]
  refine List.ext_getElem (by simp) fun i inLeft inRight => ?_
  have inByte : i < 8 := by simpa using inLeft
  rw [List.getElem_set]
  simp only [byteBits, lowBits, List.getElem_map, List.getElem_range]
  rw [UInt8.toNat_or, value, Nat.testBit_or, Nat.testBit_mod_two_pow, decide_eq_true inByte,
    Bool.true_and, Nat.testBit_shiftLeft]
  split
  · next same =>
    subst same
    rw [unset, Bool.false_or, decide_eq_true (le_refl shift), Bool.true_and, Nat.sub_self]
    cases bit <;> rfl
  · next other =>
    suffices none_ : (decide (shift ≤ i) && bit.toNat.testBit (i - shift)) = false by
      rw [none_, Bool.or_false]
    rcases Nat.lt_or_ge i shift with before | behind
    · rw [decide_eq_false (Nat.not_le.2 before), Bool.false_and]
    · obtain ⟨more, isMore⟩ : ∃ more, i - shift = more + 1 := ⟨i - shift - 1, by omega⟩
      rw [isMore, Nat.testBit_succ]
      cases bit <;> simp

theorem modify_concat {α : Type} (front : List α) (last : α) (f : α → α) :
    (front ++ [last]).modify front.length f = front ++ [f last] := by
  induction front with
  | nil => rfl
  | cons x front ih => exact congrArg (x :: ·) ih

/-- A pushed bit comes behind the others. -/
theorem Holds.pushBit {stream : BitStream} {bits : List Bool} (holds : Holds stream bits)
    (bit : Bool) : Holds (stream.pushBit bit) (bits ++ [bit]) := by
  have within : bits.length ≤ 8 * stream.image.length := by
    have length := congrArg List.length holds.image
    rw [length_bitsOf, List.length_append, List.length_replicate] at length
    omega
  -- the image with the byte that the bit goes to at its end
  obtain ⟨image, isImage, inBits, size⟩ : ∃ image,
      image = (if stream.numBits % 8 = 0 then stream.image ++ [0] else stream.image) ∧
        bitsOf image = bits ++ List.replicate (8 * image.length - bits.length) false ∧
          8 * image.length = bits.length + (8 - bits.length % 8) := by
    refine ⟨_, rfl, ?_⟩
    have small := holds.least
    have isBits := holds.image
    rw [holds.numBits]
    split
    · next whole =>
      have none_ : 8 * stream.image.length - bits.length = 0 := by omega
      rw [none_, List.replicate_zero, List.append_nil] at isBits
      rw [bitsOf_append, isBits, List.length_append, List.length_singleton]
      refine ⟨congrArg (bits ++ ·) ?_, by omega⟩
      rw [show 8 * (stream.image.length + 1) - bits.length = 8 by omega]
      rfl
    · exact ⟨isBits, by omega⟩
  obtain ⟨front, last, rfl⟩ : ∃ front last, image = front ++ [last] := by
    refine ⟨image.dropLast, image.getLast ?_, (List.dropLast_append_getLast _).symm⟩
    rintro rfl
    simp only [List.length_nil] at size
    omega
  rw [List.length_append, List.length_singleton] at inBits size
  have inFront : bits.length = (bitsOf front).length + bits.length % 8 := by
    rw [length_bitsOf]
    omega
  have inByte : bits.length % 8 < 8 := Nat.mod_lt _ (by decide)
  obtain ⟨more, isMore⟩ : ∃ more, 8 * (front.length + 1) - bits.length = more + 1 :=
    ⟨8 * (front.length + 1) - bits.length - 1, by omega⟩
  have split (byte : UInt8) : bitsOf (front ++ [byte]) = bitsOf front ++ byteBits byte := by
    rw [bitsOf_append, bitsOf, bitsOf, List.flatMap_singleton]
  rw [isMore, split] at inBits
  have unset : last.toNat.testBit (bits.length % 8) = false := by
    have here := congrArg (·.getD bits.length false) inBits
    rw [List.getD_append_right _ _ _ _ le_rfl, Nat.sub_self, inFront,
      List.getD_append_right _ _ _ _ (Nat.le_add_right _ _), Nat.add_sub_cancel_left, byteBits,
      getD_lowBits inByte] at here
    exact here
  have isPushed : (stream.pushBit bit).image = front
      ++ [last ||| (UInt8.ofNat bit.toNat <<< UInt8.ofNat (bits.length % 8))] := by
    rw [BitStream.pushBit, ← isImage, holds.numBits]
    dsimp only
    rw [List.length_append, List.length_singleton, Nat.add_sub_cancel, modify_concat]
  have set : (bitsOf front ++ byteBits last).set bits.length bit
      = bits ++ bit :: List.replicate more false := by
    rw [inBits, List.set_append_right _ _ le_rfl, Nat.sub_self, List.replicate_succ,
      List.set_cons_zero]
  refine ⟨?_, ?_, ?_⟩
  · rw [List.length_append, List.length_singleton, ← holds.numBits]
    rfl
  · rw [isPushed, split, byteBits_or_shiftLeft last bit inByte unset, List.append_assoc,
      List.singleton_append, List.length_append, List.length_singleton, List.length_append,
      List.length_singleton, show 8 * (front.length + 1) - (bits.length + 1) = more by omega, ← set]
    conv_rhs => rw [inFront]
    rw [List.set_append_right _ _ (Nat.le_add_right _ _), Nat.add_sub_cancel_left]
  · rw [isPushed, List.length_append, List.length_append, List.length_singleton,
      List.length_singleton]
    omega

theorem Holds.pushBits {stream : BitStream} {bits : List Bool} (holds : Holds stream bits)
    (more : List Bool) : Holds (more.foldl BitStream.pushBit stream) (bits ++ more) := by
  induction more generalizing stream bits with
  | nil => rwa [List.append_nil]
  | cons bit more ih =>
      rw [List.foldl_cons, List.append_cons]
      exact ih (holds.pushBit bit)

theorem bitsOf_replicate_zero (n : Nat) :
    bitsOf (List.replicate n 0) = List.replicate (8 * n) false := by
  induction n with
  | zero => rfl
  | succ n ih =>
      rw [List.replicate_succ, bitsOf, List.flatMap_cons, ← bitsOf, ih, Nat.mul_succ, Nat.add_comm,
        List.replicate_add]
      rfl

/-- The bytes of the words that some bits need. -/
def wordBytes (numBits : Nat) : Nat := 4 * ((numBits + 31) / 32)

/-- Filled up, the image ends with a word. -/
theorem Holds.fillPadding32 {stream : BitStream} {bits : List Bool} (holds : Holds stream bits) :
    (stream.fillPadding32).image.length = wordBytes bits.length ∧
      bitsOf (stream.fillPadding32).image
        = bits ++ List.replicate (8 * wordBytes bits.length - bits.length) false := by
  have within : bits.length ≤ 8 * stream.image.length := by
    have length := congrArg List.length holds.image
    rw [length_bitsOf, List.length_append, List.length_replicate] at length
    omega
  have least := holds.least
  have isImage : (stream.fillPadding32).image = stream.image
      ++ List.replicate (wordBytes bits.length - stream.image.length) 0 := by
    unfold BitStream.fillPadding32 wordBytes
    dsimp only
    split
    · congr 2
      omega
    · rw [show 4 * ((bits.length + 31) / 32) - stream.image.length = 0 by omega,
        List.replicate_zero, List.append_nil]
  have size : stream.image.length ≤ wordBytes bits.length := by
    unfold wordBytes
    omega
  rw [isImage, List.length_append, List.length_replicate, bitsOf_append, holds.image,
    bitsOf_replicate_zero, List.append_assoc, ← List.replicate_add]
  refine ⟨by omega, ?_⟩
  congr 2
  omega

end BitStream

end Mozkey.Storage
