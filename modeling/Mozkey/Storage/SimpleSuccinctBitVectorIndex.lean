import Mozkey.Base.Bits
import Mozkey.Lib.BitVector

/-!
# The simple succinct bit vector

A bit vector is read where it lies, as bytes whose bits count from the lowest.  Its index
holds the number of set bits in front of every chunk of bytes, so that a rank is one
entry of the index, the set bits of the words up to the position, and those of the bits of
one more word.

The rank of the index is the rank of the bit vector, also where the bytes go on behind it.
-/

namespace Mozkey.Storage

open Mozkey.Lib

/-! ## Bits of numbers -/

/-- The lowest bits of a number, from the lowest. -/
def lowBits (width n : Nat) : List Bool := (List.range width).map n.testBit

def byteBits (byte : UInt8) : List Bool := lowBits 8 byte.toNat

/-- The bits of a buffer. -/
def bitsOf (data : ByteString) : List Bool := data.flatMap byteBits

/-- `std::popcount`. -/
def popcount (word : UInt32) : Nat := (lowBits 32 word.toNat).count true

@[simp] theorem length_lowBits (width n : Nat) : (lowBits width n).length = width := by
  rw [lowBits, List.length_map, List.length_range]

@[simp] theorem length_byteBits (byte : UInt8) : (byteBits byte).length = 8 := length_lowBits 8 _

theorem getD_lowBits {width n i : Nat} (less : i < width) :
    (lowBits width n).getD i false = n.testBit i := by
  rw [lowBits, List.getD_eq_getElem _ _ (by simpa using less), List.getElem_map, List.getElem_range]

/-- Two numbers side by side. -/
theorem lowBits_add {width a : Nat} (less : a < 2 ^ width) (more b : Nat) :
    lowBits (width + more) (a + 2 ^ width * b) = lowBits width a ++ lowBits more b := by
  rw [Nat.add_comm a]
  refine List.ext_getElem (by simp) fun i inLeft inRight => ?_
  by_cases low : i < width
  · rw [List.getElem_append_left (by simpa using low)]
    simp only [lowBits, List.getElem_map, List.getElem_range]
    rw [Nat.testBit_two_pow_mul_add _ less, if_pos low]
  · rw [List.getElem_append_right (by simpa using low)]
    simp only [lowBits, List.getElem_map, List.getElem_range, List.length_map, List.length_range]
    rw [Nat.testBit_two_pow_mul_add _ less, if_neg low]

theorem lowBits_mod (width n : Nat) : lowBits width (n % 2 ^ width) = lowBits width n := by
  refine List.map_congr_left fun i inWidth => ?_
  rw [List.mem_range] at inWidth
  rw [Nat.testBit_mod_two_pow, decide_eq_true inWidth, Bool.true_and]

theorem take_lowBits {k width : Nat} (less : k ≤ width) (n : Nat) :
    (lowBits width n).take k = lowBits k n := by
  rw [lowBits, ← List.map_take, List.take_range, Nat.min_eq_left less, lowBits]

theorem count_lowBits_zero (width : Nat) : (lowBits width 0).count true = 0 := by
  refine List.count_eq_zero.2 fun isTrue => ?_
  obtain ⟨i, _, bit⟩ := List.mem_map.1 isTrue
  rw [Nat.zero_testBit] at bit
  exact Bool.false_ne_true bit

/-- What is shifted out is not counted. -/
theorem popcount_shiftLeft (word : UInt32) {k : Nat} (positive : 0 < k) (less : k < 32) :
    popcount (word <<< UInt32.ofNat (32 - k)) = ((lowBits 32 word.toNat).take k).count true := by
  have shift : (UInt32.ofNat (32 - k)).toNat % 32 = 32 - k := by
    rw [UInt32.toNat_ofNat_of_lt' (lt_of_le_of_lt (Nat.sub_le 32 k) (by decide))]
    omega
  have value : (word <<< UInt32.ofNat (32 - k)).toNat = 0 + 2 ^ (32 - k) * (word.toNat % 2 ^ k) := by
    rw [UInt32.toNat_shiftLeft, shift, Nat.shiftLeft_eq, Nat.zero_add, Nat.mul_comm word.toNat,
      show (2 : Nat) ^ 32 = 2 ^ (32 - k) * 2 ^ k by rw [← Nat.pow_add]; congr 1; omega,
      Nat.mul_mod_mul_left]
  have split : lowBits 32 (word <<< UInt32.ofNat (32 - k)).toNat
      = lowBits (32 - k) 0 ++ lowBits k (word.toNat % 2 ^ k) := by
    rw [value, ← lowBits_add (Nat.two_pow_pos _), Nat.sub_add_cancel less.le]
  rw [take_lowBits less.le, popcount, split, List.count_append, count_lowBits_zero, Nat.zero_add,
    lowBits_mod]

/-! ## Words of a buffer -/

/-- `LoadUnaligned<uint32_t>(data)`. -/
def loadWord (data : ByteString) : UInt32 :=
  loadUnaligned32 (byteAt data 0) (byteAt data 1) (byteAt data 2) (byteAt data 3)

/-- `Count1Bits`, over some words. -/
def count1Bits : ByteString → Nat → Nat
  | _, 0 => 0
  | data, length + 1 => popcount (loadWord data) + count1Bits (data.drop 4) length

theorem bitsOf_append (front back : ByteString) : bitsOf (front ++ back) = bitsOf front ++ bitsOf back :=
  List.flatMap_append

@[simp] theorem length_bitsOf (data : ByteString) : (bitsOf data).length = 8 * data.length := by
  induction data with
  | nil => rfl
  | cons byte data ih =>
      rw [bitsOf, List.flatMap_cons, List.length_append, length_byteBits]
      rw [bitsOf] at ih
      rw [ih, List.length_cons]
      omega

theorem drop_bitsOf (data : ByteString) (n : Nat) :
    (bitsOf data).drop (8 * n) = bitsOf (data.drop n) := by
  by_cases inside : n ≤ data.length
  · have length : 8 * n = (bitsOf (data.take n)).length := by
      rw [length_bitsOf, List.length_take, Nat.min_eq_left inside]
    conv_lhs => rw [← List.take_append_drop n data, bitsOf_append, length]
    exact List.drop_left
  · rw [List.drop_of_length_le (by rw [length_bitsOf]; omega),
      List.drop_of_length_le (by omega)]
    rfl

/-- The bits of a word are those of its bytes. -/
theorem lowBits_loadUnaligned32 (b0 b1 b2 b3 : UInt8) :
    lowBits 32 (loadUnaligned32 b0 b1 b2 b3).toNat = bitsOf [b0, b1, b2, b3] := by
  have less0 := b0.toNat_lt
  have less1 := b1.toNat_lt
  have less2 := b2.toNat_lt
  have less3 := b3.toNat_lt
  have value : (loadUnaligned32 b0 b1 b2 b3).toNat
      = b0.toNat + 2 ^ 8 * (b1.toNat + 2 ^ 8 * (b2.toNat + 2 ^ 8 * b3.toNat)) := by
    rw [loadUnaligned32, UInt32.toNat_ofNat']
    omega
  rw [value, lowBits_add less0 24, lowBits_add less1 16, lowBits_add less2 8]
  simp only [bitsOf, List.flatMap_cons, List.flatMap_nil, List.append_nil, byteBits]

/-- The first word of a buffer, as bits. -/
theorem lowBits_loadWord {data : ByteString} (word : 4 ≤ data.length) :
    lowBits 32 (loadWord data).toNat = (bitsOf data).take 32 := by
  obtain ⟨b0, b1, b2, b3, rest, rfl⟩ : ∃ b0 b1 b2 b3 rest, data = b0 :: b1 :: b2 :: b3 :: rest := by
    match data, word with
    | b0 :: b1 :: b2 :: b3 :: rest, _ => exact ⟨b0, b1, b2, b3, rest, rfl⟩
  show lowBits 32 (loadUnaligned32 b0 b1 b2 b3).toNat = _
  have front : bitsOf (b0 :: b1 :: b2 :: b3 :: rest) = bitsOf [b0, b1, b2, b3] ++ bitsOf rest :=
    bitsOf_append [b0, b1, b2, b3] rest
  have length : 32 = (bitsOf [b0, b1, b2, b3]).length := by rw [length_bitsOf]; rfl
  rw [lowBits_loadUnaligned32, front]
  conv_rhs => rw [length]
  exact List.take_left.symm

theorem rank_add (bits : List Bool) (n m : Nat) :
    rank true bits (n + m) = rank true bits n + rank true (bits.drop n) m := by
  rw [rank, List.take_add, List.count_append, rank, rank]

theorem count1Bits_eq_rank {data : ByteString} {length : Nat} (words : 4 * length ≤ data.length) :
    count1Bits data length = rank true (bitsOf data) (32 * length) := by
  induction length generalizing data with
  | zero => rfl
  | succ length ih =>
      rw [count1Bits, Nat.mul_succ, Nat.add_comm _ 32, rank_add, ih (by rw [List.length_drop]; omega),
        show 32 = 8 * 4 from rfl, drop_bitsOf, popcount, lowBits_loadWord (by omega)]
      rfl

/-! ## The index -/

/-- The loop of `InitIndex`. -/
def indexLoop (chunkSize : Nat) : Nat → ByteString → Nat → Nat → List Nat
  | 0, _, _, numBits => [numBits]
  | fuel + 1, data, remainingNumWords, numBits =>
      if 0 < remainingNumWords then
        numBits :: indexLoop chunkSize fuel (data.drop chunkSize) (remainingNumWords - chunkSize / 4)
          (numBits + count1Bits data (min (chunkSize / 4) remainingNumWords))
      else [numBits]

/-- `InitIndex`: the number of set bits in front of every chunk. -/
def initIndex (data : ByteString) (length chunkSize : Nat) : List Nat :=
  indexLoop chunkSize (length / 4) data (length / 4) 0

/-- The entry of a chunk counts what is in front of the chunk. -/
theorem indexLoop_getD {k : Nat} (positive : 0 < k) {fuel : Nat} {data : ByteString}
    {remaining : Nat} (enough : remaining ≤ fuel) (words : 4 * remaining ≤ data.length)
    {j : Nat} (inside : j * k ≤ remaining) (numBits : Nat) :
    (indexLoop (4 * k) fuel data remaining numBits).getD j 0
      = numBits + rank true (bitsOf data) (32 * (j * k)) := by
  have none : rank true (bitsOf data) 0 = 0 := rfl
  induction fuel generalizing data remaining j numBits with
  | zero =>
      have first : j * k = 0 := by omega
      obtain rfl : j = 0 := (Nat.mul_eq_zero.1 first).resolve_right (by omega)
      rw [indexLoop, List.getD_cons_zero, Nat.zero_mul, Nat.mul_zero, none, Nat.add_zero]
  | succ fuel ih =>
      rw [indexLoop]
      cases j with
      | zero =>
          rw [Nat.zero_mul, Nat.mul_zero, none, Nat.add_zero]
          split <;> rfl
      | succ j =>
          have next : (j + 1) * k = k + j * k := by rw [Nat.succ_mul, Nat.add_comm]
          have quotient : 4 * k / 4 = k := Nat.mul_div_cancel_left k (by omega)
          rw [next] at inside ⊢
          rw [if_pos (by omega), List.getD_cons_succ, quotient, Nat.min_eq_left (by omega),
            ih (by omega) (by rw [List.length_drop]; omega) (by omega) _ rfl,
            count1Bits_eq_rank (by omega), ← drop_bitsOf, Nat.add_assoc, Nat.mul_add, rank_add,
            show 8 * (4 * k) = 32 * k by omega]

/-! ## The bit vector -/

/-- `SimpleSuccinctBitVectorIndex`. -/
structure SimpleSuccinctBitVectorIndex where
  data : ByteString
  length : Nat
  chunkSize : Nat
  index : List Nat
  deriving Repr

namespace SimpleSuccinctBitVectorIndex

/-- `Init`. -/
def init (chunkSize : Nat) (data : ByteString) (length : Nat) : SimpleSuccinctBitVectorIndex where
  data := data
  length := length
  chunkSize := chunkSize
  index := initIndex data length chunkSize

/-- `Get`. -/
def get (vector : SimpleSuccinctBitVectorIndex) (index : Nat) : Bool :=
  ((byteAt vector.data (index / 8) >>> UInt8.ofNat (index % 8)) &&& 1) != 0

/-- `Rank1`. -/
def rank1 (vector : SimpleSuccinctBitVectorIndex) (n : Nat) : Nat :=
  let numChunks := n / (vector.chunkSize * 8)
  let chunks := vector.index.getD numChunks 0
  let words := count1Bits (vector.data.drop (numChunks * vector.chunkSize))
    ((n / 8 - numChunks * vector.chunkSize) / 4)
  let bits :=
    if n % 32 > 0 then
      popcount (loadWord (vector.data.drop (4 * (n / 32))) <<< UInt32.ofNat (32 - n % 32))
    else 0
  chunks + words + bits

/-- The bits below a position in its word. -/
theorem popcount_remaining {data : ByteString} {n : Nat} (remaining : 0 < n % 32)
    (word : 4 * (n / 32) + 4 ≤ data.length) :
    popcount (loadWord (data.drop (4 * (n / 32))) <<< UInt32.ofNat (32 - n % 32))
      = rank true ((bitsOf data).drop (32 * (n / 32))) (n % 32) := by
  have less : n % 32 < 32 := Nat.mod_lt n (by omega)
  rw [popcount_shiftLeft _ remaining less, lowBits_loadWord (by rw [List.length_drop]; omega),
    List.take_take, Nat.min_eq_left less.le, ← drop_bitsOf, rank,
    show 8 * (4 * (n / 32)) = 32 * (n / 32) by omega]

/-- **The rank of the index is the rank of the bits.** -/
theorem rank1_init {k : Nat} (positive : 0 < k) {data : ByteString} {length n : Nat}
    (words : 4 ∣ length) (buffer : length ≤ data.length) (inside : n ≤ 8 * length) :
    (init (4 * k) data length).rank1 n = rank true (bitsOf data) n := by
  obtain ⟨size, rfl⟩ := words
  have size4 : 4 * size / 4 = size := Nat.mul_div_cancel_left size (by omega)
  have chunks : n / (4 * k * 8) * k ≤ n / 32 := by
    rw [show 4 * k * 8 = 32 * k by omega, ← Nat.div_div_eq_div_mul]
    exact Nat.div_mul_le_self _ _
  rw [rank1]
  simp only [init, initIndex, size4]
  generalize n / (4 * k * 8) = q at chunks ⊢
  rw [indexLoop_getD positive le_rfl buffer (by omega), Nat.zero_add]
  have wordCount : (n / 8 - q * (4 * k)) / 4 = n / 32 - q * k := by
    rw [show q * (4 * k) = 4 * (q * k) by ring]
    omega
  rw [wordCount, count1Bits_eq_rank (by rw [List.length_drop, show q * (4 * k) = 4 * (q * k) by ring]; omega),
    ← drop_bitsOf, show 8 * (q * (4 * k)) = 32 * (q * k) by ring, ← rank_add,
    show 32 * (q * k) + 32 * (n / 32 - q * k) = 32 * (n / 32) by omega]
  have whole := Nat.div_add_mod n 32
  split
  · next remaining =>
      rw [popcount_remaining remaining (by omega), ← rank_add, whole]
  · next none =>
      rw [Nat.add_zero]
      congr 1
      omega

/-- A bit of a byte, shifted to the lowest place. -/
theorem shiftRight_and_one (byte : UInt8) {i : Nat} (less : i < 8) :
    ((byte >>> UInt8.ofNat i) &&& 1 != 0) = byte.toNat.testBit i := by
  have shift : (UInt8.ofNat i).toNat % 8 = i := by
    rw [UInt8.toNat_ofNat_of_lt' (lt_trans less (by decide)), Nat.mod_eq_of_lt less]
  refine Bool.eq_iff_iff.2 ?_
  rw [bne_iff_ne, Ne, ← UInt8.toNat_inj, UInt8.toNat_and, UInt8.toNat_shiftRight, shift, Nat.testBit,
    bne_iff_ne, Nat.and_comm]
  rfl

theorem getD_bitsOf (data : ByteString) (index : Nat) :
    (bitsOf data).getD index false = (byteAt data (index / 8)).toNat.testBit (index % 8) := by
  induction data generalizing index with
  | nil =>
      rw [byteAt, List.getD_nil]
      exact (Nat.zero_testBit _).symm
  | cons byte data ih =>
      rw [bitsOf, List.flatMap_cons]
      by_cases first : index < 8
      · rw [List.getD_append _ _ _ _ (by rwa [length_byteBits]), byteBits, getD_lowBits first,
          Nat.div_eq_of_lt first, Nat.mod_eq_of_lt first, byteAt_zero]
      · obtain ⟨i, rfl⟩ := Nat.exists_eq_add_of_le (Nat.le_of_not_lt first)
        rw [List.getD_append_right _ _ _ _ (by rw [length_byteBits]; omega), length_byteBits,
          Nat.add_sub_cancel_left, Nat.add_mod_left, Nat.add_div_left i (by omega), byteAt_succ]
        exact ih i

/-- The bit at a position. -/
theorem get_init (chunkSize : Nat) (data : ByteString) (length index : Nat) :
    (init chunkSize data length).get index = (bitsOf data).getD index false := by
  rw [getD_bitsOf, get, shiftRight_and_one _ (Nat.mod_lt index (by omega))]
  rfl

end SimpleSuccinctBitVectorIndex

end Mozkey.Storage
