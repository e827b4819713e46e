import Mozkey.Base.ByteString

/-!
# Numbers in native byte order

Numbers are stored byte by byte, the lowest first.  A buffer of bytes is read as words of
32 bits.
-/

namespace Mozkey

/-- `StoreUnaligned<uint16_t>`. -/
def storeUnaligned16 (x : UInt16) : ByteString := [x.toUInt8, (x >>> 8).toUInt8]

theorem length_storeUnaligned16 (x : UInt16) : (storeUnaligned16 x).length = 2 := rfl

/-- `StoreUnaligned<uint32_t>`. -/
def storeUnaligned32 (x : UInt32) : ByteString :=
  [x.toUInt8, (x >>> 8).toUInt8, (x >>> 16).toUInt8, (x >>> 24).toUInt8]

/-- `LoadUnaligned<uint32_t>`, of four bytes. -/
def loadUnaligned32 (b0 b1 b2 b3 : UInt8) : UInt32 :=
  UInt32.ofNat (b0.toNat + b1.toNat * 2 ^ 8 + b2.toNat * 2 ^ 16 + b3.toNat * 2 ^ 24)

/-- `LoadUnaligned<uint16_t>`, at a pointer. -/
def loadUnaligned16 (ptr : ByteString) : UInt16 :=
  UInt16.ofNat ((byteAt ptr 0).toNat + (byteAt ptr 1).toNat * 2 ^ 8)

/-- `LoadUnaligned<uint32_t>`, at a pointer. -/
def loadUnaligned32At (ptr : ByteString) : UInt32 :=
  loadUnaligned32 (byteAt ptr 0) (byteAt ptr 1) (byteAt ptr 2) (byteAt ptr 3)

/-- `StoreUnaligned<uint64_t>`. -/
def storeUnaligned64 (x : UInt64) : ByteString :=
  storeUnaligned32 x.toUInt32 ++ storeUnaligned32 (x >>> 32).toUInt32

/-- `LoadUnaligned<uint64_t>`, at a pointer. -/
def loadUnaligned64 (ptr : ByteString) : UInt64 :=
  UInt64.ofNat ((loadUnaligned32At ptr).toNat + (loadUnaligned32At (ptr.drop 4)).toNat * 2 ^ 32)

/-- The words of a buffer. -/
def loadWords : ByteString → List UInt32
  | b0 :: b1 :: b2 :: b3 :: rest => loadUnaligned32 b0 b1 b2 b3 :: loadWords rest
  | _ => []

theorem loadUnaligned16_store (x : UInt16) (rest : ByteString) :
    loadUnaligned16 (storeUnaligned16 x ++ rest) = x := by
  refine UInt16.toNat_inj.1 ?_
  have less := x.toNat_lt
  have b1 : (x >>> 8).toUInt8.toNat = x.toNat / 2 ^ 8 % 2 ^ 8 := by
    rw [UInt16.toNat_toUInt8, UInt16.toNat_shiftRight, Nat.shiftRight_eq_div_pow]
    rfl
  rw [storeUnaligned16, List.cons_append, List.cons_append, loadUnaligned16, byteAt_zero,
    byteAt_succ, byteAt_zero, UInt16.toNat_ofNat', UInt16.toNat_toUInt8, b1]
  omega

/-- A number among numbers that were stored one after another. -/
theorem loadUnaligned16_flatMap (values : List UInt16) (rest : ByteString) {i : Nat}
    (inside : i < values.length) :
    loadUnaligned16 ((values.flatMap storeUnaligned16 ++ rest).drop (2 * i)) = values[i] := by
  induction values generalizing i with
  | nil => exact absurd inside (Nat.not_lt_zero i)
  | cons x values ih =>
      rw [List.flatMap_cons, List.append_assoc]
      cases i with
      | zero => exact loadUnaligned16_store x _
      | succ i =>
          rw [Nat.mul_succ, Nat.add_comm, ← List.drop_drop]
          exact ih (Nat.lt_of_succ_lt_succ inside)

theorem length_flatMap_storeUnaligned16 (values : List UInt16) :
    (values.flatMap storeUnaligned16).length = 2 * values.length := by
  induction values with
  | nil => rfl
  | cons x values ih =>
      rw [List.flatMap_cons, List.length_append, ih, List.length_cons]
      show 2 + _ = _
      omega

theorem loadUnaligned32_store (x : UInt32) :
    loadUnaligned32 x.toUInt8 (x >>> 8).toUInt8 (x >>> 16).toUInt8 (x >>> 24).toUInt8 = x := by
  refine UInt32.toNat_inj.1 ?_
  have less := x.toNat_lt
  have b1 : (x >>> 8).toUInt8.toNat = x.toNat / 2 ^ 8 % 2 ^ 8 := by
    rw [UInt32.toNat_toUInt8, UInt32.toNat_shiftRight, Nat.shiftRight_eq_div_pow]
    rfl
  have b2 : (x >>> 16).toUInt8.toNat = x.toNat / 2 ^ 16 % 2 ^ 8 := by
    rw [UInt32.toNat_toUInt8, UInt32.toNat_shiftRight, Nat.shiftRight_eq_div_pow]
    rfl
  have b3 : (x >>> 24).toUInt8.toNat = x.toNat / 2 ^ 24 % 2 ^ 8 := by
    rw [UInt32.toNat_toUInt8, UInt32.toNat_shiftRight, Nat.shiftRight_eq_div_pow]
    rfl
  rw [loadUnaligned32, UInt32.toNat_ofNat', UInt32.toNat_toUInt8, b1, b2, b3]
  omega

theorem loadUnaligned32At_store (x : UInt32) (rest : ByteString) :
    loadUnaligned32At (storeUnaligned32 x ++ rest) = x := by
  simpa [loadUnaligned32At, storeUnaligned32] using loadUnaligned32_store x

theorem loadUnaligned64_store (x : UInt64) (rest : ByteString) :
    loadUnaligned64 (storeUnaligned64 x ++ rest) = x := by
  have less := x.toNat_lt
  have behind : (storeUnaligned64 x ++ rest).drop 4 =
      storeUnaligned32 (x >>> 32).toUInt32 ++ rest := by
    simp [storeUnaligned64, storeUnaligned32]
  apply UInt64.toNat_inj.1
  rw [loadUnaligned64, behind, loadUnaligned32At_store, storeUnaligned64, List.append_assoc,
    loadUnaligned32At_store, UInt64.toNat_ofNat', UInt64.toNat_toUInt32, UInt64.toNat_toUInt32,
    UInt64.toNat_shiftRight, Nat.shiftRight_eq_div_pow]
  have shift : (32 : UInt64).toNat % 64 = 32 := rfl
  rw [shift]
  omega

theorem loadWords_storeUnaligned32 (x : UInt32) (rest : ByteString) :
    loadWords (storeUnaligned32 x ++ rest) = x :: loadWords rest := by
  rw [storeUnaligned32, List.cons_append, List.cons_append, List.cons_append, List.cons_append,
    List.nil_append, loadWords, loadUnaligned32_store]

theorem loadWords_storeUnaligned16 (low high : UInt16) (rest : ByteString) :
    loadWords (storeUnaligned16 low ++ (storeUnaligned16 high ++ rest))
      = loadUnaligned32 low.toUInt8 (low >>> 8).toUInt8 high.toUInt8 (high >>> 8).toUInt8
        :: loadWords rest := by
  rw [storeUnaligned16, storeUnaligned16, List.cons_append, List.cons_append, List.nil_append,
    List.cons_append, List.cons_append, List.nil_append, loadWords]

/-- **The words of stored words are the words.** -/
theorem loadWords_flatMap (words : List UInt32) :
    loadWords (words.flatMap storeUnaligned32) = words := by
  induction words with
  | nil => rfl
  | cons word words ih => rw [List.flatMap_cons, loadWords_storeUnaligned32, ih]

theorem length_flatMap_storeUnaligned32 (words : List UInt32) :
    (words.flatMap storeUnaligned32).length = 4 * words.length := by
  induction words with
  | nil => rfl
  | cons word words ih =>
      rw [List.flatMap_cons, List.length_append, ih, List.length_cons]
      show 4 + _ = _
      omega

/-- Two numbers of 16 bits read as one word, and taken apart again. -/
theorem halves_loadUnaligned32 (low high : UInt16) :
    let word := loadUnaligned32 low.toUInt8 (low >>> 8).toUInt8 high.toUInt8 (high >>> 8).toUInt8
    (word &&& 0xFFFF).toUInt16 = low ∧ (word >>> 16).toUInt16 = high := by
  have lowLess := low.toNat_lt
  have highLess := high.toNat_lt
  have byte : ∀ x : UInt16, (x >>> 8).toUInt8.toNat = x.toNat / 2 ^ 8 % 2 ^ 8 := by
    intro x
    rw [UInt16.toNat_toUInt8, UInt16.toNat_shiftRight, Nat.shiftRight_eq_div_pow]
    rfl
  have word : (loadUnaligned32 low.toUInt8 (low >>> 8).toUInt8 high.toUInt8
      (high >>> 8).toUInt8).toNat = low.toNat + high.toNat * 2 ^ 16 := by
    rw [loadUnaligned32, UInt32.toNat_ofNat', byte, byte, UInt16.toNat_toUInt8, UInt16.toNat_toUInt8]
    omega
  refine ⟨UInt16.toNat_inj.1 ?_, UInt16.toNat_inj.1 ?_⟩
  · rw [UInt32.toNat_toUInt16, UInt32.toNat_and, word]
    change (_ &&& (2 ^ 16 - 1)) % 2 ^ 16 = _
    rw [Nat.and_two_pow_sub_one_eq_mod]
    omega
  · rw [UInt32.toNat_toUInt16, UInt32.toNat_shiftRight, word]
    change ((low.toNat + high.toNat * 2 ^ 16) >>> 16) % 2 ^ 16 = _
    rw [Nat.shiftRight_eq_div_pow]
    omega

end Mozkey
