import Mozkey.Base.ByteString
import Mozkey.Lib.BlockCipher

/-!
# The block cipher of the encryptor

AES with a key of 256 bits, on blocks of 16 bytes that stand in the block column by
column.  The columns are mixed by multiplications in the field of 256 elements, which are
linear over the exclusive or.
-/

namespace Mozkey.Aes256

/-! ## Tables -/

def kSBox : List UInt8 :=
  [
    0x63, 0x7c, 0x77, 0x7b, 0xf2, 0x6b, 0x6f, 0xc5, 0x30, 0x01, 0x67, 0x2b,
    0xfe, 0xd7, 0xab, 0x76, 0xca, 0x82, 0xc9, 0x7d, 0xfa, 0x59, 0x47, 0xf0,
    0xad, 0xd4, 0xa2, 0xaf, 0x9c, 0xa4, 0x72, 0xc0, 0xb7, 0xfd, 0x93, 0x26,
    0x36, 0x3f, 0xf7, 0xcc, 0x34, 0xa5, 0xe5, 0xf1, 0x71, 0xd8, 0x31, 0x15,
    0x04, 0xc7, 0x23, 0xc3, 0x18, 0x96, 0x05, 0x9a, 0x07, 0x12, 0x80, 0xe2,
    0xeb, 0x27, 0xb2, 0x75, 0x09, 0x83, 0x2c, 0x1a, 0x1b, 0x6e, 0x5a, 0xa0,
    0x52, 0x3b, 0xd6, 0xb3, 0x29, 0xe3, 0x2f, 0x84, 0x53, 0xd1, 0x00, 0xed,
    0x20, 0xfc, 0xb1, 0x5b, 0x6a, 0xcb, 0xbe, 0x39, 0x4a, 0x4c, 0x58, 0xcf,
    0xd0, 0xef, 0xaa, 0xfb, 0x43, 0x4d, 0x33, 0x85, 0x45, 0xf9, 0x02, 0x7f,
    0x50, 0x3c, 0x9f, 0xa8, 0x51, 0xa3, 0x40, 0x8f, 0x92, 0x9d, 0x38, 0xf5,
    0xbc, 0xb6, 0xda, 0x21, 0x10, 0xff, 0xf3, 0xd2, 0xcd, 0x0c, 0x13, 0xec,
    0x5f, 0x97, 0x44, 0x17, 0xc4, 0xa7, 0x7e, 0x3d, 0x64, 0x5d, 0x19, 0x73,
    0x60, 0x81, 0x4f, 0xdc, 0x22, 0x2a, 0x90, 0x88, 0x46, 0xee, 0xb8, 0x14,
    0xde, 0x5e, 0x0b, 0xdb, 0xe0, 0x32, 0x3a, 0x0a, 0x49, 0x06, 0x24, 0x5c,
    0xc2, 0xd3, 0xac, 0x62, 0x91, 0x95, 0xe4, 0x79, 0xe7, 0xc8, 0x37, 0x6d,
    0x8d, 0xd5, 0x4e, 0xa9, 0x6c, 0x56, 0xf4, 0xea, 0x65, 0x7a, 0xae, 0x08,
    0xba, 0x78, 0x25, 0x2e, 0x1c, 0xa6, 0xb4, 0xc6, 0xe8, 0xdd, 0x74, 0x1f,
    0x4b, 0xbd, 0x8b, 0x8a, 0x70, 0x3e, 0xb5, 0x66, 0x48, 0x03, 0xf6, 0x0e,
    0x61, 0x35, 0x57, 0xb9, 0x86, 0xc1, 0x1d, 0x9e, 0xe1, 0xf8, 0x98, 0x11,
    0x69, 0xd9, 0x8e, 0x94, 0x9b, 0x1e, 0x87, 0xe9, 0xce, 0x55, 0x28, 0xdf,
    0x8c, 0xa1, 0x89, 0x0d, 0xbf, 0xe6, 0x42, 0x68, 0x41, 0x99, 0x2d, 0x0f,
    0xb0, 0x54, 0xbb, 0x16]

def kInvSBox : List UInt8 :=
  [
    0x52, 0x09, 0x6a, 0xd5, 0x30, 0x36, 0xa5, 0x38, 0xbf, 0x40, 0xa3, 0x9e,
    0x81, 0xf3, 0xd7, 0xfb, 0x7c, 0xe3, 0x39, 0x82, 0x9b, 0x2f, 0xff, 0x87,
    0x34, 0x8e, 0x43, 0x44, 0xc4, 0xde, 0xe9, 0xcb, 0x54, 0x7b, 0x94, 0x32,
    0xa6, 0xc2, 0x23, 0x3d, 0xee, 0x4c, 0x95, 0x0b, 0x42, 0xfa, 0xc3, 0x4e,
    0x08, 0x2e, 0xa1, 0x66, 0x28, 0xd9, 0x24, 0xb2, 0x76, 0x5b, 0xa2, 0x49,
    0x6d, 0x8b, 0xd1, 0x25, 0x72, 0xf8, 0xf6, 0x64, 0x86, 0x68, 0x98, 0x16,
    0xd4, 0xa4, 0x5c, 0xcc, 0x5d, 0x65, 0xb6, 0x92, 0x6c, 0x70, 0x48, 0x50,
    0xfd, 0xed, 0xb9, 0xda, 0x5e, 0x15, 0x46, 0x57, 0xa7, 0x8d, 0x9d, 0x84,
    0x90, 0xd8, 0xab, 0x00, 0x8c, 0xbc, 0xd3, 0x0a, 0xf7, 0xe4, 0x58, 0x05,
    0xb8, 0xb3, 0x45, 0x06, 0xd0, 0x2c, 0x1e, 0x8f, 0xca, 0x3f, 0x0f, 0x02,
    0xc1, 0xaf, 0xbd, 0x03, 0x01, 0x13, 0x8a, 0x6b, 0x3a, 0x91, 0x11, 0x41,
    0x4f, 0x67, 0xdc, 0xea, 0x97, 0xf2, 0xcf, 0xce, 0xf0, 0xb4, 0xe6, 0x73,
    0x96, 0xac, 0x74, 0x22, 0xe7, 0xad, 0x35, 0x85, 0xe2, 0xf9, 0x37, 0xe8,
    0x1c, 0x75, 0xdf, 0x6e, 0x47, 0xf1, 0x1a, 0x71, 0x1d, 0x29, 0xc5, 0x89,
    0x6f, 0xb7, 0x62, 0x0e, 0xaa, 0x18, 0xbe, 0x1b, 0xfc, 0x56, 0x3e, 0x4b,
    0xc6, 0xd2, 0x79, 0x20, 0x9a, 0xdb, 0xc0, 0xfe, 0x78, 0xcd, 0x5a, 0xf4,
    0x1f, 0xdd, 0xa8, 0x33, 0x88, 0x07, 0xc7, 0x31, 0xb1, 0x12, 0x10, 0x59,
    0x27, 0x80, 0xec, 0x5f, 0x60, 0x51, 0x7f, 0xa9, 0x19, 0xb5, 0x4a, 0x0d,
    0x2d, 0xe5, 0x7a, 0x9f, 0x93, 0xc9, 0x9c, 0xef, 0xa0, 0xe0, 0x3b, 0x4d,
    0xae, 0x2a, 0xf5, 0xb0, 0xc8, 0xeb, 0xbb, 0x3c, 0x83, 0x53, 0x99, 0x61,
    0x17, 0x2b, 0x04, 0x7e, 0xba, 0x77, 0xd6, 0x26, 0xe1, 0x69, 0x14, 0x63,
    0x55, 0x21, 0x0c, 0x7d]

def sBox (b : UInt8) : UInt8 := kSBox.getD b.toNat 0

def invSBox (b : UInt8) : UInt8 := kInvSBox.getD b.toNat 0

/-! ## Blocks -/

def kNr : Nat := 14
def kBlockBytes : Nat := 16
def kKeyBytes : Nat := 32

abbrev Block := Vector UInt8 16
abbrev Column := Vector UInt8 4

/-- `AddRoundKey`, and the exclusive or of two blocks. -/
def addRoundKey (block roundKey : Block) : Block := Vector.ofFn fun i => block[i] ^^^ roundKey[i]

/-- `SubBytes`. -/
def subBytes (block : Block) : Block := block.map sBox

/-- `InvSubBytes`. -/
def invSubBytes (block : Block) : Block := block.map invSBox

/-- `GF_p8_mul3`, which doubles. -/
def gfMul3 (val : UInt8) : UInt8 :=
  let x := val * 2
  if val ≥ 0x80 then x ^^^ 0x1b else x

/-- `MixColumnsImpl`. -/
def mixColumn (column : Column) : Column :=
  let a1 := column
  let a2 := a1.map gfMul3
  let a3 : Column := Vector.ofFn fun i => a2[i] ^^^ a1[i]
  #v[a2[0] ^^^ a3[1] ^^^ a1[2] ^^^ a1[3], a1[0] ^^^ a2[1] ^^^ a3[2] ^^^ a1[3],
    a1[0] ^^^ a1[1] ^^^ a2[2] ^^^ a3[3], a3[0] ^^^ a1[1] ^^^ a1[2] ^^^ a2[3]]

def mul9 (a1 : UInt8) : UInt8 := gfMul3 (gfMul3 (gfMul3 a1)) ^^^ a1
def mul11 (a1 : UInt8) : UInt8 := gfMul3 (gfMul3 (gfMul3 a1) ^^^ a1) ^^^ a1
def mul13 (a1 : UInt8) : UInt8 := gfMul3 (gfMul3 (gfMul3 a1 ^^^ a1)) ^^^ a1
def mul14 (a1 : UInt8) : UInt8 := gfMul3 (gfMul3 (gfMul3 a1 ^^^ a1) ^^^ a1)

/-- `InvMixColumnsImpl`. -/
def invMixColumn (column : Column) : Column :=
  let a9 := column.map mul9
  let a11 := column.map mul11
  let a13 := column.map mul13
  let a14 := column.map mul14
  #v[a14[0] ^^^ a11[1] ^^^ a13[2] ^^^ a9[3], a9[0] ^^^ a14[1] ^^^ a11[2] ^^^ a13[3],
    a13[0] ^^^ a9[1] ^^^ a14[2] ^^^ a11[3], a11[0] ^^^ a13[1] ^^^ a9[2] ^^^ a14[3]]

/-- Four bytes of a block. -/
def column (block : Block) (j : Fin 4) : Column := Vector.ofFn fun i => block[4 * j.val + i.val]

/-- The columns of a block, each changed in place. -/
def onColumns (impl : Column → Column) (block : Block) : Block :=
  Vector.ofFn fun i => (impl (column block ⟨i.val / 4, by omega⟩))[i.val % 4]

/-- `MixColumns`. -/
def mixColumns : Block → Block := onColumns mixColumn

/-- `InvMixColumns`. -/
def invMixColumns : Block → Block := onColumns invMixColumn

/-- `std::swap` of two bytes. -/
def swap (block : Block) (i j : Fin 16) : Block := (block.set i block[j]).set j block[i]

/-- `ShiftRows`. -/
def shiftRows (block : Block) : Block :=
  let x := block[1]
  let block := (((block.set 1 block[5]).set 5 block[9]).set 9 block[13]).set 13 x
  let block := swap (swap block 2 10) 6 14
  let x := block[3]
  (((block.set 3 block[15]).set 15 block[11]).set 11 block[7]).set 7 x

/-- `InvShiftRows`. -/
def invShiftRows (block : Block) : Block :=
  let x := block[1]
  let block := (((block.set 1 block[13]).set 13 block[9]).set 9 block[5]).set 5 x
  let block := swap (swap block 2 10) 6 14
  let x := block[3]
  (((block.set 3 block[7]).set 7 block[11]).set 11 block[15]).set 15 x

/-! ## The key schedule -/

/-- The byte `k[i]` of the next 32 bytes of the schedule, behind the bytes `k` that are
there already. -/
def scheduleByte (prev : ByteString) (rcon : UInt8) (k : ByteString) (i : Nat) : UInt8 :=
  if i = 0 then byteAt prev 0 ^^^ sBox (byteAt prev 29) ^^^ rcon
  else if i = 1 then byteAt prev 1 ^^^ sBox (byteAt prev 30)
  else if i = 2 then byteAt prev 2 ^^^ sBox (byteAt prev 31)
  else if i = 3 then byteAt prev 3 ^^^ sBox (byteAt prev 28)
  else if 16 ≤ i ∧ i < 20 then byteAt prev i ^^^ sBox (byteAt k (i - 4))
  else byteAt prev i ^^^ byteAt k (i - 4)

/-- The next bytes of the schedule. -/
def scheduleBytes (prev : ByteString) (rcon : UInt8) (count : Nat) : ByteString :=
  (List.range count).foldl (fun k i => k ++ [scheduleByte prev rcon k i]) []

/-- The loop of `MakeKeySchedule` from a base on; the last base adds half of the bytes. -/
def scheduleFrom : Nat → UInt8 → ByteString → ByteString
  | 0, rcon, prev => scheduleBytes prev rcon 16
  | rest + 1, rcon, prev =>
      let k := scheduleBytes prev rcon kKeyBytes
      k ++ scheduleFrom rest (rcon <<< 1) k

/-- `MakeKeySchedule`. -/
def makeKeySchedule (key : Vector UInt8 32) : ByteString :=
  key.toList ++ scheduleFrom 6 1 key.toList

/-- The block that begins at a byte pointer. -/
def blockAt (ptr : ByteString) : Block := Vector.ofFn fun i => byteAt ptr i.val

def roundKey (w : ByteString) (round : Nat) : Block := blockAt (w.drop (kBlockBytes * round))

/-! ## Ciphering -/

/-- One round of `TransformECB`. -/
def transformRound (w : ByteString) (block : Block) (round : Nat) : Block :=
  addRoundKey (mixColumns (shiftRows (subBytes block))) (roundKey w round)

/-- `TransformECB`. -/
def transformECB (w : ByteString) (block : Block) : Block :=
  let block := addRoundKey block (roundKey w 0)
  let block := (List.range' 1 (kNr - 1)).foldl (transformRound w) block
  addRoundKey (shiftRows (subBytes block)) (roundKey w kNr)

/-- One round of `InverseTransformECB`. -/
def inverseTransformRound (w : ByteString) (block : Block) (round : Nat) : Block :=
  invSubBytes (invShiftRows (invMixColumns (addRoundKey block (roundKey w round))))

/-- `InverseTransformECB`. -/
def inverseTransformECB (w : ByteString) (block : Block) : Block :=
  let block := invSubBytes (invShiftRows (addRoundKey block (roundKey w kNr)))
  let block := (List.range' 1 (kNr - 1)).reverse.foldl (inverseTransformRound w) block
  addRoundKey block (roundKey w 0)

/-- The first blocks of a buffer. -/
def blocksOf : Nat → ByteString → List Block
  | 0, _ => []
  | blockCount + 1, buf => blockAt buf :: blocksOf blockCount (buf.drop kBlockBytes)

/-- Blocks put back into the buffer, in front of what was behind them. -/
def putBlocks (blocks : List Block) (buf : ByteString) : ByteString :=
  blocks.flatMap Vector.toList ++ buf.drop (kBlockBytes * blocks.length)

/-- `TransformCBC`, in place. -/
def transformCBC (key : Vector UInt8 32) (iv : Block) (buf : ByteString) (blockCount : Nat) :
    ByteString :=
  putBlocks (Lib.chain addRoundKey (transformECB (makeKeySchedule key)) iv (blocksOf blockCount buf))
    buf

/-- `InverseTransformCBC`, in place. -/
def inverseTransformCBC (key : Vector UInt8 32) (iv : Block) (buf : ByteString)
    (blockCount : Nat) : ByteString :=
  putBlocks
    (Lib.unchain addRoundKey (inverseTransformECB (makeKeySchedule key)) iv (blocksOf blockCount buf))
    buf

/-! ## Substitution -/

/-- What holds of 256 bytes holds of all. -/
@[elab_as_elim] theorem forall_byte {motive : UInt8 → Prop} (b : UInt8)
    (all : ∀ n < 256, motive (UInt8.ofNat n)) : motive b := by
  have this := all b.toNat b.toNat_lt
  rwa [UInt8.ofNat_toNat] at this

/-- Looking up the bytes of the one table in the other one gives their places. -/
theorem invSBox_kSBox : kSBox.map invSBox = (List.range 256).map UInt8.ofNat := by decide +kernel

theorem invSBox_sBox (b : UInt8) : invSBox (sBox b) = b := by
  have place : (kSBox.map invSBox)[b.toNat]? = some b := by
    rw [invSBox_kSBox, List.getElem?_map, List.getElem?_range b.toNat_lt, Option.map_some,
      UInt8.ofNat_toNat]
  rw [List.getElem?_map, Option.map_eq_some_iff] at place
  obtain ⟨value, found, back⟩ := place
  rw [sBox, List.getD_eq_getElem?_getD, found]
  exact back

/-- **The tables are inverse to each other.** -/
theorem sBoxes_inverse (b : UInt8) : invSBox (sBox b) = b ∧ sBox (invSBox b) = b := by
  have finite : Finite UInt8 := .of_injective UInt8.toFin fun _ _ => UInt8.toFin_inj.1
  have onto := Finite.injective_iff_surjective.1 (Function.LeftInverse.injective invSBox_sBox)
  obtain ⟨c, rfl⟩ := onto b
  exact ⟨invSBox_sBox _, congrArg sBox (invSBox_sBox c)⟩

theorem invSubBytes_subBytes (block : Block) : invSubBytes (subBytes block) = block := by
  refine Vector.ext fun i less => ?_
  rw [invSubBytes, subBytes, Vector.getElem_map, Vector.getElem_map, (sBoxes_inverse _).1]

theorem addRoundKey_cancel (block key : Block) : addRoundKey (addRoundKey block key) key = block := by
  refine Vector.ext fun i less => ?_
  simp [addRoundKey]

/-! ## Rows -/

/-- Row by row, the bytes come from five times their places. -/
theorem getElem_shiftRows (block : Block) {i : Nat} (less : i < 16) :
    (shiftRows block)[i] = block[5 * i % 16] := by
  simp only [shiftRows, swap, Vector.getElem_set]
  interval_cases i <;> simp

theorem getElem_invShiftRows (block : Block) {i : Nat} (less : i < 16) :
    (invShiftRows block)[i] = block[13 * i % 16] := by
  simp only [invShiftRows, swap, Vector.getElem_set]
  interval_cases i <;> simp

/-- **Shifting back undoes shifting.** -/
theorem invShiftRows_shiftRows (block : Block) : invShiftRows (shiftRows block) = block := by
  refine Vector.ext fun i less => ?_
  have back : 5 * (13 * i % 16) % 16 = i := by omega
  rw [getElem_invShiftRows _ less, getElem_shiftRows _ (Nat.mod_lt _ (by decide))]
  simp only [back]

/-! ## Columns -/

/-- Doubling, as a shift and a reduction. -/
theorem toBitVec_gfMul3 (val : UInt8) :
    (gfMul3 val).toBitVec = val.toBitVec <<< 1 ^^^ if val.toBitVec.msb then 0x1b#8 else 0#8 :=
  forall_byte val (by decide +kernel)

theorem gfMul3_xor (a b : UInt8) : gfMul3 (a ^^^ b) = gfMul3 a ^^^ gfMul3 b := by
  refine UInt8.toBitVec_inj.1 ?_
  rw [UInt8.toBitVec_xor, toBitVec_gfMul3, toBitVec_gfMul3, toBitVec_gfMul3, UInt8.toBitVec_xor,
    BitVec.shiftLeft_xor_distrib, BitVec.msb_xor]
  cases a.toBitVec.msb <;> cases b.toBitVec.msb
  · simp
  · simp [BitVec.xor_assoc]
  · simp only [Bool.xor_false, if_true, Bool.false_eq_true, if_false, BitVec.xor_zero]
    ac_rfl
  · simp [BitVec.xor_assoc, BitVec.xor_comm]

/-- The multiple `a3` of `MixColumnsImpl`. -/
def mul3 (a : UInt8) : UInt8 := gfMul3 a ^^^ a

theorem mul9_xor (a b : UInt8) : mul9 (a ^^^ b) = mul9 a ^^^ mul9 b := by
  simp only [mul9, gfMul3_xor]
  ac_rfl

theorem mul11_xor (a b : UInt8) : mul11 (a ^^^ b) = mul11 a ^^^ mul11 b := by
  simp only [mul11, gfMul3_xor]
  ac_rfl

theorem mul13_xor (a b : UInt8) : mul13 (a ^^^ b) = mul13 a ^^^ mul13 b := by
  simp only [mul13, gfMul3_xor]
  ac_rfl

theorem mul14_xor (a b : UInt8) : mul14 (a ^^^ b) = mul14 a ^^^ mul14 b := by
  simp only [mul14, gfMul3_xor]
  ac_rfl

/-- The product of the two matrices, at a byte of the diagonal and at the other bytes. -/
theorem matrices_inverse (a : UInt8) :
    mul14 (gfMul3 a) ^^^ mul11 a ^^^ mul13 a ^^^ mul9 (mul3 a) = a ∧
      mul14 (mul3 a) ^^^ mul11 (gfMul3 a) ^^^ mul13 a ^^^ mul9 a = 0 ∧
      mul14 a ^^^ mul11 (mul3 a) ^^^ mul13 (gfMul3 a) ^^^ mul9 a = 0 ∧
      mul14 a ^^^ mul11 a ^^^ mul13 (mul3 a) ^^^ mul9 (gfMul3 a) = 0 :=
  forall_byte a (by decide +kernel)

/-- One byte of a column that was mixed. -/
theorem unmix (p q r s : UInt8) :
    mul14 (gfMul3 p ^^^ mul3 q ^^^ r ^^^ s) ^^^ mul11 (p ^^^ gfMul3 q ^^^ mul3 r ^^^ s) ^^^
      mul13 (p ^^^ q ^^^ gfMul3 r ^^^ mul3 s) ^^^ mul9 (mul3 p ^^^ q ^^^ r ^^^ gfMul3 s) = p := by
  simp only [mul14_xor, mul11_xor, mul13_xor, mul9_xor]
  calc _ = (mul14 (gfMul3 p) ^^^ mul11 p ^^^ mul13 p ^^^ mul9 (mul3 p)) ^^^
        (mul14 (mul3 q) ^^^ mul11 (gfMul3 q) ^^^ mul13 q ^^^ mul9 q) ^^^
        (mul14 r ^^^ mul11 (mul3 r) ^^^ mul13 (gfMul3 r) ^^^ mul9 r) ^^^
        (mul14 s ^^^ mul11 s ^^^ mul13 (mul3 s) ^^^ mul9 (gfMul3 s)) := by ac_rfl
    _ = p := by
        rw [(matrices_inverse p).1, (matrices_inverse q).2.1, (matrices_inverse r).2.2.1,
          (matrices_inverse s).2.2.2]
        simp

theorem mixColumn_eq (col : Column) :
    mixColumn col =
      #v[gfMul3 col[0] ^^^ mul3 col[1] ^^^ col[2] ^^^ col[3],
        col[0] ^^^ gfMul3 col[1] ^^^ mul3 col[2] ^^^ col[3],
        col[0] ^^^ col[1] ^^^ gfMul3 col[2] ^^^ mul3 col[3],
        mul3 col[0] ^^^ col[1] ^^^ col[2] ^^^ gfMul3 col[3]] := by
  simp [mixColumn, mul3]

theorem invMixColumn_eq (m0 m1 m2 m3 : UInt8) :
    invMixColumn #v[m0, m1, m2, m3] =
      #v[mul14 m0 ^^^ mul11 m1 ^^^ mul13 m2 ^^^ mul9 m3,
        mul9 m0 ^^^ mul14 m1 ^^^ mul11 m2 ^^^ mul13 m3,
        mul13 m0 ^^^ mul9 m1 ^^^ mul14 m2 ^^^ mul11 m3,
        mul11 m0 ^^^ mul13 m1 ^^^ mul9 m2 ^^^ mul14 m3] := by
  simp [invMixColumn]

/-- Every byte is the first one of the column turned round to it. -/
theorem invMixColumn_mixColumn (col : Column) : invMixColumn (mixColumn col) = col := by
  have turned0 := unmix col[0] col[1] col[2] col[3]
  have turned1 := unmix col[1] col[2] col[3] col[0]
  have turned2 := unmix col[2] col[3] col[0] col[1]
  have turned3 := unmix col[3] col[0] col[1] col[2]
  rw [mixColumn_eq, invMixColumn_eq]
  refine Vector.ext fun i less => ?_
  interval_cases i
  · exact turned0
  · refine Eq.trans ?_ turned1
    show mul9 _ ^^^ mul14 _ ^^^ mul11 _ ^^^ mul13 _ = _
    ac_rfl
  · refine Eq.trans ?_ turned2
    show mul13 _ ^^^ mul9 _ ^^^ mul14 _ ^^^ mul11 _ = _
    ac_rfl
  · refine Eq.trans ?_ turned3
    show mul11 _ ^^^ mul13 _ ^^^ mul9 _ ^^^ mul14 _ = _
    ac_rfl

theorem column_onColumns (impl : Column → Column) (block : Block) (j : Fin 4) :
    column (onColumns impl block) j = impl (column block j) := by
  refine Vector.ext fun i less => ?_
  have quotient : (4 * j.val + i) / 4 = j.val := by omega
  have remainder : (4 * j.val + i) % 4 = i := by omega
  rw [column, Vector.getElem_ofFn, onColumns, Vector.getElem_ofFn]
  simp only [quotient, remainder]

theorem onColumns_onColumns {impl inverse : Column → Column}
    (undoes : ∀ col, inverse (impl col) = col) (block : Block) :
    onColumns inverse (onColumns impl block) = block := by
  refine Vector.ext fun i less => ?_
  rw [onColumns, Vector.getElem_ofFn, column_onColumns, undoes, column, Vector.getElem_ofFn]
  have split : 4 * (i / 4) + i % 4 = i := by omega
  simp only [split]

/-- **Mixing back undoes mixing.** -/
theorem invMixColumns_mixColumns (block : Block) : invMixColumns (mixColumns block) = block :=
  onColumns_onColumns invMixColumn_mixColumn block

/-! ## Blocks and buffers -/

theorem inverseTransformRound_transformRound (w : ByteString) (block : Block) (round : Nat) :
    inverseTransformRound w (transformRound w block round) round = block := by
  rw [inverseTransformRound, transformRound, addRoundKey_cancel, invMixColumns_mixColumns,
    invShiftRows_shiftRows, invSubBytes_subBytes]

/-- **Deciphering a block undoes ciphering it**, with any key schedule. -/
theorem inverseTransformECB_transformECB (w : ByteString) (block : Block) :
    inverseTransformECB w (transformECB w block) = block := by
  rw [inverseTransformECB, transformECB, addRoundKey_cancel, invShiftRows_shiftRows,
    invSubBytes_subBytes, Lib.foldl_reverse_cancel (inverseTransformRound_transformRound w),
    addRoundKey_cancel]

theorem length_blocksOf (blockCount : Nat) (buf : ByteString) :
    (blocksOf blockCount buf).length = blockCount := by
  induction blockCount generalizing buf with
  | zero => rfl
  | succ blockCount ih => rw [blocksOf, List.length_cons, ih]

theorem blockAt_append (block : Block) (rest : ByteString) : blockAt (block.toList ++ rest) = block := by
  refine Vector.ext fun i less => ?_
  have inBlock : i < block.toList.length := by rwa [Vector.length_toList]
  rw [blockAt, Vector.getElem_ofFn, byteAt, List.getD_eq_getElem?_getD,
    List.getElem?_append_left inBlock, List.getElem?_eq_getElem inBlock]
  rfl

theorem getElem_toList_blockAt {buf : ByteString} {i : Nat}
    (inBlock : i < (blockAt buf).toList.length) : (blockAt buf).toList[i] = byteAt buf i := by
  simp [blockAt]

theorem toList_blockAt {buf : ByteString} (enough : kBlockBytes ≤ buf.length) :
    (blockAt buf).toList = buf.take kBlockBytes := by
  refine List.ext_getElem ?_ fun i inBlock inBuf => ?_
  · rw [Vector.length_toList, List.length_take, Nat.min_eq_left enough]
    rfl
  · rw [List.length_take] at inBuf
    rw [getElem_toList_blockAt inBlock, List.getElem_take, byteAt, List.getD_eq_getElem _ _ (by omega)]

theorem length_flatMap_toList (blocks : List Block) :
    (blocks.flatMap Vector.toList).length = kBlockBytes * blocks.length := by
  induction blocks with
  | nil => rfl
  | cons block blocks ih =>
      rw [List.flatMap_cons, List.length_append, ih, Vector.length_toList, List.length_cons,
        kBlockBytes]
      omega

/-- Blocks that were put into a buffer are found there. -/
theorem blocksOf_putBlocks (blocks : List Block) (buf : ByteString) :
    blocksOf blocks.length (putBlocks blocks buf) = blocks := by
  rw [putBlocks]
  generalize buf.drop (kBlockBytes * blocks.length) = rest
  induction blocks with
  | nil => rfl
  | cons block blocks ih =>
      have length : block.toList.length = kBlockBytes := Vector.length_toList
      rw [List.flatMap_cons, List.append_assoc, List.length_cons, blocksOf, blockAt_append, ← length,
        List.drop_left, ih]

/-- Blocks that were found in a buffer, put back. -/
theorem putBlocks_blocksOf {blockCount : Nat} {buf : ByteString}
    (enough : kBlockBytes * blockCount ≤ buf.length) :
    putBlocks (blocksOf blockCount buf) buf = buf := by
  have front : (blocksOf blockCount buf).flatMap Vector.toList = buf.take (kBlockBytes * blockCount) := by
    induction blockCount generalizing buf with
    | zero => rfl
    | succ blockCount ih =>
        have first : kBlockBytes ≤ buf.length := by
          rw [Nat.mul_succ] at enough
          omega
        have rest : kBlockBytes * blockCount ≤ (buf.drop kBlockBytes).length := by
          rw [Nat.mul_succ] at enough
          rw [List.length_drop]
          omega
        rw [blocksOf, List.flatMap_cons, ih rest, toList_blockAt first, Nat.mul_succ, Nat.add_comm,
          List.take_add]
  rw [putBlocks, front, length_blocksOf, List.take_append_drop]

/-- What is put into a buffer replaces what was put there before. -/
theorem putBlocks_putBlocks {blocks before : List Block} (length : blocks.length = before.length)
    (buf : ByteString) : putBlocks blocks (putBlocks before buf) = putBlocks blocks buf := by
  rw [putBlocks, putBlocks, putBlocks, length, ← length_flatMap_toList, List.drop_left]

/-- **The inverse transform of a buffer undoes the transform.** -/
theorem inverseTransformCBC_transformCBC (key : Vector UInt8 32) (iv : Block) {buf : ByteString}
    {blockCount : Nat} (enough : kBlockBytes * blockCount ≤ buf.length) :
    inverseTransformCBC key iv (transformCBC key iv buf blockCount) blockCount = buf := by
  have length : (Lib.chain addRoundKey (transformECB (makeKeySchedule key)) iv
      (blocksOf blockCount buf)).length = blockCount :=
    (Lib.length_chain iv _).trans (length_blocksOf blockCount buf)
  have found := blocksOf_putBlocks (Lib.chain addRoundKey (transformECB (makeKeySchedule key)) iv
    (blocksOf blockCount buf)) buf
  rw [length] at found
  rw [inverseTransformCBC, transformCBC, found,
    Lib.unchain_chain addRoundKey_cancel (inverseTransformECB_transformECB _),
    putBlocks_putBlocks ((length_blocksOf blockCount buf).trans length.symm),
    putBlocks_blocksOf enough]

theorem length_transformCBC (key : Vector UInt8 32) (iv : Block) {buf : ByteString} {blockCount : Nat}
    (enough : kBlockBytes * blockCount ≤ buf.length) :
    (transformCBC key iv buf blockCount).length = buf.length := by
  rw [transformCBC, putBlocks, List.length_append, length_flatMap_toList, List.length_drop,
    Lib.length_chain, length_blocksOf]
  omega

end Mozkey.Aes256
