import Mozkey.Lib.SparseRow
import Mozkey.Storage.SimpleSuccinctBitVectorIndex

/-!
# The connection data and its generator

The generator reads the costs of a square matrix, finds the most frequent cost of every
row, and writes the matrix as an image: a header, the frequent costs, and row by row the
costs that differ, under two levels of bits.

Numbers of the generator are integers without a bound.  An assertion that fails, or a
number that does not fit in its field, ends the generator without an image.
-/

namespace Mozkey.DataManager

open Mozkey.Lib Mozkey.Storage

/-! ## The matrix -/

def INVALID_COST : Int := 30000
def INVALID_1BYTE_COST : Int := 255
def RESOLUTION_FOR_1BYTE : Int := 64
def FILE_MAGIC : ByteString := [0xAB, 0xCD]

abbrev Matrix := List (List Int)

/-! ## Frequent costs -/

/-- `m[cost] = m.get(cost, 0) + 1`, in a dictionary in the order of insertion. -/
def countCost : List (Int × Nat) → Int → List (Int × Nat)
  | [], cost => [(cost, 1)]
  | (key, count) :: m, cost =>
      if key = cost then (key, count + 1) :: m else (key, count) :: countCost m cost

/-- The first cost of those that are counted most often. -/
def modeValue (row : List Int) : Option Int :=
  let m := (row.filter (· ≠ INVALID_COST)).foldl countCost []
  (m.argmax Prod.snd).map Prod.fst

/-- `CreateModeValueList`. -/
def createModeValueList (matrix : Matrix) : Option (List Int) := matrix.mapM modeValue

/-- `CompressMatrixByModeValue`. -/
def compressMatrixByModeValue (matrix : Matrix) (modeValueList : List Int) :
    List (List (Option Int)) :=
  List.zipWith (fun row modeValue => row.map fun cost => if cost = modeValue then none else some cost)
    matrix modeValueList

/-! ## Bytes -/

/-- `struct.pack('B', value)`. -/
def packB (value : Int) : Option ByteString :=
  if 0 ≤ value ∧ value ≤ 255 then some [UInt8.ofNat value.toNat] else none

/-- `struct.pack('<H', value)`. -/
def packH (value : Int) : Option ByteString :=
  if 0 ≤ value ∧ value ≤ 65535 then some (storeUnaligned16 (UInt16.ofNat value.toNat)) else none

/-- Bytes one after another. -/
def concatM {α : Type} (write : α → Option ByteString) (xs : List α) : Option ByteString :=
  (xs.mapM write).map List.flatten

/-- A byte, in the order from the lowest bit to the highest. -/
def byteOf (bits : List Bool) : Nat :=
  bits.zipIdx.foldl (fun byte bit => if bit.1 then byte ||| 1 <<< bit.2 else byte) 0

/-- `OutputBitList`. -/
def outputBitList (bitList : List Bool) : Option ByteString :=
  if bitList.length % 8 = 0 then concatM (fun bits => packB (byteOf bits)) (splitChunk 8 bitList)
  else none

/-- `while len(xs) % n: xs.append(x)`. -/
def padTo {α : Type} (n : Nat) (x : α) (xs : List α) : List α :=
  xs ++ List.replicate ((n - xs.length % n) % n) x

/-! ## The image -/

/-- The lists that a row is collected in. -/
structure RowData where
  chunkBits : List Bool
  compactBits : List Bool
  values : List Int
  deriving DecidableEq, Repr

/-- A cost as it is stored. -/
def storedCost (use1byteCost : Bool) (cost : Int) : Option Int :=
  if use1byteCost then
    if cost = INVALID_COST then some INVALID_1BYTE_COST
    else
      let cost := cost.fdiv RESOLUTION_FOR_1BYTE
      if cost ≠ INVALID_1BYTE_COST then some cost else none
  else some cost

def addCost (use1byteCost : Bool) (data : RowData) : Option Int → Option RowData
  | none => some { data with compactBits := data.compactBits ++ [false] }
  | some cost =>
      (storedCost use1byteCost cost).map fun value =>
        { data with compactBits := data.compactBits ++ [true], values := data.values ++ [value] }

def addChunk (use1byteCost : Bool) (data : RowData) (chunk : List (Option Int)) : Option RowData :=
  if chunk.all Option.isNone then some { data with chunkBits := data.chunkBits ++ [false] }
  else chunk.foldlM (addCost use1byteCost) { data with chunkBits := data.chunkBits ++ [true] }

/-- The bytes of a row. -/
def outputRow (use1byteCost : Bool) (row : List (Option Int)) : Option ByteString := do
  let data ← (splitChunk 8 row).foldlM (addChunk use1byteCost) ⟨[], [], []⟩
  let chunkBits := padTo 32 false data.chunkBits
  let compactBits := padTo 32 false data.compactBits
  let values := if use1byteCost then padTo 4 0 data.values else padTo 2 0 data.values
  let valuesSize := if use1byteCost then values.length else values.length * 2
  let compactSize ← packH (compactBits.length / 8 : Nat)
  let valuesSize ← packH (valuesSize : Nat)
  let chunkBits ← outputBitList chunkBits
  let compactBits ← outputBitList compactBits
  let values ← concatM (if use1byteCost then packB else packH) values
  return compactSize ++ (valuesSize ++ (chunkBits ++ (compactBits ++ values)))

/-- A frequent cost, checked and written. -/
def outputModeValue (value : Int) : Option ByteString :=
  if 0 ≤ value ∧ value ≤ 65536 then packH value else none

/-- `BuildBinaryData`. -/
def buildBinaryData (matrix : List (List (Option Int))) (modeValueList : List Int)
    (use1byteCost : Bool) : Option ByteString := do
  let resolution := if use1byteCost then RESOLUTION_FOR_1BYTE else 1
  let resolution ← packH resolution
  let size ← packH (matrix.length : Nat)
  let modeValues ← concatM outputModeValue modeValueList
  let alignment := if modeValueList.length % 2 ≠ 0 then [0, 0] else []
  let rows ← concatM (outputRow use1byteCost) matrix
  return FILE_MAGIC ++ (resolution ++ (size ++ (size ++ (modeValues ++ (alignment ++ rows)))))

/-- The two steps of `main` between the matrix and its image. -/
def connectionImage (matrix : Matrix) (use1byteCost : Bool) : Option ByteString := do
  let modeValueList ← createModeValueList matrix
  buildBinaryData (compressMatrixByModeValue matrix modeValueList) modeValueList use1byteCost

/-! ## Matrices that are produced -/

/-- A square matrix, whose first cost is zero. -/
structure Produced (matrix : Matrix) : Prop where
  square : ∀ row ∈ matrix, row.length = matrix.length
  zero : (matrix.getD 0 []).getD 0 0 = 0

/-! ## What is written -/

theorem packH_eq_some {value : Int} {bytes : ByteString} (packed : packH value = some bytes) :
    0 ≤ value ∧ value ≤ 65535 ∧ bytes = storeUnaligned16 (UInt16.ofNat value.toNat) := by
  rw [packH] at packed
  split at packed
  · next fits => exact ⟨fits.1, fits.2, (Option.some.inj packed).symm⟩
  · cases packed

section Concat

variable {α : Type} {write : α → Option ByteString}

theorem concatM_cons {x : α} {xs : List α} {bytes : ByteString}
    (written : concatM write (x :: xs) = some bytes) :
    ∃ first rest, write x = some first ∧ concatM write xs = some rest ∧ bytes = first ++ rest := by
  rw [concatM, List.mapM_cons, Option.map_eq_some_iff] at written
  obtain ⟨parts, written, rfl⟩ := written
  obtain ⟨first, head, written⟩ := Option.bind_eq_some_iff.1 written
  obtain ⟨rest, tail, written⟩ := Option.bind_eq_some_iff.1 written
  obtain rfl := Option.some.inj written
  exact ⟨first, rest.flatten, head, by rw [concatM, tail]; rfl, rfl⟩

end Concat

/-- Numbers that were written fit in their fields. -/
theorem concatM_packH {values : List Int} {bytes : ByteString}
    (written : concatM packH values = some bytes) :
    (∀ value ∈ values, 0 ≤ value ∧ value ≤ 65535) ∧
      bytes = (values.map fun value => UInt16.ofNat value.toNat).flatMap storeUnaligned16 := by
  induction values generalizing bytes with
  | nil => exact ⟨by simp, (Option.some.inj written).symm⟩
  | cons value values ih =>
      obtain ⟨first, rest, head, tail, rfl⟩ := concatM_cons written
      obtain ⟨nonneg, fits, rfl⟩ := packH_eq_some head
      obtain ⟨all, rfl⟩ := ih tail
      exact ⟨List.forall_mem_cons.2 ⟨⟨nonneg, fits⟩, all⟩, rfl⟩

/-- A mode value is written as a number of 16 bits. -/
theorem outputModeValue_eq_some {value : Int} {bytes : ByteString}
    (written : outputModeValue value = some bytes) : packH value = some bytes := by
  rw [outputModeValue] at written
  split at written
  · exact written
  · cases written

theorem concatM_outputModeValue {values : List Int} {bytes : ByteString}
    (written : concatM outputModeValue values = some bytes) : concatM packH values = some bytes := by
  induction values generalizing bytes with
  | nil => exact written
  | cons value values ih =>
      obtain ⟨first, rest, head, tail, rfl⟩ := concatM_cons written
      rw [concatM, List.mapM_cons, outputModeValue_eq_some head]
      obtain ⟨parts, restParts, flat⟩ := Option.map_eq_some_iff.1 (ih tail)
      rw [restParts, ← flat]
      rfl

theorem length_createModeValueList {matrix : Matrix} {modeValueList : List Int}
    (created : createModeValueList matrix = some modeValueList) :
    modeValueList.length = matrix.length := by
  induction matrix generalizing modeValueList with
  | nil =>
      obtain rfl := Option.some.inj created
      rfl
  | cons row matrix ih =>
      rw [createModeValueList, List.mapM_cons] at created
      obtain ⟨mode, _, created⟩ := Option.bind_eq_some_iff.1 created
      obtain ⟨modes, rest, created⟩ := Option.bind_eq_some_iff.1 created
      obtain rfl := Option.some.inj created
      rw [List.length_cons, List.length_cons, ih rest]

theorem compressMatrixByModeValue_square {matrix : Matrix} {modeValueList : List Int}
    (modes : modeValueList.length = matrix.length) (square : ∀ row ∈ matrix, row.length = matrix.length) :
    (compressMatrixByModeValue matrix modeValueList).length = matrix.length ∧
      ∀ row ∈ compressMatrixByModeValue matrix modeValueList, row.length = matrix.length := by
  have length : (compressMatrixByModeValue matrix modeValueList).length = matrix.length := by
    rw [compressMatrixByModeValue, List.length_zipWith, modes, Nat.min_self]
  refine ⟨length, fun row mem => ?_⟩
  obtain ⟨i, inside, rfl⟩ := List.getElem_of_mem mem
  rw [length] at inside
  have entry : (compressMatrixByModeValue matrix modeValueList)[i]
      = matrix[i].map fun cost => if cost = modeValueList[i] then none else some cost :=
    List.getElem_zipWith
  rw [entry, List.length_map]
  exact square _ (List.getElem_mem inside)

/-! ### Bits -/

/-- A byte has the bits it was made of. -/
theorem byteBits_byteOf {bits : List Bool} (eight : bits.length = 8) :
    byteOf bits ≤ 255 ∧ byteBits (UInt8.ofNat (byteOf bits)) = bits := by
  match bits, eight with
  | [b0, b1, b2, b3, b4, b5, b6, b7], _ =>
      revert b0 b1 b2 b3 b4 b5 b6 b7
      decide +kernel

theorem packB_byteOf {bits : List Bool} (eight : bits.length = 8) :
    packB (byteOf bits) = some [UInt8.ofNat (byteOf bits)] := by
  have fits := (byteBits_byteOf eight).1
  rw [packB, if_pos ⟨by omega, by omega⟩, Int.toNat_natCast]

/-- The bytes of a list of bits have these bits. -/
theorem outputBitList_bits (bits : List Bool) (bytes : 8 ∣ bits.length) :
    ∃ written, outputBitList bits = some written ∧ bitsOf written = bits ∧
      8 * written.length = bits.length := by
  rw [outputBitList, if_pos (Nat.mod_eq_zero_of_dvd bytes)]
  induction bits using chunk_induction (n := 8) (by omega) with
  | short bits short =>
      obtain rfl : bits = [] := List.length_eq_zero_iff.1 (Nat.eq_zero_of_dvd_of_lt bytes short)
      exact ⟨[], rfl, rfl, rfl⟩
  | chunks chunk rest length ih =>
      rw [List.length_append, length] at bytes
      obtain ⟨written, encoded, bits, size⟩ := ih ((Nat.dvd_add_right (by omega)).1 bytes)
      rw [splitChunk_append (by omega) length]
      refine ⟨UInt8.ofNat (byteOf chunk) :: written, ?_, ?_, ?_⟩
      · obtain ⟨parts, rest, rfl⟩ := Option.map_eq_some_iff.1 encoded
        rw [concatM, List.mapM_cons, packB_byteOf length, rest]
        rfl
      · rw [bitsOf, List.flatMap_cons, (byteBits_byteOf length).2]
        rw [bitsOf] at bits
        rw [bits]
      · rw [List.length_cons, List.length_append, length]
        omega

/-! ### Padding -/

theorem padTo_eq {α : Type} (n : Nat) (x : α) (xs : List α) :
    ∃ more, padTo n x xs = xs ++ more := ⟨_, rfl⟩

theorem dvd_length_padTo {α : Type} {n : Nat} (positive : 0 < n) (x : α) (xs : List α) :
    n ∣ (padTo n x xs).length := by
  rw [padTo, List.length_append, List.length_replicate]
  refine Nat.dvd_of_mod_eq_zero ?_
  rw [Nat.add_mod_mod, Nat.add_comm]
  have less := Nat.mod_lt xs.length positive
  rw [← Nat.add_mod_mod, Nat.sub_add_cancel less.le, Nat.mod_self]

/-- Padding goes to the next multiple. -/
theorem length_padTo {α : Type} {n : Nat} (positive : 0 < n) (x : α) (xs : List α) :
    (padTo n x xs).length = (xs.length + n - 1) / n * n := by
  obtain ⟨k, multiple⟩ := dvd_length_padTo positive x xs
  have atLeast : xs.length ≤ (padTo n x xs).length := by
    rw [padTo, List.length_append]
    exact Nat.le_add_right _ _
  have less : (padTo n x xs).length < xs.length + n := by
    rw [padTo, List.length_append, List.length_replicate]
    have := Nat.mod_lt (n - xs.length % n) positive
    omega
  have quotient : (xs.length + n - 1) / n = k := by
    rw [multiple] at atLeast less
    refine Nat.div_eq_of_lt_le ?_ ?_
    · rw [Nat.mul_comm]
      omega
    · rw [Nat.succ_mul, Nat.mul_comm]
      omega
  rw [quotient, multiple, Nat.mul_comm]

/-! ### Rows -/

theorem foldlM_addCost (data : RowData) (chunk : List (Option Int)) :
    chunk.foldlM (addCost false) data
      = some { data with
          compactBits := data.compactBits ++ chunk.map Option.isSome
          values := data.values ++ chunk.filterMap id } := by
  induction chunk generalizing data with
  | nil => simp
  | cons cost chunk ih =>
      cases cost with
      | none =>
          rw [List.foldlM_cons]
          exact (ih _).trans (by simp)
      | some cost =>
          rw [List.foldlM_cons]
          exact (ih _).trans (by simp)

theorem addChunk_false (data : RowData) (chunk : List (Option Int)) :
    addChunk false data chunk
      = some { data with
          chunkBits := data.chunkBits ++ [kept chunk]
          compactBits := data.compactBits ++ if kept chunk then chunk.map Option.isSome else []
          values := data.values ++ if kept chunk then chunk.filterMap id else [] } := by
  have same : chunk.all Option.isNone = !kept chunk := by
    rw [kept, List.any_eq_not_all_not, Bool.not_not]
    exact congrArg chunk.all (funext fun cost => by cases cost <;> rfl)
  rw [addChunk, same]
  cases kept chunk with
  | false => simp
  | true => simp [foldlM_addCost]

/-- The lists of a row are those of a sparse row. -/
theorem foldlM_addChunk (data : RowData) (chunks : List (List (Option Int))) :
    chunks.foldlM (addChunk false) data
      = some ⟨data.chunkBits ++ chunkBits chunks, data.compactBits ++ compactBits chunks,
          data.values ++ elements chunks⟩ := by
  induction chunks generalizing data with
  | nil => simp [chunkBits, compactBits, elements]
  | cons chunk chunks ih =>
      rw [List.foldlM_cons, addChunk_false]
      refine (ih _).trans ?_
      rw [chunkBits_cons, compactBits_cons, elements_cons]
      simp

/-- What the bytes of a row are made of. -/
structure RowLayout (row : List (Option Int)) (bytes : ByteString) where
  chunkBytes : ByteString
  compactBytes : ByteString
  values : List Int
  valuesEq : values = padTo 2 0 (elements (splitChunk 8 row))
  chunkBitsEq : bitsOf chunkBytes = padTo 32 false (chunkBits (splitChunk 8 row))
  compactBitsEq : bitsOf compactBytes = padTo 32 false (compactBits (splitChunk 8 row))
  compactFits : compactBytes.length ≤ 65535
  valuesFit : values.length * 2 ≤ 65535
  costsFit : ∀ value ∈ values, 0 ≤ value ∧ value ≤ 65535
  bytesEq : bytes =
    storeUnaligned16 (UInt16.ofNat compactBytes.length) ++
      (storeUnaligned16 (UInt16.ofNat (values.length * 2)) ++
        (chunkBytes ++ (compactBytes ++
          (values.map fun value => UInt16.ofNat value.toNat).flatMap storeUnaligned16)))

theorem outputRow_layout {row : List (Option Int)} {bytes : ByteString}
    (written : outputRow false row = some bytes) : Nonempty (RowLayout row bytes) := by
  rw [outputRow, foldlM_addChunk] at written
  obtain ⟨chunkBytes, chunkWritten, chunkEq, _⟩ :=
    outputBitList_bits (padTo 32 false (chunkBits (splitChunk 8 row)))
      (Nat.dvd_trans (by omega) (dvd_length_padTo (by omega) _ _))
  obtain ⟨compactBytes, compactWritten, compactEq, compactSize⟩ :=
    outputBitList_bits (padTo 32 false (compactBits (splitChunk 8 row)))
      (Nat.dvd_trans (by omega) (dvd_length_padTo (by omega) _ _))
  obtain ⟨data, collected, written⟩ := Option.bind_eq_some_iff.1 written
  obtain rfl := Option.some.inj collected
  simp only [List.nil_append, Bool.false_eq_true, if_false] at written
  obtain ⟨compactPacked, packed, written⟩ := Option.bind_eq_some_iff.1 written
  obtain ⟨valuesPacked, packedValues, written⟩ := Option.bind_eq_some_iff.1 written
  rw [chunkWritten, compactWritten, Option.bind_eq_bind, Option.bind_some,
    Option.bind_some] at written
  obtain ⟨valueBytes, valuesWritten, written⟩ := Option.bind_eq_some_iff.1 written
  obtain ⟨_, compactFits, rfl⟩ := packH_eq_some packed
  obtain ⟨_, valuesFit, rfl⟩ := packH_eq_some packedValues
  obtain ⟨costsFit, rfl⟩ := concatM_packH valuesWritten
  obtain rfl := Option.some.inj written
  rw [← compactSize, Nat.mul_div_cancel_left _ (by omega)] at compactFits ⊢
  exact ⟨⟨chunkBytes, compactBytes, _, rfl, chunkEq, compactEq, by omega, by omega, costsFit, rfl⟩⟩

/-- The bytes in front of the rows: the header, the mode values, and what aligns them. -/
def imageFront (size : Nat) (modeValueList : List Int) : ByteString :=
  storeUnaligned16 0xCDAB ++ (storeUnaligned16 1 ++ (storeUnaligned16 (UInt16.ofNat size) ++
    (storeUnaligned16 (UInt16.ofNat size) ++
      ((modeValueList.map fun value => UInt16.ofNat value.toNat).flatMap storeUnaligned16 ++
        if modeValueList.length % 2 ≠ 0 then [0, 0] else []))))

theorem length_imageFront (size : Nat) (modeValueList : List Int) :
    (imageFront size modeValueList).length
      = 8 + (modeValueList.length + modeValueList.length % 2) * 2 := by
  rw [imageFront]
  simp only [List.length_append, length_storeUnaligned16, length_flatMap_storeUnaligned16,
    List.length_map]
  split
  · show 2 + (2 + (2 + (2 + (_ + 2)))) = _
    omega
  · show 2 + (2 + (2 + (2 + (_ + 0)))) = _
    omega

/-- What an image is made of. -/
theorem buildBinaryData_layout {matrix : List (List (Option Int))} {modeValueList : List Int}
    {image : ByteString} (built : buildBinaryData matrix modeValueList false = some image) :
    matrix.length ≤ 65535 ∧ (∀ value ∈ modeValueList, 0 ≤ value ∧ value ≤ 65535) ∧
      ∃ rows, concatM (outputRow false) matrix = some rows ∧
        image = imageFront matrix.length modeValueList ++ rows := by
  rw [buildBinaryData] at built
  have one : packH 1 = some (storeUnaligned16 1) := rfl
  have magic : FILE_MAGIC = storeUnaligned16 0xCDAB := by decide
  simp only [Bool.false_eq_true, if_false, one, magic] at built
  obtain ⟨resolution, isOne, built⟩ := Option.bind_eq_some_iff.1 built
  obtain rfl := Option.some.inj isOne
  obtain ⟨size, packed, built⟩ := Option.bind_eq_some_iff.1 built
  obtain ⟨modeBytes, writtenModes, built⟩ := Option.bind_eq_some_iff.1 built
  obtain ⟨rows, writtenRows, built⟩ := Option.bind_eq_some_iff.1 built
  obtain ⟨_, fits, rfl⟩ := packH_eq_some packed
  obtain ⟨modesFit, rfl⟩ := concatM_packH (concatM_outputModeValue writtenModes)
  obtain rfl := Option.some.inj built
  refine ⟨by omega, modesFit, rows, writtenRows, ?_⟩
  rw [imageFront, Int.toNat_natCast]
  simp only [List.append_assoc]

end Mozkey.DataManager
