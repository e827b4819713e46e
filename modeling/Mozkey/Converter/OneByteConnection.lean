import Mozkey.Converter.Connector
import Mozkey.Lib.List

/-!
# Connection data of one byte

With costs of one byte the generator rounds every cost down to a multiple of 64, and stores 255
for an invalid cost.  The connector finds 255 and takes the invalid cost for it, but then
multiplies this cost by 64 as well.

The main result is `looksUp_iff_valid`: what is looked up is the invalid cost for the invalid
cells, the frequent cost for its cells and the rounded cost for all others exactly when no cell is
invalid.
-/

namespace Mozkey.Converter

open Mozkey.Lib Mozkey.Storage Mozkey.DataManager

/-! ## Stored bytes -/

/-- The byte that is stored of a cost. -/
def storedByte (cost : Int) : Int :=
  if cost = INVALID_COST then INVALID_1BYTE_COST else cost.fdiv RESOLUTION_FOR_1BYTE

/-- Only the invalid cost is stored as its byte. -/
theorem storedCost_eq_some {cost value : Int} (stored : storedCost true cost = some value) :
    value = storedByte cost ∧ (storedByte cost = INVALID_1BYTE_COST → cost = INVALID_COST) := by
  rw [storedCost, if_pos rfl] at stored
  rw [storedByte]
  split at stored
  · rename_i invalid
    cases stored
    rw [if_pos invalid]
    exact ⟨rfl, fun _ => invalid⟩
  · rename_i valid
    dsimp only at stored
    split at stored
    · rename_i different
      cases stored
      rw [if_neg valid]
      exact ⟨rfl, fun same => absurd same different⟩
    · cases stored

/-- A row of costs as a row of bytes. -/
def storedRow (row : List (Option Int)) : List (Option Int) := row.map (Option.map storedByte)

theorem addCost_stored {data added : RowData} {cost : Option Int}
    (collected : addCost true data cost = some added) :
    addCost false data (cost.map storedByte) = some added ∧
      ∀ c ∈ cost, storedByte c = INVALID_1BYTE_COST → c = INVALID_COST := by
  cases cost with
  | none => exact ⟨collected, fun _ absent => by cases absent⟩
  | some cost =>
      rw [addCost] at collected
      obtain ⟨value, stored, rfl⟩ := Option.map_eq_some_iff.1 collected
      obtain ⟨rfl, invalid⟩ := storedCost_eq_some stored
      refine ⟨rfl, fun c same => ?_⟩
      cases same
      exact invalid

theorem foldlM_addCost_stored {data added : RowData} {chunk : List (Option Int)}
    (collected : chunk.foldlM (addCost true) data = some added) :
    (storedRow chunk).foldlM (addCost false) data = some added ∧
      ∀ cost, some cost ∈ chunk → storedByte cost = INVALID_1BYTE_COST → cost = INVALID_COST := by
  induction chunk generalizing data with
  | nil => exact ⟨collected, fun _ absent => by cases absent⟩
  | cons cost chunk ih =>
      rw [List.foldlM_cons] at collected
      obtain ⟨next, first, rest⟩ := Option.bind_eq_some_iff.1 collected
      obtain ⟨same, invalid⟩ := addCost_stored first
      obtain ⟨sameRest, invalidRest⟩ := ih rest
      constructor
      · rw [storedRow, List.map_cons, List.foldlM_cons, same]
        exact sameRest
      · intro c member
        rcases List.mem_cons.1 member with here | there
        · exact invalid c here.symm
        · exact invalidRest c there

theorem all_isNone_storedRow (chunk : List (Option Int)) :
    (storedRow chunk).all Option.isNone = chunk.all Option.isNone := by
  rw [storedRow, List.all_map]
  exact congrArg chunk.all (funext fun cost => by cases cost <;> rfl)

theorem addChunk_stored {data added : RowData} {chunk : List (Option Int)}
    (collected : addChunk true data chunk = some added) :
    addChunk false data (storedRow chunk) = some added ∧
      ∀ cost, some cost ∈ chunk → storedByte cost = INVALID_1BYTE_COST → cost = INVALID_COST := by
  rw [addChunk] at collected ⊢
  rw [all_isNone_storedRow]
  split at collected
  · rename_i absent
    rw [if_pos absent]
    refine ⟨collected, fun cost member => ?_⟩
    have none := List.all_eq_true.1 absent (some cost) member
    cases none
  · rename_i present
    rw [if_neg present]
    exact foldlM_addCost_stored collected

theorem foldlM_addChunk_stored {data added : RowData} {chunks : List (List (Option Int))}
    (collected : chunks.foldlM (addChunk true) data = some added) :
    (chunks.map storedRow).foldlM (addChunk false) data = some added ∧
      ∀ chunk ∈ chunks, ∀ cost, some cost ∈ chunk → storedByte cost = INVALID_1BYTE_COST →
        cost = INVALID_COST := by
  induction chunks generalizing data with
  | nil => exact ⟨collected, fun _ absent => by cases absent⟩
  | cons chunk chunks ih =>
      rw [List.foldlM_cons] at collected
      obtain ⟨next, first, rest⟩ := Option.bind_eq_some_iff.1 collected
      obtain ⟨same, invalid⟩ := addChunk_stored first
      obtain ⟨sameRest, invalidRest⟩ := ih rest
      constructor
      · rw [List.map_cons, List.foldlM_cons, same]
        exact sameRest
      · exact List.forall_mem_cons.2 ⟨invalid, invalidRest⟩

theorem splitChunk_storedRow (n : Nat) (row : List (Option Int)) :
    (splitChunk n row).map storedRow = splitChunk n (storedRow row) := by
  rw [splitChunk, splitChunk, List.map_map, storedRow, List.length_map]
  refine List.map_congr_left fun k _ => ?_
  rw [Function.comp_apply, storedRow, List.map_take, List.map_drop]

/-- Every element stands in a chunk. -/
theorem mem_splitChunk {α : Type} {n : Nat} (positive : 0 < n) {row : List α} {x : α}
    (member : x ∈ row) : ∃ chunk ∈ splitChunk n row, x ∈ chunk := by
  induction row using chunk_induction positive with
  | short row short =>
      rw [splitChunk_short (List.ne_nil_of_mem member) short.le]
      exact ⟨row, List.mem_singleton_self _, member⟩
  | chunks chunk rest length ih =>
      rw [splitChunk_append positive length]
      rcases List.mem_append.1 member with first | later
      · exact ⟨chunk, List.mem_cons_self .., first⟩
      · obtain ⟨other, isChunk, inChunk⟩ := ih later
        exact ⟨other, List.mem_cons_of_mem _ isChunk, inChunk⟩

/-- What the bytes of a row are made of. -/
structure ByteRowLayout (row : List (Option Int)) (bytes : ByteString) where
  chunkBytes : ByteString
  compactBytes : ByteString
  values : List Int
  valuesEq : values = padTo 4 0 (elements (splitChunk 8 (storedRow row)))
  chunkBitsEq : bitsOf chunkBytes = padTo 32 false (chunkBits (splitChunk 8 (storedRow row)))
  compactBitsEq : bitsOf compactBytes = padTo 32 false (compactBits (splitChunk 8 (storedRow row)))
  compactFits : compactBytes.length ≤ 65535
  valuesFit : values.length ≤ 65535
  costsFit : ∀ value ∈ values, 0 ≤ value ∧ value ≤ 255
  invalid : ∀ cost, some cost ∈ row → storedByte cost = INVALID_1BYTE_COST → cost = INVALID_COST
  bytesEq : bytes =
    storeUnaligned16 (UInt16.ofNat compactBytes.length) ++
      (storeUnaligned16 (UInt16.ofNat values.length) ++
        (chunkBytes ++ (compactBytes ++ values.map fun value => UInt8.ofNat value.toNat)))

theorem concatM_packB {values : List Int} {bytes : ByteString}
    (written : concatM packB values = some bytes) :
    (∀ value ∈ values, 0 ≤ value ∧ value ≤ 255) ∧
      bytes = values.map fun value => UInt8.ofNat value.toNat := by
  induction values generalizing bytes with
  | nil => exact ⟨fun _ absent => absurd absent List.not_mem_nil, (Option.some.inj written).symm⟩
  | cons value values ih =>
      obtain ⟨first, rest, head, tail, rfl⟩ := concatM_cons written
      rw [packB] at head
      split at head
      · rename_i fits
        cases head
        obtain ⟨all, rfl⟩ := ih tail
        exact ⟨List.forall_mem_cons.2 ⟨fits, all⟩, rfl⟩
      · cases head

theorem outputRow_byteLayout {row : List (Option Int)} {bytes : ByteString}
    (written : outputRow true row = some bytes) : Nonempty (ByteRowLayout row bytes) := by
  rw [outputRow] at written
  obtain ⟨chunkBytes, chunkWritten, chunkEq, _⟩ :=
    outputBitList_bits (padTo 32 false (chunkBits (splitChunk 8 (storedRow row))))
      (Nat.dvd_trans (by omega) (dvd_length_padTo (by omega) _ _))
  obtain ⟨compactBytes, compactWritten, compactEq, compactSize⟩ :=
    outputBitList_bits (padTo 32 false (compactBits (splitChunk 8 (storedRow row))))
      (Nat.dvd_trans (by omega) (dvd_length_padTo (by omega) _ _))
  obtain ⟨data, collected, written⟩ := Option.bind_eq_some_iff.1 written
  obtain ⟨stored, invalid⟩ := foldlM_addChunk_stored collected
  rw [splitChunk_storedRow, foldlM_addChunk] at stored
  obtain rfl := Option.some.inj stored
  simp only [List.nil_append, if_true] at written
  obtain ⟨compactPacked, packed, written⟩ := Option.bind_eq_some_iff.1 written
  obtain ⟨valuesPacked, packedValues, written⟩ := Option.bind_eq_some_iff.1 written
  rw [chunkWritten, compactWritten, Option.bind_eq_bind, Option.bind_some,
    Option.bind_some] at written
  obtain ⟨valueBytes, valuesWritten, written⟩ := Option.bind_eq_some_iff.1 written
  obtain ⟨_, compactFits, rfl⟩ := packH_eq_some packed
  obtain ⟨_, valuesFit, rfl⟩ := packH_eq_some packedValues
  obtain ⟨costsFit, rfl⟩ := concatM_packB valuesWritten
  obtain rfl := Option.some.inj written
  rw [← compactSize, Nat.mul_div_cancel_left _ (by omega)] at compactFits ⊢
  refine ⟨⟨chunkBytes, compactBytes, _, rfl, chunkEq, compactEq, by omega, by omega, costsFit, ?_,
    rfl⟩⟩
  intro cost member
  obtain ⟨chunk, isChunk, inChunk⟩ := mem_splitChunk (n := 8) (by omega) member
  exact invalid chunk isChunk cost inChunk

/-! ## Reading -/

/-- What `GetValue` makes of a cost that was stored. -/
def readByte (cost : Int) : Int :=
  if cost = INVALID_COST then INVALID_COST else cost.fdiv RESOLUTION_FOR_1BYTE

/-- A row reads the costs that it was written of, in quantities of 64. -/
def ReadsBytes (row : List (Option Int)) (read : Row) : Prop :=
  ∀ lid : UInt16, ∀ inRow : lid.toNat < row.length,
    (read.getValue lid).map (fun value => (value.toNat : Int)) = row[lid.toNat].map readByte

/-- A byte that was stored, as `GetValue` reads it. -/
theorem toNat_readByte {cost : Int}
    (fits : 0 ≤ storedByte cost ∧ storedByte cost ≤ 255)
    (invalid : storedByte cost = INVALID_1BYTE_COST → cost = INVALID_COST) :
    ((if UInt8.ofNat (storedByte cost).toNat = kInvalid1ByteCostValue then kInvalidCost
      else (UInt8.ofNat (storedByte cost).toNat).toUInt16).toNat : Int) = readByte cost := by
  have less : (storedByte cost).toNat < 2 ^ 8 := by omega
  have number : (UInt8.ofNat (storedByte cost).toNat).toNat = (storedByte cost).toNat :=
    UInt8.toNat_ofNat_of_lt' less
  have marker : kInvalid1ByteCostValue.toNat = 255 := rfl
  by_cases isInvalid : cost = INVALID_COST
  · subst isInvalid
    rfl
  · have different : ¬ UInt8.ofNat (storedByte cost).toNat = kInvalid1ByteCostValue := by
      intro same
      have equal := congrArg UInt8.toNat same
      rw [number, marker] at equal
      exact isInvalid (invalid (show storedByte cost = 255 by omega))
    rw [if_neg different, UInt8.toNat_toUInt16, number, readByte, if_neg isInvalid,
      Int.toNat_of_nonneg fits.1, storedByte, if_neg isInvalid]

theorem byteAt_map (values : List Int) (rest : ByteString) {k : Nat} (inside : k < values.length) :
    byteAt ((values.map fun value => UInt8.ofNat value.toNat) ++ rest) k
      = UInt8.ofNat values[k].toNat := by
  rw [byteAt, List.getD_append _ _ _ _ (by rwa [List.length_map]),
    List.getD_eq_getElem _ _ (by rwa [List.length_map]), List.getElem_map]

/-- **A row of bytes that was written is read.** -/
theorem readsBytes_layout {row : List (Option Int)} {bytes : ByteString}
    (layout : ByteRowLayout row bytes) (behindChunk behindCompact behindValues : ByteString) :
    ReadsBytes row (Row.init (layout.chunkBytes ++ behindChunk) layout.chunkBytes.length
      (layout.compactBytes ++ behindCompact) layout.compactBytes.length
      ((layout.values.map fun value => UInt8.ofNat value.toNat) ++ behindValues) true) := by
  intro lid inRow
  have inStored : lid.toNat < (storedRow row).length := by rwa [storedRow, List.length_map]
  obtain ⟨moreChunk, paddedChunk⟩ := padTo_eq 32 false (chunkBits (splitChunk 8 (storedRow row)))
  obtain ⟨moreCompact, paddedCompact⟩ := padTo_eq 32 false (compactBits (splitChunk 8 (storedRow row)))
  obtain ⟨moreValues, paddedValues⟩ := padTo_eq 4 0 (elements (splitChunk 8 (storedRow row)))
  have chunkEq : bitsOf (layout.chunkBytes ++ behindChunk)
      = chunkBits (splitChunk 8 (storedRow row)) ++ (moreChunk ++ bitsOf behindChunk) := by
    rw [bitsOf_append, layout.chunkBitsEq, paddedChunk, List.append_assoc]
  have compactEq : bitsOf (layout.compactBytes ++ behindCompact)
      = compactBits (splitChunk 8 (storedRow row)) ++ (moreCompact ++ bitsOf behindCompact) := by
    rw [bitsOf_append, layout.compactBitsEq, paddedCompact, List.append_assoc]
  have inChunks : lid.toNat / 8 ≤ (chunkBits (splitChunk 8 (storedRow row))).length := by
    rw [length_chunkBits_splitChunk]
    omega
  have encoded := sparseGet_encoded (n := 8) (by omega) (storedRow row) inStored
    (moreChunk ++ bitsOf behindChunk) (moreCompact ++ bitsOf behindCompact) moreValues
  have stored : (storedRow row)[lid.toNat] = row[lid.toNat].map storedByte := List.getElem_map ..
  rw [stored, sparseGet] at encoded
  rw [Row.getValue, Row.init]
  simp only [SimpleSuccinctBitVectorIndex.get_init, rank1_written layout.chunkBitsEq behindChunk inChunks]
  rw [chunkEq]
  dsimp only at encoded
  split at encoded
  · next chunkBit =>
      have inCompact := position_lt_length_compactBits (n := 8) (by omega) (storedRow row) inStored
        (moreChunk ++ bitsOf behindChunk) 0 chunkBit
      rw [if_pos chunkBit, rank1_written layout.compactBitsEq behindCompact inCompact.le, compactEq]
      split at encoded
      · next compactBit =>
          rw [if_pos compactBit, if_pos trivial]
          have inElements := rank_lt_length_elements (n := 8) (by omega) (storedRow row) inStored
            (moreChunk ++ bitsOf behindChunk) (moreCompact ++ bitsOf behindCompact) 0 chunkBit compactBit
          have longer : (elements (splitChunk 8 (storedRow row))).length ≤ layout.values.length := by
            rw [layout.valuesEq, paddedValues, List.length_append]
            exact Nat.le_add_right _ _
          have inValues := inElements.trans_le longer
          rw [← paddedValues, ← layout.valuesEq, List.getElem?_eq_getElem inValues] at encoded
          obtain ⟨cost, isCost, isStored⟩ := Option.map_eq_some_iff.1 encoded.symm
          have fits := layout.costsFit _ (List.getElem_mem inValues)
          rw [← isStored] at fits
          have member : some cost ∈ row := isCost ▸ List.getElem_mem inRow
          rw [byteAt_map _ _ inValues, ← isStored, isCost, Option.map_some, Option.map_some]
          exact congrArg some (toNat_readByte fits (layout.invalid cost member))
      · next compactBit =>
          rw [if_neg compactBit, Option.map_eq_none_iff.1 encoded.symm]
          rfl
  · next chunkBit =>
      rw [if_neg chunkBit, Option.map_eq_none_iff.1 encoded.symm]
      rfl

/-- **A row of bytes in an image is read.** -/
theorem readRow_byteLayout {metadata : Metadata} {base : Nat} (front : ByteString)
    {row : List (Option Int)} {bytes : ByteString} (rest : ByteString)
    (layout : ByteRowLayout row bytes) (size : metadata.lsize.toNat = row.length)
    (oneByte : metadata.use1ByteValue = true) (aligned : (base + front.length) % 4 = 0) :
    ∃ read, readRow metadata base (front ++ (bytes ++ rest)) front.length
        = .ok (read, front.length + bytes.length) ∧ bytes.length % 4 = 0 ∧ ReadsBytes row read := by
  have chunkSize := length_chunkBytes layout.chunkBitsEq
    (show metadata.lsize.toNat = (storedRow row).length by rw [size, storedRow, List.length_map])
  have chunkWords := length_written_mod_four layout.chunkBitsEq
  have compactWords := length_written_mod_four layout.compactBitsEq
  have valuesSize : layout.values.length % 4 = 0 := by
    rw [layout.valuesEq, length_padTo (by omega)]
    exact Nat.mul_mod_left _ _
  obtain ⟨valueBytes, valuesEq⟩ : ∃ valueBytes : ByteString, valueBytes
      = layout.values.map fun value => UInt8.ofNat value.toNat := ⟨_, rfl⟩
  have valueLength : valueBytes.length = layout.values.length := by
    rw [valuesEq, List.length_map]
  have valuesFit := layout.valuesFit
  have bytesEq := layout.bytesEq
  rw [← valuesEq, ← valueLength] at bytesEq
  have total : bytes.length = 2 + (2 + (layout.chunkBytes.length
      + (layout.compactBytes.length + valueBytes.length))) := by
    refine (congrArg List.length bytesEq).trans ?_
    simp only [List.length_append, length_storeUnaligned16]
  have read := readRow_bytes front _ _ valueBytes rest chunkSize layout.compactFits (by omega)
    compactWords aligned
  rw [← bytesEq, ← total, oneByte] at read
  refine ⟨_, read, by omega, ?_⟩
  rw [valuesEq]
  exact readsBytes_layout layout _ _ rest

/-! ## Images -/

/-- The bytes in front of the rows. -/
def byteImageFront (size : Nat) (modeValueList : List Int) : ByteString :=
  storeUnaligned16 0xCDAB ++ (storeUnaligned16 64 ++ (storeUnaligned16 (UInt16.ofNat size) ++
    (storeUnaligned16 (UInt16.ofNat size) ++
      ((modeValueList.map fun value => UInt16.ofNat value.toNat).flatMap storeUnaligned16 ++
        if modeValueList.length % 2 ≠ 0 then [0, 0] else []))))

/-- The header differs from that of two bytes in the resolution only. -/
theorem length_byteImageFront (size : Nat) (modeValueList : List Int) :
    (byteImageFront size modeValueList).length = (imageFront size modeValueList).length := by
  simp only [byteImageFront, imageFront, List.length_append, length_storeUnaligned16]

/-- What an image of bytes is made of. -/
theorem buildBinaryData_byteLayout {matrix : List (List (Option Int))} {modeValueList : List Int}
    {image : ByteString} (built : buildBinaryData matrix modeValueList true = some image) :
    matrix.length ≤ 65535 ∧ (∀ value ∈ modeValueList, 0 ≤ value ∧ value ≤ 65535) ∧
      ∃ rows, concatM (outputRow true) matrix = some rows ∧
        image = byteImageFront matrix.length modeValueList ++ rows := by
  rw [buildBinaryData] at built
  have packed64 : packH RESOLUTION_FOR_1BYTE = some (storeUnaligned16 64) := rfl
  have magic : FILE_MAGIC = storeUnaligned16 0xCDAB := by decide
  simp only [if_true, packed64, magic] at built
  obtain ⟨resolution, isResolution, built⟩ := Option.bind_eq_some_iff.1 built
  obtain rfl := Option.some.inj isResolution
  obtain ⟨size, packed, built⟩ := Option.bind_eq_some_iff.1 built
  obtain ⟨modeBytes, writtenModes, built⟩ := Option.bind_eq_some_iff.1 built
  obtain ⟨rows, writtenRows, built⟩ := Option.bind_eq_some_iff.1 built
  obtain ⟨_, fits, rfl⟩ := packH_eq_some packed
  obtain ⟨modesFit, rfl⟩ := concatM_packH (concatM_outputModeValue writtenModes)
  obtain rfl := Option.some.inj built
  refine ⟨by omega, modesFit, rows, writtenRows, ?_⟩
  rw [byteImageFront, Int.toNat_natCast]
  simp only [List.append_assoc]

/-- A connector of an image of bytes that was written. -/
structure BytesWritten (matrix : List (List (Option Int))) (modeValueList : List Int)
    (connector : Connector) : Prop where
  rows : List.Forall₂ ReadsBytes matrix connector.rows
  defaultCost : ∀ rid, ∀ inside : rid < modeValueList.length,
    ((loadUnaligned16 (connector.defaultCost.drop (2 * rid))).toNat : Int) = modeValueList[rid]
  resolution : connector.resolution = 64

/-- **An image of bytes that was written is accepted.** -/
theorem init_bytesWritten {matrix : List (List (Option Int))} {modeValueList : List Int}
    {image : ByteString} (square : ∀ row ∈ matrix, row.length = matrix.length)
    (modes : modeValueList.length = matrix.length)
    (built : buildBinaryData matrix modeValueList true = some image) {base : Nat}
    (aligned : 4 ∣ base) :
    ∃ connector, Connector.init base image = .ok connector ∧
      BytesWritten matrix modeValueList connector := by
  obtain ⟨sizeFits, modesFit, rows, writtenRows, rfl⟩ := buildBinaryData_byteLayout built
  have sizeEq : (UInt16.ofNat matrix.length).toNat = matrix.length :=
    UInt16.toNat_ofNat_of_lt' (Nat.lt_succ_of_le sizeFits)
  have frontLength : (byteImageFront matrix.length modeValueList).length
      = 8 + (matrix.length + matrix.length % 2) * 2 := by
    rw [length_byteImageFront, length_imageFront, modes]
  obtain ⟨connector, accepted, readsAll, defaultCost, resolution, _⟩ :=
    init_image sizeFits modes modesFit aligned _ rfl frontLength fun front => by
      have reads := @readRows_concatM ⟨kConnectorMagicNumber, 64, UInt16.ofNat matrix.length,
        UInt16.ofNat matrix.length⟩ base _ ReadsBytes (outputRow true) matrix
        (fun row mem bytes head front rest aligned => by
          obtain ⟨layout⟩ := outputRow_byteLayout head
          exact readRow_byteLayout front rest layout (sizeEq.trans (square row mem).symm) rfl aligned)
        _ _ writtenRows [] front
      rwa [List.append_nil] at reads
  exact ⟨connector, accepted, readsAll, defaultCost, resolution⟩

namespace Connector

/-- The cost that is looked up for a cell, of a row with a frequent cost. -/
def costOf (modeValue cost : Int) : Int :=
  if cost = modeValue then modeValue
  else if cost = INVALID_COST then INVALID_COST * RESOLUTION_FOR_1BYTE
  else cost.fdiv RESOLUTION_FOR_1BYTE * RESOLUTION_FOR_1BYTE

/-- **A cost that is looked up** is the frequent one or the one of the matrix rounded down, or 64
times the invalid cost. -/
theorem lookupCost_bytesWritten {matrix : Matrix} {modeValueList : List Int}
    {connector : Connector}
    (written : BytesWritten (compressMatrixByModeValue matrix modeValueList) modeValueList connector)
    {rid lid : UInt16} (inModes : rid.toNat < modeValueList.length) (inRows : rid.toNat < matrix.length)
    (inRow : lid.toNat < matrix[rid.toNat].length) :
    connector.lookupCost rid lid
      = costOf modeValueList[rid.toNat] matrix[rid.toNat][lid.toNat] := by
  have inCompressed : rid.toNat < (compressMatrixByModeValue matrix modeValueList).length := by
    rw [compressMatrixByModeValue, List.length_zipWith]
    omega
  have inReads : rid.toNat < connector.rows.length := written.rows.length_eq ▸ inCompressed
  have compressed : (compressMatrixByModeValue matrix modeValueList)[rid.toNat]
      = matrix[rid.toNat].map fun cost => if cost = modeValueList[rid.toNat] then none else some cost :=
    List.getElem_zipWith
  have reads : ReadsBytes _ connector.rows[rid.toNat] :=
    (List.forall₂_iff_get.1 written.rows).2 _ inCompressed inReads
  have value := reads lid (by
    show lid.toNat < ((compressMatrixByModeValue matrix modeValueList)[rid.toNat]).length
    rwa [compressed, List.length_map])
  simp only [List.get_eq_getElem, compressed, List.getElem_map] at value
  rw [lookupCost, List.getElem?_eq_getElem inReads, Option.bind_some, costOf]
  cases found : connector.rows[rid.toNat].getValue lid with
  | none =>
      rw [found, Option.map_none] at value
      split at value
      · next isMode =>
          rw [if_pos isMode]
          exact written.defaultCost rid.toNat inModes
      · cases value
  | some read =>
      rw [found, Option.map_some] at value
      split at value
      · cases value
      · next notMode =>
          have same : (read.toNat : Int) = readByte matrix[rid.toNat][lid.toNat] :=
            Option.some.inj value
          rw [if_neg notMode]
          show (read.toNat : Int) * connector.resolution = _
          rw [written.resolution, same, readByte]
          split
          · rfl
          · rfl

/-! ## Costs as they should be -/

/-- What is to be looked up: the invalid cost for exactly the invalid cells, the frequent cost for
the cells that have it, and for all others the cost rounded down to a multiple of the resolution. -/
def LooksUp (matrix : Matrix) (modeValueList : List Int) (connector : Connector) : Prop :=
  ∀ (rid lid : UInt16) (inRows : rid.toNat < matrix.length)
    (inRow : lid.toNat < matrix[rid.toNat].length) (modeValue : Int),
    modeValueList[rid.toNat]? = some modeValue →
      (connector.lookupCost rid lid = INVALID_COST ↔ matrix[rid.toNat][lid.toNat] = INVALID_COST) ∧
      (matrix[rid.toNat][lid.toNat] = modeValue → connector.lookupCost rid lid = modeValue) ∧
      (matrix[rid.toNat][lid.toNat] ≠ modeValue → matrix[rid.toNat][lid.toNat] ≠ INVALID_COST →
        connector.lookupCost rid lid
          = matrix[rid.toNat][lid.toNat].fdiv RESOLUTION_FOR_1BYTE * RESOLUTION_FOR_1BYTE)

theorem mem_countCost {m : List (Int × Nat)} {cost key : Int} {count : Nat}
    (member : (key, count) ∈ countCost m cost) : key = cost ∨ ∃ count, (key, count) ∈ m := by
  induction m with
  | nil =>
      cases List.mem_singleton.1 member
      exact .inl rfl
  | cons entry m ih =>
      obtain ⟨first, number⟩ := entry
      rw [countCost] at member
      split at member
      · rename_i same
        rcases List.mem_cons.1 member with here | there
        · cases here
          exact .inl same
        · exact .inr ⟨count, List.mem_cons_of_mem _ there⟩
      · rcases List.mem_cons.1 member with here | there
        · cases here
          exact .inr ⟨_, List.mem_cons_self ..⟩
        · rcases ih there with same | ⟨count, before⟩
          · exact .inl same
          · exact .inr ⟨count, List.mem_cons_of_mem _ before⟩

theorem mem_foldl_countCost {costs : List Int} {m : List (Int × Nat)} {key : Int} {count : Nat}
    (member : (key, count) ∈ costs.foldl countCost m) :
    key ∈ costs ∨ ∃ count, (key, count) ∈ m := by
  induction costs generalizing m with
  | nil => exact .inr ⟨count, member⟩
  | cons cost costs ih =>
      rcases ih member with later | ⟨count, counted⟩
      · exact .inl (List.mem_cons_of_mem _ later)
      · rcases mem_countCost counted with same | before
        · exact .inl (same ▸ List.mem_cons_self ..)
        · exact .inr before

/-- An invalid cost is never the frequent one. -/
theorem modeValue_ne_invalid {row : List Int} {mode : Int} (isMode : modeValue row = some mode) :
    mode ≠ INVALID_COST := by
  rw [modeValue] at isMode
  obtain ⟨⟨key, count⟩, isMax, rfl⟩ := Option.map_eq_some_iff.1 isMode
  have member := List.argmax_mem isMax
  rcases mem_foldl_countCost member with inRow | ⟨_, absent⟩
  · have valid := (List.mem_filter.1 inRow).2
    simpa using valid
  · cases absent

theorem modeValue_of_created {matrix : Matrix} {modeValueList : List Int}
    (created : createModeValueList matrix = some modeValueList) {rid : Nat}
    (inRows : rid < matrix.length) {mode : Int} (isMode : modeValueList[rid]? = some mode) :
    modeValue matrix[rid] = some mode := by
  rw [createModeValueList, mapM_eq_some_iff] at created
  obtain ⟨inModes, rfl⟩ := List.getElem?_eq_some_iff.1 isMode
  exact (List.forall₂_iff_get.1 created).2 rid inRows inModes

/-- **What is looked up is as it should be exactly when no cell is invalid.** -/
theorem looksUp_iff_valid {matrix : Matrix}
    (square : ∀ row ∈ matrix, row.length = matrix.length) {image : ByteString}
    (built : connectionImage matrix true = some image) {base : Nat} (aligned : 4 ∣ base) :
    ∃ modeValueList connector, createModeValueList matrix = some modeValueList ∧
      Connector.init base image = .ok connector ∧
        (LooksUp matrix modeValueList connector ↔ ∀ row ∈ matrix, INVALID_COST ∉ row) := by
  obtain ⟨modeValueList, created, built⟩ := Option.bind_eq_some_iff.1 built
  have modes := length_createModeValueList created
  obtain ⟨sameLength, squareCompressed⟩ := compressMatrixByModeValue_square modes square
  obtain ⟨connector, accepted, written⟩ :=
    init_bytesWritten (fun row mem => (squareCompressed row mem).trans sameLength.symm)
      (modes.trans sameLength.symm) built aligned
  obtain ⟨sizeFits, _⟩ := buildBinaryData_byteLayout built
  rw [sameLength] at sizeFits
  refine ⟨modeValueList, connector, created, accepted, ?_, ?_⟩
  · intro looksUp row isRow invalid
    obtain ⟨rid, inRows, rfl⟩ := List.getElem_of_mem isRow
    obtain ⟨lid, inRow, isInvalid⟩ := List.getElem_of_mem invalid
    have width := square _ isRow
    have number : ∀ n, n < matrix.length → ∃ r : UInt16, r.toNat = n := fun n less =>
      ⟨UInt16.ofNat n, UInt16.toNat_ofNat_of_lt' (Nat.lt_succ_of_le (less.le.trans sizeFits))⟩
    obtain ⟨rid, rfl⟩ := number rid inRows
    obtain ⟨lid, rfl⟩ := number lid (width ▸ inRow)
    have inModes : rid.toNat < modeValueList.length := modes ▸ inRows
    have isMode := List.getElem?_eq_getElem inModes
    have notMode := modeValue_ne_invalid (modeValue_of_created created inRows isMode)
    have cost := lookupCost_bytesWritten written (modes ▸ inRows) inRows inRow
    have looked := (looksUp rid lid inRows inRow _ isMode).1.2 isInvalid
    rw [cost, isInvalid, costOf, if_neg notMode.symm, if_pos rfl] at looked
    exact absurd looked (by decide)
  · intro valid rid lid inRows inRow mode isMode
    have cost := lookupCost_bytesWritten written (modes ▸ inRows) inRows inRow
    have notMode := modeValue_ne_invalid (modeValue_of_created created inRows isMode)
    obtain ⟨inModes, rfl⟩ := List.getElem?_eq_some_iff.1 isMode
    have notInvalid : matrix[rid.toNat][lid.toNat] ≠ INVALID_COST := fun same =>
      valid _ (List.getElem_mem inRows) (same ▸ List.getElem_mem inRow)
    rw [cost, costOf, if_neg notInvalid]
    refine ⟨⟨fun same => ?_, fun same => absurd same notInvalid⟩, fun same => if_pos same,
      fun different _ => if_neg different⟩
    split at same
    · exact absurd same notMode
    · rw [INVALID_COST, RESOLUTION_FOR_1BYTE] at same
      omega

/-- A matrix without invalid cells, built and read. -/
theorem looksUp_validCells :
    ∃ image modeValueList connector, connectionImage [[0, 5, 70], [128, 3, 3], [9, 9, 1]] true = some image ∧
      Connector.init 32 image = .ok connector ∧
        LooksUp [[0, 5, 70], [128, 3, 3], [9, 9, 1]] modeValueList connector := by
  obtain ⟨image, built⟩ := Option.isSome_iff_exists.1
    (show (connectionImage [[0, 5, 70], [128, 3, 3], [9, 9, 1]] true).isSome by decide +kernel)
  obtain ⟨modeValueList, connector, _, accepted, looksUp⟩ :=
    @looksUp_iff_valid _ (by decide) _ built 32 (by decide)
  exact ⟨image, modeValueList, connector, built, accepted, looksUp.2 (by decide)⟩

/-- An invalid cell is looked up with 64 times the invalid cost. -/
theorem not_looksUp_invalidCell :
    ∃ image modeValueList connector, connectionImage [[0, 30000], [1, 1]] true = some image ∧
      createModeValueList [[0, 30000], [1, 1]] = some modeValueList ∧
        Connector.init 32 image = .ok connector ∧ connector.lookupCost 0 1 = 1920000 ∧
          ¬ LooksUp [[0, 30000], [1, 1]] modeValueList connector := by
  obtain ⟨image, built⟩ := Option.isSome_iff_exists.1
    (show (connectionImage [[0, 30000], [1, 1]] true).isSome by decide +kernel)
  have created : createModeValueList [[0, 30000], [1, 1]] = some [0, 1] := by decide
  have bytes : buildBinaryData (compressMatrixByModeValue [[0, 30000], [1, 1]] [0, 1]) [0, 1] true
      = some image := by
    rw [connectionImage, created] at built
    exact built
  obtain ⟨connector, accepted, written⟩ :=
    init_bytesWritten (by decide) (by decide) bytes (Dvd.intro 8 rfl : 4 ∣ 32)
  have cost := @lookupCost_bytesWritten _ _ _ written 0 1 (by decide) (by decide) (by decide)
  refine ⟨image, [0, 1], connector, built, created, accepted, cost, fun looksUp => ?_⟩
  have looked := (looksUp 0 1 (by decide) (by decide) 0 rfl).1.2 rfl
  rw [cost] at looked
  exact absurd looked (by decide)

end Connector

end Mozkey.Converter
