import Mozkey.DataManager.ConnectionData

/-!
# The connector

The connector reads the image of a connection matrix where it lies: the header, the
frequent costs, and row by row the two bit vectors and the costs.  A cost that was looked
up stays in a cache of 1024 entries, each of which holds a cost and the pair that it is
the cost of.  An entry that was never filled reads as cost 0 of the pair (0, 0).

The image that the generator writes is accepted, and every cost is the one of the matrix,
whatever was looked up before.
-/

namespace Mozkey.Converter

open Mozkey.Lib Mozkey.Storage Mozkey.DataManager

def kConnectorMagicNumber : UInt16 := 0xCDAB
def kInvalid1ByteCostValue : UInt8 := 255
def kInvalidCost : UInt16 := 30000
def kCacheSize : Nat := 1024
def kCacheHashMask : UInt32 := 1023

/-! ## Metadata -/

/-- The first eight bytes of the connection data. -/
structure Metadata where
  magic : UInt16
  resolution : UInt16
  rsize : UInt16
  lsize : UInt16
  deriving DecidableEq, Repr

namespace Metadata

def kByteSize : Nat := 8

def numChunkBits (metadata : Metadata) : Nat := (metadata.lsize.toNat + 7) / 8
def chunkBitsSize (metadata : Metadata) : Nat := (metadata.numChunkBits + 31) / 32 * 4
def use1ByteValue (metadata : Metadata) : Bool := metadata.resolution != 1
def defaultCostArraySize (metadata : Metadata) : Nat :=
  metadata.rsize.toNat + metadata.rsize.toNat % 2

end Metadata

/-- Why connection data is not accepted, with what the message tells. -/
inductive ConnectorError
  | tooFewBytes (data : ByteString)
  | unexpectedMagicNumber (metadata : Metadata)
  | notSquare (metadata : Metadata)
  | notAligned (metadata : Metadata) (location : Nat) (array : String) (alignment : Nat)
  | outOfRange (metadata : Metadata) (location : Nat) (read : String) (required remaining : Nat)
  deriving DecidableEq, Repr

/-- `ParseMetadata`. -/
def parseMetadata (data : ByteString) : Except ConnectorError Metadata :=
  if data.length < Metadata.kByteSize then .error (.tooFewBytes data)
  else
    let metadata : Metadata :=
      { magic := loadUnaligned16 data
        resolution := loadUnaligned16 (data.drop 2)
        rsize := loadUnaligned16 (data.drop 4)
        lsize := loadUnaligned16 (data.drop 6) }
    if metadata.magic ≠ kConnectorMagicNumber then .error (.unexpectedMagicNumber metadata)
    else if metadata.lsize ≠ metadata.rsize then .error (.notSquare metadata)
    else .ok metadata

/-! ## Rows -/

/-- `Connector::Row`. -/
structure Row where
  chunkBitsIndex : SimpleSuccinctBitVectorIndex
  compactBitsIndex : SimpleSuccinctBitVectorIndex
  values : ByteString
  use1byteValue : Bool
  deriving Repr

/-- `Row::Init`. -/
def Row.init (chunkBits : ByteString) (chunkBitsSize : Nat) (compactBits : ByteString)
    (compactBitsSize : Nat) (values : ByteString) (use1byteValue : Bool) : Row where
  chunkBitsIndex := .init 4 chunkBits chunkBitsSize
  compactBitsIndex := .init 4 compactBits compactBitsSize
  values := values
  use1byteValue := use1byteValue

/-- `Row::GetValue`. -/
def Row.getValue (row : Row) (index : UInt16) : Option UInt16 :=
  let chunkBitPosition := index.toNat / 8
  if row.chunkBitsIndex.get chunkBitPosition then
    let compactBitPosition := row.chunkBitsIndex.rank1 chunkBitPosition * 8 + index.toNat % 8
    if row.compactBitsIndex.get compactBitPosition then
      let valuePosition := row.compactBitsIndex.rank1 compactBitPosition
      if row.use1byteValue then
        let value := byteAt row.values valuePosition
        some (if value = kInvalid1ByteCostValue then kInvalidCost else value.toUInt16)
      else some (loadUnaligned16 (row.values.drop (2 * valuePosition)))
    else none
  else none

/-! ## Initialisation -/

section Init

variable (metadata : Metadata) (base : Nat) (data : ByteString)

/-- `VALIDATE_SIZE`, at an offset of the data. -/
def validateSize (offset numBytes : Nat) (read : String) : Except ConnectorError Unit :=
  if offset + numBytes ≤ data.length then .ok ()
  else .error (.outOfRange metadata offset read numBytes (data.length - offset))

/-- `VALIDATE_ALIGNMENT`, of an address. -/
def validateAlignment (offset : Nat) (array : String) : Except ConnectorError Unit :=
  if (base + offset) % 4 = 0 then .ok ()
  else .error (.notAligned metadata offset array ((base + offset) % 4))

/-- One turn of the loop over the rows: the row, and where the next one starts. -/
def readRow (offset : Nat) : Except ConnectorError (Row × Nat) := do
  let chunkBitsSize := metadata.chunkBitsSize
  validateSize metadata data offset 2 "Compact bits size of row "
  let compactBitsSize := (loadUnaligned16 (data.drop offset)).toNat
  let offset := offset + 2
  validateSize metadata data offset 2 "Values size of row "
  let valuesSize := (loadUnaligned16 (data.drop offset)).toNat
  let offset := offset + 2
  validateSize metadata data offset chunkBitsSize "Chunk bits of row "
  let chunkBits := data.drop offset
  validateAlignment metadata base offset "chunk_bits"
  let offset := offset + chunkBitsSize
  validateSize metadata data offset compactBitsSize "Compact bits of row "
  let compactBits := data.drop offset
  validateAlignment metadata base offset "compact_bits"
  let offset := offset + compactBitsSize
  validateSize metadata data offset valuesSize "Values of row "
  let values := data.drop offset
  validateAlignment metadata base offset "values"
  let offset := offset + valuesSize
  return (Row.init chunkBits chunkBitsSize compactBits compactBitsSize values metadata.use1ByteValue,
    offset)

/-- The loop over the rows. -/
def readRows : Nat → Nat → Except ConnectorError (List Row × Nat)
  | 0, offset => .ok ([], offset)
  | rows + 1, offset => do
      let (row, offset) ← readRow metadata base data offset
      let (rest, offset) ← readRows rows offset
      return (row :: rest, offset)

end Init

/-- `Connector`.  An entry of the cache holds a cost above, and the pair below. -/
structure Connector where
  rows : List Row
  defaultCost : ByteString
  resolution : Int
  cache : List UInt64
  deriving Repr

namespace Connector

/-- `Connector::Init`, of data that lies at an address. -/
def init (base : Nat) (data : ByteString) : Except ConnectorError Connector := do
  let metadata ← parseMetadata data
  let offset := Metadata.kByteSize
  let defaultCost := data.drop offset
  let defaultCostSize := metadata.defaultCostArraySize * 2
  validateSize metadata data offset defaultCostSize "Default cost"
  validateAlignment metadata base offset "default_cost_"
  let offset := offset + defaultCostSize
  let (rows, offset) ← readRows metadata base data metadata.rsize.toNat offset
  validateSize metadata data offset 0 "Data end"
  return {
    rows := rows
    defaultCost := defaultCost
    resolution := metadata.resolution.toNat
    cache := List.replicate kCacheSize 0 }

/-! ## Lookup -/

/-- `LookupCost`. -/
def lookupCost (connector : Connector) (rid lid : UInt16) : Int :=
  match connector.rows[rid.toNat]?.bind fun row => row.getValue lid with
  | none => (loadUnaligned16 (connector.defaultCost.drop (2 * rid.toNat))).toNat
  | some value => value.toNat * connector.resolution

/-- The pair of a lookup as one number. -/
def indexOf (rid lid : UInt16) : UInt32 := (rid.toUInt32 <<< 16) ||| lid.toUInt32

/-- The place of a pair in the cache. -/
def bucketOf (rid lid : UInt16) : UInt32 := (3 * rid.toUInt32 + lid.toUInt32) &&& kCacheHashMask

/-- The entry of a cost. -/
def cacheValue (value : Int) (index : UInt32) : UInt64 :=
  (UInt64.ofInt value <<< 32) ||| index.toUInt64

/-- `GetTransitionCost`. -/
def getTransitionCost (connector : Connector) (rid lid : UInt16) : Connector × Int :=
  let index := indexOf rid lid
  let bucket := (bucketOf rid lid).toNat
  let cv := connector.cache.getD bucket 0
  if cv.toUInt32 = index then (connector, (cv >>> 32).toUInt32.toInt32.toInt)
  else
    let value := connector.lookupCost rid lid
    ({ connector with cache := connector.cache.set bucket (cacheValue value index) }, value)

/-- Lookups one after another. -/
def lookups (connector : Connector) (pairs : List (UInt16 × UInt16)) : Connector :=
  pairs.foldl (fun connector pair => (connector.getTransitionCost pair.1 pair.2).1) connector

end Connector

/-! ## Rows that were written -/

/-- A row reads the costs that it was written of. -/
def Reads (row : List (Option Int)) (read : Row) : Prop :=
  ∀ lid : UInt16, ∀ inRow : lid.toNat < row.length,
    (read.getValue lid).map (fun value => (value.toNat : Int)) = row[lid.toNat]

theorem toNat_ofNat_toNat {value : Int} (fits : 0 ≤ value ∧ value ≤ 65535) :
    ((UInt16.ofNat value.toNat).toNat : Int) = value := by
  have less : value.toNat < 2 ^ 16 := by omega
  rw [UInt16.toNat_ofNat_of_lt' less]
  omega

/-- Rank in a bit vector that was written, whatever stands behind it. -/
theorem rank1_written {bytes : ByteString} {bits : List Bool}
    (written : bitsOf bytes = padTo 32 false bits) (behind : ByteString) {n : Nat}
    (inside : n ≤ bits.length) :
    (SimpleSuccinctBitVectorIndex.init 4 (bytes ++ behind) bytes.length).rank1 n
      = rank true (bitsOf (bytes ++ behind)) n := by
  obtain ⟨more, padded⟩ := padTo_eq 32 false bits
  have size : 8 * bytes.length = (padTo 32 false bits).length := by
    rw [← length_bitsOf, written]
  have words := dvd_length_padTo (n := 32) (by omega) false bits
  have long : bits.length ≤ (padTo 32 false bits).length := by
    rw [padded, List.length_append]
    exact Nat.le_add_right _ _
  exact SimpleSuccinctBitVectorIndex.rank1_init (k := 1) (by omega) (by omega)
    (by rw [List.length_append]; exact Nat.le_add_right _ _) (by omega)

theorem length_chunkBits_splitChunk {n : Nat} {row : List (Option Int)} :
    (chunkBits (splitChunk n row)).length = (row.length + n - 1) / n := by
  rw [chunkBits, List.length_map, splitChunk, List.length_map, List.length_range]

/-- **A row that was written is read.** -/
theorem reads_layout {row : List (Option Int)} {bytes : ByteString} (layout : RowLayout row bytes)
    (behindChunk behindCompact behindValues : ByteString) :
    Reads row (Row.init (layout.chunkBytes ++ behindChunk) layout.chunkBytes.length
      (layout.compactBytes ++ behindCompact) layout.compactBytes.length
      ((layout.values.map fun value => UInt16.ofNat value.toNat).flatMap storeUnaligned16
        ++ behindValues) false) := by
  intro lid inRow
  obtain ⟨moreChunk, paddedChunk⟩ := padTo_eq 32 false (chunkBits (splitChunk 8 row))
  obtain ⟨moreCompact, paddedCompact⟩ := padTo_eq 32 false (compactBits (splitChunk 8 row))
  obtain ⟨moreValues, paddedValues⟩ := padTo_eq 2 0 (elements (splitChunk 8 row))
  have chunkEq : bitsOf (layout.chunkBytes ++ behindChunk)
      = chunkBits (splitChunk 8 row) ++ (moreChunk ++ bitsOf behindChunk) := by
    rw [bitsOf_append, layout.chunkBitsEq, paddedChunk, List.append_assoc]
  have compactEq : bitsOf (layout.compactBytes ++ behindCompact)
      = compactBits (splitChunk 8 row) ++ (moreCompact ++ bitsOf behindCompact) := by
    rw [bitsOf_append, layout.compactBitsEq, paddedCompact, List.append_assoc]
  have inChunks : lid.toNat / 8 ≤ (chunkBits (splitChunk 8 row)).length := by
    rw [length_chunkBits_splitChunk]
    omega
  have encoded := sparseGet_encoded (n := 8) (by omega) row inRow (moreChunk ++ bitsOf behindChunk)
    (moreCompact ++ bitsOf behindCompact) moreValues
  rw [← encoded, sparseGet, Row.getValue, Row.init]
  simp only [SimpleSuccinctBitVectorIndex.get_init, rank1_written layout.chunkBitsEq behindChunk inChunks]
  rw [chunkEq]
  split
  · next chunkBit =>
      have inCompact := position_lt_length_compactBits (n := 8) (by omega) row inRow
        (moreChunk ++ bitsOf behindChunk) 0 chunkBit
      rw [rank1_written layout.compactBitsEq behindCompact inCompact.le, compactEq]
      split
      · next compactBit =>
          have inElements := rank_lt_length_elements (n := 8) (by omega) row inRow
            (moreChunk ++ bitsOf behindChunk) (moreCompact ++ bitsOf behindCompact) 0 chunkBit compactBit
          have longer : (elements (splitChunk 8 row)).length ≤ layout.values.length := by
            rw [layout.valuesEq, paddedValues, List.length_append]
            exact Nat.le_add_right _ _
          have inValues := inElements.trans_le longer
          rw [loadUnaligned16_flatMap _ _ (by rwa [List.length_map]), ← paddedValues,
            ← layout.valuesEq, List.getElem?_eq_getElem inValues, List.getElem_map,
            if_neg Bool.false_ne_true, Option.map_some, toNat_ofNat_toNat (layout.costsFit _ (List.getElem_mem inValues))]
      · rfl
  · rfl

theorem validateSize_ok {metadata : Metadata} {data : ByteString} {offset numBytes : Nat}
    {read : String} (inside : offset + numBytes ≤ data.length) :
    validateSize metadata data offset numBytes read = .ok () := if_pos inside

theorem validateAlignment_ok {metadata : Metadata} {base offset : Nat} {array : String}
    (aligned : (base + offset) % 4 = 0) : validateAlignment metadata base offset array = .ok () :=
  if_pos aligned

theorem drop_add_of_append {data front back : ByteString} {offset n : Nat}
    (stands : data.drop offset = front ++ back) (length : front.length = n) :
    data.drop (offset + n) = back := by
  rw [← List.drop_drop, stands, ← length, List.drop_left]

/-- The five places of a row in an image, whatever its costs look like. -/
theorem readRow_bytes {metadata : Metadata} {base : Nat} (front : ByteString)
    (chunkBytes compactBytes valueBytes rest : ByteString)
    (chunkSize : chunkBytes.length = metadata.chunkBitsSize)
    (compactFits : compactBytes.length ≤ 65535) (valuesFit : valueBytes.length ≤ 65535)
    (compactWords : compactBytes.length % 4 = 0) (aligned : (base + front.length) % 4 = 0) :
    readRow metadata base (front ++ ((storeUnaligned16 (UInt16.ofNat compactBytes.length) ++
        (storeUnaligned16 (UInt16.ofNat valueBytes.length) ++
          (chunkBytes ++ (compactBytes ++ valueBytes)))) ++ rest)) front.length
      = .ok (Row.init (chunkBytes ++ (compactBytes ++ (valueBytes ++ rest))) chunkBytes.length
          (compactBytes ++ (valueBytes ++ rest)) compactBytes.length (valueBytes ++ rest)
          metadata.use1ByteValue,
        front.length + (2 + (2 + (chunkBytes.length + (compactBytes.length + valueBytes.length))))) := by
  have chunkWords : chunkBytes.length % 4 = 0 := by
    rw [chunkSize]
    exact Nat.mul_mod_left _ _
  -- What stands at each of the five places of the row.
  obtain ⟨image, imageEq⟩ : ∃ image, image = front ++
    ((storeUnaligned16 (UInt16.ofNat compactBytes.length) ++
      (storeUnaligned16 (UInt16.ofNat valueBytes.length) ++
        (chunkBytes ++ (compactBytes ++ valueBytes)))) ++ rest) := ⟨_, rfl⟩
  have data : image.length = front.length + (2 + (2 + (chunkBytes.length + (compactBytes.length
      + valueBytes.length))) + rest.length) := by
    rw [imageEq]
    simp only [List.length_append, length_storeUnaligned16]
  have atRow : image.drop front.length = storeUnaligned16 (UInt16.ofNat compactBytes.length) ++
      (storeUnaligned16 (UInt16.ofNat valueBytes.length) ++
        (chunkBytes ++ (compactBytes ++ (valueBytes ++ rest)))) := by
    rw [imageEq, List.drop_left]
    simp only [List.append_assoc]
  rw [← imageEq]
  have atValuesSize := drop_add_of_append atRow (length_storeUnaligned16 _)
  have atChunk := drop_add_of_append atValuesSize (length_storeUnaligned16 _)
  have atCompact := drop_add_of_append atChunk rfl
  have atValues := drop_add_of_append atCompact rfl
  have compactSize : (UInt16.ofNat compactBytes.length).toNat = compactBytes.length :=
    UInt16.toNat_ofNat_of_lt' (Nat.lt_succ_of_le compactFits)
  have valuesSize : (UInt16.ofNat valueBytes.length).toNat = valueBytes.length :=
    UInt16.toNat_ofNat_of_lt' (Nat.lt_succ_of_le valuesFit)
  rw [readRow]
  simp only [atRow, atValuesSize, loadUnaligned16_store, compactSize, valuesSize, ← chunkSize,
    atChunk, atCompact, atValues]
  rw [validateSize_ok (by omega), validateSize_ok (by omega), validateSize_ok (by omega),
    validateSize_ok (by omega), validateSize_ok (by omega), validateAlignment_ok (by omega),
    validateAlignment_ok (by omega), validateAlignment_ok (by omega)]
  show Except.ok _ = _
  simp only [Nat.add_assoc]

/-- The size of the chunk bits that were written. -/
theorem length_chunkBytes {metadata : Metadata} {row : List (Option Int)} {chunkBytes : ByteString}
    (written : bitsOf chunkBytes = padTo 32 false (chunkBits (splitChunk 8 row)))
    (size : metadata.lsize.toNat = row.length) : chunkBytes.length = metadata.chunkBitsSize := by
  have bits := length_bitsOf chunkBytes
  rw [written, length_padTo (by omega), length_chunkBits_splitChunk] at bits
  rw [Metadata.chunkBitsSize, Metadata.numChunkBits, size]
  omega

/-- Bits that were written take whole words. -/
theorem length_written_mod_four {bytes : ByteString} {bits : List Bool}
    (written : bitsOf bytes = padTo 32 false bits) : bytes.length % 4 = 0 := by
  have length := length_bitsOf bytes
  rw [written, length_padTo (by omega)] at length
  omega

/-- **A row in an image is read.** -/
theorem readRow_layout {metadata : Metadata} {base : Nat} (front : ByteString)
    {row : List (Option Int)} {bytes : ByteString} (rest : ByteString) (layout : RowLayout row bytes)
    (size : metadata.lsize.toNat = row.length) (twoByte : metadata.use1ByteValue = false)
    (aligned : (base + front.length) % 4 = 0) :
    ∃ read, readRow metadata base (front ++ (bytes ++ rest)) front.length
        = .ok (read, front.length + bytes.length) ∧ bytes.length % 4 = 0 ∧ Reads row read := by
  have chunkSize := length_chunkBytes layout.chunkBitsEq size
  have chunkWords := length_written_mod_four layout.chunkBitsEq
  have compactWords := length_written_mod_four layout.compactBitsEq
  have valuesSize : layout.values.length % 2 = 0 := by
    rw [layout.valuesEq, length_padTo (by omega)]
    exact Nat.mul_mod_left _ _
  obtain ⟨valueBytes, valuesEq⟩ : ∃ valueBytes, valueBytes
      = (layout.values.map fun value => UInt16.ofNat value.toNat).flatMap storeUnaligned16 := ⟨_, rfl⟩
  have valueLength : valueBytes.length = layout.values.length * 2 := by
    rw [valuesEq, length_flatMap_storeUnaligned16, List.length_map, Nat.mul_comm]
  have valuesFit := layout.valuesFit
  have bytesEq := layout.bytesEq
  rw [← valuesEq, ← valueLength] at bytesEq
  have total : bytes.length = 2 + (2 + (layout.chunkBytes.length
      + (layout.compactBytes.length + valueBytes.length))) := by
    refine (congrArg List.length bytesEq).trans ?_
    simp only [List.length_append, length_storeUnaligned16]
  have read := readRow_bytes front _ _ valueBytes rest chunkSize layout.compactFits (by omega)
    compactWords aligned
  rw [← bytesEq, ← total, twoByte] at read
  refine ⟨_, read, by omega, ?_⟩
  rw [valuesEq]
  exact reads_layout layout _ _ rest

/-! ## Images that were written -/

/-- Rows in an image are read, where each of them is read on its own. -/
theorem readRows_concatM {metadata : Metadata} {base : Nat} {α : Type} {read : α → Row → Prop}
    {write : α → Option ByteString} {rows : List α}
    (readsRow : ∀ row ∈ rows, ∀ bytes, write row = some bytes → ∀ front rest : ByteString,
      (base + front.length) % 4 = 0 →
        ∃ found, readRow metadata base (front ++ (bytes ++ rest)) front.length
          = .ok (found, front.length + bytes.length) ∧ bytes.length % 4 = 0 ∧ read row found)
    (front : ByteString) {bytes : ByteString} (written : concatM write rows = some bytes)
    (rest : ByteString) (aligned : (base + front.length) % 4 = 0) :
    ∃ reads, readRows metadata base (front ++ (bytes ++ rest)) rows.length front.length
        = .ok (reads, front.length + bytes.length) ∧ List.Forall₂ read rows reads := by
  induction rows generalizing front bytes with
  | nil =>
      obtain rfl := Option.some.inj written
      exact ⟨[], rfl, .nil⟩
  | cons row rows ih =>
      obtain ⟨first, tail, head, writtenTail, rfl⟩ := concatM_cons written
      obtain ⟨found, readFirst, words, reads⟩ :=
        readsRow row (List.mem_cons_self ..) first head front (tail ++ rest) aligned
      obtain ⟨others, readOthers, readsOthers⟩ := ih
        (fun other mem => readsRow other (List.mem_cons_of_mem row mem)) (front ++ first) writtenTail
        (by rw [List.length_append]; omega)
      refine ⟨found :: others, ?_, .cons reads readsOthers⟩
      rw [List.length_append, List.append_assoc front first] at readOthers
      rw [List.length_cons, readRows, List.append_assoc first, readFirst]
      show (readRows metadata base _ rows.length _ >>= _) = _
      rw [readOthers, List.length_append, ← Nat.add_assoc]
      rfl

theorem readRows_written {metadata : Metadata} {base : Nat} {rows : List (List (Option Int))}
    (size : ∀ row ∈ rows, metadata.lsize.toNat = row.length) (twoByte : metadata.use1ByteValue = false)
    (front : ByteString) {bytes : ByteString} (written : concatM (outputRow false) rows = some bytes)
    (rest : ByteString) (aligned : (base + front.length) % 4 = 0) :
    ∃ reads, readRows metadata base (front ++ (bytes ++ rest)) rows.length front.length
        = .ok (reads, front.length + bytes.length) ∧ List.Forall₂ Reads rows reads := by
  refine readRows_concatM (fun row mem bytes head front rest aligned => ?_) front written rest aligned
  obtain ⟨layout⟩ := outputRow_layout head
  exact readRow_layout front rest layout (size row mem) twoByte aligned

/-- An image is accepted, where its rows are read. -/
theorem init_image {size : Nat} {modeValueList : List Int} {resolution : UInt16}
    {read : List (Option Int) → Row → Prop} {matrix : List (List (Option Int))} {rows : ByteString}
    {base : Nat} (sizeFits : size ≤ 65535) (modes : modeValueList.length = size)
    (modesFit : ∀ value ∈ modeValueList, 0 ≤ value ∧ value ≤ 65535) (aligned : 4 ∣ base)
    (front : ByteString)
    (isFront : front = storeUnaligned16 0xCDAB ++ (storeUnaligned16 resolution ++
      (storeUnaligned16 (UInt16.ofNat size) ++ (storeUnaligned16 (UInt16.ofNat size) ++
        ((modeValueList.map fun value => UInt16.ofNat value.toNat).flatMap storeUnaligned16 ++
          if modeValueList.length % 2 ≠ 0 then [0, 0] else [])))))
    (frontLength : front.length = 8 + (size + size % 2) * 2)
    (readsRows : (base + front.length) % 4 = 0 →
      ∃ reads, readRows ⟨kConnectorMagicNumber, resolution, UInt16.ofNat size, UInt16.ofNat size⟩
          base (front ++ rows) size front.length
        = .ok (reads, front.length + rows.length) ∧ List.Forall₂ read matrix reads) :
    ∃ connector, Connector.init base (front ++ rows) = .ok connector ∧
      List.Forall₂ read matrix connector.rows ∧
      (∀ rid, ∀ inside : rid < modeValueList.length,
        ((loadUnaligned16 (connector.defaultCost.drop (2 * rid))).toNat : Int) = modeValueList[rid]) ∧
      connector.resolution = resolution.toNat ∧ connector.cache = List.replicate kCacheSize 0 := by
  obtain ⟨metadata, isMetadata⟩ : ∃ metadata : Metadata, metadata = ⟨kConnectorMagicNumber,
    resolution, UInt16.ofNat size, UInt16.ofNat size⟩ := ⟨_, rfl⟩
  have sizeEq : (UInt16.ofNat size).toNat = size :=
    UInt16.toNat_ofNat_of_lt' (Nat.lt_succ_of_le sizeFits)
  have rsize : metadata.rsize.toNat = size := by rw [isMetadata, sizeEq]
  have front8 : front.length = 8 + metadata.defaultCostArraySize * 2 := by
    rw [frontLength, Metadata.defaultCostArraySize, rsize]
  obtain ⟨reads, readAll, readsAll⟩ := readsRows (by rw [frontLength]; omega)
  rw [← isMetadata, front8] at readAll
  have imageLength : (front ++ rows).length
      = 8 + metadata.defaultCostArraySize * 2 + rows.length := by
    rw [List.length_append, front8]
  -- What stands at the numbers of the header.
  obtain ⟨image, imageEq⟩ : ∃ image, image = front ++ rows := ⟨_, rfl⟩
  have atStart := imageEq
  rw [isFront] at atStart
  simp only [List.append_assoc] at atStart
  rw [← imageEq] at readAll imageLength ⊢
  have atResolution := drop_add_of_append ((List.drop_zero).trans atStart) (length_storeUnaligned16 _)
  have atRsize := drop_add_of_append atResolution (length_storeUnaligned16 _)
  have atLsize := drop_add_of_append atRsize (length_storeUnaligned16 _)
  have atDefault := drop_add_of_append atLsize (length_storeUnaligned16 _)
  simp only [Nat.zero_add, Nat.reduceAdd] at atResolution atRsize atLsize atDefault
  have parsed : parseMetadata image = .ok metadata := by
    rw [parseMetadata, if_neg (by rw [imageLength, Metadata.kByteSize]; omega)]
    simp only [atResolution, atRsize, atLsize, loadUnaligned16_store]
    rw [atStart, loadUnaligned16_store, isMetadata]
    exact (if_neg (not_not.2 rfl)).trans (if_neg (not_not.2 rfl))
  refine ⟨⟨reads, image.drop 8, resolution.toNat, List.replicate kCacheSize 0⟩, ?_, readsAll, ?_, rfl,
    rfl⟩
  · rw [Connector.init, parsed]
    show (validateSize metadata image Metadata.kByteSize _ _ >>= _) = _
    rw [validateSize_ok (by rw [imageLength, Metadata.kByteSize]; omega)]
    show (validateAlignment metadata base Metadata.kByteSize _ >>= _) = _
    rw [validateAlignment_ok (by rw [Metadata.kByteSize]; omega), rsize]
    show (readRows metadata base image size (8 + _) >>= _) = _
    rw [readAll]
    show (validateSize metadata image _ 0 _ >>= _) = _
    rw [validateSize_ok (by rw [imageLength]; omega), isMetadata]
    rfl
  · intro rid inside
    have fits := modesFit _ (List.getElem_mem inside)
    have value := loadUnaligned16_flatMap (modeValueList.map fun value => UInt16.ofNat value.toNat)
      ((if modeValueList.length % 2 ≠ 0 then [0, 0] else []) ++ rows) (i := rid) (by simpa using inside)
    rw [List.getElem_map] at value
    show ((loadUnaligned16 ((image.drop 8).drop (2 * rid))).toNat : Int) = _
    rw [atDefault, value, toNat_ofNat_toNat fits]

/-- A connector of an image that was written. -/
structure Written (matrix : List (List (Option Int))) (modeValueList : List Int)
    (connector : Connector) : Prop where
  rows : List.Forall₂ Reads matrix connector.rows
  defaultCost : ∀ rid, ∀ inside : rid < modeValueList.length,
    ((loadUnaligned16 (connector.defaultCost.drop (2 * rid))).toNat : Int) = modeValueList[rid]
  resolution : connector.resolution = 1
  cache : connector.cache = List.replicate kCacheSize 0

/-- **An image that was written is accepted.** -/
theorem init_written {matrix : List (List (Option Int))} {modeValueList : List Int}
    {image : ByteString} (square : ∀ row ∈ matrix, row.length = matrix.length)
    (modes : modeValueList.length = matrix.length)
    (built : buildBinaryData matrix modeValueList false = some image) {base : Nat}
    (aligned : 4 ∣ base) :
    ∃ connector, Connector.init base image = .ok connector ∧
      Written matrix modeValueList connector := by
  obtain ⟨sizeFits, modesFit, rows, writtenRows, rfl⟩ := buildBinaryData_layout built
  have sizeEq : (UInt16.ofNat matrix.length).toNat = matrix.length :=
    UInt16.toNat_ofNat_of_lt' (Nat.lt_succ_of_le sizeFits)
  have frontLength : (imageFront matrix.length modeValueList).length
      = 8 + (matrix.length + matrix.length % 2) * 2 := by
    rw [length_imageFront, modes]
  obtain ⟨connector, accepted, readsAll, defaultCost, resolution, cache⟩ :=
    init_image sizeFits modes modesFit aligned _ rfl frontLength fun front => by
      have reads := @readRows_written ⟨kConnectorMagicNumber, 1, UInt16.ofNat matrix.length,
        UInt16.ofNat matrix.length⟩ base _ (fun row mem => sizeEq.trans (square row mem).symm) rfl
        _ _ writtenRows [] front
      rwa [List.append_nil] at reads
  exact ⟨connector, accepted, readsAll, defaultCost, resolution, cache⟩

namespace Connector

/-- A cost that is looked up is the one of the matrix. -/
theorem lookupCost_written {matrix : Matrix} {modeValueList : List Int}
    (modes : modeValueList.length = matrix.length) {connector : Connector}
    (written : Written (compressMatrixByModeValue matrix modeValueList) modeValueList connector)
    {rid lid : UInt16} (inRows : rid.toNat < matrix.length)
    (inRow : lid.toNat < matrix[rid.toNat].length) :
    connector.lookupCost rid lid = matrix[rid.toNat][lid.toNat] := by
  have inModes : rid.toNat < modeValueList.length := by rwa [modes]
  have inCompressed : rid.toNat < (compressMatrixByModeValue matrix modeValueList).length := by
    rw [compressMatrixByModeValue, List.length_zipWith]
    omega
  have inReads : rid.toNat < connector.rows.length := written.rows.length_eq ▸ inCompressed
  have compressed : (compressMatrixByModeValue matrix modeValueList)[rid.toNat]
      = matrix[rid.toNat].map fun cost => if cost = modeValueList[rid.toNat] then none else some cost :=
    List.getElem_zipWith
  have reads : Reads _ connector.rows[rid.toNat] := (List.forall₂_iff_get.1 written.rows).2 _ inCompressed inReads
  have value := reads lid (by
    show lid.toNat < ((compressMatrixByModeValue matrix modeValueList)[rid.toNat]).length
    rwa [compressed, List.length_map])
  simp only [List.get_eq_getElem, compressed, List.getElem_map] at value
  rw [lookupCost, List.getElem?_eq_getElem inReads, Option.bind_some]
  cases found : connector.rows[rid.toNat].getValue lid with
  | none =>
      rw [found, Option.map_none] at value
      have default := written.defaultCost rid.toNat inModes
      split at value
      · next isMode => exact default.trans isMode.symm
      · cases value
  | some read =>
      rw [found, Option.map_some] at value
      split at value
      · cases value
      · show (read.toNat : Int) * connector.resolution = _
        rw [written.resolution, Int.mul_one]
        exact Option.some.inj value

theorem lookupCost_fits {connector : Connector} (one : connector.resolution = 1) (rid lid : UInt16) :
    0 ≤ connector.lookupCost rid lid ∧ connector.lookupCost rid lid < 2 ^ 31 := by
  have less : ∀ value : UInt16, (0 : Int) ≤ value.toNat ∧ (value.toNat : Int) < 2 ^ 31 := by
    intro value
    have := value.toNat_lt
    omega
  rw [lookupCost]
  split
  · exact less _
  · rw [one, Int.mul_one]
    exact less _

/-! ## The cache -/

theorem toNat_indexOf (rid lid : UInt16) :
    (indexOf rid lid).toNat = rid.toNat * 2 ^ 16 + lid.toNat := by
  have rless := rid.toNat_lt
  have lless := lid.toNat_lt
  rw [indexOf, UInt32.toNat_or, UInt32.toNat_shiftLeft, UInt16.toNat_toUInt32, UInt16.toNat_toUInt32]
  change rid.toNat <<< 16 % 2 ^ 32 ||| lid.toNat = _
  rw [Nat.mod_eq_of_lt (by rw [Nat.shiftLeft_eq]; omega), ← Nat.shiftLeft_add_eq_or_of_lt lless,
    Nat.shiftLeft_eq]

theorem indexOf_inj {rid lid rid' lid' : UInt16} (same : indexOf rid lid = indexOf rid' lid') :
    rid = rid' ∧ lid = lid' := by
  have eq := congrArg UInt32.toNat same
  rw [toNat_indexOf, toNat_indexOf] at eq
  have lless := lid.toNat_lt
  have lless' := lid'.toNat_lt
  exact ⟨UInt16.toNat_inj.1 (by omega), UInt16.toNat_inj.1 (by omega)⟩

theorem toNat_cacheValue (value : Int) (index : UInt32) :
    (cacheValue value index).toNat = (UInt64.ofInt value).toNat % 2 ^ 32 * 2 ^ 32 + index.toNat := by
  have less := index.toNat_lt
  rw [cacheValue, UInt64.toNat_or, UInt64.toNat_shiftLeft, UInt32.toNat_toUInt64]
  change (UInt64.ofInt value).toNat <<< 32 % 2 ^ 64 ||| index.toNat = _
  rw [Nat.shiftLeft_eq, show (2 : Nat) ^ 64 = 2 ^ 32 * 2 ^ 32 from rfl, Nat.mul_mod_mul_right,
    ← Nat.shiftLeft_eq, ← Nat.shiftLeft_add_eq_or_of_lt less]

theorem toUInt32_cacheValue (value : Int) (index : UInt32) :
    (cacheValue value index).toUInt32 = index := by
  refine UInt32.toNat_inj.1 ?_
  have less := index.toNat_lt
  rw [UInt64.toNat_toUInt32, toNat_cacheValue]
  omega

/-- The cost of an entry. -/
theorem cost_cacheValue {value : Int} (fits : 0 ≤ value ∧ value < 2 ^ 31) (index : UInt32) :
    (cacheValue value index >>> 32).toUInt32.toInt32.toInt = value := by
  have less := index.toNat_lt
  have number : (UInt64.ofInt value).toNat = value.toNat := by
    rw [UInt64.ofInt, UInt64.toNat_ofNat']
    omega
  have shifted : (cacheValue value index >>> 32).toUInt32.toNat = value.toNat := by
    rw [UInt64.toNat_toUInt32, UInt64.toNat_shiftRight, toNat_cacheValue, number]
    change (_ >>> 32) % 2 ^ 32 = _
    rw [Nat.shiftRight_eq_div_pow]
    omega
  show (cacheValue value index >>> 32).toUInt32.toBitVec.toInt = value
  rw [BitVec.toInt_eq_toNat_of_lt (by show 2 * (cacheValue value index >>> 32).toUInt32.toNat < 2 ^ 32; omega)]
  show ((cacheValue value index >>> 32).toUInt32.toNat : Int) = value
  omega

theorem getD_set_or {α : Type} [Zero α] (xs : List α) (i : Nat) (x : α) (j : Nat) :
    (xs.set i x).getD j 0 = x ∨ (xs.set i x).getD j 0 = xs.getD j 0 := by
  simp only [List.getD_eq_getElem?_getD, List.getElem?_set]
  split
  · next same =>
      subst same
      split
      · exact .inl rfl
      · next outside => exact .inr (by rw [List.getElem?_eq_none (Nat.le_of_not_lt outside)])
  · exact .inr rfl

/-- Every entry that is found has the cost of its pair. -/
def CacheSound (size : Nat) (connector : Connector) : Prop :=
  ∀ rid lid : UInt16, rid.toNat < size → lid.toNat < size →
    (connector.cache.getD (bucketOf rid lid).toNat 0).toUInt32 = indexOf rid lid →
      (connector.cache.getD (bucketOf rid lid).toNat 0 >>> 32).toUInt32.toInt32.toInt
        = connector.lookupCost rid lid

/-- What a lookup keeps: the cost of every pair, and the soundness of the cache. -/
theorem getTransitionCost_keeps {size : Nat} {connector : Connector} (sound : connector.CacheSound size)
    (fits : ∀ rid lid : UInt16, rid.toNat < size → lid.toNat < size →
      0 ≤ connector.lookupCost rid lid ∧ connector.lookupCost rid lid < 2 ^ 31)
    (rid lid : UInt16) :
    (connector.getTransitionCost rid lid).1.lookupCost = connector.lookupCost ∧
      (connector.getTransitionCost rid lid).1.CacheSound size := by
  rw [getTransitionCost]
  dsimp only
  split
  · exact ⟨rfl, sound⟩
  · refine ⟨rfl, fun rid' lid' inRows inRow => ?_⟩
    rcases getD_set_or connector.cache (bucketOf rid lid).toNat
      (cacheValue (connector.lookupCost rid lid) (indexOf rid lid)) (bucketOf rid' lid').toNat
      with stored | kept
    · simp only [stored, toUInt32_cacheValue]
      intro same
      obtain ⟨rfl, rfl⟩ := indexOf_inj same
      exact cost_cacheValue (fits rid lid inRows inRow) _
    · simp only [kept]
      exact sound rid' lid' inRows inRow

/-- The result of a lookup, with a sound cache. -/
theorem getTransitionCost_eq {size : Nat} {connector : Connector} (sound : connector.CacheSound size)
    {rid lid : UInt16} (inRows : rid.toNat < size) (inRow : lid.toNat < size) :
    (connector.getTransitionCost rid lid).2 = connector.lookupCost rid lid := by
  rw [getTransitionCost]
  dsimp only
  split
  · next found => exact sound rid lid inRows inRow found
  · rfl

/-- Lookups one after another keep what one lookup keeps. -/
theorem lookups_keeps {size : Nat} {connector : Connector} (sound : connector.CacheSound size)
    (fits : ∀ rid lid : UInt16, rid.toNat < size → lid.toNat < size →
      0 ≤ connector.lookupCost rid lid ∧ connector.lookupCost rid lid < 2 ^ 31)
    (pairs : List (UInt16 × UInt16)) :
    (connector.lookups pairs).lookupCost = connector.lookupCost ∧
      (connector.lookups pairs).CacheSound size := by
  induction pairs generalizing connector with
  | nil => exact ⟨rfl, sound⟩
  | cons pair pairs ih =>
      obtain ⟨same, soundNext⟩ := getTransitionCost_keeps sound fits pair.1 pair.2
      obtain ⟨sameAll, soundAll⟩ := ih soundNext (by rwa [same])
      exact ⟨sameAll.trans same, soundAll⟩

/-- An entry that was never filled is the entry of cost 0 of the pair (0, 0). -/
theorem cacheSound_empty {size : Nat} {connector : Connector}
    (empty : connector.cache = List.replicate kCacheSize 0)
    (zero : 0 < size → connector.lookupCost 0 0 = 0) : connector.CacheSound size := by
  intro rid lid inRows _ found
  have blank : connector.cache.getD (bucketOf rid lid).toNat 0 = 0 := by
    rw [empty, List.getD_eq_getElem?_getD, List.getElem?_replicate]
    split <;> rfl
  rw [blank] at found ⊢
  have origin : indexOf 0 0 = indexOf rid lid := found
  obtain ⟨rfl, rfl⟩ := indexOf_inj origin
  exact (zero inRows).symm

/-! ## Round trip -/

/-- **A connector returns the costs of the matrix that its image was built from, whatever was
looked up before.** -/
theorem transitionCost_roundTrips {matrix : Matrix} (produced : Produced matrix) {image : ByteString}
    (built : connectionImage matrix false = some image) {base : Nat} (aligned : 4 ∣ base) :
    ∃ connector, Connector.init base image = .ok connector ∧
      ∀ earlier : List (UInt16 × UInt16), ∀ rid lid : UInt16,
        rid.toNat < matrix.length → lid.toNat < matrix.length →
          ((connector.lookups earlier).getTransitionCost rid lid).2
            = (matrix.getD rid.toNat []).getD lid.toNat 0 := by
  obtain ⟨modeValueList, created, built⟩ := Option.bind_eq_some_iff.1 built
  have modes := length_createModeValueList created
  obtain ⟨sameLength, square⟩ := compressMatrixByModeValue_square modes produced.square
  obtain ⟨connector, accepted, written⟩ := init_written (fun row mem => (square row mem).trans sameLength.symm)
    (modes.trans sameLength.symm) built aligned
  have cost : ∀ rid lid : UInt16, rid.toNat < matrix.length → lid.toNat < matrix.length →
      connector.lookupCost rid lid = (matrix.getD rid.toNat []).getD lid.toNat 0 := by
    intro rid lid inRows inRow
    have rowLength := produced.square _ (List.getElem_mem inRows)
    rw [List.getD_eq_getElem _ _ inRows, List.getD_eq_getElem _ _ (by rwa [rowLength])]
    exact lookupCost_written modes written inRows (by rwa [rowLength])
  have sound : connector.CacheSound matrix.length :=
    cacheSound_empty written.cache fun positive => (cost 0 0 positive positive).trans produced.zero
  have fits := fun rid lid (_ : rid.toNat < matrix.length) (_ : lid.toNat < matrix.length) =>
    lookupCost_fits written.resolution rid lid
  refine ⟨connector, accepted, fun earlier rid lid inRows inRow => ?_⟩
  obtain ⟨same, soundLater⟩ := lookups_keeps sound fits earlier
  rw [getTransitionCost_eq soundLater inRows inRow, same, cost rid lid inRows inRow]

/-- A matrix with a special part of speech, built and read. -/
theorem transitionCost_roundTrips_threeRows :
    ∃ image connector, connectionImage [[0, 5, 5], [3, 30000, 9], [1, 2, 1]] false = some image ∧
      Connector.init 32 image = .ok connector ∧
        ((connector.lookups [(0, 0), (1, 2), (2, 1)]).getTransitionCost 1 1).2 = 30000 := by
  have produced : Produced [[0, 5, 5], [3, 30000, 9], [1, 2, 1]] := ⟨by decide, rfl⟩
  obtain ⟨image, built⟩ := Option.isSome_iff_exists.1
    (show (connectionImage [[0, 5, 5], [3, 30000, 9], [1, 2, 1]] false).isSome by decide +kernel)
  obtain ⟨connector, accepted, costs⟩ := @transitionCost_roundTrips _ produced _ built 32 (by decide)
  exact ⟨image, connector, built, accepted, costs _ 1 1 (by decide) (by decide)⟩

end Connector

end Mozkey.Converter
