import Mozkey.Storage.SimpleSuccinctBitVectorIndex
import Mozkey.Storage.ExistenceFilter

/-!
# The boundary table of the segmenter

Whether there is a boundary between two parts of speech is decided by a function of two ids.
The generator puts the values of the function into a matrix, with a guard row and a guard
column of ones, merges equal rows and equal columns, and writes what is left as bits, with
two tables from ids to rows and columns.  The segmenter reads the bits.

The matrix is flattened with a stride that is one too small.  A guard cell of one column is
the first cell of the next one, and what was written last stands there.  So the segmenter
says what the function says, except for the id zero on the left, where it reads the guard.
-/

namespace Mozkey.Converter.SegmenterBitarray

open Mozkey.Storage

/-! ## Bit arrays -/

/-- `BitArray`: words of 32 bits. -/
structure BitArray where
  array : List UInt32
  size : UInt32
  deriving DecidableEq, Repr

namespace BitArray

/-- `BitArray(size)`. -/
def new (size : UInt32) : BitArray where
  array := List.replicate (1 + (size >>> 5).toNat) 0
  size := size

def get (barray : BitArray) (index : UInt32) : Bool :=
  ((barray.array.getD (index >>> 5).toNat 0 >>> (index &&& 0x1F)) &&& 1) != 0

def set (barray : BitArray) (index : UInt32) : BitArray :=
  { barray with
    array := barray.array.modify (index >>> 5).toNat fun word => word ||| 1 <<< (index &&& 0x1F) }

def clear (barray : BitArray) (index : UInt32) : BitArray :=
  { barray with
    array := barray.array.modify (index >>> 5).toNat fun word =>
      word &&& ~~~(1 <<< (index &&& 0x1F)) }

/-- The bytes that `array()` points to, `array_size()` of them. -/
def bytes (barray : BitArray) : ByteString := barray.array.flatMap storeUnaligned32

/-- `GetValue`. -/
def getValue (array : ByteString) (index : UInt32) : Bool :=
  ((byteAt array (index >>> 3).toNat >>> UInt8.ofNat (index &&& 7).toNat) &&& 1) != 0

end BitArray

/-! ## Tables of states -/

/-- `StateTable`: rows, and a number for every row. -/
structure StateTable where
  idarray : List ByteString
  compressedTable : List UInt16
  compressedSize : Nat
  deriving DecidableEq, Repr

namespace StateTable

/-- `StateTable(size)`. -/
def new (size : Nat) : StateTable := ⟨List.replicate size [], [], 0⟩

/-- `Add`. -/
def add (table : StateTable) (id : UInt16) (str : ByteString) : Option StateTable :=
  if id.toNat < table.idarray.length then
    some { table with idarray := table.idarray.set id.toNat str }
  else none

/-- The loop of `Build`: a row that was seen keeps its number, another one takes the next. -/
def buildLoop : List ByteString → List (ByteString × UInt16) → UInt16 →
    List UInt16 × List (ByteString × UInt16)
  | [], dup, _ => ([], dup)
  | str :: strs, dup, id =>
      match dup.lookup str with
      | some old => (old :: (buildLoop strs dup id).1, (buildLoop strs dup id).2)
      | none =>
          (id :: (buildLoop strs ((str, id) :: dup) (id + 1)).1,
            (buildLoop strs ((str, id) :: dup) (id + 1)).2)

/-- `Build`. -/
def build (table : StateTable) : Option StateTable := do
  let (compressedTable, dup) := buildLoop table.idarray [] 0
  let compressedSize := dup.length
  guard ((table.idarray.zip compressedTable).all fun (str, id) =>
    decide (id.toNat < compressedSize) && dup.lookup str == some id)
  guard (compressedSize < table.idarray.length)
  return { table with compressedTable := compressedTable, compressedSize := compressedSize }

/-- `id`. -/
def id (table : StateTable) (id : UInt16) : Option UInt16 :=
  if id.toNat < table.idarray.length then some (table.compressedTable.getD id.toNat 0) else none

/-- `Output`. -/
def output (table : StateTable) : ByteString := table.compressedTable.flatMap storeUnaligned16

end StateTable

/-! ## The generator -/

/-- An `int`, compared with a `size_t`. -/
def toSize (size : Int32) : Nat := (size.toInt % 2 ^ 64).toNat

/-- The cells of the matrix, in the order of the loops. -/
def cells (lsize rsize : Int32) : List (Nat × Nat) :=
  (List.range (toSize lsize + 1)).flatMap fun rid =>
    (List.range (toSize rsize + 1)).map fun lid => (rid, lid)

/-- `rid + lsize * lid`. -/
def cellIndex (lsize : Int32) (rid lid : Nat) : UInt32 :=
  UInt32.ofNat rid + lsize.toUInt32 * UInt32.ofNat lid

/-- What is written into a cell. -/
def cellValue (lsize rsize : Int32) (isBoundary : UInt16 → UInt16 → Bool) (rid lid : Nat) : UInt8 :=
  if rid = toSize lsize ∨ lid = toSize rsize then 1
  else if isBoundary (UInt16.ofNat rid) (UInt16.ofNat lid) then 1
  else 0

/-- `std::vector<uint8_t> array((lsize + 1) * (rsize + 1))`; a negative size throws. -/
def newArray (lsize rsize : Int32) : Option (List UInt8) :=
  let size := (lsize + 1) * (rsize + 1)
  if size < 0 then none else some (List.replicate size.toInt.toNat 0)

/-- The loop that loads the matrix. -/
def loadArray (lsize rsize : Int32) (isBoundary : UInt16 → UInt16 → Bool) :
    List (Nat × Nat) → List UInt8 → Option (List UInt8)
  | [], array => some array
  | (rid, lid) :: rest, array =>
      if (cellIndex lsize rid lid).toNat < array.length then
        loadArray lsize rsize isBoundary rest
          (array.set (cellIndex lsize rid lid).toNat (cellValue lsize rsize isBoundary rid lid))
      else none

/-- `array[index]`. -/
def cellAt (lsize : Int32) (array : List UInt8) (rid lid : Nat) : UInt8 :=
  array.getD (cellIndex lsize rid lid).toNat 0

/-- A row, for the left states. -/
def leftRow (lsize rsize : Int32) (array : List UInt8) (rid : Nat) : ByteString :=
  (List.range (toSize rsize + 1)).map fun lid => cellAt lsize array rid lid

/-- A column, for the right states. -/
def rightColumn (lsize : Int32) (array : List UInt8) (lid : Nat) : ByteString :=
  (List.range (toSize lsize + 1)).map fun rid => cellAt lsize array rid lid

/-- The loop that adds rows to a table. -/
def addAll (row : Nat → ByteString) (size : Nat) : Option StateTable :=
  (List.range size).foldlM (fun table id => table.add (UInt16.ofNat id) (row id)) (StateTable.new size)

/-- `ltable.id(rid) + kCompressedLSize * rtable.id(lid)`. -/
def compressedIndex (ltable rtable : StateTable) (rid lid : Nat) : Option UInt32 := do
  let left ← ltable.id (UInt16.ofNat rid)
  let right ← rtable.id (UInt16.ofNat lid)
  return left.toUInt32 + UInt32.ofNat ltable.compressedSize * right.toUInt32

/-- One round of the loop that makes the bit array. -/
def storeCell (lsize : Int32) (array : List UInt8) (ltable rtable : StateTable) (barray : BitArray)
    (cell : Nat × Nat) : Option BitArray := do
  let cindex ← compressedIndex ltable rtable cell.1 cell.2
  return if 0 < cellAt lsize array cell.1 cell.2 then barray.set cindex else barray.clear cindex

/-- The check of one cell. -/
def verifyCell (lsize : Int32) (array : List UInt8) (ltable rtable : StateTable) (barray : BitArray)
    (cell : Nat × Nat) : Bool :=
  match compressedIndex ltable rtable cell.1 cell.2 with
  | some cindex => barray.get cindex == (cellAt lsize array cell.1 cell.2 != 0)
  | none => false

/-- What the generator writes into its four files. -/
structure SegmenterData where
  compressedLSize : Nat
  compressedRSize : Nat
  ltable : ByteString
  rtable : ByteString
  bitarray : ByteString
  deriving DecidableEq, Repr

/-- `SegmenterBitarrayGenerator::GenerateBitarray`; `none` where it does not complete. -/
def generateBitarray (lsize rsize : Int32) (isBoundary : UInt16 → UInt16 → Bool) :
    Option SegmenterData := do
  let new ← newArray lsize rsize
  let array ← loadArray lsize rsize isBoundary (cells lsize rsize) new
  let lrows ← addAll (leftRow lsize rsize array) (toSize lsize + 1)
  let rcolumns ← addAll (rightColumn lsize array) (toSize rsize + 1)
  let rtable ← rcolumns.build
  let ltable ← lrows.build
  guard (0 < ltable.compressedSize)
  guard (0 < rtable.compressedSize)
  let barray ← (cells lsize rsize).foldlM (storeCell lsize array ltable rtable)
    (BitArray.new (UInt32.ofNat (ltable.compressedSize * rtable.compressedSize)))
  guard ((cells lsize rsize).all (verifyCell lsize array ltable rtable barray))
  guard (0 < barray.size)
  return ⟨ltable.compressedSize, rtable.compressedSize, ltable.output, rtable.output, barray.bytes⟩

/-! ## The reader -/

/-- An element of a table of the segmenter. -/
def tableAt (table : ByteString) (id : UInt16) : UInt16 := loadUnaligned16 (table.drop (2 * id.toNat))

/-- `Segmenter::IsBoundary(rid, lid)`. -/
def SegmenterData.isBoundary (data : SegmenterData) (rid lid : UInt16) : Bool :=
  let bitarrayIndex := (tableAt data.ltable rid).toUInt32 +
    UInt32.ofNat data.compressedLSize * (tableAt data.rtable lid).toUInt32
  BitArray.getValue data.bitarray bitarrayIndex

/-- The ids are inside the sizes the table was made for. -/
def Inside (lsize rsize : Int32) (rid lid : UInt16) : Prop :=
  (rid.toNat : Int) < lsize.toInt ∧ (lid.toNat : Int) < rsize.toInt

/-- The segmenter says what the function says. -/
def Agrees (lsize rsize : Int32) (isBoundary : UInt16 → UInt16 → Bool) (data : SegmenterData) : Prop :=
  ∀ rid lid, Inside lsize rsize rid lid → data.isBoundary rid lid = isBoundary rid lid

/-! ## The cells -/

section
variable {lsize rsize : Int32}

theorem mem_cells {rid lid : Nat} :
    (rid, lid) ∈ cells lsize rsize ↔ rid ≤ toSize lsize ∧ lid ≤ toSize rsize := by
  simp only [cells, List.mem_flatMap, List.mem_map, List.mem_range, Prod.mk.injEq,
    Nat.lt_succ_iff]
  constructor
  · rintro ⟨_, row, _, column, rfl, rfl⟩
    exact ⟨row, column⟩
  · rintro ⟨row, column⟩
    exact ⟨rid, row, lid, column, rfl, rfl⟩

/-- A cell is before another one in the order of the loops. -/
def Before (cell other : Nat × Nat) : Prop :=
  cell.1 < other.1 ∨ cell.1 = other.1 ∧ cell.2 < other.2

theorem pairwise_cells (lsize rsize : Int32) : (cells lsize rsize).Pairwise Before := by
  refine List.pairwise_flatMap.2 ⟨fun rid _ => ?_, ?_⟩
  · refine List.pairwise_map.2 (List.pairwise_lt_range.imp fun less => ?_)
    exact Or.inr ⟨rfl, less⟩
  · refine List.pairwise_lt_range.imp fun less cell inRow other inOther => ?_
    obtain ⟨_, _, rfl⟩ := List.mem_map.1 inRow
    obtain ⟨_, _, rfl⟩ := List.mem_map.1 inOther
    exact Or.inl less

/-- What the loading loop leaves: every index is inside, and a cell that no later one shares its
index with holds its value. -/
theorem loadArray_spec {isBoundary : UInt16 → UInt16 → Bool} {list : List (Nat × Nat)}
    {array filled : List UInt8} (loaded : loadArray lsize rsize isBoundary list array = some filled) :
    filled.length = array.length ∧
      (∀ cell ∈ list, (cellIndex lsize cell.1 cell.2).toNat < array.length) ∧
      ∀ i, (∀ cell ∈ list, (cellIndex lsize cell.1 cell.2).toNat ≠ i) →
        filled.getD i 0 = array.getD i 0 := by
  induction list generalizing array with
  | nil =>
      cases loaded
      exact ⟨rfl, fun _ member => absurd member List.not_mem_nil, fun _ _ => rfl⟩
  | cons cell rest ih =>
      obtain ⟨rid, lid⟩ := cell
      rw [loadArray] at loaded
      split at loaded
      · next inside =>
        obtain ⟨length, indices, others⟩ := ih loaded
        rw [List.length_set] at length indices
        refine ⟨length, List.forall_mem_cons.2 ⟨inside, indices⟩, fun i differ => ?_⟩
        obtain ⟨first, behind⟩ := List.forall_mem_cons.1 differ
        rw [others i behind, List.getD_eq_getElem?_getD, List.getElem?_set_ne first,
          ← List.getD_eq_getElem?_getD]
      · cases loaded

theorem cellAt_loadArray {isBoundary : UInt16 → UInt16 → Bool} {front back : List (Nat × Nat)}
    {rid lid : Nat} {array filled : List UInt8}
    (loaded : loadArray lsize rsize isBoundary (front ++ (rid, lid) :: back) array = some filled)
    (last : ∀ cell ∈ back, (cellIndex lsize cell.1 cell.2).toNat ≠ (cellIndex lsize rid lid).toNat) :
    cellAt lsize filled rid lid = cellValue lsize rsize isBoundary rid lid := by
  induction front generalizing array with
  | nil =>
      rw [List.nil_append, loadArray] at loaded
      split at loaded
      · next inside =>
        rw [cellAt, (loadArray_spec loaded).2.2 _ last, List.getD_eq_getElem?_getD,
          List.getElem?_set_self inside, Option.getD_some]
      · cases loaded
  | cons cell front ih =>
      rw [List.cons_append, loadArray] at loaded
      split at loaded
      · exact ih loaded
      · cases loaded

/-- **The last of the cells that share an index** is what stands in the array. -/
theorem cellAt_of_last {isBoundary : UInt16 → UInt16 → Bool} {rid lid : Nat} {array filled : List UInt8}
    (loaded : loadArray lsize rsize isBoundary (cells lsize rsize) array = some filled)
    (member : (rid, lid) ∈ cells lsize rsize)
    (last : ∀ cell ∈ cells lsize rsize, Before (rid, lid) cell →
      (cellIndex lsize cell.1 cell.2).toNat ≠ (cellIndex lsize rid lid).toNat) :
    cellAt lsize filled rid lid = cellValue lsize rsize isBoundary rid lid := by
  obtain ⟨front, back, split⟩ := List.append_of_mem member
  have later : ∀ cell ∈ back, Before (rid, lid) cell := by
    have ordered := pairwise_cells lsize rsize
    rw [split] at ordered
    exact (List.pairwise_cons.1 (List.pairwise_append.1 ordered).2.1).1
  rw [split] at loaded last
  refine cellAt_loadArray loaded fun cell inBack => last cell ?_ (later cell inBack)
  exact List.mem_append_right _ (List.mem_cons_of_mem _ inBack)

/-! ## The stride -/

theorem toSize_eq {size : Int32} (positive : 0 < size) : (toSize size : Int) = size.toInt := by
  have least : 0 < size.toInt := Int32.lt_iff_toInt_lt.1 positive
  have most := size.toInt_lt
  rw [toSize]
  omega

theorem toNat_toUInt32 {size : Int32} (positive : 0 < size) : size.toUInt32.toNat = toSize size := by
  have eq := toSize_eq positive
  have least : 0 < size.toInt := Int32.lt_iff_toInt_lt.1 positive
  have value : size.toInt = (size.toUInt32.toNat : Int).bmod (2 ^ 32) :=
    BitVec.toInt_eq_toNat_bmod size.toBitVec
  have less := size.toUInt32.toNat_lt
  rw [Int.bmod_def] at value
  split at value <;> omega

theorem toNat_cellIndex (positive : 0 < lsize) (rid lid : Nat) :
    (cellIndex lsize rid lid).toNat = (rid + toSize lsize * lid) % 2 ^ 32 := by
  rw [cellIndex, UInt32.toNat_add, UInt32.toNat_mul, UInt32.toNat_ofNat', UInt32.toNat_ofNat',
    toNat_toUInt32 positive, Nat.add_mod, Nat.mod_mod, Nat.mod_mod, Nat.add_mod rid, Nat.mul_mod,
    Nat.mod_mod, ← Nat.mul_mod]

/-- The cells take every index up to the greatest one. -/
theorem exists_cell (positive : 0 < lsize) {i : Nat}
    (less : i ≤ toSize lsize * (toSize rsize + 1)) :
    ∃ rid lid, (rid, lid) ∈ cells lsize rsize ∧ rid + toSize lsize * lid = i := by
  have least : 0 < toSize lsize := by
    have eq := toSize_eq positive
    have := Int32.lt_iff_toInt_lt.1 positive
    rw [Int32.toInt_zero] at this
    omega
  by_cases inColumns : i / toSize lsize ≤ toSize rsize
  · refine ⟨i % toSize lsize, i / toSize lsize, ?_, Nat.mod_add_div i _⟩
    exact mem_cells.2 ⟨(Nat.mod_lt i least).le, inColumns⟩
  · have atEnd : i = toSize lsize * (toSize rsize + 1) := by
      refine le_antisymm less ?_
      rw [Nat.mul_comm]
      exact (Nat.le_div_iff_mul_le least).1 (Nat.lt_of_not_le inColumns)
    refine ⟨toSize lsize, toSize rsize, mem_cells.2 ⟨le_rfl, le_rfl⟩, ?_⟩
    rw [atEnd, Nat.mul_add, Nat.mul_one, Nat.add_comm]

/-- When the loading completes, no index was truncated. -/
theorem cellIndex_of_loaded {isBoundary : UInt16 → UInt16 → Bool} {new filled : List UInt8}
    (positive : 0 < lsize) (isNew : newArray lsize rsize = some new)
    (loaded : loadArray lsize rsize isBoundary (cells lsize rsize) new = some filled) {rid lid : Nat}
    (member : (rid, lid) ∈ cells lsize rsize) :
    (cellIndex lsize rid lid).toNat = rid + toSize lsize * lid := by
  have short : new.length < 2 ^ 31 := by
    unfold newArray at isNew
    have most := ((lsize + 1) * (rsize + 1)).toInt_lt
    dsimp only at isNew
    split at isNew
    · cases isNew
    · rw [← Option.some.inj isNew, List.length_replicate]
      omega
  have indices := (loadArray_spec loaded).2.1
  have greatest : toSize lsize * (toSize rsize + 1) < 2 ^ 31 := by
    by_contra large
    obtain ⟨rid', lid', cell, index⟩ := @exists_cell _ rsize positive _ (Nat.le_of_not_lt large)
    have inside := indices _ cell
    rw [toNat_cellIndex positive, index] at inside
    have value : 2 ^ 31 % 2 ^ 32 = 2 ^ 31 := rfl
    omega
  obtain ⟨row, column⟩ := mem_cells.1 member
  rw [toNat_cellIndex positive]
  refine Nat.mod_eq_of_lt ?_
  have product := Nat.mul_le_mul_left (toSize lsize) column
  rw [Nat.mul_add, Nat.mul_one] at greatest
  omega

/-- **What stands in the array** for ids inside: the guard of the column before where the left id
is zero, and else what the function says. -/
theorem cellAt_inside {isBoundary : UInt16 → UInt16 → Bool} {new filled : List UInt8} {rid lid : UInt16}
    (inside : Inside lsize rsize rid lid) (isNew : newArray lsize rsize = some new)
    (loaded : loadArray lsize rsize isBoundary (cells lsize rsize) new = some filled) :
    (cellAt lsize filled rid.toNat lid.toNat != 0) =
      (isBoundary rid lid || decide (rid = 0 ∧ 0 < lid)) := by
  obtain ⟨row, column⟩ := inside
  have positive : 0 < lsize := Int32.lt_iff_toInt_lt.2 (by rw [Int32.toInt_zero]; omega)
  have positive' : 0 < rsize := Int32.lt_iff_toInt_lt.2 (by rw [Int32.toInt_zero]; omega)
  have left := toSize_eq positive
  have right := toSize_eq positive'
  have index : ∀ {rid lid : Nat}, (rid, lid) ∈ cells lsize rsize →
      (cellIndex lsize rid lid).toNat = rid + toSize lsize * lid :=
    cellIndex_of_loaded positive isNew loaded
  have member : (rid.toNat, lid.toNat) ∈ cells lsize rsize := mem_cells.2 ⟨by omega, by omega⟩
  by_cases guarded : rid = 0 ∧ 0 < lid
  · -- the guard cell of the column before has the same index and is written later
    obtain ⟨rfl, above⟩ := guarded
    have above' : 0 < lid.toNat := UInt16.lt_iff_toNat_lt.1 above
    have guard_ : (toSize lsize, lid.toNat - 1) ∈ cells lsize rsize :=
      mem_cells.2 ⟨le_rfl, by omega⟩
    have same : (cellIndex lsize (0 : UInt16).toNat lid.toNat).toNat =
        (cellIndex lsize (toSize lsize) (lid.toNat - 1)).toNat := by
      rw [index member, index guard_, UInt16.toNat_zero]
      obtain ⟨before, eq⟩ := Nat.exists_eq_add_of_le' above'
      rw [eq, Nat.add_sub_cancel]
      ring
    have one : cellAt lsize filled (toSize lsize) (lid.toNat - 1) = 1 := by
      rw [cellAt_of_last loaded guard_, cellValue, if_pos (Or.inl rfl)]
      intro cell inCells later
      obtain ⟨rid', lid'⟩ := cell
      obtain ⟨row', _⟩ := mem_cells.1 inCells
      rw [index inCells, index guard_]
      rcases later with larger | ⟨sameRow, larger⟩
      · exact absurd larger (by simpa using row')
      · dsimp only at sameRow larger
        have product : toSize lsize * (lid.toNat - 1) < toSize lsize * lid' :=
          Nat.mul_lt_mul_of_pos_left larger (by omega)
        omega
    rw [cellAt, same, ← cellAt, one, decide_eq_true ⟨rfl, above⟩, Bool.or_true]
    rfl
  · have value : cellAt lsize filled rid.toNat lid.toNat =
        cellValue lsize rsize isBoundary rid.toNat lid.toNat := by
      refine cellAt_of_last loaded member ?_
      intro cell inCells later
      obtain ⟨rid', lid'⟩ := cell
      obtain ⟨row', column'⟩ := mem_cells.1 inCells
      rw [index inCells, index member]
      intro same
      rcases later with larger | ⟨sameRow, larger⟩
      · -- a later row with the same index is the guard row, and this one is row zero
        have below : lid' < lid.toNat := by
          by_contra above
          have product := Nat.mul_le_mul_left (toSize lsize) (Nat.le_of_not_lt above)
          omega
        have product : toSize lsize * (lid' + 1) ≤ toSize lsize * lid.toNat :=
          Nat.mul_le_mul_left _ below
        rw [Nat.mul_add, Nat.mul_one] at product
        refine guarded ⟨?_, ?_⟩
        · refine UInt16.toNat_inj.1 ?_
          rw [UInt16.toNat_zero]
          omega
        · refine UInt16.lt_iff_toNat_lt.2 ?_
          rw [UInt16.toNat_zero]
          omega
      · have product : toSize lsize * lid.toNat < toSize lsize * lid' :=
          Nat.mul_lt_mul_of_pos_left larger (by omega)
        omega
    rw [value, cellValue, if_neg (by omega), UInt16.ofNat_toNat, UInt16.ofNat_toNat,
      decide_eq_false guarded, Bool.or_false]
    cases isBoundary rid lid <;> rfl

end

/-! ## Words and bytes -/

/-- The bits of words, in bytes. -/
theorem bitsOf_flatMap_storeUnaligned32 (words : List UInt32) :
    bitsOf (words.flatMap storeUnaligned32) = words.flatMap fun word => lowBits 32 word.toNat := by
  induction words with
  | nil => rfl
  | cons word words ih =>
      rw [List.flatMap_cons, bitsOf_append, ih, List.flatMap_cons, storeUnaligned32,
        ← lowBits_loadUnaligned32, loadUnaligned32_store]

theorem getD_flatMap_lowBits (words : List UInt32) (index : Nat) :
    (words.flatMap fun word => lowBits 32 word.toNat).getD index false =
      (words.getD (index / 32) 0).toNat.testBit (index % 32) := by
  induction words generalizing index with
  | nil => exact (Nat.zero_testBit _).symm
  | cons word words ih =>
      rw [List.flatMap_cons]
      by_cases first : index < 32
      · rw [List.getD_append _ _ _ _ (by rwa [length_lowBits]), getD_lowBits first,
          Nat.div_eq_of_lt first, Nat.mod_eq_of_lt first]
        rfl
      · obtain ⟨i, rfl⟩ := Nat.exists_eq_add_of_le (Nat.le_of_not_lt first)
        rw [List.getD_append_right _ _ _ _ (by rw [length_lowBits]; omega), length_lowBits,
          Nat.add_sub_cancel_left, Nat.add_mod_left, Nat.add_div_left i (by omega), ih i]
        rfl

/-- **A bit of the bytes** is the bit of the words. -/
theorem getValue_bytes (barray : BitArray) (index : UInt32) :
    BitArray.getValue barray.bytes index = barray.get index := by
  have five : index &&& 0x1F = bitpos index := rfl
  have position : (bitpos index).toNat = index.toNat % 32 := toNat_bitpos index
  have three : (index &&& 7).toNat = index.toNat % 8 := by
    rw [UInt32.toNat_and]
    exact Nat.and_two_pow_sub_one_eq_mod index.toNat 3
  have word : (index >>> 5).toNat = index.toNat / 32 := by
    rw [UInt32.toNat_shiftRight, Nat.shiftRight_eq_div_pow]
    rfl
  have byte : (index >>> 3).toNat = index.toNat / 8 := by
    rw [UInt32.toNat_shiftRight, Nat.shiftRight_eq_div_pow]
    rfl
  rw [BitArray.getValue, SimpleSuccinctBitVectorIndex.shiftRight_and_one _ (by omega), byte, three, ← SimpleSuccinctBitVectorIndex.getD_bitsOf,
    BitArray.bytes, bitsOf_flatMap_storeUnaligned32, getD_flatMap_lowBits, BitArray.get, five,
    bit_eq_testBit _ _ (toNat_bitpos_lt index), position, word]

/-! ## Reading -/

theorem tableAt_output (table : StateTable) (id : UInt16) :
    tableAt table.output id = table.compressedTable.getD id.toNat 0 := by
  rw [tableAt, StateTable.output]
  by_cases inside : id.toNat < table.compressedTable.length
  · have read := loadUnaligned16_flatMap table.compressedTable [] inside
    rw [List.append_nil] at read
    rw [read, List.getD_eq_getElem _ _ inside]
  · rw [List.drop_of_length_le (by rw [length_flatMap_storeUnaligned16]; omega),
      List.getD_eq_default _ _ (Nat.le_of_not_lt inside)]
    rfl

/-- A run that completes: what it loaded, and the check of its last loop. -/
theorem generateBitarray_eq_some {lsize rsize : Int32} {isBoundary : UInt16 → UInt16 → Bool}
    {data : SegmenterData} (completes : generateBitarray lsize rsize isBoundary = some data) :
    ∃ new array ltable rtable barray, newArray lsize rsize = some new ∧
      loadArray lsize rsize isBoundary (cells lsize rsize) new = some array ∧
      (∀ cell ∈ cells lsize rsize, verifyCell lsize array ltable rtable barray cell = true) ∧
      data = ⟨ltable.compressedSize, rtable.compressedSize, ltable.output, rtable.output,
        barray.bytes⟩ := by
  simp only [generateBitarray, bind, Option.bind_eq_some_iff, Option.guard_eq_some', pure,
    Option.some.injEq] at completes
  obtain ⟨new, isNew, array, loaded, _, _, _, _, rtable, _, ltable, _, _, _, _, _, barray, _,
    _, verified, _, _, rfl⟩ := completes
  exact ⟨new, array, ltable, rtable, barray, isNew, loaded, List.all_eq_true.1 verified, rfl⟩

/-- **What the segmenter says** for ids inside. -/
theorem isBoundary_generated {lsize rsize : Int32} {isBoundary : UInt16 → UInt16 → Bool}
    {data : SegmenterData} (completes : generateBitarray lsize rsize isBoundary = some data)
    {rid lid : UInt16} (inside : Inside lsize rsize rid lid) :
    data.isBoundary rid lid = (isBoundary rid lid || decide (rid = 0 ∧ 0 < lid)) := by
  obtain ⟨new, array, ltable, rtable, barray, isNew, loaded, verified, rfl⟩ :=
    generateBitarray_eq_some completes
  rw [← cellAt_inside inside isNew loaded]
  obtain ⟨row, column⟩ := inside
  have left := @toSize_eq lsize (Int32.lt_iff_toInt_lt.2 (by rw [Int32.toInt_zero]; omega))
  have right := @toSize_eq rsize (Int32.lt_iff_toInt_lt.2 (by rw [Int32.toInt_zero]; omega))
  have member : (rid.toNat, lid.toNat) ∈ cells lsize rsize := mem_cells.2 ⟨by omega, by omega⟩
  have check := verified _ member
  rw [verifyCell, compressedIndex, UInt16.ofNat_toNat, UInt16.ofNat_toNat, StateTable.id,
    StateTable.id] at check
  rw [SegmenterData.isBoundary, tableAt_output, tableAt_output, getValue_bytes]
  split at check
  · next index isIndex =>
    split at isIndex
    · split at isIndex
      · rw [← Option.some.inj isIndex] at check
        exact eq_of_beq check
      · cases isIndex
    · cases isIndex
  · cases check

/-! ## Main result -/

/-- **The segmenter says what the function says** exactly when the function puts a boundary between
the id zero on the left and every other id but zero on the right. -/
theorem agrees_iff {lsize rsize : Int32} {isBoundary : UInt16 → UInt16 → Bool} {data : SegmenterData}
    (completes : generateBitarray lsize rsize isBoundary = some data) :
    Agrees lsize rsize isBoundary data ↔
      ∀ lid, 0 < lid → Inside lsize rsize 0 lid → isBoundary 0 lid = true := by
  constructor
  · intro agrees lid above inside
    rw [← agrees 0 lid inside, isBoundary_generated completes inside, decide_eq_true ⟨rfl, above⟩,
      Bool.or_true]
  · intro guarded rid lid inside
    rw [isBoundary_generated completes inside]
    by_cases first : rid = 0 ∧ 0 < lid
    · obtain ⟨rfl, above⟩ := first
      rw [guarded lid above inside, Bool.true_or]
    · rw [decide_eq_false first, Bool.or_false]

/-- A boundary behind the beginning of the sentence, and in front of a kind of words. -/
def behindBosOrBeforeTwo (rid lid : UInt16) : Bool := rid == 0 || lid == 2

/-- Two rows and two columns are alike, and the segmenter says what the function says. -/
theorem agrees_behindBosOrBeforeTwo :
    ∃ data, generateBitarray 3 3 behindBosOrBeforeTwo = some data ∧ data.compressedLSize = 2 ∧
      data.compressedRSize = 2 ∧ Agrees 3 3 behindBosOrBeforeTwo data := by
  have completes : generateBitarray 3 3 behindBosOrBeforeTwo =
      some ⟨2, 2, [0, 0, 1, 0, 1, 0, 0, 0], [0, 0, 0, 0, 1, 0, 1, 0], [13, 0, 0, 0]⟩ := by
    decide +kernel
  exact ⟨_, completes, rfl, rfl, (agrees_iff completes).2 fun _ _ _ => rfl⟩

/-- Between zero and one the function says there is no boundary, and the segmenter says that there
is one. -/
theorem not_agrees_first_row : ¬ ∀ (lsize rsize : Int32) (isBoundary : UInt16 → UInt16 → Bool)
    (data : SegmenterData), generateBitarray lsize rsize isBoundary = some data →
      Agrees lsize rsize isBoundary data := by
  intro agrees
  have completes : generateBitarray 2 2 (fun rid lid => !(rid == 0 && lid == 1)) =
      some ⟨1, 1, [0, 0, 0, 0, 0, 0], [0, 0, 0, 0, 0, 0], [1, 0, 0, 0]⟩ := by decide +kernel
  have inside : Inside 2 2 0 1 := ⟨by decide, by decide⟩
  have same := agrees 2 2 _ _ completes 0 1 inside
  rw [isBoundary_generated completes inside] at same
  exact absurd same (by decide)

end Mozkey.Converter.SegmenterBitarray
