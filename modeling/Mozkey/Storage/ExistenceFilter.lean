import Mozkey.Base.Bits

/-!
# The existence filter

A filter sets some bits for every hash value it is given, and says of a hash value that it
may exist when all of its bits are set.  The bits are spread over blocks of 2^21 bits, the
last of which may be shorter.  A filter is used where it was built, or written to bytes and
read from them.

Whatever was inserted exists, in the filter that was built and in the one that is read.
-/

namespace Mozkey.Storage

/-! ## The blocks of a bitmap -/

def kBlockWords : Nat := 2 ^ 16

/-- `BlockDimensions`. -/
structure BlockDimensions where
  count : UInt32
  lastSize : UInt32

def blockDimensions (bits : UInt32) : BlockDimensions :=
  let count := bits >>> 21
  let bitsInLastBlock := bits &&& 0x1FFFFF
  if bitsInLastBlock ≠ 0 then ⟨count + 1, (bitsInLastBlock + 31) / 32⟩
  else ⟨count, UInt32.ofNat kBlockWords⟩

/-- Blocks of words. -/
abbrev Blocks := List (List UInt32)

/-- `BlockBitmapBuilder`: blocks without a set bit. -/
def blockBitmapBuilder (size : UInt32) : Blocks :=
  let dimensions := blockDimensions size
  List.replicate (dimensions.count.toNat - 1) (List.replicate kBlockWords 0) ++
    [List.replicate dimensions.lastSize.toNat 0]

/-- The word of an index, as block and word in the block. -/
def bindex (index : UInt32) : Nat := (index >>> 21).toNat
def windex (index : UInt32) : Nat := ((index &&& 0x1FFFFF) >>> 5).toNat
def bitpos (index : UInt32) : UInt32 := index &&& 31

/-- `BlockBitmapBuilder::Set`. -/
def set (blocks : Blocks) (index : UInt32) : Blocks :=
  blocks.modify (bindex index) fun block =>
    block.modify (windex index) fun word => word ||| (1 <<< bitpos index)

/-- `BlockBitmap::Get`. -/
def get (blocks : Blocks) (index : UInt32) : Bool :=
  (((blocks.getD (bindex index) []).getD (windex index) 0 >>> bitpos index) &&& 1) != 0

/-- Blocks of a buffer, the last of them of a size of its own. -/
def splitBlocks : Nat → Nat → List UInt32 → Blocks
  | 0, lastSize, buf => [buf.take lastSize]
  | count + 1, lastSize, buf =>
      buf.take kBlockWords :: splitBlocks count lastSize (buf.drop kBlockWords)

/-- `BlockBitmap`, a view of a buffer. -/
def blockBitmap (size : UInt32) (buf : List UInt32) : Blocks :=
  let dimensions := blockDimensions size
  splitBlocks (dimensions.count.toNat - 1) dimensions.lastSize.toNat buf

/-! ## Filters -/

structure ExistenceFilterParams where
  size : UInt32
  expectedNelts : UInt32
  numHashes : UInt16
  fpType : UInt16
  deriving DecidableEq, Repr

/-- A filter, or the builder of one: parameters and blocks. -/
structure ExistenceFilter where
  params : ExistenceFilterParams
  rep : Blocks
  deriving DecidableEq, Repr

/-- `ExistenceFilterBuilder`. -/
def existenceFilterBuilder (params : ExistenceFilterParams) : ExistenceFilter where
  params := params
  rep := blockBitmapBuilder params.size

/-- `std::rotl(hash, 8)`. -/
def rotl8 (hash : UInt64) : UInt64 := hash <<< 8 ||| hash >>> 56

/-- The index of a hash value. -/
def indexOf (size : UInt32) (hash : UInt64) : UInt32 := (hash % size.toUInt64).toUInt32

/-- The loop of `Insert`. -/
def insertLoop (size : UInt32) : Nat → UInt64 → Blocks → Blocks
  | 0, _, rep => rep
  | n + 1, hash, rep => insertLoop size n (rotl8 hash) (set rep (indexOf size (rotl8 hash)))

/-- `ExistenceFilterBuilder::Insert`. -/
def ExistenceFilter.insert (builder : ExistenceFilter) (hash : UInt64) : ExistenceFilter :=
  { builder with
    rep := insertLoop builder.params.size builder.params.numHashes.toNat hash builder.rep }

/-- The loop of `Exists`. -/
def existsLoop (size : UInt32) : Nat → UInt64 → Blocks → Bool
  | 0, _, _ => true
  | n + 1, hash, rep =>
      if get rep (indexOf size (rotl8 hash)) then existsLoop size n (rotl8 hash) rep else false

/-- `ExistenceFilter::Exists`. -/
def ExistenceFilter.mayExist (filter : ExistenceFilter) (hash : UInt64) : Bool :=
  existsLoop filter.params.size filter.params.numHashes.toNat hash filter.rep

/-! ## Bytes -/

def kHeaderSize : Nat := 3

/-- `BitsToWords`. -/
def bitsToWords (bits : UInt32) : UInt32 :=
  let words := (bits + 31) >>> 5
  if 0 < bits ∧ words = 0 then (1 : UInt32) <<< 27 else words

/-- The bytes that `SerializeAsString` makes room for. -/
def requiredBytes (params : ExistenceFilterParams) : Nat :=
  (kHeaderSize + (bitsToWords params.size).toNat) * 4

/-- What `SerializeAsString` writes. -/
def writtenBytes (builder : ExistenceFilter) : ByteString :=
  storeUnaligned32 builder.params.size ++ storeUnaligned32 builder.params.expectedNelts ++
    storeUnaligned16 builder.params.numHashes ++ storeUnaligned16 builder.params.fpType ++
      builder.rep.flatten.flatMap storeUnaligned32

/-- `SerializeAsString`, into a buffer of the required size. -/
def ExistenceFilter.serializeAsString (builder : ExistenceFilter) : ByteString :=
  let required := requiredBytes builder.params
  let written := writtenBytes builder
  written.take required ++ List.replicate (required - written.length) 0

/-- `ReadHeader`. -/
def readHeader : List UInt32 → Option ExistenceFilterParams
  | size :: expectedNelts :: v :: _ =>
      let numHashes := (v &&& 0xFFFF).toUInt16
      let fpType := (v >>> 16).toUInt16
      if numHashes ≥ 8 ∨ numHashes ≤ 0 then none
      else if fpType ≥ 2 then none
      else some ⟨size, expectedNelts, numHashes, fpType⟩
  | _ => none

/-- `ExistenceFilter::Read`. -/
def ExistenceFilter.read (buf : List UInt32) : Option ExistenceFilter :=
  match readHeader buf with
  | none => none
  | some params =>
      let buf := buf.drop kHeaderSize
      if buf.length < (bitsToWords params.size).toNat then none
      else some ⟨params, blockBitmap params.size buf⟩

/-! ## One bit of a word -/

theorem bit_eq_testBit (word p : UInt32) (less : p.toNat < 32) :
    (((word >>> p) &&& 1) != 0) = word.toNat.testBit p.toNat := by
  have shifted : ((word >>> p) &&& 1).toNat = 1 &&& (word.toNat >>> p.toNat) := by
    rw [UInt32.toNat_and, UInt32.toNat_shiftRight, Nat.mod_eq_of_lt less, Nat.and_comm]
    rfl
  rw [Nat.testBit, ← shifted, Bool.eq_iff_iff, bne_iff_ne, bne_iff_ne, Ne, Ne, ← UInt32.toNat_inj]
  rfl

theorem toNat_one_shiftLeft (p : UInt32) (less : p.toNat < 32) :
    ((1 : UInt32) <<< p).toNat = 2 ^ p.toNat := by
  have small : 2 ^ p.toNat < 2 ^ 32 := Nat.pow_lt_pow_right (by decide) less
  rw [UInt32.toNat_shiftLeft, Nat.mod_eq_of_lt less, UInt32.toNat_one, Nat.one_shiftLeft,
    Nat.mod_eq_of_lt small]

theorem toNat_bitpos (index : UInt32) : (bitpos index).toNat = index.toNat % 2 ^ 5 := by
  rw [bitpos, UInt32.toNat_and]
  exact Nat.and_two_pow_sub_one_eq_mod index.toNat 5

theorem toNat_bitpos_lt (index : UInt32) : (bitpos index).toNat < 32 := by
  rw [toNat_bitpos]
  exact Nat.mod_lt _ (by decide)

/-! ## Setting and getting -/

/-- The word of an index is one of the blocks. -/
def InRange (blocks : Blocks) (index : UInt32) : Prop :=
  ∃ block, blocks[bindex index]? = some block ∧ windex index < block.length

theorem get_eq_testBit (blocks : Blocks) (index : UInt32) :
    get blocks index = ((blocks.getD (bindex index) []).getD (windex index) 0).toNat.testBit
      (bitpos index).toNat :=
  bit_eq_testBit _ _ (toNat_bitpos_lt index)

/-- A word after a bit of some index was set. -/
theorem getD_set (blocks : Blocks) (index : UInt32) (b w : Nat) :
    ∃ mask : UInt32, ((set blocks index).getD b []).getD w 0 = (blocks.getD b []).getD w 0 ||| mask := by
  simp only [set, List.getD_eq_getElem?_getD, List.getElem?_modify]
  cases blocks[b]? with
  | none => exact ⟨0, by simp⟩
  | some block =>
      by_cases sameBlock : bindex index = b
      · simp only [if_pos sameBlock, Option.map_eq_map, Option.map_some, Option.getD_some,
          List.getElem?_modify]
        cases block[w]? with
        | none => exact ⟨0, by simp⟩
        | some word =>
            by_cases sameWord : windex index = w
            · exact ⟨1 <<< bitpos index, by simp [sameWord]⟩
            · exact ⟨0, by simp [sameWord]⟩
      · exact ⟨0, by simp [sameBlock]⟩

/-- Setting a bit keeps the others. -/
theorem get_set_of_get {blocks : Blocks} {index : UInt32} (other : UInt32)
    (isSet : get blocks index = true) : get (set blocks other) index = true := by
  obtain ⟨mask, word⟩ := getD_set blocks other (bindex index) (windex index)
  rw [get_eq_testBit] at isSet ⊢
  rw [word, UInt32.toNat_or, Nat.testBit_or, isSet, Bool.true_or]

/-- A bit that was set is set. -/
theorem get_set_self {blocks : Blocks} {index : UInt32} (inRange : InRange blocks index) :
    get (set blocks index) index = true := by
  obtain ⟨block, isBlock, less⟩ := inRange
  have word : ((set blocks index).getD (bindex index) []).getD (windex index) 0
      = block[windex index] ||| (1 <<< bitpos index) := by
    simp only [set, List.getD_eq_getElem?_getD, List.getElem?_modify_eq, isBlock,
      Option.map_eq_map, Option.map_some, Option.getD_some, List.getElem?_eq_getElem less]
  rw [get_eq_testBit, word, UInt32.toNat_or, Nat.testBit_or,
    toNat_one_shiftLeft _ (toNat_bitpos_lt index), Nat.testBit_two_pow_self, Bool.or_true]

/-! ## Dimensions -/

theorem toNat_bindex (index : UInt32) : bindex index = index.toNat / 2 ^ 21 := by
  rw [bindex, UInt32.toNat_shiftRight]
  exact Nat.shiftRight_eq_div_pow _ 21

theorem toNat_windex (index : UInt32) : windex index = index.toNat % 2 ^ 21 / 2 ^ 5 := by
  rw [windex, UInt32.toNat_shiftRight, UInt32.toNat_and]
  change (index.toNat &&& (2 ^ 21 - 1)) >>> 5 = _
  rw [Nat.and_two_pow_sub_one_eq_mod, Nat.shiftRight_eq_div_pow]

/-- The blocks have room for the bits, and not for a word more. -/
structure Dimensions (bits count lastSize : Nat) : Prop where
  count_pos : 0 < count
  bits_le : bits ≤ (count - 1) * 2 ^ 21 + lastSize * 32
  lt_bits : (count - 1) * 2 ^ 21 + lastSize * 32 < bits + 32
  lastSize_le : lastSize ≤ 2 ^ 16

theorem dimensions (bits : UInt32) (positive : bits ≠ 0) :
    Dimensions bits.toNat (blockDimensions bits).count.toNat
      (blockDimensions bits).lastSize.toNat := by
  have less := bits.toNat_lt
  have isPositive : bits.toNat ≠ 0 := fun zero => positive (UInt32.toNat_inj.1 zero)
  have count : (bits >>> 21).toNat = bits.toNat / 2 ^ 21 := by
    rw [UInt32.toNat_shiftRight]
    exact Nat.shiftRight_eq_div_pow _ 21
  have inLast : (bits &&& 0x1FFFFF).toNat = bits.toNat % 2 ^ 21 := by
    rw [UInt32.toNat_and]
    exact Nat.and_two_pow_sub_one_eq_mod _ 21
  rw [blockDimensions]
  by_cases whole : bits &&& 0x1FFFFF = 0
  · rw [if_neg (not_not.2 whole)]
    rw [whole, UInt32.toNat_zero] at inLast
    have last : (UInt32.ofNat kBlockWords).toNat = 2 ^ 16 := by decide
    dsimp only
    rw [count, last]
    constructor <;> omega
  · rw [if_pos whole]
    have isInLast : bits.toNat % 2 ^ 21 ≠ 0 := by
      rw [← inLast]
      exact fun zero => whole (UInt32.toNat_inj.1 zero)
    have countSucc : (bits >>> 21 + 1).toNat = bits.toNat / 2 ^ 21 + 1 := by
      rw [UInt32.toNat_add, count, UInt32.toNat_one, Nat.mod_eq_of_lt (by omega)]
    have last : (((bits &&& 0x1FFFFF) + 31) / 32).toNat = (bits.toNat % 2 ^ 21 + 31) / 32 := by
      rw [UInt32.toNat_div, UInt32.toNat_add, inLast]
      change (_ + 31) % 2 ^ 32 / 32 = _
      rw [Nat.mod_eq_of_lt (by omega)]
    dsimp only
    rw [countSucc, last]
    constructor <;> omega

/-- The words for some bits, also where the sum in `BitsToWords` goes round. -/
theorem toNat_bitsToWords (bits : UInt32) : (bitsToWords bits).toNat = (bits.toNat + 31) / 32 := by
  have less := bits.toNat_lt
  have shifted : ((bits + 31) >>> 5).toNat = (bits.toNat + 31) % 2 ^ 32 / 32 := by
    rw [UInt32.toNat_shiftRight, UInt32.toNat_add]
    exact Nat.shiftRight_eq_div_pow _ 5
  rw [bitsToWords]
  split
  · rename_i round
    rw [round.2, UInt32.toNat_zero] at shifted
    have positive := UInt32.lt_iff_toNat_lt.1 round.1
    rw [UInt32.toNat_zero] at positive
    change 2 ^ 27 = _
    omega
  · rename_i notRound
    rw [shifted]
    by_cases zero : (bits.toNat + 31) % 2 ^ 32 / 32 = 0
    · rw [← shifted] at zero
      have isZero : bits.toNat = 0 := by
        by_contra isPositive
        refine notRound ⟨UInt32.lt_iff_toNat_lt.2 ?_, UInt32.toNat_inj.1 zero⟩
        exact Nat.pos_of_ne_zero isPositive
      rw [isZero]
      rfl
    · omega

/-- Blocks of the sizes that the dimensions say. -/
def HasShape (bits : UInt32) (blocks : Blocks) : Prop :=
  blocks.map List.length =
    List.replicate ((blockDimensions bits).count.toNat - 1) kBlockWords ++
      [(blockDimensions bits).lastSize.toNat]

theorem hasShape_blockBitmapBuilder (bits : UInt32) : HasShape bits (blockBitmapBuilder bits) := by
  simp only [HasShape, blockBitmapBuilder, List.map_append, List.map_replicate,
    List.length_replicate, List.map_cons, List.map_nil]

theorem hasShape_set {bits : UInt32} {blocks : Blocks} (shape : HasShape bits blocks)
    (index : UInt32) : HasShape bits (set blocks index) := by
  have same : (set blocks index).map List.length = blocks.map List.length := by
    refine List.ext_getElem? fun b => ?_
    rw [List.getElem?_map, List.getElem?_map, set, List.getElem?_modify]
    cases blocks[b]? with
    | none => rfl
    | some block =>
        split
        · exact congrArg some (List.length_modify _ _ _)
        · rfl
  exact same.trans shape

/-- **Every index below the size is in range.** -/
theorem inRange_of_hasShape {bits : UInt32} {blocks : Blocks} (shape : HasShape bits blocks)
    {index : UInt32} (less : index < bits) : InRange blocks index := by
  have lessNat := UInt32.lt_iff_toNat_lt.1 less
  have positive : bits ≠ 0 := by
    rintro rfl
    exact Nat.not_lt_zero _ lessNat
  obtain ⟨countPos, bitsLe, _, lastLe⟩ := dimensions bits positive
  have lengths : (blocks[bindex index]?).map List.length
      = if index.toNat / 2 ^ 21 < (blockDimensions bits).count.toNat - 1 then some kBlockWords
        else some (blockDimensions bits).lastSize.toNat := by
    rw [← List.getElem?_map, shape, toNat_bindex]
    split
    · rename_i inner
      rw [List.getElem?_append_left (by rw [List.length_replicate]; exact inner),
        List.getElem?_replicate, if_pos inner]
    · rename_i outer
      rw [List.getElem?_append_right (by rw [List.length_replicate]; omega), List.length_replicate]
      have last : index.toNat / 2 ^ 21 - ((blockDimensions bits).count.toNat - 1) = 0 := by omega
      rw [last]
      rfl
  cases isBlock : blocks[bindex index]? with
  | none =>
      rw [isBlock, Option.map_none] at lengths
      split at lengths <;> cases lengths
  | some block =>
      refine ⟨block, isBlock, ?_⟩
      rw [isBlock, Option.map_some] at lengths
      rw [toNat_windex]
      split at lengths
      · have length : block.length = 2 ^ 16 := Option.some.inj lengths
        omega
      · have length := Option.some.inj lengths
        omega

/-- Blocks put one behind the other are split again. -/
theorem splitBlocks_flatten {blocks : Blocks} {count lastSize : Nat}
    (shape : blocks.map List.length = List.replicate count kBlockWords ++ [lastSize]) :
    splitBlocks count lastSize blocks.flatten = blocks := by
  induction count generalizing blocks with
  | zero =>
      obtain ⟨block, rest, rfl, length, shapeRest⟩ := List.map_eq_cons_iff.1 shape
      obtain rfl := List.map_eq_nil_iff.1 shapeRest
      rw [splitBlocks, List.flatten_singleton, ← length, List.take_length]
  | succ count ih =>
      rw [List.replicate_succ, List.cons_append] at shape
      obtain ⟨block, rest, rfl, length, shapeRest⟩ := List.map_eq_cons_iff.1 shape
      rw [splitBlocks, List.flatten_cons, ← length, List.take_left, List.drop_left, ih shapeRest]

theorem length_flatten_of_hasShape {bits : UInt32} (positive : bits ≠ 0) {blocks : Blocks}
    (shape : HasShape bits blocks) : blocks.flatten.length = (bitsToWords bits).toNat := by
  obtain ⟨countPos, bitsLe, ltBits, _⟩ := dimensions bits positive
  rw [List.length_flatten, shape, List.sum_append, List.sum_replicate, toNat_bitsToWords]
  simp only [List.sum_cons, List.sum_nil, smul_eq_mul, kBlockWords]
  omega

/-! ## Inserting -/

theorem indexOf_lt {size : UInt32} (positive : size ≠ 0) (hash : UInt64) :
    indexOf size hash < size := by
  have isPositive : 0 < size.toNat :=
    Nat.pos_of_ne_zero fun zero => positive (UInt32.toNat_inj.1 zero)
  have less := Nat.mod_lt hash.toNat isPositive
  rw [UInt32.lt_iff_toNat_lt, indexOf, UInt64.toNat_toUInt32, UInt64.toNat_mod,
    UInt32.toNat_toUInt64]
  exact (Nat.mod_le _ _).trans_lt less

/-- Inserting keeps the shape and the bits that are set. -/
theorem insertLoop_keeps {size : UInt32} (n : Nat) (hash : UInt64) {rep : Blocks}
    (shape : HasShape size rep) :
    HasShape size (insertLoop size n hash rep) ∧
      ∀ index, get rep index = true → get (insertLoop size n hash rep) index = true := by
  induction n generalizing hash rep with
  | zero => exact ⟨shape, fun _ isSet => isSet⟩
  | succ n ih =>
      obtain ⟨shape', keeps⟩ := ih (rotl8 hash) (hasShape_set shape (indexOf size (rotl8 hash)))
      exact ⟨shape', fun index isSet => keeps index (get_set_of_get _ isSet)⟩

/-- What exists still exists when more bits are set. -/
theorem existsLoop_of_keeps {size : UInt32} {n : Nat} {hash : UInt64} {rep rep' : Blocks}
    (keeps : ∀ index, get rep index = true → get rep' index = true)
    (isIn : existsLoop size n hash rep = true) : existsLoop size n hash rep' = true := by
  induction n generalizing hash with
  | zero => rfl
  | succ n ih =>
      rw [existsLoop] at isIn ⊢
      split at isIn
      · rename_i isSet
        rw [if_pos (keeps _ isSet)]
        exact ih isIn
      · exact absurd isIn Bool.false_ne_true

/-- **An inserted hash value exists.** -/
theorem existsLoop_insertLoop {size : UInt32} (positive : size ≠ 0) (n : Nat) (hash : UInt64)
    {rep : Blocks} (shape : HasShape size rep) :
    existsLoop size n hash (insertLoop size n hash rep) = true := by
  induction n generalizing hash rep with
  | zero => rfl
  | succ n ih =>
      have shape' := hasShape_set shape (indexOf size (rotl8 hash))
      have isSet : get (set rep (indexOf size (rotl8 hash))) (indexOf size (rotl8 hash)) = true :=
        get_set_self (inRange_of_hasShape shape (indexOf_lt positive _))
      rw [existsLoop, insertLoop, if_pos ((insertLoop_keeps n _ shape').2 _ isSet)]
      exact ih (rotl8 hash) shape'

/-- The builder after some insertions. -/
def built (params : ExistenceFilterParams) (hashes : List UInt64) : ExistenceFilter :=
  hashes.foldl ExistenceFilter.insert (existenceFilterBuilder params)

/-- What a builder keeps: the parameters, the shape, and that what was inserted exists. -/
structure Contains (params : ExistenceFilterParams) (builder : ExistenceFilter)
    (hashes : List UInt64) : Prop where
  params_eq : builder.params = params
  shape : HasShape params.size builder.rep
  mayExist : ∀ hash ∈ hashes, builder.mayExist hash = true

theorem contains_insert {params : ExistenceFilterParams} (positive : params.size ≠ 0)
    {builder : ExistenceFilter} {hashes : List UInt64} (contains : Contains params builder hashes)
    (hash : UInt64) : Contains params (builder.insert hash) (hash :: hashes) := by
  obtain ⟨rfl, shape, mayExist⟩ := contains
  have inserted := insertLoop_keeps builder.params.numHashes.toNat hash shape
  refine ⟨rfl, inserted.1, fun other member => ?_⟩
  rcases List.mem_cons.1 member with rfl | member
  · exact existsLoop_insertLoop positive _ _ shape
  · exact existsLoop_of_keeps inserted.2 (mayExist other member)

theorem contains_foldl {params : ExistenceFilterParams} (positive : params.size ≠ 0)
    (hashes : List UInt64) {builder : ExistenceFilter} {before : List UInt64}
    (contains : Contains params builder before) :
    Contains params (hashes.foldl ExistenceFilter.insert builder) (hashes.reverse ++ before) := by
  induction hashes generalizing builder before with
  | nil => exact contains
  | cons hash hashes ih =>
      rw [List.reverse_cons, List.append_assoc]
      exact ih (contains_insert positive contains hash)

theorem contains_built {params : ExistenceFilterParams} (positive : params.size ≠ 0)
    (hashes : List UInt64) : Contains params (built params hashes) hashes := by
  have begin : Contains params (existenceFilterBuilder params) [] :=
    ⟨rfl, hasShape_blockBitmapBuilder params.size, fun _ member => absurd member List.not_mem_nil⟩
  obtain ⟨params_eq, shape, mayExist⟩ := contains_foldl positive hashes begin
  refine ⟨params_eq, shape, fun hash member => mayExist hash ?_⟩
  rw [List.append_nil, List.mem_reverse]
  exact member

/-! ## Reading what was written -/

/-- Parameters that `CreateOptimal` may choose. -/
structure ExistenceFilterParams.Valid (params : ExistenceFilterParams) : Prop where
  size_ne_zero : params.size ≠ 0
  numHashes_pos : 1 ≤ params.numHashes
  numHashes_le : params.numHashes ≤ 7
  fpType_lt : params.fpType < 2

/-- What is written fills the buffer. -/
theorem length_writtenBytes {builder : ExistenceFilter} (positive : builder.params.size ≠ 0)
    (shape : HasShape builder.params.size builder.rep) :
    (writtenBytes builder).length = requiredBytes builder.params := by
  rw [writtenBytes, requiredBytes, List.length_append, length_flatMap_storeUnaligned32,
    length_flatten_of_hasShape positive shape, Nat.add_mul, Nat.mul_comm]
  rfl

theorem serializeAsString_eq {builder : ExistenceFilter} (positive : builder.params.size ≠ 0)
    (shape : HasShape builder.params.size builder.rep) :
    builder.serializeAsString = writtenBytes builder := by
  have length := length_writtenBytes positive shape
  rw [ExistenceFilter.serializeAsString, length, Nat.sub_self, List.replicate_zero,
    List.append_nil, ← length, List.take_length]

/-- **A filter is read as it was written.** -/
theorem read_serializeAsString {builder : ExistenceFilter} (valid : builder.params.Valid)
    (shape : HasShape builder.params.size builder.rep) :
    ExistenceFilter.read (loadWords builder.serializeAsString) = some builder := by
  obtain ⟨positive, hashesPos, hashesLe, fpLess⟩ := valid
  obtain ⟨low, high⟩ := halves_loadUnaligned32 builder.params.numHashes builder.params.fpType
  have words : loadWords builder.serializeAsString
      = builder.params.size :: builder.params.expectedNelts ::
        loadUnaligned32 builder.params.numHashes.toUInt8 (builder.params.numHashes >>> 8).toUInt8
          builder.params.fpType.toUInt8 (builder.params.fpType >>> 8).toUInt8
            :: builder.rep.flatten := by
    rw [serializeAsString_eq positive shape, writtenBytes, List.append_assoc, List.append_assoc,
      List.append_assoc, loadWords_storeUnaligned32, loadWords_storeUnaligned32,
      loadWords_storeUnaligned16, loadWords_flatMap]
  have bitmap : blockBitmap builder.params.size builder.rep.flatten = builder.rep :=
    splitBlocks_flatten shape
  have hashesOk : ¬ (builder.params.numHashes ≥ 8 ∨ builder.params.numHashes ≤ 0) := by
    rw [ge_iff_le, UInt16.le_iff_toNat_le, UInt16.le_iff_toNat_le]
    rw [UInt16.le_iff_toNat_le] at hashesPos hashesLe
    change ¬ (8 ≤ builder.params.numHashes.toNat ∨ builder.params.numHashes.toNat ≤ 0)
    change 1 ≤ builder.params.numHashes.toNat at hashesPos
    change builder.params.numHashes.toNat ≤ 7 at hashesLe
    omega
  have fpOk : ¬ builder.params.fpType ≥ 2 := UInt16.not_le.2 fpLess
  rw [words, ExistenceFilter.read, readHeader, low, high, if_neg hashesOk, if_neg fpOk]
  dsimp only
  rw [kHeaderSize, List.drop_succ_cons, List.drop_succ_cons, List.drop_succ_cons, List.drop_zero,
    length_flatten_of_hasShape positive shape, if_neg (Nat.lt_irrefl _), bitmap]

/-! ## No false negatives -/

/-- What the users of a filter rely on. -/
structure NoFalseNegatives (params : ExistenceFilterParams) (hashes : List UInt64) : Prop where
  onBuilt : ∀ hash ∈ hashes, (built params hashes).mayExist hash = true
  onRead : ∃ filter, ExistenceFilter.read (loadWords (built params hashes).serializeAsString)
    = some filter ∧ ∀ hash ∈ hashes, filter.mayExist hash = true
  /-- The bytes are written up to the end of the buffer. -/
  filled : (writtenBytes (built params hashes)).length = requiredBytes params
  /-- The buffer is as long as `Read` asks. -/
  length : (built params hashes).serializeAsString.length
    = (kHeaderSize + (bitsToWords params.size).toNat) * 4

/-- **There are no false negatives**, in filters of any size. -/
theorem noFalseNegatives {params : ExistenceFilterParams} (valid : params.Valid)
    (hashes : List UInt64) : NoFalseNegatives params hashes := by
  obtain ⟨params_eq, shape, mayExist⟩ := contains_built valid.size_ne_zero hashes
  have valid' : (built params hashes).params.Valid := by
    rw [params_eq]
    exact valid
  have shape' : HasShape (built params hashes).params.size (built params hashes).rep := by
    rw [params_eq]
    exact shape
  have length := length_writtenBytes valid'.size_ne_zero shape'
  rw [params_eq] at length
  refine ⟨mayExist, ⟨_, read_serializeAsString valid' shape', mayExist⟩, length, ?_⟩
  rw [serializeAsString_eq valid'.size_ne_zero shape']
  exact length

/-- A filter of 40 bits, in two words, with three hashes. -/
theorem noFalseNegatives_fortyBits : NoFalseNegatives ⟨40, 2, 3, 1⟩ [0x0123456789ABCDEF, 42] :=
  noFalseNegatives ⟨by decide, by decide, by decide, by decide⟩ _

end Mozkey.Storage
