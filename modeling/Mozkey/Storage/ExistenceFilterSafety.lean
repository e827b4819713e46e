import Mozkey.Storage.ExistenceFilter

/-!
# Reading an existence filter from any buffer

The header of a buffer is not trusted.  Here `Read` and `Exists` go with the checks that the source
leaves out: taking words off a buffer that has fewer, dividing by zero, and indexing a block or a
word that is not there give `none`.

`safelyRead_iff` says that a buffer is read and asked safely exactly when its header is refused or
tells of a size that is not zero.  A size of zero passes all tests of `Read`, although the number of
blocks, less one, then goes round to the largest value, and every hash is divided by zero.
-/

namespace Mozkey.Storage

/-! ## Reading and asking, with checks -/

/-- The loop of `BlockBitmap`, with the number of rounds; `remove_prefix` must not take off more
words than there are. -/
def splitBlocksChecked : Nat → Nat → List UInt32 → Option Blocks
  | 0, lastSize, buf => some [buf.take lastSize]
  | count + 1, lastSize, buf =>
      if buf.length < kBlockWords then none
      else (splitBlocksChecked count lastSize (buf.drop kBlockWords)).map
        fun blocks => buf.take kBlockWords :: blocks

/-- `BlockBitmap`, whose number of rounds is a difference of unsigned numbers. -/
def blockBitmapChecked (size : UInt32) (buf : List UInt32) : Option Blocks :=
  let dimensions := blockDimensions size
  splitBlocksChecked (dimensions.count - 1).toNat dimensions.lastSize.toNat buf

/-- `BlockBitmap::Get`. -/
def getChecked (blocks : Blocks) (index : UInt32) : Option Bool :=
  (blocks[bindex index]?).bind fun block =>
    (block[windex index]?).map fun word => ((word >>> bitpos index) &&& 1) != 0

/-- The loop of `Exists`. -/
def existsLoopChecked (size : UInt32) : Nat → UInt64 → Blocks → Option Bool
  | 0, _, _ => some true
  | n + 1, hash, rep =>
      if size = 0 then none
      else (getChecked rep (indexOf size (rotl8 hash))).bind fun isSet =>
        if isSet then existsLoopChecked size n (rotl8 hash) rep else some false

namespace ExistenceFilter

/-- `ExistenceFilter::Exists`. -/
def mayExistChecked (filter : ExistenceFilter) (hash : UInt64) : Option Bool :=
  existsLoopChecked filter.params.size filter.params.numHashes.toNat hash filter.rep

/-- `ExistenceFilter::Read`, which returns a filter or an error. -/
def readChecked (buf : List UInt32) : Option (Option ExistenceFilter) :=
  match readHeader buf with
  | none => some none
  | some params =>
      let buf := buf.drop kHeaderSize
      if buf.length < (bitsToWords params.size).toNat then some none
      else (blockBitmapChecked params.size buf).map fun rep => some ⟨params, rep⟩

end ExistenceFilter

/-- **A buffer is safe**: `Read` returns, and a filter that it returns lies in the buffer, and can be
asked for every hash. -/
def SafelyRead (buf : List UInt32) : Prop :=
  ∃ result, ExistenceFilter.readChecked buf = some result ∧
    ∀ filter ∈ result, filter.rep.flatten <+: buf.drop kHeaderSize ∧
      ∀ hash, (filter.mayExistChecked hash).isSome

/-! ## The blocks -/

/-- Where there are enough words, the checks change nothing, and the blocks are full. -/
theorem splitBlocksChecked_spec (count lastSize : Nat) (buf : List UInt32)
    (enough : count * kBlockWords + lastSize ≤ buf.length) :
    splitBlocksChecked count lastSize buf = some (splitBlocks count lastSize buf) ∧
      (splitBlocks count lastSize buf).map List.length
        = List.replicate count kBlockWords ++ [lastSize] ∧
      (splitBlocks count lastSize buf).flatten <+: buf := by
  induction count generalizing buf with
  | zero =>
      rw [Nat.zero_mul, Nat.zero_add] at enough
      refine ⟨rfl, ?_, ?_⟩
      · simp [splitBlocks, enough]
      · simpa [splitBlocks] using List.take_prefix lastSize buf
  | succ count ih =>
      rw [Nat.succ_mul] at enough
      have full : kBlockWords ≤ buf.length := by omega
      obtain ⟨rounds, lengths, front⟩ := ih (buf.drop kBlockWords) (by simp; omega)
      refine ⟨?_, ?_, ?_⟩
      · simp [splitBlocksChecked, splitBlocks, Nat.not_lt.2 full, rounds]
      · simp [splitBlocks, lengths, full, List.replicate_succ]
      · have whole := (List.prefix_append_right_inj (buf.take kBlockWords)).2 front
        simpa [splitBlocks] using whole

/-- **The blocks of a size that is not zero** have its shape, and lie in the buffer. -/
theorem blockBitmapChecked_spec {size : UInt32} (positive : size ≠ 0) {buf : List UInt32}
    (enough : ¬ buf.length < (bitsToWords size).toNat) :
    blockBitmapChecked size buf = some (blockBitmap size buf) ∧
      HasShape size (blockBitmap size buf) ∧ (blockBitmap size buf).flatten <+: buf := by
  obtain ⟨countPos, bitsLe, ltBits, lastLe⟩ := dimensions size positive
  have rounds : ((blockDimensions size).count - 1).toNat = (blockDimensions size).count.toNat - 1 := by
    have atLeastOne : 1 ≤ (blockDimensions size).count := UInt32.le_iff_toNat_le.2 countPos
    rw [UInt32.toNat_sub_of_le _ _ atLeastOne, UInt32.toNat_one]
  rw [toNat_bitsToWords] at enough
  have room : ((blockDimensions size).count.toNat - 1) * kBlockWords
      + (blockDimensions size).lastSize.toNat ≤ buf.length := by
    rw [kBlockWords]
    omega
  simp only [blockBitmapChecked, rounds, HasShape]
  exact splitBlocksChecked_spec _ _ buf room

/-! ## Asking -/

theorem getChecked_of_inRange {blocks : Blocks} {index : UInt32} (inRange : InRange blocks index) :
    getChecked blocks index = some (get blocks index) := by
  obtain ⟨block, isBlock, less⟩ := inRange
  simp [getChecked, get, isBlock, less]

/-- The checks of `Exists` change nothing on blocks of the right shape. -/
theorem existsLoopChecked_of_hasShape {size : UInt32} (positive : size ≠ 0) {rep : Blocks}
    (shape : HasShape size rep) (n : Nat) (hash : UInt64) :
    existsLoopChecked size n hash rep = some (existsLoop size n hash rep) := by
  induction n generalizing hash with
  | zero => rfl
  | succ n ih =>
      have inRange := inRange_of_hasShape shape (indexOf_lt positive (rotl8 hash))
      rw [existsLoopChecked, existsLoop, if_neg positive, getChecked_of_inRange inRange,
        Option.bind_some, ih]
      split <;> rfl

/-- No hash can be divided by zero. -/
theorem mayExistChecked_of_size_zero {filter : ExistenceFilter} (zero : filter.params.size = 0)
    (hashes : filter.params.numHashes ≠ 0) (hash : UInt64) : filter.mayExistChecked hash = none := by
  have positive : filter.params.numHashes.toNat ≠ 0 := fun none_ =>
    hashes (UInt16.toNat_inj.1 none_)
  obtain ⟨n, isSucc⟩ := Nat.exists_eq_succ_of_ne_zero positive
  simp [ExistenceFilter.mayExistChecked, isSucc, existsLoopChecked, zero]

/-! ## Any buffer -/

/-- **Reading with checks** is reading, where the size is not zero. -/
theorem readChecked_eq {buf : List UInt32}
    (positive : ∀ params, readHeader buf = some params → params.size ≠ 0) :
    ExistenceFilter.readChecked buf = some (ExistenceFilter.read buf) := by
  simp only [ExistenceFilter.readChecked, ExistenceFilter.read]
  cases header : readHeader buf with
  | none => rfl
  | some params =>
      dsimp only
      split
      · rfl
      · next enough =>
        rw [(blockBitmapChecked_spec (positive params header) enough).1]
        rfl

/-- A header that is accepted asks for at least one hash. -/
theorem numHashes_ne_zero {buf : List UInt32} {params : ExistenceFilterParams}
    (header : readHeader buf = some params) : params.numHashes ≠ 0 := by
  unfold readHeader at header
  split at header
  · dsimp only at header
    split at header
    · cases header
    · next good =>
      split at header
      · cases header
      · obtain rfl := Option.some.inj header
        intro none_
        exact good (.inr (UInt16.le_of_eq none_))
  · cases header

theorem safelyRead_of_positive {buf : List UInt32}
    (positive : ∀ params, readHeader buf = some params → params.size ≠ 0) : SafelyRead buf := by
  refine ⟨ExistenceFilter.read buf, readChecked_eq positive, ?_⟩
  intro filter isRead
  rw [Option.mem_def, ExistenceFilter.read] at isRead
  cases header : readHeader buf with
  | none => simp [header] at isRead
  | some params =>
      rw [header] at isRead
      dsimp only at isRead
      split at isRead
      · cases isRead
      · next enough =>
        obtain rfl := Option.some.inj isRead
        have nonzero := positive params header
        obtain ⟨_, shape, inside⟩ := blockBitmapChecked_spec nonzero enough
        refine ⟨inside, ?_⟩
        intro hash
        simp [ExistenceFilter.mayExistChecked, existsLoopChecked_of_hasShape nonzero shape]

/-- A header with a size of zero leads to a division by zero, if not to one block too many. -/
theorem not_safelyRead_of_size_zero {buf : List UInt32} {params : ExistenceFilterParams}
    (header : readHeader buf = some params) (zero : params.size = 0) : ¬ SafelyRead buf := by
  rintro ⟨result, isRead, safe⟩
  have noWords : (bitsToWords params.size).toNat = 0 := by
    rw [zero]
    rfl
  simp only [ExistenceFilter.readChecked, header, noWords, Nat.not_lt_zero, if_false,
    Option.map_eq_some_iff] at isRead
  obtain ⟨rep, _, rfl⟩ := isRead
  have asked := (safe _ rfl).2 0
  rw [mayExistChecked_of_size_zero zero (numHashes_ne_zero header)] at asked
  cases asked

/-- **A buffer is safe exactly when** its header is refused or tells of a size that is not zero. -/
theorem safelyRead_iff (buf : List UInt32) :
    SafelyRead buf ↔ ∀ params, readHeader buf = some params → params.size ≠ 0 := by
  constructor
  · intro safe params header zero
    exact not_safelyRead_of_size_zero header zero safe
  · exact safelyRead_of_positive

/-- **A size of zero**, with one hash for every key. -/
theorem not_safelyRead_sizeZero : ¬ SafelyRead [0, 0, 1] := by
  have header : readHeader [0, 0, 1] = some ⟨0, 0, 1, 0⟩ := by decide
  exact not_safelyRead_of_size_zero header rfl

end Mozkey.Storage
