import Mozkey.Lib.BinarySearch
import Mozkey.Storage.SimpleSuccinctBitVectorIndex

/-!
# Select in the simple succinct bit vector

`Select0` and `Select1` look for the chunk of a bit by a binary search in the index, which a cache
of lower bounds narrows, and then for the word and the bit.  The index of the zero bits is not
kept: its entries are computed from those of the one bits when they are compared.

All of this is computed with numbers of 32 bits.  The ranks and the positions are those of the
bits exactly where no product overflows, and where the last entry of the zero index, which counts
the bits of a whole chunk, is still such a number.
-/

namespace Mozkey.Storage

open Mozkey.Lib

/-! ## Numbers of 32 bits -/

/-- How a call fails to come to a result. -/
inductive Failure where
  /-- The result of an operation is no `int`. -/
  | overflow
  /-- What is read lies outside of its array. -/
  | outside
  /-- A vector or a string would be longer than they can be. -/
  | lengthError
  /-- A `CHECK` fails. -/
  | checkFails
  deriving DecidableEq, Repr

/-- The result of an operation of type `int`. -/
def checkedInt (n : Int) : Except Failure Int :=
  if -2 ^ 31 ≤ n ∧ n < 2 ^ 31 then .ok n else .error .overflow

/-- A conversion to `int`. -/
def toInt (n : Int) : Int := n.bmod (2 ^ 32)

/-- An element of a vector. -/
def elementAt {α : Type} (xs : List α) (i : Nat) : Except Failure α :=
  match xs[i]? with
  | some x => .ok x
  | none => .error .outside

/-! ## The two views of the index -/

/-- The entries of the index, as `Select1` compares them. -/
def oneBitIndex (index : List Nat) (ptr : Nat) : Except Failure Int := do
  let ones ← elementAt index ptr
  return ones

/-- `ZeroBitIndexIterator::operator*`. -/
def zeroBitIndex (index : List Nat) (chunkSize ptr : Nat) : Except Failure Int := do
  let chunkBits ← checkedInt (chunkSize * 8 : Nat)
  let ones ← elementAt index ptr
  return toInt (chunkBits * ptr - ones)

/-- `std::lower_bound`, among the entries from `first` to `last`. -/
def lowerBound (read : Nat → Except Failure Int) (first last : Nat) (value : Int) :
    Except Failure Nat :=
  searchWithin (fun ptr => (read ptr).map fun entry => decide (entry < value)) (last - first) first
    (last - first)

/-- `InitLowerBound0Cache` and `InitLowerBound1Cache`, of an index of `last` entries. -/
def initLowerBoundCache (maxSize : Nat) (read : Nat → Except Failure Int)
    (last increment size : Nat) : Except Failure (List Nat) := do
  if maxSize < size + 2 then throw .lengthError
  let found ← (List.range size).mapM fun i =>
    lowerBound read 0 last (toInt (increment * (i + 1) : Nat))
  return 0 :: (found ++ [last])

/-! ## The bit vector with its caches -/

/-- `SimpleSuccinctBitVectorIndex`, with the caches.  A pointer into the index is a position. -/
structure CachedBitVectorIndex extends SimpleSuccinctBitVectorIndex where
  lb0CacheIncrement : Nat
  lb0Cache : List Nat
  lb1CacheIncrement : Nat
  lb1Cache : List Nat
  deriving Repr

/-- The distance of two targets of a cache. -/
def cacheIncrement (numBits cacheSize : Nat) : Nat :=
  let increment := if cacheSize = 0 then numBits else numBits / cacheSize
  if increment = 0 then 1 else increment

/-- The search for a word: the first word with enough bits, where it lies, and which of its bits is
meant. -/
def wordLoop (bitCount : UInt32 → Nat) : ByteString → Nat → Int →
    Except Failure (UInt32 × Nat × Int)
  | b0 :: b1 :: b2 :: b3 :: rest, ptr, n =>
      let word := loadUnaligned32 b0 b1 b2 b3
      if n ≤ bitCount word then .ok (word, ptr, n)
      else wordLoop bitCount rest (ptr + 4) (n - bitCount word)
  | _, _, _ => .error .outside

/-- The search for a bit.  Without enough bits the position counts up until it overflows. -/
def bitLoop : Nat → UInt32 → Int → Int → Except Failure Int
  | 0, _, n, index => if 0 < n then .error .overflow else .ok index
  | fuel + 1, word, n, index =>
      if 0 < n then bitLoop fuel (word >>> 1) (n - (word &&& 1).toNat) (index + 1) else .ok index

namespace CachedBitVectorIndex

/-- `Init`.  No vector has more than `maxSize` elements. -/
def init (maxSize chunkSize : Nat) (data : ByteString) (length lb0CacheSize lb1CacheSize : Nat) :
    Except Failure CachedBitVectorIndex := do
  let _ ← checkedInt (length + chunkSize : Nat)
  let vector := SimpleSuccinctBitVectorIndex.init chunkSize data length
  let numBits ← checkedInt (8 * length : Nat)
  let num1Bits := vector.index.getLastD 0
  let lb0CacheIncrement := cacheIncrement (numBits.toNat - num1Bits) lb0CacheSize
  let lb0Cache ← initLowerBoundCache maxSize (zeroBitIndex vector.index chunkSize)
    vector.index.length lb0CacheIncrement lb0CacheSize
  let lb1CacheIncrement := cacheIncrement num1Bits lb1CacheSize
  let lb1Cache ← initLowerBoundCache maxSize (oneBitIndex vector.index) vector.index.length
    lb1CacheIncrement lb1CacheSize
  return { vector with lb0CacheIncrement, lb0Cache, lb1CacheIncrement, lb1Cache }

/-- `Rank1`. -/
def rank1 (vector : CachedBitVectorIndex) (n : Nat) : Except Failure Int := do
  let _ ← checkedInt (vector.chunkSize * 8 : Nat)
  return vector.toSimpleSuccinctBitVectorIndex.rank1 n

/-- `Rank0`. -/
def rank0 (vector : CachedBitVectorIndex) (n : Nat) : Except Failure Int := do
  let ones ← vector.rank1 n
  return n - ones

/-- `Select0` and `Select1`: the chunk in the narrowed index, then the word and the bit in what
`view` shows of a word, which for the zero bits is what `BitCount0` counts.  `bitsBefore` is what is
in front of a chunk. -/
def select (vector : CachedBitVectorIndex) (read bitsBefore : Nat → Except Failure Int)
    (increment : Nat) (cache : List Nat) (view : UInt32 → UInt32) (n : Nat) :
    Except Failure Int := do
  let cacheIndex := min (n / increment) (cache.length - 2)
  let first ← elementAt cache cacheIndex
  let last ← elementAt cache (cacheIndex + 1)
  match ← lowerBound read first last n with
  | 0 => throw .outside
  | chunkIndex + 1 =>
      let before ← bitsBefore chunkIndex
      let offset ← checkedInt (chunkIndex * vector.chunkSize : Nat)
      let offset := offset.toNat / 4 * 4
      let (word, ptr, n) ← wordLoop (fun word => popcount (view word)) (vector.data.drop offset)
        offset (n - before)
      let index ← bitLoop 32 (view word) n (toInt (ptr * 8 : Nat))
      return index - 1

/-- `Select0`. -/
def select0 (vector : CachedBitVectorIndex) (n : Nat) : Except Failure Int :=
  vector.select (zeroBitIndex vector.index vector.chunkSize)
    (fun chunkIndex => do
      let chunkBits ← checkedInt (vector.chunkSize * 8 : Nat)
      let bits ← checkedInt (chunkBits * chunkIndex)
      let ones ← elementAt vector.index chunkIndex
      return bits - ones)
    vector.lb0CacheIncrement vector.lb0Cache (~~~ ·) n

/-- `Select1`. -/
def select1 (vector : CachedBitVectorIndex) (n : Nat) : Except Failure Int :=
  vector.select (oneBitIndex vector.index) (oneBitIndex vector.index) vector.lb1CacheIncrement
    vector.lb1Cache id n

end CachedBitVectorIndex

/-! ## The entries of the index -/

/-- Words that are not there have no bits. -/
theorem rank_min {data : ByteString} {remaining : Nat} (words : 4 * remaining = data.length)
    (k : Nat) :
    rank true (bitsOf data) (32 * min k remaining) = rank true (bitsOf data) (32 * k) := by
  rcases Nat.le_total k remaining with le | le
  · rw [Nat.min_eq_left le]
  · rw [Nat.min_eq_right le, rank_of_length_le (by rw [length_bitsOf]; omega),
      rank_of_length_le (by rw [length_bitsOf]; omega)]

theorem mul_lt_self_iff {k : Nat} (positive : 0 < k) (j : Nat) : j * k < k ↔ j = 0 := by
  conv_lhs => rw [← Nat.one_mul k, ← Nat.mul_assoc, Nat.mul_one]
  rw [Nat.mul_lt_mul_right positive, Nat.lt_one_iff]

/-- The index without words. -/
theorem singleton_getElem? {k : Nat} (positive : 0 < k) (bits : List Bool) (j numBits : Nat) :
    [numBits][j]?
      = if j * k < 0 + k then some (numBits + rank true bits (32 * (j * k))) else none := by
  rw [Nat.zero_add]
  cases j with
  | zero => rw [Nat.zero_mul, if_pos positive]; rfl
  | succ j => rw [if_neg (by rw [mul_lt_self_iff positive]; omega)]; rfl

/-- The entries count the set bits in front of the chunks; the last one counts all of them. -/
theorem indexLoop_getElem? {k : Nat} (positive : 0 < k) {fuel : Nat} {data : ByteString}
    {remaining : Nat} (enough : remaining ≤ fuel) (words : 4 * remaining = data.length) (j : Nat)
    (numBits : Nat) :
    (indexLoop (4 * k) fuel data remaining numBits)[j]?
      = if j * k < remaining + k then some (numBits + rank true (bitsOf data) (32 * (j * k)))
        else none := by
  induction fuel generalizing data remaining j numBits with
  | zero =>
      obtain rfl : remaining = 0 := by omega
      exact singleton_getElem? positive _ j numBits
  | succ fuel ih =>
      rw [indexLoop]
      split
      · next some_ =>
        cases j with
        | zero => rw [Nat.zero_mul, if_pos (by omega)]; rfl
        | succ j =>
            have next : (j + 1) * k = k + j * k := by rw [Nat.succ_mul, Nat.add_comm]
            have inside : j * k < remaining - k + k ↔ k + j * k < remaining + k := by
              have := mul_lt_self_iff positive j
              rcases Nat.eq_zero_or_pos j with rfl | later
              · rw [Nat.zero_mul]
                omega
              · omega
            have quotient : 4 * k / 4 = k := Nat.mul_div_cancel_left k (by omega)
            have rest := ih (show remaining - k ≤ fuel by omega)
              (show 4 * (remaining - k) = (data.drop (4 * k)).length by
                rw [List.length_drop]
                omega) j (numBits + count1Bits data (min k remaining))
            rw [List.getElem?_cons_succ, quotient, rest, count1Bits_eq_rank (by omega),
              rank_min words, ← drop_bitsOf, Nat.add_assoc, show 8 * (4 * k) = 32 * k by omega,
              ← rank_add, next, Nat.mul_add]
            exact if_congr inside rfl rfl
      · obtain rfl : remaining = 0 := by omega
        exact singleton_getElem? positive _ j numBits

/-- The entries of the index of a buffer of words. -/
theorem initIndex_getElem? {k : Nat} (positive : 0 < k) {data : ByteString}
    (words : 4 ∣ data.length) (j : Nat) :
    (initIndex data data.length (4 * k))[j]?
      = if 4 * k * j < data.length + 4 * k then some (rank true (bitsOf data) (8 * (4 * k) * j))
        else none := by
  obtain ⟨size, length⟩ := words
  have size4 : data.length / 4 = size := by omega
  rw [initIndex, size4, indexLoop_getElem? positive le_rfl length.symm, Nat.zero_add,
    show 8 * (4 * k) * j = 32 * (j * k) by ring, show 4 * k * j = 4 * (j * k) by ring]
  refine if_congr ?_ rfl rfl
  omega

/-- The number of chunks of a buffer, the last of which may be shorter. -/
def numChunks (chunkSize length : Nat) : Nat := (length + chunkSize - 1) / chunkSize

theorem lt_numChunks_add_one {chunkSize : Nat} (positive : 0 < chunkSize) (length j : Nat) :
    j < numChunks chunkSize length + 1 ↔ chunkSize * j < length + chunkSize := by
  rw [Nat.lt_succ_iff, numChunks, Nat.le_div_iff_mul_le positive, Nat.mul_comm]
  omega

theorem length_initIndex {k : Nat} (positive : 0 < k) {data : ByteString}
    (words : 4 ∣ data.length) :
    (initIndex data data.length (4 * k)).length = numChunks (4 * k) data.length + 1 := by
  have here (j : Nat) : j < (initIndex data data.length (4 * k)).length
      ↔ j < numChunks (4 * k) data.length + 1 := by
    rw [lt_numChunks_add_one (by omega), ← not_iff_not, Nat.not_lt, ← List.getElem?_eq_none_iff,
      initIndex_getElem? positive words]
    split <;> simp_all
  exact Nat.le_antisymm (Nat.le_of_not_lt fun less => Nat.lt_irrefl _ ((here _).1 less))
    (Nat.le_of_not_lt fun less => Nat.lt_irrefl _ ((here _).2 less))

/-! ## Words and bits -/

/-- The set bits of what a view shows of a word are the bits equal to `b`. -/
def Shows (b : Bool) (view : UInt32 → UInt32) : Prop :=
  ∀ word, lowBits 32 (view word).toNat = (lowBits 32 word.toNat).map (· == b)

theorem shows_id : Shows true id := by
  intro word
  simp

theorem shows_complement : Shows false (~~~ ·) := by
  intro word
  have value : (~~~word).toNat = 2 ^ 32 - (word.toNat + 1) := by
    rw [UInt32.toNat_not, show UInt32.size - 1 = 2 ^ 32 - 1 from rfl]
    omega
  rw [value, lowBits, lowBits, List.map_map]
  refine List.map_congr_left fun i inWord => ?_
  rw [List.mem_range] at inWord
  rw [Nat.testBit_two_pow_sub_succ word.toNat_lt, decide_eq_true inWord, Bool.true_and,
    Function.comp_apply, beq_false]

theorem count_map_beq (b : Bool) (bits : List Bool) :
    (bits.map (· == b)).count true = bits.count b := by
  rw [List.count, List.countP_map, List.count]
  refine List.countP_congr fun bit _ => ?_
  simp

variable {b : Bool} {view : UInt32 → UInt32}

theorem Shows.popcount (shows_ : Shows b view) (word : UInt32) :
    popcount (view word) = (lowBits 32 word.toNat).count b := by
  rw [Storage.popcount, shows_, count_map_beq]

/-- The word with the bit is found, and which of its bits it is. -/
theorem wordLoop_finds (shows_ : Shows b view) {size : Nat} {data : ByteString}
    (words : data.length = 4 * size) {n : Nat} (enough : n + 1 ≤ (bitsOf data).count b)
    (ptr : Nat) :
    ∃ (word : UInt32) (ptr' m : Nat),
      wordLoop (fun word => popcount (view word)) data ptr (n + 1 : Nat)
          = .ok (word, ptr', (m + 1 : Nat)) ∧
        m + 1 ≤ (lowBits 32 word.toNat).count b ∧ ptr' + 4 ≤ ptr + data.length ∧
          8 * ptr + select b (bitsOf data) (n + 1)
            = 8 * ptr' + select b (lowBits 32 word.toNat) (m + 1) := by
  induction size generalizing data n ptr with
  | zero =>
      obtain rfl := List.length_eq_zero_iff.1 words
      exact absurd enough (Nat.not_succ_le_zero n)
  | succ size ih =>
      obtain ⟨b0, b1, b2, b3, rest, rfl⟩ :
          ∃ b0 b1 b2 b3 rest, data = b0 :: b1 :: b2 :: b3 :: rest := by
        match data, words with
        | b0 :: b1 :: b2 :: b3 :: rest, _ => exact ⟨b0, b1, b2, b3, rest, rfl⟩
      have front : bitsOf (b0 :: b1 :: b2 :: b3 :: rest)
          = lowBits 32 (loadUnaligned32 b0 b1 b2 b3).toNat ++ bitsOf rest := by
        rw [lowBits_loadUnaligned32]
        exact bitsOf_append [b0, b1, b2, b3] rest
      simp only [List.length_cons] at words ⊢
      rw [front, List.count_append] at enough
      rw [front, wordLoop]
      generalize loadUnaligned32 b0 b1 b2 b3 = word at enough ⊢
      rw [shows_.popcount]
      by_cases here : n + 1 ≤ (lowBits 32 word.toNat).count b
      · refine ⟨word, ptr, n, if_pos (by exact_mod_cast here), here, by omega, ?_⟩
        rw [select_append_left here]
      · obtain ⟨m, isMore⟩ : ∃ m, n + 1 = (lowBits 32 word.toNat).count b + (m + 1) :=
          ⟨n - (lowBits 32 word.toNat).count b, by omega⟩
        obtain ⟨word', ptr', m', found, inWord, inside, position⟩ :=
          ih (show rest.length = 4 * size by omega)
            (show m + 1 ≤ (bitsOf rest).count b by omega) (ptr + 4)
        refine ⟨word', ptr', m', ?_, inWord, by omega, ?_⟩
        · rw [if_neg (by exact_mod_cast here), ← found, isMore]
          congr 1
          push_cast
          omega
        · rw [isMore, select_append, length_lowBits, ← position]
          omega

theorem lowBits_succ (width n : Nat) :
    lowBits (width + 1) n = n.testBit 0 :: lowBits width (n / 2) := by
  rw [lowBits, List.range_succ_eq_map, List.map_cons, List.map_map, lowBits]
  refine congrArg _ (List.map_congr_left fun i _ => ?_)
  rw [Function.comp_apply, Nat.testBit_succ]

/-- The bit loop ends behind the bit. -/
theorem bitLoop_eq {fuel : Nat} {word : UInt32} {n : Nat}
    (enough : n + 1 ≤ (lowBits fuel word.toNat).count true) (index : Int) :
    bitLoop fuel word (n + 1 : Nat) index
      = .ok (index + select true (lowBits fuel word.toNat) (n + 1) + 1) := by
  induction fuel generalizing word n index with
  | zero => exact absurd enough (Nat.not_succ_le_zero n)
  | succ fuel ih =>
      have half : (word >>> 1).toNat = word.toNat / 2 := by
        rw [UInt32.toNat_shiftRight]
        exact Nat.shiftRight_one _
      have lowest : (word &&& 1).toNat = if word.toNat.testBit 0 then 1 else 0 := by
        rw [UInt32.toNat_and, show (1 : UInt32).toNat = 1 from rfl, Nat.and_one_is_mod,
          Nat.testBit_zero]
        split <;> simp_all
      rw [bitLoop, if_pos (by exact_mod_cast Nat.succ_pos n), lowest]
      rw [lowBits_succ, ← half] at enough ⊢
      cases bit : word.toNat.testBit 0 with
      | true =>
          rw [bit, List.count_cons_self] at enough
          cases n with
          | zero =>
              rw [select_cons_self_one]
              cases fuel <;> simp [bitLoop]
          | succ n =>
              have later : select true (true :: lowBits fuel (word >>> 1).toNat) (n + 2)
                  = select true (lowBits fuel (word >>> 1).toNat) (n + 1) + 1 := if_pos rfl
              have fewer : ((n + 1 + 1 : Nat) : Int) - (1 : Nat) = (n + 1 : Nat) := by omega
              rw [if_pos rfl, later, fewer, ih (by omega)]
              congr 1
              push_cast
              omega
      | false =>
          rw [bit, List.count_cons_of_ne Bool.false_ne_true] at enough
          have later : select true (false :: lowBits fuel (word >>> 1).toNat) (n + 1)
              = select true (lowBits fuel (word >>> 1).toNat) (n + 1) + 1 :=
            if_neg Bool.false_ne_true
          rw [if_neg Bool.false_ne_true, later, Nat.cast_zero, sub_zero, ih enough]
          congr 1
          push_cast
          omega

/-! ## Lower bounds -/

section Boundary

variable {g : Nat → Nat}

/-- How many of the first entries are below a target. -/
def boundary (g : Nat → Nat) (last : Nat) (target : Int) : Nat :=
  (List.range last).countP fun ptr => decide ((g ptr : Int) < target)

theorem boundary_le (last : Nat) (target : Int) : boundary g last target ≤ last := by
  have le := List.countP_le_length (p := fun ptr => decide ((g ptr : Int) < target))
    (l := List.range last)
  rwa [List.length_range] at le

theorem boundary_mono (last : Nat) : Monotone (boundary g last) := by
  intro target later le
  refine List.countP_mono_left fun ptr _ below => ?_
  exact decide_eq_true ((of_decide_eq_true below).trans_le le)

theorem lt_boundary_iff (mono : Monotone g) {last ptr : Nat} (inside : ptr < last) (target : Int) :
    ptr < boundary g last target ↔ (g ptr : Int) < target := by
  have partitioned : (List.range last).Pairwise fun a b =>
      decide ((g b : Int) < target) = true → decide ((g a : Int) < target) = true := by
    refine List.pairwise_lt_range.imp fun less below => decide_eq_true ?_
    have := mono less.le
    have := of_decide_eq_true below
    omega
  have decided := decide_lt_countP partitioned (i := ptr) (by rwa [List.length_range])
  rw [List.getElem_range] at decided
  exact decide_eq_decide.1 decided

/-- A search in any part of the index that has the boundary in it finds the boundary. -/
theorem lowerBound_eq (mono : Monotone g) {read : Nat → Except Failure Int} {first last all : Nat}
    (reads : ∀ ptr < all, read ptr = .ok (g ptr)) {target : Int}
    (least : first ≤ boundary g all target) (most : boundary g all target ≤ last)
    (within : last ≤ all) : lowerBound read first last target = .ok (boundary g all target) := by
  refine searchWithin_eq le_rfl least (by omega) fun ptr _ inside => ?_
  rw [reads ptr (by omega)]
  exact congrArg Except.ok (decide_eq_decide.2 (lt_boundary_iff mono (by omega) target).symm)

theorem mapM_ok {ε α β : Type} {f : α → Except ε β} {h : α → β} {xs : List α}
    (each : ∀ x ∈ xs, f x = .ok (h x)) : xs.mapM f = .ok (xs.map h) := by
  induction xs with
  | nil => rfl
  | cons x xs ih =>
      rw [List.forall_mem_cons] at each
      rw [List.mapM_cons, each.1, ih each.2]
      rfl

/-- A cache with its first and its last entry. -/
def cacheOf (last : Nat) (found : List Nat) : List Nat := 0 :: (found ++ [last])

theorem initLowerBoundCache_eq (mono : Monotone g) {read : Nat → Except Failure Int} {all : Nat}
    (reads : ∀ ptr < all, read ptr = .ok (g ptr)) {maxSize size : Nat} (fits : size + 2 ≤ maxSize)
    (increment : Nat) :
    initLowerBoundCache maxSize read all increment size
      = .ok (cacheOf all ((List.range size).map fun i =>
          boundary g all (toInt (increment * (i + 1) : Nat)))) := by
  rw [initLowerBoundCache, if_neg (Nat.not_lt.2 fits), mapM_ok fun i _ =>
    lowerBound_eq mono reads (Nat.zero_le _) (boundary_le _ _) le_rfl]
  rfl

theorem toInt_of_lt {n : Nat} (small : n < 2 ^ 31) : toInt n = n :=
  Int.bmod_eq_of_le (by omega) (by omega)

/-- The targets of a cache up to the one behind a position are those that were meant. -/
theorem cacheIncrement_mul_le {numBits size n j : Nat} (least : n ≤ numBits) (inCache : j ≤ size)
    (near : j ≤ n / cacheIncrement numBits size + 1) :
    cacheIncrement numBits size * j ≤ numBits + 1 := by
  unfold cacheIncrement at near ⊢
  dsimp only at near ⊢
  split_ifs at near ⊢ with none_ zero zero
  · omega
  · obtain rfl : j = 0 := by omega
    omega
  · omega
  · exact ((Nat.mul_le_mul_left _ inCache).trans (Nat.div_mul_le_self numBits size)).trans
      (Nat.le_succ _)

theorem cacheIncrement_pos (numBits size : Nat) : 0 < cacheIncrement numBits size := by
  unfold cacheIncrement
  generalize (if size = 0 then numBits else numBits / size) = increment
  dsimp only
  split_ifs <;> omega

/-- The two entries of the cache at a position are around its boundary. -/
theorem cacheOf_around {numBits size n all : Nat} (least : n ≤ numBits)
    (small : numBits + 1 < 2 ^ 31) {found : List Nat}
    (isFound : found = (List.range size).map fun i =>
      boundary g all (toInt (cacheIncrement numBits size * (i + 1) : Nat))) :
    ∃ first last,
      elementAt (cacheOf all found)
          (min (n / cacheIncrement numBits size) ((cacheOf all found).length - 2)) = .ok first ∧
        elementAt (cacheOf all found)
            (min (n / cacheIncrement numBits size) ((cacheOf all found).length - 2) + 1)
              = .ok last ∧
          first ≤ boundary g all n ∧ boundary g all n ≤ last ∧ last ≤ all := by
  have positive := cacheIncrement_pos numBits size
  have lengthFound : found.length = size := by rw [isFound, List.length_map, List.length_range]
  have length : (cacheOf all found).length - 2 = size := by
    rw [cacheOf, List.length_cons, List.length_append, lengthFound]
    rfl
  have exact_ {i : Nat} (inside : i < size) (near : i ≤ n / cacheIncrement numBits size) :
      found[i]? = some (boundary g all (cacheIncrement numBits size * (i + 1) : Nat)) := by
    have le := cacheIncrement_mul_le least (show i + 1 ≤ size from inside) (Nat.succ_le_succ near)
    rw [isFound, List.getElem?_map, List.getElem?_range inside, Option.map_some,
      toInt_of_lt (by omega)]
  rw [length]
  obtain ⟨first, isFirst, below⟩ : ∃ first,
      elementAt (cacheOf all found) (min (n / cacheIncrement numBits size) size) = .ok first ∧
        first ≤ boundary g all n := by
    cases place : min (n / cacheIncrement numBits size) size with
    | zero => exact ⟨0, rfl, Nat.zero_le _⟩
    | succ i =>
        have entry := exact_ (show i < size by omega) (by omega)
        refine ⟨boundary g all (cacheIncrement numBits size * (i + 1) : Nat), ?_,
          boundary_mono all ?_⟩
        · rw [elementAt, cacheOf, List.getElem?_cons_succ,
            List.getElem?_append_left (by omega), entry]
        · have : cacheIncrement numBits size * (i + 1) ≤ n :=
            (Nat.mul_comm _ _).trans_le ((Nat.le_div_iff_mul_le positive).1 (by omega))
          exact_mod_cast this
  obtain ⟨last, isLast, above, within⟩ : ∃ last,
      elementAt (cacheOf all found) (min (n / cacheIncrement numBits size) size + 1) = .ok last ∧
        boundary g all n ≤ last ∧ last ≤ all := by
    rcases Nat.lt_or_ge (n / cacheIncrement numBits size) size with inside | behind
    · rw [Nat.min_eq_left inside.le]
      refine ⟨boundary g all
        (cacheIncrement numBits size * (n / cacheIncrement numBits size + 1) : Nat), ?_,
        boundary_mono all ?_, boundary_le _ _⟩
      · rw [elementAt, cacheOf, List.getElem?_cons_succ, List.getElem?_append_left (by omega),
          exact_ inside le_rfl]
      · have := Nat.lt_mul_div_succ n positive
        exact_mod_cast this.le
    · rw [Nat.min_eq_right behind]
      refine ⟨all, ?_, boundary_le _ _, le_rfl⟩
      rw [elementAt, cacheOf, List.getElem?_cons_succ,
        List.getElem?_append_right (by omega), lengthFound, Nat.sub_self]
      rfl
  exact ⟨first, last, isFirst, isLast, below, above, within⟩

end Boundary

/-! ## Select -/

/-- The one bits in front of a chunk. -/
def onesBefore (data : ByteString) (chunkSize chunk : Nat) : Nat :=
  rank true (bitsOf data) (8 * chunkSize * chunk)

/-- The zero bits in front of a chunk, where the last chunk is filled up with zero bits. -/
def zerosBefore (data : ByteString) (chunkSize chunk : Nat) : Nat :=
  8 * chunkSize * chunk - onesBefore data chunkSize chunk

theorem onesBefore_mono (data : ByteString) (chunkSize : Nat) :
    Monotone (onesBefore data chunkSize) :=
  fun _ _ le => rank_mono _ (Nat.mul_le_mul_left _ le)

theorem zerosBefore_mono (data : ByteString) (chunkSize : Nat) :
    Monotone (zerosBefore data chunkSize) := by
  intro chunk later le
  obtain ⟨more, isLater⟩ := Nat.exists_eq_add_of_le (Nat.mul_le_mul_left (8 * chunkSize) le)
  unfold zerosBefore onesBefore
  rw [isLater, rank_add]
  have := @rank_le true (bitsOf data) (8 * chunkSize * chunk)
  have := @rank_le true ((bitsOf data).drop (8 * chunkSize * chunk)) more
  omega

theorem checkedInt_of_lt {n : Nat} (small : n < 2 ^ 31) : checkedInt n = .ok (n : Int) :=
  if_pos ⟨by omega, by omega⟩

/-- What a chunk has in front of it, in the view of `b`. -/
structure Counts (b : Bool) (data : ByteString) (chunkSize : Nat) (g : Nat → Nat) : Prop where
  mono : Monotone g
  inside : ∀ chunk < numChunks chunkSize data.length,
    g chunk = rank b (bitsOf data) (8 * chunkSize * chunk)
  all : (bitsOf data).count b ≤ g (numChunks chunkSize data.length)

theorem lt_numChunks {chunkSize : Nat} (positive : 0 < chunkSize) {length chunk : Nat} :
    chunk < numChunks chunkSize length ↔ chunkSize * chunk < length := by
  have next := lt_numChunks_add_one positive length (chunk + 1)
  rw [Nat.mul_succ] at next
  omega

theorem le_mul_numChunks {chunkSize : Nat} (positive : 0 < chunkSize) (length : Nat) :
    length ≤ chunkSize * numChunks chunkSize length :=
  Nat.le_of_not_lt fun less => Nat.lt_irrefl _ ((lt_numChunks positive).2 less)

theorem counts_ones {chunkSize : Nat} (positive : 0 < chunkSize) (data : ByteString) :
    Counts true data chunkSize (onesBefore data chunkSize) where
  mono := onesBefore_mono data chunkSize
  inside _ _ := rfl
  all := by
    have := le_mul_numChunks positive data.length
    rw [onesBefore, rank_of_length_le]
    rw [length_bitsOf, Nat.mul_assoc]
    omega

theorem counts_zeros {chunkSize : Nat} (positive : 0 < chunkSize) (data : ByteString) :
    Counts false data chunkSize (zerosBefore data chunkSize) where
  mono := zerosBefore_mono data chunkSize
  inside chunk less := by
    rw [lt_numChunks positive] at less
    have whole : rank false (bitsOf data) (8 * chunkSize * chunk)
        + rank true (bitsOf data) (8 * chunkSize * chunk) = 8 * chunkSize * chunk :=
      rank_false_add_rank_true (by rw [length_bitsOf, Nat.mul_assoc]; omega)
    rw [zerosBefore, onesBefore]
    omega
  all := by
    have := le_mul_numChunks positive data.length
    have whole := List.count_true_add_count_false (bitsOf data)
    rw [zerosBefore, onesBefore, rank_of_length_le]
    · rw [length_bitsOf] at whole
      rw [Nat.mul_assoc]
      omega
    · rw [length_bitsOf, Nat.mul_assoc]
      omega

theorem bind_ok_ {α β : Type} (value : α) (next : α → Except Failure β) :
    (Except.ok value >>= next) = next value := rfl

namespace CachedBitVectorIndex

/-- **Select finds the bit**: the cache narrows the search to a range that holds the boundary, and
the chunk in front of the boundary holds the bit. -/
theorem select_eq {vector : CachedBitVectorIndex} {k : Nat} (positive : 0 < k)
    (isChunk : vector.chunkSize = 4 * k) (words : 4 ∣ vector.data.length)
    (fits : 8 * vector.data.length < 2 ^ 31) {b : Bool} {view : UInt32 → UInt32}
    (shows_ : Shows b view) {g : Nat → Nat} (counts : Counts b vector.data (4 * k) g)
    {read bitsBefore : Nat → Except Failure Int}
    (reads : ∀ ptr < numChunks (4 * k) vector.data.length + 1, read ptr = .ok (g ptr))
    (isBefore : ∀ chunk < numChunks (4 * k) vector.data.length, bitsBefore chunk = .ok (g chunk))
    {size : Nat} {found : List Nat} (isFound : found = (List.range size).map fun i =>
      boundary g (numChunks (4 * k) vector.data.length + 1)
        (toInt (cacheIncrement ((bitsOf vector.data).count b) size * (i + 1) : Nat)))
    {n : Nat} (enough : n + 1 ≤ (bitsOf vector.data).count b) :
    vector.select read bitsBefore (cacheIncrement ((bitsOf vector.data).count b) size)
        (cacheOf (numChunks (4 * k) vector.data.length + 1) found) view (n + 1)
      = .ok (Lib.select b (bitsOf vector.data) (n + 1)) := by
  have most := List.count_le_length (a := b) (l := bitsOf vector.data)
  rw [length_bitsOf] at most
  have some_ : 0 < numChunks (4 * k) vector.data.length :=
    (lt_numChunks (by omega)).2 (by omega)
  obtain ⟨first, last, isFirst, isLast, below, above, within⟩ :=
    cacheOf_around (g := g) enough (by omega) isFound
  have searched := lowerBound_eq counts.mono reads below above within
  -- the boundary is behind the first chunk and not behind the last entry
  obtain ⟨chunk, isChunkIndex⟩ : ∃ chunk,
      boundary g (numChunks (4 * k) vector.data.length + 1) ((n + 1 : Nat) : Int) = chunk + 1 := by
    refine Nat.exists_eq_succ_of_ne_zero fun zero => ?_
    have start := lt_boundary_iff counts.mono (Nat.succ_pos (numChunks (4 * k) vector.data.length))
      ((n + 1 : Nat) : Int)
    have none_ : g 0 = 0 := counts.inside 0 some_
    rw [none_, zero] at start
    omega
  have isBelow : chunk < numChunks (4 * k) vector.data.length := by
    by_contra notBelow
    have last_ := lt_boundary_iff counts.mono
      (Nat.lt_add_one (numChunks (4 * k) vector.data.length)) ((n + 1 : Nat) : Int)
    have := counts.all
    omega
  have front := (lt_boundary_iff counts.mono (show chunk < numChunks (4 * k) vector.data.length + 1
    by omega) ((n + 1 : Nat) : Int)).1 (by omega)
  have inBuffer := (lt_numChunks (by omega)).1 isBelow
  obtain ⟨m, isMore⟩ : ∃ m, n + 1 = g chunk + (m + 1) := ⟨n - g chunk, by omega⟩
  have whole := List.take_append_drop (8 * (4 * k * chunk)) (bitsOf vector.data)
  have frontLength : ((bitsOf vector.data).take (8 * (4 * k * chunk))).length
      = 8 * (4 * k * chunk) := by
    rw [List.length_take, length_bitsOf]
    omega
  have frontCount : ((bitsOf vector.data).take (8 * (4 * k * chunk))).count b = g chunk := by
    rw [counts.inside chunk isBelow, Nat.mul_assoc 8]
    rfl
  have inRest : m + 1 ≤ (bitsOf (vector.data.drop (4 * k * chunk))).count b := by
    rw [← whole, List.count_append, frontCount, drop_bitsOf] at enough
    omega
  have restWords : (vector.data.drop (4 * k * chunk)).length
      = 4 * ((vector.data.length - 4 * k * chunk) / 4) := by
    rw [List.length_drop]
    have : 4 * k * chunk = 4 * (k * chunk) := Nat.mul_assoc 4 k chunk
    omega
  obtain ⟨word, ptr, m', foundWord, inWord, insideWord, position⟩ :=
    wordLoop_finds shows_ restWords inRest (4 * k * chunk)
  have foundBit := bitLoop_eq (show m' + 1 ≤ (lowBits 32 (view word).toNat).count true by
    rwa [shows_, count_map_beq]) (toInt (ptr * 8 : Nat))
  have offset : checkedInt (chunk * vector.chunkSize : Nat)
      = .ok ((4 * k * chunk : Nat) : Int) := by
    rw [isChunk, Nat.mul_comm chunk]
    exact checkedInt_of_lt (by omega)
  have isOffset : ((4 * k * chunk : Nat) : Int).toNat / 4 * 4 = 4 * k * chunk := by
    rw [Int.toNat_natCast, Nat.mul_assoc, Nat.mul_div_cancel_left _ (by omega), Nat.mul_comm]
  have remaining : ((n + 1 : Nat) : Int) - g chunk = (m + 1 : Nat) := by
    rw [isMore]
    push_cast
    omega
  rw [List.length_drop] at insideWord
  unfold CachedBitVectorIndex.select
  dsimp only
  rw [isFirst, bind_ok_, isLast, bind_ok_, searched, bind_ok_, isChunkIndex]
  dsimp only
  rw [isBefore chunk isBelow, bind_ok_, offset, bind_ok_]
  rw [isOffset, remaining, foundWord, bind_ok_]
  have inInt : toInt (ptr * 8 : Nat) = (ptr * 8 : Nat) := toInt_of_lt (by omega)
  show (bitLoop 32 (view word) (m' + 1 : Nat) (toInt (ptr * 8 : Nat)) >>= fun index =>
    Except.ok (index - 1)) = _
  rw [foundBit, bind_ok_, inInt, shows_, select_map]
  have isSum := @select_append b ((bitsOf vector.data).take (8 * (4 * k * chunk)))
    ((bitsOf vector.data).drop (8 * (4 * k * chunk))) m
  rw [whole, frontCount, ← isMore, frontLength, drop_bitsOf, position] at isSum
  rw [isSum]
  refine congrArg Except.ok ?_
  omega

end CachedBitVectorIndex

end Mozkey.Storage
