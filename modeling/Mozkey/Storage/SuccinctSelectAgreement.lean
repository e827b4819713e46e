import Mozkey.Storage.SuccinctSelect

/-!
# When the succinct bit vector is right

Rank and select of the succinct bit vector are those of its bits, as long as every number that is
computed on the way is an `int`.  This bounds the size of a chunk and the size of the array.

It does not bound the last entry of the zero index, which counts a last chunk as if it were whole:
an array of zero bits that ends in the last chunk below the bound has one more than the largest
`int` there, and its last bit is not found.
-/

namespace Mozkey.Storage

open Mozkey.Lib

namespace CachedBitVectorIndex

/-! ## Agreement with the bits -/

theorem bind_eq_ok_iff {α β : Type} {x : Except Failure α} {next : α → Except Failure β} {y : β} :
    (x >>= next) = .ok y ↔ ∃ a, x = .ok a ∧ next a = .ok y := by
  cases x with
  | error failure =>
      constructor
      · intro done
        cases done
      · rintro ⟨a, done, -⟩
        cases done
  | ok a =>
      constructor
      · exact fun done => ⟨a, rfl, done⟩
      · rintro ⟨a', same, done⟩
        cases same
        exact done

theorem checkedInt_eq_ok_iff {n : Nat} {m : Int} :
    checkedInt n = .ok m ↔ n < 2 ^ 31 ∧ m = n := by
  constructor
  · intro done
    rw [checkedInt] at done
    split at done
    · next small =>
      cases done
      exact ⟨by omega, rfl⟩
    · cases done
  · rintro ⟨small, rfl⟩
    exact checkedInt_of_lt small

/-- The shape of a cache, whatever its searches found. -/
theorem initLowerBoundCache_ok {maxSize : Nat} {read : Nat → Except Failure Int}
    {last increment size : Nat} {cache : List Nat}
    (done : initLowerBoundCache maxSize read last increment size = .ok cache) :
    size + 2 ≤ maxSize ∧ ∃ found,
      (List.range size).mapM (fun i => lowerBound read 0 last (toInt (increment * (i + 1) : Nat)))
        = .ok found ∧ cache = cacheOf last found := by
  rw [initLowerBoundCache] at done
  split at done
  · cases done
  · next fits =>
    obtain ⟨found, isFound, isCache⟩ := bind_eq_ok_iff.1 done
    exact ⟨Nat.le_of_not_lt fits, found, isFound, (Except.ok.inj isCache).symm⟩

/-- The bit vector that `Init` makes. -/
theorem init_eq_ok_iff {maxSize chunkSize length lb0CacheSize lb1CacheSize : Nat}
    {data : ByteString} {vector : CachedBitVectorIndex} :
    init maxSize chunkSize data length lb0CacheSize lb1CacheSize = .ok vector ↔
      length + chunkSize < 2 ^ 31 ∧ 8 * length < 2 ^ 31 ∧
        vector.toSimpleSuccinctBitVectorIndex
            = SimpleSuccinctBitVectorIndex.init chunkSize data length ∧
          vector.lb0CacheIncrement
              = cacheIncrement (8 * length - vector.index.getLastD 0) lb0CacheSize ∧
            vector.lb1CacheIncrement = cacheIncrement (vector.index.getLastD 0) lb1CacheSize ∧
              initLowerBoundCache maxSize (zeroBitIndex vector.index chunkSize) vector.index.length
                  vector.lb0CacheIncrement lb0CacheSize = .ok vector.lb0Cache ∧
                initLowerBoundCache maxSize (oneBitIndex vector.index) vector.index.length
                  vector.lb1CacheIncrement lb1CacheSize = .ok vector.lb1Cache := by
  constructor
  · intro done
    obtain ⟨_, sum, done⟩ := bind_eq_ok_iff.1 done
    obtain ⟨_, product, done⟩ := bind_eq_ok_iff.1 done
    obtain ⟨cache0, isCache0, done⟩ := bind_eq_ok_iff.1 done
    obtain ⟨cache1, isCache1, done⟩ := bind_eq_ok_iff.1 done
    obtain ⟨small, rfl⟩ := checkedInt_eq_ok_iff.1 product
    cases done
    exact ⟨(checkedInt_eq_ok_iff.1 sum).1, small, rfl, rfl, rfl, isCache0, isCache1⟩
  · rintro ⟨sum, product, isVector, isIncrement0, isIncrement1, isCache0, isCache1⟩
    obtain ⟨simple, increment0, cache0, increment1, cache1⟩ := vector
    dsimp only at isVector isIncrement0 isIncrement1 isCache0 isCache1
    subst isVector isIncrement0 isIncrement1
    rw [init, checkedInt_of_lt sum, bind_ok_, checkedInt_of_lt product, bind_ok_]
    dsimp only at isCache0 isCache1 ⊢
    rw [Int.toNat_natCast, isCache0, bind_ok_, isCache1]
    rfl

/-- The bits of the chunks without their one bits, computed with `int`s. -/
theorem cast_zerosBefore (k : Nat) (data : ByteString) (chunk : Nat) :
    ((4 * k * 8 : Nat) : Int) * chunk - onesBefore data (4 * k) chunk
      = (zerosBefore data (4 * k) chunk : Nat) := by
  have le : onesBefore data (4 * k) chunk ≤ 8 * (4 * k) * chunk := rank_le _ _
  rw [zerosBefore, Nat.cast_sub le, Nat.mul_comm (4 * k) 8]
  push_cast
  rfl

section Buffer

variable {k : Nat} (positive : 0 < k) {data : ByteString} (words : 4 ∣ data.length)
include positive words

theorem elementAt_initIndex {ptr : Nat} (inside : ptr < numChunks (4 * k) data.length + 1) :
    elementAt (initIndex data data.length (4 * k)) ptr = .ok (onesBefore data (4 * k) ptr) := by
  rw [elementAt, initIndex_getElem? positive words,
    if_pos ((lt_numChunks_add_one (by omega) _ _).1 inside)]
  rfl

theorem getLastD_initIndex :
    (initIndex data data.length (4 * k)).getLastD 0 = (bitsOf data).count true := by
  have all := le_mul_numChunks (show 0 < 4 * k by omega) data.length
  rw [List.getLastD_eq_getLast?, List.getLast?_eq_getElem?, length_initIndex positive words,
    Nat.add_sub_cancel, initIndex_getElem? positive words,
    if_pos ((lt_numChunks_add_one (by omega) _ _).1 (Nat.lt_add_one _)), Option.getD_some,
    rank_of_length_le]
  rw [length_bitsOf, Nat.mul_assoc]
  omega

theorem oneBitIndex_initIndex {ptr : Nat} (inside : ptr < numChunks (4 * k) data.length + 1) :
    oneBitIndex (initIndex data data.length (4 * k)) ptr = .ok (onesBefore data (4 * k) ptr) := by
  rw [oneBitIndex, elementAt_initIndex positive words inside]
  rfl

theorem zeroBitIndex_initIndex (chunkFits : 4 * k * 8 < 2 ^ 31) {ptr : Nat}
    (inside : ptr < numChunks (4 * k) data.length + 1)
    (small : zerosBefore data (4 * k) (numChunks (4 * k) data.length) < 2 ^ 31) :
    zeroBitIndex (initIndex data data.length (4 * k)) (4 * k) ptr
      = .ok (zerosBefore data (4 * k) ptr) := by
  have le := zerosBefore_mono data (4 * k) (show ptr ≤ numChunks (4 * k) data.length by omega)
  rw [zeroBitIndex, checkedInt_of_lt chunkFits, bind_ok_, elementAt_initIndex positive words inside,
    bind_ok_, cast_zerosBefore, toInt_of_lt (by omega)]
  rfl

end Buffer

/-- Rank and select are those of the bits. -/
structure Agrees (vector : CachedBitVectorIndex) (bits : List Bool) : Prop where
  rank0 : ∀ n ≤ bits.length, vector.rank0 n = .ok (rank false bits n)
  rank1 : ∀ n ≤ bits.length, vector.rank1 n = .ok (rank true bits n)
  select0 : ∀ n, 1 ≤ n → n ≤ bits.count false → vector.select0 n = .ok (Lib.select false bits n)
  select1 : ∀ n, 1 ≤ n → n ≤ bits.count true → vector.select1 n = .ok (Lib.select true bits n)

/-- The bit vector of some words, where every search for its caches finds its boundary. -/
def ofWords (k : Nat) (data : ByteString) (lb0CacheSize lb1CacheSize : Nat) :
    CachedBitVectorIndex where
  toSimpleSuccinctBitVectorIndex := SimpleSuccinctBitVectorIndex.init (4 * k) data data.length
  lb0CacheIncrement := cacheIncrement ((bitsOf data).count false) lb0CacheSize
  lb0Cache := cacheOf (numChunks (4 * k) data.length + 1) ((List.range lb0CacheSize).map fun i =>
    boundary (zerosBefore data (4 * k)) (numChunks (4 * k) data.length + 1)
      (toInt (cacheIncrement ((bitsOf data).count false) lb0CacheSize * (i + 1) : Nat)))
  lb1CacheIncrement := cacheIncrement ((bitsOf data).count true) lb1CacheSize
  lb1Cache := cacheOf (numChunks (4 * k) data.length + 1) ((List.range lb1CacheSize).map fun i =>
    boundary (onesBefore data (4 * k)) (numChunks (4 * k) data.length + 1)
      (toInt (cacheIncrement ((bitsOf data).count true) lb1CacheSize * (i + 1) : Nat)))

/-- Where no number overflows, `Init` makes it. -/
theorem init_ofWords {maxSize k : Nat} (positive : 0 < k) {data : ByteString}
    (words : 4 ∣ data.length) (chunkFits : 4 * k * 8 < 2 ^ 31) (fits : 8 * data.length < 2 ^ 31)
    (small : zerosBefore data (4 * k) (numChunks (4 * k) data.length) < 2 ^ 31)
    {lb0CacheSize lb1CacheSize : Nat} (fits0 : lb0CacheSize + 2 ≤ maxSize)
    (fits1 : lb1CacheSize + 2 ≤ maxSize) :
    init maxSize (4 * k) data data.length lb0CacheSize lb1CacheSize
      = .ok (ofWords k data lb0CacheSize lb1CacheSize) := by
  have ones := getLastD_initIndex positive words
  have zeros : 8 * data.length - (bitsOf data).count true = (bitsOf data).count false := by
    have whole := List.count_true_add_count_false (bitsOf data)
    rw [length_bitsOf] at whole
    omega
  have length := length_initIndex positive words
  refine init_eq_ok_iff.2 ⟨by omega, fits, rfl, ?_, ?_, ?_, ?_⟩
  · show _ = cacheIncrement (8 * data.length
      - (initIndex data data.length (4 * k)).getLastD 0) lb0CacheSize
    rw [ones, zeros]
    rfl
  · show _ = cacheIncrement ((initIndex data data.length (4 * k)).getLastD 0) lb1CacheSize
    rw [ones]
    rfl
  · show initLowerBoundCache maxSize (zeroBitIndex (initIndex data data.length (4 * k)) (4 * k))
      (initIndex data data.length (4 * k)).length _ lb0CacheSize = _
    rw [length]
    exact initLowerBoundCache_eq (zerosBefore_mono data (4 * k))
      (fun ptr inside => zeroBitIndex_initIndex positive words chunkFits inside small) fits0 _
  · show initLowerBoundCache maxSize (oneBitIndex (initIndex data data.length (4 * k)))
      (initIndex data data.length (4 * k)).length _ lb1CacheSize = _
    rw [length]
    exact initLowerBoundCache_eq (onesBefore_mono data (4 * k))
      (fun ptr inside => oneBitIndex_initIndex positive words inside) fits1 _

/-- Where no number overflows, its rank and select are those of the bits. -/
theorem ofWords_agrees {k : Nat} (positive : 0 < k) {data : ByteString}
    (words : 4 ∣ data.length) (chunkFits : 4 * k * 8 < 2 ^ 31) (fits : 8 * data.length < 2 ^ 31)
    (small : zerosBefore data (4 * k) (numChunks (4 * k) data.length) < 2 ^ 31)
    (lb0CacheSize lb1CacheSize : Nat) :
    Agrees (ofWords k data lb0CacheSize lb1CacheSize) (bitsOf data) := by
  have rank1 : ∀ n ≤ (bitsOf data).length,
      (ofWords k data lb0CacheSize lb1CacheSize).rank1 n = .ok (rank true (bitsOf data) n) := by
    intro n inside
    rw [length_bitsOf] at inside
    have ranked := SimpleSuccinctBitVectorIndex.rank1_init positive words le_rfl inside
    show (checkedInt (4 * k * 8 : Nat) >>= fun _ => Except.ok
      (((SimpleSuccinctBitVectorIndex.init (4 * k) data data.length).rank1 n : Nat) : Int)) = _
    rw [checkedInt_of_lt chunkFits, bind_ok_, ranked]
  refine ⟨?_, rank1, ?_, ?_⟩
  · intro n inside
    rw [rank0, rank1 n inside, bind_ok_]
    refine congrArg Except.ok ?_
    have := rank_false_add_rank_true inside
    omega
  · intro n least most
    obtain ⟨n, rfl⟩ := Nat.exists_eq_add_of_le' least
    refine select_eq positive rfl words fits shows_complement
      (counts_zeros (by omega) data)
      (fun ptr inside => zeroBitIndex_initIndex positive words chunkFits inside small)
      (fun chunk inside => ?_) rfl most
    have inChunks : chunk < numChunks (4 * k) data.length := inside
    have inBuffer := (lt_numChunks (by omega)).1 inChunks
    have product : ((4 * k * 8 : Nat) : Int) * chunk = (4 * k * 8 * chunk : Nat) := by
      push_cast
      rfl
    have bitsFit : 4 * k * 8 * chunk < 2 ^ 31 := by
      rw [Nat.mul_comm (4 * k) 8, Nat.mul_assoc 8]
      omega
    show (checkedInt (4 * k * 8 : Nat) >>= fun chunkBits => checkedInt (chunkBits * chunk) >>=
      fun bits => elementAt (initIndex data data.length (4 * k)) chunk >>= fun ones =>
        Except.ok (bits - ones)) = _
    rw [checkedInt_of_lt chunkFits, bind_ok_, product, checkedInt_of_lt bitsFit, bind_ok_,
      elementAt_initIndex positive words (Nat.lt_succ_of_lt inChunks), bind_ok_, ← product,
      cast_zerosBefore]
  · intro n least most
    obtain ⟨n, rfl⟩ := Nat.exists_eq_add_of_le' least
    exact select_eq positive rfl words fits shows_id (counts_ones (by omega) data)
      (fun ptr inside => oneBitIndex_initIndex positive words inside)
      (fun chunk inside => oneBitIndex_initIndex positive words (Nat.lt_succ_of_lt inside)) rfl most

/-! ## Where the last entry of the zero index is no `int` -/

theorem mapM_ok_getElem? {α β : Type} {f : α → Except Failure β} {xs : List α} {ys : List β}
    (done : xs.mapM f = .ok ys) :
    ys.length = xs.length ∧
      ∀ (i : Nat) (x : α), xs[i]? = some x → ∃ y, ys[i]? = some y ∧ f x = .ok y := by
  induction xs generalizing ys with
  | nil =>
      cases done
      exact ⟨rfl, fun i x none_ => by simp at none_⟩
  | cons x xs ih =>
      rw [List.mapM_cons] at done
      obtain ⟨y, isFirst, done⟩ := bind_eq_ok_iff.1 done
      obtain ⟨rest, isRest, done⟩ := bind_eq_ok_iff.1 done
      cases done
      obtain ⟨length, others⟩ := ih isRest
      refine ⟨congrArg (· + 1) length, fun i z member => ?_⟩
      cases i with
      | zero =>
          cases member
          exact ⟨y, rfl, isFirst⟩
      | succ i => exact others i z member

/-- A search among entries that are all below the target ends behind them. -/
theorem lowerBound_all {read : Nat → Except Failure Int} {first all : Nat} {target : Int}
    (below : ∀ ptr < all, ∃ entry, read ptr = .ok entry ∧ entry < target) (inside : first ≤ all) :
    lowerBound read first all target = .ok all := by
  refine searchWithin_eq le_rfl inside (by omega) fun ptr _ less => ?_
  obtain ⟨entry, isEntry, isBelow⟩ := below ptr (by omega)
  rw [isEntry]
  exact congrArg Except.ok ((decide_eq_true isBelow).trans (decide_eq_true (by omega)).symm)

/-- Where all entries are below the number of bits, the search for the last bit ends behind all of
them, whatever part of the index the cache chooses. -/
theorem cache_all {maxSize size numBits all : Nat} {read : Nat → Except Failure Int}
    {cache : List Nat} (small : numBits + 1 < 2 ^ 31)
    (below : ∀ ptr < all, ∃ entry : Int, read ptr = .ok entry ∧ entry < numBits)
    (done : initLowerBoundCache maxSize read all (cacheIncrement numBits size) size = .ok cache) :
    ∃ first, first ≤ all ∧
      elementAt cache (min (numBits / cacheIncrement numBits size) (cache.length - 2))
        = .ok first ∧
      elementAt cache (min (numBits / cacheIncrement numBits size) (cache.length - 2) + 1)
        = .ok all := by
  obtain ⟨-, found, isFound, rfl⟩ := initLowerBoundCache_ok done
  obtain ⟨lengthFound, searches⟩ := mapM_ok_getElem? isFound
  rw [List.length_range] at lengthFound
  have length : (cacheOf all found).length - 2 = size := by
    rw [cacheOf, List.length_cons, List.length_append, lengthFound]
    rfl
  rw [length]
  have later : elementAt (cacheOf all found)
      (min (numBits / cacheIncrement numBits size) size + 1) = .ok all := by
    rcases Nat.lt_or_ge (numBits / cacheIncrement numBits size) size with inside | behind
    · rw [Nat.min_eq_left inside.le]
      obtain ⟨entry, isEntry, searched⟩ := searches _ _ (List.getElem?_range inside)
      have le := cacheIncrement_mul_le (le_refl numBits)
        (show numBits / cacheIncrement numBits size + 1 ≤ size from inside) le_rfl
      have above : numBits
          < cacheIncrement numBits size * (numBits / cacheIncrement numBits size + 1) :=
        Nat.lt_mul_div_succ numBits (cacheIncrement_pos numBits size)
      rw [toInt_of_lt (by omega), lowerBound_all (fun ptr less => ?_) (Nat.zero_le all)] at searched
      · rw [elementAt, cacheOf, List.getElem?_cons_succ, List.getElem?_append_left (by omega),
          isEntry, ← Except.ok.inj searched]
      · obtain ⟨entry, isRead, isBelow⟩ := below ptr less
        exact ⟨entry, isRead, isBelow.trans (by exact_mod_cast above)⟩
    · rw [Nat.min_eq_right behind, elementAt, cacheOf, List.getElem?_cons_succ,
        List.getElem?_append_right (by omega), lengthFound, Nat.sub_self]
      rfl
  cases place : min (numBits / cacheIncrement numBits size) size with
  | zero => exact ⟨0, Nat.zero_le _, rfl, place ▸ later⟩
  | succ i =>
      obtain ⟨entry, isEntry, searched⟩ := searches i i (List.getElem?_range (by omega))
      refine ⟨entry, ?_, ?_, place ▸ later⟩
      · have range := (searchWithin_range searched).2
        omega
      · rw [elementAt, cacheOf, List.getElem?_cons_succ, List.getElem?_append_left (by omega),
          isEntry]

/-- The last entry of the zero index is a number of 32 bits, except of an array of zero bits that
ends in the last chunk of all. -/
theorem zerosBefore_lt_iff {m : Nat} {data : ByteString} (chunkFits : 8 * 2 ^ m < 2 ^ 31)
    (fits : 8 * data.length < 2 ^ 31) :
    2 ^ m * numChunks (2 ^ m) data.length ≤ 2 ^ 28 ∧
      (zerosBefore data (2 ^ m) (numChunks (2 ^ m) data.length) < 2 ^ 31 ↔
        0 < (bitsOf data).count true ∨ data.length + 2 ^ m ≤ 2 ^ 28) := by
  have positive : 0 < 2 ^ m := Nat.two_pow_pos m
  have exponent : m ≤ 28 := by
    by_contra more
    have := Nat.pow_le_pow_right (show 0 < 2 by omega) (show 28 ≤ m by omega)
    omega
  have whole : 2 ^ m * 2 ^ (28 - m) = 2 ^ 28 := by
    rw [← Nat.pow_add]
    congr 1
    omega
  have most : 2 ^ m * numChunks (2 ^ m) data.length ≤ 2 ^ 28 := by
    rw [← whole]
    refine Nat.mul_le_mul_left _ (Nat.le_of_not_lt fun less => ?_)
    have := (lt_numChunks positive).1 less
    omega
  refine ⟨most, ?_⟩
  have all := le_mul_numChunks positive data.length
  have next := (lt_numChunks_add_one positive data.length _).1 (Nat.lt_add_one _)
  rw [zerosBefore, onesBefore, rank_of_length_le (by rw [length_bitsOf, Nat.mul_assoc]; omega),
    Nat.mul_assoc]
  constructor
  · intro small
    by_contra neither
    have less : 2 ^ m * numChunks (2 ^ m) data.length < 2 ^ m * 2 ^ (28 - m) := by omega
    have := Nat.mul_le_mul_left (2 ^ m) (Nat.succ_le_of_lt (Nat.lt_of_mul_lt_mul_left less))
    rw [Nat.mul_succ] at this
    omega
  · omega

/-- The entries of the zero index of an array of zero bits. -/
theorem zeroBitIndex_of_none {k : Nat} (positive : 0 < k) {data : ByteString}
    (words : 4 ∣ data.length) (chunkFits : 4 * k * 8 < 2 ^ 31)
    (zero : (bitsOf data).count true = 0) {ptr : Nat}
    (inside : ptr < numChunks (4 * k) data.length + 1) :
    zeroBitIndex (initIndex data data.length (4 * k)) (4 * k) ptr
      = .ok (toInt (8 * (4 * k * ptr) : Nat)) := by
  have none_ : onesBefore data (4 * k) ptr = 0 :=
    Nat.le_zero.1 (zero ▸ (List.take_sublist _ _).count_le true)
  rw [zeroBitIndex, checkedInt_of_lt chunkFits, bind_ok_, elementAt_initIndex positive words inside,
    bind_ok_, cast_zerosBefore, zerosBefore, none_, Nat.sub_zero, Nat.mul_assoc]
  rfl

/-- There the position of the last zero bit is not found. -/
theorem not_agrees_of_le {maxSize k : Nat} (positive : 0 < k) {data : ByteString}
    (words : 4 ∣ data.length) (chunkFits : 4 * k * 8 < 2 ^ 31) (fits : 8 * data.length < 2 ^ 31)
    (isWhole : 4 * k * numChunks (4 * k) data.length = 2 ^ 28)
    (zero : (bitsOf data).count true = 0) {lb0CacheSize lb1CacheSize : Nat}
    {vector : CachedBitVectorIndex}
    (done : init maxSize (4 * k) data data.length lb0CacheSize lb1CacheSize = .ok vector) :
    ¬ Agrees vector (bitsOf data) := by
  intro agrees
  obtain ⟨-, -, isVector, isIncrement, -, isCache, -⟩ := init_eq_ok_iff.1 done
  obtain ⟨simple, increment, cache, increment1, cache1⟩ := vector
  dsimp only at isVector isIncrement isCache
  subst isVector
  have zeros : (bitsOf data).count false = 8 * data.length := by
    have whole := List.count_true_add_count_false (bitsOf data)
    rw [length_bitsOf, zero, Nat.zero_add] at whole
    exact whole
  have all := le_mul_numChunks (show 0 < 4 * k by omega) data.length
  have next := (lt_numChunks_add_one (show 0 < 4 * k by omega) data.length _).1 (Nat.lt_add_one _)
  have isZero : increment = cacheIncrement (8 * data.length) lb0CacheSize := by
    rw [isIncrement]
    show cacheIncrement (_ - (initIndex data data.length (4 * k)).getLastD 0) _ = _
    rw [getLastD_initIndex positive words, zero, Nat.sub_zero]
  have length := length_initIndex positive words
  have below : ∀ ptr < (initIndex data data.length (4 * k)).length, ∃ entry : Int,
      zeroBitIndex (initIndex data data.length (4 * k)) (4 * k) ptr = .ok entry ∧
        entry < (8 * data.length : Nat) := by
    intro ptr inside
    rw [length] at inside
    refine ⟨_, zeroBitIndex_of_none positive words chunkFits zero inside, ?_⟩
    rcases Nat.lt_or_ge ptr (numChunks (4 * k) data.length) with front | behind
    · have inBuffer := (lt_numChunks (show 0 < 4 * k by omega)).1 front
      rw [toInt_of_lt (by omega)]
      omega
    · obtain rfl : ptr = numChunks (4 * k) data.length := by omega
      rw [isWhole]
      have wrapped : toInt ((8 * 2 ^ 28 : Nat) : Int) = -2 ^ 31 := by decide
      omega
  rw [isZero] at isCache
  obtain ⟨first, inside, isFirst, isLast⟩ := cache_all (by omega) below isCache
  have found := agrees.select0 (8 * data.length) (by omega) (by omega)
  have searched := lowerBound_all below inside
  have overflows : checkedInt (2 ^ 31 : Nat) = .error .overflow := by decide
  have product : ((4 * k * 8 : Nat) : Int) * numChunks (4 * k) data.length = (2 ^ 31 : Nat) := by
    rw [← Nat.cast_mul, Nat.mul_right_comm, isWhole]
    rfl
  unfold select0 select at found
  dsimp only at found
  rw [isZero, isFirst, bind_ok_, isLast, bind_ok_] at found
  obtain ⟨chunkPtr, isPtr, found⟩ := bind_eq_ok_iff.1 found
  obtain rfl : (initIndex data data.length (4 * k)).length = chunkPtr :=
    Except.ok.inj (searched.symm.trans isPtr)
  rw [length] at found
  obtain ⟨before, isBefore, -⟩ := bind_eq_ok_iff.1 found
  obtain ⟨chunkBits, isChunk, isBefore⟩ := bind_eq_ok_iff.1 isBefore
  obtain rfl := (checkedInt_eq_ok_iff.1 isChunk).2
  obtain ⟨bits, isBits, -⟩ := bind_eq_ok_iff.1 isBefore
  have isBits : checkedInt (((4 * k * 8 : Nat) : Int) * numChunks (4 * k) data.length)
    = .ok bits := isBits
  rw [product, overflows] at isBits
  cases isBits

/-! ## When rank and select are those of the bits -/

/-- **When rank and select are those of the bits**: the bits of a chunk and those of the array are
counted by an `int`, the array has a one bit or does not end in the last chunk that such a number
reaches, and no vector is too long. -/
theorem init_agrees_iff (maxSize : Nat) {m : Nat} (four : 2 ≤ m) {data : ByteString}
    (words : 4 ∣ data.length) (lb0CacheSize lb1CacheSize : Nat) :
    (∃ vector, init maxSize (2 ^ m) data data.length lb0CacheSize lb1CacheSize = .ok vector ∧
        Agrees vector (bitsOf data)) ↔
      8 * 2 ^ m < 2 ^ 31 ∧ 8 * data.length < 2 ^ 31 ∧
        (0 < (bitsOf data).count true ∨ data.length + 2 ^ m ≤ 2 ^ 28) ∧
          lb0CacheSize + 2 ≤ maxSize ∧ lb1CacheSize + 2 ≤ maxSize := by
  obtain ⟨m, rfl⟩ := Nat.exists_eq_add_of_le four
  have positive : 0 < 2 ^ m := Nat.two_pow_pos m
  have isWords : 2 ^ (2 + m) = 4 * 2 ^ m := Nat.pow_add 2 2 m
  have last (chunkFits : 8 * 2 ^ (2 + m) < 2 ^ 31) (fits : 8 * data.length < 2 ^ 31) :=
    zerosBefore_lt_iff chunkFits fits
  rw [isWords] at last ⊢
  constructor
  · rintro ⟨vector, done, agrees⟩
    obtain ⟨-, fits, isVector, -, -, isCache0, isCache1⟩ := init_eq_ok_iff.1 done
    have chunkFits : 8 * (4 * 2 ^ m) < 2 ^ 31 := by
      obtain ⟨_, product, -⟩ := bind_eq_ok_iff.1 (agrees.rank1 0 (Nat.zero_le _))
      have small := (checkedInt_eq_ok_iff.1 product).1
      rw [isVector] at small
      exact (Nat.mul_comm _ _).trans_lt small
    refine ⟨chunkFits, fits, ?_, (initLowerBoundCache_ok isCache0).1,
      (initLowerBoundCache_ok isCache1).1⟩
    obtain ⟨most, small⟩ := last chunkFits fits
    refine small.1 (Nat.lt_of_not_le fun large => ?_)
    have none_ : ¬ (0 < (bitsOf data).count true ∨ data.length + 4 * 2 ^ m ≤ 2 ^ 28) :=
      fun either => Nat.not_lt.2 large (small.2 either)
    have le : zerosBefore data (4 * 2 ^ m) (numChunks (4 * 2 ^ m) data.length)
        ≤ 8 * (4 * 2 ^ m) * numChunks (4 * 2 ^ m) data.length := Nat.sub_le _ _
    rw [Nat.mul_assoc 8] at le
    exact not_agrees_of_le positive words (by omega) fits (by omega) (by omega) done agrees
  · rintro ⟨chunkFits, fits, reaches, fits0, fits1⟩
    have small := (last chunkFits fits).2.2 reaches
    exact ⟨_, init_ofWords positive words (by omega) fits small fits0 fits1,
      ofWords_agrees positive words (by omega) fits small _ _⟩

/-- Two words in chunks of the default size. -/
theorem init_agrees_iff_two_words :
    ∃ vector, init (2 ^ 60) (2 ^ 5) [1, 0, 0, 128, 255, 0, 0, 0] 8 2 0 = .ok vector ∧
      Agrees vector (bitsOf [1, 0, 0, 128, 255, 0, 0, 0]) :=
  (@init_agrees_iff (2 ^ 60) 5 (by decide) [1, 0, 0, 128, 255, 0, 0, 0] (by decide) 2 0).2
    (by decide)

/-- In chunks of 2^28 bytes not even the rank of no bits is found. -/
theorem not_init_agrees : ¬ ∀ (m : Nat) (data : ByteString) (lb0CacheSize lb1CacheSize : Nat),
    2 ≤ m → 2 ^ m < 2 ^ 31 → 4 ∣ data.length →
      ∃ vector, init (2 ^ 60) (2 ^ m) data data.length lb0CacheSize lb1CacheSize = .ok vector ∧
        Agrees vector (bitsOf data) := by
  intro claim
  obtain ⟨vector, done, agrees⟩ := claim 28 [] 0 0 (by decide) (by decide) (by decide)
  obtain ⟨-, -, isVector, -⟩ := init_eq_ok_iff.1 done
  have rank := agrees.rank1 0 (Nat.zero_le _)
  have overflows : checkedInt (2 ^ 28 * 8 : Nat) = .error .overflow := by decide
  rw [rank1, isVector] at rank
  obtain ⟨_, product, -⟩ := bind_eq_ok_iff.1 rank
  have product : checkedInt (2 ^ 28 * 8 : Nat) = .ok _ := product
  rw [overflows] at product
  cases product

end CachedBitVectorIndex

end Mozkey.Storage
