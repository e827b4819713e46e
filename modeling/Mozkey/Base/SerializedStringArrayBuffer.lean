import Mozkey.Base.SerializedStringArray

/-!
# Writing serialized string arrays

`SerializeToBuffer` reckons where each string is to stand, makes a buffer of whole words, and stores
the table and the strings in it.  What is stored at one place does not change what was stored at
another, so that in the end every entry of the table and every string stands where it belongs.

`serializeToBuffer_represents` is the main result: an image that is smaller than 2^31 bytes passes the
verification, and its strings are those that it was made from.
-/

namespace Mozkey.SerializedStringArray

/-! ## The buffer -/

/-- What `memcpy` leaves behind, at an offset of a buffer. -/
def store (buffer : ByteString) (offset : Nat) (bytes : ByteString) : Except Fault ByteString :=
  if offset + bytes.length ≤ buffer.length then
    .ok (buffer.take offset ++ (bytes ++ buffer.drop (offset + bytes.length)))
  else .error .outside

/-- The offset of each string, and `current_offset` behind the last one. -/
def placeStrings : Int32 → List ByteString → List (UInt32 × ByteString) × Int32
  | currentOffset, [] => ([], currentOffset)
  | currentOffset, str :: strs =>
      let (placed, last) := placeStrings (Int32.ofInt (currentOffset.toInt + (str.length + 1))) strs
      ((currentOffset.toUInt32, str) :: placed, last)

/-- The loop that fills the buffer, from the string of an index on. -/
def fillStrings : Nat → List (UInt32 × ByteString) → ByteString → Except Fault ByteString
  | _, [], buffer => .ok buffer
  | i, (offset, str) :: rest, buffer => do
      let buffer ← store buffer (4 * (← checked (2 * i + 1)).toNat) (storeUnaligned32 offset)
      let buffer ← store buffer (4 * (← checked (2 * i + 2)).toNat)
        (storeUnaligned32 (UInt32.ofNat str.length))
      let buffer ← store buffer offset.toNat str
      let buffer ← store buffer (offset.toNat + str.length) [0]
      fillStrings (i + 1) rest buffer

/-- `SerializeToBuffer`. -/
def serializeToBuffer (strs : List ByteString) : Except Fault ByteString := do
  let headerByteSize := 4 * (1 + 2 * strs.length)
  let (placed, currentOffset) := placeStrings (Int32.ofNat headerByteSize) strs
  let rounded ← checked (currentOffset.toInt + 3)
  let buffer := List.replicate (4 * toSizeT (rounded.tdiv 4)) 0
  let buffer ← store buffer 0 (storeUnaligned32 (UInt32.ofNat strs.length))
  let buffer ← fillStrings 0 placed buffer
  return buffer.take (toSizeT currentOffset.toInt)

/-! ## What an image is -/

/-- The bytes that strings take, each with its NUL. -/
def stringsSize (strs : List ByteString) : Nat := (strs.map fun str => str.length + 1).sum

/-- The bytes of a whole image. -/
def imageSize (strs : List ByteString) : Nat := 4 * (1 + 2 * strs.length) + stringsSize strs

/-- Where a string stands, if the first one stands at `base`. -/
def position (base : Nat) (strs : List ByteString) (i : Nat) : Nat := base + stringsSize (strs.take i)

/-- The image passes the verification, and its strings are these. -/
structure Represents (data : Block) (strs : List ByteString) : Prop where
  verified : verifyData data = .ok true
  size_eq : (size data).toNat = strs.length
  few : strs.length < 2 ^ 28
  get_eq : ∀ (i : Nat) (inside : i < strs.length), get data (Int32.ofNat i) = .ok strs[i]

/-! ## Sizes and positions -/

@[simp] theorem stringsSize_nil : stringsSize [] = 0 := rfl

@[simp] theorem stringsSize_cons (str : ByteString) (strs : List ByteString) :
    stringsSize (str :: strs) = str.length + 1 + stringsSize strs := rfl

@[simp] theorem position_zero (base : Nat) (strs : List ByteString) : position base strs 0 = base := rfl

@[simp] theorem position_cons_succ (base i : Nat) (str : ByteString) (strs : List ByteString) :
    position base (str :: strs) (i + 1) = position (base + (str.length + 1)) strs i := by
  simp only [position, List.take_succ_cons, stringsSize_cons]
  omega

theorem position_succ (base : Nat) {strs : List ByteString} {i : Nat} (inside : i < strs.length) :
    position base strs (i + 1) = position base strs i + strs[i].length + 1 := by
  rw [position, position, List.take_succ_eq_append_getElem inside, stringsSize, List.map_append,
    List.sum_append]
  simp only [List.map_cons, List.map_nil, List.sum_cons, List.sum_nil, stringsSize]
  omega

theorem position_le (base : Nat) {strs : List ByteString} {i : Nat} (inside : i ≤ strs.length) :
    position base strs i ≤ base + stringsSize strs := by
  induction strs generalizing base i with
  | nil => simp [position]
  | cons str strs ih =>
      cases i with
      | zero => simp
      | succ i =>
          have rest := ih (base + (str.length + 1)) (Nat.le_of_succ_le_succ inside)
          rw [position_cons_succ, stringsSize_cons]
          omega

/-! ## Storing -/

/-- What is stored, and what is kept. -/
theorem store_ok (buffer : ByteString) (offset : Nat) (bytes : ByteString)
    (fits : offset + bytes.length ≤ buffer.length) :
    ∃ after, store buffer offset bytes = .ok after ∧ after.length = buffer.length ∧
      StoredAt after offset bytes ∧
        ∀ place kept, StoredAt buffer place kept →
          place + kept.length ≤ offset ∨ offset + bytes.length ≤ place → StoredAt after place kept := by
  refine ⟨_, if_pos fits, ?_, ?_, ?_⟩
  · simp only [List.length_append, List.length_take, List.length_drop]
    omega
  · exact ⟨_, _, rfl, by rw [List.length_take, Nat.min_eq_left (by omega)]⟩
  · rintro place kept ⟨front, rest, rfl, rfl⟩ (before | behind)
    · refine ⟨front, rest.take (offset - (front ++ kept).length)
        ++ (bytes ++ (front ++ (kept ++ rest)).drop (offset + bytes.length)), ?_, rfl⟩
      have whole : front ++ (kept ++ rest) = (front ++ kept) ++ rest := (List.append_assoc ..).symm
      have length : (front ++ kept).length ≤ offset := by
        rw [List.length_append]
        exact before
      nth_rewrite 1 [whole]
      rw [List.take_append, List.take_of_length_le length, List.append_assoc, List.append_assoc]
    · refine ⟨front.take offset ++ (bytes ++ front.drop (offset + bytes.length)), rest, ?_, ?_⟩
      · rw [List.take_append_of_le_length (by omega), List.drop_append_of_le_length behind]
        simp only [List.append_assoc]
      · simp only [List.length_append, List.length_take, List.length_drop]
        omega

theorem toInt_ofNat_small {n : Nat} (small : n < 2 ^ 31) : (Int32.ofNat n).toInt = n :=
  Int32.toInt_ofNat_of_lt small

theorem toUInt32_ofNat (n : Nat) : (Int32.ofNat n).toUInt32 = UInt32.ofNat n := rfl

/-- The offset of the next string. -/
theorem ofInt_toInt_add {base : Nat} (small : base < 2 ^ 31) (more : Nat) :
    Int32.ofInt ((Int32.ofNat base).toInt + (more + 1)) = Int32.ofNat (base + (more + 1)) := by
  rw [toInt_ofNat_small small]
  exact Int32.ofInt_eq_ofNat

theorem toNat_ofNat_small {n : Nat} (small : n < 2 ^ 31) : (UInt32.ofNat n).toNat = n :=
  UInt32.toNat_ofNat_of_lt' (lt_trans small (by decide))

/-! ## Filling the buffer -/

/-- An entry of the table and its string. -/
structure EntryAt (buffer : ByteString) (i offset : Nat) (str : ByteString) : Prop where
  offsetWord : StoredAt buffer (8 * i + 4) (storeUnaligned32 (UInt32.ofNat offset))
  lengthWord : StoredAt buffer (8 * i + 8) (storeUnaligned32 (UInt32.ofNat str.length))
  string : StoredAt buffer offset str
  terminator : StoredAt buffer (offset + str.length) [0]

/-- **The loop stores every entry**, and changes nothing in front of its part of the table and
nothing between the table and its part of the strings. -/
theorem fillStrings_ok (strs : List ByteString) (i base : Nat) (buffer : ByteString)
    (table : 8 * (i + strs.length) + 4 ≤ base) (fits : base + stringsSize strs ≤ buffer.length)
    (small : base + stringsSize strs < 2 ^ 31) :
    ∃ after, fillStrings i (placeStrings (Int32.ofNat base) strs).1 buffer = .ok after ∧
      after.length = buffer.length ∧
        (∀ (j : Nat) (inside : j < strs.length), EntryAt after (i + j) (position base strs j) strs[j]) ∧
          ∀ place kept, StoredAt buffer place kept →
            place + kept.length ≤ 8 * i + 4 ∨
              8 * (i + strs.length) + 4 ≤ place ∧ place + kept.length ≤ base →
            StoredAt after place kept := by
  induction strs generalizing i base buffer with
  | nil => exact ⟨buffer, rfl, rfl, fun j inside => absurd inside (Nat.not_lt_zero j), fun _ _ kept _ => kept⟩
  | cons str strs ih =>
      rw [List.length_cons] at table
      rw [stringsSize_cons] at fits small
      have word : ∀ x, (storeUnaligned32 x).length = 4 := fun _ => rfl
      have offsetLength := word (UInt32.ofNat base)
      have lengthLength := word (UInt32.ofNat str.length)
      have nulLength : ([0] : ByteString).length = 1 := rfl
      have first : checked (2 * (i : Int) + 1) = .ok (2 * i + 1) := checked_ok (by omega) (by omega)
      have second : checked (2 * (i : Int) + 2) = .ok (2 * i + 2) := checked_ok (by omega) (by omega)
      obtain ⟨b₁, ran₁, length₁, stored₁, kept₁⟩ := store_ok buffer (8 * i + 4)
        (storeUnaligned32 (UInt32.ofNat base)) (by rw [word]; omega)
      obtain ⟨b₂, ran₂, length₂, stored₂, kept₂⟩ := store_ok b₁ (8 * i + 8)
        (storeUnaligned32 (UInt32.ofNat str.length)) (by rw [word]; omega)
      obtain ⟨b₃, ran₃, length₃, stored₃, kept₃⟩ := store_ok b₂ base str (by omega)
      obtain ⟨b₄, ran₄, length₄, stored₄, kept₄⟩ := store_ok b₃
        (base + str.length) [0] (by rw [List.length_singleton]; omega)
      rw [word] at kept₁ kept₂
      rw [List.length_singleton] at kept₄
      obtain ⟨after, ran, length, entries, kept⟩ := ih (i + 1) (base + (str.length + 1)) b₄
        (by omega) (by omega) (by omega)
      refine ⟨after, ?_, by omega, ?_, ?_⟩
      · have place₁ : 4 * (2 * (i : Int) + 1).toNat = 8 * i + 4 := by omega
        have place₂ : 4 * (2 * (i : Int) + 2).toNat = 8 * i + 8 := by omega
        simp only [placeStrings, fillStrings, toUInt32_ofNat,
          ofInt_toInt_add (show base < 2 ^ 31 by omega), first, second, ok_bind, place₁, place₂,
          ran₁, ran₂, toNat_ofNat_small (show base < 2 ^ 31 by omega), ran₃, ran₄]
        exact ran
      · intro j inside
        cases j with
        | zero =>
            rw [Nat.add_zero, position_zero, List.getElem_cons_zero]
            refine ⟨kept _ _ (kept₄ _ _ (kept₃ _ _ (kept₂ _ _ stored₁ ?_) ?_) ?_) ?_,
              kept _ _ (kept₄ _ _ (kept₃ _ _ stored₂ ?_) ?_) ?_, kept _ _ (kept₄ _ _ stored₃ ?_) ?_,
              kept _ _ stored₄ ?_⟩
            all_goals omega
        | succ j =>
            rw [position_cons_succ, List.getElem_cons_succ, show i + (j + 1) = i + 1 + j by omega]
            exact entries j (Nat.lt_of_succ_lt_succ inside)
      · intro place old stored apart
        rw [List.length_cons] at apart
        refine kept _ _ (kept₄ _ _ (kept₃ _ _ (kept₂ _ _ (kept₁ _ _ stored ?_) ?_) ?_) ?_) ?_
        all_goals omega

/-- Where the strings end. -/
theorem placeStrings_last (strs : List ByteString) (base : Nat)
    (small : base + stringsSize strs < 2 ^ 31) :
    (placeStrings (Int32.ofNat base) strs).2 = Int32.ofNat (base + stringsSize strs) := by
  induction strs generalizing base with
  | nil => rfl
  | cons str strs ih =>
      rw [stringsSize_cons] at small
      simp only [placeStrings, ofInt_toInt_add (show base < 2 ^ 31 by omega)]
      rw [ih _ (by omega), stringsSize_cons]
      exact congrArg Int32.ofNat (by omega)

/-! ## Reading an image -/

/-- What ends in front of a place stands in the part before it. -/
theorem storedAt_take {buffer bytes : ByteString} {place n : Nat}
    (stored : StoredAt buffer place bytes) (inside : place + bytes.length ≤ n) :
    StoredAt (buffer.take n) place bytes := by
  obtain ⟨front, rest, rfl, rfl⟩ := stored
  refine ⟨front, rest.take (n - front.length - bytes.length), ?_, rfl⟩
  rw [List.take_append, List.take_of_length_le (by omega), List.take_append,
    List.take_of_length_le (by omega)]

theorem EntryAt.take {buffer : ByteString} {i offset n : Nat} {str : ByteString}
    (entry : EntryAt buffer i offset str) (table : 8 * i + 12 ≤ n)
    (inside : offset + str.length + 1 ≤ n) : EntryAt (buffer.take n) i offset str where
  offsetWord := storedAt_take entry.offsetWord (show 8 * i + 4 + 4 ≤ n by omega)
  lengthWord := storedAt_take entry.lengthWord (show 8 * i + 8 + 4 ≤ n by omega)
  string := storedAt_take entry.string (by omega)
  terminator := storedAt_take entry.terminator (show offset + str.length + 1 ≤ n from inside)

theorem loadUnaligned32At_storedAt {buffer : ByteString} {place : Nat} {x : UInt32}
    (stored : StoredAt buffer place (storeUnaligned32 x)) :
    loadUnaligned32At (buffer.drop place) = x := by
  obtain ⟨front, rest, rfl, rfl⟩ := stored
  rw [List.drop_left, loadUnaligned32At_store]

/-- The bytes of an image. -/
structure IsImage (data : Block) (strs : List ByteString) : Prop where
  small : imageSize strs < 2 ^ 31
  length_eq : data.bytes.length = imageSize strs
  count : StoredAt data.bytes 0 (storeUnaligned32 (UInt32.ofNat strs.length))
  entry : ∀ (i : Nat) (inside : i < strs.length),
    EntryAt data.bytes i (position (4 * (1 + 2 * strs.length)) strs i) strs[i]

/-- **What is written is an image.** -/
theorem serializeToBuffer_isImage {strs : List ByteString} (small : imageSize strs + 3 < 2 ^ 31) :
    ∃ data : Block, serializeToBuffer strs = .ok data.bytes ∧ IsImage data strs := by
  have header : imageSize strs = 4 * (1 + 2 * strs.length) + stringsSize strs := rfl
  have last := placeStrings_last strs (4 * (1 + 2 * strs.length)) (by omega)
  rw [← header] at last
  have end_ : (Int32.ofNat (imageSize strs)).toInt = imageSize strs := toInt_ofNat_small (by omega)
  have rounded : checked ((imageSize strs : Int) + 3) = .ok (imageSize strs + 3) :=
    checked_ok (by omega) (by omega)
  have words : toSizeT (((imageSize strs : Int) + 3).tdiv 4) = (imageSize strs + 3) / 4 := by
    have quotient : ((imageSize strs : Int) + 3).tdiv 4 = ((imageSize strs + 3) / 4 : Nat) := rfl
    have same := @toSizeT_of_nonneg ((imageSize strs + 3) / 4 : Nat) (by omega) (by omega)
    rw [quotient]
    omega
  have taken : toSizeT (imageSize strs : Int) = imageSize strs := by
    have same := @toSizeT_of_nonneg (imageSize strs : Int) (by omega) (by omega)
    omega
  obtain ⟨counted, ranCount, countedLength, count, _⟩ := store_ok
    (List.replicate (4 * ((imageSize strs + 3) / 4)) 0) 0
    (storeUnaligned32 (UInt32.ofNat strs.length)) (by
      rw [List.length_replicate]
      show 0 + 4 ≤ _
      omega)
  rw [List.length_replicate] at countedLength
  obtain ⟨filled, ran, filledLength, entries, kept⟩ := fillStrings_ok strs 0
    (4 * (1 + 2 * strs.length)) counted (by omega) (by omega) (by omega)
  have length : (filled.take (imageSize strs)).length = imageSize strs := by
    rw [List.length_take]
    omega
  refine ⟨⟨filled.take (imageSize strs), by omega⟩, ?_, by omega, length, ?_, ?_⟩
  · have ranAll : fillStrings 0 (placeStrings (Int32.ofNat (4 * (1 + 2 * strs.length))) strs).1 counted
        = .ok filled := ran
    simp only [serializeToBuffer, last, end_, rounded, ok_bind, words, ranCount, ranAll, taken]
    rfl
  · refine storedAt_take (kept _ _ count (.inl ?_)) ?_
    · show 0 + 4 ≤ _
      omega
    · show 0 + 4 ≤ _
      omega
  · intro i inside
    have ends := position_succ (4 * (1 + 2 * strs.length)) inside
    have within := position_le (4 * (1 + 2 * strs.length)) (show i + 1 ≤ strs.length from inside)
    have entry := entries i inside
    rw [Nat.zero_add] at entry
    exact entry.take (by omega) (by omega)

namespace IsImage

variable {data : Block} {strs : List ByteString} (image : IsImage data strs)
include image

theorem few : strs.length < 2 ^ 28 := by
  have small := image.small
  rw [imageSize] at small
  omega

theorem size_eq : (size data).toNat = strs.length := by
  have few := image.few
  have word := loadUnaligned32At_storedAt image.count
  rw [List.drop_zero] at word
  rw [size, word, toNat_ofNat_small (by omega)]

theorem minRequiredDataSize_eq : (minRequiredDataSize data).toNat = 4 * (1 + 2 * strs.length) := by
  have few := image.few
  have four : (4 : UInt32).toNat = 4 := rfl
  have eight : (4 + 4 : UInt32).toNat = 8 := rfl
  rw [minRequiredDataSize, UInt32.toNat_add, UInt32.toNat_mul, four, eight, image.size_eq]
  omega

variable {i : Nat} (inside : i < strs.length)
include inside

omit image in
theorem position_lt :
    position (4 * (1 + 2 * strs.length)) strs i + strs[i].length < imageSize strs := by
  have ends := position_succ (4 * (1 + 2 * strs.length)) inside
  have within := position_le (4 * (1 + 2 * strs.length)) (show i + 1 ≤ strs.length from inside)
  rw [imageSize]
  omega

/-- Each string is accepted where the one before it ends. -/
theorem accepted :
    Accepted data i (position (4 * (1 + 2 * strs.length)) strs i) ∧
      offset data i = position (4 * (1 + 2 * strs.length)) strs i ∧ len data i = strs[i].length := by
  have small := image.small
  have few := image.few
  have ends := position_lt inside
  have entry := image.entry i inside
  have length := image.length_eq
  have offset_eq : offset data i = position (4 * (1 + 2 * strs.length)) strs i := by
    rw [offset, show 4 * (2 * i + 1) = 8 * i + 4 by omega,
      loadUnaligned32At_storedAt entry.offsetWord]
    exact toInt_ofNat_small (by omega)
  have len_eq : len data i = strs[i].length := by
    rw [len, show 4 * (2 * i + 2) = 8 * i + 8 by omega,
      loadUnaligned32At_storedAt entry.lengthWord]
    exact toInt_ofNat_small (by omega)
  have table : 4 * (1 + 2 * strs.length) ≤ imageSize strs := Nat.le_add_right _ _
  refine ⟨⟨⟨by omega, by omega, by omega, by omega, by omega⟩, by omega, by omega, by omega, by omega,
    ?_⟩, offset_eq, len_eq⟩
  rw [offset_eq, len_eq, show ((position (4 * (1 + 2 * strs.length)) strs i : Int) + strs[i].length).toNat
    = position (4 * (1 + 2 * strs.length)) strs i + strs[i].length by omega]
  exact entry.terminator.head

/-- The strings of an image. -/
theorem get_eq : get data (Int32.ofNat i) = .ok strs[i] := by
  have small := image.small
  have length := image.length_eq
  have ends := position_lt inside
  obtain ⟨accepted, offset_eq, len_eq⟩ := image.accepted inside
  obtain ⟨first, second, foundOffset, foundLength, sameOffset, sameLength⟩ := accepted.found
  have first_eq : first.toNat = position (4 * (1 + 2 * strs.length)) strs i := by omega
  have second_eq : second.toNat = strs[i].length := by omega
  rw [get, toUInt32_ofNat, dataAt, foundOffset, ok_bind, foundLength, ok_bind, if_pos (by omega),
    first_eq, second_eq, (image.entry i inside).string.take_drop]
  rfl

omit inside

/-- The verification comes to each string of an image, and behind the last one. -/
theorem comes {i : Nat} (le : i ≤ strs.length) :
    Comes data i (position (4 * (1 + 2 * strs.length)) strs i) := by
  induction i with
  | zero =>
      have few := image.few
      have start : toDifference (minRequiredDataSize data) = (4 * (1 + 2 * strs.length) : Nat) := by
        have word : minRequiredDataSize data = UInt32.ofNat (4 * (1 + 2 * strs.length)) := by
          rw [← image.minRequiredDataSize_eq, UInt32.ofNat_toNat]
        rw [word]
        exact toInt_ofNat_small (by omega)
      rw [position_zero, ← start]
      exact .start
  | succ i ih =>
      obtain ⟨accepted, offset_eq, len_eq⟩ := image.accepted le
      have next := (ih (by omega)).next (by rw [image.size_eq]; exact le) accepted
      have ends := position_succ (4 * (1 + 2 * strs.length)) (show i < strs.length from le)
      rwa [offset_eq, len_eq, show (position (4 * (1 + 2 * strs.length)) strs i : Int)
        + strs[i].length + 1 = position (4 * (1 + 2 * strs.length)) strs (i + 1) by omega] at next

/-- **An image passes the verification**, and its strings are those that it was made from. -/
theorem represents : Represents data strs where
  verified := by
    have length := image.length_eq
    have header : imageSize strs = 4 * (1 + 2 * strs.length) + stringsSize strs := rfl
    have comes := image.comes (le_refl strs.length)
    rw [← image.size_eq] at comes
    rw [verifyData, if_neg (by omega), if_neg (by rw [image.minRequiredDataSize_eq]; omega),
      comes.verifyStrings_eq le_rfl, Nat.sub_self]
    rfl
  size_eq := image.size_eq
  few := image.few
  get_eq _ inside := image.get_eq inside

end IsImage

/-- **What is written represents the strings.** -/
theorem serializeToBuffer_represents {strs : List ByteString} (small : imageSize strs + 3 < 2 ^ 31) :
    ∃ data : Block, serializeToBuffer strs = .ok data.bytes ∧ Represents data strs := by
  obtain ⟨data, ran, image⟩ := serializeToBuffer_isImage small
  exact ⟨data, ran, image.represents⟩

end Mozkey.SerializedStringArray
