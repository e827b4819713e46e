import Mozkey.Base.Bits

/-!
# Serialized string arrays

A serialized array of strings begins with a table of `uint32_t` words: the number of strings, and
the offset and the length of each.  The strings follow, each with a terminating NUL.

`VerifyData` is to find out whether a block is such an array.  A read outside of the block and an
overflow of signed arithmetic have no meaning in the source; they are faults here.

The main result is `verifyData_safe_iff`: the verification is safe exactly when no string that it comes to
has its entry of the table outside of the block, overflows, or ends where the block ends.
-/

namespace Mozkey.SerializedStringArray

/-- What has no meaning in the source. -/
inductive Fault
  /-- A read outside of the block. -/
  | outside
  /-- An overflow of signed arithmetic. -/
  | overflow
  deriving DecidableEq, Repr

/-- A block of memory; no object takes half of the address space. -/
structure Block where
  bytes : ByteString
  addressable : bytes.length < 2 ^ 63

/-- A `uint32_t` as a `difference_type`. -/
def toDifference (value : UInt32) : Int := value.toInt32.toInt

/-- A `difference_type` as a `size_t`. -/
def toSizeT (value : Int) : Nat := (value % 2 ^ 64).toNat

/-- The value of an expression of type `difference_type`, where it does not overflow. -/
def checked (value : Int) : Except Fault Int :=
  if (Int32.ofInt value).toInt = value then .ok value else .error .overflow

/-- `u32_array[index]`. -/
def wordAt (data : Block) (index : Int) : Except Fault UInt32 :=
  if 0 ≤ index ∧ 4 * index + 4 ≤ data.bytes.length then
    .ok (loadUnaligned32At (data.bytes.drop (4 * index.toNat)))
  else .error .outside

/-- `data[index]`. -/
def charAt (data : Block) (index : Int) : Except Fault UInt8 :=
  if 0 ≤ index ∧ index < data.bytes.length then .ok (byteAt data.bytes index.toNat)
  else .error .outside

/-! ## Access -/

/-- `OffsetAt`. -/
def offsetAt (data : Block) (index : UInt32) : Except Fault UInt32 :=
  wordAt data (1 + (index * 2).toNat)

/-- `LengthAt`. -/
def lengthAt (data : Block) (index : UInt32) : Except Fault UInt32 :=
  wordAt data (1 + (index * 2 + 1).toNat)

/-- `DataAt`: the bytes of a view, which has to lie inside of the block. -/
def dataAt (data : Block) (index : UInt32) : Except Fault ByteString := do
  let offset ← offsetAt data index
  let length ← lengthAt data index
  if offset.toNat + length.toNat ≤ data.bytes.length then
    return (data.bytes.drop offset.toNat).take length.toNat
  else throw .outside

/-- `operator[]`. -/
def get (data : Block) (i : Int32) : Except Fault ByteString := dataAt data i.toUInt32

/-- `size`. -/
def size (data : Block) : UInt32 := loadUnaligned32At data.bytes

/-! ## Verification -/

/-- One iteration of the loop of `VerifyData`: nothing where it returns false, or the end of the
string. -/
def verifyString (data : Block) (i : Nat) (prevStrEnd : Int) : Except Fault (Option Int) := do
  let offset := toDifference (← wordAt data (← checked (2 * i + 1)))
  let len := toDifference (← wordAt data (← checked (2 * i + 2)))
  if offset < prevStrEnd then return none
  if toSizeT len ≥ data.bytes.length ∨ toSizeT offset > data.bytes.length - toSizeT len then
    return none
  let strEnd ← checked (offset + len)
  if (← charAt data strEnd) ≠ 0 then return none
  return some (← checked (strEnd + 1))

/-- The loop of `VerifyData`, with the number of strings that are left. -/
def verifyStrings (data : Block) : Nat → Nat → Int → Except Fault Bool
  | 0, _, _ => .ok true
  | left + 1, i, prevStrEnd =>
      match verifyString data i prevStrEnd with
      | .error fault => .error fault
      | .ok none => .ok false
      | .ok (some strEnd) => verifyStrings data left (i + 1) strEnd

/-- The size of the table as it is reckoned in `uint32_t`. -/
def minRequiredDataSize (data : Block) : UInt32 := 4 + (4 + 4) * size data

/-- `VerifyData`. -/
def verifyData (data : Block) : Except Fault Bool :=
  if data.bytes.length < 4 then .ok false
  else if data.bytes.length < (minRequiredDataSize data).toNat then .ok false
  else verifyStrings data (size data).toNat 0 (toDifference (minRequiredDataSize data))

/-- The offset of a string, as the verification takes it. -/
def offset (data : Block) (i : Nat) : Int :=
  toDifference (loadUnaligned32At (data.bytes.drop (4 * (2 * i + 1))))

/-- The length of a string, as the verification takes it. -/
def len (data : Block) (i : Nat) : Int :=
  toDifference (loadUnaligned32At (data.bytes.drop (4 * (2 * i + 2))))

/-- Every string has its offset, its length and its NUL inside of the block, the strings lie one
behind another, and no access reads outside. -/
structure WellFormed (data : Block) : Prop where
  inside : ∀ i, i < (size data).toNat → ∃ offset length,
    offsetAt data (UInt32.ofNat i) = .ok offset ∧ lengthAt data (UInt32.ofNat i) = .ok length ∧
      offset.toNat + length.toNat < data.bytes.length ∧
        byteAt data.bytes (offset.toNat + length.toNat) = 0
  apart : ∀ i j, i < j → j < (size data).toNat → ∃ offset length next,
    offsetAt data (UInt32.ofNat i) = .ok offset ∧ lengthAt data (UInt32.ofNat i) = .ok length ∧
      offsetAt data (UInt32.ofNat j) = .ok next ∧ offset.toNat + length.toNat + 1 ≤ next.toNat
  readable : ∀ i, i < (size data).toNat → ∃ value, get data (Int32.ofNat i) = .ok value

/-- The verification comes to an answer, and the block is well formed where it is true. -/
def Safe (data : Block) : Prop :=
  ∃ answer, verifyData data = .ok answer ∧ (answer = true → WellFormed data)

/-! ## What the loop comes to -/

/-- The string passes the two comparisons with the size of the block. -/
structure Passes (data : Block) (i : Nat) (prevStrEnd : Int) : Prop where
  behind : prevStrEnd ≤ offset data i
  offsetNonneg : 0 ≤ offset data i
  lenNonneg : 0 ≤ len data i
  shorter : len data i < data.bytes.length
  fits : offset data i + len data i ≤ data.bytes.length

/-- The string is accepted. -/
structure Accepted (data : Block) (i : Nat) (prevStrEnd : Int) : Prop
    extends Passes data i prevStrEnd where
  counted : 2 * i + 2 < 2 ^ 31
  table : 8 * i + 12 ≤ data.bytes.length
  ends : offset data i + len data i + 1 < 2 ^ 31
  room : offset data i + len data i < data.bytes.length
  terminated : byteAt data.bytes (offset data i + len data i).toNat = 0

/-- The strings that are come to: all those before are accepted. -/
inductive Comes (data : Block) : Nat → Int → Prop
  | start : Comes data 0 (toDifference (minRequiredDataSize data))
  | next {i : Nat} {prevStrEnd : Int} : Comes data i prevStrEnd → i < (size data).toNat →
      Accepted data i prevStrEnd → Comes data (i + 1) (offset data i + len data i + 1)

/-- The entry of the string is inside of the block, and if it passes the comparisons, then it does
not end where the block ends, and nothing overflows. -/
structure Checkable (data : Block) (i : Nat) (prevStrEnd : Int) : Prop where
  counted : 2 * i + 2 < 2 ^ 31
  table : 8 * i + 12 ≤ data.bytes.length
  room : Passes data i prevStrEnd → offset data i + len data i ≠ data.bytes.length ∧
    offset data i + len data i < 2 ^ 31 ∧
      (byteAt data.bytes (offset data i + len data i).toNat = 0 →
        offset data i + len data i + 1 < 2 ^ 31)

/-- Every string that is come to can be checked. -/
def AllCheckable (data : Block) : Prop :=
  4 ≤ data.bytes.length → (minRequiredDataSize data).toNat ≤ data.bytes.length →
    ∀ i prevStrEnd, Comes data i prevStrEnd → i < (size data).toNat → Checkable data i prevStrEnd

variable {data : Block} {i : Nat} {prevStrEnd : Int}

theorem checked_ok {value : Int} (nonnegative : 0 ≤ value) (small : value < 2 ^ 31) :
    checked value = .ok value := by
  have same : (Int32.ofInt value).toInt = value := by
    have size : Int32.size = 4294967296 := rfl
    rw [Int32.toInt_ofInt, size, Int.bmod_eq_of_le (by omega) (by omega)]
  rw [checked, if_pos same]

theorem checked_overflow {value : Int} (large : 2 ^ 31 ≤ value) :
    checked value = .error .overflow := by
  have less := Int32.toInt_lt (Int32.ofInt value)
  rw [checked, if_neg (by omega)]

theorem wordAt_ok {index : Nat} (inside : 4 * index + 4 ≤ data.bytes.length) :
    wordAt data index = .ok (loadUnaligned32At (data.bytes.drop (4 * index))) := by
  rw [wordAt, if_pos (by omega), Int.toNat_natCast]

theorem wordAt_outside {index : Nat} (outside : ¬ 4 * index + 4 ≤ data.bytes.length) :
    wordAt data index = .error .outside := by
  rw [wordAt, if_neg (by omega)]

theorem toDifference_lt (value : UInt32) : toDifference value < 2 ^ 31 := Int32.toInt_lt _

theorem le_toDifference (value : UInt32) : -2 ^ 31 ≤ toDifference value := Int32.le_toInt _

theorem toSizeT_of_nonneg {value : Int} (nonnegative : 0 ≤ value) (small : value < 2 ^ 31) :
    (toSizeT value : Int) = value := by
  have same : value % 2 ^ 64 = value := Int.emod_eq_of_lt nonnegative (by omega)
  rw [toSizeT, same, Int.toNat_of_nonneg nonnegative]

theorem toSizeT_of_neg {value : Int} (negative : value < 0) (least : -2 ^ 31 ≤ value) :
    (2 : Int) ^ 63 ≤ toSizeT value := by
  have wrapped : value % 2 ^ 64 = value + 2 ^ 64 := by
    rw [← Int.add_emod_right, Int.emod_eq_of_lt (by omega) (by omega)]
  rw [toSizeT, wrapped, Int.toNat_of_nonneg (by omega)]
  omega

/-- The comparisons with the size of the block, in whole numbers. -/
theorem not_rejected_iff :
    (¬ offset data i < prevStrEnd ∧
      ¬ (toSizeT (len data i) ≥ data.bytes.length ∨
        toSizeT (offset data i) > data.bytes.length - toSizeT (len data i))) ↔
      Passes data i prevStrEnd := by
  have addressable := data.addressable
  have lenLess : len data i < 2 ^ 31 := toDifference_lt _
  have lenLeast : -2 ^ 31 ≤ len data i := le_toDifference _
  have offsetLess : offset data i < 2 ^ 31 := toDifference_lt _
  have offsetLeast : -2 ^ 31 ≤ offset data i := le_toDifference _
  constructor
  · intro kept
    have lenNonneg : 0 ≤ len data i := by
      by_contra negative
      have large := toSizeT_of_neg (Int.not_le.mp negative) lenLeast
      omega
    have offsetNonneg : 0 ≤ offset data i := by
      by_contra negative
      have large := toSizeT_of_neg (Int.not_le.mp negative) offsetLeast
      omega
    have lenSame := toSizeT_of_nonneg lenNonneg lenLess
    have offsetSame := toSizeT_of_nonneg offsetNonneg offsetLess
    exact ⟨by omega, offsetNonneg, lenNonneg, by omega, by omega⟩
  · intro passes
    have lenSame := toSizeT_of_nonneg passes.lenNonneg lenLess
    have offsetSame := toSizeT_of_nonneg passes.offsetNonneg offsetLess
    have behind := passes.behind
    have shorter := passes.shorter
    have fits := passes.fits
    omega

/-! ## One iteration -/

theorem ok_bind {α β : Type} (value : α) (next : α → Except Fault β) :
    (Except.ok value >>= next) = next value := rfl

theorem error_bind {α β : Type} (fault : Fault) (next : α → Except Fault β) :
    (Except.error fault >>= next) = .error fault := rfl

/-- An iteration whose entry of the table can be read. -/
theorem verifyString_table (counted : 2 * i + 2 < 2 ^ 31) (table : 8 * i + 12 ≤ data.bytes.length) :
    verifyString data i prevStrEnd =
      if offset data i < prevStrEnd then .ok none
      else if toSizeT (len data i) ≥ data.bytes.length ∨
          toSizeT (offset data i) > data.bytes.length - toSizeT (len data i) then .ok none
      else do
        let strEnd ← checked (offset data i + len data i)
        if (← charAt data strEnd) ≠ 0 then return none
        return some (← checked (strEnd + 1)) := by
  have first : checked (2 * (i : Int) + 1) = .ok ((2 * i + 1 : Nat) : Int) := by
    rw [checked_ok (by omega) (by omega)]
    push_cast
    rfl
  have second : checked (2 * (i : Int) + 2) = .ok ((2 * i + 2 : Nat) : Int) := by
    rw [checked_ok (by omega) (by omega)]
    push_cast
    rfl
  have firstWord : wordAt data ((2 * i + 1 : Nat) : Int) = .ok _ := wordAt_ok (by omega)
  have secondWord : wordAt data ((2 * i + 2 : Nat) : Int) = .ok _ := wordAt_ok (by omega)
  rw [verifyString, first, ok_bind, firstWord, ok_bind, second, ok_bind, secondWord, ok_bind]
  rfl

/-- An iteration whose entry of the table can not be read. -/
theorem verifyString_noTable
    (missing : ¬ (2 * i + 2 < 2 ^ 31 ∧ 8 * i + 12 ≤ data.bytes.length)) :
    ∃ fault, verifyString data i prevStrEnd = .error fault := by
  have first : checked (2 * (i : Int) + 1) = .ok ((2 * i + 1 : Nat) : Int) ∨
      checked (2 * (i : Int) + 1) = .error .overflow := by
    by_cases small : 2 * i + 1 < 2 ^ 31
    · left
      rw [checked_ok (by omega) (by omega)]
      push_cast
      rfl
    · exact .inr (checked_overflow (by omega))
  rcases first with first | first
  · rw [verifyString, first, ok_bind]
    by_cases firstTable : 4 * (2 * i + 1) + 4 ≤ data.bytes.length
    · rw [wordAt_ok firstTable, ok_bind]
      by_cases counted : 2 * i + 2 < 2 ^ 31
      · have second : checked (2 * (i : Int) + 2) = .ok ((2 * i + 2 : Nat) : Int) := by
          rw [checked_ok (by omega) (by omega)]
          push_cast
          rfl
        rw [second, ok_bind, wordAt_outside (by omega), error_bind]
        exact ⟨_, rfl⟩
      · rw [checked_overflow (by omega), error_bind]
        exact ⟨_, rfl⟩
    · rw [wordAt_outside firstTable, error_bind]
      exact ⟨_, rfl⟩
  · rw [verifyString, first, error_bind]
    exact ⟨_, rfl⟩

/-- A string that does not pass the comparisons. -/
theorem verifyString_rejected (counted : 2 * i + 2 < 2 ^ 31)
    (table : 8 * i + 12 ≤ data.bytes.length) (rejected : ¬ Passes data i prevStrEnd) :
    verifyString data i prevStrEnd = .ok none := by
  rw [verifyString_table counted table]
  split
  · rfl
  rename_i behind
  split
  · rfl
  · rename_i fits
    exact absurd (not_rejected_iff.mp ⟨behind, fits⟩) rejected

/-- A string that passes the comparisons: what its end leads to. -/
theorem verifyString_passes (counted : 2 * i + 2 < 2 ^ 31)
    (table : 8 * i + 12 ≤ data.bytes.length) (passes : Passes data i prevStrEnd) :
    verifyString data i prevStrEnd = do
      let strEnd ← checked (offset data i + len data i)
      if (← charAt data strEnd) ≠ 0 then return none
      return some (← checked (strEnd + 1)) := by
  obtain ⟨behind, fits⟩ := not_rejected_iff.mpr passes
  rw [verifyString_table counted table, if_neg behind, if_neg fits]

/-- A string that passes the comparisons and ends inside of the block. -/
theorem verifyString_room (counted : 2 * i + 2 < 2 ^ 31)
    (table : 8 * i + 12 ≤ data.bytes.length) (passes : Passes data i prevStrEnd)
    (room : offset data i + len data i < data.bytes.length)
    (small : offset data i + len data i < 2 ^ 31) :
    verifyString data i prevStrEnd =
      if byteAt data.bytes (offset data i + len data i).toNat ≠ 0 then .ok none
      else (checked (offset data i + len data i + 1)).map some := by
  have first := passes.offsetNonneg
  have second := passes.lenNonneg
  rw [verifyString_passes counted table passes, checked_ok (by omega) small, ok_bind, charAt,
    if_pos ⟨by omega, room⟩, ok_bind]
  split
  · rfl
  · cases checked (offset data i + len data i + 1) with
    | error fault => rfl
    | ok value => rfl

/-- **An iteration comes to an end** exactly when the string can be checked. -/
theorem verifyString_ok_iff :
    (∃ result, verifyString data i prevStrEnd = .ok result) ↔ Checkable data i prevStrEnd := by
  by_cases entry : 2 * i + 2 < 2 ^ 31 ∧ 8 * i + 12 ≤ data.bytes.length
  · obtain ⟨counted, table⟩ := entry
    by_cases passes : Passes data i prevStrEnd
    · have first := passes.offsetNonneg
      have second := passes.lenNonneg
      have fits := passes.fits
      constructor
      · intro ⟨result, ran⟩
        have small : offset data i + len data i < 2 ^ 31 := by
          by_contra large
          rw [verifyString_passes counted table passes, checked_overflow (by omega),
            error_bind] at ran
          cases ran
        have room : offset data i + len data i < data.bytes.length := by
          by_contra outside
          rw [verifyString_passes counted table passes, checked_ok (by omega) small, ok_bind,
            charAt, if_neg (fun inside => outside inside.2), error_bind] at ran
          cases ran
        refine ⟨counted, table, fun _ => ⟨by omega, small, fun terminated => ?_⟩⟩
        by_contra large
        rw [verifyString_room counted table passes room small, if_neg (not_not_intro terminated),
          checked_overflow (by omega)] at ran
        cases ran
      · intro checkable
        obtain ⟨inside, small, next⟩ := checkable.room passes
        rw [verifyString_room counted table passes (by omega) small]
        split
        · exact ⟨_, rfl⟩
        · rename_i terminated
          rw [checked_ok (by omega) (next (not_not.mp terminated))]
          exact ⟨_, rfl⟩
    · rw [verifyString_rejected counted table passes]
      exact ⟨fun _ => ⟨counted, table, fun passed => absurd passed passes⟩, fun _ => ⟨_, rfl⟩⟩
  · obtain ⟨fault, failed⟩ := @verifyString_noTable _ _ prevStrEnd entry
    rw [failed]
    constructor
    · intro ⟨_, ran⟩
      cases ran
    · exact fun checkable => absurd ⟨checkable.counted, checkable.table⟩ entry

/-- An accepted string leads to the next one. -/
theorem verifyString_accepted (accepted : Accepted data i prevStrEnd) :
    verifyString data i prevStrEnd = .ok (some (offset data i + len data i + 1)) := by
  have first := accepted.offsetNonneg
  have second := accepted.lenNonneg
  have ends := accepted.ends
  rw [verifyString_room accepted.counted accepted.table accepted.toPasses accepted.room (by omega),
    if_neg (not_not_intro accepted.terminated), checked_ok (by omega) ends, Except.map]

/-- **An iteration goes on** exactly behind a string that is accepted. -/
theorem verifyString_some_iff {strEnd : Int} :
    verifyString data i prevStrEnd = .ok (some strEnd) ↔
      Accepted data i prevStrEnd ∧ strEnd = offset data i + len data i + 1 := by
  constructor
  · intro ran
    have checkable := verifyString_ok_iff.mp ⟨_, ran⟩
    obtain ⟨counted, table, enough⟩ := checkable
    by_cases passes : Passes data i prevStrEnd
    · obtain ⟨inside, small, next⟩ := enough passes
      have first := passes.offsetNonneg
      have second := passes.lenNonneg
      have fits := passes.fits
      rw [verifyString_room counted table passes (by omega) small] at ran
      split at ran
      · cases ran
      · rename_i terminated
        have representable := next (not_not.mp terminated)
        rw [checked_ok (by omega) representable] at ran
        cases ran
        exact ⟨⟨passes, counted, table, representable, by omega, not_not.mp terminated⟩, rfl⟩
    · rw [verifyString_rejected counted table passes] at ran
      cases ran
  · rintro ⟨accepted, rfl⟩
    exact verifyString_accepted accepted

/-! ## The loop -/

theorem verifyStrings_accepted (left : Nat) (accepted : Accepted data i prevStrEnd) :
    verifyStrings data (left + 1) i prevStrEnd =
      verifyStrings data left (i + 1) (offset data i + len data i + 1) := by
  simp only [verifyStrings, verifyString_accepted accepted]

/-- Where no iteration fails, the loop comes to every string that it is said to come to. -/
theorem Comes.verifyStrings_eq (comes : Comes data i prevStrEnd)
    (below : i ≤ (size data).toNat) :
    verifyStrings data (size data).toNat 0 (toDifference (minRequiredDataSize data)) =
      verifyStrings data ((size data).toNat - i) i prevStrEnd := by
  induction comes with
  | start => rw [Nat.sub_zero]
  | @next i prevStrEnd _ less accepted ih =>
      have left : (size data).toNat - i = (size data).toNat - (i + 1) + 1 := by omega
      refine (ih (by omega)).trans ?_
      rw [left]
      exact verifyStrings_accepted _ accepted

/-- **The loop** over strings that can be checked comes to an answer, and if it is true, then every
string was accepted. -/
theorem verifyStrings_ok
    (checkable : ∀ i prevStrEnd, Comes data i prevStrEnd → i < (size data).toNat →
      Checkable data i prevStrEnd) :
    ∀ (left i : Nat) (prevStrEnd : Int), Comes data i prevStrEnd → i + left = (size data).toNat →
      ∃ answer, verifyStrings data left i prevStrEnd = .ok answer ∧
        (answer = true → ∃ strEnd, Comes data (size data).toNat strEnd)
  | 0, i, prevStrEnd, comes, all => by
      rw [Nat.add_zero] at all
      exact ⟨true, rfl, fun _ => ⟨prevStrEnd, all ▸ comes⟩⟩
  | left + 1, i, prevStrEnd, comes, all => by
      have less : i < (size data).toNat := by omega
      obtain ⟨result, ran⟩ := verifyString_ok_iff.mpr (checkable i prevStrEnd comes less)
      rw [verifyStrings, ran]
      cases result with
      | none => exact ⟨false, rfl, fun wrong => by cases wrong⟩
      | some strEnd =>
          obtain ⟨accepted, rfl⟩ := verifyString_some_iff.mp ran
          have all : i + 1 + left = (size data).toNat := by omega
          exact verifyStrings_ok checkable left (i + 1) _ (comes.next less accepted) all

/-! ## Accepted strings -/

/-- Every string before one that is come to was accepted, and ends before it begins. -/
theorem Comes.accepted (comes : Comes data i prevStrEnd) :
    ∀ k, k < i → (∃ before, Accepted data k before) ∧
      offset data k + len data k + 1 ≤ prevStrEnd := by
  induction comes with
  | start => exact fun k less => absurd less (Nat.not_lt_zero k)
  | @next i prevStrEnd _ _ accepted ih =>
      intro k less
      rcases Nat.lt_succ_iff_lt_or_eq.mp less with before | rfl
      · obtain ⟨was, ended⟩ := ih k before
        have behind := accepted.behind
        have nonnegative := accepted.lenNonneg
        exact ⟨was, by omega⟩
      · exact ⟨⟨_, accepted⟩, le_refl _⟩

/-- The strings lie one behind another. -/
theorem Comes.apart (comes : Comes data i prevStrEnd) :
    ∀ k l, k < l → l < i → offset data k + len data k + 1 ≤ offset data l := by
  induction comes with
  | start => exact fun k l _ less => absurd less (Nat.not_lt_zero l)
  | @next i prevStrEnd comes _ accepted ih =>
      intro k l before less
      rcases Nat.lt_succ_iff_lt_or_eq.mp less with earlier | rfl
      · exact ih k l before earlier
      · exact ((comes.accepted k before).2).trans accepted.behind

/-! ## Access to accepted strings -/

theorem toNat_ofNat_of_counted (counted : 2 * i + 2 < 2 ^ 31) :
    (UInt32.ofNat i * 2).toNat = 2 * i ∧ (UInt32.ofNat i * 2 + 1).toNat = 2 * i + 1 := by
  have index : (UInt32.ofNat i).toNat = i := UInt32.toNat_ofNat_of_lt' (by
    have size : UInt32.size = 4294967296 := rfl
    omega)
  have double : (UInt32.ofNat i * 2).toNat = 2 * i := by
    have two : (2 : UInt32).toNat = 2 := rfl
    rw [UInt32.toNat_mul, index, two]
    omega
  have one : (1 : UInt32).toNat = 1 := rfl
  refine ⟨double, ?_⟩
  rw [UInt32.toNat_add, double, one]
  omega

/-- A word that is not negative as a `difference_type` is the same number. -/
theorem toNat_of_toDifference {value : UInt32} (nonnegative : 0 ≤ toDifference value) :
    (value.toNat : Int) = toDifference value := by
  have less := value.toNat_lt
  have same : toDifference value = (value.toNat : Int).bmod (2 ^ 32) :=
    BitVec.toInt_eq_toNat_bmod value.toBitVec
  by_cases small : value.toNat < 2 ^ 31
  · rw [same, Int.bmod_eq_of_le (by omega) (by omega)]
  · have wrapped : (value.toNat : Int).bmod (2 ^ 32) = value.toNat - 2 ^ 32 := by
      rw [← Int.sub_bmod_right, Int.bmod_eq_of_le (by omega) (by omega)]
      omega
    omega

/-- What `OffsetAt` and `LengthAt` find at an accepted string. -/
theorem Accepted.found (accepted : Accepted data i prevStrEnd) :
    ∃ first second, offsetAt data (UInt32.ofNat i) = .ok first ∧
      lengthAt data (UInt32.ofNat i) = .ok second ∧ (first.toNat : Int) = offset data i ∧
        (second.toNat : Int) = len data i := by
  obtain ⟨double, next⟩ := toNat_ofNat_of_counted accepted.counted
  have table := accepted.table
  have first : 1 + ((2 * i : Nat) : Int) = ((2 * i + 1 : Nat) : Int) := by omega
  have second : 1 + ((2 * i + 1 : Nat) : Int) = ((2 * i + 2 : Nat) : Int) := by omega
  refine ⟨_, _, ?_, ?_, toNat_of_toDifference accepted.offsetNonneg,
    toNat_of_toDifference accepted.lenNonneg⟩
  · rw [offsetAt, double, first, wordAt_ok (by omega)]
  · rw [lengthAt, next, second, wordAt_ok (by omega)]

/-- **Where every string is accepted**, the block is well formed. -/
theorem Comes.wellFormed {strEnd : Int} (comes : Comes data (size data).toNat strEnd) :
    WellFormed data where
  inside i less := by
    obtain ⟨⟨_, accepted⟩, _⟩ := comes.accepted i less
    obtain ⟨first, second, foundOffset, foundLength, sameOffset, sameLength⟩ := accepted.found
    have room := accepted.room
    have terminated := accepted.terminated
    rw [← sameOffset, ← sameLength] at room terminated
    exact ⟨first, second, foundOffset, foundLength, by omega, terminated⟩
  apart i j before less := by
    obtain ⟨⟨_, left⟩, _⟩ := comes.accepted i (by omega)
    obtain ⟨⟨_, right⟩, _⟩ := comes.accepted j less
    obtain ⟨first, second, foundOffset, foundLength, sameOffset, sameLength⟩ := left.found
    obtain ⟨next, _, foundNext, _, sameNext, _⟩ := right.found
    have order := comes.apart i j before less
    exact ⟨first, second, next, foundOffset, foundLength, foundNext, by omega⟩
  readable i less := by
    obtain ⟨⟨_, accepted⟩, _⟩ := comes.accepted i less
    obtain ⟨first, second, foundOffset, foundLength, sameOffset, sameLength⟩ := accepted.found
    have room := accepted.room
    have index : (Int32.ofNat i).toUInt32 = UInt32.ofNat i := rfl
    rw [get, index, dataAt, foundOffset, ok_bind, foundLength, ok_bind, if_pos (by omega)]
    exact ⟨_, rfl⟩

/-! ## Safety -/

theorem safe_of_allCheckable (checkable : AllCheckable data) : Safe data := by
  by_cases missing : data.bytes.length < 4
  · exact ⟨false, by rw [verifyData, if_pos missing], fun wrong => by cases wrong⟩
  by_cases lack : data.bytes.length < (minRequiredDataSize data).toNat
  · exact ⟨false, by rw [verifyData, if_neg missing, if_pos lack], fun wrong => by cases wrong⟩
  obtain ⟨answer, ran, accepted⟩ :=
    verifyStrings_ok (checkable (Nat.not_lt.mp missing) (Nat.not_lt.mp lack)) (size data).toNat 0 _
      .start (Nat.zero_add _)
  refine ⟨answer, by rw [verifyData, if_neg missing, if_neg lack, ran], fun good => ?_⟩
  obtain ⟨strEnd, comes⟩ := accepted good
  exact comes.wellFormed

theorem allCheckable_of_safe (safe : Safe data) : AllCheckable data := by
  intro long enough i prevStrEnd comes less
  obtain ⟨answer, ran, _⟩ := safe
  rw [verifyData, if_neg (Nat.not_lt.mpr long), if_neg (Nat.not_lt.mpr enough),
    comes.verifyStrings_eq (Nat.le_of_lt less)] at ran
  have left : (size data).toNat - i = (size data).toNat - (i + 1) + 1 := by omega
  rw [left, verifyStrings] at ran
  refine verifyString_ok_iff.mp ?_
  cases once : verifyString data i prevStrEnd with
  | error fault =>
      rw [once] at ran
      cases ran
  | ok result => exact ⟨result, rfl⟩

/-- **The verification is safe exactly** when every string that it comes to has its entry of the
table inside of the block and, where it passes the comparisons, does not end where the block
ends. -/
theorem verifyData_safe_iff : Safe data ↔ AllCheckable data :=
  ⟨allCheckable_of_safe, safe_of_allCheckable⟩

/-- A block whose only string has the offset 12 and the length 0, and no NUL. -/
def truncatedBlock : Block := ⟨[1, 0, 0, 0, 12, 0, 0, 0, 0, 0, 0, 0], by decide⟩

/-- The byte behind the block is read. -/
theorem not_safe_truncatedBlock : ¬ Safe truncatedBlock := by
  have outside : verifyData truncatedBlock = .error .outside := by decide
  rintro ⟨answer, ran, _⟩
  rw [outside] at ran
  cases ran

end Mozkey.SerializedStringArray
