import Mathlib

/-!
# Byte strings

The program handles text as `std::string` and `absl::string_view`, that is, as
sequences of bytes, and it reads binary images through byte pointers.  Both are
lists of bytes here.  A pointer into a buffer is the suffix of the buffer it
points to, so that `ptr + n` is `ptr.drop n`.
-/

namespace Mozkey

/-- A sequence of bytes: a `std::string`, or what a pointer points to. -/
abbrev ByteString := List UInt8

/-- Bytes compare as unsigned numbers, and byte strings lexicographically. -/
instance instLinearOrderByte : LinearOrder UInt8 where
  le_refl := UInt8.le_refl
  le_trans _ _ _ := UInt8.le_trans
  le_antisymm _ _ := UInt8.le_antisymm
  le_total := UInt8.le_total
  lt_iff_le_not_ge a b := by
    rw [UInt8.lt_iff_toNat_lt, UInt8.le_iff_toNat_le, UInt8.le_iff_toNat_le]
    omega
  toDecidableLE := inferInstance
  toDecidableEq := inferInstance
  toDecidableLT := inferInstance

/-- What holds of the 256 byte values holds of every byte. -/
theorem byte_forall {P : UInt8 → Prop} (all : ∀ n : Fin 256, P (UInt8.ofNat n)) (b : UInt8) :
    P b := by
  have := all ⟨b.toNat, b.toNat_lt⟩
  rwa [UInt8.ofNat_toNat] at this

instance instDecidableMemByteString (str : ByteString) (strs : List ByteString) :
    Decidable (str ∈ strs) :=
  List.instDecidableMemOfLawfulBEq str strs

/-- The bytes of an ASCII literal of the source. -/
def ascii (s : String) : ByteString := s.toList.map fun c => UInt8.ofNat c.toNat

/-- `find`: where the first occurrence of a string starts, `none` for `npos`. -/
def find (str sub : ByteString) : Option Nat :=
  (List.range (str.length + 1)).find? fun i => sub.isPrefixOf (str.drop i)

/-- The byte `ptr[offset]`.  A read past the end has no meaning in the source;
it reads zero here. -/
def byteAt (ptr : ByteString) (offset : Nat) : UInt8 :=
  ptr.getD offset 0

@[simp] theorem byteAt_zero (b : UInt8) (rest : ByteString) : byteAt (b :: rest) 0 = b := rfl

@[simp] theorem byteAt_succ (b : UInt8) (rest : ByteString) (i : Nat) :
    byteAt (b :: rest) (i + 1) = byteAt rest i := rfl

/-- Past a prefix, the bytes are those of what follows it. -/
theorem byteAt_append_add (front rest : ByteString) (i : Nat) :
    byteAt (front ++ rest) (front.length + i) = byteAt rest i := by
  simp [byteAt, List.getD_eq_getElem?_getD, List.getElem?_append_right]

theorem byteAt_append_length (front rest : ByteString) :
    byteAt (front ++ rest) front.length = byteAt rest 0 := by
  simpa using byteAt_append_add front rest 0

theorem byteAt_append_zero {front rest : ByteString} (nonempty : front ≠ []) :
    byteAt (front ++ rest) 0 = byteAt front 0 := by
  cases front with
  | nil => exact absurd rfl nonempty
  | cons b bytes => rfl

/-! ## Bytes stored in a buffer -/

/-- The bytes `bytes` stand in the buffer from the offset on. -/
def StoredAt (ptr : ByteString) (offset : Nat) (bytes : ByteString) : Prop :=
  ∃ front rest, ptr = front ++ (bytes ++ rest) ∧ front.length = offset

theorem storedAt_front (bytes rest : ByteString) : StoredAt (bytes ++ rest) 0 bytes :=
  ⟨[], rest, rfl, rfl⟩

namespace StoredAt

variable {ptr : ByteString} {offset : Nat}

theorem append_left {f g : ByteString} (stored : StoredAt ptr offset (f ++ g)) :
    StoredAt ptr offset f := by
  obtain ⟨front, rest, rfl, rfl⟩ := stored
  exact ⟨front, g ++ rest, by simp, rfl⟩

theorem append_right {f g : ByteString} (stored : StoredAt ptr offset (f ++ g)) :
    StoredAt ptr (offset + f.length) g := by
  obtain ⟨front, rest, rfl, rfl⟩ := stored
  exact ⟨front ++ f, rest, by simp, by simp⟩

theorem head {b : UInt8} {bytes : ByteString} (stored : StoredAt ptr offset (b :: bytes)) :
    byteAt ptr offset = b := by
  obtain ⟨front, rest, rfl, rfl⟩ := stored
  rw [byteAt_append_length]
  rfl

theorem tail {b : UInt8} {bytes : ByteString} (stored : StoredAt ptr offset (b :: bytes)) :
    StoredAt ptr (offset + 1) bytes :=
  stored.append_right (f := [b])

/-- What stands in a buffer can be cut out of it. -/
theorem take_drop {bytes : ByteString} (stored : StoredAt ptr offset bytes) :
    (ptr.drop offset).take bytes.length = bytes := by
  obtain ⟨front, rest, rfl, rfl⟩ := stored
  rw [List.drop_left, List.take_left]

theorem append {bytes : ByteString} (stored : StoredAt ptr offset bytes) (more : ByteString) :
    StoredAt (ptr ++ more) offset bytes := by
  obtain ⟨front, rest, rfl, rfl⟩ := stored
  exact ⟨front, rest ++ more, by simp, rfl⟩

end StoredAt

/-- What is appended to a buffer stands behind it. -/
theorem storedAt_append (front bytes : ByteString) :
    StoredAt (front ++ bytes) front.length bytes :=
  ⟨front, [], by simp, rfl⟩

end Mozkey
