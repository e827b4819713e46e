import Mozkey.Base.ByteString

/-!
# Inner segments

A result carries its segment boundaries as numbers, each holding four lengths of
eight bits.  Walking the boundaries cuts the key and the value into segments with
their content parts.  Lengths are cut to what is left of the key and the value,
and what is left after the last boundary is one more segment.
-/

namespace Mozkey.Converter

/-- `internal::LengthData`, four bit fields of one number. -/
structure LengthData where
  keyLen : Nat
  valueLen : Nat
  contentKeyLen : Nat
  contentValueLen : Nat
  deriving DecidableEq, Repr

def decodeLengths (encoded : UInt32) : LengthData where
  keyLen := (encoded &&& 0xff).toNat
  valueLen := (encoded >>> 8 &&& 0xff).toNat
  contentKeyLen := (encoded >>> 16 &&& 0xff).toNat
  contentValueLen := (encoded >>> 24 &&& 0xff).toNat

/-- A content part that is missing or too long is the whole. -/
def fixContentLen (len fullLen : Nat) : Nat := if len = 0 ∨ len > fullLen then fullLen else len

/-- `EncodeLengths`; none of the lengths may be zero or take more than eight bits. -/
def encodeLengths (keyLen valueLen contentKeyLen contentValueLen : Nat) : Option UInt32 :=
  let contentKeyLen := fixContentLen contentKeyLen keyLen
  let contentValueLen := fixContentLen contentValueLen valueLen
  if keyLen = 0 ∨ valueLen = 0 ∨ contentKeyLen = 0 ∨ contentValueLen = 0 ∨ keyLen > 0xFF ∨
      valueLen > 0xFF ∨ contentKeyLen > 0xFF ∨ contentValueLen > 0xFF then none
  else some (UInt32.ofNat
    (keyLen + valueLen * 2 ^ 8 + contentKeyLen * 2 ^ 16 + contentValueLen * 2 ^ 24))

/-- `BuildInnerSegmentBoundary` for one segment, which is the whole key and value. -/
def buildInnerSegmentBoundary (key value contentKey contentValue : ByteString) : List UInt32 :=
  (encodeLengths key.length value.length contentKey.length contentValue.length).toList

/-- What an iterator of `InnerSegments` shows. -/
structure InnerSegment where
  key : ByteString
  value : ByteString
  contentKey : ByteString
  contentValue : ByteString
  deriving DecidableEq, Repr

/-- The segments `InnerSegments` iterates over.  The end is reached when the key and
the value are used up. -/
def innerSegments (key value : ByteString) : List UInt32 → List InnerSegment
  | [] => if key = [] ∧ value = [] then [] else [⟨key, value, key, value⟩]
  | encoded :: boundary =>
      if key = [] ∧ value = [] then []
      else
        let lengths := decodeLengths encoded
        ⟨key.take lengths.keyLen, value.take lengths.valueLen,
            key.take lengths.contentKeyLen, value.take lengths.contentValueLen⟩
          :: innerSegments (key.drop lengths.keyLen) (value.drop lengths.valueLen) boundary

/-- `InnerSegments::size`. -/
def innerSegmentsSize (key value : ByteString) (boundary : List UInt32) : Nat :=
  if key = [] ∧ value = [] then 0 else max 1 boundary.length

/-! ## Lengths -/

/-- The lengths of the keys and of the values. -/
abbrev Lengths := Nat × Nat

def decodedLengths (encoded : UInt32) : Lengths :=
  ((decodeLengths encoded).keyLen, (decodeLengths encoded).valueLen)

/-- What boundaries reach over. -/
def reach (boundaries : List UInt32) : Lengths := (boundaries.map decodedLengths).sum

@[simp] theorem reach_nil : reach [] = 0 := rfl

@[simp] theorem reach_cons (e : UInt32) (es : List UInt32) :
    reach (e :: es) = decodedLengths e + reach es := List.sum_cons

@[simp] theorem reach_append (es es' : List UInt32) : reach (es ++ es') = reach es + reach es' := by
  rw [reach, List.map_append, List.sum_append]
  rfl

theorem reach_take_le (es : List UInt32) (m : Nat) : reach (es.take m) ≤ reach es := by
  have whole := reach_append (es.take m) (es.drop m)
  rw [List.take_append_drop] at whole
  rw [whole]
  exact le_self_add

/-- Lengths of eight bits are decoded as they were encoded. -/
theorem decodeLengths_of_encodeLengths {k v ck cv : Nat} {encoded : UInt32}
    (isEncoded : encodeLengths k v ck cv = some encoded) :
    decodeLengths encoded = ⟨k, v, fixContentLen ck k, fixContentLen cv v⟩ := by
  unfold encodeLengths at isEncoded
  generalize fixContentLen ck k = ck at isEncoded ⊢
  generalize fixContentLen cv v = cv at isEncoded ⊢
  dsimp only at isEncoded
  split_ifs at isEncoded with tooLong
  obtain rfl := Option.some.inj isEncoded
  simp only [not_or, Nat.not_lt] at tooLong
  obtain ⟨-, -, -, -, hk, hv, hck, hcv⟩ := tooLong
  have total : (UInt32.ofNat (k + v * 2 ^ 8 + ck * 2 ^ 16 + cv * 2 ^ 24)).toNat =
      k + v * 2 ^ 8 + ck * 2 ^ 16 + cv * 2 ^ 24 := by
    rw [UInt32.toNat_ofNat']
    omega
  have mask (x : UInt32) : (x &&& 0xff).toNat = x.toNat % 2 ^ 8 := by
    rw [UInt32.toNat_and]
    exact Nat.and_two_pow_sub_one_eq_mod _ 8
  -- Each field is what is left of the number behind its bits, cut to eight bits.
  unfold decodeLengths
  rw [mask, mask, mask, mask, UInt32.toNat_shiftRight, UInt32.toNat_shiftRight,
    UInt32.toNat_shiftRight, total]
  simp only [Nat.shiftRight_eq_div_pow, LengthData.mk.injEq]
  refine ⟨?_, ?_, ?_, ?_⟩
  · omega
  · change (k + v * 2 ^ 8 + ck * 2 ^ 16 + cv * 2 ^ 24) / 2 ^ 8 % 2 ^ 8 = v
    omega
  · change (k + v * 2 ^ 8 + ck * 2 ^ 16 + cv * 2 ^ 24) / 2 ^ 16 % 2 ^ 8 = ck
    omega
  · change (k + v * 2 ^ 8 + ck * 2 ^ 16 + cv * 2 ^ 24) / 2 ^ 24 % 2 ^ 8 = cv
    omega

theorem decodedLengths_of_encodeLengths {k v ck cv : Nat} {encoded : UInt32}
    (isEncoded : encodeLengths k v ck cv = some encoded) : decodedLengths encoded = (k, v) := by
  rw [decodedLengths, decodeLengths_of_encodeLengths isEncoded]

/-! ## Pieces of the key and the value -/

/-- The first pieces reach as far as the first boundaries. -/
theorem pieces_take (key value : ByteString) {boundaries : List UInt32} {m : Nat}
    (le : m ≤ boundaries.length) :
    ((innerSegments key value boundaries).take m).flatMap (·.key) =
        key.take (reach (boundaries.take m)).1 ∧
      ((innerSegments key value boundaries).take m).flatMap (·.value) =
        value.take (reach (boundaries.take m)).2 := by
  induction boundaries generalizing key value m with
  | nil =>
      obtain rfl := Nat.le_zero.1 le
      exact ⟨rfl, rfl⟩
  | cons e es ih =>
      cases m with
      | zero => exact ⟨rfl, rfl⟩
      | succ m =>
          rw [innerSegments]
          split
          · next nothing =>
            rw [nothing.1, nothing.2, List.take_nil, List.take_nil, List.take_nil]
            exact ⟨rfl, rfl⟩
          · obtain ⟨keys, values⟩ := ih (key.drop (decodeLengths e).keyLen)
              (value.drop (decodeLengths e).valueLen) (Nat.le_of_succ_le_succ le)
            dsimp only
            rw [List.take_succ_cons, List.flatMap_cons, List.flatMap_cons, keys, values,
              List.take_succ_cons, reach_cons, Prod.fst_add, Prod.snd_add, List.take_add,
              List.take_add]
            exact ⟨rfl, rfl⟩

/-- The pieces are the whole key and value. -/
theorem pieces_all (key value : ByteString) (boundaries : List UInt32) :
    (innerSegments key value boundaries).flatMap (·.key) = key ∧
      (innerSegments key value boundaries).flatMap (·.value) = value := by
  induction boundaries generalizing key value with
  | nil =>
      rw [innerSegments]
      split
      · next nothing =>
        rw [nothing.1, nothing.2]
        exact ⟨rfl, rfl⟩
      · exact ⟨List.append_nil _, List.append_nil _⟩
  | cons e es ih =>
      rw [innerSegments]
      split
      · next nothing =>
        rw [nothing.1, nothing.2]
        exact ⟨rfl, rfl⟩
      · obtain ⟨keys, values⟩ := ih (key.drop (decodeLengths e).keyLen)
          (value.drop (decodeLengths e).valueLen)
        dsimp only
        rw [List.flatMap_cons, List.flatMap_cons, keys, values, List.take_append_drop,
          List.take_append_drop]
        exact ⟨rfl, rfl⟩

theorem pieces_length_le (key value : ByteString) (boundaries : List UInt32) :
    (innerSegments key value boundaries).length ≤ boundaries.length + 1 := by
  induction boundaries generalizing key value with
  | nil =>
      rw [innerSegments]
      split
      · exact Nat.zero_le _
      · exact le_rfl
  | cons e es ih =>
      rw [innerSegments]
      split
      · exact Nat.zero_le _
      · exact Nat.succ_le_succ (ih _ _)

end Mozkey.Converter
