import Mozkey.Base.UnverifiedAes256

/-!
# The encryptor

Data is padded to whole blocks, always by at least one byte, and every byte of the padding
tells the length of the padding.  Decryption checks the padding and removes it.
-/

namespace Mozkey.Encryptor

open Aes256

def kBlockSize : Nat := 16

/-- `Encryptor::Key`. -/
structure Key where
  key : Vector UInt8 32
  iv : Block
  isAvailable : Bool

/-- `Key::GetEncryptedSize`. -/
def getEncryptedSize (size : Nat) : Nat := (size / kBlockSize + 1) * kBlockSize

/-- `EncryptArray`, of a buffer with room for the encrypted data, of which some bytes are
the data. -/
def encryptArray (key : Key) (buf : ByteString) (bufSize : Nat) : Option (ByteString × Nat) :=
  if key.isAvailable then
    if bufSize = 0 then none
    else
      let encSize := getEncryptedSize bufSize
      let paddingSize := encSize - bufSize
      let paddingValue := UInt8.ofNat paddingSize
      let buf := buf.take bufSize ++ List.replicate paddingSize paddingValue ++ buf.drop encSize
      some (transformCBC key.key key.iv buf (encSize / kBlockSize), encSize)
  else none

/-- `DecryptArray`. -/
def decryptArray (key : Key) (buf : ByteString) (bufSize : Nat) : Option (ByteString × Nat) :=
  if key.isAvailable then
    if bufSize = 0 then none
    else if bufSize < kBlockSize ∨ bufSize % kBlockSize ≠ 0 then none
    else
      let buf := inverseTransformCBC key.key key.iv buf (bufSize / kBlockSize)
      let paddingValue := byteAt buf (bufSize - 1)
      let paddingSize := paddingValue.toNat
      if paddingValue = 0x00 ∨ paddingSize > kBlockSize then none
      else if bufSize ≤ paddingSize then none
      else if ((buf.take bufSize).drop (bufSize - paddingSize)).any (· != paddingValue) then none
      else some (buf, bufSize - paddingSize)
  else none

/-- `EncryptString`. -/
def encryptString (key : Key) (data : ByteString) : Option ByteString :=
  if data = [] then none
  else
    let size := data.length
    let resized := data ++ List.replicate (getEncryptedSize size - size) 0
    (encryptArray key resized size).map Prod.fst

/-- `DecryptString`. -/
def decryptString (key : Key) (data : ByteString) : Option ByteString :=
  if data = [] then none
  else (decryptArray key data data.length).map fun (buf, size) => buf.take size

/-! ## Padding -/

/-- A padding has between one byte and sixteen, and fills the last block. -/
theorem getEncryptedSize_eq (size : Nat) :
    ∃ padding, 1 ≤ padding ∧ padding ≤ kBlockSize ∧ getEncryptedSize size = size + padding ∧
      getEncryptedSize size % kBlockSize = 0 := by
  rw [getEncryptedSize, kBlockSize]
  exact ⟨(size / 16 + 1) * 16 - size, by omega, by omega, by omega, by omega⟩

/-- The data with its padding. -/
def padded (data : ByteString) (padding : Nat) : ByteString :=
  data ++ List.replicate padding (UInt8.ofNat padding)

/-- What is encrypted is the padded data. -/
theorem encryptString_eq {key : Key} (available : key.isAvailable = true) {data : ByteString}
    (nonempty : data ≠ []) {padding : Nat} (size : getEncryptedSize data.length = data.length + padding) :
    encryptString key data
      = some (transformCBC key.key key.iv (padded data padding)
          ((data.length + padding) / kBlockSize)) := by
  have resized : (data ++ List.replicate padding 0).drop (data.length + padding) = [] := by
    rw [List.drop_eq_nil_iff, List.length_append, List.length_replicate]
  have positive : data.length ≠ 0 := fun zero => nonempty (List.length_eq_zero_iff.1 zero)
  rw [encryptString, if_neg nonempty]
  dsimp only
  rw [size, Nat.add_sub_cancel_left, encryptArray, if_pos available, if_neg positive]
  dsimp only
  rw [size, Nat.add_sub_cancel_left, List.take_left, resized, List.append_nil]
  rfl

theorem length_padded (data : ByteString) (padding : Nat) :
    (padded data padding).length = data.length + padding := by
  rw [padded, List.length_append, List.length_replicate]

theorem byteAt_padded (data : ByteString) {padding : Nat} (positive : 1 ≤ padding) :
    byteAt (padded data padding) (data.length + padding - 1) = UInt8.ofNat padding := by
  rw [padded, Nat.add_sub_assoc positive, byteAt_append_add, byteAt, List.getD_eq_getElem?_getD,
    List.getElem?_replicate, if_pos (by omega)]
  rfl

/-- Padded data is what decryption finds, and the padding is removed. -/
theorem decryptString_eq {key : Key} (available : key.isAvailable = true) {data : ByteString}
    (nonempty : data ≠ []) {padding : Nat} (positive : 1 ≤ padding) (small : padding ≤ kBlockSize)
    (whole : (data.length + padding) % kBlockSize = 0) {encrypted : ByteString}
    (length : encrypted.length = data.length + padding)
    (decrypted : inverseTransformCBC key.key key.iv encrypted ((data.length + padding) / kBlockSize)
      = padded data padding) : decryptString key encrypted = some data := by
  have dataPositive := List.length_pos_iff.2 nonempty
  have encryptedNonempty : encrypted ≠ [] := List.ne_nil_of_length_pos (by omega)
  have isSize : ¬ (data.length + padding < kBlockSize ∨ (data.length + padding) % kBlockSize ≠ 0) := by
    rw [kBlockSize] at whole ⊢
    omega
  have value : (UInt8.ofNat padding).toNat = padding := by
    rw [kBlockSize] at small
    exact UInt8.toNat_ofNat_of_lt' (by rw [UInt8.size]; omega)
  have isPadding : ¬ (UInt8.ofNat padding = 0x00 ∨ (UInt8.ofNat padding).toNat > kBlockSize) := by
    rw [value]
    rintro (zero | large)
    · rw [zero] at value
      exact absurd value.symm (Nat.ne_of_gt positive)
    · omega
  have paddingBytes : ((padded data padding).take (data.length + padding)).drop
      (data.length + padding - padding) = List.replicate padding (UInt8.ofNat padding) := by
    rw [← length_padded, List.take_length, length_padded, Nat.add_sub_cancel, padded, List.drop_left]
  have allPadding : ¬ (List.replicate padding (UInt8.ofNat padding)).any
      (· != UInt8.ofNat padding) = true := by
    rw [List.any_eq_true]
    rintro ⟨byte, member, differs⟩
    rw [List.eq_of_mem_replicate member, bne_self_eq_false] at differs
    exact Bool.false_ne_true differs
  rw [decryptString, if_neg encryptedNonempty, length, decryptArray, if_pos available,
    if_neg (by omega), if_neg isSize, decrypted]
  dsimp only
  rw [byteAt_padded data positive, if_neg isPadding, value, if_neg (by omega), paddingBytes,
    if_neg allPadding, Option.map_some, Nat.add_sub_cancel, padded, List.take_left]

/-- **Decryption returns what was encrypted.** -/
theorem decryptString_encryptString {key : Key} (available : key.isAvailable = true)
    {data : ByteString} (nonempty : data ≠ []) :
    ∃ encrypted, encryptString key data = some encrypted ∧ decryptString key encrypted = some data := by
  obtain ⟨padding, positive, small, size, whole⟩ := getEncryptedSize_eq data.length
  rw [size] at whole
  have enough : kBlockBytes * ((data.length + padding) / kBlockSize) ≤ (padded data padding).length := by
    rw [length_padded]
    exact Nat.mul_div_le _ _
  refine ⟨_, encryptString_eq available nonempty size, ?_⟩
  refine decryptString_eq available nonempty positive small whole ?_ ?_
  · rw [length_transformCBC key.key key.iv enough, length_padded]
  · exact inverseTransformCBC_transformCBC key.key key.iv enough

/-! ## All layers -/

/-- What every layer of the encryptor undoes. -/
structure RoundTrips : Prop where
  strings : ∀ (key : Key) (data : ByteString), key.isAvailable = true → data ≠ [] →
    ∃ encrypted, encryptString key data = some encrypted ∧ decryptString key encrypted = some data
  buffers : ∀ (key : Vector UInt8 32) (iv : Block) (buf : ByteString) (blockCount : Nat),
    kBlockBytes * blockCount ≤ buf.length →
      inverseTransformCBC key iv (transformCBC key iv buf blockCount) blockCount = buf
  columns : ∀ block, invMixColumns (mixColumns block) = block
  rows : ∀ block, invShiftRows (shiftRows block) = block
  boxes : ∀ b, invSBox (sBox b) = b ∧ sBox (invSBox b) = b

/-- **Every layer of the encryptor is undone by its inverse.** -/
theorem roundTrips : RoundTrips where
  strings _ _ available nonempty := decryptString_encryptString available nonempty
  buffers key iv _ _ enough := inverseTransformCBC_transformCBC key iv enough
  columns := invMixColumns_mixColumns
  rows := invShiftRows_shiftRows
  boxes b := sBoxes_inverse b

end Mozkey.Encryptor
