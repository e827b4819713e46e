import Mozkey.Base.Util

/-!
# Writing a data set

A data set packs chunks of data into one file: the magic, the chunks, each behind the
padding that its alignment asks for, the metadata, and a footer with the size of the
metadata, a checksum and the size of the file.  The metadata tells name, offset and size
of every chunk.

Serializing the metadata and the checksum are parameters.
-/

namespace Mozkey.DataManager

/-- `DataSetMetadata::Entry`. -/
structure Entry where
  name : ByteString
  offset : UInt64
  size : UInt64
  deriving DecidableEq, Repr

/-- What data sets ask of the rest of the program. -/
structure Modules where
  serializeAsString : List Entry → ByteString
  parseFromString : ByteString → Option (List Entry)
  makeDigest : ByteString → { digest : ByteString // digest.length = 20 }

/-- The metadata is parsed to what was serialized.  No bytes are metadata without
entries. -/
structure Modules.ReadsBack (M : Modules) (entries : List Entry) : Prop where
  parse_serialize : M.parseFromString (M.serializeAsString entries) = some entries
  parse_nil : M.parseFromString [] = some []

/-! ## The writer -/

structure DataSetWriter where
  image : ByteString
  entries : List Entry := []
  seenNames : List ByteString := []

/-- What `Add` is called with. -/
structure Chunk where
  name : ByteString
  alignment : Int
  data : ByteString

/-- `IsValidAlignment`: in bits, a power of two from 8 on. -/
def isValidAlignment (a : Int) : Bool := decide (8 ≤ a) && a == 2 ^ a.toNat.log2

/-- `AppendPadding`, up to an alignment in bytes. -/
def appendPadding (image : ByteString) (alignment : Nat) : ByteString :=
  if image.length % alignment > 0 then
    image ++ List.replicate (alignment - image.length % alignment) 0
  else image

/-- `Add`, `none` where a `CHECK` fails. -/
def DataSetWriter.add (w : DataSetWriter) (chunk : Chunk) : Option DataSetWriter :=
  if chunk.name ∈ w.seenNames then none
  else if isValidAlignment chunk.alignment then
    let image := appendPadding w.image (chunk.alignment.toNat / 8)
    some
      { image := image ++ chunk.data
        entries := w.entries ++
          [⟨chunk.name, UInt64.ofNat image.length, UInt64.ofNat chunk.data.length⟩]
        seenNames := chunk.name :: w.seenNames }
  else none

/-- A sequence of calls of `Add`. -/
def DataSetWriter.addAll (w : DataSetWriter) (chunks : List Chunk) : Option DataSetWriter :=
  chunks.foldlM DataSetWriter.add w

/-- `Finish`: the bytes that are written. -/
def DataSetWriter.finish (M : Modules) (w : DataSetWriter) : ByteString :=
  let s := M.serializeAsString w.entries
  let image := w.image ++ s ++ serializeUint64 (UInt64.ofNat s.length)
  let image := image ++ (M.makeDigest image).val
  image ++ serializeUint64 (UInt64.ofNat (image.length + 8))

/-! ## Padding -/

theorem appendPadding_eq (image : ByteString) (alignment : Nat) :
    ∃ padding, appendPadding image alignment = image ++ padding := by
  rw [appendPadding]
  split
  · exact ⟨_, rfl⟩
  · exact ⟨[], (List.append_nil image).symm⟩

/-- The padding ends at a multiple of the alignment. -/
theorem length_appendPadding_mod (image : ByteString) {alignment : Nat} (positive : 0 < alignment) :
    (appendPadding image alignment).length % alignment = 0 := by
  rw [appendPadding]
  split
  · have less := Nat.mod_lt image.length positive
    rw [List.length_append, List.length_replicate]
    have split := Nat.div_add_mod image.length alignment
    have total : image.length + (alignment - image.length % alignment)
        = alignment * (image.length / alignment + 1) := by
      rw [Nat.mul_succ]
      omega
    rw [total, Nat.mul_mod_right]
  · omega

/-- A valid alignment is one of whole bytes. -/
theorem eight_mul_div_of_isValidAlignment {a : Int} (valid : isValidAlignment a = true) :
    8 * (a.toNat / 8) = a.toNat ∧ 8 ≤ a.toNat := by
  rw [isValidAlignment, Bool.and_eq_true, decide_eq_true_eq, beq_iff_eq] at valid
  obtain ⟨large, power⟩ := valid
  have power' : a.toNat = 2 ^ a.toNat.log2 := by
    have cast : (a.toNat : Int) = ((2 ^ a.toNat.log2 : Nat) : Int) := by
      rw [Int.toNat_of_nonneg (by omega)]
      exact_mod_cast power
    exact_mod_cast cast
  have exponent : 3 ≤ a.toNat.log2 := by
    by_contra small
    have lessEq : a.toNat ≤ 2 ^ 2 := by
      rw [power']
      exact Nat.pow_le_pow_right (by decide) (by omega)
    omega
  have divides : 8 ∣ a.toNat := by
    rw [power']
    exact pow_dvd_pow 2 exponent
  exact ⟨Nat.mul_div_cancel' divides, by omega⟩

/-! ## What the writer has written -/

/-- A chunk that stands in the image where its entry says. -/
structure Placed (image : ByteString) (entry : Entry) (chunk : Chunk) : Prop where
  name : entry.name = chunk.name
  size : entry.size.toNat = chunk.data.length
  stored : StoredAt image entry.offset.toNat chunk.data
  aligned : 8 * entry.offset.toNat % chunk.alignment.toNat = 0

/-- Entries one behind the other, from one offset up to another. -/
def InOrder : Nat → List Entry → Nat → Prop
  | start, [], stop => start = stop
  | start, entry :: entries, stop =>
      start ≤ entry.offset.toNat ∧ InOrder (entry.offset.toNat + entry.size.toNat) entries stop

theorem InOrder.append {start stop : Nat} {entries : List Entry} (inOrder : InOrder start entries stop)
    {entry : Entry} (behind : stop ≤ entry.offset.toNat) :
    InOrder start (entries ++ [entry]) (entry.offset.toNat + entry.size.toNat) := by
  induction entries generalizing start with
  | nil =>
      rw [InOrder] at inOrder
      exact ⟨inOrder.trans_le behind, rfl⟩
  | cons first entries ih => exact ⟨inOrder.1, ih inOrder.2⟩

theorem Placed.append {image : ByteString} {entry : Entry} {chunk : Chunk}
    (placed : Placed image entry chunk) (more : ByteString) : Placed (image ++ more) entry chunk where
  name := placed.name
  size := placed.size
  stored := placed.stored.append more
  aligned := placed.aligned

/-- What the writer has written of the chunks so far. -/
structure Written (magic : ByteString) (w : DataSetWriter) (chunks : List Chunk) : Prop where
  startsWith : ∃ rest, w.image = magic ++ rest
  placed : List.Forall₂ (Placed w.image) w.entries chunks
  inOrder : InOrder magic.length w.entries w.image.length

theorem written_begin (magic : ByteString) : Written magic { image := magic } [] where
  startsWith := ⟨[], (List.append_nil magic).symm⟩
  placed := .nil
  inOrder := rfl

/-- One more chunk, in an image whose size can be told. -/
theorem written_add {magic : ByteString} {w w' : DataSetWriter} {chunks : List Chunk} {chunk : Chunk}
    (written : Written magic w chunks) (added : w.add chunk = some w')
    (small : w'.image.length < 2 ^ 64) : Written magic w' (chunks ++ [chunk]) := by
  rw [DataSetWriter.add] at added
  split at added
  · cases added
  · split at added
    · rename_i _ valid
      obtain rfl := Option.some.inj added
      obtain ⟨rest, startsWith⟩ := written.startsWith
      obtain ⟨bytes, large⟩ := eight_mul_div_of_isValidAlignment valid
      obtain ⟨padding, padded⟩ := appendPadding_eq w.image (chunk.alignment.toNat / 8)
      have positive : 0 < chunk.alignment.toNat / 8 := by omega
      have multiple := length_appendPadding_mod w.image positive
      dsimp only at small ⊢
      rw [List.length_append] at small
      generalize isImage : appendPadding w.image (chunk.alignment.toNat / 8) = image at *
      have offset : (UInt64.ofNat image.length).toNat = image.length :=
        UInt64.toNat_ofNat_of_lt' (lt_of_le_of_lt (Nat.le_add_right _ _) small)
      have size : (UInt64.ofNat chunk.data.length).toNat = chunk.data.length :=
        UInt64.toNat_ofNat_of_lt' (lt_of_le_of_lt (Nat.le_add_left _ _) small)
      refine ⟨⟨rest ++ padding ++ chunk.data, ?_⟩, ?_, ?_⟩
      · rw [padded, startsWith]
        simp only [List.append_assoc]
      · refine List.rel_append ?_ (.cons ⟨rfl, size, ?_, ?_⟩ .nil)
        · refine written.placed.imp fun entry chunk placed => ?_
          rw [padded, List.append_assoc]
          exact placed.append _
        · rw [offset]
          exact storedAt_append image chunk.data
        · rw [offset, ← bytes, Nat.mul_mod_mul_left, multiple]
      · let entry : Entry :=
          ⟨chunk.name, UInt64.ofNat image.length, UInt64.ofNat chunk.data.length⟩
        have behind : w.image.length ≤ entry.offset.toNat := by
          rw [offset, padded, List.length_append]
          exact Nat.le_add_right _ _
        have inOrder := written.inOrder.append behind
        rw [offset, size, ← List.length_append] at inOrder
        exact inOrder
    · cases added

theorem length_le_of_add {w w' : DataSetWriter} {chunk : Chunk} (added : w.add chunk = some w') :
    w.image.length ≤ w'.image.length := by
  rw [DataSetWriter.add] at added
  split at added
  · cases added
  · split at added
    · obtain rfl := Option.some.inj added
      obtain ⟨padding, padded⟩ := appendPadding_eq w.image (chunk.alignment.toNat / 8)
      rw [padded, List.length_append, List.length_append]
      omega
    · cases added

theorem exists_add {w : DataSetWriter} {chunk : Chunk} (fresh : chunk.name ∉ w.seenNames)
    (valid : isValidAlignment chunk.alignment = true) :
    ∃ w', w.add chunk = some w' ∧ w'.seenNames = chunk.name :: w.seenNames := by
  rw [DataSetWriter.add, if_neg fresh, if_pos valid]
  exact ⟨_, rfl, rfl⟩

/-- **Chunks with distinct names and valid alignments are all written.** -/
theorem exists_addAll {magic : ByteString} {chunks : List Chunk} {w : DataSetWriter}
    (fresh : ∀ chunk ∈ chunks, chunk.name ∉ w.seenNames)
    (distinct : (chunks.map Chunk.name).Nodup)
    (valid : ∀ chunk ∈ chunks, isValidAlignment chunk.alignment = true) :
    ∃ w', w.addAll chunks = some w' ∧ w.image.length ≤ w'.image.length ∧
      ∀ done, Written magic w done → w'.image.length < 2 ^ 64 → Written magic w' (done ++ chunks) := by
  induction chunks generalizing w with
  | nil => exact ⟨w, rfl, Nat.le_refl _, fun done written _ => by rwa [List.append_nil]⟩
  | cons chunk chunks ih =>
      rw [List.map_cons, List.nodup_cons] at distinct
      rw [List.forall_mem_cons] at fresh valid
      obtain ⟨w₁, added, seenNames⟩ := exists_add fresh.1 valid.1
      have fresh₁ : ∀ other ∈ chunks, other.name ∉ w₁.seenNames := by
        intro other member seen
        rw [seenNames, List.mem_cons] at seen
        rcases seen with same | seen
        · exact distinct.1 (same ▸ List.mem_map_of_mem member)
        · exact fresh.2 other member seen
      obtain ⟨w₂, addedAll, lengthLe, written⟩ := ih fresh₁ distinct.2 valid.2
      refine ⟨w₂, ?_, (length_le_of_add added).trans lengthLe, fun done before small => ?_⟩
      · rw [DataSetWriter.addAll, List.foldlM_cons, added]
        exact addedAll
      · rw [List.append_cons]
        exact written _ (written_add before added (lengthLe.trans_lt small)) small

end Mozkey.DataManager
