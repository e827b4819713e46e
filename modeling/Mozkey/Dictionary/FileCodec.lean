import Mozkey.Base.Bits

/-!
# The codec of dictionary files

A dictionary file is a header, the magic number and a seed, and then its sections.  A
section is the size of its image, its name of eight bytes, the image and padding up to a
boundary of four bytes.  The file ends with a size of zero.

Sizes are of type `int32_t`, and the padded size is reckoned in `int`, which wraps around
here where it overflows.  A pointer is an offset into the image; a read outside of the
image has no meaning in the source.
-/

namespace Mozkey.Dictionary

structure DictionaryFileSection where
  image : ByteString
  name : ByteString
  deriving DecidableEq, Repr

/-! ## Writing -/

/-- `filecodec_util::WriteInt32`. -/
def writeInt32 (value : Int32) : ByteString := storeUnaligned32 value.toUInt32

/-- `filecodec_util::RoundUp4`. -/
def roundUp4 (length : Int32) : Int32 :=
  let rem := length % 4
  length + (4 - rem) % 4

/-- The loop of `Pad4`, with at most `fuel` iterations; it ends at a multiple of four. -/
def pad4From : Nat → Int32 → ByteString
  | 0, _ => []
  | fuel + 1, i => if i % 4 ≠ 0 then 0 :: pad4From fuel (i + 1) else []

/-- `filecodec_util::Pad4`. -/
def pad4 (length : Int32) : ByteString := pad4From 4 length

/-- `DictionaryFileCodec::WriteSection`. -/
def writeSection (section_ : DictionaryFileSection) : ByteString :=
  writeInt32 (Int32.ofNat section_.image.length) ++ section_.name ++ section_.image ++
    pad4 (Int32.ofNat section_.image.length)

/-- The order in which the sections are written. -/
def writtenOrder (sections : List DictionaryFileSection) : List DictionaryFileSection :=
  match sections with
  | [s0, s1, s2, s3] => [s0, s2, s1, s3]
  | _ => sections

/-- `DictionaryFileCodec::WriteSections`. -/
def writeSections (filemagic seed : Int32) (sections : List DictionaryFileSection) : ByteString :=
  writeInt32 filemagic ++ writeInt32 seed ++ (writtenOrder sections).flatMap writeSection ++
    writeInt32 0

/-! ## Reading -/

/-- The errors of `ReadSections`, with the numbers in their texts. -/
inductive CodecError
  /-- "Insufficient data size: … bytes" -/
  | insufficientDataSize (size : Nat)
  /-- "memory block of size … is not aligned at 32-bit boundary" -/
  | notAligned (size : Nat)
  /-- "Invalid dictionary file magic. Expected: … Actual: …" -/
  | invalidMagic (expected actual : Int32)
  /-- "Section …: Insufficient image to read data_size(4 bytes), available size = …" -/
  | insufficientImage (sectionIndex : Nat) (available : Int)
  /-- "Section …: Read pointer will pass the end: offset=…, image_size=…" -/
  | passesEnd (sectionIndex : Nat) (offset : Int) (size : Nat)
  /-- "… bytes remaining out of …" -/
  | bytesRemaining (remaining : Int) (size : Nat)
  /-- A read outside of the image. -/
  | outside
  deriving DecidableEq, Repr

/-- The bytes at a pointer, if they are in the image. -/
def bytesAt (image : ByteString) (ptr count : Int) : Except CodecError ByteString :=
  if 0 ≤ ptr ∧ 0 ≤ count ∧ ptr + count ≤ image.length then
    .ok ((image.drop ptr.toNat).take count.toNat)
  else .error .outside

/-- `LoadUnaligned<int32_t>`. -/
def loadInt32 (ptr : ByteString) : Int32 := (loadUnaligned32At ptr).toInt32

/-- One iteration of the loop of `ReadSections`: the section that was read and the pointer
behind it, or no section at the end marker. -/
def readSection (image : ByteString) (sectionIndex : Nat) (ptr : Int) :
    Except CodecError (Option DictionaryFileSection × Int) := do
  if image.length - ptr < 4 then
    throw (.insufficientImage sectionIndex (image.length - ptr))
  let dataSize := loadInt32 (← bytesAt image ptr 4)
  let ptr := ptr + 4
  if dataSize = 0 then
    return (none, ptr)
  let paddedDataSize := (roundUp4 dataSize).toInt
  let sectionEnd := ptr + 8 + paddedDataSize
  if sectionEnd > image.length then
    throw (.passesEnd sectionIndex sectionEnd image.length)
  let fingerprint ← bytesAt image ptr 8
  let ptr := ptr + 8
  let data ← bytesAt image ptr dataSize.toInt
  return (some ⟨data, fingerprint⟩, ptr + paddedDataSize)

/-- The loop of `ReadSections`, with at most `fuel` iterations. -/
def readSectionsFrom (image : ByteString) : Nat → Nat → Int → List DictionaryFileSection →
    Option (Except CodecError (List DictionaryFileSection × Int))
  | 0, _, _, _ => none
  | fuel + 1, sectionIndex, ptr, sections =>
      match readSection image sectionIndex ptr with
      | .error error => some (.error error)
      | .ok (none, ptr) => some (.ok (sections, ptr))
      | .ok (some section_, ptr) =>
          readSectionsFrom image fuel (sectionIndex + 1) ptr (sections ++ [section_])

/-- `DictionaryFileCodec::ReadSections` of an image at an address: the sections and the
seed. -/
def readSections (fuel : Nat) (filemagic : Int32) (address : Nat) (image : ByteString) :
    Option (Except CodecError (List DictionaryFileSection × Int32)) :=
  if image.length < 12 then some (.error (.insufficientDataSize image.length))
  else if address % 4 ≠ 0 then some (.error (.notAligned image.length))
  else if loadInt32 image ≠ filemagic then
    some (.error (.invalidMagic filemagic (loadInt32 image)))
  else
    (readSectionsFrom image fuel 0 8 []).map fun result => do
      let (sections, ptr) ← result
      if ptr ≠ image.length then
        throw (.bytesRemaining (image.length - ptr) image.length)
      return (sections, loadInt32 (image.drop 4))

/-! ## Padding -/

theorem toInt_ofNat {n : Nat} (small : n < 2 ^ 31) : (Int32.ofNat n).toInt = n :=
  Int32.toInt_ofNat_of_lt small

/-- **The padded size** is negative where it overflows. -/
theorem toInt_roundUp4 {n : Nat} (small : n < 2 ^ 31) :
    (roundUp4 (Int32.ofNat n)).toInt =
      if n ≤ 2 ^ 31 - 4 then (n : Int) + (4 - n % 4) % 4 else -2 ^ 31 := by
  have four : (4 : Int32).toInt = 4 := rfl
  have rem : (n : Int).tmod 4 = n % 4 := Int.tmod_eq_emod_of_nonneg (by omega)
  have difference : (4 - (n : Int) % 4).bmod (2 ^ 32) = 4 - n % 4 :=
    Int.bmod_eq_of_le (by omega) (by omega)
  unfold roundUp4
  dsimp only
  rw [Int32.toInt_add, Int32.toInt_mod, Int32.toInt_sub, Int32.toInt_mod, toInt_ofNat small, four,
    rem, difference, Int.tmod_eq_emod_of_nonneg (by omega)]
  split
  · rw [Int.bmod_eq_of_le (by omega) (by omega)]
  · have full : (n : Int) + (4 - n % 4) % 4 = 2 ^ 31 := by omega
    rw [full]
    rfl

/-- Counting on from a size, the multiples of four are those of the numbers. -/
theorem ofNat_add_mod_four {n k : Nat} (small : n < 2 ^ 31) (few : k ≤ 3) :
    (Int32.ofNat n + Int32.ofNat k) % 4 = 0 ↔ (n + k) % 4 = 0 := by
  have four : (4 : Int32).toInt = 4 := rfl
  have zero : (0 : Int32).toInt = 0 := rfl
  rw [← Int32.toInt_inj, Int32.toInt_mod, Int32.toInt_add, toInt_ofNat small,
    toInt_ofNat (by omega), four, zero, ← Int.dvd_iff_tmod_eq_zero]
  by_cases fits : n + k < 2 ^ 31
  · rw [Int.bmod_eq_of_le (by omega) (by omega)]
    omega
  · have wrapped : ((n : Int) + k).bmod (2 ^ 32) = n + k - 2 ^ 32 := by
      rw [← Int.sub_bmod_right, Int.bmod_eq_of_le (by omega) (by omega)]
      omega
    rw [wrapped]
    omega

/-- **The padding** goes up to the next multiple of four, also where the sizes wrap around. -/
theorem pad4_ofNat {n : Nat} (small : n < 2 ^ 31) :
    pad4 (Int32.ofNat n) = List.replicate ((4 - n % 4) % 4) 0 := by
  have zero := ofNat_add_mod_four (k := 0) small (by omega)
  have one := ofNat_add_mod_four (k := 1) small (by omega)
  have two := ofNat_add_mod_four (k := 2) small (by omega)
  have three := ofNat_add_mod_four (k := 3) small (by omega)
  have sum0 : Int32.ofNat n + Int32.ofNat 0 = Int32.ofNat n := Int32.add_zero _
  have sum1 : Int32.ofNat n + Int32.ofNat 1 = Int32.ofNat n + 1 := rfl
  have sum2 : Int32.ofNat n + Int32.ofNat 2 = Int32.ofNat n + 1 + 1 := by
    rw [Int32.add_assoc]
    rfl
  have sum3 : Int32.ofNat n + Int32.ofNat 3 = Int32.ofNat n + 1 + 1 + 1 := by
    rw [Int32.add_assoc, Int32.add_assoc]
    rfl
  rw [sum0] at zero
  rw [sum1] at one
  rw [sum2] at two
  rw [sum3] at three
  have less : n % 4 < 4 := Nat.mod_lt _ (by decide)
  simp only [pad4, pad4From, ne_eq, zero, one, two, three]
  obtain rem | rem | rem | rem : n % 4 = 0 ∨ n % 4 = 1 ∨ n % 4 = 2 ∨ n % 4 = 3 := by omega
  · simp [rem]
  · have next : (n + 1) % 4 = 2 ∧ (n + 2) % 4 = 3 ∧ (n + 3) % 4 = 0 := by omega
    simp [rem, next, List.replicate]
  · have next : (n + 1) % 4 = 3 ∧ (n + 2) % 4 = 0 := by omega
    simp [rem, next, List.replicate]
  · have next : (n + 1) % 4 = 0 := by omega
    simp [rem, next]

theorem loadInt32_writeInt32 (value : Int32) (rest : ByteString) :
    loadInt32 (writeInt32 value ++ rest) = value := by
  rw [loadInt32, writeInt32, loadUnaligned32At_store]
  rfl

theorem length_writeInt32 (value : Int32) : (writeInt32 value).length = 4 := rfl

/-! ## Sections -/

/-- The sizes and names that a file can hold. -/
structure Writable (section_ : DictionaryFileSection) : Prop where
  name : section_.name.length = 8
  small : section_.image.length < 2 ^ 31

/-- A section whose size is neither the end marker nor overflows when it is rounded up. -/
def Readable (section_ : DictionaryFileSection) : Prop :=
  section_.image ≠ [] ∧ section_.image.length ≤ 2 ^ 31 - 4

theorem length_writeSection {section_ : DictionaryFileSection} (writable : Writable section_) :
    (writeSection section_).length =
      12 + section_.image.length + (4 - section_.image.length % 4) % 4 := by
  rw [writeSection, pad4_ofNat writable.small, List.length_append, List.length_append,
    List.length_append, length_writeInt32, writable.name, List.length_replicate]

/-- How far the pointer moves over a section. -/
def advance (section_ : DictionaryFileSection) : Int :=
  12 + (roundUp4 (Int32.ofNat section_.image.length)).toInt

/-- **The pointer moves over what was written**, unless the size overflows. -/
theorem advance_le {section_ : DictionaryFileSection} (writable : Writable section_) :
    advance section_ ≤ (writeSection section_).length ∧
      (advance section_ = (writeSection section_).length ↔
        section_.image.length ≤ 2 ^ 31 - 4) := by
  rw [advance, toInt_roundUp4 writable.small, length_writeSection writable]
  push_cast
  split
  · rename_i fits
    exact ⟨by omega, iff_of_true (by omega) fits⟩
  · rename_i overflows
    exact ⟨by omega, iff_of_false (by omega) overflows⟩

theorem bytesAt_eq_ok {image bytes : ByteString} {ptr count : Int}
    (read : bytesAt image ptr count = .ok bytes) :
    0 ≤ ptr ∧ 0 ≤ count ∧ ptr + count ≤ image.length ∧
      bytes = (image.drop ptr.toNat).take count.toNat := by
  unfold bytesAt at read
  split at read
  · rename_i inside
    exact ⟨inside.1, inside.2.1, inside.2.2, (Except.ok.inj read).symm⟩
  · cases read

/-- What one iteration of the loop has read. -/
theorem readSection_spec {image : ByteString} {index : Nat} {ptr behind : Int}
    {read : Option DictionaryFileSection}
    (isRead : readSection image index ptr = .ok (read, behind)) :
    match read with
    | none => behind = ptr + 4
    | some section_ => section_.image ≠ [] ∧ behind = ptr + advance section_ := by
  unfold readSection at isRead
  simp only [bind, Except.bind, pure, Except.pure, throw, throwThe, MonadExceptOf.throw] at isRead
  split at isRead
  · cases isRead
  · split at isRead
    · cases isRead
    · rename_i size isSize
      split at isRead
      · obtain ⟨rfl, rfl⟩ := Prod.mk.inj (Except.ok.inj isRead)
        rfl
      · rename_i some_
        split at isRead
        · cases isRead
        · split at isRead
          · cases isRead
          · split at isRead
            · cases isRead
            · rename_i data isData
              obtain ⟨rfl, rfl⟩ := Prod.mk.inj (Except.ok.inj isRead)
              obtain ⟨_, nonneg, inside, isTaken⟩ := bytesAt_eq_ok isData
              have positive : 0 ≤ ptr + 4 + 8 := by omega
              have length : data.length = (loadInt32 size).toInt.toNat := by
                rw [isTaken, List.length_take, List.length_drop]
                omega
              have sameSize : Int32.ofNat data.length = loadInt32 size := by
                have bound := (loadInt32 size).toInt_lt
                rw [← Int32.toInt_inj, toInt_ofNat (by omega)]
                omega
              have nonzero : (loadInt32 size).toInt ≠ 0 := by
                intro zero
                exact some_ (Int32.toInt_inj.1 zero)
              constructor
              · rw [← List.length_pos_iff]
                show 0 < data.length
                omega
              · show ptr + 4 + 8 + (roundUp4 (loadInt32 size)).toInt = ptr + advance ⟨data, _⟩
                rw [advance, sameSize]
                omega

/-- One iteration of the loop where all that it reads is there. -/
theorem readSection_of_bytes {image size name data : ByteString} {ptr : Int}
    (readSize : bytesAt image ptr 4 = .ok size) (some_ : loadInt32 size ≠ 0)
    (inside : ptr + 4 + 8 + (roundUp4 (loadInt32 size)).toInt ≤ image.length)
    (readName : bytesAt image (ptr + 4) 8 = .ok name)
    (readData : bytesAt image (ptr + 4 + 8) (loadInt32 size).toInt = .ok data) (index : Nat) :
    readSection image index ptr =
      .ok (some ⟨data, name⟩, ptr + 4 + 8 + (roundUp4 (loadInt32 size)).toInt) := by
  obtain ⟨_, _, sizeInside, _⟩ := bytesAt_eq_ok readSize
  unfold readSection
  simp only [bind, Except.bind, pure, Except.pure, throw, throwThe, MonadExceptOf.throw, readSize,
    readName, readData]
  rw [if_neg (by omega), if_neg some_, if_neg (by omega)]

/-- **A section that was written** is read. -/
theorem readSection_writeSection {image rest : ByteString} {ptr : Nat}
    {section_ : DictionaryFileSection} (writable : Writable section_) (readable : Readable section_)
    (stored : image.drop ptr = writeSection section_ ++ rest) (index : Nat) :
    readSection image index ptr =
      .ok (some section_, ((ptr + (writeSection section_).length : Nat) : Int)) := by
  obtain ⟨image_, name⟩ := section_
  obtain ⟨nameSize, small⟩ := writable
  obtain ⟨nonempty, fits⟩ := readable
  dsimp only at nameSize small nonempty fits
  have whole := congrArg List.length stored
  have size := @length_writeSection ⟨image_, name⟩ ⟨nameSize, small⟩
  rw [List.length_drop, List.length_append, size] at whole
  dsimp only at whole size
  have pieces : image.drop ptr = writeInt32 (Int32.ofNat image_.length) ++
      (name ++ (image_ ++ (pad4 (Int32.ofNat image_.length) ++ rest))) := by
    rw [stored, writeSection, List.append_assoc, List.append_assoc, List.append_assoc]
  have behindSize : image.drop (ptr + 4) =
      name ++ (image_ ++ (pad4 (Int32.ofNat image_.length) ++ rest)) := by
    rw [← List.drop_drop, pieces, ← length_writeInt32 (Int32.ofNat image_.length), List.drop_left]
  have behindName : image.drop (ptr + 4 + 8) =
      image_ ++ (pad4 (Int32.ofNat image_.length) ++ rest) := by
    rw [← List.drop_drop, behindSize, ← nameSize, List.drop_left]
  have positive := List.length_pos_iff.2 nonempty
  have readSize : bytesAt image ptr 4 = .ok (writeInt32 (Int32.ofNat image_.length)) := by
    unfold bytesAt
    rw [if_pos (by omega), Int.toNat_natCast, pieces]
    exact congrArg Except.ok (@List.take_left _ (writeInt32 _) _)
  have readName : bytesAt image (ptr + 4) 8 = .ok name := by
    unfold bytesAt
    rw [if_pos (by omega)]
    have offset : ((ptr : Int) + 4).toNat = ptr + 4 := by omega
    have count : (8 : Int).toNat = name.length := nameSize.symm
    rw [offset, behindSize, count, List.take_left]
  have readImage : bytesAt image (ptr + 4 + 8) image_.length = .ok image_ := by
    unfold bytesAt
    rw [if_pos (by omega)]
    have offset : ((ptr : Int) + 4 + 8).toNat = ptr + 4 + 8 := by omega
    rw [offset, behindName, Int.toNat_natCast, List.take_left]
  have loaded : loadInt32 (writeInt32 (Int32.ofNat image_.length)) = Int32.ofNat image_.length := by
    have alone := loadInt32_writeInt32 (Int32.ofNat image_.length) []
    rwa [List.append_nil] at alone
  have nonzero : Int32.ofNat image_.length ≠ 0 := by
    intro zero
    have value := congrArg Int32.toInt zero
    rw [toInt_ofNat small] at value
    have zero' : (0 : Int32).toInt = 0 := rfl
    omega
  have padded := toInt_roundUp4 small
  rw [if_pos fits] at padded
  rw [← toInt_ofNat small] at readImage
  rw [← loaded] at nonzero padded readImage
  rw [readSection_of_bytes readSize nonzero (by omega) readName readImage index, size, padded]
  congr 3
  omega

/-- The end marker is read. -/
theorem readSection_end {image : ByteString} {ptr : Nat} (stored : image.drop ptr = writeInt32 0)
    (index : Nat) : readSection image index ptr = .ok (none, (image.length : Int)) := by
  have whole := congrArg List.length stored
  rw [List.length_drop, length_writeInt32] at whole
  have readSize : bytesAt image ptr 4 = .ok (writeInt32 0) := by
    unfold bytesAt
    rw [if_pos (by omega), Int.toNat_natCast, stored]
    rfl
  have loaded : loadInt32 (writeInt32 0) = 0 := loadInt32_writeInt32 0 []
  unfold readSection
  simp only [bind, Except.bind, pure, Except.pure, throw, throwThe, MonadExceptOf.throw, readSize,
    loaded]
  rw [if_neg (by omega), if_pos trivial]
  congr 2
  omega

/-! ## Files -/

/-- **The loop** adds up the sections, and moves the pointer over them. -/
theorem readSectionsFrom_spec {image : ByteString} {fuel index : Nat} {ptr behind : Int}
    {before sections : List DictionaryFileSection}
    (read : readSectionsFrom image fuel index ptr before = some (.ok (sections, behind))) :
    ∃ added, sections = before ++ added ∧ (∀ section_ ∈ added, section_.image ≠ []) ∧
      behind = ptr + (added.map advance).sum + 4 := by
  induction fuel generalizing index ptr before with
  | zero => cases read
  | succ fuel ih =>
      rw [readSectionsFrom] at read
      split at read
      · cases Option.some.inj read
      · rename_i ptr' isRead
        obtain ⟨rfl, rfl⟩ := Prod.mk.inj (Except.ok.inj (Option.some.inj read))
        refine ⟨[], (List.append_nil _).symm, by simp, ?_⟩
        have ended := readSection_spec isRead
        simpa using ended
      · rename_i section_ ptr' isRead
        obtain ⟨added, rfl, nonempty, rfl⟩ := ih read
        obtain ⟨some_, moved⟩ := readSection_spec isRead
        refine ⟨section_ :: added, List.append_cons _ _ _ |>.symm, ?_, ?_⟩
        · exact List.forall_mem_cons.2 ⟨some_, nonempty⟩
        · rw [moved, List.map_cons, List.sum_cons]
          omega

/-- **What was written** is read by enough iterations. -/
theorem readSectionsFrom_flatMap {image : ByteString} {sections : List DictionaryFileSection}
    (good : ∀ section_ ∈ sections, Writable section_ ∧ Readable section_) {ptr : Nat}
    (stored : image.drop ptr = sections.flatMap writeSection ++ writeInt32 0) (index : Nat)
    (before : List DictionaryFileSection) :
    readSectionsFrom image (sections.length + 1) index ptr before =
      some (.ok (before ++ sections, (image.length : Int))) := by
  induction sections generalizing ptr index before with
  | nil =>
      rw [readSectionsFrom, readSection_end stored, List.append_nil]
  | cons section_ sections ih =>
      obtain ⟨writable, readable⟩ := good section_ List.mem_cons_self
      rw [List.flatMap_cons, List.append_assoc] at stored
      have rest : image.drop (ptr + (writeSection section_).length) =
          sections.flatMap writeSection ++ writeInt32 0 := by
        rw [← List.drop_drop, stored, List.drop_left]
      have later := ih (fun other member => good other (List.mem_cons_of_mem _ member)) rest
        (index + 1) (before ++ [section_])
      rw [List.length_cons, readSectionsFrom, readSection_writeSection writable readable stored]
      dsimp only
      rw [later, ← List.append_cons]

/-- The pointer never gets past what was written, and gets there only if no size overflows. -/
theorem sum_advance_le {sections : List DictionaryFileSection}
    (writable : ∀ section_ ∈ sections, Writable section_) :
    (sections.map advance).sum ≤ (sections.flatMap writeSection).length ∧
      ((sections.map advance).sum = (sections.flatMap writeSection).length →
        ∀ section_ ∈ sections, section_.image.length ≤ 2 ^ 31 - 4) := by
  induction sections with
  | nil => simp
  | cons section_ sections ih =>
      obtain ⟨le, full⟩ := advance_le (writable section_ List.mem_cons_self)
      obtain ⟨leLater, fullLater⟩ :=
        ih fun other member => writable other (List.mem_cons_of_mem _ member)
      rw [List.map_cons, List.sum_cons, List.flatMap_cons, List.length_append]
      refine ⟨by omega, ?_⟩
      intro same
      exact List.forall_mem_cons.2 ⟨full.1 (by omega), fullLater (by omega)⟩

theorem perm_writtenOrder (sections : List DictionaryFileSection) :
    (writtenOrder sections).Perm sections := by
  unfold writtenOrder
  split
  · exact ((List.Perm.swap _ _ _).cons _)
  · exact List.Perm.refl _

/-- The sections are read in the order in which they were written, and so is the seed. -/
def ReadsBack (filemagic seed : Int32) (address : Nat) (sections : List DictionaryFileSection) :
    Prop :=
  ∃ fuel, readSections fuel filemagic address (writeSections filemagic seed sections) =
    some (.ok (writtenOrder sections, seed))

/-- **A file is read back exactly if each of its images can be read**: no image is empty,
as its size is the end marker, and none is so long that its size overflows when it is
rounded up. -/
theorem readsBack_iff {filemagic seed : Int32} {address : Nat}
    {sections : List DictionaryFileSection} (aligned : address % 4 = 0)
    (writable : ∀ section_ ∈ sections, Writable section_) :
    ReadsBack filemagic seed address sections ↔
      ∀ section_ ∈ sections, Readable section_ := by
  have ordered : ∀ {section_}, section_ ∈ writtenOrder sections ↔ section_ ∈ sections :=
    (perm_writtenOrder sections).mem_iff
  have pieces : writeSections filemagic seed sections = writeInt32 filemagic ++ (writeInt32 seed ++
      ((writtenOrder sections).flatMap writeSection ++ writeInt32 0)) := by
    rw [writeSections, List.append_assoc, List.append_assoc]
  have length : (writeSections filemagic seed sections).length =
      8 + ((writtenOrder sections).flatMap writeSection).length + 4 := by
    rw [pieces, List.length_append, List.length_append, List.length_append, length_writeInt32,
      length_writeInt32, length_writeInt32]
    omega
  have magic : loadInt32 (writeSections filemagic seed sections) = filemagic := by
    rw [pieces, loadInt32_writeInt32]
  have behindMagic : (writeSections filemagic seed sections).drop 4 = writeInt32 seed ++
      ((writtenOrder sections).flatMap writeSection ++ writeInt32 0) := by
    rw [pieces, ← length_writeInt32 filemagic, List.drop_left]
  have readSeed : loadInt32 ((writeSections filemagic seed sections).drop 4) = seed := by
    rw [behindMagic, loadInt32_writeInt32]
  have stored : (writeSections filemagic seed sections).drop 8 =
      (writtenOrder sections).flatMap writeSection ++ writeInt32 0 := by
    have twice : 8 = 4 + 4 := rfl
    rw [twice, ← List.drop_drop, behindMagic, ← length_writeInt32 seed, List.drop_left]
  have opened : ∀ fuel, readSections fuel filemagic address (writeSections filemagic seed sections) =
      (readSectionsFrom (writeSections filemagic seed sections) fuel 0 8 []).map fun result => do
        let (sections', ptr) ← result
        if ptr ≠ (writeSections filemagic seed sections).length then
          throw (.bytesRemaining ((writeSections filemagic seed sections).length - ptr)
            (writeSections filemagic seed sections).length)
        return (sections', seed) := by
    intro fuel
    rw [readSections, if_neg (by omega), if_neg (not_not.2 aligned), if_neg (not_not.2 magic),
      readSeed]
  constructor
  · rintro ⟨fuel, read⟩
    rw [opened] at read
    cases isRead : readSectionsFrom (writeSections filemagic seed sections) fuel 0 8 [] with
    | none =>
        rw [isRead] at read
        cases read
    | some result =>
        rw [isRead] at read
        cases result with
        | error error => cases Option.some.inj read
        | ok pair =>
            obtain ⟨sections', ptr⟩ := pair
            have read' := Option.some.inj read
            by_cases atEnd : ptr = (writeSections filemagic seed sections).length
            · simp only [bind, Except.bind, pure, Except.pure, atEnd, ne_eq, not_true_eq_false,
                if_false] at read'
              obtain ⟨rfl, -⟩ := Prod.mk.inj (Except.ok.inj read')
              obtain ⟨added, isAdded, nonempty, moved⟩ := readSectionsFrom_spec isRead
              rw [List.nil_append] at isAdded
              subst isAdded
              have fits := (sum_advance_le fun section_ member =>
                writable section_ (ordered.1 member)).2 (by omega)
              intro section_ member
              exact ⟨nonempty section_ (ordered.2 member), fits section_ (ordered.2 member)⟩
            · simp only [bind, Except.bind, throw, throwThe, MonadExceptOf.throw, ne_eq, atEnd,
                not_false_eq_true, if_true] at read'
              cases read'
  · intro readable
    refine ⟨(writtenOrder sections).length + 1, ?_⟩
    have read := @readSectionsFrom_flatMap _ _ (fun section_ member =>
      ⟨writable _ (ordered.1 member), readable _ (ordered.1 member)⟩) 8 stored 0 []
    have eight : ((8 : Nat) : Int) = 8 := rfl
    rw [eight] at read
    rw [opened, read]
    simp [bind, Except.bind, pure, Except.pure]

/-- A file of two sections is read back. -/
theorem readsBack_two : ReadsBack 1 2 0
    [⟨[7], [1, 2, 3, 4, 5, 6, 7, 8]⟩, ⟨[0, 0, 0, 0], [8, 7, 6, 5, 4, 3, 2, 1]⟩] := by
  refine (readsBack_iff rfl ?_).2 ?_
  · simp only [List.forall_mem_cons]
    exact ⟨⟨rfl, by simp⟩, ⟨rfl, by simp⟩, fun section_ member => absurd member List.not_mem_nil⟩
  · simp [Readable]

/-- A section with an empty image ends the file. -/
theorem not_readsBack_empty : ¬ ReadsBack 1 2 0 [⟨[], [1, 2, 3, 4, 5, 6, 7, 8]⟩] := by
  rintro ⟨fuel, read⟩
  cases fuel with
  | zero => exact absurd read (by decide +kernel)
  | succ fuel =>
      have ended : readSection (writeSections 1 2 [⟨[], [1, 2, 3, 4, 5, 6, 7, 8]⟩]) 0 8 =
          .ok (none, 12) := by
        rfl
      rw [readSections, if_neg (by decide), if_neg (by decide), if_neg (by decide +kernel),
        readSectionsFrom, ended] at read
      cases Option.some.inj read

end Mozkey.Dictionary
