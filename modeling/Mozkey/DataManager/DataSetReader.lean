import Mozkey.DataManager.DataSetWriter

/-!
# Reading a data set

The reader finds the metadata from the end of the file and maps every name to a view of
its data.  It takes what the writer wrote, unless the last chunk is empty: the offset of
such a chunk is that of the metadata, and an entry has to begin before the metadata.
-/

namespace Mozkey.DataManager

/-! ## The reader -/

/-- A part of the file. -/
structure View where
  offset : Nat
  size : Nat
  deriving DecidableEq, Repr

def View.bytes (memblock : ByteString) (view : View) : ByteString :=
  (memblock.drop view.offset).take view.size

/-- `absl::ClippedSubstr`. -/
def clippedSubstr (s : ByteString) (pos n : Nat) : View :=
  let pos := min pos s.length
  ⟨pos, min n (s.length - pos)⟩

def kFooterSize : Nat := 36

/-- The loop over the entries of the metadata, from a chunk end on.  Later entries of a
name replace earlier ones.  No sum is larger than the file. -/
def mapEntries (memblock : ByteString) (metadataOffset : Nat) :
    Nat → List Entry → List (ByteString × View) → Option (List (ByteString × View))
  | _, [], nameToDataMap => some nameToDataMap
  | prevChunkEnd, e :: entries, nameToDataMap =>
      if e.offset.toNat < prevChunkEnd ∨ e.offset.toNat ≥ metadataOffset then none
      else if e.size.toNat > metadataOffset ∨ e.offset.toNat > metadataOffset - e.size.toNat then none
      else
        mapEntries memblock metadataOffset (e.offset.toNat + e.size.toNat) entries
          ((e.name, clippedSubstr memblock e.offset.toNat e.size.toNat) :: nameToDataMap)

variable (M : Modules)

/-- `DataSetReader::Init` with the length of the magic. -/
def initAfterMagic (memblock : ByteString) (magicLength : Nat) :
    Option (List (ByteString × View)) :=
  if memblock.length < magicLength + kFooterSize then none
  else
    match deserializeUint64 ((clippedSubstr memblock (memblock.length - 8) 8).bytes memblock) with
    | none => none
    | some filesize =>
        if filesize.toNat ≠ memblock.length then none
        else
          match deserializeUint64
            ((clippedSubstr memblock (memblock.length - kFooterSize) 8).bytes memblock) with
          | none => none
          | some metadataSize =>
              let contentAndMetadataSize := memblock.length - magicLength - kFooterSize
              if metadataSize = 0 ∨ contentAndMetadataSize < metadataSize.toNat then none
              else
                let metadataOffset := memblock.length - kFooterSize - metadataSize.toNat
                match M.parseFromString
                  ((clippedSubstr memblock metadataOffset metadataSize.toNat).bytes memblock) with
                | none => none
                | some entries => mapEntries memblock metadataOffset magicLength entries []

/-- `DataSetReader::Init`: the map of names, `none` where it returns false. -/
def init (memblock magic : ByteString) : Option (List (ByteString × View)) :=
  if magic.isPrefixOf memblock then initAfterMagic M memblock magic.length else none

/-- `DataSetReader::Get`. -/
def get (nameToDataMap : List (ByteString × View)) (name : ByteString) : Option View :=
  nameToDataMap.lookup name

/-! ## Cutting out -/

/-- What stands in the file is found there. -/
theorem bytes_clippedSubstr {memblock bytes : ByteString} {offset : Nat}
    (stored : StoredAt memblock offset bytes) :
    (clippedSubstr memblock offset bytes.length).bytes memblock = bytes ∧
      (clippedSubstr memblock offset bytes.length).offset = offset := by
  have inside : offset + bytes.length ≤ memblock.length := by
    obtain ⟨front, rest, rfl, rfl⟩ := stored
    simp only [List.length_append]
    omega
  have pos : min offset memblock.length = offset := Nat.min_eq_left (by omega)
  have size : min bytes.length (memblock.length - offset) = bytes.length :=
    Nat.min_eq_left (by omega)
  rw [clippedSubstr, View.bytes]
  dsimp only
  rw [pos, size]
  exact ⟨stored.take_drop, rfl⟩

/-! ## The loop over the entries -/

theorem InOrder.le {start stop : Nat} {entries : List Entry} (inOrder : InOrder start entries stop) :
    start ≤ stop := by
  induction entries generalizing start with
  | nil =>
      rw [InOrder] at inOrder
      exact inOrder.le
  | cons entry entries ih =>
      have behind := ih inOrder.2
      have first := inOrder.1
      omega

/-- In front of a last entry of some size there is room. -/
theorem InOrder.lt {start stop : Nat} {entries : List Entry} (inOrder : InOrder start entries stop)
    {last : Entry} (isLast : last ∈ entries.getLast?) (sized : last.size.toNat ≠ 0) : start < stop := by
  induction entries generalizing start with
  | nil => cases isLast
  | cons entry entries ih =>
      have first := inOrder.1
      cases entries with
      | nil =>
          obtain rfl : entry = last := Option.some.inj isLast
          have stop := inOrder.2
          rw [InOrder] at stop
          omega
      | cons next entries =>
          rw [List.getLast?_cons_cons] at isLast
          have behind := ih inOrder.2 isLast
          omega

/-- **The loop takes entries in order exactly when the last one is not empty.** -/
theorem isSome_mapEntries {memblock : ByteString} {start stop : Nat} {entries : List Entry}
    (inOrder : InOrder start entries stop) (nameToDataMap : List (ByteString × View)) :
    (mapEntries memblock stop start entries nameToDataMap).isSome = true ↔
      ∀ last ∈ entries.getLast?, last.size.toNat ≠ 0 := by
  induction entries generalizing start nameToDataMap with
  | nil => exact iff_of_true rfl fun last isLast => by cases isLast
  | cons entry entries ih =>
      obtain ⟨first, behind⟩ := inOrder
      have fits := behind.le
      rw [mapEntries]
      by_cases atMetadata : entry.offset.toNat ≥ stop
      · rw [if_pos (Or.inr atMetadata)]
        refine iff_of_false Bool.false_ne_true fun sized => ?_
        cases isLast : (entry :: entries).getLast? with
        | none => exact List.cons_ne_nil _ _ (List.getLast?_eq_none_iff.1 isLast)
        | some last =>
            have whole : InOrder entry.offset.toNat (entry :: entries) stop :=
              ⟨Nat.le_refl _, behind⟩
            have room := whole.lt isLast (sized last isLast)
            omega
      · rw [if_neg (by omega), if_neg (by omega), ih behind]
        cases entries with
        | nil =>
            rw [InOrder] at behind
            refine iff_of_true (fun last isLast => by cases isLast) ?_
            intro last isLast
            obtain rfl : entry = last := Option.some.inj isLast
            omega
        | cons next entries => rw [List.getLast?_cons_cons]

/-- What the loop maps the names to. -/
theorem lookup_mapEntries {memblock : ByteString} {metadataOffset start : Nat} {entries : List Entry}
    {before after : List (ByteString × View)}
    (mapped : mapEntries memblock metadataOffset start entries before = some after)
    (distinct : (entries.map Entry.name).Nodup) :
    (∀ e ∈ entries, after.lookup e.name = some (clippedSubstr memblock e.offset.toNat e.size.toNat)) ∧
      ∀ name, name ∉ entries.map Entry.name → after.lookup name = before.lookup name := by
  induction entries generalizing start before with
  | nil =>
      obtain rfl := Option.some.inj mapped
      exact ⟨fun e member => absurd member List.not_mem_nil, fun name _ => rfl⟩
  | cons entry entries ih =>
      rw [mapEntries] at mapped
      split at mapped
      · cases mapped
      · split at mapped
        · cases mapped
        · rw [List.map_cons, List.nodup_cons] at distinct
          obtain ⟨ofEntries, others⟩ := ih mapped distinct.2
          constructor
          · intro e member
            rcases List.mem_cons.1 member with rfl | member
            · rw [others _ distinct.1, List.lookup_cons_self]
            · exact ofEntries e member
          · intro name other
            rw [List.map_cons, List.mem_cons, not_or] at other
            rw [others name other.2, List.lookup_cons, beq_eq_false_iff_ne.2 other.1]

/-! ## The file of a writer -/

theorem length_finish (w : DataSetWriter) :
    (w.finish M).length
      = w.image.length + (M.serializeAsString w.entries).length + kFooterSize := by
  rw [DataSetWriter.finish]
  simp only [List.length_append, length_serializeUint64, (M.makeDigest _).2]
  rfl

/-- The parts of the file stand where the reader looks for them. -/
theorem storedAt_finish (w : DataSetWriter) :
    StoredAt (w.finish M) ((w.finish M).length - 8)
        (serializeUint64 (UInt64.ofNat (w.finish M).length)) ∧
      StoredAt (w.finish M) ((w.finish M).length - kFooterSize)
        (serializeUint64 (UInt64.ofNat (M.serializeAsString w.entries).length)) ∧
      StoredAt (w.finish M) w.image.length (M.serializeAsString w.entries) := by
  have length := length_finish M w
  generalize isFile : w.finish M = file at *
  rw [DataSetWriter.finish] at isFile
  generalize M.serializeAsString w.entries = s at *
  generalize isSized : w.image ++ s ++ serializeUint64 (UInt64.ofNat s.length) = sized at *
  have digestLength := (M.makeDigest sized).2
  generalize (M.makeDigest sized).val = digest at *
  have sizedLength : sized.length = w.image.length + s.length + 8 := by
    rw [← isSized]
    simp only [List.length_append, length_serializeUint64]
  have fileLength : (sized ++ digest).length + 8 = file.length := by
    rw [length, List.length_append, digestLength, sizedLength]
    rfl
  rw [fileLength] at isFile
  refine ⟨?_, ?_, ?_⟩
  · have stored := storedAt_append (sized ++ digest) (serializeUint64 (UInt64.ofNat file.length))
    rw [isFile, Nat.eq_sub_of_add_eq fileLength] at stored
    exact stored
  · have stored := storedAt_append (w.image ++ s) (serializeUint64 (UInt64.ofNat s.length))
    rw [isSized, List.length_append] at stored
    have whole := (stored.append digest).append (serializeUint64 (UInt64.ofNat file.length))
    rw [isFile] at whole
    rw [length, Nat.add_sub_cancel]
    exact whole
  · have stored := storedAt_append w.image s
    have sizedStored := stored.append (serializeUint64 (UInt64.ofNat s.length))
    rw [isSized] at sizedStored
    have whole := (sizedStored.append digest).append (serializeUint64 (UInt64.ofNat file.length))
    rw [isFile] at whole
    exact whole

/-- On the file of a writer, the reader comes to the loop over the entries. -/
theorem init_finish {magic : ByteString} {w : DataSetWriter} {chunks : List Chunk}
    (written : Written magic w chunks) (nonempty : chunks ≠ [])
    (readsBack : M.ReadsBack w.entries) (small : (w.finish M).length < 2 ^ 64) :
    init M (w.finish M) magic
      = mapEntries (w.finish M) w.image.length magic.length w.entries [] := by
  have length := length_finish M w
  obtain ⟨sizeStored, metadataSizeStored, metadataStored⟩ := storedAt_finish M w
  have isPrefix : magic.isPrefixOf (w.finish M) = true := by
    obtain ⟨rest, image⟩ := written.startsWith
    rw [List.isPrefixOf_iff_prefix, DataSetWriter.finish, image]
    simp only [List.append_assoc]
    exact List.prefix_append _ _
  have magicLength : magic.length ≤ w.image.length := written.inOrder.le
  have metadataNonempty : M.serializeAsString w.entries ≠ [] := by
    intro empty
    have parsed := readsBack.parse_serialize
    rw [empty, readsBack.parse_nil, Option.some.injEq] at parsed
    have placed := written.placed
    rw [← parsed] at placed
    cases placed
    exact nonempty rfl
  have metadataPositive := List.length_pos_iff.2 metadataNonempty
  generalize w.finish M = file at *
  have filesize : (UInt64.ofNat file.length).toNat = file.length := UInt64.toNat_ofNat_of_lt' small
  have metadataSize : (UInt64.ofNat (M.serializeAsString w.entries).length).toNat
      = (M.serializeAsString w.entries).length :=
    UInt64.toNat_ofNat_of_lt' (lt_of_le_of_lt (by omega) small)
  have sizeBytes := (bytes_clippedSubstr sizeStored).1
  have metadataSizeBytes := (bytes_clippedSubstr metadataSizeStored).1
  have metadataBytes := (bytes_clippedSubstr metadataStored).1
  rw [length_serializeUint64] at sizeBytes metadataSizeBytes
  have sized : UInt64.ofNat (M.serializeAsString w.entries).length ≠ 0 := by
    intro zero
    rw [zero] at metadataSize
    exact metadataPositive.ne metadataSize
  have offset : file.length - kFooterSize - (M.serializeAsString w.entries).length
      = w.image.length := by
    omega
  rw [init, if_pos isPrefix, initAfterMagic, if_neg (by omega), sizeBytes,
    deserializeUint64_serializeUint64]
  dsimp only
  rw [if_neg (not_not.2 filesize), metadataSizeBytes, deserializeUint64_serializeUint64]
  dsimp only
  rw [metadataSize, if_neg (not_or.2 ⟨sized, by omega⟩), offset, metadataBytes,
    readsBack.parse_serialize]

/-! ## What is read of what was written -/

/-- Every chunk is found under its name, aligned. -/
def Readable (magic : ByteString) (chunks : List Chunk) (file : ByteString) : Prop :=
  ∃ nameToDataMap, init M file magic = some nameToDataMap ∧
    ∀ chunk ∈ chunks, ∃ view, get nameToDataMap chunk.name = some view ∧
      view.bytes file = chunk.data ∧ 8 * view.offset % chunk.alignment.toNat = 0

theorem names_eq {image : ByteString} {entries : List Entry} {chunks : List Chunk}
    (placed : List.Forall₂ (Placed image) entries chunks) :
    entries.map Entry.name = chunks.map Chunk.name := by
  induction placed with
  | nil => rfl
  | cons first _ ih => rw [List.map_cons, List.map_cons, first.name, ih]

theorem exists_placed {image : ByteString} {entries : List Entry} {chunks : List Chunk}
    (placed : List.Forall₂ (Placed image) entries chunks) {chunk : Chunk} (member : chunk ∈ chunks) :
    ∃ entry ∈ entries, Placed image entry chunk := by
  induction placed with
  | nil => exact absurd member List.not_mem_nil
  | cons first _ ih =>
      rcases List.mem_cons.1 member with rfl | member
      · exact ⟨_, List.mem_cons_self, first⟩
      · obtain ⟨entry, memberEntry, placedEntry⟩ := ih member
        exact ⟨entry, List.mem_cons_of_mem _ memberEntry, placedEntry⟩

/-- The last entry is as large as the last chunk. -/
theorem getLast_size {image : ByteString} {entries : List Entry} {chunks : List Chunk}
    (placed : List.Forall₂ (Placed image) entries chunks) (nonempty : chunks ≠ []) :
    ∃ last, entries.getLast? = some last ∧
      last.size.toNat = (chunks.getLast nonempty).data.length := by
  induction placed with
  | nil => exact absurd rfl nonempty
  | @cons entry chunk entries chunks first rest ih =>
      cases rest with
      | nil => exact ⟨entry, rfl, first.size⟩
      | cons second rest =>
          obtain ⟨last, isLast, size⟩ := ih (List.cons_ne_nil _ _)
          exact ⟨last, isLast, size⟩

/-- **The reader takes what the writer wrote exactly when the last chunk is not empty.** -/
theorem readable_finish_iff {magic : ByteString} {w : DataSetWriter} {chunks : List Chunk}
    (written : Written magic w chunks) (nonempty : chunks ≠ [])
    (distinct : (chunks.map Chunk.name).Nodup) (readsBack : M.ReadsBack w.entries)
    (small : (w.finish M).length < 2 ^ 64) :
    Readable M magic chunks (w.finish M) ↔ (chunks.getLast nonempty).data ≠ [] := by
  obtain ⟨last, isLast, size⟩ := getLast_size written.placed nonempty
  have taken := @isSome_mapEntries (w.finish M) _ _ _ written.inOrder []
  have lastSized : (∀ last ∈ w.entries.getLast?, last.size.toNat ≠ 0) ↔
      (chunks.getLast nonempty).data ≠ [] := by
    rw [isLast]
    simp [size, List.length_eq_zero_iff]
  rw [← lastSized, ← taken, Readable, init_finish M written nonempty readsBack small]
  constructor
  · rintro ⟨nameToDataMap, mapped, _⟩
    rw [mapped]
    rfl
  · intro isSome
    obtain ⟨nameToDataMap, mapped⟩ := Option.isSome_iff_exists.1 isSome
    rw [← names_eq written.placed] at distinct
    obtain ⟨found, _⟩ := lookup_mapEntries mapped distinct
    refine ⟨nameToDataMap, mapped, fun chunk member => ?_⟩
    obtain ⟨entry, memberEntry, placed⟩ := exists_placed written.placed member
    obtain ⟨rest, image⟩ : ∃ rest, w.finish M = w.image ++ rest := by
      rw [DataSetWriter.finish]
      simp only [List.append_assoc]
      exact ⟨_, rfl⟩
    have stored : StoredAt (w.finish M) entry.offset.toNat chunk.data := by
      rw [image]
      exact placed.stored.append rest
    obtain ⟨bytes, offset⟩ := bytes_clippedSubstr stored
    refine ⟨clippedSubstr (w.finish M) entry.offset.toNat chunk.data.length, ?_, bytes, ?_⟩
    · rw [get, ← placed.name, found entry memberEntry, placed.size]
    · rw [offset]
      exact placed.aligned

/-- **Chunks with distinct names and valid alignments are written, and all of them are
read back exactly when the last one is not empty.** -/
theorem readable_iff_lastNonempty (magic : ByteString) {chunks : List Chunk} (nonempty : chunks ≠ [])
    (distinct : (chunks.map Chunk.name).Nodup)
    (valid : ∀ chunk ∈ chunks, isValidAlignment chunk.alignment = true) :
    ∃ w, DataSetWriter.addAll { image := magic } chunks = some w ∧
      (M.ReadsBack w.entries → (w.finish M).length < 2 ^ 64 →
        (Readable M magic chunks (w.finish M) ↔ (chunks.getLast nonempty).data ≠ [])) := by
  obtain ⟨w, added, _, written⟩ := @exists_addAll magic chunks { image := magic }
    (fun _ _ => List.not_mem_nil) distinct valid
  refine ⟨w, added, fun readsBack small => ?_⟩
  have length := length_finish M w
  have writtenAll := written [] (written_begin magic) (by omega)
  exact readable_finish_iff M writtenAll nonempty distinct readsBack small

/-! ## Two files -/

/-- Modules for the entries of one file, with its metadata and its checksum. -/
def sampleModules (entries : List Entry) (metadata : ByteString)
    (digest : { digest : ByteString // digest.length = 20 }) : Modules where
  serializeAsString written := if written = entries then metadata else []
  parseFromString bytes :=
    if bytes = metadata then some entries else if bytes = [] then some [] else none
  makeDigest _ := digest

theorem readsBack_sample (entries : List Entry) {metadata : ByteString} (some_ : [] ≠ metadata)
    (digest : { digest : ByteString // digest.length = 20 }) :
    (sampleModules entries metadata digest).ReadsBack entries where
  parse_serialize := by simp only [sampleModules, if_true]
  parse_nil := by simp only [sampleModules, if_neg some_, if_true]

/-- The file of an empty chunk behind a magic of one byte. -/
def emptyEntries : List Entry := [⟨ascii "a", 1, 0⟩]

def emptyModules : Modules :=
  sampleModules emptyEntries [0x0A, 0x07, 0x0A, 0x01, 0x61, 0x10, 0x01, 0x18, 0x00]
    ⟨[97, 71, 207, 132, 108, 134, 208, 221, 156, 192, 154, 173, 248, 19, 89, 163, 158, 114, 16, 212],
      rfl⟩

/-- **A single empty chunk is written, and the reader refuses the file.** -/
theorem emptyChunk_not_readable :
    ∃ w, DataSetWriter.addAll { image := ascii "m" } [⟨ascii "a", 8, []⟩] = some w ∧
      emptyModules.ReadsBack w.entries ∧ (w.finish emptyModules).length < 2 ^ 64 ∧
        ¬ Readable emptyModules (ascii "m") [⟨ascii "a", 8, []⟩] (w.finish emptyModules) := by
  refine ⟨⟨ascii "m", emptyEntries, [ascii "a"]⟩, rfl, readsBack_sample _ (by decide) _, by decide,
    ?_⟩
  rintro ⟨nameToDataMap, mapped, _⟩
  have refused : init emptyModules
      (DataSetWriter.finish emptyModules ⟨ascii "m", emptyEntries, [ascii "a"]⟩) (ascii "m")
        = none := by
    decide
  rw [refused] at mapped
  cases mapped

/-- Two chunks: the second one is aligned to four bytes, and two bytes of padding stand in front
of it. -/
def twoChunks : List Chunk := [⟨ascii "a", 8, ascii "x"⟩, ⟨ascii "b", 32, ascii "yz"⟩]

def twoEntries : List Entry := [⟨ascii "a", 1, 1⟩, ⟨ascii "b", 4, 2⟩]

def twoModules : Modules :=
  sampleModules twoEntries
    [0x0A, 0x07, 0x0A, 0x01, 0x61, 0x10, 0x01, 0x18, 0x01,
      0x0A, 0x07, 0x0A, 0x01, 0x62, 0x10, 0x04, 0x18, 0x02]
    ⟨[61, 85, 238, 3, 78, 120, 123, 3, 219, 170, 149, 216, 147, 45, 90, 122, 143, 22, 155, 99], rfl⟩

/-- Two chunks with padding between them are read back. -/
theorem twoChunks_readable :
    ∃ w, DataSetWriter.addAll { image := ascii "m" } twoChunks = some w ∧
      w.image = ascii "mx" ++ [0, 0] ++ ascii "yz" ∧
        Readable twoModules (ascii "m") twoChunks (w.finish twoModules) := by
  obtain ⟨w, added, readable⟩ := @readable_iff_lastNonempty twoModules (ascii "m") twoChunks
    (List.cons_ne_nil _ _) (by decide) (by decide)
  refine ⟨w, added, ?_, (readable ?_ ?_).2 (by decide)⟩
  · obtain rfl := Option.some.inj added
    decide
  · obtain rfl := Option.some.inj added
    exact readsBack_sample twoEntries (by decide) _
  · obtain rfl := Option.some.inj added
    decide

end Mozkey.DataManager
