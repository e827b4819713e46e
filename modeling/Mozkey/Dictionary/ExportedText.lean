import Mozkey.Dictionary.TextImporter

/-!
# An exported dictionary is imported again

`exportDictionary` writes an entry on a line, with tabulators between its reading, word, part of
speech and comment.  `validateEntry` keeps tabulators and line breaks out of all of them, so every
line and every field is found again.  But the importer takes a line that begins with `#` for a
comment, and nothing keeps a reading from beginning with `#`: such an entry is exported and then
skipped without an error.  And an empty dictionary gives an empty text, of which the importer does
not see what wrote it.

`roundTrips_iff` says that nothing else is lost.
-/

namespace Mozkey.UserDictionary

open Mozkey.Dictionary (ExtendedErrorCode)

/-- The fields of an entry, as they are exported. -/
def exportLine (entry : Entry) : ByteString :=
  entry.key ++ 0x09 :: (entry.value ++ 0x09 :: (getStringPosType entry.pos ++ 0x09 :: entry.comment))

/-- The text that `UserDictionaryStorage::ExportDictionary` writes. -/
def exportDictionary (entries : List Entry) : ByteString :=
  entries.flatMap fun entry => exportLine entry ++ [0x0A]

/-- What a user sees of an entry. -/
def Entry.shown (entry : Entry) : ByteString × ByteString × PosType × ByteString :=
  (entry.key, entry.value, entry.pos, entry.comment)

variable (env : Environment)

/-- The import into an empty dictionary succeeds and gives the same entries in the same order. -/
def RoundTrips (entries : List Entry) : Prop :=
  let imported := importFromTextLineIterator env .mozc (exportDictionary entries) []
  imported.status = .ok () ∧ imported.entries.map Entry.shown = entries.map Entry.shown

/-- The generated map finds the parts of speech by their names. -/
def Environment.InvertsPos : Prop :=
  ∀ posType, (findPos env (getStringPosType posType)).map Prod.fst = some posType

/-- A dictionary as it is edited: entries that pass the checks, with normalized readings, no two
of them alike, and hash values that tell them apart. -/
structure WellFormed (entries : List Entry) : Prop where
  valid : ∀ entry ∈ entries, validateEntry entry = .ok ()
  normalized : ∀ entry ∈ entries, env.normalizeReading entry.key = entry.key
  distinct : (entries.map Entry.triple).Nodup
  hashes : ∀ entry ∈ entries, ∀ other ∈ entries,
    hashOf env entry = hashOf env other → entry.triple = other.triple

/-- The first character of a comment line. -/
def BeginsWithHash (entry : Entry) : Prop := entry.key.head? = some 0x23

instance (entry : Entry) : Decidable (BeginsWithHash entry) := by
  unfold BeginsWithHash
  infer_instance

/-! ## Lines -/

/-- A text without line breaks. -/
def OneLine (str : ByteString) : Prop := ∀ c ∈ str, c ≠ 0x0A ∧ c ≠ 0x0D

theorem takeLine_append {line : ByteString} (oneLine : OneLine line) (rest : ByteString) :
    StringTextLineIterator.takeLine (line ++ 0x0A :: rest) = (line, rest) := by
  induction line with
  | nil => simp [StringTextLineIterator.takeLine]
  | cons c line ih =>
      have other : ¬ (c = 0x0A ∨ c = 0x0D) := by
        simpa using oneLine c List.mem_cons_self
      rw [List.cons_append, StringTextLineIterator.takeLine, if_neg other,
        ih fun d mem => oneLine d (List.mem_cons_of_mem _ mem)]

/-- Lines that are ended by LF are given as they are. -/
theorem linesWithin_flatMap {lines : List ByteString} (oneLine : ∀ line ∈ lines, OneLine line)
    (fuel : Nat) (enough : lines.length ≤ fuel) :
    StringTextLineIterator.linesWithin fuel (lines.flatMap fun line => line ++ [0x0A]) = lines := by
  induction lines generalizing fuel with
  | nil => cases fuel <;> simp [StringTextLineIterator.linesWithin, StringTextLineIterator.next]
  | cons line lines ih =>
      obtain _ | fuel := fuel
      · simp at enough
      have next : StringTextLineIterator.next
          ((line :: lines).flatMap fun line => line ++ [0x0A]) =
            some (line, lines.flatMap fun line => line ++ [0x0A]) := by
        have taken := takeLine_append (oneLine line List.mem_cons_self)
          (lines.flatMap fun line => line ++ [0x0A])
        simpa [StringTextLineIterator.next] using taken
      rw [StringTextLineIterator.linesWithin, next]
      simp only [List.cons.injEq, true_and]
      exact ih (fun l mem => oneLine l (List.mem_cons_of_mem _ mem)) fuel (by simpa using enough)

theorem lines_flatMap {lines : List ByteString} (oneLine : ∀ line ∈ lines, OneLine line) :
    StringTextLineIterator.lines (lines.flatMap fun line => line ++ [0x0A]) = lines := by
  refine linesWithin_flatMap oneLine _ ?_
  induction lines with
  | nil => simp
  | cons line lines ih =>
      have rest := ih fun l mem => oneLine l (List.mem_cons_of_mem _ mem)
      simp only [List.flatMap_cons, List.length_append, List.length_cons, List.length_nil]
      omega

theorem chopReturns_of_oneLine {line : ByteString} (oneLine : OneLine line) :
    Util.chopReturns line = line := by
  unfold Util.chopReturns
  rw [List.rdropWhile_eq_self_iff]
  intro nonempty
  have last := oneLine _ (List.getLast_mem nonempty)
  simp [Util.isReturn, last.1, last.2]

/-! ## The line of an entry -/

section Line

variable {entry : Entry} (valid : entry.Valid)
include valid

theorem oneLine_exportLine : OneLine (exportLine entry) := by
  have oneLine : ∀ {str : ByteString}, Plain str → OneLine str :=
    fun plain c mem => ⟨(plain c mem).1, (plain c mem).2.1⟩
  intro c mem
  simp only [exportLine, List.mem_append, List.mem_cons] at mem
  rcases mem with key | rfl | value | rfl | pos | rfl | comment
  · exact oneLine valid.key c key
  · decide
  · exact oneLine valid.value c value
  · decide
  · exact oneLine (plain_getStringPosType entry.pos) c pos
  · decide
  · exact oneLine valid.comment c comment

theorem splitOn_exportLine : (exportLine entry).splitOn 0x09 =
    [entry.key, entry.value, getStringPosType entry.pos, entry.comment] := by
  have noTab : ∀ {str : ByteString}, Plain str → (0x09 : UInt8) ∉ str :=
    fun plain mem => (plain _ mem).2.2 rfl
  unfold exportLine
  rw [List.splitOn_append_cons_self_of_not_mem (noTab valid.key),
    List.splitOn_append_cons_self_of_not_mem (noTab valid.value),
    List.splitOn_append_cons_self_of_not_mem (noTab (plain_getStringPosType entry.pos)),
    List.splitOn_eq_singleton (noTab valid.comment)]

theorem head?_exportLine : (exportLine entry).head? = entry.key.head? := by
  obtain ⟨c, rest, eq⟩ := List.exists_cons_of_ne_nil valid.keyNonempty
  simp [exportLine, eq]

/-- The entry is read back, unless its reading makes its line a comment. -/
theorem readLine_exportLine : TextInputIterator.readLine .mozc (exportLine entry) =
    if BeginsWithHash entry then none
    else some ⟨entry.key, entry.value, getStringPosType entry.pos, entry.comment⟩ := by
  have nonempty : exportLine entry ≠ [] := by simp [exportLine]
  simp only [TextInputIterator.readLine, chopReturns_of_oneLine (oneLine_exportLine valid),
    if_neg nonempty, TextInputIterator.isComment, head?_exportLine valid,
    TextInputIterator.entryOfLine, splitOn_exportLine valid]
  simp [BeginsWithHash]

end Line

/-! ## The guess -/

/-- A line with a tabulator is none of Kotoeri's. -/
theorem guessIMEType_ne_kotoeri {line : ByteString} (tab : (0x09 : UInt8) ∈ line) :
    guessIMEType env line ≠ .kotoeri := by
  unfold guessIMEType
  simp only [tab, not_true_eq_false, and_false, if_false, or_true, if_true]
  split_ifs <;> simp

theorem imeType_exportDictionary {entries : List Entry} (valid : ∀ entry ∈ entries, entry.Valid) :
    TextInputIterator.imeType env .mozc (exportDictionary entries) =
      if entries = [] then .numImes else .mozc := by
  obtain _ | ⟨entry, entries⟩ := entries
  · rfl
  · have taken := takeLine_append (oneLine_exportLine (valid entry List.mem_cons_self))
      (exportDictionary entries)
    have next : StringTextLineIterator.next (exportDictionary (entry :: entries)) =
        some (exportLine entry, exportDictionary entries) := by
      simpa [StringTextLineIterator.next, exportDictionary] using taken
    have guessed : guessIMEType env (exportLine entry) ≠ .kotoeri :=
      guessIMEType_ne_kotoeri env (by simp [exportLine])
    simp [TextInputIterator.imeType, next, determineFinalIMEType, guessed]

/-- What is read from the line of an entry. -/
def Entry.raw (entry : Entry) : RawEntry :=
  ⟨entry.key, entry.value, getStringPosType entry.pos, entry.comment⟩

/-- The raw entries of an exported text: those whose lines are no comments. -/
theorem rawEntries_exportDictionary {entries : List Entry}
    (valid : ∀ entry ∈ entries, entry.Valid) :
    TextInputIterator.rawEntries .mozc (exportDictionary entries) =
      (entries.filter fun entry => ¬ BeginsWithHash entry).map Entry.raw := by
  have lines : StringTextLineIterator.lines (exportDictionary entries) =
      entries.map exportLine := by
    have oneLine : ∀ line ∈ entries.map exportLine, OneLine line := by
      intro line mem
      obtain ⟨entry, inside, rfl⟩ := List.mem_map.mp mem
      exact oneLine_exportLine (valid entry inside)
    simpa [exportDictionary, List.flatMap_map] using lines_flatMap oneLine
  have read : ∀ entry ∈ entries, TextInputIterator.readLine .mozc (exportLine entry) =
      if BeginsWithHash entry then none else some entry.raw :=
    fun entry mem => readLine_exportLine (valid entry mem)
  rw [TextInputIterator.rawEntries, lines, List.filterMap_map]
  clear lines valid
  induction entries with
  | nil => rfl
  | cons entry entries ih =>
      have rest := ih fun e mem => read e (List.mem_cons_of_mem _ mem)
      rw [List.filterMap_cons, List.filter_cons, rest, Function.comp_apply,
        read entry List.mem_cons_self]
      by_cases hash : BeginsWithHash entry
      · simp [hash]
      · simp [hash]

/-! ## The import -/

section Import

variable {env}

/-- An entry comes back as it was, apart from its locale. -/
theorem convertEntry_raw (inverts : env.InvertsPos) {entry : Entry}
    (valid : validateEntry entry = .ok ())
    (normalized : env.normalizeReading entry.key = entry.key) :
    ∃ converted, convertEntry env entry.raw = some converted ∧ converted.shown = entry.shown := by
  obtain ⟨⟨posType, locale⟩, found, rfl⟩ := Option.map_eq_some_iff.mp (inverts entry.pos)
  have posSet := (valid_of_validateEntry valid).posSet
  have stillValid : validateEntry { entry with locale } = .ok () := valid
  refine ⟨{ entry with locale }, ?_, rfl⟩
  simp only [convertEntry, Entry.raw, found, normalized]
  rw [← posSet, if_pos stillValid]

/-- Entries that are new, and not too many, are all added. -/
theorem importEntries_raw (inverts : env.InvertsPos) {entries : List Entry}
    (valid : ∀ entry ∈ entries, validateEntry entry = .ok ())
    (normalized : ∀ entry ∈ entries, env.normalizeReading entry.key = entry.key)
    (distinct : (entries.map (hashOf env)).Nodup) (before : List Entry)
    (existentEntries : List Nat) (fresh : ∀ entry ∈ entries, hashOf env entry ∉ existentEntries)
    (fits : before.length + entries.length ≤ kMaxEntrySize) :
    ∃ added, importEntries env (entries.map Entry.raw) before existentEntries (.ok ()) =
        ⟨before ++ added, .ok ()⟩ ∧ added.map Entry.shown = entries.map Entry.shown := by
  induction entries generalizing before existentEntries with
  | nil => exact ⟨[], by simp [importEntries], rfl⟩
  | cons entry entries ih =>
      obtain ⟨converted, convert, shown⟩ := convertEntry_raw inverts
        (valid entry List.mem_cons_self) (normalized entry List.mem_cons_self)
      have sameHash : hashOf env converted = hashOf env entry := by
        simp only [Entry.shown, Prod.mk.injEq] at shown
        simp only [hashOf, Entry.triple, shown]
      have new : hashOf env converted ∉ existentEntries := by
        rw [sameHash]
        exact fresh entry List.mem_cons_self
      have room : isDictionaryFull before = false := by
        simp only [List.length_cons] at fits
        simp only [isDictionaryFull, ge_iff_le, decide_eq_false_iff_not, not_le]
        omega
      have notEmpty : ¬ (entry.raw.key = [] ∧ entry.raw.value = [] ∧ entry.raw.comment = []) :=
        fun empty => (valid_of_validateEntry (valid entry List.mem_cons_self)).keyNonempty empty.1
      obtain ⟨notIn, distinctRest⟩ := List.nodup_cons.mp distinct
      obtain ⟨added, imported, sameShown⟩ := ih
        (fun e mem => valid e (List.mem_cons_of_mem _ mem))
        (fun e mem => normalized e (List.mem_cons_of_mem _ mem)) distinctRest
        (before ++ [converted]) (hashOf env converted :: existentEntries)
        (by
          intro e mem seen
          rcases List.mem_cons.mp seen with same | old
          · exact notIn (List.mem_map.mpr ⟨e, mem, same.trans sameHash⟩)
          · exact fresh e (List.mem_cons_of_mem _ mem) old)
        (by simpa [Nat.add_right_comm, Nat.add_assoc] using fits)
      refine ⟨converted :: added, ?_, ?_⟩
      · rw [List.map_cons, importEntries, if_neg (by simp [room]), if_neg notEmpty, convert]
        simp only [if_neg new, imported, List.append_assoc, List.singleton_append]
      · rw [List.map_cons, List.map_cons, shown, sameShown]

end Import

/-! ## The round trip -/

/-- An entry whose reading begins with `#` is missing from the import. -/
theorem length_imported {entries : List Entry} (valid : ∀ entry ∈ entries, entry.Valid) :
    (importFromTextLineIterator env .mozc (exportDictionary entries) []).entries.length ≤
      min (entries.filter fun entry => ¬ BeginsWithHash entry).length kMaxEntrySize := by
  unfold importFromTextLineIterator
  rw [imeType_exportDictionary env valid]
  by_cases empty : entries = []
  · simp [empty]
  · have bound := length_importEntries env
      ((entries.filter fun entry => ¬ BeginsWithHash entry).map Entry.raw) [] [] (.ok ())
      (Nat.zero_le _)
    simp only [if_neg empty, importFromIterator, rawEntries_exportDictionary valid, List.map_nil]
    simpa using bound

theorem importEntries_exportDictionary (inverts : env.InvertsPos) {entries : List Entry}
    (wellFormed : WellFormed env entries) (nonempty : entries ≠ [])
    (fits : entries.length ≤ kMaxEntrySize) (noHash : ∀ entry ∈ entries, ¬ BeginsWithHash entry) :
    RoundTrips env entries := by
  have valid : ∀ entry ∈ entries, entry.Valid :=
    fun entry mem => valid_of_validateEntry (wellFormed.valid entry mem)
  have all : (entries.filter fun entry => ¬ BeginsWithHash entry) = entries :=
    List.filter_eq_self.mpr fun entry mem => by simpa using noHash entry mem
  have distinct : (entries.map (hashOf env)).Nodup := by
    have triples := List.pairwise_map.mp wellFormed.distinct
    refine List.pairwise_map.mpr (List.Pairwise.imp_of_mem ?_ triples)
    intro entry other mem otherMem different same
    exact different (wellFormed.hashes entry mem other otherMem same)
  obtain ⟨added, imported, shown⟩ := importEntries_raw inverts wellFormed.valid
    wellFormed.normalized distinct [] [] (fun _ _ => List.not_mem_nil) (by simpa using fits)
  have result : importFromTextLineIterator env .mozc (exportDictionary entries) [] =
      ⟨added, .ok ()⟩ := by
    simp only [importFromTextLineIterator, imeType_exportDictionary env valid, if_neg nonempty,
      importFromIterator, rawEntries_exportDictionary valid, all, List.map_nil]
    simpa using imported
  unfold RoundTrips
  rw [result]
  exact ⟨rfl, shown⟩

/-- **An exported dictionary is imported as it was, exactly if it is not empty, not larger than a
dictionary may be, and none of its readings begins with `#`.** -/
theorem roundTrips_iff (inverts : env.InvertsPos) (entries : List Entry)
    (wellFormed : WellFormed env entries) :
    RoundTrips env entries ↔
      entries ≠ [] ∧ entries.length ≤ kMaxEntrySize ∧ ∀ entry ∈ entries, ¬ BeginsWithHash entry := by
  have valid : ∀ entry ∈ entries, entry.Valid :=
    fun entry mem => valid_of_validateEntry (wellFormed.valid entry mem)
  constructor
  · rintro ⟨succeeds, same⟩
    have lengths := congrArg List.length same
    rw [List.length_map, List.length_map] at lengths
    have bound := length_imported env valid
    rw [lengths, le_min_iff] at bound
    refine ⟨?_, bound.2, ?_⟩
    · rintro rfl
      cases succeeds
    · have all := List.length_filter_eq_length_iff.mp
        (Nat.le_antisymm (List.length_filter_le _ _) bound.1)
      intro entry mem
      simpa using all entry mem
  · rintro ⟨nonempty, fits, noHash⟩
    exact importEntries_exportDictionary env inverts wellFormed nonempty fits noHash

/-- Every part of speech. -/
def posTypes : List PosType :=
  [.noPos, .noun, .abbreviation, .suggestionOnly, .properNoun, .personalName, .familyName,
    .firstName, .organizationName, .placeName, .saIrregularConjugationNoun, .adjectiveVerbalNoun,
    .number, .alphabet, .symbol, .emoticon, .adverb, .prenounAdjectival, .conjunction,
    .interjection, .prefixPos, .counterSuffix, .genericSuffix, .personNameSuffix, .placeNameSuffix,
    .waGroup1Verb, .kaGroup1Verb, .saGroup1Verb, .taGroup1Verb, .naGroup1Verb, .maGroup1Verb,
    .raGroup1Verb, .gaGroup1Verb, .baGroup1Verb, .haGroup1Verb, .group2Verb, .kuruGroup3Verb,
    .suruGroup3Verb, .zuruGroup3Verb, .ruGroup3Verb, .adjective, .sentenceEndingParticle,
    .punctuation, .freeStandingWord, .suppressionWord]

/-- Readings and names that are normalized already, and only the names of the program itself. -/
def plainEnvironment : Environment where
  normalizeReading := id
  normalizePos := id
  posMap := fun name => (posTypes.find? fun posType => getStringPosType posType = name).map some
  hash := fun (key, value, _) => (key ++ value).foldl (fun hash c => 31 * hash + c.toNat) 0
  simpleAtoi := fun _ => 0

theorem invertsPos_plainEnvironment : plainEnvironment.InvertsPos := by
  intro posType
  cases posType <;> decide +kernel

/-- いぬ and ねこ. -/
def animals : List Entry :=
  [{ key := utf8 "いぬ".toList, value := utf8 "犬".toList, posType := some .noun },
    { key := utf8 "ねこ".toList, value := utf8 "猫".toList, comment := ascii "cat",
      posType := some .noun }]

theorem roundTrips_animals : RoundTrips plainEnvironment animals :=
  (roundTrips_iff plainEnvironment invertsPos_plainEnvironment animals
    ⟨by decide +kernel, by decide +kernel, by decide +kernel, by decide +kernel⟩).mpr ⟨by decide +kernel, by decide +kernel, by decide +kernel⟩

/-- The reading `#1`, of a word that is written with a circle. -/
def hashReading : Entry :=
  { key := ascii "#1", value := utf8 "①".toList, posType := some .symbol }

theorem not_roundTrips_hashReading :
    plainEnvironment.InvertsPos ∧ WellFormed plainEnvironment [hashReading] ∧
      ¬ RoundTrips plainEnvironment [hashReading] := by
  have wellFormed : WellFormed plainEnvironment [hashReading] :=
    ⟨by decide +kernel, by decide +kernel, by decide +kernel, by decide +kernel⟩
  refine ⟨invertsPos_plainEnvironment, wellFormed, ?_⟩
  rintro ⟨-, same⟩
  have valid : ∀ entry ∈ [hashReading], entry.Valid :=
    fun entry mem => valid_of_validateEntry (wellFormed.valid entry mem)
  have bound := length_imported plainEnvironment valid
  have lengths := congrArg List.length same
  rw [List.length_map, List.length_map] at lengths
  rw [lengths] at bound
  exact absurd bound (by decide)

end Mozkey.UserDictionary
