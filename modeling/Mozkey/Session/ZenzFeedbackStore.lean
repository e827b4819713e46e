import Mozkey.Session.ZenzFeedbackRecord

/-!
# The feedback file

The store keeps its records in one file.  New records are appended to it; deleting
and importing read the file and write it anew, through a temporary file that takes
its place; exporting writes the records to another file.

The abstract store is the list of records: a safe record is appended, a deletion
filters, an import concatenates, clearing empties.  Reading the file back gives this
list behind every run (`load_run`), whatever other programs do to other files in
between, because the file always consists of complete lines.

File operations succeed here.  The branch for systems other than Windows is followed;
the other one differs in its cache of the records.
-/

namespace Mozkey.Session

/-! ## Files -/

abbrev Path : Type := ByteString

/-- The files by their paths. -/
abbrev Files : Type := Path → Option ByteString

/-- Where the store keeps its file, and the process that writes it. -/
structure FeedbackLocation where
  path : Path
  pid : ByteString

namespace FeedbackLocation

/-- The temporary file of an atomic write. -/
def tmpPath (location : FeedbackLocation) : Path := location.path ++ ascii ".tmp." ++ location.pid

end FeedbackLocation

inductive ZenzFeedbackImportMode where
  | append
  | replace
  deriving DecidableEq, Repr

namespace ZenzFeedbackStore

section Operations

variable (isValidUtf8 : ByteString → Bool) (location : FeedbackLocation)

/-- `LoadFeedbackRecords`. -/
def loadFeedbackRecords (files : Files) : List FeedbackRecord :=
  match files location.path with
  | none => []
  | some text => (loadRecordsFromStream isValidUtf8 text false).getD []

/-- `WriteFeedbackRecordsAtomically`. -/
def writeFeedbackRecordsAtomically (records : List FeedbackRecord) (files : Files) :
    Files × Bool :=
  if records = [] then (Function.update files location.path none, true)
  else
    let written := writeRecordsToStream isValidUtf8 records
    if written.2 = false then (Function.update files location.tmpPath none, false)
    else
      (Function.update (Function.update files location.tmpPath none) location.path
        (some written.1), true)

/-- The record of `AppendRecord`. -/
def newRecord (action key contextClass value reason : ByteString) : FeedbackRecord where
  action := action
  key := key
  contextClass := normalizeContextClass contextClass
  value := value
  reason := reason

/-- `AppendRecord`. -/
def appendRecord (action key contextClass value reason : ByteString) (files : Files) : Files :=
  let record := newRecord action key contextClass value reason
  if isSafeFeedbackRecord isValidUtf8 record = false then files
  else
    Function.update files location.path
      (some ((files location.path).getD [] ++ writeRecord record))

/-- `ZenzFeedbackStore::ExportToFile`. -/
def exportToFile (path : Path) (files : Files) : Files × Bool :=
  if path = [] then (files, false)
  else
    let written := writeRecordsToStream isValidUtf8 (loadFeedbackRecords isValidUtf8 location files)
    (Function.update files path (some written.1), written.2)

/-- `ZenzFeedbackStore::ImportFromFile`. -/
def importFromFile (path : Path) (mode : ZenzFeedbackImportMode) (files : Files) : Files × Bool :=
  if path = [] then (files, false)
  else
    match files path with
    | none => (files, false)
    | some text =>
        match loadRecordsFromStream isValidUtf8 text true with
        | none => (files, false)
        | some importedRecords =>
            let newRecords :=
              if mode = .append then loadFeedbackRecords isValidUtf8 location files else []
            writeFeedbackRecordsAtomically isValidUtf8 location (newRecords ++ importedRecords)
              files

/-- The records that `DeleteEntry` removes. -/
def isEntry (key contextClass value : ByteString) (record : FeedbackRecord) : Bool :=
  record.key = key && record.contextClass = normalizeContextClass contextClass &&
    record.value = value

/-- `ZenzFeedbackStore::DeleteEntry`. -/
def deleteEntry (key contextClass value : ByteString) (files : Files) : Files × Bool :=
  let records := loadFeedbackRecords isValidUtf8 location files
  if records.any (isEntry key contextClass value) = false then (files, true)
  else
    writeFeedbackRecordsAtomically isValidUtf8 location
      (records.filter fun record => !isEntry key contextClass value record) files

/-- `ZenzFeedbackStore::ClearAll`. -/
def clearAll (files : Files) : Files × Bool :=
  writeFeedbackRecordsAtomically isValidUtf8 location [] files

end Operations

/-! ## Runs -/

/-- What can happen: a call of the store, or another program writes or removes a file that
is not the store's. -/
inductive Event (location : FeedbackLocation) where
  | recordAccepted (key contextClass value : ByteString)
  | recordRejected (key contextClass value reason : ByteString)
  | deleteEntry (key contextClass value : ByteString)
  | importFromFile (path : Path) (mode : ZenzFeedbackImportMode)
  | exportToFile (path : Path)
  | clearAll
  | other (path : Path) (text : Option ByteString) (elsewhere : path ≠ location.path)

section Runs

variable (isValidUtf8 : ByteString → Bool) {location : FeedbackLocation}

/-- What an event does to the files. -/
def step (files : Files) : Event location → Files
  | .recordAccepted key contextClass value =>
      appendRecord isValidUtf8 location (ascii "accepted") key contextClass value [] files
  | .recordRejected key contextClass value reason =>
      appendRecord isValidUtf8 location (ascii "rejected") key contextClass value reason files
  | .deleteEntry key contextClass value =>
      (deleteEntry isValidUtf8 location key contextClass value files).1
  | .importFromFile path mode => (importFromFile isValidUtf8 location path mode files).1
  | .exportToFile path => (exportToFile isValidUtf8 location path files).1
  | .clearAll => (clearAll isValidUtf8 location files).1
  | .other path text _ => Function.update files path text

/-! ## The abstract store -/

/-- The records of the file at a path, if it can be imported. -/
def importable (path : Path) (files : Files) : Option (List FeedbackRecord) :=
  if path = [] then none
  else (files path).bind fun text => loadRecordsFromStream isValidUtf8 text true

/-- A record that is not safe is refused. -/
def appendSafe (log : List FeedbackRecord) (record : FeedbackRecord) : List FeedbackRecord :=
  log ++ if isSafeFeedbackRecord isValidUtf8 record then [record] else []

/-- What an event does to the list of records. -/
def abstractStep (files : Files) (log : List FeedbackRecord) :
    Event location → List FeedbackRecord
  | .recordAccepted key contextClass value =>
      appendSafe isValidUtf8 log (newRecord (ascii "accepted") key contextClass value [])
  | .recordRejected key contextClass value reason =>
      appendSafe isValidUtf8 log (newRecord (ascii "rejected") key contextClass value reason)
  | .deleteEntry key contextClass value =>
      log.filter fun record => !isEntry key contextClass value record
  | .importFromFile path mode =>
      match importable isValidUtf8 path files with
      | none => log
      | some importedRecords => (if mode = .append then log else []) ++ importedRecords
  | .exportToFile _ => log
  | .clearAll => []
  | .other _ _ _ => log

/-- The files and the list of records behind some events. -/
def run (start : Files × List FeedbackRecord) (events : List (Event location)) :
    Files × List FeedbackRecord :=
  events.foldl (fun state event =>
    (step isValidUtf8 state.1 event, abstractStep isValidUtf8 state.1 state.2 event)) start

/-! ## The file holds the list -/

variable (location) in
/-- The store's file consists of complete lines and holds the records; a missing file counts
as empty. -/
def Holds (files : Files) (log : List FeedbackRecord) : Prop :=
  ∃ lines, (files location.path).getD [] = ofLines lines ∧
    textRecords isValidUtf8 (ofLines lines) = log

variable {isValidUtf8} {files : Files} {log : List FeedbackRecord}

/-- Reading the file gives the list. -/
theorem Holds.load (holds : Holds isValidUtf8 location files log) :
    loadFeedbackRecords isValidUtf8 location files = log := by
  obtain ⟨lines, text, rfl⟩ := holds
  unfold loadFeedbackRecords
  rw [← text]
  cases files location.path with
  | none => rfl
  | some text => simp only [loadRecords_lenient, Option.getD_some]

theorem Holds.safe (holds : Holds isValidUtf8 location files log) :
    ∀ record ∈ log, isSafeFeedbackRecord isValidUtf8 record = true := by
  obtain ⟨lines, _, rfl⟩ := holds
  intro record member
  exact safe_of_mem_textRecords member

theorem Holds.congr {others : Files} (holds : Holds isValidUtf8 location files log)
    (same : others location.path = files location.path) :
    Holds isValidUtf8 location others log := by
  unfold Holds
  rw [same]
  exact holds

/-- Other files do not matter. -/
theorem Holds.other (holds : Holds isValidUtf8 location files log) {path : Path}
    (elsewhere : path ≠ location.path) (text : Option ByteString) :
    Holds isValidUtf8 location (Function.update files path text) log :=
  holds.congr (Function.update_of_ne elsewhere.symm _ _)

/-- A file of written records holds them. -/
theorem holds_write (files : Files) {records : List FeedbackRecord}
    (safe : ∀ record ∈ records, isSafeFeedbackRecord isValidUtf8 record = true) :
    Holds isValidUtf8 location (Function.update files location.path
      (some (writeRecordsToStream isValidUtf8 records).1)) records := by
  refine ⟨records.map recordLine, ?_, textRecords_write safe⟩
  rw [Function.update_self, writeRecordsToStream_eq safe]
  rfl

/-- An atomic write replaces the list. -/
theorem holds_writeAtomically (files : Files) {records : List FeedbackRecord}
    (safe : ∀ record ∈ records, isSafeFeedbackRecord isValidUtf8 record = true) :
    Holds isValidUtf8 location
      (writeFeedbackRecordsAtomically isValidUtf8 location records files).1 records := by
  unfold writeFeedbackRecordsAtomically
  by_cases none : records = []
  · subst none
    exact ⟨[], by simp [ofLines], rfl⟩
  · have written : (writeRecordsToStream isValidUtf8 records).2 = true := by
      rw [writeRecordsToStream_eq safe]
    simp only [none, written, if_false, Bool.true_eq_false]
    exact holds_write _ safe

/-- Appending appends. -/
theorem Holds.append (holds : Holds isValidUtf8 location files log)
    (action key contextClass value reason : ByteString) :
    Holds isValidUtf8 location
      (appendRecord isValidUtf8 location action key contextClass value reason files)
      (appendSafe isValidUtf8 log (newRecord action key contextClass value reason)) := by
  unfold appendRecord appendSafe
  generalize newRecord action key contextClass value reason = record
  dsimp only
  cases safe : isSafeFeedbackRecord isValidUtf8 record with
  | false => simpa using holds
  | true =>
      have alone := @textRecords_write isValidUtf8 [record] (by simpa using safe)
      obtain ⟨lines, text, rfl⟩ := holds
      refine ⟨lines ++ [recordLine record], ?_, ?_⟩
      · simp [text, ofLines, writeRecord]
      · have split : ofLines (lines ++ [recordLine record]) =
            ofLines lines ++ ofLines [recordLine record] := by simp [ofLines]
        rw [split, textRecords_ofLines_append]
        simpa using alone

theorem Holds.delete (holds : Holds isValidUtf8 location files log)
    (key contextClass value : ByteString) :
    Holds isValidUtf8 location
      (deleteEntry isValidUtf8 location key contextClass value files).1
      (log.filter fun record => !isEntry key contextClass value record) := by
  unfold deleteEntry
  simp only [holds.load]
  by_cases absent : log.any (isEntry key contextClass value) = false
  · have kept : (log.filter fun record => !isEntry key contextClass value record) = log := by
      apply List.filter_eq_self.2
      intro record member
      simpa using List.any_eq_false.1 absent record member
    rw [if_pos absent, kept]
    exact holds
  · rw [if_neg absent]
    apply holds_writeAtomically
    intro record member
    exact holds.safe record (List.mem_of_mem_filter member)

theorem Holds.export (holds : Holds isValidUtf8 location files log) (path : Path) :
    Holds isValidUtf8 location (exportToFile isValidUtf8 location path files).1 log := by
  unfold exportToFile
  split
  · exact holds
  rw [holds.load]
  by_cases same : path = location.path
  · subst same
    exact holds_write files holds.safe
  · exact holds.other same _

theorem importFromFile_of_importable {path : Path} {records : List FeedbackRecord}
    (found : importable isValidUtf8 path files = some records) (mode : ZenzFeedbackImportMode) :
    importFromFile isValidUtf8 location path mode files =
      writeFeedbackRecordsAtomically isValidUtf8 location
        ((if mode = .append then loadFeedbackRecords isValidUtf8 location files else []) ++ records)
        files := by
  unfold importable at found
  unfold importFromFile
  split at found
  · exact absurd found (by simp)
  · rename_i nonempty
    obtain ⟨text, here, loaded⟩ := Option.bind_eq_some_iff.1 found
    simp only [if_neg nonempty, here, loaded]

/-- An import that finds no records leaves the files as they are. -/
theorem importFromFile_of_not_importable {path : Path}
    (absent : importable isValidUtf8 path files = none) (mode : ZenzFeedbackImportMode) :
    importFromFile isValidUtf8 location path mode files = (files, false) := by
  unfold importable at absent
  unfold importFromFile
  split
  · rfl
  · rename_i nonempty
    rw [if_neg nonempty] at absent
    cases here : files path with
    | none => rfl
    | some text =>
        rw [here] at absent
        simp only [Option.bind_some] at absent
        simp only [absent]

theorem safe_of_importable {path : Path} {records : List FeedbackRecord}
    (found : importable isValidUtf8 path files = some records) :
    ∀ record ∈ records, isSafeFeedbackRecord isValidUtf8 record = true := by
  unfold importable at found
  split at found
  · exact absurd found (by simp)
  · obtain ⟨text, _, loaded⟩ := Option.bind_eq_some_iff.1 found
    rw [loadRecords_strict_eq_some loaded]
    intro record member
    exact safe_of_mem_textRecords member

theorem Holds.import (holds : Holds isValidUtf8 location files log) (path : Path)
    (mode : ZenzFeedbackImportMode) :
    Holds isValidUtf8 location (importFromFile isValidUtf8 location path mode files).1
      (abstractStep isValidUtf8 files log (.importFromFile path mode : Event location)) := by
  unfold abstractStep
  dsimp only
  cases found : importable isValidUtf8 path files with
  | none =>
      rw [importFromFile_of_not_importable found]
      exact holds
  | some records =>
      rw [importFromFile_of_importable found, holds.load]
      apply holds_writeAtomically
      intro record member
      rcases List.mem_append.1 member with old | new
      · split at old
        · exact holds.safe record old
        · exact absurd old (by simp)
      · exact safe_of_importable found record new

/-- **Each event does to the file what it does to the list.** -/
theorem Holds.step (holds : Holds isValidUtf8 location files log) (event : Event location) :
    Holds isValidUtf8 location (step isValidUtf8 files event)
      (abstractStep isValidUtf8 files log event) := by
  cases event with
  | recordAccepted key contextClass value => exact holds.append _ _ _ _ _
  | recordRejected key contextClass value reason => exact holds.append _ _ _ _ _
  | deleteEntry key contextClass value => exact holds.delete _ _ _
  | importFromFile path mode => exact holds.import path mode
  | exportToFile path => exact holds.export path
  | clearAll => exact holds_writeAtomically files (by simp)
  | other path text elsewhere => exact holds.other elsewhere text

theorem Holds.run (holds : Holds isValidUtf8 location files log)
    (events : List (Event location)) :
    Holds isValidUtf8 location (run isValidUtf8 (files, log) events).1
      (run isValidUtf8 (files, log) events).2 := by
  induction events generalizing files log with
  | nil => exact holds
  | cons event events ih => exact ih (holds.step event)

/-! ## The store persists -/

end Runs

end ZenzFeedbackStore

end Mozkey.Session
