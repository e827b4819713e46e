import Mozkey.Dictionary.UserDictionaryStorage
import Mozkey.Lib.Run

/-!
# Importing user dictionaries in the background

Each import pushes its data to a queue, and then schedules a task unless one is running.  The task
goes over the queue: it loads the file, applies the imports that are queued, and saves the file.
Another process may edit the same file, which it locks meanwhile.

Each party has a place where it stands, and the place determines its next step.  A run is a sequence
of actions: a new import is called, a call of an import makes its next step, the task or the other
process does, or the other process changes what it has loaded.  A party that has to wait, or has
nothing to do, makes a step that changes nothing.

How a text is imported, and how ids are drawn, are parameters.  The task is never cancelled here.
-/

namespace Mozkey.Dictionary

variable {Entry : Type}

/-- `AsyncUserDictionaryImporter::ImportData`. -/
structure ImportData where
  name : ByteString
  data : ByteString
  deriving DecidableEq, Repr

/-! ## One import -/

section Import

variable (importText : ByteString → List Entry) (newId : UserDictionaryStorage.IdSource Entry)

/-- `GetUserDictionary` of the importer: the id of the dictionary with a name, which is created if
there is none. -/
def getUserDictionary (storage : UserDictionaryStorage Entry) (dicName : ByteString) :
    Option (Nat × UserDictionaryStorage Entry) :=
  match storage.getUserDictionaryId dicName with
  | some id => some (id, storage)
  | none =>
      match storage.createDictionary newId dicName with
      | .ok created => some created
      | .error _ => none

/-- The body of the inner loop of `StartImportLoop`. -/
def applyImport (importData : ImportData) (storage : UserDictionaryStorage Entry) :
    UserDictionaryStorage Entry :=
  match getUserDictionary newId storage importData.name with
  | none => storage
  | some (id, storage) =>
      let cleared := storage.setUserDictionary id []
      if importData.data = [] then cleared.deleteDictionary id
      else cleared.setUserDictionary id (importText importData.data)

theorem getUserDictionary_some {storage found : UserDictionaryStorage Entry} {dicName : ByteString}
    {id : Nat} (some_ : getUserDictionary newId storage dicName = some (id, found)) :
    found.getUserDictionaryId dicName = some id ∧
      ∀ n, n ≠ dicName → found.lookup n = storage.lookup n := by
  rw [getUserDictionary] at some_
  split at some_
  · rename_i isThere
    cases some_
    exact ⟨isThere, fun _ _ => rfl⟩
  · split at some_
    · rename_i created ok
      cases some_
      obtain ⟨isThere, looked⟩ := UserDictionaryStorage.createDictionary_ok ok
      refine ⟨isThere, fun n different => ?_⟩
      rw [looked, if_neg different]
    · cases some_

theorem getUserDictionaryId_setUserDictionary {storage : UserDictionaryStorage Entry} {id : Nat}
    {dicName : ByteString} (found : storage.getUserDictionaryId dicName = some id)
    (entries : List Entry) :
    (storage.setUserDictionary id entries).getUserDictionaryId dicName = some id := by
  obtain ⟨dictionary, member, isName, isId⟩ :=
    UserDictionaryStorage.getUserDictionaryId_eq_some_iff.1 found
  refine UserDictionaryStorage.getUserDictionaryId_eq_some_iff.2
    ⟨{ dictionary with entries := entries }, ?_, isName, isId⟩
  exact (UserDictionaryStorage.mem_setEntries storage.ids).2 (.inr ⟨dictionary, member, isId, rfl⟩)

/-- **An import** leaves all other dictionaries alone. -/
theorem lookup_applyImport_of_ne (importData : ImportData) (storage : UserDictionaryStorage Entry)
    {n : ByteString} (different : n ≠ importData.name) :
    (applyImport importText newId importData storage).lookup n = storage.lookup n := by
  rw [applyImport]
  split
  · rfl
  · rename_i id found some_
    obtain ⟨isThere, same⟩ := getUserDictionary_some newId some_
    have cleared := getUserDictionaryId_setUserDictionary isThere []
    dsimp only
    split
    · rw [UserDictionaryStorage.lookup_deleteDictionary cleared, if_neg different,
        UserDictionaryStorage.lookup_setUserDictionary isThere, if_neg different, same n different]
    · rw [UserDictionaryStorage.lookup_setUserDictionary cleared, if_neg different,
        UserDictionaryStorage.lookup_setUserDictionary isThere, if_neg different, same n different]

/-- **The result of an import**: the dictionary holds what the text says, and is deleted if there is
no text. -/
theorem lookup_applyImport (importData : ImportData) (storage : UserDictionaryStorage Entry)
    {found : Nat × UserDictionaryStorage Entry}
    (some_ : getUserDictionary newId storage importData.name = some found) :
    (applyImport importText newId importData storage).lookup importData.name =
      if importData.data = [] then none else some (importText importData.data) := by
  obtain ⟨id, found⟩ := found
  have isThere := (getUserDictionary_some newId some_).1
  have cleared := getUserDictionaryId_setUserDictionary isThere []
  rw [applyImport, some_]
  dsimp only
  split
  · rw [UserDictionaryStorage.lookup_deleteDictionary cleared, if_pos rfl]
  · rw [UserDictionaryStorage.lookup_setUserDictionary cleared, if_pos rfl]

end Import

/-! ## Where the parties stand -/

/-- A call of `Import`, at its next step. -/
inductive ImportCall
  /-- the data is to be pushed to the queue -/
  | push (importData : ImportData)
  /-- `task_.IsRunning()` is to be tested -/
  | isRunning
  /-- `Schedule` is to be called -/
  | schedule
  /-- within `Schedule`, with the mutex of the task manager -/
  | wait
  | returned
  deriving DecidableEq, Repr

/-- A round of the loop: what was loaded, and what has become of it. -/
structure ImportRound (Entry : Type) where
  loaded : UserDictionaryStorage Entry
  storage : UserDictionaryStorage Entry

/-- `StartImportLoop`, at its next step. -/
inductive ImportLoop (Entry : Type)
  | hasPendingImportData
  | load
  | popPendingImportData (round : ImportRound Entry)
  | process (round : ImportRound Entry) (importData : ImportData)
  | lock (round : ImportRound Entry)
  | save (round : ImportRound Entry) (locked : Bool)
  | unLock (locked : Bool)
  /-- the loop is left, and the task has not ended yet -/
  | leave

/-- Another process that edits the file, at its next step. -/
inductive FileEditor (Entry : Type)
  | lock
  | load
  | save (loaded edited : UserDictionaryStorage Entry)
  | unLock

/-- Who may hold the lock of the file. -/
inductive LockHolder
  | importer
  | editor
  deriving DecidableEq, Repr

structure ImportSystem (Entry : Type) where
  queue : List ImportData := []
  calls : List ImportCall := []
  task : Option (ImportLoop Entry) := none
  file : UserDictionaryStorage Entry
  lock : Option LockHolder := none
  editor : FileEditor Entry := .lock

/-! ## Steps -/

/-- What happens next. -/
inductive ImportAction (Entry : Type)
  | import_ (importData : ImportData)
  | call (index : Nat)
  | task
  | editor
  | change (edited : UserDictionaryStorage Entry)

namespace ImportSystem

variable (importText : ByteString → List Entry) (newId : UserDictionaryStorage.IdSource Entry)
variable (system : ImportSystem Entry)

/-- A call of `Import` moves to its next step. -/
def moveCall (index : Nat) (call : ImportCall) : ImportSystem Entry :=
  { system with calls := system.calls.set index call }

/-- The next step of a call of `Import`.  `IsRunning` and `Schedule` exclude each other. -/
def stepCall (index : Nat) : ImportSystem Entry :=
  match system.calls[index]? with
  | some (.push importData) =>
      { system.moveCall index .isRunning with queue := system.queue ++ [importData] }
  | some .isRunning =>
      if .wait ∈ system.calls then system
      else if system.task.isSome then system.moveCall index .returned
      else system.moveCall index .schedule
  | some .schedule =>
      if .wait ∈ system.calls then system else system.moveCall index .wait
  | some .wait =>
      if system.task.isSome then system
      else { system.moveCall index .returned with task := some .hasPendingImportData }
  | some .returned => system
  | none => system

/-- The next step of `StartImportLoop`. -/
def stepTask : ImportSystem Entry :=
  match system.task with
  | none => system
  | some .hasPendingImportData =>
      { system with task := some (if system.queue = [] then .leave else .load) }
  | some .load => { system with task := some (.popPendingImportData ⟨system.file, system.file⟩) }
  | some (.popPendingImportData round) =>
      match system.queue with
      | [] => { system with task := some (.lock round) }
      | importData :: queue =>
          { system with queue := queue, task := some (.process round importData) }
  | some (.process round importData) =>
      let round : ImportRound Entry :=
        { round with storage := applyImport importText newId importData round.storage }
      { system with task := some (.popPendingImportData round) }
  | some (.lock round) =>
      if system.lock = none then
        { system with lock := some .importer, task := some (.save round true) }
      else { system with task := some (.save round false) }
  | some (.save round locked) =>
      { system with
        file := if locked then round.storage else system.file
        task := some (.unLock locked) }
  | some (.unLock locked) =>
      { system with
        lock := if locked then none else system.lock
        task := some .hasPendingImportData }
  | some .leave => { system with task := none }

/-- The next step of the other process, which waits for the lock. -/
def stepEditor : ImportSystem Entry :=
  match system.editor with
  | .lock =>
      if system.lock = none then { system with lock := some .editor, editor := .load } else system
  | .load => { system with editor := .save system.file system.file }
  | .save _ edited => { system with file := edited, editor := .unLock }
  | .unLock => { system with lock := none, editor := .lock }

/-- The other process changes what it has loaded. -/
def changeEdited (edited : UserDictionaryStorage Entry) : ImportSystem Entry :=
  match system.editor with
  | .save loaded _ => { system with editor := .save loaded edited }
  | _ => system

def step : ImportAction Entry → ImportSystem Entry
  | .import_ importData =>
      -- A call without a name returns at once.
      { system with
        calls := system.calls ++ [if importData.name = [] then .returned else .push importData] }
  | .call index => system.stepCall index
  | .task => system.stepTask importText newId
  | .editor => system.stepEditor
  | .change edited => system.changeEdited edited

/-- The system after a sequence of actions. -/
def run (actions : List (ImportAction Entry)) : ImportSystem Entry :=
  actions.foldl (step importText newId) system

end ImportSystem

end Mozkey.Dictionary
