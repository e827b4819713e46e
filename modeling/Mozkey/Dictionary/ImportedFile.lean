import Mozkey.Dictionary.UserDictionaryImporter

/-!
# The file that imports and another process write

What the file ought to hold is kept beside the system: a dictionary gets what the other process has
made of it where that process changed it, and what the text of an import says where an import named
it, once the round of that import is saved.

The import loop loads the file before it takes the lock, so that it may write back dictionaries that
the other process has changed meanwhile.  `fileKept` says that the file holds what it ought to as
long as this does not happen.
-/

namespace Mozkey.Dictionary

open Mozkey.Lib

variable {Entry : Type} [DecidableEq Entry]

/-- What dictionaries ought to hold; none stands for a dictionary that ought not to be there. -/
abbrev Contents (Entry : Type) := ByteString → Option (List Entry)

/-- A system, the imports of its round with what they ought to make of their dictionaries, the last
one first, and what its file ought to hold. -/
structure WatchedFile (Entry : Type) where
  system : ImportSystem Entry
  results : List (ByteString × Option (List Entry))
  intended : Contents Entry

namespace WatchedFile

/-- The other process writes what it has changed. -/
def edited (intended : Contents Entry) (loaded saved : UserDictionaryStorage Entry) :
    Contents Entry :=
  fun name => if saved.lookup name = loaded.lookup name then intended name else saved.lookup name

/-- The last import of a dictionary decides. -/
def overlay (results : List (ByteString × Option (List Entry))) (contents : Contents Entry) :
    Contents Entry :=
  fun name => (results.lookup name).getD (contents name)

/-- What an action writes to the file. -/
def written (watched : WatchedFile Entry) : ImportAction Entry → Contents Entry
  | .task =>
      match watched.system.task with
      | some (.save _ _) => overlay watched.results watched.intended
      | _ => watched.intended
  | .editor =>
      match watched.system.editor with
      | .save loaded saved => edited watched.intended loaded saved
      | _ => watched.intended
  | _ => watched.intended

variable (importText : ByteString → List Entry) (newId : UserDictionaryStorage.IdSource Entry)

/-- The result of an import is what its text says; without a text the dictionary is deleted. -/
def importResult (importData : ImportData) : Option (List Entry) :=
  if importData.data = [] then none else some (importText importData.data)

/-- The imports of the round behind an action.  One whose dictionary is not there and cannot be
made has no result. -/
def recorded (watched : WatchedFile Entry) :
    ImportAction Entry → List (ByteString × Option (List Entry))
  | .task =>
      match watched.system.task with
      | some .load => []
      | some (.process round importData) =>
          if (getUserDictionary newId round.storage importData.name).isSome then
            (importData.name, importResult importText importData) :: watched.results
          else watched.results
      | _ => watched.results
  | _ => watched.results

def step (watched : WatchedFile Entry) (action : ImportAction Entry) : WatchedFile Entry :=
  ⟨watched.system.step importText newId action, watched.recorded importText newId action,
    watched.written action⟩

/-- A system at its start, with a file that holds what it ought to. -/
def start (file : UserDictionaryStorage Entry) : WatchedFile Entry :=
  ⟨{ file := file }, [], file.lookup⟩

/-- **The file holds what it ought to.** -/
def FileKept (watched : WatchedFile Entry) : Prop :=
  ∀ name, watched.system.file.lookup name = watched.intended name

/-- The import loop asks for the lock next. -/
def locking (system : ImportSystem Entry) : Bool :=
  match system.task with
  | some (.lock _) => true
  | _ => false

/-- The round that the import loop saves next. -/
def saving (system : ImportSystem Entry) : Option (ImportRound Entry) :=
  match system.task with
  | some (.save round _) => some round
  | _ => none

/-- The import loop gets the lock of the file when it asks for it. -/
def Succeeds (watched : WatchedFile Entry) : ImportAction Entry → Prop
  | .task => locking watched.system = true → watched.system.lock = none
  | _ => True

/-- When the import loop saves, the file still holds what was loaded, apart from the dictionaries
that have a result of this round. -/
def UpToDate (watched : WatchedFile Entry) : ImportAction Entry → Prop
  | .task => ∀ round ∈ saving watched.system, ∀ name, watched.results.lookup name = none →
      watched.system.file.lookup name = round.loaded.lookup name
  | _ => True

/-! ## Invariants -/

/-- The round of the import loop. -/
def round? (system : ImportSystem Entry) : Option (ImportRound Entry) :=
  match system.task with
  | some (.popPendingImportData round) => some round
  | some (.process round _) => some round
  | some (.lock round) => some round
  | some (.save round _) => some round
  | _ => none

/-- Who holds the lock: the import loop while it saves, and the other process all the time that it
edits; it has loaded what the file holds. -/
structure Orderly (system : ImportSystem Entry) : Prop where
  importer : ∀ round locked, system.task = some (.save round locked) →
    locked = true ∧ system.lock = some .importer
  unlocking : ∀ locked, system.task = some (.unLock locked) →
    locked = true ∧ system.lock = some .importer
  editor : system.editor ≠ .lock → system.lock = some .editor
  loaded : ∀ loaded saved, system.editor = .save loaded saved → loaded = system.file

/-- A round has made of what was loaded what its imports ought to make of it. -/
def Applied (watched : WatchedFile Entry) : Prop :=
  ∀ round, round? watched.system = some round →
    ∀ name, round.storage.lookup name = overlay watched.results round.loaded.lookup name

section Steps

variable {importText newId} {watched : WatchedFile Entry}

omit [DecidableEq Entry] in
/-- The other process stands where it waits for the lock, while the import loop has it. -/
theorem Orderly.editor_waits {system : ImportSystem Entry} (orderly : Orderly system)
    (held : system.lock = some .importer) : system.editor = .lock := by
  by_contra edits
  have other := orderly.editor edits
  rw [held] at other
  cases other

omit [DecidableEq Entry] in
theorem orderly_stepTask (orderly : Orderly watched.system) (succeeds : watched.Succeeds .task) :
    Orderly (watched.system.stepTask importText newId) := by
  have stays : ∀ {task : Option (ImportLoop Entry)} {queue : List ImportData},
      (∀ round locked, task ≠ some (.save round locked)) → (∀ locked, task ≠ some (.unLock locked)) →
      Orderly { watched.system with queue := queue, task := task } := by
    intro task queue noSave noUnLock
    exact ⟨fun round locked there => absurd there (noSave round locked),
      fun locked there => absurd there (noUnLock locked), orderly.editor, orderly.loaded⟩
  rw [ImportSystem.stepTask]
  split
  · exact orderly
  · exact stays (by intros; split <;> simp) (by intros; split <;> simp)
  · exact stays (by simp) (by simp)
  · split
    · exact stays (by simp) (by simp)
    · exact stays (by simp) (by simp)
  · exact stays (by simp) (by simp)
  · rename_i round here
    have free : watched.system.lock = none := succeeds (by rw [locking, here])
    have waits : watched.system.editor = .lock := by
      by_contra edits
      cases free.symm.trans (orderly.editor edits)
    rw [if_pos free]
    refine ⟨fun _ _ there => ?_, fun _ there => (by cases there), fun edits => absurd waits edits,
      orderly.loaded⟩
    cases there
    exact ⟨rfl, rfl⟩
  · rename_i round locked here
    obtain ⟨rfl, held⟩ := orderly.importer round locked here
    have waits := orderly.editor_waits held
    refine ⟨fun _ _ there => (by cases there), fun _ there => ?_, orderly.editor, fun _ _ there => ?_⟩
    · cases there
      exact ⟨rfl, held⟩
    · cases waits.symm.trans there
  · rename_i locked here
    obtain ⟨rfl, held⟩ := orderly.unlocking locked here
    have waits := orderly.editor_waits held
    exact ⟨fun _ _ there => (by cases there), fun _ there => (by cases there),
      fun edits => absurd waits edits, orderly.loaded⟩
  · exact stays (by simp) (by simp)

/-- A round begins with what was loaded, and each import adds its result. -/
theorem applied_stepTask (applied : Applied watched) :
    Applied (watched.step importText newId .task) := by
  intro next there
  change round? (watched.system.stepTask importText newId) = some next at there
  change ∀ name, next.storage.lookup name
    = overlay (watched.recorded importText newId .task) next.loaded.lookup name
  rw [ImportSystem.stepTask] at there
  rw [recorded]
  cases here : watched.system.task with
  | none =>
      rw [here] at there
      exact applied next there
  | some place =>
      rw [here] at there
      have goesOn (round : ImportRound Entry) (isRound : round? watched.system = some round) :=
        applied round isRound
      rw [round?, here] at goesOn
      cases place with
      | hasPendingImportData =>
          dsimp only at there
          split at there <;> cases there
      | load =>
          cases there
          exact fun _ => rfl
      | popPendingImportData round =>
          dsimp only at there
          split at there
          · cases there
            exact goesOn _ rfl
          · cases there
            exact goesOn _ rfl
      | process round importData =>
          cases there
          intro name
          have before := goesOn round rfl
          dsimp only
          cases made : getUserDictionary newId round.storage importData.name with
          | none =>
              rw [applyImport, made]
              exact before name
          | some found =>
              rw [Option.isSome_some, if_pos rfl, overlay, List.lookup_cons]
              by_cases same : name = importData.name
              · rw [same, beq_self_eq_true, lookup_applyImport importText newId _ _ made]
                rfl
              · rw [beq_false_of_ne same, lookup_applyImport_of_ne importText newId _ _ same]
                exact before name
      | lock round =>
          dsimp only at there
          split at there
          · cases there
            exact goesOn _ rfl
          · cases there
            exact goesOn _ rfl
      | save round locked => cases there
      | unLock locked => cases there
      | leave => cases there

omit [DecidableEq Entry] in
theorem orderly_stepEditor {system : ImportSystem Entry} (orderly : Orderly system) :
    Orderly system.stepEditor := by
  -- While the other process has the lock, the import loop neither saves nor unlocks.
  have apart : system.editor ≠ .lock →
      (∀ round locked, system.task ≠ some (.save round locked)) ∧
        ∀ locked, system.task ≠ some (.unLock locked) := by
    intro edits
    have held := orderly.editor edits
    constructor
    · intro round locked there
      cases held.symm.trans (orderly.importer round locked there).2
    · intro locked there
      cases held.symm.trans (orderly.unlocking locked there).2
  rw [ImportSystem.stepEditor]
  split
  · split
    · rename_i free
      refine ⟨fun round locked there => ?_, fun locked there => ?_, fun _ => rfl,
        fun _ _ there => (by cases there)⟩
      · cases free.symm.trans (orderly.importer round locked there).2
      · cases free.symm.trans (orderly.unlocking locked there).2
    · exact orderly
  · rename_i here
    obtain ⟨noSave, noUnLock⟩ := apart (by rw [here]; simp)
    refine ⟨fun round locked there => absurd there (noSave round locked),
      fun locked there => absurd there (noUnLock locked),
      fun _ => orderly.editor (by rw [here]; simp), fun _ _ there => ?_⟩
    cases there
    rfl
  · rename_i here
    obtain ⟨noSave, noUnLock⟩ := apart (by rw [here]; simp)
    exact ⟨fun round locked there => absurd there (noSave round locked),
      fun locked there => absurd there (noUnLock locked),
      fun _ => orderly.editor (by rw [here]; simp), fun _ _ there => (by cases there)⟩
  · rename_i here
    obtain ⟨noSave, noUnLock⟩ := apart (by rw [here]; simp)
    exact ⟨fun round locked there => absurd there (noSave round locked),
      fun locked there => absurd there (noUnLock locked), fun wrong => absurd rfl wrong,
      fun _ _ there => (by cases there)⟩

omit [DecidableEq Entry] in
theorem orderly_changeEdited {system : ImportSystem Entry} (orderly : Orderly system)
    (edited : UserDictionaryStorage Entry) : Orderly (system.changeEdited edited) := by
  rw [ImportSystem.changeEdited]
  split
  · rename_i loaded saved here
    refine ⟨orderly.importer, orderly.unlocking, fun _ => orderly.editor (by rw [here]; simp),
      fun _ _ there => ?_⟩
    cases there
    exact orderly.loaded loaded saved here
  · exact orderly

omit [DecidableEq Entry] in
/-- A call of an import changes neither the file nor who stands where. -/
theorem orderly_congr {system other : ImportSystem Entry} (orderly : Orderly system)
    (task : other.task = system.task ∨ other.task = some .hasPendingImportData)
    (file : other.file = system.file) (lock : other.lock = system.lock)
    (editor : other.editor = system.editor) : Orderly other := by
  rcases task with same | fresh
  · refine ⟨?_, ?_, ?_, ?_⟩
    · rw [same, lock]
      exact orderly.importer
    · rw [same, lock]
      exact orderly.unlocking
    · rw [editor, lock]
      exact orderly.editor
    · rw [editor, file]
      exact orderly.loaded
  · refine ⟨?_, ?_, ?_, ?_⟩
    · rw [fresh]
      exact fun _ _ there => by cases there
    · rw [fresh]
      exact fun _ there => by cases there
    · rw [editor, lock]
      exact orderly.editor
    · rw [editor, file]
      exact orderly.loaded

omit [DecidableEq Entry] in
theorem orderly_stepCall {system : ImportSystem Entry} (orderly : Orderly system) (index : Nat) :
    Orderly (system.stepCall index) := by
  have moved : ∀ call, Orderly (system.moveCall index call) :=
    fun call => orderly_congr orderly (.inl rfl) rfl rfl rfl
  rw [ImportSystem.stepCall]
  split
  · exact orderly_congr orderly (.inl rfl) rfl rfl rfl
  · split
    · exact orderly
    · split
      · exact moved _
      · exact moved _
  · split
    · exact orderly
    · exact moved _
  · split
    · exact orderly
    · exact orderly_congr orderly (.inr rfl) rfl rfl rfl
  · exact orderly
  · exact orderly

omit [DecidableEq Entry] in
theorem orderly_step (orderly : Orderly watched.system) {action : ImportAction Entry}
    (succeeds : watched.Succeeds action) : Orderly (watched.system.step importText newId action) := by
  cases action with
  | import_ importData => exact orderly_congr orderly (.inl rfl) rfl rfl rfl
  | call index => exact orderly_stepCall orderly index
  | task => exact orderly_stepTask orderly succeeds
  | editor => exact orderly_stepEditor orderly
  | change edited => exact orderly_changeEdited orderly edited

/-- Only the task goes on with a round. -/
theorem applied_step (applied : Applied watched) (action : ImportAction Entry) :
    Applied (watched.step importText newId action) := by
  have stays : ∀ {system : ImportSystem Entry},
      (system.task = watched.system.task ∨ system.task = some .hasPendingImportData) →
        Applied ⟨system, watched.results, watched.written action⟩ := by
    rintro system (same | fresh) round there
    · change round? system = some round at there
      rw [round?, same] at there
      exact applied round there
    · change round? system = some round at there
      rw [round?, fresh] at there
      cases there
  cases action with
  | task => exact applied_stepTask applied
  | import_ importData => exact stays (.inl rfl)
  | editor =>
      refine stays (.inl ?_)
      change watched.system.stepEditor.task = _
      rw [ImportSystem.stepEditor]
      split
      · split
        · rfl
        · rfl
      · rfl
      · rfl
      · rfl
  | change edited =>
      refine stays (.inl ?_)
      change (watched.system.changeEdited edited).task = _
      rw [ImportSystem.changeEdited]
      split
      · rfl
      · rfl
  | call index =>
      have moved : (watched.system.stepCall index).task = watched.system.task ∨
          (watched.system.stepCall index).task = some .hasPendingImportData := by
        rw [ImportSystem.stepCall]
        split
        · exact .inl rfl
        · split
          · exact .inl rfl
          · split
            · exact .inl rfl
            · exact .inl rfl
        · split
          · exact .inl rfl
          · exact .inl rfl
        · split
          · exact .inl rfl
          · exact .inr rfl
        · exact .inl rfl
        · exact .inl rfl
      exact stays moved

/-! ## What the file holds -/

/-- Nothing is written by a step of the task other than the one that saves. -/
theorem fileKept_task (kept : watched.FileKept) (noSave : ∀ round locked,
    watched.system.task ≠ some (.save round locked)) :
    (watched.step importText newId .task).FileKept := by
  have file : (watched.system.stepTask importText newId).file = watched.system.file := by
    rw [ImportSystem.stepTask]
    split
    · rfl
    · rfl
    · rfl
    · split
      · rfl
      · rfl
    · rfl
    · split
      · rfl
      · rfl
    · rename_i round locked here
      exact absurd here (noSave round locked)
    · rfl
    · rfl
  have intended : watched.written .task = watched.intended := by
    rw [written]
    split
    · rename_i round locked here
      exact absurd here (noSave round locked)
    · rfl
  intro name
  change (watched.system.stepTask importText newId).file.lookup name = watched.written .task name
  rw [file, intended]
  exact kept name

theorem fileKept_save {round : ImportRound Entry} (kept : watched.FileKept)
    (here : watched.system.task = some (.save round true))
    (applied : ∀ name, round.storage.lookup name = overlay watched.results round.loaded.lookup name) :
    (watched.step importText newId .task).FileKept ↔ watched.UpToDate .task := by
  have file : (watched.system.stepTask importText newId).file = round.storage := by
    rw [ImportSystem.stepTask, here]
    rfl
  have intended : watched.written .task = overlay watched.results watched.intended := by
    rw [written, here]
  have upToDate : watched.UpToDate .task ↔ ∀ name, watched.results.lookup name = none →
      watched.system.file.lookup name = round.loaded.lookup name := by
    rw [UpToDate, saving, here]
    simp only [Option.mem_some_iff, forall_eq']
  rw [upToDate]
  change (∀ name, (watched.system.stepTask importText newId).file.lookup name
    = watched.written .task name) ↔ _
  simp only [file, intended, applied, overlay]
  refine forall_congr' fun name => ?_
  rw [kept name]
  cases watched.results.lookup name with
  | none => simp [eq_comm]
  | some result => simp

theorem fileKept_editor (kept : watched.FileKept) (orderly : Orderly watched.system) :
    (watched.step importText newId .editor).FileKept := by
  intro name
  change watched.system.stepEditor.file.lookup name = watched.written .editor name
  rw [ImportSystem.stepEditor, written]
  cases here : watched.system.editor with
  | lock =>
      dsimp only
      split
      · exact kept name
      · exact kept name
  | load => exact kept name
  | unLock => exact kept name
  | save loaded saved =>
      have current := orderly.loaded loaded saved here
      dsimp only
      rw [edited, current]
      split
      · rename_i same
        rw [same, kept name]
      · rfl

/-- **What one action does**: the file holds what it ought to, if the import loop saves nothing that
is out of date. -/
theorem fileKept_step (orderly : Orderly watched.system) (applied : Applied watched)
    {action : ImportAction Entry} (upToDate : watched.UpToDate action) (kept : watched.FileKept) :
    (watched.step importText newId action).FileKept := by
  cases action with
  | import_ importData => exact kept
  | task =>
      by_cases saves : ∃ round locked, watched.system.task = some (.save round locked)
      · obtain ⟨round, locked, here⟩ := saves
        obtain ⟨rfl, _⟩ := orderly.importer round locked here
        exact (fileKept_save kept here (applied round (by rw [round?, here]))).2 upToDate
      · push Not at saves
        exact fileKept_task kept saves
  | editor => exact fileKept_editor kept orderly
  | change edited =>
      intro name
      have file : (watched.system.changeEdited edited).file = watched.system.file := by
        rw [ImportSystem.changeEdited]
        split
        · rfl
        · rfl
      change (watched.system.changeEdited edited).file.lookup name = watched.intended name
      rw [file]
      exact kept name
  | call index =>
      intro name
      have file : (watched.system.stepCall index).file = watched.system.file := by
        rw [ImportSystem.stepCall]
        split
        · rfl
        · split
          · rfl
          · split
            · rfl
            · rfl
        · split
          · rfl
          · rfl
        · split
          · rfl
          · rfl
        · rfl
        · rfl
      change (watched.system.stepCall index).file.lookup name = watched.intended name
      rw [file]
      exact kept name

variable (importText newId)

/-- **No edit is lost** in a run where the import loop gets the lock, and saves nothing that is out
of date. -/
theorem fileKept (file : UserDictionaryStorage Entry) (actions : List (ImportAction Entry))
    (along : AllAlong (step importText newId)
      (fun watched action => watched.Succeeds action ∧ watched.UpToDate action) (start file) actions) :
    (actions.foldl (step importText newId) (start file)).FileKept := by
  have all : ∀ (watched : WatchedFile Entry) (action : ImportAction Entry),
      watched.Succeeds action ∧ watched.UpToDate action →
        Orderly watched.system ∧ Applied watched ∧ watched.FileKept →
          Orderly (watched.step importText newId action).system ∧
            Applied (watched.step importText newId action) ∧
              (watched.step importText newId action).FileKept := by
    rintro watched action ⟨succeeds, upToDate⟩ ⟨orderly, applied, kept⟩
    exact ⟨orderly_step orderly succeeds, applied_step applied action,
      fileKept_step orderly applied upToDate kept⟩
  have orderly : Orderly (start file).system :=
    ⟨fun _ _ there => (by cases there), fun _ there => (by cases there),
      fun wrong => absurd rfl wrong, fun _ _ there => (by cases there)⟩
  have applied : Applied (start file) := fun _ there => by cases there
  exact (foldl_preserves all along ⟨orderly, applied, fun _ => rfl⟩).2.2

end Steps

/-! ## An import and an edit -/

section Example

instance (watched : WatchedFile Entry) : (action : ImportAction Entry) →
    Decidable (watched.Succeeds action)
  | .task => inferInstanceAs (Decidable (_ → _))
  | .import_ _ => inferInstanceAs (Decidable True)
  | .call _ => inferInstanceAs (Decidable True)
  | .editor => inferInstanceAs (Decidable True)
  | .change _ => inferInstanceAs (Decidable True)

omit [DecidableEq Entry] in
theorem lookup_eq_none {storage : UserDictionaryStorage Entry} {name : ByteString}
    (absent : name ∉ storage.dictionaries.map StoredDictionary.name) : storage.lookup name = none := by
  refine Option.eq_none_iff_forall_ne_some.2 fun entries found => absent ?_
  obtain ⟨dictionary, member, isName, _⟩ := UserDictionaryStorage.lookup_eq_some_iff.1 found
  exact List.mem_map.2 ⟨dictionary, member, isName⟩

/-- Only names of dictionaries have to be looked at. -/
instance (watched : WatchedFile Entry) : (action : ImportAction Entry) →
    Decidable (watched.UpToDate action)
  | .task =>
      decidable_of_iff (∀ round ∈ (saving watched.system).toList,
          ∀ name ∈ (watched.system.file.dictionaries ++ round.loaded.dictionaries).map
            StoredDictionary.name, watched.results.lookup name = none →
              watched.system.file.lookup name = round.loaded.lookup name) <| by
        simp only [Option.mem_toList]
        refine forall₂_congr fun round _ => ⟨fun same name apart => ?_, fun same name _ => same name⟩
        by_cases named : name ∈ (watched.system.file.dictionaries ++ round.loaded.dictionaries).map
          StoredDictionary.name
        · exact same name named apart
        · rw [List.map_append, List.mem_append, not_or] at named
          rw [lookup_eq_none named.1, lookup_eq_none named.2]
  | .import_ _ => inferInstanceAs (Decidable True)
  | .call _ => inferInstanceAs (Decidable True)
  | .editor => inferInstanceAs (Decidable True)
  | .change _ => inferInstanceAs (Decidable True)

/-- An empty file, and the file that the other process makes of it. -/
def emptyFile : UserDictionaryStorage ByteString := ⟨[], List.nodup_nil, List.nodup_nil⟩

def editedFile : UserDictionaryStorage ByteString :=
  ⟨[⟨1, [0x62], [[0x32]]⟩], List.nodup_singleton _, List.nodup_singleton _⟩

/-- A text is imported as one entry. -/
def importLine (text : ByteString) : List ByteString := [text]

/-- An import is called, and its task loads the file. -/
def importLoads : List (ImportAction ByteString) :=
  .import_ ⟨[0x61], [0x31]⟩ :: List.replicate 4 (.call 0) ++ List.replicate 2 .task

/-- The other process adds a dictionary. -/
def editFile : List (ImportAction ByteString) :=
  [.editor, .editor, .change editedFile, .editor, .editor]

/-- An edit that ends before the import loop loads the file is kept. -/
theorem fileKept_editBeforeImport :
    ((editFile ++ importLoads ++ List.replicate 5 ImportAction.task).foldl
      (step importLine (.counting ByteString)) (start emptyFile)).FileKept := by
  exact fileKept importLine (.counting ByteString) emptyFile _ (by decide)

/-- **The edit is lost** when it is made between the load and the save of an import, although all
operations succeed. -/
theorem not_fileKept_editWhileImporting :
    AllAlong (step importLine (.counting ByteString)) Succeeds (start emptyFile)
        (importLoads ++ editFile ++ List.replicate 8 ImportAction.task) ∧
      ¬ ((importLoads ++ editFile ++ List.replicate 8 ImportAction.task).foldl
        (step importLine (.counting ByteString)) (start emptyFile)).FileKept := by
  constructor
  · decide
  · intro kept
    exact absurd (kept [0x62]) (by decide)

end Example

end WatchedFile

end Mozkey.Dictionary
