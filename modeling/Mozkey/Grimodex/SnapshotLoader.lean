import Mozkey.Grimodex.ProtocolV1

/-!
# Loading while a writer is at work

A load reads the state file, the file of the project it names, and the state file again.
Between any two of its reads the writer may replace or remove any of the files; it never
writes a state file with bytes that the state file had before.  A load that may only have
met a file in between is tried again, a limited number of times.

The state of the whole system keeps, beside the files and the loader, what has happened:
the bytes that the state file had, the attempts and reads of the loader, and the files as
they were at the last read of a project.
-/

namespace Mozkey.Grimodex

/-! ## Files, loader and writer -/

/-- The files under the root. -/
structure Files where
  state : Option ByteString
  project : ByteString → Option ByteString

structure System where
  files : Files
  /-- All bytes that the state file has had so far. -/
  past : List ByteString
  attempt : UInt64 := 0
  loading : Loading := .start
  attempts : Nat := 1
  reads : Nat := 0
  /-- The files at the last read of a project. -/
  atProject : Option Files := none

/-- A load that is about to begin. -/
def System.begin (files : Files) : System where
  files := files
  past := files.state.toList

variable (M : Modules)

/-- What a read of a file may return.  A file is found only when the directories above
it are, and a read may fail. -/
inductive Reads (maxBytes : Nat) : Option ByteString → ReadResult → Prop
  | content (bytes : ByteString) :
      bytes.length ≤ maxBytes → Reads maxBytes (some bytes) (.ok (.fromBytes M bytes))
  | notFound (file : Option ByteString) : Reads maxBytes file .notFound
  | error (file : Option ByteString) : Reads maxBytes file .error

/-- The loop of `Load`: behind a retryable result the next attempt, while there is one. -/
def System.proceed (staleRetries : UInt64) (s : System) (loading : Loading) : System :=
  match loading with
  | .finished result =>
      if result.isRetryable = true ∧ s.attempt + 1 ≤ staleRetries then
        { s with attempt := s.attempt + 1, attempts := s.attempts + 1, loading := .start }
      else { s with loading := .finished result }
  | _ => { s with loading }

def System.countRead (s : System) : System :=
  { s with reads := s.reads + 1 }

/-- A read of the loader, and what it does with the result. -/
inductive LoadStep (staleRetries : UInt64) : System → System → Prop
  | firstState (s : System) (read : ReadResult) :
      s.loading = .start → Reads M kStateBytes s.files.state read →
        LoadStep staleRetries s (s.countRead.proceed staleRetries (afterFirstState M read))
  | project (s : System) (first : VerifiedFileBytes) (state : StateJson) (projectId : ByteString)
      (read : ReadResult) :
      s.loading = .haveState first state projectId →
        Reads M kProjectBytes (s.files.project projectId) read →
          LoadStep staleRetries s
            (System.proceed staleRetries { s.countRead with atProject := some s.files }
              (afterProject M first state projectId read))
  | secondState (s : System) (first : VerifiedFileBytes) (state : StateJson)
      (file : VerifiedFileBytes) (project : ProjectJson) (entries : List DictionaryEntryDto)
      (conditions : ProjectConditionsDto) (read : ReadResult) :
      s.loading = .haveProject first state file project entries conditions →
        Reads M kStateBytes s.files.state read →
          LoadStep staleRetries s (s.countRead.proceed staleRetries
            (.finished (afterSecondState M first state file project entries conditions read)))

/-- A file replaced or removed by the writer. -/
inductive WriteStep : System → System → Prop
  | replaceState (s : System) (bytes : ByteString) :
      bytes ∉ s.past → WriteStep s
        { s with files := { s.files with state := some bytes }, past := bytes :: s.past }
  | removeState (s : System) : WriteStep s { s with files := { s.files with state := none } }
  | setProject (s : System) (projectId : ByteString) (file : Option ByteString) :
      WriteStep s
        { s with files := { s.files with project := Function.update s.files.project projectId file } }

inductive Step (staleRetries : UInt64) : System → System → Prop
  | load {s t : System} : LoadStep M staleRetries s t → Step staleRetries s t
  | write {s t : System} : WriteStep s t → Step staleRetries s t

/-- An interleaving of a load and the writer. -/
abbrev Interleaving (staleRetries : UInt64) : System → System → Prop :=
  Relation.ReflTransGen (Step M staleRetries)

/-! ## What holds along an interleaving -/

/-- The active project of the state file. -/
def activeProject (files : Files) : Option ByteString :=
  (files.state.bind (readState M)).bind Prod.snd

/-- A snapshot whose project was active when its file was read, and which was made from
that read. -/
structure Coherent (files : Files) (snapshot : ProtocolV1Snapshot) : Prop where
  active : activeProject M files = some snapshot.projectId
  fromFile : ∃ bytes project, files.project snapshot.projectId = some bytes ∧
    readProject M snapshot.projectId bytes = some (project, snapshot.entries, snapshot.conditions) ∧
      project.projectId = snapshot.projectId ∧ project.projectName = snapshot.projectName

/-- A project that was read while the state file may have been another one. -/
structure ProjectRead (now : System) (first : VerifiedFileBytes) (project : ProjectJson)
    (entries : List DictionaryEntryDto) (conditions : ProjectConditionsDto) (files : Files) :
    Prop where
  atProject : now.atProject = some files
  state : ∃ state, readState M first.bytes = some (state, some project.projectId)
  fromFile : ∃ bytes, files.project project.projectId = some bytes ∧
    readProject M project.projectId bytes = some (project, entries, conditions)
  past : first.bytes ∈ now.past
  /-- Bytes that the state file has again are bytes that it has still. -/
  still : now.files.state = some first.bytes → files.state = some first.bytes

/-- What the loader has in hand. -/
def InHand (s : System) : Prop :=
  match s.loading with
  | .start => True
  | .haveState first state projectId =>
      readState M first.bytes = some (state, some projectId) ∧ first.bytes ∈ s.past
  | .haveProject first _ _ project entries conditions =>
      ∃ files, ProjectRead M s first project entries conditions files
  | .finished result =>
      ∀ snapshot, result.snapshot = some snapshot →
        ∃ files, s.atProject = some files ∧ Coherent M files snapshot

/-- The reads that an attempt still has before it. -/
def Loading.readsLeft : Loading → Nat
  | .start => 3
  | .haveState .. => 2
  | .haveProject .. => 1
  | .finished _ => 0

structure Invariant (staleRetries : UInt64) (s : System) : Prop where
  inHand : InHand M s
  past : ∀ bytes, s.files.state = some bytes → bytes ∈ s.past
  counted : s.attempts = s.attempt.toNat + 1
  limited : s.attempt ≤ staleRetries
  reads : s.reads + s.loading.readsLeft ≤ 3 * s.attempts

theorem invariant_begin (staleRetries : UInt64) (files : Files) :
    Invariant M staleRetries (System.begin files) where
  inHand := trivial
  past bytes state := by
    rw [System.begin] at state ⊢
    rw [state]
    exact List.mem_singleton_self bytes
  counted := rfl
  limited := UInt64.le_iff_toNat_le.2 (Nat.zero_le _)
  reads := Nat.le_refl 3

/-! ## The writer -/

theorem inHand_write {s t : System} (invariant : InHand M s) (write : WriteStep s t) :
    InHand M t := by
  cases write with
  | replaceState bytes fresh =>
      rw [InHand] at invariant ⊢
      dsimp only
      cases inHand : s.loading with
      | start => trivial
      | haveState first state projectId =>
          rw [inHand] at invariant
          exact ⟨invariant.1, List.mem_cons_of_mem _ invariant.2⟩
      | haveProject first state file project entries conditions =>
          rw [inHand] at invariant
          obtain ⟨files, read⟩ := invariant
          refine ⟨files, read.atProject, read.state, read.fromFile,
            List.mem_cons_of_mem _ read.past, fun again => ?_⟩
          obtain rfl := Option.some.inj again
          exact absurd read.past fresh
      | finished result =>
          rw [inHand] at invariant
          exact invariant
  | removeState =>
      rw [InHand] at invariant ⊢
      dsimp only
      cases inHand : s.loading with
      | start => trivial
      | haveState first state projectId =>
          rw [inHand] at invariant
          exact invariant
      | haveProject first state file project entries conditions =>
          rw [inHand] at invariant
          obtain ⟨files, read⟩ := invariant
          exact ⟨files, read.atProject, read.state, read.fromFile, read.past,
            fun again => by cases again⟩
      | finished result =>
          rw [inHand] at invariant
          exact invariant
  | setProject projectId file =>
      rw [InHand] at invariant ⊢
      dsimp only
      cases inHand : s.loading with
      | start => trivial
      | haveState first state projectId =>
          rw [inHand] at invariant
          exact invariant
      | haveProject first state file project entries conditions =>
          rw [inHand] at invariant
          obtain ⟨files, read⟩ := invariant
          exact ⟨files, read.atProject, read.state, read.fromFile, read.past, read.still⟩
      | finished result =>
          rw [inHand] at invariant
          exact invariant

theorem invariant_write {staleRetries : UInt64} {s t : System}
    (invariant : Invariant M staleRetries s) (write : WriteStep s t) :
    Invariant M staleRetries t := by
  have inHand := inHand_write M invariant.inHand write
  cases write with
  | replaceState bytes fresh =>
      refine ⟨inHand, fun state same => ?_, invariant.counted, invariant.limited, invariant.reads⟩
      obtain rfl := Option.some.inj same
      exact List.mem_cons_self
  | removeState =>
      exact ⟨inHand, fun _ same => (by cases same), invariant.counted,
        invariant.limited, invariant.reads⟩
  | setProject projectId file =>
      exact ⟨inHand, invariant.past, invariant.counted, invariant.limited, invariant.reads⟩

/-! ## The loader -/

/-- A project that is taken is the expected one. -/
theorem readProject_projectId {projectId bytes : ByteString} {project : ProjectJson}
    {entries : List DictionaryEntryDto} {conditions : ProjectConditionsDto}
    (read : readProject M projectId bytes = some (project, entries, conditions)) :
    project.projectId = projectId := by
  rw [readProject] at read
  split at read
  · split at read
    · cases read
    · rename_i parsed _
      obtain ⟨parts, valid, same⟩ := Option.map_eq_some_iff.1 read
      obtain ⟨rfl, rfl⟩ := Prod.mk.inj same
      by_contra other
      rw [validateProject, if_pos (Or.inr (Or.inl other))] at valid
      cases valid
  · cases read

/-- The loop keeps the invariant while the counter does not go round. -/
theorem invariant_proceed {staleRetries : UInt64} (notLast : staleRetries ≠ UInt64.ofNat (2 ^ 64 - 1))
    {s : System} (past : ∀ bytes, s.files.state = some bytes → bytes ∈ s.past)
    (counted : s.attempts = s.attempt.toNat + 1) (limited : s.attempt ≤ staleRetries)
    {loading : Loading} (inHand : InHand M { s with loading })
    (reads : s.reads + loading.readsLeft ≤ 3 * s.attempts) :
    Invariant M staleRetries (s.proceed staleRetries loading) := by
  cases loading with
  | start => exact ⟨inHand, past, counted, limited, reads⟩
  | haveState first state projectId => exact ⟨inHand, past, counted, limited, reads⟩
  | haveProject first state file project entries conditions =>
      exact ⟨inHand, past, counted, limited, reads⟩
  | finished result =>
      rw [System.proceed]
      split
      · rename_i again
        have lastLess := staleRetries.toNat_lt
        have notLast' : staleRetries.toNat ≠ 2 ^ 64 - 1 := fun same =>
          notLast (UInt64.toNat_inj.1 (same.trans (by decide)))
        have limited' := UInt64.le_iff_toNat_le.1 limited
        have next : (s.attempt + 1).toNat = s.attempt.toNat + 1 := by
          rw [UInt64.toNat_add, UInt64.toNat_one, Nat.mod_eq_of_lt (by omega)]
        refine ⟨trivial, past, ?_, again.2, ?_⟩
        · exact (congrArg (· + 1) counted).trans (congrArg (· + 1) next.symm)
        · have left : s.reads + 0 ≤ 3 * s.attempts := reads
          show s.reads + 3 ≤ 3 * (s.attempts + 1)
          omega
      · exact ⟨inHand, past, counted, limited, reads⟩

theorem inHand_failed {s : System} {diagnostic : LoadDiagnostic}
    {notLoaded : diagnostic ≠ .loaded}
    (failed : s.loading = .finished (.failed diagnostic notLoaded)) : InHand M s := by
  rw [InHand, failed]
  exact fun _ isSnapshot => by cases isSnapshot

/-- What the first read of the state leaves in hand. -/
theorem inHand_afterFirstState {s : System}
    (past : ∀ bytes, s.files.state = some bytes → bytes ∈ s.past) {read : ReadResult}
    (reading : Reads M kStateBytes s.files.state read) :
    InHand M { s with loading := afterFirstState M read } ∧ (afterFirstState M read).readsLeft ≤ 2 := by
  generalize isFile : s.files.state = file at reading
  cases reading with
  | notFound => exact ⟨inHand_failed M rfl, Nat.zero_le 2⟩
  | error => exact ⟨inHand_failed M rfl, Nat.zero_le 2⟩
  | content bytes small =>
      rw [afterFirstState]
      split
      · exact ⟨inHand_failed M rfl, Nat.zero_le 2⟩
      · exact ⟨inHand_failed M rfl, Nat.zero_le 2⟩
      · rename_i state projectId isState
        exact ⟨⟨isState, past bytes isFile⟩, Nat.le_refl 2⟩

/-- What the read of the project leaves in hand. -/
theorem inHand_afterProject {s : System} {first : VerifiedFileBytes} {state : StateJson}
    {projectId : ByteString} (isState : readState M first.bytes = some (state, some projectId))
    (past : first.bytes ∈ s.past) {read : ReadResult}
    (reading : Reads M kProjectBytes (s.files.project projectId) read) :
    InHand M { s with
      atProject := some s.files, loading := afterProject M first state projectId read } ∧
      (afterProject M first state projectId read).readsLeft ≤ 1 := by
  generalize isFile : s.files.project projectId = file at reading
  cases reading with
  | notFound => exact ⟨inHand_failed M rfl, Nat.zero_le 1⟩
  | error => exact ⟨inHand_failed M rfl, Nat.zero_le 1⟩
  | content bytes small =>
      rw [afterProject]
      split
      · exact ⟨inHand_failed M rfl, Nat.zero_le 1⟩
      · rename_i project entries conditions isProject
        have sameId := readProject_projectId M isProject
        refine ⟨⟨s.files, rfl, ⟨state, ?_⟩, ⟨bytes, ?_, ?_⟩, past, fun again => again⟩, Nat.le_refl 1⟩
        · rw [sameId]
          exact isState
        · rw [sameId]
          exact isFile
        · rw [sameId]
          exact isProject

/-- What the second read of the state finishes with. -/
theorem inHand_afterSecondState {s : System} {first file : VerifiedFileBytes} {state : StateJson}
    {project : ProjectJson} {entries : List DictionaryEntryDto} {conditions : ProjectConditionsDto}
    {files : Files} (projectRead : ProjectRead M s first project entries conditions files)
    {read : ReadResult} (reading : Reads M kStateBytes s.files.state read) :
    InHand M { s with
      loading := .finished (afterSecondState M first state file project entries conditions read) } := by
  generalize isFile : s.files.state = stateFile at reading
  cases reading with
  | notFound =>
      rw [afterSecondState]
      exact inHand_failed M rfl
  | error =>
      rw [afterSecondState]
      exact inHand_failed M rfl
  | content bytes small =>
      rw [afterSecondState]
      split
      · exact inHand_failed M rfl
      · rename_i accepted
        rw [not_or, not_or, not_not, not_not] at accepted
        -- the state file has the bytes of the first read, so it had them at the project read
        have then_ : files.state = some first.bytes :=
          projectRead.still (isFile.trans (congrArg some accepted.2.1))
        obtain ⟨firstState, isState⟩ := projectRead.state
        obtain ⟨projectBytes, isProject, parts⟩ := projectRead.fromFile
        intro snapshot isSnapshot
        obtain rfl := Option.some.inj isSnapshot
        refine ⟨files, projectRead.atProject, ?_, projectBytes, project, isProject, parts, rfl, rfl⟩
        rw [activeProject, then_, Option.bind_some, isState, Option.bind_some]

theorem invariant_load {staleRetries : UInt64} (notLast : staleRetries ≠ UInt64.ofNat (2 ^ 64 - 1))
    {s t : System} (invariant : Invariant M staleRetries s) (load : LoadStep M staleRetries s t) :
    Invariant M staleRetries t := by
  obtain ⟨inHand, past, counted, limited, reads⟩ := invariant
  rw [InHand] at inHand
  cases load with
  | firstState read isStart reading =>
      rw [isStart] at reads
      have after := inHand_afterFirstState M (s := s.countRead) past reading
      have left : s.reads + 3 ≤ 3 * s.attempts := reads
      refine invariant_proceed M (s := s.countRead) notLast past counted limited after.1 ?_
      show s.reads + 1 + _ ≤ 3 * s.attempts
      have leftAfter := after.2
      omega
  | project first state projectId read isProject reading =>
      rw [isProject] at reads inHand
      have after := inHand_afterProject M (s := s.countRead) inHand.1 inHand.2 reading
      have left : s.reads + 2 ≤ 3 * s.attempts := reads
      refine invariant_proceed M (s := { s.countRead with atProject := some s.files }) notLast past
        counted limited after.1 ?_
      show s.reads + 1 + _ ≤ 3 * s.attempts
      have leftAfter := after.2
      omega
  | secondState first state file project entries conditions read isSecond reading =>
      rw [isSecond] at reads inHand
      obtain ⟨files, projectRead⟩ := inHand
      have counted' : ProjectRead M s.countRead first project entries conditions files :=
        ⟨projectRead.atProject, projectRead.state, projectRead.fromFile, projectRead.past,
          projectRead.still⟩
      exact invariant_proceed M (s := s.countRead) notLast past counted limited
        (inHand_afterSecondState M counted' reading) reads

/-! ## Whole interleavings -/

theorem invariant_interleaving {staleRetries : UInt64}
    (notLast : staleRetries ≠ UInt64.ofNat (2 ^ 64 - 1)) {s t : System}
    (interleaving : Interleaving M staleRetries s t) (invariant : Invariant M staleRetries s) :
    Invariant M staleRetries t := by
  induction interleaving with
  | refl => exact invariant
  | tail _ step ih =>
      cases step with
      | load load => exact invariant_load M notLast ih load
      | write write => exact invariant_write M ih write

/-- The loader never waits for the writer. -/
theorem exists_loadStep (staleRetries : UInt64) {s : System}
    (unfinished : ∀ result, s.loading ≠ .finished result) : ∃ t, LoadStep M staleRetries s t := by
  cases inHand : s.loading with
  | start => exact ⟨_, .firstState s .error inHand (.error _)⟩
  | haveState first state projectId =>
      exact ⟨_, .project s first state projectId .error inHand (.error _)⟩
  | haveProject first state file project entries conditions =>
      exact ⟨_, .secondState s first state file project entries conditions .error inHand (.error _)⟩
  | finished result => exact absurd inHand (unfinished result)

/-- What a load promises, at any moment of an interleaving. -/
structure LoadsCoherently (staleRetries : UInt64) (s : System) : Prop where
  loaded : ∀ result, s.loading = .finished result → result.diagnostic = .loaded →
    ∃ snapshot files, result.snapshot = some snapshot ∧ s.atProject = some files ∧
      Coherent M files snapshot
  failed : ∀ result, s.loading = .finished result → result.diagnostic ≠ .loaded →
    result.snapshot = none
  attempts : s.attempts ≤ staleRetries.toNat + 1
  /-- It ends after the last of a bounded number of reads. -/
  reads : s.reads ≤ 3 * (staleRetries.toNat + 1)
  goesOn : (∀ result, s.loading ≠ .finished result) → ∃ t, LoadStep M staleRetries s t

/-- **Loads are coherent in every interleaving**, with any number of retries that the
counter can exceed. -/
theorem loadsCoherently {staleRetries : UInt64}
    (notLast : staleRetries ≠ UInt64.ofNat (2 ^ 64 - 1)) {files : Files} {s : System}
    (interleaving : Interleaving M staleRetries (System.begin files) s) :
    LoadsCoherently M staleRetries s := by
  obtain ⟨inHand, _, counted, limited, reads⟩ :=
    invariant_interleaving M notLast interleaving (invariant_begin M staleRetries files)
  have attempts : s.attempts ≤ staleRetries.toNat + 1 := by
    rw [counted]
    exact Nat.succ_le_succ (UInt64.le_iff_toNat_le.1 limited)
  refine ⟨fun result isFinished isLoaded => ?_, fun result _ notLoaded => ?_, attempts, ?_,
    exists_loadStep M staleRetries⟩
  · rw [InHand, isFinished] at inHand
    obtain ⟨snapshot, isSnapshot⟩ := Option.isSome_iff_exists.1 (result.loaded.1 isLoaded)
    obtain ⟨files, atProject, coherent⟩ := inHand snapshot isSnapshot
    exact ⟨snapshot, files, isSnapshot, atProject, coherent⟩
  · rw [Ne, result.loaded, Bool.not_eq_true, Option.isSome_eq_false_iff,
      Option.isNone_iff_eq_none] at notLoaded
    exact notLoaded
  · exact (Nat.le_add_right _ _).trans (reads.trans (Nat.mul_le_mul_left 3 attempts))

/-! ## A project file that stays away -/

def sampleState : ByteString :=
  ascii "\x7b\"format_version\":1,\"active_project_id\":\"a\",\"updated_at\":\"2026-07-11T00:00:00Z\"\x7d"

def sampleProject : ByteString :=
  ascii ("\x7b\"format_version\":1,\"project_id\":\"a\",\"project_name\":\"A\"," ++
    "\"generated_at\":\"2026-07-11T00:00:00Z\",\"entries\":[]\x7d")

def sampleStateJson : StateJson where
  formatVersion := 1
  activeProjectId := .string (ascii "a")
  updatedAt := ascii "2026-07-11T00:00:00Z"

def sampleProjectJson : ProjectJson where
  formatVersion := 1
  projectId := ascii "a"
  projectName := ascii "A"
  generatedAt := ascii "2026-07-11T00:00:00Z"
  entries := []
  profile := none
  zenzaiContext := none

/-- Parsing, as far as these two files go. -/
def sampleModules : Modules where
  hasJsonField bytes field :=
    (bytes == sampleState && field == ascii "active_project_id") ||
      (bytes == sampleProject && field == ascii "entries")
  parseState bytes := if bytes = sampleState then some sampleStateJson else none
  parseProject bytes := if bytes = sampleProject then some sampleProjectJson else none
  sha256 _ := []

theorem length_sampleState_le : sampleState.length ≤ kStateBytes := by decide

theorem readState_sample :
    readState sampleModules sampleState = some (sampleStateJson, some (ascii "a")) := by
  have hasField : sampleModules.hasJsonField sampleState (ascii "active_project_id") = true := by
    decide
  have parsed : sampleModules.parseState sampleState = some sampleStateJson := by
    simp only [sampleModules, if_true]
  have valid : validateState sampleStateJson = some (some (ascii "a")) := by decide
  rw [readState, if_pos hasField, parsed]
  dsimp only
  rw [valid]
  rfl

theorem readProject_sample :
    readProject sampleModules (ascii "a") sampleProject = some (sampleProjectJson, [], {}) := by
  have hasField : sampleModules.hasJsonField sampleProject (ascii "entries") = true := by
    decide
  have parsed : sampleModules.parseProject sampleProject = some sampleProjectJson := by
    simp only [sampleModules, if_true]
  have valid : validateProject sampleProjectJson (ascii "a") = some ([], {}) := by decide
  rw [readProject, if_pos hasField, parsed]
  dsimp only
  rw [valid]
  rfl

/-- Project `a` is active, with or without a file of its own. -/
def sampleFiles (project : Option ByteString) : Files where
  state := some sampleState
  project := Function.update (fun _ => none) (ascii "a") project

/-- The project is active at the first read of the state. -/
theorem loadStep_sampleState (staleRetries : UInt64) {s : System} {project : Option ByteString}
    (files : s.files = sampleFiles project) (isStart : s.loading = .start) :
    LoadStep sampleModules staleRetries s
      { s.countRead with
        loading := .haveState (.fromBytes sampleModules sampleState) sampleStateJson (ascii "a") } := by
  have reading : Reads sampleModules kStateBytes s.files.state
      (.ok (.fromBytes sampleModules sampleState)) := by
    rw [files]
    exact .content sampleState length_sampleState_le
  have after : afterFirstState sampleModules (.ok (.fromBytes sampleModules sampleState))
      = .haveState (.fromBytes sampleModules sampleState) sampleStateJson (ascii "a") := by
    rw [afterFirstState, VerifiedFileBytes.fromBytes, readState_sample]
  have step := @LoadStep.firstState sampleModules staleRetries s _ isStart reading
  rw [after] at step
  exact step

/-- Without a project file an attempt fails, and the next one begins when there is one. -/
theorem interleaving_missingProject {staleRetries : UInt64} {s : System}
    (files : s.files = sampleFiles none) (isStart : s.loading = .start)
    (again : s.attempt + 1 ≤ staleRetries) :
    ∃ t, Interleaving sampleModules staleRetries s t ∧ t.files = sampleFiles none ∧
      t.loading = .start ∧ t.attempts = s.attempts + 1 := by
  have first := loadStep_sampleState staleRetries files isStart
  have second := @LoadStep.project sampleModules staleRetries
    { s.countRead with
      loading := .haveState (.fromBytes sampleModules sampleState) sampleStateJson (ascii "a") }
    _ _ _ .notFound rfl (.notFound _)
  rw [afterProject, System.proceed] at second
  dsimp only at second
  rw [if_pos ⟨rfl, again⟩] at second
  exact ⟨_, .tail (.single (.load first)) (.load second), files, rfl, rfl⟩

/-- The last number of retries, which the counter never exceeds. -/
def kMaxRetries : UInt64 := UInt64.ofNat (2 ^ 64 - 1)

/-- Attempt after attempt, without end. -/
theorem interleaving_endless (n : Nat) :
    ∃ s, Interleaving sampleModules kMaxRetries (System.begin (sampleFiles none)) s ∧
      s.files = sampleFiles none ∧ s.loading = .start ∧ s.attempts = n + 1 := by
  induction n with
  | zero => exact ⟨_, .refl, rfl, rfl, rfl⟩
  | succ n ih =>
      obtain ⟨s, run, files, isStart, attempts⟩ := ih
      have again : s.attempt + 1 ≤ kMaxRetries := by
        rw [UInt64.le_iff_toNat_le]
        have less := (s.attempt + 1).toNat_lt
        have last : kMaxRetries.toNat = 2 ^ 64 - 1 := by decide
        omega
      obtain ⟨t, more, files', isStart', attempts'⟩ :=
        interleaving_missingProject files isStart again
      exact ⟨t, run.trans more, files', isStart', by rw [attempts', attempts]⟩

/-- **With the last number of retries a load need not end.** -/
theorem lastRetries_not_coherent :
    ∃ s, Interleaving sampleModules kMaxRetries (System.begin (sampleFiles none)) s ∧
      ¬ LoadsCoherently sampleModules kMaxRetries s := by
  obtain ⟨s, run, _, _, attempts⟩ := interleaving_endless (2 ^ 64)
  refine ⟨s, run, fun coherent => ?_⟩
  have limited := coherent.attempts
  have last : kMaxRetries.toNat = 2 ^ 64 - 1 := by decide
  rw [attempts, last] at limited
  omega

/-- The project is read, and taken. -/
theorem loadStep_sampleProject (staleRetries : UInt64) {s : System}
    (files : s.files = sampleFiles (some sampleProject))
    (inHand : s.loading
      = .haveState (.fromBytes sampleModules sampleState) sampleStateJson (ascii "a")) :
    LoadStep sampleModules staleRetries s
      { s.countRead with
        atProject := some s.files
        loading := .haveProject (.fromBytes sampleModules sampleState) sampleStateJson
          (.fromBytes sampleModules sampleProject) sampleProjectJson [] {} } := by
  have isFile : s.files.project (ascii "a") = some sampleProject := by
    simp only [files, sampleFiles, Function.update_self]
  have reading : Reads sampleModules kProjectBytes (s.files.project (ascii "a"))
      (.ok (.fromBytes sampleModules sampleProject)) := by
    rw [isFile]
    exact .content sampleProject (by decide)
  have after : afterProject sampleModules (.fromBytes sampleModules sampleState) sampleStateJson
      (ascii "a") (.ok (.fromBytes sampleModules sampleProject))
        = .haveProject (.fromBytes sampleModules sampleState) sampleStateJson
            (.fromBytes sampleModules sampleProject) sampleProjectJson [] {} := by
    rw [afterProject, VerifiedFileBytes.fromBytes, VerifiedFileBytes.fromBytes, readProject_sample]
  have step := @LoadStep.project sampleModules staleRetries s _ _ _ _ inHand reading
  rw [after] at step
  exact step

/-- The state reads the same again. -/
theorem loadStep_sampleStateAgain (staleRetries : UInt64) {s : System} {project : Option ByteString}
    (files : s.files = sampleFiles project)
    (inHand : s.loading = .haveProject (.fromBytes sampleModules sampleState) sampleStateJson
      (.fromBytes sampleModules sampleProject) sampleProjectJson [] {}) :
    ∃ result, result.diagnostic = .loaded ∧
      LoadStep sampleModules staleRetries s { s.countRead with loading := .finished result } := by
  have reading : Reads sampleModules kStateBytes s.files.state
      (.ok (.fromBytes sampleModules sampleState)) := by
    rw [files]
    exact .content sampleState length_sampleState_le
  have step := @LoadStep.secondState sampleModules staleRetries s _ _ _ _ _ _ _ inHand reading
  have accepted : ¬ ((readState sampleModules sampleState).isNone = true ∨
      sampleState ≠ sampleState ∨ sampleModules.sha256 sampleState ≠ sampleModules.sha256 sampleState) := by
    rw [readState_sample]
    simp
  rw [afterSecondState, VerifiedFileBytes.fromBytes, if_neg accepted] at step
  exact ⟨_, rfl, step⟩

/-- A load of project `a` with one retry. -/
theorem sampleFiles_loadsCoherently :
    ∃ s result, Interleaving sampleModules 1 (System.begin (sampleFiles (some sampleProject))) s ∧
      s.loading = .finished result ∧ result.diagnostic = .loaded ∧
        LoadsCoherently sampleModules 1 s := by
  let start := System.begin (sampleFiles (some sampleProject))
  let haveState := { start.countRead with
    loading := .haveState (.fromBytes sampleModules sampleState) sampleStateJson (ascii "a") }
  let haveProject := { haveState.countRead with
    atProject := some (sampleFiles (some sampleProject))
    loading := .haveProject (.fromBytes sampleModules sampleState) sampleStateJson
      (.fromBytes sampleModules sampleProject) sampleProjectJson [] {} }
  have first := loadStep_sampleState 1 (s := start) rfl rfl
  have second := loadStep_sampleProject 1 (s := haveState) rfl rfl
  obtain ⟨result, isLoaded, third⟩ := loadStep_sampleStateAgain 1 (s := haveProject) rfl rfl
  have run := ((Relation.ReflTransGen.single (Step.load first)).tail (.load second)).tail
    (.load third)
  exact ⟨_, result, run, rfl, isLoaded, loadsCoherently sampleModules (by decide) run⟩

end Mozkey.Grimodex
