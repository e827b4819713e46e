import Mozkey.Lib.Run

/-!
# Reloading the user dictionary

A call of `Reload` compares the modification time of the file with the one that was recorded last,
and where they differ it records the new one and starts a loader.  The loader reads the file as it
is then, or fails to.  The file may be replaced at any time.

`Current` says when the active tokens have to be those of the file.  After a load that failed, the
time has been recorded all the same, and no further call starts a loader before the file is replaced
again.  `current` says that nothing else goes wrong.

What tokens a file makes is a parameter, and so is the number of tokens.  One call of `Reload` is
made at a time.
-/

namespace Mozkey.Dictionary

open Mozkey.Lib

variable {Content Tokens : Type}

/-! ## The reloader -/

/-- `MaybeStartReload`, at its next step. -/
inductive ReloadCall
  | isRunning
  | getModificationTime
  | compare (modificationTime : Nat)
  | returned
  deriving DecidableEq, Repr

/-- `ThreadMain`, at its next step. -/
inductive ReloadThread (Content : Type)
  | load
  | makeRoom (content : Content)
  | setTokens (content : Content)
  /-- the thread has nothing more to do, and has not ended yet -/
  | leave
  deriving DecidableEq, Repr

/-- The file with its modification time, the reloader, and the active tokens. -/
structure UserDictionaryReloader (Content Tokens : Type) where
  file : Option (Content × Nat)
  modifiedAt : Nat := 0
  call : ReloadCall := .returned
  thread : Option (ReloadThread Content) := none
  tokens : Tokens
  deriving DecidableEq, Repr

/-- What `UserDictionary::Load` makes of files, and how it tells that there are very many tokens. -/
structure TokensLoader (Content Tokens : Type) where
  load : Content → Tokens
  size : Tokens → Nat
  empty : Tokens

def kVeryBigUserDictionarySize : Nat := 100000

inductive ReloadAction (Content : Type)
  /-- the file is replaced -/
  | replace (content : Content) (modificationTime : Nat)
  /-- `Reload` is called -/
  | reload
  | call
  /-- the next step of the thread, which may fail to load the file -/
  | thread (succeeds : Bool)
  deriving DecidableEq, Repr

namespace UserDictionaryReloader

variable (loader : TokensLoader Content Tokens) (reloader : UserDictionaryReloader Content Tokens)

/-- The next step of the call of `Reload`. -/
def stepCall : UserDictionaryReloader Content Tokens :=
  match reloader.call with
  | .isRunning =>
      if reloader.thread.isSome then { reloader with call := .returned }
      else { reloader with call := .getModificationTime }
  | .getModificationTime =>
      match reloader.file with
      | none => { reloader with call := .returned }
      | some (_, modificationTime) => { reloader with call := .compare modificationTime }
  | .compare modificationTime =>
      if reloader.modifiedAt = modificationTime then { reloader with call := .returned }
      else
        { reloader with modifiedAt := modificationTime, thread := some .load, call := .returned }
  | .returned => reloader

/-- The next step of the thread. -/
def stepThread (succeeds : Bool) : UserDictionaryReloader Content Tokens :=
  match reloader.thread with
  | none => reloader
  | some .load =>
      match succeeds, reloader.file with
      | true, some (content, _) => { reloader with thread := some (.makeRoom content) }
      | _, _ => { reloader with thread := some .leave }
  | some (.makeRoom content) =>
      { reloader with
        tokens :=
          if loader.size reloader.tokens ≥ kVeryBigUserDictionarySize then loader.empty
          else reloader.tokens
        thread := some (.setTokens content) }
  | some (.setTokens content) =>
      { reloader with tokens := loader.load content, thread := some .leave }
  | some .leave => { reloader with thread := none }

def step : ReloadAction Content → UserDictionaryReloader Content Tokens
  | .replace content modificationTime => { reloader with file := some (content, modificationTime) }
  | .reload => if reloader.call = .returned then { reloader with call := .isRunning } else reloader
  | .call => reloader.stepCall
  | .thread succeeds => reloader.stepThread loader succeeds

end UserDictionaryReloader

/-! ## What is expected of it -/

/-- A reloader, with what has happened to it: the modification times of all files so far; whether
`Reload` was called while no thread was running, without a new file or a failure since then; and
whether a load has succeeded since the modification time was recorded. -/
structure WatchedReloader (Content Tokens : Type) where
  reloader : UserDictionaryReloader Content Tokens
  used : List Nat
  asked : Bool := false
  loaded : Bool := false
  deriving DecidableEq, Repr

namespace WatchedReloader

variable (loader : TokensLoader Content Tokens) (watched : WatchedReloader Content Tokens)

def step (action : ReloadAction Content) : WatchedReloader Content Tokens :=
  let next := watched.reloader.step loader action
  match action with
  | .replace _ modificationTime => ⟨next, modificationTime :: watched.used, false, watched.loaded⟩
  | .reload =>
      let starts := watched.reloader.call = .returned ∧ watched.reloader.thread.isNone
      ⟨next, watched.used, watched.asked || starts, watched.loaded⟩
  | .call =>
      let records := watched.reloader.modifiedAt ≠ next.modifiedAt
      ⟨next, watched.used, watched.asked, watched.loaded && !records⟩
  | .thread succeeds =>
      match watched.reloader.thread with
      | some .load => ⟨next, watched.used, watched.asked && succeeds, watched.loaded⟩
      | some (.setTokens _) => ⟨next, watched.used, watched.asked, true⟩
      | _ => ⟨next, watched.used, watched.asked, watched.loaded⟩

/-- A reloader at its start. -/
def start (file : Option (Content × Nat)) (tokens : Tokens) : WatchedReloader Content Tokens where
  reloader := { file := file, tokens := tokens }
  used := (file.map Prod.snd).toList

/-- **No update is missed**: after a call of `Reload`, and after the load that it may have started,
the active tokens are those of the file. -/
def Current : Prop :=
  watched.asked = true → watched.reloader.call = .returned → watched.reloader.thread = none →
    ∀ content modificationTime, watched.reloader.file = some (content, modificationTime) →
      watched.reloader.tokens = loader.load content

/-- Each file has a new modification time. -/
def NewTime : ReloadAction Content → Prop
  | .replace _ modificationTime => modificationTime ∉ watched.used
  | _ => True

/-- The modification time of the file is the recorded one. -/
def isRecorded : Bool :=
  match watched.reloader.file with
  | some (_, modificationTime) => modificationTime = watched.reloader.modifiedAt
  | none => false

/-- `Reload` is not called, while no thread is running, for a file whose modification time has been
recorded although no load has succeeded since. -/
def Heeds : ReloadAction Content → Prop
  | .reload =>
      watched.reloader.thread.isNone = true → watched.isRecorded = true → watched.loaded = true
  | _ => True

/-! ## Invariants -/

/-- What holds after a call of `Reload`, as long as it is asked for: the call has recorded the
modification time of the file, unless it is still going on, and a load has succeeded, unless it is
still going on. -/
def Promise (modificationTime : Nat) : Prop :=
  let recorded := modificationTime = watched.reloader.modifiedAt
  let done := watched.reloader.thread = none ∨ watched.reloader.thread = some .leave →
    watched.loaded = true
  match watched.reloader.call with
  | .isRunning => (recorded → done) ∧ (watched.reloader.thread.isSome = true → recorded)
  | .getModificationTime => recorded → done
  | .compare t => t = modificationTime ∧ (recorded → done)
  | .returned => recorded ∧ done

structure Sound : Prop where
  file : ∀ content t, watched.reloader.file = some (content, t) → t ∈ watched.used
  compare : ∀ t, watched.reloader.call = .compare t → t ∈ watched.used
  recorded : watched.reloader.modifiedAt ∈ watched.used ∨
    watched.loaded = false ∧ watched.reloader.thread = none
  idle : watched.reloader.call ≠ .isRunning → watched.reloader.call ≠ .returned →
    watched.reloader.thread = none
  reading : ∀ content', watched.reloader.thread = some (.makeRoom content') ∨
      watched.reloader.thread = some (.setTokens content') →
    ∀ content t, watched.reloader.file = some (content, t) → t = watched.reloader.modifiedAt →
      content' = content
  loading : watched.loaded = true →
    watched.reloader.thread = none ∨ watched.reloader.thread = some .leave
  tokens : watched.loaded = true →
    ∀ content t, watched.reloader.file = some (content, t) → t = watched.reloader.modifiedAt →
      watched.reloader.tokens = loader.load content
  promise : watched.asked = true →
    ∀ content t, watched.reloader.file = some (content, t) → watched.Promise t

theorem Sound.isCurrent (sound : watched.Sound loader) : watched.Current loader := by
  intro asked returned ended content t file
  have promise := sound.promise asked content t file
  rw [Promise, returned] at promise
  exact sound.tokens (promise.2 (.inl ended)) content t file promise.1

/-! ## What one action does -/

section Steps

variable {loader : TokensLoader Content Tokens} {watched : WatchedReloader Content Tokens}

/-- A modification time that is in use has been recorded, once something was loaded. -/
theorem Sound.not_recorded (sound : watched.Sound loader) {t : Nat} (new : t ∉ watched.used)
    (active : watched.loaded = true ∨ watched.reloader.thread ≠ none) :
    t ≠ watched.reloader.modifiedAt := by
  rintro rfl
  rcases sound.recorded with member | ⟨unloaded, none⟩
  · exact new member
  · rcases active with loaded | some_
    · exact absurd (loaded.symm.trans unloaded) (by simp)
    · exact some_ none

theorem sound_replace (sound : watched.Sound loader) {content : Content} {t : Nat}
    (new : t ∉ watched.used) : (watched.step loader (.replace content t)).Sound loader where
  file := by
    intro _ _ there
    cases there
    exact List.mem_cons_self ..
  compare := fun t' there => List.mem_cons_of_mem _ (sound.compare t' there)
  recorded := sound.recorded.imp_left (List.mem_cons_of_mem _)
  idle := sound.idle
  reading := by
    intro content' reads _ _ there same
    cases there
    refine absurd same (sound.not_recorded new (.inr fun none => ?_))
    have reads' : watched.reloader.thread = some (.makeRoom content') ∨
        watched.reloader.thread = some (.setTokens content') := reads
    rw [none] at reads'
    rcases reads' with wrong | wrong <;> cases wrong
  loading := sound.loading
  tokens := by
    intro loaded _ _ there same
    cases there
    exact absurd same (sound.not_recorded new (.inl loaded))
  promise := fun wrong => absurd wrong Bool.false_ne_true

theorem sound_reload (sound : watched.Sound loader) (heeds : watched.Heeds .reload) :
    (watched.step loader .reload).Sound loader := by
  by_cases returned : watched.reloader.call = .returned
  · have next : watched.step loader .reload = { watched with
        reloader := { watched.reloader with call := .isRunning }
        asked := watched.asked || watched.reloader.thread.isNone } := by
      simp only [step, UserDictionaryReloader.step, returned, if_true, true_and, Bool.decide_eq_true]
    rw [next]
    refine ⟨sound.file, fun _ there => (by cases there), sound.recorded, fun wrong => absurd rfl wrong,
      sound.reading, sound.loading, sound.tokens, fun asked content t file => ?_⟩
    rw [Bool.or_eq_true] at asked
    rcases asked with before | ended
    · have promise := sound.promise before content t file
      rw [Promise, returned] at promise
      exact ⟨fun _ => promise.2, fun _ => promise.1⟩
    · refine ⟨fun recorded _ => heeds ended ?_, fun runs => ?_⟩
      · rw [isRecorded, show watched.reloader.file = some (content, t) from file]
        exact decide_eq_true recorded
      · have isNone : watched.reloader.thread = none := Option.isNone_iff_eq_none.1 ended
        have isSome : watched.reloader.thread.isSome = true := runs
        rw [isNone] at isSome
        cases isSome
  · have same : watched.step loader .reload = watched := by
      simp [step, UserDictionaryReloader.step, returned]
    rw [same]
    exact sound

theorem sound_call (sound : watched.Sound loader) : (watched.step loader .call).Sound loader := by
  cases call : watched.reloader.call with
  | returned =>
      have same : watched.step loader .call = watched := by
        simp [step, UserDictionaryReloader.step, UserDictionaryReloader.stepCall, call]
      rw [same]
      exact sound
  | isRunning =>
      by_cases runs : watched.reloader.thread.isSome = true
      · have next : watched.step loader .call =
            { watched with reloader := { watched.reloader with call := .returned } } := by
          simp [step, UserDictionaryReloader.step, UserDictionaryReloader.stepCall, call, runs]
        rw [next]
        refine ⟨sound.file, fun _ there => (by cases there), sound.recorded,
          fun _ wrong => absurd rfl wrong, sound.reading, sound.loading, sound.tokens,
          fun asked content t file => ?_⟩
        have promise := sound.promise asked content t file
        rw [Promise, call] at promise
        exact ⟨promise.2 runs, promise.1 (promise.2 runs)⟩
      · have next : watched.step loader .call =
            { watched with reloader := { watched.reloader with call := .getModificationTime } } := by
          simp [step, UserDictionaryReloader.step, UserDictionaryReloader.stepCall, call, runs]
        rw [next]
        refine ⟨sound.file, fun _ there => (by cases there), sound.recorded, fun _ _ => ?_,
          sound.reading, sound.loading, sound.tokens, fun asked content t file => ?_⟩
        · exact Option.not_isSome_iff_eq_none.1 runs
        · have promise := sound.promise asked content t file
          rw [Promise, call] at promise
          exact promise.1
  | getModificationTime =>
      have none : watched.reloader.thread = none := sound.idle (by simp [call]) (by simp [call])
      cases file : watched.reloader.file with
      | none =>
          have next : watched.step loader .call =
              { watched with reloader := { watched.reloader with call := .returned } } := by
            simp [step, UserDictionaryReloader.step, UserDictionaryReloader.stepCall, call, file]
          rw [next]
          refine ⟨sound.file, fun _ there => (by cases there), sound.recorded,
            fun _ wrong => absurd rfl wrong, sound.reading, sound.loading, sound.tokens,
            fun _ content t there => ?_⟩
          cases file.symm.trans there
      | some entry =>
          obtain ⟨content, t⟩ := entry
          have next : watched.step loader .call =
              { watched with reloader := { watched.reloader with call := .compare t } } := by
            simp [step, UserDictionaryReloader.step, UserDictionaryReloader.stepCall, call, file]
          rw [next]
          refine ⟨sound.file, fun _ there => ?_, sound.recorded, fun _ _ => none, sound.reading,
            sound.loading, sound.tokens, fun asked content' t' there => ?_⟩
          · cases there
            exact sound.file content t file
          · cases file.symm.trans there
            have promise := sound.promise asked content t file
            rw [Promise, call] at promise
            exact ⟨rfl, promise⟩
  | compare t =>
      have none : watched.reloader.thread = none := sound.idle (by simp [call]) (by simp [call])
      by_cases recorded : watched.reloader.modifiedAt = t
      · have next : watched.step loader .call =
            { watched with reloader := { watched.reloader with call := .returned } } := by
          simp [step, UserDictionaryReloader.step, UserDictionaryReloader.stepCall, call, recorded]
        rw [next]
        refine ⟨sound.file, fun _ there => (by cases there), sound.recorded,
          fun _ wrong => absurd rfl wrong, sound.reading, sound.loading, sound.tokens,
          fun asked content t' there => ?_⟩
        have promise := sound.promise asked content t' there
        rw [Promise, call] at promise
        obtain ⟨rfl, done⟩ := promise
        exact ⟨recorded.symm, done recorded.symm⟩
      · have next : watched.step loader .call = { watched with
            reloader := { watched.reloader with modifiedAt := t, thread := some .load, call := .returned }
            loaded := false } := by
          simp [step, UserDictionaryReloader.step, UserDictionaryReloader.stepCall, call, recorded]
        rw [next]
        refine ⟨sound.file, fun _ there => (by cases there), .inl (sound.compare t call),
          fun _ wrong => absurd rfl wrong, fun _ reads => ?_, fun wrong => absurd wrong Bool.false_ne_true,
          fun wrong => absurd wrong Bool.false_ne_true, fun asked content t' there => ?_⟩
        · rcases reads with wrong | wrong <;> cases wrong
        · have promise := sound.promise asked content t' there
          rw [Promise, call] at promise
          refine ⟨promise.1.symm, fun ended => ?_⟩
          rcases ended with wrong | wrong <;> cases wrong

/-- A step of the thread leaves alone what a call has seen. -/
theorem promise_thread {next : WatchedReloader Content Tokens} {t : Nat} (promise : watched.Promise t)
    (modifiedAt : next.reloader.modifiedAt = watched.reloader.modifiedAt)
    (call : next.reloader.call = watched.reloader.call)
    (runs : next.reloader.thread.isSome = true → watched.reloader.thread.isSome = true)
    (done : (watched.reloader.thread = none ∨ watched.reloader.thread = some .leave →
        watched.loaded = true) →
      (next.reloader.thread = none ∨ next.reloader.thread = some .leave → next.loaded = true)) :
    next.Promise t := by
  rw [Promise, call, modifiedAt]
  rw [Promise] at promise
  cases there : watched.reloader.call with
  | isRunning =>
      rw [there] at promise
      exact ⟨fun recorded => done (promise.1 recorded), fun some_ => promise.2 (runs some_)⟩
  | getModificationTime =>
      rw [there] at promise
      exact fun recorded => done (promise recorded)
  | compare time =>
      rw [there] at promise
      exact ⟨promise.1, fun recorded => done (promise.2 recorded)⟩
  | returned =>
      rw [there] at promise
      exact ⟨promise.1, done promise.2⟩

theorem sound_thread (sound : watched.Sound loader) (succeeds : Bool) :
    (watched.step loader (.thread succeeds)).Sound loader := by
  -- The thread runs only while no call has got beyond its first test.
  have idle : ∀ {thread}, watched.reloader.thread = some thread → watched.reloader.call ≠ .isRunning →
      watched.reloader.call ≠ .returned → False := by
    intro thread there first second
    cases there.symm.trans (sound.idle first second)
  cases thread : watched.reloader.thread with
  | none =>
      have same : watched.step loader (.thread succeeds) = watched := by
        simp [step, UserDictionaryReloader.step, UserDictionaryReloader.stepThread, thread]
      rw [same]
      exact sound
  | some place =>
      have recorded : watched.reloader.modifiedAt ∈ watched.used :=
        sound.recorded.resolve_right fun both => by cases thread.symm.trans both.2
      cases place with
      | load =>
          have unloaded : watched.loaded = false := by
            refine Bool.eq_false_of_not_eq_true fun loaded => ?_
            rcases sound.loading loaded with wrong | wrong <;> cases thread.symm.trans wrong
          by_cases reads : succeeds = true ∧ ∃ content t, watched.reloader.file = some (content, t)
          · obtain ⟨rfl, content, t, file⟩ := reads
            have next : watched.step loader (.thread true) = { watched with
                reloader := { watched.reloader with thread := some (.makeRoom content) } } := by
              simp [step, UserDictionaryReloader.step, UserDictionaryReloader.stepThread, thread, file]
            rw [next]
            refine ⟨sound.file, sound.compare, .inl recorded, fun first second =>
              absurd trivial fun _ => idle thread first second, fun content' same content'' t' there _ => ?_,
              fun loaded => absurd loaded (by simp [unloaded]),
              fun loaded => absurd loaded (by simp [unloaded]), fun asked content' t' there => ?_⟩
            · cases file.symm.trans there
              rcases same with same | same
              · cases same
                rfl
              · cases same
            · refine promise_thread (sound.promise asked content' t' there) rfl rfl (fun _ => by simp [thread])
                fun _ ended => ?_
              rcases ended with wrong | wrong <;> cases wrong
          · have next : ∃ asked, watched.step loader (.thread succeeds) = { watched with
                reloader := { watched.reloader with thread := some .leave }, asked := asked } ∧
                  (asked = true → watched.reloader.file = none) := by
              cases file : watched.reloader.file with
              | none =>
                  refine ⟨watched.asked && succeeds, ?_, fun _ => rfl⟩
                  cases succeeds <;>
                    simp [step, UserDictionaryReloader.step, UserDictionaryReloader.stepThread, thread,
                      file]
              | some entry =>
                  cases succeeds with
                  | true => exact absurd ⟨rfl, entry.1, entry.2, file⟩ reads
                  | false =>
                      refine ⟨false, ?_, fun wrong => absurd wrong Bool.false_ne_true⟩
                      simp [step, UserDictionaryReloader.step, UserDictionaryReloader.stepThread, thread]
            obtain ⟨asked, same, missing⟩ := next
            rw [same]
            refine ⟨sound.file, sound.compare, .inl recorded, fun first second =>
              absurd trivial fun _ => idle thread first second, fun _ wrong => ?_,
              fun _ => .inr rfl, fun loaded => absurd loaded (by simp [unloaded]),
              fun isAsked content t there => ?_⟩
            · rcases wrong with wrong | wrong <;> cases wrong
            · cases (missing isAsked).symm.trans there
      | makeRoom content =>
          have unloaded : watched.loaded = false := by
            refine Bool.eq_false_of_not_eq_true fun loaded => ?_
            rcases sound.loading loaded with wrong | wrong <;> cases thread.symm.trans wrong
          have next : ∃ tokens, watched.step loader (.thread succeeds) = { watched with
              reloader := { watched.reloader with
                tokens := tokens, thread := some (.setTokens content) } } := by
            refine ⟨(watched.step loader (.thread succeeds)).reloader.tokens, ?_⟩
            simp only [step, UserDictionaryReloader.step, UserDictionaryReloader.stepThread, thread]
          obtain ⟨tokens, same⟩ := next
          rw [same]
          refine ⟨sound.file, sound.compare, .inl recorded, fun first second =>
            absurd trivial fun _ => idle thread first second, fun content' reads => ?_,
            fun loaded => absurd loaded (by simp [unloaded]),
            fun loaded => absurd loaded (by simp [unloaded]), fun asked content' t' there => ?_⟩
          · rcases reads with wrong | reads
            · cases wrong
            · cases reads
              exact sound.reading content (.inl thread)
          · refine promise_thread (sound.promise asked content' t' there) rfl rfl (fun _ => by simp [thread])
              fun _ ended => ?_
            rcases ended with wrong | wrong <;> cases wrong
      | setTokens content =>
          have next : watched.step loader (.thread succeeds) = { watched with
              reloader := { watched.reloader with
                tokens := loader.load content, thread := some .leave }
              loaded := true } := by
            simp only [step, UserDictionaryReloader.step, UserDictionaryReloader.stepThread, thread]
          rw [next]
          refine ⟨sound.file, sound.compare, .inl recorded, fun first second =>
            absurd trivial fun _ => idle thread first second, fun _ wrong => ?_, fun _ => .inr rfl,
            fun _ content' t' there same => ?_, fun asked content' t' there => ?_⟩
          · rcases wrong with wrong | wrong <;> cases wrong
          · exact congrArg _ (sound.reading content (.inr thread) content' t' there same)
          · exact promise_thread (sound.promise asked content' t' there) rfl rfl
              (fun _ => by simp [thread]) fun _ _ => rfl
      | leave =>
          have next : watched.step loader (.thread succeeds) = { watched with
              reloader := { watched.reloader with thread := none } } := by
            simp only [step, UserDictionaryReloader.step, UserDictionaryReloader.stepThread, thread]
          rw [next]
          refine ⟨sound.file, sound.compare, .inl recorded, fun _ _ => rfl, fun _ wrong => ?_,
            fun _ => .inl rfl, sound.tokens, fun asked content' t' there => ?_⟩
          · rcases wrong with wrong | wrong <;> cases wrong
          · exact promise_thread (sound.promise asked content' t' there) rfl rfl
              (fun wrong => by cases wrong) fun done _ => done (.inr thread)

/-- **What one action does.** -/
theorem sound_step (action : ReloadAction Content) (new : watched.NewTime action)
    (heeds : watched.Heeds action) (sound : watched.Sound loader) :
    (watched.step loader action).Sound loader := by
  cases action with
  | replace content t => exact sound_replace sound new
  | reload => exact sound_reload sound heeds
  | call => exact sound_call sound
  | thread succeeds => exact sound_thread sound succeeds

variable (loader)

theorem sound_start (file : Option (Content × Nat)) (tokens : Tokens) :
    (start file tokens).Sound loader where
  file := by
    intro content t there
    have isFile : file = some (content, t) := there
    rw [start, isFile]
    exact List.mem_singleton_self _
  compare := fun _ there => by cases there
  recorded := .inr ⟨rfl, rfl⟩
  idle := fun _ _ => rfl
  reading := fun _ reads => by rcases reads with wrong | wrong <;> cases wrong
  loading := fun wrong => absurd wrong Bool.false_ne_true
  tokens := fun wrong => absurd wrong Bool.false_ne_true
  promise := fun wrong => absurd wrong Bool.false_ne_true

/-- **No update is missed** in a run where each file has a new modification time, and where `Reload`
is not called for a modification time that was recorded without a load that succeeded. -/
theorem current (file : Option (Content × Nat)) (tokens : Tokens)
    (actions : List (ReloadAction Content))
    (along : AllAlong (step loader)
      (fun watched action => watched.NewTime action ∧ watched.Heeds action) (start file tokens) actions) :
    (actions.foldl (step loader) (start file tokens)).Current loader := by
  refine Sound.isCurrent loader _ ?_
  exact foldl_preserves (fun _ action both => sound_step action both.1 both.2) along
    (sound_start loader file tokens)

end Steps

/-! ## A load that fails -/

section Example

instance : (watched : WatchedReloader Content Tokens) → (action : ReloadAction Content) →
    Decidable (watched.NewTime action)
  | _, .replace _ _ => inferInstanceAs (Decidable (_ ∉ _))
  | _, .reload => inferInstanceAs (Decidable True)
  | _, .call => inferInstanceAs (Decidable True)
  | _, .thread _ => inferInstanceAs (Decidable True)

instance : (watched : WatchedReloader Content Tokens) → (action : ReloadAction Content) →
    Decidable (watched.Heeds action)
  | _, .reload => inferInstanceAs (Decidable (_ → _))
  | _, .replace _ _ => inferInstanceAs (Decidable True)
  | _, .call => inferInstanceAs (Decidable True)
  | _, .thread _ => inferInstanceAs (Decidable True)

/-- The tokens of a file are the file itself. -/
def sameTokens : TokensLoader Nat Nat := ⟨id, fun _ => 1, 0⟩

/-- `Reload` is called, and what it starts goes on to its end. -/
def reloadOnce (succeeds : Bool) : List (ReloadAction Nat) :=
  .reload :: List.replicate 3 .call ++ List.replicate 4 (.thread succeeds)

/-- A file that is loaded, replaced, and loaded again. -/
theorem current_replaced :
    ((reloadOnce true ++ .replace 8 2 :: reloadOnce true).foldl (step sameTokens)
      (start (some (7, 1)) 0)).Current sameTokens :=
  current sameTokens (some (7, 1)) 0 _ (by decide)

/-- **The file is not loaded any more** after its load has failed. -/
theorem not_current_afterFailure :
    AllAlong (step sameTokens) NewTime (start (some (7, 1)) 0)
        (reloadOnce false ++ reloadOnce true) ∧
      ¬ ((reloadOnce false ++ reloadOnce true).foldl (step sameTokens)
        (start (some (7, 1)) 0)).Current sameTokens := by
  constructor
  · decide
  · intro current
    exact absurd (current rfl rfl rfl 7 1 rfl) (by decide)

end Example

end WatchedReloader

end Mozkey.Dictionary
