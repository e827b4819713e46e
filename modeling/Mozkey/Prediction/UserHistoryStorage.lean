import Mozkey.Base.ByteString
import Mozkey.Lib.LruMap
import Mozkey.Lib.Run

/-!
# The user history storage and its file

The storage keeps the learned entries in a bounded map in order of use.  The main
thread changes them, always inside the mutex, and every such update first marks
the storage as needing a save.  The syncer thread saves: it tests the mark, copies
the entries inside the mutex, writes the file, and at last clears the mark.  Only
the copy is made inside the mutex, so an update can come between any two of the
syncer's steps after it.

The model is the transition system of both threads.  An update is split where the
syncer can come between: the mark is set when the update starts, the entries
change while it holds the mutex, and then it ends.
-/

namespace Mozkey.Prediction

open Mozkey.Lib

/-! ## Entries -/

/-- `UserHistory::Entry`, without its deprecated fields. -/
structure Entry where
  key : ByteString := []
  value : ByteString := []
  description : ByteString := []
  suggestionFreq : UInt32 := 0
  shownFreq : UInt32 := 0
  lastAccessTime : UInt64 := 0
  nextEntryFps : List UInt64 := []
  removed : Bool := false
  innerSegmentBoundary : List UInt32 := []
  allowPartialMatch : Bool := false
  attributes : UInt32 := 0
  deriving DecidableEq, Repr

def kLruCacheSize : Nat := 10000

/-- `UserHistoryStorage::DicCache`. -/
abbrev DicCache := LruMap UInt64 Entry kLruCacheSize

/-- The entries in the order of the file: the latest used entry is the last. -/
def DicCache.toProto (dic : DicCache) : List Entry :=
  (dic.values.take kLruCacheSize).reverse

/-! ## Updating and saving -/

/-- How far the syncer is in `UserHistoryStorage::Save`. -/
inductive SaveStage
  /-- No save is going on. -/
  | idle
  /-- The mark was found set. -/
  | needed
  /-- The entries are copied. -/
  | copied (proto : List Entry)
  /-- The file is written. -/
  | written (proto : List Entry)
  deriving DecidableEq, Repr

/-- The state of both threads.  `file` is the saved file, `none` when there is
none; `saved` says that some save has cleared the mark. -/
structure SyncState where
  dic : DicCache
  needsSync : Bool
  file : Option (List Entry)
  stage : SaveStage := .idle
  inUpdate : Bool := false
  saved : Bool := false

/-- What one thread does next.  `Insert`, `MutableLookup` and `Erase` start with
`beginUpdate` and hold the mutex until `endUpdate`. -/
inductive SyncStep : SyncState → SyncState → Prop
  | beginUpdate {s : SyncState} (free : s.inUpdate = false) :
      SyncStep s { s with inUpdate := true, needsSync := true }
  | insert {s : SyncState} (fp : UInt64) (entry : Entry) (held : s.inUpdate = true) :
      SyncStep s { s with dic := s.dic.insert fp entry }
  | update {s : SyncState} (fp : UInt64) (change : Entry → Entry) (held : s.inUpdate = true) :
      SyncStep s { s with dic := s.dic.modify fp change }
  | erase {s : SyncState} (fp : UInt64) (held : s.inUpdate = true) :
      SyncStep s { s with dic := s.dic.erase fp }
  | endUpdate {s : SyncState} (held : s.inUpdate = true) :
      SyncStep s { s with inUpdate := false }
  | saveStart {s : SyncState} (idle : s.stage = .idle) (needs : s.needsSync = true) :
      SyncStep s { s with stage := .needed }
  | saveCopy {s : SyncState} (needed : s.stage = .needed) (free : s.inUpdate = false) :
      SyncStep s { s with stage := .copied s.dic.toProto }
  /-- Without entries the file is removed and the mark stays. -/
  | saveNothing {s : SyncState} (copied : s.stage = .copied []) :
      SyncStep s { s with file := none, stage := .idle }
  | saveFile {s : SyncState} {proto : List Entry} (copied : s.stage = .copied proto)
      (some_ : proto ≠ []) : SyncStep s { s with file := some proto, stage := .written proto }
  | saveClear {s : SyncState} {proto : List Entry} (written : s.stage = .written proto) :
      SyncStep s { s with needsSync := false, stage := .idle, saved := true }

/-- A storage before its first save: any entries, any mark, any file. -/
structure SyncState.Initial (s : SyncState) : Prop where
  idle : s.stage = .idle
  free : s.inUpdate = false
  unsaved : s.saved = false

/-- Nothing is lost: when the mark is clear after a save, the file holds the
current entries. -/
def SyncState.FileCurrent (s : SyncState) : Prop :=
  s.saved = true → s.needsSync = false → s.file = some s.dic.toProto

/-! ## An update between the copy and the mark -/

/-- The entries are copied and the mark is not yet cleared. -/
def SaveStage.Open : SaveStage → Prop
  | .idle | .needed => False
  | .copied _ | .written _ => True

/-- While a save is between its copy and the clearing of the mark, no update
changes the entries, and the mark is not cleared in the middle of an update. -/
def UndisturbedSave (s t : SyncState) : Prop :=
  s.stage.Open → t.dic.toProto = s.dic.toProto ∧ (t.needsSync = false → s.inUpdate = false)

/-- The copy, once made, is current, and so is the file while the mark is clear. -/
structure SyncState.Synced (s : SyncState) : Prop where
  copied : ∀ proto, s.stage = .copied proto → proto = s.dic.toProto
  written : ∀ proto, s.stage = .written proto → s.file = some s.dic.toProto
  marked : s.stage ≠ .idle → s.needsSync = true
  updating : s.inUpdate = true → s.saved = true → s.needsSync = true
  current : s.FileCurrent

theorem SyncState.Initial.synced {s : SyncState} (initial : s.Initial) : s.Synced where
  copied := by simp [initial.idle]
  written := by simp [initial.idle]
  marked := fun busy => absurd initial.idle busy
  updating := fun held => by simp [initial.free] at held
  current := fun saved => by simp [initial.unsaved] at saved

namespace SyncState.Synced

/-- A changed map keeps what holds, as long as the copy of an open save stays
current. -/
theorem changeDic {s : SyncState} (synced : s.Synced) (held : s.inUpdate = true) {dic : DicCache}
    (same : s.stage.Open → dic.toProto = s.dic.toProto) : Synced { s with dic := dic } where
  copied proto copied := by
    have open_ : s.stage.Open := by rw [show s.stage = .copied proto from copied]; trivial
    exact (synced.copied proto copied).trans (same open_).symm
  written proto written := by
    have open_ : s.stage.Open := by rw [show s.stage = .written proto from written]; trivial
    exact (synced.written proto written).trans (congrArg some (same open_).symm)
  marked := synced.marked
  updating := synced.updating
  current := by
    intro saved clear
    exact absurd (synced.updating held saved) (by rw [show s.needsSync = false from clear]; decide)

/-- A mark that is set leaves nothing to show about the file. -/
theorem current_of_marked {s : SyncState} (marked : s.needsSync = true) : s.FileCurrent := by
  intro _ clear
  exact absurd marked (by rw [clear]; decide)

/-- An undisturbed step keeps the copy and the file current. -/
theorem step {s t : SyncState} (step : SyncStep s t) (undisturbed : UndisturbedSave s t)
    (synced : s.Synced) : t.Synced := by
  cases step with
  | beginUpdate free =>
      exact ⟨synced.copied, synced.written, fun _ => rfl, fun _ _ => rfl, current_of_marked rfl⟩
  | insert fp entry held => exact synced.changeDic held fun open_ => (undisturbed open_).1
  | update fp change held => exact synced.changeDic held fun open_ => (undisturbed open_).1
  | erase fp held => exact synced.changeDic held fun open_ => (undisturbed open_).1
  | endUpdate held =>
      exact ⟨synced.copied, synced.written, synced.marked, fun held => Bool.noConfusion held,
        synced.current⟩
  | saveStart idle needs =>
      exact ⟨fun _ copied => SaveStage.noConfusion copied,
        fun _ written => SaveStage.noConfusion written, fun _ => needs, synced.updating,
        synced.current⟩
  | saveCopy needed free =>
      have marked : s.needsSync = true := synced.marked (by rw [needed]; exact SaveStage.noConfusion)
      refine ⟨?_, fun _ written => SaveStage.noConfusion written, fun _ => marked,
        synced.updating, synced.current⟩
      intro proto copied
      cases copied
      rfl
  | saveNothing copied =>
      have marked : s.needsSync = true := synced.marked (by rw [copied]; exact SaveStage.noConfusion)
      exact ⟨fun _ copied => SaveStage.noConfusion copied,
        fun _ written => SaveStage.noConfusion written, fun busy => absurd rfl busy,
        synced.updating, current_of_marked marked⟩
  | saveFile copied some_ =>
      rename_i proto
      have marked : s.needsSync = true := synced.marked (by rw [copied]; exact SaveStage.noConfusion)
      refine ⟨fun _ copied => SaveStage.noConfusion copied, ?_, fun _ => marked, synced.updating,
        current_of_marked marked⟩
      intro proto' _
      exact congrArg some (synced.copied proto copied)
  | saveClear written =>
      rename_i proto
      have free : s.inUpdate = false := (undisturbed (by rw [written]; trivial)).2 rfl
      refine ⟨fun _ copied => SaveStage.noConfusion copied,
        fun _ written => SaveStage.noConfusion written, fun busy => absurd rfl busy, ?_, ?_⟩
      · intro held
        rw [show s.inUpdate = true from held] at free
        exact Bool.noConfusion free
      · intro _ _
        exact synced.written proto written

end SyncState.Synced

/-- **An undisturbed save loses nothing.**  In every run in which no update changes
the entries between the copy and the clearing of the mark, the file is current in
every state reached. -/
theorem file_current_of_undisturbed {s t : SyncState} (initial : s.Initial)
    (run : RunWhere SyncStep UndisturbedSave s t) : t.FileCurrent := by
  have synced : t.Synced :=
    runWhere_preserves (fun _ _ step undisturbed synced => synced.step step undisturbed) run
      initial.synced
  exact synced.current

/-- One learned entry, not yet saved. -/
def oneEntry : SyncState where
  dic := LruMap.empty.insert 1 { key := [97], value := [98] }
  needsSync := true
  file := none

/-- After an undisturbed save of the entry the file is current. -/
theorem oneEntry_saved : ∃ t, RunWhere SyncStep UndisturbedSave oneEntry t ∧ t.saved = true ∧
    t.needsSync = false ∧ t.file = some [{ key := [97], value := [98] }] ∧ t.FileCurrent := by
  have needed : RunWhere SyncStep UndisturbedSave oneEntry { oneEntry with stage := .needed } :=
    .single ⟨.saveStart rfl rfl, False.elim⟩
  have copied := needed.tail ⟨.saveCopy rfl rfl, False.elim⟩
  have written := copied.tail ⟨.saveFile rfl (List.cons_ne_nil _ _), fun _ => ⟨rfl, fun _ => rfl⟩⟩
  have cleared := written.tail ⟨.saveClear rfl, fun _ => ⟨rfl, fun _ => rfl⟩⟩
  exact ⟨_, cleared, rfl, rfl, rfl, file_current_of_undisturbed ⟨rfl, rfl, rfl⟩ cleared⟩

/-- **A learned entry is lost.**  An entry is inserted after the copy; the save then
clears the mark, and the file lacks the entry. -/
theorem entry_lost : ∃ s t, s.Initial ∧ Relation.ReflTransGen SyncStep s t ∧ ¬ t.FileCurrent := by
  have run := Relation.ReflTransGen.refl (r := SyncStep) (a := oneEntry)
    |>.tail (.saveStart rfl rfl)
    |>.tail (.saveCopy rfl rfl)
    |>.tail (.beginUpdate rfl)
    |>.tail (.insert 2 { key := [99], value := [100] } rfl)
    |>.tail (.endUpdate rfl)
    |>.tail (.saveFile rfl (List.cons_ne_nil _ _))
    |>.tail (.saveClear rfl)
  refine ⟨_, _, ⟨rfl, rfl, rfl⟩, run, ?_⟩
  intro current
  have lengths := congrArg (Option.map List.length) (current rfl rfl)
  revert lengths
  decide

end Mozkey.Prediction
