import Mozkey.Base.ByteString

/-!
# Project snapshots

A project is published in two files, a state file that names the active project and a
file for each project.  The texts of both are validated before anything is taken from
them, and a snapshot is built only when the state file reads the same before and after
the project file.

Parsing JSON and hashing are parameters.
-/

namespace Mozkey.Grimodex

/-! ## Limits -/

def kStateBytes : Nat := 65536
def kProjectBytes : Nat := 16777216
def kProjectEntries : Nat := 20000
def kProjectIdScalars : Nat := 128
def kProjectNameScalars : Nat := 256
def kEntryYomiScalars : Nat := 256
def kEntrySurfaceScalars : Nat := 256
def kEntryIdScalars : Nat := 128
def kProfileScalars : Nat := 400
def kZenzaiConditionScalars : Nat := 200
def kConverterConditionScalars : Nat := 25
def kTimestampBytes : Nat := 64

/-! ## Snapshots -/

inductive DictionaryCategory
  | person | place | noun
  deriving DecidableEq, Repr

structure DictionaryEntryDto where
  yomi : ByteString
  surface : ByteString
  category : DictionaryCategory
  priority : Int
  entryId : ByteString
  deriving DecidableEq, Repr

structure ProjectConditionsDto where
  topic : Option ByteString := none
  style : Option ByteString := none
  preference : Option ByteString := none
  deriving DecidableEq, Repr

structure ProtocolV1Snapshot where
  projectId : ByteString
  projectName : ByteString
  entries : List DictionaryEntryDto
  conditions : ProjectConditionsDto
  stateUpdatedAt : ByteString
  projectGeneratedAt : ByteString
  stateSha256 : ByteString
  projectSha256 : ByteString
  deriving DecidableEq, Repr

/-- `ProtocolV1Snapshot::SemanticallyEquals`: the same but for times and digests. -/
def ProtocolV1Snapshot.SemanticallyEquals (snapshot other : ProtocolV1Snapshot) : Prop :=
  snapshot.projectId = other.projectId ∧ snapshot.projectName = other.projectName ∧
    snapshot.entries = other.entries ∧ snapshot.conditions = other.conditions

instance (snapshot other : ProtocolV1Snapshot) : Decidable (snapshot.SemanticallyEquals other) :=
  inferInstanceAs (Decidable (_ ∧ _ ∧ _ ∧ _))

inductive LoadDiagnostic
  | loaded
  | inactive
  | missingState
  | missingSnapshot
  | invalidState
  | invalidSnapshot
  | stateChangedDuringRead
  deriving DecidableEq, Repr

/-- What a load ends in: a snapshot, or the reason why there is none. -/
structure LoadResult where
  snapshot : Option ProtocolV1Snapshot
  diagnostic : LoadDiagnostic
  loaded : diagnostic = .loaded ↔ snapshot.isSome

def LoadResult.ofSnapshot (snapshot : ProtocolV1Snapshot) : LoadResult where
  snapshot := some snapshot
  diagnostic := .loaded
  loaded := iff_of_true rfl rfl

def LoadResult.failed (diagnostic : LoadDiagnostic) (notLoaded : diagnostic ≠ .loaded) :
    LoadResult where
  snapshot := none
  diagnostic := diagnostic
  loaded := iff_of_false notLoaded Bool.false_ne_true

/-- `LoadResult::IsRetryable`. -/
def LoadResult.isRetryable (result : LoadResult) : Bool :=
  result.diagnostic == .missingSnapshot || result.diagnostic == .stateChangedDuringRead

/-- A retryable result has no snapshot. -/
theorem LoadResult.snapshot_eq_none {result : LoadResult} (retryable : result.isRetryable = true) :
    result.snapshot = none := by
  have notLoaded : result.diagnostic ≠ .loaded := by
    intro isLoaded
    rw [isRetryable, isLoaded] at retryable
    exact Bool.false_ne_true retryable
  rw [Ne, result.loaded, Bool.not_eq_true, Option.isSome_eq_false_iff, Option.isNone_iff_eq_none]
    at notLoaded
  exact notLoaded

/-! ## Texts -/

/-- `IsSafeIdentifier`. -/
def isSafeIdentifier (value : ByteString) (maximum : Nat) : Bool :=
  value != [] && decide (value.length ≤ maximum) && value.all fun c =>
    (0x41 ≤ c && c ≤ 0x5A) || (0x61 ≤ c && c ≤ 0x7A) || (0x30 ≤ c && c ≤ 0x39) || c == 0x2D ||
      c == 0x5F

/-- `DecodeUtf8Scalar`: the first scalar value of a text, and what follows it. -/
def decodeUtf8Scalar : ByteString → Option (Nat × ByteString)
  | [] => none
  | first :: rest =>
      let leading : Option (Nat × Nat × Nat) :=
        if first ≤ 0x7F then some (1, first.toNat, 0)
        else if first &&& 0xE0 = 0xC0 then some (2, (first &&& 0x1F).toNat, 0x80)
        else if first &&& 0xF0 = 0xE0 then some (3, (first &&& 0x0F).toNat, 0x800)
        else if first &&& 0xF8 = 0xF0 then some (4, (first &&& 0x07).toNat, 0x10000)
        else none
      match leading with
      | none => none
      | some (length, bits, minimum) =>
          if length > rest.length + 1 then none
          else
            let continuation := rest.take (length - 1)
            if continuation.all fun c => c &&& 0xC0 == 0x80 then
              let scalar := continuation.foldl (fun acc c => acc * 64 + (c &&& 0x3F).toNat) bits
              if scalar < minimum ∨ scalar > 0x10FFFF ∨ (0xD800 ≤ scalar ∧ scalar ≤ 0xDFFF) then none
              else some (scalar, rest.drop (length - 1))
            else none

/-- The number of scalar values of a text, none of them a control character, and no
more than the maximum. -/
def countScalars (maximum : Nat) : Nat → Nat → ByteString → Option Nat
  | _, count, [] => some count
  | 0, _, _ :: _ => none
  | fuel + 1, count, c :: value =>
      match decodeUtf8Scalar (c :: value) with
      | none => none
      | some (scalar, rest) =>
          if scalar ≤ 0x1F ∨ (0x7F ≤ scalar ∧ scalar ≤ 0x9F) then none
          else if count + 1 > maximum then none
          else countScalars maximum fuel (count + 1) rest

/-- `ValidText`. -/
def validText (value : ByteString) (minimum maximum : Nat) : Bool :=
  match countScalars maximum value.length 0 value with
  | none => false
  | some count => decide (minimum ≤ count)

/-- What is left of a text behind its first scalar values, `none` when it is not valid. -/
def dropScalars : Nat → ByteString → Option ByteString
  | 0, value => some value
  | _ + 1, [] => some []
  | count + 1, c :: value =>
      match decodeUtf8Scalar (c :: value) with
      | none => none
      | some (_, rest) => dropScalars count rest

/-- `TruncateUtf8`. -/
def truncateUtf8 (value : ByteString) (maximum : Nat) : ByteString :=
  match dropScalars maximum value with
  | none => []
  | some rest => value.take (value.length - rest.length)

/-- `Digits`. -/
def digits (value : ByteString) (first last : Nat) : Bool :=
  decide (last ≤ value.length) &&
    ((value.take last).drop first).all fun c => 0x30 ≤ c && c ≤ 0x39

/-- `Number`, of digits. -/
def number (value : ByteString) (first last : Nat) : Nat :=
  ((value.take last).drop first).foldl (fun result c => result * 10 + (c.toNat - 0x30)) 0

/-- `DaysInMonth`. -/
def daysInMonth (year month : Nat) : Nat :=
  if month = 2 then if year % 4 = 0 ∧ (year % 100 ≠ 0 ∨ year % 400 = 0) then 29 else 28
  else if month = 4 ∨ month = 6 ∨ month = 9 ∨ month = 11 then 30
  else 31

/-- The zone of a time, at the end of the text. -/
def validZone (value : ByteString) (zone : Nat) : Bool :=
  if zone < value.length ∧ byteAt value zone = 0x5A then zone + 1 == value.length
  else
    zone + 6 == value.length && (byteAt value zone == 0x2B || byteAt value zone == 0x2D) &&
      byteAt value (zone + 3) == 0x3A && digits value (zone + 1) (zone + 3) &&
      digits value (zone + 4) (zone + 6) && decide (number value (zone + 1) (zone + 3) ≤ 23) &&
      decide (number value (zone + 4) (zone + 6) ≤ 59)

/-- `ValidTimestamp`. -/
def validTimestamp (value : ByteString) : Bool :=
  if value.length < 20 ∨ value.length > kTimestampBytes then false
  else if !(byteAt value 4 == 0x2D && byteAt value 7 == 0x2D && byteAt value 10 == 0x54 &&
      byteAt value 13 == 0x3A && byteAt value 16 == 0x3A && digits value 0 4 && digits value 5 7 &&
      digits value 8 10 && digits value 11 13 && digits value 14 16 && digits value 17 19) then false
  else if value.any fun c => 0x7F < c then false
  else
    let fraction := ((value.drop 20).takeWhile fun c => 0x30 ≤ c && c ≤ 0x39).length
    let hasFraction := byteAt value 19 == 0x2E
    if hasFraction && (fraction < 1 || fraction > 9) then false
    else if !validZone value (if hasFraction then 20 + fraction else 19) then false
    else
      let month := number value 5 7
      let day := number value 8 10
      decide (1 ≤ month) && decide (month ≤ 12) && decide (1 ≤ day) &&
        decide (day ≤ daysInMonth (number value 0 4) month) && decide (number value 11 13 ≤ 23) &&
        decide (number value 14 16 ≤ 59) && decide (number value 17 19 ≤ 59)

/-! ## The files -/

/-- A value of JSON, as far as it is told apart. -/
inductive JsonValue
  | null
  | string (value : ByteString)
  | other
  deriving DecidableEq, Repr

structure StateJson where
  formatVersion : Nat
  activeProjectId : JsonValue
  updatedAt : ByteString

structure DictionaryEntryJson where
  yomi : ByteString
  surface : ByteString
  category : ByteString
  priority : Int
  entryId : ByteString

structure ZenzaiContextJson where
  topic : ByteString
  style : JsonValue
  preference : JsonValue

structure ProjectJson where
  formatVersion : Nat
  projectId : ByteString
  projectName : ByteString
  generatedAt : ByteString
  entries : List DictionaryEntryJson
  profile : Option ByteString
  zenzaiContext : Option ZenzaiContextJson

/-- What loading asks of the rest of the program. -/
structure Modules where
  /-- `HasJsonField`. -/
  hasJsonField : ByteString → ByteString → Bool
  /-- `ParseJson` of a state. -/
  parseState : ByteString → Option StateJson
  /-- `ParseJson` of a project. -/
  parseProject : ByteString → Option ProjectJson
  sha256 : ByteString → ByteString

/-- `NullableString`. -/
def nullableString : JsonValue → Option (Option ByteString)
  | .null => some none
  | .string value => some (some value)
  | .other => none

/-- `ValidateState`: the active project, if there is one. -/
def validateState (state : StateJson) : Option (Option ByteString) :=
  if state.formatVersion ≠ 1 ∨ validTimestamp state.updatedAt = false then none
  else
    match nullableString state.activeProjectId with
    | none => none
    | some none => some none
    | some (some projectId) =>
        if isSafeIdentifier projectId kProjectIdScalars then some (some projectId) else none

/-- `ParseCategory`. -/
def parseCategory (category : ByteString) : Option DictionaryCategory :=
  if category = ascii "person" then some .person
  else if category = ascii "place" then some .place
  else if category = ascii "noun" then some .noun
  else none

/-- One entry of a project. -/
def validateEntry (entry : DictionaryEntryJson) : Option DictionaryEntryDto :=
  match parseCategory entry.category with
  | none => none
  | some category =>
      if validText entry.yomi 1 kEntryYomiScalars && validText entry.surface 1 kEntrySurfaceScalars &&
          decide (1 ≤ entry.priority) && decide (entry.priority ≤ 3) &&
          isSafeIdentifier entry.entryId kEntryIdScalars then
        some ⟨entry.yomi, entry.surface, category, entry.priority, entry.entryId⟩
      else none

def truncateCondition (value : ByteString) : ByteString :=
  truncateUtf8 value kConverterConditionScalars

/-- The conditions of a project. -/
def validateConditions (project : ProjectJson) : Option ProjectConditionsDto :=
  match project.zenzaiContext with
  | some context =>
      match nullableString context.style, nullableString context.preference with
      | some style, some preference =>
          if validText context.topic 1 kZenzaiConditionScalars &&
              style.all (fun value => validText value 0 kZenzaiConditionScalars) &&
              preference.all (fun value => validText value 0 kZenzaiConditionScalars) then
            some ⟨some (truncateCondition context.topic), style.map truncateCondition,
              preference.map truncateCondition⟩
          else none
      | _, _ => none
  | none =>
      match project.profile with
      | none => some {}
      | some profile => if profile = [] then some {} else some { topic := truncateCondition profile }

/-- `ValidateProject`. -/
def validateProject (project : ProjectJson) (expectedProjectId : ByteString) :
    Option (List DictionaryEntryDto × ProjectConditionsDto) :=
  if project.formatVersion ≠ 1 ∨ project.projectId ≠ expectedProjectId ∨
      isSafeIdentifier project.projectId kProjectIdScalars = false ∨
      validText project.projectName 1 kProjectNameScalars = false ∨
      validTimestamp project.generatedAt = false ∨ project.entries.length > kProjectEntries ∨
      (project.profile.any fun profile => !validText profile 0 kProfileScalars) = true then none
  else
    match project.entries.mapM validateEntry with
    | none => none
    | some entries => (validateConditions project).map fun conditions => (entries, conditions)

/-! ## One load -/

/-- `VerifiedFileBytes`. -/
structure VerifiedFileBytes where
  bytes : ByteString
  sha256 : ByteString
  deriving DecidableEq, Repr

/-- What a file reader returns. -/
inductive ReadResult
  | ok (file : VerifiedFileBytes)
  | notFound
  | error

variable (M : Modules)

/-- `VerifiedFileBytes::FromBytes`. -/
def VerifiedFileBytes.fromBytes (bytes : ByteString) : VerifiedFileBytes where
  bytes := bytes
  sha256 := M.sha256 bytes

/-- The checks that `LoadOnce` makes on the bytes of a state file. -/
def readState (bytes : ByteString) : Option (StateJson × Option ByteString) :=
  if M.hasJsonField bytes (ascii "active_project_id") then
    match M.parseState bytes with
    | none => none
    | some state => (validateState state).map fun projectId => (state, projectId)
  else none

/-- The checks that `LoadOnce` makes on the bytes of a project file. -/
def readProject (projectId bytes : ByteString) :
    Option (ProjectJson × List DictionaryEntryDto × ProjectConditionsDto) :=
  if M.hasJsonField bytes (ascii "entries") then
    match M.parseProject bytes with
    | none => none
    | some project => (validateProject project projectId).map fun parts => (project, parts)
  else none

/-- `LoadOnce` between its reads: about to read the state, the project, or the state
again, or finished. -/
inductive Loading
  | start
  | haveState (first : VerifiedFileBytes) (state : StateJson) (projectId : ByteString)
  | haveProject (first : VerifiedFileBytes) (state : StateJson) (file : VerifiedFileBytes)
      (project : ProjectJson) (entries : List DictionaryEntryDto)
      (conditions : ProjectConditionsDto)
  | finished (result : LoadResult)

/-- From the first read of the state on. -/
def afterFirstState : ReadResult → Loading
  | .notFound => .finished (.failed .missingState (by decide))
  | .error => .finished (.failed .invalidState (by decide))
  | .ok first =>
      match readState M first.bytes with
      | none => .finished (.failed .invalidState (by decide))
      | some (_, none) => .finished (.failed .inactive (by decide))
      | some (state, some projectId) => .haveState first state projectId

/-- From the read of the project on. -/
def afterProject (first : VerifiedFileBytes) (state : StateJson) (projectId : ByteString) :
    ReadResult → Loading
  | .notFound => .finished (.failed .missingSnapshot (by decide))
  | .error => .finished (.failed .invalidSnapshot (by decide))
  | .ok file =>
      match readProject M projectId file.bytes with
      | none => .finished (.failed .invalidSnapshot (by decide))
      | some (project, entries, conditions) =>
          .haveProject first state file project entries conditions

/-- From the second read of the state on. -/
def afterSecondState (first : VerifiedFileBytes) (state : StateJson) (file : VerifiedFileBytes)
    (project : ProjectJson) (entries : List DictionaryEntryDto)
    (conditions : ProjectConditionsDto) : ReadResult → LoadResult
  | .notFound => .failed .stateChangedDuringRead (by decide)
  | .error => .failed .stateChangedDuringRead (by decide)
  | .ok second =>
      if (readState M second.bytes).isNone ∨ second.bytes ≠ first.bytes ∨
          second.sha256 ≠ first.sha256 then
        .failed .stateChangedDuringRead (by decide)
      else
        .ofSnapshot
          { projectId := project.projectId, projectName := project.projectName, entries, conditions
            stateUpdatedAt := state.updatedAt, projectGeneratedAt := project.generatedAt
            stateSha256 := first.sha256, projectSha256 := file.sha256 }

end Mozkey.Grimodex
