import Mozkey.Base.Unicode
import Mozkey.Dictionary.Traversal
import Mozkey.Lib.SortedRange

/-!
# Project dictionaries

A snapshot of a project dictionary is made of a list of entries.  Of the entries with the same key,
value and ids one is kept, and those that are kept are sorted by their keys, so that lookups are
binary searches.  The sort function of the library is a parameter, since it leaves open how entries
are ordered that are equal for its comparator.

A snapshot carries what its lookups need: its entries are in the order of the second sort, and no
key is empty.
-/

namespace Mozkey.Dictionary

open Mozkey.Lib

/-! ## Entries -/

structure ProjectDictionaryEntry where
  key : ByteString
  value : ByteString
  cost : Int := 5000
  lid : UInt16 := 0
  rid : UInt16 := 0
  priority : UInt8 := 1
  entryId : ByteString
  deriving DecidableEq, Repr

structure ProjectDictionaryMetadata where
  topic : Option ByteString := none
  style : Option ByteString := none
  preference : Option ByteString := none
  payloadSha256 : ByteString := []
  deriving DecidableEq, Repr

structure StoredEntry where
  token : Token
  priority : UInt8 := 1
  entryId : ByteString
  deriving DecidableEq, Repr

def kMaxEntryCount : Nat := 20000
def kMaxPayloadBytes : Nat := 16 * 1024 * 1024
def kMaxTextScalars : Nat := 256
def kMaxIdentifierBytes : Nat := 128
def kMaxConditionScalars : Nat := 400

/-- `Token::PROJECT_DICTIONARY`. -/
def projectDictionary : UInt8 := (1 : UInt8) <<< 5

/-- Why a list of entries is not accepted, with what the message tells. -/
inductive CreateError
  /-- "too many project dictionary entries" -/
  | tooManyEntries
  /-- "… must not be empty" -/
  | emptyField (fieldName : String)
  /-- "… is invalid or too large" -/
  | invalidField (fieldName : String)
  /-- "payload_sha256 must be empty or lower-case hexadecimal SHA-256" -/
  | invalidSha256
  /-- "project dictionary keys and values must not be empty" -/
  | emptyKeyOrValue
  /-- "project dictionary key or value is invalid or too large" -/
  | invalidKeyOrValue
  /-- "project dictionary payload is too large" -/
  | payloadTooLarge
  /-- "project dictionary cost must be positive: …" -/
  | costNotPositive (entryId : ByteString)
  /-- "project dictionary priority must be in [1, 3]: …" -/
  | priorityOutOfRange (entryId : ByteString)
  deriving DecidableEq, Repr

/-! ## Validation -/

/-- `ValidateIdentifier`. -/
def validateIdentifier (value : ByteString) (fieldName : String) : Except CreateError Unit :=
  if value = [] then .error (.emptyField fieldName)
  else if value.length > kMaxIdentifierBytes ∨ ¬ Strings.isValidUtf8 value then
    .error (.invalidField fieldName)
  else .ok ()

/-- `ValidateCondition`. -/
def validateCondition (value : Option ByteString) (fieldName : String) : Except CreateError Unit :=
  match value with
  | none => .ok ()
  | some value =>
      if ¬ Strings.isValidUtf8 value ∨
          Strings.atLeastCharsLen value (kMaxConditionScalars + 1) > kMaxConditionScalars then
        .error (.invalidField fieldName)
      else .ok ()

/-- `IsLowerHexSha256`. -/
def isLowerHexSha256 (digest : ByteString) : Bool :=
  if digest = [] then true
  else if digest.length ≠ 64 then false
  else digest.all fun c => (0x30 ≤ c && c ≤ 0x39) || (0x61 ≤ c && c ≤ 0x66)

/-- The bytes that an entry counts. -/
def ProjectDictionaryEntry.payload (entry : ProjectDictionaryEntry) : Nat :=
  entry.key.length + entry.value.length + entry.entryId.length + 4 + 2 + 2 + 1

def ProjectDictionaryEntry.stored (entry : ProjectDictionaryEntry) : StoredEntry where
  token := ⟨entry.key, entry.value, entry.cost, entry.lid, entry.rid, projectDictionary⟩
  priority := entry.priority
  entryId := entry.entryId

/-- One turn of the loop over the entries: the bytes that have been counted. -/
def validateEntry (payloadBytes : Nat) (entry : ProjectDictionaryEntry) : Except CreateError Nat := do
  if entry.key = [] ∨ entry.value = [] then throw .emptyKeyOrValue
  if ¬ Strings.isValidUtf8 entry.key ∨ ¬ Strings.isValidUtf8 entry.value ∨
      Strings.atLeastCharsLen entry.key (kMaxTextScalars + 1) > kMaxTextScalars ∨
      Strings.atLeastCharsLen entry.value (kMaxTextScalars + 1) > kMaxTextScalars then
    throw .invalidKeyOrValue
  validateIdentifier entry.entryId "entry_id"
  let payloadBytes := payloadBytes + entry.payload
  if payloadBytes > kMaxPayloadBytes then throw .payloadTooLarge
  if entry.cost ≤ 0 then throw (.costNotPositive entry.entryId)
  if entry.priority < 1 ∨ entry.priority > 3 then throw (.priorityOutOfRange entry.entryId)
  return payloadBytes

/-- The loop over the entries. -/
def validateEntries : Nat → List ProjectDictionaryEntry → Except CreateError Unit
  | _, [] => .ok ()
  | payloadBytes, entry :: entries => do
      let payloadBytes ← validateEntry payloadBytes entry
      validateEntries payloadBytes entries

/-- What `Create` checks in front of the entries: the bytes that have been counted. -/
def validateHeader (sourceId fingerprint : ByteString) (entries : List ProjectDictionaryEntry)
    (metadata : ProjectDictionaryMetadata) : Except CreateError Nat := do
  if entries.length > kMaxEntryCount then throw .tooManyEntries
  validateIdentifier sourceId "source_id"
  validateIdentifier fingerprint "fingerprint"
  validateCondition metadata.topic "topic"
  validateCondition metadata.style "style"
  validateCondition metadata.preference "preference"
  if ¬ isLowerHexSha256 metadata.payloadSha256 then throw .invalidSha256
  return sourceId.length + fingerprint.length + (metadata.topic.getD []).length +
    (metadata.style.getD []).length + (metadata.preference.getD []).length +
      metadata.payloadSha256.length

/-! ## The two orders -/

/-- `std::tie(key, value, lid, rid)`. -/
def identity (entry : StoredEntry) : ByteString ×ₗ ByteString ×ₗ Nat ×ₗ Nat :=
  toLex (entry.token.key,
    toLex (entry.token.value, toLex (entry.token.lid.toNat, entry.token.rid.toNat)))

/-- The comparator of the first sort. -/
def identityLess (lhs rhs : StoredEntry) : Bool :=
  if identity lhs ≠ identity rhs then identity lhs < identity rhs
  else if lhs.priority ≠ rhs.priority then lhs.priority > rhs.priority
  else lhs.entryId < rhs.entryId

/-- `std::tie(value, lid, rid, entry_id)`. -/
def lookupTie (entry : StoredEntry) : ByteString ×ₗ Nat ×ₗ Nat ×ₗ ByteString :=
  toLex (entry.token.value,
    toLex (entry.token.lid.toNat, toLex (entry.token.rid.toNat, entry.entryId)))

/-- The comparator of the second sort. -/
def lookupLess (lhs rhs : StoredEntry) : Bool :=
  if lhs.token.key ≠ rhs.token.key then lhs.token.key < rhs.token.key
  else if lhs.priority ≠ rhs.priority then lhs.priority > rhs.priority
  else lookupTie lhs < lookupTie rhs

/-- What the first sort goes by. -/
def identityRank (entry : StoredEntry) :
    (ByteString ×ₗ ByteString ×ₗ Nat ×ₗ Nat) ×ₗ Int ×ₗ ByteString :=
  toLex (identity entry, toLex (-(entry.priority.toNat : Int), entry.entryId))

/-- What the second sort goes by. -/
def lookupRank (entry : StoredEntry) :
    ByteString ×ₗ Int ×ₗ ByteString ×ₗ Nat ×ₗ Nat ×ₗ ByteString :=
  toLex (entry.token.key, toLex (-(entry.priority.toNat : Int), lookupTie entry))

/-- A comparison by priority and then by something else. -/
theorem priority_lt_iff {β : Type} [LinearOrder β] (p q : UInt8) (b d : β) :
    toLex (-(p.toNat : Int), b) < toLex (-(q.toNat : Int), d) ↔
      if p ≠ q then p > q else b < d := by
  rw [Prod.Lex.toLex_lt_toLex]
  by_cases same : p = q
  · simp [same]
  · have different : p.toNat ≠ q.toNat := fun equal => same (UInt8.toNat_inj.1 equal)
    rw [if_pos same, gt_iff_lt, UInt8.lt_iff_toNat_lt]
    omega

/-- A comparison of pairs, as the comparators write it. -/
theorem lex_lt_iff {α β : Type} [LinearOrder α] [LinearOrder β] (a c : α) (b d : β) :
    toLex (a, b) < toLex (c, d) ↔ if a ≠ c then a < c else b < d := by
  rw [Prod.Lex.toLex_lt_toLex]
  by_cases same : a = c
  · simp [same]
  · simp [same]

theorem identityLess_ranked (lhs rhs : StoredEntry) :
    identityLess lhs rhs = true ↔ identityRank lhs < identityRank rhs := by
  rw [identityRank, identityRank, lex_lt_iff, priority_lt_iff, identityLess]
  split
  · exact decide_eq_true_iff
  · split
    · exact decide_eq_true_iff
    · exact decide_eq_true_iff

theorem lookupLess_ranked (lhs rhs : StoredEntry) :
    lookupLess lhs rhs = true ↔ lookupRank lhs < lookupRank rhs := by
  rw [lookupRank, lookupRank, lex_lt_iff, priority_lt_iff, lookupLess]
  split
  · exact decide_eq_true_iff
  · split
    · exact decide_eq_true_iff
    · exact decide_eq_true_iff

theorem key_le_of_lookupRank {lhs rhs : StoredEntry} (before : lookupRank lhs ≤ lookupRank rhs) :
    lhs.token.key ≤ rhs.token.key := by
  rcases Prod.Lex.toLex_le_toLex.1 before with less | same
  · exact less.le
  · exact same.1.le

/-! ## Snapshots -/

/-- The two sorts, and between them the removal of duplicates. -/
def storedEntries (order : SortFunction StoredEntry) (entries : List StoredEntry) : List StoredEntry :=
  let sorted := order.sort identityLess entries
  let unique := sorted.destutter fun lhs rhs => identity lhs ≠ identity rhs
  order.sort lookupLess unique

theorem storedEntries_subset (order : SortFunction StoredEntry) (entries : List StoredEntry) :
    storedEntries order entries ⊆ entries := by
  intro entry member
  have unique := (order.perm lookupLess _).subset member
  exact (order.perm identityLess entries).subset ((List.destutter_sublist _ _).subset unique)

/-- `ProjectDictionarySnapshot`. -/
structure ProjectDictionarySnapshot where
  generation : UInt64
  sourceId : ByteString
  fingerprint : ByteString
  entries : List StoredEntry
  metadata : ProjectDictionaryMetadata
  ordered : entries.Pairwise fun lhs rhs => lookupRank lhs ≤ lookupRank rhs
  nonempty : ∀ entry ∈ entries, entry.token.key ≠ []

theorem validateEntry_nonempty {payloadBytes counted : Nat} {entry : ProjectDictionaryEntry}
    (valid : validateEntry payloadBytes entry = .ok counted) : entry.key ≠ [] := by
  intro empty
  rw [validateEntry, if_pos (.inl empty)] at valid
  cases valid

theorem validateEntries_nonempty {payloadBytes : Nat} {entries : List ProjectDictionaryEntry}
    (valid : validateEntries payloadBytes entries = .ok ()) : ∀ entry ∈ entries, entry.key ≠ [] := by
  induction entries generalizing payloadBytes with
  | nil => exact fun _ absent => absurd absent List.not_mem_nil
  | cons entry entries ih =>
      rw [validateEntries] at valid
      cases first : validateEntry payloadBytes entry with
      | error error =>
          rw [first] at valid
          cases valid
      | ok counted =>
          rw [first] at valid
          exact List.forall_mem_cons.2 ⟨validateEntry_nonempty first, ih valid⟩

theorem storedEntries_nonempty {payloadBytes : Nat} {entries : List ProjectDictionaryEntry}
    (valid : validateEntries payloadBytes entries = .ok ()) (order : SortFunction StoredEntry) :
    ∀ entry ∈ storedEntries order (entries.map ProjectDictionaryEntry.stored), entry.token.key ≠ [] := by
  intro entry member
  obtain ⟨given, isGiven, rfl⟩ := List.mem_map.1 (storedEntries_subset order _ member)
  exact validateEntries_nonempty valid given isGiven

/-- `ProjectDictionarySnapshot::Create`. -/
def ProjectDictionarySnapshot.create (order : SortFunction StoredEntry) (generation : UInt64)
    (sourceId fingerprint : ByteString) (entries : List ProjectDictionaryEntry)
    (metadata : ProjectDictionaryMetadata) : Except CreateError ProjectDictionarySnapshot :=
  match validateHeader sourceId fingerprint entries metadata with
  | .error error => .error error
  | .ok payloadBytes =>
      match valid : validateEntries payloadBytes entries with
      | .error error => .error error
      | .ok () => .ok
          { generation := generation
            sourceId := sourceId
            fingerprint := fingerprint
            entries := storedEntries order (entries.map ProjectDictionaryEntry.stored)
            metadata := metadata
            ordered := order.sorted lookupLess_ranked _
            nonempty := storedEntries_nonempty valid order }

/-! ## Lookups -/

namespace ProjectDictionarySnapshot

variable (snapshot : ProjectDictionarySnapshot)

/-- The key of the entry that an iterator points to. -/
def keyAt : List StoredEntry → ByteString
  | [] => []
  | entry :: _ => entry.token.key

/-- `EqualRange`. -/
def equalRange (key : ByteString) : List StoredEntry × List StoredEntry :=
  let first := lowerBound (fun entry : StoredEntry => entry.token.key) snapshot.entries key
  (first, upperBound (fun entry : StoredEntry => entry.token.key) first key)

/-- `EmitKey`. -/
def emitKey (callback : Callback) (range : List StoredEntry × List StoredEntry) (calls : List Call) :
    EmitResult × List Call :=
  if between range.1 range.2 = [] then (.kContinue, calls)
  else
    visitKey callback (keyAt range.1) ((between range.1 range.2).map StoredEntry.token) calls

/-- `HasKey`. -/
def hasKey (key : ByteString) : Bool :=
  between (snapshot.equalRange key).1 (snapshot.equalRange key).2 ≠ []

/-- `HasValue`. -/
def hasValue (value : ByteString) : Bool := snapshot.entries.any fun entry => entry.token.value == value

/-- `LookupExact`: the calls that the callback has got. -/
def lookupExact (callback : Callback) (key : ByteString) (calls : List Call) : List Call :=
  (emitKey callback (snapshot.equalRange key) calls).2

/-- The loop of `LookupPredictive`, with at most `fuel` iterations. -/
def lookupPredictiveFrom (callback : Callback) (key : ByteString) :
    Nat → List StoredEntry → List Call → Option (List Call)
  | 0, _, _ => none
  | fuel + 1, iter, calls =>
      if iter ≠ [] ∧ key <+: keyAt iter then
        let range := snapshot.equalRange (keyAt iter)
        match emitKey callback range calls with
        | (.kDone, calls) => some calls
        | (.kCull, calls) =>
            let culledPrefix := keyAt range.1
            lookupPredictiveFrom callback key fuel
              (range.2.dropWhile fun entry => culledPrefix.isPrefixOf entry.token.key) calls
        | (.kContinue, calls) => lookupPredictiveFrom callback key fuel range.2 calls
      else some calls

/-- `LookupPredictive`. -/
def lookupPredictive (fuel : Nat) (callback : Callback) (key : ByteString) (calls : List Call) :
    Option (List Call) :=
  snapshot.lookupPredictiveFrom callback key fuel
    (lowerBound (fun entry : StoredEntry => entry.token.key) snapshot.entries key) calls

/-- The loop of `LookupPrefix`, over the lengths that are left. -/
def lookupPrefixFrom (callback : Callback) (key : ByteString) : List Nat → List Call → List Call
  | [], calls => calls
  | length :: lengths, calls =>
      let range := snapshot.equalRange (key.take length)
      if between range.1 range.2 ≠ [] then
        match emitKey callback range calls with
        | (.kDone, calls) => calls
        | (.kCull, calls) => calls
        | (.kContinue, calls) => lookupPrefixFrom callback key lengths calls
      else lookupPrefixFrom callback key lengths calls

/-- `LookupPrefix`. -/
def lookupPrefix (callback : Callback) (key : ByteString) (calls : List Call) : List Call :=
  snapshot.lookupPrefixFrom callback key (List.range' 1 key.length) calls

end ProjectDictionarySnapshot

end Mozkey.Dictionary
