import Mozkey.Base.ByteString

/-!
# Feedback records

One observation of the user's reaction to a Zenz correction, and its line in the
feedback file: tab-separated fields whose tabs, line ends and backslashes are
escaped.  A line written for a safe record is read back as that record, whatever
bytes its fields hold, and a text of written lines is read line by line.

`IsValidUtf8ForFeedback` accepts everything outside Windows and asks the system
there; it is a parameter.
-/

namespace Mozkey.Session

/-! ## Escaping -/

/-- One byte of `EscapeTsv`. -/
def escapeByte (c : UInt8) : ByteString :=
  if c = 9 then ascii "\\t"
  else if c = 13 then ascii "\\r"
  else if c = 10 then ascii "\\n"
  else if c = 92 then ascii "\\\\"
  else [c]

/-- `EscapeTsv`. -/
def escapeTsv (s : ByteString) : ByteString := s.flatMap escapeByte

/-- The byte that `UnescapeTsv` writes for the one behind a backslash. -/
def unescapeByte (c : UInt8) : UInt8 :=
  if c = 116 then 9 else if c = 114 then 13 else if c = 110 then 10 else c

/-- The loop of `UnescapeTsv`, by its flag `escaping`. -/
def unescapeFrom : Bool → ByteString → ByteString
  | false, [] => []
  | true, [] => [92]
  | false, c :: rest => if c = 92 then unescapeFrom true rest else c :: unescapeFrom false rest
  | true, c :: rest => unescapeByte c :: unescapeFrom false rest

/-- `UnescapeTsv`. -/
def unescapeTsv (s : ByteString) : ByteString := unescapeFrom false s

/-- `ContainsUnsafeTsvTextChar`. -/
def containsUnsafeTsvTextChar (s : ByteString) : Bool :=
  s.any fun c => c = 9 || c = 13 || c = 10

theorem unescapeFrom_escapeByte (c : UInt8) (rest : ByteString) :
    unescapeFrom false (escapeByte c ++ rest) = c :: unescapeFrom false rest := by
  unfold escapeByte
  split
  · rename_i tab
    subst tab
    rfl
  split
  · rename_i carriageReturn
    subst carriageReturn
    rfl
  split
  · rename_i lineFeed
    subst lineFeed
    rfl
  split
  · rename_i backslash
    subst backslash
    rfl
  · rename_i plain
    simp [unescapeFrom, plain]

/-- Unescaping undoes escaping. -/
@[simp] theorem unescapeTsv_escapeTsv (s : ByteString) : unescapeTsv (escapeTsv s) = s := by
  unfold unescapeTsv escapeTsv
  induction s with
  | nil => rfl
  | cons c s ih => rw [List.flatMap_cons, unescapeFrom_escapeByte, ih]

theorem escapeByte_safe (c : UInt8) : containsUnsafeTsvTextChar (escapeByte c) = false := by
  unfold escapeByte
  split
  · rfl
  split
  · rfl
  split
  · rfl
  split
  · rfl
  · rename_i notTab notReturn notFeed _
    simp [containsUnsafeTsvTextChar, notTab, notReturn, notFeed]

/-- No tab and no line end is left in an escaped text. -/
theorem escapeTsv_safe (s : ByteString) : containsUnsafeTsvTextChar (escapeTsv s) = false := by
  unfold escapeTsv
  induction s with
  | nil => rfl
  | cons c s ih =>
      have first := escapeByte_safe c
      unfold containsUnsafeTsvTextChar at ih first ⊢
      rw [List.flatMap_cons, List.any_append, first, ih]
      rfl

theorem not_mem_of_safe {s : ByteString} (safe : containsUnsafeTsvTextChar s = false) :
    (9 : UInt8) ∉ s ∧ (10 : UInt8) ∉ s := by
  simp only [containsUnsafeTsvTextChar, List.any_eq_false] at safe
  constructor
  · intro member
    exact safe 9 member rfl
  · intro member
    exact safe 10 member rfl

/-! ## Records -/

/-- `ParsedFeedbackRecord`. -/
structure FeedbackRecord where
  action : ByteString
  key : ByteString
  contextClass : ByteString
  value : ByteString
  reason : ByteString
  deriving DecidableEq, Repr

def knownContextClasses : List ByteString :=
  [ascii "empty", ascii "japanese_only", ascii "japanese_with_punctuation",
    ascii "mixed_japanese_ascii", ascii "symbol_or_other", ascii "ascii_or_digit",
    ascii "sensitive_like", ascii "legacy"]

/-- `IsKnownContextClass`. -/
def isKnownContextClass (contextClass : ByteString) : Bool :=
  knownContextClasses.contains contextClass

/-- `NormalizeContextClass`. -/
def normalizeContextClass (contextClass : ByteString) : ByteString :=
  if contextClass = [] then ascii "empty" else contextClass

theorem ne_nil_of_known {contextClass : ByteString}
    (known : isKnownContextClass contextClass = true) : contextClass ≠ [] := by
  rintro rfl
  revert known
  decide

section Records

variable (isValidUtf8 : ByteString → Bool)

def kMaxKeyBytes : Nat := 512

def kMaxContextClassBytes : Nat := 64

def kMaxValueBytes : Nat := 512

def kMaxReasonBytes : Nat := 128

/-- `IsSafeFeedbackRecord`. -/
def isSafeFeedbackRecord (record : FeedbackRecord) : Bool :=
  (record.action = ascii "accepted" || record.action = ascii "rejected") &&
    (record.key ≠ [] && record.value ≠ []) &&
    isKnownContextClass record.contextClass &&
    (record.key.length ≤ kMaxKeyBytes && record.contextClass.length ≤ kMaxContextClassBytes &&
      record.value.length ≤ kMaxValueBytes && record.reason.length ≤ kMaxReasonBytes) &&
    !(containsUnsafeTsvTextChar record.action || containsUnsafeTsvTextChar record.key ||
      containsUnsafeTsvTextChar record.contextClass || containsUnsafeTsvTextChar record.value ||
      containsUnsafeTsvTextChar record.reason) &&
    (isValidUtf8 record.key && isValidUtf8 record.contextClass && isValidUtf8 record.value &&
      isValidUtf8 record.reason)

/-- A record that is read must be safe. -/
def safeRecord (record : FeedbackRecord) : Option FeedbackRecord :=
  if isSafeFeedbackRecord isValidUtf8 record then some record else none

/-- `ParseFeedbackRecord`: the lines of version 2, and the older lines, whose context
is not used. -/
def parseFeedbackRecord (fields : List ByteString) : Option FeedbackRecord :=
  if fields.length ≥ 5 ∧ fields.getD 0 [] = ascii "v2" then
    safeRecord isValidUtf8
      { action := unescapeTsv (fields.getD 1 [])
        key := unescapeTsv (fields.getD 2 [])
        contextClass := normalizeContextClass (unescapeTsv (fields.getD 3 []))
        value := unescapeTsv (fields.getD 4 [])
        reason := if fields.length ≥ 6 then unescapeTsv (fields.getD 5 []) else [] }
  else if fields.length ≥ 4 ∧
      (fields.getD 0 [] = ascii "accepted" ∨ fields.getD 0 [] = ascii "rejected") then
    safeRecord isValidUtf8
      { action := unescapeTsv (fields.getD 0 [])
        key := unescapeTsv (fields.getD 1 [])
        contextClass := ascii "legacy"
        value := unescapeTsv (fields.getD 3 [])
        reason := if fields.length ≥ 5 then unescapeTsv (fields.getD 4 []) else [] }
  else none

/-- `SplitTab`. -/
def splitTab (line : ByteString) : List ByteString := line.splitOn 9

/-- `StripUtf8BomFromFirstField`. -/
def stripUtf8BomFromFirstField : List ByteString → List ByteString
  | [] => []
  | first :: fields =>
      (if [0xEF, 0xBB, 0xBF].isPrefixOf first then first.drop 3 else first) :: fields

/-- The record of a line of the file. -/
def parseLine (line : ByteString) : Option FeedbackRecord :=
  parseFeedbackRecord isValidUtf8 (stripUtf8BomFromFirstField (splitTab line))

/-! ## Reading and writing texts -/

/-- What `WriteRecordToStream` writes in front of the line feed. -/
def recordLine (record : FeedbackRecord) : ByteString :=
  [9].intercalate [ascii "v2", escapeTsv record.action, escapeTsv record.key,
    escapeTsv (normalizeContextClass record.contextClass), escapeTsv record.value,
    escapeTsv record.reason]

/-- `WriteRecordToStream`. -/
def writeRecord (record : FeedbackRecord) : ByteString := recordLine record ++ [10]

/-- `WriteRecordsToStream`: what is written up to the first record that is not safe, and
whether there is none. -/
def writeRecordsToStream : List FeedbackRecord → ByteString × Bool
  | [] => ([], true)
  | record :: records =>
      if isSafeFeedbackRecord isValidUtf8 record then
        let rest := writeRecordsToStream records
        (writeRecord record ++ rest.1, rest.2)
      else ([], false)

/-- The lines that `std::getline` reads: there is none behind a line feed that ends the
text. -/
def getLines (text : ByteString) : List ByteString :=
  let lines := text.splitOn 10
  if lines.getLast? = some [] then lines.dropLast else lines

/-- The loop of `LoadRecordsFromStream`. -/
def loadLines (strict : Bool) : List ByteString → Option (List FeedbackRecord)
  | [] => some []
  | line :: lines =>
      if line = [] then loadLines strict lines
      else
        match parseLine isValidUtf8 line with
        | none => if strict then none else loadLines strict lines
        | some record => (loadLines strict lines).map (record :: ·)

/-- `LoadRecordsFromStream`; none when it fails. -/
def loadRecordsFromStream (text : ByteString) (strict : Bool) : Option (List FeedbackRecord) :=
  loadLines isValidUtf8 strict (getLines text)

/-! ## Safe records -/

theorem safeRecord_eq_some {record r : FeedbackRecord} :
    safeRecord isValidUtf8 record = some r ↔
      record = r ∧ isSafeFeedbackRecord isValidUtf8 r = true := by
  unfold safeRecord
  split
  · rename_i safe
    simp only [Option.some_inj]
    constructor
    · rintro rfl
      exact ⟨rfl, safe⟩
    · exact And.left
  · rename_i unsafe_
    simp only [reduceCtorEq, false_iff]
    rintro ⟨rfl, safe⟩
    exact unsafe_ safe

variable {isValidUtf8}

/-- What is read is safe. -/
theorem safe_of_parse {fields : List ByteString} {record : FeedbackRecord}
    (parsed : parseFeedbackRecord isValidUtf8 fields = some record) :
    isSafeFeedbackRecord isValidUtf8 record = true := by
  unfold parseFeedbackRecord at parsed
  split at parsed
  · exact ((safeRecord_eq_some isValidUtf8).1 parsed).2
  split at parsed
  · exact ((safeRecord_eq_some isValidUtf8).1 parsed).2
  · exact absurd parsed (by simp)

theorem contextClass_known {record : FeedbackRecord}
    (safe : isSafeFeedbackRecord isValidUtf8 record = true) :
    isKnownContextClass record.contextClass = true := by
  simp only [isSafeFeedbackRecord, Bool.and_eq_true] at safe
  exact safe.1.1.1.2

theorem normalize_of_safe {record : FeedbackRecord}
    (safe : isSafeFeedbackRecord isValidUtf8 record = true) :
    normalizeContextClass record.contextClass = record.contextClass :=
  if_neg (ne_nil_of_known (contextClass_known safe))

/-! ## A written line is read back -/

/-- The fields of a record's line. -/
def recordFields (record : FeedbackRecord) : List ByteString :=
  [ascii "v2", escapeTsv record.action, escapeTsv record.key,
    escapeTsv (normalizeContextClass record.contextClass), escapeTsv record.value,
    escapeTsv record.reason]

theorem recordFields_safe (record : FeedbackRecord) :
    ∀ field ∈ recordFields record, containsUnsafeTsvTextChar field = false := by
  intro field member
  simp only [recordFields, List.mem_cons, List.not_mem_nil, or_false] at member
  rcases member with rfl | rfl | rfl | rfl | rfl | rfl
  · decide
  all_goals exact escapeTsv_safe _

theorem splitTab_recordLine (record : FeedbackRecord) :
    splitTab (recordLine record) = recordFields record := by
  apply List.splitOn_intercalate
  · intro field member
    exact (not_mem_of_safe (recordFields_safe record field member)).1
  · simp

theorem feed_notMem_recordLine (record : FeedbackRecord) : (10 : UInt8) ∉ recordLine record := by
  have escaped : ∀ s, (10 : UInt8) ∉ escapeTsv s := fun s => (not_mem_of_safe (escapeTsv_safe s)).2
  have version : (10 : UInt8) ∉ ascii "v2" := by decide
  simp [recordLine, escaped, version]

/-- **A written record is read back.** -/
theorem parseLine_recordLine {record : FeedbackRecord}
    (safe : isSafeFeedbackRecord isValidUtf8 record = true) :
    parseLine isValidUtf8 (recordLine record) = some record := by
  have bom : stripUtf8BomFromFirstField (recordFields record) = recordFields record := rfl
  have version : (recordFields record).length ≥ 5 ∧
      (recordFields record).getD 0 [] = ascii "v2" := ⟨by simp [recordFields], rfl⟩
  rw [parseLine, splitTab_recordLine, bom, parseFeedbackRecord, if_pos version,
    safeRecord_eq_some]
  refine ⟨?_, safe⟩
  simp [recordFields, normalize_of_safe safe]

/-! ## Texts of complete lines -/

/-- A text of complete lines. -/
def ofLines (lines : List ByteString) : ByteString := lines.flatMap (· ++ [10])

theorem parseLine_nil : parseLine isValidUtf8 [] = none := rfl

variable (isValidUtf8) in
/-- The records of a text, malformed lines left out. -/
def textRecords (text : ByteString) : List FeedbackRecord :=
  (text.splitOn 10).filterMap (parseLine isValidUtf8)

theorem filterMap_getLines (text : ByteString) :
    (getLines text).filterMap (parseLine isValidUtf8) = textRecords isValidUtf8 text := by
  unfold getLines textRecords
  dsimp only
  split
  · rename_i last
    obtain ⟨front, split⟩ := List.getLast?_eq_some_iff.1 last
    rw [split, List.dropLast_concat, List.filterMap_append]
    simp [parseLine_nil]
  · rfl

/-- Malformed lines are left out when reading is not strict. -/
theorem loadRecords_lenient (text : ByteString) :
    loadRecordsFromStream isValidUtf8 text false = some (textRecords isValidUtf8 text) := by
  rw [loadRecordsFromStream, ← filterMap_getLines]
  generalize getLines text = lines
  induction lines with
  | nil => rfl
  | cons line lines ih =>
      rw [loadLines]
      by_cases empty : line = []
      · subst empty
        rw [if_pos rfl, ih, List.filterMap_cons_none parseLine_nil]
      · cases parsed : parseLine isValidUtf8 line with
        | none => simpa [empty, parsed] using ih
        | some record => simp [empty, parsed, ih]

/-- A strict reading that succeeds reads what the other reading reads. -/
theorem loadRecords_strict_eq_some {text : ByteString} {records : List FeedbackRecord}
    (loaded : loadRecordsFromStream isValidUtf8 text true = some records) :
    records = textRecords isValidUtf8 text := by
  rw [loadRecordsFromStream] at loaded
  rw [← filterMap_getLines]
  generalize getLines text = lines at loaded
  induction lines generalizing records with
  | nil =>
      cases loaded
      rfl
  | cons line lines ih =>
      rw [loadLines] at loaded
      by_cases empty : line = []
      · subst empty
        rw [if_pos rfl] at loaded
        rw [ih loaded, List.filterMap_cons_none parseLine_nil]
      · cases parsed : parseLine isValidUtf8 line with
        | none => simp [empty, parsed] at loaded
        | some record =>
            simp only [empty, parsed, if_false, Option.map_eq_some_iff] at loaded
            obtain ⟨others, later, rfl⟩ := loaded
            simp [parsed, ih later]

@[simp] theorem textRecords_nil : textRecords isValidUtf8 [] = [] := rfl

theorem textRecords_append_cons (front rest : ByteString) :
    textRecords isValidUtf8 (front ++ 10 :: rest) =
      textRecords isValidUtf8 front ++ textRecords isValidUtf8 rest := by
  simp only [textRecords, List.splitOn_append_cons_self, List.filterMap_append]

/-- Behind complete lines, reading starts anew. -/
theorem textRecords_ofLines_append (lines : List ByteString) (rest : ByteString) :
    textRecords isValidUtf8 (ofLines lines ++ rest) =
      textRecords isValidUtf8 (ofLines lines) ++ textRecords isValidUtf8 rest := by
  unfold ofLines
  induction lines with
  | nil => rfl
  | cons line lines ih =>
      simp only [List.flatMap_cons, List.append_assoc, List.cons_append, List.nil_append,
        textRecords_append_cons]
      rw [ih]

/-- **What is written is read back.** -/
theorem textRecords_write {records : List FeedbackRecord}
    (safe : ∀ record ∈ records, isSafeFeedbackRecord isValidUtf8 record = true) :
    textRecords isValidUtf8 (ofLines (records.map recordLine)) = records := by
  unfold ofLines
  induction records with
  | nil => rfl
  | cons record records ih =>
      have alone : textRecords isValidUtf8 (recordLine record) = [record] := by
        rw [textRecords, List.splitOn_eq_singleton (feed_notMem_recordLine record),
          List.filterMap_cons_some (parseLine_recordLine (safe record List.mem_cons_self))]
        rfl
      simp only [List.map_cons, List.flatMap_cons, List.append_assoc, List.singleton_append,
        textRecords_append_cons, alone]
      rw [ih fun other member => safe other (List.mem_cons_of_mem _ member)]

theorem writeRecordsToStream_eq {records : List FeedbackRecord}
    (safe : ∀ record ∈ records, isSafeFeedbackRecord isValidUtf8 record = true) :
    writeRecordsToStream isValidUtf8 records = (ofLines (records.map recordLine), true) := by
  induction records with
  | nil => rfl
  | cons record records ih =>
      rw [writeRecordsToStream, if_pos (safe record List.mem_cons_self),
        ih fun other member => safe other (List.mem_cons_of_mem _ member)]
      rfl

/-- What is read is safe. -/
theorem safe_of_mem_textRecords {text : ByteString} {record : FeedbackRecord}
    (member : record ∈ textRecords isValidUtf8 text) :
    isSafeFeedbackRecord isValidUtf8 record = true := by
  obtain ⟨line, _, parsed⟩ := List.mem_filterMap.1 member
  exact safe_of_parse parsed

end Records

end Mozkey.Session
