import Mozkey.Base.Csv
import Mozkey.Dictionary.UserDictionaryUtil

/-!
# Reading a dictionary from a text

A text is taken apart into lines, which end in LF, CR or CR LF.  From the first line the importer
guesses which input method wrote the text; every line that is not empty and no comment is split
into a reading, a word, a part of speech and a comment, and becomes an entry if the name of its
part of speech is known, it passes `validateEntry` and its reading, word and part of speech have not
been seen before.

The normalization of readings and names, the table of the names, which a script generates, and the
hash function come from elsewhere.
-/

namespace Mozkey

namespace Util

/-- `kOffsetFromUpperToLower`. -/
def kOffsetFromUpperToLower : Nat := 0x20

/-- A to Z, and the same of full width. -/
def isUpperLetter (codepoint : Nat) : Bool :=
  (0x0041 ≤ codepoint && codepoint ≤ 0x005A) || (0xFF21 ≤ codepoint && codepoint ≤ 0xFF3A)

/-- The loop of `Util::LowerString`. -/
def lowerStringWithin : Nat → ByteString → ByteString
  | 0, str => str
  | _ + 1, [] => []
  | fuel + 1, str =>
      let char := Utf8Internal.decode str
      let utf8 := str.take char.bytesSeen
      let rest := str.drop char.bytesSeen
      if isUpperLetter char.codePoint then
        let lower := codepointToUtf8 (char.codePoint + kOffsetFromUpperToLower)
        if lower.length ≠ utf8.length then str else lower ++ lowerStringWithin fuel rest
      else utf8 ++ lowerStringWithin fuel rest

/-- `Util::LowerString`. -/
def lowerString (str : ByteString) : ByteString := lowerStringWithin str.length str

/-- A character of a line break. -/
def isReturn (c : UInt8) : Bool := c == 0x0D || c == 0x0A

/-- `Util::ChopReturns`. -/
def chopReturns (line : ByteString) : ByteString := line.rdropWhile isReturn

end Util

namespace UserDictionary

open Mozkey.Dictionary (ExtendedErrorCode)

/-- `RawEntry`. -/
structure RawEntry where
  key : ByteString := []
  value : ByteString := []
  pos : ByteString := []
  comment : ByteString := []
  deriving DecidableEq, Repr

/-- `IMEType`. -/
inductive IMEType
  | imeAutoDetect
  | mozc
  | msime
  | atok
  | kotoeri
  | gboardV1
  | numImes
  deriving DecidableEq, Repr

/-- What the importer finds elsewhere: `NormalizeReading` and `NormalizePos`, the map `kPosMap`,
whose values are `none` where it has no valid part of speech, and two functions of a library, the
hash of a reading, a word and a part of speech and the number that a text begins with. -/
structure Environment where
  normalizeReading : ByteString → ByteString
  normalizePos : ByteString → ByteString
  posMap : ByteString → Option (Option PosType)
  hash : ByteString × ByteString × PosType → Nat
  simpleAtoi : ByteString → Int

variable (env : Environment)

/-! ## Lines -/

namespace StringTextLineIterator

/-- The loop of `StringTextLineIterator::Next`: the line, and what is behind it. -/
def takeLine : ByteString → ByteString × ByteString
  | [] => ([], [])
  | c :: rest =>
      if c = 0x0A ∨ c = 0x0D then
        ([], if c = 0x0D ∧ rest.head? = some 0x0A then rest.tail else rest)
      else (c :: (takeLine rest).1, (takeLine rest).2)

/-- `StringTextLineIterator::Next`. -/
def next (data : ByteString) : Option (ByteString × ByteString) :=
  if data = [] then none else some (takeLine data)

def linesWithin : Nat → ByteString → List ByteString
  | 0, _ => []
  | fuel + 1, data =>
      match next data with
      | none => []
      | some (line, rest) => line :: linesWithin fuel rest

/-- The lines that the iterator gives; every one takes at least a byte. -/
def lines (data : ByteString) : List ByteString := linesWithin data.length data

end StringTextLineIterator

/-! ## The format -/

/-- `GuessIMEType`. -/
def guessIMEType (line : ByteString) : IMEType :=
  if line = [] then .numImes
  else
    let lower := Util.lowerString line
    if (ascii "!microsoft ime").isPrefixOf lower then .msime
    else if (ascii "!!dicut").isPrefixOf lower ∧ lower.length > 7 then
      if env.simpleAtoi (lower.drop 7) ≥ 11 then .atok else .numImes
    else if (ascii "!!atok_tango_text_header").isPrefixOf lower then .atok
    else if line.head? = some 0x22 ∧ line.getLast? = some 0x22 ∧ (0x09 : UInt8) ∉ line then .kotoeri
    else if (ascii "# gboard dictionary version:1").isPrefixOf lower then .gboardV1
    else if line.head? = some 0x23 ∨ (0x09 : UInt8) ∈ line then .mozc
    else .numImes

/-- `DetermineFinalIMEType`. -/
def determineFinalIMEType (userImeType guessedImeType : IMEType) : IMEType :=
  if userImeType = .imeAutoDetect then guessedImeType
  else if userImeType = .mozc then if guessedImeType ≠ .kotoeri then userImeType else .numImes
  else if guessedImeType = userImeType then userImeType else .numImes

namespace TextInputIterator

/-- The type that `TextInputIterator` settles on for a text. -/
def imeType (userImeType : IMEType) (data : ByteString) : IMEType :=
  match StringTextLineIterator.next data with
  | none => .numImes
  | some (line, _) => determineFinalIMEType userImeType (guessIMEType env line)

/-- A line that the format skips. -/
def isComment (imeType : IMEType) (line : ByteString) : Bool :=
  ((imeType = .msime ∨ imeType = .atok) ∧ line.head? = some 0x21) ∨
    ((imeType = .mozc ∨ imeType = .gboardV1) ∧ line.head? = some 0x23) ∨
    (imeType = .kotoeri ∧ (ascii "//").isPrefixOf line)

/-- `品詞なし:`, which goes before the locale of a word that has no part of speech. -/
def noPosPrefix : ByteString := getStringPosType .noPos ++ ascii ":"

/-- The entry on a line, which `TextInputIterator::Next` does not skip. -/
def entryOfLine (imeType : IMEType) (line : ByteString) : Option RawEntry :=
  match imeType with
  | .msime | .atok | .mozc | .gboardV1 =>
      match line.splitOn 0x09 with
      | key :: value :: third :: more =>
          some {
            key, value
            pos := if imeType = .gboardV1 then noPosPrefix ++ third else third
            comment := more.headD [] }
      | _ => none
  | .kotoeri =>
      match Csv.splitCSV line with
      | key :: value :: pos :: _ => some { key, value, pos }
      | _ => none
  -- The iterator is not available for these.
  | .imeAutoDetect | .numImes => none

/-- One round of the loop in `TextInputIterator::Next`, where `none` goes on to the next line. -/
def readLine (imeType : IMEType) (rawLine : ByteString) : Option RawEntry :=
  let line := Util.chopReturns rawLine
  if line = [] then none
  else if isComment imeType line then none
  else entryOfLine imeType line

/-- The entries that `TextInputIterator::Next` gives one after another. -/
def rawEntries (imeType : IMEType) (data : ByteString) : List RawEntry :=
  (StringTextLineIterator.lines data).filterMap (readLine imeType)

end TextInputIterator

/-! ## Entries -/

/-- `SplitPosAndLocale`. -/
def splitPosAndLocale (pos : ByteString) : ByteString × ByteString :=
  (pos.takeWhile (· != 0x3A), (pos.dropWhile (· != 0x3A)).tail)

/-- `absl::ConsumeSuffix`, of one character. -/
def consumeSuffix (str : ByteString) (c : UInt8) : ByteString :=
  if str.getLast? = some c then str.dropLast else str

/-- The part of speech with this name, and the locale behind it. -/
def findPos (rawPos : ByteString) : Option (PosType × ByteString) :=
  if rawPos = [] then none
  else
    let (pos, locale) := splitPosAndLocale (env.normalizePos rawPos)
    match env.posMap (consumeSuffix (consumeSuffix pos 0x24) 0x2A) with
    | some (some posType) => some (posType, locale)
    | _ => none

/-- `ConvertEntry`. -/
def convertEntry (from_ : RawEntry) : Option Entry :=
  match findPos env from_.pos with
  | none => none
  | some (posType, locale) =>
      let to_ : Entry := {
        key := env.normalizeReading from_.key
        value := from_.value
        comment := from_.comment
        posType := some posType
        locale }
      if validateEntry to_ = .ok () then some to_ else none

/-- What tells entries apart. -/
def Entry.triple (entry : Entry) : ByteString × ByteString × PosType :=
  (entry.key, entry.value, entry.pos)

/-- `HashOf`. -/
def hashOf (entry : Entry) : Nat := env.hash entry.triple

def kMaxEntrySize : Nat := 1000000

/-- `UserDictionaryStorage::IsDictionaryFull`. -/
def isDictionaryFull (entries : List Entry) : Bool := entries.length ≥ kMaxEntrySize

/-- The entries of a dictionary after an import, and its status. -/
structure Imported where
  entries : List Entry
  status : Except ExtendedErrorCode Unit

/-- The loop of `ImportFromIterator`. -/
def importEntries : List RawEntry → List Entry → List Nat → Except ExtendedErrorCode Unit → Imported
  | [], entries, _, ret => ⟨entries, ret⟩
  | rawEntry :: rest, entries, existentEntries, ret =>
      if isDictionaryFull entries then ⟨entries, .error .importTooManyWords⟩
      else if rawEntry.key = [] ∧ rawEntry.value = [] ∧ rawEntry.comment = [] then
        importEntries rest entries existentEntries ret
      else
        match convertEntry env rawEntry with
        | none => importEntries rest entries existentEntries (.error .importInvalidEntries)
        | some entry =>
            if hashOf env entry ∈ existentEntries then
              importEntries rest entries existentEntries ret
            else importEntries rest (entries ++ [entry]) (hashOf env entry :: existentEntries) ret

/-- `ImportFromIterator`. -/
def importFromIterator (iter : List RawEntry) (userDic : List Entry) : Imported :=
  importEntries env iter userDic (userDic.map (hashOf env)) (.ok ())

/-- `ImportFromTextLineIterator`, for the lines of a text. -/
def importFromTextLineIterator (userImeType : IMEType) (data : ByteString) (userDic : List Entry) :
    Imported :=
  let imeType := TextInputIterator.imeType env userImeType data
  if imeType = .numImes then ⟨userDic, .error .importNotSupported⟩
  else importFromIterator env (TextInputIterator.rawEntries imeType data) userDic

/-! ## What an import adds -/

/-- The dictionary grows by at most one entry for every line, and never beyond its limit. -/
theorem length_importEntries (iter : List RawEntry) (entries : List Entry)
    (existentEntries : List Nat) (ret : Except ExtendedErrorCode Unit)
    (notFull : entries.length ≤ kMaxEntrySize) :
    (importEntries env iter entries existentEntries ret).entries.length ≤
      min (entries.length + iter.length) kMaxEntrySize := by
  induction iter generalizing entries existentEntries ret with
  | nil => simpa [importEntries] using notFull
  | cons rawEntry rest ih =>
      have skip : ∀ ret', (importEntries env rest entries existentEntries ret').entries.length ≤
          min (entries.length + (rawEntry :: rest).length) kMaxEntrySize := by
        intro ret'
        have bound := ih entries existentEntries ret' notFull
        simp only [List.length_cons]
        omega
      unfold importEntries
      split
      · exact le_min (Nat.le_add_right _ _) notFull
      · rename_i room
        split
        · exact skip ret
        · split
          · exact skip _
          · split
            · exact skip ret
            · rename_i entry _ _
              have less : (entries ++ [entry]).length ≤ kMaxEntrySize := by
                simp only [isDictionaryFull, ge_iff_le, decide_eq_true_eq, not_le] at room
                simp only [List.length_append, List.length_singleton]
                omega
              have bound := ih (entries ++ [entry]) (hashOf env entry :: existentEntries) ret less
              simp only [List.length_append, List.length_cons, List.length_nil] at bound ⊢
              omega

end UserDictionary

end Mozkey
