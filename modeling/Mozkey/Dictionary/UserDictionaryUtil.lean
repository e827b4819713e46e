import Mozkey.Base.Utf8
import Mozkey.Dictionary.UserDictionaryStorage

/-!
# The entries of a user dictionary

An entry has a reading, a word, a part of speech and a comment.  `validateEntry` is asked before an
entry gets into a dictionary: none of the three texts may be too long or hold a line break or a
tabulator, and only the comment may be empty.  That is all it asks of the characters.
-/

namespace Mozkey.UserDictionary

open Mozkey.Dictionary (ExtendedErrorCode kMaxStringSize containsInvalidChars)

/-- `UserDictionary::PosType`. -/
inductive PosType
  | noPos | noun | abbreviation | suggestionOnly | properNoun | personalName | familyName
  | firstName | organizationName | placeName | saIrregularConjugationNoun | adjectiveVerbalNoun
  | number | alphabet | symbol | emoticon
  | adverb | prenounAdjectival | conjunction | interjection
  | prefixPos | counterSuffix | genericSuffix | personNameSuffix | placeNameSuffix
  | waGroup1Verb | kaGroup1Verb | saGroup1Verb | taGroup1Verb | naGroup1Verb | maGroup1Verb
  | raGroup1Verb | gaGroup1Verb | baGroup1Verb | haGroup1Verb | group2Verb | kuruGroup3Verb
  | suruGroup3Verb | zuruGroup3Verb | ruGroup3Verb
  | adjective | sentenceEndingParticle | punctuation | freeStandingWord
  | suppressionWord
  deriving DecidableEq, Repr

namespace PosType

/-- The first column of `kPosTypeStringTable`. -/
def name : PosType → List Char
  | noPos => "品詞なし".toList
  | noun => "名詞".toList
  | abbreviation => "短縮よみ".toList
  | suggestionOnly => "サジェストのみ".toList
  | properNoun => "固有名詞".toList
  | personalName => "人名".toList
  | familyName => "姓".toList
  | firstName => "名".toList
  | organizationName => "組織".toList
  | placeName => "地名".toList
  | saIrregularConjugationNoun => "名詞サ変".toList
  | adjectiveVerbalNoun => "名詞形動".toList
  | number => "数".toList
  | alphabet => "アルファベット".toList
  | symbol => "記号".toList
  | emoticon => "顔文字".toList
  | adverb => "副詞".toList
  | prenounAdjectival => "連体詞".toList
  | conjunction => "接続詞".toList
  | interjection => "感動詞".toList
  | prefixPos => "接頭語".toList
  | counterSuffix => "助数詞".toList
  | genericSuffix => "接尾一般".toList
  | personNameSuffix => "接尾人名".toList
  | placeNameSuffix => "接尾地名".toList
  | waGroup1Verb => "動詞ワ行五段".toList
  | kaGroup1Verb => "動詞カ行五段".toList
  | saGroup1Verb => "動詞サ行五段".toList
  | taGroup1Verb => "動詞タ行五段".toList
  | naGroup1Verb => "動詞ナ行五段".toList
  | maGroup1Verb => "動詞マ行五段".toList
  | raGroup1Verb => "動詞ラ行五段".toList
  | gaGroup1Verb => "動詞ガ行五段".toList
  | baGroup1Verb => "動詞バ行五段".toList
  | haGroup1Verb => "動詞ハ行四段".toList
  | group2Verb => "動詞一段".toList
  | kuruGroup3Verb => "動詞カ変".toList
  | suruGroup3Verb => "動詞サ変".toList
  | zuruGroup3Verb => "動詞ザ変".toList
  | ruGroup3Verb => "動詞ラ変".toList
  | adjective => "形容詞".toList
  | sentenceEndingParticle => "終助詞".toList
  | punctuation => "句読点".toList
  | freeStandingWord => "独立語".toList
  | suppressionWord => "抑制単語".toList

end PosType

/-- `UserPos::GetStringPosType`. -/
def getStringPosType (posType : PosType) : ByteString := utf8 posType.name

/-- `UserDictionary::Entry`; `none` is a part of speech that has not been set. -/
structure Entry where
  key : ByteString := []
  value : ByteString := []
  comment : ByteString := []
  posType : Option PosType := none
  locale : ByteString := []
  deriving DecidableEq, Repr

namespace Entry

/-- `pos()`, which is a noun by default. -/
def pos (entry : Entry) : PosType := entry.posType.getD .noun

end Entry

/-- `ValidateEntry`. -/
def validateEntry (entry : Entry) : Except ExtendedErrorCode Unit :=
  if entry.key = [] then .error .readingEmpty
  else if entry.key.length > kMaxStringSize then .error .readingTooLong
  else if containsInvalidChars entry.key then .error .readingContainsInvalidCharacter
  else if entry.value = [] then .error .wordEmpty
  else if entry.value.length > kMaxStringSize then .error .wordTooLong
  else if containsInvalidChars entry.value then .error .wordContainsInvalidCharacter
  else if entry.comment.length > kMaxStringSize then .error .commentTooLong
  else if containsInvalidChars entry.comment then .error .commentContainsInvalidCharacter
  else if entry.posType = none then .error .invalidPosType
  else .ok ()

/-! ## What a valid entry is made of -/

/-- A text on one line, without tabulators. -/
def Plain (str : ByteString) : Prop := ∀ c ∈ str, c ≠ 0x0A ∧ c ≠ 0x0D ∧ c ≠ 0x09

theorem plain_of_containsInvalidChars {str : ByteString} (valid : containsInvalidChars str = false) :
    Plain str := by
  intro c mem
  unfold containsInvalidChars at valid
  simp only [Bool.or_eq_false_iff, List.any_eq_false] at valid
  have different := valid.1 c mem
  simp only [Bool.or_eq_true, beq_iff_eq, not_or] at different
  exact ⟨different.1.1, different.1.2, different.2⟩

structure Entry.Valid (entry : Entry) : Prop where
  key : Plain entry.key
  value : Plain entry.value
  comment : Plain entry.comment
  keyNonempty : entry.key ≠ []
  posSet : entry.posType = some entry.pos

theorem valid_of_validateEntry {entry : Entry} (valid : validateEntry entry = .ok ()) :
    entry.Valid := by
  unfold validateEntry at valid
  split at valid <;> try cases valid
  rename_i keyNonempty
  iterate 8 split at valid <;> try cases valid
  rename_i key _ _ value _ comment posSet
  refine ⟨plain_of_containsInvalidChars (by simpa using key),
    plain_of_containsInvalidChars (by simpa using value),
    plain_of_containsInvalidChars (by simpa using comment), keyNonempty, ?_⟩
  obtain ⟨pos, isSome⟩ := Option.ne_none_iff_exists'.mp posSet
  rw [Entry.pos, isSome, Option.getD_some]

/-- Every name is written without ASCII characters. -/
theorem plain_getStringPosType (posType : PosType) : Plain (getStringPosType posType) := by
  have nonAscii : (getStringPosType posType).all (fun c => 0x80 ≤ c) = true := by
    cases posType <;> decide +kernel
  intro c mem
  have large : 0x80 ≤ c := by simpa using List.all_eq_true.mp nonAscii c mem
  refine ⟨?_, ?_, ?_⟩ <;> rintro rfl <;> exact absurd large (by decide)

end Mozkey.UserDictionary
