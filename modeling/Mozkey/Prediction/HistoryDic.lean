import Mozkey.Prediction.UserHistoryStorage

/-!
# The entries of the user history by fingerprint

Every entry is filed under the fingerprint of its key and value, and neither is
empty: loading skips entries without a key or a value, and so does learning.  An
entry changes in place only in its other fields.  The fingerprint function itself
is a parameter.
-/

namespace Mozkey.Prediction

open Mozkey.Lib

def kPrefixFullSpace : ByteString := [0xE3, 0x80, 0x80]
def kPrefixHalfSpace : ByteString := ascii " "
def kPrefixZeroSpace : ByteString := [0xE2, 0x80, 0x8B]

def kDelimiter : ByteString := ascii "\t"

/-- `UserHistoryStorage::Fingerprint`. -/
def fingerprint (cityFingerprint : ByteString → UInt64) (key value : ByteString) : UInt64 :=
  cityFingerprint (key ++ kDelimiter ++ value)

/-- A fingerprint of the bytes as digits. -/
def byteSum (text : ByteString) : UInt64 :=
  text.foldl (fun sum b => sum * 31 + UInt64.ofNat b.toNat) 0

/-- The entries of a storage. -/
structure HistoryDic (cityFingerprint : ByteString → UInt64) where
  dic : DicCache
  filed : ∀ fp entry, dic.lookup fp = some entry →
    fp = fingerprint cityFingerprint entry.key entry.value
  nonempty : ∀ fp entry, dic.lookup fp = some entry → entry.key ≠ [] ∧ entry.value ≠ []

namespace HistoryDic

variable {cityFingerprint : ByteString → UInt64}

/-- `UserHistoryStorage::Lookup` and `UserHistoryStorage::MutableLookup`. -/
def lookup (s : HistoryDic cityFingerprint) (fp : UInt64) : Option Entry := s.dic.lookup fp

def empty : HistoryDic cityFingerprint where
  dic := LruMap.empty
  filed := fun _ _ found => by cases found
  nonempty := fun _ _ found => by cases found

/-- `UserHistoryStorage::Insert` of a whole entry, which has a key and a value. -/
def insertEntry (s : HistoryDic cityFingerprint) (entry : Entry)
    (nonempty : entry.key ≠ [] ∧ entry.value ≠ []) : HistoryDic cityFingerprint where
  dic := s.dic.insert (fingerprint cityFingerprint entry.key entry.value) entry
  filed := by
    intro fp found stored
    rcases s.dic.lookup_of_lookup_insert stored with ⟨sameFp, rfl⟩ | ⟨-, old⟩
    · exact sameFp
    · exact s.filed fp found old
  nonempty := by
    intro fp found stored
    rcases s.dic.lookup_of_lookup_insert stored with ⟨-, rfl⟩ | ⟨-, old⟩
    · exact nonempty
    · exact s.nonempty fp found old

/-- A change of the stored entry under a fingerprint. -/
structure Change where
  apply : Entry → Entry
  key : ∀ entry, (apply entry).key = entry.key
  value : ∀ entry, (apply entry).value = entry.value

/-- The entry under a fingerprint changes in place. -/
def update (s : HistoryDic cityFingerprint) (fp : UInt64) (change : Change) :
    HistoryDic cityFingerprint where
  dic := s.dic.modify fp change.apply
  filed := by
    intro other entry found
    rw [LruMap.lookup_modify] at found
    split at found
    · obtain ⟨old, stored, rfl⟩ := Option.map_eq_some_iff.1 found
      rw [change.key, change.value]
      exact s.filed other old stored
    · exact s.filed other entry found
  nonempty := by
    intro other entry found
    rw [LruMap.lookup_modify] at found
    split at found
    · obtain ⟨old, stored, rfl⟩ := Option.map_eq_some_iff.1 found
      rw [change.key, change.value]
      exact s.nonempty other old stored
    · exact s.nonempty other entry found

theorem lookup_update (s : HistoryDic cityFingerprint) (fp other : UInt64) (change : Change) :
    (s.update fp change).lookup other
      = if other = fp then (s.lookup other).map change.apply else s.lookup other :=
  s.dic.lookup_modify fp other change.apply

/-- The entry under the fingerprint of a key and a value is overwritten by one with them. -/
def replace (s : HistoryDic cityFingerprint) (entry : Entry)
    (nonempty : entry.key ≠ [] ∧ entry.value ≠ []) : HistoryDic cityFingerprint where
  dic := s.dic.modify (fingerprint cityFingerprint entry.key entry.value) fun _ => entry
  filed := by
    intro other found stored
    rw [LruMap.lookup_modify] at stored
    split at stored
    · rename_i same
      obtain ⟨old, -, rfl⟩ := Option.map_eq_some_iff.1 stored
      exact same
    · exact s.filed other found stored
  nonempty := by
    intro other found stored
    rw [LruMap.lookup_modify] at stored
    split at stored
    · obtain ⟨old, -, rfl⟩ := Option.map_eq_some_iff.1 stored
      exact nonempty
    · exact s.nonempty other found stored

theorem lookup_replace (s : HistoryDic cityFingerprint) (entry : Entry)
    (nonempty : entry.key ≠ [] ∧ entry.value ≠ []) (other : UInt64) :
    (s.replace entry nonempty).lookup other
      = if other = fingerprint cityFingerprint entry.key entry.value then
          (s.lookup other).map fun _ => entry
        else s.lookup other :=
  s.dic.lookup_modify _ other _

@[simp] theorem keys_update (s : HistoryDic cityFingerprint) (fp : UInt64) (change : Change) :
    (s.update fp change).dic.keys = s.dic.keys :=
  s.dic.keys_modify fp change.apply

end HistoryDic

/-- The entry without frequencies and marked as removed. -/
def markRemoved (entry : Entry) : Entry :=
  { entry with suggestionFreq := 0, shownFreq := 0, removed := true }

def markRemovedChange : HistoryDic.Change where
  apply := markRemoved
  key _ := rfl
  value _ := rfl

end Mozkey.Prediction
