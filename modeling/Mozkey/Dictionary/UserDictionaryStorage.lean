import Mozkey.Base.Unicode

/-!
# The storage of the user dictionaries

The storage is a list of dictionaries with ids and names.  No two of them have the same id or the
same name, which all of its operations see to.  New ids are drawn at random until one is found that
is not in use; here a source of ids is any function that gives such an id.
-/

namespace Mozkey.Dictionary

variable {Entry : Type}

/-- `user_dictionary::UserDictionary`. -/
structure StoredDictionary (Entry : Type) where
  id : Nat
  name : ByteString
  entries : List Entry := []
  deriving DecidableEq, Repr

/-- `UserDictionaryStorage`, as far as its dictionaries go. -/
structure UserDictionaryStorage (Entry : Type) where
  dictionaries : List (StoredDictionary Entry)
  ids : (dictionaries.map StoredDictionary.id).Nodup
  names : (dictionaries.map StoredDictionary.name).Nodup

/-- `ExtendedErrorCode`. -/
inductive ExtendedErrorCode
  | dictionaryNameEmpty
  | dictionaryNameTooLong
  | dictionaryNameContainsInvalidCharacter
  | dictionaryNameDuplicated
  | dictionarySizeLimitExceeded
  | readingEmpty
  | readingTooLong
  | readingContainsInvalidCharacter
  | wordEmpty
  | wordTooLong
  | wordContainsInvalidCharacter
  | invalidPosType
  | commentTooLong
  | commentContainsInvalidCharacter
  | importTooManyWords
  | importNotSupported
  | importInvalidEntries
  deriving DecidableEq, Repr

def kMaxDictionarySize : Nat := 100
def kMaxStringSize : Nat := 300

/-- `ContainsInvalidChars`, of line breaks and tabulators. -/
def containsInvalidChars (str : ByteString) : Bool :=
  str.any (fun c => c == 0x0a || c == 0x0d || c == 0x09) || !Strings.isValidUtf8 str

/-- `ValidateDictionaryName`. -/
def validateDictionaryName (dictionaryName : ByteString) : Except ExtendedErrorCode Unit :=
  if dictionaryName = [] then .error .dictionaryNameEmpty
  else if dictionaryName.length > kMaxStringSize then .error .dictionaryNameTooLong
  else if containsInvalidChars dictionaryName then .error .dictionaryNameContainsInvalidCharacter
  else .ok ()

/-- A dictionary gets new entries, which is found by its id. -/
def setEntries (id : Nat) (entries : List Entry) :
    List (StoredDictionary Entry) → List (StoredDictionary Entry)
  | [] => []
  | dictionary :: rest =>
      if dictionary.id = id then { dictionary with entries := entries } :: rest
      else dictionary :: setEntries id entries rest

theorem map_id_setEntries (id : Nat) (entries : List Entry)
    (dictionaries : List (StoredDictionary Entry)) :
    (setEntries id entries dictionaries).map StoredDictionary.id
      = dictionaries.map StoredDictionary.id := by
  induction dictionaries with
  | nil => rfl
  | cons dictionary rest ih =>
      rw [setEntries]
      split
      · rfl
      · rw [List.map_cons, ih, List.map_cons]

theorem map_name_setEntries (id : Nat) (entries : List Entry)
    (dictionaries : List (StoredDictionary Entry)) :
    (setEntries id entries dictionaries).map StoredDictionary.name
      = dictionaries.map StoredDictionary.name := by
  induction dictionaries with
  | nil => rfl
  | cons dictionary rest ih =>
      rw [setEntries]
      split
      · rfl
      · rw [List.map_cons, ih, List.map_cons]

namespace UserDictionaryStorage

/-- `CreateNewDictionaryId`: an id that is not in use. -/
structure IdSource (Entry : Type) where
  next : UserDictionaryStorage Entry → Nat
  fresh : ∀ storage, next storage ∉ storage.dictionaries.map StoredDictionary.id

/-- The source of ids that counts on. -/
def IdSource.counting (Entry : Type) : IdSource Entry where
  next := fun storage => (storage.dictionaries.map StoredDictionary.id).sum + 1
  fresh := by
    intro storage member
    exact absurd (List.single_le_sum (fun _ _ => Nat.zero_le _) _ member) (by omega)

variable (storage : UserDictionaryStorage Entry)

/-- The entries of the dictionary with a name. -/
def lookup (name : ByteString) : Option (List Entry) :=
  (storage.dictionaries.find? fun dictionary => dictionary.name = name).map StoredDictionary.entries

/-- `GetUserDictionaryId`. -/
def getUserDictionaryId (dictionaryName : ByteString) : Option Nat :=
  (storage.dictionaries.find? fun dictionary => dictionary.name = dictionaryName).map
    StoredDictionary.id

/-- The dictionary that `GetUserDictionary` points to gets new entries. -/
def setUserDictionary (dictionaryId : Nat) (entries : List Entry) : UserDictionaryStorage Entry where
  dictionaries := setEntries dictionaryId entries storage.dictionaries
  ids := (map_id_setEntries dictionaryId entries storage.dictionaries).symm ▸ storage.ids
  names := (map_name_setEntries dictionaryId entries storage.dictionaries).symm ▸ storage.names

/-- `DeleteDictionary`. -/
def deleteDictionary (dictionaryId : Nat) : UserDictionaryStorage Entry where
  dictionaries := storage.dictionaries.eraseP fun dictionary => dictionary.id = dictionaryId
  ids := storage.ids.sublist (List.eraseP_sublist.map _)
  names := storage.names.sublist (List.eraseP_sublist.map _)

theorem nodup_append_new {α : Type} {xs : List α} {x : α} (nodup : xs.Nodup) (new : x ∉ xs) :
    (xs ++ [x]).Nodup := by
  refine List.nodup_append.2 ⟨nodup, List.nodup_singleton _, fun a member b single same => new ?_⟩
  rw [← List.mem_singleton.1 single, ← same]
  exact member

/-- `CreateDictionary`: the id of the new dictionary, and the storage with it. -/
def createDictionary (newId : IdSource Entry) (dictionaryName : ByteString) :
    Except ExtendedErrorCode (Nat × UserDictionaryStorage Entry) :=
  match validateDictionaryName dictionaryName with
  | .error error => .error error
  | .ok () =>
      if duplicated : dictionaryName ∈ storage.dictionaries.map StoredDictionary.name then
        .error .dictionaryNameDuplicated
      else if storage.dictionaries.length ≥ kMaxDictionarySize then
        .error .dictionarySizeLimitExceeded
      else .ok (newId.next storage,
        { dictionaries := storage.dictionaries ++ [{ id := newId.next storage, name := dictionaryName }]
          ids := by
            rw [List.map_append]
            exact nodup_append_new storage.ids (newId.fresh storage)
          names := by
            rw [List.map_append]
            exact nodup_append_new storage.names duplicated })

/-! ## What is looked up -/

variable {storage} {name : ByteString} {id : Nat} {entries : List Entry}

theorem find?_eq_some_iff {dictionary : StoredDictionary Entry} :
    (storage.dictionaries.find? fun dictionary => dictionary.name = name) = some dictionary ↔
      dictionary ∈ storage.dictionaries ∧ dictionary.name = name := by
  constructor
  · intro found
    exact ⟨List.mem_of_find?_eq_some found, by simpa using List.find?_some found⟩
  · rintro ⟨member, rfl⟩
    cases found : storage.dictionaries.find? fun other => other.name = dictionary.name with
    | none => exact absurd (List.find?_eq_none.1 found dictionary member) (by simp)
    | some other =>
        have same : other.name = dictionary.name := by simpa using List.find?_some found
        have isOther := List.mem_of_find?_eq_some found
        rw [List.inj_on_of_nodup_map storage.names isOther member same]

theorem lookup_eq_some_iff :
    storage.lookup name = some entries ↔
      ∃ dictionary ∈ storage.dictionaries, dictionary.name = name ∧ dictionary.entries = entries := by
  rw [lookup, Option.map_eq_some_iff]
  simp only [find?_eq_some_iff, and_assoc]

theorem getUserDictionaryId_eq_some_iff :
    storage.getUserDictionaryId name = some id ↔
      ∃ dictionary ∈ storage.dictionaries, dictionary.name = name ∧ dictionary.id = id := by
  rw [getUserDictionaryId, Option.map_eq_some_iff]
  simp only [find?_eq_some_iff, and_assoc]

theorem mem_setEntries {dictionaries : List (StoredDictionary Entry)}
    (ids : (dictionaries.map StoredDictionary.id).Nodup) {dictionary : StoredDictionary Entry} :
    dictionary ∈ setEntries id entries dictionaries ↔
      dictionary ∈ dictionaries ∧ dictionary.id ≠ id ∨
        ∃ old ∈ dictionaries, old.id = id ∧ dictionary = { old with entries := entries } := by
  induction dictionaries with
  | nil => simp [setEntries]
  | cons first rest ih =>
      rw [List.map_cons, List.nodup_cons] at ids
      rw [setEntries]
      split
      · rename_i here
        have others : ∀ other ∈ rest, other.id ≠ id := fun other member same =>
          ids.1 (List.mem_map.2 ⟨other, member, same.trans here.symm⟩)
        rw [List.mem_cons]
        constructor
        · rintro (rfl | later)
          · exact .inr ⟨first, List.mem_cons_self .., here, rfl⟩
          · exact .inl ⟨List.mem_cons_of_mem _ later, others dictionary later⟩
        · rintro (⟨member, different⟩ | ⟨old, member, same, rfl⟩)
          · rcases List.mem_cons.1 member with rfl | later
            · exact absurd here different
            · exact .inr later
          · rcases List.mem_cons.1 member with rfl | later
            · exact .inl rfl
            · exact absurd same (others old later)
      · rename_i elsewhere
        rw [List.mem_cons, ih ids.2]
        constructor
        · rintro (rfl | ⟨later, different⟩ | ⟨old, later, same, rfl⟩)
          · exact .inl ⟨List.mem_cons_self .., elsewhere⟩
          · exact .inl ⟨List.mem_cons_of_mem _ later, different⟩
          · exact .inr ⟨old, List.mem_cons_of_mem _ later, same, rfl⟩
        · rintro (⟨member, different⟩ | ⟨old, member, same, rfl⟩)
          · rcases List.mem_cons.1 member with rfl | later
            · exact .inl rfl
            · exact .inr (.inl ⟨later, different⟩)
          · rcases List.mem_cons.1 member with rfl | later
            · exact absurd same elsewhere
            · exact .inr (.inr ⟨old, later, same, rfl⟩)

/-- A dictionary is told from the others by its id as well as by its name. -/
theorem name_eq_iff (found : storage.getUserDictionaryId name = some id)
    {dictionary : StoredDictionary Entry} (member : dictionary ∈ storage.dictionaries) :
    dictionary.id = id ↔ dictionary.name = name := by
  obtain ⟨old, isOld, rfl, rfl⟩ := getUserDictionaryId_eq_some_iff.1 found
  constructor
  · exact fun same => congrArg _ (List.inj_on_of_nodup_map storage.ids member isOld same)
  · exact fun same => congrArg _ (List.inj_on_of_nodup_map storage.names member isOld same)

/-- **New entries** change the one dictionary only. -/
theorem lookup_setUserDictionary (found : storage.getUserDictionaryId name = some id)
    (n : ByteString) :
    (storage.setUserDictionary id entries).lookup n = if n = name then some entries else storage.lookup n := by
  refine Option.ext fun found' => ?_
  rw [lookup_eq_some_iff]
  have members := fun dictionary => @mem_setEntries _ id entries _ storage.ids dictionary
  constructor
  · rintro ⟨dictionary, member, rfl, rfl⟩
    rcases (members dictionary).1 member with ⟨old, different⟩ | ⟨old, isOld, same, rfl⟩
    · rw [if_neg fun same => different ((name_eq_iff found old).2 same)]
      exact lookup_eq_some_iff.2 ⟨dictionary, old, rfl, rfl⟩
    · exact if_pos ((name_eq_iff found isOld).1 same)
  · intro looked
    split at looked
    · rename_i isName
      obtain ⟨old, isOld, sameName, sameId⟩ := getUserDictionaryId_eq_some_iff.1 found
      refine ⟨{ old with entries := entries }, (members _).2 (.inr ⟨old, isOld, sameId, rfl⟩), ?_, ?_⟩
      · exact sameName.trans isName.symm
      · exact Option.some.inj looked
    · rename_i other
      obtain ⟨dictionary, member, rfl, rfl⟩ := lookup_eq_some_iff.1 looked
      exact ⟨dictionary, (members _).2 (.inl ⟨member, fun same => other ((name_eq_iff found member).1 same)⟩),
        rfl, rfl⟩

/-- Where no two elements have the same key, erasing the first one of a key leaves none of it. -/
theorem eraseP_eq_filter {α : Type} {key : α → Nat} {k : Nat} {xs : List α}
    (nodup : (xs.map key).Nodup) : (xs.eraseP fun x => key x = k) = xs.filter fun x => key x ≠ k := by
  induction xs with
  | nil => rfl
  | cons x xs ih =>
      rw [List.map_cons, List.nodup_cons] at nodup
      by_cases here : key x = k
      · rw [List.eraseP_cons_of_pos (by simpa using here), List.filter_cons_of_neg (by simpa using here)]
        refine (List.filter_eq_self.2 fun y member => ?_).symm
        refine decide_eq_true fun same => nodup.1 (List.mem_map.2 ⟨y, member, same.trans here.symm⟩)
      · rw [List.eraseP_cons_of_neg (by simpa using here), List.filter_cons_of_pos (by simpa using here),
          ih nodup.2]

/-- **Deleting** removes the one dictionary only. -/
theorem lookup_deleteDictionary (found : storage.getUserDictionaryId name = some id) (n : ByteString) :
    (storage.deleteDictionary id).lookup n = if n = name then none else storage.lookup n := by
  have members : ∀ dictionary, dictionary ∈ (storage.deleteDictionary id).dictionaries ↔
      dictionary ∈ storage.dictionaries ∧ dictionary.id ≠ id := by
    intro dictionary
    change dictionary ∈ storage.dictionaries.eraseP _ ↔ _
    rw [eraseP_eq_filter storage.ids, List.mem_filter, decide_eq_true_eq]
  refine Option.ext fun entries => ?_
  rw [lookup_eq_some_iff]
  constructor
  · rintro ⟨dictionary, member, rfl, rfl⟩
    obtain ⟨old, different⟩ := (members dictionary).1 member
    rw [if_neg fun same => different ((name_eq_iff found old).2 same)]
    exact lookup_eq_some_iff.2 ⟨dictionary, old, rfl, rfl⟩
  · intro looked
    split at looked
    · cases looked
    · rename_i other
      obtain ⟨dictionary, member, rfl, rfl⟩ := lookup_eq_some_iff.1 looked
      exact ⟨dictionary, (members _).2 ⟨member, fun same => other ((name_eq_iff found member).1 same)⟩,
        rfl, rfl⟩

/-- **Creating** adds the one dictionary, which is found by the id that is returned. -/
theorem createDictionary_ok {newId : IdSource Entry} {created : UserDictionaryStorage Entry}
    (ok : storage.createDictionary newId name = .ok (id, created)) :
    created.getUserDictionaryId name = some id ∧
      ∀ n, created.lookup n = if n = name then some [] else storage.lookup n := by
  rw [createDictionary] at ok
  split at ok
  · cases ok
  split at ok
  · cases ok
  rename_i new
  split at ok
  · cases ok
  cases ok
  have added : ∀ dictionary : StoredDictionary Entry,
      dictionary ∈ storage.dictionaries ++ [{ id := newId.next storage, name := name }] ↔
        dictionary ∈ storage.dictionaries ∨ dictionary = { id := newId.next storage, name := name } := by
    intro dictionary
    rw [List.mem_append, List.mem_singleton]
  refine ⟨getUserDictionaryId_eq_some_iff.2 ⟨_, (added _).2 (.inr rfl), rfl, rfl⟩, fun n => ?_⟩
  refine Option.ext fun entries => ?_
  rw [lookup_eq_some_iff]
  constructor
  · rintro ⟨dictionary, member, rfl, rfl⟩
    rcases (added _).1 member with old | rfl
    · rw [if_neg fun same => new (List.mem_map.2 ⟨dictionary, old, same⟩)]
      exact lookup_eq_some_iff.2 ⟨dictionary, old, rfl, rfl⟩
    · exact if_pos rfl
  · intro looked
    split at looked
    · rename_i isName
      exact ⟨_, (added _).2 (.inr rfl), isName.symm, Option.some.inj looked⟩
    · obtain ⟨dictionary, member, rfl, rfl⟩ := lookup_eq_some_iff.1 looked
      exact ⟨dictionary, (added _).2 (.inl member), rfl, rfl⟩

end UserDictionaryStorage

end Mozkey.Dictionary
