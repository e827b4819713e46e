import Mozkey.Base.SerializedStringArrayBuffer
import Mozkey.Lib.BinarySearch
import Mozkey.Lib.SortedMap

/-!
# Serialized dictionaries

A multimap from strings to tokens is compiled to two images: the array of all strings that occur in
it, each of them once and in ascending order, and the array of the tokens, 24 bytes each, in the order
of their keys, which name their strings by index.  A lookup is a binary search among the tokens that
follows the index of the key to the string.

`compile_roundTrips` says that the images of a dictionary pass the verification, and that a lookup
finds the tokens of a key in their order.
-/

namespace Mozkey

open Mozkey.Lib

namespace SerializedDictionary

open SerializedStringArray (Block Fault serializeToBuffer imageSize)

/-- `CompilerToken`. -/
structure CompilerToken where
  value : ByteString
  description : ByteString
  additionalDescription : ByteString
  lid : UInt16
  rid : UInt16
  cost : Int16
  deriving DecidableEq, Repr

/-- `TokenList`. -/
abbrev TokenList := List CompilerToken

/-- The map that is compiled. -/
abbrev Dic := SortedMap ByteString TokenList

/-- `kTokenByteLength`. -/
def kTokenByteLength : Nat := 24

/-! ## Compiling -/

/-- The strings of a token, with a temporary index. -/
def collectToken (index : SortedMap ByteString UInt32) (token : CompilerToken) :
    SortedMap ByteString UInt32 :=
  ((index.assign token.value 0).assign token.description 0).assign token.additionalDescription 0

/-- The strings of an element of the map. -/
def collectElement (index : SortedMap ByteString UInt32) (kv : ByteString × TokenList) :
    SortedMap ByteString UInt32 :=
  kv.2.foldl collectToken (index.assign kv.1 0)

/-- All the strings, each with the index 0. -/
def collectStrings (dic : Dic) : SortedMap ByteString UInt32 :=
  dic.elements.foldl collectElement .empty

theorem keys_mapIdx (elements : List (ByteString × UInt32)) :
    (elements.mapIdx fun i kv => (kv.1, UInt32.ofNat i)).map Prod.fst = elements.map Prod.fst := by
  apply List.ext_getElem
  · simp
  · intro i _ _
    simp

/-- The indices in ascending order of the strings. -/
def assignIndices (index : SortedMap ByteString UInt32) : SortedMap ByteString UInt32 where
  elements := index.elements.mapIdx fun i kv => (kv.1, UInt32.ofNat i)
  sorted := by
    apply List.pairwise_map.1
    rw [keys_mapIdx]
    exact List.pairwise_map.2 index.sorted

/-- `string_index`. -/
def stringIndex (dic : Dic) : SortedMap ByteString UInt32 := assignIndices (collectStrings dic)

/-- The strings of the string array. -/
def strings (dic : Dic) : List ByteString := (stringIndex dic).elements.map Prod.fst

/-- `string_index[str]`. -/
def indexOf (dic : Dic) (str : ByteString) : UInt32 := ((stringIndex dic).find str).getD 0

/-- The bytes of a token. -/
def tokenBytes (dic : Dic) (key : ByteString) (token : CompilerToken) : ByteString :=
  storeUnaligned32 (indexOf dic key) ++ (storeUnaligned32 (indexOf dic token.value) ++
    (storeUnaligned32 (indexOf dic token.description) ++
      (storeUnaligned32 (indexOf dic token.additionalDescription) ++
        (storeUnaligned16 token.lid ++ (storeUnaligned16 token.rid ++
          (storeUnaligned16 token.cost.toUInt16 ++ storeUnaligned16 0))))))

/-- The token array. -/
def tokenArray (dic : Dic) : ByteString :=
  dic.elements.flatMap fun kv => kv.2.flatMap fun token => tokenBytes dic kv.1 token

/-- `Compile`: the token array and the string array. -/
def compile (dic : Dic) : Except Fault (ByteString × ByteString) := do
  return (tokenArray dic, ← serializeToBuffer (strings dic))

/-! ## Access -/

/-- A dictionary on its two images. -/
structure Dictionary where
  tokenArray : ByteString
  stringArray : Block

namespace Dictionary

variable (d : Dictionary)

/-- `size`. -/
def size : Nat := d.tokenArray.length / kTokenByteLength

/-- What an iterator points to, which has to be a whole token. -/
def tokenPtr (i : Nat) : Except Fault ByteString :=
  if kTokenByteLength * (i + 1) ≤ d.tokenArray.length then
    .ok (d.tokenArray.drop (kTokenByteLength * i))
  else .error .outside

/-- `(*string_array_)[index]`. -/
def string (index : UInt32) : Except Fault ByteString :=
  SerializedStringArray.get d.stringArray index.toInt32

/-- `key`. -/
def key (i : Nat) : Except Fault ByteString := do
  d.string (loadUnaligned32At (← d.tokenPtr i))

/-- What the other accessors of an iterator give. -/
def token (i : Nat) : Except Fault CompilerToken := do
  let ptr ← d.tokenPtr i
  return {
    value := ← d.string (loadUnaligned32At (ptr.drop 4))
    description := ← d.string (loadUnaligned32At (ptr.drop 8))
    additionalDescription := ← d.string (loadUnaligned32At (ptr.drop 12))
    lid := loadUnaligned16 (ptr.drop 16)
    rid := loadUnaligned16 (ptr.drop 18)
    cost := (loadUnaligned16 (ptr.drop 20)).toInt16 }

/-- `equal_range`: the bounds that `std::equal_range` finds. -/
def equalRange (key : ByteString) : Except Fault (Nat × Nat) := searchRange d.key d.size key

/-- The tokens from one iterator to another. -/
def iterate : Nat → Nat → Nat → Except Fault TokenList
  | 0, _, _ => .error .outside
  | fuel + 1, first, last =>
      if first = last then .ok []
      else do
        let token ← d.token first
        let rest ← iterate fuel (first + 1) last
        return token :: rest

/-- The tokens in the range of a key. -/
def lookup (key : ByteString) : Except Fault TokenList := do
  let (first, last) ← d.equalRange key
  d.iterate (d.size + 1) first last

end Dictionary

/-- The words of a token that `VerifyData` compares with the size of the string array. -/
def verifyToken (d : Dictionary) (i : Nat) : Bool :=
  let size := SerializedStringArray.size d.stringArray
  let ptr := d.tokenArray.drop (kTokenByteLength * i)
  !(size ≤ loadUnaligned32At ptr || size ≤ loadUnaligned32At (ptr.drop 4) ||
    size ≤ loadUnaligned32At (ptr.drop 8) || size ≤ loadUnaligned32At (ptr.drop 12))

/-- `VerifyData`. -/
def verifyData (d : Dictionary) : Except Fault Bool :=
  if d.tokenArray.length % kTokenByteLength ≠ 0 then .ok false
  else do
    if !(← SerializedStringArray.verifyData d.stringArray) then return false
    return (List.range d.size).all (verifyToken d)

/-- The bytes of both images. -/
def totalSize (dic : Dic) : Nat := (tokenArray dic).length + imageSize (strings dic)

/-! ## The index of a string -/

theorem mem_keys_assign {index : SortedMap ByteString UInt32} {str other : ByteString}
    {value : UInt32} :
    other ∈ (index.assign str value).elements.map Prod.fst ↔
      other = str ∨ other ∈ index.elements.map Prod.fst := by
  simp only [List.mem_map, SortedMap.mem_assign]
  constructor
  · rintro ⟨e, rfl | ⟨member, _⟩, rfl⟩
    · exact .inl rfl
    · exact .inr ⟨e, member, rfl⟩
  · rintro (rfl | ⟨e, member, rfl⟩)
    · exact ⟨_, .inl rfl, rfl⟩
    · by_cases same : e.1 = str
      · exact ⟨_, .inl rfl, same.symm⟩
      · exact ⟨e, .inr ⟨member, same⟩, rfl⟩

/-- The strings of a token. -/
def CompilerToken.strings (token : CompilerToken) : List ByteString :=
  [token.value, token.description, token.additionalDescription]

theorem mem_keys_collectToken {index : SortedMap ByteString UInt32} {token : CompilerToken}
    {str : ByteString} :
    str ∈ (collectToken index token).elements.map Prod.fst ↔
      str ∈ token.strings ∨ str ∈ index.elements.map Prod.fst := by
  simp only [collectToken, mem_keys_assign, CompilerToken.strings, List.mem_cons, List.not_mem_nil,
    or_false]
  tauto

theorem mem_keys_foldl_collectToken {tokens : TokenList} {index : SortedMap ByteString UInt32}
    {str : ByteString} :
    str ∈ (tokens.foldl collectToken index).elements.map Prod.fst ↔
      (∃ token ∈ tokens, str ∈ token.strings) ∨ str ∈ index.elements.map Prod.fst := by
  induction tokens generalizing index with
  | nil => simp
  | cons token tokens ih =>
      rw [List.foldl_cons, ih, mem_keys_collectToken, List.exists_mem_cons_iff, or_left_comm, or_assoc]

/-- The strings of an element of the map. -/
def elementStrings (kv : ByteString × TokenList) : List ByteString :=
  kv.1 :: kv.2.flatMap CompilerToken.strings

theorem mem_keys_foldl_collectElement {elements : List (ByteString × TokenList)}
    {index : SortedMap ByteString UInt32} {str : ByteString} :
    str ∈ (elements.foldl collectElement index).elements.map Prod.fst ↔
      (∃ kv ∈ elements, str ∈ elementStrings kv) ∨ str ∈ index.elements.map Prod.fst := by
  induction elements generalizing index with
  | nil => simp
  | cons kv elements ih =>
      rw [List.foldl_cons, ih, List.exists_mem_cons_iff, collectElement, mem_keys_foldl_collectToken,
        mem_keys_assign, elementStrings, List.mem_cons, List.mem_flatMap]
      simp only [or_assoc, or_comm, or_left_comm]

theorem strings_eq (dic : Dic) : strings dic = (collectStrings dic).elements.map Prod.fst := by
  rw [strings, stringIndex, assignIndices, keys_mapIdx]

/-- **The string array has the strings of the map.** -/
theorem mem_strings {dic : Dic} {str : ByteString} :
    str ∈ strings dic ↔ ∃ kv ∈ dic.elements, str ∈ elementStrings kv := by
  rw [strings_eq, collectStrings, mem_keys_foldl_collectElement]
  simp [SortedMap.empty]

/-- A string is found under its index. -/
theorem indexOf_spec {dic : Dic} {str : ByteString} (member : str ∈ strings dic) :
    ∃ (i : Nat) (inside : i < (strings dic).length),
      indexOf dic str = UInt32.ofNat i ∧ (strings dic)[i] = str := by
  obtain ⟨i, inside, here⟩ := List.mem_iff_getElem.1 member
  refine ⟨i, inside, ?_, here⟩
  have insideElements : i < (collectStrings dic).elements.length := by
    rwa [strings_eq, List.length_map] at inside
  have found : (stringIndex dic).find str = some (UInt32.ofNat i) := by
    rw [SortedMap.find_eq_some, List.mem_iff_getElem]
    refine ⟨i, by simpa [stringIndex, assignIndices] using insideElements, ?_⟩
    simp only [strings_eq, List.getElem_map] at here
    simp [stringIndex, assignIndices, here]
  rw [indexOf, found, Option.getD_some]

/-! ## The records of the token array -/

/-- The tokens with their keys, in the order of the token array. -/
def records (dic : Dic) : List (ByteString × CompilerToken) :=
  dic.elements.flatMap fun kv => kv.2.map fun token => (kv.1, token)

theorem tokenArray_eq (dic : Dic) :
    tokenArray dic = (records dic).flatMap fun r => tokenBytes dic r.1 r.2 := by
  rw [records, List.flatMap_assoc, tokenArray]
  simp only [List.flatMap_map]

theorem length_tokenBytes (dic : Dic) (key : ByteString) (token : CompilerToken) :
    (tokenBytes dic key token).length = kTokenByteLength := by
  simp only [tokenBytes, List.length_append]
  rfl

theorem length_flatMap_const {α β : Type*} {f : α → List β} {n : Nat} (const : ∀ x, (f x).length = n)
    (xs : List α) : (xs.flatMap f).length = n * xs.length := by
  induction xs with
  | nil => rfl
  | cons x xs ih =>
      rw [List.flatMap_cons, List.length_append, const, ih, List.length_cons, Nat.mul_succ, Nat.add_comm]

theorem drop_flatMap_const {α β : Type*} {f : α → List β} {n : Nat} (const : ∀ x, (f x).length = n)
    (xs : List α) (i : Nat) : (xs.flatMap f).drop (n * i) = (xs.drop i).flatMap f := by
  induction xs generalizing i with
  | nil => simp
  | cons x xs ih =>
      cases i with
      | zero => simp
      | succ i =>
          rw [List.flatMap_cons, List.drop_succ_cons, Nat.mul_succ, Nat.add_comm, ← List.drop_drop,
            ← const x, List.drop_left, const x, ih]

theorem length_tokenArray (dic : Dic) :
    (tokenArray dic).length = kTokenByteLength * (records dic).length := by
  rw [tokenArray_eq, length_flatMap_const (n := kTokenByteLength)]
  exact fun r => length_tokenBytes dic r.1 r.2

/-- The records are in the order of their keys. -/
theorem records_sorted (dic : Dic) : (records dic).Pairwise fun a b => a.1 ≤ b.1 := by
  rw [records, List.pairwise_flatMap]
  refine ⟨fun kv _ => List.pairwise_map.2 (List.pairwise_of_forall fun _ _ => le_refl _), ?_⟩
  refine dic.sorted.imp fun {a b} less x first y second => ?_
  obtain ⟨_, _, rfl⟩ := List.mem_map.1 first
  obtain ⟨_, _, rfl⟩ := List.mem_map.1 second
  exact less.le

theorem mem_strings_of_record {dic : Dic} {r : ByteString × CompilerToken} (member : r ∈ records dic) :
    r.1 ∈ strings dic ∧ ∀ str ∈ r.2.strings, str ∈ strings dic := by
  obtain ⟨kv, inMap, here⟩ := List.mem_flatMap.1 member
  obtain ⟨token, inList, rfl⟩ := List.mem_map.1 here
  refine ⟨mem_strings.2 ⟨kv, inMap, List.mem_cons_self ..⟩, fun str isString => ?_⟩
  exact mem_strings.2 ⟨kv, inMap, List.mem_cons_of_mem _ (List.mem_flatMap.2 ⟨token, inList, isString⟩)⟩

/-- The elements of one key, in a map to lists. -/
theorem flatMap_find {κ β : Type*} [LinearOrder κ] (m : SortedMap κ (List β)) (key : κ) :
    (m.elements.flatMap fun e => if e.1 = key then e.2 else []) = (m.find key).getD [] := by
  obtain ⟨elements, sorted⟩ := m
  rw [SortedMap.find]
  dsimp only
  induction elements with
  | nil => rfl
  | cons e elements ih =>
      obtain ⟨after, rest⟩ := List.pairwise_cons.1 sorted
      rw [List.flatMap_cons, List.find?_cons, ih rest]
      by_cases here : e.1 = key
      · have others : elements.find? (fun e => e.1 = key) = none := by
          rw [List.find?_eq_none]
          intro other later
          simpa [← here] using (after other later).ne'
        simp [here, others]
      · simp [here]

/-- The tokens of one key among the records. -/
theorem filter_records (dic : Dic) (key : ByteString) :
    ((records dic).filter fun r => r.1 = key).map Prod.snd = (dic.find key).getD [] := by
  rw [records, List.filter_flatMap, List.map_flatMap, ← flatMap_find]
  congr 1
  funext kv
  by_cases here : kv.1 = key
  · simp [List.filter_map, Function.comp_def, here]
  · simp [List.filter_map, Function.comp_def, here]

/-! ## The fields of a token -/

theorem drop_storeUnaligned32 (x : UInt32) (rest : ByteString) (n : Nat) :
    (storeUnaligned32 x ++ rest).drop (n + 4) = rest.drop n := rfl

theorem drop_storeUnaligned16 (x : UInt16) (rest : ByteString) (n : Nat) :
    (storeUnaligned16 x ++ rest).drop (n + 2) = rest.drop n := rfl

/-- What the accessors of an iterator load. -/
structure Loads (dic : Dic) (key : ByteString) (token : CompilerToken) (ptr : ByteString) : Prop where
  keyIndex : loadUnaligned32At ptr = indexOf dic key
  valueIndex : loadUnaligned32At (ptr.drop 4) = indexOf dic token.value
  descriptionIndex : loadUnaligned32At (ptr.drop 8) = indexOf dic token.description
  additionalDescriptionIndex :
    loadUnaligned32At (ptr.drop 12) = indexOf dic token.additionalDescription
  lid : loadUnaligned16 (ptr.drop 16) = token.lid
  rid : loadUnaligned16 (ptr.drop 18) = token.rid
  cost : (loadUnaligned16 (ptr.drop 20)).toInt16 = token.cost

theorem loads_tokenBytes (dic : Dic) (key : ByteString) (token : CompilerToken) (rest : ByteString) :
    Loads dic key token (tokenBytes dic key token ++ rest) := by
  simp only [tokenBytes, List.append_assoc]
  constructor
  · exact loadUnaligned32At_store _ _
  · rw [drop_storeUnaligned32 _ _ 0, List.drop_zero, loadUnaligned32At_store]
  · rw [drop_storeUnaligned32 _ _ 4, drop_storeUnaligned32 _ _ 0, List.drop_zero,
      loadUnaligned32At_store]
  · rw [drop_storeUnaligned32 _ _ 8, drop_storeUnaligned32 _ _ 4, drop_storeUnaligned32 _ _ 0,
      List.drop_zero, loadUnaligned32At_store]
  · rw [drop_storeUnaligned32 _ _ 12, drop_storeUnaligned32 _ _ 8, drop_storeUnaligned32 _ _ 4,
      drop_storeUnaligned32 _ _ 0, List.drop_zero, loadUnaligned16_store]
  · rw [drop_storeUnaligned32 _ _ 14, drop_storeUnaligned32 _ _ 10, drop_storeUnaligned32 _ _ 6,
      drop_storeUnaligned32 _ _ 2, drop_storeUnaligned16 _ _ 0, List.drop_zero, loadUnaligned16_store]
  · rw [drop_storeUnaligned32 _ _ 16, drop_storeUnaligned32 _ _ 12, drop_storeUnaligned32 _ _ 8,
      drop_storeUnaligned32 _ _ 4, drop_storeUnaligned16 _ _ 2, drop_storeUnaligned16 _ _ 0,
      List.drop_zero, loadUnaligned16_store]
    rfl

/-! ## Access to the records -/

/-- The images of a map. -/
structure IsCompiled (d : Dictionary) (dic : Dic) : Prop where
  tokens : d.tokenArray = tokenArray dic
  strings : SerializedStringArray.Represents d.stringArray (strings dic)

namespace IsCompiled

variable {d : Dictionary} {dic : Dic} (compiled : IsCompiled d dic)
include compiled

theorem size_eq : d.size = (records dic).length := by
  rw [Dictionary.size, compiled.tokens, length_tokenArray, Nat.mul_div_cancel_left _ (by decide)]

/-- The string of an index. -/
theorem string_indexOf {str : ByteString} (member : str ∈ SerializedDictionary.strings dic) :
    d.string (indexOf dic str) = .ok str := by
  obtain ⟨i, inside, index, here⟩ := indexOf_spec member
  rw [index]
  exact (compiled.strings.get_eq i inside).trans (congrArg _ here)

theorem indexOf_lt {str : ByteString} (member : str ∈ SerializedDictionary.strings dic) :
    indexOf dic str < SerializedStringArray.size d.stringArray := by
  obtain ⟨i, inside, index, _⟩ := indexOf_spec member
  have few := compiled.strings.few
  rw [index, UInt32.lt_iff_toNat_lt, compiled.strings.size_eq,
    SerializedStringArray.toNat_ofNat_small (by omega)]
  exact inside

variable {i : Nat} (inside : i < (records dic).length)
include inside

/-- What stands at the place of a record. -/
theorem drop_eq : ∃ rest, d.tokenArray.drop (kTokenByteLength * i) =
    tokenBytes dic (records dic)[i].1 (records dic)[i].2 ++ rest := by
  refine ⟨((records dic).drop (i + 1)).flatMap fun r => tokenBytes dic r.1 r.2, ?_⟩
  rw [compiled.tokens, tokenArray_eq, drop_flatMap_const (n := kTokenByteLength)]
  · rw [List.drop_eq_getElem_cons inside, List.flatMap_cons]
  · exact fun r => length_tokenBytes dic r.1 r.2

theorem tokenPtr_eq : ∃ rest, d.tokenPtr i =
    .ok (tokenBytes dic (records dic)[i].1 (records dic)[i].2 ++ rest) := by
  obtain ⟨rest, behind⟩ := compiled.drop_eq inside
  refine ⟨rest, ?_⟩
  rw [Dictionary.tokenPtr, if_pos, behind]
  rw [compiled.tokens, length_tokenArray]
  exact Nat.mul_le_mul_left _ inside

/-- The key and the token of a record are read back. -/
theorem read_record :
    d.key i = .ok (records dic)[i].1 ∧ d.token i = .ok (records dic)[i].2 := by
  obtain ⟨rest, ptr⟩ := compiled.tokenPtr_eq inside
  have loads := loads_tokenBytes dic (records dic)[i].1 (records dic)[i].2 rest
  obtain ⟨keyMember, members⟩ := mem_strings_of_record (List.getElem_mem inside)
  constructor
  · rw [Dictionary.key, ptr, SerializedStringArray.ok_bind, loads.keyIndex,
      compiled.string_indexOf keyMember]
  · rw [Dictionary.token, ptr, SerializedStringArray.ok_bind, loads.valueIndex, loads.descriptionIndex,
      loads.additionalDescriptionIndex, loads.lid, loads.rid, loads.cost,
      compiled.string_indexOf (members _ (by simp [CompilerToken.strings])),
      compiled.string_indexOf (members _ (by simp [CompilerToken.strings])),
      compiled.string_indexOf (members _ (by simp [CompilerToken.strings]))]
    rfl

/-- The indices of a record are those of strings. -/
theorem verifyToken_eq : verifyToken d i = true := by
  obtain ⟨rest, ptr⟩ := compiled.drop_eq inside
  have loads := loads_tokenBytes dic (records dic)[i].1 (records dic)[i].2 rest
  obtain ⟨keyMember, members⟩ := mem_strings_of_record (List.getElem_mem inside)
  have value := compiled.indexOf_lt (members (records dic)[i].2.value (by simp [CompilerToken.strings]))
  have description := compiled.indexOf_lt
    (members (records dic)[i].2.description (by simp [CompilerToken.strings]))
  have additional := compiled.indexOf_lt
    (members (records dic)[i].2.additionalDescription (by simp [CompilerToken.strings]))
  rw [verifyToken, ptr, loads.keyIndex, loads.valueIndex, loads.descriptionIndex, loads.additionalDescriptionIndex]
  simp only [Bool.not_eq_true', Bool.or_eq_false_iff, decide_eq_false_iff_not, UInt32.not_le]
  exact ⟨⟨⟨compiled.indexOf_lt keyMember, value⟩, description⟩, additional⟩

omit inside

/-- **The images pass the verification.** -/
theorem verified : verifyData d = .ok true := by
  rw [verifyData, if_neg, compiled.strings.verified, SerializedStringArray.ok_bind]
  · have all : (List.range d.size).all (verifyToken d) = true := by
      rw [List.all_eq_true]
      intro i member
      rw [List.mem_range, compiled.size_eq] at member
      exact compiled.verifyToken_eq member
    rw [all]
    rfl
  · rw [compiled.tokens, length_tokenArray, Nat.mul_mod_right]
    exact not_not_intro rfl

/-! ## Lookup -/

/-- The tokens from one place to another. -/
theorem iterate_eq {fuel first last : Nat} (le : first ≤ last) (inside : last ≤ (records dic).length)
    (enough : last - first < fuel) :
    d.iterate fuel first last
      = .ok ((((records dic).drop first).take (last - first)).map Prod.snd) := by
  induction fuel generalizing first with
  | zero => omega
  | succ fuel ih =>
      rw [Dictionary.iterate]
      split
      · next same =>
        subst same
        rw [Nat.sub_self, List.take_zero, List.map_nil]
      next differs =>
      have here : first < (records dic).length := by omega
      rw [(compiled.read_record here).2, SerializedStringArray.ok_bind, ih (by omega) (by omega),
        SerializedStringArray.ok_bind, List.drop_eq_getElem_cons here,
        show last - first = last - (first + 1) + 1 by omega, List.take_succ_cons, List.map_cons]
      rfl

/-- **A lookup finds the tokens of a key**, in the order of the map. -/
theorem lookup_eq (key : ByteString) : d.lookup key = .ok ((dic.find key).getD []) := by
  have sorted := records_sorted dic
  have count := countP_not_gt sorted key
  have inside := count.ge.trans List.countP_le_length
  have range := searchRange_eq sorted key fun i inside => (compiled.read_record inside).1
  rw [Dictionary.lookup, Dictionary.equalRange, compiled.size_eq, range, SerializedStringArray.ok_bind]
  dsimp only
  rw [compiled.iterate_eq (by omega) List.countP_le_length (by omega), take_drop_countP sorted,
    filter_records]

end IsCompiled

/-! ## The round trip -/

/-- A map without elements has no strings. -/
theorem strings_empty {dic : Dic} (empty : dic.elements = []) : strings dic = [] := by
  rw [List.eq_nil_iff_forall_not_mem]
  intro str member
  obtain ⟨kv, inMap, _⟩ := mem_strings.1 member
  rw [empty] at inMap
  cases inMap

/-- Where every key has tokens, the end of the string array can be rounded up. -/
theorem imageSize_strings {dic : Dic} (nonempty : ∀ kv ∈ dic.elements, kv.2 ≠ [])
    (small : totalSize dic < 2 ^ 31) : imageSize (strings dic) + 3 < 2 ^ 31 := by
  rw [totalSize, length_tokenArray] at small
  cases isEmpty : dic.elements with
  | nil =>
      rw [strings_empty isEmpty]
      decide
  | cons kv elements =>
      have tokens := List.length_pos_iff.2 (nonempty kv (isEmpty ▸ List.mem_cons_self ..))
      have some_ : 0 < (records dic).length := by
        rw [records, isEmpty, List.flatMap_cons, List.length_append, List.length_map]
        omega
      simp only [kTokenByteLength] at small
      omega

/-- **The images of a dictionary** smaller than 2^31 bytes pass the verification, and a lookup of any
string finds the tokens that the map lists under it, in their order. -/
theorem compile_roundTrips (dic : Dic) (nonempty : ∀ kv ∈ dic.elements, kv.2 ≠ [])
    (small : totalSize dic < 2 ^ 31) :
    ∃ d : Dictionary, compile dic = .ok (d.tokenArray, d.stringArray.bytes) ∧
      verifyData d = .ok true ∧ ∀ key, d.lookup key = .ok ((dic.find key).getD []) := by
  obtain ⟨data, ran, represents⟩ := SerializedStringArray.serializeToBuffer_represents
    (imageSize_strings nonempty small)
  have compiled : IsCompiled ⟨tokenArray dic, data⟩ dic := ⟨rfl, represents⟩
  refine ⟨⟨tokenArray dic, data⟩, ?_, compiled.verified, compiled.lookup_eq⟩
  rw [compile, ran]
  rfl

/-- Two keys with the same value, one of them with two tokens. -/
def twoKeys : Dic :=
  ⟨[([0x61], [⟨[0x7A], [], [0x61], 1, 2, -3⟩, ⟨[], [], [], 4, 5, 6⟩]), ([0x62, 0x63], [⟨[0x7A], [], [], 7, 8, 9⟩])],
    by decide⟩

theorem compile_roundTrips_twoKeys :
    ∃ d : Dictionary, compile twoKeys = .ok (d.tokenArray, d.stringArray.bytes) ∧
      verifyData d = .ok true ∧ ∀ key, d.lookup key = .ok ((twoKeys.find key).getD []) :=
  compile_roundTrips twoKeys (by decide) (by decide +kernel)

end SerializedDictionary

end Mozkey
