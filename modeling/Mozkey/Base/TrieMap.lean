import Mozkey.Base.TrieDeletion
import Mozkey.Base.Utf32
import Mozkey.Lib.Run

/-!
# A trie of strings as a dictionary

The keys of `Trie` are strings.  `FindSubTrie` takes one character after another off a key, and
what it finds no character in, it takes off whole, as U+0000.  So keys that are not valid UTF-8
share their places with other keys.

A dictionary takes the same updates as a trie.  The two agree after every run whose keys are told
apart and whose deletions spare the other entries.  A deletion does not when its key is the only
one behind an entry, because the emptied node in between is erased with its data, or when it
deletes the empty key from a trie that has no other one, because then the data stays.
-/

namespace Mozkey

open Mozkey.Lib

/-! ## The characters of a key -/

/-- The characters of a key, each with its bytes. -/
def splitCharsWithin : Nat → ByteString → List (Nat × ByteString)
  | _, [] => []
  | 0, _ :: _ => []
  | fuel + 1, b :: str =>
      match splitFirstChar32 (b :: str) with
      | some (c, rest) =>
          (c, (b :: str).take ((b :: str).length - rest.length)) :: splitCharsWithin fuel rest
      -- `SplitFirstChar32` leaves zero and an empty rest.
      | none => [(0, b :: str)]

def splitChars (key : ByteString) : List (Nat × ByteString) := splitCharsWithin key.length key

/-- The way of a key through a trie. -/
def keyChars (key : ByteString) : List Nat := (splitChars key).map Prod.fst

section Characters

variable {key str str' rest rest' : ByteString} {c : Nat}

/-- A character is taken off in the same way if the text goes on. -/
theorem splitFirstChar32_append (first : splitFirstChar32 str = some (c, rest))
    (more : ByteString) : splitFirstChar32 (str ++ more) = some (c, rest ++ more) := by
  cases str with
  | nil => cases first
  | cons lead str =>
      rw [splitFirstChar32] at first
      rw [List.cons_append, splitFirstChar32]
      split at first
      · next small =>
        obtain ⟨rfl, rfl⟩ := Prod.mk.inj (Option.some.inj first)
        rw [if_pos small]
      next large =>
      rw [if_neg large]
      split at first
      · cases first
      next notTrailing =>
      rw [if_neg notTrailing]
      cases isLead : leadingByte lead with
      | none =>
          rw [isLead] at first
          cases first
      | some info =>
          rw [isLead] at first
          dsimp only at first ⊢
          split at first
          · cases first
          next enough =>
          rw [if_neg (by rw [List.length_append]; omega),
            List.take_append_of_le_length (by omega), List.drop_append_of_le_length (by omega)]
          split at first
          · next all =>
            rw [if_pos all]
            split at first
            · cases first
            · next bounds =>
              obtain ⟨rfl, rfl⟩ := Prod.mk.inj (Option.some.inj first)
              rw [if_neg bounds]
          · cases first

/-- The bits of trailing bytes can be read off a number. -/
theorem foldl_trailingBits_injective {xs ys : ByteString} {a b : Nat}
    (length : xs.length = ys.length) (left : ∀ x ∈ xs, isUtf8TrailingByte x = true)
    (right : ∀ y ∈ ys, isUtf8TrailingByte y = true)
    (same : xs.foldl (fun acc x => acc * 64 + trailingBits x) a =
      ys.foldl (fun acc y => acc * 64 + trailingBits y) b) : a = b ∧ xs = ys := by
  induction xs generalizing ys a b with
  | nil =>
      obtain rfl := List.length_eq_zero_iff.1 length.symm
      exact ⟨same, rfl⟩
  | cons x xs ih =>
      cases ys with
      | nil => cases length
      | cons y ys =>
          rw [List.forall_mem_cons] at left right
          obtain ⟨sums, rfl⟩ := ih (Nat.succ.inj length) left.2 right.2 same
          obtain ⟨isX, lessX, -⟩ := trailingByte_eq left.1
          obtain ⟨isY, lessY, -⟩ := trailingByte_eq right.1
          dsimp only at sums
          have bits : trailingBits x = trailingBits y := by omega
          refine ⟨by omega, ?_⟩
          rw [isX, isY, bits]

/-- **A character tells its bytes.** -/
theorem splitFirstChar32_injective (first : splitFirstChar32 str = some (c, rest))
    (first' : splitFirstChar32 str' = some (c, rest')) :
    ∃ piece, str = piece ++ rest ∧ str' = piece ++ rest' := by
  rcases splitFirstChar32_cases first with
    ⟨lead, small, rfl, rfl⟩ | ⟨lead, trailing, info, rfl, isLead, length, all, rfl, least, most⟩
  · rcases splitFirstChar32_cases first' with
      ⟨lead', -, rfl, same⟩ | ⟨_, _, info', -, isLead', -, -, -, least', -⟩
    · rw [UInt8.toNat_inj.1 same]
      exact ⟨[lead'], rfl, rfl⟩
    · have less : lead.toNat < 0x80 := small
      rcases leadingByte_cases isLead' with is | is | is | is | is <;> omega
  · rcases splitFirstChar32_cases first' with
      ⟨lead', small, -, same⟩ |
        ⟨lead', trailing', info', rfl, isLead', length', all', same, least', most'⟩
    · have less : lead'.toNat < 0x80 := small
      rcases leadingByte_cases isLead with is | is | is | is | is <;> omega
    · have lengths : info.len = info'.len := by
        rcases leadingByte_cases isLead with is | is | is | is | is <;>
          rcases leadingByte_cases isLead' with is' | is' | is' | is' | is' <;> omega
      obtain ⟨bits, rfl⟩ := foldl_trailingBits_injective (by omega) all all' same
      have leads : lead = lead' := by
        rcases leadingByte_cases isLead with is | is | is | is | is <;>
          rcases leadingByte_cases isLead' with is' | is' | is' | is' | is' <;>
            first | omega | rw [is.2.2.2.2, is'.2.2.2.2, bits]
      rw [leads]
      exact ⟨lead' :: trailing, rfl, rfl⟩

theorem splitCharsWithin_eq {fuel : Nat} (enough : key.length ≤ fuel) :
    splitCharsWithin fuel key = splitChars key := by
  have within : ∀ n key, key.length ≤ n → ∀ fuel, key.length ≤ fuel →
      splitCharsWithin fuel key = splitCharsWithin n key := by
    intro n
    induction n with
    | zero =>
        intro key short fuel _
        obtain rfl := List.length_eq_zero_iff.1 (Nat.le_zero.1 short)
        cases fuel <;> rfl
    | succ n ih =>
        intro key short fuel enough
        cases key with
        | nil => cases fuel <;> rfl
        | cons b str =>
            obtain ⟨fuel, rfl⟩ : ∃ fuel', fuel = fuel' + 1 :=
              ⟨fuel - 1, by rw [List.length_cons] at enough; omega⟩
            rw [splitCharsWithin, splitCharsWithin]
            cases first : splitFirstChar32 (b :: str) with
            | none => rfl
            | some taken =>
                have shorter := length_of_split first
                dsimp only
                rw [ih taken.2 (by omega) fuel (by omega)]
  exact within key.length key le_rfl fuel enough

theorem splitChars_cons (first : splitFirstChar32 str = some (c, rest)) :
    splitChars str = (c, str.take (str.length - rest.length)) :: splitChars rest := by
  have shorter := length_of_split first
  cases str with
  | nil => cases first
  | cons b str =>
      rw [splitChars, List.length_cons, splitCharsWithin, first]
      dsimp only
      rw [splitCharsWithin_eq (by rw [List.length_cons] at shorter; omega), List.length_cons]

end Characters

namespace Decodes

variable {key key' : ByteString} {cs cs' : List Nat}

theorem splitChars_append (decodes : Decodes key cs) (more : ByteString) :
    splitChars (key ++ more) = splitChars key ++ splitChars more := by
  induction decodes with
  | nil => rfl
  | @cons str rest c cs first _ ih =>
      obtain ⟨piece, rfl, -⟩ := splitFirstChar32_injective first first
      rw [splitChars_cons first, splitChars_cons (splitFirstChar32_append first more), ih]
      simp only [List.cons_append, List.length_append, List.append_assoc, Nat.add_sub_cancel,
        List.take_left]

/-- A valid key is walked along its code points. -/
theorem keyChars (decodes : Decodes key cs) : Mozkey.keyChars key = cs := by
  induction decodes with
  | nil => rfl
  | cons first _ ih =>
      rw [Mozkey.keyChars, splitChars_cons first, List.map_cons]
      exact congrArg _ ih

/-- The bytes of a valid key are those of its characters. -/
theorem flatMap_splitChars (decodes : Decodes key cs) :
    (splitChars key).flatMap Prod.snd = key := by
  induction decodes with
  | nil => rfl
  | @cons str rest c cs first _ ih =>
      obtain ⟨piece, rfl, -⟩ := splitFirstChar32_injective first first
      rw [splitChars_cons first, List.flatMap_cons, ih, List.length_append, Nat.add_sub_cancel,
        List.take_left]

theorem isPrefix (decodes : Decodes key cs) (decodes' : Decodes key' cs') (begins : cs <+: cs') :
    key <+: key' := by
  induction decodes generalizing key' cs' with
  | nil => exact List.nil_prefix
  | @cons str rest c cs first _ ih =>
      cases decodes' with
      | nil => exact absurd begins (by simp)
      | cons first' others' =>
          obtain ⟨rfl, behind⟩ := List.cons_prefix_cons.1 begins
          obtain ⟨piece, rfl, rfl⟩ := splitFirstChar32_injective first first'
          exact (List.prefix_append_right_inj piece).2 (ih others' behind)

end Decodes

theorem keyChars_isPrefix {key key' : ByteString} (valid : isValidUtf8 key = true)
    (begins : key <+: key') : keyChars key <+: keyChars key' := by
  obtain ⟨more, rfl⟩ := begins
  unfold keyChars
  rw [(decodes_of_isValidUtf8 valid).splitChars_append, List.map_append]
  exact List.prefix_append _ _

theorem isPrefix_of_keyChars {key key' : ByteString} (valid : isValidUtf8 key = true)
    (valid' : isValidUtf8 key' = true) (begins : keyChars key <+: keyChars key') :
    key <+: key' := by
  have decodes := decodes_of_isValidUtf8 valid
  have decodes' := decodes_of_isValidUtf8 valid'
  rw [decodes.keyChars, decodes'.keyChars] at begins
  exact decodes.isPrefix decodes' begins

/-! ## Tries of strings -/

/-- `Trie`, with the strings of its callers as keys. -/
abbrev StringTrie (α : Type) := Trie Nat α

namespace StringTrie

variable {α : Type}

def addEntry (t : StringTrie α) (key : ByteString) (a : α) : StringTrie α :=
  Trie.addEntry (keyChars key) a t

def deleteEntry (t : StringTrie α) (key : ByteString) : StringTrie α :=
  (Trie.deleteEntry (keyChars key) t).1

def lookUp (t : StringTrie α) (key : ByteString) : Option α := Trie.lookUp t (keyChars key)

/-- The data and the number of bytes of the longest match. -/
def longestMatch (t : StringTrie α) (key : ByteString) : Option (α × Nat) :=
  (Trie.longestMatch t (keyChars key)).map fun found =>
    (found.1, (((splitChars key).take found.2).flatMap Prod.snd).length)

def hasSubTrie (t : StringTrie α) (key : ByteString) : Bool := Trie.hasSubTrie t (keyChars key)

def lookUpPredictiveAll (t : StringTrie α) (key : ByteString) : List α :=
  Trie.lookUpPredictiveAll t (keyChars key)

/-! ## The dictionary -/

/-- A call that changes the trie. -/
inductive Update (α : Type)
  | addEntry (key : ByteString) (data : α)
  | deleteEntry (key : ByteString)

def Update.apply (t : StringTrie α) : Update α → StringTrie α
  | .addEntry key data => t.addEntry key data
  | .deleteEntry key => t.deleteEntry key

/-- The same call on a dictionary. -/
def Update.applyTo (m : ByteString → Option α) : Update α → ByteString → Option α
  | .addEntry key data => Function.update m key (some data)
  | .deleteEntry key => Function.update m key none

/-- The characters of a key tell it apart from the keys of the dictionary. -/
def ToldApart (m : ByteString → Option α) (key : ByteString) : Prop :=
  ∀ stored, (m stored).isSome →
    (keyChars stored <+: keyChars key ↔ stored <+: key) ∧
    (keyChars key <+: keyChars stored ↔ key <+: stored)

/-- The entry of the key is not the only one behind an entry in front of it, and the entry of the
empty key is not the only one at all. -/
def Spares (m : ByteString → Option α) (key : ByteString) : Prop :=
  (m key).isSome →
    (key = [] → ∃ other, other ≠ [] ∧ (m other).isSome) ∧
    ∀ front, front ≠ [] → front <+: key → front ≠ key → (m front).isSome →
      ∃ other, front <+: other ∧ other ≠ front ∧ other ≠ key ∧ (m other).isSome

/-- Calls on which the trie does what the dictionary does. -/
def Update.Safe (m : ByteString → Option α) : Update α → Prop
  | .addEntry key _ => isValidUtf8 key = true
  | .deleteEntry key => ToldApart m key ∧ Spares m key

/-- The longest match in a dictionary. -/
structure LongestIn (m : ByteString → Option α) (key : ByteString) (a : α) (n : Nat) : Prop where
  inside : n ≤ key.length
  found : m (key.take n) = some a
  longest : ∀ front, front <+: key → (m front).isSome → front.length ≤ n

/-- All lookups of a key that is told apart agree. -/
structure Agrees (t : StringTrie α) (m : ByteString → Option α) (key : ByteString) : Prop where
  lookUp : t.lookUp key = m key
  longestMatch : ∀ a n, t.longestMatch key = some (a, n) ↔ LongestIn m key a n
  hasSubTrie : t.hasSubTrie key = true ↔ key ≠ [] ∧ ∃ more, (m (key ++ more)).isSome
  lookUpPredictiveAll : ∃ entries : List (ByteString × α), (entries.map Prod.fst).Nodup ∧
    (∀ k a, (k, a) ∈ entries ↔ key <+: k ∧ m k = some a) ∧
    (t.lookUpPredictiveAll key).Perm (entries.map Prod.snd)

/-! ## The trie holds what the dictionary holds -/

/-- The invariant of safe runs. -/
structure Represents (t : StringTrie α) (m : ByteString → Option α) : Prop where
  pruned : Trie.Pruned t
  valid : ∀ key, (m key).isSome → isValidUtf8 key = true
  holds : ∀ cs a, Trie.lookUp t cs = some a ↔ ∃ key, keyChars key = cs ∧ m key = some a

theorem toldApart_of_valid {m : ByteString → Option α}
    (valid : ∀ key, (m key).isSome → isValidUtf8 key = true) {key : ByteString}
    (isValid : isValidUtf8 key = true) : ToldApart m key := by
  intro stored isStored
  have validStored := valid stored isStored
  exact ⟨⟨isPrefix_of_keyChars validStored isValid, keyChars_isPrefix validStored⟩,
    isPrefix_of_keyChars isValid validStored, keyChars_isPrefix isValid⟩

theorem ToldApart.eq {m : ByteString → Option α} {key stored : ByteString}
    (apart : ToldApart m key) (isStored : (m stored).isSome)
    (same : keyChars stored = keyChars key) : stored = key := by
  have both := apart stored isStored
  rw [same] at both
  have begins := both.1.1 List.prefix_rfl
  exact begins.eq_of_length_le (both.2.1 List.prefix_rfl).length_le

section Represented

variable {t : StringTrie α} {m : ByteString → Option α} {key : ByteString}

theorem represents_empty : Represents (Trie.empty : StringTrie α) fun _ => none where
  pruned := Trie.pruned_empty
  valid := by simp
  holds := by simp [Trie.lookUp_empty]

theorem Represents.isSome (represents : Represents t m) {stored : ByteString}
    (isStored : (m stored).isSome) : (Trie.lookUp t (keyChars stored)).isSome := by
  obtain ⟨a, is⟩ := Option.isSome_iff_exists.1 isStored
  exact Option.isSome_iff_exists.2 ⟨a, (represents.holds _ a).2 ⟨stored, rfl, is⟩⟩

theorem Represents.exists_stored (represents : Represents t m) {cs : List Nat}
    (isFound : (Trie.lookUp t cs).isSome) : ∃ stored, keyChars stored = cs ∧ (m stored).isSome := by
  obtain ⟨a, is⟩ := Option.isSome_iff_exists.1 isFound
  obtain ⟨stored, same, isStored⟩ := (represents.holds cs a).1 is
  exact ⟨stored, same, Option.isSome_iff_exists.2 ⟨a, isStored⟩⟩

/-- Lookups agree where keys are told apart. -/
theorem Represents.lookUp (represents : Represents t m) (apart : ToldApart m key) :
    t.lookUp key = m key := by
  apply Option.ext
  intro a
  rw [StringTrie.lookUp, represents.holds]
  constructor
  · rintro ⟨stored, same, is⟩
    rwa [apart.eq (Option.isSome_iff_exists.2 ⟨a, is⟩) same] at is
  · exact fun is => ⟨key, rfl, is⟩

theorem Represents.addEntry (represents : Represents t m) (valid : isValidUtf8 key = true) (a : α) :
    Represents (t.addEntry key a) (Function.update m key (some a)) := by
  have apart := toldApart_of_valid represents.valid valid
  refine ⟨represents.pruned.addEntry _ _, ?_, ?_⟩
  · intro stored isStored
    by_cases same : stored = key
    · exact same ▸ valid
    · rw [Function.update_of_ne same] at isStored
      exact represents.valid stored isStored
  · intro cs b
    rw [StringTrie.addEntry, Trie.lookUp_addEntry]
    by_cases same : cs = keyChars key
    · rw [if_pos same]
      constructor
      · exact fun is => ⟨key, same.symm, by rw [Function.update_self, is]⟩
      · rintro ⟨stored, isKey, is⟩
        by_cases other : stored = key
        · rw [other, Function.update_self] at is
          exact is
        · rw [Function.update_of_ne other] at is
          exact absurd (apart.eq (Option.isSome_iff_exists.2 ⟨b, is⟩) (isKey.trans same)) other
    · rw [if_neg same, represents.holds]
      refine exists_congr fun stored => and_congr_right fun isKey => ?_
      have other : stored ≠ key := fun equal => same (isKey.symm.trans (congrArg _ equal))
      rw [Function.update_of_ne other]

/-- The way of a key can be deleted if the key spares the other entries. -/
theorem Represents.deletable (represents : Represents t m) (apart : ToldApart m key)
    (spares : Spares m key) : Trie.Deletable t (keyChars key) := by
  intro isFound
  have isKey : (m key).isSome := by
    have same := represents.lookUp apart
    rw [StringTrie.lookUp] at same
    rwa [← same]
  obtain ⟨whenEmpty, behind⟩ := spares isKey
  have validKey := represents.valid key isKey
  have nil_of : ∀ stored, (m stored).isSome → keyChars stored = [] → stored = [] :=
    fun stored isStored none_ => (toldApart_of_valid represents.valid rfl).eq isStored none_
  refine ⟨?_, ?_⟩
  · intro none_
    obtain ⟨other, some_, isOther⟩ := whenEmpty (nil_of key isKey none_)
    exact ⟨keyChars other, fun none_ => some_ (nil_of other isOther none_),
      represents.isSome isOther⟩
  · intro front some_ begins less isFront
    obtain ⟨stored, rfl, isStored⟩ := represents.exists_stored isFront
    have validStored := represents.valid stored isStored
    obtain ⟨other, after, ne, neKey, isOther⟩ := behind stored
      (fun none_ => some_ (by rw [none_]; rfl)) ((apart stored isStored).1.1 begins)
      (fun same => less (congrArg _ same)) isStored
    refine ⟨keyChars other, keyChars_isPrefix validStored after, ?_, ?_, represents.isSome isOther⟩
    · exact fun same => ne ((toldApart_of_valid represents.valid validStored).eq isOther same)
    · exact fun same => neKey (apart.eq isOther same)

theorem Represents.deleteEntry (represents : Represents t m) (apart : ToldApart m key)
    (spares : Spares m key) : Represents (t.deleteEntry key) (Function.update m key none) := by
  have deletes := represents.pruned.lookUp_deleteEntry (represents.deletable apart spares)
  have isStored : ∀ {stored a}, Function.update m key none stored = some a →
      stored ≠ key ∧ m stored = some a := by
    intro stored a is
    by_cases same : stored = key
    · rw [same, Function.update_self] at is
      cases is
    · rw [Function.update_of_ne same] at is
      exact ⟨same, is⟩
  refine ⟨represents.pruned.deleteEntry _, ?_, ?_⟩
  · intro stored found
    obtain ⟨a, is⟩ := Option.isSome_iff_exists.1 found
    exact represents.valid stored (Option.isSome_iff_exists.2 ⟨a, (isStored is).2⟩)
  · intro cs a
    rw [StringTrie.deleteEntry, deletes]
    split
    · next same =>
      refine iff_of_false (by simp) ?_
      rintro ⟨stored, isKey, is⟩
      obtain ⟨other, is⟩ := isStored is
      exact other (apart.eq (Option.isSome_iff_exists.2 ⟨a, is⟩) (isKey.trans same))
    · next differs =>
      rw [represents.holds]
      refine exists_congr fun stored => and_congr_right fun isKey => ?_
      have other : stored ≠ key := fun equal => differs (isKey.symm.trans (congrArg _ equal))
      rw [Function.update_of_ne other]

/-- The match of the trie, and how much of the key it takes. -/
theorem Represents.longestIn (represents : Represents t m) (apart : ToldApart m key) {a : α}
    {n : Nat} (matched : t.longestMatch key = some (a, n)) : LongestIn m key a n := by
  have spec := Trie.longestMatch_spec t (keyChars key)
  obtain ⟨⟨b, chars⟩, found, is⟩ := Option.map_eq_some_iff.1 matched
  rw [found] at spec
  obtain ⟨rfl, rfl⟩ := Prod.mk.inj is
  obtain ⟨inside, isFound, longest⟩ := spec
  obtain ⟨stored, same, isStored⟩ := (represents.holds _ b).1 isFound
  have storedSome : (m stored).isSome := Option.isSome_iff_exists.2 ⟨b, isStored⟩
  have decodes := decodes_of_isValidUtf8 (represents.valid stored storedSome)
  have begins : stored <+: key := by
    rw [← (apart stored storedSome).1, same]
    exact List.take_prefix _ _
  have length : (keyChars stored).length = chars := by
    rw [same, List.length_take_of_le inside]
  have taken : ((splitChars key).take chars).flatMap Prod.snd = stored := by
    obtain ⟨more, rfl⟩ := begins
    rw [decodes.splitChars_append, List.take_left' (by rw [← length, keyChars, List.length_map]),
      decodes.flatMap_splitChars]
  rw [taken]
  refine ⟨begins.length_le, ?_, ?_⟩
  · rw [← List.prefix_iff_eq_take.1 begins]
    exact isStored
  · intro front before isFront
    have chars_ := longest (keyChars front) ((apart front isFront).1.2 before)
      (represents.isSome isFront)
    -- Both begin the key, so the one of fewer characters begins the other.
    have within : keyChars front <+: keyChars stored :=
      List.prefix_of_prefix_length_le ((apart front isFront).1.2 before)
        ((apart stored storedSome).1.2 begins) (by rw [length]; exact chars_)
    exact (isPrefix_of_keyChars (represents.valid front isFront)
      (represents.valid stored storedSome) within).length_le

theorem Represents.longestMatch (represents : Represents t m) (apart : ToldApart m key) (a : α)
    (n : Nat) : t.longestMatch key = some (a, n) ↔ LongestIn m key a n := by
  refine ⟨represents.longestIn apart, fun matched => ?_⟩
  have isSome : (m (key.take n)).isSome := Option.isSome_iff_exists.2 ⟨a, matched.found⟩
  cases is : t.longestMatch key with
  | none =>
      have spec := Trie.longestMatch_spec t (keyChars key)
      rw [Option.map_eq_none_iff.1 is] at spec
      have missing := spec _ ((apart _ isSome).1.2 (List.take_prefix n key))
      have found := represents.isSome isSome
      rw [missing] at found
      cases found
  | some result =>
      have other := represents.longestIn apart is
      have otherSome : (m (key.take result.2)).isSome :=
        Option.isSome_iff_exists.2 ⟨_, other.found⟩
      have atMost := matched.longest _ (List.take_prefix _ _) otherSome
      have atLeast := other.longest _ (List.take_prefix _ _) isSome
      rw [List.length_take_of_le other.inside] at atMost
      rw [List.length_take_of_le matched.inside] at atLeast
      have same : result.2 = n := Nat.le_antisymm atMost atLeast
      have data := other.found
      rw [same, matched.found] at data
      rw [Option.some.injEq, ← same]
      exact Prod.ext (Option.some.inj data).symm rfl

theorem Represents.hasSubTrie (represents : Represents t m) (apart : ToldApart m key) :
    t.hasSubTrie key = true ↔ key ≠ [] ∧ ∃ more, (m (key ++ more)).isSome := by
  rw [StringTrie.hasSubTrie, represents.pruned.hasSubTrie_iff]
  refine and_congr ?_ ?_
  · refine not_congr ⟨fun none_ => ?_, fun none_ => by rw [none_]; rfl⟩
    cases key with
    | nil => rfl
    | cons b rest =>
        rw [keyChars, splitChars, List.length_cons, splitCharsWithin] at none_
        split at none_ <;> cases none_
  · constructor
    · rintro ⟨more, isFound⟩
      obtain ⟨stored, same, isStored⟩ := represents.exists_stored isFound
      obtain ⟨rest, rfl⟩ := (apart stored isStored).2.1 (same ▸ List.prefix_append _ _)
      exact ⟨rest, isStored⟩
    · rintro ⟨rest, isStored⟩
      obtain ⟨more, same⟩ := (apart _ isStored).2.2 (List.prefix_append _ _)
      exact ⟨more, same ▸ represents.isSome isStored⟩

theorem Represents.lookUpPredictiveAll (represents : Represents t m) (apart : ToldApart m key) :
    ∃ entries : List (ByteString × α), (entries.map Prod.fst).Nodup ∧
      (∀ k a, (k, a) ∈ entries ↔ key <+: k ∧ m k = some a) ∧
      (t.lookUpPredictiveAll key).Perm (entries.map Prod.snd) := by
  obtain ⟨found, distinct, isFound, reported⟩ :=
    represents.pruned.lookUpPredictiveAll_spec (keyChars key)
  have stored : ∀ entry : List Nat × α, entry ∈ found → ∃ k, keyChars k = keyChars key ++ entry.1 ∧
      m k = some entry.2 := fun entry member => (represents.holds _ _).1 ((isFound _ _).1 member)
  choose! keyOf chars isStored using stored
  refine ⟨found.map fun entry => (keyOf entry, entry.2), ?_, ?_, ?_⟩
  · rw [List.map_map]
    refine List.Nodup.map_on ?_ distinct.of_map
    intro first left second right same
    refine List.inj_on_of_nodup_map distinct left right ?_
    have ways := chars first left
    rw [show keyOf first = keyOf second from same, chars second right] at ways
    exact (List.append_cancel_left ways).symm
  · intro k a
    rw [List.mem_map]
    constructor
    · rintro ⟨entry, member, is⟩
      obtain ⟨rfl, rfl⟩ := Prod.mk.inj is
      have holds := isStored entry member
      refine ⟨?_, holds⟩
      refine (apart _ (Option.isSome_iff_exists.2 ⟨_, holds⟩)).2.1 ?_
      rw [chars entry member]
      exact List.prefix_append _ _
    · rintro ⟨begins, is⟩
      have isSome : (m k).isSome := Option.isSome_iff_exists.2 ⟨a, is⟩
      obtain ⟨more, same⟩ := (apart k isSome).2.2 begins
      have member : (more, a) ∈ found :=
        (isFound more a).2 ((represents.holds _ a).2 ⟨k, same.symm, is⟩)
      have apart' := toldApart_of_valid represents.valid (represents.valid k isSome)
      have isKey : keyOf (more, a) = k :=
        apart'.eq (Option.isSome_iff_exists.2 ⟨a, isStored _ member⟩) ((chars _ member).trans same)
      exact ⟨(more, a), member, by rw [isKey]⟩
  · rw [StringTrie.lookUpPredictiveAll, reported, List.map_map]
    exact List.Perm.refl _

end Represented

/-! ## Runs -/

/-- The trie and the dictionary, both of them changed. -/
def updateBoth (state : StringTrie α × (ByteString → Option α)) (update : Update α) :
    StringTrie α × (ByteString → Option α) :=
  (update.apply state.1, update.applyTo state.2)

/-- **A trie of strings is a dictionary** after every run of calls that are safe in the states
they find: all lookups of a key agree that is valid UTF-8 or told apart otherwise. -/
theorem agrees_of_run (updates : List (Update α))
    (safe : AllAlong updateBoth (fun state update => update.Safe state.2)
      (Trie.empty, fun _ => none) updates) :
    let state := updates.foldl updateBoth (Trie.empty, fun _ => none)
    ∀ key, isValidUtf8 key = true ∨ ToldApart state.2 key → Agrees state.1 state.2 key := by
  intro state key readable
  have kept : ∀ (state : StringTrie α × (ByteString → Option α)) (update : Update α),
      update.Safe state.2 → Represents state.1 state.2 →
        Represents (updateBoth state update).1 (updateBoth state update).2 := by
    intro state update safe represents
    cases update with
    | addEntry key data => exact represents.addEntry safe data
    | deleteEntry key => exact represents.deleteEntry safe.1 safe.2
  have represents := foldl_preserves kept safe represents_empty
  have apart : ToldApart state.2 key := by
    rcases readable with valid | apart
    · exact toldApart_of_valid represents.valid valid
    · exact apart
  exact ⟨represents.lookUp apart, represents.longestMatch apart, represents.hasSubTrie apart,
    represents.lookUpPredictiveAll apart⟩

/-- The run that adds `a` and `ab` and deletes `a`. -/
theorem agrees_of_run_ab :
    let state := [Update.addEntry (ascii "a") 1, .addEntry (ascii "ab") 2,
      .deleteEntry (ascii "a")].foldl updateBoth ((Trie.empty : StringTrie Nat), fun _ => none)
    Agrees state.1 state.2 (ascii "ab") := by
  have safe : AllAlong updateBoth (fun state update => update.Safe state.2)
      ((Trie.empty : StringTrie Nat), fun _ => none)
      [.addEntry (ascii "a") 1, .addEntry (ascii "ab") 2, .deleteEntry (ascii "a")] := by
    refine ⟨show isValidUtf8 _ = true by decide, show isValidUtf8 _ = true by decide,
      ⟨?_, ?_⟩, trivial⟩
    · refine toldApart_of_valid (fun key isStored => ?_) (by decide)
      by_cases second : key = ascii "ab"
      · rw [second]
        decide
      · by_cases first : key = ascii "a"
        · rw [first]
          decide
        · simp only [updateBoth, Update.applyTo, Function.update_of_ne second,
            Function.update_of_ne first] at isStored
          cases isStored
    · refine fun _ => ⟨fun wrong => absurd wrong (by decide), ?_⟩
      intro front some_ begins less
      have short := begins.length_le
      rcases List.prefix_cons_iff.1 begins with rfl | ⟨rest, rfl, behind⟩
      · exact absurd rfl some_
      · rw [List.prefix_nil.1 behind] at less
        exact absurd rfl less
  exact agrees_of_run _ safe (ascii "ab") (.inl (by decide))

/-- Deleting `ab` erases `a` as well. -/
theorem not_agrees_of_run : ¬ ∀ (updates : List (Update Nat)) (key : ByteString),
    let state := updates.foldl updateBoth ((Trie.empty : StringTrie Nat), fun _ => none)
    Agrees state.1 state.2 key := by
  intro claim
  have same := (claim [.addEntry (ascii "a") 1, .addEntry (ascii "ab") 2,
    .deleteEntry (ascii "ab")] (ascii "a")).lookUp
  exact absurd same (by decide)

end StringTrie

end Mozkey
