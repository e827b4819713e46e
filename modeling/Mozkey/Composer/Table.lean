import Mozkey.Base.Trie
import Mozkey.Composer.SpecialKey

/-!
# Tables of composing rules

A rule says what an input becomes: a result that is settled, and a pending text that takes part in
what is typed next.  The rules of a table are kept in a trie by their inputs.  A rule is refused
when its pending text leads back to its input, and the search for that may go on for ever.
-/

namespace Mozkey.Composer

/-- `TableAttribute`, one flag for each bit. -/
structure TableAttributes where
  newChunk : Bool
  noTransliteration : Bool
  directInput : Bool
  endChunk : Bool
  displayAmbiguousResult : Bool
deriving DecidableEq

/-- `NO_TABLE_ATTRIBUTE`. -/
def noTableAttribute : TableAttributes := ⟨false, false, false, false, false⟩

/-- `Entry`. -/
structure Entry where
  input : Text
  result : Text
  pending : Text
  attributes : TableAttributes
deriving DecidableEq

/-- `Table`. -/
structure Table where
  entries : Trie Char Entry
  specialKeyMap : SpecialKeyMap
  caseSensitive : Bool

/-- The letters `Util::LowerString` makes small: those of ASCII and their full-width forms. -/
def lowerChar (c : Char) : Char :=
  if 0x41 ≤ c.toNat ∧ c.toNat ≤ 0x5A ∨ 0xFF21 ≤ c.toNat ∧ c.toNat ≤ 0xFF3A then
    Char.ofNat (c.toNat + 0x20)
  else c

/-- `Util::LowerString`. -/
def lowerString (text : Text) : Text := text.map lowerChar

namespace Table

/-- `Table::Table`. -/
def new : Table where
  entries := Trie.empty
  specialKeyMap := ["?".toList, "*".toList, "<".toList, "!".toList].foldl
    (fun map key => (map.registerKey key).1) []
  caseSensitive := false

/-- The input that is looked up: in small letters, unless the table tells them apart. -/
def normalized (t : Table) (input : Text) : Text :=
  if t.caseSensitive then input else lowerString input

/-- `Table::LookUp`. -/
def lookUp (t : Table) (input : Text) : Option Entry := t.entries.lookUp (t.normalized input)

/-- `Table::LookUpPrefix`. -/
def lookUpPrefix (t : Table) (input : Text) : PrefixMatch Entry :=
  t.entries.lookUpPrefix (t.normalized input)

def kNewChunkPrefix : Char := '\t'

/-- `Table::HasNewChunkEntry`. -/
def hasNewChunkEntry (t : Table) (input : Text) : Bool :=
  !input.isEmpty && 1 < (t.lookUpPrefix (kNewChunkPrefix :: input)).keyLength

/-- `Table::HasSubRules`. -/
def hasSubRules (t : Table) (input : Text) : Bool := t.entries.hasSubTrie (t.normalized input)

/-- The loop of `Table::IsLoopingEntry`; none when it does not come to an end in time. -/
def isLoopingFrom (t : Table) (input : Text) : Nat → Text → Option Bool
  | 0, _ => none
  | fuel + 1, key =>
      if input.isPrefixOf key then some true
      else
        let found := t.lookUpPrefix key
        match found.data with
        | none => some false
        | some entry =>
            let next := entry.pending ++ key.drop found.keyLength
            if next.isEmpty then some false else isLoopingFrom t input fuel next

/-- `Table::IsLoopingEntry`. -/
def isLoopingEntry (t : Table) (fuel : Nat) (input pending : Text) : Option Bool :=
  if input.isEmpty || pending.isEmpty then some false else t.isLoopingFrom input fuel pending

def kMaxSize : Nat := 300

/-- `Table::AddRuleWithAttributes` without the rule it adds for new chunks. -/
def addRuleHere (t : Table) (fuel : Nat) (escapedInput output escapedPending : Text)
    (attributes : TableAttributes) : Option Table :=
  if kMaxSize ≤ size escapedInput ∨ kMaxSize ≤ size output ∨ kMaxSize ≤ size escapedPending then
    some t
  else
    let (map, input) := t.specialKeyMap.register escapedInput
    let (map, pending) := map.register escapedPending
    let t := { t with specialKeyMap := map }
    match t.isLoopingEntry fuel input pending with
    | none => none
    | some true => some t
    | some false =>
        let capital := (deleteSpecialKeys input).any fun c => 'A' ≤ c && c ≤ 'Z'
        some { t with
          entries := t.entries.addEntry input ⟨input, output, pending, attributes⟩
          caseSensitive := t.caseSensitive || capital }

/-- `Table::AddRuleWithAttributes`; none when it does not return in time. -/
def addRuleWithAttributes (t : Table) (fuel : Nat) (escapedInput output escapedPending : Text)
    (attributes : TableAttributes) : Option Table :=
  if attributes.newChunk then
    (t.addRuleHere fuel (kNewChunkPrefix :: escapedInput) output escapedPending
      noTableAttribute).bind fun t =>
        t.addRuleHere fuel escapedInput output escapedPending attributes
  else t.addRuleHere fuel escapedInput output escapedPending attributes

/-- `Table::AddRule`. -/
def addRule (t : Table) (fuel : Nat) (input output pending : Text) : Option Table :=
  t.addRuleWithAttributes fuel input output pending noTableAttribute

/-- `ParseAttributes`. -/
def parseAttributes (input : Text) : TableAttributes :=
  (input.splitOn ' ').foldl (fun attributes word =>
    if word = "NewChunk".toList then { attributes with newChunk := true }
    else if word = "NoTransliteration".toList then { attributes with noTransliteration := true }
    else if word = "DirectInput".toList then { attributes with directInput := true }
    else if word = "EndChunk".toList then { attributes with endChunk := true }
    else if word = "DisplayAmbiguousResult".toList then
      { attributes with displayAmbiguousResult := true }
    else attributes) noTableAttribute

/-- One line of `Table::LoadFromStream`. -/
def loadLine (fuel : Nat) (t : Table) (line : Text) : Option Table :=
  let line := (line.reverse.dropWhile fun c => c = '\r' || c = '\n').reverse
  if line.isEmpty then some t
  else
    match line.splitOn '\t' with
    | [input, output, pending, attributes] =>
        t.addRuleWithAttributes fuel input output pending (parseAttributes attributes)
    | [input, output, pending] => t.addRule fuel input output pending
    | [input, output] => t.addRule fuel input output []
    | _ => some t

/-- `Table::LoadFromString`. -/
def loadFromString (t : Table) (fuel : Nat) (str : Text) : Option Table :=
  (str.splitOn '\n').foldlM (loadLine fuel) t

/-! ## Keys with a text behind them -/

theorem normalized_append (t : Table) (text other : Text) :
    t.normalized (text ++ other) = t.normalized text ++ t.normalized other := by
  unfold normalized lowerString
  split
  · rfl
  · exact List.map_append

@[simp] theorem length_normalized (t : Table) (text : Text) :
    (t.normalized text).length = text.length := by
  unfold normalized lowerString
  split
  · rfl
  · exact List.length_map _

theorem keyLength_le (t : Table) (input : Text) : (t.lookUpPrefix input).keyLength ≤ input.length := by
  have inKey := t.entries.keyLength_le (t.normalized input)
  rwa [length_normalized] at inKey

/-- Whether a lookup passes the pending text can be told from the pending text. -/
theorem length_le_keyLength_append (t : Table) (pending input : Text) :
    pending.length ≤ (t.lookUpPrefix (pending ++ input)).keyLength ↔
      (t.lookUpPrefix pending).keyLength = pending.length := by
  have walked := t.entries.length_le_keyLength_append (t.normalized pending) (t.normalized input)
  rwa [← normalized_append, length_normalized] at walked

/-- A lookup that ends inside the pending text does not depend on the input. -/
theorem lookUpPrefix_append_of_lt {t : Table} {pending input : Text}
    (less : (t.lookUpPrefix (pending ++ input)).keyLength < pending.length) :
    t.lookUpPrefix (pending ++ input) = t.lookUpPrefix pending := by
  unfold lookUpPrefix at less ⊢
  rw [normalized_append] at less ⊢
  cases walked : t.entries.walk (t.normalized pending) with
  | none => exact (Trie.lookUpPrefix_append_of_not_walk walked _).1
  | some sub =>
      rw [Trie.lookUpPrefix_append_of_walk walked, length_normalized] at less
      exact absurd less (Nat.not_lt.2 (Nat.le_add_right _ _))

theorem data_of_lookUp {t : Table} {input : Text} {entry : Entry}
    (found : t.lookUp input = some entry) : (t.lookUpPrefix input).data = some entry :=
  Trie.data_lookUpPrefix found

/-! ## Tables that are built -/

/-- The tables that adding rules makes out of an empty one. -/
inductive Built : Table → Prop
  | new : Built new
  | addRule {t t' : Table} {fuel : Nat} {input output pending : Text} {attributes : TableAttributes} :
      Built t → t.addRuleWithAttributes fuel input output pending attributes = some t' → Built t'

theorem built_loadLine {t t' : Table} {fuel : Nat} {line : Text} (built : Built t)
    (loaded : loadLine fuel t line = some t') : Built t' := by
  unfold loadLine at loaded
  dsimp only at loaded
  split at loaded
  · exact Option.some_inj.1 loaded ▸ built
  · split at loaded
    · exact .addRule built loaded
    · exact .addRule built loaded
    · exact .addRule built loaded
    · exact Option.some_inj.1 loaded ▸ built

/-- Loading a text builds a table out of rules. -/
theorem built_loadFromString {t t' : Table} {fuel : Nat} {str : Text} (built : Built t)
    (loaded : t.loadFromString fuel str = some t') : Built t' := by
  unfold loadFromString at loaded
  generalize str.splitOn '\n' = lines at loaded
  induction lines generalizing t with
  | nil => exact Option.some_inj.1 loaded ▸ built
  | cons line lines ih =>
      rw [List.foldlM_cons] at loaded
      obtain ⟨next, first, loaded⟩ := Option.bind_eq_some_iff.1 loaded
      exact ih (built_loadLine built first) loaded

/-- Every rule of the table has attributes of a kind. -/
def AllAttributes (kind : TableAttributes → Prop) (t : Table) : Prop :=
  ∀ key entry, (t.entries.lookUpPrefix key).data = some entry → kind entry.attributes

variable {kind : TableAttributes → Prop} {t t' : Table} {fuel : Nat}
  {input output pending : Text} {attributes : TableAttributes}

theorem allAttributes_new : AllAttributes kind new := by
  intro key entry found
  rw [new, Trie.lookUpPrefix_empty] at found
  cases found

theorem allAttributes_addRuleHere (all : AllAttributes kind t) (ok : kind attributes)
    (added : t.addRuleHere fuel input output pending attributes = some t') :
    AllAttributes kind t' := by
  unfold addRuleHere at added
  dsimp only at added
  split at added
  · exact Option.some_inj.1 added ▸ all
  · split at added
    · cases added
    · exact Option.some_inj.1 added ▸ all
    · obtain rfl := Option.some_inj.1 added
      intro key entry found
      rcases Trie.data_of_addEntry found with rfl | ⟨before, wasFound⟩
      · exact ok
      · exact all before entry wasFound

/-- Rules of a kind make tables of that kind. -/
theorem allAttributes_addRule (all : AllAttributes kind t) (ok : kind attributes)
    (none_ : kind noTableAttribute)
    (added : t.addRuleWithAttributes fuel input output pending attributes = some t') :
    AllAttributes kind t' := by
  unfold addRuleWithAttributes at added
  split at added
  · obtain ⟨next, first, second⟩ := Option.bind_eq_some_iff.1 added
    exact allAttributes_addRuleHere (allAttributes_addRuleHere all none_ first) ok second
  · exact allAttributes_addRuleHere all ok added

end Table

end Mozkey.Composer
