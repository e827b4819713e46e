import Mathlib

/-!
# Special keys

The composer's texts are UTF-8, and a text is the list of its characters here.  Lengths that the
program counts in bytes are only compared with lengths of texts that one begins or ends with
another, where characters tell the same; where they are not, `size` counts the bytes.

A rule may name keys that are no characters, such as `{!}`.  They are replaced by private characters,
and those that no rule names by their names between two control characters.
-/

namespace Mozkey.Composer

/-- A text in UTF-8, as its characters. -/
abbrev Text := List Char

/-- The bytes that a text takes. -/
def size (text : Text) : Nat := (text.map Char.utf8Size).sum

def kSpecialKeyBegin : Nat := 0xF000
def kSpecialKeyEnd : Nat := 0xF8FF
def kSpecialKeyOpen : Char := Char.ofNat 0x0F
def kSpecialKeyClose : Char := Char.ofNat 0x0E

def isSpecialKey (c : Char) : Bool := kSpecialKeyBegin ≤ c.toNat && c.toNat ≤ kSpecialKeyEnd

/-- `FindBlock`: what is in front of the first block, inside it and behind it. -/
def findBlock (opening closing : Char) (input : Text) : Option (Text × Text × Text) :=
  match input.dropWhile (· != opening) with
  | [] => none
  | _ :: inside =>
      match inside.dropWhile (· != closing) with
      | [] => none
      | _ :: rest => some (input.takeWhile (· != opening), inside.takeWhile (· != closing), rest)

/-- `SpecialKeyMap`: the keys and the private characters that stand for them. -/
abbrev SpecialKeyMap := List (Text × Text)

namespace SpecialKeyMap

/-- The callback of `SpecialKeyMap::Register`. -/
def registerKey (map : SpecialKeyMap) (key : Text) : SpecialKeyMap × Text :=
  match map.lookup key with
  | some specialKey => (map, specialKey)
  | none =>
      let keycode := min (kSpecialKeyBegin + map.length) kSpecialKeyEnd
      let specialKey := [Char.ofNat keycode]
      ((key, specialKey) :: map, specialKey)

/-- The callback of `SpecialKeyMap::Parse`. -/
def parseKey (map : SpecialKeyMap) (key : Text) : SpecialKeyMap × Text :=
  match map.lookup key with
  | some specialKey => (map, specialKey)
  | none => (map, kSpecialKeyOpen :: key ++ [kSpecialKeyClose])

/-- The loop of `ParseBlock`; every round takes a block off the input. -/
def parseBlockWithin (callback : SpecialKeyMap → Text → SpecialKeyMap × Text) :
    Nat → SpecialKeyMap → Text → SpecialKeyMap × Text
  | 0, map, input => (map, input)
  | fuel + 1, map, input =>
      match findBlock '{' '}' input with
      | none => (map, input)
      | some (front, key, rest) =>
          -- a brace between braces stands for itself
          let (map, shown) := if key = ['{'] then (map, ['{']) else callback map key
          let (map, output) := parseBlockWithin callback fuel map rest
          (map, front ++ shown ++ output)

/-- `SpecialKeyMap::Register`. -/
def register (map : SpecialKeyMap) (input : Text) : SpecialKeyMap × Text :=
  parseBlockWithin registerKey input.length map input

/-- `SpecialKeyMap::Parse`. -/
def parse (map : SpecialKeyMap) (input : Text) : Text :=
  (parseBlockWithin parseKey input.length map input).2

end SpecialKeyMap

/-- `TrimLeadingSpecialKey`. -/
def trimLeadingSpecialKey : Text → Text
  | [] => []
  | c :: rest =>
      if isSpecialKey c then rest
      else if c = kSpecialKeyOpen then
        match rest.dropWhile (· != kSpecialKeyClose) with
        | [] => c :: rest
        | _ :: behind => behind
      else c :: rest

/-- The loop of `DeleteSpecialKeys` over the named keys; every round takes a block off the input. -/
def deleteBlocksWithin : Nat → Text → Text
  | 0, input => input
  | fuel + 1, input =>
      match findBlock kSpecialKeyOpen kSpecialKeyClose input with
      | none => input
      | some (front, _, rest) => front ++ deleteBlocksWithin fuel rest

/-- `DeleteSpecialKeys`.  Where private characters are deleted, null characters get lost with them. -/
def deleteSpecialKeys (input : Text) : Text :=
  let output := deleteBlocksWithin input.length input
  if output.any isSpecialKey then output.filter fun c => !isSpecialKey c && c.toNat != 0
  else output

/-! ## Texts without special keys -/

/-- No special key stands or begins in the text. -/
def Visible (text : Text) : Prop := ∀ c ∈ text, isSpecialKey c = false ∧ c ≠ kSpecialKeyOpen

theorem visible_iff {text : Text} :
    (text.all fun c => !isSpecialKey c && c != kSpecialKeyOpen) = true ↔ Visible text := by
  simp [Visible]

instance (text : Text) : Decidable (Visible text) := decidable_of_iff _ visible_iff

namespace Visible

variable {text other : Text}

theorem append_iff : Visible (text ++ other) ↔ Visible text ∧ Visible other :=
  List.forall_mem_append

/-- Nothing is trimmed. -/
theorem trimLeadingSpecialKey_eq (visible : Visible text) : trimLeadingSpecialKey text = text := by
  cases text with
  | nil => rfl
  | cons c rest =>
      obtain ⟨notSpecial, notOpen⟩ := visible c List.mem_cons_self
      rw [trimLeadingSpecialKey, notSpecial, if_neg Bool.false_ne_true, if_neg notOpen]

end Visible

end Mozkey.Composer
