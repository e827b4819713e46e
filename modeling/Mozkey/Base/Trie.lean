import Mathlib

/-!
# Tries

A node of a trie holds data or none and the subtries that single characters lead to.
Looking a key up by its prefix walks as far as the characters of the key lead, and tells the
data of the last node, how many characters were walked, and whether the walk can lead no further.
The subtries are an unordered map in the program; here they are listed by their characters.
-/

namespace Mozkey

/-- `Trie`. -/
inductive Trie (κ α : Type) where
  | node (data : Option α) (subTries : List (κ × Trie κ α))

/-- What `Trie::LookUpPrefix` reports. -/
structure PrefixMatch (α : Type) where
  data : Option α
  keyLength : Nat
  fixed : Bool

namespace Trie

variable {κ α : Type} [DecidableEq κ]

/-- The trie without any entry. -/
def empty : Trie κ α := node none []

/-- `data_`. -/
def data : Trie κ α → Option α
  | node data _ => data

/-- `trie_`. -/
def subTries : Trie κ α → List (κ × Trie κ α)
  | node _ subTries => subTries

/-- `Trie::FindSubTrie`. -/
def findSubTrie (t : Trie κ α) (c : κ) : Option (Trie κ α) := t.subTries.lookup c

/-- `Trie::AddEntry`. -/
def addEntry : List κ → α → Trie κ α → Trie κ α
  | [], a, t => node (some a) t.subTries
  | c :: rest, a, t =>
      let sub := (t.findSubTrie c).getD empty
      node t.data ((c, addEntry rest a sub) :: t.subTries.filter fun other => other.1 ≠ c)

/-- `Trie::LookUp`. -/
def lookUp : Trie κ α → List κ → Option α
  | t, [] => t.data
  | t, c :: rest =>
      match t.findSubTrie c with
      | none => none
      | some sub => sub.lookUp rest

/-- The walk ends in this node. -/
def here (t : Trie κ α) : PrefixMatch α :=
  { data := t.data, keyLength := 0, fixed := t.data.isNone || t.subTries.isEmpty }

/-- `Trie::LookUpPrefix`. -/
def lookUpPrefix : Trie κ α → List κ → PrefixMatch α
  | t, [] => t.here
  | t, c :: rest =>
      match t.findSubTrie c with
      | none => t.here
      | some sub =>
          let found := sub.lookUpPrefix rest
          { found with keyLength := found.keyLength + 1 }

/-- `Trie::HasSubTrie`. -/
def hasSubTrie : Trie κ α → List κ → Bool
  | _, [] => false
  | t, c :: rest =>
      match t.findSubTrie c with
      | none => false
      | some sub => rest.isEmpty || sub.hasSubTrie rest

/-! ## The walk along a key -/

variable {t : Trie κ α} {key behind : List κ}

/-- The node that a whole key leads to. -/
def walk : Trie κ α → List κ → Option (Trie κ α)
  | t, [] => some t
  | t, c :: rest => (t.findSubTrie c).bind fun sub => sub.walk rest

/-- Data that a whole key leads to is found when the key is looked up by its prefix. -/
theorem data_lookUpPrefix {a : α} (found : t.lookUp key = some a) :
    (t.lookUpPrefix key).data = some a := by
  induction key generalizing t with
  | nil => exact found
  | cons c rest ih =>
      rw [lookUp] at found
      rw [lookUpPrefix]
      cases next : t.findSubTrie c with
      | none =>
          rw [next] at found
          cases found
      | some sub =>
          rw [next] at found
          exact ih found

/-- The walk does not go beyond the key. -/
theorem keyLength_le (t : Trie κ α) (key : List κ) : (t.lookUpPrefix key).keyLength ≤ key.length := by
  induction key generalizing t with
  | nil => exact Nat.le_refl 0
  | cons c rest ih =>
      rw [lookUpPrefix]
      cases t.findSubTrie c with
      | none => exact Nat.zero_le _
      | some sub => exact Nat.succ_le_succ (ih sub)

/-- Behind a key that is walked to its end, the walk goes on from there. -/
theorem lookUpPrefix_append_of_walk {sub : Trie κ α} (walked : t.walk key = some sub)
    (behind : List κ) :
    t.lookUpPrefix (key ++ behind) =
      { sub.lookUpPrefix behind with
        keyLength := key.length + (sub.lookUpPrefix behind).keyLength } := by
  induction key generalizing t with
  | nil =>
      obtain rfl : t = sub := Option.some_inj.1 walked
      rw [List.nil_append, List.length_nil, Nat.zero_add]
  | cons c rest ih =>
      obtain ⟨next, found, walked⟩ := Option.bind_eq_some_iff.1 walked
      rw [List.cons_append, lookUpPrefix, found]
      dsimp only
      rw [ih walked, List.length_cons]
      dsimp only
      rw [Nat.add_right_comm]

/-- A walk that ends inside a key does not depend on what is behind the key. -/
theorem lookUpPrefix_append_of_not_walk (stuck : t.walk key = none) (behind : List κ) :
    t.lookUpPrefix (key ++ behind) = t.lookUpPrefix key ∧
      (t.lookUpPrefix key).keyLength < key.length := by
  induction key generalizing t with
  | nil => cases stuck
  | cons c rest ih =>
      rw [List.cons_append, lookUpPrefix, lookUpPrefix]
      cases found : t.findSubTrie c with
      | none => exact ⟨rfl, Nat.succ_pos _⟩
      | some next =>
          rw [walk, found] at stuck
          obtain ⟨same, less⟩ := ih stuck
          refine ⟨?_, Nat.succ_lt_succ less⟩
          dsimp only
          rw [same]

/-- **A key is walked to its end exactly when all of it is used.** -/
theorem keyLength_eq_iff : (t.lookUpPrefix key).keyLength = key.length ↔ (t.walk key).isSome := by
  cases walked : t.walk key with
  | none =>
      have less := (lookUpPrefix_append_of_not_walk walked []).2
      exact iff_of_false (Nat.ne_of_lt less) Bool.false_ne_true
  | some sub =>
      have all := lookUpPrefix_append_of_walk walked []
      rw [List.append_nil] at all
      exact iff_of_true (congrArg PrefixMatch.keyLength all) rfl

/-- Whether the walk passes the end of a key can be told from the key alone. -/
theorem length_le_keyLength_append (t : Trie κ α) (key behind : List κ) :
    key.length ≤ (t.lookUpPrefix (key ++ behind)).keyLength ↔
      (t.lookUpPrefix key).keyLength = key.length := by
  cases walked : t.walk key with
  | none =>
      obtain ⟨same, less⟩ := lookUpPrefix_append_of_not_walk walked behind
      rw [same]
      exact iff_of_false (Nat.not_le.2 less) (Nat.ne_of_lt less)
  | some sub =>
      rw [keyLength_eq_iff, walked, lookUpPrefix_append_of_walk walked]
      exact iff_of_true (Nat.le_add_right _ _) rfl

/-! ## Entries that are added -/

theorem lookUpPrefix_empty (key : List κ) : ((empty : Trie κ α).lookUpPrefix key).data = none := by
  cases key <;> rfl

theorem lookup_filter_ne {β : Type} {c d : κ} (other : d ≠ c) (pairs : List (κ × β)) :
    (pairs.filter fun pair => pair.1 ≠ c).lookup d = pairs.lookup d := by
  induction pairs with
  | nil => rfl
  | cons pair pairs ih =>
      obtain ⟨e, b⟩ := pair
      by_cases same : e = c
      · subst same
        rw [List.filter_cons_of_neg (by simp), ih, List.lookup_cons, beq_false_of_ne other]
      · rw [List.filter_cons_of_pos (by simpa using same), List.lookup_cons, List.lookup_cons, ih]

/-- **What is found after an entry was added** is the entry or was found before. -/
theorem data_of_addEntry {added found : α} {looked : List κ}
    (isFound : ((t.addEntry key added).lookUpPrefix looked).data = some found) :
    found = added ∨ ∃ before, (t.lookUpPrefix before).data = some found := by
  induction key generalizing t looked with
  | nil =>
      cases looked with
      | nil => exact .inl (Option.some_inj.1 isFound).symm
      | cons d rest =>
          rw [addEntry, lookUpPrefix] at isFound
          change (match t.findSubTrie d with
            | none => (node (some added) t.subTries).here
            | some sub => _).data = some found at isFound
          cases next : t.findSubTrie d with
          | none =>
              rw [next] at isFound
              exact .inl (Option.some_inj.1 isFound).symm
          | some sub =>
              rw [next] at isFound
              refine .inr ⟨d :: rest, ?_⟩
              rw [lookUpPrefix, next]
              exact isFound
  | cons c rest ih =>
      cases looked with
      | nil => exact .inr ⟨[], isFound⟩
      | cons d behind =>
          rw [addEntry, lookUpPrefix, findSubTrie, subTries, List.lookup_cons] at isFound
          by_cases same : d = c
          · subst same
            rw [beq_self_eq_true] at isFound
            rcases ih isFound with isAdded | ⟨before, wasFound⟩
            · exact .inl isAdded
            · cases next : t.findSubTrie d with
              | none =>
                  rw [next, Option.getD_none, lookUpPrefix_empty] at wasFound
                  cases wasFound
              | some sub =>
                  rw [next, Option.getD_some] at wasFound
                  refine .inr ⟨d :: before, ?_⟩
                  rw [lookUpPrefix, next]
                  exact wasFound
          · rw [beq_false_of_ne same] at isFound
            dsimp only at isFound
            rw [lookup_filter_ne same] at isFound
            change (match t.findSubTrie d with
              | none => (node t.data _).here
              | some sub => _).data = some found at isFound
            cases next : t.findSubTrie d with
            | none =>
                rw [next] at isFound
                exact .inr ⟨[], isFound⟩
            | some sub =>
                rw [next] at isFound
                refine .inr ⟨d :: behind, ?_⟩
                rw [lookUpPrefix, next]
                exact isFound

end Trie

end Mozkey
