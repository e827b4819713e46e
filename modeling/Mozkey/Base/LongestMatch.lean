import Mozkey.Base.Trie

/-!
# The longest match of a trie

`Trie::LongestMatch` walks along a key and tells the data of the last node on the way that has any.
A trie that is filled from a list of entries holds exactly these, so that its longest match is an
entry that begins the key such that no longer entry does.
-/

namespace Mozkey.Trie

variable {κ α : Type} [DecidableEq κ]

/-- `Trie::LongestMatch`: the data, and how many characters of the key lead to it. -/
def longestMatch : Trie κ α → List κ → Option (α × Nat)
  | t, [] => t.data.map fun a => (a, 0)
  | t, c :: rest =>
      match t.findSubTrie c with
      | none => t.data.map fun a => (a, 0)
      | some sub =>
          match sub.longestMatch rest with
          | some (a, keyLength) => some (a, keyLength + 1)
          | none => t.data.map fun a => (a, 0)

/-- A trie that is filled with entries one after another. -/
def ofEntries (entries : List (List κ × α)) : Trie κ α :=
  entries.foldl (fun t entry => t.addEntry entry.1 entry.2) empty

variable {t : Trie κ α}

/-! ## Looking up what was added -/

theorem lookUp_empty (key : List κ) : (empty : Trie κ α).lookUp key = none := by
  cases key <;> rfl

/-- An entry is found under its key, and the other keys are left alone. -/
theorem lookUp_addEntry (key looked : List κ) (a : α) (t : Trie κ α) :
    (t.addEntry key a).lookUp looked = if looked = key then some a else t.lookUp looked := by
  induction key generalizing t looked with
  | nil =>
      cases looked with
      | nil => rfl
      | cons d rest => simp [addEntry, lookUp, findSubTrie, subTries]
  | cons c key ih =>
      cases looked with
      | nil => simp [addEntry, lookUp, data]
      | cons d looked =>
          rw [addEntry, lookUp, findSubTrie, subTries, List.lookup_cons]
          by_cases same : d = c
          · subst same
            rw [beq_self_eq_true]
            simp only [ih, List.cons.injEq, true_and]
            rw [lookUp]
            cases next : t.findSubTrie d with
            | none => simp [lookUp_empty]
            | some sub => simp
          · rw [beq_false_of_ne same]
            simp only [lookup_filter_ne same, List.cons.injEq, same, false_and, if_false]
            rw [lookUp]
            rfl

/-- **A filled trie holds its entries**, provided that their keys differ. -/
theorem lookUp_ofEntries {entries : List (List κ × α)} (distinct : (entries.map Prod.fst).Nodup)
    (key : List κ) (a : α) : (ofEntries entries).lookUp key = some a ↔ (key, a) ∈ entries := by
  induction entries using List.reverseRecOn with
  | nil => simp [ofEntries, lookUp_empty]
  | append_singleton entries entry ih =>
      obtain ⟨k, b⟩ := entry
      rw [List.map_append, List.nodup_append] at distinct
      obtain ⟨before, -, apart⟩ := distinct
      rw [ofEntries, List.foldl_append, List.foldl_cons, List.foldl_nil, lookUp_addEntry]
      by_cases same : key = k
      · subst same
        have new : (key, a) ∉ entries := fun mem =>
          apart key (List.mem_map.mpr ⟨(key, a), mem, rfl⟩) key (by simp) rfl
        simp [new, eq_comm]
      · rw [if_neg same]
        have old := ih before
        rw [ofEntries] at old
        rw [old]
        simp [same]

/-! ## The longest match -/

/-- Where no beginning of a key is found, nothing matches. -/
theorem longestMatch_eq_none {key : List κ} (missing : ∀ front, front <+: key → t.lookUp front = none) :
    t.longestMatch key = none := by
  have here : t.data = none := missing [] List.nil_prefix
  induction key generalizing t with
  | nil => simp [longestMatch, here]
  | cons c rest ih =>
      rw [longestMatch]
      cases next : t.findSubTrie c with
      | none => simp [here]
      | some sub =>
          have below : ∀ front, front <+: rest → sub.lookUp front = none := by
            intro front begins
            have above := missing (c :: front) (List.cons_prefix_cons.mpr ⟨rfl, begins⟩)
            simpa [lookUp, next] using above
          simp [ih below (below [] List.nil_prefix), here]

/-- **The longest match** is a beginning of the key that is found, if none beyond it is. -/
theorem longestMatch_append {key behind : List κ} {a : α} (found : t.lookUp key = some a)
    (longest : ∀ more, more ≠ [] → more <+: behind → t.lookUp (key ++ more) = none) :
    t.longestMatch (key ++ behind) = some (a, key.length) := by
  induction key generalizing t with
  | nil =>
      have here : t.data = some a := found
      cases behind with
      | nil => simp [longestMatch, here]
      | cons c rest =>
          rw [List.nil_append, longestMatch]
          cases next : t.findSubTrie c with
          | none => simp [here]
          | some sub =>
              have below : sub.longestMatch rest = none := by
                refine longestMatch_eq_none fun front begins => ?_
                have above := longest (c :: front) (List.cons_ne_nil _ _)
                  (List.cons_prefix_cons.mpr ⟨rfl, begins⟩)
                simpa [lookUp, next] using above
              simp [below, here]
  | cons c key ih =>
      rw [List.cons_append, longestMatch]
      cases next : t.findSubTrie c with
      | none => simp [lookUp, next] at found
      | some sub =>
          have deeper := ih (t := sub) (by simpa [lookUp, next] using found) (by
            intro more nonempty begins
            simpa [lookUp, next] using longest more nonempty begins)
          simp [deeper]

/-- The longest match of a filled trie: an entry that begins the key and is not shorter than any
other that does. -/
theorem longestMatch_ofEntries {entries : List (List κ × α)}
    (distinct : (entries.map Prod.fst).Nodup) {key behind : List κ} {a : α}
    (found : (key, a) ∈ entries)
    (longest : ∀ entry ∈ entries, entry.1 <+: key ++ behind → entry.1.length ≤ key.length) :
    (ofEntries entries).longestMatch (key ++ behind) = some (a, key.length) := by
  refine longestMatch_append ((lookUp_ofEntries distinct key a).mpr found) ?_
  intro more nonempty begins
  by_contra isFound
  obtain ⟨b, isFound⟩ := Option.ne_none_iff_exists'.mp isFound
  have short := longest _ ((lookUp_ofEntries distinct _ b).mp isFound)
    ((List.prefix_append_right_inj key).mpr begins)
  have positive := List.length_pos_of_ne_nil nonempty
  simp only [List.length_append] at short
  omega

end Mozkey.Trie
