import Mozkey.Composer.Composition

/-!
# The pending text and the length a lookup uses

A step of a chunk takes the length of the pending text from the length that the lookup of the
pending text and the input used.  Where no entry is found the shorter length is sorted out before.
Where an entry is found it is not, and the lookup may end at an entry inside the pending text: then
the difference wraps round and a substring past the end of the input is asked for.

The main result is `keepsPending_iff`: whether a step is safe can be told from the pending text
alone, whatever the input is.  Where the pending texts of all rules lead on in the table, typing
never leaves the safe chunks.
-/

namespace Mozkey.Composer

namespace CharChunk

variable (c : CharChunk) (input : Text)

/-- What the lookup of a step reports. -/
def stepLookup : PrefixMatch Entry := c.table.table.lookUpPrefix (c.pending ++ input)

/-- A lookup that finds an entry or a part of one uses at least the pending text. -/
def ReportsPending : Prop :=
  (c.stepLookup input).data.isSome ∨ 0 < (c.stepLookup input).keyLength →
    c.pending.length ≤ (c.stepLookup input).keyLength

/-- No substring is taken past the end of the input. -/
def InRange : Prop := (c.addInputInternal input).isSome

/-- The lookup uses the pending text, and the step stays inside of the input. -/
def KeepsPending : Prop := c.ReportsPending input ∧ c.InRange input

/-- Looked up by itself, the pending text is used to its end, or nothing of it is found. -/
def PendingLeads : Prop :=
  (c.table.table.lookUpPrefix c.pending).keyLength = c.pending.length ∨
    ((c.table.table.lookUpPrefix c.pending).data = none ∧
      (c.table.table.lookUpPrefix c.pending).keyLength = 0)

/-- Looked up by itself, the pending text leads to an entry before its end. -/
def EndsEarly : Prop :=
  (c.table.table.lookUpPrefix c.pending).data.isSome ∧
    (c.table.table.lookUpPrefix c.pending).keyLength < c.pending.length

/-! ## One step -/

variable {c input}

/-- The lookup passes the pending text, or is the lookup of the pending text. -/
theorem stepLookup_cases (c : CharChunk) (input : Text) :
    (c.pending.length ≤ (c.stepLookup input).keyLength ∧
      (c.table.table.lookUpPrefix c.pending).keyLength = c.pending.length) ∨
    (c.stepLookup input = c.table.table.lookUpPrefix c.pending ∧
      (c.table.table.lookUpPrefix c.pending).keyLength < c.pending.length) := by
  rcases Nat.lt_or_ge (c.stepLookup input).keyLength c.pending.length with less | passed
  · have same : c.stepLookup input = c.table.table.lookUpPrefix c.pending :=
      Table.lookUpPrefix_append_of_lt less
    exact .inr ⟨same, same ▸ less⟩
  · exact .inl ⟨passed, (c.table.table.length_le_keyLength_append c.pending input).1 passed⟩

theorem reportsPending_iff : c.ReportsPending input ↔ c.PendingLeads := by
  rcases stepLookup_cases c input with ⟨passed, all⟩ | ⟨same, less⟩
  · exact iff_of_true (fun _ => passed) (.inl all)
  · unfold ReportsPending PendingLeads
    rw [same]
    constructor
    · intro reports
      have nothing := mt reports (Nat.not_le.2 less)
      obtain ⟨noData, noLength⟩ := not_or.1 nothing
      exact .inr ⟨Option.not_isSome_iff_eq_none.1 noData, Nat.eq_zero_of_not_pos noLength⟩
    · rintro (all | ⟨noData, noLength⟩) found
      · exact absurd all (Nat.ne_of_lt less)
      · rcases found with some | positive
        · rw [noData] at some
          cases some
        · exact absurd noLength (Nat.ne_of_gt positive)

/-- **A step is out of range exactly when its lookup ends at an entry inside the pending text.** -/
theorem inRange_iff_lookup : c.InRange input ↔
    ((c.stepLookup input).data.isSome → c.pending.length ≤ (c.stepLookup input).keyLength) := by
  have lookup : c.table.table.lookUpPrefix (c.pending ++ input) = c.stepLookup input := rfl
  simp only [InRange, addInputInternal, lookup]
  cases found : (c.stepLookup input).data with
  | none => simp
  | some entry =>
      dsimp only
      by_cases less : (c.stepLookup input).keyLength < c.pending.length
      · rw [if_pos less]
        simpa using less
      · rw [if_neg less]
        simpa using less

theorem inRange_iff : c.InRange input ↔ ¬ c.EndsEarly := by
  rw [inRange_iff_lookup]
  rcases stepLookup_cases c input with ⟨passed, all⟩ | ⟨same, less⟩
  · refine iff_of_true (fun _ => passed) ?_
    intro early
    exact Nat.ne_of_lt early.2 all
  · rw [same]
    constructor
    · intro enough early
      exact absurd (enough early.1) (Nat.not_le.2 early.2)
    · intro late found
      exact absurd ⟨found, less⟩ late

theorem not_endsEarly_of_pendingLeads (leads : c.PendingLeads) : ¬ c.EndsEarly := by
  rintro ⟨found, less⟩
  rcases leads with all | ⟨noData, _⟩
  · exact Nat.ne_of_lt less all
  · rw [noData] at found
    cases found

/-! ## The loop -/

/-- A round of `AddInput` behind which the loop goes on. -/
def Round (s s' : CharChunk × Text) : Prop := s.1.addInputInternal s.2 = some (s'.1, true, s'.2)

/-- The loop comes to a step that is out of range. -/
def Throws (c : CharChunk) (input : Text) : Prop :=
  ∃ s, Relation.ReflTransGen Round (c, input) s ∧ ¬ s.1.InRange s.2

end CharChunk

open CharChunk

/-- **The pending text decides.**  A step uses the pending text exactly when the pending text leads
on or leads nowhere, it is in range exactly when the pending text does not end early at an entry,
and a loop throws exactly when it comes to a chunk whose pending text does. -/
theorem keepsPending_iff (c : CharChunk) (input : Text) :
    (c.KeepsPending input ↔ c.PendingLeads) ∧ (c.InRange input ↔ ¬ c.EndsEarly) ∧
      (c.Throws input ↔ ∃ s, Relation.ReflTransGen Round (c, input) s ∧ s.1.EndsEarly) := by
  refine ⟨⟨?_, ?_⟩, inRange_iff, ?_⟩
  · intro keeps
    exact reportsPending_iff.1 keeps.1
  · intro leads
    exact ⟨reportsPending_iff.2 leads, inRange_iff.2 (not_endsEarly_of_pendingLeads leads)⟩
  · refine exists_congr fun s => and_congr_right fun _ => ?_
    rw [inRange_iff, not_not]

/-! ## A table whose rules do not lead on -/

/-- A rule for a letter, and a rule whose pending text begins with the letter. -/
def letterRules : Text := "b\tB\na\t\tbc".toList

/-- **Typing gets there.**  The pending text of a rule may end early, and the next character then
is out of range. -/
theorem not_keepsPending : ¬ ∀ t, Table.Built t → ∀ c, ReachedChunk (· = t) c →
    ∀ input, c.KeepsPending input := by
  intro keeps
  have ends : ((Table.new.loadFromString 9 letterRules).bind fun t =>
      ((CharChunk.new .hiragana ⟨0, t⟩).addCompositionInput 9
        { CompositionInput.new with raw := ['a'] }).map fun typed =>
          (typed.1.addInputInternal ['x']).isNone) = some true := by
    decide +kernel
  obtain ⟨t, loaded, ends⟩ := Option.bind_eq_some_iff.1 ends
  obtain ⟨⟨c, rest⟩, typed, ends⟩ := Option.map_eq_some_iff.1 ends
  have reached : ReachedChunk (· = t) c := .addCompositionInput (.new .hiragana 0 rfl) typed
  have inRange := (keeps t (Table.built_loadFromString .new loaded) c reached ['x']).2
  unfold CharChunk.InRange at inRange
  rw [Option.isNone_iff_eq_none.1 ends] at inRange
  cases inRange

/-! ## Tables that are safe to type with -/

/-- The pending text of every rule is used to its end when it is looked up. -/
def RulesLead (t : Table) : Prop :=
  ∀ text entry, (t.lookUpPrefix text).data = some entry →
    (t.lookUpPrefix entry.pending).keyLength = entry.pending.length

namespace CharChunk

variable {c : CharChunk} {input : Text}

/-- The pending text is used to its end when it is looked up. -/
def PendingUsed (c : CharChunk) : Prop :=
  (c.table.table.lookUpPrefix c.pending).keyLength = c.pending.length

/-- What a lookup used is used again when it is looked up alone. -/
theorem keyLength_take (t : Table) (key : Text) :
    (t.lookUpPrefix (key.take (t.lookUpPrefix key).keyLength)).keyLength =
      (key.take (t.lookUpPrefix key).keyLength).length := by
  refine (t.length_le_keyLength_append _ (key.drop (t.lookUpPrefix key).keyLength)).1 ?_
  rw [List.take_append_drop, List.length_take]
  exact Nat.min_le_left _ _

theorem table_of_step {step : CharChunk × Bool × Text} (does : Step c input step) :
    step.1.table = c.table := by
  cases does with
  | withoutEntry _ without => cases without <;> rfl
  | withEntry _ _ withEntry => cases withEntry <;> rfl

/-- A step keeps the pending text in use. -/
theorem pendingUsed_of_step (lead : RulesLead c.table.table) (used : c.PendingUsed)
    {step : CharChunk × Bool × Text} (does : Step c input step) : step.1.PendingUsed := by
  have empty : (c.table.table.lookUpPrefix []).keyLength = ([] : Text).length :=
    Nat.le_zero.1 (c.table.table.keyLength_le [])
  cases does with
  | withoutEntry _ without =>
      cases without with
      | restored => exact empty
      | trimmed => exact used
      | front => exact used
      | unused => exact used
      | taken more =>
          have again := keyLength_take c.table.table (c.pending ++ input)
          rwa [List.take_append, List.take_of_length_le (Nat.le_of_lt more)] at again
  | withEntry isEntry _ withEntry =>
      cases withEntry with
      | settled => exact lead _ _ isEntry
      | cleared => exact lead _ _ isEntry
      | awaited _ all => exact all

end CharChunk

/-- **With such a table, typing is safe**: from a chunk whose pending text is used, no loop throws. -/
theorem not_throws_of_rulesLead {c : CharChunk} (lead : RulesLead c.table.table)
    (used : c.PendingUsed) (input : Text) : ¬ c.Throws input := by
  rintro ⟨s, rounds, outOfRange⟩
  have kept : s.1.table = c.table ∧ s.1.PendingUsed := by
    clear outOfRange
    induction rounds with
    | refl => exact ⟨rfl, used⟩
    | tail _ round ih =>
        obtain ⟨sameTable, used⟩ := ih
        have does := step_of_eq_some round
        rw [← sameTable] at lead
        exact ⟨(table_of_step does).trans sameTable, pendingUsed_of_step lead used does⟩
  exact outOfRange (inRange_iff.2 (not_endsEarly_of_pendingLeads (.inl kept.2)))

/-- Rules for a syllable, and for a doubled consonant that goes on with its second letter. -/
def kaRules : Table :=
  { Table.new with
    entries := (Trie.empty.addEntry ['k', 'k'] ⟨['k', 'k'], ['っ'], ['k'], noTableAttribute⟩).addEntry
      ['k', 'a'] ⟨['k', 'a'], ['か'], [], noTableAttribute⟩ }

theorem kaRules_built : Table.Built kaRules := by
  have added : ((Table.new.addRule 9 ['k', 'k'] ['っ'] ['k']).bind fun t =>
      t.addRule 9 ['k', 'a'] ['か'] []) = some kaRules := rfl
  obtain ⟨t, first, second⟩ := Option.bind_eq_some_iff.1 added
  exact .addRule (.addRule .new first) second

theorem kaRules_lead : RulesLead kaRules := by
  intro text entry found
  have lead : (kaRules.lookUpPrefix ['k']).keyLength = 1 ∧ (kaRules.lookUpPrefix []).keyLength = 0 := by
    decide
  rcases Trie.data_of_addEntry found with rfl | ⟨before, wasFound⟩
  · exact lead.2
  · rcases Trie.data_of_addEntry wasFound with rfl | ⟨before', nothing⟩
    · exact lead.1
    · rw [Trie.lookUpPrefix_empty] at nothing
      cases nothing

/-- The chunk in which the first consonant was typed. -/
def typedConsonant : CharChunk :=
  { CharChunk.new .hiragana ⟨0, kaRules⟩ with raw := ['k'], pending := ['k'] }

/-- Behind the first consonant, the consonant can be doubled and the syllable ended. -/
theorem not_throws_kaRules : Table.Built kaRules ∧ ¬ typedConsonant.Throws ['k', 'a'] :=
  ⟨kaRules_built, @not_throws_of_rulesLead typedConsonant kaRules_lead rfl _⟩

end Mozkey.Composer
