import Mozkey.Composer.Composer

/-!
# Inserting a key event

A key event without a key code is searched for the shift key, and the loop over its modifier keys
asks whether there are any and not whether there is one more.  So it comes to an end only by finding
shift, or at once, and otherwise it reads behind the last key.  Everything else that a key event
does are the insertions of an input into the composition.
-/

set_option autoImplicit false
set_option linter.dupNamespace false

namespace Mozkey.Composer

/-! ## What more time changes -/

namespace CharChunk

theorem addInput_succ {fuel : Nat} {c : CharChunk} {input : Text} {result : CharChunk × Text}
    (ends : addInput fuel c input = some result) : addInput (fuel + 1) c input = some result := by
  induction fuel generalizing c input with
  | zero => cases ends
  | succ fuel ih =>
      rw [addInput] at ends ⊢
      cases step : c.addInputInternal input with
      | none =>
          rw [step] at ends
          cases ends
      | some next =>
          obtain ⟨c, goesOn, rest⟩ := next
          rw [step] at ends
          cases goesOn with
          | false => exact ends
          | true => exact ih ends

theorem addCompositionInput_succ {fuel : Nat} {c : CharChunk} {input : CompositionInput}
    {result : CharChunk × CompositionInput}
    (ends : c.addCompositionInput fuel input = some result) :
    c.addCompositionInput (fuel + 1) input = some result := by
  unfold addCompositionInput at ends ⊢
  split_ifs at ends ⊢
  · exact ends
  · exact ends
  · cases added : addInput fuel c input.raw with
    | none =>
        rw [added] at ends
        cases ends
    | some step =>
        rw [added] at ends
        rw [addInput_succ added]
        exact ends

end CharChunk

namespace Composition

theorem insertLoop_succ {comp : Composition} {fuel : Nat} {c : CharChunk} {input : CompositionInput}
    {result : List CharChunk × CharChunk} (ends : comp.insertLoop fuel c input = some result) :
    comp.insertLoop (fuel + 1) c input = some result := by
  induction fuel generalizing c input result with
  | zero => cases ends
  | succ fuel ih =>
      rw [insertLoop] at ends ⊢
      cases added : c.addCompositionInput fuel input with
      | none =>
          rw [added] at ends
          cases ends
      | some step =>
          rw [added] at ends
          rw [CharChunk.addCompositionInput_succ added]
          dsimp only at ends ⊢
          split_ifs at ends ⊢
          · exact ends
          · obtain ⟨more, loops, same⟩ := Option.map_eq_some_iff.1 ends
            rw [ih loops]
            exact congrArg some same

theorem insertInput_succ {forms : CharacterForms} {comp : Composition} {fuel pos : Nat}
    {input : CompositionInput} {result : Composition × Nat}
    (ends : comp.insertInput forms fuel pos input = some result) :
    comp.insertInput forms (fuel + 1) pos input = some result := by
  unfold insertInput at ends ⊢
  split_ifs at ends ⊢
  · exact ends
  · obtain ⟨point, found, ends⟩ := Option.bind_eq_some_iff.1 ends
    obtain ⟨front, before, same⟩ := Option.map_eq_some_iff.1 ends
    obtain ⟨chunks, loops, inFront⟩ := Option.map_eq_some_iff.1 before
    refine Option.bind_eq_some_iff.2 ⟨point, found, Option.map_eq_some_iff.2 ⟨front, ?_, same⟩⟩
    exact Option.map_eq_some_iff.2 ⟨chunks, insertLoop_succ loops, inFront⟩

end Composition

/-! ## Parts that return -/

namespace Outcome

variable {α β : Type}

@[simp] theorem bind_returned (value : α) (next : α → Outcome β) :
    (returned value).bind next = next value := rfl

theorem bind_eq_returned {outcome : Outcome α} {next : α → Outcome β} {value : β} :
    outcome.bind next = .returned value ↔
      ∃ first, outcome = .returned first ∧ next first = .returned value := by
  cases outcome with
  | running => simp [Outcome.bind]
  | outOfRange => simp [Outcome.bind]
  | returned first => simp

theorem bind_eq_running {outcome : Outcome α} {next : α → Outcome β} :
    outcome.bind next = .running ↔
      outcome = .running ∨ ∃ value, outcome = .returned value ∧ next value = .running := by
  cases outcome with
  | running => simp [Outcome.bind]
  | outOfRange => simp [Outcome.bind]
  | returned value => simp

/-- A part of the program returns when it gets enough steps. -/
def Returns (run : Nat → Outcome α) : Prop := ∃ fuel value, run fuel = .returned value

/-- With any number of steps nothing is read behind the end of a list, and with enough of them
the part returns. -/
def Safe (run : Nat → Outcome α) : Prop := (∀ fuel, run fuel ≠ .outOfRange) ∧ Returns run

/-- What has come to an end does not change with more steps. -/
def Settles (run : Nat → Outcome α) : Prop :=
  ∀ fuel, run fuel ≠ .running → run (fuel + 1) = run fuel

theorem Settles.le {run : Nat → Outcome α} (settles : Settles run) {fuel more : Nat}
    (le : fuel ≤ more) (ends : run fuel ≠ .running) : run more = run fuel := by
  induction le with
  | refl => rfl
  | step _ ih => rw [settles _ (ih.symm ▸ ends), ih]

theorem Settles.returned_le {run : Nat → Outcome α} (settles : Settles run) {fuel more : Nat}
    {value : α} (le : fuel ≤ more) (ends : run fuel = .returned value) :
    run more = .returned value := by
  rw [settles.le le (by simp [ends]), ends]

/-- What returns with some number of steps is not out of range with another one. -/
theorem Settles.safe_iff {run : Nat → Outcome α} (settles : Settles run) :
    Safe run ↔ Returns run := by
  refine ⟨And.right, fun returns => ⟨?_, returns⟩⟩
  obtain ⟨fuel, value, ends⟩ := returns
  intro more outOfRange
  have same := settles.returned_le (Nat.le_max_left fuel more) ends
  rw [settles.le (Nat.le_max_right fuel more) (by simp [outOfRange]),
    outOfRange] at same
  cases same

theorem returns_returned (value : α) : Returns fun _ => returned value := ⟨0, value, rfl⟩

theorem settles_const (outcome : Outcome α) : Settles fun _ => outcome := fun _ _ => rfl

theorem Settles.bind {run : Nat → Outcome α} {next : Nat → α → Outcome β} (settles : Settles run)
    (goesOn : ∀ value, Settles fun fuel => next fuel value) :
    Settles fun fuel => (run fuel).bind (next fuel) := by
  intro fuel ends
  have ran : run fuel ≠ .running := fun running => ends (bind_eq_running.2 (.inl running))
  dsimp only
  rw [settles fuel ran]
  cases first : run fuel with
  | running => exact absurd first ran
  | outOfRange => rfl
  | returned value =>
      exact goesOn value fuel fun running => ends (bind_eq_running.2 (.inr ⟨value, first, running⟩))

/-- A part and what comes behind it return exactly if the part returns something with which that
returns. -/
theorem returns_bind {run : Nat → Outcome α} {next : Nat → α → Outcome β} (settles : Settles run)
    (goesOn : ∀ value, Settles fun fuel => next fuel value) :
    (Returns fun fuel => (run fuel).bind (next fuel)) ↔
      ∃ value, (∃ fuel, run fuel = .returned value) ∧ Returns fun fuel => next fuel value := by
  constructor
  · rintro ⟨fuel, value, ends⟩
    obtain ⟨first, ran, ends⟩ := bind_eq_returned.1 ends
    exact ⟨first, ⟨fuel, ran⟩, fuel, value, ends⟩
  · rintro ⟨first, ⟨fuel, ran⟩, more, value, ends⟩
    refine ⟨max fuel more, value, bind_eq_returned.2 ⟨first, ?_, ?_⟩⟩
    · exact settles.returned_le (Nat.le_max_left fuel more) ran
    · exact (goesOn first).returned_le (Nat.le_max_right fuel more) ends

/-- Something that always returns afterwards leaves only the first part to return. -/
theorem returns_bind_returned {run : Nat → Outcome α} {next : α → β} :
    (Returns fun fuel => (run fuel).bind fun value => .returned (next value)) ↔ Returns run := by
  constructor
  · rintro ⟨fuel, value, ends⟩
    obtain ⟨first, ran, _⟩ := bind_eq_returned.1 ends
    exact ⟨fuel, first, ran⟩
  · rintro ⟨fuel, value, ran⟩
    exact ⟨fuel, next value, bind_eq_returned.2 ⟨value, ran, rfl⟩⟩

end Outcome

open Outcome

namespace Composer

/-! ## The loop over the modifier keys -/

/-- The loop returns for an empty list, and otherwise only when it finds shift. -/
theorem findShift_returned {modifierKeys : List ModifierKey} {fuel i : Nat} {shift : Bool}
    (ends : findShift modifierKeys fuel i = .returned shift) :
    modifierKeys = [] ∧ shift = false ∨ .shift ∈ modifierKeys ∧ shift = true := by
  induction fuel generalizing i with
  | zero => cases ends
  | succ fuel ih =>
      rw [findShift] at ends
      split_ifs at ends with empty
      · cases ends
        exact .inl ⟨List.eq_nil_of_length_eq_zero empty, rfl⟩
      · cases at_ : modifierKeys[i]? with
        | none =>
            rw [at_] at ends
            cases ends
        | some modifierKey =>
            rw [at_] at ends
            dsimp only at ends
            split_ifs at ends with isShift
            · cases ends
              exact .inr ⟨isShift ▸ List.mem_of_getElem? at_, rfl⟩
            · exact ih ends

/-- The keys in front of the index are not shift, and shift is behind them. -/
theorem findShift_append (front behind : List ModifierKey) (fuel : Nat)
    (isBehind : .shift ∈ behind) (enough : behind.length < fuel) :
    findShift (front ++ behind) fuel front.length = .returned true := by
  induction behind generalizing front fuel with
  | nil => cases isBehind
  | cons key behind ih =>
      obtain ⟨fuel, rfl⟩ := Nat.exists_eq_add_of_le' (Nat.lt_of_le_of_lt (Nat.zero_le _) enough)
      rw [findShift, if_neg (by simp), List.getElem?_append_right (Nat.le_refl _), Nat.sub_self]
      dsimp only [List.getElem?_cons_zero]
      split_ifs with isShift
      · rfl
      · have further : .shift ∈ behind :=
          (List.mem_cons.1 isBehind).resolve_left fun same => isShift same.symm
        have moved := ih (front ++ [key]) fuel further (Nat.lt_of_succ_lt_succ enough)
        rwa [List.append_assoc, List.length_append] at moved

/-- **The loop returns exactly if there are no modifier keys or shift is one of them.** -/
theorem returns_findShift (modifierKeys : List ModifierKey) :
    (Returns fun fuel => findShift modifierKeys fuel 0) ↔
      modifierKeys = [] ∨ .shift ∈ modifierKeys := by
  constructor
  · rintro ⟨fuel, shift, ends⟩
    exact (findShift_returned ends).imp And.left And.left
  · rintro (rfl | isThere)
    · exact ⟨1, false, rfl⟩
    · exact ⟨_, true, findShift_append [] modifierKeys _ isThere (Nat.lt_succ_self _)⟩

theorem findShift_succ (modifierKeys : List ModifierKey) (fuel i : Nat) :
    findShift modifierKeys (fuel + 1) i =
      if modifierKeys.length = 0 then .returned false
      else
        match modifierKeys[i]? with
        | none => .outOfRange
        | some modifierKey =>
            if modifierKey = .shift then .returned true
            else findShift modifierKeys fuel (i + 1) := rfl

theorem settles_findShift (modifierKeys : List ModifierKey) (i : Nat) :
    Settles fun fuel => findShift modifierKeys fuel i := by
  intro fuel ends
  induction fuel generalizing i with
  | zero => exact absurd rfl ends
  | succ fuel ih =>
      dsimp only at ends ih ⊢
      rw [findShift_succ] at ends
      rw [findShift_succ modifierKeys (fuel + 1) i, findShift_succ modifierKeys fuel i]
      cases at_ : modifierKeys[i]? with
      | none => rfl
      | some modifierKey =>
          rw [at_] at ends
          dsimp only at ends ⊢
          split_ifs at ends ⊢
          · rfl
          · rfl
          · exact ih _ ends

/-! ## The insertions -/

variable {E : Environment}

/-- An input gets into the composition, if there is room for it. -/
def Takes (E : Environment) (composer : Composer) (input : CompositionInput) : Prop :=
  composer.enableInsert E →
    ∃ fuel, (composer.composition.insertInput E.forms fuel composer.position input).isSome

theorem settles_processCompositionInput (composer : Composer) (input : CompositionInput) :
    Settles fun fuel => composer.processCompositionInput E fuel input := by
  intro fuel ends
  dsimp only at ends ⊢
  unfold processCompositionInput at ends ⊢
  split_ifs at ends ⊢
  · rfl
  · cases inserted : composer.composition.insertInput E.forms fuel composer.position input with
    | none =>
        rw [inserted] at ends
        exact absurd rfl ends
    | some result => rw [Composition.insertInput_succ inserted]

theorem returns_processCompositionInput (composer : Composer) (input : CompositionInput) :
    (Returns fun fuel => composer.processCompositionInput E fuel input) ↔
      composer.Takes E input := by
  unfold Returns Takes processCompositionInput
  cases composer.enableInsert E with
  | false => simp
  | true =>
      refine (exists_congr fun fuel => ?_).trans ⟨fun ends _ => ends, fun ends => ends rfl⟩
      dsimp only
      cases composer.composition.insertInput E.forms fuel composer.position input with
      | none => simp
      | some result => simp

/-- The composer that an input of a key event is inserted into. -/
def readied (composer : Composer) (key : KeyEvent) (input : CompositionInput) : Composer :=
  if input.conversion.isEmpty then
    composer.applyTemporaryInputMode input.raw (hasCaps (getModifiers key))
  else if input.isAsis then
    { composer with composition := composer.composition.setInputMode .conversionString }
  else composer

theorem settles_insertInput (composer : Composer) (key : KeyEvent) (input : CompositionInput) :
    Settles fun fuel => composer.insertInput E fuel key input := by
  unfold insertInput
  split_ifs
  · exact (settles_processCompositionInput _ _).bind fun _ => settles_const _
  · exact (settles_processCompositionInput _ _).bind fun _ => settles_const _
  · exact (settles_processCompositionInput _ _).bind fun _ => settles_const _

theorem returns_insertInput (composer : Composer) (key : KeyEvent) (input : CompositionInput) :
    (Returns fun fuel => composer.insertInput E fuel key input) ↔
      (composer.readied key input).Takes E input := by
  unfold insertInput readied
  cases noConversion : input.conversion.isEmpty with
  | true => exact returns_bind_returned.trans (returns_processCompositionInput _ _)
  | false =>
      cases asIs : input.isAsis with
      | true => exact returns_bind_returned.trans (returns_processCompositionInput _ _)
      | false => exact returns_bind_returned.trans (returns_processCompositionInput _ _)

/-- The input of a key event gets into the composition. -/
def TakesKey (E : Environment) (composer : Composer) (key : KeyEvent) : Prop :=
  ∀ input, CompositionInput.init E composer.table.table key composer.isNewInput = some input →
    (composer.readied key input).Takes E input

theorem settles_insertKey (composer : Composer) (key : KeyEvent) :
    Settles fun fuel => composer.insertKey E fuel key := by
  unfold insertKey
  cases CompositionInput.init E composer.table.table key composer.isNewInput with
  | none => exact settles_const _
  | some input => exact (settles_insertInput composer key input).bind fun _ => settles_const _

theorem returns_insertKey (composer : Composer) (key : KeyEvent) :
    (Returns fun fuel => composer.insertKey E fuel key) ↔ composer.TakesKey E key := by
  unfold insertKey TakesKey
  cases CompositionInput.init E composer.table.table key composer.isNewInput with
  | none => exact iff_of_true (returns_returned _) fun _ isInput => by cases isInput
  | some input =>
      refine (returns_bind_returned.trans (returns_insertInput composer key input)).trans ?_
      exact ⟨fun takes other same => Option.some_inj.1 same ▸ takes, fun takes => takes input rfl⟩

/-! ## The event -/

theorem settles_checkTimeout (now : Int) (composer : Composer) (key : KeyEvent) :
    Settles fun fuel => composer.checkTimeout E fuel now key := by
  unfold checkTimeout
  dsimp only
  split_ifs
  · refine Settles.bind ?_ fun _ => settles_const _
    exact (settles_processCompositionInput _ _).bind fun _ => settles_const _
  · exact (settles_const _).bind fun _ => settles_const _
  · exact settles_const _

/-- The composer from which the input of a key event is made. -/
def prepared (composer : Composer) (key : KeyEvent) : Composer :=
  if key.keyCode.isNone then (composer.takeMode key).clearTrace else composer.takeMode key

/-- The insertions that a key event starts come to an end: the one that stops toggling when the
previous key is too old, and then the one of the event itself, unless it is shift alone. -/
def InsertionsEnd (E : Environment) (now : Int) (composer : Composer) (key : KeyEvent) : Prop :=
  ∃ onTime, (∃ fuel, composer.checkTimeout E fuel now key = .returned onTime) ∧
    (key.keyCode.isSome ∨ .shift ∉ key.modifierKeys → (onTime.prepared key).TakesKey E key)

theorem settles_insertOnTime (composer : Composer) (key : KeyEvent) :
    Settles fun fuel => composer.insertOnTime E fuel key := by
  unfold insertOnTime
  cases key.keyCode.isNone with
  | false => exact settles_insertKey _ key
  | true =>
      refine (settles_findShift key.modifierKeys 0).bind fun shift => ?_
      cases shift with
      | false => exact settles_insertKey _ key
      | true => exact settles_const _

/-- The event itself returns exactly if its loop does and then, unless it is shift alone, its input
gets into the composition. -/
theorem returns_insertOnTime (composer : Composer) (key : KeyEvent) :
    (Returns fun fuel => composer.insertOnTime E fuel key) ↔
      (key.keyCode.isSome ∨ key.modifierKeys = [] ∨ .shift ∈ key.modifierKeys) ∧
        (key.keyCode.isSome ∨ .shift ∉ key.modifierKeys →
          (composer.prepared key).TakesKey E key) := by
  unfold insertOnTime prepared
  cases key.keyCode with
  | some code =>
      refine (returns_insertKey (composer.takeMode key) key).trans ?_
      exact ⟨fun takes => ⟨.inl rfl, fun _ => takes⟩, fun takes => takes.2 (.inl rfl)⟩
  | none =>
      have goesOn : ∀ shift : Bool, Settles fun fuel =>
          if shift then
            .returned ((composer.takeMode key).clearTrace.setInputMode
              (composer.takeMode key).clearTrace.comebackInputMode, true)
          else (composer.takeMode key).clearTrace.insertKey E fuel key := by
        intro shift
        cases shift with
        | false => exact settles_insertKey _ key
        | true => exact settles_const _
      refine (returns_bind (settles_findShift key.modifierKeys 0) goesOn).trans ?_
      constructor
      · rintro ⟨shift, ⟨fuel, ends⟩, returns⟩
        have loop := findShift_returned ends
        refine ⟨.inr (loop.imp And.left And.left), ?_⟩
        rintro (isCode | noShift)
        · cases isCode
        · obtain ⟨_, rfl⟩ := loop.resolve_right fun isThere => noShift isThere.1
          exact (returns_insertKey _ key).1 returns
      · rintro ⟨loop, takes⟩
        have loop := loop.resolve_left Bool.noConfusion
        obtain ⟨fuel, shift, ends⟩ := (returns_findShift key.modifierKeys).2 loop
        refine ⟨shift, ⟨fuel, ends⟩, ?_⟩
        cases shift with
        | true => exact returns_returned _
        | false =>
            have noShift : .shift ∉ key.modifierKeys := by
              rcases findShift_returned ends with ⟨isNil, _⟩ | ⟨_, isTrue⟩
              · rw [isNil]
                exact List.not_mem_nil
              · cases isTrue
            exact (returns_insertKey _ key).2 (takes (.inr noShift))

theorem settles_insertCharacterKeyEvent (now : Int) (composer : Composer) (key : KeyEvent) :
    Settles fun fuel => composer.insertCharacterKeyEvent E fuel now key := by
  unfold insertCharacterKeyEvent
  split_ifs
  · exact settles_const _
  · exact (settles_checkTimeout now composer key).bind fun onTime =>
      settles_insertOnTime onTime key

/-- **The loop over the modifier keys is the only one of its own.**  Inserting a key event ends, and
nothing is read behind the last modifier key, exactly if the composition is full, or if there is a
key code or no modifier key or shift among them, and the insertions that are started come to an
end. -/
theorem insertCharacterKeyEvent_safe_iff (E : Environment) (now : Int) (composer : Composer)
    (key : KeyEvent) :
    (Safe fun fuel => composer.insertCharacterKeyEvent E fuel now key) ↔
      composer.enableInsert E = false ∨
        (key.keyCode.isSome ∨ key.modifierKeys = [] ∨ .shift ∈ key.modifierKeys) ∧
          composer.InsertionsEnd E now key := by
  rw [(settles_insertCharacterKeyEvent now composer key).safe_iff]
  unfold insertCharacterKeyEvent
  cases composer.enableInsert E with
  | false => exact iff_of_true (returns_returned _) (.inl rfl)
  | true =>
      rw [or_iff_right Bool.noConfusion]
      refine (returns_bind (settles_checkTimeout now composer key) fun onTime =>
        settles_insertOnTime onTime key).trans ?_
      unfold InsertionsEnd
      rw [← exists_and_left]
      refine exists_congr fun onTime => ?_
      rw [returns_insertOnTime onTime key]
      exact and_left_comm

/-! ## Control without a key code -/

/-- A composer with nothing in it. -/
def blank : Composer where
  position := 0
  inputMode := .hiragana
  outputMode := .hiragana
  comebackInputMode := .hiragana
  shiftedSequenceCount := 0
  isInShiftedAsciiRevertContext := false
  maxLength := 256
  timeoutThresholdMsec := 0
  timestampMsec := 0
  config := {}
  table := ⟨0, Table.new⟩
  composition := ⟨⟨0, Table.new⟩, [], .hiragana⟩
  isNewInput := true
  keyEventTrace := []
  keyEventTraceValid := true

/-- **A modifier key that is not shift is read and then the one behind it.** -/
theorem not_insertCharacterKeyEvent_safe :
    ¬ ∀ (E : Environment) (now : Int) (composer : Composer) (key : KeyEvent),
      Safe fun fuel => composer.insertCharacterKeyEvent E fuel now key := by
  intro safe
  let E : Environment := ⟨⟨id, id, id, id, id, id⟩, fun _ => [], fun _ => []⟩
  exact (safe E 0 blank { modifierKeys := [.ctrl] }).1 2 rfl

end Composer

end Mozkey.Composer
