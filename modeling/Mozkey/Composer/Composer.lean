import Mozkey.Composer.RawSubString

/-!
# The composer

The composer holds a composition and the place in it where keys are inserted, and it decides in
which mode they are.  Pressing shift may change the mode for a while, and so may some words.  It
keeps the key events from which the composition was typed, as long as it was typed by nothing else.

How a character code is written, how a special key is called and how characters change their form
is left to functions that are given.
-/

set_option autoImplicit false
set_option linter.dupNamespace false

namespace Mozkey.Composer

/-! ## Key events -/

/-- `transliteration::TransliterationType`. -/
inductive TransliterationType
  | hiragana
  | fullKatakana
  | halfAscii
  | halfAsciiUpper
  | halfAsciiLower
  | halfAsciiCapitalized
  | fullAscii
  | fullAsciiUpper
  | fullAsciiLower
  | fullAsciiCapitalized
  | halfKatakana
  deriving DecidableEq, Repr

/-- `commands::CompositionMode`. -/
inductive CompositionMode
  | direct
  | hiragana
  | fullKatakana
  | halfAscii
  | fullAscii
  | halfKatakana
  deriving DecidableEq, Repr

inductive ModifierKey
  | ctrl
  | alt
  | shift
  | keyDown
  | keyUp
  | leftCtrl
  | leftAlt
  | leftShift
  | rightCtrl
  | rightAlt
  | rightShift
  | caps
  deriving DecidableEq, Repr

/-- The bit of a modifier key. -/
def ModifierKey.bit (key : ModifierKey) : UInt32 := 1 <<< UInt32.ofNat key.ctorIdx

inductive InputStyle
  | followMode
  | asIs
  | directInput
  deriving DecidableEq, Repr

/-- `commands::KeyEvent`. -/
structure KeyEvent where
  keyCode : Option UInt32 := none
  modifiers : Option UInt32 := none
  specialKey : Option Nat := none
  modifierKeys : List ModifierKey := []
  keyString : Option Text := none
  inputStyle : InputStyle := .followMode
  mode : Option CompositionMode := none
  timestampMsec : Option Int := none
  deriving DecidableEq, Repr

/-- `KeyEventUtil::GetModifiers`. -/
def getModifiers (key : KeyEvent) : UInt32 :=
  match key.modifiers with
  | some modifiers => modifiers
  | none => key.modifierKeys.foldl (fun modifiers modifier => modifiers ||| modifier.bit) 0

/-- `KeyEventUtil::HasCaps`. -/
def hasCaps (modifiers : UInt32) : Bool := modifiers &&& ModifierKey.caps.bit != 0

/-- What the composer takes from elsewhere. -/
structure Environment where
  forms : CharacterForms
  /-- `Util::CodepointToUtf8`. -/
  codepointToUtf8 : UInt32 → Text
  /-- `KeyParser::GetSpecialKeyString`. -/
  getSpecialKeyString : Nat → Text

/-- `CompositionInput::Init`. -/
def CompositionInput.init (E : Environment) (table : Table) (keyEvent : KeyEvent)
    (isNewInput : Bool) : Option CompositionInput :=
  let raw :=
    match keyEvent.keyCode, keyEvent.keyString, keyEvent.specialKey with
    | some code, _, _ => some (E.codepointToUtf8 code)
    | none, some keyString, _ => some keyString
    | none, none, some specialKey =>
        some (table.specialKeyMap.parse ('{' :: E.getSpecialKeyString specialKey ++ ['}']))
    | none, none, none => none
  raw.map fun raw =>
    ⟨raw, keyEvent.keyString.getD [], isNewInput,
      keyEvent.inputStyle = .asIs ∨ keyEvent.inputStyle = .directInput⟩

/-! ## State -/

inductive ShiftKeyModeSwitch
  | off
  | asciiInputMode
  | katakanaInputMode
  deriving DecidableEq, Repr

inductive PreeditMethod
  | roman
  | kana
  deriving DecidableEq, Repr

/-- What the composer reads of the configuration. -/
structure Config where
  shiftKeyModeSwitch : ShiftKeyModeSwitch := .asciiInputMode
  autoSwitchCompositionMode : Bool := false
  preeditMethod : PreeditMethod := .roman

structure Composer where
  position : Nat
  inputMode : TransliterationType
  outputMode : TransliterationType
  comebackInputMode : TransliterationType
  shiftedSequenceCount : Nat
  isInShiftedAsciiRevertContext : Bool
  maxLength : Nat
  timeoutThresholdMsec : Int
  timestampMsec : Int
  config : Config
  table : SharedTable
  composition : Composition
  isNewInput : Bool
  keyEventTrace : List KeyEvent
  keyEventTraceValid : Bool

/-- What comes of a part of the program: it may still be running after the steps that it was given,
or fail, or have read a list behind its end. -/
inductive Outcome (α : Type)
  | running
  | outOfRange
  | returned (value : α)

def Outcome.bind {α β : Type} (outcome : Outcome α) (next : α → Outcome β) : Outcome β :=
  match outcome with
  | running => running
  | outOfRange => outOfRange
  | returned value => next value

def getTransliterator : TransliterationType → Transliterator
  | .halfAscii | .halfAsciiUpper | .halfAsciiLower | .halfAsciiCapitalized => .halfAscii
  | .fullAscii | .fullAsciiUpper | .fullAsciiLower | .fullAsciiCapitalized => .fullAscii
  | .halfKatakana => .halfKatakana
  | .fullKatakana => .fullKatakana
  | .hiragana => .hiragana

def getTransliterationTypeFromCompositionMode : CompositionMode → TransliterationType
  | .hiragana => .hiragana
  | .fullKatakana => .fullKatakana
  | .halfAscii => .halfAscii
  | .fullAscii => .fullAscii
  | .halfKatakana => .halfKatakana
  | .direct => .hiragana

/-! ## Words that switch the mode -/

inductive ModeSwitching
  | noChange
  | revertToPreviousMode
  | preferredAlphanumeric
  | halfAlphanumeric
  | fullAlphanumeric
  deriving DecidableEq, Repr

/-- `ModeSwitchingHandler::Rule`. -/
structure ModeSwitchingRule where
  displayMode : ModeSwitching
  inputMode : ModeSwitching

def isDriveLetter (key : Text) : Bool :=
  match key with
  | [letter, ':', '\\'] => ('A' ≤ letter && letter ≤ 'Z') || ('a' ≤ letter && letter ≤ 'z')
  | _ => false

def getModeSwitchingRule (key : Text) : ModeSwitchingRule :=
  if ["google", "Google", "Chrome", "chrome", "Android", "android"].any (·.toList = key) then
    ⟨.preferredAlphanumeric, .revertToPreviousMode⟩
  else if ["http", "www.", "\\\\"].any (·.toList = key) then ⟨.halfAlphanumeric, .halfAlphanumeric⟩
  else if isDriveLetter key then ⟨.halfAlphanumeric, .halfAlphanumeric⟩
  else ⟨.noChange, .noChange⟩

namespace Composer

variable (E : Environment)

/-! ## Modes -/

def getLength (composer : Composer) : Nat :=
  Composition.getLength E.forms composer.composition.chunks

def enableInsert (composer : Composer) : Bool := composer.getLength E < composer.maxLength

def setInputMode (composer : Composer) (mode : TransliterationType) : Composer :=
  { composer with
    comebackInputMode := mode
    inputMode := mode
    shiftedSequenceCount := 0
    isInShiftedAsciiRevertContext := false
    isNewInput := true
    composition := composer.composition.setInputMode (getTransliterator mode) }

def setTemporaryInputMode (composer : Composer) (mode : TransliterationType) : Composer :=
  { composer with
    comebackInputMode := composer.inputMode
    inputMode := mode
    shiftedSequenceCount := 0
    isInShiftedAsciiRevertContext := false
    isNewInput := true
    composition := composer.composition.setInputMode (getTransliterator mode) }

def setOutputMode (composer : Composer) (mode : TransliterationType) : Composer :=
  let composition := composer.composition.setTransliterator E.forms 0
    (composer.getLength E) (getTransliterator mode)
  { composer with
    outputMode := mode
    composition := composition
    position := Composition.getLength E.forms composition.chunks }

/-- `ApplyTemporaryInputMode`.  The program reads the first byte of the input; a `DCHECK` says
that there is one.  For an empty input, where the read is undefined, nothing is changed here. -/
def applyTemporaryInputMode (composer : Composer) (input : Text) (capsLocked : Bool) : Composer :=
  match input with
  | [] => composer
  | key :: _ =>
      if 0x80 ≤ key.toNat then
        let composer := { composer with isInShiftedAsciiRevertContext := false }
        if composer.comebackInputMode ≠ composer.inputMode then
          composer.setInputMode composer.comebackInputMode
        else composer
      else
        let isCapital := 'A' ≤ key && key ≤ 'Z'
        let isSmall := 'a' ≤ key && key ≤ 'z'
        let switchMode := composer.config.shiftKeyModeSwitch
        if (!capsLocked && isCapital) || (capsLocked && isSmall) then
          let composer := { composer with isInShiftedAsciiRevertContext := false }
          let composer :=
            match switchMode with
            | .asciiInputMode =>
                if composer.inputMode ∈ [TransliterationType.halfAscii, .fullAscii] then composer
                else composer.setTemporaryInputMode .halfAscii
            | .katakanaInputMode =>
                if composer.inputMode = TransliterationType.hiragana then
                  composer.setTemporaryInputMode .fullKatakana
                else composer
            | .off => composer
          { composer with shiftedSequenceCount := composer.shiftedSequenceCount + 1 }
        else if (capsLocked && isCapital) || (!capsLocked && isSmall) then
          let composer :=
            if 1 < composer.shiftedSequenceCount ∧ switchMode = .asciiInputMode then
              { composer.setInputMode composer.comebackInputMode with
                isInShiftedAsciiRevertContext := true }
            else composer
          let composer :=
            if switchMode = .katakanaInputMode then composer.setInputMode composer.comebackInputMode
            else composer
          { composer with shiftedSequenceCount := 0 }
        else
          { composer with shiftedSequenceCount := 0, isInShiftedAsciiRevertContext := false }

/-- What `AutoSwitchMode` does to the composition. -/
def switchDisplayMode (composer : Composer) : ModeSwitching → Composer
  | .noChange | .revertToPreviousMode => composer
  | .preferredAlphanumeric =>
      if composer.inputMode = .fullAscii then composer.setOutputMode E .fullAscii
      else composer.setOutputMode E .halfAscii
  | .halfAlphanumeric => composer.setOutputMode E .halfAscii
  | .fullAlphanumeric => composer.setOutputMode E .fullAscii

/-- What `AutoSwitchMode` does to the mode of what is typed next. -/
def switchInputMode (composer : Composer) : ModeSwitching → Composer
  | .noChange => composer
  | .revertToPreviousMode => composer.setInputMode composer.comebackInputMode
  | .preferredAlphanumeric =>
      if composer.inputMode ≠ .halfAscii ∧ composer.inputMode ≠ .fullAscii then
        composer.setTemporaryInputMode .halfAscii
      else composer
  | .halfAlphanumeric =>
      if composer.inputMode = .halfAscii then composer
      else composer.setTemporaryInputMode .halfAscii
  | .fullAlphanumeric =>
      if composer.inputMode = .fullAscii then composer
      else composer.setTemporaryInputMode .fullAscii

def autoSwitchMode (composer : Composer) : Composer :=
  if !composer.config.autoSwitchCompositionMode then composer
  else if composer.config.preeditMethod ≠ .roman then composer
  else
    let key :=
      Composition.getStringWithTransliterator E.forms composer.composition.chunks .halfAscii
    let modeSwitching := getModeSwitchingRule key
    (composer.switchDisplayMode E modeSwitching.displayMode).switchInputMode modeSwitching.inputMode

/-! ## Inserting -/

def processCompositionInput (fuel : Nat) (composer : Composer) (input : CompositionInput) :
    Outcome (Composer × Bool) :=
  if !composer.enableInsert E then .returned (composer, false)
  else
    match composer.composition.insertInput E.forms fuel composer.position input with
    | none => .running
    | some (composition, position) =>
        .returned ({ composer with
          composition := composition
          position := position
          isNewInput := false }, true)

/-- `InsertCommandCharacter` of `STOP_KEY_TOGGLING`. -/
def stopKeyToggling (fuel : Nat) (composer : Composer) : Outcome Composer :=
  (composer.processCompositionInput E fuel
    { CompositionInput.new with
      raw := composer.table.table.specialKeyMap.parse "{!}".toList
      isNewInput := composer.isNewInput }).bind fun result => .returned result.1

/-- The previous key was inserted too long ago. -/
def timesOut (composer : Composer) (currentMsec : Int) : Bool :=
  0 < composer.timestampMsec &&
    composer.timeoutThresholdMsec ≤ currentMsec - composer.timestampMsec

/-- `InsertCharacterKeyEvent`: the check of the timeout, at a time. -/
def checkTimeout (fuel : Nat) (now : Int) (composer : Composer) (key : KeyEvent) :
    Outcome Composer :=
  if 0 < composer.timeoutThresholdMsec then
    let currentMsec := key.timestampMsec.getD now
    (if composer.timesOut currentMsec then composer.stopKeyToggling E fuel
      else .returned composer).bind fun composer =>
        .returned { composer with timestampMsec := currentMsec }
  else .returned composer

/-- `InsertCharacterKeyEvent`: the mode of the event is taken over. -/
def takeMode (composer : Composer) (key : KeyEvent) : Composer :=
  match key.mode with
  | none => composer
  | some mode =>
      let newInputMode := getTransliterationTypeFromCompositionMode mode
      if newInputMode ≠ composer.inputMode then composer.setInputMode newInputMode else composer

def clearTrace (composer : Composer) : Composer :=
  { composer with keyEventTrace := [], keyEventTraceValid := false }

/-- `InsertCharacterKeyEvent`: the loop over the modifier keys, from an index on, and whether it
finds shift.  It goes on as long as the list is not empty, whatever the index is. -/
def findShift (modifierKeys : List ModifierKey) : Nat → Nat → Outcome Bool
  | 0, _ => .running
  | fuel + 1, i =>
      if modifierKeys.length = 0 then .returned false
      else
        match modifierKeys[i]? with
        | none => .outOfRange
        | some modifierKey =>
            if modifierKey = .shift then .returned true else findShift modifierKeys fuel (i + 1)

/-- `InsertCharacterKeyEvent`: the input is inserted. -/
def insertInput (fuel : Nat) (composer : Composer) (key : KeyEvent) (input : CompositionInput) :
    Outcome Composer :=
  if !input.conversion.isEmpty then
    if input.isAsis then
      let composer :=
        { composer with composition := composer.composition.setInputMode .conversionString }
      (composer.processCompositionInput E fuel input).bind fun result =>
        .returned (result.1.setInputMode result.1.comebackInputMode)
    else (composer.processCompositionInput E fuel input).bind fun result => .returned result.1
  else
    ((composer.applyTemporaryInputMode input.raw
      (hasCaps (getModifiers key))).processCompositionInput E fuel input).bind
        fun result => .returned result.1

/-- `InsertCharacterKeyEvent`: the event is kept if the composition was typed by such events. -/
def trace (composer : Composer) (key : KeyEvent) : Composer :=
  if composer.keyEventTraceValid && key.keyString.isSome && key.keyCode.isSome &&
      composer.position = composer.getLength E then
    { composer with keyEventTrace := composer.keyEventTrace ++ [key] }
  else composer.clearTrace

/-- `InsertCharacterKeyEvent` behind the check for shift. -/
def insertKey (fuel : Nat) (composer : Composer) (key : KeyEvent) : Outcome (Composer × Bool) :=
  match CompositionInput.init E composer.table.table key composer.isNewInput with
  | none => .returned (composer, false)
  | some input =>
      (composer.insertInput E fuel key input).bind fun composer =>
        let composer :=
          if composer.comebackInputMode = composer.inputMode then composer.autoSwitchMode E
          else composer
        .returned (composer.trace E key, true)

/-- `InsertCharacterKeyEvent` behind the check of the timeout. -/
def insertOnTime (fuel : Nat) (composer : Composer) (key : KeyEvent) :
    Outcome (Composer × Bool) :=
  let composer := composer.takeMode key
  if key.keyCode.isNone then
    let composer := composer.clearTrace
    (findShift key.modifierKeys fuel 0).bind fun shift =>
      if shift then .returned (composer.setInputMode composer.comebackInputMode, true)
      else composer.insertKey E fuel key
  else composer.insertKey E fuel key

/-- `InsertCharacterKeyEvent`, at a time. -/
def insertCharacterKeyEvent (fuel : Nat) (now : Int) (composer : Composer) (key : KeyEvent) :
    Outcome (Composer × Bool) :=
  if !composer.enableInsert E then .returned (composer, false)
  else (composer.checkTimeout E fuel now key).bind fun onTime => onTime.insertOnTime E fuel key

end Composer

end Mozkey.Composer
