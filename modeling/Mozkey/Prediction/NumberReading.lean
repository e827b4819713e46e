import Mozkey.Prediction.NumberDecoder

/-!
# The readings of numbers

A number is read in groups of four digits, from the largest to the smallest, each but the last one
with a word for its unit behind it: まん, おく, ちょう, けい, がい.  A digit of a group is read with
じゅう, ひゃく or せん behind it, and a one before these is left out.  Sounds change where words meet,
so that a word may be any of those that the decoder knows for it.

The decoder finds the words of such a reading again, because no other entry begins where they do and
goes on as the next word does, apart from two: にち, against which there is an entry for にちょう, and
せんち, against which there is none.  `containsWhole_iff` says that a number is decoded if せん does
not meet ちょう in its reading.
-/

namespace Mozkey.Prediction.NumberDecoder

/-! ## Readings -/

/-- A word of a reading, with what the decoder knows of it. -/
abbrev Word := List Char × Entry

/-- The word is used in every place of a number.  し, よ and く, of four and nine, are not. -/
def isNumberWord (word : Word) : Bool :=
  word.2.type = .smallDigit ∨ word.2.type = .bigDigit ∨
    (word.2.type = .unit ∧ word.2.number ≠ 0 ∧ word.1 ∉ [['し'], ['よ'], ['く']])

def numberWords : List Word := numberEntries.filter isNumberWord

/-- The text of words. -/
def kana (words : List Word) : List Char := words.flatMap Prod.fst

/-- The reading of a digit from 1 to 9, and nothing for 0. -/
inductive ReadsUnit : Nat → List Word → Prop
  | zero : ReadsUnit 0 []
  | unit {d : Nat} {u : Word} (mem : u ∈ numberWords) (type : u.2.type = .unit)
      (number : u.2.number = d) : ReadsUnit d [u]

/-- The reading of a digit of tens, hundreds or thousands. -/
inductive ReadsDigit (digit : Nat) : Nat → List Word → Prop
  | zero : ReadsDigit digit 0 []
  | one {p : Word} (mem : p ∈ numberWords) (type : p.2.type = .smallDigit)
      (place : p.2.digit = digit) : ReadsDigit digit 1 [p]
  | more {d : Nat} {u p : Word} (two : 2 ≤ d) (unit : ReadsUnit d [u]) (mem : p ∈ numberWords)
      (type : p.2.type = .smallDigit) (place : p.2.digit = digit) : ReadsDigit digit d [u, p]

/-- The reading of a group of four digits. -/
def ReadsGroup (g : Nat) (words : List Word) : Prop :=
  ∃ thousands hundreds tens units, words = thousands ++ (hundreds ++ (tens ++ units)) ∧
    ReadsDigit 4 (g / 1000) thousands ∧ ReadsDigit 3 (g / 100 % 10) hundreds ∧
    ReadsDigit 2 (g / 10 % 10) tens ∧ ReadsUnit (g % 10) units

/-- The units of the groups: their powers of ten, and how they are written. -/
def bigUnits : List (Nat × Char) := [(20, '垓'), (16, '京'), (12, '兆'), (8, '億'), (4, '万')]

/-- The reading of a group, with its unit, or nothing. -/
inductive ReadsBig (kanji : Char) : Nat → List Word → Prop
  | zero : ReadsBig kanji 0 []
  | group {g : Nat} {words : List Word} {big : Word} (positive : 0 < g) (group : ReadsGroup g words)
      (mem : big ∈ numberWords) (type : big.2.type = .bigDigit) (digitStr : big.2.digitStr = [kanji]) :
      ReadsBig kanji g (words ++ [big])

def ReadsFrom : List (Nat × Char) → Nat → List Word → Prop
  | [], n, words => ReadsGroup n words
  | (power, kanji) :: units, n, words => ∃ front back, words = front ++ back ∧
      ReadsBig kanji (n / 10 ^ power) front ∧ ReadsFrom units (n % 10 ^ power) back

/-- The reading of a number. -/
def Reads (n : Nat) (words : List Word) : Prop := ReadsFrom bigUnits n words

/-! ## How a number is written -/

/-- The number of a group in Arabic digits, with its unit, or nothing. -/
def numeralGroup (g : Nat) (unit : List Char) : List Char :=
  if g = 0 then [] else Nat.toDigits 10 g ++ unit

def numeralFrom : List (Nat × Char) → Nat → List Char
  | [], n => numeralGroup n []
  | (power, kanji) :: units, n =>
      numeralGroup (n / 10 ^ power) [kanji] ++ numeralFrom units (n % 10 ^ power)

/-- The number with Arabic groups and kanji units. -/
def numeral (n : Nat) : List Char := numeralFrom bigUnits n

/-- A result that uses the whole key. -/
def ContainsWhole (key candidate : List Char) : Prop :=
  ∃ result ∈ decode key, result.consumedKeyByteLen = byteLen key ∧ result.candidate = candidate

/-! ## The words in the trie -/

def ni : Word := (['に'], { type := .unit, number := 2 })
def sen : Word := (['せ', 'ん'], ⟨.smallDigit, 1000, 4, [], true, 0⟩)
def chou : Word := (['ち', 'ょ', 'う'], ⟨.bigDigit, -1, 13, ['兆'], true, 0⟩)
def niChou : Word := (['に', 'ち', 'ょ', 'う'], ⟨.unitAndBigDigit, 2, 13, ['兆'], true, 3⟩)
def senChi : Word := (['せ', 'ん', 'ち'], {})

theorem distinct_defaultEntries : (defaultEntries.map Prod.fst).Nodup := by decide

theorem mem_defaultEntries {w : Word} (mem : w ∈ numberWords) : w ∈ defaultEntries := by
  unfold defaultEntries
  exact List.mem_append_left _ (List.mem_append_left _ (List.mem_filter.mp mem).1)

/-- Words that an entry does not keep apart. -/
def Conflict (w next : Word) : Prop := (w = ni ∨ w = sen) ∧ next = chou

instance (w next : Word) : Decidable (Conflict w next) := by
  unfold Conflict
  infer_instance

/-- An entry that goes on behind a word does not go on as another word. -/
theorem no_entry_beyond : ∀ w ∈ numberWords, ∀ entry ∈ defaultEntries, w.1 <+: entry.1 →
    entry.1.length ≤ w.1.length ∨ ∀ next ∈ numberWords, Conflict w next ∨
      (¬ entry.1 <+: w.1 ++ next.1 ∧ ¬ w.1 ++ next.1 <+: entry.1) := by
  decide +kernel

theorem no_entry_beyond_niChou : ∀ entry ∈ defaultEntries, niChou.1 <+: entry.1 →
    entry.1.length ≤ niChou.1.length ∨ ∀ next ∈ numberWords,
      (¬ entry.1 <+: niChou.1 ++ next.1 ∧ ¬ niChou.1 ++ next.1 <+: entry.1) := by
  decide

theorem no_entry_beyond_senChi : ∀ entry ∈ defaultEntries,
    entry.1 <+: sen.1 ++ chou.1 ∨ sen.1 ++ chou.1 <+: entry.1 →
      entry.1.length ≤ senChi.1.length := by
  decide

/-! ## The words are found again -/

/-- An entry that begins a text reaches into it only as far as it is comparable with its front. -/
theorem comparable_of_begins {k front rest : List Char} (begins : k <+: front ++ rest) :
    k <+: front ∨ front <+: k :=
  List.prefix_or_prefix_of_prefix begins (List.prefix_append front rest)

/-- A text behind a word: nothing, or a word that does not conflict with it. -/
def Follows (w : Word) (behind : List Char) : Prop :=
  behind = [] ∨ ∃ next ∈ numberWords, ¬ Conflict w next ∧ next.1 <+: behind

theorem length_le_of_comparable {w next k behind : List Char}
    (apart : ¬ k <+: w ++ next ∧ ¬ w ++ next <+: k) (inside : next <+: behind) :
    ¬ k <+: w ++ behind := by
  obtain ⟨rest, rfl⟩ := inside
  rw [← List.append_assoc]
  intro begins
  exact (comparable_of_begins begins).elim apart.1 apart.2

theorem longestMatch_word {w : Word} (mem : w ∈ numberWords) {behind : List Char}
    (follows : Follows w behind) :
    createDefaultEntries.longestMatch (w.1 ++ behind) = some (w.2, w.1.length) := by
  refine Trie.longestMatch_ofEntries distinct_defaultEntries (mem_defaultEntries mem) ?_
  intro entry isEntry begins
  rcases comparable_of_begins begins with shorter | longer
  · exact shorter.length_le
  · rcases no_entry_beyond w mem entry isEntry longer with short | apart
    · exact short
    · rcases follows with rfl | ⟨next, nextMem, noConflict, inside⟩
      · exact (List.append_nil w.1 ▸ begins).length_le
      · exact absurd begins
          (length_le_of_comparable ((apart next nextMem).resolve_left noConflict) inside)

theorem longestMatch_niChou {behind : List Char}
    (follows : behind = [] ∨ ∃ next ∈ numberWords, next.1 <+: behind) :
    createDefaultEntries.longestMatch (niChou.1 ++ behind) = some (niChou.2, niChou.1.length) := by
  refine Trie.longestMatch_ofEntries distinct_defaultEntries (by decide) ?_
  intro entry isEntry begins
  rcases comparable_of_begins begins with shorter | longer
  · exact shorter.length_le
  · rcases no_entry_beyond_niChou entry isEntry longer with short | apart
    · exact short
    · rcases follows with rfl | ⟨next, nextMem, inside⟩
      · exact (List.append_nil niChou.1 ▸ begins).length_le
      · exact absurd begins (length_le_of_comparable (apart next nextMem) inside)

/-- せんちょう is cut at せんち, the reading of centimetres. -/
theorem longestMatch_senChou (behind : List Char) :
    createDefaultEntries.longestMatch (sen.1 ++ chou.1 ++ behind) =
      some (senChi.2, senChi.1.length) := by
  have split : sen.1 ++ chou.1 ++ behind = senChi.1 ++ (['ょ', 'う'] ++ behind) := rfl
  rw [split]
  refine Trie.longestMatch_ofEntries distinct_defaultEntries (by decide) ?_
  intro entry isEntry begins
  rw [← split] at begins
  exact no_entry_beyond_senChi entry isEntry (comparable_of_begins begins)

/-! ## The words are handled one after another -/

/-- The state after a word. -/
def applyWord (state : State) (w : Word) : Option State :=
  match handleEntry w.1 w.2 w.1.length state [] with
  | (true, handled, _) => some handled
  | (false, _) => none

/-- The state after words. -/
def applyWords (state : State) (words : List Word) : Option State := words.foldlM applyWord state

/-- Only units, small and big digits. -/
theorem type_of_numberWord {w : Word} (mem : w ∈ numberWords) :
    w.2.type = .unit ∨ w.2.type = .smallDigit ∨ w.2.type = .bigDigit := by
  have is := (List.mem_filter.mp mem).2
  simp only [isNumberWord, decide_eq_true_eq] at is
  tauto

/-- What is behind a word does not change how it is handled. -/
theorem handleEntry_append {w : Word} (mem : w ∈ numberWords) (state : State)
    (behind : List Char) (results : List Result) :
    handleEntry (w.1 ++ behind) w.2 w.1.length state results =
      handleEntry w.1 w.2 w.1.length state [] := by
  have front : (w.1 ++ behind).take w.1.length = w.1.take w.1.length := by
    rw [List.take_left, List.take_length]
  unfold handleEntry
  rcases type_of_numberWord mem with type | type | type <;> simp only [type, front]

theorem applyWord_eq_some {w : Word} {state handled : State}
    (applied : applyWord state w = some handled) :
    ∃ results, handleEntry w.1 w.2 w.1.length state [] = (true, handled, results) := by
  unfold applyWord at applied
  split at applied
  · rename_i handled' results isHandled
    simp only [Option.some.injEq] at applied
    exact ⟨results, by rw [isHandled, applied]⟩
  · simp at applied

/-- Entries with the same number change a state in the same way. -/
theorem handleUnitEntry_congr (entry other : Entry) (number : entry.number = other.number)
    (key : List Char) (state : State) :
    (handleUnitEntry key entry state).1 = (handleUnitEntry key other state).1 ∧
      (handleUnitEntry key entry state).2.1 = (handleUnitEntry key other state).2.1 := by
  unfold handleUnitEntry
  rw [number]
  split_ifs <;> simp

theorem handleBigDigitEntry_congr (entry other : Entry) (digit : entry.digit = other.digit)
    (digitStr : entry.digitStr = other.digitStr) (key : List Char) (state : State) :
    (handleBigDigitEntry key entry state).1 = (handleBigDigitEntry key other state).1 ∧
      (handleBigDigitEntry key entry state).2.1 = (handleBigDigitEntry key other state).2.1 := by
  unfold handleBigDigitEntry
  rw [digit, digitStr]
  split_ifs <;> simp

theorem applyWord_unit {w : Word} (type : w.2.type = .unit) (state : State) :
    applyWord state w =
      if (handleUnitEntry w.1 w.2 state).1 then
        some ((handleUnitEntry w.1 w.2 state).2.1.consume (byteLen w.1))
      else none := by
  unfold applyWord handleEntry
  simp only [type, List.take_length]
  rcases handleUnitEntry w.1 w.2 state with ⟨_ | _, _, _⟩ <;> simp

theorem applyWord_smallDigit {w : Word} (type : w.2.type = .smallDigit) (state : State) :
    applyWord state w =
      if (handleSmallDigitEntry w.1 w.2 state).1 then
        some ((handleSmallDigitEntry w.1 w.2 state).2.1.consume (byteLen w.1))
      else none := by
  unfold applyWord handleEntry
  simp only [type, List.take_length]
  rcases handleSmallDigitEntry w.1 w.2 state with ⟨_ | _, _, _⟩ <;> simp

theorem applyWord_bigDigit {w : Word} (type : w.2.type = .bigDigit) (state : State) :
    applyWord state w =
      if (handleBigDigitEntry w.1 w.2 state).1 then
        some ((handleBigDigitEntry w.1 w.2 state).2.1.consume (byteLen w.1))
      else none := by
  unfold applyWord handleEntry
  simp only [type, List.take_length]
  rcases handleBigDigitEntry w.1 w.2 state with ⟨_ | _, _, _⟩ <;> simp

/-- にちょう is handled as に and ちょう. -/
theorem handleEntry_niChou {state between handled : State} (first : applyWord state ni = some between)
    (second : applyWord between chou = some handled) (behind : List Char) (results : List Result) :
    ∃ results', handleEntry (niChou.1 ++ behind) niChou.2 niChou.1.length state results =
      (true, handled, results') := by
  rw [applyWord_unit rfl, Option.ite_none_right_eq_some, Option.some_inj] at first
  rw [applyWord_bigDigit rfl, Option.ite_none_right_eq_some, Option.some_inj] at second
  have unitKey : takeBytes niChou.2.consumeByteLenOfFirst (niChou.1 ++ behind) = ni.1 := by
    simp [niChou, ni, takeBytes, Char.utf8Size]
  have whole : (niChou.1 ++ behind).take niChou.1.length = niChou.1 := List.take_left
  obtain ⟨unitOk, unitState⟩ := handleUnitEntry_congr niChou.2 ni.2 rfl ni.1 state
  obtain ⟨bigOk, bigState⟩ :=
    handleBigDigitEntry_congr niChou.2 chou.2 rfl rfl chou.1 between
  rcases unit : handleUnitEntry ni.1 niChou.2 state with ⟨ok, unitHandled, unitResults⟩
  rcases big : handleBigDigitEntry chou.1 niChou.2 between with ⟨bigOk', bigHandled, bigResults⟩
  simp only [unit, first.1] at unitOk unitState
  simp only [big, second.1] at bigOk bigState
  subst unitOk bigOk
  have betweenEq : unitHandled.consume niChou.2.consumeByteLenOfFirst = between := by
    rw [unitState, ← first.2]
    rfl
  have handledEq : bigHandled.consume (byteLen niChou.1 - niChou.2.consumeByteLenOfFirst) =
      handled := by
    rw [bigState, ← second.2]
    rfl
  have digitKey : niChou.1.drop ni.1.length = chou.1 := rfl
  have type : niChou.2.type = .unitAndBigDigit := rfl
  refine ⟨bigResults, ?_⟩
  unfold handleEntry
  simp only [type, unitKey, whole, unit, digitKey, betweenEq, big, handledEq]

/-! ## The words of a key -/

/-- The decoding of a key goes over into the decoding of what is left of it. -/
def Advances (key : List Char) (state : State) (key' : List Char) (state' : State) : Prop :=
  ∀ fuel results, key.length ≤ fuel → ∃ fuel' results', key'.length ≤ fuel' ∧
    decodeAux fuel key state results = decodeAux fuel' key' state' results'

theorem Advances.refl (key : List Char) (state : State) : Advances key state key state :=
  fun fuel results enough => ⟨fuel, results, enough, rfl⟩

theorem Advances.trans {key key' key'' : List Char} {state state' state'' : State}
    (first : Advances key state key' state') (second : Advances key' state' key'' state'') :
    Advances key state key'' state'' := by
  intro fuel results enough
  obtain ⟨fuel', results', enough', same⟩ := first fuel results enough
  obtain ⟨fuel'', results'', enough'', same'⟩ := second fuel' results' enough'
  exact ⟨fuel'', results'', enough'', same.trans same'⟩

/-- One round of the decoding. -/
theorem advances_round {w behind : List Char} {entry : Entry} {state handled : State}
    (nonempty : w ≠ []) (found : createDefaultEntries.longestMatch (w ++ behind) =
      some (entry, w.length))
    (isHandled : ∀ results, ∃ results', handleEntry (w ++ behind) entry w.length state results =
      (true, handled, results')) :
    Advances (w ++ behind) state behind handled := by
  intro fuel results enough
  have positive := List.length_pos_of_ne_nil nonempty
  rw [List.length_append] at enough
  obtain _ | fuel := fuel
  · omega
  · obtain ⟨results', handles⟩ := isHandled results
    refine ⟨fuel, results', by omega, ?_⟩
    rw [decodeAux, if_neg (by simp [nonempty]), found]
    simp only [handles, List.drop_left]

theorem numberWord_ne_nil {w : Word} (mem : w ∈ numberWords) : w.1 ≠ [] := by
  revert w
  decide

theorem advances_word {w : Word} (mem : w ∈ numberWords) {state handled : State}
    (applied : applyWord state w = some handled) {behind : List Char} (follows : Follows w behind) :
    Advances (w.1 ++ behind) state behind handled := by
  obtain ⟨results', isHandled⟩ := applyWord_eq_some applied
  exact advances_round (numberWord_ne_nil mem) (longestMatch_word mem follows)
    fun results => ⟨results', by rw [handleEntry_append mem, isHandled]⟩

theorem advances_niChou {state between handled : State} (first : applyWord state ni = some between)
    (second : applyWord between chou = some handled) {behind : List Char}
    (follows : behind = [] ∨ ∃ next ∈ numberWords, next.1 <+: behind) :
    Advances (ni.1 ++ (chou.1 ++ behind)) state behind handled := by
  have split : ni.1 ++ (chou.1 ++ behind) = niChou.1 ++ behind := rfl
  rw [split]
  exact advances_round (by decide) (longestMatch_niChou follows)
    (handleEntry_niChou first second behind)

/-- There is no せん before a ちょう. -/
def NoSenChou (words : List Word) : Prop := ¬ [sen, chou] <:+: words

theorem NoSenChou.of_suffix (front : List Word) {words : List Word}
    (free : NoSenChou (front ++ words)) :
    NoSenChou words :=
  fun inside => free (inside.trans (List.suffix_append front words).isInfix)

theorem kana_cons (w : Word) (words : List Word) : kana (w :: words) = w.1 ++ kana words := rfl

theorem prefix_kana {words : List Word} (all : ∀ w ∈ words, w ∈ numberWords) :
    kana words = [] ∨ ∃ next ∈ numberWords, next.1 <+: kana words := by
  cases words with
  | nil => exact .inl rfl
  | cons next rest =>
      exact .inr ⟨next, all next List.mem_cons_self, List.prefix_append next.1 (kana rest)⟩

/-- A word is followed by the next one, or by nothing. -/
theorem follows_kana {w : Word} {words : List Word} (all : ∀ next ∈ words, next ∈ numberWords)
    (noConflict : ∀ next ∈ words.head?, ¬ Conflict w next) : Follows w (kana words) := by
  cases words with
  | nil => exact .inl rfl
  | cons next rest =>
      exact .inr ⟨next, all next List.mem_cons_self, noConflict next rfl,
        List.prefix_append next.1 (kana rest)⟩

/-- The decoding goes word by word up to some other words, which do not begin with ちょう. -/
theorem advances_words {words : List Word} (tail : List Word)
    (all : ∀ w ∈ words ++ tail, w ∈ numberWords)
    (free : NoSenChou words) (notChou : tail.head? ≠ some chou) {state handled : State}
    (applied : applyWords state words = some handled) :
    Advances (kana (words ++ tail)) state (kana tail) handled := by
  induction length : words.length using Nat.strong_induction_on generalizing words state with
  | _ n ih =>
      obtain _ | ⟨w, words⟩ := words
      · simp only [applyWords, List.foldlM_nil, Option.pure_def, Option.some_inj] at applied
        subst applied
        exact Advances.refl _ _
      · simp only [applyWords, List.foldlM_cons, Option.bind_eq_bind,
          Option.bind_eq_some_iff] at applied
        obtain ⟨between, first, applied⟩ := applied
        have rest : ∀ next ∈ words ++ tail, next ∈ numberWords :=
          fun next mem => all next (List.mem_cons_of_mem _ mem)
        have free' : NoSenChou words := NoSenChou.of_suffix [w] free
        by_cases isNiChou : w = ni ∧ words.head? = some chou
        · obtain ⟨rfl, head⟩ := isNiChou
          obtain ⟨words, rfl⟩ := List.head?_eq_some_iff.mp head
          simp only [List.foldlM_cons, Option.bind_eq_bind, Option.bind_eq_some_iff] at applied
          obtain ⟨behind, second, applied⟩ := applied
          have rest' : ∀ next ∈ words ++ tail, next ∈ numberWords :=
            fun next mem => rest next (List.mem_cons_of_mem _ mem)
          exact (advances_niChou first second (prefix_kana rest')).trans
            (ih words.length (by simp [← length]) rest'
              (NoSenChou.of_suffix [chou] free') applied rfl)
        · have noConflict : ∀ next ∈ (words ++ tail).head?, ¬ Conflict w next := by
            rintro next isNext ⟨isWord, rfl⟩
            obtain _ | ⟨next, words⟩ := words
            · exact notChou isNext
            · obtain rfl : next = chou := by simpa using isNext
              rcases isWord with rfl | rfl
              · exact isNiChou ⟨rfl, rfl⟩
              · exact free (List.prefix_append [sen, chou] words).isInfix
          exact (advances_word (all w List.mem_cons_self) first (follows_kana rest noConflict)).trans
            (ih words.length (by simp [← length]) rest free' applied rfl)

/-! ## What is consumed -/

theorem byteLen_append (a b : List Char) : byteLen (a ++ b) = byteLen a + byteLen b := by
  simp [byteLen]

/-- Words have been consumed from one state to another. -/
structure Consumes (state : State) (words : List Word) (state' : State) : Prop where
  byteLen : state'.consumedKeyByteLen = state.consumedKeyByteLen + byteLen (kana words)
  key : state'.key = state.key
  keys : state'.consumedKeys = state.consumedKeys ++ words.map Prod.fst

theorem handled_unit {key : List Char} {entry : Entry} {state : State}
    (ok : (handleUnitEntry key entry state).1 = true) :
    (handleUnitEntry key entry state).2.1.consumedKeyByteLen = state.consumedKeyByteLen ∧
      (handleUnitEntry key entry state).2.1.key = state.key ∧
      (handleUnitEntry key entry state).2.1.consumedKeys = state.consumedKeys ++ [key] := by
  unfold handleUnitEntry at ok ⊢
  split_ifs at ok ⊢ <;> simp

theorem handled_smallDigit {key : List Char} {entry : Entry} {state : State}
    (ok : (handleSmallDigitEntry key entry state).1 = true) :
    (handleSmallDigitEntry key entry state).2.1.consumedKeyByteLen = state.consumedKeyByteLen ∧
      (handleSmallDigitEntry key entry state).2.1.key = state.key ∧
      (handleSmallDigitEntry key entry state).2.1.consumedKeys = state.consumedKeys ++ [key] := by
  unfold handleSmallDigitEntry at ok ⊢
  split_ifs at ok ⊢ <;> simp

theorem handled_bigDigit {key : List Char} {entry : Entry} {state : State}
    (ok : (handleBigDigitEntry key entry state).1 = true) :
    (handleBigDigitEntry key entry state).2.1.consumedKeyByteLen = state.consumedKeyByteLen ∧
      (handleBigDigitEntry key entry state).2.1.key = state.key ∧
      (handleBigDigitEntry key entry state).2.1.consumedKeys = state.consumedKeys ++ [key] := by
  unfold handleBigDigitEntry at ok ⊢
  split_ifs at ok ⊢
  simp

theorem consumes_word {w : Word} (mem : w ∈ numberWords) {state handled : State}
    (applied : applyWord state w = some handled) : Consumes state [w] handled := by
  have text : kana [w] = w.1 := List.append_nil w.1
  rcases type_of_numberWord mem with type | type | type
  · rw [applyWord_unit type, Option.ite_none_right_eq_some, Option.some_inj] at applied
    obtain ⟨ok, rfl⟩ := applied
    obtain ⟨consumed, key, keys⟩ := handled_unit ok
    exact ⟨by simp [State.consume, consumed, text], key, keys⟩
  · rw [applyWord_smallDigit type, Option.ite_none_right_eq_some, Option.some_inj] at applied
    obtain ⟨ok, rfl⟩ := applied
    obtain ⟨consumed, key, keys⟩ := handled_smallDigit ok
    exact ⟨by simp [State.consume, consumed, text], key, keys⟩
  · rw [applyWord_bigDigit type, Option.ite_none_right_eq_some, Option.some_inj] at applied
    obtain ⟨ok, rfl⟩ := applied
    obtain ⟨consumed, key, keys⟩ := handled_bigDigit ok
    exact ⟨by simp [State.consume, consumed, text], key, keys⟩

theorem consumes_words {words : List Word} (all : ∀ w ∈ words, w ∈ numberWords)
    {state handled : State} (applied : applyWords state words = some handled) :
    Consumes state words handled := by
  induction words generalizing state with
  | nil =>
      simp only [applyWords, List.foldlM_nil, Option.pure_def, Option.some_inj] at applied
      subst applied
      exact ⟨rfl, rfl, by simp⟩
  | cons w words ih =>
      simp only [applyWords, List.foldlM_cons, Option.bind_eq_bind,
        Option.bind_eq_some_iff] at applied
      obtain ⟨between, first, applied⟩ := applied
      have one := consumes_word (all w List.mem_cons_self) first
      have rest := ih (fun next mem => all next (List.mem_cons_of_mem _ mem)) applied
      refine ⟨?_, rest.key.trans one.key, ?_⟩
      · rw [rest.byteLen, one.byteLen, kana_cons, byteLen_append, kana_cons, byteLen_append]
        simp [kana, NumberDecoder.byteLen, Nat.add_assoc]
      · rw [rest.keys, one.keys]
        simp

/-- No result uses more of the key than the state has consumed. -/
def Bounded (state : State) (results : List Result) : Prop :=
  ∀ result ∈ results, result.consumedKeyByteLen ≤ state.consumedKeyByteLen

theorem Bounded.mono {state state' : State} {results : List Result} (bounded : Bounded state results)
    (grows : state.consumedKeyByteLen ≤ state'.consumedKeyByteLen) : Bounded state' results :=
  fun result mem => (bounded result mem).trans grows

theorem consumedKeyByteLen_of_result {state : State} {result : Result}
    (isResult : state.result = some result) :
    result.consumedKeyByteLen = state.consumedKeyByteLen := by
  unfold State.result at isResult
  simp only at isResult
  split_ifs at isResult <;> cases isResult <;> rfl

theorem bounded_maybeAppendResult {state : State} {results : List Result}
    (bounded : Bounded state results) : Bounded state (maybeAppendResult state results) := by
  unfold maybeAppendResult
  split
  · exact bounded
  · rename_i result isResult
    split
    · exact bounded
    · intro other mem
      rcases List.mem_append.mp mem with old | new
      · exact bounded other old
      · rw [List.mem_singleton.mp new, consumedKeyByteLen_of_result isResult]

theorem bounded_outputBefore (entry : Entry) (state : State) :
    Bounded state (outputBefore entry state) := by
  unfold outputBefore
  split
  · exact bounded_maybeAppendResult fun _ mem => absurd mem List.not_mem_nil
  · exact fun _ mem => absurd mem List.not_mem_nil

/-- The handlers leave what is consumed, and put out results up to there. -/
theorem bounded_unit (key : List Char) (entry : Entry) (state : State) :
    (handleUnitEntry key entry state).2.1.consumedKeyByteLen = state.consumedKeyByteLen ∧
      Bounded state (handleUnitEntry key entry state).2.2 := by
  have output := bounded_outputBefore entry state
  unfold handleUnitEntry
  split_ifs <;> first | exact ⟨rfl, output⟩ | exact ⟨rfl, fun _ mem => absurd mem List.not_mem_nil⟩

theorem bounded_smallDigit (key : List Char) (entry : Entry) (state : State) :
    (handleSmallDigitEntry key entry state).2.1.consumedKeyByteLen = state.consumedKeyByteLen ∧
      Bounded state (handleSmallDigitEntry key entry state).2.2 := by
  have output := bounded_outputBefore entry state
  unfold handleSmallDigitEntry
  split_ifs <;> first | exact ⟨rfl, output⟩ | exact ⟨rfl, fun _ mem => absurd mem List.not_mem_nil⟩

theorem bounded_bigDigit (key : List Char) (entry : Entry) (state : State) :
    (handleBigDigitEntry key entry state).2.1.consumedKeyByteLen = state.consumedKeyByteLen ∧
      Bounded state (handleBigDigitEntry key entry state).2.2 := by
  have output := bounded_outputBefore entry state
  unfold handleBigDigitEntry
  split_ifs <;> first | exact ⟨rfl, output⟩ | exact ⟨rfl, fun _ mem => absurd mem List.not_mem_nil⟩

/-- One round keeps the results within what is consumed. -/
theorem bounded_handleEntry (key : List Char) (entry : Entry) (keyLen : Nat) {state : State}
    {results : List Result} (bounded : Bounded state results) :
    Bounded (handleEntry key entry keyLen state results).2.1
      (handleEntry key entry keyLen state results).2.2 := by
  have grows : ∀ {before after : State} {n : Nat},
      after.consumedKeyByteLen = before.consumedKeyByteLen →
        before.consumedKeyByteLen ≤ (after.consume n).consumedKeyByteLen :=
    fun same => same ▸ Nat.le_add_right _ _
  unfold handleEntry
  simp only
  split
  · exact bounded
  · obtain ⟨same, output⟩ := bounded_unit (key.take keyLen) entry state
    generalize handleUnitEntry (key.take keyLen) entry state = round at same output ⊢
    obtain ⟨_ | _, handled, results'⟩ := round
    · exact output.mono same.ge
    · exact output.mono (grows same)
  · obtain ⟨same, output⟩ := bounded_smallDigit (key.take keyLen) entry state
    generalize handleSmallDigitEntry (key.take keyLen) entry state = round at same output ⊢
    obtain ⟨_ | _, handled, results'⟩ := round
    · exact output.mono same.ge
    · exact output.mono (grows same)
  · obtain ⟨same, output⟩ := bounded_bigDigit (key.take keyLen) entry state
    generalize handleBigDigitEntry (key.take keyLen) entry state = round at same output ⊢
    obtain ⟨_ | _, handled, results'⟩ := round
    · exact output.mono same.ge
    · exact output.mono (grows same)
  · obtain ⟨same, output⟩ := bounded_unit (takeBytes entry.consumeByteLenOfFirst key) entry state
    generalize handleUnitEntry (takeBytes entry.consumeByteLenOfFirst key) entry state = round
      at same output ⊢
    obtain ⟨_ | _, handled, results'⟩ := round
    · exact output.mono same.ge
    · simp only
      generalize (key.take keyLen).drop _ = digitKey
      obtain ⟨same', output'⟩ :=
        bounded_bigDigit digitKey entry (handled.consume entry.consumeByteLenOfFirst)
      generalize handleBigDigitEntry digitKey entry
        (handled.consume entry.consumeByteLenOfFirst) = round at same' output' ⊢
      obtain ⟨_ | _, handled', results''⟩ := round
      · exact output'.mono same'.ge
      · exact output'.mono (grows same')
  · obtain ⟨same, output⟩ := bounded_unit (takeBytes entry.consumeByteLenOfFirst key) entry state
    generalize handleUnitEntry (takeBytes entry.consumeByteLenOfFirst key) entry state = round
      at same output ⊢
    obtain ⟨_ | _, handled, results'⟩ := round
    · exact output.mono same.ge
    · exact output.mono (grows same)

theorem bounded_decodeAux (fuel : Nat) (key : List Char) {state : State} {results : List Result}
    (bounded : Bounded state results) :
    Bounded (decodeAux fuel key state results).1 (decodeAux fuel key state results).2 := by
  induction fuel generalizing key state results with
  | zero => exact bounded
  | succ fuel ih =>
      rw [decodeAux]
      split
      · exact bounded
      · split
        · exact bounded
        · rename_i entry keyLen _
          have round := bounded_handleEntry key entry keyLen bounded
          generalize handleEntry key entry keyLen state results = handled at round ⊢
          obtain ⟨_ | _, handled, results'⟩ := handled
          · exact round
          · exact ih _ round

/-! ## The end of the decoding -/

/-- No number word is any of the words that must stand at the end. -/
theorem isInvalidSequence_numberWords {words : List Word} (all : ∀ w ∈ words, w ∈ numberWords) :
    isInvalidSequence (words.map Prod.fst) = false := by
  have plain : ∀ w ∈ numberWords, w.1 ≠ ['よ'] ∧ w.1 ≠ ['く'] ∧ w.1 ≠ ['し'] := by decide
  induction words with
  | nil => rfl
  | cons w words ih =>
      have here := plain w (all w List.mem_cons_self)
      have rest := ih fun next mem => all next (List.mem_cons_of_mem _ mem)
      simp [isInvalidSequence, here.1, here.2.1, here.2.2, rest]

theorem decodeAux_nil (fuel : Nat) (state : State) (results : List Result) :
    decodeAux fuel [] state results = (state, results) := by
  cases fuel <;> simp [decodeAux]

/-- At the end of its words a key has a result, if its last state has one. -/
theorem containsWhole_of_applyWords {words : List Word} (all : ∀ w ∈ words, w ∈ numberWords)
    (free : NoSenChou words) {handled : State}
    (applied : applyWords { key := kana words } words = some handled) {result : Result}
    (isResult : handled.result = some result) : ContainsWhole (kana words) result.candidate := by
  have consumes := consumes_words all applied
  obtain ⟨fuel, results, -, same⟩ := advances_words [] (by simpa using all) free (by simp)
    applied (kana words).length [] (by simp)
  have nothing : kana [] = [] := rfl
  rw [List.append_nil, nothing, decodeAux_nil] at same
  have whole : handled.consumedKeyByteLen = byteLen (kana words) := by simp [consumes.byteLen]
  have valid : isInvalidSequence handled.splitKeys = false := by
    rw [State.splitKeys, consumes.key, if_neg (by simp [whole]), consumes.keys, List.nil_append]
    exact isInvalidSequence_numberWords all
  have decoded : decode (kana words) = results ++ [result] := by
    unfold decode
    rw [same]
    simp [maybeAppendResult, isResult, valid]
  refine ⟨result, ?_, ?_, rfl⟩
  · rw [decoded]
    exact List.mem_append_right _ List.mem_cons_self
  · rw [consumedKeyByteLen_of_result isResult, whole]

/-- A key with せんちょう has no result that goes beyond. -/
theorem not_containsWhole_of_senChou (before behind : List Word)
    (all : ∀ w ∈ before ++ sen :: chou :: behind, w ∈ numberWords) (free : NoSenChou before)
    {handled : State}
    (applied : applyWords { key := kana (before ++ sen :: chou :: behind) } before = some handled)
    (candidate : List Char) :
    ¬ ContainsWhole (kana (before ++ sen :: chou :: behind)) candidate := by
  have consumes := consumes_words (fun w mem => all w (List.mem_append_left _ mem)) applied
  obtain ⟨fuel, results, enough, same⟩ := advances_words _ all free
    (by
      rw [List.head?_cons, ne_eq, Option.some_inj]
      decide) applied
    (kana (before ++ sen :: chou :: behind)).length [] (Nat.le_refl _)
  have text : kana (sen :: chou :: behind) = sen.1 ++ chou.1 ++ kana behind := rfl
  have stops : decodeAux fuel (kana (sen :: chou :: behind)) handled results =
      (handled, results) := by
    have nonempty : kana (sen :: chou :: behind) ≠ [] := by
      rw [text, sen]
      exact List.cons_ne_nil _ _
    obtain _ | fuel := fuel
    · exact absurd (List.length_eq_zero_iff.mp (Nat.le_zero.mp enough)) nonempty
    · have type : senChi.2.type = .stopDecoding := rfl
      rw [decodeAux, if_neg nonempty, text, longestMatch_senChou]
      simp [handleEntry, type]
  rw [stops] at same
  have bounded : Bounded handled results := by
    have start : Bounded { key := kana (before ++ sen :: chou :: behind) } [] :=
      fun _ mem => absurd mem List.not_mem_nil
    have run := bounded_decodeAux (kana (before ++ sen :: chou :: behind)).length
      (kana (before ++ sen :: chou :: behind)) start
    rwa [same] at run
  rintro ⟨result, mem, whole, -⟩
  have decoded : decode (kana (before ++ sen :: chou :: behind)) =
      maybeAppendResult handled results := by
    unfold decode
    rw [same]
  rw [decoded] at mem
  have short := bounded_maybeAppendResult bounded result mem
  have longer : byteLen (kana (before ++ sen :: chou :: behind)) =
      byteLen (kana before) + (15 + byteLen (kana behind)) := by
    rw [kana, List.flatMap_append, byteLen_append]
    congr 1
    change byteLen (sen.1 ++ chou.1 ++ kana behind) = _
    rw [byteLen_append]
    rfl
  rw [whole, consumes.byteLen, longer] at short
  simp only [Nat.zero_add] at short
  omega

/-! ## The numbers of the states -/

/-- What has been written, the last unit, the number of the group so far, and the largest place a
digit may still have in it. -/
structure InGroup (state : State) (str : List Char) (big : Int) (value : Nat) (place : Int) :
    Prop where
  strEq : state.currentNumStr = str
  bigEq : state.bigDigit = big
  written : str ≠ [] → big ≠ -1
  numberEq : state.smallDigitNum = if value = 0 then -1 else (value : Int)
  placeOk : state.smallDigit = -1 ∨ place < state.smallDigit

/-- What the entries of the words say about them. -/
theorem number_of_unit : ∀ u ∈ numberWords, u.2.type = .unit → 0 < u.2.number ∧ u.2.number < 10 := by
  decide

theorem number_of_smallDigit : ∀ p ∈ numberWords, p.2.type = .smallDigit →
    p.2.number = 10 ^ (p.2.digit.toNat - 1) ∧ 1 < p.2.digit := by
  decide

theorem digit_of_bigDigit : ∀ b ∈ numberWords, b.2.type = .bigDigit → ∀ unit ∈ bigUnits,
    b.2.digitStr = [unit.2] → b.2.digit = unit.1 + 1 := by
  decide

variable {state : State} {str : List Char} {big place : Int} {value : Nat}

theorem applyWords_append (state : State) (words more : List Word) :
    applyWords state (words ++ more) =
      (applyWords state words).bind fun between => applyWords between more := by
  rw [applyWords, List.foldlM_append]
  rfl

theorem applyWords_singleton (state : State) (w : Word) :
    applyWords state [w] = applyWord state w := by
  cases applied : applyWord state w <;> simp [applyWords, applied]

/-- A digit of ones is added to a number that has none. -/
theorem inGroup_unit {d : Nat} {words : List Word} (reads : ReadsUnit d words)
    (inGroup : InGroup state str big value place) (noOnes : value % 10 = 0) :
    ∃ handled, applyWords state words = some handled ∧
      InGroup handled str big (value + d) place := by
  cases reads with
  | zero => exact ⟨state, rfl, inGroup⟩
  | unit mem type number =>
      rename_i u
      obtain ⟨positive, -⟩ := number_of_unit u mem type
      have notZero : ¬ (state.isValid ∧ u.2.number = 0) := fun zero => by omega
      have accepted : ¬ (state.smallDigitNum = 0 ∨
          (state.smallDigitNum ≠ -1 ∧ state.smallDigitNum % 10 ≠ 0)) := by
        rw [inGroup.numberEq]
        split <;> omega
      rw [applyWords_singleton, applyWord_unit type]
      simp only [handleUnitEntry, if_neg notZero, if_neg accepted, if_true]
      refine ⟨_, rfl, inGroup.strEq, inGroup.bigEq, inGroup.written, ?_, inGroup.placeOk⟩
      simp only [State.consume, inGroup.numberEq, number]
      have some_ : value + d ≠ 0 := by omega
      by_cases nothing : value = 0
      · rw [if_pos nothing, if_pos rfl, if_neg some_, nothing, Nat.zero_add]
      · rw [if_neg nothing, if_neg (by omega), if_neg some_, Nat.cast_add]

/-- The word of a place counts the ones of a number as its digit, or adds a one. -/
theorem inGroup_smallDigit {p : Word} (mem : p ∈ numberWords) (type : p.2.type = .smallDigit)
    (ones : Nat) (inGroup : InGroup state str big (value + ones) p.2.digit) (noOnes : value % 10 = 0)
    (less : ones < 10) :
    ∃ handled, applyWord state p = some handled ∧ InGroup handled str big
      (value + max 1 ones * 10 ^ (p.2.digit.toNat - 1)) (p.2.digit - 1) := by
  obtain ⟨number, large⟩ := number_of_smallDigit p mem type
  have decreasing : ¬ (state.smallDigit > 1 ∧ p.2.digit ≥ state.smallDigit) := by
    have := inGroup.placeOk
    omega
  have notZero : ¬ state.smallDigitNum = 0 := by
    rw [inGroup.numberEq]
    split <;> omega
  rw [applyWord_smallDigit type]
  simp only [handleSmallDigitEntry, if_neg decreasing, if_neg notZero, if_true]
  refine ⟨_, rfl, inGroup.strEq, inGroup.bigEq, inGroup.written, ?_, .inr (by simp [State.consume])⟩
  simp only [State.consume, inGroup.numberEq, number]
  have weight : 0 < 10 ^ (p.2.digit.toNat - 1) := Nat.pow_pos (by omega)
  have positive : value + max 1 ones * 10 ^ (p.2.digit.toNat - 1) ≠ 0 := by
    have := Nat.mul_pos (Nat.lt_of_lt_of_le Nat.one_pos (Nat.le_max_left 1 ones)) weight
    omega
  rw [if_neg positive]
  by_cases nothing : value + ones = 0
  · have : value = 0 ∧ ones = 0 := by omega
    simp [this]
  · have tens : ((value + ones : Nat) : Int) / 10 * 10 = value := by omega
    have last : ((value + ones : Nat) : Int) % 10 = ones := by omega
    rw [if_neg nothing, if_neg (by omega), tens, last]
    push_cast
    rfl

/-- A digit of a place is added to a number that has none there. -/
theorem inGroup_digit (digit : Nat) {d : Nat} {words : List Word} (reads : ReadsDigit digit d words)
    (inGroup : InGroup state str big value digit) (noOnes : value % 10 = 0) :
    ∃ handled, applyWords state words = some handled ∧
      InGroup handled str big (value + d * 10 ^ (digit - 1)) (digit - 1) := by
  cases reads with
  | zero =>
      refine ⟨state, rfl, ?_⟩
      rw [Nat.zero_mul, Nat.add_zero]
      exact ⟨inGroup.strEq, inGroup.bigEq, inGroup.written, inGroup.numberEq,
        inGroup.placeOk.imp_right fun less => by omega⟩
  | one mem type atPlace =>
      rw [applyWords_singleton]
      have placed := inGroup_smallDigit mem type 0 (by rw [atPlace]; exact inGroup) noOnes
        (by omega)
      rwa [atPlace] at placed
  | more two unit mem type atPlace =>
      obtain ⟨between, first, counted⟩ := inGroup_unit unit inGroup noOnes
      have less : d < 10 := by
        cases unit with
        | unit unitMem unitType number =>
            have := (number_of_unit _ unitMem unitType).2
            omega
      have placed := inGroup_smallDigit mem type d (by rw [atPlace]; exact counted) noOnes less
      rw [atPlace, Nat.max_eq_right (by omega)] at placed
      obtain ⟨handled, second, inGroup'⟩ := placed
      refine ⟨handled, ?_, inGroup'⟩
      rename_i u p
      rw [← List.singleton_append, applyWords_append, first, Option.bind_some,
        applyWords_singleton, second]

/-- A group is counted from nothing. -/
theorem inGroup_group {g : Nat} {words : List Word} (reads : ReadsGroup g words)
    (inGroup : InGroup state str big 0 4) :
    ∃ handled, applyWords state words = some handled ∧ InGroup handled str big g 1 := by
  obtain ⟨thousands, hundreds, tens, units, rfl, reads4, reads3, reads2, reads1⟩ := reads
  obtain ⟨state4, apply4, inGroup4⟩ := inGroup_digit 4 reads4 inGroup (by omega)
  obtain ⟨state3, apply3, inGroup3⟩ := inGroup_digit 3 reads3 inGroup4 (by omega)
  obtain ⟨state2, apply2, inGroup2⟩ := inGroup_digit 2 reads2 inGroup3 (by omega)
  obtain ⟨state1, apply1, inGroup1⟩ := inGroup_unit reads1 inGroup2 (by omega)
  refine ⟨state1, ?_, ?_⟩
  · rw [applyWords_append, apply4, Option.bind_some, applyWords_append, apply3, Option.bind_some,
      applyWords_append, apply2, Option.bind_some, apply1]
  · have total : 0 + g / 1000 * 10 ^ (4 - 1) + g / 100 % 10 * 10 ^ (3 - 1) +
        g / 10 % 10 * 10 ^ (2 - 1) + g % 10 = g := by omega
    rwa [total] at inGroup1

/-- A group is written with its unit, and nothing is left of its number. -/
theorem inGroup_big {unit : Nat × Char} (isUnit : unit ∈ bigUnits) {g : Nat} {words : List Word}
    (reads : ReadsBig unit.2 g words) (inGroup : InGroup state str big 0 4)
    (decreasing : big = -1 ∨ (unit.1 : Int) + 1 < big) :
    ∃ handled big', applyWords state words = some handled ∧
      InGroup handled (str ++ numeralGroup g [unit.2]) big' 0 4 ∧
      (big' = big ∨ big' = unit.1 + 1) := by
  cases reads with
  | zero =>
      refine ⟨state, big, rfl, ?_, .inl rfl⟩
      rwa [numeralGroup, if_pos rfl, List.append_nil]
  | group positive group mem type digitStr =>
      rename_i words b
      obtain ⟨between, first, counted⟩ := inGroup_group group inGroup
      have digit := digit_of_bigDigit b mem type unit isUnit digitStr
      have notZero : g ≠ 0 := by omega
      have number : between.smallDigitNum = g := by rw [counted.numberEq, if_neg notZero]
      have isDecreasing : ¬ (between.bigDigit > 0 ∧ b.2.digit ≥ between.bigDigit) := by
        rw [counted.bigEq, digit]
        omega
      have isSet : ¬ (between.smallDigitNum = -1 ∨ between.smallDigitNum = 0) := by omega
      rw [applyWords_append, first, Option.bind_some, applyWords_singleton, applyWord_bigDigit type]
      simp only [handleBigDigitEntry, if_neg isDecreasing, if_neg isSet, if_true]
      refine ⟨_, unit.1 + 1, rfl, ⟨?_, digit, by omega, rfl, .inl rfl⟩, .inr rfl⟩
      have digits : strCat (g : Int) = Nat.toDigits 10 g := by
        rw [strCat, if_neg (by omega), Int.natAbs_natCast]
      simp only [State.consume, counted.strEq, number, digits, digitStr, numeralGroup,
        if_neg notZero, List.append_assoc]

/-! ## The result of a reading -/

theorem numeralGroup_eq_nil {g : Nat} {unit : List Char} : numeralGroup g unit = [] ↔ g = 0 := by
  unfold numeralGroup
  split
  · simp [*]
  · simp [*, Nat.toDigits_ne_nil]

/-- What a state in a group stands for is its result. -/
theorem result_of_inGroup (inGroup : InGroup state str big value place)
    (nonempty : str ++ numeralGroup value [] ≠ []) :
    ∃ result, state.result = some result ∧ result.candidate = str ++ numeralGroup value [] := by
  have number := inGroup.numberEq
  by_cases nothing : value = 0
  · have written : str ≠ [] := by simpa [numeralGroup_eq_nil.mpr nothing] using nonempty
    have valid : state.isValid = true := by
      have := inGroup.written written
      simp [State.isValid, inGroup.bigEq, this]
    rw [if_pos nothing] at number
    refine ⟨⟨state.consumedKeyByteLen, state.currentNumStr, state.digitNum⟩, ?_, ?_⟩
    · simp [State.result, valid, number, inGroup.strEq, written]
    · simp [inGroup.strEq, numeralGroup_eq_nil.mpr nothing]
  · rw [if_neg nothing] at number
    have valid : state.isValid = true := by
      have : state.smallDigitNum ≠ -1 := by omega
      simp [State.isValid, this]
    have positive : max state.smallDigitNum 0 = value := by omega
    have digits : strCat (value : Int) = Nat.toDigits 10 value := by
      rw [strCat, if_neg (by omega), Int.natAbs_natCast]
    refine ⟨⟨state.consumedKeyByteLen, state.currentNumStr ++ strCat value, state.digitNum⟩, ?_, ?_⟩
    · simp only [State.result, valid, not_true_eq_false, if_false, positive]
      rw [if_pos (by omega)]
    · simp [inGroup.strEq, digits, numeralGroup, nothing]

/-- The words of a reading write its numeral behind what has been written. -/
theorem applyWords_readsFrom {units : List (Nat × Char)} (isUnits : ∀ unit ∈ units, unit ∈ bigUnits)
    (descending : (units.map Prod.fst).Pairwise (· > ·)) {n : Nat} {words : List Word}
    (reads : ReadsFrom units n words) (inGroup : InGroup state str big 0 4)
    (decreasing : big = -1 ∨ ∀ unit ∈ units, (unit.1 : Int) + 1 < big) :
    ∃ handled written big' g, applyWords state words = some handled ∧
      InGroup handled written big' g 1 ∧
      written ++ numeralGroup g [] = str ++ numeralFrom units n := by
  induction units generalizing n words state str big with
  | nil =>
      obtain ⟨handled, applied, counted⟩ := inGroup_group reads inGroup
      exact ⟨handled, str, big, n, applied, counted, rfl⟩
  | cons unit units ih =>
      obtain ⟨front, back, rfl, readsBig, readsBack⟩ := reads
      rw [List.map_cons, List.pairwise_cons] at descending
      obtain ⟨between, big', first, inGroup', isBig⟩ :=
        inGroup_big (isUnits unit List.mem_cons_self) readsBig inGroup
          (decreasing.imp_right fun less => less unit List.mem_cons_self)
      obtain ⟨handled, written, big'', g, second, counted, same⟩ :=
        ih (fun u mem => isUnits u (List.mem_cons_of_mem _ mem)) descending.2 readsBack inGroup'
          (by
            rcases isBig with rfl | rfl
            · exact decreasing.imp_right fun less u mem => less u (List.mem_cons_of_mem _ mem)
            · refine .inr fun u mem => ?_
              have := descending.1 u.1 (List.mem_map_of_mem mem)
              omega)
      refine ⟨handled, written, big'', g, ?_, counted, ?_⟩
      · rw [applyWords_append, first, Option.bind_some, second]
      · rw [same, numeralFrom, List.append_assoc]

theorem numeralFrom_ne_nil {units : List (Nat × Char)} {n : Nat} (positive : 0 < n) :
    numeralFrom units n ≠ [] := by
  induction units generalizing n with
  | nil =>
      rw [numeralFrom, ne_eq, numeralGroup_eq_nil]
      omega
  | cons unit units ih =>
      intro empty
      rw [numeralFrom, List.append_eq_nil_iff, numeralGroup_eq_nil] at empty
      have split := Nat.div_add_mod n (10 ^ unit.1)
      rw [empty.1, Nat.mul_zero, Nat.zero_add] at split
      exact ih (split.symm ▸ positive) empty.2

/-! ## The words of a reading -/

theorem mem_of_readsUnit {d : Nat} {words : List Word} (reads : ReadsUnit d words) :
    ∀ w ∈ words, w ∈ numberWords := by
  cases reads with
  | zero => simp
  | unit mem _ _ => simpa using mem

theorem mem_of_readsDigit {digit d : Nat} {words : List Word} (reads : ReadsDigit digit d words) :
    ∀ w ∈ words, w ∈ numberWords := by
  cases reads with
  | zero => simp
  | one mem _ _ => simpa using mem
  | more _ unit mem _ _ =>
      have unitMem := mem_of_readsUnit unit
      simp only [List.mem_cons, List.not_mem_nil, or_false, forall_eq] at unitMem
      simpa using ⟨unitMem, mem⟩

theorem mem_of_readsGroup {g : Nat} {words : List Word} (reads : ReadsGroup g words) :
    ∀ w ∈ words, w ∈ numberWords := by
  obtain ⟨thousands, hundreds, tens, units, rfl, reads4, reads3, reads2, reads1⟩ := reads
  intro w mem
  simp only [List.mem_append] at mem
  rcases mem with mem | mem | mem | mem
  · exact mem_of_readsDigit reads4 w mem
  · exact mem_of_readsDigit reads3 w mem
  · exact mem_of_readsDigit reads2 w mem
  · exact mem_of_readsUnit reads1 w mem

theorem mem_of_readsFrom {units : List (Nat × Char)} {n : Nat} {words : List Word}
    (reads : ReadsFrom units n words) : ∀ w ∈ words, w ∈ numberWords := by
  induction units generalizing n words with
  | nil => exact mem_of_readsGroup reads
  | cons unit units ih =>
      obtain ⟨front, back, rfl, readsBig, readsBack⟩ := reads
      intro w mem
      rcases List.mem_append.mp mem with mem | mem
      · generalize n / 10 ^ unit.1 = g at readsBig
        cases readsBig with
        | zero => simp at mem
        | group _ group bigMem _ _ =>
            rcases List.mem_append.mp mem with mem | mem
            · exact mem_of_readsGroup group w mem
            · exact List.mem_singleton.mp mem ▸ bigMem
      · exact ih readsBack w mem

/-- The first せん that a ちょう follows. -/
theorem exists_first_senChou {words : List Word} (inside : [sen, chou] <:+: words) :
    ∃ before behind, words = before ++ sen :: chou :: behind ∧ NoSenChou before := by
  induction words with
  | nil => simp at inside
  | cons w words ih =>
      by_cases here : [sen, chou] <+: w :: words
      · obtain ⟨behind, same⟩ := here
        exact ⟨[], behind, same.symm, by simp [NoSenChou]⟩
      · obtain ⟨before, behind, rfl, free⟩ := ih ((List.infix_cons_iff.mp inside).resolve_left here)
        refine ⟨w :: before, behind, rfl, fun inside' => ?_⟩
        rcases List.infix_cons_iff.mp inside' with prefixed | later
        · exact here (prefixed.trans (List.prefix_append (w :: before) (sen :: chou :: behind)))
        · exact free later

/-! ## The decoding of a reading -/

/-- **A reading of a number is decoded to its numeral, exactly if no せん in it is followed by
ちょう.** -/
theorem containsWhole_iff {n : Nat} (positive : 0 < n) {words : List Word} (reads : Reads n words) :
    ContainsWhole (kana words) (numeral n) ↔ NoSenChou words := by
  have all := mem_of_readsFrom reads
  have initial : ∀ key, InGroup { key } [] (-1) 0 4 :=
    fun key => ⟨rfl, rfl, fun wrong => absurd rfl wrong, rfl, .inl rfl⟩
  have run := fun key => applyWords_readsFrom (fun _ mem => mem) (by decide) reads (initial key)
    (.inl rfl)
  constructor
  · intro contains
    by_contra inside
    obtain ⟨before, behind, rfl, free⟩ := exists_first_senChou (not_not.mp inside)
    obtain ⟨handled, _, _, _, applied, _⟩ := run (kana (before ++ sen :: chou :: behind))
    rw [applyWords_append, Option.bind_eq_some_iff] at applied
    obtain ⟨between, applied, -⟩ := applied
    exact not_containsWhole_of_senChou before behind all free applied _ contains
  · intro free
    obtain ⟨handled, written, big, g, applied, counted, same⟩ := run (kana words)
    rw [List.nil_append] at same
    obtain ⟨result, isResult, candidate⟩ := result_of_inGroup counted
      (same ▸ numeralFrom_ne_nil positive)
    have contains := containsWhole_of_applyWords all free applied isResult
    rwa [candidate, same] at contains

/-! ## The plain reading -/

/-- The first word of its kind in the list of entries. -/
def firstWord (type : EntryType) (isWord : Entry → Bool) : List Word :=
  (numberWords.find? fun w => w.2.type = type ∧ isWord w.2).toList

def plainUnit (d : Nat) : List Word :=
  if d = 0 then [] else firstWord .unit fun entry => entry.number = d

def plainDigit (digit d : Nat) : List Word :=
  if d = 0 then []
  else if d = 1 then firstWord .smallDigit fun entry => entry.digit = digit
  else plainUnit d ++ firstWord .smallDigit fun entry => entry.digit = digit

def plainGroup (g : Nat) : List Word :=
  plainDigit 4 (g / 1000) ++
    (plainDigit 3 (g / 100 % 10) ++ (plainDigit 2 (g / 10 % 10) ++ plainUnit (g % 10)))

def plainBig (kanji : Char) (g : Nat) : List Word :=
  if g = 0 then [] else plainGroup g ++ firstWord .bigDigit fun entry => entry.digitStr = [kanji]

def plainFrom : List (Nat × Char) → Nat → List Word
  | [], n => plainGroup n
  | (power, kanji) :: units, n => plainBig kanji (n / 10 ^ power) ++ plainFrom units (n % 10 ^ power)

/-- The reading of a number without any change of sounds: いち, に, さん, よん, ご, ろく, なな, はち,
きゅう; じゅう, ひゃく, せん; まん, おく, ちょう, けい, がい. -/
def plainReading (n : Nat) : List Word := plainFrom bigUnits n

theorem readsUnit_plainUnit {d : Nat} (less : d < 10) : ReadsUnit d (plainUnit d) := by
  have words : ∀ d : Nat, d < 10 → d = 0 ∨ ∃ u ∈ numberWords, u.2.type = .unit ∧
      u.2.number = d ∧ plainUnit d = [u] := by decide
  rcases words d less with rfl | ⟨u, mem, type, number, isWord⟩
  · exact .zero
  · rw [isWord]
    exact .unit mem type number

theorem readsDigit_plainDigit {digit d : Nat} (isPlace : digit ∈ [2, 3, 4]) (less : d < 10) :
    ReadsDigit digit d (plainDigit digit d) := by
  have words : ∀ digit ∈ [2, 3, 4], ∃ p ∈ numberWords, p.2.type = .smallDigit ∧
      p.2.digit = (digit : Nat) ∧
      (firstWord .smallDigit fun entry => entry.digit = (digit : Nat)) = [p] := by decide
  obtain ⟨p, mem, type, place, isWord⟩ := words digit isPlace
  unfold plainDigit
  rw [isWord]
  split
  · rename_i zero
    exact zero ▸ .zero
  · split
    · rename_i one
      exact one ▸ .one mem type place
    · have unit := readsUnit_plainUnit less
      generalize plainUnit d = words at unit
      cases unit with
      | zero => contradiction
      | unit unitMem unitType number =>
          exact .more (by omega) (.unit unitMem unitType number) mem type place

theorem readsGroup_plainGroup {g : Nat} (less : g < 10 ^ 4) : ReadsGroup g (plainGroup g) :=
  ⟨_, _, _, _, rfl, readsDigit_plainDigit (by decide) (by omega),
    readsDigit_plainDigit (by decide) (by omega), readsDigit_plainDigit (by decide) (by omega),
    readsUnit_plainUnit (by omega)⟩

theorem readsBig_plainBig (unit : Nat × Char) (isUnit : unit ∈ bigUnits) {g : Nat}
    (less : g < 10 ^ 4) : ReadsBig unit.2 g (plainBig unit.2 g) := by
  have words : ∀ unit ∈ bigUnits, ∃ b ∈ numberWords, b.2.type = .bigDigit ∧
      b.2.digitStr = [unit.2] ∧
      (firstWord .bigDigit fun entry => entry.digitStr = [unit.2]) = [b] := by decide
  obtain ⟨b, mem, type, digitStr, isWord⟩ := words unit isUnit
  unfold plainBig
  rw [isWord]
  split
  · rename_i zero
    exact zero ▸ .zero
  · exact .group (by omega) (readsGroup_plainGroup less) mem type digitStr

/-- Every number up to 10^24 - 1 has a reading. -/
theorem reads_plainReading {n : Nat} (less : n < 10 ^ 24) : Reads n (plainReading n) := by
  have group : ∀ {power m : Nat}, m < 10 ^ (power + 4) → m / 10 ^ power < 10 ^ 4 := by
    intro power m small
    rw [Nat.div_lt_iff_lt_mul (Nat.pow_pos (by omega)), ← Nat.pow_add, Nat.add_comm]
    exact small
  have rest : ∀ {power m : Nat}, m % 10 ^ power < 10 ^ power :=
    Nat.mod_lt _ (Nat.pow_pos (by omega))
  exact ⟨_, _, rfl, readsBig_plainBig (20, '垓') (by decide) (group less),
    _, _, rfl, readsBig_plainBig (16, '京') (by decide) (group rest),
    _, _, rfl, readsBig_plainBig (12, '兆') (by decide) (group rest),
    _, _, rfl, readsBig_plainBig (8, '億') (by decide) (group rest),
    _, _, rfl, readsBig_plainBig (4, '万') (by decide) (group rest),
    readsGroup_plainGroup rest⟩

/-- 1200億3400万5600. -/
theorem containsWhole_grouped :
    ContainsWhole (kana (plainReading 120034005600)) (numeral 120034005600) :=
  (containsWhole_iff (by decide) (reads_plainReading (by decide))).mpr (by
    unfold NoSenChou
    decide)

/-- せんちょう is the reading of 1000兆, and is not decoded. -/
theorem not_containsWhole_senChou : Reads (10 ^ 15) [sen, chou] ∧
    numeral (10 ^ 15) = ['1', '0', '0', '0', '兆'] ∧
    ¬ ContainsWhole (kana [sen, chou]) (numeral (10 ^ 15)) := by
  have plain : plainReading (10 ^ 15) = [sen, chou] := by decide
  have reads := reads_plainReading (show 10 ^ 15 < 10 ^ 24 by decide)
  rw [plain] at reads
  refine ⟨reads, by decide, ?_⟩
  exact not_containsWhole_of_senChou [] [] (mem_of_readsFrom reads) (by simp [NoSenChou]) rfl _

end Mozkey.Prediction.NumberDecoder
