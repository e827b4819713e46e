import Mozkey.Converter.KeyCorrectorRules

/-!
# The alignment of a key and its correction

`Init` of the key corrector goes through a key in units.  The two tables that it fills are those of
the alignment of these units, so they are inverse to each other and monotone, and an offset that
`GetOriginalOffset` reports leads to a position of the key that is aligned with the position that
was asked for.
-/

namespace Mozkey.Converter

open Mozkey.Lib

namespace KeyCorrector

/-- The lengths of the units that `Init` goes through, and of what takes their place. -/
def unitsWithin (key : ByteString) (historySize : Nat) : Nat → Nat → ByteString → List (Nat × Nat)
  | _, _, [] => []
  | 0, _, _ :: _ => []
  | fuel + 1, keyPos, c :: rest =>
      let front := c :: rest
      let (mblen, output) :=
        correctOnce keyPos (decide (key.length - front.length < min key.length historySize)) front
      (mblen, output.length) ::
        unitsWithin key historySize fuel (keyPos + 1) (front.drop mblen)

def units (key : ByteString) (historySize : Nat) : List (Nat × Nat) :=
  unitsWithin key historySize key.length 0 key

/-- The tables have the sizes of the keys, and are inverse to each other and monotone. -/
structure TablesAlign (corrector : KeyCorrector) : Prop where
  alignmentSize : corrector.alignment.length = corrector.originalKey.length
  revAlignmentSize : corrector.revAlignment.length = corrector.correctedKey.length
  inverse : ∀ i j, i ≠ kInvalidPos → j ≠ kInvalidPos →
    (corrector.getCorrectedPosition i = j ↔ corrector.getOriginalPosition j = i)
  monotone : ∀ i i', i < i' → corrector.getCorrectedPosition i ≠ kInvalidPos →
    corrector.getCorrectedPosition i' ≠ kInvalidPos →
      corrector.getCorrectedPosition i < corrector.getCorrectedPosition i'
  revMonotone : ∀ j j', j < j' → corrector.getOriginalPosition j ≠ kInvalidPos →
    corrector.getOriginalPosition j' ≠ kInvalidPos →
      corrector.getOriginalPosition j < corrector.getOriginalPosition j'

def OnBoundary (units : List (Nat × Nat)) (n : Nat) : Prop :=
  ∃ k ≤ units.length, n = unitStart units k

/-- A position inside a unit whose length stays the same, and the position that stands there in its
place. -/
def InsideUnit (units : List (Nat × Nat)) (n other : Nat) : Prop :=
  ∃ (k : Nat) (inside : k < units.length) (d : Nat), units[k].1 = units[k].2 ∧ d < units[k].1 ∧
    n = unitStart units k + d ∧ other = unitStart (units.map Prod.swap) k + d

/-- The text of the key that an offset cuts out ends at the end of a unit, or inside a unit whose
length stays the same, and behind a character where the text of the corrected key does. -/
structure CutsOut (key : ByteString) (historySize : Nat) (corrector : KeyCorrector)
    (pos len : Nat) : Prop where
  inside : pos + corrector.getOriginalOffset pos len ≤ key.length
  place : OnBoundary (units key historySize) (pos + corrector.getOriginalOffset pos len) ∨
    InsideUnit (units key historySize) (pos + corrector.getOriginalOffset pos len)
      ((corrector.getCorrectedPosition pos + len) % 2 ^ 64)
  character :
    isValidUtf8 (corrector.correctedKey.take
      ((corrector.getCorrectedPosition pos + len) % 2 ^ 64)) = true →
      isValidUtf8 (key.take (pos + corrector.getOriginalOffset pos len)) = true

/-! ## Once through a key -/

/-- A place of a key is passed, or there is no character. -/
theorem correctOnce_pos {keyPos : Nat} {isHistory : Bool} {front : ByteString}
    (goesOn : ¬ ((correctOnce keyPos isHistory front).2.length ≤ 0 ∧
      (correctOnce keyPos isHistory front).1 ≤ 0)) :
    0 < (correctOnce keyPos isHistory front).1 := by
  have unchanged : ¬ ((codepointToUtf8 (utf8ToCodepoint front).1).length ≤ 0 ∧
      (utf8ToCodepoint front).2 ≤ 0) → 0 < (utf8ToCodepoint front).2 := by
    intro goesOn
    by_contra none_
    have zero : (utf8ToCodepoint front).1 = 0 := by
      by_contra some_
      exact none_ (utf8ToCodepoint_pos some_)
    rw [zero] at goesOn
    exact goesOn ⟨le_rfl, Nat.le_of_not_lt none_⟩
  unfold correctOnce at goesOn ⊢
  dsimp only at goesOn ⊢
  split
  · next is =>
    rw [if_pos is] at goesOn
    exact unchanged goesOn
  · next isNot =>
    rw [if_neg isNot] at goesOn
    cases rewrites : rewrite keyPos front with
    | none =>
        rw [rewrites] at goesOn
        exact unchanged goesOn
    | some pair => exact (rewrite_cases rewrites).pos

/-- **`Init` comes to an end** for every key: the rest of a key that a place is passed in is
shorter. -/
theorem initLoop_terminates (key : ByteString) (historySize : Nat) {n keyPos : Nat}
    {front : ByteString} (shorter : front.length ≤ n) (corrector : KeyCorrector) :
    ∃ result, ∀ fuel, front.length ≤ fuel →
      initLoop key historySize fuel keyPos front corrector = some result := by
  induction n generalizing keyPos front corrector with
  | zero =>
      obtain rfl := List.length_eq_zero_iff.1 (Nat.le_zero.1 shorter)
      refine ⟨(true, { corrector with available := true }), fun fuel _ => ?_⟩
      cases fuel <;> rfl
  | succ n ih =>
      cases front with
      | nil =>
          refine ⟨(true, { corrector with available := true }), fun fuel _ => ?_⟩
          cases fuel <;> rfl
      | cons c rest =>
          let isHistory := decide (key.length - (c :: rest).length < min key.length historySize)
          by_cases stops : (correctOnce keyPos isHistory (c :: rest)).2.length ≤ 0 ∧
              (correctOnce keyPos isHistory (c :: rest)).1 ≤ 0
          · refine ⟨(false, corrector), fun fuel enough => ?_⟩
            obtain ⟨fuel, rfl⟩ : ∃ fuel', fuel = fuel' + 1 := ⟨fuel - 1, by
              rw [List.length_cons] at enough
              omega⟩
            rw [initLoop]
            exact if_pos stops
          · have passed := correctOnce_pos stops
            have less : ((c :: rest).drop (correctOnce keyPos isHistory (c :: rest)).1).length ≤
                n := by
              rw [List.length_drop]
              omega
            obtain ⟨result, ends⟩ := ih less _
            refine ⟨result, fun fuel enough => ?_⟩
            obtain ⟨fuel, rfl⟩ : ∃ fuel', fuel = fuel' + 1 := ⟨fuel - 1, by
              rw [List.length_cons] at enough
              omega⟩
            rw [initLoop]
            refine (if_neg stops).trans (ends fuel ?_)
            rw [List.length_drop]
            omega

/-- At a place of a text `Init` takes some characters. -/
theorem correctOnce_utf8 {text : List Char} (some_ : text ≠ []) (nonzero : ∀ c ∈ text, c.toNat ≠ 0)
    (keyPos : Nat) (isHistory : Bool) :
    ∃ front behind others, text = front ++ behind ∧
      correctOnce keyPos isHistory (utf8 text) = ((utf8 front).length, utf8 others) ∧
        Exchange front others := by
  have unchanged : ∃ front behind others, text = front ++ behind ∧
      ((utf8ToCodepoint (utf8 text)).2, codepointToUtf8 (utf8ToCodepoint (utf8 text)).1) =
        ((utf8 front).length, utf8 others) ∧ Exchange front others := by
    cases text with
    | nil => exact absurd rfl some_
    | cons c text =>
        rw [List.forall_mem_cons] at nonzero
        refine ⟨[c], text, [c], rfl, ?_, ⟨List.cons_ne_nil _ _, List.cons_ne_nil _ _, fun _ => rfl⟩⟩
        rw [utf8ToCodepoint_utf8, codepointToUtf8_toNat nonzero.1, length_utf8, utf8_cons]
        show (charSize c, _) = (charSize c + 0, String.utf8EncodeChar c ++ [])
        rw [Nat.add_zero, List.append_nil]
  unfold correctOnce
  dsimp only
  split
  · exact unchanged
  · cases rewrites : rewrite keyPos (utf8 text) with
    | none => exact unchanged
    | some pair =>
        obtain ⟨mblen, output⟩ := pair
        obtain ⟨front, behind, others, is, rfl, rfl, exchange⟩ := (rewrite_cases rewrites).exchange
        exact ⟨front, behind, others, is, rfl, exchange⟩

/-! ## A run -/

/-- Units of a text and what takes their place. -/
abbrev Exchanges := List (List Char × List Char)

def lengthsOf (exchanges : Exchanges) : List (Nat × Nat) :=
  exchanges.map fun exchange => ((utf8 exchange.1).length, (utf8 exchange.2).length)

/-- A table, with the marker where nothing is aligned. -/
def marked (table : List (Option Nat)) : List Nat := table.map fun entry => entry.getD kInvalidPos

theorem marked_unitTable (start length other : Nat) :
    marked (unitTable start length other) = alignUnit start length other := by
  unfold marked unitTable alignUnit
  split
  · rw [List.map_map]
    rfl
  · rw [List.map_cons, List.map_replicate]
    rfl

theorem utf8_pos {text : List Char} (some_ : text ≠ []) : 0 < (utf8 text).length := by
  obtain ⟨c, rest, rfl⟩ := List.exists_cons_of_ne_nil some_
  rw [utf8_cons, List.length_append]
  exact Nat.add_pos_left (List.length_pos_iff.2 String.utf8EncodeChar_ne_nil) _

/-- The corrector behind some units. -/
def behindUnits (corrector : KeyCorrector) (position : Nat) (exchanges : Exchanges) :
    KeyCorrector :=
  { corrector with
    correctedKey := corrector.correctedKey ++ utf8 (exchanges.flatMap Prod.snd)
    alignment := corrector.alignment ++
      marked (alignmentTable corrector.correctedKey.length (lengthsOf exchanges))
    revAlignment := corrector.revAlignment ++
      marked (alignmentTable position ((lengthsOf exchanges).map Prod.swap)) }

theorem behindUnits_nil (corrector : KeyCorrector) (position : Nat) :
    corrector.behindUnits position [] = corrector := by
  simp [behindUnits, lengthsOf, alignmentTable, marked, utf8]

theorem behindUnits_cons (corrector : KeyCorrector) (position : Nat) (front others : List Char)
    (exchanges : Exchanges) :
    corrector.behindUnits position ((front, others) :: exchanges) =
      { corrector with
        correctedKey := corrector.correctedKey ++ utf8 others
        alignment := corrector.alignment ++
          alignUnit corrector.correctedKey.length (utf8 front).length (utf8 others).length
        revAlignment := corrector.revAlignment ++
          alignUnit position (utf8 others).length (utf8 front).length : KeyCorrector }.behindUnits
            (position + (utf8 front).length) exchanges := by
  simp only [behindUnits, lengthsOf, List.flatMap_cons, utf8_append, List.map_cons, alignmentTable,
    Prod.swap_prod_mk, List.append_assoc, List.length_append, marked, List.map_append,
    ← marked_unitTable]

/-- **What `Init` makes of a text.** -/
theorem initLoop_utf8 (key : ByteString) (historySize : Nat) {fuel keyPos : Nat} {text : List Char}
    (enough : (utf8 text).length ≤ fuel) (inside : (utf8 text).length ≤ key.length)
    (nonzero : ∀ c ∈ text, c.toNat ≠ 0) (corrector : KeyCorrector) :
    ∃ exchanges : Exchanges, text = exchanges.flatMap Prod.fst ∧
      (∀ exchange ∈ exchanges, Exchange exchange.1 exchange.2) ∧
      unitsWithin key historySize fuel keyPos (utf8 text) = lengthsOf exchanges ∧
      initLoop key historySize fuel keyPos (utf8 text) corrector = some (true,
        { corrector.behindUnits (key.length - (utf8 text).length) exchanges with
          available := true }) := by
  induction fuel generalizing keyPos text corrector with
  | zero =>
      have none_ : text = [] := by
        by_contra some_
        have positive := utf8_pos some_
        omega
      subst none_
      refine ⟨[], rfl, fun exchange member => absurd member List.not_mem_nil, rfl, ?_⟩
      rw [behindUnits_nil]
      rfl
  | succ fuel ih =>
      by_cases some_ : text = []
      · subst some_
        refine ⟨[], rfl, fun exchange member => absurd member List.not_mem_nil, rfl, ?_⟩
        rw [behindUnits_nil]
        rfl
      obtain ⟨b, rest, is⟩ := List.exists_cons_of_ne_nil (List.length_pos_iff.1 (utf8_pos some_))
      obtain ⟨front, behind, others, split, once, exchange⟩ := correctOnce_utf8 some_ nonzero keyPos
        (decide (key.length - (utf8 text).length < min key.length historySize))
      subst split
      have passed : (utf8 (front ++ behind)).drop (utf8 front).length = utf8 behind := by
        rw [utf8_append, List.drop_left]
      have positive := utf8_pos exchange.charsSome
      have sum : (utf8 (front ++ behind)).length = (utf8 front).length + (utf8 behind).length := by
        rw [utf8_append, List.length_append]
      rw [List.forall_mem_append] at nonzero
      obtain ⟨exchanges, isBehind, all, isUnits, isLoop⟩ :=
        @ih (keyPos + 1) behind (by omega) (by omega) nonzero.2 { corrector with
          correctedKey := corrector.correctedKey ++ utf8 others
          alignment := corrector.alignment ++
            alignUnit corrector.correctedKey.length (utf8 front).length (utf8 others).length
          revAlignment := corrector.revAlignment ++
            alignUnit (key.length - (utf8 (front ++ behind)).length) (utf8 others).length
              (utf8 front).length }
      refine ⟨(front, others) :: exchanges, ?_, List.forall_mem_cons.2 ⟨exchange, all⟩, ?_, ?_⟩
      · rw [List.flatMap_cons, isBehind]
      · rw [is, unitsWithin, ← is]
        dsimp only
        rw [once]
        dsimp only
        rw [passed, isUnits]
        rfl
      · rw [behindUnits_cons, is, initLoop, ← is]
        dsimp only
        rw [once]
        dsimp only
        rw [if_neg (by omega), passed, isLoop]
        have place : key.length - (utf8 (front ++ behind)).length + (utf8 front).length =
            key.length - (utf8 behind).length := by omega
        rw [place]

/-! ## The tables -/

/-- A corrector whose tables are those of the alignment of units. -/
structure AlignedBy (corrector : KeyCorrector) (exchanges : Exchanges) : Prop where
  originalKey : corrector.originalKey = utf8 (exchanges.flatMap Prod.fst)
  correctedKey : corrector.correctedKey = utf8 (exchanges.flatMap Prod.snd)
  alignment : corrector.alignment = marked (alignmentTable 0 (lengthsOf exchanges))
  revAlignment : corrector.revAlignment =
    marked (alignmentTable 0 ((lengthsOf exchanges).map Prod.swap))
  all : ∀ exchange ∈ exchanges, Exchange exchange.1 exchange.2

theorem lengthsOf_pos {exchanges : Exchanges}
    (all : ∀ exchange ∈ exchanges, Exchange exchange.1 exchange.2) :
    ∀ unit ∈ lengthsOf exchanges, 0 < unit.1 ∧ 0 < unit.2 := by
  intro unit member
  obtain ⟨exchange, inside, rfl⟩ := List.mem_map.1 member
  exact ⟨utf8_pos (all exchange inside).charsSome, utf8_pos (all exchange inside).othersSome⟩

theorem swap_pos {units : List (Nat × Nat)} (positive : ∀ unit ∈ units, 0 < unit.1 ∧ 0 < unit.2) :
    ∀ unit ∈ units.map Prod.swap, 0 < unit.1 := by
  intro unit member
  obtain ⟨other, inside, rfl⟩ := List.mem_map.1 member
  exact (positive other inside).2

theorem getD_marked (table : List (Option Nat)) (n : Nat) :
    (marked table).getD n kInvalidPos = (table[n]?).join.getD kInvalidPos := by
  rw [marked, List.getD_eq_getElem?_getD, List.getElem?_map]
  cases table[n]? with
  | none => rfl
  | some entry => rfl

theorem getD_eq_iff {entry : Option Nat} {j : Nat} (valid : j ≠ kInvalidPos) :
    entry.getD kInvalidPos = j ↔ entry = some j := by
  cases entry with
  | none => simpa using valid.symm
  | some i => simp

section Tables

variable {corrector : KeyCorrector} {exchanges : Exchanges}

theorem AlignedBy.corrected_iff (by_ : AlignedBy corrector exchanges) {i j : Nat}
    (valid : j ≠ kInvalidPos) :
    corrector.getCorrectedPosition i = j ↔ Aligned 0 0 (lengthsOf exchanges) i j := by
  have table : ((alignmentTable 0 (lengthsOf exchanges))[i]?).join = some j ↔
      Aligned 0 0 (lengthsOf exchanges) (0 + i) j :=
    join_getElem?_alignmentTable (fun unit member => (lengthsOf_pos by_.all unit member).1) i
  rw [Nat.zero_add] at table
  rw [getCorrectedPosition, by_.alignment, getD_marked, getD_eq_iff valid, table]

theorem AlignedBy.original_iff (by_ : AlignedBy corrector exchanges) {i j : Nat}
    (valid : i ≠ kInvalidPos) :
    corrector.getOriginalPosition j = i ↔ Aligned 0 0 (lengthsOf exchanges) i j := by
  have table : ((alignmentTable 0 ((lengthsOf exchanges).map Prod.swap))[j]?).join = some i ↔
      Aligned 0 0 ((lengthsOf exchanges).map Prod.swap) (0 + j) i :=
    join_getElem?_alignmentTable (swap_pos (lengthsOf_pos by_.all)) j
  rw [Nat.zero_add, aligned_swap] at table
  rw [getOriginalPosition, by_.revAlignment, getD_marked, getD_eq_iff valid, table]

theorem length_utf8_flatMap (exchanges : Exchanges) :
    (utf8 (exchanges.flatMap Prod.fst)).length = ((lengthsOf exchanges).map Prod.fst).sum ∧
      (utf8 (exchanges.flatMap Prod.snd)).length =
        (((lengthsOf exchanges).map Prod.swap).map Prod.fst).sum := by
  induction exchanges with
  | nil => exact ⟨rfl, rfl⟩
  | cons exchange exchanges ih =>
      refine ⟨?_, ?_⟩
      · rw [List.flatMap_cons, utf8_append, List.length_append, ih.1]
        rfl
      · rw [List.flatMap_cons, utf8_append, List.length_append, ih.2]
        rfl

/-- **The tables align the keys.** -/
theorem AlignedBy.tablesAlign (by_ : AlignedBy corrector exchanges) : TablesAlign corrector where
  alignmentSize := by
    rw [by_.alignment, marked, List.length_map, by_.originalKey, (length_utf8_flatMap _).1,
      length_alignmentTable fun unit member => (lengthsOf_pos by_.all unit member).1]
  revAlignmentSize := by
    rw [by_.revAlignment, marked, List.length_map, by_.correctedKey, (length_utf8_flatMap _).2,
      length_alignmentTable (swap_pos (lengthsOf_pos by_.all))]
  inverse i j valid valid' := by rw [by_.corrected_iff valid', by_.original_iff valid]
  monotone i i' less valid valid' :=
    Aligned.lt (lengthsOf_pos by_.all) ((by_.corrected_iff valid).1 rfl)
      ((by_.corrected_iff valid').1 rfl) less
  revMonotone j j' less valid valid' := by
    have first := aligned_swap.2 ((by_.original_iff valid).1 rfl)
    have second := aligned_swap.2 ((by_.original_iff valid').1 rfl)
    refine Aligned.lt (fun unit member => ?_) first second less
    obtain ⟨other, inside, rfl⟩ := List.mem_map.1 member
    exact (lengthsOf_pos by_.all other inside).symm

/-- A reported offset leads to the end of both keys, or to an aligned position. -/
theorem AlignedBy.offset (by_ : AlignedBy corrector exchanges)
    (small : corrector.originalKey.length < kMaxKeySize) {pos len : Nat}
    (reported : corrector.getOriginalOffset pos len ≠ kInvalidPos) :
    (pos + corrector.getOriginalOffset pos len = corrector.originalKey.length ∧
        (corrector.getCorrectedPosition pos + len) % 2 ^ 64 = corrector.correctedKey.length) ∨
      Aligned 0 0 (lengthsOf exchanges) (pos + corrector.getOriginalOffset pos len)
        ((corrector.getCorrectedPosition pos + len) % 2 ^ 64) := by
  have sizes := by_.tablesAlign
  unfold getOriginalOffset at reported ⊢
  dsimp only at reported ⊢
  split_ifs at reported ⊢ with off kana invalid ends invalidEnd inside
  any_goals exact absurd rfl reported
  · have within : pos < corrector.alignment.length := by
      by_contra outside
      exact invalid (List.getD_eq_default _ _ (Nat.le_of_not_lt outside))
    rw [sizes.alignmentSize] at within ⊢
    unfold kMaxKeySize at small
    have back : corrector.getOriginalPosition (corrector.getCorrectedPosition pos) = pos :=
      (sizes.inverse pos _ (by unfold kInvalidPos; omega) invalid).1 rfl
    rw [back]
    refine .inl ⟨by omega, ?_⟩
    rw [← ends, sizes.revAlignmentSize]
  · rw [Nat.add_sub_cancel' inside]
    exact .inr ((by_.original_iff invalidEnd).1 rfl)

end Tables

/-! ## Characters -/

theorem decodes_utf8_append {text : List Char} {rest : ByteString} {codes : List Nat}
    (decodes : Decodes rest codes) :
    Decodes (utf8 text ++ rest) (text.map Char.toNat ++ codes) := by
  induction text with
  | nil => exact decodes
  | cons c text ih =>
      rw [utf8_cons, List.append_assoc]
      exact .cons (splitFirstChar32_utf8EncodeChar c _) ih

theorem isValidUtf8_append (text : List Char) (rest : ByteString) :
    isValidUtf8 (utf8 text ++ rest) = isValidUtf8 rest := by
  have cut : ∀ {codes}, Decodes (utf8 text ++ rest) codes → ∃ codes, Decodes rest codes := by
    induction text with
    | nil => exact fun decodes => ⟨_, decodes⟩
    | cons c text ih =>
        intro codes decodes
        rw [utf8_cons, List.append_assoc] at decodes
        generalize together : String.utf8EncodeChar c ++ (utf8 text ++ rest) = str at decodes
        cases decodes with
        | nil => exact absurd (List.append_eq_nil_iff.1 together).1 String.utf8EncodeChar_ne_nil
        | cons first others =>
            rw [← together, splitFirstChar32_utf8EncodeChar] at first
            obtain ⟨rfl, rfl⟩ := Prod.mk.inj (Option.some.inj first)
            exact ih others
  rw [Bool.eq_iff_iff]
  constructor
  · intro valid
    obtain ⟨codes, decodes⟩ := cut (decodes_of_isValidUtf8 valid)
    exact decodes.valid.1
  · intro valid
    exact (decodes_utf8_append (decodes_of_isValidUtf8 valid)).valid.1

theorem isValidUtf8_utf8 (text : List Char) : isValidUtf8 (utf8 text) = true := by
  rw [← List.append_nil (utf8 text), isValidUtf8_append]
  rfl

/-- Valid front parts of a text end behind a character. -/
theorem exists_take_of_valid {text : List Char} {n : Nat} (inside : n ≤ (utf8 text).length)
    (valid : isValidUtf8 ((utf8 text).take n) = true) :
    ∃ k, n = (utf8 (text.take k)).length := by
  induction text generalizing n with
  | nil => exact ⟨0, Nat.le_zero.1 inside⟩
  | cons c text ih =>
      have decodes := decodes_of_isValidUtf8 valid
      generalize front : (utf8 (c :: text)).take n = str at decodes
      generalize utf8ToUtf32 _ = codes at decodes
      cases decodes with
      | nil =>
          have none_ := congrArg List.length front
          rw [List.length_take_of_le inside] at none_
          exact ⟨0, none_⟩
      | @cons str rest code codes first others =>
          have whole := splitFirstChar32_append first ((utf8 (c :: text)).drop n)
          rw [← front, List.take_append_drop, utf8_cons, splitFirstChar32_utf8EncodeChar] at whole
          obtain ⟨-, isText⟩ := Prod.mk.inj (Option.some.inj whole)
          have total := congrArg List.length isText
          have taken := congrArg List.length front
          have size := length_of_split first
          rw [utf8_cons, List.length_append] at inside
          rw [List.length_append, List.length_drop, List.length_append] at total
          rw [List.length_take, utf8_cons, List.length_append] at taken
          have restInside : rest.length ≤ (utf8 text).length := by omega
          have isRest : (utf8 text).take rest.length = rest := by rw [isText, List.take_left]
          obtain ⟨k, is⟩ := ih restInside (by rw [isRest]; exact others.valid.1)
          refine ⟨k + 1, ?_⟩
          rw [List.take_succ_cons, utf8_cons, List.length_append, ← is]
          omega

/-- **Behind a character of the corrected key** an aligned position of the key is behind a
character. -/
theorem valid_take_of_aligned {exchanges : Exchanges}
    (all : ∀ exchange ∈ exchanges, Exchange exchange.1 exchange.2) {start otherStart n e : Nat}
    (aligned : Aligned start otherStart (lengthsOf exchanges) (start + n) (otherStart + e))
    (valid : isValidUtf8 ((utf8 (exchanges.flatMap Prod.snd)).take e) = true) :
    isValidUtf8 ((utf8 (exchanges.flatMap Prod.fst)).take n) = true := by
  induction exchanges generalizing start otherStart n e with
  | nil => exact aligned.elim
  | cons exchange exchanges ih =>
      obtain ⟨front, others⟩ := exchange
      rw [List.forall_mem_cons] at all
      rw [List.flatMap_cons, utf8_append] at valid ⊢
      rcases aligned with ⟨d, isN, isE, first | ⟨same, inside⟩⟩ | behind
      · obtain rfl : n = 0 := by omega
        rfl
      · obtain rfl : n = d := by omega
        obtain rfl : e = n := by omega
        dsimp only at same inside valid ⊢
        rw [List.take_append_of_le_length (same ▸ inside.le)] at valid
        obtain ⟨k, is⟩ := exists_take_of_valid (same ▸ inside.le) valid
        have alike : e = (utf8 (front.take k)).length := by
          rw [is, length_utf8, length_utf8, List.map_take, List.map_take, all.1.aligned same]
        have split : utf8 front = utf8 (front.take k) ++ utf8 (front.drop k) := by
          rw [← utf8_append, List.take_append_drop]
        rw [split, List.append_assoc, alike, List.take_left]
        exact isValidUtf8_utf8 _
      · have later := behind.le
        dsimp only at later behind valid ⊢
        obtain ⟨n', rfl⟩ := Nat.exists_eq_add_of_le (show (utf8 front).length ≤ n by omega)
        obtain ⟨e', rfl⟩ := Nat.exists_eq_add_of_le (show (utf8 others).length ≤ e by omega)
        rw [List.take_length_add_append, isValidUtf8_append] at valid ⊢
        rw [← Nat.add_assoc, ← Nat.add_assoc] at behind
        exact ih all.2 behind valid

/-! ## Keys -/

/-- What a successful `Init` leaves behind. -/
theorem init_utf8 {text : List Char} {mode : InputMode} {historySize : Nat}
    {corrector : KeyCorrector} (nonzero : ∀ c ∈ text, c.toNat ≠ 0)
    (done : init (utf8 text).length (utf8 text) mode historySize = some (true, corrector)) :
    ∃ exchanges, AlignedBy corrector exchanges ∧ text = exchanges.flatMap Prod.fst ∧
      units (utf8 text) historySize = lengthsOf exchanges ∧
        corrector.originalKey.length < kMaxKeySize := by
  unfold init at done
  split at done
  · cases Option.some.inj done
  split at done
  · cases Option.some.inj done
  next long =>
  obtain ⟨exchanges, isText, all, isUnits, isLoop⟩ :=
    @initLoop_utf8 (utf8 text) historySize (utf8 text).length 0 text le_rfl le_rfl nonzero
      { mode := mode, originalKey := utf8 text }
  rw [isLoop] at done
  obtain ⟨-, rfl⟩ := Prod.mk.inj (Option.some.inj done)
  refine ⟨exchanges, ⟨congrArg utf8 isText, rfl, rfl, ?_, all⟩, isText, isUnits, ?_⟩
  · show _ ++ marked (alignmentTable (_ - _) _) = _
    rw [Nat.sub_self]
    rfl
  · exact Nat.lt_of_not_le fun large => long (.inr large)

/-- **The key corrector aligns** every key that is a text without the null character with its
correction, and `Init` comes to an end for every key. -/
theorem init_aligns (key : ByteString) (mode : InputMode) (historySize : Nat) :
    (∃ result, ∀ fuel, key.length ≤ fuel → init fuel key mode historySize = some result) ∧
      ∀ (text : List Char) (corrector : KeyCorrector), key = utf8 text →
        (∀ c ∈ text, c.toNat ≠ 0) →
          init key.length key mode historySize = some (true, corrector) →
            TablesAlign corrector ∧
              ∀ pos len, corrector.getOriginalOffset pos len ≠ kInvalidPos →
                CutsOut key historySize corrector pos len := by
  constructor
  · unfold init
    split_ifs with kana long
    · exact ⟨_, fun _ _ => rfl⟩
    · exact ⟨_, fun _ _ => rfl⟩
    · exact initLoop_terminates key historySize le_rfl _
  · rintro text corrector rfl nonzero done
    obtain ⟨exchanges, by_, isText, isUnits, small⟩ := init_utf8 nonzero done
    refine ⟨by_.tablesAlign, fun pos len reported => ?_⟩
    have positive := lengthsOf_pos by_.all
    have size : (utf8 text).length = ((lengthsOf exchanges).map Prod.fst).sum := by
      rw [isText, (length_utf8_flatMap exchanges).1]
    rcases by_.offset small reported with ⟨ends, -⟩ | aligned
    · rw [by_.originalKey, ← isText] at ends
      refine ⟨ends.le, .inl ⟨_, le_rfl, ?_⟩, fun _ => ?_⟩
      · rw [ends, isUnits, unitStart, List.take_length, size]
      · rw [ends, List.take_length]
        exact isValidUtf8_utf8 text
    · have within := aligned.lt_end fun unit member => (positive unit member).1
      obtain ⟨k, inside, d, isPos, isEnd, here⟩ := aligned.exists_unit
      rw [Nat.zero_add] at within isPos isEnd
      refine ⟨size ▸ within.le, ?_, fun valid => ?_⟩
      · rw [isUnits]
        rcases here with rfl | ⟨same, less⟩
        · exact .inl ⟨k, inside.le, isPos⟩
        · exact .inr ⟨k, inside, d, same, less, isPos, isEnd⟩
      · rw [by_.correctedKey] at valid
        rw [isText]
        have placed : Aligned 0 0 (lengthsOf exchanges)
            (0 + (pos + corrector.getOriginalOffset pos len))
              (0 + (corrector.getCorrectedPosition pos + len) % 2 ^ 64) := by
          rwa [Nat.zero_add, Nat.zero_add]
        exact valid_take_of_aligned by_.all placed valid

/-- The corrector of a key in which a long vowel was left out: the vowel is put in. -/
def longVowel : KeyCorrector where
  available := true
  mode := .roman
  correctedKey := utf8 ['し', 'ゅ', 'う', 'か']
  originalKey := utf8 ['し', 'ゅ', 'か']
  alignment := [0] ++ List.replicate 5 kInvalidPos ++ [9, 10, 11]
  revAlignment := [0] ++ List.replicate 8 kInvalidPos ++ [6, 7, 8]

/-- The tables of that corrector, and the two letters that the first three were made of. -/
theorem init_aligns_longVowel :
    init (utf8 ['し', 'ゅ', 'か']).length (utf8 ['し', 'ゅ', 'か']) .roman 0 = some (true, longVowel) ∧
      TablesAlign longVowel ∧ longVowel.getOriginalOffset 0 9 = 6 ∧
        CutsOut (utf8 ['し', 'ゅ', 'か']) 0 longVowel 0 9 := by
  have done : init (utf8 ['し', 'ゅ', 'か']).length (utf8 ['し', 'ゅ', 'か']) .roman 0 =
      some (true, longVowel) := by
    decide +kernel
  have offset : longVowel.getOriginalOffset 0 9 = 6 := by decide
  have nonzero : ∀ c ∈ ['し', 'ゅ', 'か'], c.toNat ≠ 0 := by simp
  obtain ⟨align, cuts⟩ := (init_aligns (utf8 ['し', 'ゅ', 'か']) .roman 0).2 _ _ rfl nonzero done
  exact ⟨done, align, offset, cuts 0 9 (by rw [offset]; decide)⟩

/-- The first byte of a letter is cut out although the letter is one unit. -/
theorem not_init_aligns : ¬ ∀ (text : List Char) (historySize : Nat) (corrector : KeyCorrector),
    init (utf8 text).length (utf8 text) .roman historySize = some (true, corrector) →
      TablesAlign corrector ∧ ∀ pos len, corrector.getOriginalOffset pos len ≠ kInvalidPos →
        pos + corrector.getOriginalOffset pos len ≤ (utf8 text).length ∧
          OnBoundary (units (utf8 text) historySize)
            (pos + corrector.getOriginalOffset pos len) := by
  intro claim
  let corrector : KeyCorrector :=
    { available := true
      correctedKey := utf8 ['あ']
      originalKey := utf8 ['あ']
      alignment := [0, 1, 2]
      revAlignment := [0, 1, 2] }
  have done : init (utf8 ['あ']).length (utf8 ['あ']) .roman 0 = some (true, corrector) := by
    decide
  have offset : corrector.getOriginalOffset 0 1 = 1 := by decide
  obtain ⟨k, most, is⟩ := ((claim ['あ'] 0 corrector done).2 0 1 (by rw [offset]; decide)).2
  have isUnits : units (utf8 ['あ']) 0 = [(3, 3)] := by decide
  rw [isUnits] at most is
  rw [offset] at is
  rcases Nat.le_one_iff_eq_zero_or_eq_one.1 most with rfl | rfl
  · cases is
  · cases is

end KeyCorrector

end Mozkey.Converter
