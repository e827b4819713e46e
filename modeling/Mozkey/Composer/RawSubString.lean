import Mozkey.Base.PiecePositions
import Mozkey.Composer.RawConservation

/-!
# Raw substrings

A part of a composition is given by positions in the text that is shown, and these are carried over
to positions in the text that was typed.  However a composition is cut, the pieces of the typed text
fit together.  They make up all that was typed exactly if nothing was typed for the chunks that
are behind the last one that shows something.
-/

namespace Mozkey.Composer

namespace Composition

/-- `Composition::ConvertPosition`. -/
def convertPosition (forms : CharacterForms) (chunks : List CharChunk) (positionFrom : Nat)
    (t12rFrom t12rTo : Transliterator) : Nat :=
  if t12rFrom = t12rTo then positionFrom
  else
    match getChunkAt forms t12rFrom chunks positionFrom with
    | (_, [], _) => 0
    | (front, c :: _, innerPositionFrom) =>
        let chunkLengthFrom := c.getLength forms t12rFrom
        let positionTo := getPosition forms t12rTo front
        if innerPositionFrom = 0 then positionTo
        else
          let chunkLengthTo := c.getLength forms t12rTo
          if innerPositionFrom = chunkLengthFrom then positionTo + chunkLengthTo
          else if chunkLengthTo < innerPositionFrom then positionTo + chunkLengthTo
          else positionTo + innerPositionFrom

/-- `Composition::GetStringWithTransliterator`. -/
def getStringWithTransliterator (forms : CharacterForms) (chunks : List CharChunk)
    (t12r : Transliterator) : Text :=
  getStringWithModes forms chunks t12r .fix

end Composition

open Mozkey.Composer.Composition

/-- `GetTransliteratedText`. -/
def getTransliteratedText (forms : CharacterForms) (chunks : List CharChunk) (t12r : Transliterator)
    (position size : Nat) : Text :=
  let fullBase := getStringWithTransliterator forms chunks t12r
  let t13nStart := convertPosition forms chunks position .localChoice t12r
  let t13nEnd := convertPosition forms chunks (position + size) .localChoice t12r
  -- a negative size wraps round, and everything from the start on is taken
  if t13nEnd < t13nStart then fullBase.drop t13nStart
  else (fullBase.drop t13nStart).take (t13nEnd - t13nStart)

/-- `GetRawSubString`. -/
def getRawSubString (forms : CharacterForms) (chunks : List CharChunk) (position size : Nat) : Text :=
  getTransliteratedText forms chunks .rawString position size

/-- `GetRawString`. -/
def getRawString (forms : CharacterForms) (chunks : List CharChunk) : Text :=
  getRawSubString forms chunks 0 (getLength forms chunks)

variable {forms : CharacterForms} {chunks : List CharChunk}

/-! ## Positions in the typed text -/

/-- The text that was typed, without special keys. -/
def visibleRaw (chunks : List CharChunk) : Text := chunks.flatMap fun c => deleteSpecialKeys c.raw

theorem transliterate_rawString (c : CharChunk) (forms : CharacterForms) (raw converted : Text) :
    c.transliterate forms .rawString raw converted = raw := by
  unfold CharChunk.transliterate CharChunk.getTransliterator
  split <;> rfl

theorem result_rawString (c : CharChunk) (forms : CharacterForms) :
    c.result forms .rawString = deleteSpecialKeys c.raw :=
  transliterate_rawString c forms _ _

theorem fixedResult_rawString (c : CharChunk) (forms : CharacterForms) :
    c.fixedResult forms .rawString = deleteSpecialKeys c.raw :=
  transliterate_rawString c forms _ _

theorem getLength_rawString (c : CharChunk) (forms : CharacterForms) :
    c.getLength forms .rawString = (deleteSpecialKeys c.raw).length :=
  congrArg List.length (result_rawString c forms)

theorem getStringWithTransliterator_rawString (forms : CharacterForms) (chunks : List CharChunk) :
    getStringWithTransliterator forms chunks .rawString = visibleRaw chunks := by
  unfold getStringWithTransliterator getStringWithModes visibleRaw
  rcases List.eq_nil_or_concat chunks with rfl | ⟨front, last, rfl⟩
  · rfl
  · simp only [List.concat_eq_append, List.dropLast_concat, List.getLast?_concat,
      fixedResult_rawString, result_rawString, List.flatMap_append, List.flatMap_singleton]

/-- The lengths of a chunk: as it is shown, and as it was typed. -/
def widths (forms : CharacterForms) (c : CharChunk) : Pieces.Widths :=
  (c.getLength forms .localChoice, c.getLength forms .rawString)

theorem sum_widths_shown (forms : CharacterForms) (chunks : List CharChunk) :
    ((chunks.map (widths forms)).map Prod.fst).sum = getLength forms chunks := by
  rw [List.map_map]
  rfl

theorem sum_widths_raw (forms : CharacterForms) (chunks : List CharChunk) :
    ((chunks.map (widths forms)).map Prod.snd).sum = (visibleRaw chunks).length := by
  rw [List.map_map, visibleRaw, List.length_flatMap]
  refine congrArg List.sum (List.map_congr_left fun c _ => ?_)
  exact getLength_rawString c forms

/-- There is a chunk at every position. -/
theorem getChunkAt_ne_nil (forms : CharacterForms) (t12r : Transliterator) (chunks : List CharChunk)
    (position : Nat) (some : chunks ≠ []) :
    (getChunkAt forms t12r chunks position).2.1 ≠ [] := by
  induction chunks generalizing position with
  | nil => exact absurd rfl some
  | cons c rest ih =>
      cases rest with
      | nil => exact List.cons_ne_nil _ _
      | cons next rest =>
          rw [getChunkAt]
          dsimp only
          split
          · exact ih _ (List.cons_ne_nil _ _)
          · exact List.cons_ne_nil _ _

/-- A position inside of a chunk behind nothing. -/
theorem convertPosition_inside (forms : CharacterForms) (c : CharChunk) (inner : Nat) :
    (if inner = 0 then getPosition forms .rawString []
      else if inner = c.getLength forms .localChoice then
        getPosition forms .rawString [] + c.getLength forms .rawString
      else if c.getLength forms .rawString < inner then
        getPosition forms .rawString [] + c.getLength forms .rawString
      else getPosition forms .rawString [] + inner) =
      Pieces.carryInside (widths forms c) inner := by
  have nothing : getPosition forms .rawString [] = 0 := rfl
  rw [nothing, Pieces.carryInside, widths]
  split_ifs with start atEnd past
  · rfl
  · exact Nat.zero_add _
  · rw [Nat.zero_add, Nat.min_eq_right (Nat.le_of_lt past)]
  · rw [Nat.zero_add, Nat.min_eq_left (Nat.le_of_not_lt past)]

/-- Positions are carried from chunk to chunk. -/
theorem convertPosition_eq (forms : CharacterForms) (chunks : List CharChunk) (position : Nat) :
    convertPosition forms chunks position .localChoice .rawString =
      Pieces.carry (chunks.map (widths forms)) position := by
  have otherForm : Transliterator.localChoice ≠ .rawString := by decide
  induction chunks generalizing position with
  | nil => rfl
  | cons c rest ih =>
      cases rest with
      | nil => exact convertPosition_inside forms c _
      | cons next rest =>
          have shown : (widths forms c).1 = c.getLength forms .localChoice := rfl
          rw [List.map_cons, List.map_cons, Pieces.carry, ← List.map_cons, shown]
          unfold convertPosition at ih ⊢
          rw [if_neg otherForm, getChunkAt]
          by_cases behind : c.getLength forms .localChoice < position
          · rw [if_pos behind, if_pos behind, ← ih, if_neg otherForm]
            have found := getChunkAt_ne_nil forms .localChoice (next :: rest)
              (position - c.getLength forms .localChoice) (List.cons_ne_nil _ _)
            generalize getChunkAt forms .localChoice (next :: rest)
              (position - c.getLength forms .localChoice) = place at found ⊢
            obtain ⟨front, behind, inner⟩ := place
            cases behind with
            | nil => exact absurd rfl found
            | cons d behind =>
                have further : getPosition forms .rawString (c :: front) =
                    (widths forms c).2 + getPosition forms .rawString front := List.sum_cons
                dsimp only
                rw [further]
                split_ifs
                · rfl
                · exact Nat.add_assoc _ _ _
                · exact Nat.add_assoc _ _ _
                · exact Nat.add_assoc _ _ _
          · rw [if_neg behind, if_neg behind]
            exact convertPosition_inside forms c position

/-! ## The pieces -/

theorem convertPosition_mono (forms : CharacterForms) (chunks : List CharChunk) :
    Monotone fun position => convertPosition forms chunks position .localChoice .rawString := by
  intro p q le
  dsimp only
  rw [convertPosition_eq, convertPosition_eq]
  exact Pieces.carry_mono le

/-- A raw substring lies between the positions that its ends are carried to. -/
theorem getRawSubString_eq (forms : CharacterForms) (chunks : List CharChunk) {p q : Nat}
    (le : p ≤ q) :
    getRawSubString forms chunks p (q - p) =
      ((visibleRaw chunks).drop (convertPosition forms chunks p .localChoice .rawString)).take
        (convertPosition forms chunks q .localChoice .rawString -
          convertPosition forms chunks p .localChoice .rawString) := by
  unfold getRawSubString getTransliteratedText
  dsimp only
  rw [Nat.add_sub_cancel' le, getStringWithTransliterator_rawString,
    if_neg (Nat.not_lt.2 (convertPosition_mono forms chunks le))]

/-- The raw substrings between positions that follow each other, joined. -/
def rawPieces (forms : CharacterForms) (chunks : List CharChunk) : Nat → List Nat → Text
  | _, [] => []
  | position, next :: rest =>
      getRawSubString forms chunks position (next - position) ++ rawPieces forms chunks next rest

/-- Two pieces of a text that meet. -/
theorem take_drop_append (text : Text) {i j k : Nat} (le : i ≤ j) (le' : j ≤ k) :
    (text.drop i).take (j - i) ++ (text.drop j).take (k - j) = (text.drop i).take (k - i) := by
  have whole : k - i = (j - i) + (k - j) := by omega
  have next : text.drop j = (text.drop i).drop (j - i) := by
    rw [List.drop_drop, Nat.add_sub_cancel' le]
  rw [whole, List.take_add, next]

/-- The pieces reach from the first to the last position. -/
theorem rawPieces_eq (forms : CharacterForms) (chunks : List CharChunk) {p q : Nat}
    {cuts : List Nat} (chain : (p :: cuts).IsChain (· ≤ ·))
    (isLast : (p :: cuts).getLast? = some q) :
    p ≤ q ∧ rawPieces forms chunks p cuts =
      ((visibleRaw chunks).drop (convertPosition forms chunks p .localChoice .rawString)).take
        (convertPosition forms chunks q .localChoice .rawString -
          convertPosition forms chunks p .localChoice .rawString) := by
  induction cuts generalizing p with
  | nil =>
      obtain rfl : p = q := Option.some.inj isLast
      rw [Nat.sub_self, List.take_zero]
      exact ⟨le_rfl, rfl⟩
  | cons next rest ih =>
      obtain ⟨le, chain⟩ := List.isChain_cons_cons.1 chain
      obtain ⟨le', pieces⟩ := ih chain (by rwa [List.getLast?_cons_cons] at isLast)
      refine ⟨le.trans le', ?_⟩
      rw [rawPieces, pieces, getRawSubString_eq forms chunks le]
      exact take_drop_append _ (convertPosition_mono forms chunks le)
        (convertPosition_mono forms chunks le')

theorem getRawString_eq (forms : CharacterForms) (chunks : List CharChunk) :
    getRawString forms chunks = (visibleRaw chunks).take
      (convertPosition forms chunks (getLength forms chunks) .localChoice .rawString) := by
  have whole := getRawSubString_eq forms chunks (Nat.zero_le (getLength forms chunks))
  rw [Nat.sub_zero, convertPosition_eq forms chunks 0, Pieces.carry_zero, List.drop_zero,
    Nat.sub_zero] at whole
  exact whole

/-! ## Main result -/

/-- Raw substrings are the parts of the text that was typed. -/
structure PartitionsRaw (forms : CharacterForms) (chunks : List CharChunk) : Prop where
  pieces : ∀ cuts : List Nat, (0 :: cuts).IsChain (· ≤ ·) →
    (0 :: cuts).getLast? = some (getLength forms chunks) →
    rawPieces forms chunks 0 cuts = getRawString forms chunks
  whole : getRawString forms chunks = visibleRaw chunks
  monotone : Monotone fun position =>
    convertPosition forms chunks position .localChoice .rawString
  start : convertPosition forms chunks 0 .localChoice .rawString = 0
  total : convertPosition forms chunks (getLength forms chunks) .localChoice .rawString =
    getPosition forms .rawString chunks

/-- Nothing was typed for the chunks behind the last one that shows something. -/
def NothingTypedBehind (forms : CharacterForms) (chunks : List CharChunk) : Prop :=
  ∀ front behind, chunks = front ++ behind →
    (∀ c ∈ behind, c.getLength forms .localChoice = 0) → ∀ c ∈ behind, deleteSpecialKeys c.raw = []

theorem tailIsEmpty_iff (forms : CharacterForms) (chunks : List CharChunk) :
    Pieces.TailIsEmpty (chunks.map (widths forms)) ↔ NothingTypedBehind forms chunks := by
  have noRaw : ∀ c : CharChunk, (widths forms c).2 = 0 ↔ deleteSpecialKeys c.raw = [] := by
    intro c
    rw [← List.length_eq_zero_iff, ← getLength_rawString c forms]
    rfl
  constructor
  · intro empty front behind parts hidden c member
    have parts' : chunks.map (widths forms) = front.map (widths forms) ++ behind.map (widths forms) := by
      rw [parts, List.map_append]
    exact (noRaw c).1 (empty _ _ parts' (List.forall_mem_map.2 hidden) _ (List.mem_map_of_mem member))
  · intro nothing front behind parts hidden
    obtain ⟨front', behind', rfl, rfl, rfl⟩ := List.map_eq_append_iff.1 parts
    rw [List.forall_mem_map] at hidden ⊢
    exact fun c member => (noRaw c).2 (nothing front' behind' rfl hidden c member)

/-- **Raw substrings partition the typed text** exactly if nothing was typed for the chunks behind the
last one that shows something. -/
theorem partitionsRaw_iff (forms : CharacterForms) (chunks : List CharChunk) :
    PartitionsRaw forms chunks ↔ NothingTypedBehind forms chunks := by
  have raw : getPosition forms .rawString chunks = (visibleRaw chunks).length := by
    rw [← sum_widths_raw forms, List.map_map]
    rfl
  have atEnd : _ ↔ Pieces.TailIsEmpty (chunks.map (widths forms)) := Pieces.carry_end_iff
  rw [sum_widths_shown, sum_widths_raw, ← convertPosition_eq, tailIsEmpty_iff] at atEnd
  constructor
  · intro partitions
    exact atEnd.1 (partitions.total.trans raw)
  · intro nothing
    have total := atEnd.2 nothing
    have start : convertPosition forms chunks 0 .localChoice .rawString = 0 := by
      rw [convertPosition_eq, Pieces.carry_zero]
    have pieces : ∀ cuts : List Nat, (0 :: cuts).IsChain (· ≤ ·) →
        (0 :: cuts).getLast? = some (getLength forms chunks) →
        rawPieces forms chunks 0 cuts = getRawString forms chunks := by
      intro cuts chain isLast
      rw [(rawPieces_eq forms chunks chain isLast).2, start, List.drop_zero, Nat.sub_zero,
        getRawString_eq]
    have whole : getRawString forms chunks = visibleRaw chunks := by
      rw [getRawString_eq, total, List.take_length]
    exact ⟨pieces, whole, convertPosition_mono forms chunks, start, total.trans raw.symm⟩

/-- **What was typed for a rule that shows nothing is missing** from the raw string. -/
theorem not_partitionsRaw : ¬ ∀ forms comp, Reached forms Table.Built comp →
    PartitionsRaw forms comp.chunks := by
  intro partitions
  have run : (addSilentRule.bind fun t =>
      ((⟨⟨0, t⟩, [], .hiragana⟩ : Composition).insertAt sameForms 9 0 ['a']).map fun typed =>
        decide (getRawString sameForms typed.1.chunks = visibleRaw typed.1.chunks)) = some false := by
    decide +kernel
  obtain ⟨t, added, run⟩ := Option.bind_eq_some_iff.1 run
  obtain ⟨⟨comp, pos⟩, typed, run⟩ := Option.map_eq_some_iff.1 run
  unfold addSilentRule Table.addRule at added
  have reached : Reached sameForms Table.Built comp :=
    .insertInput (.new 0 .hiragana (.addRule .new added)) typed
  exact of_decide_eq_false run (partitions sameForms comp reached).whole

end Mozkey.Composer
