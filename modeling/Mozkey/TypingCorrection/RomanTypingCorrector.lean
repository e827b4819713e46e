import Mozkey.Base.ByteString
import Mozkey.Lib.Best

/-!
# The romaji typing corrector

`RomanTypingCorrector::Generate` lists the corrections of a raw romaji input that
one edit makes: the replacements of a rule table, transpositions of adjacent keys,
neighbouring keys, and doubled keys.  It keeps the best hypothesis for each
corrected text and returns the best hypotheses of all, best first.

A rule may be marked as applying to a whole input only.  All other edits look at
a place of the input, so they stay possible when the input goes on.
-/

namespace Mozkey.TypingCorrection

open Mozkey.Lib

/-! ## Hypotheses -/

inductive Operation
  | literalReplacement
  | adjacentTranspose
  | neighborSubstitution
  | duplicateRemoval
  | missingKeyInsertion
  | kanaModifier
  | inputModeReplay
  deriving DecidableEq, Repr

structure Edit where
  rawStart : Nat
  rawLength : Nat
  replacement : ByteString
  operation : Operation
  cost : Int
  ruleId : ByteString
  deriving DecidableEq, Repr

/-- A raw-input hypothesis.  Its readings and key events are not set here. -/
structure Hypothesis where
  originalRaw : ByteString
  correctedRaw : ByteString
  edits : List Edit
  editCost : Int
  autoApplicable : Bool
  deriving DecidableEq, Repr

/-- The limits that the corrector and its cache read. -/
structure Limits where
  maxEdits : Nat
  maxRawHypotheses : Nat
  maxEditCost : Int
  deriving DecidableEq, Repr

structure RomanRule where
  wrong : ByteString
  corrected : ByteString
  operation : Operation := .literalReplacement
  cost : Int := 0
  autoApplicable : Bool := false
  wholeInputOnly : Bool := false
  ruleId : ByteString := []
  deriving DecidableEq, Repr

def isLowerAscii (character : UInt8) : Bool := 0x61 ≤ character && character ≤ 0x7a

/-- The neighbours of the keys, in the order of the switch. -/
def qwertyTable : List (Char × String) :=
  [('q', "was"), ('w', "qesa"), ('e', "wsdr"), ('r', "edft"), ('t', "rfgy"), ('y', "tghu"),
   ('u', "yhji"), ('i', "ujko"), ('o', "iklp"), ('p', "ol"), ('a', "qwsz"), ('s', "awedxz"),
   ('d', "serfcx"), ('f', "drtgvc"), ('g', "ftyhbv"), ('h', "gyujnb"), ('j', "huikmn"),
   ('k', "jiolm"), ('l', "kop"), ('z', "asx"), ('x', "zsdc"), ('c', "xdfv"), ('v', "cfgb"),
   ('b', "vghn"), ('n', "bhjm"), ('m', "njk")]

def qwertyNeighbors (character : UInt8) : ByteString :=
  match qwertyTable.find? fun entry => entry.1.toNat = character.toNat with
  | some entry => ascii entry.2
  | none => []

def makeHypothesis (raw : ByteString) (rawStart rawLength : Nat) (replacement : ByteString)
    (operation : Operation) (cost : Int) (autoApplicable : Bool) (ruleId : ByteString) :
    Hypothesis where
  originalRaw := raw
  correctedRaw := raw.take rawStart ++ (replacement ++ raw.drop (rawStart + rawLength))
  edits := [⟨rawStart, rawLength, replacement, operation, cost, ruleId⟩]
  editCost := cost
  autoApplicable := autoApplicable

/-- The first edit is one of the generic operations. -/
def isGeneric (hypothesis : Hypothesis) : Bool :=
  match hypothesis.edits with
  | [] => false
  | edit :: _ => (ascii "GEN-").isPrefixOf edit.ruleId

def isBetter (lhs rhs : Hypothesis) : Bool :=
  if lhs.autoApplicable ≠ rhs.autoApplicable then lhs.autoApplicable
  else if isGeneric lhs ≠ isGeneric rhs then !isGeneric lhs
  else if lhs.editCost ≠ rhs.editCost then lhs.editCost < rhs.editCost
  else lhs.correctedRaw < rhs.correctedRaw

/-! ## The edits of an input -/

/-- The positions that the repeated search for `wrong` finds from a position on. -/
def positionsFrom (wrong : ByteString) : Nat → ByteString → List Nat
  | _, [] => []
  | position, c :: rest =>
      if wrong.isPrefixOf (c :: rest) then position :: positionsFrom wrong (position + 1) rest
      else positionsFrom wrong (position + 1) rest

def ruleHypotheses (raw : ByteString) (rule : RomanRule) : List Hypothesis :=
  if rule.wrong = [] ∨ rule.wrong = rule.corrected then []
  else if rule.wholeInputOnly then
    if raw ≠ rule.wrong then []
    else [makeHypothesis raw 0 raw.length rule.corrected rule.operation rule.cost
      rule.autoApplicable rule.ruleId]
  else (positionsFrom rule.wrong 0 raw).map fun position =>
    makeHypothesis raw position rule.wrong.length rule.corrected rule.operation rule.cost
      rule.autoApplicable rule.ruleId

def transposeHypotheses (raw : ByteString) (index : Nat) : List Hypothesis :=
  let first := byteAt raw index
  let second := byteAt raw (index + 1)
  if !isLowerAscii first ∨ !isLowerAscii second ∨ first = second then []
  else [makeHypothesis raw index 2 [second, first] .adjacentTranspose 100 false
    (ascii "GEN-TRANSPOSE")]

def keyHypotheses (raw : ByteString) (index : Nat) : List Hypothesis :=
  if !isLowerAscii (byteAt raw index) then []
  else
    (qwertyNeighbors (byteAt raw index)).map (fun neighbor =>
      makeHypothesis raw index 1 [neighbor] .neighborSubstitution 120 false
        (ascii "GEN-QWERTY")) ++
    if index > 0 ∧ byteAt raw (index - 1) = byteAt raw index then
      [makeHypothesis raw index 1 [] .duplicateRemoval 110 false (ascii "GEN-DUPLICATE")]
    else []

/-- All hypotheses that `Generate` offers to `AddCandidate`, in its order. -/
def singleEdits (rules : List RomanRule) (raw : ByteString) : List Hypothesis :=
  rules.flatMap (ruleHypotheses raw) ++
    ((List.range (raw.length - 1)).flatMap (transposeHypotheses raw) ++
      (List.range raw.length).flatMap (keyHypotheses raw))

/-! ## The selection -/

/-- The test at the start of `AddCandidate`. -/
def isCandidate (raw : ByteString) (limits : Limits) (candidate : Hypothesis) : Bool :=
  !(candidate.correctedRaw = raw ∨ candidate.edits = [] ∨
    candidate.edits.length > limits.maxEdits ∨ candidate.editCost > limits.maxEditCost)

/-- The loop of `AddCandidate` over the candidates so far. -/
def mergeCandidate (candidate : Hypothesis) : List Hypothesis → List Hypothesis
  | [] => [candidate]
  | existing :: rest =>
      if existing.correctedRaw = candidate.correctedRaw then
        (if isBetter candidate existing then candidate else existing) :: rest
      else existing :: mergeCandidate candidate rest

def addCandidate (raw : ByteString) (limits : Limits) (candidates : List Hypothesis)
    (candidate : Hypothesis) : List Hypothesis :=
  if isCandidate raw limits candidate then mergeCandidate candidate candidates else candidates

/-- The candidates, one for each corrected text. -/
def candidatesOf (rules : List RomanRule) (raw : ByteString) (limits : Limits) :
    List Hypothesis :=
  (singleEdits rules raw).foldl (addCandidate raw limits) []

/-- `RomanTypingCorrector::Generate`. -/
def generate (rules : List RomanRule) (raw : ByteString) (limits : Limits) : List Hypothesis :=
  if raw = [] ∨ limits.maxEdits = 0 ∨ limits.maxRawHypotheses = 0 ∨ limits.maxEditCost < 0 then []
  else if limits.maxEdits ≠ 1 then []
  else sortBy isBetter
    ((candidatesOf rules raw limits).foldl (pushBest isBetter limits.maxRawHypotheses) [])

/-! ## The ranking -/

/-- The rank of a hypothesis: applicable ones come first, then specific ones, then
cheap ones, and at last the corrected text decides. -/
def rank (h : Hypothesis) : Bool ×ₗ Bool ×ₗ Int ×ₗ ByteString :=
  toLex (!h.autoApplicable, toLex (isGeneric h, toLex (h.editCost, h.correctedRaw)))

theorem isBetter_iff (a b : Hypothesis) : isBetter a b = true ↔ rank a < rank b := by
  unfold isBetter rank
  simp only [Prod.Lex.toLex_lt_toLex]
  by_cases auto : a.autoApplicable = b.autoApplicable
  · rw [if_neg (not_not.2 auto), auto]
    by_cases generic : isGeneric a = isGeneric b
    · rw [if_neg (not_not.2 generic), generic]
      by_cases cost : a.editCost = b.editCost
      · rw [if_neg (not_not.2 cost), cost]
        simp
      · rw [if_pos cost]
        simp [cost]
    · rw [if_pos generic]
      cases left : isGeneric a <;> cases right : isGeneric b <;> simp_all
  · rw [if_pos auto]
    cases left : a.autoApplicable <;> cases right : b.autoApplicable <;> simp_all

theorem rank_injOn_text {a b : Hypothesis} (same : rank a = rank b) :
    a.correctedRaw = b.correctedRaw := by
  unfold rank at same
  have parts := congrArg (fun r => (ofLex (ofLex (ofLex r).2).2).2) same
  exact parts

/-! ## One candidate for each text -/

theorem mem_mergeCandidate {candidate : Hypothesis} {candidates : List Hypothesis}
    {h : Hypothesis} (member : h ∈ mergeCandidate candidate candidates) :
    h = candidate ∨ h ∈ candidates := by
  induction candidates with
  | nil => exact .inl (List.mem_singleton.1 member)
  | cons existing rest ih =>
      unfold mergeCandidate at member
      split at member
      · rcases List.mem_cons.1 member with first | later
        · split at first
          · exact .inl first
          · exact .inr (first ▸ List.mem_cons_self)
        · exact .inr (List.mem_cons_of_mem _ later)
      · rcases List.mem_cons.1 member with rfl | later
        · exact .inr List.mem_cons_self
        · exact (ih later).imp_right (List.mem_cons_of_mem _)

/-- The texts stay the same, except that a new one is added at the end. -/
theorem texts_mergeCandidate (candidate : Hypothesis) (candidates : List Hypothesis) :
    (mergeCandidate candidate candidates).map Hypothesis.correctedRaw =
      if candidate.correctedRaw ∈ candidates.map Hypothesis.correctedRaw
      then candidates.map Hypothesis.correctedRaw
      else candidates.map Hypothesis.correctedRaw ++ [candidate.correctedRaw] := by
  induction candidates with
  | nil => rfl
  | cons existing rest ih =>
      unfold mergeCandidate
      by_cases same : existing.correctedRaw = candidate.correctedRaw
      · have present : candidate.correctedRaw ∈
            (existing :: rest).map Hypothesis.correctedRaw := by
          rw [List.map_cons, same]
          exact List.mem_cons_self
        rw [if_pos same, if_pos present, List.map_cons, List.map_cons]
        congr 1
        split
        · exact same.symm
        · rfl
      · rw [if_neg same, List.map_cons, ih, List.map_cons]
        by_cases later : candidate.correctedRaw ∈ rest.map Hypothesis.correctedRaw
        · rw [if_pos later, if_pos (List.mem_cons_of_mem _ later)]
        · rw [if_neg later, if_neg (by
            rw [List.mem_cons, not_or]
            exact ⟨Ne.symm same, later⟩)]
          rfl

/-- A merged candidate, and everything there was, is met at least as well. -/
theorem mergeCandidate_covers {candidate : Hypothesis} {candidates : List Hypothesis}
    {h : Hypothesis} (offered : h = candidate ∨ h ∈ candidates) :
    ∃ d ∈ mergeCandidate candidate candidates,
      d.correctedRaw = h.correctedRaw ∧ rank d ≤ rank h := by
  induction candidates with
  | nil =>
      rcases offered with rfl | none
      · exact ⟨h, List.mem_singleton_self h, rfl, le_rfl⟩
      · exact absurd none List.not_mem_nil
  | cons existing rest ih =>
      unfold mergeCandidate
      by_cases same : existing.correctedRaw = candidate.correctedRaw
      · rw [if_pos same]
        by_cases improves : isBetter candidate existing = true
        · rw [if_pos improves]
          have below := (isBetter_iff candidate existing).1 improves
          rcases offered with rfl | old
          · exact ⟨h, List.mem_cons_self, rfl, le_rfl⟩
          · rcases List.mem_cons.1 old with rfl | later
            · exact ⟨candidate, List.mem_cons_self, same.symm, below.le⟩
            · exact ⟨h, List.mem_cons_of_mem _ later, rfl, le_rfl⟩
        · rw [if_neg improves]
          have above := (not_better_iff isBetter_iff existing candidate).1
            (Bool.not_eq_true _ ▸ improves)
          rcases offered with rfl | old
          · exact ⟨existing, List.mem_cons_self, same, above⟩
          · exact ⟨h, old, rfl, le_rfl⟩
      · rw [if_neg same]
        rcases offered with rfl | old
        · obtain ⟨d, member, met⟩ := ih (.inl rfl)
          exact ⟨d, List.mem_cons_of_mem _ member, met⟩
        · rcases List.mem_cons.1 old with rfl | later
          · exact ⟨h, List.mem_cons_self, rfl, le_rfl⟩
          · obtain ⟨d, member, met⟩ := ih (.inr later)
            exact ⟨d, List.mem_cons_of_mem _ member, met⟩

section Candidates

variable (raw : ByteString) (limits : Limits)

/-- What the fold over the offered hypotheses keeps. -/
structure Selects (offered candidates : List Hypothesis) : Prop where
  distinct : (candidates.map Hypothesis.correctedRaw).Nodup
  mem : ∀ h ∈ candidates, h ∈ offered ∧ isCandidate raw limits h = true
  covers : ∀ h ∈ offered, isCandidate raw limits h = true →
    ∃ d ∈ candidates, d.correctedRaw = h.correctedRaw ∧ rank d ≤ rank h

variable {raw limits}

theorem Selects.add {offered candidates : List Hypothesis}
    (selects : Selects raw limits offered candidates) (h : Hypothesis) :
    Selects raw limits (offered ++ [h]) (addCandidate raw limits candidates h) := by
  unfold addCandidate
  split
  · rename_i accepted
    refine ⟨?_, ?_, ?_⟩
    · rw [texts_mergeCandidate]
      split
      · exact selects.distinct
      · rename_i fresh
        exact List.nodup_append.2 ⟨selects.distinct, List.nodup_singleton _, by
          intro a left b right same
          rw [List.mem_singleton] at right
          exact fresh (right ▸ same ▸ left)⟩
    · intro d member
      rcases mem_mergeCandidate member with rfl | old
      · exact ⟨by simp, accepted⟩
      · exact ⟨List.mem_append_left _ (selects.mem d old).1, (selects.mem d old).2⟩
    · intro g offered_ isOne
      rcases List.mem_append.1 offered_ with old | new
      · obtain ⟨d, member, text, below⟩ := selects.covers g old isOne
        obtain ⟨d', member', text', below'⟩ := mergeCandidate_covers (.inr member : d = h ∨ d ∈ candidates)
        exact ⟨d', member', text'.trans text, below'.trans below⟩
      · exact mergeCandidate_covers (.inl (List.mem_singleton.1 new))
  · rename_i refused
    refine ⟨selects.distinct, ?_, ?_⟩
    · intro d member
      exact ⟨List.mem_append_left _ (selects.mem d member).1, (selects.mem d member).2⟩
    · intro g offered_ isOne
      rcases List.mem_append.1 offered_ with old | new
      · exact selects.covers g old isOne
      · rw [List.mem_singleton.1 new] at isOne
        exact absurd isOne refused

theorem candidatesOf_selects (rules : List RomanRule) (raw : ByteString) (limits : Limits) :
    Selects raw limits (singleEdits rules raw) (candidatesOf rules raw limits) := by
  unfold candidatesOf
  induction singleEdits rules raw using List.reverseRecOn with
  | nil => exact ⟨List.nodup_nil, by simp, by simp⟩
  | append_singleton offered h ih =>
      rw [List.foldl_append, List.foldl_cons, List.foldl_nil]
      exact ih.add h

theorem Selects.ranks_distinct {offered candidates : List Hypothesis}
    (selects : Selects raw limits offered candidates) : (candidates.map rank).Nodup := by
  refine List.Nodup.map_on ?_ selects.distinct.of_map
  intro a left b right same
  exact List.inj_on_of_nodup_map selects.distinct left right (rank_injOn_text same)

end Candidates

/-- Limits under which `Generate` searches at all. -/
def Limits.Searches (limits : Limits) : Prop :=
  limits.maxEdits = 1 ∧ 0 ≤ limits.maxEditCost

/-- **The result of `Generate`**: the best candidates, best first. -/
theorem generate_eq (rules : List RomanRule) {raw : ByteString} {limits : Limits}
    (some_ : raw ≠ []) (searches : limits.Searches) :
    generate rules raw limits =
      (sortBy isBetter (candidatesOf rules raw limits)).take limits.maxRawHypotheses := by
  unfold generate
  obtain ⟨one, cost⟩ := searches
  by_cases room : limits.maxRawHypotheses = 0
  · rw [if_pos (by simp [room]), room, List.take_zero]
  · rw [if_neg (by simp [one, room, some_, cost]), if_neg (not_not.2 one)]
    exact sortBy_foldl_pushBest isBetter_iff (candidatesOf_selects rules raw limits).ranks_distinct

/-- Every returned hypothesis is a candidate. -/
theorem mem_candidatesOf_of_mem_generate {rules : List RomanRule} {raw : ByteString}
    {limits : Limits} {h : Hypothesis} (member : h ∈ generate rules raw limits) :
    raw ≠ [] ∧ limits.Searches ∧ h ∈ candidatesOf rules raw limits := by
  have accepted : raw ≠ [] ∧ limits.Searches := by
    unfold generate at member
    split at member
    · exact absurd member List.not_mem_nil
    · rename_i given
      split at member
      · exact absurd member List.not_mem_nil
      · rename_i one
        simp only [not_or, not_lt] at given
        exact ⟨given.1, not_not.1 one, given.2.2.2⟩
  refine ⟨accepted.1, accepted.2, ?_⟩
  rw [generate_eq rules accepted.1 accepted.2] at member
  exact (sortBy_perm isBetter _).subset (List.mem_of_mem_take member)

/-! ## Longer inputs -/

/-- The hypothesis for an input that goes on with `suffix`. -/
def Hypothesis.extend (h : Hypothesis) (raw suffix : ByteString) : Hypothesis :=
  { h with originalRaw := raw, correctedRaw := h.correctedRaw ++ suffix }

theorem extend_makeHypothesis {start length : Nat} {raw : ByteString} (suffix replacement : ByteString)
    (operation : Operation) (cost : Int) (auto : Bool) (ruleId : ByteString)
    (inside : start + length ≤ raw.length) :
    (makeHypothesis raw start length replacement operation cost auto ruleId).extend
      (raw ++ suffix) suffix =
    makeHypothesis (raw ++ suffix) start length replacement operation cost auto ruleId := by
  unfold makeHypothesis Hypothesis.extend
  simp only [Hypothesis.mk.injEq, and_true, true_and]
  rw [List.take_append_of_le_length (by omega), List.drop_append_of_le_length inside,
    List.append_assoc, List.append_assoc]

theorem mem_positionsFrom {wrong raw : ByteString} {start position : Nat}
    (some_ : wrong ≠ []) :
    position ∈ positionsFrom wrong start raw ↔
      ∃ i, position = start + i ∧ wrong <+: raw.drop i := by
  induction raw generalizing start with
  | nil =>
      simp only [positionsFrom, List.not_mem_nil, List.drop_nil, List.prefix_nil, false_iff]
      rintro ⟨i, -, none⟩
      exact some_ none
  | cons c rest ih =>
      have step : position ∈ positionsFrom wrong start (c :: rest) ↔
          (wrong <+: c :: rest ∧ position = start) ∨
            position ∈ positionsFrom wrong (start + 1) rest := by
        rw [positionsFrom]
        split
        · rename_i here
          rw [List.isPrefixOf_iff_prefix] at here
          simp [here]
        · rename_i elsewhere
          rw [List.isPrefixOf_iff_prefix] at elsewhere
          simp [elsewhere]
      rw [step, ih]
      constructor
      · rintro (⟨here, rfl⟩ | ⟨i, rfl, there⟩)
        · exact ⟨0, rfl, here⟩
        · exact ⟨i + 1, by omega, there⟩
      · rintro ⟨i, rfl, found⟩
        cases i with
        | zero => exact .inl ⟨found, rfl⟩
        | succ i => exact .inr ⟨i, by omega, found⟩

section Extension

variable {raw : ByteString} {h : Hypothesis} (suffix : ByteString)

/-- The rules that look at a place of the input. -/
def placeRules (rules : List RomanRule) : List RomanRule :=
  rules.filter fun rule => !rule.wholeInputOnly

theorem extend_mem_ruleHypotheses {rule : RomanRule} (place : rule.wholeInputOnly = false)
    (member : h ∈ ruleHypotheses raw rule) :
    h.extend (raw ++ suffix) suffix ∈ ruleHypotheses (raw ++ suffix) rule := by
  unfold ruleHypotheses at member ⊢
  split at member
  · exact absurd member List.not_mem_nil
  · rename_i useful
    rw [if_neg useful]
    rw [if_neg (by simp [place])] at member ⊢
    obtain ⟨position, found, rfl⟩ := List.mem_map.1 member
    have some_ : rule.wrong ≠ [] := fun none => useful (.inl none)
    obtain ⟨i, at_, here⟩ := (mem_positionsFrom some_).1 found
    rw [Nat.zero_add] at at_
    subst at_
    have inside : position + rule.wrong.length ≤ raw.length := by
      have length := here.length_le
      have positive := List.length_pos_of_ne_nil some_
      rw [List.length_drop] at length
      omega
    rw [extend_makeHypothesis suffix _ _ _ _ _ inside]
    refine List.mem_map_of_mem ((mem_positionsFrom some_).2 ⟨position, by omega, ?_⟩)
    rw [List.drop_append_of_le_length (by omega)]
    exact here.trans (List.prefix_append _ _)

theorem byteAt_append_of_lt {i : Nat} (inside : i < raw.length) :
    byteAt (raw ++ suffix) i = byteAt raw i := by
  unfold byteAt
  rw [List.getD_append _ _ _ _ inside]

theorem extend_mem_transposeHypotheses {index : Nat} (inside : index + 1 < raw.length)
    (member : h ∈ transposeHypotheses raw index) :
    h.extend (raw ++ suffix) suffix ∈ transposeHypotheses (raw ++ suffix) index := by
  unfold transposeHypotheses at member ⊢
  rw [byteAt_append_of_lt suffix inside, byteAt_append_of_lt suffix (by omega)]
  dsimp only at member ⊢
  split at member
  · exact absurd member List.not_mem_nil
  · rename_i apt
    rw [if_neg apt]
    rw [List.mem_singleton.1 member, extend_makeHypothesis suffix _ _ _ _ _ (by omega)]
    exact List.mem_singleton_self _

theorem extend_mem_keyHypotheses {index : Nat} (inside : index < raw.length)
    (member : h ∈ keyHypotheses raw index) :
    h.extend (raw ++ suffix) suffix ∈ keyHypotheses (raw ++ suffix) index := by
  unfold keyHypotheses at member ⊢
  rw [byteAt_append_of_lt suffix inside, byteAt_append_of_lt suffix (by omega : index - 1 < _)]
  split at member
  · exact absurd member List.not_mem_nil
  · rename_i apt
    rw [if_neg apt]
    rcases List.mem_append.1 member with neighbor | duplicate
    · obtain ⟨b, found, rfl⟩ := List.mem_map.1 neighbor
      rw [extend_makeHypothesis suffix _ _ _ _ _ (by omega)]
      exact List.mem_append_left _ (List.mem_map_of_mem found)
    · split at duplicate
      · rename_i doubled
        rw [if_pos doubled, List.mem_singleton.1 duplicate,
          extend_makeHypothesis suffix _ _ _ _ _ (by omega)]
        exact List.mem_append_right _ (List.mem_singleton_self _)
      · exact absurd duplicate List.not_mem_nil

/-- **An edit at a place stays possible** when the input goes on. -/
theorem extend_mem_singleEdits {rules : List RomanRule}
    (member : h ∈ singleEdits (placeRules rules) raw) :
    h.extend (raw ++ suffix) suffix ∈ singleEdits rules (raw ++ suffix) := by
  unfold singleEdits at member ⊢
  rw [List.length_append]
  rcases List.mem_append.1 member with byRule | generic
  · obtain ⟨rule, found, offered⟩ := List.mem_flatMap.1 byRule
    obtain ⟨known, place⟩ := List.mem_filter.1 found
    rw [Bool.not_eq_true'] at place
    exact List.mem_append_left _
      (List.mem_flatMap.2 ⟨rule, known, extend_mem_ruleHypotheses suffix place offered⟩)
  · refine List.mem_append_right _ ?_
    rcases List.mem_append.1 generic with transposed | keyed
    · obtain ⟨index, inside, offered⟩ := List.mem_flatMap.1 transposed
      rw [List.mem_range] at inside
      refine List.mem_append_left _ (List.mem_flatMap.2 ⟨index, ?_, ?_⟩)
      · rw [List.mem_range]
        omega
      · exact extend_mem_transposeHypotheses suffix (by omega) offered
    · obtain ⟨index, inside, offered⟩ := List.mem_flatMap.1 keyed
      rw [List.mem_range] at inside
      refine List.mem_append_right _ (List.mem_flatMap.2 ⟨index, ?_, ?_⟩)
      · rw [List.mem_range]
        omega
      · exact extend_mem_keyHypotheses suffix inside offered

/-- Every hypothesis has exactly one edit. -/
theorem edits_length_of_mem_singleEdits {rules : List RomanRule}
    (member : h ∈ singleEdits rules raw) : h.edits.length = 1 := by
  rcases List.mem_append.1 member with byRule | generic
  · obtain ⟨rule, -, offered⟩ := List.mem_flatMap.1 byRule
    unfold ruleHypotheses at offered
    split at offered
    · exact absurd offered List.not_mem_nil
    split at offered
    · split at offered
      · exact absurd offered List.not_mem_nil
      · rw [List.mem_singleton.1 offered]
        rfl
    · obtain ⟨position, -, rfl⟩ := List.mem_map.1 offered
      rfl
  rcases List.mem_append.1 generic with transposed | keyed
  · obtain ⟨index, -, offered⟩ := List.mem_flatMap.1 transposed
    unfold transposeHypotheses at offered
    dsimp only at offered
    split at offered
    · exact absurd offered List.not_mem_nil
    · rw [List.mem_singleton.1 offered]
      rfl
  · obtain ⟨index, -, offered⟩ := List.mem_flatMap.1 keyed
    unfold keyHypotheses at offered
    split at offered
    · exact absurd offered List.not_mem_nil
    rcases List.mem_append.1 offered with neighbor | duplicate
    · obtain ⟨b, -, rfl⟩ := List.mem_map.1 neighbor
      rfl
    · split at duplicate
      · rw [List.mem_singleton.1 duplicate]
        rfl
      · exact absurd duplicate List.not_mem_nil

end Extension

end Mozkey.TypingCorrection
