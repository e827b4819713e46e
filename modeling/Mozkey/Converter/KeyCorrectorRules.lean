import Mozkey.Converter.KeyCorrector

/-!
# What the rules of the key corrector do

Every rule takes some code points off a key and puts others in their place.  Where these have as
many bytes together, they are as many, and each of them has as many bytes as the one that it takes
the place of.
-/

namespace Mozkey.Converter

open Mozkey.Lib

/-- The bytes of a code point. -/
def sizeOfCode (codepoint : Nat) : Nat := (codepointToUtf8 codepoint).length

/-- The first code points of a text, with the numbers of bytes that they are read from. -/
def ReadsChars : ByteString → List (Nat × Nat) → Prop
  | _, [] => True
  | front, char :: chars => utf8ToCodepoint front = char ∧ ReadsChars (front.drop char.2) chars

/-- Code points that others take the place of. -/
structure Replaces (codes others : List Nat) : Prop where
  codesSome : codes ≠ []
  codesNonzero : 0 ∉ codes
  othersSome : others ≠ []
  othersProper : ∀ c ∈ others, c ≠ 0 ∧ c.isValidChar
  aligned : (∀ c ∈ codes, c.isValidChar) →
    (codes.map sizeOfCode).sum = (others.map sizeOfCode).sum →
      codes.map sizeOfCode = others.map sizeOfCode

/-- What a rule has done to a text. -/
def Rewritten (front : ByteString) (mblen : Nat) (output : ByteString) : Prop :=
  ∃ chars others, ReadsChars front chars ∧ mblen = (chars.map Prod.snd).sum ∧
    Replaces (chars.map Prod.fst) others ∧ output = others.flatMap codepointToUtf8

/-! ## Sizes -/

theorem sizeOfCode_mono {c d : Nat} (le : c ≤ d) : sizeOfCode c ≤ sizeOfCode d := by
  unfold sizeOfCode codepointToUtf8
  split_ifs <;> simp <;> omega

theorem sizeOfCode_eq_three {c : Nat} (least : 0x800 ≤ c) (most : c < 0x10000) :
    sizeOfCode c = 3 := by
  have low : 3 ≤ sizeOfCode c := sizeOfCode_mono (show 0x800 ≤ c from least)
  have high : sizeOfCode c ≤ 3 := sizeOfCode_mono (show c ≤ 0xFFFF by omega)
  omega

theorem isValidChar_of_lt {c : Nat} (less : c < 0xD800) : c.isValidChar := .inl less

/-- A code point cut to 16 bits has no more bytes. -/
theorem sizeOfCode_asUint16 (c : Nat) : sizeOfCode (asUint16 c) ≤ sizeOfCode c :=
  sizeOfCode_mono (Nat.mod_le _ _)

/-- A hiragana, and what is left of it in 16 bits. -/
theorem hiragana {c : Nat} (is : isHiragana c = true) :
    c ≠ 0 ∧ c < 0x20000 ∧ (asUint16 c).isValidChar := by
  unfold isHiragana at is
  rw [Bool.or_eq_true, decide_eq_true_iff, beq_iff_eq] at is
  refine ⟨by omega, by omega, isValidChar_of_lt ?_⟩
  unfold asUint16
  omega

/-! ## Reading -/

theorem utf8ToCodepoint_pos {front : ByteString} (some_ : (utf8ToCodepoint front).1 ≠ 0) :
    0 < (utf8ToCodepoint front).2 := by
  unfold utf8ToCodepoint at *
  cases first : splitFirstChar32 front with
  | none =>
      rw [first] at some_
      exact absurd rfl some_
  | some pair =>
      obtain ⟨c, rest⟩ := pair
      exact Nat.sub_pos_of_lt (length_of_split first)

/-- A code point is read from as many bytes as it is written with. -/
theorem utf8ToCodepoint_size {front : ByteString} {c m : Nat}
    (is : utf8ToCodepoint front = (c, m)) (some_ : c ≠ 0) (less : c < 0x4000000) :
    m = sizeOfCode c := by
  unfold utf8ToCodepoint at is
  cases first : splitFirstChar32 front with
  | none =>
      rw [first] at is
      exact absurd (Prod.mk.inj is).1.symm some_
  | some pair =>
      obtain ⟨c', rest⟩ := pair
      rw [first] at is
      obtain ⟨rfl, rfl⟩ := Prod.mk.inj is
      have taken := (takes_of_split some_ first).length
      rw [if_neg fun shortened => absurd shortened.1 (by omega)] at taken
      show front.length - rest.length = (codepointToUtf8 c').length
      omega

theorem readsChars_of_matchPattern {letter : Nat} {patterns : List Nat} {matched : List (Nat × Nat)}
    {front behind : ByteString}
    (matches_ : matchPattern letter patterns front = some (matched, behind)) :
    ReadsChars front matched ∧ List.Forall₂ (fun pattern char =>
      (pattern = 0 ∧ char.1 ≠ letter ∧ isHiragana char.1 = true) ∨
        (pattern = letter ∧ char.1 = letter)) patterns matched := by
  induction patterns generalizing front matched with
  | nil =>
      obtain ⟨rfl, -⟩ := Prod.mk.inj (Option.some.inj matches_)
      exact ⟨trivial, .nil⟩
  | cons pattern patterns ih =>
      rw [matchPattern] at matches_
      split at matches_
      · cases matches_
      dsimp only at matches_
      split at matches_
      · next fits =>
        obtain ⟨⟨others, behind'⟩, rest, is⟩ := Option.map_eq_some_iff.1 matches_
        obtain ⟨rfl, rfl⟩ := Prod.mk.inj is
        obtain ⟨reads, all⟩ := ih rest
        exact ⟨⟨rfl, reads⟩, .cons fits all⟩
      · cases matches_

/-! ## The rules -/

section Rules

variable {keyPos mblen : Nat} {front output : ByteString}

/-- Two code points are replaced by two others of three bytes. -/
theorem replaces_two {c next first second : Nat} (nonzero : c ≠ 0) (nextNonzero : next ≠ 0)
    (firstLetter : 0x3041 ≤ first ∧ first ≤ 0x309F)
    (secondLetter : 0x3041 ≤ second ∧ second ≤ 0x309F)
    (size : sizeOfCode c = 3 ∨ sizeOfCode c = 1) : Replaces [c, next] [first, second] where
  codesSome := List.cons_ne_nil _ _
  codesNonzero := by simp [nonzero.symm, nextNonzero.symm]
  othersSome := List.cons_ne_nil _ _
  othersProper := by
    intro d member
    have letter : 0x3041 ≤ d ∧ d ≤ 0x309F := by
      rcases List.mem_cons.1 member with rfl | later
      · exact firstLetter
      · rwa [List.mem_singleton.1 later]
    exact ⟨by omega, isValidChar_of_lt (by omega)⟩
  aligned := by
    intro proper same
    have firstSize := sizeOfCode_eq_three (c := first) (by omega) (by omega)
    have secondSize := sizeOfCode_eq_three (c := second) (by omega) (by omega)
    have nextSize : sizeOfCode next ≤ sizeOfCode 0x10FFFF := by
      apply sizeOfCode_mono
      rcases proper next (by simp) with low | high <;> omega
    have most : sizeOfCode 0x10FFFF = 4 := by decide
    simp only [List.map_cons, List.map_nil, List.sum_cons, List.sum_nil, firstSize, secondSize]
      at same ⊢
    simp only [List.cons.injEq, and_true]
    omega

theorem rewritten_two {first second : Nat}
    (replaces : Replaces [(utf8ToCodepoint front).1,
      (utf8ToCodepoint (front.drop (utf8ToCodepoint front).2)).1] [first, second]) :
    Rewritten front
      ((utf8ToCodepoint front).2 + (utf8ToCodepoint (front.drop (utf8ToCodepoint front).2)).2)
      (codepointToUtf8 first ++ codepointToUtf8 second) := by
  refine ⟨[_, _], [first, second], ⟨rfl, rfl, trivial⟩, rfl, replaces, ?_⟩
  rw [List.flatMap_cons, List.flatMap_singleton]

/-- Code points are replaced by others that have not as many bytes. -/
theorem replaces_of_ne {codes others : List Nat} (codesSome : codes ≠ [])
    (codesNonzero : 0 ∉ codes) (othersSome : others ≠ [])
    (othersProper : ∀ c ∈ others, c ≠ 0 ∧ c.isValidChar)
    (differ : (codes.map sizeOfCode).sum ≠ (others.map sizeOfCode).sum) : Replaces codes others :=
  ⟨codesSome, codesNonzero, othersSome, othersProper, fun _ same => absurd same differ⟩

theorem letterBehindNN_cases {next : Nat} (some_ : letterBehindNN (asUint16 next) ≠ 0) :
    next ≠ 0 ∧ 0x3041 ≤ letterBehindNN (asUint16 next) ∧
      letterBehindNN (asUint16 next) ≤ 0x309F := by
  refine ⟨?_, ?_⟩
  · rintro rfl
    exact some_ (by decide)
  · unfold letterBehindNN at *
    split_ifs at * <;> omega

theorem letterBehindNI_cases {next : Nat} (some_ : letterBehindNI (asUint16 next) ≠ 0) :
    next ≠ 0 ∧ 0x3041 ≤ letterBehindNI (asUint16 next) ∧
      letterBehindNI (asUint16 next) ≤ 0x309F := by
  refine ⟨?_, ?_⟩
  · rintro rfl
    exact some_ (by decide)
  · unfold letterBehindNI at *
    split_ifs at * <;> omega

theorem rewriteNN_cases (rewrites : rewriteNN keyPos front = some (mblen, output)) :
    Rewritten front mblen output := by
  unfold rewriteNN at rewrites
  split at rewrites
  · cases rewrites
  dsimp only at rewrites
  split at rewrites
  · cases rewrites
  next letter =>
  split at rewrites
  · cases rewrites
  split at rewrites
  · next some_ =>
    obtain ⟨rfl, rfl⟩ := Prod.mk.inj (Option.some.inj rewrites)
    obtain ⟨nextNonzero, letters⟩ := letterBehindNN_cases some_
    apply rewritten_two
    rw [not_not.1 letter]
    exact replaces_two (by decide) nextNonzero (by decide) letters (by decide)
  · cases rewrites

theorem rewriteNI_cases (rewrites : rewriteNI keyPos front = some (mblen, output)) :
    Rewritten front mblen output := by
  unfold rewriteNI at rewrites
  dsimp only at rewrites
  split at rewrites
  · cases rewrites
  next letter =>
  split at rewrites
  · cases rewrites
  split at rewrites
  · next some_ =>
    obtain ⟨rfl, rfl⟩ := Prod.mk.inj (Option.some.inj rewrites)
    obtain ⟨nextNonzero, letters⟩ := letterBehindNI_cases some_
    apply rewritten_two
    rw [not_not.1 letter]
    exact replaces_two (by decide) nextNonzero (by decide) letters (by decide)
  · cases rewrites

theorem rewriteM_cases (rewrites : rewriteM keyPos front = some (mblen, output)) :
    Rewritten front mblen output := by
  unfold rewriteM at rewrites
  split at rewrites
  · cases rewrites
  dsimp only at rewrites
  split at rewrites
  · cases rewrites
  next letter =>
  split at rewrites
  · cases rewrites
  split at rewrites
  · next range =>
    obtain ⟨rfl, rfl⟩ := Prod.mk.inj (Option.some.inj rewrites)
    have nextNonzero : (utf8ToCodepoint (front.drop (utf8ToCodepoint front).2)).1 ≠ 0 := by
      intro zero
      rw [zero] at range
      exact absurd range.2.1 (by decide)
    have size : sizeOfCode (utf8ToCodepoint front).1 = 3 ∨
        sizeOfCode (utf8ToCodepoint front).1 = 1 := by
      rw [not_and_or, not_not, not_not] at letter
      rcases letter with half | full
      · exact .inr (by rw [half]; decide)
      · exact .inl (by rw [full]; decide)
    have nonzero : (utf8ToCodepoint front).1 ≠ 0 := by omega
    apply rewritten_two
    exact replaces_two nonzero nextNonzero (by decide)
      ⟨le_trans (by decide) range.2.1, le_trans range.2.2 (by decide)⟩ size
  · cases rewrites

theorem rewriteYu_cases (rewrites : rewriteYu keyPos front = some (mblen, output)) :
    Rewritten front mblen output := by
  unfold rewriteYu at rewrites
  dsimp only at rewrites
  split at rewrites
  · cases rewrites
  next letter =>
  split at rewrites
  · cases rewrites
  split at rewrites
  · cases rewrites
  next small =>
  split at rewrites
  · cases rewrites
  split at rewrites
  · cases rewrites
  obtain ⟨rfl, rfl⟩ := Prod.mk.inj (Option.some.inj rewrites)
  rw [not_not] at small
  rw [small]
  refine ⟨[_, _], [(utf8ToCodepoint front).1, 0x3085, 0x3046], ⟨rfl, rfl, trivial⟩, rfl,
    replaces_of_ne (List.cons_ne_nil _ _) ?_ (List.cons_ne_nil _ _) ?_ ?_, ?_⟩
  · simp only [List.map_cons, List.map_nil, List.mem_cons, List.not_mem_nil, or_false]
    omega
  · simp only [List.forall_mem_cons, List.not_mem_nil, false_implies, implies_true, and_true]
    exact ⟨⟨by omega, isValidChar_of_lt (by omega)⟩, by decide, by decide⟩
  · have more : 0 < sizeOfCode 0x3046 := by decide
    simp only [List.map_cons, List.map_nil, List.sum_cons, List.sum_nil, small]
    omega
  · simp only [List.flatMap_cons, List.flatMap_nil, List.append_nil, List.append_assoc]

theorem rewriteDoubleNN_cases (rewrites : rewriteDoubleNN keyPos front = some (mblen, output)) :
    Rewritten front mblen output := by
  unfold rewriteDoubleNN at rewrites
  split at rewrites
  · next first m₁ d m₂ e m₃ behind matches_ =>
    obtain ⟨reads, fits⟩ := readsChars_of_matchPattern matches_
    simp [kDoubleNNPattern] at fits
    obtain ⟨⟨-, letter⟩, rfl, rfl⟩ := fits
    split at rewrites
    · cases rewrites
    dsimp only at rewrites
    split at rewrites
    · cases rewrites
    next zero =>
    rw [not_or] at zero
    split at rewrites
    · cases rewrites
    obtain ⟨nonzero, less, proper⟩ := hiragana letter
    have fewer := sizeOfCode_asUint16 first
    have three : sizeOfCode 0x3093 = 3 := by decide
    split at rewrites
    · obtain ⟨rfl, rfl⟩ := Prod.mk.inj (Option.some.inj rewrites)
      refine ⟨[(first, m₁), (0x3093, m₂)], [asUint16 first], ⟨reads.1, reads.2.1, trivial⟩, ?_,
        replaces_of_ne (List.cons_ne_nil _ _) ?_ (List.cons_ne_nil _ _) ?_ ?_, ?_⟩
      · rw [utf8ToCodepoint_size reads.2.1 (by decide) (by decide), three]
        rfl
      · simp [nonzero.symm]
      · simpa using ⟨zero.1, proper⟩
      · simp only [List.map_cons, List.map_nil, List.sum_cons, List.sum_nil]
        omega
      · rw [List.flatMap_singleton]
    · obtain ⟨rfl, rfl⟩ := Prod.mk.inj (Option.some.inj rewrites)
      refine ⟨_, [asUint16 first, 0x3093], reads, ?_,
        replaces_of_ne (List.cons_ne_nil _ _) ?_ (List.cons_ne_nil _ _) ?_ ?_, ?_⟩
      · rw [Nat.add_assoc]
        rfl
      · simp [nonzero.symm]
      · simp only [List.forall_mem_cons, List.not_mem_nil, false_implies, implies_true, and_true]
        exact ⟨⟨zero.1, proper⟩, by decide⟩
      · simp only [List.map_cons, List.map_nil, List.sum_cons, List.sum_nil]
        omega
      · rw [List.flatMap_cons, List.flatMap_singleton]
  · cases rewrites

theorem rewriteSmallTSU_cases (rewrites : rewriteSmallTSU keyPos front = some (mblen, output)) :
    Rewritten front mblen output := by
  unfold rewriteSmallTSU at rewrites
  split at rewrites
  · next first m₁ d m₂ e m₃ last m₄ behind matches_ =>
    obtain ⟨reads, fits⟩ := readsChars_of_matchPattern matches_
    simp [kSmallTSUPattern] at fits
    obtain ⟨⟨-, letter⟩, rfl, rfl, -, letter'⟩ := fits
    dsimp only at rewrites
    split at rewrites
    · cases rewrites
    next zero =>
    rw [not_or] at zero
    obtain ⟨rfl, rfl⟩ := Prod.mk.inj (Option.some.inj rewrites)
    obtain ⟨nonzero, less, proper⟩ := hiragana letter
    obtain ⟨nonzero', less', proper'⟩ := hiragana letter'
    have fewer := sizeOfCode_asUint16 first
    have fewer' := sizeOfCode_asUint16 last
    have three : sizeOfCode 0x3063 = 3 := by decide
    refine ⟨_, [asUint16 first, 0x3063, asUint16 last], reads, ?_,
      replaces_of_ne (List.cons_ne_nil _ _) ?_ (List.cons_ne_nil _ _) ?_ ?_, ?_⟩
    · rw [Nat.add_assoc, Nat.add_assoc]
      rfl
    · simp [nonzero.symm, nonzero'.symm]
    · simp only [List.forall_mem_cons, List.not_mem_nil, false_implies, implies_true, and_true]
      exact ⟨⟨zero.1, proper⟩, by decide, zero.2, proper'⟩
    · simp only [List.map_cons, List.map_nil, List.sum_cons, List.sum_nil]
      omega
    · simp only [List.flatMap_cons, List.flatMap_nil, List.append_nil, List.append_assoc]
  · cases rewrites

/-- **What a rule does**, whichever it is. -/
theorem rewrite_cases (rewrites : rewrite keyPos front = some (mblen, output)) :
    Rewritten front mblen output := by
  unfold rewrite at rewrites
  simp only [Option.orElse_eq_or, Option.or_eq_some_iff] at rewrites
  rcases rewrites with doubleNN | ⟨-, nn | ⟨-, yu | ⟨-, ni | ⟨-, smallTSU | ⟨-, m⟩⟩⟩⟩⟩
  · exact rewriteDoubleNN_cases doubleNN
  · exact rewriteNN_cases nn
  · exact rewriteYu_cases yu
  · exact rewriteNI_cases ni
  · exact rewriteSmallTSU_cases smallTSU
  · exact rewriteM_cases m

theorem Rewritten.pos (rewritten : Rewritten front mblen output) : 0 < mblen := by
  obtain ⟨chars, others, reads, rfl, replaces, -⟩ := rewritten
  cases chars with
  | nil => exact absurd rfl replaces.codesSome
  | cons char chars =>
      obtain ⟨rfl, -⟩ := reads
      have nonzero : (utf8ToCodepoint front).1 ≠ 0 := by
        intro zero
        exact replaces.codesNonzero (List.mem_cons.2 (.inl zero.symm))
      rw [List.map_cons, List.sum_cons]
      exact Nat.add_pos_left (utf8ToCodepoint_pos nonzero) _

end Rules

/-! ## Texts of characters -/

/-- The bytes of a character. -/
def charSize (c : Char) : Nat := (String.utf8EncodeChar c).length

/-- Characters, and those that take their place: where these have as many bytes together, each of
them has as many as the one whose place it takes. -/
structure Exchange (chars others : List Char) : Prop where
  charsSome : chars ≠ []
  othersSome : others ≠ []
  aligned : (utf8 chars).length = (utf8 others).length →
    chars.map charSize = others.map charSize

theorem length_utf8 (text : List Char) : (utf8 text).length = (text.map charSize).sum :=
  List.length_flatMap

theorem utf8_append (text more : List Char) : utf8 (text ++ more) = utf8 text ++ utf8 more :=
  List.flatMap_append

theorem sizeOfCode_toNat {c : Char} (nonzero : c.toNat ≠ 0) : sizeOfCode c.toNat = charSize c := by
  rw [sizeOfCode, codepointToUtf8_toNat nonzero]
  rfl

theorem utf8ToCodepoint_utf8 (c : Char) (text : List Char) :
    utf8ToCodepoint (utf8 (c :: text)) = (c.toNat, charSize c) := by
  rw [utf8_cons, utf8ToCodepoint, splitFirstChar32_utf8EncodeChar]
  dsimp only
  rw [List.length_append, Nat.add_sub_cancel]
  rfl

theorem drop_charSize (c : Char) (text : List Char) :
    (utf8 (c :: text)).drop (charSize c) = utf8 text := by
  rw [utf8_cons]
  exact List.drop_left

/-- What is read from a text are its characters. -/
theorem readsChars_utf8 {text : List Char} {chars : List (Nat × Nat)}
    (reads : ReadsChars (utf8 text) chars) (nonzero : 0 ∉ chars.map Prod.fst) :
    ∃ front behind, text = front ++ behind ∧
      chars = front.map fun c => (c.toNat, charSize c) := by
  induction chars generalizing text with
  | nil => exact ⟨[], text, rfl, rfl⟩
  | cons char chars ih =>
      obtain ⟨is, reads⟩ := reads
      rw [List.map_cons, List.mem_cons, not_or] at nonzero
      cases text with
      | nil =>
          subst is
          exact absurd rfl nonzero.1
      | cons c text =>
          rw [utf8ToCodepoint_utf8] at is
          subst is
          rw [drop_charSize] at reads
          obtain ⟨front, behind, rfl, rfl⟩ := ih reads nonzero.2
          exact ⟨c :: front, behind, rfl, rfl⟩

theorem exists_chars {codes : List Nat} (proper : ∀ c ∈ codes, c ≠ 0 ∧ c.isValidChar) :
    ∃ text : List Char, codes = text.map Char.toNat ∧
      codes.flatMap codepointToUtf8 = utf8 text ∧ ∀ c ∈ text, c.toNat ≠ 0 := by
  induction codes with
  | nil => exact ⟨[], rfl, rfl, fun c member => absurd member List.not_mem_nil⟩
  | cons code codes ih =>
      rw [List.forall_mem_cons] at proper
      obtain ⟨text, rfl, is, nonzero⟩ := ih proper.2
      obtain ⟨c, rfl⟩ : ∃ c : Char, c.toNat = code := ⟨Char.ofNatAux code proper.1.2, rfl⟩
      refine ⟨c :: text, rfl, ?_, List.forall_mem_cons.2 ⟨proper.1.1, nonzero⟩⟩
      rw [List.flatMap_cons, is, utf8_cons, codepointToUtf8_toNat proper.1.1]

/-- **A rule rewrites characters** of a text. -/
theorem Rewritten.exchange {text : List Char} {mblen : Nat} {output : ByteString}
    (rewritten : Rewritten (utf8 text) mblen output) :
    ∃ front behind others, text = front ++ behind ∧ mblen = (utf8 front).length ∧
      output = utf8 others ∧ Exchange front others := by
  obtain ⟨chars, codes, reads, rfl, replaces, rfl⟩ := rewritten
  obtain ⟨front, behind, rfl, rfl⟩ := readsChars_utf8 reads replaces.codesNonzero
  obtain ⟨others, rfl, is, othersNonzero⟩ := exists_chars replaces.othersProper
  have sizes : (front.map fun c => (c.toNat, charSize c)).map Prod.snd = front.map charSize := by
    rw [List.map_map]
    rfl
  have codes : (front.map fun c => (c.toNat, charSize c)).map Prod.fst = front.map Char.toNat := by
    rw [List.map_map]
    rfl
  rw [codes] at replaces
  refine ⟨front, behind, others, rfl, ?_, is, ?_, ?_, ?_⟩
  · rw [sizes, length_utf8]
  · rintro rfl
    exact replaces.codesSome rfl
  · rintro rfl
    exact replaces.othersSome rfl
  · intro same
    have frontSizes : (front.map Char.toNat).map sizeOfCode = front.map charSize := by
      rw [List.map_map]
      apply List.map_congr_left
      intro c member
      exact sizeOfCode_toNat fun zero => replaces.codesNonzero (zero ▸ List.mem_map_of_mem member)
    have otherSizes : (others.map Char.toNat).map sizeOfCode = others.map charSize := by
      rw [List.map_map]
      exact List.map_congr_left fun c member => sizeOfCode_toNat (othersNonzero c member)
    have aligned := replaces.aligned
    rw [frontSizes, otherSizes, ← length_utf8, ← length_utf8] at aligned
    refine aligned (fun code member => ?_) same
    obtain ⟨c, -, rfl⟩ := List.mem_map.1 member
    exact c.valid

end Mozkey.Converter
