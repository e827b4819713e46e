import Mathlib

/-!
# Occurrences of a list in a list

Programs look for a needle from left to right and go on behind each find.  The finds
are pairwise disjoint and cut the list into pieces; replacing them joins the pieces
with other text.  What happens in front of a find, at a find and elsewhere is said
once, and proofs go by this recursion (`greedy_induction`).
-/

namespace Mozkey.Lib

variable {α : Type*}

theorem intercalate_modifyHead (new : List α) (x : α) {parts : List (List α)}
    (some_ : parts ≠ []) :
    new.intercalate (parts.modifyHead (x :: ·)) = x :: new.intercalate parts := by
  cases parts with
  | nil => exact absurd rfl some_
  | cons part parts =>
      cases parts with
      | nil => simp
      | cons part' parts => simp

/-! ## Lists that do not overlap -/

/-- Two occurrences of the lists in one list never overlap. -/
def Apart (first second : List α) : Prop :=
  ∀ before after front back, before ++ first ++ after = front ++ second ++ back →
    before.length + first.length ≤ front.length ∨ front.length + second.length ≤ before.length

/-- Around an occurrence of the second list, the first one is on one side. -/
theorem Apart.infix_side {first second front back : List α} (apart : Apart first second)
    (inside : first <:+: front ++ second ++ back) : first <:+: front ∨ first <:+: back := by
  obtain ⟨before, after, split⟩ := inside
  rcases apart before after front back split with left | right
  · left
    have whole : before ++ first <+: front ++ second ++ back := ⟨after, split⟩
    have start : before ++ first <+: front :=
      List.prefix_of_prefix_length_le whole ⟨second ++ back, by simp⟩ (by simpa using left)
    exact (List.suffix_append before first).isInfix.trans start.isInfix
  · right
    have whole : first ++ after <:+ front ++ second ++ back := ⟨before, by simpa using split⟩
    have lengths := congrArg List.length split
    simp only [List.length_append] at lengths
    have stop : first ++ after <:+ back :=
      List.suffix_of_suffix_length_le whole ⟨front ++ second, rfl⟩ (by
        rw [List.length_append]
        omega)
    exact (List.prefix_append first after).isInfix.trans stop.isInfix

/-! ## Finds -/

variable [DecidableEq α]

/-- Where the needle is found, going on behind each find: `skip` elements belong to the
last find, and the list starts at the index. -/
def occurrencesFrom (needle : List α) : Nat → Nat → List α → List Nat
  | _, _, [] => []
  | skip + 1, index, _ :: rest => occurrencesFrom needle skip (index + 1) rest
  | 0, index, x :: rest =>
      if needle.isPrefixOf (x :: rest) then
        index :: occurrencesFrom needle (needle.length - 1) (index + 1) rest
      else occurrencesFrom needle 0 (index + 1) rest

/-- The finds of a nonempty needle. -/
def occurrences (needle hay : List α) : List Nat := occurrencesFrom needle 0 0 hay

/-- The pieces between the finds. -/
def piecesFrom (needle : List α) : Nat → List α → List (List α)
  | _, [] => [[]]
  | skip + 1, _ :: rest => piecesFrom needle skip rest
  | 0, x :: rest =>
      if needle.isPrefixOf (x :: rest) then [] :: piecesFrom needle (needle.length - 1) rest
      else (piecesFrom needle 0 rest).modifyHead (x :: ·)

/-- The pieces into which the finds cut a list. -/
def pieces (needle hay : List α) : List (List α) := piecesFrom needle 0 hay

/-- Writes something else over each find. -/
def replaceAll (needle new hay : List α) : List α := new.intercalate (pieces needle hay)

/-! ## The recursion -/

section Recursion

variable {needle : List α}

theorem occurrencesFrom_skip (skipped rest : List α) (index : Nat) :
    occurrencesFrom needle skipped.length index (skipped ++ rest) =
      occurrencesFrom needle 0 (index + skipped.length) rest := by
  induction skipped generalizing index with
  | nil => rfl
  | cons x skipped ih =>
      rw [List.length_cons, List.cons_append, occurrencesFrom, ih]
      congr 1
      omega

theorem occurrencesFrom_index (skip index : Nat) (hay : List α) :
    occurrencesFrom needle skip index hay =
      (occurrencesFrom needle skip 0 hay).map (· + index) := by
  induction hay generalizing skip index with
  | nil => simp [occurrencesFrom]
  | cons x rest ih =>
      cases skip with
      | succ skip =>
          rw [occurrencesFrom, occurrencesFrom, ih, ih skip (0 + 1), List.map_map]
          congr 1
          funext i
          simp only [Function.comp]
          omega
      | zero =>
          have shift : ∀ s, occurrencesFrom needle s (index + 1) rest =
              (occurrencesFrom needle s (0 + 1) rest).map (· + index) := by
            intro s
            rw [ih, ih s (0 + 1), List.map_map]
            congr 1
            funext i
            simp only [Function.comp]
            omega
          rw [occurrencesFrom, occurrencesFrom]
          split
          · simp [shift]
          · rw [shift]

theorem piecesFrom_skip (skipped rest : List α) :
    piecesFrom needle skipped.length (skipped ++ rest) = piecesFrom needle 0 rest := by
  induction skipped with
  | nil => rfl
  | cons x skipped ih => exact ih

@[simp] theorem occurrences_nil : occurrences needle [] = [] := rfl

@[simp] theorem pieces_nil : pieces needle [] = [[]] := rfl

variable (nonempty : needle ≠ [])
include nonempty

/-- A find. -/
theorem occurrences_find (rest : List α) :
    occurrences needle (needle ++ rest) = 0 :: (occurrences needle rest).map (· + needle.length) := by
  cases needle with
  | nil => exact absurd rfl nonempty
  | cons y ys =>
      have here : (y :: ys).isPrefixOf (y :: (ys ++ rest)) = true := by simp
      rw [occurrences, List.cons_append, occurrencesFrom, if_pos here, List.length_cons,
        Nat.add_sub_cancel, occurrencesFrom_skip, occurrencesFrom_index, occurrences]
      simp [Nat.add_comm]

theorem pieces_find (rest : List α) :
    pieces needle (needle ++ rest) = [] :: pieces needle rest := by
  cases needle with
  | nil => exact absurd rfl nonempty
  | cons y ys =>
      have here : (y :: ys).isPrefixOf (y :: (ys ++ rest)) = true := by simp
      rw [pieces, List.cons_append, piecesFrom, if_pos here, List.length_cons,
        Nat.add_sub_cancel, piecesFrom_skip, pieces]

omit nonempty

/-- No find here. -/
theorem occurrences_skip {x : α} {rest : List α} (elsewhere : ¬ needle <+: x :: rest) :
    occurrences needle (x :: rest) = (occurrences needle rest).map (· + 1) := by
  have absent : ¬ needle.isPrefixOf (x :: rest) = true := by simpa using elsewhere
  rw [occurrences, occurrencesFrom, if_neg absent, occurrencesFrom_index, occurrences]

theorem pieces_skip {x : α} {rest : List α} (elsewhere : ¬ needle <+: x :: rest) :
    pieces needle (x :: rest) = (pieces needle rest).modifyHead (x :: ·) := by
  have absent : ¬ needle.isPrefixOf (x :: rest) = true := by simpa using elsewhere
  rw [pieces, piecesFrom, if_neg absent, pieces]

include nonempty

/-- The recursion of a search from left to right. -/
theorem greedy_induction {motive : List α → Prop} (nil : motive [])
    (find : ∀ rest, motive rest → motive (needle ++ rest))
    (skip : ∀ x rest, ¬ needle <+: x :: rest → motive rest → motive (x :: rest)) (hay : List α) :
    motive hay := by
  induction length : hay.length using Nat.strong_induction_on generalizing hay with
  | _ n ih =>
      cases hay with
      | nil => exact nil
      | cons x rest =>
          by_cases here : needle <+: x :: rest
          · obtain ⟨after, split⟩ := here
            rw [← split] at length ⊢
            have shorter := List.length_pos_of_ne_nil nonempty
            rw [List.length_append] at length
            exact find after (ih after.length (by omega) after rfl)
          · rw [List.length_cons] at length
            exact skip x rest here (ih rest.length (by omega) rest rfl)

/-! ## Pieces and finds -/

theorem pieces_ne_nil (hay : List α) : pieces needle hay ≠ [] := by
  induction hay using greedy_induction nonempty with
  | nil => simp
  | find rest _ => simp [pieces_find nonempty]
  | skip x rest elsewhere ih =>
      rw [pieces_skip elsewhere]
      simpa [List.modifyHead_eq_nil_iff] using ih

theorem replaceAll_find (new rest : List α) :
    replaceAll needle new (needle ++ rest) = new ++ replaceAll needle new rest := by
  rw [replaceAll, pieces_find nonempty, List.intercalate_cons_of_ne_nil (pieces_ne_nil nonempty rest),
    replaceAll]
  simp

theorem replaceAll_skip (new : List α) {x : α} {rest : List α}
    (elsewhere : ¬ needle <+: x :: rest) :
    replaceAll needle new (x :: rest) = x :: replaceAll needle new rest := by
  rw [replaceAll, pieces_skip elsewhere, intercalate_modifyHead new x
    (pieces_ne_nil nonempty rest), replaceAll]

/-- The needle is found exactly when it is there. -/
theorem occurrences_eq_nil_iff {hay : List α} :
    occurrences needle hay = [] ↔ ¬ needle <:+: hay := by
  induction hay using greedy_induction nonempty with
  | nil =>
      simp only [occurrences_nil, true_iff]
      intro inside
      exact nonempty (List.eq_nil_of_infix_nil inside)
  | find rest _ =>
      simp only [occurrences_find nonempty, reduceCtorEq, false_iff, not_not]
      exact (List.prefix_append _ _).isInfix
  | skip x rest elsewhere ih =>
      rw [occurrences_skip elsewhere, List.map_eq_nil_iff, ih, List.infix_cons_iff]
      simp [elsewhere]

/-- Where the needle is not, nothing is replaced. -/
theorem replaceAll_of_not_infix (new : List α) {hay : List α} (absent : ¬ needle <:+: hay) :
    replaceAll needle new hay = hay := by
  induction hay using greedy_induction nonempty with
  | nil => simp [replaceAll]
  | find rest _ => exact absurd (List.prefix_append _ _).isInfix absent
  | skip x rest elsewhere ih =>
      rw [replaceAll_skip nonempty new elsewhere, ih fun inside => absent (List.infix_cons inside)]

/-- What stands around a find. -/
theorem split_of_mem_occurrences {hay : List α} {pos : Nat}
    (found : pos ∈ occurrences needle hay) :
    ∃ front back, hay = front ++ needle ++ back ∧ front.length = pos := by
  induction hay using greedy_induction nonempty generalizing pos with
  | nil => simp at found
  | find rest ih =>
      rw [occurrences_find nonempty, List.mem_cons, List.mem_map] at found
      rcases found with rfl | ⟨later, isLater, rfl⟩
      · exact ⟨[], rest, rfl, rfl⟩
      · obtain ⟨front, back, rfl, rfl⟩ := ih isLater
        exact ⟨needle ++ front, back, by simp, by simp [Nat.add_comm]⟩
  | skip x rest elsewhere ih =>
      rw [occurrences_skip elsewhere, List.mem_map] at found
      obtain ⟨later, isLater, rfl⟩ := found
      obtain ⟨front, back, rfl, rfl⟩ := ih isLater
      exact ⟨x :: front, back, by simp, by simp⟩

/-- No occurrence of the needle that begins in front of the index reaches beyond it. -/
def NotReached (needle hay : List α) (pos : Nat) : Prop :=
  ∀ p < pos, pos < p + needle.length → ¬ needle <+: hay.drop p

/-- A single find cuts the list into two parts without the needle. -/
theorem split_of_single {hay : List α} (single : (occurrences needle hay).length = 1) :
    ∃ before after, hay = before ++ needle ++ after ∧
      ¬ needle <:+: before ∧ ¬ needle <:+: after ∧
        ∀ new, replaceAll needle new hay = before ++ new ++ after := by
  induction hay using greedy_induction nonempty with
  | nil => simp at single
  | find rest _ =>
      rw [occurrences_find nonempty, List.length_cons, List.length_map, Nat.add_eq_right,
        List.length_eq_zero_iff, occurrences_eq_nil_iff nonempty] at single
      refine ⟨[], rest, rfl, ?_, single, ?_⟩
      · intro inside
        exact nonempty (List.eq_nil_of_infix_nil inside)
      · intro new
        rw [replaceAll_find nonempty, replaceAll_of_not_infix nonempty new single]
        rfl
  | skip x rest elsewhere ih =>
      rw [occurrences_skip elsewhere, List.length_map] at single
      obtain ⟨before, after, rfl, first, second, replaced⟩ := ih single
      refine ⟨x :: before, after, by simp, ?_, second, ?_⟩
      · intro inside
        rcases List.infix_cons_iff.1 inside with here | later
        · apply elsewhere
          have longer := here.trans (List.prefix_append (x :: before) (needle ++ after))
          simpa using longer
        · exact first later
      · intro new
        rw [replaceAll_skip nonempty new elsewhere, replaced]
        simp

/-- There are at most as many finds as there are copies of an element of the needle. -/
theorem length_occurrences_le_count {x : α} (member : x ∈ needle) (hay : List α) :
    (occurrences needle hay).length ≤ hay.count x := by
  induction hay using greedy_induction nonempty with
  | nil => simp
  | find rest ih =>
      have one := List.count_pos_iff.2 member
      rw [occurrences_find nonempty, List.length_cons, List.length_map, List.count_append]
      omega
  | skip y rest elsewhere ih =>
      rw [occurrences_skip elsewhere, List.length_map]
      exact ih.trans (List.count_le_count_cons)

end Recursion

end Mozkey.Lib
