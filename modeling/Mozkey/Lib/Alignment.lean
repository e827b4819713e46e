import Mathlib

/-!
# Alignments of two texts

Two texts are cut into as many units, and each unit of the one stands for the unit of the other at
the same place.  Units of the same length are aligned position by position, other units only where
they start.  Two tables hold the positions that are aligned; each of them is computed from the
lengths of the units.

The tables are inverse to each other and monotone.
-/

namespace Mozkey.Lib

/-- The positions that a unit of some length is aligned with. -/
def unitTable (start length other : Nat) : List (Option Nat) :=
  if length = other then (List.range length).map fun d => some (start + d)
  else some start :: List.replicate (length - 1) none

/-- The positions that a text is aligned with, from the lengths of its units and of the others. -/
def alignmentTable : Nat → List (Nat × Nat) → List (Option Nat)
  | _, [] => []
  | start, (length, other) :: units =>
      unitTable start length other ++ alignmentTable (start + other) units

/-- Two positions that are aligned, where the units start at other ones. -/
def Aligned : Nat → Nat → List (Nat × Nat) → Nat → Nat → Prop
  | _, _, [], _, _ => False
  | start, otherStart, (length, other) :: units, i, j =>
      (∃ d, i = start + d ∧ j = otherStart + d ∧ (d = 0 ∨ length = other ∧ d < length)) ∨
        Aligned (start + length) (otherStart + other) units i j

/-- The lengths of the units before the first `k`. -/
def unitStart (units : List (Nat × Nat)) (k : Nat) : Nat := ((units.take k).map Prod.fst).sum

theorem length_unitTable {start length other : Nat} (positive : 0 < length) :
    (unitTable start length other).length = length := by
  unfold unitTable
  split
  · rw [List.length_map, List.length_range]
  · rw [List.length_cons, List.length_replicate]
    omega

section Tables

variable {start otherStart i j : Nat} {units : List (Nat × Nat)}

theorem length_alignmentTable (positive : ∀ unit ∈ units, 0 < unit.1) (start : Nat) :
    (alignmentTable start units).length = (units.map Prod.fst).sum := by
  induction units generalizing start with
  | nil => rfl
  | cons unit units ih =>
      rw [List.forall_mem_cons] at positive
      rw [alignmentTable, List.length_append, length_unitTable positive.1, ih positive.2,
        List.map_cons, List.sum_cons]

theorem Aligned.swap (aligned : Aligned start otherStart units i j) :
    Aligned otherStart start (units.map Prod.swap) j i := by
  induction units generalizing start otherStart with
  | nil => exact aligned
  | cons unit units ih =>
      rcases aligned with ⟨d, rfl, rfl, first | inside⟩ | behind
      · exact .inl ⟨d, rfl, rfl, .inl first⟩
      · exact .inl ⟨d, rfl, rfl, .inr ⟨inside.1.symm, inside.1 ▸ inside.2⟩⟩
      · exact .inr (ih behind)

theorem aligned_swap :
    Aligned otherStart start (units.map Prod.swap) j i ↔ Aligned start otherStart units i j := by
  refine ⟨fun aligned => ?_, Aligned.swap⟩
  have back := aligned.swap
  rwa [List.map_map, Prod.swap_swap_eq, List.map_id] at back

theorem Aligned.le (aligned : Aligned start otherStart units i j) :
    start ≤ i ∧ otherStart ≤ j := by
  induction units generalizing start otherStart with
  | nil => exact aligned.elim
  | cons unit units ih =>
      rcases aligned with ⟨d, rfl, rfl, -⟩ | behind
      · exact ⟨Nat.le_add_right _ _, Nat.le_add_right _ _⟩
      · have later := ih behind
        omega

/-- Aligned positions are inside the text. -/
theorem Aligned.lt_end (positive : ∀ unit ∈ units, 0 < unit.1)
    (aligned : Aligned start otherStart units i j) : i < start + (units.map Prod.fst).sum := by
  induction units generalizing start otherStart with
  | nil => exact aligned.elim
  | cons unit units ih =>
      rw [List.forall_mem_cons] at positive
      have some_ := positive.1
      rw [List.map_cons, List.sum_cons]
      rcases aligned with ⟨d, rfl, -, here⟩ | behind
      · omega
      · have later := ih positive.2 behind
        omega

/-- An aligned position is that many positions behind the start of a unit. -/
theorem Aligned.exists_unit (aligned : Aligned start otherStart units i j) :
    ∃ (k : Nat) (inside : k < units.length) (d : Nat), i = start + unitStart units k + d ∧
      j = otherStart + unitStart (units.map Prod.swap) k + d ∧
      (d = 0 ∨ units[k].1 = units[k].2 ∧ d < units[k].1) := by
  induction units generalizing start otherStart with
  | nil => exact aligned.elim
  | cons unit units ih =>
      rcases aligned with ⟨d, rfl, rfl, here⟩ | behind
      · exact ⟨0, Nat.zero_lt_succ _, d, rfl, rfl, here⟩
      · obtain ⟨k, inside, d, rfl, rfl, here⟩ := ih behind
        refine ⟨k + 1, Nat.succ_lt_succ inside, d, ?_, ?_, here⟩
        · rw [unitStart, unitStart, List.take_succ_cons, List.map_cons, List.sum_cons]
          omega
        · rw [unitStart, unitStart, List.map_cons, List.take_succ_cons, List.map_cons,
            List.sum_cons, Prod.fst_swap]
          omega

/-- **The table of a text** holds the positions that are aligned. -/
theorem join_getElem?_alignmentTable (positive : ∀ unit ∈ units, 0 < unit.1) (n : Nat) :
    ((alignmentTable otherStart units)[n]?).join = some j ↔
      Aligned start otherStart units (start + n) j := by
  induction units generalizing start otherStart n with
  | nil => simp [alignmentTable, Aligned]
  | cons unit units ih =>
      rw [List.forall_mem_cons] at positive
      obtain ⟨length, other⟩ := unit
      have whole : (unitTable otherStart length other).length = length :=
        length_unitTable positive.1
      rw [alignmentTable, Aligned]
      by_cases inside : n < length
      · have notBehind : ¬ Aligned (start + length) (otherStart + other) units (start + n) j := by
          intro behind
          have later := behind.le.1
          omega
        rw [List.getElem?_append_left (by omega), or_iff_left notBehind]
        unfold unitTable
        split
        · next same =>
          rw [List.getElem?_map, List.getElem?_range inside]
          constructor
          · intro is
            exact ⟨n, rfl, (Option.some.inj is).symm, .inr ⟨same, inside⟩⟩
          · rintro ⟨d, is, rfl, -⟩
            rw [Nat.add_left_cancel is]
            rfl
        · next differ =>
          cases n with
          | zero =>
              constructor
              · intro is
                exact ⟨0, rfl, (Option.some.inj is).symm, .inl rfl⟩
              · rintro ⟨d, is, rfl, -⟩
                rw [← Nat.add_left_cancel is]
                rfl
          | succ n =>
              rw [List.getElem?_cons_succ, List.getElem?_replicate, if_pos (by omega)]
              constructor
              · intro is
                cases is
              · rintro ⟨d, is, -, first | inside'⟩
                · omega
                · exact absurd inside'.1 differ
      · have notHere : ¬ ∃ d, start + n = start + d ∧ j = otherStart + d ∧
            (d = 0 ∨ length = other ∧ d < length) := by
          rintro ⟨d, is, -, here⟩
          have some_ : 0 < length := positive.1
          omega
        rw [List.getElem?_append_right (by omega), or_iff_right notHere, whole,
          ← Nat.add_sub_cancel' (Nat.le_of_not_lt inside), ← Nat.add_assoc,
          Nat.add_sub_cancel_left]
        exact ih positive.2 _

/-- Aligned positions come in the same order in both texts. -/
theorem Aligned.lt {i' j' : Nat} (positive : ∀ unit ∈ units, 0 < unit.1 ∧ 0 < unit.2)
    (aligned : Aligned start otherStart units i j)
    (aligned' : Aligned start otherStart units i' j') (less : i < i') : j < j' := by
  induction units generalizing start otherStart with
  | nil => exact aligned.elim
  | cons unit units ih =>
      rw [List.forall_mem_cons] at positive
      obtain ⟨some_, otherSome⟩ := positive.1
      rcases aligned with ⟨d, rfl, rfl, here⟩ | behind
      · rcases aligned' with ⟨d', rfl, rfl, here'⟩ | behind'
        · omega
        · have later := behind'.le.2
          omega
      · rcases aligned' with ⟨d', rfl, rfl, here'⟩ | behind'
        · have later := behind.le.1
          omega
        · exact ih positive.2 behind behind'

end Tables

end Mozkey.Lib
