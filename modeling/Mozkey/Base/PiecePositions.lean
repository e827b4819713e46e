import Mathlib

/-!
# Positions in two measures

A text is made of pieces, and every piece has a width in two measures.  A position in the one measure
is carried over to the other one: the pieces in front of it count with their other widths, and inside
a piece the position is kept as far as the piece reaches there.
-/

namespace Mozkey.Pieces

/-- The width of a piece in the one and in the other measure. -/
abbrev Widths := Nat × Nat

/-- A position inside a piece: both ends are kept. -/
def carryInside (w : Widths) (inner : Nat) : Nat :=
  if inner = 0 then 0 else if inner = w.1 then w.2 else min inner w.2

/-- A position is in the first piece that reaches it, and behind all of them at the end of the last
one. -/
def carry : List Widths → Nat → Nat
  | [], _ => 0
  | [w], position => carryInside w (min position w.1)
  | w :: next :: rest, position =>
      if w.1 < position then w.2 + carry (next :: rest) (position - w.1) else carryInside w position

variable {w : Widths} {ws : List Widths} {p q : Nat}

theorem carryInside_le (w : Widths) (inner : Nat) : carryInside w inner ≤ w.2 := by
  unfold carryInside
  split_ifs
  · exact Nat.zero_le _
  · exact le_rfl
  · exact Nat.min_le_right _ _

theorem carryInside_mono (le : p ≤ q) (inside : q ≤ w.1) : carryInside w p ≤ carryInside w q := by
  unfold carryInside
  split_ifs with pStart qStart qEnd pEnd qStart' qEnd' qStart' qEnd'
  · exact le_rfl
  · exact Nat.zero_le _
  · exact Nat.zero_le _
  · exact absurd (Nat.le_zero.1 (qStart' ▸ le)) pStart
  · exact le_rfl
  · exact absurd (Nat.le_antisymm inside (pEnd ▸ le)) qEnd'
  · exact absurd (Nat.le_zero.1 (qStart' ▸ le)) pStart
  · exact Nat.min_le_right _ _
  · exact min_le_min_right _ le

/-- The beginning is carried to the beginning. -/
theorem carry_zero (ws : List Widths) : carry ws 0 = 0 := by
  cases ws with
  | nil => rfl
  | cons w rest =>
      cases rest with
      | nil =>
          rw [carry, Nat.zero_min]
          exact if_pos rfl
      | cons next rest =>
          rw [carry, if_neg (Nat.not_lt_zero _)]
          exact if_pos rfl

/-- **Positions keep their order.** -/
theorem carry_mono (le : p ≤ q) : carry ws p ≤ carry ws q := by
  induction ws generalizing p q with
  | nil => exact le_rfl
  | cons w rest ih =>
      cases rest with
      | nil => exact carryInside_mono (min_le_min_right _ le) (Nat.min_le_right _ _)
      | cons next rest =>
          rw [carry, carry]
          split_ifs with pBehind qBehind qBehind
          · exact Nat.add_le_add_left (ih (Nat.sub_le_sub_right le _)) _
          · exact absurd (pBehind.trans_le le) qBehind
          · exact (carryInside_le w p).trans (Nat.le_add_right _ _)
          · exact carryInside_mono le (Nat.le_of_not_lt qBehind)

/-- What is behind the last piece that has a width in the one measure has none in the other one. -/
def TailIsEmpty (ws : List Widths) : Prop :=
  ∀ front behind, ws = front ++ behind → (∀ w ∈ behind, w.1 = 0) → ∀ w ∈ behind, w.2 = 0

theorem tailIsEmpty_cons :
    TailIsEmpty (w :: ws) ↔
      TailIsEmpty ws ∧ ((∀ v ∈ w :: ws, v.1 = 0) → ∀ v ∈ w :: ws, v.2 = 0) := by
  constructor
  · intro empty
    exact ⟨fun front behind parts => empty (w :: front) behind (congrArg (w :: ·) parts),
      empty [] (w :: ws) rfl⟩
  · rintro ⟨empty, all⟩ front behind parts
    cases front with
    | nil =>
        obtain rfl : w :: ws = behind := parts
        exact all
    | cons first front => exact empty front behind (List.cons.inj parts).2

theorem sum_eq_zero_iff_forall (f : Widths → Nat) :
    (ws.map f).sum = 0 ↔ ∀ v ∈ ws, f v = 0 := by
  rw [List.sum_eq_zero_iff, List.forall_mem_map]

theorem carryInside_end (w : Widths) : carryInside w w.1 = if w.1 = 0 then 0 else w.2 := by
  unfold carryInside
  rw [if_pos rfl]

/-- **The end is carried to the end** exactly if the tail is empty. -/
theorem carry_end_iff :
    carry ws (ws.map Prod.fst).sum = (ws.map Prod.snd).sum ↔ TailIsEmpty ws := by
  induction ws with
  | nil =>
      refine iff_of_true rfl fun front behind parts _ v member => ?_
      rw [(List.append_eq_nil_iff.1 parts.symm).2] at member
      cases member
  | cons w rest ih =>
      rw [tailIsEmpty_cons, ← sum_eq_zero_iff_forall, ← sum_eq_zero_iff_forall, ← ih,
        List.map_cons, List.map_cons, List.sum_cons, List.sum_cons]
      cases rest with
      | nil =>
          have inside : carry [w] w.1 = if w.1 = 0 then 0 else w.2 := by
            rw [carry, Nat.min_self, carryInside_end]
          have nothing : carry [] 0 = 0 := rfl
          simp only [List.map_nil, List.sum_nil, Nat.add_zero, inside, nothing, true_and]
          split_ifs with zero
          · exact ⟨fun same _ => same.symm, fun all => (all zero).symm⟩
          · exact iff_of_true rfl fun isZero => absurd isZero zero
      | cons next rest =>
          rw [carry]
          generalize next :: rest = ws
          generalize (ws.map Prod.snd).sum = total
          rcases Nat.eq_zero_or_pos (ws.map Prod.fst).sum with zero | positive
          · rw [zero, Nat.add_zero, if_neg (Nat.lt_irrefl _), carry_zero, carryInside_end]
            split_ifs with isZero <;> omega
          · rw [if_pos (Nat.lt_add_of_pos_right positive), Nat.add_sub_cancel_left,
              Nat.add_left_cancel_iff, and_iff_left]
            intro isZero
            exact absurd (Nat.add_eq_zero_iff.1 isZero).2 positive.ne'

end Mozkey.Pieces
