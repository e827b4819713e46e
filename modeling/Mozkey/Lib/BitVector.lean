import Mathlib

/-!
# Rank and select on bit vectors

A bit vector is a list of bits.  `rank b bits n` counts the bits equal to `b`
before position `n`; `select b bits n` is the position of the `n`-th bit equal to
`b`, counted from one.  Positions are computed through prefixes: what stands
behind a prefix is found by first accounting for the prefix.
-/

namespace Mozkey.Lib

/-- The number of bits equal to `b` before position `n`. -/
def rank (b : Bool) (bits : List Bool) (n : Nat) : Nat := (bits.take n).count b

/-- The position of the `n`-th bit equal to `b`, counted from one. -/
def select (b : Bool) : List Bool → Nat → Nat
  | [], _ => 0
  | _, 0 => 0
  | x :: xs, n + 1 =>
      if x = b then
        match n with
        | 0 => 0
        | n + 1 => select b xs (n + 1) + 1
      else select b xs (n + 1) + 1

variable {b : Bool}

theorem rank_append_length (front back : List Bool) :
    rank b (front ++ back) front.length = front.count b := by
  simp [rank]

/-- A prefix with `k` matching bits is skipped. -/
theorem select_append (front back : List Bool) (n : Nat) :
    select b (front ++ back) (front.count b + (n + 1)) = front.length + select b back (n + 1) := by
  induction front with
  | nil => simp
  | cons x xs ih =>
      by_cases same : x = b
      · subst same
        rw [List.count_cons_self, show xs.count x + 1 + (n + 1) = (xs.count x + n + 1) + 1 by omega]
        show (if x = x then select x (xs ++ back) (xs.count x + n + 1) + 1 else _) = _
        rw [if_pos rfl, show xs.count x + n + 1 = xs.count x + (n + 1) by omega, ih,
          List.length_cons]
        omega
      · rw [List.count_cons_of_ne (Ne.symm (Ne.symm same)),
          show xs.count b + (n + 1) = (xs.count b + n) + 1 by omega]
        show (if x = b then _ else select b (xs ++ back) (xs.count b + n + 1) + 1) = _
        rw [if_neg same, show xs.count b + n + 1 = xs.count b + (n + 1) by omega, ih,
          List.length_cons]
        omega

@[simp] theorem select_cons_self_one (xs : List Bool) : select b (b :: xs) 1 = 0 := by
  simp [select]

/-- The bit is in a prefix that has as many matching bits. -/
theorem select_append_left {front : List Bool} {n : Nat} (enough : n + 1 ≤ front.count b)
    (back : List Bool) : select b (front ++ back) (n + 1) = select b front (n + 1) := by
  induction front generalizing n with
  | nil =>
      rw [List.count_nil] at enough
      omega
  | cons x xs ih =>
      rw [List.cons_append]
      by_cases same : x = b
      · subst same
        rw [List.count_cons_self] at enough
        cases n with
        | zero => rw [select_cons_self_one, select_cons_self_one]
        | succ n =>
            show (if x = x then select x (xs ++ back) (n + 1) + 1 else _)
              = if x = x then select x xs (n + 1) + 1 else _
            rw [if_pos rfl, if_pos rfl, ih (by omega)]
      · rw [List.count_cons_of_ne same] at enough
        show (if x = b then _ else select b (xs ++ back) (n + 1) + 1)
          = if x = b then _ else select b xs (n + 1) + 1
        rw [if_neg same, if_neg same, ih enough]

/-- The bits equal to `b` are the set bits of another vector. -/
theorem select_map (bits : List Bool) (n : Nat) :
    select true (bits.map (· == b)) n = select b bits n := by
  induction bits generalizing n with
  | nil => rfl
  | cons x xs ih =>
      match n with
      | 0 => rfl
      | 1 =>
          show (if (x == b) = true then 0 else select true (xs.map (· == b)) 1 + 1)
            = if x = b then 0 else select b xs 1 + 1
          simp only [beq_iff_eq, ih]
      | n + 2 =>
          show (if (x == b) = true then select true (xs.map (· == b)) (n + 1) + 1
              else select true (xs.map (· == b)) (n + 2) + 1)
            = if x = b then select b xs (n + 1) + 1 else select b xs (n + 2) + 1
          simp only [beq_iff_eq, ih]

theorem rank_mono (bits : List Bool) : Monotone (rank b bits) := by
  intro n m le
  exact (List.take_sublist_take_left le).count_le b

theorem rank_le (bits : List Bool) (n : Nat) : rank b bits n ≤ n :=
  List.count_le_length.trans (List.length_take_le n bits)

theorem rank_of_length_le {bits : List Bool} {n : Nat} (le : bits.length ≤ n) :
    rank b bits n = bits.count b := by
  rw [rank, List.take_of_length_le le]

/-- The two ranks of a position are the position. -/
theorem rank_false_add_rank_true {bits : List Bool} {n : Nat} (le : n ≤ bits.length) :
    rank false bits n + rank true bits n = n := by
  rw [rank, rank, Nat.add_comm]
  have whole := List.count_true_add_count_false (bits.take n)
  rwa [List.length_take, Nat.min_eq_left le] at whole

/-- The number of consecutive bits equal to `b` from a position on. -/
def runLength (b : Bool) (bits : List Bool) : Nat := (bits.takeWhile (· = b)).length

theorem runLength_replicate_append {k : Nat} {other : Bool} {back : List Bool}
    (differs : other ≠ b) : runLength b (List.replicate k b ++ other :: back) = k := by
  unfold runLength
  rw [List.takeWhile_append_of_pos (by simp)]
  simp [differs]

end Mozkey.Lib
