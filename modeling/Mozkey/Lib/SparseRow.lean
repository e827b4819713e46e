import Mozkey.Lib.BitVector

/-!
# Sparse rows under two levels of bits

A row of which most elements are absent is cut into chunks of a fixed width.  One bit a
chunk tells whether the chunk has an element at all; one bit a place, of the chunks that
have one, tells whether there is an element at the place; and the elements follow one
another.  Rank finds the chunk among those that were kept, and the element among the
elements.

What stands behind each of the three lists does not matter, so that they may be padded.
-/

namespace Mozkey.Lib

/-! ## Chunks -/

section Chunks

variable {α : Type*}

/-- Consecutive chunks of `n` elements, the last one truncated. -/
def splitChunk (n : Nat) (xs : List α) : List (List α) :=
  (List.range ((xs.length + n - 1) / n)).map fun k => (xs.drop (n * k)).take n

theorem splitChunk_short {n : Nat} {xs : List α} (nonempty : xs ≠ []) (short : xs.length ≤ n) :
    splitChunk n xs = [xs] := by
  have length := List.length_pos_iff.2 nonempty
  have one : (xs.length + n - 1) / n = 1 := by
    refine Nat.div_eq_of_lt_le ?_ ?_ <;> omega
  rw [splitChunk, one, List.range_one, List.map_singleton, Nat.mul_zero, List.drop_zero,
    List.take_of_length_le short]

theorem splitChunk_append {n : Nat} (positive : 0 < n) {chunk : List α} (length : chunk.length = n)
    (rest : List α) : splitChunk n (chunk ++ rest) = chunk :: splitChunk n rest := by
  have more : ((chunk ++ rest).length + n - 1) / n = (rest.length + n - 1) / n + 1 := by
    rw [List.length_append, length, ← Nat.add_div_right _ positive]
    congr 1
    omega
  rw [splitChunk, more, List.range_succ_eq_map, List.map_cons, Nat.mul_zero, List.drop_zero,
    ← length, List.take_left, List.map_map, splitChunk]
  refine congrArg (chunk :: ·) (List.map_congr_left fun k _ => ?_)
  show List.take _ (List.drop (chunk.length * (k + 1)) _) = _
  rw [Nat.mul_succ, Nat.add_comm, ← List.drop_drop, List.drop_left]

/-- Whole chunks in front of a shorter rest. -/
@[elab_as_elim] theorem chunk_induction {n : Nat} (positive : 0 < n) {motive : List α → Prop}
    (xs : List α) (short : ∀ xs, xs.length < n → motive xs)
    (chunks : ∀ chunk rest, chunk.length = n → motive rest → motive (chunk ++ rest)) : motive xs := by
  induction length : xs.length using Nat.strong_induction_on generalizing xs with
  | _ size ih =>
      by_cases less : xs.length < n
      · exact short xs less
      · rw [← List.take_append_drop n xs]
        refine chunks _ _ ?_ (ih (xs.drop n).length ?_ _ rfl)
        · rw [List.length_take]
          omega
        · rw [List.length_drop]
          omega

end Chunks

/-! ## Encoding and lookup -/

section Sparse

variable {α : Type*}

/-- Whether there is an element at all. -/
def kept (chunk : List (Option α)) : Bool := chunk.any Option.isSome

def chunkBits (chunks : List (List (Option α))) : List Bool := chunks.map kept

def compactBits (chunks : List (List (Option α))) : List Bool :=
  (chunks.filter kept).flatMap fun chunk => chunk.map Option.isSome

def elements (chunks : List (List (Option α))) : List α :=
  (chunks.filter kept).flatMap fun chunk => chunk.filterMap id

/-- The element at a place. -/
def sparseGet (n : Nat) (chunkBits compactBits : List Bool) (elements : List α) (i : Nat) : Option α :=
  if chunkBits.getD (i / n) false then
    let position := rank true chunkBits (i / n) * n + i % n
    if compactBits.getD position false then elements[rank true compactBits position]? else none
  else none

theorem rank_cons_succ (b x : Bool) (bits : List Bool) (n : Nat) :
    rank b (x :: bits) (n + 1) = rank b bits n + if x = b then 1 else 0 := by
  rw [rank, List.take_succ_cons, List.count_cons, rank]
  simp only [beq_iff_eq]

theorem rank_append_add (b : Bool) (front back : List Bool) (n : Nat) :
    rank b (front ++ back) (front.length + n) = front.count b + rank b back n := by
  rw [rank, List.take_length_add_append, List.count_append, rank]

theorem rank_append_left (b : Bool) {front : List Bool} (back : List Bool) {n : Nat}
    (inFront : n ≤ front.length) : rank b (front ++ back) n = rank b front n := by
  rw [rank, List.take_append_of_le_length inFront, rank]

theorem count_isSome (chunk : List (Option α)) :
    (chunk.map Option.isSome).count true = (chunk.filterMap id).length := by
  induction chunk with
  | nil => rfl
  | cons x chunk ih => cases x <;> simp [ih]

/-- An element of a chunk, among the elements of the chunk. -/
theorem filterMap_getElem?_rank (chunk : List (Option α)) {i : Nat} {a : α}
    (isElement : chunk[i]? = some (some a)) :
    (chunk.filterMap id)[rank true (chunk.map Option.isSome) i]? = some a := by
  induction chunk generalizing i with
  | nil => cases isElement
  | cons x chunk ih =>
      cases i with
      | zero =>
          obtain rfl : x = some a := Option.some.inj isElement
          rfl
      | succ i =>
          rw [List.getElem?_cons_succ] at isElement
          rw [List.map_cons, rank_cons_succ]
          cases x with
          | none => simpa using ih isElement
          | some b => simpa using ih isElement

variable {n : Nat}

/-- Lookup in the first chunk, whatever is behind it. -/
theorem sparseGet_first (chunk : List (Option α)) (bits compact : List Bool) (rest : List α)
    {i : Nat} (inChunk : i < chunk.length) (width : i < n) :
    sparseGet n (kept chunk :: bits)
      ((if kept chunk then chunk.map Option.isSome else []) ++ compact)
      ((if kept chunk then chunk.filterMap id else []) ++ rest) i = chunk[i] := by
  have first : i / n = 0 := Nat.div_eq_of_lt width
  rw [sparseGet, first, Nat.mod_eq_of_lt width, List.getD_cons_zero]
  cases isKept : kept chunk with
  | false =>
      rw [kept, List.any_eq_false] at isKept
      have absent := isKept chunk[i] (List.getElem_mem inChunk)
      rw [Bool.not_eq_true, Option.isSome_eq_false_iff, Option.isNone_iff_eq_none] at absent
      rw [if_neg Bool.false_ne_true, absent]
  | true =>
      have none : rank true (true :: bits) 0 = 0 := rfl
      rw [if_pos rfl, if_pos rfl, if_pos rfl]
      dsimp only
      rw [none, Nat.zero_mul, Nat.zero_add, List.getD_append _ _ _ _ (by simpa using inChunk),
        rank_append_left true compact (by simpa using inChunk.le)]
      have place : (chunk.map Option.isSome).getD i false = chunk[i].isSome := by
        simp [List.getD_eq_getElem?_getD, List.getElem?_eq_getElem inChunk]
      rw [place]
      cases isElement : chunk[i] with
      | none => rfl
      | some a =>
          have found := filterMap_getElem?_rank chunk (i := i) (a := a)
            (by rw [List.getElem?_eq_getElem inChunk, isElement])
          obtain ⟨inElements, _⟩ := List.getElem?_eq_some_iff.1 found
          rw [Option.isSome_some, if_pos rfl, List.getElem?_append_left inElements, found]

/-- Lookup behind a whole chunk. -/
theorem sparseGet_behind (positive : 0 < n) {chunk : List (Option α)} (length : chunk.length = n)
    (bits compact : List Bool) (rest : List α) (i : Nat) :
    sparseGet n (kept chunk :: bits)
      ((if kept chunk then chunk.map Option.isSome else []) ++ compact)
      ((if kept chunk then chunk.filterMap id else []) ++ rest) (n + i)
      = sparseGet n bits compact rest i := by
  have quotient : (n + i) / n = i / n + 1 := by
    rw [Nat.add_comm, Nat.add_div_right _ positive]
  have remainder : (n + i) % n = i % n := Nat.add_mod_left n i
  rw [sparseGet, quotient, remainder, List.getD_cons_succ, rank_cons_succ, sparseGet]
  cases isKept : kept chunk with
  | false =>
      simp only [Bool.false_eq_true, if_false, List.nil_append, Nat.add_zero]
  | true =>
      simp only [if_true]
      have position : (rank true bits (i / n) + 1) * n + i % n
          = (chunk.map Option.isSome).length + (rank true bits (i / n) * n + i % n) := by
        rw [List.length_map, length, Nat.succ_mul]
        omega
      rw [position, rank_append_add, count_isSome, List.getD_append_right _ _ _ _ (Nat.le_add_right _ _),
        Nat.add_sub_cancel_left, List.getElem?_append_right (Nat.le_add_right _ _),
        Nat.add_sub_cancel_left]

theorem chunkBits_cons (chunk : List (Option α)) (chunks : List (List (Option α))) :
    chunkBits (chunk :: chunks) = kept chunk :: chunkBits chunks := rfl

theorem compactBits_cons (chunk : List (Option α)) (chunks : List (List (Option α))) :
    compactBits (chunk :: chunks)
      = (if kept chunk then chunk.map Option.isSome else []) ++ compactBits chunks := by
  rw [compactBits, List.filter_cons, compactBits]
  split <;> rfl

theorem elements_cons (chunk : List (Option α)) (chunks : List (List (Option α))) :
    elements (chunk :: chunks)
      = (if kept chunk then chunk.filterMap id else []) ++ elements chunks := by
  rw [elements, List.filter_cons, elements]
  split <;> rfl

/-- **What is looked up is what was encoded.** -/
theorem sparseGet_encoded (positive : 0 < n) (row : List (Option α)) {i : Nat} (inRow : i < row.length)
    (bits compact : List Bool) (rest : List α) :
    sparseGet n (chunkBits (splitChunk n row) ++ bits) (compactBits (splitChunk n row) ++ compact)
      (elements (splitChunk n row) ++ rest) i = row[i] := by
  induction row using chunk_induction positive generalizing i with
  | short row short =>
      have nonempty : row ≠ [] := List.ne_nil_of_length_pos (by omega)
      rw [splitChunk_short nonempty short.le, chunkBits_cons, compactBits_cons, elements_cons,
        List.cons_append, List.append_assoc, List.append_assoc]
      exact sparseGet_first row _ _ _ inRow (by omega)
  | chunks chunk row length ih =>
      rw [splitChunk_append positive length, chunkBits_cons, compactBits_cons, elements_cons,
        List.cons_append, List.append_assoc, List.append_assoc]
      by_cases inChunk : i < chunk.length
      · rw [sparseGet_first chunk _ _ _ inChunk (by omega), List.getElem_append_left inChunk]
      · obtain ⟨j, rfl⟩ := Nat.exists_eq_add_of_le (Nat.le_of_not_lt inChunk)
        rw [List.length_append] at inRow
        have inRest : j < row.length := by omega
        have value : (chunk ++ row)[chunk.length + j] = row[j] := by simp
        subst length
        rw [value, sparseGet_behind positive rfl, ih inRest]

/-! What is found does not depend on what stands behind, so that no lookup goes there. -/

section Inside

variable (positive : 0 < n) (row : List (Option α)) {i : Nat} (inRow : i < row.length)
  (bits compact : List Bool)

include positive inRow in
/-- The element that is looked up is among the elements. -/
theorem rank_lt_length_elements (a : α)
    (chunkBit : (chunkBits (splitChunk n row) ++ bits).getD (i / n) false = true)
    (compactBit : (compactBits (splitChunk n row) ++ compact).getD
      (rank true (chunkBits (splitChunk n row) ++ bits) (i / n) * n + i % n) false = true) :
    rank true (compactBits (splitChunk n row) ++ compact)
        (rank true (chunkBits (splitChunk n row) ++ bits) (i / n) * n + i % n)
      < (elements (splitChunk n row)).length := by
  have absent := sparseGet_encoded positive row inRow bits compact []
  have present := fun k => sparseGet_encoded positive row inRow bits compact (List.replicate k a)
  simp only [sparseGet, chunkBit, compactBit, if_true, List.append_nil] at absent present
  generalize rank true (compactBits (splitChunk n row) ++ compact) _ = place at absent present ⊢
  by_contra outside
  have behind := Nat.le_of_not_lt outside
  rw [List.getElem?_eq_none behind] at absent
  have found := present (place + 1)
  rw [List.getElem?_append_right behind, List.getElem?_replicate, if_pos (by omega), ← absent] at found
  cases found.symm

include positive inRow in
/-- The place that is looked up is among the places of the chunks that were kept. -/
theorem position_lt_length_compactBits (a : α)
    (chunkBit : (chunkBits (splitChunk n row) ++ bits).getD (i / n) false = true) :
    rank true (chunkBits (splitChunk n row) ++ bits) (i / n) * n + i % n
      < (compactBits (splitChunk n row)).length := by
  have absent := sparseGet_encoded positive row inRow bits [] []
  have present := fun k j =>
    sparseGet_encoded positive row inRow bits (List.replicate k true) (List.replicate j a)
  simp only [sparseGet, chunkBit, if_true, List.append_nil] at absent present
  generalize rank true (chunkBits (splitChunk n row) ++ bits) (i / n) * n + i % n = position
    at absent present ⊢
  by_contra outside
  have behind := Nat.le_of_not_lt outside
  rw [List.getD_eq_default _ _ behind, if_neg Bool.false_ne_true] at absent
  have isSet : (compactBits (splitChunk n row) ++ List.replicate (position + 1) true).getD position false
      = true := by
    rw [List.getD_append_right _ _ _ _ behind]
    exact List.getD_replicate _ (by omega)
  have found := fun j => present (position + 1) j
  simp only [isSet, if_true, ← absent] at found
  generalize rank true (compactBits (splitChunk n row) ++ _) position = place at found
  have none := found (place + 1)
  rw [List.getElem?_eq_none_iff, List.length_append, List.length_replicate] at none
  omega

end Inside

end Sparse

end Mozkey.Lib
