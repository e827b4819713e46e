import Mathlib

/-!
# Lists

Facts about lists that the developments below share.
-/

namespace Mozkey.Lib

variable {α β : Type*}

/-- A partial map over a list succeeds when it succeeds on every element. -/
theorem mapM_eq_some_iff {f : α → Option β} {xs : List α} {ys : List β} :
    xs.mapM f = some ys ↔ List.Forall₂ (fun x y => f x = some y) xs ys := by
  induction xs generalizing ys with
  | nil =>
      simp only [List.mapM_nil, pure, Option.some_inj, List.forall₂_nil_left_iff, eq_comm]
  | cons x xs ih =>
      simp only [List.mapM_cons, bind, Option.bind_eq_some_iff, pure, Option.some_inj, ih]
      constructor
      · rintro ⟨y, first, ys', others, rfl⟩
        exact .cons first others
      · rintro (_ | ⟨first, others⟩)
        exact ⟨_, first, _, others, rfl⟩

/-- A partial map that succeeds on every element with some property succeeds on the list. -/
theorem exists_mapM_eq_some {f : α → Option β} {P : α → β → Prop} {xs : List α}
    (each : ∀ x ∈ xs, ∃ y, f x = some y ∧ P x y) :
    ∃ ys, xs.mapM f = some ys ∧ List.Forall₂ P xs ys := by
  induction xs with
  | nil => exact ⟨[], rfl, .nil⟩
  | cons x xs ih =>
      rw [List.forall_mem_cons] at each
      obtain ⟨y, first, holds⟩ := each.1
      obtain ⟨ys, others, all⟩ := ih each.2
      exact ⟨y :: ys, by simp [first, others], .cons holds all⟩

/-- A fold that ends at the first element for which the step returns false. -/
def foldWhile {σ : Type*} (step : α → σ → Bool × σ) : List α → σ → σ
  | [], s => s
  | x :: xs, s => if (step x s).1 then foldWhile step xs (step x s).2 else (step x s).2

/-- A step that always goes on makes it a fold. -/
theorem foldWhile_eq_foldl {σ : Type*} (next : σ → α → σ) (xs : List α) (s : σ) :
    foldWhile (fun x s => (true, next s x)) xs s = xs.foldl next s := by
  induction xs generalizing s with
  | nil => rfl
  | cons x xs ih => exact ih _

end Mozkey.Lib
