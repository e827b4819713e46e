import Mathlib

/-!
# Invariants of runs

A transition system is a relation between states.  What one step preserves, a
run preserves.  Some properties hold only of the runs whose steps meet a
condition, which is again a relation between the states before and after a
step.
-/

namespace Mozkey.Lib

variable {σ : Type*} {step : σ → σ → Prop}

/-- A run of steps that all meet the condition. -/
abbrev RunWhere (step condition : σ → σ → Prop) : σ → σ → Prop :=
  Relation.ReflTransGen fun s t => step s t ∧ condition s t

/-- **The invariant rule.**  What every step that meets the condition preserves
holds at the end of a run of such steps. -/
theorem runWhere_preserves {condition : σ → σ → Prop} {inv : σ → Prop}
    (preserved : ∀ s t, step s t → condition s t → inv s → inv t) {s t : σ}
    (run : RunWhere step condition s t) (start : inv s) : inv t := by
  induction run with
  | refl => exact start
  | tail _ last ih => exact preserved _ _ last.1 last.2 ih

/-! ## Runs over a list of inputs -/

variable {ι : Type*} {next : σ → ι → σ}

/-- Every input meets the condition in the state it finds. -/
def AllAlong (next : σ → ι → σ) (condition : σ → ι → Prop) : σ → List ι → Prop
  | _, [] => True
  | s, i :: inputs => condition s i ∧ AllAlong next condition (next s i) inputs

/-- Whether the inputs of a run meet a condition can be computed. -/
instance decidableAllAlong {condition : σ → ι → Prop} [∀ s i, Decidable (condition s i)] :
    (s : σ) → (inputs : List ι) → Decidable (AllAlong next condition s inputs)
  | _, [] => inferInstanceAs (Decidable True)
  | s, i :: inputs =>
      @instDecidableAnd _ _ _ (decidableAllAlong (next s i) inputs)

/-- **The invariant rule for inputs.**  What every input that meets the condition
preserves holds after a run of such inputs. -/
theorem foldl_preserves {condition : σ → ι → Prop} {inv : σ → Prop}
    (preserved : ∀ s i, condition s i → inv s → inv (next s i)) {s : σ} {inputs : List ι}
    (along : AllAlong next condition s inputs) (start : inv s) : inv (inputs.foldl next s) := by
  induction inputs generalizing s with
  | nil => exact start
  | cons i inputs ih => exact ih along.2 (preserved s i along.1 start)

end Mozkey.Lib
