import Mathlib

/-!
# Iterators and the results they yield

An iterator is a state that is moved forward by `next`; after each move it is
either done or shows one result.  A run of an iterator is described by the list
of the results it shows before it is done.  Such runs compose, and they are
determined by the state they start from and the results.
-/

namespace Mozkey.Lib

/-- An iterator over results of type `ρ` with states of type `σ`. -/
structure Iterator (σ ρ : Type*) where
  next : σ → σ
  done : σ → Bool
  get : σ → ρ

namespace Iterator

variable {σ ρ : Type*} (it : Iterator σ ρ)

/-- From `s`, the next moves show the results one after another, and the last
of them leads to `t`. -/
def Yields : σ → List ρ → σ → Prop
  | s, [], t => s = t
  | s, r :: rs, t => it.done (it.next s) = false ∧ it.get (it.next s) = r ∧ Yields (it.next s) rs t

/-- From `s`, the iterator shows exactly the results and then is done in `t`. -/
def Runs (s : σ) (rs : List ρ) (t : σ) : Prop :=
  ∃ last, it.Yields s rs last ∧ it.next last = t ∧ it.done t = true

variable {it}

@[simp] theorem yields_nil {s t : σ} : it.Yields s [] t ↔ s = t := Iff.rfl

theorem yields_cons {s t : σ} {r : ρ} {rs : List ρ} :
    it.Yields s (r :: rs) t ↔
      it.done (it.next s) = false ∧ it.get (it.next s) = r ∧ it.Yields (it.next s) rs t := Iff.rfl

/-- Runs compose. -/
theorem yields_append {s t : σ} {front back : List ρ} :
    it.Yields s (front ++ back) t ↔ ∃ mid, it.Yields s front mid ∧ it.Yields mid back t := by
  induction front generalizing s with
  | nil => simp
  | cons r rs ih =>
      simp only [List.cons_append, yields_cons, ih]
      constructor
      · rintro ⟨open_, shown, mid, first, second⟩
        exact ⟨mid, ⟨open_, shown, first⟩, second⟩
      · rintro ⟨mid, ⟨open_, shown, first⟩, second⟩
        exact ⟨open_, shown, mid, first, second⟩

theorem yields_singleton {s t : σ} {r : ρ} :
    it.Yields s [r] t ↔ it.next s = t ∧ it.done t = false ∧ it.get t = r := by
  rw [yields_cons, yields_nil]
  constructor
  · rintro ⟨open_, shown, rfl⟩
    exact ⟨rfl, open_, shown⟩
  · rintro ⟨rfl, open_, shown⟩
    exact ⟨open_, shown, rfl⟩

/-- The results determine where a run ends. -/
theorem Yields.unique {s t t' : σ} {rs : List ρ} (first : it.Yields s rs t)
    (second : it.Yields s rs t') : t = t' := by
  induction rs generalizing s with
  | nil => exact first.symm.trans second
  | cons r rs ih => exact ih first.2.2 second.2.2

/-- What a run does after a first part is a run from where that part ends. -/
theorem runs_append {s t mid : σ} {front back : List ρ} (first : it.Yields s front mid) :
    it.Runs s (front ++ back) t ↔ it.Runs mid back t := by
  constructor
  · rintro ⟨last, yields, done⟩
    obtain ⟨mid', front', back'⟩ := yields_append.1 yields
    rw [first.unique front']
    exact ⟨last, back', done⟩
  · rintro ⟨last, yields, done⟩
    exact ⟨last, yields_append.2 ⟨mid, first, yields⟩, done⟩

/-- An iterator that is done yields no further result. -/
theorem not_runs_cons_of_done {s t : σ} {r : ρ} {rs : List ρ} (ended : it.done (it.next s) = true) :
    ¬ it.Runs s (r :: rs) t := by
  rintro ⟨last, ⟨open_, -, -⟩, -⟩
  rw [ended] at open_
  exact Bool.noConfusion open_

end Iterator

end Mozkey.Lib
