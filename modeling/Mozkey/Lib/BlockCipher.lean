import Mathlib

/-!
# Rounds and chains of a block cipher

A cipher goes through rounds, one after the other, and its inverse goes back through them
in the opposite order.  A chain combines every block with the one enciphered before it.
Both are undone when a single round and a single block are.
-/

namespace Mozkey.Lib

/-- **Rounds are undone from the last one on.** -/
theorem foldl_reverse_cancel {α ρ : Type*} {round inverse : α → ρ → α}
    (undoes : ∀ a r, inverse (round a r) r = a) (rounds : List ρ) (a : α) :
    rounds.reverse.foldl inverse (rounds.foldl round a) = a := by
  induction rounds generalizing a with
  | nil => rfl
  | cons r rounds ih =>
      rw [List.reverse_cons, List.foldl_append]
      show inverse (rounds.reverse.foldl inverse (rounds.foldl round (round a r))) r = a
      rw [ih]
      exact undoes a r

section Chain

variable {β : Type*} (combine : β → β → β) (cipher : β → β)

/-- Every block is combined with the one before it and enciphered. -/
def chain : β → List β → List β
  | _, [] => []
  | vec, block :: blocks =>
      cipher (combine block vec) :: chain (cipher (combine block vec)) blocks

/-- Every block is deciphered and combined with the one that was before it. -/
def unchain : β → List β → List β
  | _, [] => []
  | vec, block :: blocks => combine (cipher block) vec :: unchain block blocks

variable {combine cipher}

theorem length_chain (vec : β) (blocks : List β) :
    (chain combine cipher vec blocks).length = blocks.length := by
  induction blocks generalizing vec with
  | nil => rfl
  | cons block blocks ih => rw [chain, List.length_cons, List.length_cons, ih]

/-- **A chain is undone.** -/
theorem unchain_chain {decipher : β → β} (cancels : ∀ a b, combine (combine a b) b = a)
    (deciphers : ∀ a, decipher (cipher a) = a) (vec : β) (blocks : List β) :
    unchain combine decipher vec (chain combine cipher vec blocks) = blocks := by
  induction blocks generalizing vec with
  | nil => rfl
  | cons block blocks ih => rw [chain, unchain, deciphers, cancels, ih]

end Chain

end Mozkey.Lib
