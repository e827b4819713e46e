import Mathlib

/-!
# Self-delimiting codes

A code of symbols is self-delimiting when the front of a text tells where the first symbol
ends.  Texts over such a code can be read back, and one of them starts with another one
exactly when the symbols do.
-/

namespace Mozkey.Lib

variable {α β κ : Type*}

/-- A code whose symbols are never empty and can be cut off from what follows. -/
structure SelfDelimiting (code : α → List β) : Prop where
  nonempty : ∀ a, code a ≠ []
  cut : ∀ {a b rest rest'}, code a ++ rest = code b ++ rest' → a = b ∧ rest = rest'

namespace SelfDelimiting

variable {code : α → List β}

/-- A decoder of the first symbol makes a code self-delimiting. -/
theorem of_decoder {decode : List β → Option (κ × List β)} {key : α → κ}
    (injective : Function.Injective key) (nonempty : ∀ a, code a ≠ [])
    (decodes : ∀ a rest, decode (code a ++ rest) = some (key a, rest)) : SelfDelimiting code where
  nonempty := nonempty
  cut := by
    intro a b rest rest' same
    have decoded := decodes a rest
    rw [same, decodes b rest', Option.some.injEq, Prod.mk.injEq] at decoded
    exact ⟨injective decoded.1.symm, decoded.2.symm⟩

/-- **A text starts with another text** exactly when its symbols do. -/
theorem flatMap_isPrefix_iff (delimits : SelfDelimiting code) {xs ys : List α} :
    xs.flatMap code <+: ys.flatMap code ↔ xs <+: ys := by
  constructor
  · induction xs generalizing ys with
    | nil =>
        intro _
        exact List.nil_prefix
    | cons x xs ih =>
        rintro ⟨rest, whole⟩
        rw [List.flatMap_cons, List.append_assoc] at whole
        cases ys with
        | nil => exact absurd (List.append_eq_nil_iff.1 whole).1 (delimits.nonempty x)
        | cons y ys =>
            rw [List.flatMap_cons] at whole
            obtain ⟨rfl, behind⟩ := delimits.cut whole
            exact List.cons_prefix_cons.2 ⟨rfl, ih ⟨rest, behind⟩⟩
  · rintro ⟨more, rfl⟩
    rw [List.flatMap_append]
    exact List.prefix_append _ _

end SelfDelimiting

end Mozkey.Lib
