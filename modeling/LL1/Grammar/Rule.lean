/-
# Rules

A rule `A->α` allows the non-terminal `A` to be replaced by the word `α`.
-/
import LL1.Symbol.Basic

namespace LL1

/-- One alternative of a non-terminal. -/
structure Rule where
  /-- The non-terminal that is replaced. -/
  head : Symbol
  /-- The word that takes its place. -/
  body : Word
  deriving Repr

/-- Two rules are the same if their heads and their right-hand sides are. -/
theorem Rule.eq_iff {q r : Rule} : q.head = r.head ∧ q.body.agrees r.body = true ↔ q = r := by
  obtain ⟨a, v⟩ := q
  obtain ⟨b, w⟩ := r
  simp [Word.agrees_iff]

/-- Rules are compared by their heads first. -/
@[inline] instance : DecidableEq Rule :=
  fun _ _ => decidable_of_iff _ Rule.eq_iff

/-- The rule as it is written, `A->α`. -/
def Rule.text (r : Rule) : List Char :=
  r.head :: '-' :: '>' :: r.body

end LL1
