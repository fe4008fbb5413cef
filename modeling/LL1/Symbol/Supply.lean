/-
# The supply of fresh non-terminals

Rewriting a grammar needs symbols that no non-terminal bears yet. The supply is the ascending list
of the upper-case characters that are not in use: drawing takes its head, so no symbol is ever
handed out twice, and an empty supply means that the symbol space is exhausted.
-/
import LL1.Symbol.Basic

namespace LL1

/-! ## The supply -/

/-- Symbols that may still be given to new non-terminals, in the order in which they are drawn. -/
abbrev Supply := List Symbol

/-- The upper-case characters outside `used`, lowest first. -/
def Supply.outside (used : List Symbol) : Supply :=
  uppercaseCharacters.filter fun s => !used.contains s

/-- Draws the next symbol. An exhausted supply answers `none` and stays as it is. -/
def Supply.draw : Supply → Option Symbol × Supply
  | [] => (none, [])
  | s :: rest => (some s, rest)

/-- The answers of `count` draws in a row. -/
def Supply.drawMany (supply : Supply) : Nat → List (Option Symbol)
  | 0 => []
  | count + 1 => supply.draw.1 :: Supply.drawMany supply.draw.2 count

/-- The lowest upper-case character outside `used`. -/
def freshNonTerminal (used : List Symbol) : Option Symbol :=
  (Supply.outside used).draw.1

/-! ## Members -/

/-- The supply holds the upper-case characters that are not in use. -/
theorem mem_outside {used : List Symbol} {s : Symbol} :
    s ∈ Supply.outside used ↔ s ∈ uppercaseCharacters ∧ s ∉ used := by
  simp [Supply.outside]

/-- Drawing from an exhausted supply leaves it exhausted. -/
theorem draw_nil : Supply.draw [] = (none, []) := rfl

/-- Drawing from a supply takes its head. -/
theorem draw_cons (s : Symbol) (rest : Supply) : Supply.draw (s :: rest) = (some s, rest) := rfl

end LL1
