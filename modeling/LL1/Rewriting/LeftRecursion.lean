/-
# Immediate left recursion

A non-terminal with an alternative that begins with itself would be expanded for ever without
consuming input. `A -> Aβ | γ` derives a `γ` followed by any number of `β`, so it is replaced by
`A -> γX` with `X -> βX | &`. An alternative that is `A` alone, epsilons aside, derives nothing new
and is dropped.
-/
import LL1.Grammar.NonTerminal

namespace LL1

/-! ## The cases of a non-terminal -/

/-- A left recursive non-terminal about to be unrolled. -/
structure Unrolling where
  /-- The non-terminal. -/
  symbol : Symbol
  /-- The alternatives that are not left recursive, without epsilons. -/
  bases : List Word
  /-- What follows the non-terminal in its left recursive alternatives, without epsilons. None of
  them is empty. -/
  repeats : List Word
  /-- How many left recursive alternatives are left out because they derive nothing new. -/
  dropped : Nat
  deriving DecidableEq, Repr

namespace Unrolling

/-- The unrolled non-terminal: a base, and then the fresh symbol. -/
def head (u : Unrolling) (fresh : Symbol) : NonTerminal :=
  .ofAlternatives u.symbol (u.bases.map fun w => w ++ [fresh])

/-- The fresh non-terminal: any number of repeats. -/
def tail (u : Unrolling) (fresh : Symbol) : NonTerminal :=
  .ofAlternatives fresh ((u.repeats.map fun w => w ++ [fresh]) ++ [[epsilon]])

end Unrolling

/-- What left recursion does to a non-terminal. -/
inductive Recursion where
  /-- No alternative begins with the non-terminal. -/
  | absent
  /-- Every alternative begins with the non-terminal, so it derives no terminal string. -/
  | baseless
  /-- The left recursive alternatives all derive nothing new. They are dropped and the rest is kept. -/
  | idle (rest : NonTerminal) (dropped : Nat)
  /-- Some left recursive alternative adds something. -/
  | proper (u : Unrolling)
  deriving DecidableEq, Repr

namespace NonTerminal

/-- Whether an alternative of the non-terminal begins with the non-terminal itself. -/
def startsWithSelf (n : NonTerminal) (body : Word) : Bool :=
  decide (body.head? = some n.symbol)

/-- Whether some alternative begins with the non-terminal itself. -/
def isLeftRecursive (n : NonTerminal) : Bool :=
  n.alternatives.any n.startsWithSelf

/-- The alternatives that do not begin with the non-terminal. -/
def baseAlternatives (n : NonTerminal) : List Word :=
  n.alternatives.filter fun body => !n.startsWithSelf body

/-- What follows the non-terminal in its left recursive alternatives, without epsilons. -/
def continuations (n : NonTerminal) : List Word :=
  (n.alternatives.filter n.startsWithSelf).map fun body => withoutEpsilon body.tail

/-- How many left recursive alternatives derive nothing new. -/
def idleCount (n : NonTerminal) : Nat :=
  n.continuations.countP List.isEmpty

/-- The case a non-terminal is in. -/
def recursion (n : NonTerminal) : Recursion :=
  if n.isLeftRecursive then
    if n.baseAlternatives.isEmpty then .baseless
    else
      let repeats := n.continuations.filter fun w => !w.isEmpty
      if repeats.isEmpty then .idle (.ofAlternatives n.symbol n.baseAlternatives) n.idleCount
      else .proper ⟨n.symbol, n.baseAlternatives.map withoutEpsilon, repeats, n.idleCount⟩
  else .absent

/-- Left recursion is absent exactly when no alternative begins with the non-terminal. -/
theorem recursion_eq_absent_iff (n : NonTerminal) :
    n.recursion = .absent ↔ n.isLeftRecursive = false := by
  unfold recursion
  split
  · next h =>
    rw [h]
    dsimp only
    constructor
    · intro hcase
      split at hcase
      · cases hcase
      · split at hcase <;> cases hcase
    · intro hcase
      cases hcase
  · next h => simpa using h

end NonTerminal

end LL1
