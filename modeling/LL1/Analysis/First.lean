/-
# FIRST sets

FIRST of a word holds the terminals that can begin it, and epsilon if all of it can vanish. The sets
of the non-terminals depend on each other, so they grow in passes over the rules until a pass adds
nothing.
-/
import LL1.Analysis.Nullable
import LL1.Analysis.SetFamily
import LL1.Analysis.Settling

namespace LL1

/-- The sets found so far and what is known about nullability. -/
structure SetState where
  /-- The sets. -/
  sets : SetFamily
  /-- The marks of the rules. -/
  memo : Memo
  deriving DecidableEq, Repr

/-- Whether two states have the same sets. -/
def SetState.sameSets (a b : SetState) : Bool :=
  decide (a.sets = b.sets)

namespace Grammar

/-! ## FIRST of a word -/

/-- Adds FIRST of a word to a set, given the FIRST sets of the non-terminals. Epsilons are skipped, a
symbol that is not defined counts as a terminal, and the walk goes on behind a non-terminal only if
it can vanish. -/
def addFirst (g : Grammar) (first : SetFamily) :
    Word → (found : SymbolSet) → Memo → SymbolSet × Memo
  | [], found, memo => (found.insert epsilon, memo)
  | s :: rest, found, memo =>
    if s = epsilon then g.addFirst first rest found memo
    else
      match g.find? s with
      | none => (found.insert s, memo)
      | some n =>
        match g.nullableHead n memo with
        | (true, memo) => g.addFirst first rest (found.insertAll (first.get s).terminals) memo
        | (false, memo) => (found.insertAll (first.get s).terminals, memo)

/-- FIRST of a word, given the FIRST sets of the non-terminals. -/
def firstOfWord (g : Grammar) (first : SetFamily) (w : Word) (memo : Memo) : SymbolSet × Memo :=
  g.addFirst first w ∅ memo

/-! ## FIRST of the non-terminals -/

/-- Adds FIRST of the right-hand side of a rule to the set of its head. -/
def firstStep (g : Grammar) (st : SetState) (r : Rule) : SetState :=
  match g.firstOfWord st.sets r.body st.memo with
  | (found, memo) => ⟨st.sets.extend r.head found.toList, memo⟩

/-- One pass over all rules. -/
def firstPass (g : Grammar) (st : SetState) : SetState :=
  g.rules.foldl g.firstStep st

/-- How many passes over the rules are made at most: one for each symbol that a set can gain, and
one that gains nothing. -/
def passLimit (g : Grammar) : Nat :=
  g.nonTerminals.length * g.terminals.size + 1

/-- The FIRST sets of the non-terminals. -/
def firstSets (g : Grammar) (memo : Memo) : Settled SetState :=
  untilSettled SetState.sameSets g.firstPass g.passLimit ⟨.empty g.symbols, memo⟩

end Grammar

end LL1
