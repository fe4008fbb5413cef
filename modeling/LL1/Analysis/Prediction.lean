/-
# Filling the table

A rule `A->α` is a candidate for the cell of `A` and every terminal that can begin `α`, and, if `α`
can vanish, for the cell of `A` and every terminal that can follow `A`. The first candidate of a
cell stays in it, and every other one is a conflict. For each non-terminal the candidates from FIRST
come before those from FOLLOW, so a cell prefers the rule that consumes the terminal.
-/
import LL1.Analysis.First
import LL1.Analysis.Table

namespace LL1

/-! ## Candidates -/

/-- FIRST of each alternative of `head` in turn, with the position of the alternative. -/
def Grammar.firstOfAlternatives (g : Grammar) (first : SetFamily) (head : Symbol) :
    List Word → (index : Nat) → Memo → List (RuleId × SymbolSet) × Memo
  | [], _, memo => ([], memo)
  | body :: rest, index, memo =>
    match g.firstOfWord first body memo with
    | (found, memo) =>
      match g.firstOfAlternatives first head rest (index + 1) memo with
      | (more, memo) => ((⟨head, index⟩, found) :: more, memo)

/-- The cells that the alternatives of `head` are candidates for, those from FIRST first. -/
def candidates (head : Symbol) (firsts : List (RuleId × SymbolSet)) (follow : SymbolSet) :
    List Cell :=
  (firsts.flatMap fun (id, found) => found.terminals.map fun a => ⟨head, a, id⟩) ++
    (firsts.filter fun (_, found) => decide (epsilon ∈ found)).flatMap fun (id, _) =>
      follow.toList.map fun a => ⟨head, a, id⟩

/-! ## The table -/

/-- A table and the conflicts met while filling it, in the order in which they were found. -/
structure Prediction where
  /-- The table. -/
  table : Table := {}
  /-- The conflicts. -/
  conflicts : List Conflict := []
  deriving DecidableEq, Repr

/-- The right-hand side of the rule at a position, empty if there is none. -/
def Grammar.bodyAt (g : Grammar) (id : RuleId) : Word :=
  (g.body? id).getD []

/-- Fills a cell, or records a conflict if another rule is in it. -/
def Prediction.add (g : Grammar) (p : Prediction) (c : Cell) : Prediction :=
  match p.table.find? c.nonTerminal c.terminal with
  | none => { p with table := p.table.insert c }
  | some kept =>
    if kept = c.id then p
    else
      { p with
        conflicts := p.conflicts ++
          [⟨c.nonTerminal, c.terminal, g.bodyAt kept, g.bodyAt c.id⟩] }

/-- What is known while the table is being filled. -/
structure PredictionState where
  /-- The table so far. -/
  prediction : Prediction
  /-- The marks of the rules. -/
  memo : Memo
  deriving DecidableEq, Repr

/-- Fills the cells of a non-terminal. -/
def Grammar.predictHead (g : Grammar) (first follow : SetFamily) (st : PredictionState)
    (n : NonTerminal) : PredictionState :=
  match g.firstOfAlternatives first n.symbol n.alternatives 0 st.memo with
  | (firsts, memo) =>
    ⟨(candidates n.symbol firsts (follow.get n.symbol)).foldl (Prediction.add g) st.prediction,
      memo⟩

/-- Fills the table from FIRST and FOLLOW sets. -/
def Grammar.predict (g : Grammar) (first follow : SetFamily) (memo : Memo) : PredictionState :=
  g.nonTerminals.foldl (g.predictHead first follow) ⟨{}, memo⟩

end LL1
