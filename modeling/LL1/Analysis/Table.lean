/-
# Predictive tables

A predictive table maps a non-terminal and the next terminal of the input to the rule that is to be
applied. Its cells are listed in ascending order of non-terminal and terminal.
-/
import LL1.Grammar.Basic

namespace LL1

/-! ## Tables -/

/-- A filled cell of a table. -/
structure Cell where
  /-- The row. -/
  nonTerminal : Symbol
  /-- The column. -/
  terminal : Symbol
  /-- The rule to be applied. -/
  id : RuleId
  deriving DecidableEq, Repr

namespace Cell

/-- Whether a cell comes before another: by row, and then by column. -/
def isBefore (c d : Cell) : Bool :=
  decide (c.nonTerminal < d.nonTerminal) ||
    (decide (c.nonTerminal = d.nonTerminal) && decide (c.terminal < d.terminal))

end Cell

/-- A predictive table. -/
structure Table where
  /-- The filled cells, in ascending order. -/
  cells : List Cell := []
  deriving DecidableEq, Repr

namespace Table

/-- The rule in a cell. -/
def find? (t : Table) (nonTerminal terminal : Symbol) : Option RuleId :=
  (t.cells.find? fun c =>
    decide (c.nonTerminal = nonTerminal) && decide (c.terminal = terminal)).map Cell.id

/-- The number of filled cells. -/
def size (t : Table) : Nat :=
  t.cells.length

/-- Puts a cell in front of the first one that does not come before it. -/
def insertCell (c : Cell) : List Cell → List Cell
  | [] => [c]
  | d :: rest => if d.isBefore c then d :: insertCell c rest else c :: d :: rest

/-- Fills a cell. -/
def insert (t : Table) (c : Cell) : Table :=
  ⟨insertCell c t.cells⟩

/-- Filling a cell adds exactly that cell. -/
theorem mem_cells_insert {t : Table} {c d : Cell} :
    d ∈ (t.insert c).cells ↔ d = c ∨ d ∈ t.cells := by
  obtain ⟨cells⟩ := t
  show d ∈ insertCell c cells ↔ d = c ∨ d ∈ cells
  induction cells with
  | nil => simp [insertCell]
  | cons e rest ih =>
    unfold insertCell
    split
    · rw [List.mem_cons, ih, List.mem_cons]
      exact or_left_comm
    · exact List.mem_cons

end Table

/-! ## Conflicts -/

/-- A cell that two rules compete for. -/
structure Conflict where
  /-- The row of the cell. -/
  nonTerminal : Symbol
  /-- The column of the cell. -/
  terminal : Symbol
  /-- The right-hand side that stays in the cell. -/
  kept : Word
  /-- The right-hand side that came later. -/
  rejected : Word
  deriving DecidableEq, Repr

/-- The wording of a conflict. -/
def Conflict.message (c : Conflict) : String :=
  "Ambiguous grammar at M[" ++ String.singleton c.nonTerminal ++ ", " ++
    String.singleton c.terminal ++ "]: keeping `" ++
    String.ofList (Rule.mk c.nonTerminal c.kept).text ++ "` over `" ++
    String.ofList (Rule.mk c.nonTerminal c.rejected).text ++ "`"

end LL1
