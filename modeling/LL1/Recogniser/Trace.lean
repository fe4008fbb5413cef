/-
# Traces

A trace has a row for each step of the automaton: the stack and the unread input before the step,
and the rule that the step applies. Rows of matches and of the last step show no rule.
-/
import LL1.Grammar.Rule
import LL1.Text.Columns

namespace LL1

/-! ## Rows -/

/-- One row of a trace. -/
structure Row where
  /-- The stack, top first. -/
  stack : Word
  /-- The unread input. -/
  unread : Word
  /-- The rule that is applied, if one is. -/
  rule : Option Rule
  deriving DecidableEq, Repr

/-- A row as three pieces of text. -/
structure TraceLine where
  /-- The stack, bottom first. -/
  stack : List Char
  /-- The unread input. -/
  input : List Char
  /-- The rule, empty if none is applied. -/
  rule : List Char
  deriving DecidableEq, Repr

/-- The text of a row. The stack is shown bottom first. -/
def Row.line (r : Row) : TraceLine :=
  { stack := r.stack.reverse
    input := r.unread
    rule := (r.rule.map Rule.text).getD [] }

/-- The row on one line, for the log. -/
def Row.summary (r : Row) : String :=
  String.ofList (columnSeparator.intercalate [r.line.stack, r.line.input, r.line.rule])

/-! ## Tables of rows -/

/-- The headings of the columns of a trace. -/
def traceHeader : List (List Char) :=
  ["Stack".toList, "Input".toList, "Production".toList]

/-- The trace as a table. The end marker is shown behind the input. There is no table if the stack, the
input or a rule is too long for a column. -/
def renderTrace (lines : List TraceLine) : Option (List Char) :=
  renderRows <|
    traceHeader :: lines.map fun l => [l.stack, l.input ++ [endMarker], l.rule]

end LL1
