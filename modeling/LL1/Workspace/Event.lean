/-
# What operations report

Besides its result an operation has events to report, such as a symbol that was factored out or a
cell that two rules compete for. The events of an operation follow from the workspace it starts
from. Each event has a level and a wording.
-/
import LL1.Rewriting.Notice
import LL1.Workspace.Basic

namespace LL1

/-! ## Events -/

/-- How important an event is. -/
inductive Level where
  /-- Single steps of the recogniser. -/
  | trace
  /-- The course of a computation. -/
  | debug
  /-- Results. -/
  | info
  /-- Something the author of the grammar should know. -/
  | warn
  deriving DecidableEq, Repr

/-- The name of a level. -/
def Level.name : Level → String
  | .trace => "TRACE"
  | .debug => "DEBUG"
  | .info => "INFO"
  | .warn => "WARN"

/-- Something to be reported. -/
inductive Event where
  /-- A grammar was loaded. -/
  | loaded (nonTerminals terminals : Nat)
  /-- A step of rewriting. -/
  | rewriting (notice : RewriteNotice)
  /-- The FIRST sets settled after so many passes. -/
  | firstSettled (passes : Nat)
  /-- The FOLLOW sets settled after so many passes. -/
  | followSettled (passes : Nat)
  /-- Two rules compete for a cell. -/
  | ambiguous (conflict : Conflict)
  /-- A grammar is ready for the recogniser. -/
  | prepared (nonTerminals cells conflicts : Nat)
  /-- A step of the recogniser. -/
  | stepped (row : Row)
  deriving DecidableEq, Repr

namespace Event

/-- The level of an event. -/
def level : Event → Level
  | .loaded _ _ => .debug
  | .rewriting notice => if notice.isWarning then .warn else .debug
  | .firstSettled _ => .debug
  | .followSettled _ => .debug
  | .ambiguous _ => .warn
  | .prepared _ _ _ => .info
  | .stepped _ => .trace

/-- The wording of an event. -/
def message : Event → String
  | .loaded nonTerminals terminals =>
    "Built grammar with " ++ toString nonTerminals ++ " non-terminals and " ++
      toString terminals ++ " terminals"
  | .rewriting notice => notice.message
  | .firstSettled passes => "FIRST sets settled after " ++ toString passes ++ " passes"
  | .followSettled passes => "FOLLOW sets settled after " ++ toString passes ++ " passes"
  | .ambiguous conflict => conflict.message
  | .prepared nonTerminals cells conflicts =>
    toString nonTerminals ++ " non-terminals, " ++ toString cells ++ " table entries, " ++
      toString conflicts ++ " conflicts"
  | .stepped row => row.summary

/-- The event as a line of a log: the level, and then the wording. -/
def text (e : Event) : String :=
  e.level.name ++ " " ++ e.message

end Event

/-! ## The events of an operation -/

/-- The event of loading a grammar. -/
def Grammar.loadingEvents (g : Grammar) : List Event :=
  [.loaded g.nonTerminals.length g.terminals.size]

namespace Workspace

/-- The events of `eliminate`, which are reported even if it fails. -/
def eliminationEvents (w : Workspace) : List Event :=
  w.grammar.elimination.notices.map .rewriting

/-- The events of `solve`. -/
def solvingEvents (w : Workspace) : List Event :=
  [.firstSettled w.settledFirst.passes, .followSettled w.settledFollow.passes]

/-- The events of `predict`. -/
def predictionEvents (w : Workspace) : List Event :=
  w.predict.1.conflicts.map .ambiguous

/-- The events of `process` once the grammar is rewritten. -/
def preparationEvents (w : Workspace) : List Event :=
  w.solvingEvents ++ w.solve.predictionEvents ++
    [.prepared w.grammar.nonTerminals.length w.solve.predict.1.table.size
      w.solve.predict.1.conflicts.length]

/-- The events of `process`. -/
def processEvents (w : Workspace) : List Event :=
  w.eliminationEvents ++
    match w.eliminate with
    | .error _ => []
    | .ok rewritten => rewritten.preparationEvents

/-- The events of `recognise`. -/
def recognitionEvents (w : Workspace) (input : Word) : List Event :=
  (w.recognise input).trace.map .stepped

end Workspace

end LL1
