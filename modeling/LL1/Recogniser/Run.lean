/-
# Runs of the automaton

A run repeats the step of the automaton until it stops, and records a row for each step. How many
steps are made at most is computed from the configuration: every symbol on the stack has a weight
that pays for all that can become of it, and each step makes the total weight smaller.
-/
import LL1.Recogniser.Machine
import LL1.Recogniser.Trace

namespace LL1

/-! ## Steps -/

/-- How far a run has come. -/
inductive Outcome where
  /-- It goes on. -/
  | running
  /-- The input was accepted. -/
  | accepted
  /-- The input was rejected. -/
  | rejected (reason : Rejection)
  deriving DecidableEq, Repr

/-- A run: where it stands, and the rows of its steps. -/
structure Run where
  /-- The configuration. -/
  machine : Machine
  /-- Whether it goes on. -/
  outcome : Outcome := .running
  /-- The rows, newest first. -/
  rows : List Row := []
  deriving DecidableEq, Repr

/-- The outcome of a move. -/
def Move.outcome : Move → Outcome
  | .accept => .accepted
  | .reject reason => .rejected reason
  | .advance => .running
  | .expand _ => .running

/-- The rule that a move applies. -/
def Move.rule? : Move → Option Rule
  | .expand r => some r
  | _ => none

namespace Run

/-- The run before the first step. -/
def start (g : Grammar) (input : Word) : Run :=
  { machine := .start g input }

/-- Makes one step by a given choice of moves. A run that has stopped stays as it is. -/
def stepWith (choose : Machine → Move) (r : Run) : Run :=
  match r.outcome with
  | .running =>
    let m := r.machine.uncovered
    let move := choose m
    { machine := m.after move
      outcome := move.outcome
      rows := ⟨m.stack, m.unread, move.rule?⟩ :: r.rows }
  | _ => r

/-- Makes one step. -/
def step (g : Grammar) (t : Table) (r : Run) : Run :=
  r.stepWith (Machine.guardedMove g t)

/-- Makes steps until the run stops, and at most `limit` of them. -/
def iterate (choose : Machine → Move) : (limit : Nat) → Run → Run
  | 0, r => r
  | limit + 1, r =>
    match r.outcome with
    | .running => iterate choose limit (r.stepWith choose)
    | _ => r

/-- The run as it is before each of a number of steps, and after the last of them. -/
def history (g : Grammar) (t : Table) : (count : Nat) → Run → List Run
  | 0, r => [r]
  | count + 1, r => r :: history g t count (r.step g t)

end Run

/-! ## How long a run can be -/

/-- The length of the longest right-hand side. -/
def Grammar.longestBody (g : Grammar) : Nat :=
  (g.rules.map fun r => r.body.length).foldl max 0

namespace Machine

/-- How many non-terminals could still be expanded by what stands at a height of the stack, without
repeating an expansion that is open there. -/
def freeAt (g : Grammar) (m : Machine) (height : Nat) : Nat :=
  g.symbols.countP fun s =>
    !m.opened.any fun o => decide (o.symbol = s) && decide (o.height ≤ height)

/-- The weight of the lower part of the stack: each symbol counts the longest right-hand side and
one more, to the power of the expansions that are possible before and after each further match. -/
def weight (g : Grammar) (m : Machine) : Word → Nat
  | [] => 0
  | _ :: rest =>
    (g.longestBody + 1) ^ (m.unread.length * g.nonTerminals.length + m.freeAt g (rest.length + 1)) +
      m.weight g rest

/-- More steps than the automaton can make from a configuration. -/
def budget (g : Grammar) (m : Machine) : Nat :=
  m.weight g m.stack + 1

end Machine

/-- The run on an input, from the first step to the last. -/
def Run.complete (g : Grammar) (t : Table) (input : Word) : Run :=
  Run.iterate (Machine.guardedMove g t) ((Machine.start g input).budget g) (.start g input)

/-! ## Verdicts -/

/-- What the recogniser says about an input. -/
structure Verdict where
  /-- How the run ended. -/
  outcome : Outcome
  /-- The rows of the run, from the first step to the last. -/
  trace : List Row
  deriving DecidableEq, Repr

/-- Whether the input was accepted. -/
def Verdict.accepted (v : Verdict) : Bool :=
  decide (v.outcome = .accepted)

/-- Runs the automaton on an input. -/
def recognise (g : Grammar) (t : Table) (input : Word) : Verdict :=
  let r := Run.complete g t input
  { outcome := r.outcome, trace := r.rows.reverse }

end LL1
