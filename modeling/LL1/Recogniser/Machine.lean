/-
# The predictive automaton

The automaton keeps a stack of symbols and the part of the input that is still unread. A terminal on
top of the stack is matched against the input, a non-terminal is replaced by the right-hand side
that the table predicts for the next terminal. Expansions consume nothing, so a non-terminal that
comes to the top again before it has vanished or something was matched would come back for ever. The
automaton remembers which expansions are still open and refuses to repeat one of them.
-/
import LL1.Analysis.Table

namespace LL1

/-! ## Configurations -/

/-- An expansion that is not finished: what it left on the stack is still there. -/
structure Opening where
  /-- The non-terminal that was expanded. -/
  symbol : Symbol
  /-- The height of the stack when it was on top. -/
  height : Nat
  deriving DecidableEq, Repr

/-- A configuration of the automaton. -/
structure Machine where
  /-- The stack, top first. The end marker is at its bottom. -/
  stack : Word
  /-- The unread input, without the end marker. -/
  unread : Word
  /-- The open expansions since the last match, newest first. -/
  opened : List Opening := []
  deriving DecidableEq, Repr

/-- Why an input is not accepted. -/
inductive Rejection where
  /-- The table has no rule for the non-terminal and the next terminal. -/
  | noEntry (symbol terminal : Symbol)
  /-- The stack is used up and the input is not. -/
  | trailingInput
  /-- The non-terminal would expand to itself without consuming the terminal. -/
  | nonTerminating (symbol terminal : Symbol)
  deriving DecidableEq, Repr

/-- The wording of a rejection. -/
def Rejection.message : Rejection → String
  | .noEntry symbol terminal =>
    "No table entry for M[" ++ String.singleton symbol ++ ", " ++ String.singleton terminal ++ "]"
  | .trailingInput => "Input continues after the derivation ended"
  | .nonTerminating symbol terminal =>
    "`" ++ String.singleton symbol ++ "` derives itself on `" ++ String.singleton terminal ++
      "` without consuming input"

/-- What the automaton does next. -/
inductive Move where
  /-- Stop and accept. -/
  | accept
  /-- Stop and reject. -/
  | reject (reason : Rejection)
  /-- Read one symbol of the input. -/
  | advance
  /-- Replace the top of the stack by the right-hand side of this rule. -/
  | expand (rule : Rule)
  deriving DecidableEq, Repr

namespace Machine

/-- The configuration before anything is read. -/
def start (g : Grammar) (input : Word) : Machine :=
  { stack := [g.start, endMarker], unread := input }

/-! ## Looking at a configuration -/

/-- The symbol on top of the stack. An empty stack shows its bottom marker. -/
def top (m : Machine) : Symbol :=
  m.stack.head?.getD endMarker

/-- The next symbol of the input, or the end marker behind the input. -/
def lookahead (m : Machine) : Symbol :=
  m.unread.head?.getD endMarker

/-- The right-hand side that the table predicts for the top of the stack. -/
def predicted (g : Grammar) (t : Table) (m : Machine) : Option Word :=
  match t.find? m.top m.lookahead with
  | none => none
  | some id => g.body? id

/-- The next move, open expansions aside. -/
def move (g : Grammar) (t : Table) (m : Machine) : Move :=
  if m.top = endMarker then
    if m.unread.isEmpty then .accept else .reject .trailingInput
  else if m.top = m.lookahead then .advance
  else
    match m.predicted g t with
    | none => .reject (.noEntry m.top m.lookahead)
    | some body => .expand ⟨m.top, body⟩

/-- Whether an expansion of the top of the stack is still open. -/
def repeatsItself (m : Machine) : Bool :=
  m.opened.any fun o => decide (o.symbol = m.top)

/-- The next move. Where the table would be consulted, an open expansion of the same non-terminal
takes precedence. -/
def guardedMove (g : Grammar) (t : Table) (m : Machine) : Move :=
  if m.top = endMarker ∨ m.top = m.lookahead then m.move g t
  else if m.repeatsItself then .reject (.nonTerminating m.top m.lookahead)
  else m.move g t

/-! ## Moving -/

/-- Takes the epsilons off the top of the stack, which closes the expansions that end with them. -/
def dropEpsilons : Word → (unread : Word) → List Opening → Machine
  | [], unread, opened => ⟨[], unread, opened⟩
  | s :: rest, unread, opened =>
    if s = epsilon then
      dropEpsilons rest unread (opened.filter fun o => decide (o.height ≤ rest.length))
    else ⟨s :: rest, unread, opened⟩

/-- The configuration with no epsilon on top of the stack. -/
def uncovered (m : Machine) : Machine :=
  dropEpsilons m.stack m.unread m.opened

/-- The configuration after a move. -/
def after (m : Machine) : Move → Machine
  | .accept => { m with stack := m.stack.tail }
  | .reject _ => { m with stack := m.stack.tail }
  | .advance => ⟨m.stack.tail, m.unread.tail, []⟩
  | .expand r =>
    ⟨r.body ++ m.stack.tail, m.unread, ⟨m.top, m.stack.length⟩ :: m.opened⟩

end Machine

end LL1
