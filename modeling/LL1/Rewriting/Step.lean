/-
# One rewriting step

A non-terminal that can be factored is factored, one that is left recursive is unrolled, and any
other is left alone. Either rewriting may need a fresh symbol. What is to be done does not depend on
that symbol, so a step is planned first and carried out when a symbol has been drawn.
-/
import LL1.Rewriting.Factoring
import LL1.Rewriting.LeftRecursion
import LL1.Symbol.Supply

namespace LL1

/-! ## Plans -/

/-- Why a grammar cannot be rewritten. -/
inductive RewriteFailure where
  /-- A fresh non-terminal is needed and every upper-case character is in use. -/
  | symbolsExhausted
  /-- Every alternative of the non-terminal begins with itself. -/
  | noBaseCase (symbol : Symbol)
  deriving DecidableEq, Repr

/-- The wording of a failure. -/
def RewriteFailure.message : RewriteFailure → String
  | .symbolsExhausted => "No unused non-terminal symbol is left"
  | .noBaseCase symbol =>
    "Every alternative of `" ++ String.singleton symbol ++
      "` is left recursive, it can never derive a terminal string"

/-- A way to split a non-terminal in two, up to the name of the second. -/
inductive Division where
  /-- Factor out a stem. -/
  | factoring (f : Factoring)
  /-- Unroll left recursion. -/
  | unrolling (u : Unrolling)
  deriving DecidableEq, Repr

namespace Division

/-- The divided non-terminal, which refers to the fresh one. -/
def head : Division → Symbol → NonTerminal
  | .factoring f, fresh => f.head fresh
  | .unrolling u, fresh => u.head fresh

/-- The fresh non-terminal. -/
def tail : Division → Symbol → NonTerminal
  | .factoring f, fresh => f.tail fresh
  | .unrolling u, fresh => u.tail fresh

end Division

/-- What is to be done with a non-terminal. -/
inductive Plan where
  /-- Put `n` in its place, which needs no fresh symbol. A number of alternatives that derive
  nothing new are left out. -/
  | settle (n : NonTerminal) (dropped : Nat)
  /-- Give up, it has no base case. -/
  | refuse
  /-- Split it in two. -/
  | divide (d : Division)
  deriving DecidableEq, Repr

namespace NonTerminal

/-- The plan that factors the non-terminal if that is possible, and sorts its alternatives if not. -/
def factoringPlan (n : NonTerminal) : Plan :=
  match n.factoring? with
  | none => .settle n.sorted 0
  | some f => .divide (.factoring f)

/-- The plan that removes left recursion. -/
def recursionPlan (n : NonTerminal) : Plan :=
  match n.recursion with
  | .absent => .settle n 0
  | .baseless => .refuse
  | .idle rest dropped => .settle rest dropped
  | .proper u => .divide (.unrolling u)

/-- The plan for the non-terminal: factoring comes first, then left recursion. -/
def plan (n : NonTerminal) : Plan :=
  if n.isLeftFactorable then n.factoringPlan
  else if n.isLeftRecursive then n.recursionPlan
  else .settle n 0

/-- A non-terminal that can be neither factored nor unrolled is left as it is. -/
theorem plan_eq_settle_self {n : NonTerminal} (hf : n.isLeftFactorable = false)
    (hr : n.isLeftRecursive = false) : n.plan = .settle n 0 := by
  simp [plan, hf, hr]

end NonTerminal

/-! ## Carrying out a plan -/

/-- What a step puts in the place of a non-terminal. -/
inductive Rewrite where
  /-- One non-terminal. -/
  | single (n : NonTerminal)
  /-- The non-terminal, which now refers to a fresh one, and the fresh one. -/
  | split (head fresh : NonTerminal)
  deriving DecidableEq, Repr

/-- Carries out the plan for the non-terminal `symbol`. At most one symbol is drawn. -/
def Plan.carryOut (symbol : Symbol) : Plan → Supply → Except RewriteFailure Rewrite × Supply
  | .settle n _, supply => (.ok (.single n), supply)
  | .refuse, supply => (.error (.noBaseCase symbol), supply)
  | .divide _, [] => (.error .symbolsExhausted, [])
  | .divide d, fresh :: rest => (.ok (.split (d.head fresh) (d.tail fresh)), rest)

end LL1
