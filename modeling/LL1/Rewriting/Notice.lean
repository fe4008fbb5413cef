/-
# What rewriting reports

Every step of rewriting leaves notices, which tell what was dropped, factored or unrolled and what
came out of it.
-/
import LL1.Rewriting.Step

namespace LL1

/-- A message about rewriting. -/
inductive RewriteNotice where
  /-- An alternative that derives nothing new was dropped. -/
  | dropped (symbol : Symbol)
  /-- A stem was factored out of a number of alternatives. -/
  | factored (symbol : Symbol) (stem : Word) (count : Nat)
  /-- The left recursion of the first symbol goes through the second. -/
  | unrolled (symbol fresh : Symbol)
  /-- A non-terminal was replaced by itself and a fresh one. -/
  | replaced (head fresh : NonTerminal)
  deriving DecidableEq, Repr

namespace RewriteNotice

/-- Whether the notice is a warning. -/
def isWarning : RewriteNotice → Bool
  | .dropped _ => true
  | _ => false

/-- The wording of a notice. -/
def message : RewriteNotice → String
  | .dropped symbol =>
    let name := String.singleton symbol
    "Dropping `" ++ name ++ "->" ++ name ++ "`, it derives nothing new"
  | .factored symbol stem count =>
    "Factoring `" ++ stem.text ++ "` out of " ++ toString count ++ " alternatives of `" ++
      String.singleton symbol ++ "`"
  | .unrolled symbol fresh =>
    "Removing left recursion of `" ++ String.singleton symbol ++ "` through `" ++
      String.singleton fresh ++ "`"
  | .replaced head fresh =>
    "Rewrote `" ++ String.singleton head.symbol ++ "` into:\n" ++
      String.ofList (head.text ++ fresh.text)

end RewriteNotice

/-! ## The notices of a step -/

/-- The notices about alternatives that derive nothing new. -/
def Division.drops : Division → List RewriteNotice
  | .factoring _ => []
  | .unrolling u => List.replicate u.dropped (.dropped u.symbol)

/-- The notice that tells how a non-terminal is divided. -/
def Division.notice : Division → Symbol → RewriteNotice
  | .factoring f, _ => .factored f.symbol f.stem f.endings.length
  | .unrolling u, fresh => .unrolled u.symbol fresh

/-- The notices of carrying out a plan for the non-terminal `symbol`. A division that fails for want
of a symbol has dropped its alternatives already. -/
def Plan.notices (symbol : Symbol) : Plan → Supply → List RewriteNotice
  | .settle _ dropped, _ => List.replicate dropped (.dropped symbol)
  | .refuse, _ => []
  | .divide d, [] => d.drops
  | .divide d, fresh :: _ =>
    d.drops ++ [d.notice fresh, .replaced (d.head fresh) (d.tail fresh)]

end LL1
