/-
# What can be wrong with the source of a grammar

Each way in which a grammar file can be refused is a cause of its own, with its wording.
-/
import LL1.Report.Location

namespace LL1

/-- The kinds of failures when a file is read. -/
inductive ReadFailureKind where
  /-- There is no such file. -/
  | notFound
  /-- A line is not valid UTF-8. -/
  | invalidData
  /-- Anything else. -/
  | other
  deriving DecidableEq, Repr

/-- A failure to read a file. -/
structure ReadFailure where
  /-- Its kind. -/
  kind : ReadFailureKind
  /-- Its wording. -/
  message : String
  deriving DecidableEq, Repr

/-- A line that is not valid UTF-8. -/
def ReadFailure.invalidLine : ReadFailure :=
  ⟨.invalidData, "stream did not contain valid UTF-8"⟩

/-- Why a grammar is refused. -/
inductive Fault where
  /-- A line has no arrow. -/
  | missingArrow
  /-- There is nothing before the arrow. -/
  | missingHead
  /-- What stands before the arrow is not a single upper-case symbol. -/
  | invalidHead (text : List Char)
  /-- There is nothing after the arrow. -/
  | emptyRightHandSide
  /-- The end marker occurs in a right-hand side. -/
  | reservedEndMarker
  /-- An upper-case symbol is used and never defined. -/
  | undefinedNonTerminal (symbol : Symbol)
  /-- The source has no rules at all. -/
  | emptyGrammar
  /-- The file or one of its lines cannot be read. -/
  | unreadable (failure : ReadFailure)
  deriving DecidableEq, Repr

namespace Fault

/-- The wording of a fault. -/
def message : Fault → String
  | .missingArrow => "Expected `->` after the head symbol"
  | .missingHead => "Production has no head symbol"
  | .invalidHead text => "`" ++ String.ofList text ++ "` is not a single upper-case non-terminal"
  | .emptyRightHandSide =>
    "Production has an empty right-hand side (use `" ++ String.singleton epsilon ++
      "` for epsilon)"
  | .reservedEndMarker =>
    "`" ++ String.singleton endMarker ++ "` is reserved for the end of the input"
  | .undefinedNonTerminal symbol =>
    "Could not find definition for `" ++ String.singleton symbol ++ "`"
  | .emptyGrammar => "No productions found"
  | .unreadable failure => "File error: " ++ failure.message

/-- Whether two faults are of the same sort. Failures to read are compared by their kinds. -/
def same : Fault → Fault → Bool
  | .unreadable f, .unreadable g => decide (f.kind = g.kind)
  | f, g => decide (f = g)

end Fault

/-- A fault and the place where it was found. -/
abbrev LocatedFault := Located Fault

/-- Whether two located faults are of the same sort and in the same place. -/
def LocatedFault.same (e f : LocatedFault) : Bool :=
  e.location.same f.location && e.cause.same f.cause

end LL1
