/-
# Where an error was found

An error is located by a file, a line and the non-terminal being defined or expanded. Each part may
be missing: grammars built in memory have no file, errors about the whole source have no line.
-/
import LL1.Symbol.Basic

namespace LL1

/-! ## Paths -/

/-- The pieces of a path between its slashes. -/
def pathPieces : List Char → List (List Char)
  | [] => [[]]
  | '/' :: rest => [] :: pathPieces rest
  | c :: rest =>
    match pathPieces rest with
    | [] => [[c]]
    | piece :: more => (c :: piece) :: more

/-- What a path means as a sequence of steps: whether it starts at the root, whether it starts at
the current directory by name, and the steps after that. Empty steps and single dots go nowhere. -/
structure PathSteps where
  /-- The path starts with a slash. -/
  rooted : Bool
  /-- The path starts with a single dot. -/
  dotted : Bool
  /-- The steps that lead somewhere. -/
  steps : List (List Char)
  deriving DecidableEq, Repr

/-- The steps of a path. -/
def pathSteps (path : String) : PathSteps :=
  let pieces := pathPieces path.toList
  { rooted := decide (path.toList.head? = some '/')
    dotted := decide (pieces.head? = some ['.'])
    steps := pieces.filter fun piece => !(piece.isEmpty || piece == ['.']) }

/-! ## Locations -/

/-- Where an error was found. -/
structure Location where
  /-- The path of the source, empty if there is none. -/
  file : String := ""
  /-- The number of the line, from one. Zero stands for the whole source. -/
  line : Nat := 0
  /-- The non-terminal that was being defined or expanded. -/
  head : Option Symbol := none
  deriving DecidableEq, Repr

namespace Location

/-- The location of an error that concerns a non-terminal only. -/
def inHead (s : Symbol) : Location :=
  { head := some s }

/-- The same place, within the definition of a non-terminal. -/
def withHead (l : Location) (s : Symbol) : Location :=
  { l with head := some s }

/-- The file and the line. -/
def placeText (l : Location) : String :=
  match l.file.isEmpty, l.line with
  | true, 0 => ""
  | true, line => "line " ++ toString line
  | false, 0 => l.file
  | false, line => l.file ++ ":" ++ toString line

/-- The location as text. -/
def text (l : Location) : String :=
  match l.head with
  | none => l.placeText
  | some s =>
    let name := "`" ++ String.singleton s ++ "`"
    if l.file.isEmpty && l.line == 0 then name else l.placeText ++ " in " ++ name

/-- Whether two locations are the same place. Paths are compared step by step, so a doubled or a
trailing slash makes no difference. -/
def same (l m : Location) : Bool :=
  decide (pathSteps l.file = pathSteps m.file) && decide (l.line = m.line) &&
    decide (l.head = m.head)

end Location

/-! ## Located causes -/

/-- A cause of failure and the place where it was found. -/
structure Located (ε : Type) where
  /-- The place. -/
  location : Location
  /-- What is wrong there. -/
  cause : ε
  deriving DecidableEq, Repr

/-- The error as it is shown on a terminal: the location in bold red, then the message. -/
def Located.render {ε : Type} (message : ε → String) (e : Located ε) : String :=
  "\x1b[31;49;1m[" ++ e.location.text ++ "]\x1b[39;49;1m  " ++ message e.cause ++ "\x1b[0m"

end LL1
