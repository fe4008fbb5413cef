/-
# Loading a grammar

A grammar is loaded from numbered lines. Either every line that is not blank is a rule and every
non-terminal in use is defined, or nothing is loaded and the faults are reported. Faults come in
three stages, and a later stage is reached only if the earlier ones found nothing: faults of single
lines, a source without rules, and symbols that are used but not defined.
-/
import LL1.Grammar.Basic
import LL1.Source.Line
import LL1.Text.Lines

namespace LL1

/-! ## Lines -/

/-- A line of a source: its number, and its text unless it could not be read. -/
structure SourceLine where
  /-- The number of the line, from one. -/
  number : Nat
  /-- The text of the line, or `none` if it cannot be decoded. -/
  text : Option (List Char)
  deriving DecidableEq, Repr

/-- The lines with their numbers. Blank lines are numbered and then left out. -/
def numberLines (lines : List (Option (List Char))) : List SourceLine :=
  (lines.zipIdx.map fun (text, i) => ⟨i + 1, text⟩).filter fun line =>
    match line.text with
    | none => true
    | some text => !isBlankLine text

/-- A rule and the place where it was written. -/
structure LocatedRule where
  /-- The rule. -/
  rule : Rule
  /-- The file and the line. -/
  location : Location
  deriving DecidableEq, Repr

/-- The rule on a line, with its place, or the fault of the line. -/
def SourceLine.parse (file : String) (line : SourceLine) : Except LocatedFault LocatedRule :=
  match line.text with
  | none => .error ⟨{ file }, .unreadable .invalidLine⟩
  | some text =>
    let location : Location := { file, line := line.number }
    match parseLine (dropReturns text) with
    | .error fault => .error ⟨location, fault⟩
    | .ok rule => .ok ⟨rule, location⟩

/-- The faults of the lines and the rules of the lines, each in line order. -/
def separate : List (Except LocatedFault LocatedRule) → List LocatedFault × List LocatedRule
  | [] => ([], [])
  | .error fault :: rest => (fault :: (separate rest).1, (separate rest).2)
  | .ok rule :: rest => ((separate rest).1, rule :: (separate rest).2)

/-! ## Undefined symbols -/

/-- The heads of the rules, in order of their first appearance. -/
def headsOf (rules : List LocatedRule) : List Symbol :=
  (SymbolSet.ofList (rules.map fun r => r.rule.head)).toList

/-- A fault for each upper-case symbol in the right-hand side that is not among the heads. -/
def LocatedRule.undefinedIn (heads : List Symbol) (r : LocatedRule) : List LocatedFault :=
  (r.rule.body.filter fun s => isUppercase s && !heads.contains s).map fun s =>
    ⟨r.location.withHead r.rule.head, .undefinedNonTerminal s⟩

/-- A fault for each use of an undefined symbol: head by head, rule by rule, from left to right. -/
def undefinedUses (rules : List LocatedRule) : List LocatedFault :=
  let heads := headsOf rules
  heads.flatMap fun head =>
    (rules.filter fun r => r.rule.head == head).flatMap (LocatedRule.undefinedIn heads)

/-! ## Loading -/

/-- The grammar of the rules, if there are any and every symbol they use is defined. -/
def loadRules (file : String) (rules : List LocatedRule) : Except (List LocatedFault) Grammar :=
  if rules.isEmpty then .error [⟨{ file }, .emptyGrammar⟩]
  else
    let faults := undefinedUses rules
    if faults.isEmpty then .ok (.ofRules (rules.map LocatedRule.rule)) else .error faults

/-- Loads a grammar from the lines of a file. -/
def loadLines (file : String) (lines : List (Option (List Char))) :
    Except (List LocatedFault) Grammar :=
  let (faults, rules) := separate ((numberLines lines).map (SourceLine.parse file))
  if faults.isEmpty then loadRules file rules else .error faults

namespace Grammar

/-- Builds a grammar from lines in memory. -/
def ofLines (lines : List (List Char)) : Except (List LocatedFault) Grammar :=
  loadLines "" (lines.map some)

/-- Builds a grammar from the contents of a file, or reports why the file could not be read. -/
def ofFile (path : String) (contents : Except ReadFailure (List UInt8)) :
    Except (List LocatedFault) Grammar :=
  match contents with
  | .error failure => .error [⟨{ file := path }, .unreadable failure⟩]
  | .ok bytes => loadLines path (textLines bytes)

end Grammar

end LL1
