/-
# Reading a line

A line of a grammar file is one rule: a head, the arrow `->` and a right-hand side. The first arrow
counts, any later `-` and `>` are ordinary symbols. Of several faults in a line the first one in the
order of `parseLine` is reported.
-/
import LL1.Grammar.Rule
import LL1.Source.Fault
import LL1.Text.Blank

namespace LL1

/-! ## The parts of a line -/

/-- Splits a line at its first arrow. -/
def splitAtArrow : List Char → Option (List Char × List Char)
  | [] => none
  | '-' :: '>' :: rest => some ([], rest)
  | c :: rest => (splitAtArrow rest).map fun (before, after) => (c :: before, after)

/-- The head of a rule: exactly one upper-case symbol. -/
def parseHead : List Char → Except Fault Symbol
  | [] => .error .missingHead
  | [s] => if isUppercase s then .ok s else .error (.invalidHead [s])
  | text => .error (.invalidHead text)

/-- The right-hand side of a rule: at least one symbol, and no end marker. -/
def parseBody (text : List Char) : Except Fault Word :=
  if text.isEmpty then .error .emptyRightHandSide
  else if endMarker ∈ text then .error .reservedEndMarker
  else .ok text

/-- The rule on a line. -/
def parseLine (line : List Char) : Except Fault Rule :=
  match splitAtArrow line with
  | none => .error .missingArrow
  | some (before, after) =>
    match parseHead before with
    | .error fault => .error fault
    | .ok head =>
      match parseBody after with
      | .error fault => .error fault
      | .ok body => .ok ⟨head, body⟩

/-- The line without the carriage returns at its end. -/
def dropReturns (line : List Char) : List Char :=
  dropTrailing (fun c => c == '\r') line

/-! ## Arrows -/

/-- A line that splits is what stands before the arrow, the arrow, and what stands after it. -/
theorem append_of_splitAtArrow {line before after : List Char}
    (h : splitAtArrow line = some (before, after)) : line = before ++ '-' :: '>' :: after := by
  fun_induction splitAtArrow line generalizing before after with
  | case1 => cases h
  | case2 rest =>
    cases h
    rfl
  | case3 c rest _ ih =>
    obtain ⟨⟨b, a⟩, hsplit, heq⟩ := Option.map_eq_some_iff.1 h
    cases heq
    rw [ih hsplit]
    rfl

end LL1
