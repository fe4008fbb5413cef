/-
# Derivation heights

The height of a non-terminal is the height of its lowest derivation tree. Heights are found in
passes over the grammar: an alternative is one higher than the highest of its non-terminals, and a
non-terminal is as high as its lowest alternative. A non-terminal that derives no terminal string
gets no height.
-/
import LL1.Analysis.Settling
import LL1.Grammar.Basic

namespace LL1

/-- The heights found so far. -/
structure Heights where
  /-- The non-terminals with their heights. -/
  entries : List (Symbol × Nat) := []
  deriving DecidableEq, Repr

namespace Heights

/-- The height of a non-terminal, if it has one. -/
def get? (h : Heights) (s : Symbol) : Option Nat :=
  h.entries.lookup s

/-- Gives a non-terminal a height. -/
def set (h : Heights) (s : Symbol) (height : Nat) : Heights :=
  ⟨(s, height) :: h.entries.filter fun e => decide (e.1 ≠ s)⟩

/-- A non-terminal has the height it was given. -/
theorem get?_set_self (h : Heights) (s : Symbol) (height : Nat) :
    (h.set s height).get? s = some height := by
  simp [get?, set]

end Heights

/-- The least number of a list. -/
def least? : List Nat → Option Nat
  | [] => none
  | n :: rest =>
    match least? rest with
    | none => some n
    | some m => some (min n m)

namespace Grammar

/-! ## Heights of alternatives -/

/-- The height of the highest non-terminal of a word, if all of them have heights. -/
def highest (g : Grammar) (h : Heights) : Word → Option Nat
  | [] => some 0
  | s :: rest =>
    if g.declares s then
      match h.get? s, g.highest h rest with
      | some a, some b => some (max a b)
      | _, _ => none
    else g.highest h rest

/-- The height of the lowest tree that begins with an alternative. -/
def bodyHeight (g : Grammar) (h : Heights) (body : Word) : Option Nat :=
  (g.highest h body).map fun n => n + 1

/-! ## Heights of non-terminals -/

/-- Lowers the height of a non-terminal to that of its lowest alternative. -/
def relax (g : Grammar) (h : Heights) (n : NonTerminal) : Heights :=
  match least? (n.alternatives.filterMap (g.bodyHeight h)) with
  | none => h
  | some best =>
    match h.get? n.symbol with
    | none => h.set n.symbol best
    | some known => if best < known then h.set n.symbol best else h

/-- One pass over all non-terminals. -/
def heightPass (g : Grammar) (h : Heights) : Heights :=
  g.nonTerminals.foldl g.relax h

/-- The heights of the non-terminals. No tree of least height repeats a non-terminal on a path, so
as many passes as there are non-terminals find all heights, and one more finds nothing new. -/
def heights (g : Grammar) : Heights :=
  (untilSettled (fun a b => decide (a = b)) g.heightPass (g.nonTerminals.length + 1) {}).state

end Grammar

end LL1
