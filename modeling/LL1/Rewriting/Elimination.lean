/-
# Rewriting a whole grammar

Non-terminals are visited in order of declaration. Whatever a step puts in the place of a
non-terminal is visited again before the next one, and a fresh non-terminal is declared right after
the one it was split from. The grammar changes only if every step succeeds.
-/
import LL1.Grammar.Basic
import LL1.Rewriting.Notice

namespace LL1

/-! ## Results -/

section Results

variable {ε α β : Type} {f : α → β} {e : Except ε α}

/-- A result that is changed afterwards was there before. -/
theorem exists_of_map_eq_ok {b : β} (h : e.map f = .ok b) : ∃ a, e = .ok a ∧ f a = b := by
  cases e with
  | error x => cases h
  | ok a =>
    cases h
    exact ⟨a, rfl, rfl⟩

/-- A failure stays what it was when the result is changed. -/
theorem eq_error_of_map_eq_error {x : ε} (h : e.map f = .error x) : e = .error x := by
  cases e with
  | error y =>
    cases h
    rfl
  | ok a => cases h

end Results

/-! ## The visit -/

/-- The result of rewriting a list of non-terminals. -/
structure Elimination where
  /-- The rewritten non-terminals, or why there are none. -/
  result : Except RewriteFailure (List NonTerminal)
  /-- What was reported on the way. -/
  notices : List RewriteNotice

namespace Elimination

/-- Puts a non-terminal in front of the result. -/
def push (n : NonTerminal) (e : Elimination) : Elimination :=
  { e with result := e.result.map fun rest => n :: rest }

/-- Puts notices in front of those of the result. -/
def report (notices : List RewriteNotice) (e : Elimination) : Elimination :=
  { e with notices := notices ++ e.notices }

/-- Rewrites the pending non-terminals, drawing fresh symbols from the supply. A split draws a
symbol and leaves one more non-terminal pending, any other step leaves one less, so twice the length
of the supply plus the number of pending non-terminals goes down with every step. -/
def run (supply : Supply) (pending : List NonTerminal) : Elimination :=
  match pending with
  | [] => ⟨.ok [], []⟩
  | n :: rest =>
    report (n.plan.notices n.symbol supply) <|
      match n.plan, supply with
      | .settle m _, supply => (run supply rest).push m
      | .refuse, _ => ⟨.error (.noBaseCase n.symbol), []⟩
      | .divide _, [] => ⟨.error .symbolsExhausted, []⟩
      | .divide d, fresh :: supply => run supply (d.head fresh :: d.tail fresh :: rest)
termination_by 2 * supply.length + pending.length

end Elimination

/-! ## Grammars -/

namespace Grammar

/-- The symbols that no non-terminal of the grammar bears. -/
def supply (g : Grammar) : Supply :=
  .outside g.symbols

/-- Rewrites every non-terminal until none is left factorable or left recursive. -/
def elimination (g : Grammar) : Elimination :=
  Elimination.run g.supply g.nonTerminals

/-- The grammar without left factoring and immediate left recursion. -/
def eliminate (g : Grammar) : Except RewriteFailure Grammar :=
  g.elimination.result.map Grammar.mk

end Grammar

end LL1
