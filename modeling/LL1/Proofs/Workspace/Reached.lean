/-
# Workspaces that can be reached

A workspace starts with a grammar that was loaded. From there it is rewritten, solved, prepared for
the recogniser or asked about, in any order. Its grammar is always well-formed.
-/
import LL1.Proofs.Rewriting.Elimination
import LL1.Workspace.Basic

namespace LL1

namespace Workspace

/-! ## Operations -/

/-- One question to a workspace. The answer may rest on what is remembered, and it may add to it. -/
inductive Query (w : Workspace) : Workspace → Prop where
  /-- Whether a non-terminal derives the empty word. -/
  | nullableHead {n : NonTerminal} (h : n ∈ w.grammar.nonTerminals) : Query w (w.nullableHead n).2
  /-- Whether a rule derives the empty word. -/
  | nullableRule {r : Rule} (h : r ∈ w.grammar.rules) : Query w (w.nullableRule r).2
  /-- Whether a word derives the empty word. -/
  | nullableWord (v : Word) : Query w (w.nullableWord v).2
  /-- FIRST of a word. -/
  | firstOfWord (v : Word) : Query w (w.firstOfWord v).2
  /-- The table. -/
  | predict : Query w w.predict.2
  /-- The table, which is kept. -/
  | keepTable : Query w w.keepTable

/-- Any number of questions. -/
inductive Queried (w : Workspace) : Workspace → Prop where
  /-- No question. -/
  | refl : Queried w w
  /-- One question more. -/
  | snoc {u v : Workspace} (h : Queried w u) (last : Query u v) : Queried w v

/-- The workspaces that can be reached. -/
inductive Reached : Workspace → Prop where
  /-- A grammar is loaded from lines in memory. -/
  | lines {lines : List (List Char)} {g : Grammar} (h : Grammar.ofLines lines = .ok g) :
    Reached (.ofGrammar g)
  /-- A grammar is loaded from a file. -/
  | file {path : String} {contents : Except ReadFailure (List UInt8)} {g : Grammar}
    (h : Grammar.ofFile path contents = .ok g) : Reached (.ofGrammar g)
  /-- The grammar is rewritten. -/
  | eliminate {w v : Workspace} (hw : Reached w) (h : w.eliminate = .ok v) : Reached v
  /-- The sets are computed. -/
  | solve {w : Workspace} (hw : Reached w) : Reached w.solve
  /-- The grammar is prepared for the recogniser. -/
  | process {w v : Workspace} (hw : Reached w) (h : w.process = .ok v) : Reached v
  /-- A question is asked. -/
  | query {w v : Workspace} (hw : Reached w) (h : Query w v) : Reached v

/-! ## What questions leave alone -/

/-- A question changes neither the grammar nor its sets. -/
theorem Query.same {w v : Workspace} (h : w.Query v) :
    v.grammar = w.grammar ∧ v.first = w.first ∧ v.follow = w.follow := by
  cases h <;> exact ⟨rfl, rfl, rfl⟩

/-- The grammar of a workspace that can be reached is well-formed. -/
theorem Reached.wellFormed {w : Workspace} (h : w.Reached) : w.grammar.WellFormed := by
  induction h with
  | lines h => exact Grammar.wellFormed_of_ofLines h
  | file h => exact Grammar.wellFormed_of_ofFile h
  | eliminate _ h ih => exact Grammar.wellFormed_of_eliminate ih (grammar_of_eliminate h)
  | solve _ ih => exact ih
  | process _ h ih => exact Grammar.wellFormed_of_eliminate ih (grammar_of_process h)
  | query _ h ih =>
    rw [h.same.1]
    exact ih

end Workspace

end LL1
