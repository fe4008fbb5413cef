/-
# A grammar and what is known about it

A workspace holds a grammar together with everything that was computed for it: the marks of its
rules, its FIRST and FOLLOW sets, its table and the conflicts of the table. Each operation leads
from a workspace to a workspace. An operation computes what it was asked for and leaves the rest as
it is, so sets and tables can be out of date until they are computed again.
-/
import LL1.Analysis.Follow
import LL1.Analysis.Prediction
import LL1.Recogniser.Run
import LL1.Rewriting.Elimination

namespace LL1

/-- A grammar and what is known about it. -/
structure Workspace where
  /-- The grammar. -/
  grammar : Grammar
  /-- The marks of its rules. -/
  memo : Memo := {}
  /-- Its FIRST sets. -/
  first : SetFamily := {}
  /-- Its FOLLOW sets. -/
  follow : SetFamily := {}
  /-- Its table, and the conflicts met while filling it. -/
  prediction : Prediction := {}
  deriving DecidableEq, Repr

namespace Workspace

/-- A grammar about which nothing is known yet. -/
def ofGrammar (g : Grammar) : Workspace :=
  { grammar := g }

/-! ## Queries

What a query learns about nullability stays in the memo. -/

/-- Whether a non-terminal derives the empty word. -/
def nullableHead (w : Workspace) (n : NonTerminal) : Bool × Workspace :=
  match w.grammar.nullableHead n w.memo with
  | (answer, memo) => (answer, { w with memo })

/-- Whether a rule derives the empty word. -/
def nullableRule (w : Workspace) (r : Rule) : Bool × Workspace :=
  match w.grammar.nullableRule r w.memo with
  | (answer, memo) => (answer, { w with memo })

/-- Whether a word derives the empty word. -/
def nullableWord (w : Workspace) (v : Word) : Bool × Workspace :=
  match w.grammar.nullableWord v w.memo with
  | (answer, memo) => (answer, { w with memo })

/-- FIRST of a word, by the FIRST sets at hand. -/
def firstOfWord (w : Workspace) (v : Word) : SymbolSet × Workspace :=
  match w.grammar.firstOfWord w.first v w.memo with
  | (answer, memo) => (answer, { w with memo })

/-! ## Computing -/

/-- Removes left factoring and immediate left recursion from the grammar. Non-terminals that are not
touched keep their sets, the others lose them. Marks are kept for the rules that remain. -/
def eliminate (w : Workspace) : Except RewriteFailure Workspace :=
  w.grammar.eliminate.map fun g =>
    { w with
      grammar := g
      memo := w.memo.marksOnly
      first := w.first.carryOver w.grammar g
      follow := w.follow.carryOver w.grammar g }

/-- The memo from which the sets are computed: old marks are forgotten, and every non-terminal is
asked about once. -/
def freshMemo (w : Workspace) : Memo :=
  w.grammar.learnNullable {}

/-- The FIRST sets of the grammar. -/
def settledFirst (w : Workspace) : Settled SetState :=
  w.grammar.firstSets w.freshMemo

/-- The FOLLOW sets of the grammar. -/
def settledFollow (w : Workspace) : Settled SetState :=
  w.grammar.followSets w.settledFirst.state.sets w.settledFirst.state.memo

/-- Computes the FIRST and FOLLOW sets. -/
def solve (w : Workspace) : Workspace :=
  { w with
    memo := w.settledFollow.state.memo
    first := w.settledFirst.state.sets
    follow := w.settledFollow.state.sets }

/-- Fills a table from the sets at hand. The table is not kept. -/
def predict (w : Workspace) : Prediction × Workspace :=
  match w.grammar.predict w.first w.follow w.memo with
  | ⟨prediction, memo⟩ => (prediction, { w with memo })

/-- Fills a table from the sets at hand and keeps it. -/
def keepTable (w : Workspace) : Workspace :=
  match w.predict with
  | (prediction, w) => { w with prediction }

/-- Prepares the grammar for the recogniser: it is rewritten, its sets are computed and its table is
filled. If it cannot be rewritten nothing changes. -/
def process (w : Workspace) : Except RewriteFailure Workspace :=
  w.eliminate.map fun w => w.solve.keepTable

/-- What an attempt to rewrite the grammar leaves behind: what it leads to, or all as it was. -/
def eliminated (w : Workspace) : Workspace :=
  w.eliminate.toOption.getD w

/-- What an attempt to prepare the grammar leaves behind: what it leads to, or all as it was. -/
def processed (w : Workspace) : Workspace :=
  w.process.toOption.getD w

/-! ## Reading -/

/-- Runs the recogniser on an input. -/
def recognise (w : Workspace) (input : Word) : Verdict :=
  LL1.recognise w.grammar w.prediction.table input

/-- Whether two workspaces hold the same grammar, the same table with the same conflicts, and sets
with the same members. What is remembered about nullability does not count. -/
def same (w v : Workspace) : Bool :=
  decide (w.grammar = v.grammar) && w.first.sameOn v.first w.grammar.symbols &&
    w.follow.sameOn v.follow w.grammar.symbols && decide (w.prediction = v.prediction)

/-! ## Steps of the preparation -/

/-- Rewriting a workspace rewrites its grammar, keeps the marks and leaves the table alone. -/
theorem cases_eliminate {w v : Workspace} (h : w.eliminate = .ok v) :
    w.grammar.eliminate = .ok v.grammar ∧ v.memo = w.memo.marksOnly ∧
      v.prediction = w.prediction := by
  obtain ⟨g, hg, rfl⟩ := exists_of_map_eq_ok h
  exact ⟨hg, rfl, rfl⟩

/-- The sets that remain after a rewriting are carried over. -/
theorem sets_of_eliminate {w v : Workspace} (h : w.eliminate = .ok v) :
    v.first = w.first.carryOver w.grammar v.grammar ∧
      v.follow = w.follow.carryOver w.grammar v.grammar := by
  obtain ⟨g, -, rfl⟩ := exists_of_map_eq_ok h
  exact ⟨rfl, rfl⟩

/-- Preparing a workspace rewrites it, computes the sets and fills the table. -/
theorem cases_process {w v : Workspace} (h : w.process = .ok v) :
    ∃ u, w.eliminate = .ok u ∧ v = u.solve.keepTable := by
  obtain ⟨u, hu, rfl⟩ := exists_of_map_eq_ok h
  exact ⟨u, hu, rfl⟩

/-- Rewriting a workspace fails if its grammar cannot be rewritten. -/
theorem failure_of_eliminate {w : Workspace} {f : RewriteFailure} (h : w.eliminate = .error f) :
    w.grammar.eliminate = .error f :=
  eq_error_of_map_eq_error h

/-- Preparing a workspace fails if its grammar cannot be rewritten. -/
theorem failure_of_process {w : Workspace} {f : RewriteFailure} (h : w.process = .error f) :
    w.grammar.eliminate = .error f :=
  failure_of_eliminate (eq_error_of_map_eq_error h)

/-- Rewriting a workspace rewrites its grammar. -/
theorem grammar_of_eliminate {w v : Workspace} (h : w.eliminate = .ok v) :
    w.grammar.eliminate = .ok v.grammar :=
  (cases_eliminate h).1

/-- Computing the sets leaves the grammar alone. -/
theorem grammar_solve (w : Workspace) : w.solve.grammar = w.grammar := rfl

/-- Filling the table leaves the grammar alone. -/
theorem grammar_keepTable (w : Workspace) : w.keepTable.grammar = w.grammar := rfl

/-- Preparing a workspace rewrites its grammar and does nothing else to it. -/
theorem grammar_of_process {w v : Workspace} (h : w.process = .ok v) :
    w.grammar.eliminate = .ok v.grammar := by
  obtain ⟨u, hu, rfl⟩ := cases_process h
  rw [grammar_keepTable, grammar_solve]
  exact grammar_of_eliminate hu

/-- A rewriting that succeeds leaves behind what it leads to. -/
theorem eliminated_of_ok {w v : Workspace} (h : w.eliminate = .ok v) : w.eliminated = v := by
  rw [eliminated, h]
  rfl

/-- A rewriting that fails leaves all as it was. -/
theorem eliminated_of_error {w : Workspace} {f : RewriteFailure} (h : w.eliminate = .error f) :
    w.eliminated = w := by
  rw [eliminated, h]
  rfl

/-- A preparation that succeeds leaves behind what it leads to. -/
theorem processed_of_ok {w v : Workspace} (h : w.process = .ok v) : w.processed = v := by
  rw [processed, h]
  rfl

/-- A preparation that fails leaves all as it was. -/
theorem processed_of_error {w : Workspace} {f : RewriteFailure} (h : w.process = .error f) :
    w.processed = w := by
  rw [processed, h]
  rfl

end Workspace

end LL1
