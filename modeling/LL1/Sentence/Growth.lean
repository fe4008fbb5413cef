/-
# Growing sentences

A sentence is grown from a non-terminal by choosing one of its alternatives and growing the symbols
of that alternative from left to right. Alternatives that derive no terminal string are never
chosen. From a given depth on only the lowest alternatives are, so that the tree comes to an end.
-/
import LL1.Report.Location
import LL1.Sentence.Height
import LL1.Sentence.Tree

namespace LL1

/-! ## Choosing -/

/-- A way to choose one of a number of candidates, with a state of its own. -/
structure Chooser (σ : Type) where
  /-- Chooses an index below `count`. -/
  pick : σ → (count : Nat) → 0 < count → Fin count × σ

/-- Why no sentence can be grown. -/
inductive GrowthFailure where
  /-- The non-terminal is not defined. -/
  | undefined (symbol : Symbol)
  /-- The non-terminal derives no terminal string. -/
  | noTerminatingAlternative (symbol : Symbol)
  deriving DecidableEq, Repr

/-- The wording of a failure. -/
def GrowthFailure.message : GrowthFailure → String
  | .undefined symbol => "No definition for nonterminal `" ++ String.singleton symbol ++ "`"
  | .noTerminatingAlternative symbol =>
    "`" ++ String.singleton symbol ++ "` never derives a terminal string"

/-- The non-terminal a failure is about. -/
def GrowthFailure.symbol : GrowthFailure → Symbol
  | .undefined symbol => symbol
  | .noTerminatingAlternative symbol => symbol

/-- The failure, located at its non-terminal. -/
def GrowthFailure.located (e : GrowthFailure) : Located GrowthFailure :=
  ⟨.inHead e.symbol, e⟩

/-! ## Growing a tree -/

/-- Grows the symbols of a word from left to right, non-terminals by means of `grow`. -/
def growWord {σ : Type} (grow : Symbol → σ → Except GrowthFailure SentenceTree × σ) :
    Word → σ → Except GrowthFailure (List SentenceTree) × σ
  | [], st => (.ok [], st)
  | s :: rest, st =>
    if isTerminal s then
      match growWord grow rest st with
      | (.ok trees, st) => (.ok (.leaf s :: trees), st)
      | (.error e, st) => (.error e, st)
    else
      match grow s st with
      | (.error e, st) => (.error e, st)
      | (.ok tree, st) =>
        match growWord grow rest st with
        | (.ok trees, st) => (.ok (tree :: trees), st)
        | (.error e, st) => (.error e, st)

/-- The alternatives that may be chosen at a depth: those that derive a terminal string, and from
`maxDepth` on only the lowest of them. -/
def Grammar.choices (g : Grammar) (h : Heights) (maxDepth depth : Nat) (n : NonTerminal) :
    List Word :=
  let shortest := least? (n.alternatives.filterMap (g.bodyHeight h))
  n.alternatives.filter fun body =>
    match g.bodyHeight h body with
    | none => false
    | some height => decide (depth < maxDepth) || decide (some height = shortest)

/-- Grows a tree from a non-terminal at the given depth, with `room` for that many nested
expansions. -/
def Grammar.growTree {σ : Type} (g : Grammar) (h : Heights) (chooser : Chooser σ)
    (maxDepth : Nat) : (room depth : Nat) → Symbol → σ → Except GrowthFailure SentenceTree × σ
  | 0, _, s, st => (.error (.noTerminatingAlternative s), st)
  | room + 1, depth, s, st =>
    match g.find? s with
    | none => (.error (.undefined s), st)
    | some n =>
      let bodies := g.choices h maxDepth depth n
      if some_choice : 0 < bodies.length then
        match chooser.pick st bodies.length some_choice with
        | (i, st) =>
          match growWord (g.growTree h chooser maxDepth room (depth + 1)) (bodies.get i) st with
          | (.ok trees, st) => (.ok (.node s trees), st)
          | (.error e, st) => (.error e, st)
      else (.error (.noTerminatingAlternative s), st)

/-- Grows a tree from a symbol, given the heights. From `maxDepth` on every expansion lowers the
height, so expansions are nested no deeper than `maxDepth` and the number of non-terminals
together. -/
def Grammar.growWithin {σ : Type} (g : Grammar) (h : Heights) (chooser : Chooser σ)
    (maxDepth : Nat) (s : Symbol) (st : σ) : Except GrowthFailure SentenceTree × σ :=
  g.growTree h chooser maxDepth (maxDepth + g.nonTerminals.length + 1) 0 s st

/-- Grows a tree from a symbol. -/
def Grammar.grow {σ : Type} (g : Grammar) (chooser : Chooser σ) (maxDepth : Nat) (s : Symbol)
    (st : σ) : Except GrowthFailure SentenceTree × σ :=
  g.growWithin g.heights chooser maxDepth s st

/-! ## Growing many trees -/

/-- Makes a number of attempts in a row. A failure does not end the row. -/
def attempts {σ α : Type} (attempt : σ → α × σ) : (count : Nat) → σ → List α × σ
  | 0, st => ([], st)
  | count + 1, st =>
    match attempt st with
    | (result, st) =>
      match attempts attempt count st with
      | (more, st) => (result :: more, st)

/-- Makes a number of attempts in a row, up to the first failure. The answer holds what was obtained,
that of earlier attempts included, which is given newest first, and the failure. -/
def attemptsUntilFailure {σ ε α : Type} (attempt : σ → Except ε α × σ) :
    (count : Nat) → (obtained : List α) → σ → List α × Option ε
  | 0, obtained, _ => (obtained.reverse, none)
  | count + 1, obtained, st =>
    match attempt st with
    | (.error e, _) => (obtained.reverse, some e)
    | (.ok a, st) => attemptsUntilFailure attempt count (a :: obtained) st

/-- Grows a number of trees in a row. -/
def Grammar.growMany {σ : Type} (g : Grammar) (chooser : Chooser σ) (maxDepth : Nat) (s : Symbol)
    (count : Nat) (st : σ) : List (Except GrowthFailure SentenceTree) × σ :=
  attempts (g.growWithin g.heights chooser maxDepth s) count st

/-- Grows sentences in a row, up to the first failure. -/
def Grammar.growSentences {σ : Type} (g : Grammar) (chooser : Chooser σ) (maxDepth : Nat)
    (s : Symbol) (count : Nat) (st : σ) : List Word × Option GrowthFailure :=
  let grown := g.growWithin g.heights chooser maxDepth s
  attemptsUntilFailure
    (fun st =>
      match grown st with
      | (result, st) => (result.map SentenceTree.sentence, st))
    count [] st

end LL1
