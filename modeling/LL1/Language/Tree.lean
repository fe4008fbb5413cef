/-
# Derivation trees

A tree is a derivation tree of a grammar if each of its nodes is an application of a rule: the
symbols below a node, epsilons included, spell an alternative of the symbol at the node. Symbols
that the grammar does not define are leaves.
-/
import LL1.Grammar.Basic
import LL1.Sentence.Tree

namespace LL1

/-- Derivation trees of a grammar. -/
inductive Grammar.HasTree (g : Grammar) : SentenceTree → Prop where
  /-- A symbol that is not defined stands for itself. -/
  | leaf {s : Symbol} (h : g.declares s = false) : HasTree g (.leaf s)
  /-- The children of a node spell one of its alternatives. -/
  | node {s : Symbol} {children : List SentenceTree}
    (h : ⟨s, children.map SentenceTree.root⟩ ∈ g.rules) (below : ∀ t ∈ children, HasTree g t) :
    HasTree g (.node s children)

/-- Some string has two different derivation trees from the start symbol. -/
def Grammar.Ambiguous (g : Grammar) : Prop :=
  ∃ t u : SentenceTree, t ≠ u ∧ g.HasTree t ∧ g.HasTree u ∧ t.root = g.start ∧
    u.root = g.start ∧ t.sentence = u.sentence ∧ ∀ s ∈ t.sentence, isTerminal s = true

/-- A tree of least height for the symbol at its root. -/
def Grammar.IsLowest (g : Grammar) (t : SentenceTree) : Prop :=
  g.HasTree t ∧ ∀ u, g.HasTree u → u.root = t.root → t.height ≤ u.height

end LL1
