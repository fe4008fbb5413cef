/-
# Sentence trees

A sentence is grown as a tree: a node for each non-terminal that was expanded, with the symbols of
the alternative that was chosen below it. The sentence is read off the leaves, epsilons aside.
-/
import LL1.Symbol.Basic

namespace LL1

/-- A derivation tree. -/
inductive SentenceTree where
  /-- A terminal. -/
  | leaf (symbol : Symbol)
  /-- A non-terminal and the trees of the symbols it was replaced by. -/
  | node (symbol : Symbol) (children : List SentenceTree)

namespace SentenceTree

/-- The symbol at the root. -/
def root : SentenceTree → Symbol
  | leaf s => s
  | node s _ => s

/-! ## Sentences -/

mutual

/-- The leaves of a tree from left to right, epsilons left out, and a word behind them. -/
def sentenceBefore : SentenceTree → (after : Word) → Word
  | leaf s, after => withoutEpsilon [s] ++ after
  | node _ children, after => sentencesBefore children after

/-- The leaves of a list of trees from left to right, epsilons left out, and a word behind them. -/
def sentencesBefore : List SentenceTree → (after : Word) → Word
  | [], after => after
  | t :: rest, after => sentenceBefore t (sentencesBefore rest after)

end

/-- The leaves from left to right, epsilons left out. -/
def sentence (t : SentenceTree) : Word :=
  sentenceBefore t []

/-- The sentences of a list of trees, one after the other. -/
def sentences (trees : List SentenceTree) : Word :=
  sentencesBefore trees []

mutual

/-- The word behind a tree stays behind its sentence. -/
theorem sentenceBefore_eq : ∀ (t : SentenceTree) (after : Word),
    sentenceBefore t after = sentence t ++ after
  | leaf s, after => by simp [sentence, sentenceBefore]
  | node s children, after => by
    have h := sentencesBefore_eq children after
    simpa [sentence, sentenceBefore, sentences] using h

/-- The word behind a list of trees stays behind their sentences. -/
theorem sentencesBefore_eq : ∀ (trees : List SentenceTree) (after : Word),
    sentencesBefore trees after = sentences trees ++ after
  | [], after => by simp [sentences, sentencesBefore]
  | t :: rest, after => by
    have hall := sentencesBefore_eq rest after
    have hfirst := sentenceBefore_eq t (sentences rest ++ after)
    have hrest := sentenceBefore_eq t (sentences rest)
    show sentenceBefore t (sentencesBefore rest after) = sentenceBefore t (sentences rest) ++ after
    rw [hall, hfirst, hrest, List.append_assoc]

end

/-- A leaf spells its symbol, unless that is epsilon. -/
theorem sentence_leaf (s : Symbol) : (leaf s).sentence = withoutEpsilon [s] := by
  simp [sentence, sentenceBefore]

/-- A node spells what its children spell. -/
theorem sentence_node (s : Symbol) (children : List SentenceTree) :
    (node s children).sentence = sentences children := by
  simp [sentence, sentenceBefore, sentences]

/-- No trees spell nothing. -/
theorem sentences_nil : sentences [] = [] := by
  simp [sentences, sentencesBefore]

/-- A list of trees spells what its trees spell in turn. -/
theorem sentences_cons (t : SentenceTree) (rest : List SentenceTree) :
    sentences (t :: rest) = t.sentence ++ sentences rest := by
  show sentenceBefore t (sentencesBefore rest []) = t.sentence ++ sentencesBefore rest []
  exact sentenceBefore_eq t _

/-! ## Heights -/

mutual

/-- The number of nodes on the longest path from the root to a leaf. -/
def height : SentenceTree → Nat
  | leaf _ => 0
  | node _ children => heights children + 1

/-- The height of the highest tree of a list. -/
def heights : List SentenceTree → Nat
  | [] => 0
  | t :: rest => max (height t) (heights rest)

end

end SentenceTree

end LL1
