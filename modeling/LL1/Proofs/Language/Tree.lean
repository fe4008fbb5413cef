/-
# Trees and what they yield

Derivation trees that stand side by side are gone through depth first: a leaf is put aside, and a
node gives way to its children in front of the trees behind it. This is how their roots yield their
sentences, with a replacement for each node.
-/
import LL1.Language.Tree
import LL1.Proofs.Language.Yield

namespace LL1

namespace SentenceTree

/-! ## Going through trees -/

mutual

/-- What holds of some trees holds with one more tree in front of them. -/
theorem forest_cons {P : List SentenceTree → Prop} (hleaf : ∀ s rest, P rest → P (leaf s :: rest))
    (hnode : ∀ s children rest, P (children ++ rest) → P (node s children :: rest)) :
    ∀ (t : SentenceTree) (rest : List SentenceTree), P rest → P (t :: rest)
  | .leaf s, rest, h => hleaf s rest h
  | .node s children, rest, h => hnode s children rest (forest_append hleaf hnode children rest h)

/-- What holds of some trees holds with more trees in front of them. -/
theorem forest_append {P : List SentenceTree → Prop} (hleaf : ∀ s rest, P rest → P (leaf s :: rest))
    (hnode : ∀ s children rest, P (children ++ rest) → P (node s children :: rest)) :
    ∀ ts rest : List SentenceTree, P rest → P (ts ++ rest)
  | [], _, h => h
  | t :: ts, rest, h => forest_cons hleaf hnode t (ts ++ rest) (forest_append hleaf hnode ts rest h)

end

/-- What holds of no trees, and is kept when a leaf or a node with its children is put in front,
holds of all lists of trees. -/
theorem forest_induction {P : List SentenceTree → Prop} (nil : P [])
    (leaf : ∀ s rest, P rest → P (.leaf s :: rest))
    (node : ∀ s children rest, P (children ++ rest) → P (.node s children :: rest))
    (ts : List SentenceTree) : P ts := by
  have h := forest_append leaf node ts [] nil
  rwa [List.append_nil] at h

/-- Trees side by side spell what both parts spell. -/
theorem sentences_append (ts us : List SentenceTree) :
    sentences (ts ++ us) = sentences ts ++ sentences us := by
  induction ts with
  | nil => rw [sentences_nil, List.nil_append, List.nil_append]
  | cons t ts ih => rw [List.cons_append, sentences_cons, sentences_cons, ih, List.append_assoc]

/-- A node with trees behind it spells what its children spell with the trees behind them. -/
theorem sentences_node_cons (s : Symbol) (children rest : List SentenceTree) :
    sentences (node s children :: rest) = sentences (children ++ rest) := by
  rw [sentences_cons, sentence_node, sentences_append]

end SentenceTree

namespace Grammar

open SentenceTree

variable {g : Grammar} {s : Symbol} {children ts us : List SentenceTree}

/-! ## Derivation trees -/

/-- The root of a leaf is not declared. -/
theorem HasTree.declares_leaf (h : g.HasTree (.leaf s)) : g.declares s = false := by
  cases h with
  | leaf hs => exact hs

/-- A node is an application of a rule to derivation trees. -/
theorem HasTree.cases_node (h : g.HasTree (.node s children)) :
    ⟨s, children.map root⟩ ∈ g.rules ∧ ∀ t ∈ children, g.HasTree t := by
  cases h with
  | node hr below => exact ⟨hr, below⟩

/-- A derivation tree with an undeclared root is a leaf. -/
theorem HasTree.eq_leaf {t : SentenceTree} (h : g.HasTree t) (hs : g.declares t.root = false) :
    t = .leaf t.root := by
  cases h with
  | leaf _ => rfl
  | node hr _ =>
    rw [root, declares_of_mem_rules hr] at hs
    cases hs

/-- A derivation tree with a declared root is a node. -/
theorem HasTree.eq_node {t : SentenceTree} (h : g.HasTree t) (hs : g.declares t.root = true) :
    ∃ children, t = .node t.root children := by
  cases h with
  | leaf hleaf =>
    rw [root, hleaf] at hs
    cases hs
  | node _ _ => exact ⟨_, rfl⟩

/-- The roots of derivation trees yield their sentences. -/
theorem exists_yields_of_hasTree (h : ∀ t ∈ ts, g.HasTree t) :
    ∃ n, g.Yields n (ts.map root) (sentences ts) := by
  induction ts using forest_induction with
  | nil => exact ⟨0, .nil⟩
  | leaf s rest ih =>
    rw [List.forall_mem_cons] at h
    obtain ⟨n, hn⟩ := ih h.2
    rw [List.map_cons, root, sentences_cons, sentence_leaf]
    by_cases hs : s = epsilon
    · subst hs
      exact ⟨n, .epsilon hn⟩
    · rw [withoutEpsilon_cons_of_ne hs]
      exact ⟨n, .symbol hs h.1.declares_leaf hn⟩
  | node s children rest ih =>
    rw [List.forall_mem_cons] at h
    obtain ⟨hr, hchildren⟩ := h.1.cases_node
    obtain ⟨n, hn⟩ := ih (List.forall_mem_append.2 ⟨hchildren, h.2⟩)
    rw [List.map_append] at hn
    rw [List.map_cons, root, sentences_node_cons]
    exact ⟨n + 1, .expand hr hn⟩

/-- What a word yields is spelled by derivation trees with the symbols of the word at their roots. -/
theorem Yields.exists_forest {n : Nat} {v u : Word} (hg : g.declares LL1.epsilon = false)
    (h : g.Yields n v u) :
    ∃ ts : List SentenceTree, ts.map root = v ∧ (∀ t ∈ ts, g.HasTree t) ∧ sentences ts = u := by
  induction h with
  | nil => exact ⟨[], rfl, fun t ht => absurd ht List.not_mem_nil, sentences_nil⟩
  | epsilon _ ih =>
    obtain ⟨ts, rfl, hts, rfl⟩ := ih
    refine ⟨.leaf LL1.epsilon :: ts, rfl, List.forall_mem_cons.2 ⟨.leaf hg, hts⟩, ?_⟩
    rw [sentences_cons, sentence_leaf, withoutEpsilon_cons_epsilon]
    rfl
  | @symbol n s v u hne hs _ ih =>
    obtain ⟨ts, rfl, hts, rfl⟩ := ih
    refine ⟨.leaf s :: ts, rfl, List.forall_mem_cons.2 ⟨.leaf hs, hts⟩, ?_⟩
    rw [sentences_cons, sentence_leaf, withoutEpsilon_cons_of_ne hne]
    rfl
  | @expand n s body v u hr _ ih =>
    obtain ⟨all, hroots, hall, rfl⟩ := ih
    obtain ⟨children, ts, rfl, rfl, rfl⟩ := List.map_eq_append_iff.1 hroots
    rw [List.forall_mem_append] at hall
    refine ⟨.node s children :: ts, rfl, List.forall_mem_cons.2 ⟨.node hr hall.1, hall.2⟩, ?_⟩
    exact sentences_node_cons s children ts

end Grammar

end LL1
