/-
# Sentences from workspaces

The grammar of a workspace that can be reached is well-formed, so growing a sentence from a symbol fails
at once or not at all, and it fails exactly if the symbol derives no terminal string. It comes to an end
within a depth that does not depend on the choices, by the lowest trees from some depth on. And every
sentence of every non-terminal grows by some choices.
-/
import LL1.Proofs.Sentence.Depth
import LL1.Proofs.Sentence.RandomWords
import LL1.Proofs.Workspace.Reached

namespace LL1

namespace Workspace

/-- Whatever the choices and the greatest free depth: growing from a symbol says that it is not defined
exactly if it is not, and that it derives no terminal string exactly if it is defined and derives none.
From any other symbol a sentence of the symbol grows. All errors are about the symbol itself and come
before anything is chosen. -/
theorem grow_exact {w : Workspace} (hw : w.Reached) {σ : Type} (chooser : Chooser σ) (maxDepth : Nat)
    (s : Symbol) (st : σ) :
    ((w.grammar.grow chooser maxDepth s st).1 = .error (.undefined s) ↔
      w.grammar.declares s = false) ∧
    ((w.grammar.grow chooser maxDepth s st).1 = .error (.noTerminatingAlternative s) ↔
      w.grammar.declares s = true ∧ ¬ w.grammar.Productive s) ∧
    (w.grammar.declares s = true → w.grammar.Productive s →
      ∃ t, (w.grammar.grow chooser maxDepth s st).1 = .ok t ∧
        w.grammar.Generates s t.sentence) ∧
    ∀ e, (w.grammar.grow chooser maxDepth s st).1 = .error e →
      e.located = ⟨.inHead s, e⟩ ∧ (w.grammar.grow chooser maxDepth s st).2 = st ∧
        ∀ n, w.grammar.find? s = some n →
          w.grammar.choices w.grammar.heights maxDepth 0 n = [] := by
  rcases Grammar.grow_cases hw.wellFormed chooser maxDepth s st with
    ⟨hd, heq⟩ | ⟨hd, hproductive, hnone, heq⟩ | ⟨hd, hproductive, t, st', heq, rfl, ht⟩
  · rw [heq, hd]
    simp only [Grammar.declares, Option.isSome_eq_false_iff, Option.isNone_iff_eq_none] at hd
    refine ⟨by simp, by simp, by simp, fun e he => ?_⟩
    obtain rfl := Except.error.inj he
    exact ⟨rfl, rfl, fun n hfind => absurd (hd.symm.trans hfind) (by simp)⟩
  · rw [heq, hd]
    refine ⟨by simp, by simp [hproductive], fun _ hs => absurd hs hproductive, fun e he => ?_⟩
    obtain rfl := Except.error.inj he
    exact ⟨rfl, rfl, hnone⟩
  · rw [heq, hd]
    refine ⟨by simp, by simp [hproductive], fun _ _ => ⟨t, rfl, ht.generates hw.wellFormed hd⟩, ?_⟩
    intro e he
    cases he

/-- In `S->aSb | c`, `A->Ab` the non-terminal `A` derives no terminal string, `Q` is not defined, and from
`S` a sentence grows. -/
theorem grow_exact_of_counting :
    ∃ (w : Workspace) (chooser : Chooser Nat), w.Reached ∧ w.grammar.symbols = ['S', 'A'] ∧
      (w.grammar.grow chooser 3 'Q' 0).1 = .error (.undefined 'Q') ∧
      (w.grammar.grow chooser 3 'A' 0).1 = .error (.noTerminatingAlternative 'A') ∧
      ¬ w.grammar.Productive 'A' ∧
      ∃ t, (w.grammar.grow chooser 3 'S' 0).1 = .ok t ∧ w.grammar.Generates 'S' t.sentence := by
  have hload : Grammar.ofLines ["S->aSb".toList, "S->c".toList, "A->Ab".toList] =
      .ok ⟨[⟨'S', [['a', 'S', 'b'], ['c']]⟩, ⟨'A', [['A', 'b']]⟩]⟩ := rfl
  have hreached := Reached.lines hload
  -- one candidate after the other
  let chooser : Chooser Nat := ⟨fun st count h => (⟨st % count, Nat.mod_lt st h⟩, st + 1)⟩
  have hQ := grow_exact hreached chooser 3 'Q' 0
  have hA := grow_exact hreached chooser 3 'A' 0
  have hS := grow_exact hreached chooser 3 'S' 0
  have hfails : ((ofGrammar ⟨[⟨'S', [['a', 'S', 'b'], ['c']]⟩, ⟨'A', [['A', 'b']]⟩]⟩).grammar.grow
      chooser 3 'A' 0).1 = .error (.noTerminatingAlternative 'A') := by
    rfl
  have hproductive : (ofGrammar ⟨[⟨'S', [['a', 'S', 'b'], ['c']]⟩,
      ⟨'A', [['A', 'b']]⟩]⟩).grammar.Productive 'S' := by
    exact ⟨['c'], Grammar.derives_of_mem_rules (r := ⟨'S', ['c']⟩) (by decide),
      List.forall_mem_singleton.2 (by decide +kernel)⟩
  exact ⟨_, chooser, hreached, rfl, hQ.1.2 rfl, hfails, (hA.2.1.1 hfails).2, hS.2.2.1 rfl hproductive⟩

/-! ## Depth -/

/-- Exactly the non-terminals that derive a terminal string have heights, and these are the heights of
their lowest trees. Whatever the choices, the greatest free depth and the symbol: expansions are nested no
deeper than the greatest free depth and the number of non-terminals together, since what would be done
from there on makes no difference to what grows, a failure included. A tree that grows is no higher than
that, and from the greatest free depth on all its subtrees are of least height. -/
theorem growth_bounded {w : Workspace} (hw : w.Reached) {σ : Type} (chooser : Chooser σ)
    (maxDepth : Nat) (s : Symbol) (st : σ) :
    (∀ a, (w.grammar.heights.get? a).isSome = true ↔
      w.grammar.declares a = true ∧ w.grammar.Productive a) ∧
    (∀ a k, w.grammar.heights.get? a = some k ↔ w.grammar.declares a = true ∧
      ∃ t, w.grammar.IsLowest t ∧ t.root = a ∧ t.height = k) ∧
    (∀ grow, w.grammar.ExpandsAbove w.grammar.heights chooser maxDepth
        (maxDepth + w.grammar.nonTerminals.length) grow →
      grow 0 s st = w.grammar.grow chooser maxDepth s st) ∧
    ∀ t, (w.grammar.grow chooser maxDepth s st).1 = .ok t →
      w.grammar.HasTree t ∧ t.root = s ∧ t.height ≤ maxDepth + w.grammar.nonTerminals.length ∧
        ∀ depth u, SentenceTree.SubtreeAt depth u t → maxDepth ≤ depth → w.grammar.IsLowest u := by
  have hg := hw.wellFormed
  have hexact := Grammar.exact_heights w.grammar
  refine ⟨fun a => hexact.isSome_get?_iff hg, fun a k => hexact.get?_eq_some_iff,
    fun grow hgrow => Grammar.grow_eq_of_expandsAbove hg hgrow, fun t ht => ?_⟩
  have hgrown : w.grammar.grow chooser maxDepth s st =
      (.ok t, (w.grammar.grow chooser maxDepth s st).2) := Prod.ext ht rfl
  obtain ⟨htree, hlowest⟩ := hexact.lowestFrom_of_growTree hg hgrown
  exact ⟨htree, Grammar.root_of_growTree hgrown, hlowest.height_le, hlowest⟩

/-- In `S->SA | A`, `A->B | B`, `B->A | b`, `C->Cc` all non-terminals are recursive. -/
theorem growth_bounded_of_cycle :
    ∃ (w : Workspace) (chooser : Chooser Nat), w.Reached ∧
      w.grammar.symbols = ['S', 'A', 'B', 'C'] ∧
      w.grammar.heights.get? 'S' = some 3 ∧
      (∃ t, w.grammar.IsLowest t ∧ t.root = 'S' ∧ t.height = 3) ∧
      w.grammar.heights.get? 'C' = none ∧ ¬ w.grammar.Productive 'C' ∧
      w.grammar.growTree w.grammar.heights chooser 1 5 0 'S' 0 = w.grammar.grow chooser 1 'S' 0 ∧
      ∃ t, (w.grammar.grow chooser 1 'S' 0).1 = .ok t ∧ t.height = 4 ∧ t.height ≤ 1 + 4 ∧
        ∀ depth u, SentenceTree.SubtreeAt depth u t → 1 ≤ depth → w.grammar.IsLowest u := by
  have hload : Grammar.ofLines ["S->SA".toList, "S->A".toList, "A->B".toList, "B->A".toList,
      "B->b".toList, "C->Cc".toList] = .ok ⟨[⟨'S', [['S', 'A'], ['A']]⟩, ⟨'A', [['B']]⟩,
        ⟨'B', [['A'], ['b']]⟩, ⟨'C', [['C', 'c']]⟩]⟩ := rfl
  have hreached := Reached.lines hload
  -- always the first candidate
  let chooser : Chooser Nat := ⟨fun st _ h => (⟨0, h⟩, st + 1)⟩
  obtain ⟨hsome, hheight, hdepth, hgrown⟩ := growth_bounded hreached chooser 1 'S' 0
  have hroom := hdepth _ (Grammar.expandsAbove_growTree _)
  refine ⟨_, chooser, hreached, rfl, rfl, ((hheight 'S' 3).1 rfl).2, rfl, fun hC => ?_, hroom, ?_⟩
  · exact Bool.false_ne_true ((hsome 'C').2 ⟨rfl, hC⟩)
  · obtain ⟨-, -, hle, hlow⟩ := hgrown _ rfl
    exact ⟨_, rfl, rfl, hle, hlow⟩

/-! ## Choices -/

/-- Every terminal string that a non-terminal generates grows from it, whatever the greatest free depth if
that is large enough: there are choices that are made in a row and lead to exactly this string. All that
is assumed of the chooser is that it can be in a state from which it makes the choices in question, each
among no more candidates than some non-terminal has alternatives. -/
theorem exists_choices_of_generates {w : Workspace} (hw : w.Reached) {σ : Type} (chooser : Chooser σ)
    (hany : ∀ choices, (∀ c ∈ choices, w.grammar.Offers c) → ∃ st st', chooser.Makes choices st st')
    {s : Symbol} (hs : w.grammar.declares s = true) {u : Word} (hu : w.grammar.Generates s u) :
    ∃ least, ∀ maxDepth ≥ least, ∃ choices st st', chooser.Makes choices st st' ∧
      ∃ t, w.grammar.grow chooser maxDepth s st = (.ok t, st') ∧ t.sentence = u := by
  have hg := hw.wellFormed
  obtain ⟨t, ht, rfl, rfl⟩ := hu.exists_tree hg
  refine ⟨t.height, fun maxDepth hdepth => ?_⟩
  have hroom : t.height ≤ maxDepth + w.grammar.nonTerminals.length + 1 := by omega
  obtain ⟨choices, hoffers, hgrown⟩ := (Grammar.exact_heights w.grammar).exists_grownBy hg ht hs
    (by omega : 0 + t.height ≤ maxDepth) hroom
  obtain ⟨st, st', hmakes⟩ := hany choices hoffers
  exact ⟨choices, st, st', hmakes, t, hgrown σ chooser st st' hmakes, rfl⟩

/-- In `S->SS | T`, `T->Tb | a` the string `aba` grows from `S` by random words. -/
theorem exists_choices_of_generates_of_words :
    ∃ w : Workspace, w.Reached ∧ w.grammar.symbols = ['S', 'T'] ∧
      w.grammar.Generates 'S' ['a', 'b', 'a'] ∧
      ∃ maxDepth words t, (w.grammar.grow RandomWords.chooser maxDepth 'S' words).1 = .ok t ∧
        t.sentence = ['a', 'b', 'a'] := by
  let g : Grammar := ⟨[⟨'S', [['S', 'S'], ['T']]⟩, ⟨'T', [['T', 'b'], ['a']]⟩]⟩
  have hload : Grammar.ofLines ["S->SS".toList, "S->T".toList, "T->Tb".toList, "T->a".toList] =
      .ok g := rfl
  have hreached := Reached.lines hload
  have hany : ∀ choices, (∀ c ∈ choices, g.Offers c) →
      ∃ st st', RandomWords.chooser.Makes choices st st' := by
    intro choices hoffers
    have hcount : ∀ c ∈ choices, c.count ≤ wordCount := by
      intro c hc
      obtain ⟨n, hn, hle⟩ := hoffers c hc
      have htwo : ∀ n ∈ g.nonTerminals, n.alternatives.length ≤ 2 := by decide
      exact Nat.le_trans hle (Nat.le_trans (htwo n hn) (by decide))
    obtain ⟨words, hwords⟩ := RandomWords.exists_makes hcount 0
    exact ⟨_, _, hwords⟩
  -- the two halves of the string
  have ha : g.HasTree (.node 'T' [.leaf 'a']) :=
    .node (by decide) (List.forall_mem_singleton.2 (.leaf rfl))
  have hb : g.HasTree (.leaf 'b') := .leaf rfl
  have hab : g.HasTree (.node 'T' [.node 'T' [.leaf 'a'], .leaf 'b']) :=
    .node (by decide) (List.forall_mem_cons.2 ⟨ha, List.forall_mem_singleton.2 hb⟩)
  have hS : ∀ t, g.HasTree t → t.root = 'T' → g.HasTree (.node 'S' [t]) := fun t ht hroot =>
    .node (by rw [List.map_singleton, hroot]; decide) (List.forall_mem_singleton.2 ht)
  have htree : g.HasTree (.node 'S' [.node 'S' [.node 'T' [.node 'T' [.leaf 'a'], .leaf 'b']],
      .node 'S' [.node 'T' [.leaf 'a']]]) :=
    .node (by decide) (List.forall_mem_cons.2 ⟨hS _ hab rfl, List.forall_mem_singleton.2 (hS _ ha rfl)⟩)
  have hgenerates : g.Generates 'S' ['a', 'b', 'a'] := htree.generates hreached.wellFormed rfl
  obtain ⟨least, hleast⟩ := exists_choices_of_generates hreached RandomWords.chooser hany
    (s := 'S') rfl hgenerates
  obtain ⟨choices, st, st', -, t, hgrown, ht⟩ := hleast least (Nat.le_refl least)
  exact ⟨_, hreached, rfl, hgenerates, least, st, t, congrArg Prod.fst hgrown, ht⟩

end Workspace

end LL1
