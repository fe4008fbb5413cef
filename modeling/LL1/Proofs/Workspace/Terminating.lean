/-
# Solving comes to an end

Neither the evaluations that find out about nullability nor the passes over the rules have a bound
of their own. Evaluations are nested no deeper than the grammar has rules, since no rule is
evaluated inside its own evaluation, and the passes stop since the sets grow within the alphabet.
It does not matter whether the grammar is left recursive, or whether its non-terminals derive each
other.
-/
import LL1.Proofs.Analysis.CallStack
import LL1.Proofs.Workspace.Solved

namespace LL1

namespace Workspace

variable {w : Workspace}

/-- With any marks, a question about a non-terminal or an unmarked rule comes to the answer. Until
then, the rules that are evaluated inside each other are different rules of the grammar, and no rule
is entered while it is under evaluation. The passes that compute the FIRST and the FOLLOW sets are
repeated until one of them changes nothing, and each time there is at most one pass for every
non-terminal and terminal, and one more. -/
theorem solve_terminates (hw : w.Reached) :
    (∀ m s result, Evaluator.Poses w.grammar m s result →
      (∃ e, e.nullable = result.1 ∧
        Evaluator.Reaches w.grammar s ⟨.answering e, [], result.2⟩) ∧
      ∀ s', Evaluator.Reaches w.grammar s s' →
        s'.rules.Nodup ∧ s'.rules ⊆ w.grammar.rules ∧
          s'.rules.length ≤ w.grammar.rules.length ∧
          ∀ f, s'.stage = .entering f → s'.memo.mark f.rule ≠ .inProgress) ∧
    (Settles SetState.sameSets w.grammar.firstPass ⟨.empty w.grammar.symbols, w.freshMemo⟩
        w.settledFirst ∧
      w.settledFirst.passes ≤ w.grammar.nonTerminals.length * w.grammar.terminals.size + 1) ∧
    Settles SetState.sameSets (w.grammar.followPass w.settledFirst.state.sets)
        ⟨w.grammar.followSeed, w.settledFirst.state.memo⟩ w.settledFollow ∧
      w.settledFollow.passes ≤ w.grammar.nonTerminals.length * w.grammar.terminals.size + 1 := by
  have hg := hw.wellFormed
  have hmemo : w.freshMemo.Ready w.grammar :=
    Grammar.ready_learnNullable hg (Memo.ready_empty w.grammar)
  obtain ⟨hready, hfirst⟩ := Grammar.exactFirst_firstSets hg hmemo
  refine ⟨?_, Grammar.settles_firstSets hg hmemo, Grammar.settles_followSets hg hfirst hready⟩
  intro m s result hposes
  refine ⟨hposes.reaches_answer, ?_⟩
  rintro s' ⟨k, rfl⟩
  have hnests := hposes.nests_iterate k
  exact ⟨hnests.nodup, hnests.mem_rules, hnests.length_le, fun f => hnests.mark_ne_inProgress⟩

/-- `S->A` and `A->S | Aa | &`, where `S` and `A` derive each other. When `S` is asked about first,
`A->S` is evaluated inside `S->A`, and as `S->A` is not entered again it stays without a mark. -/
theorem solve_terminates_of_cycle :
    ∃ w : Workspace, w.Reached ∧ w.grammar.rules.length = 4 ∧
      (∃ e, e.nullable = true ∧ Evaluator.Reaches w.grammar
        ⟨.trying 'S' [['A']] false, [], {}⟩
        ⟨.answering e, [], {
          entries := [(⟨'S', ['A']⟩, .nullable), (⟨'A', ['S']⟩, .unknown),
            (⟨'A', ['A', 'a']⟩, .notNullable), (⟨'A', ['&']⟩, .nullable)] }⟩) ∧
      (∀ s', Evaluator.Reaches w.grammar ⟨.trying 'S' [['A']] false, [], {}⟩ s' →
        s'.rules.Nodup ∧ s'.rules.length ≤ 4) ∧
      w.settledFirst.passes = 3 ∧ w.settledFirst.passes ≤ 2 * 2 + 1 ∧
      w.settledFollow.passes = 3 ∧ w.settledFollow.passes ≤ 2 * 2 + 1 := by
  have hload : Grammar.ofLines ["S->A".toList, "A->S".toList, "A->Aa".toList, "A->&".toList] =
      .ok ⟨[⟨'S', [['A']]⟩, ⟨'A', [['S'], ['A', 'a'], ['&']]⟩]⟩ := rfl
  obtain ⟨hquestions, ⟨-, hfirst⟩, -, hfollow⟩ := solve_terminates (Reached.lines hload)
  obtain ⟨hanswer, hnested⟩ := hquestions {} _ _ (.head (n := ⟨'S', [['A']]⟩) List.mem_cons_self)
  refine ⟨_, Reached.lines hload, rfl, hanswer, fun s' hs' => ?_, ?_, hfirst, ?_, hfollow⟩
  · obtain ⟨hnodup, -, hlength, -⟩ := hnested s' hs'
    exact ⟨hnodup, hlength⟩
  · decide +kernel
  · decide +kernel

end Workspace

end LL1
