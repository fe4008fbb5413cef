/-
# Preparing a grammar, once and twice

A grammar that cannot be prepared for want of a base declares a non-terminal that derives no terminal
string. A grammar that was prepared is prepared already: nothing is left to rewrite, and neither the
sets nor the table depend on what a workspace held before they were computed.
-/
import LL1.Proofs.Rewriting.Refusal
import LL1.Proofs.Workspace.InOrder

namespace LL1

namespace SetFamily

variable {f : SetFamily} {old new : Grammar} {n : NonTerminal}

/-! ## Carrying sets over twice -/

/-- What was carried over to a well-formed grammar is carried over once more as it is. -/
theorem carryOver_carryOver (hnew : new.WellFormed) :
    (f.carryOver old new).carryOver new new = f.carryOver old new := by
  refine congrArg SetFamily.mk (List.map_congr_left fun n hn => congrArg (Prod.mk n.symbol) ?_)
  rw [if_pos (hnew.find?_of_mem hn)]
  exact get_map_of_mem hnew.nodup _ hn

end SetFamily

namespace Workspace

variable {u v w : Workspace}

/-! ## Refusals -/

/-- If a grammar that was loaded cannot be rewritten or prepared for want of a base, then the symbol
that is named is declared in the grammar and derives no terminal string in it. So this does not
happen if every non-terminal is productive, and never to a symbol that is not declared, as those
under which non-terminals are divided. -/
theorem noBaseCase_justified {lines : List (List Char)}
    (hload : Grammar.ofLines lines = .ok w.grammar) :
    (∀ s, w.eliminate = .error (.noBaseCase s) ∨ w.process = .error (.noBaseCase s) →
      s ∈ w.grammar.symbols ∧ ¬ w.grammar.Productive s) ∧
    ((∀ s ∈ w.grammar.symbols, w.grammar.Productive s) →
      ∀ s, w.eliminate ≠ .error (.noBaseCase s) ∧ w.process ≠ .error (.noBaseCase s)) ∧
    ∀ s, s ∉ w.grammar.symbols →
      w.eliminate ≠ .error (.noBaseCase s) ∧ w.process ≠ .error (.noBaseCase s) := by
  have hg := Grammar.wellFormed_of_ofLines hload
  have hverdict : ∀ s, w.eliminate = .error (.noBaseCase s) ∨ w.process = .error (.noBaseCase s) →
      s ∈ w.grammar.symbols ∧ ¬ w.grammar.Productive s := by
    rintro s (h | h)
    · exact Grammar.not_productive_of_eliminate hg (failure_of_eliminate h)
    · exact Grammar.not_productive_of_eliminate hg (failure_of_process h)
  refine ⟨hverdict, fun hprod s => ?_, fun s hs => ?_⟩
  · rw [ne_eq, ne_eq, ← not_or]
    intro h
    obtain ⟨hs, hnot⟩ := hverdict s h
    exact hnot (hprod s hs)
  · rw [ne_eq, ne_eq, ← not_or]
    exact fun h => hs (hverdict s h).1

/-- The base `&Ab` of `A->Aa | &Ab` turns out to be left recursive when its epsilon is taken away. -/
theorem noBaseCase_justified_of_hidden_recursion :
    ∃ w : Workspace, Grammar.ofLines ["S->aA".toList, "S->b".toList, "A->Aa".toList,
        "A->&Ab".toList] = .ok w.grammar ∧
      w.eliminate = .error (.noBaseCase 'A') ∧ w.process = .error (.noBaseCase 'A') ∧
      ('A' ∈ w.grammar.symbols ∧ ¬ w.grammar.Productive 'A') ∧
      w.process ≠ .error (.noBaseCase 'B') := by
  have hload : Grammar.ofLines ["S->aA".toList, "S->b".toList, "A->Aa".toList,
      "A->&Ab".toList] = .ok (ofGrammar ⟨[⟨'S', [['a', 'A'], ['b']]⟩,
        ⟨'A', [['A', 'a'], ['&', 'A', 'b']]⟩]⟩).grammar := rfl
  have heliminate : (ofGrammar ⟨[⟨'S', [['a', 'A'], ['b']]⟩,
      ⟨'A', [['A', 'a'], ['&', 'A', 'b']]⟩]⟩).eliminate = .error (.noBaseCase 'A') := by
    decide +kernel
  obtain ⟨hverdict, -, hfresh⟩ := noBaseCase_justified hload
  refine ⟨_, hload, heliminate, ?_, hverdict 'A' (Or.inl heliminate), (hfresh 'B' (by decide)).2⟩
  rw [process, heliminate]
  rfl

/-! ## Preparing twice -/

/-- The sets and the table that are computed depend on the grammar alone. -/
theorem keepTable_solve_eq (h : u.grammar = w.grammar) : u.solve.keepTable = w.solve.keepTable := by
  obtain ⟨g, _, _, _, _⟩ := u
  obtain ⟨g', _, _, _, _⟩ := w
  obtain rfl : g = g' := h
  rfl

/-- A workspace that was rewritten is rewritten into itself. -/
theorem eliminate_of_eliminate (hw : w.grammar.WellFormed) (h : w.eliminate = .ok v) :
    v.eliminate = .ok v := by
  obtain ⟨hgrammar, hmemo, -⟩ := cases_eliminate h
  obtain ⟨hfirst, hfollow⟩ := sets_of_eliminate h
  have hv := Grammar.wellFormed_of_eliminate hw hgrammar
  have hcarried : v.first.carryOver v.grammar v.grammar = v.first ∧
      v.follow.carryOver v.grammar v.grammar = v.follow := by
    rw [hfirst, hfollow]
    exact ⟨SetFamily.carryOver_carryOver hv, SetFamily.carryOver_carryOver hv⟩
  have hmarks : v.memo.marksOnly = v.memo := by
    rw [hmemo]
    rfl
  rw [eliminate, Grammar.eliminate_of_eliminate hgrammar, Except.map, hcarried.1, hcarried.2, hmarks]

/-- A workspace that was prepared is prepared into itself. -/
theorem process_of_process (h : w.process = .ok v) : v.process = .ok v := by
  have hgrammar := Grammar.eliminate_of_eliminate (grammar_of_process h)
  obtain ⟨u, -, rfl⟩ := cases_process h
  rw [process, eliminate, hgrammar]
  exact congrArg Except.ok (keepTable_solve_eq rfl)

/-- Preparing a workspace a second time succeeds and changes nothing at all: the grammar with the order
of its non-terminals and their alternatives, the marks, the sets with the order of their members,
the table and the conflicts all stay the same. The same holds for rewriting a workspace a second
time. -/
theorem Reached.unchanged_by_repetition (hw : w.Reached) :
    (∀ v, w.process = .ok v → v.process = .ok v) ∧ ∀ v, w.eliminate = .ok v → v.eliminate = .ok v :=
  ⟨fun _ h => process_of_process h, fun _ h => eliminate_of_eliminate hw.wellFormed h⟩

/-- `S->iS | iSeS | Sa | b` is factored and unrolled, and there is a conflict. -/
theorem unchanged_by_repetition_of_dangling_else :
    ∃ w u v : Workspace, Grammar.ofLines ["S->iS".toList, "S->iSeS".toList, "S->Sa".toList,
        "S->b".toList] = .ok w.grammar ∧ w.Reached ∧ w.eliminate = .ok u ∧ w.process = .ok v ∧
      v.grammar = ⟨[⟨'S', [['b', 'B'], ['i', 'S', 'A', 'B']]⟩, ⟨'B', [['a', 'B'], ['&']]⟩,
        ⟨'A', [['&'], ['e', 'S']]⟩]⟩ ∧ v.prediction.conflicts ≠ [] ∧
      v.process = .ok v ∧ u.eliminate = .ok u := by
  have hload : Grammar.ofLines ["S->iS".toList, "S->iSeS".toList, "S->Sa".toList, "S->b".toList] =
      .ok (ofGrammar ⟨[⟨'S', [['i', 'S'], ['i', 'S', 'e', 'S'], ['S', 'a'], ['b']]⟩]⟩).grammar := rfl
  have hrun : ((ofGrammar ⟨[⟨'S', [['i', 'S'], ['i', 'S', 'e', 'S'], ['S', 'a'],
      ['b']]⟩]⟩).process.toOption.map fun v => (v.grammar, decide (v.prediction.conflicts ≠ []))) =
        some (⟨[⟨'S', [['b', 'B'], ['i', 'S', 'A', 'B']]⟩, ⟨'B', [['a', 'B'], ['&']]⟩,
          ⟨'A', [['&'], ['e', 'S']]⟩]⟩, true) := by
    decide +kernel
  obtain ⟨v, hv, hshape⟩ := Option.map_eq_some_iff.1 hrun
  obtain ⟨hgrammar, hconflicts⟩ := Prod.mk.inj hshape
  have hprocess := Grammar.eq_ok_of_toOption hv
  obtain ⟨u, hu, -⟩ := cases_process hprocess
  obtain ⟨hprocessed, hrewritten⟩ := (Reached.lines hload).unchanged_by_repetition
  exact ⟨_, u, v, hload, .lines hload, hu, hprocess, hgrammar, of_decide_eq_true hconflicts,
    hprocessed v hprocess, hrewritten u hu⟩

end Workspace

end LL1
