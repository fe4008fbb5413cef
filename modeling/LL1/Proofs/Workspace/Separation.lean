/-
# Rewriting spoils no grammar that is free of conflicts

If a grammar of productive non-terminals can be predicted without conflicts, so can the grammar it is
rewritten to, and the rewriting is not refused for want of a base.
-/
import LL1.Proofs.Rewriting.Refusal
import LL1.Proofs.Rewriting.Separation
import LL1.Proofs.Workspace.Processed

namespace LL1

namespace Grammar

variable {g g' : Grammar}

/-! ## Runs on separated grammars -/

/-- What rewriting keeps of a separated grammar of productive non-terminals. -/
structure SeparatelyRewrittenTo (g : Grammar) (supply : Supply) (ns : List NonTerminal) : Prop where
  /-- The language is kept. -/
  rewritten : g.RewrittenTo supply ns
  /-- All non-terminals are productive. -/
  productive : ∀ s ∈ (Grammar.mk ns).symbols, (Grammar.mk ns).Productive s
  /-- The grammar is separated. -/
  separated : (Grammar.mk ns).Separated

/-- A step keeps it all. -/
theorem SeparatelyRewrittenTo.step {fresh supply : Supply} {n : NonTerminal}
    {before ns after : List NonTerminal} (hn : n.RewritesTo fresh ns)
    (h : g.SeparatelyRewrittenTo (fresh ++ supply) (before ++ n :: after)) :
    g.SeparatelyRewrittenTo supply (before ++ ns ++ after) := by
  have hreplacement := h.rewritten.replacement hn h.productive
  exact ⟨h.rewritten.step hn, hreplacement.productive', hreplacement.separated hn h.separated⟩

/-- What a separated grammar of productive non-terminals is rewritten to is separated. -/
theorem separated_of_eliminate (hg : g.WellFormed) (hprod : ∀ s ∈ g.symbols, g.Productive s)
    (hsep : g.Separated) (h : g.eliminate = .ok g') : g'.Separated := by
  obtain ⟨supply, hinvariant⟩ := invariant_of_run (I := g.SeparatelyRewrittenTo)
    (fun _ _ _ _ _ _ hn hI => hI.step hn) [] (run_of_eliminate h)
    ⟨rewrittenTo_self hg, hprod, hsep⟩
  exact hinvariant.separated

end Grammar

namespace Workspace

/-! ## Preparing grammars without conflicts -/

/-- If every non-terminal of a loaded grammar is productive and the table that is filled after solving
has no conflicts, then preparing the grammar is not refused for want of a base, and if it succeeds
then there are no conflicts either. -/
theorem process_of_conflicts_eq_nil {lines : List (List Char)} {g : Grammar}
    (hload : Grammar.ofLines lines = .ok g) (hprod : ∀ s ∈ g.symbols, g.Productive s)
    (hconflicts : (ofGrammar g).solve.predict.1.conflicts = []) :
    (∀ s, (ofGrammar g).process ≠ .error (.noBaseCase s)) ∧
      ∀ v, (ofGrammar g).process = .ok v → v.prediction.conflicts = [] := by
  have hg := Grammar.wellFormed_of_ofLines hload
  have hsolved : (ofGrammar g).solve.Solved := solved_solve hg
  have hsep : g.Separated := hsolved.conflicts_eq_nil_iff.1 hconflicts
  refine ⟨fun s h => ?_, fun v h => ?_⟩
  · obtain ⟨hs, hnot⟩ := Grammar.not_productive_of_eliminate hg (failure_of_process h)
    exact hnot (hprod s hs)
  · have hg' : (ofGrammar g).grammar.WellFormed := hg
    exact (conflicts_eq_nil_iff_of_process hg' h).2
      (Grammar.separated_of_eliminate hg hprod hsep (grammar_of_process h))

/-- In `S->&a | &b` an epsilon is factored out. Nothing follows the left recursive `A->AN | &` with
`N->&`, which is unrolled. There are no conflicts before and after. -/
theorem process_of_conflicts_eq_nil_of_void_recursion :
    ∃ (g : Grammar) (v : Workspace), Grammar.ofLines ["S->&a".toList, "S->&b".toList,
        "A->AN".toList, "A->&".toList, "N->&".toList] = .ok g ∧
      (∀ s ∈ g.symbols, g.Productive s) ∧ (ofGrammar g).solve.predict.1.conflicts = [] ∧
      (ofGrammar g).process = .ok v ∧
      v.grammar = ⟨[⟨'S', [['&', 'B']]⟩, ⟨'B', [['a'], ['b']]⟩, ⟨'A', [['C']]⟩,
        ⟨'C', [['N', 'C'], ['&']]⟩, ⟨'N', [['&']]⟩]⟩ ∧
      (∀ s, (ofGrammar g).process ≠ .error (.noBaseCase s)) ∧ v.prediction.conflicts = [] := by
  have hload : Grammar.ofLines ["S->&a".toList, "S->&b".toList, "A->AN".toList, "A->&".toList,
      "N->&".toList] = .ok ⟨[⟨'S', [['&', 'a'], ['&', 'b']]⟩, ⟨'A', [['A', 'N'], ['&']]⟩,
        ⟨'N', [['&']]⟩]⟩ := rfl
  have hrun : ((ofGrammar ⟨[⟨'S', [['&', 'a'], ['&', 'b']]⟩, ⟨'A', [['A', 'N'], ['&']]⟩,
      ⟨'N', [['&']]⟩]⟩).process.toOption.map Workspace.grammar) =
        some ⟨[⟨'S', [['&', 'B']]⟩, ⟨'B', [['a'], ['b']]⟩, ⟨'A', [['C']]⟩,
          ⟨'C', [['N', 'C'], ['&']]⟩, ⟨'N', [['&']]⟩]⟩ := by
    decide +kernel
  have hconflicts : (ofGrammar ⟨[⟨'S', [['&', 'a'], ['&', 'b']]⟩, ⟨'A', [['A', 'N'], ['&']]⟩,
      ⟨'N', [['&']]⟩]⟩).solve.predict.1.conflicts = [] := by
    decide +kernel
  have hprod : ∀ s ∈ ['S', 'A', 'N'], (Grammar.mk [⟨'S', [['&', 'a'], ['&', 'b']]⟩,
      ⟨'A', [['A', 'N'], ['&']]⟩, ⟨'N', [['&']]⟩]).Productive s := by
    have hrule : ∀ r ∈ [(⟨'S', ['&', 'a']⟩ : Rule), ⟨'A', ['&']⟩, ⟨'N', ['&']⟩],
        r ∈ (Grammar.mk [⟨'S', [['&', 'a'], ['&', 'b']]⟩, ⟨'A', [['A', 'N'], ['&']]⟩,
          ⟨'N', [['&']]⟩]).rules := by
      decide
    have hempty : IsTerminalString [] := fun s hs => absurd hs List.not_mem_nil
    simp only [List.forall_mem_cons] at hrule ⊢
    exact ⟨⟨['a'], Grammar.derives_of_mem_rules hrule.1,
        List.forall_mem_singleton.2 (by decide +kernel)⟩,
      ⟨[], Grammar.derives_of_mem_rules hrule.2.1, hempty⟩,
      ⟨[], Grammar.derives_of_mem_rules hrule.2.2.1, hempty⟩, by simp⟩
  obtain ⟨v, hv, hgrammar⟩ := Option.map_eq_some_iff.1 hrun
  have hprocess := Grammar.eq_ok_of_toOption hv
  obtain ⟨hrefused, hfree⟩ := process_of_conflicts_eq_nil hload hprod hconflicts
  exact ⟨_, v, hload, hprod, hconflicts, hprocess, hgrammar, hrefused, hfree v hprocess⟩

end Workspace

end LL1
