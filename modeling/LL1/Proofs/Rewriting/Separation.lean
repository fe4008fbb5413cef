/-
# Rewriting keeps grammars separated

A step of rewriting drops rules, factors a non-terminal or unrolls its left recursion, and each of
these keeps a grammar of productive non-terminals separated.
-/
import LL1.Proofs.Rewriting.Separation.Factoring
import LL1.Proofs.Rewriting.Separation.Unrolling

namespace LL1

namespace Grammar

variable {g g' : Grammar} {n : NonTerminal} {fresh : List Symbol} {ns : List NonTerminal}

namespace Replacement

/-- A step of rewriting keeps a grammar of productive non-terminals separated. -/
theorem separated (h : g.Replacement g' n fresh ns) (hn : n.RewritesTo fresh ns)
    (hsep : g.Separated) : g'.Separated := by
  cases hn with
  | @settle k dropped hplan =>
    refine h.separated_of_subset (fun r hr => ?_) hsep
    rcases (h.rules r).1 hr with ⟨hold, -⟩ | ⟨j, hj, hsymbol, hbody⟩
    · exact hold
    · obtain rfl := List.mem_singleton.1 hj
      obtain ⟨-, ⟨-, rfl⟩ | hidle⟩ := settle_cases hplan
      · exact mem_rules.2 ⟨j, h.mem, hsymbol, hbody⟩
      · -- dropping idle recursion leaves base alternatives
        obtain ⟨rfl, -, -⟩ := eq_of_recursion_idle hidle
        rw [NonTerminal.symbol_ofAlternatives] at hsymbol
        rw [NonTerminal.mem_ofAlternatives, mem_baseAlternatives] at hbody
        exact mem_rules.2 ⟨n, h.mem, hsymbol, hbody.1⟩
  | @divide d x hplan =>
    rcases divide_cases hplan with ⟨f, hf, rfl⟩ | ⟨u, hu, rfl⟩
    · exact h.separated_of_factoring hf hsep
    · exact h.separated_of_unrolling hu hsep

end Replacement

end Grammar

end LL1
