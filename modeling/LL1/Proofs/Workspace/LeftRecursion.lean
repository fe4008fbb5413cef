/-
# Left recursion leaves conflicts behind

A left recursive non-terminal that is productive has a way out of its recursion. Among all such
non-terminals one with the least number of replacements to a string leaves by a rule of its own, for a
rule that leads back to it goes through a non-terminal with fewer replacements. So the way out and the
way back are two rules, and in a separated grammar nothing can follow their head. If every non-terminal
is reachable and productive then something follows each of them, so the table of a grammar with left
recursion has a conflict, and without conflicts no expansion is ever refused.
-/
import LL1.Proofs.Recogniser.Guard
import LL1.Proofs.Recogniser.Termination
import LL1.Proofs.Workspace.Recognised

namespace LL1

namespace Grammar

variable {g : Grammar} {s x : Symbol} {body rest u : Word} {n : Nat}

/-! ## Ways back -/

/-- If two symbols derive forms that begin with each other, the second is left recursive. -/
theorem leftRecursive_of_begins (hx : x ≠ epsilon) (hne : x ≠ s) (hback : g.Begins [x] s)
    (hform : g.Derives [s] (x :: rest)) : g.LeftRecursive x := by
  obtain ⟨after, hafter⟩ := hback
  rw [withoutEpsilon_cons_of_ne hx] at hafter
  rcases hafter.cases_head with heq | ⟨r, hr, rfl, hbody⟩
  · exact absurd (List.cons.inj heq).1.symm hne
  · refine ⟨_, rest ++ after, ?_, hbody.trans (hform.append (.refl after))⟩
    simpa using Step.replace (g := g) [] [] hr

/-- A rule that leads back to its head mentions a left recursive symbol, and whatever the right-hand
side yields, this symbol yields a part of it after no more replacements. -/
theorem exists_leftRecursive_of_returns (hg : g.WellFormed) (hr : ⟨s, body⟩ ∈ g.rules)
    (hreturns : g.Derives (withoutEpsilon body) (s :: rest)) (hyields : g.Yields n body u) :
    ∃ x k y, k ≤ n ∧ g.Yields k [x] y ∧ g.LeftRecursive x := by
  obtain ⟨before, x, after, hbody, hvanishes, hx, hback⟩ :=
    (begins_iff_leads hg).1 (⟨rest, hreturns⟩ : g.Begins body s)
  rw [hbody] at hyields
  obtain ⟨i, j, -, z, rfl, -, -, hz⟩ := hyields.of_append
  obtain ⟨k, l, y, -, rfl, -, hy, -⟩ := Yields.of_append (v := [x]) hz
  refine ⟨x, k, y, by omega, hy, ?_⟩
  by_cases hxs : x = s
  · subst hxs
    refine ⟨_, rest, ?_, hreturns⟩
    simpa using Step.replace (g := g) [] [] hr
  · -- the head derives the symbol in front of what stands behind it
    have hform : g.Derives [s] (x :: withoutEpsilon after) := by
      have hafter := hvanishes.append (.refl (x :: withoutEpsilon after))
      rw [List.nil_append, ← withoutEpsilon_cons_of_ne hx, ← withoutEpsilon_append, ← hbody] at hafter
      rw [← withoutEpsilon_cons_of_ne hx]
      exact (derives_of_mem_rules hr).trans hafter
    exact leftRecursive_of_begins hx hxs hback hform

/-! ## Ways out -/

/-- In a separated grammar of reachable and productive non-terminals, no symbol that yields a string is
left recursive. -/
theorem Separated.not_leftRecursive_of_yields (hg : g.WellFormed)
    (hreach : ∀ s ∈ g.symbols, g.Reachable s) (hprod : ∀ s ∈ g.symbols, g.Productive s)
    (hsep : g.Separated) (hyields : g.Yields n [s] u) : ¬ g.LeftRecursive s := by
  -- the induction is on the number of replacements
  induction n using Nat.strongRecOn generalizing s u with
  | ind n ih =>
    rintro ⟨v, rest, hstep, hv⟩
    obtain ⟨c, hc, hs, rfl⟩ := hstep.of_singleton
    have hdeclared : g.declares s = true := hs ▸ declares_of_mem_rules hc
    cases hyields with
    | epsilon =>
      rw [hg.declares_epsilon] at hdeclared
      cases hdeclared
    | symbol _ hd =>
      rw [hd] at hdeclared
      cases hdeclared
    | @expand k _ body _ _ hr hbody =>
      rw [List.append_nil] at hbody
      by_cases hsame : (⟨s, body⟩ : Rule) = c
      · -- the way out leads back, through a symbol with fewer replacements
        rw [← hsame] at hv
        obtain ⟨x, j, y, hj, hy, hx⟩ := exists_leftRecursive_of_returns hg hr hv hbody
        exact ih j (Nat.lt_succ_of_le hj) hy hx
      · rw [← hs] at hv
        obtain ⟨-, -, hfollow⟩ := hsep.void_of_returns hg hprod hc hr hs.symm hsame hv
        obtain ⟨t, ht⟩ := exists_inFollow hg hprod (hreach s (declares_iff.1 hdeclared))
        exact hfollow t (hs ▸ ht)

/-- In a separated grammar of reachable and productive non-terminals nothing is left recursive. -/
theorem Separated.not_leftRecursive (hg : g.WellFormed)
    (hreach : ∀ s ∈ g.symbols, g.Reachable s) (hprod : ∀ s ∈ g.symbols, g.Productive s)
    (hsep : g.Separated) (s : Symbol) : ¬ g.LeftRecursive s := by
  intro h
  have hs : g.declares s = true := by
    obtain ⟨v, rest, hstep, -⟩ := h
    obtain ⟨r, hr, rfl, -⟩ := hstep.of_singleton
    exact declares_of_mem_rules hr
  obtain ⟨u, hderives, hterminal⟩ := hprod s (declares_iff.1 hs)
  obtain ⟨n, hyields⟩ := exists_yields_of_derives hderives fun a ha =>
    ⟨(hterminal a ha).2, hg.declares_eq_false (hterminal a ha).1⟩
  exact hsep.not_leftRecursive_of_yields hg hreach hprod hyields h

end Grammar

namespace Workspace

/-! ## Prepared grammars -/

/-- If a grammar is prepared without conflicts and each of its non-terminals is reachable and
productive, none of them derives a form that begins with itself, and the recogniser refuses no
expansion, whatever the input. -/
theorem not_leftRecursive_of_process {w v : Workspace} (hw : w.Reached) (h : w.process = .ok v)
    (hreach : ∀ s ∈ v.grammar.symbols, v.grammar.Reachable s)
    (hprod : ∀ s ∈ v.grammar.symbols, v.grammar.Productive s)
    (hconflicts : v.prediction.conflicts = []) :
    (∀ s, ¬ v.grammar.LeftRecursive s) ∧
      ∀ input s a, (v.recognise input).outcome ≠ .rejected (.nonTerminating s a) := by
  have hv := hw.process h
  have hsep := (conflicts_eq_nil_iff_of_process hw.wellFormed h).1 hconflicts
  have hnot := hsep.not_leftRecursive hv.wellFormed hreach hprod
  refine ⟨hnot, fun input s a hrefused => ?_⟩
  rcases Run.complete_eq_or_refused hv.wellFormed hv.aligned input with
    ⟨-, hnever⟩ | ⟨⟨x, b, -, hrecursive⟩, -⟩
  · exact hnever ⟨s, a, hrefused⟩
  · exact hnot x hrecursive

/-- `E->E+T | T` with `T->n` is unrolled into `E->TA`, `A->+TA | &` and `T->n`, which is prepared without
conflicts. -/
theorem not_leftRecursive_of_process_of_sums :
    ∃ w v : Workspace, w.Reached ∧ w.process = .ok v ∧
      w.grammar.symbols = ['E', 'T'] ∧ v.grammar.symbols = ['E', 'A', 'T'] ∧
      (∀ s ∈ v.grammar.symbols, v.grammar.Reachable s) ∧
      (∀ s ∈ v.grammar.symbols, v.grammar.Productive s) ∧ v.prediction.conflicts = [] ∧
      (∀ s, ¬ v.grammar.LeftRecursive s) ∧
      ∀ input s a, (v.recognise input).outcome ≠ .rejected (.nonTerminating s a) := by
  have hload : Grammar.ofLines ["E->E+T".toList, "E->T".toList, "T->n".toList] =
      .ok ⟨[⟨'E', [['E', '+', 'T'], ['T']]⟩, ⟨'T', [['n']]⟩]⟩ := rfl
  have hrun : ((ofGrammar ⟨[⟨'E', [['E', '+', 'T'], ['T']]⟩, ⟨'T', [['n']]⟩]⟩).process.toOption.map
      fun v => (v.grammar, v.prediction.conflicts)) =
        some (⟨[⟨'E', [['T', 'A']]⟩, ⟨'A', [['+', 'T', 'A'], ['&']]⟩, ⟨'T', [['n']]⟩]⟩, []) := by
    decide +kernel
  obtain ⟨v, hv, hresult⟩ := Option.map_eq_some_iff.1 hrun
  obtain ⟨hgrammar, hconflicts⟩ := Prod.mk.inj hresult
  have hprocess := Grammar.eq_ok_of_toOption hv
  have hsum : (⟨'E', ['T', 'A']⟩ : Rule) ∈ v.grammar.rules := by rw [hgrammar]; decide
  have hstop : (⟨'A', ['&']⟩ : Rule) ∈ v.grammar.rules := by rw [hgrammar]; decide
  have hnumber : (⟨'T', ['n']⟩ : Rule) ∈ v.grammar.rules := by rw [hgrammar]; decide
  have hform : v.grammar.Derives ['E'] ['T', 'A'] := Grammar.derives_of_mem_rules hsum
  have htail : v.grammar.Derives ['A'] [] := Grammar.derives_of_mem_rules hstop
  have hterm : v.grammar.Derives ['T'] ['n'] := Grammar.derives_of_mem_rules hnumber
  have hn : IsTerminalString ['n'] := List.forall_mem_singleton.2 (by decide +kernel)
  have hreach : ∀ s ∈ v.grammar.symbols, v.grammar.Reachable s := by
    have hstart : v.grammar.start = 'E' := by rw [hgrammar]; rfl
    have hall : ∀ s ∈ ['E', 'A', 'T'], v.grammar.Reachable s := by
      unfold Grammar.Reachable
      rw [hstart]
      simp only [List.forall_mem_cons]
      exact ⟨⟨[], [], .refl _⟩, ⟨['T'], [], hform⟩, ⟨[], ['A'], hform⟩, by simp⟩
    rw [hgrammar] at hall ⊢
    exact hall
  have hprod : ∀ s ∈ v.grammar.symbols, v.grammar.Productive s := by
    have hall : ∀ s ∈ ['E', 'A', 'T'], v.grammar.Productive s := by
      simp only [List.forall_mem_cons]
      exact ⟨⟨['n'], hform.trans (hterm.append htail), hn⟩,
        ⟨[], htail, fun s hs => absurd hs List.not_mem_nil⟩, ⟨['n'], hterm, hn⟩, by simp⟩
    rw [hgrammar] at hall ⊢
    exact hall
  have hreached := Reached.lines hload
  exact ⟨_, v, hreached, hprocess, rfl, by rw [hgrammar]; rfl, hreach, hprod, hconflicts,
    not_leftRecursive_of_process hreached hprocess hreach hprod hconflicts⟩

end Workspace

end LL1
