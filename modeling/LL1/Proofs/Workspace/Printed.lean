/-
# Printing a grammar and loading it again

The loader takes carriage returns off the end of a line, so no right-hand side that it reads ends in
one, and rewriting keeps it so: what it cuts off at the front leaves the end as it is, and what it
puts at the end is a fresh symbol or epsilon. A grammar that was loaded, and maybe rewritten or
prepared, is therefore loaded as it is from its own rules, one on each line.
-/
import LL1.Proofs.Rewriting.NormalForm
import LL1.Proofs.Source.Printing
import LL1.Proofs.Workspace.Reached

namespace LL1

/-! ## Ends of lines -/

/-- A word that ends in an upper-case symbol can stand at the end of a line. -/
theorem Word.endsLine_append {x : Symbol} (hx : isUppercase x = true) (v : Word) :
    Word.EndsLine (v ++ [x]) := by
  rw [EndsLine, List.getLast?_append, List.getLast?_singleton, Option.some_or]
  intro heq
  obtain rfl := Option.some.inj heq
  exact absurd hx (by decide)

/-- Epsilon can stand at the end of a line. -/
theorem Word.endsLine_epsilon : Word.EndsLine [epsilon] := by
  rw [EndsLine, List.getLast?_singleton]
  decide

/-- What is cut off at the front leaves the end of a word as it is. -/
theorem Word.EndsLine.of_append {v e : Word} (h : Word.EndsLine (v ++ e)) :
    (Factoring.spelled e).EndsLine := by
  cases e with
  | nil => exact endsLine_epsilon
  | cons s e =>
    intro hlast
    refine h ?_
    have hlast' : (s :: e).getLast? = some '\r' := hlast
    rw [List.getLast?_append, hlast', Option.some_or]

/-- Whether every alternative of the non-terminal can stand at the end of a line. -/
def NonTerminal.EndsLines (n : NonTerminal) : Prop :=
  ∀ body ∈ n.alternatives, Word.EndsLine body

/-! ## Loading -/

/-- The right-hand side of a rule that was read can stand at the end of a line. -/
theorem endsLine_of_lineRule {line : List Char} {r : Rule} (h : LineRule (withoutReturns line) r) :
    r.body.EndsLine := by
  intro hlast
  rw [← h.getLast?_eq, ← dropReturns_eq] at hlast
  exact absurd (getLast?_dropTrailing _ _ _ hlast) (by decide)

/-- The right-hand sides of a loaded grammar can stand at the end of a line. -/
theorem endsLines_of_loadLines {file : String} {lines : List (Option (List Char))} {g : Grammar}
    (h : loadLines file lines = .ok g) : ∀ n ∈ g.nonTerminals, n.EndsLines := by
  obtain ⟨rules, hsays, -, -, rfl⟩ := exists_rules_of_loadLines h
  intro n hn body hbody
  have hmem : Rule.mk n.symbol body ∈ rules.map LocatedRule.rule :=
    Grammar.mem_rules_ofRules.1 (Grammar.mem_rules.2 ⟨n, hn, rfl, hbody⟩)
  obtain ⟨line, -, hrule⟩ := hsays.mem_rules_iff.1 (List.mem_map.1 hmem)
  exact endsLine_of_lineRule hrule

/-! ## Rewriting -/

/-- Rewriting a non-terminal puts nothing but upper-case symbols and epsilon at the end of a line.
-/
theorem NonTerminal.RewritesTo.endsLines {n : NonTerminal} {fresh : List Symbol}
    {ns : List NonTerminal} (h : n.RewritesTo fresh ns) (hn : n.EndsLines)
    (hup : ∀ x ∈ fresh, isUppercase x = true) : ∀ k ∈ ns, k.EndsLines := by
  cases h with
  | @settle k dropped h =>
    rw [List.forall_mem_singleton]
    obtain ⟨-, ⟨-, rfl⟩ | hidle⟩ := settle_cases h
    · exact hn
    · obtain ⟨rfl, -, -⟩ := eq_of_recursion_idle hidle
      intro body hbody
      exact hn body (mem_baseAlternatives.1 (NonTerminal.mem_ofAlternatives.1 hbody)).1
  | divide x h =>
    have hx := hup x List.mem_cons_self
    rw [List.forall_mem_cons, List.forall_mem_singleton]
    rcases divide_cases h with ⟨f, hf, rfl⟩ | ⟨u, hu, rfl⟩
    · have halt := fun v => mem_alternatives_iff_of_factoring? hf (v := v)
      refine ⟨fun body hbody => ?_, fun body hbody => ?_⟩
      · rcases mem_alternatives_head_factoring.1 hbody with hb | rfl | ha
        · exact hn body ((halt body).2 (Or.inl hb))
        · exact Word.endsLine_append hx f.stem
        · exact hn body ((halt body).2 (Or.inr (Or.inr ha)))
      · obtain ⟨e, he, rfl⟩ := mem_alternatives_tail_factoring.1 hbody
        exact (hn _ ((halt _).2 (Or.inr (Or.inl ⟨e, he, rfl⟩)))).of_append
    · refine ⟨fun body hbody => ?_, fun body hbody => ?_⟩
      · obtain ⟨v, -, rfl⟩ := mem_alternatives_head_unrolling.1 hbody
        exact Word.endsLine_append hx v
      · rcases mem_alternatives_tail_unrolling.1 hbody with ⟨v, -, rfl⟩ | rfl
        · exact Word.endsLine_append hx v
        · exact Word.endsLine_epsilon

/-- A grammar whose right-hand sides can stand at the end of a line is rewritten into one of that
kind. -/
theorem endsLines_of_eliminate {g g' : Grammar} (hg : ∀ n ∈ g.nonTerminals, n.EndsLines)
    (h : g.eliminate = .ok g') : ∀ n ∈ g'.nonTerminals, n.EndsLines := by
  have hstep : ∀ (fresh supply : Supply) (n : NonTerminal) (before ns after : List NonTerminal),
      n.RewritesTo fresh ns →
      ((∀ x ∈ fresh ++ supply, isUppercase x = true) ∧ ∀ k ∈ before ++ n :: after, k.EndsLines) →
      (∀ x ∈ supply, isUppercase x = true) ∧ ∀ k ∈ before ++ ns ++ after, k.EndsLines := by
    intro fresh supply n before ns after hn ⟨hup, hends⟩
    rw [List.forall_mem_append] at hup
    rw [List.forall_mem_append, List.forall_mem_cons] at hends
    refine ⟨hup.2, ?_⟩
    rw [List.forall_mem_append, List.forall_mem_append]
    exact ⟨⟨hends.1, hn.endsLines hends.2.1 hup.1⟩, hends.2.2⟩
  obtain ⟨-, -, hends⟩ := invariant_of_run
    (I := fun supply ns => (∀ x ∈ supply, isUppercase x = true) ∧ ∀ k ∈ ns, k.EndsLines)
    hstep [] (Grammar.run_of_eliminate h) ⟨fun _ hx => isUppercase_of_mem_outside hx, hg⟩
  exact hends

namespace Workspace

/-- The right-hand sides of a grammar that can be reached can stand at the end of a line. -/
theorem Reached.endsLines {w : Workspace} (h : w.Reached) :
    ∀ n ∈ w.grammar.nonTerminals, n.EndsLines := by
  induction h with
  | lines h => exact endsLines_of_loadLines h
  | @file path contents g h =>
    unfold Grammar.ofFile at h
    split at h
    · cases h
    · exact endsLines_of_loadLines h
  | eliminate _ h ih => exact endsLines_of_eliminate ih (grammar_of_eliminate h)
  | solve _ ih => exact ih
  | process _ h ih => exact endsLines_of_eliminate ih (grammar_of_process h)
  | query _ h ih =>
    rw [h.same.1]
    exact ih

/-! ## Printing and loading -/

/-- A grammar is printed as its rules, one on each line and in order, and loading these lines gives
the same grammar: the same non-terminals and alternatives in the same order, and so the same
alphabet. -/
theorem ofLines_printed {w : Workspace} (hw : w.Reached) :
    w.grammar.text = (w.grammar.rules.map Rule.text).flatMap (fun line => line ++ ['\n']) ∧
      ∃ g, Grammar.ofLines (w.grammar.rules.map Rule.text) = .ok g ∧
        g.nonTerminals = w.grammar.nonTerminals ∧
        g.terminals.toList = w.grammar.terminals.toList := by
  have hends : ∀ r ∈ w.grammar.rules, r.body.EndsLine := by
    intro r hr
    obtain ⟨n, hn, -, hbody⟩ := Grammar.mem_rules.1 hr
    exact hw.endsLines n hn r.body hbody
  refine ⟨?_, w.grammar, Grammar.ofLines_text hw.wellFormed hends, rfl, rfl⟩
  rw [List.flatMap_map, Grammar.rules, List.flatMap_assoc]
  rfl

/-- A right-hand side of `S` is an arrow itself, another one ends in a blank. One of `T` is read
without the carriage return at its end, and another one keeps the one inside. Prepared, the grammar
has three more non-terminals, and it is loaded again from its rules. -/
theorem ofLines_printed_of_arrows :
    ∃ w v : Workspace, w.Reached ∧ w.process = .ok v ∧
      w.grammar =
        ⟨[⟨'S', [['-', '>'], ['-'], ['S', '&', ' ']]⟩, ⟨'T', [['a'], ['a', '\r', 'b']]⟩]⟩ ∧
      v.grammar.symbols = ['S', 'B', 'A', 'T', 'C'] ∧
      v.grammar.text = (v.grammar.rules.map Rule.text).flatMap (fun line => line ++ ['\n']) ∧
      ∃ g, Grammar.ofLines (v.grammar.rules.map Rule.text) = .ok g ∧
        g.nonTerminals = v.grammar.nonTerminals ∧
        g.terminals.toList = v.grammar.terminals.toList := by
  have hload : Grammar.ofLines ["S->->".toList, "S->-".toList, "S->S& ".toList, "T->a\r".toList,
      "T->a\rb".toList] =
        .ok ⟨[⟨'S', [['-', '>'], ['-'], ['S', '&', ' ']]⟩, ⟨'T', [['a'], ['a', '\r', 'b']]⟩]⟩ := rfl
  have hreached := Reached.lines hload
  have hrun : ((ofGrammar ⟨[⟨'S', [['-', '>'], ['-'], ['S', '&', ' ']]⟩,
      ⟨'T', [['a'], ['a', '\r', 'b']]⟩]⟩).process.toOption.map fun v => v.grammar.symbols) =
        some ['S', 'B', 'A', 'T', 'C'] := by
    decide +kernel
  obtain ⟨v, hv, hsymbols⟩ := Option.map_eq_some_iff.1 hrun
  have hprocess := Grammar.eq_ok_of_toOption hv
  exact ⟨_, v, hreached, hprocess, rfl, hsymbols, ofLines_printed (hreached.process hprocess)⟩

end Workspace

end LL1
