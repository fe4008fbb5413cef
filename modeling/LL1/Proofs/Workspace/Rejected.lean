/-
# What a rejection says

If a grammar was prepared without conflicts, its recogniser rejects an input at the first wrong
symbol. What was matched by then begins a form derived from the start symbol, since the trace is a
derivation. Together with the next symbol it begins no sentence, since the run on the sentence would
stop in the same place.
-/
import LL1.Proofs.Recogniser.Prefix
import LL1.Proofs.Workspace.Traced

namespace LL1

/-- The number of symbols that were matched: of the rows before the last one, those that apply no
rule. -/
def Verdict.matched (v : Verdict) : Nat :=
  v.trace.dropLast.countP fun row => row.rule.isNone

namespace Workspace

variable {w v : Workspace} {input : Word}

/-! ## Where a run stops -/

/-- When a run has stopped, the symbols that were matched are the first ones of the input, and they
begin a form derived from the start symbol. The others are unread. -/
theorem Reached.exists_derives_matched (hw : w.Reached)
    (hinput : ∀ s ∈ input, w.grammar.declares s = false) {k : Nat}
    (hk : (w.recognise input).matched = k) :
    k ≤ input.length ∧
    (∃ before row, (w.recognise input).trace = before ++ [row] ∧ row.unread = input.drop k) ∧
    (Run.complete w.grammar w.prediction.table input).machine.unread = input.drop k ∧
    ∃ rest, w.grammar.Derives [w.grammar.start] (input.take k ++ rest) := by
  obtain ⟨before, row, htrace, -, hunread, -⟩ := hw.exists_last_row hinput
  obtain ⟨read, form, hread, -, hexplains⟩ := hw.records hinput htrace
  have hmatched : k = read.length := by
    rw [← hk, Verdict.matched, htrace, List.dropLast_concat, hexplains.countP]
  have htake : input.take k = read := by
    rw [hmatched, ← hread, List.take_left]
  have hdrop : input.drop k = row.unread := by
    rw [hmatched, ← hread, List.drop_left]
  refine ⟨?_, ⟨before, row, htrace, hdrop.symm⟩, ?_, withoutEpsilon form, ?_⟩
  · rw [hmatched, ← hread, List.length_append]
    exact Nat.le_add_right _ _
  · rw [hdrop, hunread]
  · rw [htake]
    exact hexplains.derives.derives

/-! ## The first wrong symbol -/

/-- If a grammar was prepared without conflicts and its recogniser rejects an input without
non-terminals, the symbols that were matched are the first ones of the input and begin a form
derived from the start symbol. Together with the next one they begin no sentence, and if there is no
next one the input is no sentence. The sentences are those of the grammar before and after it was
prepared. -/
theorem rejected_at_first_wrong_symbol (hw : w.Reached) (h : w.process = .ok v)
    (hconflicts : v.prediction.conflicts = []) (hinput : ∀ s ∈ input, v.grammar.declares s = false)
    {reason : Rejection} (hrejected : (v.recognise input).outcome = .rejected reason) {k : Nat}
    (hk : (v.recognise input).matched = k) :
    k ≤ input.length ∧
    (∃ before row, (v.recognise input).trace = before ++ [row] ∧ row.unread = input.drop k) ∧
    (∃ rest, v.grammar.Derives [v.grammar.start] (input.take k ++ rest)) ∧
    (k < input.length → ∀ x, input.take (k + 1) <+: x →
      ¬ v.grammar.Generates v.grammar.start x ∧ ¬ w.grammar.Generates w.grammar.start x) ∧
    (k = input.length →
      ¬ v.grammar.Generates v.grammar.start input ∧ ¬ w.grammar.Generates w.grammar.start input) := by
  have hv := prepared_of_process hw.wellFormed h
  obtain ⟨hle, hlast, hunread, hderives⟩ := (hw.process h).exists_derives_matched hinput hk
  -- the loaded grammar has the same sentences, and a sentence is accepted
  have hnot : ∀ {x}, (v.recognise x).outcome = .rejected reason →
      ¬ v.grammar.Generates v.grammar.start x ∧ ¬ w.grammar.Generates w.grammar.start x := by
    intro x hx
    rw [← generates_of_process hw.wellFormed h, and_self]
    intro hgenerates
    have haccepted := of_decide_eq_true (hv.accepted_of_generates hconflicts hgenerates)
    rw [hx] at haccepted
    cases haccepted
  refine ⟨hle, hlast, hderives, fun hlt x hx => hnot ?_, fun _ => hnot hrejected⟩
  obtain ⟨rest, rfl⟩ := hx
  -- the next symbol was unread when the run stopped
  have hlength : (input.drop (k + 1)).length < (Run.complete v.grammar v.prediction.table
      (input.take (k + 1) ++ input.drop (k + 1))).machine.unread.length := by
    rw [List.take_append_drop, hunread, List.length_drop, List.length_drop]
    omega
  have hsame := Run.outcome_complete_append hv.aligned hlength rest
  rw [List.take_append_drop] at hsame
  exact hsame.trans hrejected

/-- `S->aAb | dAe` with `A->c | &` is prepared without conflicts. In `ae`, the non-terminal `A`
vanishes before the wrong symbol is noticed, in `abb` the input goes on behind a sentence, and `a`
is too short. -/
theorem rejected_at_first_wrong_symbol_of_vanishing :
    ∃ w v : Workspace, w.Reached ∧ w.process = .ok v ∧ v.prediction.conflicts = [] ∧
      (v.recognise ['a', 'e']).outcome = .rejected (.noEntry 'b' 'e') ∧
      (∀ x, ['a', 'e'] <+: x → ¬ w.grammar.Generates w.grammar.start x) ∧
      (v.recognise ['a', 'b', 'b']).outcome = .rejected .trailingInput ∧
      (∀ x, ['a', 'b', 'b'] <+: x → ¬ w.grammar.Generates w.grammar.start x) ∧
      (v.recognise ['a']).outcome = .rejected (.noEntry 'A' '$') ∧
      ¬ w.grammar.Generates w.grammar.start ['a'] := by
  have hload : Grammar.ofLines
      ["S->aAb".toList, "S->dAe".toList, "A->c".toList, "A->&".toList] =
        .ok ⟨[⟨'S', [['a', 'A', 'b'], ['d', 'A', 'e']]⟩, ⟨'A', [['c'], ['&']]⟩]⟩ := rfl
  have hrun : ((ofGrammar ⟨[⟨'S', [['a', 'A', 'b'], ['d', 'A', 'e']]⟩,
      ⟨'A', [['c'], ['&']]⟩]⟩).process.toOption.map fun v =>
        (v.prediction.conflicts, ['a', 'b', 'e'].all fun s => !v.grammar.declares s,
          [['a', 'e'], ['a', 'b', 'b'], ['a']].map fun x =>
            ((v.recognise x).outcome, (v.recognise x).matched))) =
      some ([], true, [(.rejected (.noEntry 'b' 'e'), 1), (.rejected .trailingInput, 2),
        (.rejected (.noEntry 'A' '$'), 1)]) := by
    decide +kernel
  obtain ⟨v, hv, hresult⟩ := Option.map_eq_some_iff.1 hrun
  simp only [List.map_cons, List.map_nil, Prod.mk.injEq, List.cons.injEq, and_true] at hresult
  obtain ⟨hconflicts, hundeclared, ⟨hae, hmae⟩, ⟨habb, hmabb⟩, ha, hma⟩ := hresult
  have hprocess := Grammar.eq_ok_of_toOption hv
  have hreached := Reached.lines hload
  have hinput : ∀ {input : Word}, input ⊆ ['a', 'b', 'e'] →
      ∀ s ∈ input, v.grammar.declares s = false := by
    intro input hsub s hs
    simpa using List.all_eq_true.1 hundeclared s (hsub hs)
  obtain ⟨-, -, -, hnone, -⟩ := rejected_at_first_wrong_symbol hreached hprocess hconflicts
    (hinput (by simp)) hae hmae
  obtain ⟨-, -, -, hnone', -⟩ := rejected_at_first_wrong_symbol hreached hprocess hconflicts
    (hinput (by simp)) habb hmabb
  obtain ⟨-, -, -, -, hshort⟩ := rejected_at_first_wrong_symbol hreached hprocess hconflicts
    (hinput (by simp)) ha hma
  exact ⟨_, v, hreached, hprocess, hconflicts, hae, fun x hx => (hnone (by decide) x hx).2, habb,
    fun x hx => (hnone' (by decide) x hx).2, ha, (hshort rfl).2⟩

end Workspace

end LL1
