/-
# Runs that go on

What may be relied on in the middle of a run, whatever workspace it uses: where the end marker is,
how far the input was read, and what the list of open expansions says about the stack.
-/
import LL1.Proofs.Recogniser.Nesting
import LL1.Proofs.Workspace.Recognised

namespace LL1

namespace Workspace

variable {w : Workspace} {input : Word}

/-- As long as a run goes on, the stack holds the end marker at its bottom and above it only
epsilons, terminals and non-terminals of the grammar. The cursor is within the input. When the
epsilons on top are taken off, the stack is not empty, and the input with the end marker behind it
has a symbol at the cursor. The expansions that are open then, oldest first, have different
non-terminals and heights that do not fall and are heights of the stack. Each of the non-terminals
derives, by one replacement or more, what is on the stack from its height up. -/
theorem run_steady (hw : w.Reached) {n : Nat} {r : Run}
    (hrun : (Run.step w.grammar w.prediction.table)^[n] (Run.start w.grammar input) = r)
    (hrunning : r.outcome = .running) :
    (∃ v, r.machine.stack = v ++ [endMarker] ∧ endMarker ∉ v ∧
      ∀ s ∈ v, s = epsilon ∨ s ∈ w.grammar.terminals ∨ w.grammar.declares s = true) ∧
    (r.cursor ≤ input.length ∧ r.machine.uncovered.unread = input.drop r.cursor ∧
      (input ++ [endMarker])[r.cursor]? = some r.machine.uncovered.lookahead ∧
      r.machine.uncovered.stack ≠ []) ∧
    (r.machine.uncovered.opened.map Opening.symbol).Nodup ∧
    (r.machine.uncovered.opened.reverse.Pairwise fun older newer => older.height ≤ newer.height) ∧
    ∀ o ∈ r.machine.uncovered.opened,
      0 < o.height ∧ o.height ≤ r.machine.uncovered.stack.length ∧
        ∃ v, w.grammar.Step [o.symbol] v ∧
          w.grammar.Derives v (withoutEpsilon (r.machine.uncovered.above o.height)) := by
  obtain rfl := hrun
  have hsteady := Run.steady_iterate hw.wellFormed hw.aligned input n hrunning
  generalize (Run.step w.grammar w.prediction.table)^[n] (Run.start w.grammar input) = r
    at hsteady ⊢
  obtain ⟨read, v, hspells, hcursor⟩ := hsteady.spells
  refine ⟨⟨v, hspells.stack, hspells.above, fun s hs => ?_⟩, ?_, ?_⟩
  · refine hsteady.known s ?_
    rw [hspells.stack]
    exact List.mem_append_left _ hs
  · obtain ⟨u, hspells, -⟩ := hspells.uncovered
    obtain ⟨hle, hunread, hlookahead⟩ := hspells.at_cursor
    rw [← hcursor]
    exact ⟨hle, hunread, hlookahead, hspells.stack_ne_nil⟩
  · have hnested := hsteady.nested.uncovered
    have htraces := hsteady.traces.uncovered
    refine ⟨hnested.nodup, List.pairwise_reverse.2 hnested.ascending, fun o ho => ?_⟩
    obtain ⟨hpos, hderives⟩ := htraces.derives_above hw.wellFormed hw.aligned ho
    exact ⟨hpos, hnested.bounded o ho, hderives⟩

/-- `S->NNc | Ab` with `A->Sa | a` and `N->n | &`. On `a`, after the expansions of `S` and `A`, the
guard looks at `S` on top of `ab`: `S` derives `Sab`, and `A`, which was opened one higher, derives
`Sa`. -/
theorem run_steady_of_indirect_recursion :
    ∃ w v : Workspace, ∃ r : Run, w.Reached ∧ w.process = .ok v ∧
      (Run.step v.grammar v.prediction.table)^[2] (Run.start v.grammar ['a']) = r ∧
      r.outcome = .running ∧
      r.machine.uncovered = ⟨['S', 'a', 'b', '$'], ['a'], [⟨'A', 3⟩, ⟨'S', 2⟩]⟩ ∧
      (∃ u, v.grammar.Step ['S'] u ∧ v.grammar.Derives u ['S', 'a', 'b']) ∧
      ∃ u, v.grammar.Step ['A'] u ∧ v.grammar.Derives u ['S', 'a'] := by
  have hload : Grammar.ofLines ["S->NNc".toList, "S->Ab".toList, "A->Sa".toList, "A->a".toList,
      "N->n".toList, "N->&".toList] =
        .ok ⟨[⟨'S', [['N', 'N', 'c'], ['A', 'b']]⟩, ⟨'A', [['S', 'a'], ['a']]⟩,
          ⟨'N', [['n'], ['&']]⟩]⟩ := rfl
  have hrun : ((ofGrammar ⟨[⟨'S', [['N', 'N', 'c'], ['A', 'b']]⟩, ⟨'A', [['S', 'a'], ['a']]⟩,
      ⟨'N', [['n'], ['&']]⟩]⟩).process.toOption.map fun v =>
        (((Run.step v.grammar v.prediction.table)^[2] (Run.start v.grammar ['a'])).outcome,
          ((Run.step v.grammar v.prediction.table)^[2]
            (Run.start v.grammar ['a'])).machine.uncovered)) =
              some (.running, ⟨['S', 'a', 'b', '$'], ['a'], [⟨'A', 3⟩, ⟨'S', 2⟩]⟩) := by
    decide +kernel
  obtain ⟨v, hv, hresult⟩ := Option.map_eq_some_iff.1 hrun
  obtain ⟨hrunning, hmachine⟩ := Prod.mk.inj hresult
  have hprocess := Grammar.eq_ok_of_toOption hv
  have hreached := Reached.lines hload
  obtain ⟨-, -, -, -, hopened⟩ := run_steady (hreached.process hprocess) rfl hrunning
  rw [hmachine] at hopened
  obtain ⟨-, -, hinner⟩ := hopened ⟨'A', 3⟩ List.mem_cons_self
  obtain ⟨-, -, houter⟩ := hopened ⟨'S', 2⟩ (List.mem_cons_of_mem _ List.mem_cons_self)
  exact ⟨_, v, _, hreached, hprocess, rfl, hrunning, hmachine, houter, hinner⟩

end Workspace

end LL1
