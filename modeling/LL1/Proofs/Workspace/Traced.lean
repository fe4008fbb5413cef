/-
# What a trace shows

The recogniser of any workspace records a derivation from the left. Each row shows the form to which
the rules of the earlier rows lead, and the rows of an accepted input show a whole derivation of it.
-/
import LL1.Proofs.Recogniser.Leftmost
import LL1.Proofs.Workspace.Recognised

namespace LL1

namespace Workspace

variable {w : Workspace} {input : Word}

/-! ## Traces are derivations from the left -/

/-- The rows of a trace are right. -/
theorem Reached.records (hw : w.Reached) (hinput : ∀ s ∈ input, w.grammar.declares s = false)
    {before after : List Row} {row : Row}
    (h : (w.recognise input).trace = before ++ row :: after) :
    w.grammar.Records input before row := by
  have hlogged := Run.logged_complete hw.wellFormed hw.aligned hinput
  have hrows : (Run.complete w.grammar w.prediction.table input).rows =
      after.reverse ++ row :: before.reverse := by
    have hreverse := congrArg List.reverse h
    rw [recognise, LL1.recognise, List.reverse_reverse] at hreverse
    rw [hreverse]
    simp
  have hrecords := hlogged.rows _ _ _ hrows
  rwa [List.reverse_reverse] at hrecords

/-- The last row of a trace applies no rule and shows what is unread in the end. If the input was
accepted, nothing is left to be done. -/
theorem Reached.exists_last_row (hw : w.Reached)
    (hinput : ∀ s ∈ input, w.grammar.declares s = false) :
    ∃ before row, (w.recognise input).trace = before ++ [row] ∧ row.rule = none ∧
      row.unread = (Run.complete w.grammar w.prediction.table input).machine.unread ∧
      ((w.recognise input).accepted = true → row.stack = [endMarker] ∧ row.unread = []) := by
  have hlogged := Run.logged_complete hw.wellFormed hw.aligned hinput
  obtain ⟨row, before, hrows, hrule, hunread, haccepted⟩ :=
    hlogged.stopped (Run.outcome_complete_ne_running hw.aligned input)
  refine ⟨before.reverse, row, ?_, hrule, hunread, fun h => haccepted (of_decide_eq_true h)⟩
  rw [recognise, LL1.recognise, hrows, List.reverse_cons]

/-- If no symbol of the input is a non-terminal, each row of the trace shows an end of the input,
and what was read before it, followed by the stack without its end marker and epsilons, is the form
that the rules of the earlier rows make of the start symbol from the left. If the input is accepted,
the rules of all rows make the input of it, and there is a row for each of its symbols, for each of
the rules and for the end. -/
theorem trace_leftmost (hw : w.Reached) (hinput : ∀ s ∈ input, w.grammar.declares s = false) :
    (∀ before row after, (w.recognise input).trace = before ++ row :: after →
      ∃ read v, read ++ row.unread = input ∧ row.stack = v ++ [endMarker] ∧
        ∀ form, w.grammar.LeftDerives (before.filterMap Row.rule) [w.grammar.start] form ↔
          form = read ++ withoutEpsilon v) ∧
    ((w.recognise input).accepted = true →
      w.grammar.LeftDerives ((w.recognise input).trace.filterMap Row.rule) [w.grammar.start] input ∧
      (w.recognise input).trace.length =
        input.length + ((w.recognise input).trace.filterMap Row.rule).length + 1) := by
  constructor
  · intro before row after h
    obtain ⟨read, v, hread, hstack, hexplains⟩ := hw.records hinput h
    refine ⟨read, v, hread, hstack, fun form => ⟨fun hform => hform.unique hexplains.derives, ?_⟩⟩
    rintro rfl
    exact hexplains.derives
  · intro haccepted
    obtain ⟨before, row, htrace, hrule, -, hend⟩ := hw.exists_last_row hinput
    obtain ⟨hbottom, hunread⟩ := hend haccepted
    obtain ⟨read, v, hread, hstack, hexplains⟩ := hw.records hinput htrace
    -- all of the input was read, and nothing is above the end marker
    rw [hunread, List.append_nil] at hread
    obtain rfl : v = [] := List.self_eq_append_left.1 (hbottom.symm.trans hstack)
    obtain ⟨hderives, hlength⟩ := hexplains
    rw [hread] at hderives hlength
    rw [htrace, List.filterMap_append, List.filterMap_cons_none hrule, List.filterMap_nil,
      List.append_nil, List.length_append, hlength]
    exact ⟨by simpa [withoutEpsilon] using hderives, rfl⟩

/-- `S->iSA | x` with `A->eS | &` is prepared with a conflict. The trace of `iixex` has a row for
each of its five symbols, one for each of six rules, and one for the end. -/
theorem trace_leftmost_of_dangling_else :
    ∃ w v : Workspace, w.Reached ∧ w.process = .ok v ∧ v.prediction.conflicts ≠ [] ∧
      (v.recognise ['i', 'i', 'x', 'e', 'x']).accepted = true ∧
      v.grammar.LeftDerives ((v.recognise ['i', 'i', 'x', 'e', 'x']).trace.filterMap Row.rule)
        [v.grammar.start] ['i', 'i', 'x', 'e', 'x'] ∧
      ((v.recognise ['i', 'i', 'x', 'e', 'x']).trace.filterMap Row.rule).length = 6 ∧
      (v.recognise ['i', 'i', 'x', 'e', 'x']).trace.length = 5 + 6 + 1 := by
  have hload : Grammar.ofLines ["S->iSA".toList, "S->x".toList, "A->eS".toList, "A->&".toList] =
      .ok ⟨[⟨'S', [['i', 'S', 'A'], ['x']]⟩, ⟨'A', [['e', 'S'], ['&']]⟩]⟩ := rfl
  have hrun : ((ofGrammar ⟨[⟨'S', [['i', 'S', 'A'], ['x']]⟩,
      ⟨'A', [['e', 'S'], ['&']]⟩]⟩).process.toOption.map fun v =>
        (decide (v.prediction.conflicts ≠ []),
          ['i', 'i', 'x', 'e', 'x'].all fun s => !v.grammar.declares s,
          (v.recognise ['i', 'i', 'x', 'e', 'x']).accepted,
          ((v.recognise ['i', 'i', 'x', 'e', 'x']).trace.filterMap Row.rule).length)) =
            some (true, true, true, 6) := by
    decide +kernel
  obtain ⟨v, hv, hresult⟩ := Option.map_eq_some_iff.1 hrun
  obtain ⟨hconflicts, hresult⟩ := Prod.mk.inj hresult
  obtain ⟨hinput, hresult⟩ := Prod.mk.inj hresult
  obtain ⟨haccepted, hrules⟩ := Prod.mk.inj hresult
  have hprocess := Grammar.eq_ok_of_toOption hv
  have hreached := Reached.lines hload
  have hinput : ∀ s ∈ ['i', 'i', 'x', 'e', 'x'], v.grammar.declares s = false := by
    intro s hs
    simpa using List.all_eq_true.1 hinput s hs
  obtain ⟨-, hcomplete⟩ := trace_leftmost (hreached.process hprocess) hinput
  obtain ⟨hderives, hlength⟩ := hcomplete haccepted
  rw [hrules] at hlength
  exact ⟨_, v, hreached, hprocess, of_decide_eq_true hconflicts, haccepted, hderives, hrules,
    hlength⟩

end Workspace

end LL1
