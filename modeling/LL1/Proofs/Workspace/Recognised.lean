/-
# The recogniser of any workspace

Whatever sets a table is filled from, and however the grammar changes afterwards, the row of a
non-terminal holds none but its own rules. That is enough for the recogniser to stop on every input,
and for its guard to refuse exactly the runs that would not stop without it.
-/
import LL1.Proofs.Recogniser.Guard
import LL1.Proofs.Recogniser.Termination
import LL1.Proofs.Workspace.Processed

namespace LL1

/-! ## Rows of a table -/

/-- The positions of alternatives belong to the non-terminal of the alternatives. -/
theorem Grammar.head_of_mem_firstOfAlternatives {g : Grammar} {f : SetFamily} {head : Symbol}
    {bodies : List Word} {start : Nat} {m : Memo} {e : RuleId × SymbolSet}
    (he : e ∈ (g.firstOfAlternatives f head bodies start m).1) : e.1.head = head := by
  induction bodies generalizing start m with
  | nil => exact absurd he List.not_mem_nil
  | cons body rest ih =>
    unfold firstOfAlternatives at he
    rcases List.mem_cons.1 he with rfl | he
    · rfl
    · exact ih he

/-- A candidate is a rule for the row of its non-terminal. -/
theorem head_of_mem_candidates {head : Symbol} {firsts : List (RuleId × SymbolSet)}
    {follow : SymbolSet} (hfirsts : ∀ e ∈ firsts, e.1.head = head) {c : Cell}
    (hc : c ∈ candidates head firsts follow) : c.id.head = c.nonTerminal := by
  unfold candidates at hc
  rcases List.mem_append.1 hc with hc | hc
  · obtain ⟨e, he, hc⟩ := List.mem_flatMap.1 hc
    obtain ⟨a, -, rfl⟩ := List.mem_map.1 hc
    exact hfirsts e he
  · obtain ⟨e, he, hc⟩ := List.mem_flatMap.1 hc
    obtain ⟨a, -, rfl⟩ := List.mem_map.1 hc
    exact hfirsts e (List.mem_filter.1 he).1

/-- Filling a cell with a rule of its row keeps the rules in their rows. -/
theorem Prediction.aligned_add {g : Grammar} {p : Prediction} {c : Cell} (hp : p.table.Aligned)
    (hc : c.id.head = c.nonTerminal) : (p.add g c).table.Aligned := by
  intro s a id hfind
  rw [find?_add] at hfind
  cases hold : p.table.find? s a with
  | some kept =>
    rw [hold, Option.some_or] at hfind
    rw [← Option.some.inj hfind]
    exact hp s a kept hold
  | none =>
    rw [hold, Option.none_or] at hfind
    split at hfind
    · next hplace =>
      rw [← Option.some.inj hfind, hc, hplace.1]
    · cases hfind

/-- An empty table holds nothing. -/
theorem Table.aligned_empty : Aligned {} :=
  fun _ _ _ h => by cases h

/-- A table is filled row by row, from whatever sets. -/
theorem Grammar.aligned_predict (g : Grammar) (f follow : SetFamily) (m : Memo) :
    (g.predict f follow m).prediction.table.Aligned := by
  refine List.foldlRecOn (motive := fun st : PredictionState => st.prediction.table.Aligned)
    g.nonTerminals _ Table.aligned_empty fun st hst n _ => ?_
  exact List.foldlRecOn (motive := fun p : Prediction => p.table.Aligned) _ _ hst
    fun p hp c hc => Prediction.aligned_add hp
      (head_of_mem_candidates (fun e he => head_of_mem_firstOfAlternatives he) hc)

namespace Workspace

variable {w : Workspace} {input : Word}

/-- The table of a workspace that can be reached holds the rules in their rows. -/
theorem Reached.aligned (h : w.Reached) : w.prediction.table.Aligned := by
  induction h with
  | lines _ => exact Table.aligned_empty
  | file _ => exact Table.aligned_empty
  | eliminate _ h ih =>
    rw [(cases_eliminate h).2.2]
    exact ih
  | solve _ ih => exact ih
  | process _ h _ =>
    obtain ⟨u, -, rfl⟩ := cases_process h
    exact Grammar.aligned_predict u.solve.grammar u.solve.first u.solve.follow u.solve.memo
  | query _ h ih =>
    cases h with
    | keepTable => exact Grammar.aligned_predict _ _ _ _
    | nullableHead _ => exact ih
    | nullableRule _ => exact ih
    | nullableWord _ => exact ih
    | firstOfWord _ => exact ih
    | predict => exact ih

/-! ## The recogniser stops -/

/-- Steps are made as long as the run goes on, and within the number of steps that is computed before the
first one the input is accepted or rejected. -/
theorem recognise_halts (hw : w.Reached) (input : Word) :
    ∃ n r, n ≤ (Machine.start w.grammar input).budget w.grammar ∧
      (Run.step w.grammar w.prediction.table)^[n] (Run.start w.grammar input) = r ∧
      (∀ k, k < n → ((Run.step w.grammar w.prediction.table)^[k]
        (Run.start w.grammar input)).outcome = .running) ∧
      (r.outcome = .accepted ∨ ∃ reason, r.outcome = .rejected reason) ∧
      w.recognise input = ⟨r.outcome, r.rows.reverse⟩ := by
  obtain ⟨n, hle, heq, hbefore⟩ := Run.exists_iterate_eq
    (Machine.guardedMove w.grammar w.prediction.table)
    ((Machine.start w.grammar input).budget w.grammar) (.start w.grammar input)
  refine ⟨n, Run.complete w.grammar w.prediction.table input, hle, heq.symm, hbefore, ?_, rfl⟩
  have hne := Run.outcome_complete_ne_running (g := w.grammar) hw.aligned input
  cases houtcome : (Run.complete w.grammar w.prediction.table input).outcome with
  | running => exact absurd houtcome hne
  | accepted => exact Or.inl rfl
  | rejected reason => exact Or.inr ⟨reason, rfl⟩

/-- `S->NSa | b` with `N->&` hides a left recursion behind `N`. Its recogniser stops on `b`. -/
theorem recognise_halts_of_hidden_recursion :
    ∃ w v : Workspace, w.Reached ∧ w.process = .ok v ∧
      (v.recognise ['b']).outcome = .rejected (.nonTerminating 'S' 'b') ∧
      ∃ n r, n ≤ (Machine.start v.grammar ['b']).budget v.grammar ∧
        (Run.step v.grammar v.prediction.table)^[n] (Run.start v.grammar ['b']) = r ∧
        (∀ k, k < n → ((Run.step v.grammar v.prediction.table)^[k]
          (Run.start v.grammar ['b'])).outcome = .running) ∧
        (r.outcome = .accepted ∨ ∃ reason, r.outcome = .rejected reason) ∧
        v.recognise ['b'] = ⟨r.outcome, r.rows.reverse⟩ := by
  have hload : Grammar.ofLines ["S->NSa".toList, "S->b".toList, "N->&".toList] =
      .ok ⟨[⟨'S', [['N', 'S', 'a'], ['b']]⟩, ⟨'N', [['&']]⟩]⟩ := rfl
  have hrun : ((ofGrammar ⟨[⟨'S', [['N', 'S', 'a'], ['b']]⟩, ⟨'N', [['&']]⟩]⟩).process.toOption.map
      fun v => (v.recognise ['b']).outcome) = some (.rejected (.nonTerminating 'S' 'b')) := by
    decide +kernel
  obtain ⟨v, hv, houtcome⟩ := Option.map_eq_some_iff.1 hrun
  have hprocess := Grammar.eq_ok_of_toOption hv
  have hreached := Reached.lines hload
  exact ⟨_, v, hreached, hprocess, houtcome, recognise_halts (hreached.process hprocess) ['b']⟩

/-! ## The guard is exact -/

/-- If the run on an input stops without the guard, the recogniser gives its outcome and its trace. The
recogniser refuses to expand a non-terminal exactly if the run would not stop without the guard, and
then this non-terminal is left recursive. -/
theorem guard_exact (hw : w.Reached) (input : Word) :
    (∀ n r, (Run.plainStep w.grammar w.prediction.table)^[n] (Run.start w.grammar input) = r →
      r.outcome ≠ .running → w.recognise input = ⟨r.outcome, r.rows.reverse⟩) ∧
    ((∃ s a, (w.recognise input).outcome = .rejected (.nonTerminating s a)) ↔
      ∀ n, ((Run.plainStep w.grammar w.prediction.table)^[n]
        (Run.start w.grammar input)).outcome = .running) ∧
    ∀ s a, (w.recognise input).outcome = .rejected (.nonTerminating s a) →
      w.grammar.LeftRecursive s := by
  have hne := Run.outcome_complete_ne_running (g := w.grammar) hw.aligned input
  rcases Run.complete_eq_or_refused hw.wellFormed hw.aligned input with
    ⟨⟨n, hplain⟩, hnot⟩ | ⟨⟨s, a, hrefused, hrecursive⟩, hgoes⟩
  · rw [hplain] at hne
    refine ⟨?_, ⟨fun h => absurd h hnot, fun h => absurd (h n) hne⟩, ?_⟩
    · rintro k r rfl hstopped
      have hsame := hplain.trans (Run.iterate_stepWith_eq hne hstopped)
      rw [recognise, LL1.recognise, hsame]
      rfl
    · exact fun s a h => absurd ⟨s, a, h⟩ hnot
  · refine ⟨?_, ⟨fun _ => hgoes, fun _ => ⟨s, a, hrefused⟩⟩, ?_⟩
    · rintro k r rfl hstopped
      exact absurd (hgoes k) hstopped
    · intro s' a' h
      obtain ⟨rfl, rfl⟩ := Rejection.nonTerminating.inj (Outcome.rejected.inj (hrefused.symm.trans h))
      exact hrecursive

/-- `S->NNc | Ab` with `A->Sa | a` and `N->n | &`. On `c` the non-terminal `N` comes back after it has
vanished, and the input is accepted. On `a` the start symbol comes back in front of what it has left. -/
theorem guard_exact_of_indirect_recursion :
    ∃ w v : Workspace, w.Reached ∧ w.process = .ok v ∧
      v.recognise ['c'] = ⟨.accepted, ((Run.plainStep v.grammar v.prediction.table)^[5]
        (Run.start v.grammar ['c'])).rows.reverse⟩ ∧
      (v.recognise ['a']).outcome = .rejected (.nonTerminating 'S' 'a') ∧
      (∀ n, ((Run.plainStep v.grammar v.prediction.table)^[n]
        (Run.start v.grammar ['a'])).outcome = .running) ∧
      v.grammar.LeftRecursive 'S' := by
  have hload : Grammar.ofLines ["S->NNc".toList, "S->Ab".toList, "A->Sa".toList, "A->a".toList,
      "N->n".toList, "N->&".toList] =
        .ok ⟨[⟨'S', [['N', 'N', 'c'], ['A', 'b']]⟩, ⟨'A', [['S', 'a'], ['a']]⟩,
          ⟨'N', [['n'], ['&']]⟩]⟩ := rfl
  have hrun : ((ofGrammar ⟨[⟨'S', [['N', 'N', 'c'], ['A', 'b']]⟩, ⟨'A', [['S', 'a'], ['a']]⟩,
      ⟨'N', [['n'], ['&']]⟩]⟩).process.toOption.map fun v =>
        (((Run.plainStep v.grammar v.prediction.table)^[5] (Run.start v.grammar ['c'])).outcome,
          (v.recognise ['a']).outcome)) =
            some (.accepted, .rejected (.nonTerminating 'S' 'a')) := by
    decide +kernel
  obtain ⟨v, hv, hresult⟩ := Option.map_eq_some_iff.1 hrun
  obtain ⟨haccepted, hrefused⟩ := Prod.mk.inj hresult
  have hprocess := Grammar.eq_ok_of_toOption hv
  have hreached := Reached.lines hload
  obtain ⟨hstops, -, -⟩ := guard_exact (hreached.process hprocess) ['c']
  obtain ⟨-, hgoes, hrecursive⟩ := guard_exact (hreached.process hprocess) ['a']
  have hsame := hstops 5 _ rfl (by rw [haccepted]; decide)
  rw [haccepted] at hsame
  exact ⟨_, v, hreached, hprocess, hsame, hrefused, hgoes.1 ⟨_, _, hrefused⟩,
    hrecursive 'S' 'a' hrefused⟩

end Workspace

end LL1
