/-
# Prepared grammars

A grammar that was prepared for the recogniser holds its sets and a table that was filled from them.
What its recogniser accepts is derived, and if no conflict was met then everything is accepted that is
derived and free of non-terminals. As preparing keeps the language, this is the language of the
grammar that was loaded.
-/
import LL1.Proofs.Analysis.Separation
import LL1.Proofs.Recogniser.Completeness
import LL1.Proofs.Recogniser.Soundness
import LL1.Proofs.Workspace.Solved

namespace LL1

namespace Workspace

variable {w v : Workspace} {g : Grammar} {input : Word}

/-! ## What preparing establishes -/

/-- What holds of a workspace whose grammar was prepared. -/
structure Prepared (w : Workspace) : Prop where
  /-- The sets are computed. -/
  solved : w.Solved
  /-- The table holds the rules of a non-terminal in its own row. -/
  aligned : w.prediction.table.Aligned
  /-- Without conflicts the table predicts every rule where it should. -/
  predictive : w.prediction.conflicts = [] → w.grammar.Predictive w.prediction.table

/-- A table that is filled in a solved workspace and kept makes it a prepared one. -/
theorem Solved.prepared (h : w.Solved) : w.keepTable.Prepared := by
  -- what fills a cell is a candidate for it, since the sets are right
  have hcandidate : ∀ {s a id}, w.keepTable.prediction.table.find? s a = some id →
      w.grammar.IsCandidate w.follow ⟨s, a, id⟩ :=
    Grammar.isCandidate_of_find? h.wellFormed h.first h.ready
  refine ⟨h.query .keepTable, fun s a id hfind => (hcandidate hfind).1, ?_⟩
  intro hconflicts r hr a ha
  obtain ⟨i, hbody⟩ := h.wellFormed.exists_body? hr
  have hc : w.grammar.IsCandidate w.follow ⟨r.head, a, ⟨r.head, i⟩⟩ := by
    refine ⟨rfl, r.body, hbody, ha.imp id fun hfollow => ⟨hfollow.1, ?_⟩⟩
    exact h.follow.mem_of_inFollow h.wellFormed (Grammar.declares_of_mem_rules hr) hfollow.2
  exact ⟨_, Grammar.find?_of_isCandidate h.wellFormed h.first h.ready hconflicts hc, hbody⟩

/-- Preparing a well-formed grammar prepares it. -/
theorem prepared_of_process (hg : w.grammar.WellFormed) (h : w.process = .ok v) : v.Prepared := by
  obtain ⟨u, hu, rfl⟩ := cases_process h
  have hgrammar := Grammar.wellFormed_of_eliminate hg (grammar_of_eliminate hu)
  exact (solved_solve hgrammar).prepared

/-- A solved workspace fills a table without conflicts exactly if its grammar is separated. -/
theorem Solved.conflicts_eq_nil_iff (h : w.Solved) :
    w.predict.1.conflicts = [] ↔ w.grammar.Separated :=
  Grammar.conflicts_eq_nil_iff_separated h.wellFormed h.first h.follow h.ready

/-- A grammar is prepared without conflicts exactly if it comes out separated. -/
theorem conflicts_eq_nil_iff_of_process (hg : w.grammar.WellFormed) (h : w.process = .ok v) :
    v.prediction.conflicts = [] ↔ v.grammar.Separated := by
  obtain ⟨u, hu, rfl⟩ := cases_process h
  have hgrammar := Grammar.wellFormed_of_eliminate hg (grammar_of_eliminate hu)
  exact (solved_solve hgrammar).conflicts_eq_nil_iff

/-! ## The recogniser of a prepared grammar -/

/-- A derived form is a string of terminals if it holds no non-terminals. -/
theorem isTerminalString_iff (hg : g.WellFormed) (h : g.Derives [g.start] input) :
    IsTerminalString input ↔ ∀ s ∈ input, g.declares s = false := by
  constructor
  · exact fun hterminal s hs => hg.declares_eq_false (hterminal s hs).1
  · intro hinput s hs
    obtain ⟨hne, hd | ht⟩ := Grammar.symbols_of_derives hg hg.declares_start h s hs
    · rw [hinput s hs] at hd
      cases hd
    · exact ⟨ht, hne⟩

/-- The recogniser of a grammar that was prepared without conflicts accepts its sentences. -/
theorem Prepared.accepted_of_generates (hv : v.Prepared) (hconflicts : v.prediction.conflicts = [])
    (h : v.grammar.Generates v.grammar.start input) : (v.recognise input).accepted = true :=
  accepted_of_derives hv.solved.wellFormed hv.aligned (hv.predictive hconflicts) h.1
    ((isTerminalString_iff hv.solved.wellFormed h.1).1 h.2)

/-- Preparing keeps the language of a grammar. -/
theorem generates_of_process (hg : w.grammar.WellFormed) (h : w.process = .ok v) :
    v.grammar.Generates v.grammar.start input ↔ w.grammar.Generates w.grammar.start input := by
  have heliminate := grammar_of_process h
  rw [Grammar.start_of_eliminate hg heliminate]
  exact Grammar.generates_of_eliminate hg heliminate (Grammar.declares_iff.1 hg.declares_start)

/-- What is accepted is derived from the start symbol of the prepared grammar, by replacements that may
leave non-terminals as they are. It is a sentence of the grammar, before and after it was prepared,
exactly if none of its symbols is a non-terminal. -/
theorem sentence_iff_of_accepted (hw : w.Reached) (h : w.process = .ok v)
    (haccepted : (v.recognise input).accepted = true) :
    v.grammar.Derives [v.grammar.start] input ∧
      (v.grammar.Generates v.grammar.start input ↔ ∀ s ∈ input, v.grammar.declares s = false) ∧
      (w.grammar.Generates w.grammar.start input ↔ ∀ s ∈ input, v.grammar.declares s = false) := by
  have hv := prepared_of_process hw.wellFormed h
  have hderives : v.grammar.Derives [v.grammar.start] input :=
    derives_of_accepted hv.solved.wellFormed hv.aligned haccepted
  have hgenerates : v.grammar.Generates v.grammar.start input ↔
      ∀ s ∈ input, v.grammar.declares s = false := by
    rw [← isTerminalString_iff hv.solved.wellFormed hderives]
    exact and_iff_right hderives
  refine ⟨hderives, hgenerates, ?_⟩
  rw [← generates_of_process hw.wellFormed h]
  exact hgenerates

/-- The sentence `a` of `S->a`, and its start symbol, which is accepted as well. -/
theorem sentence_iff_of_accepted_start :
    ∃ w v : Workspace, w.Reached ∧ w.process = .ok v ∧
      (v.recognise ['a']).accepted = true ∧ (v.recognise ['S']).accepted = true ∧
      (w.grammar.Generates w.grammar.start ['a'] ↔ ∀ s ∈ ['a'], v.grammar.declares s = false) ∧
      (w.grammar.Generates w.grammar.start ['S'] ↔ ∀ s ∈ ['S'], v.grammar.declares s = false) := by
  have hload : Grammar.ofLines ["S->a".toList] = .ok ⟨[⟨'S', [['a']]⟩]⟩ := rfl
  have hrun : ((ofGrammar ⟨[⟨'S', [['a']]⟩]⟩).process.toOption.map fun v =>
      ((v.recognise ['a']).accepted, (v.recognise ['S']).accepted)) = some (true, true) := by
    decide +kernel
  obtain ⟨v, hv, hresult⟩ := Option.map_eq_some_iff.1 hrun
  obtain ⟨ha, hs⟩ := Prod.mk.inj hresult
  have hprocess := Grammar.eq_ok_of_toOption hv
  have hreached := Reached.lines hload
  exact ⟨_, v, hreached, hprocess, ha, hs, (sentence_iff_of_accepted hreached hprocess ha).2.2,
    (sentence_iff_of_accepted hreached hprocess hs).2.2⟩

/-- The automaton matches a non-terminal against itself: the recogniser of `S->a` accepts `S`, which is
no string of terminals. -/
theorem accepted_not_sentence :
    ∃ (g : Grammar) (v : Workspace), Grammar.ofLines ["S->a".toList] = .ok g ∧
      (ofGrammar g).process = .ok v ∧ (v.recognise ['S']).accepted = true ∧
      ¬ v.grammar.Generates v.grammar.start ['S'] ∧ ¬ g.Generates g.start ['S'] := by
  have hrun : ((ofGrammar ⟨[⟨'S', [['a']]⟩]⟩).process.toOption.map fun v =>
      (v.recognise ['S']).accepted) = some true := by
    decide +kernel
  have hnot : ¬ IsTerminalString ['S'] := by
    intro h
    have ht := (h 'S' List.mem_cons_self).1
    revert ht
    decide +kernel
  obtain ⟨v, hv, haccepted⟩ := Option.map_eq_some_iff.1 hrun
  exact ⟨_, v, rfl, Grammar.eq_ok_of_toOption hv, haccepted, fun h => hnot h.2, fun h => hnot h.2⟩

/-! ## Deciding derivability -/

/-- A loaded grammar that is prepared without conflicts is decided by its recogniser: a string without
non-terminals of the prepared grammar is accepted exactly if the start symbol of the loaded grammar
derives it. -/
theorem recognise_iff_derives {lines : List (List Char)} (hload : Grammar.ofLines lines = .ok g)
    (h : (ofGrammar g).process = .ok v) (hconflicts : v.prediction.conflicts = [])
    (hinput : ∀ s ∈ input, v.grammar.declares s = false) :
    (v.recognise input).accepted = true ↔ g.Derives [g.start] input := by
  have hg : g.WellFormed := Grammar.wellFormed_of_ofLines hload
  have hv := prepared_of_process (w := ofGrammar g) hg h
  have hkeeps : v.grammar.Generates v.grammar.start input ↔ g.Generates g.start input :=
    generates_of_process (w := ofGrammar g) hg h
  constructor
  · intro haccepted
    have hderives := derives_of_accepted hv.solved.wellFormed hv.aligned haccepted
    have hterminal := (isTerminalString_iff hv.solved.wellFormed hderives).2 hinput
    exact (hkeeps.1 ⟨hderives, hterminal⟩).1
  · intro hderives
    -- non-terminals of the loaded grammar are non-terminals of the prepared one
    have hundeclared : ∀ s ∈ input, g.declares s = false := by
      intro s hs
      cases hd : g.declares s with
      | false => rfl
      | true =>
        have hdeclared := Grammar.declared_of_eliminate hg (grammar_of_process h) s
          (Grammar.declares_iff.1 hd)
        rw [← Grammar.declares_iff, hinput s hs] at hdeclared
        cases hdeclared
    have hterminal := (isTerminalString_iff hg hderives).2 hundeclared
    exact accepted_of_derives hv.solved.wellFormed hv.aligned (hv.predictive hconflicts)
      (hkeeps.2 ⟨hderives, hterminal⟩).1 hinput

/-- `S->Sa | b` is prepared without conflicts, and `ba` is accepted. -/
theorem recognise_iff_derives_of_left_recursive :
    ∃ (g : Grammar) (v : Workspace), Grammar.ofLines ["S->Sa".toList, "S->b".toList] = .ok g ∧
      (ofGrammar g).process = .ok v ∧ v.prediction.conflicts = [] ∧
      v.grammar.symbols = ['S', 'A'] ∧ (v.recognise ['b', 'a']).accepted = true ∧
      ((v.recognise ['b', 'a']).accepted = true ↔ g.Derives [g.start] ['b', 'a']) := by
  have hload : Grammar.ofLines ["S->Sa".toList, "S->b".toList] =
      .ok ⟨[⟨'S', [['S', 'a'], ['b']]⟩]⟩ := rfl
  have hrun : ((ofGrammar ⟨[⟨'S', [['S', 'a'], ['b']]⟩]⟩).process.toOption.map fun v =>
      (v.prediction.conflicts, v.grammar.symbols, (v.recognise ['b', 'a']).accepted)) =
        some ([], ['S', 'A'], true) := by
    decide +kernel
  obtain ⟨v, hv, hresult⟩ := Option.map_eq_some_iff.1 hrun
  obtain ⟨hconflicts, hresult⟩ := Prod.mk.inj hresult
  obtain ⟨hsymbols, haccepted⟩ := Prod.mk.inj hresult
  have hprocess := Grammar.eq_ok_of_toOption hv
  have hinput : ∀ s ∈ ['b', 'a'], v.grammar.declares s = false := by
    have hnone : ∀ s ∈ ['b', 'a'], s ∉ ['S', 'A'] := by simp
    intro s hs
    have hs := hnone s hs
    rw [← hsymbols, ← Grammar.declares_iff] at hs
    exact Bool.eq_false_iff.2 hs
  exact ⟨_, v, hload, hprocess, hconflicts, hsymbols, haccepted,
    recognise_iff_derives hload hprocess hconflicts hinput⟩

end Workspace

end LL1
