/-
# Workspaces in order

A workspace with a well-formed grammar stays in order while it is rewritten, solved and prepared, with or
without success: its sets stay within the terminals of its grammar, and the cells of its table belong to
its grammar. A rewriting keeps the terminals, so the sets that it keeps stay within them. A table is kept
only together with a grammar that was rewritten before, and such a grammar is not changed by another
rewriting.
-/
import LL1.Proofs.Analysis.Table
import LL1.Proofs.Rewriting.NormalForm
import LL1.Proofs.Workspace.Solved

namespace LL1

namespace SetFamily

variable {f : SetFamily} {old new : Grammar} {n : NonTerminal} {s t : Symbol}

/-- The set of a symbol is the first one that is listed for it. -/
theorem get_cons (s t : Symbol) (a : SymbolSet) (rest : List (Symbol × SymbolSet)) :
    get ⟨(t, a) :: rest⟩ s = if s = t then a else get ⟨rest⟩ s := by
  unfold get
  rw [List.lookup_cons]
  by_cases h : s = t
  · rw [if_pos h, beq_iff_eq.2 h]
  · rw [if_neg h, beq_false_of_ne h]

/-- In a family with one set for each of some non-terminals, whose symbols differ, the set of one of
them is found under its symbol. -/
theorem get_map_of_mem {ns : List NonTerminal} (hns : (ns.map NonTerminal.symbol).Nodup)
    (set : NonTerminal → SymbolSet) (hn : n ∈ ns) :
    get ⟨ns.map fun k => (k.symbol, set k)⟩ n.symbol = set n := by
  induction ns with
  | nil => cases hn
  | cons k rest ih =>
    obtain ⟨hk, hrest⟩ := List.nodup_cons.1 hns
    rw [List.map_cons, get_cons]
    rcases List.mem_cons.1 hn with rfl | hn
    · exact if_pos rfl
    · have hne : n.symbol ≠ k.symbol := fun heq => hk (heq ▸ List.mem_map_of_mem hn)
      rw [if_neg hne]
      exact ih hrest hn

/-- The set that is carried over for a non-terminal of a well-formed grammar. -/
theorem get_carryOver (hnew : new.WellFormed) (hn : n ∈ new.nonTerminals) :
    (f.carryOver old new).get n.symbol =
      if old.find? n.symbol = some n then f.get n.symbol else ∅ :=
  get_map_of_mem hnew.nodup (fun n => if old.find? n.symbol = some n then f.get n.symbol else ∅) hn

/-- What is carried over from a family was in it. -/
theorem mem_of_mem_carryOver (h : t ∈ (f.carryOver old new).get s) : t ∈ f.get s := by
  unfold carryOver at h
  obtain ⟨ns⟩ := new
  dsimp only at h
  induction ns with
  | nil => exact absurd h (SymbolSet.notMem_empty t)
  | cons n rest ih =>
    rw [List.map_cons, get_cons] at h
    split at h
    · next hs =>
      subst hs
      split at h
      · exact h
      · exact absurd h (SymbolSet.notMem_empty t)
    · exact ih h

end SetFamily

namespace Workspace

variable {w v : Workspace}

/-! ## What each of them keeps -/

/-- What rewriting, solving and preparing keep of a workspace. -/
structure InOrder (w : Workspace) : Prop where
  /-- The grammar is well-formed. -/
  wellFormed : w.grammar.WellFormed
  /-- FIRST sets hold terminals other than the end marker, and epsilon. -/
  first : ∀ s, ∀ t ∈ w.first.get s, t ∈ w.grammar.firstAlphabet
  /-- FOLLOW sets hold terminals. -/
  follow : ∀ s, ∀ t ∈ w.follow.get s, t ∈ w.grammar.terminals
  /-- No two cells of the table stand in one place. -/
  distinct : w.prediction.table.Distinct
  /-- The cells of the table belong to the grammar. -/
  fits : ∀ c ∈ w.prediction.table.cells, c.FitsIn w.grammar
  /-- If there are cells then the grammar was rewritten before. -/
  settled : w.prediction.table.cells ≠ [] → ∀ n ∈ w.grammar.nonTerminals, n.Settled

/-- A workspace with a well-formed grammar and nothing else is in order. -/
theorem inOrder_ofGrammar {g : Grammar} (hg : g.WellFormed) : (ofGrammar g).InOrder where
  wellFormed := hg
  first := fun _ _ ht => absurd ht (SymbolSet.notMem_empty _)
  follow := fun _ _ ht => absurd ht (SymbolSet.notMem_empty _)
  distinct := List.nodup_nil
  fits := fun _ hc => absurd hc List.not_mem_nil
  settled := fun hne => absurd rfl hne

/-- A member of a FIRST set is epsilon, or a terminal other than the end marker. -/
theorem InOrder.eq_epsilon_or_mem_terminals (hw : w.InOrder) {s t : Symbol} (ht : t ∈ w.first.get s) :
    t = epsilon ∨ t ∈ w.grammar.terminals ∧ t ≠ endMarker := by
  refine (List.mem_cons.1 (hw.first s t ht)).imp_right fun hmem => ?_
  obtain ⟨hterminal, hne⟩ := List.mem_filter.1 hmem
  exact ⟨hterminal, by simpa using hne⟩

/-- Rewriting keeps a workspace in order. -/
theorem InOrder.eliminate (hw : w.InOrder) (h : w.eliminate = .ok v) : v.InOrder := by
  obtain ⟨hgrammar, -, hprediction⟩ := cases_eliminate h
  obtain ⟨hfirst, hfollow⟩ := sets_of_eliminate h
  obtain ⟨supply, hrewritten⟩ := Grammar.rewrittenTo_of_eliminate hw.wellFormed hgrammar
  have hterminals : ∀ t, t ∈ v.grammar.terminals ↔ t ∈ w.grammar.terminals := hrewritten.terminals
  -- a grammar with a table is not changed
  have hsame : w.prediction.table.cells ≠ [] → v.grammar = w.grammar := by
    intro hne
    rw [Grammar.eliminate_of_settled (hw.settled hne)] at hgrammar
    exact (Except.ok.inj hgrammar).symm
  refine ⟨hrewritten.wellFormed, fun s t ht => ?_, fun s t ht => ?_, ?_, fun c hc => ?_, ?_⟩
  · rw [hfirst] at ht
    have hold := hw.first s t (SetFamily.mem_of_mem_carryOver ht)
    unfold Grammar.firstAlphabet at hold ⊢
    rw [List.mem_cons, List.mem_filter, ← SymbolSet.mem_iff] at hold ⊢
    rwa [hterminals]
  · rw [hfollow] at ht
    exact (hterminals t).2 (hw.follow s t (SetFamily.mem_of_mem_carryOver ht))
  · rw [hprediction]
    exact hw.distinct
  · rw [hprediction] at hc
    rw [hsame (List.ne_nil_of_mem hc)]
    exact hw.fits c hc
  · rw [hprediction]
    intro hne
    rw [hsame hne]
    exact hw.settled hne

/-- Solving keeps a workspace in order. -/
theorem InOrder.solve (hw : w.InOrder) : w.solve.InOrder := by
  have hsolved := solved_solve hw.wellFormed
  exact ⟨hw.wellFormed, fun s t ht => hsolved.first.mem_firstAlphabet hw.wellFormed ht,
    fun s t ht => Grammar.mem_terminals_of_inFollow hw.wellFormed (hsolved.follow.sound s t ht),
    hw.distinct, hw.fits, hw.settled⟩

/-- A candidate for a cell belongs to the grammar. -/
theorem Solved.fitsIn (hw : w.Solved) {c : Cell} (hc : w.grammar.IsCandidate w.follow c) :
    c.FitsIn w.grammar := by
  have hg := hw.wellFormed
  obtain ⟨hhead, body, hbody, hcond⟩ := hc
  have hr := Grammar.mem_rules_of_body? hbody
  refine ⟨?_, hhead, ?_⟩
  · rcases hcond with ⟨hne, hfirst⟩ | ⟨-, hfollow⟩
    · have halphabet := Grammar.mem_firstAlphabet_of_inFirst hg
        (Grammar.declares_of_mem_rules hr) (Grammar.inFirst_of_mem_rules hg hr hfirst)
      exact (List.mem_filter.1 ((List.mem_cons.1 halphabet).resolve_left hne)).1
    · exact Grammar.mem_terminals_of_inFollow hg (hw.follow.sound _ _ hfollow)
  · obtain ⟨n, hfind, hindex⟩ := Grammar.body?_eq_some_iff.1 hbody
    exact ⟨n, hhead ▸ hfind, (List.getElem?_eq_some_iff.1 hindex).1⟩

/-- Preparing keeps a workspace in order. -/
theorem InOrder.process (hw : w.InOrder) (h : w.process = .ok v) : v.InOrder := by
  obtain ⟨u, hu, rfl⟩ := cases_process h
  have horder := (hw.eliminate hu).solve
  have hsolved := solved_solve (hw.eliminate hu).wellFormed
  have hdistinct : u.solve.keepTable.prediction.table.Distinct :=
    Grammar.distinct_predict u.solve.grammar u.solve.first u.solve.follow u.solve.memo
  refine ⟨horder.wellFormed, horder.first, horder.follow, hdistinct, fun c hc => ?_, fun _ => ?_⟩
  · exact hsolved.fitsIn (Grammar.isCandidate_of_find? hsolved.wellFormed hsolved.first
      hsolved.ready (hdistinct.find?_of_mem hc))
  · exact settled_of_run (Grammar.run_of_eliminate (grammar_of_process h))

/-- An attempt to rewrite keeps a workspace in order. -/
theorem InOrder.eliminated (hw : w.InOrder) : w.eliminated.InOrder := by
  cases h : w.eliminate with
  | error e => rwa [eliminated_of_error h]
  | ok v =>
    rw [eliminated_of_ok h]
    exact hw.eliminate h

/-- An attempt to prepare keeps a workspace in order. -/
theorem InOrder.processed (hw : w.InOrder) : w.processed.InOrder := by
  cases h : w.process with
  | error e => rwa [processed_of_error h]
  | ok v =>
    rw [processed_of_ok h]
    exact hw.process h

end Workspace

end LL1
