/-
# Coherent stored grammars

A stored grammar that was loaded, and then rewritten, solved and prepared in any order, stays coherent,
also where a call fails. Its map, its order of declaration, its terminal alphabet, its sets and its table
agree with each other, although each of them is written by itself. The reason is that it represents a
workspace that is in order.
-/
import LL1.Proofs.Grammar.Loading
import LL1.Proofs.Store.Grid
import LL1.Proofs.Store.Represents

namespace LL1

namespace Store

/-! ## Calls after loading -/

/-- The stored grammars that come from loaded ones by calls. A call that fails counts as well, with what
it leaves behind. -/
inductive Developed : Store → Prop where
  /-- A grammar is loaded from lines in memory. -/
  | lines {lines : List (List Char)} {s : Store} (h : ofLines lines = .ok s) : Developed s
  /-- A grammar is loaded from a file. -/
  | file {path : String} {contents : Except ReadFailure (List UInt8)} {s : Store}
    (h : ofFile path contents = .ok s) : Developed s
  /-- It is attempted to rewrite the heads. -/
  | eliminate {s : Store} (hs : Developed s) : Developed (s.call eliminate).2
  /-- The sets are computed. -/
  | solve {s : Store} (hs : Developed s) : Developed s.solve
  /-- It is attempted to prepare the grammar for the recogniser. -/
  | process {s : Store} (hs : Developed s) : Developed (s.call process).2

variable {s : Store} {w : Workspace} {a : Symbol} {h : Head} {c : Cell}

/-- What comes from a loaded grammar by calls represents a workspace in order. -/
theorem Developed.exists_represents (hs : s.Developed) :
    ∃ w : Workspace, w.InOrder ∧ s.Represents w := by
  induction hs with
  | lines h =>
    obtain ⟨g, hload, rfl⟩ := exists_of_map_eq_ok h
    have hg := Grammar.wellFormed_of_ofLines hload
    exact ⟨_, Workspace.inOrder_ofGrammar hg, represents_ofGrammar hg⟩
  | file h =>
    obtain ⟨g, hload, rfl⟩ := exists_of_map_eq_ok h
    have hg := Grammar.wellFormed_of_ofFile hload
    exact ⟨_, Workspace.inOrder_ofGrammar hg, represents_ofGrammar hg⟩
  | eliminate _ ih =>
    obtain ⟨w, hw, hrepresents⟩ := ih
    exact ⟨_, hw.eliminated, (hrepresents.eliminate hw.wellFormed).2⟩
  | solve _ ih =>
    obtain ⟨w, hw, hrepresents⟩ := ih
    exact ⟨_, hw.solve, hrepresents.solve hw.wellFormed⟩
  | process _ ih =>
    obtain ⟨w, hw, hrepresents⟩ := ih
    exact ⟨_, hw.processed, (hrepresents.process hw.wellFormed).2⟩

/-! ## Coherence -/

/-- How the parts of a stored grammar agree with each other. -/
structure Coherent (s : Store) : Prop where
  /-- There is a start symbol. -/
  nonTerminals_ne_nil : s.nonTerminals ≠ []
  /-- No symbol is declared twice. -/
  nodup : s.nonTerminals.Nodup
  /-- The declared symbols are those under which there is a head. -/
  declared : ∀ a, a ∈ s.nonTerminals ↔ ∃ h, s.heads.get? a = some h
  /-- The head under a symbol bears it, and the symbol is upper case. -/
  symbol : ∀ a h, s.heads.get? a = some h → h.symbol = a ∧ isUppercase a = true
  /-- A head has alternatives, none of them twice and none of them empty. -/
  alternatives : ∀ a h, s.heads.get? a = some h →
    h.alternatives ≠ [] ∧ h.alternatives.Nodup ∧ ∀ body ∈ h.alternatives, body ≠ []
  /-- There is a head under every upper-case symbol of a right-hand side. -/
  defined : ∀ a h, s.heads.get? a = some h → ∀ body ∈ h.alternatives, ∀ u ∈ body,
    isUppercase u = true → ∃ k, s.heads.get? u = some k
  /-- The end marker occurs in no right-hand side. -/
  endMarker_notMem : ∀ a h, s.heads.get? a = some h → ∀ body ∈ h.alternatives, endMarker ∉ body
  /-- The alphabet holds the symbols of right-hand sides that are neither upper case nor epsilon, and
  then the end marker. -/
  terminals : ∃ used, s.terminals.toList = used ++ [endMarker] ∧
    ∀ t, t ∈ used ↔ isUppercase t = false ∧ t ≠ epsilon ∧
      ∃ a h, s.heads.get? a = some h ∧ ∃ body ∈ h.alternatives, t ∈ body
  /-- FIRST sets hold terminals other than the end marker, and epsilon. -/
  first : ∀ a h, s.heads.get? a = some h → ∀ t ∈ h.first,
    t = epsilon ∨ t ∈ s.terminals ∧ t ≠ endMarker
  /-- FOLLOW sets hold terminals. -/
  follow : ∀ a h, s.heads.get? a = some h → ∀ t ∈ h.follow, t ∈ s.terminals
  /-- The cells of the table belong to the grammar. -/
  cells : ∀ c ∈ s.prediction.table.cells, c.StandsIn s
  /-- The grid of the table shows every cell once. -/
  shown : ∀ c ∈ s.prediction.table.cells, ∃! p : Nat × Nat, s.Shows s.prediction.table c p.1 p.2
  /-- Whatever the grid shows behind its labels is one of the cells. -/
  filled : ∀ i j text, s.gridText? s.prediction.table (i + 1) (j + 1) = some text → text ≠ [] →
    ∃! c : Cell, c ∈ s.prediction.table.cells ∧ s.Shows s.prediction.table c i j

/-- A head that is stored is a non-terminal of the workspace with its sets. -/
theorem Represents.exists_of_get? (hs : s.Represents w) (hget : s.heads.get? a = some h) :
    ∃ n, w.grammar.find? a = some n ∧ w.headOf n = h := by
  rw [hs.heads] at hget
  exact Option.map_eq_some_iff.1 hget

/-- There is a head under each symbol that the workspace declares, and under no other. -/
theorem Represents.exists_get?_iff (hs : s.Represents w) :
    (∃ h, s.heads.get? a = some h) ↔ a ∈ w.grammar.symbols := by
  rw [← Grammar.declares_iff, ← Option.isSome_iff_exists, hs.heads, Option.isSome_map]
  exact Iff.rfl

/-- The symbols of right-hand sides are those of the rules of the workspace. -/
theorem Represents.exists_body_iff (hs : s.Represents w) (hg : w.grammar.WellFormed) {t : Symbol} :
    (∃ a h, s.heads.get? a = some h ∧ ∃ body ∈ h.alternatives, t ∈ body) ↔
      ∃ r ∈ w.grammar.rules, t ∈ r.body := by
  constructor
  · rintro ⟨a, h, hget, body, hbody, ht⟩
    obtain ⟨n, hfind, rfl⟩ := hs.exists_of_get? hget
    exact ⟨⟨a, body⟩, hg.mem_rules_iff_find?.2 ⟨n, hfind, hbody⟩, ht⟩
  · rintro ⟨r, hr, ht⟩
    obtain ⟨n, hfind, hbody⟩ := hg.mem_rules_iff_find?.1 hr
    refine ⟨r.head, w.headOf n, ?_, r.body, hbody, ht⟩
    rw [hs.heads, hfind]
    rfl

/-- The stored alphabet lists the terminals of right-hand sides, and then the end marker. -/
theorem Represents.exists_toList_terminals (hs : s.Represents w) (hg : w.grammar.WellFormed) :
    ∃ used, s.terminals.toList = used ++ [endMarker] ∧
      ∀ t, t ∈ used ↔ isUppercase t = false ∧ t ≠ epsilon ∧
        ∃ a h, s.heads.get? a = some h ∧ ∃ body ∈ h.alternatives, t ∈ body := by
  obtain ⟨used, hlist, hmem⟩ := hg.exists_toList_terminals
  refine ⟨used, hs.terminals ▸ hlist, fun t => ?_⟩
  rw [hmem, isTerminal_iff, hs.exists_body_iff hg]

/-- A cell that belongs to the grammar of the workspace belongs to the stored grammar. -/
theorem Represents.standsIn (hs : s.Represents w) (hc : c.FitsIn w.grammar) : c.StandsIn s := by
  obtain ⟨hterminal, hhead, n, hfind, hindex⟩ := hc
  have hget : s.heads.get? c.nonTerminal = some (w.headOf n) := by
    rw [hs.heads, hfind]
    rfl
  refine ⟨?_, hs.terminals ▸ hterminal, hhead, w.headOf n, hget, hindex⟩
  rw [hs.nonTerminals]
  exact hs.exists_get?_iff.1 ⟨_, hget⟩

/-- A stored grammar that represents a workspace in order is coherent. -/
theorem Represents.coherent (hs : s.Represents w) (hw : w.InOrder) : s.Coherent := by
  have hg := hw.wellFormed
  have heach : ∀ {a n}, w.grammar.find? a = some n → n.WellFormed w.grammar.symbols :=
    fun hfind => hg.each _ (Grammar.mem_of_find?_eq_some hfind)
  have hnodup : s.nonTerminals.Nodup := hs.nonTerminals ▸ hg.nodup
  have hcells : ∀ c ∈ s.prediction.table.cells, c.StandsIn s := by
    rw [hs.prediction]
    exact fun c hc => hs.standsIn (hw.fits c hc)
  have hdistinct : s.prediction.table.Distinct := hs.prediction ▸ hw.distinct
  exact
    { nonTerminals_ne_nil := fun hnil =>
        hg.nonTerminals_ne_nil (List.map_eq_nil_iff.1 (hs.nonTerminals.symm.trans hnil))
      nodup := hnodup
      declared := fun a => by rw [hs.exists_get?_iff, hs.nonTerminals]
      symbol := fun a h hget => by
        obtain ⟨n, hfind, rfl⟩ := hs.exists_of_get? hget
        have hsymbol := Grammar.symbol_of_find?_eq_some hfind
        exact ⟨hsymbol, hsymbol ▸ (heach hfind).uppercase⟩
      alternatives := fun a h hget => by
        obtain ⟨n, hfind, rfl⟩ := hs.exists_of_get? hget
        exact ⟨(heach hfind).alternatives_ne_nil, (heach hfind).nodup, (heach hfind).body_ne_nil⟩
      defined := fun a h hget body hbody u hu hup => by
        obtain ⟨n, hfind, rfl⟩ := hs.exists_of_get? hget
        exact hs.exists_get?_iff.2 ((heach hfind).defined body hbody u hu hup)
      endMarker_notMem := fun a h hget => by
        obtain ⟨n, hfind, rfl⟩ := hs.exists_of_get? hget
        exact (heach hfind).endMarker_notMem
      terminals := hs.exists_toList_terminals hg
      first := fun a h hget t ht => by
        obtain ⟨n, -, rfl⟩ := hs.exists_of_get? hget
        rw [hs.terminals]
        exact hw.eq_epsilon_or_mem_terminals ht
      follow := fun a h hget t ht => by
        obtain ⟨n, -, rfl⟩ := hs.exists_of_get? hget
        rw [hs.terminals]
        exact hw.follow n.symbol t ht
      cells := hcells
      shown := fun c hc => existsUnique_shows hnodup hdistinct hc (hcells c hc)
      filled := fun i j text => existsUnique_cell hdistinct }

/-- A stored grammar that was loaded is coherent, however it is rewritten, solved and prepared, and
whether or not that succeeds. -/
theorem coherent_of_developed (hs : s.Developed) : s.Coherent := by
  obtain ⟨w, hw, hrepresents⟩ := hs.exists_represents
  exact hrepresents.coherent hw

/-- `T->Tc` cannot be prepared, and is coherent after it was tried. `S->Sa | b` is prepared with a table
of three cells, and is coherent when it is solved once more. -/
theorem coherent_of_developed_of_recursion :
    ∃ s t : Store,
      ofLines ["T->Tc".toList] = .ok s ∧ (s.call process).1 = .error (.noBaseCase 'T') ∧
      (s.call process).2.solve.Coherent ∧
      ofLines ["S->Sa".toList, "S->b".toList] = .ok t ∧ (t.call process).1 = .ok () ∧
      (t.call process).2.nonTerminals = ['S', 'A'] ∧
      (t.call process).2.prediction.table.size = 3 ∧ (t.call process).2.solve.Coherent := by
  have hfails : Grammar.ofLines ["T->Tc".toList] = .ok ⟨[⟨'T', [['T', 'c']]⟩]⟩ := rfl
  have hload : Grammar.ofLines ["S->Sa".toList, "S->b".toList] =
      .ok ⟨[⟨'S', [['S', 'a'], ['b']]⟩]⟩ := rfl
  have hs : ofLines ["T->Tc".toList] = .ok (ofGrammar ⟨[⟨'T', [['T', 'c']]⟩]⟩) :=
    congrArg (Except.map ofGrammar) hfails
  have ht : ofLines ["S->Sa".toList, "S->b".toList] =
      .ok (ofGrammar ⟨[⟨'S', [['S', 'a'], ['b']]⟩]⟩) :=
    congrArg (Except.map ofGrammar) hload
  -- what the calls lead to is computed for the workspaces that are represented
  have hfailure : (Workspace.ofGrammar ⟨[⟨'T', [['T', 'c']]⟩]⟩).process =
      .error (.noBaseCase 'T') := by
    have hplan : (NonTerminal.mk 'T' [['T', 'c']]).plan = .refuse := rfl
    rw [Workspace.process, Workspace.eliminate, Grammar.eliminate, Grammar.elimination,
      Elimination.run.eq_def]
    simp only [Workspace.ofGrammar, hplan]
    rfl
  have hrun : ((Workspace.ofGrammar ⟨[⟨'S', [['S', 'a'], ['b']]⟩]⟩).process.toOption.map
      fun v => (v.grammar.symbols, v.prediction.table.size)) = some (['S', 'A'], 3) := by
    decide +kernel
  obtain ⟨v, hv, hresult⟩ := Option.map_eq_some_iff.1 hrun
  obtain ⟨hsymbols, hsize⟩ := Prod.mk.inj hresult
  have hprocess := Grammar.eq_ok_of_toOption hv
  have hg := Grammar.wellFormed_of_ofLines hfails
  have hg' := Grammar.wellFormed_of_ofLines hload
  obtain ⟨herror, -⟩ := (represents_ofGrammar hg).process hg
  obtain ⟨hok, hleft⟩ := (represents_ofGrammar hg').process hg'
  rw [hfailure] at herror
  rw [hprocess] at hok
  rw [Workspace.processed_of_ok hprocess] at hleft
  refine ⟨_, _, hs, herror, coherent_of_developed (.solve (.process (.lines hs))), ht, hok,
    hleft.nonTerminals.trans hsymbols, ?_, coherent_of_developed (.solve (.process (.lines ht)))⟩
  rw [hleft.prediction]
  exact hsize

end Store

end LL1
