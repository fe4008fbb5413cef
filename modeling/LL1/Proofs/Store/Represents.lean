/-
# Stored grammars represent workspaces

A stored grammar represents a workspace if under each symbol it holds the non-terminal of the workspace
with its sets, and if its order of declaration and its terminal alphabet are those of the grammar. A
grammar that was just stored represents the workspace about which nothing is known. What is done to a
stored grammar is what is done to the workspace, so it represents what that leads to, and a call fails
exactly if the operation on the workspace does.
-/
import LL1.Proofs.Store.Worklist
import LL1.Proofs.Workspace.InOrder
import LL1.Store.Calls

namespace LL1

/-! ## Writing families into maps -/

section Families

variable {f : SetFamily} {write : SymbolSet → Head → Head}

/-- A family in which no symbol is listed twice lists each symbol with its set. -/
theorem SetFamily.entries_eq (hnodup : f.symbols.Nodup) :
    f.entries = f.symbols.map fun a => (a, f.get a) := by
  rw [SetFamily.symbols, List.map_map]
  refine (List.map_id _).symm.trans (List.map_congr_left fun e he => ?_)
  exact Prod.ext rfl (SetFamily.get_of_mem_entries hnodup he).symm

/-- Writing a family changes the heads of the symbols that it lists, each by its own set. -/
theorem HeadMap.get?_writeSets (hnodup : f.symbols.Nodup) (m : HeadMap) (a : Symbol) :
    (m.writeSets write f).get? a =
      if a ∈ f.symbols then (m.get? a).map (write (f.get a)) else m.get? a := by
  have key : ∀ (l : List Symbol) (m : HeadMap), l.Nodup →
      ((l.map fun a => (a, f.get a)).foldl (fun m e => m.modify e.1 (write e.2)) m).get? a =
        if a ∈ l then (m.get? a).map (write (f.get a)) else m.get? a := by
    intro l
    induction l with
    | nil => exact fun _ _ => rfl
    | cons b l ih =>
      intro m hl
      obtain ⟨hb, hl⟩ := List.nodup_cons.1 hl
      rw [List.map_cons, List.foldl_cons, ih _ hl, HeadMap.get?_modify]
      by_cases ha : a = b
      · rw [if_neg (ha ▸ hb), if_pos ha, if_pos (ha ▸ List.mem_cons_self), ha]
      · rw [if_neg ha]
        exact if_congr (by rw [List.mem_cons, or_iff_right ha]) rfl rfl
  rw [HeadMap.writeSets, SetFamily.entries_eq hnodup]
  exact key f.symbols m hnodup

/-- The FOLLOW sets of a well-formed grammar list the declared symbols. -/
theorem symbols_followSets {g : Grammar} {first : SetFamily} {m : Memo} (hg : g.WellFormed)
    (hf : g.ExactFirst first) (hm : m.Ready g) :
    (g.followSets first m).state.sets.symbols = g.symbols := by
  obtain ⟨st, hst, -, hstate⟩ := exists_settled_sets (I := g.FollowSound)
    (fun st hst => Grammar.followSound_followPass hg hf hst) (fun st hst => hst.size_le hg)
    (Grammar.followSound_seed hg hm)
  rw [Grammar.followSets, Grammar.passLimit, hstate]
  exact (Grammar.followSound_followPass hg hf hst).1.symbols

end Families

namespace Store

/-! ## Representing a workspace -/

/-- Whether the parts of a stored grammar are those of a workspace. -/
structure Represents (s : Store) (w : Workspace) : Prop where
  /-- Under each symbol there is the non-terminal that bears it, with its sets. -/
  heads : ∀ a, s.heads.get? a = (w.grammar.find? a).map w.headOf
  /-- The declared symbols are in order. -/
  nonTerminals : s.nonTerminals = w.grammar.symbols
  /-- The alphabet is that of the grammar. -/
  terminals : s.terminals = w.grammar.terminals
  /-- The marks are the same. -/
  memo : s.memo = w.memo
  /-- The table and its conflicts are the same. -/
  prediction : s.prediction = w.prediction

variable {s : Store} {w v : Workspace} {e : RewriteFailure}

/-- Heads in order are the non-terminals of the grammar with their sets. -/
theorem orderedHeads_eq (hg : w.grammar.WellFormed)
    (hheads : ∀ a, s.heads.get? a = (w.grammar.find? a).map w.headOf)
    (horder : s.nonTerminals = w.grammar.symbols) :
    s.orderedHeads = w.grammar.nonTerminals.map w.headOf := by
  rw [orderedHeads, horder, Grammar.symbols, List.filterMap_map]
  refine List.filterMap_eq_map_iff_forall_eq_some.2 fun n hn => ?_
  show s.heads.get? n.symbol = some (w.headOf n)
  rw [hheads, hg.find?_of_mem hn]
  rfl

/-- The non-terminals in order are those of the grammar. -/
theorem grammar_eq (hg : w.grammar.WellFormed)
    (hheads : ∀ a, s.heads.get? a = (w.grammar.find? a).map w.headOf)
    (horder : s.nonTerminals = w.grammar.symbols) : s.grammar = w.grammar := by
  rw [grammar, orderedHeads_eq hg hheads horder, List.map_map]
  exact congrArg Grammar.mk (List.map_id _)

/-- A stored grammar represents a workspace as soon as the heads, the order, the marks and the table are
right and the terminals have been looked for. -/
theorem represents_refreshTerminals (hg : w.grammar.WellFormed)
    (hheads : ∀ a, s.heads.get? a = (w.grammar.find? a).map w.headOf)
    (horder : s.nonTerminals = w.grammar.symbols) (hmemo : s.memo = w.memo)
    (hprediction : s.prediction = w.prediction) : s.refreshTerminals.Represents w :=
  ⟨hheads, horder, congrArg Grammar.terminals (grammar_eq hg hheads horder), hmemo, hprediction⟩

/-- A grammar that is stored represents the workspace about which nothing is known. -/
theorem represents_ofGrammar {g : Grammar} (hg : g.WellFormed) :
    (ofGrammar g).Represents (.ofGrammar g) := by
  have horder : (g.nonTerminals.map Head.ofNonTerminal).map (fun h => h.symbol) = g.symbols := by
    rw [List.map_map]
    rfl
  refine represents_refreshTerminals hg (fun a => ?_) horder rfl rfl
  show (HeadMap.ofHeads (g.nonTerminals.map Head.ofNonTerminal)).get? a = _
  rw [HeadMap.get?_ofHeads (horder ▸ hg.nodup), List.find?_map]
  rfl

section Reading

variable (h : s.Represents w) (hg : w.grammar.WellFormed)

include h hg

/-! ## What is read from it -/

/-- The non-terminals are read in order. -/
theorem Represents.grammar_eq : s.grammar = w.grammar :=
  Store.grammar_eq hg h.heads h.nonTerminals

/-- Sets that are stored with the heads are read as a family that lists the declared symbols. -/
theorem Represents.family_eq {f : SetFamily} (set : Head → SymbolSet)
    (hsymbols : f.symbols = w.grammar.symbols) (hset : ∀ n, set (w.headOf n) = f.get n.symbol) :
    (⟨s.orderedHeads.map fun h => (h.symbol, set h)⟩ : SetFamily) = f := by
  refine congrArg SetFamily.mk (Eq.trans ?_ (SetFamily.entries_eq (hsymbols ▸ hg.nodup)).symm)
  rw [orderedHeads_eq hg h.heads h.nonTerminals, hsymbols, Grammar.symbols, List.map_map, List.map_map]
  exact List.map_congr_left fun n _ => Prod.ext rfl (hset n)

/-- The FIRST sets are read as they are, if they are those of the declared symbols. -/
theorem Represents.first_eq (hsymbols : w.first.symbols = w.grammar.symbols) : s.first = w.first :=
  h.family_eq hg Head.first hsymbols fun _ => rfl

/-- The FOLLOW sets are read as they are, if they are those of the declared symbols. -/
theorem Represents.follow_eq (hsymbols : w.follow.symbols = w.grammar.symbols) :
    s.follow = w.follow :=
  h.family_eq hg Head.follow hsymbols fun _ => rfl

/-- The stored grammar is read as the workspace, if that has sets for the declared symbols. -/
theorem Represents.workspace_eq (hfirst : w.first.symbols = w.grammar.symbols)
    (hfollow : w.follow.symbols = w.grammar.symbols) : s.workspace = w := by
  rw [workspace, h.grammar_eq hg, h.first_eq hg hfirst, h.follow_eq hg hfollow, h.memo, h.prediction]

end Reading

/-! ## Rewriting -/

/-- The worklist of a stored grammar holds the non-terminals of the grammar with their sets, and all of
them are pending. -/
theorem Represents.holds (h : s.Represents w) :
    (Worklist.ofStore s).Holds w.carriedHead w.grammar.supply [] w.grammar.nonTerminals := by
  refine ⟨fun a => ?_, h.nonTerminals, h.nonTerminals, congrArg Supply.outside h.nonTerminals⟩
  show s.heads.get? a = (w.grammar.find? a).map w.carriedHead
  rw [h.heads]
  refine Option.map_congr fun n hfind => (carriedHead_of_find? ?_).symm
  rwa [Grammar.symbol_of_find?_eq_some hfind]

/-- A rewritten non-terminal has the sets that were carried over for it. -/
theorem carriedHead_eq_headOf (hv : v.grammar.WellFormed) (h : w.eliminate = .ok v) {n : NonTerminal}
    (hn : n ∈ v.grammar.nonTerminals) : w.carriedHead n = v.headOf n := by
  obtain ⟨hfirst, hfollow⟩ := Workspace.sets_of_eliminate h
  rw [Workspace.headOf, hfirst, hfollow, SetFamily.get_carryOver hv hn,
    SetFamily.get_carryOver hv hn, Workspace.carriedHead]
  split <;> rfl

/-- A stored grammar is rewritten as the workspace is, and it represents what that leaves behind. -/
theorem Represents.eliminate (h : s.Represents w) (hg : w.grammar.WellFormed) :
    (s.call eliminate).1 = w.eliminate.map (fun _ => ()) ∧
      (s.call eliminate).2.Represents w.eliminated := by
  obtain ⟨herror, hok⟩ := h.holds.run hg (Grammar.rewrittenTo_self hg)
    fun n hn => Or.inl (hg.find?_of_mem hn)
  cases hw : w.eliminate with
  | error e =>
    have hrun := herror e (Grammar.failure_of_eliminate (Workspace.failure_of_eliminate hw))
    rw [call_eliminate_of_error hrun, Workspace.eliminated_of_error hw]
    exact ⟨rfl, h⟩
  | ok v =>
    have hgrammar := Workspace.grammar_of_eliminate hw
    have hv := Grammar.wellFormed_of_eliminate hg hgrammar
    obtain ⟨-, hmemo, hprediction⟩ := Workspace.cases_eliminate hw
    obtain ⟨l, supply, hrun, hl⟩ := hok _ (Grammar.run_of_eliminate hgrammar)
    rw [List.nil_append] at hl
    rw [call_eliminate_of_ok hrun, Workspace.eliminated_of_ok hw]
    refine ⟨rfl, represents_refreshTerminals hv (fun a => ?_) ?_ ?_ ?_⟩
    · show l.heads.get? a = _
      rw [hl.heads, List.append_nil]
      exact Option.map_congr fun n hfind =>
        carriedHead_eq_headOf hv hw (Grammar.mem_of_find?_eq_some hfind)
    · show l.order = _
      rw [hl.order, List.append_nil]
    · rw [hmemo, ← h.memo]
    · rw [hprediction, ← h.prediction]

/-! ## Solving and preparing -/

/-- Writing sets for the declared symbols into the heads leads to the heads with those sets. -/
theorem get?_writeSets_headOf {f : SetFamily} {write : SymbolSet → Head → Head}
    (h : s.Represents w) (hg : w.grammar.WellFormed) (hsymbols : f.symbols = w.grammar.symbols)
    (hwrite : ∀ n, write (f.get n.symbol) (w.headOf n) = v.headOf n) (a : Symbol) :
    (s.heads.writeSets write f).get? a = (w.grammar.find? a).map v.headOf := by
  rw [HeadMap.get?_writeSets (hsymbols ▸ hg.nodup), h.heads]
  cases hfind : w.grammar.find? a with
  | none => split <;> rfl
  | some n =>
    obtain rfl := Grammar.symbol_of_find?_eq_some hfind
    rw [if_pos (hsymbols ▸ List.mem_map_of_mem (Grammar.mem_of_find?_eq_some hfind))]
    exact congrArg some (hwrite n)

/-- A solved workspace has sets for the declared symbols. -/
theorem symbols_of_solve (hg : w.grammar.WellFormed) :
    w.solve.first.symbols = w.grammar.symbols ∧ w.solve.follow.symbols = w.grammar.symbols := by
  have hmemo : w.freshMemo.Ready w.grammar :=
    Grammar.ready_learnNullable hg (Memo.ready_empty w.grammar)
  obtain ⟨hready, hexact⟩ := Grammar.exactFirst_firstSets hg hmemo
  exact ⟨hexact.symbols, symbols_followSets hg hexact hready⟩

/-- A stored grammar is solved as the workspace is. -/
theorem Represents.solve (h : s.Represents w) (hg : w.grammar.WellFormed) :
    s.solve.Represents w.solve := by
  obtain ⟨hfirst, hfollow⟩ := symbols_of_solve hg
  -- the FIRST sets are computed and written first
  let u : Workspace :=
    { w with memo := w.settledFirst.state.memo, first := w.settledFirst.state.sets }
  have hu : s.solveFirst.Represents u := by
    refine ⟨fun a => ?_, h.nonTerminals, h.terminals, ?_, h.prediction⟩
    · show (s.heads.writeSets _ (s.grammar.firstSets _).state.sets).get? a = _
      rw [h.grammar_eq hg]
      exact get?_writeSets_headOf h hg hfirst (fun _ => rfl) a
    · show (s.grammar.firstSets _).state.memo = _
      rw [h.grammar_eq hg]
      rfl
  have hsets : (s.solveFirst.grammar.followSets s.solveFirst.first s.solveFirst.memo).state =
      w.settledFollow.state := by
    rw [hu.first_eq hg hfirst, hu.grammar_eq hg, hu.memo]
    rfl
  refine ⟨fun a => ?_, hu.nonTerminals, hu.terminals, ?_, hu.prediction⟩
  · show (s.solveFirst.heads.writeSets _ _).get? a = _
    rw [hsets]
    exact get?_writeSets_headOf hu hg hfollow (fun _ => rfl) a
  · exact congrArg SetState.memo hsets

/-- The table of a stored grammar that was solved is filled as that of the workspace. -/
theorem Represents.keepTable (h : s.Represents w) (hg : w.grammar.WellFormed)
    (hfirst : w.first.symbols = w.grammar.symbols) (hfollow : w.follow.symbols = w.grammar.symbols) :
    s.keepTable.Represents w.keepTable := by
  have hpredict : s.grammar.predict s.first s.follow s.memo =
      w.grammar.predict w.first w.follow w.memo := by
    rw [h.grammar_eq hg, h.first_eq hg hfirst, h.follow_eq hg hfollow, h.memo]
  exact ⟨h.heads, h.nonTerminals, h.terminals, congrArg PredictionState.memo hpredict,
    congrArg PredictionState.prediction hpredict⟩

/-- A stored grammar is prepared as the workspace is, and it represents what that leaves behind. -/
theorem Represents.process (h : s.Represents w) (hg : w.grammar.WellFormed) :
    (s.call process).1 = w.process.map (fun _ => ()) ∧
      (s.call process).2.Represents w.processed := by
  obtain ⟨hresult, hleft⟩ := h.eliminate hg
  rw [call_process]
  generalize s.call Store.eliminate = left at hresult hleft ⊢
  obtain ⟨result, left⟩ := left
  dsimp only at hresult hleft
  cases hw : w.eliminate with
  | error e =>
    have hprocess : w.process = .error e := by
      rw [Workspace.process, hw]
      rfl
    obtain rfl : result = .error e := hresult.trans (congrArg _ hw)
    rw [Workspace.eliminated_of_error hw] at hleft
    rw [hprocess, Workspace.processed_of_error hprocess]
    exact ⟨rfl, hleft⟩
  | ok v =>
    have hprocess : w.process = .ok v.solve.keepTable := by
      rw [Workspace.process, hw]
      rfl
    obtain rfl : result = .ok () := hresult.trans (congrArg _ hw)
    rw [Workspace.eliminated_of_ok hw] at hleft
    rw [hprocess, Workspace.processed_of_ok hprocess]
    have hv := Grammar.wellFormed_of_eliminate hg (Workspace.grammar_of_eliminate hw)
    obtain ⟨hfirst, hfollow⟩ := symbols_of_solve hv
    exact ⟨rfl, (hleft.solve hv).keepTable hv hfirst hfollow⟩

/-- After a preparation the stored grammar is read as the prepared workspace. -/
theorem Represents.workspace_of_process (h : s.Represents w) (hg : w.grammar.WellFormed)
    (hv : w.process = .ok v) : (s.call Store.process).2.workspace = v := by
  obtain ⟨-, hleft⟩ := h.process hg
  rw [Workspace.processed_of_ok hv] at hleft
  obtain ⟨u, hu, rfl⟩ := Workspace.cases_process hv
  have hgrammar := Grammar.wellFormed_of_eliminate hg (Workspace.grammar_of_eliminate hu)
  obtain ⟨hfirst, hfollow⟩ := symbols_of_solve hgrammar
  exact hleft.workspace_eq hgrammar hfirst hfollow

end Store

end LL1
