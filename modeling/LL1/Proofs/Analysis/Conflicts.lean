/-
# Candidates and conflicts, cell by cell

A cell that is filled stays as it is, so what becomes of a candidate can be told from the finished
table: it leads to a conflict if another rule is in its cell. The rules that compete for one cell
come in a fixed order, whatever happens to the other cells. First come the alternatives that the
terminal can begin, and then, if the terminal can follow the non-terminal, those that can vanish. So
an alternative of both kinds comes twice.
-/
import LL1.Proofs.Analysis.Table
import Mathlib.Data.List.Basic

namespace LL1

/-! ## Rules that compete for a cell -/

/-- Whether a cell is in a given place. -/
def Cell.isAt (s a : Symbol) (c : Cell) : Bool :=
  decide (c.nonTerminal = s) && decide (c.terminal = a)

/-- The rules that a list of cells has for one place, in order. -/
def rulesFor (s a : Symbol) (cs : List Cell) : List RuleId :=
  (cs.filter (Cell.isAt s a)).map Cell.id

section RulesFor

variable {s a : Symbol} {cs : List Cell} {id : RuleId}

theorem rulesFor_append (ds : List Cell) :
    rulesFor s a (cs ++ ds) = rulesFor s a cs ++ rulesFor s a ds := by
  rw [rulesFor, List.filter_append, List.map_append]
  rfl

theorem mem_rulesFor : id ∈ rulesFor s a cs ↔ ⟨s, a, id⟩ ∈ cs := by
  simp only [rulesFor, List.mem_map, List.mem_filter, Cell.isAt, Bool.and_eq_true,
    decide_eq_true_eq]
  constructor
  · rintro ⟨c, ⟨hc, rfl, rfl⟩, rfl⟩
    exact hc
  · exact fun hc => ⟨_, ⟨hc, rfl, rfl⟩, rfl⟩

/-- What is found in a place is the first rule for it. -/
theorem find?_eq_head?_rulesFor : Table.find? ⟨cs⟩ s a = (rulesFor s a cs).head? := by
  rw [rulesFor, List.head?_map, List.head?_filter]
  rfl

/-- Cells of another row have no rules for a place. -/
theorem rulesFor_eq_nil (h : ∀ c ∈ cs, c.nonTerminal ≠ s) : rulesFor s a cs = [] := by
  rw [rulesFor, List.map_eq_nil_iff, List.filter_eq_nil_iff]
  intro c hc
  simp [Cell.isAt, h c hc]

/-- The cells of one rule in one row, a column for each symbol of a list, have the rule for a place
in this row as often as the symbol is listed. -/
theorem rulesFor_map {l : List Symbol} (hl : l.Nodup) :
    rulesFor s a (l.map fun t => ⟨s, t, id⟩) = if a ∈ l then [id] else [] := by
  induction l with
  | nil => rfl
  | cons t rest ih =>
    obtain ⟨ht, hrest⟩ := List.nodup_cons.1 hl
    rw [List.map_cons, ← List.singleton_append, rulesFor_append, ih hrest]
    by_cases hat : t = a
    · subst hat
      simp [rulesFor, Cell.isAt, ht]
    · simp [rulesFor, Cell.isAt, hat, Ne.symm hat]

/-- The conflicts about one place are those of the rules for it. -/
theorem filter_filterMap_conflictWith (t : Table) (g : Grammar) (cs : List Cell) :
    ((cs.filterMap (t.conflictWith g)).filter fun c =>
      decide (c.nonTerminal = s) && decide (c.terminal = a)) =
        (rulesFor s a cs).filterMap fun id => t.conflictWith g ⟨s, a, id⟩ := by
  induction cs with
  | nil => rfl
  | cons d rest ih =>
    rw [← List.singleton_append, List.filterMap_append, List.filter_append, ih, rulesFor_append,
      List.filterMap_append]
    congr 1
    obtain ⟨s', a', id⟩ := d
    by_cases hd : s' = s ∧ a' = a
    · obtain ⟨rfl, rfl⟩ := hd
      cases hc : t.conflictWith g ⟨s', a', id⟩ with
      | none => simp [rulesFor, Cell.isAt, hc]
      | some c =>
        obtain ⟨hs, ha⟩ := Table.place_of_conflictWith hc
        simp [rulesFor, Cell.isAt, hc, hs, ha]
    · have hnone : rulesFor s a [⟨s', a', id⟩] = [] := by simpa [rulesFor, Cell.isAt] using hd
      rw [hnone]
      cases hc : t.conflictWith g ⟨s', a', id⟩ with
      | none => simp [hc]
      | some c =>
        obtain ⟨hs, ha⟩ := Table.place_of_conflictWith hc
        simpa [hc, hs, ha] using hd

end RulesFor

/-- The first position that is listed is the position that is found. -/
theorem head?_findIdxs {α : Type} (p : α → Bool) (l : List α) (start : Nat) :
    (l.findIdxs p start).head? = (l.findIdx? p).map fun i => start + i := by
  induction l generalizing start with
  | nil => rfl
  | cons x rest ih =>
    rw [List.findIdxs_cons, List.findIdx?_cons]
    split
    · rfl
    · rw [ih, Option.map_map]
      refine Option.map_congr fun i _ => ?_
      rw [Function.comp_apply, Nat.add_assoc, Nat.add_comm 1]

/-- The positions that are listed are those of the members that satisfy the condition. -/
theorem mem_findIdxs_iff {α : Type} {p : α → Bool} {l : List α} {i : Nat} :
    i ∈ l.findIdxs p ↔ ∃ x, l[i]? = some x ∧ p x = true := by
  rw [List.mem_findIdxs_iff_exists_getElem_pos]
  constructor
  · rintro ⟨hi, hp⟩
    exact ⟨l[i], List.getElem?_eq_getElem hi, hp⟩
  · rintro ⟨x, hx, hp⟩
    obtain ⟨hi, rfl⟩ := List.getElem?_eq_some_iff.1 hx
    exact ⟨hi, hp⟩

/-! ## The candidates of a non-terminal -/

namespace Grammar

variable {g : Grammar} {f follow : SetFamily} {m : Memo} {s a : Symbol}

/-- The cells that come from FIRST have, for a place in their row, the alternatives that the
terminal can begin. -/
theorem rulesFor_firstCells (hg : g.WellFormed) (hf : g.ExactFirst f) {byFirst : Word → Bool}
    {bodies : List Word} (hfirst : ∀ v ∈ bodies, byFirst v = true ↔ a ≠ epsilon ∧ g.InFirst v a)
    (start : Nat) (hm : m.Ready g) :
    rulesFor s a ((g.firstOfAlternatives f s bodies start m).1.flatMap fun (id, found) =>
      found.terminals.map fun t => ⟨s, t, id⟩) =
        (bodies.findIdxs byFirst start).map (RuleId.mk s) := by
  induction bodies generalizing start m with
  | nil => rfl
  | cons body rest ih =>
    rw [List.forall_mem_cons] at hfirst
    have hfound : a ∈ (g.firstOfWord f body m).1.terminals ↔ byFirst body = true := by
      rw [mem_terminals_iff_ne, mem_firstOfWord_iff hg hf body hm, hfirst.1, and_comm]
    have hnodup : (g.firstOfWord f body m).1.terminals.Nodup :=
      (g.firstOfWord f body m).1.nodup.filter _
    rw [firstOfAlternatives]
    dsimp only
    rw [List.flatMap_cons, rulesFor_append, rulesFor_map hnodup,
      ih hfirst.2 (start + 1) (ready_firstOfWord hg f body hm), List.findIdxs_cons]
    by_cases hbody : byFirst body = true
    · rw [if_pos (hfound.2 hbody), if_pos hbody, List.map_cons, List.singleton_append]
    · rw [if_neg (mt hfound.1 hbody), if_neg hbody, List.nil_append]

/-- The cells that come from FOLLOW have, for a place in their row, the alternatives that can
vanish. -/
theorem rulesFor_followCells (hg : g.WellFormed) (hf : g.ExactFirst f) {vanishing : Word → Bool}
    {bodies : List Word} (hvanishing : ∀ v ∈ bodies, vanishing v = true ↔ g.Vanishes v)
    {after : SymbolSet} (ha : a ∈ after) (start : Nat) (hm : m.Ready g) :
    rulesFor s a (((g.firstOfAlternatives f s bodies start m).1.filter fun (_, found) =>
      decide (epsilon ∈ found)).flatMap fun (id, _) => after.toList.map fun t => ⟨s, t, id⟩) =
        (bodies.findIdxs vanishing start).map (RuleId.mk s) := by
  induction bodies generalizing start m with
  | nil => rfl
  | cons body rest ih =>
    rw [List.forall_mem_cons] at hvanishing
    have hfound : epsilon ∈ (g.firstOfWord f body m).1 ↔ vanishing body = true := by
      rw [mem_firstOfWord_iff hg hf body hm, hvanishing.1]
      exact ⟨fun h => (h.resolve_left fun h => h.1 rfl).2, fun h => Or.inr ⟨rfl, h⟩⟩
    have hrest := ih hvanishing.2 (start + 1) (ready_firstOfWord hg f body hm)
    rw [firstOfAlternatives]
    dsimp only
    rw [List.findIdxs_cons]
    by_cases hbody : vanishing body = true
    · rw [List.filter_cons_of_pos (by simpa using hfound.2 hbody), List.flatMap_cons,
        rulesFor_append, rulesFor_map after.nodup, if_pos (SymbolSet.mem_iff.1 ha), hrest,
        if_pos hbody, List.map_cons, List.singleton_append]
    · rw [List.filter_cons_of_neg (by simpa using mt hfound.1 hbody), hrest, if_neg hbody]

/-- No rule comes from FOLLOW for a terminal that does not follow. -/
theorem rulesFor_followCells_of_notMem {after : SymbolSet} (ha : a ∉ after)
    (firsts : List (RuleId × SymbolSet)) :
    rulesFor s a (firsts.flatMap fun (id, _) => after.toList.map fun t => ⟨s, t, id⟩) = [] := by
  induction firsts with
  | nil => rfl
  | cons e rest ih =>
    rw [List.flatMap_cons, rulesFor_append, ih, rulesFor_map after.nodup,
      if_neg (mt SymbolSet.mem_iff.2 ha), List.append_nil]

/-- The candidates of a non-terminal for a cell in its row: the alternatives that the terminal can
begin, in order, and then those that can vanish in front of it, in order. -/
theorem rulesFor_candidates (hg : g.WellFormed) (hf : g.ExactFirst f) {after : SymbolSet}
    {byFirst byFollow : Word → Bool} {bodies : List Word}
    (hfirst : ∀ v ∈ bodies, byFirst v = true ↔ a ≠ epsilon ∧ g.InFirst v a)
    (hfollow : ∀ v ∈ bodies, byFollow v = true ↔ g.Vanishes v ∧ a ∈ after) (hm : m.Ready g) :
    rulesFor s a (candidates s (g.firstOfAlternatives f s bodies 0 m).1 after) =
      (bodies.findIdxs byFirst ++ bodies.findIdxs byFollow).map (RuleId.mk s) := by
  rw [candidates, rulesFor_append, rulesFor_firstCells hg hf hfirst 0 hm, List.map_append]
  congr 1
  by_cases ha : a ∈ after
  · refine rulesFor_followCells hg hf (fun v hv => ?_) ha 0 hm
    rw [hfollow v hv, and_iff_left ha]
  · have hnone : bodies.findIdxs byFollow = [] := by
      rw [List.findIdxs_eq_nil_iff]
      intro v hv
      rw [← Bool.not_eq_true, hfollow v hv]
      exact fun h => ha h.2
    rw [rulesFor_followCells_of_notMem ha, hnone, List.map_nil]

/-! ## The candidates of a grammar -/

/-- Candidates lie in the rows of their non-terminals. -/
theorem nonTerminal_of_mem_candidates {firsts : List (RuleId × SymbolSet)} {after : SymbolSet}
    {c : Cell} (h : c ∈ candidates s firsts after) : c.nonTerminal = s := by
  simp only [candidates, List.mem_append, List.mem_flatMap, List.mem_map] at h
  rcases h with ⟨-, -, -, -, rfl⟩ | ⟨-, -, -, -, rfl⟩
  · rfl
  · rfl

theorem mem_symbols_of_mem_allCandidates {ns : List NonTerminal} {c : Cell}
    (h : c ∈ g.allCandidates f follow ns m) : c.nonTerminal ∈ ns.map NonTerminal.symbol := by
  induction ns generalizing m with
  | nil => cases h
  | cons n rest ih =>
    rcases List.mem_append.1 h with h | h
    · rw [nonTerminal_of_mem_candidates h]
      exact List.mem_cons_self
    · exact List.mem_cons_of_mem _ (ih h)

/-- The rules that compete for a cell are the candidates of the non-terminal in its row. -/
theorem rulesFor_allCandidates (hg : g.WellFormed) (hf : g.ExactFirst f) {ns : List NonTerminal}
    (hns : (ns.map NonTerminal.symbol).Nodup) {n : NonTerminal} (hn : n ∈ ns)
    {byFirst byFollow : Word → Bool}
    (hfirst : ∀ v ∈ n.alternatives, byFirst v = true ↔ a ≠ epsilon ∧ g.InFirst v a)
    (hfollow : ∀ v ∈ n.alternatives, byFollow v = true ↔ g.Vanishes v ∧ a ∈ follow.get n.symbol)
    (hm : m.Ready g) :
    rulesFor n.symbol a (g.allCandidates f follow ns m) =
      (n.alternatives.findIdxs byFirst ++ n.alternatives.findIdxs byFollow).map
        (RuleId.mk n.symbol) := by
  induction ns generalizing m with
  | nil => cases hn
  | cons k rest ih =>
    obtain ⟨hk, hrest⟩ := List.nodup_cons.1 hns
    have hready := ready_firstOfAlternatives hg f k.symbol k.alternatives 0 hm
    rw [allCandidates, rulesFor_append]
    rcases List.mem_cons.1 hn with rfl | hn
    · -- no other non-terminal has cells in this row
      have hother : rulesFor n.symbol a (g.allCandidates f follow rest
          (g.firstOfAlternatives f n.symbol n.alternatives 0 m).2) = [] :=
        rulesFor_eq_nil fun c hc heq => hk (heq ▸ mem_symbols_of_mem_allCandidates hc)
      rw [hother, List.append_nil, rulesFor_candidates hg hf hfirst hfollow hm]
    · have hne : k.symbol ≠ n.symbol := fun heq => hk (heq ▸ List.mem_map_of_mem hn)
      rw [rulesFor_eq_nil fun c hc heq => hne ((nonTerminal_of_mem_candidates hc).symm.trans heq),
        List.nil_append, ih hrest hn hready]

end Grammar

end LL1
