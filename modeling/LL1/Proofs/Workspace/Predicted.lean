/-
# Tables of solved workspaces

The table of a solved workspace is filled exactly where some rule is a candidate. A cell keeps the
first alternative that its terminal can begin, and, only if there is none, the first one that can
vanish. Every other candidate is reported as a conflict, once for each way in which it is a
candidate, so there are no conflicts exactly if no two rules compete.
-/
import LL1.Proofs.Analysis.Conflicts
import LL1.Proofs.Workspace.Solved
import Mathlib.Data.List.Count

namespace LL1

namespace Workspace

variable {w u : Workspace} {a t : Symbol} {v : Word} {n : NonTerminal} {id : RuleId}

/-! ## Candidates -/

/-- Whether `a->v` is a candidate for the cell of `a` and `t` by FIRST: it is a rule, and `t` is a
terminal other than epsilon in FIRST of `v`. -/
def competesByFirst (w : Workspace) (a t : Symbol) (v : Word) : Bool :=
  decide (Rule.mk a v ∈ w.grammar.rules) &&
    (isTerminal t && decide (t ≠ epsilon) && decide (t ∈ (w.firstOfWord v).1))

/-- Whether `a->v` is a candidate for the cell of `a` and `t` by FOLLOW: it is a rule, `v` is
nullable, and `t` is in FOLLOW of `a`. -/
def competesByFollow (w : Workspace) (a t : Symbol) (v : Word) : Bool :=
  decide (Rule.mk a v ∈ w.grammar.rules) &&
    ((w.nullableWord v).1 && decide (t ∈ w.follow.get a))

/-- Whether `a->v` is a candidate for the cell of `a` and `t`. -/
def competes (w : Workspace) (a t : Symbol) (v : Word) : Bool :=
  w.competesByFirst a t v || w.competesByFollow a t v

/-- The right-hand side that a table filled from the sets at hand has in a cell. -/
def keptAt? (w : Workspace) (a t : Symbol) : Option Word :=
  (w.predict.1.table.find? a t).bind w.grammar.body?

/-- The candidates with which the table is filled, in order. -/
def candidates (w : Workspace) : List Cell :=
  w.grammar.allCandidates w.first w.follow w.grammar.nonTerminals w.memo

/-- Candidates are rules. -/
theorem mem_rules_of_competes (h : w.competes a t v = true) : Rule.mk a v ∈ w.grammar.rules := by
  unfold competes competesByFirst competesByFollow at h
  rw [← Bool.and_or_distrib_left, Bool.and_eq_true, decide_eq_true_eq] at h
  exact h.1

/-- A rule is a candidate by FIRST if the terminal can begin its right-hand side. -/
theorem Solved.competesByFirst_iff (hw : w.Solved) (hr : Rule.mk a v ∈ w.grammar.rules) :
    w.competesByFirst a t v = true ↔ t ≠ epsilon ∧ w.grammar.InFirst v t := by
  have hmem : t ∈ (w.firstOfWord v).1 ↔ w.grammar.InFirst v t :=
    Grammar.mem_firstOfWord_iff hw.wellFormed hw.first v hw.ready
  simp only [competesByFirst, hr, hmem, Bool.and_eq_true, decide_eq_true_eq, true_and, and_assoc]
  -- what can begin a right-hand side is a terminal
  refine and_iff_right_of_imp fun ⟨hne, hfirst⟩ => ?_
  have halphabet := Grammar.mem_firstAlphabet_of_inFirst hw.wellFormed
    (Grammar.declares_of_mem_rules hr) (Grammar.inFirst_of_mem_rules hw.wellFormed hr hfirst)
  have hterminal := (List.mem_filter.1 ((List.mem_cons.1 halphabet).resolve_left hne)).1
  rcases Grammar.mem_terminals.1 (SymbolSet.mem_iff.2 hterminal) with rfl | h
  · exact isTerminal_endMarker
  · exact h.1

/-- A rule is a candidate by FOLLOW if its right-hand side vanishes in front of the terminal. -/
theorem Solved.competesByFollow_iff (hw : w.Solved) (hr : Rule.mk a v ∈ w.grammar.rules) :
    w.competesByFollow a t v = true ↔ w.grammar.Vanishes v ∧ t ∈ w.follow.get a := by
  have hnullable : (w.nullableWord v).1 = true ↔ w.grammar.Vanishes v :=
    (Grammar.answers_nullableWord hw.wellFormed v hw.ready).exact
  simp only [competesByFollow, hr, hnullable, Bool.and_eq_true, decide_eq_true_eq, true_and]

/-- A rule is a candidate if it is one by FIRST or by FOLLOW. -/
theorem Solved.competes_iff (hw : w.Solved) (hr : Rule.mk a v ∈ w.grammar.rules) :
    w.competes a t v = true ↔ t ≠ epsilon ∧ w.grammar.InFirst v t ∨
      w.grammar.Vanishes v ∧ t ∈ w.follow.get a := by
  rw [competes, Bool.or_eq_true, hw.competesByFirst_iff hr, hw.competesByFollow_iff hr]

/-- The rules for a cell are the candidates by FIRST, in order, and then those by FOLLOW, in order.
-/
theorem Solved.rulesFor_candidates (hw : w.Solved) (hn : n ∈ w.grammar.nonTerminals) (t : Symbol) :
    rulesFor n.symbol t w.candidates =
      (n.alternatives.findIdxs (w.competesByFirst n.symbol t) ++
        n.alternatives.findIdxs (w.competesByFollow n.symbol t)).map (RuleId.mk n.symbol) := by
  have hrule : ∀ v ∈ n.alternatives, Rule.mk n.symbol v ∈ w.grammar.rules :=
    fun v hv => Grammar.mem_rules.2 ⟨n, hn, rfl, hv⟩
  exact Grammar.rulesFor_allCandidates hw.wellFormed hw.first hw.wellFormed.nodup hn
    (fun v hv => hw.competesByFirst_iff (hrule v hv))
    (fun v hv => hw.competesByFollow_iff (hrule v hv)) hw.ready

/-- The rules for a cell are the positions of the candidates for it. -/
theorem Solved.mem_rulesFor_iff (hw : w.Solved) :
    id ∈ rulesFor a t w.candidates ↔
      id.head = a ∧ ∃ v, w.grammar.body? id = some v ∧ w.competes a t v = true := by
  rw [mem_rulesFor, candidates,
    Grammar.mem_allCandidates_nonTerminals hw.wellFormed hw.first hw.ready, Grammar.IsCandidate]
  refine and_congr_right fun hhead => exists_congr fun v => and_congr_right fun hbody => ?_
  dsimp only at hhead
  subst hhead
  exact (hw.competes_iff (Grammar.mem_rules_of_body? hbody)).symm

/-! ## Cells -/

/-- A cell holds the first of its rules. -/
theorem find?_predict (w : Workspace) (a t : Symbol) :
    w.predict.1.table.find? a t = (rulesFor a t w.candidates).head? := by
  have hpredict : w.predict.1 = w.candidates.foldl (Prediction.add w.grammar) {} :=
    Grammar.prediction_predict w.grammar w.first w.follow w.memo
  rw [hpredict, Prediction.find?_foldl_add_empty, find?_eq_head?_rulesFor]

/-- The conflicts are those of the candidates with the finished table. -/
theorem conflicts_predict (w : Workspace) :
    w.predict.1.conflicts =
      w.candidates.filterMap (w.predict.1.table.conflictWith w.grammar) := by
  have hpredict : w.predict.1 = w.candidates.foldl (Prediction.add w.grammar) {} :=
    Grammar.prediction_predict w.grammar w.first w.follow w.memo
  rw [hpredict, Prediction.conflicts_foldl_add_eq]
  exact List.nil_append _

/-- What is in a cell is a candidate for it. -/
theorem Solved.competes_of_keptAt? (hw : w.Solved) (h : w.keptAt? a t = some v) :
    w.competes a t v = true := by
  obtain ⟨id, hfind, hbody⟩ := Option.bind_eq_some_iff.1 h
  rw [find?_predict] at hfind
  obtain ⟨-, v', hbody', hv'⟩ := hw.mem_rulesFor_iff.1 (List.mem_of_head? hfind)
  obtain rfl := Option.some.inj (hbody.symm.trans hbody')
  exact hv'

/-- A cell that has a candidate is filled. -/
theorem Solved.exists_keptAt? (hw : w.Solved) (h : w.competes a t v = true) :
    ∃ kept, w.keptAt? a t = some kept := by
  obtain ⟨i, hbody⟩ := hw.wellFormed.exists_body? (mem_rules_of_competes h)
  have hmem : ⟨a, i⟩ ∈ rulesFor a t w.candidates := hw.mem_rulesFor_iff.2 ⟨rfl, v, hbody, h⟩
  obtain ⟨id, rest, hrules⟩ := List.exists_cons_of_ne_nil (List.ne_nil_of_mem hmem)
  have hid : id ∈ rulesFor a t w.candidates := hrules ▸ List.mem_cons_self
  obtain ⟨-, kept, hkept, -⟩ := hw.mem_rulesFor_iff.1 hid
  refine ⟨kept, ?_⟩
  rw [keptAt?, find?_predict, hrules, List.head?_cons, Option.bind_some, hkept]

/-! ## Conflicts -/

/-- A conflict is about a candidate for a cell that holds another right-hand side. -/
theorem Solved.mem_conflicts_iff (hw : w.Solved) {c : Conflict} :
    c ∈ w.predict.1.conflicts ↔ w.keptAt? c.nonTerminal c.terminal = some c.kept ∧
      c.rejected ≠ c.kept ∧ w.competes c.nonTerminal c.terminal c.rejected = true := by
  simp only [conflicts_predict, List.mem_filterMap, Table.conflictWith_eq_some_iff]
  constructor
  · rintro ⟨⟨a, t, id⟩, hc, k, hfind, hne, rfl⟩
    obtain ⟨hhead, rejected, hid, hcompetes⟩ := hw.mem_rulesFor_iff.1 (mem_rulesFor.2 hc)
    have hk := hfind
    rw [find?_predict] at hk
    obtain ⟨hhead', kept, hkept, -⟩ := hw.mem_rulesFor_iff.1 (List.mem_of_head? hk)
    dsimp only at hfind hne ⊢
    rw [Grammar.bodyAt_eq hid, Grammar.bodyAt_eq hkept]
    refine ⟨?_, ?_, hcompetes⟩
    · rw [keptAt?, hfind, Option.bind_some, hkept]
    · rintro rfl
      exact hne (hw.wellFormed.eq_of_body? (hhead'.trans hhead.symm) hkept hid)
  · obtain ⟨a, t, kept, rejected⟩ := c
    rintro ⟨hkept, hne, hcompetes⟩
    obtain ⟨k, hfind, hk⟩ := Option.bind_eq_some_iff.1 hkept
    obtain ⟨i, hi⟩ := hw.wellFormed.exists_body? (mem_rules_of_competes hcompetes)
    refine ⟨⟨a, t, ⟨a, i⟩⟩, mem_rulesFor.1 (hw.mem_rulesFor_iff.2 ⟨rfl, rejected, hi, hcompetes⟩),
      k, hfind, ?_, ?_⟩
    · rintro rfl
      exact hne (Option.some.inj (hi.symm.trans hk))
    · rw [Grammar.bodyAt_eq hk, Grammar.bodyAt_eq hi]

/-- How often the conflicts of a table report that an alternative is rejected in a cell. -/
def reports (w : Workspace) (a t : Symbol) (v : Word) : Nat :=
  w.predict.1.conflicts.countP fun c =>
    decide (c.rejected = v) && (decide (c.nonTerminal = a) && decide (c.terminal = t))

/-- What is in its cell, or is no candidate for it, is not reported. -/
theorem Solved.reports_eq_zero (hw : w.Solved)
    (h : w.keptAt? a t = some v ∨ w.competes a t v = false) : w.reports a t v = 0 := by
  rw [reports, List.countP_eq_zero]
  rintro ⟨a', t', kept, rejected⟩ hc hplace
  simp only [Bool.and_eq_true, decide_eq_true_eq] at hplace
  obtain ⟨rfl, rfl, rfl⟩ := hplace
  obtain ⟨hkept, hne, hcompetes⟩ := hw.mem_conflicts_iff.1 hc
  rcases h with h | h
  · exact hne (Option.some.inj (h.symm.trans hkept))
  · exact Bool.false_ne_true (h.symm.trans hcompetes)

/-- The position of an alternative is listed once if the alternative satisfies the condition. -/
theorem count_findIdxs {α : Type} {l : List α} {i : Nat} {x : α} (hi : l[i]? = some x)
    (p : α → Bool) : (l.findIdxs p).count i = (p x).toNat := by
  have hmem : i ∈ l.findIdxs p ↔ p x = true := by
    rw [mem_findIdxs_iff, hi]
    simp
  rw [List.nodup_findIdxs.count]
  cases hx : p x with
  | false => exact if_neg (by simp [hmem, hx])
  | true => exact if_pos (hmem.2 hx)

/-- Among the rules for a cell exactly those at the position of an alternative reject it, if it is
not in the cell. -/
theorem Solved.rejects_iff (hw : w.Solved) {i : Nat} (hbody : w.grammar.body? ⟨a, i⟩ = some v)
    (hkept : w.keptAt? a t ≠ some v) (hid : id ∈ rulesFor a t w.candidates) :
    (∃ c, w.predict.1.table.conflictWith w.grammar ⟨a, t, id⟩ = some c ∧ c.rejected = v) ↔
      id = ⟨a, i⟩ := by
  obtain ⟨hhead, v', hv', hcompetes⟩ := hw.mem_rulesFor_iff.1 hid
  constructor
  · rintro ⟨c, hc, hrejected⟩
    obtain ⟨k, -, -, rfl⟩ := Table.conflictWith_eq_some_iff.1 hc
    dsimp only at hrejected
    rw [Grammar.bodyAt_eq hv'] at hrejected
    subst hrejected
    exact hw.wellFormed.eq_of_body? hhead hv' hbody
  · rintro rfl
    obtain ⟨kept, hk⟩ := hw.exists_keptAt? hcompetes
    obtain ⟨k, hfind, hkbody⟩ := Option.bind_eq_some_iff.1 hk
    have hne : k ≠ ⟨a, i⟩ := by
      rintro rfl
      exact hkept (hk.trans (hkbody.symm.trans hbody))
    exact ⟨_, Table.conflictWith_eq_some_iff.2 ⟨k, hfind, hne, rfl⟩, Grammar.bodyAt_eq hbody⟩

/-- A candidate that is not in its cell is reported once by FIRST and once by FOLLOW, if it is a
candidate by both. -/
theorem Solved.reports_eq (hw : w.Solved) (hr : Rule.mk a v ∈ w.grammar.rules)
    (hkept : w.keptAt? a t ≠ some v) :
    w.reports a t v = (w.competesByFirst a t v).toNat + (w.competesByFollow a t v).toNat := by
  obtain ⟨n, hfind, hv⟩ := hw.wellFormed.mem_rules_iff_find?.1 hr
  obtain ⟨i, hi⟩ := List.getElem?_of_mem hv
  obtain rfl : n.symbol = a := Grammar.symbol_of_find?_eq_some hfind
  have hbody : w.grammar.body? ⟨n.symbol, i⟩ = some v := Grammar.body?_eq_some_iff.2 ⟨n, hfind, hi⟩
  have hrejects : ∀ id ∈ rulesFor n.symbol t w.candidates,
      (((w.predict.1.table.conflictWith w.grammar ⟨n.symbol, t, id⟩).map fun c =>
        decide (c.rejected = v)).getD false = true ↔ (id == ⟨n.symbol, i⟩) = true) := by
    intro id hid
    rw [beq_iff_eq, ← hw.rejects_iff hbody hkept hid]
    cases w.predict.1.table.conflictWith w.grammar ⟨n.symbol, t, id⟩ <;> simp
  have hinj : Function.Injective (RuleId.mk n.symbol) := fun i j h => congrArg RuleId.index h
  calc w.reports n.symbol t v
      = (rulesFor n.symbol t w.candidates).count ⟨n.symbol, i⟩ := by
        rw [reports, ← List.countP_filter, conflicts_predict, filter_filterMap_conflictWith,
          List.countP_filterMap, List.countP_congr hrejects]
        rfl
    _ = (n.alternatives.findIdxs (w.competesByFirst n.symbol t)).count i +
          (n.alternatives.findIdxs (w.competesByFollow n.symbol t)).count i := by
        rw [hw.rulesFor_candidates (Grammar.mem_of_find?_eq_some hfind),
          List.count_map_of_injective _ _ hinj, List.count_append]
    _ = (w.competesByFirst n.symbol t v).toNat + (w.competesByFollow n.symbol t v).toNat := by
        rw [count_findIdxs hi, count_findIdxs hi]

/-! ## Tables filled after solving -/

/-- After solving, and whatever is asked then, a cell of the table is filled exactly if there is a
candidate for it. It holds the first alternative that the terminal can begin, or, if there is none,
the first one that vanishes in front of it. The conflicts are about the candidates that are not in
their cells. So there is none exactly if no two rules are candidates for one cell. -/
theorem predict_exact (hw : w.Reached) (hu : w.solve.Queried u) :
    (∀ a t, (u.predict.1.table.find? a t).isSome = true ↔ ∃ v, u.competes a t v = true) ∧
    (∀ n ∈ u.grammar.nonTerminals, ∀ t, u.predict.1.table.find? n.symbol t =
      ((n.alternatives.findIdx? (u.competesByFirst n.symbol t)).or
        (n.alternatives.findIdx? (u.competesByFollow n.symbol t))).map (RuleId.mk n.symbol)) ∧
    (∀ c, c ∈ u.predict.1.conflicts ↔ u.keptAt? c.nonTerminal c.terminal = some c.kept ∧
      c.rejected ≠ c.kept ∧ u.competes c.nonTerminal c.terminal c.rejected = true) ∧
    (u.predict.1.conflicts = [] ↔ ∀ a t v v', u.competes a t v = true → u.competes a t v' = true →
      v = v') := by
  have h := (solved_solve hw.wellFormed).queried hu
  refine ⟨fun a t => ?_, fun n hn t => ?_, fun c => h.mem_conflicts_iff, ?_⟩
  · rw [Option.isSome_iff_exists]
    constructor
    · rintro ⟨id, hid⟩
      rw [find?_predict] at hid
      obtain ⟨-, v, -, hv⟩ := h.mem_rulesFor_iff.1 (List.mem_of_head? hid)
      exact ⟨v, hv⟩
    · rintro ⟨v, hv⟩
      obtain ⟨kept, hkept⟩ := h.exists_keptAt? hv
      obtain ⟨id, hid, -⟩ := Option.bind_eq_some_iff.1 hkept
      exact ⟨id, hid⟩
  · rw [find?_predict, h.rulesFor_candidates hn, List.head?_map, List.head?_append,
      head?_findIdxs, head?_findIdxs]
    simp only [Nat.zero_add, Option.map_id']
  · rw [List.eq_nil_iff_forall_not_mem]
    constructor
    · -- both candidates are in the cell
      intro hnone a t
      have hkept : ∀ v, u.competes a t v = true → u.keptAt? a t = some v := by
        intro v hv
        obtain ⟨kept, hkept⟩ := h.exists_keptAt? hv
        by_contra hne
        have hother : v ≠ kept := fun heq => hne (heq ▸ hkept)
        exact hnone ⟨a, t, kept, v⟩ (h.mem_conflicts_iff.2 ⟨hkept, hother, hv⟩)
      exact fun v v' hv hv' => Option.some.inj ((hkept v hv).symm.trans (hkept v' hv'))
    · intro hunique c hc
      obtain ⟨hkept, hne, hcompetes⟩ := h.mem_conflicts_iff.1 hc
      exact hne (hunique _ _ _ _ hcompetes (h.competes_of_keptAt? hkept))

/-- In `S->iStSA | a` with `A->& | eS` the rule `A->eS` stays in the cell of `A` and `e`, although
`A->&` is a candidate that comes before it. -/
theorem predict_exact_of_dangling_else :
    ∃ w : Workspace, w.Reached ∧ w.grammar =
      ⟨[⟨'S', ["iStSA".toList, ['a']]⟩, ⟨'A', [['&'], ['e', 'S']]⟩]⟩ ∧
      w.solve.predict.1.conflicts = [⟨'A', 'e', ['e', 'S'], ['&']⟩] ∧
      (∀ t, w.solve.predict.1.table.find? 'A' t =
        (([['&'], ['e', 'S']].findIdx? (w.solve.competesByFirst 'A' t)).or
          ([['&'], ['e', 'S']].findIdx? (w.solve.competesByFollow 'A' t))).map (RuleId.mk 'A')) ∧
      w.solve.predict.1.table.find? 'A' 'e' = some ⟨'A', 1⟩ ∧
      ¬ ∀ a t v v', w.solve.competes a t v = true → w.solve.competes a t v' = true → v = v' := by
  have hload : Grammar.ofLines
      ["S->iStSA".toList, "S->a".toList, "A->&".toList, "A->eS".toList] =
        .ok ⟨[⟨'S', ["iStSA".toList, ['a']]⟩, ⟨'A', [['&'], ['e', 'S']]⟩]⟩ := rfl
  have hreached := Reached.lines hload
  obtain ⟨-, hcell, -, hconflicts⟩ := predict_exact hreached .refl
  have hrun : (ofGrammar ⟨[⟨'S', ["iStSA".toList, ['a']]⟩,
      ⟨'A', [['&'], ['e', 'S']]⟩]⟩).solve.predict.1.conflicts =
        [⟨'A', 'e', ['e', 'S'], ['&']⟩] := by
    decide +kernel
  have hfind : (ofGrammar ⟨[⟨'S', ["iStSA".toList, ['a']]⟩,
      ⟨'A', [['&'], ['e', 'S']]⟩]⟩).solve.predict.1.table.find? 'A' 'e' = some ⟨'A', 1⟩ := by
    decide +kernel
  refine ⟨_, hreached, rfl, hrun, hcell ⟨'A', [['&'], ['e', 'S']]⟩ (by simp [solve, ofGrammar]),
    hfind, fun hunique => ?_⟩
  have hnil := hconflicts.2 hunique
  rw [hrun] at hnil
  cases hnil

/-- A conflict can be reported twice: in `S->Aa` with `A->B | C`, `B->a | &` and `C->B`, the rule
`A->C` loses the cell of `A` and `a` to `A->B`, by FIRST and once more by FOLLOW. -/
theorem exists_reported_twice :
    ∃ w : Workspace, w.Reached ∧
      w.solve.predict.1.conflicts =
        [⟨'A', 'a', ['B'], ['C']⟩, ⟨'A', 'a', ['B'], ['C']⟩, ⟨'B', 'a', ['a'], ['&']⟩] ∧
      ¬ ∀ a t v, w.solve.reports a t v ≤ 1 := by
  have hload : Grammar.ofLines ["S->Aa".toList, "A->B".toList, "A->C".toList, "B->a".toList,
      "B->&".toList, "C->B".toList] = .ok ⟨[⟨'S', [['A', 'a']]⟩, ⟨'A', [['B'], ['C']]⟩,
        ⟨'B', [['a'], ['&']]⟩, ⟨'C', [['B']]⟩]⟩ := rfl
  have hrun : (ofGrammar ⟨[⟨'S', [['A', 'a']]⟩, ⟨'A', [['B'], ['C']]⟩, ⟨'B', [['a'], ['&']]⟩,
      ⟨'C', [['B']]⟩]⟩).solve.predict.1.conflicts =
        [⟨'A', 'a', ['B'], ['C']⟩, ⟨'A', 'a', ['B'], ['C']⟩, ⟨'B', 'a', ['a'], ['&']⟩] := by
    decide +kernel
  refine ⟨_, .lines hload, hrun, fun hle => ?_⟩
  have htwice := hle 'A' 'a' ['C']
  rw [reports, hrun] at htwice
  exact absurd htwice (by decide)

/-- After solving, and whatever is asked then, the alternative in a cell is not reported in it. Any
other one is reported once for each way in which it is a candidate, so at most twice, and twice
exactly if it is not in the cell and the terminal can begin it and can follow it where it vanishes.
-/
theorem reports_of_solve (hw : w.Reached) (hu : w.solve.Queried u) (a t : Symbol) (v : Word) :
    (u.reports a t v = if u.keptAt? a t = some v then 0 else
      (u.competesByFirst a t v).toNat + (u.competesByFollow a t v).toNat) ∧
    u.reports a t v ≤ 2 ∧
    (u.reports a t v = 2 ↔ u.keptAt? a t ≠ some v ∧ u.competesByFirst a t v = true ∧
      u.competesByFollow a t v = true) := by
  have h := (solved_solve hw.wellFormed).queried hu
  have hreports : u.reports a t v = if u.keptAt? a t = some v then 0 else
      (u.competesByFirst a t v).toNat + (u.competesByFollow a t v).toNat := by
    by_cases hkept : u.keptAt? a t = some v
    · rw [if_pos hkept, h.reports_eq_zero (Or.inl hkept)]
    · rw [if_neg hkept]
      cases hcompetes : u.competes a t v with
      | true => exact h.reports_eq (mem_rules_of_competes hcompetes) hkept
      | false =>
        obtain ⟨hfirst, hfollow⟩ := Bool.or_eq_false_iff.1 hcompetes
        rw [h.reports_eq_zero (Or.inr hcompetes), hfirst, hfollow]
        rfl
  refine ⟨hreports, ?_, ?_⟩
  · rw [hreports]
    split
    · exact Nat.zero_le 2
    · exact Nat.add_le_add (Bool.toNat_le _) (Bool.toNat_le _)
  · rw [hreports]
    split
    · next hkept => simp [hkept]
    · next hkept =>
      cases u.competesByFirst a t v <;> cases u.competesByFollow a t v <;> simp [hkept]

/-- In the same grammar the rule `A->C` is reported twice and `B->&` once. -/
theorem reports_of_solve_of_unit_rules :
    ∃ w : Workspace, w.Reached ∧ w.solve.keptAt? 'A' 'a' = some ['B'] ∧
      (w.solve.reports 'A' 'a' ['C'] = if w.solve.keptAt? 'A' 'a' = some ['C'] then 0 else
        (w.solve.competesByFirst 'A' 'a' ['C']).toNat +
          (w.solve.competesByFollow 'A' 'a' ['C']).toNat) ∧
      w.solve.reports 'A' 'a' ['C'] = 2 ∧ w.solve.reports 'B' 'a' ['&'] = 1 ∧
      w.solve.reports 'B' 'a' ['&'] ≤ 2 := by
  have hload : Grammar.ofLines ["S->Aa".toList, "A->B".toList, "A->C".toList, "B->a".toList,
      "B->&".toList, "C->B".toList] = .ok ⟨[⟨'S', [['A', 'a']]⟩, ⟨'A', [['B'], ['C']]⟩,
        ⟨'B', [['a'], ['&']]⟩, ⟨'C', [['B']]⟩]⟩ := rfl
  have hreached := Reached.lines hload
  refine ⟨_, hreached, by decide +kernel, (reports_of_solve hreached .refl 'A' 'a' ['C']).1,
    by decide +kernel, by decide +kernel, (reports_of_solve hreached .refl 'B' 'a' ['&']).2.1⟩

end Workspace

end LL1
