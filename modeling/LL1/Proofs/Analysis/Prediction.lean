/-
# What the table holds

Filling the table goes through a list of candidates. The first candidate for a cell stays in it, so
a cell is filled exactly if it has a candidate, and if no conflict is recorded then every candidate
is found in its cell.
-/
import LL1.Analysis.Prediction
import LL1.Proofs.Analysis.First

namespace LL1

/-! ## Filling cells -/

namespace Table

variable {t : Table} {c : Cell} {s a : Symbol}

/-- The place of a cell. -/
theorem find?_cons (d : Cell) (rest : List Cell) :
    find? ⟨d :: rest⟩ s a =
      if d.nonTerminal = s ∧ d.terminal = a then some d.id else find? ⟨rest⟩ s a := by
  unfold find?
  rw [List.find?_cons]
  by_cases h : d.nonTerminal = s ∧ d.terminal = a
  · simp [h]
  · rw [if_neg h]
    have hfalse : (decide (d.nonTerminal = s) && decide (d.terminal = a)) = false := by
      simpa using h
    rw [hfalse]

/-- What is found is a cell. -/
theorem mem_cells_of_find? {id : RuleId} (h : t.find? s a = some id) : ⟨s, a, id⟩ ∈ t.cells := by
  obtain ⟨c, hc, rfl⟩ := Option.map_eq_some_iff.1 h
  have hplace := List.find?_some hc
  simp only [Bool.and_eq_true, decide_eq_true_eq] at hplace
  obtain ⟨rfl, rfl⟩ := hplace
  exact List.mem_of_find?_eq_some hc

/-- In the place of a cell something is found. -/
theorem exists_find?_of_mem {cs : List Cell} (h : c ∈ cs) :
    ∃ id, find? ⟨cs⟩ c.nonTerminal c.terminal = some id := by
  rw [← Option.isSome_iff_exists, find?, Option.isSome_map, List.find?_isSome]
  exact ⟨c, h, by simp⟩

/-- A cell that was empty is filled by an insertion, and no other cell changes. -/
theorem find?_insert (h : t.find? c.nonTerminal c.terminal = none) :
    (t.insert c).find? s a =
      if c.nonTerminal = s ∧ c.terminal = a then some c.id else t.find? s a := by
  obtain ⟨cells⟩ := t
  show find? ⟨insertCell c cells⟩ s a = _
  induction cells with
  | nil => exact find?_cons c []
  | cons d rest ih =>
    rw [find?_cons] at h
    have hd : ¬ (d.nonTerminal = c.nonTerminal ∧ d.terminal = c.terminal) := by
      intro hsame
      rw [if_pos hsame] at h
      cases h
    rw [if_neg hd] at h
    unfold insertCell
    split
    · rw [find?_cons, ih h, find?_cons]
      by_cases hc : c.nonTerminal = s ∧ c.terminal = a
      · have hne : ¬ (d.nonTerminal = s ∧ d.terminal = a) := by
          rw [← hc.1, ← hc.2]
          exact hd
        rw [if_neg hne, if_pos hc, if_pos hc]
      · rw [if_neg hc, if_neg hc]
    · exact find?_cons c (d :: rest)

end Table

namespace Prediction

variable {g : Grammar} {p : Prediction} {c : Cell} {s a : Symbol}

/-- A candidate fills its cell if the cell is empty. -/
theorem find?_add :
    (p.add g c).table.find? s a =
      (p.table.find? s a).or (if c.nonTerminal = s ∧ c.terminal = a then some c.id else none) := by
  unfold add
  cases hfind : p.table.find? c.nonTerminal c.terminal with
  | none =>
    dsimp only
    rw [Table.find?_insert hfind]
    split
    · next h =>
      obtain ⟨rfl, rfl⟩ := h
      rw [hfind, Option.none_or]
    · rw [Option.or_none]
  | some kept =>
    have hsame : p.table.find? s a = (p.table.find? s a).or
        (if c.nonTerminal = s ∧ c.terminal = a then some c.id else none) := by
      split
      · next h =>
        obtain ⟨rfl, rfl⟩ := h
        rw [hfind, Option.some_or]
      · rw [Option.or_none]
    dsimp only
    split
    · exact hsame
    · exact hsame

/-- The first of a list of candidates for a cell fills it, if it is empty. -/
theorem find?_foldl_add (cs : List Cell) (p : Prediction) :
    (cs.foldl (add g) p).table.find? s a = (p.table.find? s a).or (Table.find? ⟨cs⟩ s a) := by
  induction cs generalizing p with
  | nil => exact (Option.or_none).symm
  | cons c rest ih =>
    rw [List.foldl_cons, ih, find?_add, Option.or_assoc, Table.find?_cons]
    congr 1
    split
    · rw [Option.some_or]
    · rw [Option.none_or]

/-- The first of a list of candidates for a cell fills it. -/
theorem find?_foldl_add_empty (cs : List Cell) :
    (cs.foldl (add g) {}).table.find? s a = Table.find? ⟨cs⟩ s a :=
  (find?_foldl_add cs {}).trans Option.none_or

end Prediction

/-! ## Conflicts -/

/-- The conflict that a candidate leads to, judged by a table: there is one if another rule is in
its cell. -/
def Table.conflictWith (t : Table) (g : Grammar) (c : Cell) : Option Conflict :=
  match t.find? c.nonTerminal c.terminal with
  | none => none
  | some kept =>
    if kept = c.id then none
    else some ⟨c.nonTerminal, c.terminal, g.bodyAt kept, g.bodyAt c.id⟩

/-- The right-hand side at a position, if it is there. -/
theorem Grammar.bodyAt_eq {g : Grammar} {id : RuleId} {body : Word} (h : g.body? id = some body) :
    g.bodyAt id = body :=
  congrArg (Option.getD · []) h

/-- There is a conflict exactly if another rule is in the cell. -/
theorem Table.conflictWith_eq_some_iff {t : Table} {g : Grammar} {c : Cell} {conflict : Conflict} :
    t.conflictWith g c = some conflict ↔
      ∃ kept, t.find? c.nonTerminal c.terminal = some kept ∧ kept ≠ c.id ∧
        ⟨c.nonTerminal, c.terminal, g.bodyAt kept, g.bodyAt c.id⟩ = conflict := by
  unfold conflictWith
  cases t.find? c.nonTerminal c.terminal with
  | none => simp
  | some kept => simp

/-- A conflict is about the place of its candidate. -/
theorem Table.place_of_conflictWith {t : Table} {g : Grammar} {c : Cell} {conflict : Conflict}
    (h : t.conflictWith g c = some conflict) :
    conflict.nonTerminal = c.nonTerminal ∧ conflict.terminal = c.terminal := by
  obtain ⟨kept, -, -, rfl⟩ := conflictWith_eq_some_iff.1 h
  exact ⟨rfl, rfl⟩

namespace Prediction

variable {g : Grammar} {p : Prediction} {c : Cell}

/-- A candidate that is added leads to its conflict with the table so far. -/
theorem conflicts_add :
    (p.add g c).conflicts = p.conflicts ++ (p.table.conflictWith g c).toList := by
  unfold add Table.conflictWith
  cases p.table.find? c.nonTerminal c.terminal with
  | none => exact (List.append_nil _).symm
  | some kept =>
    dsimp only
    split
    · exact (List.append_nil _).symm
    · rfl

/-- Candidates that are added later do not change the conflict that one leads to. -/
theorem conflictWith_foldl_add (cs : List Cell) :
    (cs.foldl (add g) (p.add g c)).table.conflictWith g c = p.table.conflictWith g c := by
  have hfind : (cs.foldl (add g) (p.add g c)).table.find? c.nonTerminal c.terminal =
      (p.table.find? c.nonTerminal c.terminal).or (some c.id) := by
    rw [find?_foldl_add, find?_add, if_pos ⟨rfl, rfl⟩, Option.or_assoc, Option.some_or]
  unfold Table.conflictWith
  rw [hfind]
  cases p.table.find? c.nonTerminal c.terminal with
  | none => exact if_pos rfl
  | some kept => rfl

/-- The conflicts of candidates that are added are those with the finished table, in order. -/
theorem conflicts_foldl_add_eq (cs : List Cell) (p : Prediction) :
    (cs.foldl (add g) p).conflicts =
      p.conflicts ++ cs.filterMap ((cs.foldl (add g) p).table.conflictWith g) := by
  induction cs generalizing p with
  | nil => exact (List.append_nil _).symm
  | cons c rest ih =>
    rw [List.foldl_cons, ih, conflicts_add, List.append_assoc, List.filterMap_cons,
      conflictWith_foldl_add rest]
    cases p.table.conflictWith g c <;> rfl

/-- A table is filled without conflicts exactly if every candidate is found in its cell. -/
theorem conflicts_eq_nil_iff {cs : List Cell} :
    (cs.foldl (add g) {}).conflicts = [] ↔
      ∀ c ∈ cs, (cs.foldl (add g) {}).table.find? c.nonTerminal c.terminal = some c.id := by
  have hconflicts := conflicts_foldl_add_eq (g := g) cs {}
  rw [hconflicts, List.nil_append, List.filterMap_eq_nil_iff]
  refine forall₂_congr fun c hc => ?_
  obtain ⟨kept, hkept⟩ := Table.exists_find?_of_mem hc
  rw [← find?_foldl_add_empty (g := g)] at hkept
  unfold Table.conflictWith
  rw [hkept]
  simp only [ite_eq_left_iff, reduceCtorEq, imp_false, Classical.not_not, Option.some.injEq]

end Prediction

/-! ## Candidates -/

namespace Grammar

variable {g : Grammar} {f : SetFamily} {m : Memo}

/-- Whether the rule at the position in a cell is a candidate for the cell: the terminal can begin
its right-hand side, or the right-hand side can vanish and the terminal can follow the head. -/
def IsCandidate (g : Grammar) (follow : SetFamily) (c : Cell) : Prop :=
  c.id.head = c.nonTerminal ∧ ∃ body, g.body? c.id = some body ∧
    (c.terminal ≠ epsilon ∧ g.InFirst body c.terminal ∨
      g.Vanishes body ∧ c.terminal ∈ follow.get c.nonTerminal)

/-- Looking for FIRST of the alternatives leaves a memo that is ready, by whatever sets it is done.
-/
theorem ready_firstOfAlternatives (hg : g.WellFormed) (f : SetFamily) (head : Symbol)
    (bodies : List Word) (start : Nat) (hm : m.Ready g) :
    (g.firstOfAlternatives f head bodies start m).2.Ready g := by
  induction bodies generalizing start m with
  | nil => exact hm
  | cons body rest ih => exact ih (start + 1) (ready_firstOfWord hg f body hm)

/-- Filling the table leaves a memo that is ready, by whatever sets it is done. -/
theorem ready_predict (hg : g.WellFormed) (f follow : SetFamily) (hm : m.Ready g) :
    (g.predict f follow m).memo.Ready g :=
  List.foldlRecOn (motive := fun st : PredictionState => st.memo.Ready g) g.nonTerminals _ hm
    fun _ hst n _ => ready_firstOfAlternatives hg f n.symbol n.alternatives 0 hst

/-- FIRST of the alternatives of a non-terminal, one by one. -/
theorem mem_firstOfAlternatives (hg : g.WellFormed) (hf : g.ExactFirst f) (head : Symbol)
    (bodies : List Word) (start : Nat) (hm : m.Ready g) :
    (∀ e ∈ (g.firstOfAlternatives f head bodies start m).1, ∃ i body, bodies[i]? = some body ∧
      e.1 = ⟨head, start + i⟩ ∧ ∀ t, t ∈ e.2 ↔ g.InFirst body t) ∧
    ∀ i body, bodies[i]? = some body → ∃ found,
      (⟨head, start + i⟩, found) ∈ (g.firstOfAlternatives f head bodies start m).1 ∧
        ∀ t, t ∈ found ↔ g.InFirst body t := by
  induction bodies generalizing start m with
  | nil =>
    refine ⟨fun e he => absurd he List.not_mem_nil, fun i body h => ?_⟩
    cases h
  | cons body rest ih =>
    have hfound := fun t => mem_firstOfWord_iff (t := t) hg hf body hm
    obtain ⟨hmem, hall⟩ := ih (start + 1) (ready_firstOfWord hg f body hm)
    unfold firstOfAlternatives
    refine ⟨List.forall_mem_cons.2 ⟨⟨0, body, rfl, rfl, hfound⟩, ?_⟩, ?_⟩
    · intro e he
      obtain ⟨i, v, hv, hid, ht⟩ := hmem e he
      exact ⟨i + 1, v, hv, by rw [hid, Nat.add_assoc, Nat.add_comm 1], ht⟩
    · intro i v hv
      cases i with
      | zero =>
        rw [List.getElem?_cons_zero] at hv
        obtain rfl := Option.some.inj hv
        exact ⟨_, List.mem_cons_self, hfound⟩
      | succ i =>
        obtain ⟨found, he, ht⟩ := hall i v hv
        rw [Nat.add_assoc, Nat.add_comm 1] at he
        exact ⟨found, List.mem_cons_of_mem _ he, ht⟩

/-- The candidates listed for a non-terminal are its candidates. -/
theorem mem_candidates (hg : g.WellFormed) (hf : g.ExactFirst f) {follow : SetFamily}
    {n : NonTerminal} (hn : n ∈ g.nonTerminals) (hm : m.Ready g) {c : Cell} :
    c ∈ candidates n.symbol (g.firstOfAlternatives f n.symbol n.alternatives 0 m).1
        (follow.get n.symbol) ↔ c.nonTerminal = n.symbol ∧ g.IsCandidate follow c := by
  obtain ⟨hmem, hall⟩ := mem_firstOfAlternatives hg hf n.symbol n.alternatives 0 hm
  have hbody : ∀ i, g.body? ⟨n.symbol, i⟩ = n.alternatives[i]? := by
    intro i
    rw [body?, hg.find?_of_mem hn]
  simp only [Nat.zero_add] at hmem hall
  simp only [candidates, List.mem_append, List.mem_flatMap, List.mem_map, List.mem_filter,
    decide_eq_true_eq, mem_terminals_iff_ne]
  constructor
  · -- a listed candidate comes from FIRST or from FOLLOW
    rintro (⟨⟨id, found⟩, he, t, ⟨ht, hne⟩, rfl⟩ | ⟨⟨id, found⟩, ⟨he, heps⟩, t, ht, rfl⟩)
    · obtain ⟨i, body, hi, hid, hfound⟩ := hmem _ he
      dsimp only at hid hfound ht
      subst hid
      exact ⟨rfl, rfl, body, (hbody i).trans hi, Or.inl ⟨hne, (hfound t).1 ht⟩⟩
    · obtain ⟨i, body, hi, hid, hfound⟩ := hmem _ he
      dsimp only at hid hfound heps
      subst hid
      have hvanishes : g.Vanishes body :=
        (((hfound epsilon).1 heps).resolve_left fun h => h.1 rfl).2
      exact ⟨rfl, rfl, body, (hbody i).trans hi, Or.inr ⟨hvanishes, ht⟩⟩
  · obtain ⟨s, t, ⟨head, i⟩⟩ := c
    rintro ⟨hs, hhead, body, hi, hcond⟩
    dsimp only at hs hhead hi hcond
    subst hs hhead
    rw [hbody] at hi
    obtain ⟨found, he, hfound⟩ := hall i body hi
    rcases hcond with ⟨hne, ht⟩ | ⟨hvanishes, ht⟩
    · exact Or.inl ⟨_, he, t, ⟨(hfound t).2 ht, hne⟩, rfl⟩
    · exact Or.inr ⟨_, ⟨he, (hfound epsilon).2 (Or.inr ⟨rfl, hvanishes⟩)⟩, t, ht, rfl⟩

/-- The candidates of some non-terminals, in the order in which they are added to a table. -/
def allCandidates (g : Grammar) (f follow : SetFamily) : List NonTerminal → Memo → List Cell
  | [], _ => []
  | n :: rest, m =>
    candidates n.symbol (g.firstOfAlternatives f n.symbol n.alternatives 0 m).1
        (follow.get n.symbol) ++
      g.allCandidates f follow rest (g.firstOfAlternatives f n.symbol n.alternatives 0 m).2

/-- A table is filled with the candidates of the grammar. -/
theorem prediction_predict (g : Grammar) (f follow : SetFamily) (m : Memo) :
    (g.predict f follow m).prediction =
      (g.allCandidates f follow g.nonTerminals m).foldl (Prediction.add g) {} := by
  have key : ∀ (ns : List NonTerminal) (st : PredictionState),
      (ns.foldl (g.predictHead f follow) st).prediction =
        (g.allCandidates f follow ns st.memo).foldl (Prediction.add g) st.prediction := by
    intro ns
    induction ns with
    | nil => exact fun _ => rfl
    | cons n rest ih =>
      intro st
      rw [List.foldl_cons, ih, allCandidates, List.foldl_append]
      rfl
  exact key g.nonTerminals ⟨{}, m⟩

/-- The candidates of some non-terminals are the candidates for cells in their rows. -/
theorem mem_allCandidates (hg : g.WellFormed) (hf : g.ExactFirst f) {follow : SetFamily}
    {ns : List NonTerminal} (hns : ∀ n ∈ ns, n ∈ g.nonTerminals) (hm : m.Ready g) {c : Cell} :
    c ∈ g.allCandidates f follow ns m ↔
      c.nonTerminal ∈ ns.map NonTerminal.symbol ∧ g.IsCandidate follow c := by
  induction ns generalizing m with
  | nil => simp [allCandidates]
  | cons n rest ih =>
    rw [List.forall_mem_cons] at hns
    have hready := ready_firstOfAlternatives hg f n.symbol n.alternatives 0 hm
    rw [allCandidates, List.mem_append, mem_candidates hg hf hns.1 hm, ih hns.2 hready,
      List.map_cons, List.mem_cons, or_and_right]

/-- A table is filled with all candidates, and with nothing else. -/
theorem mem_allCandidates_nonTerminals (hg : g.WellFormed) (hf : g.ExactFirst f)
    {follow : SetFamily} (hm : m.Ready g) {c : Cell} :
    c ∈ g.allCandidates f follow g.nonTerminals m ↔ g.IsCandidate follow c := by
  rw [mem_allCandidates hg hf (fun _ hn => hn) hm]
  -- the cell of a candidate lies in the row of a non-terminal
  refine and_iff_right_of_imp fun hc => ?_
  obtain ⟨hhead, body, hbody, -⟩ := hc
  obtain ⟨n, hfind, -⟩ := body?_eq_some_iff.1 hbody
  rw [← hhead, ← symbol_of_find?_eq_some hfind]
  exact List.mem_map_of_mem (mem_of_find?_eq_some hfind)

/-- What is in a cell of the table is a candidate for it. -/
theorem isCandidate_of_find? (hg : g.WellFormed) (hf : g.ExactFirst f) {follow : SetFamily}
    (hm : m.Ready g) {s a : Symbol} {id : RuleId}
    (h : (g.predict f follow m).prediction.table.find? s a = some id) :
    g.IsCandidate follow ⟨s, a, id⟩ := by
  rw [prediction_predict, Prediction.find?_foldl_add_empty] at h
  exact (mem_allCandidates_nonTerminals hg hf hm).1 (Table.mem_cells_of_find? h)

/-- Without conflicts every candidate is in its cell. -/
theorem find?_of_isCandidate (hg : g.WellFormed) (hf : g.ExactFirst f) {follow : SetFamily}
    (hm : m.Ready g) (hconflicts : (g.predict f follow m).prediction.conflicts = []) {c : Cell}
    (hc : g.IsCandidate follow c) :
    (g.predict f follow m).prediction.table.find? c.nonTerminal c.terminal = some c.id := by
  rw [prediction_predict] at hconflicts ⊢
  exact Prediction.conflicts_eq_nil_iff.1 hconflicts c
    ((mem_allCandidates_nonTerminals hg hf hm).2 hc)

end Grammar

end LL1
