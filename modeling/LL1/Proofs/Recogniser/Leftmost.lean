/-
# Traces are derivations from the left

A row of a trace is recorded before its step is made. What had been read by then, followed by the
stack, is the form to which the rules of the earlier rows lead from the start symbol. Nothing that
was read is a non-terminal if the input holds none, so each rule is applied to the first
non-terminal of its form. The rows without a rule have read a symbol each, apart from the row at
which the run stops.
-/
import LL1.Proofs.Language.Derivation
import LL1.Proofs.Recogniser.Stack

namespace LL1

variable {g : Grammar} {t : Table} {input read form form' : Word} {rows : List Row} {row : Row}
  {s : Symbol} {r : Run}

/-! ## What rows stand for -/

namespace Grammar

/-- Whether the rules of some rows lead from the start symbol to a form, and the other rows have
read as many symbols as a word has. -/
structure Explains (g : Grammar) (rows : List Row) (read form : Word) : Prop where
  /-- The form is derived from the left. -/
  derives : g.LeftDerives (rows.filterMap Row.rule) [g.start] form
  /-- Each row has applied a rule or read a symbol. -/
  length : rows.length = read.length + (rows.filterMap Row.rule).length

/-- At first nothing is recorded, and the form is the start symbol. -/
theorem explains_nil : g.Explains [] [] [g.start] :=
  ⟨.refl _, rfl⟩

/-- A row without a rule reads a symbol of the form. -/
theorem Explains.advance (h : g.Explains rows read form) (hrow : row.rule = none) :
    g.Explains (rows ++ [row]) (read ++ [s]) form := by
  have hrules : (rows ++ [row]).filterMap Row.rule = rows.filterMap Row.rule := by
    simp [hrow]
  refine ⟨?_, ?_⟩
  · rw [hrules]
    exact h.derives
  · rw [hrules, List.length_append, h.length, List.length_append, Nat.add_right_comm]
    rfl

/-- A row with a rule replaces the first non-terminal of the form. -/
theorem Explains.expand {rule : Rule} (h : g.Explains rows read form) (hrow : row.rule = some rule)
    (hstep : g.LeftStep rule form form') : g.Explains (rows ++ [row]) read form' := by
  have hrules : (rows ++ [row]).filterMap Row.rule = rows.filterMap Row.rule ++ [rule] := by
    simp [hrow]
  refine ⟨?_, ?_⟩
  · rw [hrules]
    exact h.derives.snoc hstep
  · rw [hrules, List.length_append, h.length, List.length_append, Nat.add_assoc]
    rfl

/-- The rows without a rule are as many as the symbols that were read. -/
theorem Explains.countP (h : g.Explains rows read form) :
    rows.countP (fun row => row.rule.isNone) = read.length := by
  have hlength := List.length_eq_countP_add_countP (fun row : Row => row.rule.isSome) (l := rows)
  rw [h.length, List.length_filterMap_eq_countP] at hlength
  have hnone : (fun row : Row => row.rule.isNone) = fun row => decide ¬ row.rule.isSome = true := by
    funext row
    cases row.rule with
    | none => rfl
    | some _ => rfl
  rw [hnone]
  omega

/-- Whether a row shows the unread part of an input, and as its stack the rest of the form that the
rows before it stand for. -/
def Records (g : Grammar) (input : Word) (before : List Row) (row : Row) : Prop :=
  ∃ read v, read ++ row.unread = input ∧ row.stack = v ++ [endMarker] ∧
    g.Explains before read (read ++ withoutEpsilon v)

end Grammar

/-! ## Runs -/

namespace Run

/-- What holds of a run: its rows are right, and it stands where the rows lead to. When it has
stopped, its last row applies no rule. -/
structure Logged (g : Grammar) (input : Word) (r : Run) : Prop where
  /-- Each row is right. -/
  rows : ∀ after row before, r.rows = after ++ row :: before → g.Records input before.reverse row
  /-- The machine stands where the rows lead to. -/
  running : r.outcome = .running → ∃ read v, r.machine.Spells input read v ∧
    g.Explains r.rows.reverse read (read ++ withoutEpsilon v)
  /-- The last row shows why the run has stopped. -/
  stopped : r.outcome ≠ .running → ∃ row before, r.rows = row :: before ∧ row.rule = none ∧
    row.unread = r.machine.unread ∧
    (r.outcome = .accepted → row.stack = [endMarker] ∧ row.unread = [])

/-- At first nothing is recorded. -/
theorem logged_start (hg : g.WellFormed) (input : Word) : (start g input).Logged g input := by
  refine ⟨fun after row before h => absurd h (by simp [start]), fun _ => ?_, fun h => absurd rfl h⟩
  refine ⟨[], [g.start], Machine.spells_start hg input, ?_⟩
  rw [withoutEpsilon_cons_of_ne (hg.ne_epsilon_of_declares hg.declares_start)]
  exact Grammar.explains_nil

/-- Rows stay right when one more right row is recorded. -/
theorem Logged.rows_cons (h : r.Logged g input) (hrow : g.Records input r.rows.reverse row) :
    ∀ after row' before, row :: r.rows = after ++ row' :: before →
      g.Records input before.reverse row' := by
  intro after row' before hsplit
  cases after with
  | nil =>
    obtain ⟨rfl, rfl⟩ := List.cons.inj hsplit
    exact hrow
  | cons _ after => exact h.rows after row' before (List.cons.inj hsplit).2

/-- A step keeps it, if no symbol of the input is a non-terminal. -/
theorem Logged.step (hg : g.WellFormed) (ht : t.Aligned)
    (hinput : ∀ s ∈ input, g.declares s = false) (hrunning : r.outcome = .running)
    (h : r.Logged g input) : (r.step g t).Logged g input := by
  obtain ⟨read, v, hspells, hexplains⟩ := h.running hrunning
  obtain ⟨w, hspells, hw⟩ := hspells.uncovered
  rw [← hw] at hexplains
  have hcovered := r.machine.top_uncovered
  refine step_cases hrunning fun move hmove => ?_
  generalize r.machine.uncovered = m at hspells hcovered hmove ⊢
  have hrecords : g.Records input r.rows.reverse ⟨m.stack, m.unread, move.rule?⟩ :=
    ⟨read, w, hspells.unread, hspells.stack, hexplains⟩
  have hrows := h.rows_cons hrecords
  have hundeclared : ∀ s ∈ read, g.declares s = false := by
    intro s hs
    apply hinput
    rw [← hspells.unread]
    exact List.mem_append_left _ hs
  cases hmove with
  | accept hend hunread =>
    refine ⟨hrows, fun hr => (by cases hr), fun _ => ⟨_, _, rfl, rfl, rfl, fun _ => ⟨?_, hunread⟩⟩⟩
    have hstack := hspells.stack
    rwa [hspells.eq_nil hend] at hstack
  | trailing hend hunread =>
    exact ⟨hrows, fun hr => (by cases hr), fun _ => ⟨_, _, rfl, rfl, rfl, fun hr => (by cases hr)⟩⟩
  | loop hend hdiffer hguard =>
    exact ⟨hrows, fun hr => (by cases hr), fun _ => ⟨_, _, rfl, rfl, rfl, fun hr => (by cases hr)⟩⟩
  | noEntry hend hdiffer hguard hnone =>
    exact ⟨hrows, fun hr => (by cases hr), fun _ => ⟨_, _, rfl, rfl, rfl, fun hr => (by cases hr)⟩⟩
  | advance hend hequal =>
    obtain ⟨v, rfl⟩ := hspells.eq_cons hend
    refine ⟨hrows, fun _ => ⟨_, v, hspells.advance hequal, ?_⟩, fun hr => absurd rfl hr⟩
    rw [withoutEpsilon_cons_of_ne hcovered] at hexplains
    rw [List.reverse_cons, List.append_assoc]
    exact hexplains.advance rfl
  | @expand body hend hdiffer hguard hpredicts =>
    obtain ⟨v, rfl⟩ := hspells.eq_cons hend
    have hrule : ⟨m.top, body⟩ ∈ g.rules := hpredicts.mem_rules ht
    refine ⟨hrows, fun _ => ⟨read, body ++ v, hspells.expand hg hrule, ?_⟩, fun hr => absurd rfl hr⟩
    rw [withoutEpsilon_cons_of_ne hcovered] at hexplains
    rw [List.reverse_cons, withoutEpsilon_append, ← List.append_assoc]
    exact hexplains.expand rfl (.replace hundeclared (withoutEpsilon v) hrule)

/-- The run on an input without non-terminals is logged. -/
theorem logged_complete (hg : g.WellFormed) (ht : t.Aligned)
    (hinput : ∀ s ∈ input, g.declares s = false) : (complete g t input).Logged g input :=
  iterate_invariant (I := Logged g input) (fun _ hrunning h => h.step hg ht hinput hrunning)
    ((Machine.start g input).budget g) (logged_start hg input)

end Run

end LL1
