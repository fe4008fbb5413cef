/-
# Invariants of runs

A run repeats one step, and a step first takes the epsilons off the stack and then makes a move. What
each of the two keeps is kept by the whole run, and a run whose steps make a measure smaller stops
before it has made as many steps as the measure says.
-/
import LL1.Proofs.Grammar.WellFormed
import LL1.Recogniser.Run
import Mathlib.Logic.Function.Iterate

namespace LL1

/-! ## Runs -/

namespace Run

variable {choose : Machine → Move} {I : Run → Prop} {r : Run}

theorem stepWith_of_running (h : r.outcome = .running) :
    r.stepWith choose =
      { machine := r.machine.uncovered.after (choose r.machine.uncovered)
        outcome := (choose r.machine.uncovered).outcome
        rows := ⟨r.machine.uncovered.stack, r.machine.uncovered.unread,
          (choose r.machine.uncovered).rule?⟩ :: r.rows } := by
  rw [stepWith, h]

/-- A run that has stopped stays as it is. -/
theorem stepWith_of_ne_running (h : r.outcome ≠ .running) : r.stepWith choose = r := by
  unfold stepWith
  split
  · next hrunning => exact absurd hrunning h
  · rfl

/-- Numbers of steps after which a run has stopped lead to the same end. -/
theorem iterate_stepWith_eq {i j : Nat} (hi : ((stepWith choose)^[i] r).outcome ≠ .running)
    (hj : ((stepWith choose)^[j] r).outcome ≠ .running) :
    (stepWith choose)^[i] r = (stepWith choose)^[j] r := by
  have hlonger : ∀ {i j : Nat}, i ≤ j → ((stepWith choose)^[i] r).outcome ≠ .running →
      (stepWith choose)^[j] r = (stepWith choose)^[i] r := by
    intro i j hle hstopped
    rw [← Nat.sub_add_cancel hle, Function.iterate_add_apply]
    exact Function.iterate_fixed (stepWith_of_ne_running hstopped) _
  rcases Nat.le_total i j with hle | hle
  · exact (hlonger hle hi).symm
  · exact hlonger hle hj

/-- What is done within a limit is a number of steps, of which only the last one can stop the run. -/
theorem exists_iterate_eq (choose : Machine → Move) (limit : Nat) (r : Run) :
    ∃ n, n ≤ limit ∧ iterate choose limit r = (stepWith choose)^[n] r ∧
      ∀ k, k < n → ((stepWith choose)^[k] r).outcome = .running := by
  induction limit generalizing r with
  | zero => exact ⟨0, Nat.le_refl 0, rfl, fun k hk => absurd hk (Nat.not_lt_zero k)⟩
  | succ limit ih =>
    unfold iterate
    split
    · next hrunning =>
      obtain ⟨n, hle, heq, hbefore⟩ := ih (r.stepWith choose)
      refine ⟨n + 1, Nat.succ_le_succ hle, heq, fun k hk => ?_⟩
      cases k with
      | zero => exact hrunning
      | succ k => exact hbefore k (Nat.lt_of_succ_lt_succ hk)
    · exact ⟨0, Nat.zero_le _, rfl, fun k hk => absurd hk (Nat.not_lt_zero k)⟩

/-- What every step keeps, a run keeps. -/
theorem iterate_invariant
    (hstep : ∀ r, r.outcome = .running → I r → I (r.stepWith choose)) (limit : Nat) (h : I r) :
    I (iterate choose limit r) := by
  induction limit generalizing r with
  | zero => exact h
  | succ limit ih =>
    unfold iterate
    cases houtcome : r.outcome with
    | running => exact ih (hstep r houtcome h)
    | accepted => exact h
    | rejected reason => exact h

/-- A run whose steps make a measure smaller stops within the measure. -/
theorem outcome_iterate_ne_running (measure : Run → Nat)
    (hstep : ∀ r, r.outcome = .running → I r → (r.stepWith choose).outcome = .running →
      I (r.stepWith choose) ∧ measure (r.stepWith choose) < measure r)
    {limit : Nat} (h : I r) (hlimit : measure r < limit) :
    (iterate choose limit r).outcome ≠ .running := by
  induction limit generalizing r with
  | zero => omega
  | succ limit ih =>
    unfold iterate
    cases houtcome : r.outcome with
    | accepted =>
      dsimp only
      rw [houtcome]
      exact Outcome.noConfusion
    | rejected reason =>
      dsimp only
      rw [houtcome]
      exact Outcome.noConfusion
    | running =>
      dsimp only
      by_cases hnext : (r.stepWith choose).outcome = .running
      · obtain ⟨hI, hlt⟩ := hstep r houtcome h hnext
        exact ih hI (by omega)
      · -- a run that has stopped stays as it is
        have hstopped : iterate choose limit (r.stepWith choose) = r.stepWith choose := by
          obtain ⟨n, -, heq, -⟩ := exists_iterate_eq choose limit (r.stepWith choose)
          rw [heq]
          exact Function.iterate_fixed (stepWith_of_ne_running hnext) n
        rw [hstopped]
        exact hnext

end Run

/-! ## Epsilons on top of the stack -/

namespace Machine

variable {m : Machine}

/-- What is kept when one epsilon is taken off the stack is kept when all of them are. -/
theorem uncovered_invariant {P : Machine → Prop}
    (hdrop : ∀ rest unread opened, P ⟨epsilon :: rest, unread, opened⟩ →
      P ⟨rest, unread, opened.filter fun o => decide (o.height ≤ rest.length)⟩) (h : P m) :
    P m.uncovered := by
  obtain ⟨stack, unread, opened⟩ := m
  show P (dropEpsilons stack unread opened)
  induction stack generalizing opened with
  | nil => exact h
  | cons s rest ih =>
    unfold dropEpsilons
    split
    · next hs =>
      subst hs
      exact ih _ (hdrop rest unread opened h)
    · exact h

/-- No epsilon is on top of the stack then. -/
theorem top_uncovered (m : Machine) : m.uncovered.top ≠ epsilon := by
  obtain ⟨stack, unread, opened⟩ := m
  show (dropEpsilons stack unread opened).top ≠ epsilon
  induction stack generalizing opened with
  | nil =>
    show endMarker ≠ epsilon
    decide
  | cons s rest ih =>
    unfold dropEpsilons
    split
    · exact ih _
    · next hs => exact hs

/-- The top of the stack is its first symbol. -/
theorem top_eq_of_stack_eq {s : Symbol} {rest : Word} (h : m.stack = s :: rest) : m.top = s := by
  rw [top, h]
  rfl

/-- A machine whose top is not the end marker has something on its stack. -/
theorem stack_eq_of_top_ne (h : m.top ≠ endMarker) : m.stack = m.top :: m.stack.tail := by
  unfold top at h ⊢
  cases hstack : m.stack with
  | nil =>
    rw [hstack] at h
    exact absurd rfl h
  | cons s rest => rfl

/-- The next symbol is the first unread one, unless it is the end marker. -/
theorem exists_unread_of_lookahead {s : Symbol} (h : m.lookahead = s) (hs : s ≠ endMarker) :
    ∃ rest, m.unread = s :: rest := by
  unfold lookahead at h
  cases hu : m.unread with
  | nil =>
    rw [hu] at h
    exact absurd h.symm hs
  | cons t rest =>
    rw [hu] at h
    exact ⟨rest, congrArg (· :: rest) h⟩

end Machine

/-! ## What a table predicts -/

/-- Whether the table holds rules of a non-terminal in the row of that non-terminal only. -/
def Table.Aligned (t : Table) : Prop :=
  ∀ s a id, t.find? s a = some id → id.head = s

/-- Whether the table predicts a right-hand side for a symbol and the next symbol of the input. -/
def Grammar.Predicts (g : Grammar) (t : Table) (s a : Symbol) (body : Word) : Prop :=
  ∃ id, t.find? s a = some id ∧ g.body? id = some body

variable {g : Grammar} {t : Table} {s a : Symbol} {body : Word}

/-- What a table predicts is a rule of the grammar. -/
theorem Grammar.Predicts.mem_rules (h : g.Predicts t s a body) (ht : t.Aligned) :
    ⟨s, body⟩ ∈ g.rules := by
  obtain ⟨id, hfind, hbody⟩ := h
  have hmem := mem_rules_of_body? hbody
  rwa [ht s a id hfind] at hmem

/-! ## Moves -/

namespace Machine

variable {m : Machine}

theorem predicted_eq_some_iff {m : Machine} :
    m.predicted g t = some body ↔ g.Predicts t m.top m.lookahead body := by
  unfold predicted Grammar.Predicts
  cases hfind : t.find? m.top m.lookahead with
  | none =>
    constructor
    · intro h
      cases h
    · rintro ⟨id, h, -⟩
      cases h
  | some id =>
    constructor
    · exact fun h => ⟨id, rfl, h⟩
    · rintro ⟨id', hid, h⟩
      rwa [Option.some.inj hid]

/-- When the automaton makes which move: at the end marker it stops, an equal symbol is read, an
expansion that is open is refused, and otherwise the table decides. -/
inductive Chooses (g : Grammar) (t : Table) (m : Machine) : Move → Prop where
  /-- Stack and input are used up. -/
  | accept (top : m.top = endMarker) (unread : m.unread = []) : Chooses g t m .accept
  /-- The stack is used up and the input is not. -/
  | trailing (top : m.top = endMarker) (unread : m.unread ≠ []) :
    Chooses g t m (.reject .trailingInput)
  /-- The top of the stack is the next symbol. -/
  | advance (top : m.top ≠ endMarker) (equal : m.top = m.lookahead) : Chooses g t m .advance
  /-- The top of the stack has been expanded and has come back. -/
  | loop (top : m.top ≠ endMarker) (differ : m.top ≠ m.lookahead) (guard : m.repeatsItself = true) :
    Chooses g t m (.reject (.nonTerminating m.top m.lookahead))
  /-- The table predicts nothing. -/
  | noEntry (top : m.top ≠ endMarker) (differ : m.top ≠ m.lookahead)
    (guard : m.repeatsItself = false) (none : ∀ body, ¬ g.Predicts t m.top m.lookahead body) :
    Chooses g t m (.reject (.noEntry m.top m.lookahead))
  /-- The table predicts a right-hand side. -/
  | expand {body : Word} (top : m.top ≠ endMarker) (differ : m.top ≠ m.lookahead)
    (guard : m.repeatsItself = false) (predicts : g.Predicts t m.top m.lookahead body) :
    Chooses g t m (.expand ⟨m.top, body⟩)

/-- The guarded move is made when it should be. -/
theorem chooses_guardedMove (g : Grammar) (t : Table) (m : Machine) :
    m.Chooses g t (m.guardedMove g t) := by
  unfold guardedMove
  by_cases hend : m.top = endMarker
  · rw [if_pos (Or.inl hend), move, if_pos hend]
    cases hunread : m.unread with
    | nil => exact .accept hend hunread
    | cons s rest =>
      refine .trailing hend ?_
      rw [hunread]
      exact List.cons_ne_nil s rest
  · by_cases hread : m.top = m.lookahead
    · rw [if_pos (Or.inr hread), move, if_neg hend, if_pos hread]
      exact .advance hend hread
    · rw [if_neg (by simp [hend, hread])]
      cases hguard : m.repeatsItself with
      | true => exact .loop hend hread hguard
      | false =>
        rw [if_neg Bool.false_ne_true, move, if_neg hend, if_neg hread]
        cases hpredicted : m.predicted g t with
        | none =>
          refine .noEntry hend hread hguard fun body hbody => ?_
          rw [predicted_eq_some_iff.2 hbody] at hpredicted
          cases hpredicted
        | some body => exact .expand hend hread hguard (predicted_eq_some_iff.1 hpredicted)

end Machine

/-- What a step of a run leads to: the epsilons are taken off the stack, and then the move is made that
should be. A row records both. -/
theorem Run.step_cases {r : Run} (h : r.outcome = .running) {P : Run → Prop}
    (hmove : ∀ move, r.machine.uncovered.Chooses g t move →
      P ⟨r.machine.uncovered.after move, move.outcome,
        ⟨r.machine.uncovered.stack, r.machine.uncovered.unread, move.rule?⟩ :: r.rows⟩) :
    P (r.step g t) := by
  rw [step, stepWith_of_running h]
  exact hmove _ (Machine.chooses_guardedMove g t _)

end LL1
