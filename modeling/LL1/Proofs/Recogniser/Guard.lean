/-
# The guard against loops

Without its guard the automaton would follow the table wherever it leads. The guard refuses to expand
a non-terminal whose expansion is open. By then the non-terminal has unfolded to a word that it begins
itself, so it is left recursive, and the automaton without the guard unfolds it over and over. Until
the guard steps in, both automata make the same moves.
-/
import LL1.Proofs.Recogniser.Opening

namespace LL1

variable {g : Grammar} {t : Table} {m : Machine} {s a : Symbol} {v w body : Word}

/-! ## Unfolding -/

namespace Grammar

/-- What a table predicts for is not epsilon. -/
theorem Predicts.ne_epsilon (hg : g.WellFormed) (ht : t.Aligned) (h : g.Predicts t s a body) :
    s ≠ epsilon :=
  hg.ne_epsilon_of_declares (declares_of_mem_rules (h.mem_rules ht))

/-- Unfolding does nothing, or it starts at the first symbol of the word. -/
theorem Unfolds.cases_head (h : g.Unfolds t a v w) :
    v = w ∨ (∃ u, v = epsilon :: u ∧ g.Unfolds t a u w) ∨
      ∃ s u body, v = s :: u ∧ s ≠ endMarker ∧ s ≠ a ∧ g.Predicts t s a body ∧
        g.Unfolds t a (body ++ u) w := by
  induction h with
  | refl => exact Or.inl rfl
  | drop _ ih =>
    rcases ih with rfl | ⟨u, rfl, hu⟩ | ⟨s, u, body, rfl, hend, hdiffer, hpredicts, hu⟩
    · exact Or.inr (Or.inl ⟨_, rfl, .refl _⟩)
    · exact Or.inr (Or.inl ⟨u, rfl, .drop hu⟩)
    · exact Or.inr (Or.inr ⟨s, u, body, rfl, hend, hdiffer, hpredicts, .drop hu⟩)
  | expand _ hend' hdiffer' hpredicts' ih =>
    rcases ih with rfl | ⟨u, rfl, hu⟩ | ⟨s, u, body, rfl, hend, hdiffer, hpredicts, hu⟩
    · exact Or.inr (Or.inr ⟨_, _, _, rfl, hend', hdiffer', hpredicts', .refl _⟩)
    · exact Or.inr (Or.inl ⟨u, rfl, .expand hu hend' hdiffer' hpredicts'⟩)
    · exact Or.inr (Or.inr ⟨s, u, body, rfl, hend, hdiffer, hpredicts,
        .expand hu hend' hdiffer' hpredicts'⟩)

/-- What a word unfolds to is derived from it. -/
theorem Unfolds.derives (hg : g.WellFormed) (ht : t.Aligned) (h : g.Unfolds t a v w) :
    g.Derives (withoutEpsilon v) (withoutEpsilon w) := by
  induction h with
  | refl => exact .refl _
  | drop _ ih => rwa [withoutEpsilon_cons_epsilon] at ih
  | @expand w body s _ _ _ hpredicts ih =>
    rw [withoutEpsilon_cons_of_ne (hpredicts.ne_epsilon hg ht)] at ih
    rw [withoutEpsilon_append]
    exact ih.snoc (.replace [] (withoutEpsilon w) (hpredicts.mem_rules ht))

/-! ## Symbols that come back -/

/-- Whether a symbol that is replaced by what the table predicts comes back on top of the stack while
the next symbol of the input stays the same. -/
structure Returns (g : Grammar) (t : Table) (a s : Symbol) : Prop where
  /-- It is not the bottom of the stack. -/
  ne_endMarker : s ≠ endMarker
  /-- It is not read. -/
  ne_lookahead : s ≠ a
  /-- It unfolds to a word that it begins. -/
  unfolds : ∃ body rest, g.Predicts t s a body ∧ g.Unfolds t a body (s :: rest)

/-- A symbol that comes back is left recursive. -/
theorem Returns.leftRecursive (hg : g.WellFormed) (ht : t.Aligned) (h : g.Returns t a s) :
    g.LeftRecursive s := by
  obtain ⟨body, rest, hpredicts, hunfolds⟩ := h.unfolds
  have hderives := hunfolds.derives hg ht
  rw [withoutEpsilon_cons_of_ne (hpredicts.ne_epsilon hg ht)] at hderives
  exact ⟨_, _, step_of_mem_rules (hpredicts.mem_rules ht), hderives⟩

end Grammar

/-! ## Machines in a loop -/

namespace Machine

/-- Whether the stack begins with a word that unfolds to one with a symbol in front that comes back. -/
def Loops (g : Grammar) (t : Table) (m : Machine) : Prop :=
  ∃ v below s rest, m.stack = v ++ below ∧ g.Unfolds t m.lookahead v (s :: rest) ∧
    g.Returns t m.lookahead s

/-- The first symbol of the stack of a machine in a loop is an epsilon, or the table predicts for it what
leaves the machine in a loop. -/
theorem Loops.cases_stack (h : m.Loops g t) :
    ∃ s below, m.stack = s :: below ∧
      (s = epsilon ∧ Loops g t { m with stack := below } ∨
        s ≠ endMarker ∧ s ≠ m.lookahead ∧ ∃ body, g.Predicts t s m.lookahead body ∧
          Loops g t { m with stack := body ++ below }) := by
  obtain ⟨v, below, s, rest, hstack, hunfolds, hreturns⟩ := h
  rcases hunfolds.cases_head with rfl | ⟨u, rfl, hu⟩ | ⟨y, u, body, rfl, hend, hdiffer, hpredicts, hu⟩
  · -- the symbol that comes back is in front
    obtain ⟨body, rest', hpredicts, hbody⟩ := hreturns.unfolds
    refine ⟨s, rest ++ below, hstack, Or.inr ⟨hreturns.ne_endMarker, hreturns.ne_lookahead, body,
      hpredicts, ?_⟩⟩
    exact ⟨body, rest ++ below, s, rest', rfl, hbody, hreturns⟩
  · exact ⟨epsilon, u ++ below, hstack, Or.inl ⟨rfl, u, below, s, rest, rfl, hu, hreturns⟩⟩
  · refine ⟨y, u ++ below, hstack, Or.inr ⟨hend, hdiffer, body, hpredicts, ?_⟩⟩
    exact ⟨body ++ u, below, s, rest, (List.append_assoc body u below).symm, hu, hreturns⟩

/-- Taking the epsilons off the stack does not end a loop. -/
theorem Loops.uncovered (hg : g.WellFormed) (ht : t.Aligned) (h : m.Loops g t) :
    m.uncovered.Loops g t := by
  refine uncovered_invariant (P := fun m => m.Loops g t) ?_ h
  intro rest unread opened h
  obtain ⟨s, below, hstack, hcases⟩ := h.cases_stack
  obtain ⟨rfl, rfl⟩ := List.cons.inj hstack
  rcases hcases with ⟨-, hloops⟩ | ⟨-, -, body, hpredicts, -⟩
  · exact hloops
  · exact absurd rfl (hpredicts.ne_epsilon hg ht)

/-- Without the guard, the automaton follows the table. -/
theorem move_of_predicts (hend : m.top ≠ endMarker) (hdiffer : m.top ≠ m.lookahead)
    (h : g.Predicts t m.top m.lookahead body) : m.move g t = .expand ⟨m.top, body⟩ := by
  rw [move, if_neg hend, if_neg hdiffer, predicted_eq_some_iff.2 h]

/-- Without the guard, a machine in a loop expands the top of its stack, and this does not end the
loop. -/
theorem Loops.move (h : m.Loops g t) (htop : m.top ≠ epsilon) :
    ∃ r, m.move g t = .expand r ∧ (m.after (.expand r)).Loops g t := by
  obtain ⟨s, below, hstack, hcases⟩ := h.cases_stack
  rw [← top_eq_of_stack_eq hstack] at hcases
  rcases hcases with ⟨heps, -⟩ | ⟨hend, hdiffer, body, hpredicts, hloops⟩
  · exact absurd heps htop
  · refine ⟨⟨m.top, body⟩, move_of_predicts hend hdiffer hpredicts, ?_⟩
    rw [after, hstack]
    exact hloops

/-- When the expansion of the top of the stack is open, the machine is in a loop. -/
theorem Traces.loops (h : m.Traces g t) (hend : m.top ≠ endMarker) (hdiffer : m.top ≠ m.lookahead)
    (hguard : m.repeatsItself = true) :
    g.Returns t m.lookahead m.top ∧ m.Loops g t := by
  have hreturns : g.Returns t m.lookahead m.top :=
    ⟨hend, hdiffer, h.exists_unfolds hend hguard⟩
  exact ⟨hreturns, [m.top], m.stack.tail, m.top, [], stack_eq_of_top_ne hend, .refl _, hreturns⟩

/-! ## The guard -/

/-- Without the guard, no loop is noticed. -/
theorem move_ne_nonTerminating : m.move g t ≠ .reject (.nonTerminating s a) := by
  unfold move
  split
  · split
    · simp
    · simp
  · split
    · simp
    · split
      · simp
      · simp

/-- The guard steps in where a loop is noticed, and nowhere else. -/
theorem guardedMove_cases (g : Grammar) (t : Table) (m : Machine) :
    m.guardedMove g t = m.move g t ∨
      m.top ≠ endMarker ∧ m.top ≠ m.lookahead ∧ m.repeatsItself = true ∧
        m.guardedMove g t = .reject (.nonTerminating m.top m.lookahead) := by
  unfold guardedMove
  by_cases hstop : m.top = endMarker ∨ m.top = m.lookahead
  · rw [if_pos hstop]
    exact Or.inl rfl
  · rw [if_neg hstop]
    obtain ⟨hend, hdiffer⟩ := not_or.1 hstop
    cases hguard : m.repeatsItself with
    | true => exact Or.inr ⟨hend, hdiffer, rfl, rfl⟩
    | false => exact Or.inl rfl

end Machine

/-! ## Runs -/

namespace Run

variable {r : Run}

/-- Makes one step without the guard. -/
def plainStep (g : Grammar) (t : Table) (r : Run) : Run :=
  r.stepWith (Machine.move g t)

/-- Whether a run without the guard never stops. -/
def GoesOn (g : Grammar) (t : Table) (r : Run) : Prop :=
  ∀ n, ((plainStep g t)^[n] r).outcome = .running

/-- A run without the guard never stops once it is in a loop. -/
theorem goesOn_of_loops (hg : g.WellFormed) (ht : t.Aligned) (h : r.outcome = .running)
    (hloops : r.machine.uncovered.Loops g t) : r.GoesOn g t := by
  intro n
  induction n generalizing r with
  | zero => exact h
  | succ n ih =>
    obtain ⟨rule, hmove, hnext⟩ := hloops.move r.machine.top_uncovered
    rw [Function.iterate_succ_apply, plainStep, stepWith_of_running h, hmove]
    exact ih rfl (hnext.uncovered hg ht)

/-- A run goes on without the guard if it does so after its first step. -/
theorem GoesOn.of_step (h : r.outcome = .running) (hnext : (r.plainStep g t).GoesOn g t) :
    r.GoesOn g t := by
  intro n
  cases n with
  | zero => exact h
  | succ n => exact hnext n

/-- While a run goes on, what its open expansions have left is on the stack. -/
def Traced (g : Grammar) (t : Table) (r : Run) : Prop :=
  r.outcome = .running → r.machine.Traces g t

/-- A step keeps it. -/
theorem Traced.step (hg : g.WellFormed) (ht : t.Aligned) (hrunning : r.outcome = .running)
    (h : r.Traced g t) : (r.step g t).Traced g t := by
  have htraces := (h hrunning).uncovered
  refine step_cases hrunning fun move hmove => ?_
  generalize r.machine.uncovered = m at htraces hmove ⊢
  intro hnext
  cases hmove with
  | accept hend hunread => cases hnext
  | trailing hend hunread => cases hnext
  | loop hend hdiffer hguard => cases hnext
  | noEntry hend hdiffer hguard hnone => cases hnext
  | advance hend hequal => exact Machine.traces_after_advance
  | expand hend hdiffer hguard hpredicts => exact htraces.expand hg ht hend hdiffer hpredicts

/-- Whether a run was stopped by the guard. -/
def Refused (r : Run) : Prop :=
  ∃ s a, r.outcome = .rejected (.nonTerminating s a)

/-- A step is made as without the guard, or the guard refuses an expansion of a left-recursive symbol
and the run would not stop without it. -/
theorem step_eq_or_refused (hg : g.WellFormed) (ht : t.Aligned) (hrunning : r.outcome = .running)
    (h : r.Traced g t) :
    r.step g t = r.plainStep g t ∧ ¬ (r.step g t).Refused ∨
      (∃ s a, (r.step g t).outcome = .rejected (.nonTerminating s a) ∧ g.LeftRecursive s) ∧
        r.GoesOn g t := by
  have htraces := (h hrunning).uncovered
  have hstep : (r.step g t).outcome = (r.machine.uncovered.guardedMove g t).outcome := by
    rw [step, stepWith_of_running hrunning]
  rcases Machine.guardedMove_cases g t r.machine.uncovered with
    hmove | ⟨hend, hdiffer, hguard, hmove⟩
  · refine Or.inl ⟨?_, ?_⟩
    · rw [step, plainStep, stepWith_of_running hrunning, stepWith_of_running hrunning, hmove]
    · rintro ⟨s, a, hrefused⟩
      rw [hstep, hmove] at hrefused
      cases hplain : r.machine.uncovered.move g t with
      | reject reason =>
        rw [hplain] at hrefused
        obtain rfl := Outcome.rejected.inj hrefused
        exact Machine.move_ne_nonTerminating hplain
      | accept => rw [hplain] at hrefused; cases hrefused
      | advance => rw [hplain] at hrefused; cases hrefused
      | expand rule => rw [hplain] at hrefused; cases hrefused
  · obtain ⟨hreturns, hloops⟩ := htraces.loops hend hdiffer hguard
    rw [hmove] at hstep
    exact Or.inr ⟨⟨_, _, hstep, hreturns.leftRecursive hg ht⟩,
      goesOn_of_loops hg ht hrunning hloops⟩

/-- The steps of a run are the same as without the guard, or the last one refuses an expansion of a
left-recursive symbol and the run would not stop without the guard. -/
theorem iterate_step_eq_or_refused (hg : g.WellFormed) (ht : t.Aligned) {n : Nat}
    (hrunning : ∀ k, k < n → ((step g t)^[k] r).outcome = .running) (hstart : ¬ r.Refused)
    (h : r.Traced g t) :
    (step g t)^[n] r = (plainStep g t)^[n] r ∧ ¬ ((step g t)^[n] r).Refused ∨
      (∃ s a, ((step g t)^[n] r).outcome = .rejected (.nonTerminating s a) ∧ g.LeftRecursive s) ∧
        r.GoesOn g t := by
  induction n generalizing r with
  | zero => exact Or.inl ⟨rfl, hstart⟩
  | succ n ih =>
    have hr : r.outcome = .running := hrunning 0 (Nat.succ_pos n)
    have hlater : ∀ k, k < n → ((step g t)^[k] (r.step g t)).outcome = .running :=
      fun k hk => hrunning (k + 1) (Nat.succ_lt_succ hk)
    rw [Function.iterate_succ_apply, Function.iterate_succ_apply]
    rcases step_eq_or_refused hg ht hr h with ⟨heq, hnot⟩ | ⟨⟨s, a, hrefused, hrecursive⟩, hgoes⟩
    · rcases ih hlater hnot (h.step hg ht hr) with hsame | ⟨hlast, hgoes⟩
      · rw [heq] at hsame ⊢
        exact Or.inl hsame
      · rw [heq] at hgoes
        exact Or.inr ⟨hlast, hgoes.of_step hr⟩
    · -- a refused run has made its last step
      obtain rfl : n = 0 := by
        by_contra hn
        have hnext := hlater 0 (Nat.pos_of_ne_zero hn)
        rw [Function.iterate_zero_apply, hrefused] at hnext
        cases hnext
      exact Or.inr ⟨⟨s, a, hrefused, hrecursive⟩, hgoes⟩

/-- The run on an input is a run without the guard that stops, or it ends with the refusal to expand a
left-recursive symbol and would not stop without the guard. -/
theorem complete_eq_or_refused (hg : g.WellFormed) (ht : t.Aligned) (input : Word) :
    (∃ n, complete g t input = (plainStep g t)^[n] (start g input)) ∧
        ¬ (complete g t input).Refused ∨
      (∃ s a, (complete g t input).outcome = .rejected (.nonTerminating s a) ∧ g.LeftRecursive s) ∧
        (start g input).GoesOn g t := by
  obtain ⟨n, -, heq, hbefore⟩ := exists_iterate_eq (Machine.guardedMove g t)
    ((Machine.start g input).budget g) (start g input)
  have hcomplete : complete g t input = (step g t)^[n] (start g input) := heq
  have hstart : ¬ (start g input).Refused := by
    rintro ⟨s, a, h⟩
    cases h
  rw [hcomplete]
  rcases iterate_step_eq_or_refused hg ht hbefore hstart fun _ => Machine.traces_start input with
    ⟨hplain, hnot⟩ | hrefused
  · exact Or.inl ⟨⟨n, hplain⟩, hnot⟩
  · exact Or.inr hrefused

end Run

end LL1
