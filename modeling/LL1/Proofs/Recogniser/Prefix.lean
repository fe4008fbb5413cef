/-
# Runs on inputs that begin alike

A run looks at the first unread symbol only. As long as something is unread, more input behind it
makes no difference: the run on the longer input makes the same steps, with the rest of the input
behind what is unread. So a run that is stopped before it comes to the rest of its input is stopped
whatever the rest is.
-/
import LL1.Proofs.Recogniser.Termination

namespace LL1

variable {g : Grammar} {t : Table} {p u : Word}

/-! ## More input -/

/-- The machine with more input behind what is unread. -/
def Machine.followedBy (m : Machine) (u : Word) : Machine :=
  { m with unread := m.unread ++ u }

/-- The row with more input behind what is unread. -/
def Row.followedBy (row : Row) (u : Word) : Row :=
  { row with unread := row.unread ++ u }

/-- The run with more input behind what is unread. -/
def Run.followedBy (r : Run) (u : Word) : Run :=
  { r with machine := r.machine.followedBy u, rows := r.rows.map fun row => row.followedBy u }

namespace Machine

variable {m : Machine}

/-- Taking the epsilons off the stack leaves the input alone. -/
theorem unread_uncovered (m : Machine) : m.uncovered.unread = m.unread :=
  uncovered_invariant (P := fun k => k.unread = m.unread) (fun _ _ _ h => h) rfl

/-- It does not depend on the input. -/
theorem uncovered_followedBy (m : Machine) (u : Word) :
    (m.followedBy u).uncovered = m.uncovered.followedBy u := by
  obtain ⟨stack, unread, opened⟩ := m
  show dropEpsilons stack (unread ++ u) opened = (dropEpsilons stack unread opened).followedBy u
  induction stack generalizing opened with
  | nil => rfl
  | cons s rest ih =>
    unfold dropEpsilons
    split
    · exact ih _
    · rfl

/-- The next symbol is the same while something is unread. -/
theorem lookahead_followedBy (h : m.unread ≠ []) (u : Word) :
    (m.followedBy u).lookahead = m.lookahead := by
  obtain ⟨s, rest, hs⟩ := List.exists_cons_of_ne_nil h
  rw [lookahead, lookahead, followedBy, hs]
  rfl

/-- So is the next move. -/
theorem guardedMove_followedBy (h : m.unread ≠ []) (u : Word) :
    (m.followedBy u).guardedMove g t = m.guardedMove g t := by
  have hempty : (m.followedBy u).unread.isEmpty = m.unread.isEmpty := by
    obtain ⟨s, rest, hs⟩ := List.exists_cons_of_ne_nil h
    rw [followedBy, hs]
    rfl
  unfold guardedMove move predicted
  rw [lookahead_followedBy h, hempty]
  rfl

/-- A move reads no more than one symbol. -/
theorem after_followedBy (h : m.unread ≠ []) (u : Word) (move : Move) :
    (m.followedBy u).after move = (m.after move).followedBy u := by
  cases move with
  | accept => rfl
  | reject reason => rfl
  | expand rule => rfl
  | advance =>
    show Machine.mk _ (m.unread ++ u).tail _ = Machine.mk _ (m.unread.tail ++ u) _
    rw [List.tail_append_of_ne_nil h]
    rfl

/-- No move puts back what was read. -/
theorem length_unread_after_le (m : Machine) (move : Move) :
    (m.after move).unread.length ≤ m.unread.length := by
  cases move with
  | accept => exact Nat.le_refl _
  | reject reason => exact Nat.le_refl _
  | expand rule => exact Nat.le_refl _
  | advance =>
    show m.unread.tail.length ≤ m.unread.length
    rw [List.length_tail]
    exact Nat.sub_le _ _

end Machine

/-! ## Runs side by side -/

namespace Run

variable {r : Run}

/-- A step is the same with more input, while something is unread. -/
theorem step_followedBy (h : r.machine.unread ≠ []) (u : Word) :
    (r.followedBy u).step g t = (r.step g t).followedBy u := by
  have hunread : r.machine.uncovered.unread ≠ [] := by
    rwa [Machine.unread_uncovered]
  by_cases hrunning : r.outcome = .running
  · have hlonger : (r.followedBy u).outcome = .running := hrunning
    have huncovered : (r.followedBy u).machine.uncovered = r.machine.uncovered.followedBy u :=
      Machine.uncovered_followedBy r.machine u
    rw [step, step, stepWith_of_running hrunning, stepWith_of_running hlonger, huncovered,
      Machine.guardedMove_followedBy hunread, Machine.after_followedBy hunread]
    rfl
  · have hlonger : (r.followedBy u).outcome ≠ .running := hrunning
    rw [step, step, stepWith_of_ne_running hrunning, stepWith_of_ne_running hlonger]

/-- A step puts back nothing that was read. -/
theorem length_unread_step_le (r : Run) :
    (r.step g t).machine.unread.length ≤ r.machine.unread.length := by
  by_cases hrunning : r.outcome = .running
  · rw [step, stepWith_of_running hrunning, ← r.machine.unread_uncovered]
    exact Machine.length_unread_after_le _ _
  · have hsame : r.step g t = r := stepWith_of_ne_running hrunning
    exact Nat.le_of_eq (congrArg (fun r => r.machine.unread.length) hsame)

/-- Neither does a number of steps. -/
theorem length_unread_iterate_le (n : Nat) (r : Run) :
    ((step g t)^[n] r).machine.unread.length ≤ r.machine.unread.length := by
  induction n generalizing r with
  | zero => exact Nat.le_refl _
  | succ n ih =>
    rw [Function.iterate_succ_apply]
    exact Nat.le_trans (ih (r.step g t)) (length_unread_step_le r)

/-- If a run has not come to the rest of its input, then the same steps are made whatever the rest
is. -/
theorem iterate_step_followedBy {n : Nat}
    (h : u.length < ((step g t)^[n] (r.followedBy u)).machine.unread.length) (rest : Word) :
    (step g t)^[n] (r.followedBy rest) = ((step g t)^[n] r).followedBy rest := by
  induction n generalizing r with
  | zero => rfl
  | succ n ih =>
    have hne : r.machine.unread ≠ [] := by
      intro hnil
      have hle := length_unread_iterate_le (g := g) (t := t) (n + 1) (r.followedBy u)
      have hrest : (r.followedBy u).machine.unread = u := by
        rw [followedBy, Machine.followedBy, hnil, List.nil_append]
      rw [hrest] at hle
      omega
    rw [Function.iterate_succ_apply, step_followedBy hne] at h
    rw [Function.iterate_succ_apply, Function.iterate_succ_apply, step_followedBy hne]
    exact ih h

/-- If the run on an input stops before it comes to the rest of the input, it stops in the same way
whatever the rest is. -/
theorem outcome_complete_append (ht : t.Aligned)
    (h : u.length < (complete g t (p ++ u)).machine.unread.length) (rest : Word) :
    (complete g t (p ++ rest)).outcome = (complete g t (p ++ u)).outcome := by
  obtain ⟨n, -, hn, -⟩ := exists_iterate_eq (Machine.guardedMove g t)
    ((Machine.start g (p ++ u)).budget g) (start g (p ++ u))
  obtain ⟨k, -, hk, -⟩ := exists_iterate_eq (Machine.guardedMove g t)
    ((Machine.start g (p ++ rest)).budget g) (start g (p ++ rest))
  have hn : complete g t (p ++ u) = (step g t)^[n] ((start g p).followedBy u) := hn
  have hk : complete g t (p ++ rest) = (step g t)^[k] ((start g p).followedBy rest) := hk
  rw [hn] at h
  have hsame : ((step g t)^[n] ((start g p).followedBy rest)).outcome =
      (complete g t (p ++ u)).outcome := by
    rw [hn, iterate_step_followedBy h, iterate_step_followedBy h]
    rfl
  -- both numbers of steps lead to the end of the run on the other input
  have hstopped : ((step g t)^[n] ((start g p).followedBy rest)).outcome ≠ .running := by
    rw [hsame]
    exact outcome_complete_ne_running ht (p ++ u)
  have hstopped' : ((step g t)^[k] ((start g p).followedBy rest)).outcome ≠ .running := by
    rw [← hk]
    exact outcome_complete_ne_running ht (p ++ rest)
  rw [hk, ← hsame]
  exact congrArg Run.outcome (iterate_stepWith_eq hstopped' hstopped)

end Run

end LL1
