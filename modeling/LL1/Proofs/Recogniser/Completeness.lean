/-
# What is derived is accepted

If the table predicts every rule where it should, the stack always yields the unread input. The rule
that is needed next is the one that the table predicts, and each expansion needs fewer replacements
than before. A non-terminal that came back while its expansion is open would come back again and
again, with fewer replacements each time, so no expansion is refused.
-/
import LL1.Proofs.Analysis.Follow
import LL1.Proofs.Language.Yield
import LL1.Proofs.Recogniser.Opening
import LL1.Proofs.Recogniser.Termination

namespace LL1

variable {g : Grammar} {t : Table} {m : Machine} {read v w u : Word} {n : Nat} {s a : Symbol}

namespace Grammar

/-! ## Tables that predict what is needed -/

/-- Whether a table predicts each rule where it should: on what can begin its right-hand side, and on
what can follow its head if the right-hand side can vanish. -/
def Predictive (g : Grammar) (t : Table) : Prop :=
  ∀ r ∈ g.rules, ∀ a, a ≠ epsilon ∧ g.InFirst r.body a ∨ g.Vanishes r.body ∧ g.InFollow r.head a →
    g.Predicts t r.head a r.body

/-- A table predicts one right-hand side at most. -/
theorem Predicts.unique {body body' : Word} (h : g.Predicts t s a body)
    (h' : g.Predicts t s a body') : body = body' := by
  obtain ⟨id, hfind, hbody⟩ := h
  obtain ⟨id', hfind', hbody'⟩ := h'
  rw [hfind] at hfind'
  obtain rfl := Option.some.inj hfind'
  exact Option.some.inj (hbody.symm.trans hbody')

/-! ## What the stack yields -/

/-- Whether what was read and what is expected make up a form derived from the start symbol, and what
is expected yields the unread input after so many replacements. -/
structure Expects (g : Grammar) (read v u : Word) (n : Nat) : Prop where
  /-- The form is derived. -/
  form : g.Derives [g.start] (read ++ withoutEpsilon v)
  /-- The unread input is yielded. -/
  yields : g.Yields n v u

/-- Epsilons are expected in vain. -/
theorem Expects.drop (h : g.Expects read (epsilon :: v) u n)
    (hg : g.WellFormed) : g.Expects read v u n := by
  obtain ⟨hform, hyields⟩ := h
  rw [withoutEpsilon_cons_epsilon] at hform
  refine ⟨hform, ?_⟩
  cases hyields with
  | epsilon rest => exact rest
  | symbol hne => exact absurd rfl hne
  | expand hr =>
    have hdeclared := declares_of_mem_rules hr
    rw [hg.declares_epsilon] at hdeclared
    cases hdeclared

/-- The next symbol begins the right-hand side that is needed, or this one vanishes and the next symbol
follows its head. -/
theorem Expects.next (hg : g.WellFormed) {body : Word}
    (h : g.Expects read (s :: v) u n) (hs : g.declares s = true) {k : Nat}
    (hrest : g.Yields k (body ++ v) u) :
    u.head?.getD endMarker ≠ epsilon ∧ g.InFirst body (u.head?.getD endMarker) ∨
      g.Vanishes body ∧ g.InFollow s (u.head?.getD endMarker) := by
  have hform := h.form
  rw [withoutEpsilon_cons_of_ne (hg.ne_epsilon_of_declares hs)] at hform
  obtain ⟨i, j, x, y, -, rfl, hbody, hv⟩ := hrest.of_append
  have hderives := hbody.derives hg.declares_epsilon
  cases x with
  | cons b x =>
    obtain ⟨hne, hd⟩ := hbody.mem b List.mem_cons_self
    exact Or.inl ⟨hne, Or.inl ⟨hne, hd, x, hderives⟩⟩
  | nil =>
    refine Or.inr ⟨hderives, ?_⟩
    have hrest := (hv.derives hg.declares_epsilon).surround (read ++ [s]) []
    simp only [List.append_nil, List.append_assoc, List.singleton_append] at hrest
    have hform := hform.trans hrest
    cases y with
    | nil => exact Or.inr ⟨rfl, read, hform⟩
    | cons b y =>
      obtain ⟨hne, hd⟩ := hv.mem b List.mem_cons_self
      have hmem := mem_terminals_of_derives hg hg.declares_start hform (by simp) hd hne
      exact Or.inl ⟨hmem.2, hd, g.start, declares_iff.1 hg.declares_start, read, y, hform⟩

/-- The table predicts the right-hand side that is needed for a non-terminal, and then fewer
replacements are left. -/
theorem Expects.expand (hg : g.WellFormed) (hp : g.Predictive t) (h : g.Expects read (s :: v) u n)
    (hs : g.declares s = true) :
    ∃ body k, k < n ∧ g.Predicts t s (u.head?.getD endMarker) body ∧
      g.Expects read (body ++ v) u k := by
  cases h.yields with
  | epsilon => exact absurd hs (by rw [hg.declares_epsilon]; exact Bool.false_ne_true)
  | symbol _ hd => exact absurd hs (by rw [hd]; exact Bool.false_ne_true)
  | @expand k _ body _ _ hr hrest =>
    have hform := h.form.snoc_rule (hg.ne_epsilon_of_declares hs) hr
    exact ⟨body, k, Nat.lt_succ_self k, hp _ hr _ (h.next hg hs hrest), hform, hrest⟩

/-- What the table predicts is what is needed. -/
theorem Expects.predicted (hg : g.WellFormed) (ht : t.Aligned) (hp : g.Predictive t)
    (h : g.Expects read (s :: v) u n) {body : Word}
    (hpredicts : g.Predicts t s (u.head?.getD endMarker) body) :
    ∃ k, k < n ∧ g.Expects read (body ++ v) u k := by
  have hs : g.declares s = true := declares_of_mem_rules (hpredicts.mem_rules ht)
  obtain ⟨body', k, hk, hpredicts', hbody⟩ := h.expand hg hp hs
  rw [hpredicts'.unique hpredicts] at hbody
  exact ⟨k, hk, hbody⟩

/-- Unfolding what is expected needs no more replacements. -/
theorem Expects.unfolds (hg : g.WellFormed) (ht : t.Aligned) (hp : g.Predictive t) {rest : Word}
    (hunfolds : g.Unfolds t (u.head?.getD endMarker) v w) (h : g.Expects read (v ++ rest) u n) :
    ∃ k, k ≤ n ∧ g.Expects read (w ++ rest) u k := by
  induction hunfolds with
  | refl => exact ⟨n, Nat.le_refl n, h⟩
  | drop _ ih =>
    obtain ⟨k, hk, hexpects⟩ := ih
    exact ⟨k, hk, hexpects.drop hg⟩
  | expand _ hend hdiffer hpredicts ih =>
    obtain ⟨k, hk, hexpects⟩ := ih
    obtain ⟨j, hj, hbody⟩ := hexpects.predicted hg ht hp hpredicts
    refine ⟨j, by omega, ?_⟩
    rwa [List.append_assoc]

/-- A non-terminal that unfolds to a word that it begins cannot be expected: it would have to be
expanded again and again. -/
theorem not_expects_of_unfolds (hg : g.WellFormed) (ht : t.Aligned) (hp : g.Predictive t)
    {body back : Word} (hpredicts : g.Predicts t s (u.head?.getD endMarker) body)
    (hunfolds : g.Unfolds t (u.head?.getD endMarker) body (s :: back)) :
    ¬ g.Expects read (s :: v) u n := by
  induction n using Nat.strongRecOn generalizing v with
  | ind n ih =>
    intro h
    obtain ⟨k, hk, hbody⟩ := h.predicted hg ht hp hpredicts
    obtain ⟨j, hj, hback⟩ := hbody.unfolds hg ht hp hunfolds
    exact ih j (by omega) hback

end Grammar

/-! ## Machines on the way to acceptance -/

namespace Machine

/-- Whether the stack still yields the unread input. -/
structure Pending (g : Grammar) (t : Table) (m : Machine) : Prop where
  /-- Open expansions have left their traces. -/
  traces : m.Traces g t
  /-- What is above the end marker is expected. -/
  expects : ∃ read v n, m.stack = v ++ [endMarker] ∧ g.Expects read v m.unread n

theorem pending_start (hg : g.WellFormed) (h : g.Derives [g.start] w)
    (hw : ∀ s ∈ w, g.declares s = false) : (start g w).Pending g t := by
  refine ⟨traces_start w, [], [g.start], ?_⟩
  have hne : ∀ s ∈ w, s ≠ epsilon := by
    rintro s hs rfl
    exact Grammar.epsilon_notMem_of_declares hg hg.declares_start h hs
  obtain ⟨n, hn⟩ := Grammar.exists_yields_of_derives h fun s hs => ⟨hne s hs, hw s hs⟩
  refine ⟨n, rfl, ?_, hn⟩
  rw [withoutEpsilon_cons_of_ne (hg.ne_epsilon_of_declares hg.declares_start)]
  exact .refl _

/-- Taking the epsilons off the stack changes nothing. -/
theorem Pending.uncovered (hg : g.WellFormed) (h : m.Pending g t) : m.uncovered.Pending g t := by
  refine ⟨h.traces.uncovered, ?_⟩
  refine uncovered_invariant (P := fun m => ∃ read v n, m.stack = v ++ [endMarker] ∧
    g.Expects read v m.unread n) ?_ h.expects
  rintro rest unread opened ⟨read, v, n, hstack, hexpects⟩
  cases v with
  | nil => exact absurd (List.cons.inj hstack).1 (by decide)
  | cons s v =>
    obtain ⟨rfl, rfl⟩ := List.cons.inj hstack
    exact ⟨read, v, n, rfl, hexpects.drop hg⟩

/-- The top of the stack is expected first. -/
theorem Pending.exists_rest (h : m.Pending g t) (hend : m.top ≠ endMarker) :
    ∃ read v n, m.stack.tail = v ++ [endMarker] ∧ g.Expects read (m.top :: v) m.unread n := by
  obtain ⟨read, v, n, hstack, hexpects⟩ := h.expects
  cases v with
  | nil =>
    rw [top, hstack] at hend
    exact absurd rfl hend
  | cons s v =>
    rw [top_eq_of_stack_eq hstack, hstack]
    exact ⟨read, v, n, rfl, hexpects⟩

/-- The end marker is on top when the input is used up. -/
theorem Pending.unread_eq_nil (hg : g.WellFormed) (h : m.Pending g t) (hend : m.top = endMarker) :
    m.unread = [] := by
  obtain ⟨read, v, n, hstack, hexpects⟩ := h.expects
  cases v with
  | nil =>
    have hyields := hexpects.yields
    cases hu : m.unread with
    | nil => rfl
    | cons b u =>
      rw [hu] at hyields
      cases hyields
  | cons s v =>
    -- the end marker would be part of a form
    rw [top, hstack] at hend
    obtain rfl : s = endMarker := hend
    have hform := hexpects.form
    rw [withoutEpsilon_cons_of_ne (by decide)] at hform
    have hmem := Grammar.mem_terminals_of_derives hg hg.declares_start hform
      (List.mem_append_right read List.mem_cons_self) hg.declares_endMarker (by decide)
    exact absurd rfl hmem.2

/-- A symbol that is read was expected. -/
theorem Pending.advance (h : m.Pending g t) (hcovered : m.top ≠ epsilon) (hend : m.top ≠ endMarker)
    (hequal : m.top = m.lookahead) : (m.after .advance).Pending g t := by
  obtain ⟨read, v, n, hstack, hform, hyields⟩ := h.exists_rest hend
  obtain ⟨rest, hunread⟩ := exists_unread_of_lookahead hequal.symm hend
  refine ⟨traces_after_advance, read ++ [m.top], v, n, hstack, ?_, ?_⟩
  · rw [withoutEpsilon_cons_of_ne hcovered] at hform
    simpa using hform
  · show g.Yields n v m.unread.tail
    rw [hunread] at hyields ⊢
    have hd := (hyields.mem m.top List.mem_cons_self).2
    generalize m.top = s at hyields hcovered hd
    cases hyields with
    | epsilon => exact absurd rfl hcovered
    | symbol _ _ hv => exact hv
    | expand hr =>
      rw [Grammar.declares_of_mem_rules hr] at hd
      cases hd

/-- What is on top and cannot be read is a non-terminal. -/
theorem Pending.declares_top (h : m.Pending g t) (hcovered : m.top ≠ epsilon)
    (hend : m.top ≠ endMarker) (hdiffer : m.top ≠ m.lookahead) : g.declares m.top = true := by
  obtain ⟨read, v, n, hstack, -, hyields⟩ := h.exists_rest hend
  unfold lookahead at hdiffer
  generalize m.top = s at *
  generalize m.unread = u at *
  cases hyields with
  | epsilon => exact absurd rfl hcovered
  | symbol => exact absurd rfl hdiffer
  | expand hr => exact Grammar.declares_of_mem_rules hr

end Machine

/-! ## Derived inputs -/

/-- What holds of a run on a derived input: while it goes on the stack yields what is unread, and it
does not end in a rejection. -/
structure Run.Promising (g : Grammar) (t : Table) (r : Run) : Prop where
  /-- The stack yields what is unread. -/
  running : r.outcome = .running → r.machine.Pending g t
  /-- The input is not rejected. -/
  not_rejected : ∀ reason, r.outcome ≠ .rejected reason

/-- A step keeps it. -/
theorem Run.Promising.step (hg : g.WellFormed) (ht : t.Aligned) (hp : g.Predictive t) {r : Run}
    (hrunning : r.outcome = .running) (h : r.Promising g t) :
    (r.step g t).Promising g t := by
  have hpending := (h.running hrunning).uncovered hg
  have hcovered := r.machine.top_uncovered
  refine Run.step_cases hrunning fun move hmove => ?_
  generalize r.machine.uncovered = m at hpending hcovered hmove ⊢
  cases hmove with
  | accept hend hunread => exact ⟨fun hr => (by cases hr), fun _ hr => (by cases hr)⟩
  | trailing hend hunread => exact absurd (hpending.unread_eq_nil hg hend) hunread
  | advance hend hequal =>
    exact ⟨fun _ => hpending.advance hcovered hend hequal, fun _ hr => (by cases hr)⟩
  | loop hend hdiffer hguard =>
    obtain ⟨read, v, n, -, hexpects⟩ := hpending.exists_rest hend
    -- an open expansion on top would have to go on forever
    obtain ⟨body, back, hpredicts, hunfolds⟩ := hpending.traces.exists_unfolds hend hguard
    exact absurd hexpects (Grammar.not_expects_of_unfolds hg ht hp hpredicts hunfolds)
  | noEntry hend hdiffer hguard hnone =>
    obtain ⟨read, v, n, -, hexpects⟩ := hpending.exists_rest hend
    -- the rule that is needed is in the table
    have hd := hpending.declares_top hcovered hend hdiffer
    obtain ⟨body, -, -, hpredicts, -⟩ := hexpects.expand hg hp hd
    exact absurd hpredicts (hnone body)
  | expand hend hdiffer hguard hpredicts =>
    refine ⟨fun _ => ⟨?_, ?_⟩, fun _ hr => (by cases hr)⟩
    · exact hpending.traces.expand hg ht hend hdiffer hpredicts
    · obtain ⟨read, v, n, htail, hexpects⟩ := hpending.exists_rest hend
      obtain ⟨k, -, hbody⟩ := hexpects.predicted hg ht hp hpredicts
      refine ⟨read, _, k, ?_, hbody⟩
      show _ ++ m.stack.tail = _
      rw [htail, List.append_assoc]

/-- The automaton accepts the strings without non-terminals that the start symbol derives, if the table
predicts every rule where it should. -/
theorem accepted_of_derives (hg : g.WellFormed) (ht : t.Aligned) (hp : g.Predictive t)
    (h : g.Derives [g.start] w) (hw : ∀ s ∈ w, g.declares s = false) :
    (recognise g t w).accepted = true := by
  have hstart : (Run.start g w).Promising g t :=
    ⟨fun _ => Machine.pending_start hg h hw, fun _ hr => (by cases hr)⟩
  have hpromising := Run.iterate_invariant (I := Run.Promising g t)
    (fun r hrunning hr => hr.step hg ht hp hrunning) ((Machine.start g w).budget g) hstart
  apply decide_eq_true
  show (Run.complete g t w).outcome = .accepted
  cases houtcome : (Run.complete g t w).outcome with
  | running => exact absurd houtcome (Run.outcome_complete_ne_running ht w)
  | accepted => rfl
  | rejected reason => exact absurd houtcome (hpromising.not_rejected reason)

end LL1
