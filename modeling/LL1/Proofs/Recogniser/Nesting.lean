/-
# The automaton between two steps

As long as a run goes on, the end marker is at the bottom of the stack and nowhere else, and each
match has moved the cursor by one symbol of the input. Open expansions are nested: those opened
later started at no lower height, and none started above the top of the stack. What is left of an
expansion reaches from its height to the top, and its non-terminal derives that.
-/
import LL1.Proofs.Recogniser.Guard
import LL1.Proofs.Recogniser.Stack

namespace LL1

variable {g : Grammar} {t : Table} {m : Machine} {input body : Word}

namespace Machine

/-! ## The next symbol -/

/-- The unread input starts behind the part that was read. The input has a symbol there, or the end
marker follows it. -/
theorem Spells.at_cursor {read v : Word} (h : m.Spells input read v) :
    read.length ≤ input.length ∧ m.unread = input.drop read.length ∧
      (input ++ [endMarker])[read.length]? = some m.lookahead := by
  rw [← h.unread]
  refine ⟨?_, List.drop_left.symm, ?_⟩
  · rw [List.length_append]
    omega
  · rw [List.append_assoc, List.getElem?_append_right (Nat.le_refl _), Nat.sub_self]
    show (m.unread ++ [endMarker])[0]? = some m.lookahead
    unfold lookahead
    cases m.unread with
    | nil => rfl
    | cons s rest => rfl

/-- The stack is never empty. -/
theorem Spells.stack_ne_nil {read v : Word} (h : m.Spells input read v) : m.stack ≠ [] := by
  rw [h.stack]
  exact List.append_ne_nil_of_right_ne_nil v (List.cons_ne_nil endMarker [])

/-! ## The symbols on the stack -/

/-- Whether the stack holds nothing but epsilons, terminals and declared symbols. -/
def Known (g : Grammar) (m : Machine) : Prop :=
  ∀ s ∈ m.stack, s = epsilon ∨ s ∈ g.terminals ∨ g.declares s = true

theorem known_start (hg : g.WellFormed) (input : Word) : (start g input).Known g := by
  refine List.forall_mem_cons.2 ⟨Or.inr (Or.inr hg.declares_start), ?_⟩
  rintro s hs
  obtain rfl := List.mem_singleton.1 hs
  exact Or.inr (Or.inl (Grammar.mem_terminals.2 (Or.inl rfl)))

theorem Known.uncovered (h : m.Known g) : m.uncovered.Known g :=
  uncovered_invariant (P := fun m => m.Known g)
    (fun _ _ _ h s hs => h s (List.mem_cons_of_mem _ hs)) h

/-- What is below the top is known as well. -/
theorem Known.tail (h : m.Known g) {s : Symbol} (hs : s ∈ m.stack.tail) :
    s = epsilon ∨ s ∈ g.terminals ∨ g.declares s = true :=
  h s (List.mem_of_mem_tail hs)

/-- A right-hand side brings only symbols of the grammar onto the stack. -/
theorem Known.expand (hg : g.WellFormed) (h : m.Known g) (hrule : ⟨m.top, body⟩ ∈ g.rules) :
    (m.after (.expand ⟨m.top, body⟩)).Known g := by
  intro s hs
  rcases List.mem_append.1 hs with hs | hs
  · by_cases heps : s = epsilon
    · exact Or.inl heps
    · cases hdeclared : g.declares s with
      | true => exact Or.inr (Or.inr rfl)
      | false => exact Or.inr (Or.inl (hg.mem_terminals_of_mem_body hrule hs hdeclared heps))
  · exact h.tail hs

/-! ## Nested expansions -/

/-- Whether the open expansions are nested. They are listed newest first. -/
structure Nested (m : Machine) : Prop where
  /-- No non-terminal has two of them. -/
  nodup : (m.opened.map Opening.symbol).Nodup
  /-- Those opened later started at no lower height. -/
  ascending : m.opened.Pairwise fun newer older => older.height ≤ newer.height
  /-- None of them started above the top of the stack. -/
  bounded : ∀ o ∈ m.opened, o.height ≤ m.stack.length

/-- Where no expansion is open, there is nothing to nest. -/
theorem nested_of_opened_eq_nil (h : m.opened = []) : m.Nested := by
  refine ⟨?_, ?_, fun o ho => ?_⟩
  · rw [h]
    exact List.nodup_nil
  · rw [h]
    exact List.Pairwise.nil
  · rw [h] at ho
    exact absurd ho List.not_mem_nil

/-- With each epsilon that is taken off the stack, the expansions that started above are closed. -/
theorem Nested.uncovered (h : m.Nested) : m.uncovered.Nested := by
  refine uncovered_invariant (P := Nested) ?_ h
  intro rest unread opened h
  refine ⟨h.nodup.sublist (List.filter_sublist.map _), h.ascending.sublist List.filter_sublist, ?_⟩
  intro o ho
  obtain ⟨-, hheight⟩ := List.mem_filter.1 ho
  exact of_decide_eq_true hheight

/-- The guard has seen to it that the non-terminal has no open expansion yet, and the new one starts
at the top. -/
theorem Nested.expand (h : m.Nested) (hguard : m.repeatsItself = false) (hbody : body ≠ []) :
    (m.after (.expand ⟨m.top, body⟩)).Nested := by
  have hgrown : m.stack.length ≤ (body ++ m.stack.tail).length := by
    have hpos := List.length_pos_iff.2 hbody
    rw [List.length_append, List.length_tail]
    omega
  refine ⟨?_, ?_, ?_⟩
  · show (m.top :: m.opened.map Opening.symbol).Nodup
    refine List.nodup_cons.2 ⟨?_, h.nodup⟩
    rw [List.mem_map]
    rintro ⟨o, ho, hsymbol⟩
    have hfresh := List.any_eq_false.1 hguard o ho
    exact hfresh (decide_eq_true hsymbol)
  · show (⟨m.top, m.stack.length⟩ :: m.opened).Pairwise _
    exact List.pairwise_cons.2 ⟨h.bounded, h.ascending⟩
  · show ∀ o ∈ ⟨m.top, m.stack.length⟩ :: m.opened, o.height ≤ (body ++ m.stack.tail).length
    refine List.forall_mem_cons.2 ⟨hgrown, fun o ho => ?_⟩
    exact Nat.le_trans (h.bounded o ho) hgrown

/-! ## What an expansion has left -/

/-- The part of the stack from a height, counted from one at the bottom, to the top. -/
def above (m : Machine) (height : Nat) : Word :=
  m.stack.take (m.stack.length + 1 - height)

/-- A non-terminal with an open expansion derives, by one replacement or more, the part of the stack
that reaches from the height of the expansion to the top. -/
theorem Traces.derives_above (hg : g.WellFormed) (ht : t.Aligned) (h : m.Traces g t) {o : Opening}
    (ho : o ∈ m.opened) :
    0 < o.height ∧
      ∃ v, g.Step [o.symbol] v ∧ g.Derives v (withoutEpsilon (m.above o.height)) := by
  obtain ⟨body, part, rest, hstack, -, hrest, hpredicts, hunfolds⟩ := h o ho
  have hpart : m.above o.height = part := by
    rw [above, hstack, ← hrest, List.length_append]
    have hlength : part.length + rest.length + 1 - (rest.length + 1) = part.length := by omega
    rw [hlength, List.take_left]
  have hstep := Grammar.step_of_mem_rules (hpredicts.mem_rules ht)
  rw [hpart]
  exact ⟨by omega, _, hstep, hunfolds.derives hg ht⟩

end Machine

/-! ## Runs -/

namespace Run

variable {r : Run}

/-- How many matches were made: a row of a match applies no rule. -/
def cursor (r : Run) : Nat :=
  r.rows.countP fun row => row.rule.isNone

/-- What holds of a run that goes on. -/
structure Steady (g : Grammar) (t : Table) (input : Word) (r : Run) : Prop where
  /-- The input was read up to the cursor, and the end marker is at the bottom of the stack only. -/
  spells : ∃ read v, r.machine.Spells input read v ∧ read.length = r.cursor
  /-- The stack holds symbols of the grammar. -/
  known : r.machine.Known g
  /-- The open expansions are nested. -/
  nested : r.machine.Nested
  /-- What they have left is on the stack. -/
  traces : r.machine.Traces g t

theorem steady_start (hg : g.WellFormed) (t : Table) (input : Word) :
    (start g input).Steady g t input where
  spells := ⟨[], [g.start], Machine.spells_start hg input, rfl⟩
  known := Machine.known_start hg input
  nested := Machine.nested_of_opened_eq_nil rfl
  traces := Machine.traces_start input

/-- As long as the run goes on, it holds after each step. -/
theorem Steady.step (hg : g.WellFormed) (ht : t.Aligned) (hrunning : r.outcome = .running)
    (h : r.Steady g t input) (hnext : (r.step g t).outcome = .running) :
    (r.step g t).Steady g t input := by
  obtain ⟨read, v, hspells, hcursor⟩ := h.spells
  obtain ⟨w, hspells, -⟩ := hspells.uncovered
  have hknown := h.known.uncovered
  have hnested := h.nested.uncovered
  have htraces := h.traces.uncovered
  revert hnext
  refine step_cases (P := fun r' => r'.outcome = .running → r'.Steady g t input) hrunning ?_
  intro move hmove hnext
  generalize r.machine.uncovered = m at hspells hknown hnested htraces hmove hnext ⊢
  cases hmove with
  | accept hend hunread => cases hnext
  | trailing hend hunread => cases hnext
  | loop hend hdiffer hguard => cases hnext
  | noEntry hend hdiffer hguard hnone => cases hnext
  | advance hend hequal =>
    obtain ⟨rest, rfl⟩ := hspells.eq_cons hend
    refine ⟨⟨_, rest, hspells.advance hequal, ?_⟩, fun s hs => hknown.tail hs,
      Machine.nested_of_opened_eq_nil rfl, Machine.traces_after_advance⟩
    rw [List.length_append, hcursor]
    exact (List.countP_cons_of_pos rfl).symm
  | expand hend hdiffer hguard hpredicts =>
    have hrule := hpredicts.mem_rules ht
    obtain ⟨rest, rfl⟩ := hspells.eq_cons hend
    exact ⟨⟨read, _, hspells.expand hg hrule, hcursor⟩, hknown.expand hg hrule,
      hnested.expand hguard (hg.body_ne_nil hrule),
      htraces.expand hg ht hend hdiffer hpredicts⟩

/-- It holds of every run that goes on. -/
theorem steady_iterate (hg : g.WellFormed) (ht : t.Aligned) (input : Word) (n : Nat)
    (hrunning : ((Run.step g t)^[n] (start g input)).outcome = .running) :
    ((Run.step g t)^[n] (start g input)).Steady g t input := by
  induction n with
  | zero => exact steady_start hg t input
  | succ n ih =>
    rw [Function.iterate_succ_apply'] at hrunning ⊢
    -- a run that has stopped would not go on again
    have hbefore : ((Run.step g t)^[n] (start g input)).outcome = .running := by
      by_contra hstopped
      rw [step, stepWith_of_ne_running hstopped] at hrunning
      exact hstopped hrunning
    exact (ih hbefore).step hg ht hbefore hrunning

end Run

end LL1
