/-
# What is accepted is derived

While the automaton runs, what it has read followed by what is on the stack is a form derived from the
start symbol. Expanding the top of the stack is a replacement in that form, and reading moves one of
its symbols from the stack to the read part. A symbol is read when it equals the top of the stack,
whatever symbol it is, so the form that is read in the end can hold non-terminals.
-/
import LL1.Proofs.Recogniser.Stack

namespace LL1

variable {g : Grammar} {t : Table} {input : Word} {m : Machine}

namespace Machine

/-! ## The invariant -/

/-- Whether the part of the input that was read, followed by the stack without its end marker, is a
form derived from the start symbol. -/
def Reads (g : Grammar) (input : Word) (m : Machine) : Prop :=
  ∃ read v, read ++ m.unread = input ∧ m.stack = v ++ [endMarker] ∧ endMarker ∉ v ∧
    g.Derives [g.start] (read ++ withoutEpsilon v)

/-- A derived form that stack and input stand for is what the machine reads. -/
theorem Spells.reads {read v : Word} (h : m.Spells input read v)
    (hderives : g.Derives [g.start] (read ++ withoutEpsilon v)) : m.Reads g input :=
  ⟨read, v, h.unread, h.stack, h.above, hderives⟩

/-- The form that a machine reads is what stack and input stand for. -/
theorem Reads.exists_spells (h : m.Reads g input) :
    ∃ read v, m.Spells input read v ∧ g.Derives [g.start] (read ++ withoutEpsilon v) := by
  obtain ⟨read, v, hread, hstack, hmarker, hderives⟩ := h
  exact ⟨read, v, ⟨hread, hstack, hmarker⟩, hderives⟩

theorem reads_start (hg : g.WellFormed) (input : Word) : (start g input).Reads g input := by
  apply (spells_start hg input).reads
  rw [withoutEpsilon_cons_of_ne (hg.ne_epsilon_of_declares hg.declares_start)]
  exact .refl _

/-- Taking the epsilons off the stack does not change the form. -/
theorem Reads.uncovered (h : m.Reads g input) : m.uncovered.Reads g input := by
  obtain ⟨read, v, hspells, hderives⟩ := h.exists_spells
  obtain ⟨w, hw, heq⟩ := hspells.uncovered
  rw [← heq] at hderives
  exact hw.reads hderives

/-- The stack is at its bottom when the end marker is on top. -/
theorem Reads.of_top_eq (h : m.Reads g input) (htop : m.top = endMarker) :
    ∃ read, read ++ m.unread = input ∧ g.Derives [g.start] read := by
  obtain ⟨read, v, hspells, hderives⟩ := h.exists_spells
  obtain rfl := hspells.eq_nil htop
  exact ⟨read, hspells.unread, by simpa [withoutEpsilon] using hderives⟩

/-- Reading a symbol moves it from the stack to the read part. -/
theorem Reads.advance (h : m.Reads g input) (hne : m.top ≠ epsilon) (htop : m.top ≠ endMarker)
    (hequal : m.top = m.lookahead) : (m.after .advance).Reads g input := by
  obtain ⟨read, v, hspells, hderives⟩ := h.exists_spells
  obtain ⟨rest, rfl⟩ := hspells.eq_cons htop
  rw [withoutEpsilon_cons_of_ne hne] at hderives
  exact (hspells.advance hequal).reads (by simpa using hderives)

/-- An expansion is a replacement in the form. -/
theorem Reads.expand (hg : g.WellFormed) (h : m.Reads g input) (hne : m.top ≠ epsilon)
    (htop : m.top ≠ endMarker) {body : Word} (hrule : ⟨m.top, body⟩ ∈ g.rules) :
    (m.after (.expand ⟨m.top, body⟩)).Reads g input := by
  obtain ⟨read, v, hspells, hderives⟩ := h.exists_spells
  obtain ⟨rest, rfl⟩ := hspells.eq_cons htop
  exact (hspells.expand hg hrule).reads (hderives.snoc_rule hne hrule)

end Machine

/-! ## Accepted inputs -/

/-- What holds of a run: while it goes on the form is derived, and when it has accepted the input is
derived. -/
structure Run.Sound (g : Grammar) (input : Word) (r : Run) : Prop where
  /-- The form is derived. -/
  running : r.outcome = .running → r.machine.Reads g input
  /-- The input is derived. -/
  accepted : r.outcome = .accepted → g.Derives [g.start] input

/-- A step keeps it. -/
theorem Run.Sound.step (hg : g.WellFormed) (ht : t.Aligned) {r : Run}
    (hrunning : r.outcome = .running) (h : r.Sound g input) :
    (r.step g t).Sound g input := by
  have hreads := (h.running hrunning).uncovered
  have htop := r.machine.top_uncovered
  refine Run.step_cases hrunning fun move hmove => ?_
  generalize r.machine.uncovered = m at hreads htop hmove ⊢
  cases hmove with
  | accept hend hunread =>
    refine ⟨fun hr => (by cases hr), fun _ => ?_⟩
    -- all of the input was read, so the form is the input
    obtain ⟨read, hread, hderives⟩ := hreads.of_top_eq hend
    rw [hunread, List.append_nil] at hread
    exact hread ▸ hderives
  | trailing hend hunread => exact ⟨fun hr => (by cases hr), fun hr => (by cases hr)⟩
  | loop hend hdiffer hguard => exact ⟨fun hr => (by cases hr), fun hr => (by cases hr)⟩
  | noEntry hend hdiffer hguard hnone => exact ⟨fun hr => (by cases hr), fun hr => (by cases hr)⟩
  | advance hend hequal => exact ⟨fun _ => hreads.advance htop hend hequal, fun hr => (by cases hr)⟩
  | expand hend hdiffer hguard hpredicts =>
    exact ⟨fun _ => hreads.expand hg htop hend (hpredicts.mem_rules ht), fun hr => (by cases hr)⟩

/-- An accepted input is a form derived from the start symbol. -/
theorem derives_of_accepted (hg : g.WellFormed) (ht : t.Aligned)
    (h : (recognise g t input).accepted = true) : g.Derives [g.start] input := by
  have hstart : (Run.start g input).Sound g input :=
    ⟨fun _ => Machine.reads_start hg input, fun hr => (by cases hr)⟩
  have hsound := Run.iterate_invariant (I := Run.Sound g input)
    (fun r hrunning hr => hr.step hg ht hrunning)
    ((Machine.start g input).budget g) hstart
  exact hsound.accepted (of_decide_eq_true h)

end LL1
