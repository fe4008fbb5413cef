/-
# What stack and input stand for

The part of the input that was read, followed by the stack without its end marker, is the form that
the automaton works on. Taking epsilons off the stack erases them from the form, reading moves its
next symbol from the stack to the read part, and expanding replaces that symbol.
-/
import LL1.Proofs.Recogniser.Run

namespace LL1

namespace Machine

variable {g : Grammar} {m : Machine} {input read v body : Word}

/-- Whether the input is split into a part that was read and the unread one, and the stack into a
word and the end marker at its bottom. -/
structure Spells (m : Machine) (input read v : Word) : Prop where
  /-- The read part and the unread one make up the input. -/
  unread : read ++ m.unread = input
  /-- The end marker is below the word. -/
  stack : m.stack = v ++ [endMarker]
  /-- It is not in the word. -/
  above : endMarker ∉ v

/-- At first nothing is read, and the start symbol is on the stack. -/
theorem spells_start (hg : g.WellFormed) (input : Word) :
    (start g input).Spells input [] [g.start] := by
  refine ⟨rfl, rfl, ?_⟩
  rw [List.mem_singleton]
  intro heq
  have hdeclared := hg.declares_start
  rw [← heq, hg.declares_endMarker] at hdeclared
  cases hdeclared

/-- Taking the epsilons off the stack changes no more than the epsilons of the word. -/
theorem Spells.uncovered (h : m.Spells input read v) :
    ∃ w, m.uncovered.Spells input read w ∧ withoutEpsilon w = withoutEpsilon v := by
  refine uncovered_invariant
    (P := fun m => ∃ w, m.Spells input read w ∧ withoutEpsilon w = withoutEpsilon v) ?_ ⟨v, h, rfl⟩
  rintro rest unread opened ⟨w, ⟨hread, hstack, hmarker⟩, heq⟩
  cases w with
  | nil => exact absurd (List.cons.inj hstack).1 (by decide)
  | cons s w =>
    obtain ⟨rfl, rfl⟩ := List.cons.inj hstack
    rw [withoutEpsilon_cons_epsilon] at heq
    exact ⟨w, ⟨hread, rfl, fun hmem => hmarker (List.mem_cons_of_mem _ hmem)⟩, heq⟩

/-- The end marker is on top when the word is used up. -/
theorem Spells.eq_nil (h : m.Spells input read v) (htop : m.top = endMarker) : v = [] := by
  cases v with
  | nil => rfl
  | cons s v =>
    rw [top, h.stack] at htop
    exact absurd (htop ▸ List.mem_cons_self) h.above

/-- Otherwise the top of the stack begins the word. -/
theorem Spells.eq_cons (h : m.Spells input read v) (htop : m.top ≠ endMarker) :
    ∃ rest, v = m.top :: rest := by
  cases v with
  | nil =>
    rw [top, h.stack] at htop
    exact absurd rfl htop
  | cons s v => exact ⟨v, congrArg (· :: v) (top_eq_of_stack_eq h.stack).symm⟩

/-- Reading moves the top of the stack to the read part. -/
theorem Spells.advance (h : m.Spells input read (m.top :: v)) (hequal : m.top = m.lookahead) :
    (m.after .advance).Spells input (read ++ [m.top]) v := by
  have htop : m.top ≠ endMarker := fun heq => h.above (heq ▸ List.mem_cons_self)
  obtain ⟨rest, hrest⟩ := exists_unread_of_lookahead hequal.symm htop
  refine ⟨?_, ?_, fun hmem => h.above (List.mem_cons_of_mem _ hmem)⟩
  · show read ++ [m.top] ++ m.unread.tail = input
    rw [← h.unread, hrest, List.append_assoc]
    rfl
  · show m.stack.tail = v ++ [endMarker]
    rw [h.stack]
    rfl

/-- Expanding puts a right-hand side in the place of the top of the stack. -/
theorem Spells.expand (hg : g.WellFormed) (h : m.Spells input read (m.top :: v))
    (hrule : ⟨m.top, body⟩ ∈ g.rules) :
    (m.after (.expand ⟨m.top, body⟩)).Spells input read (body ++ v) := by
  refine ⟨h.unread, ?_, ?_⟩
  · show body ++ m.stack.tail = body ++ v ++ [endMarker]
    rw [h.stack, List.append_assoc]
    rfl
  · rw [List.mem_append]
    exact fun hmem => hmem.elim (hg.endMarker_notMem hrule)
      fun hmem => h.above (List.mem_cons_of_mem _ hmem)

end Machine

end LL1
