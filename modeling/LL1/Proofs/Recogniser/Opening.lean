/-
# What open expansions have left on the stack

Between two matches the automaton only unfolds the top of its stack, by what the table predicts for
one and the same next symbol. An expansion is open as long as something that it unfolded to is on the
stack. So when a non-terminal with an open expansion comes to the top, it has unfolded to a word that
it begins itself.
-/
import LL1.Proofs.Recogniser.Run

namespace LL1

variable {g : Grammar} {t : Table} {m : Machine} {a : Symbol} {v w : Word}

/-! ## Unfolding -/

/-- What a word becomes on top of the stack while the next symbol stays the same: epsilons are taken
off, and non-terminals are replaced by what the table predicts. -/
inductive Grammar.Unfolds (g : Grammar) (t : Table) (a : Symbol) : Word → Word → Prop where
  /-- Nothing happened. -/
  | refl (v : Word) : Unfolds g t a v v
  /-- An epsilon is taken off. -/
  | drop {v w : Word} (h : Unfolds g t a v (epsilon :: w)) : Unfolds g t a v w
  /-- A non-terminal is replaced. -/
  | expand {v w body : Word} {s : Symbol} (h : Unfolds g t a v (s :: w)) (hend : s ≠ endMarker)
    (hdiffer : s ≠ a) (predicts : g.Predicts t s a body) : Unfolds g t a v (body ++ w)

namespace Machine

/-! ## Open expansions -/

/-- Whether each open expansion has left on top of the stack, above its height, what its right-hand
side unfolded to. -/
def Traces (g : Grammar) (t : Table) (m : Machine) : Prop :=
  ∀ o ∈ m.opened, ∃ body part rest, m.stack = part ++ rest ∧ part ≠ [] ∧
    rest.length + 1 = o.height ∧ g.Predicts t o.symbol m.lookahead body ∧
    g.Unfolds t m.lookahead body part

theorem traces_start (input : Word) : (start g input).Traces g t :=
  fun _ ho => absurd ho List.not_mem_nil

/-- The expansions that stay open have more on the stack than the epsilons that are taken off. -/
theorem Traces.uncovered (h : m.Traces g t) : m.uncovered.Traces g t := by
  refine uncovered_invariant (P := fun m => m.Traces g t) ?_ h
  intro rest unread opened h o ho
  obtain ⟨ho, hheight⟩ := List.mem_filter.1 ho
  obtain ⟨body, part, below, hstack, hpart, hbelow, hpredicts, hunfolds⟩ := h o ho
  cases part with
  | nil => exact absurd rfl hpart
  | cons s part =>
    obtain ⟨rfl, hrest⟩ := List.cons.inj hstack
    refine ⟨body, part, below, hrest, ?_, hbelow, hpredicts, .drop hunfolds⟩
    rintro rfl
    -- the expansion would have been closed
    have hle : o.height ≤ rest.length := of_decide_eq_true hheight
    rw [hrest] at hle
    simp only [List.append_eq, List.nil_append] at hle
    omega

/-- An expansion is open from then on, and it continues those that are open already. -/
theorem Traces.expand (hg : g.WellFormed) (ht : t.Aligned) (h : m.Traces g t)
    (hend : m.top ≠ endMarker) (hdiffer : m.top ≠ m.lookahead) {body : Word}
    (hpredicts : g.Predicts t m.top m.lookahead body) :
    (m.after (.expand ⟨m.top, body⟩)).Traces g t := by
  have hstack := stack_eq_of_top_ne hend
  have hbody : body ≠ [] := hg.body_ne_nil (hpredicts.mem_rules ht)
  refine List.forall_mem_cons.2 ⟨?_, ?_⟩
  · refine ⟨body, body, m.stack.tail, rfl, hbody, ?_, hpredicts, .refl body⟩
    show m.stack.tail.length + 1 = m.stack.length
    rw [hstack]
    rfl
  · intro o ho
    obtain ⟨first, part, below, hsplit, hpart, hbelow, hfirst, hunfolds⟩ := h o ho
    cases part with
    | nil => exact absurd rfl hpart
    | cons s part =>
      -- the top of the stack belongs to what the earlier expansion has left
      obtain ⟨hs, htail⟩ := List.cons.inj (hstack.symm.trans hsplit)
      rw [← hs] at hunfolds
      refine ⟨first, body ++ part, below, ?_, ?_, hbelow, hfirst,
        .expand hunfolds hend hdiffer hpredicts⟩
      · show body ++ m.stack.tail = body ++ part ++ below
        rw [htail, List.append_assoc]
        rfl
      · exact List.append_ne_nil_of_left_ne_nil hbody part

/-- After a match no expansion is open. -/
theorem traces_after_advance : (m.after .advance).Traces g t :=
  fun _ ho => absurd ho List.not_mem_nil

/-- A non-terminal whose expansion is open when it is on top has unfolded to a word that it begins. -/
theorem Traces.exists_unfolds (h : m.Traces g t) (hend : m.top ≠ endMarker)
    (hguard : m.repeatsItself = true) :
    ∃ body rest, g.Predicts t m.top m.lookahead body ∧
      g.Unfolds t m.lookahead body (m.top :: rest) := by
  obtain ⟨o, ho, hsymbol⟩ := List.any_eq_true.1 hguard
  obtain ⟨body, part, below, hsplit, hpart, -, hpredicts, hunfolds⟩ := h o ho
  rw [of_decide_eq_true hsymbol] at hpredicts
  cases part with
  | nil => exact absurd rfl hpart
  | cons s part =>
    obtain ⟨rfl, -⟩ := List.cons.inj ((stack_eq_of_top_ne hend).symm.trans hsplit)
    exact ⟨body, part, hpredicts, hunfolds⟩

end Machine

end LL1
