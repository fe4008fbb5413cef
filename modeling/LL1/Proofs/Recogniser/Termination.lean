/-
# The automaton stops

The weight of the stack pays for all that can become of it. Taking an epsilon off the stack closes
expansions that lie above all that is left, so the weight does not grow. Reading a symbol allows all
expansions again, which the weight has counted for each unread symbol. Expanding a non-terminal puts
at most as many symbols on the stack as the longest right-hand side has, and for each of them one
expansion fewer is possible. So every step makes the weight smaller, and the run ends within the
steps it is given.
-/
import LL1.Proofs.Recogniser.Run

namespace LL1

variable {g : Grammar} {t : Table} {m m' : Machine}

/-- No right-hand side is longer than the longest one. -/
theorem Grammar.length_le_longestBody {r : Rule} (hr : r ∈ g.rules) :
    r.body.length ≤ g.longestBody := by
  have hmax : ∀ (ns : List Nat) (k : Nat), k ≤ ns.foldl max k ∧ ∀ n ∈ ns, n ≤ ns.foldl max k := by
    intro ns
    induction ns with
    | nil => exact fun k => ⟨Nat.le_refl k, fun n hn => absurd hn List.not_mem_nil⟩
    | cons n ns ih =>
      intro k
      obtain ⟨hstart, hall⟩ := ih (max k n)
      rw [List.foldl_cons, List.forall_mem_cons]
      exact ⟨by omega, by omega, hall⟩
  exact (hmax _ 0).2 _ (List.mem_map_of_mem hr)

namespace Machine

/-! ## Possible expansions -/

/-- Where at least the same expansions are open, at most the same ones are possible. -/
theorem freeAt_mono {h h' : Nat}
    (hsub : ∀ o ∈ m.opened, o.height ≤ h → o ∈ m'.opened ∧ o.height ≤ h') :
    m'.freeAt g h' ≤ m.freeAt g h := by
  apply List.countP_mono_left
  intro s _ hs
  simp only [Bool.not_eq_true', List.any_eq_false, Bool.and_eq_true, decide_eq_true_eq,
    not_and] at hs ⊢
  intro o ho hsymbol hheight
  obtain ⟨ho', hheight'⟩ := hsub o ho hheight
  exact hs o ho' hsymbol hheight'

/-- At most all non-terminals can be expanded. -/
theorem freeAt_le (h : Nat) : m.freeAt g h ≤ g.nonTerminals.length := by
  have hle : m.freeAt g h ≤ g.symbols.length := List.countP_le_length
  rwa [Grammar.symbols, List.length_map] at hle

/-- Above an expansion of the top of the stack, one expansion fewer is possible. -/
theorem freeAt_after_expand {s : Symbol} (hs : m.top = s) (hd : g.declares s = true)
    (hguard : m.repeatsItself = false) (body : Word) {h : Nat} (hh : m.stack.length ≤ h) :
    (m.after (.expand ⟨s, body⟩)).freeAt g h < m.freeAt g m.stack.length := by
  refine countP_lt_countP (a := s) ?_ (Grammar.declares_iff.1 hd) ?_ ?_
  · intro x hx
    simp only [after, List.any_cons, Bool.not_eq_true', Bool.or_eq_false_iff, List.any_eq_false,
      Bool.and_eq_true, decide_eq_true_eq, not_and] at hx ⊢
    intro o ho hsymbol hheight
    exact hx.2 o ho hsymbol (by omega)
  · simp [after, hs, hh]
  · unfold repeatsItself at hguard
    rw [List.any_eq_false] at hguard
    simp only [Bool.not_eq_true', List.any_eq_false, Bool.and_eq_true, not_and]
    intro o ho hsymbol
    exact absurd (hs ▸ hsymbol) (hguard o ho)

/-! ## Weights -/

/-- What a symbol weighs that stands at a height of the stack. -/
def price (g : Grammar) (m : Machine) (height : Nat) : Nat :=
  Nat.pow (g.longestBody + 1) (m.unread.length * g.nonTerminals.length + m.freeAt g height)

theorem weight_cons (s : Symbol) (rest : Word) :
    m.weight g (s :: rest) = m.price g (rest.length + 1) + m.weight g rest := rfl

theorem price_pos (h : Nat) : 0 < m.price g h :=
  Nat.pow_pos (Nat.succ_pos _)

/-- A symbol weighs less if less input is left and fewer expansions are possible. -/
theorem price_mono {h h' : Nat}
    (hle : m'.unread.length * g.nonTerminals.length + m'.freeAt g h' ≤
      m.unread.length * g.nonTerminals.length + m.freeAt g h) : m'.price g h' ≤ m.price g h :=
  Nat.pow_le_pow_right (Nat.succ_pos _) hle

/-- A stack whose symbols weigh less weighs less. -/
theorem weight_mono {v : Word} (h : ∀ k, k ≤ v.length → m'.price g k ≤ m.price g k) :
    m'.weight g v ≤ m.weight g v := by
  induction v with
  | nil => exact Nat.le_refl 0
  | cons s v ih =>
    rw [weight_cons, weight_cons]
    have hfirst := h (v.length + 1) (Nat.le_refl _)
    have hrest := ih fun k hk => h k (Nat.le_succ_of_le hk)
    omega

/-- Symbols that weigh at most so much add at most that much each. -/
theorem weight_append_le {v rest : Word} {bound : Nat}
    (h : ∀ k, rest.length < k → m.price g k ≤ bound) :
    m.weight g (v ++ rest) ≤ v.length * bound + m.weight g rest := by
  induction v with
  | nil =>
    rw [List.nil_append]
    omega
  | cons s v ih =>
    rw [List.cons_append, weight_cons, List.length_cons, Nat.succ_mul]
    -- the first symbol stands above the rest
    have hfirst : m.price g ((v ++ rest).length + 1) ≤ bound := by
      apply h
      rw [List.length_append]
      omega
    omega

/-! ## What a step does to the weight -/

/-- Taking the epsilons off the stack makes it no heavier. -/
theorem weight_uncovered_le (g : Grammar) (m : Machine) :
    m.uncovered.weight g m.uncovered.stack ≤ m.weight g m.stack := by
  refine uncovered_invariant (P := fun k => k.weight g k.stack ≤ m.weight g m.stack) ?_
    (Nat.le_refl _)
  intro rest unread opened hle
  -- what is closed lies above all symbols that are left
  have hrest : weight g ⟨rest, unread, opened.filter fun o => decide (o.height ≤ rest.length)⟩ rest ≤
      weight g ⟨epsilon :: rest, unread, opened⟩ rest := by
    apply weight_mono
    intro k hk
    refine price_mono (Nat.add_le_add_left (freeAt_mono fun o ho hheight => ⟨?_, hheight⟩) _)
    exact List.mem_filter.2 ⟨ho, decide_eq_true (Nat.le_trans hheight hk)⟩
  dsimp only at hle ⊢
  rw [weight_cons] at hle
  omega

/-- Reading a symbol makes the stack lighter. -/
theorem weight_after_advance_lt (htop : m.top ≠ endMarker) (hequal : m.top = m.lookahead) :
    (m.after .advance).weight g (m.after .advance).stack < m.weight g m.stack := by
  obtain ⟨rest, hrest⟩ := exists_unread_of_lookahead hequal.symm htop
  have hlength : (m.after .advance).unread.length + 1 = m.unread.length := by
    show m.unread.tail.length + 1 = m.unread.length
    rw [hrest]
    rfl
  have htail : (m.after .advance).weight g m.stack.tail ≤ m.weight g m.stack.tail := by
    apply weight_mono
    intro k _
    apply price_mono
    -- the unread symbol pays for all expansions that are possible again
    have hfree := freeAt_le (g := g) (m := m.after .advance) k
    rw [← hlength, Nat.succ_mul]
    omega
  have hpos := price_pos (g := g) (m := m) (m.stack.tail.length + 1)
  rw [stack_eq_of_top_ne htop, weight_cons]
  show (m.after .advance).weight g m.stack.tail < _
  omega

/-- Expanding a non-terminal that is not being expanded makes the stack lighter. -/
theorem weight_after_expand_lt (htop : m.top ≠ endMarker) (hguard : m.repeatsItself = false)
    {body : Word} (hrule : ⟨m.top, body⟩ ∈ g.rules) :
    (m.after (.expand ⟨m.top, body⟩)).weight g (m.after (.expand ⟨m.top, body⟩)).stack <
      m.weight g m.stack := by
  have hd : g.declares m.top = true := Grammar.declares_of_mem_rules hrule
  have hstack := stack_eq_of_top_ne htop
  have hheight : m.stack.length = m.stack.tail.length + 1 := by
    rw [hstack]
    rfl
  have htail : (m.after (.expand ⟨m.top, body⟩)).weight g m.stack.tail ≤
      m.weight g m.stack.tail := by
    apply weight_mono
    intro k _
    exact price_mono (Nat.add_le_add_left
      (freeAt_mono fun o ho hle => ⟨List.mem_cons_of_mem _ ho, hle⟩) _)
  -- the exponent of the symbol that was on top is not zero, and those of the body are smaller
  obtain ⟨k, hk⟩ : ∃ k,
      m.unread.length * g.nonTerminals.length + m.freeAt g m.stack.length = k + 1 := by
    have hlt := freeAt_after_expand rfl hd hguard body (Nat.le_refl m.stack.length)
    exact ⟨_, (Nat.succ_pred_eq_of_pos (by omega)).symm⟩
  have hbody : ∀ h, m.stack.tail.length < h →
      (m.after (.expand ⟨m.top, body⟩)).price g h ≤ (g.longestBody + 1) ^ k := by
    intro h hh
    apply Nat.pow_le_pow_right (Nat.succ_pos _)
    have hlt := freeAt_after_expand rfl hd hguard body (h := h) (by omega)
    show m.unread.length * g.nonTerminals.length + _ ≤ k
    omega
  have happend := weight_append_le (v := body) hbody
  have hlength : body.length * (g.longestBody + 1) ^ k ≤ g.longestBody * (g.longestBody + 1) ^ k :=
    Nat.mul_le_mul_right _ (Grammar.length_le_longestBody hrule)
  have hpower : m.price g m.stack.length =
      g.longestBody * (g.longestBody + 1) ^ k + (g.longestBody + 1) ^ k := by
    rw [price, hk]
    show (g.longestBody + 1) ^ (k + 1) = _
    rw [Nat.pow_succ, Nat.mul_comm, Nat.succ_mul]
  have hpos : 0 < (g.longestBody + 1) ^ k := Nat.pow_pos (Nat.succ_pos _)
  have hweight : m.weight g m.stack = m.price g m.stack.length + m.weight g m.stack.tail := by
    rw [hheight, ← weight_cons m.top, ← hstack]
  show (m.after (.expand ⟨m.top, body⟩)).weight g (body ++ m.stack.tail) < _
  omega

end Machine

/-! ## Runs -/

namespace Run

/-- A step of a run that goes on makes the stack lighter. -/
theorem weight_step_lt (ht : t.Aligned) {r : Run} (h : r.outcome = .running) :
    (r.step g t).outcome = .running →
      (r.step g t).machine.weight g (r.step g t).machine.stack <
        r.machine.weight g r.machine.stack := by
  have hle := r.machine.weight_uncovered_le g
  refine step_cases (P := fun next => next.outcome = .running →
    next.machine.weight g next.machine.stack < r.machine.weight g r.machine.stack) h ?_
  intro move hmove hnext
  generalize r.machine.uncovered = m at hle hmove ⊢
  cases hmove with
  | accept htop hunread => cases hnext
  | trailing htop hunread => cases hnext
  | loop htop hdiffer hguard => cases hnext
  | noEntry htop hdiffer hguard hnone => cases hnext
  | advance htop hequal => exact Nat.lt_of_lt_of_le (Machine.weight_after_advance_lt htop hequal) hle
  | expand htop hdiffer hguard hpredicts =>
    exact Nat.lt_of_lt_of_le
      (Machine.weight_after_expand_lt htop hguard (hpredicts.mem_rules ht)) hle

/-- The run on an input ends. -/
theorem outcome_complete_ne_running (ht : t.Aligned) (input : Word) :
    (complete g t input).outcome ≠ .running := by
  refine outcome_iterate_ne_running (I := fun _ => True)
    (fun r => r.machine.weight g r.machine.stack) ?_ trivial (Nat.lt_succ_self _)
  exact fun r hr _ hnext => ⟨trivial, weight_step_lt ht hr hnext⟩

end Run

end LL1
